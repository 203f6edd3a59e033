import Emos.Boot.Stdc.Impl.String

/-!
This module contains for which regions `memmove` copies the bytes that the source had before. The distance
from the source to the destination is a number below `2 ^ 32`, so that it does not matter where a region is.
-/

namespace Emos.Boot.Stdc

/--
The destination gets what the source had, and nothing else is changed.
-/
def Moves (m : Memory) (dest src len : BitVec 32) (m' : Memory) : Prop :=
  ∀ a, m' a = if dest.toNat ≤ a.toNat ∧ a.toNat < dest.toNat + len.toNat then m (src + (a - dest)) else m a

/--
Two regions that overlap and are not the same are in the same half of the address space.
-/
def Ordered (dest src len : BitVec 32) : Prop :=
  dest = src ∨ dest.toNat + len.toNat ≤ src.toNat ∨ src.toNat + len.toNat ≤ dest.toNat ∨ dest.msb = src.msb

namespace memmove

variable {m : Memory} {dest src a : BitVec 32} {n k : Nat}

theorem sub_succ (a dest : BitVec 32) : a - (dest + 1) = a - dest - 1 := by grind

theorem succ_sub_succ (dest src : BitVec 32) : dest + 1 - (src + 1) = dest - src := by grind

theorem succ_add_sub_succ (a dest src : BitVec 32) : src + 1 + (a - (dest + 1)) = src + (a - dest) := by grind

theorem eq_of_sub_eq_zero (h : a - dest = 0) : a = dest := by
  rw [BitVec.sub_eq_iff_eq_add] at h
  rw [h]
  exact BitVec.zero_add dest

theorem toNat_sub_succ (h : a ≠ dest) : (a - (dest + 1)).toNat + 1 = (a - dest).toNat := by
  have hne : a - dest ≠ 0 := fun heq => h (eq_of_sub_eq_zero heq)
  rw [sub_succ]
  generalize a - dest = d at hne
  bv_omega

theorem toNat_sub_self (a : BitVec 32) : (a - a).toNat = 0 := by rw [BitVec.sub_self]; rfl

theorem toNat_sub_next (a : BitVec 32) : (a - (a + 1)).toNat = 2 ^ 32 - 1 := by
  rw [sub_succ, BitVec.sub_self]
  rfl

theorem forward_outside (hn : n ≤ 2 ^ 32) (ha : n ≤ (a - dest).toNat)
    : forward m dest src n a = m a := by
  induction n generalizing m dest src with
  | zero => rfl
  | succ n ih =>
    have hne : a ≠ dest := by
      rintro rfl
      rw [toNat_sub_self] at ha
      omega
    have hstep := toNat_sub_succ hne
    rw [forward, ih (by omega) (by omega), Function.update_of_ne hne]

theorem forward_add (m : Memory) (dest src : BitVec 32) (n k : Nat)
    : forward m dest src (n + k)
        =
      forward (forward m dest src n) (dest + BitVec.ofNat 32 n) (src + BitVec.ofNat 32 n) k := by
  induction n generalizing m dest src with
  | zero => simp [forward]
  | succ n ih =>
    have hnext (p : BitVec 32) : p + 1 + BitVec.ofNat 32 n = p + BitVec.ofNat 32 (n + 1) := by
      rw [BitVec.ofNat_add, BitVec.add_assoc, BitVec.add_comm 1]
      rfl
    rw [Nat.add_right_comm, forward, ih, hnext, hnext]
    rfl

/--
No byte of the source is overwritten before it is read.
-/
theorem forward_inside (hn : n ≤ 2 ^ 32) (h : dest = src ∨ n ≤ (dest - src).toNat) (ha : (a - dest).toNat < n)
    : forward m dest src n a = m (src + (a - dest)) := by
  induction n generalizing m dest src with
  | zero => contradiction
  | succ n ih =>
    rw [forward]
    by_cases hfirst : a = dest
    . subst hfirst
      have hlast : n ≤ (a - (a + 1)).toNat := by
        rw [toNat_sub_next]
        omega
      rw [forward_outside (by omega) hlast, Function.update_self, BitVec.sub_self]
      exact congrArg m (BitVec.add_zero src).symm
    . have hstep := toNat_sub_succ hfirst
      have hnext : dest + 1 = src + 1 ∨ n ≤ (dest + 1 - (src + 1)).toNat := by
        rw [succ_sub_succ]
        exact h.imp (congrArg (· + 1)) Nat.le_of_succ_le
      rw [ih (by omega) hnext (by omega), succ_add_sub_succ, Function.update_apply]
      split
      . next hread =>
        -- only a byte that is copied to itself can have been overwritten
        have hback : a - dest = dest - src := by
          rw [BitVec.eq_sub_iff_add_eq, BitVec.add_comm]
          exact hread
        obtain rfl | hle := h
        . rw [BitVec.sub_self] at hback
          exact absurd (eq_of_sub_eq_zero hback) hfirst
        . rw [← hback] at hle
          omega
      . rfl

/--
A byte of the source that is overwritten before it is read is replaced by the first one.
-/
theorem forward_overlap (hn : n ≤ 2 ^ 32) (hpos : dest ≠ src) (h : (dest - src).toNat < n)
    : forward m dest src n (dest + (dest - src)) = m src := by
  obtain ⟨k, hk⟩ := Nat.exists_eq_add_of_lt h
  have hone (m : Memory) (dest src : BitVec 32) (k : Nat) : forward m dest src (1 + k)
      = forward (Function.update m dest (m src)) (dest + 1) (src + 1) k := by
    rw [Nat.add_comm, forward]
  have hcopied : forward m dest src (dest - src).toNat dest = m src := by
    have hdiffer : dest - src ≠ 0 := fun heq => hpos (eq_of_sub_eq_zero heq)
    have hself : (dest - dest).toNat < (dest - src).toNat := by
      rw [toNat_sub_self, Nat.pos_iff_ne_zero]
      exact fun heq => hdiffer (BitVec.eq_of_toNat_eq heq)
    rw [forward_inside (by omega) (.inr (Nat.le_refl _)) hself, BitVec.sub_self]
    exact congrArg m (BitVec.add_zero src)
  have hdistance : BitVec.ofNat 32 (dest - src).toNat = dest - src := by
    rw [BitVec.ofNat_toNat, BitVec.setWidth_eq]
  have hsource : src + (dest - src) = dest := by rw [BitVec.add_comm, BitVec.sub_add_cancel]
  have hlast (p : BitVec 32) : k ≤ (p - (p + 1)).toNat := by
    rw [toNat_sub_next]
    omega
  rw [hk, Nat.add_assoc, Nat.add_comm k 1, forward_add, hdistance, hsource, hone, forward_outside (by omega) (hlast _),
    Function.update_self, hcopied]

/--
The address space from its end to its start.
-/
def mirror (m : Memory) : Memory := fun a => m (-1 - a)

theorem mirror_eq {a b : BitVec 32} (m : Memory) (h : b = -1 - a) : mirror m a = m b := congrArg m h.symm

theorem sub_sub_self (a : BitVec 32) : -1 - (-1 - a) = a := by grind

theorem mirror_update (m : Memory) (a : BitVec 32) (c : BitVec 8)
    : mirror (Function.update m a c) = Function.update (mirror m) (-1 - a) c := by
  funext b
  unfold mirror
  rw [Function.update_apply, Function.update_apply]
  apply if_congr
  . constructor
    . rintro rfl
      exact (sub_sub_self b).symm
    . rintro rfl
      exact sub_sub_self a
  . rfl
  . rfl

theorem mirror_backward (m : Memory) (dest src : BitVec 32) (n : Nat)
    : mirror (backward m dest src n) = forward (mirror m) (-dest) (-src) n := by
  induction n generalizing m dest src with
  | zero => rfl
  | succ n ih =>
    have hnext (p : BitVec 32) : -(p - 1) = -p + 1 := by grind
    have hwrite : -1 - (dest - 1) = -dest := by grind
    have hread : mirror m (-src) = m (src - 1) := mirror_eq m (by grind)
    rw [backward, ih, mirror_update, hnext, hnext, hwrite, forward, hread]

theorem backward_eq (m : Memory) (dest src : BitVec 32) (n : Nat) (a : BitVec 32)
    : backward m dest src n a = forward (mirror m) (-dest) (-src) n (-1 - a) := by
  have hsame : a = -1 - (-1 - a) := by grind
  rw [← mirror_backward, mirror_eq _ hsame]

theorem backward_outside (hn : n ≤ 2 ^ 32) (ha : n ≤ (dest - 1 - a).toNat)
    : backward m dest src n a = m a := by
  have hsame : a = -1 - (-1 - a) := by grind
  have hdistance : -1 - a - -dest = dest - 1 - a := by grind
  rw [backward_eq, forward_outside hn (by rwa [hdistance]), mirror_eq m hsame]

theorem backward_inside (hn : n ≤ 2 ^ 32) (h : dest = src ∨ n ≤ (src - dest).toNat) (ha : (dest - 1 - a).toNat < n)
    : backward m dest src n a = m (src - (dest - a)) := by
  have hdistance : -1 - a - -dest = dest - 1 - a := by grind
  have hswap : -dest - -src = src - dest := by grind
  have hsource : src - (dest - a) = -1 - (-src + (dest - 1 - a)) := by grind
  have hordered : -dest = -src ∨ n ≤ (-dest - -src).toNat := by
    rw [hswap]
    exact h.imp_left (congrArg (- ·))
  rw [backward_eq, forward_inside hn hordered (by rwa [hdistance]), hdistance, mirror_eq m hsource]

theorem backward_overlap (hn : n ≤ 2 ^ 32) (hne : dest ≠ src) (h : (src - dest).toNat < n)
    : backward m dest src n (dest - 1 - (src - dest)) = m (src - 1) := by
  have hswap : -dest - -src = src - dest := by grind
  have hsame : -1 - (dest - 1 - (src - dest)) = -dest + (src - dest) := by grind
  have hsource : src - 1 = -1 - -src := by grind
  have hneg : -dest ≠ -src := fun heq => hne (BitVec.neg_inj.mp heq)
  have hcopied := forward_overlap (m := mirror m) hn hneg (by rwa [hswap])
  rw [hswap] at hcopied
  rw [backward_eq, hsame, hcopied, mirror_eq m hsource]

end memmove

open memmove

variable {dest src len : BitVec 32}

theorem toInt_lt_iff (h : dest.msb = src.msb) : src.toInt < dest.toInt ↔ src.toNat < dest.toNat := by
  rw [BitVec.toInt_eq_msb_cond, BitVec.toInt_eq_msb_cond, h]
  split <;> omega

theorem toInt_lt_of_msb (h : dest.msb ≠ src.msb) : src.toInt < dest.toInt ↔ dest.toNat < src.toNat := by
  have hdest := BitVec.msb_eq_decide dest
  have hsrc := BitVec.msb_eq_decide src
  rw [BitVec.toInt_eq_msb_cond, BitVec.toInt_eq_msb_cond]
  cases hd : dest.msb <;> cases hs : src.msb <;> rw [hd] at h hdest <;> rw [hs] at h hsrc <;> simp at h hdest hsrc ⊢
  . omega
  . omega

theorem inside_iff (hdest : dest.toNat + len.toNat ≤ 2 ^ 32) (a : BitVec 32)
    : dest.toNat ≤ a.toNat ∧ a.toNat < dest.toNat + len.toNat ↔ (a - dest).toNat < len.toNat := by
  bv_omega

theorem moves_forward (m : Memory) (hdest : dest.toNat + len.toNat ≤ 2 ^ 32)
    (h : dest = src ∨ len.toNat ≤ (dest - src).toNat)
    : Moves m dest src len (forward m dest src len.toNat) := by
  intro a
  have hlen : len.toNat ≤ 2 ^ 32 := by omega
  rw [if_congr (inside_iff hdest a) rfl rfl]
  split
  . next ha => exact forward_inside hlen h ha
  . next ha => exact forward_outside hlen (Nat.not_lt.mp ha)

/--
The distance of an address from the last one of a region.
-/
theorem sub_last (dest len a : BitVec 32) : dest + len - 1 - a = len - 1 - (a - dest) := by grind

theorem sub_last_lt_iff (len d : BitVec 32) : (len - 1 - d).toNat < len.toNat ↔ d.toNat < len.toNat := by
  bv_omega

theorem moves_backward (m : Memory) (hdest : dest.toNat + len.toNat ≤ 2 ^ 32)
    (h : dest = src ∨ len.toNat ≤ (src - dest).toNat)
    : Moves m dest src len (backward m (dest + len) (src + len) len.toNat) := by
  intro a
  have hlen : len.toNat ≤ 2 ^ 32 := by omega
  rw [if_congr (inside_iff hdest a) rfl rfl]
  split
  . next ha =>
    have hswap : src + len - (dest + len) = src - dest := by grind
    have hread : src + len - (dest + len - a) = src + (a - dest) := by grind
    rw [backward_inside hlen, hread]
    . rw [hswap]
      exact h.imp_left fun heq => by rw [heq]
    . rwa [sub_last, sub_last_lt_iff]
  . next ha =>
    rw [backward_outside hlen]
    rwa [sub_last, ← Nat.not_lt, sub_last_lt_iff]

/--
Bytes are copied from the first to the last one only if none of the source is overwritten, and the same holds for
the other direction.
-/
theorem moves_of_ordered (m : Memory) (hdest : dest.toNat + len.toNat ≤ 2 ^ 32) (hsrc : src.toNat + len.toNat ≤ 2 ^ 32)
    (h : Ordered dest src len)
    : Moves m dest src len (memmove m dest src len).2 := by
  unfold memmove
  split
  . next hgt =>
    apply moves_backward m hdest
    obtain rfl | hbelow | habove | hmsb := h
    . exact .inl rfl
    . right
      bv_omega
    . right
      bv_omega
    . right
      rw [gt_iff_lt, toInt_lt_iff hmsb] at hgt
      bv_omega
  . next hle =>
    apply moves_forward m hdest
    obtain rfl | hbelow | habove | hmsb := h
    . exact .inl rfl
    . by_cases heq : dest = src
      . exact .inl heq
      . right
        bv_omega
    . by_cases heq : dest = src
      . exact .inl heq
      . right
        bv_omega
    . by_cases heq : dest = src
      . exact .inl heq
      . right
        rw [gt_iff_lt, toInt_lt_iff hmsb] at hle
        bv_omega

/--
Memory with one byte that is not zero.
-/
def marked (p : BitVec 32) : Memory := Function.update (fun _ => 0) p 1

/--
A byte of the destination gets the marked one instead of its own.
-/
theorem not_moves {p q a : BitVec 32} {m' : Memory} (hne : q ≠ p) (ha : (a - dest).toNat < len.toNat)
    (hdest : dest.toNat + len.toNat ≤ 2 ^ 32) (hread : src + (a - dest) = q) (hcopied : m' a = marked p p)
    : ¬ Moves (marked p) dest src len m' := by
  intro h
  have hmoved := h a
  rw [if_pos ((inside_iff hdest a).mpr ha), hread, hcopied, marked, Function.update_self,
    Function.update_of_ne hne] at hmoved
  exact absurd hmoved (by decide)

theorem distance_lt (hle : src.toNat ≤ dest.toNat) (h : dest.toNat < src.toNat + len.toNat)
    : (dest - src).toNat < len.toNat := by
  bv_omega

theorem ordered_of_moves (hdest : dest.toNat + len.toNat ≤ 2 ^ 32)
    (h : ∀ m, Moves m dest src len (memmove m dest src len).2)
    : Ordered dest src len := by
  by_contra hnot
  unfold Ordered at hnot
  simp only [not_or, Nat.not_le] at hnot
  obtain ⟨hne, hbelow, habove, hmsb⟩ := hnot
  have hlen : len.toNat ≤ 2 ^ 32 := by omega
  have hdirection := toInt_lt_of_msb hmsb
  unfold memmove at h
  by_cases hlt : dest.toNat < src.toNat
  . -- the last byte is copied first, to one of the source
    have hm := h (marked (src + len - 1))
    rw [if_pos (hdirection.mpr hlt)] at hm
    have hends : dest + len ≠ src + len := fun heq => hne ((BitVec.add_left_inj len).mp heq)
    have hlast : dest + len - 1 ≠ src + len - 1 := fun heq => hends ((BitVec.sub_left_inj 1).mp heq)
    have hswap : src + len - (dest + len) = src - dest := by grind
    have hdistance := distance_lt (Nat.le_of_lt hlt) hbelow
    have hcopied := backward_overlap (m := marked (src + len - 1)) hlen hends (by rwa [hswap])
    rw [hswap] at hcopied
    have hinside : dest + len - 1 - (src - dest) - dest = len - 1 - (src - dest) := by grind
    refine not_moves hlast ?_ hdest ?_ hcopied hm
    . rwa [hinside, sub_last_lt_iff]
    . grind
  . -- the first byte is copied first, to one of the source
    have hm := h (marked src)
    rw [if_neg (mt hdirection.mp hlt)] at hm
    have hdistance := distance_lt (Nat.not_lt.mp hlt) habove
    have hinside : dest + (dest - src) - dest = dest - src := by grind
    refine not_moves hne ?_ hdest ?_ (forward_overlap hlen hne hdistance) hm
    . rwa [hinside]
    . grind

theorem memmove_iff (dest src len : BitVec 32) (hdest : dest.toNat + len.toNat ≤ 2 ^ 32)
    (hsrc : src.toNat + len.toNat ≤ 2 ^ 32)
    : (∀ m, Moves m dest src len (memmove m dest src len).2) ↔ Ordered dest src len :=
  ⟨ordered_of_moves hdest, fun h m => moves_of_ordered m hdest hsrc h⟩

/--
Regions that overlap, in both directions.
-/
theorem memmove_iff_overlap
    : ((∀ m, Moves m 0x1002 0x1000 8 (memmove m 0x1002 0x1000 8).2) ↔ Ordered 0x1002 0x1000 8)
        ∧ ((∀ m, Moves m 0x1000 0x1002 8 (memmove m 0x1000 0x1002 8).2) ↔ Ordered 0x1000 0x1002 8) :=
  ⟨memmove_iff _ _ _ (by decide) (by decide), memmove_iff _ _ _ (by decide) (by decide)⟩

/--
Two bytes are moved up by one from the last address that is not negative. The second one is lost.
-/
theorem memmove_negative
    : (memmove (marked 0x7fffffff) 0x80000000 0x7fffffff 2).2 0x80000001 = 1
        ∧ ¬ Moves (marked 0x7fffffff) 0x80000000 0x7fffffff 2 (memmove (marked 0x7fffffff) 0x80000000 0x7fffffff 2).2 := by
  have hcopied : (memmove (marked 0x7fffffff) 0x80000000 0x7fffffff 2).2 0x80000001 = 1 := by decide
  refine ⟨hcopied, ?_⟩
  intro h
  have hmoved := h 0x80000001
  rw [hcopied] at hmoved
  exact absurd hmoved (by decide)

end Emos.Boot.Stdc
