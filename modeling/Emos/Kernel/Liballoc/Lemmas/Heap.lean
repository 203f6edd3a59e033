import Emos.Kernel.Liballoc.Lemmas.Malloc
import Emos.Lib.Loop
import Mathlib.Data.List.Pairwise
import Mathlib.Logic.Relation

/-!
This module contains what holds after every sequence of calls of the heap: what has been handed out lies apart and is
not touched by the heap itself, and nothing is kept from the system once all of it has been taken back.
-/

open Lib

namespace Emos

namespace Liballoc

variable {σ : Type}

namespace Heap

/--
A byte of a header, or the one that `ALIGN` has stored.
-/
inductive Header (h : Heap σ) (a : Nat) : Prop where
  | major {maj : Major} (hmaj : maj ∈ h.majors) (ha : maj.addr ≤ a ∧ a < maj.addr + majorSize)
  | minor {maj : Major} {min : Minor} (hmaj : maj ∈ h.majors) (hmin : min ∈ maj.minors)
    (ha : min.addr ≤ a ∧ a < min.addr + minorSize)
  | info {maj : Major} {min : Minor} (hmaj : maj ∈ h.majors) (hmin : min ∈ maj.minors)
    (ha : a = min.pointer - alignInfo)

/--
The blocks have other pointers and no byte in common.
-/
def Separate (r r' : Nat × Nat) : Prop := r.1 ≠ r'.1 ∧ (r.1 + r.2 ≤ r'.1 ∨ r'.1 + r'.2 ≤ r.1)

/--
What the callers of the heap rely on.
-/
structure Safe (h : Heap σ) : Prop where
  separate : h.live.Pairwise Separate
  aligned : ∀ r ∈ h.live, r.1 % alignment = 0
  inPages : ∀ r ∈ h.live, ∃ s ∈ h.pages, s.1 ≤ r.1 ∧ r.1 + r.2 ≤ s.1 + s.2 * pageSize
  untouched : ∀ r ∈ h.live, ∀ a, r.1 ≤ a → a < r.1 + r.2 → ¬ h.Header a

variable {Owns : σ → List (Nat × Nat) → Prop} {P : Platform σ} {h h' : Heap σ} {maj maj' : Major} {min min' : Minor}

/--
A block and its header lie in its major block behind the header of that.
-/
theorem Valid.extent (hv : h.Valid) (hmaj : maj ∈ h.majors) (hmin : min ∈ maj.minors)
    : maj.addr + majorSize ≤ min.addr ∧ min.addr + minorSize + alignInfo ≤ min.pointer
        ∧ min.pointer + min.reqSize < min.addr + min.len ∧ min.addr + min.len ≤ maj.addr + maj.size
        ∧ min.pointer % alignment = 0 := by
  have hvalid := hv.majors maj hmaj
  have hwithin := hvalid.packed.within hmin
  have hminor := hvalid.minors min hmin
  have hroom := hminor.room
  have hle := hminor.info_le
  have hlt := hminor.info_lt
  have hfits := hvalid.fits
  have hpointer := Minor.pointer_eq hminor (by omega)
  have hlen : min.len = minorSize + min.size := rfl
  refine ⟨hwithin.1, by lia, by lia, hwithin.2, ?_⟩
  rw [hpointer]
  exact hminor.aligned

theorem Valid.majors_apart (hv : h.Valid) (hmaj : maj ∈ h.majors) (hmaj' : maj' ∈ h.majors) (hne : maj ≠ maj')
    : maj.Apart maj' :=
  have : Std.Symm Major.Apart := ⟨fun _ _ h => h.symm⟩
  hv.apart.forall hmaj hmaj' hne

/--
Two blocks are one, or do not overlap with their headers.
-/
theorem Valid.minors_apart (hv : h.Valid) (hmaj : maj ∈ h.majors) (hmin : min ∈ maj.minors) (hmaj' : maj' ∈ h.majors)
    (hmin' : min' ∈ maj'.minors)
    : maj = maj' ∧ min = min' ∨ min.addr + min.len ≤ min'.addr ∨ min'.addr + min'.len ≤ min.addr := by
  by_cases hsame : maj = maj'
  . subst hsame
    by_cases heq : min = min'
    . exact .inl ⟨rfl, heq⟩
    . have hpair : maj.minors.Pairwise fun x y => x.addr + x.len ≤ y.addr ∨ y.addr + y.len ≤ x.addr :=
        (hv.majors maj hmaj).packed.pairwise.imp .inl
      have : Std.Symm fun x y : Minor => x.addr + x.len ≤ y.addr ∨ y.addr + y.len ≤ x.addr := ⟨fun _ _ h => h.symm⟩
      exact .inr (hpair.forall hmin hmin' heq)
  . have hapart := hv.majors_apart hmaj hmaj' hsame
    have hextent := hv.extent hmaj hmin
    have hextent' := hv.extent hmaj' hmin'
    unfold Major.Apart at hapart
    lia

theorem mem_live {r : Nat × Nat} (hr : r ∈ h.live)
    : ∃ maj ∈ h.majors, ∃ min ∈ maj.minors, r = (min.pointer, min.reqSize) := by
  obtain ⟨maj, hmaj, hr⟩ := List.mem_flatMap.mp hr
  obtain ⟨min, hmin, rfl⟩ := List.mem_map.mp hr
  exact ⟨maj, hmaj, min, hmin, rfl⟩

theorem Valid.safe (hv : h.Valid) : h.Safe where
  separate := by
    unfold live
    rw [List.pairwise_flatMap]
    constructor
    . intro maj hmaj
      unfold Major.live
      rw [List.pairwise_map]
      have hpair := (hv.majors maj hmaj).packed.pairwise
      rw [List.pairwise_iff_forall_sublist] at hpair ⊢
      intro x y hsub
      have hle := hpair hsub
      have hx := hv.extent hmaj (hsub.subset List.mem_cons_self)
      have hy := hv.extent hmaj (hsub.subset (List.mem_cons_of_mem _ List.mem_cons_self))
      unfold Separate Minor.block
      dsimp only
      lia
    . have hpair := hv.apart
      rw [List.pairwise_iff_forall_sublist] at hpair ⊢
      intro m m' hsub r hr r' hr'
      have hapart := hpair hsub
      obtain ⟨x, hx, rfl⟩ := List.mem_map.mp hr
      obtain ⟨y, hy, rfl⟩ := List.mem_map.mp hr'
      have hx := hv.extent (hsub.subset List.mem_cons_self) hx
      have hy := hv.extent (hsub.subset (List.mem_cons_of_mem _ List.mem_cons_self)) hy
      unfold Major.Apart at hapart
      unfold Separate Minor.block
      dsimp only
      lia
  aligned := by
    intro r hr
    obtain ⟨maj, hmaj, min, hmin, rfl⟩ := mem_live hr
    exact (hv.extent hmaj hmin).2.2.2.2
  inPages := by
    intro r hr
    obtain ⟨maj, hmaj, min, hmin, rfl⟩ := mem_live hr
    have hextent := hv.extent hmaj hmin
    have hsize := (hv.majors maj hmaj).size_eq
    refine ⟨(maj.addr, maj.pages), List.mem_map.mpr ⟨maj, hmaj, rfl⟩, ?_, ?_⟩
    . dsimp only
      omega
    . dsimp only
      lia
  untouched := by
    intro r hr a hle hlt hheader
    obtain ⟨maj, hmaj, min, hmin, rfl⟩ := mem_live hr
    have hextent := hv.extent hmaj hmin
    dsimp only at hle hlt
    cases hheader with
    | major hmaj' ha =>
      rename_i maj'
      by_cases hsame : maj = maj'
      . subst hsame
        lia
      . have hapart := hv.majors_apart hmaj hmaj' hsame
        unfold Major.Apart at hapart
        have hfresh : majorSize ≤ maj'.size := by
          have := (hv.majors maj' hmaj').packed.le
          omega
        lia
    | minor hmaj' hmin' ha =>
      rename_i maj' min'
      have hextent' := hv.extent hmaj' hmin'
      obtain ⟨_, rfl⟩ | hapart := hv.minors_apart hmaj hmin hmaj' hmin'
      . omega
      . lia
    | info hmaj' hmin' ha =>
      rename_i maj' min'
      have hextent' := hv.extent hmaj' hmin'
      have halign : 0 < alignInfo := by decide
      obtain ⟨_, rfl⟩ | hapart := hv.minors_apart hmaj hmin hmaj' hmin'
      . lia
      . lia

end Heap

section Copy

variable {mem : Memory} {dest src n k : Nat}

/--
Memory where `n` bytes from `src` are at `dest` as well.
-/
def blit (mem : Memory) (dest src n : Nat) : Memory :=
  fun a => if dest ≤ a ∧ a < dest + n then mem (src + (a - dest)) else mem a

theorem blit_inside {i : Nat} (hi : i < n) : blit mem dest src n (dest + i) = mem (src + i) := by
  unfold blit
  rw [if_pos (by omega), Nat.add_sub_cancel_left]

theorem blit_outside {a : Nat} (ha : a < dest ∨ dest + n ≤ a) : blit mem dest src n a = mem a := by
  unfold blit
  rw [if_neg (by omega)]

/--
What is copied first is not what is copied later.
-/
theorem blit_blit (h : dest + (n + k) ≤ src ∨ src + (n + k) ≤ dest)
    : blit (blit mem dest src n) (dest + n) (src + n) k = blit mem dest src (n + k) := by
  funext a
  by_cases hlow : dest ≤ a ∧ a < dest + n
  . obtain ⟨i, rfl⟩ := Nat.exists_eq_add_of_le hlow.1
    rw [blit_outside (by omega), blit_inside (by omega), blit_inside (by omega)]
  . by_cases hhigh : dest + n ≤ a ∧ a < dest + n + k
    . obtain ⟨i, rfl⟩ := Nat.exists_eq_add_of_le hhigh.1
      rw [blit_inside (by lia), blit_outside (by lia), Nat.add_assoc dest, blit_inside (by lia), Nat.add_assoc]
    . rw [blit_outside (by omega), blit_outside (by omega), blit_outside (by omega)]

theorem blit_zero : blit mem dest src 0 = mem := by
  funext a
  exact blit_outside (by omega)

theorem copyBytes_eq (h : dest + n ≤ src ∨ src + n ≤ dest) : copyBytes mem dest src n = blit mem dest src n := by
  induction n generalizing mem dest src with
  | zero => exact blit_zero.symm
  | succ n ih =>
    have hone : Function.update mem dest (mem src) = blit mem dest src 1 := by
      funext a
      by_cases ha : a = dest
      . subst ha
        rw [Function.update_self]
        exact (blit_inside (i := 0) Nat.one_pos).symm
      . rw [Function.update_of_ne ha, blit_outside (by omega)]
    rw [copyBytes, ih (by omega), hone, blit_blit (by omega), Nat.add_comm]

theorem copyWords_eq (h : dest + n * 4 ≤ src ∨ src + n * 4 ≤ dest)
    : copyWords mem dest src n = blit mem dest src (n * 4) := by
  induction n generalizing mem dest src with
  | zero => exact blit_zero.symm
  | succ n ih =>
    have hword : copyWords mem dest src (n + 1) = copyWords (blit mem dest src 4) (dest + 4) (src + 4) n := rfl
    rw [hword, ih (by omega), blit_blit (by omega)]
    congr 1
    omega

theorem liballocMemcpy_eq (h : dest + n ≤ src ∨ src + n ≤ dest)
    : liballocMemcpy mem dest src n = blit mem dest src n := by
  unfold liballocMemcpy
  rw [copyWords_eq (by lia), copyBytes_eq (by lia), blit_blit (by lia)]
  congr 1
  omega

end Copy

namespace Heap

variable {Owns : σ → List (Nat × Nat) → Prop} {P : Platform σ} {h h' : Heap σ} {maj : Major} {min : Minor}
  {front back : List Major} {p size : Nat} {mem : Memory}

theorem Inserts.perm {α : Type} {xs xs' : List α} {x : α} (hins : Inserts xs x xs') : xs'.Perm (x :: xs) := by
  obtain ⟨front, back, rfl, rfl⟩ := hins
  exact List.perm_middle

/--
A block is said to be a smaller one.
-/
theorem Sound.setReqSize (hs : h.Sound Owns) (hmajors : h.majors = front ++ maj :: back) (hmin : min ∈ maj.minors)
    (hle : size ≤ min.reqSize)
    : (h.setReqSize front.length maj min size).Sound Owns
        ∧ (min.block :: (h.setReqSize front.length maj min size).live).Perm ((min.pointer, size) :: h.live) := by
  obtain ⟨before, behind, hnot, hminors, -⟩ := List.exists_erase_eq hmin
  have hreplace : maj.minors.replace min { min with reqSize := size }
      = before ++ { min with reqSize := size } :: behind := by
    rw [hminors, List.replace_append_right hnot, List.replace_cons_self]
  have hold := hs.majors maj (mem_middle hmajors)
  have hvalid : ({ maj with minors := before ++ { min with reqSize := size } :: behind } : Major).Valid := by
    refine ⟨hold.size_eq, hold.addr_pos, hold.fits, ?_, ?_, ?_⟩
    . have hpacked := hold.packed
      rw [hminors] at hpacked
      obtain ⟨mid, hbefore, hbehind⟩ := Packed.append.mp hpacked
      exact Packed.append.mpr ⟨mid, hbefore, hbehind.1, hbehind.2⟩
    . have husage := hold.usage_eq
      rw [hminors, occupied_insert] at husage
      dsimp only
      rw [occupied_insert]
      exact husage
    . intro m hm
      dsimp only at hm
      rw [List.mem_append, List.mem_cons] at hm
      have hall := hold.minors
      rw [hminors] at hall
      obtain hm | rfl | hm := hm
      . exact hall m (List.mem_append_left _ hm)
      . have hmin := hold.minors min hmin
        exact ⟨Nat.le_trans (Nat.add_le_add_right hle _) hmin.room, hmin.info_le, hmin.info_lt, hmin.aligned⟩
      . exact hall m (List.mem_append_right _ (List.mem_cons_of_mem _ hm))
  have hinuse : h.inuse
      = u64 ((front ++ { maj with minors := before ++ { min with reqSize := size } :: behind } :: back).map
        Major.inuse).sum := by
    have hmaj : maj.inuse
        = ({ maj with minors := before ++ { min with reqSize := size } :: behind } : Major).inuse := by
      unfold Major.inuse
      rw [hminors, List.map_append, List.map_append, List.map_cons, List.map_cons]
    rw [hs.inuse_eq, hmajors, List.map_append, List.map_append, List.map_cons, List.map_cons, hmaj]
  unfold Heap.setReqSize
  rw [hreplace, set_middle hmajors]
  refine ⟨⟨hs.toValid.replace hmajors hvalid rfl rfl hinuse, ?_, ?_⟩, ?_⟩
  . have hused := hs.used
    rw [hmajors] at hused
    intro m hm
    dsimp only at hm
    rw [List.mem_append, List.mem_cons] at hm
    obtain hm | rfl | hm := hm
    . exact hused m (List.mem_append_left _ hm)
    . exact List.append_ne_nil_of_right_ne_nil _ (List.cons_ne_nil _ _)
    . exact hused m (List.mem_append_right _ (List.mem_cons_of_mem _ hm))
  . have howns := hs.owns
    unfold pages at howns ⊢
    rw [hmajors, List.map_append, List.map_cons] at howns
    rw [List.map_append, List.map_cons]
    exact howns
  . have hold : Inserts ((before ++ behind).map Minor.block) min.block maj.live := by
      refine ⟨before.map Minor.block, behind.map Minor.block, List.map_append, ?_⟩
      unfold Major.live
      rw [hminors, List.map_append, List.map_cons]
    have hnew : Inserts ((before ++ behind).map Minor.block) (min.pointer, size)
        ((before ++ { min with reqSize := size } :: behind).map Minor.block) :=
      ⟨before.map Minor.block, behind.map Minor.block, List.map_append, List.map_append⟩
    have hlive := live_split (h := {
      h with majors := front ++ { maj with minors := before ++ { min with reqSize := size } :: behind } :: back
    }) rfl
    rw [live_split hmajors, hlive]
    have hold := (hold.append (front.flatMap Major.live) (back.flatMap Major.live)).perm
    have hnew := (hnew.append (front.flatMap Major.live) (back.flatMap Major.live)).perm
    exact (hnew.cons _).trans ((List.Perm.swap _ _ _).trans (hold.symm.cons _))

theorem Separate.symm {r r' : Nat × Nat} (hr : Separate r r') : Separate r' r := ⟨hr.1.symm, hr.2.symm⟩

/--
A new block has no byte in common with those that were there.
-/
theorem Safe.separate_new (hs : h'.Safe) {r r' : Nat × Nat} (hins : Inserts h.live r h'.live) (hr' : r' ∈ h.live)
    : Separate r r' := by
  have hpair := hs.separate
  rw [hins.perm.pairwise_iff fun hr => hr.symm, List.pairwise_cons] at hpair
  exact hpair.1 r' hr'

/--
A pointer is handed out for one number of bytes.
-/
theorem size_unique {live : List (Nat × Nat)} {p n n' : Nat} (hsep : live.Pairwise Separate) (hn : (p, n) ∈ live)
    (hn' : (p, n') ∈ live)
    : n = n' := by
  by_contra hne
  have : Std.Symm Separate := ⟨fun _ _ hr => hr.symm⟩
  exact (hsep.forall hn hn' fun heq => hne (Prod.mk.inj heq).2).1 rfl

/--
The system has refused pages for a block of `size` bytes, and there was no other room for it.
-/
def Refused (P : Platform σ) (h : Heap σ) (size : Nat) : Prop :=
  h.Full (size + (alignment + alignInfo)) ∧ ∃ n s, P.alloc h.system n = .ok (none, s)

/--
What was in the block is in the new one, and the other blocks are as they were.
-/
structure Moved (h : Heap σ) (mem : Memory) (p n q size : Nat) (mem' : Memory) : Prop where
  kept : ∀ i, i < n → i < size → mem' (q + i) = mem (p + i)
  others : ∀ r ∈ h.live, r.1 ≠ p → ∀ a, r.1 ≤ a → a < r.1 + r.2 → mem' a = mem a

/--
A block gets another size, and perhaps another place. If there is no memory for it, then it is lost together with the
run, as something is copied to `NULL`, except when there was nothing in it.
-/
theorem realloc_spec (hP : P.Lawful Owns) (hs : h.Sound Owns) (hp : p ∈ h.live.map Prod.fst) (hpos : 0 < size)
    (hreq : size + (alignment + alignInfo) + (majorSize + minorSize) < 2 ^ 32) (mem : Memory)
    : ∃ n, (p, n) ∈ h.live
        ∧ ((∃ q h' mem', realloc P (some p) size h mem = .ok (some q, h', mem') ∧ h'.Sound Owns
              ∧ ((p, n) :: h'.live).Perm ((q, size) :: h.live) ∧ Moved h mem p n q size mem')
          ∨ n < size ∧ Refused P h size
            ∧ (0 < n ∧ realloc P (some p) size h mem = .error .access
              ∨ n = 0 ∧ ∃ h', realloc P (some p) size h mem = .ok (none, h', mem) ∧ h'.Sound Owns
                ∧ h.live.Perm ((p, 0) :: h'.live))) := by
  obtain ⟨front, maj, back, min, hmajors, hmin, hpointer, hblock⟩ := blockOf_of_live hp
  have hmaj := mem_middle hmajors
  have hmem : (p, min.reqSize) ∈ h.live := by
    rw [← hpointer]
    exact List.mem_flatMap.mpr ⟨maj, hmaj, List.mem_map.mpr ⟨min, hmin, rfl⟩⟩
  refine ⟨min.reqSize, hmem, ?_⟩
  unfold realloc
  rw [if_neg (by omega)]
  dsimp only
  rw [hblock]
  dsimp only
  by_cases hge : min.reqSize ≥ size
  . obtain ⟨hsound, hperm⟩ := hs.setReqSize hmajors hmin hge
    unfold Minor.block at hperm
    rw [hpointer] at hperm
    rw [if_pos hge]
    exact .inl ⟨p, _, mem, rfl, hsound, hperm, fun _ _ _ => rfl, fun _ _ _ _ _ _ => rfl⟩
  . rw [if_neg hge]
    obtain ⟨q, h₁, hrun, hs₁, hins, _⟩ | ⟨h₁, hrun, hs₁, hsame, hfull, k, halloc⟩ := malloc_spec hP hreq hs
    . have hmem₁ : (p, min.reqSize) ∈ h₁.live := hins.perm.mem_iff.mpr (List.mem_cons_of_mem _ hmem)
      obtain ⟨n, h₂, hfree, hs₂, hins₂, _⟩ := free_spec hP hs₁ (List.mem_map.mpr ⟨_, hmem₁, rfl⟩)
      have hsafe := hs₁.toValid.safe
      have hn : n = min.reqSize := size_unique hsafe.separate (hins₂.perm.mem_iff.mpr List.mem_cons_self) hmem₁
      have hsep := hsafe.separate_new hins hmem
      unfold Separate at hsep
      dsimp only at hsep
      rw [hn] at hins₂
      rw [hrun, ok_bind]
      dsimp only
      rw [hfree, liballocMemcpy_eq (by lia)]
      refine .inl ⟨q, h₂, _, rfl, hs₂, hins₂.perm.symm.trans hins.perm, ?_, ?_⟩
      . intro i hi _
        exact blit_inside hi
      . intro r hr _ a hle hlt
        have hsep := hsafe.separate_new hins hr
        unfold Separate at hsep
        dsimp only at hsep
        exact blit_outside (by lia)
    . refine .inr ⟨by omega, ⟨hfull, k, h₁.system, halloc⟩, ?_⟩
      rw [hrun, ok_bind]
      dsimp only
      by_cases hzero : min.reqSize = 0
      . have hp₁ : p ∈ h₁.live.map Prod.fst := by
          unfold live at hp ⊢
          rw [hsame]
          exact hp
        obtain ⟨n, h₂, hfree, hs₂, hins₂, _⟩ := free_spec hP hs₁ hp₁
        have hlive : h₁.live = h.live := congrArg (List.flatMap Major.live) hsame
        rw [hlive] at hins₂
        have hn := size_unique hs.toValid.safe.separate (hins₂.perm.mem_iff.mpr List.mem_cons_self) hmem
        rw [hn, hzero] at hins₂
        rw [if_pos hzero, hfree]
        exact .inr ⟨hzero, h₂, rfl, hs₂, hins₂.perm⟩
      . rw [if_neg hzero]
        exact .inl ⟨by omega, rfl⟩

end Heap

end Liballoc

end Emos
