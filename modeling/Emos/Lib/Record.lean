import Emos.Lib.Bytes
import Mathlib.Data.Set.Function
import Mathlib.Order.Interval.Set.Basic

/-!
This module contains records of a fixed width and strings that end with a zero byte in memory,
arrays of such records, and spans of memory that follow each other without a gap. Two memories that
agree on the bytes of a record hold the same record.
-/

namespace Lib

namespace Bytes

variable {m m' : Bytes} {p n v : Nat}

theorem read_eqOn (h : Set.EqOn m' m (Set.Ico p (p + n))) : read m' p n = read m p n := by
  apply read_congr
  intro i hi
  exact h ⟨by omega, by omega⟩

theorem write_eqOn : Set.EqOn (write m p n v) m (Set.Ico p (p + n))ᶜ := by
  intro q hq
  apply write_outside
  rw [Set.mem_compl_iff, Set.mem_Ico] at hq
  omega

theorem eqOn_trans {m'' : Bytes} {s t u : Set Nat} (h1 : Set.EqOn m' m sᶜ)
    (h2 : Set.EqOn m'' m' tᶜ) (hs : s ⊆ u) (ht : t ⊆ u)
    : Set.EqOn m'' m uᶜ := by
  intro q hq
  rw [h2 (fun h => hq (ht h))]
  rw [h1 (fun h => hq (hs h))]

end Bytes

/--
A record of `width` bytes, with how it is stored and how it is loaded.
-/
structure Codec (α : Type) where
  width : Nat
  put : Bytes → Nat → α → Bytes
  get : Bytes → Nat → α
  put_eqOn : ∀ m p a, Set.EqOn (put m p a) m (Set.Ico p (p + width))ᶜ
  get_eqOn : ∀ m m' p, Set.EqOn m' m (Set.Ico p (p + width)) → get m' p = get m p
  get_put : ∀ m p a, get (put m p a) p = a

namespace Codec

variable {α : Type} (c : Codec α)

/--
Store records one after another.
-/
def putAll (m : Bytes) (p : Nat) : List α → Bytes
  | [] => m
  | a :: as => putAll (c.put m p a) (p + c.width) as

/--
Load `n` records that are stored one after another.
-/
def getAll (m : Bytes) (p : Nat) : Nat → List α
  | 0 => []
  | n + 1 => c.get m p :: getAll m (p + c.width) n

variable {m m' : Bytes} {p n : Nat}

theorem putAll_eqOn (as : List α)
    : Set.EqOn (c.putAll m p as) m (Set.Ico p (p + c.width * as.length))ᶜ := by
  induction as generalizing m p with
  | nil => exact Set.eqOn_refl _ _
  | cons a as ih =>
    rw [putAll]
    rw [List.length_cons, Nat.mul_succ]
    apply Bytes.eqOn_trans (c.put_eqOn m p a) ih
    . exact Set.Ico_subset_Ico_right (by omega)
    . exact Set.Ico_subset_Ico (by omega) (by omega)

theorem getAll_eqOn (h : Set.EqOn m' m (Set.Ico p (p + c.width * n)))
    : c.getAll m' p n = c.getAll m p n := by
  induction n generalizing p with
  | zero => rfl
  | succ n ih =>
    rw [Nat.mul_succ] at h
    rw [getAll, getAll]
    rw [c.get_eqOn m m' p (h.mono (Set.Ico_subset_Ico_right (by omega)))]
    rw [ih (h.mono (Set.Ico_subset_Ico (by omega) (by omega)))]

theorem getAll_putAll (as : List α) : c.getAll (c.putAll m p as) p as.length = as := by
  induction as generalizing m p with
  | nil => rfl
  | cons a as ih =>
    rw [putAll, List.length_cons, getAll]
    rw [ih]
    -- the records that follow leave the first one as it is
    have hfirst : c.get (c.putAll (c.put m p a) (p + c.width) as) p = c.get (c.put m p a) p := by
      apply c.get_eqOn
      apply (c.putAll_eqOn as).mono
      intro q hq hin
      have h1 := hq.2
      have h2 := hin.1
      omega
    rw [hfirst, c.get_put]

theorem putAll_append (as bs : List α)
    : c.putAll m p (as ++ bs) = c.putAll (c.putAll m p as) (p + c.width * as.length) bs := by
  induction as generalizing m p with
  | nil => rfl
  | cons a as ih =>
    rw [List.cons_append, putAll, putAll, ih]
    rw [List.length_cons, Nat.mul_succ]
    rw [show p + c.width + c.width * as.length = p + (c.width * as.length + c.width) by omega]

end Codec

/--
The bytes of a string in front of its terminating zero byte.
-/
structure CString where
  bytes : List (BitVec 8)
  nonzero : 0#8 ∉ bytes
  deriving DecidableEq

namespace CString

def strlen (s : CString) : Nat := s.bytes.length

end CString

namespace Bytes

/--
Store bytes one after another, and a zero byte after the last one.
-/
def putString (m : Bytes) (p : Nat) : List (BitVec 8) → Bytes
  | [] => Function.update m p 0#8
  | b :: bs => putString (Function.update m p b) (p + 1) bs

/--
The bytes in front of the first zero byte, which has to be among the next `n` bytes.
-/
def getString (m : Bytes) (p : Nat) : Nat → Option (List (BitVec 8))
  | 0 => none
  | n + 1 => if m p = 0#8 then some [] else (getString m (p + 1) n).map (m p :: ·)

variable {m m' : Bytes} {p n : Nat}

theorem putString_eqOn (bs : List (BitVec 8))
    : Set.EqOn (putString m p bs) m (Set.Ico p (p + (bs.length + 1)))ᶜ := by
  induction bs generalizing m p with
  | nil =>
    intro q hq
    rw [Set.mem_compl_iff, Set.mem_Ico, List.length_nil] at hq
    exact Function.update_of_ne (by omega) _ _
  | cons b bs ih =>
    have hfirst : Set.EqOn (Function.update m p b) m (Set.Ico p (p + 1))ᶜ := by
      intro q hq
      rw [Set.mem_compl_iff, Set.mem_Ico] at hq
      exact Function.update_of_ne (by omega) _ _
    rw [putString, List.length_cons]
    apply eqOn_trans hfirst ih
    . exact Set.Ico_subset_Ico_right (by omega)
    . exact Set.Ico_subset_Ico (by omega) (by omega)

theorem getString_eqOn {bs : List (BitVec 8)} (hs : getString m p n = some bs)
    (h : Set.EqOn m' m (Set.Ico p (p + (bs.length + 1))))
    : getString m' p n = some bs := by
  induction n generalizing p bs with
  | zero => contradiction
  | succ n ih =>
    rw [getString] at hs ⊢
    rw [h ⟨Nat.le_refl p, by omega⟩]
    split at hs
    next hzero =>
      rw [if_pos hzero]
      exact hs
    next hbyte =>
      rw [if_neg hbyte]
      rw [Option.map_eq_some_iff] at hs
      obtain ⟨rest, hrest, rfl⟩ := hs
      rw [List.length_cons] at h
      rw [ih hrest (h.mono (Set.Ico_subset_Ico (by omega) (by omega)))]
      rfl

theorem getString_mono {k : Nat} {bs : List (BitVec 8)} (hs : getString m p n = some bs) (h : n ≤ k)
    : getString m p k = some bs := by
  induction n generalizing p bs k with
  | zero => contradiction
  | succ n ih =>
    cases k with
    | zero => omega
    | succ k =>
      rw [getString] at hs ⊢
      split at hs
      next hzero =>
        rw [if_pos hzero]
        exact hs
      next hbyte =>
        rw [if_neg hbyte]
        rw [Option.map_eq_some_iff] at hs
        obtain ⟨rest, hrest, rfl⟩ := hs
        rw [ih hrest (by omega)]
        rfl

theorem getString_putString {bs : List (BitVec 8)} (h : 0#8 ∉ bs)
    : getString (putString m p bs) p (bs.length + 1) = some bs := by
  induction bs generalizing m p with
  | nil =>
    rw [putString, List.length_nil, getString]
    rw [Function.update_self]
    rfl
  | cons b bs ih =>
    rw [List.mem_cons, not_or] at h
    have hfirst : putString (Function.update m p b) (p + 1) bs p = b := by
      rw [putString_eqOn bs (fun hin => absurd hin.1 (by omega))]
      exact Function.update_self _ _ _
    rw [putString, List.length_cons, getString]
    rw [hfirst]
    rw [if_neg (fun hb => h.1 hb.symm)]
    rw [ih h.2]
    rfl

end Bytes

/--
The spans, each an address and a size, cover memory from `p` to `q` one after another.
-/
def Tiles (p : Nat) : List (Nat × Nat) → Nat → Prop
  | [], q => p = q
  | ⟨a, n⟩ :: rest, q => a = p ∧ 0 < n ∧ Tiles (p + n) rest q

namespace Tiles

variable {spans : List (Nat × Nat)} {p q : Nat}

theorem le_start (h : Tiles p spans q) : ∀ s ∈ spans, p ≤ s.1 := by
  induction spans generalizing p with
  | nil => simp
  | cons s spans ih =>
    obtain ⟨hstart, _, hrest⟩ := h
    intro s' hmem
    rw [List.mem_cons] at hmem
    cases hmem with
    | inl heq =>
      subst heq
      exact Nat.le_of_eq hstart.symm
    | inr hmem =>
      have := ih hrest s' hmem
      omega

theorem pairwise (h : Tiles p spans q) : spans.Pairwise (fun s t => s.1 + s.2 ≤ t.1) := by
  induction spans generalizing p with
  | nil => exact List.Pairwise.nil
  | cons s spans ih =>
    obtain ⟨hstart, _, hrest⟩ := h
    apply List.Pairwise.cons
    . intro t ht
      have := hrest.le_start t ht
      rw [hstart]
      exact this
    . exact ih hrest

end Tiles

end Lib
