import Emos.Boot.Stdc.Impl.String
import Emos.Lib.Loop
import Mathlib.Data.List.GetD

/-!
This module contains what the string functions of the boot loader's library read and return, and for which strings
`strncasecmp` tells whether they are equal when letters of both cases are the same.
-/

open Lib

namespace Emos.Boot.Stdc

variable {m : Buffer (BitVec 8)} {p n k limit : Nat} {text : List (BitVec 8)}

/--
The characters from `p` on are those of a text, as far as it goes, but not more than `limit` of them.
-/
def Agrees (m : Buffer (BitVec 8)) (text : List (BitVec 8)) (p limit : Nat) : Prop :=
  ∀ i < limit, ∀ c, text[i]? = some c → p + i < m.size ∧ m.data (p + i) = c

/--
The first character from `p` on that is not the one of the text is in memory.
-/
def DiffersAt (m : Buffer (BitVec 8)) (text : List (BitVec 8)) (p j : Nat) : Prop :=
  Agrees m text p j ∧ ∃ c, text[j]? = some c ∧ p + j < m.size ∧ m.data (p + j) ≠ c

theorem agrees_cons {c : BitVec 8}
    : Agrees m (c :: text) p (n + 1)
        ↔
      (p < m.size ∧ m.data p = c) ∧ Agrees m text (p + 1) n := by
  unfold Agrees
  constructor
  . intro h
    refine ⟨h 0 (Nat.zero_lt_succ n) c rfl, ?_⟩
    intro i hi c' hc'
    have := h (i + 1) (by omega) c' hc'
    rw [show p + (i + 1) = p + 1 + i by omega] at this
    exact this
  . intro ⟨hfirst, hrest⟩ i hi c' hc'
    cases i with
    | zero =>
      cases hc'
      exact hfirst
    | succ i =>
      have := hrest i (by omega) c' hc'
      rw [show p + (i + 1) = p + 1 + i by omega]
      exact this

theorem differsAt_succ {c : BitVec 8} {j : Nat}
    : DiffersAt m (c :: text) p (j + 1)
        ↔
      (p < m.size ∧ m.data p = c) ∧ DiffersAt m text (p + 1) j := by
  unfold DiffersAt
  rw [agrees_cons, List.getElem?_cons_succ, show p + (j + 1) = p + 1 + j by omega, and_assoc]

theorem differsAt_zero {c : BitVec 8} : DiffersAt m (c :: text) p 0 ↔ p < m.size ∧ m.data p ≠ c := by
  simp [DiffersAt, Agrees]

/--
How many characters are compared at most.
-/
def comparedLength (maxlen : Nat) : Nat := sub32 maxlen 1 + 1

theorem agrees_nil : Agrees m [] p n := by
  intro i _ c hc
  cases hc

theorem not_differsAt_nil {j : Nat} : ¬ DiffersAt m [] p j := by
  intro ⟨_, c, hc, _⟩
  cases hc

theorem comparedLength_sub32 {maxlen : Nat} (h : sub32 maxlen 1 ≠ 0)
    : comparedLength (sub32 maxlen 1) = sub32 maxlen 1 := by
  have hlt : sub32 maxlen 1 < 2 ^ 32 := u32_lt _
  unfold comparedLength
  rw [sub32_of_le (by omega) hlt]
  omega

theorem char_sub_eq_zero_iff (c c' : BitVec 8) : ((c.toNat : Int) - c'.toNat = 0) ↔ c' = c := by
  rw [Int.sub_eq_zero, Int.ofNat_inj]
  exact ⟨fun h => BitVec.eq_of_toNat_eq h.symm, fun h => by rw [h]⟩

theorem exists_lt_succ_iff {P : Nat → Prop} : (∃ j < n + 1, P j) ↔ P 0 ∨ ∃ j < n, P (j + 1) := by
  constructor
  . intro ⟨j, hj, h⟩
    cases j with
    | zero => exact .inl h
    | succ j => exact .inr ⟨j, by omega, h⟩
  . intro h
    obtain h | ⟨j, hj, h⟩ := h
    . exact ⟨0, by omega, h⟩
    . exact ⟨j + 1, by omega, h⟩

theorem strncmp_cons {c : BitVec 8} {maxlen : Nat} (hp : p < m.size)
    : strncmp (c :: text) (m.get .access) p maxlen
        =
      if sub32 maxlen 1 ≠ 0 ∧ c = m.data p then
        strncmp text (m.get .access) (p + 1) (sub32 maxlen 1)
      else
        .ok (c.toNat - (m.data p).toNat) := by
  rw [strncmp, Buffer.get_of_lt hp, ok_bind]

theorem strncmp_cons_error {c : BitVec 8} {maxlen : Nat} (hp : ¬ p < m.size)
    : strncmp (c :: text) (m.get .access) p maxlen = .error .access := by
  unfold strncmp
  rw [Buffer.get, if_neg hp]
  rfl

/--
The comparison returns 0 just where the characters agree, and something else where one differs that is in
memory. It fails to return otherwise.
-/
theorem strncmp_iff (text : List (BitVec 8)) (p maxlen : Nat)
    : (strncmp text (m.get .access) p maxlen = .ok 0 ↔ Agrees m (text ++ [0]) p (comparedLength maxlen))
        ∧ ((∃ d, strncmp text (m.get .access) p maxlen = .ok d ∧ d ≠ 0)
          ↔ ∃ j < comparedLength maxlen, DiffersAt m (text ++ [0]) p j) := by
  induction text generalizing p maxlen with
  | nil =>
    have hzero := char_sub_eq_zero_iff 0 (m.data p)
    rw [List.nil_append, comparedLength]
    generalize sub32 maxlen 1 = k
    rw [agrees_cons, exists_lt_succ_iff, differsAt_zero]
    simp only [differsAt_succ, not_differsAt_nil, and_false, exists_false, or_false, agrees_nil, and_true]
    unfold strncmp
    by_cases hp : p < m.size
    . rw [Buffer.get_of_lt hp]
      simp only [bind, Except.bind, Except.ok.injEq, hp, true_and, exists_eq_left']
      exact ⟨hzero, not_congr hzero⟩
    . simp [Buffer.get, hp, bind, Except.bind]
  | cons c text ih =>
    have hzero := char_sub_eq_zero_iff c (m.data p)
    have hnext := @comparedLength_sub32 maxlen
    have ih := ih (p + 1) (sub32 maxlen 1)
    rw [List.cons_append, comparedLength]
    by_cases hp : p < m.size
    . rw [strncmp_cons hp]
      generalize sub32 maxlen 1 = k at *
      rw [agrees_cons, exists_lt_succ_iff, differsAt_zero]
      simp only [differsAt_succ, hp, true_and]
      by_cases hc : m.data p = c
      . by_cases hlast : k = 0
        . rw [if_neg (by simp [hlast]), hlast]
          simp [hc, Agrees]
        . rw [if_pos ⟨hlast, hc.symm⟩]
          rw [hnext hlast] at ih
          simp only [hc, true_and, not_true_eq_false, false_or, ne_eq]
          exact ih
      . rw [if_neg (by rintro ⟨-, heq⟩; exact hc heq.symm)]
        simp [hc, hzero]
    . rw [strncmp_cons_error hp]
      generalize sub32 maxlen 1 = k at *
      rw [agrees_cons, exists_lt_succ_iff, differsAt_zero]
      simp only [differsAt_succ]
      simp [hp]

/--
There are `k` characters from `p` on that do not end a string.
-/
def HasChars (m : Buffer (BitVec 8)) (p k : Nat) : Prop := ∀ i < k, p + i < m.size ∧ m.data (p + i) ≠ 0

theorem hasChars_succ : HasChars m p (k + 1) ↔ (p < m.size ∧ m.data p ≠ 0) ∧ HasChars m (p + 1) k := by
  unfold HasChars
  constructor
  . intro h
    refine ⟨h 0 (by omega), ?_⟩
    intro i hi
    have := h (i + 1) (by omega)
    rw [show p + (i + 1) = p + 1 + i by omega] at this
    exact this
  . intro ⟨hfirst, hrest⟩ i hi
    cases i with
    | zero => exact hfirst
    | succ i =>
      rw [show p + (i + 1) = p + 1 + i by omega]
      exact hrest i (by omega)

theorem strnlen_go (h : HasChars m p k) (n : Nat)
    : strnlen.go (m.get .access) p (k + n) = (strnlen.go (m.get .access) (p + k) n).map (· + k) := by
  induction k generalizing p with
  | zero =>
    rw [Nat.zero_add, Nat.add_zero]
    cases strnlen.go (m.get .access) p n <;> rfl
  | succ k ih =>
    rw [hasChars_succ] at h
    rw [show k + 1 + n = k + n + 1 by omega, strnlen.go, Buffer.get_of_lt h.1.1, ok_bind, if_neg h.1.2, ih h.2,
      show p + (k + 1) = p + 1 + k by omega]
    cases strnlen.go (m.get .access) (p + 1 + k) n <;> rfl

theorem strnlen_go_le {len : Nat} (h : strnlen.go (m.get .access) p n = .ok len) : len ≤ n := by
  induction n generalizing p len with
  | zero =>
    rw [strnlen.go, bind_eq_ok] at h
    obtain ⟨_, _, h⟩ := h
    cases h
    exact Nat.le_refl 0
  | succ n ih =>
    rw [strnlen.go, bind_eq_ok] at h
    obtain ⟨c, _, h⟩ := h
    split at h
    . cases h
      exact Nat.zero_le _
    . rw [bind_eq_ok] at h
      obtain ⟨len', hlen, h⟩ := h
      cases h
      have := ih hlen
      omega

/--
Characters are copied before anything else happens.
-/
theorem strncpy_chars (h : HasChars m p k) {dest : Buffer (BitVec 8)} {d : Nat} (hd : d + k ≤ dest.size) (n : Nat)
    : strncpy (m.get .access) dest d p (k + n)
        =
      strncpy (m.get .access) (dest.store d ((List.range k).map fun i => m.data (p + i))) (d + k) (p + k) n := by
  induction k generalizing dest d p with
  | zero =>
    rw [Nat.zero_add]
    rfl
  | succ k ih =>
    have hchars : (List.range (k + 1)).map (fun i => m.data (p + i))
        = m.data p :: (List.range k).map (fun i => m.data (p + 1 + i)) := by
      rw [List.range_succ_eq_map, List.map_cons, List.map_map, Nat.add_zero]
      congr 1
      apply List.map_congr_left
      intro i _
      rw [show p + 1 + i = p + (i + 1) by omega]
      rfl
    rw [hasChars_succ] at h
    rw [show k + 1 + n = k + n + 1 by omega, strncpy, Buffer.get_of_lt h.1.1, ok_bind, if_neg h.1.2,
      Buffer.set_of_lt (by omega), ok_bind, ih h.2 (by dsimp only; omega), hchars]
    rw [show p + (k + 1) = p + 1 + k by omega, show d + (k + 1) = d + 1 + k by omega]
    rfl

/--
A string of `n` characters is copied. What is behind them in the new memory stays.
-/
theorem strndup_of_terminated (h : HasChars m p n) (hend : p + n < m.size) (hzero : m.data (p + n) = 0)
    (hn : n + 1 < 2 ^ 32) (bytes : Nat → BitVec 8)
    : strndup (m.get .access) (some bytes) p (n + 1)
        =
      .ok (some (Buffer.store ⟨n + 1, bytes⟩ 0 ((List.range n).map fun i => m.data (p + i)))) := by
  have hlen : strnlen (m.get .access) p (n + 1) = .ok n := by
    unfold strnlen
    rw [show n + 1 + 1 = n + 2 by omega, strnlen_go h, strnlen.go, Buffer.get_of_lt hend, ok_bind, if_pos hzero]
    simp [Except.map]
  unfold strndup
  rw [hlen, ok_bind]
  dsimp only
  rw [u32_of_lt hn, Nat.min_self, strncpy_chars h (by simp), strncpy, Buffer.get_of_lt hend, ok_bind, if_pos hzero,
    if_pos rfl, ok_bind]

/--
If the characters of a string are followed by another one, that is copied as well, and the zero behind it
is out of bounds.
-/
theorem terminated_of_strndup (h : HasChars m p n) (hn : n + 3 < 2 ^ 32) {memory : Option (Nat → BitVec 8)}
    {result : Buffer (BitVec 8)} (hdup : strndup (m.get .access) memory p (n + 1) = .ok (some result))
    : p + n < m.size ∧ m.data (p + n) = 0 := by
  have hlen : strnlen (m.get .access) p (n + 1) = (strnlen.go (m.get .access) (p + n) 2).map (· + n) := by
    unfold strnlen
    rw [show n + 1 + 1 = n + 2 by omega, strnlen_go h]
  unfold strndup at hdup
  rw [hlen] at hdup
  by_cases hend : p + n < m.size
  . refine ⟨hend, ?_⟩
    by_contra hzero
    have hchars : HasChars m p (n + 1) := by
      intro i hi
      by_cases hlast : i = n
      . rw [hlast]
        exact ⟨hend, hzero⟩
      . exact h i (by omega)
    rw [strnlen.go, Buffer.get_of_lt hend, ok_bind, if_neg hzero, bind_eq_ok] at hdup
    obtain ⟨slen, hslen, hdup⟩ := hdup
    obtain ⟨len, hlast, rfl⟩ : ∃ len, strnlen.go (m.get .access) (p + n + 1) 1 = .ok len ∧ slen = len + 1 + n := by
      cases hgo : strnlen.go (m.get .access) (p + n + 1) 1 with
      | error fault =>
        rw [hgo] at hslen
        cases hslen
      | ok len =>
        rw [hgo] at hslen
        cases hslen
        exact ⟨len, rfl, rfl⟩
    have hle := strnlen_go_le hlast
    cases memory with
    | none => cases hdup
    | some bytes =>
      dsimp only at hdup
      have hcopy := strncpy_chars hchars (show 0 + (n + 1) ≤ (Buffer.mk (n + 1) bytes).size by simp) 0
      rw [strncpy, Buffer.set, if_neg (by simp), Nat.add_zero] at hcopy
      rw [u32_of_lt (by omega), Nat.min_eq_right (by omega), hcopy] at hdup
      cases hdup
  . rw [strnlen.go, Buffer.get, if_neg hend] at hdup
    cases hdup

end Emos.Boot.Stdc

namespace Emos.Boot.Stdc

def upper (c : BitVec 8) : BitVec 8 := if 0x61 ≤ c.toNat ∧ c.toNat ≤ 0x7A then c - 0x20 else c

/--
The character at an index, which is zero at the end and behind it.
-/
def charAt (s : CString) (i : Nat) : BitVec 8 := s.bytes.getD i 0

/--
The memory of a string with its terminator, but of no more than `n` characters.
-/
def window (s : CString) (n : Nat) : Buffer (BitVec 8) := ⟨min n (s.strlen + 1), charAt s⟩

/--
The first `n` characters, up to and including the terminator, where letters of both cases are the same.
-/
def firstChars (a : CString) (n : Nat) : List (BitVec 8) := ((a.bytes ++ [0]).take n).map upper

/--
`strncasecmp` reads nothing outside the windows, returns 0 for equal strings only, and the other sign for strings
the other way round.
-/
def Compares (a b : CString) (n : BitVec 32) : Prop :=
  ∃ d d',
    strncasecmp (window a n.toNat) (window b n.toNat) 0 0 n = .ok d
      ∧ strncasecmp (window b n.toNat) (window a n.toNat) 0 0 n = .ok d'
      ∧ (d = 0 ↔ firstChars a n.toNat = firstChars b n.toNat)
      ∧ d.sign = -d'.sign

/--
The characters before an index are no terminators, and equal when letters of both cases are the same.
-/
def Alike (a b : CString) (i : Nat) : Prop :=
  ∀ j < i, charAt a j ≠ 0 ∧ upper (charAt a j) = upper (charAt b j)

/--
Every character that is mapped to upper case is in the table for that, and characters at the last index are not
letters that differ in their case only.
-/
def Comparable (a b : CString) (n : Nat) : Prop :=
  n ≠ 0
    ∧ (∀ i, i + 1 < n → Alike a b i → (charAt a i).toNat < 128 ∧ (charAt b i).toNat < 128)
    ∧ (Alike a b (n - 1) → upper (charAt a (n - 1)) = upper (charAt b (n - 1))
        → charAt a (n - 1) = charAt b (n - 1))

variable {a b : CString} {i j k n p : Nat} {c d : BitVec 8}

theorem upper_ne_zero (h : c ≠ 0) : upper c ≠ 0 := by
  unfold upper
  split
  . next hletter =>
    intro hzero
    have hc : c = 0x20 := by grind
    rw [hc] at hletter
    exact absurd hletter (by decide)
  . exact h

theorem toupper_eq (h : c.toNat < 128) : toupper c = .ok (upper c) := by
  unfold toupper upper
  rw [if_neg (by omega)]
  split <;> rfl

theorem charAt_ne_zero (h : i < a.strlen) : charAt a i ≠ 0 := by
  intro hzero
  apply a.nonzero
  unfold charAt at hzero
  rw [List.getD_eq_getElem _ _ h] at hzero
  have hmem := List.getElem_mem h
  rwa [hzero] at hmem

theorem charAt_of_le (h : a.strlen ≤ i) : charAt a i = 0 := List.getD_eq_default _ _ h

theorem le_strlen (h : ∀ j < i, charAt a j ≠ 0) : i ≤ a.strlen := by
  by_contra hlt
  exact h a.strlen (by omega) (charAt_of_le (Nat.le_refl _))

theorem Alike.symm (h : Alike a b i) : Alike b a i := by
  intro j hj
  refine ⟨?_, (h j hj).2.symm⟩
  intro hzero
  apply upper_ne_zero (h j hj).1
  rw [(h j hj).2, hzero]
  rfl

theorem Alike.le_strlen (h : Alike a b i) : i ≤ a.strlen := Stdc.le_strlen fun j hj => (h j hj).1

theorem alike_succ : Alike a b (i + 1) ↔ Alike a b i ∧ charAt a i ≠ 0 ∧ upper (charAt a i) = upper (charAt b i) :=
  Nat.forall_lt_succ_right

theorem window_get (h : Alike a b i) (hlt : i < n) : (window a n).get Fault.access i = .ok (charAt a i) := by
  apply Buffer.get_of_lt
  have := h.le_strlen
  exact Nat.lt_min.mpr ⟨hlt, by omega⟩

theorem difference_eq (h : Alike a b p) (hlt : p < n)
    : strncasecmp.difference (window a n) (window b n) p p = .ok ((charAt a p).toNat - (charAt b p).toNat) := by
  unfold strncasecmp.difference
  rw [window_get h hlt]
  rw [window_get h.symm hlt]
  rfl

theorem go_last (h : Alike a b p) (hlt : p < n)
    : strncasecmp.go (window a n) (window b n) p p 0 = .ok ((charAt a p).toNat - (charAt b p).toNat) :=
  difference_eq h hlt

/--
The loop ends at a terminator or a difference.
-/
theorem go_stop (h : Alike a b p) (hlt : p < n) (ha : (charAt a p).toNat < 128) (hb : (charAt b p).toNat < 128)
    (hstop : charAt a p = 0 ∨ upper (charAt a p) ≠ upper (charAt b p))
    : strncasecmp.go (window a n) (window b n) p p (k + 1) = .ok ((charAt a p).toNat - (charAt b p).toNat) := by
  unfold strncasecmp.go
  rw [window_get h hlt, window_get h.symm hlt, difference_eq h hlt]
  simp only [ok_bind]
  split
  . rfl
  . next hzero =>
    rw [toupper_eq ha, toupper_eq hb]
    simp only [ok_bind]
    rw [if_pos (hstop.resolve_left hzero)]

theorem go_next (h : Alike a b p) (hlt : p < n) (ha : (charAt a p).toNat < 128) (hb : (charAt b p).toNat < 128)
    (hne : charAt a p ≠ 0) (heq : upper (charAt a p) = upper (charAt b p))
    : strncasecmp.go (window a n) (window b n) p p (k + 1)
        =
      strncasecmp.go (window a n) (window b n) (p + 1) (p + 1) k := by
  rw [strncasecmp.go]
  rw [window_get h hlt, window_get h.symm hlt]
  simp only [ok_bind]
  rw [if_neg hne, toupper_eq ha, toupper_eq hb]
  simp only [ok_bind]
  rw [if_neg (not_not_intro heq)]

theorem toupper_fault (h : ¬ c.toNat < 128) : toupper c = .error .access := if_pos (Nat.le_of_not_lt h)

/--
The first of the two characters is looked up before the second one is read.
-/
theorem go_fault (h : Alike a b p) (hlt : p < n) (ha : ¬ (charAt a p).toNat < 128)
    : strncasecmp.go (window a n) (window b n) p p (k + 1) = .error .access := by
  have hne : charAt a p ≠ 0 := by
    intro hzero
    rw [hzero] at ha
    exact ha (by decide)
  unfold strncasecmp.go
  rw [window_get h hlt]
  simp only [ok_bind]
  rw [if_neg hne, toupper_fault ha]
  rfl

/--
What the loop has still to find out.
-/
def RestEqual (a b : CString) (p n : Nat) : Prop :=
  ∀ j, p ≤ j → j < n → Alike a b j → upper (charAt a j) = upper (charAt b j)

theorem restEqual_succ (h : Alike a b p) (hlt : p < n)
    : RestEqual a b p n ↔ upper (charAt a p) = upper (charAt b p) ∧ RestEqual a b (p + 1) n := by
  constructor
  . intro hrest
    exact ⟨hrest p (Nat.le_refl p) hlt h, fun j hj => hrest j (by omega)⟩
  . intro ⟨heq, hrest⟩ j hj hjn halike
    obtain hp | hp := Nat.eq_or_lt_of_le hj
    . rw [← hp]
      exact heq
    . exact hrest j hp hjn halike

/--
Nothing is alike behind the first place where the strings end or differ.
-/
theorem not_alike (hstop : charAt a p = 0 ∨ upper (charAt a p) ≠ upper (charAt b p)) (hlt : p < i)
    : ¬ Alike a b i := by
  intro h
  obtain ⟨hne, heq⟩ := h p hlt
  exact hstop.elim hne fun hdiffer => hdiffer heq

theorem restEqual_stop (hstop : charAt a p = 0 ∨ upper (charAt a p) ≠ upper (charAt b p))
    : RestEqual a b (p + 1) n := by
  intro j hj _ halike
  exact absurd halike (not_alike hstop hj)

/--
A terminator is only like a terminator.
-/
theorem eq_iff_upper_eq (hstop : charAt a p = 0 ∨ upper (charAt a p) ≠ upper (charAt b p))
    : charAt a p = charAt b p ↔ upper (charAt a p) = upper (charAt b p) := by
  constructor
  . intro heq
    rw [heq]
  . intro heq
    obtain hzero | hdiffer := hstop
    . rw [hzero] at heq ⊢
      by_contra hne
      exact upper_ne_zero (Ne.symm hne) heq.symm
    . exact absurd heq hdiffer

theorem stop_symm (hstop : charAt a p = 0 ∨ upper (charAt a p) ≠ upper (charAt b p))
    : charAt b p = 0 ∨ upper (charAt b p) ≠ upper (charAt a p) := by
  by_cases heq : upper (charAt b p) = upper (charAt a p)
  . left
    rw [← (eq_iff_upper_eq hstop).mpr heq.symm]
    exact hstop.resolve_right (not_not_intro heq.symm)
  . exact .inr heq

/--
The comparison from index `p` on, with `k` rounds of the loop left.
-/
def ComparesFrom (a b : CString) (n p k : Nat) : Prop :=
  ∃ d d',
    strncasecmp.go (window a n) (window b n) p p k = .ok d
      ∧ strncasecmp.go (window b n) (window a n) p p k = .ok d'
      ∧ (d = 0 ↔ RestEqual a b p n)
      ∧ d.sign = -d'.sign

def ComparableFrom (a b : CString) (n p : Nat) : Prop :=
  (∀ i, p ≤ i → i + 1 < n → Alike a b i → (charAt a i).toNat < 128 ∧ (charAt b i).toNat < 128)
    ∧ (Alike a b (n - 1) → upper (charAt a (n - 1)) = upper (charAt b (n - 1))
        → charAt a (n - 1) = charAt b (n - 1))

theorem comparableFrom_stop (hlt : p + 1 < n) (ha : (charAt a p).toNat < 128) (hb : (charAt b p).toNat < 128)
    (hstop : charAt a p = 0 ∨ upper (charAt a p) ≠ upper (charAt b p))
    : ComparableFrom a b n p := by
  constructor
  . intro i hi _ halike
    obtain hp | hp := Nat.eq_or_lt_of_le hi
    . rw [← hp]
      exact ⟨ha, hb⟩
    . exact absurd halike (not_alike hstop hp)
  . intro halike
    exact absurd halike (not_alike hstop (by omega))

theorem comparableFrom_succ (ha : (charAt a p).toNat < 128) (hb : (charAt b p).toNat < 128)
    : ComparableFrom a b n p ↔ ComparableFrom a b n (p + 1) := by
  apply and_congr_left'
  constructor
  . intro hascii i hi
    exact hascii i (by omega)
  . intro hascii i hi hin halike
    obtain hp | hp := Nat.eq_or_lt_of_le hi
    . rw [← hp]
      exact ⟨ha, hb⟩
    . exact hascii i hp hin halike

theorem sign_sub (c d : BitVec 8) : ((c.toNat : Int) - d.toNat).sign = -((d.toNat : Int) - c.toNat).sign := by
  rw [← Int.sign_neg]
  congr 1
  omega

theorem sub_eq_zero_iff : (c.toNat : Int) - d.toNat = 0 ↔ c = d := by
  rw [BitVec.toNat_eq]
  omega

/--
The characters are compared as they are, which is right if their cases are the same or they differ anyway.
-/
theorem comparesFrom_of_eq
    (hgo : strncasecmp.go (window a n) (window b n) p p k = .ok ((charAt a p).toNat - (charAt b p).toNat))
    (hgo' : strncasecmp.go (window b n) (window a n) p p k = .ok ((charAt b p).toNat - (charAt a p).toNat))
    : ComparesFrom a b n p k ↔ (charAt a p = charAt b p ↔ RestEqual a b p n) := by
  constructor
  . intro ⟨d, d', hd, _, hzero, _⟩
    rw [hgo] at hd
    rw [← Except.ok.inj hd, sub_eq_zero_iff] at hzero
    exact hzero
  . intro h
    refine ⟨_, _, hgo, hgo', ?_, sign_sub _ _⟩
    rw [sub_eq_zero_iff]
    exact h

theorem comparesFrom_iff (h : Alike a b p) (hn : p + k + 1 = n) : ComparesFrom a b n p k ↔ ComparableFrom a b n p := by
  induction k generalizing p with
  | zero =>
    have hlt : p < n := by omega
    rw [comparesFrom_of_eq (go_last h hlt) (go_last h.symm hlt), restEqual_succ h hlt]
    have hrest : RestEqual a b (p + 1) n := fun j hj hjn => absurd hjn (by omega)
    unfold ComparableFrom
    have hlast : n - 1 = p := by lia
    rw [hlast]
    constructor
    . intro heq
      exact ⟨fun i hi hin => absurd hin (by omega), fun _ hupper => heq.mpr ⟨hupper, hrest⟩⟩
    . intro ⟨_, heq⟩
      exact ⟨fun h => ⟨congrArg upper h, hrest⟩, fun hupper => heq h hupper.1⟩
  | succ k ih =>
    have hlt : p < n := by omega
    by_cases ha : (charAt a p).toNat < 128
    . by_cases hb : (charAt b p).toNat < 128
      . by_cases hstop : charAt a p = 0 ∨ upper (charAt a p) ≠ upper (charAt b p)
        . apply iff_of_true
          . rw [comparesFrom_of_eq (go_stop h hlt ha hb hstop) (go_stop h.symm hlt hb ha (stop_symm hstop))]
            rw [restEqual_succ h hlt, eq_iff_upper_eq hstop, and_iff_left (restEqual_stop hstop)]
          . exact comparableFrom_stop (by omega) ha hb hstop
        . rw [not_or, not_not] at hstop
          obtain ⟨hne, heq⟩ := hstop
          have hnext : Alike a b (p + 1) := alike_succ.mpr ⟨h, hne, heq⟩
          have hne' : charAt b p ≠ 0 := (hnext.symm p (Nat.lt_succ_self p)).1
          rw [comparableFrom_succ ha hb]
          rw [← ih hnext (by omega)]
          unfold ComparesFrom
          rw [go_next h hlt ha hb hne heq, go_next h.symm hlt hb ha hne' heq.symm, restEqual_succ h hlt]
          rw [and_iff_right heq]
      . apply iff_of_false
        . intro ⟨_, _, _, hd', _⟩
          rw [go_fault h.symm hlt hb] at hd'
          contradiction
        . intro hcomparable
          exact hb (hcomparable.1 p (Nat.le_refl p) (by omega) h).2
    . apply iff_of_false
      . intro ⟨_, _, hd, _⟩
        rw [go_fault h hlt ha] at hd
        contradiction
      . intro hcomparable
        exact ha (hcomparable.1 p (Nat.le_refl p) (by omega) h).1

theorem charAt_eq_zero : charAt a i = 0 ↔ a.strlen ≤ i := by
  constructor
  . intro hzero
    by_contra hlt
    exact charAt_ne_zero (Nat.lt_of_not_le hlt) hzero
  . exact charAt_of_le

theorem upper_eq_zero : upper c = 0 ↔ c = 0 := by
  constructor
  . intro hzero
    by_contra hne
    exact upper_ne_zero hne hzero
  . intro hzero
    rw [hzero]
    rfl

/--
Characters stay equal behind the terminators.
-/
theorem alike_or_ended (h : RestEqual a b 0 n) (hlt : i < n) : Alike a b i ∨ a.strlen ≤ i ∧ b.strlen ≤ i := by
  induction i with
  | zero => exact .inl fun j hj => absurd hj (Nat.not_lt_zero j)
  | succ i ih =>
    obtain halike | hended := ih (by omega)
    . have heq := h i (Nat.zero_le i) (by omega) halike
      by_cases hzero : charAt a i = 0
      . rw [hzero] at heq
        have hb := charAt_eq_zero.1 (upper_eq_zero.1 heq.symm)
        have ha := charAt_eq_zero.1 hzero
        exact .inr ⟨by omega, by omega⟩
      . exact .inl (alike_succ.mpr ⟨halike, hzero, heq⟩)
    . exact .inr ⟨by omega, by omega⟩

theorem restEqual_zero : RestEqual a b 0 n ↔ ∀ i < n, upper (charAt a i) = upper (charAt b i) := by
  constructor
  . intro h i hi
    obtain halike | ⟨ha, hb⟩ := alike_or_ended h hi
    . exact h i (Nat.zero_le i) hi halike
    . rw [charAt_of_le ha, charAt_of_le hb]
  . intro h j _ hj _
    exact h j hj

theorem length_firstChars : (firstChars a n).length = min n (a.strlen + 1) := by
  unfold firstChars
  rw [List.length_map, List.length_take, List.length_append]
  rfl

theorem getD_firstChars (hlt : i < n) : (firstChars a n).getD i 0 = upper (charAt a i) := by
  unfold firstChars charAt
  rw [show (0 : BitVec 8) = upper 0 from rfl, List.getD_map]
  congr 1
  rw [List.getD_eq_getElem?_getD, List.getElem?_take_of_lt hlt]
  rw [← List.getD_eq_getElem?_getD]
  by_cases hi : i < a.bytes.length
  . exact List.getD_append _ _ _ _ hi
  . rw [List.getD_append_right _ _ _ _ (Nat.le_of_not_lt hi), List.getD_eq_default _ _ (Nat.le_of_not_lt hi)]
    cases i - a.bytes.length <;> rfl

theorem strlen_le (h : ∀ i < n, upper (charAt a i) = upper (charAt b i)) (hlt : a.strlen < n)
    : b.strlen ≤ a.strlen := by
  have heq := h a.strlen hlt
  rw [charAt_of_le (Nat.le_refl _)] at heq
  exact charAt_eq_zero.1 (upper_eq_zero.1 heq.symm)

theorem firstChars_eq_iff : firstChars a n = firstChars b n ↔ RestEqual a b 0 n := by
  rw [restEqual_zero]
  constructor
  . intro heq i hi
    rw [← getD_firstChars hi, ← getD_firstChars hi, heq]
  . intro h
    have hlength : min n (a.strlen + 1) = min n (b.strlen + 1) := by
      have hle := strlen_le h
      have hge := strlen_le fun i hi => (h i hi).symm
      lia
    apply List.ext_getElem
    . rw [length_firstChars, length_firstChars, hlength]
    . intro i ha hb
      rw [← List.getD_eq_getElem _ 0 ha, ← List.getD_eq_getElem _ 0 hb]
      rw [length_firstChars] at ha
      rw [getD_firstChars (by omega), getD_firstChars (by omega)]
      exact h i (by lia)

/--
The first characters are read even if none are to be compared.
-/
theorem not_compares_zero : ¬ Compares a b 0 := by
  intro ⟨_, _, hd, _⟩
  have hfault : (window a 0).get Fault.access 0 = .error .access := if_neg (by simp [window])
  have hrounds : ((0 : BitVec 32) - 1).toNat = 4294967294 + 1 := rfl
  unfold strncasecmp at hd
  rw [hrounds] at hd
  unfold strncasecmp.go at hd
  change ((window a 0).get Fault.access 0 >>= _) = _ at hd
  rw [hfault] at hd
  contradiction

theorem compares_iff {n : BitVec 32} (hn : n ≠ 0) : Compares a b n ↔ ComparableFrom a b n.toNat 0 := by
  have hpos : n.toNat ≠ 0 := by
    intro h
    exact hn (BitVec.eq_of_toNat_eq h)
  have hsub : (n - 1).toNat = n.toNat - 1 := by
    rw [BitVec.toNat_sub]
    have := n.isLt
    change (2 ^ 32 - 1 + n.toNat) % 2 ^ 32 = _
    omega
  have halike : Alike a b 0 := fun j hj => absurd hj (Nat.not_lt_zero j)
  unfold Compares strncasecmp
  rw [hsub, firstChars_eq_iff]
  exact comparesFrom_iff halike (by omega)

/--
Names that are shorter than the buffer of a directory entry are found in any case.
-/
theorem compares_of_short {n : BitVec 32} (ha : ∀ i, (charAt a i).toNat < 128) (hb : ∀ i, (charAt b i).toNat < 128)
    (hlen : b.strlen < n.toNat)
    : Compares a b n := by
  have hn : n ≠ 0 := by
    intro hzero
    rw [hzero] at hlen
    exact Nat.not_lt_zero _ hlen
  rw [compares_iff hn]
  constructor
  . intro i _ _ _
    exact ⟨ha i, hb i⟩
  . intro halike heq
    have hend : charAt b (n.toNat - 1) = 0 := charAt_of_le (by omega)
    rw [hend] at heq ⊢
    exact upper_eq_zero.1 heq

theorem strncasecmp_iff (a b : CString) (n : BitVec 32) : Compares a b n ↔ Comparable a b n.toNat := by
  unfold Comparable
  by_cases hn : n = 0
  . rw [hn]
    exact iff_of_false not_compares_zero fun h => h.1 rfl
  . have hpos : n.toNat ≠ 0 := by
      intro h
      exact hn (BitVec.eq_of_toNat_eq h)
    rw [compares_iff hn, and_iff_right hpos]
    unfold ComparableFrom
    simp only [Nat.zero_le, true_implies]

/--
The only character of either string is the last one that is compared.
-/
theorem strncasecmp_last : ¬ Compares ⟨[0x61], by decide⟩ ⟨[0x41], by decide⟩ 1 := by
  intro ⟨d, d', hd, _, hzero, _⟩
  have h : d = 0 := hzero.mpr rfl
  rw [h] at hd
  contradiction

end Emos.Boot.Stdc
