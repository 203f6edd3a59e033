import Emos.Boot.Stdc.Impl.String
import Emos.Lib.Loop
import Emos.Lib.Tokens
import Mathlib.Data.List.GetD
import Mathlib.Data.List.TakeWhile

/-!
This module contains which tokens `strtok` returns one after the other. Behind the last of them comes an empty
one if the string does not end with a token.
-/

open Lib

namespace Emos.Boot.Stdc

/--
There is a string with these characters at `p`.
-/
def HoldsString (m : Buffer (BitVec 8)) : Nat → List (BitVec 8) → Prop
  | p, [] => p < m.size ∧ m.data p = 0
  | p, c :: text => (p < m.size ∧ m.data p = c) ∧ HoldsString m (p + 1) text

/--
The characters from `p` up to a terminating zero or the end of the memory.
-/
def stringAt (m : Buffer (BitVec 8)) (p : Nat) : List (BitVec 8) :=
  ((List.range (m.size - p)).map fun i => m.data (p + i)).takeWhile (· ≠ 0)

/--
The tokens that `strtok` returns until it returns a null pointer, if it is called so many times at most.
-/
def strtokAll (delim : CString) : Nat → StrtokState → Option Nat → Run (List (List (BitVec 8)))
  | 0, _, _ => .error .hang
  | n + 1, st, str => do
    match ← strtok st str delim with
    | ⟨none, _⟩ => .ok []
    | ⟨some token, st⟩ => do
      let tokens ← strtokAll delim n st none
      .ok (stringAt st.memory token :: tokens)

/--
The memory of a string before the first call.
-/
def freshString (text : CString) : StrtokState :=
  ⟨⟨text.strlen + 1, fun i => text.bytes.getD i 0⟩, none⟩

def isDelim (delim : CString) (c : BitVec 8) : Bool := delim.bytes.contains c

/--
All calls return the runs of characters that are no delimiters, in order, and a null pointer then.
-/
def Tokenizes (text delim : CString) : Prop :=
  strtokAll delim (text.strlen + 2) (freshString text) (some 0) = .ok (runs (isDelim delim) text.bytes)

variable {m : Buffer (BitVec 8)} {p n : Nat} {delim : CString} {c : BitVec 8} {text rest token : List (BitVec 8)}

theorem HoldsString.length_lt (h : HoldsString m p text) : p + text.length < m.size := by
  induction text generalizing p with
  | nil => exact h.1
  | cons c text ih =>
    have := ih h.2
    rw [List.length_cons]
    omega

theorem HoldsString.append (h : HoldsString m p (text ++ rest)) : HoldsString m (p + text.length) rest := by
  induction text generalizing p with
  | nil => exact h
  | cons c text ih =>
    have hrest := ih h.2
    rwa [List.length_cons, show p + (text.length + 1) = p + 1 + text.length by omega]

/--
A zero that is stored in front of a string does not change it.
-/
theorem HoldsString.update_lt {q : Nat} (h : HoldsString m p text) (hq : q < p)
    : HoldsString { m with data := Function.update m.data q 0 } p text := by
  induction text generalizing p with
  | nil => exact ⟨h.1, (Function.update_of_ne (by omega) _ _).trans h.2⟩
  | cons c text ih => exact ⟨⟨h.1.1, (Function.update_of_ne (by omega) _ _).trans h.1.2⟩, ih h.2 (by omega)⟩

/--
A zero that is stored inside of a string ends it there.
-/
theorem HoldsString.update_end (h : HoldsString m p (text ++ rest))
    : HoldsString { m with data := Function.update m.data (p + text.length) 0 } p text := by
  induction text generalizing p with
  | nil =>
    have hlt := h.length_lt
    exact ⟨Nat.lt_of_le_of_lt (Nat.le_add_right _ _) hlt, Function.update_self ..⟩
  | cons c text ih =>
    have hrest := ih h.2
    rw [List.length_cons, show p + (text.length + 1) = p + 1 + text.length by omega]
    exact ⟨⟨h.1.1, (Function.update_of_ne (by omega) _ _).trans h.1.2⟩, hrest⟩

theorem stringAt_cons (hp : p < m.size) (hc : m.data p ≠ 0) : stringAt m p = m.data p :: stringAt m (p + 1) := by
  unfold stringAt
  rw [show m.size - p = m.size - (p + 1) + 1 by lia, List.range_succ_eq_map, List.map_cons, List.map_map,
    Nat.add_zero, List.takeWhile_cons_of_pos (by simpa using hc)]
  congr 2
  apply List.map_congr_left
  intro i _
  rw [Nat.add_assoc, Nat.add_comm 1 i]
  rfl

theorem stringAt_of_zero (hc : m.data p = 0) : stringAt m p = [] := by
  unfold stringAt
  cases m.size - p with
  | zero => rfl
  | succ n =>
    rw [List.range_succ_eq_map, List.map_cons, Nat.add_zero, List.takeWhile_cons_of_neg (by simpa using hc)]

theorem stringAt_eq (h : HoldsString m p text) (hzero : 0 ∉ text) : stringAt m p = text := by
  induction text generalizing p with
  | nil => exact stringAt_of_zero h.2
  | cons c text ih =>
    obtain ⟨⟨hp, rfl⟩, hrest⟩ := h
    rw [List.mem_cons, not_or] at hzero
    rw [stringAt_cons hp (fun heq => hzero.1 heq.symm), ih hrest hzero.2]

/--
Delimiters are skipped until another character comes, or the end of the string.
-/
theorem trim_eq (hdelims : ∀ c ∈ text, c ∈ delim.bytes) (hrest : ∀ c ∈ rest.head?, c ∉ delim.bytes)
    (h : HoldsString m p (text ++ rest)) (hn : text.length < n)
    : strtok.trim m delim n p = .ok (p + text.length) := by
  induction text generalizing p n with
  | nil =>
    obtain ⟨n, rfl⟩ := Nat.exists_eq_add_one_of_ne_zero (Nat.ne_zero_of_lt hn)
    have hnot : p < m.size ∧ m.data p ∉ delim.bytes := by
      cases rest with
      | nil => exact ⟨h.1, h.2 ▸ delim.nonzero⟩
      | cons c rest => exact ⟨h.1.1, h.1.2 ▸ hrest c rfl⟩
    rw [strtok.trim, Buffer.get_of_lt hnot.1, ok_bind, if_neg (mt List.contains_iff_mem.mp hnot.2)]
    rfl
  | cons c text ih =>
    obtain ⟨n, rfl⟩ := Nat.exists_eq_add_one_of_ne_zero (Nat.ne_zero_of_lt hn)
    rw [List.forall_mem_cons] at hdelims
    rw [strtok.trim, Buffer.get_of_lt h.1.1, ok_bind, h.1.2,
      if_pos (List.contains_iff_mem.mpr hdelims.1), ih hdelims.2 h.2 (Nat.lt_of_succ_lt_succ hn), List.length_cons,
      show p + 1 + text.length = p + (text.length + 1) by omega]

theorem tokenize_cons (hp : p < m.size) (hc : m.data p ≠ 0) (hdelim : m.data p ∉ delim.bytes)
    : strtok.tokenize m delim (n + 1) p = strtok.tokenize m delim n (p + 1) := by
  rw [strtok.tokenize, Buffer.get_of_lt hp, ok_bind, if_neg hc, if_neg (mt List.contains_iff_mem.mp hdelim)]

theorem tokenize_append (htoken : ∀ c ∈ token, c ≠ 0 ∧ c ∉ delim.bytes) (h : HoldsString m p (token ++ rest))
    : strtok.tokenize m delim (n + token.length) p = strtok.tokenize m delim n (p + token.length) := by
  induction token generalizing p with
  | nil => rfl
  | cons c token ih =>
    rw [List.forall_mem_cons] at htoken
    rw [List.length_cons, ← Nat.add_assoc, tokenize_cons h.1.1 (h.1.2 ▸ htoken.1.1) (h.1.2 ▸ htoken.1.2), ih htoken.2 h.2,
      show p + 1 + token.length = p + (token.length + 1) by omega]

/--
A token at the end of the string is the last one.
-/
theorem tokenize_last (htoken : ∀ c ∈ token, c ≠ 0 ∧ c ∉ delim.bytes) (h : HoldsString m p token)
    : strtok.tokenize m delim (m.size + 1) p = .ok ⟨m, none⟩ := by
  have hlt := h.length_lt
  obtain ⟨n, hn⟩ := Nat.exists_eq_add_of_le (show token.length + 1 ≤ m.size + 1 by omega)
  rw [← List.append_nil token] at h
  rw [hn, Nat.add_comm, ← Nat.add_assoc, Nat.add_right_comm, tokenize_append htoken h, strtok.tokenize,
    Buffer.get_of_lt h.append.1, ok_bind, if_pos h.append.2]

/--
The delimiter behind a token is overwritten, and the next call goes on behind it.
-/
theorem tokenize_delim (htoken : ∀ c ∈ token, c ≠ 0 ∧ c ∉ delim.bytes) (hc : c ∈ delim.bytes)
    (h : HoldsString m p (token ++ c :: rest))
    : strtok.tokenize m delim (m.size + 1) p
        = .ok ⟨{ m with data := Function.update m.data (p + token.length) 0 }, some (p + token.length + 1)⟩ := by
  have hlt := h.length_lt
  rw [List.length_append, List.length_cons] at hlt
  obtain ⟨n, hn⟩ := Nat.exists_eq_add_of_le (show token.length + 1 ≤ m.size + 1 by omega)
  obtain ⟨⟨hp, hdata⟩, -⟩ := h.append
  have hzero : c ≠ 0 := by
    rintro rfl
    exact delim.nonzero hc
  rw [hn, Nat.add_comm, ← Nat.add_assoc, Nat.add_right_comm, tokenize_append htoken h, strtok.tokenize,
    Buffer.get_of_lt hp, ok_bind, hdata, if_neg hzero, if_pos (List.contains_iff_mem.mpr hc),
    Buffer.set_of_lt hp, ok_bind]

/--
The string does not end with a delimiter, and is not empty.
-/
def EndsWithToken (delim : CString) (text : List (BitVec 8)) : Prop := ∃ c ∈ text.getLast?, c ∉ delim.bytes

instance (delim : CString) (text : List (BitVec 8)) : Decidable (EndsWithToken delim text) :=
  inferInstanceAs (Decidable (∃ c ∈ text.getLast?, c ∉ delim.bytes))

theorem endsWithToken_append (hne : rest ≠ []) : EndsWithToken delim (text ++ rest) ↔ EndsWithToken delim rest := by
  unfold EndsWithToken
  rw [List.getLast?_append_of_ne_nil _ hne]

theorem endsWithToken_of_forall (hne : token ≠ []) (h : ∀ c ∈ token, c ∉ delim.bytes)
    : EndsWithToken delim token :=
  ⟨token.getLast hne, List.getLast?_eq_getLast_of_ne_nil hne, h _ (List.getLast_mem hne)⟩

theorem not_endsWithToken_of_forall (h : ∀ c ∈ text, c ∈ delim.bytes) : ¬ EndsWithToken delim text := by
  intro ⟨c, hc, hnot⟩
  exact hnot (h c (List.mem_of_getLast? hc))

theorem endsWithToken_cons (hc : c ∈ delim.bytes) : EndsWithToken delim (c :: rest) ↔ EndsWithToken delim rest := by
  cases rest with
  | nil =>
    apply iff_of_false
    . apply not_endsWithToken_of_forall
      simpa using hc
    . exact not_endsWithToken_of_forall fun c hc => absurd hc List.not_mem_nil
  | cons d rest =>
    rw [← List.singleton_append]
    exact endsWithToken_append (List.cons_ne_nil d rest)

/--
A string is delimiters, a token without delimiters, and perhaps more behind another delimiter. Only at the end is
the token empty.
-/
theorem exists_token (delim : CString) (text : List (BitVec 8))
    : ∃ delims token, (∀ c ∈ delims, c ∈ delim.bytes) ∧ (∀ c ∈ token, c ∉ delim.bytes)
        ∧ (text = delims ++ token
          ∨ token ≠ [] ∧ ∃ c ∈ delim.bytes, ∃ rest, text = delims ++ (token ++ c :: rest)) := by
  have hdelims := List.takeWhile_append_dropWhile (p := isDelim delim) (l := text)
  generalize htail : text.dropWhile (isDelim delim) = tail at hdelims
  have htoken := List.takeWhile_append_dropWhile (p := fun c => !isDelim delim c) (l := tail)
  refine ⟨text.takeWhile (isDelim delim), tail.takeWhile fun c => !isDelim delim c, ?_, ?_, ?_⟩
  . intro c hc
    simpa [isDelim] using List.mem_takeWhile_imp hc
  . intro c hc
    simpa [isDelim] using List.mem_takeWhile_imp hc
  . cases hrest : tail.dropWhile fun c => !isDelim delim c with
    | nil =>
      left
      rw [hrest, List.append_nil] at htoken
      rw [htoken, hdelims]
    | cons c rest =>
      right
      rw [hrest] at htoken
      refine ⟨?_, c, ?_, rest, ?_⟩
      . intro hnil
        have hhead := List.head?_dropWhile_not (isDelim delim) text
        rw [htail, ← htoken, hnil] at hhead
        have hc := List.head?_dropWhile_not (fun c => !isDelim delim c) tail
        rw [hrest] at hc
        simp at hhead hc
        rw [hhead] at hc
        contradiction
      . have hc := List.head?_dropWhile_not (fun c => !isDelim delim c) tail
        rw [hrest] at hc
        simpa [isDelim] using hc
      . rw [htoken, hdelims]

/--
The first character of a token, or the end of the string, is no delimiter.
-/
theorem head_not_delim (htoken : ∀ c ∈ token, c ∉ delim.bytes) (hne : token ≠ [] ∨ rest = [])
    : ∀ c ∈ (token ++ rest).head?, c ∉ delim.bytes := by
  intro c hc
  cases token with
  | nil =>
    rw [hne.resolve_left (fun h => h rfl)] at hc
    contradiction
  | cons d token =>
    cases hc
    exact htoken c (List.mem_cons_self ..)

theorem runs_token (htoken : ∀ c ∈ token, c ∉ delim.bytes)
    : runs (isDelim delim) token = if token = [] then [] else [token] := by
  split
  . next hnil => rw [hnil, runs_nil]
  . next hne =>
    apply runs_of_forall hne
    intro c hc
    simpa [isDelim] using htoken c hc

section Call

variable {st : StrtokState} {str : Option Nat} {delims : List (BitVec 8)}

/--
A call that finds no delimiter behind its token.
-/
theorem strtok_last (hstr : (str <|> st.last) = some p) (hdelims : ∀ c ∈ delims, c ∈ delim.bytes)
    (htoken : ∀ c ∈ token, c ∉ delim.bytes) (hzero : 0 ∉ token) (h : HoldsString st.memory p (delims ++ token))
    : strtok st str delim = .ok (some (p + delims.length), ⟨st.memory, none⟩) := by
  have hlt := h.length_lt
  rw [List.length_append] at hlt
  have hhead : ∀ c ∈ (token ++ []).head?, c ∉ delim.bytes := head_not_delim htoken (.inr rfl)
  rw [List.append_nil] at hhead
  unfold strtok
  rw [hstr]
  dsimp only
  rw [trim_eq hdelims hhead h (by omega), ok_bind, tokenize_last _ h.append, ok_bind]
  intro c hc
  exact ⟨fun heq => hzero (heq ▸ hc), htoken c hc⟩

/--
A call that ends its token with a zero instead of the delimiter.
-/
theorem strtok_token (hstr : (str <|> st.last) = some p) (hdelims : ∀ c ∈ delims, c ∈ delim.bytes)
    (htoken : ∀ c ∈ token, c ∉ delim.bytes) (hne : token ≠ []) (hzero : 0 ∉ token) (hc : c ∈ delim.bytes)
    (h : HoldsString st.memory p (delims ++ (token ++ c :: rest)))
    : ∃ m, strtok st str delim
          = .ok (some (p + delims.length), ⟨m, some (p + delims.length + token.length + 1)⟩)
        ∧ HoldsString m (p + delims.length) token ∧ HoldsString m (p + delims.length + token.length + 1) rest := by
  have hlt := h.length_lt
  rw [List.length_append] at hlt
  have hbehind := h.append
  refine ⟨_, ?_, hbehind.update_end, ?_⟩
  . unfold strtok
    rw [hstr]
    dsimp only
    rw [trim_eq hdelims (head_not_delim htoken (.inl hne)) h (by omega), ok_bind, tokenize_delim _ hc hbehind, ok_bind]
    intro d hd
    exact ⟨fun heq => hzero (heq ▸ hd), htoken d hd⟩
  . exact hbehind.append.2.update_lt (Nat.lt_succ_self _)

/--
The calls from a string on return its runs, and an empty token where no run is at the end.
-/
theorem strtokAll_eq (hstr : (str <|> st.last) = some p) (h : HoldsString st.memory p text) (hzero : 0 ∉ text)
    (hn : text.length + 2 ≤ n)
    : strtokAll delim n st str
        = .ok (runs (isDelim delim) text ++ if EndsWithToken delim text then [] else [[]]) := by
  induction hlen : text.length using Nat.strongRecOn generalizing text st str p n with
  | ind len ih =>
    subst hlen
    obtain ⟨n, rfl⟩ := Nat.exists_eq_add_of_le' (show 2 ≤ n by omega)
    obtain ⟨delims, token, hdelims, htoken, htext⟩ := exists_token delim text
    have hruns (rest : List (BitVec 8)) : runs (isDelim delim) (delims ++ rest) = runs (isDelim delim) rest := by
      apply runs_append
      intro c hc
      simpa [isDelim] using hdelims c hc
    rw [strtokAll]
    obtain rfl | ⟨hne, c, hc, rest, rfl⟩ := htext
    . rw [List.mem_append, not_or] at hzero
      rw [strtok_last hstr hdelims htoken hzero.2 h, ok_bind]
      change (strtokAll delim (n + 1) ⟨st.memory, none⟩ none >>= _) = _
      have hend : strtokAll delim (n + 1) ⟨st.memory, none⟩ none = .ok [] := rfl
      rw [hend, ok_bind, stringAt_eq h.append hzero.2, hruns, runs_token htoken]
      by_cases hnil : token = []
      . subst hnil
        rw [List.append_nil, if_pos rfl, if_neg (not_endsWithToken_of_forall hdelims), List.nil_append]
      . rw [if_neg hnil, if_pos ((endsWithToken_append hnil).mpr (endsWithToken_of_forall hnil htoken)),
          List.append_nil]
    . rw [List.mem_append, List.mem_append, List.mem_cons] at hzero
      simp only [not_or] at hzero
      obtain ⟨m, hcall, hheld, hrest⟩ := strtok_token hstr hdelims htoken hne hzero.2.1 hc h
      rw [hcall, ok_bind]
      dsimp only
      have hlt : rest.length < (delims ++ (token ++ c :: rest)).length := by
        simp only [List.length_append, List.length_cons]
        omega
      have hdelim : isDelim delim c = true := by simpa [isDelim] using hc
      have hends : EndsWithToken delim (delims ++ (token ++ c :: rest)) ↔ EndsWithToken delim rest := by
        rw [endsWithToken_append (by simp), endsWithToken_append (by simp), endsWithToken_cons hc]
      rw [stringAt_eq hheld hzero.2.1, ih rest.length hlt rfl hrest hzero.2.2.2 (by omega) rfl, ok_bind,
        hruns, runs_append_cons hdelim, runs_token htoken, if_neg hne, if_congr hends rfl rfl]
      rfl

end Call

theorem holdsString_getD (text rest : List (BitVec 8)) (m : Buffer (BitVec 8)) (hsize : m.size = (text ++ rest).length + 1)
    (hdata : ∀ i, m.data i = (text ++ rest).getD i 0)
    : HoldsString m text.length rest := by
  induction rest generalizing text with
  | nil =>
    refine ⟨by simp at hsize; omega, ?_⟩
    rw [hdata, List.append_nil, List.getD_eq_default _ _ (Nat.le_refl _)]
  | cons c rest ih =>
    have hnext := ih (text ++ [c]) (by simpa using hsize) (by simpa using hdata)
    rw [List.length_append, List.length_singleton] at hnext
    refine ⟨⟨by simp at hsize; omega, ?_⟩, hnext⟩
    rw [hdata, List.getD_append_right _ _ _ _ (Nat.le_refl _), Nat.sub_self, List.getD_cons_zero]

theorem strtokAll_fresh (text delim : CString)
    : strtokAll delim (text.strlen + 2) (freshString text) (some 0)
        = .ok (runs (isDelim delim) text.bytes ++ if EndsWithToken delim text.bytes then [] else [[]]) := by
  have h := holdsString_getD [] text.bytes (freshString text).memory rfl fun _ => rfl
  exact strtokAll_eq rfl h text.nonzero (Nat.le_refl _)

/--
An empty set of delimiters is no exception.
-/
theorem strtok_tokenizes_iff (text delim : CString)
    : Tokenizes text delim ↔ EndsWithToken delim text.bytes := by
  unfold Tokenizes
  rw [strtokAll_fresh]
  split
  . next h => simp [h]
  . next h => simp [h]

/--
`a,` and `,` have an empty token at the end.
-/
theorem strtok_trailing
    : (strtokAll ⟨[0x2c], by decide⟩ 4 (freshString ⟨[0x61, 0x2c], by decide⟩) (some 0) = .ok [[0x61], []]
          ∧ ¬ Tokenizes ⟨[0x61, 0x2c], by decide⟩ ⟨[0x2c], by decide⟩)
        ∧ strtokAll ⟨[0x2c], by decide⟩ 3 (freshString ⟨[0x2c], by decide⟩) (some 0) = .ok [[]]
          ∧ ¬ Tokenizes ⟨[0x2c], by decide⟩ ⟨[0x2c], by decide⟩ := by
  have hfirst : strtokAll ⟨[0x2c], by decide⟩ 4 (freshString ⟨[0x61, 0x2c], by decide⟩) (some 0)
      = .ok [[0x61], []] := rfl
  have hsecond : strtokAll ⟨[0x2c], by decide⟩ 3 (freshString ⟨[0x2c], by decide⟩) (some 0) = .ok [[]] := rfl
  refine ⟨⟨hfirst, ?_⟩, hsecond, ?_⟩
  . intro h
    unfold Tokenizes at h
    change strtokAll ⟨[0x2c], by decide⟩ 4 (freshString ⟨[0x61, 0x2c], by decide⟩) (some 0) = _ at h
    rw [hfirst] at h
    have hruns : runs (isDelim ⟨[0x2c], by decide⟩) [0x61, 0x2c] = [[0x61]] := rfl
    rw [hruns] at h
    cases h
  . intro h
    unfold Tokenizes at h
    change strtokAll ⟨[0x2c], by decide⟩ 3 (freshString ⟨[0x2c], by decide⟩) (some 0) = _ at h
    rw [hsecond] at h
    have hruns : runs (isDelim ⟨[0x2c], by decide⟩) [0x2c] = [] := rfl
    rw [hruns] at h
    cases h

end Emos.Boot.Stdc
