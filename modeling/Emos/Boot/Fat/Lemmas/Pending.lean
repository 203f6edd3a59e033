import Emos.Boot.Fat.Lemmas.LongName
import Emos.Boot.Fat.Lemmas.Walk

/-!
This module contains what a search for the next entry to report does with the fragments of long names that
it passes, given the entries from its position on.
-/

open Lib

namespace Emos.Boot

namespace Direntry

/--
The unit of a fragment at place `k` of the name. The last fragment has a terminator behind its units.
-/
def unit (e : Direntry) (k : Nat) : Option (BitVec 16) :=
  let start := (e.sequenceNumber - 1) * 13
  if start ≤ k ∧ k < start + 13 then some (e.nameFragment (k - start))
  else if e.isLastFragment ∧ k = start + 13 then some 0
  else none

/--
The search goes on behind the entry.
-/
def IsPassed (e : Direntry) : Prop := e.kind ≠ .free ∧ e.kind ≠ .live

instance (e : Direntry) : Decidable e.IsPassed := inferInstanceAs (Decidable (_ ∧ _))

/--
The fragments of a name in front of an entry, and what it is for the ones behind. A fragment that is
marked as the last one begins another name, and the label of the volume has none.
-/
def join (name : List Direntry) (e : Direntry) : List Direntry :=
  match e.kind with
  | .fragment => if e.isLastFragment then [e] else name ++ [e]
  | .label => []
  | _ => name

def keep (buf : LfnBuf) (e : Direntry) : LfnBuf := if e.kind = .fragment then buf.store e else buf

def flag (isLfn : Bool) (e : Direntry) : Bool :=
  match e.kind with
  | .fragment => true
  | .label => false
  | _ => isLfn

theorem store_eq (buf : LfnBuf) (e : Direntry) (k : Nat) : buf.store e k = (e.unit k).getD (buf k) := by
  unfold LfnBuf.store unit
  dsimp only
  split
  . rfl
  . split
    . rfl
    . rfl

/--
There is room for the units if and only if the number of the fragment is from 1 to 19.
-/
theorem fitsLfnBuf_iff (e : Direntry)
    : e.fitsLfnBuf = true ↔ 1 ≤ e.sequenceNumber ∧ e.sequenceNumber ≤ 19 := by
  unfold fitsLfnBuf fatLfnBuflen
  rw [Bool.and_eq_true, decide_eq_true_eq, decide_eq_true_eq]
  split
  . lia
  . lia

end Direntry

/--
The entries that a search passes.
-/
def passed (es : List Direntry) : List Direntry := es.takeWhile fun e => e.IsPassed

/--
The entry with which a search ends.
-/
def stopEntry (es : List Direntry) : Option Direntry := es[(passed es).length]?

/--
The fragments of the name that is pending behind entries.
-/
def pendingName (es : List Direntry) : List Direntry := es.foldl Direntry.join []

/--
What the fragments of a name have for its unit `k`, later ones replace what earlier ones have.
-/
def assemble (name : List Direntry) (k : Nat) : Option (BitVec 16) :=
  name.foldl (fun unit e => (e.unit k).or unit) none

/--
All fragments have numbers from 1 to 19.
-/
def NumbersFit (es : List Direntry) : Prop :=
  ∀ e ∈ es, e.kind = .fragment → 1 ≤ e.sequenceNumber ∧ e.sequenceNumber ≤ 19

section Search

variable {e : Direntry} {es : List Direntry}

theorem passed_cons (h : e.IsPassed) : passed (e :: es) = e :: passed es :=
  List.takeWhile_cons_of_pos (by simpa using h)

theorem stopEntry_cons (h : e.IsPassed) : stopEntry (e :: es) = stopEntry es := by
  unfold stopEntry
  rw [passed_cons h, List.length_cons, List.getElem?_cons_succ]

theorem passed_stop (h : ¬ e.IsPassed) : passed (e :: es) = [] :=
  List.takeWhile_cons_of_neg (by simpa using h)

theorem stopEntry_stop (h : ¬ e.IsPassed) : stopEntry (e :: es) = some e := by
  unfold stopEntry
  rw [passed_stop h]
  rfl

theorem numbersFit_cons
    : NumbersFit (e :: es) ↔ (e.kind = .fragment → e.fitsLfnBuf = true) ∧ NumbersFit es := by
  unfold NumbersFit
  rw [List.forall_mem_cons, Direntry.fitsLfnBuf_iff]

/--
How a search ends, if all fragments that it passes fit.
-/
def foundBy (es : List Direntry) (i : Nat) (buf : LfnBuf) (isLfn : Bool) : Found :=
  let j := i + (passed es).length
  let buf := (passed es).foldl Direntry.keep buf
  let isLfn := (passed es).foldl Direntry.flag isLfn
  match stopEntry es with
  | none => .none j buf isLfn
  | some e => if e.kind = .live then .entry j buf isLfn else .end j

theorem foundBy_cons (h : e.IsPassed) (i : Nat) (buf : LfnBuf) (isLfn : Bool)
    : foundBy (e :: es) i buf isLfn = foundBy es (i + 1) (e.keep buf) (e.flag isLfn) := by
  unfold foundBy
  rw [passed_cons h, stopEntry_cons h, List.length_cons, Nat.add_assoc, Nat.add_comm 1]
  rfl

theorem scanList_eq (es : List Direntry) (i : Nat) (buf : LfnBuf) (isLfn : Bool)
    : (NumbersFit (passed es) → scanList es i buf isLfn = .ok (foundBy es i buf isLfn))
        ∧ (¬ NumbersFit (passed es) → scanList es i buf isLfn = .error .access) := by
  induction es generalizing i buf isLfn with
  | nil => exact ⟨fun _ => rfl, fun h => absurd (fun e he => absurd he List.not_mem_nil) h⟩
  | cons e es ih =>
    have hstop : ∀ found, ¬ e.IsPassed → foundBy (e :: es) i buf isLfn = found →
        (NumbersFit (passed (e :: es)) →
          (.ok found : Run Found) = .ok (foundBy (e :: es) i buf isLfn))
          ∧ (¬ NumbersFit (passed (e :: es)) → (.ok found : Run Found) = .error .access) := by
      intro found hnot hfound
      rw [hfound, passed_stop hnot]
      exact ⟨fun _ => rfl, fun h => absurd (fun e he => absurd he List.not_mem_nil) h⟩
    rw [scanList]
    cases hkind : e.kind with
    | free =>
      have hnot : ¬ e.IsPassed := fun h => h.1 hkind
      refine hstop _ hnot ?_
      unfold foundBy
      simp only [passed_stop hnot, stopEntry_stop hnot, hkind, reduceCtorEq, if_false]
      rfl
    | deleted =>
      have hpassed : e.IsPassed := by simp [Direntry.IsPassed, hkind]
      have hkeep : e.keep buf = buf := if_neg (by simp [hkind])
      have hflag : e.flag isLfn = isLfn := by simp [Direntry.flag, hkind]
      rw [passed_cons hpassed, numbersFit_cons, foundBy_cons hpassed, hkeep, hflag]
      simp only [hkind, reduceCtorEq, false_implies, true_and]
      exact ih _ _ _
    | fragment =>
      have hpassed : e.IsPassed := by simp [Direntry.IsPassed, hkind]
      have hkeep : e.keep buf = buf.store e := if_pos hkind
      have hflag : e.flag isLfn = true := by simp [Direntry.flag, hkind]
      rw [passed_cons hpassed, numbersFit_cons, foundBy_cons hpassed, hkeep, hflag]
      simp only [hkind, forall_const]
      unfold getLfnFilename
      by_cases hfits : e.fitsLfnBuf = true
      . rw [if_pos hfits]
        simp only [hfits, true_and]
        exact ih _ _ _
      . rw [if_neg hfits]
        exact ⟨fun h => absurd h.1 hfits, fun _ => rfl⟩
    | label =>
      have hpassed : e.IsPassed := by simp [Direntry.IsPassed, hkind]
      have hkeep : e.keep buf = buf := if_neg (by simp [hkind])
      have hflag : e.flag isLfn = false := by simp [Direntry.flag, hkind]
      rw [passed_cons hpassed, numbersFit_cons, foundBy_cons hpassed, hkeep, hflag]
      simp only [hkind, reduceCtorEq, false_implies, true_and]
      exact ih _ _ _
    | live =>
      have hnot : ¬ e.IsPassed := fun h => h.2 hkind
      refine hstop _ hnot ?_
      unfold foundBy
      simp only [passed_stop hnot, stopEntry_stop hnot, hkind, if_true]
      rfl

end Search

section Pending

variable {name : List Direntry}

/--
The flag is set if and only if there are fragments of a name that is pending.
-/
theorem flag_iff (es : List Direntry) (isLfn : Bool) (h : isLfn = true ↔ name ≠ [])
    : es.foldl Direntry.flag isLfn = true ↔ es.foldl Direntry.join name ≠ [] := by
  induction es generalizing isLfn name with
  | nil => exact h
  | cons e es ih =>
    rw [List.foldl_cons, List.foldl_cons]
    apply ih
    unfold Direntry.flag Direntry.join
    cases e.kind with
    | free => exact h
    | deleted => exact h
    | fragment =>
      dsimp only
      split
      . simp
      . simp
    | label => simp
    | live => exact h

theorem flag_passed (es : List Direntry)
    : es.foldl Direntry.flag false = true ↔ pendingName es ≠ [] :=
  flag_iff es false (by simp)

theorem assemble_append (name : List Direntry) (e : Direntry) (k : Nat)
    : assemble (name ++ [e]) k = (e.unit k).or (assemble name k) := by
  unfold assemble
  rw [List.foldl_append]
  rfl

theorem isSome_assemble (name : List Direntry) (k : Nat)
    : (assemble name k).isSome = true ↔ ∃ e ∈ name, (e.unit k).isSome = true := by
  induction name using List.reverseRecOn with
  | nil => simp [assemble]
  | append_singleton name e ih =>
    rw [assemble_append, Option.isSome_or, Bool.or_eq_true, ih]
    constructor
    . intro h
      cases h with
      | inl h => exact ⟨e, by simp, h⟩
      | inr h =>
        obtain ⟨e', he', h⟩ := h
        exact ⟨e', List.mem_append_left _ he', h⟩
    . intro ⟨e', he', h⟩
      rw [List.mem_append, List.mem_singleton] at he'
      cases he' with
      | inl he' => exact .inr ⟨e', he', h⟩
      | inr he' => exact .inl (he' ▸ h)

/--
The buffer has the units of the name that is pending.
-/
theorem keep_pending (es : List Direntry) (buf : LfnBuf) (h : ∀ k u, assemble name k = some u → buf k = u)
    {k : Nat} {u : BitVec 16} (hu : assemble (es.foldl Direntry.join name) k = some u)
    : es.foldl Direntry.keep buf k = u := by
  induction es generalizing buf name with
  | nil => exact h k u hu
  | cons e es ih =>
    rw [List.foldl_cons] at hu ⊢
    refine ih (e.keep buf) ?_ hu
    intro k u hu
    unfold Direntry.join at hu
    unfold Direntry.keep
    cases hkind : e.kind with
    | free =>
      rw [hkind] at hu
      exact h k u hu
    | deleted =>
      rw [hkind] at hu
      exact h k u hu
    | fragment =>
      rw [hkind] at hu
      rw [if_pos rfl, Direntry.store_eq]
      dsimp only at hu
      split at hu
      . have hunit : e.unit k = some u := by simpa [assemble] using hu
        rw [hunit]
        rfl
      . rw [assemble_append] at hu
        cases hunit : e.unit k with
        | some v =>
          rw [hunit] at hu
          exact Option.some.inj hu
        | none =>
          rw [hunit] at hu
          exact h k u hu
    | label =>
      rw [hkind] at hu
      contradiction
    | live =>
      rw [hkind] at hu
      exact h k u hu

end Pending

end Emos.Boot
