import Emos.Boot.Module.Impl.Module
import Emos.Boot.Stdc.Lemmas.String

/-!
This module contains for which sections the name of a module is found and copied as it should be.
-/

open Lib

namespace Emos.Boot.Module

open Stdc

def keyAt (entry : Nat) : Nat := entry + noteEbootEntrySize

namespace NoteSection

variable (sec : NoteSection)

def number (i : Nat) : Nat := (sec.data i).toNat + 256 * (sec.data (i + 1)).toNat

def entryType (entry : Nat) : Nat := sec.number entry

def keyLen (entry : Nat) : Nat := sec.number (entry + 2)

def valueLen (entry : Nat) : Nat := sec.number (entry + 4)

def entryLen (entry : Nat) : Nat := sec.number (entry + 6)

def valueAt (entry : Nat) : Nat := keyAt entry + sec.keyLen entry + 1

/--
The key of the entry has the four characters of the word.
-/
def IsName (entry : Nat) : Prop :=
  keyAt entry + 4 ≤ sec.size ∧ sec.keyLen entry = 4
    ∧ ∀ i < 4, nameKey[i]? = some (sec.data (keyAt entry + i))

/--
The first entry for the name from an offset on. None follows behind the end, where an entry does not fit or
where there is no way on.
-/
inductive First : Nat → Option Nat → Prop where
  | past {o : Nat} (h : sec.size ≤ o) : First o none
  | cut {o : Nat} (h : sec.size < o + noteEbootEntrySize) : First o none
  | named {o : Nat} (h : sec.IsName o) : First o (some o)
  | stuck {o : Nat} (h : ¬ sec.IsName o) (hlen : sec.entryLen o = 0) : First o none
  | next {o : Nat} {r : Option Nat} (hin : o + noteEbootEntrySize ≤ sec.size) (h : ¬ sec.IsName o)
    (hlen : sec.entryLen o ≠ 0) (hrest : First (o + sec.entryLen o) r) : First o r

/--
A string that is exactly the value of an entry.
-/
structure IsValue (entry : Nat) (name : Buffer (BitVec 8)) : Prop where
  inside : sec.valueAt entry + sec.valueLen entry ≤ sec.size
  chars : ∀ i < sec.valueLen entry,
    name.data i = sec.data (sec.valueAt entry + i) ∧ sec.data (sec.valueAt entry + i) ≠ 0
  terminated : sec.valueLen entry < name.size ∧ name.data (sec.valueLen entry) = 0

/--
The loop ends within the section with the first entry for the name. Its value is copied if it is a string,
and there is no name if there is no such entry.
-/
def NameRight (memory : Option (Nat → BitVec 8)) : Prop :=
  ∃ r, findName sec = .ok r ∧ sec.First 0 r
    ∧ (r = none → moduleName sec memory = .ok (.error .invalidValue))
    ∧ ∀ entry, r = some entry → sec.entryType entry = 1
      → ∃ name, moduleName sec memory = .ok (.ok name) ∧ sec.IsValue entry name

/--
The number of characters of a key that are compared. For an empty key the end of the word counts as well.
-/
def comparedLen (entry : Nat) : Nat := if sec.keyLen entry = 0 then 5 else sec.keyLen entry

/--
An entry whose key is not the beginning of the word with its end, which a character of the section shows.
-/
def IsOther (entry : Nat) : Prop :=
  keyAt entry ≤ sec.size ∧ ∃ j < sec.comparedLen entry, DiffersAt sec (nameKey ++ [0]) (keyAt entry) j

/--
There are other entries, each of which leads on, up to one for the name or the end of the section.
-/
inductive Leads : Nat → Option Nat → Prop where
  | past {o : Nat} (h : sec.size ≤ o) : Leads o none
  | named {o : Nat} (h : sec.IsName o) : Leads o (some o)
  | next {o : Nat} {r : Option Nat} (h : sec.IsOther o) (hlen : sec.entryLen o ≠ 0)
    (hrest : Leads (o + sec.entryLen o) r) : Leads o r

/--
The value of an entry ends with a zero, and memory for it has one at the same place.
-/
structure CopiesWell (memory : Option (Nat → BitVec 8)) (entry : Nat) : Prop where
  chars : HasChars sec (sec.valueAt entry) (sec.valueLen entry)
  inside : sec.valueAt entry + sec.valueLen entry < sec.size
  zero : sec.data (sec.valueAt entry + sec.valueLen entry) = 0
  memory : ∃ bytes, memory = some bytes ∧ bytes (sec.valueLen entry) = 0

def NameRightWhen (memory : Option (Nat → BitVec 8)) : Prop :=
  ∃ r, sec.Leads 0 r ∧ ∀ entry, r = some entry → sec.entryType entry = 1 → sec.CopiesWell memory entry

variable {sec} {o n : Nat} {r : Option Nat}

theorem number_lt (i : Nat) : sec.number i < 2 ^ 16 := by
  have := (sec.data i).isLt
  have := (sec.data (i + 1)).isLt
  unfold number
  omega

theorem half_of_le {i : Nat} (h : i + 2 ≤ sec.size) : sec.half i = .ok (sec.number i) := by
  unfold half byte
  rw [Buffer.get_of_lt (by omega), ok_bind, Buffer.get_of_lt (by omega), ok_bind]
  rfl

theorem half_eq_ok {i v : Nat} (h : sec.half i = .ok v) : i + 2 ≤ sec.size ∧ v = sec.number i := by
  have hin : i + 2 ≤ sec.size := by
    unfold half byte at h
    rw [bind_eq_ok] at h
    obtain ⟨lo, _, h⟩ := h
    rw [bind_eq_ok] at h
    obtain ⟨hi, hhi, _⟩ := h
    have := (Buffer.get_eq_ok hhi).1
    omega
  refine ⟨hin, ?_⟩
  rw [half_of_le hin] at h
  cases h
  rfl

/--
The comparison of a key with the word.
-/
def compareKey (sec : NoteSection) (entry : Nat) : Run Int :=
  strncmp nameKey sec.byte (keyAt entry) (sec.keyLen entry)

theorem IsName.compareKey (h : sec.IsName o) : sec.compareKey o = .ok 0 := by
  apply (strncmp_iff nameKey (keyAt o) (sec.keyLen o)).1.mpr
  intro i hi c hc
  rw [h.2.1] at hi
  have hlt : i < 4 := hi
  rw [List.getElem?_append_left hlt, h.2.2 i hlt, Option.some.injEq] at hc
  exact ⟨by have := h.1; omega, hc⟩

theorem exists_compareKey_iff : (∃ d, sec.compareKey o = .ok d ∧ d ≠ 0)
    ↔ ∃ j < sec.comparedLen o, DiffersAt sec (nameKey ++ [0]) (keyAt o) j := by
  have hlimit : ∀ j, DiffersAt sec (nameKey ++ [0]) (keyAt o) j
      → (j < comparedLength (sec.keyLen o) ↔ j < sec.comparedLen o) := by
    intro j ⟨_, c, hc, _⟩
    have hj : j < 5 := (List.getElem?_eq_some_iff.mp hc).1
    have hlt := @number_lt sec (o + 2)
    unfold comparedLength comparedLen keyLen sub32 u32
    split_ifs <;> omega
  apply (strncmp_iff nameKey (keyAt o) (sec.keyLen o)).2.trans
  constructor
  . intro ⟨j, hj, hdiffers⟩
    exact ⟨j, (hlimit j hdiffers).mp hj, hdiffers⟩
  . intro ⟨j, hj, hdiffers⟩
    exact ⟨j, (hlimit j hdiffers).mpr hj, hdiffers⟩

theorem IsOther.not_isName (h : sec.IsOther o) : ¬ sec.IsName o := by
  intro hname
  obtain ⟨d, hd, hne⟩ := exists_compareKey_iff.2 h.2
  rw [hname.compareKey] at hd
  cases hd
  exact hne rfl

variable {fuel : Nat}

theorem go_past (h : sec.size ≤ o) : findName.go sec (fuel + 1) o = .ok none := by
  unfold findName.go
  rw [if_neg (by omega)]

/--
A round of the loop that reads the length of the key.
-/
theorem go_compare (h : o < sec.size) (hin : o + 4 ≤ sec.size)
    : findName.go sec (fuel + 1) o
        =
      sec.compareKey o >>= fun difference =>
        if difference = 0 then
          .ok (some o)
        else
          sec.half (o + 6) >>= fun entryLen => findName.go sec fuel (o + entryLen) := by
  rw [findName.go, if_pos h, half_of_le (by omega), ok_bind]
  rfl

theorem go_named (h : sec.IsName o) : findName.go sec (fuel + 1) o = .ok (some o) := by
  have hin := h.1
  unfold keyAt noteEbootEntrySize at hin
  rw [go_compare (by omega) (by omega), h.compareKey, ok_bind, if_pos rfl]

theorem go_other (ho : o < sec.size) (h : sec.IsOther o)
    : findName.go sec (fuel + 1) o = findName.go sec fuel (o + sec.entryLen o) := by
  have hin := h.1
  unfold keyAt noteEbootEntrySize at hin
  obtain ⟨d, hd, hne⟩ := exists_compareKey_iff.2 h.2
  rw [go_compare ho (by omega), hd, ok_bind, if_neg hne, half_of_le (by omega), ok_bind]
  rfl

theorem go_cases (h : findName.go sec (fuel + 1) o = .ok r)
    : (sec.size ≤ o ∧ r = none)
        ∨ (o < sec.size ∧ sec.compareKey o = .ok 0 ∧ r = some o)
        ∨ (o < sec.size ∧ sec.IsOther o ∧ findName.go sec fuel (o + sec.entryLen o) = .ok r) := by
  by_cases ho : o < sec.size
  . have hhalf := h
    unfold findName.go at hhalf
    rw [if_pos ho, bind_eq_ok] at hhalf
    obtain ⟨v, hv, -⟩ := hhalf
    rw [go_compare ho (half_eq_ok hv).1, bind_eq_ok] at h
    obtain ⟨d, hd, h⟩ := h
    by_cases hzero : d = 0
    . rw [if_pos hzero] at h
      cases h
      rw [hzero] at hd
      exact .inr (.inl ⟨ho, hd, rfl⟩)
    . rw [if_neg hzero, bind_eq_ok] at h
      obtain ⟨len, hlen, h⟩ := h
      obtain ⟨hin, rfl⟩ := half_eq_ok hlen
      refine .inr (.inr ⟨ho, ⟨hin, ?_⟩, h⟩)
      exact exists_compareKey_iff.1 ⟨d, hd, hzero⟩
  . rw [go_past (by omega)] at h
    cases h
    exact .inl ⟨by omega, rfl⟩

theorem First.le {entry : Nat} (h : sec.First o r) (hr : r = some entry) : o ≤ entry := by
  induction h with
  | past | cut | stuck => cases hr
  | named h =>
    cases hr
    exact Nat.le_refl _
  | next hin h hlen hrest ih =>
    have := ih hr
    omega

/--
An entry that leads to itself keeps the loop busy.
-/
theorem go_stuck (ho : o < sec.size) (h : sec.IsOther o) (hlen : sec.entryLen o = 0)
    : findName.go sec fuel o = .error .hang := by
  induction fuel with
  | zero => rfl
  | succ fuel ih =>
    rw [go_other ho h, hlen]
    exact ih

/--
If the loop finds what it should, it was led there.
-/
theorem First.leads (h : sec.First o r) (hgo : findName.go sec fuel o = .ok r) : sec.Leads o r := by
  induction fuel generalizing o with
  | zero => cases hgo
  | succ fuel ih =>
    obtain ⟨ho, rfl⟩ | ⟨ho, hcompare, rfl⟩ | ⟨ho, hother, hgo⟩ := go_cases hgo
    . exact .past ho
    . cases h with
      | named h => exact .named h
      | next hin h hlen hrest =>
        have := hrest.le rfl
        omega
    . have hlen : sec.entryLen o ≠ 0 := by
        intro hlen
        rw [hlen] at hgo
        rw [Nat.add_zero, go_stuck ho hother hlen] at hgo
        cases hgo
      have hin := hother.1
      unfold keyAt at hin
      cases h with
      | past hpast => omega
      | cut hcut => omega
      | named hname => exact absurd hname hother.not_isName
      | stuck _ hzero => exact absurd hzero hlen
      | next _ _ _ hrest => exact .next hother hlen (ih hrest hgo)

theorem Leads.first (h : sec.Leads o r) : sec.First o r := by
  induction h with
  | past ho => exact .past ho
  | named h => exact .named h
  | next h hlen _ ih => exact .next h.1 h.not_isName hlen ih

/--
There are more rounds than bytes, and each of them goes on by a byte.
-/
theorem Leads.go (h : sec.Leads o r) (hpos : 0 < fuel) (hfuel : sec.size < o + fuel)
    : findName.go sec fuel o = .ok r := by
  induction h generalizing fuel with
  | past ho =>
    obtain ⟨n, rfl⟩ := Nat.exists_eq_succ_of_ne_zero (Nat.ne_of_gt hpos)
    exact go_past ho
  | named h =>
    obtain ⟨n, rfl⟩ := Nat.exists_eq_succ_of_ne_zero (Nat.ne_of_gt hpos)
    exact go_named h
  | @next o r h hlen hrest ih =>
    obtain ⟨n, rfl⟩ := Nat.exists_eq_succ_of_ne_zero (Nat.ne_of_gt hpos)
    by_cases ho : o < sec.size
    . rw [go_other ho h]
      apply ih
      . omega
      . omega
    . have hnone : r = none := by
        cases hrest with
        | past => rfl
        | named hname =>
          have := hname.1
          unfold keyAt at this
          omega
        | next hother _ _ =>
          have := hother.1
          unfold keyAt noteEbootEntrySize at this
          omega
      rw [hnone]
      exact go_past (by omega)

theorem findName_iff : (findName sec = .ok r ∧ sec.First 0 r) ↔ sec.Leads 0 r := by
  constructor
  . intro ⟨hfind, hfirst⟩
    exact hfirst.leads hfind
  . intro h
    exact ⟨h.go (Nat.succ_pos _) (by omega), h.first⟩

variable {memory : Option (Nat → BitVec 8)} {entry : Nat}

/--
What becomes of an entry for the name that is a string.
-/
theorem moduleName_of_string (hfind : findName sec = .ok (some entry)) (hname : sec.IsName entry)
    (htype : sec.entryType entry = 1)
    : moduleName sec memory
        =
      strndup sec.byte memory (sec.valueAt entry) (sec.valueLen entry + 1) >>= fun name =>
        match name with
        | none => .ok (.error .invalidValue)
        | some name => .ok (.ok name) := by
  have hin := hname.1
  unfold keyAt noteEbootEntrySize at hin
  have hstring : ¬ sec.number entry ≠ 1 := not_not.mpr htype
  unfold moduleName
  rw [hfind, ok_bind]
  dsimp only
  rw [half_of_le (by omega), ok_bind, if_neg hstring, half_of_le (by omega), ok_bind,
    half_of_le (by omega), ok_bind]
  rfl

theorem CopiesWell.isValue (h : sec.CopiesWell memory entry) (hfind : findName sec = .ok (some entry))
    (hname : sec.IsName entry) (htype : sec.entryType entry = 1)
    : ∃ name, moduleName sec memory = .ok (.ok name) ∧ sec.IsValue entry name := by
  obtain ⟨bytes, rfl, hbytes⟩ := h.memory
  have hlt : sec.valueLen entry < 2 ^ 16 := number_lt _
  rw [moduleName_of_string hfind hname htype]
  rw [show sec.byte = sec.get .access from rfl,
    strndup_of_terminated h.chars h.inside h.zero (by omega) bytes, ok_bind]
  refine ⟨_, rfl, Nat.le_of_lt h.inside, ?_, ?_⟩
  . intro i hi
    refine ⟨?_, (h.chars i hi).2⟩
    have hlen : i < ((List.range (sec.valueLen entry)).map fun j => sec.data (sec.valueAt entry + j)).length := by
      simpa using hi
    have hinside := Buffer.store_inside (b := ⟨sec.valueLen entry + 1, bytes⟩) (p := 0) hlen
    rw [Nat.zero_add] at hinside
    rw [hinside]
    simp
  . rw [Buffer.size_store]
    refine ⟨Nat.lt_succ_self _, ?_⟩
    rw [Buffer.store_outside (by simp)]
    exact hbytes

theorem copiesWell_of_isValue (hfind : findName sec = .ok (some entry)) (hname : sec.IsName entry)
    (htype : sec.entryType entry = 1) {name : Buffer (BitVec 8)} (h : moduleName sec memory = .ok (.ok name))
    (hvalue : sec.IsValue entry name)
    : sec.CopiesWell memory entry := by
  have hlt : sec.valueLen entry < 2 ^ 16 := number_lt _
  have hchars : HasChars sec (sec.valueAt entry) (sec.valueLen entry) := by
    intro i hi
    have := hvalue.inside
    exact ⟨by omega, (hvalue.chars i hi).2⟩
  rw [moduleName_of_string hfind hname htype, bind_eq_ok] at h
  obtain ⟨dup, hdup, h⟩ := h
  cases dup with
  | none => cases h
  | some dup =>
    cases h
    obtain ⟨hend, hzero⟩ := terminated_of_strndup hchars (by omega) hdup
    refine ⟨hchars, hend, hzero, ?_⟩
    cases memory with
    | none =>
      unfold strndup at hdup
      rw [bind_eq_ok] at hdup
      obtain ⟨_, _, hdup⟩ := hdup
      cases hdup
    | some bytes =>
      refine ⟨bytes, rfl, ?_⟩
      have hcopy := strndup_of_terminated hchars hend hzero (by omega) bytes
      have heq := hdup.symm.trans hcopy
      cases heq
      have hterminated := hvalue.terminated.2
      rw [Buffer.store_outside (by simp)] at hterminated
      exact hterminated

theorem Leads.isName (h : sec.Leads o r) (hr : r = some entry) : sec.IsName entry := by
  induction h with
  | past => cases hr
  | named h =>
    cases hr
    exact h
  | next _ _ _ ih => exact ih hr

end NoteSection

/--
For every section and whatever memory there is for the name, it is found and copied as it should be if and
only if other entries lead to it, or to the end, and its value and the memory have a zero where it ends.
-/
theorem module_name_iff (sec : NoteSection) (memory : Option (Nat → BitVec 8))
    : sec.NameRight memory ↔ sec.NameRightWhen memory := by
  constructor
  . intro ⟨r, hfind, hfirst, _, hcopy⟩
    have hleads := NoteSection.findName_iff.1 ⟨hfind, hfirst⟩
    refine ⟨r, hleads, ?_⟩
    intro entry hr htype
    obtain ⟨name, hname, hvalue⟩ := hcopy entry hr htype
    rw [hr] at hfind
    exact NoteSection.copiesWell_of_isValue hfind (hleads.isName hr) htype hname hvalue
  . intro ⟨r, hleads, hcopies⟩
    obtain ⟨hfind, hfirst⟩ := NoteSection.findName_iff.2 hleads
    refine ⟨r, hfind, hfirst, ?_, ?_⟩
    . intro hnone
      unfold moduleName
      rw [hfind, hnone]
      rfl
    . intro entry hr htype
      have hwell := hcopies entry hr htype
      rw [hr] at hfind
      exact hwell.isValue hfind (hleads.isName hr) htype

/--
A section in memory, as a list of its bytes.
-/
def noteSection (bytes : List (BitVec 8)) : NoteSection := ⟨bytes.length, fun i => bytes.getD i 0⟩

/--
An entry without a way on keeps the loop busy, the key `na` is taken for the name, and the name `ab` lacks the
zero at its end unless the new memory has one there.
-/
theorem module_name_wrong
    : findName (noteSection [1, 0, 1, 0, 0, 0, 0, 0, 0x78, 0, 0, 0]) = .error .hang
        ∧ findName (noteSection [1, 0, 2, 0, 1, 0, 16, 0, 0x6E, 0x61, 0, 0x31, 0]) = .ok (some 0)
        ∧ ¬ NoteSection.IsName (noteSection [1, 0, 2, 0, 1, 0, 16, 0, 0x6E, 0x61, 0, 0x31, 0]) 0
        ∧ ¬ NoteSection.NameRight (noteSection [1, 0, 1, 0, 0, 0, 0, 0, 0x78, 0, 0, 0]) none
        ∧ ∃ name, moduleName (noteSection [1, 0, 4, 0, 2, 0, 16, 0, 0x6E, 0x61, 0x6D, 0x65, 0, 0x61, 0x62, 0])
              (some fun _ => 0xFF) = .ok (.ok name)
          ∧ name.data 2 = 0xFF := by
  have hhang : findName (noteSection [1, 0, 1, 0, 0, 0, 0, 0, 0x78, 0, 0, 0]) = .error .hang := by rfl
  refine ⟨hhang, by rfl, ?_, ?_, _, rfl, rfl⟩
  . intro h
    exact absurd h.2.1 (by decide)
  . intro ⟨r, hfind, _⟩
    rw [hhang] at hfind
    cases hfind

end Emos.Boot.Module
