import Emos.Boot.Fat.Impl.Directory
import Emos.Lib.Loop
import Mathlib.Data.List.Infix

/-!
This module contains what a directory lists, given all of its entries one after the other, and what an
enumeration of them reports that gets to see the entries in this order. No block or cluster occurs here.
-/

open Lib

namespace Emos.Boot

inductive EntryKind where
  /-- no entry from here on is in use -/
  | free
  | deleted
  /-- part of a long name -/
  | fragment
  /-- the label of the volume -/
  | label
  /-- a file or a directory -/
  | live
  deriving DecidableEq

namespace Direntry

def kind (e : Direntry) : EntryKind :=
  if e 0 = 0 then .free
  else if e 0 = 0xE5 then .deleted
  else if e.attr &&& fatAttrLfnentry = fatAttrLfnentry then .fragment
  else if e.attr &&& fatAttrVolumeId ≠ 0 then .label
  else .live

def lower (c : BitVec 8) : BitVec 8 := if 0x41 ≤ c.toNat ∧ c.toNat ≤ 0x5A then c + 0x20 else c

def shortName (e : Direntry) : List (BitVec 8) :=
  let name := unpadded e 0 8
  let extension := unpadded e 8 3
  (if e.attr2 &&& fatAttr2LcaseName ≠ 0 then name.map lower else name)
    ++ (if e 8 ≠ 0x20 then [0x2E] else [])
    ++ (if e.attr2 &&& fatAttr2LcaseExt ≠ 0 then extension.map lower else extension) ++ [0]

/--
Characters to be turned into lower case are ASCII ones.
-/
def IsAscii (e : Direntry) : Prop :=
  (e.attr2 &&& fatAttr2LcaseName ≠ 0 → ∀ c ∈ unpadded e 0 8, c.toNat < 128)
    ∧ (e.attr2 &&& fatAttr2LcaseExt ≠ 0 → ∀ c ∈ unpadded e 8 3, c.toNat < 128)

theorem tolower_eq (c : BitVec 8)
    : tolower c = if c.toNat < 128 then .ok (lower c) else .error .access := by
  unfold tolower lower
  by_cases hc : c.toNat < 128
  . rw [if_neg (by omega), if_pos hc]
    split
    . rfl
    . rfl
  . rw [if_pos (by omega), if_neg hc]

theorem mapM_tolower (chars : List (BitVec 8))
    : chars.mapM tolower
        =
      if ∀ c ∈ chars, c.toNat < 128 then .ok (chars.map lower) else .error .access := by
  induction chars with
  | nil => rfl
  | cons c chars ih =>
    rw [List.mapM_cons, ih, tolower_eq]
    simp only [List.forall_mem_cons]
    by_cases hc : c.toNat < 128
    . by_cases hrest : ∀ c ∈ chars, c.toNat < 128
      . rw [if_pos hc, if_pos hrest, if_pos ⟨hc, hrest⟩]
        rfl
      . have hboth : ¬ (c.toNat < 128 ∧ ∀ c ∈ chars, c.toNat < 128) := fun h => hrest h.2
        rw [if_pos hc, if_neg hrest, if_neg hboth]
        rfl
    . have hboth : ¬ (c.toNat < 128 ∧ ∀ c ∈ chars, c.toNat < 128) := fun h => hc h.1
      rw [if_neg hc, if_neg hboth]
      rfl

theorem lowercase_eq (flag : Bool) (chars : List (BitVec 8))
    : lowercase flag chars
        =
      if flag → ∀ c ∈ chars, c.toNat < 128 then .ok (if flag then chars.map lower else chars)
      else .error .access := by
  unfold lowercase
  cases flag with
  | false => simp
  | true =>
    rw [if_pos rfl, mapM_tolower]
    simp

theorem getSfnFilename_eq_ok_iff (e : Direntry) (name : List (BitVec 8))
    : getSfnFilename e = .ok name ↔ e.IsAscii ∧ name = e.shortName := by
  unfold getSfnFilename IsAscii shortName
  rw [lowercase_eq, lowercase_eq]
  simp only [decide_eq_true_eq]
  by_cases hname : e.attr2 &&& fatAttr2LcaseName ≠ 0 → ∀ c ∈ unpadded e 0 8, c.toNat < 128
  . rw [if_pos hname]
    by_cases hext : e.attr2 &&& fatAttr2LcaseExt ≠ 0 → ∀ c ∈ unpadded e 8 3, c.toNat < 128
    . rw [if_pos hext]
      dsimp only [bind, Except.bind]
      rw [Except.ok.injEq]
      exact ⟨fun h => ⟨⟨hname, hext⟩, h.symm⟩, fun h => h.2.symm⟩
    . rw [if_neg hext]
      dsimp only [bind, Except.bind]
      exact ⟨fun h => by contradiction, fun h => absurd h.1.2 hext⟩
  . rw [if_neg hname]
    dsimp only [bind, Except.bind]
    exact ⟨fun h => by contradiction, fun h => absurd h.1.1 hname⟩

end Direntry

structure Item where
  /-- its position in the directory -/
  index : Nat
  /-- the fragments since the item before this one -/
  fragments : List Direntry
  /-- whether the last thing before it, apart from deleted entries, was a fragment -/
  isLfn : Bool
  direntry : Direntry

/--
What is to be listed of entries that start at position `i`.
-/
def listing : List Direntry → (i : Nat) → List Direntry → Bool → List Item
  | [], _, _, _ => []
  | e :: es, i, fragments, isLfn =>
    match e.kind with
    | .free => []
    | .deleted => listing es (i + 1) fragments isLfn
    | .fragment => listing es (i + 1) (fragments ++ [e]) true
    | .label => listing es (i + 1) fragments false
    | .live => ⟨i, fragments, isLfn, e⟩ :: listing es (i + 1) [] false

/--
The name, size and saved entry of an item. Units that no fragment has are those of `stack`.
-/
def Item.report (item : Item) (stack : LfnBuf) : DirectoryEntry × Direntry :=
  ⟨⟨if item.isLfn then lfnUcs2ToUtf8 (item.fragments.foldl LfnBuf.store stack) 0x3F
    else item.direntry.shortName, item.direntry.size⟩, item.direntry⟩

/--
The reports of all items, the first of which is made by call number `k`.
-/
def reports (stack : Nat → LfnBuf) : Nat → List Item → List (DirectoryEntry × Direntry)
  | _, [] => []
  | k, item :: items => item.report (stack k) :: reports stack (k + 1) items

theorem listing_prefix (xs ys : List Direntry) (i : Nat) (fragments : List Direntry) (isLfn : Bool)
    : listing xs i fragments isLfn <+: listing (xs ++ ys) i fragments isLfn := by
  induction xs generalizing i fragments isLfn with
  | nil => exact List.nil_prefix
  | cons e es ih =>
    rw [List.cons_append, listing, listing]
    cases e.kind with
    | free => exact List.nil_prefix
    | deleted => exact ih _ _ _
    | fragment => exact ih _ _ _
    | label => exact ih _ _ _
    | live => exact List.cons_prefix_cons.mpr ⟨rfl, ih _ _ _⟩

theorem kind_of_mem_listing {es : List Direntry} {i : Nat} {fragments : List Direntry} {isLfn : Bool}
    {item : Item} (h : item ∈ listing es i fragments isLfn) : item.direntry.kind = .live := by
  induction es generalizing i fragments isLfn with
  | nil => contradiction
  | cons e es ih =>
    rw [listing] at h
    cases hkind : e.kind with
    | free =>
      rw [hkind] at h
      contradiction
    | deleted =>
      rw [hkind] at h
      exact ih h
    | fragment =>
      rw [hkind] at h
      exact ih h
    | label =>
      rw [hkind] at h
      exact ih h
    | live =>
      rw [hkind] at h
      cases h with
      | head => exact hkind
      | tail _ h => exact ih h

theorem reports_length (stack : Nat → LfnBuf) (k : Nat) (items : List Item)
    : (reports stack k items).length = items.length := by
  induction items generalizing k with
  | nil => rfl
  | cons item items ih =>
    rw [reports, List.length_cons, List.length_cons, ih]

section Enumeration

variable (fetch : Nat → Run Direntry) (stack : Nat → LfnBuf) (last : Status)

/--
What is reported of an entry, of which `fetch` gives the bytes.
-/
def reportOf (entry : Run Direntry) (buf : LfnBuf) (isLfn : Bool)
    : Run (DirectoryEntry × Direntry) := do
  let e ← entry
  let name ← if isLfn then .ok (lfnUcs2ToUtf8 buf 0x3F) else getSfnFilename e
  .ok ⟨⟨name, e.size⟩, e⟩

/--
Enumerate entries. To report the one at position `i` the driver looks again at its bytes, and `fetch i`
is what it finds there. After the last entry it gets `last`.
-/
def enumList : List Direntry → (i k : Nat) → LfnBuf → Bool
    → Run (List (DirectoryEntry × Direntry) × Status)
  | [], _, _, _, _ => .ok ⟨[], last⟩
  | e :: es, i, k, buf, isLfn =>
    match e.kind with
    | .free => .ok ⟨[], .endOfList⟩
    | .deleted => enumList es (i + 1) k buf isLfn
    | .fragment => do
      let buf ← getLfnFilename e buf
      enumList es (i + 1) k buf true
    | .label => enumList es (i + 1) k buf false
    | .live => do
      let report ← reportOf (fetch i) buf isLfn
      let ⟨rest, status⟩ ← enumList es (i + 1) (k + 1) (stack (k + 1)) false
      .ok ⟨report :: rest, status⟩

/--
All fragments before the end of the list have numbers for which there is room in the buffer.
-/
def FragmentsFit (es : List Direntry) : Prop :=
  ∀ e ∈ es.takeWhile (fun e => e.kind ≠ .free), e.kind = .fragment → e.fitsLfnBuf

/--
The entries have an end, or `last` is taken for one.
-/
def Ends (es : List Direntry) : Prop := (∃ e ∈ es, e.kind = .free) ∨ last = .endOfList

/--
The item is found again, and its name can be read.
-/
def Item.Fetched (item : Item) : Prop :=
  fetch item.index = .ok item.direntry ∧ (item.isLfn ∨ item.direntry.IsAscii)

theorem reportOf_eq_ok_iff (item : Item) (stack : LfnBuf)
    : reportOf (fetch item.index) (item.fragments.foldl LfnBuf.store stack) item.isLfn
        = .ok (item.report stack)
        ↔
      item.Fetched fetch := by
  unfold reportOf Item.report Item.Fetched
  cases hfetch : fetch item.index with
  | error fault => simp [bind, Except.bind]
  | ok e =>
    cases item.isLfn with
    | true =>
      simp only [bind, Except.bind, if_true, true_or, and_true, Except.ok.injEq, Prod.mk.injEq,
        DirectoryEntry.mk.injEq, true_and]
      constructor
      . intro h
        exact h.2
      . intro h
        exact ⟨by rw [h], h⟩
    | false =>
      simp only [bind, Except.bind, Bool.false_eq_true, if_false, false_or, Except.ok.injEq]
      cases hname : getSfnFilename e with
      | error fault =>
        simp only [reduceCtorEq, false_iff, not_and]
        intro h hascii
        have := (Direntry.getSfnFilename_eq_ok_iff e e.shortName).mpr ⟨h ▸ hascii, rfl⟩
        rw [hname] at this
        contradiction
      | ok name =>
        have hread := (Direntry.getSfnFilename_eq_ok_iff e name).mp hname
        simp only [Except.ok.injEq, Prod.mk.injEq, DirectoryEntry.mk.injEq]
        constructor
        . intro h
          exact ⟨h.2, h.2 ▸ hread.1⟩
        . intro ⟨h, _⟩
          subst h
          exact ⟨⟨hread.2, rfl⟩, rfl⟩

variable {fetch stack last}

theorem fragmentsFit_cons {e : Direntry} {es : List Direntry} (he : e.kind ≠ .free)
    : FragmentsFit (e :: es) ↔ (e.kind = .fragment → e.fitsLfnBuf) ∧ FragmentsFit es := by
  unfold FragmentsFit
  rw [List.takeWhile_cons_of_pos (by simpa using he), List.forall_mem_cons]

theorem ends_cons {e : Direntry} {es : List Direntry} (he : e.kind ≠ .free)
    : Ends last (e :: es) ↔ Ends last es := by
  unfold Ends
  simp [he]

theorem enumList_length {es : List Direntry} {i k : Nat} {buf : LfnBuf} {isLfn : Bool}
    {out : List (DirectoryEntry × Direntry)} {status : Status}
    (h : enumList fetch stack last es i k buf isLfn = .ok ⟨out, status⟩) (fragments : List Direntry)
    : out.length = (listing es i fragments isLfn).length := by
  induction es generalizing i k buf isLfn out fragments with
  | nil =>
    cases h
    rfl
  | cons e es ih =>
    rw [enumList] at h
    rw [listing]
    cases hkind : e.kind with
    | free =>
      rw [hkind] at h
      cases h
      rfl
    | deleted =>
      rw [hkind] at h
      exact ih h _
    | fragment =>
      rw [hkind] at h
      obtain ⟨buf', _, hrest⟩ := (bind_eq_ok _ _ _).mp h
      exact ih hrest _
    | label =>
      rw [hkind] at h
      exact ih h _
    | live =>
      rw [hkind] at h
      obtain ⟨report, _, h⟩ := (bind_eq_ok _ _ _).mp h
      obtain ⟨⟨rest, status'⟩, hrest, h⟩ := (bind_eq_ok _ _ _).mp h
      cases h
      dsimp only
      rw [List.length_cons, List.length_cons, ih hrest []]

theorem enumList_eq_ok_iff (es : List Direntry) (i k : Nat) (fragments : List Direntry) (isLfn : Bool)
    : enumList fetch stack last es i k (fragments.foldl LfnBuf.store (stack k)) isLfn
        = .ok ⟨reports stack k (listing es i fragments isLfn), .endOfList⟩
        ↔
      (∀ item ∈ listing es i fragments isLfn, item.Fetched fetch) ∧ FragmentsFit es
        ∧ Ends last es := by
  induction es generalizing i k fragments isLfn with
  | nil =>
    unfold enumList listing reports FragmentsFit Ends
    simp
  | cons e es ih =>
    rw [enumList, listing]
    cases hkind : e.kind with
    | free =>
      unfold reports FragmentsFit Ends
      simp [hkind]
    | deleted =>
      have hfree : e.kind ≠ .free := by simp [hkind]
      rw [fragmentsFit_cons hfree, ends_cons hfree]
      simp only [hkind, reduceCtorEq, false_implies, true_and]
      exact ih _ _ _ _
    | label =>
      have hfree : e.kind ≠ .free := by simp [hkind]
      rw [fragmentsFit_cons hfree, ends_cons hfree]
      simp only [hkind, reduceCtorEq, false_implies, true_and]
      exact ih _ _ _ _
    | fragment =>
      have hfree : e.kind ≠ .free := by simp [hkind]
      rw [fragmentsFit_cons hfree, ends_cons hfree]
      simp only [hkind, forall_const]
      unfold getLfnFilename
      by_cases hfits : e.fitsLfnBuf = true
      . rw [if_pos hfits]
        have := ih (i + 1) k (fragments ++ [e]) true
        rw [List.foldl_append] at this
        simp only [hfits, true_and]
        exact this
      . rw [if_neg hfits]
        exact ⟨fun h => by contradiction, fun h => absurd h.2.1.1 hfits⟩
    | live =>
      have hfree : e.kind ≠ .free := by simp [hkind]
      have hreport := reportOf_eq_ok_iff fetch ⟨i, fragments, isLfn, e⟩ (stack k)
      have hrest := ih (i + 1) (k + 1) [] false
      rw [fragmentsFit_cons hfree, ends_cons hfree, List.forall_mem_cons, and_assoc]
      simp only [hkind, reduceCtorEq, false_implies, true_and]
      rw [← hreport, ← hrest, bind_eq_ok, reports]
      constructor
      . intro ⟨report, hfirst, h⟩
        obtain ⟨⟨rest, status⟩, hrest, h⟩ := (bind_eq_ok _ _ _).mp h
        cases h
        exact ⟨hfirst, hrest⟩
      . intro ⟨hfirst, hrest⟩
        refine ⟨_, hfirst, ?_⟩
        rw [bind_eq_ok]
        exact ⟨_, hrest, rfl⟩

end Enumeration

end Emos.Boot
