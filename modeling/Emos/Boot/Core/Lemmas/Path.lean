import Emos.Boot.Core.Impl.Path

/-!
This module contains that the components of a path are found without a loss, except for a colon in front of it.
-/

open Lib

namespace Emos.Boot.Core

/--
What the calls of `path_iter_next` report one after the other, until one of them returns that nothing is left.
-/
def pathIterAll : Nat → PathIterator → Run (List (Bool × List (BitVec 8)))
  | 0, _ => .error .hang
  | n + 1, it =>
    match pathIterNext it with
    | (true, it) => .ok [(it.hasSeparator, it.element)]
    | (false, it) => do
      let reports ← pathIterAll n it
      .ok ((it.hasSeparator, it.element) :: reports)

/--
The text in front of the first colon.
-/
def filesystemOf (path : List (BitVec 8)) : List (BitVec 8) :=
  if path.contains colon then path.takeWhile (· ≠ colon) else []

def behindFilesystem (path : List (BitVec 8)) : List (BitVec 8) :=
  if path.contains colon then (path.dropWhile (· ≠ colon)).tail else path

/--
A slash in front does not have an empty component before it.
-/
def components (text : List (BitVec 8)) : List (List (BitVec 8)) := (skipSeparator text).splitOn slash

/--
Elements are put behind each other with the separators that were reported.
-/
def join (reports : List (Bool × List (BitVec 8))) : List (BitVec 8) :=
  (reports.map fun (hasSeparator, element) => (if hasSeparator then [slash] else []) ++ element).flatten

def rejoin (filesystem : List (BitVec 8)) (reports : List (Bool × List (BitVec 8))) : List (BitVec 8) :=
  (if filesystem = [] then [] else filesystem ++ [colon]) ++ join reports

variable {text rest path : List (BitVec 8)} {c : BitVec 8} {it : PathIterator} {n : Nat}

theorem idxOf?_append_cons (h : c ∉ text) : (text ++ c :: rest).idxOf? c = some text.length := by
  rw [List.idxOf?_eq_some_iff]
  have hlt : text.length < (text ++ c :: rest).length := by
    rw [List.length_append, List.length_cons]
    omega
  refine ⟨hlt, ?_, ?_⟩
  . rw [List.getElem_append_right (Nat.le_refl _)]
    simp
  . intro j hj heq
    rw [List.getElem_append_left hj] at heq
    exact h (heq ▸ List.getElem_mem hj)

theorem elementOf_append (h : text.length < filenameMax) : elementOf (text ++ rest) text.length = text := by
  unfold elementOf
  rw [if_neg (by omega)]
  exact List.take_left

theorem pathIterNext_last (hslash : slash ∉ skipSeparator it.cursor)
    (hshort : (skipSeparator it.cursor).length < filenameMax)
    : pathIterNext it = (true, ⟨it.path, [], skipSeparator it.cursor, it.cursor.head? = some slash⟩) := by
  unfold pathIterNext
  generalize skipSeparator it.cursor = p at hslash hshort
  have hlen : elementLen p = p.length := by
    unfold elementLen
    rw [List.idxOf?_eq_none_iff.mpr hslash]
  have helement : elementOf (p ++ []) p.length = p := elementOf_append hshort
  rw [List.append_nil] at helement
  dsimp only
  split
  . next hnil => rw [hnil]
  . rw [hlen, helement, List.drop_length, decide_eq_true rfl]

theorem pathIterNext_slash (heq : skipSeparator it.cursor = text ++ slash :: rest) (hslash : slash ∉ text)
    (hshort : text.length < filenameMax)
    : pathIterNext it = (false, ⟨it.path, slash :: rest, text, it.cursor.head? = some slash⟩) := by
  unfold pathIterNext
  rw [heq]
  have hlen : elementLen (text ++ slash :: rest) = text.length := by
    unfold elementLen
    rw [idxOf?_append_cons hslash]
  dsimp only
  rw [if_neg (by simp), hlen, elementOf_append hshort, List.drop_left]
  rfl

/--
The first of the components has the separator that is in front of the text, and all others have one.
-/
def reportsOf (hasSeparator : Bool) : List (List (BitVec 8)) → List (Bool × List (BitVec 8))
  | [] => []
  | element :: elements => (hasSeparator, element) :: reportsOf true elements

theorem map_snd_reportsOf {hasSeparator : Bool} {elements : List (List (BitVec 8))}
    : (reportsOf hasSeparator elements).map Prod.snd = elements := by
  induction elements generalizing hasSeparator with
  | nil => rfl
  | cons element elements ih => rw [reportsOf, List.map_cons, ih]

/--
A slash in front of the text is skipped, and there is a character in front of the next slash otherwise.
-/
theorem length_lt_of_skipSeparator {l : List (BitVec 8)} (heq : skipSeparator l = text ++ slash :: rest)
    : (slash :: rest).length < l.length := by
  have hlength := congrArg List.length heq
  rw [List.length_append, List.length_cons] at hlength
  rw [List.length_cons]
  unfold skipSeparator at heq hlength
  split at heq
  . next hslash =>
    rw [if_pos hslash, List.length_tail] at hlength
    cases l with
    | nil => contradiction
    | cons c l =>
      rw [List.length_cons, Nat.add_sub_cancel] at hlength
      rw [List.length_cons]
      omega
  . next hslash =>
    rw [if_neg hslash] at hlength
    cases text with
    | nil =>
      rw [heq] at hslash
      exact absurd rfl hslash
    | cons c text =>
      rw [List.length_cons] at hlength
      omega

/--
The iterator goes on at a slash behind every component but the last.
-/
theorem pathIterAll_eq (hlen : it.cursor.length < n) (hshort : ∀ e ∈ components it.cursor, e.length < filenameMax)
    : pathIterAll n it = .ok (reportsOf (it.cursor.head? = some slash) (components it.cursor)) := by
  induction n generalizing it with
  | zero => contradiction
  | succ n ih =>
    unfold pathIterAll components
    unfold components at hshort
    by_cases hslash : slash ∈ skipSeparator it.cursor
    . obtain ⟨text, rest, heq, hnot⟩ := List.eq_append_cons_of_mem hslash
      rw [heq, List.splitOn_append_cons_self_of_not_mem hnot] at hshort
      rw [pathIterNext_slash heq hnot (hshort text List.mem_cons_self)]
      rw [heq, List.splitOn_append_cons_self_of_not_mem hnot]
      dsimp only
      have hskip : skipSeparator (slash :: rest) = rest := if_pos rfl
      rw [ih]
      . unfold components
        dsimp only
        rw [hskip]
        rfl
      . have hlt := length_lt_of_skipSeparator heq
        dsimp only
        omega
      . intro e he
        unfold components at he
        dsimp only at he
        rw [hskip] at he
        exact hshort e (List.mem_cons_of_mem text he)
    . rw [List.splitOn_eq_singleton hslash] at hshort ⊢
      rw [pathIterNext_last hslash (hshort _ List.mem_cons_self)]
      rfl

theorem join_reportsOf_true {elements : List (List (BitVec 8))} (hne : elements ≠ [])
    : join (reportsOf true elements) = slash :: [slash].intercalate elements := by
  induction elements with
  | nil => contradiction
  | cons element elements ih =>
    unfold join reportsOf
    rw [List.map_cons, List.flatten_cons]
    change [slash] ++ element ++ join (reportsOf true elements) = _
    cases elements with
    | nil => simp [reportsOf, join]
    | cons next elements =>
      rw [ih (List.cons_ne_nil next elements), List.intercalate_cons_cons]
      simp

/--
A text is made of its components and the separators in front of them.
-/
theorem join_components : join (reportsOf (text.head? = some slash) (components text)) = text := by
  unfold components
  have hne := List.splitOn_ne_nil slash (skipSeparator text)
  have hjoin : [slash].intercalate ((skipSeparator text).splitOn slash) = skipSeparator text :=
    List.intercalate_splitOn slash
  by_cases hslash : text.head? = some slash
  . rw [decide_eq_true hslash, join_reportsOf_true hne, hjoin]
    unfold skipSeparator
    rw [if_pos hslash]
    exact List.cons_head?_tail hslash
  . rw [decide_eq_false hslash]
    obtain ⟨element, elements, heq⟩ := List.exists_cons_of_ne_nil hne
    have htrue := join_reportsOf_true hne
    rw [heq] at htrue hjoin ⊢
    rw [hjoin] at htrue
    have hskip : skipSeparator text = text := if_neg hslash
    rw [hskip] at htrue
    exact List.cons.inj htrue |>.2

theorem ne_colon (h : colon ∉ text) : ∀ c ∈ text, decide (c ≠ colon) = true := by
  intro c hc
  rw [decide_eq_true_eq]
  intro heq
  exact h (heq ▸ hc)

theorem takeWhile_colon (h : colon ∉ text) : (text ++ colon :: rest).takeWhile (· ≠ colon) = text := by
  rw [List.takeWhile_append_of_pos (ne_colon h), List.takeWhile_cons_of_neg (by simp), List.append_nil]

theorem dropWhile_colon (h : colon ∉ text) : (text ++ colon :: rest).dropWhile (· ≠ colon) = colon :: rest := by
  rw [List.dropWhile_append_of_pos (ne_colon h), List.dropWhile_cons_of_neg (by simp)]

theorem pathIterInit_eq (hshort : (filesystemOf path).length < filenameMax)
    : (pathIterInit path).element = filesystemOf path ∧ (pathIterInit path).cursor = behindFilesystem path := by
  unfold pathIterInit filesystemOf behindFilesystem
  unfold filesystemOf at hshort
  by_cases hcolon : path.contains colon
  . obtain ⟨text, rest, heq, hnot⟩ := List.eq_append_cons_of_mem (List.contains_iff_mem.mp hcolon)
    rw [if_pos hcolon] at hshort ⊢
    rw [if_pos hcolon]
    rw [heq, takeWhile_colon hnot] at hshort
    rw [heq, takeWhile_colon hnot, dropWhile_colon hnot, idxOf?_append_cons hnot]
    refine ⟨elementOf_append hshort, ?_⟩
    exact List.drop_length_add_append 1
  . rw [List.idxOf?_eq_none_iff.mpr (mt List.contains_iff_mem.mpr hcolon), if_neg hcolon, if_neg hcolon]
    exact ⟨rfl, rfl⟩

/--
An empty text in front of a colon is reported like no colon at all.
-/
theorem filesystem_append (hcolon : path.head? ≠ some colon)
    : (if filesystemOf path = [] then [] else filesystemOf path ++ [colon]) ++ behindFilesystem path = path := by
  unfold filesystemOf behindFilesystem
  by_cases hmem : path.contains colon
  . rw [if_pos hmem, if_pos hmem]
    obtain ⟨text, rest, heq, hnot⟩ := List.eq_append_cons_of_mem (List.contains_iff_mem.mp hmem)
    rw [heq, takeWhile_colon hnot, dropWhile_colon hnot]
    cases text with
    | nil =>
      rw [heq] at hcolon
      exact absurd rfl hcolon
    | cons c text =>
      rw [if_neg (List.cons_ne_nil c text), List.append_assoc]
      rfl
  . rw [if_neg hmem, if_neg hmem, if_pos rfl]
    rfl

/--
A path that does not start with a colon is iterated over without a loss.
-/
theorem path_iter_lossless (path : CString) (hcolon : path.bytes.head? ≠ some colon)
    (hshort : ∀ e ∈ filesystemOf path.bytes :: components (behindFilesystem path.bytes), e.length < filenameMax)
    : let it := pathIterInit path.bytes
      it.element = filesystemOf path.bytes
        ∧ ∃ reports,
          pathIterAll (path.strlen + 1) it = .ok reports
            ∧ reports.map Prod.snd = components (behindFilesystem path.bytes)
            ∧ rejoin it.element reports = path.bytes := by
  intro it
  obtain ⟨helement, hcursor⟩ := pathIterInit_eq (hshort _ List.mem_cons_self)
  have hreports : pathIterAll (path.strlen + 1) it
      = .ok (reportsOf (it.cursor.head? = some slash) (components it.cursor)) := by
    apply pathIterAll_eq
    . have hlength := congrArg List.length (filesystem_append hcolon)
      rw [List.length_append] at hlength
      rw [hcursor]
      unfold CString.strlen
      omega
    . intro e he
      rw [hcursor] at he
      exact hshort e (List.mem_cons_of_mem _ he)
  refine ⟨helement, _, hreports, ?_, ?_⟩
  . rw [map_snd_reportsOf, hcursor]
  . unfold rejoin
    rw [join_components, hcursor, helement]
    exact filesystem_append hcolon

theorem path_iter_lossless_drive
    : let path : CString := ⟨[0x66, 0x64, 0x3A, 0x2F, 0x61, 0x2F, 0x2F, 0x62, 0x2F], by decide⟩
      let it := pathIterInit path.bytes
      it.element = filesystemOf path.bytes
        ∧ ∃ reports,
          pathIterAll (path.strlen + 1) it = .ok reports
            ∧ reports.map Prod.snd = components (behindFilesystem path.bytes)
            ∧ rejoin it.element reports = path.bytes :=
  path_iter_lossless ⟨[0x66, 0x64, 0x3A, 0x2F, 0x61, 0x2F, 0x2F, 0x62, 0x2F], by decide⟩ (by decide) (by decide)

/--
Nothing that is reported tells a path that starts with a colon from the one without it. A name in front of a colon
that is too long is cut off.
-/
theorem path_iter_loss
    : (¬ ∃ rejoin : List (BitVec 8) → List (Bool × List (BitVec 8)) → List (BitVec 8), ∀ path : CString,
        (∀ e ∈ components (behindFilesystem path.bytes), e.length < filenameMax) →
          ∃ reports,
            pathIterAll (path.strlen + 1) (pathIterInit path.bytes) = .ok reports
              ∧ rejoin (pathIterInit path.bytes).element reports = path.bytes)
        ∧ ∃ path : CString,
          (∀ e ∈ components (behindFilesystem path.bytes), e.length < filenameMax)
            ∧ (pathIterInit path.bytes).element ≠ filesystemOf path.bytes := by
  constructor
  . intro ⟨rejoin, h⟩
    obtain ⟨reports, hall, hpath⟩ := h ⟨[0x61], by decide⟩ (by decide)
    obtain ⟨reports', hall', hpath'⟩ := h ⟨[0x3A, 0x61], by decide⟩ (by decide)
    have hreports : reports = [(false, [0x61])] := (Except.ok.inj hall).symm
    have hreports' : reports' = [(false, [0x61])] := (Except.ok.inj hall').symm
    rw [hreports] at hpath
    rw [hreports'] at hpath'
    have heq := hpath.symm.trans hpath'
    contradiction
  . exact ⟨⟨List.replicate 256 0x61 ++ [0x3A], by decide +kernel⟩, by decide +kernel, by decide +kernel⟩

end Emos.Boot.Core
