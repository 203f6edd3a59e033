import Emos.Boot.Getopt.Lemmas.Getopt

/-!
This module contains that a command finds the options that have been written as its arguments, in whichever of the
allowed ways.
-/

open Lib

namespace Emos.Boot.Getopt

/--
How options can be written: `cs` are options without an argument in front of another one in the same word.
-/
inductive Written where
  | flags (cs : List (BitVec 8))
  | attached (cs : List (BitVec 8)) (c : BitVec 8) (value : List (BitVec 8))
  | separate (cs : List (BitVec 8)) (c : BitVec 8) (value : List (BitVec 8))
  | bare (cs : List (BitVec 8)) (c : BitVec 8)
  | long (name : List (BitVec 8)) (i : Nat) (o : LongOption)
  | longAttached (name : List (BitVec 8)) (i : Nat) (o : LongOption) (value : List (BitVec 8))
  | longSeparate (name : List (BitVec 8)) (i : Nat) (o : LongOption) (value : List (BitVec 8))

namespace Written

def words : Written → List (List (BitVec 8))
  | flags cs => [dash :: cs]
  | attached cs c value => [dash :: (cs ++ c :: value)]
  | separate cs c value => [dash :: (cs ++ [c]), value]
  | bare cs c => [dash :: (cs ++ [c])]
  | long name _ _ => [dash :: dash :: name]
  | longAttached name _ _ value => [dash :: dash :: (name ++ equals :: value)]
  | longSeparate name _ _ value => [dash :: dash :: name, value]

def short (c : BitVec 8) (value : Option (List (BitVec 8))) : Found := ⟨⟨c.toInt, c.toInt, value⟩, none⟩

def named (i : Nat) (o : LongOption) (value : Option (List (BitVec 8))) : Found := ⟨⟨o.ret, 0, value⟩, some (i, o)⟩

def meaning : Written → List Found
  | flags cs => cs.map (short · none)
  | attached cs c value => cs.map (short · none) ++ [short c (some value)]
  | separate cs c value => cs.map (short · none) ++ [short c (some value)]
  | bare cs c => cs.map (short · none) ++ [short c none]
  | long _ i o => [named i o none]
  | longAttached _ i o value => [named i o (some value)]
  | longSeparate _ i o value => [named i o (some value)]

end Written

/--
The name stands for option number `i`: it is its name, and not that of one in front of it, or the beginning of its name
and of no other.
-/
structure Denotes (longopts : List LongOption) (name : List (BitVec 8)) (i : Nat) (o : LongOption) : Prop where
  option : longopts[i]? = some o
  nonempty : name ≠ []
  noEquals : equals ∉ name
  unique : (o.name.bytes = name ∧ ∀ j < i, ∀ a, longopts[j]? = some a → a.name.bytes ≠ name)
    ∨ name <+: o.name.bytes ∧ ∀ j, j ≠ i → ∀ a, longopts[j]? = some a → ¬ name <+: a.name.bytes

section Words

variable (optstring : List (BitVec 8)) (longopts : List LongOption)

/--
Options that have no argument.
-/
def Flags (cs : List (BitVec 8)) : Prop := ∀ c ∈ cs, optdecl optstring c = some .no

def Written.Valid : Written → Prop
  | flags cs => cs ≠ [] ∧ cs.head? ≠ some dash ∧ Flags optstring cs
  | attached cs c value =>
    (cs ++ [c]).head? ≠ some dash ∧ Flags optstring cs ∧ value ≠ []
      ∧ (optdecl optstring c = some .required ∨ optdecl optstring c = some .optional)
  | separate cs c _ => (cs ++ [c]).head? ≠ some dash ∧ Flags optstring cs ∧ optdecl optstring c = some .required
  | bare cs c => (cs ++ [c]).head? ≠ some dash ∧ Flags optstring cs ∧ optdecl optstring c = some .optional
  | long name i o => Denotes longopts name i o ∧ o.hasArg ≠ .required
  | longAttached name i o _ => Denotes longopts name i o ∧ o.hasArg ≠ .no
  | longSeparate name i o _ => Denotes longopts name i o ∧ o.hasArg = .required

end Words

variable {optstring : List (BitVec 8)} {longopts : List LongOption} {cs value name text : List (BitVec 8)}
  {c : BitVec 8} {i : Nat} {o : LongOption} {rest : List (List (BitVec 8))}

theorem readCluster_flags (h : Flags optstring cs) (text : List (BitVec 8))
    : readCluster optstring (cs ++ text)
        = (readCluster optstring text).map (cs.map (Written.short · none) ++ ·) id := by
  induction cs with
  | nil => rfl
  | cons c cs ih =>
    have hc := h c List.mem_cons_self
    rw [List.cons_append, readCluster, hc]
    dsimp only
    rw [ih fun d hd => h d (List.mem_cons_of_mem c hd)]
    rfl

theorem readWord_cluster (hne : text ≠ []) (hdash : text.head? ≠ some dash)
    : readWord optstring longopts (dash :: text) = some (readCluster optstring text) := by
  have hlong : [dash, dash].isPrefixOf (dash :: text) = false := by
    cases text with
    | nil => rfl
    | cons d text =>
      have hd : dash ≠ d := fun heq => hdash (by rw [heq]; rfl)
      simp [List.isPrefixOf, hd]
  unfold readWord
  rw [hlong, if_neg Bool.false_ne_true, if_pos ⟨rfl, fun heq => hne (List.cons.inj heq).2⟩]
  rfl

theorem readWord_long : readWord optstring longopts (dash :: dash :: text) = some (readLong longopts text) := by
  have hlong : [dash, dash].isPrefixOf (dash :: dash :: text) = true := by
    rw [List.isPrefixOf_iff_prefix]
    exact List.prefix_append [dash, dash] text
  unfold readWord
  rw [if_pos hlong]
  rfl

theorem longName_eq (h : equals ∉ name) (rest : List (BitVec 8))
    : longName name = name ∧ longName (name ++ equals :: rest) = name ∧ longValue name = none
        ∧ longValue (name ++ equals :: rest) = some rest := by
  have hne : ∀ c ∈ name, decide (c ≠ equals) = true := fun c hc => decide_eq_true fun heq => h (heq ▸ hc)
  have hdrop : name.dropWhile (· ≠ equals) = [] := List.dropWhile_eq_nil_iff.mpr hne
  unfold longName longValue
  refine ⟨List.takeWhile_eq_self_iff.mpr hne, ?_, ?_, ?_⟩
  . rw [List.takeWhile_append_of_pos hne, List.takeWhile_cons_of_neg (by decide), List.append_nil]
  . rw [hdrop]
  . rw [List.dropWhile_append_of_pos hne, List.dropWhile_cons_of_neg (by decide)]

theorem getElem?_numbered (longopts : List LongOption) (k j : Nat)
    : (numbered longopts k)[j]? = longopts[j]?.map (k + j, ·) := by
  induction longopts generalizing k j with
  | nil => rfl
  | cons a longopts ih =>
    cases j with
    | zero => rfl
    | succ j =>
      rw [numbered, List.getElem?_cons_succ, List.getElem?_cons_succ, ih, Nat.add_right_comm, Nat.add_assoc]

/--
What is left of a list if only the element at one place is kept.
-/
theorem filter_of_unique {α : Type} {p : α → Bool} {l : List α} {x : α} (hx : l[i]? = some x) (hp : p x = true)
    (hother : ∀ j, j ≠ i → ∀ y, l[j]? = some y → p y = false)
    : l.filter p = [x] := by
  induction l generalizing i with
  | nil => contradiction
  | cons a l ih =>
    cases i with
    | zero =>
      obtain rfl : a = x := Option.some.inj hx
      have hnil : l.filter p = [] := by
        rw [List.filter_eq_nil_iff]
        intro y hy
        obtain ⟨j, hj⟩ := List.getElem?_of_mem hy
        rw [hother (j + 1) (Nat.succ_ne_zero j) y hj]
        exact Bool.false_ne_true
      rw [List.filter_cons_of_pos hp, hnil]
    | succ i =>
      have ha : p a = false := hother 0 (Nat.succ_ne_zero i).symm a rfl
      rw [List.filter_cons_of_neg (by simp [ha])]
      exact ih hx fun j hj y hy => hother (j + 1) (fun heq => hj (Nat.succ.inj heq)) y hy

theorem find?_of_first {α : Type} {p : α → Bool} {l : List α} {x : α} (hx : l[i]? = some x) (hp : p x = true)
    (hother : ∀ j < i, ∀ y, l[j]? = some y → p y = false)
    : l.find? p = some x := by
  induction l generalizing i with
  | nil => contradiction
  | cons a l ih =>
    cases i with
    | zero =>
      obtain rfl : a = x := Option.some.inj hx
      exact List.find?_cons_of_pos hp
    | succ i =>
      have ha : p a = false := hother 0 (Nat.succ_pos i) a rfl
      rw [List.find?_cons_of_neg (by simp [ha])]
      exact ih hx fun j hj y hy => hother (j + 1) (Nat.succ_lt_succ hj) y hy

theorem Denotes.lookupLong (h : Denotes longopts name i o) (htext : longName text = name)
    : lookupLong longopts text = some (i, o) := by
  have hexact : ∀ a : LongOption, isExact text a = true ↔ a.name.bytes = name := by
    intro a
    rw [isExact_iff, htext]
    exact and_iff_left h.nonempty
  have hshort : ∀ a : LongOption, isAbbreviated text a = true ↔ name <+: a.name.bytes := by
    intro a
    unfold isAbbreviated
    rw [htext, if_neg h.nonempty, decide_eq_true_iff]
  have hat : (numbered longopts 0)[i]? = some (i, o) := by
    rw [getElem?_numbered, h.option, Option.map_some, Nat.zero_add]
  -- an element of the numbered list is an option with its number
  have hoption : ∀ (j : Nat) (x : Nat × LongOption), (numbered longopts 0)[j]? = some x → longopts[j]? = some x.2 := by
    intro j x hx
    rw [getElem?_numbered] at hx
    obtain ⟨a, ha, rfl⟩ := Option.map_eq_some_iff.mp hx
    exact ha
  unfold Getopt.lookupLong
  obtain ⟨hname, hfirst⟩ | ⟨hleading, hunique⟩ := h.unique
  . rw [find?_of_first hat ((hexact o).mpr hname)]
    intro j hj x hx
    rw [← Bool.not_eq_true, hexact]
    exact hfirst j hj x.2 (hoption j x hx)
  . have hfilter := filter_of_unique (p := fun x : Nat × LongOption => isAbbreviated text x.2) hat
      ((hshort o).mpr hleading) (by
        intro j hj x hx
        rw [← Bool.not_eq_true, hshort]
        exact hunique j hj x.2 (hoption j x hx))
    cases hfind : (numbered longopts 0).find? fun x => isExact text x.2 with
    | none => rw [hfilter]
    | some x =>
      obtain ⟨j, hj⟩ := List.getElem?_of_mem (List.mem_of_find?_eq_some hfind)
      have hname := (hexact x.2).mp (List.find?_some (p := fun x : Nat × LongOption => isExact text x.2) hfind)
      have hji : j = i := by
        by_contra hne
        exact hunique j hne x.2 (hoption j x hj) (hname ▸ List.prefix_refl _)
      rw [hji, hat] at hj
      exact hj.symm

theorem readLong_long (h : Denotes longopts name i o) (hkind : o.hasArg ≠ .required)
    : readLong longopts name = ([Written.named i o none], none) := by
  obtain ⟨hname, _, hvalue, _⟩ := longName_eq h.noEquals []
  unfold readLong
  rw [h.lookupLong hname, hvalue]
  dsimp only
  cases hk : o.hasArg with
  | no => rfl
  | optional => rfl
  | required => exact absurd hk hkind

theorem readLong_attached (h : Denotes longopts name i o) (hkind : o.hasArg ≠ .no) (value : List (BitVec 8))
    : readLong longopts (name ++ equals :: value) = ([Written.named i o (some value)], none) := by
  obtain ⟨_, hname, _, hvalue⟩ := longName_eq h.noEquals value
  unfold readLong
  rw [h.lookupLong hname, hvalue]
  dsimp only
  cases hk : o.hasArg with
  | no => exact absurd hk hkind
  | optional => rfl
  | required => rfl

theorem readLong_separate (h : Denotes longopts name i o) (hkind : o.hasArg = .required)
    : readLong longopts name = ([], some ⟨Written.named i o none, colon.toInt⟩) := by
  obtain ⟨hname, _, hvalue, _⟩ := longName_eq h.noEquals []
  unfold readLong
  rw [h.lookupLong hname, hvalue]
  dsimp only
  rw [hkind]
  rfl

/--
What is read from the words of an option in front of others.
-/
theorem Written.Valid.readWords {w : Written} (h : w.Valid optstring longopts) (rest : List (List (BitVec 8)))
    : readWords optstring longopts (w.words ++ rest)
        = (w.meaning ++ (readWords optstring longopts rest).1, (readWords optstring longopts rest).2) := by
  have hdashes : ∀ {text : List (BitVec 8)}, text.head? ≠ some dash → dash :: text ≠ [dash, dash] := by
    intro text htext heq
    rw [(List.cons.inj heq).2] at htext
    exact htext rfl
  cases w with
  | flags cs =>
    obtain ⟨hne, hdash, hflags⟩ := h
    have hread := readCluster_flags hflags []
    rw [List.append_nil] at hread
    rw [words, List.singleton_append, readWords_cons (hdashes hdash) (readWord_cluster hne hdash), hread]
    change (cs.map (short · none) ++ [] ++ _, _) = _
    rw [List.append_nil]
    rfl
  | attached cs c value =>
    obtain ⟨hdash, hflags, hvalue, hkind⟩ := h
    have hhead : (cs ++ c :: value).head? ≠ some dash := by
      rwa [← List.singleton_append, ← List.append_assoc, List.head?_append_of_ne_nil _ (by simp)]
    have hlast : readCluster optstring (c :: value) = ([short c (some value)], none) := by
      unfold readCluster
      obtain hkind | hkind := hkind
      . rw [hkind]
        exact if_neg hvalue
      . rw [hkind]
        dsimp only
        rw [if_neg hvalue]
        rfl
    rw [words, List.singleton_append, readWords_cons (hdashes hhead) (readWord_cluster (by simp) hhead),
      readCluster_flags hflags, hlast]
    rfl
  | separate cs c value =>
    obtain ⟨hdash, hflags, hkind⟩ := h
    have hlast : readCluster optstring [c] = ([], some ⟨short c none, missing optstring⟩) := by
      unfold readCluster
      rw [hkind]
      rfl
    rw [words, List.cons_append, List.singleton_append,
      readWords_cons (hdashes hdash) (readWord_cluster (by simp) hdash), readCluster_flags hflags, hlast]
    change (cs.map (short · none) ++ [] ++ short c (some value) :: _, _) = _
    rw [List.append_nil, meaning, List.append_assoc]
    rfl
  | bare cs c =>
    obtain ⟨hdash, hflags, hkind⟩ := h
    have hlast : readCluster optstring [c] = ([short c none], none) := by
      unfold readCluster
      rw [hkind]
      rfl
    rw [words, List.singleton_append, readWords_cons (hdashes hdash) (readWord_cluster (by simp) hdash),
      readCluster_flags hflags, hlast]
    rfl
  | long name i o =>
    have hne : dash :: dash :: name ≠ [dash, dash] := fun heq => h.1.nonempty (List.cons.inj (List.cons.inj heq).2).2
    rw [words, List.singleton_append, readWords_cons hne readWord_long, readLong_long h.1 h.2]
    rfl
  | longAttached name i o value =>
    have hne : dash :: dash :: (name ++ equals :: value) ≠ [dash, dash] := by
      intro heq
      exact List.append_ne_nil_of_right_ne_nil name (List.cons_ne_nil _ _) (List.cons.inj (List.cons.inj heq).2).2
    rw [words, List.singleton_append, readWords_cons hne readWord_long, readLong_attached h.1 h.2]
    rfl
  | longSeparate name i o value =>
    have hne : dash :: dash :: name ≠ [dash, dash] := fun heq => h.1.nonempty (List.cons.inj (List.cons.inj heq).2).2
    rw [words, List.cons_append, List.singleton_append, readWords_cons hne readWord_long, readLong_separate h.1 h.2]
    rfl

/--
The operands of a command behind its options. The dashes may be left out if the first one cannot be taken for an option.
-/
def Operands (operands rest : List (List (BitVec 8))) : Prop :=
  rest = [dash, dash] :: operands ∨ rest = operands ∧ ∀ word ∈ operands.head?, word.head? ≠ some dash ∨ word = [dash]

theorem readWord_operand {word : List (BitVec 8)} (h : word.head? ≠ some dash ∨ word = [dash])
    : word ≠ [dash, dash] ∧ readWord optstring longopts word = none := by
  have hlong : ¬ [dash, dash] <+: word := by
    intro hpre
    obtain ⟨tail, rfl⟩ := hpre
    obtain hhead | heq := h
    . exact hhead rfl
    . simp at heq
  constructor
  . intro heq
    exact hlong (heq ▸ List.prefix_refl _)
  . unfold readWord
    rw [if_neg (fun hpre => hlong (List.isPrefixOf_iff_prefix.mp hpre)), if_neg]
    intro hshort
    obtain hhead | heq := h
    . exact hhead hshort.1
    . exact hshort.2 heq

theorem Operands.readWords {operands rest : List (List (BitVec 8))} (h : Operands operands rest)
    : readWords optstring longopts rest = ([], operands) := by
  obtain rfl | ⟨rfl, hfirst⟩ := h
  . rw [Getopt.readWords, if_pos rfl]
  . cases rest with
    | nil => rfl
    | cons word rest =>
      obtain ⟨hne, hread⟩ := @readWord_operand optstring longopts word (hfirst word rfl)
      rw [Getopt.readWords, if_neg hne, hread]

end Emos.Boot.Getopt
