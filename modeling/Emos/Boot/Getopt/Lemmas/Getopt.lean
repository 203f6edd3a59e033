import Emos.Boot.Getopt.Impl.Getopt
import Emos.Boot.Stdc.Lemmas.String
import Emos.Boot.Stdc.Lemmas.Strtok

/-!
This module contains which options a command finds in its arguments, and that it finds those that were written there.
-/

open Lib

namespace Emos.Boot

open Stdc (HoldsString)

namespace Getopt

/--
What a call of `getopt_long` returns and leaves in `optopt` and `optarg`.
-/
structure Report where
  ret : Int
  optopt : Int
  optarg : Option (List (BitVec 8))
  deriving DecidableEq, Repr

/--
A report, and the long option that has matched for it.
-/
structure Found where
  report : Report
  option : Option (Nat × LongOption)

/--
An option whose argument is the next word, and what is returned if there is none.
-/
structure Pending where
  found : Found
  missing : Int

def Pending.given (p : Pending) (word : List (BitVec 8)) : Found :=
  { p.found with report := { p.found.report with optarg := some word } }

def Pending.lost (p : Pending) : Found :=
  { p.found with report := { p.found.report with ret := p.missing } }

section Words

variable (optstring : List (BitVec 8)) (longopts : List LongOption)

/--
The options in a word behind the dash.
-/
def readCluster : List (BitVec 8) → List Found × Option Pending
  | [] => ([], none)
  | c :: cs =>
    match optdecl optstring c with
    | none => (readCluster cs).map (⟨⟨question.toInt, c.toInt, none⟩, none⟩ :: ·) id
    | some .no => (readCluster cs).map (⟨⟨c.toInt, c.toInt, none⟩, none⟩ :: ·) id
    | some .required =>
      if cs = [] then
        ([], some ⟨⟨⟨c.toInt, c.toInt, none⟩, none⟩, missing optstring⟩)
      else
        ([⟨⟨c.toInt, c.toInt, some cs⟩, none⟩], none)
    | some .optional => ([⟨⟨c.toInt, c.toInt, if cs = [] then none else some cs⟩, none⟩], none)

/--
What is in front of the first equals sign.
-/
def longName (text : List (BitVec 8)) : List (BitVec 8) := text.takeWhile (· ≠ equals)

/--
What is behind it.
-/
def longValue (text : List (BitVec 8)) : Option (List (BitVec 8)) :=
  match text.dropWhile (· ≠ equals) with
  | [] => none
  | _ :: value => some value

def isExact (text : List (BitVec 8)) (o : LongOption) : Bool := o.name.bytes = longName text ∧ longName text ≠ []

/--
Whether the name of an option begins like this. The comparison with an empty name is not limited to any number of
characters.
-/
def isAbbreviated (text : List (BitVec 8)) (o : LongOption) : Bool :=
  if longName text = [] then o.name.bytes = text else longName text <+: o.name.bytes

/--
The options with their numbers, of which `i` is the first.
-/
def numbered : List LongOption → Nat → List (Nat × LongOption)
  | [], _ => []
  | o :: longopts, i => (i, o) :: numbered longopts (i + 1)

/--
The option of this name, or the only one whose name begins with it.
-/
def lookupLong (text : List (BitVec 8)) : Option (Nat × LongOption) :=
  match (numbered longopts 0).find? fun o => isExact text o.2 with
  | some o => some o
  | none =>
    match (numbered longopts 0).filter fun o => isAbbreviated text o.2 with
    | [o] => some o
    | _ => none

/--
The option in a word behind two dashes.
-/
def readLong (text : List (BitVec 8)) : List Found × Option Pending :=
  match lookupLong longopts text with
  | none => ([⟨⟨question.toInt, 0, none⟩, none⟩], none)
  | some (i, o) =>
    match o.hasArg, longValue text with
    | .no, none => ([⟨⟨o.ret, 0, none⟩, some (i, o)⟩], none)
    | .no, some _ => ([⟨⟨question.toInt, 0, none⟩, some (i, o)⟩], none)
    | .required, none => ([], some ⟨⟨⟨o.ret, 0, none⟩, some (i, o)⟩, colon.toInt⟩)
    | .required, some value => ([⟨⟨o.ret, 0, some value⟩, some (i, o)⟩], none)
    | .optional, value => ([⟨⟨o.ret, 0, value⟩, some (i, o)⟩], none)

/--
The options in a word, if it is not an operand.
-/
def readWord (word : List (BitVec 8)) : Option (List Found × Option Pending) :=
  if [dash, dash].isPrefixOf word then
    some (readLong longopts (word.drop 2))
  else if word.head? = some dash ∧ word ≠ [dash] then
    some (readCluster optstring word.tail)
  else
    none

/--
All options, and the operands.
-/
def readWords : List (List (BitVec 8)) → List Found × List (List (BitVec 8))
  | [] => ([], [])
  | word :: words =>
    if word = [dash, dash] then
      ([], words)
    else
      match readWord optstring longopts word with
      | none => ([], word :: words)
      | some (founds, none) => (readWords words).map (founds ++ ·) id
      | some (founds, some p) =>
        match words with
        | [] => (founds ++ [p.lost], [])
        | value :: words => (readWords words).map (founds ++ p.given value :: ·) id

end Words

/--
What is read from a word on that has been read like this.
-/
def proceed (optstring : List (BitVec 8)) (longopts : List LongOption)
    : List Found × Option Pending → List (List (BitVec 8)) → List Found × List (List (BitVec 8))
  | (founds, none), words => (readWords optstring longopts words).map (founds ++ ·) id
  | (founds, some p), [] => (founds ++ [p.lost], [])
  | (founds, some p), value :: words => (readWords optstring longopts words).map (founds ++ p.given value :: ·) id

/--
The variables that a call stores to.
-/
def Found.apply (longindex : Option Nat) (vars : Nat → Int) (f : Found) : Nat → Int :=
  match f.option with
  | some (i, o) => store longindex i o vars
  | none => vars

/--
The calls that a command makes until -1 is returned.
-/
def callAll (m : Buffer (BitVec 8)) (argv : List Nat) (optstring : List (BitVec 8)) (longopts : List LongOption)
    (longindex : Option Nat)
    : Nat → Getopt → Run (List Report × Getopt)
  | 0, _ => .error .hang
  | n + 1, s => do
    let ⟨ret, s⟩ ← getoptLong m argv optstring longopts longindex s
    if ret = -1 then
      .ok ([], s)
    else do
      let ⟨reports, t⟩ ← callAll m argv optstring longopts longindex n s
      .ok (⟨ret, s.optopt, s.optarg.map (Stdc.stringAt m)⟩ :: reports, t)

end Getopt

section Strings

variable {m : Buffer (BitVec 8)} {p n : Nat} {c : BitVec 8} {text rest : List (BitVec 8)}

namespace Stdc

theorem HoldsString.get_nil (h : HoldsString m p []) : m.get Fault.access p = .ok 0 := by
  rw [Buffer.get_of_lt h.1, h.2]

theorem HoldsString.get_cons (h : HoldsString m p (c :: text)) : m.get Fault.access p = .ok c := by
  rw [Buffer.get_of_lt h.1.1, h.1.2]

theorem HoldsString.get_head (h : HoldsString m p text) (hzero : 0 ∉ text)
    : ∃ d, m.get Fault.access p = .ok d ∧ (d = 0 ↔ text = []) := by
  cases text with
  | nil => exact ⟨0, h.get_nil, by simp⟩
  | cons d text =>
    rw [List.mem_cons, not_or] at hzero
    refine ⟨d, h.get_cons, fun heq => absurd heq.symm hzero.1, ?_⟩
    intro heq
    contradiction

/--
A string is not longer than the memory that it is searched in.
-/
theorem HoldsString.fuel (h : HoldsString m p text) : text.length < m.size + 1 := by
  have := h.length_lt
  omega

theorem strlen_go (h : HoldsString m p text) (hzero : 0 ∉ text) (hn : text.length < n)
    : strlen.go m n p = .ok text.length := by
  induction text generalizing p n with
  | nil =>
    obtain ⟨n, rfl⟩ := Nat.exists_eq_succ_of_ne_zero (Nat.ne_zero_of_lt hn)
    rw [strlen.go, h.get_nil, ok_bind, if_pos rfl]
    rfl
  | cons c text ih =>
    obtain ⟨n, rfl⟩ := Nat.exists_eq_succ_of_ne_zero (Nat.ne_zero_of_lt hn)
    rw [List.mem_cons, not_or] at hzero
    rw [strlen.go, h.get_cons, ok_bind, if_neg (Ne.symm hzero.1), ih h.2 hzero.2 (Nat.lt_of_succ_lt_succ hn)]
    rfl

theorem strlen_eq (h : HoldsString m p text) (hzero : 0 ∉ text) : strlen m p = .ok text.length :=
  strlen_go h hzero h.fuel

theorem strcspn_go (h : HoldsString m p text) (hzero : 0 ∉ text) (hn : text.length < n)
    : strcspn.go m [c] n p = .ok (text.takeWhile (· ≠ c)).length := by
  induction text generalizing p n with
  | nil =>
    obtain ⟨n, rfl⟩ := Nat.exists_eq_succ_of_ne_zero (Nat.ne_zero_of_lt hn)
    rw [strcspn.go, h.get_nil, ok_bind, if_pos rfl]
    rfl
  | cons d text ih =>
    obtain ⟨n, rfl⟩ := Nat.exists_eq_succ_of_ne_zero (Nat.ne_zero_of_lt hn)
    rw [List.mem_cons, not_or] at hzero
    rw [strcspn.go, h.get_cons, ok_bind, if_neg (Ne.symm hzero.1)]
    by_cases hd : d = c
    . rw [if_pos (by simp [hd]), List.takeWhile_cons_of_neg (by simp [hd])]
      rfl
    . rw [if_neg (by simp [hd]), List.takeWhile_cons_of_pos (by simp [hd]),
        ih h.2 hzero.2 (Nat.lt_of_succ_lt_succ hn)]
      rfl

theorem strcspn_eq (h : HoldsString m p text) (hzero : 0 ∉ text)
    : strcspn m p [c] = .ok (text.takeWhile (· ≠ c)).length :=
  strcspn_go h hzero h.fuel

theorem strchr_go (h : HoldsString m p text) (hzero : 0 ∉ text) (hc : c ≠ 0) (hn : text.length < n)
    : strchr.go m c n p = .ok (if c ∈ text then some (p + (text.takeWhile (· ≠ c)).length) else none) := by
  induction text generalizing p n with
  | nil =>
    obtain ⟨n, rfl⟩ := Nat.exists_eq_succ_of_ne_zero (Nat.ne_zero_of_lt hn)
    rw [strchr.go, h.get_nil, ok_bind, if_neg (Ne.symm hc), if_pos rfl, if_neg List.not_mem_nil]
  | cons d text ih =>
    obtain ⟨n, rfl⟩ := Nat.exists_eq_succ_of_ne_zero (Nat.ne_zero_of_lt hn)
    rw [List.mem_cons, not_or] at hzero
    rw [strchr.go, h.get_cons, ok_bind]
    by_cases hd : d = c
    . rw [if_pos hd, if_pos (by simp [hd]), List.takeWhile_cons_of_neg (by simp [hd])]
      rfl
    . have hmem : c ∈ d :: text ↔ c ∈ text := by simp [Ne.symm hd]
      rw [if_neg hd, if_neg (Ne.symm hzero.1), ih h.2 hzero.2 (Nat.lt_of_succ_lt_succ hn),
        List.takeWhile_cons_of_pos (by simp [hd]), List.length_cons, if_congr hmem rfl rfl,
        Nat.add_right_comm, ← Nat.add_assoc]

theorem strchr_eq (h : HoldsString m p text) (hzero : 0 ∉ text) (hc : c ≠ 0)
    : strchr m p c = .ok (if c ∈ text then some (p + (text.takeWhile (· ≠ c)).length) else none) :=
  strchr_go h hzero hc h.fuel

/--
As many characters are compared as the limit tells, or all if it is 0.
-/
theorem strncmp_eq (h : HoldsString m p rest) (hzero : 0 ∉ rest) (hzero' : 0 ∉ text) (n : Nat)
    : ∃ d, strncmp text (m.get .access) p n = .ok d
        ∧ (d = 0 ↔ (text ++ [0]).take (comparedLength n) = (rest ++ [0]).take (comparedLength n)) := by
  induction text generalizing p rest n with
  | nil =>
    unfold strncmp comparedLength
    generalize sub32 n 1 = k
    have hd := char_sub_eq_zero_iff 0
    cases rest with
    | nil =>
      rw [h.get_nil, ok_bind]
      exact ⟨_, rfl, fun _ => rfl, fun _ => (hd 0).mpr rfl⟩
    | cons c rest =>
      rw [List.mem_cons, not_or] at hzero
      rw [h.get_cons, ok_bind]
      refine ⟨_, rfl, ?_⟩
      rw [List.nil_append, List.take_succ_cons, List.cons_append, List.take_succ_cons, List.cons.injEq]
      constructor
      . intro heq
        exact absurd ((hd c).mp heq).symm hzero.1
      . intro heq
        exact absurd heq.1 hzero.1
  | cons c text ih =>
    rw [List.mem_cons, not_or] at hzero'
    have hp : p < m.size := Nat.lt_of_le_of_lt (Nat.le_add_right ..) h.length_lt
    rw [strncmp_cons hp]
    have hfirst : (rest ++ [0]).head? = some (m.data p) := by
      cases rest with
      | nil => rw [h.2]; rfl
      | cons d rest => rw [h.1.2]; rfl
    split
    . next hgo =>
      obtain ⟨hlimit, rfl⟩ := hgo
      cases rest with
      | nil => exact absurd h.2.symm hzero'.1
      | cons d rest =>
        obtain rfl := h.1.2
        rw [List.mem_cons, not_or] at hzero
        obtain ⟨e, hrun, he⟩ := ih h.2 hzero.2 hzero'.2 (sub32 n 1)
        refine ⟨e, hrun, he.trans ?_⟩
        rw [comparedLength_sub32 hlimit, comparedLength]
        generalize sub32 n 1 = k
        rw [List.cons_append, List.cons_append, List.take_succ_cons, List.take_succ_cons, List.cons.injEq]
        exact ⟨fun heq => ⟨rfl, heq⟩, fun heq => heq.2⟩
    . next hstop =>
      refine ⟨_, rfl, ?_⟩
      unfold comparedLength
      generalize sub32 n 1 = k at hstop ⊢
      obtain ⟨tail, htail⟩ : ∃ tail, rest ++ [0] = m.data p :: tail := by
        cases hrest : rest ++ [0] with
        | nil => simp at hrest
        | cons d tail =>
          rw [hrest] at hfirst
          exact ⟨tail, by rw [Option.some.inj hfirst]⟩
      rw [char_sub_eq_zero_iff, htail, List.cons_append, List.take_succ_cons, List.take_succ_cons, List.cons.injEq]
      constructor
      . intro heq
        have hone : k = 0 := by
          by_contra hne
          exact hstop ⟨hne, heq.symm⟩
        rw [hone]
        exact ⟨heq.symm, rfl⟩
      . intro heq
        exact heq.1.symm

end Stdc

end Strings

namespace Getopt

section Long

variable {m : Buffer (BitVec 8)} {p : Nat} {text : List (BitVec 8)} {longopts : List LongOption} {o : LongOption}

theorem isName_eq (h : HoldsString m p text) (hzero : 0 ∉ text) (o : LongOption) (n : Nat)
    : isName m o p n = .ok (decide ((o.name.bytes ++ [0]).take (Stdc.comparedLength n)
        = (text ++ [0]).take (Stdc.comparedLength n))) := by
  obtain ⟨d, hrun, hd⟩ := Stdc.strncmp_eq h hzero o.name.nonzero n
  unfold isName
  rw [hrun, ok_bind, decide_eq_decide.mpr hd]

/--
A string is told from others if it is compared with its terminating zero.
-/
theorem terminated_take {a b : List (BitVec 8)} {n : Nat} (ha : 0 ∉ a) (hb : 0 ∉ b) (hn : b.length < n)
    : (a ++ [0]).take n = (b ++ [0]).take n ↔ a = b := by
  constructor
  . intro heq
    induction a generalizing b n with
    | nil =>
      cases b with
      | nil => rfl
      | cons c b =>
        obtain ⟨n, rfl⟩ := Nat.exists_eq_succ_of_ne_zero (Nat.ne_zero_of_lt hn)
        rw [List.nil_append, List.take_succ_cons, List.cons_append, List.take_succ_cons, List.cons.injEq] at heq
        exact absurd (heq.1 ▸ List.mem_cons_self) hb
    | cons c a ih =>
      obtain ⟨n, rfl⟩ := Nat.exists_eq_succ_of_ne_zero (Nat.ne_zero_of_lt hn)
      cases b with
      | nil =>
        rw [List.nil_append, List.take_succ_cons, List.cons_append, List.take_succ_cons, List.cons.injEq] at heq
        exact absurd (heq.1 ▸ List.mem_cons_self) ha
      | cons d b =>
        rw [List.cons_append, List.take_succ_cons, List.cons_append, List.take_succ_cons, List.cons.injEq] at heq
        rw [List.mem_cons, not_or] at ha hb
        rw [heq.1, ih ha.2 hb.2 (Nat.lt_of_succ_lt_succ hn) heq.2]
  . intro heq
    rw [heq]

/--
A string begins with characters that are not zero if those in front of its end do.
-/
theorem prefix_take {a b : List (BitVec 8)} (hb : 0 ∉ b) : (a ++ [0]).take b.length = b ↔ b <+: a := by
  induction b generalizing a with
  | nil => simp
  | cons c b ih =>
    rw [List.mem_cons, not_or] at hb
    cases a with
    | nil =>
      rw [List.nil_append, List.length_cons, List.take_succ_cons, List.cons.injEq]
      constructor
      . intro heq
        exact absurd heq.1 hb.1
      . intro hpre
        simp at hpre
    | cons d a =>
      rw [List.cons_append, List.length_cons, List.take_succ_cons, List.cons.injEq, List.cons_prefix_cons, ih hb.2]
      exact and_congr_left fun _ => eq_comm

theorem not_mem_longName (hzero : 0 ∉ text) : 0 ∉ longName text :=
  fun hmem => hzero ((List.takeWhile_sublist _).subset hmem)

theorem comparedLength_eq {n : Nat} (hn : n < 2 ^ 32) : Stdc.comparedLength n = if n = 0 then 2 ^ 32 else n := by
  unfold Stdc.comparedLength
  by_cases hzero : n = 0
  . rw [if_pos hzero, hzero]
    decide
  . rw [if_neg hzero, sub32_of_le (by omega) hn]
    lia

theorem longName_prefix_text : longName text <+: text := List.takeWhile_prefix _

/--
The comparison of a name with the part of a word in front of the equals sign.
-/
theorem isName_longName (h : HoldsString m p text) (hzero : 0 ∉ text) (hsize : m.size < 2 ^ 32) (o : LongOption)
    : isName m o p (longName text).length = .ok (isAbbreviated text o) := by
  have hlt := h.length_lt
  have hle := (longName_prefix_text : longName text <+: text).length_le
  rw [isName_eq h hzero, comparedLength_eq (by omega)]
  unfold isAbbreviated
  congr 1
  by_cases hname : longName text = []
  . rw [if_pos (List.length_eq_zero_iff.mpr hname), if_pos hname]
    exact decide_eq_decide.mpr (terminated_take o.name.nonzero hzero (by omega))
  . have htake : (text ++ [0]).take (longName text).length = longName text := by
      rw [List.take_append_of_le_length hle]
      exact (List.prefix_iff_eq_take.mp longName_prefix_text).symm
    rw [if_neg (fun hlen => hname (List.length_eq_zero_iff.mp hlen)), if_neg hname, htake]
    exact decide_eq_decide.mpr (prefix_take (not_mem_longName hzero))

theorem isExact_iff : isExact text o = true ↔ o.name.bytes = longName text ∧ longName text ≠ [] := by
  unfold isExact
  rw [decide_eq_true_iff]

theorem isAbbreviated_of_length (htext : text ≠ []) (hlen : o.name.strlen = (longName text).length)
    : isAbbreviated text o = isExact text o := by
  unfold isAbbreviated isExact
  by_cases hname : longName text = []
  . have hbytes : o.name.bytes = [] := by
      rw [hname] at hlen
      exact List.length_eq_zero_iff.mp hlen
    rw [if_pos hname]
    apply decide_eq_decide.mpr
    rw [hbytes]
    exact ⟨fun heq => absurd heq.symm htext, fun heq => absurd hname heq.2⟩
  . rw [if_neg hname]
    apply decide_eq_decide.mpr
    constructor
    . intro hpre
      exact ⟨(hpre.eq_of_length hlen.symm).symm, hname⟩
    . intro heq
      rw [heq.1]

/--
The first comparison of an option in the loop.
-/
theorem isFullName_longName (h : HoldsString m p text) (hzero : 0 ∉ text) (hsize : m.size < 2 ^ 32) (htext : text ≠ [])
    (o : LongOption)
    : isFullName m o p (longName text).length = .ok (isExact text o) := by
  unfold isFullName
  split
  . next hlen => rw [hlen, isName_longName h hzero hsize, isAbbreviated_of_length htext hlen]
  . next hlen =>
    have hno : isExact text o = false := by
      rw [← Bool.not_eq_true, isExact_iff]
      intro heq
      exact hlen (congrArg List.length heq.1)
    rw [hno]

/--
The loop stops at the option of this name. It counts the others whose names begin with it, and keeps the last one.
-/
theorem findLong_eq (h : HoldsString m p text) (hzero : 0 ∉ text) (hsize : m.size < 2 ^ 32) (htext : text ≠ [])
    (longopts : List LongOption) (i : Nat) (found : Option (Nat × LongOption)) (num : Nat)
    : (∃ x, (numbered longopts i).find? (fun o => isExact text o.2) = some x
          ∧ findLong m p (longName text).length longopts i found num = .ok (some x, 1))
        ∨
      (numbered longopts i).find? (fun o => isExact text o.2) = none
        ∧ findLong m p (longName text).length longopts i found num
          = .ok (((numbered longopts i).filter fun o => isAbbreviated text o.2).getLast? <|> found,
            num + ((numbered longopts i).filter fun o => isAbbreviated text o.2).length) := by
  induction longopts generalizing i found num with
  | nil => exact .inr ⟨rfl, rfl⟩
  | cons o longopts ih =>
    rw [numbered, findLong, isFullName_longName h hzero hsize htext, ok_bind]
    cases hexact : isExact text o with
    | true =>
      left
      exact ⟨(i, o), List.find?_cons_of_pos hexact, rfl⟩
    | false =>
      rw [isName_longName h hzero hsize, if_neg Bool.false_ne_true, ok_bind, List.find?_cons_of_neg (by simp [hexact])]
      cases hshort : isAbbreviated text o with
      | true =>
        rw [if_pos rfl, List.filter_cons_of_pos (p := fun o : Nat × LongOption => isAbbreviated text o.2) hshort,
          List.length_cons, List.getLast?_cons]
        obtain ⟨x, hx, hrun⟩ | ⟨hx, hrun⟩ := ih (i + 1) (some (i, o)) (num + 1)
        . exact .inl ⟨x, hx, hrun⟩
        . right
          refine ⟨hx, ?_⟩
          rw [hrun, Nat.add_right_comm, Nat.add_assoc]
          cases ((numbered longopts (i + 1)).filter fun o => isAbbreviated text o.2).getLast? <;> rfl
      | false =>
        rw [if_neg Bool.false_ne_true,
          List.filter_cons_of_neg (p := fun o : Nat × LongOption => isAbbreviated text o.2) (by simp [hshort])]
        exact ih (i + 1) found num

/--
The loop finds the option that is looked up, or no number of options that is 1.
-/
theorem findLong_lookupLong (longopts : List LongOption) (h : HoldsString m p text) (hzero : 0 ∉ text)
    (hsize : m.size < 2 ^ 32) (htext : text ≠ [])
    : (∃ x, lookupLong longopts text = some x
          ∧ findLong m p (longName text).length longopts 0 none 0 = .ok (some x, 1))
        ∨
      lookupLong longopts text = none
        ∧ ∃ found num, findLong m p (longName text).length longopts 0 none 0 = .ok (found, num) ∧ num ≠ 1 := by
  unfold lookupLong
  obtain ⟨x, hx, hrun⟩ | ⟨hx, hrun⟩ := findLong_eq h hzero hsize htext longopts 0 none 0
  . rw [hx]
    exact .inl ⟨x, rfl, hrun⟩
  . rw [hx]
    dsimp only
    revert hrun
    cases (numbered longopts 0).filter fun o => isAbbreviated text o.2 with
    | nil => exact fun hrun => .inr ⟨rfl, _, _, hrun, by decide⟩
    | cons a l =>
      cases l with
      | nil => exact fun hrun => .inl ⟨a, rfl, hrun⟩
      | cons b l =>
        intro hrun
        refine .inr ⟨rfl, _, _, hrun, ?_⟩
        rw [List.length_cons, List.length_cons]
        omega

end Long

section Calls

variable {m : Buffer (BitVec 8)} {argv : List Nat} {optstring : List (BitVec 8)} {longopts : List LongOption}
  {longindex : Option Nat} {s t : Getopt} {arg p n k : Nat} {c : BitVec 8} {word cs : List (BitVec 8)}
  {words rest : List (List (BitVec 8))} {f : Found} {founds : List Found} {operands : List (List (BitVec 8))}

/--
The strings that `argv` points to.
-/
def Args (m : Buffer (BitVec 8)) (argv : List Nat) (words : List (List (BitVec 8))) : Prop :=
  List.Forall₂ (fun p word => HoldsString m p word ∧ 0 ∉ word) argv words

theorem Args.get (h : Args m argv words) (hdrop : words.drop k = word :: rest)
    : ∃ arg, argv[k]? = some arg ∧ HoldsString m arg word ∧ 0 ∉ word := by
  have hpairs := List.forall₂_drop k h
  rw [hdrop] at hpairs
  obtain ⟨arg, tail, hword, _, hargs⟩ := List.forall₂_cons_right_iff.mp hpairs
  refine ⟨arg, ?_, hword⟩
  rw [← List.head?_drop, hargs]
  rfl

theorem Args.get_none (h : Args m argv words) (hdrop : words.drop k = []) : argv[k]? = none := by
  have hpairs := List.forall₂_drop k h
  rw [hdrop] at hpairs
  rw [← List.head?_drop, List.forall₂_nil_right_iff.mp hpairs]
  rfl

theorem isString_eq (h : HoldsString m arg word) (hzero : 0 ∉ word) (hsize : m.size < 2 ^ 32)
    {str : List (BitVec 8)} (hstr : 0 ∉ str)
    : isString m arg str = .ok (decide (str = word)) := by
  have hlt := h.length_lt
  obtain ⟨d, hrun, hd⟩ := Stdc.strncmp_eq h hzero hstr (2 ^ 32 - 1)
  rw [comparedLength_eq (by omega), if_neg (by omega), terminated_take hstr hzero (by omega)] at hd
  unfold isString
  rw [hrun, ok_bind, decide_eq_decide.mpr hd]

/--
Only a word that begins with two dashes and goes on is a long option.
-/
theorem getoptLong_getopt (harg : argv[s.optind]? = some arg) (h : HoldsString m arg word) (hzero : 0 ∉ word)
    (hshort : ¬ ([dash, dash] <+: word ∧ 3 ≤ word.length))
    : getoptLong m argv optstring longopts longindex s = getopt m argv optstring s := by
  unfold getoptLong
  dsimp only
  rw [harg]
  dsimp only
  rw [Stdc.strlen_eq h hzero, ok_bind]
  split
  . rfl
  . next hlen =>
    obtain ⟨d, hrun, hd⟩ := Stdc.strncmp_eq h hzero (show 0 ∉ [dash, dash] by decide) 2
    have hleading : [dash, dash] <+: word ↔ d = 0 := by
      rw [hd, comparedLength_eq (by omega), if_neg (by omega), ← prefix_take (show 0 ∉ [dash, dash] by decide)]
      exact eq_comm
    rw [hrun, ok_bind, if_pos]
    . rfl
    . intro hzero
      exact hshort ⟨hleading.mpr hzero, by omega⟩

theorem getopt_operand (harg : argv[s.optind]? = some arg) (h : HoldsString m arg word) (hzero : 0 ∉ word)
    (hsize : m.size < 2 ^ 32) (hword : word.head? ≠ some dash ∨ word = [dash])
    : getopt m argv optstring s = .ok (-1, { s with optarg := none, optopt := 0, optcursor := none }) := by
  unfold getopt
  dsimp only
  rw [harg]
  dsimp only
  cases word with
  | nil =>
    rw [h.get_nil, ok_bind, if_pos (by decide)]
    rfl
  | cons c cs =>
    rw [h.get_cons, ok_bind]
    split
    . rfl
    . next hdash =>
      have heq : c :: cs = [dash] := by
        obtain hhead | heq := hword
        . exact absurd (by rw [List.head?_cons, Decidable.not_not.mp hdash]) hhead
        . exact heq
      rw [isString_eq h hzero hsize (by decide), ok_bind, if_pos (decide_eq_true heq.symm)]
      rfl

theorem getopt_dashes (harg : argv[s.optind]? = some arg) (h : HoldsString m arg [dash, dash])
    (hsize : m.size < 2 ^ 32)
    : getopt m argv optstring s
        = .ok (-1, { s with optarg := none, optopt := 0, optind := s.optind + 1, optcursor := none }) := by
  unfold getopt
  dsimp only
  rw [harg]
  dsimp only
  rw [h.get_cons, ok_bind, if_neg (by decide), isString_eq h (by decide) hsize (by decide), ok_bind, if_neg (by decide),
    isString_eq h (by decide) hsize (by decide), ok_bind, if_pos (by decide)]
  rfl

/--
The option character that the cursor is at.
-/
theorem getopt_option (harg : argv[s.optind]? = some arg) (h : HoldsString m arg word) (hzero : 0 ∉ word)
    (hsize : m.size < 2 ^ 32) (hdash : word.head? = some dash) (hne : word ≠ [dash]) (hne' : word ≠ [dash, dash])
    (hcursor : s.cursor m arg = .ok p) (hp : HoldsString m p (c :: cs))
    : getopt m argv optstring s
        = readOption { s with optarg := none, optopt := c.toInt } m argv optstring c p := by
  have hfirst : m.get Fault.access arg = .ok dash := by
    cases word with
    | nil => contradiction
    | cons d word =>
      rw [h.get_cons, Option.some.inj hdash]
  unfold getopt
  dsimp only
  rw [harg]
  dsimp only
  rw [hfirst, ok_bind, if_neg (by decide), isString_eq h hzero hsize (by decide), ok_bind,
    if_neg (by simp [Ne.symm hne]), isString_eq h hzero hsize (by decide), ok_bind, if_neg (by simp [Ne.symm hne'])]
  have hsame : cursor { s with optarg := none, optopt := 0 } m arg = .ok p := hcursor
  rw [hsame, ok_bind, hp.get_cons, ok_bind]

/--
The cursor is not inside of a word.
-/
def AtEnd (m : Buffer (BitVec 8)) (s : Getopt) : Prop := ∀ p, s.optcursor = some p → p < m.size ∧ m.data p = 0

theorem AtEnd.cursor (h : AtEnd m s) (arg : Nat) : s.cursor m arg = .ok (arg + 1) := by
  unfold Getopt.cursor
  cases hcursor : s.optcursor with
  | none => rfl
  | some p =>
    obtain ⟨hp, hzero⟩ := h p hcursor
    dsimp only
    rw [Buffer.get_of_lt hp, ok_bind, if_pos hzero]

/--
The calls from a state on find these options, and leave these operands.
-/
def Finds (m : Buffer (BitVec 8)) (argv : List Nat) (optstring : List (BitVec 8)) (longopts : List LongOption)
    (longindex : Option Nat) (words : List (List (BitVec 8))) (s : Getopt)
    (r : List Found × List (List (BitVec 8))) : Prop :=
  ∃ t, (∀ n, r.1.length < n → callAll m argv optstring longopts longindex n s = .ok (r.1.map Found.report, t))
    ∧ words.drop t.optind = r.2 ∧ t.vars = r.1.foldl (Found.apply longindex) s.vars ∧ AtEnd m t

theorem Finds.stop (hcall : getoptLong m argv optstring longopts longindex s = .ok (-1, t))
    (hdrop : words.drop t.optind = operands) (hvars : t.vars = s.vars) (hend : AtEnd m t)
    : Finds m argv optstring longopts longindex words s ([], operands) := by
  refine ⟨t, ?_, hdrop, hvars, hend⟩
  intro n hn
  obtain ⟨n, rfl⟩ := Nat.exists_eq_succ_of_ne_zero (Nat.ne_zero_of_lt hn)
  rw [callAll, hcall, ok_bind]
  exact if_pos rfl

theorem Finds.step (hcall : getoptLong m argv optstring longopts longindex s = .ok (f.report.ret, t))
    (hret : f.report.ret ≠ -1) (hoptopt : t.optopt = f.report.optopt)
    (hoptarg : t.optarg.map (Stdc.stringAt m) = f.report.optarg) (hvars : t.vars = f.apply longindex s.vars)
    (hrest : Finds m argv optstring longopts longindex words t (founds, operands))
    : Finds m argv optstring longopts longindex words s (f :: founds, operands) := by
  obtain ⟨u, hrun, hdrop, hu, hend⟩ := hrest
  refine ⟨u, ?_, hdrop, ?_, hend⟩
  . intro n hn
    obtain ⟨n, rfl⟩ := Nat.exists_eq_succ_of_ne_zero (Nat.ne_zero_of_lt hn)
    rw [callAll, hcall, ok_bind]
    dsimp only
    rw [if_neg hret, hrun n (Nat.lt_of_succ_lt_succ hn), ok_bind, hoptopt, hoptarg]
    rfl
  . rw [hu, hvars]
    rfl

theorem finds_nil (hargs : Args m argv words) (hdrop : words.drop s.optind = []) (hend : AtEnd m s)
    : Finds m argv optstring longopts longindex words s ([], []) := by
  apply Finds.stop (t := { s with optarg := none, optopt := 0 })
  . unfold getoptLong
    dsimp only
    rw [hargs.get_none hdrop]
  . exact hdrop
  . rfl
  . exact hend

theorem proceed_cons (r : List Found × Option Pending) (words : List (List (BitVec 8)))
    : proceed optstring longopts (r.map (f :: ·) id) words
        = (f :: (proceed optstring longopts r words).1, (proceed optstring longopts r words).2) := by
  obtain ⟨founds, pending⟩ := r
  cases pending with
  | none => rfl
  | some p =>
    cases words with
    | nil => rfl
    | cons value words => rfl

theorem readWords_cons {r : List Found × Option Pending} (hne : word ≠ [dash, dash])
    (hread : readWord optstring longopts word = some r)
    : readWords optstring longopts (word :: rest) = proceed optstring longopts r rest := by
  obtain ⟨founds, pending⟩ := r
  rw [readWords, if_neg hne, hread]
  cases pending with
  | none => rfl
  | some p =>
    cases rest with
    | nil => rfl
    | cons value rest => rfl

theorem drop_succ (hdrop : words.drop k = word :: rest) : words.drop (k + 1) = rest := by
  rw [← List.tail_drop, hdrop, List.tail_cons]

theorem optdecl_mem {kind : HasArg} (h : optdecl optstring c = some kind) : c ∈ optstring := by
  by_contra hmem
  have hnil : optstring.dropWhile (· ≠ c) = [] := by
    rw [List.dropWhile_eq_nil_iff]
    intro d hd
    exact decide_eq_true fun heq => hmem (heq ▸ hd)
  unfold optdecl at h
  rw [hnil] at h
  contradiction

theorem toInt_ne (hopt : 0xff ∉ optstring) (hmem : c ∈ optstring) : c.toInt ≠ -1 := by
  intro heq
  have hc : c = 0xff := BitVec.eq_of_toInt_eq (by rw [heq]; decide)
  exact hopt (hc ▸ hmem)

theorem question_ne : question.toInt ≠ -1 := by decide

theorem missing_ne : missing optstring ≠ -1 := by
  unfold missing
  split
  . decide
  . decide

/--
The cursor is in a word with options, and `cs` are those that are left of it.
-/
structure InWord (m : Buffer (BitVec 8)) (argv : List Nat) (s : Getopt) (arg p : Nat) (cs : List (BitVec 8))
    : Prop where
  argument : argv[s.optind]? = some arg
  word : ∃ word, HoldsString m arg word ∧ 0 ∉ word ∧ word.head? = some dash ∧ word ≠ [dash] ∧ ¬ [dash, dash] <+: word
  cursor : s.cursor m arg = .ok p
  holds : HoldsString m p cs
  nonzero : 0 ∉ cs

theorem InWord.call (h : InWord m argv s arg p (c :: cs)) (hsize : m.size < 2 ^ 32)
    : getoptLong m argv optstring longopts longindex s
        = readOption { s with optarg := none, optopt := c.toInt } m argv optstring c p := by
  obtain ⟨word, hword, hzero, hdash, hne, hlong⟩ := h.word
  have hne' : word ≠ [dash, dash] := fun heq => hlong (heq ▸ List.prefix_refl _)
  rw [getoptLong_getopt h.argument hword hzero (fun hpre => hlong hpre.1),
    getopt_option h.argument hword hzero hsize hdash hne hne' h.cursor h.holds]

/--
The state in which the calls go on behind an option without an argument.
-/
def skip (s : Getopt) (c : BitVec 8) (cs : List (BitVec 8)) (p : Nat) : Getopt :=
  { s with
    optarg := none
    optopt := c.toInt
    optind := if cs = [] then s.optind + 1 else s.optind
    optcursor := some (p + 1) }

theorem InWord.next (h : InWord m argv s arg p (c :: cs)) (ret : Int)
    : next { s with optarg := none, optopt := c.toInt } m ret p = .ok (ret, skip s c cs p) := by
  have hzero := h.nonzero
  rw [List.mem_cons, not_or] at hzero
  obtain ⟨d, hget, hd⟩ := Stdc.HoldsString.get_head h.holds.2 hzero.2
  unfold Getopt.next skip
  rw [hget, ok_bind]
  simp only [hd]

theorem InWord.skip (h : InWord m argv s arg p (c :: cs)) (hcs : cs ≠ [])
    : InWord m argv (skip s c cs p) arg (p + 1) cs := by
  have hzero := h.nonzero
  rw [List.mem_cons, not_or] at hzero
  refine ⟨?_, h.word, ?_, h.holds.2, hzero.2⟩
  . unfold Getopt.skip
    dsimp only
    rw [if_neg hcs, h.argument]
  . obtain ⟨d, hget, hd⟩ := Stdc.HoldsString.get_head h.holds.2 hzero.2
    unfold Getopt.cursor Getopt.skip
    dsimp only
    rw [hget, ok_bind, if_neg (fun heq => hcs (hd.mp heq))]

/--
What is read from the words behind a state does not depend on how the calls have come there.
-/
def Continues (m : Buffer (BitVec 8)) (argv : List Nat) (optstring : List (BitVec 8)) (longopts : List LongOption)
    (longindex : Option Nat) (words : List (List (BitVec 8))) (rest : List (List (BitVec 8))) : Prop :=
  ∀ t : Getopt, words.drop t.optind = rest → AtEnd m t
    → Finds m argv optstring longopts longindex words t (readWords optstring longopts rest)

theorem proceed_nil : proceed optstring longopts ([], none) rest = readWords optstring longopts rest := rfl

/--
The state in which the calls go on behind an option with an argument.
-/
def behind (s : Getopt) (c : BitVec 8) (optarg : Option Nat) (optind : Nat) : Getopt :=
  { s with optarg, optopt := c.toInt, optind, optcursor := none }

theorem InWord.takeArg (h : InWord m argv s arg p (c :: cs)) (kind : HasArg)
    : takeArg { s with optarg := none, optopt := c.toInt } m argv optstring c kind p
        =
      if cs ≠ [] then
        .ok (c.toInt, behind s c (some (p + 1)) (s.optind + 1))
      else if kind = .required then
        match argv[s.optind + 1]? with
        | some arg => .ok (c.toInt, behind s c (some arg) (s.optind + 2))
        | none => .ok (missing optstring, behind s c none (s.optind + 2))
      else
        .ok (c.toInt, behind s c none (s.optind + 1)) := by
  have hzero := h.nonzero
  rw [List.mem_cons, not_or] at hzero
  obtain ⟨d, hget, hd⟩ := Stdc.HoldsString.get_head h.holds.2 hzero.2
  unfold Getopt.takeArg
  rw [hget, ok_bind]
  simp only [ne_eq, hd]
  rfl

/--
The argument of an option in the rest of its word.
-/
theorem finds_attached (hdrop : words.drop (s.optind + 1) = rest)
    (hnext : Continues m argv optstring longopts longindex words rest)
    (hin : InWord m argv s arg p (c :: cs)) (hret : c.toInt ≠ -1)
    (hcall : getoptLong m argv optstring longopts longindex s = .ok (c.toInt, behind s c (some (p + 1)) (s.optind + 1)))
    : Finds m argv optstring longopts longindex words s
        (proceed optstring longopts ([⟨⟨c.toInt, c.toInt, some cs⟩, none⟩], none) rest) := by
  have hzero := hin.nonzero
  rw [List.mem_cons, not_or] at hzero
  apply Finds.step hcall hret rfl _ rfl
  . apply hnext _ hdrop
    intro q hq
    contradiction
  . exact congrArg some (Stdc.stringAt_eq hin.holds.2 hzero.2)

/--
An option, if what is left of its word has been read.
-/
theorem finds_option (hargs : Args m argv words) (hsize : m.size < 2 ^ 32) (hopt : 0xff ∉ optstring)
    (hdrop : words.drop (s.optind + 1) = rest)
    (hnext : Continues m argv optstring longopts longindex words rest)
    (hskip : ∀ value ws, rest = value :: ws → Continues m argv optstring longopts longindex words ws)
    (hin : InWord m argv s arg p (c :: cs))
    (hword : cs ≠ [] → Finds m argv optstring longopts longindex words (skip s c cs p)
      (proceed optstring longopts (readCluster optstring cs) rest))
    : Finds m argv optstring longopts longindex words s
        (proceed optstring longopts (readCluster optstring (c :: cs)) rest) := by
  have hafter : Finds m argv optstring longopts longindex words (skip s c cs p)
      (proceed optstring longopts (readCluster optstring cs) rest) := by
    by_cases hcs : cs = []
    . subst hcs
      apply hnext
      . exact hdrop
      . intro q hq
        cases hq
        exact hin.holds.2
    . exact hword hcs
  have hcall : getoptLong m argv optstring longopts longindex s = _ := hin.call hsize
  unfold readOption at hcall
  unfold readCluster
  cases hdecl : optdecl optstring c with
  | none =>
    rw [hdecl] at hcall
    dsimp only at hcall ⊢
    rw [hin.next] at hcall
    rw [proceed_cons]
    exact Finds.step hcall question_ne rfl rfl rfl hafter
  | some kind =>
    have hret : c.toInt ≠ -1 := toInt_ne hopt (optdecl_mem hdecl)
    rw [hdecl] at hcall
    cases kind with
    | no =>
      dsimp only at hcall ⊢
      rw [hin.next] at hcall
      rw [proceed_cons]
      exact Finds.step hcall hret rfl rfl rfl hafter
    | required =>
      dsimp only at hcall ⊢
      rw [hin.takeArg] at hcall
      by_cases hcs : cs = []
      . rw [if_neg (not_not_intro hcs), if_pos rfl] at hcall
        rw [if_pos hcs]
        cases rest with
        | nil =>
          rw [hargs.get_none hdrop] at hcall
          apply Finds.step hcall missing_ne rfl rfl rfl
          apply finds_nil hargs
          . exact List.drop_eq_nil_of_le (Nat.le_succ_of_le (List.drop_eq_nil_iff.mp hdrop))
          . intro q hq
            contradiction
        | cons value rest =>
          obtain ⟨next, hnext', hvalue, hzero⟩ := hargs.get hdrop
          rw [hnext'] at hcall
          apply Finds.step hcall hret rfl _ rfl
          . apply hskip value rest rfl
            . exact drop_succ hdrop
            . intro q hq
              contradiction
          . exact congrArg some (Stdc.stringAt_eq hvalue hzero)
      . rw [if_pos hcs] at hcall
        rw [if_neg hcs]
        exact finds_attached hdrop hnext hin hret hcall
    | optional =>
      dsimp only at hcall ⊢
      rw [hin.takeArg] at hcall
      by_cases hcs : cs = []
      . rw [if_neg (not_not_intro hcs), if_neg (by decide)] at hcall
        rw [if_pos hcs]
        apply Finds.step hcall hret rfl rfl rfl
        apply hnext _ hdrop
        intro q hq
        contradiction
      . rw [if_pos hcs] at hcall
        rw [if_neg hcs]
        exact finds_attached hdrop hnext hin hret hcall

theorem finds_cluster (hargs : Args m argv words) (hsize : m.size < 2 ^ 32) (hopt : 0xff ∉ optstring)
    (hdrop : words.drop (k + 1) = rest)
    (hnext : Continues m argv optstring longopts longindex words rest)
    (hskip : ∀ value ws, rest = value :: ws → Continues m argv optstring longopts longindex words ws)
    (hk : s.optind = k) (hin : InWord m argv s arg p (c :: cs))
    : Finds m argv optstring longopts longindex words s
        (proceed optstring longopts (readCluster optstring (c :: cs)) rest) := by
  induction cs generalizing s c p with
  | nil =>
    apply finds_option hargs hsize hopt (hk ▸ hdrop) hnext hskip hin
    intro hne
    contradiction
  | cons d cs ih =>
    apply finds_option hargs hsize hopt (hk ▸ hdrop) hnext hskip hin
    intro hne
    exact ih hk (hin.skip hne)

theorem mem_of_lookupLong {text : List (BitVec 8)} {i : Nat} {o : LongOption}
    (h : lookupLong longopts text = some (i, o))
    : o ∈ longopts := by
  have hmem : ∀ {longopts : List LongOption} {k : Nat}, (i, o) ∈ numbered longopts k → o ∈ longopts := by
    intro longopts
    induction longopts with
    | nil => exact fun h => absurd h List.not_mem_nil
    | cons a longopts ih =>
      intro k h
      rw [numbered, List.mem_cons] at h
      obtain h | h := h
      . cases h
        exact List.mem_cons_self
      . exact List.mem_cons_of_mem _ (ih h)
  unfold lookupLong at h
  split at h
  . next x hfind =>
    cases h
    exact hmem (List.mem_of_find?_eq_some hfind)
  . split at h
    . next x hfilter =>
      cases h
      have hin : (i, o) ∈ (numbered longopts 0).filter fun o => isAbbreviated text o.2 := by
        rw [hfilter]
        exact List.mem_singleton_self _
      exact hmem (List.mem_filter.mp hin).1
    . contradiction

/--
A word is told into the name and the value at the first equals sign, if there is one.
-/
theorem strchr_longValue {text : List (BitVec 8)} (h : HoldsString m arg (dash :: dash :: text))
    (hzero : 0 ∉ dash :: dash :: text)
    : longValue text = none ∧ Stdc.strchr m arg equals = .ok none
        ∨ ∃ value q, longValue text = some value ∧ Stdc.strchr m arg equals = .ok (some q)
          ∧ HoldsString m (q + 1) value ∧ 0 ∉ value := by
  have hstrchr := Stdc.strchr_eq h hzero (show equals ≠ 0 by decide)
  have hmem : equals ∈ dash :: dash :: text ↔ equals ∈ text := by
    rw [List.mem_cons, List.mem_cons, or_iff_right (by decide), or_iff_right (by decide)]
  have hsplit := List.takeWhile_append_dropWhile (p := (· ≠ equals)) (l := dash :: dash :: text)
  have hdrop : (dash :: dash :: text).dropWhile (· ≠ equals) = text.dropWhile (· ≠ equals) := by
    rw [List.dropWhile_cons_of_pos (by decide), List.dropWhile_cons_of_pos (by decide)]
  rw [hdrop] at hsplit
  unfold longValue
  by_cases heq : equals ∈ text
  . right
    rw [if_pos (hmem.mpr heq)] at hstrchr
    cases htail : text.dropWhile (· ≠ equals) with
    | nil =>
      rw [List.dropWhile_eq_nil_iff] at htail
      exact absurd rfl (of_decide_eq_true (htail equals heq))
    | cons c value =>
      rw [htail] at hsplit
      rw [← hsplit] at h hzero
      refine ⟨value, _, rfl, hstrchr, (HoldsString.append h).2, ?_⟩
      intro hmem
      exact hzero (List.mem_append_right _ (List.mem_cons_of_mem _ hmem))
  . left
    rw [if_neg (fun hin => heq (hmem.mp hin))] at hstrchr
    have hnil : text.dropWhile (· ≠ equals) = [] := by
      rw [List.dropWhile_eq_nil_iff]
      intro c hc
      exact decide_eq_true fun hce => heq (hce ▸ hc)
    rw [hnil]
    exact ⟨rfl, hstrchr⟩

theorem getoptLong_long {text : List (BitVec 8)} (harg : argv[s.optind]? = some arg)
    (h : HoldsString m arg (dash :: dash :: text)) (hzero : 0 ∉ dash :: dash :: text) (htext : text ≠ [])
    : getoptLong m argv optstring longopts longindex s
        = readLongOption { s with optarg := none, optopt := 0 } m argv longopts longindex arg := by
  have hlen := List.length_pos_of_ne_nil htext
  obtain ⟨d, hrun, hd⟩ := Stdc.strncmp_eq h hzero (show 0 ∉ [dash, dash] by decide) 2
  have hdzero : d = 0 := by
    rw [hd, comparedLength_eq (by omega), if_neg (by omega)]
    rfl
  unfold getoptLong
  dsimp only
  rw [harg]
  dsimp only
  rw [Stdc.strlen_eq h hzero, ok_bind, if_neg (by rw [List.length_cons, List.length_cons]; omega), hrun, ok_bind,
    if_neg (not_not_intro hdzero)]

theorem readLongOption_eq {text : List (BitVec 8)} (h : HoldsString m (arg + 2) text) (hzero : 0 ∉ text)
    (hsize : m.size < 2 ^ 32) (htext : text ≠ [])
    : (lookupLong longopts text = none
          ∧ readLongOption s m argv longopts longindex arg
            = .ok (question.toInt, { s with optind := s.optind + 1 }))
        ∨
      ∃ i o, lookupLong longopts text = some (i, o)
        ∧ readLongOption s m argv longopts longindex arg
          = takeLongArg { s with vars := store longindex i o s.vars } m argv o arg := by
  unfold readLongOption
  rw [Stdc.strcspn_eq h hzero, ok_bind]
  change _ ∧ (findLong m (arg + 2) (longName text).length longopts 0 none 0 >>= _) = _
    ∨ ∃ i o, _ ∧ (findLong m (arg + 2) (longName text).length longopts 0 none 0 >>= _) = _
  obtain ⟨⟨i, o⟩, hlookup, hfind⟩ | ⟨hlookup, found, num, hfind, hnum⟩ :=
    findLong_lookupLong longopts h hzero hsize htext
  . right
    refine ⟨i, o, hlookup, ?_⟩
    rw [hfind, ok_bind]
    rfl
  . left
    refine ⟨hlookup, ?_⟩
    rw [hfind, ok_bind]
    exact if_neg hnum

/--
A long option whose argument is in its word, or that has none.
-/
theorem finds_whole {vars : Nat → Int} {r : Report} {option : Option (Nat × LongOption)} {optarg : Option Nat}
    (hcall : getoptLong m argv optstring longopts longindex s
      = .ok (r.ret, { s with optarg, optopt := 0, optind := s.optind + 1, vars }))
    (hret : r.ret ≠ -1) (hoptopt : r.optopt = 0) (hoptarg : optarg.map (Stdc.stringAt m) = r.optarg)
    (hvars : vars = Found.apply longindex s.vars ⟨r, option⟩) (hend : AtEnd m s)
    (hdrop : words.drop (s.optind + 1) = rest)
    (hnext : Continues m argv optstring longopts longindex words rest)
    : Finds m argv optstring longopts longindex words s
        (proceed optstring longopts ([⟨r, option⟩], none) rest) := by
  apply Finds.step (f := ⟨r, option⟩) hcall hret hoptopt.symm hoptarg hvars
  exact hnext _ hdrop hend

theorem finds_long {text : List (BitVec 8)} (hargs : Args m argv words) (hsize : m.size < 2 ^ 32)
    (hvals : ∀ o ∈ longopts, o.ret ≠ -1) (hdrop : words.drop (s.optind + 1) = rest)
    (hnext : Continues m argv optstring longopts longindex words rest)
    (hskip : ∀ value ws, rest = value :: ws → Continues m argv optstring longopts longindex words ws)
    (harg : argv[s.optind]? = some arg) (h : HoldsString m arg (dash :: dash :: text))
    (hzero : 0 ∉ dash :: dash :: text) (htext : text ≠ []) (hend : AtEnd m s)
    : Finds m argv optstring longopts longindex words s (proceed optstring longopts (readLong longopts text) rest) := by
  have hzero' : 0 ∉ text := fun hmem => hzero (List.mem_cons_of_mem _ (List.mem_cons_of_mem _ hmem))
  have hcall : getoptLong m argv optstring longopts longindex s = _ := getoptLong_long harg h hzero htext
  unfold readLong
  obtain ⟨hlookup, hrun⟩ | ⟨i, o, hlookup, hrun⟩ := readLongOption_eq h.2.2 hzero' hsize htext
  . rw [hrun] at hcall
    rw [hlookup]
    exact finds_whole hcall question_ne rfl rfl rfl hend hdrop hnext
  . have hret := hvals o (mem_of_lookupLong hlookup)
    rw [hrun] at hcall
    rw [hlookup]
    dsimp only
    unfold takeLongArg at hcall
    obtain ⟨hvalue, hstrchr⟩ | ⟨value, q, hvalue, hstrchr, hholds, hnonzero⟩ := strchr_longValue h hzero
    . rw [hstrchr, ok_bind] at hcall
      rw [hvalue]
      cases hkind : o.hasArg with
      | no =>
        rw [hkind] at hcall
        exact finds_whole hcall hret rfl rfl rfl hend hdrop hnext
      | optional =>
        rw [hkind] at hcall
        exact finds_whole hcall hret rfl rfl rfl hend hdrop hnext
      | required =>
        rw [hkind] at hcall
        dsimp only [Option.map] at hcall
        cases rest with
        | nil =>
          rw [hargs.get_none hdrop] at hcall
          apply Finds.step hcall (show colon.toInt ≠ -1 by decide) rfl rfl rfl
          apply finds_nil hargs
          . exact List.drop_eq_nil_of_le (Nat.le_succ_of_le (List.drop_eq_nil_iff.mp hdrop))
          . exact hend
        | cons value rest =>
          obtain ⟨next, hnext', hvalue, hzero⟩ := hargs.get hdrop
          rw [hnext'] at hcall
          apply Finds.step hcall hret rfl _ rfl
          . exact hskip value rest rfl _ (drop_succ hdrop) hend
          . exact congrArg some (Stdc.stringAt_eq hvalue hzero)
    . rw [hstrchr, ok_bind] at hcall
      rw [hvalue]
      cases hkind : o.hasArg with
      | no =>
        rw [hkind] at hcall
        exact finds_whole hcall question_ne rfl rfl rfl hend hdrop hnext
      | optional =>
        rw [hkind] at hcall
        exact finds_whole hcall hret rfl (congrArg some (Stdc.stringAt_eq hholds hnonzero)) rfl hend hdrop hnext
      | required =>
        rw [hkind] at hcall
        exact finds_whole hcall hret rfl (congrArg some (Stdc.stringAt_eq hholds hnonzero)) rfl hend hdrop hnext

theorem continues_words (hargs : Args m argv words) (hsize : m.size < 2 ^ 32) (hopt : 0xff ∉ optstring)
    (hvals : ∀ o ∈ longopts, o.ret ≠ -1) (n : Nat) (hn : rest.length ≤ n)
    : Continues m argv optstring longopts longindex words rest := by
  induction n generalizing rest with
  | zero =>
    obtain rfl := List.length_eq_zero_iff.mp (Nat.le_zero.mp hn)
    intro s hdrop hend
    exact finds_nil hargs hdrop hend
  | succ n ih =>
    intro s hdrop hend
    cases rest with
    | nil => exact finds_nil hargs hdrop hend
    | cons word rest =>
      have hlen : rest.length ≤ n := Nat.le_of_succ_le_succ hn
      have hskip : ∀ value ws, rest = value :: ws → Continues m argv optstring longopts longindex words ws := by
        intro value ws heq
        apply ih
        rw [heq, List.length_cons] at hlen
        omega
      obtain ⟨arg, harg, hword, hzero⟩ := hargs.get hdrop
      by_cases hdashes : word = [dash, dash]
      . subst hdashes
        rw [readWords, if_pos rfl]
        apply Finds.stop
        . rw [getoptLong_getopt harg hword hzero (fun hlong => absurd hlong.2 (by decide)),
            getopt_dashes harg hword hsize]
        . exact drop_succ hdrop
        . rfl
        . intro p hp
          contradiction
      . cases hread : readWord optstring longopts word with
        | none =>
          rw [readWords, if_neg hdashes, hread]
          unfold readWord at hread
          split at hread
          . contradiction
          . next hlong =>
            split at hread
            . contradiction
            . next hshort =>
              have hoperand : word.head? ≠ some dash ∨ word = [dash] := by
                by_cases hhead : word.head? = some dash
                . exact .inr (Decidable.not_not.mp fun hne => hshort ⟨hhead, hne⟩)
                . exact .inl hhead
              apply Finds.stop
              . rw [getoptLong_getopt harg hword hzero (fun hpre => hlong (List.isPrefixOf_iff_prefix.mpr hpre.1)),
                  getopt_operand harg hword hzero hsize hoperand]
              . exact hdrop
              . rfl
              . intro p hp
                contradiction
        | some r =>
          rw [readWords_cons hdashes hread]
          unfold readWord at hread
          split at hread
          . next hlong =>
            cases hread
            obtain ⟨text, rfl⟩ := List.isPrefixOf_iff_prefix.mp hlong
            apply finds_long hargs hsize hvals (drop_succ hdrop) (ih hlen) hskip harg hword hzero _ hend
            intro htext
            exact hdashes (congrArg ([dash, dash] ++ ·) htext)
          . next hlong =>
            split at hread
            . next hshort =>
              cases hread
              obtain ⟨c, cs, rfl⟩ : ∃ c cs, word = dash :: c :: cs := by
                cases word with
                | nil => exact absurd hshort.1 (by simp)
                | cons d word =>
                  obtain rfl : d = dash := Option.some.inj hshort.1
                  cases word with
                  | nil => exact absurd rfl hshort.2
                  | cons c cs => exact ⟨c, cs, rfl⟩
              have hin : InWord m argv s arg (arg + 1) (c :: cs) := by
                refine ⟨harg, ⟨_, hword, hzero, hshort.1, hshort.2, ?_⟩, hend.cursor arg, hword.2, ?_⟩
                . exact fun hpre => hlong (List.isPrefixOf_iff_prefix.mpr hpre)
                . exact fun hmem => hzero (List.mem_cons_of_mem _ hmem)
              exact finds_cluster hargs hsize hopt (drop_succ hdrop) (ih hlen) hskip rfl hin
            . contradiction

end Calls

/--
What the options of a command are read as, until there are no more. The cursor has to be at the end of a word, since
`getopt_init` leaves it where it is.
-/
theorem getoptLong_readWords (m : Buffer (BitVec 8)) (argv : List Nat) (optstring : List (BitVec 8))
    (longopts : List LongOption) (longindex : Option Nat) (s : Getopt) {words : List (List (BitVec 8))}
    (hargs : Args m argv words) (hsize : m.size < 2 ^ 32) (hopt : 0xff ∉ optstring)
    (hvals : ∀ o ∈ longopts, o.ret ≠ -1) (hend : AtEnd m s)
    : Finds m argv optstring longopts longindex words (getoptInit s)
        (readWords optstring longopts (words.drop 1)) :=
  continues_words hargs hsize hopt hvals _ (Nat.le_refl _) _ rfl hend

/--
The arguments of `echo -d x y`.
-/
def echoWords : List (List (BitVec 8)) := [[0x65, 0x63, 0x68, 0x6f], [dash, 0x64], [0x78], [0x79]]

def echoMemory : Buffer (BitVec 8) := ⟨12, fun i => (echoWords.flatMap (· ++ [0])).getD i 0⟩

def echoOptions : List LongOption := [⟨⟨[0x64, 0x65, 0x76, 0x69, 0x63, 0x65], by decide⟩, .optional, none, 0x64⟩]

theorem echo_args : Args echoMemory [0, 5, 8, 10] echoWords := by
  refine .cons ⟨?_, by decide⟩ (.cons ⟨?_, by decide⟩ (.cons ⟨?_, by decide⟩ (.cons ⟨?_, by decide⟩ .nil)))
  all_goals
    simp [HoldsString, echoMemory, echoWords]

theorem getoptLong_readWords_echo
    : Finds echoMemory [0, 5, 8, 10] [0x64, colon] echoOptions none echoWords
        (getoptInit ⟨none, 0, 1, none, fun _ => 0⟩) ([⟨⟨0x64, 0x64, some [0x78]⟩, none⟩], [[0x79]]) :=
  getoptLong_readWords echoMemory _ _ _ none ⟨none, 0, 1, none, fun _ => 0⟩ echo_args (by decide) (by decide)
    (by decide) (fun _ h => absurd h (by simp))

/--
If the cursor is inside of a word of another command, what is there is taken for an option.
-/
example
    : (callAll echoMemory [0, 5, 8, 10] [0x64, colon] echoOptions none 9
        (getoptInit ⟨none, 0, 1, some 8, fun _ => 0⟩)).map Prod.fst
      = .ok [⟨question.toInt, 0x78, none⟩] := by
  decide

end Getopt

end Emos.Boot
