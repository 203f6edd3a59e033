import Emos.Boot.Stdc.Impl.String

/-!
This module contains how the commands of the shell read their options. The strings of `argv` are in one memory, and
a pointer is an index into it. Those of the program are lists without their terminating zero.
-/

open Lib

namespace Emos.Boot

namespace Stdc

/--
A search for the end of a string, for at most as many characters as there is memory.
-/
def strlen (m : Buffer (BitVec 8)) (str : Nat) : Run Nat :=
  go (m.size + 1) str
where
  go : Nat → Nat → Run Nat
    | 0, _ => .error .hang
    | n + 1, str => do
      let c ← m.get .access str
      if c = 0 then
        .ok 0
      else do
        let s ← go n (str + 1)
        .ok (s + 1)

def strcspn (m : Buffer (BitVec 8)) (p1 : Nat) (p2 : List (BitVec 8)) : Run Nat :=
  go (m.size + 1) p1
where
  go : Nat → Nat → Run Nat
    | 0, _ => .error .hang
    | n + 1, p1 => do
      let c ← m.get .access p1
      if c = 0 then
        .ok 0
      else if p2.contains c then
        .ok 0
      else do
        let ret ← go n (p1 + 1)
        .ok (ret + 1)

end Stdc

inductive HasArg where
  | no
  | required
  | optional
  deriving DecidableEq, Repr

/--
`struct option`, where `flag` is the address of a variable.
-/
structure LongOption where
  name : CString
  hasArg : HasArg
  flag : Option Nat
  val : Int

/--
What is returned for a long option.
-/
def LongOption.ret (o : LongOption) : Int := if o.flag.isSome then 0 else o.val

/--
The variables of `getopt.c`, and those that `flag` and `longindex` point to. There is no field for `opterr`, which is
always 0.
-/
structure Getopt where
  optarg : Option Nat
  optopt : Int
  optind : Nat
  optcursor : Option Nat
  vars : Nat → Int

def getoptInit (s : Getopt) : Getopt := { s with optarg := none, optopt := 0, optind := 1 }

namespace Getopt

def dash : BitVec 8 := 0x2d

def colon : BitVec 8 := 0x3a

def equals : BitVec 8 := 0x3d

def question : BitVec 8 := 0x3f

/--
`strcmp(p, str) == 0`
-/
def isString (m : Buffer (BitVec 8)) (p : Nat) (str : List (BitVec 8)) : Run Bool := do
  let d ← Stdc.strncmp str (m.get .access) p (2 ^ 32 - 1)
  .ok (d = 0)

/--
What `optstring` tells about an option, if it is one.
-/
def optdecl (optstring : List (BitVec 8)) (optchar : BitVec 8) : Option HasArg :=
  match optstring.dropWhile (· ≠ optchar) with
  | [] => none
  | _ :: decl =>
    if charAt decl ≠ colon then some .no
    else if charAt decl.tail ≠ colon then some .required
    else some .optional

/--
What is returned for an option without its argument.
-/
def missing (optstring : List (BitVec 8)) : Int :=
  if charAt optstring = colon then colon.toInt else question.toInt

variable (s : Getopt)

/--
The end of `getopt` at `no_more_optchars`.
-/
def noMoreOptchars : Run (Int × Getopt) := .ok (-1, { s with optcursor := none })

/--
The end of `getopt` behind an option character at `cursor`.
-/
def next (m : Buffer (BitVec 8)) (optchar : Int) (cursor : Nat) : Run (Int × Getopt) := do
  let c ← m.get .access (cursor + 1)
  .ok (optchar, { s with optind := if c = 0 then s.optind + 1 else s.optind, optcursor := some (cursor + 1) })

/--
The end of `getopt` behind an option that takes an argument.
-/
def nextArg (optchar : Int) (optarg : Option Nat) (optind : Nat) : Run (Int × Getopt) :=
  .ok (optchar, { s with optarg, optind := optind + 1, optcursor := none })

/--
The argument of the option at `cursor`.
-/
def takeArg (m : Buffer (BitVec 8)) (argv : List Nat) (optstring : List (BitVec 8)) (optchar : BitVec 8)
    (hasArg : HasArg) (cursor : Nat)
    : Run (Int × Getopt) := do
  let c ← m.get .access (cursor + 1)
  if c ≠ 0 then
    s.nextArg optchar.toInt (some (cursor + 1)) s.optind
  else if hasArg = .required then
    match argv[s.optind + 1]? with
    | some arg => s.nextArg optchar.toInt (some arg) (s.optind + 1)
    | none => s.nextArg (missing optstring) none (s.optind + 1)
  else
    s.nextArg optchar.toInt none s.optind

/--
What `getopt` does about the option character at `cursor`.
-/
def readOption (m : Buffer (BitVec 8)) (argv : List Nat) (optstring : List (BitVec 8)) (optchar : BitVec 8)
    (cursor : Nat)
    : Run (Int × Getopt) :=
  match optdecl optstring optchar with
  | none => s.next m question.toInt cursor
  | some .no => s.next m optchar.toInt cursor
  | some hasArg => s.takeArg m argv optstring optchar hasArg cursor

/--
`optcursor`, or the first option character of a new argument.
-/
def cursor (m : Buffer (BitVec 8)) (arg : Nat) : Run Nat :=
  match s.optcursor with
  | none => .ok (arg + 1)
  | some p => do
    let c ← m.get .access p
    .ok (if c = 0 then arg + 1 else p)

end Getopt

open Getopt

def getopt (m : Buffer (BitVec 8)) (argv : List Nat) (optstring : List (BitVec 8)) (s : Getopt)
    : Run (Int × Getopt) :=
  let s := { s with optarg := none, optopt := 0 }
  match argv[s.optind]? with
  | none => s.noMoreOptchars
  | some arg => do
    let first ← m.get .access arg
    if first ≠ dash then
      s.noMoreOptchars
    else if ← isString m arg [dash] then
      s.noMoreOptchars
    else if ← isString m arg [dash, dash] then
      noMoreOptchars { s with optind := s.optind + 1 }
    else do
      let cursor ← s.cursor m arg
      let optchar ← m.get .access cursor
      readOption { s with optopt := optchar.toInt } m argv optstring optchar cursor

namespace Getopt

/--
Whether `name` is the name of an option, of which `length` characters are compared.
-/
def isName (m : Buffer (BitVec 8)) (o : LongOption) (name length : Nat) : Run Bool := do
  let d ← Stdc.strncmp o.name.bytes (m.get .access) name length
  .ok (d = 0)

/--
The check for an exact match.
-/
def isFullName (m : Buffer (BitVec 8)) (o : LongOption) (name length : Nat) : Run Bool :=
  if o.name.strlen = length then isName m o name o.name.strlen else .ok false

/--
The loop over the long options from number `i` on, of which `num` have matched, the last one of them `found`.
-/
def findLong (m : Buffer (BitVec 8)) (name length : Nat)
    : List LongOption → Nat → Option (Nat × LongOption) → Nat → Run (Option (Nat × LongOption) × Nat)
  | [], _, found, num => .ok (found, num)
  | o :: longopts, i, found, num => do
    if ← isFullName m o name length then
      .ok (some (i, o), 1)
    else if ← isName m o name length then
      findLong m name length longopts (i + 1) (some (i, o)) (num + 1)
    else
      findLong m name length longopts (i + 1) found num

/--
What `*longindex` and `*flag` are when option number `i` has matched.
-/
def store (longindex : Option Nat) (i : Nat) (o : LongOption) (vars : Nat → Int) : Nat → Int :=
  let vars := match longindex with
    | some p => Function.update vars p i
    | none => vars
  match o.flag with
  | some p => Function.update vars p o.val
  | none => vars

/--
The argument of a long option that has matched at `arg`.
-/
def takeLongArg (s : Getopt) (m : Buffer (BitVec 8)) (argv : List Nat) (o : LongOption) (arg : Nat)
    : Run (Int × Getopt) := do
  let value := (← Stdc.strchr m arg equals).map (· + 1)
  match o.hasArg with
  | .no => .ok (if value.isSome then question.toInt else o.ret, { s with optind := s.optind + 1 })
  | .optional => .ok (o.ret, { s with optarg := value, optind := s.optind + 1 })
  | .required =>
    match value with
    | some p => .ok (o.ret, { s with optarg := some p, optind := s.optind + 1 })
    | none =>
      match argv[s.optind + 1]? with
      | some p => .ok (o.ret, { s with optarg := some p, optind := s.optind + 2 })
      | none => .ok (colon.toInt, { s with optarg := none, optind := s.optind + 2 })

/--
What `getopt_long` does about the long option at `arg`.
-/
def readLongOption (s : Getopt) (m : Buffer (BitVec 8)) (argv : List Nat) (longopts : List LongOption)
    (longindex : Option Nat) (arg : Nat)
    : Run (Int × Getopt) := do
  let nameLength ← Stdc.strcspn m (arg + 2) [equals]
  let ⟨found, num⟩ ← findLong m (arg + 2) nameLength longopts 0 none 0
  if num = 1 then
    match found with
    | some (i, o) => takeLongArg { s with vars := store longindex i o s.vars } m argv o arg
    | none => .error .access
  else
    .ok (question.toInt, { s with optind := s.optind + 1 })

end Getopt

def getoptLong (m : Buffer (BitVec 8)) (argv : List Nat) (optstring : List (BitVec 8)) (longopts : List LongOption)
    (longindex : Option Nat) (s : Getopt)
    : Run (Int × Getopt) :=
  let s := { s with optarg := none, optopt := 0 }
  match argv[s.optind]? with
  | none => .ok (-1, s)
  | some arg => do
    let length ← Stdc.strlen m arg
    if length < 3 then
      getopt m argv optstring s
    else do
      let d ← Stdc.strncmp [dash, dash] (m.get .access) arg 2
      if d ≠ 0 then
        getopt m argv optstring s
      else do
        s.readLongOption m argv longopts longindex arg

end Emos.Boot
