import Emos.Boot.Registry.Impl.Registry
import Emos.Lib.Links

/-!
This module contains the variables of a shell instance. A variable is an object of the heap: an address
that is not allocated has none.
-/

open Lib

namespace Emos.Boot

/--
`str` holds the key, a zero, the value and another zero.
-/
structure ShellVar (α : Type) where
  next : Option α
  keyLen : Nat
  valueLen : Nat
  str : List (BitVec 8)
  deriving DecidableEq, Repr

/--
`inst->var_list` and all variables.
-/
structure ShellVars (α : Type) where
  varList : Option α
  node : α → Option (ShellVar α)

/--
The string that begins at an offset.
-/
def stringAt (str : List (BitVec 8)) (offset : Nat) : List (BitVec 8) := (str.drop offset).takeWhile (· ≠ 0)

namespace ShellVars

variable {α : Type}

def read (t : ShellVars α) (p : α) : Run (ShellVar α) :=
  match t.node p with
  | none => .error .access
  | some e => .ok e

def readNext (t : ShellVars α) (p : α) : Run (Option α) := do
  let e ← t.read p
  .ok e.next

/--
The first entry from `current` on whose key the string begins with, and the one in front of it, or the
last one if there is none. `fuel` bounds the rounds of the loop.
-/
def find (t : ShellVars α) (key : List (BitVec 8)) : Nat → Option α → Option α → Run (Option α × Option α)
  | _, prevEntry, none => .ok (none, prevEntry)
  | 0, _, some _ => .error .hang
  | fuel + 1, prevEntry, some current => do
    let e ← t.read current
    if strncmpEq e.str key e.keyLen then
      .ok (some current, prevEntry)
    else
      t.find key fuel (some current) e.next

/--
The value, or the status of the failure.
-/
def getVariable (t : ShellVars α) (key : List (BitVec 8)) (fuel : Nat)
    : Run (Except Status (List (BitVec 8))) := do
  match ← t.find key fuel none t.varList with
  | (none, _) => .ok (.error .entryNotFound)
  | (some current, _) => do
    let e ← t.read current
    .ok (.ok (stringAt e.str (e.keyLen + 1)))

variable [DecidableEq α]

def setNode (t : ShellVars α) (p : α) (e : Option (ShellVar α)) : ShellVars α :=
  { t with node := Function.update t.node p e }

def modify (t : ShellVars α) (p : α) (f : ShellVar α → ShellVar α) : Run (ShellVars α) := do
  let e ← t.read p
  .ok (t.setNode p (some (f e)))

/--
`realloc` returns `addr`, and `garbage` is what memory that is new holds.
-/
def realloc (t : ShellVars α) (entry : Option α) (addr : α) (garbage : ShellVar α) : Run (ShellVars α) :=
  match entry with
  | none => .ok (t.setNode addr (some garbage))
  | some p => do
    let e ← t.read p
    .ok ((t.setNode p none).setNode addr (some e))

/--
`memory` is what `realloc` returns and what it finds there. It has a byte more than it was asked for.
-/
def setVariable (t : ShellVars α) (key value : List (BitVec 8)) (memory : Option (α × ShellVar α))
    (fuel : Nat)
    : Run (Status × ShellVars α) := do
  let ⟨tmp, prevEntry⟩ ← t.find key fuel none t.varList
  match memory with
  | none => .ok (.unknownError, t)
  | some (entry, garbage) => do
    let t ← t.realloc tmp entry garbage
    let t ←
      match prevEntry, t.varList with
      | some prevEntry, _ => t.modify prevEntry fun e => { e with next := some entry }
      | none, none => .ok { t with varList := some entry }
      | none, some head =>
        if some head = tmp then
          .ok { t with varList := some entry }
        else do
          let prevEntry ← Links.last .hang t.readNext fuel head
          t.modify prevEntry fun e => { e with next := some entry }
    let t ← t.modify entry fun e =>
      { e with keyLen := key.length, valueLen := value.length, str := key ++ 0 :: value ++ [0, 0] }
    .ok (.success, t)

end ShellVars

end Emos.Boot
