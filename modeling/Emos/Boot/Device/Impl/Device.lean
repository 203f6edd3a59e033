import Emos.Basic
import Emos.Boot.Registry.Impl.Registry
import Emos.Boot.Stdc.Impl.Stdio
import Emos.Boot.Stdc.Impl.String
import Emos.Lib.Links
import Mathlib.Logic.Function.Basic

/-!
This module contains the list of devices of the boot loader, the tree that they form, how they get their names and
how they are found by them. A device is an object of the heap: an address that is not allocated has none.
-/

open Lib

namespace Emos.Boot

/--
The fields of `struct device` that are used here. A name has no terminating zero.
-/
structure Device (α : Type) where
  next : Option α
  sibling : Option α
  parent : Option α
  firstChild : Option α
  name : List (BitVec 8)
  deriving DecidableEq, Repr

/--
`device_list_head` and all devices.
-/
structure DeviceTree (α : Type) where
  head : Option α
  node : α → Option (Device α)

namespace DeviceTree

variable {α : Type} [DecidableEq α]

/--
Access to a device. Memory that was freed must not be read.
-/
def read (t : DeviceTree α) (p : α) : Run (Device α) :=
  match t.node p with
  | none => .error .access
  | some e => .ok e

def readNext (t : DeviceTree α) (p : α) : Run (Option α) := do
  let e ← t.read p
  .ok e.next

def readSibling (t : DeviceTree α) (p : α) : Run (Option α) := do
  let e ← t.read p
  .ok e.sibling

def setNode (t : DeviceTree α) (p : α) (e : Option (Device α)) : DeviceTree α :=
  { t with node := Function.update t.node p e }

def modify (t : DeviceTree α) (p : α) (f : Device α → Device α) : Run (DeviceTree α) := do
  let e ← t.read p
  .ok (t.setNode p (some (f e)))

/--
Put a device behind the last one of the list. `fuel` bounds the rounds of the loop.
-/
def appendDevice (t : DeviceTree α) (dev : α) (fuel : Nat) : Run (DeviceTree α) :=
  match t.head with
  | none => .ok { t with head := some dev }
  | some head => do
    let current ← Links.last .hang t.readNext fuel head
    t.modify current fun e => { e with next := some dev }

/--
Put a device behind the last child of its parent.
-/
def appendChild (t : DeviceTree α) (dev parent : α) (fuel : Nat) : Run (DeviceTree α) := do
  let e ← t.read parent
  match e.firstChild with
  | none => t.modify parent fun e => { e with firstChild := some dev }
  | some child => do
    let current ← Links.last .hang t.readSibling fuel child
    t.modify current fun e => { e with sibling := some dev }

/--
`dev` is what `calloc` returned. The second part of the result is what was stored to `*devout`.
-/
def deviceCreate (t : DeviceTree α) (dev parent : Option α) (fuel : Nat)
    : Run (Status × Option α × DeviceTree α) :=
  match dev with
  | none => .ok (.unknownError, none, t)
  | some dev => do
    let t ← (t.setNode dev (some ⟨none, none, parent, none, []⟩)).appendDevice dev fuel
    match parent with
    | none => .ok (.success, some dev, t)
    | some parent => do
      let t ← t.appendChild dev parent fuel
      .ok (.success, some dev, t)

/--
The loop of `device_remove`, from `current` on.
-/
def findPrev (t : DeviceTree α) (dev : α) : Nat → Option α → Option α → α → Run (Option α × Option α)
  | 0, _, _, _ => .error .hang
  | fuel + 1, prevDevice, prevSibling, current => do
    let e ← t.read current
    match e.next with
    | none => .ok (prevDevice, prevSibling)
    | some next => do
      let prevDevice := if next = dev then some current else prevDevice
      let prevSibling := if e.sibling = some dev then some current else prevSibling
      let d ← t.read dev
      if (d.next.isNone || prevDevice.isSome) && (d.sibling.isNone || prevSibling.isSome) then
        .ok (prevDevice, prevSibling)
      else
        t.findPrev dev fuel prevDevice prevSibling next

def deviceRemove (t : DeviceTree α) (dev : α) (fuel : Nat) : Run (DeviceTree α) :=
  match t.head with
  | none => .ok t
  | some head => do
    let ⟨prevDevice, prevSibling⟩ ← t.findPrev dev fuel none none head
    let t ←
      if head = dev then do
        let head ← t.readNext dev
        .ok { t with head }
      else
        .ok t
    match prevDevice with
    | none => .ok t
    | some prev => do
      let d ← t.read dev
      let t ← t.modify prev fun e => { e with next := d.next }
      let t ←
        match prevSibling with
        | none => .ok t
        | some prev => t.modify prev fun e => { e with sibling := d.sibling }
      .ok (t.setNode dev none)

end DeviceTree

/--
The calls for devices, each with what `calloc` returns in it.
-/
inductive DeviceCall (α : Type) where
  | create (dev parent : Option α)
  | remove (dev : α)
  deriving DecidableEq, Repr

/--
The devices that were created and not removed, in the order in which they were created, and the parent
that each of them was created with.
-/
structure DeviceHistory (α : Type) where
  tree : DeviceTree α
  live : List α
  parentOf : α → Option α

namespace DeviceHistory

variable {α : Type} [DecidableEq α]

def created (s : DeviceHistory α) (parent : Option α) : Option α → DeviceTree α → DeviceHistory α
  | none, tree => { s with tree }
  | some dev, tree => ⟨tree, s.live ++ [dev], Function.update s.parentOf dev parent⟩

def step (fuel : Nat) (s : DeviceHistory α) : DeviceCall α → Run (DeviceHistory α)
  | .create dev parent => do
    let ⟨_, devout, tree⟩ ← s.tree.deviceCreate dev parent fuel
    .ok (s.created parent devout tree)
  | .remove dev => do
    let tree ← s.tree.deviceRemove dev fuel
    .ok { s with tree, live := s.live.erase dev }

end DeviceHistory

end Emos.Boot

namespace Emos.Boot

def deviceNameMax : Nat := 64

namespace DeviceTree

variable {α : Type} [DecidableEq α]

/--
The loop of `device_find` from `current` on.
-/
def deviceFind (t : DeviceTree α) (id : List (BitVec 8)) : Nat → Option α → Run (Status × Option α)
  | _, none => .ok (.entryNotFound, none)
  | 0, some _ => .error .hang
  | fuel + 1, some current => do
    let e ← t.read current
    if strncmpEq e.name id deviceNameMax then
      .ok (.success, some current)
    else
      t.deviceFind id fuel e.next

/--
What `name_end` leads to after a call of `strtol`. It is left as it is if nothing was stored to it.
-/
def nameEndAfter (nameEnd : Option (BitVec 8)) : Option (List (BitVec 8)) → Option (BitVec 8)
  | none => nameEnd
  | some str => some (charAt str)

/--
The loop of `device_generate_name` from `current` on, which gives `id_max`. The character that
`name_end` leads to is unknown as long as nothing was stored to it, and must not be read then.
-/
def findIdMax (t : DeviceTree α) (basename : List (BitVec 8))
    : Nat → Option α → BitVec 32 → Option (BitVec 8) → Run (BitVec 32)
  | _, none, idMax, _ => .ok idMax
  | 0, some _, _, _ => .error .hang
  | fuel + 1, some current, idMax, nameEnd => do
    let e ← t.read current
    if !strncmpEq basename e.name basename.length then
      t.findIdMax basename fuel e.next idMax nameEnd
    else
      let ⟨id, endptr⟩ := strtol (e.name.drop basename.length) 10
      match nameEndAfter nameEnd endptr with
      | none => .error .access
      | some c =>
        if c ≠ 0 then
          t.findIdMax basename fuel e.next idMax (some c)
        else
          t.findIdMax basename fuel e.next (if idMax.slt id then id else idMax) (some c)

/--
The characters that are put into `buf`.
-/
def deviceGenerateName (t : DeviceTree α) (basename : List (BitVec 8)) (len fuel : Nat)
    : Run (List (BitVec 8)) := do
  let idMax ← t.findIdMax basename fuel t.head (-1) none
  .ok (snprintfStrInt len basename (idMax + 1))

end DeviceTree

/--
The creation of a device by a driver, which then names it. `dev` is what `calloc` returns.
-/
structure NamedCreation (α : Type) where
  dev : Option α
  parent : Option α
  basename : List (BitVec 8)
  deriving DecidableEq, Repr

variable {α : Type} [DecidableEq α]

def DeviceHistory.stepNamed (fuel : Nat) (s : DeviceHistory α) (c : NamedCreation α)
    : Run (DeviceHistory α) := do
  let s ← s.step fuel (.create c.dev c.parent)
  match c.dev with
  | none => .ok s
  | some dev => do
    let buf ← s.tree.deviceGenerateName c.basename deviceNameMax fuel
    let tree ← s.tree.modify dev fun e => { e with name := buf.takeWhile (· ≠ 0) }
    .ok { s with tree }

end Emos.Boot
