import Emos.Basic
import Emos.Lib.Links
import Mathlib.Logic.Function.Basic

/-!
This module contains the lists of modules, shell commands and filesystems of the boot loader. The
elements are objects in memory: an address that is not allocated has none.
-/

open Lib

namespace Emos.Boot

structure RegistryNode (α β : Type) where
  next : Option α
  data : β
  deriving DecidableEq, Repr

/--
A list of elements with data of type `β`, each of which has a pointer to the next one.
-/
structure Registry (α β : Type) where
  head : Option α
  node : α → Option (RegistryNode α β)

namespace Registry

variable {α β : Type} [DecidableEq α]

/--
Access to an element. Memory that was freed must not be read.
-/
def read (r : Registry α β) (p : α) : Run (RegistryNode α β) :=
  match r.node p with
  | none => .error .access
  | some e => .ok e

def readNext (r : Registry α β) (p : α) : Run (Option α) := do
  let e ← r.read p
  .ok e.next

def setNode (r : Registry α β) (p : α) (e : Option (RegistryNode α β)) : Registry α β :=
  { r with node := Function.update r.node p e }

def setNext (r : Registry α β) (p : α) (next : Option α) : Run (Registry α β) := do
  let e ← r.read p
  .ok (r.setNode p (some { e with next }))

/--
Put an element behind the last one, whose pointer is left as it is. `fuel` bounds the rounds of the
loop.
-/
def append (r : Registry α β) (p : α) (fuel : Nat) : Run (Registry α β) :=
  match r.head with
  | none => .ok { r with head := some p }
  | some head => do
    let last ← Links.last .hang r.readNext fuel head
    r.setNext last (some p)

/--
Put a new element behind the last one.
-/
def appendNew (r : Registry α β) (p : α) (data : β) (junk : Option α) (fuel : Nat) : Run (Registry α β) := do
  let r ← (r.setNode p (some ⟨junk, data⟩)).append p fuel
  r.setNext p none

/--
Take an element out of the list, if there is another one in front of it.
-/
def unlink (r : Registry α β) (p : α) (fuel : Nat) : Run (Option (Registry α β)) :=
  match r.head with
  | none => .ok none
  | some head => do
    let prev ← Links.prev .hang r.readNext p fuel none head
    match prev with
    | none => .ok none
    | some prev => do
      let e ← r.read p
      let r ← r.setNext prev e.next
      .ok (some r)

end Registry

variable {α : Type} [DecidableEq α]

abbrev CommandList (α : Type) := Registry α Unit

def shellCommandRegister (r : CommandList α) (cmd : α) (fuel : Nat) : Run (CommandList α) := r.append cmd fuel

def shellCommandUnregister (r : CommandList α) (cmd : α) (fuel : Nat) : Run (CommandList α) := do
  match ← r.unlink cmd fuel with
  | none => .ok r
  | some r => .ok r

/--
The pages that a module has been loaded to.
-/
structure ModulePages where
  loadVpn : Nat
  programSize : Nat
  deriving DecidableEq, Repr

def ModulePages.range (m : ModulePages) : Nat × Nat := (m.loadVpn, alignDiv m.programSize pageSize)

/--
The list of modules, and the ranges of pages that `mm_free_pages` was called for.
-/
structure ModuleSystem (α : Type) where
  list : Registry α ModulePages
  freed : List (Nat × Nat)

/--
The end of a successful `module_load`, where `mod` is what `malloc` returned and `junk` is what its
pointer held.
-/
def moduleLoad (s : ModuleSystem α) (mod : α) (pages : ModulePages) (junk : Option α) (fuel : Nat)
    : Run (ModuleSystem α) := do
  let list ← s.list.appendNew mod pages junk fuel
  .ok { s with list }

def moduleUnload (s : ModuleSystem α) (mod : α) (fuel : Nat) : Run (ModuleSystem α) := do
  match ← s.list.unlink mod fuel with
  | none => .ok s
  | some list => do
    let e ← list.read mod
    .ok { list := list.setNode mod none, freed := s.freed ++ [e.data.range] }

def filesystemNameMax : Nat := 64

abbrev FilesystemList (α : Type) := Registry α (List (BitVec 8))

/--
`strncmp(p1, p2, maxlen) == 0` for strings without their terminating zero.
-/
def strncmpEq (p1 p2 : List (BitVec 8)) (maxlen : Nat) : Bool := p1.take maxlen = p2.take maxlen

/--
The loop of `filesystem_find` from `current` on.
-/
def filesystemFind (r : FilesystemList α) (name : List (BitVec 8)) : Nat → Option α → Run (Option α)
  | _, none => .ok none
  | 0, some _ => .error .hang
  | fuel + 1, some current => do
    let e ← r.read current
    if strncmpEq e.data name filesystemNameMax then
      .ok (some current)
    else
      filesystemFind r name fuel e.next

/--
`newfs` is what `calloc` returned. The second part of the result is what was stored to `*fsout`.
-/
def filesystemCreate (r : FilesystemList α) (name : List (BitVec 8)) (newfs : Option α) (fuel : Nat)
    : Run (Status × Option α × FilesystemList α) := do
  match ← filesystemFind r name fuel r.head with
  | some _ => .ok (.duplicateEntry, none, r)
  | none =>
    match newfs with
    | none => .ok (.unknownError, none, r)
    | some fs => do
      let r ← r.appendNew fs (name.take (filesystemNameMax - 1)) none fuel
      .ok (.success, some fs, r)

def filesystemRemove (r : FilesystemList α) (fs : α) (fuel : Nat) : Run (FilesystemList α) := do
  match ← r.unlink fs fuel with
  | none => .ok r
  | some r => .ok (r.setNode fs none)

/--
The calls for shell commands.
-/
inductive CommandCall (α : Type) where
  | register (cmd : α)
  | unregister (cmd : α)
  deriving DecidableEq, Repr

inductive ModuleCall (α : Type) where
  | load (mod : α) (pages : ModulePages) (junk : Option α)
  | unload (mod : α)
  deriving DecidableEq, Repr

inductive FilesystemCall (α : Type) where
  | create (name : List (BitVec 8)) (newfs : Option α)
  | remove (fs : α)
  deriving DecidableEq, Repr

/--
The list, and the commands that were registered and not unregistered, in the order in which they were
registered.
-/
structure CommandHistory (α : Type) where
  list : CommandList α
  live : List α

def CommandHistory.step (fuel : Nat) (s : CommandHistory α) : CommandCall α → Run (CommandHistory α)
  | .register cmd => do
    let list ← shellCommandRegister s.list cmd fuel
    .ok ⟨list, s.live ++ [cmd]⟩
  | .unregister cmd => do
    let list ← shellCommandUnregister s.list cmd fuel
    .ok ⟨list, s.live.erase cmd⟩

/--
The list, the modules that were loaded and not unloaded, the pages that each of them was loaded to, and
those that should have been freed.
-/
structure ModuleHistory (α : Type) where
  system : ModuleSystem α
  live : List α
  pages : α → ModulePages
  left : List (Nat × Nat)

def ModuleHistory.step (fuel : Nat) (s : ModuleHistory α) : ModuleCall α → Run (ModuleHistory α)
  | .load mod pages junk => do
    let system ← moduleLoad s.system mod pages junk fuel
    .ok ⟨system, s.live ++ [mod], Function.update s.pages mod pages, s.left⟩
  | .unload mod => do
    let system ← moduleUnload s.system mod fuel
    .ok ⟨system, s.live.erase mod, s.pages,
      if mod ∈ s.live then s.left ++ [(s.pages mod).range] else s.left⟩

structure FilesystemHistory (α : Type) where
  list : FilesystemList α
  live : List α

def FilesystemHistory.step (fuel : Nat) (s : FilesystemHistory α) : FilesystemCall α → Run (FilesystemHistory α)
  | .create name newfs => do
    let ⟨_, fsout, list⟩ ← filesystemCreate s.list name newfs fuel
    .ok ⟨list, s.live ++ fsout.toList⟩
  | .remove fs => do
    let list ← filesystemRemove s.list fs fuel
    .ok ⟨list, s.live.erase fs⟩

end Emos.Boot
