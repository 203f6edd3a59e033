import Emos.Basic
import Emos.Boot.Stdc.Impl.String
import Emos.Lib.Bytes

/-!
This module contains the relocation of modules of the boot loader, and how `module_load` finds the name of a module
in its section `.note.eboot`.
-/

open Lib

namespace Emos.Boot.Module

structure Elf32Rel where
  offset : BitVec 32
  info : BitVec 32
  deriving DecidableEq, Repr

def Elf32Rel.type (e : Elf32Rel) : Nat := e.info.toNat % 256

def Elf32Rel.symIdx (e : Elf32Rel) : Nat := e.info.toNat / 256

/--
The fields of `struct elf32_sym` that are read.
-/
structure Elf32Sym where
  name : BitVec 32
  value : BitVec 32
  shndx : BitVec 16
  deriving DecidableEq, Repr

def Elf32Sym.IsUndef (sym : Elf32Sym) : Prop := sym.shndx = 0

instance (sym : Elf32Sym) : Decidable sym.IsUndef := by
  unfold Elf32Sym.IsUndef
  infer_instance

/--
A section with relocations, where `info` is the index of the section they are for.
-/
structure RelSection where
  info : Nat
  rel : List Elf32Rel

/--
An ELF file with the tables that `elf_open` loads. `strtab` gives the string at an offset.
-/
structure ElfFile where
  identClass : BitVec 8
  sections : List RelSection
  symtab : List Elf32Sym
  strtab : BitVec 32 → List (BitVec 8)

def elfclass32 : BitVec 8 := 1

def r386None : Nat := 0
def r386_32 : Nat := 1
def r386Pc32 : Nat := 2
def r386Got32 : Nat := 3
def r386GlobDat : Nat := 6
def r386JmpSlot : Nat := 7
def r386Relative : Nat := 8
def r386Gotoff : Nat := 9
def r386Gotpc : Nat := 10
def r386Got32x : Nat := 43

def elfGetSectionHeader (elf : ElfFile) (index : Nat) : Except Status RelSection :=
  if elf.identClass ≠ elfclass32 then
    .error .unsupported
  else
    match elf.sections[index]? with
    | none => .error .invalidValue
    | some shdr => .ok shdr

def elfGetSymbol (elf : ElfFile) (index : Nat) : Except Status Elf32Sym :=
  if elf.identClass ≠ elfclass32 then
    .error .unsupported
  else
    match elf.symtab[index]? with
    | none => .error .invalidValue
    | some sym => .ok sym

/--
The symbols of the boot loader that modules can use, in a table that is made by the build.
-/
abbrev ExportedSymbols := List (List (BitVec 8) × BitVec 32)

def moduleFindEbootSymbol (exported : ExportedSymbols) (name : List (BitVec 8)) : Except Status (BitVec 32) :=
  match exported.find? (·.1 = name) with
  | none => .error .entryNotFound
  | some ⟨_, ptr⟩ => .ok ptr

def resolveSymbolAddr (exported : ExportedSymbols) (elf : ElfFile) (sym : Elf32Sym) (loadVaddr : BitVec 32)
    : Except Status (BitVec 32) :=
  if ¬ sym.IsUndef then
    .ok (loadVaddr + sym.value)
  else
    moduleFindEbootSymbol exported (elf.strtab sym.name)

def load32 (m : Bytes) (addr : BitVec 32) : BitVec 32 := .ofNat 32 (m.read addr.toNat 4)

def store32 (m : Bytes) (addr value : BitVec 32) : Bytes := m.write addr.toNat 4 value.toNat

/--
Memory, and the variables that are kept from one round of the loop to the next.
-/
structure RelocState where
  mem : Bytes
  sym : Elf32Sym
  s : BitVec 32

section

variable (exported : ExportedSymbols) (elf : ElfFile) (gotSymbolOffset loadVaddr : BitVec 32)

/--
The symbol and its address at the `switch`, where `st` has those of the rounds before.
-/
def relocSymbol (e : Elf32Rel) (st : RelocState) : Except Status RelocState :=
  if e.type ≠ r386Relative ∧ e.type ≠ r386_32 then do
    let sym ← elfGetSymbol elf e.symIdx
    let s ← resolveSymbolAddr exported elf sym loadVaddr
    .ok { st with sym, s }
  else
    .ok st

/--
The `switch` over the type of the relocation.
-/
def relocStore (e : Elf32Rel) (st : RelocState) : Run Bytes :=
  let b := loadVaddr
  let got := b + gotSymbolOffset
  let p := loadVaddr + e.offset
  let a := load32 st.mem p
  if e.type = r386None then
    .ok st.mem
  else if e.type = r386_32 then
    if st.sym.IsUndef then .ok (store32 st.mem p (b + a)) else .ok (store32 st.mem p (st.s + a))
  else if e.type = r386Pc32 then
    if st.sym.IsUndef then .ok (store32 st.mem p (st.s + a - p)) else .ok st.mem
  else if e.type = r386Got32 ∨ e.type = r386Got32x then
    .ok (store32 st.mem (a + got) st.s)
  else if e.type = r386GlobDat ∨ e.type = r386JmpSlot then
    .ok (store32 st.mem p st.s)
  else if e.type = r386Relative then
    .ok (store32 st.mem p (b + a))
  else if e.type = r386Gotoff then
    if st.sym.IsUndef then .ok (store32 st.mem p (st.s + a - got)) else .ok st.mem
  else if e.type = r386Gotpc then
    if st.sym.IsUndef then .ok (store32 st.mem p (got + a - p)) else .ok st.mem
  else
    .error (.panic .unsupported)

/--
The loop over the entries of the section.
-/
def relocateEntries : List Elf32Rel → RelocState → Run (Status × Bytes)
  | [], st => .ok ⟨.success, st.mem⟩
  | e :: es, st =>
    match relocSymbol exported elf loadVaddr e st with
    | .error status => .ok ⟨status, st.mem⟩
    | .ok st => do
      let mem ← relocStore gotSymbolOffset loadVaddr e st
      relocateEntries es { st with mem }

/--
`st` has what memory and the variables hold before the loop.
-/
def relocateSection (relSectionIdx : Nat) (st : RelocState) : Run (Status × Bytes) :=
  match elfGetSectionHeader elf relSectionIdx with
  | .error status => .ok ⟨status, st.mem⟩
  | .ok shdr =>
    match elfGetSectionHeader elf shdr.info with
    | .error status => .ok ⟨status, st.mem⟩
    | .ok _ => relocateEntries exported elf gotSymbolOffset loadVaddr shdr.rel st

end

end Emos.Boot.Module

namespace Emos.Boot.Module

open Stdc

/--
The memory with the section, as it is read.
-/
abbrev NoteSection := Buffer (BitVec 8)

def NoteSection.byte (sec : NoteSection) (i : Nat) : Run (BitVec 8) := sec.get .access i

def NoteSection.half (sec : NoteSection) (i : Nat) : Run Nat := do
  let lo ← sec.byte i
  let hi ← sec.byte (i + 1)
  .ok (lo.toNat + 256 * hi.toNat)

/-- `sizeof(struct note_eboot_entry)` -/
def noteEbootEntrySize : Nat := 8

/-- "name" -/
def nameKey : List (BitVec 8) := [0x6E, 0x61, 0x6D, 0x65]

/--
The loop over the entries, which is left at an entry for the name. The section is in memory next to the
loader, so that the offset of an entry fits into a `size_t`. A round that goes on to another entry goes on
by a byte at least.
-/
def findName (sec : NoteSection) : Run (Option Nat) := go (sec.size + 1) 0
where
  go : Nat → Nat → Run (Option Nat)
    | 0, _ => .error .hang
    | fuel + 1, offset =>
      if offset < sec.size then do
        let keyLen ← sec.half (offset + 2)
        let difference ← strncmp nameKey sec.byte (offset + noteEbootEntrySize) keyLen
        if difference = 0 then
          .ok (some offset)
        else do
          let entryLen ← sec.half (offset + 6)
          go fuel (offset + entryLen)
      else
        .ok none

/--
`mod_name` once there is one. `memory` is what is in the memory that `malloc` returns for it.
-/
def moduleName (sec : NoteSection) (memory : Option (Nat → BitVec 8)) : Run (Except Status (Buffer (BitVec 8))) := do
  match ← findName sec with
  | none => .ok (.error .invalidValue)
  | some entry => do
    let type ← sec.half entry
    if type ≠ 1 then
      .ok (.error .invalidValue)
    else do
      let keyLen ← sec.half (entry + 2)
      let valueLen ← sec.half (entry + 4)
      match ← strndup sec.byte memory (entry + noteEbootEntrySize + keyLen + 1) (valueLen + 1) with
      | none => .ok (.error .invalidValue)
      | some modName => .ok (.ok modName)

end Emos.Boot.Module
