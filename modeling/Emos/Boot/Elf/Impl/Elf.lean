import Emos.Boot.Mm.Impl.Mm
import Emos.Lib.Bytes

/-!
This module contains the loading of a program header of an ELF file of 32 bits.
-/

open Lib Emos.Boot.Mm

namespace Emos.Boot.Elf

/--
A file on a filesystem. Positions are of type `long`.
-/
structure File where
  data : Bytes
  size : Nat
  size_lt : size < 2 ^ 31

/--
The number of bytes that are read if `n` bytes are asked for.
-/
def File.available (f : File) (pos n : Nat) : Nat := min n (f.size - pos)

/--
The fields of `struct elf_file` that are read.
-/
structure ElfFile where
  file : File
  identClass : BitVec 8
  phoff : BitVec 32
  phentsize : BitVec 16
  phnum : BitVec 16

structure Elf32Phdr where
  offset : BitVec 32
  vaddr : BitVec 32
  filesz : BitVec 32
  memsz : BitVec 32
  deriving DecidableEq, Repr

def Elf32Phdr.get (m : Bytes) (p : Nat) : Elf32Phdr where
  offset := .ofNat 32 (m.read (p + 4) 4)
  vaddr := .ofNat 32 (m.read (p + 8) 4)
  filesz := .ofNat 32 (m.read (p + 16) 4)
  memsz := .ofNat 32 (m.read (p + 20) 4)

def elfclass32 : BitVec 8 := 1

/--
The size of `struct elf32_phdr`.
-/
def phdrSize : Nat := 32

/--
What is in the buffer after the header has been read, where `buf` was there before.
-/
def elfGetProgramHeader (elf : ElfFile) (index : Nat) (buf : Bytes) : Except Status Bytes :=
  if elf.identClass ≠ elfclass32 then
    .error .unsupported
  else if index ≥ elf.phnum.toNat then
    .error .invalidValue
  else
    let pos := u32 (elf.phoff.toNat + index * elf.phentsize.toNat)
    let n := elf.file.available pos (min phdrSize elf.phentsize.toNat)
    .ok fun i => if i < n then elf.file.data (pos + i) else buf i

/--
`fread` of one item of `n` bytes at a position in the file.
-/
def fread (m : Memory) (vaddr n : Nat) (file : File) (pos : Nat) : Run Memory :=
  m.storeAll vaddr (file.available pos n) fun i => file.data (pos + i)

/--
`buf` is what the header on the stack holds before it is read.
-/
def elfLoadProgram (elf : ElfFile) (index vaddr : Nat) (buf : Bytes) (m : Memory) : Run (Status × Memory) :=
  if elf.identClass ≠ elfclass32 then
    .ok ⟨.unsupported, m⟩
  else
    match elfGetProgramHeader elf index buf with
    | .error status => .ok ⟨status, m⟩
    | .ok buf => do
      let phdr := Elf32Phdr.get buf 0
      let ⟨status, m⟩ ← mmAllocatePagesTo m (vaddr / pageSize)
        (alignDiv (u32 (vaddr % pageSize + phdr.memsz.toNat)) pageSize)
      if status ≠ .success then
        .ok ⟨status, m⟩
      else
        let m ← fread m vaddr phdr.filesz.toNat elf.file phdr.offset.toNat
        if phdr.memsz > phdr.filesz then
          let m ← memset m (u32 (phdr.vaddr.toNat + phdr.filesz.toNat)) 0
            (phdr.memsz.toNat - phdr.filesz.toNat)
          .ok ⟨.success, m⟩
        else
          .ok ⟨.success, m⟩

end Emos.Boot.Elf
