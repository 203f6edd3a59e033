import Emos.Basic
import Emos.Lib.Record

/-!
This module contains the records of `bootinfo.h` that the boot loader hands to the kernel, and where the fields of
its structures are. Addresses are counted from the start of the table, so they do not depend on where the table is.
-/

namespace Emos

structure MemoryMapEntry where
  base : UInt64
  size : UInt64
  type : UInt32
  deriving DecidableEq, Repr

namespace MemoryMapEntry

def bemtFree : UInt32 := 1

def isFree (e : MemoryMapEntry) : Bool := e.type = bemtFree

/--
Frame `pfn` lies with all of its bytes inside of the entry.
-/
def Contains (e : MemoryMapEntry) (pfn : Nat) : Prop :=
  e.base.toNat ≤ pfn * pageSize ∧ (pfn + 1) * pageSize ≤ e.base.toNat + e.size.toNat

instance (e : MemoryMapEntry) (pfn : Nat) : Decidable (e.Contains pfn) := by
  unfold Contains
  infer_instance

end MemoryMapEntry

/--
`union bootinfo_unavailable_frame_entry`, without the eight bits between the two fields.
-/
structure UnavailableFrame where
  pfn : BitVec 52
  type : BitVec 4
  deriving DecidableEq, Repr

end Emos

open Lib

namespace Emos

def btvCurrent : Nat := 0

def befRequired : Nat := 1

def beutPagetable : BitVec 4 := 0

def beutKernel : BitVec 4 := 1

def beftText : Nat := 0

def beftDirect : Nat := 1

inductive EntryType where
  | commandArgs
  | loaderInfo
  | memoryMap
  | systemDisk
  | acpiRsdp
  | framebuffer
  | defaultFont
  | bootGraphics
  | unavailableFrames
  | pagetableVpn
  | ramdisk
  deriving DecidableEq, Repr

namespace EntryType

def code : EntryType → Nat
  | commandArgs => 0
  | loaderInfo => 1
  | memoryMap => 2
  | systemDisk => 3
  | acpiRsdp => 4
  | framebuffer => 5
  | defaultFont => 6
  | bootGraphics => 7
  | unavailableFrames => 8
  | pagetableVpn => 9
  | ramdisk => 10

def ofCode? : Nat → Option EntryType
  | 0 => some commandArgs
  | 1 => some loaderInfo
  | 2 => some memoryMap
  | 3 => some systemDisk
  | 4 => some acpiRsdp
  | 5 => some framebuffer
  | 6 => some defaultFont
  | 7 => some bootGraphics
  | 8 => some unavailableFrames
  | 9 => some pagetableVpn
  | 10 => some ramdisk
  | _ => none

@[simp]
theorem ofCode?_code (type : EntryType) : ofCode? type.code = some type := by
  cases type <;> rfl

theorem code_lt (type : EntryType) : type.code < 256 ^ 4 := by
  cases type <;> decide

end EntryType

namespace TableHeader

def sizeof : Nat := 16

def headerSize (t : Bytes) : Nat := t.read 4 4

def entryCount (t : Bytes) : Nat := t.read 8 2

def size (t : Bytes) : Nat := t.read 12 4

def strtab : Nat := 16

end TableHeader

namespace EntryHeader

def sizeof : Nat := 12

def type (t : Bytes) (p : Nat) : Nat := t.read p 4

def flags (t : Bytes) (p : Nat) : Nat := t.read (p + 4) 2

def headerSize (t : Bytes) (p : Nat) : Nat := t.read (p + 6) 2

def size (t : Bytes) (p : Nat) : Nat := t.read (p + 8) 4

end EntryHeader

/--
The sizes of the structures that follow an entry header, without their flexible arrays, and of the
elements of these arrays.
-/
def sizeofCommandArgs : Nat := 4

def sizeofArgOffset : Nat := 4

def sizeofLoaderInfo : Nat := 16

def sizeofMemoryMap : Nat := 4

def sizeofMemoryMapEntry : Nat := 24

def sizeofAcpiRsdp : Nat := 24

def sizeofFramebuffer : Nat := 30

def sizeofUnavailableFrames : Nat := 4

def sizeofUnavailableFrame : Nat := 8

def sizeofPagetableVpn : Nat := 8

namespace MemoryMapEntry

/--
The field `reserved` is not written.
-/
def put (m : Bytes) (p : Nat) (e : MemoryMapEntry) : Bytes :=
  let m := m.write p 8 e.base.toNat
  let m := m.write (p + 8) 8 e.size.toNat
  m.write (p + 16) 4 e.type.toNat

def get (m : Bytes) (p : Nat) : MemoryMapEntry where
  base := UInt64.ofNat (m.read p 8)
  size := UInt64.ofNat (m.read (p + 8) 8)
  type := UInt32.ofNat (m.read (p + 16) 4)

theorem put_eqOn (m : Bytes) (p : Nat) (e : MemoryMapEntry)
    : Set.EqOn (put m p e) m (Set.Ico p (p + sizeofMemoryMapEntry))ᶜ := by
  unfold put sizeofMemoryMapEntry
  refine Bytes.eqOn_trans (s := Set.Ico p (p + 16)) ?_ Bytes.write_eqOn ?_ ?_
  . apply Bytes.eqOn_trans Bytes.write_eqOn Bytes.write_eqOn
    . exact Set.Ico_subset_Ico_right (by omega)
    . exact Set.Ico_subset_Ico (by omega) (by omega)
  . exact Set.Ico_subset_Ico_right (by omega)
  . exact Set.Ico_subset_Ico (by omega) (by omega)

theorem get_eqOn (m m' : Bytes) (p : Nat)
    (h : Set.EqOn m' m (Set.Ico p (p + sizeofMemoryMapEntry)))
    : get m' p = get m p := by
  unfold get
  unfold sizeofMemoryMapEntry at h
  rw [Bytes.read_eqOn (h.mono (Set.Ico_subset_Ico_right (by omega)))]
  rw [Bytes.read_eqOn (h.mono (Set.Ico_subset_Ico (by omega) (by omega)))]
  rw [Bytes.read_eqOn (h.mono (Set.Ico_subset_Ico (by omega) (by omega)))]

theorem get_put (m : Bytes) (p : Nat) (e : MemoryMapEntry) : get (put m p e) p = e := by
  have hbase := e.base.toNat_lt
  have hsize := e.size.toNat_lt
  have htype := e.type.toNat_lt
  have h1 : (put m p e).read p 8 = e.base.toNat := by
    unfold put
    rw [Bytes.read_write_disjoint (by omega)]
    rw [Bytes.read_write_disjoint (by omega)]
    exact Bytes.read_write_of_lt (by omega)
  have h2 : (put m p e).read (p + 8) 8 = e.size.toNat := by
    unfold put
    rw [Bytes.read_write_disjoint (by omega)]
    exact Bytes.read_write_of_lt (by omega)
  have h3 : (put m p e).read (p + 16) 4 = e.type.toNat := by
    unfold put
    exact Bytes.read_write_of_lt (by omega)
  unfold get
  rw [h1, h2, h3]
  simp

def codec : Codec MemoryMapEntry where
  width := sizeofMemoryMapEntry
  put := put
  get := get
  put_eqOn := put_eqOn
  get_eqOn := get_eqOn
  get_put := get_put

end MemoryMapEntry

namespace UnavailableFrame

/--
Assign to the bit field `pfn`, which keeps the bits above it.
-/
def putPfn (m : Bytes) (p : Nat) (pfn : BitVec 52) : Bytes :=
  m.write p 8 (m.read p 8 / 2 ^ 52 * 2 ^ 52 + pfn.toNat)

/--
Assign to the bit field `type`, which keeps the bits below it.
-/
def putType (m : Bytes) (p : Nat) (type : BitVec 4) : Bytes :=
  m.write p 8 (type.toNat * 2 ^ 60 + m.read p 8 % 2 ^ 60)

def put (m : Bytes) (p : Nat) (f : UnavailableFrame) : Bytes := putType (putPfn m p f.pfn) p f.type

def get (m : Bytes) (p : Nat) : UnavailableFrame where
  pfn := BitVec.ofNat 52 (m.read p 8)
  type := BitVec.ofNat 4 (m.read p 8 / 2 ^ 60)

theorem put_eqOn (m : Bytes) (p : Nat) (f : UnavailableFrame)
    : Set.EqOn (put m p f) m (Set.Ico p (p + sizeofUnavailableFrame))ᶜ := by
  unfold put putType putPfn sizeofUnavailableFrame
  exact Bytes.eqOn_trans Bytes.write_eqOn Bytes.write_eqOn (Set.Subset.refl _) (Set.Subset.refl _)

theorem get_eqOn (m m' : Bytes) (p : Nat)
    (h : Set.EqOn m' m (Set.Ico p (p + sizeofUnavailableFrame)))
    : get m' p = get m p := by
  unfold sizeofUnavailableFrame at h
  unfold get
  rw [Bytes.read_eqOn h]

theorem read_put (m : Bytes) (p : Nat) (f : UnavailableFrame)
    : ∃ kept, kept < 2 ^ 8
        ∧ (put m p f).read p 8 = f.type.toNat * 2 ^ 60 + (kept * 2 ^ 52 + f.pfn.toNat) := by
  have hpfn := f.pfn.isLt
  have htype := f.type.isLt
  have hraw := Bytes.read_lt m p 8
  refine ⟨m.read p 8 / 2 ^ 52 % 2 ^ 8, by omega, ?_⟩
  unfold put putType putPfn
  rw [Bytes.read_write_of_lt (by omega)]
  rw [Bytes.read_write_of_lt (by omega)]
  lia

theorem get_put (m : Bytes) (p : Nat) (f : UnavailableFrame) : get (put m p f) p = f := by
  obtain ⟨kept, hkept, hraw⟩ := read_put m p f
  have hpfn := f.pfn.isLt
  have htype := f.type.isLt
  have h1 : BitVec.ofNat 52 ((put m p f).read p 8) = f.pfn := by
    apply BitVec.eq_of_toNat_eq
    rw [BitVec.toNat_ofNat, hraw]
    lia
  have h2 : BitVec.ofNat 4 ((put m p f).read p 8 / 2 ^ 60) = f.type := by
    apply BitVec.eq_of_toNat_eq
    rw [BitVec.toNat_ofNat, hraw]
    lia
  unfold get
  rw [h1, h2]

def codec : Codec UnavailableFrame where
  width := sizeofUnavailableFrame
  put := put
  get := get
  put_eqOn := put_eqOn
  get_eqOn := get_eqOn
  get_put := get_put

end UnavailableFrame

end Emos
