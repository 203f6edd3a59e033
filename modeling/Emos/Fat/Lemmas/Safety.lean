import Emos.Fat.Lemmas.Geometry

/-!
This module contains what the FAT drivers do with a first sector whose fields are arbitrary.
-/

open Lib

namespace Emos

/--
The file allocation tables and the root directory are inside of the volume.
-/
def Bpb.Fits (bpb : Bpb) : Prop := bpb.areaBegin + bpb.rootDirSectors ≤ bpb.totalSectorCount

instance (bpb : Bpb) : Decidable bpb.Fits :=
  inferInstanceAs (Decidable (bpb.areaBegin + bpb.rootDirSectors ≤ bpb.totalSectorCount))

/--
Whatever else the functions get, none of them divides by zero with this first sector, and none of
them succeeds if the volume is too small.
-/
structure MountSafe (bpb : Bpb) : Prop where
  bootProbe : ∀ dev blockSize, dev.block 0 = bpb.sector
    → Boot.probe dev blockSize ≠ .error .divide
      ∧ (Boot.probe dev blockSize = .ok .success → bpb.Fits)
  bootMount : ∀ dev blockSize create data databuf, dev.block 0 = bpb.sector
    → Boot.mount dev blockSize create data databuf ≠ .error .divide
      ∧ ∀ d, Boot.mount dev blockSize create data databuf = .ok (.ok d) → bpb.Fits
  kernelProbe : ∀ c interface, c.block 0 = bpb.sector
    → Kernel.probe c interface ≠ .error .divide
      ∧ ∀ c', Kernel.probe c interface = .ok ⟨.ok (), c'⟩ → bpb.Fits
  kernelMount : ∀ c create allocate interface mem, c.block 0 = bpb.sector
    → Kernel.mount c create allocate interface mem ≠ .error .divide
      ∧ ∀ v c', Kernel.mount c create allocate interface mem = .ok ⟨.ok v, c'⟩ → bpb.Fits

variable {bpb : Bpb}

theorem Boot.probeClusterCount_returns (hss : bpb.bytesPerSector ≠ 0)
    (hspc : bpb.sectorsPerCluster ≠ 0)
    : ∃ count, probeClusterCount bpb = .ok count := by
  unfold probeClusterCount
  dsimp only
  rw [divide_of_pos (by omega)]
  dsimp only [bind, Except.bind]
  rw [divide_of_pos (by omega)]
  exact ⟨_, rfl⟩

theorem Kernel.probeClusterCount_returns (hss : bpb.bytesPerSector ≠ 0)
    (hspc : bpb.sectorsPerCluster ≠ 0)
    : ∃ count, probeClusterCount bpb = .ok count := by
  unfold probeClusterCount
  dsimp only
  rw [divide_of_pos (by omega)]
  dsimp only [bind, Except.bind]
  rw [divide_of_pos (by omega)]
  exact ⟨_, rfl⟩

theorem Boot.mountGeometry_returns (rootCluster : Nat) (hss : bpb.bytesPerSector ≠ 0)
    (hspc : bpb.sectorsPerCluster ≠ 0)
    : ∃ r, mountGeometry bpb rootCluster = .ok r := by
  unfold mountGeometry
  dsimp only
  rw [divide_of_pos (by omega)]
  dsimp only [bind, Except.bind]
  rw [divide_of_pos (by omega)]
  exact ⟨_, rfl⟩

theorem Kernel.mountVolume_returns (mem : FatVolume) (hss : bpb.bytesPerSector ≠ 0)
    (hspc : bpb.sectorsPerCluster ≠ 0)
    : ∃ r, mountVolume bpb mem = .ok r := by
  unfold mountVolume
  dsimp only
  rw [divide_of_pos (by omega)]
  dsimp only [bind, Except.bind]
  rw [divide_of_pos (by omega)]
  exact ⟨_, rfl⟩

section Returns

variable (hss : bpb.bytesPerSector ≠ 0) (hspc : bpb.sectorsPerCluster ≠ 0)

include hss hspc

theorem Boot.probe_returns {dev : BlockDevice} (blockSize : Except Status Nat)
    (hdev : dev.block 0 = bpb.sector)
    : ∃ status, probe dev blockSize = .ok status := by
  obtain ⟨count, hcount⟩ := Boot.probeClusterCount_returns hss hspc
  unfold probe
  cases blockSize with
  | error status => exact ⟨_, rfl⟩
  | ok blockSize =>
    dsimp only
    split
    . exact ⟨_, rfl⟩
    unfold BlockDevice.readBlock
    cases dev.fails 0 with
    | some failure => exact ⟨_, rfl⟩
    | none =>
      dsimp only
      rw [hdev]
      split
      . exact ⟨_, rfl⟩
      rw [hcount]
      dsimp only [bind, Except.bind]
      split
      . cases dev.fails 1 with
        | some failure => exact ⟨_, rfl⟩
        | none =>
          dsimp only
          split
          . exact ⟨_, rfl⟩
          . exact ⟨_, rfl⟩
      . exact ⟨_, rfl⟩

theorem Boot.mount_returns {dev : BlockDevice} (blockSize : Except Status Nat)
    (create : Option Status) (data : Option FatMemory) (databuf : Option Bytes)
    (hdev : dev.block 0 = bpb.sector)
    : ∃ r, mount dev blockSize create data databuf = .ok r := by
  unfold mount
  cases blockSize with
  | error status => exact ⟨_, rfl⟩
  | ok blockSize =>
    dsimp only
    split
    . exact ⟨_, rfl⟩
    cases create with
    | some status => exact ⟨_, rfl⟩
    | none =>
      cases data with
      | none => exact ⟨_, rfl⟩
      | some data =>
        dsimp only
        unfold BlockDevice.readBlock
        cases dev.fails 0 with
        | some failure => exact ⟨_, rfl⟩
        | none =>
          dsimp only
          rw [hdev]
          split
          . exact ⟨_, rfl⟩
          obtain ⟨⟨geometry, count⟩, hgeometry⟩ :=
            Boot.mountGeometry_returns data.rootCluster hss hspc
          rw [hgeometry]
          dsimp only [bind, Except.bind]
          cases databuf with
          | none => exact ⟨_, rfl⟩
          | some databuf =>
            dsimp only
            split
            . cases dev.fails 1 with
              | some failure => exact ⟨_, rfl⟩
              | none => exact ⟨_, rfl⟩
            . exact ⟨_, rfl⟩

theorem Kernel.probe_returns {c : BlockCache} (interface : Option Status)
    (hc : c.block 0 = bpb.sector)
    : ∃ r, probe c interface = .ok r := by
  obtain ⟨count, hcount⟩ := Kernel.probeClusterCount_returns hss hspc
  unfold probe
  cases interface with
  | some status => exact ⟨_, rfl⟩
  | none =>
    dsimp only
    obtain ⟨status, hfetch⟩ | hfetch := c.fetch_cases 0
    . rw [hfetch]
      exact ⟨_, rfl⟩
    rw [hfetch]
    dsimp only
    rw [hc]
    split
    . exact ⟨_, rfl⟩
    rw [hcount]
    dsimp only [bind, Except.bind]
    split
    . split
      . exact ⟨_, rfl⟩
      . split
        . exact ⟨_, rfl⟩
        . exact ⟨_, rfl⟩
    . exact ⟨_, rfl⟩

theorem Kernel.mount_returns {c : BlockCache} (create allocate interface : Option Status)
    (mem : FatVolume) (hc : c.block 0 = bpb.sector)
    : ∃ r, mount c create allocate interface mem = .ok r := by
  obtain ⟨⟨volume, count⟩, hvolume⟩ := Kernel.mountVolume_returns mem hss hspc
  unfold mount
  split
  . exact ⟨_, rfl⟩
  . exact ⟨_, rfl⟩
  . exact ⟨_, rfl⟩
  obtain ⟨status, hfetch⟩ | hfetch := c.fetch_cases 0
  . rw [hfetch]
    exact ⟨_, rfl⟩
  rw [hfetch]
  dsimp only
  rw [hc]
  split
  . exact ⟨_, rfl⟩
  rw [hvolume]
  dsimp only [bind, Except.bind]
  split
  . split
    . exact ⟨_, rfl⟩
    . split
      . exact ⟨_, rfl⟩
      . exact ⟨_, rfl⟩
  . exact ⟨_, rfl⟩

end Returns

/--
A device with the same bytes in all of its blocks, which never fails.
-/
def Boot.uniformDevice (sector : Bytes) : BlockDevice := ⟨fun _ => sector, fun _ => none⟩

theorem divide_zero (a : Nat) : divide a 0 = .error .divide := rfl

theorem Boot.mountGeometry_divides (rootCluster : Nat)
    (h : bpb.bytesPerSector = 0 ∨ bpb.sectorsPerCluster = 0)
    : mountGeometry bpb rootCluster = .error .divide := by
  unfold mountGeometry
  dsimp only
  by_cases hss : bpb.bytesPerSector = 0
  . rw [hss, divide_zero]
    rfl
  . have hspc : bpb.sectorsPerCluster = 0 := by
      cases h with
      | inl hzero => contradiction
      | inr hspc => exact hspc
    rw [divide_of_pos (by omega), hspc]
    rfl

theorem Boot.mount_uniformDevice (hsigned : bpb.signed = true)
    : (∀ f, mountGeometry bpb 0 = .error f
        → mount (uniformDevice bpb.sector) (.ok 512) none (some ⟨0, 0, fun _ => 0⟩)
            (some fun _ => 0) = .error f)
      ∧ ∀ r, mountGeometry bpb 0 = .ok r
        → ∃ d, mount (uniformDevice bpb.sector) (.ok 512) none (some ⟨0, 0, fun _ => 0⟩)
            (some fun _ => 0) = .ok (.ok d) := by
  unfold mount
  simp only [ne_eq, not_true_eq_false, if_false, BlockDevice.readBlock, uniformDevice, hsigned,
    Bool.not_true, Bool.false_eq_true]
  constructor
  . intro f hf
    rw [hf]
    rfl
  . intro r hr
    rw [hr]
    dsimp only [bind, Except.bind]
    split
    . exact ⟨_, rfl⟩
    . exact ⟨_, rfl⟩

/--
A first sector is safe if and only if sectors and clusters are not empty and the volume has room for
the file allocation tables and the root directory.
-/
theorem mountSafe_iff (bpb : Bpb) (hsigned : bpb.signed = true)
    : MountSafe bpb
        ↔
      bpb.bytesPerSector ≠ 0 ∧ bpb.sectorsPerCluster ≠ 0
        ∧ bpb.areaBegin + bpb.rootDirSectors ≤ bpb.totalSectorCount := by
  constructor
  . intro h
    obtain ⟨hdivide, hfits⟩ := h.bootMount (Boot.uniformDevice bpb.sector) (.ok 512) none
      (some ⟨0, 0, fun _ => 0⟩) (some fun _ => 0) rfl
    obtain ⟨herror, hok⟩ := Boot.mount_uniformDevice hsigned
    by_cases hzero : bpb.bytesPerSector = 0 ∨ bpb.sectorsPerCluster = 0
    . exact absurd (herror _ (Boot.mountGeometry_divides 0 hzero)) hdivide
    . rw [not_or] at hzero
      obtain ⟨r, hr⟩ := Boot.mountGeometry_returns 0 hzero.1 hzero.2
      obtain ⟨d, hd⟩ := hok r hr
      exact ⟨hzero.1, hzero.2, hfits d hd⟩
  . intro ⟨hss, hspc, hfits⟩
    refine ⟨?_, ?_, ?_, ?_⟩
    . intro dev blockSize hdev
      obtain ⟨status, hr⟩ := Boot.probe_returns hss hspc blockSize hdev
      exact ⟨by simp [hr], fun _ => hfits⟩
    . intro dev blockSize create data databuf hdev
      obtain ⟨r, hr⟩ := Boot.mount_returns hss hspc blockSize create data databuf hdev
      exact ⟨by simp [hr], fun _ _ => hfits⟩
    . intro c interface hc
      obtain ⟨r, hr⟩ := Kernel.probe_returns hss hspc interface hc
      exact ⟨by simp [hr], fun _ _ => hfits⟩
    . intro c create allocate interface mem hc
      obtain ⟨r, hr⟩ := Kernel.mount_returns hss hspc create allocate interface mem hc
      exact ⟨by simp [hr], fun _ _ _ => hfits⟩

theorem mountSafe_iff_floppy : MountSafe ⟨floppy⟩ :=
  (mountSafe_iff ⟨floppy⟩ (by decide)).mpr ⟨by decide, by decide, by decide⟩

def onlySignatures : Bytes :=
  sectorOf [(54, [0x46, 0x41, 0x54, 0x31, 0x32, 0x20, 0x20, 0x20]), (510, [0x55, 0xAA])]

/--
The first sector of a floppy disk of a single sector.
-/
def shortFloppy : Bytes :=
  sectorOf [(11, [0, 2, 1, 1, 0, 2, 224, 0, 1, 0, 0xF0, 9, 0]),
    (54, [0x46, 0x41, 0x54, 0x31, 0x32, 0x20, 0x20, 0x20]), (510, [0x55, 0xAA])]

/--
All four functions divide by zero with the first of the sectors. The second one is mounted, and the
number of its clusters is that of a subtraction that wrapped around.
-/
theorem mount_is_not_safe
    : (Bpb.mk onlySignatures).signed = true
        ∧ Boot.probe (Boot.uniformDevice onlySignatures) (.ok 512) = .error .divide
        ∧ Boot.mount (Boot.uniformDevice onlySignatures) (.ok 512) none (some ⟨0, 0, fun _ => 0⟩)
            (some fun _ => 0) = .error .divide
        ∧ Kernel.probe ⟨fun _ => onlySignatures, fun _ => none, 0, []⟩ none = .error .divide
        ∧ Kernel.mount ⟨fun _ => onlySignatures, fun _ => none, 0, []⟩ none none none
            ⟨⟨0, 0, 0, 0⟩, 0, .fat12, 0, 0, 0, 0, 0, 0, 0, 0, 0⟩ = .error .divide
        ∧ (Bpb.mk shortFloppy).signed = true
        ∧ (∃ d, Boot.mount (Boot.uniformDevice shortFloppy) (.ok 512) none
            (some ⟨0, 0, fun _ => 0⟩) (some fun _ => 0) = .ok (.ok d) ∧ d.geometry.fatType = .fat32)
        ∧ (Bpb.mk shortFloppy).totalSectorCount < (Bpb.mk shortFloppy).areaBegin
        ∧ ¬ MountSafe ⟨onlySignatures⟩ ∧ ¬ MountSafe ⟨shortFloppy⟩ := by
  have hdivide : Boot.probe (Boot.uniformDevice onlySignatures) (.ok 512) = .error .divide := rfl
  obtain ⟨d, hd, htype⟩ : ∃ d, Boot.mount (Boot.uniformDevice shortFloppy) (.ok 512) none
      (some ⟨0, 0, fun _ => 0⟩) (some fun _ => 0) = .ok (.ok d) ∧ d.geometry.fatType = .fat32 :=
    ⟨_, rfl, by decide⟩
  refine ⟨by decide, hdivide, rfl, rfl, rfl, by decide, ⟨d, hd, htype⟩, by decide, ?_, ?_⟩
  . intro h
    exact (h.bootProbe _ _ rfl).1 hdivide
  . intro h
    exact absurd ((h.bootMount _ _ _ _ _ rfl).2 d hd) (by decide)

end Emos
