import Emos.Boot.Fat.Impl.Fat

/-!
This module contains what the boot loader's FAT driver has in its buffers, and how it gets from one
cluster to the next one.
-/

open Lib

namespace Emos.Boot

/--
Sectors are the blocks of the device, and clusters consist of sectors.
-/
structure FatGeometry.WellFormed (g : FatGeometry) : Prop where
  sectorSize : g.sectorSize = fatSectorSize
  clusterSize : g.clusterSize = g.sectorsPerCluster * fatSectorSize
  sectorsPerCluster : 0 < g.sectorsPerCluster
  reservedSectors : g.reservedSectors < 2 ^ 16

namespace FatData

/--
No call of the device's `read` is going to fail.
-/
def Reliable (d : FatData) : Prop := ∀ k, d.blkdev.fails k = none

def table (d : FatData) : Bytes := d.blkdev.bytesFrom d.geometry.reservedSectors

def next (d : FatData) (cluster : Nat) : Nat :=
  match d.geometry.fatType with
  | .fat12 => FatType.fat12.entryAt d.table cluster
  | .fat16 => FatType.fat16.entryAt d.table cluster
  | .fat32 => FatType.fat32.entryAt d.table cluster % 2 ^ 28

/--
The buffer of the table has the block that it is said to have.
-/
def FatCoherent (d : FatData) : Prop :=
  ∀ lba : Nat, d.fatbufLba = lba → ∀ i, i < fatSectorSize → d.fatbuf i = d.blkdev.block lba i

structure SameData (d d' : FatData) : Prop where
  blkdev : d'.blkdev = d.blkdev
  geometry : d'.geometry = d.geometry
  databufLbaStart : d'.databufLbaStart = d.databufLbaStart
  databuf : d'.databuf = d.databuf
  coherent : d'.FatCoherent

variable {d d' d'' : FatData}

theorem SameData.refl (h : d.FatCoherent) : SameData d d := ⟨rfl, rfl, rfl, rfl, h⟩

theorem SameData.trans (h : SameData d d') (h' : SameData d' d'') : SameData d d'' where
  blkdev := h'.blkdev.trans h.blkdev
  geometry := h'.geometry.trans h.geometry
  databufLbaStart := h'.databufLbaStart.trans h.databufLbaStart
  databuf := h'.databuf.trans h.databuf
  coherent := h'.coherent

theorem SameData.reliable (h : SameData d d') (hd : d.Reliable) : d'.Reliable := by
  unfold Reliable
  rw [h.blkdev]
  exact hd

theorem Reliable.readBlocks_eq (hd : d.Reliable) {count capacity : Nat}
    (hcapacity : count * fatSectorSize ≤ capacity) (lba : Nat) (buf : Bytes)
    : d.readBlocks lba count capacity buf
        =
      .ok ⟨.ok (), overwrite buf (d.blkdev.bytesFrom lba) (count * fatSectorSize),
        { d with readCount := d.readCount + 1 }⟩ := by
  unfold readBlocks
  rw [if_neg (by omega), hd]

theorem bytesFrom_of_lt (dev : BlockDevice) (lba : Nat) {i : Nat} (hi : i < fatSectorSize)
    : dev.bytesFrom lba i = dev.block lba i := by
  unfold BlockDevice.bytesFrom Blocks.flatten
  rw [Nat.div_eq_of_lt hi, Nat.mod_eq_of_lt hi]
  rfl

theorem readFat_spec (hd : d.Reliable) (hcoherent : d.FatCoherent) (fatSector : Nat)
    : ∃ d', d.readFat fatSector = .ok ⟨.ok (), d'⟩ ∧ SameData d d'
        ∧ ∀ i, i < fatSectorSize →
          d'.fatbuf i = d.blkdev.block (u32 (d.geometry.reservedSectors + fatSector)) i := by
  unfold readFat
  dsimp only
  split
  . next hhit => exact ⟨d, rfl, .refl hcoherent, hcoherent _ hhit⟩
  . rw [hd.readBlocks_eq (by omega)]
    have hbuf : ∀ i, i < fatSectorSize →
        overwrite d.fatbuf
          (d.blkdev.bytesFrom (u32 (d.geometry.reservedSectors + fatSector))) (1 * fatSectorSize) i
        = d.blkdev.block (u32 (d.geometry.reservedSectors + fatSector)) i := by
      intro i hi
      unfold overwrite
      rw [if_pos (by omega), bytesFrom_of_lt _ _ hi]
    refine ⟨_, rfl, ⟨rfl, rfl, rfl, rfl, ?_⟩, hbuf⟩
    intro lba hlba
    dsimp only at hlba
    rw [← Int.ofNat_inj.mp hlba]
    exact hbuf

theorem table_of_fatbuf (hg : d.geometry.WellFormed) {k : Nat} (hk : k < 2 ^ 31)
    (hbuf : ∀ i, i < fatSectorSize → d'.fatbuf i
      = d.blkdev.block (u32 (d.geometry.reservedSectors + k / fatSectorSize)) i)
    : d'.fatbuf (k % fatSectorSize) = d.table k := by
  have hreserved := hg.reservedSectors
  have hdiv := Nat.div_le_self k fatSectorSize
  rw [hbuf _ (Nat.mod_lt _ (by decide)), u32_of_lt (by omega)]
  rfl

theorem fatbufAt_one {i : Nat} (hi : i < fatSectorSize)
    : d.fatbufAt i 1 = .ok (d.fatbuf i).toNat := by
  unfold fatbufAt
  rw [if_pos (by omega)]
  rfl

theorem fatEntry12_spec (hg : d.geometry.WellFormed) (hd : d.Reliable) (hcoherent : d.FatCoherent)
    {cluster : Nat} (hcluster : cluster ≤ fat12MaxCluster)
    : ∃ d', d.fatEntry12 cluster = .ok ⟨.ok (FatType.fat12.entryAt d.table cluster), d'⟩
        ∧ SameData d d' := by
  have hindex : (cluster + cluster >>> 1) % 2 ^ 16 = Packed12.index cluster := by
    unfold Packed12.index fat12MaxCluster at *
    rw [Nat.shiftRight_one]
    lia
  have hbound : Packed12.index cluster < 2 ^ 16 := by
    rw [← hindex]
    lia
  have hmod := Nat.mod_lt (Packed12.index cluster) (show 0 < fatSectorSize by decide)
  have hnext := Blocks.next_place (show 2 ≤ fatSectorSize by decide) (Packed12.index cluster)
  obtain ⟨d1, hread1, hsame1, hbuf1⟩ :=
    readFat_spec hd hcoherent (Packed12.index cluster / fatSectorSize)
  have hbyte0 := table_of_fatbuf hg (by lia) hbuf1
  unfold fatEntry12
  dsimp only
  rw [hindex, hg.sectorSize]
  unfold divide
  rw [if_neg (by decide)]
  dsimp only [bind, Except.bind]
  rw [hread1]
  dsimp only
  rw [fatbufAt_one hmod, hbyte0, hsame1.geometry, hg.sectorSize]
  dsimp only
  split
  . next hlast =>
    rw [if_neg (by omega)] at hnext
    obtain ⟨hdiv, hmod'⟩ := Prod.mk.inj hnext
    obtain ⟨d2, hread2, hsame2, hbuf2⟩ := readFat_spec (hsame1.reliable hd) hsame1.coherent
      (Packed12.index cluster / fatSectorSize + 1)
    rw [← hdiv, hsame1.blkdev, hsame1.geometry] at hbuf2
    have hbyte1 := table_of_fatbuf hg (by lia) hbuf2
    rw [hmod'] at hbyte1
    rw [hread2]
    dsimp only
    rw [fatbufAt_one (by decide), hbyte1]
    dsimp only
    rw [BitVec.ofNat_toNat, BitVec.ofNat_toNat, BitVec.setWidth_eq, BitVec.setWidth_eq, fat12Value_eq]
    exact ⟨d2, rfl, hsame1.trans hsame2⟩
  . next hin =>
    rw [if_pos (by lia)] at hnext
    obtain ⟨hdiv, hmod'⟩ := Prod.mk.inj hnext
    rw [← hdiv] at hbuf1
    have hbyte1 := table_of_fatbuf hg (by lia) hbuf1
    rw [hmod'] at hbyte1
    rw [fatbufAt_one (by lia), hbyte1]
    dsimp only
    rw [BitVec.ofNat_toNat, BitVec.ofNat_toNat, BitVec.setWidth_eq, BitVec.setWidth_eq, fat12Value_eq]
    exact ⟨d1, rfl, hsame1⟩

theorem fatEntryWord_spec (hg : d.geometry.WellFormed) (hd : d.Reliable) (hcoherent : d.FatCoherent)
    (width cluster : Nat) (hwidth : width ∣ fatSectorSize) (hcluster : (cluster + 1) * width < 2 ^ 31)
    : ∃ d', d.fatEntryWord width cluster = .ok ⟨.ok (Bytes.read d.table (cluster * width) width), d'⟩
        ∧ SameData d d' := by
  have hwpos : 0 < width := Nat.pos_of_dvd_of_pos hwidth (by decide)
  have hpos : 0 < fatSectorSize / width :=
    Nat.div_pos (Nat.le_of_dvd (by decide) hwidth) hwpos
  have hmul : (cluster + 1) * width = cluster * width + width := by
    rw [Nat.add_mul, Nat.one_mul]
  obtain ⟨d1, hread, hsame, hbuf⟩ := readFat_spec hd hcoherent (cluster / (fatSectorSize / width))
  have hfits : cluster % (fatSectorSize / width) * width + width ≤ fatSectorSize := by
    have hlast := (Blocks.word_place cluster hwidth (show width - 1 < width by omega) (by decide)).2
    have hlt := Nat.mod_lt (cluster * width + (width - 1)) (show 0 < fatSectorSize by decide)
    lia
  have hword : Bytes.read d1.fatbuf (cluster % (fatSectorSize / width) * width) width
      = Bytes.read d.table (cluster * width) width := by
    apply Bytes.read_congr
    intro i hi
    obtain ⟨hdiv, hmod⟩ := Blocks.word_place cluster hwidth hi (by decide)
    rw [← hmod]
    rw [← hdiv] at hbuf
    exact table_of_fatbuf hg (by omega) hbuf
  unfold fatEntryWord
  rw [hg.sectorSize]
  unfold divide
  rw [if_neg (by omega)]
  dsimp only [bind, Except.bind]
  rw [hread]
  dsimp only
  unfold fatbufAt
  rw [if_pos hfits, hword]
  exact ⟨d1, rfl, hsame⟩

theorem fatEntry_spec (hg : d.geometry.WellFormed) (hd : d.Reliable) (hcoherent : d.FatCoherent)
    {cluster : Nat} (hcluster : cluster ≤ d.geometry.fatType.maxCluster)
    : ∃ d', d.fatEntry cluster = .ok ⟨.ok (d.next cluster), d'⟩ ∧ SameData d d' := by
  unfold fatEntry next
  cases htype : d.geometry.fatType with
  | fat12 =>
    rw [htype] at hcluster
    exact fatEntry12_spec hg hd hcoherent hcluster
  | fat16 =>
    rw [htype] at hcluster
    simp only [FatType.maxCluster, fat16MaxCluster] at hcluster
    exact fatEntryWord_spec hg hd hcoherent 2 cluster (by decide) (by omega)
  | fat32 =>
    rw [htype] at hcluster
    simp only [FatType.maxCluster, fat32MaxCluster] at hcluster
    obtain ⟨d1, hword, hsame⟩ :=
      fatEntryWord_spec hg hd hcoherent 4 cluster (by decide) (by omega)
    have hmask := land_mask (Bytes.read d.table (cluster * 4) 4) 28
    rw [show 2 ^ 28 - 1 = 0x0FFFFFFF by decide] at hmask
    dsimp only
    unfold fatEntry32
    rw [hword]
    dsimp only [bind, Except.bind]
    rw [hmask]
    exact ⟨d1, rfl, hsame⟩

def clusterStart (d : FatData) (cluster : Nat) : Nat :=
  match d.geometry.fatType with
  | .fat12 | .fat16 =>
    (cluster - 2) * d.geometry.sectorsPerCluster
      + d.geometry.dataAreaBegin + d.geometry.rootSectorCount
  | .fat32 => (cluster - 2) * d.geometry.sectorsPerCluster + d.geometry.dataAreaBegin

def clusterBytes (d : FatData) (cluster : Nat) : Bytes := d.blkdev.bytesFrom (d.clusterStart cluster)

/--
The cluster is in the data area, all of which has 32 bit addresses.
-/
structure IsCluster (d : FatData) (cluster : Nat) : Prop where
  two_le : 2 ≤ cluster
  lt : cluster < 2 ^ 32
  end_le : d.clusterStart cluster + d.geometry.sectorsPerCluster ≤ 2 ^ 32

/--
The entries of these clusters link each one to the next one, and the last one has an end mark.
-/
structure IsChain (d : FatData) (cs : List Nat) : Prop where
  isCluster : ∀ c ∈ cs, d.IsCluster c
  links : ∀ i c c', cs[i]? = some c → cs[i + 1]? = some c' → d.next c = c'
  last : ∀ i c, cs[i]? = some c → cs[i + 1]? = none → d.geometry.fatType.badCluster < d.next c

/--
The data buffer has the cluster that it is said to have.
-/
def DataCoherent (d : FatData) (cs : List Nat) : Prop :=
  ∀ c ∈ cs, d.databufLbaStart = d.clusterStart c →
    ∀ i, i < d.geometry.clusterSize → d.databuf i = d.clusterBytes c i

/--
A mounted volume that can be read, on which `cs` is a chain.
-/
structure Ready (d : FatData) (cs : List Nat) : Prop where
  wellFormed : d.geometry.WellFormed
  reliable : d.Reliable
  isChain : d.IsChain cs
  fatCoherent : d.FatCoherent
  dataCoherent : d.DataCoherent cs

/--
Up to number `n`, no cluster is one that the driver takes for an end mark.
-/
def Within (d : FatData) (cs : List Nat) (n : Nat) : Prop :=
  ∀ j c, j ≤ n → cs[j]? = some c → c ≤ d.geometry.fatType.maxCluster

def chainBytes (d : FatData) (cs : List Nat) : Bytes :=
  Blocks.flatten (fun i => d.clusterBytes (cs.getD i 0)) d.geometry.clusterSize

structure SameVolume (d d' : FatData) : Prop where
  blkdev : d'.blkdev = d.blkdev
  geometry : d'.geometry = d.geometry

theorem SameVolume.trans (h : SameVolume d d') (h' : SameVolume d' d'') : SameVolume d d'' :=
  ⟨h'.blkdev.trans h.blkdev, h'.geometry.trans h.geometry⟩

theorem SameData.sameVolume (h : SameData d d') : SameVolume d d' := ⟨h.blkdev, h.geometry⟩

namespace SameVolume

variable {cs : List Nat}

theorem reliable (h : SameVolume d d') (hd : d.Reliable) : d'.Reliable := by
  unfold Reliable
  rw [h.blkdev]
  exact hd

theorem next_eq (h : SameVolume d d') (cluster : Nat) : d'.next cluster = d.next cluster := by
  unfold next table
  rw [h.geometry, h.blkdev]

theorem clusterStart_eq (h : SameVolume d d') (cluster : Nat)
    : d'.clusterStart cluster = d.clusterStart cluster := by
  unfold clusterStart
  rw [h.geometry]

theorem clusterBytes_eq (h : SameVolume d d') (cluster : Nat)
    : d'.clusterBytes cluster = d.clusterBytes cluster := by
  unfold clusterBytes
  rw [h.clusterStart_eq, h.blkdev]

theorem chainBytes_eq (h : SameVolume d d') (cs : List Nat) : d'.chainBytes cs = d.chainBytes cs := by
  unfold chainBytes
  simp only [h.clusterBytes_eq, h.geometry]

theorem within (h : SameVolume d d') {n : Nat} (hwithin : d.Within cs n) : d'.Within cs n := by
  unfold Within
  rw [h.geometry]
  exact hwithin

theorem isChain (h : SameVolume d d') (hchain : d.IsChain cs) : d'.IsChain cs where
  isCluster := by
    intro c hc
    have := hchain.isCluster c hc
    refine ⟨this.two_le, this.lt, ?_⟩
    rw [h.clusterStart_eq, h.geometry]
    exact this.end_le
  links := by
    intro i c c' hc hc'
    rw [h.next_eq]
    exact hchain.links i c c' hc hc'
  last := by
    intro i c hc hend
    rw [h.next_eq, h.geometry]
    exact hchain.last i c hc hend

end SameVolume

theorem SameData.ready {cs : List Nat} (h : SameData d d') (hready : d.Ready cs) : d'.Ready cs where
  wellFormed := by
    rw [h.geometry]
    exact hready.wellFormed
  reliable := h.reliable hready.reliable
  isChain := h.sameVolume.isChain hready.isChain
  fatCoherent := h.coherent
  dataCoherent := by
    intro c hc
    rw [h.databufLbaStart, h.databuf, h.sameVolume.clusterStart_eq, h.sameVolume.clusterBytes_eq,
      h.geometry]
    exact hready.dataCoherent c hc

theorem fatclusterToSector_eq {cluster : Nat} (hg : d.geometry.WellFormed)
    (hcluster : d.IsCluster cluster) : d.fatclusterToSector cluster = d.clusterStart cluster := by
  have htwo := hcluster.two_le
  have hlt := hcluster.lt
  have hend := hcluster.end_le
  have hpos := hg.sectorsPerCluster
  unfold clusterStart at *
  unfold fatclusterToSector
  dsimp only
  rw [sub32_of_le htwo hlt]
  cases htype : d.geometry.fatType with
  | fat12 =>
    rw [htype] at hend
    dsimp only at hend
    exact u32_of_lt (by omega)
  | fat16 =>
    rw [htype] at hend
    dsimp only at hend
    exact u32_of_lt (by omega)
  | fat32 =>
    rw [htype] at hend
    dsimp only at hend
    exact u32_of_lt (by omega)

theorem Ready.readCluster_spec {cs : List Nat} (h : d.Ready cs) {cluster : Nat} (hmem : cluster ∈ cs)
    : ∃ d', d.readCluster cluster = .ok ⟨.ok (), d'⟩ ∧ SameVolume d d' ∧ d'.Ready cs
        ∧ ∀ i, i < d.geometry.clusterSize → d'.databuf i = d.clusterBytes cluster i := by
  have hsize := h.wellFormed.clusterSize
  unfold readCluster
  rw [fatclusterToSector_eq h.wellFormed (h.isChain.isCluster _ hmem)]
  unfold readData
  split
  . next hhit => exact ⟨d, rfl, ⟨rfl, rfl⟩, h, h.dataCoherent _ hmem hhit⟩
  . rw [h.reliable.readBlocks_eq (by omega)]
    have hbuf : ∀ i, i < d.geometry.clusterSize →
        overwrite d.databuf (d.blkdev.bytesFrom (d.clusterStart cluster))
          (d.geometry.sectorsPerCluster * fatSectorSize) i = d.clusterBytes cluster i := by
      intro i hi
      unfold overwrite
      rw [if_pos (by omega)]
      rfl
    refine ⟨_, rfl, ⟨rfl, rfl⟩, ⟨h.wellFormed, h.reliable, ?_, h.fatCoherent, ?_⟩, hbuf⟩
    . exact SameVolume.isChain (d := d) ⟨rfl, rfl⟩ h.isChain
    . intro c hc hlba i hi
      have hstart : d.clusterStart cluster = d.clusterStart c := Int.ofNat_inj.mp hlba
      refine (hbuf i hi).trans ?_
      unfold clusterBytes
      rw [hstart]
      rfl

section Next

variable {cs : List Nat}

theorem Ready.nextClusters_succ (h : d.Ready cs) {i c c' : Nat} (hc : cs[i]? = some c)
    (hc' : cs[i + 1]? = some c') (hwithin : d.Within cs (i + 1))
    : ∃ d', SameData d d' ∧ ∀ n, d.nextClusters c (n + 1) = d'.nextClusters c' n := by
  obtain ⟨d', hentry, hsame⟩ := fatEntry_spec h.wellFormed h.reliable h.fatCoherent
    (hwithin i c (by omega) hc)
  have hle := hwithin (i + 1) c' (by omega) hc'
  rw [h.isChain.links i c c' hc hc'] at hentry
  refine ⟨d', hsame, ?_⟩
  intro n
  rw [nextClusters, hentry]
  dsimp only [bind, Except.bind]
  rw [hsame.geometry, if_neg (by omega)]

theorem Ready.nextClusters_spec (h : d.Ready cs) {i n c c' : Nat} (hc : cs[i]? = some c)
    (hwithin : d.Within cs (i + n)) (hc' : cs[i + n]? = some c')
    : ∃ d', d.nextClusters c n = .ok ⟨.success, c', d'⟩ ∧ SameData d d' := by
  induction n generalizing d i c with
  | zero =>
    rw [Nat.add_zero, hc, Option.some.injEq] at hc'
    subst hc'
    exact ⟨d, rfl, .refl h.fatCoherent⟩
  | succ n ih =>
    have hlen : i + 1 < cs.length := by
      have := (List.getElem?_eq_some_iff.mp hc').1
      omega
    obtain ⟨c1, hc1⟩ : ∃ c1, cs[i + 1]? = some c1 := ⟨_, List.getElem?_eq_getElem hlen⟩
    obtain ⟨d1, hsame, hstep⟩ := h.nextClusters_succ hc hc1 fun j c hj => hwithin j c (by omega)
    rw [show i + (n + 1) = i + 1 + n by omega] at hwithin hc'
    obtain ⟨d2, hrest, hsame'⟩ := ih (hsame.ready h) hc1 (hsame.sameVolume.within hwithin) hc'
    rw [hstep]
    exact ⟨d2, hrest, hsame.trans hsame'⟩

theorem Ready.nextClusters_last (h : d.Ready cs) {i c n : Nat} (hc : cs[i]? = some c)
    (hwithin : d.Within cs i) (hend : cs[i + 1]? = none)
    : ∃ c' d', d.nextClusters c (n + 1) = .ok ⟨.endOfList, c', d'⟩ ∧ SameData d d' := by
  obtain ⟨d1, hentry, hsame⟩ := fatEntry_spec h.wellFormed h.reliable h.fatCoherent
    (hwithin i c (by omega) hc)
  have hmark := h.isChain.last i c hc hend
  refine ⟨d.next c, d1, ?_, hsame⟩
  unfold nextClusters
  rw [hentry]
  dsimp only [bind, Except.bind]
  rw [hsame.geometry, if_pos]
  have := d.geometry.fatType.maxCluster_lt_badCluster
  omega

theorem Ready.nextClusters_past (h : d.Ready cs) {i n c : Nat} (hc : cs[i]? = some c)
    (hwithin : d.Within cs cs.length) (hn : cs.length ≤ i + n)
    : ∃ c' d', d.nextClusters c n = .ok ⟨.endOfList, c', d'⟩ ∧ SameData d d' := by
  have hi := (List.getElem?_eq_some_iff.mp hc).1
  induction n generalizing d i c with
  | zero => omega
  | succ n ih =>
    by_cases hlast : i + 1 < cs.length
    . obtain ⟨c1, hc1⟩ : ∃ c1, cs[i + 1]? = some c1 := ⟨_, List.getElem?_eq_getElem hlast⟩
      obtain ⟨d1, hsame, hstep⟩ := h.nextClusters_succ hc hc1 fun j c hj => hwithin j c (by omega)
      obtain ⟨c', d2, hrest, hsame'⟩ :=
        ih (hsame.ready h) hc1 (hsame.sameVolume.within hwithin) (by omega) hlast
      rw [hstep]
      exact ⟨c', d2, hrest, hsame.trans hsame'⟩
    . exact h.nextClusters_last hc (fun j c hj => hwithin j c (by omega))
        (List.getElem?_eq_none (by omega))

theorem getNextCluster_of_le {c : Nat} (hc : c ≤ d.geometry.fatType.maxCluster) (n : Nat)
    : d.getNextCluster c n = d.nextClusters c n := by
  unfold getNextCluster
  rw [if_neg (by omega)]

theorem Ready.clusterSize_pos (h : d.Ready cs) : 0 < d.geometry.clusterSize := by
  rw [h.wellFormed.clusterSize]
  exact Nat.mul_pos h.wellFormed.sectorsPerCluster (by decide)

theorem chainBytes_of_getElem? {k c : Nat} (hc : cs[k / d.geometry.clusterSize]? = some c)
    : d.chainBytes cs k = d.clusterBytes c (k % d.geometry.clusterSize) := by
  unfold chainBytes Blocks.flatten
  dsimp only
  rw [List.getD_eq_getElem?_getD, hc]
  rfl

end Next

end FatData

end Emos.Boot
