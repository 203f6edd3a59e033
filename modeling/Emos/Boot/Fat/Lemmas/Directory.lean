import Emos.Boot.Fat.Lemmas.Fat
import Emos.Boot.Fat.Lemmas.Walk
import Mathlib.Data.List.TakeWhile

/-!
This module contains the directories of a volume, and when the boot loader's FAT driver enumerates them
as it should. Root directories of fixed size are read sector by sector, all others cluster by cluster.
-/

open Lib

namespace Emos.Boot

variable {d d' : FatData} {cs : List Nat}

namespace FatData

def rootEntry (d : FatData) (i : Nat) : Direntry := fun k =>
  d.blkdev.bytesFrom d.geometry.dataAreaBegin (32 * i + k)

def chainEntry (d : FatData) (cs : List Nat) (i : Nat) : Direntry := fun k =>
  d.chainBytes cs (32 * i + k)

/--
The data buffer has the sector of the root directory that it is said to have.
-/
def RootCoherent (d : FatData) : Prop :=
  ∀ sector, sector < d.geometry.rootSectorCount →
    d.databufLbaStart = (d.geometry.dataAreaBegin + sector : Nat) →
    ∀ i, i < fatSectorSize → d.databuf i = d.blkdev.block (d.geometry.dataAreaBegin + sector) i

/--
What is found where an entry of the root directory is read again: behind the first sector the buffer has
what was left there earlier.
-/
def rootFetch (d : FatData) (stale : Bytes) (i : Nat) : Run Direntry :=
  if 32 * (i + 1) ≤ d.geometry.clusterSize then
    .ok (if i < 16 then d.rootEntry i else fun k => stale (32 * i + k))
  else
    .error .access

end FatData

section Root

/--
`dir` is a handle of the root directory at position `i`, on the volume of `d`.
-/
structure AtRoot (d : FatData) (stale : Bytes) (d' : FatData) (dir : FatDir) (i : Nat) : Prop where
  sameVolume : d.SameVolume d'
  coherent : d'.RootCoherent
  stale : ∀ k, fatSectorSize ≤ k → d'.databuf k = stale k
  headCluster : dir.headCluster = 0
  index : dir.currentEntryIndex = i
  le : i ≤ d.geometry.rootSectorCount * 16

theorem readSector_spec {stale : Bytes} (hg : d.geometry.WellFormed) (hd : d.Reliable)
    (hcoherent : d.RootCoherent) (hstale : ∀ k, fatSectorSize ≤ k → d.databuf k = stale k)
    {sector : Nat} (hsector : sector < d.geometry.rootSectorCount)
    : ∃ d', d.readSector (d.geometry.dataAreaBegin + sector) = .ok ⟨.ok (), d'⟩ ∧ d.SameVolume d'
        ∧ d'.RootCoherent ∧ (∀ k, fatSectorSize ≤ k → d'.databuf k = stale k)
        ∧ ∀ i, i < fatSectorSize →
          d'.databuf i = d.blkdev.block (d.geometry.dataAreaBegin + sector) i := by
  have hsize := hg.clusterSize
  have hpos := hg.sectorsPerCluster
  have hfits : 1 * fatSectorSize ≤ d.geometry.clusterSize := by
    rw [hsize]
    exact Nat.mul_le_mul_right _ hpos
  unfold FatData.readSector FatData.readData
  split
  . next hhit => exact ⟨d, rfl, ⟨rfl, rfl⟩, hcoherent, hstale, hcoherent _ hsector hhit⟩
  . rw [hd.readBlocks_eq hfits]
    have hbuf : ∀ i, i < fatSectorSize →
        overwrite d.databuf (d.blkdev.bytesFrom (d.geometry.dataAreaBegin + sector))
          (1 * fatSectorSize) i = d.blkdev.block (d.geometry.dataAreaBegin + sector) i := by
      intro i hi
      unfold overwrite
      rw [if_pos (by omega), FatData.bytesFrom_of_lt _ _ hi]
    refine ⟨_, rfl, ⟨rfl, rfl⟩, ?_, ?_, hbuf⟩
    . intro sector' _ hlba
      have hsame : d.geometry.dataAreaBegin + sector = d.geometry.dataAreaBegin + sector' :=
        Int.ofNat_inj.mp hlba
      show ∀ i, i < fatSectorSize → overwrite d.databuf
        (d.blkdev.bytesFrom (d.geometry.dataAreaBegin + sector)) (1 * fatSectorSize) i
          = d.blkdev.block (d.geometry.dataAreaBegin + sector') i
      rw [← hsame]
      exact hbuf
    . intro k hk
      dsimp only
      unfold overwrite
      rw [if_neg (by omega)]
      exact hstale k hk

theorem rootEntry_eq (d : FatData) {i k : Nat} (hk : k < 32)
    : d.blkdev.bytesFrom d.geometry.dataAreaBegin (32 * i + k)
        =
      d.blkdev.block (d.geometry.dataAreaBegin + i / 16) (32 * (i % 16) + k) := by
  unfold BlockDevice.bytesFrom Blocks.flatten fatSectorSize
  dsimp only
  rw [show (32 * i + k) / 512 = i / 16 by lia, show (32 * i + k) % 512 = 32 * (i % 16) + k by lia]

theorem rootWalk (hg : d.geometry.WellFormed) (hd : d.Reliable) (htype : d.geometry.fatType ≠ .fat32)
    (harea : d.geometry.dataAreaBegin + d.geometry.rootSectorCount ≤ 2 ^ 32) (stale : Bytes)
    : Walk true 16 (d.geometry.rootSectorCount * 16) d.rootEntry (d.rootFetch stale) .endOfList
        (AtRoot d stale) where
  pos := by decide
  dvd := Nat.dvd_mul_left _ _
  le := fun _ _ _ h => h.le
  mode := by
    intro fuel stack d1 dir i h
    unfold iterDirectory
    rw [h.sameVolume.geometry, h.headCluster, hg.sectorSize]
    simp only [htype, ne_eq, not_false_eq_true, decide_true, Bool.and_self, if_true]
    rfl
  block := by
    intro d1 dir i h hi
    have hsector : i / 16 < d1.geometry.rootSectorCount := by
      rw [h.sameVolume.geometry]
      omega
    have hg1 : d1.geometry.WellFormed := by
      rw [h.sameVolume.geometry]
      exact hg
    obtain ⟨d2, hread, hsame, hcoherent, hstale, hbuf⟩ :=
      readSector_spec hg1 (h.sameVolume.reliable hd) h.coherent h.stale hsector
    have hvolume := h.sameVolume.trans hsame
    rw [h.sameVolume.geometry, h.sameVolume.blkdev] at hbuf
    have hfits : fatSectorSize ≤ d2.geometry.clusterSize := by
      rw [hvolume.geometry, hg.clusterSize]
      exact Nat.le_mul_of_pos_left _ hg.sectorsPerCluster
    have hdir : dir.at 0 i = dir := by
      rw [← h.index]
      rfl
    refine ⟨d2, dir, 0, ?_, by omega, Nat.dvd_zero _, .inl rfl, ?_, ?_⟩
    . unfold fetchBlock divide
      dsimp only
      rw [if_pos rfl, if_neg (by decide), h.index]
      dsimp only [bind, Except.bind]
      rw [if_neg (by omega), h.sameVolume.geometry, u32_of_lt (by rw [h.sameVolume.geometry] at hsector; omega)]
      rw [h.sameVolume.geometry] at hread
      rw [hread, hdir]
    . intro k hk
      have hplace : ∀ x : Fin 32, d2.databuf (32 * (i % 16 + k) + x) = d.rootEntry (i + k) x := by
        intro x
        have hx := x.isLt
        unfold FatData.rootEntry
        rw [rootEntry_eq d hx, hbuf _ (by unfold fatSectorSize; lia)]
        rw [show (i + k) / 16 = i / 16 by lia, show (i + k) % 16 = i % 16 + k by lia]
      unfold fatSectorSize at hfits
      unfold FatData.entryAt FatData.rootFetch
      constructor
      . rw [if_pos (by lia)]
        congr 1
        funext x
        exact hplace x
      . rw [Nat.sub_zero, ← hvolume.geometry]
        split
        . congr 1
          split
          . funext x
            have := hplace x
            rw [show i % 16 + k = i + k by lia] at this
            exact this
          . funext x
            exact hstale _ (by unfold fatSectorSize; omega)
        . rfl
    . intro j e hij hj
      refine ⟨hvolume, hcoherent, hstale, h.headCluster, rfl, ?_⟩
      lia
  stop := by
    intro d1 dir h
    refine ⟨d1, dir, ?_⟩
    unfold fetchBlock divide
    rw [if_pos rfl, if_neg (by decide), h.index, h.sameVolume.geometry,
      Nat.mul_div_cancel _ (by decide)]
    dsimp only [bind, Except.bind]
    rw [if_pos (Nat.le_refl _)]

end Root

section Chain

/--
The clusters that the driver gets to. It takes any first cluster, but behind a number above
`maxCluster` it does not go on.
-/
def visited (maxCluster : Nat) : List Nat → List Nat
  | [] => []
  | c :: cs => c :: if c ≤ maxCluster then cs.takeWhile (· ≤ maxCluster) else []

/--
What `get_next_cluster` returns behind the clusters that the driver gets to.
-/
def lastStatus (maxCluster : Nat) (cs : List Nat) : Status :=
  if cs.headD 0 ≤ maxCluster then .endOfList else .invalidValue

theorem lastStatus_ne_success (maxCluster : Nat) (cs : List Nat)
    : lastStatus maxCluster cs ≠ .success := by
  unfold lastStatus
  split
  . decide
  . decide

theorem visited_prefix (maxCluster : Nat) (cs : List Nat) : visited maxCluster cs <+: cs := by
  cases cs with
  | nil => exact List.nil_prefix
  | cons c cs =>
    rw [visited, List.cons_prefix_cons]
    refine ⟨rfl, ?_⟩
    split
    . exact List.takeWhile_prefix _
    . exact List.nil_prefix

theorem getElem?_of_visited {maxCluster b c : Nat} (h : (visited maxCluster cs)[b]? = some c)
    : cs[b]? = some c := by
  obtain ⟨rest, hrest⟩ := visited_prefix maxCluster cs
  have hlt := (List.getElem?_eq_some_iff.mp h).1
  rw [← hrest, List.getElem?_append_left hlt]
  exact h

theorem visited_le {maxCluster c : Nat} (hhead : cs.headD 0 ≤ maxCluster)
    (hc : c ∈ visited maxCluster cs) : c ≤ maxCluster := by
  cases cs with
  | nil => contradiction
  | cons c0 cs =>
    have hhead : c0 ≤ maxCluster := hhead
    rw [visited, if_pos hhead, List.mem_cons] at hc
    rcases hc with rfl | hc
    . exact hhead
    . simpa using List.mem_takeWhile_imp hc

theorem visited_length_of_gt {maxCluster : Nat} (hhead : maxCluster < cs.headD 0)
    : (visited maxCluster cs).length ≤ 1 := by
  cases cs with
  | nil => exact Nat.zero_le _
  | cons c0 cs =>
    have hhead : maxCluster < c0 := hhead
    rw [visited, if_neg (by omega)]
    exact Nat.le_refl _

theorem lt_of_behind_visited {maxCluster c : Nat} (hhead : cs.headD 0 ≤ maxCluster)
    (hc : cs[(visited maxCluster cs).length]? = some c) : maxCluster < c := by
  cases cs with
  | nil => contradiction
  | cons c0 cs =>
    have hhead : c0 ≤ maxCluster := hhead
    rw [visited, if_pos hhead, List.length_cons, List.getElem?_cons_succ] at hc
    have hsplit := @List.takeWhile_append_dropWhile _ (fun c => decide (c ≤ maxCluster)) cs
    have hdrop : (cs.dropWhile fun c => decide (c ≤ maxCluster)).head? = some c := by
      rw [← hsplit, List.getElem?_append_right (by simp)] at hc
      rw [List.head?_eq_getElem?]
      simpa using hc
    have hnot := List.head?_dropWhile_not (fun c => decide (c ≤ maxCluster)) cs
    rw [hdrop] at hnot
    simpa using hnot

theorem getNextCluster_visited (h : d.Ready cs) {b c : Nat}
    (hc : (visited d.geometry.fatType.maxCluster cs)[b]? = some c)
    : ∃ status c' d', d.getNextCluster c 1 = .ok ⟨status, c', d'⟩ ∧ d.SameData d'
        ∧ (b + 1 < (visited d.geometry.fatType.maxCluster cs).length → status = .success
          ∧ (visited d.geometry.fatType.maxCluster cs)[b + 1]? = some c')
        ∧ (b + 1 = (visited d.geometry.fatType.maxCluster cs).length →
          status = lastStatus d.geometry.fatType.maxCluster cs) := by
  have hlt := (List.getElem?_eq_some_iff.mp hc).1
  have hc0 := getElem?_of_visited hc
  unfold lastStatus
  by_cases hhead : cs.headD 0 ≤ d.geometry.fatType.maxCluster
  . have hle := visited_le hhead (List.mem_of_getElem? hc)
    obtain ⟨d', hentry, hsame⟩ := FatData.fatEntry_spec h.wellFormed h.reliable h.fatCoherent hle
    rw [FatData.getNextCluster_of_le hle, FatData.nextClusters, hentry]
    dsimp only [bind, Except.bind]
    rw [hsame.geometry, if_pos hhead]
    by_cases hmore : b + 1 < (visited d.geometry.fatType.maxCluster cs).length
    . obtain ⟨c', hc'⟩ : ∃ c', (visited d.geometry.fatType.maxCluster cs)[b + 1]? = some c' :=
        ⟨_, List.getElem?_eq_getElem hmore⟩
      have hle' := visited_le hhead (List.mem_of_getElem? hc')
      rw [h.isChain.links b c c' hc0 (getElem?_of_visited hc'), if_neg (by omega)]
      exact ⟨_, _, d', rfl, hsame, fun _ => ⟨rfl, hc'⟩, fun _ => by omega⟩
    . have hgt : d.geometry.fatType.maxCluster < d.next c := by
        cases hnext : cs[b + 1]? with
        | none =>
          have := h.isChain.last b c hc0 hnext
          have := d.geometry.fatType.maxCluster_lt_badCluster
          omega
        | some c' =>
          rw [h.isChain.links b c c' hc0 hnext]
          rw [show b + 1 = (visited d.geometry.fatType.maxCluster cs).length by omega] at hnext
          exact lt_of_behind_visited hhead hnext
      rw [if_pos hgt]
      exact ⟨_, _, d', rfl, hsame, fun _ => by omega, fun _ => rfl⟩
  . have hlen := visited_length_of_gt (show d.geometry.fatType.maxCluster < cs.headD 0 by omega)
    have hb : b = 0 := by omega
    subst hb
    have hfirst : cs.headD 0 = c := by
      rw [List.headD_eq_head?_getD, List.head?_eq_getElem?, hc0]
      rfl
    unfold FatData.getNextCluster
    rw [if_pos (by omega), if_neg hhead]
    exact ⟨_, _, d, rfl, .refl h.fatCoherent, fun _ => by omega, fun _ => rfl⟩

theorem readCluster_visited {d1 : FatData} (hvolume : d.SameVolume d1) (h : d1.Ready cs) {b c epb : Nat}
    (hepb : d.geometry.clusterSize = 32 * epb)
    (hc : (visited d.geometry.fatType.maxCluster cs)[b]? = some c)
    : ∃ d2, d1.readCluster c = .ok ⟨.ok (), d2⟩ ∧ d.SameVolume d2 ∧ d2.Ready cs
        ∧ ∀ r, r < epb → d2.entryAt r
          = .ok (d.chainEntry (visited d.geometry.fatType.maxCluster cs) (b * epb + r)) := by
  have hmem := List.mem_of_getElem? (getElem?_of_visited hc)
  obtain ⟨d2, hread, hsame, hready, hbuf⟩ := h.readCluster_spec hmem
  have hvolume2 := hvolume.trans hsame
  refine ⟨d2, hread, hvolume2, hready, ?_⟩
  intro r hr
  unfold FatData.entryAt FatData.chainEntry
  rw [hvolume2.geometry, hepb, if_pos (by omega)]
  congr 1
  funext k
  have hk := k.isLt
  have hplace : 32 * (b * epb + r) + k = 32 * epb * b + (32 * r + k) := by ring
  have hlt : 32 * r + k < 32 * epb := by omega
  have hdiv : (32 * (b * epb + r) + k) / d.geometry.clusterSize = b := by
    rw [hepb, hplace, Nat.mul_add_div (by omega), Nat.div_eq_of_lt hlt, Nat.add_zero]
  have hmod : (32 * (b * epb + r) + k) % d.geometry.clusterSize = 32 * r + k := by
    rw [hepb, hplace, Nat.mul_add_mod, Nat.mod_eq_of_lt hlt]
  rw [FatData.chainBytes_of_getElem? (by rw [hdiv]; exact hc), hmod]
  rw [hbuf _ (by rw [hvolume.geometry, hepb]; exact hlt), hvolume.clusterBytes_eq]

/--
`dir` is a handle of the directory at position `i`, on the volume of `d`.
-/
structure AtChain (d : FatData) (cs : List Nat) (epb : Nat) (d' : FatData) (dir : FatDir) (i : Nat)
    : Prop where
  sameVolume : d.SameVolume d'
  ready : d'.Ready cs
  headCluster : dir.headCluster = cs.headD 0
  position : ∃ b, (visited d.geometry.fatType.maxCluster cs)[b]? = some dir.currentCluster
    ∧ dir.currentEntryIndex ≤ epb ∧ i = b * epb + dir.currentEntryIndex

theorem AtChain.block {d1 : FatData} {dir : FatDir} {b epb i : Nat}
    (hepb : d.geometry.clusterSize = 32 * epb) (hvolume : d.SameVolume d1) (h : d1.Ready cs)
    (hhead : dir.headCluster = cs.headD 0)
    (hc : (visited d.geometry.fatType.maxCluster cs)[b]? = some dir.currentCluster)
    (hindex : dir.currentEntryIndex < epb) (hi : i = b * epb + dir.currentEntryIndex)
    : ∃ d2, d1.readCluster dir.currentCluster = .ok ⟨.ok (), d2⟩
        ∧ i - b * epb + (epb - i % epb) ≤ epb
        ∧ (∀ k, k < epb - i % epb →
          d2.entryAt (i % epb + k)
            = .ok (d.chainEntry (visited d.geometry.fatType.maxCluster cs) (i + k))
          ∧ d2.entryAt (i + k - b * epb)
            = .ok (d.chainEntry (visited d.geometry.fatType.maxCluster cs) (i + k)))
        ∧ ∀ j e, i ≤ j → j ≤ i + (epb - i % epb) →
          AtChain d cs epb d2 { dir.at (b * epb) j with direntry := e } j := by
  obtain ⟨d2, hread, hvolume2, hready2, hentries⟩ := readCluster_visited hvolume h hepb hc
  have hmod : i % epb = dir.currentEntryIndex := by
    rw [hi, Nat.mul_comm, Nat.mul_add_mod, Nat.mod_eq_of_lt hindex]
  refine ⟨d2, hread, by lia, ?_, ?_⟩
  . intro k hk
    have hentry := hentries (dir.currentEntryIndex + k) (by lia)
    rw [← Nat.add_assoc, ← hi] at hentry
    rw [show i + k - b * epb = dir.currentEntryIndex + k by lia, hmod]
    exact ⟨hentry, hentry⟩
  . intro j e hj hj'
    refine ⟨hvolume2, hready2, hhead, b, hc, ?_, ?_⟩
    . show j - b * epb ≤ epb
      lia
    . show j = b * epb + (j - b * epb)
      lia

theorem iterDirectory_chain {dir : FatDir} (hhead : dir.headCluster ≠ 0) (fuel : Nat)
    (stack : LfnBuf)
    : iterDirectory fuel stack d dir
        =
      findEntry false (d.geometry.clusterSize % 2 ^ 16 / 32) fuel d dir stack false := by
  unfold iterDirectory
  rw [decide_eq_false hhead, Bool.and_false]
  rfl

theorem chainWalk {epb : Nat} (hepb : d.geometry.clusterSize = 32 * epb) (hpos : 0 < epb)
    (hlt : d.geometry.clusterSize < 2 ^ 16) (hhead : cs.headD 0 ≠ 0)
    : Walk false epb ((visited d.geometry.fatType.maxCluster cs).length * epb)
        (d.chainEntry (visited d.geometry.fatType.maxCluster cs))
        (fun i => .ok (d.chainEntry (visited d.geometry.fatType.maxCluster cs) i))
        (lastStatus d.geometry.fatType.maxCluster cs) (AtChain d cs epb) where
  pos := hpos
  dvd := Nat.dvd_mul_left _ _
  le := by
    intro d1 dir i h
    obtain ⟨b, hc, hindex, hi⟩ := h.position
    have hb := (List.getElem?_eq_some_iff.mp hc).1
    calc i
      _ ≤ b * epb + epb := by omega
      _ = (b + 1) * epb := by ring
      _ ≤ _ := Nat.mul_le_mul_right _ hb
  mode := by
    intro fuel stack d1 dir i h
    rw [iterDirectory_chain (by rw [h.headCluster]; exact hhead), h.sameVolume.geometry]
    rw [Nat.mod_eq_of_lt hlt, hepb, Nat.mul_div_cancel_left _ (by decide)]
  block := by
    intro d1 dir i h hi
    obtain ⟨b, hc, hindex, hib⟩ := h.position
    by_cases hin : dir.currentEntryIndex < epb
    . obtain ⟨d2, hread, hlast, hentries, hat⟩ :=
        AtChain.block hepb h.sameVolume h.ready h.headCluster hc hin hib
      refine ⟨d2, dir, b * epb, ?_, by omega, Nat.dvd_mul_left _ _, .inr hlast, hentries, hat⟩
      unfold fetchBlock
      rw [if_neg (by decide), if_neg (by omega)]
      dsimp only [bind, Except.bind, pure, Except.pure]
      rw [if_neg (by decide), hread, hib, FatDir.at_add]
    . -- the handle is behind the last entry of a cluster
      have hnext : i = (b + 1) * epb := by
        rw [hib, Nat.add_mul, Nat.one_mul]
        omega
      have hmore : b + 1 < (visited d.geometry.fatType.maxCluster cs).length := by
        rw [hnext] at hi
        exact Nat.lt_of_mul_lt_mul_right hi
      rw [← h.sameVolume.geometry] at hc hmore
      obtain ⟨status, c', d2, hstep, hsame, hgo, _⟩ := getNextCluster_visited h.ready hc
      obtain ⟨hstatus, hc'⟩ := hgo hmore
      subst hstatus
      rw [h.sameVolume.geometry] at hc'
      let dir' : FatDir := { dir with currentEntryIndex := 0, currentCluster := c' }
      obtain ⟨d3, hread, hlast, hentries, hat⟩ : ∃ d3, d2.readCluster dir'.currentCluster = _ ∧ _ :=
        AtChain.block hepb (h.sameVolume.trans hsame.sameVolume) (hsame.ready h.ready) h.headCluster
          hc' hpos hnext
      refine ⟨d3, dir', (b + 1) * epb, ?_, by omega, Nat.dvd_mul_left _ _, .inr hlast, hentries, hat⟩
      unfold fetchBlock
      rw [if_neg (by decide), if_pos (by omega), hstep]
      dsimp only [bind, Except.bind, pure, Except.pure]
      rw [if_neg (by decide), if_neg (by decide), hread, hnext]
      unfold FatDir.at
      rw [Nat.sub_self]
  stop := by
    intro d1 dir h
    obtain ⟨b, hc, hindex, hib⟩ := h.position
    have hb := (List.getElem?_eq_some_iff.mp hc).1
    have hlast : b + 1 = (visited d.geometry.fatType.maxCluster cs).length
        ∧ dir.currentEntryIndex = epb := by
      have hmul : (b + 1) * epb ≤ (visited d.geometry.fatType.maxCluster cs).length * epb :=
        Nat.mul_le_mul_right _ hb
      rw [Nat.add_mul, Nat.one_mul] at hmul
      have hfull : dir.currentEntryIndex = epb := by lia
      refine ⟨Nat.eq_of_mul_eq_mul_right hpos ?_, hfull⟩
      rw [hib, hfull, Nat.add_mul, Nat.one_mul]
    rw [← h.sameVolume.geometry] at hc
    obtain ⟨status, c', d2, hstep, hsame, _, hend⟩ := getNextCluster_visited h.ready hc
    rw [h.sameVolume.geometry] at hend
    rw [hend hlast.1] at hstep
    refine ⟨d2, dir, ?_⟩
    have hfail := lastStatus_ne_success d.geometry.fatType.maxCluster cs
    unfold fetchBlock
    rw [if_neg (by decide), if_pos (by omega), hstep]
    dsimp only [bind, Except.bind, pure, Except.pure]
    rw [if_pos hfail, if_pos hfail]

theorem findEntry_wide {dir : FatDir} {b fuel : Nat} {buf : LfnBuf} {isLfn : Bool} (h : d.Ready cs)
    (hc : (visited d.geometry.fatType.maxCluster cs)[b]? = some dir.currentCluster)
    (hfuel : (visited d.geometry.fatType.maxCluster cs).length - b ≤ fuel)
    : ∃ d' dir', findEntry false 0 fuel d dir buf isLfn
        = .ok ⟨.error (lastStatus d.geometry.fatType.maxCluster cs), d', dir'⟩ := by
  induction fuel generalizing d dir b with
  | zero =>
    have hb := (List.getElem?_eq_some_iff.mp hc).1
    omega
  | succ fuel ih =>
    have hb := (List.getElem?_eq_some_iff.mp hc).1
    obtain ⟨status, c', d1, hstep, hsame, hgo, hend⟩ := getNextCluster_visited h hc
    rw [findEntry]
    unfold fetchBlock
    rw [if_neg (by decide), if_pos (Nat.zero_le _), hstep]
    dsimp only [bind, Except.bind, pure, Except.pure]
    by_cases hmore : b + 1 < (visited d.geometry.fatType.maxCluster cs).length
    . obtain ⟨hstatus, hc'⟩ := hgo hmore
      subst hstatus
      have hready := hsame.ready h
      obtain ⟨d2, hread, hsame2, hready2, _⟩ :=
        hready.readCluster_spec (List.mem_of_getElem? (getElem?_of_visited hc'))
      rw [if_neg (by decide), if_neg (by decide), hread]
      dsimp only
      rw [scanBlock]
      dsimp only
      rw [← hsame.geometry, ← hsame2.geometry] at hc' hfuel ⊢
      exact ih (b := b + 1) hready2 hc' (by lia)
    . rw [hend (by omega)]
      have hfail := lastStatus_ne_success d.geometry.fatType.maxCluster cs
      rw [if_pos hfail, if_pos hfail]
      exact ⟨d1, dir, rfl⟩

end Chain

/--
A directory: the root directory of fixed size, or a chain of clusters.
-/
inductive Directory where
  | root
  | chain (cs : List Nat)

namespace Directory

/--
The directory is one of the volume, whose clusters have at most 128 sectors.
-/
def IsOn : Directory → FatData → Prop
  | .root, d =>
    d.geometry.fatType ≠ .fat32
      ∧ d.geometry.dataAreaBegin + d.geometry.rootSectorCount ≤ 2 ^ 32
  | .chain cs, d => d.IsChain cs ∧ cs ≠ [] ∧ d.geometry.sectorsPerCluster ≤ 128

def headCluster : Directory → Nat
  | .root => 0
  | .chain cs => cs.headD 0

def Coherent : Directory → FatData → Prop
  | .root, d => d.RootCoherent
  | .chain cs, d => d.FatCoherent ∧ d.DataCoherent cs

def entries : Directory → FatData → List Direntry
  | .root, d => (List.range' 0 (d.geometry.rootSectorCount * 16)).map d.rootEntry
  | .chain cs, d =>
    (List.range' 0 (cs.length * (d.geometry.clusterSize / 32))).map (d.chainEntry cs)

/--
The entries that the driver gets to see.
-/
def seen : Directory → FatData → List Direntry
  | .root, d => Directory.root.entries d
  | .chain cs, d =>
    if d.geometry.clusterSize < 2 ^ 16 then
      (Directory.chain (visited d.geometry.fatType.maxCluster cs)).entries d
    else
      []

/--
What is returned when there is no further block.
-/
def last : Directory → FatData → Status
  | .root, _ => .endOfList
  | .chain cs, d => lastStatus d.geometry.fatType.maxCluster cs

/--
An enumeration of the directory reports each of its items, in their order, with the name and size of the
item and its entry saved, whatever was in the buffers and on the stack before.
-/
def Enumerates (directory : Directory) (d : FatData) : Prop :=
  ∀ (d' : FatData) (dir : FatDir) (stack : Nat → LfnBuf), d.SameVolume d' → directory.Coherent d' →
    dir.headCluster = directory.headCluster →
    ∃ n, ∀ fuel, n ≤ fuel →
      enumerate fuel stack fuel 0 d' (rewindDirectory dir)
        = .ok ⟨reports stack 0 (listing (directory.entries d) 0 [] false), .endOfList⟩

/--
The driver gets to all items of the directory and to an end of it, items of a root directory are in its
first sector, there is room for all fragments of long names, and no character of a short name that is
turned into lower case is beyond ASCII.
-/
structure Plain (directory : Directory) (d : FatData) : Prop where
  complete : listing (directory.seen d) 0 [] false = listing (directory.entries d) 0 [] false
  ends : Ends (directory.last d) (directory.seen d)
  firstSector : directory = .root → ∀ item ∈ listing (directory.seen d) 0 [] false, item.index < 16
  fragments : FragmentsFit (directory.seen d)
  ascii : ∀ item ∈ listing (directory.seen d) 0 [] false, item.isLfn ∨ item.direntry.IsAscii

end Directory

def FatData.blank (d : FatData) : FatData :=
  { d with fatbufLba := -1, databufLbaStart := -1, databuf := fun _ => 0 }

theorem FatData.blank_coherent (d : FatData) (directory : Directory)
    : d.SameVolume d.blank ∧ directory.Coherent d.blank := by
  have hnone : ∀ n : Nat, (-1 : Int) ≠ n := by
    intro n
    omega
  refine ⟨⟨rfl, rfl⟩, ?_⟩
  cases directory with
  | root => exact fun _ _ h => absurd h (hnone _)
  | chain cs => exact ⟨fun _ h => absurd h (hnone _), fun _ _ h => absurd h (hnone _)⟩

theorem clusterSize_eq (hg : d.geometry.WellFormed)
    : d.geometry.clusterSize = 32 * (d.geometry.clusterSize / 32) := by
  have := hg.clusterSize
  unfold fatSectorSize at this
  lia

theorem chainEntry_prefix {cs' : List Nat} (hg : d.geometry.WellFormed) (hcs : cs' <+: cs) {i : Nat}
    (hi : i < cs'.length * (d.geometry.clusterSize / 32)) : d.chainEntry cs' i = d.chainEntry cs i := by
  have hsize := clusterSize_eq hg
  obtain ⟨rest, hrest⟩ := hcs
  funext k
  have hk := k.isLt
  have hdiv : (32 * i + k) / d.geometry.clusterSize < cs'.length := by
    apply Nat.div_lt_of_lt_mul
    calc 32 * i + k
      _ < 32 * (i + 1) := by omega
      _ ≤ 32 * (cs'.length * (d.geometry.clusterSize / 32)) := Nat.mul_le_mul_left _ hi
      _ = 32 * (d.geometry.clusterSize / 32) * cs'.length := by ring
      _ = d.geometry.clusterSize * cs'.length := by rw [← hsize]
  unfold FatData.chainEntry FatData.chainBytes Blocks.flatten
  dsimp only
  rw [← hrest, List.getD_append _ _ _ _ hdiv]

namespace Directory

theorem seen_prefix (hg : d.geometry.WellFormed) (directory : Directory)
    : directory.seen d <+: directory.entries d := by
  cases directory with
  | root => exact List.prefix_refl _
  | chain cs =>
    unfold seen
    dsimp only
    split
    . have hprefix := visited_prefix d.geometry.fatType.maxCluster cs
      unfold entries
      dsimp only
      generalize visited d.geometry.fatType.maxCluster cs = cs' at *
      have hle : cs'.length * (d.geometry.clusterSize / 32)
          ≤ cs.length * (d.geometry.clusterSize / 32) := Nat.mul_le_mul_right _ hprefix.length_le
      have hsame : (List.range' 0 (cs'.length * (d.geometry.clusterSize / 32))).map (d.chainEntry cs')
          = (List.range' 0 (cs'.length * (d.geometry.clusterSize / 32))).map (d.chainEntry cs) := by
        apply List.map_congr_left
        intro i hi
        rw [List.mem_range'_1] at hi
        exact chainEntry_prefix hg hprefix (by omega)
      rw [hsame, ← Nat.add_sub_of_le hle, ← List.range'_append_1, List.map_append]
      exact List.prefix_append _ _
    . exact List.nil_prefix

/--
What is found where an entry is read again.
-/
def fetch (stale : Bytes) : Directory → FatData → Nat → Run Direntry
  | .root, d => d.rootFetch stale
  | .chain cs, d => fun i => .ok (d.chainEntry (visited d.geometry.fatType.maxCluster cs) i)

theorem enumerate_eq (hg : d.geometry.WellFormed) (hd : d.Reliable) {directory : Directory}
    (hon : directory.IsOn d) (hsame : d.SameVolume d') (hcoherent : directory.Coherent d')
    {dir : FatDir} (hdir : dir.headCluster = directory.headCluster) (stack : Nat → LfnBuf)
    : ∃ n, ∀ fuel, n ≤ fuel →
        enumerate fuel stack fuel 0 d' (rewindDirectory dir)
          =
        enumList (directory.fetch d'.databuf d) stack (directory.last d) (directory.seen d) 0 0
          (stack 0) false := by
  cases directory with
  | root =>
    refine ⟨d.geometry.rootSectorCount * 16 + 1, ?_⟩
    intro fuel hfuel
    have hat : AtRoot d d'.databuf d' (rewindDirectory dir) 0 :=
      ⟨hsame, hcoherent, fun _ _ => rfl, hdir, rfl, Nat.zero_le _⟩
    exact (rootWalk hg hd hon.1 hon.2 d'.databuf).enumerate_eq hat (by omega) (by omega)
  | chain cs =>
    obtain ⟨hchain, hne, hspc⟩ := hon
    have hready : d'.Ready cs :=
      { wellFormed := by rw [hsame.geometry]; exact hg
        reliable := hsame.reliable hd
        isChain := hsame.isChain hchain
        fatCoherent := hcoherent.1
        dataCoherent := hcoherent.2 }
    obtain ⟨c0, cs', rfl⟩ := List.exists_cons_of_ne_nil hne
    have hfirst : (visited d.geometry.fatType.maxCluster (c0 :: cs'))[0]? = some c0 := rfl
    have hhead : (c0 :: cs').headD 0 ≠ 0 := by
      have := (hchain.isCluster c0 List.mem_cons_self).two_le
      show c0 ≠ 0
      omega
    unfold seen
    dsimp only
    split
    . next hsmall =>
      have hpos : 0 < d.geometry.clusterSize / 32 := by
        have := hready.clusterSize_pos
        rw [hsame.geometry] at this
        have := clusterSize_eq hg
        omega
      refine ⟨(visited d.geometry.fatType.maxCluster (c0 :: cs')).length
        * (d.geometry.clusterSize / 32) + 1, ?_⟩
      intro fuel hfuel
      have hat : AtChain d (c0 :: cs') (d.geometry.clusterSize / 32) d' (rewindDirectory dir) 0 := by
        refine ⟨hsame, hready, hdir, 0, ?_, Nat.zero_le _, by simp [rewindDirectory]⟩
        rw [hfirst]
        exact congrArg some hdir.symm
      exact (chainWalk (clusterSize_eq hg) hpos hsmall hhead).enumerate_eq hat (by omega)
        (by omega)
    . next hwide =>
      refine ⟨(visited d.geometry.fatType.maxCluster (c0 :: cs')).length + 1, ?_⟩
      intro fuel hfuel
      have hzero : d'.geometry.clusterSize % 2 ^ 16 / 32 = 0 := by
        have := hg.clusterSize
        unfold fatSectorSize at this
        rw [hsame.geometry]
        lia
      have hfind := @findEntry_wide d' (c0 :: cs') (rewindDirectory dir) 0 fuel (stack 0) false hready
      rw [hsame.geometry] at hfind
      obtain ⟨d1, dir1, hfind⟩ := hfind (congrArg some hdir.symm) (by omega)
      cases fuel with
      | zero => omega
      | succ fuel =>
        have hdir' : (rewindDirectory dir).headCluster ≠ 0 := by
          show dir.headCluster ≠ 0
          rw [hdir]
          exact hhead
        rw [enumerate, iterDirectory_chain hdir', hzero, hfind]
        rfl

end Directory

theorem rootFetch_blank {i : Nat} (hi : 16 ≤ i) {e : Direntry} (he : e.kind = .live)
    : d.rootFetch d.blank.databuf i ≠ .ok e := by
  unfold FatData.rootFetch
  split
  . rw [if_neg (by omega)]
    intro h
    have hzero : e 0 = 0 := by
      rw [← Except.ok.inj h]
      rfl
    unfold Direntry.kind at he
    rw [if_pos hzero] at he
    contradiction
  . intro h
    contradiction

namespace Directory

variable {directory : Directory}

theorem Enumerates.plain (h : directory.Enumerates d) (hg : d.geometry.WellFormed) (hd : d.Reliable)
    (hon : directory.IsOn d) : directory.Plain d := by
  have hprefix : listing (directory.seen d) 0 [] false <+: listing (directory.entries d) 0 [] false := by
    obtain ⟨rest, hrest⟩ := directory.seen_prefix hg
    rw [← hrest]
    exact listing_prefix _ _ _ _ _
  obtain ⟨hsame, hcoherent⟩ := d.blank_coherent directory
  let stack : Nat → LfnBuf := fun _ _ => 0
  let dir : FatDir := ⟨directory.headCluster, 0, 0, fun _ => 0⟩
  have hdir : dir.headCluster = directory.headCluster := rfl
  obtain ⟨n, hn⟩ := h d.blank dir stack hsame hcoherent hdir
  obtain ⟨m, hm⟩ := enumerate_eq hg hd hon hsame hcoherent hdir stack
  have henum := (hm (max n m) (Nat.le_max_right _ _)).symm.trans (hn (max n m) (Nat.le_max_left _ _))
  -- as many reports as there are items, so the driver sees all of them
  have hcomplete : listing (directory.seen d) 0 [] false
      = listing (directory.entries d) 0 [] false := by
    have hlength := enumList_length henum []
    rw [reports_length] at hlength
    exact hprefix.eq_of_length hlength.symm
  rw [← hcomplete] at henum
  obtain ⟨hfetched, hfragments, hends⟩ := (enumList_eq_ok_iff (directory.seen d) 0 0 [] false).mp henum
  refine ⟨hcomplete, hends, ?_, hfragments, fun item hitem => (hfetched item hitem).2⟩
  intro hroot item hitem
  subst hroot
  by_contra hlast
  exact rootFetch_blank (by omega) (kind_of_mem_listing hitem) (hfetched item hitem).1

end Directory

end Emos.Boot
