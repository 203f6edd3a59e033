import Emos.Boot.Fat.Lemmas.Fat

/-!
This module contains what the boot loader's FAT driver reads from an open file. The position in the
file and the current cluster are kept apart, that they belong together is an invariant.
-/

open Lib

namespace Emos.Boot

variable {d d' : FatData} {cs : List Nat} {file : FatFile}

namespace FatData

def chainSize (d : FatData) (cs : List Nat) : Nat := cs.length * d.geometry.clusterSize

theorem lt_chainSize {k c : Nat} (hc : cs[k / d.geometry.clusterSize]? = some c)
    : (k / d.geometry.clusterSize + 1) * d.geometry.clusterSize ≤ d.chainSize cs := by
  have hlt := (List.getElem?_eq_some_iff.mp hc).1
  exact Nat.mul_le_mul_right _ hlt

theorem copy_eq {buf : Bytes} {pos n c : Nat} (hc : cs[pos / d.geometry.clusterSize]? = some c)
    (hbuf : ∀ i, i < d.geometry.clusterSize → buf i = d.clusterBytes c i)
    (hn : pos % d.geometry.clusterSize + n ≤ d.geometry.clusterSize)
    : (List.range n).map (fun i => buf (pos % d.geometry.clusterSize + i))
        =
      (List.range' pos n).map (d.chainBytes cs) := by
  rw [List.range'_eq_map_range, List.map_map]
  apply List.map_congr_left
  intro i hi
  rw [List.mem_range] at hi
  have hin : pos % d.geometry.clusterSize + i < d.geometry.clusterSize := by omega
  obtain ⟨hdiv, hmod⟩ := Blocks.place_add hin
  rw [Function.comp_apply, hbuf _ hin]
  rw [chainBytes_of_getElem? (by rw [hdiv]; exact hc), hmod]

end FatData

/--
Where a read of `len` bytes stops that nothing but the end of the chain keeps from going on.
-/
def stopAt (d : FatData) (cs : List Nat) (file : FatFile) (len : Nat) : Nat :=
  min (file.cursor + len) (d.chainSize cs)

/--
The current cluster is the one that the cursor is in.
-/
def FatFile.InStep (file : FatFile) (d : FatData) (cs : List Nat) : Prop :=
  cs[file.cursor / d.geometry.clusterSize]? = some file.currentCluster

/--
What the loop of `read` leaves behind when it stops at `stop`.
-/
structure ReadTo (d : FatData) (cs : List Nat) (file : FatFile) (stop : Nat) (buf : List (BitVec 8))
    (total : Nat) (r : ReadResult) : Prop where
  status : r.status = .success
  result : r.result = some (total + (stop - file.cursor))
  buf : r.buf = buf ++ (List.range' file.cursor (stop - file.cursor)).map (d.chainBytes cs)
  cursor : r.file.cursor = stop
  inStep : stop < d.chainSize cs → r.file.InStep d cs
  direntry : r.file.direntry = file.direntry
  headCluster : r.file.headCluster = file.headCluster
  sameVolume : d.SameVolume r.data
  ready : r.data.Ready cs

theorem ReadTo.round {file' : FatFile} {stop n total : Nat} {buf : List (BitVec 8)} {r : ReadResult}
    (h : ReadTo d' cs file' stop (buf ++ (List.range' file.cursor n).map (d.chainBytes cs))
      (total + n) r)
    (hsame : d.SameVolume d') (hn : file.cursor + n ≤ stop) (hcursor : file'.cursor = file.cursor + n)
    (hdirentry : file'.direntry = file.direntry) (hhead : file'.headCluster = file.headCluster)
    : ReadTo d cs file stop buf total r where
  status := h.status
  result := by
    rw [h.result, hcursor]
    congr 1
    lia
  buf := by
    have hcount : stop - file.cursor = n + (stop - (file.cursor + n)) := by lia
    rw [h.buf, hsame.chainBytes_eq, hcursor, hcount, List.append_assoc, ← List.map_append]
    rw [← List.range'_append_1]
  cursor := h.cursor
  inStep := by
    intro hstop
    have := h.inStep
    unfold FatData.chainSize FatFile.InStep at *
    rw [hsame.geometry] at this
    exact this hstop
  direntry := h.direntry.trans hdirentry
  headCluster := h.headCluster.trans hhead
  sameVolume := hsame.trans h.sameVolume
  ready := h.ready

theorem readLoop_spec {fuel len total : Nat} {buf : List (BitVec 8)} (hfuel : len < fuel)
    (hready : d.Ready cs) (hstep : file.InStep d cs)
    (hwithin : d.Within cs (stopAt d cs file len / d.geometry.clusterSize))
    (hstop : stopAt d cs file len < 2 ^ 32)
    (htotal : total + (stopAt d cs file len - file.cursor) < 2 ^ 32)
    : ∃ r, readLoop fuel d file len buf total = .ok r
        ∧ ReadTo d cs file (stopAt d cs file len) buf total r := by
  induction fuel generalizing d file len buf total with
  | zero => contradiction
  | succ fuel ih =>
    have hpos := hready.clusterSize_pos
    have hcap := FatData.lt_chainSize hstep
    have hsplit := Nat.div_add_mod file.cursor d.geometry.clusterSize
    have hoff := Nat.mod_lt file.cursor hpos
    rw [Nat.add_mul, Nat.one_mul, Nat.mul_comm] at hcap
    unfold readLoop
    split
    . next hzero =>
      subst hzero
      have hhere : stopAt d cs file 0 = file.cursor := by
        unfold stopAt
        lia
      rw [hhere]
      refine ⟨_, rfl, rfl, by simp, by simp, rfl, fun _ => hstep, rfl, rfl, ⟨rfl, rfl⟩, hready⟩
    . next hlen =>
      rw [if_neg (by omega)]
      dsimp only
      -- the number of bytes that this round copies, at most to the end of the cluster
      generalize hn : (if d.geometry.clusterSize - file.cursor % d.geometry.clusterSize > len then len
        else d.geometry.clusterSize - file.cursor % d.geometry.clusterSize) = n
      have hbounds : 0 < n ∧ n ≤ len ∧ file.cursor % d.geometry.clusterSize + n ≤ d.geometry.clusterSize
          ∧ (file.cursor % d.geometry.clusterSize + n < d.geometry.clusterSize → n = len) := by
        split at hn
        . lia
        . lia
      obtain ⟨hn0, hnlen, hnin, hnall⟩ := hbounds
      obtain ⟨d1, hcluster, hsame1, hready1, hbuf⟩ :=
        hready.readCluster_spec (List.mem_of_getElem? hstep)
      have hstop' : file.cursor + n ≤ stopAt d cs file len := by
        unfold stopAt
        lia
      have hrest : ∀ d' file', d.SameVolume d' → d'.Ready cs → file'.cursor = file.cursor + n →
          file'.direntry = file.direntry → file'.headCluster = file.headCluster →
          file'.InStep d cs →
          ∃ r, readLoop fuel d' file' (len - n)
              (buf ++ (List.range' file.cursor n).map (d.chainBytes cs)) (total + n) = .ok r
            ∧ ReadTo d cs file (stopAt d cs file len) buf total r := by
        intro d' file' hsame hready' hcursor hdirentry hhead hstep'
        have hnext : stopAt d' cs file' (len - n) = stopAt d cs file len := by
          unfold stopAt FatData.chainSize
          rw [hsame.geometry, hcursor]
          rw [show file.cursor + n + (len - n) = file.cursor + len by lia]
        obtain ⟨r, hr, hto⟩ := @ih d' file' (len - n) (total + n)
          (buf ++ (List.range' file.cursor n).map (d.chainBytes cs)) (by lia) hready'
          (by unfold FatFile.InStep at *; rw [hsame.geometry]; exact hstep')
          (by rw [hnext, hsame.geometry]; exact hsame.within hwithin)
          (by rw [hnext]; exact hstop) (by rw [hnext, hcursor]; lia)
        rw [hnext] at hto
        exact ⟨r, hr, hto.round hsame hstop' hcursor hdirentry hhead⟩
      rw [hcluster]
      dsimp only [bind, Except.bind]
      rw [FatData.copy_eq hstep hbuf hnin, u32_of_lt (by lia), u32_of_lt (by lia), hsame1.geometry]
      split
      . next hinside =>
        refine hrest d1 _ hsame1 hready1 rfl rfl rfl ?_
        unfold FatFile.InStep at *
        dsimp only
        rw [(Blocks.place_add hinside).1]
        exact hstep
      . next hend =>
        have hdiv := (Blocks.place_end hpos
          (show file.cursor % d.geometry.clusterSize + n = d.geometry.clusterSize by lia)).1
        have hreach : file.cursor / d.geometry.clusterSize + 1
            ≤ stopAt d cs file len / d.geometry.clusterSize := by
          rw [← hdiv]
          exact Nat.div_le_div_right hstop'
        have hle := hwithin _ _ (by omega) hstep
        rw [← hsame1.geometry] at hle
        rw [FatData.getNextCluster_of_le hle]
        by_cases hmore : file.cursor / d.geometry.clusterSize + 1 < cs.length
        . obtain ⟨c', hc'⟩ : ∃ c', cs[file.cursor / d.geometry.clusterSize + 1]? = some c' :=
            ⟨_, List.getElem?_eq_getElem hmore⟩
          obtain ⟨d2, hnext, hsame2⟩ := hready1.nextClusters_spec hstep
            (hsame1.within fun j c hj => hwithin j c (by lia)) hc'
          rw [hnext]
          dsimp only
          rw [if_neg (by decide)]
          refine hrest d2 _ (hsame1.trans hsame2.sameVolume) (hsame2.ready hready1) rfl rfl rfl ?_
          unfold FatFile.InStep
          dsimp only
          rw [hdiv]
          exact hc'
        . -- the chain has no further cluster, and the loop is left
          have hlast : cs[file.cursor / d.geometry.clusterSize + 1]? = none :=
            List.getElem?_eq_none (by omega)
          obtain ⟨c', d2, hnext, hsame2⟩ := @FatData.Ready.nextClusters_last _ _ hready1 _ _ 0 hstep
            (hsame1.within fun j c hj => hwithin j c (by omega)) hlast
          have hchain : d.chainSize cs = file.cursor + n := by
            have hlt := (List.getElem?_eq_some_iff.mp hstep).1
            unfold FatData.chainSize
            rw [show cs.length = file.cursor / d.geometry.clusterSize + 1 by lia]
            rw [Nat.add_mul, Nat.one_mul, Nat.mul_comm]
            lia
          have hhere : stopAt d cs file len = file.cursor + n := by
            unfold stopAt
            lia
          rw [hnext]
          dsimp only
          rw [if_pos (by decide), hhere]
          refine ⟨_, rfl, rfl, ?_, ?_, rfl, ?_, rfl, rfl, hsame1.trans hsame2.sameVolume,
            hsame2.ready hready1⟩
          . dsimp only
            rw [Nat.add_sub_cancel_left]
          . dsimp only
            rw [Nat.add_sub_cancel_left]
          . intro hlt
            omega

theorem Direntry.size_lt (e : Direntry) : e.size < 2 ^ 32 := by
  have := Bytes.read_lt (fun k => if h : k < 32 then e ⟨k, h⟩ else 0) 28 4
  unfold Direntry.size Direntry.number
  omega

/--
The file with these clusters is open, and its cursor is somewhere in it.
-/
structure FatFile.IsOpen (file : FatFile) (d : FatData) (cs : List Nat) : Prop where
  ready : d.Ready cs
  size_le : file.direntry.size ≤ d.chainSize cs
  head : ∀ c, cs[0]? = some c → c = file.headCluster
  cursor_le : file.cursor ≤ file.direntry.size
  inStep : file.cursor < file.direntry.size → file.InStep d cs

/--
No cluster that the file needs is one that the driver takes for an end mark.
-/
structure FatFile.Reachable (file : FatFile) (d : FatData) (cs : List Nat) : Prop where
  head : file.headCluster ≤ d.geometry.fatType.maxCluster
  within : d.Within cs (file.direntry.size / d.geometry.clusterSize)

/--
The bytes that a read of `len` bytes at `cursor` should deliver from a file of `size` bytes.
-/
def expected (content : Bytes) (size cursor len : Nat) : List (BitVec 8) :=
  (List.range' cursor (min (cursor + len) size - cursor)).map content

theorem read_spec (hopen : file.IsOpen d cs) (hreach : file.Reachable d cs) {len : Nat}
    (hlen : file.cursor + len < 2 ^ 32 ∨ file.direntry.size ≤ file.cursor
      ∨ d.chainSize cs = file.direntry.size)
    : ∃ r, read d file len = .ok r
        ∧ r.status = (if file.cursor < file.direntry.size then .success else .endOfFile)
        ∧ r.buf = expected (d.chainBytes cs) file.direntry.size file.cursor len
        ∧ (r.status = .success → r.result = some r.buf.length)
        ∧ r.file.cursor = file.cursor + r.buf.length
        ∧ r.file.direntry = file.direntry ∧ r.file.headCluster = file.headCluster
        ∧ d.SameVolume r.data ∧ r.file.IsOpen r.data cs := by
  have hsize := file.direntry.size_lt
  have hcursor := hopen.cursor_le
  have hcap := hopen.size_le
  unfold read
  dsimp only
  split
  . next hend =>
    have hzero : min (file.cursor + len) file.direntry.size - file.cursor = 0 := by lia
    refine ⟨_, rfl, ?_, ?_, ?_, rfl, rfl, rfl, ⟨rfl, rfl⟩, hopen⟩
    . rw [if_neg (by omega)]
    . unfold expected
      rw [hzero]
      rfl
    . intro h
      contradiction
  . next hinside =>
    generalize hn : (if u32 (file.cursor + len) ≥ file.direntry.size then
      file.direntry.size - file.cursor else len) = n
    -- the length may stay too large, but then the end of the chain is the end of the file
    have hstop : stopAt d cs file n = min (file.cursor + len) file.direntry.size := by
      unfold stopAt u32 at *
      split at hn
      . lia
      . lia
    have hstopLe : stopAt d cs file n ≤ file.direntry.size := by lia
    obtain ⟨r, hr, hto⟩ := @readLoop_spec d cs file (n + 1) n 0 [] (by omega) hopen.ready
      (hopen.inStep (by omega))
      (fun j c hj => hreach.within j c (hj.trans (Nat.div_le_div_right hstopLe))) (by lia) (by lia)
    have hcount : r.buf.length = stopAt d cs file n - file.cursor := by
      rw [hto.buf]
      simp
    refine ⟨r, hr, ?_, ?_, ?_, ?_, hto.direntry, hto.headCluster, hto.sameVolume, hto.ready, ?_, ?_,
      ?_, ?_⟩
    . rw [hto.status, if_pos (by omega)]
    . rw [hto.buf, List.nil_append, hstop]
      rfl
    . intro _
      rw [hto.result, hcount, Nat.zero_add]
    . rw [hto.cursor, hcount, hstop]
      lia
    . rw [hto.direntry]
      unfold FatData.chainSize
      rw [hto.sameVolume.geometry]
      exact hcap
    . rw [hto.headCluster]
      exact hopen.head
    . rw [hto.cursor, hto.direntry]
      exact hstopLe
    . rw [hto.cursor, hto.direntry]
      intro hlt
      have := hto.inStep (by omega)
      unfold FatFile.InStep at *
      rw [hto.sameVolume.geometry]
      exact this

theorem getNextCluster_of_position (hopen : file.IsOpen d cs) (hreach : file.Reachable d cs)
    {pos : Nat} (hpos : pos ≤ file.direntry.size)
    : ∃ status c d', d.getNextCluster file.headCluster (pos / d.geometry.clusterSize)
          = .ok ⟨status, c, d'⟩
        ∧ d.SameData d'
        ∧ (status = .success
          ↔ pos / d.geometry.clusterSize = 0 ∨ pos / d.geometry.clusterSize < cs.length)
        ∧ (status = .success → pos < file.direntry.size →
          cs[pos / d.geometry.clusterSize]? = some c) := by
  have hready := hopen.ready
  have hsize := hready.clusterSize_pos
  have hcap := hopen.size_le
  rw [FatData.getNextCluster_of_le hreach.head]
  by_cases hempty : cs.length = 0
  . -- an empty file has no cluster at all
    have hzero : pos / d.geometry.clusterSize = 0 := by
      unfold FatData.chainSize at hcap
      rw [hempty, Nat.zero_mul] at hcap
      rw [show pos = 0 by omega, Nat.zero_div]
    rw [hzero]
    refine ⟨_, _, d, rfl, .refl hready.fatCoherent, by simp, ?_⟩
    intro _ hlt
    unfold FatData.chainSize at hcap
    rw [hempty, Nat.zero_mul] at hcap
    omega
  . obtain ⟨c0, hc0⟩ : ∃ c0, cs[0]? = some c0 :=
      ⟨_, List.getElem?_eq_getElem (Nat.pos_of_ne_zero hempty)⟩
    have hdiv : pos / d.geometry.clusterSize ≤ file.direntry.size / d.geometry.clusterSize :=
      Nat.div_le_div_right hpos
    have hhead := hopen.head c0 hc0
    rw [hhead] at hc0
    by_cases hin : pos / d.geometry.clusterSize < cs.length
    . obtain ⟨c, hc⟩ : ∃ c, cs[0 + pos / d.geometry.clusterSize]? = some c := by
        rw [Nat.zero_add]
        exact ⟨_, List.getElem?_eq_getElem hin⟩
      obtain ⟨d', hnext, hsame⟩ := hready.nextClusters_spec hc0
        (fun j c hj => hreach.within j c (by omega)) hc
      rw [Nat.zero_add] at hc
      exact ⟨_, c, d', hnext, hsame, by simp [hin], fun _ _ => hc⟩
    . obtain ⟨c, d', hnext, hsame⟩ := hready.nextClusters_past hc0
        (fun j c hj => hreach.within j c (by omega))
        (show cs.length ≤ 0 + pos / d.geometry.clusterSize by omega)
      refine ⟨_, c, d', hnext, hsame, ?_, by simp⟩
      simp only [reduceCtorEq, false_iff]
      lia

theorem i64_of_position {n : Int} (h0 : 0 ≤ n) (h1 : n < 2 ^ 32) : i64 n = n := by
  unfold i64
  lia

theorem seek_spec (hopen : file.IsOpen d cs) (hreach : file.Reachable d cs) (offset : Int)
    (origin : Origin)
    : ∃ status d' file', seek d file offset origin = .ok ⟨status, d', file'⟩
        ∧ file'.direntry = file.direntry ∧ file'.headCluster = file.headCluster
        ∧ d.SameVolume d' ∧ file'.IsOpen d' cs
        ∧ ∀ t, file.seekTarget offset origin = some t → 0 ≤ t → t ≤ file.direntry.size →
          (status = .success ∧ file'.cursor = t
            ↔
          t.toNat / d.geometry.clusterSize = 0 ∨ t.toNat / d.geometry.clusterSize < cs.length) := by
  have hsize := file.direntry.size_lt
  have hcsize := hopen.ready.clusterSize_pos
  unfold seek
  split
  . next hnone =>
    refine ⟨_, d, file, rfl, rfl, rfl, ⟨rfl, rfl⟩, hopen, ?_⟩
    rw [hnone]
    simp
  . next target hsome =>
    dsimp only
    split
    . next hneg =>
      refine ⟨_, d, file, rfl, rfl, rfl, ⟨rfl, rfl⟩, hopen, ?_⟩
      intro t ht h0 h1
      rw [hsome, Option.some.injEq] at ht
      rw [ht, i64_of_position h0 (by omega)] at hneg
      omega
    . next hnonneg =>
      generalize hpos : (if i64 target > file.direntry.size then file.direntry.size
        else (i64 target).toNat) = pos
      have hle : pos ≤ file.direntry.size := by
        split at hpos
        . omega
        . omega
      have hcount : u32 (pos / d.geometry.clusterSize) = pos / d.geometry.clusterSize := by
        have := Nat.div_le_self pos d.geometry.clusterSize
        exact u32_of_lt (by omega)
      have htarget : ∀ t, file.seekTarget offset origin = some t → 0 ≤ t →
          t ≤ file.direntry.size → t.toNat = pos := by
        intro t ht h0 h1
        rw [hsome, Option.some.injEq] at ht
        rw [ht, i64_of_position h0 (by omega)] at hpos
        split at hpos
        . omega
        . exact hpos
      obtain ⟨status, c, d', hnext, hsame, hstatus, hcluster⟩ :=
        getNextCluster_of_position hopen hreach hle
      unfold divide
      rw [if_neg (by omega)]
      dsimp only [bind, Except.bind]
      rw [hcount, hnext]
      dsimp only
      have hchain : d'.chainSize cs = d.chainSize cs := by
        unfold FatData.chainSize
        rw [hsame.geometry]
      split
      . next hfail =>
        refine ⟨status, d', file, rfl, rfl, rfl, hsame.sameVolume, ?_, ?_⟩
        . refine ⟨hsame.ready hopen.ready, ?_, hopen.head, hopen.cursor_le, ?_⟩
          . rw [hchain]
            exact hopen.size_le
          . unfold FatFile.InStep
            rw [hsame.geometry]
            exact hopen.inStep
        . intro t ht h0 h1
          rw [htarget t ht h0 h1, ← hstatus]
          simp [hfail]
      . next hok =>
        rw [not_not] at hok
        refine ⟨.success, d', _, rfl, rfl, rfl, hsame.sameVolume, ?_, ?_⟩
        . refine ⟨hsame.ready hopen.ready, ?_, hopen.head, ?_, ?_⟩
          . rw [hchain]
            exact hopen.size_le
          . dsimp only
            rw [u32_of_lt (by omega)]
            exact hle
          . dsimp only
            rw [u32_of_lt (by omega)]
            intro hlt
            unfold FatFile.InStep
            rw [hsame.geometry]
            exact hcluster hok hlt
        . intro t ht h0 h1
          have ht' := htarget t ht h0 h1
          rw [ht', ← hstatus]
          dsimp only
          rw [u32_of_lt (by omega)]
          simp only [hok, true_and, iff_true]
          lia

structure OpenFile where
  data : FatData
  file : FatFile

inductive FileOp where
  | read (len : Nat)
  | seek (offset : Int) (origin : Origin)

namespace FileOp

def exec (s : OpenFile) : FileOp → Run OpenFile
  | .read len => do
    let r ← Boot.read s.data s.file len
    .ok ⟨r.data, r.file⟩
  | .seek offset origin => do
    let ⟨_, data, file⟩ ← Boot.seek s.data s.file offset origin
    .ok ⟨data, file⟩

/--
What is asked of an operation on a file of `size` bytes with this content.
-/
def Correct (content : Bytes) (size : Nat) (s : OpenFile) : FileOp → Prop
  | .read len =>
    ∃ r, Boot.read s.data s.file len = .ok r
      ∧ r.status = (if s.file.cursor < size then .success else .endOfFile)
      ∧ r.buf = expected content size s.file.cursor len
      ∧ (r.status = .success → r.result = some r.buf.length)
      ∧ r.file.cursor = s.file.cursor + r.buf.length
  | .seek offset origin =>
    ∃ status data file, Boot.seek s.data s.file offset origin = .ok ⟨status, data, file⟩
      ∧ ∀ t, s.file.seekTarget offset origin = some t → 0 ≤ t → t ≤ size →
        status = .success ∧ file.cursor = t

/--
The end of what is read does not exceed the range of a 32 bit number, unless the chain ends where the
file does. The position to seek to is not behind the last cluster.
-/
def Plain (cs : List Nat) (s : OpenFile) : FileOp → Prop
  | .read len =>
    s.file.cursor + len < 2 ^ 32 ∨ s.file.direntry.size ≤ s.file.cursor
      ∨ s.data.chainSize cs = s.file.direntry.size
  | .seek offset origin =>
    ∀ t, s.file.seekTarget offset origin = some t → 0 ≤ t → t ≤ s.file.direntry.size →
      t.toNat / s.data.geometry.clusterSize = 0
        ∨ t.toNat / s.data.geometry.clusterSize < cs.length

end FileOp

inductive Reaches (cs : List Nat) (s : OpenFile) : OpenFile → Prop where
  | refl : Reaches cs s s
  | step {s' s'' : OpenFile} (op : FileOp) (h : Reaches cs s s') (hplain : op.Plain cs s')
      (hexec : op.exec s' = .ok s'') : Reaches cs s s''

/--
`s` is what operations on the file of an entry on the volume of `d` may leave.
-/
structure OpenFile.IsAfter (s : OpenFile) (d : FatData) (e : Direntry) (cs : List Nat) : Prop where
  isOpen : s.file.IsOpen s.data cs
  reachable : s.file.Reachable s.data cs
  direntry : s.file.direntry = e
  sameVolume : d.SameVolume s.data

namespace OpenFile.IsAfter

variable {s s' : OpenFile} {e : Direntry}

theorem of_same (h : s.IsAfter d e cs) (hdirentry : s'.file.direntry = s.file.direntry)
    (hhead : s'.file.headCluster = s.file.headCluster) (hsame : s.data.SameVolume s'.data)
    (hopen : s'.file.IsOpen s'.data cs) : s'.IsAfter d e cs where
  isOpen := hopen
  reachable := by
    constructor
    . rw [hhead, hsame.geometry]
      exact h.reachable.head
    . rw [hdirentry, hsame.geometry]
      exact hsame.within h.reachable.within
  direntry := hdirentry.trans h.direntry
  sameVolume := h.sameVolume.trans hsame

theorem exec (h : s.IsAfter d e cs) (op : FileOp) (hplain : op.Plain cs s)
    : op.Correct (d.chainBytes cs) e.size s ∧ ∃ s', op.exec s = .ok s' ∧ s'.IsAfter d e cs := by
  cases op with
  | read len =>
    obtain ⟨r, hr, hstatus, hbuf, hresult, hcursor, hdirentry, hhead, hsame, hopen⟩ :=
      read_spec h.isOpen h.reachable hplain
    rw [h.direntry] at hstatus hbuf
    rw [h.sameVolume.chainBytes_eq] at hbuf
    refine ⟨⟨r, hr, hstatus, hbuf, hresult, hcursor⟩, ⟨r.data, r.file⟩, ?_,
      h.of_same hdirentry hhead hsame hopen⟩
    unfold FileOp.exec
    dsimp only
    rw [hr]
    rfl
  | seek offset origin =>
    obtain ⟨status, d', file', hseek, hdirentry, hhead, hsame, hopen, htarget⟩ :=
      seek_spec h.isOpen h.reachable offset origin
    refine ⟨⟨status, d', file', hseek, ?_⟩, ⟨d', file'⟩, ?_, h.of_same hdirentry hhead hsame hopen⟩
    . intro t ht h0 h1
      rw [← h.direntry] at h1
      exact (htarget t ht h0 h1).mpr (hplain t ht h0 h1)
    . unfold FileOp.exec
      dsimp only
      rw [hseek]
      rfl

theorem reaches (h : s.IsAfter d e cs) (hrun : Reaches cs s s') : s'.IsAfter d e cs := by
  induction hrun with
  | refl => exact h
  | step op _ hplain hexec ih =>
    obtain ⟨_, s1, hexec', hafter⟩ := ih.exec op hplain
    rw [hexec'] at hexec
    cases hexec
    exact hafter

theorem openFile (hready : d.Ready cs) (hsize : e.size ≤ d.chainSize cs)
    (hhead : ∀ c, cs[0]? = some c → c = (openFile e).headCluster)
    (hreach : (openFile e).Reachable d cs) : (OpenFile.mk d (openFile e)).IsAfter d e cs where
  isOpen := by
    refine ⟨hready, hsize, hhead, Nat.zero_le _, ?_⟩
    intro hlt
    have hne : 0 < cs.length := by
      apply Nat.pos_of_ne_zero
      intro hzero
      unfold FatData.chainSize at hsize
      rw [hzero, Nat.zero_mul] at hsize
      have : e.size = 0 := by omega
      exact absurd hlt (by show ¬ 0 < e.size; omega)
    have hc := List.getElem?_eq_getElem hne
    unfold FatFile.InStep
    show cs[0 / d.geometry.clusterSize]? = some (Boot.openFile e).headCluster
    rw [Nat.zero_div, hc, hhead _ hc]
  reachable := hreach
  direntry := rfl
  sameVolume := ⟨rfl, rfl⟩

end OpenFile.IsAfter

/--
Along all runs of plain operations on an open file, reads deliver what is at the cursor and seeks put
the cursor where they should.
-/
theorem reaches_correct {e : Direntry} {s : OpenFile} (hready : d.Ready cs)
    (hsize : e.size ≤ d.chainSize cs)
    (hhead : ∀ c, cs[0]? = some c → c = (openFile e).headCluster)
    (hreach : (openFile e).Reachable d cs) (hrun : Reaches cs ⟨d, openFile e⟩ s) (op : FileOp)
    (hplain : op.Plain cs s)
    : op.Correct (d.chainBytes cs) e.size s :=
  (((OpenFile.IsAfter.openFile hready hsize hhead hreach).reaches hrun).exec op hplain).1

/--
A volume with one file, which fills its only cluster.
-/
def fullCluster : FatData where
  blkdev :=
    { block := fun lba i =>
        if lba = 1 then (if i = 3 then 0xFF else if i = 4 then 0x0F else 0) else BitVec.ofNat 8 i
      fails := fun _ => none }
  geometry :=
    { reservedSectors := 1, sectorSize := 512, clusterSize := 512, sectorsPerCluster := 1,
      fatType := .fat12, dataAreaBegin := 2, rootCluster := 0, rootSectorCount := 1 }
  readCount := 0
  fatbufLba := -1
  fatbuf := fun _ => 0
  databufLbaStart := -1
  databuf := fun _ => 0

def fullClusterEntry : Direntry := fun i =>
  if i = 0 then 0x46 else if i = 26 then 2 else if i = 29 then 2 else 0

theorem fullCluster_ready : fullCluster.Ready [2] where
  wellFormed := ⟨rfl, rfl, by decide, by decide⟩
  reliable := fun _ => rfl
  isChain := by
    refine ⟨?_, ?_, ?_⟩
    . intro c hc
      rw [List.mem_singleton] at hc
      subst hc
      exact ⟨by decide, by decide, by decide⟩
    . intro i c c' _ hc'
      simp at hc'
    . intro i c hc _
      have hc' := List.mem_of_getElem? hc
      rw [List.mem_singleton] at hc'
      subst hc'
      decide
  fatCoherent := by
    intro lba hlba
    have : (-1 : Int) = lba := hlba
    omega
  dataCoherent := by
    intro c _ hlba
    have : (-1 : Int) = fullCluster.clusterStart c := hlba
    omega

theorem fullCluster_reachable : (openFile fullClusterEntry).Reachable fullCluster [2] where
  head := by decide
  within := by
    intro j c _ hc
    have hc' := List.mem_of_getElem? hc
    rw [List.mem_singleton] at hc'
    subst hc'
    decide

theorem fullCluster_head : ∀ c, [2][0]? = some c → c = (openFile fullClusterEntry).headCluster := by
  intro c hc
  cases hc
  decide

theorem reaches_correct_fullCluster
    : ∃ s, Reaches [2] ⟨fullCluster, openFile fullClusterEntry⟩ s ∧ s.file.cursor = 100
        ∧ (FileOp.read 700).Correct (fullCluster.chainBytes [2]) 512 s := by
  have hplain : (FileOp.seek 100 .set).Plain [2] ⟨fullCluster, openFile fullClusterEntry⟩ := by
    intro t ht _ _
    cases ht
    decide
  have hrun := reaches_correct fullCluster_ready (by decide) fullCluster_head fullCluster_reachable
    .refl (.seek 100 .set) hplain
  obtain ⟨status, data, file, hseek, hcorrect⟩ := hrun
  have hcursor : file.cursor = 100 := by
    have := (hcorrect 100 rfl (by decide) (by decide)).2
    omega
  have hstep : Reaches [2] ⟨fullCluster, openFile fullClusterEntry⟩ ⟨data, file⟩ := by
    refine .step (.seek 100 .set) .refl hplain ?_
    unfold FileOp.exec
    dsimp only
    rw [hseek]
    rfl
  refine ⟨⟨data, file⟩, hstep, hcursor, ?_⟩
  refine reaches_correct fullCluster_ready (by decide) fullCluster_head fullCluster_reachable hstep
    (.read 700) (.inl ?_)
  dsimp only
  omega

/--
Seeking to the end of a file that fills its last cluster fails.
-/
theorem seek_to_end_fails
    : fullCluster.Ready [2] ∧ fullClusterEntry.size = 512 ∧ fullCluster.chainSize [2] = 512
        ∧ (seek fullCluster (openFile fullClusterEntry) 0 .end).map (·.1) = .ok .endOfList
        ∧ ¬ (FileOp.seek 0 .end).Correct (fullCluster.chainBytes [2]) 512
          ⟨fullCluster, openFile fullClusterEntry⟩ := by
  have hseek : (seek fullCluster (openFile fullClusterEntry) 0 .end).map (·.1)
      = .ok .endOfList := by
    decide
  refine ⟨fullCluster_ready, by decide, by decide, hseek, ?_⟩
  intro ⟨status, data, file, hseek', hcorrect⟩
  have hstatus := (hcorrect 512 (by decide) (by decide) (by decide)).1
  rw [hseek', hstatus] at hseek
  cases hseek

end Emos.Boot
