import Emos.Boot.Part.Impl.Part
import Emos.Lib.Record
import Mathlib.Data.List.Basic

/-!
This module contains which disks with a master boot record are scanned to an end, and which chains of
extended boot records are registered as they should be.
-/

open Lib

namespace Emos.Boot.Part

namespace Disk

variable (disk : Disk)

/--
The scan of the sector gets to its entries `es` and all behind them.
-/
inductive Reaches : Int → List MbrPartitionEntry → Prop where
  | first {es : List MbrPartitionEntry} (hread : disk.partitionEntries 0 = .ok es)
    : Reaches 0 es
  | unused {base : Int} {e : MbrPartitionEntry} {es : List MbrPartitionEntry}
    (h : Reaches base (e :: es)) (htype : e.type = 0)
    : Reaches base es
  | partition {base : Int} {e : MbrPartitionEntry} {es : List MbrPartitionEntry} {part : PartData}
    (h : Reaches base (e :: es)) (hused : e.type ≠ 0) (htype : e.type ≠ mbrPartTypeExtended)
    (hprobe : probe [e.resource base] = .ok part)
    : Reaches base es
  | enter {base : Int} {e : MbrPartitionEntry} {es inner : List MbrPartitionEntry}
    (h : Reaches base (e :: es)) (htype : e.type = mbrPartTypeExtended)
    (hread : disk.partitionEntries (toLba (base + e.baseLba.toNat)) = .ok inner)
    : Reaches (toLba (base + e.baseLba.toNat)) inner
  | leave {base : Int} {e : MbrPartitionEntry} {es : List MbrPartitionEntry}
    (h : Reaches base (e :: es)) (htype : e.type = mbrPartTypeExtended)
    (hinner : Reaches (toLba (base + e.baseLba.toNat)) [])
    : Reaches base es

/--
The scan gets to an extended partition that starts with the record it is in.
-/
def ReachesSelfLink : Prop :=
  ∃ base e es, disk.Reaches base (e :: es) ∧ e.type = mbrPartTypeExtended ∧ e.baseLba = 0

def ScanTerminates : Prop := ∃ fuel scan, registerPartitions disk fuel 0 = .ok scan

variable {disk}

theorem registerPartitions_succ {base : Int} {es : List MbrPartitionEntry}
    (h : disk.partitionEntries base = .ok es) (fuel : Nat)
    : registerPartitions disk (fuel + 1) base = registerEntries (registerPartitions disk fuel) base es := by
  rw [registerPartitions, h]

theorem registerPartitions_of_error {base : Int} {status : Status}
    (h : disk.partitionEntries base = .error status) (fuel : Nat)
    : registerPartitions disk (fuel + 1) base = .ok ⟨.error status, []⟩ := by
  rw [registerPartitions, h]

theorem lt_of_partitionEntries {base : Int} {es : List MbrPartitionEntry}
    (h : disk.partitionEntries base = .ok es)
    : 0 ≤ base ∧ base < disk.sectorCount := by
  by_contra hout
  obtain ⟨e, he⟩ := disk.read_outside base (by omega)
  rw [partitionEntries, he] at h
  cases h

theorem toLba_eq {n : Int} (h0 : 0 ≤ n) (h : n < 2 ^ 63) : toLba n = n := by
  unfold toLba
  rw [Int.bmod_eq_of_le] <;> omega

end Disk

section Entries

variable {inner : Int → Run Scan} {base : Int} {e : MbrPartitionEntry} {es : List MbrPartitionEntry}
  {scan : Scan}

theorem registerEntries_unused (htype : e.type = 0)
    : registerEntries inner base (e :: es) = registerEntries inner base es := by
  change (if e.type = 0 then _ else _) = _
  rw [if_pos htype]

theorem registerEntries_partition (hused : e.type ≠ 0) (htype : e.type ≠ mbrPartTypeExtended)
    {part : PartData} (hprobe : probe [e.resource base] = .ok part)
    : registerEntries inner base (e :: es)
        =
      registerEntries inner base es
        >>= fun rest => .ok ⟨rest.result, part :: rest.partitions⟩ := by
  change (if e.type = 0 then _ else if e.type = mbrPartTypeExtended then _ else _) = _
  rw [if_neg hused, if_neg htype, hprobe]

theorem registerEntries_partition_error (hused : e.type ≠ 0) (htype : e.type ≠ mbrPartTypeExtended)
    {status : Status} (hprobe : probe [e.resource base] = .error status)
    : registerEntries inner base (e :: es) = .ok ⟨.error status, []⟩ := by
  change (if e.type = 0 then _ else if e.type = mbrPartTypeExtended then _ else _) = _
  rw [if_neg hused, if_neg htype, hprobe]

theorem registerEntries_extended (htype : e.type = mbrPartTypeExtended)
    (hinner : inner (toLba (base + e.baseLba.toNat)) = .ok scan) (hresult : scan.result = .ok ())
    : registerEntries inner base (e :: es)
        =
      registerEntries inner base es
        >>= fun rest => .ok ⟨rest.result, scan.partitions ++ rest.partitions⟩ := by
  change (if e.type = 0 then _ else if e.type = mbrPartTypeExtended then _ else _) = _
  rw [if_neg (by rw [htype]; decide), if_pos htype, hinner]
  simp only [bind, Except.bind, hresult]

theorem registerEntries_extended_error (htype : e.type = mbrPartTypeExtended)
    (hinner : inner (toLba (base + e.baseLba.toNat)) = .ok scan) {status : Status}
    (hresult : scan.result = .error status)
    : registerEntries inner base (e :: es) = .ok scan := by
  change (if e.type = 0 then _ else if e.type = mbrPartTypeExtended then _ else _) = _
  rw [if_neg (by rw [htype]; decide), if_pos htype, hinner]
  simp only [bind, Except.bind, hresult]

theorem exists_inner (htype : e.type = mbrPartTypeExtended)
    (h : registerEntries inner base (e :: es) = .ok scan)
    : ∃ scan', inner (toLba (base + e.baseLba.toNat)) = .ok scan' := by
  change (if e.type = 0 then _ else if e.type = mbrPartTypeExtended then _ else _) = _ at h
  rw [if_neg (by rw [htype]; decide), if_pos htype] at h
  cases hinner : inner (toLba (base + e.baseLba.toNat)) with
  | error fault =>
    rw [hinner] at h
    cases h
  | ok scan' => exact ⟨scan', rfl⟩

theorem exists_rest {α β : Type} {x : Run α} {f : α → β} {b : β} (h : (x >>= fun a => .ok (f a)) = .ok b)
    : ∃ a, x = .ok a ∧ b = f a := by
  cases x with
  | error fault => cases h
  | ok a =>
    cases h
    exact ⟨a, rfl, rfl⟩

end Entries

namespace Disk

variable {disk : Disk}

/--
What an end of the scan of a sector says about the entries from `es` on.
-/
def Passes (disk : Disk) (base : Int) (es : List MbrPartitionEntry) : Prop :=
  ∀ fuel scan, registerPartitions disk fuel base = .ok scan
    → ∃ n scan', fuel = n + 1 ∧ registerEntries (registerPartitions disk n) base es = .ok scan'
        ∧ scan'.result = scan.result

theorem passes_of_partitionEntries {base : Int} {es : List MbrPartitionEntry}
    (h : disk.partitionEntries base = .ok es)
    : disk.Passes base es := by
  intro fuel scan hscan
  cases fuel with
  | zero => cases hscan
  | succ n =>
    rw [registerPartitions_succ h] at hscan
    exact ⟨n, scan, rfl, hscan, rfl⟩

theorem Reaches.passes {base : Int} {es : List MbrPartitionEntry} (h : disk.Reaches base es)
    : disk.Passes base es := by
  induction h with
  | first hread => exact passes_of_partitionEntries hread
  | unused _ htype ih =>
    intro fuel scan hscan
    obtain ⟨n, scan', hfuel, hentries, hresult⟩ := ih fuel scan hscan
    rw [registerEntries_unused htype] at hentries
    exact ⟨n, scan', hfuel, hentries, hresult⟩
  | partition _ hused htype hprobe ih =>
    intro fuel scan hscan
    obtain ⟨n, scan', hfuel, hentries, hresult⟩ := ih fuel scan hscan
    rw [registerEntries_partition hused htype hprobe] at hentries
    obtain ⟨rest, hrest, hscan'⟩ := exists_rest hentries
    rw [hscan'] at hresult
    exact ⟨n, rest, hfuel, hrest, hresult⟩
  | enter _ _ hread _ => exact passes_of_partitionEntries hread
  | leave _ htype _ ih ihInner =>
    intro fuel scan hscan
    obtain ⟨n, scan', hfuel, hentries, hresult⟩ := ih fuel scan hscan
    obtain ⟨inner, hinner⟩ := exists_inner htype hentries
    -- the scan of the inner sector went through all entries, so it was successful
    obtain ⟨_, done, -, hdone, hinnerResult⟩ := ihInner n inner hinner
    cases hdone
    rw [registerEntries_extended htype hinner hinnerResult.symm] at hentries
    obtain ⟨rest, hrest, hscan'⟩ := exists_rest hentries
    rw [hscan'] at hresult
    exact ⟨n, rest, hfuel, hrest, hresult⟩

theorem Reaches.exists_scan {base : Int} {es : List MbrPartitionEntry} (h : disk.Reaches base es)
    (hterminates : disk.ScanTerminates)
    : ∃ fuel scan, registerPartitions disk fuel base = .ok scan := by
  induction h with
  | first _ => exact hterminates
  | unused _ _ ih => exact ih
  | partition _ _ _ _ ih => exact ih
  | enter h htype _ ih =>
    obtain ⟨fuel, scan, hscan⟩ := ih
    obtain ⟨n, scan', -, hentries, -⟩ := h.passes fuel scan hscan
    obtain ⟨inner, hinner⟩ := exists_inner htype hentries
    exact ⟨n, inner, hinner⟩
  | leave _ _ _ ih _ => exact ih

theorem Reaches.range {base : Int} {es : List MbrPartitionEntry} (h : disk.Reaches base es)
    : 0 ≤ base ∧ base < disk.sectorCount := by
  induction h with
  | first hread => exact lt_of_partitionEntries hread
  | unused _ _ ih => exact ih
  | partition _ _ _ _ ih => exact ih
  | enter _ _ hread _ => exact lt_of_partitionEntries hread
  | leave _ _ _ ih _ => exact ih

theorem not_reachesSelfLink_of_terminates (h : disk.ScanTerminates) : ¬ disk.ReachesSelfLink := by
  intro ⟨base, e, es, hreaches, htype, hbase⟩
  have hself : toLba (base + e.baseLba.toNat) = base := by
    have hrange := hreaches.range
    have hle := disk.sectorCount_le
    rw [hbase, show (0 : BitVec 32).toNat = 0 from rfl, Int.natCast_zero, Int.add_zero]
    exact toLba_eq hrange.1 (by omega)
  -- each end of the scan has a shorter one inside
  have hnever : ∀ fuel scan, registerPartitions disk fuel base ≠ .ok scan := by
    intro fuel
    induction fuel with
    | zero =>
      intro scan hscan
      cases hscan
    | succ fuel ih =>
      intro scan hscan
      obtain ⟨n, scan', hfuel, hentries, -⟩ := hreaches.passes _ scan hscan
      obtain rfl : fuel = n := by omega
      obtain ⟨inner, hinner⟩ := exists_inner htype hentries
      rw [hself] at hinner
      exact ih inner hinner
  obtain ⟨fuel, scan, hscan⟩ := hreaches.exists_scan h
  exact hnever fuel scan hscan

theorem lt_toLba {base : Int} {e : MbrPartitionEntry} {es : List MbrPartitionEntry}
    (h0 : 0 ≤ base) (hbase : base < disk.sectorCount) (hlink : e.baseLba ≠ 0)
    (hread : disk.partitionEntries (toLba (base + e.baseLba.toNat)) = .ok es)
    : base < toLba (base + e.baseLba.toNat) := by
  have hle := disk.sectorCount_le
  have hlba := e.baseLba.isLt
  have hpos : 0 < e.baseLba.toNat := by
    apply Nat.pos_of_ne_zero
    intro hzero
    exact hlink (BitVec.eq_of_toNat_eq hzero)
  have hrange := lt_of_partitionEntries hread
  unfold toLba at hrange ⊢
  rw [Int.bmod_def] at hrange ⊢
  lia

theorem exists_scan_of_reaches (hlinks : ¬ disk.ReachesSelfLink) (fuel : Nat) {base : Int}
    {es : List MbrPartitionEntry} (h : disk.Reaches base es)
    (hread : disk.partitionEntries base = .ok es) (hfuel : disk.sectorCount - base < fuel)
    : ∃ scan, registerPartitions disk fuel base = .ok scan
        ∧ (scan.result = .ok () → disk.Reaches base []) := by
  induction fuel generalizing base es with
  | zero =>
    have := h.range
    omega
  | succ fuel ih =>
    rw [registerPartitions_succ hread]
    clear hread
    induction es with
    | nil => exact ⟨⟨.ok (), []⟩, rfl, fun _ => h⟩
    | cons e es ihEntries =>
      by_cases hused : e.type = 0
      . rw [registerEntries_unused hused]
        exact ihEntries (h.unused hused)
      . by_cases htype : e.type = mbrPartTypeExtended
        . have hinner : ∃ inner, registerPartitions disk fuel (toLba (base + e.baseLba.toNat)) = .ok inner
              ∧ (inner.result = .ok () → disk.Reaches (toLba (base + e.baseLba.toNat)) []) := by
            have hrange := h.range
            cases hread : disk.partitionEntries (toLba (base + e.baseLba.toNat)) with
            | error status =>
              obtain ⟨n, rfl⟩ : ∃ n, fuel = n + 1 := ⟨fuel - 1, by lia⟩
              rw [registerPartitions_of_error hread]
              exact ⟨_, rfl, fun hresult => by cases hresult⟩
            | ok es' =>
              have hlink : e.baseLba ≠ 0 := by
                intro hzero
                exact hlinks ⟨base, e, es, h, htype, hzero⟩
              have hlt := lt_toLba hrange.1 hrange.2 hlink hread
              exact ih (h.enter htype hread) hread (by omega)
          obtain ⟨inner, hinner, hinnerReaches⟩ := hinner
          cases hresult : inner.result with
          | error status =>
            refine ⟨inner, registerEntries_extended_error htype hinner hresult, ?_⟩
            rw [hresult]
            intro h
            cases h
          | ok u =>
            obtain ⟨rest, hrest, hrestReaches⟩ := ihEntries (h.leave htype (hinnerReaches hresult))
            rw [registerEntries_extended htype hinner hresult, hrest]
            exact ⟨_, rfl, hrestReaches⟩
        . cases hprobe : probe [e.resource base] with
          | error status =>
            rw [registerEntries_partition_error hused htype hprobe]
            exact ⟨_, rfl, fun hresult => by cases hresult⟩
          | ok part =>
            obtain ⟨rest, hrest, hrestReaches⟩ := ihEntries (h.partition hused htype hprobe)
            rw [registerEntries_partition hused htype hprobe, hrest]
            exact ⟨_, rfl, hrestReaches⟩

theorem scanTerminates_iff (disk : Disk) : disk.ScanTerminates ↔ ¬ disk.ReachesSelfLink := by
  constructor
  . exact not_reachesSelfLink_of_terminates
  . intro hlinks
    cases hread : disk.partitionEntries 0 with
    | error status => exact ⟨1, _, registerPartitions_of_error hread 0⟩
    | ok es =>
      obtain ⟨scan, hscan, -⟩ := exists_scan_of_reaches hlinks (disk.sectorCount + 1) (.first hread) hread
        (by omega)
      exact ⟨_, scan, hscan⟩

end Disk

/--
A boot record inside of an extended partition: its sector, counted from the start of the extended
partition, its logical partition, of which `start` is counted from the record, and the number of
sectors in the entry that leads to it.
-/
structure Ebr where
  offset : BitVec 32
  type : BitVec 8
  start : BitVec 32
  count : BitVec 32
  extent : BitVec 32
  type_ne : type ≠ 0 ∧ type ≠ mbrPartTypeExtended ∧ type ≠ mbrPartTypeGpt
  count_ne : count ≠ 0

namespace Ebr

def unusedEntry : MbrPartitionEntry := ⟨0, 0, 0⟩

def partitionEntry (r : Ebr) : MbrPartitionEntry := ⟨r.type, r.start, r.count⟩

def linkEntry (r : Ebr) : MbrPartitionEntry := ⟨mbrPartTypeExtended, r.offset, r.extent⟩

def entries (r : Ebr) : Option Ebr → List MbrPartitionEntry
  | none => [r.partitionEntry, unusedEntry, unusedEntry, unusedEntry]
  | some next => [r.partitionEntry, next.linkEntry, unusedEntry, unusedEntry]

end Ebr

/--
A master boot record with one extended partition, which starts with the first record of a chain.
-/
structure Layout where
  before : List MbrPartitionEntry
  extended : MbrPartitionEntry
  after : List MbrPartitionEntry
  first : Ebr
  rest : List Ebr
  slots : before.length + after.length = 3
  slot_type : ∀ e ∈ before ++ after, e.type ≠ mbrPartTypeExtended
  slot_first : ∀ e, (before ++ extended :: after).head? = some e → e.type ≠ mbrPartTypeGpt
  slot_count : ∀ e ∈ before ++ after, e.type ≠ 0 → e.sectorCount ≠ 0
  extended_type : extended.type = mbrPartTypeExtended
  extended_base : extended.baseLba ≠ 0
  first_offset : first.offset = 0
  offsets : ((first :: rest).map Ebr.offset).Nodup

namespace Layout

variable (l : Layout)

def chain : List Ebr := l.first :: l.rest

/--
The sector of a record.
-/
def lba (r : Ebr) : Nat := l.extended.baseLba.toNat + r.offset.toNat

/--
The records from one on are on the disk, each with a link to the next.
-/
def HoldsChain (disk : Disk) : List Ebr → Prop
  | [] => True
  | r :: rs => disk.partitionEntries (l.lba r) = .ok (r.entries rs.head?) ∧ HoldsChain disk rs

structure Holds (disk : Disk) : Prop where
  mbr : disk.partitionEntries 0 = .ok (l.before ++ l.extended :: l.after)
  chain : l.HoldsChain disk l.chain

def primaries : List PartData :=
  ((l.before ++ l.after).filter (·.type ≠ 0)).map fun e =>
    ⟨e.baseLba.toNat, e.baseLba.toNat + e.sectorCount.toNat - 1⟩

def logicals : List PartData :=
  l.chain.map fun r => ⟨l.lba r + r.start.toNat, l.lba r + r.start.toNat + r.count.toNat - 1⟩

/--
The scan registers each primary and each logical partition once, the latter in the order of the chain.
-/
def Registers (disk : Disk) : Prop :=
  ∃ fuel scan, registerPartitions disk fuel 0 = .ok scan ∧ scan.result = .ok ()
    ∧ scan.partitions.Perm (l.primaries ++ l.logicals) ∧ l.logicals.Sublist scan.partitions

variable {l}

theorem lba_lt (r : Ebr) : l.lba r < 2 ^ 33 := by
  have hbase := l.extended.baseLba.isLt
  have hoffset := r.offset.isLt
  unfold lba
  omega

end Layout

theorem probe_resource {e : MbrPartitionEntry} {base : Nat} (hbase : base < 2 ^ 34)
    (hcount : e.sectorCount ≠ 0)
    : probe [e.resource base]
        =
      .ok ⟨base + e.baseLba.toNat, base + e.baseLba.toNat + e.sectorCount.toNat - 1⟩ := by
  have hlba := e.baseLba.isLt
  have hsectors := e.sectorCount.isLt
  have hpos : 0 < e.sectorCount.toNat := by
    apply Nat.pos_of_ne_zero
    intro hzero
    exact hcount (BitVec.eq_of_toNat_eq hzero)
  have hvalue : ∀ n : Int, 0 ≤ n → n < 2 ^ 63
      → (toUInt64 (toLba n)).toNat = n.toNat ∧ (toUInt64 (toLba n)).toBitVec.toInt = n := by
    intro n h0 hn
    have htoNat : (toUInt64 (toLba n)).toNat = n.toNat := by
      have hmod : (n % 2 ^ 64).toNat = n.toNat := by lia
      rw [Disk.toLba_eq h0 hn, toUInt64, hmod]
      exact UInt64.toNat_ofNat_of_lt' (show n.toNat < 2 ^ 64 by omega)
    refine ⟨htoNat, ?_⟩
    rw [BitVec.toInt_eq_toNat_cond, UInt64.toNat_toBitVec, htoNat, if_pos (by omega)]
    lia
  obtain ⟨hlow, hlowInt⟩ := hvalue (base + e.baseLba.toNat) (by omega) (by omega)
  obtain ⟨hhigh, hhighInt⟩ := hvalue (base + e.baseLba.toNat + e.sectorCount.toNat - 1) (by lia) (by lia)
  unfold probe MbrPartitionEntry.resource
  simp only [ne_eq, not_true_eq_false, false_or]
  rw [if_neg, hlowInt, hhighInt]
  rw [gt_iff_lt, UInt64.lt_iff_toNat_lt, hlow, hhigh]
  lia

/--
The entries in front of others, if none of them is an extended partition.
-/
theorem registerEntries_append (inner : Int → Run Scan) {base : Nat} (hbase : base < 2 ^ 34)
    (es rest : List MbrPartitionEntry) (htype : ∀ e ∈ es, e.type ≠ mbrPartTypeExtended)
    (hcount : ∀ e ∈ es, e.type ≠ 0 → e.sectorCount ≠ 0)
    : registerEntries inner base (es ++ rest)
        =
      registerEntries inner base rest
        >>= fun scan => .ok ⟨scan.result, ((es.filter (·.type ≠ 0)).map fun e : MbrPartitionEntry =>
            (⟨base + e.baseLba.toNat, base + e.baseLba.toNat + e.sectorCount.toNat - 1⟩ : PartData))
          ++ scan.partitions⟩ := by
  induction es with
  | nil =>
    rw [List.nil_append]
    cases registerEntries inner base rest <;> rfl
  | cons e es ih =>
    have hrest := ih (fun a ha => htype a (List.mem_cons_of_mem e ha))
      (fun a ha => hcount a (List.mem_cons_of_mem e ha))
    rw [List.cons_append]
    by_cases hused : e.type = 0
    . rw [registerEntries_unused hused, hrest, List.filter_cons_of_neg (by rw [hused]; decide)]
    . have hsectors := hcount e List.mem_cons_self hused
      rw [registerEntries_partition hused (htype e List.mem_cons_self) (probe_resource hbase hsectors)]
      rw [hrest, List.filter_cons_of_pos (by simpa using hused)]
      cases registerEntries inner base rest <;> rfl

namespace Layout

variable {l : Layout} {disk : Disk}

def logical (r : Ebr) (base : Nat) : PartData :=
  ⟨base + r.start.toNat, base + r.start.toNat + r.count.toNat - 1⟩

theorem registerEntries_unusedEntries (inner : Int → Run Scan) (base : Int) (n : Nat)
    : registerEntries inner base (List.replicate n Ebr.unusedEntry) = .ok ⟨.ok (), []⟩ := by
  induction n with
  | zero => rfl
  | succ n ih =>
    rw [List.replicate_succ, registerEntries_unused rfl]
    exact ih

theorem scan_last {base : Nat} (hbase : base < 2 ^ 34) {r : Ebr}
    (h : disk.partitionEntries base = .ok (r.entries none)) (fuel : Nat)
    : registerPartitions disk (fuel + 1) base = .ok ⟨.ok (), [logical r base]⟩ := by
  rw [Disk.registerPartitions_succ h]
  have hprobe := probe_resource (e := r.partitionEntry) hbase r.count_ne
  rw [Ebr.entries, registerEntries_partition r.type_ne.1 r.type_ne.2.1 hprobe]
  have hrest := registerEntries_unusedEntries (registerPartitions disk fuel) base 3
  simp only [List.replicate] at hrest
  rw [hrest]
  rfl

theorem scan_link {base : Nat} (hbase : base < 2 ^ 34) {r next : Ebr}
    (h : disk.partitionEntries base = .ok (r.entries (some next))) {fuel : Nat} {scan : Scan}
    (hscan : registerPartitions disk fuel (base + next.offset.toNat : Nat) = .ok scan)
    (hresult : scan.result = .ok ())
    : registerPartitions disk (fuel + 1) base = .ok ⟨.ok (), logical r base :: scan.partitions⟩ := by
  have hoffset := next.offset.isLt
  rw [Disk.registerPartitions_succ h]
  rw [Ebr.entries, registerEntries_partition r.type_ne.1 r.type_ne.2.1 (probe_resource hbase r.count_ne)]
  have hlink : toLba (base + next.linkEntry.baseLba.toNat) = (base + next.offset.toNat : Nat) := by
    rw [Disk.toLba_eq] <;> simp only [Ebr.linkEntry] <;> omega
  rw [← hlink] at hscan
  rw [registerEntries_extended rfl hscan hresult]
  have hrest := registerEntries_unusedEntries (registerPartitions disk fuel) base 2
  simp only [List.replicate] at hrest
  rw [hrest]
  simp only [bind, Except.bind, List.append_nil]
  rfl

theorem exists_scan_link {base : Nat} (hbase : base < 2 ^ 34) {r next : Ebr}
    (h : disk.partitionEntries base = .ok (r.entries (some next))) {fuel : Nat} {scan : Scan}
    (hscan : registerPartitions disk (fuel + 1) base = .ok scan) (hok : scan.result = .ok ())
    : ∃ inner, registerPartitions disk fuel (base + next.offset.toNat : Nat) = .ok inner
        ∧ inner.result = .ok () ∧ scan.partitions.length = inner.partitions.length + 1 := by
  have hoffset := next.offset.isLt
  have hlink : toLba (base + next.linkEntry.baseLba.toNat) = (base + next.offset.toNat : Nat) := by
    rw [Disk.toLba_eq] <;> simp only [Ebr.linkEntry] <;> omega
  have hscan' := hscan
  rw [Disk.registerPartitions_succ h] at hscan'
  rw [Ebr.entries, registerEntries_partition r.type_ne.1 r.type_ne.2.1
    (probe_resource hbase r.count_ne)] at hscan'
  obtain ⟨rest, hrest, rfl⟩ := exists_rest hscan'
  obtain ⟨inner, hinner⟩ := exists_inner rfl hrest
  cases hresult : inner.result with
  | error status =>
    rw [registerEntries_extended_error rfl hinner hresult] at hrest
    obtain rfl := Except.ok.inj hrest
    cases hok.symm.trans hresult
  | ok u =>
    rw [hlink] at hinner
    refine ⟨inner, hinner, hresult, ?_⟩
    rw [scan_link hbase h hinner hresult] at hscan
    rw [← Except.ok.inj hscan]
    rfl

theorem toLba_extended : toLba (0 + l.extended.baseLba.toNat) = l.extended.baseLba.toNat := by
  have hlba := l.extended.baseLba.isLt
  rw [Disk.toLba_eq] <;> omega

theorem registerEntries_before (inner : Int → Run Scan) (rest : List MbrPartitionEntry)
    : registerEntries inner 0 (l.before ++ rest)
        =
      registerEntries inner 0 rest
        >>= fun scan => .ok ⟨scan.result, ((l.before.filter (·.type ≠ 0)).map fun e : MbrPartitionEntry =>
            (⟨0 + e.baseLba.toNat, 0 + e.baseLba.toNat + e.sectorCount.toNat - 1⟩ : PartData))
          ++ scan.partitions⟩ := by
  have happend := registerEntries_append inner (show 0 < 2 ^ 34 by decide) l.before rest
    (fun e he => l.slot_type e (List.mem_append_left _ he))
    (fun e he => l.slot_count e (List.mem_append_left _ he))
  rw [Int.natCast_zero] at happend
  exact happend

theorem scan_mbr (h : l.Holds disk) {fuel : Nat} {scan : Scan}
    (hscan : registerPartitions disk fuel l.extended.baseLba.toNat = .ok scan)
    (hresult : scan.result = .ok ())
    : ∃ before after, registerPartitions disk (fuel + 1) 0
          = .ok ⟨.ok (), before ++ (scan.partitions ++ after)⟩
        ∧ before ++ after = l.primaries := by
  rw [Disk.registerPartitions_succ h.mbr, registerEntries_before]
  rw [← toLba_extended] at hscan
  rw [registerEntries_extended l.extended_type hscan hresult]
  have happend := registerEntries_append (registerPartitions disk fuel) (show 0 < 2 ^ 34 by decide)
    l.after [] (fun e he => l.slot_type e (List.mem_append_right _ he))
    (fun e he => l.slot_count e (List.mem_append_right _ he))
  rw [Int.natCast_zero, List.append_nil] at happend
  rw [happend]
  refine ⟨_, _, rfl, ?_⟩
  unfold primaries
  simp only [Int.zero_add, List.append_nil, List.filter_append, List.map_append]

theorem exists_scan_mbr (h : l.Holds disk) {fuel : Nat} {scan : Scan}
    (hscan : registerPartitions disk fuel 0 = .ok scan) (hok : scan.result = .ok ())
    : ∃ n inner, registerPartitions disk n l.extended.baseLba.toNat = .ok inner
        ∧ inner.result = .ok ()
        ∧ scan.partitions.length = l.primaries.length + inner.partitions.length := by
  cases fuel with
  | zero => cases hscan
  | succ n =>
    have hentries := hscan
    rw [Disk.registerPartitions_succ h.mbr, registerEntries_before] at hentries
    obtain ⟨rest, hrest, rfl⟩ := exists_rest hentries
    obtain ⟨inner, hinner⟩ := exists_inner l.extended_type hrest
    cases hresult : inner.result with
    | error status =>
      rw [registerEntries_extended_error l.extended_type hinner hresult] at hrest
      obtain rfl := Except.ok.inj hrest
      cases hok.symm.trans hresult
    | ok u =>
      rw [toLba_extended] at hinner
      obtain ⟨before, after, hmbr, hprimaries⟩ := scan_mbr h hinner hresult
      refine ⟨n, inner, hinner, hresult, ?_⟩
      rw [hmbr] at hscan
      rw [← Except.ok.inj hscan, ← hprimaries]
      simp only [List.length_append]
      omega

theorem registers_of_scan (h : l.Holds disk) (fuel : Nat)
    (hscan : registerPartitions disk fuel l.extended.baseLba.toNat = .ok ⟨.ok (), l.logicals⟩)
    : l.Registers disk := by
  obtain ⟨before, after, hmbr, hprimaries⟩ := scan_mbr h hscan rfl
  refine ⟨fuel + 1, _, hmbr, rfl, ?_, ?_⟩
  . rw [← hprimaries, List.append_assoc]
    exact List.perm_append_comm.append_left before
  . rw [← List.append_assoc]
    exact (List.sublist_append_right before _).trans (List.sublist_append_left _ after)

theorem lba_first : l.lba l.first = l.extended.baseLba.toNat := by
  unfold lba
  rw [l.first_offset]
  rfl

theorem registers_of_short (h : l.Holds disk) (hshort : l.chain.length ≤ 2) : l.Registers disk := by
  have hchain := h.chain
  unfold chain at hchain hshort
  have hbase : l.extended.baseLba.toNat < 2 ^ 34 := by
    have := l.extended.baseLba.isLt
    omega
  match hrest : l.rest with
  | [] =>
    rw [hrest] at hchain
    have hfirst := hchain.1
    rw [lba_first] at hfirst
    apply registers_of_scan h 1
    rw [scan_last hbase hfirst]
    simp [logicals, chain, hrest, logical, lba_first]
  | [r] =>
    rw [hrest] at hchain
    obtain ⟨hfirst, hlast, -⟩ := hchain
    rw [lba_first] at hfirst
    apply registers_of_scan h 2
    have hscan := scan_last (Nat.lt_trans (l.lba_lt r) (by decide)) hlast 0
    rw [scan_link hbase hfirst hscan rfl]
    simp [logicals, chain, hrest, logical, lba_first]
  | r :: r' :: rs =>
    rw [hrest] at hshort
    simp at hshort

end Layout

def entryCodec : Codec MbrPartitionEntry where
  width := 16
  put m p e :=
    ((m.write (p + 4) 1 e.type.toNat).write (p + 8) 4 e.baseLba.toNat).write (p + 12) 4 e.sectorCount.toNat
  get := .get
  put_eqOn m p e := by
    apply Bytes.eqOn_trans _ Bytes.write_eqOn Set.Subset.rfl (Set.Ico_subset_Ico (by omega) (by omega))
    apply Bytes.eqOn_trans _ Bytes.write_eqOn Set.Subset.rfl (Set.Ico_subset_Ico (by omega) (by omega))
    exact Bytes.write_eqOn.mono (Set.compl_subset_compl.mpr (Set.Ico_subset_Ico (by omega) (by omega)))
  get_eqOn m m' p h := by
    have hread : ∀ i n, i + n ≤ 16 → Bytes.read m' (p + i) n = Bytes.read m (p + i) n := by
      intro i n hle
      exact Bytes.read_eqOn (h.mono (Set.Ico_subset_Ico (by omega) (by omega)))
    unfold MbrPartitionEntry.get
    rw [hread 4 1 (by omega), hread 8 4 (by omega), hread 12 4 (by omega)]
  get_put m p e := by
    have htype := e.type.isLt
    have hbase := e.baseLba.isLt
    have hcount := e.sectorCount.isLt
    unfold MbrPartitionEntry.get
    rw [Bytes.read_write_of_lt hcount]
    rw [Bytes.read_write_disjoint (q := p + 8) (by omega), Bytes.read_write_of_lt hbase]
    rw [Bytes.read_write_disjoint (by omega), Bytes.read_write_disjoint (by omega),
      Bytes.read_write_of_lt htype]
    simp

/--
A sector with four entries and zeros in the rest of it.
-/
def recordSector (es : List MbrPartitionEntry) : Bytes :=
  entryCodec.putAll (Bytes.write (fun _ => 0) 510 2 mbrSignature) 446 es

theorem Disk.partitionEntries_recordSector {disk : Disk} {lba : Int} {es : List MbrPartitionEntry}
    (h : disk.read lba = .ok (recordSector es)) (hlength : es.length = 4)
    (hfirst : ∀ e, es.head? = some e → e.type ≠ mbrPartTypeGpt)
    : disk.partitionEntries lba = .ok es := by
  have hall := entryCodec.getAll_putAll (m := Bytes.write (fun _ => 0) 510 2 mbrSignature) (p := 446) es
  rw [hlength] at hall
  have hentries : [.get (recordSector es) 446, .get (recordSector es) 462, .get (recordSector es) 478,
      .get (recordSector es) 494] = es := hall
  have hsignature : (recordSector es).read 510 2 = mbrSignature := by
    unfold recordSector
    rw [Bytes.read_eqOn ((entryCodec.putAll_eqOn es).mono _)]
    . exact Bytes.read_write_of_lt (by decide)
    . intro q hq hin
      rw [hlength] at hin
      have := hq.1
      have := hin.2
      simp only [entryCodec] at this
      omega
  have hgpt : (MbrPartitionEntry.get (recordSector es) 446).type ≠ mbrPartTypeGpt := by
    apply hfirst
    have hhead := congrArg List.head? hentries
    exact hhead.symm
  unfold partitionEntries
  simp only [h]
  rw [if_neg (by simp [hsignature]), if_neg hgpt, hentries]

namespace Layout

variable {l : Layout}

/--
The entries of the record in a sector of the chain.
-/
def recordAt (l : Layout) (lba : Int) : List Ebr → Option (List MbrPartitionEntry)
  | [] => none
  | r :: rs => if l.lba r = lba then some (r.entries rs.head?) else l.recordAt lba rs

theorem exists_of_recordAt {lba : Int} {rs : List Ebr} {es : List MbrPartitionEntry}
    (h : l.recordAt lba rs = some es)
    : ∃ r next, r ∈ rs ∧ l.lba r = lba ∧ es = r.entries next ∧ ∀ r', next = some r' → r' ∈ rs.tail := by
  induction rs with
  | nil => cases h
  | cons r rs ih =>
    rw [recordAt] at h
    split at h
    next heq =>
      cases h
      refine ⟨r, rs.head?, List.mem_cons_self, heq, rfl, ?_⟩
      intro r' hr'
      exact List.mem_of_mem_head? hr'
    next =>
      obtain ⟨r', next, hmem, hlba, hes, hnext⟩ := ih h
      refine ⟨r', next, List.mem_cons_of_mem r hmem, hlba, hes, ?_⟩
      intro r'' hr''
      exact List.mem_of_mem_tail (hnext r'' hr'')

/--
A disk on which only the master boot record and the records of the chain can be read.
-/
def sparseDisk (l : Layout) : Disk where
  sectorCount := 2 ^ 33
  read lba :=
    if lba = 0 then .ok (recordSector (l.before ++ l.extended :: l.after))
    else
      match l.recordAt lba l.chain with
      | some es => .ok (recordSector es)
      | none => .error (.invalidValue, fun _ => 0)
  sectorCount_le := by decide
  read_outside lba h := by
    rw [if_neg (by omega)]
    cases hrecord : l.recordAt lba l.chain with
    | none => exact ⟨_, rfl⟩
    | some es =>
      obtain ⟨r, _, -, hlba, -⟩ := exists_of_recordAt hrecord
      have := l.lba_lt r
      omega

theorem extended_pos : 0 < l.extended.baseLba.toNat := by
  apply Nat.pos_of_ne_zero
  intro hzero
  exact l.extended_base (BitVec.eq_of_toNat_eq hzero)

theorem partitionEntries_of_recordAt {lba : Int} {es : List MbrPartitionEntry}
    (h : l.recordAt lba l.chain = some es)
    : l.sparseDisk.partitionEntries lba = .ok es := by
  have hpos := l.extended_pos
  obtain ⟨r, next, -, hlba, hes, -⟩ := exists_of_recordAt h
  have hread : l.sparseDisk.read lba = .ok (recordSector es) := by
    unfold sparseDisk
    simp only [h]
    rw [if_neg]
    unfold Layout.lba at hlba
    omega
  apply Disk.partitionEntries_recordSector hread
  . rw [hes]
    cases next <;> rfl
  . intro e he
    have hhead : e = r.partitionEntry := by
      rw [hes] at he
      cases next <;> cases he <;> rfl
    rw [hhead]
    exact r.type_ne.2.2

theorem holdsChain_of_recordAt {disk : Disk} {rs : List Ebr} (hnodup : (rs.map Ebr.offset).Nodup)
    (h : ∀ lba es, l.recordAt lba rs = some es → disk.partitionEntries lba = .ok es)
    : l.HoldsChain disk rs := by
  induction rs with
  | nil => trivial
  | cons r rs ih =>
    rw [List.map_cons, List.nodup_cons] at hnodup
    constructor
    . apply h
      rw [recordAt, if_pos rfl]
    . apply ih hnodup.2
      intro lba es hes
      apply h
      rw [recordAt, if_neg, hes]
      -- the record is not the first one, as its sector is another
      intro heq
      obtain ⟨r', _, hmem, hlba, -⟩ := exists_of_recordAt hes
      apply hnodup.1
      rw [List.mem_map]
      refine ⟨r', hmem, BitVec.eq_of_toNat_eq ?_⟩
      unfold Layout.lba at heq hlba
      omega

theorem sparseDisk_holds : l.Holds l.sparseDisk where
  mbr := by
    apply Disk.partitionEntries_recordSector
    . rfl
    . have := l.slots
      rw [List.length_append, List.length_cons]
      omega
    . exact l.slot_first
  chain := holdsChain_of_recordAt l.offsets (fun _ _ => partitionEntries_of_recordAt)

theorem offset_pos {r : Ebr} (h : r ∈ l.rest) : 0 < r.offset.toNat := by
  apply Nat.pos_of_ne_zero
  intro hzero
  have hnodup := l.offsets
  rw [List.map_cons, List.nodup_cons] at hnodup
  apply hnodup.1
  rw [l.first_offset, List.mem_map]
  exact ⟨r, h, BitVec.eq_of_toNat_eq hzero⟩

/--
The records from a sector on.
-/
def countFrom (l : Layout) (lba : Nat) : Nat := l.chain.countP (lba ≤ l.lba ·)

theorem countFrom_lt {r : Ebr} (hmem : r ∈ l.chain) {lba : Nat} (hlt : l.lba r < lba)
    : l.countFrom lba < l.countFrom (l.lba r) := by
  obtain ⟨rs, rs', hsplit⟩ := List.append_of_mem hmem
  have hle : ∀ xs : List Ebr, xs.countP (lba ≤ l.lba ·) ≤ xs.countP (l.lba r ≤ l.lba ·) := by
    intro xs
    apply List.countP_mono_left
    intro x _ hx
    rw [decide_eq_true_eq] at hx ⊢
    omega
  have hrs := hle rs
  have hrs' := hle rs'
  unfold countFrom
  rw [hsplit, List.countP_append, List.countP_append, List.countP_cons_of_neg (by simpa using hlt),
    List.countP_cons_of_pos (by simp)]
  omega

theorem sparseDisk_recordAt {lba : Nat} (hpos : 0 < lba) {es : List MbrPartitionEntry}
    (h : l.sparseDisk.partitionEntries lba = .ok es)
    : l.recordAt lba l.chain = some es := by
  cases hrecord : l.recordAt lba l.chain with
  | none =>
    have hread : l.sparseDisk.read lba = .error (.invalidValue, fun _ => 0) := by
      unfold sparseDisk
      simp only [hrecord]
      rw [if_neg (by omega)]
    rw [Disk.partitionEntries, hread] at h
    cases h
  | some es' =>
    rw [partitionEntries_of_recordAt hrecord] at h
    cases h
    rfl

theorem length_le_countFrom (fuel : Nat) {lba : Nat} (hpos : 0 < lba) {scan : Scan}
    (hscan : registerPartitions l.sparseDisk fuel lba = .ok scan) (hok : scan.result = .ok ())
    : scan.partitions.length ≤ l.countFrom lba := by
  induction fuel generalizing lba scan with
  | zero => cases hscan
  | succ fuel ih =>
    cases hread : l.sparseDisk.partitionEntries lba with
    | error status =>
      rw [Disk.registerPartitions_of_error hread] at hscan
      cases hscan
      cases hok
    | ok es =>
      obtain ⟨r, next, hmem, hlba, hes, hnext⟩ := exists_of_recordAt (sparseDisk_recordAt hpos hread)
      obtain rfl : l.lba r = lba := by omega
      have hlt : l.lba r < 2 ^ 34 := Nat.lt_trans (l.lba_lt r) (by decide)
      subst hes
      cases next with
      | none =>
        rw [scan_last hlt hread] at hscan
        cases hscan
        have := l.countFrom_lt hmem (Nat.lt_succ_self (l.lba r))
        exact Nat.lt_of_le_of_lt (Nat.zero_le _) this
      | some r' =>
        obtain ⟨inner, hinner, hinnerOk, hlength⟩ := exists_scan_link hlt hread hscan hok
        have hoffset := l.offset_pos (hnext r' rfl)
        have hle := ih (by omega) hinner hinnerOk
        have := l.countFrom_lt hmem (show l.lba r < l.lba r + r'.offset.toNat by omega)
        omega

/--
The link in the second record is followed from there, and so leads past the third record.
-/
theorem length_lt_of_long {r r' : Ebr} {rs : List Ebr} (hrest : l.rest = r :: r' :: rs) (fuel : Nat)
    {scan : Scan} (hscan : registerPartitions l.sparseDisk fuel l.extended.baseLba.toNat = .ok scan)
    (hok : scan.result = .ok ())
    : scan.partitions.length < l.chain.length := by
  have hchain := l.sparseDisk_holds.chain
  unfold chain at hchain
  rw [hrest] at hchain
  obtain ⟨hfirst, hsecond, -⟩ := hchain
  rw [lba_first] at hfirst
  have hpos := l.extended_pos
  have hr := l.offset_pos (r := r) (by simp [hrest])
  have hr' := l.offset_pos (r := r') (by simp [hrest])
  have hsecondLba : l.extended.baseLba.toNat + r.offset.toNat = l.lba r := rfl
  have hthirdLba : l.extended.baseLba.toNat + r'.offset.toNat = l.lba r' := rfl
  cases fuel with
  | zero => cases hscan
  | succ fuel =>
    have hlt := l.lba_lt r
    obtain ⟨inner, hinner, hinnerOk, hlength⟩ := exists_scan_link (by lia) hfirst hscan hok
    rw [hsecondLba] at hinner
    cases fuel with
    | zero => cases hinner
    | succ fuel =>
      obtain ⟨inner', hinner', hinnerOk', hlength'⟩ := exists_scan_link (by omega) hsecond hinner hinnerOk
      have hle := length_le_countFrom fuel (by omega) hinner' hinnerOk'
      have hcount : l.countFrom (l.lba r + r'.offset.toNat) ≤ rs.length := by
        unfold countFrom chain
        have hfirstLba := l.lba_first
        rw [hrest, List.countP_cons_of_neg, List.countP_cons_of_neg, List.countP_cons_of_neg]
        . exact List.countP_le_length
        all_goals
          simp only [decide_eq_true_eq]
          lia
      unfold chain
      rw [hrest]
      simp only [List.length_cons]
      lia

theorem not_registers_of_long (hlong : 2 < l.chain.length) : ¬ l.Registers l.sparseDisk := by
  obtain ⟨r, r', rs, hrest⟩ : ∃ r r' rs, l.rest = r :: r' :: rs := by
    unfold chain at hlong
    match hrest : l.rest with
    | [] => simp [hrest] at hlong
    | [r] => simp [hrest] at hlong
    | r :: r' :: rs => exact ⟨r, r', rs, rfl⟩
  intro ⟨fuel, scan, hscan, hok, hperm, _⟩
  obtain ⟨n, inner, hinner, hinnerOk, hlength⟩ := exists_scan_mbr l.sparseDisk_holds hscan hok
  have hlt := length_lt_of_long hrest n hinner hinnerOk
  have hall := hperm.length_eq
  rw [List.length_append, logicals, List.length_map] at hall
  omega

end Layout

/--
The scan of a disk ends if and only if no extended partition that it gets to starts with the record it
is in. A chain of extended boot records is registered on every disk that holds it if and only if it has
at most two records: from the second one on, links are added to the wrong sector.
-/
theorem mbr_scan_iff (disk : Disk) (l : Layout)
    : (disk.ScanTerminates ↔ ¬ disk.ReachesSelfLink)
        ∧ ((∀ disk, l.Holds disk → l.Registers disk) ↔ l.chain.length ≤ 2) := by
  refine ⟨disk.scanTerminates_iff, ?_⟩
  constructor
  . intro hregisters
    apply Nat.le_of_not_lt
    intro hlong
    exact Layout.not_registers_of_long hlong (hregisters l.sparseDisk l.sparseDisk_holds)
  . intro hshort disk hholds
    exact Layout.registers_of_short hholds hshort

/--
A disk of one sector with a record, whose first entry is an extended partition that starts there.
-/
def selfLinkDisk : Disk where
  sectorCount := 1
  read lba :=
    if lba = 0 then
      .ok (recordSector [⟨mbrPartTypeExtended, 0, 1⟩, Ebr.unusedEntry, Ebr.unusedEntry, Ebr.unusedEntry])
    else
      .error (.invalidValue, fun _ => 0)
  sectorCount_le := by decide
  read_outside lba h := by
    rw [if_neg (by omega)]
    exact ⟨_, rfl⟩

def threeEbrLayout : Layout where
  before := []
  extended := ⟨mbrPartTypeExtended, 100, 30⟩
  after := [Ebr.unusedEntry, Ebr.unusedEntry, Ebr.unusedEntry]
  first := ⟨0, 0x83, 1, 9, 10, by decide, by decide⟩
  rest := [⟨10, 0x83, 1, 9, 10, by decide, by decide⟩, ⟨20, 0x83, 1, 9, 10, by decide, by decide⟩]
  slots := rfl
  slot_type := by decide
  slot_first := by decide
  slot_count := by decide
  extended_type := rfl
  extended_base := by decide
  first_offset := rfl
  offsets := by decide

theorem mbr_scan_fails
    : ¬ selfLinkDisk.ScanTerminates
        ∧ threeEbrLayout.Holds threeEbrLayout.sparseDisk
        ∧ ¬ threeEbrLayout.Registers threeEbrLayout.sparseDisk := by
  refine ⟨?_, Layout.sparseDisk_holds, Layout.not_registers_of_long (by decide)⟩
  rw [Disk.scanTerminates_iff, not_not]
  refine ⟨0, _, _, .first (Disk.partitionEntries_recordSector rfl rfl (by decide)), rfl, rfl⟩

end Emos.Boot.Part
