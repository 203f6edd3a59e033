import Emos.Boot.Fat.Lemmas.Directory
import Emos.Boot.Fat.Lemmas.Pending

/-!
This module contains what the calls of `iter_directory` do one after the other: whether long names stay in their
buffers, and which entries are reported with one.
-/

open Lib

namespace Emos.Boot

variable {d d' : FatData} {dir dir' : FatDir} {es : List Direntry} {e : Direntry} {i j : Nat} {stack : LfnBuf}

namespace Directory

variable {directory : Directory}

/--
A handle of the directory is at position `i`.
-/
def Position (directory : Directory) (d : FatData) : FatData → FatDir → Nat → Prop :=
  match directory with
  | .root => AtRoot d d.databuf
  | .chain cs => AtChain d cs (d.geometry.clusterSize % 2 ^ 16 / 32)

theorem drop_entries (f : Nat → Direntry) (n : Nat)
    : ((List.range' 0 n).map f).drop i = (List.range' i (n - i)).map f := by
  rw [← List.map_drop, List.drop_range', Nat.zero_add, Nat.mul_one]

/--
What a call returns is what a search in the entries from its position on gives.
-/
theorem Position.returns (hg : d.geometry.WellFormed) (hd : d.Reliable) (hon : directory.IsOn d)
    (hat : directory.Position d d' dir i) (stack : LfnBuf)
    : ∃ n, ∀ fuel, n ≤ fuel →
        Walk.Returns (directory.fetch d.databuf d) (directory.last d) (directory.Position d)
          (iterDirectory fuel stack d' dir) (scanList ((directory.seen d).drop i) i stack false) := by
  cases directory with
  | root =>
    have walk := rootWalk hg hd hon.1 hon.2 d.databuf
    refine ⟨d.geometry.rootSectorCount * 16 - i + 1, ?_⟩
    intro fuel hfuel
    unfold seen entries
    rw [walk.mode _ _ _ _ _ hat, drop_entries]
    exact walk.findEntry_returns hat (by omega)
  | chain cs =>
    obtain ⟨hchain, hne, hspc⟩ := hon
    have hhead : cs.headD 0 ≠ 0 := by
      obtain ⟨c0, cs', rfl⟩ := List.exists_cons_of_ne_nil hne
      have := (hchain.isCluster c0 List.mem_cons_self).two_le
      show c0 ≠ 0
      omega
    unfold seen
    dsimp only
    split
    . next hsmall =>
      have hpos : 0 < d.geometry.clusterSize / 32 := by
        have := hat.ready.clusterSize_pos
        rw [hat.sameVolume.geometry] at this
        have := clusterSize_eq hg
        omega
      have walk := chainWalk (clusterSize_eq hg) hpos hsmall hhead
      unfold Position at hat ⊢
      dsimp only at hat ⊢
      rw [Nat.mod_eq_of_lt hsmall] at hat ⊢
      refine ⟨(visited d.geometry.fatType.maxCluster cs).length * (d.geometry.clusterSize / 32) - i + 1, ?_⟩
      intro fuel hfuel
      unfold entries
      rw [walk.mode _ _ _ _ _ hat]
      dsimp only
      rw [drop_entries]
      exact walk.findEntry_returns hat (by omega)
    . next hwide =>
      refine ⟨(visited d.geometry.fatType.maxCluster cs).length, ?_⟩
      intro fuel hfuel
      obtain ⟨b, hc, _, _⟩ := hat.position
      have hzero : d'.geometry.clusterSize % 2 ^ 16 / 32 = 0 := by
        have := hg.clusterSize
        unfold fatSectorSize at this
        rw [hat.sameVolume.geometry]
        lia
      rw [← hat.sameVolume.geometry] at hc hfuel
      rw [iterDirectory_chain (by rw [hat.headCluster]; exact hhead), hzero, List.drop_nil]
      obtain ⟨d2, dir2, hfind⟩ := findEntry_wide hat.ready hc (Nat.le_trans (Nat.sub_le _ b) hfuel)
      rw [hat.sameVolume.geometry] at hfind
      exact ⟨d2, dir2, hfind⟩

/--
The states that calls of `iter_directory` get to after `rewind_directory`, each with the position behind the entry
that was reported last.
-/
inductive Reached (directory : Directory) (d : FatData) (dir : FatDir) : FatData → FatDir → Nat → Prop
  | rewind : Reached directory d dir d (rewindDirectory dir) 0
  | iter {d1 d2 : FatData} {dir1 dir2 : FatDir} {i n : Nat} {stack : LfnBuf} {entry : DirectoryEntry}
      (hreached : Reached directory d dir d1 dir1 i)
      (hiter : ∀ fuel, n ≤ fuel → iterDirectory fuel stack d1 dir1 = .ok ⟨.ok entry, d2, dir2⟩)
      : Reached directory d dir d2 dir2 (i + (passed ((directory.seen d).drop i)).length + 1)

end Directory

theorem foundBy_eq (hfit : NumbersFit (passed es)) (hstop : stopEntry es = some e) (hlive : e.kind = .live)
    : scanList es i stack false
        = .ok (.entry (i + (passed es).length) ((passed es).foldl Direntry.keep stack)
          ((passed es).foldl Direntry.flag false)) := by
  rw [(scanList_eq es i stack false).1 hfit]
  unfold foundBy
  rw [hstop]
  dsimp only
  rw [if_pos hlive]

/--
An entry that is found is the one with which the search ends.
-/
theorem scanList_entry {buf : LfnBuf} {isLfn : Bool} (h : scanList es i stack false = .ok (.entry j buf isLfn))
    : NumbersFit (passed es) ∧ j = i + (passed es).length ∧ buf = (passed es).foldl Direntry.keep stack
        ∧ isLfn = (passed es).foldl Direntry.flag false ∧ ∃ e, stopEntry es = some e ∧ e.kind = .live := by
  by_cases hfit : NumbersFit (passed es)
  . rw [(scanList_eq es i stack false).1 hfit] at h
    unfold foundBy at h
    refine ⟨hfit, ?_⟩
    cases hstop : stopEntry es with
    | none =>
      rw [hstop] at h
      cases h
    | some e =>
      rw [hstop] at h
      dsimp only at h
      split at h
      . next hlive =>
        cases h
        exact ⟨rfl, rfl, rfl, e, rfl, hlive⟩
      . cases h
  . rw [(scanList_eq es i stack false).2 hfit] at h
    contradiction

namespace Directory

variable {directory : Directory}

theorem Reached.position (hg : d.geometry.WellFormed) (hd : d.Reliable) (hon : directory.IsOn d)
    (hcoherent : directory.Coherent d) (hdir : dir.headCluster = directory.headCluster)
    (h : directory.Reached d dir d' dir' i)
    : directory.Position d d' dir' i := by
  induction h with
  | rewind =>
    cases directory with
    | root => exact ⟨⟨rfl, rfl⟩, hcoherent, fun _ _ => rfl, hdir, rfl, Nat.zero_le _⟩
    | chain cs =>
      obtain ⟨hchain, hne, hspc⟩ := hon
      obtain ⟨c0, cs', rfl⟩ := List.exists_cons_of_ne_nil hne
      have hready : d.Ready (c0 :: cs') := ⟨hg, hd, hchain, hcoherent.1, hcoherent.2⟩
      exact ⟨⟨rfl, rfl⟩, hready, hdir, 0, congrArg some hdir.symm, Nat.zero_le _, by simp [rewindDirectory]⟩
  | @iter d1 d2 dir1 dir2 i n stack entry hreached hiter ih =>
    obtain ⟨m, hreturns⟩ := ih.returns hg hd hon stack
    have hreturns := hreturns (max n m) (Nat.le_max_right _ _)
    rw [hiter (max n m) (Nat.le_max_left _ _)] at hreturns
    cases hscan : scanList ((directory.seen d).drop i) i stack false with
    | error fault =>
      rw [hscan] at hreturns
      contradiction
    | ok found =>
      rw [hscan] at hreturns
      cases found with
      | «end» j =>
        obtain ⟨_, _, h⟩ := hreturns
        cases h
      | none j buf isLfn =>
        obtain ⟨_, _, h⟩ := hreturns
        cases h
      | entry j buf isLfn =>
        obtain ⟨_, hj, _⟩ := scanList_entry hscan
        unfold Walk.Returns at hreturns
        dsimp only at hreturns
        subst hj
        split at hreturns
        . contradiction
        . obtain ⟨d3, dir3, h, _, hat⟩ := hreturns
          cases h
          exact hat

end Directory

section Safety

/--
The units up to the first one that ends the name are all in the fragments, and there is room for their bytes and a
terminator.
-/
def NameFits (name : List Direntry) : Prop :=
  ∃ units : List (BitVec 16),
    (∀ k, k < units.length → assemble name k = units[k]?) ∧ (∀ u ∈ units, ¬ LongName.IsEnd u)
      ∧ (∃ u, assemble name units.length = some u ∧ LongName.IsEnd u)
      ∧ LongName.HasRoom fatLfnU8Buflen units

/--
What `lfn_ucs2_to_utf8` makes of the buffer is a string in the array for it, and the units that it reads are in the
buffer and have been written for this name.
-/
structure NameSafe (name : List Direntry) (buf : LfnBuf) : Prop where
  terminated : 0 ∈ lfnUcs2ToUtf8 buf 0x3F
  inArray : (lfnUcs2ToUtf8 buf 0x3F).length ≤ filenameMax
  read : ∀ k, k < lfnUcs2UnitsRead buf → k < fatLfnBuflen ∧ (assemble name k).isSome

variable {name : List Direntry} {buf : LfnBuf}

theorem unitsRead_lt (buf : LfnBuf) {k : Nat} (hk : k < lfnUcs2UnitsRead buf) : k < fatLfnBuflen := by
  have hle := LongName.unitsRead_go_le buf fatLfnU8Buflen 0 0
  have hread : lfnUcs2UnitsRead buf = (lfnUcs2End.go buf fatLfnU8Buflen 0 0).1 := rfl
  unfold fatLfnU8Buflen at hle hread
  unfold fatLfnBuflen
  omega

theorem length_lfnUcs2ToUtf8_le (buf : LfnBuf) (fallback : BitVec 8)
    : (lfnUcs2ToUtf8 buf fallback).length ≤ filenameMax :=
  Nat.le_trans (LongName.length_go_le buf fallback (Nat.zero_le fatLfnU8Buflen)) (by decide)

theorem length_le_unitBytes {units : List (BitVec 16)} (hunits : ∀ u ∈ units, ¬ LongName.IsEnd u)
    : units.length ≤ (units.flatMap LongName.unitBytes).length := by
  induction units with
  | nil => exact Nat.le_refl 0
  | cons u units ih =>
    rw [List.forall_mem_cons] at hunits
    have hrest := ih hunits.2
    have hpos := List.length_pos_iff.mpr (LongName.unitBytes_ne_nil hunits.1)
    rw [List.flatMap_cons, List.length_append, List.length_cons]
    omega

theorem length_lt_of_hasRoom {room : Nat} {units : List (BitVec 16)} (h : LongName.HasRoom room units)
    (hunits : ∀ u ∈ units, ¬ LongName.IsEnd u) : units.length < room := by
  cases h with
  | inl h =>
    have := length_le_unitBytes hunits
    omega
  | inr h =>
    obtain ⟨htotal, u, hlast, hthree⟩ := h
    obtain ⟨front, rfl⟩ := List.getLast?_eq_some_iff.mp hlast
    have := length_le_unitBytes fun v hv => hunits v (List.mem_append_left _ hv)
    rw [List.flatMap_append, List.flatMap_singleton, List.length_append] at htotal
    rw [List.length_append, List.length_singleton]
    omega

theorem nameSafe_iff (hbuf : ∀ k u, assemble name k = some u → buf k = u)
    : NameSafe name buf ↔ NameFits name := by
  constructor
  . intro h
    obtain ⟨n, hn, hunits, hend⟩ :=
      LongName.exists_end_of_zero_mem buf 0x3F (by decide) List.not_mem_nil h.terminated
    have hzero := LongName.zero_mem_go_iff buf 0x3F (by decide) hn (Nat.zero_le _) List.not_mem_nil hunits hend
    have hroom := hzero.1.mp h.terminated
    have hread : lfnUcs2UnitsRead buf = n + 1 := by
      have := hzero.2 hroom
      rw [Nat.zero_add] at this
      exact this
    have hassemble : ∀ k, k ≤ n → assemble name k = some (buf k) := by
      intro k hk
      obtain ⟨u, hu⟩ := Option.isSome_iff_exists.mp (h.read k (by omega)).2
      rw [hu, hbuf k u hu]
    refine ⟨LongName.unitsFrom buf 0 n, ?_, hunits, ?_, hroom⟩
    . intro k hk
      rw [LongName.length_unitsFrom] at hk
      rw [hassemble k (by omega)]
      unfold LongName.unitsFrom
      rw [List.getElem?_map, List.getElem?_range' hk]
      simp
    . rw [LongName.length_unitsFrom]
      rw [Nat.zero_add] at hend
      exact ⟨buf n, hassemble n (Nat.le_refl n), hend⟩
  . intro ⟨units, hassemble, hunits, ⟨last, hlast, hend⟩, hroom⟩
    have hlt := length_lt_of_hasRoom hroom hunits
    have hfrom : LongName.unitsFrom buf 0 units.length = units := by
      unfold LongName.unitsFrom
      apply List.ext_getElem
      . rw [List.length_map, List.length_range']
      . intro k hk hk'
        have hunit := hassemble k hk'
        rw [List.getElem?_eq_getElem hk'] at hunit
        rw [List.getElem_map, List.getElem_range', ← hbuf k _ hunit, Nat.zero_add, Nat.one_mul]
    rw [← hbuf _ _ hlast] at hend
    rw [← hfrom] at hunits hroom
    rw [← Nat.zero_add units.length] at hend
    have hzero := LongName.zero_mem_go_iff buf 0x3F (by decide) hlt (Nat.zero_le _) List.not_mem_nil hunits hend
    have hread : lfnUcs2UnitsRead buf = units.length + 1 := by
      have := hzero.2 hroom
      rw [Nat.zero_add] at this
      exact this
    refine ⟨hzero.1.mpr hroom, length_lfnUcs2ToUtf8_le buf 0x3F, ?_⟩
    intro k hk
    refine ⟨unitsRead_lt buf hk, ?_⟩
    rw [hread] at hk
    by_cases hin : k < units.length
    . rw [hassemble k hin, List.getElem?_eq_getElem hin]
      rfl
    . rw [show k = units.length by lia, hlast]
      rfl

/--
All fragments that the search passes fit into the buffer, and so does the name that is pending in front of the entry
that it finds.
-/
def LongNamesFit (es : List Direntry) : Prop :=
  NumbersFit (passed es)
    ∧ ∀ e, stopEntry es = some e → e.kind = .live → pendingName (passed es) ≠ [] →
      NameFits (pendingName (passed es))

namespace Directory

variable {directory : Directory}

/--
Whatever is on the stack, a call stores units in the buffer only, and if it converts a name then that is a safe one.
-/
def LongNamesSafe (directory : Directory) (d d' : FatData) (dir : FatDir) (i : Nat) : Prop :=
  ∀ stack, ∃ found,
    scanList ((directory.seen d).drop i) i stack false = .ok found
      ∧ (∃ n, ∀ fuel, n ≤ fuel →
        Walk.Returns (directory.fetch d.databuf d) (directory.last d) (directory.Position d)
          (iterDirectory fuel stack d' dir) (.ok found))
      ∧ ∀ j buf, found = .entry j buf true → NameSafe (pendingName (passed ((directory.seen d).drop i))) buf

theorem keep_passed (es : List Direntry) (stack : LfnBuf) (k : Nat) (u : BitVec 16)
    (h : assemble (pendingName (passed es)) k = some u) : (passed es).foldl Direntry.keep stack k = u := by
  apply keep_pending (passed es) stack _ h
  intro k u hnone
  contradiction

/--
In every state that is reached, the next call handles long names safely if and only if they fit.
-/
theorem long_names_safe_iff (hg : d.geometry.WellFormed) (hd : d.Reliable) (hon : directory.IsOn d)
    (hcoherent : directory.Coherent d) (hdir : dir.headCluster = directory.headCluster)
    (h : directory.Reached d dir d' dir' i)
    : directory.LongNamesSafe d d' dir' i ↔ LongNamesFit ((directory.seen d).drop i) := by
  have hat := h.position hg hd hon hcoherent hdir
  generalize hes : (directory.seen d).drop i = es
  constructor
  . intro hsafe
    obtain ⟨found, hscan, _, hname⟩ := hsafe fun _ => 0
    rw [hes] at hscan hname
    have hfit : NumbersFit (passed es) := by
      by_contra hnot
      rw [(scanList_eq es i _ false).2 hnot] at hscan
      contradiction
    refine ⟨hfit, ?_⟩
    intro e hstop hlive hpending
    rw [foundBy_eq hfit hstop hlive, (flag_passed (passed es)).mpr hpending] at hscan
    exact (nameSafe_iff (keep_passed es _)).mp (hname _ _ (Except.ok.inj hscan).symm)
  . intro ⟨hfit, hname⟩ stack
    obtain ⟨n, hreturns⟩ := hat.returns hg hd hon stack
    rw [hes] at hreturns
    rw [(scanList_eq es i stack false).1 hfit] at hreturns
    rw [hes]
    refine ⟨_, (scanList_eq es i stack false).1 hfit, ⟨n, hreturns⟩, ?_⟩
    intro j buf hfound
    have hscan := (scanList_eq es i stack false).1 hfit
    rw [hfound] at hscan
    obtain ⟨_, _, hbuf, hflag, e, hstop, hlive⟩ := scanList_entry hscan
    rw [hbuf]
    exact (nameSafe_iff (keep_passed es stack)).mpr (hname e hstop hlive ((flag_passed (passed es)).mp hflag.symm))

end Directory

/--
A volume with a root directory of one sector.
-/
def rootWith (es : List Direntry) : FatData where
  blkdev :=
    { block := fun lba i => if lba = 1 then 0 else (es.getD (i / 32) fun _ => 0) (Fin.ofNat 32 i)
      fails := fun _ => none }
  geometry :=
    { reservedSectors := 1, sectorSize := 512, clusterSize := 512, sectorsPerCluster := 1,
      fatType := .fat12, dataAreaBegin := 2, rootCluster := 0, rootSectorCount := 1 }
  readCount := 0
  fatbufLba := -1
  fatbuf := fun _ => 0
  databufLbaStart := -1
  databuf := fun _ => 0

/--
A fragment of a long name with one character and a terminator.
-/
def fragmentWith (sequenceIndex c checksum : BitVec 8) : Direntry := fun k =>
  if k = 0 then sequenceIndex else if k = 1 then c else if k = 11 then 0x0F else if k = 13 then checksum else 0

def fileWith (c : BitVec 8) : Direntry := fun k => if k = 0 then c else if k < 11 then 0x20 else 0

def rootDir : FatDir := rewindDirectory ⟨0, 0, 0, fun _ => 0⟩

theorem rootWith_coherent (es : List Direntry)
    : (rootWith es).geometry.WellFormed ∧ (rootWith es).Reliable ∧ Directory.root.IsOn (rootWith es)
        ∧ Directory.root.Coherent (rootWith es) := by
  have hgeometry : (rootWith es).geometry = ⟨1, 512, 512, 1, .fat12, 2, 0, 1⟩ := rfl
  refine ⟨?_, fun _ => rfl, ?_, ?_⟩
  . rw [hgeometry]
    exact ⟨rfl, rfl, by decide, by decide⟩
  . unfold Directory.IsOn
    dsimp only
    rw [hgeometry]
    exact ⟨by decide, by decide⟩
  . intro sector _ h
    have hnone : (-1 : Int) = (2 + sector : Nat) := h
    omega

theorem numbersFit_iff (es : List Direntry)
    : NumbersFit es ↔ es.all (fun e => e.kind ≠ .fragment || e.fitsLfnBuf) = true := by
  unfold NumbersFit
  rw [List.all_eq_true]
  refine forall_congr' fun e => forall_congr' fun _ => ?_
  rw [Bool.or_eq_true, Direntry.fitsLfnBuf_iff, decide_eq_true_eq, imp_iff_not_or]

/--
A file with a complete long name in front of it.
-/
def longNamed : FatData := rootWith [fragmentWith 0x41 0x61 0x80, fileWith 0x41]

theorem longNamed_coherent
    : longNamed.geometry.WellFormed ∧ longNamed.Reliable ∧ Directory.root.IsOn longNamed
        ∧ Directory.root.Coherent longNamed :=
  rootWith_coherent _

theorem long_names_safe_iff_file : Directory.root.LongNamesSafe longNamed longNamed rootDir 0 := by
  obtain ⟨hg, hd, hon, hcoherent⟩ := longNamed_coherent
  have hreached : Directory.root.Reached longNamed ⟨0, 0, 0, fun _ => 0⟩ longNamed rootDir 0 := .rewind
  have hfit : NumbersFit (passed ((Directory.root.seen longNamed).drop 0)) := by
    rw [numbersFit_iff]
    decide
  have hname : NameFits (pendingName (passed ((Directory.root.seen longNamed).drop 0))) := by
    refine ⟨[0x61], ?_, ?_, ⟨0, by decide, .inl rfl⟩, .inl (by decide)⟩
    . intro k hk
      have hzero : k = 0 := Nat.lt_one_iff.mp hk
      subst hzero
      decide
    . rw [List.forall_mem_singleton]
      decide
  exact (Directory.long_names_safe_iff hg hd hon hcoherent rfl hreached).mpr ⟨hfit, fun _ _ _ _ => hname⟩

/--
Long names of more than 247 characters have a fragment with number 20.
-/
theorem long_names_unsafe
    : let d := rootWith [fragmentWith 0x54 0x61 0, fileWith 0x41]
      (iterDirectory 2 (fun _ => 0) d rootDir).map (fun _ => ()) = .error .access
        ∧ Directory.root.Reached d ⟨0, 0, 0, fun _ => 0⟩ d rootDir 0
        ∧ ¬ Directory.root.LongNamesSafe d d rootDir 0 := by
  intro d
  refine ⟨by decide, .rewind, ?_⟩
  intro h
  obtain ⟨found, hscan, _⟩ := h fun _ => 0
  have hfit : ¬ NumbersFit (passed ((Directory.root.seen d).drop 0)) := by
    rw [numbersFit_iff]
    decide
  rw [(scanList_eq _ 0 _ false).2 hfit] at hscan
  contradiction

end Safety

section Owner

namespace Direntry

def name (e : Direntry) : List (BitVec 8) := (List.range 11).map fun i => e (Fin.ofNat 32 i)

def checksum (e : Direntry) : BitVec 8 := e 13

end Direntry

/--
The loop of `get_sfn_checksum`, which nothing calls, over the characters of a short name.
-/
def getSfnChecksum (buf : List (BitVec 8)) : BitVec 8 :=
  buf.foldl (fun chksum c => (if chksum &&& 1 ≠ 0 then 0x80 else 0) + (chksum >>> 1) + c) 0

/--
All fragments of a long name of `e`, the last one of the name first.
-/
structure IsLongName (run : List Direntry) (e : Direntry) : Prop where
  nonempty : run ≠ []
  fragments : ∀ f ∈ run, f.kind = .fragment
  numbers : run.map Direntry.sequenceNumber = (List.range' 1 run.length).reverse
  last : run.map Direntry.isLastFragment = true :: List.replicate (run.length - 1) false
  checksums : ∀ f ∈ run, f.checksum = getSfnChecksum e.name

/--
A complete long name is directly in front of entry `j`.
-/
def HasLongName (es : List Direntry) (j : Nat) : Prop :=
  ∃ e run, es[j]? = some e ∧ run <:+ es.take j ∧ IsLongName run e

theorem reportOf_short (entry : Run Direntry) (buf : LfnBuf) (report : DirectoryEntry × Direntry)
    : reportOf entry buf false = .ok report
        ↔
      ∃ e, entry = .ok e ∧ e.IsAscii ∧ report = ⟨⟨e.shortName, e.size⟩, e⟩ := by
  unfold reportOf
  constructor
  . intro h
    obtain ⟨e, hentry, h⟩ := (bind_eq_ok _ _ _).mp h
    obtain ⟨name, hname, h⟩ := (bind_eq_ok _ _ _).mp h
    obtain ⟨hascii, rfl⟩ := (Direntry.getSfnFilename_eq_ok_iff e name).mp hname
    cases h
    exact ⟨e, hentry, hascii, rfl⟩
  . intro ⟨e, hentry, hascii, hreport⟩
    have hname := (Direntry.getSfnFilename_eq_ok_iff e e.shortName).mpr ⟨hascii, rfl⟩
    rw [hentry, hreport, ok_bind]
    dsimp only
    rw [if_neg (by decide), hname, ok_bind]

namespace Directory

variable {directory : Directory}

/--
For an entry without a complete long name in front of it a call does not convert one, and reports its 8.3 name.
-/
def NamesOwned (directory : Directory) (d d' : FatData) (dir : FatDir) (i : Nat) : Prop :=
  let es := (directory.seen d).drop i
  let j := i + (passed es).length
  ∀ e stack, stopEntry es = some e → e.kind = .live → ¬ HasLongName (directory.seen d) j →
    (∃ buf, scanList es i stack false = .ok (.entry j buf false))
      ∧ ∃ n, ∀ fuel, n ≤ fuel →
        ∃ size d2 dir2, iterDirectory fuel stack d' dir = .ok ⟨.ok ⟨e.shortName, size⟩, d2, dir2⟩

/--
The search finds an entry that has a complete long name in front of it, or no fragment is pending there and the 8.3
name is found where the driver reads it.
-/
def NamesClear (directory : Directory) (d : FatData) (i : Nat) : Prop :=
  let es := (directory.seen d).drop i
  let j := i + (passed es).length
  ∀ e, stopEntry es = some e → e.kind = .live → ¬ HasLongName (directory.seen d) j →
    pendingName (passed es) = [] ∧ NumbersFit (passed es)
      ∧ ∃ e', directory.fetch d.databuf d j = .ok e' ∧ e'.IsAscii ∧ e'.shortName = e.shortName

/--
In every state that is reached, the next call reports the 8.3 name of an entry without a complete long name if
and only if no fragment is pending in front of it.
-/
theorem names_owned_iff (hg : d.geometry.WellFormed) (hd : d.Reliable) (hon : directory.IsOn d)
    (hcoherent : directory.Coherent d) (hdir : dir.headCluster = directory.headCluster)
    (h : directory.Reached d dir d' dir' i)
    : directory.NamesOwned d d' dir' i ↔ directory.NamesClear d i := by
  have hat := h.position hg hd hon hcoherent hdir
  unfold NamesOwned NamesClear
  dsimp only
  generalize hes : (directory.seen d).drop i = es
  refine forall_congr' fun e => ?_
  constructor
  . intro howned hstop hlive hnot
    obtain ⟨⟨buf, hscan⟩, n, hiter⟩ := howned (fun _ => 0) hstop hlive hnot
    obtain ⟨hfit, _, _, hflag, _⟩ := scanList_entry hscan
    obtain ⟨m, hreturns⟩ := hat.returns hg hd hon fun _ => 0
    obtain ⟨size, d2, dir2, hiter⟩ := hiter (max n m) (Nat.le_max_left _ _)
    have hreturns := hreturns (max n m) (Nat.le_max_right _ _)
    rw [hes, hscan, hiter] at hreturns
    refine ⟨?_, hfit, ?_⟩
    . by_contra hpending
      rw [(flag_passed (passed es)).mpr hpending] at hflag
      contradiction
    . unfold Walk.Returns at hreturns
      dsimp only at hreturns
      split at hreturns
      . contradiction
      . next report hreport =>
        obtain ⟨e', hfetch, hascii, rfl⟩ := (reportOf_short _ buf report).mp hreport
        obtain ⟨_, _, hiter, _⟩ := hreturns
        have hentry := Except.ok.inj (congrArg Prod.fst (Except.ok.inj hiter))
        exact ⟨e', hfetch, hascii, (congrArg DirectoryEntry.name hentry).symm⟩
  . intro hclear stack hstop hlive hnot
    obtain ⟨hpending, hfit, e', hfetch, hascii, hname⟩ := hclear hstop hlive hnot
    have hflag : (passed es).foldl Direntry.flag false = false := by
      rw [← Bool.not_eq_true, flag_passed, not_not]
      exact hpending
    have hscan : scanList es i stack false = _ := foundBy_eq hfit hstop hlive
    rw [hflag] at hscan
    refine ⟨⟨_, hscan⟩, ?_⟩
    obtain ⟨n, hreturns⟩ := hat.returns hg hd hon stack
    refine ⟨n, ?_⟩
    intro fuel hfuel
    have hreturns := hreturns fuel hfuel
    have hreport := (reportOf_short _ ((passed es).foldl Direntry.keep stack) _).mpr ⟨e', hfetch, hascii, rfl⟩
    rw [hes, hscan] at hreturns
    unfold Walk.Returns at hreturns
    dsimp only at hreturns
    rw [hreport] at hreturns
    obtain ⟨d2, dir2, hiter, _⟩ := hreturns
    rw [hname] at hiter
    exact ⟨_, d2, dir2, hiter⟩

end Directory

theorem names_owned_iff_file
    : HasLongName (Directory.root.seen longNamed) 1 ∧ Directory.root.NamesOwned longNamed longNamed rootDir 0 := by
  obtain ⟨hg, hd, hon, hcoherent⟩ := longNamed_coherent
  have hreached : Directory.root.Reached longNamed ⟨0, 0, 0, fun _ => 0⟩ longNamed rootDir 0 := .rewind
  have hname : HasLongName (Directory.root.seen longNamed) 1 := by
    have hkinds : (((Directory.root.seen longNamed).take 1).all fun f => f.kind = .fragment) = true := by
      decide
    have hchecksums : (((Directory.root.seen longNamed).take 1).all fun f =>
        f.checksum = getSfnChecksum (longNamed.rootEntry 1).name) = true := by
      decide +kernel
    refine ⟨longNamed.rootEntry 1, _, rfl, List.suffix_refl _, ?_⟩
    constructor
    . decide
    . intro f hf
      exact of_decide_eq_true (List.all_eq_true.mp hkinds f hf)
    . decide
    . decide
    . intro f hf
      exact of_decide_eq_true (List.all_eq_true.mp hchecksums f hf)
  refine ⟨hname, (Directory.names_owned_iff hg hd hon hcoherent rfl hreached).mpr ?_⟩
  intro e _ _ hnot
  have hlength : (passed ((Directory.root.seen longNamed).drop 0)).length = 1 := by decide
  rw [hlength] at hnot
  exact absurd hname hnot

/--
The fragment of a file that has been deleted is in front of another file.
-/
def leftBehind : FatData := rootWith [fragmentWith 0x41 0x61 0x80, fileWith 0xE5, fileWith 0x42]

theorem orphan_not_owned
    : (iterDirectory 2 (fun _ => 0) leftBehind rootDir).map (fun r => r.1.map (·.name)) = .ok (.ok [0x61, 0])
        ∧ (leftBehind.rootEntry 2).shortName = [0x42, 0]
        ∧ Directory.root.Reached leftBehind ⟨0, 0, 0, fun _ => 0⟩ leftBehind rootDir 0
        ∧ ¬ Directory.root.NamesOwned leftBehind leftBehind rootDir 0 := by
  refine ⟨by decide, by decide, .rewind, ?_⟩
  intro h
  have hlength : (passed ((Directory.root.seen leftBehind).drop 0)).length = 2 := by decide
  have hflag : (passed ((Directory.root.seen leftBehind).drop 0)).foldl Direntry.flag false = true := by
    decide
  have hnot : ¬ HasLongName (Directory.root.seen leftBehind) 2 := by
    intro ⟨e, run, _, hsuffix, hrun⟩
    have hkind := hrun.fragments _ (List.getLast_mem hrun.nonempty)
    rw [hsuffix.getLast hrun.nonempty] at hkind
    have hdeleted : ((Directory.root.seen leftBehind).take 2).getLast?.map Direntry.kind = some .deleted := by
      decide
    rw [List.getLast?_eq_some_getLast (hsuffix.ne_nil hrun.nonempty), Option.map_some, hkind] at hdeleted
    exact absurd hdeleted (by decide)
  have hstop : stopEntry ((Directory.root.seen leftBehind).drop 0) = some (leftBehind.rootEntry 2) := by
    unfold stopEntry
    rw [hlength]
    rfl
  have hlive : (leftBehind.rootEntry 2).kind = .live := by decide
  have howned := h _ (fun _ => 0) hstop hlive
  rw [hlength] at howned
  obtain ⟨⟨buf, hscan⟩, _⟩ := howned hnot
  obtain ⟨_, _, _, hfalse, _⟩ := scanList_entry hscan
  rw [hflag] at hfalse
  exact Bool.false_ne_true hfalse

end Owner

end Emos.Boot
