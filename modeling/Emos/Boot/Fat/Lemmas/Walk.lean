import Emos.Boot.Fat.Lemmas.Listing

/-!
This module contains the enumeration of a directory, block by block, as one walk over all of its
entries.
-/

open Lib

namespace Emos.Boot

/--
Enumerate a directory: call `iter_directory` until it does not report an entry.
-/
def enumerate (fuel : Nat) (stack : Nat → LfnBuf) : (calls k : Nat) → FatData → FatDir
    → Run (List (DirectoryEntry × Direntry) × Status)
  | 0, _, _, _ => .error .hang
  | calls + 1, k, d, dir => do
    match ← iterDirectory fuel (stack k) d dir with
    | ⟨.error status, _, _⟩ => .ok ⟨[], status⟩
    | ⟨.ok entry, d, dir⟩ =>
      let ⟨rest, status⟩ ← enumerate fuel stack calls (k + 1) d dir
      .ok ⟨⟨entry, dir.direntry⟩ :: rest, status⟩

/--
How a search for the next item ends, and at which position.
-/
inductive Found where
  | end (i : Nat)
  | entry (i : Nat) (buf : LfnBuf) (isLfn : Bool)
  | none (i : Nat) (buf : LfnBuf) (isLfn : Bool)

/--
Search the next item in entries that start at position `i`.
-/
def scanList : List Direntry → (i : Nat) → LfnBuf → Bool → Run Found
  | [], i, buf, isLfn => .ok (.none i buf isLfn)
  | e :: es, i, buf, isLfn =>
    match e.kind with
    | .free => .ok (.end i)
    | .deleted => scanList es (i + 1) buf isLfn
    | .fragment => do
      let buf ← getLfnFilename e buf
      scanList es (i + 1) buf true
    | .label => scanList es (i + 1) buf false
    | .live => .ok (.entry i buf isLfn)

theorem scanList_append (xs ys : List Direntry) (i : Nat) (buf : LfnBuf) (isLfn : Bool)
    : scanList (xs ++ ys) i buf isLfn
        =
      scanList xs i buf isLfn >>= fun
        | .none i buf isLfn => scanList ys i buf isLfn
        | found => .ok found := by
  induction xs generalizing i buf isLfn with
  | nil => rfl
  | cons e es ih =>
    rw [List.cons_append, scanList, scanList]
    cases e.kind with
    | free => rfl
    | deleted => exact ih _ _ _
    | fragment =>
      cases getLfnFilename e buf with
      | error fault => rfl
      | ok buf => exact ih _ _ _
    | label => exact ih _ _ _
    | live => rfl

/--
An item is found between two positions, or the search ends at the second one.
-/
def Found.Between (lo hi : Nat) : Found → Prop
  | .end _ => True
  | .entry i _ _ => lo ≤ i ∧ i < hi
  | .none i _ _ => i = hi

theorem Found.Between.mono {found : Found} {lo lo' hi : Nat} (h : found.Between lo hi)
    (hlo : lo' ≤ lo) : found.Between lo' hi := by
  cases found with
  | «end» i => trivial
  | entry i buf isLfn => exact ⟨Nat.le_trans hlo h.1, h.2⟩
  | none i buf isLfn => exact h

theorem scanList_between {es : List Direntry} {i : Nat} {buf : LfnBuf} {isLfn : Bool} {found : Found}
    (h : scanList es i buf isLfn = .ok found) : found.Between i (i + es.length) := by
  induction es generalizing i buf isLfn with
  | nil =>
    cases h
    rfl
  | cons e es ih =>
    rw [scanList] at h
    have hstep : ∀ {buf isLfn}, scanList es (i + 1) buf isLfn = .ok found →
        found.Between i (i + (e :: es).length) := by
      intro buf isLfn h
      have := (ih h).mono (Nat.le_succ i)
      rw [List.length_cons, show i + (es.length + 1) = i + 1 + es.length by omega]
      exact this
    cases hkind : e.kind with
    | free =>
      rw [hkind] at h
      cases h
      trivial
    | deleted =>
      rw [hkind] at h
      exact hstep h
    | fragment =>
      rw [hkind] at h
      obtain ⟨buf', _, h⟩ := (bind_eq_ok _ _ _).mp h
      exact hstep h
    | label =>
      rw [hkind] at h
      exact hstep h
    | live =>
      rw [hkind] at h
      cases h
      refine ⟨Nat.le_refl i, ?_⟩
      rw [List.length_cons]
      omega

theorem ite_eq_match_kind {α : Type} (e : Direntry) (free deleted fragment label live : α)
    : (if e 0 = 0 then free
      else if e 0 = 0xE5 then deleted
      else if e.attr &&& fatAttrLfnentry = fatAttrLfnentry then fragment
      else if e.attr &&& fatAttrVolumeId ≠ 0 then label
      else live)
        =
      match e.kind with
      | .free => free
      | .deleted => deleted
      | .fragment => fragment
      | .label => label
      | .live => live := by
  unfold Direntry.kind
  split
  . rfl
  . split
    . rfl
    . split
      . rfl
      . split
        . rfl
        . rfl

/--
The handle of a directory at position `i`, which has the index `i - off`.
-/
def FatDir.at (dir : FatDir) (off i : Nat) : FatDir := { dir with currentEntryIndex := i - off }

theorem FatDir.at_add (dir : FatDir) (off : Nat) : dir.at off (off + dir.currentEntryIndex) = dir := by
  unfold FatDir.at
  rw [Nat.add_sub_cancel_left]

/--
What the search in a block leaves, `off` is by how much positions differ from indices.
-/
def Found.toScan (dir : FatDir) (off : Nat) : Found → Scan
  | .end i => .end (dir.at off i)
  | .entry i buf isLfn => .found (dir.at off i) buf isLfn
  | .none i buf isLfn => .exhausted (dir.at off i) buf isLfn

theorem scanBlock_eq {d : FatData} {isRootdir : Bool} {epb off i len fuel : Nat} {dir : FatDir}
    {buf : LfnBuf} {isLfn : Bool} {f : Nat → Direntry} (hlen : i % epb + len = epb) (hpos : 0 < len)
    (hfuel : len ≤ fuel) (hoff : off ≤ i) (hmod : epb ∣ off)
    (hindex : isRootdir = true ∨ i - off + len ≤ epb)
    (hentries : ∀ k, k < len → d.entryAt (i % epb + k) = .ok (f (i + k)))
    : scanBlock d isRootdir epb fuel (dir.at off i) buf isLfn
        =
      (scanList ((List.range' i len).map f) i buf isLfn).map (Found.toScan dir off) := by
  induction len generalizing i fuel buf isLfn with
  | zero => contradiction
  | succ len ih =>
    cases fuel with
    | zero => omega
    | succ fuel =>
      have hsame : (i - off) % epb = i % epb := by
        obtain ⟨q, hq⟩ := hmod
        rw [show i = epb * q + (i - off) by lia, Nat.mul_add_mod]
        congr 1
        lia
      have hentry := hentries 0 (by omega)
      rw [Nat.add_zero, Nat.add_zero] at hentry
      -- going on after the first of the entries
      have hnext : ∀ buf isLfn,
          nextEntry (scanBlock d isRootdir epb fuel) epb (dir.at off i) buf isLfn
          = (scanList ((List.range' (i + 1) len).map f) (i + 1) buf isLfn).map
            (Found.toScan dir off) := by
        intro buf isLfn
        have hstep : i - off + 1 = i + 1 - off := by lia
        unfold nextEntry
        show (if (i - off + 1) % epb = 0 then _ else _) = _
        by_cases hend : len = 0
        . subst hend
          rw [if_pos (Blocks.place_end (by lia) (by lia)).2]
          show Except.ok (Scan.exhausted { dir with currentEntryIndex := i - off + 1 } buf isLfn) = _
          rw [hstep]
          rfl
        . have hadd : (i + 1) % epb = i % epb + 1 := (Blocks.place_add (by lia)).2
          have hindex' : (i - off + 1) % epb = (i - off) % epb + 1 :=
            (Blocks.place_add (by lia)).2
          rw [if_neg (by lia)]
          show scanBlock d isRootdir epb fuel { dir with currentEntryIndex := i - off + 1 } buf isLfn = _
          rw [hstep]
          refine ih (by lia) (by lia) (by lia) (by lia) (hindex.imp_right fun h => by lia) ?_
          intro k hk
          have := hentries (k + 1) (by lia)
          rw [hadd, show i % epb + 1 + k = i % epb + (k + 1) by lia,
            show i + 1 + k = i + (k + 1) by lia]
          exact this
      rw [scanBlock]
      have hcond : (!(isRootdir || decide ((dir.at off i).currentEntryIndex < epb))) = false := by
        rcases hindex with hroot | hlt
        . rw [hroot]
          rfl
        . have : (dir.at off i).currentEntryIndex < epb := by
            show i - off < epb
            lia
          rw [decide_eq_true this, Bool.or_true]
          rfl
      rw [hcond, if_neg (by decide)]
      show (d.entryAt ((i - off) % epb) >>= _) = _
      rw [hsame, hentry]
      dsimp only [bind, Except.bind]
      rw [ite_eq_match_kind, List.range'_succ, List.map_cons, scanList]
      cases (f i).kind with
      | free => rfl
      | deleted => exact hnext _ _
      | fragment =>
        cases getLfnFilename (f i) buf with
        | error fault => rfl
        | ok buf => exact hnext _ _
      | label => exact hnext _ _
      | live => rfl

/--
How the driver walks over `n` entries, of which `f` has the bytes. `At` tells at which position a handle
is, `fetch` what is found at the place where an entry is read again, and `last` what is reported when
there is no further block.
-/
structure Walk (isRootdir : Bool) (epb n : Nat) (f : Nat → Direntry) (fetch : Nat → Run Direntry)
    (last : Status) (At : FatData → FatDir → Nat → Prop) : Prop where
  pos : 0 < epb
  dvd : epb ∣ n
  le : ∀ d dir i, At d dir i → i ≤ n
  mode : ∀ fuel stack d dir i, At d dir i →
    iterDirectory fuel stack d dir = findEntry isRootdir epb fuel d dir stack false
  block : ∀ d dir i, At d dir i → i < n →
    ∃ (d' : FatData) (dir' : FatDir) (off : Nat),
      fetchBlock d dir isRootdir epb = .ok ⟨.ok (), d', dir'.at off i⟩
      ∧ off ≤ i ∧ epb ∣ off ∧ (isRootdir = true ∨ i - off + (epb - i % epb) ≤ epb)
      ∧ (∀ k, k < epb - i % epb → d'.entryAt (i % epb + k) = .ok (f (i + k))
        ∧ d'.entryAt (i + k - off) = fetch (i + k))
      ∧ ∀ j e, i ≤ j → j ≤ i + (epb - i % epb) → At d' { dir'.at off j with direntry := e } j
  stop : ∀ d dir, At d dir n →
    ∃ d' dir', fetchBlock d dir isRootdir epb = .ok ⟨.error last, d', dir'⟩

theorem reportEntry_eq (d : FatData) (dir : FatDir) (buf : LfnBuf) (isLfn : Bool)
    : reportEntry d dir buf isLfn
        =
      (reportOf (d.entryAt dir.currentEntryIndex) buf isLfn).map fun report =>
        ⟨report.1, { dir with
          direntry := report.2, currentEntryIndex := dir.currentEntryIndex + 1 }⟩ := by
  unfold reportEntry reportOf
  cases d.entryAt dir.currentEntryIndex with
  | error fault => rfl
  | ok e =>
    cases isLfn with
    | true => rfl
    | false =>
      dsimp only [bind, Except.bind]
      cases getSfnFilename e with
      | error fault => rfl
      | ok name => rfl

namespace Walk

variable {isRootdir : Bool} {epb n : Nat} {f : Nat → Direntry} {fetch : Nat → Run Direntry}
  {last : Status} {At : FatData → FatDir → Nat → Prop}

/--
What `iter_directory` returns when the search for the next item ends in some way.
-/
def Returns (fetch : Nat → Run Direntry) (last : Status) (At : FatData → FatDir → Nat → Prop)
    (result : Run (Except Status DirectoryEntry × FatData × FatDir)) : Run Found → Prop
  | .error fault => result = .error fault
  | .ok (.end _) => ∃ d dir, result = .ok ⟨.error .endOfList, d, dir⟩
  | .ok (.none _ _ _) => ∃ d dir, result = .ok ⟨.error last, d, dir⟩
  | .ok (.entry i buf isLfn) =>
    match reportOf (fetch i) buf isLfn with
    | .error fault => result = .error fault
    | .ok report =>
      ∃ d dir, result = .ok ⟨.ok report.1, d, dir⟩ ∧ dir.direntry = report.2 ∧ At d dir (i + 1)

theorem rest_le (w : Walk isRootdir epb n f fetch last At) {i : Nat} (hi : i < n)
    : i + (epb - i % epb) ≤ n := by
  obtain ⟨q, hq⟩ := w.dvd
  have hsplit := Nat.div_add_mod i epb
  have hmod := Nat.mod_lt i w.pos
  have hdiv : i / epb < q := Nat.div_lt_of_lt_mul (by omega)
  have hmul : epb * (i / epb + 1) ≤ epb * q := Nat.mul_le_mul_left _ hdiv
  rw [Nat.mul_add, Nat.mul_one] at hmul
  lia

theorem findEntry_returns (w : Walk isRootdir epb n f fetch last At) {d : FatData} {dir : FatDir}
    {i fuel : Nat} {buf : LfnBuf} {isLfn : Bool} (hat : At d dir i) (hfuel : n - i < fuel)
    : Returns fetch last At (findEntry isRootdir epb fuel d dir buf isLfn)
        (scanList ((List.range' i (n - i)).map f) i buf isLfn) := by
  induction fuel generalizing d dir i buf isLfn with
  | zero => contradiction
  | succ fuel ih =>
    have hle := w.le _ _ _ hat
    rw [findEntry]
    by_cases hend : i = n
    . subst hend
      obtain ⟨d', dir', hfetch⟩ := w.stop _ _ hat
      rw [hfetch, Nat.sub_self]
      exact ⟨d', dir', rfl⟩
    . have hrest := w.rest_le (show i < n by omega)
      have hmod := Nat.mod_lt i w.pos
      obtain ⟨d', dir', off, hfetch, hoff, hdvd, hindex, hentries, hat'⟩ :=
        w.block _ _ _ hat (by lia)
      rw [hfetch]
      dsimp only [bind, Except.bind]
      rw [scanBlock_eq (by lia) (by lia) (by lia) hoff hdvd hindex fun k hk => (hentries k hk).1]
      -- the entries are those of the block, and then those of the blocks behind it
      rw [show n - i = epb - i % epb + (n - (i + (epb - i % epb))) by lia]
      rw [← List.range'_append_1, List.map_append, scanList_append]
      cases hscan : scanList ((List.range' i (epb - i % epb)).map f) i buf isLfn with
      | error fault => rfl
      | ok found =>
        have hbetween := scanList_between hscan
        rw [List.length_map, List.length_range'] at hbetween
        cases found with
        | «end» j => exact ⟨d', dir'.at off j, rfl⟩
        | entry j buf isLfn =>
          obtain ⟨hij, hj⟩ := hbetween
          have hread := (hentries (j - i) (by lia)).2
          rw [show i + (j - i) = j by lia] at hread
          dsimp only [Except.map, Found.toScan, bind, Except.bind, Returns]
          rw [reportEntry_eq]
          show match reportOf (fetch j) buf isLfn with
            | .error fault => _
            | .ok report => _
          rw [show (dir'.at off j).currentEntryIndex = j - off from rfl, hread]
          cases reportOf (fetch j) buf isLfn with
          | error fault => rfl
          | ok report =>
            refine ⟨d', _, rfl, rfl, ?_⟩
            have := hat' (j + 1) report.2 (by omega) (by omega)
            unfold FatDir.at at *
            dsimp only at *
            rw [show j + 1 - off = j - off + 1 by lia] at this
            exact this
        | none j buf isLfn =>
          have hj : j = i + (epb - i % epb) := hbetween
          subst hj
          have := hat' (i + (epb - i % epb)) dir'.direntry (by omega) (by omega)
          exact ih this (by lia)

/--
How an enumeration of the entries up to position `n` goes on after a search.
-/
def goOn (fetch : Nat → Run Direntry) (stack : Nat → LfnBuf) (last : Status) (f : Nat → Direntry)
    (n k : Nat) : Found → Run (List (DirectoryEntry × Direntry) × Status)
  | .end _ => .ok ⟨[], .endOfList⟩
  | .none _ _ _ => .ok ⟨[], last⟩
  | .entry i buf isLfn => do
    let report ← reportOf (fetch i) buf isLfn
    let ⟨rest, status⟩ ← enumList fetch stack last ((List.range' (i + 1) (n - (i + 1))).map f) (i + 1)
      (k + 1) (stack (k + 1)) false
    .ok ⟨report :: rest, status⟩

theorem enumList_eq_scanList (stack : Nat → LfnBuf) (i m k : Nat) (buf : LfnBuf) (isLfn : Bool)
    : enumList fetch stack last ((List.range' i m).map f) i k buf isLfn
        =
      scanList ((List.range' i m).map f) i buf isLfn >>= goOn fetch stack last f (i + m) k := by
  induction m generalizing i buf isLfn with
  | zero => rfl
  | succ m ih =>
    have hend : i + 1 + m = i + (m + 1) := by omega
    rw [List.range'_succ, List.map_cons, enumList, scanList]
    cases (f i).kind with
    | free => rfl
    | deleted =>
      rw [← hend]
      exact ih _ _ _
    | fragment =>
      cases getLfnFilename (f i) buf with
      | error fault => rfl
      | ok buf =>
        rw [← hend]
        exact ih _ _ _
    | label =>
      rw [← hend]
      exact ih _ _ _
    | live =>
      dsimp only [bind, Except.bind, goOn]
      rw [show i + (m + 1) - (i + 1) = m by lia]

theorem enumerate_eq (w : Walk isRootdir epb n f fetch last At) {stack : Nat → LfnBuf} {d : FatData}
    {dir : FatDir} {i k fuel calls : Nat} (hat : At d dir i) (hfuel : n - i < fuel)
    (hcalls : n - i < calls)
    : enumerate fuel stack calls k d dir
        =
      enumList fetch stack last ((List.range' i (n - i)).map f) i k (stack k) false := by
  induction calls generalizing d dir i k with
  | zero => contradiction
  | succ calls ih =>
    have hle := w.le _ _ _ hat
    have hreturns : Returns fetch last At (findEntry isRootdir epb fuel d dir (stack k) false)
        (scanList ((List.range' i (n - i)).map f) i (stack k) false) :=
      w.findEntry_returns hat hfuel
    rw [enumerate, w.mode _ _ _ _ _ hat, enumList_eq_scanList]
    cases hscan : scanList ((List.range' i (n - i)).map f) i (stack k) false with
    | error fault =>
      rw [hscan] at hreturns
      rw [show findEntry isRootdir epb fuel d dir (stack k) false = .error fault from hreturns]
      rfl
    | ok found =>
      have hbetween := scanList_between hscan
      rw [List.length_map, List.length_range'] at hbetween
      rw [hscan] at hreturns
      cases found with
      | «end» j =>
        obtain ⟨d', dir', h⟩ := hreturns
        rw [h]
        rfl
      | none j buf isLfn =>
        obtain ⟨d', dir', h⟩ := hreturns
        rw [h]
        rfl
      | entry j buf isLfn =>
        obtain ⟨hij, hj⟩ := hbetween
        unfold Returns at hreturns
        dsimp only [bind, Except.bind, goOn] at hreturns ⊢
        cases hreport : reportOf (fetch j) buf isLfn with
        | error fault =>
          rw [hreport] at hreturns
          dsimp only at hreturns
          rw [hreturns]
        | ok report =>
          rw [hreport] at hreturns
          obtain ⟨d', dir', h, hdirentry, hat'⟩ := hreturns
          rw [h]
          dsimp only
          rw [ih hat' (by lia) (by lia), hdirentry]
          rw [show i + (n - i) - (j + 1) = n - (j + 1) by lia]

end Walk

end Emos.Boot
