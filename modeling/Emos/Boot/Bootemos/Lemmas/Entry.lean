import Emos.Boot.Bootemos.Impl.Main

/-!
This module contains what one entry adds to the table. What is finished is the string table up to its
cursor and all entries up to the next one, and nothing that comes later changes it.
-/

open Lib

namespace Emos.Boot

variable {m m' : Bytes} {p q n : Nat} {type : EntryType}

def alignUp (n : Nat) : Nat := (n + 15) / 16 * 16

theorem align_eq_alignUp (h : n + 15 < 2 ^ 32) : align n 16 = alignUp n := by
  unfold align
  rw [u32_of_lt (by omega)]
  rfl

theorem le_alignUp : n ≤ alignUp n := by
  unfold alignUp
  omega

structure EntryIs (m : Bytes) (p : Nat) (type : EntryType) (n : Nat) : Prop where
  type_eq : EntryHeader.type m p = type.code
  headerSize_eq : EntryHeader.headerSize m p = 16
  size_eq : EntryHeader.size m p = n
  le_size : 16 ≤ n

theorem EntryIs.eqOn (h : EntryIs m p type n) (heq : Set.EqOn m' m (Set.Ico p (p + 16)))
    : EntryIs m' p type n := by
  obtain ⟨htype, hheader, hsize, hle⟩ := h
  unfold EntryHeader.type EntryHeader.headerSize EntryHeader.size at *
  constructor
  . unfold EntryHeader.type
    rw [Bytes.read_eqOn (heq.mono (Set.Ico_subset_Ico_right (by omega)))]
    assumption
  . unfold EntryHeader.headerSize
    rw [Bytes.read_eqOn (heq.mono (Set.Ico_subset_Ico (by omega) (by omega)))]
    assumption
  . unfold EntryHeader.size
    rw [Bytes.read_eqOn (heq.mono (Set.Ico_subset_Ico (by omega) (by omega)))]
    assumption
  . assumption

/--
From `p` to `q` there are entries of these types and sizes.
-/
def EntriesAt (m : Bytes) (p : Nat) : List (EntryType × Nat) → Nat → Prop
  | [], q => p = q
  | ⟨type, n⟩ :: es, q => EntryIs m p type n ∧ EntriesAt m (p + n) es q

namespace EntriesAt

variable {es : List (EntryType × Nat)}

theorem le (h : EntriesAt m p es q) : p ≤ q := by
  induction es generalizing p with
  | nil => exact Nat.le_of_eq h
  | cons e es ih =>
    have := ih h.2
    omega

theorem eqOn (h : EntriesAt m p es q) (heq : Set.EqOn m' m (Set.Ico p q))
    : EntriesAt m' p es q := by
  induction es generalizing p with
  | nil => exact h
  | cons e es ih =>
    obtain ⟨hentry, hrest⟩ := h
    have hsize := hentry.le_size
    have hle := hrest.le
    constructor
    . apply hentry.eqOn
      exact heq.mono (Set.Ico_subset_Ico_right (by omega))
    . apply ih hrest
      exact heq.mono (Set.Ico_subset_Ico_left (by omega))

theorem append (h : EntriesAt m p es q) (hentry : EntryIs m q type n)
    : EntriesAt m p (es ++ [⟨type, n⟩]) (q + n) := by
  induction es generalizing p with
  | nil =>
    have : p = q := h
    subst this
    exact ⟨hentry, rfl⟩
  | cons e es ih => exact ⟨h.1, ih h.2⟩

end EntriesAt

theorem fillEntryHeader_eqOn {payload : Nat}
    : Set.EqOn (fillEntryHeader m p type payload) m (Set.Ico p (p + 16))ᶜ := by
  intro q hq
  rw [Set.mem_compl_iff, Set.mem_Ico] at hq
  unfold fillEntryHeader
  rw [Bytes.write_outside (by omega)]
  rw [Bytes.write_outside (by omega)]
  rw [Bytes.write_outside (by omega)]
  rw [Bytes.write_outside (by omega)]

theorem fillEntryHeader_entryIs {payload : Nat} (hfit : 16 + align payload 16 < 2 ^ 32)
    : EntryIs (fillEntryHeader m p type payload) p type (16 + align payload 16) := by
  have hcode := type.code_lt
  constructor
  . unfold EntryHeader.type fillEntryHeader
    rw [Bytes.read_write_disjoint (by omega)]
    rw [Bytes.read_write_disjoint (by omega)]
    rw [Bytes.read_write_disjoint (by omega)]
    exact Bytes.read_write_of_lt hcode
  . unfold EntryHeader.headerSize fillEntryHeader
    rw [Bytes.read_write_disjoint (by omega)]
    rw [Bytes.read_write_disjoint (by omega)]
    exact Bytes.read_write_of_lt (by decide)
  . unfold EntryHeader.size fillEntryHeader
    rw [Bytes.read_write_disjoint (by omega)]
    -- the size is written after the size of the header has been read back
    have hheader : EntryHeader.headerSize
        ((m.write p 4 type.code).write (p + 6) 2 (align EntryHeader.sizeof 16)) p = 16 :=
      Bytes.read_write_of_lt (by decide)
    rw [hheader]
    exact Bytes.read_write_of_lt (by omega)
  . omega

/--
The bytes that do not change any more. The string table ends where the entries start, at `hs`.
-/
def Filling.finished (hs : Nat) (s : Filling) : Set Nat :=
  Set.Iio (TableHeader.strtab + s.strtabCursor) ∪ Set.Ico hs s.benthdr

/--
There are these entries up to now, and what has been finished says `P`.
-/
structure Filled (hs : Nat) (es : List (EntryType × Nat)) (P : Bytes → Prop) (s : Filling) : Prop where
  entries : EntriesAt s.mem hs es s.benthdr
  strtab : TableHeader.strtab + s.strtabCursor ≤ hs
  content : ∀ m, Set.EqOn m s.mem (s.finished hs) → P m

/--
`fill` moves the cursor of the string table from `c` to `c'`, changes nothing but the string table
there and the `n` bytes at `p`, and these say `Q`.
-/
structure Fills (fill : Nat → Bytes × Nat → Option (Bytes × Nat)) (p n c c' : Nat)
    (Q : Bytes → Prop) : Prop where
  cursor_le : c ≤ c'
  returns : ∀ m, ∃ m', fill p ⟨m, c⟩ = some ⟨m', c'⟩
    ∧ Set.EqOn m' m (Set.Ico p (p + n) ∪ Set.Ico (TableHeader.strtab + c) (TableHeader.strtab + c'))ᶜ
    ∧ Q m'
  stable : ∀ m m', Set.EqOn m' m (Set.Iio (TableHeader.strtab + c') ∪ Set.Ico p (p + n)) → Q m → Q m'

variable {hs c' : Nat} {es : List (EntryType × Nat)} {P Q : Bytes → Prop} {s : Filling}
  {fill : Nat → Bytes × Nat → Option (Bytes × Nat)}

variable (type) in
theorem addEntry_spec (hfilled : Filled hs es P s)
    (hfill : Fills fill (s.benthdr + 16) n s.strtabCursor c' Q)
    (hs_le : TableHeader.strtab + c' ≤ hs) (hfit : s.benthdr + (16 + alignUp n) < 2 ^ 32)
    : ∃ s', addEntry type n fill s = some s'
        ∧ s'.benthdr = s.benthdr + (16 + alignUp n) ∧ s'.strtabCursor = c'
        ∧ Filled hs (es ++ [⟨type, 16 + alignUp n⟩]) (fun m => P m ∧ Q m) s' := by
  have hn := le_alignUp (n := n)
  have hle := hfilled.entries.le
  have hcursor := hfill.cursor_le
  have hentry : EntryIs (fillEntryHeader s.mem s.benthdr type n) s.benthdr type (16 + alignUp n) := by
    rw [← align_eq_alignUp (by lia)]
    apply fillEntryHeader_entryIs
    rw [align_eq_alignUp (by lia)]
    omega
  have hheader : Set.EqOn (fillEntryHeader s.mem s.benthdr type n) s.mem
      (Set.Ico s.benthdr (s.benthdr + 16))ᶜ := by
    apply fillEntryHeader_eqOn
  obtain ⟨m, hreturns, hframe, hsays⟩ := hfill.returns (fillEntryHeader s.mem s.benthdr type n)
  -- the bytes behind the header leave the header as it is
  have hentry' : EntryIs m s.benthdr type (16 + alignUp n) := by
    apply hentry.eqOn
    apply hframe.mono
    intro q hq
    rw [Set.mem_Ico] at hq
    simp only [Set.mem_compl_iff, Set.mem_union, Set.mem_Ico]
    lia
  have hkeeps : Set.EqOn m s.mem (s.finished hs) := by
    intro q hq
    simp only [Filling.finished, Set.mem_union, Set.mem_Iio, Set.mem_Ico] at hq
    rw [hframe (by simp only [Set.mem_compl_iff, Set.mem_union, Set.mem_Ico]; lia)]
    rw [hheader (by simp only [Set.mem_compl_iff, Set.mem_Ico]; lia)]
  let s' : Filling := {
    mem := m
    benthdr := s.benthdr + (16 + alignUp n)
    strtabCursor := c'
  }
  refine ⟨s', ?_, rfl, rfl, ?_⟩
  . unfold addEntry
    dsimp only
    rw [hentry.headerSize_eq]
    rw [u32_of_lt (by omega)]
    simp only [hreturns, Option.bind_eq_bind, Option.bind_some, Option.pure_def, Option.some.injEq]
    rw [hentry'.size_eq]
    rw [u32_of_lt (by omega)]
  . constructor
    . apply EntriesAt.append
      . apply hfilled.entries.eqOn
        apply hkeeps.mono
        intro q hq
        exact .inr hq
      . exact hentry'
    . exact hs_le
    . intro m'' heq
      constructor
      . apply hfilled.content
        intro q hq
        rw [← hkeeps hq]
        apply heq
        simp only [Filling.finished, Set.mem_union, Set.mem_Iio, Set.mem_Ico] at hq ⊢
        simp only [s']
        lia
      . apply hfill.stable m _ _ hsays
        apply heq.mono
        intro q hq
        simp only [Filling.finished, Set.mem_union, Set.mem_Iio, Set.mem_Ico] at hq ⊢
        simp only [s']
        lia

end Emos.Boot
