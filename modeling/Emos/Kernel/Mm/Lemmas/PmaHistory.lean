import Emos.Kernel.Mm.Lemmas.Pma
import Mathlib.Logic.Relation

/-!
This module contains what holds after every sequence of allocator calls: both counters agree with
the descriptors and no frame is in two hands.
-/

open Lib

namespace Emos

/--
A call of one of the four functions that change frame descriptors.
-/
inductive PmaCall where
  | allocate (count : Nat)
  | free (pfn frameCount : Nat)
  | mark (basePfn limitPfn : Nat)
  | unmark (basePfn limitPfn : Nat)
  deriving DecidableEq, Repr

/--
The allocator together with the frames that it has handed out, as far as they have since been
neither freed nor touched by marking or unmarking.
-/
structure PmaHistory where
  pma : Pma
  held : List Nat
  deriving DecidableEq, Repr

namespace PmaCall

/--
The arguments are values of the 32 bit types, at least one frame is asked for, and marked ranges
meet the managed one.
-/
def Admissible (s : Pma) : PmaCall → Prop
  | .allocate count => 1 ≤ count ∧ count < 2 ^ 32
  | .free pfn frameCount => pfn < 2 ^ 32 ∧ frameCount < 2 ^ 32
  | .mark basePfn limitPfn => Meets s basePfn limitPfn
  | .unmark basePfn limitPfn => Meets s basePfn limitPfn

def isFree : PmaCall → Bool
  | .free .. => true
  | _ => false

end PmaCall

namespace PmaHistory

def without (held : List Nat) (basePfn limitPfn : Nat) : List Nat :=
  held.filter fun pfn => ¬ (basePfn ≤ pfn ∧ pfn ≤ limitPfn)

def call (h : PmaHistory) : PmaCall → Run PmaHistory
  | .allocate count => do
    let ⟨res, pma⟩ ← mmPmaAllocateFrame h.pma count
    match res with
    | .ok pfn => .ok ⟨pma, List.range' pfn count ++ h.held⟩
    | .error _ => .ok ⟨pma, h.held⟩
  | .free pfn frameCount => do
    let pma ← mmPmaFreeFrame h.pma pfn frameCount
    .ok ⟨pma, h.held.filter fun p => ¬ (pfn ≤ p ∧ p < pfn + frameCount)⟩
  | .mark basePfn limitPfn => do
    let pma ← mmPmaMarkReserved h.pma basePfn limitPfn
    .ok ⟨pma, without h.held basePfn limitPfn⟩
  | .unmark basePfn limitPfn => do
    let pma ← mmPmaUnmarkReserved h.pma basePfn limitPfn
    .ok ⟨pma, without h.held basePfn limitPfn⟩

def Step (h h' : PmaHistory) : Prop :=
  ∃ c : PmaCall, c.Admissible h.pma ∧ h.call c = .ok h'

structure Inv (h : PmaHistory) : Prop where
  counted : h.pma.Counted
  nodup : h.held.Nodup
  base_le : ∀ pfn ∈ h.held, h.pma.basePfn ≤ pfn
  allocated : ∀ pfn ∈ h.held, h.pma.desc (pfn - h.pma.basePfn) = some pbmAllocated

end PmaHistory

/--
A well formed allocator with nothing but free frames.
-/
structure Pma.Fresh (s : Pma) : Prop extends WellFormed s where
  free : ∀ i, i < s.frameDescCount → s.desc i = some pbmFree
  freeFrames : s.freeFrames = s.frameDescCount
  availableFrames : s.availableFrames = s.frameDescCount

theorem Pma.Fresh.counted {s : Pma} (h : s.Fresh) : s.Counted := by
  refine ⟨h.toWellFormed, ?_, ?_⟩
  . rw [h.freeFrames]
    exact (countBelow_eq_self h.free).symm
  . rw [h.availableFrames]
    refine (countBelow_eq_self ?_).symm
    intro i hi
    rw [h.free i hi]
    simp

namespace PmaHistory

open Pma

theorem inv_of_fresh {s : Pma} (h : s.Fresh) : Inv ⟨s, []⟩ where
  counted := h.counted
  nodup := List.nodup_nil
  base_le := by simp
  allocated := by simp

theorem Inv.of_mapsRange {h : PmaHistory} (hinv : h.Inv) {q : BitVec 2 → Prop}
    {f : BitVec 2 → BitVec 2} {lo hi : Nat} {t : Pma} {held : List Nat}
    (hmaps : MapsRange q f lo hi h.pma t) (hhi : hi ≤ h.pma.frameDescCount)
    (hsub : held.Sublist h.held)
    (hout : ∀ pfn ∈ held, h.pma.basePfn ≤ pfn
      → pfn - h.pma.basePfn < lo ∨ hi ≤ pfn - h.pma.basePfn)
    : Inv ⟨t, held⟩ where
  counted := hmaps.counted hinv.counted hhi
  nodup := hinv.nodup.sublist hsub
  base_le := by
    intro pfn hpfn
    simp only [hmaps.range.basePfn]
    exact hinv.base_le pfn (hsub.subset hpfn)
  allocated := by
    intro pfn hpfn
    have hmem := hsub.subset hpfn
    simp only [hmaps.range.basePfn]
    rw [hmaps.outside _ (hout pfn hpfn (hinv.base_le pfn hmem))]
    exact hinv.allocated pfn hmem

theorem Inv.allocate {h : PmaHistory} (hinv : h.Inv) {start count : Nat} {t : Pma}
    (hmaps : MapsRange (fun d => d = pbmFree) (fun _ => pbmAllocated) start (start + count) h.pma t)
    (hle : start + count ≤ h.pma.frameDescCount)
    : Inv ⟨t, List.range' (h.pma.basePfn + start) count ++ h.held⟩ := by
  -- a free descriptor belongs to nobody
  have hfree : ∀ pfn ∈ h.held, pfn - h.pma.basePfn < start ∨ start + count ≤ pfn - h.pma.basePfn := by
    intro pfn hpfn
    by_contra hin
    obtain ⟨d, hd, hq, _⟩ := hmaps.inside (pfn - h.pma.basePfn) (by omega) (by omega)
    rw [hinv.allocated pfn hpfn, hq] at hd
    simp at hd
  have hkeep : Inv ⟨t, h.held⟩ :=
    hinv.of_mapsRange hmaps hle (List.Sublist.refl _) (fun pfn hpfn _ => hfree pfn hpfn)
  refine ⟨hkeep.counted, ?_, ?_, ?_⟩
  . rw [List.nodup_append]
    refine ⟨List.nodup_range', hinv.nodup, ?_⟩
    intro a ha b hb
    have := hfree b hb
    have := hinv.base_le b hb
    rw [List.mem_range'_1] at ha
    lia
  . intro pfn hpfn
    rw [List.mem_append, List.mem_range'_1] at hpfn
    cases hpfn with
    | inl hnew =>
      simp only [hmaps.range.basePfn]
      omega
    | inr hold => exact hkeep.base_le pfn hold
  . intro pfn hpfn
    rw [List.mem_append, List.mem_range'_1] at hpfn
    cases hpfn with
    | inl hnew =>
      simp only [hmaps.range.basePfn]
      obtain ⟨d, _, _, hd⟩ := hmaps.inside (pfn - h.pma.basePfn) (by omega) (by omega)
      exact hd
    | inr hold => exact hkeep.allocated pfn hold

theorem without_outside {h : PmaHistory} (hs : h.pma.WellFormed) {basePfn limitPfn : Nat}
    (hmeets : Meets h.pma basePfn limitPfn)
    : ∀ pfn ∈ without h.held basePfn limitPfn, h.pma.basePfn ≤ pfn
        → pfn - h.pma.basePfn < lowIdx h.pma basePfn
          ∨ highIdx h.pma limitPfn + 1 ≤ pfn - h.pma.basePfn := by
  intro pfn hpfn hbase
  simp only [without, List.mem_filter, decide_eq_true_eq] at hpfn
  have := hpfn.2
  have := hs.base_le_limit
  have := hmeets.le_limit
  unfold lowIdx highIdx
  lia

theorem inv_step {h h' : PmaHistory} (hinv : h.Inv) (hstep : h.Step h') : h'.Inv := by
  obtain ⟨c, hadm, hcall⟩ := hstep
  have hs := hinv.counted.toWellFormed
  cases c with
  | allocate count =>
    cases mmPmaAllocateFrame_spec hs count with
    | inl hfail =>
      simp only [call, hfail, bind, Except.bind] at hcall
      cases hcall
      exact hinv
    | inr hok =>
      obtain ⟨start, t, halloc, hle, _, hmaps⟩ := hok
      simp only [call, halloc, bind, Except.bind] at hcall
      cases hcall
      exact hinv.allocate hmaps hle
  | free pfn frameCount =>
    rw [call, bind_eq_ok] at hcall
    obtain ⟨t, hfree, hcall⟩ := hcall
    cases hcall
    cases mmPmaFreeFrame_spec hs hadm.1 hadm.2 hfree with
    | inl hsame =>
      subst hsame
      refine hinv.of_mapsRange (MapsRange.refl (fun _ => True) id 0 h.pma) (by omega) ?_ (by omega)
      exact List.filter_sublist
    | inr hmoved =>
      obtain ⟨hbase, hle, hmaps⟩ := hmoved
      apply hinv.of_mapsRange hmaps hle List.filter_sublist
      intro p hp _
      simp only [List.mem_filter, decide_eq_true_eq] at hp
      lia
  | mark basePfn limitPfn =>
    obtain ⟨t, ht, hmaps⟩ := mmPmaMarkReserved_spec hs hadm
    simp only [call, ht, bind, Except.bind] at hcall
    cases hcall
    exact hinv.of_mapsRange hmaps (hadm.bounds hs).2 List.filter_sublist
      (without_outside hs hadm)
  | unmark basePfn limitPfn =>
    obtain ⟨t, ht, hmaps⟩ := mmPmaUnmarkReserved_spec hs hadm
    simp only [call, ht, bind, Except.bind] at hcall
    cases hcall
    exact hinv.of_mapsRange hmaps (hadm.bounds hs).2 List.filter_sublist
      (without_outside hs hadm)

theorem inv_run {h h' : PmaHistory} (hinv : h.Inv) (hrun : Relation.ReflTransGen Step h h')
    : h'.Inv := by
  induction hrun with
  | refl => exact hinv
  | tail _ hstep ih => exact inv_step ih hstep

theorem call_total {h : PmaHistory} (hinv : h.Inv) {c : PmaCall} (hadm : c.Admissible h.pma)
    (hc : c.isFree = false)
    : ∃ h', h.call c = .ok h' := by
  have hs := hinv.counted.toWellFormed
  cases c with
  | allocate count =>
    cases mmPmaAllocateFrame_spec hs count with
    | inl hfail => exact ⟨_, by simp only [call, hfail, bind, Except.bind]; rfl⟩
    | inr hok =>
      obtain ⟨start, t, halloc, _⟩ := hok
      exact ⟨_, by simp only [call, halloc, bind, Except.bind]; rfl⟩
  | free pfn frameCount => contradiction
  | mark basePfn limitPfn =>
    obtain ⟨t, ht, _⟩ := mmPmaMarkReserved_spec hs hadm
    exact ⟨_, by simp only [call, ht, bind, Except.bind]; rfl⟩
  | unmark basePfn limitPfn =>
    obtain ⟨t, ht, _⟩ := mmPmaUnmarkReserved_spec hs hadm
    exact ⟨_, by simp only [call, ht, bind, Except.bind]; rfl⟩

/--
From an allocator with nothing but free frames on, after any sequence of calls the two counters are
the number of free and of usable frames, and the frames that are held are pairwise distinct and not
reserved. Calls other than freeing ones always return.
-/
theorem run_counters_and_held (s : Pma) (hfresh : s.Fresh) (h : PmaHistory)
    (hrun : Relation.ReflTransGen Step ⟨s, []⟩ h)
    : h.pma.freeFrames = h.pma.descCount pbmFree
        ∧ h.pma.availableFrames = h.pma.usableCount
        ∧ h.held.Nodup
        ∧ (∀ pfn ∈ h.held, h.pma.desc (pfn - h.pma.basePfn) ≠ some pbmReserved)
        ∧ (∀ c : PmaCall, c.Admissible h.pma → c.isFree = false → ∃ h', h.call c = .ok h') := by
  have hinv := inv_run (inv_of_fresh hfresh) hrun
  refine ⟨hinv.counted.freeFrames, hinv.counted.availableFrames, hinv.nodup, ?_, ?_⟩
  . intro pfn hpfn
    rw [hinv.allocated pfn hpfn]
    simp
  . intro c hadm hc
    exact call_total hinv hadm hc

def smallPma : Pma where
  bitmap := [0]
  frameDescCount := 4
  availableFrames := 4
  freeFrames := 4
  basePfn := 0x100
  limitPfn := 0x103
  bitmapPfnList := []

theorem smallPma_fresh : smallPma.Fresh := by
  refine ⟨⟨?_, ?_, ?_, ?_⟩, ?_, ?_, ?_⟩ <;> decide

/--
`smallPma` after two frames were allocated, the last two marked and the first one freed.
-/
def smallPmaUsed : PmaHistory where
  pma := { smallPma with bitmap := [0xA4], availableFrames := 2, freeFrames := 1 }
  held := [0x101]

theorem run_counters_and_held_smallPma
    : smallPmaUsed.pma.freeFrames = smallPmaUsed.pma.descCount pbmFree
        ∧ smallPmaUsed.pma.availableFrames = smallPmaUsed.pma.usableCount
        ∧ smallPmaUsed.held.Nodup
        ∧ (∀ pfn ∈ smallPmaUsed.held,
            smallPmaUsed.pma.desc (pfn - smallPmaUsed.pma.basePfn) ≠ some pbmReserved)
        ∧ (∀ c : PmaCall, c.Admissible smallPmaUsed.pma → c.isFree = false
            → ∃ h', smallPmaUsed.call c = .ok h') := by
  have h1 : Step ⟨smallPma, []⟩
      ⟨{ smallPma with bitmap := [0x05], freeFrames := 2 }, [0x100, 0x101]⟩ :=
    ⟨.allocate 2, ⟨by decide, by decide⟩, by decide⟩
  have h2 : Step ⟨{ smallPma with bitmap := [0x05], freeFrames := 2 }, [0x100, 0x101]⟩
      ⟨{ smallPma with bitmap := [0xA5], availableFrames := 2, freeFrames := 0 }, [0x100, 0x101]⟩ :=
    ⟨.mark 0x102 0x200, ⟨by decide, by decide, by decide, by decide⟩, by decide⟩
  have h3 : Step
      ⟨{ smallPma with bitmap := [0xA5], availableFrames := 2, freeFrames := 0 }, [0x100, 0x101]⟩
      smallPmaUsed :=
    ⟨.free 0x100 1, ⟨by decide, by decide⟩, by decide⟩
  apply run_counters_and_held smallPma smallPma_fresh
  exact ((Relation.ReflTransGen.single h1).tail h2).tail h3

end PmaHistory

end Emos
