import Mathlib.Order.BooleanAlgebra.Set
import Mathlib.Logic.Function.Basic

/-!
This module contains a picture of cells that is shown on a device, where regions of cells are marked once
something in them is drawn, and a flush shows what is in the marked regions.
-/

open Classical

namespace Lib

/--
What is drawn in each cell, what is shown of it, and the marked regions.
-/
@[ext]
structure Damage (κ ρ β : Type) where
  want : κ → β
  shown : κ → β
  marked : Set ρ

namespace Damage

variable {κ ρ β : Type} (region : κ → ρ)

/--
Something is drawn in a cell, or regions are marked.
-/
inductive Action (κ ρ β : Type) where
  | draw (c : κ) (v : β)
  | mark (rs : Set ρ)

noncomputable def step (d : Damage κ ρ β) : Action κ ρ β → Damage κ ρ β
  | .draw c v => { d with want := Function.update d.want c v }
  | .mark rs => { d with marked := d.marked ∪ rs }

noncomputable def run (d : Damage κ ρ β) (as : List (Action κ ρ β)) : Damage κ ρ β := as.foldl step d

/--
Some regions are shown as they are drawn, and are not marked any more.
-/
noncomputable def refresh (d : Damage κ ρ β) (rs : Set ρ) : Damage κ ρ β :=
  { d with shown := fun c => if region c ∈ rs then d.want c else d.shown c, marked := d.marked \ rs }

/--
Actions and a flush of at least the marked regions, any number of times.
-/
inductive Rounds : Damage κ ρ β → List (List (Action κ ρ β)) → Damage κ ρ β → Prop
  | nil (d) : Rounds d [] d
  | cons {d as rs rounds d'} (hrs : (d.run as).marked ⊆ rs) (h : Rounds ((d.run as).refresh region rs) rounds d')
    : Rounds d (as :: rounds) d'

def drawn (as : List (Action κ ρ β)) : Set κ := {c | ∃ v, .draw c v ∈ as}

/--
The region of every cell that is drawn is marked, before or after that.
-/
def Covered (as : List (Action κ ρ β)) : Prop := ∀ c ∈ drawn as, ∃ rs, .mark rs ∈ as ∧ region c ∈ rs

/--
The cells are shown as they are drawn, but for the marked ones.
-/
def Synced (d : Damage κ ρ β) (cells : Set κ) : Prop := ∀ c ∈ cells, region c ∉ d.marked → d.shown c = d.want c

variable {region} {d d' : Damage κ ρ β} {as : List (Action κ ρ β)} {cells : Set κ} {rs : Set ρ} {c : κ}

theorem run_cons (a : Action κ ρ β) : d.run (a :: as) = (d.step a).run as := rfl

theorem run_append {bs : List (Action κ ρ β)} : d.run (as ++ bs) = (d.run as).run bs := List.foldl_append

theorem step_draw_self (v : β) : (d.step (.draw c v)).want c = v := by
  simp [step]

theorem step_draw_of_ne {c' : κ} (h : c' ≠ c) (v : β) : (d.step (.draw c v)).want c' = d.want c' := by
  simp [step, h]

theorem step_mark_mark (rs rs' : Set ρ) : (d.step (.mark rs)).step (.mark rs') = d.step (.mark (rs ∪ rs')) :=
  Damage.ext rfl rfl (Set.union_assoc _ _ _)

theorem step_mark_empty : d.step (.mark ∅) = d := Damage.ext rfl rfl (Set.union_empty _)

theorem refresh_shown_of_mem (h : region c ∈ rs) : (d.refresh region rs).shown c = d.want c := if_pos h

theorem refresh_shown_of_notMem (h : region c ∉ rs) : (d.refresh region rs).shown c = d.shown c := if_neg h

theorem refresh_refresh (rs' : Set ρ) : (d.refresh region rs).refresh region rs' = d.refresh region (rs ∪ rs') := by
  unfold refresh
  dsimp only
  congr 1
  . funext c
    by_cases h' : region c ∈ rs'
    . rw [if_pos h', if_pos (Set.mem_union_right rs h')]
    . rw [if_neg h']
      by_cases h : region c ∈ rs
      . rw [if_pos h, if_pos (Set.mem_union_left rs' h)]
      . rw [if_neg h, if_neg (fun hor => hor.elim h h')]
  . exact Set.sdiff_sdiff

theorem refresh_empty : d.refresh region ∅ = d := by
  unfold refresh
  cases d
  congr 1
  . exact funext fun c => if_neg (Set.notMem_empty _)
  . exact Set.sdiff_empty

/--
What is marked stays marked, and cells that are not drawn stay in sync.
-/
theorem run_marked (as : List (Action κ ρ β)) : (d.run as).marked = d.marked ∪ {r | ∃ rs, .mark rs ∈ as ∧ r ∈ rs} := by
  induction as generalizing d with
  | nil =>
    ext r
    simp [run]
  | cons a as ih =>
    rw [run_cons, ih]
    ext r
    cases a with
    | draw c v => simp [step]
    | mark rs =>
      simp only [step, Set.mem_union, Set.mem_ofPred_eq, List.mem_cons, Action.mark.injEq]
      constructor
      . rintro ((h | h) | ⟨rs', h, hr⟩)
        . exact .inl h
        . exact .inr ⟨rs, .inl rfl, h⟩
        . exact .inr ⟨rs', .inr h, hr⟩
      . rintro (h | ⟨rs', rfl | h, hr⟩)
        . exact .inl (.inl h)
        . exact .inl (.inr hr)
        . exact .inr ⟨rs', h, hr⟩

theorem run_shown (as : List (Action κ ρ β)) : (d.run as).shown = d.shown := by
  induction as generalizing d with
  | nil => rfl
  | cons a as ih =>
    rw [run_cons, ih]
    cases a <;> rfl

theorem run_want (hc : c ∉ drawn as) : (d.run as).want c = d.want c := by
  induction as generalizing d with
  | nil => rfl
  | cons a as ih =>
    rw [run_cons, ih (fun ⟨v, hv⟩ => hc ⟨v, List.mem_cons_of_mem a hv⟩)]
    cases a with
    | draw c' v =>
      have hne : c ≠ c' := fun heq => hc ⟨v, by rw [heq]; exact List.mem_cons_self⟩
      exact step_draw_of_ne hne v
    | mark rs => rfl

/--
Cells that are drawn and covered are marked or in sync.
-/
theorem Synced.run (h : d.Synced region cells) (hcovered : Covered region as)
    : (d.run as).Synced region (cells ∪ drawn as) := by
  intro c hc hmark
  rw [run_marked, Set.mem_union, not_or] at hmark
  by_cases hdrawn : c ∈ drawn as
  . exact absurd (hcovered c hdrawn) hmark.2
  . rw [run_shown, run_want hdrawn]
    exact h c (hc.resolve_right hdrawn) hmark.1

theorem Synced.refresh (h : d.Synced region cells) : (d.refresh region rs).Synced region cells := by
  intro c hc hmark
  by_cases hrs : region c ∈ rs
  . exact if_pos hrs
  . exact (if_neg hrs).trans (h c hc fun hm => hmark ⟨hm, hrs⟩)

theorem drawn_append (as bs : List (Action κ ρ β)) : drawn (as ++ bs) = drawn as ∪ drawn bs := by
  ext c
  simp only [drawn, Set.mem_ofPred_eq, Set.mem_union, List.mem_append, exists_or]

theorem Synced.rounds {rounds : List (List (Action κ ρ β))} (h : d.Synced region cells)
    (hrounds : Rounds region d rounds d') (hcovered : ∀ as ∈ rounds, Covered region as)
    : d'.Synced region (cells ∪ drawn rounds.flatten) := by
  induction hrounds generalizing cells with
  | nil d =>
    intro c hc
    refine h c (hc.resolve_right ?_)
    rintro ⟨v, hv⟩
    contradiction
  | @cons d as rs rounds d' hrs hrest ih =>
    rw [List.flatten_cons, drawn_append, ← Set.union_assoc]
    apply ih
    . exact (h.run (hcovered as List.mem_cons_self)).refresh
    . exact fun bs hbs => hcovered bs (List.mem_cons_of_mem as hbs)

theorem Rounds.marked {rounds : List (List (Action κ ρ β))} (h : Rounds region d rounds d') (hne : rounds ≠ [])
    : d'.marked = ∅ := by
  induction h with
  | nil d => contradiction
  | @cons d as rs rounds d' hrs hrest ih =>
    cases rounds with
    | nil =>
      cases hrest
      exact Set.sdiff_eq_empty.mpr hrs
    | cons bs rounds => exact ih nofun

/--
After the last flush, everything that was ever drawn is shown.
-/
theorem Rounds.shown {rounds : List (List (Action κ ρ β))} (h : Rounds region d rounds d')
    (hcovered : ∀ as ∈ rounds, Covered region as) (hc : c ∈ drawn rounds.flatten)
    : d'.shown c = d'.want c := by
  have hnone : d.Synced region ∅ := fun c hc => absurd hc (Set.notMem_empty c)
  have hne : rounds ≠ [] := by
    rintro rfl
    obtain ⟨v, hv⟩ := hc
    contradiction
  apply hnone.rounds h hcovered c (.inr hc)
  rw [h.marked hne]
  exact Set.notMem_empty _

end Damage

end Lib
