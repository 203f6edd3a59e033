import Mathlib.Logic.Function.Basic

/-!
This module contains a flag that the threads of one processor turn off for their critical sections. A
switch to another thread happens only while the flag is on.
-/

namespace Lib

/--
How far a call is.
-/
inductive Phase where
  /-- there is no call -/
  | outside
  /-- the flag is as the caller has left it -/
  | before
  /-- the same, and the next statement turns the flag off -/
  | aboutToDisable
  /-- the call has turned the flag off and knows what it was before -/
  | saved
  /-- the call has turned the flag off -/
  | off
  /-- the call has turned the flag on again -/
  | on
  deriving DecidableEq, Repr

namespace Phase

/--
The call has not touched the flag yet.
-/
def untouched : Phase → Bool
  | .before | .aboutToDisable => true
  | _ => false

/--
The call is in its critical section.
-/
def critical : Phase → Bool
  | .saved | .off => true
  | _ => false

/--
What a statement of a call does to its phase and to the flag. `entry` is the flag at the beginning of the
call.
-/
inductive Move (entry : Bool) : Phase → Bool → Phase → Bool → Prop where
  | stay (p : Phase) (flag : Bool) : Move entry p flag p flag
  | approach (flag : Bool) : Move entry .before flag .aboutToDisable flag
  | save (flag : Bool) : Move entry .before flag .saved false
  | disable (flag : Bool) : Move entry .aboutToDisable flag .off false
  | disableAgain (flag : Bool) : Move entry .on flag .off false
  | enable (flag : Bool) : Move entry .off flag .on true
  | returnBefore (flag : Bool) : Move entry .before flag .outside flag
  | returnSaved (flag : Bool) : Move entry .saved flag .outside entry
  | returnOff (flag : Bool) : Move entry .off flag .outside true
  | returnOn (flag : Bool) : Move entry .on flag .outside flag

/--
The call has left the flag as it was, or will do so when it returns.
-/
def keeps (p : Phase) : Bool := p.untouched ∨ p = .saved

variable {entry flag flag' : Bool} {p p' : Phase}

theorem Move.untouched (h : Move entry p flag p' flag') (hp : p'.untouched)
    : p.untouched ∧ flag' = flag := by
  cases h with
  | stay => exact ⟨hp, rfl⟩
  | approach => exact ⟨rfl, rfl⟩
  | _ => contradiction

theorem Move.critical (h : Move entry p flag p' flag') (hp : p'.critical)
    : flag' = false ∨ (p.critical ∧ flag' = flag) := by
  cases h with
  | stay => exact .inr ⟨hp, rfl⟩
  | save => exact .inl rfl
  | disable => exact .inl rfl
  | disableAgain => exact .inl rfl
  | _ => contradiction

theorem Move.on (h : Move entry p flag .on flag') : flag' = true ∨ (p = .on ∧ flag' = flag) := by
  cases h with
  | stay => exact .inr ⟨rfl, rfl⟩
  | enable => exact .inl rfl

theorem Move.returns (h : Move entry p flag .outside flag') (hp : p ≠ .outside)
    (huntouched : p.untouched → flag = entry) (hon : p = .on → flag = true)
    : flag' = if p.keeps then entry else true := by
  cases h with
  | stay => contradiction
  | returnBefore => exact huntouched rfl
  | returnSaved => rfl
  | returnOff => rfl
  | returnOn => exact hon rfl

theorem Move.keeps (h : Move false p false p' flag') (hp : p.keeps) (hne : p ≠ .aboutToDisable)
    : flag' = false ∧ (p' = .outside ∨ p'.keeps) := by
  cases h with
  | stay => exact ⟨rfl, .inr hp⟩
  | approach => exact ⟨rfl, .inr rfl⟩
  | save => exact ⟨rfl, .inr rfl⟩
  | returnBefore => exact ⟨rfl, .inl rfl⟩
  | returnSaved => exact ⟨rfl, .inl rfl⟩
  | _ => contradiction

end Phase

/--
The flag, and the calls of all threads.
-/
structure Critical (τ : Type) where
  current : Option τ
  flag : Bool
  phase : τ → Phase
  /-- the flag at the beginning of a call -/
  entry : τ → Bool

namespace Critical

variable {τ : Type} [DecidableEq τ]

/--
A thread that is not the current one was interrupted, so that the flag was on.
-/
structure Inv (v : Critical τ) : Prop where
  untouched : ∀ t, (v.phase t).untouched → v.current = some t → v.flag = v.entry t
  interrupted : ∀ t, (v.phase t).untouched → v.current ≠ some t → v.entry t = true
  critical : ∀ t, (v.phase t).critical → v.current = some t ∧ v.flag = false
  on : ∀ t, v.phase t = .on → v.current = some t → v.flag = true

variable {v : Critical τ} {c : τ}

omit [DecidableEq τ] in
theorem inv_of_outside (h : ∀ t, v.phase t = .outside) : v.Inv := by
  constructor
  . intro t ht
    rw [h t] at ht
    contradiction
  . intro t ht
    rw [h t] at ht
    contradiction
  . intro t ht
    rw [h t] at ht
    contradiction
  . intro t ht
    rw [h t] at ht
    contradiction

omit [DecidableEq τ] in
theorem Inv.of_current {v' : Critical τ} (h : v.Inv) (hcurrent : v.current = some c)
    (hcurrent' : v'.current = some c) (hentry : ∀ t, t ≠ c → v'.entry t = v.entry t)
    (hphase : ∀ t, t ≠ c → v'.phase t = v.phase t ∨ v'.phase t = .outside)
    (huntouched : (v'.phase c).untouched → v'.flag = v'.entry c)
    (hcritical : (v'.phase c).critical → v'.flag = false) (hon : v'.phase c = .on → v'.flag = true)
    : v'.Inv := by
  have hother : ∀ t, v'.current ≠ some t → t ≠ c := by
    intro t ht heq
    rw [heq] at ht
    exact ht hcurrent'
  constructor
  . intro t ht htc
    rw [hcurrent'] at htc
    cases htc
    exact huntouched ht
  . intro t ht htc
    have hne := hother t htc
    cases hphase t hne with
    | inl hsame =>
      rw [hentry t hne]
      rw [hsame] at ht
      apply h.interrupted t ht
      rw [hcurrent, ← hcurrent']
      exact htc
    | inr hout =>
      rw [hout] at ht
      contradiction
  . intro t ht
    by_cases htc : t = c
    . rw [htc] at ht ⊢
      exact ⟨hcurrent', hcritical ht⟩
    . cases hphase t htc with
      | inl hsame =>
        rw [hsame] at ht
        have := (h.critical t ht).1
        rw [hcurrent] at this
        exact absurd (Option.some.inj this).symm htc
      | inr hout =>
        rw [hout] at ht
        contradiction
  . intro t ht htc
    rw [hcurrent'] at htc
    cases htc
    exact hon ht

omit [DecidableEq τ] in
theorem Inv.move {v' : Critical τ} (h : v.Inv) (hcurrent : v.current = some c)
    (hmove : Phase.Move (v.entry c) (v.phase c) v.flag (v'.phase c) v'.flag)
    (hcurrent' : v'.current = some c) (hentry : v'.entry = v.entry)
    (hphase : ∀ t, t ≠ c → v'.phase t = v.phase t ∨ v'.phase t = .outside)
    : v'.Inv := by
  apply h.of_current hcurrent hcurrent' (fun t _ => congrFun hentry t) hphase
  . intro hp
    obtain ⟨hp', hflag⟩ := hmove.untouched hp
    rw [hflag, hentry]
    exact h.untouched c hp' hcurrent
  . intro hp
    cases hmove.critical hp with
    | inl hflag => exact hflag
    | inr hsame => exact hsame.2.trans (h.critical c hsame.1).2
  . intro hp
    rw [hp] at hmove
    cases hmove.on with
    | inl hflag => exact hflag
    | inr hsame => exact hsame.2.trans (h.on c hsame.1 hcurrent)

omit [DecidableEq τ] in
theorem Inv.switch (h : v.Inv) (hflag : v.flag = true) (next : Option τ)
    : { v with current := next }.Inv := by
  constructor
  . intro t ht _
    by_cases htc : v.current = some t
    . exact h.untouched t ht htc
    . exact hflag.trans (h.interrupted t ht htc).symm
  . intro t ht _
    by_cases htc : v.current = some t
    . exact (h.untouched t ht htc).symm.trans hflag
    . exact h.interrupted t ht htc
  . intro t ht
    have := (h.critical t ht).2
    rw [hflag] at this
    contradiction
  . intro t _ _
    exact hflag

theorem Inv.enter (h : v.Inv) (hcurrent : v.current = some c)
    : { v with
        phase := Function.update v.phase c .before
        entry := Function.update v.entry c v.flag }.Inv := by
  refine h.of_current hcurrent hcurrent ?_ ?_ ?_ ?_ ?_
  . intro t ht
    exact Function.update_of_ne ht ..
  . intro t ht
    exact .inl (Function.update_of_ne ht ..)
  . intro _
    dsimp only
    rw [Function.update_self]
  . intro hp
    dsimp only at hp
    rw [Function.update_self] at hp
    contradiction
  . intro hp
    dsimp only at hp
    rw [Function.update_self] at hp
    contradiction

omit [DecidableEq τ] in
theorem Inv.set (h : v.Inv) (hcurrent : v.current = some c) (hout : v.phase c = .outside) (flag : Bool)
    : { v with flag }.Inv := by
  refine h.of_current hcurrent hcurrent (fun _ _ => rfl) (fun _ _ => .inl rfl) ?_ ?_ ?_
  . intro hp
    rw [hout] at hp
    contradiction
  . intro hp
    rw [hout] at hp
    contradiction
  . intro hp
    rw [hout] at hp
    contradiction

end Critical

end Lib
