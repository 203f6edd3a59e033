import Mathlib.Data.List.Induction
import Emos.Boot.Shell.Impl.Variable
import Emos.Lib.Trace

/-!
This module contains in which runs the variables of a shell are a map from keys to values.
-/

open Lib

namespace Emos.Boot

/--
A key and its value.
-/
abbrev Setting := List (BitVec 8) × List (BitVec 8)

/--
A setting takes the place of the one with its key, or comes behind all others.
-/
def setIn (s : Setting) : List Setting → List Setting
  | [] => [s]
  | s' :: m => if s'.1 = s.1 then s :: m else s' :: setIn s m

/--
The settings that a history leaves, in the order in which their keys were first set.
-/
def settingsOf (history : List Setting) : List Setting := history.foldl (fun m s => setIn s m) []

/--
The value that was last set for a key.
-/
def lastValue (history : List Setting) (key : List (BitVec 8)) : Option (List (BitVec 8)) :=
  (history.reverse.find? fun s => decide (s.1 = key)).map Prod.snd

/--
The first setting with a key that `key` begins with.
-/
def firstPrefix (m : List Setting) (key : List (BitVec 8)) : Option Setting :=
  m.find? fun s => decide (s.1 <+: key)

section

variable {m history : List Setting} {s : Setting} {key : List (BitVec 8)}

theorem settingsOf_append : settingsOf (history ++ [s]) = setIn s (settingsOf history) := by
  simp [settingsOf]

theorem length_setIn_le : (setIn s m).length ≤ m.length + 1 := by
  induction m with
  | nil => exact Nat.le_refl 1
  | cons s' m ih =>
    unfold setIn
    split
    . exact Nat.le_succ _
    . rw [List.length_cons, List.length_cons]
      omega

theorem length_settingsOf_le : (settingsOf history).length ≤ history.length := by
  induction history using List.reverseRecOn with
  | nil => exact Nat.le_refl 0
  | append_singleton history s ih =>
    rw [settingsOf_append, List.length_append, List.length_singleton]
    have := length_setIn_le (m := settingsOf history) (s := s)
    omega

theorem setIn_append {pre : List Setting} (h : ∀ s' ∈ pre, s'.1 ≠ s.1) : setIn s (pre ++ m) = pre ++ setIn s m := by
  induction pre with
  | nil => rfl
  | cons s' pre ih =>
    rw [List.forall_mem_cons] at h
    rw [List.cons_append, setIn, if_neg h.1, ih h.2, List.cons_append]

/--
No key begins with one in front of it.
-/
def Ordered (m : List Setting) : Prop := m.Pairwise fun s s' => ¬ s.1 <+: s'.1

theorem firstPrefix_eq_none (h : firstPrefix m key = none) : ∀ s ∈ m, ¬ s.1 <+: key := by
  intro s hs
  have := List.find?_eq_none.mp h s hs
  simpa using this

theorem firstPrefix_eq_some (h : firstPrefix m key = some s)
    : s.1 <+: key ∧ ∃ pre post, m = pre ++ s :: post ∧ ∀ s' ∈ pre, ¬ s'.1 <+: key := by
  obtain ⟨hs, pre, post, heq, hpre⟩ := List.find?_eq_some_iff_append.mp h
  refine ⟨by simpa using hs, pre, post, heq, ?_⟩
  intro s' hs'
  simpa using hpre s' hs'

theorem ne_of_not_initial {pre : List Setting} (h : ∀ s' ∈ pre, ¬ s'.1 <+: key) : ∀ s' ∈ pre, s'.1 ≠ key := by
  intro s' hs' heq
  exact h s' hs' (heq ▸ List.prefix_refl _)

end

namespace ShellVars

variable {α : Type} {t t' : ShellVars α}

def next (t : ShellVars α) (p : α) : Option α := (t.node p).bind (·.next)

/--
There is a variable at an address that is stored as it should be.
-/
def Stores (t : ShellVars α) (p : α) (s : Setting) : Prop :=
  ∃ e, t.node p = some e ∧ e.keyLen = s.1.length ∧ e.str = s.1 ++ 0 :: s.2 ++ [0, 0]

/--
The list of variables ends with a null pointer, and its nodes hold these settings.
-/
def Holds (t : ShellVars α) (m : List Setting) : Prop :=
  ∃ l, Chain t.next t.varList l ∧ List.Forall₂ t.Stores l m

section

variable {p : α} {l : List α} {m : List Setting} {s : Setting} {key : List (BitVec 8)} {fuel : Nat}

theorem Stores.next_eq {e : ShellVar α} (h : t.node p = some e) : t.next p = e.next := by
  simp [next, h]

theorem strncmpEq_of_stores {e : ShellVar α} (hlen : e.keyLen = s.1.length)
    (hstr : e.str = s.1 ++ 0 :: s.2 ++ [0, 0])
    : strncmpEq e.str key e.keyLen = true ↔ s.1 <+: key := by
  rw [strncmpEq, hlen, hstr, decide_eq_true_eq, List.prefix_iff_eq_take]
  simp

theorem find_miss (hstores : t.Stores p s) (hmiss : ¬ s.1 <+: key) (prevEntry : Option α)
    : t.find key (fuel + 1) prevEntry (some p) = t.find key fuel (some p) (t.next p) := by
  obtain ⟨e, he, hlen, hstr⟩ := hstores
  have hne : ¬ strncmpEq e.str key e.keyLen = true := by
    rw [strncmpEq_of_stores hlen hstr]
    exact hmiss
  simp [find, read, he, hne, Stores.next_eq he, bind, Except.bind]

theorem find_none {q : Option α} (prevEntry : Option α) (hchain : Chain t.next q l) (hstores : List.Forall₂ t.Stores l m)
    (hmiss : ∀ s ∈ m, ¬ s.1 <+: key) (hfuel : l.length ≤ fuel)
    : t.find key fuel prevEntry q = .ok (none, l.getLast?.or prevEntry) := by
  induction hstores generalizing q prevEntry fuel with
  | nil =>
    have hnull : q = none := hchain
    subst hnull
    cases fuel <;> rfl
  | cons hx hxs ih =>
    obtain rfl := hchain.1
    rw [List.forall_mem_cons] at hmiss
    obtain ⟨n, rfl⟩ : ∃ n, fuel = n + 1 := ⟨fuel - 1, by rw [List.length_cons] at hfuel; lia⟩
    rw [find_miss hx hmiss.1]
    rw [ih _ hchain.2 hmiss.2 (by simpa using hfuel)]
    rw [List.getLast?_cons]
    cases h : List.getLast? _ <;> simp

theorem find_some {q : Option α} (prevEntry : Option α) {pre post : List α} {mpre : List Setting}
    (hchain : Chain t.next q (pre ++ p :: post)) (hstores : List.Forall₂ t.Stores pre mpre)
    (hmiss : ∀ s ∈ mpre, ¬ s.1 <+: key) (hp : t.Stores p s) (hhit : s.1 <+: key) (hfuel : pre.length < fuel)
    : t.find key fuel prevEntry q = .ok (some p, pre.getLast?.or prevEntry) := by
  induction hstores generalizing q prevEntry fuel with
  | nil =>
    obtain rfl := hchain.1
    obtain ⟨n, rfl⟩ : ∃ n, fuel = n + 1 := ⟨fuel - 1, by rw [List.length_nil] at hfuel; omega⟩
    obtain ⟨e, he, hlen, hstr⟩ := hp
    simp [find, read, he, (strncmpEq_of_stores hlen hstr).mpr hhit, bind, Except.bind]
  | cons hx hxs ih =>
    obtain rfl := hchain.1
    rw [List.forall_mem_cons] at hmiss
    obtain ⟨n, rfl⟩ : ∃ n, fuel = n + 1 := ⟨fuel - 1, by rw [List.length_cons] at hfuel; lia⟩
    rw [find_miss hx hmiss.1]
    rw [ih _ hchain.2 hmiss.2 (by simpa using hfuel)]
    rw [List.getLast?_cons]
    cases h : List.getLast? _ <;> simp

end

/--
Where memory leads to that `realloc` returns for this entry.
-/
def follower (t : ShellVars α) (garbage : ShellVar α) : Option α → Option α
  | none => garbage.next
  | some p => t.next p

/--
A variable has come behind the nodes of `pre`, whose last one leads to it, and leads to `q` itself.
-/
structure Sets (t : ShellVars α) (pre : List α) (tmp : Option α) (addr : α) (q : Option α) (s : Setting)
    (t' : ShellVars α) : Prop where
  varList : t'.varList = if pre = [] then some addr else t.varList
  last : ∀ x e, pre.getLast? = some x → t.node x = some e → t'.node x = some { e with next := some addr }
  stores : t'.Stores addr s
  next : t'.next addr = q
  kept : ∀ y, y ≠ addr → tmp ≠ some y → pre.getLast? ≠ some y → t'.node y = t.node y

section

variable {pre suf : List α} {tmp q : Option α} {addr : α} {s : Setting}

/--
The nodes of `pre` are followed by the new one, whatever follows that.
-/
theorem Sets.chain (h : Sets t pre tmp addr q s t') (hchain : Chain t.next t.varList (pre ++ suf))
    (halloc : ∀ x ∈ pre, (t.node x).isSome ∧ x ≠ addr ∧ tmp ≠ some x) {n : α → Option α}
    (hn : ∀ y, y ≠ addr → n y = t'.next y) {l : List α} (hl : Chain n (n addr) l)
    : Chain n t'.varList (pre ++ addr :: l) := by
  rw [h.varList]
  cases pre using List.reverseRecOn with
  | nil => exact ⟨rfl, hl⟩
  | append_singleton pre x =>
    rw [if_neg (by simp)]
    rw [List.append_assoc, List.singleton_append] at hchain ⊢
    obtain ⟨hsome, hx, _⟩ := halloc x (by simp)
    obtain ⟨e, he⟩ := Option.isSome_iff_exists.mp hsome
    have hnodup := hchain.nodup
    apply hchain.splice
    . intro y hy
      obtain ⟨_, hya, hyt⟩ := halloc y (by simp [hy])
      have hyx : y ≠ x := by
        intro heq
        subst heq
        exact (List.nodup_append.mp hnodup).2.2 y hy y (by simp) rfl
      rw [hn y hya]
      unfold ShellVars.next
      rw [h.kept y hya hyt (by simpa using Ne.symm hyx)]
    . refine ⟨?_, hl⟩
      rw [hn x hx]
      unfold ShellVars.next
      rw [h.last x e (by simp) he]
      rfl

theorem Sets.stores_pre (h : Sets t pre tmp addr q s t') {m : List Setting}
    (halloc : ∀ x ∈ pre, (t.node x).isSome ∧ x ≠ addr ∧ tmp ≠ some x) (hpre : List.Forall₂ t.Stores pre m)
    : List.Forall₂ t'.Stores pre m := by
  rw [List.forall₂_iff_zip] at hpre ⊢
  refine ⟨hpre.1, ?_⟩
  intro x s' hmem
  obtain ⟨e, he, hlen, hstr⟩ := hpre.2 hmem
  obtain ⟨_, hx, hxt⟩ := halloc x (List.of_mem_zip hmem).1
  by_cases hlast : pre.getLast? = some x
  . exact ⟨_, h.last x e hlast he, hlen, hstr⟩
  . exact ⟨e, (h.kept x hx hxt hlast).trans he, hlen, hstr⟩

theorem Sets.stores_suf (h : Sets t pre tmp addr q s t') {m : List Setting}
    (hkept : ∀ x ∈ suf, x ≠ addr ∧ tmp ≠ some x ∧ pre.getLast? ≠ some x) (hsuf : List.Forall₂ t.Stores suf m)
    : List.Forall₂ t'.Stores suf m := by
  rw [List.forall₂_iff_zip] at hsuf ⊢
  refine ⟨hsuf.1, ?_⟩
  intro x s' hmem
  obtain ⟨e, he, hlen, hstr⟩ := hsuf.2 hmem
  obtain ⟨hx, hxt, hlast⟩ := hkept x (List.of_mem_zip hmem).1
  exact ⟨e, (h.kept x hx hxt hlast).trans he, hlen, hstr⟩

end

variable [DecidableEq α]

section

variable {pre : List α} {tmp : Option α} {addr : α} (garbage : ShellVar α) {s : Setting} {fuel : Nat}

/--
What `realloc` leaves at its address, and that it keeps all other variables.
-/
theorem exists_realloc (addr : α) (htmp : ∀ p, tmp = some p → (t.node p).isSome)
    : ∃ u e, t.realloc tmp addr garbage = .ok u ∧ u.varList = t.varList ∧ u.node addr = some e
        ∧ e.next = t.follower garbage tmp
        ∧ ∀ y, y ≠ addr → tmp ≠ some y → u.node y = t.node y := by
  cases tmp with
  | none =>
    refine ⟨t.setNode addr (some garbage), garbage, rfl, rfl, ?_, rfl, ?_⟩
    . simp [setNode]
    . intro y hy _
      simp [setNode, hy]
  | some p =>
    obtain ⟨e, he⟩ := Option.isSome_iff_exists.mp (htmp p rfl)
    refine ⟨(t.setNode p none).setNode addr (some e), e, ?_, rfl, ?_, ?_, ?_⟩
    . simp [realloc, read, he, bind, Except.bind]
    . simp [setNode]
    . simp [follower, next, he]
    . intro y hy hp
      have hne : y ≠ p := by
        intro heq
        exact hp (by rw [heq])
      simp [setNode, hy, hne]

theorem exists_setVariable (hfind : t.find s.1 fuel none t.varList = .ok (tmp, pre.getLast?))
    (htmp : ∀ p, tmp = some p → (t.node p).isSome) (hhead : pre = [] → t.varList = tmp)
    (halloc : ∀ x ∈ pre, (t.node x).isSome ∧ x ≠ addr ∧ tmp ≠ some x)
    : ∃ t', t.setVariable s.1 s.2 (some (addr, garbage)) fuel = .ok (.success, t')
        ∧ Sets t pre tmp addr (t.follower garbage tmp) s t' := by
  obtain ⟨u, e, hu, hlist, hnode, hnext, hkept⟩ := exists_realloc garbage addr htmp
  let str := s.1 ++ 0 :: s.2 ++ [0, 0]
  let new : ShellVar α := { e with keyLen := s.1.length, valueLen := s.2.length, str }
  cases hlast : pre.getLast? with
  | none =>
    rw [List.getLast?_eq_none_iff] at hlast
    subst hlast
    refine ⟨{ u with varList := some addr, node := Function.update u.node addr (some new) }, ?_, ?_⟩
    . have hvar : u.varList = tmp := hlist.trans (hhead rfl)
      simp only [setVariable, hfind, List.getLast?_nil, hu, bind, Except.bind]
      cases tmp with
      | none => simp [hvar, modify, read, hnode, bind, Except.bind, setNode, new, str]
      | some p => simp [hvar, modify, read, hnode, bind, Except.bind, setNode, new, str]
    . refine ⟨by simp, by simp, ⟨new, by simp, rfl, rfl⟩, ?_, ?_⟩
      . simp only [next, Function.update_self, Option.bind_some, new]
        exact hnext
      . intro y hy hp _
        simp only [Function.update_of_ne hy]
        exact hkept y hy hp
  | some x =>
    have hmem : x ∈ pre := List.mem_of_getLast? hlast
    have hne : pre ≠ [] := List.ne_nil_of_mem hmem
    obtain ⟨hsome, hx, hxtmp⟩ := halloc x hmem
    obtain ⟨ex, hex⟩ := Option.isSome_iff_exists.mp hsome
    have hux : u.node x = some ex := (hkept x hx hxtmp).trans hex
    let linked : ShellVar α := { ex with next := some addr }
    refine ⟨{ u with node := Function.update (Function.update u.node x (some linked)) addr (some new) }, ?_, ?_⟩
    . simp [setVariable, hfind, hlast, hu, modify, read, hux, hnode, bind, Except.bind, setNode, new, str,
        linked, Function.update_of_ne (Ne.symm hx)]
    . refine ⟨?_, ?_, ⟨new, by simp, rfl, rfl⟩, ?_, ?_⟩
      . rw [if_neg hne]
        exact hlist
      . intro y ey hy hey
        rw [hlast] at hy
        cases hy
        rw [hex] at hey
        cases hey
        simp [Function.update_of_ne hx, linked]
      . simp only [next, Function.update_self, Option.bind_some, new]
        exact hnext
      . intro y hy hp hxy
        rw [hlast] at hxy
        have hyx : y ≠ x := by
          intro heq
          exact hxy (by rw [heq])
        simp only [Function.update_of_ne hy, Function.update_of_ne hyx]
        exact hkept y hy hp

end

/--
The calls for variables, and what `realloc` returns in them: an address and what memory that is new holds.
-/
inductive VarCall (α : Type) where
  | set (key value : List (BitVec 8)) (memory : Option (α × ShellVar α))
  | get (key : List (BitVec 8))
  deriving DecidableEq, Repr

/--
The variables, and the settings that were stored so far.
-/
abbrev VarState (α : Type) := ShellVars α × List Setting

def step (fuel : Nat) (x : VarState α) : VarCall α → Run (VarState α)
  | .set key value memory => do
    let ⟨status, t⟩ ← x.1.setVariable key value memory fuel
    .ok (t, if status = .success then x.2 ++ [(key, value)] else x.2)
  | .get key => do
    let _ ← x.1.getVariable key fuel
    .ok x

/--
Strings have no zeroes, and `realloc` returns memory that is not in use, or the one that it was given.
-/
def Admissible (fuel : Nat) (x : VarState α) : VarCall α → Prop
  | .set key value memory =>
    0 ∉ key ∧ 0 ∉ value ∧ ∀ addr garbage tmp prevEntry, memory = some (addr, garbage)
      → x.1.find key fuel none x.1.varList = .ok (tmp, prevEntry) → tmp = some addr ∨ x.1.node addr = none
  | .get key => 0 ∉ key

/--
A call returns what a map returns, and the list of variables still ends and holds just what was set.
-/
def Right (fuel : Nat) (x : VarState α) : VarCall α → Prop
  | .set key value memory =>
    ∃ status t, x.1.setVariable key value memory fuel = .ok (status, t)
      ∧ match memory with
        | none => status = .unknownError ∧ t = x.1
        | some _ => status = .success ∧ t.Holds (settingsOf (x.2 ++ [(key, value)]))
  | .get key =>
    x.1.getVariable key fuel
        =
      .ok (match lastValue x.2 key with
        | none => .error .entryNotFound
        | some value => .ok value)

/--
The first key set that a key begins with is that key itself. If there is none, memory that is new
begins with a null pointer.
-/
def Fits (x : VarState α) : VarCall α → Prop
  | .set key _ memory =>
    match memory, firstPrefix (settingsOf x.2) key with
    | none, _ => True
    | some (_, garbage), none => garbage.next = none
    | some _, some s => s.1 = key
  | .get key =>
    match firstPrefix (settingsOf x.2) key with
    | none => True
    | some s => s.1 = key

/--
The list holds what was set, and no key begins with one that was set before it.
-/
structure Inv (x : VarState α) : Prop where
  holds : x.1.Holds (settingsOf x.2)
  ordered : Ordered (settingsOf x.2)
  values : ∀ s ∈ settingsOf x.2, 0 ∉ s.2

section

variable {x : VarState α} {fuel : Nat} {m : List Setting} {s : Setting} {l : List α}

omit [DecidableEq α] in
theorem rightUnique_stores : Relator.RightUnique t.Stores := by
  intro p s s' hs hs'
  obtain ⟨e, he, hlen, hstr⟩ := hs
  obtain ⟨e', he', hlen', hstr'⟩ := hs'
  rw [he, Option.some.injEq] at he'
  subst he'
  have hkeys : s.1 ++ 0 :: (s.2 ++ [0, 0]) = s'.1 ++ 0 :: (s'.2 ++ [0, 0]) := by
    simpa using hstr.symm.trans hstr'
  obtain ⟨hkey, hrest⟩ := List.append_inj hkeys (hlen.symm.trans hlen')
  rw [List.cons.injEq] at hrest
  exact Prod.ext hkey (List.append_cancel_right hrest.2)

omit [DecidableEq α] in
theorem Holds.functional {m' : List Setting} (h : t.Holds m) (h' : t.Holds m') : m = m' := by
  obtain ⟨l, hchain, hstores⟩ := h
  obtain ⟨l', hchain', hstores'⟩ := h'
  obtain rfl := hchain.functional hchain'
  exact rightUnique_stores.forall₂ hstores hstores'

omit [DecidableEq α] in
theorem isSome_of_stores (h : List.Forall₂ t.Stores l m) {p : α} (hp : p ∈ l) : (t.node p).isSome := by
  induction h with
  | nil => cases hp
  | cons hx _ ih =>
    cases List.mem_cons.mp hp with
    | inl heq =>
      obtain ⟨e, he, _⟩ := hx
      rw [heq, he]
      rfl
    | inr hmem => exact ih hmem

/--
A variable with a new key comes behind all others. The list ends there if the new memory says so.
-/
theorem exists_set_new (hholds : t.Holds m) (hnone : firstPrefix m s.1 = none) (hfuel : m.length ≤ fuel)
    {addr : α} {garbage : ShellVar α} (haddr : t.node addr = none)
    : ∃ t', t.setVariable s.1 s.2 (some (addr, garbage)) fuel = .ok (.success, t')
        ∧ (t'.Holds (m ++ [s]) ↔ garbage.next = none) := by
  obtain ⟨l, hchain, hstores⟩ := hholds
  have hrounds : l.length ≤ fuel := hstores.length_eq ▸ hfuel
  have hfind := find_none none hchain hstores (firstPrefix_eq_none hnone) hrounds
  rw [Option.or_none] at hfind
  have halloc : ∀ x ∈ l, (t.node x).isSome ∧ x ≠ addr ∧ (none : Option α) ≠ some x := by
    intro x hx
    have hsome := isSome_of_stores hstores hx
    refine ⟨hsome, ?_, by simp⟩
    intro heq
    rw [heq, haddr] at hsome
    cases hsome
  have hhead : l = [] → t.varList = none := by
    intro hnil
    exact hchain.eq_none_iff.mpr hnil
  obtain ⟨t', ht', hsets⟩ := exists_setVariable garbage hfind (by simp) hhead halloc
  refine ⟨t', ht', ?_⟩
  have hnext : t'.next addr = garbage.next := hsets.next
  have hchain' : Chain t.next t.varList (l ++ []) := by
    rw [List.append_nil]
    exact hchain
  constructor
  . intro ⟨l', hl', hstores'⟩
    have hends : Chain (Function.update t'.next addr none) t'.varList (l ++ [addr]) := by
      apply hsets.chain hchain' halloc
      . intro y hy
        exact Function.update_of_ne hy _ _
      . exact Function.update_self ..
    have hagree : ∀ y ∈ l, t'.next y = Function.update t'.next addr none y := by
      intro y hy
      exact (Function.update_of_ne (halloc y hy).2.1 _ _).symm
    obtain ⟨suf, hsuf, hrest⟩ := hends.follow hagree hl'
    have hlength := hstores.length_eq
    have hlength' := hstores'.length_eq
    simp only [hsuf, List.length_append, List.length_cons, List.length_nil] at hlength'
    have hnil : suf = [] := List.eq_nil_of_length_eq_zero (by omega)
    rw [hnext, hnil] at hrest
    exact hrest
  . intro hnull
    refine ⟨l ++ [addr], ?_, ?_⟩
    . apply hsets.chain hchain' halloc (fun _ _ => rfl)
      rw [hnext, hnull]
      rfl
    . exact List.rel_append (hsets.stores_pre halloc hstores) (.cons hsets.stores .nil)

/--
A variable takes the place of the first one whose key its own begins with.
-/
theorem exists_set_old {mpre mpost : List Setting} {s' : Setting} (hholds : t.Holds (mpre ++ s' :: mpost))
    (hmiss : ∀ s'' ∈ mpre, ¬ s''.1 <+: s.1) (hhit : s'.1 <+: s.1) (hfuel : mpre.length < fuel)
    {addr : α} {garbage : ShellVar α}
    (haddr : ∀ tmp prevEntry, t.find s.1 fuel none t.varList = .ok (tmp, prevEntry)
      → tmp = some addr ∨ t.node addr = none)
    : ∃ t', t.setVariable s.1 s.2 (some (addr, garbage)) fuel = .ok (.success, t')
        ∧ t'.Holds (mpre ++ s :: mpost) := by
  obtain ⟨l, hchain, hstores⟩ := hholds
  have hpre := List.forall₂_take_append _ _ _ hstores
  have hrest := List.forall₂_drop_append _ _ _ hstores
  rw [List.forall₂_cons_right_iff] at hrest
  obtain ⟨p, post, hp, hpost, hdrop⟩ := hrest
  have hl : l = l.take mpre.length ++ p :: post := by
    rw [← hdrop, List.take_append_drop]
  generalize l.take mpre.length = pre at hpre hl
  subst hl
  have hrounds : pre.length < fuel := hpre.length_eq ▸ hfuel
  have hfind := find_some none hchain hpre hmiss hp hhit hrounds
  rw [Option.or_none] at hfind
  have haddr := haddr _ _ hfind
  have hnodup := hchain.nodup
  have hsome : ∀ x ∈ pre ++ p :: post, (t.node x).isSome := fun x hx => isSome_of_stores hstores hx
  have hne : ∀ x ∈ pre ++ p :: post, x ≠ p → x ≠ addr := by
    intro x hx hxp heq
    cases haddr with
    | inl hsame =>
      rw [Option.some.injEq] at hsame
      exact hxp (heq.trans hsame.symm)
    | inr hnone =>
      have := hsome x hx
      rw [heq, hnone] at this
      cases this
  have hprep : ∀ x ∈ pre, x ≠ p := by
    intro x hx heq
    exact (List.nodup_append.mp hnodup).2.2 x hx p (by simp) heq
  have hpostp : ∀ x ∈ post, x ≠ p := by
    intro x hx heq
    subst heq
    exact (List.nodup_cons.mp (List.nodup_append.mp hnodup).2.1).1 hx
  have halloc : ∀ x ∈ pre, (t.node x).isSome ∧ x ≠ addr ∧ some p ≠ some x := by
    intro x hx
    refine ⟨hsome x (by simp [hx]), hne x (by simp [hx]) (hprep x hx), ?_⟩
    rw [ne_eq, Option.some.injEq]
    exact Ne.symm (hprep x hx)
  have hhead : pre = [] → t.varList = some p := by
    intro hnil
    rw [hnil] at hchain
    exact hchain.1
  have hptmp : ∀ q, some p = some q → (t.node q).isSome := by
    intro q hq
    cases hq
    exact hsome p (by simp)
  obtain ⟨t', ht', hsets⟩ := exists_setVariable garbage hfind hptmp hhead halloc
  have hkept : ∀ x ∈ post, x ≠ addr ∧ some p ≠ some x ∧ pre.getLast? ≠ some x := by
    intro x hx
    refine ⟨hne x (by simp [hx]) (hpostp x hx), ?_, ?_⟩
    . rw [ne_eq, Option.some.injEq]
      exact Ne.symm (hpostp x hx)
    . intro hlast
      have hmem : x ∈ pre := List.mem_of_getLast? hlast
      exact (List.nodup_append.mp hnodup).2.2 x hmem x (by simp [hx]) rfl
  refine ⟨t', ht', pre ++ addr :: post, ?_, ?_⟩
  . apply hsets.chain hchain halloc (fun _ _ => rfl)
    rw [hsets.next]
    apply hchain.append_right.congr
    intro y hy
    obtain ⟨hya, hyp, hylast⟩ := hkept y hy
    unfold next
    rw [hsets.kept y hya hyp hylast]
  . exact List.rel_append (hsets.stores_pre halloc hpre) (.cons hsets.stores (hsets.stores_suf hkept hpost))

end

section

variable {x : VarState α} {fuel : Nat} {key value : List (BitVec 8)}

theorem setIn_of_none {m : List Setting} {s : Setting} (h : firstPrefix m s.1 = none) : setIn s m = m ++ [s] := by
  have hne := ne_of_not_initial (firstPrefix_eq_none h)
  have happend := setIn_append (m := []) hne
  rw [List.append_nil] at happend
  exact happend

theorem setIn_of_some {pre post : List Setting} {s s' : Setting} (hmiss : ∀ s'' ∈ pre, ¬ s''.1 <+: s.1)
    (hkey : s'.1 = s.1)
    : setIn s (pre ++ s' :: post) = pre ++ s :: post := by
  rw [setIn_append (ne_of_not_initial hmiss), setIn, if_pos hkey]

/--
A key that begins with another one that was set before takes its place.
-/
theorem setIn_ne {pre post : List Setting} {s s' : Setting} (hmiss : ∀ s'' ∈ pre, ¬ s''.1 <+: s.1)
    (hkey : s'.1 ≠ s.1)
    : setIn s (pre ++ s' :: post) ≠ pre ++ s :: post := by
  rw [setIn_append (ne_of_not_initial hmiss), setIn, if_neg hkey]
  intro heq
  have htail := List.append_cancel_left heq
  rw [List.cons.injEq] at htail
  exact hkey (by rw [htail.1])

omit [DecidableEq α] in
theorem exists_find (hinv : Inv x) (hfuel : x.2.length < fuel) (key : List (BitVec 8))
    : ∃ tmp prevEntry, x.1.find key fuel none x.1.varList = .ok (tmp, prevEntry)
        ∧ (firstPrefix (settingsOf x.2) key = none → tmp = none) := by
  have hlength : (settingsOf x.2).length ≤ x.2.length := length_settingsOf_le
  obtain ⟨l, hchain, hstores⟩ := hinv.holds
  cases hfirst : firstPrefix (settingsOf x.2) key with
  | none =>
    have hrounds : l.length ≤ fuel := by
      rw [hstores.length_eq]
      omega
    exact ⟨_, _, find_none none hchain hstores (firstPrefix_eq_none hfirst) hrounds, fun _ => rfl⟩
  | some s =>
    obtain ⟨hhit, mpre, mpost, heq, hmiss⟩ := firstPrefix_eq_some hfirst
    rw [heq] at hstores hlength
    have hpre := List.forall₂_take_append _ _ _ hstores
    have hrest := List.forall₂_drop_append _ _ _ hstores
    rw [List.forall₂_cons_right_iff] at hrest
    obtain ⟨p, post, hp, hpost, hdrop⟩ := hrest
    have hl : l = l.take mpre.length ++ p :: post := by
      rw [← hdrop, List.take_append_drop]
    rw [hl] at hchain
    have hrounds : (l.take mpre.length).length < fuel := by
      rw [hpre.length_eq]
      rw [List.length_append, List.length_cons] at hlength
      omega
    exact ⟨_, _, find_some none hchain hpre hmiss hp hhit hrounds, fun h => by cases h⟩

/--
What setting a variable does, and when the list of variables holds what it should afterwards.
-/
theorem exists_set (hinv : Inv x) (hfuel : x.2.length < fuel) {addr : α} {garbage : ShellVar α}
    (hadm : Admissible fuel x (.set key value (some (addr, garbage))))
    : ∃ t, x.1.setVariable key value (some (addr, garbage)) fuel = .ok (.success, t)
        ∧ (t.Holds (settingsOf (x.2 ++ [(key, value)])) ↔ Fits x (.set key value (some (addr, garbage)))) := by
  have hlength : (settingsOf x.2).length ≤ x.2.length := length_settingsOf_le
  have haddr : ∀ tmp prevEntry, x.1.find key fuel none x.1.varList = .ok (tmp, prevEntry)
      → tmp = some addr ∨ x.1.node addr = none := by
    intro tmp prevEntry hfind
    exact hadm.2.2 addr garbage tmp prevEntry rfl hfind
  rw [settingsOf_append]
  simp only [Fits]
  cases hfirst : firstPrefix (settingsOf x.2) key with
  | none =>
    obtain ⟨tmp, prevEntry, hfind, htmp⟩ := exists_find hinv hfuel key
    have hnone : x.1.node addr = none := by
      cases haddr tmp prevEntry hfind with
      | inl hsame =>
        rw [htmp hfirst] at hsame
        cases hsame
      | inr hnone => exact hnone
    rw [setIn_of_none (s := (key, value)) hfirst]
    exact exists_set_new (s := (key, value)) hinv.holds hfirst (by omega) hnone
  | some s =>
    obtain ⟨hhit, pre, post, heq, hmiss⟩ := firstPrefix_eq_some hfirst
    have hholds := hinv.holds
    rw [heq] at hholds hlength ⊢
    rw [List.length_append, List.length_cons] at hlength
    obtain ⟨t, ht, hnew⟩ := exists_set_old (s := (key, value)) hholds hmiss hhit
      (by omega) haddr
    refine ⟨t, ht, ?_⟩
    dsimp only
    by_cases hkey : s.1 = key
    . rw [setIn_of_some (s := (key, value)) hmiss hkey]
      exact iff_of_true hnew hkey
    . apply iff_of_false _ hkey
      intro hold
      exact setIn_ne (s := (key, value)) hmiss hkey (hold.functional hnew)

theorem set_right_iff (hinv : Inv x) (hfuel : x.2.length < fuel) {memory : Option (α × ShellVar α)}
    (hadm : Admissible fuel x (.set key value memory))
    : Right fuel x (.set key value memory) ↔ Fits x (.set key value memory) := by
  cases memory with
  | none =>
    apply iff_of_true _ trivial
    obtain ⟨tmp, prevEntry, hfind, _⟩ := exists_find hinv hfuel key
    refine ⟨.unknownError, x.1, ?_, rfl, rfl⟩
    simp [setVariable, hfind, bind, Except.bind]
  | some memory =>
    obtain ⟨addr, garbage⟩ := memory
    obtain ⟨t, ht, hiff⟩ := exists_set hinv hfuel hadm
    rw [← hiff]
    constructor
    . intro ⟨status, t', ht', _, hholds⟩
      rw [ht] at ht'
      cases ht'
      exact hholds
    . intro hholds
      exact ⟨.success, t, ht, rfl, hholds⟩

theorem ordered_iff {m : List Setting} : Ordered m ↔ (m.map Prod.fst).Pairwise fun k k' => ¬ k <+: k' := by
  rw [List.pairwise_map]
  rfl

theorem ordered_setIn {m : List Setting} {s : Setting} (hordered : Ordered m)
    (h : ∀ s', firstPrefix m s.1 = some s' → s'.1 = s.1)
    : Ordered (setIn s m) := by
  cases hfirst : firstPrefix m s.1 with
  | none =>
    rw [setIn_of_none hfirst]
    apply List.pairwise_append.mpr
    refine ⟨hordered, List.pairwise_singleton _ _, ?_⟩
    intro s' hs' s'' hs''
    rw [List.mem_singleton] at hs''
    rw [hs'']
    exact firstPrefix_eq_none hfirst s' hs'
  | some s' =>
    obtain ⟨_, pre, post, heq, hmiss⟩ := firstPrefix_eq_some hfirst
    have hkey := h s' hfirst
    rw [heq] at hordered ⊢
    rw [setIn_of_some hmiss hkey]
    rw [ordered_iff] at hordered ⊢
    rw [List.map_append, List.map_cons] at hordered ⊢
    rw [← hkey]
    exact hordered

theorem mem_setIn {m : List Setting} {s s' : Setting} (h : s' ∈ setIn s m) : s' = s ∨ s' ∈ m := by
  induction m with
  | nil =>
    left
    simpa [setIn] using h
  | cons s'' m ih =>
    unfold setIn at h
    split at h <;> grind

theorem inv_step (hinv : Inv x) (hfuel : x.2.length < fuel) {c : VarCall α} (hadm : Admissible fuel x c)
    (hfits : Fits x c) {y : VarState α} (h : step fuel x c = .ok y)
    : Inv y ∧ y.2.length ≤ x.2.length + 1 := by
  cases c with
  | get key =>
    rw [step, bind_eq_ok] at h
    obtain ⟨_, _, h⟩ := h
    cases h
    exact ⟨hinv, Nat.le_succ _⟩
  | set key value memory =>
    rw [step, bind_eq_ok] at h
    obtain ⟨⟨status, t⟩, ht, h⟩ := h
    rw [Except.ok.injEq] at h
    subst h
    have hright := (set_right_iff hinv hfuel hadm).mpr hfits
    obtain ⟨status', t', ht', hcases⟩ := hright
    rw [ht] at ht'
    cases ht'
    cases memory with
    | none =>
      obtain ⟨rfl, rfl⟩ := hcases
      exact ⟨hinv, Nat.le_succ _⟩
    | some memory =>
      obtain ⟨rfl, hholds⟩ := hcases
      dsimp only
      rw [if_pos rfl, List.length_append]
      refine ⟨⟨hholds, ?_, ?_⟩, Nat.le_refl _⟩
      . dsimp only
        rw [settingsOf_append]
        apply ordered_setIn hinv.ordered
        intro s' hs'
        simp only [Fits] at hfits
        rw [hs'] at hfits
        exact hfits
      . intro s hs
        dsimp only at hs
        rw [settingsOf_append] at hs
        cases mem_setIn hs with
        | inl heq =>
          rw [heq]
          exact hadm.2.1
        | inr hmem => exact hinv.values s hmem

end

end ShellVars

end Emos.Boot
