import Emos.Boot.Device.Impl.Device
import Emos.Boot.Device.Lemmas.Device
import Emos.Boot.Stdc.Lemmas.Stdio
import Emos.Boot.Stdc.Lemmas.Strtol
import Mathlib.Data.List.Find

/-!
This module contains in which runs the names of devices differ from each other.
-/

open Lib Lib.Decimal

namespace Emos.Boot

namespace DeviceTree

variable {α : Type} {t : DeviceTree α} {p : α} {l : List α} {q : Option α} {fuel : Nat}

def nameOf (t : DeviceTree α) (x : α) : List (BitVec 8) := (t.name x).getD []

theorem exists_named_node (h : (t.node p).isSome)
    : ∃ e, t.node p = some e ∧ e.next = t.next p ∧ e.name = t.nameOf p := by
  obtain ⟨e, he, hview⟩ := exists_node h
  have hname : t.name p = some e.name := hview _
  refine ⟨e, he, (hview _).symm, ?_⟩
  rw [nameOf, hname]
  rfl

variable {basename : List (BitVec 8)} {idMax m : BitVec 32} {nameEnd : Option (BitVec 8)}

theorem findIdMax_some {x : α} (hx : (t.node x).isSome)
    : t.findIdMax basename (fuel + 1) (some x) idMax nameEnd
        = if basename <+: t.nameOf x then
            match nameEndAfter nameEnd (strtol ((t.nameOf x).drop basename.length) 10).2 with
            | none => .error .access
            | some c =>
              t.findIdMax basename fuel (t.next x)
                (if c = 0 ∧ idMax.slt (strtol ((t.nameOf x).drop basename.length) 10).1 then
                  (strtol ((t.nameOf x).drop basename.length) 10).1 else idMax)
                (some c)
          else
            t.findIdMax basename fuel (t.next x) idMax nameEnd := by
  obtain ⟨e, he, hnext, hname⟩ := exists_named_node hx
  have hprefix : strncmpEq basename e.name basename.length = true ↔ basename <+: t.nameOf x := by
    rw [hname, List.prefix_iff_eq_take, strncmpEq, decide_eq_true_eq, List.take_length]
  simp only [findIdMax, read, he, hnext, bind, Except.bind]
  by_cases h : basename <+: t.nameOf x
  . rw [if_pos h, hprefix.mpr h, hname]
    simp only [Bool.not_true, Bool.false_eq_true, if_false]
    cases nameEndAfter nameEnd (strtol ((t.nameOf x).drop basename.length) 10).2 with
    | none => rfl
    | some c =>
      dsimp only
      by_cases hc : c = 0
      . simp [hc]
      . rw [if_pos hc, if_neg (fun hand => hc hand.1)]
  . rw [if_neg h]
    have : strncmpEq basename e.name basename.length = false := by
      rw [← Bool.not_eq_true, hprefix]
      exact h
    rw [this]
    rfl

theorem findIdMax_none : t.findIdMax basename fuel none idMax nameEnd = .ok idMax := by
  cases fuel <;> rfl

theorem exists_nameEndAfter (c : BitVec 8) (endptr : Option (List (BitVec 8)))
    : ∃ d, nameEndAfter (some c) endptr = some d := by
  cases endptr with
  | none => exact ⟨c, rfl⟩
  | some str => exact ⟨_, rfl⟩

/--
Once something was stored to `name_end`, the loop returns.
-/
theorem exists_findIdMax (h : Chain t.next q l) (halloc : ∀ x ∈ l, (t.node x).isSome) (hfuel : l.length ≤ fuel)
    (c : BitVec 8)
    : ∃ m, t.findIdMax basename fuel q idMax (some c) = .ok m := by
  induction l generalizing q fuel idMax c with
  | nil =>
    obtain rfl : q = none := h
    exact ⟨idMax, findIdMax_none⟩
  | cons x xs ih =>
    obtain rfl := h.1
    rw [List.length_cons] at hfuel
    obtain ⟨n, rfl⟩ : ∃ n, fuel = n + 1 := ⟨fuel - 1, by lia⟩
    rw [List.forall_mem_cons] at halloc
    rw [findIdMax_some halloc.1]
    split
    . obtain ⟨d, hd⟩ := exists_nameEndAfter c (strtol ((t.nameOf x).drop basename.length) 10).2
      rw [hd]
      exact ih h.2 halloc.2 (by omega) d
    . exact ih h.2 halloc.2 (by omega) c

/--
The loop returns if and only if the first name that starts with the base name ends with a number in
range, since nothing has been stored to `name_end` before.
-/
theorem exists_findIdMax_iff (h : Chain t.next q l) (halloc : ∀ x ∈ l, (t.node x).isSome)
    (hfuel : l.length ≤ fuel)
    : (∃ m, t.findIdMax basename fuel q idMax none = .ok m)
        ↔ ∀ x ∈ l.find? (basename <+: t.nameOf ·), ¬ OutOfRange ((t.nameOf x).drop basename.length) := by
  induction l generalizing q fuel with
  | nil =>
    obtain rfl : q = none := h
    exact iff_of_true ⟨idMax, findIdMax_none⟩ (by simp)
  | cons x xs ih =>
    obtain rfl := h.1
    rw [List.length_cons] at hfuel
    obtain ⟨n, rfl⟩ : ∃ n, fuel = n + 1 := ⟨fuel - 1, by lia⟩
    rw [List.forall_mem_cons] at halloc
    rw [findIdMax_some halloc.1]
    split
    . next hprefix =>
      rw [List.find?_cons_of_pos (by simpa using hprefix)]
      simp only [Option.mem_def, Option.some.injEq, forall_eq']
      rw [← strtol_eq_none_iff]
      cases hend : (strtol ((t.nameOf x).drop basename.length) 10).2 with
      | none => simp [nameEndAfter]
      | some str =>
        simp only [nameEndAfter, reduceCtorEq, not_false_eq_true, iff_true]
        exact exists_findIdMax h.2 halloc.2 (by omega) _
    . next hprefix =>
      rw [List.find?_cons_of_neg (by simpa using hprefix)]
      exact ih h.2 halloc.2 (by omega)

/--
The result is at least the number at the end of every name that consists of the base name and digits.
-/
theorem findIdMax_bound (h : Chain t.next q l) (halloc : ∀ x ∈ l, (t.node x).isSome)
    (hfuel : l.length ≤ fuel) (hm : t.findIdMax basename fuel q idMax nameEnd = .ok m)
    : idMax.toInt ≤ m.toInt
        ∧ ∀ x ∈ l, ∀ digits, t.nameOf x = basename ++ digits → digits ≠ [] → (∀ c ∈ digits, IsDigit c)
          → value digits < 2 ^ 31 → (value digits : Int) ≤ m.toInt := by
  induction l generalizing q fuel idMax nameEnd with
  | nil =>
    obtain rfl : q = none := h
    rw [findIdMax_none] at hm
    cases hm
    exact ⟨Int.le_refl _, by simp⟩
  | cons x xs ih =>
    obtain rfl := h.1
    rw [List.length_cons] at hfuel
    obtain ⟨n, rfl⟩ : ∃ n, fuel = n + 1 := ⟨fuel - 1, by lia⟩
    rw [List.forall_mem_cons] at halloc
    rw [findIdMax_some halloc.1] at hm
    split at hm
    . split at hm
      . contradiction
      . next c hc =>
        obtain ⟨hle, hrest⟩ := ih h.2 halloc.2 (by omega) hm
        constructor
        . refine Int.le_trans ?_ hle
          split
          . next hlt =>
            rw [BitVec.slt_iff_toInt_lt] at hlt
            omega
          . exact Int.le_refl _
        . rw [List.forall_mem_cons]
          refine ⟨?_, hrest⟩
          intro digits hname hne hdigits hvalue
          have hdrop : (t.nameOf x).drop basename.length = digits := by rw [hname, List.drop_left]
          rw [hdrop, strtol_digits hne hdigits hvalue] at hc hle
          obtain rfl : 0 = c := Option.some.inj hc
          have htoInt : (BitVec.ofNat 32 (value digits)).toInt = value digits := by
            have hmod : (BitVec.ofNat 32 (value digits)).toNat = value digits := by
              rw [BitVec.toNat_ofNat]
              lia
            rw [BitVec.toInt_eq_toNat_of_lt (by omega), hmod]
          rw [← htoInt]
          refine Int.le_trans ?_ hle
          dsimp only
          by_cases hlt : idMax.slt (BitVec.ofNat 32 (value digits))
          . rw [if_pos ⟨rfl, hlt⟩]
          . rw [if_neg (fun hand => hlt hand.2)]
            rw [BitVec.slt_iff_toInt_lt] at hlt
            omega
    . next hprefix =>
      obtain ⟨hle, hrest⟩ := ih h.2 halloc.2 (by omega) hm
      refine ⟨hle, List.forall_mem_cons.mpr ⟨?_, hrest⟩⟩
      intro digits hname
      exact absurd ⟨digits, hname.symm⟩ hprefix

theorem strncmpEq_iff {a b : List (BitVec 8)} {n : Nat} (ha : a.length ≤ n) (hb : b.length ≤ n)
    : strncmpEq a b n ↔ a = b := by
  rw [strncmpEq, decide_eq_true_eq, List.take_of_length_le ha, List.take_of_length_le hb]

/--
Among different names, a device is found by its own.
-/
theorem deviceFind_nameOf (h : Chain t.next q l) (halloc : ∀ x ∈ l, (t.node x).isSome)
    (hlength : ∀ x ∈ l, (t.nameOf x).length < deviceNameMax) (hnodup : (l.map t.nameOf).Nodup) {x : α}
    (hx : x ∈ l) (hfuel : l.length ≤ fuel)
    : t.deviceFind (t.nameOf x) fuel q = .ok (.success, some x) := by
  induction l generalizing q fuel with
  | nil => contradiction
  | cons y ys ih =>
    obtain rfl := h.1
    have hxlength := hlength x hx
    rw [List.length_cons] at hfuel
    obtain ⟨n, rfl⟩ : ∃ n, fuel = n + 1 := ⟨fuel - 1, by lia⟩
    rw [List.forall_mem_cons] at halloc hlength
    rw [List.map_cons, List.nodup_cons] at hnodup
    obtain ⟨e, he, hnext, hname⟩ := exists_named_node halloc.1
    have hequal : strncmpEq (t.nameOf y) (t.nameOf x) deviceNameMax ↔ t.nameOf y = t.nameOf x :=
      strncmpEq_iff (Nat.le_of_lt hlength.1) (Nat.le_of_lt hxlength)
    simp only [deviceFind, read, he, hnext, hname, bind, Except.bind]
    cases List.mem_cons.mp hx with
    | inl heq =>
      subst heq
      rw [if_pos (hequal.mpr rfl)]
    | inr hmem =>
      have hne : t.nameOf y ≠ t.nameOf x := by
        intro heq
        apply hnodup.1
        rw [heq]
        exact List.mem_map_of_mem hmem
      rw [if_neg (fun hsame => hne (hequal.mp hsame))]
      exact ih h.2 halloc.2 hlength.2 hnodup.2 hmem (by omega)

end DeviceTree

/--
A generated name that fits into the name field consists of the base name and the number.
-/
theorem name_of_length_lt {basename name : List (BitVec 8)} {id : BitVec 32}
    (hzero : 0 ∉ basename) (hname : (snprintfStrInt deviceNameMax basename id).takeWhile (· ≠ 0) = name)
    (hlength : name.length < deviceNameMax)
    (hdigits : ∀ c ∈ doPrintInt (id.signExtend 64) plainSpec true, c ≠ 0)
    : name = basename ++ doPrintInt (id.signExtend 64) plainSpec true := by
  have hbase : ∀ c ∈ basename, c ≠ 0 := by
    rintro c hc rfl
    exact hzero hc
  rw [← hname] at hlength ⊢
  unfold snprintfStrInt at hlength ⊢
  change ((vsnprintf deviceNameMax (_ ++ doPrintInt (id.signExtend 64) plainSpec true)).takeWhile _).length < _
    at hlength
  change (vsnprintf deviceNameMax (_ ++ doPrintInt (id.signExtend 64) plainSpec true)).takeWhile _ = _
  generalize doPrintInt (id.signExtend 64) plainSpec true = digits at *
  rw [printStr_plain] at hlength ⊢
  have hchars : ∀ c ∈ basename.take (2 ^ 31 - 1) ++ digits, c ≠ 0 := by
    intro c hc
    cases List.mem_append.mp hc with
    | inl hmem => exact hbase c (List.mem_of_mem_take hmem)
    | inr hmem => exact hdigits c hmem
  rw [takeWhile_vsnprintf hchars] at hlength ⊢
  rw [List.length_take, List.length_append, List.length_take] at hlength
  unfold deviceNameMax at *
  rw [List.take_of_length_le (l := basename) (by omega), List.take_of_length_le]
  rw [List.length_append]
  omega

/--
The number at the end of a generated name: it follows the greatest one, and after the greatest `int` it
is the least one.
-/
theorem doPrintInt_succ {idMax : BitVec 32} (hle : -1 ≤ idMax.toInt)
    : (∃ n : Nat, (n : Int) = idMax.toInt + 1
          ∧ doPrintInt ((idMax + 1).signExtend 64) plainSpec true = numeral n)
        ∨ doPrintInt ((idMax + 1).signExtend 64) plainSpec true = 0x2d :: numeral (2 ^ 31) := by
  by_cases hmax : idMax = BitVec.intMax 32
  . right
    subst hmax
    decide
  . left
    have hlt : idMax.toInt < 2 ^ 31 - 1 := by
      have hne : idMax.toInt ≠ (BitVec.intMax 32).toInt := fun heq => hmax (BitVec.eq_of_toInt_eq heq)
      have hval : (BitVec.intMax 32).toInt = 2 ^ 31 - 1 := by decide
      have := idMax.toInt_lt
      omega
    have hsucc : (idMax + 1).toInt = idMax.toInt + 1 := by
      have hone : (1 : BitVec 32).toInt = 1 := by decide
      rw [BitVec.toInt_add, hone]
      apply Int.bmod_eq_of_le <;> omega
    have hext : ((idMax + 1).signExtend 64).toInt = idMax.toInt + 1 := by
      rw [BitVec.toInt_signExtend_of_le (by decide), hsucc]
    have hmsb : ((idMax + 1).signExtend 64).msb = false := by
      rw [BitVec.msb_eq_toInt, hext]
      exact decide_eq_false (by omega)
    refine ⟨_, ?_, doPrintInt_plain hmsb⟩
    rw [← BitVec.toInt_eq_toNat_of_msb hmsb, hext]

namespace DeviceHistory

variable {α : Type} {s : DeviceHistory α} {fuel : Nat}

def nameOf (s : DeviceHistory α) (x : α) : List (BitVec 8) := s.tree.nameOf x

/--
The names of all devices differ from each other, and each device is found by its name.
-/
structure Unique (fuel : Nat) (s : DeviceHistory α) : Prop where
  nodup : (s.live.map s.nameOf).Nodup
  found : ∀ x ∈ s.live, s.tree.deviceFind (s.nameOf x) fuel s.tree.head = .ok (.success, some x)

/--
All numbers that names end with are less than the greatest `int`.
-/
def SmallNumbers (s : DeviceHistory α) : Prop :=
  ∀ x ∈ s.live, ∀ digits ∈ (s.nameOf x).tails, digits ≠ [] → (∀ c ∈ digits, IsDigit c)
    → value digits < 2 ^ 31 - 1

/--
The generated name is not in use.
-/
theorem SmallNumbers.generated_not_mem (hsmall : s.SmallNumbers) {basename text : List (BitVec 8)}
    {idMax : BitVec 32}
    (hbound : ∀ x ∈ s.live, ∀ digits, s.nameOf x = basename ++ digits → digits ≠ []
      → (∀ c ∈ digits, IsDigit c) → value digits < 2 ^ 31 → (value digits : Int) ≤ idMax.toInt)
    (hle : -1 ≤ idMax.toInt) (htext : doPrintInt ((idMax + 1).signExtend 64) plainSpec true = text)
    : basename ++ text ∉ s.live.map s.nameOf := by
  intro hmem
  obtain ⟨x, hx, hname⟩ := List.mem_map.mp hmem
  have hlt := idMax.toInt_lt
  obtain ⟨n, hn, hprint⟩ | hprint := doPrintInt_succ hle
  . rw [hprint] at htext
    subst htext
    have hvalue : value (numeral n) = n := value_numeral n
    have hless := hsmall x hx (numeral n) (by rw [List.mem_tails, hname]; exact List.suffix_append _ _)
      (numeral_ne_nil n) (isDigit_numeral n)
    have := hbound x hx (numeral n) hname (numeral_ne_nil n) (isDigit_numeral n) (by omega)
    omega
  . rw [hprint] at htext
    subst htext
    have hvalue : value (numeral (2 ^ 31)) = 2 ^ 31 := value_numeral _
    have hsuffix : numeral (2 ^ 31) <:+ s.nameOf x := by
      rw [hname, List.append_cons]
      exact List.suffix_append _ _
    have hless := hsmall x hx (numeral (2 ^ 31)) ((List.mem_tails _ _).mpr hsuffix) (numeral_ne_nil _)
      (isDigit_numeral _)
    omega

variable [DecidableEq α]

structure Named (s : DeviceHistory α) : Prop extends Formed s where
  length : ∀ x ∈ s.live, (s.nameOf x).length < deviceNameMax
  nodup : (s.live.map s.nameOf).Nodup

/--
The base name is a string that is not empty, and the name that is generated from it fits into the name
field with its terminating zero.
-/
structure AdmitsNamed (fuel : Nat) (s : DeviceHistory α) (c : NamedCreation α) : Prop where
  create : s.Admits (.create c.dev c.parent)
  nonempty : c.basename ≠ []
  terminated : 0 ∉ c.basename
  small : s.SmallNumbers
  fits : ∀ t, s.stepNamed fuel c = .ok t → ∀ dev ∈ c.dev, (t.nameOf dev).length < deviceNameMax

instance (fuel : Nat) (s : DeviceHistory α) (c : NamedCreation α) : Decidable (s.AdmitsNamed fuel c) :=
  decidable_of_iff
    (s.Admits (.create c.dev c.parent) ∧ c.basename ≠ [] ∧ 0 ∉ c.basename
      ∧ (∀ x ∈ s.live, ∀ digits ∈ (s.nameOf x).tails, digits ≠ [] → (∀ c ∈ digits, IsDigit c)
        → value digits < 2 ^ 31 - 1)
      ∧ ∀ t, s.stepNamed fuel c = .ok t → ∀ dev ∈ c.dev, (t.nameOf dev).length < deviceNameMax)
    ⟨fun ⟨h₁, h₂, h₃, h₄, h₅⟩ => ⟨h₁, h₂, h₃, h₄, h₅⟩, fun h => ⟨h.create, h.nonempty, h.terminated, h.small, h.fits⟩⟩

/--
The first device whose name starts with the base name does not go on with a number that is out of
range.
-/
def CarefulNamed (s : DeviceHistory α) (c : NamedCreation α) : Prop :=
  c.dev.isSome → ∀ x ∈ s.live.find? (c.basename <+: s.nameOf ·), ¬ OutOfRange ((s.nameOf x).drop c.basename.length)

instance (s : DeviceHistory α) (c : NamedCreation α) : Decidable (s.CarefulNamed c) :=
  inferInstanceAs (Decidable (c.dev.isSome → ∀ x ∈ s.live.find? (c.basename <+: s.nameOf ·), ¬ _))

theorem Named.unique (h : s.Named) (hfuel : s.live.length ≤ fuel) : s.Unique fuel where
  nodup := h.nodup
  found := fun _ hx => DeviceTree.deviceFind_nameOf h.list (fun x hx => (h.allocated x).mpr hx) h.length h.nodup hx hfuel

/--
A tree whose devices differ only in their names.
-/
theorem Formed.of_tree (h : s.Formed) {tree : DeviceTree α} (hhead : tree.head = s.tree.head)
    (hisSome : ∀ x, (tree.node x).isSome = (s.tree.node x).isSome) (hnext : tree.next = s.tree.next)
    (hsibling : tree.sibling = s.tree.sibling) (hfirst : tree.firstChild = s.tree.firstChild)
    (hparent : tree.parent = s.tree.parent)
    : Formed { s with tree } := by
  refine ⟨⟨?_, ?_, ?_, ?_⟩, h.parents, ?_⟩
  . change Chain tree.next tree.head s.live
    rw [hnext, hhead]
    exact h.list
  . change ∀ p ∈ s.live, Chain tree.sibling (tree.firstChild p) (s.children p)
    rw [hsibling, hfirst]
    exact h.children
  . change ∀ x ∈ s.live, tree.parent x = s.parentOf x
    rw [hparent]
    exact h.parent
  . intro x
    rw [← h.allocated]
    change (tree.node x).isSome ↔ _
    rw [hisSome]
  . change ∀ x ∈ s.live, s.parentOf x = none → tree.sibling x = none
    rw [hsibling]
    exact h.roots

/--
What happens to a new device before and after `id_max` is known.
-/
theorem Named.exists_created (h : s.Named) {dev : α} {parent : Option α} {basename : List (BitVec 8)}
    (hadmits : s.AdmitsNamed fuel ⟨some dev, parent, basename⟩) (hfuel : s.live.length < fuel)
    : ∃ t : DeviceHistory α, t.Formed ∧ t.live = s.live ++ [dev] ∧ dev ∉ s.live
        ∧ (∀ x ∈ s.live, t.nameOf x = s.nameOf x) ∧ t.nameOf dev = []
        ∧ s.stepNamed fuel ⟨some dev, parent, basename⟩ = (do
            let idMax ← t.tree.findIdMax basename fuel t.tree.head (-1) none
            let tree ← t.tree.modify dev fun e =>
              { e with name := (snprintfStrInt deviceNameMax basename (idMax + 1)).takeWhile (· ≠ 0) }
            .ok { t with tree }) := by
  obtain ⟨t, ht, hlive, hname, hformed⟩ := h.step_create hadmits.create hfuel
  have hdev : dev ∉ s.live := by
    intro hmem
    have := (h.allocated dev).mpr hmem
    simp [hadmits.create.1 dev rfl] at this
  refine ⟨t, hformed, hlive, hdev, ?_, ?_, ?_⟩
  . intro x hx
    have hne : x ≠ dev := fun heq => hdev (heq ▸ hx)
    unfold nameOf DeviceTree.nameOf
    rw [hname, Option.elim_some, Function.update_of_ne hne]
  . unfold nameOf DeviceTree.nameOf
    rw [hname, Option.elim_some, Function.update_self]
    rfl
  . simp only [stepNamed, ht, bind, Except.bind, DeviceTree.deviceGenerateName]
    cases t.tree.findIdMax basename fuel t.tree.head (-1) none <;> rfl

theorem Formed.exists_findIdMax_iff {t : DeviceHistory α} (hformed : t.Formed) {dev : α} {parent : Option α}
    {basename : List (BitVec 8)} (hne : basename ≠ []) (hlive : t.live = s.live ++ [dev]) (hsame : ∀ x ∈ s.live, t.nameOf x = s.nameOf x)
    (hdev : t.nameOf dev = []) (hfuel : s.live.length < fuel)
    : (∃ m, t.tree.findIdMax basename fuel t.tree.head (-1) none = .ok m)
        ↔ s.CarefulNamed ⟨some dev, parent, basename⟩ := by
  have hfind : t.live.find? (basename <+: t.nameOf ·) = s.live.find? (basename <+: s.nameOf ·) := by
    have hnone : [dev].find? (basename <+: t.nameOf ·) = none := by
      simp [hdev, hne]
    rw [hlive, List.find?_append, hnone, Option.or_none]
    apply List.find?_congr
    intro x hx
    rw [hsame x hx]
  rw [DeviceTree.exists_findIdMax_iff hformed.list (fun x hx => (hformed.allocated x).mpr hx)
    (by rw [hlive, List.length_append]; exact hfuel)]
  change (∀ x ∈ t.live.find? (basename <+: t.nameOf ·), _) ↔ _
  rw [hfind]
  unfold CarefulNamed
  simp only [Option.isSome_some, forall_const]
  apply forall_congr'
  intro x
  apply imp_congr_right
  intro hx
  change ¬ OutOfRange ((t.nameOf x).drop _) ↔ _
  rw [hsame x (List.mem_of_find?_eq_some hx)]

theorem Named.stepNamed_iff (h : s.Named) {c : NamedCreation α} (hadmits : s.AdmitsNamed fuel c)
    (hfuel : s.live.length < fuel)
    : (s.CarefulNamed c
          → ∃ t, s.stepNamed fuel c = .ok t ∧ t.live.length ≤ s.live.length + 1 ∧ t.Named)
        ∧ ∀ t, s.stepNamed fuel c = .ok t → s.CarefulNamed c := by
  obtain ⟨dev, parent, basename⟩ := c
  cases dev with
  | none =>
    refine ⟨fun _ => ⟨s, rfl, Nat.le_succ _, h⟩, ?_⟩
    intro _ _ hsome
    contradiction
  | some dev =>
    obtain ⟨t, hformed, hlive, hdev, hsame, hnil, hstep⟩ := h.exists_created hadmits hfuel
    have hiff : _ ↔ s.CarefulNamed ⟨some dev, parent, basename⟩ :=
      hformed.exists_findIdMax_iff hadmits.nonempty hlive hsame hnil hfuel
    have halloc : ∀ x ∈ t.live, (t.tree.node x).isSome := fun x hx => (hformed.allocated x).mpr hx
    constructor
    . intro hcareful
      obtain ⟨idMax, hidMax⟩ := hiff.mpr hcareful
      obtain ⟨hle, hbound⟩ := DeviceTree.findIdMax_bound hformed.list halloc
        (by rw [hlive, List.length_append]; exact hfuel) hidMax
      have hmem : dev ∈ t.live := by simp [hlive]
      generalize hname : (snprintfStrInt deviceNameMax basename (idMax + 1)).takeWhile (· ≠ 0) = name
      obtain ⟨u, hu, huhead, hisSome, hset, hkeep⟩ :=
        DeviceTree.exists_modify (halloc dev hmem) fun e => { e with name }
      have hok : s.stepNamed fuel ⟨some dev, parent, basename⟩ = .ok { t with tree := u } := by
        rw [hstep]
        simp only [hidMax, hname, bind, Except.bind, hu]
      have huname : u.name = Function.update t.tree.name dev (some name) := hset _ _ (fun _ => rfl)
      have hnew : u.nameOf dev = name := by
        unfold DeviceTree.nameOf
        rw [huname, Function.update_self]
        rfl
      have hold : ∀ x ∈ s.live, u.nameOf x = s.nameOf x := by
        intro x hx
        have hne : x ≠ dev := fun heq => hdev (heq ▸ hx)
        unfold DeviceTree.nameOf
        rw [huname, Function.update_of_ne hne]
        exact hsame x hx
      have hfits : name.length < deviceNameMax := by
        rw [← hnew]
        exact hadmits.fits _ hok dev rfl
      have hone : (-1 : BitVec 32).toInt = -1 := by decide
      rw [hone] at hle
      have hzero : ∀ c ∈ doPrintInt ((idMax + 1).signExtend 64) plainSpec true, c ≠ 0 := by
        have hdigit : ∀ n, ∀ c ∈ numeral n, c ≠ 0 := by
          rintro n c hc rfl
          exact absurd (isDigit_numeral n 0 hc) (by decide)
        obtain ⟨n, -, hprint⟩ | hprint := doPrintInt_succ hle
        . rw [hprint]
          exact hdigit n
        . rw [hprint, List.forall_mem_cons]
          exact ⟨by decide, hdigit _⟩
      have htext := name_of_length_lt hadmits.terminated hname hfits hzero
      have hnot : name ∉ s.live.map s.nameOf := by
        rw [htext]
        apply hadmits.small.generated_not_mem _ hle rfl
        intro x hx digits hdigits
        exact hbound x (by simp [hlive, hx]) digits ((hsame x hx).trans hdigits)
      refine ⟨_, hok, by simp [hlive], ?_, ?_, ?_⟩
      . exact hformed.of_tree huhead hisSome (hkeep _ (fun _ => rfl)) (hkeep _ (fun _ => rfl))
          (hkeep _ (fun _ => rfl)) (hkeep _ (fun _ => rfl))
      . change ∀ x ∈ t.live, (u.nameOf x).length < deviceNameMax
        rw [hlive, List.forall_mem_append]
        constructor
        . intro x hx
          rw [hold x hx]
          exact h.length x hx
        . intro x hx
          rw [List.mem_singleton] at hx
          rw [hx, hnew]
          exact hfits
      . change (t.live.map u.nameOf).Nodup
        rw [hlive, List.map_append, List.map_congr_left hold, List.map_singleton, hnew,
          ← List.concat_eq_append, List.nodup_concat]
        exact ⟨hnot, h.nodup⟩
    . intro u hu
      apply hiff.mp
      rw [hstep] at hu
      cases hidMax : t.tree.findIdMax basename fuel t.tree.head (-1) none with
      | error e =>
        rw [hidMax] at hu
        cases hu
      | ok m => exact ⟨m, rfl⟩

end DeviceHistory

variable {α : Type} [DecidableEq α]

/--
In every run of creations, the names of all devices differ from each other, and each device is found by
its name, if and only if the first name that starts with the base name of a creation never goes on with
a number that is out of range.
-/
theorem device_names_unique_iff (fuel : Nat) (creations : List (NamedCreation α))
    (hfuel : creations.length ≤ fuel)
    (hadmits : Along (DeviceHistory.stepNamed fuel) (DeviceHistory.AdmitsNamed fuel) noDevices creations)
    : Always (DeviceHistory.stepNamed fuel) (DeviceHistory.Unique fuel) noDevices creations
        ↔ Along (DeviceHistory.stepNamed fuel) DeviceHistory.CarefulNamed noDevices creations := by
  apply Always.iff_along_of_step (I := fun s => s.Named ∧ s.live.length ≤ fuel) (fun s => s.live.length)
    (fun s h => h.1.unique h.2) _ _ _ (by simpa [noDevices] using hfuel) hadmits
  . intro s c h hc hlt hcareful
    obtain ⟨t, ht, hlength, hnamed⟩ := (h.1.stepNamed_iff hc hlt).1 hcareful
    exact ⟨t, ht, hlength, hnamed, by omega⟩
  . intro s c t h hc hlt ht _
    exact (h.1.stepNamed_iff hc hlt).2 t ht
  . refine ⟨⟨⟨⟨rfl, ?_, ?_, ?_⟩, ?_, ?_⟩, ?_, ?_⟩, ?_⟩ <;> simp [noDevices]

/--
The base names `hd`, `hd`, `hd1` and `hd` give `hd0`, `hd1`, `hd11` and `hd12`.
-/
theorem device_names_unique_iff_prefixes
    : Always (DeviceHistory.stepNamed 4) (DeviceHistory.Unique 4) (noDevices (α := Nat))
        [⟨some 0, none, [0x68, 0x64]⟩, ⟨some 1, none, [0x68, 0x64]⟩, ⟨some 2, some 1, [0x68, 0x64, 0x31]⟩,
          ⟨some 3, none, [0x68, 0x64]⟩] :=
  (device_names_unique_iff 4 _ (by decide) (by decide)).mpr (by decide)

/--
`h3000000000p` and `h`: the name of the first device goes on with a number that does not fit into `long`.
-/
def outOfRangeNames : List (NamedCreation Nat) :=
  [⟨some 0, none, [0x68, 0x33, 0x30, 0x30, 0x30, 0x30, 0x30, 0x30, 0x30, 0x30, 0x30, 0x70]⟩,
    ⟨some 1, none, [0x68]⟩]

theorem device_names_not_unique
    : Along (DeviceHistory.stepNamed 2) (DeviceHistory.AdmitsNamed 2) noDevices outOfRangeNames
        ∧ ¬ Always (DeviceHistory.stepNamed 2) (DeviceHistory.Unique 2) noDevices outOfRangeNames := by
  refine ⟨by decide, ?_⟩
  intro h
  obtain ⟨_, t, ht, h⟩ := h
  cases ht
  obtain ⟨_, u, hu, _⟩ := h
  cases hu

end Emos.Boot
