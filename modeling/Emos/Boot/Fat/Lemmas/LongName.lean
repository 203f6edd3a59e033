import Emos.Boot.Fat.Impl.Directory
import Mathlib.Data.List.Basic

/-!
This module contains the conversion of long names to UTF-8. The encoding to compare it with is the one that
Lean has for the characters of a `String`.
-/

namespace Emos.Boot

namespace LongName

/--
The unit ends a name.
-/
def IsEnd (u : BitVec 16) : Prop := u = 0 ∨ u = 0xFFFF

instance (u : BitVec 16) : Decidable (IsEnd u) := inferInstanceAs (Decidable (u = 0 ∨ u = 0xFFFF))

/--
The unit is a character, it does not end a name and is no surrogate.
-/
def IsCharacter (u : BitVec 16) : Prop := u ≠ 0 ∧ u ≠ 0xFFFF ∧ u.toNat.isValidChar

/--
The standard encoding of a unit that is a character.
-/
def utf8Unit (u : BitVec 16) : List (BitVec 8) :=
  (String.utf8EncodeChar (Char.ofNat u.toNat)).map UInt8.toBitVec

def utf8 (units : List (BitVec 16)) : List (BitVec 8) := units.flatMap utf8Unit

/--
The bytes that `ucs2_to_utf8` has for a unit if there is room for them.
-/
def unitBytes (u : BitVec 16) : List (BitVec 8) := (ucs2ToUtf8 3 u).getD []

section Standard

variable {u : BitVec 16}

theorem toNat_toChar (h : u.toNat.isValidChar) : (Char.ofNat u.toNat).val.toNat = u.toNat := by
  rw [Char.ofNat, dif_pos h]
  rfl

/--
The `n` bits from bit `i` on, with the bits of `t` above them.
-/
theorem field (c i n k a : Nat) {m t : Nat} (hm : m >>> i = 2 ^ n - 1) (ht : t = 2 ^ k * a) (h : n ≤ k)
    : ((c &&& m) >>> i) ||| t = c / 2 ^ i % 2 ^ n + t := by
  have hlt : c / 2 ^ i % 2 ^ n < 2 ^ k :=
    Nat.lt_of_lt_of_le (Nat.mod_lt _ (Nat.two_pow_pos n)) (Nat.pow_le_pow_right (by decide) h)
  rw [Nat.shiftRight_and_distrib, hm, Nat.and_two_pow_sub_one_eq_mod, Nat.shiftRight_eq_div_pow]
  rw [Nat.or_comm, ht, ← Nat.two_pow_add_eq_or_of_lt hlt, Nat.add_comm]

theorem utf8Unit_one (h : u.toNat.isValidChar) (hu : u.toNat ≤ 0x7F) : utf8Unit u = [.ofNat 8 u.toNat] := by
  unfold utf8Unit String.utf8EncodeChar
  simp only [toNat_toChar h]
  rw [if_pos hu]
  rfl

theorem utf8Unit_two (h : u.toNat.isValidChar) (hu : 0x7F < u.toNat) (hu' : u.toNat ≤ 0x7FF)
    : utf8Unit u
        =
      [.ofNat 8 (u.toNat / 64 % 32 + 0xC0), .ofNat 8 (u.toNat % 64 + 0x80)] := by
  unfold utf8Unit String.utf8EncodeChar
  simp only [toNat_toChar h]
  rw [if_neg (by omega), if_pos hu']
  rfl

theorem utf8Unit_three (h : u.toNat.isValidChar) (hu : 0x7FF < u.toNat)
    : utf8Unit u
        =
      [.ofNat 8 (u.toNat / 4096 % 16 + 0xE0), .ofNat 8 (u.toNat / 64 % 64 + 0x80),
        .ofNat 8 (u.toNat % 64 + 0x80)] := by
  have hlt := u.isLt
  unfold utf8Unit String.utf8EncodeChar
  simp only [toNat_toChar h]
  rw [if_neg (by omega), if_neg (by omega), if_pos (by omega)]
  rfl

theorem utf8_injective {units units' : List (BitVec 16)} (h : ∀ u ∈ units, u.toNat.isValidChar)
    (h' : ∀ u ∈ units', u.toNat.isValidChar) (heq : utf8 units = utf8 units') : units = units' := by
  have hchars : ∀ l : List (BitVec 16),
      utf8 l
        = ((l.map fun u => Char.ofNat u.toNat).flatMap String.utf8EncodeChar).map UInt8.toBitVec := by
    intro l
    rw [List.map_flatMap, List.flatMap_map]
    rfl
  rw [hchars, hchars] at heq
  have hbytes := List.map_injective_iff.mpr (fun _ _ => UInt8.toBitVec_inj.mp) heq
  have hencode := String.ofList_injective (String.toByteArray_inj.mp
    ((String.toByteArray_ofList).trans ((congrArg List.toByteArray hbytes).trans
      (String.toByteArray_ofList).symm)))
  have hback : ∀ l : List (BitVec 16), (∀ u ∈ l, u.toNat.isValidChar) →
      (l.map fun u => Char.ofNat u.toNat).map (fun c => BitVec.ofNat 16 c.val.toNat) = l := by
    intro l hl
    rw [List.map_map]
    refine (List.map_congr_left ?_).trans (List.map_id l)
    intro u hu
    show BitVec.ofNat 16 (Char.ofNat u.toNat).val.toNat = u
    rw [toNat_toChar (hl u hu), BitVec.ofNat_toNat, BitVec.setWidth_eq]
  rw [← hback units h, ← hback units' h', hencode]

end Standard

section Unit

variable {u : BitVec 16}

theorem ucs2ToUtf8_eq (len : Nat) (u : BitVec 16)
    : ucs2ToUtf8 len u = if (unitBytes u).length ≤ len then some (unitBytes u) else none := by
  unfold unitBytes ucs2ToUtf8
  dsimp only
  by_cases hend : u.toNat = 0 ∨ u.toNat = 0xFFFF
  . simp only [if_pos hend]
    rfl
  . by_cases hone : u.toNat < 0x7F
    . simp only [if_neg hend, if_pos hone]
      by_cases hlen : len < 1
      . rw [if_pos hlen, if_neg (by show ¬ 1 ≤ len; omega)]
      . rw [if_neg hlen, if_pos (by show 1 ≤ len; omega)]
        rfl
    . by_cases htwo : u.toNat < 0x7FF
      . simp only [if_neg hend, if_neg hone, if_pos htwo]
        by_cases hlen : len < 2
        . rw [if_pos hlen, if_neg (by show ¬ 2 ≤ len; omega)]
        . rw [if_neg hlen, if_pos (by show 2 ≤ len; omega)]
          rfl
      . simp only [if_neg hend, if_neg hone, if_neg htwo]
        by_cases hlen : len < 3
        . rw [if_pos hlen, if_neg (by show ¬ 3 ≤ len; omega)]
        . rw [if_neg hlen, if_pos (by show 3 ≤ len; omega)]
          rfl

theorem IsCharacter.not_isEnd (h : IsCharacter u) : ¬ IsEnd u := not_or.mpr ⟨h.1, h.2.1⟩

theorem unitBytes_eq (h : ¬ IsEnd u)
    : unitBytes u
        =
      if u.toNat < 0x7F then [.ofNat 8 u.toNat]
      else if u.toNat < 0x7FF then
        [.ofNat 8 (u.toNat / 64 % 32 + 0xC0), .ofNat 8 (u.toNat % 64 + 0x80)]
      else
        [.ofNat 8 (u.toNat / 4096 % 16 + 0xE0), .ofNat 8 (u.toNat / 64 % 64 + 0x80),
          .ofNat 8 (u.toNat % 64 + 0x80)] := by
  have hend : ¬ (u.toNat = 0 ∨ u.toNat = 0xFFFF) := by
    intro heq
    cases heq with
    | inl heq => exact h (.inl (BitVec.eq_of_toNat_eq heq))
    | inr heq => exact h (.inr (BitVec.eq_of_toNat_eq heq))
  have hhead := field u.toNat 6 5 6 3 (show 0x07C0 >>> 6 = 31 by decide) (show 0xC0 = _ by decide) (by decide)
  have hthree := field u.toNat 12 4 4 14 (show 0xF000 >>> 12 = 15 by decide) (show 0xE0 = _ by decide)
    (by decide)
  have hmid := field u.toNat 6 6 6 2 (show 0x0FC0 >>> 6 = 63 by decide) (show 0x80 = _ by decide) (by decide)
  have hlow := field u.toNat 0 6 6 2 (show 0x003F >>> 0 = 63 by decide) (show 0x80 = _ by decide) (by decide)
  norm_num at hhead hthree hmid hlow
  unfold unitBytes ucs2ToUtf8
  dsimp only
  rw [if_neg hend, hhead, hthree, hmid, hlow]
  rw [if_neg (show ¬ 3 < 1 by decide), if_neg (show ¬ 3 < 2 by decide), if_neg (show ¬ 3 < 3 by decide)]
  split
  . rfl
  . split
    . rfl
    . rfl

/--
The two units at the upper ends of the ranges are encoded with a byte more than they need, all other ones
as they should.
-/
theorem unitBytes_eq_utf8Unit (h : IsCharacter u) (hone : u ≠ 0x7F) (htwo : u ≠ 0x7FF)
    : unitBytes u = utf8Unit u := by
  have hnot := h.not_isEnd
  have hone' : u.toNat ≠ 0x7F := fun h => hone (BitVec.eq_of_toNat_eq h)
  have htwo' : u.toNat ≠ 0x7FF := fun h => htwo (BitVec.eq_of_toNat_eq h)
  rw [unitBytes_eq hnot]
  split
  . next hlt => rw [utf8Unit_one h.2.2 (by omega)]
  . split
    . next hge hlt => rw [utf8Unit_two h.2.2 (by omega) (by omega)]
    . next hge => rw [utf8Unit_three h.2.2 (by omega)]

theorem unitBytes_of_isEnd (h : IsEnd u) : unitBytes u = [] := by
  cases h with
  | inl h =>
    subst h
    rfl
  | inr h =>
    subst h
    rfl

theorem unitBytes_ne_nil (h : ¬ IsEnd u) : unitBytes u ≠ [] := by
  rw [unitBytes_eq h]
  split
  . simp
  . split
    . simp
    . simp

theorem length_unitBytes_le_three (u : BitVec 16) : (unitBytes u).length ≤ 3 := by
  by_cases h : IsEnd u
  . rw [unitBytes_of_isEnd h]
    decide
  . rw [unitBytes_eq h]
    split
    . simp
    . split
      . simp
      . simp

theorem zero_notMem_unitBytes (u : BitVec 16) : 0 ∉ unitBytes u := by
  have hbyte : ∀ n, n % 256 ≠ 0 → BitVec.ofNat 8 n ≠ 0 := by
    intro n hn heq
    have := congrArg BitVec.toNat heq
    rw [BitVec.toNat_ofNat] at this
    exact hn this
  by_cases h : IsEnd u
  . rw [unitBytes_of_isEnd h]
    exact List.not_mem_nil
  . have hzero : u.toNat ≠ 0 := fun heq => h (.inl (BitVec.eq_of_toNat_eq heq))
    rw [unitBytes_eq h]
    split
    . rw [List.mem_singleton]
      exact (hbyte _ (by omega)).symm
    . have hlow := hbyte (u.toNat % 64 + 0x80) (by omega)
      split
      . have hhead := hbyte (u.toNat / 64 % 32 + 0xC0) (by omega)
        rw [List.mem_cons, List.mem_singleton]
        exact not_or.mpr ⟨hhead.symm, hlow.symm⟩
      . have hhead := hbyte (u.toNat / 4096 % 16 + 0xE0) (by omega)
        have hmid := hbyte (u.toNat / 64 % 64 + 0x80) (by omega)
        rw [List.mem_cons, List.mem_cons, List.mem_singleton]
        exact not_or.mpr ⟨hhead.symm, not_or.mpr ⟨hmid.symm, hlow.symm⟩⟩

end Unit

section Loop

/--
The units from `k` on.
-/
def unitsFrom (buf : LfnBuf) (k n : Nat) : List (BitVec 16) := (List.range' k n).map buf

variable (buf : LfnBuf) (fallback : BitVec 8)

theorem unitsFrom_succ (k n : Nat)
    : unitsFrom buf k (n + 1) = buf k :: unitsFrom buf (k + 1) n := by
  unfold unitsFrom
  rw [List.range'_succ, List.map_cons]

theorem length_unitsFrom (k n : Nat) : (unitsFrom buf k n).length = n := by
  unfold unitsFrom
  rw [List.length_map, List.length_range']

theorem go_end {k : Nat} {out : List (BitVec 8)} (fuel : Nat) (hroom : out.length < fatLfnU8Buflen)
    (h : unitBytes (buf k) = [])
    : lfnUcs2ToUtf8.go buf fallback (fuel + 1) k out = out ++ [0]
        ∧ lfnUcs2End.go buf (fuel + 1) k out.length = ⟨k + 1, out.length⟩ := by
  have hbytes : ucs2ToUtf8 (fatLfnU8Buflen - out.length) (buf k) = some [] := by
    rw [ucs2ToUtf8_eq, h, if_pos (by simp)]
  change (if _ < fatLfnU8Buflen then _ else _) = _ ∧ (if _ < fatLfnU8Buflen then _ else _) = _
  rw [if_pos hroom, if_pos hroom, hbytes]
  exact ⟨rfl, rfl⟩

theorem go_unit {k : Nat} {out : List (BitVec 8)} (fuel : Nat) (h : unitBytes (buf k) ≠ [])
    (hroom : out.length + (unitBytes (buf k)).length ≤ fatLfnU8Buflen)
    : lfnUcs2ToUtf8.go buf fallback (fuel + 1) k out
        = lfnUcs2ToUtf8.go buf fallback fuel (k + 1) (out ++ unitBytes (buf k))
        ∧ lfnUcs2End.go buf (fuel + 1) k out.length
          = lfnUcs2End.go buf fuel (k + 1) (out ++ unitBytes (buf k)).length := by
  have hpos := List.length_pos_iff.mpr h
  have hbytes : ucs2ToUtf8 (fatLfnU8Buflen - out.length) (buf k) = some (unitBytes (buf k)) := by
    rw [ucs2ToUtf8_eq, if_pos (by omega)]
  have hlt : out.length < fatLfnU8Buflen := by omega
  change (if _ < fatLfnU8Buflen then _ else _) = _ ∧ (if _ < fatLfnU8Buflen then _ else _) = _
  rw [if_pos hlt, if_pos hlt, hbytes, List.length_append]
  cases hunit : unitBytes (buf k) with
  | nil => exact absurd hunit h
  | cons byte bytes => exact ⟨rfl, rfl⟩

/--
Nothing is taken back that has been written.
-/
theorem go_prefix (fuel k : Nat) (out : List (BitVec 8))
    : out <+: lfnUcs2ToUtf8.go buf fallback fuel k out := by
  induction fuel generalizing k out with
  | zero => exact List.prefix_refl _
  | succ fuel ih =>
    change _ <+: if _ < fatLfnU8Buflen then _ else _
    split
    . split
      . exact List.prefix_append _ _
      . exact (List.prefix_append _ _).trans (ih _ _)
      . exact (List.prefix_append _ _).trans (ih _ _)
    . exact List.prefix_refl _

theorem go_units {k : Nat} {out : List (BitVec 8)} (fuel n : Nat)
    (hne : ∀ u ∈ unitsFrom buf k n, unitBytes u ≠ [])
    (hroom : out.length + ((unitsFrom buf k n).flatMap unitBytes).length ≤ fatLfnU8Buflen)
    : lfnUcs2ToUtf8.go buf fallback (fuel + n) k out
        = lfnUcs2ToUtf8.go buf fallback fuel (k + n) (out ++ (unitsFrom buf k n).flatMap unitBytes)
        ∧ lfnUcs2End.go buf (fuel + n) k out.length
          = lfnUcs2End.go buf fuel (k + n)
            (out ++ (unitsFrom buf k n).flatMap unitBytes).length := by
  induction n generalizing k out with
  | zero => simp [unitsFrom]
  | succ n ih =>
    rw [unitsFrom_succ, List.flatMap_cons, List.length_append] at hroom
    rw [unitsFrom_succ, List.forall_mem_cons] at hne
    obtain ⟨hfirst, hwritten⟩ := @go_unit buf fallback k out (fuel + n) hne.1 (by omega)
    obtain ⟨hrest, hwritten'⟩ := @ih (k + 1) (out ++ unitBytes (buf k)) hne.2
      (by rw [List.length_append]; omega)
    rw [← Nat.add_assoc fuel, hfirst, hwritten, hrest, hwritten', unitsFrom_succ, List.flatMap_cons]
    rw [List.append_assoc, Nat.add_assoc k, Nat.add_comm 1]
    exact ⟨rfl, rfl⟩

/--
None of the two units that are encoded with a byte more than they need.
-/
def Regular (units : List (BitVec 16)) : Prop := 0x7F ∉ units ∧ 0x7FF ∉ units

instance (units : List (BitVec 16)) : Decidable (Regular units) := inferInstanceAs (Decidable (_ ∧ _))

theorem regular_cons {u : BitVec 16} {units : List (BitVec 16)}
    : Regular (u :: units) ↔ (u ≠ 0x7F ∧ u ≠ 0x7FF) ∧ Regular units := by
  unfold Regular
  rw [List.mem_cons, List.mem_cons, not_or, not_or]
  constructor
  . intro ⟨⟨hone, hones⟩, htwo, htwos⟩
    exact ⟨⟨Ne.symm hone, Ne.symm htwo⟩, hones, htwos⟩
  . intro ⟨⟨hone, htwo⟩, hones, htwos⟩
    exact ⟨⟨Ne.symm hone, hones⟩, Ne.symm htwo, htwos⟩

theorem flatMap_unitBytes {units : List (BitVec 16)} (h : ∀ u ∈ units, IsCharacter u)
    (hregular : Regular units) : units.flatMap unitBytes = utf8 units := by
  unfold utf8
  refine List.flatMap_congr ?_
  intro u hu
  refine unitBytes_eq_utf8Unit (h u hu) ?_ ?_
  . intro heq
    exact hregular.1 (heq ▸ hu)
  . intro heq
    exact hregular.2 (heq ▸ hu)

theorem utf8Unit_ne_nil (u : BitVec 16) : utf8Unit u ≠ [] := by
  unfold utf8Unit
  rw [Ne, List.map_eq_nil_iff]
  exact String.utf8EncodeChar_ne_nil

theorem length_le_utf8 {units : List (BitVec 16)} (h : ∀ u ∈ units, IsCharacter u)
    : units.length ≤ (utf8 units).length := by
  unfold utf8
  induction units with
  | nil => exact Nat.zero_le _
  | cons u units ih =>
    rw [List.forall_mem_cons] at h
    have hrest := ih h.2
    have hpos : 0 < (utf8Unit u).length := List.length_pos_iff.mpr (utf8Unit_ne_nil u)
    rw [List.flatMap_cons, List.length_append, List.length_cons]
    omega

theorem length_unitBytes_le {u : BitVec 16} (h : IsCharacter u) (hirregular : u = 0x7F ∨ u = 0x7FF)
    : (unitBytes u).length ≤ (utf8Unit u).length + 1 ∧ unitBytes u ≠ []
        ∧ (unitBytes u).head? ≠ (utf8Unit u).head? := by
  cases hirregular with
  | inl h =>
    subst h
    decide
  | inr h =>
    subst h
    decide

/--
The bytes of the first unit that is not a regular one are others than those of the standard.
-/
theorem regular_of_go {fuel k n : Nat} {out : List (BitVec 8)} (hfuel : n ≤ fuel) (hchar : ∀ u ∈ unitsFrom buf k n, IsCharacter u)
    (hroom : out.length + (utf8 (unitsFrom buf k n)).length < fatLfnU8Buflen)
    (h : lfnUcs2ToUtf8.go buf fallback fuel k out = out ++ utf8 (unitsFrom buf k n) ++ [0])
    : Regular (unitsFrom buf k n) := by
  induction n generalizing fuel k out with
  | zero => exact ⟨List.not_mem_nil, List.not_mem_nil⟩
  | succ n ih =>
    cases fuel with
    | zero => omega
    | succ fuel =>
      rw [unitsFrom_succ] at hchar hroom h ⊢
      rw [List.forall_mem_cons] at hchar
      have hutf8 : utf8 (buf k :: unitsFrom buf (k + 1) n)
          = utf8Unit (buf k) ++ utf8 (unitsFrom buf (k + 1) n) := List.flatMap_cons
      rw [hutf8, List.length_append] at hroom
      rw [hutf8] at h
      by_cases hirregular : buf k = 0x7F ∨ buf k = 0x7FF
      . obtain ⟨hlength, hne, hhead⟩ := length_unitBytes_le hchar.1 hirregular
        rw [(go_unit buf fallback fuel hne (by omega)).1] at h
        have hinitial := go_prefix buf fallback fuel (k + 1) (out ++ unitBytes (buf k))
        rw [h, List.append_assoc, List.append_assoc, List.prefix_append_right_inj] at hinitial
        obtain ⟨tail, htail⟩ := hinitial
        have hbyte := congrArg List.head? htail
        rw [List.head?_append_of_ne_nil _ hne, List.head?_append_of_ne_nil _ (utf8Unit_ne_nil _)] at hbyte
        exact absurd hbyte hhead
      . obtain ⟨hone, htwo⟩ := not_or.mp hirregular
        have hunit := unitBytes_eq_utf8Unit hchar.1 hone htwo
        have hne := unitBytes_ne_nil hchar.1.not_isEnd
        rw [(go_unit buf fallback fuel hne (by rw [hunit]; omega)).1, hunit] at h
        refine regular_cons.2 ⟨⟨hone, htwo⟩, @ih fuel _ (out ++ utf8Unit (buf k)) (by omega) hchar.2 ?_ ?_⟩
        . rw [List.length_append]
          omega
        . rw [h]
          simp only [List.append_assoc]

end Loop

section Terminated

variable (buf : LfnBuf) (fallback : BitVec 8)

theorem length_go_le {fuel k : Nat} {out : List (BitVec 8)} (hout : out.length ≤ fatLfnU8Buflen)
    : (lfnUcs2ToUtf8.go buf fallback fuel k out).length ≤ fatLfnU8Buflen := by
  induction fuel generalizing k out with
  | zero => exact hout
  | succ fuel ih =>
    change List.length (if _ < fatLfnU8Buflen then _ else _) ≤ _
    split
    . next hroom =>
      split
      . rw [List.length_append]
        exact hroom
      . next bytes _ heq =>
        rw [ucs2ToUtf8_eq] at heq
        split at heq
        . next hfits =>
          refine ih ?_
          rw [← Option.some.inj heq, List.length_append]
          omega
        . contradiction
      . refine ih ?_
        rw [List.length_append]
        exact hroom
    . exact hout

theorem unitsRead_go_le (fuel k n : Nat) : (lfnUcs2End.go buf fuel k n).1 ≤ k + fuel := by
  induction fuel generalizing k n with
  | zero => exact Nat.le_refl _
  | succ fuel ih =>
    have hnext : k + 1 + fuel = k + (fuel + 1) := by omega
    change Prod.fst (if _ < fatLfnU8Buflen then _ else _) ≤ _
    split
    . split
      . exact Nat.add_le_add_left (Nat.succ_le_succ (Nat.zero_le fuel)) k
      . rw [← hnext]
        exact ih _ _
      . rw [← hnext]
        exact ih _ _
    . exact Nat.le_add_right _ _

/--
There are less than `room` bytes for the units, or there would be with one byte instead of the last three.
-/
def HasRoom (room : Nat) (units : List (BitVec 16)) : Prop :=
  (units.flatMap unitBytes).length < room
    ∨ (units.flatMap unitBytes).length = room + 1
      ∧ ∃ u, units.getLast? = some u ∧ (unitBytes u).length = 3

theorem go_full {fuel k : Nat} {out : List (BitVec 8)} (hout : fatLfnU8Buflen ≤ out.length)
    : lfnUcs2ToUtf8.go buf fallback fuel k out = out := by
  cases fuel with
  | zero => rfl
  | succ fuel => exact if_neg (Nat.not_lt.mpr hout)

theorem go_fallback {k : Nat} {out : List (BitVec 8)} (fuel : Nat) (hroom : out.length < fatLfnU8Buflen)
    (h : fatLfnU8Buflen < out.length + (unitBytes (buf k)).length)
    : lfnUcs2ToUtf8.go buf fallback (fuel + 1) k out
        = lfnUcs2ToUtf8.go buf fallback fuel (k + 1) (out ++ [fallback])
        ∧ lfnUcs2End.go buf (fuel + 1) k out.length
          = lfnUcs2End.go buf fuel (k + 1) (out ++ [fallback]).length := by
  have hbytes : ucs2ToUtf8 (fatLfnU8Buflen - out.length) (buf k) = none := by
    rw [ucs2ToUtf8_eq, if_neg (by omega)]
  change (if _ < fatLfnU8Buflen then _ else _) = _ ∧ (if _ < fatLfnU8Buflen then _ else _) = _
  rw [if_pos hroom, if_pos hroom, hbytes, List.length_append]
  exact ⟨rfl, rfl⟩

theorem HasRoom.pos {room : Nat} {units : List (BitVec 16)} (h : HasRoom room units) : 0 < room := by
  cases h with
  | inl h => omega
  | inr h =>
    obtain ⟨htotal, u, hlast, hthree⟩ := h
    obtain ⟨front, hunits⟩ := List.getLast?_eq_some_iff.mp hlast
    rw [hunits, List.flatMap_append, List.flatMap_singleton, List.length_append] at htotal
    omega

theorem hasRoom_cons_of_le {room : Nat} {u : BitVec 16} {units : List (BitVec 16)}
    (h : (unitBytes u).length ≤ room)
    : HasRoom room (u :: units) ↔ HasRoom (room - (unitBytes u).length) units := by
  unfold HasRoom
  rw [List.flatMap_cons, List.length_append]
  cases units with
  | nil => simp; omega
  | cons v units =>
    rw [List.getLast?_cons_cons]
    constructor
    . intro h
      exact h.imp (fun h => by lia) fun h => ⟨by lia, h.2⟩
    . intro h
      exact h.imp (fun h => by lia) fun h => ⟨by lia, h.2⟩

/--
Two bytes are left for a unit with three, and behind the fallback there is one left for the terminator.
-/
theorem hasRoom_cons_of_lt {room : Nat} {u : BitVec 16} {units : List (BitVec 16)}
    (h : room < (unitBytes u).length) (hne : ∀ v ∈ units, unitBytes v ≠ [])
    : HasRoom room (u :: units) ↔ HasRoom (room - 1) units := by
  have hthree := length_unitBytes_le_three u
  unfold HasRoom
  rw [List.flatMap_cons, List.length_append]
  cases units with
  | nil =>
    simp
    lia
  | cons v units =>
    have hpos := List.length_pos_iff.mpr (hne v List.mem_cons_self)
    rw [List.getLast?_cons_cons, List.flatMap_cons, List.length_append]
    constructor
    . intro h
      cases h with
      | inl h => omega
      | inr h =>
        have htotal := h.1
        omega
    . intro h
      cases h with
      | inl h => lia
      | inr h =>
        obtain ⟨htotal, w, hlast, hw⟩ := h
        obtain ⟨front, hunits⟩ := List.getLast?_eq_some_iff.mp hlast
        have hle : (unitBytes w).length ≤ ((v :: units).flatMap unitBytes).length := by
          rw [hunits, List.flatMap_append, List.flatMap_singleton, List.length_append]
          omega
        rw [List.flatMap_cons, List.length_append] at hle
        lia

theorem zero_mem_go_iff (hfallback : fallback ≠ 0) {n fuel k : Nat} {out : List (BitVec 8)} (hfuel : n < fuel)
    (hout : out.length ≤ fatLfnU8Buflen) (hzero : 0 ∉ out)
    (hunits : ∀ u ∈ unitsFrom buf k n, ¬ IsEnd u) (hend : IsEnd (buf (k + n)))
    : (0 ∈ lfnUcs2ToUtf8.go buf fallback fuel k out
        ↔ HasRoom (fatLfnU8Buflen - out.length) (unitsFrom buf k n))
        ∧ (HasRoom (fatLfnU8Buflen - out.length) (unitsFrom buf k n) →
          (lfnUcs2End.go buf fuel k out.length).1 = k + n + 1) := by
  induction n generalizing fuel k out with
  | zero =>
    obtain ⟨fuel, rfl⟩ := Nat.exists_eq_succ_of_ne_zero (show fuel ≠ 0 by omega)
    by_cases hroom : out.length < fatLfnU8Buflen
    . rw [Nat.add_zero] at hend
      obtain ⟨hgo, hread⟩ := go_end buf fallback fuel hroom (unitBytes_of_isEnd hend)
      have hhas : HasRoom (fatLfnU8Buflen - out.length) (unitsFrom buf k 0) :=
        .inl (show 0 < _ by omega)
      rw [hgo, hread]
      exact ⟨⟨fun _ => hhas, fun _ => by simp⟩, fun _ => rfl⟩
    . rw [go_full buf fallback (by omega)]
      have hnot : ¬ HasRoom (fatLfnU8Buflen - out.length) (unitsFrom buf k 0) := by
        intro h
        have := h.pos
        omega
      exact ⟨⟨fun h => absurd h hzero, fun h => absurd h hnot⟩, fun h => absurd h hnot⟩
  | succ n ih =>
    obtain ⟨fuel, rfl⟩ := Nat.exists_eq_succ_of_ne_zero (show fuel ≠ 0 by omega)
    rw [unitsFrom_succ, List.forall_mem_cons] at hunits
    rw [unitsFrom_succ]
    have hend' : IsEnd (buf (k + 1 + n)) := by
      rwa [show k + (n + 1) = k + 1 + n by omega] at hend
    have hnext : k + (n + 1) + 1 = k + 1 + n + 1 := by omega
    have hne := unitBytes_ne_nil hunits.1
    by_cases hroom : out.length < fatLfnU8Buflen
    . by_cases hfits : out.length + (unitBytes (buf k)).length ≤ fatLfnU8Buflen
      . obtain ⟨hgo, hread⟩ := go_unit buf fallback fuel hne hfits
        rw [hgo, hread, hnext, hasRoom_cons_of_le (by omega), Nat.sub_sub, ← List.length_append]
        refine ih (by omega) (by rw [List.length_append]; exact hfits) ?_ hunits.2 hend'
        rw [List.mem_append]
        exact not_or.mpr ⟨hzero, zero_notMem_unitBytes _⟩
      . obtain ⟨hgo, hread⟩ := @go_fallback buf fallback k out fuel hroom (by omega)
        have hrest : ∀ v ∈ unitsFrom buf (k + 1) n, unitBytes v ≠ [] :=
          fun v hv => unitBytes_ne_nil (hunits.2 v hv)
        have hlength : out.length + 1 = (out ++ [fallback]).length := by
          rw [List.length_append, List.length_singleton]
        rw [hgo, hread, hnext, hasRoom_cons_of_lt (by lia) hrest, Nat.sub_sub, hlength]
        refine ih (by omega) (by rw [← hlength]; exact hroom) ?_ hunits.2 hend'
        rw [List.mem_append, List.mem_singleton]
        exact not_or.mpr ⟨hzero, hfallback.symm⟩
    . rw [go_full buf fallback (by omega)]
      have hnot : ¬ HasRoom (fatLfnU8Buflen - out.length) (buf k :: unitsFrom buf (k + 1) n) := by
        intro h
        have := h.pos
        omega
      exact ⟨⟨fun h => absurd h hzero, fun h => absurd h hnot⟩, fun h => absurd h hnot⟩

/--
A terminator is only written for a unit that ends the name.
-/
theorem exists_end_of_zero_mem (hfallback : fallback ≠ 0) {fuel k : Nat} {out : List (BitVec 8)}
    (hzero : 0 ∉ out) (h : 0 ∈ lfnUcs2ToUtf8.go buf fallback fuel k out)
    : ∃ n, n < fuel ∧ (∀ u ∈ unitsFrom buf k n, ¬ IsEnd u) ∧ IsEnd (buf (k + n)) := by
  induction fuel generalizing k out with
  | zero => exact absurd h hzero
  | succ fuel ih =>
    by_cases hend : IsEnd (buf k)
    . exact ⟨0, by omega, fun u hu => absurd hu List.not_mem_nil, hend⟩
    . have hne := unitBytes_ne_nil hend
      have hgo : ∃ bytes, 0 ∉ bytes ∧ 0 ∈ lfnUcs2ToUtf8.go buf fallback fuel (k + 1) (out ++ bytes) := by
        by_cases hroom : out.length < fatLfnU8Buflen
        . by_cases hfits : out.length + (unitBytes (buf k)).length ≤ fatLfnU8Buflen
          . rw [(go_unit buf fallback fuel hne hfits).1] at h
            exact ⟨_, zero_notMem_unitBytes _, h⟩
          . rw [(@go_fallback buf fallback k out fuel hroom (by omega)).1] at h
            exact ⟨_, by rw [List.mem_singleton]; exact hfallback.symm, h⟩
        . rw [go_full buf fallback (by omega)] at h
          exact absurd h hzero
      obtain ⟨bytes, hbytes, h⟩ := hgo
      obtain ⟨n, hn, hunits, hlast⟩ := ih (by rw [List.mem_append]; exact not_or.mpr ⟨hzero, hbytes⟩) h
      refine ⟨n + 1, by omega, ?_, ?_⟩
      . rw [unitsFrom_succ, List.forall_mem_cons]
        exact ⟨hend, hunits⟩
      . rwa [show k + (n + 1) = k + 1 + n by omega]

end Terminated

/--
The buffer has a name in it, which is ended by one of the two units for it.
-/
structure Holds (buf : LfnBuf) (units : List (BitVec 16)) : Prop where
  read : unitsFrom buf 0 units.length = units
  ended : IsEnd (buf units.length)
  characters : ∀ u ∈ units, IsCharacter u

/--
There is room for the standard encoding of a name and a terminator behind it.
-/
def Fits (units : List (BitVec 16)) : Prop := (utf8 units).length ≤ fatLfnU8Buflen - 1

/--
The standard encoding is written, and its length returned.
-/
def Converted (buf : LfnBuf) (fallback : BitVec 8) (units : List (BitVec 16)) : Prop :=
  lfnUcs2ToUtf8 buf fallback = utf8 units ++ [0]
    ∧ lfnUcs2BytesWritten buf = (utf8 units).length

section Name

variable {buf buf' : LfnBuf} {fallback : BitVec 8} {units units' : List (BitVec 16)}

theorem Holds.converted (h : Holds buf units) (hfits : Fits units) (hregular : Regular units)
    : Converted buf fallback units := by
  have hbytes := flatMap_unitBytes h.characters hregular
  have hlength := length_le_utf8 h.characters
  unfold Fits fatLfnU8Buflen at hfits
  have hfuel : fatLfnU8Buflen = 255 - units.length - 1 + 1 + units.length := by
    show 255 = _
    lia
  obtain ⟨hgo, hwritten⟩ := @go_units buf fallback 0 [] (255 - units.length - 1 + 1) units.length
    (by rw [h.read]; exact fun u hu => unitBytes_ne_nil (h.characters u hu).not_isEnd)
    (by rw [h.read, hbytes]; show 0 + _ ≤ 255; omega)
  rw [h.read, hbytes, List.nil_append, Nat.zero_add] at hgo hwritten
  obtain ⟨hend, hwritten'⟩ := @go_end buf fallback units.length (utf8 units) (255 - units.length - 1)
    (by show _ < 255; omega) (unitBytes_of_isEnd h.ended)
  constructor
  . unfold lfnUcs2ToUtf8
    rw [hfuel, hgo, hend]
  . unfold lfnUcs2BytesWritten lfnUcs2End
    rw [hfuel]
    exact congrArg Prod.snd (hwritten.trans hwritten')

theorem Holds.regular (h : Holds buf units) (hfits : Fits units)
    (htext : lfnUcs2ToUtf8 buf fallback = utf8 units ++ [0]) : Regular units := by
  have hlength := length_le_utf8 h.characters
  unfold Fits fatLfnU8Buflen at hfits
  have hregular := @regular_of_go buf fallback fatLfnU8Buflen 0 units.length []
    (by show _ ≤ 255; omega)
  rw [h.read] at hregular
  exact hregular h.characters (by show 0 + _ < 255; omega) htext

/--
Names of ASCII characters are their own encoding.
-/
theorem utf8_ascii (h : ∀ u ∈ units, u.toNat < 0x80) : utf8 units = units.map (·.setWidth 8) := by
  induction units with
  | nil => rfl
  | cons u units ih =>
    rw [List.forall_mem_cons] at h
    have hunit := utf8Unit_one (.inl (by omega)) (show u.toNat ≤ 0x7F by omega)
    have hcons : utf8 (u :: units) = utf8Unit u ++ utf8 units := List.flatMap_cons
    rw [hcons, hunit, ih h.2]
    rfl

/--
A name is converted to its standard encoding if and only if neither U+007F nor U+07FF is in it. Among such
names different ones get different strings, and ASCII ones are copied.
-/
theorem lfnUcs2ToUtf8_standard_iff (fallback : BitVec 8) (h : Holds buf units) (hfits : Fits units)
    : (Converted buf fallback units ↔ Regular units)
        ∧ (Regular units →
          (∀ buf' units', Holds buf' units' → Fits units' → Regular units' → units ≠ units' →
            lfnUcs2ToUtf8 buf fallback ≠ lfnUcs2ToUtf8 buf' fallback)
          ∧ ((∀ u ∈ units, u.toNat < 0x80) →
            lfnUcs2ToUtf8 buf fallback = units.map (·.setWidth 8) ++ [0])) := by
  refine ⟨⟨fun hconverted => h.regular hfits hconverted.1, h.converted hfits⟩, ?_⟩
  intro hregular
  have htext := (@Holds.converted _ fallback _ h hfits hregular).1
  constructor
  . intro buf' units' h' hfits' hregular' hne heq
    rw [htext, (h'.converted hfits' hregular').1, List.append_cancel_right_eq] at heq
    exact hne (utf8_injective (fun u hu => (h.characters u hu).2.2)
      (fun u hu => (h'.characters u hu).2.2) heq)
  . intro hascii
    rw [htext, utf8_ascii hascii]

end Name

/--
A buffer with a name in it and zeros behind it.
-/
def bufOf (units : List (BitVec 16)) : LfnBuf := fun k => units.getD k 0

instance (u : BitVec 16) : Decidable (IsCharacter u) :=
  inferInstanceAs (Decidable (u ≠ 0 ∧ u ≠ 0xFFFF ∧ u.toNat.isValidChar))

/--
The name "aé€" takes one, two and three bytes.
-/
theorem lfnUcs2ToUtf8_standard_iff_three
    : Holds (bufOf [0x61, 0xE9, 0x20AC]) [0x61, 0xE9, 0x20AC] ∧ Fits [0x61, 0xE9, 0x20AC]
        ∧ Converted (bufOf [0x61, 0xE9, 0x20AC]) 0x3F [0x61, 0xE9, 0x20AC] := by
  have hholds : Holds (bufOf [0x61, 0xE9, 0x20AC]) [0x61, 0xE9, 0x20AC] :=
    ⟨by decide, by decide, by
      rw [List.forall_mem_cons, List.forall_mem_cons, List.forall_mem_singleton]
      decide⟩
  have hfits : Fits [0x61, 0xE9, 0x20AC] := by
    unfold Fits
    decide
  exact ⟨hholds, hfits, (lfnUcs2ToUtf8_standard_iff 0x3F hholds hfits).1.mpr (by decide)⟩

/--
U+007F is ASCII, but two bytes are written for it.
-/
theorem lfnUcs2ToUtf8_standard_false
    : Holds (bufOf [0x7F]) [0x7F] ∧ Fits [0x7F]
        ∧ lfnUcs2ToUtf8 (bufOf [0x7F]) 0x3F = [0xC1, 0xBF, 0] ∧ lfnUcs2BytesWritten (bufOf [0x7F]) = 2
        ∧ utf8 [0x7F] = [0x7F] ∧ ¬ Converted (bufOf [0x7F]) 0x3F [0x7F] := by
  have hholds : Holds (bufOf [0x7F]) [0x7F] := ⟨by decide, by decide, by
    rw [List.forall_mem_singleton]
    decide⟩
  have hfits : Fits [0x7F] := by
    unfold Fits
    decide
  refine ⟨hholds, hfits, by decide, by decide, by decide, ?_⟩
  intro h
  exact absurd h.2 (by decide)

end LongName

end Emos.Boot
