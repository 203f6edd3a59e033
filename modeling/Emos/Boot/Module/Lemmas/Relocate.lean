import Emos.Boot.Module.Impl.Module
import Emos.Lib.Loop
import Mathlib.Data.List.Perm.Basic

/-!
This module contains which sections with relocations are applied as the ABI has it, in any order.
-/

open Lib

namespace Emos.Boot.Module

theorem load32_store32 (m : Bytes) (p v : BitVec 32) : load32 (store32 m p v) p = v := by
  have hv := v.isLt
  unfold load32 store32
  rw [Bytes.read_write_of_lt hv]
  simp

theorem store32_outside {m : Bytes} {p v : BitVec 32} {q : Nat} (h : q < p.toNat ∨ p.toNat + 4 ≤ q)
    : store32 m p v q = m q :=
  Bytes.write_outside h

theorem load32_congr {m m' : Bytes} {p : BitVec 32} (h : ∀ q, p.toNat ≤ q → q < p.toNat + 4 → m' q = m q)
    : load32 m' p = load32 m p := by
  unfold load32
  rw [Bytes.read_congr]
  intro i hi
  exact h (p.toNat + i) (by omega) (by omega)

section

variable (exported : ExportedSymbols) (elf : ElfFile) (gotSymbolOffset loadVaddr : BitVec 32)

/--
The address of the word that an entry is about.
-/
def Elf32Rel.place (e : Elf32Rel) : BitVec 32 := loadVaddr + e.offset

def Elf32Rel.Outside (e : Elf32Rel) (q : Nat) : Prop :=
  q < (e.place loadVaddr).toNat ∨ (e.place loadVaddr).toNat + 4 ≤ q

/--
The words of two entries have no byte in common.
-/
def Elf32Rel.Disjoint (e e' : Elf32Rel) : Prop :=
  (e.place loadVaddr).toNat + 4 ≤ (e'.place loadVaddr).toNat
    ∨ (e'.place loadVaddr).toNat + 4 ≤ (e.place loadVaddr).toNat

/--
The types for which the ABI has a value here.
-/
def Elf32Rel.IsAbi (e : Elf32Rel) : Prop :=
  e.type = r386_32 ∨ e.type = r386Pc32 ∨ e.type = r386GlobDat ∨ e.type = r386JmpSlot
    ∨ e.type = r386Relative ∨ e.type = r386Gotoff ∨ e.type = r386Gotpc

/--
The value that the ABI has for the word of an entry, where `s` is the address of its symbol and `a` is
what the word holds.
-/
def Elf32Rel.abiValue (e : Elf32Rel) (s a : BitVec 32) : BitVec 32 :=
  if e.type = r386_32 then s + a
  else if e.type = r386Pc32 then s + a - e.place loadVaddr
  else if e.type = r386GlobDat ∨ e.type = r386JmpSlot then s
  else if e.type = r386Relative then loadVaddr + a
  else if e.type = r386Gotoff then s + a - (loadVaddr + gotSymbolOffset)
  else loadVaddr + gotSymbolOffset + a - e.place loadVaddr

/--
The address of the symbol of an entry.
-/
def Elf32Rel.symbolAddr (e : Elf32Rel) : Except Status (BitVec 32) := do
  let sym ← elfGetSymbol elf e.symIdx
  resolveSymbolAddr exported elf sym loadVaddr

/--
Each word has the value of the ABI, other bytes are kept.
-/
structure Relocated (es : List Elf32Rel) (m m' : Bytes) : Prop where
  values : ∀ e ∈ es, ∃ s,
    (e.type = r386Relative ∨ e.type = r386Gotpc ∨ e.symbolAddr exported elf loadVaddr = .ok s)
      ∧ load32 m' (e.place loadVaddr)
        = e.abiValue gotSymbolOffset loadVaddr s (load32 m (e.place loadVaddr))
  others : ∀ q, (∀ e ∈ es, e.Outside loadVaddr q) → m' q = m q

/--
The file with other entries in one of its sections.
-/
def ElfFile.withRel (idx : Nat) (rel : List Elf32Rel) : ElfFile :=
  { elf with sections := elf.sections.modify idx fun sec => { sec with rel } }

/--
A section whose entries are of types that the ABI has a value for, and are about words apart.
-/
structure IsRelSection (idx : Nat) (sec : RelSection) : Prop where
  identClass : elf.identClass = elfclass32
  get : elf.sections[idx]? = some sec
  info : sec.info < elf.sections.length
  types : ∀ e ∈ sec.rel, e.IsAbi
  disjoint : sec.rel.Pairwise (Elf32Rel.Disjoint loadVaddr)

/--
The section is relocated as the ABI has it, in whatever order its entries are, and whatever memory and
the variables of the function hold before.
-/
def RelocatesSection (idx : Nat) (sec : RelSection) : Prop :=
  ∀ rel st, rel.Perm sec.rel
    → ∃ m', relocateSection exported (elf.withRel idx rel) gotSymbolOffset loadVaddr idx st = .ok ⟨.success, m'⟩
        ∧ Relocated exported elf gotSymbolOffset loadVaddr sec.rel st.mem m'

/--
The symbol of an entry is undefined, or the entry is relocated in the same way for defined symbols, or
its word has the right value already.
-/
def Elf32Rel.Applies (e : Elf32Rel) (sym : Elf32Sym) : Prop :=
  sym.IsUndef ∨ e.type = r386GlobDat ∨ e.type = r386JmpSlot
    ∨ e.type = r386Pc32 ∧ sym.value = e.offset
    ∨ e.type = r386Gotoff ∧ sym.value = gotSymbolOffset
    ∨ e.type = r386Gotpc ∧ e.offset = gotSymbolOffset

/--
The entries that are relocated as the ABI has it.
-/
def Elf32Rel.Good (e : Elf32Rel) : Prop :=
  e.type = r386Relative
    ∨ e.type ≠ r386_32 ∧ ∃ sym s, elfGetSymbol elf e.symIdx = .ok sym
        ∧ resolveSymbolAddr exported elf sym loadVaddr = .ok s ∧ e.Applies gotSymbolOffset sym

variable {exported elf gotSymbolOffset loadVaddr} {e : Elf32Rel} {es : List Elf32Rel} {st st' : RelocState}

theorem relocSymbol_mem (h : relocSymbol exported elf loadVaddr e st = .ok st') : st'.mem = st.mem := by
  unfold relocSymbol at h
  split at h
  next =>
    rw [bind_eq_ok] at h
    obtain ⟨sym, _, h⟩ := h
    rw [bind_eq_ok] at h
    obtain ⟨s, _, h⟩ := h
    cases h
    rfl
  next =>
    cases h
    rfl

theorem relocStore_32 (h : e.type = r386_32)
    : relocStore gotSymbolOffset loadVaddr e st
        =
      .ok (store32 st.mem (e.place loadVaddr)
        ((if st.sym.IsUndef then loadVaddr else st.s) + load32 st.mem (e.place loadVaddr))) := by
  unfold relocStore
  rw [if_neg (by rw [h]; decide), if_pos h]
  split <;> rfl

theorem relocStore_pc32 (h : e.type = r386Pc32)
    : relocStore gotSymbolOffset loadVaddr e st
        =
      .ok (if st.sym.IsUndef then
        store32 st.mem (e.place loadVaddr)
          (st.s + load32 st.mem (e.place loadVaddr) - e.place loadVaddr)
      else
        st.mem) := by
  unfold relocStore
  rw [if_neg (by rw [h]; decide), if_neg (by rw [h]; decide), if_pos h]
  split <;> rfl

theorem relocStore_slot (h : e.type = r386GlobDat ∨ e.type = r386JmpSlot)
    : relocStore gotSymbolOffset loadVaddr e st
        =
      .ok (store32 st.mem (e.place loadVaddr) st.s) := by
  obtain h | h := h <;> simp [relocStore, h, r386None, r386_32, r386Pc32, r386Got32, r386Got32x,
    r386GlobDat, r386JmpSlot, Elf32Rel.place]

theorem relocStore_relative (h : e.type = r386Relative)
    : relocStore gotSymbolOffset loadVaddr e st
        =
      .ok (store32 st.mem (e.place loadVaddr) (loadVaddr + load32 st.mem (e.place loadVaddr))) := by
  simp [relocStore, h, r386None, r386_32, r386Pc32, r386Got32, r386Got32x, r386GlobDat, r386JmpSlot,
    r386Relative, Elf32Rel.place]

theorem relocStore_gotoff (h : e.type = r386Gotoff)
    : relocStore gotSymbolOffset loadVaddr e st
        =
      .ok (if st.sym.IsUndef then
        store32 st.mem (e.place loadVaddr)
          (st.s + load32 st.mem (e.place loadVaddr) - (loadVaddr + gotSymbolOffset))
      else
        st.mem) := by
  simp only [relocStore, h, r386None, r386_32, r386Pc32, r386Got32, r386Got32x, r386GlobDat, r386JmpSlot,
    r386Relative, r386Gotoff, Elf32Rel.place, Nat.reduceEqDiff, OfNat.ofNat_ne_zero, or_self, ↓reduceIte]
  split <;> rfl

theorem relocStore_gotpc (h : e.type = r386Gotpc)
    : relocStore gotSymbolOffset loadVaddr e st
        =
      .ok (if st.sym.IsUndef then
        store32 st.mem (e.place loadVaddr)
          (loadVaddr + gotSymbolOffset + load32 st.mem (e.place loadVaddr) - e.place loadVaddr)
      else
        st.mem) := by
  simp only [relocStore, h, r386None, r386_32, r386Pc32, r386Got32, r386Got32x, r386GlobDat, r386JmpSlot,
    r386Relative, r386Gotoff, r386Gotpc, Elf32Rel.place, Nat.reduceEqDiff, OfNat.ofNat_ne_zero, or_self,
    ↓reduceIte]
  split <;> rfl

/--
An entry stores at most to its own word.
-/
theorem exists_relocStore (habi : e.IsAbi) (st : RelocState)
    : relocStore gotSymbolOffset loadVaddr e st = .ok st.mem
        ∨ ∃ v, relocStore gotSymbolOffset loadVaddr e st = .ok (store32 st.mem (e.place loadVaddr) v) := by
  obtain h | h | h | h | h | h | h := habi
  . rw [relocStore_32 h]
    exact .inr ⟨_, rfl⟩
  . rw [relocStore_pc32 h]
    split
    . exact .inr ⟨_, rfl⟩
    . exact .inl rfl
  . rw [relocStore_slot (.inl h)]
    exact .inr ⟨_, rfl⟩
  . rw [relocStore_slot (.inr h)]
    exact .inr ⟨_, rfl⟩
  . rw [relocStore_relative h]
    exact .inr ⟨_, rfl⟩
  . rw [relocStore_gotoff h]
    split
    . exact .inr ⟨_, rfl⟩
    . exact .inl rfl
  . rw [relocStore_gotpc h]
    split
    . exact .inr ⟨_, rfl⟩
    . exact .inl rfl

theorem relocStore_outside (habi : e.IsAbi) {m' : Bytes}
    (h : relocStore gotSymbolOffset loadVaddr e st = .ok m') {q : Nat} (hq : e.Outside loadVaddr q)
    : m' q = st.mem q := by
  obtain hkept | ⟨v, hstore⟩ := exists_relocStore habi st
  . rw [h] at hkept
    cases hkept
    rfl
  . rw [h] at hstore
    cases hstore
    exact store32_outside hq

theorem relocateEntries_outside (habi : ∀ e ∈ es, e.IsAbi) {status : Status} {m' : Bytes}
    (h : relocateEntries exported elf gotSymbolOffset loadVaddr es st = .ok ⟨status, m'⟩) {q : Nat}
    (hq : ∀ e ∈ es, e.Outside loadVaddr q)
    : m' q = st.mem q := by
  induction es generalizing st with
  | nil =>
    cases h
    rfl
  | cons e es ih =>
    rw [relocateEntries] at h
    cases hsymbol : relocSymbol exported elf loadVaddr e st with
    | error status' =>
      rw [hsymbol] at h
      cases h
      rfl
    | ok st1 =>
      rw [hsymbol] at h
      dsimp only at h
      rw [bind_eq_ok] at h
      obtain ⟨m1, hstore, h⟩ := h
      rw [ih (fun a ha => habi a (List.mem_cons_of_mem e ha)) h
        (fun a ha => hq a (List.mem_cons_of_mem e ha))]
      dsimp only
      rw [relocStore_outside (habi e List.mem_cons_self) hstore (hq e List.mem_cons_self),
        relocSymbol_mem hsymbol]

theorem relocSymbol_eq (hrelative : e.type ≠ r386Relative) (h32 : e.type ≠ r386_32) {sym : Elf32Sym}
    {s : BitVec 32} (hsym : elfGetSymbol elf e.symIdx = .ok sym)
    (hs : resolveSymbolAddr exported elf sym loadVaddr = .ok s)
    : relocSymbol exported elf loadVaddr e st = .ok ⟨st.mem, sym, s⟩ := by
  unfold relocSymbol
  rw [if_pos ⟨hrelative, h32⟩, hsym]
  simp only [bind, Except.bind, hs]

theorem resolveSymbolAddr_defined {sym : Elf32Sym} (h : ¬ sym.IsUndef)
    : resolveSymbolAddr exported elf sym loadVaddr = .ok (loadVaddr + sym.value) := by
  unfold resolveSymbolAddr
  rw [if_pos h]

section AbiValue

variable (s a : BitVec 32)

theorem abiValue_32 (h : e.type = r386_32) : e.abiValue gotSymbolOffset loadVaddr s a = s + a := by
  unfold Elf32Rel.abiValue
  rw [if_pos h]

theorem abiValue_pc32 (h : e.type = r386Pc32)
    : e.abiValue gotSymbolOffset loadVaddr s a = s + a - e.place loadVaddr := by
  unfold Elf32Rel.abiValue
  rw [if_neg (by rw [h]; decide), if_pos h]

theorem abiValue_slot (h : e.type = r386GlobDat ∨ e.type = r386JmpSlot)
    : e.abiValue gotSymbolOffset loadVaddr s a = s := by
  unfold Elf32Rel.abiValue
  obtain h | h := h <;> simp [h, r386_32, r386Pc32, r386GlobDat, r386JmpSlot]

theorem abiValue_relative (h : e.type = r386Relative)
    : e.abiValue gotSymbolOffset loadVaddr s a = loadVaddr + a := by
  unfold Elf32Rel.abiValue
  simp [h, r386_32, r386Pc32, r386GlobDat, r386JmpSlot, r386Relative]

theorem abiValue_gotoff (h : e.type = r386Gotoff)
    : e.abiValue gotSymbolOffset loadVaddr s a = s + a - (loadVaddr + gotSymbolOffset) := by
  unfold Elf32Rel.abiValue
  simp [h, r386_32, r386Pc32, r386GlobDat, r386JmpSlot, r386Relative, r386Gotoff]

theorem abiValue_gotpc (h : e.type = r386Gotpc)
    : e.abiValue gotSymbolOffset loadVaddr s a
        =
      loadVaddr + gotSymbolOffset + a - e.place loadVaddr := by
  unfold Elf32Rel.abiValue
  simp [h, r386_32, r386Pc32, r386GlobDat, r386JmpSlot, r386Relative, r386Gotoff, r386Gotpc]

end AbiValue

theorem symbolAddr_eq {sym : Elf32Sym} (hsym : elfGetSymbol elf e.symIdx = .ok sym)
    : e.symbolAddr exported elf loadVaddr = resolveSymbolAddr exported elf sym loadVaddr := by
  unfold Elf32Rel.symbolAddr
  rw [hsym]
  rfl

/--
What a relative place gets is what the ABI has only if the distance does not change.
-/
theorem addend_iff (x b s p : BitVec 32) : x = b + s + x - (b + p) ↔ s = p := by
  have hsub : b + s + x - (b + p) = x + (s - p) := by grind
  rw [hsub]
  constructor
  . intro h
    have hzero : s - p = 0#32 := by
      rw [← BitVec.add_right_inj x, BitVec.add_zero]
      exact h.symm
    rw [BitVec.sub_eq_iff_eq_add] at hzero
    rw [hzero]
    exact BitVec.zero_add p
  . rintro rfl
    rw [BitVec.sub_self]
    exact (BitVec.add_zero x).symm

theorem exists_relocStore_value (gotSymbolOffset : BitVec 32) (habi : e.IsAbi) (hrelative : e.type ≠ r386Relative)
    (h32 : e.type ≠ r386_32) (m : Bytes) {sym : Elf32Sym} {s : BitVec 32}
    (hs : resolveSymbolAddr exported elf sym loadVaddr = .ok s)
    : ∃ m', relocStore gotSymbolOffset loadVaddr e ⟨m, sym, s⟩ = .ok m'
        ∧ (load32 m' (e.place loadVaddr)
              = e.abiValue gotSymbolOffset loadVaddr s (load32 m (e.place loadVaddr))
            ↔ e.Applies gotSymbolOffset sym) := by
  have hdefined : ¬ sym.IsUndef → s = loadVaddr + sym.value := by
    intro hnot
    rw [resolveSymbolAddr_defined hnot] at hs
    exact (Except.ok.inj hs).symm
  have hundef : sym.IsUndef → e.Applies gotSymbolOffset sym := fun h => .inl h
  obtain h | h | h | h | h | h | h := habi
  . exact absurd h h32
  . refine ⟨_, relocStore_pc32 h, ?_⟩
    rw [abiValue_pc32 _ _ h]
    dsimp only
    split
    next hsym => simp [load32_store32, hundef hsym]
    next hsym =>
      have happlies : e.Applies gotSymbolOffset sym ↔ sym.value = e.offset := by
        simp [Elf32Rel.Applies, hsym, h, r386Pc32, r386GlobDat, r386JmpSlot, r386Gotoff, r386Gotpc]
      rw [happlies, hdefined hsym, Elf32Rel.place]
      exact addend_iff ..
  . refine ⟨_, relocStore_slot (.inl h), ?_⟩
    rw [abiValue_slot _ _ (.inl h), load32_store32]
    exact iff_of_true rfl (.inr (.inl h))
  . refine ⟨_, relocStore_slot (.inr h), ?_⟩
    rw [abiValue_slot _ _ (.inr h), load32_store32]
    exact iff_of_true rfl (.inr (.inr (.inl h)))
  . exact absurd h hrelative
  . refine ⟨_, relocStore_gotoff h, ?_⟩
    rw [abiValue_gotoff _ _ h]
    dsimp only
    split
    next hsym => simp [load32_store32, hundef hsym]
    next hsym =>
      have happlies : e.Applies gotSymbolOffset sym ↔ sym.value = gotSymbolOffset := by
        simp [Elf32Rel.Applies, hsym, h, r386Pc32, r386GlobDat, r386JmpSlot, r386Gotoff, r386Gotpc]
      rw [happlies, hdefined hsym]
      exact addend_iff ..
  . refine ⟨_, relocStore_gotpc h, ?_⟩
    rw [abiValue_gotpc _ _ h]
    dsimp only
    split
    next hsym => simp [load32_store32, hundef hsym]
    next hsym =>
      have happlies : e.Applies gotSymbolOffset sym ↔ e.offset = gotSymbolOffset := by
        simp [Elf32Rel.Applies, hsym, h, r386Pc32, r386GlobDat, r386JmpSlot, r386Gotoff, r386Gotpc]
      rw [happlies, Elf32Rel.place, eq_comm (a := e.offset)]
      exact addend_iff ..

/--
What one round does for an entry that is relocated as the ABI has it.
-/
theorem Elf32Rel.Good.round (hgood : e.Good exported elf gotSymbolOffset loadVaddr) (habi : e.IsAbi)
    (st : RelocState)
    : ∃ st1 m1 s, relocSymbol exported elf loadVaddr e st = .ok st1
        ∧ relocStore gotSymbolOffset loadVaddr e st1 = .ok m1
        ∧ (e.type = r386Relative ∨ e.type = r386Gotpc ∨ e.symbolAddr exported elf loadVaddr = .ok s)
        ∧ load32 m1 (e.place loadVaddr)
          = e.abiValue gotSymbolOffset loadVaddr s (load32 st.mem (e.place loadVaddr)) := by
  by_cases hrelative : e.type = r386Relative
  . refine ⟨st, _, 0, ?_, relocStore_relative hrelative, .inl hrelative, ?_⟩
    . unfold relocSymbol
      rw [if_neg (by simp [hrelative])]
    . rw [load32_store32, abiValue_relative 0 _ hrelative]
  . obtain ⟨h32, sym, s, hsym, hs, happlies⟩ := hgood.resolve_left hrelative
    obtain ⟨m1, hstore, hvalue⟩ := exists_relocStore_value gotSymbolOffset habi hrelative
      h32 st.mem hs
    refine ⟨_, m1, s, relocSymbol_eq hrelative h32 hsym hs, hstore, ?_, hvalue.mpr happlies⟩
    rw [symbolAddr_eq hsym]
    exact .inr (.inr hs)

theorem outside_of_disjoint {e e' : Elf32Rel} (h : e.Disjoint loadVaddr e') {q : Nat}
    (hlow : (e.place loadVaddr).toNat ≤ q) (hhigh : q < (e.place loadVaddr).toNat + 4)
    : e'.Outside loadVaddr q := by
  unfold Elf32Rel.Disjoint at h
  unfold Elf32Rel.Outside
  lia

theorem disjoint_symm {e e' : Elf32Rel} (h : e.Disjoint loadVaddr e') : e'.Disjoint loadVaddr e :=
  Or.symm h

/--
The entries of the loop are relocated as the ABI has it.
-/
theorem exists_relocateEntries (habi : ∀ e ∈ es, e.IsAbi)
    (hdisjoint : es.Pairwise (Elf32Rel.Disjoint loadVaddr))
    (hgood : ∀ e ∈ es, e.Good exported elf gotSymbolOffset loadVaddr) (st : RelocState)
    : ∃ m', relocateEntries exported elf gotSymbolOffset loadVaddr es st = .ok ⟨.success, m'⟩
        ∧ Relocated exported elf gotSymbolOffset loadVaddr es st.mem m' := by
  induction es generalizing st with
  | nil =>
    refine ⟨st.mem, rfl, ⟨?_, fun _ _ => rfl⟩⟩
    intro e he
    cases he
  | cons e es ih =>
    rw [List.pairwise_cons] at hdisjoint
    have habi' : ∀ a ∈ es, a.IsAbi := fun a ha => habi a (List.mem_cons_of_mem e ha)
    have hfirst := habi e List.mem_cons_self
    obtain ⟨st1, m1, s, hsymbol, hstore, haddr, hvalue⟩ := (hgood e List.mem_cons_self).round hfirst st
    obtain ⟨m', hrest, hrelocated⟩ := ih habi' hdisjoint.2 (fun a ha => hgood a (List.mem_cons_of_mem e ha))
      { st1 with mem := m1 }
    have hm1 : ∀ q, e.Outside loadVaddr q → m1 q = st.mem q := by
      intro q hq
      rw [relocStore_outside hfirst hstore hq, relocSymbol_mem hsymbol]
    refine ⟨m', ?_, ⟨?_, ?_⟩⟩
    . rw [relocateEntries, hsymbol]
      simp only [bind, Except.bind, hstore]
      exact hrest
    . intro a ha
      cases List.mem_cons.mp ha with
      | inl heq =>
        subst heq
        refine ⟨s, haddr, ?_⟩
        rw [← hvalue]
        apply load32_congr
        intro q hlow hhigh
        apply hrelocated.others
        intro b hb
        exact outside_of_disjoint (hdisjoint.1 b hb) hlow hhigh
      | inr hmem =>
        obtain ⟨s', haddr', hvalue'⟩ := hrelocated.values a hmem
        refine ⟨s', haddr', ?_⟩
        rw [hvalue']
        have hsame : load32 m1 (a.place loadVaddr) = load32 st.mem (a.place loadVaddr) := by
          apply load32_congr
          intro q hlow hhigh
          exact hm1 q (outside_of_disjoint (disjoint_symm (hdisjoint.1 a hmem)) hlow hhigh)
        rw [hsame]
    . intro q hq
      rw [hrelocated.others q (fun a ha => hq a (List.mem_cons_of_mem e ha))]
      exact hm1 q (hq e List.mem_cons_self)

theorem relocateEntries_withRel (idx : Nat) (rel : List Elf32Rel) (st : RelocState)
    : relocateEntries exported (elf.withRel idx rel) gotSymbolOffset loadVaddr es st
        =
      relocateEntries exported elf gotSymbolOffset loadVaddr es st := by
  induction es generalizing st with
  | nil => rfl
  | cons e es ih =>
    have hsymbol : relocSymbol exported (elf.withRel idx rel) loadVaddr e st
        = relocSymbol exported elf loadVaddr e st := rfl
    rw [relocateEntries, relocateEntries, hsymbol]
    simp only [ih]

theorem IsRelSection.relocateSection_eq {idx : Nat} {sec : RelSection} (h : IsRelSection elf loadVaddr idx sec)
    (rel : List Elf32Rel) (st : RelocState)
    : relocateSection exported (elf.withRel idx rel) gotSymbolOffset loadVaddr idx st
        =
      relocateEntries exported elf gotSymbolOffset loadVaddr rel st := by
  have hget : elfGetSectionHeader (elf.withRel idx rel) idx = .ok { sec with rel } := by
    unfold elfGetSectionHeader ElfFile.withRel
    simp [h.identClass, h.get]
  have hinfo : ∃ target, elfGetSectionHeader (elf.withRel idx rel) sec.info = .ok target := by
    have hlt : sec.info < (elf.withRel idx rel).sections.length := by
      unfold ElfFile.withRel
      simp [h.info]
    unfold elfGetSectionHeader
    rw [if_neg (by simp [ElfFile.withRel, h.identClass]), List.getElem?_eq_getElem hlt]
    exact ⟨_, rfl⟩
  obtain ⟨target, htarget⟩ := hinfo
  unfold relocateSection
  simp only [hget, htarget]
  exact relocateEntries_withRel idx rel st

theorem elfGetSymbol_error {index : Nat} {status : Status} (h : elfGetSymbol elf index = .error status)
    : status ≠ .success := by
  unfold elfGetSymbol at h
  split at h
  next =>
    cases h
    decide
  next =>
    split at h
    next =>
      cases h
      decide
    next => cases h

theorem resolveSymbolAddr_error {sym : Elf32Sym} {status : Status}
    (h : resolveSymbolAddr exported elf sym loadVaddr = .error status)
    : status ≠ .success := by
  unfold resolveSymbolAddr moduleFindEbootSymbol at h
  split at h
  next => cases h
  next =>
    split at h
    next =>
      cases h
      decide
    next => cases h

theorem relocSymbol_error {status : Status} (h : relocSymbol exported elf loadVaddr e st = .error status)
    : status ≠ .success := by
  unfold relocSymbol at h
  split at h
  next =>
    cases hsym : elfGetSymbol elf e.symIdx with
    | error status' =>
      rw [hsym] at h
      cases h
      exact elfGetSymbol_error hsym
    | ok sym =>
      cases hs : resolveSymbolAddr exported elf sym loadVaddr with
      | error status' =>
        simp only [hsym, hs, bind, Except.bind] at h
        cases h
        exact resolveSymbolAddr_error hs
      | ok s =>
        simp only [hsym, hs, bind, Except.bind] at h
        cases h
  next => cases h

/--
Only the round of an entry changes its word.
-/
theorem exists_first_round {m' : Bytes} (habi : ∀ a ∈ e :: es, a.IsAbi)
    (hdisjoint : (e :: es).Pairwise (Elf32Rel.Disjoint loadVaddr))
    (h : relocateEntries exported elf gotSymbolOffset loadVaddr (e :: es) st = .ok ⟨.success, m'⟩)
    : ∃ st1 m1, relocSymbol exported elf loadVaddr e st = .ok st1
        ∧ relocStore gotSymbolOffset loadVaddr e st1 = .ok m1
        ∧ load32 m' (e.place loadVaddr) = load32 m1 (e.place loadVaddr) := by
  rw [relocateEntries] at h
  cases hsymbol : relocSymbol exported elf loadVaddr e st with
  | error status =>
    rw [hsymbol] at h
    cases h
    exact absurd rfl (relocSymbol_error hsymbol)
  | ok st1 =>
    rw [hsymbol] at h
    dsimp only at h
    rw [bind_eq_ok] at h
    obtain ⟨m1, hstore, h⟩ := h
    refine ⟨st1, m1, rfl, hstore, ?_⟩
    apply load32_congr
    intro q hlow hhigh
    apply relocateEntries_outside (fun a ha => habi a (List.mem_cons_of_mem e ha)) h
    intro a ha
    exact outside_of_disjoint (List.rel_of_pairwise_cons hdisjoint ha) hlow hhigh

theorem IsRelSection.good_of_relocates {idx : Nat} {sec : RelSection} (h : IsRelSection elf loadVaddr idx sec)
    (hrelocates : RelocatesSection exported elf gotSymbolOffset loadVaddr idx sec) (he : e ∈ sec.rel)
    : e.Good exported elf gotSymbolOffset loadVaddr := by
  have hperm : (e :: sec.rel.erase e).Perm sec.rel := (List.perm_cons_erase he).symm
  have habi : ∀ a ∈ e :: sec.rel.erase e, a.IsAbi := fun a ha => h.types a (hperm.subset ha)
  have hdisjoint : (e :: sec.rel.erase e).Pairwise (Elf32Rel.Disjoint loadVaddr) :=
    hperm.symm.pairwise h.disjoint disjoint_symm
  -- the entry is the first one, and the variables hold what is left of earlier calls
  have hfirst : ∀ st, ∃ st1 m1 s, relocSymbol exported elf loadVaddr e st = .ok st1
      ∧ relocStore gotSymbolOffset loadVaddr e st1 = .ok m1
      ∧ (e.type = r386Relative ∨ e.type = r386Gotpc ∨ e.symbolAddr exported elf loadVaddr = .ok s)
      ∧ load32 m1 (e.place loadVaddr)
        = e.abiValue gotSymbolOffset loadVaddr s (load32 st.mem (e.place loadVaddr)) := by
    intro st
    obtain ⟨m', hrun, hrelocated⟩ := hrelocates _ st hperm
    rw [h.relocateSection_eq] at hrun
    obtain ⟨st1, m1, hsymbol, hstore, hload⟩ := exists_first_round habi hdisjoint hrun
    obtain ⟨s, haddr, hvalue⟩ := hrelocated.values e he
    exact ⟨st1, m1, s, hsymbol, hstore, haddr, by rw [← hload, hvalue]⟩
  by_cases hrelative : e.type = r386Relative
  . exact .inl hrelative
  . right
    by_cases h32 : e.type = r386_32
    . exfalso
      -- a symbol that is defined, at an address that is not the one of the entry's symbol
      let own : BitVec 32 := match e.symbolAddr exported elf loadVaddr with
        | .ok s => s
        | .error _ => 0
      obtain ⟨st1, m1, s, hsymbol, hstore, haddr, hvalue⟩ := hfirst ⟨fun _ => 0, ⟨0, 0, 1⟩, own + 1⟩
      have hown : own = s := by
        obtain haddr | haddr | haddr := haddr
        . exact absurd haddr hrelative
        . rw [h32] at haddr
          exact absurd haddr (by decide)
        . simp only [own, haddr]
      unfold relocSymbol at hsymbol
      rw [if_neg (by simp [h32])] at hsymbol
      cases hsymbol
      have hdefined : ¬ (⟨0, 0, 1⟩ : Elf32Sym).IsUndef := by decide
      rw [relocStore_32 h32, if_neg hdefined] at hstore
      cases hstore
      rw [load32_store32, abiValue_32 _ _ h32, hown] at hvalue
      bv_omega
    . refine ⟨h32, ?_⟩
      obtain ⟨st1, m1, s, hsymbol, hstore, haddr, hvalue⟩ := hfirst ⟨fun _ => 0, ⟨0, 0, 0⟩, 0⟩
      unfold relocSymbol at hsymbol
      rw [if_pos ⟨hrelative, h32⟩, bind_eq_ok] at hsymbol
      obtain ⟨sym, hsym, hsymbol⟩ := hsymbol
      rw [bind_eq_ok] at hsymbol
      obtain ⟨s', hs', hsymbol⟩ := hsymbol
      cases hsymbol
      refine ⟨sym, s', hsym, hs', ?_⟩
      obtain ⟨m2, hstore', hvalue'⟩ := exists_relocStore_value gotSymbolOffset
        (habi e List.mem_cons_self) hrelative h32 (fun _ => 0) hs'
      rw [hstore'] at hstore
      cases hstore
      apply hvalue'.mp
      rw [hvalue]
      obtain haddr | haddr | haddr := haddr
      . exact absurd haddr hrelative
      . rw [abiValue_gotpc _ _ haddr, abiValue_gotpc _ _ haddr]
      . rw [symbolAddr_eq hsym, hs'] at haddr
        cases haddr
        rfl

end

/--
A section is relocated as the ABI has it, in whatever order its entries are, if and only if this is so
for each of its entries: the variables for the symbol are not set for `R_386_32`, and nothing is stored
for some types if the symbol is defined.
-/
theorem relocate_section_iff (exported : ExportedSymbols) (elf : ElfFile)
    (gotSymbolOffset loadVaddr : BitVec 32) (idx : Nat) (sec : RelSection)
    (h : IsRelSection elf loadVaddr idx sec)
    : RelocatesSection exported elf gotSymbolOffset loadVaddr idx sec
        ↔
      ∀ e ∈ sec.rel, e.Good exported elf gotSymbolOffset loadVaddr := by
  constructor
  . intro hrelocates e he
    exact h.good_of_relocates hrelocates he
  . intro hgood rel st hperm
    rw [h.relocateSection_eq]
    obtain ⟨m', hrun, hrelocated⟩ := exists_relocateEntries (fun e he => h.types e (hperm.subset he))
      (hperm.symm.pairwise h.disjoint disjoint_symm) (fun e he => hgood e (hperm.subset he)) st
    refine ⟨m', hrun, ⟨?_, ?_⟩⟩
    . intro e he
      exact hrelocated.values e (hperm.symm.subset he)
    . intro q hq
      apply hrelocated.others
      intro e he
      exact hq e (hperm.subset he)

/--
A file with the null symbol, a symbol that is defined and one that is not.
-/
def threeSymbolFile (rel : List Elf32Rel) : ElfFile where
  identClass := elfclass32
  sections := [⟨0, rel⟩]
  symtab := [⟨0, 0, 0⟩, ⟨1, 0x20, 1⟩, ⟨2, 0, 0⟩]
  strtab name := [BitVec.ofNat 8 name.toNat]

def oneExported : ExportedSymbols := [⟨[2], 0x100000⟩]

theorem relocate_section_iff_threeSymbolFile
    : IsRelSection (threeSymbolFile [⟨0x10, 0x206⟩, ⟨0x14, 8⟩]) 0x400000 0 ⟨0, [⟨0x10, 0x206⟩, ⟨0x14, 8⟩]⟩
        ∧ RelocatesSection oneExported (threeSymbolFile [⟨0x10, 0x206⟩, ⟨0x14, 8⟩]) 0x80 0x400000 0
          ⟨0, [⟨0x10, 0x206⟩, ⟨0x14, 8⟩]⟩ := by
  have h : IsRelSection (threeSymbolFile [⟨0x10, 0x206⟩, ⟨0x14, 8⟩]) 0x400000 0 ⟨0, [⟨0x10, 0x206⟩, ⟨0x14, 8⟩]⟩ := by
    refine ⟨rfl, rfl, by decide, ?_, ?_⟩
    . unfold Elf32Rel.IsAbi
      decide
    . unfold Elf32Rel.Disjoint
      decide
  refine ⟨h, (relocate_section_iff oneExported _ 0x80 0x400000 0 _ h).mpr ?_⟩
  intro e he
  rw [List.mem_cons, List.mem_singleton] at he
  obtain rfl | rfl := he
  . exact .inr ⟨by decide, ⟨2, 0, 0⟩, 0x100000, rfl, rfl, .inl rfl⟩
  . exact .inl rfl

/--
A relocation of type `R_386_32` by a symbol that is defined.
-/
theorem absolute_not_relocated
    : IsRelSection (threeSymbolFile [⟨0x10, 0x101⟩]) 0x400000 0 ⟨0, [⟨0x10, 0x101⟩]⟩
        ∧ ¬ RelocatesSection oneExported (threeSymbolFile [⟨0x10, 0x101⟩]) 0x80 0x400000 0 ⟨0, [⟨0x10, 0x101⟩]⟩ := by
  have h : IsRelSection (threeSymbolFile [⟨0x10, 0x101⟩]) 0x400000 0 ⟨0, [⟨0x10, 0x101⟩]⟩ := by
    refine ⟨rfl, rfl, by decide, ?_, ?_⟩
    . unfold Elf32Rel.IsAbi
      decide
    . unfold Elf32Rel.Disjoint
      decide
  refine ⟨h, ?_⟩
  intro hrelocates
  obtain hrelative | ⟨h32, -⟩ := h.good_of_relocates hrelocates List.mem_cons_self
  . exact absurd hrelative (by decide)
  . exact h32 rfl

end Emos.Boot.Module
