import Emos.Boot.Bootemos.Lemmas.Entry

/-!
This module contains what is behind the header of each entry that the command fills.
-/

open Lib

namespace Emos.Boot

variable {m m' : Bytes} {p q n c c' : Nat}

/--
The field at `p` is the offset of `s` in a string table of `c` bytes.
-/
def StringAt (m : Bytes) (p c : Nat) (s : CString) : Prop :=
  m.read p 4 + (s.strlen + 1) ≤ c
    ∧ m.getString (TableHeader.strtab + m.read p 4) (s.strlen + 1) = some s.bytes

theorem StringAt.eqOn {s : CString} (h : StringAt m p c s) (hfield : Set.EqOn m' m (Set.Ico p (p + 4)))
    (hstrtab : Set.EqOn m' m (Set.Iio (TableHeader.strtab + c)))
    : StringAt m' p c s := by
  obtain ⟨hle, hstring⟩ := h
  unfold StringAt
  rw [Bytes.read_eqOn hfield]
  constructor
  . exact hle
  . apply Bytes.getString_eqOn hstring
    apply hstrtab.mono
    intro q hq
    have := hq.2
    unfold CString.strlen at hle
    rw [Set.mem_Iio]
    omega

theorem StringAt.mono {s : CString} (h : StringAt m p c s) (hle : c ≤ c') : StringAt m p c' s :=
  ⟨Nat.le_trans h.1 hle, h.2⟩

theorem stringAt_write (s : CString) (hc : c + (s.strlen + 1) < 2 ^ 32)
    (hp : TableHeader.strtab + (c + (s.strlen + 1)) ≤ p)
    : StringAt ((m.putString (TableHeader.strtab + c) s.bytes).write p 4 c) p (c + (s.strlen + 1)) s := by
  have hread : ((m.putString (TableHeader.strtab + c) s.bytes).write p 4 c).read p 4 = c := by
    apply Bytes.read_write_of_lt
    omega
  unfold StringAt
  rw [hread]
  constructor
  . omega
  . apply Bytes.getString_eqOn (Bytes.getString_putString s.nonzero)
    apply Bytes.write_eqOn.mono
    intro q hq
    have := hq.2
    unfold CString.strlen at hp
    simp only [Set.mem_compl_iff, Set.mem_Ico]
    lia

theorem write_putString_eqOn {s : CString} {lo hi : Nat} {v : Nat} (hlo : lo ≤ p) (hhi : p + 4 ≤ hi)
    (hc : c + (s.strlen + 1) ≤ c')
    : Set.EqOn ((m.putString (TableHeader.strtab + c) s.bytes).write p 4 v) m
        (Set.Ico lo hi ∪ Set.Ico (TableHeader.strtab + c) (TableHeader.strtab + c'))ᶜ := by
  unfold CString.strlen at hc
  apply Bytes.eqOn_trans (Bytes.putString_eqOn s.bytes) Bytes.write_eqOn
  . apply Set.subset_union_of_subset_right
    apply Set.Ico_subset_Ico_right
    omega
  . apply Set.subset_union_of_subset_left
    apply Set.Ico_subset_Ico
    . omega
    . omega

def strtabSize (args : List CString) : Nat := (args.map fun arg => arg.strlen + 1).sum

/--
What is behind the header of the command line arguments at `p`.
-/
def ArgsAt (m : Bytes) (p c : Nat) (args : List CString) : Prop :=
  m.read p 4 = args.length
    ∧ ∀ j arg, args[j]? = some arg → StringAt m (p + sizeofCommandArgs + j * sizeofArgOffset) c arg

theorem ArgsAt.mono {args : List CString} (h : ArgsAt m p c args) (hle : c ≤ c')
    : ArgsAt m p c' args :=
  ⟨h.1, fun j arg harg => (h.2 j arg harg).mono hle⟩

theorem fillCommandArgs_go_spec {args : List CString} {i : Nat} (hfit : c + strtabSize args < 2 ^ 32)
    (hp : TableHeader.strtab + (c + strtabSize args) ≤ p)
    : ∃ m', fillCommandArgs.go p args i ⟨m, c⟩ = ⟨m', c + strtabSize args⟩
        ∧ Set.EqOn m' m
          (Set.Ico (p + sizeofCommandArgs + i * sizeofArgOffset)
              (p + sizeofCommandArgs + (i + args.length) * sizeofArgOffset)
            ∪ Set.Ico (TableHeader.strtab + c) (TableHeader.strtab + (c + strtabSize args)))ᶜ
        ∧ ∀ j arg, args[j]? = some arg
          → StringAt m' (p + sizeofCommandArgs + (i + j) * sizeofArgOffset) (c + strtabSize args) arg := by
  induction args generalizing m i c with
  | nil =>
    refine ⟨m, rfl, Set.eqOn_refl _ _, ?_⟩
    intro j arg harg
    contradiction
  | cons arg args ih =>
    have hsize : strtabSize (arg :: args) = arg.strlen + 1 + strtabSize args := by
      unfold strtabSize
      rw [List.map_cons, List.sum_cons]
    rw [hsize] at hfit hp ⊢
    have hcursor : u32 (c + (arg.strlen + 1)) = c + (arg.strlen + 1) := by
      apply u32_of_lt
      omega
    obtain ⟨m', hgo, hframe, hstrings⟩ := @ih
      ((m.putString (TableHeader.strtab + c) arg.bytes).write
        (p + sizeofCommandArgs + i * sizeofArgOffset) 4 c)
      (c + (arg.strlen + 1)) (i + 1) (by lia) (by lia)
    rw [Nat.add_assoc c] at hgo hframe hstrings
    unfold sizeofCommandArgs sizeofArgOffset at *
    refine ⟨m', ?_, ?_, ?_⟩
    . rw [fillCommandArgs.go]
      rw [hcursor]
      exact hgo
    . apply Bytes.eqOn_trans
        (write_putString_eqOn (s := arg) (Nat.le_refl _) (Nat.le_refl _) (Nat.le_refl _)) hframe
      . intro q hq
        simp only [Set.mem_union, Set.mem_Ico, List.length_cons] at hq ⊢
        lia
      . intro q hq
        simp only [Set.mem_union, Set.mem_Ico, List.length_cons] at hq ⊢
        lia
    . intro j arg' harg'
      cases j with
      | zero =>
        rw [List.getElem?_cons_zero, Option.some.injEq] at harg'
        subst harg'
        -- the strings that follow leave the first one and its offset as they are
        have hfirst : StringAt m' (p + 4 + i * 4) (c + (arg.strlen + 1)) arg := by
          apply (stringAt_write (m := m) arg (by lia) (by lia)).eqOn
          . apply hframe.mono
            intro q hq
            simp only [Set.mem_compl_iff, Set.mem_union, Set.mem_Ico] at hq ⊢
            lia
          . apply hframe.mono
            intro q hq
            simp only [Set.mem_compl_iff, Set.mem_union, Set.mem_Ico, Set.mem_Iio] at hq ⊢
            lia
        apply hfirst.mono
        omega
      | succ j =>
        rw [List.getElem?_cons_succ] at harg'
        have := hstrings j arg' harg'
        rw [show i + 1 + j = i + (j + 1) by omega] at this
        exact this

theorem fillCommandArgs_fills (args : List CString) (hfit : c + strtabSize args < 2 ^ 32)
    (hp : TableHeader.strtab + (c + strtabSize args) ≤ p) (hlength : args.length < 2 ^ 32)
    : Fills (fun p s => some (fillCommandArgs args p s)) p
        (sizeofCommandArgs + args.length * sizeofArgOffset) c (c + strtabSize args)
        (fun m => ArgsAt m p (c + strtabSize args) args) := by
  constructor
  . omega
  . intro m
    obtain ⟨m', hgo, hframe, hstrings⟩ :=
      fillCommandArgs_go_spec (m := m.write p 4 args.length) (i := 0) hfit hp
    unfold sizeofCommandArgs sizeofArgOffset at *
    refine ⟨m', by rw [fillCommandArgs, hgo], ?_, ?_, ?_⟩
    . apply Bytes.eqOn_trans Bytes.write_eqOn hframe
      . intro q hq
        simp only [Set.mem_union, Set.mem_Ico] at hq ⊢
        lia
      . intro q hq
        simp only [Set.mem_union, Set.mem_Ico] at hq ⊢
        lia
    . have hcount : (m.write p 4 args.length).read p 4 = args.length := by
        apply Bytes.read_write_of_lt
        omega
      rw [← hcount]
      apply Bytes.read_eqOn
      apply hframe.mono
      intro q hq
      simp only [Set.mem_compl_iff, Set.mem_union, Set.mem_Ico] at hq ⊢
      lia
    . intro j arg harg
      have := hstrings j arg harg
      rw [Nat.zero_add] at this
      exact this
  . intro m m' heq ⟨hcount, hstrings⟩
    unfold sizeofCommandArgs sizeofArgOffset at *
    constructor
    . rw [← hcount]
      apply Bytes.read_eqOn
      apply heq.mono
      intro q hq
      simp only [Set.mem_union, Set.mem_Ico, Set.mem_Iio] at hq ⊢
      lia
    . intro j arg harg
      have hj : j < args.length := by
        have := List.getElem?_eq_some_iff.mp harg
        exact this.1
      apply (hstrings j arg harg).eqOn
      . apply heq.mono
        intro q hq
        simp only [Set.mem_union, Set.mem_Ico, Set.mem_Iio] at hq ⊢
        lia
      . apply heq.mono
        exact Set.subset_union_left

structure LoaderAt (m : Bytes) (p c : Nat) : Prop where
  name : StringAt m (p + 4) c BootemosInput.loaderName
  version : StringAt m (p + 8) c BootemosInput.loaderVersion
  author : StringAt m (p + 12) c BootemosInput.loaderAuthor

theorem LoaderAt.mono (h : LoaderAt m p c) (hle : c ≤ c') : LoaderAt m p c' :=
  ⟨h.name.mono hle, h.version.mono hle, h.author.mono hle⟩

theorem fillLiteral_spec (lit : CString) (hfit : c + (lit.strlen + 2) < 2 ^ 32)
    (hp : TableHeader.strtab + (c + (lit.strlen + 2)) ≤ p)
    : ∃ m', fillLiteral lit p ⟨m, c⟩ = ⟨m', c + (lit.strlen + 2)⟩
        ∧ Set.EqOn m' m
          (Set.Ico p (p + 4)
            ∪ Set.Ico (TableHeader.strtab + c) (TableHeader.strtab + (c + (lit.strlen + 2))))ᶜ
        ∧ StringAt m' p (c + (lit.strlen + 2)) lit := by
  have hcursor : u32 (c + (BootemosInput.sizeofLiteral lit + 1)) = c + (lit.strlen + 2) := by
    apply u32_of_lt
    exact hfit
  refine ⟨_, by rw [fillLiteral, hcursor], ?_, ?_⟩
  . apply write_putString_eqOn
    . omega
    . omega
    . omega
  . have := stringAt_write (m := m) (p := p) lit (c := c) (by omega) (by omega)
    exact this.mono (by omega)

def loaderStrtabSize : Nat := 23

theorem fillLoaderInfo_fills (hfit : c + loaderStrtabSize < 2 ^ 32)
    (hp : TableHeader.strtab + (c + loaderStrtabSize) ≤ p)
    : Fills (fun p s => some (fillLoaderInfo p s)) p sizeofLoaderInfo c (c + loaderStrtabSize)
        (fun m => LoaderAt m p (c + loaderStrtabSize)) := by
  have hname : BootemosInput.loaderName.strlen = 5 := rfl
  have hversion : BootemosInput.loaderVersion.strlen = 5 := rfl
  have hauthor : BootemosInput.loaderAuthor.strlen = 7 := rfl
  unfold loaderStrtabSize at *
  constructor
  . omega
  . intro m
    obtain ⟨m1, hfill1, hframe1, hstring1⟩ := fillLiteral_spec (m := m.write p 4 0) (p := p + 4)
      (c := c) BootemosInput.loaderName (by omega) (by omega)
    obtain ⟨m2, hfill2, hframe2, hstring2⟩ := fillLiteral_spec (m := m1) (p := p + 8)
      (c := c + 7) BootemosInput.loaderVersion (by omega) (by omega)
    obtain ⟨m3, hfill3, hframe3, hstring3⟩ := fillLiteral_spec (m := m2) (p := p + 12)
      (c := c + 14) BootemosInput.loaderAuthor (by omega) (by omega)
    rw [hname] at hfill1 hframe1 hstring1
    rw [hversion] at hfill2 hframe2 hstring2
    rw [hauthor] at hfill3 hframe3 hstring3
    -- each literal is behind the ones before
    refine ⟨m3, ?_, ?_, ?_⟩
    . unfold fillLoaderInfo
      dsimp only
      rw [hfill1, hfill2, hfill3]
    . intro q hq
      simp only [sizeofLoaderInfo, Set.mem_compl_iff, Set.mem_union, Set.mem_Ico] at hq
      rw [hframe3 (by simp only [Set.mem_compl_iff, Set.mem_union, Set.mem_Ico]; lia)]
      rw [hframe2 (by simp only [Set.mem_compl_iff, Set.mem_union, Set.mem_Ico]; lia)]
      rw [hframe1 (by simp only [Set.mem_compl_iff, Set.mem_union, Set.mem_Ico]; lia)]
      exact Bytes.write_outside (by lia)
    . have hframe : Set.EqOn m3 m1
          (Set.Ico (p + 8) (p + 16) ∪ Set.Ico (TableHeader.strtab + (c + 7)) (TableHeader.strtab + (c + 23)))ᶜ := by
        apply Bytes.eqOn_trans hframe2 hframe3
        . intro q hq
          simp only [Set.mem_union, Set.mem_Ico] at hq ⊢
          lia
        . intro q hq
          simp only [Set.mem_union, Set.mem_Ico] at hq ⊢
          lia
      constructor
      . have : StringAt m3 (p + 4) (c + 7) BootemosInput.loaderName := by
          apply hstring1.eqOn
          . apply hframe.mono
            intro q hq
            simp only [Set.mem_compl_iff, Set.mem_union, Set.mem_Ico] at hq ⊢
            lia
          . apply hframe.mono
            intro q hq
            simp only [Set.mem_compl_iff, Set.mem_union, Set.mem_Ico, Set.mem_Iio] at hq ⊢
            lia
        exact this.mono (by omega)
      . have : StringAt m3 (p + 8) (c + 14) BootemosInput.loaderVersion := by
          apply hstring2.eqOn
          . apply hframe3.mono
            intro q hq
            simp only [Set.mem_compl_iff, Set.mem_union, Set.mem_Ico] at hq ⊢
            lia
          . apply hframe3.mono
            intro q hq
            simp only [Set.mem_compl_iff, Set.mem_union, Set.mem_Ico, Set.mem_Iio] at hq ⊢
            lia
        exact this.mono (by omega)
      . exact hstring3
  . intro m m' heq h
    have hfield : ∀ k, 4 ≤ k → k + 4 ≤ 16 → Set.EqOn m' m (Set.Ico (p + k) (p + k + 4)) := by
      intro k hlo hhi
      apply heq.mono
      intro q hq
      simp only [sizeofLoaderInfo, Set.mem_union, Set.mem_Ico, Set.mem_Iio] at hq ⊢
      lia
    have hstrtab := heq.mono Set.subset_union_left
    constructor
    . exact h.name.eqOn (hfield 4 (by omega) (by omega)) hstrtab
    . exact h.version.eqOn (hfield 8 (by omega) (by omega)) hstrtab
    . exact h.author.eqOn (hfield 12 (by omega) (by omega)) hstrtab

theorem Fills.of_mem {fill : Nat → Bytes × Nat → Option (Bytes × Nat)} {Q : Bytes → Prop}
    (hreturns : ∀ m, ∃ m', fill p ⟨m, c⟩ = some ⟨m', c⟩
      ∧ Set.EqOn m' m (Set.Ico p (p + n))ᶜ ∧ Q m')
    (hstable : ∀ m m', Set.EqOn m' m (Set.Ico p (p + n)) → Q m → Q m')
    : Fills fill p n c c Q := by
  constructor
  . omega
  . intro m
    obtain ⟨m', hfill, hframe, hsays⟩ := hreturns m
    refine ⟨m', hfill, ?_, hsays⟩
    apply hframe.mono
    intro q hq hin
    exact hq (.inl hin)
  . intro m m' heq
    apply hstable
    exact heq.mono Set.subset_union_right

def ListAt {α : Type} (codec : Codec α) (m : Bytes) (p : Nat) (as : List α) : Prop :=
  m.read p 4 = as.length ∧ codec.getAll m (p + 4) as.length = as

section ListAt

variable {α : Type} {codec : Codec α} {as : List α}

theorem ListAt.eqOn (h : ListAt codec m p as)
    (heq : Set.EqOn m' m (Set.Ico p (p + (4 + codec.width * as.length))))
    : ListAt codec m' p as := by
  obtain ⟨hcount, hall⟩ := h
  constructor
  . rw [← hcount]
    apply Bytes.read_eqOn
    exact heq.mono (Set.Ico_subset_Ico_right (by omega))
  . rw [codec.getAll_eqOn (heq.mono (Set.Ico_subset_Ico (by omega) (by omega)))]
    exact hall

theorem listAt_putAll (h : as.length < 2 ^ 32)
    : ListAt codec (codec.putAll (m.write p 4 as.length) (p + 4) as) p as := by
  constructor
  . have hcount : (m.write p 4 as.length).read p 4 = as.length := by
      apply Bytes.read_write_of_lt
      omega
    have hkeeps : (codec.putAll (m.write p 4 as.length) (p + 4) as).read p 4
        = (m.write p 4 as.length).read p 4 := by
      apply Bytes.read_eqOn
      apply (codec.putAll_eqOn as).mono
      intro q hq hin
      have h1 := hq.2
      have h2 := hin.1
      omega
    rw [hkeeps, hcount]
  . apply codec.getAll_putAll

theorem putAll_write_eqOn {v : Nat}
    : Set.EqOn (codec.putAll (m.write p 4 v) (p + 4) as) m
        (Set.Ico p (p + (4 + codec.width * as.length)))ᶜ := by
  apply Bytes.eqOn_trans Bytes.write_eqOn (codec.putAll_eqOn as)
  . exact Set.Ico_subset_Ico_right (by omega)
  . exact Set.Ico_subset_Ico (by omega) (by omega)

end ListAt

/--
Starting at a cursor, the firmware returns these entries and then the cursor zero.
-/
inductive Enumerates (b : BootemosInput) : UInt32 → List SmapEntry → Prop where
  | last {cursor : UInt32} {e : SmapEntry} : b.queryMap cursor = .ok ⟨0, e⟩ → Enumerates b cursor [e]
  | more {cursor next : UInt32} {e : SmapEntry} {map : List SmapEntry} :
    b.queryMap cursor = .ok ⟨next, e⟩ → next ≠ 0 → Enumerates b next map
      → Enumerates b cursor (e :: map)

variable {b : BootemosInput} {map : List SmapEntry} {cursor : UInt32}

theorem Enumerates.countSmapEntry_go (h : Enumerates b cursor map) {fuel count : Nat}
    (hfuel : map.length ≤ fuel)
    : BootemosInput.countSmapEntry.go b fuel cursor count = .ok (.ok (count + map.length)) := by
  induction h generalizing fuel count with
  | last hquery =>
    cases fuel with
    | zero => contradiction
    | succ fuel =>
      rw [BootemosInput.countSmapEntry.go, hquery]
      rfl
  | more hquery hnext _ ih =>
    cases fuel with
    | zero => contradiction
    | succ fuel =>
      rw [List.length_cons] at hfuel ⊢
      rw [BootemosInput.countSmapEntry.go, hquery]
      dsimp only
      rw [if_neg hnext, ih (by omega)]
      rw [Nat.add_right_comm, Nat.add_assoc]

theorem Enumerates.fillMemoryMap_go (h : Enumerates b cursor map) {i : Nat} {last : SmapEntry}
    : fillMemoryMap.go b p map.length i cursor last m
        =
      MemoryMapEntry.codec.putAll m (p + sizeofMemoryMap + i * sizeofMemoryMapEntry)
        (map.map SmapEntry.memoryMapEntry) := by
  induction h generalizing m i last with
  | last hquery =>
    rw [List.length_singleton, fillMemoryMap.go, hquery]
    rfl
  | more hquery _ _ ih =>
    rw [List.length_cons, fillMemoryMap.go, hquery]
    rw [ih]
    rw [List.map_cons, Codec.putAll]
    rw [Nat.add_mul, Nat.one_mul, ← Nat.add_assoc]
    rfl

theorem fillMemoryMap_fills (h : Enumerates b 0 map) (hlength : map.length < 2 ^ 32)
    : Fills (fun p s => some ⟨fillMemoryMap b map.length p s.1, s.2⟩) p
        (sizeofMemoryMap + map.length * sizeofMemoryMapEntry) c c
        (fun m => ListAt MemoryMapEntry.codec m p (map.map SmapEntry.memoryMapEntry)) := by
  have hwidth : sizeofMemoryMap + map.length * sizeofMemoryMapEntry
      = 4 + MemoryMapEntry.codec.width * (map.map SmapEntry.memoryMapEntry).length := by
    rw [List.length_map, Nat.mul_comm]
    rfl
  have hfill : ∀ m, fillMemoryMap b map.length p m
      = MemoryMapEntry.codec.putAll
        (m.write p 4 (map.map SmapEntry.memoryMapEntry).length) (p + 4)
        (map.map SmapEntry.memoryMapEntry) := by
    intro m
    rw [fillMemoryMap, h.fillMemoryMap_go, List.length_map, Nat.zero_mul]
    rfl
  rw [hwidth]
  apply Fills.of_mem
  . intro m
    refine ⟨_, by rw [hfill], ?_, ?_⟩
    . apply putAll_write_eqOn
    . apply listAt_putAll
      rw [List.length_map]
      exact hlength
  . intro m m' heq hlist
    exact hlist.eqOn heq

theorem strncpy_eqOn {cs : List (BitVec 8)}
    : Set.EqOn (strncpy m p cs n) m (Set.Ico p (p + n))ᶜ := by
  have hbyte : ∀ (m : Bytes) p v, Set.EqOn (Function.update m p v) m (Set.Ico p (p + 1))ᶜ := by
    intro m p v q hq
    simp only [Set.mem_compl_iff, Set.mem_Ico] at hq
    exact Function.update_of_ne (by omega) _ _
  have hstep : ∀ (m : Bytes) (n : Nat) (p : Nat) (v : BitVec 8) (m' : Bytes),
      Set.EqOn m' (Function.update m p v) (Set.Ico (p + 1) (p + 1 + n))ᶜ
        → Set.EqOn m' m (Set.Ico p (p + (n + 1)))ᶜ := by
    intro m n p v m' h
    apply Bytes.eqOn_trans (hbyte m p v) h
    . exact Set.Ico_subset_Ico_right (by omega)
    . exact Set.Ico_subset_Ico (by omega) (by omega)
  fun_induction strncpy m p cs n with
  | case1 => exact Set.eqOn_refl _ _
  | case2 m p n ih => exact hstep _ _ _ _ _ ih
  | case3 m p n cs ih => exact hstep _ _ _ _ _ ih
  | case4 m p n c cs hzero ih => exact hstep _ _ _ _ _ ih

theorem fillAcpiRsdp_fills (rsdp : AcpiRsdp)
    : Fills (fun p s => some ⟨fillAcpiRsdp rsdp p s.1, s.2⟩) p sizeofAcpiRsdp c c (fun _ => True) := by
  apply Fills.of_mem
  . intro m
    refine ⟨_, rfl, ?_, trivial⟩
    intro q hq
    simp only [sizeofAcpiRsdp, Set.mem_compl_iff, Set.mem_Ico] at hq
    unfold fillAcpiRsdp
    rw [Bytes.write_outside (by omega)]
    rw [Bytes.write_outside (by omega)]
    rw [Bytes.write_outside (by omega)]
    rw [Bytes.write_outside (by omega)]
    exact strncpy_eqOn (by simp only [Set.mem_compl_iff, Set.mem_Ico]; omega)
  . intros
    trivial

theorem fillFramebuffer_fills (hwmode : VideoHwModeInfo)
    : Fills (fun p s => some ⟨fillFramebuffer hwmode p s.1, s.2⟩) p sizeofFramebuffer c c
        (fun _ => True) := by
  apply Fills.of_mem
  . intro m
    refine ⟨_, rfl, ?_, trivial⟩
    intro q hq
    simp only [sizeofFramebuffer, Set.mem_compl_iff, Set.mem_Ico] at hq
    unfold fillFramebuffer
    have hout : ∀ (m : Bytes) k w v, k + w ≤ 30 → m.write (p + k) w v q = m q := by
      intro m k w v hk
      exact Bytes.write_outside (by omega)
    have hfirst : ∀ v, m.write p 8 v q = m q := by
      intro v
      exact Bytes.write_outside (by omega)
    split
    . simp only [hout, hfirst, Nat.reduceAdd, Nat.reduceLeDiff]
    . simp only [hout, hfirst, Nat.reduceAdd, Nat.reduceLeDiff]
  . intros
    trivial

/--
The frames of the page tables that are at the entries `i` to `i + n` of the page directory.
-/
def BootemosInput.tableFrames (b : BootemosInput) (i n : Nat) : List UnavailableFrame :=
  ((List.range' i n).filter fun j => (b.pde j).p).map fun j =>
    ⟨(b.pde j).base.setWidth 52, beutPagetable⟩

namespace BootemosInput

variable (b) in
theorem tableFrames_succ (i : Nat)
    : b.tableFrames i (n + 1)
        =
      if (b.pde i).p then
        ⟨(b.pde i).base.setWidth 52, beutPagetable⟩ :: b.tableFrames (i + 1) n
      else
        b.tableFrames (i + 1) n := by
  unfold tableFrames
  rw [List.range'_succ, List.filter_cons]
  split
  . rw [List.map_cons]
  . rfl

theorem countPagetableFrame_go_eq (i count : Nat)
    : countPagetableFrame.go b n i count = count + (b.tableFrames i n).length := by
  induction n generalizing i count with
  | zero => rfl
  | succ n ih =>
    rw [countPagetableFrame.go, ih, tableFrames_succ]
    split
    . rw [List.length_cons]
      omega
    . rfl

/--
The frame of the page directory, and those of the page tables.
-/
def pagetableFrames (b : BootemosInput) : List UnavailableFrame :=
  ⟨BitVec.ofNat 52 ((b.cr3.toNat &&& 0xFFFFF000) >>> 12), beutPagetable⟩ :: b.tableFrames 0 1023

theorem countPagetableFrame_eq : b.countPagetableFrame = b.pagetableFrames.length := by
  rw [countPagetableFrame, countPagetableFrame_go_eq]
  unfold pagetableFrames
  rw [List.length_cons]
  omega

theorem length_pagetableFrames_le : b.pagetableFrames.length ≤ 1024 := by
  unfold pagetableFrames tableFrames
  rw [List.length_cons, List.length_map]
  have := List.length_filter_le (fun j => (b.pde j).p) (List.range' 0 1023)
  rw [List.length_range'] at this
  omega

def frameCount (b : BootemosInput) : Nat := b.countPagetableFrame + b.kernelFrameCount

/--
The frames of the kernel, whose pages are found at `paddr`.
-/
def kernelFrames (b : BootemosInput) (paddr : Nat → Nat) : List UnavailableFrame :=
  (List.range b.kernelFrameCount).map fun i => ⟨BitVec.ofNat 52 (paddr i >>> 12), beutKernel⟩

end BootemosInput

open BootemosInput

theorem fillPagetableFrameEntries_go_eq {entries i filled maxCount : Nat}
    (hle : (b.tableFrames i n).length ≤ maxCount) (hmax : maxCount < 2 ^ 32)
    : fillPagetableFrameEntries.go b entries n i filled maxCount m
        =
      UnavailableFrame.codec.putAll m (entries + filled * sizeofUnavailableFrame)
        (b.tableFrames i n) := by
  induction n generalizing m i filled maxCount with
  | zero => rfl
  | succ n ih =>
    rw [fillPagetableFrameEntries.go]
    rw [tableFrames_succ] at hle ⊢
    by_cases hp : (b.pde i).p
    . rw [if_neg (not_not.mpr hp)]
      rw [if_pos hp] at hle ⊢
      rw [List.length_cons] at hle
      rw [if_neg (by omega)]
      rw [sub32_of_le (by omega) hmax]
      rw [ih (by omega) (by omega)]
      rw [Codec.putAll, Nat.add_mul, Nat.one_mul, ← Nat.add_assoc]
      rfl
    . rw [if_pos hp]
      rw [if_neg hp] at hle ⊢
      exact ih hle hmax

theorem fillPagetableFrameEntries_eq {entries : Nat}
    : fillPagetableFrameEntries b entries b.countPagetableFrame m
        =
      UnavailableFrame.codec.putAll m entries b.pagetableFrames := by
  have hle := length_pagetableFrames_le (b := b)
  have hlength : b.pagetableFrames.length = (b.tableFrames 0 1023).length + 1 := by
    unfold pagetableFrames
    rw [List.length_cons]
  rw [fillPagetableFrameEntries, countPagetableFrame_eq]
  rw [if_pos (by omega)]
  rw [sub32_of_le (by omega) (by omega)]
  rw [fillPagetableFrameEntries_go_eq (by omega) (by omega)]
  unfold pagetableFrames
  rw [Codec.putAll, Nat.one_mul]
  rfl

theorem fillKernelFrameEntries_go_eq {entries i : Nat} {paddr : Nat → Nat}
    (h : ∀ j, i ≤ j → j < i + n
      → b.mmVaddrToPaddr (u32 (b.loadVaddr.toNat + j <<< 12)) = .ok (paddr j))
    : fillKernelFrameEntries.go b entries n i m
        =
      .ok (UnavailableFrame.codec.putAll m (entries + i * sizeofUnavailableFrame)
        ((List.range' i n).map fun j => ⟨BitVec.ofNat 52 (paddr j >>> 12), beutKernel⟩)) := by
  induction n generalizing m i with
  | zero => rfl
  | succ n ih =>
    rw [fillKernelFrameEntries.go, h i (by omega) (by omega)]
    dsimp only [bind, Except.bind]
    rw [ih (fun j hj hlt => h j (by omega) (by omega))]
    rw [List.range'_succ, List.map_cons, Codec.putAll]
    rw [Nat.add_mul, Nat.one_mul, ← Nat.add_assoc]
    rfl

theorem fillUnavailableFrames_fills {paddr : Nat → Nat}
    (h : ∀ j, j < b.kernelFrameCount
      → b.mmVaddrToPaddr (u32 (b.loadVaddr.toNat + j <<< 12)) = .ok (paddr j))
    (hlength : b.frameCount < 2 ^ 32)
    : Fills (fun p s => (fillUnavailableFrames b p s.1).map fun m => ⟨m, s.2⟩) p
        (sizeofUnavailableFrames + b.frameCount * sizeofUnavailableFrame) c c
        (fun m => ListAt UnavailableFrame.codec m p (b.pagetableFrames ++ b.kernelFrames paddr)) := by
  have hcount : (b.pagetableFrames ++ b.kernelFrames paddr).length = b.frameCount := by
    unfold frameCount kernelFrames
    rw [List.length_append, countPagetableFrame_eq]
    rw [List.length_map, List.length_range]
  have hwidth : sizeofUnavailableFrames + b.frameCount * sizeofUnavailableFrame
      = 4 + UnavailableFrame.codec.width * (b.pagetableFrames ++ b.kernelFrames paddr).length := by
    rw [hcount, Nat.mul_comm]
    rfl
  have hfill : ∀ m, fillUnavailableFrames b p m
      = some (UnavailableFrame.codec.putAll
        (m.write p 4 (b.pagetableFrames ++ b.kernelFrames paddr).length) (p + 4)
        (b.pagetableFrames ++ b.kernelFrames paddr)) := by
    intro m
    unfold fillUnavailableFrames fillKernelFrameEntries
    dsimp only
    rw [fillPagetableFrameEntries_eq]
    rw [fillKernelFrameEntries_go_eq (fun j _ hj => h j (by omega))]
    rw [hcount, Codec.putAll_append, ← countPagetableFrame_eq]
    rw [Nat.zero_mul, Nat.add_zero]
    rw [Nat.mul_comm UnavailableFrame.codec.width]
    unfold kernelFrames
    rw [List.range_eq_range']
    rfl
  rw [hwidth]
  apply Fills.of_mem
  . intro m
    refine ⟨_, by rw [hfill]; rfl, ?_, ?_⟩
    . apply putAll_write_eqOn
    . apply listAt_putAll
      omega
  . intro m m' heq hlist
    exact hlist.eqOn heq

theorem fillPagetableVpn_fills
    : Fills (fun p s => some ⟨fillPagetableVpn b p s.1, s.2⟩) p sizeofPagetableVpn c c
        (fun m => m.read p 8 = b.pageDir.toNat / pageSize) := by
  have hlt := b.pageDir.toNat_lt
  apply Fills.of_mem
  . intro m
    refine ⟨_, rfl, Bytes.write_eqOn, ?_⟩
    unfold fillPagetableVpn
    apply Bytes.read_write_of_lt
    unfold pageSize
    omega
  . intro m m' heq hvpn
    unfold sizeofPagetableVpn at heq
    rw [Bytes.read_eqOn heq]
    exact hvpn

end Emos.Boot
