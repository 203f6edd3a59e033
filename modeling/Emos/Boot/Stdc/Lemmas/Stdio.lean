import Emos.Boot.Fat.Lemmas.File
import Emos.Boot.Stdc.Impl.Stdio
import Emos.Lib.Decimal
import Emos.Lib.Loop

/-!
This module contains what is printed for a string and for a number without flags, width and precision, and when
`fread` counts the complete items of a file, for every driver of a filesystem that may read less than it is asked for.
-/

open Lib Lib.Decimal

namespace Emos.Boot

/--
`%d`
-/
def plainSpec : FmtSpec := ⟨0, 0, 0, 10⟩

theorem padding_of_le_zero {count : Int} (h : count ≤ 0) (ch : BitVec 8) : padding count ch = [] := by
  unfold padding
  rw [Int.toNat_of_nonpos h]
  rfl

theorem printStr_plain (str : List (BitVec 8)) : printStr ⟨0, 0, 0, 0⟩ str = str.take (2 ^ 31 - 1) := by
  have hleft : FmtSpec.has ⟨0, 0, 0, 0⟩ sfLeft = false := by decide
  have hmax : ((2 : Int) ^ 31 - 1).toNat = 2 ^ 31 - 1 := by decide
  unfold printStr
  dsimp only
  rw [hleft, if_pos rfl, if_neg (by simp)]
  by_cases hlen : (2 ^ 31 - 1 : Int) < str.length
  . have hwidth : ¬ (str.length : Int) < 2 ^ 31 - 1 := by omega
    simp only [if_pos hlen, if_neg hwidth, Int.sub_zero]
    rw [padding_of_le_zero (Int.le_refl 0), List.nil_append, hmax]
  . have hwidth : (if (0 : Int) < str.length then (str.length : Int) else 0) = str.length := by
      split <;> omega
    simp only [if_neg hlen, hwidth, Int.lt_irrefl, if_false, Int.sub_zero, Int.toNat_natCast]
    rw [padding_of_le_zero (Int.le_refl 0), List.nil_append, List.take_length, List.take_of_length_le]
    omega

theorem reversedDigits_plain {room n : Nat} (h : n < 10 ^ room)
    : reversedDigits plainSpec room n = (Nat.digits 10 n).map fun d => BitVec.ofNat 8 (0x30 + d) := by
  induction room generalizing n with
  | zero =>
    have hzero : n = 0 := by simpa using h
    rw [hzero]
    rfl
  | succ room ih =>
    unfold reversedDigits
    by_cases hzero : n = 0
    . rw [if_pos hzero, hzero]
      rfl
    . have hbase : plainSpec.base = 10 := rfl
      have hdiv : n / 10 < 10 ^ room := by
        apply Nat.div_lt_of_lt_mul
        rw [Nat.pow_succ, Nat.mul_comm] at h
        exact h
      have hdigit : hexTable plainSpec (n % 10) = BitVec.ofNat 8 (0x30 + n % 10) :=
        if_pos (Nat.mod_lt n (by decide))
      rw [if_neg hzero, hbase, ih hdiv, hdigit, Nat.digits_def' (by decide) (Nat.pos_of_ne_zero hzero),
        List.map_cons]

theorem doPrintInt_plain {num : BitVec 64} (h : num.msb = false)
    : doPrintInt num plainSpec true = numeral num.toNat := by
  have hhas : ∀ flags, plainSpec.has flags = false := by
    intro flags
    simp [FmtSpec.has, plainSpec]
  have hroom : num.toNat < 10 ^ 22 := Nat.lt_trans num.isLt (by decide)
  unfold doPrintInt numeral
  simp only [h, hhas, Bool.and_false, Bool.or_false, reversedDigits_plain hroom, List.map_eq_nil_iff,
    Nat.digits_eq_nil_iff_eq_zero, Bool.false_eq_true, if_false]
  rw [padding_of_le_zero, padding_of_le_zero]
  . split <;> rfl
  . simp [plainSpec]
  . simp [plainSpec]

/--
The text in a buffer ends with the characters or with the buffer.
-/
theorem takeWhile_vsnprintf {chars : List (BitVec 8)} (h : ∀ c ∈ chars, c ≠ 0) (len : Nat)
    : (vsnprintf len chars).takeWhile (· ≠ 0) = chars.take len := by
  unfold vsnprintf
  rw [List.take_append, List.takeWhile_append_of_pos]
  . cases len - chars.length <;> simp
  . intro c hc
    simpa using h c (List.mem_of_mem_take hc)

namespace Stdc

variable {σ : Type}

/--
A driver reads, in states that belong to the rest of a file, at most the next `size` bytes. It fails only at the
end of the file.
-/
structure Delivers (read : ReadFn σ Status) (size : Nat) (At : σ → List (BitVec 8) → Prop) : Prop where
  total : ∀ s rest, At s rest → ∃ status data s', read s size = .ok (status, data, s')
  success : ∀ s rest data s', At s rest → read s size = .ok (.success, data, s')
    → data.length ≤ size ∧ ∃ rest', rest = data ++ rest' ∧ At s' rest'
  failure : ∀ s rest status data s', At s rest → read s size = .ok (status, data, s') → status ≠ .success
    → rest = [] ∧ data = []

/--
`n` reads give whole items, and the state after them has the property.
-/
def ItemsThen (read : ReadFn σ Status) (size : Nat) (P : σ → Prop) : Nat → σ → Prop
  | 0, s => P s
  | n + 1, s => ∃ data s', read s size = .ok (.success, data, s') ∧ data.length = size ∧ ItemsThen read size P n s'

def Fails (read : ReadFn σ Status) (size : Nat) (s : σ) : Prop :=
  ∃ status data s', read s size = .ok (status, data, s') ∧ status ≠ .success

/--
`fread` returns the number of the complete items, at most `count`, and stores their bytes and nothing else.
-/
def ReadsItems (read : ReadFn σ Status) (size count : Nat) (s : σ) (rest : List (BitVec 8)) : Prop :=
  ∃ s', fread (.file read) size count (fun _ => none) s
    = .ok (min count (rest.length / size),
        fun i => (rest.take (min count (rest.length / size) * size))[i]?, s')

namespace Stored

variable {m : Stored} {ptr i : Nat} {data : List (BitVec 8)}

theorem put_below (h : i < ptr)
    : m.put ptr data i = m i := by
  rw [put, if_neg (by omega)]

theorem put_above (h : ptr + data.length ≤ i)
    : m.put ptr data i = m i := by
  rw [put, if_neg (by omega)]

theorem put_inside (h : i < data.length)
    : m.put ptr data (ptr + i) = data[i]? := by
  rw [put, if_pos (by omega), Nat.add_sub_cancel_left]

theorem put_nil
    : m.put ptr [] = m := by
  funext i
  rw [put, if_neg]
  simp

theorem put_append (a b : List (BitVec 8))
    : (m.put ptr a).put (ptr + a.length) b = m.put ptr (a ++ b) := by
  funext i
  unfold put
  rw [List.length_append]
  by_cases ha : ptr ≤ i ∧ i < ptr + a.length
  . rw [if_neg (by omega), if_pos ha, if_pos (by omega), List.getElem?_append_left (by omega)]
  . rw [if_neg ha]
    by_cases hb : ptr + a.length ≤ i ∧ i < ptr + a.length + b.length
    . rw [if_pos hb, if_pos (by omega), List.getElem?_append_right (by omega)]
      congr 1
      omega
    . rw [if_neg hb, if_neg (by omega)]

theorem put_none (data : List (BitVec 8))
    : put (fun _ => none) 0 data = fun i => data[i]? := by
  funext i
  rw [put]
  split
  . rw [Nat.sub_zero]
  . rw [List.getElem?_eq_none]
    omega

end Stored

variable {read : ReadFn σ Status} {size : Nat} {At : σ → List (BitVec 8) → Prop}

namespace fread

theorem go_success {s s' : σ} {data : List (BitVec 8)} (hread : read s size = .ok (.success, data, s'))
    (count rounds n ptr : Nat) (m : Stored)
    : go (.file read) size count (rounds + 1) n ptr m s
        =
      go (.file read) size count rounds (n + 1) (ptr + size) (m.put ptr data) s' := by
  change (read s size >>= fun _ => _) = _
  rw [hread]
  rfl

theorem go_failure {s s' : σ} {status : Status} {data : List (BitVec 8)}
    (hread : read s size = .ok (status, data, s')) (hstatus : status ≠ .success) (count rounds n ptr : Nat)
    (m : Stored)
    : go (.file read) size count (rounds + 1) n ptr m s = .ok (n, m.put ptr data, s') := by
  change (read s size >>= fun _ => _) = _
  rw [hread, ok_bind]
  dsimp only
  rw [if_pos hstatus]

/--
The count does not fall, and what was stored before stays.
-/
theorem go_frame (h : Delivers read size At) {rest : List (BitVec 8)} {s s' : σ} (hat : At s rest)
    {count rounds n n' ptr : Nat} {m m' : Stored}
    (hrun : go (.file read) size count rounds n ptr m s = .ok (n', m', s'))
    : n ≤ n' ∧ ∀ i, i < ptr → m' i = m i := by
  induction rounds generalizing n ptr m s rest with
  | zero =>
    change Except.ok (n, m, s) = _ at hrun
    rw [Except.ok.injEq, Prod.mk.injEq, Prod.mk.injEq] at hrun
    rw [hrun.1, hrun.2.1]
    exact ⟨Nat.le_refl _, fun i _ => rfl⟩
  | succ rounds ih =>
    obtain ⟨status, data, t, hread⟩ := h.total s rest hat
    by_cases hstatus : status = .success
    . rw [hstatus] at hread
      obtain ⟨_, rest', _, hat'⟩ := h.success s rest data t hat hread
      rw [go_success hread] at hrun
      obtain ⟨hle, hframe⟩ := ih hat' hrun
      constructor
      . omega
      . intro i hi
        rw [hframe i (by omega), Stored.put_below hi]
    . rw [go_failure hread hstatus, Except.ok.injEq, Prod.mk.injEq, Prod.mk.injEq] at hrun
      rw [← hrun.1, ← hrun.2.1]
      constructor
      . exact Nat.le_refl n
      . intro i hi
        rw [Stored.put_below hi]

end fread

theorem ItemsThen.imp {P Q : σ → Prop} (hPQ : ∀ s, P s → Q s) {n : Nat} {s : σ} (h : ItemsThen read size P n s)
    : ItemsThen read size Q n s := by
  induction n generalizing s with
  | zero => exact hPQ s h
  | succ n ih =>
    obtain ⟨data, s', hread, hlen, hrest⟩ := h
    exact ⟨data, s', hread, hlen, ih hrest⟩

/--
After the whole items either enough of them were read or the file ends and the driver says so.
-/
def EndsWell (read : ReadFn σ Status) (size count : Nat) (rest : List (BitVec 8)) (s : σ) : Prop :=
  count ≤ rest.length / size ∨ (size ∣ rest.length ∧ Fails read size s)

theorem endsWell_append (hsize : 0 < size) {data rest : List (BitVec 8)} (hdata : data.length = size) (count : Nat)
    (s : σ)
    : EndsWell read size (count + 1) (data ++ rest) s ↔ EndsWell read size count rest s := by
  unfold EndsWell
  rw [List.length_append, hdata, Nat.add_div_left _ hsize, Nat.dvd_add_right (Nat.dvd_refl size),
    Nat.succ_le_succ_iff]

namespace fread

/--
The induction is on the rounds. A whole item leads to the same question for the rest of the file.
-/
theorem go_of_itemsThen (h : Delivers read size At) (hsize : 0 < size) (count rounds n ptr : Nat) (m : Stored)
    {s : σ} {rest : List (BitVec 8)} (hat : At s rest)
    (hitems : ItemsThen read size (EndsWell read size rounds rest) (min rounds (rest.length / size)) s)
    : ∃ s', go (.file read) size count rounds n ptr m s
        = .ok (n + min rounds (rest.length / size),
            m.put ptr (rest.take (min rounds (rest.length / size) * size)), s') := by
  induction rounds generalizing n ptr m s rest with
  | zero =>
    rw [Nat.zero_min, Nat.zero_mul, List.take_zero, Stored.put_nil]
    exact ⟨s, rfl⟩
  | succ rounds ih =>
    by_cases hlen : rest.length / size = 0
    . rw [hlen, Nat.min_zero] at hitems ⊢
      have hend : ¬ rounds + 1 ≤ rest.length / size := by omega
      obtain ⟨_, status, data, s', hread, hstatus⟩ := hitems.resolve_left hend
      obtain ⟨_, hdata⟩ := h.failure s rest status data s' hat hread hstatus
      rw [go_failure hread hstatus, hdata, Nat.zero_mul, List.take_zero]
      exact ⟨s', rfl⟩
    . obtain ⟨q, hq⟩ := Nat.exists_eq_succ_of_ne_zero hlen
      rw [hq, Nat.succ_eq_add_one, Nat.add_min_add_right] at hitems ⊢
      obtain ⟨data, s', hread, hdata, hitems⟩ := hitems
      obtain ⟨_, rest', hrest, hat'⟩ := h.success s rest data s' hat hread
      have hq' : rest'.length / size = q := by
        rw [hrest, List.length_append, hdata, Nat.add_div_left _ hsize] at hq
        omega
      have hitems' : ItemsThen read size (EndsWell read size rounds rest') (min rounds (rest'.length / size)) s' := by
        rw [hq']
        apply hitems.imp
        intro t ht
        rw [hrest, endsWell_append hsize hdata] at ht
        exact ht
      obtain ⟨t, hgo⟩ := ih (n + 1) (ptr + size) (m.put ptr data) hat' hitems'
      refine ⟨t, ?_⟩
      rw [go_success hread, hgo, hq', ← hdata, Stored.put_append, hrest, Nat.add_mul, Nat.one_mul,
        Nat.add_comm _ data.length, List.take_length_add_append, Nat.add_assoc, Nat.add_comm 1]

/--
A read that is counted and gives less than an item leaves a byte of the item unset.
-/
theorem whole_of_stored (h : Delivers read size At) {count rounds n n' ptr : Nat} {m m' : Stored} {s' t : σ}
    {rest rest' data : List (BitVec 8)} (hat' : At s' rest') (hdata : data.length ≤ size) (hlen : size ≤ rest.length) (hm : ∀ i, ptr ≤ i → m i = none)
    (hrun : go (.file read) size count rounds n (ptr + size) (m.put ptr data) s' = .ok (n', m', t))
    (hstored : ∀ i, i < size → m' (ptr + i) = rest[i]?)
    : data.length = size := by
  by_contra hne
  have hlt : data.length < size := by omega
  have hframe := (go_frame h hat' hrun).2 (ptr + data.length) (by omega)
  rw [Stored.put_above (Nat.le_refl _), hm _ (by omega), hstored _ hlt, List.getElem?_eq_none_iff] at hframe
  omega

/--
The induction is on the rounds, and the bytes that are not set yet carry it.
-/
theorem itemsThen_of_go (h : Delivers read size At) (hsize : 0 < size) (count rounds n ptr : Nat) (m : Stored)
    {m' : Stored} {s s' : σ} {rest : List (BitVec 8)} (hat : At s rest) (hm : ∀ i, ptr ≤ i → m i = none)
    (hrun : go (.file read) size count rounds n ptr m s
      = .ok (n + min rounds (rest.length / size), m', s'))
    (hstored : ∀ i, i < min rounds (rest.length / size) * size → m' (ptr + i) = rest[i]?)
    : ItemsThen read size (EndsWell read size rounds rest) (min rounds (rest.length / size)) s := by
  induction rounds generalizing n ptr m s rest with
  | zero =>
    rw [Nat.zero_min]
    left
    apply Nat.zero_le
  | succ rounds ih =>
    obtain ⟨status, data, t, hread⟩ := h.total s rest hat
    by_cases hstatus : status = .success
    . rw [hstatus] at hread
      obtain ⟨hdata, rest', hrest, hat'⟩ := h.success s rest data t hat hread
      rw [go_success hread] at hrun
      have hcount := (go_frame h hat' hrun).1
      have hpos : 1 ≤ rest.length / size := by lia
      have hlen : size ≤ rest.length := by
        rw [Nat.one_le_div_iff hsize] at hpos
        exact hpos
      have hitem : ∀ i, i < size → m' (ptr + i) = rest[i]? := by
        intro i hi
        apply hstored
        have hle : 1 * size ≤ min (rounds + 1) (rest.length / size) * size := Nat.mul_le_mul_right _ (by omega)
        omega
      have hwhole := whole_of_stored h hat' hdata hlen hm hrun hitem
      have hdiv : rest.length / size = rest'.length / size + 1 := by
        rw [hrest, List.length_append, hwhole, Nat.add_div_left _ hsize]
      rw [hdiv, Nat.add_min_add_right] at hrun hstored ⊢
      refine ⟨data, t, hread, hwhole, ?_⟩
      have hrest' : ItemsThen read size (EndsWell read size rounds rest') (min rounds (rest'.length / size)) t := by
        apply ih (n + 1) (ptr + size) (m.put ptr data) hat'
        . intro i hi
          rw [Stored.put_above (by omega), hm i (by omega)]
        . rw [hrun, Nat.add_assoc, Nat.add_comm 1]
        . intro i hi
          rw [Nat.add_assoc, hstored (size + i) (by rw [Nat.add_mul]; omega), hrest,
            List.getElem?_append_right (by omega), hwhole, Nat.add_sub_cancel_left]
      apply hrest'.imp
      intro u hu
      rw [hrest, endsWell_append hsize hwhole]
      exact hu
    . obtain ⟨hrest, _⟩ := h.failure s rest status data t hat hread hstatus
      rw [hrest, List.length_nil, Nat.zero_div, Nat.min_zero]
      right
      exact ⟨by simp, status, data, t, hread, hstatus⟩

end fread

theorem itemsThen_of_readsItems (h : Delivers read size At) (hsize : 0 < size) {s : σ} {rest : List (BitVec 8)}
    (hat : At s rest) {count : Nat} (hreads : ReadsItems read size count s rest)
    : ItemsThen read size (EndsWell read size count rest) (min count (rest.length / size)) s := by
  obtain ⟨s', hrun⟩ := hreads
  apply fread.itemsThen_of_go h hsize count count 0 0 (fun _ => none) hat (fun _ _ => rfl)
  . rw [Nat.zero_add]
    exact hrun
  . intro i hi
    rw [Nat.zero_add, List.getElem?_take_of_lt hi]

theorem readsItems_of_itemsThen (h : Delivers read size At) (hsize : 0 < size) {s : σ} {rest : List (BitVec 8)}
    (hat : At s rest) {count : Nat}
    (hitems : ItemsThen read size (EndsWell read size count rest) (min count (rest.length / size)) s)
    : ReadsItems read size count s rest := by
  obtain ⟨s', hrun⟩ := fread.go_of_itemsThen h hsize count count 0 0 (fun _ => none) hat hitems
  rw [Nat.zero_add, Stored.put_none] at hrun
  exact ⟨s', hrun⟩

/--
A driver that reads all that there is.
-/
structure Greedy (read : ReadFn σ Status) (size : Nat) (At : σ → List (BitVec 8) → Prop) : Prop
    extends Delivers read size At where
  all : ∀ s rest data s', At s rest → read s size = .ok (.success, data, s') → data.length = min size rest.length
  fails_iff : ∀ s rest, At s rest → (Fails read size s ↔ rest = [])

theorem Greedy.of_spec
    (hspec : ∀ s rest, At s rest → ∃ s', read s size
      = .ok (if rest = [] then .endOfFile else .success, rest.take size, s') ∧ At s' (rest.drop size))
    : Greedy read size At := by
  have hsuccess : ∀ s rest data s', At s rest → read s size = .ok (.success, data, s')
      → rest ≠ [] ∧ data = rest.take size ∧ At s' (rest.drop size) := by
    intro s rest data s' hat hread
    obtain ⟨t, hok, hat'⟩ := hspec s rest hat
    rw [hread, Except.ok.injEq, Prod.mk.injEq, Prod.mk.injEq] at hok
    obtain ⟨hstatus, hdata, ht⟩ := hok
    split at hstatus
    . contradiction
    . rw [ht]
      exact ⟨by assumption, hdata, hat'⟩
  have hfailure : ∀ s rest status data s', At s rest → read s size = .ok (status, data, s') → status ≠ .success
      → rest = [] ∧ data = [] := by
    intro s rest status data s' hat hread hstatus
    obtain ⟨t, hok, _⟩ := hspec s rest hat
    rw [hread, Except.ok.injEq, Prod.mk.injEq, Prod.mk.injEq] at hok
    split at hok
    next hempty =>
      rw [hok.2.1, hempty]
      simp
    next =>
      exact absurd hok.1 hstatus
  constructor
  . constructor
    . intro s rest hat
      obtain ⟨s', hok, _⟩ := hspec s rest hat
      exact ⟨_, _, s', hok⟩
    . intro s rest data s' hat hread
      obtain ⟨_, hdata, hat'⟩ := hsuccess s rest data s' hat hread
      rw [hdata]
      exact ⟨by simp, _, (List.take_append_drop size rest).symm, hat'⟩
    . exact hfailure
  . intro s rest data s' hat hread
    rw [(hsuccess s rest data s' hat hread).2.1, List.length_take]
  . intro s rest hat
    constructor
    . intro ⟨status, data, s', hread, hstatus⟩
      exact (hfailure s rest status data s' hat hread hstatus).1
    . intro hempty
      obtain ⟨s', hok, _⟩ := hspec s rest hat
      rw [if_pos hempty] at hok
      exact ⟨_, _, s', hok, by decide⟩

/--
A driver whose state is the rest of the file.
-/
def listRead : ReadFn (List (BitVec 8)) Status := fun rest len =>
  .ok (if rest = [] then .endOfFile else .success, rest.take len, rest.drop len)

theorem listRead_greedy (size : Nat)
    : Greedy listRead size (fun s rest => s = rest) := by
  apply Greedy.of_spec
  rintro s rest rfl
  exact ⟨_, rfl, rfl⟩

theorem fread_iff (h : Delivers read size At) (hsize : 0 < size) {s : σ} {rest : List (BitVec 8)} (hat : At s rest)
    (count : Nat)
    : ReadsItems read size count s rest
        ↔
      ItemsThen read size (EndsWell read size count rest) (min count (rest.length / size)) s := by
  constructor
  . apply itemsThen_of_readsItems h hsize hat
  . apply readsItems_of_itemsThen h hsize hat

theorem fread_iff_listRead : ReadsItems listRead 2 2 [1, 2, 3, 4, 5] [1, 2, 3, 4, 5]
    ↔ ItemsThen listRead 2 (EndsWell listRead 2 2 [1, 2, 3, 4, 5])
        (min 2 (([1, 2, 3, 4, 5] : List (BitVec 8)).length / 2)) [1, 2, 3, 4, 5] :=
  fread_iff (listRead_greedy 2).toDelivers (by decide) rfl 2

/--
The last two bytes are counted as an item of four.
-/
theorem fread_ten_bytes : ¬ ReadsItems listRead 4 3 [0, 1, 2, 3, 4, 5, 6, 7, 8, 9] [0, 1, 2, 3, 4, 5, 6, 7, 8, 9] := by
  intro ⟨s', hrun⟩
  have hcount : (fread (.file listRead) 4 3 (fun _ => none) [0, 1, 2, 3, 4, 5, 6, 7, 8, 9]).map Prod.fst = .ok 3 := rfl
  rw [hrun] at hcount
  simp [Except.map] at hcount

theorem ItemsThen.exists {P : σ → Prop} {n : Nat} {s : σ} (h : ItemsThen read size P n s)
    : ∃ s', P s' := by
  induction n generalizing s with
  | zero => exact ⟨s, h⟩
  | succ n ih =>
    obtain ⟨_, _, _, _, hrest⟩ := h
    exact ih hrest

theorem Greedy.itemsThen (h : Greedy read size At) (hsize : 0 < size) {P : σ → Prop} {n : Nat} {s : σ}
    {rest : List (BitVec 8)} (hat : At s rest) (hn : n ≤ rest.length / size)
    (hP : ∀ s', At s' (rest.drop (n * size)) → P s')
    : ItemsThen read size P n s := by
  induction n generalizing s rest with
  | zero =>
    apply hP
    rw [Nat.zero_mul]
    exact hat
  | succ n ih =>
    have hlen : (n + 1) * size ≤ rest.length := by
      rw [Nat.le_div_iff_mul_le hsize] at hn
      exact hn
    rw [Nat.add_mul, Nat.one_mul] at hlen hP
    obtain ⟨status, data, s', hread⟩ := h.total s rest hat
    have hstatus : status = .success := by
      by_contra hfail
      have hempty := (h.fails_iff s rest hat).mp ⟨status, data, s', hread, hfail⟩
      rw [hempty, List.length_nil] at hlen
      omega
    rw [hstatus] at hread
    have hdata := h.all s rest data s' hat hread
    rw [Nat.min_eq_left (by omega)] at hdata
    obtain ⟨_, rest', hrest, hat'⟩ := h.success s rest data s' hat hread
    refine ⟨data, s', hread, hdata, ?_⟩
    apply ih hat'
    . rw [Nat.le_div_iff_mul_le hsize]
      rw [hrest, List.length_append] at hlen
      omega
    . intro t ht
      apply hP
      rw [hrest, Nat.add_comm, ← hdata, List.drop_length_add_append, hdata]
      exact ht

/--
For such a driver only the number of the bytes and the size of an item decide.
-/
theorem Greedy.readsItems_iff (h : Greedy read size At) (hsize : 0 < size) {s : σ} {rest : List (BitVec 8)}
    (hat : At s rest) (count : Nat)
    : ReadsItems read size count s rest ↔ count ≤ rest.length / size ∨ size ∣ rest.length := by
  constructor
  . intro hreads
    obtain ⟨_, hend⟩ := (itemsThen_of_readsItems h.toDelivers hsize hat hreads).exists
    cases hend with
    | inl hcount => exact .inl hcount
    | inr hend => exact .inr hend.1
  . intro hcond
    apply readsItems_of_itemsThen h.toDelivers hsize hat
    apply h.itemsThen hsize hat (Nat.min_le_right _ _)
    intro s' hat'
    by_cases hcount : count ≤ rest.length / size
    . exact .inl hcount
    . have hdvd := hcond.resolve_left hcount
      right
      refine ⟨hdvd, ?_⟩
      rw [h.fails_iff s' _ hat', List.drop_eq_nil_iff, Nat.min_eq_right (by omega), Nat.div_mul_cancel hdvd]

def fatRead : ReadFn OpenFile Status := fun s len => do
  let r ← Boot.read s.data s.file len
  .ok (r.status, r.buf, ⟨r.data, r.file⟩)

variable {d : FatData} {e : Direntry} {cs : List Nat}

/--
A file on a FAT volume is open, and `rest` is what follows its cursor.
-/
def FatAt (d : FatData) (e : Direntry) (cs : List Nat) (s : OpenFile) (rest : List (BitVec 8)) : Prop :=
  s.IsAfter d e cs ∧ rest = (List.range' s.file.cursor (e.size - s.file.cursor)).map (d.chainBytes cs)

theorem fatRead_spec (hfit : e.size + size < 2 ^ 32) {s : OpenFile} {rest : List (BitVec 8)}
    (hat : FatAt d e cs s rest)
    : ∃ s', fatRead s size = .ok (if rest = [] then .endOfFile else .success, rest.take size, s')
        ∧ FatAt d e cs s' (rest.drop size) := by
  obtain ⟨hafter, hrest⟩ := hat
  have hcursor := hafter.isOpen.cursor_le
  rw [hafter.direntry] at hcursor
  have hbound : s.file.cursor + size < 2 ^ 32 := by omega
  obtain ⟨r, hr, hstatus, hbuf, _, hnext, hdirentry, hhead, hsame, hopen⟩ :=
    read_spec hafter.isOpen hafter.reachable (.inl hbound)
  rw [hafter.direntry] at hstatus hbuf
  rw [hafter.sameVolume.chainBytes_eq] at hbuf
  have hempty : rest = [] ↔ e.size ≤ s.file.cursor := by
    rw [hrest, List.map_eq_nil_iff, List.range'_eq_nil_iff]
    lia
  have htake : r.buf = rest.take size := by
    rw [hbuf, hrest, expected, ← List.map_take]
    by_cases hle : size ≤ e.size - s.file.cursor
    . rw [List.take_range'_of_length_ge hle]
      congr 2
      lia
    . rw [List.take_range'_of_length_le (by omega)]
      congr 2
      lia
  refine ⟨⟨r.data, r.file⟩, ?_, hafter.of_same hdirentry hhead hsame hopen, ?_⟩
  . rw [fatRead, hr, ok_bind, hstatus, htake]
    simp only [hempty]
    split
    . rw [if_neg (by omega)]
    . rw [if_pos (by omega)]
  . have hlen : r.buf.length = min size (e.size - s.file.cursor) := by
      rw [htake, hrest, List.length_take, List.length_map, List.length_range']
    rw [hrest, ← List.map_drop, List.drop_range', hnext, hlen]
    by_cases hle : size ≤ e.size - s.file.cursor
    . rw [Nat.min_eq_left hle, Nat.mul_one]
      congr 2
      omega
    . have hdone : e.size - s.file.cursor - size = 0 := by lia
      have hdone' : e.size - (s.file.cursor + min size (e.size - s.file.cursor)) = 0 := by lia
      rw [hdone, hdone']
      rfl

theorem fat_greedy (hfit : e.size + size < 2 ^ 32)
    : Greedy fatRead size (FatAt d e cs) := by
  apply Greedy.of_spec
  intro s rest hat
  apply fatRead_spec hfit hat

/--
On a FAT volume `fread` counts the items of a file if there are enough of them or the rest of the file consists of
whole items.
-/
theorem readsItems_fat_iff (hfit : e.size + size < 2 ^ 32) (hsize : 0 < size) {s : OpenFile} (hs : s.IsAfter d e cs)
    (count : Nat)
    : ReadsItems fatRead size count s ((List.range' s.file.cursor (e.size - s.file.cursor)).map (d.chainBytes cs))
        ↔
      count ≤ (e.size - s.file.cursor) / size ∨ size ∣ e.size - s.file.cursor := by
  rw [(fat_greedy hfit).readsItems_iff hsize ⟨hs, rfl⟩, List.length_map, List.length_range']

end Stdc

end Emos.Boot
