import Emos.Boot.Part.Impl.Part
import Mathlib.Data.Int.Basic

/-!
This module contains which requests to a partition are served as they should be.
-/

namespace Emos.Boot.Part

/--
A partition has at least one sector.
-/
structure IsPartition (data : PartData) : Prop where
  base : IsLba data.partBase
  limit : IsLba data.partLimit
  base_le_limit : data.partBase ≤ data.partLimit

theorem probe_isPartition {rsrc : List Resource} {data : PartData} (h : probe rsrc = .ok data)
    (hlimit : ∀ r ∈ rsrc, r.limit.toNat < 2 ^ 63)
    : IsPartition data := by
  unfold probe at h
  split at h
  next r =>
    split at h
    . contradiction
    . next hvalid =>
      have hlt := hlimit r (List.mem_singleton_self r)
      have hle : r.base.toNat ≤ r.limit.toNat := by
        rw [← UInt64.le_iff_toNat_le]
        exact UInt64.not_lt.mp (fun hlt => hvalid (.inr hlt))
      rw [Except.ok.injEq] at h
      subst h
      have hbase : r.base.toBitVec.toInt = r.base.toNat := by
        rw [BitVec.toInt_eq_toNat_of_lt]
        . rfl
        . rw [UInt64.toNat_toBitVec]
          omega
      have hlimit : r.limit.toBitVec.toInt = r.limit.toNat := by
        rw [BitVec.toInt_eq_toNat_of_lt]
        . rfl
        . rw [UInt64.toNat_toBitVec]
          omega
      constructor
      . simp only [hbase, IsLba]
        lia
      . simp only [hlimit, IsLba]
        omega
      . simp only [hbase, hlimit]
        omega
  next => contradiction

variable {data : PartData} {lba : Int} {count : Nat}

/--
Sector `n` of the device with all partitions belongs to the partition.
-/
def PartData.Has (data : PartData) (n : Int) : Prop := data.partBase ≤ n ∧ n ≤ data.partLimit

/--
Sector `n` is one of those that are asked for.
-/
def PartResult.Transfers (r : PartResult) (n : Int) : Prop :=
  ∃ start count, r.passed = some ⟨start, count⟩ ∧ start ≤ n ∧ n < start + count

/--
What is asked for belongs to the partition, and success is not reported if a sector of the partition
that was requested has not been asked for.
-/
def PartResult.Serves (data : PartData) (lba : Int) (count : Nat) (r : PartResult) : Prop :=
  (∀ n, r.Transfers n → data.Has n)
    ∧ (r.status = .success → ∀ n, data.Has n → data.partBase + lba ≤ n
      → n < data.partBase + lba + count → r.Transfers n)

/--
Both `read` and `write` serve a request, whatever the parent returns.
-/
def Serves (data : PartData) (lba : Int) (count : Nat) : Prop :=
  ∀ blkif, (∃ r, read data blkif lba count = some r ∧ r.Serves data lba count)
    ∧ ∃ r, write data blkif lba count = some r ∧ r.Serves data lba count

/--
There is a request for which `read` asks for sector `n`.
-/
def Reaches (data : PartData) (n : Int) : Prop :=
  ∃ blkif lba count r, IsLba lba ∧ count < 2 ^ 32 ∧ read data blkif lba count = some r
    ∧ r.Transfers n

section Transfer

variable {blkif : Int → Nat → Status}

theorem transfer_rejected (h : data.partLimit < lba)
    : transfer data blkif lba count = some ⟨.invalidValue, none⟩ := by
  unfold transfer
  rw [if_pos h]
  rfl

/--
What is passed on if `n` sectors are left.
-/
def resultOf (blkif : Int → Nat → Status) (start : Int) (n : Nat) : PartResult :=
  if n = 0 then ⟨.success, none⟩ else ⟨blkif start n, some ⟨start, n⟩⟩

theorem resultOf_transfers {start n : Int} {k : Nat}
    : (resultOf blkif start k).Transfers n ↔ start ≤ n ∧ n < start + k := by
  unfold resultOf PartResult.Transfers
  split
  next hzero =>
    constructor
    . intro ⟨_, _, hnone, _⟩
      contradiction
    . omega
  next hpos =>
    constructor
    . intro ⟨_, _, hsome, hle, hlt⟩
      simp only [Option.some.injEq, Prod.mk.injEq] at hsome
      rw [hsome.1, hsome.2]
      exact ⟨hle, hlt⟩
    . intro ⟨hle, hlt⟩
      exact ⟨start, k, rfl, hle, hlt⟩

theorem resultOf_status {start : Int} {k : Nat} : (resultOf (fun _ _ => .success) start k).status = .success := by
  unfold resultOf
  split <;> rfl

theorem lba?_of_isLba {n : Int} (h : IsLba n) : lba? n = some n := if_pos h

theorem transfer_within (h : lba ≤ data.partLimit) (hstart : IsLba (data.partBase + lba))
    (hlast : IsLba (data.partBase + lba + count)) (hwithin : data.partBase + lba + count ≤ data.partLimit)
    : transfer data blkif lba count = some (resultOf blkif (data.partBase + lba) count) := by
  unfold transfer resultOf
  rw [if_neg (by omega)]
  simp only [lba?_of_isLba hstart, lba?_of_isLba hlast, Option.pure_def, Option.bind_eq_bind,
    Option.bind_some]
  rw [if_neg (by omega)]
  simp only [Nat.lt_one_iff]
  split <;> rfl

theorem transfer_past (h : lba ≤ data.partLimit) (hstart : IsLba (data.partBase + lba))
    (hlast : IsLba (data.partBase + lba + count)) (hpast : data.partLimit < data.partBase + lba + count)
    (hexcess : IsLba (data.partBase + lba + count - data.partLimit)) (hcount : count < 2 ^ 32)
    : transfer data blkif lba count
        =
      some (resultOf blkif (data.partBase + lba)
        ((data.partLimit - (data.partBase + lba)) % 2 ^ 32).toNat) := by
  have hrest : (count : Int) - (data.partBase + lba + count - data.partLimit)
      = data.partLimit - (data.partBase + lba) := by
    omega
  have hlba : IsLba (data.partLimit - (data.partBase + lba)) := by
    unfold IsLba at *
    lia
  unfold transfer resultOf
  rw [if_neg (by omega)]
  simp only [lba?_of_isLba hstart, lba?_of_isLba hlast, Option.pure_def, Option.bind_eq_bind,
    Option.bind_some]
  rw [if_pos hpast]
  simp only [lba?_of_isLba hexcess, hrest, lba?_of_isLba hlba, Option.bind_some, Nat.lt_one_iff]
  split <;> rfl

theorem isLba_of_transfer {r : PartResult} (h : lba ≤ data.partLimit)
    (hr : transfer data blkif lba count = some r)
    : IsLba (data.partBase + lba) ∧ IsLba (data.partBase + lba + count)
        ∧ (data.partLimit < data.partBase + lba + count
          → IsLba (data.partBase + lba + count - data.partLimit)) := by
  unfold transfer at hr
  rw [if_neg (by omega)] at hr
  simp only [Option.pure_def, Option.bind_eq_bind] at hr
  rw [Option.bind_eq_some_iff] at hr
  obtain ⟨start, hstart, hr⟩ := hr
  unfold lba? at hstart
  split at hstart
  . next hstart' =>
    rw [Option.some.injEq] at hstart
    subst hstart
    rw [Option.bind_eq_some_iff] at hr
    obtain ⟨last, hlast, hr⟩ := hr
    unfold lba? at hlast
    split at hlast
    . next hlast' =>
      rw [Option.some.injEq] at hlast
      subst hlast
      refine ⟨hstart', hlast', ?_⟩
      intro hpast
      rw [if_pos hpast] at hr
      by_contra hexcess
      unfold lba? at hr
      rw [if_neg hexcess] at hr
      simp at hr
    . contradiction
  . contradiction

end Transfer

/--
The request is refused, it ends in front of the last sector, it is empty, or it starts behind the last
sector at a distance at which no sector is left after the reduction modulo 2 ^ 32.
-/
def ServedWhen (data : PartData) (lba : Int) (count : Nat) : Prop :=
  data.partLimit < lba
    ∨ (0 ≤ lba ∧ data.partBase + lba + count ≤ data.partLimit)
    ∨ (count = 0 ∧ IsLba (data.partBase + lba) ∧ data.partBase + lba ≤ data.partLimit)
    ∨ (data.partLimit < data.partBase + lba ∧ IsLba (data.partBase + lba + count)
      ∧ IsLba (data.partBase + lba + count - data.partLimit)
      ∧ (data.partLimit - (data.partBase + lba)) % 2 ^ 32 = 0)

theorem servedWhen_of_serves (hpart : IsPartition data) (hcount : count < 2 ^ 32)
    (h : Serves data lba count)
    : ServedWhen data lba count := by
  have hle := hpart.base_le_limit
  unfold ServedWhen
  by_cases hlba : data.partLimit < lba
  . exact .inl hlba
  have hlba := Int.not_lt.mp hlba
  obtain ⟨r, hr, hcontained, hcomplete⟩ := (h fun _ _ => .success).1
  unfold read at hr
  obtain ⟨hstart, hlast, hexcess⟩ := isLba_of_transfer hlba hr
  by_cases hpast : data.partLimit < data.partBase + lba + count
  . rw [transfer_past hlba hstart hlast hpast (hexcess hpast) hcount] at hr
    rw [Option.some.injEq] at hr
    subst hr
    by_cases hbehind : data.partLimit < data.partBase + lba
    . -- whatever is left is behind the last sector
      have hnone : ((data.partLimit - (data.partBase + lba)) % 2 ^ 32).toNat = 0 := by
        by_contra hne
        have hhas := hcontained (data.partBase + lba) (resultOf_transfers.2 ⟨by lia, by lia⟩)
        have := hhas.2
        omega
      exact .inr (.inr (.inr ⟨hbehind, hlast, hexcess hpast, by lia⟩))
    . -- the last sector has been requested and is not left
      have hbehind := Int.not_lt.mp hbehind
      have htransfers := hcomplete resultOf_status data.partLimit ⟨hle, Int.le_refl _⟩ hbehind hpast
      rw [resultOf_transfers] at htransfers
      lia
  . have hpast := Int.not_lt.mp hpast
    rw [transfer_within hlba hstart hlast hpast] at hr
    rw [Option.some.injEq] at hr
    subst hr
    by_cases hzero : count = 0
    . exact .inr (.inr (.inl ⟨hzero, hstart, by omega⟩))
    . have hhas := hcontained (data.partBase + lba) (resultOf_transfers.2 ⟨by omega, by omega⟩)
      have := hhas.1
      exact .inr (.inl ⟨by omega, by omega⟩)

theorem serves_of_transfer (h : ∀ blkif, ∃ r, transfer data blkif lba count = some r ∧ r.Serves data lba count)
    : Serves data lba count := by
  intro blkif
  exact ⟨h blkif, h blkif⟩

theorem serves_of_servedWhen (hpart : IsPartition data) (hcount : count < 2 ^ 32)
    (h : ServedWhen data lba count)
    : Serves data lba count := by
  obtain ⟨hbase, hlimit, hle⟩ := hpart
  unfold IsLba at hbase hlimit
  apply serves_of_transfer
  intro blkif
  by_cases hlba : data.partLimit < lba
  . refine ⟨_, transfer_rejected hlba, ?_, ?_⟩
    . intro n ⟨_, _, hnone, _⟩
      contradiction
    . intro hstatus
      contradiction
  have hlba := Int.not_lt.mp hlba
  obtain hlt | ⟨hnonneg, hend⟩ | ⟨hzero, hstart, hend⟩ | ⟨hbehind, hlast, hexcess, hrest⟩ := h
  . omega
  . refine ⟨_, transfer_within hlba (by unfold IsLba; lia) (by unfold IsLba; lia) hend, ?_, ?_⟩
    . intro n hn
      rw [resultOf_transfers] at hn
      exact ⟨by omega, by omega⟩
    . intro _ n _ hfrom hto
      exact resultOf_transfers.2 ⟨hfrom, hto⟩
  . subst hzero
    refine ⟨_, transfer_within hlba hstart (by unfold IsLba at *; omega) (by omega), ?_, ?_⟩
    . intro n hn
      rw [resultOf_transfers] at hn
      omega
    . intro _ n _ hfrom hto
      omega
  . refine ⟨_, transfer_past hlba (by unfold IsLba at *; lia) hlast (by lia) hexcess hcount, ?_, ?_⟩
    . intro n hn
      rw [resultOf_transfers] at hn
      lia
    . intro _ n hhas hfrom _
      have := hhas.2
      lia

theorem not_reaches_limit : ¬Reaches data data.partLimit := by
  intro ⟨blkif, lba, count, r, _, hcount, hr, htransfers⟩
  unfold read at hr
  by_cases hlba : data.partLimit < lba
  . rw [transfer_rejected hlba, Option.some.injEq] at hr
    subst hr
    obtain ⟨_, _, hnone, _⟩ := htransfers
    contradiction
  have hlba := Int.not_lt.mp hlba
  obtain ⟨hstart, hlast, hexcess⟩ := isLba_of_transfer hlba hr
  by_cases hpast : data.partLimit < data.partBase + lba + count
  . rw [transfer_past hlba hstart hlast hpast (hexcess hpast) hcount, Option.some.injEq] at hr
    subst hr
    rw [resultOf_transfers] at htransfers
    lia
  . rw [transfer_within hlba hstart hlast (Int.not_lt.mp hpast), Option.some.injEq] at hr
    subst hr
    rw [resultOf_transfers] at htransfers
    omega

/--
Requests are served under the condition above and no other, and no request reaches the last sector of a
partition.
-/
theorem serves_iff_servedWhen (data : PartData) (hpart : IsPartition data)
    : (∀ lba count, IsLba lba → count < 2 ^ 32
        → (Serves data lba count ↔ ServedWhen data lba count))
        ∧ ¬Reaches data data.partLimit := by
  constructor
  . intro lba count _ hcount
    constructor
    . exact servedWhen_of_serves hpart hcount
    . exact serves_of_servedWhen hpart hcount
  . exact not_reaches_limit

theorem serves_iff_servedWhen_first
    : Serves ⟨2048, 4095⟩ 0 1 ∧ ¬Reaches ⟨2048, 4095⟩ 4095 := by
  obtain ⟨hserves, hlimit⟩ := serves_iff_servedWhen ⟨2048, 4095⟩ ⟨by decide, by decide, by decide⟩
  constructor
  . exact (hserves 0 1 (by decide) (by decide)).mpr (.inr (.inl ⟨by decide, by decide⟩))
  . exact hlimit

/--
The last sector of the partition is neither read nor is there an error, and a request for the sector
behind it is passed on, with a count that has wrapped.
-/
theorem last_sector_not_read
    : IsPartition ⟨2048, 4095⟩
        ∧ read ⟨2048, 4095⟩ (fun _ _ => .success) 2047 1 = some ⟨.success, none⟩
        ∧ ¬Serves ⟨2048, 4095⟩ 2047 1
        ∧ write ⟨2048, 4095⟩ (fun _ _ => .success) 2048 1
          = some ⟨.success, some ⟨4096, 4294967295⟩⟩
        ∧ ¬Serves ⟨2048, 4095⟩ 2048 1 := by
  have hread : read ⟨2048, 4095⟩ (fun _ _ => .success) 2047 1 = some ⟨.success, none⟩ := by decide
  have hwrite : write ⟨2048, 4095⟩ (fun _ _ => .success) 2048 1
      = some ⟨.success, some ⟨4096, 4294967295⟩⟩ := by
    decide
  refine ⟨⟨by decide, by decide, by decide⟩, hread, ?_, hwrite, ?_⟩
  . intro h
    obtain ⟨r, hr, _, hcomplete⟩ := (h fun _ _ => .success).1
    rw [hread, Option.some.injEq] at hr
    subst hr
    obtain ⟨_, _, hnone, _⟩ := hcomplete rfl 4095 ⟨by decide, by decide⟩ (by decide) (by decide)
    contradiction
  . intro h
    obtain ⟨r, hr, hcontained, _⟩ := (h fun _ _ => .success).2
    rw [hwrite, Option.some.injEq] at hr
    subst hr
    have hhas := hcontained 4096 ⟨4096, 4294967295, rfl, by decide, by decide⟩
    exact absurd hhas.2 (by decide)

end Emos.Boot.Part
