import Emos.Boot.Block.Impl.Ata
import Emos.Lib.Packed12

/-!
This module contains for which sectors and counts the boot loader reads from an ATA disk what it was asked for.
-/

open Lib Lib.Ata

namespace Emos.Boot

theorem toNat_highByte (v : BitVec 16)
    : (highByte v).toNat = v.toNat / 256 := by
  have hv := v.isLt
  have hmask : v.toNat >>> 8 &&& 255 = v.toNat >>> 8 % 256 := land_mask _ 8
  simp only [highByte, BitVec.toNat_setWidth, BitVec.toNat_and, BitVec.toNat_ushiftRight, BitVec.toNat_ofNat]
  rw [Nat.mod_eq_of_lt (show 255 < 2 ^ 16 by decide), hmask, Nat.shiftRight_eq_div_pow]
  lia

theorem toNat_lowByte (v : BitVec 16)
    : (lowByte v).toNat = v.toNat % 256 := by
  have hmask : v.toNat &&& 255 = v.toNat % 256 := land_mask _ 8
  simp only [lowByte, BitVec.toNat_setWidth, BitVec.toNat_and, BitVec.toNat_ofNat]
  rw [Nat.mod_eq_of_lt (show 255 < 2 ^ 16 by decide), hmask]
  lia

variable {lba : BitVec 64}

theorem toNat_sshiftRight (h : lba.toNat < 2 ^ 48) (k : Nat)
    : (lba.sshiftRight k).toNat = lba.toNat / 2 ^ k := by
  have hmsb : lba.msb = false := by
    rw [BitVec.msb_eq_false_iff_two_mul_lt]
    omega
  rw [BitVec.sshiftRight_eq_of_msb_false hmsb, BitVec.toNat_ushiftRight, Nat.shiftRight_eq_div_pow]

theorem toNat_lbaByte (h : lba.toNat < 2 ^ 48) (k : Nat)
    : (lbaByte lba k).toNat = lba.toNat / 2 ^ k % 256 := by
  rw [lbaByte, BitVec.toNat_and, toNat_sshiftRight h]
  apply land_mask _ 8

theorem toNat_lbaByte_setWidth (h : lba.toNat < 2 ^ 48) (k : Nat)
    : ((lbaByte lba k).setWidth 16).toNat = lba.toNat / 2 ^ k % 256 := by
  rw [BitVec.toNat_setWidth, toNat_lbaByte h]
  lia

theorem toNat_two_bytes (h : lba.toNat < 2 ^ 48) (k l : Nat)
    : ((lbaByte lba k <<< 8 ||| lbaByte lba l).setWidth 16).toNat
        =
      lba.toNat / 2 ^ k % 256 * 256 + lba.toNat / 2 ^ l % 256 := by
  have hlow : lba.toNat / 2 ^ l % 256 < 2 ^ 8 := by omega
  have hhigh : lba.toNat / 2 ^ k % 256 < 2 ^ 8 := by omega
  rw [BitVec.toNat_setWidth, BitVec.toNat_or, BitVec.toNat_shiftLeft, toNat_lbaByte h, toNat_lbaByte h]
  generalize lba.toNat / 2 ^ k % 256 = a at hhigh ⊢
  generalize lba.toNat / 2 ^ l % 256 = b at hlow ⊢
  have hshift : a <<< 8 % 2 ^ 64 = a <<< 8 := by
    rw [Nat.shiftLeft_eq]
    lia
  rw [hshift, Nat.lor_comm, lor_shiftLeft hlow]
  lia

theorem two_bytes_div (a b : Nat) : (a * 256 + b % 256) / 256 = a := by
  rw [Nat.mul_comm, Nat.mul_add_div (by decide), Nat.div_eq_of_lt (Nat.mod_lt b (by decide)), Nat.add_zero]

theorem two_bytes_mod (a b : Nat) : (a * 256 + b % 256) % 256 = b % 256 := by
  rw [Nat.mul_comm, Nat.mul_add_mod, Nat.mod_mod]

/--
What the bits from `k` on stand for is the byte there and what stands behind it.
-/
theorem byte_add (n k : Nat) : n / 2 ^ (k + 8) * 2 ^ (k + 8) + n / 2 ^ k % 256 * 2 ^ k = n / 2 ^ k * 2 ^ k := by
  have hdiv : n / 2 ^ (k + 8) * 2 ^ (k + 8) = 256 * (n / 2 ^ k / 256) * 2 ^ k := by
    rw [Nat.pow_add, ← Nat.div_div_eq_div_mul, Nat.mul_comm 256, Nat.mul_assoc, Nat.mul_comm (2 ^ k)]
  rw [hdiv, ← Nat.add_mul, Nat.div_add_mod]

theorem six_bytes {n : Nat} (h : n < 2 ^ 48)
    : n / 2 ^ 40 % 256 * 2 ^ 40 + n / 2 ^ 32 % 256 * 2 ^ 32 + n / 2 ^ 24 % 256 * 2 ^ 24
        + n / 2 ^ 16 % 256 * 2 ^ 16 + n / 2 ^ 8 % 256 * 2 ^ 8 + n / 2 ^ 0 % 256
        =
      n := by
  have hzero : n / 2 ^ (40 + 8) = 0 := Nat.div_eq_of_lt h
  have hall : n / 2 ^ 0 = n := Nat.div_one n
  have h40 := byte_add n 40
  have h0 := byte_add n 0
  rw [hzero] at h40
  rw [hall] at h0 ⊢
  have h32 := byte_add n 32
  have h24 := byte_add n 24
  have h16 := byte_add n 16
  have h8 := byte_add n 8
  lia

/--
The low half of the device register, and the bit that tells that the address is the number of a sector.
-/
theorem driveHead_28 (h : lba.toNat < 2 ^ 28) (slave : Bool)
    : ((0x40#8 ||| if slave then 0x10#8 else 0x00#8) ||| (lba.sshiftRight 24 &&& 0xF#64).setWidth 8).toNat % 16
        = lba.toNat / 2 ^ 24
      ∧ ((0x40#8 ||| if slave then 0x10#8 else 0x00#8) ||| (lba.sshiftRight 24 &&& 0xF#64).setWidth 8).getLsbD 6
        = true := by
  have hnibble : (lba.sshiftRight 24 &&& 0xF#64).toNat = lba.toNat / 2 ^ 24 := by
    have hmask : lba.toNat / 2 ^ 24 &&& 15 = lba.toNat / 2 ^ 24 % 16 := land_mask _ 4
    rw [BitVec.toNat_and, toNat_sshiftRight (by omega)]
    change lba.toNat / 2 ^ 24 &&& 15 = _
    lia
  generalize hx : (lba.sshiftRight 24 &&& 0xF#64) = x at hnibble ⊢
  have hbyte : x.setWidth 8 = BitVec.ofNat 8 (lba.toNat / 2 ^ 24) := by
    apply BitVec.eq_of_toNat_eq
    rw [BitVec.toNat_setWidth, BitVec.toNat_ofNat, hnibble]
  rw [hbyte]
  have hlt : lba.toNat / 2 ^ 24 < 16 := by omega
  generalize lba.toNat / 2 ^ 24 = n at hlt ⊢
  revert n
  cases slave with
  | true => decide
  | false => decide

namespace sendCommandPioInput

theorem go_failed (n : Nat) (d : Disk)
    : (go n d).2.failed = d.failed := by
  induction n generalizing d with
  | zero => rfl
  | succ n ih =>
    rw [go]
    split
    . rfl
    . exact ih d.takeSector.2

/--
The loop reads exactly the sectors that the disk has to send.
-/
theorem go_iff (d : Disk) (sectors : List Nat)
    : (go sectors.length d).1 = sectors.map some ∧ (go sectors.length d).2.pending = [] ↔ d.pending = sectors := by
  induction sectors generalizing d with
  | nil => simp [go]
  | cons x sectors ih =>
    rw [List.length_cons, go]
    cases hpending : d.pending with
    | nil =>
      split
      . simp
      . simp [Disk.takeSector, hpending]
    | cons y rest =>
      have hready : ¬ d.status &&& 0x21#8 ≠ 0 := by
        simp [Disk.status, hpending]
      have htail := ih d.takeSector.2
      rw [if_neg hready]
      simp only [Disk.takeSector, hpending, List.tail_cons, List.head?_cons, List.map_cons, List.cons.injEq,
        Option.some.injEq] at htail ⊢
      rw [and_assoc, htail]

end sendCommandPioInput

/--
The rest of a command that the disk has accepted.
-/
theorem pioInput_iff {d d' : Disk} {cmd : AtaCommand} (hsend : sendCommand d cmd = (.success, d'))
    (sectors : List Nat) (hpos : 0 < sectors.length) (hfailed : d'.pending = sectors → d'.failed = false)
    : (∃ d'', sendCommandPioInput d cmd sectors.length = (.success, sectors.map some, d'') ∧ d''.pending = [])
        ↔
      d'.pending = sectors := by
  have hgo := sendCommandPioInput.go_iff d' sectors
  have hrun : sendCommandPioInput d cmd sectors.length
      = if (sendCommandPioInput.go sectors.length d').2.status &&& 0x21#8 ≠ 0 then
          (.hardwareFailed, sendCommandPioInput.go sectors.length d')
        else
          (.success, sendCommandPioInput.go sectors.length d') := by
    rw [sendCommandPioInput, hsend, max_eq_left hpos]
    rfl
  rw [hrun, ← hgo]
  constructor
  . intro ⟨d'', heq, hd''⟩
    split at heq
    . simp at heq
    . rw [Prod.mk.injEq] at heq
      rw [heq.2]
      exact ⟨rfl, hd''⟩
  . intro hend
    have hnot : (sendCommandPioInput.go sectors.length d').2.failed = false := by
      rw [sendCommandPioInput.go_failed]
      apply hfailed (hgo.mp hend)
    have hstatus : (sendCommandPioInput.go sectors.length d').2.status = 0x50#8 := by
      simp [Disk.status, hend.2, hnot]
    rw [hstatus, if_neg (by decide), ← hend.1]
    exact ⟨_, rfl, hend.2⟩

theorem device_fill (d : Disk) (cmd : AtaCommand)
    : (fillRegisters d cmd).device = cmd.driveHead := by
  unfold fillRegisters
  split
  . rfl
  . rfl

theorem lba28_fill (d : Disk) (cmd : AtaCommand)
    : (fillRegisters d cmd).lba28 = cmd.driveHead.toNat % 16 * 2 ^ 24 + cmd.cylinderHigh.toNat % 256 * 2 ^ 16
        + cmd.cylinderLow.toNat % 256 * 2 ^ 8 + cmd.sector.toNat % 256 := by
  unfold fillRegisters
  split
  . simp [Disk.lba28, Disk.out, Pair.push, toNat_lowByte]
  . simp [Disk.lba28, Disk.out, Pair.push, toNat_lowByte]

theorem toNat_count8_fill (d : Disk) (cmd : AtaCommand)
    : (fillRegisters d cmd).count.current = lowByte cmd.count := by
  unfold fillRegisters
  split
  . rfl
  . rfl

theorem lba48_fill (d : Disk) {cmd : AtaCommand} (hext : cmd.extended)
    : (fillRegisters d cmd).lba48 = cmd.cylinderHigh.toNat / 256 * 2 ^ 40 + cmd.cylinderLow.toNat / 256 * 2 ^ 32
        + cmd.sector.toNat / 256 * 2 ^ 24 + cmd.cylinderHigh.toNat % 256 * 2 ^ 16
        + cmd.cylinderLow.toNat % 256 * 2 ^ 8 + cmd.sector.toNat % 256 := by
  rw [fillRegisters, if_pos hext]
  simp [Disk.lba48, Disk.out, Pair.push, toNat_lowByte, toNat_highByte]

theorem count16_fill (d : Disk) {cmd : AtaCommand} (hext : cmd.extended)
    : (fillRegisters d cmd).count16 = if cmd.count.toNat = 0 then 65536 else cmd.count.toNat := by
  have hbytes : cmd.count.toNat / 256 * 256 + cmd.count.toNat % 256 = cmd.count.toNat := by omega
  rw [fillRegisters, if_pos hext]
  simp [Disk.count16, Disk.out, Pair.push, toNat_lowByte, toNat_highByte, hbytes]

/--
A command that reads sectors which exist is accepted.
-/
theorem sendCommand_start {d : Disk} {cmd : AtaCommand} {first n limit : Nat}
    (hexec : ∀ d', ((fillRegisters d' cmd).execute cmd.command) = (fillRegisters d' cmd).start first n limit)
    (hfirst : first < limit) (hn : 0 < n)
    : ∃ d', sendCommand d cmd = (.success, Disk.start d' first n limit) := by
  have hpending : ∀ d' : Disk, (d'.start first n limit).status = 0x58#8 := by
    intro d'
    rw [Disk.status, if_pos]
    simp only [Disk.start, ne_eq, List.range'_eq_nil_iff]
    omega
  refine ⟨fillRegisters (switchDevice d (cmd.driveHead &&& 0x10#8)) cmd, ?_⟩
  rw [sendCommand]
  simp only [Disk.out, hexec, hpending]
  simp

/--
A read for which the command gives the disk a first sector and a count.
-/
theorem pioInput_start {d d' : Disk} {cmd : AtaCommand} {first m limit : Nat}
    (hsend : sendCommand d cmd = (.success, Disk.start d' first m limit)) (hfirst : first < limit) (hm : 0 < m)
    {lba n : Nat} (hn : 0 < n) (hmn : m ≤ n)
    : (∃ d'', sendCommandPioInput d cmd n = (.success, (List.range' lba n).map some, d'') ∧ d''.pending = [])
        ↔
      first = lba ∧ m = n ∧ first + n ≤ limit := by
  have hiff := pioInput_iff hsend (List.range' lba n)
  rw [List.length_range'] at hiff
  rw [hiff hn]
  . rw [Disk.pending_start_iff d' hfirst hm]
    lia
  . rw [Disk.pending_start_iff d' hfirst hm]
    simp only [Disk.start, decide_eq_false_iff_not]
    lia

/--
The disk sends the sectors from `lba` on, as many as the driver reads, and then has nothing more to send.
-/
def ReadsSectors (d : Disk) (slave : Bool) (lba : BitVec 64) (count : Nat) : Prop :=
  ∃ d', ataRead d slave lba count = (.success, (List.range' lba.toNat (min count 65535)).map some, d')
    ∧ d'.pending = []

theorem slt_iff (h : lba.toNat < 2 ^ 48)
    : lba.slt (1#64 <<< 28) = true ↔ lba.toNat < 2 ^ 28 := by
  have hmsb : lba.msb = (1#64 <<< 28).msb := by
    rw [BitVec.msb_eq_false_iff_two_mul_lt.mpr (by omega)]
    decide
  rw [BitVec.slt_eq_ult_of_msb_eq hmsb, BitVec.ult, decide_eq_true_iff]
  rfl

theorem ataRead_eq (d : Disk) (slave : Bool) (lba : BitVec 64) (count : Nat)
    : ataRead d slave lba count
        =
      sendCommandPioInput d (readCommand slave lba (min count 65535)) (min count 65535) := by
  unfold ataRead
  by_cases hcount : count > 65535
  . rw [if_pos hcount, min_eq_right (by omega)]
  . rw [if_neg hcount, min_eq_left (by omega)]

/--
The 28 bits hold every address below 2^28, and the 8 bits of the count hold the numbers from 1 to 256.
-/
theorem readsSectors_28 (h : lba.toNat < 2 ^ 28) (d : Disk) (slave : Bool) {count : Nat} (hcount : 0 < count)
    : ReadsSectors d slave lba count ↔ min count 65535 ≤ 256 ∧ lba.toNat + min count 65535 ≤ 2 ^ 28 := by
  have hn : 0 < min count 65535 := by omega
  have hn' : min count 65535 < 2 ^ 16 := by omega
  unfold ReadsSectors
  rw [ataRead_eq]
  generalize min count 65535 = n at hn hn' ⊢
  obtain ⟨hdrive, hmode⟩ := driveHead_28 h slave
  have hlba : ∀ d', (fillRegisters d' (readCommand slave lba n)).lba28 = lba.toNat := by
    intro d'
    rw [lba28_fill, readCommand, if_pos ((slt_iff (by omega)).mpr h), hdrive,
      toNat_lbaByte_setWidth (by omega), toNat_lbaByte_setWidth (by omega), toNat_lbaByte_setWidth (by omega)]
    lia
  have hcount8 : ∀ d', (fillRegisters d' (readCommand slave lba n)).count8 = if n % 256 = 0 then 256 else n % 256 := by
    intro d'
    have hlow : (lowByte (BitVec.ofNat 16 n)).toNat = n % 256 := by
      rw [toNat_lowByte, BitVec.toNat_ofNat, Nat.mod_eq_of_lt hn']
    have hzero : lowByte (BitVec.ofNat 16 n) = 0 ↔ n % 256 = 0 := by
      rw [← hlow, ← BitVec.toNat_inj]
      rfl
    rw [Disk.count8, toNat_count8_fill, readCommand, if_pos ((slt_iff (by omega)).mpr h)]
    simp only [hzero, hlow]
  have hexec : ∀ d', (fillRegisters d' (readCommand slave lba n)).execute (readCommand slave lba n).command
      = (fillRegisters d' (readCommand slave lba n)).start lba.toNat (if n % 256 = 0 then 256 else n % 256) (2 ^ 28) := by
    intro d'
    rw [Disk.execute, hlba, hcount8, device_fill, readCommand, if_pos ((slt_iff (by omega)).mpr h), if_pos hmode]
    rfl
  obtain ⟨d', hsend⟩ := sendCommand_start (d := d) hexec h (by split <;> lia)
  rw [pioInput_start hsend h (by split <;> lia) hn (by split <;> lia)]
  split
  . lia
  . lia

/--
The 48 bits hold every address below 2^48, and the 16 bits of the count hold every count that the driver uses.
-/
theorem readsSectors_48 (hlarge : 2 ^ 28 ≤ lba.toNat) (h : lba.toNat < 2 ^ 48) (d : Disk) (slave : Bool)
    {count : Nat} (hcount : 0 < count)
    : ReadsSectors d slave lba count ↔ lba.toNat + min count 65535 ≤ 2 ^ 48 := by
  have hn : 0 < min count 65535 := by omega
  have hn' : min count 65535 < 2 ^ 16 := by omega
  unfold ReadsSectors
  rw [ataRead_eq]
  generalize min count 65535 = n at hn hn' ⊢
  have hslt : ¬ lba.slt (1#64 <<< 28) = true := by
    rw [slt_iff h]
    omega
  have hmode : (0x40#8 ||| if slave then 0x10#8 else 0x00#8).getLsbD 6 = true := by
    cases slave with
    | true => decide
    | false => decide
  have hext : (readCommand slave lba n).extended = true := by
    rw [readCommand, if_neg hslt]
  have hlba : ∀ d', (fillRegisters d' (readCommand slave lba n)).lba48 = lba.toNat := by
    intro d'
    rw [lba48_fill d' hext, readCommand, if_neg hslt, toNat_two_bytes h, toNat_two_bytes h, toNat_two_bytes h]
    simp only [two_bytes_div, two_bytes_mod]
    exact six_bytes h
  have hcount16 : ∀ d', (fillRegisters d' (readCommand slave lba n)).count16 = n := by
    intro d'
    rw [count16_fill d' hext, readCommand, if_neg hslt, BitVec.toNat_ofNat, Nat.mod_eq_of_lt hn', if_neg (by omega)]
  have hexec : ∀ d', (fillRegisters d' (readCommand slave lba n)).execute (readCommand slave lba n).command
      = (fillRegisters d' (readCommand slave lba n)).start lba.toNat n (2 ^ 48) := by
    intro d'
    rw [Disk.execute, hlba, hcount16, device_fill, readCommand, if_neg hslt, if_pos hmode]
    rfl
  obtain ⟨d', hsend⟩ := sendCommand_start (d := d) hexec h hn
  rw [pioInput_start hsend h hn hn (Nat.le_refl n)]
  omega

theorem ata_read_iff (h : lba.toNat < 2 ^ 48) (d : Disk) (slave : Bool) {count : Nat} (hcount : 0 < count)
    : ReadsSectors d slave lba count
        ↔
      (min count 65535 ≤ 256 ∧ lba.toNat + min count 65535 ≤ 2 ^ 28)
        ∨ (2 ^ 28 ≤ lba.toNat ∧ lba.toNat + min count 65535 ≤ 2 ^ 48) := by
  by_cases hsmall : lba.toNat < 2 ^ 28
  . rw [readsSectors_28 hsmall d slave hcount]
    lia
  . rw [readsSectors_48 (by omega) h d slave hcount]
    lia

/--
A disk to which nothing has been written.
-/
def idleDisk : Disk :=
  { features := ⟨0, 0⟩
    count := ⟨0, 0⟩
    lbaLow := ⟨0, 0⟩
    lbaMid := ⟨0, 0⟩
    lbaHigh := ⟨0, 0⟩
    device := 0
    pending := []
    failed := false }

theorem ata_read_iff_256 : ReadsSectors idleDisk false 100#64 256
    ↔ (min 256 65535 ≤ 256 ∧ (100#64).toNat + min 256 65535 ≤ 2 ^ 28)
        ∨ (2 ^ 28 ≤ (100#64).toNat ∧ (100#64).toNat + min 256 65535 ≤ 2 ^ 48) :=
  ata_read_iff (by decide) idleDisk false (by decide)

/--
The count register holds 1 for 257 sectors, so that the disk sends one.
-/
theorem ata_read_257 : ¬ ReadsSectors idleDisk false 0#64 257 := by
  rw [readsSectors_28 (by decide) idleDisk false (by decide)]
  decide

end Emos.Boot
