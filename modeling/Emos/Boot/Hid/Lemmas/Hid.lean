import Emos.Boot.Hid.Impl.Hid
import Emos.Lib.Trace

/-!
This module contains runs of a device whose buffer does not fill, and which events the mouse
delivers for the packets that it sends.
-/

open Lib

namespace Emos.Boot

/--
The bytes of the interrupts.
-/
def fed : List HidAction → List (BitVec 8)
  | [] => []
  | .isr byte :: as => byte :: fed as
  | .poll :: as => fed as

namespace HidRun

variable {Dev : Type} {seqbuf : Dev → Fifo (BitVec 8) 64} {isr : Dev → BitVec 8 → Dev}
  {pollEvent : Dev → Run (HidPoll × Dev)} {s t : HidRun Dev} {as : List HidAction} {bytes total : List (BitVec 8)}

/--
An interrupt does not find the buffer full.
-/
def HasRoom (seqbuf : Dev → Fifo (BitVec 8) 64) (s : HidRun Dev) (a : HidAction) : Prop :=
  a ≠ .poll → (seqbuf s.dev).count + 1 < 64

instance (s : HidRun Dev) (a : HidAction) : Decidable (HasRoom seqbuf s a) :=
  inferInstanceAs (Decidable (_ → _))

/--
What interrupts with the bytes of a string, in order, and all polls preserve holds at the end of a run.
-/
theorem steps_of_invariant {I : HidRun Dev → List (BitVec 8) → Prop}
    (hisr : ∀ s bytes byte t, I s bytes → bytes ++ [byte] <+: total → (seqbuf s.dev).count + 1 < 64
      → s.step seqbuf isr pollEvent (.isr byte) = .ok t → I t (bytes ++ [byte]))
    (hpoll : ∀ s bytes, I s bytes → bytes <+: total
      → ∃ t, s.step seqbuf isr pollEvent .poll = .ok t ∧ I t bytes)
    (hs : I s bytes) (hbytes : bytes ++ fed as <+: total)
    (hroom : Along (HidRun.step seqbuf isr pollEvent) (HasRoom seqbuf) s as)
    : ∃ t, s.steps seqbuf isr pollEvent as = .ok t ∧ I t (bytes ++ fed as) := by
  induction as generalizing s bytes with
  | nil =>
    refine ⟨s, rfl, ?_⟩
    rwa [fed, List.append_nil]
  | cons a as ih =>
    cases a with
    | isr byte =>
      rw [fed, List.append_cons] at hbytes ⊢
      obtain ⟨t, ht⟩ : ∃ t, s.step seqbuf isr pollEvent (.isr byte) = .ok t := ⟨_, rfl⟩
      have hnext := hisr s bytes byte t hs ((List.prefix_append _ _).trans hbytes) (hroom.1 nofun) ht
      obtain ⟨u, hu, hI⟩ := ih hnext hbytes (hroom.2 t ht)
      exact ⟨u, (bind_eq_ok _ _ _).mpr ⟨t, ht, hu⟩, hI⟩
    | poll =>
      rw [fed] at hbytes ⊢
      obtain ⟨t, ht, hnext⟩ := hpoll s bytes hs ((List.prefix_append _ _).trans hbytes)
      obtain ⟨u, hu, hI⟩ := ih hnext hbytes (hroom.2 t ht)
      exact ⟨u, (bind_eq_ok _ _ _).mpr ⟨t, ht, hu⟩, hI⟩

theorem moved_self {i : Nat} : moved i i = 0 := by
  unfold moved
  omega

theorem moved_advance {f : Fifo (BitVec 8) 64} {n : Nat} (h : f.Valid) (hn : n < 64)
    : moved f.start (f.advance n).start = n := by
  have := h.start_lt
  change ((f.start + n) % 64 + 64 - f.start) % 64 = n
  lia

theorem moved_push {f : Fifo (BitVec 8) 64} (h : f.Valid) (byte : BitVec 8)
    : moved f.stop (f.push byte).stop + f.count = (f.push byte).count := by
  by_cases hroom : f.count + 1 < 64
  . have hstop := h.stop_lt
    have hfull : ¬ (f.stop + 1) % 64 = f.start := by
      rw [h.full_iff]
      omega
    rw [h.count_push byte hroom]
    unfold Fifo.push
    rw [if_neg hfull]
    change ((f.stop + 1) % 64 + 64 - f.stop) % 64 + f.count = _
    lia
  . have hlt := h.count_lt
    rw [Fifo.push_of_full h (by omega), moved_self, Nat.zero_add]

end HidRun

namespace Ps2Mouse

variable {prev byte mask other : BitVec 8} {s t : HidRun Ps2Mouse} {dev : Ps2Mouse}
  {sent rest : List (BitVec 8)} {todo : List HidEvent}

/--
A packet in which nothing has overflowed.
-/
structure Packet where
  first : BitVec 8
  x : BitVec 8
  y : BitVec 8
  always_one : first &&& 0x08 ≠ 0
  no_overflow : first &&& 0xC0 = 0

/--
A movement of 9 bits in two's complement, of which the sign is in the first byte.
-/
def movement (first sign byte : BitVec 8) : Int := if first &&& sign ≠ 0 then byte.toNat - 256 else byte.toNat

/--
The event of a movement has its magnitude, and a flag for its sign.
-/
def movementEvent (flag : BitVec 16) (delta : Int) : HidEvent :=
  ⟨BitVec.ofNat 16 delta.natAbs, if delta < 0 then flag ||| keyFlagNegative else flag⟩

def changes (prev first mask : BitVec 8) (key : BitVec 16) : List HidEvent :=
  if first &&& mask ≠ prev &&& mask then [⟨key, buttonFlags first mask⟩] else []

namespace Packet

def bytes (p : Packet) : List (BitVec 8) := [p.first, p.x, p.y]

def moves (p : Packet) : List HidEvent :=
  [movementEvent keyFlagXMove (movement p.first 0x10 p.x), movementEvent keyFlagYMove (movement p.first 0x20 p.y)]

/--
The buttons that differ from a previous state, in the order in which they are delivered.
-/
def buttons (prev : BitVec 8) (p : Packet) : List HidEvent :=
  changes prev p.first 0x04 keyMouseBtnM ++ changes prev p.first 0x02 keyMouseBtnR
    ++ changes prev p.first 0x01 keyMouseBtnL

end Packet

/--
The events of packets one after the other, where `prev` has the buttons in front of the first one.
-/
def expected : BitVec 8 → List Packet → List HidEvent
  | _, [] => []
  | prev, p :: ps => p.buttons prev ++ p.moves ++ expected p.first ps

theorem setButton_and_self : setButton prev byte mask &&& mask = byte &&& mask := by
  unfold setButton
  ext i hi
  simp only [BitVec.getElem_and, BitVec.getElem_or, BitVec.getElem_not]
  cases prev[i] <;> cases byte[i] <;> cases mask[i] <;> rfl

theorem setButton_and_of_ne (h : mask &&& other = 0) : setButton prev byte mask &&& other = prev &&& other := by
  unfold setButton
  ext i hi
  have hbit : (mask[i] && other[i]) = false := by
    rw [← BitVec.getElem_and]
    simp [h]
  simp only [BitVec.getElem_and, BitVec.getElem_or, BitVec.getElem_not]
  revert hbit
  cases prev[i] <;> cases byte[i] <;> cases mask[i] <;> cases other[i] <;> simp

theorem changes_of_eq {key : BitVec 16} (h : byte &&& mask = prev &&& mask) : changes prev byte mask key = [] :=
  if_neg (fun hne => hne h)

theorem changes_congr {key : BitVec 16} (h : prev &&& mask = other &&& mask)
    : changes prev byte mask key = changes other byte mask key := by
  unfold changes
  rw [h]

theorem changes_setButton_self {key : BitVec 16} : changes (setButton prev byte mask) byte mask key = [] :=
  changes_of_eq setButton_and_self.symm

theorem changes_setButton_of_ne {key : BitVec 16} (h : mask &&& other = 0)
    : changes (setButton prev byte mask) byte other key = changes prev byte other key :=
  changes_congr (setButton_and_of_ne h)

theorem buttons_congr {a b : BitVec 8} (h : ∀ mask ∈ [(0x04 : BitVec 8), 0x02, 0x01], a &&& mask = b &&& mask)
    (p : Packet)
    : p.buttons a = p.buttons b := by
  unfold Packet.buttons
  rw [changes_congr (h 0x04 (by simp)), changes_congr (h 0x02 (by simp)), changes_congr (h 0x01 (by simp))]

theorem expected_congr {a b : BitVec 8} (h : ∀ mask ∈ [(0x04 : BitVec 8), 0x02, 0x01], a &&& mask = b &&& mask)
    (ps : List Packet)
    : expected a ps = expected b ps := by
  cases ps with
  | nil => rfl
  | cons p ps => rw [expected, expected, buttons_congr h]

/--
Where the device is in the packets that are not consumed yet, and the events that are not delivered yet.
-/
inductive Phase (dev : Ps2Mouse) : List (BitVec 8) → List HidEvent → Prop
  | default (ps : List Packet) (hstate : dev.seqState = .default)
    : Phase dev (ps.flatMap Packet.bytes) (expected dev.prevButtonState ps)
  | xMovement (p : Packet) (ps : List Packet) (hstate : dev.seqState = .xMovement) (hfirst : dev.byte0 = p.first)
    : Phase dev (p.x :: p.y :: ps.flatMap Packet.bytes) (p.moves ++ expected dev.prevButtonState ps)
  | yMovement (p : Packet) (ps : List Packet) (hstate : dev.seqState = .yMovement) (hfirst : dev.byte0 = p.first)
    : Phase dev (p.y :: ps.flatMap Packet.bytes)
        (movementEvent keyFlagYMove (movement p.first 0x20 p.y) :: expected dev.prevButtonState ps)

/--
The key and the flags that are returned for a movement are its magnitude and its sign.
-/
theorem movementEvent_eq (flag : BitVec 16) (first sign byte : BitVec 8)
    : movementEvent flag (movement first sign byte)
        = if first &&& sign ≠ 0 then
            ⟨0x100 - byte.setWidth 16, flag ||| keyFlagNegative⟩
          else
            ⟨byte.setWidth 16, flag⟩ := by
  have hlt := byte.isLt
  unfold movementEvent movement
  split
  . rw [if_pos (by omega)]
    congr 1
    apply BitVec.eq_of_toNat_eq
    rw [BitVec.toNat_ofNat, BitVec.toNat_sub, BitVec.toNat_setWidth]
    change _ = (2 ^ 16 - byte.toNat % 2 ^ 16 + 256) % 2 ^ 16
    lia
  . rw [if_neg (by omega), Int.natAbs_natCast, BitVec.ofNat_toNat]

theorem and_eq_zero_of_no_overflow (p : Packet) (h : (0xC0 : BitVec 8) &&& mask = mask) : p.first &&& mask = 0 := by
  rw [← h, ← BitVec.and_assoc, p.no_overflow]
  exact BitVec.zero_and

theorem pollMovement_of_packet {p : Packet} {overflow sign : BitVec 8} {flag : BitVec 16} {next : SequenceState}
    (hfirst : dev.byte0 = p.first) (hoverflow : (0xC0 : BitVec 8) &&& overflow = overflow)
    : dev.pollMovement byte overflow sign flag next
        = (.event (movementEvent flag (movement p.first sign byte)),
          { dev with seqState := next, seqbuf := dev.seqbuf.advance 1 }) := by
  unfold pollMovement
  rw [hfirst, and_eq_zero_of_no_overflow p hoverflow, if_neg (fun h => h rfl), movementEvent_eq]

/--
A poll delivers the next event, or consumes the first byte of a packet whose buttons are all delivered.
-/
def Polled (dev : Ps2Mouse) (byte : BitVec 8) (rest : List (BitVec 8)) (todo : List HidEvent)
    (polled : HidPoll × Ps2Mouse) : Prop :=
  ∃ todo', todo = HidRun.deliver [] polled.1 ++ todo'
    ∧ ((polled.2.seqbuf = dev.seqbuf ∧ todo'.length < todo.length ∧ Phase polled.2 (byte :: rest) todo')
      ∨ (polled.2.seqbuf = dev.seqbuf.advance 1 ∧ Phase polled.2 rest todo'))

theorem changes_of_ne {key : BitVec 16} (h : byte &&& mask ≠ prev &&& mask)
    : changes prev byte mask key = [⟨key, buttonFlags byte mask⟩] :=
  if_pos h

/--
The button in the middle comes first, then the right one and the left one.
-/
theorem buttons_of_middle {p : Packet} (h : p.first &&& 0x04 ≠ prev &&& 0x04)
    : p.buttons prev = ⟨keyMouseBtnM, buttonFlags p.first 0x04⟩ :: p.buttons (setButton prev p.first 0x04) := by
  unfold Packet.buttons
  rw [changes_of_ne h, changes_setButton_self, changes_setButton_of_ne (by decide),
    changes_setButton_of_ne (by decide)]
  rfl

theorem buttons_of_right {p : Packet} (hm : p.first &&& 0x04 = prev &&& 0x04) (h : p.first &&& 0x02 ≠ prev &&& 0x02)
    : p.buttons prev = ⟨keyMouseBtnR, buttonFlags p.first 0x02⟩ :: p.buttons (setButton prev p.first 0x02) := by
  unfold Packet.buttons
  rw [changes_of_eq hm, changes_of_ne h, changes_setButton_self, changes_setButton_of_ne (by decide),
    changes_setButton_of_ne (by decide), changes_of_eq hm]
  rfl

theorem buttons_of_left {p : Packet} (hm : p.first &&& 0x04 = prev &&& 0x04) (hr : p.first &&& 0x02 = prev &&& 0x02)
    (h : p.first &&& 0x01 ≠ prev &&& 0x01)
    : p.buttons prev = ⟨keyMouseBtnL, buttonFlags p.first 0x01⟩ :: p.buttons (setButton prev p.first 0x01) := by
  unfold Packet.buttons
  rw [changes_of_eq hm, changes_of_eq hr, changes_of_ne h, changes_setButton_self, changes_setButton_of_ne (by decide),
    changes_setButton_of_ne (by decide), changes_of_eq hm, changes_of_eq hr]
  rfl

theorem polled_button {p : Packet} {ps : List Packet} {key : BitVec 16} (hstate : dev.seqState = .default)
    (h : p.buttons dev.prevButtonState
      = ⟨key, buttonFlags p.first mask⟩ :: p.buttons (setButton dev.prevButtonState p.first mask))
    : Polled dev p.first (p.x :: p.y :: ps.flatMap Packet.bytes) (expected dev.prevButtonState (p :: ps))
        (dev.pollButton p.first mask key) := by
  have htodo : expected dev.prevButtonState (p :: ps)
      = ⟨key, buttonFlags p.first mask⟩ :: expected (setButton dev.prevButtonState p.first mask) (p :: ps) := by
    rw [expected, expected, h]
    rfl
  refine ⟨expected (setButton dev.prevButtonState p.first mask) (p :: ps), htodo, .inl ⟨rfl, ?_, ?_⟩⟩
  . rw [htodo]
    exact Nat.lt_succ_self _
  . exact .default (p :: ps) hstate

theorem pollDefault_polled (p : Packet) (ps : List Packet) (hstate : dev.seqState = .default)
    : Polled dev p.first (p.x :: p.y :: ps.flatMap Packet.bytes) (expected dev.prevButtonState (p :: ps))
        (dev.pollDefault p.first) := by
  unfold pollDefault
  rw [if_pos ⟨p.always_one, p.no_overflow⟩]
  by_cases hm : p.first &&& 0x04 = dev.prevButtonState &&& 0x04
  . rw [if_neg (fun h => h hm)]
    by_cases hr : p.first &&& 0x02 = dev.prevButtonState &&& 0x02
    . rw [if_neg (fun h => h hr)]
      by_cases hl : p.first &&& 0x01 = dev.prevButtonState &&& 0x01
      . rw [if_neg (fun h => h hl)]
        refine ⟨p.moves ++ expected dev.prevButtonState ps, ?_, .inr ⟨rfl, .xMovement p ps rfl rfl⟩⟩
        have hsame : ∀ mask ∈ [(0x04 : BitVec 8), 0x02, 0x01], p.first &&& mask = dev.prevButtonState &&& mask := by
          simp only [List.forall_mem_cons]
          exact ⟨hm, hr, hl, nofun⟩
        rw [expected, Packet.buttons, changes_of_eq hm, changes_of_eq hr, changes_of_eq hl, expected_congr hsame]
        rfl
      . rw [if_pos hl]
        exact polled_button hstate (buttons_of_left hm hr hl)
    . rw [if_pos hr]
      exact polled_button hstate (buttons_of_right hm hr)
  . rw [if_pos hm]
    exact polled_button hstate (buttons_of_middle hm)

theorem Phase.poll (h : Phase dev (byte :: rest) todo) (hne : dev.seqbuf.start ≠ dev.seqbuf.stop)
    (hfront : dev.seqbuf.front = byte)
    : ∃ polled, dev.pollEvent = .ok polled ∧ Polled dev byte rest todo polled := by
  subst hfront
  unfold pollEvent
  rw [if_neg hne]
  generalize hall : dev.seqbuf.front :: rest = all at h
  cases h with
  | default ps hstate =>
    rw [hstate]
    cases ps with
    | nil => contradiction
    | cons p ps =>
      obtain ⟨hfirst, rfl⟩ := List.cons.inj hall
      rw [hfirst]
      exact ⟨_, rfl, pollDefault_polled p ps hstate⟩
  | xMovement p ps hstate hbyte0 =>
    obtain ⟨hx, rfl⟩ := List.cons.inj hall
    rw [hstate, hx]
    refine ⟨_, rfl, ?_⟩
    rw [pollMovement_of_packet hbyte0 (by decide)]
    exact ⟨_, rfl, .inr ⟨rfl, .yMovement p ps rfl hbyte0⟩⟩
  | yMovement p ps hstate hbyte0 =>
    obtain ⟨hy, rfl⟩ := List.cons.inj hall
    rw [hstate, hy]
    refine ⟨_, rfl, ?_⟩
    rw [pollMovement_of_packet hbyte0 (by decide)]
    exact ⟨_, rfl, .inr ⟨rfl, .default ps rfl⟩⟩

theorem Phase.isr (h : Phase dev rest todo) (byte : BitVec 8) : Phase (dev.mouseIsr byte) rest todo := by
  cases h with
  | default ps hstate => exact .default ps hstate
  | xMovement p ps hstate hbyte0 => exact .xMovement p ps hstate hbyte0
  | yMovement p ps hstate hbyte0 => exact .yMovement p ps hstate hbyte0

/--
How many bytes of a packet are consumed in a state.
-/
def SequenceState.index : SequenceState → Nat
  | .default => 0
  | .xMovement => 1
  | .yMovement => 2
  | .zMovement => 3

theorem length_packets (ps : List Packet) : (ps.flatMap Packet.bytes).length = 3 * ps.length := by
  induction ps with
  | nil => rfl
  | cons p ps ih =>
    rw [List.flatMap_cons, List.length_append, ih, List.length_cons]
    change 3 + 3 * ps.length = _
    omega

theorem Phase.length (h : Phase dev rest todo) : (rest.length + dev.seqState.index) % 3 = 0 := by
  cases h with
  | default ps hstate =>
    rw [hstate, length_packets]
    exact Nat.mul_mod_right 3 ps.length
  | xMovement p ps hstate hbyte0 =>
    rw [hstate, List.length_cons, List.length_cons, length_packets]
    change (3 * ps.length + 1 + 1 + 1) % 3 = 0
    lia
  | yMovement p ps hstate hbyte0 =>
    rw [hstate, List.length_cons, length_packets]
    change (3 * ps.length + 1 + 2) % 3 = 0
    omega

theorem Phase.index_lt (h : Phase dev rest todo) : dev.seqState.index < 3 := by
  cases h with
  | default ps hstate | xMovement p ps hstate hbyte0 | yMovement p ps hstate hbyte0 =>
    rw [hstate]
    decide

theorem Phase.nil (h : Phase dev [] todo) : todo = [] ∧ dev.seqState = .default := by
  generalize hrest : ([] : List (BitVec 8)) = rest at h
  cases h with
  | default ps hstate =>
    cases ps with
    | nil => exact ⟨rfl, hstate⟩
    | cons p ps => contradiction
  | xMovement p ps hstate hbyte0 => contradiction
  | yMovement p ps hstate hbyte0 => contradiction

variable {total : List (BitVec 8)} {all : List HidEvent} {ps : List Packet}

/--
What is in the buffer and what is still to be sent continue the packets where the device is in them.
-/
structure Synced (total : List (BitVec 8)) (all : List HidEvent) (s : HidRun Ps2Mouse) (sent : List (BitVec 8)) :
    Prop where
  valid : s.dev.seqbuf.Valid
  phase : ∃ future todo, total = sent ++ future ∧ Phase s.dev (s.dev.seqbuf.contents ++ future) todo
    ∧ all = s.delivered ++ todo ∧ s.consumed + (s.dev.seqbuf.contents ++ future).length = total.length

theorem Synced.isr (h : Synced total all s sent) (hstart : sent ++ [byte] <+: total)
    (hroom : s.dev.seqbuf.count + 1 < 64) (ht : step s (.isr byte) = .ok t)
    : Synced total all t (sent ++ [byte]) := by
  cases ht
  obtain ⟨future, todo, htotal, hphase, hall, hlength⟩ := h.phase
  obtain ⟨future', hfuture⟩ := hstart
  rw [htotal, List.append_assoc] at hfuture
  obtain rfl := List.append_cancel_left hfuture
  have hcontents : (s.dev.mouseIsr byte).seqbuf.contents = s.dev.seqbuf.contents ++ [byte] :=
    h.valid.contents_push byte hroom
  refine ⟨h.valid.push byte, future', todo, ?_, ?_, hall, ?_⟩
  . rw [htotal, List.append_assoc]
  . dsimp only
    rw [hcontents, List.append_assoc]
    exact hphase.isr byte
  . dsimp only
    rw [hcontents, List.append_assoc]
    exact hlength

theorem deliver_eq (delivered : List HidEvent) (result : HidPoll)
    : HidRun.deliver delivered result = delivered ++ HidRun.deliver [] result := by
  cases result <;> simp [HidRun.deliver]

/--
The events that are not delivered and the bytes that are not consumed.
-/
def pending (all : List HidEvent) (s : HidRun Ps2Mouse) : Nat :=
  all.length - s.delivered.length + s.dev.seqbuf.count

theorem pending_eq (h : all = s.delivered ++ todo) : pending all s = todo.length + s.dev.seqbuf.count := by
  unfold pending
  rw [h, List.length_append, Nat.add_sub_cancel_left]

theorem Synced.poll (h : Synced total all s sent)
    : ∃ t, step s .poll = .ok t ∧ Synced total all t sent
        ∧ (s.dev.seqbuf.start ≠ s.dev.seqbuf.stop → pending all t < pending all s) := by
  obtain ⟨future, todo, htotal, hphase, hall, hlength⟩ := h.phase
  by_cases hempty : s.dev.seqbuf.start = s.dev.seqbuf.stop
  . have hpoll : s.dev.pollEvent = .ok (.noEvent, s.dev) := if_pos hempty
    refine ⟨_, (bind_eq_ok _ _ _).mpr ⟨_, hpoll, rfl⟩, ⟨h.valid, future, todo, htotal, hphase, hall, ?_⟩,
      fun hne => absurd hempty hne⟩
    dsimp only
    rw [HidRun.moved_self]
    exact hlength
  . have hcontents := h.valid.contents_eq_cons hempty
    rw [hcontents, List.cons_append] at hphase hlength
    obtain ⟨⟨result, dev⟩, hpoll, todo', htodo, hnext⟩ := hphase.poll hempty rfl
    dsimp only at htodo hnext
    refine ⟨_, (bind_eq_ok _ _ _).mpr ⟨_, hpoll, rfl⟩, ?_⟩
    have hdelivered : all = HidRun.deliver s.delivered result ++ todo' := by
      rw [hall, htodo, deliver_eq s.delivered result, List.append_assoc]
    have hle : todo'.length ≤ todo.length := by
      rw [htodo, List.length_append]
      exact Nat.le_add_left _ _
    rw [pending_eq hall, pending_eq hdelivered]
    obtain ⟨hseqbuf, hlt, hphase'⟩ | ⟨hseqbuf, hphase'⟩ := hnext
    . have hsame : dev.seqbuf.contents = s.dev.seqbuf.front :: (s.dev.seqbuf.advance 1).contents := by
        rw [hseqbuf, hcontents]
      refine ⟨⟨by dsimp only; rw [hseqbuf]; exact h.valid, future, todo', htotal, ?_, hdelivered, ?_⟩, fun _ => ?_⟩
      . dsimp only
        rw [hsame]
        exact hphase'
      . dsimp only
        rw [hsame, hseqbuf, HidRun.moved_self]
        exact hlength
      . dsimp only
        rw [hseqbuf]
        exact Nat.add_lt_add_right hlt _
    . refine ⟨⟨by dsimp only; rw [hseqbuf]; exact h.valid.advance 1, future, todo', htotal, ?_, hdelivered, ?_⟩,
        fun _ => ?_⟩
      . dsimp only
        rw [hseqbuf]
        exact hphase'
      . dsimp only
        rw [hseqbuf, HidRun.moved_advance h.valid (by decide)]
        rw [List.length_cons] at hlength
        omega
      . have hpos : 0 < s.dev.seqbuf.count := Nat.pos_of_ne_zero (fun h0 => hempty (h.valid.count_eq_zero.mp h0))
        dsimp only
        rw [hseqbuf, h.valid.count_advance hpos]
        omega

/--
The bytes that have arrived are consumed by enough polls.
-/
theorem Synced.drain (h : Synced total all s sent)
    : ∃ n t, steps s (List.replicate n .poll) = .ok t ∧ Synced total all t sent
        ∧ t.dev.seqbuf.start = t.dev.seqbuf.stop := by
  generalize hn : pending all s = n
  induction n using Nat.strongRecOn generalizing s with
  | ind n ih =>
    by_cases hempty : s.dev.seqbuf.start = s.dev.seqbuf.stop
    . exact ⟨0, s, rfl, h, hempty⟩
    . obtain ⟨t, ht, hsynced, hlt⟩ := h.poll
      obtain ⟨m, u, hu, hfinal⟩ := ih _ (hn ▸ hlt hempty) hsynced rfl
      exact ⟨m + 1, u, (bind_eq_ok _ _ _).mpr ⟨t, ht, hu⟩, hfinal⟩

theorem Synced.framed (h : Synced (ps.flatMap Packet.bytes) all s sent)
    : s.consumed % 3 = s.dev.seqState.index := by
  obtain ⟨future, todo, htotal, hphase, hall, hlength⟩ := h.phase
  have hmod := hphase.length
  have hindex := hphase.index_lt
  rw [length_packets] at hlength
  lia

theorem Synced.finished (h : Synced total all s total) (hempty : s.dev.seqbuf.start = s.dev.seqbuf.stop)
    : s.delivered = all ∧ s.dev.seqState = .default := by
  obtain ⟨future, todo, htotal, hphase, hall, hlength⟩ := h.phase
  obtain rfl : future = [] := List.self_eq_append_right.mp htotal
  rw [h.valid.contents_eq_nil.mpr hempty] at hphase
  obtain ⟨rfl, hstate⟩ := hphase.nil
  rw [List.append_nil] at hall
  exact ⟨hall.symm, hstate⟩

theorem synced_probe (slots : Nat → BitVec 8) (prev byte0 : BitVec 8) (ps : List Packet)
    : Synced (ps.flatMap Packet.bytes) (expected prev ps) (.start (probe slots prev byte0)) [] := by
  have hvalid : (probe slots prev byte0).seqbuf.Valid := ⟨Nat.zero_lt_succ _, Nat.zero_lt_succ _⟩
  have hcontents : (probe slots prev byte0).seqbuf.contents = [] := hvalid.contents_eq_nil.mpr rfl
  refine ⟨hvalid, ps.flatMap Packet.bytes, expected prev ps, rfl, ?_, rfl, ?_⟩
  . change Phase _ ((probe slots prev byte0).seqbuf.contents ++ _) _
    rw [hcontents]
    exact .default ps rfl
  . change 0 + ((probe slots prev byte0).seqbuf.contents ++ _).length = _
    rw [hcontents, Nat.zero_add]
    rfl

/--
Whenever packets are sent and the buffer does not fill, the events of their buttons and movements are
delivered in order, all of them once everything is consumed, which enough polls do, and the state is always
the one of the next byte.
-/
theorem mouse_delivers (slots : Nat → BitVec 8) (prev byte0 : BitVec 8) (ps : List Packet) (as : List HidAction)
    (hfed : fed as <+: ps.flatMap Packet.bytes)
    (hroom : Along step (HidRun.HasRoom seqbuf) (.start (probe slots prev byte0)) as)
    : ∃ t, steps (.start (probe slots prev byte0)) as = .ok t ∧ t.delivered <+: expected prev ps
        ∧ t.consumed % 3 = t.dev.seqState.index
        ∧ (fed as = ps.flatMap Packet.bytes →
            (t.dev.seqbuf.start = t.dev.seqbuf.stop → t.delivered = expected prev ps ∧ t.dev.seqState = .default)
              ∧ ∃ n u, steps t (List.replicate n .poll) = .ok u ∧ u.delivered = expected prev ps
                ∧ u.dev.seqState = .default) := by
  obtain ⟨t, ht, hsynced⟩ := HidRun.steps_of_invariant (fun s bytes byte t h hle hroom ht => h.isr hle hroom ht)
    (fun s bytes h _ => h.poll.imp fun t ht => ⟨ht.1, ht.2.1⟩) (synced_probe slots prev byte0 ps) hfed hroom
  rw [List.nil_append] at hsynced
  refine ⟨t, ht, ?_, hsynced.framed, ?_⟩
  . obtain ⟨future, todo, htotal, hphase, hall, hlength⟩ := hsynced.phase
    rw [hall]
    exact List.prefix_append _ _
  . intro heq
    rw [heq] at hsynced
    refine ⟨hsynced.finished, ?_⟩
    obtain ⟨n, u, hu, hdrained, hempty⟩ := hsynced.drain
    exact ⟨n, u, hu, hdrained.finished hempty⟩

/--
The left button is pressed while the mouse moves by -1 and 2, and the bytes arrive between the polls.
-/
theorem mouse_delivers_packet
    : ∃ t, steps (.start (probe (fun _ => 0) 0 0)) [.isr 0x19, .poll, .poll, .isr 0xFF, .poll, .isr 0x02] = .ok t
        ∧ t.delivered <+: expected 0 [⟨0x19, 0xFF, 0x02, by decide, by decide⟩]
        ∧ t.consumed % 3 = t.dev.seqState.index
        ∧ (fed [.isr 0x19, .poll, .poll, .isr 0xFF, .poll, .isr 0x02] = [0x19, 0xFF, 0x02] →
            (t.dev.seqbuf.start = t.dev.seqbuf.stop →
              t.delivered = expected 0 [⟨0x19, 0xFF, 0x02, by decide, by decide⟩] ∧ t.dev.seqState = .default)
              ∧ ∃ n u, steps t (List.replicate n .poll) = .ok u
                ∧ u.delivered = expected 0 [⟨0x19, 0xFF, 0x02, by decide, by decide⟩]
                ∧ u.dev.seqState = .default) := by
  exact mouse_delivers (fun _ => 0) 0 0 [⟨0x19, 0xFF, 0x02, by decide, by decide⟩] _ (List.prefix_refl _) (by decide)

end Ps2Mouse

end Emos.Boot
