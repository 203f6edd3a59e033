import Emos.Boot.Hid.Impl.Ps2Keyboard
import Emos.Boot.Hid.Lemmas.Hid

/-!
This module contains which events the keyboard delivers for those that it sends in scan code set 2, and for
which bytes all accesses are inside the tables and the buffer.
-/

open Lib

namespace Emos.Boot

namespace Ps2Keyboard

variable {state state' : SequenceState} {byte : BitVec 8} {bytes rest : List (BitVec 8)} {events : List HidEvent}

def codeTableSet2 (extended : Bool) : Array (BitVec 16) :=
  if extended then codeTableSet2ExtLow else codeTableSet2NoextLow

/--
A key of one of the tables, which is not an empty entry.
-/
structure Key where
  extended : Bool
  code : BitVec 8
  keycode : BitVec 16
  entry : (codeTableSet2 extended)[code.toNat]? = some keycode
  ne_none : keycode ≠ keyNone

/--
A key is made or broken, or the pause key is pressed.
-/
inductive KeyboardEvent where
  | key (k : Key) (isBreak : Bool)
  | pause

namespace KeyboardEvent

/--
What a keyboard sends in scan code set 2.
-/
def scancodes : KeyboardEvent → List (BitVec 8)
  | .key k isBreak => (if k.extended then [0xE0] else []) ++ (if isBreak then [0xF0] else []) ++ [k.code]
  | .pause => [0xE1, 0x14, 0x77, 0xE1, 0xF0, 0x14, 0xF0, 0x77]

def event : KeyboardEvent → HidEvent
  | .key k isBreak => ⟨k.keycode, if isBreak then keyFlagBreak else 0⟩
  | .pause => ⟨keyPause, 0⟩

/--
What is delivered instead: for the pause key, that left control and num lock are broken.
-/
def received : KeyboardEvent → List HidEvent
  | .key k isBreak => [(KeyboardEvent.key k isBreak).event]
  | .pause => [⟨0xE0, keyFlagBreak⟩, ⟨0x53, keyFlagBreak⟩]

end KeyboardEvent

/--
The bytes of scan code set 2 in a state, and the events that come of them.
-/
def decode : SequenceState → List (BitVec 8) → Run (SequenceState × List HidEvent)
  | state, [] => .ok (state, [])
  | state, byte :: bytes => do
    let ⟨state, event⟩ ← translateScancodeSet2 state byte
    let ⟨state, events⟩ ← decode state bytes
    .ok (state, event.toList ++ events)

theorem decode_append
    : decode state (bytes ++ rest)
        = decode state bytes >>= fun p => decode p.1 rest >>= fun q => .ok (q.1, p.2 ++ q.2) := by
  induction bytes generalizing state with
  | nil =>
    change decode state rest = decode state rest >>= _
    cases decode state rest <;> rfl
  | cons byte bytes ih =>
    rw [List.cons_append, decode, decode]
    cases translateScancodeSet2 state byte with
    | error f => rfl
    | ok p =>
      change (decode p.1 (bytes ++ rest) >>= _) = (decode p.1 bytes >>= _) >>= _
      rw [ih]
      cases decode p.1 bytes with
      | error f => rfl
      | ok q =>
        change (decode q.1 rest >>= _) >>= _ = decode q.1 rest >>= _
        cases decode q.1 rest with
        | error f => rfl
        | ok r => exact congrArg (fun l => Except.ok (r.1, l)) (List.append_assoc _ _ _).symm

theorem Key.code_lt (k : Key) : k.code.toNat < if k.extended then 128 else 132 := by
  obtain ⟨hlt, -⟩ := Array.getElem?_eq_some_iff.mp k.entry
  unfold codeTableSet2 at hlt
  split
  . next h =>
    rw [if_pos h] at hlt
    exact hlt
  . next h =>
    rw [if_neg h] at hlt
    exact hlt

set_option maxRecDepth 2000 in
theorem sizeof_set2NoextLow : sizeof codeTableSet2NoextLow = 264 := rfl

set_option maxRecDepth 2000 in
theorem sizeof_set2ExtLow : sizeof codeTableSet2ExtLow = 256 := rfl

theorem Key.code_ne (k : Key) {c : BitVec 8} (hc : 132 ≤ c.toNat) : k.code ≠ c := by
  intro heq
  have hlt := k.code_lt
  rw [heq] at hlt
  split at hlt <;> omega

theorem translatePlain_of_key {k : Key} (h : k.extended = false) (flags : BitVec 16)
    : translatePlain flags k.code = .ok (.default, some ⟨k.keycode, flags⟩) := by
  have hentry := k.entry
  have hlt := k.code_lt
  rw [h, if_neg (by decide)] at hlt
  unfold codeTableSet2 at hentry
  rw [h, if_neg (by decide)] at hentry
  unfold translatePlain
  rw [if_neg, if_pos (by rw [sizeof_set2NoextLow]; omega)]
  . unfold entry
    rw [hentry]
    rfl
  . rw [not_or, not_or]
    exact ⟨k.code_ne (by decide), k.code_ne (by decide), k.code_ne (by decide)⟩

theorem translateExtended_of_key {k : Key} (state : SequenceState) (h : k.extended = true) (flags : BitVec 16)
    : translateExtended state flags k.code = .ok (.default, some ⟨k.keycode, flags⟩) := by
  have hentry := k.entry
  have hlt := k.code_lt
  rw [h, if_pos rfl] at hlt
  unfold codeTableSet2 at hentry
  rw [h, if_pos rfl] at hentry
  unfold translateExtended
  dsimp only
  rw [if_pos (by rw [sizeof_set2ExtLow]; omega)]
  unfold entry
  rw [hentry]
  rfl

/--
The code of a key is no prefix.
-/
theorem translateScancodeSet2_of_key (k : Key)
    : translateScancodeSet2 state k.code
        = match state with
          | .break => translatePlain keyFlagBreak k.code
          | .default => translatePlain 0 k.code
          | .breakExtended => translateExtended .breakExtended keyFlagBreak k.code
          | .extended => translateExtended .extended 0 k.code
          | _ => translateScancodeSet2 state k.code := by
  unfold translateScancodeSet2
  rw [if_neg (k.code_ne (by decide)), if_neg (k.code_ne (by decide)), if_neg (k.code_ne (by decide))]
  cases state <;> rfl

theorem translateScancodeSet2_extend : translateScancodeSet2 state 0xE0 = .ok (.extended, none) := rfl

theorem translateScancodeSet2_break
    : translateScancodeSet2 state 0xF0 = .ok (if state = .extended then .breakExtended else .break, none) :=
  rfl

theorem decode_singleton {event : Option HidEvent} (h : translateScancodeSet2 state byte = .ok (state', event))
    : decode state [byte] = .ok (state', event.toList) := by
  rw [decode, h]
  exact congrArg (fun l => Except.ok (state', l)) (List.append_nil _)

theorem decode_key {k : Key} {flags : BitVec 16}
    (h : translateScancodeSet2 state k.code = .ok (.default, some ⟨k.keycode, flags⟩))
    : decode state [k.code] = .ok (.default, [⟨k.keycode, flags⟩]) :=
  decode_singleton h

theorem decode_extend (bytes : List (BitVec 8)) : decode state (0xE0 :: bytes) = decode .extended bytes := by
  rw [decode, translateScancodeSet2_extend]
  change decode .extended bytes >>= _ = _
  cases decode .extended bytes <;> rfl

theorem decode_break (bytes : List (BitVec 8))
    : decode state (0xF0 :: bytes) = decode (if state = .extended then .breakExtended else .break) bytes := by
  rw [decode, translateScancodeSet2_break]
  change decode _ bytes >>= _ = _
  generalize (if state = .extended then SequenceState.breakExtended else .break) = next
  cases decode next bytes <;> rfl

set_option maxRecDepth 4000 in
theorem decode_pause : decode .default KeyboardEvent.pause.scancodes = .ok (.default, KeyboardEvent.pause.received) := by
  decide

theorem decode_scancodes (e : KeyboardEvent) : decode .default e.scancodes = .ok (.default, e.received) := by
  cases e with
  | pause => exact decode_pause
  | key k isBreak =>
    unfold KeyboardEvent.scancodes KeyboardEvent.received KeyboardEvent.event
    dsimp only
    cases hextended : k.extended with
    | false =>
      have hplain (flags : BitVec 16) := translatePlain_of_key hextended flags
      cases isBreak with
      | false => exact decode_key ((translateScancodeSet2_of_key k).trans (hplain 0))
      | true =>
        exact (decode_break [k.code]).trans (decode_key ((translateScancodeSet2_of_key k).trans (hplain keyFlagBreak)))
    | true =>
      have hext (state : SequenceState) (flags : BitVec 16) := translateExtended_of_key state hextended flags
      cases isBreak with
      | false =>
        exact (decode_extend [k.code]).trans (decode_key ((translateScancodeSet2_of_key k).trans (hext _ 0)))
      | true =>
        exact ((decode_extend (0xF0 :: [k.code])).trans (decode_break [k.code])).trans
          (decode_key ((translateScancodeSet2_of_key k).trans (hext _ keyFlagBreak)))

theorem decode_flatMap (es : List KeyboardEvent)
    : decode .default (es.flatMap KeyboardEvent.scancodes) = .ok (.default, es.flatMap KeyboardEvent.received) := by
  induction es with
  | nil => rfl
  | cons e es ih =>
    rw [List.flatMap_cons, List.flatMap_cons, decode_append, decode_scancodes]
    change decode .default _ >>= _ = _
    rw [ih]
    rfl

theorem decode_of_initial {p : SequenceState × List HidEvent} (h : bytes <+: rest) (hrest : decode state rest = .ok p)
    : ∃ q, decode state bytes = .ok q ∧ q.2 <+: p.2 := by
  obtain ⟨more, rfl⟩ := h
  rw [decode_append] at hrest
  obtain ⟨q, hq, hmore⟩ := (bind_eq_ok _ _ _).mp hrest
  obtain ⟨r, -, heq⟩ := (bind_eq_ok _ _ _).mp hmore
  cases heq
  exact ⟨q, hq, List.prefix_append _ _⟩

theorem decode_concat
    : decode state (bytes ++ [byte])
        = decode state bytes >>= fun p => translateScancodeSet2 p.1 byte >>= fun q => .ok (q.1, p.2 ++ q.2.toList) := by
  rw [decode_append]
  congr 1
  funext p
  change (translateScancodeSet2 p.1 byte >>= _) >>= _ = translateScancodeSet2 p.1 byte >>= _
  cases translateScancodeSet2 p.1 byte with
  | error f => rfl
  | ok q => exact congrArg (fun l => Except.ok (q.1, p.2 ++ l)) (List.append_nil _)

/--
The bytes that were fed are those that were consumed, which the events come from, and those in the buffer.
-/
structure Received (s : HidRun Ps2Keyboard) (bytes : List (BitVec 8)) : Prop where
  valid : s.dev.seqbuf.Valid
  set2 : s.dev.scancodeSet = .set2
  decoded : ∃ consumed, bytes = consumed ++ s.dev.seqbuf.contents
    ∧ decode .default consumed = .ok (s.dev.seqState, s.delivered)

variable {s t : HidRun Ps2Keyboard}

theorem Received.isr (h : Received s bytes) (hroom : s.dev.seqbuf.count + 1 < 64) (ht : step s (.isr byte) = .ok t)
    : Received t (bytes ++ [byte]) := by
  cases ht
  obtain ⟨consumed, rfl, hdecode⟩ := h.decoded
  refine ⟨h.valid.push byte, h.set2, consumed, ?_, hdecode⟩
  rw [List.append_assoc, ← h.valid.contents_push byte hroom]
  rfl

theorem pollEvent_set2 {dev : Ps2Keyboard} (h : dev.scancodeSet = .set2) (hne : dev.seqbuf.start ≠ dev.seqbuf.stop)
    : dev.pollEvent
        = translateScancodeSet2 dev.seqState dev.seqbuf.front >>= fun p =>
            .ok (match p.2 with | none => .bufferUnderflow | some e => .event e, dev.consume p.1) := by
  unfold pollEvent
  rw [if_neg hne, h]
  rfl

theorem Received.poll {p : SequenceState × List HidEvent} (h : Received s bytes) (hp : decode .default bytes = .ok p)
    : ∃ t, step s .poll = .ok t ∧ Received t bytes := by
  by_cases hempty : s.dev.seqbuf.start = s.dev.seqbuf.stop
  . refine ⟨s, ?_, h⟩
    have hpoll : s.dev.pollEvent = .ok (.noEvent, s.dev) := if_pos hempty
    change s.dev.pollEvent >>= _ = _
    rw [hpoll]
    change Except.ok (HidRun.mk s.dev s.produced (s.consumed + HidRun.moved _ _) s.delivered) = _
    rw [HidRun.moved_self]
    rfl
  . obtain ⟨consumed, rfl, hdecode⟩ := h.decoded
    have hcontents := h.valid.contents_eq_cons hempty
    rw [hcontents, List.append_cons] at hp ⊢
    obtain ⟨q, hq, -⟩ := decode_of_initial (List.prefix_append _ _) hp
    rw [decode_concat, hdecode] at hq
    change translateScancodeSet2 s.dev.seqState s.dev.seqbuf.front >>= _ = _ at hq
    obtain ⟨r, hr, -⟩ := (bind_eq_ok _ _ _).mp hq
    have hpoll := pollEvent_set2 h.set2 hempty
    rw [hr] at hpoll
    refine ⟨_, (bind_eq_ok _ _ _).mpr ⟨_, hpoll, rfl⟩, h.valid.advance 1, h.set2, _, rfl, ?_⟩
    rw [decode_concat, hdecode]
    change translateScancodeSet2 s.dev.seqState s.dev.seqbuf.front >>= _ = _
    rw [hr]
    obtain ⟨state, _ | event⟩ := r
    . exact congrArg (fun l => Except.ok (state, l)) (List.append_nil _)
    . rfl

theorem valid_probe (slots : Nat → BitVec 8) (set : ScancodeSet) : (probe slots set).seqbuf.Valid :=
  ⟨Nat.zero_lt_succ _, Nat.zero_lt_succ _⟩

theorem contents_probe (slots : Nat → BitVec 8) (set : ScancodeSet) : (probe slots set).seqbuf.contents = [] :=
  (valid_probe slots set).contents_eq_nil.mpr rfl

theorem received_probe (slots : Nat → BitVec 8) : Received (.start (probe slots .set2)) [] :=
  ⟨valid_probe slots .set2, rfl, [], (contents_probe slots .set2).symm, rfl⟩

/--
Each run whose buffer does not fill delivers the events of what is consumed, and all when nothing is left.
-/
theorem steps_of_decode {slots : Nat → BitVec 8} {as : List HidAction} {p : SequenceState × List HidEvent}
    {total : List (BitVec 8)} (hp : decode .default total = .ok p) (hfed : fed as <+: total)
    (hroom : Along step (HidRun.HasRoom seqbuf) (.start (probe slots .set2)) as)
    : ∃ t, steps (.start (probe slots .set2)) as = .ok t ∧ t.delivered <+: p.2
        ∧ (fed as = total → t.dev.seqbuf.start = t.dev.seqbuf.stop → t.delivered = p.2) := by
  obtain ⟨t, ht, hreceived⟩ := HidRun.steps_of_invariant (fun s bytes byte t h _ hroom ht => h.isr hroom ht)
    (fun s bytes h hle => h.poll (decode_of_initial hle hp).choose_spec.1) (received_probe slots) hfed hroom
  rw [List.nil_append] at hreceived
  obtain ⟨consumed, hconsumed, hdecode⟩ := hreceived.decoded
  refine ⟨t, ht, ?_, ?_⟩
  . have hprefix : consumed <+: total := by
      rw [hconsumed] at hfed
      exact (List.prefix_append _ _).trans hfed
    obtain ⟨q, hq, hle⟩ := decode_of_initial hprefix hp
    rw [hdecode] at hq
    cases hq
    exact hle
  . intro heq hempty
    rw [hreceived.valid.contents_eq_nil.mpr hempty, List.append_nil, heq] at hconsumed
    rw [← hconsumed, hp] at hdecode
    exact (congrArg Prod.snd (Except.ok.inj hdecode)).symm

/--
Whenever these events are sent and the buffer does not fill, what is delivered is always the first of them,
and all of them once everything is sent and consumed.
-/
def Delivers (es : List KeyboardEvent) : Prop :=
  ∀ slots as, fed as <+: es.flatMap KeyboardEvent.scancodes
    → Along step (HidRun.HasRoom seqbuf) (.start (probe slots .set2)) as
    → ∃ t, steps (.start (probe slots .set2)) as = .ok t ∧ t.delivered <+: es.map KeyboardEvent.event
      ∧ (fed as = es.flatMap KeyboardEvent.scancodes → t.dev.seqbuf.start = t.dev.seqbuf.stop
        → t.delivered = es.map KeyboardEvent.event)

theorem received_of_not_pause {es : List KeyboardEvent} (h : .pause ∉ es)
    : es.flatMap KeyboardEvent.received = es.map KeyboardEvent.event := by
  induction es with
  | nil => rfl
  | cons e es ih =>
    rw [List.mem_cons, not_or] at h
    rw [List.flatMap_cons, List.map_cons, ih h.2]
    cases e with
    | key k isBreak => rfl
    | pause => exact absurd rfl h.1

theorem length_received {es : List KeyboardEvent} (h : .pause ∈ es)
    : es.length < (es.flatMap KeyboardEvent.received).length := by
  have hle (es : List KeyboardEvent) : es.length ≤ (es.flatMap KeyboardEvent.received).length := by
    induction es with
    | nil => exact Nat.le_refl _
    | cons e es ih =>
      rw [List.flatMap_cons, List.length_append, List.length_cons]
      cases e <;> simp only [KeyboardEvent.received, List.length_cons, List.length_nil] <;> omega
  obtain ⟨before, behind, rfl⟩ := List.append_of_mem h
  have h₁ := hle before
  have h₂ := hle behind
  rw [List.flatMap_append, List.flatMap_cons, List.length_append, List.length_append, List.length_append,
    List.length_cons]
  simp only [KeyboardEvent.received, List.length_cons, List.length_nil]
  omega

/--
Each byte is polled as soon as it is there.
-/
def prompt : List (BitVec 8) → List HidAction
  | [] => []
  | byte :: bytes => .isr byte :: .poll :: prompt bytes

theorem fed_prompt (bytes : List (BitVec 8)) : fed (prompt bytes) = bytes := by
  induction bytes with
  | nil => rfl
  | cons byte bytes ih => exact congrArg _ ih

theorem pollEvent_ok_set2 {dev dev' : Ps2Keyboard} {result : HidPoll} (hset : dev.scancodeSet = .set2)
    (hne : dev.seqbuf.start ≠ dev.seqbuf.stop) (h : dev.pollEvent = .ok (result, dev'))
    : dev'.scancodeSet = .set2 ∧ dev'.seqbuf = dev.seqbuf.advance 1 := by
  rw [pollEvent_set2 hset hne] at h
  obtain ⟨r, -, heq⟩ := (bind_eq_ok _ _ _).mp h
  cases heq
  exact ⟨hset, rfl⟩

theorem prompt_spec (s : HidRun Ps2Keyboard) (bytes : List (BitVec 8)) (hvalid : s.dev.seqbuf.Valid) (hset : s.dev.scancodeSet = .set2)
    (hempty : s.dev.seqbuf.start = s.dev.seqbuf.stop)
    : Along step (HidRun.HasRoom seqbuf) s (prompt bytes)
        ∧ ∀ t, steps s (prompt bytes) = .ok t → t.dev.seqbuf.start = t.dev.seqbuf.stop := by
  induction bytes generalizing s with
  | nil =>
    refine ⟨trivial, ?_⟩
    intro t ht
    cases ht
    exact hempty
  | cons byte bytes ih =>
    have hroom : s.dev.seqbuf.count + 1 < 64 := by
      rw [hvalid.count_eq_zero.mpr hempty]
      decide
    have hpushed := hvalid.push byte
    have hone : (s.dev.seqbuf.push byte).count = 1 := by
      rw [hvalid.count_push byte hroom, hvalid.count_eq_zero.mpr hempty]
    have hne : (s.dev.seqbuf.push byte).start ≠ (s.dev.seqbuf.push byte).stop := by
      intro heq
      rw [hpushed.count_eq_zero.mpr heq] at hone
      contradiction
    have hnext (u : HidRun Ps2Keyboard) (v : HidRun Ps2Keyboard) (hu : step s (.isr byte) = .ok u)
        (hv : step u .poll = .ok v)
        : v.dev.seqbuf.Valid ∧ v.dev.scancodeSet = .set2 ∧ v.dev.seqbuf.start = v.dev.seqbuf.stop := by
      cases hu
      obtain ⟨⟨result, dev⟩, hpoll, heq⟩ := (bind_eq_ok _ _ _).mp hv
      obtain ⟨hset', hseqbuf⟩ := pollEvent_ok_set2 (by exact hset) (by exact hne) hpoll
      cases heq
      rw [hseqbuf]
      have hvalid' := hpushed.advance 1
      refine ⟨hvalid', hset', hvalid'.count_eq_zero.mp ?_⟩
      rw [hpushed.count_advance (by omega), hone]
    refine ⟨⟨fun _ => hroom, ?_⟩, ?_⟩
    . intro u hu
      refine ⟨fun h => absurd rfl h, ?_⟩
      intro v hv
      obtain ⟨hvalid', hset', hempty'⟩ := hnext u v hu hv
      exact (ih v hvalid' hset' hempty').1
    . intro t ht
      obtain ⟨u, hu, hrest⟩ := (bind_eq_ok _ _ _).mp ht
      obtain ⟨v, hv, hrest⟩ := (bind_eq_ok _ _ _).mp hrest
      obtain ⟨hvalid', hset', hempty'⟩ := hnext u v hu hv
      exact (ih v hvalid' hset' hempty').2 t hrest

/--
The pause key is delivered as two other events, everything else as it is.
-/
theorem delivers_iff (es : List KeyboardEvent) : Delivers es ↔ .pause ∉ es := by
  constructor
  . intro h hpause
    obtain ⟨hroom, hempty⟩ := prompt_spec (.start (probe (fun _ => 0) .set2)) (es.flatMap KeyboardEvent.scancodes)
      (valid_probe _ _) rfl rfl
    have hfed := fed_prompt (es.flatMap KeyboardEvent.scancodes)
    have hprefix : fed (prompt (es.flatMap KeyboardEvent.scancodes)) <+: es.flatMap KeyboardEvent.scancodes := by
      exact ⟨[], by rw [hfed, List.append_nil]⟩
    obtain ⟨t, ht, -, hall⟩ := h (fun _ => 0) _ hprefix hroom
    obtain ⟨t', ht', -, hall'⟩ := steps_of_decode (decode_flatMap es) hprefix hroom
    rw [ht] at ht'
    cases ht'
    have heq := (hall hfed (hempty t ht)).symm.trans (hall' hfed (hempty t ht))
    have hlength := congrArg List.length heq
    have hlt := length_received hpause
    rw [List.length_map] at hlength
    dsimp only at hlength
    omega
  . intro hpause slots as hfed hroom
    have hdecode := steps_of_decode (decode_flatMap es) hfed hroom
    rwa [received_of_not_pause hpause] at hdecode

/--
A byte in scan code set 2 does not index a table behind its end.
-/
def InTable2 (state : SequenceState) (byte : BitVec 8) : Prop :=
  byte = 0xF0 ∨ byte = 0xE0 ∨ byte = 0xE1 ∨
    match state with
    | .break | .default => (byte = 0xF1 ∨ byte = 0xF2 ∨ byte = 0xFC) ∨ byte.toNat < 132
    | .breakExtended | .extended => byte.toNat < 128
    | _ => True

def InTable1 (state : SequenceState) (byte : BitVec 8) : Prop :=
  byte = 0xE0 ∨ byte = 0xE1 ∨
    match state with
    | .default => (byte = 0xF1 ∨ byte = 0xF2 ∨ byte = 0xFC) ∨ byte.toNat < 128
    | .extended => byte.toNat < 128
    | _ => True

/--
The state that a byte in scan code set 1 leaves: the next one of a longer sequence, or the default.
-/
def behindByte1 (state : SequenceState) (byte : BitVec 8) : SequenceState :=
  if byte = 0xE0 then .extended
  else if byte = 0xE1 then .pause1
  else
    match state with
    | .extended => if byte = 0x46 then .ctrlPause1 else .default
    | .pause1 => if byte = 0x1D then .pause2 else .default
    | .pause2 => if byte = 0x45 then .pause3 else .default
    | .pause4 => if byte = 0x9D then .pause5 else .default
    | _ => .default

/--
A poll finds a byte that is in the table, and in scan code set 1 a second one behind it.
-/
def PollsInside (s : HidRun Ps2Keyboard) (a : HidAction) : Prop :=
  a = .poll → s.dev.seqbuf.start ≠ s.dev.seqbuf.stop →
    match s.dev.scancodeSet with
    | .set2 => InTable2 s.dev.seqState s.dev.seqbuf.front
    | .set1 =>
      2 ≤ s.dev.seqbuf.count ∧ InTable1 s.dev.seqState s.dev.seqbuf.front
        ∧ InTable2 (behindByte1 s.dev.seqState s.dev.seqbuf.front) (s.dev.seqbuf.advance 1).front

theorem entry_of_lt (table : Array (BitVec 16)) {i : Nat} (h : i < table.size)
    : ∃ keycode, entry table i = .ok keycode := by
  unfold entry
  rw [Array.getElem?_eq_getElem h]
  exact ⟨_, rfl⟩

theorem entry_of_le {table : Array (BitVec 16)} {i : Nat} (h : table.size ≤ i) : entry table i = .error .access := by
  unfold entry
  rw [Array.getElem?_eq_none h]

set_option maxRecDepth 2000 in
theorem size_set2NoextLow : codeTableSet2NoextLow.size = 132 := rfl

set_option maxRecDepth 2000 in
theorem size_set2ExtLow : codeTableSet2ExtLow.size = 128 := rfl

set_option maxRecDepth 2000 in
theorem size_set1NoextLow : codeTableSet1NoextLow.size = 128 := rfl

set_option maxRecDepth 2000 in
theorem size_set1ExtLow : codeTableSet1ExtLow.size = 128 := rfl

/--
The number of bytes of a table is compared, so that each byte is looked up.
-/
theorem toNat_lt_sizeof (byte : BitVec 8) {table : Array (BitVec 16)} (h : 128 ≤ table.size) : byte.toNat < sizeof table := by
  have := byte.isLt
  unfold sizeof
  omega

theorem translatePlain_eq_ok_iff {flags : BitVec 16}
    : (∃ p, translatePlain flags byte = .ok p)
        ↔ (byte = 0xF1 ∨ byte = 0xF2 ∨ byte = 0xFC) ∨ byte.toNat < 132 := by
  unfold translatePlain
  by_cases hspecial : byte = 0xF1 ∨ byte = 0xF2 ∨ byte = 0xFC
  . rw [if_pos hspecial]
    exact iff_of_true ⟨_, rfl⟩ (.inl hspecial)
  . rw [if_neg hspecial, if_pos (toNat_lt_sizeof _ (by rw [size_set2NoextLow]; decide))]
    by_cases hlt : byte.toNat < 132
    . obtain ⟨keycode, hentry⟩ := entry_of_lt codeTableSet2NoextLow (size_set2NoextLow ▸ hlt)
      rw [hentry]
      exact iff_of_true ⟨_, rfl⟩ (.inr hlt)
    . rw [entry_of_le (by rw [size_set2NoextLow]; omega)]
      exact iff_of_false nofun (not_or.mpr ⟨hspecial, hlt⟩)

theorem translateExtended_eq_ok_iff {flags : BitVec 16}
    : (∃ p, translateExtended state flags byte = .ok p) ↔ byte.toNat < 128 := by
  unfold translateExtended
  dsimp only
  rw [if_pos (toNat_lt_sizeof _ (Nat.le_of_eq size_set2ExtLow.symm))]
  by_cases hlt : byte.toNat < 128
  . obtain ⟨keycode, hentry⟩ := entry_of_lt codeTableSet2ExtLow (size_set2ExtLow ▸ hlt)
    rw [hentry]
    exact iff_of_true ⟨_, rfl⟩ hlt
  . rw [entry_of_le (by rw [size_set2ExtLow]; omega)]
    exact iff_of_false nofun hlt

theorem translateScancodeSet2_eq_ok_iff
    : (∃ p, translateScancodeSet2 state byte = .ok p) ↔ InTable2 state byte := by
  unfold translateScancodeSet2 InTable2
  by_cases hbreak : byte = 0xF0
  . rw [if_pos hbreak]
    exact iff_of_true ⟨_, rfl⟩ (.inl hbreak)
  . by_cases hextend : byte = 0xE0
    . rw [if_neg hbreak, if_pos hextend]
      exact iff_of_true ⟨_, rfl⟩ (.inr (.inl hextend))
    . by_cases hpause : byte = 0xE1
      . rw [if_neg hbreak, if_neg hextend, if_pos hpause]
        exact iff_of_true ⟨_, rfl⟩ (.inr (.inr (.inl hpause)))
      . rw [if_neg hbreak, if_neg hextend, if_neg hpause, or_iff_right hbreak, or_iff_right hextend,
          or_iff_right hpause]
        cases state
        case «break» | default => exact translatePlain_eq_ok_iff
        case breakExtended | extended => exact translateExtended_eq_ok_iff
        all_goals exact iff_of_true ⟨_, rfl⟩ trivial

/--
A byte in scan code set 1 leaves the state that is told, if it is in the table.
-/
theorem translateScancodeSet1_of_inTable (h : InTable1 state byte)
    : ∃ e, translateScancodeSet1 state byte = .ok (behindByte1 state byte, e) := by
  unfold InTable1 at h
  by_cases hextend : byte = 0xE0
  . subst hextend
    exact ⟨_, rfl⟩
  . by_cases hpause : byte = 0xE1
    . subst hpause
      exact ⟨_, rfl⟩
    . rw [or_iff_right hextend, or_iff_right hpause] at h
      have hsize := toNat_lt_sizeof byte (Nat.le_of_eq size_set1NoextLow.symm)
      have hsize' := toNat_lt_sizeof byte (Nat.le_of_eq size_set1ExtLow.symm)
      unfold translateScancodeSet1 behindByte1
      simp only [hextend, hpause, hsize, hsize', if_true, if_false]
      cases state
      case default =>
        dsimp only at h ⊢
        by_cases hspecial : byte = 0xF1 ∨ byte = 0xF2 ∨ byte = 0xFC
        . rw [if_pos hspecial]
          exact ⟨_, rfl⟩
        . have hlt := h.resolve_left hspecial
          obtain ⟨keycode, hentry⟩ := entry_of_lt codeTableSet1NoextLow (size_set1NoextLow ▸ hlt)
          rw [if_neg hspecial, hentry]
          exact ⟨_, rfl⟩
      case extended =>
        dsimp only at h ⊢
        by_cases hctrl : byte = 0x46
        . rw [if_pos hctrl, if_pos hctrl]
          exact ⟨_, rfl⟩
        . obtain ⟨keycode, hentry⟩ := entry_of_lt codeTableSet1ExtLow (size_set1ExtLow ▸ h)
          rw [if_neg hctrl, if_neg hctrl, hentry]
          exact ⟨_, rfl⟩
      all_goals exact ⟨_, rfl⟩

theorem translateScancodeSet1_of_not (h : ¬InTable1 state byte)
    : translateScancodeSet1 state byte = .error .access := by
  unfold InTable1 at h
  rw [not_or, not_or] at h
  obtain ⟨hextend, hpause, h⟩ := h
  have hsize := toNat_lt_sizeof byte (Nat.le_of_eq size_set1NoextLow.symm)
  have hsize' := toNat_lt_sizeof byte (Nat.le_of_eq size_set1ExtLow.symm)
  unfold translateScancodeSet1
  simp only [hextend, hpause, hsize, hsize', if_true, if_false]
  cases state
  case default =>
    dsimp only at h ⊢
    obtain ⟨hspecial, hlt⟩ := not_or.mp h
    rw [if_neg hspecial, entry_of_le (by rw [size_set1NoextLow]; omega)]
    rfl
  case extended =>
    dsimp only at h ⊢
    have hctrl : byte ≠ 0x46 := by
      intro heq
      rw [heq] at h
      exact h (by decide)
    rw [if_neg hctrl, entry_of_le (by rw [size_set1ExtLow]; omega)]
    rfl
  all_goals exact absurd trivial h

theorem pollEvent_set1 {dev : Ps2Keyboard} (h : dev.scancodeSet = .set1) (hne : dev.seqbuf.start ≠ dev.seqbuf.stop)
    : dev.pollEvent
        = translateScancodeSet1 dev.seqState dev.seqbuf.front >>= fun p =>
            translateScancodeSet2 p.1 (dev.seqbuf.advance 1).front >>= fun q =>
              .ok (match q.2 with | none => .bufferUnderflow | some e => .event e, (dev.consume p.1).consume q.1) := by
  unfold pollEvent
  rw [if_neg hne, h]
  cases translateScancodeSet1 dev.seqState dev.seqbuf.front <;> rfl

/--
The buffer has as many bytes as were stored and not consumed.
-/
structure Counted (s : HidRun Ps2Keyboard) : Prop where
  valid : s.dev.seqbuf.Valid
  produced : s.produced = s.consumed + s.dev.seqbuf.count

theorem Counted.isr (h : Counted s) : ∃ t, step s (.isr byte) = .ok t ∧ Counted t := by
  refine ⟨_, rfl, h.valid.push byte, ?_⟩
  have hmoved := HidRun.moved_push h.valid byte
  have hproduced := h.produced
  change s.produced + HidRun.moved s.dev.seqbuf.stop (s.dev.seqbuf.push byte).stop
    = s.consumed + (s.dev.seqbuf.push byte).count
  lia

/--
What a poll of a buffer that is not empty does to the counts.
-/
theorem step_poll {result : HidPoll} {dev : Ps2Keyboard} {k : Nat} (h : Counted s) (hk : k < 64)
    (hpoll : s.dev.pollEvent = .ok (result, dev)) (hseqbuf : dev.seqbuf = s.dev.seqbuf.advance k)
    : ∃ t, step s .poll = .ok t ∧ t.dev = dev ∧ t.produced = s.produced ∧ t.consumed = s.consumed + k := by
  refine ⟨_, (bind_eq_ok _ _ _).mpr ⟨_, hpoll, rfl⟩, rfl, rfl, ?_⟩
  change s.consumed + HidRun.moved s.dev.seqbuf.start dev.seqbuf.start = _
  rw [hseqbuf, HidRun.moved_advance h.valid hk]

theorem Counted.advance {k : Nat} (h : Counted s) (hk : k ≤ s.dev.seqbuf.count)
    (hseqbuf : t.dev.seqbuf = s.dev.seqbuf.advance k) (hproduced : t.produced = s.produced)
    (hconsumed : t.consumed = s.consumed + k)
    : Counted t := by
  refine ⟨?_, ?_⟩
  . rw [hseqbuf]
    exact h.valid.advance k
  . rw [hseqbuf, h.valid.count_advance hk, hproduced, hconsumed, h.produced]
    lia

theorem advance_one_advance_one (f : Fifo (BitVec 8) 64) : (f.advance 1).advance 1 = f.advance 2 := by
  unfold Fifo.advance
  dsimp only
  rw [Nat.mod_add_mod]

theorem Counted.step_of_pollsInside {a : HidAction} (h : Counted s) (hinside : PollsInside s a)
    : ∃ t, step s a = .ok t ∧ Counted t := by
  cases a with
  | isr byte => exact h.isr
  | poll =>
    by_cases hempty : s.dev.seqbuf.start = s.dev.seqbuf.stop
    . have hpoll : s.dev.pollEvent = .ok (.noEvent, s.dev) := if_pos hempty
      refine ⟨_, (bind_eq_ok _ _ _).mpr ⟨_, hpoll, rfl⟩, h.valid, ?_⟩
      change s.produced = s.consumed + HidRun.moved s.dev.seqbuf.start s.dev.seqbuf.start + s.dev.seqbuf.count
      rw [HidRun.moved_self, h.produced]
      rfl
    . have hinside := hinside rfl hempty
      cases hset : s.dev.scancodeSet with
      | set1 =>
        rw [hset] at hinside
        obtain ⟨hcount, htable, htable'⟩ := hinside
        obtain ⟨e, he⟩ := translateScancodeSet1_of_inTable htable
        obtain ⟨q, hq⟩ := translateScancodeSet2_eq_ok_iff.2 htable'
        have hpoll := pollEvent_set1 hset hempty
        rw [he] at hpoll
        change _ = translateScancodeSet2 _ _ >>= _ at hpoll
        rw [hq] at hpoll
        obtain ⟨t, ht, hdev, hproduced, hconsumed⟩ := step_poll (k := 2) h (by decide) hpoll
          (advance_one_advance_one _)
        refine ⟨t, ht, h.advance hcount ?_ hproduced hconsumed⟩
        rw [hdev]
        exact advance_one_advance_one _
      | set2 =>
        rw [hset] at hinside
        obtain ⟨q, hq⟩ := translateScancodeSet2_eq_ok_iff.2 hinside
        have hpoll := pollEvent_set2 hset hempty
        rw [hq] at hpoll
        obtain ⟨t, ht, hdev, hproduced, hconsumed⟩ := step_poll (k := 1) h (by decide) hpoll rfl
        have hpos : 1 ≤ s.dev.seqbuf.count := Nat.pos_of_ne_zero (mt h.valid.count_eq_zero.mp hempty)
        refine ⟨t, ht, h.advance hpos ?_ hproduced hconsumed⟩
        rw [hdev]
        rfl

theorem Counted.pollsInside_of_step {a : HidAction} (h : Counted s) (ht : step s a = .ok t)
    (hle : t.consumed ≤ t.produced)
    : PollsInside s a := by
  intro ha hne
  subst ha
  obtain ⟨⟨result, dev⟩, hpoll, heq⟩ := (bind_eq_ok _ _ _).mp ht
  cases heq
  cases hset : s.dev.scancodeSet with
  | set1 =>
    rw [pollEvent_set1 hset hne] at hpoll
    obtain ⟨p, hp, hrest⟩ := (bind_eq_ok _ _ _).mp hpoll
    obtain ⟨q, hq, heq⟩ := (bind_eq_ok _ _ _).mp hrest
    have htable : InTable1 s.dev.seqState s.dev.seqbuf.front := by
      by_contra hnot
      rw [translateScancodeSet1_of_not hnot] at hp
      contradiction
    obtain ⟨e, he⟩ := translateScancodeSet1_of_inTable htable
    rw [he] at hp
    cases hp
    refine ⟨?_, htable, translateScancodeSet2_eq_ok_iff.1 ⟨q, hq⟩⟩
    have hseqbuf : dev.seqbuf = s.dev.seqbuf.advance 2 := by
      cases heq
      exact advance_one_advance_one _
    have hmoved := HidRun.moved_advance (n := 2) h.valid (by decide)
    have hproduced := h.produced
    change s.consumed + HidRun.moved s.dev.seqbuf.start dev.seqbuf.start ≤ s.produced at hle
    rw [hseqbuf, hmoved] at hle
    omega
  | set2 =>
    rw [pollEvent_set2 hset hne] at hpoll
    obtain ⟨q, hq, -⟩ := (bind_eq_ok _ _ _).mp hpoll
    exact translateScancodeSet2_eq_ok_iff.1 ⟨q, hq⟩

/--
Events are delivered as they are sent unless the pause key is pressed. No access is outside a table and no
poll consumes what is not there if and only if each poll finds bytes of the tables, and in scan code set 1 two.
-/
theorem keyboard_decodes_iff (es : List KeyboardEvent) (slots : Nat → BitVec 8) (set : ScancodeSet)
    (as : List HidAction)
    : (Delivers es ↔ .pause ∉ es)
        ∧ (Always step (fun s => s.consumed ≤ s.produced) (.start (probe slots set)) as
          ↔ Along step PollsInside (.start (probe slots set)) as) := by
  refine ⟨delivers_iff es, ?_⟩
  have hstart : Counted (.start (probe slots set)) := by
    have hcount : (probe slots set).seqbuf.count = 0 := (valid_probe slots set).count_eq_zero.mpr rfl
    refine ⟨valid_probe slots set, ?_⟩
    change 0 = 0 + (probe slots set).seqbuf.count
    rw [hcount]
  have hall : Along step (fun _ _ => True) (.start (probe slots set)) as :=
    Along.of_forall_mem fun _ _ _ => trivial
  refine Always.iff_along_of_step (I := Counted) (fun _ => 0) ?_ ?_ ?_ hstart (Nat.le_of_eq (Nat.zero_add _)) hall
  . intro s hs
    rw [hs.produced]
    exact Nat.le_add_right _ _
  . intro s a hs _ _ hinside
    obtain ⟨t, ht, hcounted⟩ := hs.step_of_pollsInside hinside
    exact ⟨t, ht, Nat.zero_le _, hcounted⟩
  . intro s a t hs _ _ ht hle
    exact hs.pollsInside_of_step ht hle

set_option maxRecDepth 4000 in
def escape : Key := ⟨false, 0x76, 0x29, by decide, by decide⟩

set_option maxRecDepth 8000 in
/--
Escape is pressed and released, and both events are delivered.
-/
theorem keyboard_decodes_escape
    : Delivers [.key escape false, .key escape true]
        ∧ (steps (.start (probe (fun _ => 0) .set2)) [.isr 0x76, .poll, .isr 0xF0, .isr 0x76, .poll, .poll]).map
            HidRun.delivered
          = .ok [⟨0x29, 0⟩, ⟨0x29, keyFlagBreak⟩] := by
  refine ⟨(keyboard_decodes_iff _ (fun _ => 0) .set2 []).1.mpr ?_, by decide⟩
  rw [List.mem_cons, List.mem_cons]
  rintro (h | h | h) <;> cases h

set_option maxRecDepth 8000 in
/--
The pause key breaks left control and num lock. A byte behind the table is looked up, `0x1E` makes a poll in
scan code set 1 consume two bytes of one, and a byte that breaks a key is behind the table there.
-/
theorem keyboard_decodes_false
    : (steps (.start (probe (fun _ => 0) .set2)) (prompt KeyboardEvent.pause.scancodes)).map HidRun.delivered
          = .ok [⟨0xE0, keyFlagBreak⟩, ⟨0x53, keyFlagBreak⟩]
        ∧ (steps (.start (probe (fun _ => 0) .set2)) [.isr 0xAA, .poll]).map HidRun.delivered = .error .access
        ∧ (steps (.start (probe (fun _ => 0) .set1)) [.isr 0x1E, .poll]).map
            (fun s => (s.consumed, s.produced)) = .ok (2, 1)
        ∧ (steps (.start (probe (fun _ => 0) .set1)) [.isr 0x9E, .poll]).map HidRun.delivered = .error .access
        ∧ ¬Delivers [.pause] := by
  refine ⟨by decide, by decide, by decide, by decide, ?_⟩
  intro h
  exact (delivers_iff [.pause]).mp h (List.mem_singleton_self _)

end Ps2Keyboard

end Emos.Boot