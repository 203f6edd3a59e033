import Emos.Boot.Console.Impl.Write
import Emos.Lib.Loop
import Emos.Lib.Tokens
import Mathlib.Data.List.Forall2

/-!
This module contains for which cuts of a byte string the terminal is given the same characters as by a
single call of `write`.
-/

open Lib

namespace Emos

variable {mem : BufferMemory} {buf : Int} {len fuel n i wch : Nat} {t t' : Ansiterm} {bytes fragment chars : List UInt8}

/--
The loop over the other bytes of a character, where `n` of them are left, on a list.
-/
def utf8Tail : Nat → Nat → Nat → List UInt8 → Nat × Nat
  | n + 1, i, wch, byte :: bytes =>
    if byte.toNat &&& 0xC0 ≠ 0x80 then
      (0xFFFD, i)
    else
      utf8Tail n (i + 1) (wch ||| (byte.toNat &&& 0x3F) <<< (n * 6)) bytes
  | _, i, wch, _ => (wch, i)

/--
The character at the front of a byte string, if all of its bytes are there, and how many it takes.
-/
def utf8First : List UInt8 → Option (Nat × Nat)
  | [] => none
  | lead :: bytes =>
    let ⟨charLen, wch⟩ := Ansiterm.utf8Lead lead.toNat
    if charLen < 0 ∨ ((lead :: bytes).length : Int) < charLen then
      none
    else
      some (utf8Tail (charLen - 1).toNat 1 wch bytes)

theorem utf8Tail_zero : utf8Tail 0 i wch bytes = (wch, i) := by
  cases bytes <;> rfl

theorem utf8Tail_le : i ≤ (utf8Tail n i wch bytes).2 ∧ (utf8Tail n i wch bytes).2 ≤ i + n := by
  fun_induction utf8Tail n i wch bytes with
  | case1 => omega
  | case2 n i wch byte bytes _ ih => omega
  | case3 => exact ⟨Nat.le_refl _, Nat.le_add_right _ _⟩

theorem utf8Tail_append (h : n ≤ bytes.length) (rest : List UInt8)
    : utf8Tail n i wch (bytes ++ rest) = utf8Tail n i wch bytes := by
  induction n generalizing i wch bytes with
  | zero => rw [utf8Tail_zero, utf8Tail_zero]
  | succ n ih =>
    cases bytes with
    | nil => contradiction
    | cons byte bytes =>
      rw [List.cons_append, utf8Tail, utf8Tail, ih (Nat.le_of_succ_le_succ h)]

theorem utf8Lead_cases (lead : Nat)
    : (Ansiterm.utf8Lead lead).1 = -1 ∨ (1 ≤ (Ansiterm.utf8Lead lead).1 ∧ (Ansiterm.utf8Lead lead).1 ≤ 4) := by
  unfold Ansiterm.utf8Lead
  split_ifs <;> simp

/--
The bytes of a character are between one and as many as its first byte says.
-/
theorem utf8First_eq_some {lead ch : Nat} {byte : UInt8} (hlead : lead = byte.toNat)
    (h : utf8First (byte :: bytes) = some (ch, n))
    : 1 ≤ (Ansiterm.utf8Lead lead).1 ∧ (Ansiterm.utf8Lead lead).1 ≤ (byte :: bytes).length
        ∧ (ch, n) = utf8Tail ((Ansiterm.utf8Lead lead).1 - 1).toNat 1 (Ansiterm.utf8Lead lead).2 bytes := by
  subst hlead
  have hcases := utf8Lead_cases byte.toNat
  unfold utf8First at h
  dsimp only at h
  split at h
  . contradiction
  . next hlen =>
    rw [not_or] at hlen
    exact ⟨by omega, by omega, (Option.some.inj h).symm⟩

theorem utf8First_append {r : Nat × Nat} (h : utf8First bytes = some r) (rest : List UInt8)
    : utf8First (bytes ++ rest) = some r := by
  cases bytes with
  | nil => contradiction
  | cons lead bytes =>
    obtain ⟨hpos, hle, heq⟩ := utf8First_eq_some rfl h
    rw [List.length_cons] at hle
    rw [List.cons_append, utf8First]
    dsimp only
    rw [if_neg, utf8Tail_append (by omega)]
    . exact congrArg some heq.symm
    . rw [List.length_cons, List.length_append]
      omega

/--
Characters in UTF-8 as the terminal reads them.
-/
def utf8 : Tokenizer UInt8 Nat where
  first := utf8First
  first_pos := by
    intro bytes ch n h
    cases bytes with
    | nil => contradiction
    | cons lead bytes =>
      obtain ⟨-, -, heq⟩ := utf8First_eq_some rfl h
      have hle := congrArg Prod.snd heq
      rw [show n = _ from hle]
      exact utf8Tail_le.1
  first_le := by
    intro bytes ch n h
    cases bytes with
    | nil => contradiction
    | cons lead bytes =>
      obtain ⟨hpos, hle, heq⟩ := utf8First_eq_some rfl h
      have hn := congrArg Prod.snd heq
      rw [show n = _ from hn]
      refine Nat.le_trans utf8Tail_le.2 ?_
      omega
  first_append := utf8First_append

namespace Ansiterm

def setFragment (t : Ansiterm) (fragment : List UInt8) : Ansiterm := { t with utf8Fragment := fragment }

/--
What `write` passes to `put_char`, and the fragment that it leaves.
-/
def passed (t : Ansiterm) (mem : BufferMemory) : Nat → List UInt8 → Int → Nat → List Nat × Run (List UInt8)
  | _, fragment, _, 0 => ([], .ok fragment)
  | 0, _, _, _ + 1 => ([], .error .hang)
  | fuel + 1, fragment, buf, len + 1 =>
    match (t.setFragment fragment).utf8Round mem buf (len + 1) with
    | .error f => ([], .error f)
    | .ok (.fragment bytes) => ([], .ok bytes)
    | .ok (.char wch charLen) =>
      let used := charLen - fragment.length
      let ⟨chs, r⟩ := t.passed mem fuel [] (buf + used) ((len + 1 : Nat) - used).toNat
      (wch :: chs, r)

def putChars (t : Ansiterm) : List Nat → Run Ansiterm
  | [] => .ok t
  | ch :: chs => do
    let t ← t.putChar ch
    (t.setFragment []).putChars chs

theorem getSeqChar_congr (t u : Ansiterm) : (t.setFragment fragment).getSeqChar = (u.setFragment fragment).getSeqChar :=
  rfl

theorem utf8Tail_congr (t u : Ansiterm)
    : (t.setFragment fragment).utf8Tail mem buf len n i wch
        = (u.setFragment fragment).utf8Tail mem buf len n i wch := by
  induction n generalizing i wch with
  | zero => rfl
  | succ n ih =>
    rw [utf8Tail, utf8Tail, getSeqChar_congr t u]
    congr 1
    funext seqChar
    split
    . rfl
    . exact ih

theorem utf8Round_congr (t u : Ansiterm)
    : (t.setFragment fragment).utf8Round mem buf len = (u.setFragment fragment).utf8Round mem buf len := by
  unfold utf8Round
  rw [getSeqChar_congr t u]
  congr 1
  funext lead
  dsimp only
  rw [utf8Tail_congr t u]
  rfl

theorem passed_congr (t u : Ansiterm) : t.passed mem fuel fragment buf len = u.passed mem fuel fragment buf len := by
  induction fuel generalizing fragment buf len with
  | zero => cases len <;> rfl
  | succ fuel ih =>
    cases len with
    | zero => rfl
    | succ len =>
      rw [passed, passed, utf8Round_congr t u]
      simp only [ih]

theorem write_succ {count : Int}
    : write mem (fuel + 1) t buf (len + 1) count
        = t.writeRound mem buf (len + 1) >>= fun r => r.1.write mem fuel r.2.1 r.2.2.1 (count + r.2.2.2) :=
  rfl

theorem writeRound_eq
    : t.writeRound mem buf len
        = t.utf8Round mem buf len >>= fun round =>
          match round with
          | .fragment bytes => .ok ⟨t.setFragment bytes, buf, 0, len⟩
          | .char wch charLen =>
            t.putChar wch >>= fun u => .ok ⟨u.setFragment [], buf + (charLen - t.utf8Fragment.length),
              (len - (charLen - t.utf8Fragment.length)).toNat, charLen - t.utf8Fragment.length⟩ :=
  rfl

theorem bind_error {α β : Type} {f : Fault} {k : α → Run β} : ((.error f : Run α) >>= k) = .error f := rfl

theorem bind_ok {α β : Type} {a : α} {k : α → Run β} : ((.ok a : Run α) >>= k) = k a := rfl

/--
`write` passes exactly these characters to `put_char`.
-/
theorem write_eq_putChars {chs : List Nat} {count : Int}
    (h : t.passed mem fuel t.utf8Fragment buf len = (chs, .ok fragment))
    : ∃ written, t.write mem fuel buf len count
        = t.putChars chs >>= fun u => .ok (written, (u.setFragment fragment).setCon u.con.flush) := by
  induction fuel generalizing t buf len count chs with
  | zero =>
    obtain _ | len := len
    . cases h
      exact ⟨count, rfl⟩
    . cases h
  | succ fuel ih =>
    obtain _ | len := len
    . cases h
      exact ⟨count, rfl⟩
    . rw [passed] at h
      rw [write_succ, writeRound_eq]
      rw [show t.setFragment t.utf8Fragment = t from rfl] at h
      cases hround : t.utf8Round mem buf (len + 1) with
      | error f =>
        rw [hround] at h
        cases h
      | ok round =>
        rw [hround] at h
        cases round with
        | fragment bytes =>
          cases h
          refine ⟨count + (len + 1 : Nat), ?_⟩
          cases fuel <;> rfl
        | char wch charLen =>
          dsimp only at h
          generalize hrest : passed _ mem fuel _ _ _ = rest at h
          obtain ⟨chs', r⟩ := rest
          obtain ⟨rfl, rfl⟩ := Prod.mk.inj h
          cases hput : t.putChar wch with
          | error f =>
            refine ⟨0, ?_⟩
            rw [bind_ok]
            dsimp only
            rw [hput, putChars, hput]
            rfl
          | ok u =>
            rw [passed_congr t (u.setFragment [])] at hrest
            obtain ⟨written, hwritten⟩ := ih hrest
            refine ⟨written, ?_⟩
            rw [bind_ok]
            dsimp only
            rw [hput, putChars, hput]
            exact hwritten

end Ansiterm

/--
These bytes are at an address.
-/
def BufferMemory.Holds (mem : BufferMemory) (buf : Int) (bytes : List UInt8) : Prop :=
  ∀ i, (h : i < bytes.length) → mem (buf + i) = some bytes[i]

section Holds

variable (h : mem.Holds buf bytes)

include h

theorem holds_drop (k : Nat) : mem.Holds (buf + k) (bytes.drop k) := by
  intro i hi
  rw [List.length_drop] at hi
  rw [List.getElem_drop, Int.add_assoc, ← Int.natCast_add]
  exact h (k + i) (by omega)

theorem copy_of_holds : mem.copy buf bytes.length = .ok bytes := by
  induction bytes generalizing buf with
  | nil => rfl
  | cons byte bytes ih =>
    have hread : mem.read buf = .ok byte := by
      have hbyte := h 0 (Nat.zero_lt_succ _)
      rw [Int.natCast_zero, Int.add_zero] at hbyte
      unfold BufferMemory.read
      rw [hbyte]
      rfl
    have hrest := ih (holds_drop h 1)
    rw [List.length_cons, BufferMemory.copy, hread]
    change mem.copy (buf + 1) bytes.length >>= _ = _
    rw [show buf + 1 = buf + (1 : Nat) from rfl, hrest]
    rfl

namespace Ansiterm

theorem getSeqChar_of_holds (t : Ansiterm) {idx : Nat} (hidx : idx < (fragment ++ bytes).length)
    : (t.setFragment fragment).getSeqChar mem buf bytes.length idx = .ok (fragment ++ bytes)[idx].toNat := by
  have hfragment : (t.setFragment fragment).utf8Fragment = fragment := rfl
  rw [List.length_append] at hidx
  unfold getSeqChar
  rw [hfragment]
  by_cases hlt : idx < fragment.length
  . rw [List.getElem?_eq_getElem hlt, List.getElem_append_left hlt]
  . rw [List.getElem?_eq_none (Nat.not_lt.mp hlt)]
    dsimp only
    rw [if_pos hidx, List.getElem_append_right (Nat.not_lt.mp hlt)]
    have hbyte := h (idx - fragment.length) (by omega)
    rw [show ((idx - fragment.length : Nat) : Int) = (idx : Int) - fragment.length by omega] at hbyte
    unfold BufferMemory.read
    rw [hbyte]
    rfl

theorem utf8Tail_of_holds (t : Ansiterm) (wch : Nat) (hlen : i + n ≤ (fragment ++ bytes).length)
    : (t.setFragment fragment).utf8Tail mem buf bytes.length n i wch
        = .ok ((Emos.utf8Tail n i wch ((fragment ++ bytes).drop i)).1,
          ((Emos.utf8Tail n i wch ((fragment ++ bytes).drop i)).2 : Int)) := by
  induction n generalizing i wch with
  | zero =>
    rw [utf8Tail_zero]
    rfl
  | succ n ih =>
    rw [utf8Tail, getSeqChar_of_holds h t (by omega), List.drop_eq_getElem_cons (by omega), Emos.utf8Tail, bind_ok]
    split
    . rfl
    . exact ih _ (by omega)

/--
A round finds the character that the fragment and the buffer begin with.
-/
theorem utf8Round_of_holds (t : Ansiterm) (fragment : List UInt8) (hbytes : bytes ≠ [])
    : (t.setFragment fragment).utf8Round mem buf bytes.length
        = match utf8First (fragment ++ bytes) with
          | none =>
            if (fragment ++ bytes).length > utf8FragmentSize then
              .error .access
            else
              .ok (.fragment (fragment ++ bytes))
          | some (wch, n) => .ok (.char wch n) := by
  obtain ⟨lead, rest, heq⟩ : ∃ lead rest, fragment ++ bytes = lead :: rest := by
    cases hall : fragment ++ bytes with
    | nil => exact absurd (List.append_eq_nil_iff.mp hall).2 hbytes
    | cons lead rest => exact ⟨lead, rest, rfl⟩
  have hlength : (t.setFragment fragment).utf8Fragment.length + bytes.length = (fragment ++ bytes).length :=
    List.length_append.symm
  have hidx : 0 < (fragment ++ bytes).length := by
    rw [heq]
    exact Nat.zero_lt_succ _
  have hlead := getSeqChar_of_holds h t hidx
  have hcases := utf8Lead_cases lead.toNat
  simp only [heq, List.getElem_cons_zero] at hlead
  unfold utf8Round
  rw [hlead, bind_ok, copy_of_holds h, heq, utf8First]
  dsimp only
  have hint : ((t.setFragment fragment).utf8Fragment.length : Int) + bytes.length = (lead :: rest).length := by
    rw [← heq, ← hlength, Int.natCast_add]
  rw [hint]
  split
  . next hnone =>
    rw [hlength, bind_ok, show (t.setFragment fragment).utf8Fragment = fragment from rfl, heq]
  . next hsome =>
    rw [not_or] at hsome
    have hlen : 1 + ((utf8Lead lead.toNat).1 - 1).toNat ≤ (fragment ++ bytes).length := by
      rw [heq]
      lia
    have htail := utf8Tail_of_holds h t (utf8Lead lead.toNat).2 hlen
    rw [heq, List.drop_one, List.tail_cons] at htail
    rw [htail, bind_ok]
    have hpos : 1 ≤ (Emos.utf8Tail ((utf8Lead lead.toNat).1 - 1).toNat 1 (utf8Lead lead.toNat).2 rest).2 :=
      utf8Tail_le.1
    dsimp only
    rw [if_neg (by omega)]

end Ansiterm

end Holds

namespace Ansiterm

/--
The characters of a fragment and the bytes of a buffer, unless the fragment becomes too long.
-/
def decoded (fragment bytes : List UInt8) : List Nat × Run (List UInt8) :=
  (utf8.tokens (fragment ++ bytes),
    if (utf8.unfinished (fragment ++ bytes)).length > utf8FragmentSize then .error .access
      else .ok (utf8.unfinished (fragment ++ bytes)))

theorem decoded_of_none (h : utf8First (fragment ++ bytes) = none)
    : decoded fragment bytes
        = ([], if (fragment ++ bytes).length > utf8FragmentSize then .error .access else .ok (fragment ++ bytes)) := by
  unfold decoded
  rw [Tokenizer.tokens_of_none h, Tokenizer.unfinished_of_none h]

theorem decoded_of_some (h : utf8First (fragment ++ bytes) = some (wch, n))
    : decoded fragment bytes
        = (wch :: (decoded [] ((fragment ++ bytes).drop n)).1, (decoded [] ((fragment ++ bytes).drop n)).2) := by
  unfold decoded
  rw [Tokenizer.tokens_of_some h, Tokenizer.unfinished_of_some h]
  rfl

theorem decoded_nil (hnone : utf8First fragment = none) (hlen : fragment.length ≤ utf8FragmentSize)
    : decoded fragment [] = ([], .ok fragment) := by
  rw [decoded_of_none (by rwa [List.append_nil]), List.append_nil, if_neg (Nat.not_lt.mpr hlen)]

/--
A round whose character takes the whole fragment goes on behind the character.
-/
theorem passed_succ (h : mem.Holds buf bytes) (hbytes : bytes ≠ [])
    (hintact : ∀ wch n, utf8First (fragment ++ bytes) = some (wch, n) → fragment.length ≤ n)
    (hrest : ∀ k, k ≤ bytes.length → (fragment = [] → 0 < k)
      → t.passed mem fuel [] (buf + k) (bytes.drop k).length = decoded [] (bytes.drop k))
    : t.passed mem (fuel + 1) fragment buf bytes.length = decoded fragment bytes := by
  have hround := utf8Round_of_holds h t fragment hbytes
  obtain ⟨len, hlen⟩ := Nat.exists_eq_add_one_of_ne_zero (mt List.length_eq_zero_iff.mp hbytes)
  rw [hlen] at hround ⊢
  rw [passed, hround]
  cases hfirst : utf8First (fragment ++ bytes) with
  | none =>
    rw [decoded_of_none hfirst]
    dsimp only
    by_cases hlong : (fragment ++ bytes).length > utf8FragmentSize
    . rw [if_pos hlong, if_pos hlong]
    . rw [if_neg hlong, if_neg hlong]
  | some r =>
    obtain ⟨wch, n⟩ := r
    have hle := hintact wch n hfirst
    have hn : n ≤ (fragment ++ bytes).length := utf8.first_le hfirst
    have hpos : 0 < n := utf8.first_pos hfirst
    rw [List.length_append] at hn
    have hnext := hrest (n - fragment.length) (by omega) (by intro hnil; rw [hnil, List.length_nil]; omega)
    have hdrop : (fragment ++ bytes).drop n = bytes.drop (n - fragment.length) := by
      rw [List.drop_append, List.drop_eq_nil_of_le hle, List.nil_append]
    have hcount : (((len + 1 : Nat) : Int) - ((n : Int) - fragment.length)).toNat
        = (bytes.drop (n - fragment.length)).length := by
      rw [List.length_drop]
      lia
    rw [decoded_of_some hfirst, hdrop, ← hnext]
    dsimp only
    rw [hcount, show (n : Int) - fragment.length = ((n - fragment.length : Nat) : Int) by lia]

theorem passed_of_nil (h : mem.Holds buf bytes) (hfuel : bytes.length ≤ fuel)
    : t.passed mem fuel [] buf bytes.length = decoded [] bytes := by
  induction fuel generalizing buf bytes with
  | zero =>
    obtain rfl := List.length_eq_zero_iff.mp (Nat.le_zero.mp hfuel)
    rfl
  | succ fuel ih =>
    by_cases hbytes : bytes = []
    . subst hbytes
      rfl
    . refine passed_succ h hbytes (fun _ _ _ => Nat.zero_le _) ?_
      intro k _ hpos
      refine ih (holds_drop h k) ?_
      rw [List.length_drop]
      have := hpos rfl
      omega

/--
A call decodes its bytes behind the fragment, if the fragment is part of the first character.
-/
theorem passed_of_holds (t : Ansiterm) (h : mem.Holds buf bytes) (hfuel : bytes.length < fuel)
    (hnone : utf8First fragment = none) (hsize : fragment.length ≤ utf8FragmentSize)
    (hintact : ∀ wch n, utf8First (fragment ++ bytes) = some (wch, n) → fragment.length ≤ n)
    : t.passed mem fuel fragment buf bytes.length = decoded fragment bytes := by
  obtain ⟨fuel, rfl⟩ := Nat.exists_eq_add_one_of_ne_zero (Nat.ne_zero_of_lt hfuel)
  by_cases hbytes : bytes = []
  . subst hbytes
    rw [decoded_nil hnone hsize]
    rfl
  . refine passed_succ h hbytes hintact ?_
    intro k _ _
    refine passed_of_nil (holds_drop h k) ?_
    rw [List.length_drop]
    omega

end Ansiterm

/--
A call of `write`.
-/
structure WriteCall where
  mem : BufferMemory
  buf : Int
  len : Nat

/--
The buffer of a call has these bytes.
-/
def WriteCall.Holds (c : WriteCall) (bytes : List UInt8) : Prop := c.len = bytes.length ∧ c.mem.Holds c.buf bytes

/--
What calls one after the other pass to `put_char`. A fragment makes a call take at most three bytes more.
-/
def Ansiterm.passedAll (t : Ansiterm) : List UInt8 → List WriteCall → List Nat × Run (List UInt8)
  | fragment, [] => ([], .ok fragment)
  | fragment, c :: cs =>
    match t.passed c.mem (c.len + 4) fragment c.buf c.len with
    | (chs, .error f) => (chs, .error f)
    | (chs, .ok fragment) => (chs ++ (t.passedAll fragment cs).1, (t.passedAll fragment cs).2)

/--
Memory with nothing but these bytes.
-/
def BufferMemory.exact (bytes : List UInt8) : BufferMemory := fun p => if 0 ≤ p then bytes[p.toNat]? else none

theorem holds_exact (bytes : List UInt8) : (BufferMemory.exact bytes).Holds 0 bytes := by
  intro i hi
  unfold BufferMemory.exact
  rw [Int.zero_add, if_pos (Int.natCast_nonneg i), Int.toNat_natCast, List.getElem?_eq_getElem hi]

namespace Ansiterm

theorem utf8Round_before (hbuf : buf < 0) (hlen : 0 < len)
    : (t.setFragment []).utf8Round (.exact bytes) buf len = .error .access := by
  have hlead : (t.setFragment []).getSeqChar (.exact bytes) buf len 0 = .error .access := by
    unfold getSeqChar
    have hread : BufferMemory.read (.exact bytes) (buf + ((0 : Nat) - ([] : List UInt8).length)) = .error .access := by
      unfold BufferMemory.read BufferMemory.exact
      rw [if_neg (by rw [List.length_nil]; omega)]
    change (if 0 < 0 + len then BufferMemory.read (.exact bytes) _ >>= _ else _) = _
    rw [if_pos (by omega)]
    exact congrArg (· >>= fun byte => .ok byte.toNat) hread
  unfold utf8Round
  rw [hlead]
  rfl

/--
A character that ends inside the fragment makes the next round read in front of the buffer.
-/
theorem passed_of_torn (t : Ansiterm) (fuel : Nat) (h : utf8First (fragment ++ bytes) = some (wch, n))
    (hlt : n < fragment.length) (hbytes : bytes ≠ [])
    : (t.passed (.exact bytes) (fuel + 2) fragment 0 bytes.length).2 = .error .access := by
  have hround := utf8Round_of_holds (holds_exact bytes) t fragment hbytes
  obtain ⟨len, hlen⟩ := Nat.exists_eq_add_one_of_ne_zero (mt List.length_eq_zero_iff.mp hbytes)
  rw [h] at hround
  rw [hlen] at hround ⊢
  rw [passed, hround]
  dsimp only
  obtain ⟨len', hlen'⟩ : ∃ len', (((len + 1 : Nat) : Int) - ((n : Int) - fragment.length)).toNat = len' + 1 :=
    ⟨len + fragment.length - n, by lia⟩
  rw [hlen', passed, utf8Round_before (by omega) (Nat.zero_lt_succ _)]

end Ansiterm

theorem utf8First_eq_none (h : utf8First fragment = none)
    : fragment.length ≤ 3 ∨ ∀ bytes, utf8First (fragment ++ bytes) = none := by
  cases fragment with
  | nil => exact .inl (Nat.zero_le _)
  | cons lead rest =>
    have hcases := utf8Lead_cases lead.toNat
    rw [utf8First] at h
    dsimp only at h
    split at h
    . next hnone =>
      by_cases hneg : (Ansiterm.utf8Lead lead.toNat).1 < 0
      . refine .inr (fun bytes => ?_)
        rw [List.cons_append, utf8First]
        dsimp only
        rw [if_pos (.inl hneg)]
      . exact .inl (by omega)
    . contradiction

/--
A fragment is never longer than what it becomes, or short.
-/
theorem length_le_of_unfinished (bytes : List UInt8) (h : utf8First fragment = none)
    (hlen : (utf8.unfinished (fragment ++ bytes)).length ≤ Ansiterm.utf8FragmentSize)
    : fragment.length ≤ Ansiterm.utf8FragmentSize := by
  obtain hshort | hnone := utf8First_eq_none h
  . exact Nat.le_trans hshort (by decide)
  . rw [Tokenizer.unfinished_of_none (hnone bytes), List.length_append] at hlen
    exact Nat.le_of_add_right_le hlen

/--
At each cut, the bytes of an unfinished character are part of that character once it is finished.
-/
def CutsIntact (fragment : List UInt8) (chunks : List (List UInt8)) : Prop :=
  ∀ p q, chunks = p ++ q
    → ∀ wch n, utf8First (utf8.unfinished (fragment ++ p.flatten) ++ q.flatten) = some (wch, n)
      → (utf8.unfinished (fragment ++ p.flatten)).length ≤ n

section Chunks

variable {chunk : List UInt8} {chunks : List (List UInt8)}

theorem cutsIntact_nil : CutsIntact fragment [] := by
  intro p q hsplit wch n hfirst
  obtain ⟨rfl, rfl⟩ := List.append_eq_nil_iff.mp hsplit.symm
  have hnone : utf8First (utf8.unfinished fragment) = none := utf8.first_unfinished fragment
  rw [List.flatten_nil, List.append_nil, List.append_nil, hnone] at hfirst
  contradiction

theorem cutsIntact_cons (hnone : utf8First fragment = none)
    : CutsIntact fragment (chunk :: chunks)
        ↔ (∀ wch n, utf8First (fragment ++ (chunk :: chunks).flatten) = some (wch, n) → fragment.length ≤ n)
          ∧ CutsIntact (utf8.unfinished (fragment ++ chunk)) chunks := by
  have hself : utf8.unfinished (fragment ++ ([] : List (List UInt8)).flatten) = fragment := by
    rw [List.flatten_nil, List.append_nil]
    exact Tokenizer.unfinished_of_none hnone
  have hcons (p : List (List UInt8)) : utf8.unfinished (fragment ++ (chunk :: p).flatten)
      = utf8.unfinished (utf8.unfinished (fragment ++ chunk) ++ p.flatten) := by
    rw [List.flatten_cons, ← List.append_assoc]
    exact utf8.unfinished_append _ _
  constructor
  . intro h
    refine ⟨?_, ?_⟩
    . have hnil := h [] (chunk :: chunks) rfl
      rwa [hself] at hnil
    . intro p q hsplit
      have hnext := h (chunk :: p) q (congrArg _ hsplit)
      rwa [hcons] at hnext
  . intro ⟨hfirst, hrest⟩ p q hsplit
    obtain _ | ⟨c, p⟩ := p
    . rw [hself, ← show chunk :: chunks = q from hsplit]
      exact hfirst
    . obtain ⟨rfl, rfl⟩ := List.cons.inj hsplit
      rw [hcons]
      exact hrest p q rfl

theorem Ansiterm.passedAll_cons {fragment' : List UInt8} {chs : List Nat} {c : WriteCall} {cs : List WriteCall}
    (h : t.passed c.mem (c.len + 4) fragment c.buf c.len = (chs, .ok fragment'))
    : t.passedAll fragment (c :: cs) = (chs ++ (t.passedAll fragment' cs).1, (t.passedAll fragment' cs).2) := by
  rw [passedAll, h]

theorem Ansiterm.decoded_of_le {bytes : List UInt8}
    (h : (utf8.unfinished (fragment ++ bytes)).length ≤ utf8FragmentSize)
    : decoded fragment bytes = (utf8.tokens (fragment ++ bytes), .ok (utf8.unfinished (fragment ++ bytes))) := by
  unfold decoded
  rw [if_neg (Nat.not_lt.mpr h)]

/--
Calls pass the characters of the whole string if each cut leaves the characters intact.
-/
theorem passedAll_of_cutsIntact (t : Ansiterm) {calls : List WriteCall}
    (hcalls : List.Forall₂ WriteCall.Holds calls chunks) (hnone : utf8First fragment = none)
    (hsize : (utf8.unfinished (fragment ++ chunks.flatten)).length ≤ Ansiterm.utf8FragmentSize)
    (hcuts : CutsIntact fragment chunks)
    : t.passedAll fragment calls
        = (utf8.tokens (fragment ++ chunks.flatten), .ok (utf8.unfinished (fragment ++ chunks.flatten))) := by
  induction hcalls generalizing fragment with
  | nil =>
    rw [List.flatten_nil, List.append_nil, Tokenizer.tokens_of_none hnone, Tokenizer.unfinished_of_none hnone]
    rfl
  | @cons c chunk calls chunks hc _ ih =>
    obtain ⟨hfirst, hrest⟩ := (cutsIntact_cons hnone).mp hcuts
    have happend : fragment ++ (chunk :: chunks).flatten = fragment ++ chunk ++ chunks.flatten := by
      rw [List.flatten_cons, List.append_assoc]
    rw [happend, utf8.unfinished_append] at hsize
    have hunfinished := utf8.first_unfinished (fragment ++ chunk)
    have hlong := length_le_of_unfinished _ hunfinished hsize
    have hshort := length_le_of_unfinished chunk hnone hlong
    have hfuel : chunk.length < chunk.length + 4 := Nat.lt_add_of_pos_right (by decide)
    have hpassed := Ansiterm.passed_of_holds t hc.2 hfuel hnone hshort
      (fun wch n h => hfirst wch n (by rw [happend]; exact utf8.first_append h _))
    rw [Ansiterm.decoded_of_le hlong, ← hc.1] at hpassed
    rw [Ansiterm.passedAll_cons hpassed, ih hunfinished hsize hrest, happend, utf8.tokens_append (fragment ++ chunk),
      utf8.unfinished_append (fragment ++ chunk)]

def exactCall (bytes : List UInt8) : WriteCall := ⟨.exact bytes, 0, bytes.length⟩

theorem holds_exactCall (bytes : List UInt8) : (exactCall bytes).Holds bytes := ⟨rfl, holds_exact bytes⟩

/--
If calls with nothing around their buffers succeed, each cut leaves the characters intact.
-/
theorem cutsIntact_of_passedAll {fragment' : List UInt8} (hnone : utf8First fragment = none)
    (hsize : fragment.length ≤ Ansiterm.utf8FragmentSize)
    (h : (t.passedAll fragment (chunks.map exactCall)).2 = .ok fragment')
    : (utf8.unfinished (fragment ++ chunks.flatten)).length ≤ Ansiterm.utf8FragmentSize
        ∧ CutsIntact fragment chunks := by
  induction chunks generalizing fragment with
  | nil =>
    rw [List.flatten_nil, List.append_nil, Tokenizer.unfinished_of_none hnone]
    exact ⟨hsize, cutsIntact_nil⟩
  | cons chunk chunks ih =>
    have happend : fragment ++ (chunk :: chunks).flatten = fragment ++ chunk ++ chunks.flatten := by
      rw [List.flatten_cons, List.append_assoc]
    have hintact (wch n : Nat) (hfirst : utf8First (fragment ++ chunk) = some (wch, n)) : fragment.length ≤ n := by
      by_contra hlt
      have hchunk : chunk ≠ [] := by
        intro hnil
        rw [hnil, List.append_nil, hnone] at hfirst
        contradiction
      have htorn := Ansiterm.passed_of_torn t (chunk.length + 2) hfirst (Nat.not_le.mp hlt) hchunk
      rw [List.map_cons, Ansiterm.passedAll, exactCall] at h
      generalize t.passed (.exact chunk) (chunk.length + 4) fragment 0 chunk.length = result at h htorn
      obtain ⟨chs, r⟩ := result
      obtain rfl : r = .error .access := htorn
      contradiction
    have hfuel : chunk.length < chunk.length + 4 := Nat.lt_add_of_pos_right (by decide)
    have hpassed := Ansiterm.passed_of_holds t (holds_exact chunk) hfuel hnone hsize hintact
    have hlong : (utf8.unfinished (fragment ++ chunk)).length ≤ Ansiterm.utf8FragmentSize := by
      by_contra hlong
      rw [Ansiterm.decoded, if_pos (Nat.not_le.mp hlong)] at hpassed
      rw [List.map_cons, Ansiterm.passedAll, exactCall, hpassed] at h
      contradiction
    rw [Ansiterm.decoded_of_le hlong] at hpassed
    rw [List.map_cons, Ansiterm.passedAll_cons (c := exactCall chunk) hpassed] at h
    obtain ⟨hsize', hcuts⟩ := ih (utf8.first_unfinished _) hlong h
    rw [cutsIntact_cons hnone, happend, utf8.unfinished_append (fragment ++ chunk)]
    refine ⟨hsize', ?_, hcuts⟩
    intro wch n hfirst
    cases hchunk : utf8First (fragment ++ chunk) with
    | some r =>
      have hsame := utf8.first_append hchunk chunks.flatten
      rw [show utf8.first = utf8First from rfl, hfirst] at hsame
      exact hintact wch n (hchunk.trans hsame.symm)
    | none =>
      have hnil := hcuts [] chunks rfl wch n
      have hself : utf8.unfinished (utf8.unfinished (fragment ++ chunk) ++ ([] : List (List UInt8)).flatten)
          = fragment ++ chunk := by
        have hwhole : utf8.unfinished (fragment ++ chunk) = fragment ++ chunk := Tokenizer.unfinished_of_none hchunk
        rw [List.flatten_nil, List.append_nil, hwhole, hwhole]
      rw [hself] at hnil
      have hle := hnil hfirst
      rw [List.length_append] at hle
      omega

end Chunks

/--
All calls that are given the chunks one after the other pass the same characters as one that is given the
whole string, and no call indexes the fragment or its buffer out of range.
-/
def ChunkIndependent (t : Ansiterm) (chunks : List (List UInt8)) : Prop :=
  ∀ (calls : List WriteCall) (whole : WriteCall), List.Forall₂ WriteCall.Holds calls chunks
    → whole.Holds chunks.flatten
    → ∃ chs fragment fragment', t.passedAll [] calls = (chs, .ok fragment)
      ∧ t.passedAll [] [whole] = (chs, .ok fragment')

/--
The cuts do not matter if and only if no cut is behind a byte that breaks an unfinished character, and what
is not a character at the end fits in the fragment.
-/
theorem chunkIndependent_iff
    : ∀ (t : Ansiterm) (chunks : List (List UInt8)), ChunkIndependent t chunks
        ↔ (utf8.unfinished chunks.flatten).length ≤ Ansiterm.utf8FragmentSize ∧ CutsIntact [] chunks := by
  intro t chunks
  constructor
  . intro h
    have hcalls : List.Forall₂ WriteCall.Holds (chunks.map exactCall) chunks := by
      rw [List.forall₂_map_left_iff, List.forall₂_same]
      exact fun chunk _ => holds_exactCall chunk
    obtain ⟨chs, fragment, -, hall, -⟩ := h _ _ hcalls (holds_exactCall _)
    exact cutsIntact_of_passedAll rfl (Nat.zero_le _) (congrArg Prod.snd hall)
  . intro ⟨hsize, hcuts⟩ calls whole hcalls hwhole
    have hall := passedAll_of_cutsIntact t hcalls (show utf8First [] = none from rfl) hsize hcuts
    have hsize' : (utf8.unfinished ([] ++ [chunks.flatten].flatten)).length ≤ Ansiterm.utf8FragmentSize := by
      rwa [List.flatten_singleton]
    have hone := passedAll_of_cutsIntact t (.cons hwhole .nil) rfl hsize'
      ((cutsIntact_cons rfl).mpr ⟨fun _ _ _ => Nat.zero_le _, cutsIntact_nil⟩)
    rw [List.flatten_singleton] at hone
    exact ⟨_, _, _, hall, hone⟩

def plainTerminal : Ansiterm :=
  .probe ⟨80, 25, 0, 0, 0, 0, true, fun _ => ⟨⟨0, 0, false, false, false, false, false, false, 0, false⟩, 0⟩,
    fun _ => false⟩ (fun _ => 0) .default false

/--
`E2 41 | 42` in two calls, where `58` is in front of the buffer of the second one.
-/
def tornCalls : List WriteCall :=
  [exactCall [0xE2, 0x41], ⟨fun p => if p = -1 then some 0x58 else BufferMemory.exact [0x42] p, 0, 1⟩]

/--
The second call reads the byte in front of its buffer and passes it, and a byte that never begins a
character overflows the fragment together with what comes behind it.
-/
theorem chunkIndependent_false
    : plainTerminal.passedAll [] [exactCall [0xE2, 0x41, 0x42]] = ([0xFFFD, 0x41, 0x42], .ok [])
        ∧ plainTerminal.passedAll [] tornCalls = ([0xFFFD, 0x58, 0x42], .ok [])
        ∧ plainTerminal.passedAll [] [exactCall [0xF8, 1, 2, 3, 4, 5, 6]] = ([], .error .access)
        ∧ ¬ChunkIndependent plainTerminal [[0xE2, 0x41], [0x42]]
        ∧ ¬ChunkIndependent plainTerminal [[0xF8, 1, 2, 3, 4, 5, 6]] := by
  have htorn : plainTerminal.passedAll [] tornCalls = ([0xFFFD, 0x58, 0x42], .ok []) := by decide
  have hwhole : plainTerminal.passedAll [] [exactCall [0xE2, 0x41, 0x42]] = ([0xFFFD, 0x41, 0x42], .ok []) := by decide
  have hlong : plainTerminal.passedAll [] [exactCall [0xF8, 1, 2, 3, 4, 5, 6]] = ([], .error .access) := by decide
  refine ⟨hwhole, htorn, hlong, ?_, ?_⟩
  . intro h
    have hsecond : BufferMemory.Holds (fun p => if p = -1 then some 0x58 else BufferMemory.exact [0x42] p) 0 [0x42]
        := by
      intro i hi
      obtain rfl : i = 0 := Nat.lt_one_iff.mp hi
      rfl
    have hcalls : List.Forall₂ WriteCall.Holds tornCalls [[0xE2, 0x41], [0x42]] :=
      .cons (holds_exactCall _) (.cons ⟨rfl, hsecond⟩ .nil)
    obtain ⟨chs, _, _, hall, hone⟩ := h tornCalls (exactCall [0xE2, 0x41, 0x42]) hcalls (holds_exactCall _)
    have hsame := (congrArg Prod.fst (htorn.symm.trans hall)).trans (congrArg Prod.fst (hwhole.symm.trans hone)).symm
    exact absurd hsame (by decide)
  . intro h
    have hcalls : List.Forall₂ WriteCall.Holds [exactCall [0xF8, 1, 2, 3, 4, 5, 6]] [[0xF8, 1, 2, 3, 4, 5, 6]] :=
      .cons (holds_exactCall _) .nil
    obtain ⟨_, _, _, hall, _⟩ := h _ (exactCall [0xF8, 1, 2, 3, 4, 5, 6]) hcalls (holds_exactCall _)
    rw [hlong] at hall
    cases hall

end Emos
