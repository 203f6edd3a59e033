import Emos.Boot.Shell.Impl.Shell

/-!
This module contains what the two passes over a line do to arguments whose special characters were
written behind a backslash.
-/

open Lib

namespace Emos.Boot

/--
The characters in front of which a backslash is written.
-/
def isQuoted (c : BitVec 8) : Bool := isEscapable c ∨ c = 0x24

def quoteArg (arg : List (BitVec 8)) : List (BitVec 8) :=
  arg.flatMap fun c => if isQuoted c then [0x5c, c] else [c]

/--
An argument whose dollar signs have no backslash.
-/
def escapeArg (arg : List (BitVec 8)) : List (BitVec 8) :=
  arg.flatMap fun c => if isEscapable c then [0x5c, c] else [c]

section

variable {c : BitVec 8} {arg rest : List (BitVec 8)}

theorem quoteArg_dollar : quoteArg (0x24 :: arg) = 0x5c :: 0x24 :: quoteArg arg := rfl

theorem quoteArg_escapable (h : isEscapable c = true) : quoteArg (c :: arg) = 0x5c :: c :: quoteArg arg := by
  simp [quoteArg, isQuoted, h]

theorem quoteArg_plain (h : isEscapable c = false) (hc : c ≠ 0x24) : quoteArg (c :: arg) = c :: quoteArg arg := by
  have hquoted : isQuoted c = false := by
    simp only [isQuoted, h, Bool.false_eq_true, false_or, decide_eq_false_iff_not]
    exact hc
  simp [quoteArg, hquoted]

theorem escapeArg_escapable (h : isEscapable c = true) : escapeArg (c :: arg) = 0x5c :: c :: escapeArg arg := by
  simp [escapeArg, h]

theorem escapeArg_plain (h : isEscapable c = false) : escapeArg (c :: arg) = c :: escapeArg arg := by
  simp [escapeArg, h]

theorem length_escapeArg_le : (escapeArg arg).length ≤ 2 * arg.length := by
  induction arg with
  | nil => exact Nat.le_refl 0
  | cons c arg ih =>
    rw [List.length_cons]
    cases hc : isEscapable c with
    | true =>
      rw [escapeArg_escapable hc, List.length_cons, List.length_cons]
      omega
    | false =>
      rw [escapeArg_plain hc, List.length_cons]
      omega

theorem not_isEscapable_iff
    : isEscapable c = false
        ↔
      c ≠ 0x5c ∧ c ≠ 0x27 ∧ c ≠ 0x22 ∧ c ≠ 0x3f ∧ c ≠ 0x20 ∧ c ≠ 0x09 := by
  simp [isEscapable]

theorem isBlank_of_not_isEscapable (h : isEscapable c = false) : isBlank c = false := by
  rw [not_isEscapable_iff] at h
  unfold isBlank
  rw [decide_eq_false_iff_not, not_or]
  exact ⟨h.2.2.2.2.1, h.2.2.2.2.2⟩

/--
A quoted argument does not begin with a dollar sign.
-/
theorem charAt_quoteArg_append (arg : List (BitVec 8)) (h : charAt rest ≠ 0x24) : charAt (quoteArg arg ++ rest) ≠ 0x24 := by
  cases arg with
  | nil => exact h
  | cons c arg =>
    have hbackslash : (0x5c : BitVec 8) ≠ 0x24 := by decide
    by_cases hdollar : c = 0x24
    . rw [hdollar, quoteArg_dollar]
      exact hbackslash
    . cases hc : isEscapable c with
      | true =>
        rw [quoteArg_escapable hc]
        exact hbackslash
      | false =>
        rw [quoteArg_plain hc hdollar]
        exact hdollar

section

variable {α : Type} (t : ShellVars α) (fuel : Nat) {buflen : Nat} {line buf : List (BitVec 8)}

theorem shellExpand_dollar (n : Nat) (h : buf.length < buflen)
    : shellExpand t fuel buflen (n + 1) (0x5c :: 0x24 :: line) buf
        =
      shellExpand t fuel buflen n line (buf ++ [0x24]) := by
  rw [shellExpand, if_pos ⟨rfl, rfl⟩, if_pos h]
  rfl

theorem shellExpand_char (n : Nat) (h : buf.length < buflen) (hc : c ≠ 0x24)
    (hline : c = 0x5c → charAt line ≠ 0x24)
    : shellExpand t fuel buflen (n + 1) (c :: line) buf = shellExpand t fuel buflen n line (buf ++ [c]) := by
  have hne : ¬ (c = 0x5c ∧ charAt line = 0x24) := by
    intro ⟨hc, hdollar⟩
    exact hline hc hdollar
  rw [shellExpand, if_neg hne, if_neg hc, if_pos h]

theorem shellExpand_quoteArg (hrest : charAt rest ≠ 0x24) {n : Nat} (hn : (quoteArg arg ++ rest).length ≤ n)
    (hroom : buf.length + (escapeArg arg).length ≤ buflen)
    : ∃ n', rest.length ≤ n'
        ∧ shellExpand t fuel buflen n (quoteArg arg ++ rest) buf
            =
          shellExpand t fuel buflen n' rest (buf ++ escapeArg arg) := by
  induction arg generalizing n buf with
  | nil => exact ⟨n, hn, by rw [show escapeArg [] = [] from rfl, List.append_nil]; rfl⟩
  | cons c arg ih =>
    have hnext := charAt_quoteArg_append arg hrest
    by_cases hdollar : c = 0x24
    . subst hdollar
      rw [quoteArg_dollar, List.cons_append, List.cons_append, List.length_cons, List.length_cons] at hn
      rw [escapeArg_plain (by decide), List.length_cons] at hroom
      obtain ⟨k, rfl⟩ : ∃ k, n = k + 1 := ⟨n - 1, by lia⟩
      have hroom' : (buf ++ [0x24]).length + (escapeArg arg).length ≤ buflen := by
        rw [List.length_append, List.length_singleton]
        omega
      obtain ⟨n', hn', heq⟩ := ih (n := k) (by omega) hroom'
      refine ⟨n', hn', ?_⟩
      rw [quoteArg_dollar, List.cons_append, List.cons_append, shellExpand_dollar t fuel k (by omega), heq]
      rw [escapeArg_plain (by decide), List.append_assoc, List.singleton_append]
    . cases hc : isEscapable c with
      | true =>
        rw [quoteArg_escapable hc, List.cons_append, List.cons_append, List.length_cons, List.length_cons] at hn
        rw [escapeArg_escapable hc, List.length_cons, List.length_cons] at hroom
        obtain ⟨k, rfl⟩ : ∃ k, n = k + 2 := ⟨n - 2, by lia⟩
        have hroom' : (buf ++ [0x5c] ++ [c]).length + (escapeArg arg).length ≤ buflen := by
          rw [List.length_append, List.length_append, List.length_singleton, List.length_singleton]
          omega
        obtain ⟨n', hn', heq⟩ := ih (n := k) (by omega) hroom'
        refine ⟨n', hn', ?_⟩
        rw [quoteArg_escapable hc, List.cons_append, List.cons_append]
        have hfirst : shellExpand t fuel buflen (k + 2) (0x5c :: c :: (quoteArg arg ++ rest)) buf
            = shellExpand t fuel buflen (k + 1) (c :: (quoteArg arg ++ rest)) (buf ++ [0x5c]) :=
          shellExpand_char t fuel (k + 1) (by omega) (by decide) (fun _ => hdollar)
        rw [hfirst, shellExpand_char t fuel k (by rw [List.length_append, List.length_singleton]; omega) hdollar (fun _ => hnext)]
        rw [heq, escapeArg_escapable hc, List.append_assoc, List.append_assoc]
        rfl
      | false =>
        rw [quoteArg_plain hc hdollar, List.cons_append, List.length_cons] at hn
        rw [escapeArg_plain hc, List.length_cons] at hroom
        obtain ⟨k, rfl⟩ : ∃ k, n = k + 1 := ⟨n - 1, by lia⟩
        have hroom' : (buf ++ [c]).length + (escapeArg arg).length ≤ buflen := by
          rw [List.length_append, List.length_singleton]
          omega
        obtain ⟨n', hn', heq⟩ := ih (n := k) (by omega) hroom'
        refine ⟨n', hn', ?_⟩
        rw [quoteArg_plain hc hdollar, List.cons_append, shellExpand_char t fuel k (by omega) hdollar (fun _ => hnext), heq]
        rw [escapeArg_plain hc, List.append_assoc, List.singleton_append]

/--
The whole line, where arguments are separated by spaces.
-/
theorem shellExpand_quoteArgs (args : List (List (BitVec 8))) {n : Nat} {line : List (BitVec 8)}
    (hn : (args.flatMap fun arg => 0x20 :: quoteArg arg).length ≤ n)
    (hroom : buf.length + (args.flatMap fun arg => 0x20 :: escapeArg arg).length < buflen)
    (hline : line = args.flatMap fun arg => 0x20 :: quoteArg arg)
    : shellExpand t fuel buflen n line buf
        =
      .ok (.ok (buf ++ (args.flatMap fun arg => 0x20 :: escapeArg arg) ++ [0])) := by
  subst hline
  induction args generalizing n buf with
  | nil =>
    rw [List.flatMap_nil, List.length_nil, Nat.add_zero] at hroom
    rw [List.flatMap_nil, List.flatMap_nil, List.append_nil]
    cases n <;> rw [shellExpand, if_pos hroom]
  | cons arg args ih =>
    rw [List.flatMap_cons, List.cons_append, List.length_cons] at hn hroom
    rw [List.length_append] at hroom
    obtain ⟨k, rfl⟩ : ∃ k, n = k + 1 := ⟨n - 1, by lia⟩
    have hrest : charAt (args.flatMap fun arg => 0x20 :: quoteArg arg) ≠ 0x24 := by
      cases args with
      | nil => decide
      | cons arg' args' =>
        rw [List.flatMap_cons]
        have : (0x20 : BitVec 8) ≠ 0x24 := by decide
        exact this
    have hfirst : (buf ++ [0x20]).length + (escapeArg arg).length ≤ buflen := by
      rw [List.length_append, List.length_singleton]
      omega
    obtain ⟨n', hn', heq⟩ := shellExpand_quoteArg t fuel hrest (n := k) (by omega) hfirst
    rw [List.flatMap_cons, List.cons_append, shellExpand_char t fuel k (by omega) (by decide) (fun h => absurd h (by decide)), heq]
    rw [ih hn']
    . simp
    . rw [List.length_append, List.length_append, List.length_singleton]
      omega

end

section

variable {b : WordBuf} {n : Nat}

/--
What stands behind a word: its end, or a space in front of the next one.
-/
def EndsWord (rest : List (BitVec 8)) : Prop := ∃ c line, rest = c :: line ∧ (c = 0 ∨ c = 0x20)

theorem push_of_pos {next : WordBuf → Run (Option (List (BitVec 8)) × Buffer (BitVec 8))}
    (hroom : 0 < b.buflen) (hpos : b.pos < b.data.size)
    : b.push c next
        =
      next ⟨b.data.store b.pos [c], b.pos + 1, b.buflen - 1⟩ := by
  unfold WordBuf.push
  rw [if_pos hroom, Buffer.set_of_lt hpos]
  rfl

theorem go_end (hrest : EndsWord rest) (hroom : 0 < b.buflen) (hpos : b.pos < b.data.size)
    : shellParse.go (n + 1) 0 rest b = .ok (some rest, b.data.store b.pos [0]) := by
  obtain ⟨c, line, rfl, hc⟩ := hrest
  have hfinish : b.finish (c :: line) = .ok (some (c :: line), b.data.store b.pos [0]) := by
    unfold WordBuf.finish
    rw [if_pos hroom, Buffer.set_of_lt hpos]
    rfl
  cases hc with
  | inl hc =>
    subst hc
    exact hfinish
  | inr hc =>
    subst hc
    exact hfinish

theorem go_escapeArg (harg : 0 ∉ arg) (hrest : EndsWord rest) (hroom : (arg.length : Int) < b.buflen)
    (hpos : b.pos + arg.length < b.data.size) (hn : (escapeArg arg).length < n)
    : shellParse.go n 0 (escapeArg arg ++ rest) b = .ok (some rest, b.data.store b.pos (arg ++ [0])) := by
  induction arg generalizing n b with
  | nil =>
    obtain ⟨k, rfl⟩ : ∃ k, n = k + 1 := ⟨n - 1, by lia⟩
    exact go_end hrest hroom hpos
  | cons c arg ih =>
    rw [List.mem_cons, not_or] at harg
    rw [List.length_cons] at hroom hpos
    rw [List.cons_append, Buffer.store_cons]
    have hnext : ∀ k, (escapeArg arg).length < k
        → shellParse.go k 0 (escapeArg arg ++ rest) ⟨b.data.store b.pos [c], b.pos + 1, b.buflen - 1⟩
          = .ok (some rest, (b.data.store b.pos [c]).store (b.pos + 1) (arg ++ [0])) := by
      intro k hk
      apply ih harg.2 _ _ hk
      . dsimp only
        omega
      . rw [Buffer.size_store]
        dsimp only
        omega
    cases hc : isEscapable c with
    | true =>
      rw [escapeArg_escapable hc, List.length_cons, List.length_cons] at hn
      obtain ⟨k, rfl⟩ : ∃ k, n = k + 1 := ⟨n - 1, by lia⟩
      have hescape : shellParse.go (k + 1) 0 (0x5c :: c :: (escapeArg arg ++ rest)) b
          = b.push c (shellParse.go k 0 (escapeArg arg ++ rest)) := by
        have : shellParse.go (k + 1) 0 (0x5c :: c :: (escapeArg arg ++ rest)) b
            = escape (c :: (escapeArg arg ++ rest)) b (shellParse.go k 0) := rfl
        rw [this]
        simp only [escape, load, hc, bind, Except.bind, ↓reduceIte, List.tail_cons]
      rw [escapeArg_escapable hc, List.cons_append, List.cons_append, hescape]
      rw [push_of_pos (by omega) (by omega), hnext k (by omega)]
      rfl
    | false =>
      rw [escapeArg_plain hc, List.length_cons] at hn
      obtain ⟨k, rfl⟩ : ∃ k, n = k + 1 := ⟨n - 1, by lia⟩
      have hblank := isBlank_of_not_isEscapable hc
      have hplain : shellParse.go (k + 1) 0 (c :: (escapeArg arg ++ rest)) b
          = b.push c (shellParse.go k 0 (escapeArg arg ++ rest)) := by
        rw [not_isEscapable_iff] at hc
        have hquote : ¬ (c = 0x22 ∨ c = 0x27) := by
          rw [not_or]
          exact ⟨hc.2.2.1, hc.2.1⟩
        simp only [shellParse.go, load, bind, Except.bind]
        rw [if_neg (Ne.symm harg.1), if_neg hquote, if_neg hc.1, if_neg (by simp [hblank])]
        rfl
      rw [escapeArg_plain hc, List.cons_append, hplain]
      rw [push_of_pos (by omega) (by omega), hnext k (by omega)]
      rfl

end

end

end Emos.Boot
