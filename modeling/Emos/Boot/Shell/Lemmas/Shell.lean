import Emos.Boot.Shell.Impl.Shell
import Emos.Boot.Shell.Lemmas.Parse

/-!
This module contains that a line of quoted arguments gives exactly these arguments to the handler of
the command that the first one names.
-/

open Lib

namespace Emos.Boot

/--
The arguments with their special characters behind backslashes and a space between two of them.
-/
def quoteLine (args : List (List (BitVec 8))) : List (BitVec 8) := [0x20].intercalate (args.map quoteArg)

/--
A string and its terminating zero are stored from `p` on.
-/
def WordAt (b : Buffer (BitVec 8)) (p : Nat) (str : List (BitVec 8)) : Prop :=
  p + str.length < b.size ∧ ∀ k (h : k < (str ++ [0]).length), b.data (p + k) = (str ++ [0])[k]

section

variable {b : Buffer (BitVec 8)} {p : Nat} {str : List (BitVec 8)}

theorem WordAt.tail {c : BitVec 8} (h : WordAt b p (c :: str)) : WordAt b (p + 1) str := by
  obtain ⟨hlt, hbytes⟩ := h
  rw [List.length_cons] at hlt
  refine ⟨by omega, ?_⟩
  intro k hk
  have := hbytes (k + 1) (by simpa using hk)
  rw [show p + 1 + k = p + (k + 1) by omega, this]
  rfl

theorem WordAt.get_cons {c : BitVec 8} (h : WordAt b p (c :: str)) : b.get (ε := Fault) .access p = .ok c := by
  have hfirst := h.2 0 (by simp)
  have hlt := h.1
  rw [Buffer.get_of_lt (by omega)]
  exact congrArg Except.ok hfirst

theorem WordAt.get_nil (h : WordAt b p []) : b.get (ε := Fault) .access p = .ok 0 := by
  have hfirst := h.2 0 (by simp)
  have hlt := h.1
  rw [Buffer.get_of_lt (by simpa using hlt)]
  exact congrArg Except.ok hfirst

theorem strnlen_of_wordAt (h : WordAt b p str) (hstr : 0 ∉ str) {n : Nat} (hn : str.length < n)
    : strnlen b p n = .ok str.length := by
  induction str generalizing p n with
  | nil =>
    obtain ⟨k, rfl⟩ : ∃ k, n = k + 1 := ⟨n - 1, by lia⟩
    simp [strnlen, h.get_nil, bind, Except.bind]
  | cons c str ih =>
    rw [List.length_cons] at hn
    rw [List.mem_cons, not_or] at hstr
    obtain ⟨k, rfl⟩ : ∃ k, n = k + 1 := ⟨n - 1, by lia⟩
    have hrest := ih h.tail hstr.2 (n := k) (by omega)
    have hc : ¬ c = 0#8 := Ne.symm hstr.1
    simp [strnlen, h.get_cons, hc, hrest, bind, Except.bind]

theorem strcmpEq_of_wordAt (h : WordAt b p str) (hstr : 0 ∉ str) {name : List (BitVec 8)} (hname : 0 ∉ name)
    : strcmpEq b name p = .ok (decide (name = str)) := by
  induction name generalizing p str with
  | nil =>
    cases str with
    | nil => simp [strcmpEq, h.get_nil, bind, Except.bind]
    | cons c str =>
      rw [List.mem_cons, not_or] at hstr
      have hc : ¬ c = 0#8 := Ne.symm hstr.1
      simp [strcmpEq, h.get_cons, hc, bind, Except.bind]
  | cons a name ih =>
    rw [List.mem_cons, not_or] at hname
    have ha : ¬ a = 0#8 := Ne.symm hname.1
    cases str with
    | nil => simp [strcmpEq, h.get_nil, ha, bind, Except.bind]
    | cons c str =>
      rw [List.mem_cons, not_or] at hstr
      have hrest := ih h.tail hstr.2 hname.2
      by_cases hac : a = c
      . simp [strcmpEq, h.get_cons, hac, hrest, bind, Except.bind]
      . simp [strcmpEq, h.get_cons, hac, bind, Except.bind]

theorem findCommand_of_wordAt {σ : Type} (h : WordAt b p str) (hstr : 0 ∉ str) (cmds : List (Command σ))
    : findCommand b p cmds = .ok (cmds.find? fun cmd => decide (cmd.name.bytes = str)) := by
  induction cmds with
  | nil => rfl
  | cons cmd cmds ih =>
    have hname := strcmpEq_of_wordAt h hstr cmd.name.nonzero
    simp only [findCommand, hname, bind, Except.bind, List.find?_cons]
    by_cases heq : cmd.name.bytes = str
    . simp [heq]
    . simp [heq, ih]

end

/--
Where arguments begin that are stored one after the other from `p` on.
-/
def argPositions (p : Nat) : List (List (BitVec 8)) → List Nat
  | [] => []
  | arg :: args => p :: argPositions (p + (arg.length + 1)) args

/--
The arguments with their terminating zeroes.
-/
def argBytes (args : List (List (BitVec 8))) : List (BitVec 8) := args.flatMap fun arg => arg ++ [0]

section

variable {args : List (List (BitVec 8))} {arg : List (BitVec 8)} {b : Buffer (BitVec 8)} {p : Nat}

theorem argBytes_cons : argBytes (arg :: args) = (arg ++ [0]) ++ argBytes args := by
  simp [argBytes]

theorem wordAt_store (rest : List (BitVec 8)) (hsize : p + arg.length < b.size)
    : WordAt (b.store p ((arg ++ [0]) ++ rest)) p arg := by
  refine ⟨by simpa using hsize, ?_⟩
  intro k hk
  rw [Buffer.store_inside (by rw [List.length_append]; omega)]
  rw [List.getElem_append_left hk]

theorem forall₂_wordAt (hsize : p + (argBytes args).length ≤ b.size)
    : List.Forall₂ (WordAt (b.store p (argBytes args))) (argPositions p args) args := by
  induction args generalizing b p with
  | nil => exact .nil
  | cons arg args ih =>
    have hlength : (arg ++ [(0 : BitVec 8)]).length = arg.length + 1 := by simp
    rw [argBytes_cons, List.length_append, hlength] at hsize
    rw [argBytes_cons]
    refine .cons (wordAt_store _ (by omega)) ?_
    rw [Buffer.store_append, hlength]
    apply ih
    rw [Buffer.size_store]
    omega

theorem shellParse_space (line : List (BitVec 8)) (w : WordBuf) : shellParse (0x20 :: line) w = shellParse line w :=
  rfl

theorem parseWords_space (n : Nat) (line : List (BitVec 8)) (len : Nat) (argv : List Nat)
    : parseWords n (0x20 :: line) b p len argv = parseWords n line b p len argv := by
  cases n with
  | zero => rfl
  | succ n => rw [parseWords, parseWords, shellParse_space]

theorem length_argBytes : (argBytes args).length = (args.map fun arg => arg.length + 1).sum := by
  induction args with
  | nil => rfl
  | cons arg args ih =>
    rw [argBytes_cons, List.length_append, List.length_append, List.length_singleton, ih]
    rw [List.map_cons, List.sum_cons]

theorem shellParse_escapeArg {rest : List (BitVec 8)} {w : WordBuf} (hne : arg ≠ []) (harg : 0 ∉ arg)
    (hrest : EndsWord rest) (hroom : (arg.length : Int) < w.buflen) (hpos : w.pos + arg.length < w.data.size)
    : shellParse (escapeArg arg ++ rest) w = .ok (some rest, w.data.store w.pos (arg ++ [0])) := by
  obtain ⟨c, arg, rfl⟩ := List.exists_cons_of_ne_nil hne
  -- the word begins with a backslash or with a character that is no blank
  have hhead : ∃ d line, escapeArg (c :: arg) ++ rest = d :: line ∧ isBlank d = false ∧ d ≠ 0 := by
    cases hc : isEscapable c with
    | true => exact ⟨0x5c, _, by rw [escapeArg_escapable hc]; rfl, rfl, by decide⟩
    | false =>
      rw [List.mem_cons, not_or] at harg
      exact ⟨c, _, by rw [escapeArg_plain hc]; rfl, isBlank_of_not_isEscapable hc, Ne.symm harg.1⟩
  obtain ⟨d, line, hline, hblank, hzero⟩ := hhead
  have hgo := go_escapeArg harg hrest hroom hpos (n := (escapeArg (c :: arg) ++ rest).length + 1)
    (by rw [List.length_append]; omega)
  rw [hline] at hgo ⊢
  have hdrop : (d :: line).dropWhile isBlank = d :: line := by
    rw [List.dropWhile_cons, hblank]
    rfl
  simp only [shellParse, hdrop, load, bind, Except.bind]
  rw [if_neg hzero]
  exact hgo

/--
The words of a line in which a space stands in front of each argument.
-/
def spacedArgs (args : List (List (BitVec 8))) : List (BitVec 8) :=
  (args.flatMap fun arg => 0x20 :: escapeArg arg) ++ [0]

theorem endsWord_spacedArgs (args : List (List (BitVec 8))) : EndsWord (spacedArgs args) := by
  cases args with
  | nil => exact ⟨0, [], rfl, .inl rfl⟩
  | cons arg args => exact ⟨0x20, _, rfl, .inr rfl⟩

theorem spacedArgs_cons : spacedArgs (arg :: args) = 0x20 :: (escapeArg arg ++ spacedArgs args) := by
  simp [spacedArgs]

theorem parseWords_spacedArgs (hargs : ∀ arg ∈ args, arg ≠ [] ∧ 0 ∉ arg) {n len : Nat} {argv : List Nat}
    (hn : args.length ≤ n) (hlen : (argBytes args).length ≤ len) (hsize : p + len ≤ b.size) (hlt : len < 2 ^ 31)
    : parseWords n (spacedArgs args) b p len argv
        =
      .ok (argv ++ argPositions p args, b.store p (argBytes args)) := by
  induction args generalizing b p n len argv with
  | nil =>
    rw [argPositions, List.append_nil]
    cases n with
    | zero => rfl
    | succ n =>
      have hnone : shellParse (spacedArgs []) ⟨b, p, toLong len⟩ = .ok (none, b) := rfl
      simp only [parseWords, hnone, bind, Except.bind]
      rfl
  | cons arg args ih =>
    rw [List.forall_mem_cons] at hargs
    obtain ⟨⟨hne, hzero⟩, hargs⟩ := hargs
    have hlength : (arg ++ [(0 : BitVec 8)]).length = arg.length + 1 := by simp
    rw [argBytes_cons, List.length_append, hlength] at hlen
    rw [List.length_cons] at hn
    obtain ⟨k, rfl⟩ : ∃ k, n = k + 1 := ⟨n - 1, by lia⟩
    have hlong : toLong len = (len : Int) := if_pos hlt
    have hparse : shellParse (spacedArgs (arg :: args)) ⟨b, p, toLong len⟩
        = .ok (some (spacedArgs args), b.store p (arg ++ [0])) := by
      rw [spacedArgs_cons, shellParse_space]
      apply shellParse_escapeArg hne hzero (endsWord_spacedArgs args)
      . rw [hlong]
        dsimp only
        lia
      . dsimp only
        lia
    have hstring : WordAt (b.store p (arg ++ [0])) p arg := by
      have : WordAt (b.store p ((arg ++ [0]) ++ [])) p arg := wordAt_store [] (by lia)
      rw [List.append_nil] at this
      exact this
    have hstrnlen := strnlen_of_wordAt hstring hzero (n := len) (by lia)
    have hsub : sub32 len (arg.length + 1) = len - (arg.length + 1) := sub32_of_le (by lia) (by lia)
    simp only [parseWords, hparse, hstrnlen, bind, Except.bind]
    rw [hsub]
    rw [ih hargs (by lia) (by lia) (by rw [Buffer.size_store]; lia) (by lia)]
    rw [argPositions, argBytes_cons, Buffer.store_append (argBytes args), hlength, List.append_assoc,
      List.singleton_append]

theorem quoteLine_cons : quoteLine (arg :: args) = quoteArg arg ++ args.flatMap fun arg => 0x20 :: quoteArg arg := by
  unfold quoteLine
  induction args generalizing arg with
  | nil => simp
  | cons arg' args ih =>
    have hrest := @ih arg'
    rw [List.map_cons] at hrest
    rw [List.map_cons, List.map_cons, List.intercalate_cons_cons, hrest]
    simp

theorem length_spaced_le : (args.flatMap fun arg => 0x20 :: escapeArg arg).length ≤ 2 * (argBytes args).length := by
  induction args with
  | nil => exact Nat.le_refl 0
  | cons arg args ih =>
    have : (escapeArg arg).length ≤ 2 * arg.length := length_escapeArg_le
    rw [argBytes_cons, List.flatMap_cons]
    simp only [List.length_append, List.length_cons, List.length_nil]
    omega

theorem shellExpand_quoteLine {α : Type} (t : ShellVars α) (fuel : Nat)
    (hlen : (argBytes (arg :: args)).length ≤ 512)
    : shellExpand t fuel 4096 (quoteLine (arg :: args)).length (quoteLine (arg :: args)) []
        =
      .ok (.ok (escapeArg arg ++ spacedArgs args)) := by
  have hrest : charAt (args.flatMap fun arg => 0x20 :: quoteArg arg) ≠ 0x24 := by
    cases args with
    | nil => decide
    | cons arg' args' =>
      have hspace : (0x20 : BitVec 8) ≠ 0x24 := by decide
      exact hspace
  have hfirst : (escapeArg arg).length ≤ 2 * arg.length := length_escapeArg_le
  have hothers := @length_spaced_le args
  rw [argBytes_cons, List.length_append, List.length_append, List.length_singleton] at hlen
  rw [quoteLine_cons]
  have hroom : ([] : List (BitVec 8)).length + (escapeArg arg).length ≤ 4096 := by
    rw [List.length_nil]
    omega
  obtain ⟨n', hn', heq⟩ := shellExpand_quoteArg t fuel hrest (Nat.le_refl _) hroom
  rw [heq, shellExpand_quoteArgs t fuel args hn' _ rfl]
  . rw [List.nil_append, List.append_assoc]
    rfl
  . rw [List.nil_append]
    omega

end

section

variable {α σ : Type}

/--
Whatever the variables are, the handler of the first command with the name of the first argument is
called with the arguments that the line was written for. A line for `exit` calls no handler.
-/
theorem shellExecute_quoteLine (commands : List (Command σ)) (t : ShellVars α) (fuel : Nat)
    (elemBuf : Nat → BitVec 8) (name : List (BitVec 8)) (args : List (List (BitVec 8))) (s : σ)
    (hargs : ∀ arg ∈ name :: args, arg ≠ [] ∧ 0 ∉ arg) (hcount : (name :: args).length ≤ 32)
    (hlen : ((name :: args).map fun arg => arg.length + 1).sum ≤ 512)
    : ∃ b argv, List.Forall₂ (WordAt b) argv (name :: args)
        ∧ shellExecute commands t fuel elemBuf (quoteLine (name :: args)) s
            =
          if name = exitName then
            .ok (-1, s)
          else
            match commands.find? fun cmd => decide (cmd.name.bytes = name) with
            | some cmd => cmd.handler b argv s
            | none => .ok (1, s) := by
  have hbytes : (argBytes (name :: args)).length ≤ 512 := by
    rw [length_argBytes]
    exact hlen
  let b : Buffer (BitVec 8) := ⟨512, elemBuf⟩
  have hsize : 0 + (argBytes (name :: args)).length ≤ b.size := by
    rw [Nat.zero_add]
    exact hbytes
  have hstrings := forall₂_wordAt hsize
  refine ⟨_, _, hstrings, ?_⟩
  have hexpand := shellExpand_quoteLine t fuel hbytes
  have hwords : parseWords 32 (escapeArg name ++ spacedArgs args) b 0 512 []
      = .ok (argPositions 0 (name :: args), b.store 0 (argBytes (name :: args))) := by
    rw [← parseWords_space, ← spacedArgs_cons, parseWords_spacedArgs hargs hcount hbytes (Nat.le_refl _) (by decide)]
    rw [List.nil_append]
  cases hstrings with
  | cons hname _ =>
    have hzero := (hargs name (List.mem_cons_self ..)).2
    have hnul : (0 : BitVec 8) ∉ exitName := by decide
    have hexit := strcmpEq_of_wordAt hname hzero hnul
    have hfind := findCommand_of_wordAt hname hzero commands
    simp only [shellExecute, hexpand, bind, Except.bind]
    simp only [b] at hwords hexit hfind
    simp only [hwords, argPositions, hexit, hfind, decide_eq_true_eq]
    by_cases heq : name = exitName
    . rw [if_pos heq, if_pos heq.symm]
    . have hne := Ne.symm heq
      cases commands.find? fun cmd => decide (cmd.name.bytes = name) with
      | none => simp [heq, hne]
      | some cmd => simp [heq, hne, b]

end

section

/--
A command that returns how many arguments it was given.
-/
def countCommand (name : CString) : Command Unit where
  name := name
  handler := fun _ argv s => .ok (argv.length, s)

def echoName : CString := ⟨[0x65, 0x63, 0x68, 0x6f], by decide⟩

/--
`echo a\ b \$`
-/
theorem shellExecute_quoteLine_echo
    : ∃ b argv, List.Forall₂ (WordAt b) argv [echoName.bytes, [0x61, 0x20, 0x62], [0x24]]
        ∧ shellExecute [countCommand echoName] (α := Nat) ⟨none, fun _ => none⟩ 0 (fun _ => 0)
            (quoteLine [echoName.bytes, [0x61, 0x20, 0x62], [0x24]]) ()
            =
          .ok (argv.length, ()) := by
  obtain ⟨b, argv, hargv, h⟩ := shellExecute_quoteLine [countCommand echoName] (α := Nat) ⟨none, fun _ => none⟩ 0
    (fun _ => 0) echoName.bytes [[0x61, 0x20, 0x62], [0x24]] () (by decide) (by decide) (by decide)
  refine ⟨b, argv, hargv, ?_⟩
  rw [h, if_neg (by decide)]
  rfl

def exitCommand : Command Unit := countCommand ⟨exitName, by decide⟩

/--
A command of the name `exit` is not called.
-/
theorem shellExecute_quoteLine_false
    : ¬ ∀ (commands : List (Command Unit)) (t : ShellVars Nat) (fuel : Nat) (elemBuf : Nat → BitVec 8)
        (name : List (BitVec 8)) (args : List (List (BitVec 8))) (cmd : Command Unit),
        (∀ arg ∈ name :: args, arg ≠ [] ∧ 0 ∉ arg) → (name :: args).length ≤ 32
        → ((name :: args).map fun arg => arg.length + 1).sum ≤ 512
        → (commands.find? fun cmd => decide (cmd.name.bytes = name)) = some cmd
        → ∃ b argv, List.Forall₂ (WordAt b) argv (name :: args)
          ∧ shellExecute commands t fuel elemBuf (quoteLine (name :: args)) () = cmd.handler b argv () := by
  intro hall
  obtain ⟨b, argv, _, h⟩ := hall [exitCommand] ⟨none, fun _ => none⟩ 0 (fun _ => 0) exitName [] exitCommand
    (by decide) (by decide) (by decide) rfl
  have hexit : shellExecute [exitCommand] (α := Nat) ⟨none, fun _ => none⟩ 0 (fun _ => 0) (quoteLine [exitName]) ()
      = .ok (-1, ()) := by
    rfl
  rw [hexit] at h
  cases h

end

end Emos.Boot
