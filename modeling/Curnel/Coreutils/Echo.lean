/-
coreutils.c: `cmd_echo`, from the command line to the terminal.

`execute_command` cuts the line into words and calls the command that the first one names;
`cmd_echo` writes the others, with a space between two of them. The argument that fills the
vector may go on to the end of the line, so what is written is not always its words one space
apart. But cut into words again it gives them all, those too that had no place in the vector
(`echo_keeps_words`).
-/

import Curnel.Coreutils.Words

namespace Curnel.Coreutils

open Terminal (terminalWrite terminalWrite_nil terminalWrite_append)

/-! ### The code -/

/-- The loop of `cmd_echo`, over the arguments that are left. -/
def echoLoop : List (List UInt8) → Terminal.State → Terminal.State
  | [], terminal => terminal
  | arg :: rest, terminal =>
      let terminal := terminalWrite arg terminal
      echoLoop rest (if rest.isEmpty then terminal else terminalWrite [32] terminal)

def cmdEcho (argv : List (List UInt8)) (terminal : Terminal.State) : Int × Terminal.State :=
  (0, terminalWrite [10] (echoLoop argv.tail terminal))

/-- The arguments that `execute_command` hands to a command. -/
def Parsed.args (p : Parsed) : List (List UInt8) :=
  (List.range p.argc).map fun i => (p.arg i).getD []

theorem echoLoop_eq (args : List (List UInt8)) (terminal : Terminal.State) :
    echoLoop args terminal = terminalWrite ([32].intercalate args) terminal := by
  induction args generalizing terminal with
  | nil => rfl
  | cons arg rest ih =>
      cases rest with
      | nil => rw [List.intercalate_singleton]; rfl
      | cons next rest =>
          rw [List.intercalate_cons_cons, terminalWrite_append, terminalWrite_append]
          exact ih _

/-! ### Words of a line in pieces -/

section Pieces

variable {c : UInt8} {line : List UInt8}

theorem word_append (h : blank c = true) (front rest : List UInt8) :
    word (front ++ c :: rest) = word front := by
  induction front with
  | nil => exact word_blank h rest
  | cons b front ih =>
      rw [List.cons_append]
      cases hblank : blank b with
      | true => rw [word_blank hblank, word_blank hblank]
      | false => rw [word_cons hblank, word_cons hblank, ih]

theorem starts_append (h : blank c = true) (inWord : Bool) (front rest : List UInt8) :
    (starts inWord (front ++ c :: rest)).map word
      = (starts inWord front).map word ++ (starts false rest).map word := by
  induction front generalizing inWord with
  | nil =>
      rw [List.nil_append, starts_blank h]
      rfl
  | cons b front ih =>
      rw [List.cons_append]
      cases hblank : blank b with
      | true => rw [starts_blank hblank, starts_blank hblank, ih]
      | false =>
          cases inWord with
          | true => rw [starts_inside hblank, starts_inside hblank, ih]
          | false =>
              have hword : word (b :: (front ++ c :: rest)) = word (b :: front) :=
                word_append h (b :: front) rest
              rw [starts_begin hblank, starts_begin hblank, List.map_cons, List.map_cons, ih,
                hword, List.cons_append]

theorem words_append (h : blank c = true) (front rest : List UInt8) :
    words (front ++ c :: rest) = words front ++ words rest := by
  rw [words_eq, words_eq, words_eq, starts_append h]

theorem words_intercalate (args : List (List UInt8)) :
    words ([32].intercalate args) = args.flatMap words := by
  induction args with
  | nil => rfl
  | cons arg rest ih =>
      cases rest with
      | nil => rw [List.intercalate_singleton, List.flatMap_singleton]
      | cons next rest =>
          have hpieces : [32].intercalate (arg :: next :: rest)
              = arg ++ 32 :: [32].intercalate (next :: rest) := by
            rw [List.intercalate_cons_cons, List.append_assoc, List.singleton_append]
          rw [hpieces, words_append (by decide), ih]
          rfl

/-- From the first character of a word on, the line has the words from this one on. -/
theorem words_start {j : Nat} {s : List UInt8} (h : (starts false line)[j]? = some s) :
    words s = (words line).drop j := by
  obtain ⟨c, rest, rfl, hblank, hdrop, -⟩ := starts_getElem h
  obtain ⟨hj, hget⟩ := List.getElem?_eq_some_iff.mp h
  rw [words_eq, words_eq, ← List.map_drop, List.drop_eq_getElem_cons hj, hget, ← hdrop,
    starts_begin hblank]

/-- A word is its only word. -/
theorem words_word {j : Nat} {s : List UInt8} (h : (starts false line)[j]? = some s) :
    words (word s) = [word s] := by
  obtain ⟨c, rest, rfl, hblank, -, -⟩ := starts_getElem h
  have hword : word (word rest) = word rest := List.takeWhile_idem ..
  have hnone : starts true (word rest) = [] := (word_eq_self_iff.mp hword).1
  rw [word_cons hblank, words_eq, starts_begin hblank, hnone, List.map_singleton,
    word_cons hblank, hword]

end Pieces

/-! ### The arguments -/

/-- Single elements of a list, and from the last place on all that is left of it. -/
theorem flatMap_places {α : Type} {list : List α} {f : Nat → List α} {k m : Nat}
    (hf : ∀ i < min list.length (k + 1 + m),
      f i = if i + 1 < k + 1 + m then (list.drop i).take 1 else list.drop i) :
    ((List.range (min list.length (k + 1 + m))).drop k).flatMap f = list.drop k := by
  rcases Nat.lt_or_ge k list.length with hlt | hge
  · have hk : k < (List.range (min list.length (k + 1 + m))).length := by
      rw [List.length_range]
      omega
    rw [List.drop_eq_getElem_cons hk, List.getElem_range, List.flatMap_cons, hf k (by omega)]
    cases m with
    | zero =>
        have hrest : (List.range (min list.length (k + 1 + 0))).drop (k + 1) = [] := by
          rw [List.drop_eq_nil_iff, List.length_range]
          omega
        rw [if_neg (by omega), hrest, List.flatMap_nil, List.append_nil]
    | succ m =>
        have hplaces : k + 1 + (m + 1) = k + 1 + 1 + m := by omega
        rw [hplaces] at hf ⊢
        rw [if_pos (by omega), flatMap_places hf, ← List.drop_drop, List.take_append_drop]
  · have hnone : (List.range (min list.length (k + 1 + m))).drop k = [] := by
      rw [List.drop_eq_nil_iff, List.length_range]
      omega
    rw [hnone, List.flatMap_nil, List.drop_eq_nil_iff.mpr hge]

section Arguments

variable {line : List UInt8} {maxArgs : Nat}

/-- An argument has one word, but for the one that fills the vector. -/
theorem words_arg (hline : 0 ∉ line) (argv : Nat → Option Nat) {i : Nat}
    (hi : i < (parseCommandLine line argv maxArgs).argc) :
    words (((parseCommandLine line argv maxArgs).arg i).getD [])
      = if i + 1 < maxArgs - 1 then ((words line).drop i).take 1 else (words line).drop i := by
  obtain ⟨s, hs, harg⟩ := parse_arg_start hline argv hi
  rw [harg, Option.getD_some]
  split
  next =>
    have hhead : (words line)[i]? = some (word s) := by
      rw [words_eq, List.getElem?_map, hs, Option.map_some]
    obtain ⟨hlt, hget⟩ := List.getElem?_eq_some_iff.mp hhead
    rw [words_word hs, List.drop_eq_getElem_cons hlt, hget]
    rfl
  next => exact words_start hs

/-- All words of the line are words of its arguments. -/
theorem words_args (hline : 0 ∉ line) (argv : Nat → Option Nat) {k : Nat}
    (hk : k < maxArgs - 1) :
    ((parseCommandLine line argv maxArgs).args.drop k).flatMap words = (words line).drop k := by
  obtain ⟨m, hm⟩ : ∃ m, maxArgs - 1 = k + 1 + m := ⟨maxArgs - 1 - (k + 1), by omega⟩
  have hargc := parse_argc_eq maxArgs hline argv
  have hplaces := @words_arg line maxArgs hline argv
  rw [hargc, hm] at hplaces
  rw [Parsed.args, ← List.map_drop, List.flatMap_map, hargc, hm]
  exact flatMap_places fun i hi => hplaces hi

theorem args_of_terminated (hline : 0 ∉ line) (argv : Nat → Option Nat) (hmax : 2 ≤ maxArgs)
    (terminated : Terminated line maxArgs) :
    (parseCommandLine line argv maxArgs).args = words line := by
  have parses := (parse_command_line_iff hline argv hmax).mpr terminated
  have hargc : (parseCommandLine line argv maxArgs).argc = (words line).length := by
    rw [parses.argc_eq]
    rcases terminated with hfew | ⟨hlength, -⟩ <;> omega
  refine List.ext_getElem? fun i => ?_
  rw [Parsed.args, List.getElem?_map, hargc]
  rcases Nat.lt_or_ge i (words line).length with hlt | hge
  · rw [List.getElem?_range hlt, Option.map_some, parses.arg_eq i (by omega),
      List.getElem?_eq_getElem hlt]
    rfl
  · rw [List.getElem?_eq_none hge, List.getElem?_eq_none (by rw [List.length_range]; exact hge)]
    rfl

/-- The first argument is the first word. -/
theorem args_eq_cons (hline : 0 ∉ line) (argv : Nat → Option Nat) (hmax : 3 ≤ maxArgs)
    {name : List UInt8} (hname : (words line).head? = some name) :
    (parseCommandLine line argv maxArgs).args
      = name :: (parseCommandLine line argv maxArgs).args.drop 1 := by
  have hlength : 0 < (words line).length :=
    List.length_pos_iff.mpr fun h => by rw [h] at hname; cases hname
  have hargc : 0 < (parseCommandLine line argv maxArgs).argc := by
    rw [parse_argc_eq maxArgs hline argv]
    omega
  have hfirst := (parse_arg_eq_iff hline argv hargc).mpr (Or.inl (by omega))
  have hrange : (List.range (parseCommandLine line argv maxArgs).argc).head? = some 0 := by
    rw [List.head?_range, if_neg (by omega)]
  have hhead : (parseCommandLine line argv maxArgs).args.head? = some name := by
    rw [Parsed.args, List.head?_map, hrange, Option.map_some, hfirst, ← List.head?_eq_getElem?,
      hname, Option.getD_some]
  obtain ⟨rest, hcons⟩ := List.head?_eq_some_iff.mp hhead
  rw [hcons]
  rfl

end Arguments

/-! ### `execute_command` -/

/-- The command that the first argument names is called with all of them. -/
theorem executeCommand_named {func : Functions} {line name : List UInt8}
    {args : List (List UInt8)} {i : Nat}
    (hargs : (parseCommandLine line (fun _ => none) 64).args = name :: args)
    (hfind : commands.findIdx? (· = name) = some i) (terminal : Terminal.State) :
    (executeCommand func line terminal).1 = (func i (name :: args) terminal).1 ∧
      (executeCommand func line terminal).2.2 = (func i (name :: args) terminal).2 := by
  rw [Parsed.args] at hargs
  unfold executeCommand
  dsimp only
  rw [hargs]
  dsimp only
  rw [hfind]
  exact ⟨rfl, rfl⟩

/-- **No word is lost.** On a line whose first word is `echo`, `execute_command` writes a text
with the other words of the line, all of them and in their order, and ends the line. Where
`parse_command_line` finds the words, the text is these words one space apart. -/
theorem echo_keeps_words {func : Functions} {line : List UInt8} (hline : 0 ∉ line)
    (hfunc : ∀ i, commands[i]? = some (text "echo") → func i = cmdEcho)
    (hname : (words line).head? = some (text "echo")) (terminal : Terminal.State) :
    (executeCommand func line terminal).1 = 0 ∧
      ∃ output, (executeCommand func line terminal).2.2
          = terminalWrite (output ++ [10]) terminal ∧
        words output = (words line).tail ∧
        (Terminated line 64 → output = [32].intercalate (words line).tail) := by
  have hargs := @args_eq_cons line 64 hline (fun _ => none) (by decide) _ hname
  have hfind : commands.findIdx? (· = text "echo") = some 9 := by decide +kernel
  obtain ⟨hresult, hterminal⟩ := @executeCommand_named func line _ _ 9 hargs hfind terminal
  rw [hfunc 9 (by decide +kernel)] at hresult hterminal
  refine ⟨hresult, [32].intercalate ((parseCommandLine line (fun _ => none) 64).args.drop 1),
    ?_, ?_, fun terminated => ?_⟩
  · rw [hterminal, cmdEcho, List.tail_cons, echoLoop_eq, terminalWrite_append]
  · rw [words_intercalate, words_args hline _ (by decide), List.drop_one]
  · rw [args_of_terminated hline _ (by decide) terminated, List.drop_one]

/-- `echo`, and two words with a tab between them. -/
theorem echo_keeps_words_tab :
    (executeCommand (fun i => if i = 9 then cmdEcho else fun _ terminal => (0, terminal))
        [101, 99, 104, 111, 32, 97, 9, 98, 32] ⟨0, 0, 7, fun _ => 0⟩).2.2
      = terminalWrite [97, 32, 98, 10] ⟨0, 0, 7, fun _ => 0⟩ := by
  have hfunc : ∀ i, commands[i]? = some (text "echo") →
      (if i = 9 then cmdEcho else fun _ terminal => (0, terminal)) = cmdEcho := by
    intro i hi
    have hlt := (List.getElem?_eq_some_iff.mp hi).1
    have hnine : ∀ j < 17, commands[j]? = some (text "echo") → j = 9 := by decide +kernel
    exact if_pos (hnine i hlt hi)
  obtain ⟨-, output, hwrites, -, hwords⟩ := @echo_keeps_words
    (fun i => if i = 9 then cmdEcho else fun _ terminal => (0, terminal))
    [101, 99, 104, 111, 32, 97, 9, 98, 32] (by decide) hfunc (by decide +kernel)
    ⟨0, 0, 7, fun _ => 0⟩
  rw [hwrites, hwords (Or.inl (by decide +kernel))]
  rfl

end Curnel.Coreutils
