/-
coreutils.c: the command line and the commands.

`parse_command_line` cuts a line into words in its place: it writes a NUL over the blank
behind a word, and keeps where each word begins. It stops when the argument vector is full,
which is before it has seen the end of the last word that fits. `parse_command_line_iff` in
`Curnel.Coreutils.Words` says for which lines that word is cut.

A string is given as its characters up to the NUL.
-/

import Curnel.Terminal

namespace Curnel.Coreutils

/-- The characters of a string constant. -/
def text (s : String) : List UInt8 := s.toList.map fun c => c.toUInt8

/-- A space or a tab. -/
def blank (c : UInt8) : Bool := c = 32 ∨ c = 9

/-! ### `parse_command_line` -/

/-- What `parse_command_line` leaves: the line, and the offset of each argument in it. -/
structure Parsed where
  argc : Nat
  line : List UInt8
  argv : Nat → Option Nat

/-- The loop at character `i`, over the characters that are left of the line. -/
def parseLoop (maxArgs : Nat) :
    List UInt8 → Nat → Nat → Bool → (Nat → Option Nat) → Parsed
  | [], _, argc, _, argv => ⟨argc, [], argv⟩
  | c :: rest, i, argc, inWord, argv =>
      if argc < maxArgs - 1 then
        if blank c then
          let p := parseLoop maxArgs rest (i + 1) argc false argv
          { p with line := (if inWord then 0 else c) :: p.line }
        else if inWord then
          let p := parseLoop maxArgs rest (i + 1) argc true argv
          { p with line := c :: p.line }
        else
          let p := parseLoop maxArgs rest (i + 1) (argc + 1) true
            (Function.update argv argc (some i))
          { p with line := c :: p.line }
      else ⟨argc, c :: rest, argv⟩

def parseCommandLine (commandLine : List UInt8) (argv : Nat → Option Nat) (maxArgs : Nat) :
    Parsed :=
  let p := parseLoop maxArgs commandLine 0 0 false argv
  { p with argv := Function.update p.argv p.argc none }

/-- The string at an offset of a line. -/
def stringAt (line : List UInt8) (offset : Nat) : List UInt8 :=
  (line.drop offset).takeWhile (· ≠ 0)

/-- `argv[i]`, as a string. -/
def Parsed.arg (p : Parsed) (i : Nat) : Option (List UInt8) := (p.argv i).map (stringAt p.line)

/-! ### `execute_command` -/

/-- The names of the commands. -/
def commands : List (List UInt8) :=
  ["ls", "cd", "pwd", "mkdir", "rmdir", "rm", "cp", "mv", "cat", "echo", "ps", "kill", "sleep",
    "touch", "clear", "help", "exit"].map text

/-- What the commands do: what each returns, and what it writes. -/
abbrev Functions := Nat → List (List UInt8) → Terminal.State → Int × Terminal.State

/-- `execute_command`, with the line that it leaves. -/
def executeCommand (func : Functions) (commandLine : List UInt8) (terminal : Terminal.State) :
    Int × List UInt8 × Terminal.State :=
  let p := parseCommandLine commandLine (fun _ => none) 64
  let argv := (List.range p.argc).map fun i => (p.arg i).getD []
  match argv with
  | [] => (0, p.line, terminal)
  | name :: _ =>
      match commands.findIdx? (· = name) with
      | some i =>
          let (result, terminal) := func i argv terminal
          (result, p.line, terminal)
      | none =>
          (-1, p.line, Terminal.terminalWrite (text "Komut bulunamadi: " ++ name ++ [10]) terminal)

theorem length_parseLoop (maxArgs : Nat) (rest : List UInt8) (i argc : Nat) (inWord : Bool)
    (argv : Nat → Option Nat) :
    (parseLoop maxArgs rest i argc inWord argv).line.length = rest.length := by
  induction rest generalizing i argc inWord argv with
  | nil => rfl
  | cons c rest ih =>
      rw [parseLoop]
      by_cases hroom : argc < maxArgs - 1
      · rw [if_pos hroom]
        cases blank c with
        | true => simp [ih]
        | false => cases inWord <;> simp [ih]
      · rw [if_neg hroom]

theorem length_executeCommand (func : Functions) (commandLine : List UInt8)
    (terminal : Terminal.State) :
    (executeCommand func commandLine terminal).2.1.length = commandLine.length := by
  have hline : (parseCommandLine commandLine (fun _ => none) 64).line.length
      = commandLine.length := length_parseLoop ..
  unfold executeCommand
  dsimp only
  split
  · exact hline
  · split <;> exact hline

/-! ### What is expected of `parse_command_line` -/

/-- The maximal runs of characters that are not blank. -/
def words (line : List UInt8) : List (List UInt8) := (line.splitOnP blank).filter (· ≠ [])

end Curnel.Coreutils
