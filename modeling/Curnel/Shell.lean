/-
shell.c: the line editor and the command history of the shell.

A key that `shell_run` handles is an event; `Env` is what comes from outside of shell.c: the
directory that `fs_getcwd` gives, what the commands do, and whether `strdup` gets memory. A
handler that would read or write outside of the buffer, or follow a null pointer, fails.

The history keeps the strings that its pointers point to. What `execute_command` was given
is listed in `executed`.
-/

import Curnel.Coreutils
import Curnel.Lib.Word

namespace Curnel.Shell

open Coreutils Terminal Lib.Word

def SHELL_BUFFER_SIZE : Nat := 256
def SHELL_HISTORY_SIZE : Int := 10

/-! ### The buffer -/

/-- The bytes of `buffer`. -/
structure Buffer where
  bytes : List UInt8
  length_eq : bytes.length = SHELL_BUFFER_SIZE

/-- The characters up to the NUL, if there is one. -/
def cstring : List UInt8 → Option (List UInt8)
  | [] => none
  | c :: rest => if c = 0 then some [] else (cstring rest).map (c :: ·)

namespace Buffer

/-- `memset(buffer, 0, SHELL_BUFFER_SIZE)`. -/
def zeroed : Buffer := ⟨List.replicate SHELL_BUFFER_SIZE 0, List.length_replicate⟩

def str (b : Buffer) : Option (List UInt8) := cstring b.bytes

/-- `buffer[i] = c`. -/
def put (b : Buffer) (i : Nat) (c : UInt8) : Option Buffer :=
  if i < SHELL_BUFFER_SIZE then
    some ⟨b.bytes.set i c, by rw [List.length_set, b.length_eq]⟩
  else none

/-- Characters copied to the start of the buffer. -/
def copy (b : Buffer) (chars : List UInt8) : Option Buffer :=
  if h : chars.length ≤ SHELL_BUFFER_SIZE then
    some ⟨chars ++ b.bytes.drop chars.length, by
      rw [List.length_append, List.length_drop, b.length_eq]
      omega⟩
  else none

end Buffer

/-! ### The state -/

inductive ShellState where
  | ready
  | running
  | exit
deriving DecidableEq

/-- `shell_t`, and the terminal. -/
structure State where
  buffer : Buffer
  bufferPos : Nat
  history : Nat → Option (List UInt8)
  historyCount : Int
  historyIndex : Int
  cwd : List UInt8
  state : ShellState
  terminal : Terminal.State
  executed : List (List UInt8)

/-- What an event finds outside of shell.c. -/
structure Env where
  /-- `kmalloc` gives `strdup` the memory that it asks for. -/
  granted : Bool
  cwd : List UInt8
  func : Functions

/-- What `terminal_putchar` and `terminal_writestring` do. -/
def State.write (s : State) (chars : List UInt8) : State :=
  { s with terminal := terminalWrite chars s.terminal }

def State.setColor (s : State) (fg : UInt8) : State :=
  { s with terminal := terminalSetcolor (vgaEntryColor fg VGA_COLOR_BLACK) s.terminal }

def shellPrintPrompt (env : Env) (s : State) : State :=
  let s := { s with cwd := env.cwd }
  let s := (s.setColor VGA_COLOR_LIGHT_CYAN).write s.cwd
  let s := (s.setColor VGA_COLOR_LIGHT_GREEN).write (text " $ ")
  s.setColor VGA_COLOR_LIGHT_GREY

def shellInit (env : Env) (terminal : Terminal.State) : State :=
  let s : State :=
    { buffer := .zeroed
      bufferPos := 0
      history := fun _ => none
      historyCount := 0
      historyIndex := 0
      cwd := env.cwd
      state := .ready
      terminal := terminalInitialize terminal
      executed := [] }
  let s := (s.setColor VGA_COLOR_LIGHT_GREEN).write (text "SimpleOS Shell v0.1" ++ [10])
  let s := s.write (text "Yardim icin " ++ [39] ++ text "help" ++ [39] ++ text " yazin" ++ [10, 10])
  shellPrintPrompt env (s.setColor VGA_COLOR_LIGHT_GREY)

/-! ### Typing -/

def shellProcessInput (c : UInt8) (s : State) : Option State :=
  if s.bufferPos < SHELL_BUFFER_SIZE - 1 then do
    let str ← s.buffer.str
    let s := s.write (str.drop s.bufferPos)
    let buffer ← s.buffer.put s.bufferPos c
    let s := { s with buffer := buffer, bufferPos := s.bufferPos + 1 }
    let buffer ← s.buffer.put s.bufferPos 0
    let s := { s with buffer := buffer }.write [c]
    let str ← s.buffer.str
    some (s.write (List.replicate (str.length - s.bufferPos) 8))
  else some s

def shellHandleLeftArrow (s : State) : State :=
  if s.bufferPos > 0 then { s with bufferPos := s.bufferPos - 1 }.write [8] else s

def shellHandleRightArrow (s : State) : Option State := do
  let str ← s.buffer.str
  if s.bufferPos < str.length then
    let c ← s.buffer.bytes[s.bufferPos]?
    some { s.write [c] with bufferPos := s.bufferPos + 1 }
  else some s

/-- The loop of `shell_handle_backspace` that moves the characters from `i + 1` on to the left.
It goes through the buffer once at most. -/
def shiftLeft : Nat → Nat → State → Option State
  | 0, _, _ => none
  | fuel + 1, i, s => do
      let str ← s.buffer.str
      if i < wsub 64 str.length 1 then
        let c ← s.buffer.bytes[i + 1]?
        let buffer ← s.buffer.put i c
        shiftLeft fuel (i + 1) ({ s with buffer := buffer }.write [c])
      else some s

def shellHandleBackspace (s : State) : Option State :=
  if s.bufferPos > 0 then do
    let s ← shiftLeft (SHELL_BUFFER_SIZE + 1) (s.bufferPos - 1) (s.write [8])
    let s := s.write [32]
    let str ← s.buffer.str
    let s := s.write (List.replicate (str.length - s.bufferPos) 8)
    let s := s.write [8]
    let buffer ← s.buffer.put (wsub 64 str.length 1) 0
    some { s with buffer := buffer, bufferPos := s.bufferPos - 1 }
  else some s

def shellClearBuffer (s : State) : State :=
  { s with buffer := .zeroed, bufferPos := 0, historyIndex := -1 }

/-! ### The history -/

/-- `history[0]` is freed, and the others move down by one. -/
def forgetOldest (s : State) : State :=
  { s with history := fun i =>
             if (i : Int) < s.historyCount - 1 then s.history (i + 1) else s.history i
           historyCount := s.historyCount - 1 }

/-- The command is the last one in the history. -/
def repeatsLast (command : List UInt8) (s : State) : Option Bool :=
  if s.historyCount > 0 then
    (s.history (s.historyCount - 1).toNat).map fun last => decide (last = command)
  else some false

def shellAddToHistory (granted : Bool) (command : List UInt8) (s : State) : Option State :=
  if command.length = 0 then some s
  else do
    let same ← repeatsLast command s
    if same then some s
    else
      let s := if s.historyCount = SHELL_HISTORY_SIZE then forgetOldest s else s
      some { s with
        history := Function.update s.history s.historyCount.toNat
          (if granted then some command else none)
        historyCount := s.historyCount + 1 }

/-- The index that the up arrow goes to. -/
def upIndex (s : State) : Option Int :=
  if s.historyCount = 0 then none
  else if s.historyIndex = -1 then some (s.historyCount - 1)
  else if s.historyIndex > 0 then some (s.historyIndex - 1)
  else none

/-- The index that the down arrow goes to, unless it leaves the history. -/
def downIndex (s : State) : Option Int :=
  if s.historyCount = 0 ∨ s.historyIndex = -1 then none
  else if s.historyIndex < s.historyCount - 1 then some (s.historyIndex + 1)
  else none

/-- The line is overwritten with blanks, and the prompt shown again. -/
def redrawLine (env : Env) (s : State) : State :=
  let s := s.write [13]
  let s := s.write (List.replicate (s.bufferPos + s.cwd.length + 4) 32)
  shellPrintPrompt env (s.write [13])

/-- `strcpy(buffer, history[index])`. -/
def loadHistory (env : Env) (index : Int) (s : State) : Option State := do
  let s := redrawLine env { s with historyIndex := index }
  let command ← s.history index.toNat
  let buffer ← s.buffer.copy (command ++ [0])
  let s := { s with buffer := buffer }
  let str ← s.buffer.str
  some ({ s with bufferPos := str.length }.write str)

def shellHandleUpArrow (env : Env) (s : State) : Option State :=
  match upIndex s with
  | some index => loadHistory env index s
  | none => some s

def shellHandleDownArrow (env : Env) (s : State) : Option State :=
  if s.historyCount = 0 ∨ s.historyIndex = -1 then some s
  else
    match downIndex s with
    | some index => loadHistory env index s
    | none => some (shellClearBuffer (redrawLine env { s with historyIndex := -1 }))

/-! ### Commands and events -/

/-- `shell_execute_command` after the command is in the history. -/
def runCommand (env : Env) (command : List UInt8) (s : State) : Option State := do
  let (result, line, terminal) := executeCommand env.func command s.terminal
  let buffer ← s.buffer.copy line
  let s := { s with buffer := buffer, terminal := terminal, executed := s.executed ++ [command] }
  let str ← s.buffer.str
  let s := if result = -1 then s.write (text "Komut hatasi: " ++ str ++ [10]) else s
  some (if str = text "exit" then { s with state := .exit } else s)

def shellExecuteCommand (env : Env) (s : State) : Option State := do
  let buffer ← s.buffer.put s.bufferPos 0
  let s := { s with buffer := buffer }
  if s.bufferPos = 0 then some s
  else
    let command ← s.buffer.str
    let s ← shellAddToHistory env.granted command s
    runCommand env command s

/-- The next line, after a command. -/
def nextLine (env : Env) (s : State) : State :=
  let s := shellClearBuffer s
  if s.state = .running then shellPrintPrompt env s else s

inductive Key where
  | enter
  | backspace
  | arrowUp
  | arrowDown
  | arrowLeft
  | arrowRight
  | tab
  | escape
  | ctrlC
  | ctrlD
  | ascii (c : UInt8)
deriving DecidableEq

/-- What `shell_run` does when a key is pressed. -/
def handleKey (env : Env) (key : Key) (s : State) : Option State :=
  match key with
  | .enter => (shellExecuteCommand env (s.write [10])).map (nextLine env)
  | .backspace => shellHandleBackspace s
  | .arrowUp => shellHandleUpArrow env s
  | .arrowDown => shellHandleDownArrow env s
  | .arrowLeft => some (shellHandleLeftArrow s)
  | .arrowRight => shellHandleRightArrow s
  | .tab => shellProcessInput 32 s
  | .escape => some (shellPrintPrompt env ((shellClearBuffer s).write [13]))
  | .ctrlC => some (shellPrintPrompt env (shellClearBuffer (s.write (text "^C" ++ [10]))))
  | .ctrlD =>
      if s.bufferPos = 0 then some { s.write (text "exit" ++ [10]) with state := .exit }
      else some s
  | .ascii c => if c ≠ 0 then shellProcessInput c s else some s

/-- A key, and what is outside of shell.c when it is pressed. -/
structure Event where
  env : Env
  key : Key

/-- `shell_run` handles keys until the shell exits. -/
def Step (s : State) (event : Event) (t : State) : Prop :=
  s.state = .running ∧ handleKey event.env event.key s = some t

/-- `shell_run` begins after `shell_init`. -/
def started (env : Env) (terminal : Terminal.State) : State :=
  { shellInit env terminal with state := .running }

/-- Memory for every string, a directory without a name, and commands that do nothing. -/
def plainEnv : Env := ⟨true, [], fun _ _ terminal => (0, terminal)⟩

end Curnel.Shell
