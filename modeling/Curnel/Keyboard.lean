/-
keyboard.c: the driver of the keyboard, and the ring of characters that it fills.

`keyboard_handler` is called at each interrupt with the scancode that the port gives; it
keeps the modifiers and puts characters into the ring. `keyboard_getchar_nonblock` takes
them out, and `keyboard_read` makes a line of them.
-/

import Curnel.Terminal
import Curnel.Lib.Bytes
import Curnel.Lib.Word

namespace Curnel.Keyboard

open Lib.Bytes Lib.Word

def KEYBOARD_DATA_PORT : Nat := 0x60
def KEYBOARD_COMMAND_PORT : Nat := 0x64
def KEYBOARD_CMD_ENABLE : UInt8 := 0xF4
def KEYBOARD_CMD_SET_LEDS : UInt8 := 0xED

def KEY_LCTRL : UInt8 := 0x1D
def KEY_LSHIFT : UInt8 := 0x2A
def KEY_RSHIFT : UInt8 := 0x36
def KEY_LALT : UInt8 := 0x38
def KEY_CAPSLOCK : UInt8 := 0x3A
def KEY_NUMLOCK : UInt8 := 0x45
def KEY_SCROLLLOCK : UInt8 := 0x46

/-- The bit of a scancode that says that the key is released. -/
def KEY_RELEASE : UInt8 := 0x80

/-- The scancode that stands before that of an extended key. -/
def PREFIX : UInt8 := 0xE0

inductive Mode where
  | normal
  | extended
deriving DecidableEq

/-- `keyboard_state_t`, whose flags are 0 or 1, and what `outb` has sent to which port. -/
structure State where
  shiftPressed : Bool
  ctrlPressed : Bool
  altPressed : Bool
  capsLock : Bool
  numLock : Bool
  scrollLock : Bool
  mode : Mode
  buffer : Nat → UInt8
  bufferStart : Nat
  bufferEnd : Nat
  ports : List (Nat × UInt8)

/-- The characters of the keys from scancode 0 on; the rest of the table is 0. -/
def kbdUsLowercase : List UInt8 :=
  [0, 0, 49, 50, 51, 52, 53, 54, 55, 56, 57, 48, 45, 61, 8,
   9, 113, 119, 101, 114, 116, 121, 117, 105, 111, 112, 91, 93, 10,
   0, 97, 115, 100, 102, 103, 104, 106, 107, 108, 59, 39, 96,
   0, 92, 122, 120, 99, 118, 98, 110, 109, 44, 46, 47, 0,
   42, 0, 32, 0, 0, 0, 0, 0, 0, 0, 0, 0, 0, 0, 0, 0, 0, 0, 0, 0,
   45, 0, 0, 0, 43, 0, 0, 0, 0, 0, 0, 0, 0, 0, 0, 0]

/-- As `kbdUsLowercase`, with Shift. -/
def kbdUsUppercase : List UInt8 :=
  [0, 0, 33, 64, 35, 36, 37, 94, 38, 42, 40, 41, 95, 43, 8,
   9, 81, 87, 69, 82, 84, 89, 85, 73, 79, 80, 123, 125, 10,
   0, 65, 83, 68, 70, 71, 72, 74, 75, 76, 58, 34, 126,
   0, 124, 90, 88, 67, 86, 66, 78, 77, 60, 62, 63, 0,
   42, 0, 32, 0, 0, 0, 0, 0, 0, 0, 0, 0, 0, 0, 0, 0, 0, 0, 0, 0,
   45, 0, 0, 0, 43, 0, 0, 0, 0, 0, 0, 0, 0, 0, 0, 0]

/-! ### The ring -/

def keyboardBufferEmpty (s : State) : Bool := s.bufferStart == s.bufferEnd

def keyboardBufferFull (s : State) : Bool := (s.bufferEnd + 1) &&& 0xFF == s.bufferStart

def keyboardBufferPut (c : UInt8) (s : State) : State :=
  if keyboardBufferFull s then s
  else
    { s with buffer := Function.update s.buffer s.bufferEnd c
             bufferEnd := (s.bufferEnd + 1) &&& 0xFF }

/-- The second half of `keyboard_buffer_get`, after it has loaded the character. -/
def advance (s : State) : State := { s with bufferStart := (s.bufferStart + 1) &&& 0xFF }

def keyboardBufferGet (s : State) : UInt8 × State :=
  if keyboardBufferEmpty s then (0, s) else (s.buffer s.bufferStart, advance s)

/-! ### The handler -/

def outb (port : Nat) (value : UInt8) (s : State) : State :=
  { s with ports := s.ports ++ [(port, value)] }

def keyboardUpdateLeds (s : State) : State :=
  let ledStatus : UInt8 := if s.scrollLock then 1 else 0
  let ledStatus := if s.numLock then ledStatus ||| 2 else ledStatus
  let ledStatus := if s.capsLock then ledStatus ||| 4 else ledStatus
  outb KEYBOARD_DATA_PORT ledStatus (outb KEYBOARD_COMMAND_PORT KEYBOARD_CMD_SET_LEDS s)

/-- The static state: all flags are down, and the ring is empty. -/
def zeroed : State where
  shiftPressed := false
  ctrlPressed := false
  altPressed := false
  capsLock := false
  numLock := false
  scrollLock := false
  mode := .normal
  buffer := fun _ => 0
  bufferStart := 0
  bufferEnd := 0
  ports := []

def keyboardInit (s : State) : State :=
  outb KEYBOARD_COMMAND_PORT KEYBOARD_CMD_ENABLE { zeroed with ports := s.ports }

/-- The character of a scancode, when it has one. -/
def ascii (scancode : UInt8) (s : State) : Option UInt8 :=
  let table := if s.shiftPressed ^^ s.capsLock then kbdUsUppercase else kbdUsLowercase
  let c := table.getD scancode.toNat 0
  if c = 0 then none
  else if s.ctrlPressed ∧ 97 ≤ c ∧ c ≤ 122 then some (c - 97 + 1)
  else some c

/-- The first `switch`, over the scancode of a key that is released. -/
def release (scancode : UInt8) (s : State) : State :=
  if scancode = KEY_LSHIFT ∨ scancode = KEY_RSHIFT then { s with shiftPressed := false }
  else if scancode = KEY_LCTRL then { s with ctrlPressed := false }
  else if scancode = KEY_LALT then { s with altPressed := false }
  else s

/-- The second `switch`, over the scancode of a key that is pressed. -/
def press (scancode : UInt8) (s : State) : State :=
  if scancode = KEY_LSHIFT ∨ scancode = KEY_RSHIFT then { s with shiftPressed := true }
  else if scancode = KEY_LCTRL then { s with ctrlPressed := true }
  else if scancode = KEY_LALT then { s with altPressed := true }
  else if scancode = KEY_CAPSLOCK then keyboardUpdateLeds { s with capsLock := !s.capsLock }
  else if scancode = KEY_NUMLOCK then keyboardUpdateLeds { s with numLock := !s.numLock }
  else if scancode = KEY_SCROLLLOCK then keyboardUpdateLeds { s with scrollLock := !s.scrollLock }
  else
    match ascii scancode s with
    | some c => keyboardBufferPut c s
    | none => s

/-- `keyboard_handler`, when the port gives this scancode. -/
def keyboardHandler (scancode : UInt8) (s : State) : State :=
  if scancode = PREFIX then { s with mode := .extended }
  else if scancode &&& KEY_RELEASE ≠ 0 then
    { release (scancode &&& ~~~KEY_RELEASE) s with mode := .normal }
  else { press scancode s with mode := .normal }

/-! ### Reading characters -/

/-- A `char` as an `int`. -/
def charToInt (c : UInt8) : Int := c.toInt8.toInt

/-- `keyboard_getchar_nonblock`, when no interrupt comes in between. -/
def keyboardGetcharNonblock (s : State) : Int × State :=
  if keyboardBufferEmpty s then (-1, s)
  else
    let (c, s) := keyboardBufferGet s
    (charToInt c, s)

/-- What `keyboard_read` comes to with the characters that there are. -/
inductive Outcome where
  /-- It returns `result` and leaves `rest` of the characters. -/
  | returned (result : Int) (rest : List UInt8) (buffer : Store) (terminal : Terminal.State)
  /-- It waits for another one in `keyboard_getchar`. -/
  | waits (buffer : Store) (terminal : Terminal.State)

/-- The loop of `keyboard_read` at index `i`, over the characters that `keyboard_getchar` is
still to return. -/
def keyboardReadLoop (count : Nat) :
    List UInt8 → Nat → Store → Terminal.State → Outcome
  | [], i, buffer, terminal =>
      if i < count then .waits buffer terminal else .returned (toInt32 i) [] buffer terminal
  | c :: chars, i, buffer, terminal =>
      if i < count then
        if c = 10 then
          .returned (toInt32 (wadd 64 i 1)) chars (Function.update buffer i c) terminal
        else if c = 8 then
          if i > 0 then
            let i := wsub 64 i 1
            let terminal := Terminal.terminalWrite [8, 32, 8] terminal
            let i := wsub 64 i 1
            keyboardReadLoop count chars (wadd 64 i 1) buffer terminal
          else
            let i := wsub 64 i 1
            keyboardReadLoop count chars (wadd 64 i 1) buffer terminal
        else
          keyboardReadLoop count chars (wadd 64 i 1) (Function.update buffer i c)
            (Terminal.terminalPutchar c terminal)
      else .returned (toInt32 i) (c :: chars) buffer terminal

/-- `keyboard_read`. `buffer` is the memory from its first argument on. -/
def keyboardRead (count : Nat) (chars : List UInt8) (buffer : Store)
    (terminal : Terminal.State) : Outcome :=
  keyboardReadLoop count chars 0 buffer terminal

end Curnel.Keyboard
