/-
syscall.c: `sys_read` and `sys_write`, with `keyboard_read` behind descriptor 0.

A call on a pipe goes through a buffer that it asks `kmalloc` for, and may wait in the
pipe or for a key; `Waiting` is what it needs to go on. `user` is the memory behind user
addresses. A call says what it has touched, in order: its buffer, user memory through the
pointer that it was given, and which ranges `usermode_validate_pointer` had accepted for
writing before it did.

A call that never returns, because of a function that it calls, `hangs`.
-/

import Curnel.Memory.Runs
import Curnel.Pipe
import Curnel.Usermode

namespace Curnel.Descriptors

open Lib.Bytes Lib.Word

/-- `(uint64_t)-1`. -/
def FAILURE : Nat := 2 ^ 64 - 1

/-- What `kmalloc` gave a call: the pointer, and the size in the header of its block. -/
structure Buffer where
  ptr : Nat
  size : Nat
deriving DecidableEq

inductive Access where
  /-- The kernel loads or stores a byte by way of its buffer. -/
  | buffer (kbuf : Buffer) (addr : Nat)
  /-- The kernel stores a byte by way of the user's pointer. -/
  | store (addr : Nat)
  /-- `usermode_validate_pointer` accepts the range for writing. -/
  | accepted (ptr size : Nat)
deriving DecidableEq

/-- A call that waits. -/
inductive Waiting where
  | read (buf : Nat) (kbuf : Buffer) (call : Pipe.Call)
  /-- `written` bytes of the buffer are in the pipe. -/
  | write (kbuf : Buffer) (written : Nat) (call : Pipe.Call)
  /-- In `keyboard_read`, with `i` bytes stored. -/
  | keys (buf count i : Nat)

inductive Outcome where
  | returned (result : Nat)
  | waits (call : Waiting)
  /-- No process is current, and the code follows a null pointer. -/
  | faults
  | hangs

structure State where
  pipe : Pipe.State
  heap : Memory.Heap
  paging : Paging.State
  user : Store
  /-- The characters that `keyboard_getchar` is still to return. -/
  keys : List UInt8
  /-- What was written to the terminal, string by string. -/
  terminal : List (List UInt8)

/-! ### Bytes -/

/-- The `n` bytes from `p` on, by 64-bit addresses. -/
def loadBytes (m : Store) (p n : Nat) : List UInt8 := (List.range n).map fun j => m (wadd 64 p j)

/-- Store bytes one after another from `p + i` on, by 64-bit addresses. -/
def storeBytes (m : Store) (p i : Nat) : List UInt8 → Store
  | [] => m
  | b :: bytes => storeBytes (Function.update m (wadd 64 p i) b) p (i + 1) bytes

/-- `strlen` and what it has passed, within `fuel` bytes. -/
def cString (m : Store) : Nat → Nat → Option (List UInt8)
  | 0, _ => none
  | fuel + 1, p => if m p = 0 then some [] else (cString m fuel (wadd 64 p 1)).map (m p :: ·)

/-! ### The kernel's buffer -/

/-- `n` bytes of the buffer are touched, from byte `i` on. -/
def touched (kbuf : Buffer) (i n : Nat) : List Access :=
  (List.range n).map fun j => .buffer kbuf (wadd 64 kbuf.ptr (i + j))

def kmalloc (size : Nat) (s : State) : Option (Buffer × State) :=
  match Memory.kmalloc size s.heap.state with
  | none => none
  | some (ptr, heap) =>
      let live := if ptr = NULL then s.heap.live else insert ptr s.heap.live
      some (⟨ptr, Memory.blockSize heap.ram (ptr - Memory.sizeofMemoryBlock)⟩,
        { s with heap := ⟨heap, live⟩ })

def kfree (kbuf : Buffer) (s : State) : Option State :=
  (Memory.kfree kbuf.ptr s.heap.state).map fun heap =>
    { s with heap := ⟨heap, s.heap.live.erase kbuf.ptr⟩ }

/-- Store bytes in the buffer from byte `i` on. -/
def State.fill (s : State) (kbuf : Buffer) (i : Nat) (bytes : List UInt8) : State :=
  { s with heap.state.ram := storeBytes s.heap.state.ram kbuf.ptr i bytes }

/-- A call frees its buffer and returns. -/
def release (kbuf : Buffer) (result : Nat) (trace : List Access) (s : State) :
    Outcome × List Access × State :=
  match kfree kbuf s with
  | none => (.hangs, trace, s)
  | some s => (.returned result, trace, s)

/-! ### User memory -/

def validatePointer (ptr size accessFlags : Nat) (s : State) : Option Nat :=
  Usermode.usermodeValidatePointer ptr size accessFlags s.paging

/-- `usermode_copy_from_user` into the buffer. -/
def copyFromUser (kbuf : Buffer) (src size : Nat) (s : State) :
    Option (Nat × List Access × State) :=
  match validatePointer src size 0 s with
  | none => none
  | some valid =>
      if valid = 0 then some (0, [], s)
      else some (1, touched kbuf 0 size, s.fill kbuf 0 (loadBytes s.user src size))

/-- The copying loop of `usermode_copy_to_user`. -/
def copiedOut (dst : Nat) (kbuf : Buffer) (size : Nat) : List Access :=
  (List.range size).flatMap fun j => [.buffer kbuf (wadd 64 kbuf.ptr j), .store (wadd 64 dst j)]

/-- `usermode_copy_to_user` from the buffer. -/
def copyToUser (dst : Nat) (kbuf : Buffer) (size : Nat) (s : State) :
    Option (Nat × List Access × State) :=
  match validatePointer dst size PAGE_WRITABLE s with
  | none => none
  | some valid =>
      if valid = 0 then some (0, [], s)
      else
        let bytes := loadBytes s.heap.state.ram kbuf.ptr size
        some (1, .accepted dst size :: copiedOut dst kbuf size,
          { s with user := storeBytes s.user dst 0 bytes })

/-! ### `keyboard_read` -/

/-- The loop of `keyboard_read` at byte `i`, as far as the keys go. A backspace takes `i`
back by one: by two and on by one with the loop, and at 0 by one and on again. -/
def keyboardLoop (buf count : Nat) : List UInt8 → Nat → State → Outcome × List Access × State
  | [], i, s =>
      if i < count then (.waits (.keys buf count i), [], { s with keys := [] })
      else (.returned (ofInt (toInt32 i)), [], { s with keys := [] })
  | c :: keys, i, s =>
      if i < count then
        if c = 0x0A then
          (.returned (ofInt (toInt32 (i + 1))), [.store (wadd 64 buf i)],
            { s with keys := keys, user := Function.update s.user (wadd 64 buf i) c })
        else if c = 0x08 then
          let erased := if i > 0 then [[0x08], [0x20], [0x08]] else []
          keyboardLoop buf count keys (i - 1) { s with terminal := s.terminal ++ erased }
        else
          let (outcome, trace, s) := keyboardLoop buf count keys (i + 1)
            { s with user := Function.update s.user (wadd 64 buf i) c
                     terminal := s.terminal ++ [[c]] }
          (outcome, .store (wadd 64 buf i) :: trace, s)
      else (.returned (ofInt (toInt32 i)), [], { s with keys := c :: keys })

def keyboardRead (buf count : Nat) (s : State) : Outcome × List Access × State :=
  keyboardLoop buf count s.keys 0 s

/-! ### `sys_read` -/

/-- What `sys_read` does with the outcome of `pipe_read`, which has stored `bytes` in the
buffer. -/
def afterRead (buf : Nat) (kbuf : Buffer) (s : State) :
    Pipe.Outcome → Outcome × List Access × State
  | .returned result bytes =>
      let stored := touched kbuf 0 bytes.length
      let s := s.fill kbuf 0 bytes
      if result > 0 then
        match copyToUser buf kbuf result.toNat s with
        | none => (.hangs, stored, s)
        | some (copied, trace, s) =>
            release kbuf (if copied = 0 then FAILURE else ofInt result) (stored ++ trace) s
      else release kbuf (ofInt result) stored s
  | .waits call => (.waits (.read buf kbuf call), [], s)
  | .faults => (.faults, [], s)
  | .loops => (.hangs, [], s)

/-- `sys_read` from a pipe. -/
def readPipe (fd buf count : Nat) (s : State) : Outcome × List Access × State :=
  match validatePointer buf count PAGE_WRITABLE s with
  | none => (.hangs, [], s)
  | some valid =>
      if valid = 0 then (.returned FAILURE, [], s)
      else
        match kmalloc count s with
        | none => (.hangs, [.accepted buf count], s)
        | some (kbuf, s) =>
            if kbuf.ptr = NULL then (.returned FAILURE, [.accepted buf count], s)
            else
              let (outcome, pipe) := Pipe.pipeRead fd count s.pipe
              let (outcome, trace, s) := afterRead buf kbuf { s with pipe := pipe } outcome
              (outcome, .accepted buf count :: trace, s)

def sysRead (fd buf count : Nat) (s : State) : Outcome × List Access × State :=
  match Pipe.pipeGetByFd fd s.pipe with
  | some _ => readPipe fd buf count s
  | none => if fd = 0 then keyboardRead buf count s else (.returned FAILURE, [], s)

/-! ### `sys_write` -/

def copiedBy : Pipe.Event → List UInt8
  | .copied _ _ bytes => bytes
  | _ => []

/-- The bytes that `pipe_write` has copied between two states. -/
def copiedSince (before after : Pipe.State) : List UInt8 :=
  (after.log.drop before.log.length).flatMap copiedBy

/-- What `sys_write` does with the outcome of `pipe_write`, which has gone on from byte
`written` of the buffer. -/
def afterWrite (kbuf : Buffer) (written : Nat) (before : Pipe.State) (s : State)
    (outcome : Pipe.Outcome) : Outcome × List Access × State :=
  let copied := (copiedSince before s.pipe).length
  let loaded := touched kbuf written copied
  match outcome with
  | .returned result _ => release kbuf (ofInt result) loaded s
  | .waits call => (.waits (.write kbuf (written + copied) call), loaded, s)
  | .faults => (.faults, loaded, s)
  | .loops => (.hangs, loaded, s)

/-- `sys_write` to a pipe. -/
def writePipe (fd buf count : Nat) (s : State) : Outcome × List Access × State :=
  match validatePointer buf count 0 s with
  | none => (.hangs, [], s)
  | some valid =>
      if valid = 0 then (.returned FAILURE, [], s)
      else
        match kmalloc count s with
        | none => (.hangs, [], s)
        | some (kbuf, s) =>
            if kbuf.ptr = NULL then (.returned FAILURE, [], s)
            else
              match copyFromUser kbuf buf count s with
              | none => (.hangs, [], s)
              | some (copied, trace, s) =>
                  if copied = 0 then release kbuf FAILURE trace s
                  else
                    let data := loadBytes s.heap.state.ram kbuf.ptr count
                    let (outcome, pipe) := Pipe.pipeWrite fd data s.pipe
                    let (outcome, loads, s) :=
                      afterWrite kbuf 0 s.pipe { s with pipe := pipe } outcome
                    (outcome, trace ++ loads, s)

/-- `sys_write` to the terminal. -/
def writeTerminal (buf count : Nat) (s : State) : Outcome × List Access × State :=
  match validatePointer buf count 0 s with
  | none => (.hangs, [], s)
  | some valid =>
      if valid = 0 then (.returned FAILURE, [], s)
      else
        match kmalloc (wadd 64 count 1) s with
        | none => (.hangs, [], s)
        | some (kbuf, s) =>
            if kbuf.ptr = NULL then (.returned FAILURE, [], s)
            else
              match copyFromUser kbuf buf count s with
              | none => (.hangs, [], s)
              | some (copied, trace, s) =>
                  if copied = 0 then release kbuf FAILURE trace s
                  else
                    let s := s.fill kbuf count [0]
                    let trace := trace ++ touched kbuf count 1
                    match cString s.heap.state.ram (count + 1) kbuf.ptr with
                    | none => (.hangs, trace, s)
                    | some shown =>
                        let s := { s with terminal := s.terminal ++ [shown] }
                        let loads := touched kbuf 0 (shown.length + 1) ++
                          touched kbuf 0 shown.length
                        release kbuf count (trace ++ loads) s

def sysWrite (fd buf count : Nat) (s : State) : Outcome × List Access × State :=
  match Pipe.pipeGetByFd fd s.pipe with
  | some _ => writePipe fd buf count s
  | none =>
      if fd = 1 ∨ fd = 2 then writeTerminal buf count s
      else (.returned FAILURE, [], s)

/-! ### Calls that go on -/

/-- A call goes on when what it waits for may have come. -/
def Waiting.resume (s : State) : Waiting → Outcome × List Access × State
  | .read buf kbuf call =>
      let (outcome, pipe) := call.resume s.pipe
      afterRead buf kbuf { s with pipe := pipe } outcome
  | .write kbuf written call =>
      let (outcome, pipe) := call.resume s.pipe
      afterWrite kbuf written s.pipe { s with pipe := pipe } outcome
  | .keys buf count i => keyboardLoop buf count s.keys i s

end Curnel.Descriptors
