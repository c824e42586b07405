/-
pipe.c.

A pipe is a ring buffer of 4096 bytes with two ends, found by the upper bits of a
descriptor. Descriptors carry no owner and a call keeps its pointer to the slot
while it waits, so a call that waits is modelled by what it needs to go on
(`Call`), and everything else may run before it does.

`log` is no variable of the code: it records which pipes were created, and the
bytes that reads delivered and writes copied in.
-/

import Curnel.Process

namespace Curnel

structure Pipe where
  id : Nat
  buffer : Nat → UInt8
  readPos : Nat
  writePos : Nat
  dataSize : Nat
  flags : BitVec 8
  readerPid : Nat
  writerPid : Nat
  readerOpen : Bool
  writerOpen : Bool

namespace Pipe

open Lib Word

abbrev PIPE_BUFFER_SIZE : Nat := 4096
abbrev MAX_PIPES : Nat := 64

def PIPE_FLAG_READABLE : Nat := 0x01
def PIPE_FLAG_WRITABLE : Nat := 0x02
def PIPE_FLAG_NONBLOCK : BitVec 8 := 0x04

def PIPE_SUCCESS : Int := 0
def PIPE_ERROR_FULL : Int := -1
def PIPE_ERROR_EMPTY : Int := -2
def PIPE_ERROR_CLOSED : Int := -3

/-- A place in the array of pipes. -/
abbrev PipeSlot := Fin MAX_PIPES

inductive Event where
  | created (slot : PipeSlot)
  /-- `pipe_read` on `fd` hands out these bytes. -/
  | delivered (slot : PipeSlot) (fd : Nat) (bytes : List UInt8)
  /-- `pipe_write` on `fd` copies these bytes into the buffer. -/
  | copied (slot : PipeSlot) (fd : Nat) (bytes : List UInt8)
deriving DecidableEq

/-- The static variables of `pipe.c`, and the processes. -/
structure State where
  pipes : PipeSlot → Pipe
  nextPipeId : Nat
  kernel : Process.State
  log : List Event

/-- A call that waits in `schedule()`. -/
inductive Call where
  /-- In the loop of `pipe_read`, for the process in slot `current`. -/
  | reading (i : PipeSlot) (fd : Nat) (current : Slot) (count : Nat)
  /-- In the loop of `pipe_write`, with `written` bytes of `data` in the pipe. -/
  | writing (i : PipeSlot) (fd : Nat) (data : List UInt8) (written : Nat)
deriving DecidableEq

inductive Outcome where
  /-- The call returns, and has stored `bytes` in its buffer. -/
  | returned (result : Int) (bytes : List UInt8)
  | waits (call : Call)
  /-- No process is current, and the code follows a null pointer. -/
  | faults
  /-- The loop of `pipe_write` makes no progress. -/
  | loops

namespace State

/-- Change the pipe in a slot. -/
def modify (s : State) (i : PipeSlot) (f : Pipe → Pipe) : State :=
  { s with pipes := Function.update s.pipes i (f (s.pipes i)) }

def emit (s : State) (e : Event) : State := { s with log := s.log ++ [e] }

/-- `block_process(process->pid)`. -/
def block (s : State) (current : Slot) : State :=
  { s with kernel := Process.blockProcess (s.kernel.processes current).pid s.kernel }

/-- `if (pid != 0) unblock_process(pid)`. -/
def unblock (s : State) (pid : Nat) : State :=
  if pid ≠ 0 then { s with kernel := Process.unblockProcess pid s.kernel } else s

end State

/-! ### Creating, finding and closing -/

/-- The state after `pipe_init`. -/
def pipeInit (kernel : Process.State) : State where
  pipes _ := ⟨0, fun _ => 0, 0, 0, 0, 0, 0, 0, false, false⟩
  nextPipeId := 1
  kernel := kernel
  log := []

/-- The first pipe with an id. -/
def findPipe (id : Nat) (s : State) : Option PipeSlot :=
  (List.finRange MAX_PIPES).find? fun i => (s.pipes i).id == id

/-- The result, and what is stored at `read_fd` and `write_fd`. -/
def pipeCreate (s : State) : Int × Option (Nat × Nat) × State :=
  match findPipe 0 s with
  | none => (PIPE_ERROR_FULL, none, s)
  | some i =>
      let id := s.nextPipeId
      let s := { s with nextPipeId := wadd 64 s.nextPipeId 1 }
      let s := s.modify i fun p =>
        { p with id := id, readPos := 0, writePos := 0, dataSize := 0, flags := 0,
                 readerOpen := true, writerOpen := true }
      let s := s.emit (.created i)
      let s :=
        match Process.getCurrentProcess s.kernel with
        | none => s
        | some current =>
            let pid := (s.kernel.processes current).pid
            s.modify i fun p => { p with readerPid := pid, writerPid := pid }
      (PIPE_SUCCESS,
        some ((id <<< 3) % 2 ^ 64 ||| PIPE_FLAG_READABLE, (id <<< 3) % 2 ^ 64 ||| PIPE_FLAG_WRITABLE),
        s)

def pipeGetByFd (fd : Nat) (s : State) : Option PipeSlot := findPipe (fd >>> 3) s

/-- Close one end, or both, and release a pipe with no open end. -/
def closeEnds (fd : Nat) (p : Pipe) : Pipe :=
  let p := if fd &&& PIPE_FLAG_READABLE ≠ 0 then { p with readerOpen := false } else p
  let p := if fd &&& PIPE_FLAG_WRITABLE ≠ 0 then { p with writerOpen := false } else p
  if p.readerOpen = false ∧ p.writerOpen = false then { p with id := 0 } else p

@[simp] theorem closeEnds_readerOpen (fd : Nat) (p : Pipe) :
    (closeEnds fd p).readerOpen = (p.readerOpen && decide (fd &&& PIPE_FLAG_READABLE = 0)) := by
  unfold closeEnds
  dsimp only
  split <;> split <;> split <;> simp_all

@[simp] theorem closeEnds_writerOpen (fd : Nat) (p : Pipe) :
    (closeEnds fd p).writerOpen = (p.writerOpen && decide (fd &&& PIPE_FLAG_WRITABLE = 0)) := by
  unfold closeEnds
  dsimp only
  split <;> split <;> split <;> simp_all

theorem closeEnds_id (fd : Nat) (p : Pipe) :
    (closeEnds fd p).id =
      if (closeEnds fd p).readerOpen = false ∧ (closeEnds fd p).writerOpen = false then 0
      else p.id := by
  unfold closeEnds
  dsimp only
  split <;> split <;> split <;> simp_all

def pipeClose (fd : Nat) (s : State) : Int × State :=
  match pipeGetByFd fd s with
  | none => (PIPE_ERROR_CLOSED, s)
  | some i => (PIPE_SUCCESS, s.modify i (closeEnds fd))

def pipeSetFlags (fd : Nat) (flags : BitVec 8) (s : State) : Int × State :=
  match pipeGetByFd fd s with
  | none => (PIPE_ERROR_CLOSED, s)
  | some i =>
      (PIPE_SUCCESS, s.modify i fun p =>
        { p with flags := (p.flags &&& ~~~ PIPE_FLAG_NONBLOCK) ||| (flags &&& PIPE_FLAG_NONBLOCK) })

/-! ### Reading -/

/-- The copying loop of `pipe_read`, with `n` bytes to go. -/
def takeBytes : Nat → Pipe → List UInt8 × Pipe
  | 0, p => ([], p)
  | n + 1, p =>
      let b := p.buffer p.readPos
      let rest := takeBytes n { p with readPos := (p.readPos + 1) % PIPE_BUFFER_SIZE }
      (b :: rest.1, rest.2)

/-- `pipe_read` once there is something to read. -/
def finishRead (i : PipeSlot) (fd count : Nat) (s : State) : Outcome × State :=
  let bytesToRead := if count < (s.pipes i).dataSize then count else (s.pipes i).dataSize
  let bytes := (takeBytes bytesToRead (s.pipes i)).1
  let s := (s.modify i fun p => (takeBytes bytesToRead p).2).emit (.delivered i fd bytes)
  let s := s.modify i fun p => { p with dataSize := wsub 64 p.dataSize bytesToRead }
  (.returned (toInt32 bytesToRead) bytes, s.unblock (s.pipes i).writerPid)

/-- The loop in which `pipe_read` waits, and what follows it. -/
def waitToRead (i : PipeSlot) (fd : Nat) (current : Slot) (count : Nat) (s : State) :
    Outcome × State :=
  if (s.pipes i).dataSize = 0 ∧ (s.pipes i).writerOpen then
    (.waits (.reading i fd current count), s.block current)
  else if (s.pipes i).dataSize = 0 then (.returned 0 [], s)
  else finishRead i fd count s

def pipeRead (fd count : Nat) (s : State) : Outcome × State :=
  match pipeGetByFd fd s with
  | none => (.returned PIPE_ERROR_CLOSED [], s)
  | some i =>
      if (s.pipes i).readerOpen = false ∨ fd &&& PIPE_FLAG_READABLE = 0 then
        (.returned PIPE_ERROR_CLOSED [], s)
      else if (s.pipes i).dataSize = 0 then
        if (s.pipes i).flags &&& PIPE_FLAG_NONBLOCK ≠ 0 then (.returned PIPE_ERROR_EMPTY [], s)
        else if (s.pipes i).writerOpen = false then (.returned 0 [], s)
        else
          match Process.getCurrentProcess s.kernel with
          | none => (.faults, s)
          | some current => waitToRead i fd current count s
      else finishRead i fd count s

/-! ### Writing -/

/-- The copying loop of `pipe_write`. -/
def putBytes : List UInt8 → Pipe → Pipe
  | [], p => p
  | b :: bytes, p =>
      putBytes bytes
        { p with buffer := Function.update p.buffer p.writePos b
                 writePos := (p.writePos + 1) % PIPE_BUFFER_SIZE }

/-- One chunk, from the computation of `space_available` to the end of the loop's
body. The result is the new `bytes_written`. -/
def writeChunk (i : PipeSlot) (fd : Nat) (data : List UInt8) (written : Nat) (s : State) :
    Nat × State :=
  let spaceAvailable := wsub 64 PIPE_BUFFER_SIZE (s.pipes i).dataSize
  let bytesToWrite :=
    if data.length - written < spaceAvailable then data.length - written else spaceAvailable
  let bytes := (data.drop written).take bytesToWrite
  let s := (s.modify i (putBytes bytes)).emit (.copied i fd bytes)
  let s := s.modify i fun p => { p with dataSize := wadd 64 p.dataSize bytesToWrite }
  (written + bytesToWrite, s.unblock (s.pipes i).readerPid)

/-- The loop of `pipe_write`. Every chunk but the last fills the pipe, so that it
takes no more rounds than there are bytes to write. -/
def writeLoop (i : PipeSlot) (fd : Nat) (data : List UInt8) :
    Nat → Nat → State → Outcome × State
  | 0, _, s => (.loops, s)
  | rounds + 1, written, s =>
      if written < data.length then
        if (s.pipes i).dataSize = PIPE_BUFFER_SIZE then
          if (s.pipes i).flags &&& PIPE_FLAG_NONBLOCK ≠ 0 then
            (.returned (if written > 0 then toInt32 written else PIPE_ERROR_FULL) [], s)
          else
            match Process.getCurrentProcess s.kernel with
            | none => (.faults, s)
            | some current => (.waits (.writing i fd data written), s.block current)
        else
          let chunk := writeChunk i fd data written s
          writeLoop i fd data rounds chunk.1 chunk.2
      else (.returned (toInt32 written) [], s)

def pipeWrite (fd : Nat) (data : List UInt8) (s : State) : Outcome × State :=
  match pipeGetByFd fd s with
  | none => (.returned PIPE_ERROR_CLOSED [], s)
  | some i =>
      if (s.pipes i).writerOpen = false ∨ fd &&& PIPE_FLAG_WRITABLE = 0 then
        (.returned PIPE_ERROR_CLOSED [], s)
      else if (s.pipes i).readerOpen = false then (.returned PIPE_ERROR_CLOSED [], s)
      else writeLoop i fd data (data.length + 1) 0 s

/-- `pipe_write` after its `schedule()` has returned. -/
def resumeWrite (i : PipeSlot) (fd : Nat) (data : List UInt8) (written : Nat) (s : State) :
    Outcome × State :=
  if (s.pipes i).readerOpen = false then (.returned PIPE_ERROR_CLOSED [], s)
  else
    let chunk := writeChunk i fd data written s
    writeLoop i fd data (data.length + 1) chunk.1 chunk.2

/-- A call goes on after its `schedule()` has returned. -/
def Call.resume : Call → State → Outcome × State
  | .reading i fd current count, s => waitToRead i fd current count s
  | .writing i fd data written, s => resumeWrite i fd data written s

end Pipe

end Curnel
