/-
What a call on a pipe moves, and how it ends.

`Puts` and `Takes` say which bytes went into a slot, or out of it, in terms of the log. A
write puts the next bytes of its data, and comes to its end, or to a stop where the pipe is
full (`writeLoop_puts`); a read takes the oldest bytes (`waitToRead_takes`).
-/

import Curnel.Pipe.Fifo
import Curnel.Lib.Channels

namespace Curnel.Pipe

open Lib Lib.Channels Word

/-! ### Bytes in and out -/

/-- Into slot `i` go `bytes`, and nothing else moves. -/
structure Puts (i : PipeSlot) (bytes : List UInt8) (s s' : State) : Prop where
  flows : Flows s s'
  copied : ∀ j,
    copied j s'.log = if j = i then Pipe.copied j s.log ++ bytes else Pipe.copied j s.log
  delivered : ∀ j, delivered j s'.log = Pipe.delivered j s.log

/-- Out of slot `i` come `bytes`, and nothing else moves. -/
structure Takes (i : PipeSlot) (bytes : List UInt8) (s s' : State) : Prop where
  flows : Flows s s'
  copied : ∀ j, copied j s'.log = Pipe.copied j s.log
  delivered : ∀ j,
    delivered j s'.log = if j = i then Pipe.delivered j s.log ++ bytes else Pipe.delivered j s.log

section Moves

variable {i j : PipeSlot} {bytes more : List UInt8} {s s' s'' : State}
  {f : Fifo UInt8 PIPE_BUFFER_SIZE}

theorem puts_nothing (i : PipeSlot) (flows : Flows s s') (hlog : s'.log = s.log) :
    Puts i [] s s' := by
  refine ⟨flows, fun j => ?_, fun j => by rw [hlog]⟩
  rw [hlog, List.append_nil, ite_self]

theorem Puts.trans (first : Puts i bytes s s') (second : Puts i more s' s'') :
    Puts i (bytes ++ more) s s'' := by
  refine ⟨first.flows.trans second.flows, fun j => ?_, fun j => ?_⟩
  · rw [second.copied, first.copied]
    split
    · rw [List.append_assoc]
    · rfl
  · rw [second.delivered, first.delivered]

/-- A slot that bytes go into is a queue that they are put in. -/
theorem Puts.refines (puts : Puts i bytes s s') (h : Refines s i f) :
    ∃ fits, Refines s' i (f.put bytes fits) := by
  obtain ⟨g, -, hg⟩ := puts.flows.steps i f h
  have haccepted : g.accepted = f.accepted ++ bytes := by
    rw [hg.accepted, puts.copied, if_pos rfl, h.accepted]
  have hdelivered : g.delivered = f.delivered := by
    rw [hg.delivered, puts.delivered, h.delivered]
  obtain ⟨fits, rfl⟩ := fifo_eq_put haccepted hdelivered
  exact ⟨fits, hg⟩

theorem Puts.refines_other (puts : Puts i bytes s s') (h : Refines s j f) (hj : j ≠ i) :
    Refines s' j f := by
  obtain ⟨g, -, hg⟩ := puts.flows.steps j f h
  have haccepted : g.accepted = f.accepted := by
    rw [hg.accepted, puts.copied, if_neg hj, h.accepted]
  have hdelivered : g.delivered = f.delivered := by
    rw [hg.delivered, puts.delivered, h.delivered]
  rwa [fifo_eq haccepted hdelivered] at hg

/-- A slot that bytes come out of is a queue that they are taken from. -/
theorem Takes.refines {n : Nat} (takes : Takes i (f.queue.take n) s s') (h : Refines s i f) :
    Refines s' i (f.take n) := by
  obtain ⟨g, -, hg⟩ := takes.flows.steps i f h
  have haccepted : g.accepted = f.accepted := by
    rw [hg.accepted, takes.copied, h.accepted]
  have hdelivered : g.delivered = f.delivered ++ f.queue.take n := by
    rw [hg.delivered, takes.delivered, if_pos rfl, h.delivered]
  rwa [fifo_eq_take haccepted hdelivered] at hg

theorem Takes.refines_other (takes : Takes i bytes s s') (h : Refines s j f) (hj : j ≠ i) :
    Refines s' j f := by
  obtain ⟨g, -, hg⟩ := takes.flows.steps j f h
  have haccepted : g.accepted = f.accepted := by
    rw [hg.accepted, takes.copied, h.accepted]
  have hdelivered : g.delivered = f.delivered := by
    rw [hg.delivered, takes.delivered, if_neg hj, h.delivered]
  rwa [fifo_eq haccepted hdelivered] at hg

theorem Refines.length_queue (h : Refines s i f) : f.queue.length = (s.pipes i).dataSize := by
  rw [h.queue, contents, length_window]

theorem Refines.full_iff (h : Refines s i f) :
    Full f ↔ (s.pipes i).dataSize = PIPE_BUFFER_SIZE := by
  rw [Full, h.length_queue]

end Moves

/-! ### Writing -/

/-- How a write ends that has put the first `total` bytes of its data. -/
inductive Wrote (i : PipeSlot) (fd : Nat) (data : List UInt8) (total : Nat) (full : Prop) :
    Outcome → Prop where
  | all : total = data.length → Wrote i fd data total full (.returned (toInt32 total) [])
  | part : full → Wrote i fd data total full (.returned (toInt32 total) [])
  | nothing : total = 0 → Wrote i fd data total full (.returned PIPE_ERROR_FULL [])
  | waits : total < data.length → full →
      Wrote i fd data total full (.waits (.writing i fd data total))
  | faults : Wrote i fd data total full .faults

section Writing

variable {i : PipeSlot} {fd written : Nat} {data : List UInt8} {s : State}

theorem log_unblock_eq (s : State) (pid : Nat) : (s.unblock pid).log = s.log := by
  unfold State.unblock
  split <;> rfl

theorem writeChunk_puts (hwritten : written ≤ data.length) :
    ∃ k, written + k ≤ data.length ∧ (writeChunk i fd data written s).1 = written + k ∧
      Puts i ((data.drop written).take k) s (writeChunk i fd data written s).2 := by
  refine ⟨if data.length - written < wsub 64 PIPE_BUFFER_SIZE (s.pipes i).dataSize
    then data.length - written else wsub 64 PIPE_BUFFER_SIZE (s.pipes i).dataSize, ?_, rfl,
    flows_writeChunk i fd data written s, fun j => ?_, fun j => ?_⟩
  · split <;> omega
  · unfold writeChunk
    dsimp only
    rw [log_unblock_eq]
    simp only [State.modify, State.emit, copied_append, copyIn, eq_comm]
  · unfold writeChunk
    dsimp only
    rw [log_unblock_eq]
    simp [State.modify, State.emit, deliver]

/-- The loop goes on until all is written, or the pipe is full. -/
theorem writeLoop_puts {rounds : Nat} {f : Fifo UInt8 PIPE_BUFFER_SIZE} (h : Refines s i f)
    (hwritten : written ≤ data.length) (hrounds : data.length - written < rounds) :
    ∃ k, written + k ≤ data.length ∧
      Puts i ((data.drop written).take k) s (writeLoop i fd data rounds written s).2 ∧
      Wrote i fd data (written + k)
        (((writeLoop i fd data rounds written s).2.pipes i).dataSize = PIPE_BUFFER_SIZE)
        (writeLoop i fd data rounds written s).1 := by
  induction rounds generalizing written s f with
  | zero => omega
  | succ rounds ih =>
      have nothing : Puts i ((data.drop written).take 0) s s := puts_nothing i (.refl s) rfl
      rw [writeLoop]
      split
      next hleft =>
        split
        next hfull =>
          split
          next =>
            refine ⟨0, hwritten, nothing, ?_⟩
            split
            next => exact .part hfull
            next hnone => exact .nothing (by omega)
          next =>
            split
            next => exact ⟨0, hwritten, nothing, .faults⟩
            next current _ =>
              exact ⟨0, hwritten, puts_nothing i (flows_block s current) rfl, .waits hleft hfull⟩
        next hroom =>
          have hmore := @writeChunk_written i fd data written s f h hleft hroom
          obtain ⟨k, hk, hcount, puts⟩ := @writeChunk_puts i fd written data s hwritten
          obtain ⟨fits, refines⟩ := puts.refines h
          dsimp only
          rw [hcount] at hmore ⊢
          obtain ⟨k', hk', puts', wrote⟩ := ih refines hk (by omega)
          have hbytes : (data.drop written).take k ++ (data.drop (written + k)).take k'
              = (data.drop written).take (k + k') := by
            rw [List.take_add, List.drop_drop]
          rw [Nat.add_assoc] at hk' wrote
          exact ⟨k + k', hk', hbytes ▸ puts.trans puts', wrote⟩
      next hdone => exact ⟨0, hwritten, nothing, .all (by omega)⟩

/-- A write to an open descriptor. -/
theorem pipeWrite_puts {f : Fifo UInt8 PIPE_BUFFER_SIZE} (hfd : pipeGetByFd fd s = some i)
    (h : Refines s i f) :
    pipeWrite fd data s = (.returned PIPE_ERROR_CLOSED [], s) ∨
      ∃ k ≤ data.length, Puts i (data.take k) s (pipeWrite fd data s).2 ∧
        Wrote i fd data k (((pipeWrite fd data s).2.pipes i).dataSize = PIPE_BUFFER_SIZE)
          (pipeWrite fd data s).1 := by
  rw [pipeWrite, hfd]
  dsimp only
  split
  · exact Or.inl rfl
  split
  · exact Or.inl rfl
  · obtain ⟨k, hk, puts, wrote⟩ := @writeLoop_puts i fd 0 data s (data.length + 1) f h
      (Nat.zero_le _) (by omega)
    rw [Nat.zero_add] at hk wrote
    exact Or.inr ⟨k, hk, puts, wrote⟩

theorem resumeWrite_puts {f : Fifo UInt8 PIPE_BUFFER_SIZE} (h : Refines s i f)
    (hwritten : written ≤ data.length) :
    resumeWrite i fd data written s = (.returned PIPE_ERROR_CLOSED [], s) ∨
      ∃ k, written + k ≤ data.length ∧
        Puts i ((data.drop written).take k) s (resumeWrite i fd data written s).2 ∧
        Wrote i fd data (written + k)
          (((resumeWrite i fd data written s).2.pipes i).dataSize = PIPE_BUFFER_SIZE)
          (resumeWrite i fd data written s).1 := by
  rw [resumeWrite]
  split
  · exact Or.inl rfl
  · right
    obtain ⟨k, hk, hcount, puts⟩ := @writeChunk_puts i fd written data s hwritten
    obtain ⟨fits, refines⟩ := puts.refines h
    dsimp only
    rw [hcount]
    obtain ⟨k', hk', puts', wrote⟩ := @writeLoop_puts i fd (written + k) data _
      (data.length + 1) _ refines hk (by omega)
    have hbytes : (data.drop written).take k ++ (data.drop (written + k)).take k'
        = (data.drop written).take (k + k') := by
      rw [List.take_add, List.drop_drop]
    rw [Nat.add_assoc] at hk' wrote
    exact ⟨k + k', hk', hbytes ▸ puts.trans puts', wrote⟩

end Writing

/-! ### Reading -/

/-- How a read ends that finds `f` in its pipe. -/
inductive Read (i : PipeSlot) (fd count : Nat) (f : Fifo UInt8 PIPE_BUFFER_SIZE) (s : State) :
    Outcome × State → Prop where
  | some {s' : State} : Takes i (f.queue.take count) s s' →
      Read i fd count f s (.returned (min count f.queue.length : Nat) (f.queue.take count), s')
  | closed : f.queue = [] → Read i fd count f s (.returned 0 [], s)
  | failed {result : Int} : PIPE_ERROR_CLOSED ≤ result → result < 0 →
      Read i fd count f s (.returned result [], s)
  | waits {s' : State} {current : Slot} : Puts i [] s s' → f.queue = [] →
      Read i fd count f s (.waits (.reading i fd current count), s')
  | faults : Read i fd count f s (.faults, s)

section Reading

variable {i : PipeSlot} {fd count : Nat} {s : State} {f : Fifo UInt8 PIPE_BUFFER_SIZE}

theorem finishRead_read (h : Refines s i f) : Read i fd count f s (finishRead i fd count s) := by
  have hlength := h.length_queue
  have hsize := h.dataSize_le
  have hn : (if count < (s.pipes i).dataSize then count else (s.pipes i).dataSize)
      = min count f.queue.length := by
    rw [hlength]
    split <;> omega
  have hle : min count f.queue.length ≤ (s.pipes i).dataSize := by omega
  have hbytes : (takeBytes (min count f.queue.length) (s.pipes i)).1 = f.queue.take count := by
    rw [takeBytes_eq h.readPos_lt, ← window_take hle, ← contents, ← h.queue]
    exact List.take_eq_take_min.symm
  have hint : toInt32 (min count f.queue.length) = (min count f.queue.length : Nat) :=
    toInt32_of_lt (by simp only [PIPE_BUFFER_SIZE] at hsize; omega)
  have takes : Takes i (f.queue.take count) s (finishRead i fd count s).2 := by
    refine ⟨flows_finishRead i fd count s, fun j => ?_, fun j => ?_⟩
    · unfold finishRead
      dsimp only
      rw [log_unblock_eq]
      simp [State.modify, State.emit, copyIn]
    · unfold finishRead
      dsimp only
      rw [log_unblock_eq, hn, hbytes]
      simp only [State.modify, State.emit, delivered_append, deliver, eq_comm]
  have hrun : finishRead i fd count s = (.returned (min count f.queue.length : Nat)
      (f.queue.take count), (finishRead i fd count s).2) := by
    rw [← hint, ← hbytes, ← hn]
    rfl
  rw [hrun]
  exact .some takes

/-- The loop in which a read waits. -/
theorem waitToRead_read (h : Refines s i f) (current : Slot) :
    Read i fd count f s (waitToRead i fd current count s) := by
  have hempty : (s.pipes i).dataSize = 0 → f.queue = [] := by
    intro hzero
    rw [← h.length_queue] at hzero
    exact List.length_eq_zero_iff.mp hzero
  unfold waitToRead
  split
  next hwait => exact .waits (puts_nothing i (flows_block s current) rfl) (hempty hwait.1)
  next =>
    split
    next hzero => exact .closed (hempty hzero)
    next => exact finishRead_read h

/-- A read from an open descriptor. -/
theorem pipeRead_read (hfd : pipeGetByFd fd s = some i) (h : Refines s i f) :
    Read i fd count f s (pipeRead fd count s) := by
  rw [pipeRead, hfd]
  dsimp only
  split
  · exact .failed (le_refl _) (by decide)
  split
  next hzero =>
    split
    · exact .failed (by decide) (by decide)
    split
    · rw [← h.length_queue] at hzero
      exact .closed (List.length_eq_zero_iff.mp hzero)
    split
    · exact .faults
    · exact waitToRead_read h _
  next => exact finishRead_read h

end Reading

end Curnel.Pipe
