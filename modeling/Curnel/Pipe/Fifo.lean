/-
A pipe is a queue of bytes.

Every operation on the pipes, a call that goes on after waiting among them, does
to each slot what a `Fifo` of 4096 bytes may do: `Flows` says so, and it is
transitive. So in every run, whatever calls are suspended and whatever the rest
of the kernel does, the bytes delivered from a slot since its pipe was created,
followed by the bytes in its buffer, are the bytes copied in (`pipe_is_fifo`).
-/

import Curnel.Pipe
import Curnel.Process.Scheduler
import Curnel.Lib.Ring
import Curnel.Lib.Run

namespace Curnel.Pipe

open Lib Word

/-! ### What has gone through a pipe -/

/-- The bytes delivered, one event further. -/
def deliver (i : PipeSlot) (bytes : List UInt8) : Event → List UInt8
  | .created j => if j = i then [] else bytes
  | .delivered j _ new => if j = i then bytes ++ new else bytes
  | .copied _ _ _ => bytes

/-- The bytes that reads were given from a slot since its pipe was created. -/
def delivered (i : PipeSlot) (log : List Event) : List UInt8 := log.foldl (deliver i) []

/-- The bytes copied in, one event further. -/
def copyIn (i : PipeSlot) (bytes : List UInt8) : Event → List UInt8
  | .created j => if j = i then [] else bytes
  | .delivered _ _ _ => bytes
  | .copied j _ new => if j = i then bytes ++ new else bytes

/-- The bytes that writes copied into a slot since its pipe was created. -/
def copied (i : PipeSlot) (log : List Event) : List UInt8 := log.foldl (copyIn i) []

@[simp] theorem delivered_append (i : PipeSlot) (log : List Event) (e : Event) :
    delivered i (log ++ [e]) = deliver i (delivered i log) e := by
  simp [delivered]

@[simp] theorem copied_append (i : PipeSlot) (log : List Event) (e : Event) :
    copied i (log ++ [e]) = copyIn i (copied i log) e := by
  simp [copied]

/-! ### Slots as queues -/

/-- The bytes in the buffer, oldest first. -/
def contents (p : Pipe) : List UInt8 := window PIPE_BUFFER_SIZE p.buffer p.readPos p.dataSize

/-- The pipe in slot `i` is the queue `f`. -/
structure Refines (s : State) (i : PipeSlot) (f : Fifo UInt8 PIPE_BUFFER_SIZE) : Prop where
  readPos_lt : (s.pipes i).readPos < PIPE_BUFFER_SIZE
  writePos_eq : (s.pipes i).writePos
    = ((s.pipes i).readPos + (s.pipes i).dataSize) % PIPE_BUFFER_SIZE
  queue : f.queue = contents (s.pipes i)
  accepted : f.accepted = copied i s.log
  delivered : f.delivered = delivered i s.log

theorem Refines.dataSize_le {s : State} {i : PipeSlot} {f : Fifo UInt8 PIPE_BUFFER_SIZE}
    (h : Refines s i f) : (s.pipes i).dataSize ≤ PIPE_BUFFER_SIZE := by
  have hbound := f.bounded
  rwa [h.queue, contents, length_window] at hbound

/-- Every slot goes through steps of a queue. -/
structure Flows (s s' : State) : Prop where
  steps : ∀ i f, Refines s i f → ∃ f', Fifo.Steps f f' ∧ Refines s' i f'

namespace Flows

variable {s s' s'' : State}

theorem refl (s : State) : Flows s s := ⟨fun _ f h => ⟨f, .refl, h⟩⟩

theorem trans (first : Flows s s') (second : Flows s' s'') : Flows s s'' := by
  refine ⟨fun i f h => ?_⟩
  obtain ⟨g, hsteps, hg⟩ := first.steps i f h
  obtain ⟨g', hsteps', hg'⟩ := second.steps i g hg
  exact ⟨g', hsteps.trans hsteps', hg'⟩

end Flows

/-- What the queue in a slot depends on. -/
def ring (p : Pipe) : (Nat → UInt8) × Nat × Nat × Nat :=
  (p.buffer, p.readPos, p.writePos, p.dataSize)

theorem Refines.congr {s s' : State} {i : PipeSlot} {f : Fifo UInt8 PIPE_BUFFER_SIZE}
    (h : Refines s i f) (hring : ring (s'.pipes i) = ring (s.pipes i))
    (hcopied : copied i s'.log = copied i s.log)
    (hdelivered : Pipe.delivered i s'.log = Pipe.delivered i s.log) : Refines s' i f := by
  simp only [ring, Prod.mk.injEq] at hring
  obtain ⟨hbuffer, hread, hwrite, hsize⟩ := hring
  refine ⟨?_, ?_, ?_, ?_, ?_⟩
  · rw [hread]
    exact h.readPos_lt
  · rw [hread, hwrite, hsize]
    exact h.writePos_eq
  · rw [h.queue, contents, contents, hbuffer, hread, hsize]
  · rw [hcopied]
    exact h.accepted
  · rw [hdelivered]
    exact h.delivered

@[simp] theorem modify_same (s : State) (i : PipeSlot) (f : Pipe → Pipe) :
    (s.modify i f).pipes i = f (s.pipes i) := by
  simp [State.modify]

@[simp] theorem modify_other {s : State} {i j : PipeSlot} (f : Pipe → Pipe) (h : j ≠ i) :
    (s.modify i f).pipes j = s.pipes j := by
  simp [State.modify, h]

/-- What changes neither buffers nor positions. -/
theorem flows_of_same {s s' : State} (hring : ∀ i, ring (s'.pipes i) = ring (s.pipes i))
    (hlog : s'.log = s.log) : Flows s s' := by
  refine ⟨fun i f h => ?_⟩
  exact ⟨f, .refl, h.congr (hring i) (by rw [hlog]) (by rw [hlog])⟩

theorem flows_modify {s : State} {i : PipeSlot} {f : Pipe → Pipe}
    (hring : ring (f (s.pipes i)) = ring (s.pipes i)) : Flows s (s.modify i f) := by
  refine flows_of_same (fun j => ?_) rfl
  by_cases hj : j = i
  · subst hj
    rw [modify_same, hring]
  · rw [modify_other f hj]

theorem flows_block (s : State) (current : Slot) : Flows s (s.block current) :=
  flows_of_same (fun _ => rfl) rfl

theorem flows_unblock (s : State) (pid : Nat) : Flows s (s.unblock pid) := by
  unfold State.unblock
  split
  · exact flows_of_same (fun _ => rfl) rfl
  · exact Flows.refl s

/-! ### Creating and closing -/

/-- A new pipe is an empty queue. -/
theorem flows_created {s : State} {i : PipeSlot} {f : Pipe → Pipe}
    (hring : ring (f (s.pipes i)) = ((s.pipes i).buffer, 0, 0, 0)) :
    Flows s ((s.modify i f).emit (.created i)) := by
  refine ⟨fun j g h => ?_⟩
  by_cases hj : j = i
  · subst hj
    simp only [ring, Prod.mk.injEq] at hring
    obtain ⟨-, hread, hwrite, hsize⟩ := hring
    refine ⟨Fifo.empty, .single (.reset g), ?_⟩
    refine ⟨?_, ?_, ?_, ?_, ?_⟩
    · simp [State.emit, hread]
    · simp [State.emit, hread, hwrite, hsize]
    · simp [State.emit, contents, hsize, Fifo.empty]
    · simp [State.emit, copyIn, Fifo.empty]
    · simp [State.emit, deliver, Fifo.empty]
  · refine ⟨g, .refl, h.congr ?_ ?_ ?_⟩
    · simp [State.emit, hj]
    · simp [State.emit, State.modify, copyIn, Ne.symm hj]
    · simp [State.emit, State.modify, deliver, Ne.symm hj]

theorem flows_pipeCreate (s : State) : Flows s (pipeCreate s).2.2 := by
  unfold pipeCreate
  split
  · exact Flows.refl s
  next i _ =>
    have numbered : Flows s { s with nextPipeId := wadd 64 s.nextPipeId 1 } :=
      flows_of_same (fun _ => rfl) rfl
    refine numbered.trans ?_
    dsimp only
    split
    · exact flows_created rfl
    · exact (flows_created rfl).trans (flows_modify rfl)

theorem ring_closeEnds (fd : Nat) (p : Pipe) : ring (closeEnds fd p) = ring p := by
  unfold closeEnds
  dsimp only
  split <;> split <;> split <;> rfl

theorem flows_pipeClose (fd : Nat) (s : State) : Flows s (pipeClose fd s).2 := by
  unfold pipeClose
  split
  · exact Flows.refl s
  · exact flows_modify (ring_closeEnds fd _)

theorem flows_pipeSetFlags (fd : Nat) (flags : BitVec 8) (s : State) :
    Flows s (pipeSetFlags fd flags s).2 := by
  unfold pipeSetFlags
  split
  · exact Flows.refl s
  · dsimp only
    exact flows_modify rfl

/-! ### Reading -/

/-- The copying loop hands out what the window at `read_pos` holds. -/
theorem takeBytes_eq {n : Nat} {p : Pipe} (h : p.readPos < PIPE_BUFFER_SIZE) :
    takeBytes n p = (window PIPE_BUFFER_SIZE p.buffer p.readPos n,
      { p with readPos := (p.readPos + n) % PIPE_BUFFER_SIZE }) := by
  induction n generalizing p with
  | zero =>
      rw [takeBytes, window_zero, Nat.add_zero, Nat.mod_eq_of_lt h]
  | succ n ih =>
      have hnext : (p.readPos + 1) % PIPE_BUFFER_SIZE < PIPE_BUFFER_SIZE := Nat.mod_lt _ (by decide)
      rw [takeBytes, ih hnext, window_succ, Nat.mod_eq_of_lt h, Nat.mod_add_mod, Nat.add_assoc,
        Nat.add_comm 1 n]

/-- Reading takes from the front of the queue. -/
theorem flows_finishRead (i : PipeSlot) (fd count : Nat) (s : State) :
    Flows s (finishRead i fd count s).2 := by
  unfold finishRead
  generalize hn : (if count < (s.pipes i).dataSize then count else (s.pipes i).dataSize) = n
  have hle : n ≤ (s.pipes i).dataSize := by
    rw [← hn]
    split <;> omega
  refine Flows.trans ?_ (flows_unblock _ _)
  refine ⟨fun j f h => ?_⟩
  by_cases hj : j = i
  · subst hj
    have hsize := h.dataSize_le
    have hbytes := takeBytes_eq (n := n) h.readPos_lt
    refine ⟨f.take n, .single (.take f n), ?_⟩
    refine ⟨?_, ?_, ?_, ?_, ?_⟩
    · simp only [State.emit, modify_same, hbytes]
      exact Nat.mod_lt _ (by decide)
    · have hleft : wsub 64 (s.pipes j).dataSize n = (s.pipes j).dataSize - n :=
        wsub_of_le (hsize.trans_lt (by decide)) hle
      simp only [State.emit, State.modify, Function.update_self, hbytes, hleft, h.writePos_eq]
      rw [Nat.mod_add_mod]
      congr 1
      omega
    · have hleft : wsub 64 (s.pipes j).dataSize n = (s.pipes j).dataSize - n :=
        wsub_of_le (hsize.trans_lt (by decide)) hle
      simp only [State.emit, State.modify, Function.update_self, hbytes, hleft, contents, Fifo.take,
        h.queue]
      exact window_drop hle
    · simp [State.emit, State.modify, copyIn, Fifo.take, h.accepted]
    · simp only [State.emit, State.modify, delivered_append, deliver, Fifo.take, hbytes,
        h.delivered, h.queue, contents]
      rw [window_take hle, if_pos trivial]
  · refine ⟨f, .refl, h.congr ?_ ?_ ?_⟩
    · simp [State.emit, State.modify, hj]
    · simp [State.emit, State.modify, copyIn]
    · simp [State.emit, State.modify, deliver, Ne.symm hj]

theorem flows_waitToRead (i : PipeSlot) (fd : Nat) (current : Slot) (count : Nat) (s : State) :
    Flows s (waitToRead i fd current count s).2 := by
  unfold waitToRead
  split
  · exact flows_block s current
  split
  · exact Flows.refl s
  · exact flows_finishRead i fd count s

theorem flows_pipeRead (fd count : Nat) (s : State) : Flows s (pipeRead fd count s).2 := by
  unfold pipeRead
  split
  · exact Flows.refl s
  split
  · exact Flows.refl s
  split
  · split
    · exact Flows.refl s
    split
    · exact Flows.refl s
    split
    · exact Flows.refl s
    · exact flows_waitToRead ..
  · exact flows_finishRead ..

/-! ### Writing -/

/-- The copying loop writes behind the end of the queue. -/
theorem putBytes_spec {bytes : List UInt8} {p : Pipe} {n : Nat}
    (hread : p.readPos < PIPE_BUFFER_SIZE)
    (hwrite : p.writePos = (p.readPos + n) % PIPE_BUFFER_SIZE)
    (hfits : n + bytes.length ≤ PIPE_BUFFER_SIZE) :
    ∃ buffer, putBytes bytes p =
        { p with buffer := buffer
                 writePos := (p.readPos + (n + bytes.length)) % PIPE_BUFFER_SIZE } ∧
      window PIPE_BUFFER_SIZE buffer p.readPos (n + bytes.length)
        = window PIPE_BUFFER_SIZE p.buffer p.readPos n ++ bytes := by
  induction bytes generalizing p n with
  | nil => exact ⟨p.buffer, by simp [putBytes, ← hwrite], by simp⟩
  | cons b bytes ih =>
      rw [List.length_cons] at hfits
      have hnext : (p.writePos + 1) % PIPE_BUFFER_SIZE
          = (p.readPos + (n + 1)) % PIPE_BUFFER_SIZE := by
        rw [hwrite, Nat.mod_add_mod, Nat.add_assoc]
      obtain ⟨buffer, hput, hwindow⟩ := @ih
        { p with buffer := Function.update p.buffer p.writePos b
                 writePos := (p.writePos + 1) % PIPE_BUFFER_SIZE } (n + 1) hread hnext (by omega)
      have hlength : n + (b :: bytes).length = n + 1 + bytes.length := by
        rw [List.length_cons]
        omega
      rw [hlength]
      refine ⟨buffer, hput, hwindow.trans ?_⟩
      have hone := @window_write _ PIPE_BUFFER_SIZE p.buffer p.readPos n b
        (by omega : n < PIPE_BUFFER_SIZE)
      rw [hwrite, hone, List.append_assoc, List.singleton_append]

/-- Writing a chunk puts it at the end of the queue. -/
theorem flows_writeChunk (i : PipeSlot) (fd : Nat) (data : List UInt8) (written : Nat)
    (s : State) : Flows s (writeChunk i fd data written s).2 := by
  unfold writeChunk
  refine Flows.trans ?_ (flows_unblock _ _)
  refine ⟨fun j f h => ?_⟩
  by_cases hj : j = i
  · subst hj
    have hsize := h.dataSize_le
    have hspace : wsub 64 PIPE_BUFFER_SIZE (s.pipes j).dataSize
        = PIPE_BUFFER_SIZE - (s.pipes j).dataSize := wsub_of_le (by decide) hsize
    rw [hspace]
    generalize hn : (if data.length - written < PIPE_BUFFER_SIZE - (s.pipes j).dataSize then
      data.length - written else PIPE_BUFFER_SIZE - (s.pipes j).dataSize) = n
    have hle : n ≤ data.length - written ∧ (s.pipes j).dataSize + n ≤ PIPE_BUFFER_SIZE := by
      rw [← hn]
      split <;> omega
    generalize hbytes : (data.drop written).take n = bytes
    have hlength : bytes.length = n := by
      rw [← hbytes, List.length_take, List.length_drop]
      omega
    have hsum : wadd 64 (s.pipes j).dataSize n = (s.pipes j).dataSize + n :=
      wadd_of_lt (hle.2.trans_lt (by decide))
    obtain ⟨buffer, hput, hwindow⟩ := @putBytes_spec bytes _ _ h.readPos_lt h.writePos_eq
      (by omega)
    rw [hlength] at hput hwindow
    have hfits : f.queue.length + bytes.length ≤ PIPE_BUFFER_SIZE := by
      rw [h.queue, contents, length_window]
      omega
    refine ⟨f.put bytes hfits, .single (.put f bytes hfits), ?_⟩
    refine ⟨?_, ?_, ?_, ?_, ?_⟩
    · simp only [State.emit, State.modify, Function.update_self, hput]
      exact h.readPos_lt
    · simp only [State.emit, State.modify, Function.update_self, hput, hsum]
    · simp only [State.emit, State.modify, Function.update_self, hput, hsum, contents, Fifo.put,
        h.queue]
      exact hwindow.symm
    · simp [State.emit, State.modify, copyIn, Fifo.put, h.accepted]
    · simp [State.emit, State.modify, deliver, Fifo.put, h.delivered]
  · refine ⟨f, .refl, h.congr ?_ ?_ ?_⟩
    · simp [State.emit, State.modify, hj]
    · simp [State.emit, State.modify, copyIn, Ne.symm hj]
    · simp [State.emit, State.modify, deliver]

theorem flows_writeLoop (i : PipeSlot) (fd : Nat) (data : List UInt8) (rounds written : Nat)
    (s : State) : Flows s (writeLoop i fd data rounds written s).2 := by
  induction rounds generalizing written s with
  | zero => exact Flows.refl s
  | succ rounds ih =>
      unfold writeLoop
      split
      · split
        · split
          · exact Flows.refl s
          split
          · exact Flows.refl s
          · exact flows_block s _
        · exact (flows_writeChunk i fd data written s).trans (ih _ _)
      · exact Flows.refl s

theorem flows_pipeWrite (fd : Nat) (data : List UInt8) (s : State) :
    Flows s (pipeWrite fd data s).2 := by
  unfold pipeWrite
  split
  · exact Flows.refl s
  split
  · exact Flows.refl s
  split
  · exact Flows.refl s
  · exact flows_writeLoop ..

theorem flows_resume (call : Call) (s : State) : Flows s (call.resume s).2 := by
  cases call with
  | reading i fd current count => exact flows_waitToRead i fd current count s
  | writing i fd data written =>
      unfold Call.resume resumeWrite
      dsimp only
      split
      · exact Flows.refl s
      · exact (flows_writeChunk i fd data written s).trans (flows_writeLoop ..)

/-- A chunk of a queue that is not full writes something. -/
theorem writeChunk_written {i : PipeSlot} {fd : Nat} {data : List UInt8} {written : Nat}
    {s : State} {f : Fifo UInt8 PIPE_BUFFER_SIZE} (h : Refines s i f)
    (hleft : written < data.length) (hroom : (s.pipes i).dataSize ≠ PIPE_BUFFER_SIZE) :
    written < (writeChunk i fd data written s).1 := by
  have hsize := h.dataSize_le
  have hspace : wsub 64 PIPE_BUFFER_SIZE (s.pipes i).dataSize
      = PIPE_BUFFER_SIZE - (s.pipes i).dataSize := wsub_of_le (by decide) hsize
  unfold writeChunk
  dsimp only
  rw [hspace]
  split <;> omega

/-- The rounds that `pipe_write` is given are enough. -/
theorem writeLoop_progresses {i : PipeSlot} {fd : Nat} {data : List UInt8} {rounds written : Nat}
    {s : State} {f : Fifo UInt8 PIPE_BUFFER_SIZE} (h : Refines s i f)
    (hrounds : data.length - written < rounds) :
    (writeLoop i fd data rounds written s).1 ≠ .loops := by
  induction rounds generalizing written s f with
  | zero => omega
  | succ rounds ih =>
      unfold writeLoop
      split
      next hleft =>
        split
        · split
          · simp
          split
          · simp
          · simp
        next hroom =>
          have hmore := @writeChunk_written i fd data written s f h hleft hroom
          obtain ⟨g, -, hg⟩ := (flows_writeChunk i fd data written s).steps i f h
          exact ih hg (by omega)
      next => simp

theorem pipeWrite_progresses {fd : Nat} {data : List UInt8} {s : State}
    (h : ∀ i, ∃ f, Refines s i f) : (pipeWrite fd data s).1 ≠ .loops := by
  unfold pipeWrite
  split
  · simp
  next i _ =>
    split
    · simp
    split
    · simp
    · obtain ⟨f, hf⟩ := h i
      exact writeLoop_progresses hf (by omega)

theorem resume_progresses {call : Call} {s : State} (h : ∀ i, ∃ f, Refines s i f) :
    (call.resume s).1 ≠ .loops := by
  cases call with
  | reading i fd current count =>
      unfold Call.resume waitToRead
      dsimp only
      split
      · simp
      split
      · simp
      · simp [finishRead]
  | writing i fd data written =>
      unfold Call.resume resumeWrite
      dsimp only
      split
      · simp
      · obtain ⟨f, hf⟩ := h i
        obtain ⟨g, -, hg⟩ := (flows_writeChunk i fd data written s).steps i f hf
        exact writeLoop_progresses hg (by omega)

/-! ### Runs -/

/-- The pipes, and the calls that wait in `schedule()`. -/
structure System where
  state : State
  waiting : List Call

inductive Op where
  | pipeCreate
  | pipeClose (fd : Nat)
  | pipeSetFlags (fd : Nat) (flags : BitVec 8)
  | pipeRead (fd count : Nat)
  | pipeWrite (fd : Nat) (data : List UInt8)
  | resume (call : Call)
  | kernel (kernel : Process.State)

def Outcome.waiting : Outcome → List Call
  | .waits call => [call]
  | _ => []

/-- A call up to its return, or to where it waits. Between two steps the rest of
the kernel does what it likes to the processes, `schedule()` among it. -/
inductive Step : System → Op → System → Prop where
  | pipeCreate {s : State} {w : List Call} : Step ⟨s, w⟩ .pipeCreate ⟨(pipeCreate s).2.2, w⟩
  | pipeClose {s : State} {w : List Call} {fd : Nat} :
      Step ⟨s, w⟩ (.pipeClose fd) ⟨(pipeClose fd s).2, w⟩
  | pipeSetFlags {s : State} {w : List Call} {fd : Nat} {flags : BitVec 8} :
      Step ⟨s, w⟩ (.pipeSetFlags fd flags) ⟨(pipeSetFlags fd flags s).2, w⟩
  | pipeRead {s : State} {w : List Call} {fd count : Nat} :
      Step ⟨s, w⟩ (.pipeRead fd count)
        ⟨(pipeRead fd count s).2, (pipeRead fd count s).1.waiting ++ w⟩
  | pipeWrite {s : State} {w : List Call} {fd : Nat} {data : List UInt8} :
      Step ⟨s, w⟩ (.pipeWrite fd data)
        ⟨(pipeWrite fd data s).2, (pipeWrite fd data s).1.waiting ++ w⟩
  | resume {s : State} {before after : List Call} {call : Call} :
      Step ⟨s, before ++ call :: after⟩ (.resume call)
        ⟨(call.resume s).2, before ++ (call.resume s).1.waiting ++ after⟩
  | kernel {s : State} {w : List Call} {kernel : Process.State} :
      Step ⟨s, w⟩ (.kernel kernel) ⟨{ s with kernel := kernel }, w⟩

theorem Step.flows {s s' : System} {op : Op} (step : Step s op s') : Flows s.state s'.state := by
  cases step with
  | pipeCreate => exact flows_pipeCreate _
  | pipeClose => exact flows_pipeClose ..
  | pipeSetFlags => exact flows_pipeSetFlags ..
  | pipeRead => exact flows_pipeRead ..
  | pipeWrite => exact flows_pipeWrite ..
  | resume => exact flows_resume ..
  | kernel => exact flows_of_same (fun _ => rfl) rfl

theorem refines_pipeInit (kernel : Process.State) (i : PipeSlot) :
    Refines (pipeInit kernel) i Fifo.empty :=
  ⟨Nat.zero_lt_succ _, rfl, rfl, rfl, rfl⟩

theorem run_refines {kernel : Process.State} {ops : List Op} {s : System}
    (run : Run Step ⟨pipeInit kernel, []⟩ ops s) (i : PipeSlot) :
    ∃ f, Fifo.Steps Fifo.empty f ∧ Refines s.state i f := by
  have flows : Flows (pipeInit kernel) s.state :=
    run.invariant (I := fun t => Flows (pipeInit kernel) t.state)
      (fun before step => before.trans step.flows) (Flows.refl _)
  exact flows.steps i Fifo.empty (refines_pipeInit kernel i)

/-- In every run no call of `pipe_write` goes round for ever. -/
theorem calls_progress {kernel : Process.State} {ops : List Op} {s : System}
    (run : Run Step ⟨pipeInit kernel, []⟩ ops s) :
    (∀ fd data, (pipeWrite fd data s.state).1 ≠ .loops) ∧
      ∀ call : Call, (call.resume s.state).1 ≠ .loops := by
  have hqueues : ∀ i, ∃ f, Refines s.state i f := fun i => by
    obtain ⟨f, -, h⟩ := run_refines run i
    exact ⟨f, h⟩
  exact ⟨fun _ _ => pipeWrite_progresses hqueues, fun _ => resume_progresses hqueues⟩

/-- In every run each slot is a queue: its positions are those of a ring buffer, and
what reads were given since the pipe was created, followed by what the buffer
holds, is what writes copied in. -/
theorem pipe_is_fifo {kernel : Process.State} {ops : List Op} {s : System}
    (run : Run Step ⟨pipeInit kernel, []⟩ ops s) (i : PipeSlot) :
    (s.state.pipes i).readPos < PIPE_BUFFER_SIZE ∧
      (s.state.pipes i).writePos < PIPE_BUFFER_SIZE ∧
      (s.state.pipes i).dataSize ≤ PIPE_BUFFER_SIZE ∧
      (s.state.pipes i).writePos
        = ((s.state.pipes i).readPos + (s.state.pipes i).dataSize) % PIPE_BUFFER_SIZE ∧
      delivered i s.state.log ++ contents (s.state.pipes i) = copied i s.state.log ∧
      ∃ f, Fifo.Steps Fifo.empty f ∧ Refines s.state i f := by
  obtain ⟨f, hsteps, h⟩ := run_refines run i
  have hwrite : (s.state.pipes i).writePos < PIPE_BUFFER_SIZE := by
    rw [h.writePos_eq]
    exact Nat.mod_lt _ (by decide)
  have hbytes : delivered i s.state.log ++ contents (s.state.pipes i) = copied i s.state.log := by
    rw [← h.delivered, ← h.queue, ← h.accepted]
    exact f.conserved
  exact ⟨h.readPos_lt, hwrite, h.dataSize_le, h.writePos_eq, hbytes, f, hsteps, h⟩

/-- Three bytes written and two of them read. -/
theorem pipe_is_fifo_three_bytes :
    ∃ s, Run Step ⟨pipeInit Process.initAndChild, []⟩
        [.pipeCreate, .pipeWrite 10 [1, 2, 3], .pipeRead 9 2] s ∧
      delivered 0 s.state.log = [1, 2] ∧
      delivered 0 s.state.log ++ contents (s.state.pipes 0) = [1, 2, 3] := by
  have run : Run Step ⟨pipeInit Process.initAndChild, []⟩
      [.pipeCreate, .pipeWrite 10 [1, 2, 3], .pipeRead 9 2] _ :=
    .cons .pipeCreate (.cons .pipeWrite (.single .pipeRead))
  refine ⟨_, run, by decide +kernel, ?_⟩
  rw [(pipe_is_fifo run 0).2.2.2.2.1]
  decide +kernel

end Curnel.Pipe
