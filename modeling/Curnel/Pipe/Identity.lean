/-
A call keeps to the pipe it was made on, unless its slot is given away.

A waiting call holds a pointer to a slot, and looks no descriptor up when it goes
on. `Tracked` runs note beside each waiting call how many pipes its slot had been
given to when the call was made. As long as no call moves bytes in a slot that has
been given to another pipe since (`OwnPipe`), every byte read through a descriptor
of a pipe was written through a descriptor of the same pipe
(`transfers_stay_in_their_pipe`); `reader_takes_from_new_pipe` is a run in which
one does.
-/

import Curnel.Pipe.Fifo

namespace Curnel.Pipe

open Lib Word

/-! ### Whose bytes went through a slot -/

/-- The bytes delivered, each with the id in the descriptor it was read through. -/
def deliverBy (i : PipeSlot) (bytes : List (Nat × UInt8)) : Event → List (Nat × UInt8)
  | .created j => if j = i then [] else bytes
  | .delivered j fd new => if j = i then bytes ++ new.map (fd >>> 3, ·) else bytes
  | .copied _ _ _ => bytes

def deliveredBy (i : PipeSlot) (log : List Event) : List (Nat × UInt8) :=
  log.foldl (deliverBy i) []

/-- The bytes copied in, each with the id in the descriptor it was written through. -/
def copyInBy (i : PipeSlot) (bytes : List (Nat × UInt8)) : Event → List (Nat × UInt8)
  | .created j => if j = i then [] else bytes
  | .delivered _ _ _ => bytes
  | .copied j fd new => if j = i then bytes ++ new.map (fd >>> 3, ·) else bytes

def copiedBy (i : PipeSlot) (log : List Event) : List (Nat × UInt8) :=
  log.foldl (copyInBy i) []

/-- How many pipes a slot has been given to. -/
def generation (i : PipeSlot) (log : List Event) : Nat := log.count (.created i)

@[simp] theorem deliveredBy_append (i : PipeSlot) (log : List Event) (e : Event) :
    deliveredBy i (log ++ [e]) = deliverBy i (deliveredBy i log) e := by
  simp [deliveredBy]

@[simp] theorem copiedBy_append (i : PipeSlot) (log : List Event) (e : Event) :
    copiedBy i (log ++ [e]) = copyInBy i (copiedBy i log) e := by
  simp [copiedBy]

/-- Without the ids they are the bytes of the queue. -/
theorem deliveredBy_bytes (i : PipeSlot) (log : List Event) :
    (deliveredBy i log).map Prod.snd = delivered i log := by
  induction log using List.reverseRecOn with
  | nil => rfl
  | append_singleton log e ih =>
      rw [deliveredBy_append, delivered_append, ← ih]
      cases e <;> simp only [deliverBy, deliver] <;> split <;> simp [Function.comp_def]

theorem copiedBy_bytes (i : PipeSlot) (log : List Event) :
    (copiedBy i log).map Prod.snd = copied i log := by
  induction log using List.reverseRecOn with
  | nil => rfl
  | append_singleton log e ih =>
      rw [copiedBy_append, copied_append, ← ih]
      cases e <;> simp only [copyInBy, copyIn] <;> split <;> simp [Function.comp_def]

/-! ### Calls that know their pipe -/

def Call.slot : Call → PipeSlot
  | .reading i _ _ _ => i
  | .writing i _ _ _ => i

def Call.fd : Call → Nat
  | .reading _ fd _ _ => fd
  | .writing _ fd _ _ => fd

/-- A call that waits to write has bytes left to write. -/
def Call.Pending : Call → Prop
  | .reading _ _ _ _ => True
  | .writing _ _ data written => written < data.length

/-- A call on a descriptor that waits at a slot. -/
structure Call.On (i : PipeSlot) (fd : Nat) (c : Call) : Prop where
  slot_eq : c.slot = i
  fd_eq : c.fd = fd
  pending : c.Pending

/-- A waiting call, and how many pipes its slot had been given to when it was made. -/
structure Suspended where
  call : Call
  since : Nat
deriving DecidableEq

/-- The slot has been given to another pipe since the call was made. -/
def Suspended.Displaced (t : Suspended) (s : State) : Prop :=
  t.since ≠ generation t.call.slot s.log

/-- There is something for the call to move if it goes on. -/
def Call.Moves (s : State) : Call → Prop
  | .reading i _ _ count => 0 < count ∧ 0 < (s.pipes i).dataSize
  | .writing i _ _ _ =>
      (s.pipes i).readerOpen = true ∧ (s.pipes i).dataSize ≠ PIPE_BUFFER_SIZE

structure Tracked where
  state : State
  waiting : List Suspended

namespace Tracked

def system (s : Tracked) : System := ⟨s.state, s.waiting.map Suspended.call⟩

inductive Op where
  | call (op : Pipe.Op)
  | resume (t : Suspended)

/-- The steps of `Pipe.Step`, with the waiting calls tracked. -/
inductive Step : Tracked → Op → Tracked → Prop where
  | call {s s' : State} {w : List Suspended} {op : Pipe.Op} {new : List Call} :
      Pipe.Step ⟨s, []⟩ op ⟨s', new⟩ →
        Step ⟨s, w⟩ (.call op) ⟨s', new.map (fun c => ⟨c, generation c.slot s.log⟩) ++ w⟩
  | resume {s : State} {before after : List Suspended} {t : Suspended} :
      Step ⟨s, before ++ t :: after⟩ (.resume t)
        ⟨(t.call.resume s).2,
          before ++ (t.call.resume s).1.waiting.map (fun c => ⟨c, t.since⟩) ++ after⟩

/-- A call that goes on finds the pipe it was made on, or nothing to move. -/
def OwnPipe (s : Tracked) : Op → Prop
  | .call _ => True
  | .resume t => t.Displaced s.state → ¬ t.call.Moves s.state

/-- What is read was written through the same pipe, what is written goes into the
pipe of the descriptor, and a new pipe is not touched by a call that waited on
another. -/
structure KeepsIdentity (s : Tracked) (op : Op) (s' : Tracked) : Prop where
  reads : ∀ i, deliveredBy i s'.state.log <+: copiedBy i s'.state.log
  writes : ∀ i fd bytes, .copied i fd bytes ∈ s'.state.log.drop s.state.log.length →
    bytes ≠ [] → (s.state.pipes i).id = fd >>> 3
  untouched : ∀ t, op = .resume t → t.Displaced s.state →
    s'.state.pipes t.call.slot = s.state.pipes t.call.slot

/-- A call does the same whatever else waits. -/
theorem step_widen {s s' : State} {op : Pipe.Op} {new : List Call}
    (step : Pipe.Step ⟨s, []⟩ op ⟨s', new⟩) (w : List Call) :
    Pipe.Step ⟨s, w⟩ op ⟨s', new ++ w⟩ := by
  generalize hstart : (⟨s, []⟩ : System) = start at step
  generalize hend : (⟨s', new⟩ : System) = finish at step
  cases step <;> simp only [System.mk.injEq] at hstart hend <;>
    obtain ⟨rfl, hw⟩ := hstart <;> obtain ⟨rfl, rfl⟩ := hend
  case pipeCreate => exact hw ▸ .pipeCreate
  case pipeClose => exact hw ▸ .pipeClose
  case pipeSetFlags => exact hw ▸ .pipeSetFlags
  case pipeRead =>
    rw [← hw, List.append_nil]
    exact .pipeRead
  case pipeWrite =>
    rw [← hw, List.append_nil]
    exact .pipeWrite
  case resume => exact absurd hw.symm (by simp)
  case kernel => exact hw ▸ .kernel

/-- Without the tracking they are runs of the pipes. -/
theorem Step.erase {s s' : Tracked} {op : Op} (step : Step s op s') :
    ∃ op', Pipe.Step s.system op' s'.system := by
  cases step with
  | @call s s' w op new h =>
      have hmap : (new.map fun c => (⟨c, generation c.slot s.log⟩ : Suspended)).map Suspended.call
          = new := by
        simp [Function.comp_def]
      refine ⟨op, ?_⟩
      simp only [system, List.map_append, hmap]
      exact step_widen h _
  | @resume s before after t =>
      refine ⟨.resume t.call, ?_⟩
      simp only [system, List.map_append, List.map_cons, List.map_map, Function.comp_def,
        List.map_id']
      exact .resume

end Tracked

/-! ### What a transfer leaves alone -/

/-- The id of a pipe, and which of its ends are open. -/
def identity (p : Pipe) : Nat × Bool × Bool := (p.id, p.readerOpen, p.writerOpen)

/-- Bytes handed out or copied in at a slot, through a descriptor. -/
def Event.By (i : PipeSlot) (fd : Nat) : Event → Prop
  | .created _ => False
  | .delivered j fd' _ => j = i ∧ fd' = fd
  | .copied j fd' _ => j = i ∧ fd' = fd

/-- From `s` to `s'` bytes have gone through slot `i` for a call on `fd`; no pipe was
created or closed. -/
structure Through (i : PipeSlot) (fd : Nat) (s s' : State) : Prop where
  identity_eq : ∀ j, identity (s'.pipes j) = identity (s.pipes j)
  others : ∀ j ≠ i, s'.pipes j = s.pipes j
  next_eq : s'.nextPipeId = s.nextPipeId
  events : ∃ es, s'.log = s.log ++ es ∧ ∀ e ∈ es, e.By i fd

namespace Through

variable {i : PipeSlot} {fd : Nat} {s s' s'' : State}

theorem refl (i : PipeSlot) (fd : Nat) (s : State) : Through i fd s s :=
  ⟨fun _ => rfl, fun _ _ => rfl, rfl, [], by simp, by simp⟩

theorem trans (first : Through i fd s s') (second : Through i fd s' s'') :
    Through i fd s s'' := by
  obtain ⟨es, hlog, hes⟩ := first.events
  obtain ⟨es', hlog', hes'⟩ := second.events
  refine ⟨fun j => (second.identity_eq j).trans (first.identity_eq j),
    fun j hj => (second.others j hj).trans (first.others j hj),
    second.next_eq.trans first.next_eq, es ++ es', ?_, ?_⟩
  · rw [hlog', hlog, List.append_assoc]
  · intro e he
    rcases List.mem_append.mp he with hmem | hmem
    · exact hes e hmem
    · exact hes' e hmem

theorem of_modify {f : Pipe → Pipe}
    (h : identity (f (s.pipes i)) = identity (s.pipes i)) : Through i fd s (s.modify i f) := by
  refine ⟨fun k => ?_, fun k hk => modify_other f hk, rfl, [], by simp [State.modify], by simp⟩
  by_cases hk : k = i
  · rw [hk, modify_same, h]
  · rw [modify_other f hk]

theorem of_emit {e : Event} (h : e.By i fd) : Through i fd s (s.emit e) :=
  ⟨fun _ => rfl, fun _ _ => rfl, rfl, [e], rfl, by simpa using h⟩

theorem of_block (current : Slot) : Through i fd s (s.block current) :=
  ⟨fun _ => rfl, fun _ _ => rfl, rfl, [], by simp [State.block], by simp⟩

theorem of_unblock (pid : Nat) : Through i fd s (s.unblock pid) := by
  unfold State.unblock
  split
  · exact ⟨fun _ => rfl, fun _ _ => rfl, rfl, [], by simp, by simp⟩
  · exact refl i fd s

end Through

theorem identity_takeBytes (n : Nat) (p : Pipe) : identity (takeBytes n p).2 = identity p := by
  induction n generalizing p with
  | zero => rfl
  | succ n ih => exact ih _

theorem identity_putBytes (bytes : List UInt8) (p : Pipe) :
    identity (putBytes bytes p) = identity p := by
  induction bytes generalizing p with
  | nil => rfl
  | cons b bytes ih => exact ih _

theorem through_finishRead (i : PipeSlot) (fd count : Nat) (s : State) :
    Through i fd s (finishRead i fd count s).2 := by
  unfold finishRead
  dsimp only
  refine Through.trans ?_ (.of_unblock _)
  refine Through.trans ?_ (.of_modify rfl)
  refine Through.trans ?_ (.of_emit (by simp [Event.By]))
  exact .of_modify (identity_takeBytes _ _)

theorem through_waitToRead (i : PipeSlot) (fd : Nat) (current : Slot) (count : Nat) (s : State) :
    Through i fd s (waitToRead i fd current count s).2 := by
  unfold waitToRead
  split
  · exact .of_block current
  split
  · exact .refl i fd s
  · exact through_finishRead i fd count s

theorem through_writeChunk (i : PipeSlot) (fd : Nat) (data : List UInt8) (written : Nat)
    (s : State) : Through i fd s (writeChunk i fd data written s).2 := by
  unfold writeChunk
  dsimp only
  refine Through.trans ?_ (.of_unblock _)
  refine Through.trans ?_ (.of_modify rfl)
  refine Through.trans ?_ (.of_emit (by simp [Event.By]))
  exact .of_modify (identity_putBytes _ _)

theorem through_writeLoop (i : PipeSlot) (fd : Nat) (data : List UInt8) (rounds written : Nat)
    (s : State) : Through i fd s (writeLoop i fd data rounds written s).2 := by
  induction rounds generalizing written s with
  | zero => exact .refl i fd s
  | succ rounds ih =>
      unfold writeLoop
      split
      · split
        · split
          · exact .refl i fd s
          split
          · exact .refl i fd s
          · exact .of_block _
        · exact (through_writeChunk i fd data written s).trans (ih _ _)
      · exact .refl i fd s

theorem through_resume (call : Call) (s : State) :
    Through call.slot call.fd s (call.resume s).2 := by
  cases call with
  | reading i fd current count => exact through_waitToRead i fd current count s
  | writing i fd data written =>
      unfold Call.resume resumeWrite
      dsimp only
      split
      · exact .refl i fd s
      · exact (through_writeChunk i fd data written s).trans (through_writeLoop ..)

/-- Does a call find a pipe that it may use? -/
structure Opens (fd : Nat) (s : State) (i : PipeSlot) : Prop where
  id_eq : (s.pipes i).id = fd >>> 3
  isOpen : (s.pipes i).readerOpen = true ∨ (s.pipes i).writerOpen = true

theorem findPipe_id {id : Nat} {s : State} {i : PipeSlot} (h : findPipe id s = some i) :
    (s.pipes i).id = id := by
  have := List.find?_some h
  simpa using this

theorem waitToRead_waiting {i : PipeSlot} {fd : Nat} {current : Slot} {count : Nat} {s : State}
    {c : Call} (h : c ∈ (waitToRead i fd current count s).1.waiting) : c.On i fd := by
  unfold waitToRead at h
  split at h
  · rw [Outcome.waiting, List.mem_singleton] at h
    exact h ▸ ⟨rfl, rfl, trivial⟩
  split at h
  · simp [Outcome.waiting] at h
  · simp [finishRead, Outcome.waiting] at h

/-- A call of `pipe_read` does nothing, or moves bytes of the pipe it finds. -/
theorem pipeRead_through (fd count : Nat) (s : State) :
    (pipeRead fd count s).2 = s ∧ (pipeRead fd count s).1.waiting = [] ∨
      ∃ i, Opens fd s i ∧ Through i fd s (pipeRead fd count s).2 ∧
        ∀ c ∈ (pipeRead fd count s).1.waiting, c.On i fd := by
  unfold pipeRead pipeGetByFd
  split
  · exact .inl ⟨rfl, rfl⟩
  next i hfind =>
    split
    · exact .inl ⟨rfl, rfl⟩
    next hopen =>
      have opens : Opens fd s i := ⟨findPipe_id hfind, by
        rw [not_or] at hopen
        exact .inl (by simpa using hopen.1)⟩
      split
      · split
        · exact .inl ⟨rfl, rfl⟩
        split
        · exact .inl ⟨rfl, rfl⟩
        split
        · exact .inl ⟨rfl, rfl⟩
        next current _ =>
          exact .inr ⟨i, opens, through_waitToRead .., fun c hc => waitToRead_waiting hc⟩
      · exact .inr ⟨i, opens, through_finishRead .., by simp [finishRead, Outcome.waiting]⟩

theorem writeLoop_waiting {i : PipeSlot} {fd : Nat} {data : List UInt8} {rounds written : Nat}
    {s : State} {c : Call} (h : c ∈ (writeLoop i fd data rounds written s).1.waiting) :
    c.On i fd := by
  induction rounds generalizing written s with
  | zero => simp [writeLoop, Outcome.waiting] at h
  | succ rounds ih =>
      unfold writeLoop at h
      split at h
      next hleft =>
        split at h
        · split at h
          · simp [Outcome.waiting] at h
          split at h
          · simp [Outcome.waiting] at h
          · rw [Outcome.waiting, List.mem_singleton] at h
            exact h ▸ ⟨rfl, rfl, hleft⟩
        · exact ih h
      next => simp [Outcome.waiting] at h

/-- A call of `pipe_write` does nothing, or moves bytes into the pipe it finds. -/
theorem pipeWrite_through (fd : Nat) (data : List UInt8) (s : State) :
    (pipeWrite fd data s).2 = s ∧ (pipeWrite fd data s).1.waiting = [] ∨
      ∃ i, Opens fd s i ∧ Through i fd s (pipeWrite fd data s).2 ∧
        ∀ c ∈ (pipeWrite fd data s).1.waiting, c.On i fd := by
  unfold pipeWrite pipeGetByFd
  split
  · exact .inl ⟨rfl, rfl⟩
  next i hfind =>
    split
    · exact .inl ⟨rfl, rfl⟩
    next hopen =>
      have opens : Opens fd s i := ⟨findPipe_id hfind, by
        rw [not_or] at hopen
        exact .inr (by simpa using hopen.1)⟩
      split
      · exact .inl ⟨rfl, rfl⟩
      · exact .inr ⟨i, opens, through_writeLoop .., fun c hc => writeLoop_waiting hc⟩

/-- A call that goes on keeps its slot and its descriptor. -/
theorem resume_waiting {call c : Call} {s : State} (h : c ∈ (call.resume s).1.waiting) :
    c.On call.slot call.fd := by
  cases call with
  | reading i fd current count => exact waitToRead_waiting h
  | writing i fd data written =>
      unfold Call.resume resumeWrite at h
      dsimp only at h
      split at h
      · simp [Outcome.waiting] at h
      · exact writeLoop_waiting h

/-! ### Calls with nothing to move -/

/-- From `s` to `s'` no byte has been moved, and the pipe in slot `i` is as it was. -/
structure Idle (i : PipeSlot) (s s' : State) : Prop where
  pipe_eq : s'.pipes i = s.pipes i
  events : ∃ es, s'.log = s.log ++ es ∧
    ∀ e ∈ es, (∃ j fd, e = .delivered j fd []) ∨ ∃ j fd, e = .copied j fd []

theorem Idle.of_same {i : PipeSlot} {s s' : State} (hpipe : s'.pipes i = s.pipes i)
    (hlog : s'.log = s.log) : Idle i s s' :=
  ⟨hpipe, [], by rw [hlog, List.append_nil], by simp⟩

theorem Idle.trans {i : PipeSlot} {s s' s'' : State} (first : Idle i s s')
    (second : Idle i s' s'') : Idle i s s'' := by
  obtain ⟨es, hlog, hes⟩ := first.events
  obtain ⟨es', hlog', hes'⟩ := second.events
  refine ⟨second.pipe_eq.trans first.pipe_eq, es ++ es', ?_, ?_⟩
  · rw [hlog', hlog, List.append_assoc]
  · intro e he
    rcases List.mem_append.mp he with hmem | hmem
    · exact hes e hmem
    · exact hes' e hmem

/-- A call with nothing to move leaves the streams of every slot as they are. -/
theorem Idle.streams {i : PipeSlot} {s s' : State} (h : Idle i s s') (j : PipeSlot) :
    deliveredBy j s'.log = deliveredBy j s.log ∧ copiedBy j s'.log = copiedBy j s.log := by
  obtain ⟨es, hlog, hes⟩ := h.events
  rw [hlog]
  clear hlog
  induction es using List.reverseRecOn with
  | nil => simp
  | append_singleton es e ih =>
      obtain ⟨hdelivered, hcopied⟩ := ih fun x hx => hes x (List.mem_append_left _ hx)
      rw [← List.append_assoc, deliveredBy_append, copiedBy_append, hdelivered, hcopied]
      obtain ⟨k, fd, rfl⟩ | ⟨k, fd, rfl⟩ := hes e (by simp) <;> simp [deliverBy, copyInBy]

@[simp] theorem pipes_emit (s : State) (e : Event) : (s.emit e).pipes = s.pipes := rfl

@[simp] theorem pipes_block (s : State) (current : Slot) : (s.block current).pipes = s.pipes := rfl

@[simp] theorem log_block (s : State) (current : Slot) : (s.block current).log = s.log := rfl

@[simp] theorem pipes_unblock (s : State) (pid : Nat) : (s.unblock pid).pipes = s.pipes := by
  unfold State.unblock
  split <;> rfl

@[simp] theorem log_unblock (s : State) (pid : Nat) : (s.unblock pid).log = s.log := by
  unfold State.unblock
  split <;> rfl

@[simp] theorem log_modify (s : State) (i : PipeSlot) (f : Pipe → Pipe) :
    (s.modify i f).log = s.log := rfl

@[simp] theorem dataSize_takeBytes (n : Nat) (p : Pipe) :
    (takeBytes n p).2.dataSize = p.dataSize := by
  induction n generalizing p with
  | zero => rfl
  | succ n ih => exact ih _

@[simp] theorem dataSize_putBytes (bytes : List UInt8) (p : Pipe) :
    (putBytes bytes p).dataSize = p.dataSize := by
  induction bytes generalizing p with
  | nil => rfl
  | cons b bytes ih => exact ih _

section Moves

variable {i : PipeSlot} {fd : Nat} {s : State} {f : Fifo UInt8 PIPE_BUFFER_SIZE}

/-- A read of no bytes. -/
theorem idle_finishRead (h : Refines s i f) : Idle i s (finishRead i fd 0 s).2 := by
  have hsize := h.dataSize_le
  have hleft : wsub 64 (s.pipes i).dataSize 0 = (s.pipes i).dataSize :=
    wsub_of_le (hsize.trans_lt (by decide)) (Nat.zero_le _)
  have hnone : (if 0 < (s.pipes i).dataSize then 0 else (s.pipes i).dataSize) = 0 := by
    split <;> omega
  refine ⟨?_, [.delivered i fd []], ?_, by simp⟩
  · simp [finishRead, hnone, takeBytes, hleft]
  · simp [finishRead, hnone, takeBytes, State.emit]

/-- A chunk for a pipe that is full. -/
theorem idle_writeChunk {data : List UInt8} {written : Nat}
    (hfull : (s.pipes i).dataSize = PIPE_BUFFER_SIZE) :
    Idle i s (writeChunk i fd data written s).2 := by
  have hspace : wsub 64 PIPE_BUFFER_SIZE PIPE_BUFFER_SIZE = 0 := rfl
  have hsum : wadd 64 PIPE_BUFFER_SIZE 0 = PIPE_BUFFER_SIZE := rfl
  have hnone : (if data.length - written < 0 then data.length - written else 0) = 0 := by
    split <;> omega
  refine ⟨?_, [.copied i fd []], ?_, by simp⟩
  · simp only [writeChunk, hfull, hspace, hnone, List.take_zero, putBytes, pipes_unblock,
      modify_same, pipes_emit, hsum]
    rw [← hfull]
  · simp only [writeChunk, hfull, hspace, hnone, List.take_zero, log_unblock, log_modify,
      State.emit]

theorem idle_writeLoop {data : List UInt8} {rounds written : Nat}
    (hfull : (s.pipes i).dataSize = PIPE_BUFFER_SIZE) :
    Idle i s (writeLoop i fd data rounds written s).2 := by
  cases rounds with
  | zero => exact .of_same rfl rfl
  | succ rounds =>
      rw [writeLoop, if_pos hfull]
      split
      · split
        · exact .of_same rfl rfl
        split <;> exact .of_same rfl rfl
      · exact .of_same rfl rfl

theorem idle_of_not_moves {call : Call} (h : Refines s call.slot f) (hno : ¬ call.Moves s) :
    Idle call.slot s (call.resume s).2 := by
  cases call with
  | reading i fd current count =>
      unfold Call.resume waitToRead
      dsimp only
      split
      · exact .of_same rfl rfl
      split
      · exact .of_same rfl rfl
      next hdata =>
        have hcount : count = 0 := by
          by_contra hne
          exact hno ⟨Nat.pos_of_ne_zero hne, Nat.pos_of_ne_zero hdata⟩
        rw [hcount]
        exact idle_finishRead h
  | writing i fd data written =>
      unfold Call.resume resumeWrite
      dsimp only
      split
      · exact .of_same rfl rfl
      next hopen =>
        have hfull : (s.pipes i).dataSize = PIPE_BUFFER_SIZE := by
          by_contra hne
          exact hno ⟨by simpa using hopen, hne⟩
        have chunk := @idle_writeChunk i fd s data written hfull
        refine chunk.trans (idle_writeLoop ?_)
        rw [chunk.pipe_eq]
        exact hfull

/-! ### Calls that move something -/

theorem dataSize_writeChunk {data : List UInt8} {written : Nat}
    (hsize : (s.pipes i).dataSize ≤ PIPE_BUFFER_SIZE) :
    ((writeChunk i fd data written s).2.pipes i).dataSize
      = (s.pipes i).dataSize + min (data.length - written)
          (PIPE_BUFFER_SIZE - (s.pipes i).dataSize) := by
  have hspace : wsub 64 PIPE_BUFFER_SIZE (s.pipes i).dataSize
      = PIPE_BUFFER_SIZE - (s.pipes i).dataSize := wsub_of_le (by decide) hsize
  have hmin : (if data.length - written < PIPE_BUFFER_SIZE - (s.pipes i).dataSize then
      data.length - written else PIPE_BUFFER_SIZE - (s.pipes i).dataSize)
      = min (data.length - written) (PIPE_BUFFER_SIZE - (s.pipes i).dataSize) := by
    split <;> omega
  have hroom := Nat.min_le_right (data.length - written) (PIPE_BUFFER_SIZE - (s.pipes i).dataSize)
  have hlt : (s.pipes i).dataSize + min (data.length - written)
      (PIPE_BUFFER_SIZE - (s.pipes i).dataSize) ≤ PIPE_BUFFER_SIZE := by omega
  simp only [writeChunk, hspace, hmin, pipes_unblock, modify_same, pipes_emit, dataSize_putBytes]
  exact wadd_of_lt (hlt.trans_lt (by decide))

/-- Writing makes a pipe no emptier. -/
theorem dataSize_writeLoop {data : List UInt8} {rounds written : Nat}
    (hsize : (s.pipes i).dataSize ≤ PIPE_BUFFER_SIZE) :
    (s.pipes i).dataSize ≤ ((writeLoop i fd data rounds written s).2.pipes i).dataSize := by
  induction rounds generalizing written s with
  | zero => exact Nat.le_refl _
  | succ rounds ih =>
      unfold writeLoop
      split
      · split
        · split
          · exact Nat.le_refl _
          split <;> exact Nat.le_refl _
        · have hchunk := @dataSize_writeChunk i fd s data written hsize
          have hrest := @ih (writeChunk i fd data written s).2 (writeChunk i fd data written s).1
            (by omega)
          dsimp only
          omega
      · exact Nat.le_refl _

theorem changed_of_moves {call : Call} (h : Refines s call.slot f) (hpending : call.Pending)
    (hmoves : call.Moves s) : (call.resume s).2.pipes call.slot ≠ s.pipes call.slot := by
  have hsize := h.dataSize_le
  intro hsame
  have hdata := congrArg Pipe.dataSize hsame
  cases call with
  | reading i fd current count =>
      obtain ⟨hcount, hsome⟩ := hmoves
      have hne : (s.pipes i).dataSize ≠ 0 := by omega
      simp only [Call.slot] at hsize hdata
      rw [Call.resume, waitToRead, if_neg (by tauto), if_neg hne] at hdata
      simp only [finishRead, pipes_unblock, modify_same, pipes_emit, dataSize_takeBytes] at hdata
      rw [wsub_of_le (hsize.trans_lt (by decide)) (by split <;> omega)] at hdata
      split at hdata <;> omega
  | writing i fd data written =>
      obtain ⟨hopen, hroom⟩ := hmoves
      simp only [Call.slot] at hsize hdata
      rw [Call.resume, resumeWrite, if_neg (by simp [hopen])] at hdata
      have hchunk := @dataSize_writeChunk i fd s data written hsize
      have hrest := @dataSize_writeLoop i fd (writeChunk i fd data written s).2 data
        (data.length + 1) (writeChunk i fd data written s).1 (by omega)
      have hleft : written < data.length := hpending
      dsimp only at hdata
      omega

end Moves

/-! ### The invariant -/

/-- No end of the pipe is open. -/
def Closed (p : Pipe) : Prop := p.readerOpen = false ∧ p.writerOpen = false

/-- All that has gone through a slot since its pipe was created was for id `k`. -/
structure Own (i : PipeSlot) (s : State) (k : Nat) : Prop where
  copied : ∀ x ∈ copiedBy i s.log, x.1 = k
  delivered : ∀ x ∈ deliveredBy i s.log, x.1 = k
  live : (s.pipes i).id = k ∨ Closed (s.pipes i)

/-- Waiting calls whose pipe is still there wait on that id. -/
structure Waits (i : PipeSlot) (s : Tracked) (k : Nat) : Prop where
  own : Own i s.state k
  calls : ∀ t ∈ s.waiting, t.call.slot = i → ¬ t.Displaced s.state → t.call.fd >>> 3 = k

namespace Tracked

structure Inv (s : Tracked) : Prop where
  refines : ∀ i, ∃ f, Refines s.state i f
  waits : ∀ i, ∃ k, Waits i s k
  since_le : ∀ t ∈ s.waiting, t.since ≤ generation t.call.slot s.state.log
  pending : ∀ t ∈ s.waiting, t.call.Pending

end Tracked

section Through

variable {i : PipeSlot} {fd : Nat} {s s' : State}

theorem Through.generation_eq (h : Through i fd s s') (j : PipeSlot) :
    generation j s'.log = generation j s.log := by
  obtain ⟨es, hlog, hes⟩ := h.events
  have hnone : es.count (.created j) = 0 := List.count_eq_zero.mpr fun hmem => hes _ hmem
  rw [hlog, generation, List.count_append, hnone, Nat.add_zero]
  rfl

/-- The bytes added to a stream are those of the call. -/
theorem Through.streams (h : Through i fd s s') (j : PipeSlot) :
    (∀ x ∈ copiedBy j s'.log, x ∈ copiedBy j s.log ∨ j = i ∧ x.1 = fd >>> 3) ∧
      ∀ x ∈ deliveredBy j s'.log, x ∈ deliveredBy j s.log ∨ j = i ∧ x.1 = fd >>> 3 := by
  obtain ⟨es, hlog, hes⟩ := h.events
  rw [hlog]
  clear hlog
  induction es using List.reverseRecOn with
  | nil =>
      rw [List.append_nil]
      exact ⟨fun x hx => .inl hx, fun x hx => .inl hx⟩
  | append_singleton es e ih =>
      obtain ⟨hcopied, hdelivered⟩ := ih fun x hx => hes x (List.mem_append_left _ hx)
      have hby := hes e (by simp)
      rw [← List.append_assoc, deliveredBy_append, copiedBy_append]
      cases e with
      | created k => exact hby.elim
      | delivered k fd' bytes =>
          obtain ⟨rfl, rfl⟩ := hby
          refine ⟨hcopied, fun x hx => ?_⟩
          rw [deliverBy] at hx
          split at hx
          next hk =>
            rcases List.mem_append.mp hx with hold | hnew
            · exact hdelivered x hold
            · obtain ⟨b, -, rfl⟩ := List.mem_map.mp hnew
              exact .inr ⟨hk.symm, rfl⟩
          next => exact hdelivered x hx
      | copied k fd' bytes =>
          obtain ⟨rfl, rfl⟩ := hby
          refine ⟨fun x hx => ?_, hdelivered⟩
          rw [copyInBy] at hx
          split at hx
          next hk =>
            rcases List.mem_append.mp hx with hold | hnew
            · exact hcopied x hold
            · obtain ⟨b, -, rfl⟩ := List.mem_map.mp hnew
              exact .inr ⟨hk.symm, rfl⟩
          next => exact hcopied x hx

theorem identity_eq_iff {p q : Pipe} : identity p = identity q ↔
    p.id = q.id ∧ p.readerOpen = q.readerOpen ∧ p.writerOpen = q.writerOpen := by
  simp [identity]

/-- What goes through for id `k` leaves the slot to `k`. -/
theorem Own.through {j : PipeSlot} {k : Nat} (own : Own j s k) (h : Through i fd s s')
    (hk : j = i → fd >>> 3 = k) : Own j s' k := by
  obtain ⟨hcopied, hdelivered⟩ := h.streams j
  obtain ⟨hid, hreader, hwriter⟩ := identity_eq_iff.mp (h.identity_eq j)
  refine ⟨fun x hx => ?_, fun x hx => ?_, ?_⟩
  · rcases hcopied x hx with hold | ⟨hj, hx⟩
    · exact own.copied x hold
    · rw [hx, hk hj]
  · rcases hdelivered x hx with hold | ⟨hj, hx⟩
    · exact own.delivered x hold
    · rw [hx, hk hj]
  · rw [hid, Closed, hreader, hwriter]
    exact own.live

theorem Own.idle {j : PipeSlot} {k : Nat} (own : Own j s k) (h : Through i fd s s')
    (idle : Idle i s s') : Own j s' k := by
  obtain ⟨hdelivered, hcopied⟩ := idle.streams j
  obtain ⟨hid, hreader, hwriter⟩ := identity_eq_iff.mp (h.identity_eq j)
  refine ⟨?_, ?_, ?_⟩
  · rw [hcopied]
    exact own.copied
  · rw [hdelivered]
    exact own.delivered
  · rw [hid, Closed, hreader, hwriter]
    exact own.live

/-- A call that finds an open pipe belongs to it. -/
theorem Own.opens {k : Nat} (own : Own i s k) (h : Opens fd s i) : fd >>> 3 = k := by
  rcases own.live with hid | ⟨hreader, hwriter⟩
  · rw [← h.id_eq, hid]
  · rcases h.isOpen with hopen | hopen
    · rw [hreader] at hopen
      cases hopen
    · rw [hwriter] at hopen
      cases hopen

end Through

/-- What a step copies in, the call that makes it does. -/
theorem Through.copied_by {i j : PipeSlot} {fd fd' : Nat} {s s' : State} {bytes : List UInt8}
    (through : Through i fd s s') (h : .copied j fd' bytes ∈ s'.log.drop s.log.length) :
    j = i ∧ fd' = fd := by
  obtain ⟨es, hlog, hes⟩ := through.events
  rw [hlog, List.drop_left] at h
  exact hes _ h

/-- Reading copies nothing in. -/
theorem waitToRead_copies {i j : PipeSlot} {fd fd' count : Nat} {current : Slot} {s : State}
    {bytes : List UInt8} :
    .copied j fd' bytes ∉ (waitToRead i fd current count s).2.log.drop s.log.length := by
  unfold waitToRead
  split
  · simp
  split
  · simp
  · simp [finishRead, State.emit]

/-- In a stream for one id, the ids say nothing that the bytes do not. -/
theorem eq_map_of_fst {l : List (Nat × UInt8)} {k : Nat} (h : ∀ x ∈ l, x.1 = k) :
    l = (l.map Prod.snd).map (k, ·) := by
  induction l with
  | nil => rfl
  | cons x l ih =>
      have hx : x = (k, x.2) := Prod.ext (h x (by simp)) rfl
      rw [List.map_cons, List.map_cons, ← ih fun y hy => h y (List.mem_cons_of_mem _ hy), ← hx]

/-! ### Steps keep it -/

/-- No pipe is created, and none is opened. -/
structure Quiet (s s' : State) : Prop where
  log_eq : s'.log = s.log
  next_eq : s'.nextPipeId = s.nextPipeId
  id_eq : ∀ i, (s'.pipes i).id = (s.pipes i).id ∨ (s'.pipes i).id = 0 ∧ Closed (s'.pipes i)
  closed : ∀ i, Closed (s.pipes i) → Closed (s'.pipes i)

theorem Quiet.refl (s : State) : Quiet s s := ⟨rfl, rfl, fun _ => .inl rfl, fun _ h => h⟩

theorem Quiet.of_modify {s : State} {i : PipeSlot} {f : Pipe → Pipe}
    (hid : (f (s.pipes i)).id = (s.pipes i).id ∨
      (f (s.pipes i)).id = 0 ∧ Closed (f (s.pipes i)))
    (hclosed : Closed (s.pipes i) → Closed (f (s.pipes i))) : Quiet s (s.modify i f) := by
  refine ⟨rfl, rfl, fun j => ?_, fun j => ?_⟩ <;> by_cases hj : j = i
  · subst hj
    rw [modify_same]
    exact hid
  · rw [modify_other f hj]
    exact .inl rfl
  · subst hj
    rw [modify_same]
    exact hclosed
  · rw [modify_other f hj]
    exact fun h => h

theorem quiet_pipeClose (fd : Nat) (s : State) : Quiet s (pipeClose fd s).2 := by
  unfold pipeClose
  split
  · exact .refl s
  · refine .of_modify ?_ fun hclosed => ?_
    · rw [closeEnds_id]
      split
      next hclosed => exact .inr ⟨rfl, hclosed⟩
      next => exact .inl rfl
    · obtain ⟨hreader, hwriter⟩ := hclosed
      simp [Closed, hreader, hwriter]

theorem quiet_pipeSetFlags (fd : Nat) (flags : BitVec 8) (s : State) :
    Quiet s (pipeSetFlags fd flags s).2 := by
  unfold pipeSetFlags
  split
  · exact .refl s
  · dsimp only
    exact .of_modify (.inl rfl) fun hclosed => hclosed

/-- From `s` to `s'` a free slot has been given to a new pipe. -/
structure Creates (i : PipeSlot) (s s' : State) : Prop where
  log_eq : s'.log = s.log ++ [.created i]
  next_eq : s'.nextPipeId = wadd 64 s.nextPipeId 1
  free : (s.pipes i).id = 0
  id_eq : (s'.pipes i).id = s.nextPipeId
  readerOpen : (s'.pipes i).readerOpen = true
  writerOpen : (s'.pipes i).writerOpen = true
  dataSize_eq : (s'.pipes i).dataSize = 0
  kernel_eq : s'.kernel = s.kernel
  others : ∀ j ≠ i, s'.pipes j = s.pipes j

/-- `pipe_create` fails, or gives a free slot to a new pipe. -/
theorem pipeCreate_cases (s : State) :
    findPipe 0 s = none ∧ (pipeCreate s).2.2 = s ∨
      ∃ i, findPipe 0 s = some i ∧ Creates i s (pipeCreate s).2.2 := by
  unfold pipeCreate
  split
  next hfull => exact .inl ⟨hfull, rfl⟩
  next i hfind =>
    have hfree := findPipe_id hfind
    refine .inr ⟨i, hfind, ?_⟩
    dsimp only
    split
    · exact ⟨rfl, rfl, hfree, by simp, by simp, by simp, by simp, rfl, fun j hj => by simp [hj]⟩
    · exact ⟨rfl, rfl, hfree, by simp, by simp, by simp, by simp, rfl, fun j hj => by simp [hj]⟩

/-- What a call does that does not go on from a wait: it moves no bytes, or creates a
pipe, or moves bytes of the pipe that it finds. -/
theorem call_cases {s s' : State} {op : Op} {new : List Call}
    (step : Step ⟨s, []⟩ op ⟨s', new⟩) :
    new = [] ∧ Quiet s s' ∨ (new = [] ∧ ∃ i, Creates i s s') ∨
      ∃ i fd, Opens fd s i ∧ Through i fd s s' ∧ ∀ c ∈ new, c.On i fd := by
  generalize hstart : (⟨s, []⟩ : System) = start at step
  generalize hend : (⟨s', new⟩ : System) = finish at step
  cases step <;> simp only [System.mk.injEq] at hstart hend <;>
    obtain ⟨rfl, hw⟩ := hstart <;> obtain ⟨rfl, rfl⟩ := hend
  case pipeCreate =>
    rcases pipeCreate_cases s with ⟨-, hsame⟩ | ⟨i, -, creates⟩
    · rw [hsame]
      exact .inl ⟨hw.symm, .refl s⟩
    · exact .inr (.inl ⟨hw.symm, i, creates⟩)
  case pipeClose => exact .inl ⟨hw.symm, quiet_pipeClose ..⟩
  case pipeSetFlags => exact .inl ⟨hw.symm, quiet_pipeSetFlags ..⟩
  case pipeRead fd count =>
    rw [← hw, List.append_nil]
    rcases pipeRead_through fd count s with ⟨hsame, hnone⟩ | ⟨i, opens, through, hnew⟩
    · rw [hsame]
      exact .inl ⟨hnone, .refl s⟩
    · exact .inr (.inr ⟨i, fd, opens, through, hnew⟩)
  case pipeWrite fd data =>
    rw [← hw, List.append_nil]
    rcases pipeWrite_through fd data s with ⟨hsame, hnone⟩ | ⟨i, opens, through, hnew⟩
    · rw [hsame]
      exact .inl ⟨hnone, .refl s⟩
    · exact .inr (.inr ⟨i, fd, opens, through, hnew⟩)
  case resume => exact absurd hw.symm (by simp)
  case kernel => exact .inl ⟨hw.symm, rfl, rfl, fun _ => .inl rfl, fun _ h => h⟩

namespace Tracked

theorem Inv.quiet {s s' : State} {w : List Suspended} (inv : Inv ⟨s, w⟩) (flows : Flows s s')
    (quiet : Quiet s s') : Inv ⟨s', w⟩ := by
  have hlog := quiet.log_eq
  refine ⟨fun i => ?_, fun i => ?_, fun t ht => ?_, inv.pending⟩
  · obtain ⟨f, hf⟩ := inv.refines i
    obtain ⟨f', -, hf'⟩ := flows.steps i f hf
    exact ⟨f', hf'⟩
  · obtain ⟨k, own, hcalls⟩ := inv.waits i
    refine ⟨k, ⟨?_, ?_, ?_⟩, fun t ht hslot hsame => hcalls t ht hslot ?_⟩
    · rw [hlog]
      exact own.copied
    · rw [hlog]
      exact own.delivered
    · rcases own.live with hid | hclosed
      · rcases quiet.id_eq i with heq | ⟨-, hclosed⟩
        · exact .inl (heq.trans hid)
        · exact .inr hclosed
      · exact .inr (quiet.closed i hclosed)
    · rwa [Suspended.Displaced, hlog] at hsame
  · dsimp only
    rw [hlog]
    exact inv.since_le t ht

/-- A new pipe starts with nothing, and no waiting call was made on it. -/
theorem Inv.created {s s' : State} {w : List Suspended} {i : PipeSlot} (inv : Inv ⟨s, w⟩)
    (flows : Flows s s') (creates : Creates i s s') : Inv ⟨s', w⟩ := by
  have hlog := creates.log_eq
  have hnew : generation i s'.log = generation i s.log + 1 := by
    simp [generation, hlog]
  have hold : ∀ j ≠ i, generation j s'.log = generation j s.log := fun j hj => by
    simp [generation, hlog, Ne.symm hj]
  refine ⟨fun j => ?_, fun j => ?_, fun t ht => ?_, inv.pending⟩
  · obtain ⟨f, hf⟩ := inv.refines j
    obtain ⟨f', -, hf'⟩ := flows.steps j f hf
    exact ⟨f', hf'⟩
  · by_cases hj : j = i
    · subst hj
      refine ⟨(s'.pipes j).id, ⟨?_, ?_, .inl rfl⟩, fun t ht hslot hsame => ?_⟩
      · simp [hlog, copyInBy]
      · simp [hlog, deliverBy]
      · have hle := inv.since_le t ht
        simp only [Suspended.Displaced, not_not] at hsame
        rw [hslot] at hsame hle
        dsimp only at hsame hle
        omega
    · obtain ⟨k, own, hcalls⟩ := inv.waits j
      refine ⟨k, ⟨?_, ?_, ?_⟩, fun t ht hslot hsame => hcalls t ht hslot ?_⟩
      · simp only [hlog, copiedBy_append, copyInBy, if_neg (Ne.symm hj)]
        exact own.copied
      · simp only [hlog, deliveredBy_append, deliverBy, if_neg (Ne.symm hj)]
        exact own.delivered
      · rw [creates.others j hj]
        exact own.live
      · rw [Suspended.Displaced, hslot, hold j hj] at hsame
        rw [Suspended.Displaced, hslot]
        exact hsame
  · have hle := inv.since_le t ht
    by_cases hslot : t.call.slot = i
    · dsimp only at hle ⊢
      rw [hslot] at hle ⊢
      omega
    · dsimp only
      rw [hold _ hslot]
      exact hle

/-- Bytes that go through a slot for those it belongs to. -/
theorem Inv.through {s s' : State} {w w' : List Suspended} {i : PipeSlot} {fd : Nat}
    (inv : Inv ⟨s, w⟩) (flows : Flows s s') (through : Through i fd s s')
    (hown : ∀ k, Waits i ⟨s, w⟩ k → Own i s' k)
    (hw : ∀ t ∈ w', t.since ≤ generation t.call.slot s.log ∧ t.call.Pending ∧
      ∀ k, Waits t.call.slot ⟨s, w⟩ k → ¬ t.Displaced s → t.call.fd >>> 3 = k) :
    Inv ⟨s', w'⟩ := by
  refine ⟨fun j => ?_, fun j => ?_, fun t ht => ?_, fun t ht => (hw t ht).2.1⟩
  · obtain ⟨f, hf⟩ := inv.refines j
    obtain ⟨f', -, hf'⟩ := flows.steps j f hf
    exact ⟨f', hf'⟩
  · obtain ⟨k, waits⟩ := inv.waits j
    refine ⟨k, ?_, fun t ht hslot hsame => ?_⟩
    · by_cases hj : j = i
      · subst hj
        exact hown k waits
      · exact waits.own.through through fun heq => absurd heq hj
    · subst hslot
      rw [Suspended.Displaced, through.generation_eq] at hsame
      exact (hw t ht).2.2 k waits hsame
  · dsimp only
    rw [through.generation_eq]
    exact (hw t ht).1

/-- A call on a descriptor of a pipe that is open. -/
theorem Inv.transfer {s s' : State} {w : List Suspended} {new : List Call} {i : PipeSlot}
    {fd : Nat} (inv : Inv ⟨s, w⟩) (flows : Flows s s') (through : Through i fd s s')
    (opens : Opens fd s i) (hnew : ∀ c ∈ new, c.On i fd) :
    Inv ⟨s', new.map (fun c => ⟨c, generation c.slot s.log⟩) ++ w⟩ := by
  refine inv.through flows through
    (fun k waits => waits.own.through through fun _ => waits.own.opens opens) fun t ht => ?_
  rcases List.mem_append.mp ht with hmem | hmem
  · obtain ⟨c, hc, rfl⟩ := List.mem_map.mp hmem
    obtain ⟨hslot, hfd, hpending⟩ := hnew c hc
    refine ⟨Nat.le_refl _, hpending, fun k waits _ => ?_⟩
    dsimp only at waits ⊢
    rw [hslot] at waits
    rw [hfd]
    exact waits.own.opens opens
  · exact ⟨inv.since_le t hmem, inv.pending t hmem, fun k waits => waits.calls t hmem rfl⟩

/-- A call that goes on and finds its own pipe, or nothing to move. -/
theorem Inv.resume {s : State} {before after : List Suspended} {t : Suspended}
    (inv : Inv ⟨s, before ++ t :: after⟩) (hown : t.Displaced s → ¬ t.call.Moves s) :
    Inv ⟨(t.call.resume s).2,
      before ++ (t.call.resume s).1.waiting.map (fun c => ⟨c, t.since⟩) ++ after⟩ := by
  have hmem : t ∈ before ++ t :: after := by simp
  have through := through_resume t.call s
  refine inv.through (flows_resume t.call s) through (fun k waits => ?_) fun u hu => ?_
  · by_cases hdisplaced : t.Displaced s
    · obtain ⟨f, hf⟩ := inv.refines t.call.slot
      exact waits.own.idle through (idle_of_not_moves hf (hown hdisplaced))
    · exact waits.own.through through fun _ => waits.calls t hmem rfl hdisplaced
  · have hold : ∀ u ∈ before ++ t :: after, u.since ≤ generation u.call.slot s.log ∧
        u.call.Pending ∧ ∀ k, Waits u.call.slot ⟨s, before ++ t :: after⟩ k →
          ¬ u.Displaced s → u.call.fd >>> 3 = k := fun u hu =>
      ⟨inv.since_le u hu, inv.pending u hu, fun k waits => waits.calls u hu rfl⟩
    rcases List.mem_append.mp hu with hleft | hafter
    · rcases List.mem_append.mp hleft with hbefore | hnew
      · exact hold u (by simp [hbefore])
      · obtain ⟨c, hc, rfl⟩ := List.mem_map.mp hnew
        obtain ⟨hslot, hfd, hpending⟩ := resume_waiting hc
        obtain ⟨hsince, -, hcall⟩ := hold t hmem
        simp only [Suspended.Displaced, hslot, hfd] at hcall ⊢
        exact ⟨hsince, hpending, hcall⟩
    · exact hold u (by simp [hafter])

theorem Inv.step {s s' : Tracked} {op : Op} (inv : Inv s) (step : Step s op s')
    (hown : OwnPipe s op) : Inv s' := by
  cases step with
  | call h =>
      have flows := h.flows
      rcases call_cases h with ⟨rfl, quiet⟩ | ⟨rfl, i, creates⟩ | ⟨i, fd, opens, through, hnew⟩
      · exact inv.quiet flows quiet
      · exact inv.created flows creates
      · exact inv.transfer flows through opens hnew
  | resume => exact inv.resume hown

/-- What a slot has delivered begins what was copied in, ids and all. -/
theorem Inv.reads {s : Tracked} (inv : Inv s) (i : PipeSlot) :
    deliveredBy i s.state.log <+: copiedBy i s.state.log := by
  obtain ⟨k, own, -⟩ := inv.waits i
  obtain ⟨f, hf⟩ := inv.refines i
  have hbytes : delivered i s.state.log <+: copied i s.state.log := by
    rw [← hf.delivered, ← hf.accepted, ← f.conserved]
    exact List.prefix_append _ _
  rw [eq_map_of_fst own.copied, eq_map_of_fst own.delivered, copiedBy_bytes, deliveredBy_bytes]
  exact hbytes.map _

/-- What a write that goes on copies goes into the pipe of its descriptor. -/
theorem Inv.writes_resume {s : State} {before after : List Suspended} {t : Suspended}
    (inv : Inv ⟨s, before ++ t :: after⟩) (hown : t.Displaced s → ¬ t.call.Moves s)
    {i : PipeSlot} {fd : Nat} {bytes : List UInt8}
    (h : .copied i fd bytes ∈ (t.call.resume s).2.log.drop s.log.length) (hbytes : bytes ≠ []) :
    (s.pipes i).id = fd >>> 3 := by
  have hmem : t ∈ before ++ t :: after := by simp
  obtain ⟨rfl, rfl⟩ := (through_resume t.call s).copied_by h
  obtain ⟨f, hf⟩ := inv.refines t.call.slot
  by_cases hmoves : t.call.Moves s
  · have hsame : ¬ t.Displaced s := fun hdisplaced => hown hdisplaced hmoves
    obtain ⟨k, own, hcalls⟩ := inv.waits t.call.slot
    have hk := hcalls t hmem rfl hsame
    rcases own.live with hid | ⟨hreader, -⟩
    · rw [hid, hk]
    · cases hcall : t.call with
      | reading i fd current count =>
          rw [hcall] at h
          exact absurd h waitToRead_copies
      | writing i fd data written =>
          rw [hcall] at hmoves hreader
          exact absurd hmoves.1 (by simpa [Call.slot] using hreader)
  · obtain ⟨es, hlog, hes⟩ := (idle_of_not_moves hf hmoves).events
    rw [hlog, List.drop_left] at h
    obtain ⟨j, fd, heq⟩ | ⟨j, fd, heq⟩ := hes _ h
    · cases heq
    · exact absurd (Event.copied.inj heq).2.2 hbytes

/-- What a call copies goes into the pipe of its descriptor. -/
theorem Inv.writes {s s' : Tracked} {op : Op} (inv : Inv s) (step : Step s op s')
    (hown : OwnPipe s op) {i : PipeSlot} {fd : Nat} {bytes : List UInt8}
    (h : .copied i fd bytes ∈ s'.state.log.drop s.state.log.length) (hbytes : bytes ≠ []) :
    (s.state.pipes i).id = fd >>> 3 := by
  cases step with
  | @call s s' w op new step =>
      rcases call_cases step with ⟨-, quiet⟩ | ⟨-, j, creates⟩ | ⟨j, fd', opens, through, -⟩
      · dsimp only at h
        rw [quiet.log_eq, List.drop_length] at h
        simp at h
      · simp [creates.log_eq] at h
      · obtain ⟨rfl, rfl⟩ := through.copied_by h
        exact opens.id_eq
  | resume => exact inv.writes_resume hown h hbytes

end Tracked

/-! ### Runs -/

/-- In a run in which no call that goes on moves bytes of a pipe that is not its own,
what each slot has delivered begins what was copied in, with the same ids; and the
next step keeps it so exactly if it, too, moves no bytes of another pipe. -/
theorem transfers_stay_in_their_pipe {kernel : Process.State} {ops : List Tracked.Op}
    {s : Tracked}
    (run : Run (fun s op s' => Tracked.Step s op s' ∧ s.OwnPipe op) ⟨pipeInit kernel, []⟩ ops s) :
    (∀ i, deliveredBy i s.state.log <+: copiedBy i s.state.log) ∧
      ∀ op s', Tracked.Step s op s' → (s.OwnPipe op ↔ s.KeepsIdentity op s') := by
  have start : Tracked.Inv ⟨pipeInit kernel, []⟩ := by
    refine ⟨fun i => ⟨_, refines_pipeInit kernel i⟩, fun i => ⟨0, ⟨?_, ?_, .inl rfl⟩, ?_⟩, ?_, ?_⟩
    · simp [pipeInit, copiedBy]
    · simp [pipeInit, deliveredBy]
    · simp
    · simp
    · simp
  have inv : s.Inv := run.invariant (fun inv step => inv.step step.1 step.2) start
  refine ⟨inv.reads, fun op s' step => ⟨fun hown => ?_, fun keeps => ?_⟩⟩
  · refine ⟨(inv.step step hown).reads, fun i fd bytes h hbytes =>
      inv.writes step hown h hbytes, fun t ht hdisplaced => ?_⟩
    subst ht
    cases step with
    | resume =>
        obtain ⟨f, hf⟩ := inv.refines t.call.slot
        exact (idle_of_not_moves hf (hown hdisplaced)).pipe_eq
  · cases step with
    | call => trivial
    | @resume state before after t =>
        intro hdisplaced hmoves
        obtain ⟨f, hf⟩ := inv.refines t.call.slot
        have hpending := inv.pending t (by simp)
        exact changed_of_moves hf hpending hmoves (keeps.untouched t rfl hdisplaced)

/-- A byte written while a read waits for it. -/
theorem transfers_stay_in_their_pipe_one_byte :
    ∃ ops s, Run (fun s op s' => Tracked.Step s op s' ∧ s.OwnPipe op)
        ⟨pipeInit Process.initAndChild, []⟩ ops s ∧
      deliveredBy 0 s.state.log = [(1, 7)] ∧ [(1, 7)] <+: copiedBy 0 s.state.log := by
  have first : Run (fun s op s' => Tracked.Step s op s' ∧ s.OwnPipe op)
      ⟨pipeInit Process.initAndChild, []⟩
      [.call .pipeCreate, .call (.pipeRead 9 10), .call (.pipeWrite 10 [7])] _ :=
    .cons ⟨.call .pipeCreate, trivial⟩
      (.cons ⟨.call .pipeRead, trivial⟩ (.single ⟨.call .pipeWrite, trivial⟩))
  generalize hs : (pipeWrite 10 [7] _).2 = s at first
  generalize hw : List.map _ _ ++ (_ : List Suspended) = w at first
  have hwaiting : w = [⟨.reading 0 9 0 10, 1⟩] := by
    rw [← hw]
    decide +kernel
  subst hwaiting
  have hgeneration : generation 0 s.log = 1 := by
    rw [← hs]
    decide +kernel
  have run := first.append (.single ⟨@Tracked.Step.resume s [] [] ⟨.reading 0 9 0 10, 1⟩,
    fun hdisplaced => absurd hgeneration.symm hdisplaced⟩)
  have hdelivered : deliveredBy 0 ((Call.reading 0 9 0 10).resume s).2.log = [(1, 7)] := by
    rw [← hs]
    decide +kernel
  have hshared := (transfers_stay_in_their_pipe run).1 0
  dsimp only at hshared
  rw [hdelivered] at hshared
  exact ⟨_, _, run, hdelivered, hshared⟩

/-- A read waits on pipe 1, which is closed; its slot is given to pipe 2, and the read
takes the byte that is written there. -/
theorem reader_takes_from_new_pipe :
    ∃ ops s, Run Tracked.Step ⟨pipeInit Process.initAndChild, []⟩ ops s ∧
      deliveredBy 0 s.state.log = [(1, 7)] ∧ copiedBy 0 s.state.log = [(2, 7)] ∧
      ¬ deliveredBy 0 s.state.log <+: copiedBy 0 s.state.log := by
  have first : Run Tracked.Step ⟨pipeInit Process.initAndChild, []⟩
      [.call .pipeCreate, .call (.pipeRead 9 10), .call (.pipeClose 9), .call (.pipeClose 10),
        .call .pipeCreate, .call (.pipeWrite 18 [7])] _ :=
    .cons (.call .pipeCreate) (.cons (.call .pipeRead) (.cons (.call .pipeClose)
      (.cons (.call .pipeClose) (.cons (.call .pipeCreate) (.single (.call .pipeWrite))))))
  generalize hs : (pipeWrite 18 [7] _).2 = s at first
  generalize hw : List.map _ _ ++ (_ : List Suspended) = w at first
  have hwaiting : w = [⟨.reading 0 9 0 10, 1⟩] := by
    rw [← hw]
    decide +kernel
  subst hwaiting
  have run := first.append (.single (@Tracked.Step.resume s [] [] ⟨.reading 0 9 0 10, 1⟩))
  have hdelivered : deliveredBy 0 ((Call.reading 0 9 0 10).resume s).2.log = [(1, 7)] := by
    rw [← hs]
    decide +kernel
  have hcopied : copiedBy 0 ((Call.reading 0 9 0 10).resume s).2.log = [(2, 7)] := by
    rw [← hs]
    decide +kernel
  refine ⟨_, _, run, hdelivered, hcopied, ?_⟩
  dsimp only
  rw [hdelivered, hcopied]
  decide

end Curnel.Pipe
