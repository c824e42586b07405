/-
What the results of `pipe_read` and `pipe_write` tell.

`Counting` runs note beside each waiting call how many bytes it has copied into its pipe.
`Tells` says of a step, if a call returns in it, that the result is the number of bytes
copied, or the end of the pipe. In every run it holds of a step exactly if `Meets` does
(`results_tell_iff`). Three ways out break it: a write that has copied bytes and then finds
the reading end closed returns an error, a write of 2³¹ bytes or more returns no `int`, and
a non-blocking read of an empty pipe returns `PIPE_ERROR_EMPTY` before it has looked whether
the writing end is closed.
-/

import Curnel.Pipe.Identity

namespace Curnel.Pipe

open Lib Word

/-! ### Runs that count -/

/-- The bytes copied in. -/
def bytesCopied : List Event → Nat
  | [] => 0
  | .copied _ _ bytes :: es => bytes.length + bytesCopied es
  | _ :: es => bytesCopied es

/-- The bytes copied in from one state to another. -/
def newlyCopied (s s' : State) : Nat := bytesCopied (s'.log.drop s.log.length)

/-- A waiting call, with the number of bytes that it has copied into the pipe. -/
structure Copying where
  call : Call
  copied : Nat
deriving DecidableEq

structure Counting where
  state : State
  waiting : List Copying

namespace Counting

def system (s : Counting) : System := ⟨s.state, s.waiting.map Copying.call⟩

inductive Op where
  | call (op : Pipe.Op)
  | resume (t : Copying)

/-- The steps of `Pipe.Step`, with the bytes counted. -/
inductive Step : Counting → Op → Counting → Prop where
  | call {s s' : State} {w : List Copying} {op : Pipe.Op} {new : List Call} :
      Pipe.Step ⟨s, []⟩ op ⟨s', new⟩ →
        Step ⟨s, w⟩ (.call op) ⟨s', new.map (fun c => ⟨c, newlyCopied s s'⟩) ++ w⟩
  | resume {s : State} {before after : List Copying} {t : Copying} :
      Step ⟨s, before ++ t :: after⟩ (.resume t)
        ⟨(t.call.resume s).2,
          before ++ (t.call.resume s).1.waiting.map
            (fun c => ⟨c, t.copied + newlyCopied s (t.call.resume s).2⟩) ++ after⟩

end Counting

/-! ### What is expected of the results -/

/-- A call of `pipe_write` that has copied so many bytes returns their number, or an error if
there are none. -/
def WriteTells (outcome : Outcome) (copied : Nat) : Prop :=
  ∀ result bytes, outcome = .returned result bytes →
    (result < 0 → copied = 0) ∧ (0 ≤ result → result = copied)

/-- A call of `pipe_read` that finds the pipe like that. -/
structure ReadTells (outcome : Outcome) (p : Pipe) : Prop where
  eof : (∃ bytes, outcome = .returned 0 bytes) ↔ p.dataSize = 0 ∧ p.writerOpen = false
  empty : ∀ bytes, outcome = .returned PIPE_ERROR_EMPTY bytes →
    p.dataSize = 0 ∧ p.flags &&& PIPE_FLAG_NONBLOCK ≠ 0 ∧ p.writerOpen = true

/-- `fd` is an open read end of the pipe in slot `i`. -/
structure ReadEnd (fd : Nat) (s : State) (i : PipeSlot) : Prop where
  found : pipeGetByFd fd s = some i
  readerOpen : (s.pipes i).readerOpen = true
  mode : fd &&& PIPE_FLAG_READABLE ≠ 0

namespace Counting

/-- What the result of the step tells, if a call returns in it. -/
def Tells (s : Counting) : Op → Prop
  | .call (.pipeWrite fd data) =>
      WriteTells (pipeWrite fd data s.state).1 (newlyCopied s.state (pipeWrite fd data s.state).2)
  | .call (.pipeRead fd count) =>
      ∀ i, 0 < count → ReadEnd fd s.state i →
        ReadTells (pipeRead fd count s.state).1 (s.state.pipes i)
  | .resume ⟨.writing i fd data written, copied⟩ =>
      WriteTells (resumeWrite i fd data written s.state).1
        (copied + newlyCopied s.state (resumeWrite i fd data written s.state).2)
  | .resume ⟨.reading i fd current count, _⟩ =>
      0 < count → ReadTells (waitToRead i fd current count s.state).1 (s.state.pipes i)
  | _ => True

/-- A read does not find an empty pipe non-blocking and at its end, and a write that goes on
does not find the reading end closed with bytes copied, nor return 2³¹ bytes or more. -/
def Meets (s : Counting) : Op → Prop
  | .call (.pipeRead fd count) =>
      ∀ i, 0 < count → ReadEnd fd s.state i → ¬ ((s.state.pipes i).dataSize = 0 ∧
        (s.state.pipes i).flags &&& PIPE_FLAG_NONBLOCK ≠ 0 ∧
        (s.state.pipes i).writerOpen = false)
  | .resume ⟨.writing i _ data written, _⟩ =>
      if (s.state.pipes i).readerOpen = false then written = 0
      else
        let room := PIPE_BUFFER_SIZE - (s.state.pipes i).dataSize
        data.length ≤ written + room ∨ (s.state.pipes i).flags &&& PIPE_FLAG_NONBLOCK ≠ 0 →
          min data.length (written + room) < 2 ^ 31
  | _ => True

end Counting

/-! ### Counting -/

theorem newlyCopied_of_log {s s' : State} {es : List Event} (h : s'.log = s.log ++ es) :
    newlyCopied s s' = bytesCopied es := by
  rw [newlyCopied, h, List.drop_left]

theorem newlyCopied_of_same {s s' : State} (h : s'.log = s.log) : newlyCopied s s' = 0 := by
  rw [@newlyCopied_of_log s s' [] (by rw [h, List.append_nil])]
  rfl

theorem bytesCopied_append (es es' : List Event) :
    bytesCopied (es ++ es') = bytesCopied es + bytesCopied es' := by
  induction es with
  | nil => exact (Nat.zero_add _).symm
  | cons e es ih =>
      cases e with
      | created => exact ih
      | delivered => exact ih
      | copied i fd bytes =>
          rw [List.cons_append, bytesCopied, ih, bytesCopied, Nat.add_assoc]

theorem newlyCopied_trans {i : PipeSlot} {fd : Nat} {s s' s'' : State} (first : Through i fd s s')
    (second : Through i fd s' s'') : newlyCopied s s'' = newlyCopied s s' + newlyCopied s' s'' := by
  obtain ⟨es, hes, -⟩ := first.events
  obtain ⟨es', hes', -⟩ := second.events
  have hboth : s''.log = s.log ++ (es ++ es') := by rw [hes', hes, List.append_assoc]
  rw [newlyCopied_of_log hboth, newlyCopied_of_log hes, newlyCopied_of_log hes', bytesCopied_append]

/-! ### The loop of `pipe_write` -/

/-- A number of bytes tells itself if it is an `int`. -/
theorem tells_number_iff {n : Nat} {bytes : List UInt8} :
    WriteTells (.returned (toInt32 n) bytes) n ↔ n < 2 ^ 31 := by
  have hint := toInt32_lt n
  constructor
  · intro tells
    obtain ⟨hnegative, hnumber⟩ := tells _ _ rfl
    rcases Int.lt_or_le (toInt32 n) 0 with hlt | hge
    · have hnone := hnegative hlt
      omega
    · have hsame := hnumber hge
      omega
  · intro hn result bytes' houtcome
    cases houtcome
    rw [toInt32_of_lt hn]
    exact ⟨fun hlt => by omega, fun _ => rfl⟩

theorem WriteTells.of_error {error : Int} (hneg : error < 0) (bytes : List UInt8) :
    WriteTells (.returned error bytes) 0 := by
  intro result bytes' houtcome
  cases houtcome
  exact ⟨fun _ => rfl, fun hge => by omega⟩

theorem WriteTells.of_no_result {outcome : Outcome} (h : ∀ result bytes,
    outcome ≠ .returned result bytes) (copied : Nat) : WriteTells outcome copied :=
  fun result bytes houtcome => absurd houtcome (h result bytes)

@[simp] theorem flags_putBytes (bytes : List UInt8) (p : Pipe) :
    (putBytes bytes p).flags = p.flags := by
  induction bytes generalizing p with
  | nil => rfl
  | cons b bytes ih => exact ih _

section Write

variable {i : PipeSlot} {fd : Nat} {data : List UInt8} {s : State}
  {f : Fifo UInt8 PIPE_BUFFER_SIZE}

/-- One chunk: as much as there is, and as much as there is room for. -/
theorem writeChunk_spec (h : Refines s i f) (written : Nat) :
    ∃ n, n = min (data.length - written) (PIPE_BUFFER_SIZE - (s.pipes i).dataSize) ∧
      (writeChunk i fd data written s).1 = written + n ∧
      ((writeChunk i fd data written s).2.pipes i).dataSize = (s.pipes i).dataSize + n ∧
      ((writeChunk i fd data written s).2.pipes i).flags = (s.pipes i).flags ∧
      newlyCopied s (writeChunk i fd data written s).2 = n := by
  have hsize := h.dataSize_le
  have hdata := @dataSize_writeChunk i fd s data written hsize
  have hspace : wsub 64 PIPE_BUFFER_SIZE (s.pipes i).dataSize
      = PIPE_BUFFER_SIZE - (s.pipes i).dataSize := wsub_of_le (by decide) hsize
  have hmin : (if data.length - written < PIPE_BUFFER_SIZE - (s.pipes i).dataSize then
      data.length - written else PIPE_BUFFER_SIZE - (s.pipes i).dataSize)
      = min (data.length - written) (PIPE_BUFFER_SIZE - (s.pipes i).dataSize) := by
    split <;> omega
  refine ⟨_, rfl, ?_, hdata, ?_, ?_⟩
  · simp only [writeChunk, hspace, hmin]
  · simp only [writeChunk, pipes_unblock, modify_same, pipes_emit, flags_putBytes]
  · have hlog : (writeChunk i fd data written s).2.log = s.log ++ [.copied i fd
        ((data.drop written).take
          (min (data.length - written) (PIPE_BUFFER_SIZE - (s.pipes i).dataSize)))] := by
      simp only [writeChunk, hspace, hmin, log_unblock, log_modify, State.emit]
    rw [newlyCopied_of_log hlog]
    simp only [bytesCopied, List.length_take, List.length_drop]
    omega

/-- How the loop of `pipe_write` ends in a pipe like `p`, with `written` bytes copied before. -/
inductive LoopEnds (i : PipeSlot) (fd : Nat) (data : List UInt8) (p : Pipe) (written : Nat) :
    Outcome → Prop where
  | all : data.length ≤ written + (PIPE_BUFFER_SIZE - p.dataSize) →
      LoopEnds i fd data p written (.returned (toInt32 data.length) [])
  | full : written + (PIPE_BUFFER_SIZE - p.dataSize) < data.length →
      p.flags &&& PIPE_FLAG_NONBLOCK ≠ 0 →
      LoopEnds i fd data p written
        (.returned (if written + (PIPE_BUFFER_SIZE - p.dataSize) > 0 then
          toInt32 (written + (PIPE_BUFFER_SIZE - p.dataSize)) else PIPE_ERROR_FULL) [])
  | faults : written + (PIPE_BUFFER_SIZE - p.dataSize) < data.length →
      p.flags &&& PIPE_FLAG_NONBLOCK = 0 → LoopEnds i fd data p written .faults
  | waits : written + (PIPE_BUFFER_SIZE - p.dataSize) < data.length →
      p.flags &&& PIPE_FLAG_NONBLOCK = 0 →
      LoopEnds i fd data p written
        (.waits (.writing i fd data (written + (PIPE_BUFFER_SIZE - p.dataSize))))

/-- The loop goes on as it does from the state that a chunk leaves. -/
theorem LoopEnds.of_chunk {p p' : Pipe} {written n : Nat} {outcome : Outcome}
    (h : LoopEnds i fd data p' (written + n) outcome)
    (hn : n = min (data.length - written) (PIPE_BUFFER_SIZE - p.dataSize))
    (hsize : p.dataSize ≤ PIPE_BUFFER_SIZE) (hdata : p'.dataSize = p.dataSize + n)
    (hflags : p'.flags = p.flags) :
    LoopEnds i fd data p written outcome := by
  have hroom : data.length ≤ written + (PIPE_BUFFER_SIZE - p.dataSize) ∨
      written + n + (PIPE_BUFFER_SIZE - p'.dataSize)
        = written + (PIPE_BUFFER_SIZE - p.dataSize) := by omega
  cases h with
  | all hall => exact .all (by omega)
  | full hless hnonblock =>
      have hsame := hroom.resolve_left (by omega)
      rw [hsame] at hless ⊢
      exact .full hless (hflags ▸ hnonblock)
  | faults hless hblock => exact .faults (by omega) (hflags ▸ hblock)
  | waits hless hblock =>
      have hsame := hroom.resolve_left (by omega)
      rw [hsame] at hless ⊢
      exact .waits hless (hflags ▸ hblock)

theorem writeLoop_spec (h : Refines s i f) {rounds written : Nat} (hle : written ≤ data.length)
    (hrounds : data.length - written < rounds) :
    newlyCopied s (writeLoop i fd data rounds written s).2
        = min (data.length - written) (PIPE_BUFFER_SIZE - (s.pipes i).dataSize) ∧
      LoopEnds i fd data (s.pipes i) written (writeLoop i fd data rounds written s).1 := by
  induction rounds generalizing written s f with
  | zero => omega
  | succ rounds ih =>
      have hsize := h.dataSize_le
      rw [writeLoop]
      split
      next hleft =>
        split
        next hfull =>
          have hnone : written + (PIPE_BUFFER_SIZE - (s.pipes i).dataSize) = written := by omega
          have hless : written + (PIPE_BUFFER_SIZE - (s.pipes i).dataSize) < data.length := by
            omega
          have hcount : min (data.length - written) (PIPE_BUFFER_SIZE - (s.pipes i).dataSize)
              = 0 := by
            omega
          rw [hcount]
          split
          next hnonblock =>
            have ends := @LoopEnds.full i fd data (s.pipes i) written hless hnonblock
            rw [hnone] at ends
            exact ⟨newlyCopied_of_same rfl, ends⟩
          next hblock =>
            have hblock := not_not.mp hblock
            split
            · exact ⟨newlyCopied_of_same rfl, .faults hless hblock⟩
            · have ends := @LoopEnds.waits i fd data (s.pipes i) written hless hblock
              rw [hnone] at ends
              exact ⟨newlyCopied_of_same rfl, ends⟩
        next hroom =>
          -- a chunk, and the rounds after it
          obtain ⟨n, hn, hwritten, hdata, hflags, hcopied⟩ :=
            @writeChunk_spec i fd data s f h written
          obtain ⟨g, -, hg⟩ := (flows_writeChunk i fd data written s).steps i f h
          obtain ⟨hrest, ends⟩ := @ih (writeChunk i fd data written s).2 g hg (written + n)
            (by omega) (by omega)
          dsimp only
          rw [hwritten]
          refine ⟨?_, ends.of_chunk hn hsize hdata hflags⟩
          rw [newlyCopied_trans (through_writeChunk i fd data written s) (through_writeLoop ..),
            hcopied, hrest, hdata]
          omega
      next hdone =>
        have hall : written = data.length := by omega
        subst hall
        have hcount : min (data.length - data.length) (PIPE_BUFFER_SIZE - (s.pipes i).dataSize)
            = 0 := by
          omega
        exact ⟨(newlyCopied_of_same rfl).trans hcount.symm, .all (Nat.le_add_right _ _)⟩

theorem resumeWrite_spec (h : Refines s i f) {written : Nat} (hle : written ≤ data.length)
    (hopen : (s.pipes i).readerOpen = true) :
    newlyCopied s (resumeWrite i fd data written s).2
        = min (data.length - written) (PIPE_BUFFER_SIZE - (s.pipes i).dataSize) ∧
      LoopEnds i fd data (s.pipes i) written (resumeWrite i fd data written s).1 := by
  have hsize := h.dataSize_le
  obtain ⟨n, hn, hwritten, hdata, hflags, hcopied⟩ := @writeChunk_spec i fd data s f h written
  obtain ⟨g, -, hg⟩ := (flows_writeChunk i fd data written s).steps i f h
  obtain ⟨hrest, ends⟩ := @writeLoop_spec i fd data (writeChunk i fd data written s).2 g hg
    (data.length + 1) (written + n) (by omega) (by omega)
  have hstill : ¬ (s.pipes i).readerOpen = false := by simp [hopen]
  rw [resumeWrite, if_neg hstill]
  dsimp only
  rw [hwritten]
  refine ⟨?_, ends.of_chunk hn hsize hdata hflags⟩
  rw [newlyCopied_trans (through_writeChunk i fd data written s) (through_writeLoop ..), hcopied,
    hrest, hdata]
  omega

/-- A call of `pipe_write` is refused, or enters its loop. -/
theorem pipeWrite_spec (h : ∀ i, ∃ f, Refines s i f) (fd : Nat) (data : List UInt8) :
    (pipeWrite fd data s = (.returned PIPE_ERROR_CLOSED [], s)) ∨
      ∃ i, newlyCopied s (pipeWrite fd data s).2
          = min data.length (PIPE_BUFFER_SIZE - (s.pipes i).dataSize) ∧
        LoopEnds i fd data (s.pipes i) 0 (pipeWrite fd data s).1 := by
  unfold pipeWrite
  split
  · exact .inl rfl
  next i _ =>
    split
    · exact .inl rfl
    split
    · exact .inl rfl
    · obtain ⟨f, hf⟩ := h i
      exact .inr ⟨i, writeLoop_spec hf (Nat.zero_le _) (by omega)⟩

/-- A result of the loop tells the number of bytes, unless that is no `int`. -/
theorem LoopEnds.tells_iff {p : Pipe} {written copied : Nat} {outcome : Outcome}
    (h : LoopEnds i fd data p written outcome) (hle : written ≤ data.length)
    (hcopied : copied = written + min (data.length - written) (PIPE_BUFFER_SIZE - p.dataSize)) :
    WriteTells outcome copied ↔
      (data.length ≤ written + (PIPE_BUFFER_SIZE - p.dataSize) ∨
        p.flags &&& PIPE_FLAG_NONBLOCK ≠ 0 → copied < 2 ^ 31) := by
  cases h with
  | all hall =>
      have hcount : copied = data.length := by omega
      rw [hcount, tells_number_iff]
      exact ⟨fun hint _ => hint, fun hmeets => hmeets (.inl hall)⟩
  | full hless hnonblock =>
      have hcount : copied = written + (PIPE_BUFFER_SIZE - p.dataSize) := by omega
      rw [← hcount]
      split
      next hpos =>
        rw [tells_number_iff]
        exact ⟨fun hint _ => hint, fun hmeets => hmeets (.inr hnonblock)⟩
      next hzero =>
        have hnone : copied = 0 := by omega
        rw [hnone]
        exact ⟨fun _ _ => by decide, fun _ => .of_error (by decide) []⟩
  | faults hless hblock =>
      exact ⟨fun _ hreturns => absurd hreturns (by simp [hblock, hless]),
        fun _ => .of_no_result (by simp) copied⟩
  | waits hless hblock =>
      exact ⟨fun _ hreturns => absurd hreturns (by simp [hblock, hless]),
        fun _ => .of_no_result (by simp) copied⟩

/-- What a loop leaves waiting has copied what it says. -/
theorem LoopEnds.counts {j : PipeSlot} {fd' written written' : Nat} {data' : List UInt8}
    {p : Pipe} {outcome : Outcome} (h : LoopEnds i fd data p written outcome)
    (hwaiting : .writing j fd' data' written' ∈ outcome.waiting) :
    written + min (data.length - written) (PIPE_BUFFER_SIZE - p.dataSize) = written' ∧
      written' < data'.length := by
  cases h with
  | all => cases hwaiting
  | full => cases hwaiting
  | faults => cases hwaiting
  | waits hless hblock =>
      obtain ⟨-, -, rfl, rfl⟩ : j = i ∧ fd' = fd ∧ data' = data ∧
          written' = written + (PIPE_BUFFER_SIZE - p.dataSize) := by
        simpa [Outcome.waiting] using hwaiting
      omega

end Write

/-! ### The ways out of `pipe_read` -/

section Read

variable {i : PipeSlot} {fd count : Nat} {s : State} {f : Fifo UInt8 PIPE_BUFFER_SIZE}

theorem ReadTells.of_end {p : Pipe} {outcome : Outcome} (h : outcome = .returned 0 [])
    (hempty : p.dataSize = 0) (hclosed : p.writerOpen = false) : ReadTells outcome p := by
  subst h
  refine ⟨⟨fun _ => ⟨hempty, hclosed⟩, fun _ => ⟨[], rfl⟩⟩, fun bytes hresult => ?_⟩
  cases hresult

theorem ReadTells.of_no_result {p : Pipe} {outcome : Outcome}
    (h : ∀ result bytes, outcome ≠ .returned result bytes) (hopen : p.writerOpen = true) :
    ReadTells outcome p := by
  constructor
  · constructor
    · rintro ⟨bytes, hresult⟩
      exact absurd hresult (h 0 bytes)
    · rintro ⟨-, hclosed⟩
      exact absurd hclosed (by simp [hopen])
  · intro bytes hresult
    exact absurd hresult (h PIPE_ERROR_EMPTY bytes)

theorem waitToRead_not_writing {current : Slot} {j : PipeSlot} {fd' written : Nat}
    {data : List UInt8} :
    .writing j fd' data written ∉ (waitToRead i fd current count s).1.waiting := by
  unfold waitToRead
  split
  · simp [Outcome.waiting]
  split
  · simp [Outcome.waiting]
  · simp [finishRead, Outcome.waiting]

theorem pipeRead_not_writing {j : PipeSlot} {fd' written : Nat} {data : List UInt8} :
    .writing j fd' data written ∉ (pipeRead fd count s).1.waiting := by
  unfold pipeRead
  split
  · simp [Outcome.waiting]
  split
  · simp [Outcome.waiting]
  split
  · split
    · simp [Outcome.waiting]
    split
    · simp [Outcome.waiting]
    split
    · simp [Outcome.waiting]
    · exact waitToRead_not_writing
  · simp [finishRead, Outcome.waiting]

/-- What is read is some bytes, and the result says so. -/
theorem finishRead_tells (h : Refines s i f) (hcount : 0 < count)
    (hdata : (s.pipes i).dataSize ≠ 0) :
    ReadTells (finishRead i fd count s).1 (s.pipes i) := by
  have hsize := h.dataSize_le
  unfold finishRead
  generalize hn : (if count < (s.pipes i).dataSize then count else (s.pipes i).dataSize) = n
  have hbounds : 0 < n ∧ n ≤ PIPE_BUFFER_SIZE := by
    rw [← hn]
    split <;> omega
  have hint : toInt32 n = n := toInt32_of_lt (hbounds.2.trans_lt (by decide))
  constructor
  · constructor
    · rintro ⟨bytes, hresult⟩
      injection hresult with hzero
      omega
    · rintro ⟨hempty, -⟩
      exact absurd hempty hdata
  · intro bytes hresult
    injection hresult with herror
    simp only [PIPE_ERROR_EMPTY] at herror
    omega

theorem waitToRead_tells (h : Refines s i f) (current : Slot) (hcount : 0 < count) :
    ReadTells (waitToRead i fd current count s).1 (s.pipes i) := by
  unfold waitToRead
  split
  next hwaits => exact .of_no_result (by simp) hwaits.2
  next hgo =>
    split
    next hempty =>
      have hclosed : (s.pipes i).writerOpen = false := by
        rw [Bool.eq_false_iff]
        exact fun hopen => hgo ⟨hempty, hopen⟩
      exact .of_end rfl hempty hclosed
    next hdata => exact finishRead_tells h hcount hdata

/-- A new call tells the truth unless it finds the pipe at its end and non-blocking. -/
theorem pipeRead_tells_iff (h : Refines s i f) (hcount : 0 < count) (hend : ReadEnd fd s i) :
    ReadTells (pipeRead fd count s).1 (s.pipes i) ↔
      ¬ ((s.pipes i).dataSize = 0 ∧ (s.pipes i).flags &&& PIPE_FLAG_NONBLOCK ≠ 0 ∧
        (s.pipes i).writerOpen = false) := by
  have hmay : ¬ ((s.pipes i).readerOpen = false ∨ fd &&& PIPE_FLAG_READABLE = 0) := by
    rintro (hclosed | hmode)
    · exact absurd hclosed (by simp [hend.readerOpen])
    · exact hend.mode hmode
  unfold pipeRead
  rw [hend.found]
  dsimp only
  rw [if_neg hmay]
  split
  next hempty =>
    split
    next hnonblock =>
      constructor
      · rintro tells ⟨-, -, hclosed⟩
        have hopen := (tells.empty [] rfl).2.2
        exact absurd hclosed (by simp [hopen])
      · intro hno
        have hopen : (s.pipes i).writerOpen = true := by
          rw [← Bool.not_eq_false]
          exact fun hclosed => hno ⟨hempty, hnonblock, hclosed⟩
        constructor
        · constructor
          · rintro ⟨bytes, hresult⟩
            cases hresult
          · rintro ⟨-, hclosed⟩
            exact absurd hclosed (by simp [hopen])
        · exact fun _ _ => ⟨hempty, hnonblock, hopen⟩
    next hblock =>
      have hno : ¬ ((s.pipes i).dataSize = 0 ∧ (s.pipes i).flags &&& PIPE_FLAG_NONBLOCK ≠ 0 ∧
          (s.pipes i).writerOpen = false) := fun hfound => hblock hfound.2.1
      rw [iff_true_right hno]
      split
      next hclosed => exact .of_end rfl hempty hclosed
      next hopen =>
        split
        · exact .of_no_result (by simp) (by simpa using hopen)
        · exact waitToRead_tells h _ hcount
  next hdata =>
    have hno : ¬ ((s.pipes i).dataSize = 0 ∧ (s.pipes i).flags &&& PIPE_FLAG_NONBLOCK ≠ 0 ∧
        (s.pipes i).writerOpen = false) := fun hfound => hdata hfound.1
    rw [iff_true_right hno]
    exact finishRead_tells h hcount hdata

end Read

/-! ### Runs -/

namespace Counting

/-- The slots are queues, and a waiting call has copied what it says. -/
structure Inv (s : Counting) : Prop where
  queues : ∀ i, ∃ f, Refines s.state i f
  counts : ∀ i fd data written copied, ⟨.writing i fd data written, copied⟩ ∈ s.waiting →
    copied = written ∧ written < data.length

/-- Without the counting they are runs of the pipes. -/
theorem Step.flows {s s' : Counting} {op : Op} (step : Step s op s') :
    Flows s.state s'.state := by
  cases step with
  | call h => exact h.flows
  | resume => exact flows_resume ..

/-- A new call that waits to write has copied what it says. -/
theorem call_counts {s s' : State} {op : Pipe.Op} {new : List Call}
    (queues : ∀ i, ∃ f, Refines s i f) (step : Pipe.Step ⟨s, []⟩ op ⟨s', new⟩)
    {j : PipeSlot} {fd written : Nat} {data : List UInt8}
    (hnew : .writing j fd data written ∈ new) :
    newlyCopied s s' = written ∧ written < data.length := by
  generalize hstart : (⟨s, []⟩ : System) = start at step
  generalize hend : (⟨s', new⟩ : System) = finish at step
  cases step <;> simp only [System.mk.injEq] at hstart hend <;>
    obtain ⟨rfl, hw⟩ := hstart <;> obtain ⟨rfl, rfl⟩ := hend
  case pipeCreate => cases hw ▸ hnew
  case pipeClose => cases hw ▸ hnew
  case pipeSetFlags => cases hw ▸ hnew
  case pipeRead =>
    rw [← hw, List.append_nil] at hnew
    exact absurd hnew pipeRead_not_writing
  case pipeWrite fd' data' =>
    rw [← hw, List.append_nil] at hnew
    rcases pipeWrite_spec queues fd' data' with hrefused | ⟨i, hcopied, ends⟩
    · rw [hrefused] at hnew
      cases hnew
    · have hcounts := ends.counts hnew
      rw [hcopied]
      omega
  case resume => exact absurd hw.symm (by simp)
  case kernel => cases hw ▸ hnew

/-- A call that waits again has copied what it says. -/
theorem resume_counts {s : State} (queues : ∀ i, ∃ f, Refines s i f) {call : Call}
    {j : PipeSlot} {fd written' copied : Nat} {data : List UInt8}
    (hcounts : ∀ i fd data written, call = .writing i fd data written →
      copied = written ∧ written < data.length)
    (hnew : .writing j fd data written' ∈ (call.resume s).1.waiting) :
    copied + newlyCopied s (call.resume s).2 = written' ∧ written' < data.length := by
  cases call with
  | reading i fd' current count => exact absurd hnew waitToRead_not_writing
  | writing i fd' data' written =>
      obtain ⟨hcopied, hleft⟩ := hcounts i fd' data' written rfl
      obtain ⟨f, hf⟩ := queues i
      cases hopen : (s.pipes i).readerOpen with
      | false =>
          rw [Call.resume, resumeWrite, if_pos hopen] at hnew
          cases hnew
      | true =>
          obtain ⟨hmore, ends⟩ := @resumeWrite_spec i fd' data' s f hf written hleft.le hopen
          have hends := ends.counts hnew
          rw [Call.resume, hmore, hcopied]
          exact hends

theorem Inv.step {s s' : Counting} {op : Op} (inv : Inv s) (step : Step s op s') : Inv s' := by
  have hqueues : ∀ i, ∃ f, Refines s'.state i f := fun i => by
    obtain ⟨f, hf⟩ := inv.queues i
    obtain ⟨g, -, hg⟩ := step.flows.steps i f hf
    exact ⟨g, hg⟩
  refine ⟨hqueues, ?_⟩
  cases step with
  | call hcall =>
      intro i fd data written copied hmem
      rcases List.mem_append.mp hmem with hnew | hold
      · obtain ⟨c, hc, heq⟩ := List.mem_map.mp hnew
        injection heq with hsame hcount
        rw [← hcount]
        exact call_counts inv.queues hcall (hsame ▸ hc)
      · exact inv.counts i fd data written copied hold
  | @resume s before after t =>
      intro i fd data written copied hmem
      have hother : ⟨.writing i fd data written, copied⟩ ∈ before ++ t :: after →
          copied = written ∧ written < data.length := inv.counts i fd data written copied
      rcases List.mem_append.mp hmem with hleft | hafter
      · rcases List.mem_append.mp hleft with hbefore | hnew
        · exact hother (List.mem_append_left _ hbefore)
        · obtain ⟨c, hc, heq⟩ := List.mem_map.mp hnew
          injection heq with hsame hcount
          rw [← hcount]
          refine resume_counts inv.queues (fun i fd data written hcall => ?_) (hsame ▸ hc)
          have ht : t = ⟨.writing i fd data written, t.copied⟩ := by rw [← hcall]
          exact inv.counts i fd data written t.copied
            (ht ▸ List.mem_append_right _ (List.mem_cons_self ..))
      · exact hother (List.mem_append_right _ (List.mem_cons_of_mem _ hafter))

theorem inv_pipeInit (kernel : Process.State) : Inv ⟨pipeInit kernel, []⟩ :=
  ⟨fun i => ⟨Fifo.empty, refines_pipeInit kernel i⟩, fun _ _ _ _ _ hmem => by cases hmem⟩

theorem Inv.tells_iff {s s' : Counting} {op : Op} (inv : Inv s) (step : Step s op s') :
    s.Tells op ↔ s.Meets op := by
  cases step with
  | @call s s' w op new hcall =>
      cases op with
      | pipeRead fd count =>
          refine forall_congr' fun i => forall_congr' fun hcount => forall_congr' fun hend => ?_
          obtain ⟨f, hf⟩ := inv.queues i
          exact pipeRead_tells_iff hf hcount hend
      | pipeWrite fd data =>
          refine ⟨fun _ => trivial, fun _ => ?_⟩
          change WriteTells _ _
          rcases pipeWrite_spec inv.queues fd data with hrefused | ⟨i, hcopied, ends⟩
          · rw [hrefused, newlyCopied_of_same rfl]
            exact .of_error (by decide) []
          · refine (ends.tells_iff (Nat.zero_le _) (by omega)).mpr fun _ => ?_
            have hroom := Nat.min_le_right data.length (PIPE_BUFFER_SIZE - (s.pipes i).dataSize)
            have hbuffer := Nat.sub_le PIPE_BUFFER_SIZE (s.pipes i).dataSize
            rw [hcopied]
            exact (hroom.trans hbuffer).trans_lt (by decide)
      | pipeCreate => exact Iff.rfl
      | pipeClose fd => exact Iff.rfl
      | pipeSetFlags fd flags => exact Iff.rfl
      | resume call => exact Iff.rfl
      | kernel kernel => exact Iff.rfl
  | @resume s before after t =>
      obtain ⟨call, copied⟩ := t
      cases call with
      | reading i fd current count =>
          obtain ⟨f, hf⟩ := inv.queues i
          exact ⟨fun _ => trivial, fun _ hcount => waitToRead_tells hf current hcount⟩
      | writing i fd data written =>
          obtain ⟨f, hf⟩ := inv.queues i
          obtain ⟨hcopied, hleft⟩ := inv.counts i fd data written copied
            (List.mem_append_right _ (List.mem_cons_self ..))
          change WriteTells (resumeWrite i fd data written s).1
            (copied + newlyCopied s (resumeWrite i fd data written s).2) ↔ ite _ _ _
          split
          next hclosed =>
            rw [resumeWrite, if_pos hclosed, newlyCopied_of_same rfl, hcopied]
            constructor
            · intro tells
              exact (tells _ _ rfl).1 (by decide)
            · rintro rfl
              exact .of_error (by decide) []
          next hopen =>
            obtain ⟨hmore, ends⟩ := @resumeWrite_spec i fd data s f hf written hleft.le
              (by simpa using hopen)
            have hcount : copied + newlyCopied s (resumeWrite i fd data written s).2
                = min data.length (written + (PIPE_BUFFER_SIZE - (s.pipes i).dataSize)) := by
              rw [hmore]
              omega
            rw [ends.tells_iff hleft.le (by omega), hcount]

end Counting

theorem run_inv {kernel : Process.State} {ops : List Counting.Op} {s : Counting}
    (run : Run Counting.Step ⟨pipeInit kernel, []⟩ ops s) : s.Inv :=
  run.invariant (fun before next => before.step next) (Counting.inv_pipeInit kernel)

/-- In every run the result of a call tells what the call did exactly if the call `Meets`. -/
theorem results_tell_iff {kernel : Process.State} {ops : List Counting.Op} {s s' : Counting}
    {op : Counting.Op} (run : Run Counting.Step ⟨pipeInit kernel, []⟩ ops s)
    (step : Counting.Step s op s') : s.Tells op ↔ s.Meets op :=
  (run_inv run).tells_iff step

/-- Three bytes are written. -/
theorem results_tell_iff_three_bytes :
    ∃ s s', Run Counting.Step ⟨pipeInit Process.initAndChild, []⟩ [.call .pipeCreate] s ∧
      Counting.Step s (.call (.pipeWrite 10 [1, 2, 3])) s' ∧
      s.Tells (.call (.pipeWrite 10 [1, 2, 3])) := by
  have run : Run Counting.Step ⟨pipeInit Process.initAndChild, []⟩ [.call .pipeCreate] _ :=
    .single (.call .pipeCreate)
  have step := @Counting.Step.call _ _ [] _ _
    (@Pipe.Step.pipeWrite (pipeCreate (pipeInit Process.initAndChild)).2.2 [] 10 [1, 2, 3])
  exact ⟨_, _, run, step, (results_tell_iff run step).mpr trivial⟩

set_option maxRecDepth 20000 in
/-- A non-blocking read of an empty pipe says that it is empty although its writing end is
closed; and a write of 4097 bytes, which waits to copy the last one, returns an error when
the reading end has been closed. -/
theorem results_do_not_tell :
    (∃ s s', Run Counting.Step ⟨pipeInit Process.initAndChild, []⟩
        [.call .pipeCreate, .call (.pipeSetFlags 9 PIPE_FLAG_NONBLOCK), .call (.pipeClose 10)] s ∧
      Counting.Step s (.call (.pipeRead 9 1)) s' ∧ ¬ s.Tells (.call (.pipeRead 9 1))) ∧
    ∃ s s' t, Run Counting.Step ⟨pipeInit Process.initAndChild, []⟩
        [.call .pipeCreate, .call (.pipeWrite 10 (List.replicate 4097 0)),
          .call (.pipeClose 9)] s ∧
      Counting.Step s (.resume t) s' ∧ ¬ s.Tells (.resume t) := by
  constructor
  · have run : Run Counting.Step ⟨pipeInit Process.initAndChild, []⟩
        [.call .pipeCreate, .call (.pipeSetFlags 9 PIPE_FLAG_NONBLOCK), .call (.pipeClose 10)] _ :=
      .cons (.call .pipeCreate) (.cons (.call .pipeSetFlags) (.single (.call .pipeClose)))
    have step := @Counting.Step.call _ _ [] _ _ (@Pipe.Step.pipeRead (pipeClose 10 (pipeSetFlags 9
      PIPE_FLAG_NONBLOCK (pipeCreate (pipeInit Process.initAndChild)).2.2).2).2 [] 9 1)
    refine ⟨_, _, run, step, fun tells => ?_⟩
    have hend := ((run_inv run).tells_iff step).mp tells 0 (by decide)
      ⟨by decide +kernel, by decide +kernel, by decide⟩
    exact hend (by decide +kernel)
  · generalize hdata : List.replicate 4097 (0 : UInt8) = data
    have hwaiting : (pipeWrite 10 data (pipeCreate (pipeInit Process.initAndChild)).2.2).1.waiting
        = [.writing 0 10 data 4096] := by
      rw [← hdata]
      decide +kernel
    have run : Run Counting.Step ⟨pipeInit Process.initAndChild, []⟩
        [.call .pipeCreate, .call (.pipeWrite 10 data), .call (.pipeClose 9)] _ :=
      .cons (.call .pipeCreate) (.cons (.call .pipeWrite) (.single (.call .pipeClose)))
    simp only [hwaiting, List.map_nil, List.map_cons, List.nil_append, List.append_nil] at run
    generalize newlyCopied _ (pipeWrite 10 data _).2 = c at run
    generalize hs : (pipeClose 9 _).2 = s at run
    have hclosed : (s.pipes 0).readerOpen = false := by
      rw [← hs, ← hdata]
      decide +kernel
    have step := @Counting.Step.resume s [] [] ⟨.writing 0 10 data 4096, c⟩
    refine ⟨_, _, _, run, step, fun tells => ?_⟩
    have hcopied := ((run_inv run).tells_iff step).mp tells
    change ite _ _ _ at hcopied
    rw [if_pos hclosed] at hcopied
    exact absurd hcopied (by decide)

end Curnel.Pipe
