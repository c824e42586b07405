/-
What `sys_read` and `sys_write` touch.

Between `kmalloc` and `kfree` a call may wait, and other calls come and go; `Step` is a step
of this system. In a run from the start of the kernel a call touches nothing but its own
buffer, and nothing through the user's pointer but what `usermode_validate_pointer` has
accepted for writing, exactly as long as every step is `Allowed`: a count above 2⁶⁴ - 8 is
rounded up to 0 by `kmalloc`, so that the buffer may be smaller than what is moved through
it, and `keyboard_read` stores by way of a pointer that nothing has validated.
-/

import Curnel.Descriptors.System

namespace Curnel.Descriptors

open Lib Lib.Bytes Lib.Word

/-! ### The system -/

/-- The buffer of a call that waits. -/
def Waiting.buffer : Waiting → Option Buffer
  | .read _ kbuf _ => some kbuf
  | .write kbuf _ _ => some kbuf
  | .keys .. => none

def Outcome.waiting : Outcome → List Waiting
  | .waits call => [call]
  | _ => []

/-- The kernel, and the calls that wait in it. -/
structure System where
  state : State
  calls : List Waiting

inductive Op where
  | read (fd buf count : Nat)
  | write (fd buf count : Nat)
  | resume (call : Waiting)
  | elsewhere (op : Background)

/-- The label of a step says what the step has touched. Nobody else frees the buffer of a
call. -/
inductive Step : System → Op × List Access → System → Prop where
  | read {s : State} {calls : List Waiting} {fd buf count : Nat} : count < 2 ^ 64 →
      Step ⟨s, calls⟩ (.read fd buf count, (sysRead fd buf count s).2.1)
        ⟨(sysRead fd buf count s).2.2, (sysRead fd buf count s).1.waiting ++ calls⟩
  | write {s : State} {calls : List Waiting} {fd buf count : Nat} : count < 2 ^ 64 →
      Step ⟨s, calls⟩ (.write fd buf count, (sysWrite fd buf count s).2.1)
        ⟨(sysWrite fd buf count s).2.2, (sysWrite fd buf count s).1.waiting ++ calls⟩
  | resume {s : State} {before after : List Waiting} {call : Waiting} :
      Step ⟨s, before ++ call :: after⟩ (.resume call, (call.resume s).2.1)
        ⟨(call.resume s).2.2, before ++ (call.resume s).1.waiting ++ after⟩
  | elsewhere {s s' : State} {calls : List Waiting} {op : Background} : Elsewhere s op s' →
      (∀ call ∈ calls, ∀ kbuf ∈ call.buffer, op ≠ .heap (.kfree kbuf.ptr)) →
      Step ⟨s, calls⟩ (.elsewhere op, []) ⟨s', calls⟩

/-! ### What is expected of a call -/

/-- The kernel stays in the block of its buffer. -/
def InBuffers (trace : List Access) : Prop :=
  ∀ kbuf a, .buffer kbuf a ∈ trace → kbuf.ptr ≤ a ∧ a < kbuf.ptr + kbuf.size

/-- Also, every store by way of the user's pointer comes after its address was accepted. -/
structure Sound (trace : List Access) : Prop where
  buffer : InBuffers trace
  store : ∀ before a after, trace = before ++ .store a :: after →
    ∃ p n, .accepted p n ∈ before ∧ ∃ j < n, a = wadd 64 p j

/-- `usermode_validate_pointer` accepts the range. -/
def Accepts (ptr size accessFlags : Nat) (s : State) : Prop :=
  ∃ valid, validatePointer ptr size accessFlags s = some valid ∧ valid ≠ 0

/-- The bytes that a read of `count` bytes from a pipe moves at once. -/
def moved (i : Pipe.PipeSlot) (count : Nat) (s : State) : Nat :=
  min count (s.pipe.pipes i).dataSize

/-- The keys that wait are backspaces. -/
def OnlyBackspace (s : State) : Prop := ∀ c ∈ s.keys, c = 0x08

def Allowed (s : State) : Op → Prop
  | .read fd buf count =>
      match Pipe.pipeGetByFd fd s.pipe with
      | some i => Accepts buf count PAGE_WRITABLE s → (s.pipe.pipes i).readerOpen = true →
          fd &&& Pipe.PIPE_FLAG_READABLE ≠ 0 → ∀ kbuf s', kmalloc count s = some (kbuf, s') →
            kbuf.ptr ≠ NULL → moved i count s ≤ kbuf.size
      | none => fd = 0 → count = 0 ∨ OnlyBackspace s
  | .write fd buf count =>
      match Pipe.pipeGetByFd fd s.pipe with
      | some _ => Accepts buf count 0 s → HasRoom count s → count ≤ 2 ^ 64 - 8
      | none => fd = 1 ∨ fd = 2 → Accepts buf count 0 s → HasRoom (wadd 64 count 1) s →
          wadd 64 count 1 ≤ 2 ^ 64 - 8
  | .resume (.read _ kbuf (.reading i _ _ count)) => moved i count s ≤ kbuf.size
  | .resume (.keys _ count i) => i < count → OnlyBackspace s
  | .resume _ => True
  | .elsewhere _ => True

/-! ### The bytes that a pipe moves -/

/-- The bytes that a call on a pipe has stored in its buffer. -/
def stored : Pipe.Outcome → Nat
  | .returned _ bytes => bytes.length
  | _ => 0

/-- What `pipe_read` may answer: it says no more than it has stored. -/
structure Reads (outcome : Pipe.Outcome) : Prop where
  result_le : ∀ result bytes, outcome = .returned result bytes → result ≤ bytes.length
  waits : ∀ call, outcome = .waits call → ∃ i fd current count, call = .reading i fd current count

theorem reads_nothing {result : Int} (h : result ≤ 0) : Reads (.returned result []) where
  result_le := by
    rintro result' bytes heq
    cases heq
    exact h
  waits := by
    intro call heq
    cases heq

theorem length_takeBytes (n : Nat) (p : Pipe) : (Pipe.takeBytes n p).1.length = n := by
  induction n generalizing p with
  | zero => rfl
  | succ n ih => simp [Pipe.takeBytes, ih]

theorem finishRead_reads (i : Pipe.PipeSlot) (fd count : Nat) (s : Pipe.State) :
    Reads (Pipe.finishRead i fd count s).1 ∧
      stored (Pipe.finishRead i fd count s).1 = min count (s.pipes i).dataSize := by
  have hlength : (if count < (s.pipes i).dataSize then count else (s.pipes i).dataSize)
      = min count (s.pipes i).dataSize := by
    split <;> omega
  constructor
  · constructor
    · rintro result bytes heq
      cases heq
      rw [length_takeBytes]
      exact toInt32_le _
    · intro call heq
      cases heq
  · rw [← hlength]
    exact length_takeBytes ..

theorem waitToRead_reads (i : Pipe.PipeSlot) (fd : Nat) (current : Slot) (count : Nat)
    (s : Pipe.State) :
    Reads (Pipe.waitToRead i fd current count s).1 ∧
      stored (Pipe.waitToRead i fd current count s).1 = min count (s.pipes i).dataSize := by
  unfold Pipe.waitToRead
  split
  · rename_i hempty
    rw [hempty.1, Nat.min_zero]
    refine ⟨⟨?_, ?_⟩, rfl⟩
    · rintro result bytes heq
      cases heq
    · intro call heq
      cases heq
      exact ⟨i, fd, current, count, rfl⟩
  split
  · rename_i hempty
    rw [hempty, Nat.min_zero]
    exact ⟨reads_nothing (le_refl 0), rfl⟩
  · exact finishRead_reads ..

theorem pipeRead_reads {fd : Nat} {s : Pipe.State} {i : Pipe.PipeSlot}
    (hfd : Pipe.pipeGetByFd fd s = some i) (count : Nat) :
    Reads (Pipe.pipeRead fd count s).1 ∧
      stored (Pipe.pipeRead fd count s).1 =
        if (s.pipes i).readerOpen = true ∧ fd &&& Pipe.PIPE_FLAG_READABLE ≠ 0 then
          min count (s.pipes i).dataSize else 0 := by
  rw [Pipe.pipeRead, hfd]
  dsimp only
  split
  · rename_i hclosed
    have hshut : ¬ ((s.pipes i).readerOpen = true ∧ fd &&& Pipe.PIPE_FLAG_READABLE ≠ 0) := by
      rintro ⟨hopen, hbit⟩
      rcases hclosed with hclosed | hzero
      · rw [hopen] at hclosed
        cases hclosed
      · exact hbit hzero
    rw [if_neg hshut]
    exact ⟨reads_nothing (by decide), rfl⟩
  · rename_i hopen
    have hread : (s.pipes i).readerOpen = true ∧ fd &&& Pipe.PIPE_FLAG_READABLE ≠ 0 := by
      simpa using hopen
    rw [if_pos hread]
    split
    · rename_i hempty
      split
      · rw [hempty, Nat.min_zero]
        exact ⟨reads_nothing (by decide), rfl⟩
      split
      · rw [hempty, Nat.min_zero]
        exact ⟨reads_nothing (le_refl 0), rfl⟩
      split
      · rw [hempty, Nat.min_zero]
        refine ⟨⟨?_, ?_⟩, rfl⟩
        · rintro result bytes heq
          cases heq
        · intro call heq
          cases heq
      · exact waitToRead_reads ..
    · exact finishRead_reads ..

/-- What a call of `pipe_write` has copied since `before`, when it had `written` bytes of
`data` in the pipe. -/
structure Writes (data : List UInt8) (written : Nat) (before : Pipe.State)
    (outcome : Pipe.Outcome) (after : Pipe.State) : Prop where
  log : ∃ events, after.log = before.log ++ events
  copied_le : written + (copiedSince before after).length ≤ data.length
  waits : ∀ call, outcome = .waits call →
    ∃ i fd, call = .writing i fd data (written + (copiedSince before after).length)

theorem copiedSince_eq {before after : Pipe.State} {events : List Pipe.Event}
    (h : after.log = before.log ++ events) : copiedSince before after = events.flatMap copiedBy := by
  rw [copiedSince, h, List.drop_left]

/-- A call that stops without copying anything. -/
theorem writes_nothing {data : List UInt8} {written : Nat} {s s' : Pipe.State}
    {outcome : Pipe.Outcome} (hwritten : written ≤ data.length) (hlog : s'.log = s.log)
    (hwaits : ∀ call, outcome = .waits call → ∃ i fd, call = .writing i fd data written) :
    Writes data written s outcome s' := by
  have hnone : s'.log = s.log ++ [] := by rw [hlog, List.append_nil]
  have hcopied := copiedSince_eq hnone
  refine ⟨⟨[], hnone⟩, ?_, ?_⟩
  · rw [hcopied]
    exact hwritten
  · rw [hcopied]
    exact hwaits

/-- What was copied first counts too. -/
theorem Writes.after {data : List UInt8} {written written' : Nat} {before mid after : Pipe.State}
    {outcome : Pipe.Outcome} {events : List Pipe.Event} (rest : Writes data written' mid outcome after)
    (hlog : mid.log = before.log ++ events)
    (hwritten : written' = written + (events.flatMap copiedBy).length) :
    Writes data written before outcome after := by
  obtain ⟨later, hlater⟩ := rest.log
  have hall : after.log = before.log ++ (events ++ later) := by
    rw [hlater, hlog, List.append_assoc]
  have hcopied : written + (copiedSince before after).length
      = written' + (copiedSince mid after).length := by
    rw [copiedSince_eq hall, copiedSince_eq hlater, List.flatMap_append, List.length_append, hwritten,
      Nat.add_assoc]
  refine ⟨⟨_, hall⟩, ?_, ?_⟩
  · rw [hcopied]
    exact rest.copied_le
  · rw [hcopied]
    exact rest.waits

theorem log_unblock (s : Pipe.State) (pid : Nat) : (s.unblock pid).log = s.log := by
  unfold Pipe.State.unblock
  split <;> rfl

/-- A chunk is a part of what is still to write. -/
theorem writeChunk_copies {i : Pipe.PipeSlot} {fd : Nat} {data : List UInt8} {written : Nat}
    (s : Pipe.State) (hwritten : written ≤ data.length) :
    ∃ bytes, (Pipe.writeChunk i fd data written s).2.log = s.log ++ [.copied i fd bytes] ∧
      (Pipe.writeChunk i fd data written s).1 = written + bytes.length ∧
      written + bytes.length ≤ data.length := by
  obtain ⟨n, hn⟩ : ∃ n, n =
      if data.length - written < wsub 64 Pipe.PIPE_BUFFER_SIZE (s.pipes i).dataSize
        then data.length - written else wsub 64 Pipe.PIPE_BUFFER_SIZE (s.pipes i).dataSize :=
    ⟨_, rfl⟩
  have hle : n ≤ data.length - written := by
    rw [hn]
    split <;> omega
  have hlength : ((data.drop written).take n).length = n := by
    rw [List.length_take, List.length_drop]
    omega
  refine ⟨(data.drop written).take n, ?_, ?_, by omega⟩
  · unfold Pipe.writeChunk
    dsimp only
    rw [log_unblock, ← hn]
    simp only [Pipe.State.modify, Pipe.State.emit]
  · unfold Pipe.writeChunk
    dsimp only
    rw [← hn, hlength]

theorem writeLoop_writes {i : Pipe.PipeSlot} {fd : Nat} {data : List UInt8} (rounds : Nat)
    {written : Nat} (s : Pipe.State) (hwritten : written ≤ data.length) :
    Writes data written s (Pipe.writeLoop i fd data rounds written s).1
      (Pipe.writeLoop i fd data rounds written s).2 := by
  induction rounds generalizing written s with
  | zero => exact writes_nothing hwritten rfl fun call heq => by cases heq
  | succ rounds ih =>
      rw [Pipe.writeLoop]
      split
      · split
        · split
          · exact writes_nothing hwritten rfl fun call heq => by cases heq
          split
          · exact writes_nothing hwritten rfl fun call heq => by cases heq
          · refine writes_nothing hwritten rfl fun call heq => ?_
            cases heq
            exact ⟨i, fd, rfl⟩
        · obtain ⟨bytes, hlog, hcount, hle⟩ := @writeChunk_copies i fd data written s hwritten
          rw [← hcount] at hle
          refine (ih _ hle).after hlog ?_
          rw [hcount]
          simp [copiedBy]
      · exact writes_nothing hwritten rfl fun call heq => by cases heq

theorem pipeWrite_writes (fd : Nat) (data : List UInt8) (s : Pipe.State) :
    Writes data 0 s (Pipe.pipeWrite fd data s).1 (Pipe.pipeWrite fd data s).2 := by
  unfold Pipe.pipeWrite
  split
  · exact writes_nothing (Nat.zero_le _) rfl fun call heq => by cases heq
  split
  · exact writes_nothing (Nat.zero_le _) rfl fun call heq => by cases heq
  split
  · exact writes_nothing (Nat.zero_le _) rfl fun call heq => by cases heq
  · exact writeLoop_writes _ s (Nat.zero_le _)

theorem resumeWrite_writes {i : Pipe.PipeSlot} {fd : Nat} {data : List UInt8} {written : Nat}
    (s : Pipe.State) (hwritten : written ≤ data.length) :
    Writes data written s (Pipe.resumeWrite i fd data written s).1
      (Pipe.resumeWrite i fd data written s).2 := by
  unfold Pipe.resumeWrite
  split
  · exact writes_nothing hwritten rfl fun call heq => by cases heq
  · obtain ⟨bytes, hlog, hcount, hle⟩ := @writeChunk_copies i fd data written s hwritten
    rw [← hcount] at hle
    refine (writeLoop_writes _ _ hle).after hlog ?_
    rw [hcount]
    simp [copiedBy]

/-! ### Traces -/

theorem inBuffers_append {first second : List Access} :
    InBuffers (first ++ second) ↔ InBuffers first ∧ InBuffers second := by
  constructor
  · intro inside
    exact ⟨fun kbuf a ha => inside kbuf a (List.mem_append_left _ ha),
      fun kbuf a ha => inside kbuf a (List.mem_append_right _ ha)⟩
  · rintro ⟨first, second⟩ kbuf a ha
    rcases List.mem_append.mp ha with ha | ha
    · exact first kbuf a ha
    · exact second kbuf a ha

theorem inBuffers_accepted {p n : Nat} {trace : List Access} :
    InBuffers (.accepted p n :: trace) ↔ InBuffers trace := by
  simp [InBuffers]

/-- Bytes of a buffer are touched within it as long as they are its bytes. -/
theorem inBuffers_touched {kbuf : Buffer} {h : Memory.Heap} (held : Held kbuf h) {i n : Nat}
    (hi : i ≤ kbuf.size) : InBuffers (touched kbuf i n) ↔ i + n ≤ kbuf.size := by
  have hlt := held.ptr_lt
  have hmem : ∀ k a, .buffer k a ∈ touched kbuf i n ↔
      k = kbuf ∧ ∃ j < n, a = wadd 64 kbuf.ptr (i + j) := by
    intro k a
    simp only [touched, List.mem_map, List.mem_range, Access.buffer.injEq]
    constructor
    · rintro ⟨j, hj, rfl, rfl⟩
      exact ⟨rfl, j, hj, rfl⟩
    · rintro ⟨rfl, j, hj, rfl⟩
      exact ⟨j, hj, rfl, rfl⟩
  constructor
  · intro inside
    by_contra hpast
    -- the first byte after the buffer
    have hfirst := inside kbuf (wadd 64 kbuf.ptr (i + (kbuf.size - i)))
      ((hmem _ _).mpr ⟨rfl, _, by omega, rfl⟩)
    rw [Nat.add_sub_cancel' hi, wadd_of_lt hlt] at hfirst
    exact absurd hfirst.2 (lt_irrefl _)
  · intro hfits k a ha
    obtain ⟨rfl, j, hj, rfl⟩ := (hmem k a).mp ha
    rw [wadd_of_lt (by omega)]
    omega

theorem store_notMem_touched (kbuf : Buffer) (i n a : Nat) : .store a ∉ touched kbuf i n := by
  simp [touched]

theorem sound_of_noStore {trace : List Access} (hnone : ∀ a, .store a ∉ trace) :
    Sound trace ↔ InBuffers trace := by
  refine ⟨fun sound => sound.buffer, fun inside => ⟨inside, fun before a after heq => ?_⟩⟩
  refine absurd ?_ (hnone a)
  rw [heq]
  exact List.mem_append_right _ List.mem_cons_self

/-- Stores that come after the range that they are in was accepted. -/
theorem sound_of_accepted {first rest : List Access} {p n : Nat} (hnone : ∀ a, .store a ∉ first)
    (hrange : ∀ a, .store a ∈ rest → ∃ j < n, a = wadd 64 p j) :
    Sound (first ++ .accepted p n :: rest) ↔ InBuffers (first ++ .accepted p n :: rest) := by
  refine ⟨fun sound => sound.buffer, fun inside => ⟨inside, fun before a after heq => ?_⟩⟩
  rcases List.append_eq_append_iff.mp heq with ⟨between, rfl, hrest⟩ | ⟨between, rfl, hrest⟩
  · cases between with
    | nil => cases hrest
    | cons x between =>
        rw [List.cons_append] at hrest
        cases hrest
        exact ⟨p, n, by simp, hrange a (by simp)⟩
  · cases between with
    | nil => cases hrest
    | cons x between =>
        rw [List.cons_append] at hrest
        cases hrest
        exact absurd (by simp) (hnone a)

/-- Stores that nothing was accepted for. -/
theorem sound_stores_iff {trace : List Access} (hstores : ∀ x ∈ trace, ∃ a, x = .store a) :
    Sound trace ↔ trace = [] := by
  constructor
  · intro sound
    cases trace with
    | nil => rfl
    | cons x trace =>
        obtain ⟨a, rfl⟩ := hstores x List.mem_cons_self
        obtain ⟨p, n, hbefore, -⟩ := sound.store [] a trace rfl
        cases hbefore
  · rintro rfl
    exact (sound_of_noStore (by simp)).mpr fun kbuf a ha => by cases ha

/-! ### What a call leaves -/

/-- A call that waits has its buffer, and room in it for what it is still to write. -/
inductive Holds (h : Memory.Heap) : Waiting → Prop where
  | read {buf fd count : Nat} {kbuf : Buffer} {i : Pipe.PipeSlot} {current : Slot} :
      Held kbuf h → Holds h (.read buf kbuf (.reading i fd current count))
  | write {kbuf : Buffer} {written fd : Nat} {i : Pipe.PipeSlot} {data : List UInt8} :
      Held kbuf h → written ≤ data.length → data.length ≤ kbuf.size →
      Holds h (.write kbuf written (.writing i fd data written))
  | keys {buf count i : Nat} : Holds h (.keys buf count i)

theorem Holds.mono {h h' : Memory.Heap} {call : Waiting} (holds : Holds h call)
    (hkept : ∀ kbuf, call.buffer = some kbuf → Held kbuf h → Held kbuf h') : Holds h' call := by
  cases holds with
  | read held => exact .read (hkept _ rfl held)
  | write held hwritten hfits => exact .write (hkept _ rfl held) hwritten hfits
  | keys => exact .keys

/-- A call leaves the kernel consistent, and the buffers of others to them; `own` is what it
frees. -/
structure Keeps (own : Option Buffer) (s s' : State) : Prop where
  consistent : Consistent s'
  others : ∀ kbuf, Held kbuf s.heap → own ≠ some kbuf → Held kbuf s'.heap

namespace Keeps

variable {own : Option Buffer} {s s' s'' : State}

theorem refl (consistent : Consistent s) : Keeps own s s := ⟨consistent, fun _ held _ => held⟩

theorem trans (first : Keeps none s s') (second : Keeps own s' s'') : Keeps own s s'' :=
  ⟨second.consistent, fun kbuf held hother =>
    second.others kbuf (first.others kbuf held (by simp)) hother⟩

end Keeps

theorem keeps_fill {s : State} {kbuf : Buffer} (consistent : Consistent s)
    (held : Held kbuf s.heap) {i : Nat} {bytes : List UInt8} (hfits : i + bytes.length ≤ kbuf.size) :
    Keeps none s (s.fill kbuf i bytes) :=
  ⟨(fill_onlyHeap ..).consistent consistent (held.fill held hfits).heap,
    fun _ other _ => held.fill other hfits⟩

theorem keeps_pipe {s : State} (consistent : Consistent s) {op : Pipe.Op} {pipe : Pipe.State}
    {calls calls' : List Pipe.Call} (step : Pipe.Step ⟨s.pipe, calls⟩ op ⟨pipe, calls'⟩) :
    Keeps none s { s with pipe := pipe } :=
  ⟨consistent.pipe step, fun _ held _ => held⟩

theorem keeps_kmalloc {s s' : State} {kbuf : Buffer} {size : Nat} (consistent : Consistent s)
    (hsize : size < 2 ^ 64) (h : kmalloc size s = some (kbuf, s')) : Keeps none s s' := by
  have step := kmalloc_step hsize h
  obtain ⟨bs, inv⟩ := consistent.heap
  refine ⟨(kmalloc_onlyHeap h).consistent consistent (Memory.heapInv_step inv step), ?_⟩
  intro other held _
  exact held.step step (by simp)

/-- A call that has its buffer frees it and returns. -/
theorem keeps_release {s : State} {kbuf : Buffer} (consistent : Consistent s)
    (held : Held kbuf s.heap) (result : Nat) (trace : List Access) :
    ∃ s', release kbuf result trace s = (.returned result, trace, s') ∧ Keeps (some kbuf) s s' := by
  obtain ⟨s', hfree, heap, -⟩ := kfree_held held
  refine ⟨s', release_eq hfree .., (kfree_onlyHeap hfree).consistent consistent heap, ?_⟩
  intro other heldOther hother
  refine heldOther.step (kfree_step held.live hfree) fun heq => hother ?_
  have hptr : kbuf.ptr = other.ptr := by simpa using heq
  rw [held.eq_of_ptr heldOther hptr]

/-- A call frees a buffer that it was given itself. -/
theorem Keeps.fresh {s s' : State} {kbuf : Buffer} (keeps : Keeps (some kbuf) s s')
    (hfresh : kbuf.ptr ∉ s.heap.live) : Keeps none s s' := by
  refine ⟨keeps.consistent, fun other held _ => keeps.others other held fun heq => hfresh ?_⟩
  cases heq
  exact held.live

@[simp] theorem release_trace (kbuf : Buffer) (result : Nat) (trace : List Access) (s : State) :
    (release kbuf result trace s).2.1 = trace := by
  unfold release
  split <;> rfl

@[simp] theorem release_waiting (kbuf : Buffer) (result : Nat) (trace : List Access) (s : State) :
    (release kbuf result trace s).1.waiting = [] := by
  unfold release
  split <;> rfl

/-! ### Reading from a pipe -/

theorem inBuffers_copiedOut {kbuf : Buffer} {h : Memory.Heap} (held : Held kbuf h) (dst : Nat)
    {size : Nat} (hsize : size ≤ kbuf.size) : InBuffers (copiedOut dst kbuf size) := by
  have hlt := held.ptr_lt
  intro k a ha
  obtain ⟨j, hj, hmem⟩ := List.mem_flatMap.mp ha
  have hin := List.mem_range.mp hj
  simp only [List.mem_cons, Access.buffer.injEq, reduceCtorEq, List.not_mem_nil, or_false] at hmem
  obtain ⟨rfl, rfl⟩ := hmem
  rw [wadd_of_lt (by omega)]
  omega

theorem store_mem_copiedOut {kbuf : Buffer} {dst size a : Nat}
    (ha : .store a ∈ copiedOut dst kbuf size) : ∃ j < size, a = wadd 64 dst j := by
  obtain ⟨j, hj, hmem⟩ := List.mem_flatMap.mp ha
  exact ⟨j, List.mem_range.mp hj, by simpa using hmem⟩

/-- The bytes that `pipe_read` stores have to fit in the buffer; what follows is sound. -/
theorem afterRead_trace {s : State} {kbuf : Buffer} (held : Held kbuf s.heap) (buf : Nat)
    {outcome : Pipe.Outcome} (reads : Reads outcome) :
    (Sound (afterRead buf kbuf s outcome).2.1 ↔ InBuffers (afterRead buf kbuf s outcome).2.1) ∧
      (InBuffers (afterRead buf kbuf s outcome).2.1 ↔ stored outcome ≤ kbuf.size) := by
  have hnone : Sound [] ↔ InBuffers [] := sound_of_noStore (by simp)
  have hempty : InBuffers [] ↔ 0 ≤ kbuf.size := by simp [InBuffers]
  cases outcome with
  | waits call => exact ⟨hnone, hempty⟩
  | faults => exact ⟨hnone, hempty⟩
  | loops => exact ⟨hnone, hempty⟩
  | returned result bytes =>
      have hstores := store_notMem_touched kbuf 0 bytes.length
      have htouched := inBuffers_touched held (Nat.zero_le kbuf.size) (n := bytes.length)
      rw [Nat.zero_add] at htouched
      have hplain := sound_of_noStore hstores
      have hle := reads.result_le result bytes rfl
      simp only [afterRead, stored]
      split
      · split
        · exact ⟨hplain, htouched⟩
        · rename_i copied touches t hcopy
          rw [release_trace]
          unfold copyToUser at hcopy
          split at hcopy
          · cases hcopy
          split at hcopy
          · cases hcopy
            rw [List.append_nil]
            exact ⟨hplain, htouched⟩
          · cases hcopy
            refine ⟨sound_of_accepted hstores fun a => store_mem_copiedOut, ?_⟩
            rw [inBuffers_append, inBuffers_accepted, htouched]
            exact and_iff_left_of_imp fun hfits => inBuffers_copiedOut held _ (by omega)
      · rw [release_trace]
        exact ⟨hplain, htouched⟩

theorem keeps_of_eq {own : Option Buffer} {s s' : State} (consistent : Consistent s)
    (hheap : s'.heap = s.heap) (hpipe : s'.pipe = s.pipe) : Keeps own s s' := by
  refine ⟨⟨?_, ?_, ?_⟩, fun kbuf held _ => ?_⟩
  · rw [hheap]
    exact consistent.heap
  · rw [hpipe]
    exact consistent.rings
  · rw [hpipe]
    exact consistent.free
  · rw [hheap]
    exact held

theorem keeps_copyToUser {s s' : State} {dst size copied : Nat} {kbuf : Buffer}
    {trace : List Access} (consistent : Consistent s)
    (h : copyToUser dst kbuf size s = some (copied, trace, s')) : Keeps none s s' := by
  unfold copyToUser at h
  split at h
  · cases h
  split at h
  · cases h
    exact .refl consistent
  · cases h
    exact keeps_of_eq consistent rfl rfl

/-- What a call does that holds `kbuf`: it frees it, or waits with it. -/
structure Serves (kbuf : Buffer) (s : State) (result : Outcome × List Access × State) : Prop where
  keeps : Keeps (some kbuf) s result.2.2
  waits : ∀ call ∈ result.1.waiting, Holds result.2.2.heap call ∧ call.buffer = some kbuf

theorem serves_release {s : State} {kbuf : Buffer} (consistent : Consistent s)
    (held : Held kbuf s.heap) (result : Nat) (trace : List Access) :
    Serves kbuf s (release kbuf result trace s) := by
  obtain ⟨s', hreturns, keeps⟩ := keeps_release consistent held result trace
  rw [hreturns]
  exact ⟨keeps, fun call hcall => by cases hcall⟩

theorem Serves.after {s s' : State} {kbuf : Buffer} {result : Outcome × List Access × State}
    (serves : Serves kbuf s' result) (first : Keeps none s s') : Serves kbuf s result :=
  ⟨first.trans serves.keeps, serves.waits⟩

/-- What was touched before makes no difference. -/
theorem Serves.retrace {s : State} {kbuf : Buffer} {result : Outcome × List Access × State}
    (serves : Serves kbuf s result) (trace : List Access) :
    Serves kbuf s (result.1, trace, result.2.2) :=
  ⟨serves.keeps, serves.waits⟩

theorem serves_nothing {s : State} {kbuf : Buffer} {outcome : Outcome} {trace : List Access}
    (consistent : Consistent s) (hstops : outcome.waiting = []) :
    Serves kbuf s (outcome, trace, s) := by
  refine ⟨.refl consistent, fun call hcall => ?_⟩
  rw [hstops] at hcall
  cases hcall

theorem afterRead_serves {s : State} {kbuf : Buffer} (consistent : Consistent s)
    (held : Held kbuf s.heap) (buf : Nat) {outcome : Pipe.Outcome} (reads : Reads outcome)
    (hfits : stored outcome ≤ kbuf.size) : Serves kbuf s (afterRead buf kbuf s outcome) := by
  cases outcome with
  | waits call =>
      obtain ⟨i, fd, current, count, rfl⟩ := reads.waits call rfl
      refine ⟨.refl consistent, fun call hcall => ?_⟩
      cases List.mem_singleton.mp hcall
      exact ⟨.read held, rfl⟩
  | faults => exact serves_nothing consistent rfl
  | loops => exact serves_nothing consistent rfl
  | returned result bytes =>
      have hbytes : 0 + bytes.length ≤ kbuf.size := by rwa [Nat.zero_add]
      have filled := keeps_fill consistent held hbytes
      have heldFilled := held.fill held hbytes
      simp only [afterRead]
      split
      · split
        · exact (serves_nothing filled.consistent rfl).after filled
        · rename_i copied touches t hcopy
          have copies := keeps_copyToUser filled.consistent hcopy
          have heldCopied := copies.others kbuf heldFilled (by simp)
          exact ((serves_release copies.consistent heldCopied _ _).after copies).after filled
      · exact (serves_release filled.consistent heldFilled _ _).after filled

/-! ### Writing to a pipe -/

theorem afterWrite_trace (kbuf : Buffer) (written : Nat) (before : Pipe.State) (s : State)
    (outcome : Pipe.Outcome) :
    (afterWrite kbuf written before s outcome).2.1
      = touched kbuf written (copiedSince before s.pipe).length := by
  cases outcome with
  | returned result bytes => exact release_trace ..
  | waits call => rfl
  | faults => rfl
  | loops => rfl

theorem afterWrite_sound {s : State} {kbuf : Buffer} (held : Held kbuf s.heap) {written : Nat}
    {data : List UInt8} {before : Pipe.State} {outcome : Pipe.Outcome}
    (writes : Writes data written before outcome s.pipe) (hfits : data.length ≤ kbuf.size) :
    Sound (afterWrite kbuf written before s outcome).2.1 := by
  have hcopied := writes.copied_le
  rw [afterWrite_trace, sound_of_noStore (store_notMem_touched _ _ _),
    inBuffers_touched held (by omega)]
  exact hcopied.trans hfits

theorem afterWrite_serves {s : State} {kbuf : Buffer} (consistent : Consistent s)
    (held : Held kbuf s.heap) {written : Nat} {data : List UInt8} {before : Pipe.State}
    {outcome : Pipe.Outcome} (writes : Writes data written before outcome s.pipe)
    (hfits : data.length ≤ kbuf.size) : Serves kbuf s (afterWrite kbuf written before s outcome) := by
  cases outcome with
  | waits call =>
      obtain ⟨i, fd, rfl⟩ := writes.waits call rfl
      refine ⟨.refl consistent, fun call hcall => ?_⟩
      cases List.mem_singleton.mp hcall
      exact ⟨.write held writes.copied_le hfits, rfl⟩
  | faults => exact serves_nothing consistent rfl
  | loops => exact serves_nothing consistent rfl
  | returned result bytes => exact serves_release consistent held _ _

/-! ### Calls that start -/

/-- A call that holds `own` before it is sound exactly as long as it is allowed. It then
leaves other buffers alone, and waits only with its own one or with a new one. -/
structure Good (own : Option Buffer) (allowed : Prop) (s : State)
    (result : Outcome × List Access × State) : Prop where
  sound_iff : Sound result.2.1 ↔ allowed
  keeps : allowed → Keeps own s result.2.2
  waits : allowed → ∀ call ∈ result.1.waiting, Holds result.2.2.heap call ∧
    ∀ kbuf, call.buffer = some kbuf → own = some kbuf ∨ kbuf.ptr ∉ s.heap.live

theorem sound_nil : Sound [] :=
  (sound_of_noStore (by simp)).mpr fun _ _ ha => nomatch ha

theorem sound_accepted {trace : List Access} (sound : Sound trace) (p n : Nat) :
    Sound (.accepted p n :: trace) := by
  refine ⟨inBuffers_accepted.mpr sound.buffer, fun before a after heq => ?_⟩
  cases before with
  | nil => cases heq
  | cons x before =>
      rw [List.cons_append] at heq
      cases heq
      obtain ⟨q, m, hmem, hrange⟩ := sound.store before a after rfl
      exact ⟨q, m, List.mem_cons_of_mem _ hmem, hrange⟩

theorem good_nothing {own : Option Buffer} {allowed : Prop} {s : State} {outcome : Outcome}
    {trace : List Access} (consistent : Consistent s) (hallowed : allowed) (sound : Sound trace)
    (hstops : outcome.waiting = []) : Good own allowed s (outcome, trace, s) := by
  refine ⟨iff_of_true sound hallowed, fun _ => .refl consistent, fun _ call hcall => ?_⟩
  rw [hstops] at hcall
  cases hcall

/-- A call that was given a buffer. -/
theorem good_granted {allowed : Prop} {s t : State} {kbuf : Buffer}
    {result : Outcome × List Access × State} (granted : Keeps none s t)
    (hfresh : kbuf.ptr ∉ s.heap.live) (hsound : Sound result.2.1 ↔ allowed)
    (serves : allowed → Serves kbuf t result) : Good none allowed s result := by
  refine ⟨hsound, fun hallowed => (granted.trans (serves hallowed).keeps).fresh hfresh,
    fun hallowed call hcall => ?_⟩
  obtain ⟨holds, hbuffer⟩ := (serves hallowed).waits call hcall
  refine ⟨holds, fun kbuf' hkbuf' => Or.inr ?_⟩
  rw [hbuffer] at hkbuf'
  cases hkbuf'
  exact hfresh

theorem not_accepts_of_none {ptr size accessFlags : Nat} {s : State}
    (h : validatePointer ptr size accessFlags s = none) : ¬ Accepts ptr size accessFlags s := by
  rintro ⟨valid, hvalid, -⟩
  rw [h] at hvalid
  cases hvalid

theorem not_accepts_of_zero {ptr size accessFlags valid : Nat} {s : State}
    (h : validatePointer ptr size accessFlags s = some valid) (hzero : valid = 0) :
    ¬ Accepts ptr size accessFlags s := by
  rintro ⟨valid', hvalid, hne⟩
  rw [h] at hvalid
  cases hvalid
  exact hne hzero

theorem allowed_read_iff {s t : State} {fd buf count : Nat} {i : Pipe.PipeSlot} {kbuf : Buffer}
    (hfd : Pipe.pipeGetByFd fd s.pipe = some i) (haccepts : Accepts buf count PAGE_WRITABLE s)
    (halloc : kmalloc count s = some (kbuf, t)) (hgranted : kbuf.ptr ≠ NULL) :
    Allowed s (.read fd buf count) ↔ stored (Pipe.pipeRead fd count s.pipe).1 ≤ kbuf.size := by
  rw [(pipeRead_reads hfd count).2]
  simp only [Allowed, hfd]
  constructor
  · intro hallowed
    split
    · rename_i hopen
      exact hallowed haccepts hopen.1 hopen.2 kbuf t halloc hgranted
    · exact Nat.zero_le _
  · intro hfits _ hopen hbit kbuf' t' halloc' _
    rw [halloc] at halloc'
    cases halloc'
    rw [if_pos ⟨hopen, hbit⟩] at hfits
    exact hfits

theorem readPipe_good {s : State} {fd buf count : Nat} {i : Pipe.PipeSlot}
    (consistent : Consistent s) (hfd : Pipe.pipeGetByFd fd s.pipe = some i)
    (hcount : count < 2 ^ 64) :
    Good none (Allowed s (.read fd buf count)) s (readPipe fd buf count s) := by
  have refused : ¬ Accepts buf count PAGE_WRITABLE s → Allowed s (.read fd buf count) := by
    intro hrefused
    simp only [Allowed, hfd]
    exact fun haccepts => absurd haccepts hrefused
  unfold readPipe
  split
  · rename_i hhangs
    exact good_nothing consistent (refused (not_accepts_of_none hhangs)) sound_nil rfl
  rename_i valid hvalid
  split
  · rename_i hzero
    exact good_nothing consistent (refused (not_accepts_of_zero hvalid hzero)) sound_nil rfl
  rename_i hne
  rcases kmalloc_cases consistent.heap count with
    ⟨kbuf, hnull, halloc⟩ | ⟨kbuf, t, halloc, hgranted, held, hfresh, -, -⟩
  · have hallowed : Allowed s (.read fd buf count) := by
      simp only [Allowed, hfd, halloc]
      intro _ _ _ kbuf' s' heq hne'
      cases heq
      exact absurd hnull hne'
    rw [halloc]
    dsimp only
    rw [if_pos hnull]
    exact good_nothing consistent hallowed (sound_accepted sound_nil _ _) rfl
  · have granted := keeps_kmalloc consistent hcount halloc
    have hpipe := (kmalloc_onlyHeap halloc).pipe
    have hallowed := allowed_read_iff hfd ⟨valid, hvalid, hne⟩ halloc hgranted
    have reads := (pipeRead_reads hfd count).1
    rw [← hpipe] at hallowed reads
    rw [halloc]
    dsimp only
    rw [if_neg hgranted]
    have piped : Keeps none t { t with pipe := (Pipe.pipeRead fd count t.pipe).2 } :=
      keeps_pipe granted.consistent (@Pipe.Step.pipeRead t.pipe [] fd count)
    have heldPiped := piped.others kbuf held (by simp)
    obtain ⟨hsound, hinside⟩ := afterRead_trace heldPiped buf reads
    refine good_granted granted hfresh ?_ fun hfits => ((afterRead_serves piped.consistent
      heldPiped buf reads (hallowed.mp hfits)).after piped).retrace _
    rw [hallowed, ← hinside]
    exact ⟨fun sound => inBuffers_accepted.mp sound.buffer,
      fun inside => sound_accepted (hsound.mpr inside) _ _⟩

theorem copyFromUser_eq {s : State} {src size valid : Nat}
    (hvalid : validatePointer src size 0 s = some valid) (hne : valid ≠ 0) (kbuf : Buffer) :
    copyFromUser kbuf src size s
      = some (1, touched kbuf 0 size, s.fill kbuf 0 (loadBytes s.user src size)) := by
  rw [copyFromUser, hvalid]
  exact if_neg hne

/-- A count that `kmalloc` rounds up to 0 is more than any block has. -/
theorem fits_iff {s : State} {kbuf : Buffer} {count size : Nat} (held : Held kbuf s.heap)
    (hlarge : size ≤ 2 ^ 64 - 8 → size ≤ kbuf.size) (hsize : size ≤ count + 1)
    (hcount : count ≤ size) : size ≤ 2 ^ 64 - 8 ↔ count ≤ kbuf.size := by
  have hbound := held.bound
  simp only [Memory.MEMORY_START, Memory.MEMORY_SIZE] at hbound
  omega

theorem writePipe_good {s : State} {fd buf count : Nat} {i : Pipe.PipeSlot}
    (consistent : Consistent s) (hfd : Pipe.pipeGetByFd fd s.pipe = some i)
    (hcount : count < 2 ^ 64) :
    Good none (Allowed s (.write fd buf count)) s (writePipe fd buf count s) := by
  have refused : ¬ Accepts buf count 0 s → Allowed s (.write fd buf count) := by
    intro hrefused
    simp only [Allowed, hfd]
    exact fun haccepts => absurd haccepts hrefused
  unfold writePipe
  split
  · rename_i hhangs
    exact good_nothing consistent (refused (not_accepts_of_none hhangs)) sound_nil rfl
  rename_i valid hvalid
  split
  · rename_i hzero
    exact good_nothing consistent (refused (not_accepts_of_zero hvalid hzero)) sound_nil rfl
  rename_i hne
  rcases kmalloc_cases consistent.heap count with
    ⟨kbuf, hnull, halloc⟩ | ⟨kbuf, t, halloc, hgranted, held, hfresh, -, hlarge⟩
  · have hallowed : Allowed s (.write fd buf count) := by
      simp only [Allowed, hfd, hasRoom_iff halloc]
      exact fun _ hroom => absurd hnull hroom
    rw [halloc]
    dsimp only
    rw [if_pos hnull]
    exact good_nothing consistent hallowed sound_nil rfl
  · have hallowed : Allowed s (.write fd buf count) ↔ count ≤ kbuf.size := by
      simp only [Allowed, hfd, hasRoom_iff halloc]
      rw [← fits_iff held hlarge (Nat.le_succ _) (le_refl _)]
      exact ⟨fun h => h ⟨valid, hvalid, hne⟩ hgranted, fun h _ _ => h⟩
    have granted := keeps_kmalloc consistent hcount halloc
    have hagain : validatePointer buf count 0 t = some valid := by
      rw [(kmalloc_onlyHeap halloc).validatePointer, hvalid]
    rw [halloc]
    dsimp only
    rw [if_neg hgranted, copyFromUser_eq hagain hne]
    dsimp only
    rw [if_neg one_ne_zero]
    generalize hfilled : t.fill kbuf 0 (loadBytes t.user buf count) = u
    have writes := pipeWrite_writes fd (loadBytes u.heap.state.ram kbuf.ptr count) u.pipe
    have hcopied := writes.copied_le
    rw [Nat.zero_add, length_loadBytes] at hcopied
    have htouched : ∀ n, InBuffers (touched kbuf 0 n) ↔ n ≤ kbuf.size := by
      intro n
      rw [inBuffers_touched held (Nat.zero_le _), Nat.zero_add]
    refine good_granted granted hfresh ?_ fun hfits => ?_
    · dsimp only
      rw [hallowed, afterWrite_trace, sound_of_noStore, inBuffers_append, htouched, htouched]
      · exact and_iff_left_of_imp fun hfits => hcopied.trans hfits
      · intro a ha
        rcases List.mem_append.mp ha with ha | ha
        · exact store_notMem_touched _ _ _ _ ha
        · exact store_notMem_touched _ _ _ _ ha
    · have hfits := hallowed.mp hfits
      have filled : Keeps none t u := by
        rw [← hfilled]
        exact keeps_fill granted.consistent held (by rw [length_loadBytes]; omega)
      have piped : Keeps none u { u with pipe :=
          (Pipe.pipeWrite fd (loadBytes u.heap.state.ram kbuf.ptr count) u.pipe).2 } :=
        keeps_pipe filled.consistent (@Pipe.Step.pipeWrite u.pipe [] fd _)
      have heldPiped := piped.others kbuf (filled.others kbuf held (by simp)) (by simp)
      have hdata : (loadBytes u.heap.state.ram kbuf.ptr count).length ≤ kbuf.size := by
        rw [length_loadBytes]
        exact hfits
      exact (((afterWrite_serves piped.consistent heldPiped writes hdata).after piped).after
        filled).retrace _

/-! ### Writing to the terminal -/

theorem cString_length {m : Store} {fuel p : Nat} {shown : List UInt8}
    (h : cString m fuel p = some shown) : shown.length < fuel := by
  induction fuel generalizing p shown with
  | zero => cases h
  | succ fuel ih =>
      rw [cString] at h
      split at h
      · cases h
        exact Nat.succ_pos _
      · obtain ⟨rest, hrest, rfl⟩ := Option.map_eq_some_iff.mp h
        exact Nat.succ_lt_succ (ih hrest)

theorem kmalloc_zero {s s' : State} {kbuf : Buffer} (h : kmalloc 0 s = some (kbuf, s')) :
    kbuf.ptr = NULL := by
  unfold kmalloc Memory.kmalloc at h
  simp only [if_true] at h
  cases h
  rfl

/-- The text, its NUL, and what `strlen` and the terminal read of it. -/
theorem inBuffers_text {kbuf : Buffer} {h : Memory.Heap} (held : Held kbuf h) {count m n : Nat}
    (hfits : count ≤ kbuf.size → count + 1 ≤ kbuf.size) (hm : m ≤ count + 1) (hn : n ≤ count + 1) :
    InBuffers (touched kbuf 0 count ++ touched kbuf count 1 ++ touched kbuf 0 m ++ touched kbuf 0 n)
      ↔ count ≤ kbuf.size := by
  have htouched : ∀ n, InBuffers (touched kbuf 0 n) ↔ n ≤ kbuf.size := by
    intro n
    rw [inBuffers_touched held (Nat.zero_le _), Nat.zero_add]
  simp only [inBuffers_append, htouched]
  constructor
  · rintro ⟨⟨⟨hcount, -⟩, -⟩, -⟩
    exact hcount
  · intro hcount
    have hall := hfits hcount
    exact ⟨⟨⟨hcount, (inBuffers_touched held hcount).mpr hall⟩, hm.trans hall⟩, hn.trans hall⟩

theorem sound_text {kbuf : Buffer} {count m n : Nat} :
    Sound (touched kbuf 0 count ++ touched kbuf count 1 ++ touched kbuf 0 m ++ touched kbuf 0 n) ↔
      InBuffers (touched kbuf 0 count ++ touched kbuf count 1 ++ touched kbuf 0 m ++
        touched kbuf 0 n) := by
  apply sound_of_noStore
  intro a
  simp only [List.mem_append, store_notMem_touched, or_self, not_false_eq_true]

theorem writeTerminal_good {s : State} {fd buf count : Nat} (consistent : Consistent s)
    (hfd : Pipe.pipeGetByFd fd s.pipe = none) (hout : fd = 1 ∨ fd = 2) (hcount : count < 2 ^ 64) :
    Good none (Allowed s (.write fd buf count)) s (writeTerminal buf count s) := by
  have refused : ¬ Accepts buf count 0 s → Allowed s (.write fd buf count) := by
    intro hrefused
    simp only [Allowed, hfd]
    exact fun _ haccepts => absurd haccepts hrefused
  unfold writeTerminal
  split
  · rename_i hhangs
    exact good_nothing consistent (refused (not_accepts_of_none hhangs)) sound_nil rfl
  rename_i valid hvalid
  split
  · rename_i hzero
    exact good_nothing consistent (refused (not_accepts_of_zero hvalid hzero)) sound_nil rfl
  rename_i hne
  rcases kmalloc_cases consistent.heap (wadd 64 count 1) with
    ⟨kbuf, hnull, halloc⟩ | ⟨kbuf, t, halloc, hgranted, held, hfresh, -, hlarge⟩
  · have hallowed : Allowed s (.write fd buf count) := by
      simp only [Allowed, hfd, hasRoom_iff halloc]
      exact fun _ _ hroom => absurd hnull hroom
    rw [halloc]
    dsimp only
    rw [if_pos hnull]
    exact good_nothing consistent hallowed sound_nil rfl
  · have hsize : wadd 64 count 1 = count + 1 := by
      rcases Nat.lt_or_ge (count + 1) (2 ^ 64) with hlt | hge
      · exact wadd_of_lt hlt
      · have hwraps : wadd 64 count 1 = 0 := by
          rw [wadd]
          omega
        rw [hwraps] at halloc
        exact absurd (kmalloc_zero halloc) hgranted
    have hallowed : Allowed s (.write fd buf count) ↔ count ≤ kbuf.size := by
      simp only [Allowed, hfd, hasRoom_iff halloc]
      rw [← fits_iff held hlarge (by omega) (by omega)]
      exact ⟨fun h => h hout ⟨valid, hvalid, hne⟩ hgranted, fun h _ _ _ => h⟩
    have hfits : count ≤ kbuf.size → count + 1 ≤ kbuf.size := by
      intro hle
      rw [← hsize]
      exact hlarge ((fits_iff held hlarge (by omega) (by omega)).mpr hle)
    have granted := keeps_kmalloc consistent (wadd_lt ..) halloc
    have hagain : validatePointer buf count 0 t = some valid := by
      rw [(kmalloc_onlyHeap halloc).validatePointer, hvalid]
    rw [halloc]
    dsimp only
    rw [if_neg hgranted, copyFromUser_eq hagain hne]
    dsimp only
    rw [if_neg one_ne_zero]
    generalize hu : t.fill kbuf 0 (loadBytes t.user buf count) = u
    have filled : Allowed s (.write fd buf count) → Keeps none t (u.fill kbuf count [0]) := by
      intro hok
      have hcount := hallowed.mp hok
      have copied : Keeps none t u := by
        rw [← hu]
        exact keeps_fill granted.consistent held (by rw [length_loadBytes]; omega)
      have heldCopied := copied.others kbuf held (by simp)
      exact copied.trans (keeps_fill copied.consistent heldCopied (hfits hcount))
    split
    · have htrace : touched kbuf 0 count ++ touched kbuf count 1 = touched kbuf 0 count ++
          touched kbuf count 1 ++ touched kbuf 0 0 ++ touched kbuf 0 0 := by simp [touched]
      refine good_granted granted hfresh ?_ fun hok =>
        (serves_nothing (filled hok).consistent rfl).after (filled hok)
      dsimp only
      rw [hallowed, htrace, sound_text]
      exact inBuffers_text held hfits (Nat.zero_le _) (Nat.zero_le _)
    · rename_i shown hshown
      have hlength := cString_length hshown
      refine good_granted granted hfresh ?_ fun hok => ?_
      · rw [release_trace, hallowed, ← List.append_assoc, sound_text]
        exact inBuffers_text held hfits hlength (Nat.le_of_lt hlength)
      · have heldFilled := (filled hok).others kbuf held (by simp)
        have written : Keeps none (u.fill kbuf count [0]) { u.fill kbuf count [0] with
            terminal := (u.fill kbuf count [0]).terminal ++ [shown] } :=
          keeps_of_eq (filled hok).consistent rfl rfl
        exact ((serves_release written.consistent heldFilled _ _).after written).after (filled hok)

/-! ### The keyboard -/

/-- What `keyboard_read` does: it stores by way of its pointer unless it sees backspaces only,
and touches neither the heap nor a pipe. -/
structure Types (buf count : Nat) (quiet : Prop) (s : State)
    (result : Outcome × List Access × State) : Prop where
  heap : result.2.2.heap = s.heap
  pipe : result.2.2.pipe = s.pipe
  stores : ∀ x ∈ result.2.1, ∃ a, x = .store a
  quiet_iff : result.2.1 = [] ↔ quiet
  waits : ∀ call ∈ result.1.waiting, ∃ i, call = .keys buf count i

theorem keyboardLoop_types (buf count : Nat) (keys : List UInt8) (i : Nat) (s : State) :
    Types buf count (i < count → ∀ c ∈ keys, c = 0x08) s (keyboardLoop buf count keys i s) := by
  induction keys generalizing i s with
  | nil =>
      rw [keyboardLoop]
      split
      · exact ⟨rfl, rfl, by simp, by simp, by simp [Outcome.waiting]⟩
      · exact ⟨rfl, rfl, by simp, by simp, by simp [Outcome.waiting]⟩
  | cons c keys ih =>
      rw [keyboardLoop]
      split
      · rename_i hmore
        split
        · rename_i hbreak
          refine ⟨rfl, rfl, by simp, ?_, by simp [Outcome.waiting]⟩
          simp [hmore, hbreak]
        split
        · rename_i hback
          have types := ih (i - 1) { s with terminal := s.terminal ++
            if i > 0 then [[0x08], [0x20], [0x08]] else [] }
          refine ⟨types.heap, types.pipe, types.stores, ?_, types.waits⟩
          rw [types.quiet_iff]
          have hless : i - 1 < count := by omega
          simp [hmore, hless, hback]
        · rename_i hback
          have types := ih (i + 1) { s with user := Function.update s.user (wadd 64 buf i) c
                                            terminal := s.terminal ++ [[c]] }
          refine ⟨types.heap, types.pipe, ?_, ?_, types.waits⟩
          · intro x hx
            rcases List.mem_cons.mp hx with rfl | hx
            · exact ⟨_, rfl⟩
            · exact types.stores x hx
          · simp [hmore, hback]
      · rename_i hfull
        exact ⟨rfl, rfl, by simp, by simp [hfull], by simp [Outcome.waiting]⟩

theorem keyboardLoop_good {s : State} {own : Option Buffer} (consistent : Consistent s)
    (buf count i : Nat) :
    Good own (i < count → OnlyBackspace s) s (keyboardLoop buf count s.keys i s) := by
  have types := keyboardLoop_types buf count s.keys i s
  refine ⟨(sound_stores_iff types.stores).trans types.quiet_iff,
    fun _ => keeps_of_eq consistent types.heap types.pipe, fun _ call hcall => ?_⟩
  obtain ⟨j, rfl⟩ := types.waits call hcall
  exact ⟨.keys, fun kbuf hkbuf => by cases hkbuf⟩

/-! ### Every call -/

theorem Good.congr {own : Option Buffer} {allowed allowed' : Prop} {s : State}
    {result : Outcome × List Access × State} (good : Good own allowed s result)
    (h : allowed' ↔ allowed) : Good own allowed' s result :=
  ⟨good.sound_iff.trans h.symm, fun h' => good.keeps (h.mp h'), fun h' => good.waits (h.mp h')⟩

theorem sysRead_good {s : State} {fd buf count : Nat} (consistent : Consistent s)
    (hcount : count < 2 ^ 64) :
    Good none (Allowed s (.read fd buf count)) s (sysRead fd buf count s) := by
  unfold sysRead
  split
  · rename_i i hfd
    exact readPipe_good consistent hfd hcount
  · rename_i hfd
    split
    · rename_i hzero
      subst hzero
      refine (keyboardLoop_good consistent buf count 0).congr ?_
      simp only [Allowed, hfd, true_imp_iff]
      rw [Nat.pos_iff_ne_zero, ← or_iff_not_imp_left]
    · rename_i hother
      refine good_nothing consistent ?_ sound_nil rfl
      simp only [Allowed, hfd]
      exact fun hzero => absurd hzero hother

theorem sysWrite_good {s : State} {fd buf count : Nat} (consistent : Consistent s)
    (hcount : count < 2 ^ 64) :
    Good none (Allowed s (.write fd buf count)) s (sysWrite fd buf count s) := by
  unfold sysWrite
  split
  · rename_i i hfd
    exact writePipe_good consistent hfd hcount
  · rename_i hfd
    split
    · rename_i hout
      exact writeTerminal_good consistent hfd hout hcount
    · rename_i hother
      refine good_nothing consistent ?_ sound_nil rfl
      simp only [Allowed, hfd]
      exact fun hout => absurd hout hother

/-- A call that goes on with the buffer that it has. -/
theorem good_serves {allowed : Prop} {s : State} {kbuf : Buffer}
    {result : Outcome × List Access × State} (hsound : Sound result.2.1 ↔ allowed)
    (serves : allowed → Serves kbuf s result) : Good (some kbuf) allowed s result := by
  refine ⟨hsound, fun hallowed => (serves hallowed).keeps, fun hallowed call hcall => ?_⟩
  obtain ⟨holds, hbuffer⟩ := (serves hallowed).waits call hcall
  exact ⟨holds, fun kbuf' hkbuf' => Or.inl (hbuffer.symm.trans hkbuf')⟩

theorem resume_good {s : State} {call : Waiting} (consistent : Consistent s)
    (holds : Holds s.heap call) :
    Good call.buffer (Allowed s (.resume call)) s (call.resume s) := by
  cases holds with
  | @read buf fd count kbuf i current held =>
      obtain ⟨reads, hstored⟩ := waitToRead_reads i fd current count s.pipe
      have piped : Keeps none s
          { s with pipe := (Pipe.waitToRead i fd current count s.pipe).2 } :=
        keeps_pipe consistent (@Pipe.Step.resume s.pipe [] [] (.reading i fd current count))
      have heldPiped := piped.others kbuf held (by simp)
      obtain ⟨hsound, hinside⟩ := afterRead_trace heldPiped buf reads
      rw [hstored] at hinside
      exact good_serves (hsound.trans hinside) fun hfits =>
        (afterRead_serves piped.consistent heldPiped buf reads (hstored.trans_le hfits)).after piped
  | @write kbuf written fd i data held hwritten hfits =>
      have writes := @resumeWrite_writes i fd data written s.pipe hwritten
      have piped : Keeps none s
          { s with pipe := (Pipe.resumeWrite i fd data written s.pipe).2 } :=
        keeps_pipe consistent (@Pipe.Step.resume s.pipe [] [] (.writing i fd data written))
      have heldPiped := piped.others kbuf held (by simp)
      exact good_serves (iff_of_true (afterWrite_sound heldPiped writes hfits) trivial) fun _ =>
        (afterWrite_serves piped.consistent heldPiped writes hfits).after piped
  | keys => exact keyboardLoop_good consistent ..

/-! ### Every run -/

/-- The calls that wait have buffers of their own. -/
structure Inv (sys : System) : Prop where
  consistent : Consistent sys.state
  holds : ∀ call ∈ sys.calls, Holds sys.state.heap call
  apart : (sys.calls.filterMap Waiting.buffer).Nodup

theorem Holds.held {h : Memory.Heap} {call : Waiting} {kbuf : Buffer} (holds : Holds h call)
    (hkbuf : call.buffer = some kbuf) : Held kbuf h := by
  cases holds with
  | read held =>
      cases hkbuf
      exact held
  | write held hwritten hfits =>
      cases hkbuf
      exact held
  | keys => cases hkbuf

/-- What the invariant needs of a call among the others. -/
theorem inv_of_good {own : Option Buffer} {allowed : Prop} {s : State}
    {result : Outcome × List Access × State} (before after : List Waiting)
    (good : Good own allowed s result) (hallowed : allowed)
    (holds : ∀ call ∈ before ++ after, Holds s.heap call)
    (apart : ((before ++ after).filterMap Waiting.buffer).Nodup)
    (hown : ∀ kbuf, own = some kbuf → kbuf ∉ (before ++ after).filterMap Waiting.buffer) :
    Inv ⟨result.2.2, before ++ result.1.waiting ++ after⟩ := by
  have keeps := good.keeps hallowed
  have perm : List.Perm (before ++ result.1.waiting ++ after)
      (result.1.waiting ++ (before ++ after)) := by
    rw [← List.append_assoc]
    exact List.perm_append_comm.append_right after
  refine ⟨keeps.consistent, fun call hcall => ?_, ?_⟩
  · rcases List.mem_append.mp (perm.mem_iff.mp hcall) with hnew | hold
    · exact (good.waits hallowed call hnew).1
    · refine (holds call hold).mono fun kbuf hkbuf held => keeps.others kbuf held fun heq => ?_
      exact hown kbuf heq (List.mem_filterMap.mpr ⟨call, hold, hkbuf⟩)
  · rw [(perm.filterMap _).nodup_iff, List.filterMap_append]
    cases hout : result.1 with
    | returned value => exact apart
    | faults => exact apart
    | hangs => exact apart
    | waits call =>
        have hwaits := (good.waits hallowed call (by simp [hout, Outcome.waiting])).2
        cases hbuffer : call.buffer with
        | none =>
            simp only [Outcome.waiting, List.filterMap_cons, hbuffer, List.filterMap_nil,
              List.nil_append]
            exact apart
        | some kbuf =>
            simp only [Outcome.waiting, List.filterMap_cons, hbuffer, List.filterMap_nil,
              List.cons_append, List.nil_append, List.nodup_cons]
            refine ⟨fun hmem => ?_, apart⟩
            rcases hwaits kbuf hbuffer with heq | hfresh
            · exact hown kbuf heq hmem
            · obtain ⟨call', hcall', hkbuf⟩ := List.mem_filterMap.mp hmem
              exact hfresh ((holds call' hcall').held hkbuf).live

theorem Elsewhere.held {s s' : State} {op : Background} {kbuf : Buffer} (step : Elsewhere s op s')
    (held : Held kbuf s.heap) (hkept : op ≠ .heap (.kfree kbuf.ptr)) : Held kbuf s'.heap := by
  cases step with
  | heap step => exact held.step step fun heq => hkept (by rw [heq])
  | store hlive frame => exact held.store hlive frame
  | pipe step => exact held
  | user => exact held
  | keys => exact held
  | terminal => exact held

/-- What one step does: it is sound exactly as long as it is allowed, and then keeps the
invariant. -/
theorem Step.sound_iff {s t : System} {label : Op × List Access} (inv : Inv s)
    (step : Step s label t) :
    (Sound label.2 ↔ Allowed s.state label.1) ∧ (Allowed s.state label.1 → Inv t) := by
  cases step with
  | @read s calls fd buf count hcount =>
      have good := @sysRead_good s fd buf count inv.consistent hcount
      exact ⟨good.sound_iff, fun hallowed => inv_of_good [] calls good hallowed inv.holds inv.apart
        fun kbuf heq => by cases heq⟩
  | @write s calls fd buf count hcount =>
      have good := @sysWrite_good s fd buf count inv.consistent hcount
      exact ⟨good.sound_iff, fun hallowed => inv_of_good [] calls good hallowed inv.holds inv.apart
        fun kbuf heq => by cases heq⟩
  | @resume s before after call =>
      have hcall : call ∈ before ++ call :: after :=
        List.mem_append_right _ List.mem_cons_self
      have good := resume_good inv.consistent (inv.holds call hcall)
      have perm : List.Perm (before ++ call :: after) (call :: (before ++ after)) :=
        List.perm_middle
      have apart := (perm.filterMap Waiting.buffer).nodup_iff.mp inv.apart
      refine ⟨good.sound_iff, fun hallowed => inv_of_good before after good hallowed
        (fun other hother => inv.holds other (perm.mem_iff.mpr (List.mem_cons_of_mem _ hother)))
        ?_ fun kbuf hkbuf => ?_⟩
      · cases hbuffer : call.buffer with
        | none => simpa [List.filterMap_cons, hbuffer] using apart
        | some kbuf =>
            rw [List.filterMap_cons, hbuffer] at apart
            exact (List.nodup_cons.mp apart).2
      · rw [List.filterMap_cons, hkbuf] at apart
        exact (List.nodup_cons.mp apart).1
  | @elsewhere s s' calls op step hspares =>
      refine ⟨iff_of_true sound_nil trivial, fun _ => ⟨step.consistent inv.consistent, ?_, inv.apart⟩⟩
      intro call hcall
      exact (inv.holds call hcall).mono fun kbuf hkbuf held =>
        step.held held (hspares call hcall kbuf hkbuf)

end Curnel.Descriptors
