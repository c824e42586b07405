/-
Who is woken when a pipe gets data, room or a closed end.

A process that waits in `pipe_read` or `pipe_write` is `BLOCKED` until another call
makes it `READY` again. The code wakes the process that created the pipe, and no one
when an end is closed. `NoLostWakeup` says that no process stays blocked once what it
waits for has come about; a run keeps it as long as every step that ends a wait meets
`Wakes`, and a step that does not breaks it (`waiters_are_woken`).
-/

import Curnel.Pipe.Identity
import Curnel.Process.Steps

namespace Curnel.Pipe

open Lib Word

/-! ### Processes that use the pipes -/

/-- What the call waits for has not come about. -/
def Call.Stuck (s : State) : Call → Prop
  | .reading i _ _ _ => (s.pipes i).dataSize = 0 ∧ (s.pipes i).writerOpen = true
  | .writing i _ _ _ =>
      (s.pipes i).dataSize = PIPE_BUFFER_SIZE ∧ (s.pipes i).readerOpen = true

/-- `pipe_read` on `fd` finds the pipe in slot `i`, and something to read. -/
structure Readable (fd count : Nat) (s : State) (i : PipeSlot) : Prop where
  found : pipeGetByFd fd s = some i
  readerOpen : (s.pipes i).readerOpen = true
  mode : fd &&& PIPE_FLAG_READABLE ≠ 0
  asked : 0 < count
  data : 0 < (s.pipes i).dataSize

/-- `pipe_write` on `fd` finds the pipe in slot `i`, and room for something. -/
structure Writable (fd : Nat) (data : List UInt8) (s : State) (i : PipeSlot) : Prop where
  found : pipeGetByFd fd s = some i
  writerOpen : (s.pipes i).writerOpen = true
  mode : fd &&& PIPE_FLAG_WRITABLE ≠ 0
  readerOpen : (s.pipes i).readerOpen = true
  asked : data ≠ []
  room : (s.pipes i).dataSize ≠ PIPE_BUFFER_SIZE

/-- `unblock_process(pid)` finds the process in slot `q`. -/
def Finds (kernel : Process.State) (pid : Nat) (q : Slot) : Prop :=
  pid ≠ 0 ∧ Process.getProcess pid kernel = some q

/-- The pipes, and the call in which each process waits. -/
structure Users where
  state : State
  suspended : Slot → Option Call

namespace Users

/-- What the rest of the kernel may do: switch, stop, end and create processes. The
PIDs stay unique, a call may end with its process, and only the pipes block a process
that waits in one of their calls. -/
structure Environment (kernel kernel' : Process.State) (w w' : Slot → Option Call) : Prop where
  unique : Process.UniquePids kernel → Process.UniquePids kernel'
  suspended : ∀ q, w' q = w q ∨ w' q = none
  blocked : ∀ q, w' q ≠ none → (kernel'.processes q).state = .blocked →
    (kernel.processes q).state = .blocked

inductive Op where
  | call (p : Slot) (op : Pipe.Op)
  | resume (p : Slot)
  | kernel

/-- The current process makes a call, or goes on from where it waits, or the rest of
the kernel does something. -/
inductive Step : Users → Op → Users → Prop where
  | call {s s' : State} {w : Slot → Option Call} {p : Slot} {op : Pipe.Op} {new : List Call} :
      Process.getCurrentProcess s.kernel = some p → w p = none → (∀ k, op ≠ .kernel k) →
        Pipe.Step ⟨s, []⟩ op ⟨s', new⟩ →
          Step ⟨s, w⟩ (.call p op) ⟨s', Function.update w p new.head?⟩
  | resume {s : State} {w : Slot → Option Call} {p : Slot} {call : Call} :
      Process.getCurrentProcess s.kernel = some p → w p = some call →
        Step ⟨s, w⟩ (.resume p) ⟨(call.resume s).2,
          Function.update w p (call.resume s).1.waiting.head?⟩
  | kernel {s : State} {w w' : Slot → Option Call} {kernel : Process.State} :
      Environment s.kernel kernel w w' →
        Step ⟨s, w⟩ .kernel ⟨{ s with kernel := kernel }, w'⟩

/-- The calls that change the process table do that, but for a process that blocks
itself. -/
theorem environment_of_step {kernel kernel' : Process.State} {op : Process.Op}
    (step : Process.Step kernel op kernel') (hop : ∀ pid, op ≠ .blockProcess pid)
    (w : Slot → Option Call) : Environment kernel kernel' w w := by
  refine ⟨fun unique i j hi hij => ?_, fun _ => .inl rfl,
    fun q _ => (step.blocksNone hop).blocked q⟩
  rw [step.evolves.pid_eq i] at hi hij
  rw [step.evolves.pid_eq j] at hij
  exact unique i j hi hij

/-- So does a process that blocks itself outside the calls of the pipes. -/
theorem environment_of_block {kernel : Process.State} {p : Slot} {w : Slot → Option Call}
    (unique : Process.UniquePids kernel) (hpid : (kernel.processes p).pid ≠ 0) (hp : w p = none) :
    Environment kernel (Process.blockProcess (kernel.processes p).pid kernel) w w := by
  unfold Process.blockProcess
  rw [Process.getProcess_of_pid unique hpid]
  dsimp only
  have hpids := @Process.modify_congr _ Process.pid kernel p
    (fun q => { q with state := .blocked }) rfl
  refine ⟨fun unique i j hi hij => ?_, fun _ => .inl rfl, fun q hq h => ?_⟩
  · simp only [Process.State.setState, hpids] at hi hij
    exact unique i j hi hij
  · have hne : q ≠ p := by
      rintro rfl
      exact hq hp
    rwa [Process.State.setState, Process.modify_other _ hne] at h

variable (s : Users)

/-- The process in slot `q` is blocked in a call. -/
def Asleep (q : Slot) (call : Call) : Prop :=
  s.suspended q = some call ∧ (s.state.kernel.processes q).state = .blocked

/-- No process is blocked when what it waits for has come about. -/
def NoLostWakeup : Prop := ∀ q call, s.Asleep q call → call.Stuck s.state

def AsleepReader (i : PipeSlot) (q : Slot) : Prop :=
  ∃ fd current count, s.Asleep q (.reading i fd current count)

def AsleepWriter (i : PipeSlot) (q : Slot) : Prop :=
  ∃ fd data written, s.Asleep q (.writing i fd data written)

/-- The step puts bytes into the pipe in slot `i`. -/
def Stores (i : PipeSlot) : Op → Prop
  | .call _ (.pipeWrite fd data) => Writable fd data s.state i
  | .resume p => ∃ fd data written, s.suspended p = some (.writing i fd data written) ∧
      (Call.writing i fd data written).Moves s.state
  | _ => False

/-- The step takes bytes out of the pipe in slot `i`. -/
def Takes (i : PipeSlot) : Op → Prop
  | .call _ (.pipeRead fd count) => Readable fd count s.state i
  | .resume p => ∃ fd current count, s.suspended p = some (.reading i fd current count) ∧
      (Call.reading i fd current count).Moves s.state
  | _ => False

/-- The step closes the end of the pipe in slot `i` that the flag stands for. -/
def Closes (flag : Nat) (i : PipeSlot) : Op → Prop
  | .call _ (.pipeClose fd) => pipeGetByFd fd s.state = some i ∧ fd &&& flag ≠ 0
  | _ => False

/-- The step gives slot `i` to a new pipe. -/
def GivesAway (i : PipeSlot) : Op → Prop
  | .call _ .pipeCreate => findPipe 0 s.state = some i
  | _ => False

/-- Whoever sleeps for what the step brings about is the process that the code wakes. -/
structure Wakes (op : Op) : Prop where
  stored : ∀ i, s.Stores i op → ∀ q, s.AsleepReader i q →
    Finds s.state.kernel (s.state.pipes i).readerPid q
  taken : ∀ i, s.Takes i op → ∀ q, s.AsleepWriter i q →
    Finds s.state.kernel (s.state.pipes i).writerPid q
  writerClosed : ∀ i, s.Closes PIPE_FLAG_WRITABLE i op → ∀ q, ¬ s.AsleepReader i q
  readerClosed : ∀ i, s.Closes PIPE_FLAG_READABLE i op → ∀ q, ¬ s.AsleepWriter i q
  givenAway : ∀ i, s.GivesAway i op → ∀ q, ¬ s.AsleepWriter i q

end Users

/-! ### What a call does to the other processes -/

/-- No process but `p` has been blocked, and none but `p` and that with `pid` woken. -/
structure Calms (p : Slot) (pid : Nat) (kernel kernel' : Process.State) : Prop where
  pid_eq : ∀ q, (kernel'.processes q).pid = (kernel.processes q).pid
  index_eq : kernel'.currentProcessIndex = kernel.currentProcessIndex
  blocked : ∀ q ≠ p, (kernel'.processes q).state = .blocked →
    (kernel.processes q).state = .blocked
  sleeps : ∀ q ≠ p, (kernel.processes q).state = .blocked → ¬ Finds kernel pid q →
    (kernel'.processes q).state = .blocked

/-- `unblock_process(pid)` has been called, and `p` alone may have been blocked since. -/
def Woken (p : Slot) (pid : Nat) (kernel kernel' : Process.State) : Prop :=
  ∀ q ≠ p, Finds kernel pid q → (kernel'.processes q).state ≠ .blocked

section Calms

variable {p : Slot} {pid : Nat} {kernel kernel' kernel'' : Process.State} {s : State}

theorem Calms.refl (p : Slot) (pid : Nat) (kernel : Process.State) : Calms p pid kernel kernel :=
  ⟨fun _ => rfl, rfl, fun _ _ h => h, fun _ _ h _ => h⟩

theorem Calms.finds (h : Calms p pid kernel kernel') (q : Slot) :
    Finds kernel' pid q ↔ Finds kernel pid q := by
  rw [Finds, Finds, Process.getProcess_congr h.pid_eq]

theorem Calms.trans (first : Calms p pid kernel kernel') (second : Calms p pid kernel' kernel'') :
    Calms p pid kernel kernel'' := by
  refine ⟨fun q => (second.pid_eq q).trans (first.pid_eq q), second.index_eq.trans first.index_eq,
    fun q hq h => first.blocked q hq (second.blocked q hq h), fun q hq h hfinds => ?_⟩
  exact second.sleeps q hq (first.sleeps q hq h hfinds) fun h => hfinds ((first.finds q).mp h)

theorem Calms.unique (h : Calms p pid kernel kernel') (unique : Process.UniquePids kernel) :
    Process.UniquePids kernel' := by
  intro i j hi hij
  rw [h.pid_eq i] at hi hij
  rw [h.pid_eq j] at hij
  exact unique i j hi hij

theorem Calms.current (h : Calms p pid kernel kernel') :
    Process.getCurrentProcess kernel' = Process.getCurrentProcess kernel := by
  simp only [Process.getCurrentProcess, h.index_eq, h.pid_eq]

theorem Woken.calms (first : Woken p pid kernel kernel') (second : Calms p pid kernel' kernel'') :
    Woken p pid kernel kernel'' :=
  fun q hq hfinds h => first q hq hfinds (second.blocked q hq h)

theorem calms_unblock (p : Slot) (s : State) (pid : Nat) :
    Calms p pid s.kernel (s.unblock pid).kernel := by
  unfold State.unblock Process.unblockProcess
  split
  next hpid =>
    dsimp only
    split
    · exact .refl p pid _
    next i hfind =>
      split
      next hblocked =>
        refine ⟨Process.modify_congr Process.pid rfl, rfl, fun q _ h => ?_, fun q _ h hno => ?_⟩
        all_goals
          by_cases hi : q = i
          · subst hi
            first
              | exact hblocked
              | exact absurd ⟨hpid, hfind⟩ hno
          · rwa [Process.State.setState, Process.modify_other _ hi] at *
      next => exact .refl p pid _
  · exact .refl p pid _

theorem woken_unblock (p : Slot) (s : State) (pid : Nat) :
    Woken p pid s.kernel (s.unblock pid).kernel := by
  rintro q - ⟨hpid, hfind⟩
  unfold State.unblock Process.unblockProcess
  rw [if_pos hpid, hfind]
  dsimp only
  split
  next => simp [Process.State.setState]
  next hblocked => exact hblocked

/-- A process blocks itself. -/
theorem calms_block (pid : Nat) (unique : Process.UniquePids s.kernel)
    (hp : (s.kernel.processes p).pid ≠ 0) : Calms p pid s.kernel (s.block p).kernel := by
  unfold State.block Process.blockProcess
  rw [Process.getProcess_of_pid unique hp]
  dsimp only
  refine ⟨Process.modify_congr Process.pid rfl, rfl, fun q hq h => ?_, fun q hq h _ => ?_⟩
  · rwa [Process.State.setState, Process.modify_other _ hq] at h
  · rwa [Process.State.setState, Process.modify_other _ hq]

end Calms

theorem getCurrentProcess_pid {kernel : Process.State} {p : Slot}
    (h : Process.getCurrentProcess kernel = some p) : (kernel.processes p).pid ≠ 0 := by
  unfold Process.getCurrentProcess at h
  split at h
  next hpid => exact Option.some.inj h ▸ hpid
  next => cases h

/-! ### Reading -/

@[simp] theorem writerPid_takeBytes (n : Nat) (p : Pipe) :
    (takeBytes n p).2.writerPid = p.writerPid := by
  induction n generalizing p with
  | zero => rfl
  | succ n ih => exact ih _

@[simp] theorem readerPid_putBytes (bytes : List UInt8) (p : Pipe) :
    (putBytes bytes p).readerPid = p.readerPid := by
  induction bytes generalizing p with
  | nil => rfl
  | cons b bytes ih => exact ih _

/-- A call of process `p` takes bytes out of a pipe, and then wakes `writer_pid`. -/
structure Drains (p : Slot) (i : PipeSlot) (s s' : State) : Prop where
  dataSize_le : (s'.pipes i).dataSize ≤ (s.pipes i).dataSize
  calms : Calms p (s.pipes i).writerPid s.kernel s'.kernel
  wakes : (s'.pipes i).dataSize ≠ (s.pipes i).dataSize →
    Woken p (s.pipes i).writerPid s.kernel s'.kernel

section Reading

variable {p : Slot} {i : PipeSlot} {fd count : Nat} {s : State}

theorem Drains.of_same {s' : State} (hpipes : s'.pipes = s.pipes)
    (calms : Calms p (s.pipes i).writerPid s.kernel s'.kernel) : Drains p i s s' := by
  refine ⟨by rw [hpipes], calms, fun h => absurd ?_ h⟩
  rw [hpipes]

theorem dataSize_finishRead (hsize : (s.pipes i).dataSize ≤ PIPE_BUFFER_SIZE) :
    ((finishRead i fd count s).2.pipes i).dataSize
      = (s.pipes i).dataSize - min count (s.pipes i).dataSize := by
  have hmin : (if count < (s.pipes i).dataSize then count else (s.pipes i).dataSize)
      = min count (s.pipes i).dataSize := by
    split <;> omega
  simp only [finishRead, hmin, pipes_unblock, modify_same, pipes_emit, dataSize_takeBytes]
  exact wsub_of_le (hsize.trans_lt (by decide)) (Nat.min_le_right _ _)

/-- Reading ends with a call of `unblock_process`. -/
theorem finishRead_unblock (i : PipeSlot) (fd count : Nat) (s : State) :
    ∃ t : State, t.kernel = s.kernel ∧
      (finishRead i fd count s).2 = t.unblock (s.pipes i).writerPid := by
  simp only [finishRead, modify_same, pipes_emit, writerPid_takeBytes]
  refine ⟨_, ?_, rfl⟩
  rfl

theorem drains_finishRead (p : Slot) (hsize : (s.pipes i).dataSize ≤ PIPE_BUFFER_SIZE) :
    Drains p i s (finishRead i fd count s).2 := by
  obtain ⟨t, hkernel, hend⟩ := finishRead_unblock i fd count s
  refine ⟨?_, ?_, fun _ => ?_⟩
  · rw [dataSize_finishRead hsize]
    exact Nat.sub_le _ _
  · rw [hend, ← hkernel]
    exact calms_unblock p _ _
  · rw [hend, ← hkernel]
    exact woken_unblock p _ _

theorem drains_waitToRead {current : Slot} (unique : Process.UniquePids s.kernel)
    (hp : (s.kernel.processes current).pid ≠ 0)
    (hsize : (s.pipes i).dataSize ≤ PIPE_BUFFER_SIZE) :
    Drains current i s (waitToRead i fd current count s).2 := by
  unfold waitToRead
  split
  · exact .of_same rfl (calms_block _ unique hp)
  split
  · exact .of_same rfl (.refl _ _ _)
  · exact drains_finishRead current hsize

theorem dataSize_finishRead_ne (hsize : (s.pipes i).dataSize ≤ PIPE_BUFFER_SIZE) :
    ((finishRead i fd count s).2.pipes i).dataSize ≠ (s.pipes i).dataSize ↔
      0 < count ∧ 0 < (s.pipes i).dataSize := by
  rw [dataSize_finishRead hsize]
  omega

/-- What a read that waits again waits for. -/
theorem stuck_waitToRead {current : Slot} {c : Call}
    (h : c ∈ (waitToRead i fd current count s).1.waiting) :
    c = .reading i fd current count ∧ c.Stuck (waitToRead i fd current count s).2 := by
  unfold waitToRead at h ⊢
  split at h
  next hstuck =>
    rw [Outcome.waiting, List.mem_singleton] at h
    rw [if_pos hstuck, h]
    exact ⟨rfl, hstuck⟩
  next =>
    split at h
    · simp [Outcome.waiting] at h
    · simp [finishRead, Outcome.waiting] at h

theorem waitToRead_changed {current : Slot} (hsize : (s.pipes i).dataSize ≤ PIPE_BUFFER_SIZE) :
    ((waitToRead i fd current count s).2.pipes i).dataSize ≠ (s.pipes i).dataSize ↔
      0 < count ∧ 0 < (s.pipes i).dataSize := by
  unfold waitToRead
  split
  next hstuck =>
    rw [pipes_block]
    omega
  split
  next hempty =>
    dsimp only
    omega
  next => exact dataSize_finishRead_ne hsize

/-- A call of `pipe_read` by process `p` leaves everything alone, or drains the pipe that
it finds. -/
theorem pipeRead_cases (unique : Process.UniquePids s.kernel)
    (hp : Process.getCurrentProcess s.kernel = some p)
    (hsize : ∀ i, (s.pipes i).dataSize ≤ PIPE_BUFFER_SIZE) :
    ((pipeRead fd count s).2 = s ∧ (pipeRead fd count s).1.waiting = [] ∧
      ∀ i, ¬ Readable fd count s i) ∨
    ∃ i, pipeGetByFd fd s = some i ∧ Drains p i s (pipeRead fd count s).2 ∧
      Through i fd s (pipeRead fd count s).2 ∧
      (((pipeRead fd count s).2.pipes i).dataSize ≠ (s.pipes i).dataSize ↔
        Readable fd count s i) ∧
      ∀ c ∈ (pipeRead fd count s).1.waiting,
        c = .reading i fd p count ∧ c.Stuck (pipeRead fd count s).2 := by
  unfold pipeRead
  split
  next hfind => exact .inl ⟨rfl, rfl, fun i h => by cases hfind.symm.trans h.found⟩
  next i hfind =>
    have honly : ∀ j, Readable fd count s j → Readable fd count s i := fun j h => by
      rwa [Option.some.inj (hfind.symm.trans h.found)]
    split
    next hclosed =>
      refine .inl ⟨rfl, rfl, fun j h => ?_⟩
      have := honly j h
      rcases hclosed with hclosed | hmode
      · exact absurd this.readerOpen (by simp [hclosed])
      · exact this.mode hmode
    next hopen =>
      rw [not_or] at hopen
      split
      next hempty =>
        have hnone : ∀ j, ¬ Readable fd count s j := fun j h => by
          have := (honly j h).data
          omega
        split
        next => exact .inl ⟨rfl, rfl, hnone⟩
        next =>
          split
          next => exact .inl ⟨rfl, rfl, hnone⟩
          next =>
            rw [hp]
            refine .inr ⟨i, hfind, drains_waitToRead unique (getCurrentProcess_pid hp) (hsize i),
              through_waitToRead .., ?_, fun c hc => stuck_waitToRead hc⟩
            rw [waitToRead_changed (hsize i)]
            refine ⟨fun h => by omega, fun h => absurd h (hnone i)⟩
      next hdata =>
        refine .inr ⟨i, hfind, drains_finishRead p (hsize i), through_finishRead .., ?_, ?_⟩
        · rw [dataSize_finishRead_ne (hsize i)]
          refine ⟨fun h => ⟨hfind, by simpa using hopen.1, hopen.2, h.1, h.2⟩, fun h => ?_⟩
          exact ⟨h.asked, h.data⟩
        · simp [finishRead, Outcome.waiting]

end Reading

/-! ### Writing -/

/-- A call of process `p` puts bytes into a pipe, and then wakes `reader_pid`. -/
structure Fills (p : Slot) (i : PipeSlot) (s s' : State) : Prop where
  le_dataSize : (s.pipes i).dataSize ≤ (s'.pipes i).dataSize
  dataSize_le : (s'.pipes i).dataSize ≤ PIPE_BUFFER_SIZE
  readerPid_eq : (s'.pipes i).readerPid = (s.pipes i).readerPid
  calms : Calms p (s.pipes i).readerPid s.kernel s'.kernel
  wakes : (s'.pipes i).dataSize ≠ (s.pipes i).dataSize →
    Woken p (s.pipes i).readerPid s.kernel s'.kernel

section Writing

variable {p : Slot} {i : PipeSlot} {fd : Nat} {data : List UInt8} {written : Nat}
variable {s s' s'' : State}

theorem Fills.of_same (hsize : (s.pipes i).dataSize ≤ PIPE_BUFFER_SIZE)
    (hpipes : s'.pipes = s.pipes) (calms : Calms p (s.pipes i).readerPid s.kernel s'.kernel) :
    Fills p i s s' := by
  refine ⟨by rw [hpipes], by rwa [hpipes], by rw [hpipes], calms, fun h => absurd ?_ h⟩
  rw [hpipes]

theorem Fills.trans (first : Fills p i s s') (second : Fills p i s' s'') : Fills p i s s'' := by
  have calms := second.calms
  have wakes := second.wakes
  rw [first.readerPid_eq] at calms wakes
  refine ⟨first.le_dataSize.trans second.le_dataSize, second.dataSize_le,
    second.readerPid_eq.trans first.readerPid_eq, first.calms.trans calms, fun hmore => ?_⟩
  by_cases hfirst : (s'.pipes i).dataSize = (s.pipes i).dataSize
  · intro q hq hfinds
    exact wakes (hfirst ▸ hmore) q hq ((first.calms.finds q).mpr hfinds)
  · exact (first.wakes hfirst).calms calms

/-- A chunk ends with a call of `unblock_process`. -/
theorem writeChunk_unblock (i : PipeSlot) (fd : Nat) (data : List UInt8) (written : Nat)
    (s : State) : ∃ t : State, t.kernel = s.kernel ∧
      (t.pipes i).readerPid = (s.pipes i).readerPid ∧
      (writeChunk i fd data written s).2 = t.unblock (s.pipes i).readerPid := by
  simp only [writeChunk, modify_same, pipes_emit, readerPid_putBytes]
  refine ⟨_, ?_, ?_, rfl⟩
  · rfl
  · simp

theorem fills_writeChunk (p : Slot) (hsize : (s.pipes i).dataSize ≤ PIPE_BUFFER_SIZE) :
    Fills p i s (writeChunk i fd data written s).2 := by
  obtain ⟨t, hkernel, hpid, hend⟩ := writeChunk_unblock i fd data written s
  have hdata := @dataSize_writeChunk i fd s data written hsize
  refine ⟨?_, ?_, ?_, ?_, fun _ => ?_⟩
  · rw [hdata]
    exact Nat.le_add_right _ _
  · rw [hdata]
    have := Nat.min_le_right (data.length - written) (PIPE_BUFFER_SIZE - (s.pipes i).dataSize)
    omega
  · rw [hend, pipes_unblock, hpid]
  · rw [hend, ← hkernel]
    exact calms_unblock p _ _
  · rw [hend, ← hkernel]
    exact woken_unblock p _ _

theorem fills_writeLoop {rounds : Nat} (unique : Process.UniquePids s.kernel)
    (hp : Process.getCurrentProcess s.kernel = some p)
    (hsize : (s.pipes i).dataSize ≤ PIPE_BUFFER_SIZE) :
    Fills p i s (writeLoop i fd data rounds written s).2 := by
  induction rounds generalizing written s with
  | zero => exact .of_same hsize rfl (.refl _ _ _)
  | succ rounds ih =>
      unfold writeLoop
      split
      · split
        · split
          · exact .of_same hsize rfl (.refl _ _ _)
          rw [hp]
          exact .of_same hsize rfl (calms_block _ unique (getCurrentProcess_pid hp))
        · have chunk := @fills_writeChunk i fd data written s p hsize
          refine chunk.trans (ih (chunk.calms.unique unique) ?_ chunk.dataSize_le)
          rw [chunk.calms.current, hp]
      · exact .of_same hsize rfl (.refl _ _ _)

/-- What a write that waits waits for. -/
theorem stuck_writeLoop {rounds : Nat} {c : Call} (hopen : (s.pipes i).readerOpen = true)
    (h : c ∈ (writeLoop i fd data rounds written s).1.waiting) :
    (∃ n, c = .writing i fd data n) ∧ c.Stuck (writeLoop i fd data rounds written s).2 := by
  induction rounds generalizing written s with
  | zero => simp [writeLoop, Outcome.waiting] at h
  | succ rounds ih =>
      unfold writeLoop at h ⊢
      split at h
      next hleft =>
        rw [if_pos hleft]
        split at h
        next hfull =>
          rw [if_pos hfull]
          split at h
          · simp [Outcome.waiting] at h
          next hblock =>
            rw [if_neg hblock]
            split at h
            · simp [Outcome.waiting] at h
            next =>
              rw [Outcome.waiting, List.mem_singleton] at h
              rw [h]
              exact ⟨⟨written, rfl⟩, hfull, hopen⟩
        next hroom =>
          rw [if_neg hroom]
          refine ih ?_ h
          have same := (through_writeChunk i fd data written s).identity_eq i
          rw [(identity_eq_iff.mp same).2.1, hopen]
      next => simp [Outcome.waiting] at h

theorem writeChunk_changed (hsize : (s.pipes i).dataSize ≤ PIPE_BUFFER_SIZE)
    (hleft : written < data.length) (hroom : (s.pipes i).dataSize ≠ PIPE_BUFFER_SIZE) :
    (s.pipes i).dataSize < ((writeChunk i fd data written s).2.pipes i).dataSize := by
  rw [dataSize_writeChunk hsize]
  omega

theorem writeLoop_changed {rounds : Nat} (hsize : (s.pipes i).dataSize ≤ PIPE_BUFFER_SIZE) :
    ((writeLoop i fd data (rounds + 1) written s).2.pipes i).dataSize ≠ (s.pipes i).dataSize ↔
      written < data.length ∧ (s.pipes i).dataSize ≠ PIPE_BUFFER_SIZE := by
  constructor
  · intro hchanged
    by_contra hno
    refine hchanged ?_
    by_cases hfull : (s.pipes i).dataSize = PIPE_BUFFER_SIZE
    · rw [(idle_writeLoop hfull).pipe_eq]
    · rw [writeLoop, if_neg (by tauto)]
  · rintro ⟨hleft, hroom⟩
    rw [writeLoop, if_pos hleft, if_neg hroom]
    have hmore := @writeChunk_changed i fd data written s hsize hleft hroom
    have chunk : Fills 0 i s (writeChunk i fd data written s).2 := fills_writeChunk 0 hsize
    have hrest := @dataSize_writeLoop i fd (writeChunk i fd data written s).2 data rounds
      (writeChunk i fd data written s).1 chunk.dataSize_le
    dsimp only
    omega

/-- A call of `pipe_write` by process `p` leaves everything alone, or fills the pipe that
it finds. -/
theorem pipeWrite_cases (unique : Process.UniquePids s.kernel)
    (hp : Process.getCurrentProcess s.kernel = some p)
    (hsize : ∀ i, (s.pipes i).dataSize ≤ PIPE_BUFFER_SIZE) :
    ((pipeWrite fd data s).2 = s ∧ (pipeWrite fd data s).1.waiting = [] ∧
      ∀ i, ¬ Writable fd data s i) ∨
    ∃ i, pipeGetByFd fd s = some i ∧ Fills p i s (pipeWrite fd data s).2 ∧
      Through i fd s (pipeWrite fd data s).2 ∧
      (((pipeWrite fd data s).2.pipes i).dataSize ≠ (s.pipes i).dataSize ↔
        Writable fd data s i) ∧
      ∀ c ∈ (pipeWrite fd data s).1.waiting, c.On i fd ∧ (∃ n, c = .writing i fd data n) ∧
        c.Stuck (pipeWrite fd data s).2 := by
  unfold pipeWrite
  split
  next hfind => exact .inl ⟨rfl, rfl, fun i h => by cases hfind.symm.trans h.found⟩
  next i hfind =>
    have honly : ∀ j, Writable fd data s j → Writable fd data s i := fun j h => by
      rwa [Option.some.inj (hfind.symm.trans h.found)]
    split
    next hclosed =>
      refine .inl ⟨rfl, rfl, fun j h => ?_⟩
      have := honly j h
      rcases hclosed with hclosed | hmode
      · exact absurd this.writerOpen (by simp [hclosed])
      · exact this.mode hmode
    next hopen =>
      rw [not_or] at hopen
      split
      next hclosed =>
        refine .inl ⟨rfl, rfl, fun j h => ?_⟩
        exact absurd (honly j h).readerOpen (by simp [hclosed])
      next hreader =>
        have hreader' : (s.pipes i).readerOpen = true := by simpa using hreader
        refine .inr ⟨i, hfind, fills_writeLoop unique hp (hsize i), through_writeLoop .., ?_,
          fun c hc => ⟨writeLoop_waiting hc, stuck_writeLoop hreader' hc⟩⟩
        rw [writeLoop_changed (hsize i), List.length_pos_iff]
        refine ⟨fun h => ⟨hfind, by simpa using hopen.1, hopen.2, hreader', h.1, h.2⟩, fun h => ?_⟩
        exact ⟨h.asked, h.room⟩

end Writing

/-! ### One step -/

namespace Users

/-- After the call of process `p`, every other process that sleeps is stuck. -/
def Settled (p : Slot) (s : Users) (t : State) : Prop :=
  ∀ q ≠ p, ∀ c, s.suspended q = some c → (t.kernel.processes q).state = .blocked → c.Stuck t

theorem noLostWakeup_update {p : Slot} {s : Users} {t : State} {new : Option Call}
    (hnew : ∀ c, new = some c → c.Stuck t) :
    NoLostWakeup ⟨t, Function.update s.suspended p new⟩ ↔ Settled p s t := by
  constructor
  · intro h q hq c hc hblocked
    refine h q c ⟨?_, hblocked⟩
    dsimp only
    rw [Function.update_of_ne hq, hc]
  · rintro h q c ⟨hc, hblocked⟩
    dsimp only at hc hblocked
    by_cases hq : q = p
    · subst hq
      rw [Function.update_self] at hc
      exact hnew c hc
    · rw [Function.update_of_ne hq] at hc
      exact h q hq c hc hblocked

section Settled

variable {p : Slot} {i : PipeSlot} {fd : Nat} {s : Users} {t : State}

/-- Draining a pipe settles it if its sleeping writers are woken. -/
theorem settled_drains (awake : s.NoLostWakeup) (drains : Drains p i s.state t)
    (through : Through i fd s.state t) (hp : ∀ q, s.AsleepWriter i q → q ≠ p) :
    Settled p s t ↔ ((t.pipes i).dataSize ≠ (s.state.pipes i).dataSize →
      ∀ q, s.AsleepWriter i q → Finds s.state.kernel (s.state.pipes i).writerPid q) := by
  obtain ⟨-, hreader, hwriter⟩ := identity_eq_iff.mp (through.identity_eq i)
  constructor
  · rintro settled hchanged q ⟨fd', data, written, hsuspended, hblocked⟩
    have hq := hp q ⟨fd', data, written, hsuspended, hblocked⟩
    by_contra hno
    have hstill := settled q hq _ hsuspended (drains.calms.sleeps q hq hblocked hno)
    have hfull := awake q _ ⟨hsuspended, hblocked⟩
    exact hchanged (hstill.1.trans hfull.1.symm)
  · intro hwakes q hq c hsuspended hblocked
    have hasleep : s.Asleep q c := ⟨hsuspended, drains.calms.blocked q hq hblocked⟩
    have hstuck := awake q c hasleep
    cases c with
    | reading j fd' current count =>
        by_cases hj : j = i
        · subst hj
          have hle := drains.dataSize_le
          exact ⟨by have := hstuck.1; omega, hwriter.trans hstuck.2⟩
        · rw [Call.Stuck, through.others j hj]
          exact hstuck
    | writing j fd' data written =>
        by_cases hj : j = i
        · subst hj
          by_cases hsame : (t.pipes j).dataSize = (s.state.pipes j).dataSize
          · exact ⟨hsame.trans hstuck.1, hreader.trans hstuck.2⟩
          · have hfinds := hwakes hsame q ⟨fd', data, written, hasleep⟩
            exact absurd hblocked (drains.wakes hsame q hq hfinds)
        · rw [Call.Stuck, through.others j hj]
          exact hstuck

/-- Filling a pipe settles it if its sleeping readers are woken. -/
theorem settled_fills (awake : s.NoLostWakeup) (fills : Fills p i s.state t)
    (through : Through i fd s.state t) (hp : ∀ q, s.AsleepReader i q → q ≠ p) :
    Settled p s t ↔ ((t.pipes i).dataSize ≠ (s.state.pipes i).dataSize →
      ∀ q, s.AsleepReader i q → Finds s.state.kernel (s.state.pipes i).readerPid q) := by
  obtain ⟨-, hreader, hwriter⟩ := identity_eq_iff.mp (through.identity_eq i)
  constructor
  · rintro settled hchanged q ⟨fd', current, count, hsuspended, hblocked⟩
    have hq := hp q ⟨fd', current, count, hsuspended, hblocked⟩
    by_contra hno
    have hstill := settled q hq _ hsuspended (fills.calms.sleeps q hq hblocked hno)
    have hempty := awake q _ ⟨hsuspended, hblocked⟩
    exact hchanged (hstill.1.trans hempty.1.symm)
  · intro hwakes q hq c hsuspended hblocked
    have hasleep : s.Asleep q c := ⟨hsuspended, fills.calms.blocked q hq hblocked⟩
    have hstuck := awake q c hasleep
    cases c with
    | reading j fd' current count =>
        by_cases hj : j = i
        · subst hj
          by_cases hsame : (t.pipes j).dataSize = (s.state.pipes j).dataSize
          · exact ⟨hsame.trans hstuck.1, hwriter.trans hstuck.2⟩
          · have hfinds := hwakes hsame q ⟨fd', current, count, hasleep⟩
            exact absurd hblocked (fills.wakes hsame q hq hfinds)
        · rw [Call.Stuck, through.others j hj]
          exact hstuck
    | writing j fd' data written =>
        by_cases hj : j = i
        · subst hj
          have hge := fills.le_dataSize
          have hle := fills.dataSize_le
          exact ⟨by have := hstuck.1; omega, hreader.trans hstuck.2⟩
        · rw [Call.Stuck, through.others j hj]
          exact hstuck

/-- Closing ends settles if no one sleeps for the other end. -/
theorem settled_close (awake : s.NoLostWakeup) (hfind : pipeGetByFd fd s.state = some i)
    (hp : s.suspended p = none) :
    Settled p s (pipeClose fd s.state).2 ↔
      (fd &&& PIPE_FLAG_WRITABLE ≠ 0 → ∀ q, ¬ s.AsleepReader i q) ∧
        (fd &&& PIPE_FLAG_READABLE ≠ 0 → ∀ q, ¬ s.AsleepWriter i q) := by
  have hne : ∀ {q c}, s.suspended q = some c → q ≠ p := by
    rintro q c hc rfl
    rw [hp] at hc
    cases hc
  have hring := ring_closeEnds fd (s.state.pipes i)
  simp only [ring, Prod.mk.injEq] at hring
  unfold pipeClose
  rw [hfind]
  constructor
  · refine fun settled => ⟨fun hmode q => ?_, fun hmode q => ?_⟩
    · rintro ⟨fd', current, count, hsuspended, hblocked⟩
      have hstuck := settled q (hne hsuspended) _ hsuspended hblocked
      simp [Call.Stuck, hmode] at hstuck
    · rintro ⟨fd', data, written, hsuspended, hblocked⟩
      have hstuck := settled q (hne hsuspended) _ hsuspended hblocked
      simp [Call.Stuck, hmode] at hstuck
  · rintro ⟨hreaders, hwriters⟩ q hq c hsuspended hblocked
    have hstuck := awake q c ⟨hsuspended, hblocked⟩
    cases c with
    | reading j fd' current count =>
        by_cases hj : j = i
        · subst hj
          have hmode : fd &&& PIPE_FLAG_WRITABLE = 0 := by
            by_contra hmode
            exact hreaders hmode q ⟨fd', current, count, hsuspended, hblocked⟩
          simp [Call.Stuck, hring.2.2.2, hmode, hstuck.1, hstuck.2]
        · dsimp only
          rw [Call.Stuck, modify_other _ hj]
          exact hstuck
    | writing j fd' data written =>
        by_cases hj : j = i
        · subst hj
          have hmode : fd &&& PIPE_FLAG_READABLE = 0 := by
            by_contra hmode
            exact hwriters hmode q ⟨fd', data, written, hsuspended, hblocked⟩
          simp [Call.Stuck, hring.2.2.2, hmode, hstuck.1, hstuck.2]
        · dsimp only
          rw [Call.Stuck, modify_other _ hj]
          exact hstuck

/-- What changes neither the pipes' sizes and ends nor the processes settles. -/
theorem settled_same (awake : s.NoLostWakeup)
    (hpipes : ∀ j, (t.pipes j).dataSize = (s.state.pipes j).dataSize ∧
      (t.pipes j).readerOpen = (s.state.pipes j).readerOpen ∧
      (t.pipes j).writerOpen = (s.state.pipes j).writerOpen)
    (hkernel : t.kernel = s.state.kernel) : Settled p s t := by
  intro q _ c hsuspended hblocked
  rw [hkernel] at hblocked
  have hstuck := awake q c ⟨hsuspended, hblocked⟩
  cases c with
  | reading j fd' current count =>
      rw [Call.Stuck, (hpipes j).1, (hpipes j).2.2]
      exact hstuck
  | writing j fd' data written =>
      rw [Call.Stuck, (hpipes j).1, (hpipes j).2.1]
      exact hstuck

/-- Giving a slot to a new pipe settles if no one sleeps to write there. -/
theorem settled_creates (awake : s.NoLostWakeup) (creates : Creates i s.state t)
    (hp : s.suspended p = none) : Settled p s t ↔ ∀ q, ¬ s.AsleepWriter i q := by
  constructor
  · rintro settled q ⟨fd', data, written, hsuspended, hblocked⟩
    have hq : q ≠ p := by
      rintro rfl
      rw [hp] at hsuspended
      cases hsuspended
    rw [← creates.kernel_eq] at hblocked
    have hstuck := (settled q hq _ hsuspended hblocked).1
    rw [creates.dataSize_eq] at hstuck
    cases hstuck
  · rintro hwriters q hq c hsuspended hblocked
    rw [creates.kernel_eq] at hblocked
    have hstuck := awake q c ⟨hsuspended, hblocked⟩
    cases c with
    | reading j fd' current count =>
        by_cases hj : j = i
        · subst hj
          exact ⟨creates.dataSize_eq, creates.writerOpen⟩
        · rw [Call.Stuck, creates.others j hj]
          exact hstuck
    | writing j fd' data written =>
        by_cases hj : j = i
        · subst hj
          exact absurd ⟨fd', data, written, hsuspended, hblocked⟩ (hwriters q)
        · rw [Call.Stuck, creates.others j hj]
          exact hstuck

end Settled

/-- Where no process waits, none has to be woken. -/
theorem wakes_of_none {s : Users} {op : Op} (h : ∀ q, s.suspended q = none) : s.Wakes op := by
  have hasleep : ∀ q c, ¬ s.Asleep q c := by
    rintro q c ⟨hc, -⟩
    rw [h q] at hc
    cases hc
  refine ⟨fun _ _ q => ?_, fun _ _ q => ?_, fun _ _ q => ?_, fun _ _ q => ?_, fun _ _ q => ?_⟩
  all_goals
    rintro ⟨_, _, _, hq⟩
    exact absurd hq (hasleep q _)

theorem wakes_kernel (s : Users) : s.Wakes .kernel :=
  ⟨fun _ h => h.elim, fun _ h => h.elim, fun _ h => h.elim, fun _ h => h.elim, fun _ h => h.elim⟩

/-! ### The invariant -/

structure Inv (s : Users) : Prop where
  refines : ∀ i, ∃ f, Refines s.state i f
  unique : Process.UniquePids s.state.kernel
  own : ∀ q i fd current count, s.suspended q = some (.reading i fd current count) → current = q
  pending : ∀ q c, s.suspended q = some c → c.Pending
  awake : s.NoLostWakeup

theorem Inv.dataSize_le {s : Users} (inv : Inv s) (i : PipeSlot) :
    (s.state.pipes i).dataSize ≤ PIPE_BUFFER_SIZE := by
  obtain ⟨f, hf⟩ := inv.refines i
  exact hf.dataSize_le

section Call

variable {p : Slot} {s : State} {w : Slot → Option Call}

theorem ne_of_none {q : Slot} {c : Call} (hp : w p = none) (hc : w q = some c) : q ≠ p := by
  rintro rfl
  rw [hp] at hc
  cases hc

theorem wakes_pipeRead_iff {fd count : Nat} (inv : Inv ⟨s, w⟩) (hp : w p = none)
    (hcurrent : Process.getCurrentProcess s.kernel = some p) :
    Wakes ⟨s, w⟩ (.call p (.pipeRead fd count)) ↔
      Settled p ⟨s, w⟩ (pipeRead fd count s).2 := by
  rcases pipeRead_cases inv.unique hcurrent inv.dataSize_le with
    ⟨hsame, -, hnone⟩ | ⟨i, hfind, drains, through, hchanged, -⟩
  · rw [hsame]
    refine iff_of_true ?_ (settled_same inv.awake (fun _ => ⟨rfl, rfl, rfl⟩) rfl)
    exact ⟨fun _ h => h.elim, fun i h => absurd h (hnone i), fun _ h => h.elim, fun _ h => h.elim,
      fun _ h => h.elim⟩
  · rw [settled_drains inv.awake drains through
      (fun q ⟨fd', data, written, hq, _⟩ => ne_of_none hp hq), hchanged]
    refine ⟨fun wakes h => wakes.taken i h, fun h => ?_⟩
    refine ⟨fun _ h => h.elim, fun j hj => ?_, fun _ h => h.elim, fun _ h => h.elim,
      fun _ h => h.elim⟩
    have hi : j = i := Option.some.inj (hj.found.symm.trans hfind)
    subst hi
    exact h hj

theorem wakes_pipeWrite_iff {fd : Nat} {data : List UInt8} (inv : Inv ⟨s, w⟩) (hp : w p = none)
    (hcurrent : Process.getCurrentProcess s.kernel = some p) :
    Wakes ⟨s, w⟩ (.call p (.pipeWrite fd data)) ↔
      Settled p ⟨s, w⟩ (pipeWrite fd data s).2 := by
  rcases pipeWrite_cases inv.unique hcurrent inv.dataSize_le with
    ⟨hsame, -, hnone⟩ | ⟨i, hfind, fills, through, hchanged, -⟩
  · rw [hsame]
    refine iff_of_true ?_ (settled_same inv.awake (fun _ => ⟨rfl, rfl, rfl⟩) rfl)
    exact ⟨fun i h => absurd h (hnone i), fun _ h => h.elim, fun _ h => h.elim, fun _ h => h.elim,
      fun _ h => h.elim⟩
  · rw [settled_fills inv.awake fills through
      (fun q ⟨fd', current, count, hq, _⟩ => ne_of_none hp hq), hchanged]
    refine ⟨fun wakes h => wakes.stored i h, fun h => ?_⟩
    refine ⟨fun j hj => ?_, fun _ h => h.elim, fun _ h => h.elim, fun _ h => h.elim,
      fun _ h => h.elim⟩
    have hi : j = i := Option.some.inj (hj.found.symm.trans hfind)
    subst hi
    exact h hj

theorem wakes_pipeClose_iff {fd : Nat} (inv : Inv ⟨s, w⟩) (hp : w p = none) :
    Wakes ⟨s, w⟩ (.call p (.pipeClose fd)) ↔ Settled p ⟨s, w⟩ (pipeClose fd s).2 := by
  cases hfind : pipeGetByFd fd s with
  | none =>
      have hsame : (pipeClose fd s).2 = s := by rw [pipeClose, hfind]
      have hnone : ∀ flag i, ¬ Closes ⟨s, w⟩ flag i (.call p (.pipeClose fd)) := by
        rintro flag i ⟨hsome, -⟩
        cases hfind.symm.trans hsome
      rw [hsame]
      refine iff_of_true ?_ (settled_same inv.awake (fun _ => ⟨rfl, rfl, rfl⟩) rfl)
      exact ⟨fun _ h => h.elim, fun _ h => h.elim, fun i h => absurd h (hnone _ i),
        fun i h => absurd h (hnone _ i), fun _ h => h.elim⟩
  | some i =>
      rw [settled_close inv.awake hfind hp]
      constructor
      · intro wakes
        exact ⟨fun hmode => wakes.writerClosed i ⟨hfind, hmode⟩,
          fun hmode => wakes.readerClosed i ⟨hfind, hmode⟩⟩
      · rintro ⟨hreaders, hwriters⟩
        refine ⟨fun _ h => h.elim, fun _ h => h.elim, ?_, ?_, fun _ h => h.elim⟩
        · rintro j ⟨hj, hmode⟩
          rw [Option.some.inj (hj.symm.trans hfind)]
          exact hreaders hmode
        · rintro j ⟨hj, hmode⟩
          rw [Option.some.inj (hj.symm.trans hfind)]
          exact hwriters hmode

theorem wakes_pipeCreate_iff (inv : Inv ⟨s, w⟩) (hp : w p = none) :
    Wakes ⟨s, w⟩ (.call p .pipeCreate) ↔ Settled p ⟨s, w⟩ (pipeCreate s).2.2 := by
  rcases pipeCreate_cases s with ⟨hfull, hsame⟩ | ⟨i, hfind, creates⟩
  · rw [hsame]
    refine iff_of_true ?_ (settled_same inv.awake (fun _ => ⟨rfl, rfl, rfl⟩) rfl)
    refine ⟨fun _ h => h.elim, fun _ h => h.elim, fun _ h => h.elim, fun _ h => h.elim,
      fun i h => ?_⟩
    cases hfull.symm.trans h
  · rw [settled_creates inv.awake creates hp]
    refine ⟨fun wakes => wakes.givenAway i hfind, fun h => ?_⟩
    refine ⟨fun _ h => h.elim, fun _ h => h.elim, fun _ h => h.elim, fun _ h => h.elim,
      fun j hj => ?_⟩
    rw [Option.some.inj (hj.symm.trans hfind)]
    exact h

theorem wakes_pipeSetFlags (inv : Inv ⟨s, w⟩) (fd : Nat) (flags : BitVec 8) :
    Wakes ⟨s, w⟩ (.call p (.pipeSetFlags fd flags)) ∧
      Settled p ⟨s, w⟩ (pipeSetFlags fd flags s).2 := by
  refine ⟨⟨fun _ h => h.elim, fun _ h => h.elim, fun _ h => h.elim, fun _ h => h.elim,
    fun _ h => h.elim⟩, ?_⟩
  unfold pipeSetFlags
  split
  · exact settled_same inv.awake (fun _ => ⟨rfl, rfl, rfl⟩) rfl
  next i _ =>
    refine settled_same inv.awake (fun j => ?_) rfl
    by_cases hj : j = i
    · subst hj
      simp
    · simp [hj]

/-! ### Calls that go on -/

theorem wakes_resume_reading_iff {i : PipeSlot} {fd count : Nat} (inv : Inv ⟨s, w⟩)
    (hp : (s.kernel.processes p).pid ≠ 0) (hcall : w p = some (.reading i fd p count)) :
    Wakes ⟨s, w⟩ (.resume p) ↔ Settled p ⟨s, w⟩ (waitToRead i fd p count s).2 := by
  have drains : Drains p i s (waitToRead i fd p count s).2 :=
    drains_waitToRead inv.unique hp (inv.dataSize_le i)
  have hne : ∀ q, AsleepWriter ⟨s, w⟩ i q → q ≠ p := by
    rintro q ⟨fd', data, written, hq, -⟩ rfl
    cases hcall.symm.trans hq
  rw [settled_drains inv.awake drains (through_waitToRead i fd p count s) hne,
    waitToRead_changed (inv.dataSize_le i)]
  constructor
  · exact fun wakes h => wakes.taken i ⟨fd, p, count, hcall, h⟩
  · refine fun h => ⟨?_, ?_, fun _ h => h.elim, fun _ h => h.elim, fun _ h => h.elim⟩
    · rintro j ⟨fd', data, written, hj, -⟩
      cases hcall.symm.trans hj
    · rintro j ⟨fd', current, count', hj, hmoves⟩
      cases hcall.symm.trans hj
      exact h hmoves

theorem resumeWrite_cases {i : PipeSlot} {fd : Nat} {data : List UInt8} {written : Nat}
    (unique : Process.UniquePids s.kernel) (hp : Process.getCurrentProcess s.kernel = some p)
    (hsize : (s.pipes i).dataSize ≤ PIPE_BUFFER_SIZE) (hleft : written < data.length) :
    Fills p i s (resumeWrite i fd data written s).2 ∧
      (((resumeWrite i fd data written s).2.pipes i).dataSize ≠ (s.pipes i).dataSize ↔
        (Call.writing i fd data written).Moves s) ∧
      ∀ c ∈ (resumeWrite i fd data written s).1.waiting,
        (∃ n, c = .writing i fd data n) ∧ c.Stuck (resumeWrite i fd data written s).2 := by
  unfold resumeWrite
  split
  next hclosed =>
    refine ⟨.of_same hsize rfl (.refl _ _ _), ⟨fun h => absurd rfl h, fun h => ?_⟩, ?_⟩
    · exact absurd h.1 (by simp [hclosed])
    · simp [Outcome.waiting]
  next hopen =>
    have hreader : (s.pipes i).readerOpen = true := by simpa using hopen
    have chunk : Fills p i s (writeChunk i fd data written s).2 := fills_writeChunk p hsize
    have rest := @fills_writeLoop p i fd data (writeChunk i fd data written s).1
      (writeChunk i fd data written s).2 (data.length + 1) (chunk.calms.unique unique)
      (by rw [chunk.calms.current, hp]) chunk.dataSize_le
    refine ⟨chunk.trans rest, ?_, fun c hc => stuck_writeLoop ?_ hc⟩
    · constructor
      · refine fun hchanged => ⟨hreader, fun hfull => hchanged ?_⟩
        have hsame := (@idle_writeChunk i fd s data written hfull).pipe_eq
        have hfull' : ((writeChunk i fd data written s).2.pipes i).dataSize
            = PIPE_BUFFER_SIZE := by rw [hsame, hfull]
        dsimp only
        rw [(idle_writeLoop hfull').pipe_eq, hsame]
      · rintro ⟨-, hroom⟩
        have hmore := @writeChunk_changed i fd data written s hsize hleft hroom
        have hrest := rest.le_dataSize
        dsimp only
        omega
    · have same := (through_writeChunk i fd data written s).identity_eq i
      rw [(identity_eq_iff.mp same).2.1, hreader]

theorem wakes_resume_writing_iff {i : PipeSlot} {fd : Nat} {data : List UInt8} {written : Nat}
    (inv : Inv ⟨s, w⟩) (hp : Process.getCurrentProcess s.kernel = some p)
    (hcall : w p = some (.writing i fd data written)) :
    Wakes ⟨s, w⟩ (.resume p) ↔ Settled p ⟨s, w⟩ (resumeWrite i fd data written s).2 := by
  obtain ⟨fills, hchanged, -⟩ := @resumeWrite_cases p s i fd data written inv.unique hp
    (inv.dataSize_le i) (inv.pending p _ hcall)
  have hne : ∀ q, AsleepReader ⟨s, w⟩ i q → q ≠ p := by
    rintro q ⟨fd', current, count, hq, -⟩ rfl
    cases hcall.symm.trans hq
  rw [settled_fills inv.awake fills (through_resume (.writing i fd data written) s) hne, hchanged]
  constructor
  · exact fun wakes h => wakes.stored i ⟨fd, data, written, hcall, h⟩
  · refine fun h => ⟨?_, ?_, fun _ h => h.elim, fun _ h => h.elim, fun _ h => h.elim⟩
    · rintro j ⟨fd', data', written', hj, hmoves⟩
      cases hcall.symm.trans hj
      exact h hmoves
    · rintro j ⟨fd', current, count, hj, -⟩
      cases hcall.symm.trans hj

/-! ### Steps -/

/-- A call that process `p` begins to wait in. -/
structure WaitsIn (p : Slot) (t : State) (c : Call) : Prop where
  stuck : c.Stuck t
  pending : c.Pending
  own : ∀ i fd current count, c = .reading i fd current count → current = p

theorem call_spec {s' : State} {op : Pipe.Op} {new : List Call} (inv : Inv ⟨s, w⟩)
    (hp : w p = none) (hcurrent : Process.getCurrentProcess s.kernel = some p)
    (hop : ∀ k, op ≠ .kernel k) (step : Pipe.Step ⟨s, []⟩ op ⟨s', new⟩) :
    (Wakes ⟨s, w⟩ (.call p op) ↔ Settled p ⟨s, w⟩ s') ∧ Process.UniquePids s'.kernel ∧
      ∀ c ∈ new, WaitsIn p s' c := by
  have hunique := inv.unique
  generalize hstart : (⟨s, []⟩ : System) = start at step
  generalize hend : (⟨s', new⟩ : System) = finish at step
  cases step <;> simp only [System.mk.injEq] at hstart hend <;>
    obtain ⟨rfl, hw⟩ := hstart <;> obtain ⟨rfl, rfl⟩ := hend
  case pipeCreate =>
    refine ⟨wakes_pipeCreate_iff inv hp, ?_, by simp [← hw]⟩
    rcases pipeCreate_cases s with ⟨-, hsame⟩ | ⟨i, -, creates⟩
    · rwa [hsame]
    · rwa [creates.kernel_eq]
  case pipeClose fd =>
    refine ⟨wakes_pipeClose_iff inv hp, ?_, by simp [← hw]⟩
    unfold pipeClose
    split <;> exact hunique
  case pipeSetFlags fd flags =>
    obtain ⟨wakes, settled⟩ := @wakes_pipeSetFlags p s w inv fd flags
    refine ⟨iff_of_true wakes settled, ?_, by simp [← hw]⟩
    unfold pipeSetFlags
    split <;> exact hunique
  case pipeRead fd count =>
    rw [← hw, List.append_nil]
    refine ⟨wakes_pipeRead_iff inv hp hcurrent, ?_⟩
    rcases @pipeRead_cases p fd count s hunique hcurrent inv.dataSize_le with
      ⟨hsame, hnone, -⟩ | ⟨i, -, drains, -, -, hwaiting⟩
    · rw [hsame, hnone]
      exact ⟨hunique, by simp⟩
    · refine ⟨drains.calms.unique hunique, fun c hc => ?_⟩
      obtain ⟨rfl, hstuck⟩ := hwaiting c hc
      exact ⟨hstuck, trivial, fun _ _ _ _ h => by cases h; rfl⟩
  case pipeWrite fd data =>
    rw [← hw, List.append_nil]
    refine ⟨wakes_pipeWrite_iff inv hp hcurrent, ?_⟩
    rcases @pipeWrite_cases p fd data s hunique hcurrent inv.dataSize_le with
      ⟨hsame, hnone, -⟩ | ⟨i, -, fills, -, -, hwaiting⟩
    · rw [hsame, hnone]
      exact ⟨hunique, by simp⟩
    · refine ⟨fills.calms.unique hunique, fun c hc => ?_⟩
      obtain ⟨on, ⟨n, rfl⟩, hstuck⟩ := hwaiting c hc
      exact ⟨hstuck, on.pending, fun _ _ _ _ h => by cases h⟩
  case resume => exact absurd hw.symm (by simp)
  case kernel k => exact absurd rfl (hop k)

theorem resume_spec {call : Call} (inv : Inv ⟨s, w⟩)
    (hcurrent : Process.getCurrentProcess s.kernel = some p) (hcall : w p = some call) :
    (Wakes ⟨s, w⟩ (.resume p) ↔ Settled p ⟨s, w⟩ (call.resume s).2) ∧
      Process.UniquePids (call.resume s).2.kernel ∧
      ∀ c ∈ (call.resume s).1.waiting, WaitsIn p (call.resume s).2 c := by
  have hpid := getCurrentProcess_pid hcurrent
  cases call with
  | reading i fd current count =>
      have hp := inv.own p i fd current count hcall
      subst hp
      have drains : Drains current i s (waitToRead i fd current count s).2 :=
        drains_waitToRead inv.unique hpid (inv.dataSize_le i)
      refine ⟨wakes_resume_reading_iff inv hpid hcall, drains.calms.unique inv.unique,
        fun c hc => ?_⟩
      obtain ⟨rfl, hstuck⟩ := stuck_waitToRead hc
      exact ⟨hstuck, trivial, fun _ _ _ _ h => by cases h; rfl⟩
  | writing i fd data written =>
      obtain ⟨fills, -, hwaiting⟩ := @resumeWrite_cases p s i fd data written inv.unique hcurrent
        (inv.dataSize_le i) (inv.pending p _ hcall)
      refine ⟨wakes_resume_writing_iff inv hcurrent hcall, fills.calms.unique inv.unique,
        fun c hc => ?_⟩
      have on := resume_waiting hc
      obtain ⟨⟨n, rfl⟩, hstuck⟩ := hwaiting c hc
      exact ⟨hstuck, on.pending, fun _ _ _ _ h => by cases h⟩

end Call

/-- What holds of every call, and of those that process `p` begins to wait in, holds of
the calls after a step of `p`. -/
theorem forall_update {p : Slot} {w : Slot → Option Call} {new : List Call}
    {P : Slot → Call → Prop} (hold : ∀ q c, w q = some c → P q c) (hnew : ∀ c ∈ new, P p c)
    (q : Slot) (c : Call) (h : Function.update w p new.head? q = some c) : P q c := by
  by_cases hq : q = p
  · subst hq
    rw [Function.update_self] at h
    exact hnew c (List.mem_of_mem_head? h)
  · rw [Function.update_of_ne hq] at h
    exact hold q c h

theorem Inv.step {s s' : Users} {op : Op} (inv : Inv s) (step : Step s op s') :
    (s.Wakes op ↔ s'.NoLostWakeup) ∧ (s.Wakes op → Inv s') := by
  cases step with
  | @call s s' w p op new hcurrent hp hop h =>
      obtain ⟨hiff, hunique, hnew⟩ := call_spec inv hp hcurrent hop h
      have hawake := @noLostWakeup_update p ⟨s, w⟩ s' new.head? fun c hc =>
        (hnew c (List.mem_of_mem_head? hc)).stuck
      refine ⟨hiff.trans hawake.symm, fun wakes => ⟨fun i => ?_, hunique, ?_, ?_,
        hawake.mpr (hiff.mp wakes)⟩⟩
      · obtain ⟨f, hf⟩ := inv.refines i
        obtain ⟨f', -, hf'⟩ := h.flows.steps i f hf
        exact ⟨f', hf'⟩
      · exact fun q i fd current count hq => forall_update (P := fun q c =>
          ∀ i fd current count, c = .reading i fd current count → current = q)
          (fun q c hc i fd current count h => inv.own q i fd current count (h ▸ hc))
          (fun c hc => (hnew c hc).own) q _ hq i fd current count rfl
      · exact forall_update (P := fun _ c => c.Pending) inv.pending
          fun c hc => (hnew c hc).pending
  | @resume s w p call hcurrent hcall =>
      obtain ⟨hiff, hunique, hnew⟩ := resume_spec inv hcurrent hcall
      have hawake := @noLostWakeup_update p ⟨s, w⟩ (call.resume s).2
        (call.resume s).1.waiting.head? fun c hc => (hnew c (List.mem_of_mem_head? hc)).stuck
      refine ⟨hiff.trans hawake.symm, fun wakes => ⟨fun i => ?_, hunique, ?_, ?_,
        hawake.mpr (hiff.mp wakes)⟩⟩
      · obtain ⟨f, hf⟩ := inv.refines i
        obtain ⟨f', -, hf'⟩ := (flows_resume call s).steps i f hf
        exact ⟨f', hf'⟩
      · exact fun q i fd current count hq => forall_update (P := fun q c =>
          ∀ i fd current count, c = .reading i fd current count → current = q)
          (fun q c hc i fd current count h => inv.own q i fd current count (h ▸ hc))
          (fun c hc => (hnew c hc).own) q _ hq i fd current count rfl
      · exact forall_update (P := fun _ c => c.Pending) inv.pending
          fun c hc => (hnew c hc).pending
  | @kernel s w w' k env =>
      have hold : ∀ q c, w' q = some c → w q = some c := fun q c hc => by
        rcases env.suspended q with hsame | hnone
        · rw [← hsame, hc]
        · rw [hnone] at hc
          cases hc
      have awake : NoLostWakeup ⟨{ s with kernel := k }, w'⟩ := by
        rintro q c ⟨hc, hblocked⟩
        have hw : w' q ≠ none := by
          dsimp only at hc
          rw [hc]
          exact Option.some_ne_none c
        have hstuck := inv.awake q c ⟨hold q c hc, env.blocked q hw hblocked⟩
        cases c <;> exact hstuck
      refine ⟨iff_of_true (wakes_kernel _) awake,
        fun _ => ⟨fun i => ?_, env.unique inv.unique, ?_, ?_, awake⟩⟩
      · obtain ⟨f, hf⟩ := inv.refines i
        exact ⟨f, hf.congr rfl rfl rfl⟩
      · exact fun q i fd current count hq => inv.own q i fd current count (hold q _ hq)
      · exact fun q c hc => inv.pending q c (hold q c hc)

end Users

/-- In a run in which every step that ends what a sleeping process waits for wakes it, no
process sleeps on; and the next step keeps it so exactly if it, too, wakes whom it
must. -/
theorem waiters_are_woken {kernel : Process.State} (unique : Process.UniquePids kernel)
    {ops : List Users.Op} {s : Users}
    (run : Run (fun s op s' => Users.Step s op s' ∧ s.Wakes op)
      ⟨pipeInit kernel, fun _ => none⟩ ops s) :
    s.NoLostWakeup ∧ ∀ op s', Users.Step s op s' → (s.Wakes op ↔ s'.NoLostWakeup) := by
  have start : Users.Inv ⟨pipeInit kernel, fun _ => none⟩ := by
    refine ⟨fun i => ⟨_, refines_pipeInit kernel i⟩, unique, ?_, ?_, ?_⟩
    · simp
    · simp
    · rintro q c ⟨hc, -⟩
      cases hc
  have inv : s.Inv := run.invariant (fun inv step => (inv.step step.1).2 step.2) start
  exact ⟨inv.awake, fun op s' step => (inv.step step).1⟩

/-! ### A parent and its child -/

/-- The kernel after a call of `schedule`. -/
def scheduled (kernel : Process.State) : Process.State := (Process.schedule 10 kernel).getD kernel

theorem environment_scheduled {kernel : Process.State} (w : Slot → Option Call)
    (h : (Process.schedule 10 kernel).isSome = true) :
    Users.Environment kernel (scheduled kernel) w w := by
  obtain ⟨k, hk⟩ := Option.isSome_iff_exists.mp h
  have hscheduled : scheduled kernel = k := by rw [scheduled, hk, Option.getD_some]
  rw [hscheduled]
  exact Users.environment_of_step (.schedule hk) (fun _ => by simp) w

/-- The parent creates a pipe, its child waits for a byte to read, and the parent is
current again. -/
def childWaits : State :=
  let s := (pipeCreate (pipeInit Process.initAndChild)).2.2
  let s := (pipeRead 9 1 { s with kernel := scheduled s.kernel }).2
  { s with kernel := scheduled s.kernel }

/-- The calls that wait then. -/
def childsCall : Slot → Option Call :=
  Function.update (fun _ => none) 1 (some (.reading 0 9 1 1))

theorem run_childWaits :
    Run (fun s op s' => Users.Step s op s' ∧ s.Wakes op)
      ⟨pipeInit Process.initAndChild, fun _ => none⟩
      [.call 0 .pipeCreate, .kernel, .call 1 (.pipeRead 9 1), .kernel] ⟨childWaits, childsCall⟩ := by
  have create := @Users.Step.call (pipeInit Process.initAndChild)
    (pipeCreate (pipeInit Process.initAndChild)).2.2 (fun _ => none) 0 .pipeCreate []
    (by decide +kernel) rfl (fun _ => by simp) .pipeCreate
  have hnone : Function.update (fun _ : Slot => (none : Option Call)) 0 [].head? = fun _ => none :=
    Function.update_eq_self _ _
  rw [hnone] at create
  generalize hs : (pipeCreate (pipeInit Process.initAndChild)).2.2 = s at create
  have switch := @Users.Step.kernel s (fun _ => none) (fun _ => none) (scheduled s.kernel)
    (environment_scheduled _ (by rw [← hs]; decide +kernel))
  generalize hs' : ({ s with kernel := scheduled s.kernel } : State) = s' at switch
  have hcall : (pipeRead 9 1 s').1.waiting ++ [] = [.reading 0 9 1 1] := by
    rw [← hs', ← hs]
    decide +kernel
  have step := @Pipe.Step.pipeRead s' [] 9 1
  rw [hcall] at step
  have read := @Users.Step.call s' (pipeRead 9 1 s').2 (fun _ => none) 1 (.pipeRead 9 1)
    [.reading 0 9 1 1] (by rw [← hs', ← hs]; decide +kernel) rfl (fun _ => by simp) step
  have back := @Users.Step.kernel (pipeRead 9 1 s').2 childsCall childsCall
    (scheduled (pipeRead 9 1 s').2.kernel)
    (environment_scheduled _ (by rw [← hs', ← hs]; decide +kernel))
  have hend : childWaits = { (pipeRead 9 1 s').2 with
      kernel := scheduled (pipeRead 9 1 s').2.kernel } := by
    rw [← hs', ← hs]
    rfl
  rw [hend]
  exact .cons ⟨create, Users.wakes_of_none fun _ => rfl⟩ (.cons ⟨switch, Users.wakes_kernel _⟩
    (.cons ⟨read, Users.wakes_of_none fun _ => rfl⟩ (.single ⟨back, Users.wakes_kernel _⟩)))

theorem waiters_are_woken_childWaits :
    Users.Asleep ⟨childWaits, childsCall⟩ 1 (.reading 0 9 1 1) ∧
      (Call.reading 0 9 1 1).Stuck childWaits := by
  have hasleep : Users.Asleep ⟨childWaits, childsCall⟩ 1 (.reading 0 9 1 1) :=
    ⟨rfl, by decide +kernel⟩
  exact ⟨hasleep,
    (waiters_are_woken Process.wellFormed_initAndChild.uniquePids run_childWaits).1 1 _ hasleep⟩

/-- The parent writes a byte, which wakes the parent, and the child sleeps on. -/
theorem child_is_not_woken :
    ∃ ops s, Run Users.Step ⟨pipeInit Process.initAndChild, fun _ => none⟩ ops s ∧
      s.Asleep 1 (.reading 0 9 1 1) ∧ (s.state.pipes 0).dataSize = 1 ∧ ¬ s.NoLostWakeup := by
  have waits : Run Users.Step _ _ _ := run_childWaits.mono fun step => step.1
  have write := @Users.Step.call childWaits (pipeWrite 10 [7] childWaits).2 childsCall 0
    (.pipeWrite 10 [7]) ((pipeWrite 10 [7] childWaits).1.waiting ++ []) (by decide +kernel) rfl
    (fun _ => by simp) .pipeWrite
  have hdata : ((pipeWrite 10 [7] childWaits).2.pipes 0).dataSize = 1 := by decide +kernel
  have hasleep : Users.Asleep ⟨(pipeWrite 10 [7] childWaits).2, Function.update childsCall 0
      ((pipeWrite 10 [7] childWaits).1.waiting ++ []).head?⟩ 1 (.reading 0 9 1 1) :=
    ⟨rfl, by decide +kernel⟩
  refine ⟨_, _, waits.append (.single write), hasleep, hdata, fun awake => ?_⟩
  have hempty := (awake 1 _ hasleep).1
  rw [hdata] at hempty
  cases hempty

end Curnel.Pipe
