/-
process.h and the parts of process.c that do not enter the scheduler.

The process table has 64 slots; a slot whose `pid` is zero is unused. The C code
finds a process by walking the table to the first slot with its PID, `getProcess`
here. Pointers to a `process_t` are slots. What the model leaves out: names,
registers, file descriptors and the messages on the terminal, which no function
modelled here reads.

`log` is no variable of the code. It records, in order, the calls to signal
handlers, with the mask in force, the blocks given back to the heap, and the
exits.
-/

import Mathlib.Data.BitVec
import Mathlib.Data.List.FinRange
import Mathlib.Logic.Function.Basic
import Curnel.Memory

namespace Curnel

abbrev MAX_PROCESSES : Nat := 64
abbrev MAX_SIGNALS : Nat := 32

instance : NeZero MAX_PROCESSES := ⟨by decide⟩

instance : NeZero MAX_SIGNALS := ⟨by decide⟩

/-- A place in the process table. -/
abbrev Slot := Fin MAX_PROCESSES

inductive ProcessState where
  | ready
  | running
  | blocked
  | sleeping
  | zombie
  | stopped
deriving DecidableEq, Repr

abbrev SigSet := BitVec 64

structure SignalAction where
  handler : Nat
  flags : Nat
  mask : SigSet
deriving DecidableEq

structure Process where
  pid : Nat
  parentPid : Nat
  state : ProcessState
  stack : Nat
  sleepUntil : Nat
  cpuTime : Nat
  pendingSignals : SigSet
  blockedSignals : SigSet
  signalActions : Fin MAX_SIGNALS → SignalAction
  signalStack : Nat
  handlingSignal : Bool
  exitSignal : Int
  processGroup : Nat
  sessionId : Nat

namespace Process

inductive Event where
  /-- `handler(signum)` is called for the process in a slot, whose mask is `blocked`. -/
  | handlerCalled (slot : Slot) (signum handler : Nat) (blocked : SigSet)
  | kfree (ptr : Nat)
  /-- `exit_process` makes the process in a slot a zombie. -/
  | exited (slot : Slot)
deriving DecidableEq

/-- The static variables of `process.c`, `signals.c` and `timer.c`. -/
structure State where
  processes : Slot → Process
  currentProcessIndex : Slot
  signalHandlingEnabled : Bool
  timerTicks : Nat
  timerFrequency : Nat
  log : List Event

/-! ### The process table -/

/-- Change the process in a slot. -/
def State.modify (s : State) (i : Slot) (f : Process → Process) : State :=
  { s with processes := Function.update s.processes i (f (s.processes i)) }

def State.setState (s : State) (i : Slot) (v : ProcessState) : State :=
  s.modify i fun p => { p with state := v }

def State.emit (s : State) (e : Event) : State := { s with log := s.log ++ [e] }

/-- The first slot with a PID. -/
def getProcess (pid : Nat) (s : State) : Option Slot :=
  (List.finRange MAX_PROCESSES).find? fun i => (s.processes i).pid == pid

def getCurrentProcess (s : State) : Option Slot :=
  if (s.processes s.currentProcessIndex).pid ≠ 0 then some s.currentProcessIndex else none

/-! ### Operations that write one process -/

def switchToProcess (pid : Nat) (s : State) : State :=
  match getProcess pid s with
  | none => s
  | some i =>
      { s.modify i fun p => { p with state := .running, cpuTime := Lib.Word.wadd 64 p.cpuTime 1 } with
        currentProcessIndex := i }

def blockProcess (pid : Nat) (s : State) : State :=
  match getProcess pid s with
  | none => s
  | some i => s.setState i .blocked

def unblockProcess (pid : Nat) (s : State) : State :=
  match getProcess pid s with
  | none => s
  | some i => if (s.processes i).state = .blocked then s.setState i .ready else s

def continueProcess (pid : Nat) (s : State) : State :=
  match getProcess pid s with
  | none => s
  | some i => if (s.processes i).state = .stopped then s.setState i .ready else s

/-! ### The search of `schedule` -/

/-- Is the process in a slot `READY` or `RUNNING`? -/
def runnable (s : State) (i : Slot) : Prop :=
  (s.processes i).pid ≠ 0 ∧
    ((s.processes i).state = .ready ∨ (s.processes i).state = .running)

instance (s : State) (i : Slot) : Decidable (runnable s i) :=
  inferInstanceAs (Decidable (_ ∧ _))

/-- The loop of `schedule` with `n` slots to go: how many slots it has checked,
and the index it ends at. -/
def scheduleSearch (s : State) : Nat → Nat → Slot → Nat × Slot
  | 0, checked, index => (checked, index)
  | n + 1, checked, index =>
      if runnable s (index + 1) then (checked + 1, index + 1)
      else scheduleSearch s n (checked + 1) (index + 1)

/-- The slot that `schedule` selects. A search that has checked all the slots
counts as one that found none, even if it stopped at the last. -/
def nextRunnable (s : State) : Option Slot :=
  let (checked, index) := scheduleSearch s MAX_PROCESSES 0 s.currentProcessIndex
  if checked = MAX_PROCESSES then none else some index

/-! ### Looking up the table -/

@[simp] theorem modify_same (s : State) (i : Slot) (f : Process → Process) :
    (s.modify i f).processes i = f (s.processes i) := by
  simp [State.modify]

@[simp] theorem modify_other {s : State} {i j : Slot} (f : Process → Process) (h : j ≠ i) :
    (s.modify i f).processes j = s.processes j := by
  simp [State.modify, h]

/-- What does not depend on the process in slot `i` changed is the same for all. -/
theorem modify_congr {α : Type} (g : Process → α) {s : State} {i : Slot} {f : Process → Process}
    (h : g (f (s.processes i)) = g (s.processes i)) (j : Slot) :
    g ((s.modify i f).processes j) = g (s.processes j) := by
  by_cases hj : j = i
  · rw [hj, modify_same, h]
  · rw [modify_other f hj]

theorem getProcess_pid {pid : Nat} {s : State} {i : Slot} (h : getProcess pid s = some i) :
    (s.processes i).pid = pid := by
  have := List.find?_some h
  simpa using this

theorem getProcess_eq_none {pid : Nat} {s : State} :
    getProcess pid s = none ↔ ∀ i, (s.processes i).pid ≠ pid := by
  simp [getProcess]

/-- No two processes share a PID. -/
def UniquePids (s : State) : Prop :=
  ∀ i j, (s.processes i).pid ≠ 0 → (s.processes i).pid = (s.processes j).pid → i = j

/-- With unique PIDs, a process is found where it is. -/
theorem getProcess_of_pid {s : State} (unique : UniquePids s) {i : Slot}
    (h : (s.processes i).pid ≠ 0) : getProcess (s.processes i).pid s = some i := by
  cases hfind : getProcess (s.processes i).pid s with
  | none => exact absurd rfl (getProcess_eq_none.mp hfind i)
  | some j => rw [unique i j h (getProcess_pid hfind).symm]

theorem getProcess_congr {s s' : State} (h : ∀ i, (s'.processes i).pid = (s.processes i).pid)
    (pid : Nat) : getProcess pid s' = getProcess pid s := by
  simp only [getProcess, h]

theorem scheduleSearch_runnable {s : State} {n checked : Nat} {index : Slot}
    (h : (scheduleSearch s n checked index).1 < checked + n) :
    runnable s (scheduleSearch s n checked index).2 := by
  induction n generalizing checked index with
  | zero => exact absurd h (Nat.lt_irrefl _)
  | succ n ih =>
      rw [scheduleSearch] at h ⊢
      split at h
      next hrun =>
        rw [if_pos hrun]
        exact hrun
      next hrun =>
        rw [if_neg hrun]
        exact ih (by omega)

theorem scheduleSearch_le (s : State) (n checked : Nat) (index : Slot) :
    (scheduleSearch s n checked index).1 ≤ checked + n := by
  induction n generalizing checked index with
  | zero => exact Nat.le_refl _
  | succ n ih =>
      rw [scheduleSearch]
      split
      · simp only
        omega
      · have := ih (checked + 1) (index + 1)
        omega

/-- The slot that `schedule` selects is runnable. -/
theorem runnable_of_nextRunnable {s : State} {i : Slot} (h : nextRunnable s = some i) :
    runnable s i := by
  have hle := scheduleSearch_le s MAX_PROCESSES 0 s.currentProcessIndex
  simp only [nextRunnable] at h
  split at h
  next => cases h
  next hne =>
    cases h
    exact scheduleSearch_runnable (lt_of_le_of_ne hle (by simpa using hne))

end Process

end Curnel
