/-
create_process and sys_fork.

A process is created in the first slot whose PID is zero, with the next number as
its PID. No call gives a slot back, so slot `i` only ever holds PID `i + 1`, and
the slots in use come first (`Numbered`); PIDs are unique and the next one is
unused in every table that the kernel reaches.

`Record` is what the scheduler never looks at: it is written when a process is
created. The block that `kmalloc` returned for the stack is an argument.
-/

import Curnel.Process.Steps
import Curnel.Lib.Run

namespace Curnel.Process

open Lib Word

/-! ### The process table -/

/-- `registers_t`. -/
structure Registers where
  rax : Nat := 0
  rbx : Nat := 0
  rcx : Nat := 0
  rdx : Nat := 0
  rsi : Nat := 0
  rdi : Nat := 0
  rbp : Nat := 0
  rsp : Nat := 0
  r8 : Nat := 0
  r9 : Nat := 0
  r10 : Nat := 0
  r11 : Nat := 0
  r12 : Nat := 0
  r13 : Nat := 0
  r14 : Nat := 0
  r15 : Nat := 0
  rip : Nat := 0
  rflags : Nat := 0
  cs : Nat := 0
  ss : Nat := 0
  ds : Nat := 0
  es : Nat := 0
  fs : Nat := 0
  gs : Nat := 0
  cr3 : Nat := 0
deriving DecidableEq

/-- The rest of a `process_t`. The name is the characters before the terminator. -/
structure Record where
  name : List UInt8
  registers : Registers
  pageDirectory : Nat
  stackSize : Nat
  startTime : Nat
  fileDescriptors : Fin 16 → Nat
  tty : Nat

/-- The static variables of `process.c`, with both parts of each process. -/
structure Table where
  kernel : State
  records : Slot → Record
  nextPid : Nat

/-- A slot after `memset(processes, 0, sizeof(processes))`. -/
def emptyProcess : Process :=
  { pid := 0, parentPid := 0, state := .ready, stack := NULL, sleepUntil := 0, cpuTime := 0
    pendingSignals := 0, blockedSignals := 0, signalActions := fun _ => ⟨SIG_DFL, 0, 0⟩
    signalStack := NULL, handlingSignal := false, exitSignal := 0, processGroup := 0
    sessionId := 0 }

def emptyRecord : Record :=
  { name := [], registers := {}, pageDirectory := 0, stackSize := 0, startTime := 0
    fileDescriptors := fun _ => 0, tty := 0 }

def initProcesses (t : Table) : Table :=
  { t with kernel := { t.kernel with processes := fun _ => emptyProcess }
           records := fun _ => emptyRecord }

/-- The table before the first process, for any state of the signals and the timer. -/
def Table.start (signalHandlingEnabled : Bool) (timerTicks timerFrequency : Nat) : Table :=
  initProcesses
    { kernel :=
        { processes := fun _ => emptyProcess, currentProcessIndex := 0
          signalHandlingEnabled, timerTicks, timerFrequency, log := [] }
      records := fun _ => emptyRecord
      nextPid := 1 }

/-! ### The operations -/

/-- At most 31 characters, up to the terminator. -/
def copyName (name : List UInt8) : List UInt8 := (name.take 31).takeWhile (· ≠ 0)

/-- The standard descriptors, and 0 in the other entries. -/
def standardDescriptors (fd : Fin 16) : Nat := if fd = 1 then 1 else if fd = 2 then 2 else 0

/-- What `create_process` writes to a slot. The wake-up time and the signal stack stay. -/
def newProcess (pid parentPid stack : Nat) (old : Process) : Process :=
  { old with
    pid, parentPid, stack
    state := .ready
    cpuTime := 0
    pendingSignals := 0
    blockedSignals := 0
    handlingSignal := false
    exitSignal := 0
    signalActions := fun _ => ⟨SIG_DFL, 0, 0⟩
    processGroup := pid
    sessionId := pid }

/-- The page directory stays what the slot held. -/
def newRecord (name : List UInt8) (entryPoint stack startTime : Nat) (old : Record) : Record :=
  { old with
    name := copyName name
    registers := { rip := entryPoint, rsp := wadd 64 stack 4096 }
    stackSize := 4096
    startTime
    fileDescriptors := standardDescriptors
    tty := 0 }

/-- A process created in slot `i`. -/
def Table.created (i : Slot) (name : List UInt8) (entryPoint parentPid stack : Nat) (t : Table) :
    Table where
  kernel := t.kernel.modify i (newProcess t.nextPid parentPid stack)
  records := Function.update t.records i
    (newRecord name entryPoint stack t.kernel.timerTicks (t.records i))
  nextPid := wadd 64 t.nextPid 1

def createProcess (name : List UInt8) (entryPoint parentPid stack : Nat) (t : Table) :
    Nat × Table :=
  match getProcess 0 t.kernel with
  | none => (0, t)
  | some i => (t.nextPid, t.created i name entryPoint parentPid stack)

/-- What `sys_fork` copies of the signals. -/
def inheritSignals (parent child : Process) : Process :=
  { child with
    pendingSignals := parent.pendingSignals
    blockedSignals := parent.blockedSignals
    signalActions := parent.signalActions }

/-- What `sys_fork` copies of the registers. -/
def inheritRegisters (parent child : Record) : Record :=
  { child with registers := { parent.registers with rax := 0 } }

def sysFork (stack : Nat) (t : Table) : Nat × Table :=
  match getCurrentProcess t.kernel with
  | none => (ofInt (-1), t)
  | some current =>
      let out := createProcess (t.records current).name 0 (t.kernel.processes current).pid stack t
      let u := out.2
      if out.1 = 0 then (ofInt (-1), u)
      else
        match getProcess out.1 u.kernel with
        | none => (ofInt (-1), u)
        | some child =>
            (out.1,
              { u with
                kernel := u.kernel.modify child (inheritSignals (u.kernel.processes current))
                records := Function.update u.records child
                  (inheritRegisters (u.records current) (u.records child)) })

/-! ### The next PID is unused -/

structure Table.Fresh (t : Table) : Prop where
  ne_zero : t.nextPid ≠ 0
  unused : ∀ i, (t.kernel.processes i).pid ≠ t.nextPid

/-- The table after a fork of the process in slot `current` into slot `child`. -/
def Table.forked (current child : Slot) (stack : Nat) (t : Table) : Table where
  kernel := t.kernel.modify child fun old =>
    inheritSignals (t.kernel.processes current)
      (newProcess t.nextPid (t.kernel.processes current).pid stack old)
  records := Function.update t.records child
    (inheritRegisters (t.records current)
      (newRecord (t.records current).name 0 stack t.kernel.timerTicks (t.records child)))
  nextPid := wadd 64 t.nextPid 1

theorem getCurrentProcess_live {s : State} {i : Slot} (h : getCurrentProcess s = some i) :
    (s.processes i).pid ≠ 0 := by
  unfold getCurrentProcess at h
  split at h
  next hlive =>
    cases h
    exact hlive
  next => cases h

theorem getCurrentProcess_index {s : State} {i : Slot} (h : getCurrentProcess s = some i) :
    i = s.currentProcessIndex := by
  unfold getCurrentProcess at h
  split at h
  · exact (Option.some.inj h).symm
  · cases h

theorem modify_modify (s : State) (i : Slot) (f g : Process → Process) :
    (s.modify i f).modify i g = s.modify i fun p => g (f p) := by
  simp only [State.modify, Function.update_self, Function.update_idem]

/-- The process created is found under its PID. -/
theorem getProcess_created {t : Table} (fresh : t.Fresh) (i : Slot) (name : List UInt8)
    (entryPoint parentPid stack : Nat) :
    getProcess t.nextPid (t.created i name entryPoint parentPid stack).kernel = some i := by
  have hpid : ((t.created i name entryPoint parentPid stack).kernel.processes i).pid
      = t.nextPid := by
    simp only [Table.created, modify_same, newProcess]
  cases hfind : getProcess t.nextPid (t.created i name entryPoint parentPid stack).kernel with
  | none => exact absurd hpid (getProcess_eq_none.mp hfind i)
  | some j =>
      by_cases hj : j = i
      · rw [hj]
      · have hfound := getProcess_pid hfind
        simp only [Table.created] at hfound
        rw [modify_other _ hj] at hfound
        exact absurd hfound (fresh.unused j)

/-- `sys_fork` fails and changes nothing, or forks the current process into the first free
slot. -/
theorem sysFork_cases {t : Table} (fresh : t.Fresh) (stack : Nat) :
    (getCurrentProcess t.kernel = none ∨ getProcess 0 t.kernel = none) ∧
        sysFork stack t = (ofInt (-1), t) ∨
      ∃ current child, getCurrentProcess t.kernel = some current ∧
        getProcess 0 t.kernel = some child ∧ current ≠ child ∧
        sysFork stack t = (t.nextPid, t.forked current child stack) := by
  unfold sysFork
  cases hcurrent : getCurrentProcess t.kernel with
  | none => exact Or.inl ⟨Or.inl rfl, rfl⟩
  | some current =>
      dsimp only
      unfold createProcess
      cases hfree : getProcess 0 t.kernel with
      | none => exact Or.inl ⟨Or.inr rfl, rfl⟩
      | some child =>
          have hne : current ≠ child := by
            rintro rfl
            exact getCurrentProcess_live hcurrent (getProcess_pid hfree)
          refine Or.inr ⟨current, child, rfl, rfl, hne, ?_⟩
          dsimp only
          rw [if_neg fresh.ne_zero, getProcess_created fresh]
          simp only [Table.created, Table.forked, modify_modify, modify_other _ hne,
            Function.update_self, Function.update_idem, Function.update_of_ne hne]

/-! ### Slots and PIDs -/

/-- Slot `i` holds PID `i + 1` or nothing, and the slots in use come first. -/
structure Numbered (t : Table) : Prop where
  pos : 1 ≤ t.nextPid
  le : t.nextPid ≤ MAX_PROCESSES + 1
  pid : ∀ i : Slot, (t.kernel.processes i).pid = if (i : Nat) + 1 < t.nextPid then (i : Nat) + 1 else 0
  exitSignal : ∀ i, (t.kernel.processes i).exitSignal = 0

namespace Numbered

variable {t : Table} (numbered : Numbered t)
include numbered

theorem live_iff (i : Slot) : (t.kernel.processes i).pid ≠ 0 ↔ (i : Nat) + 1 < t.nextPid := by
  rw [numbered.pid i]
  split
  · exact iff_of_true (by omega) ‹_›
  · exact iff_of_false (by simp) ‹_›

theorem pid_of_live {i : Slot} (h : (t.kernel.processes i).pid ≠ 0) :
    (t.kernel.processes i).pid = (i : Nat) + 1 := by
  rw [numbered.pid i, if_pos ((numbered.live_iff i).mp h)]

theorem wellFormed : WellFormed t.kernel := by
  refine ⟨fun i j hi hij => ?_, numbered.exitSignal⟩
  have hj : (t.kernel.processes j).pid ≠ 0 := hij ▸ hi
  rw [numbered.pid_of_live hi, numbered.pid_of_live hj] at hij
  exact Fin.ext (by omega)

theorem fresh : t.Fresh := by
  refine ⟨Nat.one_le_iff_ne_zero.mp numbered.pos, fun i hi => ?_⟩
  have hlive : (t.kernel.processes i).pid ≠ 0 := by
    rw [hi]
    exact Nat.one_le_iff_ne_zero.mp numbered.pos
  have hlt := (numbered.live_iff i).mp hlive
  rw [numbered.pid_of_live hlive] at hi
  omega

/-- The first free slot is the one after those in use. -/
theorem freeSlot {i : Slot} (h : getProcess 0 t.kernel = some i) : (i : Nat) + 1 = t.nextPid := by
  have hzero := getProcess_pid h
  have hge : ¬ (i : Nat) + 1 < t.nextPid := fun hlt => (numbered.live_iff i).mpr hlt hzero
  by_contra hne
  have hless : t.nextPid - 1 < (i : Nat) := by
    have := numbered.pos
    omega
  have hearlier := List.find?_eq_some_iff_getElem.mp h
  obtain ⟨-, k, hk, hki, hbefore⟩ := hearlier
  have hkval : (i : Nat) = k := by
    rw [← hki, List.getElem_finRange]
    rfl
  have hnone := hbefore (t.nextPid - 1) (by omega)
  rw [List.getElem_finRange] at hnone
  simp only [Bool.not_eq_true', beq_eq_false_iff_ne, ne_eq] at hnone
  apply hnone
  rw [numbered.pid]
  exact if_neg (by
    have := numbered.pos
    simp only [Fin.val_cast]
    omega)

/-- No slot is free when the next PID is past the last one. -/
theorem full_iff : getProcess 0 t.kernel = none ↔ t.nextPid = MAX_PROCESSES + 1 := by
  have hmax : MAX_PROCESSES = 64 := rfl
  rw [getProcess_eq_none]
  constructor
  · intro hfull
    have hlast := (numbered.live_iff (Fin.last 63)).mp (hfull (Fin.last 63))
    have := numbered.le
    simp only [Fin.val_last] at hlast
    omega
  · intro hnext i
    refine (numbered.live_iff i).mpr ?_
    have := i.isLt
    omega

/-- A free slot is filled with the next PID. -/
theorem filled {u : Table} {i : Slot} (hfree : getProcess 0 t.kernel = some i)
    (hnext : u.nextPid = wadd 64 t.nextPid 1)
    (hpid : (u.kernel.processes i).pid = t.nextPid)
    (hexit : (u.kernel.processes i).exitSignal = 0)
    (hother : ∀ j, j ≠ i → u.kernel.processes j = t.kernel.processes j) : Numbered u := by
  have hslot := numbered.freeSlot hfree
  have hi : (i : Nat) < 64 := i.isLt
  have hadd : wadd 64 t.nextPid 1 = t.nextPid + 1 := wadd_of_lt (by omega)
  rw [hadd] at hnext
  refine ⟨by omega, ?_, fun j => ?_, fun j => ?_⟩
  · rw [hnext, ← hslot]
    exact Nat.succ_le_succ hi
  · by_cases hj : j = i
    · rw [hj, hpid, if_pos (by omega), hslot]
    · have hne : (j : Nat) ≠ i := fun heq => hj (Fin.ext heq)
      rw [hother j hj, numbered.pid j]
      by_cases hlt : (j : Nat) + 1 < t.nextPid
      · rw [if_pos hlt, if_pos (by omega)]
      · rw [if_neg hlt, if_neg (by omega)]
  · by_cases hj : j = i
    · rw [hj, hexit]
    · rw [hother j hj, numbered.exitSignal j]

theorem evolves {s : State} (h : Evolves t.kernel s) : Numbered { t with kernel := s } :=
  ⟨numbered.pos, numbered.le, fun i => (h.pid_eq i).trans (numbered.pid i),
    fun i => (h.exitSignal_eq i).trans (numbered.exitSignal i)⟩

theorem created {i : Slot} (hfree : getProcess 0 t.kernel = some i) (name : List UInt8)
    (entryPoint parentPid stack : Nat) :
    Numbered (t.created i name entryPoint parentPid stack) := by
  apply numbered.filled hfree rfl
  · simp only [Table.created, modify_same, newProcess]
  · simp only [Table.created, modify_same, newProcess]
  · intro j hj
    exact modify_other _ hj

theorem createProcess (name : List UInt8) (entryPoint parentPid stack : Nat) :
    Numbered (createProcess name entryPoint parentPid stack t).2 := by
  unfold Process.createProcess
  cases hfree : getProcess 0 t.kernel with
  | none => exact numbered
  | some i => exact numbered.created hfree name entryPoint parentPid stack

theorem sysFork (stack : Nat) : Numbered (sysFork stack t).2 := by
  rcases sysFork_cases numbered.fresh stack with ⟨-, hrun⟩ | ⟨current, child, -, hfree, -, hrun⟩
  · rw [hrun]
    exact numbered
  · rw [hrun]
    have forked : Numbered (t.forked current child stack) := by
      apply numbered.filled hfree rfl
      · simp only [Table.forked, modify_same, inheritSignals, newProcess]
      · simp only [Table.forked, modify_same, inheritSignals, newProcess]
      · intro j hj
        simp only [Table.forked, modify_other _ hj]
    exact forked

end Numbered

theorem numbered_start (enabled : Bool) (ticks frequency : Nat) :
    Numbered (.start enabled ticks frequency) := by
  have hle : 1 ≤ MAX_PROCESSES + 1 := by decide
  refine ⟨le_refl 1, hle, fun i => ?_, fun _ => rfl⟩
  have hnone : ¬ (i : Nat) + 1 < 1 := by omega
  exact (if_neg hnone).symm

/-! ### Steps -/

inductive TableOp where
  | createProcess (name : List UInt8) (entryPoint parentPid stack : Nat)
  | sysFork (stack : Nat)
  | call (op : Op)

inductive TableStep : Table → TableOp → Table → Prop where
  | createProcess {t : Table} {name : List UInt8} {entryPoint parentPid stack : Nat} :
      TableStep t (.createProcess name entryPoint parentPid stack)
        (createProcess name entryPoint parentPid stack t).2
  | sysFork {t : Table} {stack : Nat} : TableStep t (.sysFork stack) (sysFork stack t).2
  | call {t : Table} {s : State} {op : Op} :
      Step t.kernel op s → TableStep t (.call op) { t with kernel := s }

theorem TableStep.numbered {t t' : Table} {op : TableOp} (numbered : Numbered t)
    (step : TableStep t op t') : Numbered t' := by
  cases step with
  | createProcess => exact numbered.createProcess _ _ _ _
  | sysFork => exact numbered.sysFork _
  | call h => exact numbered.evolves h.evolves

/-- The steps of a table, and whatever else the kernel does to the processes, changes of
actions, masks, groups and sessions among it: PIDs and exit signals are written by
`create_process` only, the ticks are counted by `timer_handler`. -/
inductive KernelStep : Table → Option TableOp → Table → Prop where
  | table {t t' : Table} {op : TableOp} : TableStep t op t' → KernelStep t (some op) t'
  | other {t : Table} {s : State} :
      (∀ i, (s.processes i).pid = (t.kernel.processes i).pid) →
      (∀ i, (s.processes i).exitSignal = (t.kernel.processes i).exitSignal) →
      s.timerTicks = t.kernel.timerTicks → s.timerFrequency = t.kernel.timerFrequency →
        KernelStep t none { t with kernel := s }

theorem KernelStep.numbered {t t' : Table} {op : Option TableOp} (numbered : Numbered t)
    (step : KernelStep t op t') : Numbered t' := by
  cases step with
  | table h => exact h.numbered numbered
  | other hpid hexit =>
      exact ⟨numbered.pos, numbered.le, fun i => (hpid i).trans (numbered.pid i),
        fun i => (hexit i).trans (numbered.exitSignal i)⟩

theorem run_numbered {enabled : Bool} {ticks frequency : Nat} {ops : List (Option TableOp)}
    {t : Table} (run : Run KernelStep (.start enabled ticks frequency) ops t) : Numbered t :=
  run.invariant (fun before step => step.numbered before) (numbered_start enabled ticks frequency)

end Curnel.Process
