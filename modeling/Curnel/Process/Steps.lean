/-
The calls that change the process table, as steps.

Each of them leaves PIDs, groups, masks and signal actions alone, and keeps what
is pending until its handler is called (`Step.evolves`). Only `block_process` blocks
a process (`Step.blocksNone`).
-/

import Curnel.Process.Scheduler

namespace Curnel.Process

/-! ### Steps -/

inductive Op where
  | signalSend (i : Slot) (signum : Int)
  | signalHandlePending (i : Slot)
  | schedule
  | exitProcess (pid exitCode : Nat)
  | stopProcess (pid : Nat)
  | continueProcess (pid : Nat)
  | blockProcess (pid : Nat)
  | unblockProcess (pid : Nat)
  | sleepProcess (pid ms : Nat)
  | timerHandler

/-- A call that returns. -/
inductive Step : State → Op → State → Prop where
  | signalSend {fuel : Nat} {i : Slot} {signum : Int} {s : State} {out : Int × State} :
      signalSend fuel i signum s = some out → Step s (.signalSend i signum) out.2
  | signalHandlePending {fuel : Nat} {i : Slot} {s : State} {out : Int × State} :
      signalHandlePending fuel i s = some out → Step s (.signalHandlePending i) out.2
  | schedule {fuel : Nat} {s s' : State} : schedule fuel s = some s' → Step s .schedule s'
  | exitProcess {fuel pid exitCode : Nat} {s s' : State} :
      exitProcess fuel pid exitCode s = some s' → Step s (.exitProcess pid exitCode) s'
  | stopProcess {fuel pid : Nat} {s s' : State} :
      stopProcess fuel pid s = some s' → Step s (.stopProcess pid) s'
  | continueProcess {pid : Nat} {s : State} :
      Step s (.continueProcess pid) (continueProcess pid s)
  | blockProcess {pid : Nat} {s : State} : Step s (.blockProcess pid) (blockProcess pid s)
  | unblockProcess {pid : Nat} {s : State} : Step s (.unblockProcess pid) (unblockProcess pid s)
  | sleepProcess {fuel pid ms : Nat} {s s' : State} :
      sleepProcess fuel pid ms s = some s' → Step s (.sleepProcess pid ms) s'
  | timerHandler {fuel : Nat} {s s' : State} :
      timerHandler fuel s = some s' → Step s .timerHandler s'

/-! ### What the steps do before they enter the scheduler -/

/-- The process in slot `i`, put to sleep. -/
def fallAsleep (i : Slot) (ms : Nat) (s : State) : State :=
  s.modify i fun p =>
    { p with sleepUntil := Lib.Word.wadd 64 s.timerTicks ms, state := .sleeping }

/-- The tick of `timer_handler`, up to its call of `schedule`. -/
def timerTick (s : State) : State :=
  timerLoop MAX_PROCESSES 0 { s with timerTicks := Lib.Word.wadd 64 s.timerTicks 1 }

theorem timerHandler_eq (fuel : Nat) (s : State) :
    timerHandler fuel s =
      if (timerTick s).timerFrequency / 100 = 0 then none
      else if (timerTick s).timerTicks % ((timerTick s).timerFrequency / 100) = 0 then
        schedule fuel (timerTick s)
      else some (timerTick s) := by
  unfold timerHandler timerTick
  rfl

/-- The interrupt counts a tick, and enters the scheduler when the tick is due. -/
theorem timerHandler_cases {fuel : Nat} {s s' : State} (h : timerHandler fuel s = some s') :
    (timerTick s).timerFrequency / 100 ≠ 0 ∧
      ((timerTick s).timerTicks % ((timerTick s).timerFrequency / 100) = 0 ∧
          schedule fuel (timerTick s) = some s' ∨
        (timerTick s).timerTicks % ((timerTick s).timerFrequency / 100) ≠ 0 ∧
          s' = timerTick s) := by
  rw [timerHandler_eq] at h
  by_cases hzero : (timerTick s).timerFrequency / 100 = 0
  · rw [if_pos hzero] at h
    cases h
  rw [if_neg hzero] at h
  refine ⟨hzero, ?_⟩
  by_cases hdue : (timerTick s).timerTicks % ((timerTick s).timerFrequency / 100) = 0
  · rw [if_pos hdue] at h
    exact Or.inl ⟨hdue, h⟩
  · rw [if_neg hdue] at h
    exact Or.inr ⟨hdue, (Option.some.inj h).symm⟩

/-- `sleep_process` of a process that is there enters the scheduler once. -/
theorem sleepProcess_cases {fuel pid ms : Nat} {s s' : State}
    (h : sleepProcess fuel pid ms s = some s') :
    getProcess pid s = none ∧ s' = s ∨
      ∃ i, getProcess pid s = some i ∧ schedule fuel (fallAsleep i ms s) = some s' := by
  unfold sleepProcess at h
  cases hfind : getProcess pid s with
  | none =>
      rw [hfind] at h
      exact Or.inl ⟨rfl, (Option.some.inj h).symm⟩
  | some i =>
      rw [hfind] at h
      exact Or.inr ⟨i, rfl, h⟩

/-- A tick counts, and makes processes ready. -/
theorem timerTick_induct {R : State → State → Prop} (refl : ∀ s, R s s)
    (trans : ∀ {s s' s''}, R s s' → R s' s'' → R s s'')
    (counted : ∀ s n, R s { s with timerTicks := n })
    (ready : ∀ s i, R s (s.setState i .ready)) (s : State) : R s (timerTick s) := by
  have wake : ∀ pid t, R t (timerWake pid t) := by
    intro pid t
    unfold timerWake
    split
    · exact refl t
    split
    · split
      · exact ready t _
      · exact refl t
    · exact refl t
  have loop : ∀ n pid t, R t (timerLoop n pid t) := by
    intro n
    induction n with
    | zero => exact fun _ t => refl t
    | succ n ih => exact fun pid t => trans (wake pid t) (ih (pid + 1) _)
  unfold timerTick
  exact trans (counted s _) (loop MAX_PROCESSES 0 _)

/-! ### Relations kept by the steps -/

section KeptBySteps

variable {R : State → State → Prop} (kept : KeptByCalls R)
include kept

theorem KeptByCalls.unblockProcess (pid : Nat) (s : State) : R s (unblockProcess pid s) := by
  rcases unblockProcess_cases pid s with hout | ⟨i, -, -, hout⟩
  · rw [hout]
    exact kept.refl s
  · rw [hout]
    exact kept.setState s _ .ready (by decide)

theorem KeptByCalls.timerTick (counted : ∀ s n, R s { s with timerTicks := n }) (s : State) :
    R s (timerTick s) :=
  timerTick_induct kept.refl kept.trans counted
    (fun s i => kept.setState s i .ready (by decide)) s

/-- What the calls keep, every step keeps that keeps it before it enters the scheduler. -/
theorem KeptByCalls.step (counted : ∀ s n, R s { s with timerTicks := n })
    (asleep : ∀ s i ms, R s (fallAsleep i ms s)) {s s' : State} {op : Op} (step : Step s op s')
    (blocked : ∀ pid, op = .blockProcess pid → R s (blockProcess pid s)) : R s s' := by
  cases step with
  | signalSend h => exact (kept.calls _).signalSend h
  | signalHandlePending h => exact (kept.calls _).signalHandlePending h
  | schedule h => exact (kept.calls _).schedule h
  | exitProcess h => exact (kept.calls _).exitProcess h
  | stopProcess h => exact (kept.calls _).stopProcess h
  | continueProcess => exact kept.continueProcess _ s
  | blockProcess => exact blocked _ rfl
  | unblockProcess => exact kept.unblockProcess _ s
  | @sleepProcess fuel pid ms _ _ h =>
      rcases sleepProcess_cases h with ⟨-, rfl⟩ | ⟨i, -, hrun⟩
      · exact kept.refl _
      · exact kept.trans (asleep s i ms) ((kept.calls fuel).schedule hrun)
  | @timerHandler fuel _ _ h =>
      rcases (timerHandler_cases h).2 with ⟨-, hrun⟩ | ⟨-, hout⟩
      · exact kept.trans (kept.timerTick counted s) ((kept.calls fuel).schedule hrun)
      · rw [hout]
        exact kept.timerTick counted s

end KeptBySteps

/-! ### What every step leaves alone -/

theorem evolves_timerTick (s : State) : Evolves s (timerTick s) :=
  keptByCalls_evolves.timerTick (fun _ _ => evolves_of_same [] (fun _ => rfl) (fun _ => rfl) rfl
    (by simp)) s

theorem evolves_blockProcess (pid : Nat) (s : State) : Evolves s (blockProcess pid s) := by
  unfold blockProcess
  split
  · exact Evolves.refl s
  · exact evolves_setState s _ _

theorem Step.evolves {s s' : State} {op : Op} (step : Step s op s') : Evolves s s' :=
  keptByCalls_evolves.step
    (fun _ _ => evolves_of_same [] (fun _ => rfl) (fun _ => rfl) rfl (by simp))
    (fun _ _ _ => evolves_modify rfl rfl) step fun pid _ => evolves_blockProcess pid s

/-! ### What no step writes -/

/-- A part of a process that no step writes, whatever else it writes to the process. Only a
process that is there becomes a child of `init`. -/
structure Unwritten {α : Type} (g : Process → α) : Prop where
  state : ∀ p v, g { p with state := v } = g p
  running : ∀ p n, g { p with state := .running, cpuTime := n } = g p
  asleep : ∀ p n, g { p with sleepUntil := n, state := .sleeping } = g p
  pending : ∀ p v, g { p with pendingSignals := v } = g p
  handling : ∀ p v, g { p with handlingSignal := v } = g p
  stack : ∀ p v, g { p with stack := v } = g p
  signalStack : ∀ p v, g { p with signalStack := v } = g p
  orphaned : ∀ p, p.pid ≠ 0 → g { p with parentPid := 1 } = g p

section Unwritten

variable {α : Type} {g : Process → α} (unwritten : Unwritten g)
include unwritten

theorem Unwritten.setState (s : State) (i : Slot) (v : ProcessState) (j : Slot) :
    g ((s.setState i v).processes j) = g (s.processes j) :=
  modify_congr g (unwritten.state _ v) j

theorem Unwritten.continueProcess (pid : Nat) (s : State) (j : Slot) :
    g ((continueProcess pid s).processes j) = g (s.processes j) := by
  rcases continueProcess_cases pid s with hout | ⟨i, -, -, hout⟩
  · rw [hout]
  · rw [hout]
    exact unwritten.setState s _ _ j

theorem Unwritten.blockProcess (pid : Nat) (s : State) (j : Slot) :
    g ((blockProcess pid s).processes j) = g (s.processes j) := by
  unfold Process.blockProcess
  split
  · rfl
  · exact unwritten.setState s _ _ j

theorem Unwritten.makeZombie (i : Slot) (pid : Nat) (s : State) (j : Slot) :
    g ((makeZombie i pid s).processes j) = g (s.processes j) :=
  makeZombie_congr g unwritten.state unwritten.stack unwritten.signalStack unwritten.orphaned i pid
    s j

theorem Unwritten.signalAddPending (i : Slot) (signum : Int) (s : State) (j : Slot) :
    g ((signalAddPending i signum s).2.processes j) = g (s.processes j) := by
  have hset : g ((setPending i signum.toNat s).processes j) = g (s.processes j) :=
    modify_congr g (unwritten.pending _ _) j
  rcases signalAddPending_cases i signum s with hout | hout
  · rw [hout]
  · rw [hout]
    exact hset

theorem Unwritten.callHandler (i : Slot) (signum handler : Nat) (s : State) (j : Slot) :
    g ((callHandler i signum handler s).processes j) = g (s.processes j) := by
  unfold Process.callHandler
  exact modify_congr g (f := fun p => { p with handlingSignal := false })
    (unwritten.handling _ false) j

theorem Unwritten.switchToProcess (pid : Nat) (s : State) (j : Slot) :
    g ((switchToProcess pid s).processes j) = g (s.processes j) := by
  unfold Process.switchToProcess
  split
  · rfl
  · exact modify_congr g (f := fun p =>
      { p with state := .running, cpuTime := Lib.Word.wadd 64 p.cpuTime 1 })
      (unwritten.running _ _) j

theorem Unwritten.clearPending (i : Slot) (signum : Nat) (s : State) (j : Slot) :
    g ((clearPending i signum s).processes j) = g (s.processes j) :=
  modify_congr g (unwritten.pending _ _) j

theorem Unwritten.keptByCalls :
    KeptByCalls fun s s' => ∀ j, g (s'.processes j) = g (s.processes j) where
  refl _ _ := rfl
  trans first second j := (second j).trans (first j)
  index _ _ _ := rfl
  setState s i v _ := unwritten.setState s i v
  switchToProcess := unwritten.switchToProcess
  continueProcess := unwritten.continueProcess
  makeZombie := unwritten.makeZombie
  signalAddPending i signum s _ _ _ := unwritten.signalAddPending i signum s
  pendingFate :=
    @pendingFate_induct (fun s s' => ∀ j, g (s'.processes j) = g (s.processes j)) (fun _ _ => rfl)
      (fun first second j => (second j).trans (first j)) unwritten.clearPending
      unwritten.callHandler unwritten.continueProcess

theorem Unwritten.step {s s' : State} {op : Op} (step : Step s op s') (j : Slot) :
    g (s'.processes j) = g (s.processes j) :=
  unwritten.keptByCalls.step (fun _ _ _ => rfl)
    (fun _ _ _ => modify_congr g (unwritten.asleep _ _)) step
    (fun pid _ => unwritten.blockProcess pid s) j

end Unwritten

/-! ### Who blocks a process -/

/-- No process has been blocked. -/
structure BlocksNone (s s' : State) : Prop where
  blocked : ∀ j, (s'.processes j).state = .blocked → (s.processes j).state = .blocked

namespace BlocksNone

variable {s s' s'' : State}

theorem refl (s : State) : BlocksNone s s := ⟨fun _ h => h⟩

theorem trans (first : BlocksNone s s') (second : BlocksNone s' s'') : BlocksNone s s'' :=
  ⟨fun j h => first.blocked j (second.blocked j h)⟩

theorem of_modify {i : Slot} {f : Process → Process} (h : (f (s.processes i)).state ≠ .blocked) :
    BlocksNone s (s.modify i f) := by
  refine ⟨fun j hj => ?_⟩
  by_cases hi : j = i
  · subst hi
    rw [modify_same] at hj
    exact absurd hj h
  · rwa [modify_other f hi] at hj

theorem of_onlySignals (h : OnlySignals s s') : BlocksNone s s' :=
  ⟨fun j hj => by rwa [h.state j] at hj⟩

end BlocksNone

theorem blocksNone_continueProcess (pid : Nat) (s : State) :
    BlocksNone s (continueProcess pid s) := by
  rcases continueProcess_cases pid s with hout | ⟨i, -, -, hout⟩
  · rw [hout]
    exact .refl s
  · rw [hout]
    exact .of_modify (by simp)

theorem blocksNone_makeZombie (i : Slot) (pid : Nat) (s : State) :
    BlocksNone s (makeZombie i pid s) := by
  refine ⟨fun j h => ?_⟩
  rw [makeZombie_state] at h
  split at h
  · cases h
  · exact h

theorem keptByCalls_blocksNone : KeptByCalls BlocksNone where
  refl := .refl
  trans := .trans
  index _ _ := ⟨fun _ h => h⟩
  setState _ _ _ hv := .of_modify hv
  switchToProcess pid s := by
    unfold switchToProcess
    split
    · exact .refl s
    next i _ =>
      have running : BlocksNone s (s.modify i fun p =>
          { p with state := .running, cpuTime := Lib.Word.wadd 64 p.cpuTime 1 }) :=
        .of_modify (by simp)
      exact ⟨running.blocked⟩
  continueProcess := blocksNone_continueProcess
  makeZombie := blocksNone_makeZombie
  signalAddPending i signum s _ _ _ := .of_onlySignals (onlySignals_signalAddPending i signum s)
  pendingFate i s := .of_onlySignals (pendingFate_spec i s).2

/-- A process is blocked by `block_process` only. -/
theorem Step.blocksNone {s s' : State} {op : Op} (step : Step s op s')
    (hop : ∀ pid, op ≠ .blockProcess pid) : BlocksNone s s' :=
  keptByCalls_blocksNone.step (fun _ _ => ⟨fun _ h => h⟩) (fun _ _ _ => .of_modify (by simp)) step
    fun pid h => absurd h (hop pid)

end Curnel.Process
