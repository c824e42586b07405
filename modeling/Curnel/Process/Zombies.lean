/-
Which runs keep exited processes zombies.

A process that has exited has no stack any more; it must stay `ZOMBIE`. Four
operations break this. `block_process`, `sleep_process` and `stop_process` write
the state of whatever process they find; and `schedule`, after a pending signal
has terminated the process it selected and no other was left to select, switches
to the one that has just exited. `SparesExited` says when a step does none of
this, in terms of the state before it, and `exited_stay_zombies_iff` that exactly
the runs of such steps keep every exited process a zombie throughout.
-/

import Curnel.Process.Parked
import Curnel.Process.Steps
import Curnel.Lib.Run

namespace Curnel.Process

open Lib

/-! ### Exited processes -/

/-- The process in slot `i` has exited. -/
def Exited (s : State) (i : Slot) : Prop := .exited i ∈ s.log ∧ (s.processes i).pid ≠ 0

def ExitedAreZombies (s : State) : Prop := ∀ i, Exited s i → (s.processes i).state = .zombie

/-- `schedule` ends by dispatching a process that has exited: the process it
selects is terminated by a pending signal, and either nothing is left to select
or the scheduler goes on the same way. -/
inductive DispatchesZombie : State → Prop where
  | last {s : State} {i : Slot} {signum : Nat} :
      nextRunnable s = some i → (selectedFate i s).1 = .terminate signum →
      nextRunnable (exitPrepared (s.processes i).pid i (selectedFate i s).2) = none →
      DispatchesZombie s
  | next {s : State} {i : Slot} {signum : Nat} :
      nextRunnable s = some i → (selectedFate i s).1 = .terminate signum →
      DispatchesZombie (exitPrepared (s.processes i).pid i (selectedFate i s).2) →
      DispatchesZombie s

/-- `exit_process` of `pid` spares the exited processes. -/
def ExitSpares (pid : Nat) (s : State) : Prop :=
  ∀ i, getProcess pid s = some i → ¬ DispatchesZombie (exitPrepared pid i s)

/-- `stop_process` of `pid` spares the exited processes. -/
def StopSpares (pid : Nat) (s : State) : Prop :=
  ∀ i, getProcess pid s = some i →
    ¬ Exited s i ∧ ¬ DispatchesZombie (s.setState i .stopped)

/-- The step blocks, stops or puts to sleep no process that has exited, and no
`schedule` it makes dispatches one. -/
def SparesExited (s : State) : Op → Prop
  | .signalSend i signum =>
      if signum = SIGKILL then ExitSpares (s.processes i).pid s
      else if signum = SIGSTOP then StopSpares (s.processes i).pid s
      else True
  | .signalHandlePending i =>
      ∀ signum, (pendingFate i s).1 = .terminate signum →
        ExitSpares (s.processes i).pid (pendingFate i s).2
  | .schedule => ¬ DispatchesZombie s
  | .exitProcess pid _ => ExitSpares pid s
  | .stopProcess pid => StopSpares pid s
  | .continueProcess _ => True
  | .blockProcess pid => ∀ i, getProcess pid s = some i → ¬ Exited s i
  | .unblockProcess _ => True
  | .sleepProcess pid ms =>
      ∀ i, getProcess pid s = some i → ¬ Exited s i ∧ ¬ DispatchesZombie (fallAsleep i ms s)
  | .timerHandler =>
      (timerTick s).timerTicks % ((timerTick s).timerFrequency / 100) = 0 →
        ¬ DispatchesZombie (timerTick s)

/-! ### What keeps exited processes zombies -/

/-- A change of one state, of a process that has not exited. -/
theorem exitedAreZombies_setState {s s' : State} {i : Slot} (exited : ExitedAreZombies s)
    (hpid : ∀ j, (s'.processes j).pid = (s.processes j).pid) (hlog : s'.log = s.log)
    (hstate : ∀ j, j ≠ i → (s'.processes j).state = (s.processes j).state)
    (hi : ¬ Exited s i) : ExitedAreZombies s' := by
  rintro j ⟨hexit, hlive⟩
  rw [hlog] at hexit
  rw [hpid j] at hlive
  by_cases hj : j = i
  · subst hj
    exact absurd ⟨hexit, hlive⟩ hi
  · rw [hstate j hj]
    exact exited j ⟨hexit, hlive⟩

theorem ExitedAreZombies.onlySignals {s s' : State} (exited : ExitedAreZombies s)
    (h : OnlySignals s s') (hpid : ∀ j, (s'.processes j).pid = (s.processes j).pid) :
    ExitedAreZombies s' := by
  rintro j ⟨hexit, hlive⟩
  rw [h.state j]
  exact exited j ⟨(h.exits j).mp hexit, hpid j ▸ hlive⟩

/-- The process selected has not exited: its state is not `ZOMBIE`. -/
theorem not_exited_of_runnable {s : State} {i : Slot} (exited : ExitedAreZombies s)
    (h : runnable s i) : ¬ Exited s i := by
  intro hexit
  have hzombie := exited i hexit
  have hstate := h.2
  rw [hzombie] at hstate
  simp at hstate

theorem ExitedAreZombies.selectedFate {s : State} {i : Slot} (exited : ExitedAreZombies s)
    (hnext : nextRunnable s = some i) : ExitedAreZombies (selectedFate i s).2 := by
  rintro j ⟨hexit, hlive⟩
  rw [selectedFate_exits] at hexit
  rw [(evolves_selectedFate i s).pid_eq j] at hlive
  have hj : j ≠ i := by
    rintro rfl
    exact not_exited_of_runnable exited (runnable_of_nextRunnable hnext) ⟨hexit, hlive⟩
  rw [selectedFate_state, if_neg hj]
  exact exited j ⟨hexit, hlive⟩

/-- An exit makes the process that leaves a zombie, and so keeps them all. -/
theorem ExitedAreZombies.exitPrepared {s : State} (exited : ExitedAreZombies s) (pid : Nat)
    (i : Slot) : ExitedAreZombies (exitPrepared pid i s) := by
  rintro j ⟨hexit, hlive⟩
  rw [exitPrepared_exits] at hexit
  rw [(evolves_exitPrepared pid i s).pid_eq j] at hlive
  rw [exitPrepared_state]
  split
  · rfl
  next hj => exact exited j ⟨hexit.resolve_right hj, hlive⟩

/-! ### One `schedule` -/

/-- Dispatching a running process changes no other. -/
theorem ExitedAreZombies.dispatch {t : State} (wf : WellFormed t) (exited : ExitedAreZombies t)
    (hrunning : (t.processes t.currentProcessIndex).state = .running)
    (hpid : (t.processes t.currentProcessIndex).pid ≠ 0) : ExitedAreZombies (dispatch t) := by
  have hnot : ¬ Exited t t.currentProcessIndex := by
    intro hexit
    have hzombie := exited _ hexit
    rw [hrunning] at hzombie
    cases hzombie
  refine exitedAreZombies_setState exited (evolves_dispatch t).pid_eq (dispatch_log t)
    (fun j hj => ?_) hnot
  rw [dispatch_state wf hpid, if_neg hj]

theorem schedule_keeps {fuel : Nat} {s s' : State} (wf : WellFormed s)
    (exited : ExitedAreZombies s) (h : schedule fuel s = some s')
    (hspare : ¬ DispatchesZombie s) : ExitedAreZombies s' := by
  induction fuel using Nat.strong_induction_on generalizing s s' with
  | _ fuel ih =>
      rcases schedule_cases wf h with ⟨-, rfl⟩ | ⟨i, hi, hrest⟩
      · exact exited
      have wf' := wf.evolves (evolves_selectedFate i s)
      have exited' := exited.selectedFate hi
      rcases hrest with ⟨-, rfl⟩ | ⟨signum, t, less, hfate, hless, hrun, rfl⟩
      · refine exited'.dispatch wf' ?_ (selectedFate_current hi)
        rw [selectedFate_index, selectedFate_state, if_pos rfl]
      · have wfe := wf'.evolves (evolves_exitPrepared (s.processes i).pid i _)
        have hend := fun hnone => hspare (.last hi hfate hnone)
        have hmore := fun hzombie => hspare (.next hi hfate hzombie)
        obtain ⟨hrunning, hpid⟩ := schedule_current wfe hrun hend
        exact (ih less hless wfe (exited'.exitPrepared _ i) hrun hmore).dispatch
          (wfe.evolves ((evolves_calls less).schedule hrun)) hrunning hpid

theorem dispatch_ne_zombie {t : State} (wf : WellFormed t)
    (hpid : (t.processes t.currentProcessIndex).pid ≠ 0) {j : Slot}
    (h : (t.processes j).state ≠ .zombie) : ((dispatch t).processes j).state ≠ .zombie := by
  rw [dispatch_state wf hpid]
  split
  · simp
  · exact h

/-- Where `schedule` dispatches an exited process, one is no zombie afterwards. -/
theorem schedule_resurrects {fuel : Nat} {s s' : State} (hzombie : DispatchesZombie s)
    (wf : WellFormed s) (h : schedule fuel s = some s') : ¬ ExitedAreZombies s' := by
  suffices hsome : ∃ j, Exited s' j ∧ (s'.processes j).state ≠ .zombie by
    obtain ⟨j, hexit, hstate⟩ := hsome
    exact fun exited => hstate (exited j hexit)
  -- both constructors: the selected process exits, and `t` is what the scheduler makes of it
  have level : ∀ {s s' : State} {i : Slot} {signum fuel : Nat}, WellFormed s →
      nextRunnable s = some i → (selectedFate i s).1 = .terminate signum →
      schedule fuel s = some s' → ∃ t less, s' = dispatch t ∧ WellFormed t ∧
        schedule less (exitPrepared (s.processes i).pid i (selectedFate i s).2) = some t ∧
        WellFormed (exitPrepared (s.processes i).pid i (selectedFate i s).2) ∧
        (t.processes t.currentProcessIndex).pid ≠ 0 := by
    intro s s' i signum fuel wf hnext hfate h
    have wfe := (wf.evolves (evolves_selectedFate i s)).evolves
      (evolves_exitPrepared (s.processes i).pid i _)
    rcases schedule_cases wf h with ⟨hnone, -⟩ | ⟨j, hj, hrest⟩
    · rw [hnext] at hnone
      cases hnone
    · rw [hnext] at hj
      cases hj
      rcases hrest with ⟨hother, -⟩ | ⟨_, t, less, -, -, hrun, rfl⟩
      · exact absurd hfate (hother signum)
      · exact ⟨t, less, rfl, wfe.evolves ((evolves_calls less).schedule hrun), hrun, wfe,
          schedule_current_live wfe hrun (exitPrepared_current hnext)⟩
  induction hzombie generalizing fuel s' with
  | @last s i signum hnext hfate hnone =>
      obtain ⟨t, less, rfl, wft, hrun, wfe, hlive⟩ := level wf hnext hfate h
      rcases schedule_cases wfe hrun with ⟨-, rfl⟩ | ⟨j, hj, -⟩
      · have hindex : (exitPrepared (s.processes i).pid i (selectedFate i s).2).currentProcessIndex
            = i := (exitPrepared_index _ i _).trans (selectedFate_index i s)
        refine ⟨i, ⟨?_, ?_⟩, ?_⟩
        · rw [dispatch_log, exitPrepared_exits]
          exact Or.inr rfl
        · rw [hindex] at hlive
          rw [(evolves_dispatch _).pid_eq i]
          exact hlive
        · rw [dispatch_state wft hlive, hindex, if_pos rfl]
          simp
      · rw [hnone] at hj
        cases hj
  | @next s i signum hnext hfate _ ih =>
      obtain ⟨t, less, rfl, wft, hrun, wfe, hlive⟩ := level wf hnext hfate h
      obtain ⟨j, ⟨hexit, hpid⟩, hstate⟩ := ih wfe hrun
      refine ⟨j, ⟨?_, ?_⟩, dispatch_ne_zombie wft hlive hstate⟩
      · rw [dispatch_log]
        exact hexit
      · rw [(evolves_dispatch t).pid_eq j]
        exact hpid

theorem schedule_spares_iff {fuel : Nat} {s s' : State} (wf : WellFormed s)
    (exited : ExitedAreZombies s) (h : schedule fuel s = some s') :
    ExitedAreZombies s' ↔ ¬ DispatchesZombie s :=
  ⟨fun exited' hzombie => schedule_resurrects hzombie wf h exited',
    schedule_keeps wf exited h⟩

/-- A process that is neither a zombie nor runnable is not made a zombie by `schedule`. -/
theorem schedule_ne_zombie {fuel : Nat} {s s' : State} (wf : WellFormed s)
    (h : schedule fuel s = some s') {j : Slot} (hstate : (s.processes j).state ≠ .zombie)
    (hparked : ¬ runnable s j) : (s'.processes j).state ≠ .zombie := by
  rw [(schedule_parked wf h hparked).1.state]
  exact hstate

/-! ### One step -/

/-- An exit stays in the log. -/
theorem Evolves.exited {s s' : State} (h : Evolves s s') {i : Slot} (hexit : Exited s i) :
    Exited s' i := by
  obtain ⟨new, hlog, -⟩ := h.delivers
  refine ⟨?_, h.pid_eq i ▸ hexit.2⟩
  rw [hlog]
  exact List.mem_append_left _ hexit.1

/-- Parking the process in slot `i` in a state that is not runnable, and entering
the scheduler. -/
theorem park_spares_iff {fuel : Nat} {s s₁ s' : State} {i : Slot} (wf : WellFormed s)
    (exited : ExitedAreZombies s) (parked : Evolves s s₁) (hlog : s₁.log = s.log)
    (hstate : ∀ j, j ≠ i → (s₁.processes j).state = (s.processes j).state)
    (hzombie : (s₁.processes i).state ≠ .zombie) (hparked : ¬ runnable s₁ i)
    (h : schedule fuel s₁ = some s') :
    ExitedAreZombies s' ↔ ¬ Exited s i ∧ ¬ DispatchesZombie s₁ := by
  have wf₁ := wf.evolves parked
  constructor
  · intro exited'
    refine ⟨fun hexit => ?_, fun hdispatch => schedule_resurrects hdispatch wf₁ h exited'⟩
    have hexit' := (parked.trans ((evolves_calls fuel).schedule h)).exited hexit
    exact schedule_ne_zombie wf₁ h hzombie hparked (exited' i hexit')
  · rintro ⟨hnot, hspare⟩
    exact schedule_keeps wf₁
      (exitedAreZombies_setState exited parked.pid_eq hlog hstate hnot) h hspare

theorem exitProcess_spares_iff {fuel pid exitCode : Nat} {s s' : State} (wf : WellFormed s)
    (exited : ExitedAreZombies s) (h : exitProcess fuel pid exitCode s = some s') :
    ExitedAreZombies s' ↔ ExitSpares pid s := by
  unfold ExitSpares
  rcases exitProcess_cases wf h with ⟨hnone, rfl⟩ | ⟨i, less, hi, -, hrun⟩
  · refine iff_of_true exited fun i hi => ?_
    rw [hnone] at hi
    cases hi
  · rw [schedule_spares_iff (wf.evolves (evolves_exitPrepared pid i s)) (exited.exitPrepared pid i)
      hrun, hi]
    simp

theorem stopProcess_spares_iff {fuel pid : Nat} {s s' : State} (wf : WellFormed s)
    (exited : ExitedAreZombies s) (h : stopProcess fuel pid s = some s') :
    ExitedAreZombies s' ↔ StopSpares pid s := by
  unfold StopSpares
  rcases stopProcess_cases h with ⟨hnone, rfl⟩ | ⟨i, less, hfind, -, hrun⟩
  · exact iff_of_true exited (by simp [hnone])
  · have hstopped : ((s.setState i .stopped).processes i).state = .stopped := by
      simp [State.setState]
    have hothers : ∀ j, j ≠ i →
        ((s.setState i .stopped).processes j).state = (s.processes j).state :=
      fun j hj => by simp [State.setState, hj]
    rw [park_spares_iff wf exited (evolves_setState s i .stopped) rfl hothers
      (by rw [hstopped]; simp) (by simp [runnable, hstopped]) hrun, hfind]
    simp

theorem sleepProcess_spares_iff {fuel pid ms : Nat} {s s' : State} (wf : WellFormed s)
    (exited : ExitedAreZombies s) (h : sleepProcess fuel pid ms s = some s') :
    ExitedAreZombies s' ↔
      ∀ i, getProcess pid s = some i → ¬ Exited s i ∧ ¬ DispatchesZombie (fallAsleep i ms s) := by
  rcases sleepProcess_cases h with ⟨hnone, rfl⟩ | ⟨i, hfind, hrun⟩
  · exact iff_of_true exited (by simp [hnone])
  · have hasleep : ((fallAsleep i ms s).processes i).state = .sleeping := by
      simp [fallAsleep]
    have asleep : Evolves s (fallAsleep i ms s) := evolves_modify rfl rfl
    have hothers : ∀ j, j ≠ i →
        ((fallAsleep i ms s).processes j).state = (s.processes j).state :=
      fun j hj => by simp [fallAsleep, hj]
    rw [park_spares_iff wf exited asleep rfl hothers (by rw [hasleep]; simp)
      (by simp [runnable, hasleep]) hrun, hfind]
    simp

theorem signalHandlePending_spares_iff {fuel : Nat} {i : Slot} {s : State} {out : Int × State}
    (wf : WellFormed s) (exited : ExitedAreZombies s)
    (h : signalHandlePending fuel i s = some out) :
    ExitedAreZombies out.2 ↔ SparesExited s (.signalHandlePending i) := by
  have scanned := evolves_pendingFate i s
  have exited' := exited.onlySignals (pendingFate_spec i s).2 scanned.pid_eq
  unfold SparesExited
  rcases signalHandlePending_cases h with ⟨hfate, hout⟩ | ⟨signum, less, hfate, -, hexit⟩
  · rw [hout]
    exact iff_of_true exited' fun signum hterm => absurd hterm (hfate signum)
  · rw [scanned.pid_eq i] at hexit
    rw [exitProcess_spares_iff (wf.evolves scanned) exited' hexit]
    exact ⟨fun hspare _ _ => hspare, fun hspare => hspare signum hfate⟩

theorem exitedAreZombies_wake {s : State} {i : Slot} (exited : ExitedAreZombies s)
    {v : ProcessState} (hstate : (s.processes i).state ≠ .zombie) :
    ExitedAreZombies (s.setState i v) :=
  exitedAreZombies_setState exited (evolves_setState s i v).pid_eq rfl
    (fun j hj => by simp [State.setState, hj]) fun hexit => hstate (exited i hexit)

theorem exitedAreZombies_continueProcess {pid : Nat} {s : State} (exited : ExitedAreZombies s) :
    ExitedAreZombies (continueProcess pid s) := by
  rcases continueProcess_cases pid s with hout | ⟨i, -, hstate, hout⟩
  · rw [hout]
    exact exited
  · rw [hout]
    exact exitedAreZombies_wake exited (by rw [hstate]; simp)

theorem exitedAreZombies_unblockProcess {pid : Nat} {s : State} (exited : ExitedAreZombies s) :
    ExitedAreZombies (unblockProcess pid s) := by
  rcases unblockProcess_cases pid s with hout | ⟨i, -, hstate, hout⟩
  · rw [hout]
    exact exited
  · rw [hout]
    exact exitedAreZombies_wake exited (by rw [hstate]; simp)

theorem blockProcess_spares_iff {pid : Nat} {s : State} (exited : ExitedAreZombies s) :
    ExitedAreZombies (blockProcess pid s) ↔
      ∀ i, getProcess pid s = some i → ¬ Exited s i := by
  unfold blockProcess
  cases hfind : getProcess pid s with
  | none => exact iff_of_true exited (by simp)
  | some i =>
      have blocked := evolves_setState s i .blocked
      constructor
      · rintro exited' j hj hexit
        cases hj
        have hzombie := exited' i (blocked.exited hexit)
        simp [State.setState] at hzombie
      · intro hnot
        exact exitedAreZombies_setState exited blocked.pid_eq rfl
          (fun j hj => by simp [State.setState, hj]) (hnot i rfl)

theorem signalSend_spares_iff {fuel : Nat} {i : Slot} {signum : Int} {s : State}
    {out : Int × State} (wf : WellFormed s) (exited : ExitedAreZombies s)
    (h : signalSend fuel i signum s = some out) :
    ExitedAreZombies out.2 ↔ SparesExited s (.signalSend i signum) := by
  simp only [SparesExited]
  rcases signalSend_cases h with ⟨hrange, rfl⟩ | ⟨less, rfl, hexit⟩ | ⟨less, rfl, hstopped⟩ |
    ⟨rfl, hout⟩ | ⟨⟨-, hkill, hstop, -⟩, rfl⟩
  · have hkill : signum ≠ SIGKILL := by
      rintro rfl
      exact absurd hrange (by decide)
    have hstop : signum ≠ SIGSTOP := by
      rintro rfl
      exact absurd hrange (by decide)
    rw [if_neg hkill, if_neg hstop]
    exact iff_of_true exited trivial
  · rw [if_pos rfl]
    exact exitProcess_spares_iff wf exited hexit
  · rw [if_neg (by decide), if_pos rfl]
    exact stopProcess_spares_iff wf exited hstopped
  · rw [if_neg (by decide), if_neg (by decide)]
    refine iff_of_true ?_ trivial
    rcases hout with rfl | rfl
    · exact exitedAreZombies_continueProcess exited
    · exact exited
  · rw [if_neg hkill, if_neg hstop]
    refine iff_of_true (exited.onlySignals ?_ (evolves_signalAddPending i signum s).pid_eq) trivial
    exact onlySignals_signalAddPending i signum s

theorem exitedAreZombies_timerTick {s : State} (exited : ExitedAreZombies s) :
    ExitedAreZombies (timerTick s) := by
  have wake : ∀ pid t, ExitedAreZombies t → ExitedAreZombies (timerWake pid t) := by
    intro pid t hexited
    unfold timerWake
    split
    · exact hexited
    split
    next hstate =>
      split
      · exact exitedAreZombies_wake hexited (by rw [hstate]; simp)
      · exact hexited
    next => exact hexited
  have loop : ∀ n pid t, ExitedAreZombies t → ExitedAreZombies (timerLoop n pid t) := by
    intro n
    induction n with
    | zero => exact fun _ _ hexited => hexited
    | succ n ih => exact fun pid t hexited => ih (pid + 1) _ (wake pid t hexited)
  unfold timerTick
  exact loop MAX_PROCESSES 0 { s with timerTicks := Lib.Word.wadd 64 s.timerTicks 1 } exited

theorem timerHandler_spares_iff {fuel : Nat} {s s' : State} (wf : WellFormed s)
    (exited : ExitedAreZombies s) (h : timerHandler fuel s = some s') :
    ExitedAreZombies s' ↔ SparesExited s .timerHandler := by
  have exited' := exitedAreZombies_timerTick exited
  unfold SparesExited
  rcases (timerHandler_cases h).2 with ⟨hdue, hrun⟩ | ⟨hdue, hout⟩
  · rw [schedule_spares_iff (wf.evolves (evolves_timerTick s)) exited' hrun]
    exact ⟨fun hspare _ => hspare, fun hspare => hspare hdue⟩
  · rw [hout]
    exact iff_of_true exited' fun hdue' => absurd hdue' hdue

/-- A step keeps the exited processes zombies exactly if it spares them. -/
theorem step_spares_iff {s s' : State} {op : Op} (wf : WellFormed s)
    (exited : ExitedAreZombies s) (step : Step s op s') :
    ExitedAreZombies s' ↔ SparesExited s op := by
  cases step with
  | signalSend h => exact signalSend_spares_iff wf exited h
  | signalHandlePending h => exact signalHandlePending_spares_iff wf exited h
  | schedule h => exact schedule_spares_iff wf exited h
  | exitProcess h => exact exitProcess_spares_iff wf exited h
  | stopProcess h => exact stopProcess_spares_iff wf exited h
  | continueProcess => exact iff_of_true (exitedAreZombies_continueProcess exited) trivial
  | blockProcess => exact blockProcess_spares_iff exited
  | unblockProcess => exact iff_of_true (exitedAreZombies_unblockProcess exited) trivial
  | sleepProcess h => exact sleepProcess_spares_iff wf exited h
  | timerHandler h => exact timerHandler_spares_iff wf exited h

/-! ### Runs -/

/-- A step after which every exited process is a zombie. -/
def KeepingStep (s : State) (op : Op) (t : State) : Prop := Step s op t ∧ ExitedAreZombies t

/-- A step that spares the exited processes. -/
def SparingStep (s : State) (op : Op) (t : State) : Prop := Step s op t ∧ SparesExited s op

/-- The runs in which every exited process stays a zombie are the runs whose steps
all spare the exited ones, and after such a run `schedule` selects none of them. -/
theorem exited_stay_zombies_iff {s s' : State} {ops : List Op} (wf : WellFormed s)
    (exited : ExitedAreZombies s) :
    (Run KeepingStep s ops s' ↔ Run SparingStep s ops s') ∧
      (Run SparingStep s ops s' → ∀ i, nextRunnable s' = some i → ¬ Exited s' i) := by
  have keeping_iff : Run KeepingStep s ops s' ↔ Run SparingStep s ops s' :=
    run_guarded_iff (I := ExitedAreZombies) (J := WellFormed) (fun wf step => wf.evolves step.evolves)
      (fun wf exited step => step_spares_iff wf exited step) wf exited
  refine ⟨keeping_iff, fun run i hnext => ?_⟩
  have hkept : ExitedAreZombies s' :=
    (keeping_iff.mpr run).invariant (I := ExitedAreZombies) (fun _ step => step.2) exited
  exact not_exited_of_runnable hkept (runnable_of_nextRunnable hnext)

theorem exitedAreZombies_initAndChild : ExitedAreZombies initAndChild := by
  rintro i ⟨hexit, -⟩
  cases hexit

/-- What a call of `signal_send` that returns leaves behind. -/
def sent (fuel : Nat) (i : Slot) (signum : Int) (s : State) : State :=
  ((signalSend fuel i signum s).getD (0, s)).2

theorem step_sent {fuel : Nat} {i : Slot} {signum : Int} {s : State}
    (h : (signalSend fuel i signum s).isSome) :
    Step s (.signalSend i signum) (sent fuel i signum s) := by
  obtain ⟨out, hout⟩ := Option.isSome_iff_exists.mp h
  rw [sent, hout]
  exact .signalSend hout

/-- `SIGKILL` for the child spares what has exited, and so does a `SIGCONT` after it. -/
theorem exited_stay_zombies_iff_killed :
    ∃ s', Run SparingStep initAndChild [.signalSend 1 SIGKILL, .signalSend 1 SIGCONT] s' := by
  have kill : Step initAndChild (.signalSend 1 SIGKILL) (sent 4 1 SIGKILL initAndChild) :=
    step_sent (by decide +kernel)
  have cont : Step (sent 4 1 SIGKILL initAndChild) (.signalSend 1 SIGCONT)
      (sent 4 1 SIGCONT (sent 4 1 SIGKILL initAndChild)) := step_sent (by decide +kernel)
  have killed : ExitedAreZombies (sent 4 1 SIGKILL initAndChild) := by
    unfold ExitedAreZombies Exited
    decide +kernel
  have continued : ExitedAreZombies (sent 4 1 SIGCONT (sent 4 1 SIGKILL initAndChild)) := by
    unfold ExitedAreZombies Exited
    decide +kernel
  have keeping : Run KeepingStep initAndChild _ _ :=
    .cons ⟨kill, killed⟩ (.single ⟨cont, continued⟩)
  exact ⟨_, (exited_stay_zombies_iff wellFormed_initAndChild exitedAreZombies_initAndChild).1.mp
    keeping⟩

/-- `SIGSTOP` and then `SIGCONT` make an exited process ready again, and it is what
`schedule` selects next, without its stack. -/
theorem stopped_zombie_is_selected :
    WellFormed initAndChild ∧ ExitedAreZombies initAndChild ∧
      ∃ s', Run Step initAndChild
          [.signalSend 1 SIGKILL, .signalSend 1 SIGSTOP, .signalSend 1 SIGCONT] s' ∧
        Exited s' 1 ∧ (s'.processes 1).state = .ready ∧ nextRunnable s' = some 1 ∧
        (s'.processes 1).stack = NULL := by
  have kill : Step initAndChild (.signalSend 1 SIGKILL) (sent 4 1 SIGKILL initAndChild) :=
    step_sent (by decide +kernel)
  have stop : Step (sent 4 1 SIGKILL initAndChild) (.signalSend 1 SIGSTOP)
      (sent 4 1 SIGSTOP (sent 4 1 SIGKILL initAndChild)) := step_sent (by decide +kernel)
  have cont : Step (sent 4 1 SIGSTOP (sent 4 1 SIGKILL initAndChild)) (.signalSend 1 SIGCONT)
      (sent 4 1 SIGCONT (sent 4 1 SIGSTOP (sent 4 1 SIGKILL initAndChild))) :=
    step_sent (by decide +kernel)
  refine ⟨wellFormed_initAndChild, exitedAreZombies_initAndChild, _,
    .cons kill (.cons stop (.single cont)), ?_⟩
  unfold Exited
  decide +kernel

end Curnel.Process
