/-
At most one process is RUNNING, and it is the current one.

`switch_to_process` marks the process it goes to, and nothing takes the mark off the
one that `schedule` leaves: `schedule` never comes back to the current process, so a
current process that is still `RUNNING` when another is selected stays `RUNNING` for
good. `YieldsFirst` says when a step avoids that, in terms of the state before it,
and `one_running_iff` that exactly the runs of such steps keep the mark unique.

Without `signal_send` nothing but `SIGCHLD` is ever pending, which `schedule` drops.
-/

import Curnel.Process.Create

namespace Curnel.Process

open Lib

/-! ### The mark -/

def OneRunning (s : State) : Prop :=
  ∀ i, (s.processes i).pid ≠ 0 → (s.processes i).state = .running → i = s.currentProcessIndex

/-- The current process is marked, and another could be selected. -/
def KeepsMark (s : State) : Prop :=
  ((s.processes s.currentProcessIndex).pid ≠ 0 ∧
    (s.processes s.currentProcessIndex).state = .running) ∧
    ∃ i, i ≠ s.currentProcessIndex ∧ runnable s i

instance (s : State) : Decidable (KeepsMark s) := inferInstanceAs (Decidable (_ ∧ _))

/-- The state in which a step enters the scheduler, if it does. -/
def scheduling : Op → State → Option State
  | .schedule, s => some s
  | .exitProcess pid _, s => (getProcess pid s).map fun i => exitPrepared pid i s
  | .stopProcess pid, s => (getProcess pid s).map fun i => s.setState i .stopped
  | .sleepProcess pid ms, s => (getProcess pid s).map fun i => fallAsleep i ms s
  | .timerHandler, s =>
      if (timerTick s).timerTicks % ((timerTick s).timerFrequency / 100) = 0 then
        some (timerTick s)
      else none
  | _, _ => none

/-- If the step enters the scheduler, the current process has given up the mark, or there
is no other to select. -/
def YieldsFirst (t : Table) : TableOp → Prop
  | .call op => ∀ s ∈ scheduling op t.kernel, ¬ KeepsMark s
  | _ => True

/-- The steps that send and handle no signals. -/
def Unsignalled : TableOp → Prop
  | .call (.signalSend _ _) => False
  | .call (.signalHandlePending _) => False
  | _ => True

/-! ### The search of the scheduler -/

/-- The slot that is `k` places after `index`, round the table. -/
def slotAfter (index : Slot) (k : Nat) : Slot := Fin.ofNat MAX_PROCESSES (index + k)

theorem slotAfter_zero (index : Slot) : slotAfter index 0 = index := by
  apply Fin.ext
  exact Nat.mod_eq_of_lt index.isLt

theorem slotAfter_succ (index : Slot) (k : Nat) :
    slotAfter (index + 1) k = slotAfter index (k + 1) := by
  apply Fin.ext
  have hval : ((index + 1 : Slot) : Nat) = (index + 1) % 64 := rfl
  simp only [slotAfter, Fin.ofNat, MAX_PROCESSES, hval]
  omega

/-- Every other slot is less than a round away. -/
theorem exists_slotAfter {i index : Slot} (h : i ≠ index) :
    ∃ k, 0 < k ∧ k < MAX_PROCESSES ∧ slotAfter index k = i := by
  have hne : (i : Nat) ≠ index := fun heq => h (Fin.ext heq)
  have hi : (i : Nat) < 64 := i.isLt
  have hindex : (index : Nat) < 64 := index.isLt
  refine ⟨(64 + i - index) % 64, by omega, Nat.mod_lt _ (by decide), ?_⟩
  apply Fin.ext
  simp only [slotAfter, Fin.ofNat, MAX_PROCESSES]
  omega

theorem slotAfter_ne {index : Slot} {k : Nat} (hpos : 0 < k) (hlt : k < MAX_PROCESSES) :
    slotAfter index k ≠ index := by
  intro heq
  have hindex : (index : Nat) < 64 := index.isLt
  have hval := congrArg Fin.val heq
  simp only [slotAfter, Fin.ofNat, MAX_PROCESSES] at hval hlt
  omega

/-- The search goes round the table up to a runnable slot. -/
theorem scheduleSearch_spec (s : State) (n checked : Nat) (index : Slot) :
    ∃ k ≤ n, scheduleSearch s n checked index = (checked + k, slotAfter index k) ∧
      (∀ j, 0 < j → j < k → ¬ runnable s (slotAfter index j)) ∧
      (k < n → 0 < k ∧ runnable s (slotAfter index k)) := by
  induction n generalizing checked index with
  | zero =>
      refine ⟨0, le_refl 0, ?_, fun j _ hj => absurd hj (Nat.not_lt_zero j), fun h => absurd h (lt_irrefl 0)⟩
      rw [slotAfter_zero]
      rfl
  | succ n ih =>
      rw [scheduleSearch]
      have hone : slotAfter index 1 = index + 1 := by
        rw [← slotAfter_succ, slotAfter_zero]
      by_cases hrun : runnable s (index + 1)
      · rw [if_pos hrun]
        refine ⟨1, by omega, by rw [hone], fun j hpos hj => by omega, fun _ => ⟨Nat.one_pos, ?_⟩⟩
        rw [hone]
        exact hrun
      · rw [if_neg hrun]
        obtain ⟨k, hk, hsearch, hbefore, hfound⟩ := ih (checked + 1) (index + 1)
        rw [slotAfter_succ] at hsearch hfound
        refine ⟨k + 1, by omega, ?_, fun j hpos hj => ?_, fun hlt => ⟨Nat.succ_pos k, ?_⟩⟩
        · rw [hsearch, Nat.add_right_comm, Nat.add_assoc]
        · obtain ⟨j, rfl⟩ : ∃ m, j = m + 1 := ⟨j - 1, by omega⟩
          rw [← slotAfter_succ]
          by_cases hzero : j = 0
          · rw [hzero, slotAfter_zero]
            exact hrun
          · exact hbefore j (by omega) (by omega)
        · exact (hfound (by omega)).2

theorem nextRunnable_cases (s : State) :
    nextRunnable s = none ∧ (∀ i, i ≠ s.currentProcessIndex → ¬ runnable s i) ∨
      ∃ i, nextRunnable s = some i ∧ i ≠ s.currentProcessIndex ∧ runnable s i := by
  obtain ⟨k, hk, hsearch, hbefore, hfound⟩ :=
    scheduleSearch_spec s MAX_PROCESSES 0 s.currentProcessIndex
  unfold nextRunnable
  rw [hsearch]
  dsimp only
  by_cases hround : 0 + k = MAX_PROCESSES
  · rw [if_pos hround]
    refine Or.inl ⟨rfl, fun i hi => ?_⟩
    obtain ⟨j, hpos, hlt, rfl⟩ := exists_slotAfter hi
    exact hbefore j hpos (by omega)
  · rw [if_neg hround]
    obtain ⟨hpos, hrun⟩ := hfound (by omega)
    exact Or.inr ⟨_, rfl, slotAfter_ne hpos (by omega), hrun⟩

/-- The scheduler selects a process exactly where there is another that is runnable. -/
theorem nextRunnable_eq_none_iff {s : State} :
    nextRunnable s = none ↔ ∀ i, i ≠ s.currentProcessIndex → ¬ runnable s i := by
  rcases nextRunnable_cases s with ⟨hnone, hall⟩ | ⟨i, hsome, hne, hrun⟩
  · exact iff_of_true hnone hall
  · refine iff_of_false (by simp [hsome]) fun hall => hall i hne hrun

/-- The scheduler never selects the current process. -/
theorem ne_current_of_nextRunnable {s : State} {i : Slot} (h : nextRunnable s = some i) :
    i ≠ s.currentProcessIndex := by
  rcases nextRunnable_cases s with ⟨hnone, -⟩ | ⟨j, hsome, hne, -⟩
  · rw [hnone] at h
    cases h
  · rw [hsome] at h
    cases h
    exact hne

/-! ### Nothing is pending but `SIGCHLD` -/

/-- Default actions, and nothing pending but a `SIGCHLD`, which the default action drops. -/
structure Undisturbed (s : State) : Prop where
  actions : ∀ i, (s.processes i).signalActions = fun _ => ⟨SIG_DFL, 0, 0⟩
  pending : ∀ i signum, SigMem (s.processes i).pendingSignals signum → signum = SIGCHLD

namespace Undisturbed

variable {s s' : State} (undisturbed : Undisturbed s)
include undisturbed

theorem evolves (h : Evolves s s') (hpending : ∀ i signum,
    SigMem (s'.processes i).pendingSignals signum →
      SigMem (s.processes i).pendingSignals signum ∨ signum = SIGCHLD) : Undisturbed s' := by
  refine ⟨fun i => ?_, fun i signum hmem => ?_⟩
  · exact (congrArg Lasting.signalActions (h.lasting i)).trans (undisturbed.actions i)
  · rcases hpending i signum hmem with hold | hchild
    · exact undisturbed.pending i signum hold
    · exact hchild

theorem congr (h : Evolves s s')
    (hpending : ∀ i, (s'.processes i).pendingSignals = (s.processes i).pendingSignals) :
    Undisturbed s' :=
  undisturbed.evolves h fun i _ hmem => Or.inl (hpending i ▸ hmem)

theorem setState (i : Slot) (v : ProcessState) : Undisturbed (s.setState i v) :=
  undisturbed.congr (evolves_setState s i v) (modify_congr Process.pendingSignals rfl)

theorem clearPending (i : Slot) (signum : Nat) : Undisturbed (clearPending i signum s) := by
  refine ⟨fun j => ?_, fun j n hmem => undisturbed.pending j n ?_⟩
  · exact (modify_congr Process.signalActions rfl j).trans (undisturbed.actions j)
  · unfold Process.clearPending at hmem
    by_cases hj : j = i
    · subst hj
      rw [modify_same] at hmem
      rw [sigMem_iff] at hmem ⊢
      rw [BitVec.getLsbD_and, Bool.and_eq_true] at hmem
      exact hmem.1
    · rwa [modify_other _ hj] at hmem

/-- The scan takes what is pending, and nothing ends it. -/
theorem pendingScan (i : Slot) (n signum : Nat) :
    (pendingScan i n signum s).1 = .none ∧ Undisturbed (pendingScan i n signum s).2 := by
  induction n generalizing signum s with
  | zero => exact ⟨rfl, undisturbed⟩
  | succ n ih =>
      simp only [Process.pendingScan]
      split
      next htaken =>
        have hchild : signum = SIGCHLD := undisturbed.pending i signum htaken.1
        subst hchild
        rw [undisturbed.actions i]
        exact ih (undisturbed.clearPending i SIGCHLD) _
      next => exact ih undisturbed _

theorem pendingFate (i : Slot) :
    (pendingFate i s).1 = .none ∧ Undisturbed (pendingFate i s).2 := by
  unfold Process.pendingFate
  split
  · exact ⟨rfl, undisturbed⟩
  split
  · exact ⟨rfl, undisturbed⟩
  · exact undisturbed.pendingScan i _ _

/-- `schedule` selects nothing, or dispatches what it selects. -/
theorem schedule_cases {fuel : Nat} (wf : WellFormed s) (h : schedule fuel s = some s') :
    nextRunnable s = none ∧ s' = s ∨
      ∃ i, nextRunnable s = some i ∧ s' = dispatch (selectedFate i s).2 := by
  rcases Process.schedule_cases wf h with hnone | ⟨i, hi, hrest⟩
  · exact Or.inl hnone
  · have hnever := ((undisturbed.congr (evolves_index s i) fun _ => rfl).setState i .running).pendingFate i
    rcases hrest with ⟨-, hs'⟩ | ⟨signum, t, less, hfate, -⟩
    · exact Or.inr ⟨i, hi, hs'⟩
    · exact absurd (hnever.1.symm.trans hfate) (by simp)

theorem dispatch : Undisturbed (dispatch s) :=
  undisturbed.congr (evolves_dispatch s) (switchToProcess_pendingSignals _ s)

theorem schedule {fuel : Nat} (wf : WellFormed s) (h : schedule fuel s = some s') :
    Undisturbed s' := by
  rcases undisturbed.schedule_cases wf h with ⟨-, rfl⟩ | ⟨i, hi, rfl⟩
  · exact undisturbed
  · have selected := (undisturbed.congr (evolves_index s i) fun _ => rfl).setState i .running
    exact (selected.pendingFate i).2.dispatch

end Undisturbed

/-! ### One `schedule` -/

theorem schedule_oneRunning_iff {fuel : Nat} {s s' : State} (wf : WellFormed s)
    (undisturbed : Undisturbed s) (one : OneRunning s) (h : schedule fuel s = some s') :
    OneRunning s' ↔ ¬ KeepsMark s := by
  rcases undisturbed.schedule_cases wf h with ⟨hnone, rfl⟩ | ⟨i, hi, rfl⟩
  · refine iff_of_true one ?_
    rintro ⟨-, j, hne, hrun⟩
    exact nextRunnable_eq_none_iff.mp hnone j hne hrun
  · have wf' := wf.evolves (evolves_selectedFate i s)
    have hlive := selectedFate_current hi
    have hindex : (dispatch (selectedFate i s).2).currentProcessIndex = i :=
      (dispatch_index wf' hlive).trans (selectedFate_index i s)
    have hstate : ∀ j, ((dispatch (selectedFate i s).2).processes j).state
        = if j = i then .running else (s.processes j).state := by
      intro j
      rw [dispatch_state wf' hlive, selectedFate_index, selectedFate_state]
      split <;> rfl
    have hpid : ∀ j, ((dispatch (selectedFate i s).2).processes j).pid = (s.processes j).pid :=
      fun j => ((evolves_selectedFate i s).trans (evolves_dispatch _)).pid_eq j
    have hne := ne_current_of_nextRunnable hi
    constructor
    · rintro one' ⟨⟨hcurrent, hrunning⟩, -⟩
      have hmarked := one' s.currentProcessIndex
      rw [hpid, hstate, if_neg hne.symm, hindex] at hmarked
      exact hne (hmarked hcurrent hrunning).symm
    · intro hyields j hj hrunning
      rw [hpid] at hj
      rw [hstate] at hrunning
      rw [hindex]
      by_contra hother
      rw [if_neg hother] at hrunning
      have hcurrent := one j hj hrunning
      subst hcurrent
      exact hyields ⟨⟨hj, hrunning⟩, i, hne, runnable_of_nextRunnable hi⟩

/-! ### Up to the scheduler -/

/-- What a step does before it enters the scheduler: it marks no process, goes to no other,
and sends `SIGCHLD` only. -/
structure Enters (s u : State) : Prop where
  evolves : Evolves s u
  pending : ∀ i signum, SigMem (u.processes i).pendingSignals signum →
    SigMem (s.processes i).pendingSignals signum ∨ signum = SIGCHLD
  marks : ∀ i, (u.processes i).state = .running → (s.processes i).state = .running
  index : u.currentProcessIndex = s.currentProcessIndex

namespace Enters

variable {s s' s'' : State}

theorem refl (s : State) : Enters s s := ⟨.refl s, fun _ _ => Or.inl, fun _ h => h, rfl⟩

theorem trans (first : Enters s s') (second : Enters s' s'') : Enters s s'' := by
  refine ⟨first.evolves.trans second.evolves, fun i signum h => ?_,
    fun i h => first.marks i (second.marks i h), second.index.trans first.index⟩
  rcases second.pending i signum h with h' | hchild
  · exact first.pending i signum h'
  · exact Or.inr hchild

theorem of_modify {i : Slot} {f : Process → Process}
    (hlasting : lasting (f (s.processes i)) = lasting (s.processes i))
    (hpending : (f (s.processes i)).pendingSignals = (s.processes i).pendingSignals)
    (hstate : (f (s.processes i)).state ≠ .running) : Enters s (s.modify i f) := by
  refine ⟨evolves_modify hlasting hpending, fun j signum h => Or.inl ?_, fun j h => ?_, rfl⟩
  · rwa [modify_congr Process.pendingSignals hpending j] at h
  · by_cases hj : j = i
    · subst hj
      rw [modify_same] at h
      exact absurd h hstate
    · rwa [modify_other f hj] at h

theorem setState (s : State) (i : Slot) {v : ProcessState} (hv : v ≠ .running) :
    Enters s (s.setState i v) :=
  of_modify rfl rfl hv

theorem counted (s : State) (n : Nat) : Enters s { s with timerTicks := n } :=
  ⟨evolves_of_same [] (fun _ => rfl) (fun _ => rfl) rfl (by simp), fun _ _ => Or.inl,
    fun _ h => h, rfl⟩

theorem timerTick (s : State) : Enters s (timerTick s) :=
  timerTick_induct refl trans counted (fun s i => setState s i (by decide)) s

theorem exitPrepared (pid : Nat) (i : Slot) (s : State) : Enters s (exitPrepared pid i s) := by
  refine ⟨evolves_exitPrepared pid i s, fun j signum hmem => ?_, fun j h => ?_,
    exitPrepared_index pid i s⟩
  · rw [Process.exitPrepared, makeZombie_pendingSignals] at hmem
    unfold notifyParent at hmem
    split at hmem
    next =>
      split at hmem
      next => exact Or.inl hmem
      next parent _ =>
        rcases signalAddPending_adds hmem with hold | ⟨hn, -⟩
        · exact Or.inl hold
        · exact Or.inr (Int.ofNat_inj.mp hn)
    next => exact Or.inl hmem
  · rw [exitPrepared_state] at h
    split at h
    · cases h
    · exact h

theorem undisturbed (enters : Enters s s') (h : Undisturbed s) : Undisturbed s' :=
  h.evolves enters.evolves enters.pending

theorem oneRunning (enters : Enters s s') (one : OneRunning s) : OneRunning s' := by
  intro i hlive hrunning
  rw [enters.evolves.pid_eq i] at hlive
  rw [enters.index]
  exact one i hlive (enters.marks i hrunning)

end Enters

/-- A step enters the scheduler in the state that `scheduling` gives, or not at all. -/
theorem Step.scheduling_cases {s s' : State} {op : Op} (wf : WellFormed s)
    (unsignalled : Unsignalled (.call op)) (step : Step s op s') :
    scheduling op s = none ∧ Enters s s' ∨
      ∃ u fuel, scheduling op s = some u ∧ Enters s u ∧
        Process.schedule fuel u = some s' := by
  cases step with
  | signalSend => exact absurd unsignalled id
  | signalHandlePending => exact absurd unsignalled id
  | schedule h => exact Or.inr ⟨s, _, rfl, .refl s, h⟩
  | @exitProcess _ pid _ _ _ h =>
      rcases exitProcess_cases wf h with ⟨hnone, rfl⟩ | ⟨i, less, hfind, -, hrun⟩
      · exact Or.inl ⟨by rw [scheduling, hnone]; rfl, .refl _⟩
      · exact Or.inr ⟨_, less, by rw [scheduling, hfind]; rfl, .exitPrepared pid i s, hrun⟩
  | @stopProcess fuel pid _ _ h =>
      rcases stopProcess_cases h with ⟨hnone, rfl⟩ | ⟨i, less, hfind, -, hrun⟩
      · exact Or.inl ⟨by rw [scheduling, hnone]; rfl, .refl _⟩
      · have stopped : Enters s (s.setState i .stopped) := .setState s i (by decide)
        exact Or.inr ⟨_, less, by rw [scheduling, hfind]; rfl, stopped, hrun⟩
  | @continueProcess pid _ =>
      refine Or.inl ⟨rfl, ?_⟩
      rcases continueProcess_cases pid s with hout | ⟨i, -, -, hout⟩
      · rw [hout]
        exact .refl s
      · rw [hout]
        exact .setState s _ (by decide)
  | blockProcess =>
      refine Or.inl ⟨rfl, ?_⟩
      unfold Process.blockProcess
      split
      · exact .refl s
      · exact .setState s _ (by decide)
  | @unblockProcess pid _ =>
      refine Or.inl ⟨rfl, ?_⟩
      rcases unblockProcess_cases pid s with hout | ⟨i, -, -, hout⟩
      · rw [hout]
        exact .refl s
      · rw [hout]
        exact .setState s _ (by decide)
  | @sleepProcess fuel pid ms _ _ h =>
      rcases sleepProcess_cases h with ⟨hnone, rfl⟩ | ⟨i, hfind, hrun⟩
      · exact Or.inl ⟨by rw [scheduling, hnone]; rfl, .refl _⟩
      · have asleep : Enters s (fallAsleep i ms s) := .of_modify rfl rfl (by simp)
        exact Or.inr ⟨_, fuel, by rw [scheduling, hfind]; rfl, asleep, hrun⟩
  | timerHandler h =>
      rcases (timerHandler_cases h).2 with ⟨hdue, hrun⟩ | ⟨hdue, hout⟩
      · exact Or.inr ⟨timerTick s, _, by rw [scheduling, if_pos hdue], .timerTick s, hrun⟩
      · rw [hout]
        exact Or.inl ⟨by rw [scheduling, if_neg hdue], .timerTick s⟩

/-! ### One step -/

/-- A new process is not marked. -/
theorem OneRunning.created {s : State} (one : OneRunning s) {i : Slot} {f : Process → Process}
    (hready : (f (s.processes i)).state = .ready) : OneRunning (s.modify i f) := by
  intro j hlive hrunning
  by_cases hj : j = i
  · subst hj
    rw [modify_same, hready] at hrunning
    cases hrunning
  · rw [modify_other f hj] at hlive hrunning
    exact one j hlive hrunning

theorem Undisturbed.created {s : State} (undisturbed : Undisturbed s) {i : Slot}
    {f : Process → Process}
    (hactions : (f (s.processes i)).signalActions = fun _ => ⟨SIG_DFL, 0, 0⟩)
    (hpending : ∀ signum, SigMem (f (s.processes i)).pendingSignals signum → signum = SIGCHLD) :
    Undisturbed (s.modify i f) := by
  refine ⟨fun j => ?_, fun j signum hmem => ?_⟩
  · by_cases hj : j = i
    · subst hj
      rw [modify_same]
      exact hactions
    · rw [modify_other f hj]
      exact undisturbed.actions j
  · by_cases hj : j = i
    · subst hj
      rw [modify_same] at hmem
      exact hpending signum hmem
    · rw [modify_other f hj] at hmem
      exact undisturbed.pending j signum hmem

theorem TableStep.undisturbed {t t' : Table} {op : TableOp} (numbered : Numbered t)
    (undisturbed : Undisturbed t.kernel) (unsignalled : Unsignalled op)
    (step : TableStep t op t') : Undisturbed t'.kernel := by
  cases step with
  | createProcess =>
      unfold Process.createProcess
      cases hfree : getProcess 0 t.kernel with
      | none => exact undisturbed
      | some i => exact undisturbed.created rfl fun n hmem => absurd hmem (not_sigMem_zero n)
  | sysFork =>
      rcases sysFork_cases numbered.fresh _ with ⟨-, hrun⟩ | ⟨current, child, -, -, -, hrun⟩
      · rw [hrun]
        exact undisturbed
      · rw [hrun]
        dsimp only [Table.forked]
        apply undisturbed.created
        · exact undisturbed.actions current
        · exact undisturbed.pending current
  | call h =>
      rcases h.scheduling_cases numbered.wellFormed unsignalled with
        ⟨-, enters⟩ | ⟨u, fuel, -, enters, hrun⟩
      · exact enters.undisturbed undisturbed
      · exact (enters.undisturbed undisturbed).schedule
          (numbered.wellFormed.evolves enters.evolves) hrun

theorem TableStep.oneRunning_iff {t t' : Table} {op : TableOp} (numbered : Numbered t)
    (undisturbed : Undisturbed t.kernel) (unsignalled : Unsignalled op) (one : OneRunning t.kernel)
    (step : TableStep t op t') : OneRunning t'.kernel ↔ YieldsFirst t op := by
  cases step with
  | createProcess =>
      refine iff_of_true ?_ trivial
      unfold Process.createProcess
      cases hfree : getProcess 0 t.kernel with
      | none => exact one
      | some i => exact one.created rfl
  | sysFork =>
      refine iff_of_true ?_ trivial
      rcases sysFork_cases numbered.fresh _ with ⟨-, hrun⟩ | ⟨current, child, -, -, -, hrun⟩
      · rw [hrun]
        exact one
      · rw [hrun]
        dsimp only [Table.forked]
        apply one.created
        rfl
  | @call s op h =>
      change OneRunning s ↔ ∀ u ∈ scheduling op t.kernel, ¬ KeepsMark u
      rcases h.scheduling_cases numbered.wellFormed unsignalled with
        ⟨hnone, enters⟩ | ⟨u, fuel, hsome, enters, hrun⟩
      · rw [hnone]
        exact iff_of_true (enters.oneRunning one) fun _ hu => by cases hu
      · rw [hsome]
        have wf := numbered.wellFormed.evolves enters.evolves
        rw [schedule_oneRunning_iff wf (enters.undisturbed undisturbed) (enters.oneRunning one) hrun]
        simp

/-! ### Runs -/

/-- **One `RUNNING` process, the current one.** From `init_processes` on, the runs that keep
the mark unique are the runs in which every step that enters the scheduler does so with the
current process unmarked, or with no other process to select. -/
theorem one_running_iff {enabled : Bool} {ticks frequency : Nat} {ops : List TableOp}
    {t : Table} :
    Run (fun t op t' => (TableStep t op t' ∧ Unsignalled op) ∧ OneRunning t'.kernel)
        (.start enabled ticks frequency) ops t ↔
      Run (fun t op t' => (TableStep t op t' ∧ Unsignalled op) ∧ YieldsFirst t op)
        (.start enabled ticks frequency) ops t :=
  run_guarded_iff (I := fun t => OneRunning t.kernel)
    (J := fun t => Numbered t ∧ Undisturbed t.kernel)
    (fun ⟨numbered, undisturbed⟩ step => ⟨step.1.numbered numbered,
      step.1.undisturbed numbered undisturbed step.2⟩)
    (fun ⟨numbered, undisturbed⟩ one step =>
      step.1.oneRunning_iff numbered undisturbed step.2 one)
    ⟨numbered_start enabled ticks frequency, fun _ => rfl,
      fun _ n hmem => absurd hmem (not_sigMem_zero n)⟩
    fun _ hlive => absurd rfl hlive

/-- Two processes, and two rounds of the scheduler: both are `RUNNING`. -/
theorem two_are_running :
    ∃ t, Run (fun t op t' => TableStep t op t' ∧ Unsignalled op) (.start true 0 100)
        [.createProcess [97] 0 0 0, .createProcess [98] 0 1 0, .call .schedule, .call .schedule] t ∧
      (t.kernel.processes 0).state = .running ∧ (t.kernel.processes 0).pid = 1 ∧
      (t.kernel.processes 1).state = .running ∧ (t.kernel.processes 1).pid = 2 ∧
      ¬ OneRunning t.kernel := by
  let created : Table :=
    (createProcess [98] 0 1 0 (createProcess [97] 0 0 0 (.start true 0 100)).2).2
  let after (s : State) : State := (schedule 2 s).getD s
  have returns : ∀ s : State, (schedule 2 s).isSome → Step s .schedule (after s) := by
    intro s h
    obtain ⟨s', hs'⟩ := Option.isSome_iff_exists.mp h
    simp only [after, hs', Option.getD_some]
    exact .schedule hs'
  have first : Step created.kernel .schedule (after created.kernel) :=
    returns _ (by decide +kernel)
  have second : Step (after created.kernel) .schedule (after (after created.kernel)) :=
    returns _ (by decide +kernel)
  refine ⟨_, .cons ⟨.createProcess, trivial⟩ (.cons ⟨.createProcess, trivial⟩
    (.cons ⟨.call first, trivial⟩ (.single ⟨.call second, trivial⟩))), ?_⟩
  unfold OneRunning
  decide +kernel

end Curnel.Process
