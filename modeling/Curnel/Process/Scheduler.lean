/-
What one level of the scheduler does, for a well-formed process table.

With unique PIDs and no exit signals, `exit_process` tells the parent, makes a
zombie and enters the scheduler once, and `schedule` either dispatches the
process it selects or, when a pending signal terminates that process, goes on
from its exit. `exitProcess_cases` and `schedule_cases` say so without any of the
intermediate functions; every later fact about the scheduler is an induction over
them. The first is that calls return (`schedule_returns`): each nested `schedule`
has one runnable process less.
-/

import Curnel.Process.Calls
import Mathlib.Data.Finset.Card
import Mathlib.Data.Fintype.Basic

namespace Curnel.Process

/-- Unique PIDs, and no process with an exit signal: `create_process` makes both so. -/
structure WellFormed (s : State) : Prop where
  uniquePids : UniquePids s
  exitSignal : ∀ i, (s.processes i).exitSignal = 0

theorem WellFormed.evolves {s s' : State} (wf : WellFormed s) (h : Evolves s s') :
    WellFormed s' := by
  refine ⟨fun i j hi hij => ?_, fun i => (h.exitSignal_eq i).trans (wf.exitSignal i)⟩
  rw [h.pid_eq i] at hi hij
  rw [h.pid_eq j] at hij
  exact wf.uniquePids i j hi hij

/-! ### The scan -/

/-- Every default action is to ignore or, tested with `action & SIGTERM`, to terminate. -/
theorem defaultSignalActions_terminate (signum : Nat) :
    defaultSignalActions.getD signum 0 = 0 ∨
      defaultSignalActions.getD signum 0 &&& SIGTERM ≠ 0 := by
  have hall : ∀ action ∈ defaultSignalActions, action = 0 ∨ action &&& SIGTERM ≠ 0 := by decide
  rw [List.getD_eq_getElem?_getD]
  cases haction : defaultSignalActions[signum]? with
  | none => exact Or.inl rfl
  | some action => exact hall action (List.mem_of_getElem? haction)

/-- A change that moves no process to another state, leaves the current index
alone and is no exit. -/
structure OnlySignals (s s' : State) : Prop where
  state : ∀ j, (s'.processes j).state = (s.processes j).state
  index : s'.currentProcessIndex = s.currentProcessIndex
  exits : ∀ j, .exited j ∈ s'.log ↔ .exited j ∈ s.log

theorem OnlySignals.refl (s : State) : OnlySignals s s := ⟨fun _ => rfl, rfl, fun _ => Iff.rfl⟩

theorem OnlySignals.trans {s s' s'' : State} (first : OnlySignals s s')
    (second : OnlySignals s' s'') : OnlySignals s s'' :=
  ⟨fun j => (second.state j).trans (first.state j), second.index.trans first.index,
    fun j => (second.exits j).trans (first.exits j)⟩

theorem onlySignals_clearPending (s : State) (i : Slot) (signum : Nat) :
    OnlySignals s (clearPending i signum s) :=
  ⟨modify_congr Process.state rfl, rfl, fun _ => Iff.rfl⟩

theorem onlySignals_setPending (s : State) (i : Slot) (signum : Nat) :
    OnlySignals s (setPending i signum s) :=
  ⟨modify_congr Process.state rfl, rfl, fun _ => Iff.rfl⟩

theorem onlySignals_callHandler (s : State) (i : Slot) (signum handler : Nat) :
    OnlySignals s (callHandler i signum handler s) :=
  ⟨modify_congr Process.state rfl, rfl, fun j => by simp [callHandler, State.modify, State.emit]⟩

/-- The scan never stops a process, and only takes signals. -/
theorem pendingScan_spec (i : Slot) (n signum : Nat) (s : State) :
    (pendingScan i n signum s).1 ≠ .stop ∧ OnlySignals s (pendingScan i n signum s).2 := by
  induction n generalizing signum s with
  | zero => exact ⟨by simp [pendingScan], OnlySignals.refl s⟩
  | succ n ih =>
      simp only [pendingScan]
      have taken := onlySignals_clearPending s i signum
      have later : ∀ t, OnlySignals s t → (pendingScan i n (signum + 1) t).1 ≠ .stop ∧
          OnlySignals s (pendingScan i n (signum + 1) t).2 :=
        fun t ht => ⟨(ih (signum + 1) t).1, ht.trans (ih (signum + 1) t).2⟩
      split
      · split
        · split
          next => exact ⟨by simp, taken⟩
          next hterm =>
          split
          next => exact later _ taken
          next hzero =>
            exact absurd (defaultSignalActions_terminate signum) (not_or.mpr ⟨hzero, hterm⟩)
        · split
          · exact later _ taken
          · exact ⟨by simp, taken.trans (onlySignals_callHandler _ _ _ _)⟩
      · exact later s (OnlySignals.refl s)

theorem pendingFate_spec (i : Slot) (s : State) :
    (pendingFate i s).1 ≠ .stop ∧ OnlySignals s (pendingFate i s).2 := by
  unfold pendingFate
  split
  · exact ⟨by simp, OnlySignals.refl s⟩
  split
  · exact ⟨by simp, OnlySignals.refl s⟩
  · exact pendingScan_spec i _ _ s

/-! ### Leaving a process -/

/-- The `SIGCHLD` of `exit_process`. -/
def notifyParent (i : Slot) (s : State) : State :=
  if (s.processes i).parentPid ≠ 0 then
    match getProcess (s.processes i).parentPid s with
    | none => s
    | some parent => (signalAddPending parent SIGCHLD s).2
  else s

/-- What `exit_process` has done when it enters the scheduler. -/
def exitPrepared (pid : Nat) (i : Slot) (s : State) : State :=
  makeZombie i pid (notifyParent i s)

theorem onlySignals_signalAddPending (i : Slot) (signum : Int) (s : State) :
    OnlySignals s (signalAddPending i signum s).2 := by
  rcases signalAddPending_cases i signum s with hout | hout
  · rw [hout]
    exact OnlySignals.refl s
  · rw [hout]
    exact onlySignals_setPending _ _ _

theorem onlySignals_notifyParent (i : Slot) (s : State) : OnlySignals s (notifyParent i s) := by
  unfold notifyParent
  split
  · split
    · exact OnlySignals.refl s
    · exact onlySignals_signalAddPending _ _ s
  · exact OnlySignals.refl s

theorem evolves_notifyParent (i : Slot) (s : State) : Evolves s (notifyParent i s) := by
  unfold notifyParent
  split
  · split
    · exact Evolves.refl s
    · exact evolves_signalAddPending _ _ s
  · exact Evolves.refl s

theorem evolves_exitPrepared (pid : Nat) (i : Slot) (s : State) :
    Evolves s (exitPrepared pid i s) :=
  (evolves_notifyParent i s).trans (evolves_makeZombie i pid _)

/-- The cleaning up of `exit_process` moves no process to another state. -/
theorem makeZombie_cleanup (i : Slot) (pid : Nat) (s : State) :
    OnlySignals s (orphanChildren pid (kfreeSignalStack i (kfreeStack i s))) := by
  have hstack : OnlySignals s (kfreeStack i s) := by
    unfold kfreeStack
    split
    · exact ⟨modify_congr Process.state rfl, rfl, fun j => by simp [State.modify, State.emit]⟩
    · exact OnlySignals.refl s
  have hsignal : ∀ t, OnlySignals t (kfreeSignalStack i t) := by
    intro t
    unfold kfreeSignalStack
    split
    · exact ⟨modify_congr Process.state rfl, rfl, fun j => by simp [State.modify, State.emit]⟩
    · exact OnlySignals.refl t
  have horphan : ∀ t, OnlySignals t (orphanChildren pid t) := by
    intro t
    refine ⟨fun j => ?_, rfl, fun _ => Iff.rfl⟩
    simp only [orphanChildren]
    split <;> rfl
  exact (hstack.trans (hsignal _)).trans (horphan _)

theorem makeZombie_state (i : Slot) (pid : Nat) (s : State) (j : Slot) :
    ((makeZombie i pid s).processes j).state
      = if j = i then .zombie else (s.processes j).state := by
  have hclean := (makeZombie_cleanup i pid s).state
  unfold makeZombie State.setState State.emit
  by_cases hj : j = i
  · subst hj
    rw [modify_same, if_pos rfl]
  · rw [modify_other _ hj, if_neg hj, hclean]

/-- Cleaning up changes nothing but states, stacks and parents. -/
theorem makeZombie_congr {α : Type} (g : Process → α)
    (hstate : ∀ p v, g { p with state := v } = g p)
    (hstack : ∀ p v, g { p with stack := v } = g p)
    (hsignalStack : ∀ p v, g { p with signalStack := v } = g p)
    (hparent : ∀ p, p.pid ≠ 0 → g { p with parentPid := 1 } = g p) (i : Slot) (pid : Nat)
    (s : State) (j : Slot) : g ((makeZombie i pid s).processes j) = g (s.processes j) := by
  have hfreed : ∀ t, g ((kfreeStack i t).processes j) = g (t.processes j) := by
    intro t
    unfold kfreeStack
    split
    · exact modify_congr g (hstack _ _) j
    · rfl
  have hsignal : ∀ t, g ((kfreeSignalStack i t).processes j) = g (t.processes j) := by
    intro t
    unfold kfreeSignalStack
    split
    · exact modify_congr g (hsignalStack _ _) j
    · rfl
  have horphan : ∀ t, g ((orphanChildren pid t).processes j) = g (t.processes j) := by
    intro t
    simp only [orphanChildren]
    split
    next hchild => exact hparent _ hchild.1
    next => rfl
  have hzombie : ∀ t : State, g ((t.setState i .zombie).processes j) = g (t.processes j) := by
    intro t
    exact modify_congr g (hstate (t.processes i) .zombie) j
  exact (hzombie _).trans ((horphan _).trans ((hsignal _).trans (hfreed s)))

/-- Cleaning up takes no signal. -/
theorem makeZombie_pendingSignals (i : Slot) (pid : Nat) (s : State) (j : Slot) :
    ((makeZombie i pid s).processes j).pendingSignals = (s.processes j).pendingSignals :=
  makeZombie_congr Process.pendingSignals (fun _ _ => rfl) (fun _ _ => rfl) (fun _ _ => rfl)
    (fun _ _ => rfl) i pid s j

theorem makeZombie_index (i : Slot) (pid : Nat) (s : State) :
    (makeZombie i pid s).currentProcessIndex = s.currentProcessIndex :=
  (makeZombie_cleanup i pid s).index

theorem makeZombie_exits (i : Slot) (pid : Nat) (s : State) (j : Slot) :
    .exited j ∈ (makeZombie i pid s).log ↔ .exited j ∈ s.log ∨ j = i := by
  have hclean := (makeZombie_cleanup i pid s).exits j
  unfold makeZombie State.setState State.emit
  rw [List.mem_append, List.mem_singleton, Event.exited.injEq]
  exact or_congr_left hclean

/-- Leaving a process makes it a zombie and keeps the state of every other. -/
theorem exitPrepared_state (pid : Nat) (i : Slot) (s : State) (j : Slot) :
    ((exitPrepared pid i s).processes j).state
      = if j = i then .zombie else (s.processes j).state := by
  rw [exitPrepared, makeZombie_state, (onlySignals_notifyParent i s).state]

/-- Leaving a process is one exit more. -/
theorem exitPrepared_exits (pid : Nat) (i : Slot) (s : State) (j : Slot) :
    .exited j ∈ (exitPrepared pid i s).log ↔ .exited j ∈ s.log ∨ j = i := by
  rw [exitPrepared, makeZombie_exits, (onlySignals_notifyParent i s).exits]

theorem exitPrepared_index (pid : Nat) (i : Slot) (s : State) :
    (exitPrepared pid i s).currentProcessIndex = s.currentProcessIndex := by
  rw [exitPrepared, makeZombie_index, (onlySignals_notifyParent i s).index]

/-- Telling a process `SIGCHLD` only ever makes it pending. -/
theorem signalSend_sigchld (fuel : Nat) (parent : Slot) (s : State) :
    signalSend (fuel + 1) parent SIGCHLD s = some (signalAddPending parent SIGCHLD s) := by
  have hrange : ¬ ((SIGCHLD : Int) ≤ 0 ∨ (SIGCHLD : Int) ≥ MAX_SIGNALS) := by decide
  rw [signalSend, if_neg hrange, if_neg (by decide), if_neg (by decide), if_neg (by decide)]

/-- `exit_process` of a process that is there enters the scheduler once. -/
theorem exitProcess_eq {fuel pid code : Nat} {s : State} {i : Slot} (wf : WellFormed s)
    (hfind : getProcess pid s = some i) :
    exitProcess (fuel + 2) pid code s = schedule (fuel + 1) (exitPrepared pid i s) := by
  have hexit : ¬ (s.processes i).exitSignal ≠ 0 := not_not.mpr (wf.exitSignal i)
  have hsend := fun parent => signalSend_sigchld fuel parent s
  simp only [exitProcess, hfind]
  rw [if_neg hexit]
  simp only [exitPrepared, notifyParent]
  by_cases hparent : (s.processes i).parentPid ≠ 0
  · rw [if_pos hparent, if_pos hparent]
    cases hfound : getProcess (s.processes i).parentPid s with
    | none => rfl
    | some parent =>
        simp only [hsend]
        rfl
  · rw [if_neg hparent, if_neg hparent]

/-- Without fuel for the scheduler, `exit_process` of a process does not return. -/
theorem exitProcess_one {pid code : Nat} {s : State} {i : Slot} (wf : WellFormed s)
    (hfind : getProcess pid s = some i) : exitProcess 1 pid code s = none := by
  have hexit : ¬ (s.processes i).exitSignal ≠ 0 := not_not.mpr (wf.exitSignal i)
  simp only [exitProcess, hfind]
  rw [if_neg hexit]
  simp only [signalSend, schedule]
  split <;> rfl

theorem exitProcess_cases {fuel pid code : Nat} {s s' : State} (wf : WellFormed s)
    (h : exitProcess fuel pid code s = some s') :
    getProcess pid s = none ∧ s' = s ∨
      ∃ i less, getProcess pid s = some i ∧ less < fuel ∧
        schedule less (exitPrepared pid i s) = some s' := by
  cases hfind : getProcess pid s with
  | none =>
      cases fuel with
      | zero => simp [exitProcess] at h
      | succ fuel =>
          simp only [exitProcess, hfind] at h
          exact Or.inl ⟨rfl, (Option.some.inj h).symm⟩
  | some i =>
      right
      obtain _ | _ | fuel := fuel
      · simp [exitProcess] at h
      · rw [exitProcess_one wf hfind] at h
        cases h
      · rw [exitProcess_eq wf hfind] at h
        exact ⟨i, fuel + 1, rfl, by omega, h⟩

theorem exitProcess_found {fuel pid code : Nat} {s s' : State} {i : Slot} (wf : WellFormed s)
    (hfind : getProcess pid s = some i) (h : exitProcess fuel pid code s = some s') :
    ∃ less < fuel, schedule less (exitPrepared pid i s) = some s' := by
  rcases exitProcess_cases wf h with ⟨hnone, -⟩ | ⟨j, less, hj, hless, hrun⟩
  · rw [hfind] at hnone
    cases hnone
  · rw [hfind] at hj
    cases hj
    exact ⟨less, hless, hrun⟩

/-- `stop_process` of a process that is there enters the scheduler once. -/
theorem stopProcess_cases {fuel pid : Nat} {s s' : State} (h : stopProcess fuel pid s = some s') :
    getProcess pid s = none ∧ s' = s ∨
      ∃ i less, getProcess pid s = some i ∧ less < fuel ∧
        schedule less (s.setState i .stopped) = some s' := by
  cases fuel with
  | zero => simp [stopProcess] at h
  | succ fuel =>
      simp only [stopProcess] at h
      cases hfind : getProcess pid s with
      | none =>
          rw [hfind] at h
          exact Or.inl ⟨rfl, (Option.some.inj h).symm⟩
      | some i =>
          rw [hfind] at h
          exact Or.inr ⟨i, fuel, rfl, Nat.lt_succ_self fuel, h⟩

/-- `signal_send` exits, stops or continues the process, or makes the signal pending. -/
theorem signalSend_cases {fuel : Nat} {i : Slot} {signum : Int} {s : State} {out : Int × State}
    (h : signalSend fuel i signum s = some out) :
    (signum ≤ 0 ∨ signum ≥ MAX_SIGNALS) ∧ out = (-1, s) ∨
      (∃ less, signum = SIGKILL ∧
        exitProcess less (s.processes i).pid (128 + SIGKILL) s = some out.2) ∨
      (∃ less, signum = SIGSTOP ∧ stopProcess less (s.processes i).pid s = some out.2) ∨
      signum = SIGCONT ∧ (out = (0, continueProcess (s.processes i).pid s) ∨ out = (0, s)) ∨
      ((0 < signum ∧ signum < MAX_SIGNALS) ∧
        signum ≠ SIGKILL ∧ signum ≠ SIGSTOP ∧ signum ≠ SIGCONT) ∧
        out = signalAddPending i signum s := by
  cases fuel with
  | zero => simp [signalSend] at h
  | succ fuel =>
      simp only [signalSend] at h
      by_cases hrange : signum ≤ 0 ∨ signum ≥ MAX_SIGNALS
      · rw [if_pos hrange] at h
        exact Or.inl ⟨hrange, (Option.some.inj h).symm⟩
      rw [if_neg hrange] at h
      right
      by_cases hkill : signum = SIGKILL
      · rw [if_pos hkill] at h
        obtain ⟨t, hexit, rfl⟩ := Option.map_eq_some_iff.mp h
        exact Or.inl ⟨fuel, hkill, hexit⟩
      rw [if_neg hkill] at h
      right
      by_cases hstop : signum = SIGSTOP
      · rw [if_pos hstop] at h
        obtain ⟨t, hstopped, rfl⟩ := Option.map_eq_some_iff.mp h
        exact Or.inl ⟨fuel, hstop, hstopped⟩
      rw [if_neg hstop] at h
      right
      by_cases hcont : signum = SIGCONT
      · rw [if_pos hcont] at h
        refine Or.inl ⟨hcont, ?_⟩
        split at h
        · exact Or.inl (Option.some.inj h).symm
        · exact Or.inr (Option.some.inj h).symm
      · rw [if_neg hcont] at h
        push Not at hrange
        exact Or.inr ⟨⟨hrange, hkill, hstop, hcont⟩, (Option.some.inj h).symm⟩

/-! ### Selecting a process -/

/-- The process that `schedule` has selected, before its signals are handled. -/
def selected (i : Slot) (s : State) : State :=
  { s with currentProcessIndex := i }.setState i .running

theorem evolves_selected (i : Slot) (s : State) : Evolves s (selected i s) :=
  (evolves_index s i).trans (evolves_setState _ i .running)

theorem selected_state (i : Slot) (s : State) (j : Slot) :
    ((selected i s).processes j).state = if j = i then .running else (s.processes j).state := by
  unfold selected State.setState
  by_cases hj : j = i
  · subst hj
    rw [modify_same, if_pos rfl]
  · rw [modify_other _ hj, if_neg hj]

/-- The state after the signals of the selected process, and what ended their scan. -/
def selectedFate (i : Slot) (s : State) : Fate × State := pendingFate i (selected i s)

theorem evolves_selectedFate (i : Slot) (s : State) : Evolves s (selectedFate i s).2 :=
  (evolves_selected i s).trans (evolves_pendingFate i _)

theorem selectedFate_state (i : Slot) (s : State) (j : Slot) :
    ((selectedFate i s).2.processes j).state
      = if j = i then .running else (s.processes j).state :=
  ((pendingFate_spec i _).2.state j).trans (selected_state i s j)

theorem selectedFate_exits (i : Slot) (s : State) (j : Slot) :
    .exited j ∈ (selectedFate i s).2.log ↔ .exited j ∈ s.log :=
  (pendingFate_spec i _).2.exits j

theorem selectedFate_index (i : Slot) (s : State) :
    (selectedFate i s).2.currentProcessIndex = i :=
  (pendingFate_spec i _).2.index

/-- The context switch to the current process. -/
def dispatch (s : State) : State :=
  switchToProcess (s.processes s.currentProcessIndex).pid s

theorem evolves_dispatch (s : State) : Evolves s (dispatch s) :=
  evolves_switchToProcess _ s

theorem dispatch_log (s : State) : (dispatch s).log = s.log := by
  unfold dispatch switchToProcess
  split <;> rfl

theorem dispatch_index {s : State} (wf : WellFormed s)
    (hpid : (s.processes s.currentProcessIndex).pid ≠ 0) :
    (dispatch s).currentProcessIndex = s.currentProcessIndex := by
  unfold dispatch switchToProcess
  rw [getProcess_of_pid wf.uniquePids hpid]

theorem dispatch_state {s : State} (wf : WellFormed s)
    (hpid : (s.processes s.currentProcessIndex).pid ≠ 0) (j : Slot) :
    ((dispatch s).processes j).state
      = if j = s.currentProcessIndex then .running else (s.processes j).state := by
  unfold dispatch switchToProcess
  rw [getProcess_of_pid wf.uniquePids hpid]
  simp only
  by_cases hj : j = s.currentProcessIndex
  · rw [hj, modify_same, if_pos rfl]
  · rw [modify_other _ hj, if_neg hj]

/-! ### What is current -/

theorem dispatch_current {t : State} (wf : WellFormed t)
    (hpid : (t.processes t.currentProcessIndex).pid ≠ 0) :
    ((dispatch t).processes (dispatch t).currentProcessIndex).state = .running ∧
      ((dispatch t).processes (dispatch t).currentProcessIndex).pid ≠ 0 := by
  rw [dispatch_index wf hpid, dispatch_state wf hpid, if_pos rfl, (evolves_dispatch t).pid_eq]
  exact ⟨rfl, hpid⟩

/-- After the scan of its signals, the process selected is current. -/
theorem selectedFate_current {s : State} {i : Slot} (hnext : nextRunnable s = some i) :
    ((selectedFate i s).2.processes (selectedFate i s).2.currentProcessIndex).pid ≠ 0 := by
  rw [selectedFate_index, (evolves_selectedFate i s).pid_eq i]
  exact (runnable_of_nextRunnable hnext).1

/-! ### One level of the scheduler -/

theorem schedule_of_none {fuel : Nat} {s : State} (h : nextRunnable s = none) :
    schedule (fuel + 1) s = some s := by
  rw [schedule, h]

theorem schedule_of_some {fuel : Nat} {s : State} {i : Slot} (h : nextRunnable s = some i) :
    schedule (fuel + 1) s
      = (signalHandlePending fuel i (selected i s)).map fun out => dispatch out.2 := by
  have hpid := (runnable_of_nextRunnable h).1
  rw [schedule, h]
  simp only
  rw [if_pos hpid, ← selected]
  cases signalHandlePending fuel i (selected i s) <;> rfl

/-- `signal_handle_pending` leaves the process when a signal terminates it, and
otherwise only scans. -/
theorem signalHandlePending_cases {fuel : Nat} {i : Slot} {s : State} {out : Int × State}
    (h : signalHandlePending fuel i s = some out) :
    (∀ signum, (pendingFate i s).1 ≠ .terminate signum) ∧ out.2 = (pendingFate i s).2 ∨
      ∃ signum less, (pendingFate i s).1 = .terminate signum ∧ less < fuel ∧
        exitProcess less ((pendingFate i s).2.processes i).pid (128 + signum) (pendingFate i s).2
          = some out.2 := by
  have hstop := (pendingFate_spec i s).1
  cases fuel with
  | zero => simp [signalHandlePending] at h
  | succ fuel =>
      rw [signalHandlePending] at h
      rcases hfate : pendingFate i s with ⟨fate, t⟩
      rw [hfate] at h hstop
      cases fate with
      | none =>
          cases h
          exact Or.inl ⟨by simp, rfl⟩
      | handled =>
          cases h
          exact Or.inl ⟨by simp, rfl⟩
      | stop => exact absurd rfl hstop
      | terminate signum =>
          obtain ⟨u, hexit, rfl⟩ := Option.map_eq_some_iff.mp h
          exact Or.inr ⟨signum, fuel, rfl, Nat.lt_succ_self fuel, hexit⟩

/-- `schedule`: nothing to select; or the selected process is dispatched; or a
signal terminates it, the scheduler goes on from its exit, and what is current
after that is dispatched. -/
theorem schedule_cases {fuel : Nat} {s s' : State} (wf : WellFormed s)
    (h : schedule fuel s = some s') :
    nextRunnable s = none ∧ s' = s ∨
      ∃ i, nextRunnable s = some i ∧
        ((∀ signum, (selectedFate i s).1 ≠ .terminate signum) ∧
            s' = dispatch (selectedFate i s).2 ∨
          ∃ signum t less, (selectedFate i s).1 = .terminate signum ∧ less < fuel ∧
            schedule less (exitPrepared (s.processes i).pid i (selectedFate i s).2) = some t ∧
            s' = dispatch t) := by
  cases fuel with
  | zero => simp [schedule] at h
  | succ fuel =>
      cases hnext : nextRunnable s with
      | none =>
          rw [schedule_of_none hnext] at h
          exact Or.inl ⟨rfl, (Option.some.inj h).symm⟩
      | some i =>
          refine Or.inr ⟨i, rfl, ?_⟩
          rw [schedule_of_some hnext] at h
          obtain ⟨out, hcall, rfl⟩ := Option.map_eq_some_iff.mp h
          have wf' := wf.evolves (evolves_selectedFate i s)
          have hpid : ((selectedFate i s).2.processes i).pid = (s.processes i).pid :=
            (evolves_selectedFate i s).pid_eq i
          rcases signalHandlePending_cases hcall with ⟨hfate, hout⟩ | ⟨signum, less, hfate, hless, hexit⟩
          · exact Or.inl ⟨hfate, congrArg dispatch hout⟩
          · change exitProcess less ((selectedFate i s).2.processes i).pid _ _ = _ at hexit
            rw [hpid] at hexit
            have hfound : getProcess (s.processes i).pid (selectedFate i s).2 = some i := by
              have hlive := (runnable_of_nextRunnable hnext).1
              rw [← hpid] at hlive ⊢
              exact getProcess_of_pid wf'.uniquePids hlive
            obtain ⟨less', hless', hrun⟩ := exitProcess_found wf' hfound hexit
            exact Or.inr ⟨signum, out.2, less', hfate, by omega, hrun, rfl⟩

/-! ### What is current after `schedule` -/

/-- After its exit, the process selected is still current. -/
theorem exitPrepared_current {s : State} {i : Slot} (hnext : nextRunnable s = some i) :
    ((exitPrepared (s.processes i).pid i (selectedFate i s).2).processes
      (exitPrepared (s.processes i).pid i (selectedFate i s).2).currentProcessIndex).pid ≠ 0 := by
  rw [exitPrepared_index, (evolves_exitPrepared _ i _).pid_eq]
  exact selectedFate_current hnext

/-- Where a process is current, `schedule` leaves one current. -/
theorem schedule_current_live {fuel : Nat} {s s' : State} (wf : WellFormed s)
    (h : schedule fuel s = some s') (hlive : (s.processes s.currentProcessIndex).pid ≠ 0) :
    (s'.processes s'.currentProcessIndex).pid ≠ 0 := by
  induction fuel using Nat.strong_induction_on generalizing s s' with
  | _ fuel ih =>
      rcases schedule_cases wf h with ⟨-, rfl⟩ | ⟨i, hi, hrest⟩
      · exact hlive
      have wf' := wf.evolves (evolves_selectedFate i s)
      rcases hrest with ⟨-, rfl⟩ | ⟨signum, t, less, -, hless, hrun, rfl⟩
      · exact (dispatch_current wf' (selectedFate_current hi)).2
      · have wfe := wf'.evolves (evolves_exitPrepared (s.processes i).pid i _)
        have hlive' := ih less hless wfe hrun (exitPrepared_current hi)
        exact (dispatch_current (wfe.evolves ((evolves_calls less).schedule hrun)) hlive').2

/-- What is current after `schedule` has selected something is running. -/
theorem schedule_current {fuel : Nat} {s s' : State} (wf : WellFormed s)
    (h : schedule fuel s = some s') (hnext : nextRunnable s ≠ none) :
    (s'.processes s'.currentProcessIndex).state = .running ∧
      (s'.processes s'.currentProcessIndex).pid ≠ 0 := by
  rcases schedule_cases wf h with ⟨hnone, -⟩ | ⟨i, hi, hrest⟩
  · exact absurd hnone hnext
  have wf' := wf.evolves (evolves_selectedFate i s)
  rcases hrest with ⟨-, rfl⟩ | ⟨signum, t, less, -, -, hrun, rfl⟩
  · exact dispatch_current wf' (selectedFate_current hi)
  · have wfe := wf'.evolves (evolves_exitPrepared (s.processes i).pid i _)
    exact dispatch_current (wfe.evolves ((evolves_calls less).schedule hrun))
      (schedule_current_live wfe hrun (exitPrepared_current hi))

/-! ### Calls return -/

/-- The number of slots that `schedule` could select. -/
def runnableCount (s : State) : Nat := (Finset.univ.filter fun i => runnable s i).card

theorem runnable_iff_of_evolves {s s' : State} (h : Evolves s s') {i : Slot}
    (hstate : (s'.processes i).state = (s.processes i).state) :
    runnable s' i ↔ runnable s i := by
  unfold runnable
  rw [h.pid_eq i, hstate]

/-- When a selected process leaves, there is one runnable process less. -/
theorem runnableCount_exit {s : State} {i : Slot} (hnext : nextRunnable s = some i) :
    runnableCount (exitPrepared (s.processes i).pid i (selectedFate i s).2) < runnableCount s := by
  have hrun := runnable_of_nextRunnable hnext
  have hevolves : Evolves s (exitPrepared (s.processes i).pid i (selectedFate i s).2) :=
    (evolves_selectedFate i s).trans (evolves_exitPrepared _ i _)
  apply Finset.card_lt_card
  rw [Finset.ssubset_iff_of_subset]
  · refine ⟨i, by simpa using hrun, ?_⟩
    simp only [Finset.mem_filter, Finset.mem_univ, true_and, runnable, exitPrepared_state, if_true]
    simp
  · intro j hj
    simp only [Finset.mem_filter, Finset.mem_univ, true_and] at hj ⊢
    by_cases hji : j = i
    · rw [hji]
      exact hrun
    · refine (runnable_iff_of_evolves hevolves ?_).mp hj
      rw [exitPrepared_state, if_neg hji, selectedFate_state, if_neg hji]

/-- `schedule` returns, with three units of fuel for each runnable process. -/
theorem schedule_returns {fuel : Nat} {s : State} (wf : WellFormed s)
    (hfuel : 3 * runnableCount s < fuel) : ∃ s', schedule fuel s = some s' := by
  induction fuel using Nat.strong_induction_on generalizing s with
  | _ fuel ih =>
      obtain ⟨fuel, rfl⟩ : ∃ k, fuel = k + 1 := ⟨fuel - 1, by omega⟩
      cases hnext : nextRunnable s with
      | none => exact ⟨s, schedule_of_none hnext⟩
      | some i =>
          have hless := runnableCount_exit hnext
          have wf' := wf.evolves (evolves_selectedFate i s)
          have hpid : ((selectedFate i s).2.processes i).pid = (s.processes i).pid :=
            (evolves_selectedFate i s).pid_eq i
          obtain ⟨fuel, rfl⟩ : ∃ k, fuel = k + 3 := ⟨fuel - 3, by omega⟩
          rw [schedule_of_some hnext, signalHandlePending]
          have hstop := (pendingFate_spec i (selected i s)).1
          unfold selectedFate at hpid wf' hless
          rcases hfate : pendingFate i (selected i s) with ⟨fate, t⟩
          rw [hfate] at hstop hpid wf' hless
          cases fate with
          | none => exact ⟨_, rfl⟩
          | handled => exact ⟨_, rfl⟩
          | stop => exact absurd rfl hstop
          | terminate signum =>
              have hfound : getProcess (t.processes i).pid t = some i :=
                getProcess_of_pid wf'.uniquePids
                  (hpid.symm ▸ (runnable_of_nextRunnable hnext).1)
              have hcall := @exitProcess_eq fuel _ (128 + signum) t i wf' hfound
              simp only at hpid hless
              rw [← hpid] at hless
              obtain ⟨u, hu⟩ := ih (fuel + 1) (by omega)
                (wf'.evolves (evolves_exitPrepared (t.processes i).pid i t)) (by omega)
              rw [hu] at hcall
              simp only [hcall]
              exact ⟨_, rfl⟩

theorem runnableCount_le (s : State) : runnableCount s ≤ MAX_PROCESSES :=
  (Finset.card_le_univ _).trans (by simp)

/-- With more fuel than this, every call of a well-formed table returns. -/
def enoughFuel : Nat := 200

theorem schedule_returns_of_enough {fuel : Nat} {s : State} (wf : WellFormed s)
    (hfuel : 3 * MAX_PROCESSES < fuel) : ∃ s', schedule fuel s = some s' := by
  have := runnableCount_le s
  exact schedule_returns wf (by omega)

theorem exitProcess_returns {fuel pid code : Nat} {s : State} (wf : WellFormed s)
    (hfuel : 3 * MAX_PROCESSES + 1 < fuel) : ∃ s', exitProcess fuel pid code s = some s' := by
  obtain ⟨fuel, rfl⟩ : ∃ k, fuel = k + 2 := ⟨fuel - 2, by omega⟩
  cases hfind : getProcess pid s with
  | none => exact ⟨s, by simp [exitProcess, hfind]⟩
  | some i =>
      rw [exitProcess_eq wf hfind]
      exact schedule_returns_of_enough (wf.evolves (evolves_exitPrepared pid i s)) (by omega)

theorem stopProcess_returns {fuel pid : Nat} {s : State} (wf : WellFormed s)
    (hfuel : 3 * MAX_PROCESSES + 1 < fuel) : ∃ s', stopProcess fuel pid s = some s' := by
  obtain ⟨fuel, rfl⟩ : ∃ k, fuel = k + 1 := ⟨fuel - 1, by omega⟩
  cases hfind : getProcess pid s with
  | none => exact ⟨s, by simp [stopProcess, hfind]⟩
  | some i =>
      simp only [stopProcess, hfind]
      exact schedule_returns_of_enough (wf.evolves (evolves_setState s i .stopped)) (by omega)

/-- One call on, there is still enough for an exit or a stop. -/
theorem enoughFuel_succ {fuel : Nat} (hfuel : enoughFuel ≤ fuel) :
    ∃ rest, fuel = rest + 1 ∧ 3 * MAX_PROCESSES + 1 < rest := by
  simp only [enoughFuel, MAX_PROCESSES] at hfuel ⊢
  exact ⟨fuel - 1, by omega, by omega⟩

theorem signalSend_returns {fuel : Nat} {i : Slot} {signum : Int} {s : State}
    (wf : WellFormed s) (hfuel : enoughFuel ≤ fuel) :
    ∃ out, signalSend fuel i signum s = some out := by
  obtain ⟨fuel, rfl, hrest⟩ := enoughFuel_succ hfuel
  obtain ⟨u, hexit⟩ := @exitProcess_returns fuel (s.processes i).pid (128 + SIGKILL) s wf hrest
  obtain ⟨v, hstop⟩ := @stopProcess_returns fuel (s.processes i).pid s wf hrest
  rw [signalSend, hexit, hstop]
  split
  · exact ⟨_, rfl⟩
  split
  · exact ⟨_, rfl⟩
  split
  · exact ⟨_, rfl⟩
  split
  · split
    · exact ⟨_, rfl⟩
    · exact ⟨_, rfl⟩
  · exact ⟨_, rfl⟩

/-! ### A table -/

/-- `init` is running in slot 0, and its child 2 is ready in slot 1. -/
def initAndChild : State where
  processes i :=
    { pid := if i = 0 then 1 else if i = 1 then 2 else 0
      parentPid := if i = 1 then 1 else 0
      state := if i = 0 then .running else .ready
      stack := if i = 1 then 0x300000 else NULL
      sleepUntil := 0
      cpuTime := 0
      pendingSignals := 0
      blockedSignals := 0
      signalActions := fun _ => ⟨SIG_DFL, 0, 0⟩
      signalStack := NULL
      handlingSignal := false
      exitSignal := 0
      processGroup := 1
      sessionId := 1 }
  currentProcessIndex := 0
  signalHandlingEnabled := true
  timerTicks := 0
  timerFrequency := 100
  log := []

theorem wellFormed_initAndChild : WellFormed initAndChild :=
  ⟨by unfold UniquePids; decide +kernel, fun _ => rfl⟩

end Curnel.Process
