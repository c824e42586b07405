/-
What the scheduler does to a process that it cannot select.

A process that is not runnable is never dispatched, however deep `schedule` nests: the
scheduler may tell it `SIGCHLD` or give it to `init`, and does nothing else to it
(`schedule_parked`). So a process that leaves is a zombie when `exit_process` returns, and
stays one whatever happens to the others.
-/

import Curnel.Process.Scheduler

namespace Curnel.Process

/-! ### The scan leaves the others alone -/

theorem pendingScan_other {i j : Slot} (hj : j ≠ i) (n signum : Nat) (s : State) :
    (pendingScan i n signum s).2.processes j = s.processes j := by
  induction n generalizing signum s with
  | zero => rfl
  | succ n ih =>
      have htaken : (clearPending i signum s).processes j = s.processes j := modify_other _ hj
      simp only [pendingScan]
      split
      · split
        · split
          next => exact htaken
          next hterm =>
            split
            next => exact (ih _ _).trans htaken
            next hzero =>
              exact absurd (defaultSignalActions_terminate signum)
                (not_or.mpr ⟨hzero, hterm⟩)
        · split
          · exact (ih _ _).trans htaken
          · exact (Function.update_of_ne hj _ _).trans htaken
      · exact ih _ _

theorem pendingFate_other {i j : Slot} (hj : j ≠ i) (s : State) :
    (pendingFate i s).2.processes j = s.processes j := by
  unfold pendingFate
  split
  · rfl
  split
  · rfl
  · exact pendingScan_other hj _ _ s

theorem selectedFate_other {i j : Slot} (hj : j ≠ i) (s : State) :
    (selectedFate i s).2.processes j = s.processes j :=
  (pendingFate_other hj _).trans (Function.update_of_ne hj _ _)

/-! ### One process left alone -/

/-- From `s` to `s'` the process in slot `j` is told of children and given a parent at most. -/
structure Untouched (j : Slot) (s s' : State) : Prop where
  process : s'.processes j = { s.processes j with
    pendingSignals := (s'.processes j).pendingSignals
    parentPid := (s'.processes j).parentPid }
  pending : ∀ n, n ≠ SIGCHLD → (SigMem (s'.processes j).pendingSignals n ↔
    SigMem (s.processes j).pendingSignals n)

namespace Untouched

variable {j i : Slot} {s s' s'' : State}

theorem of_same (h : s'.processes j = s.processes j) : Untouched j s s' := by
  constructor
  · rw [h]
  · intro n _
    rw [h]

theorem refl (j : Slot) (s : State) : Untouched j s s := of_same rfl

theorem trans (first : Untouched j s s') (second : Untouched j s' s'') : Untouched j s s'' := by
  constructor
  · rw [second.process, first.process]
  · intro n hn
    exact (second.pending n hn).trans (first.pending n hn)

theorem state (h : Untouched j s s') : (s'.processes j).state = (s.processes j).state := by
  rw [h.process]

theorem modify (hj : j ≠ i) (f : Process → Process) : Untouched j s (s.modify i f) :=
  of_same (modify_other f hj)

theorem signalAddPending : Untouched j s (signalAddPending i SIGCHLD s).2 := by
  have hset : Untouched j s (setPending i SIGCHLD s) := by
    by_cases hj : j = i
    · subst hj
      constructor
      · rw [setPending, modify_same]
      · intro n hn
        rw [setPending, modify_same]
        change SigMem (_ ||| _) n ↔ _
        rw [sigMem_or (by decide), or_iff_left hn]
    · exact modify hj _
  rcases signalAddPending_cases i SIGCHLD s with hout | hout
  · rw [hout]
    exact refl j s
  · rw [hout]
    exact hset

theorem notifyParent (i : Slot) : Untouched j s (notifyParent i s) := by
  unfold Process.notifyParent
  split
  · split
    · exact refl j s
    · exact signalAddPending
  · exact refl j s

theorem orphanChildren (pid : Nat) : Untouched j s (orphanChildren pid s) := by
  constructor
  · simp only [Process.orphanChildren]
    split <;> rfl
  · intro n _
    simp only [Process.orphanChildren]
    split <;> rfl

theorem makeZombie (hj : j ≠ i) (pid : Nat) : Untouched j s (makeZombie i pid s) := by
  have hstack : Untouched j s (kfreeStack i s) := by
    unfold kfreeStack
    split
    · exact of_same (modify_other _ hj)
    · exact refl j s
  have hsignal : ∀ t, Untouched j t (kfreeSignalStack i t) := by
    intro t
    unfold kfreeSignalStack
    split
    · exact of_same (modify_other _ hj)
    · exact refl j t
  have hzombie : ∀ t, Untouched j t ((t.setState i .zombie).emit (.exited i)) :=
    fun t => of_same (Function.update_of_ne hj _ _)
  exact ((hstack.trans (hsignal _)).trans (orphanChildren pid)).trans (hzombie _)

theorem exitPrepared (hj : j ≠ i) (pid : Nat) : Untouched j s (exitPrepared pid i s) :=
  (notifyParent i).trans (makeZombie hj pid)

theorem selectedFate (hj : j ≠ i) : Untouched j s (selectedFate i s).2 :=
  of_same (selectedFate_other hj s)

theorem dispatch (wf : WellFormed s) (hpid : (s.processes s.currentProcessIndex).pid ≠ 0)
    (hj : j ≠ s.currentProcessIndex) : Untouched j s (dispatch s) := by
  unfold Process.dispatch switchToProcess
  rw [getProcess_of_pid wf.uniquePids hpid]
  exact of_same (Function.update_of_ne hj _ _)

/-- A process that is left alone stays as runnable as it is. -/
theorem runnable_iff (h : Untouched j s s') : runnable s' j ↔ runnable s j := by
  rw [runnable, runnable, h.process]

end Untouched

/-! ### The scheduler -/

/-- `schedule` leaves a process alone that is not runnable, and does not go to it. -/
theorem schedule_parked {fuel : Nat} {s s' : State} (wf : WellFormed s)
    (h : schedule fuel s = some s') {j : Slot} (hparked : ¬ runnable s j) :
    Untouched j s s' ∧ (s' = s ∨ s'.currentProcessIndex ≠ j) := by
  induction fuel using Nat.strong_induction_on generalizing s s' with
  | _ fuel ih =>
      rcases schedule_cases wf h with ⟨-, rfl⟩ | ⟨i, hi, hrest⟩
      · exact ⟨.refl j s', Or.inl rfl⟩
      have wf' := wf.evolves (evolves_selectedFate i s)
      have hlive := selectedFate_current hi
      have hj : j ≠ i := by
        rintro rfl
        exact hparked (runnable_of_nextRunnable hi)
      have scanned : Untouched j s (selectedFate i s).2 := .selectedFate hj
      rcases hrest with ⟨-, rfl⟩ | ⟨signum, t, less, -, hless, hrun, rfl⟩
      · have hindex := selectedFate_index i s
        refine ⟨scanned.trans (.dispatch wf' hlive (hindex.symm ▸ hj)), Or.inr ?_⟩
        rw [dispatch_index wf' hlive, hindex]
        exact hj.symm
      · -- the nested call goes on from the exit of the process selected
        have exited := scanned.trans (.exitPrepared hj (s.processes i).pid)
        have wfe := wf'.evolves (evolves_exitPrepared (s.processes i).pid i _)
        obtain ⟨nested, hwhere⟩ := ih less hless wfe hrun
          (fun hrun' => hparked (exited.runnable_iff.mp hrun'))
        have hcurrent : t.currentProcessIndex ≠ j := by
          rcases hwhere with rfl | hne
          · rw [exitPrepared_index, selectedFate_index]
            exact hj.symm
          · exact hne
        have wft := wfe.evolves ((evolves_calls less).schedule hrun)
        have hlivet := schedule_current_live wfe hrun (exitPrepared_current hi)
        refine ⟨(exited.trans nested).trans (.dispatch wft hlivet hcurrent.symm), Or.inr ?_⟩
        rw [dispatch_index wft hlivet]
        exact hcurrent

/-- What is left alone by the first part of a call and not runnable after it stays alone. -/
theorem Untouched.schedule {fuel : Nat} {s u s' : State} {j : Slot} (first : Untouched j s u)
    (wf : WellFormed u) (h : schedule fuel u = some s') (hparked : ¬ runnable s j) :
    Untouched j s s' :=
  first.trans (schedule_parked wf h fun hrun => hparked (first.runnable_iff.mp hrun)).1

theorem not_runnable_of_state {s : State} {i : Slot} {v : ProcessState}
    (h : (s.processes i).state = v) (hready : v ≠ .ready) (hrunning : v ≠ .running) :
    ¬ runnable s i := by
  rintro ⟨-, hstate⟩
  rw [h] at hstate
  rcases hstate with heq | heq
  · exact hready heq
  · exact hrunning heq

/-! ### Leaving -/

/-- Nothing touches a process that has left. -/
theorem exitProcess_untouched {fuel pid code : Nat} {s s' : State} {i : Slot} (wf : WellFormed s)
    (hfind : getProcess pid s = some i) (h : exitProcess fuel pid code s = some s') :
    Untouched i (exitPrepared pid i s) s' := by
  obtain ⟨less, -, hrun⟩ := exitProcess_found wf hfind h
  have hzombie : ((exitPrepared pid i s).processes i).state = .zombie := by
    rw [exitPrepared_state, if_pos rfl]
  have hparked := not_runnable_of_state hzombie (by decide) (by decide)
  exact (schedule_parked (wf.evolves (evolves_exitPrepared pid i s)) hrun hparked).1

/-- `exit_process` makes a zombie and leaves alone what is not runnable. -/
theorem exitProcess_kills {fuel pid code : Nat} {s s' : State} {i : Slot} (wf : WellFormed s)
    (hfind : getProcess pid s = some i) (h : exitProcess fuel pid code s = some s') :
    (s'.processes i).state = .zombie ∧
      ∀ j, j ≠ i → ¬ runnable s j → Untouched j s s' := by
  constructor
  · rw [(exitProcess_untouched wf hfind h).state, exitPrepared_state, if_pos rfl]
  · intro j hj hparked
    obtain ⟨less, -, hrun⟩ := exitProcess_found wf hfind h
    have wfe := wf.evolves (evolves_exitPrepared pid i s)
    exact (Untouched.exitPrepared hj pid).schedule wfe hrun hparked

end Curnel.Process
