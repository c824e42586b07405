/-
When `schedule` dispatches the process that it selects.

`schedule` counts the slots it has checked, and takes a count of 64 for a search that found
nothing: a process that is alone and current is not dispatched, though it is what the
kernel has after its start. And where a pending signal terminates the selected process,
`exit_process` has already dispatched another when `schedule` dispatches it once more.
`DispatchesFirst` excludes both, in terms of the table, and `schedule_dispatches_iff` says
that nothing else is wrong.
-/

import Curnel.Process.RoundRobin
import Curnel.Process.Zombies

namespace Curnel.Process

open Lib

/-! ### What one call should do -/

/-- The signals of the process in slot `i` have been checked between `s` and `t`: none is left
to deliver, or a handler has been called. -/
def Checked (s : State) (i : Slot) (t : State) : Prop :=
  (∀ n, ¬ Deliverable t i n) ∨
    ∃ n, Deliverable s i n ∧ t.log = s.log ++
      [.handlerCalled i n (handlerOf s i n) (s.processes i).blockedSignals]

/-- `schedule` returns with a process running that was runnable, after one turn more. -/
def Dispatches (s : State) : Prop :=
  ∃ fuel t i, schedule fuel s = some t ∧ runnable s i ∧ t.currentProcessIndex = i ∧
    (t.processes i).state = .running ∧
    (t.processes i).cpuTime = Word.wadd 64 (s.processes i).cpuTime 1 ∧ Checked s i t

/-- A deliverable signal terminates the process, since all before it are ignored. -/
def Perishes (s : State) (i : Slot) : Prop :=
  ∃ n, Deliverable s i n ∧ Fatal s i n ∧ ∀ m < n, Deliverable s i m → Ignored s i m

/-- The first runnable slot after the current one is another, is where its PID is found,
and no signal is about to terminate its process. -/
def DispatchesFirst (s : State) : Prop :=
  ∃ k, FirstAfter s k ∧ k < MAX_PROCESSES ∧
    getProcess (s.processes (slotAfter s.currentProcessIndex k)).pid s =
      some (slotAfter s.currentProcessIndex k) ∧
    ¬ Perishes s (slotAfter s.currentProcessIndex k)

/-- The current process is runnable, and no other. -/
def OnlyCurrent (s : State) : Prop :=
  runnable s s.currentProcessIndex ∧ ∀ i, i ≠ s.currentProcessIndex → ¬ runnable s i

/-! ### The scan of the selected process -/

section Scan

variable {i : Slot} {s : State} {n : Nat}

theorem ignored_clearPending {m : Nat} : Ignored (clearPending i n s) i m ↔ Ignored s i m := by
  rw [Ignored, Ignored, handlerOf_clearPending]

theorem fatal_clearPending {m : Nat} : Fatal (clearPending i n s) i m ↔ Fatal s i m := by
  rw [Fatal, Fatal, handlerOf_clearPending]

/-- An ignored signal saves nobody. -/
theorem perishes_clearPending (lowest : Lowest s i n) (h : Ignored s i n) :
    Perishes (clearPending i n s) i ↔ Perishes s i := by
  constructor
  · rintro ⟨m, hm, hfatal, hbefore⟩
    refine ⟨m, (deliverable_cleared.mp hm).1, fatal_clearPending.mp hfatal, fun k hk hdel => ?_⟩
    by_cases hkn : k = n
    · rw [hkn]
      exact h
    · exact ignored_clearPending.mp (hbefore k hk (deliverable_cleared.mpr ⟨hdel, hkn⟩))
  · rintro ⟨m, hm, hfatal, hbefore⟩
    have hmn : m ≠ n := by
      rintro rfl
      exact hfatal.not_ignored h
    refine ⟨m, deliverable_cleared.mpr ⟨hm, hmn⟩, fatal_clearPending.mpr hfatal,
      fun k hk hdel => ?_⟩
    exact ignored_clearPending.mpr (hbefore k hk (deliverable_cleared.mp hdel).1)

theorem pendingFate_perishes (h : Perishes s i) : ∃ m, (pendingFate i s).1 = .terminate m := by
  induction s using ignoring_induct (i := i) with
  | hstep s ih =>
      obtain ⟨n, hn, -⟩ := id h
      obtain ⟨m, -, lowest⟩ := exists_lowest hn
      rcases ignored_or_fatal_or_custom s i m with hign | hfatal | hcustom
      · rw [lowest.ignored hign]
        exact ih m lowest hign ((perishes_clearPending lowest hign).mpr h)
      · exact ⟨m, by rw [lowest.fatal hfatal]⟩
      · -- the fatal signal comes after the handler's, which is not ignored
        obtain ⟨n, hn, hfatal, hbefore⟩ := h
        have hmn : m < n := by
          rcases lt_trichotomy m n with hlt | rfl | hlt
          · exact hlt
          · exact absurd hcustom hfatal.not_custom
          · exact absurd hn (lowest.least n hlt)
        rcases hbefore m hmn lowest.deliverable with hign | ⟨hdfl, -⟩
        · exact absurd hign hcustom.2
        · exact absurd hdfl hcustom.1

/-- A handler takes one signal more. -/
theorem Checked.ignored {t : State} (checked : Checked (clearPending i n s) i t) :
    Checked s i t := by
  rcases checked with hnone | ⟨m, hm, hlog⟩
  · exact Or.inl hnone
  · refine Or.inr ⟨m, (deliverable_cleared.mp hm).1, ?_⟩
    rw [handlerOf_clearPending, clearPending_same] at hlog
    exact hlog

theorem pendingFate_spared (h : ¬ Perishes s i) :
    (∀ m, (pendingFate i s).1 ≠ .terminate m) ∧ Checked s i (pendingFate i s).2 := by
  induction s using ignoring_induct (i := i) with
  | hstep s ih =>
      by_cases hsome : ∃ n, Deliverable s i n
      · obtain ⟨n, hn⟩ := hsome
        obtain ⟨m, -, lowest⟩ := exists_lowest hn
        rcases ignored_or_fatal_or_custom s i m with hign | hfatal | hcustom
        · rw [lowest.ignored hign]
          obtain ⟨hfate, checked⟩ :=
            ih m lowest hign fun perishes => h ((perishes_clearPending lowest hign).mp perishes)
          exact ⟨hfate, checked.ignored⟩
        · refine absurd ⟨m, lowest.deliverable, hfatal, fun k hk hdel => ?_⟩ h
          exact absurd hdel (lowest.least k hk)
        · rw [lowest.custom hcustom]
          refine ⟨by simp, Or.inr ⟨m, lowest.deliverable, ?_⟩⟩
          unfold callHandler
          rw [clearPending_same]
          rfl
      · have hnone := not_exists.mp hsome
        rw [pendingFate_of_none hnone]
        exact ⟨by simp, Or.inl hnone⟩

theorem perishes_selected : Perishes (selected i s) i ↔ Perishes s i := by
  have hhandler : ∀ m, handlerOf (selected i s) i m = handlerOf s i m :=
    handlerOf_congr ((evolves_selected i s).lasting i)
  simp only [Perishes, Fatal, Ignored, deliverable_selected, hhandler]

end Scan

/-! ### CPU time -/

/-- No scan gives CPU time. -/
theorem pendingFate_cpuTime (i : Slot) (s : State) (j : Slot) :
    ((pendingFate i s).2.processes j).cpuTime = (s.processes j).cpuTime := by
  refine pendingFate_induct (R := fun s t => (t.processes j).cpuTime = (s.processes j).cpuTime)
    (fun _ => rfl) (fun first second => second.trans first) ?_ ?_ ?_ i s
  · intro i signum s
    exact modify_congr Process.cpuTime rfl j
  · intro i signum handler s
    unfold callHandler
    exact modify_congr Process.cpuTime (by rfl) j
  · intro pid s
    rcases continueProcess_cases pid s with hout | ⟨i, -, -, hout⟩
    · rw [hout]
    · rw [hout]
      exact modify_congr Process.cpuTime (by rfl) j

theorem selectedFate_cpuTime (i : Slot) (s : State) (j : Slot) :
    ((selectedFate i s).2.processes j).cpuTime = (s.processes j).cpuTime := by
  unfold selectedFate
  rw [pendingFate_cpuTime]
  unfold selected State.setState
  exact modify_congr Process.cpuTime (by rfl) j

theorem exitPrepared_cpuTime (pid : Nat) (i : Slot) (s : State) (j : Slot) :
    ((exitPrepared pid i s).processes j).cpuTime = (s.processes j).cpuTime := by
  have hset : ∀ parent, ((setPending parent SIGCHLD s).processes j).cpuTime
      = (s.processes j).cpuTime := fun parent => modify_congr Process.cpuTime rfl j
  have hadd : ∀ parent, ((signalAddPending parent SIGCHLD s).2.processes j).cpuTime
      = (s.processes j).cpuTime := by
    intro parent
    rcases signalAddPending_cases parent SIGCHLD s with hout | hout
    · rw [hout]
    · rw [hout]
      exact hset parent
  have htold : ((notifyParent i s).processes j).cpuTime = (s.processes j).cpuTime := by
    unfold notifyParent
    split
    · split
      · rfl
      · exact hadd _
    · rfl
  rw [exitPrepared, makeZombie_congr Process.cpuTime (fun _ _ => rfl) (fun _ _ => rfl)
    (fun _ _ => rfl) (fun _ _ => rfl), htold]

/-- A turn of the current process. -/
theorem dispatch_cpuTime {s : State} (wf : WellFormed s)
    (hpid : (s.processes s.currentProcessIndex).pid ≠ 0) :
    ((dispatch s).processes (dispatch s).currentProcessIndex).cpuTime =
      Word.wadd 64 (s.processes s.currentProcessIndex).cpuTime 1 := by
  rw [dispatch_index wf hpid, dispatch_eq wf.uniquePids hpid, modify_same]

/-- Every level of the scheduler gives what is current in the end one turn more, beginning with the
last that selects something. -/
theorem schedule_cpuTime {fuel : Nat} {s t : State} (wf : WellFormed s)
    (h : schedule fuel s = some t) (hnext : nextRunnable s ≠ none) :
    ∃ m, 1 ≤ m ∧ m ≤ runnableCount s ∧
      (t.processes t.currentProcessIndex).cpuTime =
        Word.wadd 64 (s.processes t.currentProcessIndex).cpuTime m := by
  induction fuel using Nat.strong_induction_on generalizing s t with
  | _ fuel ih =>
      rcases schedule_cases wf h with ⟨hnone, -⟩ | ⟨i, hi, hrest⟩
      · exact absurd hnone hnext
      have wf' := wf.evolves (evolves_selectedFate i s)
      have hless := runnableCount_exit hi
      rcases hrest with ⟨-, rfl⟩ | ⟨signum, u, less, -, hfuel, hrun, rfl⟩
      · refine ⟨1, Nat.le_refl 1, by omega, ?_⟩
        have hlive := selectedFate_current hi
        rw [dispatch_cpuTime wf' hlive, selectedFate_cpuTime, dispatch_index wf' hlive]
      · have wfe := wf'.evolves (evolves_exitPrepared (s.processes i).pid i _)
        have hexited := exitPrepared_current hi
        have wfu := wfe.evolves ((evolves_calls less).schedule hrun)
        have hlive := schedule_current_live wfe hrun hexited
        have hsame : ∀ j, ((exitPrepared (s.processes i).pid i
            (selectedFate i s).2).processes j).cpuTime = (s.processes j).cpuTime := by
          intro j
          rw [exitPrepared_cpuTime, selectedFate_cpuTime]
        by_cases hlast : nextRunnable (exitPrepared (s.processes i).pid i (selectedFate i s).2) = none
        · rcases schedule_cases wfe hrun with ⟨-, rfl⟩ | ⟨j, hj, -⟩
          · refine ⟨1, Nat.le_refl 1, by omega, ?_⟩
            rw [dispatch_cpuTime wfu hlive, hsame, dispatch_index wfu hlive]
          · rw [hlast] at hj
            cases hj
        · obtain ⟨m, hm, hcount, hcpu⟩ := ih less hfuel wfe hrun hlast
          refine ⟨m + 1, by omega, by omega, ?_⟩
          rw [dispatch_cpuTime wfu hlive, hcpu, hsame, dispatch_index wfu hlive]
          unfold Word.wadd
          omega

/-! ### One call -/

/-- Where the scheduler selects nothing, it gives nobody a turn. -/
theorem not_dispatches_of_none {s : State} (h : nextRunnable s = none) : ¬ Dispatches s := by
  rintro ⟨fuel, t, i, hrun, -, -, -, hcpu, -⟩
  cases fuel with
  | zero => simp [schedule] at hrun
  | succ fuel =>
      rw [schedule_of_none h] at hrun
      cases hrun
      unfold Word.wadd at hcpu
      omega

theorem DispatchesFirst.dispatches {s : State} (h : DispatchesFirst s) : Dispatches s := by
  obtain ⟨k, first, hlt, hself, hspared⟩ := h
  have hnext := first.nextRunnable
  rw [if_neg (by omega)] at hnext
  set i := slotAfter s.currentProcessIndex k with hi
  obtain ⟨hfate, checked⟩ := pendingFate_spared fun perishes => hspared (perishes_selected.mp perishes)
  have hscanned := evolves_selectedFate i s
  have hindex := selectedFate_index i s
  have hswitch : getProcess ((selectedFate i s).2.processes i).pid (selectedFate i s).2 = some i := by
    rw [getProcess_congr hscanned.pid_eq, hscanned.pid_eq i]
    exact hself
  have hdispatch : dispatch (selectedFate i s).2 =
      { (selectedFate i s).2.modify i fun p =>
          { p with state := .running, cpuTime := Word.wadd 64 p.cpuTime 1 } with
        currentProcessIndex := i } := by
    unfold dispatch switchToProcess
    rw [hindex, hswitch]
  have hcall : schedule 2 s = some (dispatch (selectedFate i s).2) := by
    have hstop := (pendingFate_spec i (selected i s)).1
    rw [schedule_of_some hnext, signalHandlePending, selectedFate]
    rcases hscan : pendingFate i (selected i s) with ⟨fate, t⟩
    rw [hscan] at hfate hstop
    cases fate with
    | none => rfl
    | handled => rfl
    | terminate signum => exact absurd rfl (hfate signum)
    | stop => exact absurd rfl hstop
  refine ⟨2, _, i, hcall, first.runnable, ?_, ?_, ?_, ?_⟩
  · rw [hdispatch]
  · rw [hdispatch, modify_same]
  · rw [hdispatch, modify_same, selectedFate_cpuTime]
  · have hbefore : Checked s i (selectedFate i s).2 := by
      rcases checked with hnone | ⟨n, hn, hlog⟩
      · exact Or.inl hnone
      · refine Or.inr ⟨n, deliverable_selected.mp hn, ?_⟩
        rw [handlerOf_congr ((evolves_selected i s).lasting i),
          (evolves_selected i s).blockedSignals_eq i] at hlog
        exact hlog
    rw [hdispatch]
    rcases hbefore with hnone | hlog
    · refine Or.inl fun n hn => hnone n ?_
      rw [deliverable_iff] at hn ⊢
      rw [modify_same] at hn
      exact hn
    · exact Or.inr hlog

/-- A process that is dispatched has been selected, and no signal has ended it. -/
theorem Dispatches.first {s : State} (wf : WellFormed s) (dispatches : Dispatches s) {k : Slot}
    (hrun : runnable s k) (hquiet : ∀ n, ¬ Deliverable s k n) : DispatchesFirst s := by
  obtain ⟨place, first⟩ := exists_firstAfter hrun
  have hnext := first.nextRunnable
  set i := slotAfter s.currentProcessIndex place with hi
  by_cases hround : place = MAX_PROCESSES
  · rw [if_pos hround] at hnext
    exact absurd dispatches (not_dispatches_of_none hnext)
  · rw [if_neg hround] at hnext
    refine ⟨place, first, lt_of_le_of_ne first.le hround,
      getProcess_of_pid wf.uniquePids first.runnable.1, fun perishes => ?_⟩
    rw [← hi] at perishes
    -- the nested call gives its process a turn before this one does
    obtain ⟨fuel, t, j, hcall, -, hj, -, hcpu, -⟩ := dispatches
    obtain ⟨m, hfate⟩ := pendingFate_perishes (perishes_selected.mpr perishes)
    rcases schedule_cases wf hcall with ⟨hnone, -⟩ | ⟨i', hi', hrest⟩
    · rw [hnone] at hnext
      cases hnext
    rw [hnext] at hi'
    cases hi'
    rcases hrest with ⟨hspared, -⟩ | ⟨signum, u, less, -, -, hnested, rfl⟩
    · exact hspared m hfate
    have evolves := (evolves_selectedFate i s).trans (evolves_exitPrepared (s.processes i).pid i _)
    have wfe := wf.evolves evolves
    have hki : k ≠ i := by
      rintro rfl
      obtain ⟨n, hn, -⟩ := perishes
      exact hquiet n hn
    have hsurvives : nextRunnable (exitPrepared (s.processes i).pid i (selectedFate i s).2) ≠ none := by
      rw [Ne, nextRunnable_eq_none_iff, not_forall]
      refine ⟨k, fun hall => hall ?_ ?_⟩
      · rw [exitPrepared_index, selectedFate_index]
        exact hki
      · refine (runnable_iff_of_evolves evolves ?_).mpr hrun
        rw [exitPrepared_state, if_neg hki, selectedFate_state, if_neg hki]
    obtain ⟨turns, hturns, hcount, hnestedCpu⟩ := schedule_cpuTime wfe hnested hsurvives
    have hlive := schedule_current_live wfe hnested (exitPrepared_current hnext)
    have wfu := wfe.evolves ((evolves_calls less).schedule hnested)
    have hmax := runnableCount_le (exitPrepared (s.processes i).pid i (selectedFate i s).2)
    rw [← hj, dispatch_cpuTime wfu hlive, hnestedCpu, exitPrepared_cpuTime, selectedFate_cpuTime,
      dispatch_index wfu hlive] at hcpu
    unfold Word.wadd at hcpu
    have hbound : MAX_PROCESSES = 64 := rfl
    omega

theorem idle_iff {s : State} :
    (∀ fuel, 0 < fuel → schedule fuel s = some s) ↔ nextRunnable s = none := by
  constructor
  · intro hidle
    by_contra hsome
    obtain ⟨i, hi⟩ := Option.ne_none_iff_exists'.mp hsome
    have hcall := hidle 1 Nat.one_pos
    rw [schedule_of_some hi] at hcall
    simp [signalHandlePending] at hcall
  · intro hnone fuel hfuel
    obtain ⟨fuel, rfl⟩ : ∃ k, fuel = k + 1 := ⟨fuel - 1, by omega⟩
    exact schedule_of_none hnone

/-- **Dispatching.** Let some runnable process have no deliverable signal. If the first
runnable slot after the current one is another, the first with its PID, and about to be
terminated by no signal, one call of `schedule` leaves a process running after one turn more,
with its signals checked; and on a well-formed table only then. It returns idly with a process runnable exactly if that
is the current one, and no other. -/
theorem schedule_dispatches_iff {s : State} :
    ((∃ k, runnable s k ∧ ∀ n, ¬ Deliverable s k n) →
        (DispatchesFirst s → Dispatches s) ∧
          (WellFormed s → (Dispatches s ↔ DispatchesFirst s))) ∧
      (((∀ fuel, 0 < fuel → schedule fuel s = some s) → ∀ i, ¬ runnable s i) ↔
        ¬ OnlyCurrent s) := by
  constructor
  · rintro ⟨k, hrun, hquiet⟩
    refine ⟨DispatchesFirst.dispatches, fun wf => ⟨fun dispatches => ?_, fun first => ?_⟩⟩
    · exact dispatches.first wf hrun hquiet
    · exact first.dispatches
  · rw [idle_iff, nextRunnable_eq_none_iff]
    constructor
    · rintro hnone ⟨hcurrent, hothers⟩
      exact hnone hothers s.currentProcessIndex hcurrent
    · intro hnot hothers i hrun
      by_cases hi : i = s.currentProcessIndex
      · rw [hi] at hrun
        exact hnot ⟨hrun, hothers⟩
      · exact hothers i hi hrun

/-- `init` is current, and its child is dispatched. -/
theorem schedule_dispatches_iff_initAndChild : DispatchesFirst initAndChild ∧ Dispatches initAndChild := by
  have hquiet : ∀ i n, ¬ Deliverable initAndChild i n := fun i n hn => not_sigMem_zero n hn.pending
  have first : DispatchesFirst initAndChild := by
    refine ⟨1, ⟨by decide, by decide, by decide +kernel, fun m hm hlt => by omega⟩, by decide,
      by decide +kernel, ?_⟩
    rintro ⟨n, hn, -⟩
    exact hquiet _ n hn
  refine ⟨first, ?_⟩
  exact (schedule_dispatches_iff.1 ⟨1, by decide +kernel, hquiet 1⟩).1 first

/-- The table of a kernel that has just started: the shell is ready, in slot 0. -/
def booted : State := (createProcess [115, 104, 101, 108, 108] 0 0 0 (.start true 0 100)).2.kernel

/-- The kernel's first call of `schedule`, and every later one, dispatches nothing. -/
theorem schedule_leaves_shell :
    (runnable booted 0 ∧ ∀ n, ¬ Deliverable booted 0 n) ∧ ¬ Dispatches booted ∧
      ∀ fuel, 0 < fuel → schedule fuel booted = some booted := by
  have hnone : nextRunnable booted = none := by decide +kernel
  refine ⟨⟨by decide +kernel, fun n hn => not_sigMem_zero n hn.pending⟩,
    not_dispatches_of_none hnone, idle_iff.mpr hnone⟩

end Curnel.Process
