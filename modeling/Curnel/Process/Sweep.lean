/-
Whom a timer tick wakes.

`timer_handler` looks the PIDs 0 to 63 up, and the table holds PIDs 1 to 64. A tick makes
ready exactly the sleepers among the PIDs it looks up whose time has come
(`timerTick_processes`), and the scheduler that it enters leaves sleepers alone
(`schedule_asleep`). So it wakes everybody it should exactly if no process with
PID 64 is due (`timer_wakes_iff`).
-/

import Curnel.Process.Create
import Curnel.Process.Parked

namespace Curnel.Process

open Lib Word

/-! ### The clock -/

/-- The ticks and the frequency are the same. -/
structure SameTime (s s' : State) : Prop where
  ticks : s'.timerTicks = s.timerTicks
  frequency : s'.timerFrequency = s.timerFrequency

namespace SameTime

variable {s s' s'' : State}

theorem refl (s : State) : SameTime s s := ⟨rfl, rfl⟩

theorem trans (first : SameTime s s') (second : SameTime s' s'') : SameTime s s'' :=
  ⟨second.ticks.trans first.ticks, second.frequency.trans first.frequency⟩

theorem switchToProcess (pid : Nat) (s : State) : SameTime s (switchToProcess pid s) := by
  unfold Process.switchToProcess
  split
  · exact refl s
  · exact ⟨rfl, rfl⟩

theorem continueProcess (pid : Nat) (s : State) : SameTime s (continueProcess pid s) := by
  rcases continueProcess_cases pid s with hout | ⟨i, -, -, hout⟩
  · rw [hout]
    exact refl s
  · rw [hout]
    exact ⟨rfl, rfl⟩

theorem makeZombie (i : Slot) (pid : Nat) (s : State) : SameTime s (makeZombie i pid s) := by
  have hstack : SameTime s (kfreeStack i s) := by
    unfold kfreeStack
    split
    · exact ⟨rfl, rfl⟩
    · exact refl s
  have hsignal : ∀ t, SameTime t (kfreeSignalStack i t) := by
    intro t
    unfold kfreeSignalStack
    split
    · exact ⟨rfl, rfl⟩
    · exact refl t
  exact (hstack.trans (hsignal _)).trans ⟨rfl, rfl⟩

theorem signalAddPending (i : Slot) (signum : Int) (s : State) :
    SameTime s (signalAddPending i signum s).2 := by
  rcases signalAddPending_cases i signum s with hout | hout
  · rw [hout]
    exact refl s
  · rw [hout]
    exact ⟨rfl, rfl⟩

theorem keptByCalls : KeptByCalls SameTime where
  refl := refl
  trans := trans
  index _ _ := ⟨rfl, rfl⟩
  setState _ _ _ _ := ⟨rfl, rfl⟩
  switchToProcess := switchToProcess
  continueProcess := continueProcess
  makeZombie := makeZombie
  signalAddPending i signum s _ _ _ := signalAddPending i signum s
  pendingFate := pendingFate_induct refl trans (fun _ _ _ => ⟨rfl, rfl⟩)
    (fun _ _ _ _ => ⟨rfl, rfl⟩) continueProcess

theorem schedule {fuel : Nat} (h : schedule fuel s = some s') : SameTime s s' :=
  (keptByCalls.calls fuel).schedule h

end SameTime

theorem timerWake_time (pid : Nat) (s : State) : SameTime s (timerWake pid s) := by
  unfold timerWake
  split
  · exact .refl s
  split
  · split
    · exact ⟨rfl, rfl⟩
    · exact .refl s
  · exact .refl s

theorem timerLoop_time (n pid : Nat) (s : State) : SameTime s (timerLoop n pid s) := by
  induction n generalizing pid s with
  | zero => exact .refl s
  | succ n ih => exact (timerWake_time pid s).trans (ih (pid + 1) _)

/-- The tick to which `timer_handler` counts. -/
def nextTick (s : State) : Nat := wadd 64 s.timerTicks 1

theorem timerTick_ticks (s : State) : (timerTick s).timerTicks = nextTick s :=
  (timerLoop_time ..).ticks

theorem timerTick_frequency (s : State) : (timerTick s).timerFrequency = s.timerFrequency :=
  (timerLoop_time ..).frequency

/-! ### The sweep -/

/-- The process in slot `j` sleeps, and its time has come. -/
def Due (s : State) (j : Slot) : Prop :=
  (s.processes j).state = .sleeping ∧ (s.processes j).sleepUntil ≤ s.timerTicks

instance (s : State) (j : Slot) : Decidable (Due s j) := inferInstanceAs (Decidable (_ ∧ _))

/-- What one look-up does to a slot: it is made ready if it is the one found, and due. -/
theorem timerWake_processes (pid : Nat) (s : State) (j : Slot) :
    (timerWake pid s).processes j
      = if getProcess pid s = some j ∧ Due s j then { s.processes j with state := .ready }
        else s.processes j := by
  unfold timerWake
  cases hfind : getProcess pid s with
  | none => simp
  | some i =>
      have hdue : (if (s.processes i).state = .sleeping then
          if s.timerTicks ≥ (s.processes i).sleepUntil then s.setState i .ready else s
          else s) = if Due s i then s.setState i .ready else s := by
        by_cases hsleeping : (s.processes i).state = .sleeping
        · by_cases htime : (s.processes i).sleepUntil ≤ s.timerTicks
          · have h : Due s i := ⟨hsleeping, htime⟩
            rw [if_pos hsleeping, if_pos htime, if_pos h]
          · have h : ¬ Due s i := fun h => htime h.2
            rw [if_pos hsleeping, if_neg htime, if_neg h]
        · have h : ¬ Due s i := fun h => hsleeping h.1
          rw [if_neg hsleeping, if_neg h]
      dsimp only
      rw [hdue]
      by_cases hj : j = i
      · subst hj
        by_cases h : Due s j
        · rw [if_pos h, if_pos ⟨rfl, h⟩, State.setState, modify_same]
        · rw [if_neg h, if_neg fun hboth => h hboth.2]
      · have hother : ¬ (some i = some j ∧ Due s j) := fun h => hj (Option.some.inj h.1).symm
        rw [if_neg hother]
        split
        · exact modify_other _ hj
        · rfl

theorem timerWake_pid (pid : Nat) (s : State) (j : Slot) :
    ((timerWake pid s).processes j).pid = (s.processes j).pid := by
  rw [timerWake_processes]
  split <;> rfl

/-- The loop makes ready who is due among the processes with the PIDs it looks up. -/
theorem timerLoop_processes {s : State} (unique : UniquePids s) (n pid : Nat) {j : Slot}
    (hlive : (s.processes j).pid ≠ 0) :
    (timerLoop n pid s).processes j
      = if pid ≤ (s.processes j).pid ∧ (s.processes j).pid < pid + n ∧ Due s j then
          { s.processes j with state := .ready }
        else s.processes j := by
  induction n generalizing pid s with
  | zero =>
      rw [timerLoop, if_neg]
      omega
  | succ n ih =>
      have hpids := timerWake_pid pid s
      have unique' : UniquePids (timerWake pid s) := fun i k hi hik => by
        rw [hpids i] at hi hik
        rw [hpids k] at hik
        exact unique i k hi hik
      rw [timerLoop, ih unique' (pid + 1) (by rwa [hpids j]), hpids j]
      by_cases hpid : (s.processes j).pid = pid
      · -- found now, and looked up no more
        have hfind : getProcess pid s = some j := hpid ▸ getProcess_of_pid unique hlive
        have hpast : ¬ (pid + 1 ≤ (s.processes j).pid ∧
            (s.processes j).pid < pid + 1 + n ∧ Due (timerWake pid s) j) := by omega
        have hrange : (pid ≤ (s.processes j).pid ∧ (s.processes j).pid < pid + (n + 1) ∧
            Due s j) ↔ getProcess pid s = some j ∧ Due s j := by
          rw [hfind]
          constructor
          · exact fun h => ⟨rfl, h.2.2⟩
          · exact fun h => ⟨by omega, by omega, h.2⟩
        rw [if_neg hpast, timerWake_processes]
        exact if_congr hrange.symm rfl rfl
      · have hother : ¬ (getProcess pid s = some j ∧ Due s j) :=
          fun h => hpid (getProcess_pid h.1)
        have hsame : (timerWake pid s).processes j = s.processes j := by
          rw [timerWake_processes, if_neg hother]
        have hdue : Due (timerWake pid s) j ↔ Due s j := by
          rw [Due, Due, hsame, (timerWake_time pid s).ticks]
        have hrange : (pid + 1 ≤ (s.processes j).pid ∧ (s.processes j).pid < pid + 1 + n ∧
            Due (timerWake pid s) j) ↔ pid ≤ (s.processes j).pid ∧
            (s.processes j).pid < pid + (n + 1) ∧ Due s j := by
          rw [hdue]
          constructor
          · exact fun h => ⟨by omega, by omega, h.2.2⟩
          · exact fun h => ⟨by omega, by omega, h.2.2⟩
        rw [hsame]
        exact if_congr hrange rfl rfl

/-- The time of the process in slot `j` has come at the next tick. -/
def DueNext (s : State) (j : Slot) : Prop :=
  (s.processes j).state = .sleeping ∧ (s.processes j).sleepUntil ≤ nextTick s

instance (s : State) (j : Slot) : Decidable (DueNext s j) := inferInstanceAs (Decidable (_ ∧ _))

theorem timerTick_processes {s : State} (unique : UniquePids s) {j : Slot}
    (hlive : (s.processes j).pid ≠ 0) :
    (timerTick s).processes j
      = if (s.processes j).pid < MAX_PROCESSES ∧ DueNext s j then
          { s.processes j with state := .ready }
        else s.processes j := by
  unfold timerTick
  rw [timerLoop_processes (s := { s with timerTicks := wadd 64 s.timerTicks 1 }) unique _ _ hlive]
  have hrange : (0 ≤ (s.processes j).pid ∧ (s.processes j).pid < 0 + MAX_PROCESSES ∧
      Due { s with timerTicks := wadd 64 s.timerTicks 1 } j) ↔
      (s.processes j).pid < MAX_PROCESSES ∧ DueNext s j := by
    rw [Nat.zero_add]
    exact ⟨fun h => h.2, fun h => ⟨Nat.zero_le _, h⟩⟩
  exact if_congr hrange rfl rfl

/-! ### The scheduler and the sleepers -/

/-- The scheduler puts nobody to sleep. -/
theorem schedule_awake {fuel : Nat} {s s' : State} (wf : WellFormed s)
    (h : schedule fuel s = some s') {j : Slot} (hsleeping : (s'.processes j).state = .sleeping) :
    (s.processes j).state = .sleeping := by
  induction fuel using Nat.strong_induction_on generalizing s s' with
  | _ fuel ih =>
      rcases schedule_cases wf h with ⟨-, rfl⟩ | ⟨i, hi, hrest⟩
      · exact hsleeping
      have wf' := wf.evolves (evolves_selectedFate i s)
      rcases hrest with ⟨-, rfl⟩ | ⟨signum, t, less, -, hless, hrun, rfl⟩
      · rw [dispatch_state wf' (selectedFate_current hi)] at hsleeping
        split at hsleeping
        · cases hsleeping
        rw [selectedFate_state] at hsleeping
        split at hsleeping
        · cases hsleeping
        · exact hsleeping
      · have wfe := wf'.evolves (evolves_exitPrepared (s.processes i).pid i _)
        have wft := wfe.evolves ((evolves_calls less).schedule hrun)
        rw [dispatch_state wft (schedule_current_live wfe hrun (exitPrepared_current hi))]
          at hsleeping
        split at hsleeping
        · cases hsleeping
        have hbefore := ih less hless wfe hrun hsleeping
        rw [exitPrepared_state] at hbefore
        split at hbefore
        · cases hbefore
        rw [selectedFate_state] at hbefore
        split at hbefore
        · cases hbefore
        · exact hbefore

/-- The scheduler leaves a sleeper alone. -/
theorem schedule_asleep {fuel : Nat} {s s' : State} (wf : WellFormed s)
    (h : schedule fuel s = some s') {j : Slot} (hsleeping : (s.processes j).state = .sleeping) :
    (s'.processes j).state = .sleeping ∧
      (s'.processes j).sleepUntil = (s.processes j).sleepUntil := by
  have alone := (schedule_parked wf h
    (not_runnable_of_state hsleeping (by decide) (by decide))).1
  constructor
  · rw [alone.state, hsleeping]
  · rw [alone.process]

theorem sleepProcess_eq {fuel pid ms : Nat} {s : State} {i : Slot}
    (hfind : getProcess pid s = some i) :
    sleepProcess fuel pid ms s = schedule fuel (fallAsleep i ms s) := by
  rw [sleepProcess, hfind]
  rfl

theorem WellFormed.fallAsleep {s : State} (wf : WellFormed s) (i : Slot) (ms : Nat) :
    WellFormed (fallAsleep i ms s) := wf.evolves (evolves_modify rfl rfl)

/-- Who is put to sleep sleeps when the call returns. -/
theorem fallAsleep_asleep {fuel ms : Nat} {s s' : State} {i : Slot} (wf : WellFormed s)
    (h : schedule fuel (fallAsleep i ms s) = some s') :
    (s'.processes i).state = .sleeping ∧
      (s'.processes i).sleepUntil = wadd 64 s.timerTicks ms := by
  have hasleep : (fallAsleep i ms s).processes i = { s.processes i with
      sleepUntil := wadd 64 s.timerTicks ms, state := .sleeping } := modify_same s i _
  obtain ⟨hstate, huntil⟩ := schedule_asleep (wf.fallAsleep i ms) h (by rw [hasleep])
  refine ⟨hstate, huntil.trans ?_⟩
  rw [hasleep]

/-! ### Ticks -/

/-- From `s` to `s'`, a tick later: nobody sleeps whose time has come, and nobody has been
woken before. -/
structure WakesOnTime (s s' : State) : Prop where
  woken : ∀ j, (s'.processes j).pid ≠ 0 → (s'.processes j).state = .sleeping →
    s'.timerTicks < (s'.processes j).sleepUntil
  early : ∀ j, (s.processes j).pid ≠ 0 → (s.processes j).state = .sleeping →
    s'.timerTicks < (s.processes j).sleepUntil → (s'.processes j).state = .sleeping

/-- Nobody with PID 64 is due. -/
def LastNotDue (s : State) : Prop := ∀ j, (s.processes j).pid = MAX_PROCESSES → ¬ DueNext s j

theorem timerTick_pid (s : State) (j : Slot) :
    ((timerTick s).processes j).pid = (s.processes j).pid := (evolves_timerTick s).pid_eq j

theorem timerTick_wakes_iff {t : Table} (numbered : Numbered t) :
    WakesOnTime t.kernel (timerTick t.kernel) ↔ LastNotDue t.kernel := by
  have unique := numbered.wellFormed.uniquePids
  constructor
  · intro wakes j hlast hdue
    have hlive : (t.kernel.processes j).pid ≠ 0 := by
      rw [hlast]
      decide
    have hmissed : ¬ ((t.kernel.processes j).pid < MAX_PROCESSES ∧ DueNext t.kernel j) :=
      fun h => h.1.ne hlast
    have hsame := timerTick_processes unique hlive
    rw [if_neg hmissed] at hsame
    have hlater := wakes.woken j (by rwa [hsame]) (by rw [hsame, hdue.1])
    rw [timerTick_ticks, hsame] at hlater
    exact absurd hdue.2 (Nat.not_le_of_lt hlater)
  · intro hlast
    constructor
    · intro j hlive hsleeping
      rw [timerTick_pid] at hlive
      rw [timerTick_ticks]
      have htick := timerTick_processes unique hlive
      split at htick
      · rw [htick] at hsleeping
        cases hsleeping
      next hkept =>
        rw [htick] at hsleeping ⊢
        by_contra hdue
        have hnext : DueNext t.kernel j := ⟨hsleeping, Nat.le_of_not_lt hdue⟩
        have hpid := numbered.pid_of_live hlive
        refine hkept ⟨?_, hnext⟩
        refine lt_of_le_of_ne ?_ fun heq => hlast j heq hnext
        rw [hpid]
        exact j.isLt
    · intro j hlive hsleeping hearly
      rw [timerTick_ticks] at hearly
      have hno : ¬ ((t.kernel.processes j).pid < MAX_PROCESSES ∧ DueNext t.kernel j) :=
        fun h => Nat.not_le_of_lt hearly h.2.2
      rw [timerTick_processes unique hlive, if_neg hno, hsleeping]

/-- What the scheduler does after a tick makes no difference. -/
theorem WakesOnTime.schedule_iff {fuel : Nat} {s u s' : State} (wf : WellFormed u)
    (h : schedule fuel u = some s') : WakesOnTime s s' ↔ WakesOnTime s u := by
  have hticks := (SameTime.schedule h).ticks
  have hpid : ∀ j, (s'.processes j).pid = (u.processes j).pid :=
    fun j => ((evolves_calls fuel).schedule h).pid_eq j
  constructor
  · intro wakes
    constructor
    · intro j hlive hsleeping
      obtain ⟨hstill, huntil⟩ := schedule_asleep wf h hsleeping
      rw [← hticks, ← huntil]
      exact wakes.woken j (by rwa [hpid j]) hstill
    · intro j hlive hsleeping hearly
      exact schedule_awake wf h (wakes.early j hlive hsleeping (by rwa [hticks]))
  · intro wakes
    constructor
    · intro j hlive hsleeping
      have hbefore := schedule_awake wf h hsleeping
      rw [hticks, (schedule_asleep wf h hbefore).2]
      exact wakes.woken j (by rwa [← hpid j]) hbefore
    · intro j hlive hsleeping hearly
      rw [hticks] at hearly
      exact (schedule_asleep wf h (wakes.early j hlive hsleeping hearly)).1

theorem timerHandler_wakes_iff {fuel : Nat} {t : Table} {s' : State} (numbered : Numbered t)
    (h : timerHandler fuel t.kernel = some s') :
    WakesOnTime t.kernel s' ↔ LastNotDue t.kernel := by
  rw [← timerTick_wakes_iff numbered]
  rcases (timerHandler_cases h).2 with ⟨-, hrun⟩ | ⟨-, hout⟩
  · exact WakesOnTime.schedule_iff (numbered.wellFormed.evolves (evolves_timerTick t.kernel)) hrun
  · rw [hout]

/-- In every reachable table a tick wakes whom it should and nobody else exactly if no
process with PID 64 is due: after the sweep, and when the interrupt returns. -/
theorem timer_wakes_iff {enabled : Bool} {ticks frequency : Nat} {ops : List (Option TableOp)}
    {t : Table} (run : Run KernelStep (.start enabled ticks frequency) ops t) :
    (WakesOnTime t.kernel (timerTick t.kernel) ↔ LastNotDue t.kernel) ∧
      ∀ t', TableStep t (.call .timerHandler) t' →
        (WakesOnTime t.kernel t'.kernel ↔ LastNotDue t.kernel) := by
  have numbered := run_numbered run
  refine ⟨timerTick_wakes_iff numbered, fun t' step => ?_⟩
  cases step with
  | call step =>
      cases step with
      | timerHandler h => exact timerHandler_wakes_iff numbered h

/-- `init` is created, and put to sleep until tick 2. -/
theorem timer_wakes_iff_init_sleeps :
    ∃ ops t, Run KernelStep (.start true 0 100) ops t ∧
      (t.kernel.processes 0).state = .sleeping ∧
      WakesOnTime t.kernel (timerTick t.kernel) := by
  have created : Run KernelStep (.start true 0 100) [some (.createProcess [] 0 0 0)] _ :=
    .single (.table .createProcess)
  have numbered := run_numbered created
  have hfind : getProcess 1 (createProcess [] 0 0 0 (.start true 0 100)).2.kernel = some 0 := by
    decide +kernel
  obtain ⟨s, hs⟩ := @schedule_returns_of_enough enoughFuel _
    (numbered.wellFormed.fallAsleep 0 2) (by decide)
  have asleep := (fallAsleep_asleep numbered.wellFormed hs).1
  have step : TableStep _ (.call (.sleepProcess 1 2)) _ :=
    .call (.sleepProcess ((sleepProcess_eq hfind).trans hs))
  have run := created.append (.single (.table step))
  refine ⟨_, _, run, asleep, (timer_wakes_iff run).1.mpr fun j hlast _ => ?_⟩
  have hlive := (run_numbered run).pid_of_live (i := j) (by rw [hlast]; decide)
  have hfirst := ((run_numbered run).live_iff j).mp (by rw [hlast]; decide)
  change (j : Nat) + 1 < 2 at hfirst
  rw [hlast] at hlive
  rw [← hlive] at hfirst
  exact absurd hfirst (by decide)

/-- With enough calls of `create_process` the table fills up. -/
theorem exists_filled {n : Nat} (hn : n ≤ MAX_PROCESSES) :
    ∃ ops t, Run KernelStep (.start true 0 100) ops t ∧ t.nextPid = n + 1 ∧
      t.kernel.timerTicks = 0 ∧ t.kernel.timerFrequency = 100 := by
  induction n with
  | zero => exact ⟨[], _, .nil _, rfl, rfl, rfl⟩
  | succ n ih =>
      obtain ⟨ops, t, run, hnext, htime⟩ := ih (by omega)
      have numbered := run_numbered run
      cases hfree : getProcess 0 t.kernel with
      | none =>
          have hfull := numbered.full_iff.mp hfree
          omega
      | some i =>
          have step : TableStep t (.createProcess [] 0 0 0) (t.created i [] 0 0 0) := by
            have hstep := @TableStep.createProcess t [] 0 0 0
            rwa [createProcess, hfree] at hstep
          have hmax : MAX_PROCESSES = 64 := rfl
          refine ⟨_, _, run.append (.single (.table step)), ?_, htime⟩
          simp only [Table.created]
          rw [wadd_of_lt (by omega), hnext]

/-- The timer interrupt returns, with a frequency of 100 Hz. -/
theorem timerHandler_returns {s : State} (wf : WellFormed s) (hfrequency : s.timerFrequency = 100) :
    ∃ s', timerHandler enoughFuel s = some s' := by
  have hrest : (timerTick s).timerFrequency = 100 := (timerTick_frequency s).trans hfrequency
  rw [timerHandler_eq, hrest, if_neg (by decide), Nat.div_self (by decide), Nat.mod_one,
    if_pos rfl]
  exact schedule_returns_of_enough (wf.evolves (evolves_timerTick s)) (by decide)

/-- The 64th process sleeps, its time comes, and the tick leaves it asleep. -/
theorem timer_misses_last :
    ∃ ops t t', Run KernelStep (.start true 0 100) ops t ∧
      TableStep t (.call .timerHandler) t' ∧ ¬ WakesOnTime t.kernel t'.kernel := by
  obtain ⟨ops, t, run, hnext, hticks, hfrequency⟩ := exists_filled (le_refl MAX_PROCESSES)
  have numbered := run_numbered run
  have hpid : (t.kernel.processes 63).pid = 64 := by
    rw [numbered.pid, if_pos (by rw [hnext]; decide)]
    rfl
  have hfind : getProcess 64 t.kernel = some 63 := by
    have hfound := getProcess_of_pid numbered.wellFormed.uniquePids (i := 63) (by rw [hpid]; decide)
    rwa [hpid] at hfound
  obtain ⟨s, hs⟩ := @schedule_returns_of_enough enoughFuel _
    (numbered.wellFormed.fallAsleep 63 0) (by decide)
  obtain ⟨hasleep, huntil⟩ := fallAsleep_asleep numbered.wellFormed hs
  have step : Step t.kernel (.sleepProcess 64 0) s :=
    .sleepProcess ((sleepProcess_eq hfind).trans hs)
  have asleep := run.append (.single (.table (.call step)))
  have numbered' := run_numbered asleep
  obtain ⟨s', hs'⟩ := timerHandler_returns numbered'.wellFormed
    ((SameTime.schedule hs).frequency.trans hfrequency)
  refine ⟨_, _, _, asleep, .call (.timerHandler hs'), fun wakes => ?_⟩
  have hlast := (timerHandler_wakes_iff numbered' hs').mp wakes 63
  refine hlast ((step.evolves.pid_eq 63).trans hpid) ⟨hasleep, ?_⟩
  rw [huntil, hticks]
  exact Nat.zero_le _

end Curnel.Process
