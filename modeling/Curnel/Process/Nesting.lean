/-
How deep the scheduler nests.

`schedule`, `signal_handle_pending` and `exit_process` call each other; `Calls` lists the
calls that each of them makes, with the state in which it makes them. What decreases
along a chain of nested calls is the number of runnable processes other than the one that
is being handled: `schedule` takes up one of them, and `exit_process` makes it a zombie
before it enters `schedule` again. So a chain has at most one `schedule` for each process
that was runnable at its start, and one more.
-/

import Curnel.Lib.Run
import Curnel.Process.Scheduler

namespace Curnel.Process

open Lib

/-! ### Calls -/

/-- A call, and the state in which it is made. -/
inductive Call where
  | schedule (s : State)
  | signalHandlePending (i : Slot) (s : State)
  | exitProcess (pid exitCode : Nat) (s : State)
  | stopProcess (pid : Nat) (s : State)
  | signalSend (i : Slot) (signum : Int) (s : State)

namespace Call

def state : Call → State
  | .schedule s => s
  | .signalHandlePending _ s => s
  | .exitProcess _ _ s => s
  | .stopProcess _ s => s
  | .signalSend _ _ s => s

/-- The state in which the call returns. -/
def run (fuel : Nat) : Call → Option State
  | .schedule s => Process.schedule fuel s
  | .signalHandlePending i s => (Process.signalHandlePending fuel i s).map Prod.snd
  | .exitProcess pid exitCode s => Process.exitProcess fuel pid exitCode s
  | .stopProcess pid s => Process.stopProcess fuel pid s
  | .signalSend i signum s => (Process.signalSend fuel i signum s).map Prod.snd

def isSchedule : Call → Bool
  | .schedule _ => true
  | _ => false

end Call

/-- `exit_process` has sent a signal to the process with a PID, if there is one. -/
inductive Sent (pid : Nat) (signum : Int) (s : State) : State → Prop where
  | nobody : getProcess pid s = none → Sent pid signum s s
  | returned {fuel : Nat} {i : Slot} {out : Int × State} :
      getProcess pid s = some i → signalSend fuel i signum s = some out → Sent pid signum s out.2

/-- `exit_process` of the process in slot `i` has dealt with its exit signal. -/
def ExitSignalSent (i : Slot) (s t : State) : Prop :=
  if (s.processes i).exitSignal ≠ 0 then
    Sent (s.processes i).parentPid (s.processes i).exitSignal s t
  else t = s

/-- It has told the parent. -/
def ParentTold (i : Slot) (s t : State) : Prop :=
  if (s.processes i).parentPid ≠ 0 then Sent (s.processes i).parentPid SIGCHLD s t else t = s

/-- The calls that a call makes. -/
inductive Calls : Call → Call → Prop where
  | handles {s : State} {i : Slot} :
      nextRunnable s = some i → Calls (.schedule s) (.signalHandlePending i (selected i s))
  | terminates {s t : State} {i : Slot} {signum : Nat} :
      pendingFate i s = (.terminate signum, t) →
      Calls (.signalHandlePending i s) (.exitProcess (t.processes i).pid (128 + signum) t)
  | stops {s t : State} {i : Slot} :
      pendingFate i s = (.stop, t) →
      Calls (.signalHandlePending i s) (.stopProcess (t.processes i).pid t)
  | sendsExitSignal {s : State} {pid exitCode : Nat} {i parent : Slot} :
      getProcess pid s = some i → (s.processes i).exitSignal ≠ 0 →
      getProcess (s.processes i).parentPid s = some parent →
      Calls (.exitProcess pid exitCode s) (.signalSend parent (s.processes i).exitSignal s)
  | tellsParent {s t : State} {pid exitCode : Nat} {i parent : Slot} :
      getProcess pid s = some i → ExitSignalSent i s t → (t.processes i).parentPid ≠ 0 →
      getProcess (t.processes i).parentPid t = some parent →
      Calls (.exitProcess pid exitCode s) (.signalSend parent SIGCHLD t)
  | leaves {s t u : State} {pid exitCode : Nat} {i : Slot} :
      getProcess pid s = some i → ExitSignalSent i s t → ParentTold i t u →
      Calls (.exitProcess pid exitCode s) (.schedule (makeZombie i pid u))
  | stopped {s : State} {pid : Nat} {i : Slot} :
      getProcess pid s = some i → Calls (.stopProcess pid s) (.schedule (s.setState i .stopped))
  | kills {s : State} {i : Slot} :
      Calls (.signalSend i SIGKILL s) (.exitProcess (s.processes i).pid (128 + SIGKILL) s)
  | sendsStop {s : State} {i : Slot} :
      Calls (.signalSend i SIGSTOP s) (.stopProcess (s.processes i).pid s)

/-! ### The calls of `exit_process` without an exit signal -/

theorem exitSignalSent_iff {s t : State} {i : Slot} (wf : WellFormed s) :
    ExitSignalSent i s t ↔ t = s := by
  rw [ExitSignalSent, if_neg (not_not.mpr (wf.exitSignal i))]

theorem parentTold_iff {s t : State} {i : Slot} : ParentTold i s t ↔ t = notifyParent i s := by
  unfold ParentTold notifyParent
  by_cases hparent : (s.processes i).parentPid ≠ 0
  · rw [if_pos hparent, if_pos hparent]
    constructor
    · intro sent
      cases sent with
      | nobody hnone => rw [hnone]
      | @returned fuel parent out hsome hsend =>
          cases fuel with
          | zero => simp [signalSend] at hsend
          | succ fuel =>
              rw [signalSend_sigchld] at hsend
              cases hsend
              rw [hsome]
    · rintro rfl
      cases hfind : getProcess (s.processes i).parentPid s with
      | none => exact .nobody hfind
      | some parent => exact .returned hfind (signalSend_sigchld 0 parent s)
  · rw [if_neg hparent, if_neg hparent]

/-! ### Returning -/

theorem Call.schedule_returns_iff {fuel : Nat} {s : State} :
    ((Call.schedule s).run (fuel + 1)).isSome ↔
      ∀ d, Calls (.schedule s) d → (d.run fuel).isSome := by
  cases hnext : nextRunnable s with
  | none =>
      refine iff_of_true ?_ fun d hd => ?_
      · rw [Call.run, schedule_of_none hnext]
        rfl
      · cases hd with
        | handles hsome =>
            rw [hnext] at hsome
            cases hsome
  | some i =>
      rw [Call.run, schedule_of_some hnext, Option.isSome_map]
      constructor
      · intro hreturns d hd
        cases hd with
        | handles hsome =>
            rw [hnext] at hsome
            cases hsome
            rw [Call.run, Option.isSome_map]
            exact hreturns
      · intro hall
        have hcallee := hall _ (.handles hnext)
        rw [Call.run, Option.isSome_map] at hcallee
        exact hcallee

theorem Call.signalHandlePending_returns_iff {fuel : Nat} {i : Slot} {s : State} :
    ((Call.signalHandlePending i s).run (fuel + 1)).isSome ↔
      ∀ d, Calls (.signalHandlePending i s) d → (d.run fuel).isSome := by
  rw [Call.run, Option.isSome_map, Process.signalHandlePending]
  rcases hfate : pendingFate i s with ⟨fate, t⟩
  cases fate with
  | none =>
      refine iff_of_true rfl fun d hd => ?_
      cases hd with
      | terminates h => simp [hfate] at h
      | stops h => simp [hfate] at h
  | handled =>
      refine iff_of_true rfl fun d hd => ?_
      cases hd with
      | terminates h => simp [hfate] at h
      | stops h => simp [hfate] at h
  | terminate signum =>
      simp only [Option.isSome_map]
      constructor
      · intro hreturns d hd
        cases hd with
        | terminates h =>
            rw [hfate] at h
            cases h
            exact hreturns
        | stops h => simp [hfate] at h
      · intro hall
        exact hall _ (.terminates hfate)
  | stop =>
      simp only [Option.isSome_map]
      constructor
      · intro hreturns d hd
        cases hd with
        | terminates h => simp [hfate] at h
        | stops h =>
            rw [hfate] at h
            cases h
            exact hreturns
      · intro hall
        exact hall _ (.stops hfate)

theorem Call.exitProcess_returns_iff {fuel pid exitCode : Nat} {s : State} (wf : WellFormed s) :
    ((Call.exitProcess pid exitCode s).run (fuel + 1)).isSome ↔
      ∀ d, Calls (.exitProcess pid exitCode s) d → (d.run fuel).isSome := by
  cases hfind : getProcess pid s with
  | none =>
      refine iff_of_true ?_ fun d hd => ?_
      · simp [Call.run, Process.exitProcess, hfind]
      · cases hd with
        | sendsExitSignal h => simp [hfind] at h
        | tellsParent h => simp [hfind] at h
        | leaves h => simp [hfind] at h
  | some i =>
      have hleaves : Calls (.exitProcess pid exitCode s) (.schedule (exitPrepared pid i s)) :=
        .leaves hfind ((exitSignalSent_iff wf).mpr rfl) (parentTold_iff.mpr rfl)
      cases fuel with
      | zero =>
          rw [Call.run, Nat.zero_add, exitProcess_one wf hfind]
          refine iff_of_false (by simp) fun hall => ?_
          have hnone := hall _ hleaves
          simp [Call.run, Process.schedule] at hnone
      | succ fuel =>
          rw [Call.run, exitProcess_eq wf hfind]
          constructor
          · intro hreturns d hd
            cases hd with
            | sendsExitSignal h hsignal => exact absurd (wf.exitSignal _) hsignal
            | tellsParent => rw [Call.run, signalSend_sigchld]; rfl
            | leaves h hsent htold =>
                rw [hfind] at h
                cases h
                rw [(exitSignalSent_iff wf).mp hsent] at htold
                rw [parentTold_iff.mp htold]
                exact hreturns
          · intro hall
            have hreturns := hall _ hleaves
            rw [Call.run] at hreturns
            exact hreturns

theorem Call.stopProcess_returns_iff {fuel pid : Nat} {s : State} :
    ((Call.stopProcess pid s).run (fuel + 1)).isSome ↔
      ∀ d, Calls (.stopProcess pid s) d → (d.run fuel).isSome := by
  cases hfind : getProcess pid s with
  | none =>
      refine iff_of_true ?_ fun d hd => ?_
      · simp [Call.run, Process.stopProcess, hfind]
      · cases hd with
        | stopped h => simp [hfind] at h
  | some i =>
      have hrun : Process.stopProcess (fuel + 1) pid s =
          Process.schedule fuel (s.setState i .stopped) := by
        simp only [Process.stopProcess, hfind]
      rw [Call.run, hrun]
      constructor
      · intro hreturns d hd
        cases hd with
        | stopped h =>
            rw [hfind] at h
            cases h
            exact hreturns
      · intro hall
        exact hall _ (.stopped hfind)

theorem Call.signalSend_returns_iff {fuel : Nat} {i : Slot} {signum : Int} {s : State} :
    ((Call.signalSend i signum s).run (fuel + 1)).isSome ↔
      ∀ d, Calls (.signalSend i signum s) d → (d.run fuel).isSome := by
  rw [Call.run, Option.isSome_map, Process.signalSend]
  split
  next hrange =>
    refine iff_of_true rfl fun d hd => ?_
    cases hd with
    | kills => exact absurd hrange (by decide)
    | sendsStop => exact absurd hrange (by decide)
  split
  next hkill =>
    subst hkill
    rw [Option.isSome_map]
    constructor
    · intro hreturns d hd
      cases hd with
      | kills => exact hreturns
    · intro hall
      exact hall _ .kills
  split
  next hstop =>
    subst hstop
    rw [Option.isSome_map]
    constructor
    · intro hreturns d hd
      cases hd with
      | sendsStop => exact hreturns
    · intro hall
      exact hall _ .sendsStop
  next hkill hstop =>
    have hnone : ∀ d, Calls (.signalSend i signum s) d → (d.run fuel).isSome := by
      intro d hd
      cases hd with
      | kills => exact absurd rfl hkill
      | sendsStop => exact absurd rfl hstop
    refine iff_of_true ?_ hnone
    split
    · split <;> rfl
    · rfl

/-- A call returns, with one unit of fuel more, exactly where the calls that it makes do. -/
theorem Call.returns_iff {fuel : Nat} {c : Call} (wf : WellFormed c.state) :
    (c.run (fuel + 1)).isSome ↔ ∀ d, Calls c d → (d.run fuel).isSome := by
  cases c with
  | schedule s => exact schedule_returns_iff
  | signalHandlePending i s => exact signalHandlePending_returns_iff
  | exitProcess pid exitCode s => exact exitProcess_returns_iff wf
  | stopProcess pid s => exact stopProcess_returns_iff
  | signalSend i signum s => exact signalSend_returns_iff

theorem signalHandlePending_returns {fuel : Nat} {i : Slot} {s : State} (wf : WellFormed s)
    (hfuel : enoughFuel ≤ fuel) : ∃ out, signalHandlePending fuel i s = some out := by
  obtain ⟨fuel, rfl, hrest⟩ := enoughFuel_succ hfuel
  have wf' := wf.evolves (evolves_pendingFate i s)
  rw [signalHandlePending]
  rcases hfate : pendingFate i s with ⟨fate, t⟩
  rw [hfate] at wf'
  cases fate with
  | none => exact ⟨_, rfl⟩
  | handled => exact ⟨_, rfl⟩
  | terminate signum =>
      obtain ⟨u, hu⟩ := @exitProcess_returns fuel (t.processes i).pid (128 + signum) t wf' hrest
      simp only [hu]
      exact ⟨_, rfl⟩
  | stop =>
      obtain ⟨u, hu⟩ := @stopProcess_returns fuel (t.processes i).pid t wf' hrest
      simp only [hu]
      exact ⟨_, rfl⟩

theorem Call.returns {fuel : Nat} {c : Call} (wf : WellFormed c.state)
    (hfuel : enoughFuel ≤ fuel) : ∃ s, c.run fuel = some s := by
  have hrest : 3 * MAX_PROCESSES + 1 < fuel := by
    simp only [enoughFuel, MAX_PROCESSES] at hfuel ⊢
    omega
  cases c with
  | schedule s => exact schedule_returns_of_enough wf (by omega)
  | signalHandlePending i s =>
      obtain ⟨out, hout⟩ := @signalHandlePending_returns fuel i s wf hfuel
      exact ⟨out.2, by rw [Call.run, hout]; rfl⟩
  | exitProcess pid exitCode s => exact exitProcess_returns wf hrest
  | stopProcess pid s => exact stopProcess_returns wf hrest
  | signalSend i signum s =>
      obtain ⟨out, hout⟩ := @signalSend_returns fuel i signum s wf hfuel
      exact ⟨out.2, by rw [Call.run, hout]; rfl⟩

/-! ### What decreases -/

/-- The number of runnable slots other than `i`. -/
def othersRunnable (i : Slot) (s : State) : Nat :=
  (Finset.univ.filter fun j => j ≠ i ∧ runnable s j).card

theorem othersRunnable_le (i : Slot) (s : State) : othersRunnable i s ≤ runnableCount s := by
  apply Finset.card_le_card
  intro j hj
  simp only [Finset.mem_filter, Finset.mem_univ, true_and] at hj ⊢
  exact hj.2

theorem othersRunnable_congr {i : Slot} {s t : State}
    (h : ∀ j, j ≠ i → (runnable t j ↔ runnable s j)) : othersRunnable i t = othersRunnable i s := by
  unfold othersRunnable
  congr 1
  apply Finset.filter_congr
  intro j _
  exact and_congr_right (h j)

/-- Without the one that is selected there is one less. -/
theorem othersRunnable_lt {i : Slot} {s : State} (h : runnable s i) :
    othersRunnable i s < runnableCount s := by
  apply Finset.card_lt_card
  rw [Finset.ssubset_iff_of_subset]
  · exact ⟨i, by simpa using h, by simp⟩
  · intro j hj
    simp only [Finset.mem_filter, Finset.mem_univ, true_and] at hj ⊢
    exact hj.2

theorem runnableCount_of_parked {i : Slot} {s : State} (h : ¬ runnable s i) :
    othersRunnable i s = runnableCount s := by
  unfold othersRunnable runnableCount
  congr 1
  apply Finset.filter_congr
  intro j _
  constructor
  · intro hj
    exact hj.2
  · intro hj
    refine ⟨?_, hj⟩
    rintro rfl
    exact h hj

/-- The slot that a PID finds counts as the slot it is taken from. -/
theorem othersRunnable_getProcess {i k : Slot} {s : State} (wf : WellFormed s)
    (h : getProcess (s.processes i).pid s = some k) : othersRunnable k s = othersRunnable i s := by
  have hpid := getProcess_pid h
  by_cases hlive : (s.processes i).pid = 0
  · have hparked : ∀ j, (s.processes j).pid = 0 → ¬ runnable s j := fun j hj hrun => hrun.1 hj
    rw [runnableCount_of_parked (hparked k (hpid.trans hlive)),
      runnableCount_of_parked (hparked i hlive)]
  · rw [wf.uniquePids i k hlive hpid.symm]

/-- How many calls of `schedule` a chain can still nest. -/
def Call.weight : Call → Nat
  | .schedule s => runnableCount s + 1
  | .signalHandlePending i s => othersRunnable i s + 1
  | .exitProcess pid _ s =>
      match getProcess pid s with
      | none => 0
      | some i => othersRunnable i s + 1
  | .stopProcess pid s =>
      match getProcess pid s with
      | none => 0
      | some i => othersRunnable i s + 1
  | .signalSend i signum s =>
      if signum = SIGKILL ∨ signum = SIGSTOP then othersRunnable i s + 1 else 0

theorem Call.weight_le (c : Call) : c.weight ≤ runnableCount c.state + 1 := by
  cases c with
  | schedule s => exact Nat.le_refl _
  | signalHandlePending i s => exact Nat.succ_le_succ (othersRunnable_le i s)
  | exitProcess pid exitCode s =>
      rw [weight]
      split
      · exact Nat.zero_le _
      next i _ => exact Nat.succ_le_succ (othersRunnable_le i s)
  | stopProcess pid s =>
      rw [weight]
      split
      · exact Nat.zero_le _
      next i _ => exact Nat.succ_le_succ (othersRunnable_le i s)
  | signalSend i signum s =>
      rw [weight]
      split
      · exact Nat.succ_le_succ (othersRunnable_le i s)
      · exact Nat.zero_le _

/-- A process that leaves or stops is none of the runnable ones. -/
theorem runnableCount_parked {i : Slot} {s t : State} (evolves : Evolves s t)
    (hothers : ∀ j, j ≠ i → (t.processes j).state = (s.processes j).state)
    (hparked : ¬ runnable t i) : runnableCount t = othersRunnable i s := by
  rw [← runnableCount_of_parked hparked]
  exact othersRunnable_congr fun j hj => runnable_iff_of_evolves evolves (hothers j hj)

/-- The weight of a call by PID, of the process in slot `i`. -/
theorem weight_getProcess {i : Slot} {s t : State} (wf : WellFormed t) (evolves : Evolves s t)
    (hstate : ∀ j, (t.processes j).state = (s.processes j).state) (exitCode : Nat) :
    (Call.exitProcess (t.processes i).pid exitCode t).weight ≤ othersRunnable i s + 1 ∧
      (Call.stopProcess (t.processes i).pid t).weight ≤ othersRunnable i s + 1 := by
  have hsame : othersRunnable i t = othersRunnable i s :=
    othersRunnable_congr fun j _ => runnable_iff_of_evolves evolves (hstate j)
  rw [Call.weight, Call.weight]
  cases hfind : getProcess (t.processes i).pid t with
  | none => exact ⟨Nat.zero_le _, Nat.zero_le _⟩
  | some k =>
      simp only
      rw [othersRunnable_getProcess wf hfind, hsame]
      exact ⟨Nat.le_refl _, Nat.le_refl _⟩

/-- **One call.** What it calls has less weight, by the call of `schedule` that it is. -/
theorem Calls.weight {c d : Call} (wf : WellFormed c.state) (calls : Calls c d) :
    WellFormed d.state ∧ d.weight + (if c.isSchedule then 1 else 0) ≤ c.weight := by
  cases calls with
  | @handles s i hnext =>
      refine ⟨WellFormed.evolves wf (evolves_selected i s), ?_⟩
      have hless := othersRunnable_lt (runnable_of_nextRunnable hnext)
      have hsame : othersRunnable i (selected i s) = othersRunnable i s := by
        refine othersRunnable_congr fun j hj => ?_
        refine runnable_iff_of_evolves (evolves_selected i s) ?_
        rw [selected_state, if_neg hj]
      simp only [Call.weight, Call.isSchedule, hsame, if_true]
      omega
  | @terminates s t i signum hfate =>
      have scanned := evolves_pendingFate i s
      have hstate := (pendingFate_spec i s).2.state
      rw [hfate] at scanned hstate
      have wft := WellFormed.evolves wf scanned
      exact ⟨wft, (weight_getProcess wft scanned hstate (128 + signum)).1⟩
  | @stops s t i hfate => exact absurd (congrArg Prod.fst hfate) (pendingFate_spec i s).1
  | @sendsExitSignal s pid exitCode i parent _ hsignal _ =>
      exact absurd (WellFormed.exitSignal wf i) hsignal
  | @tellsParent s t pid exitCode i parent _ hsent _ _ =>
      rw [(exitSignalSent_iff wf).mp hsent]
      refine ⟨wf, ?_⟩
      have hnone : (Call.signalSend parent SIGCHLD s).weight = 0 := by
        rw [Call.weight, if_neg (by decide)]
      change (Call.signalSend parent SIGCHLD s).weight + 0 ≤ _
      rw [hnone]
      exact Nat.zero_le _
  | @leaves s t u pid exitCode i hfind hsent htold =>
      rw [(exitSignalSent_iff wf).mp hsent] at htold
      rw [parentTold_iff.mp htold]
      have evolves := evolves_exitPrepared pid i s
      refine ⟨WellFormed.evolves wf evolves, ?_⟩
      have hcount : runnableCount (exitPrepared pid i s) = othersRunnable i s := by
        refine runnableCount_parked evolves (fun j hj => ?_) fun hrun => ?_
        · rw [exitPrepared_state, if_neg hj]
        · have hstate := hrun.2
          rw [exitPrepared_state, if_pos rfl] at hstate
          simp at hstate
      change runnableCount (exitPrepared pid i s) + 1 + 0 ≤ _
      simp only [Call.weight, hfind, hcount]
      exact Nat.le_refl _
  | @stopped s pid i hfind =>
      have evolves := evolves_setState s i .stopped
      refine ⟨WellFormed.evolves wf evolves, ?_⟩
      have hcount : runnableCount (s.setState i .stopped) = othersRunnable i s := by
        refine runnableCount_parked evolves (fun j hj => ?_) fun hrun => ?_
        · rw [State.setState, modify_other _ hj]
        · have hstate := hrun.2
          rw [State.setState, modify_same] at hstate
          simp at hstate
      change runnableCount (s.setState i .stopped) + 1 + 0 ≤ _
      simp only [Call.weight, hfind, hcount]
      exact Nat.le_refl _
  | @kills s i =>
      refine ⟨wf, ?_⟩
      have hsigkill : (Call.signalSend i SIGKILL s).weight = othersRunnable i s + 1 := by
        rw [Call.weight, if_pos (Or.inl rfl)]
      rw [hsigkill]
      exact (weight_getProcess wf (.refl s) (fun _ => rfl) (128 + SIGKILL)).1
  | @sendsStop s i =>
      refine ⟨wf, ?_⟩
      have hsigstop : (Call.signalSend i SIGSTOP s).weight = othersRunnable i s + 1 := by
        rw [Call.weight, if_pos (Or.inr rfl)]
      rw [hsigstop]
      exact (weight_getProcess wf (.refl s) (fun _ => rfl) 0).2

/-- **Nesting.** On a well-formed table `schedule`, `signal_handle_pending` and
`exit_process`, and what else calls them, return; and a chain of nested calls has at most one
`schedule` for each process that was runnable at its start, and one more. -/
theorem calls_nest {c : Call} (wf : WellFormed c.state) :
    (∀ fuel, enoughFuel ≤ fuel → ∃ s, c.run fuel = some s) ∧
      ∀ rest, List.IsChain Calls (c :: rest) →
        (c :: rest).countP Call.isSchedule ≤ runnableCount c.state + 1 := by
  refine ⟨fun fuel hfuel => Call.returns wf hfuel, fun rest chain => ?_⟩
  refine (countP_le_weight (I := fun c => WellFormed c.state) (fun hI hcall => hcall.weight hI)
    (fun {a} _ => ?_) wf chain).trans c.weight_le
  cases a with
  | schedule s => exact Nat.le_add_left 1 _
  | signalHandlePending i s => exact Nat.zero_le _
  | exitProcess pid exitCode s => exact Nat.zero_le _
  | stopProcess pid s => exact Nat.zero_le _
  | signalSend i signum s => exact Nat.zero_le _

theorem calls_nest_initAndChild :
    (∀ fuel, enoughFuel ≤ fuel → ∃ s, (Call.schedule initAndChild).run fuel = some s) ∧
      ∀ rest, List.IsChain Calls (.schedule initAndChild :: rest) →
        (Call.schedule initAndChild :: rest).countP Call.isSchedule ≤
          runnableCount initAndChild + 1 :=
  @calls_nest (.schedule initAndChild) wellFormed_initAndChild

end Curnel.Process
