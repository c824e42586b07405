/-
A process that is stopped and continued while it waits.

`stop_process` forgets whether its process was asleep or blocked, and `continue_process`
makes it ready. While it is stopped nothing that is done to other processes makes it
runnable (`AwaitStep.stopped`); when it is continued it is, whatever it waited for. So the
stop goes unnoticed exactly where a sleeping process is continued after its time has come.
-/

import Curnel.Process.Awaiting
import Curnel.Process.Parked

namespace Curnel.Process

open Lib

/-! ### Stopping, waiting and continuing -/

/-- The call stops the process in slot `i`. -/
def Stops (i : Slot) (s : State) (op : Op) : Prop :=
  op = .signalSend i SIGSTOP ∨ op = .stopProcess (s.processes i).pid

/-- The call continues it. -/
def Continues (i : Slot) (s : State) (op : Op) : Prop :=
  op = .signalSend i SIGCONT ∨ op = .continueProcess (s.processes i).pid

/-- The call is not about the process in slot `i`. -/
def OpElsewhere (i : Slot) (s : State) : Op → Prop
  | .signalSend k _ => k ≠ i
  | .signalHandlePending k => k ≠ i
  | .schedule => True
  | .exitProcess pid _ => pid ≠ (s.processes i).pid
  | .stopProcess pid => pid ≠ (s.processes i).pid
  | .continueProcess pid => pid ≠ (s.processes i).pid
  | .blockProcess pid => pid ≠ (s.processes i).pid
  | .unblockProcess pid => pid ≠ (s.processes i).pid
  | .sleepProcess pid _ => pid ≠ (s.processes i).pid
  | .timerHandler => True

/-- The step is not about the process in slot `i`, and does not block it for being current. -/
def Elsewhere (i : Slot) (s : State) : AwaitOp → Prop
  | .table (.call op) => OpElsewhere i s op
  | .sysWait _ => s.currentProcessIndex ≠ i
  | .waitForProcessGroup _ _ _ => s.currentProcessIndex ≠ i
  | .sysSigsuspend _ => s.currentProcessIndex ≠ i
  | _ => True

/-- A step on other processes than the one in slot `i`. -/
def StepElsewhere (i : Slot) (y : Awaiting) (op : AwaitOp) (z : Awaiting) : Prop :=
  AwaitStep y op z ∧ Elsewhere i y.table.kernel op

/-- What waited in slot `i` in the state `s`, and has not been unblocked, is runnable in `u` only
if it slept and its time has come. -/
def OnTime (i : Slot) (s u : State) : Prop :=
  runnable u i → (s.processes i).state = .sleeping ∧ (s.processes i).sleepUntil ≤ u.timerTicks

/-- A stop, steps on other processes, and a continue. -/
structure StopContinue (i : Slot) (y y₁ : Awaiting) (ops : List AwaitOp) (y₂ z : Awaiting) :
    Prop where
  stop : ∃ op, Stops i y.table.kernel op ∧ AwaitStep y (.table (.call op)) y₁
  between : Run (StepElsewhere i) y₁ ops y₂
  resume : ∃ op, Continues i y₂.table.kernel op ∧ AwaitStep y₂ (.table (.call op)) z

/-- The process that waited in `y` is runnable on time only, in every state from the stop on to
the one after the continue. -/
def Transparent (i : Slot) (y y₁ : Awaiting) (ops : List AwaitOp) (y₂ z : Awaiting) : Prop :=
  (∀ before after u, before ++ after = ops → Run (StepElsewhere i) y₁ before u →
      Run (StepElsewhere i) u after y₂ → OnTime i y.table.kernel u.table.kernel) ∧
    OnTime i y.table.kernel z.table.kernel

/-! ### A stopped process -/

/-- The process in slot `i` is there, and stopped. -/
structure Stopped (i : Slot) (s : State) : Prop where
  live : (s.processes i).pid ≠ 0
  state : (s.processes i).state = .stopped

namespace Stopped

variable {i : Slot} {s s' : State}

theorem parked (h : Stopped i s) : ¬ runnable s i :=
  not_runnable_of_state h.state (by decide) (by decide)

theorem untouched (h : Stopped i s) (same : Untouched i s s') : Stopped i s' := by
  constructor
  · rw [same.process]
    exact h.live
  · rw [same.state]
    exact h.state

theorem modify (h : Stopped i s) {k : Slot} {f : Process → Process}
    (hpid : (f (s.processes k)).pid = (s.processes k).pid)
    (hstate : (f (s.processes k)).state = (s.processes k).state) : Stopped i (s.modify k f) := by
  constructor
  · rw [modify_congr Process.pid hpid i]
    exact h.live
  · rw [modify_congr Process.state hstate i]
    exact h.state

/-- What another PID finds is another process. -/
theorem ne_of_pid {k : Slot} {pid : Nat} (hfind : getProcess pid s = some k)
    (hne : pid ≠ (s.processes i).pid) : i ≠ k := by
  rintro rfl
  exact hne (getProcess_pid hfind).symm

/-- Writing to another process and entering the scheduler. -/
theorem schedule {fuel : Nat} {u : State} (h : Stopped i s) (first : Untouched i s u)
    (wf : WellFormed u) (hrun : Process.schedule fuel u = some s') : Stopped i s' :=
  h.untouched (first.schedule wf hrun h.parked)

theorem exitProcess {fuel pid code : Nat} (h : Stopped i s) (wf : WellFormed s)
    (hne : pid ≠ (s.processes i).pid) (hrun : Process.exitProcess fuel pid code s = some s') :
    Stopped i s' := by
  rcases exitProcess_cases wf hrun with ⟨-, rfl⟩ | ⟨k, less, hfind, -, hrun⟩
  · exact h
  · exact h.schedule (.exitPrepared (ne_of_pid hfind hne) pid)
      (wf.evolves (evolves_exitPrepared pid k s)) hrun

theorem stopProcess {fuel pid : Nat} (h : Stopped i s) (wf : WellFormed s)
    (hne : pid ≠ (s.processes i).pid) (hrun : Process.stopProcess fuel pid s = some s') :
    Stopped i s' := by
  rcases stopProcess_cases hrun with ⟨-, rfl⟩ | ⟨k, less, hfind, -, hrun⟩
  · exact h
  · exact h.schedule (.modify (ne_of_pid hfind hne) _)
      (wf.evolves (evolves_setState s k .stopped)) hrun

theorem continueProcess {pid : Nat} (h : Stopped i s) (hne : pid ≠ (s.processes i).pid) :
    Stopped i (continueProcess pid s) := by
  rcases continueProcess_cases pid s with hout | ⟨k, hfind, -, hout⟩
  · rw [hout]
    exact h
  · rw [hout]
    exact h.untouched (.modify (ne_of_pid hfind hne) _)

/-- The timer wakes who sleeps. -/
theorem timerTick (h : Stopped i s) : Stopped i (timerTick s) := by
  have wake : ∀ pid t, Stopped i t → Stopped i (timerWake pid t) := by
    intro pid t ht
    unfold timerWake
    split
    · exact ht
    next k _ =>
      split
      next hasleep =>
        have hne : i ≠ k := by
          rintro rfl
          rw [ht.state] at hasleep
          cases hasleep
        split
        · exact ht.untouched (.modify hne _)
        · exact ht
      next => exact ht
  have loop : ∀ n pid t, Stopped i t → Stopped i (timerLoop n pid t) := by
    intro n
    induction n with
    | zero => exact fun _ t ht => ht
    | succ n ih => exact fun pid t ht => ih (pid + 1) _ (wake pid t ht)
  exact loop MAX_PROCESSES 0 _ ⟨h.live, h.state⟩

end Stopped

/-- A call that is about other processes leaves a stopped one stopped. -/
theorem Step.stopped {i : Slot} {s s' : State} {op : Op} (wf : WellFormed s) (h : Stopped i s)
    (elsewhere : OpElsewhere i s op) (step : Step s op s') : Stopped i s' := by
  cases step with
  | @signalSend fuel k signum _ out hrun =>
      have hpid : (s.processes k).pid ≠ (s.processes i).pid := by
        intro heq
        exact elsewhere (wf.uniquePids i k h.live heq.symm).symm
      rcases signalSend_cases hrun with ⟨-, rfl⟩ | ⟨less, -, hexit⟩ | ⟨less, -, hstop⟩ |
        ⟨-, rfl | rfl⟩ | ⟨-, rfl⟩
      · exact h
      · exact h.exitProcess wf hpid hexit
      · exact h.stopProcess wf hpid hstop
      · exact h.continueProcess hpid
      · exact h
      · have hset : Stopped i (setPending k signum.toNat s) := h.modify rfl rfl
        rcases signalAddPending_cases k signum s with hout | hout
        · rw [hout]
          exact h
        · rw [hout]
          exact hset
  | @signalHandlePending fuel k _ out hrun =>
      have scanned := h.untouched (.of_same (pendingFate_other elsewhere.symm s))
      have evolves := evolves_pendingFate k s
      rcases signalHandlePending_cases hrun with ⟨-, hout⟩ | ⟨signum, less, -, -, hexit⟩
      · rw [hout]
        exact scanned
      · refine scanned.exitProcess (wf.evolves evolves) ?_ hexit
        rw [evolves.pid_eq k, evolves.pid_eq i]
        intro heq
        exact elsewhere (wf.uniquePids i k h.live heq.symm).symm
  | schedule hrun => exact h.schedule (.refl i s) wf hrun
  | exitProcess hrun => exact h.exitProcess wf elsewhere hrun
  | stopProcess hrun => exact h.stopProcess wf elsewhere hrun
  | continueProcess => exact h.continueProcess elsewhere
  | blockProcess =>
      unfold Process.blockProcess
      split
      · exact h
      next k hfind => exact h.untouched (.modify (Stopped.ne_of_pid hfind elsewhere) _)
  | @unblockProcess pid _ =>
      rcases unblockProcess_cases pid s with hout | ⟨k, hfind, -, hout⟩
      · rw [hout]
        exact h
      · rw [hout]
        exact h.untouched (.modify (Stopped.ne_of_pid hfind elsewhere) _)
  | sleepProcess hrun =>
      rcases sleepProcess_cases hrun with ⟨-, rfl⟩ | ⟨k, hfind, hrun⟩
      · exact h
      · exact h.schedule (.modify (Stopped.ne_of_pid hfind elsewhere) _)
          (wf.evolves (evolves_modify rfl rfl)) hrun
  | timerHandler hrun =>
      rcases (timerHandler_cases hrun).2 with ⟨-, hrun⟩ | ⟨-, hout⟩
      · exact h.timerTick.schedule (.refl i _) (wf.evolves (evolves_timerTick s)) hrun
      · rw [hout]
        exact h.timerTick

/-! ### Steps of the system -/

theorem Numbered.of_same {t : Table} {s : State} (numbered : Numbered t)
    (hpid : ∀ i, (s.processes i).pid = (t.kernel.processes i).pid)
    (hexit : ∀ i, (s.processes i).exitSignal = (t.kernel.processes i).exitSignal) :
    Numbered { t with kernel := s } :=
  ⟨numbered.pos, numbered.le, fun i => (hpid i).trans (numbered.pid i),
    fun i => (hexit i).trans (numbered.exitSignal i)⟩

theorem Numbered.modify {t : Table} (numbered : Numbered t) {k : Slot} {f : Process → Process}
    (hpid : (f (t.kernel.processes k)).pid = (t.kernel.processes k).pid)
    (hexit : (f (t.kernel.processes k)).exitSignal = (t.kernel.processes k).exitSignal) :
    Numbered { t with kernel := t.kernel.modify k f } :=
  numbered.of_same (modify_congr Process.pid hpid) (modify_congr Process.exitSignal hexit)

section Blocking

variable {i current : Slot} {t : Table} {s : State} {fuel : Nat} {f : Process → Process}

/-- A call that blocks its caller, who is another process. -/
theorem Stopped.blocks (h : Stopped i t.kernel) (numbered : Numbered t)
    (hcurrent : getCurrentProcess t.kernel = some current)
    (hother : t.kernel.currentProcessIndex ≠ i) (blocks : Blocks f)
    (hrun : Process.schedule fuel (t.kernel.modify current f) = some s) :
    Numbered { t with kernel := s } ∧ Stopped i s := by
  have parked := numbered.modify (k := current) (blocks.pid _) (blocks.exitSignal _)
  have hne : i ≠ current := by
    rw [getCurrentProcess_index hcurrent]
    exact hother.symm
  exact ⟨parked.evolves ((evolves_calls fuel).schedule hrun),
    h.schedule (.modify hne f) parked.wellFormed hrun⟩

end Blocking

/-- **A step on others.** It leaves a stopped process stopped. -/
theorem AwaitStep.stopped {i : Slot} {y z : Awaiting} {op : AwaitOp}
    (numbered : Numbered y.table) (h : Stopped i y.table.kernel)
    (elsewhere : Elsewhere i y.table.kernel op) (step : AwaitStep y op z) :
    Numbered z.table ∧ Stopped i z.table.kernel := by
  have unique := numbered.wellFormed.uniquePids
  cases step with
  | @table t t' w op first =>
      refine ⟨first.numbered numbered, ?_⟩
      cases first with
      | createProcess =>
          unfold Process.createProcess
          cases hfree : getProcess 0 t.kernel with
          | none => exact h
          | some k =>
              have hne : i ≠ k := by
                rintro rfl
                exact h.live (getProcess_pid hfree)
              exact h.untouched (.modify hne _)
      | sysFork =>
          rcases sysFork_cases numbered.fresh _ with ⟨-, hrun⟩ | ⟨current, child, -, hfree, -, hrun⟩
          · rw [hrun]
            exact h
          · have hne : i ≠ child := by
              rintro rfl
              exact h.live (getProcess_pid hfree)
            rw [hrun]
            dsimp only [Table.forked]
            exact h.untouched (.modify hne _)
      | call first => exact first.stopped numbered.wellFormed h elsewhere
  | @signals t s w op free sets first =>
      rcases sets_cases sets first with rfl | ⟨k, f, -, rfl, hf⟩
      · exact ⟨numbered, h⟩
      · obtain ⟨blocked, actions, hchange⟩ := hf (t.kernel.processes k)
        exact ⟨numbered.modify (by rw [hchange]) (by rw [hchange]),
          h.modify (by rw [hchange]) (by rw [hchange])⟩
  | @sysSetpgid t w pid pgid free =>
      dsimp only at h ⊢
      rcases sysSetpgid_cases pid pgid t.kernel with hsame | ⟨k, -, hrun⟩
      · rw [hsame]
        exact ⟨numbered, h⟩
      · rw [hrun]
        exact ⟨numbered.modify rfl rfl, h.modify rfl rfl⟩
  | @sysWait fuel t w written out free hcall =>
      rcases sysWait_cases hcall with
        ⟨-, rfl⟩ | ⟨current, hcurrent, ⟨k, -, rfl⟩ | ⟨s, -, hrun, rfl⟩⟩
      · exact ⟨numbered, h⟩
      · exact ⟨numbered, h⟩
      · have hblock := blockProcess_current unique (getCurrentProcess_live hcurrent)
        dsimp only at hblock hrun
        rw [hblock] at hrun
        have blocks : Blocks fun p => { p with state := .blocked } :=
          ⟨fun _ => rfl, fun _ => rfl, fun _ => rfl, fun _ => rfl, fun _ => rfl⟩
        exact h.blocks numbered hcurrent elsewhere blocks hrun
  | @waitForProcessGroup fuel t w pgid out free hcall =>
      rcases waitForProcessGroup_cases hcall with
        ⟨-, rfl⟩ | ⟨current, hcurrent, ⟨-, rfl⟩ | ⟨s, -, hrun, rfl⟩⟩
      · exact ⟨numbered, h⟩
      · exact ⟨numbered, h⟩
      · have blocks : Blocks fun p => { p with state := .blocked } :=
          ⟨fun _ => rfl, fun _ => rfl, fun _ => rfl, fun _ => rfl, fun _ => rfl⟩
        exact h.blocks numbered hcurrent elsewhere blocks hrun
  | @sysSigsuspend fuel t s w mask waits free hcall =>
      rcases sysSigsuspend_cases hcall with ⟨-, hout⟩ | ⟨current, u, hcurrent, hrun, hout⟩
      · cases hout
        exact ⟨numbered, h⟩
      · cases hout
        have hblock := suspendPrepared_eq unique (getCurrentProcess_live hcurrent) mask
        dsimp only at hblock hrun
        rw [hblock] at hrun
        have blocks : Blocks fun p =>
            { p with blockedSignals := maskable mask, state := .blocked } :=
          ⟨fun _ => rfl, fun _ => rfl, fun _ => rfl, fun _ => rfl, fun _ => rfl⟩
        exact h.blocks numbered hcurrent elsewhere blocks hrun
  | @resume t current wait before after hcurrent =>
      cases wait with
      | child => exact ⟨numbered, h⟩
      | group pgid => exact ⟨numbered, h⟩
      | signal old =>
          dsimp only [goOn, sigsuspendResume] at h ⊢
          exact ⟨numbered.modify (k := current) rfl rfl, h.modify rfl rfl⟩

/-- **A run on others.** -/
theorem run_stopped {i : Slot} {y z : Awaiting} {ops : List AwaitOp} (numbered : Numbered y.table)
    (h : Stopped i y.table.kernel) (run : Run (StepElsewhere i) y ops z) :
    Numbered z.table ∧ Stopped i z.table.kernel :=
  run.invariant (I := fun y => Numbered y.table ∧ Stopped i y.table.kernel)
    (fun ⟨numbered, h⟩ step => step.1.stopped numbered h step.2) ⟨numbered, h⟩

/-! ### The two ends -/

/-- The process is stopped, and stays so while the scheduler goes on. -/
theorem stopProcess_stops {fuel : Nat} {i : Slot} {s s' : State} (wf : WellFormed s)
    (hlive : (s.processes i).pid ≠ 0) (h : stopProcess fuel (s.processes i).pid s = some s') :
    Stopped i s' := by
  cases fuel with
  | zero => simp [stopProcess] at h
  | succ fuel =>
      simp only [stopProcess, getProcess_of_pid wf.uniquePids hlive] at h
      have stopped : Stopped i (s.setState i .stopped) := by
        constructor
        · rw [(evolves_setState s i .stopped).pid_eq i]
          exact hlive
        · rw [State.setState, modify_same]
      exact stopped.schedule (.refl i _) (wf.evolves (evolves_setState s i .stopped)) h

theorem Step.stops {i : Slot} {s s' : State} {op : Op} (wf : WellFormed s)
    (hlive : (s.processes i).pid ≠ 0) (stops : Stops i s op) (step : Step s op s') :
    Stopped i s' := by
  rcases stops with rfl | rfl
  · cases step with
    | @signalSend fuel _ _ _ out h =>
        cases fuel with
        | zero => simp [Process.signalSend] at h
        | succ fuel =>
            rw [Process.signalSend, if_neg (by decide), if_neg (by decide), if_pos rfl] at h
            obtain ⟨t, hstop, rfl⟩ := Option.map_eq_some_iff.mp h
            exact stopProcess_stops wf hlive hstop
  · cases step with
    | stopProcess h => exact stopProcess_stops wf hlive h

/-- A stopped process that is continued is ready. -/
theorem Step.continues {i : Slot} {s s' : State} {op : Op} (wf : WellFormed s)
    (h : Stopped i s) (continues : Continues i s op) (step : Step s op s') :
    s' = s.setState i .ready := by
  have hself : Process.continueProcess (s.processes i).pid s = s.setState i .ready := by
    unfold Process.continueProcess
    rw [getProcess_of_pid wf.uniquePids h.live]
    exact if_pos h.state
  rcases continues with rfl | rfl
  · cases step with
    | @signalSend fuel _ _ _ out hcall =>
        cases fuel with
        | zero => simp [Process.signalSend] at hcall
        | succ fuel =>
            rw [Process.signalSend, if_neg (by decide), if_neg (by decide), if_neg (by decide),
              if_pos rfl, if_pos h.state, hself] at hcall
            cases hcall
            rfl
  · cases step with
    | continueProcess => exact hself

/-- **Stop and continue.** Whatever happens to other processes in between: the process that waited
is not runnable while it is stopped; and all that is on time exactly if it slept, and its
time had come when it was continued. -/
theorem stop_continue_iff {i : Slot} {y y₁ y₂ z : Awaiting} {ops : List AwaitOp}
    (numbered : Numbered y.table) (hlive : (y.table.kernel.processes i).pid ≠ 0)
    (moved : StopContinue i y y₁ ops y₂ z) :
    Transparent i y y₁ ops y₂ z ↔
      (y.table.kernel.processes i).state = .sleeping ∧
        (y.table.kernel.processes i).sleepUntil ≤ y₂.table.kernel.timerTicks := by
  obtain ⟨⟨stopOp, stops, first⟩, between, ⟨continueOp, continues, last⟩⟩ := moved
  have wf := numbered.wellFormed
  have start : Numbered y₁.table ∧ Stopped i y₁.table.kernel := by
    cases first with
    | table h =>
        refine ⟨h.numbered numbered, ?_⟩
        cases h with
        | call step => exact step.stops wf hlive stops
  obtain ⟨numbered₂, stopped⟩ := run_stopped start.1 start.2 between
  have hready : z.table.kernel = y₂.table.kernel.setState i .ready := by
    cases last with
    | table h =>
        cases h with
        | call step => exact step.continues numbered₂.wellFormed stopped continues
  have hticks : z.table.kernel.timerTicks = y₂.table.kernel.timerTicks := by
    rw [hready]
    rfl
  have hrun : runnable z.table.kernel i := by
    rw [hready]
    refine ⟨?_, Or.inl ?_⟩
    · rw [(evolves_setState _ i .ready).pid_eq i]
      exact stopped.live
    · rw [State.setState, modify_same]
  constructor
  · rintro ⟨-, onTime⟩
    rw [← hticks]
    exact onTime hrun
  · intro hdue
    refine ⟨fun before after u _ hbefore _ hearly => ?_, fun _ => ?_⟩
    · exact absurd hearly (run_stopped start.1 start.2 hbefore).2.parked
    · rw [hticks]
      exact hdue

/-! ### A blocked child -/

/-- Process 2 is blocked. -/
def blockedChild : Awaiting :=
  ⟨{ parentAndChild with kernel := blockProcess 2 parentAndChild.kernel }, []⟩

/-- It has been sent `SIGSTOP`. -/
def stoppedChild : Awaiting :=
  ⟨{ parentAndChild with
      kernel := (signalSend 3 1 SIGSTOP blockedChild.table.kernel).elim parentAndChild.kernel
        Prod.snd }, []⟩

/-- It has been sent `SIGCONT`. -/
def continuedChild : Awaiting :=
  ⟨{ parentAndChild with kernel := continueProcess 2 stoppedChild.table.kernel }, []⟩

theorem stopContinue_child :
    StopContinue 1 blockedChild stoppedChild [] stoppedChild continuedChild := by
  have hsent : (signalSend 3 1 SIGSTOP blockedChild.table.kernel).isSome := by decide +kernel
  obtain ⟨out, hout⟩ := Option.isSome_iff_exists.mp hsent
  have stop : AwaitStep blockedChild (.table (.call (.signalSend 1 SIGSTOP))) stoppedChild := by
    unfold stoppedChild
    rw [hout]
    exact .table (.call (.signalSend hout))
  have hpid : (stoppedChild.table.kernel.processes 1).pid = 2 := by decide +kernel
  refine ⟨⟨_, Or.inl rfl, stop⟩, .nil _, ⟨.continueProcess 2, Or.inr (by rw [hpid]), ?_⟩⟩
  exact .table (.call .continueProcess)

theorem stop_continue_iff_child :
    Transparent 1 blockedChild stoppedChild [] stoppedChild continuedChild ↔
      (blockedChild.table.kernel.processes 1).state = .sleeping ∧
        (blockedChild.table.kernel.processes 1).sleepUntil ≤
          stoppedChild.table.kernel.timerTicks := by
  have numbered : Numbered blockedChild.table :=
    (((numbered_start true 0 100).createProcess [97] 0 0 0).createProcess [98] 0 1 0).evolves
      (@Step.blockProcess 2 parentAndChild.kernel).evolves
  have hlive : (blockedChild.table.kernel.processes 1).pid ≠ 0 := by decide +kernel
  exact stop_continue_iff numbered hlive stopContinue_child

/-- The process was blocked, and nobody has unblocked it: it is ready. -/
theorem stop_continue_unblocks :
    (blockedChild.table.kernel.processes 1).state = .blocked ∧
      StopContinue 1 blockedChild stoppedChild [] stoppedChild continuedChild ∧
      (continuedChild.table.kernel.processes 1).state = .ready ∧
      ¬ Transparent 1 blockedChild stoppedChild [] stoppedChild continuedChild := by
  have hblocked : (blockedChild.table.kernel.processes 1).state = .blocked := by decide +kernel
  have hrun : runnable continuedChild.table.kernel 1 := by decide +kernel
  refine ⟨hblocked, stopContinue_child, by decide +kernel, ?_⟩
  rintro ⟨-, onTime⟩
  have hsleeping := (onTime hrun).1
  rw [hblocked] at hsleeping
  cases hsleeping

end Curnel.Process
