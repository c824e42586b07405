/-
The default actions, and what their table says that they do.

The table documents four kinds of entry. Its codes for "continue" and "stop" are 1 and 2,
and both have a bit in common with `SIGTERM`, which is 15: `action & SIGTERM` takes them for
"terminate". So a process is killed, and its stack freed, by the signals that should stop it
and by the one that should resume it; the entries of the other two kinds do what they say.
-/

import Curnel.Process.Drain
import Curnel.Process.Nesting
import Curnel.Process.Parked

namespace Curnel.Process

/-! ### What is documented -/

inductive DefaultAction where
  | terminate
  | ignore
  | resume
  | stop
deriving DecidableEq, Repr

/-- The comments of `default_signal_actions`, from 1 on. -/
def documentedAction (signum : Nat) : DefaultAction :=
  if signum = SIGCHLD ∨ signum = 23 ∨ signum = 28 then .ignore
  else if signum = SIGCONT then .resume
  else if signum = SIGSTOP ∨ signum = 20 ∨ signum = 21 ∨ signum = 22 then .stop
  else .terminate

/-- A `signal_handle_pending` of the process in slot `i`, with `out` as its outcome, did what is
documented for `signum`. An ignored signal is as good as taken, and one that resumes as good as
taken after `continue_process`; either way the next deliverable signals are seen to. -/
def ActsAsDocumented (fuel : Nat) (i : Slot) (signum : Nat) (s : State) (out : Int × State) : Prop :=
  match documentedAction signum with
  | .terminate => (out.2.processes i).state = .zombie
  | .ignore => signalHandlePending fuel i (clearPending i signum s) = some out
  | .resume =>
      signalHandlePending fuel i
        (continueProcess (s.processes i).pid (clearPending i signum s)) = some out
  | .stop =>
      (out.2.processes i).state = .stopped ∧ (out.2.processes i).stack = (s.processes i).stack ∧
        ((continueProcess (s.processes i).pid out.2).processes i).state = .ready

/-- The code takes for "ignore" what is documented so. -/
theorem documentedAction_ignore_iff {signum : Nat} (h : 1 ≤ signum ∧ signum < MAX_SIGNALS) :
    documentedAction signum = .ignore ↔ defaultSignalActions.getD signum 0 = 0 := by
  have hall : ∀ n < MAX_SIGNALS, 1 ≤ n →
      (documentedAction n = .ignore ↔ defaultSignalActions.getD n 0 = 0) := by decide
  exact hall signum h.2 h.1

/-! ### Signals that stay pending -/

section Taking

variable {i : Slot} {s : State}

theorem clearPending_pid (s : State) (i : Slot) (signum : Nat) (j : Slot) :
    ((clearPending i signum s).processes j).pid = (s.processes j).pid :=
  congrArg Lasting.pid (lasting_clearPending s i signum j)

theorem WellFormed.clearPending (wf : WellFormed s) (signum : Nat) :
    WellFormed (clearPending i signum s) := by
  refine ⟨fun j k hj hjk => ?_, fun j => ?_⟩
  · rw [clearPending_pid] at hj hjk
    rw [clearPending_pid] at hjk
    exact wf.uniquePids j k hj hjk
  · exact (congrArg Lasting.exitSignal (lasting_clearPending s i signum j)).trans (wf.exitSignal j)

/-- Leaving takes no signal. -/
theorem exitProcess_pending {fuel pid code : Nat} {t : State} (wf : WellFormed s)
    (hfind : getProcess pid s = some i) (h : exitProcess fuel pid code s = some t) {n : Nat}
    (hn : n ≠ SIGCHLD) :
    SigMem (t.processes i).pendingSignals n ↔ SigMem (s.processes i).pendingSignals n := by
  rw [(exitProcess_untouched wf hfind h).pending n hn, exitPrepared,
    makeZombie_pendingSignals, (Untouched.notifyParent i).pending n hn]

/-- A signal that terminates ends in `exit_process`. -/
theorem Lowest.exits {fuel signum : Nat} {out : Int × State} (lowest : Lowest s i signum)
    (h : Fatal s i signum) (hcall : signalHandlePending fuel i s = some out) :
    out.1 = 1 ∧ ∃ less, exitProcess less (s.processes i).pid (128 + signum)
      (clearPending i signum s) = some out.2 := by
  cases fuel with
  | zero => simp [signalHandlePending] at hcall
  | succ fuel =>
      rw [signalHandlePending, lowest.fatal h] at hcall
      obtain ⟨t, hexit, rfl⟩ := Option.map_eq_some_iff.mp hcall
      rw [clearPending_pid] at hexit
      exact ⟨rfl, fuel, hexit⟩

theorem getProcess_clearPending (wf : WellFormed s) (hlive : (s.processes i).pid ≠ 0)
    (signum : Nat) : getProcess (s.processes i).pid (clearPending i signum s) = some i := by
  rw [getProcess_congr (clearPending_pid s i signum)]
  exact getProcess_of_pid wf.uniquePids hlive

/-- `signal_handle_pending` returns 0, or has taken a signal for good. -/
theorem signalHandlePending_takes {fuel : Nat} {out : Int × State} (wf : WellFormed s)
    (hlive : (s.processes i).pid ≠ 0) (h : signalHandlePending fuel i s = some out) :
    out.1 = 0 ∨ ∃ n, Deliverable s i n ∧ ¬ SigMem (out.2.processes i).pendingSignals n := by
  induction s using ignoring_induct (i := i) with
  | hstep s ih =>
      by_cases hsome : ∃ n, Deliverable s i n
      · obtain ⟨n, hn⟩ := hsome
        obtain ⟨m, -, lowest⟩ := exists_lowest hn
        have hcleared : ¬ SigMem ((Process.clearPending i m s).processes i).pendingSignals m :=
          fun hmem => (sigMem_cleared.mp hmem).2 rfl
        rcases ignored_or_fatal_or_custom s i m with hign | hfatal | hcustom
        · rw [signalHandlePending_of_fate (lowest.ignored hign)] at h
          have hpid := clearPending_pid s i m i
          rcases ih m lowest hign (wf.clearPending m) (hpid ▸ hlive) h with hzero | ⟨n, hn, hgone⟩
          · exact Or.inl hzero
          · exact Or.inr ⟨n, (deliverable_cleared.mp hn).1, hgone⟩
        · obtain ⟨-, less, hexit⟩ := lowest.exits hfatal h
          have hchild : m ≠ SIGCHLD := by
            rintro rfl
            exact hfatal.2 rfl
          refine Or.inr ⟨m, lowest.deliverable, ?_⟩
          rw [exitProcess_pending (wf.clearPending m) (getProcess_clearPending wf hlive m) hexit
            hchild]
          exact hcleared
        · cases fuel with
          | zero => simp [signalHandlePending] at h
          | succ fuel =>
              rw [signalHandlePending, lowest.custom hcustom] at h
              cases h
              refine Or.inr ⟨m, lowest.deliverable, ?_⟩
              rw [callHandler, modify_same]
              exact hcleared
      · have hnone := not_exists.mp hsome
        cases fuel with
        | zero => simp [signalHandlePending] at h
        | succ fuel =>
            rw [signalHandlePending, pendingFate_of_none hnone] at h
            cases h
            exact Or.inl rfl

/-! ### The four kinds -/

/-- A terminated process is a zombie. -/
theorem Lowest.zombie {fuel signum : Nat} {out : Int × State} (wf : WellFormed s)
    (hlive : (s.processes i).pid ≠ 0) (lowest : Lowest s i signum) (h : Fatal s i signum)
    (hcall : signalHandlePending fuel i s = some out) : (out.2.processes i).state = .zombie := by
  obtain ⟨-, less, hexit⟩ := lowest.exits h hcall
  exact (exitProcess_kills (wf.clearPending signum) (getProcess_clearPending wf hlive signum)
    hexit).1

theorem deliverable_continueProcess {pid n : Nat} (h : Deliverable (continueProcess pid s) i n) :
    Deliverable s i n := by
  have hsame : ∀ j v, Deliverable (s.setState j v) i n → Deliverable s i n := by
    intro j v hdel
    have hprocess : ((s.setState j v).processes i).handlingSignal = (s.processes i).handlingSignal ∧
        ((s.setState j v).processes i).pendingSignals = (s.processes i).pendingSignals := by
      unfold State.setState
      exact ⟨modify_congr Process.handlingSignal (by rfl) i,
        modify_congr Process.pendingSignals (by rfl) i⟩
    refine ⟨hdel.enabled, ?_, hdel.range, ?_, ?_⟩
    · rw [← hprocess.1]
      exact hdel.idle
    · rw [← hprocess.2]
      exact hdel.pending
    · rw [← (evolves_setState s j v).blockedSignals_eq i]
      exact hdel.free
  unfold continueProcess at h
  split at h
  · exact h
  split at h
  · exact hsame _ _ h
  · exact h

/-- A process that is killed by a signal has not gone on after it: the later signal that going on
would have taken is still pending. -/
theorem Lowest.not_resumed {fuel signum : Nat} {out : Int × State} (wf : WellFormed s)
    (hlive : (s.processes i).pid ≠ 0) (lowest : Lowest s i signum) (h : Fatal s i signum)
    (hlarge : SIGCHLD < signum) (hcall : signalHandlePending fuel i s = some out) :
    signalHandlePending fuel i (continueProcess (s.processes i).pid (clearPending i signum s)) ≠
      some out := by
  intro hresumed
  obtain ⟨hone, less, hexit⟩ := lowest.exits h hcall
  have wft := wf.clearPending (i := i) signum
  have evolves := evolves_continueProcess (s.processes i).pid (Process.clearPending i signum s)
  have hpid := (evolves.pid_eq i).trans (clearPending_pid s i signum i)
  rcases signalHandlePending_takes (wft.evolves evolves) (hpid.symm ▸ hlive) hresumed with
    hzero | ⟨n, hn, hgone⟩
  · rw [hone] at hzero
    cases hzero
  · have hcleared := deliverable_continueProcess hn
    obtain ⟨hdel, hne⟩ := deliverable_cleared.mp hcleared
    have hnotless : ¬ n < signum := fun hlt => lowest.least n hlt hdel
    apply hgone
    rw [exitProcess_pending wft (getProcess_clearPending wf hlive signum) hexit (by omega)]
    exact hcleared.pending

end Taking

/-- **Default actions.** On a well-formed table `signal_handle_pending` returns; where the
lowest deliverable signal of a process has the default action, it does what the table of default
actions documents exactly if that is to terminate or to ignore. -/
theorem default_action_iff {s : State} {i : Slot} {signum : Nat} (wf : WellFormed s)
    (hlive : (s.processes i).pid ≠ 0) (lowest : Lowest s i signum)
    (hdfl : handlerOf s i signum = SIG_DFL) :
    (∀ fuel, enoughFuel ≤ fuel → ∃ out, signalHandlePending fuel i s = some out) ∧
      ∀ fuel out, signalHandlePending fuel i s = some out →
        (ActsAsDocumented fuel i signum s out ↔
          documentedAction signum = .terminate ∨ documentedAction signum = .ignore) := by
  refine ⟨fun fuel hfuel => signalHandlePending_returns wf hfuel, fun fuel out hcall => ?_⟩
  have hignore := documentedAction_ignore_iff lowest.deliverable.range
  have hfatal : documentedAction signum ≠ .ignore → Fatal s i signum :=
    fun hne => ⟨hdfl, fun hzero => hne (hignore.mpr hzero)⟩
  unfold ActsAsDocumented
  cases hkind : documentedAction signum with
  | terminate =>
      refine iff_of_true ?_ (Or.inl rfl)
      exact lowest.zombie wf hlive (hfatal (by rw [hkind]; decide)) hcall
  | ignore =>
      refine iff_of_true ?_ (Or.inr rfl)
      have hign : Ignored s i signum := Or.inr ⟨hdfl, hignore.mp hkind⟩
      rw [← signalHandlePending_of_fate (lowest.ignored hign)]
      exact hcall
  | resume =>
      refine iff_of_false ?_ (by simp)
      have hlarge : SIGCHLD < signum := by
        have hall : ∀ n < MAX_SIGNALS, documentedAction n = .resume → SIGCHLD < n := by decide
        exact hall signum lowest.deliverable.range.2 hkind
      exact lowest.not_resumed wf hlive (hfatal (by rw [hkind]; decide)) hlarge hcall
  | stop =>
      refine iff_of_false ?_ (by simp)
      rintro ⟨hstopped, -⟩
      have hzombie := lowest.zombie wf hlive (hfatal (by rw [hkind]; decide)) hcall
      rw [hstopped] at hzombie
      cases hzombie

/-- The child of `init` has been told to stop at the terminal. -/
def toldToStop : State := setPending 1 20 initAndChild

theorem lowest_toldToStop : Lowest toldToStop 1 20 :=
  ⟨by decide +kernel, by decide +kernel⟩

theorem default_action_iff_toldToStop :
    (∀ fuel, enoughFuel ≤ fuel → ∃ out, signalHandlePending fuel 1 toldToStop = some out) ∧
      ∀ fuel out, signalHandlePending fuel 1 toldToStop = some out →
        (ActsAsDocumented fuel 1 20 toldToStop out ↔
          documentedAction 20 = .terminate ∨ documentedAction 20 = .ignore) :=
  default_action_iff (wellFormed_initAndChild.evolves (evolves_setPending _ _ (by decide)))
    (by decide) lowest_toldToStop (by decide)

/-- `SIGTSTP` should stop the process; it is killed, and its stack is gone. -/
theorem stop_signal_kills :
    documentedAction 20 = .stop ∧ Lowest toldToStop 1 20 ∧ handlerOf toldToStop 1 20 = SIG_DFL ∧
      (toldToStop.processes 1).stack ≠ NULL ∧
      ∃ out, signalHandlePending 4 1 toldToStop = some out ∧
        (out.2.processes 1).state = .zombie ∧ (out.2.processes 1).stack = NULL ∧
        ¬ ActsAsDocumented 4 1 20 toldToStop out := by
  refine ⟨by decide, lowest_toldToStop, by decide, by decide, ?_⟩
  have hcall : (signalHandlePending 4 1 toldToStop).map
      (fun out => ((out.2.processes 1).state, (out.2.processes 1).stack)) =
        some (.zombie, NULL) := by decide +kernel
  obtain ⟨out, hout, hvalues⟩ := Option.map_eq_some_iff.mp hcall
  obtain ⟨hstate, hstack⟩ := Prod.mk.inj hvalues
  refine ⟨out, hout, hstate, hstack, ?_⟩
  rintro ⟨hstopped, -⟩
  rw [hstate] at hstopped
  cases hstopped

end Curnel.Process
