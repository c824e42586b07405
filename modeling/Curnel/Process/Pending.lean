/-
A signal that has been made pending is not lost.

Between `signal_send` and the call of the handler a process may block and unblock
signals, suspend itself with a temporary mask, be stopped or even exit, and other
processes may be started. Whatever happens, as long as the handler for the signal
stays a custom one, the signal is pending until it is called
(`sent_signal_stays_pending`). A signal that is blocked when it is sent, and
`SIGCONT`, are never made pending.
-/

import Curnel.Process.Scheduler
import Curnel.Process.Steps
import Curnel.Lib.Run

namespace Curnel.Process

open Lib

/-! ### Steps -/

/-- The kernel, and the calls of `sys_sigsuspend` that wait: who waits, and the
mask to put back. -/
structure Suspending where
  kernel : State
  suspended : List (Slot × SigSet)

inductive SignalOp where
  | call (op : Op)
  | signalSetHandler (signum : Int) (handler : Nat)
  | signalSetAction (signum : Int) (act : Option SignalAction)
  | signalBlock (mask : SigSet)
  | signalUnblock (mask : SigSet)
  | signalSetMask (mask : SigSet)
  | signalProcMask (how : Int) (set : Option SigSet)
  | sysSigsuspend (mask : SigSet)
  | resume (i : Slot)
  | spawn (i : Slot) (p : Process)

/-- `spawn` stands for `create_process` and `sys_fork`: they write to an unused
slot, and what they write there is left open. -/
inductive SignalStep : Suspending → SignalOp → Suspending → Prop where
  | call {s t : State} {op : Op} {w : List (Slot × SigSet)} :
      Step s op t → SignalStep ⟨s, w⟩ (.call op) ⟨t, w⟩
  | signalSetHandler {s : State} {w : List (Slot × SigSet)} {signum : Int} {handler : Nat} :
      SignalStep ⟨s, w⟩ (.signalSetHandler signum handler) ⟨(signalSetHandler signum handler s).2, w⟩
  | signalSetAction {s : State} {w : List (Slot × SigSet)} {signum : Int}
      {act : Option SignalAction} :
      SignalStep ⟨s, w⟩ (.signalSetAction signum act) ⟨(signalSetAction signum act s).2.2, w⟩
  | signalBlock {s : State} {w : List (Slot × SigSet)} {mask : SigSet} :
      SignalStep ⟨s, w⟩ (.signalBlock mask) ⟨(signalBlock mask s).2, w⟩
  | signalUnblock {s : State} {w : List (Slot × SigSet)} {mask : SigSet} :
      SignalStep ⟨s, w⟩ (.signalUnblock mask) ⟨(signalUnblock mask s).2, w⟩
  | signalSetMask {s : State} {w : List (Slot × SigSet)} {mask : SigSet} :
      SignalStep ⟨s, w⟩ (.signalSetMask mask) ⟨(signalSetMask mask s).2.2, w⟩
  | signalProcMask {s : State} {w : List (Slot × SigSet)} {how : Int} {set : Option SigSet} :
      SignalStep ⟨s, w⟩ (.signalProcMask how set) ⟨(signalProcMask how set s).2.2, w⟩
  | sysSigsuspend {fuel : Nat} {s t : State} {w : List (Slot × SigSet)} {mask : SigSet}
      {waits : Option (Slot × SigSet)} :
      sysSigsuspend fuel mask s = some (waits, t) →
        SignalStep ⟨s, w⟩ (.sysSigsuspend mask) ⟨t, waits.toList ++ w⟩
  | resume {s : State} {i : Slot} {oldMask : SigSet} {before after : List (Slot × SigSet)} :
      SignalStep ⟨s, before ++ (i, oldMask) :: after⟩ (.resume i)
        ⟨sigsuspendResume i oldMask s, before ++ after⟩
  | spawn {s : State} {w : List (Slot × SigSet)} {i : Slot} {p : Process} :
      (s.processes i).pid = 0 → SignalStep ⟨s, w⟩ (.spawn i p) ⟨s.modify i fun _ => p, w⟩

/-! ### Holding a pending signal -/

/-- A custom handler of slot `i` for `signum` is called, with the signal unblocked. -/
def DeliveredIn (events : List Event) (i : Slot) (signum : Nat) : Prop :=
  ∃ handler blocked, IsCustom handler ∧ ¬ SigMem blocked signum ∧
    .handlerCalled i signum handler blocked ∈ events

/-- From `s` to `s'`: if `signum` was pending in slot `i`, it is, or has been delivered. -/
structure Holds (i : Slot) (signum : Nat) (s s' : State) : Prop where
  live : (s.processes i).pid ≠ 0 → (s'.processes i).pid ≠ 0
  delivers : ∃ new, s'.log = s.log ++ new ∧
    (SigMem (s.processes i).pendingSignals signum →
      SigMem (s'.processes i).pendingSignals signum ∨ DeliveredIn new i signum)

namespace Holds

variable {i : Slot} {signum : Nat} {s s' s'' : State}

theorem refl (i : Slot) (signum : Nat) (s : State) : Holds i signum s s :=
  ⟨id, [], by simp, Or.inl⟩

theorem trans (first : Holds i signum s s') (second : Holds i signum s' s'') :
    Holds i signum s s'' := by
  obtain ⟨new, hlog, hkeep⟩ := first.delivers
  obtain ⟨new', hlog', hkeep'⟩ := second.delivers
  refine ⟨second.live ∘ first.live, new ++ new', ?_, fun hmem => ?_⟩
  · rw [hlog', hlog, List.append_assoc]
  rcases hkeep hmem with hmem' | ⟨handler, blocked, hcustom, hfree, hcall⟩
  · rcases hkeep' hmem' with hmem'' | ⟨handler, blocked, hcustom, hfree, hcall⟩
    · exact Or.inl hmem''
    · exact Or.inr ⟨handler, blocked, hcustom, hfree, List.mem_append_right _ hcall⟩
  · exact Or.inr ⟨handler, blocked, hcustom, hfree, List.mem_append_left _ hcall⟩

theorem of_evolves (h : Evolves s s') (custom : IsCustom (handlerOf s i signum)) :
    Holds i signum s s' := by
  obtain ⟨new, hlog, hkeep⟩ := h.delivers
  refine ⟨fun hlive => h.pid_eq i ▸ hlive, new, hlog, fun hmem => ?_⟩
  rcases hkeep i signum custom hmem with hmem' | ⟨blocked, hfree, hcall⟩
  · exact Or.inl hmem'
  · exact Or.inr ⟨_, blocked, custom, hfree, hcall⟩

/-- Writing to a process what is neither its PID nor its pending signals. -/
theorem of_modify {j : Slot} {f : Process → Process}
    (hpid : (f (s.processes j)).pid = (s.processes j).pid)
    (hpending : (f (s.processes j)).pendingSignals = (s.processes j).pendingSignals) :
    Holds i signum s (s.modify j f) := by
  refine ⟨fun hlive => ?_, [], by simp [State.modify], fun hmem => Or.inl ?_⟩
  · rw [modify_congr Process.pid hpid]
    exact hlive
  · rw [modify_congr Process.pendingSignals hpending]
    exact hmem

end Holds

section Writes

variable (i : Slot) (signum : Nat) (s : State)

theorem holds_changeAction (n : Int) (f : SignalAction → SignalAction) :
    Holds i signum s (changeAction n f s).2 := by
  unfold changeAction
  split
  · exact Holds.refl i signum s
  split
  · exact Holds.refl i signum s
  split
  · exact Holds.refl i signum s
  · dsimp only
    exact Holds.of_modify rfl rfl

theorem holds_changeMask (f : SigSet → SigSet) : Holds i signum s (changeMask f s).2 := by
  unfold changeMask
  split
  · exact Holds.refl i signum s
  · dsimp only
    exact Holds.of_modify rfl rfl

theorem signalSetHandler_state (n : Int) (handler : Nat) :
    (signalSetHandler n handler s).2
      = (changeAction n (fun action => { action with handler := handler }) s).2 := by
  unfold signalSetHandler
  split <;> simp_all

theorem signalSetAction_state (n : Int) (act : Option SignalAction) :
    (signalSetAction n act s).2.2 = (changeAction n (fun action => act.getD action) s).2 := by
  unfold signalSetAction
  split <;> simp_all

theorem signalBlock_state (mask : SigSet) :
    (signalBlock mask s).2 = (changeMask (fun blocked => blocked ||| maskable mask) s).2 := by
  unfold signalBlock
  split <;> simp_all

theorem signalUnblock_state (mask : SigSet) :
    (signalUnblock mask s).2 = (changeMask (fun blocked => blocked &&& ~~~ mask) s).2 := by
  unfold signalUnblock
  split <;> simp_all

theorem signalSetMask_state (mask : SigSet) :
    (signalSetMask mask s).2.2 = (changeMask (fun _ => maskable mask) s).2 := by
  unfold signalSetMask
  split <;> simp_all

/-- The result of `signal_proc_mask` does not change what it does to the mask. -/
theorem changeMask_result (f : SigSet → SigSet) (result : Int) :
    (match changeMask f s with
      | (none, s) => ((-1 : Int), (none : Option SigSet), s)
      | (some old, s) => (result, some old, s)).2.2 = (changeMask f s).2 := by
  split <;> simp_all

/-- What `signal_proc_mask` makes of the mask it has found. -/
theorem signalProcMask_cases (how : Int) (set : Option SigSet) :
    ∃ f : SigSet → SigSet, (signalProcMask how set s).2.2 = (changeMask f s).2 ∧
      (f = id ∨ ∃ mask, f = (fun blocked => blocked ||| maskable mask) ∨
        f = (fun blocked => blocked &&& ~~~ maskable mask) ∨ f = fun _ => maskable mask) := by
  unfold signalProcMask
  split
  · exact ⟨id, changeMask_result s id 0, Or.inl rfl⟩
  rename_i mask
  split
  · exact ⟨_, changeMask_result s _ 0, Or.inr ⟨mask, Or.inl rfl⟩⟩
  split
  · exact ⟨_, changeMask_result s _ 0, Or.inr ⟨mask, Or.inr (Or.inl rfl)⟩⟩
  split
  · exact ⟨_, changeMask_result s _ 0, Or.inr ⟨mask, Or.inr (Or.inr rfl)⟩⟩
  · exact ⟨id, changeMask_result s id (-1), Or.inl rfl⟩

theorem holds_signalProcMask (how : Int) (set : Option SigSet) :
    Holds i signum s (signalProcMask how set s).2.2 := by
  obtain ⟨f, hf, -⟩ := signalProcMask_cases s how set
  rw [hf]
  exact holds_changeMask i signum s f

theorem holds_sysSigsuspend {fuel : Nat} {mask : SigSet} {out : Option (Slot × SigSet) × State}
    (custom : IsCustom (handlerOf s i signum)) (h : sysSigsuspend fuel mask s = some out) :
    Holds i signum s out.2 := by
  unfold sysSigsuspend at h
  split at h
  · cases h
    exact Holds.refl i signum s
  next j _ =>
    obtain ⟨t, hrun, rfl⟩ := Option.map_eq_some_iff.mp h
    have hhandler : ∀ f : Process → Process,
        (f (s.processes j)).signalActions = (s.processes j).signalActions →
        handlerOf (s.modify j f) i signum = handlerOf s i signum := by
      intro f hf
      unfold handlerOf
      rw [modify_congr Process.signalActions hf]
    have masked : Holds i signum s
        (s.modify j fun p => { p with blockedSignals := maskable mask }) :=
      Holds.of_modify rfl rfl
    refine masked.trans (Holds.of_evolves
      ((evolves_blockProcess _ _).trans ((evolves_calls fuel).schedule hrun)) ?_)
    rw [hhandler _ rfl]
    exact custom

theorem holds_spawn {j : Slot} (p : Process) (hfree : (s.processes j).pid = 0)
    (hlive : (s.processes i).pid ≠ 0) : Holds i signum s (s.modify j fun _ => p) := by
  have hne : i ≠ j := by
    rintro rfl
    exact hlive hfree
  have hsame : (s.modify j fun _ => p).processes i = s.processes i := modify_other _ hne
  refine ⟨fun _ => ?_, [], by simp [State.modify], fun hmem => Or.inl ?_⟩
  · rw [hsame]
    exact hlive
  · rw [hsame]
    exact hmem

end Writes

/-! ### One step -/

theorem SignalStep.holds {s s' : Suspending} {op : SignalOp} {i : Slot} {signum : Nat}
    (hlive : (s.kernel.processes i).pid ≠ 0) (custom : IsCustom (handlerOf s.kernel i signum))
    (step : SignalStep s op s') : Holds i signum s.kernel s'.kernel := by
  cases step with
  | call h => exact Holds.of_evolves h.evolves custom
  | signalSetHandler =>
      simp only [signalSetHandler_state]
      exact holds_changeAction ..
  | signalSetAction =>
      simp only [signalSetAction_state]
      exact holds_changeAction ..
  | signalBlock =>
      simp only [signalBlock_state]
      exact holds_changeMask ..
  | signalUnblock =>
      simp only [signalUnblock_state]
      exact holds_changeMask ..
  | signalSetMask =>
      simp only [signalSetMask_state]
      exact holds_changeMask ..
  | signalProcMask => exact holds_signalProcMask ..
  | sysSigsuspend h => exact holds_sysSigsuspend i signum _ custom h
  | resume =>
      dsimp only [sigsuspendResume]
      exact Holds.of_modify rfl rfl
  | spawn hfree => exact holds_spawn i signum _ _ hfree hlive

/-- A step after which slot `i` has a custom handler for `signum`. -/
def CustomStep (i : Slot) (signum : Nat) (s : Suspending) (op : SignalOp) (s' : Suspending) :
    Prop :=
  SignalStep s op s' ∧ IsCustom (handlerOf s'.kernel i signum)

theorem run_holds {s s' : Suspending} {ops : List SignalOp} {i : Slot} {signum : Nat}
    (hlive : (s.kernel.processes i).pid ≠ 0) (custom : IsCustom (handlerOf s.kernel i signum))
    (run : Run (CustomStep i signum) s ops s') : Holds i signum s.kernel s'.kernel := by
  induction run with
  | nil s => exact Holds.refl i signum s.kernel
  | cons first _ ih =>
      have holds := first.1.holds hlive custom
      exact holds.trans (ih (holds.live hlive) first.2)

/-! ### Sending and delivering -/

theorem signalSend_eq_addPending {fuel : Nat} {i : Slot} {signum : Nat} {s : State}
    (hsignum : 1 ≤ signum ∧ signum ≤ 31) (hkill : signum ≠ SIGKILL) (hstop : signum ≠ SIGSTOP)
    (hcont : signum ≠ SIGCONT) :
    signalSend (fuel + 1) i signum s = some (signalAddPending i signum s) := by
  have hmax : (MAX_SIGNALS : Int) = 32 := rfl
  rw [signalSend, if_neg (by omega), if_neg (by omega), if_neg (by omega), if_neg (by omega)]

/-- An unblocked signal becomes pending, a blocked one is dropped. -/
theorem signalAddPending_eq {i : Slot} {signum : Nat} {s : State}
    (hsignum : 1 ≤ signum ∧ signum ≤ 31) (hkill : signum ≠ SIGKILL) (hstop : signum ≠ SIGSTOP) :
    signalAddPending i signum s =
      if (s.processes i).blockedSignals &&& sigBit signum = 0 then (0, setPending i signum s)
      else (0, s) := by
  have hmax : (MAX_SIGNALS : Int) = 32 := rfl
  rw [signalAddPending, if_neg (by omega), if_neg (by omega), Int.toNat_natCast]

/-- The scan comes to the first signal that is pending and not blocked, and calls
its custom handler. -/
theorem pendingScan_calls {i : Slot} {signum n start : Nat} {s : State}
    (hfrom : start ≤ signum) (hto : signum < start + n)
    (hpending : SigMem (s.processes i).pendingSignals signum)
    (hfree : ¬ SigMem (s.processes i).blockedSignals signum)
    (hfirst : ∀ m, start ≤ m → m < signum →
      SigMem (s.processes i).pendingSignals m → SigMem (s.processes i).blockedSignals m)
    (custom : IsCustom (handlerOf s i signum)) :
    pendingScan i n start s =
      (.handled, callHandler i signum (handlerOf s i signum) (clearPending i signum s)) := by
  induction n generalizing start with
  | zero => omega
  | succ n ih =>
      unfold pendingScan
      by_cases hstart : start = signum
      · subst hstart
        have htaken : (s.processes i).pendingSignals &&& sigBit start ≠ 0 ∧
            (s.processes i).blockedSignals &&& sigBit start = 0 := ⟨hpending, not_not.mp hfree⟩
        have hdfl : ((s.processes i).signalActions (Fin.ofNat MAX_SIGNALS start)).handler
            ≠ SIG_DFL := custom.1
        have hign : ((s.processes i).signalActions (Fin.ofNat MAX_SIGNALS start)).handler
            ≠ SIG_IGN := custom.2
        simp only
        rw [if_pos htaken, if_neg hdfl, if_neg hign]
        rfl
      · have hskip : ¬ ((s.processes i).pendingSignals &&& sigBit start ≠ 0 ∧
            (s.processes i).blockedSignals &&& sigBit start = 0) := by
          rintro ⟨hmem, hclear⟩
          exact hfirst start (Nat.le_refl _) (by omega) hmem hclear
        simp only
        rw [if_neg hskip]
        exact ih (by omega) (by omega) fun m hm => hfirst m (by omega)

theorem not_sigMem_remove {set : SigSet} {signum : Nat} :
    ¬ SigMem (set &&& ~~~ sigBit signum) signum := by
  rw [sigMem_iff, BitVec.getLsbD_and, BitVec.getLsbD_not, getLsbD_sigBit]
  by_cases hlt : signum < 64
  · simp [hlt]
  · simp [hlt]

/-- `signal_handle_pending` calls the handler of the first signal that is pending
and not blocked, and takes it out of the pending ones. -/
theorem signalHandlePending_delivers {fuel : Nat} {i : Slot} {signum : Nat} {s : State}
    (henabled : s.signalHandlingEnabled = true)
    (hidle : (s.processes i).handlingSignal = false)
    (hsignum : 1 ≤ signum ∧ signum ≤ 31)
    (hpending : SigMem (s.processes i).pendingSignals signum)
    (hfree : ¬ SigMem (s.processes i).blockedSignals signum)
    (hfirst : ∀ m, 1 ≤ m → m < signum →
      SigMem (s.processes i).pendingSignals m → SigMem (s.processes i).blockedSignals m)
    (custom : IsCustom (handlerOf s i signum)) :
    ∃ t, signalHandlePending (fuel + 1) i s = some (1, t) ∧
      ¬ SigMem (t.processes i).pendingSignals signum ∧
      t.log = s.log ++
        [.handlerCalled i signum (handlerOf s i signum) (s.processes i).blockedSignals] := by
  have hscan := pendingScan_calls (n := MAX_SIGNALS - 1) hsignum.1
    (by simp only [MAX_SIGNALS]; omega) hpending hfree hfirst custom
  have hfate : pendingFate i s =
      (.handled, callHandler i signum (handlerOf s i signum) (clearPending i signum s)) := by
    rw [pendingFate, henabled, hidle, hscan]
    rfl
  refine ⟨callHandler i signum (handlerOf s i signum) (clearPending i signum s), ?_, ?_, ?_⟩
  · rw [signalHandlePending, hfate]
  · have hcleared : ((callHandler i signum (handlerOf s i signum)
        (clearPending i signum s)).processes i).pendingSignals
          = (s.processes i).pendingSignals &&& ~~~ sigBit signum := by
      simp [callHandler, clearPending, State.emit, State.modify]
    rw [hcleared]
    exact not_sigMem_remove
  · simp [callHandler, clearPending, State.emit, State.modify]

/-! ### Whole runs -/

/-- Slot `i` has `signum` pending: `sys_sigpending` reports it, and it is delivered
once it is the first that is not blocked. -/
structure StillPending (i : Slot) (signum : Nat) (s : State) : Prop where
  pending : SigMem (s.processes i).pendingSignals signum
  reported : ∀ set, getCurrentProcess s = some i → sysSigpending s = some set →
    SigMem set signum
  delivered : s.signalHandlingEnabled = true → (s.processes i).handlingSignal = false →
    ¬ SigMem (s.processes i).blockedSignals signum →
    (∀ m, 1 ≤ m → m < signum →
      SigMem (s.processes i).pendingSignals m → SigMem (s.processes i).blockedSignals m) →
    ∀ fuel, ∃ t, signalHandlePending (fuel + 1) i s = some (1, t) ∧
      ¬ SigMem (t.processes i).pendingSignals signum ∧
      t.log = s.log ++
        [.handlerCalled i signum (handlerOf s i signum) (s.processes i).blockedSignals]

theorem stillPending_of_pending {i : Slot} {signum : Nat} {s : State}
    (hsignum : 1 ≤ signum ∧ signum ≤ 31) (custom : IsCustom (handlerOf s i signum))
    (hpending : SigMem (s.processes i).pendingSignals signum) : StillPending i signum s := by
  refine ⟨hpending, fun set hcurrent hset => ?_, fun henabled hidle hfree hfirst fuel => ?_⟩
  · rw [sysSigpending, hcurrent] at hset
    cases hset
    exact hpending
  · exact signalHandlePending_delivers henabled hidle hsignum hpending hfree hfirst custom

/-- A signal that `signal_send` has made pending stays pending until its handler is
called, whatever runs in between, as long as the handler is a custom one. A signal
that is blocked when it is sent, and `SIGCONT`, are not made pending. -/
theorem sent_signal_stays_pending {fuel : Nat} {i : Slot} {signum : Nat} {s t : State} {r : Int}
    (hsignum : 1 ≤ signum ∧ signum ≤ 31) (hkill : signum ≠ SIGKILL) (hstop : signum ≠ SIGSTOP)
    (hlive : (s.processes i).pid ≠ 0) (custom : IsCustom (handlerOf s i signum))
    (hsend : signalSend fuel i signum s = some (r, t)) :
    r = 0 ∧
      (signum ≠ SIGCONT → ¬ SigMem (s.processes i).blockedSignals signum →
        StillPending i signum t ∧
          ∀ suspended ops u, Run (CustomStep i signum) ⟨t, suspended⟩ ops u →
            ∃ new, u.kernel.log = t.log ++ new ∧
              (StillPending i signum u.kernel ∨ DeliveredIn new i signum)) ∧
      (signum = SIGCONT ∨ SigMem (s.processes i).blockedSignals signum →
        ∀ j, (t.processes j).pendingSignals = (s.processes j).pendingSignals) := by
  have evolves : Evolves s t := (evolves_calls fuel).signalSend hsend
  have hlive' : (t.processes i).pid ≠ 0 := evolves.pid_eq i ▸ hlive
  have custom' : IsCustom (handlerOf t i signum) :=
    (handlerOf_congr (evolves.lasting i) signum).symm ▸ custom
  have hmax : (MAX_SIGNALS : Int) = 32 := rfl
  obtain ⟨fuel, rfl⟩ : ∃ k, fuel = k + 1 := by
    cases fuel with
    | zero => simp [signalSend] at hsend
    | succ fuel => exact ⟨fuel, rfl⟩
  by_cases hcont : signum = SIGCONT
  · rw [signalSend, if_neg (by omega), if_neg (by omega), if_neg (by omega),
      if_pos (by omega)] at hsend
    refine ⟨?_, fun hne => absurd hcont hne, fun _ j => ?_⟩
    · split at hsend <;> cases hsend <;> rfl
    split at hsend
    · cases hsend
      unfold continueProcess
      split
      · rfl
      · split
        · exact modify_congr Process.pendingSignals rfl j
        · rfl
    · cases hsend
      rfl
  rw [signalSend_eq_addPending hsignum hkill hstop hcont,
    signalAddPending_eq hsignum hkill hstop] at hsend
  by_cases hblocked : SigMem (s.processes i).blockedSignals signum
  · rw [if_neg hblocked] at hsend
    cases hsend
    exact ⟨rfl, fun _ hfree => absurd hblocked hfree, fun _ _ => rfl⟩
  · rw [if_pos (not_not.mp hblocked)] at hsend
    obtain ⟨rfl, rfl⟩ := Prod.mk.inj (Option.some.inj hsend)
    have hpending : SigMem ((setPending i signum s).processes i).pendingSignals signum := by
      rw [setPending, modify_same]
      exact (sigMem_or (by omega)).mpr (Or.inr rfl)
    refine ⟨rfl, fun _ _ => ⟨stillPending_of_pending hsignum custom' hpending, ?_⟩, ?_⟩
    · intro suspended ops u run
      obtain ⟨new, hlog, hkeep⟩ := (run_holds hlive' custom' run).delivers
      refine ⟨new, hlog, ?_⟩
      rcases hkeep hpending with hmem | hdelivered
      · have customAtEnd : IsCustom (handlerOf u.kernel i signum) :=
          run.invariant (I := fun v => IsCustom (handlerOf v.kernel i signum))
            (fun _ step => step.2) custom'
        exact Or.inl (stillPending_of_pending hsignum customAtEnd hmem)
      · exact Or.inr hdelivered
    · rintro (hcont' | hblocked')
      · exact absurd hcont' hcont
      · exact absurd hblocked' hblocked

/-- `init` with a handler for every signal, and the signals in `blocked` blocked. -/
def initWithHandlers (blocked : SigSet) : State :=
  initAndChild.modify 0 fun p =>
    { p with signalActions := fun _ => ⟨0x400000, 0, 0⟩, blockedSignals := blocked }

theorem isCustom_initWithHandlers (blocked : SigSet) (signum : Nat) :
    IsCustom (handlerOf (initWithHandlers blocked) 0 signum) := by
  have hhandler : handlerOf (initWithHandlers blocked) 0 signum = 0x400000 := by
    simp [handlerOf, initWithHandlers]
  rw [hhandler]
  exact ⟨by decide, by decide⟩

/-- Signal 10 is sent and then blocked: it stays pending. -/
theorem sent_signal_stays_pending_blocked :
    ∃ t, signalSend 1 0 10 (initWithHandlers 0) = some (0, t) ∧
      ∃ new, (signalBlock (sigBit 10) t).2.log = t.log ++ new ∧
        (StillPending 0 10 (signalBlock (sigBit 10) t).2 ∨ DeliveredIn new 0 10) := by
  obtain ⟨⟨r, t⟩, hsend⟩ : ∃ out, signalSend 1 0 ((10 : Nat) : Int) (initWithHandlers 0) = some out :=
    Option.isSome_iff_exists.mp (by decide +kernel)
  obtain ⟨rfl, hpending, -⟩ := sent_signal_stays_pending (by decide) (by decide) (by decide)
    (by decide) (isCustom_initWithHandlers 0 10) hsend
  refine ⟨t, hsend, (hpending (by decide) (by unfold SigMem; decide)).2 [] [.signalBlock (sigBit 10)]
    ⟨_, []⟩ (.single ⟨.signalBlock, ?_⟩)⟩
  have evolves := (evolves_calls 1).signalSend hsend
  have hactions : ((signalBlock (sigBit 10) t).2.processes 0).signalActions
      = (t.processes 0).signalActions := by
    rw [signalBlock_state]
    unfold changeMask
    split
    · rfl
    · dsimp only
      exact modify_congr Process.signalActions rfl 0
  have hhandler : handlerOf (signalBlock (sigBit 10) t).2 0 10
      = handlerOf (initWithHandlers 0) 0 10 := by
    rw [← handlerOf_congr (evolves.lasting 0) 10, handlerOf, handlerOf, hactions]
  rw [hhandler]
  exact isCustom_initWithHandlers 0 10

/-- Signal 10 is not pending after it has been sent to a process that blocks it,
nor `SIGCONT` after it has been sent to one that does not; and a handler set to
`SIG_IGN` loses a signal that was pending. Each `signal_send` returns 0. -/
theorem sent_signal_is_lost :
    (∀ blocked signum, IsCustom (handlerOf (initWithHandlers blocked) 0 signum)) ∧
      ((signalSend 1 0 10 (initWithHandlers (sigBit 10))).map fun out =>
        (out.1, (out.2.processes 0).pendingSignals)) = some (0, 0) ∧
      ((signalSend 1 0 SIGCONT (initWithHandlers 0)).map fun out =>
        (out.1, (out.2.processes 0).pendingSignals)) = some (0, 0) ∧
      ((signalSend 1 0 10 (initWithHandlers 0)).map fun out =>
        (out.1, (out.2.processes 0).pendingSignals)) = some (0, sigBit 10) ∧
      (((signalSend 1 0 10 (initWithHandlers 0)).bind fun out =>
          signalHandlePending 1 0 (signalSetHandler 10 SIG_IGN out.2).2).map fun out =>
        (out.1, (out.2.processes 0).pendingSignals, out.2.log)) = some (0, 0, []) :=
  ⟨isCustom_initWithHandlers, by decide +kernel⟩

end Curnel.Process
