/-
Calling `signal_handle_pending` until it returns 0.

A process whose deliverable signals are ignored or have a handler of its own is left with
none: each call goes past the ignored ones to the first handler, and what is taken does
not become pending again. `Drained` says what the calls do altogether, in terms of the
state before the first; one step puts a signal in front of it.
-/

import Curnel.Process.Delivery

namespace Curnel.Process

/-- `while (signal_handle_pending(process) != 0);`, with `n` calls at most. -/
def handleAll (fuel : Nat) (i : Slot) : Nat → State → Option State
  | 0, _ => none
  | n + 1, s =>
      match signalHandlePending fuel i s with
      | none => none
      | some (result, t) => if result = 0 then some t else handleAll fuel i n t

/-- Every deliverable signal is ignored or has a custom handler. -/
def Harmless (s : State) (i : Slot) : Prop :=
  ∀ n, Deliverable s i n → Ignored s i n ∨ IsCustom (handlerOf s i n)

/-- An event changes no signal. -/
theorem deliverable_emit {s : State} {e : Event} {i : Slot} {n : Nat} :
    Deliverable (s.emit e) i n ↔ Deliverable s i n := by
  constructor
  · rintro ⟨henabled, hidle, hrange, hmem, hfree⟩
    exact ⟨henabled, hidle, hrange, hmem, hfree⟩
  · rintro ⟨henabled, hidle, hrange, hmem, hfree⟩
    exact ⟨henabled, hidle, hrange, hmem, hfree⟩

/-- From `s` to `t` the handlers of `signals` are called in that order, the deliverable
signals of the process in slot `i` are taken, and nothing else changes. -/
structure Drained (s : State) (i : Slot) (signals : List Nat) (t : State) : Prop where
  increasing : signals.Pairwise (· < ·)
  exactly : ∀ n, n ∈ signals ↔ Deliverable s i n ∧ IsCustom (handlerOf s i n)
  log : t.log = s.log ++ signals.map fun n =>
    .handlerCalled i n (handlerOf s i n) (s.processes i).blockedSignals
  pending : ∀ n, SigMem (t.processes i).pendingSignals n ↔
    SigMem (s.processes i).pendingSignals n ∧ ¬ Deliverable s i n
  process : t.processes i =
    { s.processes i with pendingSignals := (t.processes i).pendingSignals }
  others : ∀ j, j ≠ i → t.processes j = s.processes j
  rest : t = { s with processes := t.processes, log := t.log }

section Drain

variable {i : Slot} {s t : State} {signum : Nat} {signals : List Nat}

theorem Drained.nothing (h : ∀ n, ¬ Deliverable s i n) : Drained s i [] s where
  increasing := List.Pairwise.nil
  exactly n := by
    constructor
    · intro hmem
      cases hmem
    · rintro ⟨hdel, -⟩
      exact absurd hdel (h n)
  log := by simp
  pending n := by simp [h n]
  process := rfl
  others _ _ := rfl
  rest := rfl

/-- What is left to take after an ignored signal. -/
theorem Drained.ignored (h : Ignored s i signum) (hdel : Deliverable s i signum)
    (drained : Drained (clearPending i signum s) i signals t) : Drained s i signals t where
  increasing := drained.increasing
  exactly n := by
    rw [drained.exactly n, deliverable_cleared, handlerOf_clearPending]
    constructor
    · rintro ⟨⟨hn, -⟩, hcustom⟩
      exact ⟨hn, hcustom⟩
    · rintro ⟨hn, hcustom⟩
      refine ⟨⟨hn, ?_⟩, hcustom⟩
      rintro rfl
      rcases h with hign | ⟨hdfl, -⟩
      · exact hcustom.2 hign
      · exact hcustom.1 hdfl
  log := by
    have hlog := drained.log
    simp only [handlerOf_clearPending, clearPending_same] at hlog
    exact hlog
  pending n := by
    rw [drained.pending n, sigMem_cleared, deliverable_cleared]
    constructor
    · rintro ⟨⟨hmem, hne⟩, hnot⟩
      exact ⟨hmem, fun hn => hnot ⟨hn, hne⟩⟩
    · rintro ⟨hmem, hnot⟩
      refine ⟨⟨hmem, ?_⟩, fun hn => hnot hn.1⟩
      rintro rfl
      exact hnot hdel
  process := by
    rw [drained.process, clearPending_same]
  others j hj := by
    rw [drained.others j hj, clearPending, modify_other _ hj]
  rest := drained.rest

/-- The state in which the handler of a signal has returned. -/
def handled (i : Slot) (signum : Nat) (s : State) : State :=
  callHandler i signum (handlerOf s i signum) (clearPending i signum s)

/-- A handler that returns is an event, and changes nothing else. -/
theorem handled_eq (hidle : (s.processes i).handlingSignal = false) :
    handled i signum s = (clearPending i signum s).emit
      (.handlerCalled i signum (handlerOf s i signum) (s.processes i).blockedSignals) := by
  have hidle' : ((clearPending i signum s).processes i).handlingSignal = false := by
    rw [clearPending_same]
    exact hidle
  have hsame : { (clearPending i signum s).processes i with handlingSignal := false } =
      (clearPending i signum s).processes i := by
    rw [← hidle']
  have hblocked : ((clearPending i signum s).processes i).blockedSignals =
      (s.processes i).blockedSignals := by
    rw [clearPending_same]
  rw [handled, callHandler, hblocked]
  unfold State.modify State.emit
  simp only
  rw [hsame, Function.update_eq_self]

/-- What is left to take after a handler has returned comes after its signal. -/
theorem Drained.custom (lowest : Lowest s i signum) (h : IsCustom (handlerOf s i signum))
    (drained : Drained (handled i signum s) i signals t) :
    Drained s i (signum :: signals) t := by
  have hidle := lowest.deliverable.idle
  rw [handled_eq hidle] at drained
  have hdel : ∀ n, Deliverable ((clearPending i signum s).emit
      (.handlerCalled i signum (handlerOf s i signum) (s.processes i).blockedSignals)) i n ↔
      Deliverable s i n ∧ n ≠ signum := fun n => deliverable_emit.trans deliverable_cleared
  have hhandler : ∀ n, handlerOf ((clearPending i signum s).emit
      (.handlerCalled i signum (handlerOf s i signum) (s.processes i).blockedSignals)) i n =
      handlerOf s i n := handlerOf_clearPending
  refine ⟨?_, fun n => ?_, ?_, fun n => ?_, ?_, fun j hj => ?_, drained.rest⟩
  · rw [List.pairwise_cons]
    refine ⟨fun n hn => ?_, drained.increasing⟩
    obtain ⟨hn, hne⟩ := (hdel n).mp ((drained.exactly n).mp hn).1
    have hleast : ¬ n < signum := fun hlt => lowest.least n hlt hn
    omega
  · rw [List.mem_cons, drained.exactly n, hdel n, hhandler n]
    constructor
    · rintro (rfl | ⟨⟨hn, -⟩, hcustom⟩)
      · exact ⟨lowest.deliverable, h⟩
      · exact ⟨hn, hcustom⟩
    · rintro ⟨hn, hcustom⟩
      by_cases heq : n = signum
      · exact Or.inl heq
      · exact Or.inr ⟨⟨hn, heq⟩, hcustom⟩
  · have hlog := drained.log
    have hblocked : ((clearPending i signum s).processes i).blockedSignals =
        (s.processes i).blockedSignals := by
      rw [clearPending_same]
    simp only [hhandler] at hlog
    rw [hlog, List.map_cons]
    change (s.log ++ [_]) ++ List.map (fun n => Event.handlerCalled i n (handlerOf s i n)
      ((clearPending i signum s).processes i).blockedSignals) signals = _
    rw [hblocked, List.append_assoc, List.singleton_append]
  · rw [drained.pending n, hdel n]
    change SigMem ((clearPending i signum s).processes i).pendingSignals n ∧ _ ↔ _
    rw [sigMem_cleared]
    constructor
    · rintro ⟨⟨hmem, hne⟩, hnot⟩
      exact ⟨hmem, fun hn => hnot ⟨hn, hne⟩⟩
    · rintro ⟨hmem, hnot⟩
      refine ⟨⟨hmem, ?_⟩, fun hn => hnot hn.1⟩
      rintro rfl
      exact hnot lowest.deliverable
  · have hprocess := drained.process
    change t.processes i = { (clearPending i signum s).processes i with
      pendingSignals := (t.processes i).pendingSignals } at hprocess
    rw [clearPending_same] at hprocess
    exact hprocess
  · rw [drained.others j hj]
    change (clearPending i signum s).processes j = _
    rw [clearPending, modify_other _ hj]

/-! ### One call -/

theorem Harmless.cleared (h : Harmless s i) : Harmless (clearPending i signum s) i := by
  intro n hn
  have hold := h n (deliverable_cleared.mp hn).1
  unfold Ignored at hold ⊢
  rw [handlerOf_clearPending]
  exact hold

theorem Harmless.handled (h : Harmless s i) (hidle : (s.processes i).handlingSignal = false) :
    Harmless (handled i signum s) i := by
  rw [handled_eq hidle]
  intro n hn
  exact h.cleared n (deliverable_emit.mp hn)

theorem card_handled (hdel : Deliverable s i signum) :
    (deliverables (handled i signum s) i).card < (deliverables s i).card := by
  have hsame : deliverables (handled i signum s) i = deliverables (clearPending i signum s) i := by
    ext n
    rw [mem_deliverables, mem_deliverables, handled_eq hdel.idle]
    exact deliverable_emit
  rw [hsame]
  exact card_cleared hdel

theorem signalHandlePending_of_fate {fuel : Nat} {u : State} (h : pendingFate i s = pendingFate i u) :
    signalHandlePending fuel i s = signalHandlePending fuel i u := by
  cases fuel with
  | zero => rfl
  | succ fuel => rw [signalHandlePending, signalHandlePending, h]

/-! ### The calls -/

/-- With one call more than there are deliverable signals, the last returns 0. -/
theorem handleAll_drained {fuel n : Nat} (harmless : Harmless s i)
    (hn : (deliverables s i).card < n) :
    ∃ signals t, handleAll (fuel + 1) i n s = some t ∧ Drained s i signals t := by
  induction hcard : (deliverables s i).card using Nat.strong_induction_on generalizing s n with
  | _ card ih =>
      obtain ⟨n, rfl⟩ : ∃ m, n = m + 1 := ⟨n - 1, by omega⟩
      by_cases hsome : ∃ m, Deliverable s i m
      · obtain ⟨m, hm⟩ := hsome
        obtain ⟨signum, -, lowest⟩ := exists_lowest hm
        have hdel := lowest.deliverable
        rcases harmless signum hdel with hign | hcustom
        · -- the call is the one that the process without the signal makes
          have hless := card_cleared hdel
          obtain ⟨signals, t, hcalls, drained⟩ :=
            ih _ (hcard ▸ hless) harmless.cleared (by omega : _ < n + 1) rfl
          refine ⟨signals, t, ?_, drained.ignored hign hdel⟩
          rw [handleAll, signalHandlePending_of_fate (lowest.ignored hign)]
          rw [handleAll] at hcalls
          exact hcalls
        · have hless := card_handled hdel
          obtain ⟨signals, t, hcalls, drained⟩ :=
            ih _ (hcard ▸ hless) (harmless.handled hdel.idle) (by omega : _ < n) rfl
          refine ⟨signum :: signals, t, ?_, drained.custom lowest hcustom⟩
          rw [handleAll, signalHandlePending, lowest.custom hcustom]
          simp only
          rw [if_neg (by decide)]
          exact hcalls
      · have hnone := not_exists.mp hsome
        refine ⟨[], s, ?_, Drained.nothing hnone⟩
        rw [handleAll, signalHandlePending, pendingFate_of_none hnone]
        simp only
        rw [if_pos trivial]

end Drain

/-- **Draining.** Where the deliverable signals of a process are ignored or have a custom
handler, `signal_handle_pending` returns 0 within 32 calls, after the handlers have been
called once each, in increasing order of their signals; only the deliverable signals have
gone from its pending ones. -/
theorem handleAll_drains {s : State} {i : Slot} (harmless : Harmless s i) {fuel n : Nat}
    (hfuel : 0 < fuel) (hn : MAX_SIGNALS ≤ n) :
    ∃ signals t, handleAll fuel i n s = some t ∧ Drained s i signals t := by
  obtain ⟨fuel, rfl⟩ : ∃ k, fuel = k + 1 := ⟨fuel - 1, by omega⟩
  exact handleAll_drained harmless ((card_deliverables_lt s i).trans_le hn)

/-- `init` has a handler for `SIGUSR1`, which is pending beside `SIGCHLD` and `SIGUSR2`, and
blocks `SIGUSR2`. -/
def interrupted : State :=
  initAndChild.modify 0 fun p =>
    { p with
      pendingSignals := sigBit 10 ||| sigBit 12 ||| sigBit SIGCHLD
      blockedSignals := sigBit 12
      signalActions := Function.update p.signalActions 10 ⟨0x400000, 0, 0⟩ }

theorem harmless_interrupted : Harmless interrupted 0 := by
  have hall : ∀ n < MAX_SIGNALS, Deliverable interrupted 0 n →
      (handlerOf interrupted 0 n = SIG_IGN ∨
        handlerOf interrupted 0 n = SIG_DFL ∧ defaultSignalActions.getD n 0 = 0) ∨
      handlerOf interrupted 0 n ≠ SIG_DFL ∧ handlerOf interrupted 0 n ≠ SIG_IGN := by
    decide +kernel
  intro n hn
  exact hall n hn.range.2 hn

theorem handleAll_drains_interrupted :
    ∃ signals t, handleAll 1 0 MAX_SIGNALS interrupted = some t ∧ Drained interrupted 0 signals t :=
  handleAll_drains harmless_interrupted Nat.one_pos (Nat.le_refl _)

end Curnel.Process
