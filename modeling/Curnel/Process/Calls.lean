/-
What a call into the scheduler leaves alone.

However deep `schedule`, `signal_handle_pending`, `exit_process`, `stop_process`
and `signal_send` call each other, PIDs, groups, masks and signal actions stay as
they are, and a pending signal with a custom handler stays pending until the
handler is called. `Evolves` says so; it is transitive, each write of the code
satisfies it, and one induction on the fuel carries it to all five functions
(`evolves_calls`).
-/

import Curnel.Signals

namespace Curnel.Process

/-! ### Sets of signals -/

/-- Is `signum` in the set? -/
def SigMem (set : SigSet) (signum : Nat) : Prop := set &&& sigBit signum ≠ 0

instance (set : SigSet) (signum : Nat) : Decidable (SigMem set signum) :=
  inferInstanceAs (Decidable (_ ≠ _))

theorem sigMem_iff {set : SigSet} {signum : Nat} :
    SigMem set signum ↔ set.getLsbD signum = true := by
  unfold SigMem
  have hand := BitVec.and_twoPow set signum
  change set &&& BitVec.twoPow 64 signum ≠ 0 ↔ _
  rw [hand]
  cases hbit : set.getLsbD signum with
  | false => simp
  | true =>
      have hlt := BitVec.lt_of_getLsbD hbit
      have hone : (BitVec.twoPow 64 signum).getLsbD signum = true := by
        rw [BitVec.getLsbD_twoPow]
        simp [hlt]
      refine iff_of_true (fun hzero => ?_) rfl
      rw [if_pos rfl] at hzero
      rw [hzero] at hone
      simp at hone

theorem getLsbD_sigBit {signum n : Nat} :
    (sigBit signum).getLsbD n = (decide (signum < 64) && decide (signum = n)) :=
  BitVec.getLsbD_twoPow signum n

theorem sigMem_or {set : SigSet} {signum n : Nat} (h : signum < 64) :
    SigMem (set ||| sigBit signum) n ↔ SigMem set n ∨ n = signum := by
  rw [sigMem_iff, sigMem_iff, BitVec.getLsbD_or, getLsbD_sigBit, Bool.or_eq_true,
    Bool.and_eq_true, decide_eq_true_eq, decide_eq_true_eq]
  exact or_congr_right ⟨fun hboth => hboth.2.symm, fun heq => ⟨h, heq.symm⟩⟩

theorem not_sigMem_zero (signum : Nat) : ¬ SigMem 0 signum := by
  unfold SigMem
  simp

/-- Taking a signal out of a set leaves the others in. -/
theorem sigMem_remove {set : SigSet} {signum n : Nat} (hmem : SigMem set n) (hne : n ≠ signum) :
    SigMem (set &&& ~~~ sigBit signum) n := by
  rw [sigMem_iff] at hmem ⊢
  have hlt := BitVec.lt_of_getLsbD hmem
  rw [BitVec.getLsbD_and, BitVec.getLsbD_not, getLsbD_sigBit, hmem]
  simp [hlt, hne.symm]

/-! ### What lasts -/

/-- What only the process itself changes, by setting masks and actions, or nothing at all. -/
structure Lasting where
  pid : Nat
  processGroup : Nat
  sessionId : Nat
  exitSignal : Int
  blockedSignals : SigSet
  signalActions : Fin MAX_SIGNALS → SignalAction

def lasting (p : Process) : Lasting :=
  ⟨p.pid, p.processGroup, p.sessionId, p.exitSignal, p.blockedSignals, p.signalActions⟩

/-- The handler of a process for a signal. -/
def handlerOf (s : State) (i : Slot) (signum : Nat) : Nat :=
  ((s.processes i).signalActions (Fin.ofNat MAX_SIGNALS signum)).handler

/-- A handler that is neither `SIG_DFL` nor `SIG_IGN`. -/
def IsCustom (handler : Nat) : Prop := handler ≠ SIG_DFL ∧ handler ≠ SIG_IGN

/-- The handler of slot `i` for `signum` is called, with the signal unblocked. -/
def CallsHandler (events : List Event) (s : State) (i : Slot) (signum : Nat) : Prop :=
  ∃ blocked, ¬ SigMem blocked signum ∧
    .handlerCalled i signum (handlerOf s i signum) blocked ∈ events

/-- From `s` to `s'`: lasting data as it was, and every pending signal with a
custom handler still pending, unless the handler has been called. -/
structure Evolves (s s' : State) : Prop where
  lasting : ∀ i, lasting (s'.processes i) = lasting (s.processes i)
  enabled : s'.signalHandlingEnabled = s.signalHandlingEnabled
  delivers : ∃ new, s'.log = s.log ++ new ∧
    ∀ i signum, IsCustom (handlerOf s i signum) →
      SigMem (s.processes i).pendingSignals signum →
      SigMem (s'.processes i).pendingSignals signum ∨ CallsHandler new s i signum

theorem handlerOf_congr {s s' : State} {i : Slot}
    (h : lasting (s'.processes i) = lasting (s.processes i)) (signum : Nat) :
    handlerOf s' i signum = handlerOf s i signum := by
  have hactions := congrArg Lasting.signalActions h
  simp only [Process.lasting] at hactions
  rw [handlerOf, handlerOf, hactions]

namespace Evolves

variable {s s' s'' : State}

theorem refl (s : State) : Evolves s s :=
  ⟨fun _ => rfl, rfl, [], by simp, fun _ _ _ hmem => Or.inl hmem⟩

theorem trans (first : Evolves s s') (second : Evolves s' s'') : Evolves s s'' := by
  obtain ⟨new, hlog, hkeep⟩ := first.delivers
  obtain ⟨new', hlog', hkeep'⟩ := second.delivers
  refine ⟨fun i => (second.lasting i).trans (first.lasting i),
    second.enabled.trans first.enabled, new ++ new', ?_, fun i signum hcustom hmem => ?_⟩
  · rw [hlog', hlog, List.append_assoc]
  · have hhandler := handlerOf_congr (first.lasting i) signum
    rcases hkeep i signum hcustom hmem with hmem' | ⟨blocked, hfree, hcall⟩
    · rcases hkeep' i signum (hhandler ▸ hcustom) hmem' with hmem'' | ⟨blocked, hfree, hcall⟩
      · exact Or.inl hmem''
      · rw [hhandler] at hcall
        exact Or.inr ⟨blocked, hfree, List.mem_append_right _ hcall⟩
    · exact Or.inr ⟨blocked, hfree, List.mem_append_left _ hcall⟩

theorem pid_eq (h : Evolves s s') (i : Slot) : (s'.processes i).pid = (s.processes i).pid :=
  congrArg Lasting.pid (h.lasting i)

theorem processGroup_eq (h : Evolves s s') (i : Slot) :
    (s'.processes i).processGroup = (s.processes i).processGroup :=
  congrArg Lasting.processGroup (h.lasting i)

theorem exitSignal_eq (h : Evolves s s') (i : Slot) :
    (s'.processes i).exitSignal = (s.processes i).exitSignal :=
  congrArg Lasting.exitSignal (h.lasting i)

theorem blockedSignals_eq (h : Evolves s s') (i : Slot) :
    (s'.processes i).blockedSignals = (s.processes i).blockedSignals :=
  congrArg Lasting.blockedSignals (h.lasting i)

end Evolves

/-! ### Single writes -/

/-- A write that keeps the lasting data and the pending signals of all processes. -/
theorem evolves_of_same {s s' : State} (new : List Event)
    (hlasting : ∀ i, lasting (s'.processes i) = lasting (s.processes i))
    (hpending : ∀ i, (s'.processes i).pendingSignals = (s.processes i).pendingSignals)
    (henabled : s'.signalHandlingEnabled = s.signalHandlingEnabled)
    (hlog : s'.log = s.log ++ new) : Evolves s s' :=
  ⟨hlasting, henabled, new, hlog, fun i _ _ hmem => Or.inl ((hpending i).symm ▸ hmem)⟩

theorem evolves_modify {s : State} {i : Slot} {f : Process → Process}
    (hlasting : lasting (f (s.processes i)) = lasting (s.processes i))
    (hpending : (f (s.processes i)).pendingSignals = (s.processes i).pendingSignals) :
    Evolves s (s.modify i f) :=
  evolves_of_same [] (modify_congr lasting hlasting)
    (modify_congr Process.pendingSignals hpending) rfl (by simp [State.modify])

theorem evolves_setState (s : State) (i : Slot) (v : ProcessState) :
    Evolves s (s.setState i v) :=
  evolves_modify rfl rfl

theorem evolves_index (s : State) (i : Slot) :
    Evolves s { s with currentProcessIndex := i } :=
  evolves_of_same [] (fun _ => rfl) (fun _ => rfl) rfl (by simp)

theorem evolves_emit (s : State) (e : Event) : Evolves s (s.emit e) :=
  evolves_of_same [e] (fun _ => rfl) (fun _ => rfl) rfl rfl

theorem evolves_switchToProcess (pid : Nat) (s : State) : Evolves s (switchToProcess pid s) := by
  unfold switchToProcess
  split
  · exact Evolves.refl s
  · exact (evolves_modify rfl rfl).trans (evolves_index _ _)

theorem switchToProcess_pendingSignals (pid : Nat) (s : State) (j : Slot) :
    ((switchToProcess pid s).processes j).pendingSignals = (s.processes j).pendingSignals := by
  unfold switchToProcess
  split
  · rfl
  next i _ =>
    exact modify_congr Process.pendingSignals (f := fun p =>
      { p with state := .running, cpuTime := Lib.Word.wadd 64 p.cpuTime 1 }) rfl j

/-- `continue_process` makes a stopped process ready. -/
theorem continueProcess_cases (pid : Nat) (s : State) :
    continueProcess pid s = s ∨
      ∃ i, getProcess pid s = some i ∧ (s.processes i).state = .stopped ∧
        continueProcess pid s = s.setState i .ready := by
  unfold continueProcess
  split
  next => exact Or.inl rfl
  next i hfind =>
    split
    next hstopped => exact Or.inr ⟨i, hfind, hstopped, rfl⟩
    next => exact Or.inl rfl

/-- `unblock_process` makes a blocked process ready. -/
theorem unblockProcess_cases (pid : Nat) (s : State) :
    unblockProcess pid s = s ∨
      ∃ i, getProcess pid s = some i ∧ (s.processes i).state = .blocked ∧
        unblockProcess pid s = s.setState i .ready := by
  unfold unblockProcess
  split
  next => exact Or.inl rfl
  next i hfind =>
    split
    next hblocked => exact Or.inr ⟨i, hfind, hblocked, rfl⟩
    next => exact Or.inl rfl

/-- `signal_add_pending` sets one bit or none. -/
theorem signalAddPending_cases (i : Slot) (signum : Int) (s : State) :
    (signalAddPending i signum s).2 = s ∨
      (signalAddPending i signum s).2 = setPending i signum.toNat s := by
  unfold signalAddPending
  split
  · exact Or.inl rfl
  split
  · exact Or.inr rfl
  split
  · exact Or.inr rfl
  · exact Or.inl rfl

theorem evolves_continueProcess (pid : Nat) (s : State) :
    Evolves s (continueProcess pid s) := by
  rcases continueProcess_cases pid s with hout | ⟨i, -, -, hout⟩
  · rw [hout]
    exact Evolves.refl s
  · rw [hout]
    exact evolves_setState s i .ready

theorem evolves_makeZombie (i : Slot) (pid : Nat) (s : State) :
    Evolves s (makeZombie i pid s) := by
  have hstack : Evolves s (kfreeStack i s) := by
    unfold kfreeStack
    split
    · exact (evolves_emit _ _).trans (evolves_modify rfl rfl)
    · exact Evolves.refl s
  have hsignal : ∀ t, Evolves t (kfreeSignalStack i t) := by
    intro t
    unfold kfreeSignalStack
    split
    · exact (evolves_emit _ _).trans (evolves_modify rfl rfl)
    · exact Evolves.refl t
  have horphan : ∀ t, Evolves t (orphanChildren pid t) := by
    intro t
    have hsame : ∀ j, lasting ((orphanChildren pid t).processes j) = lasting (t.processes j) ∧
        ((orphanChildren pid t).processes j).pendingSignals
          = (t.processes j).pendingSignals := by
      intro j
      simp only [orphanChildren]
      split <;> exact ⟨rfl, rfl⟩
    exact evolves_of_same [] (fun j => (hsame j).1) (fun j => (hsame j).2) rfl
      (by simp [orphanChildren])
  exact (((hstack.trans (hsignal _)).trans (horphan _)).trans (evolves_setState _ _ _)).trans
    (evolves_emit _ _)

/-- Adding a pending signal loses none. -/
theorem evolves_setPending (s : State) (i : Slot) {signum : Nat} (h : signum < 64) :
    Evolves s (setPending i signum s) := by
  refine ⟨modify_congr lasting rfl, rfl, [], by simp [setPending, State.modify],
    fun j n _ hmem => Or.inl ?_⟩
  unfold setPending
  by_cases hj : j = i
  · subst hj
    rw [modify_same]
    exact (sigMem_or h).mpr (Or.inl hmem)
  · rw [modify_other _ hj]
    exact hmem

/-- What `signal_add_pending` makes pending is the signal. -/
theorem signalAddPending_adds {i j : Slot} {signum : Int} {s : State} {n : Nat}
    (hmem : SigMem ((signalAddPending i signum s).2.processes j).pendingSignals n) :
    SigMem (s.processes j).pendingSignals n ∨ (n : Int) = signum ∧ 1 ≤ n ∧ n ≤ 31 := by
  unfold signalAddPending at hmem
  split at hmem
  · exact Or.inl hmem
  next hrange =>
    have hmax : (MAX_SIGNALS : Int) = 32 := rfl
    have hset : SigMem ((setPending i signum.toNat s).processes j).pendingSignals n →
        SigMem (s.processes j).pendingSignals n ∨ (n : Int) = signum ∧ 1 ≤ n ∧ n ≤ 31 := by
      intro h
      unfold setPending at h
      by_cases hj : j = i
      · subst hj
        rw [modify_same] at h
        rcases (sigMem_or (by omega)).mp h with hold | hn
        · exact Or.inl hold
        · exact Or.inr (by omega)
      · rw [modify_other _ hj] at h
        exact Or.inl h
    split at hmem
    · exact hset hmem
    split at hmem
    · exact hset hmem
    · exact Or.inl hmem

theorem evolves_signalAddPending (i : Slot) (signum : Int) (s : State) :
    Evolves s (signalAddPending i signum s).2 := by
  unfold signalAddPending
  split
  · exact Evolves.refl s
  next hrange =>
    have hmax : (MAX_SIGNALS : Int) = 32 := rfl
    have hlt : signum.toNat < 64 := by omega
    split
    · exact evolves_setPending s i hlt
    · split
      · exact evolves_setPending s i hlt
      · exact Evolves.refl s

/-! ### The scan of the pending signals -/

/-- Clearing a pending signal keeps the others pending. -/
theorem sigMem_clearPending {s : State} {i j : Slot} {signum n : Nat}
    (hmem : SigMem (s.processes j).pendingSignals n) (hne : ¬ (j = i ∧ n = signum)) :
    SigMem ((clearPending i signum s).processes j).pendingSignals n := by
  unfold clearPending
  by_cases hj : j = i
  · subst hj
    rw [modify_same]
    exact sigMem_remove hmem fun hn => hne ⟨rfl, hn⟩
  · rw [modify_other _ hj]
    exact hmem

theorem lasting_clearPending (s : State) (i : Slot) (signum : Nat) (j : Slot) :
    lasting ((clearPending i signum s).processes j) = lasting (s.processes j) :=
  modify_congr lasting rfl j

/-- Taking a signal that has no custom handler. -/
theorem evolves_clearPending {s : State} {i : Slot} {signum : Nat}
    (h : ¬ IsCustom (handlerOf s i signum)) : Evolves s (clearPending i signum s) := by
  refine ⟨lasting_clearPending s i signum, rfl, [], by simp [clearPending, State.modify],
    fun j n hcustom hmem => Or.inl (sigMem_clearPending hmem ?_)⟩
  rintro ⟨rfl, rfl⟩
  exact h hcustom

/-- Taking a signal and calling its handler. -/
theorem evolves_callHandler {s : State} {i : Slot} {signum : Nat}
    (hfree : ¬ SigMem (s.processes i).blockedSignals signum) :
    Evolves s (callHandler i signum (handlerOf s i signum) (clearPending i signum s)) := by
  have hmask : ((clearPending i signum s).processes i).blockedSignals
      = (s.processes i).blockedSignals :=
    congrArg Lasting.blockedSignals (lasting_clearPending s i signum i)
  have taken : Evolves s ((clearPending i signum s).emit (.handlerCalled i signum
      (handlerOf s i signum) ((clearPending i signum s).processes i).blockedSignals)) := by
    refine ⟨lasting_clearPending s i signum, rfl, _, rfl, fun j n _ hmem => ?_⟩
    by_cases hhere : j = i ∧ n = signum
    · obtain ⟨rfl, rfl⟩ := hhere
      rw [hmask]
      exact Or.inr ⟨_, hfree, List.mem_singleton_self _⟩
    · exact Or.inl (sigMem_clearPending hmem hhere)
  exact taken.trans (evolves_modify rfl rfl)

theorem evolves_pendingScan (i : Slot) (n signum : Nat) (s : State) :
    Evolves s (pendingScan i n signum s).2 := by
  induction n generalizing signum s with
  | zero => exact Evolves.refl s
  | succ n ih =>
      simp only [pendingScan]
      split
      next hpending =>
        have htake : (handlerOf s i signum = SIG_DFL ∨ handlerOf s i signum = SIG_IGN) →
            Evolves s (clearPending i signum s) := fun hplain =>
          evolves_clearPending fun ⟨hdfl, hign⟩ => hplain.elim hdfl hign
        split
        next hdfl =>
          have taken := htake (Or.inl hdfl)
          split
          · exact taken
          split
          · exact taken.trans (ih _ _)
          split
          · split
            · exact (taken.trans (evolves_continueProcess _ _)).trans (ih _ _)
            · exact taken.trans (ih _ _)
          split
          · exact taken
          · exact taken.trans (ih _ _)
        next =>
        split
        next hign => exact (htake (Or.inr hign)).trans (ih _ _)
        next => exact evolves_callHandler (not_not.mpr hpending.2)
      next => exact ih _ _

theorem evolves_pendingFate (i : Slot) (s : State) : Evolves s (pendingFate i s).2 := by
  unfold pendingFate
  split
  · exact Evolves.refl s
  split
  · exact Evolves.refl s
  · exact evolves_pendingScan i _ _ s

/-- The scan takes signals, calls handlers and continues processes. -/
theorem pendingFate_induct {R : State → State → Prop} (refl : ∀ s, R s s)
    (trans : ∀ {s s' s''}, R s s' → R s' s'' → R s s'')
    (taken : ∀ i signum s, R s (clearPending i signum s))
    (called : ∀ i signum handler s, R s (callHandler i signum handler s))
    (continued : ∀ pid s, R s (continueProcess pid s)) (i : Slot) (s : State) :
    R s (pendingFate i s).2 := by
  have scan : ∀ n signum t, R t (pendingScan i n signum t).2 := by
    intro n
    induction n with
    | zero => exact fun _ t => refl t
    | succ n ih =>
        intro signum t
        have took := taken i signum t
        simp only [pendingScan]
        split
        · split
          · split
            · exact took
            split
            · exact trans took (ih _ _)
            split
            · split
              · exact trans (trans took (continued _ _)) (ih _ _)
              · exact trans took (ih _ _)
            split
            · exact took
            · exact trans took (ih _ _)
          · split
            · exact trans took (ih _ _)
            · exact trans took (called _ _ _ _)
        · exact ih _ _
  unfold pendingFate
  split
  · exact refl s
  split
  · exact refl s
  · exact scan _ _ s

/-! ### The calls -/

/-- A relation between states that holds across everything the five functions do
besides calling each other. None of it blocks a process, or makes `SIGKILL`, `SIGSTOP` or
`SIGCONT` pending. -/
structure KeptByCalls (R : State → State → Prop) : Prop where
  refl : ∀ s, R s s
  trans : ∀ {s s' s''}, R s s' → R s' s'' → R s s''
  index : ∀ s i, R s { s with currentProcessIndex := i }
  setState : ∀ s i v, v ≠ .blocked → R s (s.setState i v)
  switchToProcess : ∀ pid s, R s (switchToProcess pid s)
  continueProcess : ∀ pid s, R s (continueProcess pid s)
  makeZombie : ∀ i pid s, R s (makeZombie i pid s)
  signalAddPending : ∀ i (signum : Int) s, signum ≠ SIGKILL → signum ≠ SIGSTOP →
    signum ≠ SIGCONT → R s (signalAddPending i signum s).2
  pendingFate : ∀ i s, R s (pendingFate i s).2

/-- The relation holds across calls of the five functions with some fuel. -/
structure CallsKeep (R : State → State → Prop) (fuel : Nat) : Prop where
  schedule : ∀ {s s'}, schedule fuel s = some s' → R s s'
  signalHandlePending : ∀ {i s r s'}, signalHandlePending fuel i s = some (r, s') → R s s'
  exitProcess : ∀ {pid code s s'}, exitProcess fuel pid code s = some s' → R s s'
  stopProcess : ∀ {pid s s'}, stopProcess fuel pid s = some s' → R s s'
  signalSend : ∀ {i signum s r s'}, signalSend fuel i signum s = some (r, s') → R s s'

/-- What `exit_process` does to tell a parent, where there is one to tell. -/
theorem KeptByCalls.notify {R : State → State → Prop} (kept : KeptByCalls R) {fuel : Nat}
    (calls : CallsKeep R fuel) {s s' : State} {parentPid : Nat} {signum : Int} {go : Prop}
    [Decidable go]
    (h : (if go then
        match getProcess parentPid s with
        | none => some s
        | some parent => (signalSend fuel parent signum s).map Prod.snd
      else some s) = some s') : R s s' := by
  split at h
  · split at h
    · cases h
      exact kept.refl _
    · obtain ⟨⟨r, t⟩, hcall, ht⟩ := Option.map_eq_some_iff.mp h
      cases ht
      exact calls.signalSend hcall
  · cases h
    exact kept.refl _

section Succ

variable {R : State → State → Prop} (kept : KeptByCalls R) {fuel : Nat} (calls : CallsKeep R fuel)

include kept calls

theorem KeptByCalls.keeps_schedule {s s' : State}
    (h : schedule (fuel + 1) s = some s') : R s s' := by
  simp only [schedule] at h
  split at h
  next =>
    cases h
    exact kept.refl s
  next i hnext =>
    have selected := kept.trans (kept.index s i) (kept.setState _ i .running (by decide))
    split at h
    · split at h
      next => cases h
      next r t hcall =>
        cases h
        exact kept.trans (kept.trans selected (calls.signalHandlePending hcall))
          (kept.switchToProcess _ _)
    · cases h
      exact kept.index s i

theorem KeptByCalls.keeps_signalHandlePending {i : Slot} {r : Int} {s s' : State}
    (h : signalHandlePending (fuel + 1) i s = some (r, s')) : R s s' := by
  have scanned := kept.pendingFate i s
  simp only [signalHandlePending] at h
  split at h
  next t heq =>
    cases h
    rw [heq] at scanned
    exact scanned
  next signum t heq =>
    obtain ⟨u, hcall, hu⟩ := Option.map_eq_some_iff.mp h
    cases hu
    rw [heq] at scanned
    exact kept.trans scanned (calls.exitProcess hcall)
  next t heq =>
    obtain ⟨u, hcall, hu⟩ := Option.map_eq_some_iff.mp h
    cases hu
    rw [heq] at scanned
    exact kept.trans scanned (calls.stopProcess hcall)
  next t heq =>
    cases h
    rw [heq] at scanned
    exact scanned

theorem KeptByCalls.keeps_exitProcess {pid code : Nat} {s s' : State}
    (h : exitProcess (fuel + 1) pid code s = some s') : R s s' := by
  simp only [exitProcess] at h
  split at h
  next =>
    cases h
    exact kept.refl s
  next i hfind =>
    split at h
    next => cases h
    next t hfirst =>
      split at h
      next => cases h
      next u hsecond =>
        have told := kept.trans (kept.notify calls hfirst) (kept.notify calls hsecond)
        exact kept.trans (kept.trans told (kept.makeZombie i pid u)) (calls.schedule h)

theorem KeptByCalls.keeps_stopProcess {pid : Nat} {s s' : State}
    (h : stopProcess (fuel + 1) pid s = some s') : R s s' := by
  simp only [stopProcess] at h
  split at h
  next =>
    cases h
    exact kept.refl s
  next i hfind =>
    exact kept.trans (kept.setState s i .stopped (by decide)) (calls.schedule h)

theorem KeptByCalls.keeps_signalSend {i : Slot} {signum r : Int} {s s' : State}
    (h : signalSend (fuel + 1) i signum s = some (r, s')) : R s s' := by
  simp only [signalSend] at h
  split at h
  · cases h
    exact kept.refl s
  split at h
  · obtain ⟨u, hcall, hu⟩ := Option.map_eq_some_iff.mp h
    cases hu
    exact calls.exitProcess hcall
  next hkill =>
  split at h
  · obtain ⟨u, hcall, hu⟩ := Option.map_eq_some_iff.mp h
    cases hu
    exact calls.stopProcess hcall
  next hstop =>
  split at h
  · split at h
    · cases h
      exact kept.continueProcess _ _
    · cases h
      exact kept.refl s
  next hcont =>
    have hcall := kept.signalAddPending i signum s hkill hstop hcont
    rw [Option.some.inj h] at hcall
    exact hcall

end Succ

theorem KeptByCalls.calls {R : State → State → Prop} (kept : KeptByCalls R) (fuel : Nat) :
    CallsKeep R fuel := by
  induction fuel with
  | zero =>
      constructor
      · intro s s' h
        simp [schedule] at h
      · intro i s r s' h
        simp [signalHandlePending] at h
      · intro pid code s s' h
        simp [exitProcess] at h
      · intro pid s s' h
        simp [stopProcess] at h
      · intro i signum s r s' h
        simp [signalSend] at h
  | succ fuel ih =>
      constructor
      · intro s s' h
        exact kept.keeps_schedule ih h
      · intro i s r s' h
        exact kept.keeps_signalHandlePending ih h
      · intro pid code s s' h
        exact kept.keeps_exitProcess ih h
      · intro pid s s' h
        exact kept.keeps_stopProcess ih h
      · intro i signum s r s' h
        exact kept.keeps_signalSend ih h

theorem keptByCalls_evolves : KeptByCalls Evolves where
  refl := Evolves.refl
  trans := Evolves.trans
  index := evolves_index
  setState s i v _ := evolves_setState s i v
  switchToProcess := evolves_switchToProcess
  continueProcess := evolves_continueProcess
  makeZombie := evolves_makeZombie
  signalAddPending i signum s _ _ _ := evolves_signalAddPending i signum s
  pendingFate := evolves_pendingFate

theorem evolves_calls (fuel : Nat) : CallsKeep Evolves fuel := keptByCalls_evolves.calls fuel

end Curnel.Process
