/-
No process can keep SIGKILL or SIGSTOP away.

The operations that set a mask take both signals out of it, except `signal_unblock`,
which only clears; a suspended process gets back a mask it had before; and the
operations that set an action refuse both. A fork copies the mask and the actions of
a process that is alive itself. Nothing makes `SIGKILL`, `SIGSTOP` or `SIGCONT`
pending, since `signal_send` acts on them at once.
-/

import Curnel.Process.Create
import Curnel.Process.Pending

namespace Curnel.Process

open Lib

/-! ### The system -/

/-- The process table, and the calls of `sys_sigsuspend` that wait. -/
structure MaskSystem where
  table : Table
  suspended : List (Slot × SigSet)

inductive MaskOp where
  | table (op : TableOp)
  | signals (op : SignalOp)

/-- The steps of `SignalStep`, with processes created and forked as the code does. -/
inductive MaskStep : MaskSystem → MaskOp → MaskSystem → Prop where
  | table {t t' : Table} {w : List (Slot × SigSet)} {op : TableOp} :
      TableStep t op t' → MaskStep ⟨t, w⟩ (.table op) ⟨t', w⟩
  | signals {t : Table} {s : State} {w w' : List (Slot × SigSet)} {op : SignalOp} :
      (∀ i p, op ≠ .spawn i p) → SignalStep ⟨t.kernel, w⟩ op ⟨s, w'⟩ →
        MaskStep ⟨t, w⟩ (.signals op) ⟨{ t with kernel := s }, w'⟩

/-! ### The invariant -/

/-- The mask blocks neither `SIGKILL` nor `SIGSTOP`. -/
def Spares (mask : SigSet) : Prop := ¬ SigMem mask SIGKILL ∧ ¬ SigMem mask SIGSTOP

/-- The action that `create_process` sets for every signal. -/
def defaultAction : SignalAction := ⟨SIG_DFL, 0, 0⟩

/-- The process neither blocks nor handles `SIGKILL` or `SIGSTOP`. -/
structure Defenceless (p : Process) : Prop where
  blocked : Spares p.blockedSignals
  onKill : p.signalActions (Fin.ofNat MAX_SIGNALS SIGKILL) = defaultAction
  onStop : p.signalActions (Fin.ofNat MAX_SIGNALS SIGSTOP) = defaultAction

/-- The signals that may be pending. -/
def Catchable (signum : Nat) : Prop :=
  (1 ≤ signum ∧ signum ≤ 31) ∧ signum ≠ SIGKILL ∧ signum ≠ SIGSTOP ∧ signum ≠ SIGCONT

structure SignalsSound (s : State) : Prop where
  defenceless : ∀ i, (s.processes i).pid ≠ 0 → Defenceless (s.processes i)
  pending : ∀ i signum, SigMem (s.processes i).pendingSignals signum → Catchable signum

structure MaskInv (y : MaskSystem) : Prop where
  numbered : Numbered y.table
  sound : SignalsSound y.table.kernel
  suspended : ∀ x ∈ y.suspended, Spares x.2

/-! ### Masks -/

theorem sigMem_and_not {set removed : SigSet} {signum : Nat} :
    SigMem (set &&& ~~~ removed) signum ↔ SigMem set signum ∧ ¬ SigMem removed signum := by
  rw [sigMem_iff, sigMem_iff, sigMem_iff, BitVec.getLsbD_and, BitVec.getLsbD_not,
    Bool.and_eq_true, Bool.and_eq_true, Bool.not_eq_true', Bool.not_eq_true, decide_eq_true_eq]
  constructor
  · rintro ⟨hset, -, hremoved⟩
    exact ⟨hset, hremoved⟩
  · rintro ⟨hset, hremoved⟩
    exact ⟨hset, BitVec.lt_of_getLsbD hset, hremoved⟩

theorem sigMem_or_iff {set set' : SigSet} {signum : Nat} :
    SigMem (set ||| set') signum ↔ SigMem set signum ∨ SigMem set' signum := by
  rw [sigMem_iff, sigMem_iff, sigMem_iff, BitVec.getLsbD_or, Bool.or_eq_true]

theorem sigMem_sigBit (signum : Nat) (h : signum < 64) : SigMem (sigBit signum) signum := by
  rw [sigMem_iff, getLsbD_sigBit]
  simp [h]

theorem spares_maskable (mask : SigSet) : Spares (maskable mask) := by
  refine ⟨fun h => ?_, fun h => ?_⟩
  · exact (sigMem_and_not.mp h).2 (sigMem_or_iff.mpr (Or.inl (sigMem_sigBit _ (by decide))))
  · exact (sigMem_and_not.mp h).2 (sigMem_or_iff.mpr (Or.inr (sigMem_sigBit _ (by decide))))

theorem Spares.or {mask mask' : SigSet} (h : Spares mask) (h' : Spares mask') :
    Spares (mask ||| mask') :=
  ⟨fun hmem => (sigMem_or_iff.mp hmem).elim h.1 h'.1,
    fun hmem => (sigMem_or_iff.mp hmem).elim h.2 h'.2⟩

theorem Spares.remove {mask : SigSet} (h : Spares mask) (removed : SigSet) :
    Spares (mask &&& ~~~ removed) :=
  ⟨fun hmem => h.1 (sigMem_and_not.mp hmem).1, fun hmem => h.2 (sigMem_and_not.mp hmem).1⟩

theorem spares_zero : Spares 0 := ⟨not_sigMem_zero _, not_sigMem_zero _⟩

theorem defenceless_newProcess (pid parentPid stack : Nat) (old : Process) :
    Defenceless (newProcess pid parentPid stack old) :=
  ⟨spares_zero, rfl, rfl⟩

theorem Defenceless.congr {p q : Process} (h : Defenceless p) (hsame : lasting q = lasting p) :
    Defenceless q := by
  have hblocked : q.blockedSignals = p.blockedSignals := congrArg Lasting.blockedSignals hsame
  have hactions : q.signalActions = p.signalActions := congrArg Lasting.signalActions hsame
  exact ⟨hblocked ▸ h.blocked, hactions ▸ h.onKill, hactions ▸ h.onStop⟩

/-! ### Pending signals -/

/-- What has become pending may be. -/
structure AddsCatchable (s s' : State) : Prop where
  added : ∀ i signum, SigMem (s'.processes i).pendingSignals signum →
    SigMem (s.processes i).pendingSignals signum ∨ Catchable signum

namespace AddsCatchable

variable {s s' s'' : State}

theorem refl (s : State) : AddsCatchable s s := ⟨fun _ _ h => Or.inl h⟩

theorem trans (first : AddsCatchable s s') (second : AddsCatchable s' s'') :
    AddsCatchable s s'' := by
  refine ⟨fun i signum h => ?_⟩
  rcases second.added i signum h with h' | hcatch
  · exact first.added i signum h'
  · exact Or.inr hcatch

theorem of_same (h : ∀ i, (s'.processes i).pendingSignals = (s.processes i).pendingSignals) :
    AddsCatchable s s' :=
  ⟨fun i _ hmem => Or.inl (h i ▸ hmem)⟩

theorem of_modify {i : Slot} {f : Process → Process}
    (h : (f (s.processes i)).pendingSignals = (s.processes i).pendingSignals) :
    AddsCatchable s (s.modify i f) :=
  of_same (modify_congr Process.pendingSignals h)

end AddsCatchable

theorem addsCatchable_continueProcess (pid : Nat) (s : State) :
    AddsCatchable s (continueProcess pid s) := by
  rcases continueProcess_cases pid s with hout | ⟨i, -, -, hout⟩
  · rw [hout]
    exact .refl s
  · rw [hout]
    exact .of_modify rfl

theorem addsCatchable_makeZombie (i : Slot) (pid : Nat) (s : State) :
    AddsCatchable s (makeZombie i pid s) :=
  .of_same (makeZombie_pendingSignals i pid s)

theorem addsCatchable_signalAddPending (i : Slot) (signum : Int) (s : State)
    (hkill : signum ≠ SIGKILL) (hstop : signum ≠ SIGSTOP) (hcont : signum ≠ SIGCONT) :
    AddsCatchable s (signalAddPending i signum s).2 := by
  refine ⟨fun j n hmem => ?_⟩
  rcases signalAddPending_adds hmem with hold | ⟨hn, hrange⟩
  · exact Or.inl hold
  · subst hn
    exact Or.inr ⟨hrange, fun h => hkill (congrArg _ h), fun h => hstop (congrArg _ h),
      fun h => hcont (congrArg _ h)⟩

theorem addsCatchable_clearPending (i : Slot) (signum : Nat) (s : State) :
    AddsCatchable s (clearPending i signum s) := by
  refine ⟨fun j n hmem => Or.inl ?_⟩
  unfold clearPending at hmem
  by_cases hj : j = i
  · subst hj
    rw [modify_same] at hmem
    exact (sigMem_and_not.mp hmem).1
  · rwa [modify_other _ hj] at hmem

theorem addsCatchable_callHandler (i : Slot) (signum handler : Nat) (s : State) :
    AddsCatchable s (callHandler i signum handler s) := by
  have called : AddsCatchable s
      (s.emit (.handlerCalled i signum handler (s.processes i).blockedSignals)) :=
    .of_same fun _ => rfl
  exact called.trans (.of_modify rfl)

theorem keptByCalls_addsCatchable : KeptByCalls AddsCatchable where
  refl := .refl
  trans := .trans
  index _ _ := .of_same fun _ => rfl
  setState _ _ _ _ := .of_modify rfl
  switchToProcess pid s := .of_same (switchToProcess_pendingSignals pid s)
  continueProcess := addsCatchable_continueProcess
  makeZombie := addsCatchable_makeZombie
  signalAddPending := addsCatchable_signalAddPending
  pendingFate := pendingFate_induct .refl .trans addsCatchable_clearPending
    addsCatchable_callHandler addsCatchable_continueProcess

theorem addsCatchable_blockProcess (pid : Nat) (s : State) :
    AddsCatchable s (blockProcess pid s) := by
  unfold blockProcess
  split
  · exact .refl s
  · exact .of_modify rfl

theorem Step.addsCatchable {s s' : State} {op : Op} (step : Step s op s') : AddsCatchable s s' :=
  keptByCalls_addsCatchable.step (fun _ _ => .of_same fun _ => rfl) (fun _ _ _ => .of_modify rfl)
    step fun pid _ => addsCatchable_blockProcess pid s

/-! ### Changing masks and actions -/

theorem changeMask_cases (f : SigSet → SigSet) (s : State) :
    (changeMask f s).2 = s ∨ ∃ i, getCurrentProcess s = some i ∧
      (changeMask f s).2 = s.modify i fun p => { p with blockedSignals := f p.blockedSignals } := by
  unfold changeMask
  cases hcurrent : getCurrentProcess s with
  | none => exact Or.inl rfl
  | some i => exact Or.inr ⟨i, rfl, rfl⟩

theorem changeAction_cases (signum : Int) (f : SignalAction → SignalAction) (s : State) :
    (changeAction signum f s).2 = s ∨
      ∃ (i : Slot) (n : Fin MAX_SIGNALS) (action : Process → SignalAction),
      getCurrentProcess s = some i ∧
      n ≠ Fin.ofNat MAX_SIGNALS SIGKILL ∧ n ≠ Fin.ofNat MAX_SIGNALS SIGSTOP ∧
      (changeAction signum f s).2 = s.modify i fun p =>
        { p with signalActions := Function.update p.signalActions n (action p) } := by
  unfold changeAction
  split
  · exact Or.inl rfl
  next hrange =>
  cases hcurrent : getCurrentProcess s with
  | none => exact Or.inl rfl
  | some i =>
      dsimp only
      split
      · exact Or.inl rfl
      next hcustom =>
        rw [not_or] at hcustom
        have hmax : (MAX_SIGNALS : Int) = 32 := rfl
        have other : ∀ n : Nat, n < 32 → signum ≠ n →
            Fin.ofNat MAX_SIGNALS signum.toNat ≠ Fin.ofNat MAX_SIGNALS n := by
          intro n hn hne heq
          have hval := congrArg Fin.val heq
          simp only [Fin.ofNat, MAX_SIGNALS] at hval
          omega
        exact Or.inr ⟨i, Fin.ofNat MAX_SIGNALS signum.toNat, fun p => f (p.signalActions _), rfl,
          other SIGKILL (by decide) hcustom.1, other SIGSTOP (by decide) hcustom.2, rfl⟩

/-- `signal_proc_mask` changes the mask, if at all, to one that blocks neither signal. -/
theorem signalProcMask_eq (how : Int) (set : Option SigSet) (s : State) :
    ∃ f : SigSet → SigSet, (∀ mask, Spares mask → Spares (f mask)) ∧
      (signalProcMask how set s).2.2 = (changeMask f s).2 := by
  obtain ⟨f, hf, rfl | ⟨mask, rfl | rfl | rfl⟩⟩ := signalProcMask_cases s how set
  · exact ⟨id, fun _ h => h, hf⟩
  · exact ⟨_, fun _ h => h.or (spares_maskable mask), hf⟩
  · exact ⟨_, fun _ h => h.remove _, hf⟩
  · exact ⟨_, fun _ _ => spares_maskable mask, hf⟩

/-- What `sys_sigsuspend` has done when it enters the scheduler. -/
def suspendPrepared (i : Slot) (mask : SigSet) (s : State) : State :=
  blockProcess (s.processes i).pid (s.modify i fun p => { p with blockedSignals := maskable mask })

theorem sysSigsuspend_cases {fuel : Nat} {mask : SigSet} {s : State}
    {out : Option (Slot × SigSet) × State} (h : sysSigsuspend fuel mask s = some out) :
    getCurrentProcess s = none ∧ out = (none, s) ∨
      ∃ i t, getCurrentProcess s = some i ∧ schedule fuel (suspendPrepared i mask s) = some t ∧
        out = (some (i, (s.processes i).blockedSignals), t) := by
  unfold sysSigsuspend at h
  cases hcurrent : getCurrentProcess s with
  | none =>
      rw [hcurrent] at h
      exact Or.inl ⟨rfl, (Option.some.inj h).symm⟩
  | some i =>
      rw [hcurrent] at h
      obtain ⟨t, hrun, hout⟩ := Option.map_eq_some_iff.mp h
      exact Or.inr ⟨i, t, rfl, hrun, hout.symm⟩

/-! ### What the steps keep -/

namespace SignalsSound

variable {s s' : State} (sound : SignalsSound s)
include sound

theorem evolves (h : Evolves s s') (adds : AddsCatchable s s') : SignalsSound s' := by
  refine ⟨fun i hlive => ?_, fun i signum hmem => ?_⟩
  · rw [h.pid_eq i] at hlive
    exact (sound.defenceless i hlive).congr (h.lasting i)
  · rcases adds.added i signum hmem with hold | hcatch
    · exact sound.pending i signum hold
    · exact hcatch

/-- A change of one process that leaves it defenceless and adds nothing to what is pending. -/
theorem modify {i : Slot} {f : Process → Process}
    (hdefenceless : (f (s.processes i)).pid ≠ 0 → Defenceless (f (s.processes i)))
    (hpending : ∀ signum, SigMem (f (s.processes i)).pendingSignals signum → Catchable signum) :
    SignalsSound (s.modify i f) := by
  refine ⟨fun j hlive => ?_, fun j signum hmem => ?_⟩
  · by_cases hj : j = i
    · subst hj
      rw [modify_same] at hlive ⊢
      exact hdefenceless hlive
    · rw [modify_other f hj] at hlive ⊢
      exact sound.defenceless j hlive
  · by_cases hj : j = i
    · subst hj
      rw [modify_same] at hmem
      exact hpending signum hmem
    · rw [modify_other f hj] at hmem
      exact sound.pending j signum hmem

/-- A change of a mask to one that spares both signals. -/
theorem setBlocked {i : Slot} {mask : SigSet} (hmask : Spares mask) :
    SignalsSound (s.modify i fun p => { p with blockedSignals := mask }) :=
  sound.modify (fun hlive => ⟨hmask, (sound.defenceless i hlive).onKill,
    (sound.defenceless i hlive).onStop⟩) (sound.pending i)

theorem changeMask {f : SigSet → SigSet} (hf : ∀ mask, Spares mask → Spares (f mask)) :
    SignalsSound (changeMask f s).2 := by
  rcases changeMask_cases f s with hsame | ⟨i, hcurrent, hrun⟩
  · rw [hsame]
    exact sound
  · rw [hrun]
    have before := sound.defenceless i (getCurrentProcess_live hcurrent)
    exact sound.modify (fun _ => ⟨hf _ before.blocked, before.onKill, before.onStop⟩)
      (sound.pending i)

theorem changeAction (signum : Int) (f : SignalAction → SignalAction) :
    SignalsSound (changeAction signum f s).2 := by
  rcases changeAction_cases signum f s with hsame | ⟨i, n, action, hcurrent, hkill, hstop, hrun⟩
  · rw [hsame]
    exact sound
  · rw [hrun]
    have before := sound.defenceless i (getCurrentProcess_live hcurrent)
    refine sound.modify (fun _ => ⟨before.blocked, ?_, ?_⟩) (sound.pending i)
    · exact (Function.update_of_ne hkill.symm _ _).trans before.onKill
    · exact (Function.update_of_ne hstop.symm _ _).trans before.onStop

end SignalsSound

theorem SignalStep.sound {s s' : State} {w w' : List (Slot × SigSet)} {op : SignalOp}
    (hspawn : ∀ i p, op ≠ .spawn i p) (step : SignalStep ⟨s, w⟩ op ⟨s', w'⟩)
    (sound : SignalsSound s) (suspended : ∀ x ∈ w, Spares x.2) : SignalsSound s' ∧ ∀ x ∈ w', Spares x.2 := by
  cases step with
  | call h => exact ⟨sound.evolves h.evolves h.addsCatchable, suspended⟩
  | signalSetHandler =>
      rw [signalSetHandler_state]
      exact ⟨sound.changeAction _ _, suspended⟩
  | signalSetAction =>
      rw [signalSetAction_state]
      exact ⟨sound.changeAction _ _, suspended⟩
  | signalBlock =>
      rw [signalBlock_state]
      exact ⟨sound.changeMask fun _ h => h.or (spares_maskable _), suspended⟩
  | signalUnblock =>
      rw [signalUnblock_state]
      exact ⟨sound.changeMask fun _ h => h.remove _, suspended⟩
  | signalSetMask =>
      rw [signalSetMask_state]
      exact ⟨sound.changeMask fun _ _ => spares_maskable _, suspended⟩
  | @signalProcMask _ _ how set =>
      obtain ⟨f, hf, hrun⟩ := signalProcMask_eq how set s
      rw [hrun]
      exact ⟨sound.changeMask hf, suspended⟩
  | @sysSigsuspend fuel _ _ _ mask _ h =>
      rcases sysSigsuspend_cases h with ⟨-, hout⟩ | ⟨i, t, hcurrent, hrun, hout⟩
      · cases hout
        exact ⟨sound, suspended⟩
      · cases hout
        have hmasked : SignalsSound (s.modify i fun p => { p with blockedSignals := maskable mask }) :=
          sound.setBlocked (spares_maskable mask)
        have hblocked : SignalsSound (suspendPrepared i mask s) :=
          hmasked.evolves (evolves_blockProcess _ _) (addsCatchable_blockProcess _ _)
        refine ⟨hblocked.evolves ((evolves_calls _).schedule hrun)
          ((keptByCalls_addsCatchable.calls _).schedule hrun), fun x hx => ?_⟩
        rcases List.mem_cons.mp hx with rfl | hx
        · exact (sound.defenceless i (getCurrentProcess_live hcurrent)).blocked
        · exact suspended x hx
  | resume =>
      have hold := suspended _ (List.mem_append_right _ List.mem_cons_self)
      refine ⟨sound.setBlocked hold, fun x hx => suspended x ?_⟩
      rcases List.mem_append.mp hx with hx | hx
      · exact List.mem_append_left _ hx
      · exact List.mem_append_right _ (List.mem_cons_of_mem _ hx)
  | spawn hfree => exact absurd rfl (hspawn _ _)

/-- No step but a creation changes a PID or an exit signal. -/
theorem SignalStep.numbered {t : Table} {s' : State} {w w' : List (Slot × SigSet)} {op : SignalOp}
    (hspawn : ∀ i p, op ≠ .spawn i p) (step : SignalStep ⟨t.kernel, w⟩ op ⟨s', w'⟩)
    (numbered : Numbered t) : Numbered { t with kernel := s' } := by
  have modified : ∀ i f, (∀ p : Process, (f p).pid = p.pid ∧ (f p).exitSignal = p.exitSignal) →
      Numbered { t with kernel := t.kernel.modify i f } := fun i f hf =>
    ⟨numbered.pos, numbered.le,
      fun j => (modify_congr Process.pid (hf _).1 j).trans (numbered.pid j),
      fun j => (modify_congr Process.exitSignal (hf _).2 j).trans (numbered.exitSignal j)⟩
  have masked : ∀ f, Numbered { t with kernel := (changeMask f t.kernel).2 } := by
    intro f
    rcases changeMask_cases f t.kernel with hsame | ⟨i, -, hrun⟩
    · rw [hsame]
      exact numbered
    · rw [hrun]
      exact modified i _ fun _ => ⟨rfl, rfl⟩
  have acted : ∀ n f, Numbered { t with kernel := (changeAction n f t.kernel).2 } := by
    intro n f
    rcases changeAction_cases n f t.kernel with hsame | ⟨i, _, _, -, -, -, hrun⟩
    · rw [hsame]
      exact numbered
    · rw [hrun]
      exact modified i _ fun _ => ⟨rfl, rfl⟩
  cases step with
  | call h => exact numbered.evolves h.evolves
  | signalSetHandler =>
      rw [signalSetHandler_state]
      exact acted _ _
  | signalSetAction =>
      rw [signalSetAction_state]
      exact acted _ _
  | signalBlock =>
      rw [signalBlock_state]
      exact masked _
  | signalUnblock =>
      rw [signalUnblock_state]
      exact masked _
  | signalSetMask =>
      rw [signalSetMask_state]
      exact masked _
  | @signalProcMask _ _ how set =>
      obtain ⟨f, -, hrun⟩ := signalProcMask_eq how set t.kernel
      rw [hrun]
      exact masked f
  | @sysSigsuspend fuel _ _ _ mask _ h =>
      rcases sysSigsuspend_cases h with ⟨-, hout⟩ | ⟨i, u, -, hrun, hout⟩
      · cases hout
        exact numbered
      · cases hout
        have hmasked := modified i (fun p => { p with blockedSignals := maskable mask })
          fun _ => ⟨rfl, rfl⟩
        exact (hmasked.evolves (evolves_blockProcess _ _)).evolves
          ((evolves_calls _).schedule hrun)
  | resume => exact modified _ _ fun _ => ⟨rfl, rfl⟩
  | spawn hfree => exact absurd rfl (hspawn _ _)

theorem TableStep.sound {t t' : Table} {op : TableOp} (numbered : Numbered t)
    (step : TableStep t op t') (sound : SignalsSound t.kernel) : SignalsSound t'.kernel := by
  cases step with
  | createProcess =>
      unfold Process.createProcess
      cases hfree : getProcess 0 t.kernel with
      | none => exact sound
      | some i =>
          apply sound.modify
          · exact fun _ => defenceless_newProcess _ _ _ _
          · exact fun _ hmem => absurd hmem (not_sigMem_zero _)
  | sysFork =>
      rcases sysFork_cases numbered.fresh _ with
        ⟨-, hrun⟩ | ⟨current, child, hcurrent, -, -, hrun⟩
      · rw [hrun]
        exact sound
      · rw [hrun]
        have parent := sound.defenceless current (getCurrentProcess_live hcurrent)
        dsimp only [Table.forked]
        apply sound.modify
        · exact fun _ => ⟨parent.blocked, parent.onKill, parent.onStop⟩
        · exact sound.pending current
  | call h => exact sound.evolves h.evolves h.addsCatchable

theorem MaskStep.inv {y y' : MaskSystem} {op : MaskOp} (inv : MaskInv y)
    (step : MaskStep y op y') : MaskInv y' := by
  cases step with
  | table h => exact ⟨h.numbered inv.numbered, h.sound inv.numbered inv.sound, inv.suspended⟩
  | signals hspawn h =>
      obtain ⟨sound, suspended⟩ := h.sound hspawn inv.sound inv.suspended
      exact ⟨h.numbered hspawn inv.numbered, sound, suspended⟩

theorem maskInv_start (enabled : Bool) (ticks frequency : Nat) :
    MaskInv ⟨.start enabled ticks frequency, []⟩ :=
  ⟨numbered_start enabled ticks frequency,
    ⟨fun _ hlive => absurd rfl hlive, fun _ _ hmem => absurd hmem (not_sigMem_zero _)⟩,
    fun _ hx => absurd hx List.not_mem_nil⟩

/-- **`SIGKILL` and `SIGSTOP` always get through.** In every state reached from
`init_processes`, also while calls of `sys_sigsuspend` wait, no process blocks either of
them or has anything but the default action for them, and nothing is pending but signals
from 1 to 31 other than `SIGKILL`, `SIGSTOP` and `SIGCONT`. -/
theorem kill_and_stop_get_through {enabled : Bool} {ticks frequency : Nat} {ops : List MaskOp}
    {y : MaskSystem} (run : Run MaskStep ⟨.start enabled ticks frequency, []⟩ ops y) :
    SignalsSound y.table.kernel :=
  (run.invariant (I := MaskInv) (fun inv step => step.inv inv)
    (maskInv_start enabled ticks frequency)).sound

/-- A process asks to block every signal, and forks. -/
theorem kill_and_stop_get_through_forked :
    ∃ y, Run MaskStep ⟨.start true 0 100, []⟩
        [.table (.createProcess [105] 0 0 0), .signals (.signalSetMask (BitVec.allOnes 64)),
          .table (.sysFork 0)] y ∧
      (y.table.kernel.processes 1).pid = 2 ∧ SignalsSound y.table.kernel := by
  have run : Run MaskStep ⟨.start true 0 100, []⟩
      [.table (.createProcess [105] 0 0 0), .signals (.signalSetMask (BitVec.allOnes 64)),
        .table (.sysFork 0)] _ :=
    .cons (.table .createProcess) (.cons (.signals (by simp) .signalSetMask)
      (.single (.table .sysFork)))
  exact ⟨_, run, by decide +kernel, kill_and_stop_get_through run⟩

end Curnel.Process
