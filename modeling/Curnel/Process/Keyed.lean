/-
The operations that take a PID.

All of them look for the first slot with that PID, and an unused slot has PID 0. With any
other PID they act on the process that has it, or do nothing; with PID 0 they take the first
unused slot for a process, if there is one (`acts_on_live_iff`). So `exit_process(0)`, the
shell's `exit` while no process is current, makes a zombie where no process is and gives
the processes without a parent to process 1.
-/

import Curnel.Process.Fork
import Curnel.Process.Exits

namespace Curnel.Process

open Lib Word

/-! ### Calls -/

inductive KeyedOp where
  | getProcess
  | blockProcess
  | unblockProcess
  | sleepProcess (ms : Nat)
  | exitProcess (exitCode : Nat)
  | stopProcess
  | continueProcess
  | setProcessGroup (pgid : Nat)
  | sysKill (signum : Nat)

/-- The slots that a call returns or signals, and the state it leaves. `sys_kill` is that of
`signals.c`. -/
def keyedCall (fuel pid : Nat) (op : KeyedOp) (s : State) : Option (List Slot × State) :=
  match op with
  | .getProcess => some ((getProcess pid s).toList, s)
  | .blockProcess => some ([], blockProcess pid s)
  | .unblockProcess => some ([], unblockProcess pid s)
  | .sleepProcess ms => (sleepProcess fuel pid ms s).map fun t => ([], t)
  | .exitProcess code => (exitProcess fuel pid code s).map fun t => ([], t)
  | .stopProcess => (stopProcess fuel pid s).map fun t => ([], t)
  | .continueProcess => some ([], continueProcess pid s)
  | .setProcessGroup pgid => some ([], (setProcessGroup pid pgid s).2)
  | .sysKill signum => (Signals.sysKill fuel pid signum s).map fun out => (out.targets, out.state)

/-- The calls that go on to the scheduler when they have found a process. -/
def Reschedules : KeyedOp → Prop
  | .sleepProcess _ => True
  | .exitProcess _ => True
  | .stopProcess => True
  | .sysKill signum => signum = SIGKILL ∨ signum = SIGSTOP
  | _ => False

/-- A call acts on the live process with the PID, or not at all. -/
structure ActsOnLive (pid : Nat) (op : KeyedOp) (s : State) (slots : List Slot) (s' : State) :
    Prop where
  named : ∀ i ∈ slots, pid ≠ 0 ∧ (s.processes i).pid = pid
  unused : ∀ i, (s.processes i).pid = 0 → s'.processes i = s.processes i
  others : ¬ Reschedules op → ∀ i, (s.processes i).pid ≠ pid → s'.processes i = s.processes i
  absent : (∀ i, (s.processes i).pid = pid → pid = 0) → s' = s
  parents : pid = 0 → ∀ i, (s'.processes i).parentPid = (s.processes i).parentPid

/-! ### Unused slots -/

/-- The unused slots are as they were. -/
def SparesUnused (s s' : State) : Prop :=
  ∀ j, (s.processes j).pid = 0 → s'.processes j = s.processes j

namespace SparesUnused

variable {s s' s'' : State} {i : Slot}

theorem refl (s : State) : SparesUnused s s := fun _ _ => rfl

theorem trans (first : SparesUnused s s') (second : SparesUnused s' s'') : SparesUnused s s'' := by
  intro j hj
  have hsame := first j hj
  rw [← hsame] at hj
  exact (second j hj).trans hsame

theorem of_same (h : s'.processes = s.processes) : SparesUnused s s' := fun j _ => congrFun h j

theorem modify (hi : (s.processes i).pid ≠ 0) (f : Process → Process) :
    SparesUnused s (s.modify i f) := by
  intro j hj
  apply modify_other
  rintro rfl
  exact hi hj

theorem notifyParent (i : Slot) (s : State) : SparesUnused s (notifyParent i s) := by
  unfold Process.notifyParent
  split
  next hparent =>
    split
    next => exact refl s
    next parent hfind =>
      have hlive : (s.processes parent).pid ≠ 0 := by
        rw [getProcess_pid hfind]
        exact hparent
      rw [signalAddPending_sigchld]
      split
      · exact refl s
      · exact modify hlive _
  next => exact refl s

theorem makeZombie (hi : (s.processes i).pid ≠ 0) (pid : Nat) :
    SparesUnused s (makeZombie i pid s) := by
  intro j hj
  have hne : j ≠ i := by
    rintro rfl
    exact hi hj
  have hsame := (Untouched.makeZombie (s := s) hne pid).process
  rw [makeZombie_pendingSignals, makeZombie_parentPid, if_neg fun h => h.1 hj] at hsame
  exact hsame

theorem exitPrepared (hi : (s.processes i).pid ≠ 0) (pid : Nat) :
    SparesUnused s (exitPrepared pid i s) := by
  apply (notifyParent i s).trans
  apply makeZombie
  rw [(evolves_notifyParent i s).pid_eq i]
  exact hi

theorem selectedFate (hi : (s.processes i).pid ≠ 0) : SparesUnused s (selectedFate i s).2 := by
  intro j hj
  apply selectedFate_other
  rintro rfl
  exact hi hj

theorem dispatch (hcurrent : (s.processes s.currentProcessIndex).pid ≠ 0) :
    SparesUnused s (dispatch s) := by
  unfold Process.dispatch switchToProcess
  split
  next => exact refl s
  next i hfind =>
    have hlive : (s.processes i).pid ≠ 0 := by
      rw [getProcess_pid hfind]
      exact hcurrent
    intro j hj
    apply Function.update_of_ne
    rintro rfl
    exact hlive hj

theorem continueProcess {pid : Nat} (hpid : pid ≠ 0) (s : State) :
    SparesUnused s (continueProcess pid s) := by
  rcases continueProcess_cases pid s with hout | ⟨i, hfind, -, hout⟩
  · rw [hout]
    exact refl s
  · have hlive : (s.processes i).pid ≠ 0 := by
      rw [getProcess_pid hfind]
      exact hpid
    rw [hout]
    exact modify hlive _

end SparesUnused

/-- The scheduler selects, and lets exit, live processes only. -/
theorem schedule_sparesUnused {fuel : Nat} {s s' : State} (wf : WellFormed s)
    (h : schedule fuel s = some s') : SparesUnused s s' := by
  induction fuel using Nat.strong_induction_on generalizing s s' with
  | _ fuel ih =>
      rcases schedule_cases wf h with ⟨-, rfl⟩ | ⟨i, hnext, hrest⟩
      · exact .refl s'
      have hlive := (runnable_of_nextRunnable hnext).1
      have scanned : SparesUnused s (selectedFate i s).2 := .selectedFate hlive
      have wf' := wf.evolves (evolves_selectedFate i s)
      rcases hrest with ⟨-, rfl⟩ | ⟨signum, t, less, -, hless, hrun, rfl⟩
      · exact scanned.trans (.dispatch (selectedFate_current hnext))
      · have hpid := (evolves_selectedFate i s).pid_eq i
        have wfe := wf'.evolves (evolves_exitPrepared (s.processes i).pid i _)
        have exited : SparesUnused s (exitPrepared (s.processes i).pid i (selectedFate i s).2) :=
          scanned.trans (.exitPrepared (hpid.symm ▸ hlive) _)
        have hcurrent := schedule_current_live wfe hrun (exitPrepared_current hnext)
        exact (exited.trans (ih less hless wfe hrun)).trans (.dispatch hcurrent)

/-! ### Calls that write one process -/

/-- Nothing is written, or the first process with PID `pid`. -/
def WritesFound (pid : Nat) (s s' : State) : Prop :=
  s' = s ∨ ∃ i f, getProcess pid s = some i ∧ s' = s.modify i f

namespace WritesFound

variable {pid : Nat} {s s' : State}

theorem other (h : WritesFound pid s s') {j : Slot} (hj : (s.processes j).pid ≠ pid) :
    s'.processes j = s.processes j := by
  rcases h with rfl | ⟨i, f, hfind, rfl⟩
  · rfl
  · apply modify_other
    rintro rfl
    exact hj (getProcess_pid hfind)

theorem none (h : WritesFound pid s s') (hnone : getProcess pid s = none) : s' = s := by
  rcases h with hsame | ⟨i, f, hfind, -⟩
  · exact hsame
  · rw [hnone] at hfind
    cases hfind

theorem blockProcess (pid : Nat) (s : State) : WritesFound pid s (blockProcess pid s) := by
  unfold Process.blockProcess
  split
  next => exact .inl rfl
  next i hfind => exact .inr ⟨i, _, hfind, rfl⟩

theorem unblockProcess (pid : Nat) (s : State) : WritesFound pid s (unblockProcess pid s) := by
  rcases unblockProcess_cases pid s with hout | ⟨i, hfind, -, hout⟩
  · exact .inl hout
  · exact .inr ⟨i, _, hfind, hout⟩

theorem continueProcess (pid : Nat) (s : State) : WritesFound pid s (continueProcess pid s) := by
  rcases continueProcess_cases pid s with hout | ⟨i, hfind, -, hout⟩
  · exact .inl hout
  · exact .inr ⟨i, _, hfind, hout⟩

theorem setProcessGroup (pid pgid : Nat) (s : State) :
    WritesFound pid s (setProcessGroup pid pgid s).2 := by
  unfold Process.setProcessGroup
  split
  next => exact .inl rfl
  next i hfind =>
    dsimp only
    exact .inr ⟨i, _, hfind, rfl⟩

end WritesFound

/-! ### Calls that find a live process or none -/

/-- PID 0 finds no slot. -/
def FindsLive (pid : Nat) (s : State) : Prop := pid ≠ 0 ∨ ∀ i, (s.processes i).pid ≠ 0

namespace FindsLive

variable {pid fuel : Nat} {s s' : State}

theorem ne_zero (finds : FindsLive pid s) {i : Slot} (hfind : getProcess pid s = some i) :
    pid ≠ 0 := by
  rcases finds with hpid | hfull
  · exact hpid
  · rw [← getProcess_pid hfind]
    exact hfull i

theorem live (finds : FindsLive pid s) {i : Slot} (hfind : getProcess pid s = some i) :
    (s.processes i).pid ≠ 0 := by
  rw [getProcess_pid hfind]
  exact finds.ne_zero hfind

/-- A call acts on live processes only that spares the unused slots, and does nothing when it
finds no process. -/
theorem actsOnLive (finds : FindsLive pid s) {op : KeyedOp} {slots : List Slot}
    (hslots : ∀ i ∈ slots, getProcess pid s = some i) (spares : SparesUnused s s')
    (hothers : ¬ Reschedules op → ∀ i, (s.processes i).pid ≠ pid →
      s'.processes i = s.processes i)
    (hnone : getProcess pid s = none → s' = s) : ActsOnLive pid op s slots s' := by
  refine ⟨?_, spares, hothers, ?_, ?_⟩
  · intro i hi
    exact ⟨finds.ne_zero (hslots i hi), getProcess_pid (hslots i hi)⟩
  · intro habsent
    cases hfind : getProcess pid s with
    | none => exact hnone hfind
    | some i => exact absurd (habsent i (getProcess_pid hfind)) (finds.ne_zero hfind)
  · rintro rfl i
    cases hfind : getProcess 0 s with
    | none => rw [hnone hfind]
    | some j => exact absurd rfl (finds.ne_zero hfind)

theorem of_writesFound (finds : FindsLive pid s) (writes : WritesFound pid s s') (op : KeyedOp)
    {slots : List Slot} (hslots : ∀ i ∈ slots, getProcess pid s = some i) :
    ActsOnLive pid op s slots s' := by
  apply finds.actsOnLive hslots
  · rcases writes with rfl | ⟨i, f, hfind, rfl⟩
    · exact .refl s'
    · exact .modify (finds.live hfind) f
  · exact fun _ i hi => writes.other hi
  · exact writes.none

/-- The same for those that enter the scheduler with the process they find changed. -/
theorem of_schedule (finds : FindsLive pid s) (op : KeyedOp) (hop : Reschedules op)
    (h : getProcess pid s = none ∧ s' = s ∨ ∃ i u less, getProcess pid s = some i ∧
      SparesUnused s u ∧ WellFormed u ∧ schedule less u = some s')
    {slots : List Slot} (hslots : ∀ i ∈ slots, getProcess pid s = some i) :
    ActsOnLive pid op s slots s' := by
  apply finds.actsOnLive hslots
  · rcases h with ⟨-, rfl⟩ | ⟨i, u, less, hfind, spares, wf, hrun⟩
    · exact .refl s'
    · exact spares.trans (schedule_sparesUnused wf hrun)
  · exact fun hnot => absurd hop hnot
  · intro hnone
    rcases h with ⟨-, hsame⟩ | ⟨i, u, less, hfind, -⟩
    · exact hsame
    · rw [hnone] at hfind
      cases hfind

theorem exitProcess (finds : FindsLive pid s) (wf : WellFormed s) {code : Nat} (op : KeyedOp)
    (hop : Reschedules op) (h : exitProcess fuel pid code s = some s') {slots : List Slot}
    (hslots : ∀ i ∈ slots, getProcess pid s = some i) : ActsOnLive pid op s slots s' := by
  refine finds.of_schedule op hop ?_ hslots
  rcases exitProcess_cases wf h with hnone | ⟨i, less, hfind, -, hrun⟩
  · exact .inl hnone
  · exact .inr ⟨i, _, less, hfind, .exitPrepared (finds.live hfind) pid,
      wf.evolves (evolves_exitPrepared pid i s), hrun⟩

theorem stopProcess (finds : FindsLive pid s) (wf : WellFormed s) (op : KeyedOp)
    (hop : Reschedules op) (h : stopProcess fuel pid s = some s') {slots : List Slot}
    (hslots : ∀ i ∈ slots, getProcess pid s = some i) : ActsOnLive pid op s slots s' := by
  refine finds.of_schedule op hop ?_ hslots
  rcases stopProcess_cases h with hnone | ⟨i, less, hfind, -, hrun⟩
  · exact .inl hnone
  · exact .inr ⟨i, _, less, hfind, .modify (finds.live hfind) _,
      wf.evolves (evolves_setState s i .stopped), hrun⟩

theorem sleepProcess (finds : FindsLive pid s) (wf : WellFormed s) {ms : Nat}
    (h : sleepProcess fuel pid ms s = some s') :
    ActsOnLive pid (.sleepProcess ms) s [] s' := by
  refine finds.of_schedule (.sleepProcess ms) trivial ?_ (by simp)
  rcases sleepProcess_cases h with hnone | ⟨i, hfind, hrun⟩
  · exact .inl hnone
  · exact .inr ⟨i, _, fuel, hfind, .modify (finds.live hfind) _,
      wf.evolves (evolves_modify rfl rfl), hrun⟩

/-- `signal_send` to the process found. -/
theorem signalSend (finds : FindsLive pid s) (wf : WellFormed s) {signum : Nat} {i : Slot}
    (hfind : getProcess pid s = some i) {out : Int × State}
    (h : signalSend fuel i signum s = some out) :
    ActsOnLive pid (.sysKill signum) s [i] out.2 := by
  have hslots : ∀ j ∈ [i], getProcess pid s = some j := by
    intro j hj
    rw [List.mem_singleton.mp hj]
    exact hfind
  have writes : ∀ t, WritesFound pid s t → ActsOnLive pid (.sysKill signum) s [i] t :=
    fun t writes => finds.of_writesFound writes _ hslots
  have cases := signalSend_cases h
  rw [getProcess_pid hfind] at cases
  rcases cases with ⟨-, rfl⟩ | ⟨less, hkill, hexit⟩ | ⟨less, hstop, hstopped⟩ |
    ⟨-, rfl | rfl⟩ | ⟨-, rfl⟩
  · exact writes _ (.inl rfl)
  · exact finds.exitProcess wf (.sysKill signum) (Or.inl (by exact_mod_cast hkill)) hexit hslots
  · exact finds.stopProcess wf (.sysKill signum) (Or.inr (by exact_mod_cast hstop)) hstopped
      hslots
  · exact writes _ (.continueProcess pid s)
  · exact writes _ (.inl rfl)
  · apply writes
    have pending : WritesFound pid s (setPending i (signum : Int).toNat s) :=
      .inr ⟨i, _, hfind, rfl⟩
    rcases signalAddPending_cases i signum s with hout | hout
    · rw [hout]
      exact .inl rfl
    · rw [hout]
      exact pending

theorem sysKill (finds : FindsLive pid s) (wf : WellFormed s) {signum : Nat} {out : Killed}
    (h : Signals.sysKill fuel pid signum s = some out) :
    ActsOnLive pid (.sysKill signum) s out.targets out.state := by
  have nothing : ActsOnLive pid (.sysKill signum) s [] s :=
    finds.of_writesFound (.inl rfl) _ (by simp)
  unfold Signals.sysKill sendToProcess at h
  split at h
  · cases h
    exact nothing
  split at h
  next =>
    cases h
    exact nothing
  next i hfind =>
    obtain ⟨answer, hsend, rfl⟩ := Option.map_eq_some_iff.mp h
    exact finds.signalSend wf hfind hsend

end FindsLive

/-! ### PID 0 -/

/-- In every table that the kernel reaches, the calls with a PID act on live processes only,
if and only if the PID is not 0 or no slot is unused. -/
theorem acts_on_live_iff {enabled : Bool} {ticks frequency : Nat}
    {ops : List (Option TableOp)} {t : Table}
    (run : Run KernelStep (.start enabled ticks frequency) ops t) (pid : Nat) :
    (∀ op fuel slots s', keyedCall fuel pid op t.kernel = some (slots, s') →
        ActsOnLive pid op t.kernel slots s') ↔
      pid ≠ 0 ∨ ∀ i, (t.kernel.processes i).pid ≠ 0 := by
  have wf := (run_numbered run).wellFormed
  constructor
  · intro acts
    by_cases hpid : pid = 0
    · right
      intro i hi
      cases hfind : getProcess pid t.kernel with
      | none => exact getProcess_eq_none.mp hfind i (hi.trans hpid.symm)
      | some j =>
          have returned := acts .getProcess 0 [j] t.kernel (by rw [keyedCall, hfind]; rfl)
          exact (returned.named j (List.mem_singleton_self j)).1 hpid
    · exact .inl hpid
  · intro finds op fuel slots s' h
    change FindsLive pid t.kernel at finds
    cases op with
    | getProcess =>
        cases h
        exact finds.of_writesFound (.inl rfl) _ fun i hi => Option.mem_toList.mp hi
    | blockProcess =>
        cases h
        exact finds.of_writesFound (.blockProcess pid _) _ (by simp)
    | unblockProcess =>
        cases h
        exact finds.of_writesFound (.unblockProcess pid _) _ (by simp)
    | continueProcess =>
        cases h
        exact finds.of_writesFound (.continueProcess pid _) _ (by simp)
    | setProcessGroup pgid =>
        cases h
        exact finds.of_writesFound (.setProcessGroup pid pgid _) _ (by simp)
    | sleepProcess ms =>
        obtain ⟨u, hcall, hout⟩ := Option.map_eq_some_iff.mp h
        cases hout
        exact finds.sleepProcess wf hcall
    | exitProcess code =>
        obtain ⟨u, hcall, hout⟩ := Option.map_eq_some_iff.mp h
        cases hout
        exact finds.exitProcess wf (.exitProcess code) trivial hcall (by simp)
    | stopProcess =>
        obtain ⟨u, hcall, hout⟩ := Option.map_eq_some_iff.mp h
        cases hout
        exact finds.stopProcess wf .stopProcess trivial hcall (by simp)
    | sysKill signum =>
        obtain ⟨out, hcall, hout⟩ := Option.map_eq_some_iff.mp h
        cases hout
        exact finds.sysKill wf hcall

/-- With PID 1, of the only process, they do. -/
theorem acts_on_live_iff_init :
    ∃ ops t, Run KernelStep (.start true 0 100) ops t ∧ (t.kernel.processes 0).pid = 1 ∧
      ∀ op fuel slots s', keyedCall fuel 1 op t.kernel = some (slots, s') →
        ActsOnLive 1 op t.kernel slots s' := by
  have run : Run KernelStep (.start true 0 100) [some (.createProcess [] 0 0 0)] _ :=
    .single (.table .createProcess)
  exact ⟨_, _, run, by decide +kernel, (acts_on_live_iff run 1).mpr (.inl (by decide))⟩

/-- While one process is there, `exit_process(0)` makes a zombie of the unused slot 1 and gives
process 1 to itself. -/
theorem exit_of_nobody :
    ∃ ops t s', Run KernelStep (.start true 0 100) ops t ∧
      keyedCall 4 0 (.exitProcess 0) t.kernel = some ([], s') ∧
      (t.kernel.processes 1).pid = 0 ∧ (s'.processes 1).state = .zombie ∧
      (t.kernel.processes 0).pid = 1 ∧ (t.kernel.processes 0).parentPid = 0 ∧
      (s'.processes 0).parentPid = 1 ∧ ¬ ActsOnLive 0 (.exitProcess 0) t.kernel [] s' := by
  have run : Run KernelStep (.start true 0 100) [some (.createProcess [] 0 0 0)] _ :=
    .single (.table .createProcess)
  let s := (createProcess [] 0 0 0 (.start true 0 100)).2.kernel
  have hparent : (s.processes 0).parentPid = 0 := by decide +kernel
  have hadopted : (((exitProcess 4 0 0 s).getD s).processes 0).parentPid = 1 := by decide +kernel
  have hreturns : (exitProcess 4 0 0 s).isSome := by decide +kernel
  have hcall : keyedCall 4 0 (.exitProcess 0) s = some ([], (exitProcess 4 0 0 s).getD s) := by
    obtain ⟨s', hs'⟩ := Option.isSome_iff_exists.mp hreturns
    rw [keyedCall, hs']
    rfl
  refine ⟨_, _, _, run, hcall, by decide +kernel, by decide +kernel, by decide +kernel, hparent,
    hadopted, fun acts => ?_⟩
  have hkept := acts.parents rfl 0
  rw [hadopted, hparent] at hkept
  cases hkept

end Curnel.Process
