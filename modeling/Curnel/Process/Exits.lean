/-
Who may exit in a step, and what that changes for the others.

The scheduler terminates runnable processes that have a signal pending whose default
action terminates them (`Doomed`), one after another. The processes that may exit in a
step are these, in the state in which the step enters the scheduler, and the one that
the step is told to terminate (`MayExit`). Whoever of them exits, `Moves` says what can
have become of all: nobody is blocked, the only new zombies are those that exit, their
children go to process 1, and their parents may get `SIGCHLD`.
-/

import Curnel.Process.Running

namespace Curnel.Process

open Lib

/-! ### Who exits -/

/-- A signal is pending that is not blocked, and its default action terminates the process. -/
def FatalPending (s : State) (i : Slot) : Prop :=
  ∃ signum, SigMem (s.processes i).pendingSignals signum ∧
    ¬ SigMem (s.processes i).blockedSignals signum ∧ handlerOf s i signum = SIG_DFL ∧
    defaultSignalActions.getD signum 0 ≠ 0

def Doomed (s : State) (i : Slot) : Prop := runnable s i ∧ FatalPending s i

/-- The process that a step is told to terminate. -/
def leaving : Op → State → Option Slot
  | .exitProcess pid _, s => getProcess pid s
  | .signalSend i signum, s =>
      if signum = SIGKILL then getProcess (s.processes i).pid s else none
  | .signalHandlePending i, s =>
      match (pendingFate i s).1 with
      | .terminate _ => getProcess (s.processes i).pid s
      | _ => none
  | _, _ => none

/-- The state in which a step enters the scheduler, with the steps that send signals. -/
def entering : Op → State → Option State
  | .signalSend i signum, s =>
      if signum = SIGKILL then scheduling (.exitProcess (s.processes i).pid (128 + SIGKILL)) s
      else if signum = SIGSTOP then scheduling (.stopProcess (s.processes i).pid) s
      else none
  | .signalHandlePending i, s =>
      match pendingFate i s with
      | (.terminate signum, t) => scheduling (.exitProcess (s.processes i).pid (128 + signum)) t
      | _ => none
  | op, s => scheduling op s

def MayExit (op : Op) (s : State) (j : Slot) : Prop :=
  leaving op s = some j ∨ ∃ u, entering op s = some u ∧ Doomed u j

/-! ### What exits change -/

/-- The process in slot `i` is the parent of the one in slot `j`, or it is process 1 and
becomes the parent if those in `X` exit. -/
def Adopts (X : Slot → Prop) (s : State) (i j : Slot) : Prop :=
  (s.processes j).parentPid = (s.processes i).pid ∨
    (s.processes i).pid = 1 ∧ ∃ x, X x ∧ (s.processes x).pid = (s.processes j).parentPid

structure Moves (X : Slot → Prop) (s s' : State) : Prop where
  lasting : ∀ j, lasting (s'.processes j) = lasting (s.processes j)
  blocked : ∀ j, (s'.processes j).state = .blocked → (s.processes j).state = .blocked
  zombie : ∀ j, (s'.processes j).state = .zombie → (s.processes j).state = .zombie ∨ X j
  parent : ∀ j, (s'.processes j).parentPid = (s.processes j).parentPid ∨
    (s'.processes j).parentPid = 1 ∧ ∃ x, X x ∧
      (s.processes x).pid = (s.processes j).parentPid ∧ (s'.processes x).state ≠ .blocked
  pending : ∀ j n, SigMem (s'.processes j).pendingSignals n →
    SigMem (s.processes j).pendingSignals n ∨
      n = SIGCHLD ∧ ¬ SigMem (s.processes j).blockedSignals SIGCHLD ∧
        ∃ x, X x ∧ Adopts X s j x

theorem signalAddPending_sigchld (i : Slot) (s : State) :
    (signalAddPending i SIGCHLD s).2
      = if SigMem (s.processes i).blockedSignals SIGCHLD then s else setPending i SIGCHLD s := by
  unfold signalAddPending
  rw [if_neg (by decide), if_neg (by decide)]
  split
  next hfree => exact (if_neg (not_not.mpr hfree)).symm
  next hmem => exact (if_pos hmem).symm

theorem makeZombie_parentPid (i : Slot) (pid : Nat) (s : State) (j : Slot) :
    ((makeZombie i pid s).processes j).parentPid
      = if (s.processes j).pid ≠ 0 ∧ (s.processes j).parentPid = pid then 1
        else (s.processes j).parentPid := by
  have hstack : ((kfreeStack i s).processes j).pid = (s.processes j).pid ∧
      ((kfreeStack i s).processes j).parentPid = (s.processes j).parentPid := by
    unfold kfreeStack
    split
    · exact ⟨modify_congr Process.pid rfl j, modify_congr Process.parentPid rfl j⟩
    · exact ⟨rfl, rfl⟩
  have hsignal : ∀ t, ((kfreeSignalStack i t).processes j).pid = (t.processes j).pid ∧
      ((kfreeSignalStack i t).processes j).parentPid = (t.processes j).parentPid := by
    intro t
    unfold kfreeSignalStack
    split
    · exact ⟨modify_congr Process.pid rfl j, modify_congr Process.parentPid rfl j⟩
    · exact ⟨rfl, rfl⟩
  obtain ⟨hpid, hparent⟩ := hsignal (kfreeStack i s)
  rw [hstack.1] at hpid
  rw [hstack.2] at hparent
  have hzombie := modify_congr (i := i) Process.parentPid
    (s := orphanChildren pid (kfreeSignalStack i (kfreeStack i s)))
    (f := fun p => { p with state := .zombie }) rfl j
  unfold makeZombie State.emit State.setState
  rw [hzombie, ← hpid, ← hparent]
  simp only [orphanChildren]
  split <;> rfl

namespace Moves

variable {X : Slot → Prop} {s s' s'' : State}

theorem pid_eq (h : Moves X s s') (j : Slot) : (s'.processes j).pid = (s.processes j).pid :=
  congrArg Lasting.pid (h.lasting j)

theorem processGroup_eq (h : Moves X s s') (j : Slot) :
    (s'.processes j).processGroup = (s.processes j).processGroup :=
  congrArg Lasting.processGroup (h.lasting j)

theorem blockedSignals_eq (h : Moves X s s') (j : Slot) :
    (s'.processes j).blockedSignals = (s.processes j).blockedSignals :=
  congrArg Lasting.blockedSignals (h.lasting j)

/-- Who adopts a process later would have adopted it before. -/
theorem adopts (h : Moves X s s') {i j : Slot} (later : Adopts X s' i j) : Adopts X s i j := by
  unfold Adopts at later
  rw [h.pid_eq i] at later
  rcases h.parent j with hsame | ⟨hone, x, hx, hpid, -⟩
  · rw [hsame] at later
    rcases later with heq | ⟨hinit, x, hx, hpid⟩
    · exact Or.inl heq
    · rw [h.pid_eq x] at hpid
      exact Or.inr ⟨hinit, x, hx, hpid⟩
  · rcases later with heq | ⟨hinit, -⟩
    · exact Or.inr ⟨heq.symm.trans hone, x, hx, hpid⟩
    · exact Or.inr ⟨hinit, x, hx, hpid⟩

theorem refl (X : Slot → Prop) (s : State) : Moves X s s :=
  ⟨fun _ => rfl, fun _ h => h, fun _ h => Or.inl h, fun _ => Or.inl rfl, fun _ _ h => Or.inl h⟩

theorem trans (first : Moves X s s') (second : Moves X s' s'') : Moves X s s'' := by
  refine ⟨fun j => (second.lasting j).trans (first.lasting j),
    fun j h => first.blocked j (second.blocked j h), ?_, ?_, ?_⟩
  · intro j h
    rcases second.zombie j h with hbefore | hx
    · exact first.zombie j hbefore
    · exact Or.inr hx
  · intro j
    rcases first.parent j with hsame | ⟨hone, x, hx, hpid, hstate⟩
    · rcases second.parent j with hsame' | ⟨hone', x, hx, hpid, hstate⟩
      · exact Or.inl (hsame'.trans hsame)
      · rw [first.pid_eq x, hsame] at hpid
        exact Or.inr ⟨hone', x, hx, hpid, hstate⟩
    · have hlater : (s''.processes x).state ≠ .blocked := fun h => hstate (second.blocked x h)
      rcases second.parent j with hsame' | ⟨hone', -⟩
      · exact Or.inr ⟨hsame'.trans hone, x, hx, hpid, hlater⟩
      · exact Or.inr ⟨hone', x, hx, hpid, hlater⟩
  · intro j n h
    rcases second.pending j n h with hbefore | ⟨hn, hfree, x, hx, hadopts⟩
    · exact first.pending j n hbefore
    · rw [first.blockedSignals_eq j] at hfree
      exact Or.inr ⟨hn, hfree, x, hx, first.adopts hadopts⟩

/-- A change of one process that blocks nobody, lets nobody exit and makes nothing pending. -/
theorem of_modify {i : Slot} {f : Process → Process}
    (hlasting : Process.lasting (f (s.processes i)) = Process.lasting (s.processes i))
    (hstate : (f (s.processes i)).state = (s.processes i).state ∨
      (f (s.processes i)).state ≠ .blocked ∧ (f (s.processes i)).state ≠ .zombie)
    (hparent : (f (s.processes i)).parentPid = (s.processes i).parentPid)
    (hpending : ∀ n, SigMem (f (s.processes i)).pendingSignals n →
      SigMem (s.processes i).pendingSignals n) : Moves X s (s.modify i f) := by
  have hstates : ∀ j, ((s.modify i f).processes j).state = (s.processes j).state ∨
      ((s.modify i f).processes j).state ≠ .blocked ∧
        ((s.modify i f).processes j).state ≠ .zombie := by
    intro j
    by_cases hj : j = i
    · subst hj
      rw [modify_same]
      exact hstate
    · rw [modify_other f hj]
      exact Or.inl rfl
  refine ⟨modify_congr Process.lasting hlasting, ?_, ?_,
    fun j => Or.inl (modify_congr Process.parentPid hparent j), ?_⟩
  · intro j h
    rcases hstates j with hsame | ⟨hne, -⟩
    · rw [← hsame]
      exact h
    · exact absurd h hne
  · intro j h
    rcases hstates j with hsame | ⟨-, hne⟩
    · rw [← hsame]
      exact Or.inl h
    · exact absurd h hne
  · intro j n h
    by_cases hj : j = i
    · subst hj
      rw [modify_same] at h
      exact Or.inl (hpending n h)
    · rw [modify_other f hj] at h
      exact Or.inl h

theorem setState (s : State) (i : Slot) {v : ProcessState} (hblocked : v ≠ .blocked)
    (hzombie : v ≠ .zombie) : Moves X s (s.setState i v) :=
  of_modify rfl (Or.inr ⟨hblocked, hzombie⟩) rfl fun _ h => h

theorem index (s : State) (i : Slot) : Moves X s { s with currentProcessIndex := i } :=
  ⟨fun _ => rfl, fun _ h => h, fun _ h => Or.inl h, fun _ => Or.inl rfl, fun _ _ h => Or.inl h⟩

theorem switchToProcess (pid : Nat) (s : State) : Moves X s (switchToProcess pid s) := by
  unfold Process.switchToProcess
  split
  · exact refl X s
  next i _ =>
    have running : Moves X s (s.modify i fun p =>
        { p with state := .running, cpuTime := Lib.Word.wadd 64 p.cpuTime 1 }) :=
      of_modify rfl (Or.inr ⟨by simp, by simp⟩) rfl fun _ h => h
    exact running.trans (index _ i)

theorem continueProcess (pid : Nat) (s : State) : Moves X s (continueProcess pid s) := by
  rcases continueProcess_cases pid s with hout | ⟨i, -, -, hout⟩
  · rw [hout]
    exact refl X s
  · rw [hout]
    exact setState s _ (by simp) (by simp)

theorem clearPending (i : Slot) (signum : Nat) (s : State) :
    Moves X s (clearPending i signum s) := by
  apply of_modify rfl (Or.inl rfl) rfl
  intro n h
  rw [sigMem_iff] at h ⊢
  rw [BitVec.getLsbD_and, Bool.and_eq_true] at h
  exact h.1

theorem callHandler (i : Slot) (signum handler : Nat) (s : State) :
    Moves X s (callHandler i signum handler s) := by
  have event : Moves X s
      (s.emit (.handlerCalled i signum handler (s.processes i).blockedSignals)) :=
    ⟨fun _ => rfl, fun _ h => h, fun _ h => Or.inl h, fun _ => Or.inl rfl, fun _ _ h => Or.inl h⟩
  exact event.trans (of_modify rfl (Or.inl rfl) rfl fun _ h => h)

theorem pendingFate (i : Slot) (s : State) : Moves X s (pendingFate i s).2 :=
  pendingFate_induct (refl X) trans clearPending callHandler continueProcess i s

theorem selectedFate (i : Slot) (s : State) : Moves X s (selectedFate i s).2 :=
  ((index s i).trans (setState _ i (by simp) (by simp))).trans (pendingFate i _)

theorem timerTick (s : State) : Moves X s (timerTick s) :=
  timerTick_induct (refl X) trans
    (fun _ _ => ⟨fun _ => rfl, fun _ h => h, fun _ h => Or.inl h, fun _ => Or.inl rfl,
      fun _ _ h => Or.inl h⟩)
    (fun s i => setState s i (by simp) (by simp)) s

/-- A process that leaves tells its parent. -/
theorem notifyParent {i : Slot} (s : State) (hx : X i) : Moves X s (notifyParent i s) := by
  unfold Process.notifyParent
  split
  · split
    · exact refl X s
    next parent hfind =>
      rw [signalAddPending_sigchld]
      split
      · exact refl X s
      next hfree =>
        have hadopts : Adopts X s parent i := Or.inl (getProcess_pid hfind).symm
        refine ⟨modify_congr Process.lasting rfl, ?_, ?_,
          fun j => Or.inl (modify_congr Process.parentPid rfl j), ?_⟩
        · intro j h
          rwa [(onlySignals_setPending s parent SIGCHLD).state j] at h
        · intro j h
          rw [(onlySignals_setPending s parent SIGCHLD).state j] at h
          exact Or.inl h
        · intro j n h
          unfold setPending at h
          by_cases hj : j = parent
          · subst hj
            rw [modify_same] at h
            rcases (sigMem_or (by decide)).mp h with hold | hn
            · exact Or.inl hold
            · exact Or.inr ⟨hn, hfree, i, hx, hadopts⟩
          · rw [modify_other _ hj] at h
            exact Or.inl h
  · exact refl X s

/-- It becomes a zombie, and its children go to process 1. -/
theorem makeZombie {i : Slot} {pid : Nat} {s : State} (hx : X i)
    (hpid : (s.processes i).pid = pid) : Moves X s (makeZombie i pid s) := by
  refine ⟨(evolves_makeZombie i pid s).lasting, ?_, ?_, ?_, ?_⟩
  · intro j h
    rw [makeZombie_state] at h
    split at h
    · cases h
    · exact h
  · intro j h
    rw [makeZombie_state] at h
    split at h
    next hj => exact Or.inr (hj ▸ hx)
    next => exact Or.inl h
  · intro j
    rw [makeZombie_parentPid]
    split
    next hchild =>
      refine Or.inr ⟨rfl, i, hx, hpid.trans hchild.2.symm, ?_⟩
      rw [makeZombie_state, if_pos rfl]
      simp
    next => exact Or.inl rfl
  · intro j n h
    rw [makeZombie_pendingSignals] at h
    exact Or.inl h

theorem exitPrepared {i : Slot} {pid : Nat} {s : State} (hx : X i)
    (hpid : (s.processes i).pid = pid) : Moves X s (exitPrepared pid i s) :=
  (notifyParent s hx).trans
    (makeZombie hx (((evolves_notifyParent i s).pid_eq i).trans hpid))

/-- No signal that comes in is fatal. -/
theorem fatalPending (h : Moves X s s') {i : Slot} (later : FatalPending s' i) :
    FatalPending s i := by
  obtain ⟨signum, hmem, hfree, hdfl, hfatal⟩ := later
  rw [h.blockedSignals_eq i] at hfree
  rw [handlerOf_congr (h.lasting i)] at hdfl
  rcases h.pending i signum hmem with hbefore | ⟨hchild, -⟩
  · exact ⟨signum, hbefore, hfree, hdfl, hfatal⟩
  · subst hchild
    exact absurd rfl hfatal

end Moves

/-! ### The scheduler -/

/-- The scan terminates a process only for a fatal signal. -/
theorem fatalPending_of_scan {i : Slot} {n start signum : Nat} {s : State}
    (h : (pendingScan i n start s).1 = .terminate signum) : FatalPending s i := by
  induction n generalizing start s with
  | zero => cases h
  | succ n ih =>
      have taken : ∀ {t}, Moves (fun _ => False) (clearPending i start s) t →
          FatalPending t i → FatalPending s i :=
        fun moves later => ((Moves.clearPending i start s).trans moves).fatalPending later
      simp only [pendingScan] at h
      split at h
      next hmem =>
        split at h
        next hdfl =>
          split at h
          next hterm =>
            refine ⟨start, hmem.1, not_not.mpr hmem.2, hdfl, ?_⟩
            intro hzero
            rw [hzero] at hterm
            exact hterm rfl
          split at h
          · exact taken (.refl _ _) (ih h)
          split at h
          · split at h
            · exact taken (.continueProcess _ _) (ih h)
            · exact taken (.refl _ _) (ih h)
          split at h
          · cases h
          · exact taken (.refl _ _) (ih h)
        next =>
          split at h
          · exact taken (.refl _ _) (ih h)
          · cases h
      next => exact ih h

theorem fatalPending_of_fate {i : Slot} {signum : Nat} {s : State}
    (h : (pendingFate i s).1 = .terminate signum) : FatalPending s i := by
  unfold pendingFate at h
  split at h
  · cases h
  split at h
  · cases h
  · exact fatalPending_of_scan h

/-- The processes that the scheduler terminates are doomed when it is entered. -/
theorem schedule_moves {X : Slot → Prop} {fuel : Nat} {s s' : State} (wf : WellFormed s)
    (h : schedule fuel s = some s') (doomed : ∀ j, Doomed s j → X j) : Moves X s s' := by
  induction fuel using Nat.strong_induction_on generalizing s s' with
  | _ fuel ih =>
      rcases schedule_cases wf h with ⟨-, rfl⟩ | ⟨i, hnext, hrest⟩
      · exact .refl X _
      have handled : Moves X s (selectedFate i s).2 := .selectedFate i s
      rcases hrest with ⟨-, rfl⟩ | ⟨signum, t, less, hfate, hless, hrun, rfl⟩
      · exact handled.trans (.switchToProcess _ _)
      -- the process selected exits, and the scheduler goes on
      have hfatal : FatalPending s i :=
        (((Moves.index s i).trans (.setState _ i (by simp) (by simp))) :
          Moves X s (selected i s)).fatalPending (fatalPending_of_fate hfate)
      have hi : X i := doomed i ⟨runnable_of_nextRunnable hnext, hfatal⟩
      have left : Moves X s (exitPrepared (s.processes i).pid i (selectedFate i s).2) :=
        handled.trans (.exitPrepared hi (handled.pid_eq i))
      have later : ∀ j, Doomed (exitPrepared (s.processes i).pid i (selectedFate i s).2) j →
          X j := by
        rintro j ⟨⟨hlive, hstate⟩, hj⟩
        rw [left.pid_eq j] at hlive
        rw [exitPrepared_state, selectedFate_state] at hstate
        by_cases hji : j = i
        · rw [hji]
          exact hi
        · rw [if_neg hji, if_neg hji] at hstate
          exact doomed j ⟨⟨hlive, hstate⟩, left.fatalPending hj⟩
      have wf' := (wf.evolves (evolves_selectedFate i s)).evolves
        (evolves_exitPrepared (s.processes i).pid i _)
      exact (left.trans (ih less hless wf' hrun later)).trans (.switchToProcess _ _)

/-! ### Steps -/

theorem exitProcess_moves {X : Slot → Prop} {fuel pid code : Nat} {s s' : State}
    (wf : WellFormed s) (h : exitProcess fuel pid code s = some s')
    (may : ∀ j, getProcess pid s = some j ∨
      (∃ u, scheduling (.exitProcess pid code) s = some u ∧ Doomed u j) → X j) :
    Moves X s s' := by
  rcases exitProcess_cases wf h with ⟨-, rfl⟩ | ⟨i, less, hfind, -, hrun⟩
  · exact .refl X _
  · have left : Moves X s (exitPrepared pid i s) :=
      .exitPrepared (may i (Or.inl hfind)) (getProcess_pid hfind)
    refine left.trans (schedule_moves (wf.evolves (evolves_exitPrepared pid i s)) hrun ?_)
    intro j hj
    exact may j (Or.inr ⟨_, by rw [scheduling, hfind]; rfl, hj⟩)

theorem stopProcess_moves {X : Slot → Prop} {fuel pid : Nat} {s s' : State}
    (wf : WellFormed s) (h : stopProcess fuel pid s = some s')
    (may : ∀ j, (∃ u, scheduling (.stopProcess pid) s = some u ∧ Doomed u j) → X j) :
    Moves X s s' := by
  rcases stopProcess_cases h with ⟨-, rfl⟩ | ⟨i, less, hfind, -, hrun⟩
  · exact .refl X _
  · have stopped : Moves X s (s.setState i .stopped) := .setState s i (by simp) (by simp)
    refine stopped.trans (schedule_moves (wf.evolves (evolves_setState s i _)) hrun ?_)
    intro j hj
    exact may j ⟨_, by rw [scheduling, hfind]; rfl, hj⟩

/-- A signal that `signal_send` makes pending. -/
def Queued (signum : Int) : Prop :=
  (0 < signum ∧ signum < MAX_SIGNALS) ∧ signum ≠ SIGKILL ∧ signum ≠ SIGSTOP ∧ signum ≠ SIGCONT

/-- A signal that `signal_send` does not act on at once. -/
theorem Step.signalSend_queued {s s' : State} {i : Slot} {signum : Int}
    (step : Step s (.signalSend i signum) s') (queued : Queued signum) :
    s' = (signalAddPending i signum s).2 := by
  obtain ⟨⟨hpos, hmax⟩, hkill, hstop, hcont⟩ := queued
  cases step with
  | signalSend h =>
      rcases signalSend_cases h with ⟨hrange, -⟩ | ⟨-, hsig, -⟩ | ⟨-, hsig, -⟩ | ⟨hsig, -⟩ |
        ⟨-, rfl⟩
      · omega
      · exact absurd hsig hkill
      · exact absurd hsig hstop
      · exact absurd hsig hcont
      · rfl

/-- The steps other than sending a signal that becomes pending, and blocking. -/
theorem Step.moves {X : Slot → Prop} {s s' : State} {op : Op} (wf : WellFormed s)
    (step : Step s op s') (may : ∀ j, MayExit op s j → X j)
    (hsend : ∀ i signum, op = .signalSend i signum → ¬ Queued signum)
    (hblock : ∀ pid, op ≠ .blockProcess pid) : Moves X s s' := by
  cases step with
  | @signalSend fuel i signum _ out h =>
      rcases signalSend_cases h with ⟨-, rfl⟩ | ⟨less, hkill, hexit⟩ | ⟨less, hstop, hstopped⟩ |
        ⟨-, rfl | rfl⟩ | ⟨queued, -⟩
      · exact .refl X _
      · refine exitProcess_moves wf hexit fun j hj => may j ?_
        dsimp only [MayExit, leaving, entering]
        rw [if_pos hkill, if_pos hkill]
        exact hj
      · refine stopProcess_moves wf hstopped fun j hj => may j (Or.inr ?_)
        have hkill : signum ≠ SIGKILL := by
          rw [hstop]
          decide
        dsimp only [entering]
        rw [if_neg hkill, if_pos hstop]
        exact hj
      · exact .continueProcess _ s
      · exact .refl X _
      · exact absurd queued (hsend i signum rfl)
  | @signalHandlePending fuel i _ out h =>
      have scanned : Moves X s (pendingFate i s).2 := .pendingFate i s
      rcases signalHandlePending_cases h with ⟨-, hout⟩ | ⟨signum, less, hfate, -, hexit⟩
      · rw [hout]
        exact scanned
      · rw [scanned.pid_eq i] at hexit
        have wf' := wf.evolves (evolves_pendingFate i s)
        refine scanned.trans (exitProcess_moves wf' hexit fun j hj => may j ?_)
        have hscan : pendingFate i s = (.terminate signum, (pendingFate i s).2) :=
          Prod.ext hfate rfl
        rcases hj with hfind | ⟨u, hu, hdoomed⟩
        · rw [getProcess_congr scanned.pid_eq] at hfind
          refine Or.inl ?_
          simp only [leaving, hfate]
          exact hfind
        · refine Or.inr ⟨u, ?_, hdoomed⟩
          dsimp only [entering]
          rw [hscan]
          exact hu
  | schedule h =>
      exact schedule_moves wf h fun j hj => may j (Or.inr ⟨s, rfl, hj⟩)
  | exitProcess h => exact exitProcess_moves wf h may
  | stopProcess h => exact stopProcess_moves wf h fun j hj => may j (Or.inr hj)
  | continueProcess => exact .continueProcess _ s
  | blockProcess => exact absurd rfl (hblock _)
  | @unblockProcess pid _ =>
      rcases unblockProcess_cases pid s with hout | ⟨i, -, -, hout⟩
      · rw [hout]
        exact .refl X s
      · rw [hout]
        exact .setState s _ (by simp) (by simp)
  | @sleepProcess fuel pid ms _ _ h =>
      rcases sleepProcess_cases h with ⟨-, rfl⟩ | ⟨i, hfind, hrun⟩
      · exact .refl X _
      · have asleep : Moves X s (fallAsleep i ms s) :=
          .of_modify rfl (Or.inr ⟨by simp, by simp⟩) rfl fun _ h => h
        have wf' : WellFormed (fallAsleep i ms s) := wf.evolves (evolves_modify rfl rfl)
        refine asleep.trans (schedule_moves wf' hrun fun j hj => may j (Or.inr ?_))
        exact ⟨_, by simp only [entering, scheduling, hfind, Option.map_some], hj⟩
  | timerHandler h =>
      have ticked : Moves X s (timerTick s) := .timerTick s
      rcases (timerHandler_cases h).2 with ⟨hdue, hrun⟩ | ⟨-, hout⟩
      · have hentering : entering .timerHandler s = some (timerTick s) := by
          simp only [entering, scheduling, if_pos hdue]
        have wf' := wf.evolves (evolves_timerTick s)
        exact ticked.trans (schedule_moves wf' hrun fun j hj => may j (Or.inr ⟨_, hentering, hj⟩))
      · rw [hout]
        exact ticked

end Curnel.Process
