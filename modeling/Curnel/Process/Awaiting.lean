/-
Who is still blocked when what it waits for has happened.

`sys_wait`, `wait_for_process_group` and `sys_sigsuspend` block their caller and leave it
to others to make it ready again, but neither `exit_process` nor `signal_send` ever
unblocks a process. `Sound` says that nobody is blocked in vain, and `Attends`, of a step
and the state before it, that the step does nothing a blocked process waits for.
-/

import Curnel.Process.Exits
import Curnel.Process.Fork
import Curnel.Process.Masks
import Curnel.Process.Wait

namespace Curnel.Process

open Lib Word

/-! ### The code -/

/-- The test on slot `i` in `wait_for_process_group`. -/
def Active (pgid parentPid : Nat) (s : State) (i : Slot) : Prop :=
  (s.processes i).pid ≠ 0 ∧ (s.processes i).processGroup = pgid ∧
    (s.processes i).parentPid = parentPid ∧ (s.processes i).state ≠ .zombie

instance (pgid parentPid : Nat) (s : State) (i : Slot) : Decidable (Active pgid parentPid s i) :=
  inferInstanceAs (Decidable (_ ∧ _))

/-- What a `wait_for_process_group` leaves behind. `blocks` is as for `sys_wait`. -/
structure GroupWaited where
  result : Int
  blocks : Bool
  state : State

def waitForProcessGroup (fuel pgid : Nat) (s : State) : Option GroupWaited :=
  match getCurrentProcess s with
  | none => some ⟨-1, false, s⟩
  | some current =>
      let activeProcesses := (List.finRange MAX_PROCESSES).countP fun i =>
        Active pgid (s.processes current).pid s i
      if activeProcesses = 0 then some ⟨0, false, s⟩
      else (schedule fuel (s.setState current .blocked)).map fun t => ⟨0, true, t⟩

/-! ### The system -/

/-- What a blocked call needs when it goes on. -/
inductive Wait where
  | child
  | group (pgid : Nat)
  | signal (oldMask : SigSet)

/-- The process table, and the calls that are blocked. -/
structure Awaiting where
  table : Table
  waiting : List (Slot × Wait)

inductive AwaitOp where
  | table (op : TableOp)
  | signals (op : SignalOp)
  | sysSetpgid (pid pgid : Nat)
  | sysWait (written : Bool)
  | waitForProcessGroup (pgid : Nat) (result : Int) (blocks : Bool)
  | sysSigsuspend (mask : SigSet)
  | resume (w : Wait)

/-- The operations that set an action or a mask. -/
def Sets : SignalOp → Prop
  | .call _ => False
  | .sysSigsuspend _ => False
  | .resume _ => False
  | .spawn _ _ => False
  | _ => True

/-- The current process is not inside one of the three calls. -/
def Awaiting.Free (y : Awaiting) : Prop :=
  ∀ x ∈ y.waiting, x.1 ≠ y.table.kernel.currentProcessIndex

/-- The end of a call that was blocked. -/
def goOn (current : Slot) (s : State) : Wait → State
  | .signal oldMask => sigsuspendResume current oldMask s
  | _ => s

/-- A process that is inside one of the calls makes no other. -/
inductive AwaitStep : Awaiting → AwaitOp → Awaiting → Prop where
  | table {t t' : Table} {w : List (Slot × Wait)} {op : TableOp} :
      TableStep t op t' → AwaitStep ⟨t, w⟩ (.table op) ⟨t', w⟩
  | signals {t : Table} {s : State} {w : List (Slot × Wait)} {op : SignalOp} :
      Awaiting.Free ⟨t, w⟩ → Sets op → SignalStep ⟨t.kernel, []⟩ op ⟨s, []⟩ →
        AwaitStep ⟨t, w⟩ (.signals op) ⟨{ t with kernel := s }, w⟩
  | sysSetpgid {t : Table} {w : List (Slot × Wait)} {pid pgid : Nat} :
      Awaiting.Free ⟨t, w⟩ → AwaitStep ⟨t, w⟩ (.sysSetpgid pid pgid)
        ⟨{ t with kernel := (sysSetpgid pid pgid t.kernel).2 }, w⟩
  | sysWait {fuel : Nat} {t : Table} {w : List (Slot × Wait)} {written : Bool} {out : Waited} :
      Awaiting.Free ⟨t, w⟩ → sysWait fuel written t.kernel = some out →
        AwaitStep ⟨t, w⟩ (.sysWait written) ⟨{ t with kernel := out.state },
          if out.blocks then (t.kernel.currentProcessIndex, .child) :: w else w⟩
  | waitForProcessGroup {fuel : Nat} {t : Table} {w : List (Slot × Wait)} {pgid : Nat}
      {out : GroupWaited} :
      Awaiting.Free ⟨t, w⟩ → waitForProcessGroup fuel pgid t.kernel = some out →
        AwaitStep ⟨t, w⟩ (.waitForProcessGroup pgid out.result out.blocks)
          ⟨{ t with kernel := out.state },
            if out.blocks then (t.kernel.currentProcessIndex, .group pgid) :: w else w⟩
  | sysSigsuspend {fuel : Nat} {t : Table} {s : State} {w : List (Slot × Wait)} {mask : SigSet}
      {waits : Option (Slot × SigSet)} :
      Awaiting.Free ⟨t, w⟩ → sysSigsuspend fuel mask t.kernel = some (waits, s) →
        AwaitStep ⟨t, w⟩ (.sysSigsuspend mask) ⟨{ t with kernel := s },
          (waits.map fun x => (x.1, Wait.signal x.2)).toList ++ w⟩
  | resume {t : Table} {current : Slot} {wait : Wait} {before after : List (Slot × Wait)} :
      getCurrentProcess t.kernel = some current →
        AwaitStep ⟨t, before ++ (current, wait) :: after⟩ (.resume wait)
          ⟨{ t with kernel := goOn current t.kernel wait }, before ++ after⟩

/-! ### What the waiting processes are owed -/

/-- What the process in slot `i` waits for has not happened. -/
def Kept (s : State) (i : Slot) : Wait → Prop
  | .child => ∀ j, IsChild s i j → (s.processes j).state ≠ .zombie
  | .group pgid => ∃ j, Active pgid (s.processes i).pid s j
  | .signal _ => ∀ n, SigMem (s.processes i).pendingSignals n →
      SigMem (s.processes i).blockedSignals n

/-- No process is blocked in one of the calls when what it waits for has happened. -/
def Sound (s : State) (w : List (Slot × Wait)) : Prop :=
  ∀ x ∈ w, (s.processes x.1).state = .blocked → Kept s x.1 x.2

/-- The children that `current` has in a group are zombies. -/
def GroupDone (s : State) (current : Slot) (pgid : Nat) : Prop :=
  ∀ j, IsChild s current j → (s.processes j).processGroup = pgid → (s.processes j).state = .zombie

/-- What the process in slot `i` waits for does not happen when processes in `X` exit. -/
def Survives (X : Slot → Prop) (s : State) (i : Slot) : Wait → Prop
  | .child => ∀ j, (s.processes j).pid ≠ 0 → (s.processes j).state = .zombie ∨ X j →
      ¬ Adopts X s i j
  | .group pgid => ∃ j, Active pgid (s.processes i).pid s j ∧ ¬ X j
  | .signal _ => SigMem (s.processes i).blockedSignals SIGCHLD ∨ ∀ x, X x → ¬ Adopts X s i x

def AllSurvive (X : Slot → Prop) (s : State) (w : List (Slot × Wait)) : Prop :=
  ∀ x ∈ w, (s.processes x.1).state = .blocked → Survives X s x.1 x.2

/-- No exit that a call can bring about is one that a blocked process waits for, no signal is
sent to a process suspended for it, and nobody is blocked again in vain. -/
structure Spared (op : Op) (s : State) (w : List (Slot × Wait)) : Prop where
  exits : AllSurvive (MayExit op s) s w
  sends : ∀ i signum old, op = .signalSend i signum → Queued signum → (i, .signal old) ∈ w →
    (s.processes i).state = .blocked → SigMem (s.processes i).blockedSignals signum.toNat
  blocks : ∀ pid i wait, op = .blockProcess pid → getProcess pid s = some i → (i, wait) ∈ w →
    Kept s i wait

/-- The PID that `sys_setpgid` means by `pid`. -/
def setpgidTarget (pid : Nat) (s : State) : Nat :=
  if pid = 0 then (s.processes s.currentProcessIndex).pid else pid

def Attends (y : Awaiting) : AwaitOp → Prop
  | .table (.call op) => Spared op y.table.kernel y.waiting
  | .table _ => True
  | .signals _ => True
  | .sysSetpgid pid pgid =>
      -- of the group that a process waits for, an active child stays
      let s := y.table.kernel
      let target := setpgidTarget pid s
      ∀ i g, (i, .group g) ∈ y.waiting → (s.processes i).state = .blocked →
        ∃ j, Active (s.processes j).processGroup (s.processes i).pid s j ∧
          (if (s.processes j).pid = target then (if pgid = 0 then target else pgid)
            else (s.processes j).processGroup) = g
  | .sysWait _ =>
      let s := y.table.kernel
      ∀ current, getCurrentProcess s = some current →
        zombieChild (s.processes current).pid s = none →
        let u := blockProcess (s.processes current).pid s
        Kept s current .child ∧ AllSurvive (Doomed u) u ((current, .child) :: y.waiting)
  | .waitForProcessGroup pgid _ _ =>
      let s := y.table.kernel
      ∀ current, getCurrentProcess s = some current →
        (∃ j, Active pgid (s.processes current).pid s j) →
        let u := s.setState current .blocked
        AllSurvive (Doomed u) u ((current, .group pgid) :: y.waiting)
  | .sysSigsuspend mask =>
      let s := y.table.kernel
      ∀ current, getCurrentProcess s = some current →
        let u := suspendPrepared current mask s
        let wait := Wait.signal (s.processes current).blockedSignals
        Kept u current wait ∧ AllSurvive (Doomed u) u ((current, wait) :: y.waiting)
  | .resume wait =>
      ∀ current pgid, getCurrentProcess y.table.kernel = some current → wait = .group pgid →
        GroupDone y.table.kernel current pgid

/-! ### What keeps it so -/

section Kept

variable {s s' : State} {i : Slot} {wait : Wait}

/-- When those who may exit have gone, a process that is still blocked waits for something. -/
theorem Kept.moves {X : Slot → Prop} (kept : Kept s i wait) (moves : Moves X s s')
    (unique : UniquePids s) (hlive : (s.processes i).pid ≠ 0)
    (hblocked : (s'.processes i).state = .blocked) (survives : Survives X s i wait) :
    Kept s' i wait := by
  cases wait with
  | child =>
      rintro j ⟨hj, hparent⟩ hzombie
      rw [moves.pid_eq j] at hj
      rw [moves.pid_eq i] at hparent
      apply survives j hj (moves.zombie j hzombie)
      rcases moves.parent j with hsame | ⟨hone, x, hx, hpid, -⟩
      · exact Or.inl (hsame.symm.trans hparent)
      · exact Or.inr ⟨hparent.symm.trans hone, x, hx, hpid⟩
  | group pgid =>
      obtain ⟨j, ⟨hj, hgroup, hparent, hactive⟩, hstays⟩ := survives
      refine ⟨j, ?_, ?_, ?_, ?_⟩
      · rw [moves.pid_eq j]
        exact hj
      · rw [moves.processGroup_eq j]
        exact hgroup
      · rw [moves.pid_eq i]
        rcases moves.parent j with hsame | ⟨-, x, -, hpid, hleft⟩
        · exact hsame.trans hparent
        · -- the parent itself has left, and is blocked no more
          have hx : i = x := unique i x hlive (hpid.trans hparent).symm
          rw [← hx] at hleft
          exact absurd hblocked hleft
      · intro hzombie
        exact (moves.zombie j hzombie).elim hactive hstays
  | signal old =>
      intro n hmem
      rw [moves.blockedSignals_eq i]
      rcases moves.pending i n hmem with hbefore | ⟨hn, hfree, x, hx, hadopts⟩
      · exact kept n hbefore
      · exact survives.elim (fun hmask => absurd hmask hfree) fun hnone => absurd hadopts (hnone x hx)

/-- A change of one process that makes no zombie of it. -/
theorem Kept.modify (kept : Kept s i wait) {k : Slot} {f : Process → Process}
    (hpid : (f (s.processes k)).pid = (s.processes k).pid)
    (hparent : (f (s.processes k)).parentPid = (s.processes k).parentPid)
    (hgroup : ∀ pgid, wait = .group pgid →
      (f (s.processes k)).processGroup = (s.processes k).processGroup)
    (hzombie : (f (s.processes k)).state = .zombie → (s.processes k).state = .zombie)
    (hsignals : ∀ old, wait = .signal old → i = k →
      (f (s.processes k)).pendingSignals = (s.processes k).pendingSignals ∧
        (f (s.processes k)).blockedSignals = (s.processes k).blockedSignals) :
    Kept (s.modify k f) i wait := by
  have hpids := modify_congr Process.pid hpid
  have hparents := modify_congr Process.parentPid hparent
  have hzombies : ∀ j, ((s.modify k f).processes j).state = .zombie →
      (s.processes j).state = .zombie := by
    intro j hj
    by_cases hjk : j = k
    · subst hjk
      rw [modify_same] at hj
      exact hzombie hj
    · rwa [modify_other f hjk] at hj
  cases wait with
  | child =>
      rintro j ⟨hj, hchild⟩ hstate
      rw [hpids j] at hj
      rw [hparents j, hpids i] at hchild
      exact kept j ⟨hj, hchild⟩ (hzombies j hstate)
  | group pgid =>
      have hgroups := modify_congr Process.processGroup (hgroup pgid rfl)
      obtain ⟨j, hj, hg, hchild, hactive⟩ := kept
      refine ⟨j, ?_, ?_, ?_, fun hstate => hactive (hzombies j hstate)⟩
      · rw [hpids j]
        exact hj
      · rw [hgroups j]
        exact hg
      · rw [hparents j, hpids i]
        exact hchild
  | signal old =>
      intro n hmem
      by_cases hik : i = k
      · obtain ⟨hpending, hmask⟩ := hsignals old rfl hik
        subst hik
        rw [modify_same, hpending] at hmem
        rw [modify_same, hmask]
        exact kept n hmem
      · rw [modify_other f hik] at hmem ⊢
        exact kept n hmem

/-- A new process is nobody's zombie. -/
theorem Kept.filled (kept : Kept s i wait) (hlive : (s.processes i).pid ≠ 0) {k : Slot}
    {f : Process → Process} (hfree : (s.processes k).pid = 0)
    (hstate : (f (s.processes k)).state = .ready) : Kept (s.modify k f) i wait := by
  have other : ∀ j, (s.processes j).pid ≠ 0 → (s.modify k f).processes j = s.processes j := by
    intro j hj
    apply modify_other
    rintro rfl
    exact hj hfree
  cases wait with
  | child =>
      rintro j ⟨hj, hchild⟩ hzombie
      by_cases hjk : j = k
      · subst hjk
        rw [modify_same, hstate] at hzombie
        cases hzombie
      · rw [modify_other f hjk] at hj hchild hzombie
        rw [other i hlive] at hchild
        exact kept j ⟨hj, hchild⟩ hzombie
  | group pgid =>
      obtain ⟨j, hactive⟩ := kept
      refine ⟨j, ?_⟩
      unfold Active
      rw [other i hlive, other j hactive.1]
      exact hactive
  | signal old =>
      intro n hmem
      rw [other i hlive] at hmem ⊢
      exact kept n hmem

end Kept

/-! ### The invariant -/

/-- Those who wait are there, and each waits once. -/
structure AwaitInv (y : Awaiting) : Prop where
  numbered : Numbered y.table
  live : ∀ x ∈ y.waiting, (y.table.kernel.processes x.1).pid ≠ 0
  once : (y.waiting.map Prod.fst).Nodup

theorem AwaitInv.unique {y : Awaiting} (inv : AwaitInv y) : UniquePids y.table.kernel :=
  inv.numbered.wellFormed.uniquePids

theorem AwaitInv.of_pids {t t' : Table} {w : List (Slot × Wait)} (inv : AwaitInv ⟨t, w⟩)
    (numbered : Numbered t') (hpid : ∀ i, (t.kernel.processes i).pid ≠ 0 →
      (t'.kernel.processes i).pid ≠ 0) : AwaitInv ⟨t', w⟩ :=
  ⟨numbered, fun x hx => hpid x.1 (inv.live x hx), inv.once⟩

theorem AwaitInv.evolves {t : Table} {s : State} {w : List (Slot × Wait)} (inv : AwaitInv ⟨t, w⟩)
    (h : Evolves t.kernel s) : AwaitInv ⟨{ t with kernel := s }, w⟩ :=
  inv.of_pids (inv.numbered.evolves h) fun i hi => by rwa [h.pid_eq i]

theorem AwaitInv.modify {t : Table} {w : List (Slot × Wait)} (inv : AwaitInv ⟨t, w⟩) {k : Slot}
    {f : Process → Process} (hpid : (f (t.kernel.processes k)).pid = (t.kernel.processes k).pid)
    (hexit : (f (t.kernel.processes k)).exitSignal = (t.kernel.processes k).exitSignal) :
    AwaitInv ⟨{ t with kernel := t.kernel.modify k f }, w⟩ := by
  refine inv.of_pids ⟨inv.numbered.pos, inv.numbered.le, fun i => ?_, fun i => ?_⟩ fun i hi => ?_
  · exact (modify_congr Process.pid hpid i).trans (inv.numbered.pid i)
  · exact (modify_congr Process.exitSignal hexit i).trans (inv.numbered.exitSignal i)
  · exact (modify_congr Process.pid hpid i).trans_ne hi

/-- The caller begins to wait. -/
theorem AwaitInv.waits {t : Table} {w : List (Slot × Wait)} {current : Slot} (inv : AwaitInv ⟨t, w⟩)
    (free : Awaiting.Free ⟨t, w⟩) (hcurrent : getCurrentProcess t.kernel = some current)
    (wait : Wait) : AwaitInv ⟨t, (current, wait) :: w⟩ := by
  have hindex := getCurrentProcess_index hcurrent
  refine ⟨inv.numbered, ?_, ?_⟩
  · intro x hx
    rcases List.mem_cons.mp hx with rfl | hx
    · exact getCurrentProcess_live hcurrent
    · exact inv.live x hx
  · rw [List.map_cons, List.nodup_cons]
    refine ⟨?_, inv.once⟩
    intro hmem
    obtain ⟨x, hx, hslot⟩ := List.mem_map.mp hmem
    exact free x hx (hslot.trans hindex)

/-! ### Steps that change one process -/

/-- Setting a mask or an action changes nothing else, and of the current process only. -/
theorem sets_cases {s s' : State} {w w' : List (Slot × SigSet)} {op : SignalOp} (sets : Sets op)
    (step : SignalStep ⟨s, w⟩ op ⟨s', w'⟩) :
    s' = s ∨ ∃ i f, getCurrentProcess s = some i ∧ s' = s.modify i f ∧
      ∀ p, ∃ blocked actions, f p = { p with blockedSignals := blocked, signalActions := actions } := by
  have masked : ∀ f, (changeMask f s).2 = s ∨ ∃ i g, getCurrentProcess s = some i ∧
      (changeMask f s).2 = s.modify i g ∧ ∀ p, ∃ blocked actions,
        g p = { p with blockedSignals := blocked, signalActions := actions } := by
    intro f
    rcases changeMask_cases f s with hsame | ⟨i, hcurrent, hrun⟩
    · exact Or.inl hsame
    · exact Or.inr ⟨i, _, hcurrent, hrun, fun p => ⟨f p.blockedSignals, p.signalActions, rfl⟩⟩
  have acted : ∀ n f, (changeAction n f s).2 = s ∨ ∃ i g, getCurrentProcess s = some i ∧
      (changeAction n f s).2 = s.modify i g ∧ ∀ p, ∃ blocked actions,
        g p = { p with blockedSignals := blocked, signalActions := actions } := by
    intro n f
    rcases changeAction_cases n f s with hsame | ⟨i, m, action, hcurrent, -, -, hrun⟩
    · exact Or.inl hsame
    · exact Or.inr ⟨i, _, hcurrent, hrun, fun p => ⟨p.blockedSignals, _, rfl⟩⟩
  cases step with
  | call => exact absurd sets id
  | sysSigsuspend => exact absurd sets id
  | spawn => exact absurd sets id
  | resume => exact absurd sets id
  | signalSetHandler =>
      rw [signalSetHandler_state]
      exact acted _ _
  | signalSetAction =>
      rw [signalSetAction_state]
      exact acted _ _
  | signalBlock =>
      rw [signalBlock_state]
      exact masked _
  | signalUnblock =>
      rw [signalUnblock_state]
      exact masked _
  | signalSetMask =>
      rw [signalSetMask_state]
      exact masked _
  | @signalProcMask _ _ how set =>
      obtain ⟨f, -, hrun⟩ := signalProcMask_eq how set s
      rw [hrun]
      exact masked f

/-- Whether or not it has a target, `sys_setpgid` changes groups only. -/
theorem sysSetpgid_cases (pid pgid : Nat) (s : State) :
    (sysSetpgid pid pgid s).2 = s ∨ ∃ i, getProcess (setpgidTarget pid s) s = some i ∧
      (sysSetpgid pid pgid s).2 = s.modify i fun p =>
        { p with processGroup := if pgid = 0 then setpgidTarget pid s else pgid } := by
  have set : ∀ target, (setProcessGroup target pgid s).2 = s ∨
      ∃ i, getProcess target s = some i ∧ (setProcessGroup target pgid s).2
        = s.modify i fun p => { p with processGroup := if pgid = 0 then target else pgid } := by
    intro target
    unfold setProcessGroup
    cases hfind : getProcess target s with
    | none => exact Or.inl rfl
    | some i => exact Or.inr ⟨i, rfl, rfl⟩
  unfold sysSetpgid setpgidTarget
  by_cases hpid : pid = 0
  · rw [if_pos hpid, if_pos hpid]
    cases hcurrent : getCurrentProcess s with
    | none => exact Or.inl rfl
    | some current =>
        rw [← getCurrentProcess_index hcurrent]
        exact set _
  · rw [if_neg hpid, if_neg hpid]
    exact set pid

/-! ### Steps that block their caller -/

/-- A process has no active child in the group, or blocks. -/
theorem waitForProcessGroup_cases {fuel pgid : Nat} {s : State} {out : GroupWaited}
    (h : waitForProcessGroup fuel pgid s = some out) :
    getCurrentProcess s = none ∧ out = ⟨-1, false, s⟩ ∨
      ∃ current, getCurrentProcess s = some current ∧
        ((∀ j, ¬ Active pgid (s.processes current).pid s j) ∧ out = ⟨0, false, s⟩ ∨
          ∃ t, (∃ j, Active pgid (s.processes current).pid s j) ∧
            schedule fuel (s.setState current .blocked) = some t ∧ out = ⟨0, true, t⟩) := by
  unfold waitForProcessGroup at h
  cases hcurrent : getCurrentProcess s with
  | none =>
      rw [hcurrent] at h
      exact Or.inl ⟨rfl, (Option.some.inj h).symm⟩
  | some current =>
      rw [hcurrent] at h
      refine Or.inr ⟨current, rfl, ?_⟩
      dsimp only at h
      split at h
      next hzero =>
        rw [List.countP_eq_zero] at hzero
        refine Or.inl ⟨fun j hj => ?_, (Option.some.inj h).symm⟩
        exact hzero j (List.mem_finRange j) (decide_eq_true hj)
      next hpos =>
        obtain ⟨t, hrun, hout⟩ := Option.map_eq_some_iff.mp h
        obtain ⟨j, -, hj⟩ := List.countP_pos_iff.mp (Nat.pos_of_ne_zero hpos)
        exact Or.inr ⟨t, ⟨j, of_decide_eq_true hj⟩, hrun, hout.symm⟩

theorem blockProcess_current {s : State} (unique : UniquePids s) {current : Slot}
    (hlive : (s.processes current).pid ≠ 0) :
    blockProcess (s.processes current).pid s = s.setState current .blocked := by
  unfold blockProcess
  rw [getProcess_of_pid unique hlive]

theorem suspendPrepared_eq {s : State} (unique : UniquePids s) {current : Slot}
    (hlive : (s.processes current).pid ≠ 0) (mask : SigSet) :
    suspendPrepared current mask s
      = s.modify current fun p => { p with blockedSignals := maskable mask, state := .blocked } := by
  unfold suspendPrepared
  have hpid := fun i => modify_congr (i := current) (s := s) Process.pid
    (f := fun p => { p with blockedSignals := maskable mask }) rfl i
  have masked : UniquePids
      (s.modify current fun p => { p with blockedSignals := maskable mask }) := by
    intro i j hi hij
    rw [hpid i] at hi hij
    rw [hpid j] at hij
    exact unique i j hi hij
  have hmasked := hpid current
  rw [← hmasked]
  rw [blockProcess_current masked (by rwa [hmasked]), State.setState, modify_modify]

/-- What a call has written to the process that it blocks. -/
structure Blocks (f : Process → Process) : Prop where
  pid : ∀ p, (f p).pid = p.pid
  parentPid : ∀ p, (f p).parentPid = p.parentPid
  processGroup : ∀ p, (f p).processGroup = p.processGroup
  exitSignal : ∀ p, (f p).exitSignal = p.exitSignal
  state : ∀ p, (f p).state = .blocked

section Sleeps

variable {t : Table} {s : State} {w : List (Slot × Wait)} {current : Slot} {wait : Wait}
  {f : Process → Process} {fuel : Nat} (inv : AwaitInv ⟨t, w⟩) (free : Awaiting.Free ⟨t, w⟩)
  (hcurrent : getCurrentProcess t.kernel = some current) (blocks : Blocks f)
  (hrun : schedule fuel (t.kernel.modify current f) = some s)
include inv free hcurrent blocks hrun

theorem AwaitInv.sleeps : AwaitInv ⟨{ t with kernel := s }, (current, wait) :: w⟩ := by
  have blocked := (inv.waits free hcurrent wait).modify (k := current) (blocks.pid _)
    (blocks.exitSignal _)
  exact blocked.evolves ((evolves_calls fuel).schedule hrun)

theorem Sound.sleeps (sound : Sound t.kernel w) (kept : Kept (t.kernel.modify current f) current wait)
    (survive : AllSurvive (Doomed (t.kernel.modify current f)) (t.kernel.modify current f)
      ((current, wait) :: w)) : Sound s ((current, wait) :: w) := by
  have hpid := modify_congr (s := t.kernel) Process.pid (blocks.pid (t.kernel.processes current))
  have wf : WellFormed (t.kernel.modify current f) := by
    refine ⟨fun i j hi hij => ?_, fun i => ?_⟩
    · rw [hpid i] at hi hij
      rw [hpid j] at hij
      exact inv.unique i j hi hij
    · exact (modify_congr Process.exitSignal (blocks.exitSignal _) i).trans
        (inv.numbered.exitSignal i)
  have moves := schedule_moves wf hrun fun _ h => h
  intro x hx hblocked
  have hbefore := moves.blocked x.1 hblocked
  have hlive : ((t.kernel.modify current f).processes x.1).pid ≠ 0 := by
    rw [hpid x.1]
    exact (inv.waits free hcurrent wait).live x hx
  have keptBefore : Kept (t.kernel.modify current f) x.1 x.2 := by
    rcases List.mem_cons.mp hx with rfl | hx
    · exact kept
    · have hother : x.1 ≠ current := fun heq =>
        free x hx (heq.trans (getCurrentProcess_index hcurrent))
      rw [modify_other f hother] at hbefore
      refine (sound x hx hbefore).modify (blocks.pid _) (blocks.parentPid _)
        (fun _ _ => blocks.processGroup _) (fun hzombie => ?_) fun _ _ heq => absurd heq hother
      rw [blocks.state] at hzombie
      cases hzombie
  exact keptBefore.moves moves wf.uniquePids hlive hblocked (survive x hx hbefore)

end Sleeps

/-! ### Steps -/

section Sound

variable {s : State} {w : List (Slot × Wait)}

/-- A change of one process that keeps its state and, if it waits, its signals. -/
theorem Sound.modify (sound : Sound s w) {k : Slot} {f : Process → Process}
    (hpid : (f (s.processes k)).pid = (s.processes k).pid)
    (hparent : (f (s.processes k)).parentPid = (s.processes k).parentPid)
    (hgroup : (f (s.processes k)).processGroup = (s.processes k).processGroup)
    (hstate : (f (s.processes k)).state = (s.processes k).state)
    (hsignals : ∀ x ∈ w, ∀ old, x.2 = .signal old → x.1 = k →
      (f (s.processes k)).pendingSignals = (s.processes k).pendingSignals ∧
        (f (s.processes k)).blockedSignals = (s.processes k).blockedSignals) :
    Sound (s.modify k f) w := by
  intro x hx hblocked
  rw [modify_congr Process.state hstate x.1] at hblocked
  exact (sound x hx hblocked).modify hpid hparent (fun _ _ => hgroup)
    (fun h => hstate.symm.trans h) (hsignals x hx)

/-- A free slot is filled. -/
theorem Sound.filled (sound : Sound s w) (hlive : ∀ x ∈ w, (s.processes x.1).pid ≠ 0) {k : Slot}
    {f : Process → Process} (hfree : (s.processes k).pid = 0)
    (hstate : (f (s.processes k)).state = .ready) : Sound (s.modify k f) w := by
  intro x hx hblocked
  have hother : x.1 ≠ k := by
    intro heq
    exact hlive x hx (heq ▸ hfree)
  rw [modify_other f hother] at hblocked
  exact (sound x hx hblocked).filled (hlive x hx) hfree hstate

/-- A call of the process module. -/
theorem Sound.call (sound : Sound s w) (wf : WellFormed s)
    (hlive : ∀ x ∈ w, (s.processes x.1).pid ≠ 0) {s' : State} {op : Op} (step : Step s op s')
    (spared : Spared op s w) : Sound s' w := by
  by_cases hblock : ∃ pid, op = .blockProcess pid
  · obtain ⟨pid, rfl⟩ := hblock
    cases step
    unfold Process.blockProcess
    cases hfind : getProcess pid s with
    | none => exact sound
    | some k =>
        intro x hx hblocked
        have kept : Kept s x.1 x.2 := by
          by_cases hxk : x.1 = k
          · exact spared.blocks pid x.1 x.2 rfl (by rw [hfind, hxk]) hx
          · dsimp only [State.setState] at hblocked
            rw [modify_other _ hxk] at hblocked
            exact sound x hx hblocked
        exact kept.modify rfl rfl (fun _ _ => rfl) (fun h => by cases h) fun _ _ _ => ⟨rfl, rfl⟩
  by_cases hsend : ∃ i signum, op = .signalSend i signum ∧ Queued signum
  · obtain ⟨i, signum, rfl, queued⟩ := hsend
    rw [step.signalSend_queued queued]
    unfold signalAddPending
    split
    · exact sound
    split
    next hforced => exact absurd hforced (not_or.mpr ⟨queued.2.1, queued.2.2.1⟩)
    split
    next hfree =>
      dsimp only [setPending]
      intro x hx hblocked
      rw [modify_congr Process.state rfl x.1] at hblocked
      apply (sound x hx hblocked).modify rfl rfl (fun _ _ => rfl)
      · exact fun h => h
      intro old hold hxi
      -- a process suspended for the signal is not sent it
      have hmem : (i, Wait.signal old) ∈ w := by
        rw [← hold, ← hxi]
        exact hx
      exact absurd hfree (spared.sends i signum old rfl queued hmem (hxi ▸ hblocked))
    next => exact sound
  · have moves : Moves (MayExit op s) s s' := step.moves wf (fun _ h => h)
      (fun i signum hop queued => hsend ⟨i, signum, hop, queued⟩)
      fun pid hop => hblock ⟨pid, hop⟩
    intro x hx hblocked
    have hbefore := moves.blocked x.1 hblocked
    exact (sound x hx hbefore).moves moves wf.uniquePids (hlive x hx) hblocked
      (spared.exits x hx hbefore)

end Sound

theorem AwaitInv.table {t t' : Table} {w : List (Slot × Wait)} {op : TableOp}
    (inv : AwaitInv ⟨t, w⟩) (sound : Sound t.kernel w) (first : TableStep t op t')
    (attends : Attends ⟨t, w⟩ (.table op)) : AwaitInv ⟨t', w⟩ ∧ Sound t'.kernel w := by
  have later : AwaitInv ⟨t', w⟩ := inv.of_pids (first.numbered inv.numbered) fun i hi => by
    rwa [(first.keeps inv.numbered hi).1]
  refine ⟨later, ?_⟩
  cases first with
  | createProcess =>
      unfold Process.createProcess
      cases hfree : getProcess 0 t.kernel with
      | none => exact sound
      | some i => exact sound.filled inv.live (getProcess_pid hfree) rfl
  | sysFork =>
      rcases sysFork_cases inv.numbered.fresh _ with
        ⟨-, hrun⟩ | ⟨current, child, -, hfree, -, hrun⟩
      · rw [hrun]
        exact sound
      · rw [hrun]
        dsimp only [Table.forked]
        apply sound.filled inv.live (getProcess_pid hfree)
        rfl
  | call h => exact sound.call inv.numbered.wellFormed inv.live h attends

/-- Of a group that is waited for, an active child stays. -/
theorem Sound.sysSetpgid {t : Table} {w : List (Slot × Wait)} {pid pgid : Nat}
    (inv : AwaitInv ⟨t, w⟩) (sound : Sound t.kernel w)
    (attends : Attends ⟨t, w⟩ (.sysSetpgid pid pgid)) :
    AwaitInv ⟨{ t with kernel := (Process.sysSetpgid pid pgid t.kernel).2 }, w⟩ ∧
      Sound (Process.sysSetpgid pid pgid t.kernel).2 w := by
  rcases sysSetpgid_cases pid pgid t.kernel with hsame | ⟨k, hfind, hrun⟩
  · rw [hsame]
    exact ⟨inv, sound⟩
  · rw [hrun]
    refine ⟨inv.modify rfl rfl, fun x hx hblocked => ?_⟩
    rw [modify_congr Process.state rfl x.1] at hblocked
    obtain ⟨i, wait⟩ := x
    by_cases hgroup : ∃ g, wait = .group g
    · obtain ⟨g, rfl⟩ := hgroup
      obtain ⟨j, ⟨hj, -, hparent, hactive⟩, hg⟩ := attends i g hx hblocked
      refine ⟨j, ?_, ?_, ?_, ?_⟩
      · rw [modify_congr Process.pid rfl j]
        exact hj
      · by_cases hjk : j = k
        · rw [hjk] at hg ⊢
          rw [if_pos (getProcess_pid hfind)] at hg
          rw [modify_same]
          exact hg
        · have hne : (t.kernel.processes j).pid ≠ setpgidTarget pid t.kernel := by
            intro heq
            exact hjk (inv.unique j k hj (heq.trans (getProcess_pid hfind).symm))
          rw [if_neg hne] at hg
          rw [modify_other _ hjk]
          exact hg
      · rw [modify_congr Process.parentPid rfl j, modify_congr Process.pid rfl i]
        exact hparent
      · rw [modify_congr Process.state rfl j]
        exact hactive
    · apply (sound _ hx hblocked).modify rfl rfl
      · exact fun g hg => absurd ⟨g, hg⟩ hgroup
      · exact fun h => h
      · exact fun _ _ _ => ⟨rfl, rfl⟩

/-- A process that goes on is not waited with any more. -/
theorem AwaitInv.resume {t : Table} {current : Slot} {wait : Wait} {before after : List (Slot × Wait)}
    (inv : AwaitInv ⟨t, before ++ (current, wait) :: after⟩)
    (sound : Sound t.kernel (before ++ (current, wait) :: after)) :
    AwaitInv ⟨{ t with kernel := goOn current t.kernel wait }, before ++ after⟩ ∧
      Sound (goOn current t.kernel wait) (before ++ after) := by
  have hsub : ∀ x ∈ before ++ after, x ∈ before ++ (current, wait) :: after := by
    intro x hx
    rcases List.mem_append.mp hx with hx | hx
    · exact List.mem_append_left _ hx
    · exact List.mem_append_right _ (List.mem_cons_of_mem _ hx)
  have honce := inv.once
  rw [List.map_append, List.map_cons, List.nodup_middle, List.nodup_cons,
    ← List.map_append] at honce
  have gone : AwaitInv ⟨t, before ++ after⟩ :=
    ⟨inv.numbered, fun x hx => inv.live x (hsub x hx), honce.2⟩
  have hother : ∀ x ∈ before ++ after, x.1 ≠ current := by
    rintro x hx rfl
    have hmem := List.mem_map_of_mem (f := Prod.fst) hx
    exact honce.1 hmem
  have rest : Sound t.kernel (before ++ after) := fun x hx => sound x (hsub x hx)
  cases wait with
  | child => exact ⟨gone, rest⟩
  | group pgid => exact ⟨gone, rest⟩
  | signal old =>
      dsimp only [goOn, sigsuspendResume]
      refine ⟨gone.modify (k := current) rfl rfl, ?_⟩
      apply rest.modify rfl rfl rfl rfl
      intro x hx _ _ heq
      exact absurd heq (hother x hx)

theorem AwaitStep.kept {y z : Awaiting} {op : AwaitOp} (inv : AwaitInv y)
    (sound : Sound y.table.kernel y.waiting) (step : AwaitStep y op z) (attends : Attends y op) :
    AwaitInv z ∧ Sound z.table.kernel z.waiting := by
  have unique := inv.unique
  cases step with
  | table first => exact inv.table sound first attends
  | @signals t s w op free sets first =>
      rcases sets_cases sets first with rfl | ⟨i, f, hcurrent, rfl, hf⟩
      · exact ⟨inv, sound⟩
      · obtain ⟨blocked, actions, hchange⟩ := hf (t.kernel.processes i)
        refine ⟨inv.modify (by rw [hchange]) (by rw [hchange]), sound.modify (by rw [hchange])
          (by rw [hchange]) (by rw [hchange]) (by rw [hchange]) fun x hx _ _ heq => ?_⟩
        exact absurd (heq.trans (getCurrentProcess_index hcurrent)) (free x hx)
  | sysSetpgid => exact sound.sysSetpgid inv attends
  | @sysWait fuel t w written out free h =>
      rcases sysWait_cases h with
        ⟨-, rfl⟩ | ⟨current, hcurrent, ⟨i, -, rfl⟩ | ⟨s, hnone, hrun, rfl⟩⟩
      · exact ⟨inv, sound⟩
      · exact ⟨inv, sound⟩
      · obtain ⟨kept, survive⟩ := attends current hcurrent hnone
        have hblock := blockProcess_current unique (getCurrentProcess_live hcurrent)
        have blocks : Blocks fun p => { p with state := .blocked } :=
          ⟨fun _ => rfl, fun _ => rfl, fun _ => rfl, fun _ => rfl, fun _ => rfl⟩
        dsimp only at unique hblock hrun survive
        rw [hblock] at hrun survive
        rw [if_pos rfl, ← getCurrentProcess_index hcurrent]
        refine ⟨inv.sleeps free hcurrent blocks hrun,
          sound.sleeps inv free hcurrent blocks hrun ?_ survive⟩
        exact kept.modify rfl rfl (fun _ _ => rfl) (fun h => by cases h) fun _ _ _ => ⟨rfl, rfl⟩
  | @waitForProcessGroup fuel t w pgid out free h =>
      rcases waitForProcessGroup_cases h with
        ⟨-, rfl⟩ | ⟨current, hcurrent, ⟨-, rfl⟩ | ⟨s, hactive, hrun, rfl⟩⟩
      · exact ⟨inv, sound⟩
      · exact ⟨inv, sound⟩
      · have blocks : Blocks fun p => { p with state := .blocked } :=
          ⟨fun _ => rfl, fun _ => rfl, fun _ => rfl, fun _ => rfl, fun _ => rfl⟩
        have kept : Kept t.kernel current (.group pgid) := hactive
        rw [if_pos rfl, ← getCurrentProcess_index hcurrent]
        refine ⟨inv.sleeps free hcurrent blocks hrun,
          sound.sleeps inv free hcurrent blocks hrun ?_ (attends current hcurrent hactive)⟩
        exact kept.modify rfl rfl (fun _ _ => rfl) (fun h => by cases h) fun _ _ _ => ⟨rfl, rfl⟩
  | @sysSigsuspend fuel t s w mask waits free h =>
      rcases sysSigsuspend_cases h with ⟨-, hout⟩ | ⟨current, u, hcurrent, hrun, hout⟩
      · cases hout
        exact ⟨inv, sound⟩
      · cases hout
        obtain ⟨kept, survive⟩ := attends current hcurrent
        have hblock := suspendPrepared_eq unique (getCurrentProcess_live hcurrent) mask
        have blocks : Blocks fun p =>
            { p with blockedSignals := maskable mask, state := .blocked } :=
          ⟨fun _ => rfl, fun _ => rfl, fun _ => rfl, fun _ => rfl, fun _ => rfl⟩
        dsimp only at unique hblock hrun survive kept
        rw [hblock] at hrun survive kept
        exact ⟨inv.sleeps free hcurrent blocks hrun,
          sound.sleeps inv free hcurrent blocks hrun kept survive⟩
  | resume => exact inv.resume sound

/-- A `wait_for_process_group` that returns 0 leaves no active child behind. -/
theorem AwaitStep.returns {y z : Awaiting} {op : AwaitOp} (step : AwaitStep y op z)
    (attends : Attends y op) {pgid : Nat} {current : Slot}
    (hcurrent : getCurrentProcess y.table.kernel = some current)
    (hop : op = .waitForProcessGroup pgid 0 false ∨ op = .resume (.group pgid)) :
    GroupDone y.table.kernel current pgid := by
  rcases hop with hop | rfl
  · cases step with
    | table => cases hop
    | signals => cases hop
    | sysSetpgid => cases hop
    | sysWait => cases hop
    | sysSigsuspend => cases hop
    | resume => cases hop
    | @waitForProcessGroup fuel t w group out free h =>
        rw [AwaitOp.waitForProcessGroup.injEq] at hop
        obtain ⟨rfl, hresult, hblocks⟩ := hop
        rcases waitForProcessGroup_cases h with
          ⟨-, rfl⟩ | ⟨other, hother, ⟨hnone, rfl⟩ | ⟨s, -, -, rfl⟩⟩
        · cases hresult
        · rw [hcurrent] at hother
          cases hother
          intro j child hgroup
          by_contra hactive
          exact hnone j ⟨child.1, hgroup, child.2, hactive⟩
        · cases hblocks
  · exact attends current pgid hcurrent rfl

/-! ### Runs -/

/-- Process 1, and its child 2, both just created. -/
def parentAndChild : Table :=
  (createProcess [98] 0 1 0 (createProcess [97] 0 0 0 (.start true 0 100)).2).2

end Curnel.Process
