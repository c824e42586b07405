/-
What a child has of its parent, and whom a signal to the parent's group reaches.

`create_process` makes every process the leader of a group and a session of its own,
with the standard descriptors, and `sys_fork` copies registers and signals over that,
the pending ones included. So a child is like its parent only where the parent looks
like a new process itself (`ParentLooksNew`), and the processes that a group leader
forks are never in its group: `sys_kill` with the negative of its PID reaches none of
them, unless that is -1, which means everyone.
-/

import Curnel.Process.Create
import Curnel.Process.Kill

namespace Curnel.Process

open Lib Word

/-! ### Inheriting -/

/-- The process in slot `child` after a fork is what its parent was before it. -/
structure Inherits (before after : Table) (current child : Slot) : Prop where
  processGroup : (after.kernel.processes child).processGroup
    = (before.kernel.processes current).processGroup
  sessionId : (after.kernel.processes child).sessionId
    = (before.kernel.processes current).sessionId
  blockedSignals : (after.kernel.processes child).blockedSignals
    = (before.kernel.processes current).blockedSignals
  signalActions : (after.kernel.processes child).signalActions
    = (before.kernel.processes current).signalActions
  fileDescriptors : (after.records child).fileDescriptors = (before.records current).fileDescriptors
  pageDirectory : (after.records child).pageDirectory = (before.records current).pageDirectory
  noPending : (after.kernel.processes child).pendingSignals = 0
  rax : (after.records child).registers.rax = 0

/-- The parent has what `create_process` gives the child: the next PID as its group and its
session, the standard descriptors, the page directory left in the child's slot; and nothing
is pending for it. -/
structure ParentLooksNew (t : Table) (current child : Slot) : Prop where
  processGroup : (t.kernel.processes current).processGroup = t.nextPid
  sessionId : (t.kernel.processes current).sessionId = t.nextPid
  fileDescriptors : (t.records current).fileDescriptors = standardDescriptors
  pageDirectory : (t.records current).pageDirectory = (t.records child).pageDirectory
  noPending : (t.kernel.processes current).pendingSignals = 0

theorem inherits_forked_iff (t : Table) (current child : Slot) (stack : Nat) :
    Inherits t (t.forked current child stack) current child ↔
      ParentLooksNew t current child := by
  have hprocess : (t.forked current child stack).kernel.processes child
      = inheritSignals (t.kernel.processes current)
        (newProcess t.nextPid (t.kernel.processes current).pid stack
          (t.kernel.processes child)) := by
    simp only [Table.forked, modify_same]
  have hrecord : (t.forked current child stack).records child
      = inheritRegisters (t.records current)
        (newRecord (t.records current).name 0 stack t.kernel.timerTicks (t.records child)) :=
    Function.update_self _ _ _
  constructor
  · intro inherits
    have hgroup := inherits.processGroup
    have hsession := inherits.sessionId
    have hfds := inherits.fileDescriptors
    have hdirectory := inherits.pageDirectory
    have hpending := inherits.noPending
    rw [hprocess] at hgroup hsession hpending
    rw [hrecord] at hfds hdirectory
    exact ⟨hgroup.symm, hsession.symm, hfds.symm, hdirectory.symm, hpending⟩
  · intro new
    refine ⟨?_, ?_, ?_, ?_, ?_, ?_, ?_, ?_⟩
    · rw [hprocess]
      exact new.processGroup.symm
    · rw [hprocess]
      exact new.sessionId.symm
    · rw [hprocess]
      rfl
    · rw [hprocess]
      rfl
    · rw [hrecord]
      exact new.fileDescriptors.symm
    · rw [hrecord]
      exact new.pageDirectory.symm
    · rw [hprocess]
      exact new.noPending
    · rw [hrecord]
      rfl

/-! ### Groups -/

def setProcessGroup (pid pgid : Nat) (s : State) : Int × State :=
  match getProcess pid s with
  | none => (-1, s)
  | some i => (0, s.modify i fun p => { p with processGroup := if pgid = 0 then pid else pgid })

def sysSetpgid (pid pgid : Nat) (s : State) : Nat × State :=
  let set (pid : Nat) : Nat × State :=
    let out := setProcessGroup pid pgid s
    (ofInt out.1, out.2)
  if pid = 0 then
    match getCurrentProcess s with
    | none => (ofInt (-1), s)
    | some current => set (s.processes current).pid
  else set pid

/-- The table, and the slots of those that a process has forked, and that they have. -/
structure ForkTree where
  table : Table
  descendants : Finset Slot

/-- The descendants of `leader` after a step. -/
def ForkTree.grow (leader : Slot) (y : ForkTree) : TableOp → Finset Slot
  | .sysFork _ =>
      match getCurrentProcess y.table.kernel, getProcess 0 y.table.kernel with
      | some current, some child =>
          if current = leader ∨ current ∈ y.descendants then insert child y.descendants
          else y.descendants
      | _, _ => y.descendants
  | _ => y.descendants

/-- No step changes a group. -/
def ForkStep (leader : Slot) (y : ForkTree) (op : TableOp) (z : ForkTree) : Prop :=
  TableStep y.table op z.table ∧ z.descendants = y.grow leader op

/-- The process in slot `leader` has called `sys_setpgid(0, 0)`. -/
def leads (t : Table) : ForkTree := ⟨{ t with kernel := (sysSetpgid 0 0 t.kernel).2 }, ∅⟩

def Alive (s : State) (i : Slot) : Prop :=
  (s.processes i).pid ≠ 0 ∧ (s.processes i).state ≠ .zombie

/-- A process that is there keeps its PID and its group. -/
theorem TableStep.keeps {t t' : Table} {op : TableOp} (numbered : Numbered t)
    (step : TableStep t op t') {i : Slot} (hlive : (t.kernel.processes i).pid ≠ 0) :
    (t'.kernel.processes i).pid = (t.kernel.processes i).pid ∧
      (t'.kernel.processes i).processGroup = (t.kernel.processes i).processGroup := by
  have other : ∀ j f, getProcess 0 t.kernel = some j →
      (t.kernel.modify j f).processes i = t.kernel.processes i := by
    intro j f hfree
    apply modify_other
    rintro rfl
    exact hlive (getProcess_pid hfree)
  cases step with
  | createProcess =>
      unfold Process.createProcess
      cases hfree : getProcess 0 t.kernel with
      | none => exact ⟨rfl, rfl⟩
      | some j =>
          dsimp only [Table.created]
          rw [other j _ hfree]
          exact ⟨rfl, rfl⟩
  | sysFork =>
      rcases sysFork_cases numbered.fresh _ with ⟨-, hrun⟩ | ⟨current, child, -, hfree, -, hrun⟩
      · rw [hrun]
        exact ⟨rfl, rfl⟩
      · rw [hrun]
        dsimp only [Table.forked]
        rw [other child _ hfree]
        exact ⟨rfl, rfl⟩
  | call h => exact ⟨h.evolves.pid_eq i, h.evolves.processGroup_eq i⟩

/-- The leader is there, and each of its descendants is in a group of its own. -/
structure Scattered (leader : Slot) (y : ForkTree) : Prop where
  numbered : Numbered y.table
  live : (y.table.kernel.processes leader).pid ≠ 0
  apart : ∀ i ∈ y.descendants, i ≠ leader ∧ (y.table.kernel.processes i).pid ≠ 0 ∧
    (y.table.kernel.processes i).processGroup = (i : Nat) + 1

/-- The child of a fork leads a group of its own. -/
theorem forked_own_group {t : Table} (numbered : Numbered t) {current child : Slot} (stack : Nat)
    (hfree : getProcess 0 t.kernel = some child) :
    ((t.forked current child stack).kernel.processes child).pid ≠ 0 ∧
      ((t.forked current child stack).kernel.processes child).processGroup
        = (child : Nat) + 1 := by
  have hslot := numbered.freeSlot hfree
  simp only [Table.forked, modify_same, inheritSignals, newProcess]
  exact ⟨numbered.fresh.ne_zero, hslot.symm⟩

theorem Scattered.step {leader : Slot} {y z : ForkTree} {op : TableOp}
    (scattered : Scattered leader y) (step : ForkStep leader y op z) : Scattered leader z := by
  obtain ⟨first, hgrow⟩ := step
  have numbered := scattered.numbered
  have kept : ∀ i ∈ y.descendants, i ≠ leader ∧ (z.table.kernel.processes i).pid ≠ 0 ∧
      (z.table.kernel.processes i).processGroup = (i : Nat) + 1 := by
    intro i hi
    obtain ⟨hne, hlive, hgroup⟩ := scattered.apart i hi
    obtain ⟨hpid, hsame⟩ := first.keeps numbered hlive
    rw [hpid, hsame]
    exact ⟨hne, hlive, hgroup⟩
  have hleader : (z.table.kernel.processes leader).pid ≠ 0 := by
    rw [(first.keeps numbered scattered.live).1]
    exact scattered.live
  refine ⟨first.numbered numbered, hleader, ?_⟩
  rw [hgrow]
  clear hgrow hleader
  obtain ⟨after, later⟩ := z
  dsimp only at first kept ⊢
  cases first with
  | createProcess => exact kept
  | call => exact kept
  | @sysFork stack =>
      unfold ForkTree.grow
      rcases sysFork_cases numbered.fresh stack with
        ⟨hnone, -⟩ | ⟨current, child, hcurrent, hfree, -, hrun⟩
      · rcases hnone with hnone | hnone
        · simp only [hnone]
          exact kept
        · simp only [hnone]
          split
          next hcurrent hchild => cases hchild
          next => exact kept
      · simp only [hcurrent, hfree]
        split
        next =>
          intro i hi
          rcases Finset.mem_insert.mp hi with rfl | hi
          · have hne : i ≠ leader := by
              rintro rfl
              exact scattered.live (getProcess_pid hfree)
            rw [hrun]
            exact ⟨hne, forked_own_group numbered stack hfree⟩
          · exact kept i hi
        next => exact kept

/-! ### The signal -/

/-- To the group of a leader other than process 1, a signal goes to no descendant. -/
theorem Scattered.kill_misses {leader i : Slot} {y : ForkTree} {signum : Nat} {out : Killed}
    (scattered : Scattered leader y) (hne : (y.table.kernel.processes leader).pid ≠ 1)
    (hsignum : signum < MAX_SIGNALS)
    (hcall : Syscall.sysKill enoughFuel (wsub 64 0 (y.table.kernel.processes leader).pid) signum
      y.table.kernel = some out) (hi : i ∈ y.descendants) : i ∉ out.targets := by
  have hpid := scattered.numbered.pid_of_live scattered.live
  have hleader : (leader : Nat) < 64 := leader.isLt
  obtain ⟨hother, -, hgroup⟩ := scattered.apart i hi
  have hval : (i : Nat) ≠ leader := fun heq => hother (Fin.ext heq)
  rw [hpid] at hne hcall
  rw [wsub_zero (Nat.succ_pos _)] at hcall
  have kills := Syscall.kills_group (by omega) (by omega) hsignum hcall
  intro hmem
  have hmeant := ((addressed_group (by omega) (by omega)).mp ((kills.targets i).mp hmem)).2
  rw [hgroup] at hmeant
  omega

/-- From process 1 it goes to every process with a PID below 64. -/
theorem Scattered.kill_everyone {leader i : Slot} {y : ForkTree} {signum : Nat} {out : Killed}
    (scattered : Scattered leader y) (hone : (y.table.kernel.processes leader).pid = 1)
    (hsignum : signum < MAX_SIGNALS)
    (hcall : Syscall.sysKill enoughFuel (wsub 64 0 (y.table.kernel.processes leader).pid) signum
      y.table.kernel = some out) (hi : i ∈ y.descendants) :
    i ∈ out.targets ↔ (y.table.kernel.processes i).pid < MAX_PROCESSES := by
  have hall : wsub 64 0 1 = ofInt (-1) := by decide
  rw [hone, hall, Syscall.sysKill, if_neg (by omega), if_neg (by decide),
    if_neg (Nat.lt_irrefl _), if_pos rfl] at hcall
  rw [(sendAll_targets scattered.numbered.wellFormed.uniquePids hcall).2 i,
    and_iff_right (scattered.apart i hi).2.1]

theorem leads_scattered {t : Table} {leader : Slot} (numbered : Numbered t)
    (hcurrent : getCurrentProcess t.kernel = some leader) : Scattered leader (leads t) := by
  have hlive := getCurrentProcess_live hcurrent
  have hset : (leads t).table.kernel = t.kernel.modify leader fun p =>
      { p with processGroup := (t.kernel.processes leader).pid } := by
    simp only [leads, sysSetpgid, setProcessGroup, if_true, hcurrent,
      getProcess_of_pid numbered.wellFormed.uniquePids hlive]
  have hpid : ∀ i, ((leads t).table.kernel.processes i).pid = (t.kernel.processes i).pid := by
    intro i
    rw [hset]
    exact modify_congr Process.pid rfl i
  have hexit : ∀ i, ((leads t).table.kernel.processes i).exitSignal
      = (t.kernel.processes i).exitSignal := by
    intro i
    rw [hset]
    exact modify_congr Process.exitSignal rfl i
  refine ⟨⟨numbered.pos, numbered.le, fun i => ?_, fun i => ?_⟩, ?_, ?_⟩
  · exact (hpid i).trans (numbered.pid i)
  · exact (hexit i).trans (numbered.exitSignal i)
  · rw [hpid]
    exact hlive
  · intro i hi
    exact absurd hi (Finset.notMem_empty i)

/-- **What a child inherits, and whom a group signal reaches.** A successful `sys_fork` gives
the child what the parent has exactly when the parent looks like a new process; and a signal
to the group of a leader reaches all its live descendants exactly when there are none, or the
leader is process 1 and their PIDs are below 64. -/
theorem fork_inherits_iff {t : Table} :
    (∀ {t' : Table} {stack pid : Nat}, t.Fresh → sysFork stack t = (pid, t') →
      pid ≠ ofInt (-1) → ∃ current child, getCurrentProcess t.kernel = some current ∧
        getProcess pid t'.kernel = some child ∧
        (Inherits t t' current child ↔ ParentLooksNew t current child)) ∧
      ∀ {leader : Slot} {ops : List TableOp} {y : ForkTree} {signum : Nat},
        Numbered t → getCurrentProcess t.kernel = some leader →
        Run (ForkStep leader) (leads t) ops y → signum < MAX_SIGNALS →
        ∃ out, Syscall.sysKill enoughFuel (wsub 64 0 (y.table.kernel.processes leader).pid) signum
            y.table.kernel = some out ∧
          ((∀ i ∈ y.descendants, Alive y.table.kernel i → i ∈ out.targets) ↔
            ∀ i ∈ y.descendants, Alive y.table.kernel i →
              (y.table.kernel.processes leader).pid = 1 ∧
                (y.table.kernel.processes i).pid < MAX_PROCESSES) := by
  constructor
  · intro t' stack pid fresh hrun hpid
    rcases sysFork_cases fresh stack with ⟨-, hfail⟩ | ⟨current, child, hcurrent, -, -, hfork⟩
    · rw [hrun] at hfail
      exact absurd (congrArg Prod.fst hfail) hpid
    · rw [hrun] at hfork
      cases hfork
      refine ⟨current, child, hcurrent, ?_, inherits_forked_iff t current child stack⟩
      have hfound := getProcess_created fresh child (t.records current).name 0
        (t.kernel.processes current).pid stack
      rw [← hfound]
      apply getProcess_congr
      intro i
      by_cases hi : i = child
      · rw [hi]
        simp only [Table.forked, Table.created, modify_same, inheritSignals]
      · simp only [Table.forked, Table.created, modify_other _ hi]
  · intro leader ops y signum numbered hcurrent run hsignum
    have scattered : Scattered leader y :=
      run.invariant (fun inv step => inv.step step) (leads_scattered numbered hcurrent)
    obtain ⟨out, hcall⟩ := @Syscall.sysKill_returns enoughFuel
      (wsub 64 0 (y.table.kernel.processes leader).pid) signum _ scattered.numbered.wellFormed
      (le_refl _)
    refine ⟨out, hcall, forall₃_congr fun i hi _ => ?_⟩
    by_cases hone : (y.table.kernel.processes leader).pid = 1
    · rw [scattered.kill_everyone hone hsignum hcall hi]
      exact (and_iff_right hone).symm
    · exact iff_of_false (scattered.kill_misses hone hsignum hcall hi) fun h => hone h.1

/-- Process 1 and its child, process 2, which runs. -/
def childRuns : Table :=
  let t := (createProcess [99] 0 1 0 (createProcess [105] 0 0 0 (.start true 0 100)).2).2
  { t with kernel := switchToProcess 2 t.kernel }

theorem numbered_childRuns : Numbered childRuns := by
  have created := ((numbered_start true 0 100).createProcess [105] 0 0 0).createProcess [99] 0 1 0
  exact created.evolves (evolves_switchToProcess 2 _)

/-- Process 2 forks. -/
theorem fork_inherits_iff_child :
    (∃ current child, getCurrentProcess childRuns.kernel = some current ∧
      getProcess 3 (sysFork 0 childRuns).2.kernel = some child ∧
      (Inherits childRuns (sysFork 0 childRuns).2 current child ↔
        ParentLooksNew childRuns current child)) ∧
      ∃ y, Run (ForkStep 1) (leads childRuns) [.sysFork 0] y ∧ 2 ∈ y.descendants ∧
        ∃ out, Syscall.sysKill enoughFuel (wsub 64 0 (y.table.kernel.processes 1).pid) SIGTERM
            y.table.kernel = some out ∧
          ((∀ i ∈ y.descendants, Alive y.table.kernel i → i ∈ out.targets) ↔
            ∀ i ∈ y.descendants, Alive y.table.kernel i →
              (y.table.kernel.processes 1).pid = 1 ∧
                (y.table.kernel.processes i).pid < MAX_PROCESSES) := by
  have hcurrent : getCurrentProcess childRuns.kernel = some 1 := by decide +kernel
  have run : Run (ForkStep 1) (leads childRuns) [.sysFork 0]
      ⟨(sysFork 0 (leads childRuns).table).2, (leads childRuns).grow 1 (.sysFork 0)⟩ :=
    .single ⟨.sysFork, rfl⟩
  have hreturn : (sysFork 0 childRuns).1 = 3 := by decide +kernel
  refine ⟨fork_inherits_iff.1 numbered_childRuns.fresh
    (Prod.ext hreturn rfl : sysFork 0 childRuns = (3, _)) (by decide), _, run, by decide +kernel,
    fork_inherits_iff.2 numbered_childRuns hcurrent run (by decide)⟩

/-- The child of process 2 is in group 3, so that `sys_kill(-2, SIGTERM)` reaches process 2
alone. -/
theorem group_signal_misses_child :
    ∃ t' : Table, sysFork 0 (leads childRuns).table = (3, t') ∧
      (t'.kernel.processes 2).pid = 3 ∧
      (t'.kernel.processes 1).processGroup = 2 ∧ (t'.kernel.processes 2).processGroup = 3 ∧
      ¬ Inherits (leads childRuns).table t' 1 2 ∧
      (Syscall.sysKill enoughFuel (wsub 64 0 2) SIGTERM t'.kernel).map Killed.targets
        = some [1] := by
  have hreturn : (sysFork 0 (leads childRuns).table).1 = 3 := by decide +kernel
  have hgroup : ((sysFork 0 (leads childRuns).table).2.kernel.processes 2).processGroup = 3 := by
    decide +kernel
  refine ⟨(sysFork 0 (leads childRuns).table).2, Prod.ext hreturn rfl, by decide +kernel,
    by decide +kernel, hgroup, ?_, by decide +kernel⟩
  intro inherits
  have hsame := inherits.processGroup
  have hparent : ((leads childRuns).table.kernel.processes 1).processGroup = 2 := by
    decide +kernel
  rw [hgroup, hparent] at hsame
  cases hsame

end Curnel.Process
