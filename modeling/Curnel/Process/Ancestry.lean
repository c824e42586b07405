/-
The family tree of the processes.

A process is created by an older one, and `exit_process` gives children to process 1 only
when they had another parent before. So parents are older than their children in every run
(`FamilyStep.family`), and the tree has no cycles. When `exit_process` returns, nobody is
a child of the process that has left (`parents_are_older`).
-/

import Curnel.Process.Create
import Curnel.Process.Exits
import Mathlib.Logic.Relation

namespace Curnel.Process

open Lib Word

/-! ### Parents -/

/-- The process with PID `p` is the parent of the one with PID `q`. -/
def ParentOf (s : State) (p q : Nat) : Prop :=
  p ≠ 0 ∧ ∃ i, (s.processes i).pid = q ∧ q ≠ 0 ∧ (s.processes i).parentPid = p

/-- A relation along which a number grows has no cycles. -/
theorem acyclic_of_lt {α : Type} {R : α → α → Prop} {f : α → Nat}
    (h : ∀ a b, R a b → f a < f b) (a : α) : ¬ Relation.TransGen R a a := by
  have grows : ∀ {b}, Relation.TransGen R a b → f a < f b := by
    intro b path
    induction path with
    | single first => exact h _ _ first
    | tail _ last ih => exact ih.trans (h _ _ last)
  exact fun cycle => Nat.lt_irrefl _ (grows cycle)

structure FamilyTree (t : Table) : Prop where
  distinct : ∀ i j, (t.kernel.processes i).pid ≠ 0 →
    (t.kernel.processes i).pid = (t.kernel.processes j).pid → i = j
  pid_lt : ∀ i, (t.kernel.processes i).pid < t.nextPid
  parent_lt : ∀ i, (t.kernel.processes i).pid ≠ 0 →
    (t.kernel.processes i).parentPid < (t.kernel.processes i).pid
  one_parent : ∀ p p' q, ParentOf t.kernel p q → ParentOf t.kernel p' q → p = p'
  acyclic : ∀ p, ¬ Relation.TransGen (ParentOf t.kernel) p p

/-- Nobody is a child of `p`. -/
def Childless (p : Nat) (s : State) : Prop :=
  ∀ i, (s.processes i).pid ≠ 0 → (s.processes i).parentPid ≠ p

/-! ### Steps -/

/-- A process is created for 0 or a process that exists, and calls are about processes. -/
def Rightful (s : State) : TableOp → Prop
  | .createProcess _ _ parentPid _ => parentPid = 0 ∨ ∃ i, (s.processes i).pid = parentPid
  | .call (.exitProcess pid _) => pid ≠ 0
  | .call (.signalSend i _) => (s.processes i).pid ≠ 0
  | .call (.signalHandlePending i) => (s.processes i).pid ≠ 0
  | _ => True

def FamilyStep (t : Table) (op : TableOp) (t' : Table) : Prop :=
  TableStep t op t' ∧ Rightful t.kernel op

/-- From `s` to `s'` some processes that had a parent have been given to process 1. -/
structure Reparents (s s' : State) : Prop where
  pid_eq : ∀ j, (s'.processes j).pid = (s.processes j).pid
  parent : ∀ j, (s'.processes j).parentPid = (s.processes j).parentPid ∨
    (s'.processes j).parentPid = 1 ∧ (s.processes j).parentPid ≠ 0

/-- Is the process in a slot alive, as far as the table says? -/
def Live (s : State) (i : Slot) : Prop := (s.processes i).pid ≠ 0

theorem Reparents.of_moves {s s' : State} (h : Moves (Live s) s s') : Reparents s s' := by
  refine ⟨h.pid_eq, fun j => ?_⟩
  rcases h.parent j with hsame | ⟨hone, x, hx, hpid, -⟩
  · exact .inl hsame
  · exact .inr ⟨hone, fun hzero => hx (hpid.trans hzero)⟩

theorem Reparents.of_same {s s' : State} (hpid : ∀ j, (s'.processes j).pid = (s.processes j).pid)
    (hparent : ∀ j, (s'.processes j).parentPid = (s.processes j).parentPid) : Reparents s s' :=
  ⟨hpid, fun j => .inl (hparent j)⟩

/-- A step enters the scheduler with the processes it found. -/
theorem scheduling_pid {op : Op} {s u : State} (h : scheduling op s = some u) (j : Slot) :
    (u.processes j).pid = (s.processes j).pid := by
  cases op with
  | schedule =>
      cases h
      rfl
  | exitProcess pid code =>
      obtain ⟨i, -, rfl⟩ := Option.map_eq_some_iff.mp h
      exact (evolves_exitPrepared pid i s).pid_eq j
  | stopProcess pid =>
      obtain ⟨i, -, rfl⟩ := Option.map_eq_some_iff.mp h
      exact (evolves_setState s i .stopped).pid_eq j
  | sleepProcess pid ms =>
      obtain ⟨i, -, rfl⟩ := Option.map_eq_some_iff.mp h
      exact modify_congr Process.pid rfl j
  | timerHandler =>
      simp only [scheduling] at h
      split at h
      · rw [← Option.some.inj h]
        exact (evolves_timerTick s).pid_eq j
      · cases h
  | signalSend i signum => cases h
  | signalHandlePending i => cases h
  | continueProcess pid => cases h
  | blockProcess pid => cases h
  | unblockProcess pid => cases h

theorem entering_pid {op : Op} {s u : State} (h : entering op s = some u) (j : Slot) :
    (u.processes j).pid = (s.processes j).pid := by
  unfold entering at h
  split at h
  next i signum =>
    split at h
    · exact scheduling_pid h j
    split at h
    · exact scheduling_pid h j
    · cases h
  next i =>
    have hscan := (evolves_pendingFate i s).pid_eq j
    generalize pendingFate i s = answer at h hscan
    obtain ⟨fate, t⟩ := answer
    cases fate with
    | terminate signum => exact (scheduling_pid h j).trans hscan
    | none => cases h
    | stop => cases h
    | handled => cases h
  next => exact scheduling_pid h j

/-- Who may exit in a call about processes is one. -/
theorem live_of_mayExit {s : State} {op : Op} (rightful : Rightful s (.call op)) {j : Slot}
    (h : MayExit op s j) : Live s j := by
  rcases h with hleaving | ⟨u, hu, ⟨hlive, -⟩, -⟩
  · cases op with
    | exitProcess pid code =>
        have hpid := getProcess_pid hleaving
        exact fun hzero => rightful (hpid.symm.trans hzero)
    | signalSend i signum =>
        simp only [leaving] at hleaving
        split at hleaving
        · have hpid := getProcess_pid hleaving
          exact fun hzero => rightful (hpid.symm.trans hzero)
        · cases hleaving
    | signalHandlePending i =>
        simp only [leaving] at hleaving
        split at hleaving
        · have hpid := getProcess_pid hleaving
          exact fun hzero => rightful (hpid.symm.trans hzero)
        · cases hleaving
    | schedule => cases hleaving
    | stopProcess pid => cases hleaving
    | continueProcess pid => cases hleaving
    | blockProcess pid => cases hleaving
    | unblockProcess pid => cases hleaving
    | sleepProcess pid ms => cases hleaving
    | timerHandler => cases hleaving
  · have hpid := entering_pid hu j
    exact fun hzero => hlive (hpid.trans hzero)

theorem signalAddPending_parentPid (i : Slot) (signum : Int) (s : State) (j : Slot) :
    ((signalAddPending i signum s).2.processes j).parentPid = (s.processes j).parentPid := by
  have hset : ((setPending i signum.toNat s).processes j).parentPid = (s.processes j).parentPid :=
    modify_congr Process.parentPid rfl j
  rcases signalAddPending_cases i signum s with hout | hout
  · rw [hout]
  · rw [hout]
    exact hset

theorem blockProcess_parentPid (pid : Nat) (s : State) (j : Slot) :
    ((blockProcess pid s).processes j).parentPid = (s.processes j).parentPid := by
  unfold blockProcess
  split
  · rfl
  · exact modify_congr Process.parentPid rfl j

/-- A call about processes gives children to process 1 only. -/
theorem Step.reparents {s s' : State} {op : Op} (wf : WellFormed s) (step : Step s op s')
    (rightful : Rightful s (.call op)) : Reparents s s' := by
  by_cases hsend : ∃ i signum, op = .signalSend i signum ∧ Queued signum
  · obtain ⟨i, signum, rfl, queued⟩ := hsend
    rw [step.signalSend_queued queued]
    exact .of_same (evolves_signalAddPending i signum s).pid_eq
      (signalAddPending_parentPid i signum s)
  · by_cases hblock : ∃ pid, op = .blockProcess pid
    · obtain ⟨pid, rfl⟩ := hblock
      cases step with
      | blockProcess =>
          exact .of_same (evolves_blockProcess pid s).pid_eq (blockProcess_parentPid pid s)
    · apply Reparents.of_moves
      apply step.moves wf
      · exact fun j => live_of_mayExit rightful
      · exact fun i signum hop hqueued => hsend ⟨i, signum, hop, hqueued⟩
      · exact fun pid hop => hblock ⟨pid, hop⟩

/-! ### Parents are older -/

structure Family (t : Table) : Prop where
  numbered : Numbered t
  parent_lt : ∀ i, (t.kernel.processes i).pid ≠ 0 →
    (t.kernel.processes i).parentPid < (t.kernel.processes i).pid

namespace Family

variable {t : Table} (family : Family t)
include family

theorem pid_lt (i : Slot) : (t.kernel.processes i).pid < t.nextPid := by
  rw [family.numbered.pid i]
  split
  next h => exact h
  next => exact family.numbered.pos

/-- A parent of `pid` in slot `i` of a table with the same other processes. -/
theorem added {u : Table} {i : Slot} (numbered : Numbered u)
    (hparent : (u.kernel.processes i).parentPid < (u.kernel.processes i).pid)
    (hother : ∀ j, j ≠ i → u.kernel.processes j = t.kernel.processes j) : Family u := by
  refine ⟨numbered, fun j hlive => ?_⟩
  by_cases hj : j = i
  · rw [hj]
    exact hparent
  · rw [hother j hj] at hlive ⊢
    exact family.parent_lt j hlive

theorem createProcess {name : List UInt8} {entryPoint parentPid stack : Nat}
    (rightful : parentPid = 0 ∨ ∃ i, (t.kernel.processes i).pid = parentPid) :
    Family (createProcess name entryPoint parentPid stack t).2 := by
  have hlt : parentPid < t.nextPid := by
    rcases rightful with rfl | ⟨i, rfl⟩
    · exact family.numbered.pos
    · exact family.pid_lt i
  have numbered := family.numbered.createProcess name entryPoint parentPid stack
  unfold Process.createProcess at numbered ⊢
  cases hfree : getProcess 0 t.kernel with
  | none => exact family
  | some i =>
      rw [hfree] at numbered
      apply family.added (i := i) numbered
      · simp only [Table.created, modify_same, newProcess]
        exact hlt
      · intro j hj
        exact modify_other _ hj

theorem sysFork (stack : Nat) : Family (sysFork stack t).2 := by
  have numbered := family.numbered.sysFork stack
  rcases sysFork_cases family.numbered.fresh stack with
    ⟨-, hrun⟩ | ⟨current, child, -, -, -, hrun⟩
  · rw [hrun]
    exact family
  · rw [hrun] at numbered ⊢
    apply family.added (i := child) numbered
    · simp only [Table.forked, modify_same, inheritSignals, newProcess]
      exact family.pid_lt current
    · intro j hj
      simp only [Table.forked, modify_other _ hj]

/-- Process 1 is older than whoever had a parent. -/
theorem call {s : State} {op : Op} (step : Step t.kernel op s)
    (rightful : Rightful t.kernel (.call op)) : Family { t with kernel := s } := by
  have reparents := step.reparents family.numbered.wellFormed rightful
  refine ⟨family.numbered.evolves step.evolves, fun i hlive => ?_⟩
  simp only [reparents.pid_eq i] at hlive ⊢
  have hlt := family.parent_lt i hlive
  rcases reparents.parent i with hsame | ⟨hone, hold⟩
  · rw [hsame]
    exact hlt
  · rw [hone]
    omega

theorem tree : FamilyTree t := by
  have unique := family.numbered.wellFormed.uniquePids
  refine ⟨unique, family.pid_lt, family.parent_lt, ?_, ?_⟩
  · rintro p p' q ⟨-, i, hi, hq, hp⟩ ⟨-, j, hj, -, hp'⟩
    have heq : i = j := unique i j (hi ▸ hq) (hi.trans hj.symm)
    rw [← hp, ← hp', heq]
  · apply acyclic_of_lt (f := fun p => p)
    rintro p q ⟨-, i, rfl, hq, rfl⟩
    exact family.parent_lt i hq

end Family

theorem FamilyStep.family {t t' : Table} {op : TableOp} (family : Family t)
    (step : FamilyStep t op t') : Family t' := by
  obtain ⟨step, rightful⟩ := step
  cases step with
  | createProcess => exact family.createProcess rightful
  | sysFork => exact family.sysFork _
  | call h => exact family.call h rightful

theorem run_family {enabled : Bool} {ticks frequency : Nat} {ops : List TableOp} {t : Table}
    (run : Run FamilyStep (.start enabled ticks frequency) ops t) : Family t :=
  run.invariant (fun before step => step.family before)
    ⟨numbered_start enabled ticks frequency, fun _ hlive => absurd rfl hlive⟩

/-! ### Exits -/

/-- Whatever the scheduler does after the exit, it gives no child back. -/
theorem exitProcess_childless {fuel pid code : Nat} {s s' : State} (wf : WellFormed s)
    (h : exitProcess fuel pid code s = some s') (hinit : pid ≠ 1)
    (hfound : ∃ i, (s.processes i).pid = pid) : Childless pid s' := by
  rcases exitProcess_cases wf h with ⟨hnone, -⟩ | ⟨i, less, hfind, -, hrun⟩
  · obtain ⟨i, hi⟩ := hfound
    exact absurd hi (getProcess_eq_none.mp hnone i)
  · have wf' := wf.evolves (evolves_exitPrepared pid i s)
    have later : Reparents (exitPrepared pid i s) s' :=
      .of_moves (schedule_moves wf' hrun fun j hj => hj.1.1)
    intro j hlive
    rw [later.pid_eq j] at hlive
    rcases later.parent j with hsame | ⟨hone, -⟩
    · rw [hsame]
      unfold exitPrepared at hlive ⊢
      rw [(evolves_makeZombie i pid _).pid_eq j] at hlive
      rw [makeZombie_parentPid]
      split
      next => exact hinit.symm
      next hother => exact fun heq => hother ⟨hlive, heq⟩
    · rw [hone]
      exact hinit.symm

/-- From `init_processes` on, the processes form trees in which parents have the lower
PIDs; and `exit_process` of a process other than 1 returns and leaves it without children. -/
theorem parents_are_older {enabled : Bool} {ticks frequency : Nat} {ops : List TableOp}
    {t : Table} (run : Run FamilyStep (.start enabled ticks frequency) ops t) :
    FamilyTree t ∧
      ∀ p code, p ≠ 0 → p ≠ 1 → (∃ i, (t.kernel.processes i).pid = p) →
        (∃ t', FamilyStep t (.call (.exitProcess p code)) t') ∧
        ∀ t', FamilyStep t (.call (.exitProcess p code)) t' → Childless p t'.kernel := by
  have family := run_family run
  have wf := family.numbered.wellFormed
  refine ⟨family.tree, fun p code hzero hinit hfound => ⟨?_, ?_⟩⟩
  · obtain ⟨s, hs⟩ := @exitProcess_returns enoughFuel p code _ wf (by decide)
    exact ⟨_, .call (.exitProcess hs), hzero⟩
  · rintro t' ⟨step, -⟩
    cases step with
    | call h =>
        cases h with
        | exitProcess h => exact exitProcess_childless wf h hinit hfound

/-- Process 2 has the child 3, and exits. -/
theorem parents_are_older_grandchild :
    ∃ ops t t', Run FamilyStep (.start true 0 100) ops t ∧ ParentOf t.kernel 2 3 ∧
      FamilyStep t (.call (.exitProcess 2 0)) t' ∧ FamilyTree t' ∧ Childless 2 t'.kernel := by
  have run : Run FamilyStep (.start true 0 100)
      [.createProcess [] 0 0 0, .createProcess [] 0 1 0, .createProcess [] 0 2 0] _ :=
    .cons ⟨.createProcess, .inl rfl⟩ (.cons ⟨.createProcess, .inr ⟨0, rfl⟩⟩
      (.single ⟨.createProcess, .inr ⟨1, by decide +kernel⟩⟩))
  have hfound : ((createProcess [] 0 2 0 (createProcess [] 0 1 0 (createProcess [] 0 0 0
      (.start true 0 100)).2).2).2.kernel.processes 1).pid = 2 := by decide +kernel
  obtain ⟨⟨t', exits⟩, childless⟩ :=
    (parents_are_older run).2 2 0 (by decide) (by decide) ⟨1, hfound⟩
  refine ⟨_, _, t', run, ⟨by decide, 2, ?_⟩, exits, ?_, childless t' exits⟩
  · decide +kernel
  · exact (parents_are_older (run.append (.single exits))).1

end Curnel.Process
