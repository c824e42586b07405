/-
sys_wait, and what becomes of the children it returns.

`sys_wait` looks for a `ZOMBIE` child under the PIDs from 0 to 63 and returns its PID,
but gives its slot to nobody: the comment there says that clearing it is still to be
done. A child once found is found again by the next call, and after 63 more processes
none can be created. With nothing to return the caller is blocked, whether it has a
child to wait for or not, and when it runs again it does not look a second time.
-/

import Curnel.Process.Create

namespace Curnel.Process

open Lib Word

/-! ### The code -/

/-- What a `sys_wait` leaves behind. `blocks` is no value of the code: the caller was
blocked, and the call returns `result` when it runs again. -/
structure Waited where
  result : Nat
  blocks : Bool
  state : State

/-- The loop of `sys_wait`, for the children of `parentPid`. -/
def zombieChild (parentPid : Nat) (s : State) : Option Slot :=
  (List.range MAX_PROCESSES).findSome? fun pid =>
    match getProcess pid s with
    | none => none
    | some i =>
        if (s.processes i).parentPid = parentPid ∧ (s.processes i).state = .zombie then some i
        else none

/-- `written` says that `status` is null, or that it is a valid pointer and the exit code has
been copied there. -/
def sysWait (fuel : Nat) (written : Bool) (s : State) : Option Waited :=
  match getCurrentProcess s with
  | none => some ⟨ofInt (-1), false, s⟩
  | some current =>
      match zombieChild (s.processes current).pid s with
      | some i =>
          if written then some ⟨(s.processes i).pid, false, s⟩
          else some ⟨ofInt (-1), false, s⟩
      | none =>
          (schedule fuel (blockProcess (s.processes current).pid s)).map fun t =>
            ⟨ofInt (-1), true, t⟩

/-! ### The system -/

/-- The process table, the calls of `sys_wait` that are blocked, and the PIDs that `sys_wait`
has returned. -/
structure WaitSystem where
  table : Table
  waiting : List (Slot × Bool)
  reaped : List Nat

/-- A call of `sys_wait` comes with what it returns, and with whether it blocks first. One that
has blocked returns -1 when its caller is current again. -/
inductive WaitOp where
  | table (op : TableOp)
  | sysWait (written : Bool) (result : Nat) (blocks : Bool)
  | resume (written : Bool)

def WaitSystem.waited (y : WaitSystem) (written : Bool) (out : Waited) : WaitSystem where
  table := { y.table with kernel := out.state }
  waiting :=
    if out.blocks then (y.table.kernel.currentProcessIndex, written) :: y.waiting else y.waiting
  reaped := if out.result = ofInt (-1) then y.reaped else y.reaped ++ [out.result]

inductive WaitStep : WaitSystem → WaitOp → WaitSystem → Prop where
  | table {t t' : Table} {w : List (Slot × Bool)} {reaped : List Nat} {op : TableOp} :
      TableStep t op t' → WaitStep ⟨t, w, reaped⟩ (.table op) ⟨t', w, reaped⟩
  | sysWait {fuel : Nat} {written : Bool} {y : WaitSystem} {out : Waited} :
      sysWait fuel written y.table.kernel = some out →
        WaitStep y (.sysWait written out.result out.blocks) (y.waited written out)
  | resume {t : Table} {current : Slot} {written : Bool} {before after : List (Slot × Bool)}
      {reaped : List Nat} :
      getCurrentProcess t.kernel = some current →
        WaitStep ⟨t, before ++ (current, written) :: after, reaped⟩ (.resume written)
          ⟨t, before ++ after, reaped⟩

/-! ### What `sys_wait` should do -/

/-- A child of the process in slot `current`. -/
def IsChild (s : State) (current i : Slot) : Prop :=
  (s.processes i).pid ≠ 0 ∧ (s.processes i).parentPid = (s.processes current).pid

/-- A child that has not been returned. -/
def Unreaped (y : WaitSystem) (current i : Slot) : Prop :=
  IsChild y.table.kernel current i ∧ (y.table.kernel.processes i).pid ∉ y.reaped

/-- A call returns a `ZOMBIE` child, if there is one and its exit code can be written; it
returns -1 and does not block, if there is no child at all. -/
structure Answers (y : WaitSystem) (current : Slot) (written : Bool) (result : Nat)
    (blocks : Bool) : Prop where
  child : written = true →
    (∃ i, Unreaped y current i ∧ (y.table.kernel.processes i).state = .zombie) →
    ∃ i, Unreaped y current i ∧ (y.table.kernel.processes i).state = .zombie ∧
      result = (y.table.kernel.processes i).pid
  none : (∀ i, ¬ Unreaped y current i) → result = ofInt (-1) ∧ blocks = false

/-- No PID is returned twice, a process that was returned has left the table, processes are
created while there are less than 64 alive or not yet returned, a call of `sys_wait` answers
as it should, and one that has blocked does not fail while there is a child to return. -/
structure Reaps (y : WaitSystem) (op : WaitOp) (z : WaitSystem) : Prop where
  once : z.reaped.Nodup
  freed : ∀ pid ∈ z.reaped, ∀ i, (z.table.kernel.processes i).pid ≠ pid
  room : ∀ name entryPoint parentPid stack,
    (createProcess name entryPoint parentPid stack z.table).1 = 0 →
    ∀ i, (z.table.kernel.processes i).pid ≠ 0 ∧ (z.table.kernel.processes i).pid ∉ z.reaped
  answers : ∀ written result blocks current, op = .sysWait written result blocks →
    getCurrentProcess y.table.kernel = some current → Answers y current written result blocks
  resumes : ∀ current, op = .resume true → getCurrentProcess y.table.kernel = some current →
    ∀ i, Unreaped y current i → (y.table.kernel.processes i).state ≠ .zombie

/-- The caller has a child, and if the exit code could be written, none that is a `ZOMBIE`; the
latter also when it goes on. -/
def WaitsInVain (y : WaitSystem) : WaitOp → Prop
  | .table _ => True
  | .sysWait written _ _ =>
      ∀ current, getCurrentProcess y.table.kernel = some current →
        (∃ i, IsChild y.table.kernel current i) ∧
          (written = true → ∀ i, IsChild y.table.kernel current i →
            (y.table.kernel.processes i).state ≠ .zombie)
  | .resume written =>
      ∀ current, getCurrentProcess y.table.kernel = some current →
        written = true → ∀ i, IsChild y.table.kernel current i →
          (y.table.kernel.processes i).state ≠ .zombie

/-! ### The search -/

/-- A free slot has no parent. -/
def Unowned (s : State) : Prop := ∀ i, (s.processes i).pid = 0 → (s.processes i).parentPid = 0

/-- What the search finds is a child, and it finds every one with a PID below 64. -/
theorem zombieChild_isSome {s : State} {current i : Slot} (unowned : Unowned s)
    (hlive : (s.processes current).pid ≠ 0)
    (h : zombieChild (s.processes current).pid s = some i) :
    IsChild s current i ∧ (s.processes i).state = .zombie := by
  obtain ⟨pid, -, hfound⟩ := List.exists_of_findSome?_eq_some h
  cases hget : getProcess pid s with
  | none =>
      rw [hget] at hfound
      cases hfound
  | some j =>
      rw [hget] at hfound
      obtain ⟨⟨hparent, hzombie⟩, hij⟩ := Option.ite_none_right_eq_some.mp hfound
      cases hij
      refine ⟨⟨fun hzero => ?_, hparent⟩, hzombie⟩
      rw [unowned i hzero] at hparent
      exact hlive hparent.symm

theorem sysWait_returns {fuel : Nat} {written : Bool} {s : State} (wf : WellFormed s)
    (hfuel : enoughFuel ≤ fuel) : ∃ out, sysWait fuel written s = some out := by
  unfold sysWait
  split
  · exact ⟨_, rfl⟩
  split
  · split
    · exact ⟨_, rfl⟩
    · exact ⟨_, rfl⟩
  · obtain ⟨t, hrun⟩ := @schedule_returns_of_enough fuel _ (wf.evolves (evolves_blockProcess _ s))
      (lt_of_lt_of_le (by decide) hfuel)
    rw [hrun]
    exact ⟨_, rfl⟩

/-- There is no current process; or a child is found, and nothing changes; or the caller is
blocked. -/
theorem sysWait_cases {fuel : Nat} {written : Bool} {s : State} {out : Waited}
    (h : sysWait fuel written s = some out) :
    getCurrentProcess s = none ∧ out = ⟨ofInt (-1), false, s⟩ ∨
      ∃ current, getCurrentProcess s = some current ∧
        ((∃ i, zombieChild (s.processes current).pid s = some i ∧
            out = ⟨if written then (s.processes i).pid else ofInt (-1), false, s⟩) ∨
          ∃ t, zombieChild (s.processes current).pid s = none ∧
            schedule fuel (blockProcess (s.processes current).pid s) = some t ∧
            out = ⟨ofInt (-1), true, t⟩) := by
  unfold sysWait at h
  cases hcurrent : getCurrentProcess s with
  | none =>
      rw [hcurrent] at h
      exact Or.inl ⟨rfl, (Option.some.inj h).symm⟩
  | some current =>
      rw [hcurrent] at h
      refine Or.inr ⟨current, rfl, ?_⟩
      dsimp only at h
      cases hfind : zombieChild (s.processes current).pid s with
      | none =>
          rw [hfind] at h
          obtain ⟨t, hrun, hout⟩ := Option.map_eq_some_iff.mp h
          exact Or.inr ⟨t, rfl, hrun, hout.symm⟩
      | some i =>
          rw [hfind] at h
          refine Or.inl ⟨i, rfl, ?_⟩
          cases written <;> exact (Option.some.inj h).symm

/-! ### The invariant -/

/-- The part of a process that a free slot keeps. -/
def owner (p : Process) : Nat × Nat := (p.pid, if p.pid = 0 then p.parentPid else 0)

theorem unwritten_owner : Unwritten owner where
  state _ _ := rfl
  running _ _ := rfl
  asleep _ _ := rfl
  pending _ _ := rfl
  handling _ _ := rfl
  stack _ _ := rfl
  signalStack _ _ := rfl
  orphaned p hlive := by simp only [owner, if_neg hlive]

theorem Unowned.congr {s s' : State} (unowned : Unowned s)
    (h : ∀ i, owner (s'.processes i) = owner (s.processes i)) : Unowned s' := by
  intro i hzero
  have hsame := h i
  simp only [owner, Prod.mk.injEq, hzero, if_true] at hsame
  obtain ⟨hpid, hparent⟩ := hsame
  rw [hparent, if_pos hpid.symm]
  exact unowned i hpid.symm

/-- A slot that is filled is free no more. -/
theorem Unowned.modify {s : State} (unowned : Unowned s) {i : Slot} {f : Process → Process}
    (hpid : (f (s.processes i)).pid ≠ 0) : Unowned (s.modify i f) := by
  intro j hzero
  by_cases hj : j = i
  · subst hj
    rw [modify_same] at hzero
    exact absurd hzero hpid
  · rw [modify_other f hj] at hzero ⊢
    exact unowned j hzero

theorem TableStep.unowned {t t' : Table} {op : TableOp} (numbered : Numbered t)
    (unowned : Unowned t.kernel) (step : TableStep t op t') : Unowned t'.kernel := by
  cases step with
  | createProcess =>
      unfold Process.createProcess
      cases hfree : getProcess 0 t.kernel with
      | none => exact unowned
      | some i => exact unowned.modify numbered.fresh.ne_zero
  | sysFork =>
      rcases sysFork_cases numbered.fresh _ with ⟨-, hrun⟩ | ⟨current, child, -, -, -, hrun⟩
      · rw [hrun]
        exact unowned
      · rw [hrun]
        dsimp only [Table.forked]
        apply unowned.modify
        exact numbered.fresh.ne_zero
  | call h => exact unowned.congr (unwritten_owner.step h)

theorem WaitStep.inv {y z : WaitSystem} {op : WaitOp}
    (inv : Numbered y.table ∧ Unowned y.table.kernel) (step : WaitStep y op z) :
    Numbered z.table ∧ Unowned z.table.kernel := by
  obtain ⟨numbered, unowned⟩ := inv
  cases step with
  | table first => exact ⟨first.numbered numbered, first.unowned numbered unowned⟩
  | sysWait hcall =>
      rcases sysWait_cases hcall with ⟨-, rfl⟩ | ⟨current, -, ⟨i, -, rfl⟩ | ⟨t, -, hrun, rfl⟩⟩
      · exact ⟨numbered, unowned⟩
      · exact ⟨numbered, unowned⟩
      · have hevolves := (evolves_blockProcess (y.table.kernel.processes current).pid _).trans
          ((evolves_calls _).schedule hrun)
        have blocked := unowned.congr
          (unwritten_owner.blockProcess (y.table.kernel.processes current).pid _)
        exact ⟨numbered.evolves hevolves,
          blocked.congr ((unwritten_owner.keptByCalls.calls _).schedule hrun)⟩
  | resume => exact ⟨numbered, unowned⟩

/-! ### One step -/

/-- While nothing has been returned, a process is created unless all slots are taken. -/
theorem createProcess_fails {t : Table} (numbered : Numbered t) {name : List UInt8}
    {entryPoint parentPid stack : Nat}
    (h : (createProcess name entryPoint parentPid stack t).1 = 0) (i : Slot) :
    (t.kernel.processes i).pid ≠ 0 := by
  unfold createProcess at h
  cases hfree : getProcess 0 t.kernel with
  | none => exact getProcess_eq_none.mp hfree i
  | some j =>
      rw [hfree] at h
      exact absurd h numbered.fresh.ne_zero

theorem unreaped_iff {y : WaitSystem} (hnone : y.reaped = []) {current i : Slot} :
    Unreaped y current i ↔ IsChild y.table.kernel current i := by
  unfold Unreaped
  rw [hnone, and_iff_left List.not_mem_nil]

/-- A step after which nothing has been returned. -/
theorem reaps_iff_answers {y z : WaitSystem} {op : WaitOp} (numbered : Numbered z.table)
    (hnone : z.reaped = []) :
    Reaps y op z ↔
      (∀ written result blocks current, op = .sysWait written result blocks →
        getCurrentProcess y.table.kernel = some current →
        Answers y current written result blocks) ∧
      ∀ current, op = .resume true → getCurrentProcess y.table.kernel = some current →
        ∀ i, Unreaped y current i → (y.table.kernel.processes i).state ≠ .zombie := by
  constructor
  · intro reaps
    exact ⟨reaps.answers, reaps.resumes⟩
  · rintro ⟨answers, resumes⟩
    refine ⟨?_, ?_, ?_, answers, resumes⟩
    · rw [hnone]
      exact List.nodup_nil
    · rw [hnone]
      intro pid hpid
      cases hpid
    · rw [hnone]
      intro name entryPoint parentPid stack hfail i
      exact ⟨createProcess_fails numbered hfail i, List.not_mem_nil⟩

/-- No process has -1 as its PID. -/
theorem Numbered.pid_ne_failure {t : Table} (numbered : Numbered t) (i : Slot) :
    (t.kernel.processes i).pid ≠ ofInt (-1) := by
  have hfail : ofInt (-1) = 2 ^ 64 - 1 := by decide
  have hi : (i : Nat) < 64 := i.isLt
  rw [numbered.pid i]
  split <;> omega

/-- A call that blocks and returns -1 answers as it should exactly when its caller waits in
vain. -/
theorem answers_blocked_iff {y : WaitSystem} (numbered : Numbered y.table)
    (hnone : y.reaped = []) {current : Slot} {written : Bool} :
    Answers y current written (ofInt (-1)) true ↔
      (∃ i, IsChild y.table.kernel current i) ∧
        (written = true → ∀ i, IsChild y.table.kernel current i →
          (y.table.kernel.processes i).state ≠ .zombie) := by
  constructor
  · intro answers
    constructor
    · by_contra hchildless
      have halone : ∀ i, ¬ Unreaped y current i := fun i hi =>
        hchildless ⟨i, (unreaped_iff hnone).mp hi⟩
      cases (answers.none halone).2
    · intro hwritten i child hzombie
      obtain ⟨j, -, -, hpid⟩ :=
        answers.child hwritten ⟨i, (unreaped_iff hnone).mpr child, hzombie⟩
      exact numbered.pid_ne_failure j hpid.symm
  · rintro ⟨⟨i, child⟩, hzombie⟩
    constructor
    · rintro hwritten ⟨j, hj, hstate⟩
      exact absurd hstate (hzombie hwritten j ((unreaped_iff hnone).mp hj))
    · intro halone
      exact absurd ((unreaped_iff hnone).mpr child) (halone i)

/-- A call that fails leaves the list of those returned alone. -/
theorem reaped_of_failure {y : WaitSystem} {written : Bool} {out : Waited}
    (h : out.result = ofInt (-1)) : (y.waited written out).reaped = y.reaped := if_pos h

/-- A call that finds a child reaps as it should only if it cannot write the exit code. -/
theorem reaps_found_iff {y : WaitSystem} (numbered : Numbered y.table) (hnone : y.reaped = [])
    {current i : Slot} (hcurrent : getCurrentProcess y.table.kernel = some current)
    (child : IsChild y.table.kernel current i) {written : Bool} {out : Waited}
    (hout : out = ⟨if written then (y.table.kernel.processes i).pid else ofInt (-1), false,
      y.table.kernel⟩) :
    Reaps y (.sysWait written out.result out.blocks) (y.waited written out) ↔ written = false := by
  subst hout
  cases written with
  | true =>
      refine iff_of_false ?_ Bool.noConfusion
      intro reaps
      have hmem : (y.table.kernel.processes i).pid ∈
          (y.waited true ⟨(y.table.kernel.processes i).pid, false, y.table.kernel⟩).reaped := by
        rw [WaitSystem.waited, if_neg (numbered.pid_ne_failure i)]
        exact List.mem_append_right _ (List.mem_singleton_self _)
      exact reaps.freed _ hmem i rfl
  | false =>
      have hkept : (y.waited false ⟨ofInt (-1), false, y.table.kernel⟩).reaped = [] :=
        (reaped_of_failure rfl).trans hnone
      refine iff_of_true ?_ rfl
      apply (reaps_iff_answers numbered hkept).mpr
      refine ⟨?_, fun _ hop => by cases hop⟩
      rintro _ _ _ other hop hother
      cases hop
      rw [hcurrent] at hother
      cases hother
      constructor
      · intro hwritten
        cases hwritten
      · intro halone
        exact absurd ((unreaped_iff hnone).mpr child) (halone i)

theorem WaitStep.reaps_iff {y z : WaitSystem} {op : WaitOp}
    (inv : Numbered y.table ∧ Unowned y.table.kernel) (hnone : y.reaped = [])
    (step : WaitStep y op z) : Reaps y op z ↔ WaitsInVain y op := by
  have later := (step.inv inv).1
  obtain ⟨numbered, unowned⟩ := inv
  cases step with
  | table first =>
      rw [reaps_iff_answers later hnone]
      refine iff_of_true ⟨?_, ?_⟩ trivial
      · intro _ _ _ _ hop
        cases hop
      · intro _ hop
        cases hop
  | @sysWait fuel written _ out hcall =>
      rcases sysWait_cases hcall with
        ⟨hcurrent, hout⟩ | ⟨current, hcurrent, ⟨i, hfind, hout⟩ | ⟨t, -, -, hout⟩⟩
      · have hkept := (@reaped_of_failure y written _ (congrArg Waited.result hout)).trans hnone
        rw [reaps_iff_answers later hkept]
        refine iff_of_true ⟨?_, fun _ hop => by cases hop⟩ ?_
        · intro _ _ _ current _ hsome
          rw [hcurrent] at hsome
          cases hsome
        · intro current hsome
          rw [hcurrent] at hsome
          cases hsome
      · obtain ⟨child, hzombie⟩ :=
          zombieChild_isSome unowned (getCurrentProcess_live hcurrent) hfind
        rw [reaps_found_iff numbered hnone hcurrent child hout]
        constructor
        · rintro rfl other hother
          rw [hcurrent] at hother
          cases hother
          exact ⟨⟨i, child⟩, fun hwritten => by cases hwritten⟩
        · intro waits
          by_contra hwritten
          rw [Bool.not_eq_false] at hwritten
          exact (waits current hcurrent).2 hwritten i child hzombie
      · have hkept := (@reaped_of_failure y written _ (congrArg Waited.result hout)).trans hnone
        rw [reaps_iff_answers later hkept]
        have hanswers := @answers_blocked_iff y numbered hnone current written
        subst hout
        constructor
        · rintro ⟨answers, -⟩ other hother
          rw [hcurrent] at hother
          cases hother
          exact hanswers.mp (answers _ _ _ current rfl hcurrent)
        · intro waits
          refine ⟨?_, fun _ hop => by cases hop⟩
          rintro _ _ _ other hop hother
          cases hop
          rw [hcurrent] at hother
          cases hother
          exact hanswers.mpr (waits current hcurrent)
  | resume hcurrent =>
      rw [reaps_iff_answers later hnone]
      constructor
      · rintro ⟨-, resumes⟩ other hother rfl i child
        exact resumes other rfl hother i ((unreaped_iff hnone).mpr child)
      · intro waits
        constructor
        · intro _ _ _ _ hop
          cases hop
        · intro other hop hother i hi
          cases hop
          exact waits other hother rfl i ((unreaped_iff hnone).mp hi)

/-- A step that waits in vain returns nobody. -/
theorem WaitStep.reaped_eq {y z : WaitSystem} {op : WaitOp}
    (inv : Numbered y.table ∧ Unowned y.table.kernel) (step : WaitStep y op z)
    (waits : WaitsInVain y op) : z.reaped = y.reaped := by
  cases step with
  | table first => rfl
  | @sysWait fuel written _ out hcall =>
      rcases sysWait_cases hcall with
        ⟨-, hout⟩ | ⟨current, hcurrent, ⟨i, hfind, hout⟩ | ⟨t, -, -, hout⟩⟩
      · exact reaped_of_failure (congrArg Waited.result hout)
      · obtain ⟨child, hzombie⟩ :=
          zombieChild_isSome inv.2 (getCurrentProcess_live hcurrent) hfind
        cases written with
        | true => exact absurd hzombie ((waits current hcurrent).2 rfl i child)
        | false => exact reaped_of_failure (congrArg Waited.result hout)
      · exact reaped_of_failure (congrArg Waited.result hout)
  | resume => rfl

/-! ### Runs -/

/-- **Children are returned once.** From `init_processes` on, the runs in which each `ZOMBIE`
child is returned by a call of its parent, at most once, its slot free from then on, and in
which a call without children does not block, are the runs in which every caller has a child
to wait for and none that is a `ZOMBIE`. -/
theorem children_reaped_iff {enabled : Bool} {ticks frequency : Nat} {ops : List WaitOp}
    {y : WaitSystem} :
    Run (fun y op z => WaitStep y op z ∧ Reaps y op z)
        ⟨.start enabled ticks frequency, [], []⟩ ops y ↔
      Run (fun y op z => WaitStep y op z ∧ WaitsInVain y op)
        ⟨.start enabled ticks frequency, [], []⟩ ops y :=
  run_good_iff (I := fun y => y.reaped = [])
    (J := fun y => Numbered y.table ∧ Unowned y.table.kernel)
    (fun inv step => step.inv inv) (fun inv hnone step => step.reaps_iff inv hnone)
    (fun inv hnone step waits => (step.reaped_eq inv waits).trans hnone)
    ⟨numbered_start enabled ticks frequency, fun _ _ => rfl⟩ rfl

/-- The child of process 1 exits, and is returned twice; its slot stays taken. -/
theorem child_reaped_twice :
    ∃ x y, Run WaitStep ⟨.start true 0 100, [], []⟩
        [.table (.createProcess [97] 0 0 0), .table (.createProcess [98] 0 1 0),
          .table (.call (.exitProcess 2 0)), .sysWait true 2 false] x ∧
      WaitStep x (.sysWait true 2 false) y ∧ y.reaped = [2, 2] ∧
      (y.table.kernel.processes 1).pid = 2 ∧ (y.table.kernel.processes 1).state = .zombie ∧
      ¬ Reaps x (.sysWait true 2 false) y := by
  let created : Table :=
    (createProcess [98] 0 1 0 (createProcess [97] 0 0 0 (.start true 0 100)).2).2
  have hexit : (exitProcess 3 2 0 created.kernel).map (fun s => (getCurrentProcess s,
      zombieChild (s.processes 0).pid s, (s.processes 1).pid, (s.processes 1).state))
        = some (some 0, some 1, 2, .zombie) := by decide +kernel
  obtain ⟨left, hleft, hvalues⟩ := Option.map_eq_some_iff.mp hexit
  simp only [Prod.mk.injEq] at hvalues
  obtain ⟨hcurrent, hfind, hpid, hzombie⟩ := hvalues
  have hwait : sysWait 0 true left = some ⟨2, false, left⟩ := by
    unfold sysWait
    simp only [hcurrent, hfind, hpid, if_true]
  have wait : ∀ reaped : List Nat,
      WaitStep ⟨{ created with kernel := left }, [], reaped⟩ (.sysWait true 2 false)
        ⟨{ created with kernel := left }, [], reaped ++ [2]⟩ := fun reaped =>
    @WaitStep.sysWait 0 true ⟨{ created with kernel := left }, [], reaped⟩ ⟨2, false, left⟩ hwait
  refine ⟨_, _, .cons (.table .createProcess) (.cons (.table .createProcess)
    (.cons (.table (.call (.exitProcess hleft))) (.single (wait [])))), wait [2], rfl, hpid,
    hzombie, ?_⟩
  intro reaps
  exact reaps.freed 2 (List.mem_cons_self) 1 hpid

end Curnel.Process
