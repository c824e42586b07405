/-
Groups and sessions.

Every process starts as the leader of a group and a session of its own, and keeps its
session for good: `sys_setsid` gives it the same one again. So two processes with one group
are in two sessions, and the groups stay sound exactly in the runs in which `sys_setpgid`
leaves every process in the group that it leads (`groups_sound_iff`). It checks nothing:
any process can be put into the group of another, and into a group of nobody
(`group_across_sessions`).
-/

import Curnel.Process.Fork
import Mathlib.Data.Set.Basic

namespace Curnel.Process

open Lib Word

/-! ### Calls -/

/-- `create_session`, whose result is an `int`. -/
def createSession (s : State) : Int × State :=
  match getCurrentProcess s with
  | none => (-1, s)
  | some i =>
      if (s.processes i).pid = (s.processes i).processGroup then (-1, s)
      else
        let t := s.modify i fun p => { p with sessionId := p.pid, processGroup := p.pid }
        (toInt32 (t.processes i).sessionId, t)

def sysSetsid (s : State) : Nat × State :=
  let out := createSession s
  (ofInt out.1, out.2)

/-- The process that `sys_setpgid` is about. -/
def setpgidSlot (pid : Nat) (s : State) : Option Slot :=
  if pid = 0 then getCurrentProcess s else getProcess pid s

/-! ### The system -/

/-- The process table, with the PIDs of the processes that have at some time had that number
as their group. -/
structure Sessions where
  table : Table
  led : Set Nat

/-- The processes that lead their groups. -/
def leaders (t : Table) : Set Nat :=
  { pid | ∃ i, (t.kernel.processes i).pid = pid ∧ pid ≠ 0 ∧
    (t.kernel.processes i).processGroup = pid }

def Sessions.next (y : Sessions) (t : Table) : Sessions := ⟨t, y.led ∪ leaders t⟩

def Sessions.start (enabled : Bool) (ticks frequency : Nat) : Sessions :=
  ⟨.start enabled ticks frequency, ∅⟩

inductive SessionOp where
  | table (op : TableOp)
  | sysSetpgid (pid pgid : Nat)
  | sysSetsid

inductive SessionStep : Sessions → SessionOp → Sessions → Prop where
  | table {y : Sessions} {op : TableOp} {t : Table} :
      TableStep y.table op t → SessionStep y (.table op) (y.next t)
  | sysSetpgid {y : Sessions} {pid pgid : Nat} :
      SessionStep y (.sysSetpgid pid pgid)
        (y.next { y.table with kernel := (sysSetpgid pid pgid y.table.kernel).2 })
  | sysSetsid {y : Sessions} :
      SessionStep y .sysSetsid
        (y.next { y.table with kernel := (sysSetsid y.table.kernel).2 })

/-- A group is in one session, and has or had a leader. -/
structure GroupsSound (y : Sessions) : Prop where
  session : ∀ i j, (y.table.kernel.processes i).pid ≠ 0 → (y.table.kernel.processes j).pid ≠ 0 →
    (y.table.kernel.processes i).processGroup = (y.table.kernel.processes j).processGroup →
      (y.table.kernel.processes i).sessionId = (y.table.kernel.processes j).sessionId
  led : ∀ i, (y.table.kernel.processes i).pid ≠ 0 →
    (y.table.kernel.processes i).processGroup ∈ y.led

/-- A process that calls `sys_setsid` with success is alone in its session and its group. -/
def AloneAfter (y : Sessions) (op : SessionOp) (y' : Sessions) : Prop :=
  op = .sysSetsid → (sysSetsid y.table.kernel).1 ≠ ofInt (-1) →
    ∀ i, getCurrentProcess y.table.kernel = some i → ∀ j, j ≠ i →
      (y'.table.kernel.processes j).pid ≠ 0 →
        (y'.table.kernel.processes j).sessionId ≠ (y'.table.kernel.processes i).sessionId ∧
        (y'.table.kernel.processes j).processGroup ≠ (y'.table.kernel.processes i).processGroup

/-- `sys_setpgid` gives a process its own PID for a group, or finds no process. -/
def OwnGroup (y : Sessions) : SessionOp → Prop
  | .sysSetpgid pid pgid => ∀ i, setpgidSlot pid y.table.kernel = some i →
      pgid = 0 ∨ pgid = (y.table.kernel.processes i).pid
  | _ => True

/-! ### What the calls write -/

/-- `sys_setpgid` writes the group of one process, whatever the group. -/
theorem sysSetpgid_eq {s : State} (unique : UniquePids s) (pid pgid : Nat) :
    (sysSetpgid pid pgid s).2 = match setpgidSlot pid s with
      | none => s
      | some i => s.modify i fun p =>
          { p with processGroup := if pgid = 0 then (s.processes i).pid else pgid } := by
  unfold sysSetpgid setpgidSlot
  by_cases hpid : pid = 0
  · rw [if_pos hpid, if_pos hpid]
    cases hcurrent : getCurrentProcess s with
    | none => rfl
    | some i =>
        dsimp only
        rw [setProcessGroup, getProcess_of_pid unique (getCurrentProcess_live hcurrent)]
  · rw [if_neg hpid, if_neg hpid]
    dsimp only
    rw [setProcessGroup]
    cases hfind : getProcess pid s with
    | none => rfl
    | some i =>
        dsimp only
        rw [getProcess_pid hfind]

/-- `sys_setsid` of a group leader fails. -/
theorem sysSetsid_leader {s : State}
    (h : ∀ i, getCurrentProcess s = some i → (s.processes i).pid = (s.processes i).processGroup) :
    sysSetsid s = (ofInt (-1), s) := by
  unfold sysSetsid createSession
  cases hcurrent : getCurrentProcess s with
  | none => rfl
  | some i =>
      dsimp only
      rw [if_pos (h i hcurrent)]

theorem setpgidSlot_live {pid : Nat} {s : State} {i : Slot} (h : setpgidSlot pid s = some i) :
    (s.processes i).pid ≠ 0 := by
  unfold setpgidSlot at h
  split at h
  next => exact getCurrentProcess_live h
  next hpid =>
    rw [getProcess_pid h]
    exact hpid

/-! ### What the steps of the table write -/

/-- A process keeps its PID, group and session, and a new one has its PID for all three. -/
theorem TableStep.slots {t t' : Table} {op : TableOp} (numbered : Numbered t)
    (step : TableStep t op t') (j : Slot) :
    ((t'.kernel.processes j).pid = (t.kernel.processes j).pid ∧
        (t'.kernel.processes j).processGroup = (t.kernel.processes j).processGroup ∧
        (t'.kernel.processes j).sessionId = (t.kernel.processes j).sessionId) ∨
      (t.kernel.processes j).pid = 0 ∧
        (t'.kernel.processes j).processGroup = (t'.kernel.processes j).pid ∧
        (t'.kernel.processes j).sessionId = (t'.kernel.processes j).pid := by
  cases step with
  | @createProcess name entryPoint parentPid stack =>
      rw [Process.createProcess]
      cases hfree : getProcess 0 t.kernel with
      | none => exact Or.inl ⟨rfl, rfl, rfl⟩
      | some i =>
          by_cases hj : j = i
          · refine Or.inr ⟨hj ▸ getProcess_pid hfree, ?_⟩
            simp only [Table.created, hj, modify_same, newProcess, and_self]
          · simp only [Table.created, modify_other _ hj, and_self, true_or]
  | @sysFork stack =>
      rcases sysFork_cases numbered.fresh stack with ⟨-, hrun⟩ | ⟨current, i, -, hfree, -, hrun⟩
      · rw [hrun]
        exact Or.inl ⟨rfl, rfl, rfl⟩
      · rw [hrun]
        by_cases hj : j = i
        · refine Or.inr ⟨hj ▸ getProcess_pid hfree, ?_⟩
          simp only [Table.forked, hj, modify_same, inheritSignals, newProcess, and_self]
        · simp only [Table.forked, modify_other _ hj, and_self, true_or]
  | call h =>
      have hlasting := h.evolves.lasting j
      exact Or.inl ⟨congrArg Lasting.pid hlasting, congrArg Lasting.processGroup hlasting,
        congrArg Lasting.sessionId hlasting⟩

/-! ### Sessions -/

/-- Every process has its own PID for a session, and who has led a group is there. -/
structure OwnSessions (y : Sessions) : Prop where
  numbered : Numbered y.table
  session : ∀ i, (y.table.kernel.processes i).pid ≠ 0 →
    (y.table.kernel.processes i).sessionId = (y.table.kernel.processes i).pid
  led : ∀ pid ∈ y.led, pid ≠ 0 ∧ ∃ i, (y.table.kernel.processes i).pid = pid

/-- Every process leads its group. -/
def OwnGroups (y : Sessions) : Prop :=
  ∀ i, (y.table.kernel.processes i).pid ≠ 0 →
    (y.table.kernel.processes i).processGroup = (y.table.kernel.processes i).pid

namespace OwnSessions

variable {y : Sessions} (own : OwnSessions y)
include own

theorem next {t : Table} (numbered : Numbered t)
    (hsession : ∀ i, (t.kernel.processes i).pid ≠ 0 →
      (t.kernel.processes i).sessionId = (t.kernel.processes i).pid)
    (hpid : ∀ i, (y.table.kernel.processes i).pid ≠ 0 →
      (t.kernel.processes i).pid = (y.table.kernel.processes i).pid) :
    OwnSessions (y.next t) := by
  refine ⟨numbered, hsession, ?_⟩
  rintro pid (hled | ⟨i, hi, hlive, -⟩)
  · obtain ⟨hlive, i, hi⟩ := own.led pid hled
    refine ⟨hlive, i, ?_⟩
    have hkept := hpid i (hi ▸ hlive)
    exact hkept.trans hi
  · exact ⟨hlive, i, hi⟩

/-- A change of one process that leaves it its PID, and its session if that is its PID. -/
theorem modify (i : Slot) {f : Process → Process} (hpid : ∀ p, (f p).pid = p.pid)
    (hexit : ∀ p, (f p).exitSignal = p.exitSignal)
    (hsession : ∀ p, p.sessionId = p.pid → (f p).sessionId = p.pid) :
    OwnSessions (y.next { y.table with kernel := y.table.kernel.modify i f }) := by
  have hpids := modify_congr (i := i) Process.pid (hpid (y.table.kernel.processes i))
  have hexits := modify_congr (i := i) Process.exitSignal (hexit (y.table.kernel.processes i))
  apply own.next
  · exact ⟨own.numbered.pos, own.numbered.le, fun j => (hpids j).trans (own.numbered.pid j),
      fun j => (hexits j).trans (own.numbered.exitSignal j)⟩
  · intro j hlive
    dsimp only at hlive ⊢
    rw [hpids j] at hlive ⊢
    have hown := own.session j hlive
    by_cases hj : j = i
    · subst hj
      rw [modify_same]
      exact hsession _ hown
    · rw [modify_other f hj]
      exact hown
  · exact fun j _ => hpids j

theorem same : OwnSessions (y.next y.table) :=
  own.next own.numbered own.session fun _ _ => rfl

theorem step {y' : Sessions} {op : SessionOp} (step : SessionStep y op y') : OwnSessions y' := by
  cases step with
  | table h =>
      have slots := h.slots own.numbered
      apply own.next (h.numbered own.numbered)
      · intro i hlive
        rcases slots i with ⟨hpid, -, hsession⟩ | ⟨-, -, hsession⟩
        · rw [hpid] at hlive ⊢
          rw [hsession]
          exact own.session i hlive
        · exact hsession
      · intro i hlive
        rcases slots i with ⟨hpid, -, -⟩ | ⟨hfree, -, -⟩
        · exact hpid
        · exact absurd hfree hlive
  | @sysSetpgid pid pgid =>
      rw [sysSetpgid_eq own.numbered.wellFormed.uniquePids]
      cases setpgidSlot pid y.table.kernel with
      | none => exact own.same
      | some i => exact own.modify i (fun _ => rfl) (fun _ => rfl) fun _ h => h
  | sysSetsid =>
      unfold sysSetsid createSession
      cases getCurrentProcess y.table.kernel with
      | none => exact own.same
      | some i =>
          dsimp only
          split
          · exact own.same
          · exact own.modify i (f := fun p => { p with sessionId := p.pid, processGroup := p.pid })
              (fun _ => rfl) (fun _ => rfl) fun _ _ => rfl

end OwnSessions

/-! ### Groups -/

/-- Where every process leads its group, groups are sound. -/
theorem OwnSessions.groupsSound {y : Sessions} {t : Table} (own : OwnSessions (y.next t))
    (groups : OwnGroups (y.next t)) : GroupsSound (y.next t) := by
  constructor
  · intro i j hi hj hsame
    rw [groups i hi, groups j hj] at hsame
    rw [own.session i hi, own.session j hj, hsame]
  · intro i hi
    exact Or.inr ⟨i, (groups i hi).symm, groups i hi ▸ hi, rfl⟩

theorem OwnGroups.step {y y' : Sessions} {op : SessionOp} (own : OwnSessions y)
    (groups : OwnGroups y) (step : SessionStep y op y') (guard : OwnGroup y op) :
    OwnGroups y' := by
  cases step with
  | table h =>
      intro i hlive
      rcases h.slots own.numbered i with ⟨hpid, hgroup, -⟩ | ⟨-, hgroup, -⟩
      · dsimp only [Sessions.next] at hlive ⊢
        rw [hpid] at hlive ⊢
        rw [hgroup]
        exact groups i hlive
      · exact hgroup
  | @sysSetpgid pid pgid =>
      rw [sysSetpgid_eq own.numbered.wellFormed.uniquePids]
      cases hslot : setpgidSlot pid y.table.kernel with
      | none => exact groups
      | some i =>
          intro j hlive
          dsimp only [Sessions.next] at hlive ⊢
          by_cases hj : j = i
          · subst hj
            rw [modify_same]
            dsimp only
            rcases guard j hslot with hzero | hpid
            · rw [if_pos hzero]
            · rw [hpid]
              exact ite_self _
          · rw [modify_other _ hj] at hlive ⊢
            exact groups j hlive
  | sysSetsid =>
      rw [sysSetsid_leader fun i hcurrent => (groups i (getCurrentProcess_live hcurrent)).symm]
      exact groups

/-- Where every process leads its group, a step leaves the groups sound if and only if it
leaves every process its group. -/
theorem SessionStep.sound_iff {y y' : Sessions} {op : SessionOp} (own : OwnSessions y)
    (groups : OwnGroups y) (step : SessionStep y op y') :
    GroupsSound y' ∧ AloneAfter y op y' ↔ OwnGroup y op := by
  have own' := own.step step
  constructor
  · rintro ⟨sound, -⟩
    cases step with
    | table => trivial
    | sysSetsid => trivial
    | @sysSetpgid pid pgid =>
        intro i hslot
        by_contra hother
        obtain ⟨hzero, hne⟩ := not_or.mp hother
        have hlive := setpgidSlot_live hslot
        have hcall := sysSetpgid_eq own.numbered.wellFormed.uniquePids pid pgid
        rw [hslot] at hcall
        dsimp only at hcall
        rw [if_neg hzero] at hcall
        rw [hcall] at sound own'
        let u := y.table.kernel.modify i fun p => { p with processGroup := pgid }
        change GroupsSound (y.next { y.table with kernel := u }) at sound
        change OwnSessions (y.next { y.table with kernel := u }) at own'
        have hpids : ∀ k, (u.processes k).pid = (y.table.kernel.processes k).pid :=
          modify_congr Process.pid rfl
        have hgroup : (u.processes i).processGroup = pgid := by rw [modify_same]
        have hlive' : (u.processes i).pid ≠ 0 := (hpids i).symm ▸ hlive
        -- the group has or had a leader, which is still in it, and in a session of its own
        obtain ⟨-, j, hj⟩ := own'.led pgid (hgroup ▸ sound.led i hlive')
        change (u.processes j).pid = pgid at hj
        have hj' : (u.processes j).pid ≠ 0 := hj ▸ hzero
        have hji : j ≠ i := by
          rintro rfl
          exact hne (hj.symm.trans (hpids j))
        have hsame : (u.processes i).processGroup = (u.processes j).processGroup := by
          have hother : u.processes j = y.table.kernel.processes j := modify_other _ hji
          rw [hgroup, ← hj, hother]
          exact (groups j (hother ▸ hj')).symm
        have hsession := sound.session i j hlive' hj' hsame
        have hi := own'.session i hlive'
        have hj := own'.session j hj'
        have hpid := hi.symm.trans (hsession.trans hj)
        exact hji (own'.numbered.wellFormed.uniquePids i j hlive' hpid).symm
  · intro guard
    have groups' := groups.step own step guard
    have sound : GroupsSound y' := by
      cases step with
      | table => exact own'.groupsSound groups'
      | sysSetpgid => exact own'.groupsSound groups'
      | sysSetsid => exact own'.groupsSound groups'
    refine ⟨sound, ?_⟩
    rintro rfl hsuccess
    rw [sysSetsid_leader fun i hcurrent => (groups i (getCurrentProcess_live hcurrent)).symm]
      at hsuccess
    exact absurd rfl hsuccess

/-! ### Runs -/

theorem ownSessions_start (enabled : Bool) (ticks frequency : Nat) :
    OwnSessions (.start enabled ticks frequency) :=
  ⟨numbered_start enabled ticks frequency, fun _ _ => rfl, fun _ hled => hled.elim⟩

/-- From `init_processes` on, the runs in which groups stay in one session and have had
leaders, and `sys_setsid` leaves its caller alone, are the runs in which `sys_setpgid`
gives no process another group than its own. -/
theorem groups_sound_iff {enabled : Bool} {ticks frequency : Nat} {ops : List SessionOp}
    {y : Sessions} :
    Run (fun y op y' => SessionStep y op y' ∧ GroupsSound y' ∧ AloneAfter y op y')
        (.start enabled ticks frequency) ops y ↔
      Run (fun y op y' => SessionStep y op y' ∧ OwnGroup y op)
        (.start enabled ticks frequency) ops y :=
  @run_good_iff _ _ SessionStep (fun y op y' => GroupsSound y' ∧ AloneAfter y op y')
    (fun y op _ => OwnGroup y op) OwnGroups OwnSessions (fun own step => own.step step)
    (fun own groups step => step.sound_iff own groups)
    (fun own groups step guard => groups.step own step guard)
    _ _ _ (ownSessions_start enabled ticks frequency) fun _ hlive => absurd rfl hlive

/-- Process 2 is put into the group of process 1, which is in another session, and then into
a group of nobody. -/
theorem group_across_sessions :
    ∃ y y', Run SessionStep (.start true 0 100)
        [.table (.createProcess [] 0 0 0), .table (.createProcess [] 0 1 0), .sysSetpgid 2 1] y ∧
      (y.table.kernel.processes 0).processGroup = 1 ∧
      (y.table.kernel.processes 0).sessionId = 1 ∧
      (y.table.kernel.processes 1).processGroup = 1 ∧
      (y.table.kernel.processes 1).sessionId = 2 ∧ ¬ GroupsSound y ∧
      SessionStep y (.sysSetpgid 2 7) y' ∧
      (y'.table.kernel.processes 1).processGroup = 7 ∧
      (∀ i, (y'.table.kernel.processes i).pid ≠ 7) ∧ ¬ GroupsSound y' := by
  have run : Run SessionStep (.start true 0 100)
      [.table (.createProcess [] 0 0 0), .table (.createProcess [] 0 1 0), .sysSetpgid 2 1] _ :=
    .cons (.table .createProcess) (.cons (.table .createProcess) (.single .sysSetpgid))
  let created : Table := (createProcess [] 0 1 0 (createProcess [] 0 0 0 (.start true 0 100)).2).2
  let first : State := (sysSetpgid 2 1 created.kernel).2
  let second : State := (sysSetpgid 2 7 first).2
  have hfirst : (first.processes 0).pid ≠ 0 ∧ (first.processes 1).pid ≠ 0 ∧
      (first.processes 0).processGroup = 1 ∧ (first.processes 0).sessionId = 1 ∧
      (first.processes 1).processGroup = 1 ∧ (first.processes 1).sessionId = 2 := by
    decide +kernel
  have hsecond : (second.processes 1).pid ≠ 0 ∧ (second.processes 1).processGroup = 7 ∧
      ∀ i, (second.processes i).pid ≠ 7 := by decide +kernel
  obtain ⟨hlive₀, hlive₁, hgroup₀, hsession₀, hgroup₁, hsession₁⟩ := hfirst
  obtain ⟨hlive, hgroup, hnobody⟩ := hsecond
  have longer := run.append (.single (@SessionStep.sysSetpgid _ 2 7))
  have own := longer.invariant (I := OwnSessions) (fun own step => own.step step)
    (ownSessions_start true 0 100)
  refine ⟨_, _, run, hgroup₀, hsession₀, hgroup₁, hsession₁, fun sound => ?_, .sysSetpgid, hgroup,
    hnobody, fun sound => ?_⟩
  · have hsame := sound.session 0 1 hlive₀ hlive₁ (hgroup₀.trans hgroup₁.symm)
    exact absurd (hsession₀.symm.trans (hsame.trans hsession₁)) (by decide)
  · obtain ⟨-, i, hi⟩ := own.led 7 (hgroup ▸ sound.led 1 hlive)
    exact hnobody i hi

end Curnel.Process
