/-
A pipe shared by a process and its child.

Whether an end is open is a field of the pipe, so that a process that closes its end
closes it for everyone. In the usual order of things after a fork, where the child
closes the write end and reads while the parent closes the read end and writes,
every interleaving makes the write fail (`fork_pipe_never_delivers`).

A fork copies no descriptor and touches no pipe: for the pipes it is one of the
things that the rest of the kernel does between two calls.
-/

import Curnel.Pipe.Identity

namespace Curnel.Pipe

open Lib Word

/-! ### Two processes and a pipe -/

inductive Party where
  | parent
  | child
deriving DecidableEq

inductive Act where
  | close (fd : Nat)
  | read (fd count : Nat)
  | write (fd : Nat) (data : List UInt8)
deriving DecidableEq

def Act.run : Act → State → Outcome × State
  | .close fd, s => (.returned (pipeClose fd s).1 [], (pipeClose fd s).2)
  | .read fd count, s => pipeRead fd count s
  | .write fd data, s => pipeWrite fd data s

/-- An act that has returned, with its result and the bytes it has read. -/
structure Returned where
  act : Act
  result : Int
  bytes : List UInt8
deriving DecidableEq

/-- The pipes, and for each process what it has yet to do, the act in which it waits,
and what has returned. -/
structure Race where
  state : State
  todo : Party → List Act
  waiting : Party → Option (Act × Call)
  returned : Party → List Returned

namespace Race

/-- Process `p` has come to the outcome of an act. -/
def settle (r : Race) (p : Party) (act : Act) : Outcome × State → Race
  | (.returned result bytes, s) =>
      { r with state := s
               returned := Function.update r.returned p (r.returned p ++ [⟨act, result, bytes⟩]) }
  | (.waits call, s) =>
      { r with state := s, waiting := Function.update r.waiting p (some (act, call)) }
  | (_, s) => { r with state := s }

/-- Either process does its next act or goes on from where it waits; between two
steps the rest of the kernel does what it likes to the processes. -/
inductive Step : Race → Option Party → Race → Prop where
  | act {r : Race} {p : Party} {act : Act} {rest : List Act} :
      r.todo p = act :: rest → r.waiting p = none →
        Step r (some p) (settle { r with todo := Function.update r.todo p rest } p act
          (act.run r.state))
  | resume {r : Race} {p : Party} {act : Act} {call : Call} :
      r.waiting p = some (act, call) →
        Step r (some p) (settle { r with waiting := Function.update r.waiting p none } p act
          (call.resume r.state))
  | kernel {r : Race} {kernel : Process.State} :
      Step r none { r with state := { r.state with kernel := kernel } }

/-- The child closes the write end, reads, and closes the read end; the parent closes
the read end, writes `m`, and closes the write end. -/
def start (s : State) (readFd writeFd : Nat) (m : List UInt8) (count : Nat) : Race where
  state := s
  todo
    | .parent => [.close readFd, .write writeFd m, .close writeFd]
    | .child => [.close writeFd, .read readFd count, .close readFd]
  waiting _ := none
  returned _ := []

/-- The parent's write returns the length of the message, and the child's read the
message. -/
def Delivers (r : Race) (readFd writeFd : Nat) (m : List UInt8) (count : Nat) : Prop :=
  ⟨.write writeFd m, m.length, []⟩ ∈ r.returned .parent ∧
    ⟨.read readFd count, m.length, m⟩ ∈ r.returned .child

end Race

/-! ### A fresh id -/

/-- The next id is in no slot, and fits into a descriptor. -/
structure Fresh (s : State) : Prop where
  unused : ∀ i, (s.pipes i).id ≠ s.nextPipeId
  pos : 0 < s.nextPipeId
  fits : s.nextPipeId < 2 ^ 61

/-- The ids in use are below the next one, which is at most `n`. -/
structure Numbered (n : Nat) (s : State) : Prop where
  ids_lt : ∀ i, (s.pipes i).id < s.nextPipeId
  next_le : s.nextPipeId ≤ n

theorem Numbered.through {n : Nat} {i : PipeSlot} {fd : Nat} {s s' : State}
    (h : Numbered n s) (through : Through i fd s s') : Numbered (n + 1) s' := by
  refine ⟨fun j => ?_, ?_⟩
  · rw [(identity_eq_iff.mp (through.identity_eq j)).1, through.next_eq]
    exact h.ids_lt j
  · rw [through.next_eq]
    exact Nat.le_succ_of_le h.next_le

theorem Numbered.call {n : Nat} {s s' : State} {op : Op} {new : List Call} (h : Numbered n s)
    (hn : n + 1 < 2 ^ 64) (step : Step ⟨s, []⟩ op ⟨s', new⟩) : Numbered (n + 1) s' := by
  have hnext := h.next_le
  rcases call_cases step with ⟨-, quiet⟩ | ⟨-, i, creates⟩ | ⟨i, fd, -, through, -⟩
  · refine ⟨fun j => ?_, ?_⟩ <;> rw [quiet.next_eq]
    · have hlt := h.ids_lt j
      rcases quiet.id_eq j with heq | ⟨hzero, -⟩ <;> omega
    · omega
  · have hsum : s'.nextPipeId = s.nextPipeId + 1 := by
      rw [creates.next_eq]
      exact wadd_of_lt (by omega)
    refine ⟨fun j => ?_, by omega⟩
    by_cases hj : j = i
    · rw [hj, creates.id_eq]
      omega
    · have hlt := h.ids_lt j
      rw [creates.others j hj]
      omega
  · exact h.through through

theorem Numbered.run {n : Nat} {ops : List Tracked.Op} {s s' : Tracked}
    (run : Run Tracked.Step s ops s') (h : Numbered n s.state) (hn : n + ops.length < 2 ^ 64) :
    Numbered (n + ops.length) s'.state := by
  induction run generalizing n with
  | nil _ => exact h
  | cons first _ ih =>
      rw [List.length_cons] at hn ⊢
      rw [← Nat.succ_add_eq_add_succ]
      refine ih ?_ (by omega)
      cases first with
      | call step => exact h.call (by omega) step
      | resume => exact h.through (through_resume _ _)

/-- While fewer than `2 ^ 61` steps have been taken, the next id is fresh. -/
theorem fresh_of_run {kernel : Process.State} {ops : List Tracked.Op} {s : Tracked}
    (run : Run Tracked.Step ⟨pipeInit kernel, []⟩ ops s) (h : 1 + ops.length < 2 ^ 61) :
    Fresh s.state := by
  have start : Numbered 1 (pipeInit kernel) := ⟨fun _ => Nat.zero_lt_one, Nat.le_refl 1⟩
  have numbered := Numbered.run run start (by omega)
  have hnext := numbered.next_le
  exact ⟨fun i => (numbered.ids_lt i).ne, (Nat.zero_le _).trans_lt (numbered.ids_lt 0), by omega⟩

/-- Slot `i` alone may have id `k`. -/
structure Only (s : State) (i : PipeSlot) (k : Nat) : Prop where
  others : ∀ j ≠ i, (s.pipes j).id ≠ k
  id_eq : (s.pipes i).id = k ∨ (s.pipes i).id = 0

theorem findPipe_eq_none {id : Nat} {s : State} :
    findPipe id s = none ↔ ∀ i, (s.pipes i).id ≠ id := by
  simp [findPipe]

/-- Looking the id up finds the slot, unless the pipe has been released. -/
theorem Only.findPipe {s : State} {i : PipeSlot} {k : Nat} (only : Only s i k) :
    findPipe k s = some i ∧ (s.pipes i).id = k ∨
      findPipe k s = none ∧ (s.pipes i).id = 0 := by
  cases hfind : Pipe.findPipe k s with
  | none =>
      refine .inr ⟨rfl, only.id_eq.resolve_left (findPipe_eq_none.mp hfind i)⟩
  | some j =>
      have hid := findPipe_id hfind
      have hj : j = i := by
        by_contra hne
        exact only.others j hne hid
      subst hj
      exact .inl ⟨rfl, hid⟩

/-- The id is the upper part of both descriptors. -/
theorem fd_shiftRight {k mode : Nat} (hk : k < 2 ^ 61) (hmode : mode < 8) :
    ((k <<< 3) % 2 ^ 64 ||| mode) >>> 3 = k := by
  have hfits : (k <<< 3) % 2 ^ 64 = k * 2 ^ 3 := by
    rw [Nat.shiftLeft_eq]
    exact Nat.mod_eq_of_lt (by omega)
  rw [hfits, lor_low k mode 3 hmode, Nat.shiftRight_eq_div_pow]
  omega

theorem or_and_mode (a b : Nat) : (a ||| b) &&& b = b := by
  apply Nat.eq_of_testBit_eq
  intro i
  cases hb : b.testBit i <;> simp [hb]

/-- Creating a pipe with a fresh id: what its descriptors and its slot are. -/
theorem Fresh.create {s s' : State} {readFd writeFd : Nat} (fresh : Fresh s)
    (h : pipeCreate s = (PIPE_SUCCESS, some (readFd, writeFd), s')) :
    ∃ i, Only s' i s.nextPipeId ∧ (s'.pipes i).dataSize = 0 ∧
      readFd >>> 3 = s.nextPipeId ∧ readFd &&& PIPE_FLAG_READABLE ≠ 0 ∧
      writeFd >>> 3 = s.nextPipeId ∧ writeFd &&& PIPE_FLAG_WRITABLE ≠ 0 := by
  unfold pipeCreate at h
  cases hfind : findPipe 0 s with
  | none =>
      rw [hfind] at h
      cases h
  | some i =>
      rw [hfind] at h
      simp only [Prod.mk.injEq, Option.some.injEq, true_and] at h
      obtain ⟨⟨rfl, rfl⟩, rfl⟩ := h
      refine ⟨i, ⟨fun j hj => ?_, .inl ?_⟩, ?_, fd_shiftRight fresh.fits (by decide), ?_,
        fd_shiftRight fresh.fits (by decide), ?_⟩
      · split <;> simp only [modify_other _ hj, pipes_emit] <;> exact fresh.unused j
      · split <;> simp
      · split <;> simp
      · rw [or_and_mode]
        decide
      · rw [or_and_mode]
        decide

/-! ### The invariant of the race -/

/-- Nothing is ever in the pipe; each process does its acts in order, and once it has
done the first, the end that the other needs is closed. -/
structure Closing (i : PipeSlot) (k readFd writeFd : Nat) (m : List UInt8) (count : Nat)
    (r : Race) : Prop where
  only : Only r.state i k
  empty : (r.state.pipes i).dataSize = 0
  waiting : ∀ p, r.waiting p = none
  parent : r.todo .parent = [.close readFd, .write writeFd m, .close writeFd] ∨
    ((r.state.pipes i).id = k → (r.state.pipes i).readerOpen = false) ∧
      (r.todo .parent = [.write writeFd m, .close writeFd] ∨
        r.todo .parent = [.close writeFd] ∨ r.todo .parent = [])
  child : r.todo .child = [.close writeFd, .read readFd count, .close readFd] ∨
    ((r.state.pipes i).id = k → (r.state.pipes i).writerOpen = false) ∧
      (r.todo .child = [.read readFd count, .close readFd] ∨
        r.todo .child = [.close readFd] ∨ r.todo .child = [])
  written : ∀ x ∈ r.returned .parent, x.act = .write writeFd m → x.result = PIPE_ERROR_CLOSED
  read : ∀ x ∈ r.returned .child, x.act = .read readFd count → x.bytes = [] ∧ x.result ≤ 0

/-- The slot stays with its id or is released, the pipe stays empty, and an end that is
closed stays closed. -/
structure Keeps (i : PipeSlot) (k : Nat) (s s' : State) : Prop where
  only : Only s' i k
  empty : (s'.pipes i).dataSize = 0
  id_eq : (s'.pipes i).id = k → (s.pipes i).id = k
  reader : (s.pipes i).readerOpen = false → (s'.pipes i).readerOpen = false
  writer : (s.pipes i).writerOpen = false → (s'.pipes i).writerOpen = false

/-- Closing an end, by a descriptor of the pipe. -/
theorem Only.close {s : State} {i : PipeSlot} {k fd : Nat} (only : Only s i k) (hk : k ≠ 0)
    (hempty : (s.pipes i).dataSize = 0) (hfd : fd >>> 3 = k) :
    Keeps i k s (pipeClose fd s).2 ∧
      (fd &&& PIPE_FLAG_READABLE ≠ 0 → ((pipeClose fd s).2.pipes i).id = k →
        ((pipeClose fd s).2.pipes i).readerOpen = false) ∧
      (fd &&& PIPE_FLAG_WRITABLE ≠ 0 → ((pipeClose fd s).2.pipes i).id = k →
        ((pipeClose fd s).2.pipes i).writerOpen = false) := by
  unfold pipeClose pipeGetByFd
  rw [hfd]
  rcases only.findPipe with ⟨hfind, hid⟩ | ⟨hfind, hid⟩
  · rw [hfind]
    have hring := ring_closeEnds fd (s.pipes i)
    simp only [ring, Prod.mk.injEq] at hring
    refine ⟨⟨⟨fun j hj => ?_, ?_⟩, ?_, fun _ => hid, fun hclosed => ?_, fun hclosed => ?_⟩,
      fun hmode _ => ?_, fun hmode _ => ?_⟩
    · rw [modify_other _ hj]
      exact only.others j hj
    · rw [modify_same, closeEnds_id]
      split
      · exact .inr rfl
      · exact .inl hid
    · rw [modify_same, hring.2.2.2, hempty]
    · rw [modify_same, closeEnds_readerOpen, hclosed, Bool.false_and]
    · rw [modify_same, closeEnds_writerOpen, hclosed, Bool.false_and]
    · rw [modify_same, closeEnds_readerOpen, decide_eq_false hmode, Bool.and_false]
    · rw [modify_same, closeEnds_writerOpen, decide_eq_false hmode, Bool.and_false]
  · rw [hfind]
    have hno : (s.pipes i).id ≠ k := fun h => hk (h.symm.trans hid)
    exact ⟨⟨only, hempty, fun h => h, fun h => h, fun h => h⟩, fun _ h => absurd h hno,
      fun _ h => absurd h hno⟩

/-- With the read end closed, a write fails. -/
theorem Only.write {s : State} {i : PipeSlot} {k fd : Nat} {data : List UInt8}
    (only : Only s i k) (hfd : fd >>> 3 = k)
    (hclosed : (s.pipes i).id = k → (s.pipes i).readerOpen = false) :
    pipeWrite fd data s = (.returned PIPE_ERROR_CLOSED [], s) := by
  unfold pipeWrite pipeGetByFd
  rw [hfd]
  rcases only.findPipe with ⟨hfind, hid⟩ | ⟨hfind, -⟩
  · rw [hfind]
    dsimp only
    split
    · rfl
    · rw [if_pos (hclosed hid)]
  · rw [hfind]

/-- With the write end closed, a read of an empty pipe returns at once. -/
theorem Only.read {s : State} {i : PipeSlot} {k fd count : Nat}
    (only : Only s i k) (hfd : fd >>> 3 = k) (hempty : (s.pipes i).dataSize = 0)
    (hclosed : (s.pipes i).id = k → (s.pipes i).writerOpen = false) :
    ∃ result ≤ 0, pipeRead fd count s = (.returned result [], s) := by
  unfold pipeRead pipeGetByFd
  rw [hfd]
  rcases only.findPipe with ⟨hfind, hid⟩ | ⟨hfind, -⟩
  · rw [hfind]
    dsimp only
    rw [if_pos hempty, if_pos (hclosed hid)]
    split
    · exact ⟨_, by decide, rfl⟩
    split
    · exact ⟨_, by decide, rfl⟩
    · exact ⟨_, Int.le_refl 0, rfl⟩
  · rw [hfind]
    exact ⟨_, by decide, rfl⟩

/-! ### Every interleaving -/

namespace Closing

variable {i : PipeSlot} {k readFd writeFd count : Nat} {m : List UInt8} {r : Race}

/-- The parent's act has returned. -/
theorem settle_parent (h : Closing i k readFd writeFd m count r) {s : State} {rest : List Act}
    {x : Returned} (keeps : Keeps i k r.state s)
    (hrest : ((s.pipes i).id = k → (s.pipes i).readerOpen = false) ∧
      (rest = [.write writeFd m, .close writeFd] ∨ rest = [.close writeFd] ∨ rest = []))
    (hx : x.act = .write writeFd m → x.result = PIPE_ERROR_CLOSED) :
    Closing i k readFd writeFd m count
      { r with state := s
               todo := Function.update r.todo .parent rest
               returned := Function.update r.returned .parent (r.returned .parent ++ [x]) } := by
  refine ⟨keeps.only, keeps.empty, h.waiting, .inr ?_, ?_, fun y hy => ?_, fun y hy => ?_⟩
  · dsimp only
    rw [Function.update_self]
    exact hrest
  · dsimp only
    rw [Function.update_of_ne (by decide)]
    rcases h.child with hfull | ⟨hclosed, htodo⟩
    · exact .inl hfull
    · exact .inr ⟨fun hid => keeps.writer (hclosed (keeps.id_eq hid)), htodo⟩
  · dsimp only at hy
    rw [Function.update_self] at hy
    rcases List.mem_append.mp hy with hold | hnew
    · exact h.written y hold
    · rw [List.mem_singleton.mp hnew]
      exact hx
  · dsimp only at hy
    rw [Function.update_of_ne (by decide)] at hy
    exact h.read y hy

/-- The child's act has returned. -/
theorem settle_child (h : Closing i k readFd writeFd m count r) {s : State} {rest : List Act}
    {x : Returned} (keeps : Keeps i k r.state s)
    (hrest : ((s.pipes i).id = k → (s.pipes i).writerOpen = false) ∧
      (rest = [.read readFd count, .close readFd] ∨ rest = [.close readFd] ∨ rest = []))
    (hx : x.act = .read readFd count → x.bytes = [] ∧ x.result ≤ 0) :
    Closing i k readFd writeFd m count
      { r with state := s
               todo := Function.update r.todo .child rest
               returned := Function.update r.returned .child (r.returned .child ++ [x]) } := by
  refine ⟨keeps.only, keeps.empty, h.waiting, ?_, .inr ?_, fun y hy => ?_, fun y hy => ?_⟩
  · dsimp only
    rw [Function.update_of_ne (by decide)]
    rcases h.parent with hfull | ⟨hclosed, htodo⟩
    · exact .inl hfull
    · exact .inr ⟨fun hid => keeps.reader (hclosed (keeps.id_eq hid)), htodo⟩
  · dsimp only
    rw [Function.update_self]
    exact hrest
  · dsimp only at hy
    rw [Function.update_of_ne (by decide)] at hy
    exact h.written y hy
  · dsimp only at hy
    rw [Function.update_self] at hy
    rcases List.mem_append.mp hy with hold | hnew
    · exact h.read y hold
    · rw [List.mem_singleton.mp hnew]
      exact hx

theorem act_parent (h : Closing i k readFd writeFd m count r) (hk : k ≠ 0)
    (hread : readFd >>> 3 = k) (hreadable : readFd &&& PIPE_FLAG_READABLE ≠ 0)
    (hwrite : writeFd >>> 3 = k) {act : Act} {rest : List Act}
    (htodo : r.todo .parent = act :: rest) :
    Closing i k readFd writeFd m count
      (Race.settle { r with todo := Function.update r.todo .parent rest } .parent act
        (act.run r.state)) := by
  rcases h.parent with hfull | ⟨hclosed, hfull | hfull | hfull⟩ <;> rw [hfull] at htodo
  · -- the read end is closed
    obtain ⟨rfl, rfl⟩ := List.cons.inj htodo
    obtain ⟨keeps, hreader, -⟩ := h.only.close hk h.empty hread
    exact h.settle_parent keeps ⟨hreader hreadable, .inl rfl⟩ (by simp)
  · obtain ⟨rfl, rfl⟩ := List.cons.inj htodo
    rw [Act.run, h.only.write hwrite hclosed]
    have keeps : Keeps i k r.state r.state := ⟨h.only, h.empty, fun h => h, fun h => h, fun h => h⟩
    exact h.settle_parent keeps ⟨hclosed, .inr (.inl rfl)⟩ (by simp)
  · obtain ⟨rfl, rfl⟩ := List.cons.inj htodo
    obtain ⟨keeps, -, -⟩ := h.only.close hk h.empty hwrite
    exact h.settle_parent keeps
      ⟨fun hid => keeps.reader (hclosed (keeps.id_eq hid)), .inr (.inr rfl)⟩ (by simp)
  · cases htodo

theorem act_child (h : Closing i k readFd writeFd m count r) (hk : k ≠ 0)
    (hread : readFd >>> 3 = k) (hwrite : writeFd >>> 3 = k)
    (hwritable : writeFd &&& PIPE_FLAG_WRITABLE ≠ 0) {act : Act} {rest : List Act}
    (htodo : r.todo .child = act :: rest) :
    Closing i k readFd writeFd m count
      (Race.settle { r with todo := Function.update r.todo .child rest } .child act
        (act.run r.state)) := by
  rcases h.child with hfull | ⟨hclosed, hfull | hfull | hfull⟩ <;> rw [hfull] at htodo
  · -- the write end is closed
    obtain ⟨rfl, rfl⟩ := List.cons.inj htodo
    obtain ⟨keeps, -, hwriter⟩ := h.only.close hk h.empty hwrite
    exact h.settle_child keeps ⟨hwriter hwritable, .inl rfl⟩ (by simp)
  · obtain ⟨rfl, rfl⟩ := List.cons.inj htodo
    obtain ⟨result, hle, hrun⟩ := @Only.read _ _ _ _ count h.only hread h.empty hclosed
    rw [Act.run, hrun]
    have keeps : Keeps i k r.state r.state := ⟨h.only, h.empty, fun h => h, fun h => h, fun h => h⟩
    exact h.settle_child keeps ⟨hclosed, .inr (.inl rfl)⟩ fun _ => ⟨rfl, hle⟩
  · obtain ⟨rfl, rfl⟩ := List.cons.inj htodo
    obtain ⟨keeps, -, -⟩ := h.only.close hk h.empty hread
    exact h.settle_child keeps
      ⟨fun hid => keeps.writer (hclosed (keeps.id_eq hid)), .inr (.inr rfl)⟩ (by simp)
  · cases htodo

theorem kernel (h : Closing i k readFd writeFd m count r) (kernel : Process.State) :
    Closing i k readFd writeFd m count { r with state := { r.state with kernel := kernel } } :=
  ⟨⟨h.only.others, h.only.id_eq⟩, h.empty, h.waiting, h.parent, h.child, h.written, h.read⟩

end Closing

/-- Whatever the message, and in whatever order the two processes take their steps: the
parent's write fails, the child's read returns no byte, and neither ever waits. -/
theorem fork_pipe_never_delivers {s s' : State} {readFd writeFd : Nat} (fresh : Fresh s)
    (hcreate : pipeCreate s = (PIPE_SUCCESS, some (readFd, writeFd), s')) {m : List UInt8}
    {count : Nat} {ls : List (Option Party)} {r : Race}
    (run : Run Race.Step (Race.start s' readFd writeFd m count) ls r) :
    ¬ r.Delivers readFd writeFd m count ∧ (∀ p, r.waiting p = none) ∧
      (∀ x ∈ r.returned .parent, x.act = .write writeFd m → x.result = PIPE_ERROR_CLOSED) ∧
      ∀ x ∈ r.returned .child, x.act = .read readFd count → x.bytes = [] ∧ x.result ≤ 0 := by
  obtain ⟨i, only, hempty, hread, hreadable, hwrite, hwritable⟩ := fresh.create hcreate
  have hk : s.nextPipeId ≠ 0 := Nat.pos_iff_ne_zero.mp fresh.pos
  have begin : Closing i s.nextPipeId readFd writeFd m count
      (Race.start s' readFd writeFd m count) :=
    ⟨only, hempty, fun _ => rfl, .inl rfl, .inl rfl, by simp [Race.start], by simp [Race.start]⟩
  have h : Closing i s.nextPipeId readFd writeFd m count r := by
    refine run.invariant (I := Closing i s.nextPipeId readFd writeFd m count) ?_ begin
    intro r l r' h step
    cases step with
    | @act p act rest htodo hwaiting =>
        cases p with
        | parent => exact h.act_parent hk hread hreadable hwrite htodo
        | child => exact h.act_child hk hread hwrite hwritable htodo
    | @resume p act call hwaiting =>
        rw [h.waiting p] at hwaiting
        cases hwaiting
    | kernel => exact h.kernel _
  refine ⟨fun delivers => ?_, h.waiting, h.written, h.read⟩
  have hresult : ((m.length : Nat) : Int) = PIPE_ERROR_CLOSED := h.written _ delivers.1 rfl
  have : (0 : Int) ≤ m.length := Int.natCast_nonneg _
  unfold PIPE_ERROR_CLOSED at hresult
  omega

/-- The state in which the first process has just created a pipe. -/
def onePipe : State := (pipeCreate (pipeInit Process.initAndChild)).2.2

theorem pipeCreate_onePipe :
    pipeCreate (pipeInit Process.initAndChild) = (PIPE_SUCCESS, some (9, 10), onePipe) :=
  Prod.ext (by decide +kernel) (Prod.ext (by decide +kernel) rfl)

/-- One byte, with the parent's acts before the child's. -/
theorem race_parentFirst :
    ∃ r, Run Race.Step (Race.start onePipe 9 10 [7] 16)
        [some .parent, some .parent, some .parent, some .child, some .child, some .child] r ∧
      (∀ p, r.todo p = []) ∧
      r.returned .parent = [⟨.close 9, 0, []⟩, ⟨.write 10 [7], -3, []⟩, ⟨.close 10, 0, []⟩] := by
  have run : Run Race.Step (Race.start onePipe 9 10 [7] 16)
      [some .parent, some .parent, some .parent, some .child, some .child, some .child] _ :=
    .cons (.act rfl rfl) (.cons (.act rfl rfl) (.cons (.act rfl rfl) (.cons (.act rfl rfl)
      (.cons (.act rfl rfl) (.single (.act rfl rfl))))))
  refine ⟨_, run, ?_, by decide +kernel⟩
  intro p
  cases p <;> rfl

theorem fork_pipe_never_delivers_one_byte :
    ∃ r, Run Race.Step (Race.start onePipe 9 10 [7] 16)
        [some .parent, some .parent, some .parent, some .child, some .child, some .child] r ∧
      ¬ r.Delivers 9 10 [7] 16 := by
  obtain ⟨r, run, -, -⟩ := race_parentFirst
  have fresh : Fresh (pipeInit Process.initAndChild) :=
    ⟨fun _ => Nat.zero_ne_one, by decide, by decide⟩
  exact ⟨r, run, (fork_pipe_never_delivers fresh pipeCreate_onePipe run).1⟩

/-- Both processes have done all they have to do, and the message was not delivered. -/
theorem message_not_delivered :
    ∃ ls r, Run Race.Step (Race.start onePipe 9 10 [7] 16) ls r ∧ (∀ p, r.todo p = []) ∧
      ¬ r.Delivers 9 10 [7] 16 := by
  obtain ⟨r, run, hdone, hreturned⟩ := race_parentFirst
  refine ⟨_, r, run, hdone, fun delivers => ?_⟩
  have hmem := delivers.1
  rw [hreturned] at hmem
  exact absurd hmem (by decide)

end Curnel.Pipe
