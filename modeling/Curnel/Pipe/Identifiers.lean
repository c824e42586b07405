/-
The ids of pipes.

`pipe_create` numbers the pipes, and a descriptor is the number of its pipe with three bits
behind it. While the numbers fit those descriptors, a slot that is given to another pipe
gets another number (`Numbers`), and no number comes back: a call on a descriptor of a
pipe that has been released finds nothing (`descriptors_stay_stale`).
-/

import Curnel.Pipe.Identity

namespace Curnel.Pipe

open Lib Word

/-! ### What is expected of the ids -/

def Op.isCreate : Op → Bool
  | .pipeCreate => true
  | _ => false

/-- How many calls of `pipe_create` there are. -/
def creates (ops : List Op) : Nat := ops.countP Op.isCreate

structure Numbers (s : State) : Prop where
  distinct : ∀ i j, (s.pipes i).id ≠ 0 → (s.pipes i).id = (s.pipes j).id → i = j
  id_lt : ∀ i, (s.pipes i).id < s.nextPipeId
  free_iff : ∀ i, (s.pipes i).id = 0 ↔ Closed (s.pipes i) ∨ .created i ∉ s.log

/-- No slot holds the pipe with that id. -/
def Released (id : Nat) (s : State) : Prop := ∀ i, (s.pipes i).id ≠ id

/-- A call on the descriptor is refused, and changes nothing. -/
structure Stale (fd : Nat) (s : State) : Prop where
  read : ∀ count, pipeRead fd count s = (.returned PIPE_ERROR_CLOSED [], s)
  write : ∀ data, pipeWrite fd data s = (.returned PIPE_ERROR_CLOSED [], s)
  close : pipeClose fd s = (PIPE_ERROR_CLOSED, s)
  setFlags : ∀ flags, pipeSetFlags fd flags s = (PIPE_ERROR_CLOSED, s)

/-! ### What a step does to the ids -/

/-- Every slot keeps its id and its ends. -/
structure KeepsIds (s s' : State) : Prop where
  identity_eq : ∀ i, identity (s'.pipes i) = identity (s.pipes i)
  next_eq : s'.nextPipeId = s.nextPipeId
  created_iff : ∀ i, .created i ∈ s'.log ↔ .created i ∈ s.log

/-- Ends of the pipe in slot `i` are closed. -/
structure Closes (i : PipeSlot) (s s' : State) : Prop where
  others : ∀ j ≠ i, s'.pipes j = s.pipes j
  next_eq : s'.nextPipeId = s.nextPipeId
  log_eq : s'.log = s.log
  stays : Closed (s.pipes i) → Closed (s'.pipes i)
  released : Closed (s'.pipes i) → (s'.pipes i).id = 0
  kept : ¬ Closed (s'.pipes i) → (s'.pipes i).id = (s.pipes i).id

theorem KeepsIds.refl (s : State) : KeepsIds s s := ⟨fun _ => rfl, rfl, fun _ => Iff.rfl⟩

theorem KeepsIds.of_through {i : PipeSlot} {fd : Nat} {s s' : State} (h : Through i fd s s') :
    KeepsIds s s' := by
  obtain ⟨es, hlog, hes⟩ := h.events
  refine ⟨h.identity_eq, h.next_eq, fun j => ?_⟩
  have hnone : .created j ∉ es := fun hmem => hes _ hmem
  rw [hlog, List.mem_append, or_iff_left hnone]

theorem pipeClose_closes (fd : Nat) (s : State) :
    (pipeClose fd s).2 = s ∨ ∃ i, Closes i s (pipeClose fd s).2 := by
  unfold pipeClose
  split
  · exact .inl rfl
  next i _ =>
    refine .inr ⟨i, fun j hj => modify_other _ hj, rfl, rfl, ?_, ?_, ?_⟩
    · rintro ⟨hreader, hwriter⟩
      simp [Closed, hreader, hwriter]
    · intro hclosed
      rw [modify_same] at hclosed ⊢
      rw [closeEnds_id]
      exact if_pos hclosed
    · intro hopen
      rw [modify_same] at hopen ⊢
      rw [closeEnds_id]
      exact if_neg hopen

theorem pipeSetFlags_keeps (fd : Nat) (flags : BitVec 8) (s : State) :
    KeepsIds s (pipeSetFlags fd flags s).2 := by
  unfold pipeSetFlags
  split
  · exact .refl s
  next i _ =>
    dsimp only
    have through : Through i fd s (s.modify i fun p => { p with flags :=
        (p.flags &&& ~~~ PIPE_FLAG_NONBLOCK) ||| (flags &&& PIPE_FLAG_NONBLOCK) }) :=
      .of_modify rfl
    exact .of_through through

/-- A step keeps the ids, or closes ends of one pipe, or creates one. -/
theorem Step.numbers_cases {s s' : System} {op : Op} (step : Step s op s') :
    KeepsIds s.state s'.state ∨ (∃ i, Closes i s.state s'.state) ∨
      op = .pipeCreate ∧ ∃ i, Creates i s.state s'.state := by
  cases step with
  | @pipeCreate s =>
      rcases pipeCreate_cases s with ⟨-, hsame⟩ | ⟨i, -, created⟩
      · rw [hsame]
        exact .inl (.refl s)
      · exact .inr (.inr ⟨rfl, i, created⟩)
  | @pipeClose s w fd =>
      rcases pipeClose_closes fd s with hsame | closes
      · rw [hsame]
        exact .inl (.refl s)
      · exact .inr (.inl closes)
  | pipeSetFlags => exact .inl (pipeSetFlags_keeps ..)
  | @pipeRead s w fd count =>
      rcases pipeRead_through fd count s with ⟨hsame, -⟩ | ⟨i, -, through, -⟩
      · rw [hsame]
        exact .inl (.refl s)
      · exact .inl (.of_through through)
  | @pipeWrite s w fd data =>
      rcases pipeWrite_through fd data s with ⟨hsame, -⟩ | ⟨i, -, through, -⟩
      · rw [hsame]
        exact .inl (.refl s)
      · exact .inl (.of_through through)
  | resume => exact .inl (.of_through (through_resume ..))
  | kernel => exact .inl ⟨fun _ => rfl, rfl, fun _ => Iff.rfl⟩

/-! ### The invariant -/

/-- The ids, when `n` pipes have been asked for. -/
structure Issued (n : Nat) (s : State) : Prop where
  numbers : Numbers s
  next_pos : 0 < s.nextPipeId
  next_le : s.nextPipeId ≤ n + 1

theorem issued_pipeInit (kernel : Process.State) : Issued 0 (pipeInit kernel) := by
  refine ⟨⟨fun i j hne _ => absurd rfl hne, fun i => Nat.one_pos, fun i => ?_⟩, Nat.one_pos,
    Nat.le_refl _⟩
  exact ⟨fun _ => .inl ⟨rfl, rfl⟩, fun _ => rfl⟩

section Issued

variable {n : Nat} {s s' : State}

theorem Issued.mono {m : Nat} (h : Issued n s) (hle : n ≤ m) : Issued m s :=
  ⟨h.numbers, h.next_pos, h.next_le.trans (Nat.succ_le_succ hle)⟩

theorem Issued.keeps (h : Issued n s) (keeps : KeepsIds s s') : Issued n s' := by
  have hid : ∀ i, (s'.pipes i).id = (s.pipes i).id :=
    fun i => (identity_eq_iff.mp (keeps.identity_eq i)).1
  refine ⟨⟨fun i j => ?_, fun i => ?_, fun i => ?_⟩, ?_, ?_⟩
  · rw [hid i, hid j]
    exact h.numbers.distinct i j
  · rw [hid i, keeps.next_eq]
    exact h.numbers.id_lt i
  · obtain ⟨-, hreader, hwriter⟩ := identity_eq_iff.mp (keeps.identity_eq i)
    have hclosed : Closed (s'.pipes i) ↔ Closed (s.pipes i) := by
      rw [Closed, Closed, hreader, hwriter]
    rw [hid i, hclosed, keeps.created_iff]
    exact h.numbers.free_iff i
  · rw [keeps.next_eq]
    exact h.next_pos
  · rw [keeps.next_eq]
    exact h.next_le

theorem Closes.id_cases {i : PipeSlot} (closes : Closes i s s') (j : PipeSlot) :
    (s'.pipes j).id = (s.pipes j).id ∨ (s'.pipes j).id = 0 := by
  by_cases hj : j = i
  · subst hj
    by_cases hclosed : Closed (s'.pipes j)
    · exact .inr (closes.released hclosed)
    · exact .inl (closes.kept hclosed)
  · rw [closes.others j hj]
    exact .inl rfl

theorem Issued.closes {i : PipeSlot} (h : Issued n s) (closes : Closes i s s') :
    Issued n s' := by
  refine ⟨⟨fun j k hne heq => ?_, fun j => ?_, fun j => ?_⟩, ?_, ?_⟩
  · have hj := (closes.id_cases j).resolve_right hne
    have hk := (closes.id_cases k).resolve_right (heq ▸ hne)
    rw [hj] at hne heq
    exact h.numbers.distinct j k hne (heq.trans hk)
  · have hpos := h.next_pos
    have hlt := h.numbers.id_lt j
    rw [closes.next_eq]
    rcases closes.id_cases j with hsame | hzero
    · rwa [hsame]
    · rwa [hzero]
  · rw [closes.log_eq]
    by_cases hj : j = i
    · subst hj
      by_cases hclosed : Closed (s'.pipes j)
      · exact ⟨fun _ => .inl hclosed, fun _ => closes.released hclosed⟩
      · rw [closes.kept hclosed, h.numbers.free_iff j]
        have hopen : ¬ Closed (s.pipes j) := fun hbefore => hclosed (closes.stays hbefore)
        rw [or_iff_right hopen, or_iff_right hclosed]
    · rw [closes.others j hj]
      exact h.numbers.free_iff j
  · rw [closes.next_eq]
    exact h.next_pos
  · rw [closes.next_eq]
    exact h.next_le

theorem Creates.next_succ {i : PipeSlot} (created : Creates i s s') (h : Issued n s)
    (hfew : n + 1 < 2 ^ 61) : s'.nextPipeId = s.nextPipeId + 1 := by
  rw [created.next_eq]
  exact wadd_of_lt (by have hle := h.next_le; omega)

theorem Issued.creates {i : PipeSlot} (h : Issued n s) (created : Creates i s s')
    (hfew : n + 1 < 2 ^ 61) : Issued (n + 1) s' := by
  have hnext := created.next_succ h hfew
  have hold : ∀ j, j ≠ i → (s'.pipes j).id < s.nextPipeId := fun j hj => by
    rw [created.others j hj]
    exact h.numbers.id_lt j
  have hpos := h.next_pos
  have hle := h.next_le
  refine ⟨⟨fun j k hne heq => ?_, fun j => ?_, fun j => ?_⟩, by omega, by omega⟩
  · by_cases hj : j = i
    · by_cases hk : k = i
      · rw [hj, hk]
      · have hlt := hold k hk
        rw [← heq, hj, created.id_eq] at hlt
        exact absurd hlt (Nat.lt_irrefl _)
    · by_cases hk : k = i
      · have hlt := hold j hj
        rw [heq, hk, created.id_eq] at hlt
        exact absurd hlt (Nat.lt_irrefl _)
      · rw [created.others j hj] at hne heq
        rw [created.others k hk] at heq
        exact h.numbers.distinct j k hne heq
  · by_cases hj : j = i
    · rw [hj, created.id_eq]
      omega
    · have hlt := hold j hj
      omega
  · by_cases hj : j = i
    · have hopen : ¬ Closed (s'.pipes j) := by
        rintro ⟨hreader, -⟩
        rw [hj, created.readerOpen] at hreader
        cases hreader
      have hlogged : .created j ∈ s'.log := by
        rw [created.log_eq, hj]
        exact List.mem_append_right _ (List.mem_singleton_self _)
      rw [hj, created.id_eq, ← hj]
      constructor
      · intro hzero
        omega
      · rintro (hclosed | hnever)
        · exact absurd hclosed hopen
        · exact absurd hlogged hnever
    · have hlogged : .created j ∈ s'.log ↔ .created j ∈ s.log := by
        rw [created.log_eq, List.mem_append, or_iff_left]
        simp [hj]
      rw [created.others j hj, hlogged]
      exact h.numbers.free_iff j

end Issued

theorem creates_append (ops ops' : List Op) :
    creates (ops ++ ops') = creates ops + creates ops' := List.countP_append

theorem creates_cons (op : Op) (ops : List Op) :
    creates (op :: ops) = creates [op] + creates ops := creates_append [op] ops

theorem Step.issued {n : Nat} {s s' : System} {op : Op} (step : Step s op s')
    (h : Issued n s.state) (hfew : n + creates [op] < 2 ^ 61) :
    Issued (n + creates [op]) s'.state := by
  rcases step.numbers_cases with keeps | ⟨i, closes⟩ | ⟨rfl, i, created⟩
  · exact (h.keeps keeps).mono (Nat.le_add_right _ _)
  · exact (h.closes closes).mono (Nat.le_add_right _ _)
  · exact h.creates created hfew

/-- Numbers only go up. -/
theorem Step.next_le {n : Nat} {s s' : System} {op : Op} (step : Step s op s')
    (h : Issued n s.state) (hfew : n + creates [op] < 2 ^ 61) :
    s.state.nextPipeId ≤ s'.state.nextPipeId := by
  rcases step.numbers_cases with keeps | ⟨i, closes⟩ | ⟨rfl, i, created⟩
  · exact keeps.next_eq.ge
  · exact closes.next_eq.ge
  · have hnext := created.next_succ h hfew
    omega

/-- A number that has been given and is held by no slot is not given again. -/
theorem Step.stays_released {k : Nat} {s s' : System} {op : Op} (step : Step s op s')
    (hpos : 0 < k) (hgiven : k < s.state.nextPipeId) (released : Released k s.state) :
    Released k s'.state := by
  intro j
  rcases step.numbers_cases with keeps | ⟨i, closes⟩ | ⟨rfl, i, created⟩
  · rw [(identity_eq_iff.mp (keeps.identity_eq j)).1]
    exact released j
  · rcases closes.id_cases j with hsame | hzero
    · rw [hsame]
      exact released j
    · rw [hzero]
      exact hpos.ne
  · by_cases hj : j = i
    · rw [hj, created.id_eq]
      exact hgiven.ne'
    · rw [created.others j hj]
      exact released j

/-! ### Runs -/

section Runs

variable {n k : Nat} {s s' : System} {ops : List Op}

theorem run_issued (run : Run Step s ops s') (h : Issued n s.state)
    (hfew : n + creates ops < 2 ^ 61) : Issued (n + creates ops) s'.state := by
  induction run generalizing n with
  | nil _ => exact h
  | @cons s t u op ops first _ ih =>
      rw [creates_cons] at hfew ⊢
      rw [← Nat.add_assoc] at hfew ⊢
      exact ih (first.issued h (by omega)) hfew

theorem run_next_le (run : Run Step s ops s') (h : Issued n s.state)
    (hfew : n + creates ops < 2 ^ 61) : s.state.nextPipeId ≤ s'.state.nextPipeId := by
  induction run generalizing n with
  | nil _ => exact Nat.le_refl _
  | @cons s t u op ops first _ ih =>
      rw [creates_cons, ← Nat.add_assoc] at hfew
      have hone : n + creates [op] < 2 ^ 61 := by omega
      exact (first.next_le h hone).trans (ih (first.issued h hone) hfew)

theorem run_stays_released (run : Run Step s ops s') (h : Issued n s.state)
    (hfew : n + creates ops < 2 ^ 61) (hpos : 0 < k) (hgiven : k < s.state.nextPipeId)
    (released : Released k s.state) : Released k s'.state := by
  induction run generalizing n with
  | nil _ => exact released
  | @cons s t u op ops first _ ih =>
      rw [creates_cons, ← Nat.add_assoc] at hfew
      have hone : n + creates [op] < 2 ^ 61 := by omega
      have hgiven' := hgiven.trans_le (first.next_le h hone)
      have released' := first.stays_released hpos hgiven released
      exact ih (first.issued h hone) hfew hgiven' released'

end Runs

/-! ### Descriptors -/

theorem findPipe_none {id : Nat} {s : State} (released : Released id s) : findPipe id s = none := by
  unfold findPipe
  rw [List.find?_eq_none]
  intro i _ hid
  exact released i (by simpa using hid)

theorem Stale.of_released {fd : Nat} {s : State} (released : Released (fd >>> 3) s) :
    Stale fd s := by
  have hnone : pipeGetByFd fd s = none := findPipe_none released
  constructor
  · intro count
    rw [pipeRead, hnone]
  · intro data
    rw [pipeWrite, hnone]
  · rw [pipeClose, hnone]
  · intro flags
    rw [pipeSetFlags, hnone]

/-- Three bits hold the mode, and the others the id. -/
theorem descriptor_id {id mode : Nat} (hid : id < 2 ^ 61) (hmode : mode < 2 ^ 3) :
    ((id <<< 3) % 2 ^ 64 ||| mode) >>> 3 = id := by
  have hfits : id * 2 ^ 3 < 2 ^ 64 := by omega
  rw [Nat.shiftLeft_eq, Nat.mod_eq_of_lt hfits, lor_low _ _ _ hmode, Nat.shiftRight_eq_div_pow]
  omega

/-- The descriptors that `pipe_create` hands out bear the number of the new pipe. -/
theorem pipeCreate_descriptors {s : State} {readFd writeFd : Nat} (hfew : s.nextPipeId < 2 ^ 61)
    (h : (pipeCreate s).2.1 = some (readFd, writeFd)) :
    readFd >>> 3 = s.nextPipeId ∧ writeFd >>> 3 = s.nextPipeId ∧
      ∃ i, Creates i s (pipeCreate s).2.2 := by
  have hcases := pipeCreate_cases s
  unfold pipeCreate at h
  split at h
  · cases h
  next i hfind =>
    obtain ⟨hfull, -⟩ | ⟨j, -, created⟩ := hcases
    · exact absurd hfind (by simp [hfull])
    · injection h with h
      injection h with hread hwrite
      rw [← hread, ← hwrite]
      exact ⟨descriptor_id hfew (by decide), descriptor_id hfew (by decide), j, created⟩

/-- With fewer than 2⁶¹ calls of `pipe_create` the ids number the pipes; and once the pipe
that a call creates has been released, no run makes its descriptors good for anything. -/
theorem descriptors_stay_stale {kernel : Process.State} {ops : List Op} {s : System}
    (run : Run Step ⟨pipeInit kernel, []⟩ ops s) (hfew : creates ops < 2 ^ 61) :
    Numbers s.state ∧
      ∀ readFd writeFd ops' t ops'' u,
        (pipeCreate s.state).2.1 = some (readFd, writeFd) →
        Run Step s (.pipeCreate :: ops') t → Released (readFd >>> 3) t.state →
        Run Step t ops'' u → creates (ops ++ .pipeCreate :: ops' ++ ops'') < 2 ^ 61 →
        Stale readFd u.state ∧ Stale writeFd u.state := by
  have hissued := run_issued run (issued_pipeInit kernel) (by omega)
  refine ⟨hissued.numbers, ?_⟩
  intro readFd writeFd ops' t ops'' u hcreated second released third hall
  rw [creates_append, creates_append] at hall
  have hone : creates (.pipeCreate :: ops') = 1 + creates ops' := creates_cons _ _
  have hid : s.state.nextPipeId < 2 ^ 61 := by
    have hle := hissued.next_le
    omega
  obtain ⟨hread, hwrite, i, created⟩ := pipeCreate_descriptors hid hcreated
  obtain ⟨v, first, rest⟩ := run_cons_iff.mp second
  have hgiven : s.state.nextPipeId < t.state.nextPipeId := by
    have hsingle : creates [.pipeCreate] = 1 := rfl
    have hnext := created.next_succ hissued (by omega)
    have hle := run_next_le rest (first.issued hissued (by omega)) (by omega)
    have hv : v.state = (pipeCreate s.state).2.2 := by
      cases first
      rfl
    rw [hv] at hle
    omega
  rw [hread] at released
  have hreleased := run_stays_released third (run_issued second hissued (by omega))
    (by omega) hissued.next_pos hgiven released
  exact ⟨.of_released (hread ▸ hreleased), .of_released (hwrite ▸ hreleased)⟩

/-- A pipe is created and closed, and its slot given to another. -/
theorem descriptors_stay_stale_next_pipe :
    ∃ s, Run Step ⟨pipeInit Process.initAndChild, []⟩
        [.pipeCreate, .pipeClose 9, .pipeClose 10, .pipeCreate] s ∧
      (s.state.pipes 0).id = 2 ∧ Stale 9 s.state ∧ Stale 10 s.state := by
  have run : Run Step ⟨pipeInit Process.initAndChild, []⟩
      [.pipeCreate, .pipeClose 9, .pipeClose 10] _ :=
    .cons .pipeCreate (.cons .pipeClose (.single .pipeClose))
  have next := Run.single (@Step.pipeCreate (pipeClose 10 (pipeClose 9
    (pipeCreate (pipeInit Process.initAndChild)).2.2).2).2 [])
  have hcreated : (pipeCreate (pipeInit Process.initAndChild)).2.1 = some (9, 10) := by
    decide +kernel
  have start : Run Step ⟨pipeInit Process.initAndChild, []⟩ [] _ := .nil _
  obtain ⟨-, stale⟩ := descriptors_stay_stale start (by decide)
  exact ⟨_, run.append next, by decide +kernel,
    stale 9 10 _ _ _ _ hcreated run (by unfold Released; decide +kernel) next (by decide)⟩

end Curnel.Pipe
