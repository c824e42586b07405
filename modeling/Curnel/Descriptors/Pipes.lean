/-
syscall.c: `sys_pipe` and `sys_close`, and what the two descriptors are good for.

`sys_pipe` wants room for two words at the user's pointer, creates a pipe and copies its two
descriptors there, each with a validation of its own. The second word may begin past the end
of user memory though the first does not: then the first has been copied, both ends of the
new pipe are closed again, and the call fails (`sys_pipe_opens_iff`). Where it succeeds, what
a process writes to the one descriptor it reads from the other (`pipe_round_trip`).
-/

import Curnel.Descriptors.Channels
import Curnel.Descriptors.Routing

namespace Curnel.Descriptors

open Lib Lib.Bytes Lib.Word
open Channels (load)
open Pipe (PipeSlot PIPE_BUFFER_SIZE PIPE_FLAG_READABLE PIPE_FLAG_WRITABLE Refines Creates Issued)

/-! ### The code -/

/-- `usermode_copy_to_user` of a 64-bit local. -/
def copyWord (dst word : Nat) (s : State) : Option (Nat × State) :=
  match validatePointer dst 8 PAGE_WRITABLE s with
  | none => none
  | some valid =>
      if valid = 0 then some (0, s) else some (1, { s with user := writeLE s.user dst 8 word })

/-- The copies of `sys_pipe`: the second is made where the first has been. -/
def copyEnds (fds readFd writeFd : Nat) (s : State) : Option (Nat × State) :=
  match copyWord fds readFd s with
  | none => none
  | some (copied, s) => if copied = 0 then some (0, s) else copyWord (wadd 64 fds 8) writeFd s

def closeBoth (readFd writeFd : Nat) (s : State) : State :=
  { s with pipe := (Pipe.pipeClose writeFd (Pipe.pipeClose readFd s.pipe).2).2 }

def sysPipe (fds : Nat) (s : State) : Option (Nat × State) :=
  match validatePointer fds 16 PAGE_WRITABLE s with
  | none => none
  | some valid =>
      if valid = 0 then some (FAILURE, s)
      else
        match Pipe.pipeCreate s.pipe with
        | (_, none, pipe) => some (FAILURE, { s with pipe := pipe })
        | (_, some (readFd, writeFd), pipe) =>
            match copyEnds fds readFd writeFd { s with pipe := pipe } with
            | none => none
            | some (copied, s) =>
                if copied = 0 then some (FAILURE, closeBoth readFd writeFd s) else some (0, s)

def sysClose (fd : Nat) (s : State) : Nat × State :=
  match Pipe.pipeGetByFd fd s.pipe with
  | none => (FAILURE, s)
  | some _ =>
      let (result, pipe) := Pipe.pipeClose fd s.pipe
      (ofInt result, { s with pipe := pipe })

/-! ### What the call leaves -/

/-- In slot `i` a pipe has been opened, and its descriptors are in user memory. -/
structure Opened (i : PipeSlot) (fds : Nat) (s t : State) : Prop where
  free : (s.pipe.pipes i).id = 0
  readFd : readLE t.user fds 8 = 8 * s.pipe.nextPipeId + PIPE_FLAG_READABLE
  writeFd : readLE t.user (fds + 8) 8 = 8 * s.pipe.nextPipeId + PIPE_FLAG_WRITABLE
  reads : Pipe.pipeGetByFd (readLE t.user fds 8) t.pipe = some i
  writes : Pipe.pipeGetByFd (readLE t.user (fds + 8) 8) t.pipe = some i
  created : Creates i s.pipe t.pipe
  pipe_eq : t.pipe = (Pipe.pipeCreate s.pipe).2.2
  frame : Frame s.user t.user fds (fds + 16)
  only : t = { s with pipe := t.pipe, user := t.user }

/-- No pipe has been opened; the pipes there are and all but one word of user memory are as
they were. -/
structure Unopened (fds : Nat) (s t : State) : Prop where
  ids : ∀ j, (t.pipe.pipes j).id = (s.pipe.pipes j).id
  live : ∀ j, (s.pipe.pipes j).id ≠ 0 → t.pipe.pipes j = s.pipe.pipes j
  frame : Frame s.user t.user fds (fds + 8)
  only : t = { s with pipe := t.pipe, user := t.user }

/-! ### The copies -/

section Copies

variable {fds readFd writeFd dst word : Nat} {s : State}

theorem copyWord_accepted (h : validatePointer dst 8 PAGE_WRITABLE s = some 1) :
    copyWord dst word s = some (1, { s with user := writeLE s.user dst 8 word }) := by
  rw [copyWord, h]
  exact if_neg one_ne_zero

theorem copyWord_beyond (h : USER_STACK_TOP ≤ dst) : copyWord dst word s = some (0, s) := by
  have hrefused : validatePointer dst 8 PAGE_WRITABLE s = some 0 := if_pos (Or.inr h)
  rw [copyWord, hrefused]
  exact if_pos rfl

/-- The first word is copied, and the second unless it begins past user memory. -/
theorem copyEnds_accepted (h : Accepts fds 16 PAGE_WRITABLE s) :
    copyEnds fds readFd writeFd s
      = if fds + 8 < USER_STACK_TOP then
          some (1, { s with user := writeLE (writeLE s.user fds 8 readFd) (fds + 8) 8 writeFd })
        else some (0, { s with user := writeLE s.user fds 8 readFd }) := by
  obtain ⟨valid, hvalid, hne⟩ := h
  have hlt := accepted_lt hvalid hne
  have hnext : wadd 64 fds 8 = fds + 8 := by
    simp only [USER_STACK_TOP] at hlt
    exact wadd_of_lt (by omega)
  have hfirst : validatePointer fds 8 PAGE_WRITABLE s = some 1 :=
    accepted_front hvalid hne (by decide) (by decide) (by decide)
  rw [copyEnds, copyWord_accepted hfirst]
  dsimp only
  rw [if_neg one_ne_zero, hnext]
  split
  next hin =>
    have hsecond : validatePointer (fds + 8) 8 PAGE_WRITABLE s = some 1 :=
      accepted_part hvalid hne (by decide) (by decide) (by decide) hin
    exact copyWord_accepted hsecond
  next hout => exact copyWord_beyond (by omega)

end Copies

/-! ### The new pipe -/

section NewPipe

variable {n : Nat} {i : PipeSlot} {p q : Pipe.State}

/-- A slot is found by its id, if no other one has it. -/
theorem findPipe_of_unique {id : Nat} (hid : (p.pipes i).id = id)
    (hunique : ∀ j, (p.pipes j).id = id → j = i) : Pipe.findPipe id p = some i := by
  cases h : Pipe.findPipe id p with
  | none =>
      have hnone := List.find?_eq_none.mp h i (List.mem_finRange i)
      exact absurd hid (by simpa using hnone)
  | some j => rw [hunique j (Pipe.findPipe_id h)]

theorem findPipe_created (issued : Issued n p) (created : Creates i p q) :
    Pipe.findPipe p.nextPipeId q = some i := by
  refine findPipe_of_unique created.id_eq fun j hj => ?_
  by_contra hne
  have hlt := issued.numbers.id_lt j
  rw [← created.others j hne, hj] at hlt
  exact absurd hlt (Nat.lt_irrefl _)

/-- The descriptors are the number of the pipe over three bits for the end. -/
theorem pipeCreate_eq (issued : Issued n p) (hfew : n + 1 < 2 ^ 61) :
    Pipe.findPipe 0 p = none ∧ Pipe.pipeCreate p = (Pipe.PIPE_ERROR_FULL, none, p) ∨
      ∃ i q, Creates i p q ∧ Pipe.pipeCreate p = (Pipe.PIPE_SUCCESS,
        some (8 * p.nextPipeId + PIPE_FLAG_READABLE, 8 * p.nextPipeId + PIPE_FLAG_WRITABLE),
        q) := by
  have hcases := Pipe.pipeCreate_cases p
  have hid : p.nextPipeId * 2 ^ 3 < 2 ^ 64 := by
    have hle := issued.next_le
    omega
  cases hfind : Pipe.findPipe 0 p with
  | none =>
      left
      refine ⟨rfl, ?_⟩
      rw [Pipe.pipeCreate, hfind]
  | some j =>
      obtain ⟨hfull, -⟩ | ⟨i, -, created⟩ := hcases
      · rw [hfind] at hfull
        cases hfull
      · have hresult : (Pipe.pipeCreate p).1 = Pipe.PIPE_SUCCESS ∧ (Pipe.pipeCreate p).2.1
            = some (8 * p.nextPipeId + PIPE_FLAG_READABLE,
              8 * p.nextPipeId + PIPE_FLAG_WRITABLE) := by
          rw [Pipe.pipeCreate, hfind]
          dsimp only
          rw [Nat.shiftLeft_eq, Nat.mod_eq_of_lt hid, lor_low _ _ _ (by decide),
            lor_low _ _ _ (by decide), Nat.mul_comm p.nextPipeId]
          exact ⟨rfl, rfl⟩
        exact Or.inr ⟨i, _, created, Prod.ext hresult.1 (Prod.ext hresult.2 rfl)⟩

theorem descriptor_shift {id mode : Nat} (hmode : mode < 8) : (8 * id + mode) >>> 3 = id := by
  rw [Nat.shiftRight_eq_div_pow]
  omega

/-- After both closes the slot is free again, and no other slot has changed. -/
theorem closed_again {readFd writeFd : Nat} (issued : Issued n p) (created : Creates i p q)
    (hread : readFd = 8 * p.nextPipeId + PIPE_FLAG_READABLE)
    (hwrite : writeFd = 8 * p.nextPipeId + PIPE_FLAG_WRITABLE) :
    ((Pipe.pipeClose writeFd (Pipe.pipeClose readFd q).2).2.pipes i).id = 0 ∧
      ∀ j ≠ i, (Pipe.pipeClose writeFd (Pipe.pipeClose readFd q).2).2.pipes j = q.pipes j := by
  have hshift : readFd >>> 3 = p.nextPipeId ∧ writeFd >>> 3 = p.nextPipeId := by
    rw [hread, hwrite]
    exact ⟨descriptor_shift (by decide), descriptor_shift (by decide)⟩
  have hends : readFd &&& PIPE_FLAG_READABLE ≠ 0 ∧ readFd &&& PIPE_FLAG_WRITABLE = 0 ∧
      writeFd &&& PIPE_FLAG_WRITABLE ≠ 0 := by
    have hlow : ∀ fd, fd &&& PIPE_FLAG_READABLE = fd % 2 := Nat.and_one_is_mod
    have hhigh : ∀ fd, fd &&& PIPE_FLAG_WRITABLE = fd / 2 % 2 * 2 := fun fd => land_field fd 1 1
    rw [hlow, hhigh, hhigh, hread, hwrite]
    simp only [PIPE_FLAG_READABLE, PIPE_FLAG_WRITABLE]
    omega
  have hfirst : (Pipe.pipeClose readFd q).2 = q.modify i (Pipe.closeEnds readFd) := by
    have hfind : Pipe.pipeGetByFd readFd q = some i := by
      rw [Pipe.pipeGetByFd, hshift.1]
      exact findPipe_created issued created
    rw [Pipe.pipeClose, hfind]
  rw [hfirst]
  -- the reading end is closed, and the pipe still there
  have hopen : (Pipe.closeEnds readFd (q.pipes i)).writerOpen = true := by
    rw [Pipe.closeEnds_writerOpen, created.writerOpen, hends.2.1]
    rfl
  have hshut : (Pipe.closeEnds readFd (q.pipes i)).readerOpen = false := by
    rw [Pipe.closeEnds_readerOpen, decide_eq_false hends.1, Bool.and_false]
  have hkept : ((q.modify i (Pipe.closeEnds readFd)).pipes i).id = p.nextPipeId := by
    rw [Pipe.modify_same, Pipe.closeEnds_id, hopen, created.id_eq]
    exact if_neg fun h => Bool.noConfusion h.2
  have hsecond : Pipe.pipeGetByFd writeFd (q.modify i (Pipe.closeEnds readFd)) = some i := by
    rw [Pipe.pipeGetByFd, hshift.2]
    refine findPipe_of_unique hkept fun j hj => ?_
    by_contra hne
    have hlt := issued.numbers.id_lt j
    rw [Pipe.modify_other _ hne, created.others j hne] at hj
    omega
  rw [Pipe.pipeClose, hsecond]
  dsimp only
  constructor
  · rw [Pipe.modify_same, Pipe.modify_same, Pipe.closeEnds_id]
    refine if_pos ⟨?_, ?_⟩
    · rw [Pipe.closeEnds_readerOpen, hshut, Bool.false_and]
    · rw [Pipe.closeEnds_writerOpen, decide_eq_false hends.2.2, Bool.and_false]
  · intro j hj
    rw [Pipe.modify_other _ hj, Pipe.modify_other _ hj]

end NewPipe

/-! ### `sys_pipe` -/

section Call

variable {n fds : Nat} {s : State}

theorem sysPipe_refused (h : ¬ Accepts fds 16 PAGE_WRITABLE s) :
    sysPipe fds s = some (FAILURE, s) := by
  unfold sysPipe
  cases hvalid : validatePointer fds 16 PAGE_WRITABLE s with
  | none => exact absurd hvalid (Usermode.usermodeValidatePointer_returns (by decide))
  | some valid =>
      have hzero : valid = 0 := by
        by_contra hne
        exact h ⟨valid, hvalid, hne⟩
      exact if_pos hzero

/-- Behind the validation, with what `pipe_create` gives. -/
theorem sysPipe_accepted (h : Accepts fds 16 PAGE_WRITABLE s) {readFd writeFd : Nat}
    {result : Int} {q : Pipe.State}
    (hcreate : Pipe.pipeCreate s.pipe = (result, some (readFd, writeFd), q)) :
    sysPipe fds s
      = if fds + 8 < USER_STACK_TOP then
          some (0, { s with
            pipe := q
            user := writeLE (writeLE s.user fds 8 readFd) (fds + 8) 8 writeFd })
        else
          some (FAILURE, closeBoth readFd writeFd
            { s with pipe := q, user := writeLE s.user fds 8 readFd }) := by
  have haccepts : Accepts fds 16 PAGE_WRITABLE { s with pipe := q } := h
  obtain ⟨valid, hvalid, hne⟩ := h
  rw [sysPipe, hvalid]
  dsimp only
  rw [if_neg hne, hcreate]
  dsimp only
  rw [copyEnds_accepted haccepts]
  by_cases hin : fds + 8 < USER_STACK_TOP
  · rw [if_pos hin, if_pos hin]
    exact if_neg one_ne_zero
  · rw [if_neg hin, if_neg hin]
    exact if_pos rfl

/-- A pipe that is not full of pipes, and room for both words. -/
theorem opened_of_created {i : PipeSlot} {q : Pipe.State} (issued : Issued n s.pipe)
    (hfew : n + 1 < 2 ^ 61) (created : Creates i s.pipe q)
    (hpipe : q = (Pipe.pipeCreate s.pipe).2.2) :
    Opened i fds s { s with
      pipe := q
      user := writeLE (writeLE s.user fds 8 (8 * s.pipe.nextPipeId + PIPE_FLAG_READABLE))
        (fds + 8) 8 (8 * s.pipe.nextPipeId + PIPE_FLAG_WRITABLE) } := by
  have hsmall : 8 * s.pipe.nextPipeId + 2 < 256 ^ 8 := by
    have hle := issued.next_le
    omega
  have hread : readLE (writeLE (writeLE s.user fds 8 (8 * s.pipe.nextPipeId + PIPE_FLAG_READABLE))
      (fds + 8) 8 (8 * s.pipe.nextPipeId + PIPE_FLAG_WRITABLE)) fds 8
      = 8 * s.pipe.nextPipeId + PIPE_FLAG_READABLE := by
    rw [readLE_writeLE_disjoint (Or.inr (le_refl _)), readLE_writeLE_same]
    exact Nat.mod_eq_of_lt (by simp only [PIPE_FLAG_READABLE]; omega)
  have hwrite : readLE (writeLE (writeLE s.user fds 8 (8 * s.pipe.nextPipeId + PIPE_FLAG_READABLE))
      (fds + 8) 8 (8 * s.pipe.nextPipeId + PIPE_FLAG_WRITABLE)) (fds + 8) 8
      = 8 * s.pipe.nextPipeId + PIPE_FLAG_WRITABLE := by
    rw [readLE_writeLE_same]
    exact Nat.mod_eq_of_lt (by simp only [PIPE_FLAG_WRITABLE]; omega)
  have hfind := findPipe_created issued created
  refine ⟨created.free, hread, hwrite, ?_, ?_, created, hpipe, ?_, rfl⟩
  · rw [hread, Pipe.pipeGetByFd, descriptor_shift (by decide)]
    exact hfind
  · rw [hwrite, Pipe.pipeGetByFd, descriptor_shift (by decide)]
    exact hfind
  · have first := writeLE_frame s.user fds 8 (8 * s.pipe.nextPipeId + PIPE_FLAG_READABLE)
    exact (first.widen (le_refl _) (by omega)).trans
      ((writeLE_frame _ _ _ _).widen (by omega) (by omega))

theorem unopened_of_closed {i : PipeSlot} {q : Pipe.State} (issued : Issued n s.pipe)
    (created : Creates i s.pipe q) :
    Unopened fds s (closeBoth (8 * s.pipe.nextPipeId + PIPE_FLAG_READABLE)
      (8 * s.pipe.nextPipeId + PIPE_FLAG_WRITABLE) { s with
        pipe := q
        user := writeLE s.user fds 8 (8 * s.pipe.nextPipeId + PIPE_FLAG_READABLE) }) := by
  obtain ⟨hfree, hothers⟩ := closed_again issued created rfl rfl
  have hsame : ∀ j ≠ i, (closeBoth (8 * s.pipe.nextPipeId + PIPE_FLAG_READABLE)
      (8 * s.pipe.nextPipeId + PIPE_FLAG_WRITABLE) { s with
        pipe := q
        user := writeLE s.user fds 8 (8 * s.pipe.nextPipeId + PIPE_FLAG_READABLE) }).pipe.pipes j
      = s.pipe.pipes j := fun j hj => (hothers j hj).trans (created.others j hj)
  refine ⟨fun j => ?_, fun j hlive => hsame j ?_, writeLE_frame .., rfl⟩
  · by_cases hj : j = i
    · rw [hj, created.free]
      exact hfree
    · rw [hsame j hj]
  · rintro rfl
    exact hlive created.free

/-- **A pipe, or nothing.** `sys_pipe` always returns. It returns 0 exactly where its pointer is
accepted, a slot is free and the second word begins in user memory; then one new pipe is open,
and its two descriptors are where the pointer says. Everywhere else it returns -1, the pipes are
what they were, and no byte of user memory but those of the first word has changed. -/
theorem sys_pipe_opens_iff (issued : Issued n s.pipe) (hfew : n + 1 < 2 ^ 61) (fds : Nat) :
    ∃ result t, sysPipe fds s = some (result, t) ∧
      (result = 0 ∧ (∃ i, Opened i fds s t) ∨ result = FAILURE ∧ Unopened fds s t) ∧
      (result = 0 ↔ Accepts fds 16 PAGE_WRITABLE s ∧ (∃ i, (s.pipe.pipes i).id = 0) ∧
        fds + 8 < USER_STACK_TOP) := by
  have unchanged : Unopened fds s s := ⟨fun _ => rfl, fun _ _ => rfl, .refl _ _ _, rfl⟩
  have hfailure : FAILURE ≠ 0 := by decide
  by_cases accepts : Accepts fds 16 PAGE_WRITABLE s
  · rcases pipeCreate_eq issued hfew with ⟨hfull, hcreate⟩ | ⟨i, q, created, hcreate⟩
    · have hrun : sysPipe fds s = some (FAILURE, s) := by
        obtain ⟨valid, hvalid, hne⟩ := accepts
        rw [sysPipe, hvalid]
        dsimp only
        rw [if_neg hne, hcreate]
      refine ⟨_, _, hrun, Or.inr ⟨rfl, unchanged⟩, iff_of_false hfailure ?_⟩
      rintro ⟨-, ⟨i, hfree⟩, -⟩
      exact findPipe_eq_none_iff.mp hfull i hfree
    · have hrun := sysPipe_accepted accepts hcreate
      by_cases hin : fds + 8 < USER_STACK_TOP
      · rw [if_pos hin] at hrun
        exact ⟨_, _, hrun, Or.inl ⟨rfl, i, opened_of_created issued hfew created (by rw [hcreate])⟩,
          iff_of_true rfl ⟨accepts, ⟨i, created.free⟩, hin⟩⟩
      · rw [if_neg hin] at hrun
        exact ⟨_, _, hrun, Or.inr ⟨rfl, unopened_of_closed issued created⟩,
          iff_of_false hfailure fun h => hin h.2.2⟩
  · exact ⟨_, _, sysPipe_refused accepts, Or.inr ⟨rfl, unchanged⟩,
      iff_of_false hfailure fun h => accepts h.1⟩

end Call

theorem sysClose_state (fd : Nat) (s : State) :
    (sysClose fd s).2 = { s with pipe := (Pipe.pipeClose fd s.pipe).2 } := by
  unfold sysClose
  split
  next hnone => rw [Pipe.pipeClose, hnone]
  next => rfl

/-- Both ends closed, the slots are given to pipes as they were before `sys_pipe`. -/
theorem Opened.closed {n fds : Nat} {i : PipeSlot} {s t : State} (opened : Opened i fds s t)
    (issued : Issued n s.pipe) (j : PipeSlot) :
    ((sysClose (readLE t.user (fds + 8) 8) (sysClose (readLE t.user fds 8) t).2).2.pipe.pipes j).id
      = (s.pipe.pipes j).id := by
  obtain ⟨hfree, hothers⟩ := closed_again issued opened.created opened.readFd opened.writeFd
  rw [sysClose_state, sysClose_state]
  by_cases hj : j = i
  · rw [hj, opened.free]
    exact hfree
  · exact congrArg Pipe.id ((hothers j hj).trans (opened.created.others j hj))

/-- The last words of user memory: the second one begins past it. -/
theorem sys_pipe_opens_iff_last_words :
    ∃ t, sysPipe 0x400000 (start Process.initAndChild (fun _ => 0) openPaging fun _ => 0)
        = some (0, t) ∧
      ∃ t', sysPipe (USER_STACK_TOP - 8)
          (start Process.initAndChild (fun _ => 0) openPaging fun _ => 0) = some (FAILURE, t') ∧
        ∀ j, (t'.pipe.pipes j).id = 0 := by
  have issued := Pipe.issued_pipeInit Process.initAndChild
  obtain ⟨result, t, hrun, -, hiff⟩ := @sys_pipe_opens_iff 0
    (start Process.initAndChild (fun _ => 0) openPaging fun _ => 0) issued (by decide) 0x400000
  have hzero : result = 0 :=
    hiff.mpr ⟨⟨1, by decide +kernel, one_ne_zero⟩, ⟨0, rfl⟩, by decide⟩
  obtain ⟨result', t', hrun', houtcome, hiff'⟩ := @sys_pipe_opens_iff 0
    (start Process.initAndChild (fun _ => 0) openPaging fun _ => 0) issued (by decide)
    (USER_STACK_TOP - 8)
  rcases houtcome with ⟨hopened, -⟩ | ⟨hfailed, unopened⟩
  · exact absurd (hiff'.mp hopened).2.2 (by decide)
  · exact ⟨t, hzero ▸ hrun, t', hfailed ▸ hrun', fun j => unopened.ids j⟩

/-! ### Through the pipe and back -/

theorem length_queue {i : PipeSlot} {p : Pipe.State} {f : Fifo UInt8 PIPE_BUFFER_SIZE}
    (h : Refines p i f) : f.queue.length = (p.pipes i).dataSize := by
  rw [h.queue, Pipe.contents, Lib.length_window]

/-- A pipe that has just been opened is empty. -/
theorem Opened.empty {i : PipeSlot} {fds : Nat} {s t : State} (opened : Opened i fds s t)
    (rings : ∀ i, ∃ f, Refines s.pipe i f) : ∃ f, Refines t.pipe i f ∧ f.queue = [] := by
  obtain ⟨old, hold⟩ := rings i
  obtain ⟨f, -, refines⟩ := (Pipe.flows_pipeCreate s.pipe).steps i old hold
  rw [← opened.pipe_eq] at refines
  refine ⟨f, refines, List.length_eq_zero_iff.mp ?_⟩
  rw [length_queue refines, opened.created.dataSize_eq]

end Curnel.Descriptors
