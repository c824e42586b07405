/-
The kernel around `sys_read` and `sys_write`.

Between two calls, and while one of them waits, the rest of the kernel creates, closes and
uses pipes, allocates and frees memory, stores in the blocks it holds, and runs the
processes, which change their memory and its mapping as they like. `Elsewhere` is a step of
it; what a call does that stays in its buffer are such steps too. Every run of them keeps
what the calls rely on (`Consistent`): the heap tiles its arena, each pipe is a ring buffer,
and a slot without a live pipe has the id 0.
-/

import Curnel.Descriptors
import Curnel.Memory.FirstFit
import Curnel.Pipe.Identifiers

namespace Curnel.Pipe

/-- In slot `i` a pipe was created, and not all of it has been closed. -/
def Live (s : State) (i : PipeSlot) : Prop := .created i ∈ s.log ∧ ¬ Closed (s.pipes i)

/-- What a slot without a live pipe looks like. -/
def FreeSlots (s : State) : Prop :=
  ∀ i, ¬ Live s i → Closed (s.pipes i) ∧ (s.pipes i).id = 0

theorem freeSlots_pipeInit (kernel : Process.State) : FreeSlots (pipeInit kernel) :=
  fun _ _ => ⟨⟨rfl, rfl⟩, rfl⟩

theorem FreeSlots.keeps {s s' : State} (free : FreeSlots s) (keeps : KeepsIds s s') :
    FreeSlots s' := by
  intro i hdead
  obtain ⟨hid, hreader, hwriter⟩ := identity_eq_iff.mp (keeps.identity_eq i)
  have hclosed : Closed (s'.pipes i) ↔ Closed (s.pipes i) := by
    unfold Closed
    rw [hreader, hwriter]
  have hlive : Live s' i ↔ Live s i := by
    unfold Live
    rw [keeps.created_iff, hclosed]
  rw [hlive] at hdead
  rw [hclosed, hid]
  exact free i hdead

theorem FreeSlots.closes {s s' : State} {i : PipeSlot} (free : FreeSlots s)
    (closes : Closes i s s') : FreeSlots s' := by
  intro j hdead
  by_cases hj : j = i
  · subst hj
    have hclosed : Closed (s'.pipes j) := by
      by_contra hopen
      have hold : ¬ Live s j := fun hlive => hdead ⟨closes.log_eq ▸ hlive.1, hopen⟩
      exact hopen (closes.stays (free j hold).1)
    exact ⟨hclosed, closes.released hclosed⟩
  · have hold : ¬ Live s j := by
      intro hlive
      apply hdead
      rw [Live, closes.log_eq, closes.others j hj]
      exact hlive
    rw [closes.others j hj]
    exact free j hold

theorem FreeSlots.creates {s s' : State} {i : PipeSlot} (free : FreeSlots s)
    (creates : Creates i s s') : FreeSlots s' := by
  intro j hdead
  by_cases hj : j = i
  · subst hj
    refine absurd ⟨?_, fun hclosed => ?_⟩ hdead
    · rw [creates.log_eq]
      exact List.mem_append_right _ (List.mem_singleton_self _)
    · rw [Closed, creates.readerOpen] at hclosed
      cases hclosed.1
  · have hold : ¬ Live s j := by
      intro hlive
      apply hdead
      rw [Live, creates.log_eq, creates.others j hj]
      exact ⟨List.mem_append_left _ hlive.1, hlive.2⟩
    rw [creates.others j hj]
    exact free j hold

theorem Step.freeSlots {s s' : System} {op : Op} (step : Step s op s')
    (free : FreeSlots s.state) : FreeSlots s'.state := by
  rcases step.numbers_cases with keeps | ⟨i, closes⟩ | ⟨-, i, creates⟩
  · exact free.keeps keeps
  · exact free.closes closes
  · exact free.creates creates

end Curnel.Pipe

namespace Curnel.Descriptors

open Lib Lib.Bytes Lib.Word

/-! ### The rest of the kernel -/

inductive Background where
  | pipe (op : Pipe.Op)
  | heap (op : Memory.Op)
  | store (ptr : Nat)
  | user
  | keys
  | terminal

/-- The bytes that a block has for its caller, as its header says. -/
def room (ptr : Nat) (h : Memory.Heap) : Nat :=
  Memory.blockSize h.state.ram (ptr - Memory.sizeofMemoryBlock)

inductive Elsewhere : State → Background → State → Prop where
  | pipe {s : State} {op : Pipe.Op} {pipe : Pipe.State} {calls calls' : List Pipe.Call} :
      Pipe.Step ⟨s.pipe, calls⟩ op ⟨pipe, calls'⟩ → Elsewhere s (.pipe op) { s with pipe := pipe }
  | heap {s : State} {op : Memory.Op} {heap : Memory.Heap} :
      Memory.Step s.heap op heap → Elsewhere s (.heap op) { s with heap := heap }
  | store {s : State} {ptr : Nat} {ram : Store} :
      ptr ∈ s.heap.live → Frame s.heap.state.ram ram ptr (ptr + room ptr s.heap) →
      Elsewhere s (.store ptr) { s with heap.state.ram := ram }
  | user {s : State} {paging : Paging.State} {user : Store} :
      Elsewhere s .user { s with paging := paging, user := user }
  | keys {s : State} {typed : List UInt8} : Elsewhere s .keys { s with keys := s.keys ++ typed }
  | terminal {s : State} {shown : List (List UInt8)} :
      Elsewhere s .terminal { s with terminal := s.terminal ++ shown }

/-- The kernel after `memory_init` and `pipe_init`. -/
def start (kernel : Process.State) (ram : Store) (paging : Paging.State) (user : Store) : State where
  pipe := Pipe.pipeInit kernel
  heap := { Memory.boot ram with state := Memory.memoryInit (Memory.boot ram).state }
  paging := paging
  user := user
  keys := []
  terminal := []

/-! ### What every run keeps -/

structure Consistent (s : State) : Prop where
  heap : ∃ bs, Memory.HeapInv s.heap bs
  rings : ∀ i, ∃ f, Pipe.Refines s.pipe i f
  free : Pipe.FreeSlots s.pipe

theorem consistent_start (kernel : Process.State) (ram : Store) (paging : Paging.State)
    (user : Store) : Consistent (start kernel ram paging user) where
  heap := ⟨_, Memory.heapInv_boot ram⟩
  rings i := ⟨_, Pipe.refines_pipeInit kernel i⟩
  free := Pipe.freeSlots_pipeInit kernel

/-- A step of the pipes keeps them rings, and their free slots free. -/
theorem Consistent.pipe {s : State} (consistent : Consistent s) {op : Pipe.Op}
    {pipe : Pipe.State} {calls calls' : List Pipe.Call}
    (step : Pipe.Step ⟨s.pipe, calls⟩ op ⟨pipe, calls'⟩) :
    Consistent { s with pipe := pipe } := by
  refine ⟨consistent.heap, fun i => ?_, step.freeSlots consistent.free⟩
  obtain ⟨f, hf⟩ := consistent.rings i
  obtain ⟨g, -, hg⟩ := step.flows.steps i f hf
  exact ⟨g, hg⟩

theorem Elsewhere.consistent {s s' : State} {op : Background} (step : Elsewhere s op s')
    (consistent : Consistent s) : Consistent s' := by
  cases step with
  | pipe step => exact consistent.pipe step
  | heap step =>
      obtain ⟨bs, inv⟩ := consistent.heap
      exact ⟨Memory.heapInv_step inv step, consistent.rings, consistent.free⟩
  | store hlive frame =>
      obtain ⟨bs, inv⟩ := consistent.heap
      exact ⟨⟨bs, inv.store hlive frame⟩, consistent.rings, consistent.free⟩
  | user => exact ⟨consistent.heap, consistent.rings, consistent.free⟩
  | keys => exact ⟨consistent.heap, consistent.rings, consistent.free⟩
  | terminal => exact ⟨consistent.heap, consistent.rings, consistent.free⟩

theorem run_consistent {kernel : Process.State} {ram : Store} {paging : Paging.State}
    {user : Store} {ops : List Background} {s : State}
    (run : Run Elsewhere (start kernel ram paging user) ops s) : Consistent s :=
  run.invariant (fun before step => step.consistent before)
    (consistent_start kernel ram paging user)

/-! ### What a call does to the heap only -/

/-- Nothing but the heap is different. -/
def OnlyHeap (s s' : State) : Prop := s' = { s with heap := s'.heap }

namespace OnlyHeap

variable {s s' s'' : State}

theorem refl (s : State) : OnlyHeap s s := rfl

theorem trans (first : OnlyHeap s s') (second : OnlyHeap s' s'') : OnlyHeap s s'' := by
  unfold OnlyHeap at *
  rw [second, first]

theorem pipe (h : OnlyHeap s s') : s'.pipe = s.pipe := by rw [h]
theorem paging (h : OnlyHeap s s') : s'.paging = s.paging := by rw [h]
theorem user (h : OnlyHeap s s') : s'.user = s.user := by rw [h]
theorem keys (h : OnlyHeap s s') : s'.keys = s.keys := by rw [h]
theorem terminal (h : OnlyHeap s s') : s'.terminal = s.terminal := by rw [h]

theorem validatePointer (h : OnlyHeap s s') (ptr size accessFlags : Nat) :
    validatePointer ptr size accessFlags s' = validatePointer ptr size accessFlags s := by
  rw [Descriptors.validatePointer, h.paging]
  rfl

theorem consistent (h : OnlyHeap s s') (consistent : Consistent s)
    (heap : ∃ bs, Memory.HeapInv s'.heap bs) : Consistent s' := by
  refine ⟨heap, ?_, ?_⟩
  · rw [h.pipe]
    exact consistent.rings
  · rw [h.pipe]
    exact consistent.free

end OnlyHeap

theorem kmalloc_onlyHeap {size : Nat} {s s' : State} {kbuf : Buffer}
    (h : kmalloc size s = some (kbuf, s')) : OnlyHeap s s' := by
  unfold kmalloc at h
  split at h
  · cases h
  · cases h
    rfl

theorem kfree_onlyHeap {kbuf : Buffer} {s s' : State} (h : kfree kbuf s = some s') :
    OnlyHeap s s' := by
  obtain ⟨heap, -, rfl⟩ := Option.map_eq_some_iff.mp h
  rfl

theorem release_eq {kbuf : Buffer} {s s' : State} (h : kfree kbuf s = some s') (result : Nat)
    (trace : List Access) : release kbuf result trace s = (.returned result, trace, s') := by
  rw [release, h]

theorem release_onlyHeap (kbuf : Buffer) (result : Nat) (trace : List Access) (s : State) :
    OnlyHeap s (release kbuf result trace s).2.2 := by
  unfold release
  split
  · exact .refl s
  · rename_i t hfree
    exact kfree_onlyHeap hfree

theorem fill_onlyHeap (s : State) (kbuf : Buffer) (i : Nat) (bytes : List UInt8) :
    OnlyHeap s (s.fill kbuf i bytes) := rfl

theorem copyFromUser_onlyHeap {kbuf : Buffer} {src size copied : Nat} {trace : List Access}
    {s s' : State} (h : copyFromUser kbuf src size s = some (copied, trace, s')) :
    OnlyHeap s s' := by
  unfold copyFromUser at h
  split at h
  · cases h
  split at h
  · cases h
    exact .refl s
  · cases h
    exact fill_onlyHeap ..

/-! ### The buffer of a call -/

/-- A store that does not leave the 64-bit space is one of consecutive bytes. -/
theorem storeBytes_eq {m : Store} {p i : Nat} {bytes : List UInt8}
    (h : p + i + bytes.length ≤ 2 ^ 64) : storeBytes m p i bytes = writeBytes m (p + i) bytes := by
  induction bytes generalizing m i with
  | nil =>
      funext x
      rw [storeBytes, writeBytes, if_neg (by simp)]
  | cons b bytes ih =>
      simp only [List.length_cons] at h
      rw [storeBytes, ih (by omega), wadd_of_lt (by omega)]
      funext x
      by_cases hx : x = p + i
      · subst hx
        simp [writeBytes]
      · unfold writeBytes
        rw [Function.update_of_ne hx]
        simp only [List.length_cons]
        by_cases hin : p + i + 1 ≤ x ∧ x < p + i + 1 + bytes.length
        · have hsub : x - (p + i) = x - (p + i + 1) + 1 := by omega
          rw [if_pos (by omega), if_pos (by omega), hsub, List.getD_cons_succ]
          rfl
        · rw [if_neg (by omega), if_neg (by omega)]

theorem length_loadBytes (m : Store) (p n : Nat) : (loadBytes m p n).length = n := by
  simp [loadBytes]

/-- A call holds the block that it was given. -/
structure Held (kbuf : Buffer) (h : Memory.Heap) : Prop where
  heap : ∃ bs, Memory.HeapInv h bs
  live : kbuf.ptr ∈ h.live
  size_eq : kbuf.size = room kbuf.ptr h

namespace Held

variable {kbuf : Buffer} {h : Memory.Heap} (held : Held kbuf h)
include held

theorem bound : Memory.MEMORY_START + Memory.sizeofMemoryBlock ≤ kbuf.ptr ∧
    kbuf.ptr + kbuf.size ≤ Memory.MEMORY_START + Memory.MEMORY_SIZE := by
  obtain ⟨bs, inv⟩ := held.heap
  obtain ⟨a, n, hlocated, hptr, -, -⟩ := inv.block_of_live held.live
  obtain ⟨next, header⟩ := inv.layout.header_of_mem hlocated
  have hlower := FreeList.located_lower hlocated
  have hupper := FreeList.located_upper hlocated
  rw [inv.covers] at hupper
  rw [held.size_eq, room, hptr, Nat.add_sub_cancel, header.size_eq]
  exact ⟨Nat.add_le_add_right hlower _, hupper⟩

theorem ptr_lt : kbuf.ptr + kbuf.size < 2 ^ 64 := by
  have hword : Memory.MEMORY_START + Memory.MEMORY_SIZE < 2 ^ 64 := by decide
  exact held.bound.2.trans_lt hword

end Held

/-- The blocks that are held are those in use. -/
theorem held_iff {kbuf : Buffer} {h : Memory.Heap} {bs : List FreeList.Block}
    (inv : Memory.HeapInv h bs) :
    Held kbuf h ↔ ∃ a, (a, kbuf.size) ∈
      FreeList.used Memory.sizeofMemoryBlock Memory.MEMORY_START bs ∧
        kbuf.ptr = a + Memory.sizeofMemoryBlock := by
  have hroom : ∀ {a n : Nat}, (a, n) ∈
      FreeList.used Memory.sizeofMemoryBlock Memory.MEMORY_START bs →
        room (a + Memory.sizeofMemoryBlock) h = n := by
    intro a n hused
    obtain ⟨next, header⟩ := inv.layout.header_of_mem (FreeList.mem_used_iff.mp hused)
    rw [room, Nat.add_sub_cancel, header.size_eq]
  constructor
  · intro held
    obtain ⟨a, n, hused, hptr⟩ := (inv.live_iff _).mp held.live
    have hsize := held.size_eq
    rw [hptr, hroom hused] at hsize
    exact ⟨a, hsize ▸ hused, hptr⟩
  · rintro ⟨a, hused, hptr⟩
    refine ⟨⟨bs, inv⟩, (inv.live_iff _).mpr ⟨a, _, hused, hptr⟩, ?_⟩
    rw [hptr, hroom hused]

/-- Bytes stored in a live block leave all blocks what they are. -/
theorem Held.store {kbuf : Buffer} {h : Memory.Heap} (held : Held kbuf h) {ptr : Nat} {ram : Store}
    (hlive : ptr ∈ h.live) (frame : Frame h.state.ram ram ptr (ptr + room ptr h)) :
    Held kbuf { h with state.ram := ram } := by
  obtain ⟨bs, inv⟩ := held.heap
  exact (held_iff (inv.store hlive frame)).mpr ((held_iff inv).mp held)

/-- What happens to other blocks leaves a block what it is. -/
theorem Held.step {kbuf : Buffer} {h h' : Memory.Heap} {op : Memory.Op} (held : Held kbuf h)
    (step : Memory.Step h op h') (hkept : op ≠ .kfree kbuf.ptr) : Held kbuf h' := by
  obtain ⟨bs, inv⟩ := held.heap
  obtain ⟨bs', inv', keeps⟩ := step.keeps_used inv
  obtain ⟨a, hused, hptr⟩ := (held_iff inv).mp held
  rw [hptr] at hkept
  exact (held_iff inv').mpr ⟨a, keeps _ hused hkept, hptr⟩

/-- What is held is held by one only. -/
theorem Held.eq_of_ptr {kbuf kbuf' : Buffer} {h : Memory.Heap} (held : Held kbuf h)
    (held' : Held kbuf' h) (hptr : kbuf.ptr = kbuf'.ptr) : kbuf = kbuf' := by
  have hsize : kbuf.size = kbuf'.size := by rw [held.size_eq, held'.size_eq, hptr]
  cases kbuf
  cases kbuf'
  simp_all

/-- Bytes that fit in the buffer of a call leave all buffers what they are. -/
theorem Held.fill {kbuf other : Buffer} {s : State} (held : Held kbuf s.heap)
    (heldOther : Held other s.heap) {i : Nat} {bytes : List UInt8}
    (hfits : i + bytes.length ≤ kbuf.size) : Held other (s.fill kbuf i bytes).heap := by
  have hbound := held.ptr_lt
  apply heldOther.store held.live
  rw [storeBytes_eq (by omega), ← held.size_eq]
  exact (writeBytes_frame _ _ bytes).widen (Nat.le_add_right _ _) (by omega)

/-- What `kmalloc` does for a call: it gives it no block, and changes nothing, or one that
nobody holds, which is large enough unless its size has wrapped. -/
theorem kmalloc_cases {s : State} (heap : ∃ bs, Memory.HeapInv s.heap bs) (size : Nat) :
    (∃ kbuf, kbuf.ptr = NULL ∧ kmalloc size s = some (kbuf, s)) ∨
      ∃ kbuf s', kmalloc size s = some (kbuf, s') ∧ kbuf.ptr ≠ NULL ∧ Held kbuf s'.heap ∧
        kbuf.ptr ∉ s.heap.live ∧ s'.heap.live = insert kbuf.ptr s.heap.live ∧
        (size ≤ 2 ^ 64 - 8 → size ≤ kbuf.size) := by
  obtain ⟨bs, inv⟩ := heap
  rcases Memory.kmalloc_returns inv size with
    ⟨-, hnull⟩ | ⟨a, bs', t, halloc, hrun, hinit, hstart, layout⟩
  · left
    simp only [kmalloc, hnull, if_pos]
    exact ⟨_, rfl, rfl⟩
  · right
    have hne : a + Memory.sizeofMemoryBlock ≠ NULL := by simp [Memory.sizeofMemoryBlock]
    have inv' := inv.taken halloc hinit hstart layout
    obtain ⟨n, hn, hused⟩ := FreeList.used_alloc halloc
    have hlocated := FreeList.mem_used_iff.mp ((hused _).mpr (Or.inl rfl))
    obtain ⟨next, header⟩ := layout.header_of_mem hlocated
    simp only [kmalloc, hrun, if_neg hne]
    refine ⟨_, _, rfl, hne, ⟨⟨bs', inv'⟩, Finset.mem_insert_self _ _, rfl⟩,
      inv.alloc_fresh halloc, rfl, fun hle => ?_⟩
    have hround : size ≤ Memory.roundUp size := by
      unfold Memory.roundUp
      omega
    rw [Memory.alignSize_eq hle] at hn
    dsimp only
    rw [Nat.add_sub_cancel, header.size_eq]
    exact hround.trans hn

/-- The block of a call is given back. -/
theorem kfree_held {s : State} {kbuf : Buffer} (held : Held kbuf s.heap) :
    ∃ s', kfree kbuf s = some s' ∧ (∃ bs, Memory.HeapInv s'.heap bs) ∧
      s'.heap.live = s.heap.live.erase kbuf.ptr := by
  obtain ⟨bs, inv⟩ := held.heap
  obtain ⟨t, bs', hrun, inv', -⟩ := inv.released held.live
  refine ⟨{ s with heap := ⟨t, s.heap.live.erase kbuf.ptr⟩ }, ?_, ⟨bs', inv'⟩, rfl⟩
  rw [kfree, hrun]
  rfl

/-- `kmalloc` has a block of that size. -/
def HasRoom (size : Nat) (s : State) : Prop :=
  ∃ ptr heap, Memory.kmalloc size s.heap.state = some (ptr, heap) ∧ ptr ≠ NULL

theorem hasRoom_iff {size : Nat} {s s' : State} {kbuf : Buffer}
    (h : kmalloc size s = some (kbuf, s')) : HasRoom size s ↔ kbuf.ptr ≠ NULL := by
  unfold kmalloc at h
  split at h
  · cases h
  · rename_i ptr heap halloc
    cases h
    simp [HasRoom, halloc]

theorem kmalloc_step {size : Nat} {s s' : State} {kbuf : Buffer} (hsize : size < 2 ^ 64)
    (h : kmalloc size s = some (kbuf, s')) : Memory.Step s.heap (.kmalloc size) s'.heap := by
  unfold kmalloc at h
  split at h
  · cases h
  · rename_i ptr heap halloc
    cases h
    by_cases hnull : ptr = NULL
    · subst hnull
      simpa using Memory.Step.kmallocNull hsize halloc
    · simpa [hnull] using Memory.Step.kmalloc hsize halloc hnull

theorem kfree_step {s s' : State} {kbuf : Buffer} (hlive : kbuf.ptr ∈ s.heap.live)
    (h : kfree kbuf s = some s') : Memory.Step s.heap (.kfree kbuf.ptr) s'.heap := by
  obtain ⟨heap, hfree, rfl⟩ := Option.map_eq_some_iff.mp h
  exact .kfree (Or.inr hlive) hfree

end Curnel.Descriptors
