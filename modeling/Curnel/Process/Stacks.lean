/-
The stacks of new processes.

`create_process` takes a block of 4096 bytes from the heap when it has found a free slot,
and does not look at what `kmalloc` returns. So it creates a process with a stack or
refuses with everything as it was if and only if the table is full or the heap holds such
a block, and then `sys_fork` of a current process fails exactly when it refuses
(`creates_or_refuses_iff`). Otherwise a process runs on a null pointer
(`stack_of_nothing`).
-/

import Curnel.Process.Create
import Curnel.Memory.FirstFit

namespace Curnel.Process

open Lib Word

/-! ### Creating a process -/

/-- The process table and the heap. -/
structure Kernel where
  table : Table
  heap : Memory.Heap

/-- The heap after a call of `kmalloc` that has returned `ptr`. -/
def took (ptr : Nat) (s : Memory.State) (h : Memory.Heap) : Memory.Heap :=
  ⟨s, if ptr = NULL then h.live else insert ptr h.live⟩

/-- The block for a stack, which is asked for when a slot is free. -/
def kmallocStack (k : Kernel) : Option (Nat × Memory.Heap) :=
  match getProcess 0 k.table.kernel with
  | none => some (NULL, k.heap)
  | some _ => (Memory.kmalloc 4096 k.heap.state).map fun out => (out.1, took out.1 out.2 k.heap)

def Kernel.createProcess (name : List UInt8) (entryPoint parentPid : Nat) (k : Kernel) :
    Option (Nat × Kernel) :=
  (kmallocStack k).map fun block =>
    let out := Process.createProcess name entryPoint parentPid block.1 k.table
    (out.1, ⟨out.2, block.2⟩)

def Kernel.sysFork (k : Kernel) : Option (Nat × Kernel) :=
  match getCurrentProcess k.table.kernel with
  | none => some (ofInt (-1), k)
  | some _ =>
      (kmallocStack k).map fun block =>
        let out := Process.sysFork block.1 k.table
        (out.1, ⟨out.2, block.2⟩)

/-! ### What is promised -/

/-- Some free block of the heap can hold a stack. -/
def HoldsStack (h : Memory.Heap) : Prop :=
  ∃ list, Memory.blockList (Memory.memoryInit h.state) = some list ∧
    ∃ e ∈ list, Memory.Fits 4096 e

def Full (t : Table) : Prop := ∀ i, (t.kernel.processes i).pid ≠ 0

/-- A live block of at least 4096 bytes that was not live before. -/
structure StackBlock (h h' : Memory.Heap) (ptr : Nat) : Prop where
  ne_null : ptr ≠ NULL
  live : ptr ∈ h'.live
  fresh : ptr ∉ h.live
  size : 4096 ≤ Memory.blockSize h'.state.ram (ptr - Memory.sizeofMemoryBlock)

/-- In the free slot `i` a process has been created, and nothing else has changed. -/
structure Creates (k : Kernel) (pid : Nat) (k' : Kernel) (i : Slot) : Prop where
  free : (k.table.kernel.processes i).pid = 0
  pid_ne : pid ≠ 0
  pid_eq : (k'.table.kernel.processes i).pid = pid
  ready : (k'.table.kernel.processes i).state = .ready
  stack : StackBlock k.heap k'.heap (k'.table.kernel.processes i).stack
  rsp : (k'.table.records i).registers.rsp = (k'.table.kernel.processes i).stack + 4096
  others : ∀ j, j ≠ i → k'.table.kernel.processes j = k.table.kernel.processes j ∧
    k'.table.records j = k.table.records j

/-- `create_process` creates a process with a stack or, for want of a slot or a block, changes
nothing and returns 0; and `sys_fork` returns -1 for want of either only. -/
structure CreatesOrRefuses (k : Kernel) : Prop where
  create : ∀ name entryPoint parentPid, ∃ out,
    k.createProcess name entryPoint parentPid = some out ∧
      ((Full k.table ∨ ¬ HoldsStack k.heap) ∧ out = (0, k) ∨ ∃ i, Creates k out.1 out.2 i)
  fork : ∃ out, k.sysFork = some out ∧
    (out.1 = ofInt (-1) ↔ Full k.table ∨ ¬ HoldsStack k.heap)

/-! ### The block -/

/-- On every heap that runs reach, a stack is a new block if the heap holds one. -/
theorem kmalloc_stack {ram : Lib.Bytes.Store} {ops : List Memory.Op} {h : Memory.Heap}
    (run : Run Memory.Step (Memory.boot ram) ops h) :
    ¬ HoldsStack h ∧ Memory.kmalloc 4096 h.state = some (NULL, Memory.memoryInit h.state) ∨
      HoldsStack h ∧ ∃ ptr s, Memory.kmalloc 4096 h.state = some (ptr, s) ∧
        StackBlock h (took ptr s h) ptr ∧ ptr + 4096 < 2 ^ 64 := by
  obtain ⟨bs, inv⟩ := Memory.heapInv_reached run
  have hround : Memory.roundUp 4096 = 4096 := by decide
  obtain ⟨list, hlist, hfit⟩ := inv.firstFit (n := 4096) (by decide) (by decide)
  rw [hround] at hfit
  rcases hfit with ⟨hholds, e, kept, s', list', hrun, -⟩ | ⟨hnone, hrun⟩
  · right
    refine ⟨⟨list, hlist, hholds⟩, ?_⟩
    rcases Memory.kmalloc_returns inv 4096 with
      ⟨-, hnull⟩ | ⟨a, bs', s, halloc, hcall, hinit, hstart, layout⟩
    · rw [Memory.kmalloc_memoryInit, hrun] at hnull
      cases hnull
    · rw [Memory.kmalloc_memoryInit] at hcall
      have hfresh := inv.alloc_fresh halloc
      have inv' := inv.taken halloc hinit hstart layout
      obtain ⟨n, hn, hused⟩ := FreeList.used_alloc halloc
      have hlocated := FreeList.mem_used_iff.mp ((hused _).mpr (Or.inl rfl))
      obtain ⟨next, header⟩ := layout.header_of_mem hlocated
      have hupper := FreeList.located_upper hlocated
      rw [inv'.covers] at hupper
      have hneed : Memory.alignSize 4096 = 4096 := by decide
      rw [hneed] at hn
      simp only [Memory.sizeofMemoryBlock, Memory.MEMORY_START, Memory.MEMORY_SIZE] at hupper
      refine ⟨_, s, hcall, ⟨by simp [Memory.sizeofMemoryBlock], ?_, hfresh, ?_⟩, ?_⟩
      · simp [took, Memory.sizeofMemoryBlock]
      · simp only [took, Nat.add_sub_cancel, header.size_eq]
        exact hn
      · simp only [Memory.sizeofMemoryBlock]
        omega
  · left
    refine ⟨?_, hrun⟩
    rintro ⟨list', hlist', e, he, hfits⟩
    rw [hlist] at hlist'
    cases hlist'
    exact hnone e he hfits

/-! ### Both calls -/

theorem full_iff (t : Table) : Full t ↔ getProcess 0 t.kernel = none := getProcess_eq_none.symm

theorem kmallocStack_full {k : Kernel} (hfull : getProcess 0 k.table.kernel = none) :
    kmallocStack k = some (NULL, k.heap) := by
  rw [kmallocStack, hfull]

theorem kmallocStack_free {k : Kernel} {i : Slot} {ptr : Nat} {s : Memory.State}
    (hfree : getProcess 0 k.table.kernel = some i)
    (hrun : Memory.kmalloc 4096 k.heap.state = some (ptr, s)) :
    kmallocStack k = some (ptr, took ptr s k.heap) := by
  rw [kmallocStack, hfree]
  dsimp only
  rw [hrun]
  rfl

/-- With a slot that is free, `create_process` fills it, whatever the block is. -/
theorem Kernel.createProcess_free {k : Kernel} {i : Slot} {block : Nat × Memory.Heap}
    (hfree : getProcess 0 k.table.kernel = some i) (hblock : kmallocStack k = some block)
    (name : List UInt8) (entryPoint parentPid : Nat) :
    k.createProcess name entryPoint parentPid = some
      (k.table.nextPid, ⟨k.table.created i name entryPoint parentPid block.1, block.2⟩) := by
  rw [Kernel.createProcess, hblock, Option.map_some, Process.createProcess, hfree]

/-- A current process that forks gets the PID of its child, which is never 0. -/
theorem sysFork_result {t : Table} {current i : Slot}
    (hcurrent : getCurrentProcess t.kernel = some current) (hfree : getProcess 0 t.kernel = some i)
    (hnext : t.nextPid ≠ 0) (stack : Nat) : (Process.sysFork stack t).1 = t.nextPid := by
  rw [Process.sysFork, hcurrent]
  dsimp only
  rw [Process.createProcess, hfree]
  dsimp only
  rw [if_neg hnext]
  cases hfind : getProcess t.nextPid
      (t.created i (t.records current).name 0 (t.kernel.processes current).pid stack).kernel with
  | none =>
      apply absurd _ (getProcess_eq_none.mp hfind i)
      simp only [Table.created, modify_same, newProcess]
  | some child => rfl

theorem sysFork_full {t : Table} (hfull : getProcess 0 t.kernel = none) (stack : Nat) :
    Process.sysFork stack t = (ofInt (-1), t) := by
  unfold Process.sysFork
  cases getCurrentProcess t.kernel with
  | none => rfl
  | some current =>
      dsimp only
      rw [Process.createProcess, hfull]
      rfl

theorem Kernel.sysFork_none {k : Kernel} (hcurrent : getCurrentProcess k.table.kernel = none) :
    k.sysFork = some (ofInt (-1), k) := by
  rw [Kernel.sysFork, hcurrent]

theorem Kernel.sysFork_some {k : Kernel} {current : Slot} {block : Nat × Memory.Heap}
    (hcurrent : getCurrentProcess k.table.kernel = some current)
    (hblock : kmallocStack k = some block) :
    k.sysFork = some ((Process.sysFork block.1 k.table).1,
      ⟨(Process.sysFork block.1 k.table).2, block.2⟩) := by
  rw [Kernel.sysFork, hcurrent]
  dsimp only
  rw [hblock]
  rfl

/-! ### When they keep the promise -/

theorem CreatesOrRefuses.of_full {k : Kernel} (hfull : Full k.table) : CreatesOrRefuses k := by
  have hnone := (full_iff k.table).mp hfull
  have hblock := kmallocStack_full hnone
  constructor
  · intro name entryPoint parentPid
    refine ⟨(0, k), ?_, Or.inl ⟨Or.inl hfull, rfl⟩⟩
    rw [Kernel.createProcess, hblock, Option.map_some, Process.createProcess, hnone]
  · cases hcurrent : getCurrentProcess k.table.kernel with
    | none => exact ⟨_, Kernel.sysFork_none hcurrent, iff_of_true rfl (Or.inl hfull)⟩
    | some current =>
        refine ⟨_, Kernel.sysFork_some hcurrent hblock, iff_of_true ?_ (Or.inl hfull)⟩
        rw [sysFork_full hnone]

/-- With a free slot and a block for the stack. -/
theorem CreatesOrRefuses.of_block {k : Kernel} {i current : Slot} {ptr : Nat} {s : Memory.State}
    (hfree : getProcess 0 k.table.kernel = some i)
    (hcurrent : getCurrentProcess k.table.kernel = some current)
    (hnext : k.table.nextPid ≠ 0 ∧ k.table.nextPid ≠ 2 ^ 64 - 1) (hholds : HoldsStack k.heap)
    (hrun : Memory.kmalloc 4096 k.heap.state = some (ptr, s))
    (block : StackBlock k.heap (took ptr s k.heap) ptr) (hptr : ptr + 4096 < 2 ^ 64) :
    CreatesOrRefuses k := by
  have hblock := kmallocStack_free hfree hrun
  constructor
  · intro name entryPoint parentPid
    refine ⟨_, Kernel.createProcess_free hfree hblock name entryPoint parentPid, Or.inr ⟨i, ?_⟩⟩
    have hprocess : ((k.table.created i name entryPoint parentPid ptr).kernel.processes i)
        = newProcess k.table.nextPid parentPid ptr (k.table.kernel.processes i) := by
      rw [Table.created, modify_same]
    refine ⟨getProcess_pid hfree, hnext.1, ?_, ?_, ?_, ?_, ?_⟩
    · rw [hprocess, newProcess]
    · rw [hprocess, newProcess]
    · rw [hprocess, newProcess]
      exact block
    · rw [hprocess, newProcess]
      simp only [Table.created, Function.update_self, newRecord]
      exact wadd_of_lt hptr
    · intro j hj
      exact ⟨modify_other _ hj, Function.update_of_ne hj _ _⟩
  · refine ⟨_, Kernel.sysFork_some hcurrent hblock, iff_of_false ?_ ?_⟩
    · rw [sysFork_result hcurrent hfree hnext.1]
      exact hnext.2
    · rintro (hfull | hnot)
      · exact hfull i (getProcess_pid hfree)
      · exact hnot hholds

/-- Where they keep the promise with a free slot, a process was current that had a stack to
give and a PID. -/
theorem CreatesOrRefuses.needs {k : Kernel} {i : Slot} {block : Nat × Memory.Heap}
    (promise : CreatesOrRefuses k) (hfree : getProcess 0 k.table.kernel = some i)
    (hblock : kmallocStack k = some block) (hholds : HoldsStack k.heap) :
    getCurrentProcess k.table.kernel ≠ none ∧ k.table.nextPid ≠ 0 ∧
      k.table.nextPid ≠ 2 ^ 64 - 1 := by
  have hroom : ¬ (Full k.table ∨ ¬ HoldsStack k.heap) := by
    rintro (hfull | hnot)
    · exact hfull i (getProcess_pid hfree)
    · exact hnot hholds
  have hnext : k.table.nextPid ≠ 0 := by
    obtain ⟨out, hcall, hcases⟩ := promise.create [] 0 0
    rw [Kernel.createProcess_free hfree hblock] at hcall
    cases hcall
    rcases hcases with ⟨hwant, -⟩ | ⟨j, creates⟩
    · exact absurd hwant hroom
    · exact creates.pid_ne
  obtain ⟨out, hcall, hfails⟩ := promise.fork
  cases hcurrent : getCurrentProcess k.table.kernel with
  | none =>
      rw [Kernel.sysFork_none hcurrent] at hcall
      cases hcall
      exact absurd (hfails.mp rfl) hroom
  | some current =>
      refine ⟨by simp, hnext, fun hlast => ?_⟩
      rw [Kernel.sysFork_some hcurrent hblock] at hcall
      cases hcall
      rw [sysFork_result hcurrent hfree hnext] at hfails
      exact hroom (hfails.mp hlast)

/-- Without a block there is a process without a stack. -/
theorem not_createsOrRefuses {k : Kernel} {i : Slot} {s : Memory.State}
    (hfree : getProcess 0 k.table.kernel = some i)
    (hrun : Memory.kmalloc 4096 k.heap.state = some (NULL, s)) : ¬ CreatesOrRefuses k := by
  intro promise
  obtain ⟨out, hcall, hcases⟩ := promise.create [] 0 0
  rw [Kernel.createProcess_free hfree (kmallocStack_free hfree hrun)] at hcall
  cases hcall
  have hprocess : ((k.table.created i [] 0 0 NULL).kernel.processes i)
      = newProcess k.table.nextPid 0 NULL (k.table.kernel.processes i) := by
    rw [Table.created, modify_same]
  rcases hcases with ⟨-, hsame⟩ | ⟨j, creates⟩
  · -- a PID has been given out
    have hpid : k.table.nextPid = 0 := congrArg Prod.fst hsame
    have hnext : wadd 64 k.table.nextPid 1 = k.table.nextPid :=
      congrArg (fun out : Nat × Kernel => out.2.table.nextPid) hsame
    rw [hpid] at hnext
    exact absurd hnext (by decide)
  · by_cases hj : j = i
    · subst hj
      have hnull := creates.stack.ne_null
      rw [hprocess, newProcess] at hnull
      exact hnull rfl
    · have hother := (creates.others i fun hi => hj hi.symm).1
      rw [hprocess] at hother
      have hpid := congrArg Process.pid hother
      rw [getProcess_pid hfree] at hpid
      exact creates.pid_ne hpid

/-- For every process table, and every heap that `kmalloc` and `kfree` of live pointers reach:
the two calls keep the promise if and only if the table is full, or the heap holds a
stack, a process is current to fork, and the next PID is not taken for a failure. -/
theorem creates_or_refuses_iff {ram : Lib.Bytes.Store} {ops : List Memory.Op} {h : Memory.Heap}
    (run : Run Memory.Step (Memory.boot ram) ops h) (t : Table) :
    CreatesOrRefuses ⟨t, h⟩ ↔
      Full t ∨ HoldsStack h ∧ getCurrentProcess t.kernel ≠ none ∧
        t.nextPid ≠ 0 ∧ t.nextPid ≠ 2 ^ 64 - 1 := by
  cases hfree : getProcess 0 t.kernel with
  | none =>
      have hfull := (full_iff t).mpr hfree
      exact iff_of_true (.of_full hfull) (Or.inl hfull)
  | some i =>
      have hnotFull : ¬ Full t := fun hfull => hfull i (getProcess_pid hfree)
      rcases kmalloc_stack run with ⟨hnot, hrun⟩ | ⟨hholds, ptr, s, hrun, block, hptr⟩
      · refine iff_of_false (not_createsOrRefuses hfree hrun) ?_
        rintro (hfull | ⟨hholds, -⟩)
        · exact hnotFull hfull
        · exact hnot hholds
      · constructor
        · intro promise
          exact Or.inr ⟨hholds, promise.needs hfree (kmallocStack_free hfree hrun) hholds⟩
        · rintro (hfull | ⟨-, hcurrent, hnext⟩)
          · exact absurd hfull hnotFull
          · obtain ⟨current, hcurrent⟩ := Option.ne_none_iff_exists'.mp hcurrent
            exact .of_block hfree hcurrent hnext hholds hrun block hptr

/-- The first process is current, and the heap has not been used. -/
theorem creates_or_refuses_iff_boot :
    HoldsStack (Memory.boot fun _ => 0) ∧
      CreatesOrRefuses ⟨(createProcess [] 0 0 0 (.start true 0 100)).2,
        Memory.boot fun _ => 0⟩ := by
  have hholds : HoldsStack (Memory.boot fun _ => 0) :=
    ⟨_, (Memory.heapInv_boot fun _ => 0).blockList_eq,
      ⟨Memory.MEMORY_START, Memory.MEMORY_SIZE - Memory.sizeofMemoryBlock, 1⟩,
      List.mem_cons_self, by unfold Memory.Fits; decide⟩
  exact ⟨hholds, (creates_or_refuses_iff (.nil _) _).mpr
    (Or.inr ⟨hholds, by decide +kernel, by decide +kernel, by decide +kernel⟩)⟩

/-- One allocation has taken the whole heap. The process created after it has no stack, and
its `rsp` is 4096. -/
theorem stack_of_nothing :
    ∃ h k', Run Memory.Step (Memory.boot fun _ => 0)
        [.memoryInit, .kmalloc (Memory.MEMORY_SIZE - Memory.sizeofMemoryBlock)] h ∧
      Kernel.createProcess [] 0x1000 0 ⟨.start true 0 100, h⟩ = some (1, k') ∧
      (k'.table.kernel.processes 0).pid = 1 ∧ (k'.table.kernel.processes 0).stack = NULL ∧
      (k'.table.records 0).registers.rsp = 4096 ∧
      ¬ CreatesOrRefuses ⟨.start true 0 100, h⟩ := by
  have inv := Memory.heapInv_boot fun _ => 0
  have hfit : FreeList.alloc Memory.sizeofMemoryBlock Memory.BLOCK_SIZE
      (Memory.alignSize (Memory.MEMORY_SIZE - Memory.sizeofMemoryBlock)) Memory.MEMORY_START
      [⟨Memory.MEMORY_SIZE - Memory.sizeofMemoryBlock, true⟩]
      = some (Memory.MEMORY_START,
        [⟨Memory.MEMORY_SIZE - Memory.sizeofMemoryBlock, false⟩]) := by decide
  rcases Memory.kmalloc_returns inv (Memory.MEMORY_SIZE - Memory.sizeofMemoryBlock) with
    ⟨hnone, -⟩ | ⟨a, bs, s, halloc, hrun, hinit, hstart, layout⟩
  · rw [hfit] at hnone
    rcases hnone with hzero | hnone
    · exact absurd hzero (by decide)
    · cases hnone
  have inv' := inv.taken halloc hinit hstart layout
  rw [hfit] at halloc
  cases halloc
  have run := Run.cons (Memory.Step.memoryInit (Memory.boot fun _ => 0))
    (.single (Memory.Step.kmalloc (by decide) hrun (by decide)))
  have hlist := inv'.blockList_eq
  rw [← Memory.memoryInit_of_initialized hinit] at hlist
  rcases kmalloc_stack run with ⟨-, hnull⟩ | ⟨⟨list, hlist', e, he, hfits⟩, -⟩
  · have hfree : getProcess 0 (Table.start true 0 100).kernel = some 0 := by decide +kernel
    have hblock : kmallocStack ⟨.start true 0 100, _⟩ = _ := kmallocStack_free hfree hnull
    have hslot : let u := (Table.start true 0 100).created 0 [] 0x1000 0 NULL
        (u.kernel.processes 0).pid = 1 ∧ (u.kernel.processes 0).stack = NULL ∧
          (u.records 0).registers.rsp = 4096 := by decide +kernel
    exact ⟨_, _, run, Kernel.createProcess_free hfree hblock [] 0x1000 0, hslot.1, hslot.2.1,
      hslot.2.2, not_createsOrRefuses hfree hnull⟩
  · rw [hlist] at hlist'
    cases hlist'
    rw [List.mem_singleton.mp he] at hfits
    exact absurd hfits.1 (by decide)

end Curnel.Process
