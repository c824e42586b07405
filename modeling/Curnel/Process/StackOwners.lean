/-
Who owns the stacks.

Every block that `kmalloc` has returned for a stack is in one slot of the process table, or
`exit_process` has given it back, once. That is a ledger kept by all calls, however deep
exits nest in exits (`Frees`), because `exit_process` forgets the pointer it frees; the
other users of the heap do not see it. So no stack is freed twice and none is lost
(`stacks_owned_once`).
-/

import Curnel.Process.Ancestry
import Curnel.Process.Stacks

namespace Curnel.Process

open Lib Word

/-! ### The system -/

/-- The pointers given to `kfree`, in order. -/
def kfrees (log : List Event) : List Nat :=
  log.filterMap fun
    | .kfree ptr => some ptr
    | _ => none

/-- The kernel with its ledger: the blocks that others hold, and the blocks that have been
given for stacks. -/
structure StackSystem where
  kernel : Kernel
  others : Finset Nat
  given : Multiset Nat

inductive StackOp where
  | createProcess (name : List UInt8) (entryPoint parentPid : Nat)
  | sysFork
  | call (op : Op)
  | other (op : Memory.Op)

/-- The pointers that a call has given to `kfree`. -/
def freedBy (s s' : State) : List Nat := kfrees (s'.log.drop s.log.length)

/-- The blocks that a call of `kmalloc` has returned. -/
def allocated (h h' : Memory.Heap) : Finset Nat := h'.live \ h.live

/-- Processes are created and exit, whoever calls for it; and others use the heap, and free
what is theirs. -/
inductive StackStep : StackSystem → StackOp → StackSystem → Prop where
  | createProcess {y : StackSystem} {name : List UInt8} {entryPoint parentPid : Nat}
      {out : Nat × Kernel} :
      y.kernel.createProcess name entryPoint parentPid = some out →
        StackStep y (.createProcess name entryPoint parentPid)
          ⟨out.2, y.others, y.given + (allocated y.kernel.heap out.2.heap).val⟩
  | sysFork {y : StackSystem} {out : Nat × Kernel} :
      y.kernel.sysFork = some out →
        StackStep y .sysFork
          ⟨out.2, y.others, y.given + (allocated y.kernel.heap out.2.heap).val⟩
  | call {y : StackSystem} {op : Op} {s : State} {m : Memory.State} :
      Step y.kernel.table.kernel op s → Rightful y.kernel.table.kernel (.call op) →
      Memory.kfreeAll (freedBy y.kernel.table.kernel s) y.kernel.heap.state = some m →
        StackStep y (.call op)
          ⟨⟨{ y.kernel.table with kernel := s },
            ⟨m, y.kernel.heap.live \ (freedBy y.kernel.table.kernel s).toFinset⟩⟩,
            y.others, y.given⟩
  | other {y : StackSystem} {op : Memory.Op} {h : Memory.Heap} :
      Memory.Step y.kernel.heap op h →
      (∀ ptr, op = .kfree ptr → ptr = NULL ∨ ptr ∈ y.others) →
        StackStep y (.other op)
          ⟨⟨y.kernel.table, h⟩, y.others ∩ h.live ∪ allocated y.kernel.heap h, y.given⟩

def StackSystem.start (enabled : Bool) (ticks frequency : Nat) (ram : Lib.Bytes.Store) :
    StackSystem :=
  ⟨⟨.start enabled ticks frequency, Memory.boot ram⟩, ∅, 0⟩

/-- The stack of the process in a slot. -/
def stackOf (s : State) (i : Slot) : Nat := (s.processes i).stack

structure StacksOwned (y : StackSystem) : Prop where
  live : ∀ i, stackOf y.kernel.table.kernel i = NULL ∨
    stackOf y.kernel.table.kernel i ∈ y.kernel.heap.live ∧
      stackOf y.kernel.table.kernel i ∉ y.others
  distinct : ∀ i j, stackOf y.kernel.table.kernel i ≠ NULL →
    stackOf y.kernel.table.kernel i = stackOf y.kernel.table.kernel j → i = j
  exited : ∀ i, .exited i ∈ y.kernel.table.kernel.log → stackOf y.kernel.table.kernel i = NULL
  kept : ∀ ptr ∈ y.kernel.heap.live, ptr ∈ y.others ∨
    ∃ i, stackOf y.kernel.table.kernel i = ptr
  /-- Of the times that a block was given for a stack, all but one have been ended by `kfree`
  if a slot holds it, and all if none does. -/
  ledger : ∀ ptr, ptr ≠ NULL → y.given.count ptr =
    (kfrees y.kernel.table.kernel.log).count ptr +
      (Finset.univ.filter fun i => stackOf y.kernel.table.kernel i = ptr).card

/-! ### What a call frees -/

/-- From `s` to `s'` the stacks in `slots` have been freed, in this order, and forgotten;
those who have exited have none. -/
structure Frees (s s' : State) (slots : List Slot) (new : List Event) : Prop where
  log : s'.log = s.log ++ new
  signalStack : ∀ i, (s'.processes i).signalStack = (s.processes i).signalStack
  nodup : slots.Nodup
  held : ∀ i ∈ slots, stackOf s i ≠ NULL
  stack : ∀ i, stackOf s' i = if i ∈ slots then NULL else stackOf s i
  freed : kfrees new = slots.map (stackOf s)
  exited : ∀ i, .exited i ∈ new → stackOf s' i = NULL

/-- Nobody has a signal stack. -/
def NoSignalStacks (s : State) : Prop := ∀ i, (s.processes i).signalStack = NULL

def Releasing (s s' : State) : Prop := NoSignalStacks s → ∃ slots new, Frees s s' slots new

theorem kfrees_append (log new : List Event) : kfrees (log ++ new) = kfrees log ++ kfrees new :=
  List.filterMap_append

namespace Frees

variable {s s' s'' : State} {slots slots' : List Slot} {new new' : List Event}

theorem trans (first : Frees s s' slots new) (second : Frees s' s'' slots' new') :
    Frees s s'' (slots ++ slots') (new ++ new') := by
  have hheld : ∀ i ∈ slots', i ∉ slots ∧ stackOf s' i = stackOf s i := by
    intro i hi
    have hsome := second.held i hi
    rw [first.stack i] at hsome ⊢
    by_cases hfreed : i ∈ slots
    · rw [if_pos hfreed] at hsome
      exact absurd rfl hsome
    · exact ⟨hfreed, if_neg hfreed⟩
  refine ⟨?_, ?_, ?_, ?_, ?_, ?_, ?_⟩
  · rw [second.log, first.log, List.append_assoc]
  · exact fun i => (second.signalStack i).trans (first.signalStack i)
  · refine List.nodup_append.mpr ⟨first.nodup, second.nodup, ?_⟩
    rintro i hi j hj rfl
    exact (hheld i hj).1 hi
  · intro i hi
    rcases List.mem_append.mp hi with hi | hi
    · exact first.held i hi
    · rw [← (hheld i hi).2]
      exact second.held i hi
  · intro i
    rw [second.stack i, first.stack i]
    by_cases hi : i ∈ slots
    · rw [if_pos hi, if_pos (List.mem_append_left _ hi)]
      exact ite_self NULL
    · rw [if_neg hi]
      have hiff : i ∈ slots ++ slots' ↔ i ∈ slots' := by rw [List.mem_append, or_iff_right hi]
      rw [if_congr hiff rfl rfl]
  · rw [kfrees_append, first.freed, second.freed, List.map_append]
    congr 1
    exact List.map_congr_left fun i hi => (hheld i hi).2
  · intro i hi
    rw [second.stack i]
    rcases List.mem_append.mp hi with hi | hi
    · rw [first.exited i hi]
      exact ite_self NULL
    · rw [← second.stack i]
      exact second.exited i hi

/-- A change that frees nothing. -/
theorem of_same (hlog : s'.log = s.log ++ new) (hkfrees : kfrees new = [])
    (hexited : ∀ i, .exited i ∉ new)
    (hsignal : ∀ i, (s'.processes i).signalStack = (s.processes i).signalStack)
    (hstack : ∀ i, stackOf s' i = stackOf s i) : Frees s s' [] new := by
  refine ⟨hlog, hsignal, List.nodup_nil, by simp, ?_, hkfrees, ?_⟩
  · intro i
    rw [if_neg List.not_mem_nil]
    exact hstack i
  · exact fun i hi => absurd hi (hexited i)

/-- Cleaning up frees the stack of the process that leaves, if it still has one. -/
theorem makeZombie (i : Slot) (pid : Nat) (s : State) (hsignal : NoSignalStacks s) :
    ∃ slots new, Frees s (makeZombie i pid s) slots new := by
  -- the orphans and the state have nothing to do with the stacks
  have hrest : ∀ (g : Process → Nat), (∀ p v, g { p with state := v } = g p) →
      (∀ p v, g { p with parentPid := v } = g p) → ∀ t j,
      g ((((orphanChildren pid t).setState i .zombie).emit (.exited i)).processes j)
        = g (t.processes j) := by
    intro g hstate hparent t j
    have hzombie := modify_congr (i := i) g (s := orphanChildren pid t)
      (f := fun p => { p with state := .zombie }) (hstate _ _) j
    refine hzombie.trans ?_
    simp only [orphanChildren]
    split
    · exact hparent _ _
    · rfl
  have hkept : kfreeSignalStack i (kfreeStack i s) = kfreeStack i s := by
    have hnull : ((kfreeStack i s).processes i).signalStack = NULL := by
      rw [← hsignal i]
      unfold kfreeStack
      split
      · exact modify_congr Process.signalStack rfl i
      · rfl
    unfold kfreeSignalStack
    rw [if_neg (not_not.mpr hnull)]
  unfold Process.makeZombie
  rw [hkept]
  have hstack := hrest Process.stack (fun _ _ => rfl) (fun _ _ => rfl) (kfreeStack i s)
  have hsignalStack := hrest Process.signalStack (fun _ _ => rfl) (fun _ _ => rfl)
    (kfreeStack i s)
  by_cases hheld : (s.processes i).stack ≠ NULL
  · have hfree : kfreeStack i s = (s.emit (.kfree (s.processes i).stack)).modify i
        fun p => { p with stack := NULL } := by rw [kfreeStack, if_pos hheld]
    have hfreed : ∀ j, ((kfreeStack i s).processes j).stack
        = if j = i then NULL else (s.processes j).stack := by
      intro j
      rw [hfree]
      by_cases hj : j = i
      · rw [hj, modify_same, if_pos rfl]
      · rw [modify_other _ hj, if_neg hj]
        rfl
    refine ⟨[i], [.kfree (s.processes i).stack, .exited i], ?_, ?_, List.nodup_singleton i, ?_,
      ?_, rfl, ?_⟩
    · rw [hfree]
      exact List.append_assoc s.log _ _
    · intro j
      rw [hsignalStack j, hfree]
      exact modify_congr Process.signalStack rfl j
    · intro j hj
      rw [List.mem_singleton.mp hj]
      exact hheld
    · intro j
      rw [stackOf, hstack j, hfreed j]
      simp only [List.mem_singleton, stackOf]
    · intro j hj
      have hji : j = i := by simpa using hj
      rw [stackOf, hstack j, hfreed j, if_pos hji]
  · have hfree : kfreeStack i s = s := by rw [kfreeStack, if_neg hheld]
    rw [hfree] at hstack hsignalStack ⊢
    refine ⟨[], [.exited i], rfl, hsignalStack, List.nodup_nil, by simp, ?_, rfl, ?_⟩
    · intro j
      rw [if_neg List.not_mem_nil]
      exact hstack j
    · intro j hj
      have hji : j = i := by simpa using hj
      rw [stackOf, hstack j, hji]
      exact not_not.mp hheld

end Frees

namespace Releasing

variable {s s' s'' : State}

theorem of_same (hlog : s'.log = s.log)
    (hsignal : ∀ i, (s'.processes i).signalStack = (s.processes i).signalStack)
    (hstack : ∀ i, stackOf s' i = stackOf s i) : Releasing s s' :=
  fun _ => ⟨[], [], .of_same (hlog.trans (List.append_nil _).symm) rfl
    (fun _ => List.not_mem_nil) hsignal hstack⟩

theorem refl (s : State) : Releasing s s := of_same rfl (fun _ => rfl) fun _ => rfl

theorem trans (first : Releasing s s') (second : Releasing s' s'') : Releasing s s'' := by
  intro hsignal
  obtain ⟨slots, new, frees⟩ := first hsignal
  obtain ⟨slots', new', frees'⟩ := second fun i => (frees.signalStack i).trans (hsignal i)
  exact ⟨_, _, frees.trans frees'⟩

theorem modify {i : Slot} {f : Process → Process}
    (hsignal : (f (s.processes i)).signalStack = (s.processes i).signalStack)
    (hstack : (f (s.processes i)).stack = (s.processes i).stack) :
    Releasing s (s.modify i f) :=
  of_same rfl (modify_congr Process.signalStack hsignal) (modify_congr Process.stack hstack)

theorem continueProcess (pid : Nat) (s : State) : Releasing s (continueProcess pid s) := by
  rcases continueProcess_cases pid s with hout | ⟨i, -, -, hout⟩
  · rw [hout]
    exact refl s
  · rw [hout]
    exact modify rfl rfl

theorem callHandler (i : Slot) (signum handler : Nat) (s : State) :
    Releasing s (callHandler i signum handler s) :=
  fun _ => ⟨[], _, .of_same rfl rfl (by simp) (modify_congr Process.signalStack rfl)
    (modify_congr Process.stack rfl)⟩

theorem signalAddPending (i : Slot) (signum : Int) (s : State) :
    Releasing s (signalAddPending i signum s).2 := by
  have pending : Releasing s (setPending i signum.toNat s) := modify rfl rfl
  rcases signalAddPending_cases i signum s with hout | hout
  · rw [hout]
    exact refl s
  · rw [hout]
    exact pending

theorem keptByCalls : KeptByCalls Releasing where
  refl := refl
  trans := trans
  index _ _ := of_same rfl (fun _ => rfl) fun _ => rfl
  setState _ _ _ _ := modify rfl rfl
  switchToProcess pid s := by
    unfold switchToProcess
    split
    · exact refl s
    next i _ =>
      have running : Releasing s (s.modify i fun p =>
          { p with state := .running, cpuTime := wadd 64 p.cpuTime 1 }) := modify rfl rfl
      exact running.trans (of_same rfl (fun _ => rfl) fun _ => rfl)
  continueProcess := continueProcess
  makeZombie := Frees.makeZombie
  signalAddPending i signum s _ _ _ := signalAddPending i signum s
  pendingFate := pendingFate_induct refl trans (fun _ _ _ => modify rfl rfl) callHandler
    continueProcess

end Releasing

/-- However deep exits nest in exits, a call frees stacks that are held, and forgets them. -/
theorem Step.frees {s s' : State} {op : Op} (step : Step s op s') (hsignal : NoSignalStacks s) :
    ∃ slots new, Frees s s' slots new := by
  have releasing : Releasing s s' := by
    apply Releasing.keptByCalls.step _ _ step
    · intro pid _
      unfold Process.blockProcess
      split
      · exact .refl s
      · exact .modify rfl rfl
    · exact fun _ _ => .of_same rfl (fun _ => rfl) fun _ => rfl
    · exact fun _ _ _ => .modify rfl rfl
  exact releasing hsignal

/-! ### Only live processes exit -/

def ExitedLive (s : State) : Prop := ∀ j, .exited j ∈ s.log → (s.processes j).pid ≠ 0

namespace ExitedLive

variable {s s' : State}

theorem evolves (live : ExitedLive s) (evolves : Evolves s s')
    (hexits : ∀ j, .exited j ∈ s'.log → .exited j ∈ s.log) : ExitedLive s' := by
  intro j hj
  rw [evolves.pid_eq j]
  exact live j (hexits j hj)

theorem selectedFate (live : ExitedLive s) (i : Slot) : ExitedLive (selectedFate i s).2 :=
  live.evolves (evolves_selectedFate i s) fun j => (selectedFate_exits i s j).mp

theorem exitPrepared (live : ExitedLive s) {i : Slot} (hi : (s.processes i).pid ≠ 0)
    (pid : Nat) : ExitedLive (exitPrepared pid i s) := by
  intro j hj
  rw [(evolves_exitPrepared pid i s).pid_eq j]
  rcases (exitPrepared_exits pid i s j).mp hj with hold | rfl
  · exact live j hold
  · exact hi

theorem dispatch (live : ExitedLive s) : ExitedLive (dispatch s) :=
  live.evolves (evolves_dispatch s) fun j hj => by rwa [dispatch_log] at hj

theorem schedule {fuel : Nat} (live : ExitedLive s) (wf : WellFormed s)
    (h : schedule fuel s = some s') : ExitedLive s' := by
  induction fuel using Nat.strong_induction_on generalizing s s' with
  | _ fuel ih =>
      rcases schedule_cases wf h with ⟨-, rfl⟩ | ⟨i, hnext, hrest⟩
      · exact live
      have scanned := live.selectedFate i
      rcases hrest with ⟨-, rfl⟩ | ⟨signum, t, less, -, hless, hrun, rfl⟩
      · exact scanned.dispatch
      · have hpid := (evolves_selectedFate i s).pid_eq i
        have exited := scanned.exitPrepared (hpid.symm ▸ (runnable_of_nextRunnable hnext).1)
          (s.processes i).pid
        have wf' := (wf.evolves (evolves_selectedFate i s)).evolves
          (evolves_exitPrepared (s.processes i).pid i _)
        exact (ih less hless exited wf' hrun).dispatch

theorem exitProcess {fuel pid code : Nat} (live : ExitedLive s) (wf : WellFormed s)
    (hpid : pid ≠ 0) (h : exitProcess fuel pid code s = some s') : ExitedLive s' := by
  rcases exitProcess_cases wf h with ⟨-, rfl⟩ | ⟨i, less, hfind, -, hrun⟩
  · exact live
  · have hi : (s.processes i).pid ≠ 0 := by
      rw [getProcess_pid hfind]
      exact hpid
    exact (live.exitPrepared hi pid).schedule (wf.evolves (evolves_exitPrepared pid i s)) hrun

theorem stopProcess {fuel pid : Nat} (live : ExitedLive s) (wf : WellFormed s)
    (h : stopProcess fuel pid s = some s') : ExitedLive s' := by
  rcases stopProcess_cases h with ⟨-, rfl⟩ | ⟨i, less, -, -, hrun⟩
  · exact live
  · have stopped := live.evolves (evolves_setState s i .stopped) fun _ hj => hj
    exact stopped.schedule (wf.evolves (evolves_setState s i .stopped)) hrun

theorem continueProcess (live : ExitedLive s) (pid : Nat) :
    ExitedLive (continueProcess pid s) := by
  rcases continueProcess_cases pid s with hout | ⟨i, -, -, hout⟩
  · rw [hout]
    exact live
  · rw [hout]
    exact live.evolves (evolves_setState s i .ready) fun _ hj => hj

theorem signalSend {fuel : Nat} {i : Slot} {signum : Int} {out : Int × State}
    (live : ExitedLive s) (wf : WellFormed s) (hi : (s.processes i).pid ≠ 0)
    (h : signalSend fuel i signum s = some out) : ExitedLive out.2 := by
  rcases signalSend_cases h with ⟨-, rfl⟩ | ⟨less, -, hexit⟩ | ⟨less, -, hstop⟩ |
    ⟨-, rfl | rfl⟩ | ⟨-, rfl⟩
  · exact live
  · exact live.exitProcess wf hi hexit
  · exact live.stopProcess wf hstop
  · exact live.continueProcess (s.processes i).pid
  · exact live
  · exact live.evolves (evolves_signalAddPending i signum s)
      fun j => ((onlySignals_signalAddPending i signum s).exits j).mp

end ExitedLive

theorem timerTick_log (s : State) : (timerTick s).log = s.log :=
  timerTick_induct (R := fun s s' => s'.log = s.log) (fun _ => rfl)
    (fun first second => second.trans first) (fun _ _ => rfl) (fun _ _ => rfl) s

theorem Step.exitedLive {s s' : State} {op : Op} (step : Step s op s') (wf : WellFormed s)
    (rightful : Rightful s (.call op)) (live : ExitedLive s) : ExitedLive s' := by
  have kept : ∀ {u : State}, Evolves s u → u.log = s.log → ExitedLive u :=
    fun evolves hlog => live.evolves evolves fun j hj => by rwa [hlog] at hj
  cases step with
  | signalSend h => exact live.signalSend wf rightful h
  | @signalHandlePending fuel i _ out h =>
      have scanned : ExitedLive (pendingFate i s).2 :=
        live.evolves (evolves_pendingFate i s) fun j => ((pendingFate_spec i s).2.exits j).mp
      rcases signalHandlePending_cases h with ⟨-, hout⟩ | ⟨signum, less, -, -, hexit⟩
      · rw [hout]
        exact scanned
      · rw [(evolves_pendingFate i s).pid_eq i] at hexit
        exact scanned.exitProcess (wf.evolves (evolves_pendingFate i s)) rightful hexit
  | schedule h => exact live.schedule wf h
  | exitProcess h => exact live.exitProcess wf rightful h
  | stopProcess h => exact live.stopProcess wf h
  | @continueProcess pid _ => exact live.continueProcess pid
  | @blockProcess pid _ =>
      apply kept (evolves_blockProcess pid s)
      unfold Process.blockProcess
      split
      · rfl
      · rfl
  | @unblockProcess pid _ =>
      rcases unblockProcess_cases pid s with hout | ⟨i, -, -, hout⟩
      · rw [hout]
        exact live
      · rw [hout]
        exact kept (evolves_setState s _ .ready) rfl
  | @sleepProcess fuel pid ms _ _ h =>
      rcases sleepProcess_cases h with ⟨-, rfl⟩ | ⟨i, -, hrun⟩
      · exact live
      · have asleep : Evolves s (fallAsleep i ms s) := evolves_modify rfl rfl
        exact (kept asleep rfl).schedule (wf.evolves asleep) hrun
  | timerHandler h =>
      have ticked := kept (evolves_timerTick s) (timerTick_log s)
      rcases (timerHandler_cases h).2 with ⟨-, hrun⟩ | ⟨-, hout⟩
      · exact ticked.schedule (wf.evolves (evolves_timerTick s)) hrun
      · rw [hout]
        exact ticked

/-! ### The heap -/

/-- A heap that `kmalloc` and `kfree` of live pointers reach from boot. -/
def HeapReached (h : Memory.Heap) : Prop :=
  ∃ ram ops, Run Memory.Step (Memory.boot ram) ops h

namespace HeapReached

variable {h h' : Memory.Heap}

theorem step {op : Memory.Op} (reached : HeapReached h) (step : Memory.Step h op h') :
    HeapReached h' := by
  obtain ⟨ram, ops, run⟩ := reached
  exact ⟨ram, _, run.append (.single step)⟩

/-- A heap that has live pointers has been initialized, and its blocks tile the arena. -/
theorem heapInv (reached : HeapReached h) {ptr : Nat} (hmem : ptr ∈ h.live) :
    ∃ bs, Memory.HeapInv h bs := by
  obtain ⟨ram, ops, run⟩ := reached
  have hinv := run.invariant (I := fun h => (∃ bs, Memory.HeapInv h bs) ∨ h = Memory.boot ram)
    (fun hreached step => step.reached hreached) (Or.inr rfl)
  rcases hinv with hinv | rfl
  · exact hinv
  · cases hmem

theorem null_not_live (reached : HeapReached h) : NULL ∉ h.live := by
  intro hnull
  obtain ⟨bs, inv⟩ := reached.heapInv hnull
  obtain ⟨a, n, -, hptr⟩ := (inv.live_iff _).mp hnull
  exact absurd hptr.symm (Nat.succ_ne_zero (a + 23))

/-- Live pointers can be freed, one after another. -/
theorem kfreeAll {ptrs : List Nat} (reached : HeapReached h) (hnodup : ptrs.Nodup)
    (hlive : ∀ ptr ∈ ptrs, ptr ∈ h.live) :
    ∃ m, Memory.kfreeAll ptrs h.state = some m ∧ HeapReached ⟨m, h.live \ ptrs.toFinset⟩ := by
  induction ptrs generalizing h with
  | nil =>
      refine ⟨h.state, rfl, ?_⟩
      rw [List.toFinset_nil, Finset.sdiff_empty]
      exact reached
  | cons ptr ptrs ih =>
      obtain ⟨hptr, hnodup⟩ := List.nodup_cons.mp hnodup
      have hmem := hlive ptr List.mem_cons_self
      obtain ⟨bs, inv⟩ := reached.heapInv hmem
      obtain ⟨m, hrun, -⟩ := Memory.kfree_returns inv hmem
      have first : Memory.Step h (.kfree ptr) ⟨m, h.live.erase ptr⟩ := .kfree (Or.inr hmem) hrun
      have hrest : ∀ q ∈ ptrs, q ∈ h.live.erase ptr := by
        intro q hq
        refine Finset.mem_erase.mpr ⟨?_, hlive q (List.mem_cons_of_mem _ hq)⟩
        rintro rfl
        exact hptr hq
      obtain ⟨m', hruns, reached'⟩ := ih (reached.step first) hnodup hrest
      refine ⟨m', ?_, ?_⟩
      · rw [Memory.kfreeAll, List.foldlM_cons, hrun]
        exact hruns
      · have hsame : h.live.erase ptr \ ptrs.toFinset = h.live \ (ptr :: ptrs).toFinset := by
          ext q
          simp only [Finset.mem_sdiff, Finset.mem_erase, List.toFinset_cons, Finset.mem_insert]
          tauto
        rwa [← hsame]

end HeapReached

/-- What taking a block for a stack does to the heap. -/
theorem kmallocStack_cases {k : Kernel} {block : Nat × Memory.Heap}
    (reached : HeapReached k.heap) (h : kmallocStack k = some block) :
    HeapReached block.2 ∧
      (block.1 = NULL ∧ block.2.live = k.heap.live ∨
        block.1 ≠ NULL ∧ block.1 ∉ k.heap.live ∧
          block.2.live = insert block.1 k.heap.live) := by
  unfold kmallocStack at h
  split at h
  · cases h
    exact ⟨reached, Or.inl ⟨rfl, rfl⟩⟩
  · obtain ⟨out, hrun, rfl⟩ := Option.map_eq_some_iff.mp h
    obtain ⟨ram, ops, run⟩ := reached
    rcases kmalloc_stack run with ⟨-, hnull⟩ | ⟨-, ptr, s, hptr, block, -⟩
    · rw [hrun] at hnull
      cases hnull
      refine ⟨HeapReached.step ⟨ram, ops, run⟩ (.kmallocNull (by decide) hrun), Or.inl ⟨rfl, ?_⟩⟩
      simp only [took, if_true]
    · rw [hrun] at hptr
      cases hptr
      have hlive : (took ptr s k.heap).live = insert ptr k.heap.live := if_neg block.ne_null
      have taken : Memory.Step k.heap (.kmalloc 4096) (took ptr s k.heap) := by
        rw [took, if_neg block.ne_null]
        exact .kmalloc (by decide) hrun block.ne_null
      exact ⟨HeapReached.step ⟨ram, ops, run⟩ taken,
        Or.inr ⟨block.ne_null, block.fresh, hlive⟩⟩

/-- A pointer stays live until it is freed. -/
theorem heapStep_keeps {h h' : Memory.Heap} {op : Memory.Op} {ptr : Nat}
    (step : Memory.Step h op h') (hptr : ptr ∈ h.live) : ptr ∈ h'.live ∨ op = .kfree ptr := by
  cases step with
  | memoryInit => exact Or.inl hptr
  | kmallocNull => exact Or.inl hptr
  | kmalloc => exact Or.inl (Finset.mem_insert_of_mem hptr)
  | @kfree freed _ _ _ =>
      by_cases hfreed : ptr = freed
      · exact Or.inr (by rw [hfreed])
      · exact Or.inl (Finset.mem_erase.mpr ⟨hfreed, hptr⟩)

/-! ### The ledger -/

structure StackInv (y : StackSystem) : Prop extends StacksOwned y where
  numbered : Numbered y.kernel.table
  reached : HeapReached y.kernel.heap
  noSignalStacks : NoSignalStacks y.kernel.table.kernel
  exitedLive : ExitedLive y.kernel.table.kernel
  unused : ∀ i, (y.kernel.table.kernel.processes i).pid = 0 →
    stackOf y.kernel.table.kernel i = NULL
  others_live : y.others ⊆ y.kernel.heap.live

/-- How many slots hold a block. -/
def holders (s : State) (ptr : Nat) : Nat :=
  (Finset.univ.filter fun i => stackOf s i = ptr).card

theorem Frees.count {s s' : State} {slots : List Slot} {new : List Event}
    (frees : Frees s s' slots new) {ptr : Nat} (hptr : ptr ≠ NULL) :
    (kfrees new).count ptr + holders s' ptr = holders s ptr := by
  have hfreed : (kfrees new).count ptr
      = ((Finset.univ.filter fun i => stackOf s i = ptr).filter fun i => i ∈ slots).card := by
    rw [frees.freed, List.count_eq_countP, List.countP_map, List.countP_eq_length_filter,
      ← List.toFinset_card_of_nodup (frees.nodup.filter _)]
    congr 1
    ext i
    simp [and_comm]
  have hleft : holders s' ptr
      = ((Finset.univ.filter fun i => stackOf s i = ptr).filter fun i => ¬ i ∈ slots).card := by
    unfold holders
    congr 1
    ext i
    simp only [Finset.mem_filter, Finset.mem_univ, true_and, frees.stack i]
    by_cases hi : i ∈ slots
    · rw [if_pos hi]
      exact iff_of_false hptr.symm fun h => h.2 hi
    · rw [if_neg hi]
      exact (and_iff_left hi).symm
  rw [hfreed, hleft, holders]
  exact Finset.card_filter_add_card_filter_not _

/-- A free slot gets a block. -/
theorem holders_gave {s s' : State} {i : Slot} {ptr : Nat} (hptr : ptr ≠ NULL)
    (hnull : stackOf s i = NULL) (hold : ∀ j, j ≠ i → stackOf s' j = stackOf s j) :
    holders s' ptr = holders s ptr + if ptr = stackOf s' i then 1 else 0 := by
  unfold holders
  by_cases hnew : ptr = stackOf s' i
  · have hinsert : (Finset.univ.filter fun j => stackOf s' j = ptr)
        = insert i (Finset.univ.filter fun j => stackOf s j = ptr) := by
      ext j
      simp only [Finset.mem_filter, Finset.mem_univ, true_and, Finset.mem_insert]
      by_cases hj : j = i
      · rw [hj]
        exact iff_of_true hnew.symm (Or.inl rfl)
      · rw [hold j hj]
        exact (or_iff_right hj).symm
    have hnot : i ∉ Finset.univ.filter fun j => stackOf s j = ptr := by
      rw [Finset.mem_filter, hnull]
      exact fun h => hptr h.2.symm
    rw [hinsert, Finset.card_insert_of_notMem hnot, if_pos hnew]
  · rw [if_neg hnew, Nat.add_zero]
    congr 1
    ext j
    simp only [Finset.mem_filter, Finset.mem_univ, true_and]
    by_cases hj : j = i
    · rw [hj, hnull]
      exact iff_of_false (fun h => hnew h.symm) hptr.symm
    · rw [hold j hj]

namespace StackInv

variable {y : StackSystem} (inv : StackInv y)
include inv

/-- The stacks that a call frees are live, each of them once. -/
theorem freed {s : State} {slots : List Slot} {new : List Event}
    (frees : Frees y.kernel.table.kernel s slots new) :
    freedBy y.kernel.table.kernel s = slots.map (stackOf y.kernel.table.kernel) ∧
      (freedBy y.kernel.table.kernel s).Nodup ∧
      ∀ ptr ∈ freedBy y.kernel.table.kernel s, ptr ∈ y.kernel.heap.live ∧ ptr ∉ y.others := by
  have hfreed : freedBy y.kernel.table.kernel s
      = slots.map (stackOf y.kernel.table.kernel) := by
    rw [freedBy, frees.log, List.drop_left, frees.freed]
  rw [hfreed]
  refine ⟨rfl, ?_, ?_⟩
  · apply List.Nodup.map_on _ frees.nodup
    intro i hi j _ heq
    exact inv.distinct i j (frees.held i hi) heq
  · intro ptr hptr
    obtain ⟨i, hi, rfl⟩ := List.mem_map.mp hptr
    exact (inv.live i).resolve_left (frees.held i hi)

/-- A call frees what its exits free, and the ledger is kept. -/
theorem call {op : Op} {s : State} {m : Memory.State}
    (step : Step y.kernel.table.kernel op s)
    (rightful : Rightful y.kernel.table.kernel (.call op))
    (hfree : Memory.kfreeAll (freedBy y.kernel.table.kernel s) y.kernel.heap.state = some m) :
    StackInv ⟨⟨{ y.kernel.table with kernel := s },
      ⟨m, y.kernel.heap.live \ (freedBy y.kernel.table.kernel s).toFinset⟩⟩,
      y.others, y.given⟩ := by
  obtain ⟨slots, new, frees⟩ := step.frees inv.noSignalStacks
  obtain ⟨hfreed, hnodup, hlive⟩ := inv.freed frees
  have hkept : ∀ i, stackOf s i ≠ NULL → i ∉ slots ∧
      stackOf s i = stackOf y.kernel.table.kernel i := by
    intro i hi
    rw [frees.stack i] at hi ⊢
    by_cases hslot : i ∈ slots
    · rw [if_pos hslot] at hi
      exact absurd rfl hi
    · exact ⟨hslot, if_neg hslot⟩
  refine { live := ?_, distinct := ?_, exited := ?_, kept := ?_, ledger := ?_,
           numbered := inv.numbered.evolves step.evolves, reached := ?_, noSignalStacks := ?_,
           exitedLive := step.exitedLive inv.numbered.wellFormed rightful inv.exitedLive,
           unused := ?_, others_live := ?_ }
  · intro i
    dsimp only
    by_cases hnull : stackOf s i = NULL
    · exact Or.inl hnull
    · obtain ⟨hslot, hsame⟩ := hkept i hnull
      rw [hsame] at hnull ⊢
      obtain ⟨hmem, hother⟩ := (inv.live i).resolve_left hnull
      refine Or.inr ⟨Finset.mem_sdiff.mpr ⟨hmem, ?_⟩, hother⟩
      rw [List.mem_toFinset, hfreed]
      intro hmap
      obtain ⟨j, hj, heq⟩ := List.mem_map.mp hmap
      rw [inv.distinct j i (frees.held j hj) heq] at hj
      exact hslot hj
  · intro i j hi heq
    have hj : stackOf s j ≠ NULL := fun hj => hi (heq.trans hj)
    have hsame := (hkept i hi).2
    have hsame' := (hkept j hj).2
    dsimp only at hi heq
    rw [hsame] at hi heq
    rw [hsame'] at heq
    exact inv.distinct i j hi heq
  · intro i hi
    dsimp only at hi ⊢
    rw [frees.log] at hi
    rcases List.mem_append.mp hi with hold | hnew
    · rw [frees.stack i, inv.exited i hold]
      exact ite_self NULL
    · exact frees.exited i hnew
  · intro ptr hptr
    obtain ⟨hmem, hnot⟩ := Finset.mem_sdiff.mp hptr
    rcases inv.kept ptr hmem with hother | ⟨i, hi⟩
    · exact Or.inl hother
    · refine Or.inr ⟨i, ?_⟩
      dsimp only
      rw [frees.stack i, if_neg, hi]
      intro hslot
      apply hnot
      rw [List.mem_toFinset, hfreed]
      exact List.mem_map.mpr ⟨i, hslot, hi⟩
  · intro ptr hptr
    have hcount := frees.count hptr
    have hledger := inv.ledger ptr hptr
    dsimp only
    rw [frees.log, kfrees_append, List.count_append]
    unfold holders at hcount
    omega
  · obtain ⟨m', hrun, reached⟩ := inv.reached.kfreeAll hnodup fun ptr hptr => (hlive ptr hptr).1
    rw [hfree] at hrun
    cases hrun
    exact reached
  · exact fun i => (frees.signalStack i).trans (inv.noSignalStacks i)
  · intro i hi
    dsimp only at hi ⊢
    rw [step.evolves.pid_eq i] at hi
    rw [frees.stack i, inv.unused i hi]
    exact ite_self NULL
  · intro ptr hptr
    refine Finset.mem_sdiff.mpr ⟨inv.others_live hptr, fun hmem => ?_⟩
    exact (hlive ptr (List.mem_toFinset.mp hmem)).2 hptr

/-- A process is created in a free slot, with a block or without. -/
theorem gave {i : Slot} {f : Process → Process} {t : Table} {block : Nat × Memory.Heap}
    (hfree : getProcess 0 y.kernel.table.kernel = some i)
    (hblock : kmallocStack y.kernel = some block) (numbered : Numbered t)
    (hkernel : t.kernel = y.kernel.table.kernel.modify i f) (hpid : ∀ p, (f p).pid ≠ 0)
    (hstack : ∀ p, (f p).stack = block.1) (hsignal : ∀ p, (f p).signalStack = p.signalStack) :
    StackInv ⟨⟨t, block.2⟩, y.others, y.given + (allocated y.kernel.heap block.2).val⟩ := by
  obtain ⟨reached, htaken⟩ := kmallocStack_cases inv.reached hblock
  have hunused := getProcess_pid hfree
  have hnull := inv.unused i hunused
  have hnew : stackOf t.kernel i = block.1 := by
    rw [stackOf, hkernel, modify_same, hstack]
  have hold : ∀ {j}, j ≠ i → stackOf t.kernel j = stackOf y.kernel.table.kernel j := by
    intro j hj
    rw [stackOf, hkernel, modify_other f hj, stackOf]
  have hlive : ∀ ptr ∈ y.kernel.heap.live, ptr ∈ block.2.live := by
    intro ptr hptr
    rcases htaken with ⟨-, hsame⟩ | ⟨-, -, hinsert⟩
    · rw [hsame]
      exact hptr
    · rw [hinsert]
      exact Finset.mem_insert_of_mem hptr
  have hfresh : block.1 = NULL ∨ block.1 ∈ block.2.live ∧ block.1 ∉ y.kernel.heap.live := by
    rcases htaken with ⟨hnone, -⟩ | ⟨-, hfresh, hinsert⟩
    · exact Or.inl hnone
    · rw [hinsert]
      exact Or.inr ⟨Finset.mem_insert_self _ _, hfresh⟩
  have hheld : ∀ {j}, j ≠ i → stackOf t.kernel j ≠ NULL → stackOf t.kernel j ≠ block.1 := by
    intro j hj hsome heq
    rw [hold hj] at hsome heq
    rcases hfresh with hnone | ⟨-, hfresh⟩
    · exact hsome (heq.trans hnone)
    · rw [← heq] at hfresh
      exact hfresh ((inv.live j).resolve_left hsome).1
  refine { live := ?_, distinct := ?_, exited := ?_, kept := ?_, ledger := ?_,
           numbered := numbered, reached := reached, noSignalStacks := ?_, exitedLive := ?_,
           unused := ?_, others_live := fun ptr hptr => hlive ptr (inv.others_live hptr) }
  · intro j
    dsimp only
    by_cases hj : j = i
    · rw [hj, hnew]
      exact hfresh.imp_right fun h => ⟨h.1, fun hother => h.2 (inv.others_live hother)⟩
    · rw [hold hj]
      exact (inv.live j).imp_right fun h => ⟨hlive _ h.1, h.2⟩
  · intro j k hj heq
    dsimp only at hj heq
    by_cases hji : j = i
    · by_cases hki : k = i
      · rw [hji, hki]
      · rw [hji, hnew] at heq
        rw [hji, hnew, heq] at hj
        exact absurd heq.symm (hheld hki hj)
    · by_cases hki : k = i
      · rw [hki, hnew] at heq
        exact absurd heq (hheld hji hj)
      · rw [hold hji] at hj heq
        rw [hold hki] at heq
        exact inv.distinct j k hj heq
  · intro j hj
    dsimp only at hj ⊢
    rw [hkernel] at hj
    have hne : j ≠ i := by
      rintro rfl
      exact inv.exitedLive j hj hunused
    rw [hold hne]
    exact inv.exited j hj
  · intro ptr hptr
    dsimp only at hptr ⊢
    by_cases hptrNew : ptr ∈ y.kernel.heap.live
    · rcases inv.kept ptr hptrNew with hother | ⟨j, hj⟩
      · exact Or.inl hother
      · refine Or.inr ⟨j, ?_⟩
        rw [hold, hj]
        rintro rfl
        exact inv.reached.null_not_live (hnull.symm.trans hj ▸ hptrNew)
    · right
      rcases htaken with ⟨-, hsame⟩ | ⟨-, -, hinsert⟩
      · rw [hsame] at hptr
        exact absurd hptr hptrNew
      · rw [hinsert] at hptr
        rw [(Finset.mem_insert.mp hptr).resolve_right hptrNew]
        exact ⟨i, hnew⟩
  · intro ptr hptr
    have hholders := holders_gave hptr hnull fun j => hold
    have hgiven : (allocated y.kernel.heap block.2).val.count ptr
        = if ptr = block.1 then 1 else 0 := by
      rcases htaken with ⟨hnone, hsame⟩ | ⟨-, hnot, hinsert⟩
      · rw [hnone, if_neg hptr, allocated, hsame, Finset.sdiff_self]
        exact Multiset.count_zero ptr
      · rw [allocated, hinsert, Finset.insert_sdiff_of_notMem _ hnot, Finset.sdiff_self]
        exact Multiset.count_singleton ptr block.1
    have hledger := inv.ledger ptr hptr
    dsimp only
    rw [Multiset.count_add, hgiven, hledger, hkernel]
    rw [hnew, hkernel] at hholders
    unfold holders at hholders
    rw [hholders]
    exact Nat.add_assoc _ _ _
  · intro j
    dsimp only
    rw [hkernel, modify_congr Process.signalStack (hsignal _) j]
    exact inv.noSignalStacks j
  · intro j hj
    dsimp only at hj ⊢
    rw [hkernel] at hj ⊢
    by_cases hji : j = i
    · rw [hji, modify_same]
      exact hpid _
    · rw [modify_other f hji]
      exact inv.exitedLive j hj
  · intro j hj
    dsimp only at hj ⊢
    rw [hkernel] at hj
    by_cases hji : j = i
    · rw [hji, modify_same] at hj
      exact absurd hj (hpid _)
    · rw [modify_other f hji] at hj
      rw [hold hji]
      exact inv.unused j hj

/-- The others take and free blocks of their own. -/
theorem other {op : Memory.Op} {h : Memory.Heap} (step : Memory.Step y.kernel.heap op h)
    (hown : ∀ ptr, op = .kfree ptr → ptr = NULL ∨ ptr ∈ y.others) :
    StackInv ⟨⟨y.kernel.table, h⟩, y.others ∩ h.live ∪ allocated y.kernel.heap h, y.given⟩ := by
  have hlive : ∀ ptr ∈ y.kernel.heap.live, ptr ∉ y.others → ptr ∈ h.live := by
    intro ptr hptr hother
    rcases heapStep_keeps step hptr with hkept | hfreed
    · exact hkept
    · rcases hown ptr hfreed with rfl | hmem
      · exact absurd hptr inv.reached.null_not_live
      · exact absurd hmem hother
  refine { live := ?_, distinct := inv.distinct, exited := inv.exited, kept := ?_,
           ledger := inv.ledger, numbered := inv.numbered, reached := inv.reached.step step,
           noSignalStacks := inv.noSignalStacks, exitedLive := inv.exitedLive,
           unused := inv.unused, others_live := ?_ }
  · intro i
    refine (inv.live i).imp_right fun hheld => ⟨hlive _ hheld.1 hheld.2, ?_⟩
    intro hmem
    rcases Finset.mem_union.mp hmem with hother | hnew
    · exact hheld.2 (Finset.mem_inter.mp hother).1
    · exact (Finset.mem_sdiff.mp hnew).2 hheld.1
  · intro ptr hptr
    by_cases hold : ptr ∈ y.kernel.heap.live
    · refine (inv.kept ptr hold).imp_left fun hother => ?_
      exact Finset.mem_union_left _ (Finset.mem_inter.mpr ⟨hother, hptr⟩)
    · exact Or.inl (Finset.mem_union_right _ (Finset.mem_sdiff.mpr ⟨hptr, hold⟩))
  · intro ptr hptr
    rcases Finset.mem_union.mp hptr with hother | hnew
    · exact (Finset.mem_inter.mp hother).2
    · exact (Finset.mem_sdiff.mp hnew).1

/-- Where no slot is free, nothing has been taken. -/
theorem refused : StackInv ⟨y.kernel, y.others,
    y.given + (allocated y.kernel.heap y.kernel.heap).val⟩ := by
  have hnone : y.given + (allocated y.kernel.heap y.kernel.heap).val = y.given := by
    rw [allocated, Finset.sdiff_self]
    exact Multiset.add_zero _
  rw [hnone]
  exact inv

theorem createProcess {name : List UInt8} {entryPoint parentPid : Nat} {out : Nat × Kernel}
    (h : y.kernel.createProcess name entryPoint parentPid = some out) :
    StackInv ⟨out.2, y.others, y.given + (allocated y.kernel.heap out.2.heap).val⟩ := by
  obtain ⟨block, hblock, rfl⟩ := Option.map_eq_some_iff.mp h
  cases hfree : getProcess 0 y.kernel.table.kernel with
  | none =>
      rw [kmallocStack_full hfree] at hblock
      cases hblock
      dsimp only
      rw [Process.createProcess, hfree]
      exact inv.refused
  | some i =>
      have numbered := inv.numbered.createProcess name entryPoint parentPid block.1
      dsimp only
      rw [Process.createProcess, hfree] at numbered ⊢
      exact inv.gave hfree hblock numbered rfl (fun _ => inv.numbered.fresh.ne_zero)
        (fun _ => rfl) fun _ => rfl

theorem sysFork {out : Nat × Kernel} (h : y.kernel.sysFork = some out) :
    StackInv ⟨out.2, y.others, y.given + (allocated y.kernel.heap out.2.heap).val⟩ := by
  cases hcurrent : getCurrentProcess y.kernel.table.kernel with
  | none =>
      rw [Kernel.sysFork_none hcurrent] at h
      cases h
      exact inv.refused
  | some current =>
      cases hblock : kmallocStack y.kernel with
      | none =>
          rw [Kernel.sysFork, hcurrent, hblock] at h
          cases h
      | some block =>
          rw [Kernel.sysFork_some hcurrent hblock] at h
          cases h
          dsimp only
          have numbered := inv.numbered.sysFork block.1
          rcases sysFork_cases inv.numbered.fresh block.1 with
            ⟨hwant, hrun⟩ | ⟨current', child, -, hfree, -, hrun⟩
          · have hfull := hwant.resolve_left (by rw [hcurrent]; simp)
            rw [kmallocStack_full hfull] at hblock
            cases hblock
            rw [hrun]
            exact inv.refused
          · rw [hrun] at numbered ⊢
            let parent := y.kernel.table.kernel.processes current'
            have hkernel : (y.kernel.table.forked current' child block.1).kernel
                = y.kernel.table.kernel.modify child fun old => inheritSignals parent
                    (newProcess y.kernel.table.nextPid parent.pid block.1 old) := rfl
            exact inv.gave hfree hblock numbered hkernel (fun _ => inv.numbered.fresh.ne_zero)
              (fun _ => rfl) fun _ => rfl

end StackInv

theorem StackStep.inv {y y' : StackSystem} {op : StackOp} (inv : StackInv y)
    (step : StackStep y op y') : StackInv y' := by
  cases step with
  | createProcess h => exact inv.createProcess h
  | sysFork h => exact inv.sysFork h
  | call step rightful hfree => exact inv.call step rightful hfree
  | other step hown => exact inv.other step hown

theorem stackInv_start (enabled : Bool) (ticks frequency : Nat) (ram : Lib.Bytes.Store) :
    StackInv (.start enabled ticks frequency ram) where
  live _ := Or.inl rfl
  distinct _ _ hi := absurd rfl hi
  exited _ _ := rfl
  kept _ hptr := by cases hptr
  ledger ptr hptr := by
    have hnone : (Finset.univ.filter fun i =>
        stackOf (Table.start enabled ticks frequency).kernel i = ptr) = ∅ := by
      apply Finset.filter_eq_empty_iff.mpr
      exact fun _ _ => hptr.symm
    change 0 = 0 + (Finset.univ.filter fun i =>
        stackOf (Table.start enabled ticks frequency).kernel i = ptr).card
    rw [hnone]
    rfl
  numbered := numbered_start enabled ticks frequency
  reached := ⟨ram, [], .nil _⟩
  noSignalStacks _ := rfl
  exitedLive _ hexit := by cases hexit
  unused _ _ := rfl
  others_live := Finset.empty_subset _

/-! ### Runs -/

/-- In every run of creations, forks, calls with all the exits they bring about, and uses of
the heap by others: a stack is a live block in one slot, or has been freed and
forgotten; and what any call frees from there on is live, no other's, and freed once. -/
theorem stacks_owned_once {enabled : Bool} {ticks frequency : Nat} {ram : Lib.Bytes.Store}
    {ops : List StackOp} {y : StackSystem}
    (run : Run StackStep (.start enabled ticks frequency ram) ops y) :
    StacksOwned y ∧ ∀ op s, Step y.kernel.table.kernel op s →
      (freedBy y.kernel.table.kernel s).Nodup ∧
      (∀ ptr ∈ freedBy y.kernel.table.kernel s,
        ptr ∈ y.kernel.heap.live ∧ ptr ∉ y.others) ∧
      ∃ m, Memory.kfreeAll (freedBy y.kernel.table.kernel s) y.kernel.heap.state = some m := by
  have inv : StackInv y := run.invariant (fun before step => step.inv before)
    (stackInv_start enabled ticks frequency ram)
  refine ⟨inv.toStacksOwned, fun op s step => ?_⟩
  obtain ⟨slots, new, frees⟩ := step.frees inv.noSignalStacks
  obtain ⟨-, hnodup, hlive⟩ := inv.freed frees
  obtain ⟨m, hrun, -⟩ := inv.reached.kfreeAll hnodup fun ptr hptr => (hlive ptr hptr).1
  exact ⟨hnodup, hlive, m, hrun⟩

theorem Kernel.createProcess_returns {k : Kernel} (reached : HeapReached k.heap)
    (name : List UInt8) (entryPoint parentPid : Nat) :
    ∃ out, k.createProcess name entryPoint parentPid = some out := by
  cases hfree : getProcess 0 k.table.kernel with
  | none =>
      have hblock := kmallocStack_full hfree
      exact ⟨_, by rw [Kernel.createProcess, hblock, Option.map_some]⟩
  | some i =>
      obtain ⟨ram, ops, run⟩ := reached
      rcases kmalloc_stack run with ⟨-, hrun⟩ | ⟨-, ptr, s, hrun, -⟩
      · exact ⟨_, Kernel.createProcess_free hfree (kmallocStack_free hfree hrun) _ _ _⟩
      · exact ⟨_, Kernel.createProcess_free hfree (kmallocStack_free hfree hrun) _ _ _⟩

/-- A process is created and exits, twice. -/
theorem stacks_owned_once_exit :
    ∃ y, Run StackStep (.start true 0 100 fun _ => 0)
        [.createProcess [] 0 0, .call (.exitProcess 1 0), .call (.exitProcess 1 0)] y ∧
      (y.kernel.table.kernel.processes 0).pid = 1 ∧ StacksOwned y := by
  have exits : ∀ {ops y}, Run StackStep (.start true 0 100 fun _ => 0) ops y →
      ∃ y', StackStep y (.call (.exitProcess 1 0)) y' ∧
        (y'.kernel.table.kernel.processes 0).pid = (y.kernel.table.kernel.processes 0).pid := by
    intro ops y run
    have inv : StackInv y := run.invariant (fun before step => step.inv before)
      (stackInv_start true 0 100 fun _ => 0)
    obtain ⟨s, hs⟩ := @exitProcess_returns enoughFuel 1 0 _ inv.numbered.wellFormed (by decide)
    have step : Step y.kernel.table.kernel (.exitProcess 1 0) s := .exitProcess hs
    obtain ⟨-, -, m, hfree⟩ := (stacks_owned_once run).2 _ s step
    exact ⟨_, .call step (Nat.one_ne_zero) hfree, step.evolves.pid_eq 0⟩
  obtain ⟨out, hcreate⟩ := Kernel.createProcess_returns
    (k := (StackSystem.start true 0 100 fun _ => 0).kernel) ⟨_, [], .nil _⟩ [] 0 0
  have created : Run StackStep (.start true 0 100 fun _ => 0) [.createProcess [] 0 0] _ :=
    .single (.createProcess hcreate)
  have hpid : (out.2.table.kernel.processes 0).pid = 1 := by
    obtain ⟨block, -, rfl⟩ := Option.map_eq_some_iff.mp hcreate
    rfl
  obtain ⟨y₁, first, hpid₁⟩ := exits created
  obtain ⟨y₂, second, hpid₂⟩ := exits (created.append (.single first))
  have run := (created.append (.single first)).append (.single second)
  exact ⟨y₂, run, hpid₂.trans (hpid₁.trans hpid), (stacks_owned_once run).1⟩

end Curnel.Process
