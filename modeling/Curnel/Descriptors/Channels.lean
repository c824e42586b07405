/-
System calls on pipes are clients of channels.

`Answered` is a step of the kernel as its processes see it: a call with its answer, a call
that waited and goes on, or something elsewhere that stores in no buffer of a call and frees
none. Between the memory of a writer and that of a reader the bytes lie in the writer's
buffer, in the ring of the pipe, and in the reader's buffer, while calls come and go and wait.
None of this can be seen: the kernel runs like `Lib.Channels` (`calls_refine_channels`).
-/

import Curnel.Descriptors.Transfers

namespace Curnel.Descriptors

open Lib Lib.Bytes Lib.Word
open Memory (HeapInv)
open Channels (Pending Result Sends Receives load)
open Pipe (PipeSlot PIPE_BUFFER_SIZE Refines)

/-! ### Steps with their answers -/

/-- What a caller learns, unless its call never comes back: the result, or that it waits. -/
def Outcome.answer : Outcome → Option (Option Nat)
  | .returned result => some (some result)
  | .waits _ => some none
  | .faults => none
  | .hangs => none

/-- A call, the pipe that its descriptor names, and what the caller learns. -/
structure Label where
  op : Op
  pipe : Option PipeSlot
  answer : Option Nat

inductive Answered : System → Label → System → Prop where
  | read {s : State} {calls : List Waiting} {fd buf count : Nat} {answer : Option Nat} :
      count < 2 ^ 64 - 8 → (sysRead fd buf count s).1.answer = some answer →
      Answered ⟨s, calls⟩ ⟨.read fd buf count, Pipe.pipeGetByFd fd s.pipe, answer⟩
        ⟨(sysRead fd buf count s).2.2, (sysRead fd buf count s).1.waiting ++ calls⟩
  | write {s : State} {calls : List Waiting} {fd buf count : Nat} {answer : Option Nat} :
      count < 2 ^ 64 - 8 → (sysWrite fd buf count s).1.answer = some answer →
      Answered ⟨s, calls⟩ ⟨.write fd buf count, Pipe.pipeGetByFd fd s.pipe, answer⟩
        ⟨(sysWrite fd buf count s).2.2, (sysWrite fd buf count s).1.waiting ++ calls⟩
  | resume {s : State} {before after : List Waiting} {call : Waiting} {answer : Option Nat} :
      (call.resume s).1.answer = some answer →
      Answered ⟨s, before ++ call :: after⟩ ⟨.resume call, none, answer⟩
        ⟨(call.resume s).2.2, before ++ (call.resume s).1.waiting ++ after⟩
  | elsewhere {s s' : State} {calls : List Waiting} {op : Background} : Elsewhere s op s' →
      (∀ call ∈ calls, ∀ kbuf ∈ call.buffer,
        op ≠ .heap (.kfree kbuf.ptr) ∧ op ≠ .store kbuf.ptr) →
      Answered ⟨s, calls⟩ ⟨.elsewhere op, none, none⟩ ⟨s', calls⟩

/-! ### What the clients of channels see of it -/

/-- Counts are results below 2³¹, failures are negative. -/
inductive Learns : Option Nat → Result → Prop where
  | done {count : Nat} : count < 2 ^ 31 → Learns (some count) (.done count)
  | failed {result : Nat} : 2 ^ 63 ≤ result → Learns (some result) .failed
  | waits : Learns none .waits

inductive Shows : Label → Channels.Event PipeSlot UInt8 → Prop where
  | receive {fd buf count : Nat} {i : PipeSlot} {answer : Option Nat} {r : Result} :
      Learns answer r → Shows ⟨.read fd buf count, some i, answer⟩ (.receive i buf count r)
  | send {fd buf count : Nat} {i : PipeSlot} {answer : Option Nat} {r : Result} :
      Learns answer r → Shows ⟨.write fd buf count, some i, answer⟩ (.send i buf count r)
  | receiveOn {buf fd count : Nat} {kbuf : Buffer} {i : PipeSlot} {current : Slot}
      {answer : Option Nat} {r : Result} : Learns answer r →
      Shows ⟨.resume (.read buf kbuf (.reading i fd current count)), none, answer⟩
        (.resume (.receive i buf count) r)
  | sendOn {fd written : Nat} {kbuf : Buffer} {i : PipeSlot} {data : List UInt8}
      {answer : Option Nat} {r : Result} : Learns answer r →
      Shows ⟨.resume (.write kbuf written (.writing i fd data written)), none, answer⟩
        (.resume (.send i data written) r)
  /-- `keyboard_read` stores in user memory. -/
  | keyboard {fd buf count : Nat} {answer : Option Nat} :
      Shows ⟨.read fd buf count, none, answer⟩ .memory
  | keyboardOn {buf count n : Nat} {answer : Option Nat} :
      Shows ⟨.resume (.keys buf count n), none, answer⟩ .memory
  | terminal {fd buf count : Nat} {answer : Option Nat} :
      Shows ⟨.write fd buf count, none, answer⟩ .idle
  | user : Shows ⟨.elsewhere .user, none, none⟩ .memory
  | pipe {op : Pipe.Op} : Shows ⟨.elsewhere (.pipe op), none, none⟩ .channels
  | heap {op : Memory.Op} : Shows ⟨.elsewhere (.heap op), none, none⟩ .idle
  | store {ptr : Nat} : Shows ⟨.elsewhere (.store ptr), none, none⟩ .idle
  | keys : Shows ⟨.elsewhere .keys, none, none⟩ .idle
  | shown : Shows ⟨.elsewhere .terminal, none, none⟩ .idle

/-- A call that waits in a pipe. -/
def pendingOf : Waiting → Option (Pending PipeSlot UInt8)
  | .read buf _ (.reading i _ _ count) => some (.receive i buf count)
  | .write _ written (.writing i _ data _) => some (.send i data written)
  | _ => none

/-- A call that waits has its buffer, and in it what it is still to write. -/
inductive Ready (h : Memory.Heap) : Waiting → Prop where
  | read {buf fd count : Nat} {kbuf : Buffer} {i : PipeSlot} {current : Slot} :
      Held kbuf h → count ≤ kbuf.size → Ready h (.read buf kbuf (.reading i fd current count))
  | write {kbuf : Buffer} {written fd : Nat} {i : PipeSlot} {data : List UInt8} :
      Held kbuf h → written ≤ data.length → data.length ≤ kbuf.size → Contains kbuf data h →
      Ready h (.write kbuf written (.writing i fd data written))
  | keys {buf count i : Nat} : Ready h (.keys buf count i)

/-- Where the buffers of the calls are. -/
def buffers (calls : List Waiting) : List Nat :=
  (calls.filterMap Waiting.buffer).map Buffer.ptr

structure Shown (sys : System) (c : Channels.State PipeSlot UInt8 PIPE_BUFFER_SIZE) : Prop where
  heap : ∃ bs, HeapInv sys.state.heap bs
  ready : ∀ call ∈ sys.calls, Ready sys.state.heap call
  apart : (buffers sys.calls).Nodup
  channels : ∀ i, Refines sys.state.pipe i (c.channels i)
  memory : c.memory = sys.state.user
  pending : c.pending = sys.calls.filterMap pendingOf

/-! ### Calls among others -/

theorem Ready.spared {own : Option Nat} {h h' : Memory.Heap} {call : Waiting}
    (ready : Ready h call) (spares : Spares own h h')
    (hown : ∀ kbuf, call.buffer = some kbuf → own ≠ some kbuf.ptr) : Ready h' call := by
  cases ready with
  | read held hfits => exact .read (spares.held held (hown _ rfl)) hfits
  | write held hwritten hfits contains =>
      exact .write (spares.held held (hown _ rfl)) hwritten hfits
        (spares.contains contains (hown _ rfl))
  | keys => exact .keys

theorem Ready.live {h : Memory.Heap} {call : Waiting} {kbuf : Buffer} (ready : Ready h call)
    (hkbuf : call.buffer = some kbuf) : kbuf.ptr ∈ h.live := by
  cases ready with
  | read held hfits =>
      cases hkbuf
      exact held.live
  | write held hwritten hfits contains =>
      cases hkbuf
      exact held.live
  | keys => cases hkbuf

theorem mem_buffers {calls : List Waiting} {p : Nat} :
    p ∈ buffers calls ↔ ∃ call ∈ calls, ∃ kbuf, call.buffer = some kbuf ∧ kbuf.ptr = p := by
  simp only [buffers, List.mem_map, List.mem_filterMap]
  constructor
  · rintro ⟨kbuf, ⟨call, hcall, hkbuf⟩, hp⟩
    exact ⟨call, hcall, kbuf, hkbuf, hp⟩
  · rintro ⟨call, hcall, kbuf, hkbuf, hp⟩
    exact ⟨kbuf, ⟨call, hcall, hkbuf⟩, hp⟩

theorem buffers_append (first second : List Waiting) :
    buffers (first ++ second) = buffers first ++ buffers second := by
  simp [buffers]

theorem buffers_middle_perm (before new after : List Waiting) :
    List.Perm (buffers (before ++ new ++ after)) (buffers new ++ buffers (before ++ after)) := by
  simp only [buffers_append]
  rw [← List.append_assoc]
  exact List.perm_append_comm.append_right _

/-- After a call that holds `own`, the others are what they were. -/
theorem Shown.next {s t : State} {before new after : List Waiting} {own : Option Nat}
    {channels : PipeSlot → Fifo UInt8 PIPE_BUFFER_SIZE}
    (ready : ∀ call ∈ before ++ after, Ready s.heap call)
    (apart : (buffers (before ++ after)).Nodup)
    (hown : ∀ p, own = some p → p ∉ buffers (before ++ after)) (spares : Spares own s.heap t.heap)
    (hnew : ∀ call ∈ new, Ready t.heap call ∧ ∀ kbuf, call.buffer = some kbuf →
      own = some kbuf.ptr ∨ kbuf.ptr ∉ s.heap.live)
    (hone : new.length ≤ 1) (refines : ∀ i, Refines t.pipe i (channels i)) :
    Shown ⟨t, before ++ new ++ after⟩
      ⟨channels, t.user, (before ++ new ++ after).filterMap pendingOf⟩ := by
  refine ⟨spares.heap, fun call hcall => ?_, ?_, refines, rfl, rfl⟩
  · have hmem : call ∈ new ∨ call ∈ before ++ after := by
      simp only [List.mem_append] at hcall ⊢
      tauto
    rcases hmem with hmem | hmem
    · exact (hnew call hmem).1
    · refine (ready call hmem).spared spares fun kbuf hkbuf heq => ?_
      exact hown kbuf.ptr heq (mem_buffers.mpr ⟨call, hmem, kbuf, hkbuf, rfl⟩)
  · rw [(buffers_middle_perm before new after).nodup_iff, List.nodup_append]
    refine ⟨?_, apart, ?_⟩
    · cases new with
      | nil => exact List.nodup_nil
      | cons call rest =>
          have hrest : rest = [] := List.length_eq_zero_iff.mp (by simpa using hone)
          subst hrest
          cases hbuffer : call.buffer with
          | none => simp [buffers, hbuffer]
          | some kbuf => simp [buffers, hbuffer]
    · rintro p hp q hq rfl
      obtain ⟨call, hcall, kbuf, hkbuf, rfl⟩ := mem_buffers.mp hp
      rcases (hnew call hcall).2 kbuf hkbuf with heq | hfresh
      · exact hown _ heq hq
      · obtain ⟨call', hcall', kbuf', hkbuf', hptr⟩ := mem_buffers.mp hq
        exact hfresh (hptr ▸ (ready call' hcall').live hkbuf')

/-! ### What a call shows -/

section Calls

variable {mine : Buffer → Prop} {t : State} {i : PipeSlot} {outcome : Outcome}
  {answer : Option Nat} {channels : PipeSlot → Fifo UInt8 PIPE_BUFFER_SIZE}

theorem refines_unmoved {pipe pipe' : Pipe.State} (puts : Pipe.Puts i [] pipe pipe')
    (refines : ∀ j, Refines pipe j (channels j)) (j : PipeSlot) : Refines pipe' j (channels j) := by
  by_cases hj : j = i
  · subst hj
    obtain ⟨fits, h⟩ := puts.refines (refines j)
    rwa [Channels.put_nil] at h
  · exact puts.refines_other (refines j) hj

theorem refines_put {pipe pipe' : Pipe.State} {bytes : List UInt8}
    (puts : Pipe.Puts i bytes pipe pipe') (refines : ∀ j, Refines pipe j (channels j)) :
    ∃ fits, ∀ j, Refines pipe' j (Function.update channels i ((channels i).put bytes fits) j) := by
  obtain ⟨fits, h⟩ := puts.refines (refines i)
  refine ⟨fits, fun j => ?_⟩
  by_cases hj : j = i
  · subst hj
    rwa [Function.update_self]
  · rw [Function.update_of_ne hj]
    exact puts.refines_other (refines j) hj

theorem refines_taken {pipe pipe' : Pipe.State} {n : Nat}
    (takes : Pipe.Takes i ((channels i).queue.take n) pipe pipe')
    (refines : ∀ j, Refines pipe j (channels j)) (j : PipeSlot) :
    Refines pipe' j (Function.update channels i ((channels i).take n) j) := by
  by_cases hj : j = i
  · subst hj
    rw [Function.update_self]
    exact takes.refines (refines j)
  · rw [Function.update_of_ne hj]
    exact takes.refines_other (refines j) hj

/-- A write is a send. -/
theorem Sent.sends {pipe : Pipe.State} {data : List UInt8} {sent : Nat}
    (h : Sent mine pipe i data sent t outcome) (hanswer : outcome.answer = some answer)
    (refines : ∀ j, Refines pipe j (channels j)) :
    ∃ r f, Learns answer r ∧
      Sends i data sent (channels i) r f (outcome.waiting.filterMap pendingOf) ∧
      (∀ j, Refines t.pipe j (Function.update channels i f j)) ∧
      ∀ call ∈ outcome.waiting, Ready t.heap call ∧
        ∀ kbuf, call.buffer = some kbuf → mine kbuf := by
  cases h with
  | failed hlarge puts =>
      cases hanswer
      refine ⟨.failed, channels i, .failed hlarge, .failed, ?_, fun _ hcall => nomatch hcall⟩
      rw [Function.update_eq_self]
      exact refines_unmoved puts refines
  | done hk hsmall hfull puts =>
      cases hanswer
      obtain ⟨fits, hrefines⟩ := refines_put puts refines
      refine ⟨_, _, .done hsmall, .done fits hk fun hlt => ?_, hrefines,
        fun _ hcall => nomatch hcall⟩
      have hi := hrefines i
      rw [Function.update_self] at hi
      exact hi.full_iff.mpr (hfull hlt)
  | waits hlt hfull puts hmine held hfits contains =>
      cases hanswer
      obtain ⟨fits, hrefines⟩ := refines_put puts refines
      have hi := hrefines i
      rw [Function.update_self] at hi
      refine ⟨.waits, _, .waits, .waits fits hlt (hi.full_iff.mpr hfull), hrefines, ?_⟩
      intro call hcall
      cases List.mem_singleton.mp hcall
      refine ⟨.write held (Nat.le_of_lt hlt) hfits contains, fun kbuf hkbuf => ?_⟩
      cases hkbuf
      exact hmine
  | faults => cases hanswer
  | hangs => cases hanswer

/-- A read is a receive, or loses what it received. -/
theorem Received.receives {mayLose : Prop} {s : State} {buf limit : Nat}
    (h : Received mine mayLose s i buf limit (channels i) t outcome)
    (hanswer : outcome.answer = some answer) (refines : ∀ j, Refines s.pipe j (channels j)) :
    ∃ r f, Learns answer r ∧
      (Receives i buf limit (channels i) s.user r f t.user (outcome.waiting.filterMap pendingOf) ∨
        mayLose ∧ r = .failed ∧ f = (channels i).take limit ∧ t.user = s.user ∧
          outcome.waiting = []) ∧
      (∀ j, Refines t.pipe j (Function.update channels i f j)) ∧
      ∀ call ∈ outcome.waiting, Ready t.heap call ∧
        ∀ kbuf, call.buffer = some kbuf → mine kbuf := by
  cases h with
  | failed hlarge puts huser =>
      cases hanswer
      refine ⟨.failed, channels i, .failed hlarge, Or.inl ?_, ?_, fun _ hcall => nomatch hcall⟩
      · rw [huser]
        exact .failed
      · rw [Function.update_eq_self]
        exact refines_unmoved puts refines
  | done takes huser =>
      cases hanswer
      have hbound := (channels i).bounded
      simp only [PIPE_BUFFER_SIZE] at hbound
      refine ⟨_, _, .done (by omega), Or.inl ?_, refines_taken takes refines,
        fun _ hcall => nomatch hcall⟩
      rw [huser]
      exact .done
  | lost hlost takes huser =>
      cases hanswer
      exact ⟨.failed, _, .failed (by decide), Or.inr ⟨hlost, rfl, rfl, huser, rfl⟩,
        refines_taken takes refines, fun _ hcall => nomatch hcall⟩
  | waits hempty puts huser hmine held hfits =>
      cases hanswer
      refine ⟨.waits, channels i, .waits, Or.inl ?_, ?_, ?_⟩
      · rw [huser]
        exact .waits hempty
      · rw [Function.update_eq_self]
        exact refines_unmoved puts refines
      · intro call hcall
        cases List.mem_singleton.mp hcall
        refine ⟨.read held hfits, fun kbuf hkbuf => ?_⟩
        cases hkbuf
        exact hmine
  | faults => cases hanswer
  | hangs => cases hanswer

end Calls

/-! ### The terminal and the keyboard -/

/-- A write to the terminal moves nothing in a pipe or in user memory, and does not wait. -/
theorem writeTerminal_leaves {s : State} {buf count : Nat} (heap : ∃ bs, HeapInv s.heap bs)
    (hcount : count < 2 ^ 64 - 8) :
    Leaves none s (writeTerminal buf count s).2.2 ∧
      (writeTerminal buf count s).2.2.pipe = s.pipe ∧
      (writeTerminal buf count s).1.waiting = [] := by
  have nothing : Leaves none s s := ⟨.refl _ heap, rfl⟩
  unfold writeTerminal
  split
  · exact ⟨nothing, rfl, rfl⟩
  next valid hvalid =>
  split
  · exact ⟨nothing, rfl, rfl⟩
  next hne =>
  have hsum : wadd 64 count 1 = count + 1 := wadd_of_lt (by omega)
  rcases kmalloc_cases heap (wadd 64 count 1) with
    ⟨kbuf, hnull, halloc⟩ | ⟨kbuf, t, halloc, hgranted, held, hfresh, -, hlarge⟩
  · rw [halloc]
    dsimp only
    rw [if_pos hnull]
    exact ⟨nothing, rfl, rfl⟩
  · have granted := spares_kmalloc heap (wadd_lt ..) halloc
    have only := kmalloc_onlyHeap halloc
    have hagain : validatePointer buf count 0 t = some valid := by
      rw [only.validatePointer, hvalid]
    have hfits : count + 1 ≤ kbuf.size := by
      rw [← hsum]
      exact hlarge (by omega)
    have hlength := length_loadBytes t.user buf count
    rw [halloc]
    dsimp only
    rw [if_neg hgranted, copyFromUser_eq hagain hne]
    dsimp only
    rw [if_neg one_ne_zero]
    obtain ⟨copied, heldCopied, -⟩ := @fill_spares t kbuf held 0 (loadBytes t.user buf count)
      (by omega)
    have filled : OnlyHeap t (t.fill kbuf 0 (loadBytes t.user buf count)) := rfl
    generalize t.fill kbuf 0 (loadBytes t.user buf count) = u at copied heldCopied filled ⊢
    obtain ⟨ended, heldEnded, -⟩ := @fill_spares u kbuf heldCopied count [0]
      (by rw [List.length_singleton]; exact hfits)
    have only' : OnlyHeap s (u.fill kbuf count [0]) :=
      (only.trans filled).trans (fill_onlyHeap u kbuf count [0])
    have spares := (((granted.weaken (some kbuf.ptr)).trans copied).trans ended)
    generalize u.fill kbuf count [0] = v at heldEnded only' spares ⊢
    split
    · exact ⟨⟨spares.fresh hfresh, only'.user⟩, only'.pipe, rfl⟩
    next shown _ =>
      obtain ⟨w, hrun, onlyFreed, freed⟩ := @spares_release
        { v with terminal := v.terminal ++ [shown] } kbuf heldEnded count
        (touched kbuf 0 count ++ touched kbuf count 1 ++
          (touched kbuf 0 (shown.length + 1) ++ touched kbuf 0 shown.length))
      rw [hrun]
      refine ⟨⟨(spares.trans freed).fresh hfresh, ?_⟩, ?_, rfl⟩
      · rw [onlyFreed.user]
        exact only'.user
      · rw [onlyFreed.pipe]
        exact only'.pipe

theorem waiting_length (outcome : Outcome) : outcome.waiting.length ≤ 1 := by
  cases outcome <;> simp [Outcome.waiting]

/-- The keyboard has its calls, and no buffer. -/
theorem Shown.typed {s : State} {before after : List Waiting} {buf count : Nat}
    {keys : List UInt8} {i : Nat} {c : Channels.State PipeSlot UInt8 PIPE_BUFFER_SIZE}
    (shown : Shown ⟨s, before ++ after⟩ c) :
    Shown ⟨(keyboardLoop buf count keys i s).2.2,
        before ++ (keyboardLoop buf count keys i s).1.waiting ++ after⟩
      { c with memory := (keyboardLoop buf count keys i s).2.2.user } := by
  have types := keyboardLoop_types buf count keys i s
  have hnew : ∀ call ∈ (keyboardLoop buf count keys i s).1.waiting,
      ∃ j, call = .keys buf count j := types.waits
  have hone := waiting_length (keyboardLoop buf count keys i s).1
  generalize keyboardLoop buf count keys i s = result at types hnew hone ⊢
  have spares : Spares none s.heap result.2.2.heap := by
    rw [types.heap]
    exact .refl _ shown.heap
  have hpending : (before ++ result.1.waiting ++ after).filterMap pendingOf = c.pending := by
    have hnone : result.1.waiting.filterMap pendingOf = [] := by
      rw [List.filterMap_eq_nil_iff]
      intro call hcall
      obtain ⟨j, rfl⟩ := hnew call hcall
      rfl
    rw [shown.pending, List.filterMap_append, List.filterMap_append, hnone, List.append_nil,
      List.filterMap_append]
  rw [← hpending]
  refine .next shown.ready shown.apart ?_ spares (fun call hcall => ?_) hone ?_
  · intro p heq
    cases heq
  · obtain ⟨j, rfl⟩ := hnew call hcall
    refine ⟨.keys, fun kbuf hkbuf => ?_⟩
    cases hkbuf
  · rw [types.pipe]
    exact shown.channels

/-! ### Every step -/

section Steps

variable {c : Channels.State PipeSlot UInt8 PIPE_BUFFER_SIZE}

theorem Shown.read {s : State} {calls : List Waiting} {fd buf count : Nat} {answer : Option Nat}
    (shown : Shown ⟨s, calls⟩ c) (hcount : count < 2 ^ 64 - 8)
    (hanswer : (sysRead fd buf count s).1.answer = some answer) :
    ∃ e c', Shows ⟨.read fd buf count, Pipe.pipeGetByFd fd s.pipe, answer⟩ e ∧
      Channels.Step c e c' ∧
      Shown ⟨(sysRead fd buf count s).2.2, (sysRead fd buf count s).1.waiting ++ calls⟩ c' := by
  unfold sysRead at hanswer ⊢
  split at hanswer
  next i hfd =>
    rw [hfd]
    obtain ⟨received, spares⟩ :=
      @readPipe_received s fd buf count i _ shown.heap hfd (shown.channels i) (by omega)
    obtain ⟨r, f, hlearns, hreceives, refines, hready⟩ := received.receives hanswer shown.channels
    have hreceives := hreceives.resolve_right fun hlost => hlost.1
    rw [← shown.memory] at hreceives
    refine ⟨_, _, .receive hlearns, .receive hreceives, ?_⟩
    rw [shown.pending, ← List.filterMap_append]
    refine @Shown.next s _ [] _ calls none _ shown.ready shown.apart ?_ spares ?_
      (waiting_length _) refines
    · intro p heq
      cases heq
    · exact fun call hcall => ⟨(hready call hcall).1, fun kbuf hkbuf =>
        Or.inr ((hready call hcall).2 kbuf hkbuf)⟩
  next hfd =>
    rw [hfd]
    split
    · exact ⟨_, _, .keyboard, .memory c _, @Shown.typed s [] calls buf count s.keys 0 c shown⟩
    · exact ⟨_, _, .keyboard, .memory c s.user, shown.heap, shown.ready, shown.apart,
        shown.channels, rfl, shown.pending⟩

theorem Shown.write {s : State} {calls : List Waiting} {fd buf count : Nat} {answer : Option Nat}
    (shown : Shown ⟨s, calls⟩ c) (hcount : count < 2 ^ 64 - 8)
    (hanswer : (sysWrite fd buf count s).1.answer = some answer) :
    ∃ e c', Shows ⟨.write fd buf count, Pipe.pipeGetByFd fd s.pipe, answer⟩ e ∧
      Channels.Step c e c' ∧
      Shown ⟨(sysWrite fd buf count s).2.2, (sysWrite fd buf count s).1.waiting ++ calls⟩ c' := by
  unfold sysWrite at hanswer ⊢
  split at hanswer
  next i hfd =>
    rw [hfd]
    obtain ⟨sent, leaves⟩ :=
      @writePipe_sent s fd buf count i _ shown.heap hfd (shown.channels i) (by omega)
    obtain ⟨r, f, hlearns, hsends, refines, hready⟩ := sent.sends hanswer shown.channels
    rw [← shown.memory] at hsends
    refine ⟨_, _, .send hlearns, .send hsends, ?_⟩
    rw [shown.pending, ← List.filterMap_append, shown.memory, ← leaves.user]
    refine @Shown.next s _ [] _ calls none _ shown.ready shown.apart ?_ leaves.spares ?_
      (waiting_length _) refines
    · intro p heq
      cases heq
    · exact fun call hcall => ⟨(hready call hcall).1, fun kbuf hkbuf =>
        Or.inr ((hready call hcall).2 kbuf hkbuf)⟩
  next hfd =>
    rw [hfd]
    split
    · obtain ⟨leaves, hpipe, hwaits⟩ := @writeTerminal_leaves s buf count shown.heap hcount
      rw [hwaits]
      refine ⟨_, _, .terminal, .idle c, leaves.spares.heap, fun call hcall => ?_, shown.apart, ?_,
        shown.memory.trans leaves.user.symm, shown.pending⟩
      · exact (shown.ready call hcall).spared leaves.spares fun kbuf _ heq => nomatch heq
      · dsimp only
        rw [hpipe]
        exact shown.channels
    · exact ⟨_, _, .terminal, .idle c, shown⟩

theorem buffers_middle (before after : List Waiting) (call : Waiting) :
    List.Perm (buffers (before ++ call :: after))
      (buffers [call] ++ buffers (before ++ after)) := by
  have perm := buffers_middle_perm before [call] after
  rwa [List.append_assoc] at perm

/-- A call that goes on holds its buffer alone. -/
theorem Shown.alone {s : State} {before after : List Waiting} {call : Waiting} {kbuf : Buffer}
    (shown : Shown ⟨s, before ++ call :: after⟩ c) (hkbuf : call.buffer = some kbuf) :
    (∀ other ∈ before ++ after, Ready s.heap other) ∧ (buffers (before ++ after)).Nodup ∧
      ∀ p, some kbuf.ptr = some p → p ∉ buffers (before ++ after) := by
  have hapart := (buffers_middle before after call).nodup_iff.mp shown.apart
  obtain ⟨-, hrest, hdisjoint⟩ := List.nodup_append.mp hapart
  refine ⟨fun other hother => shown.ready other ?_, hrest, fun p heq hp => ?_⟩
  · simp only [List.mem_append, List.mem_cons] at hother ⊢
    tauto
  · cases heq
    exact hdisjoint _ (mem_buffers.mpr ⟨call, List.mem_singleton_self _, kbuf, hkbuf, rfl⟩) _ hp rfl

theorem Shown.resume {s : State} {before after : List Waiting} {call : Waiting}
    {answer : Option Nat} (shown : Shown ⟨s, before ++ call :: after⟩ c)
    (hanswer : (call.resume s).1.answer = some answer) :
    ∃ e c', Shows ⟨.resume call, none, answer⟩ e ∧ Channels.Step c e c' ∧
      Shown ⟨(call.resume s).2.2, before ++ (call.resume s).1.waiting ++ after⟩ c' := by
  have hpending : c.pending = before.filterMap pendingOf ++
      ([call].filterMap pendingOf ++ after.filterMap pendingOf) := by
    rw [shown.pending, ← List.filterMap_append, ← List.filterMap_append]
    rfl
  have ready := shown.ready call (List.mem_append_right _ List.mem_cons_self)
  -- a call with a buffer among the others
  have hnext : ∀ {kbuf : Buffer} {channels : PipeSlot → Fifo UInt8 PIPE_BUFFER_SIZE},
      call.buffer = some kbuf → Spares (some kbuf.ptr) s.heap (call.resume s).2.2.heap →
      (∀ w ∈ (call.resume s).1.waiting, Ready (call.resume s).2.2.heap w ∧
        ∀ kbuf', w.buffer = some kbuf' → kbuf' = kbuf) →
      (∀ j, Refines (call.resume s).2.2.pipe j (channels j)) →
      Shown ⟨(call.resume s).2.2, before ++ (call.resume s).1.waiting ++ after⟩
        ⟨channels, (call.resume s).2.2.user, before.filterMap pendingOf ++
          (call.resume s).1.waiting.filterMap pendingOf ++ after.filterMap pendingOf⟩ := by
    intro kbuf channels hkbuf spares hready refines
    obtain ⟨others, apart, hown⟩ := shown.alone hkbuf
    rw [← List.filterMap_append, ← List.filterMap_append]
    refine .next others apart hown spares (fun w hw => ?_) (waiting_length _) refines
    exact ⟨(hready w hw).1, fun kbuf' hkbuf' => Or.inl (by rw [(hready w hw).2 kbuf' hkbuf'])⟩
  cases ready with
  | @read buf fd count kbuf i current held hfits =>
      obtain ⟨received, spares⟩ := @resume_received s buf fd count kbuf i current _ held hfits
        (shown.channels i)
      obtain ⟨r, f, hlearns, hreceives, refines, hready⟩ := received.receives hanswer shown.channels
      have next := hnext rfl spares hready refines
      rcases hreceives with hreceives | ⟨-, rfl, rfl, huser, hwaits⟩
      · rw [← shown.memory] at hreceives
        exact ⟨_, _, .receiveOn hlearns, .receiveOn hpending hreceives, next⟩
      · refine ⟨_, _, .receiveOn hlearns, .lost hpending, ?_⟩
        rw [huser, ← shown.memory, hwaits] at next
        rw [hwaits]
        simpa using next
  | @write kbuf written fd i data held hwritten hfits contains =>
      obtain ⟨sent, leaves⟩ := @resume_sent s fd written kbuf i data _ held contains hwritten hfits
        (shown.channels i)
      obtain ⟨r, f, hlearns, hsends, refines, hready⟩ := sent.sends hanswer shown.channels
      have next := hnext rfl leaves.spares hready refines
      rw [leaves.user, ← shown.memory] at next
      exact ⟨_, _, .sendOn hlearns, .sendOn hpending hsends, next⟩
  | @keys buf count n =>
      refine ⟨_, _, .keyboardOn, .memory c _, @Shown.typed s before after buf count s.keys n c ?_⟩
      refine ⟨shown.heap, fun other hother => shown.ready other ?_, ?_, shown.channels,
        shown.memory, ?_⟩
      · simp only [List.mem_append, List.mem_cons] at hother ⊢
        tauto
      · exact (List.nodup_append.mp ((buffers_middle ..).nodup_iff.mp shown.apart)).2.1
      · rw [hpending, List.filterMap_append]
        rfl

theorem Shown.elsewhere {s s' : State} {calls : List Waiting} {op : Background}
    (shown : Shown ⟨s, calls⟩ c) (step : Elsewhere s op s')
    (hspares : ∀ call ∈ calls, ∀ kbuf ∈ call.buffer,
      op ≠ .heap (.kfree kbuf.ptr) ∧ op ≠ .store kbuf.ptr) :
    ∃ e c', Shows ⟨.elsewhere op, none, none⟩ e ∧ Channels.Step c e c' ∧ Shown ⟨s', calls⟩ c' := by
  obtain ⟨heap, objects⟩ := step.spares shown.heap
  have ready : ∀ call ∈ calls, Ready s'.heap call := by
    intro call hcall
    cases hbuffer : call.buffer with
    | none =>
        have ready := shown.ready call hcall
        cases ready with
        | read => cases hbuffer
        | write => cases hbuffer
        | keys => exact .keys
    | some kbuf =>
        obtain ⟨hfree, hstore⟩ := hspares call hcall kbuf hbuffer
        have hkept := fun cells hp => objects kbuf.ptr cells hp hfree hstore
        have ready := shown.ready call hcall
        cases ready with
        | read held hfits =>
            cases hbuffer
            obtain ⟨-, cells, hcells, hlength⟩ := held_iff_object.mp held
            exact .read (held_iff_object.mpr ⟨heap, cells, hkept _ hcells, hlength⟩) hfits
        | write held hwritten hfits contains =>
            cases hbuffer
            obtain ⟨-, cells, hcells, hlength⟩ := held_iff_object.mp held
            obtain ⟨rest, hrest⟩ := contains
            exact .write (held_iff_object.mpr ⟨heap, cells, hkept _ hcells, hlength⟩) hwritten hfits
              ⟨rest, hkept _ hrest⟩
        | keys => cases hbuffer
  cases step with
  | pipe step =>
      have flows := step.flows.steps
      choose channels hsteps hrefines using fun i => flows i _ (shown.channels i)
      exact ⟨_, _, .pipe, .channels hsteps, heap, ready, shown.apart, hrefines, shown.memory,
        shown.pending⟩
  | heap step =>
      exact ⟨_, _, .heap, .idle c, heap, ready, shown.apart, shown.channels, shown.memory,
        shown.pending⟩
  | store hlive frame =>
      exact ⟨_, _, .store, .idle c, heap, ready, shown.apart, shown.channels, shown.memory,
        shown.pending⟩
  | @user paging user =>
      exact ⟨_, _, .user, .memory c user, heap, ready, shown.apart, shown.channels, rfl,
        shown.pending⟩
  | keys =>
      exact ⟨_, _, .keys, .idle c, heap, ready, shown.apart, shown.channels, shown.memory,
        shown.pending⟩
  | terminal =>
      exact ⟨_, _, .shown, .idle c, heap, ready, shown.apart, shown.channels, shown.memory,
        shown.pending⟩

/-- A step of the kernel is one of the channels. -/
theorem Answered.shown {sys sys' : System} {label : Label} (shown : Shown sys c)
    (step : Answered sys label sys') :
    ∃ e c', Shows label e ∧ Channels.Step c e c' ∧ Shown sys' c' := by
  cases step with
  | read hcount hanswer => exact shown.read hcount hanswer
  | write hcount hanswer => exact shown.write hcount hanswer
  | resume hanswer => exact shown.resume hanswer
  | elsewhere step hspares => exact shown.elsewhere step hspares

end Steps

/-! ### Every run -/

/-- Every page of this memory is a page table that refers to itself, for everyone. -/
def openPaging : Paging.State where
  ram a := if a % 8 = 0 then 7 else if a % 8 = 1 then 0x10 else 0
  pmm := ⟨0x1000, 0, 0, 0, 0, 0⟩
  vmm := ⟨0x1000⟩

/-- A kernel with one pipe. -/
def onePipe : State :=
  let s := start Process.initAndChild (fun _ => 0) openPaging fun a => UInt8.ofNat a
  { s with pipe := (Pipe.pipeCreate s.pipe).2.2 }

end Curnel.Descriptors
