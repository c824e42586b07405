/-
What a system call moves between a pipe and the memory of its process.

Between the two there is a buffer of the kernel. `Sent` says what a write has done that had
`sent` bytes of its data in the pipe, `Received` what a read has done; both say how the call
ends, with which buffer it waits, and what that holds. The rest of the heap is spared.
-/

import Curnel.Descriptors.Contents
import Curnel.Pipe.Transfers

namespace Curnel.Descriptors

open Lib Lib.Bytes Lib.Word
open Memory (HeapInv)
open Channels (load)
open Pipe (PipeSlot PIPE_BUFFER_SIZE Refines Puts Takes)

/-! ### Ranges of user memory -/

section Ranges

variable {ptr size accessFlags valid : Nat} {s : State}

theorem accepted_lt (h : validatePointer ptr size accessFlags s = some valid) (hne : valid ≠ 0) :
    ptr < USER_STACK_TOP := by
  unfold validatePointer Usermode.usermodeValidatePointer at h
  split at h
  · cases h
    exact absurd rfl hne
  next hin => omega

/-- A part of a range that was accepted is accepted too, if it begins in user memory. -/
theorem accepted_part {o k : Nat} (h : validatePointer ptr size accessFlags s = some valid)
    (hne : valid ≠ 0) (hpos : 0 < k) (hk : o + k ≤ size) (hsize : size < 2 ^ 63)
    (hstart : ptr + o < USER_STACK_TOP) :
    validatePointer (ptr + o) k accessFlags s = some 1 := by
  have hone : valid = 1 := (Usermode.usermodeValidatePointer_bit h).resolve_left hne
  simp only [USER_STACK_TOP] at hstart
  rw [hone] at h
  obtain ⟨hlow, -, hlast, hall⟩ :=
    (Usermode.usermodeValidatePointer_eq_one (by omega)).mp h
  have hend : ∀ n, 0 < n → n ≤ size → wsub 64 (wadd 64 ptr n) 1 = ptr + n - 1 := by
    intro n hn hle
    rw [wadd_of_lt (by omega), wsub_of_le (by omega) (by omega)]
  have hpart : wsub 64 (wadd 64 (ptr + o) k) 1 = ptr + o + k - 1 := by
    rw [wadd_of_lt (by omega), wsub_of_le (by omega) (by omega)]
  rw [hend size (by omega) (le_refl _)] at hlast hall
  refine (Usermode.usermodeValidatePointer_eq_one (by omega)).mpr ⟨by omega, ?_, ?_, ?_⟩
  · simp only [USER_STACK_TOP]
    omega
  · rw [hpart]
    simp only [PAGE_SIZE] at hlast ⊢
    omega
  · rw [hpart]
    intro j hfrom hto
    exact hall j ((Nat.div_le_div_right (by omega)).trans hfrom)
      (hto.trans (Nat.div_le_div_right (by omega)))

theorem accepted_front {k : Nat} (h : validatePointer ptr size accessFlags s = some valid)
    (hne : valid ≠ 0) (hpos : 0 < k) (hk : k ≤ size) (hsize : size < 2 ^ 63) :
    validatePointer ptr k accessFlags s = some 1 :=
  @accepted_part ptr size accessFlags valid s 0 k h hne hpos (by omega) hsize (accepted_lt h hne)

theorem loadBytes_user {m : Store} {n : Nat} (hptr : ptr < USER_STACK_TOP) (hn : n < 2 ^ 63) :
    loadBytes m ptr n = load m ptr n := by
  simp only [USER_STACK_TOP] at hptr
  exact loadBytes_eq (by omega)

theorem storeBytes_user {m : Store} {bytes : List UInt8} (hptr : ptr < USER_STACK_TOP)
    (hn : bytes.length < 2 ^ 63) : storeBytes m ptr 0 bytes = Channels.store m ptr bytes := by
  simp only [USER_STACK_TOP] at hptr
  rw [storeBytes_eq (by omega)]
  funext x
  unfold writeBytes Channels.store
  by_cases hx : ptr ≤ x
  · rw [if_pos hx]
    by_cases hin : x < ptr + bytes.length
    · have hlt : x - ptr < bytes.length := by omega
      rw [if_pos ⟨hx, hin⟩]
      simp [List.getD_eq_getElem?_getD, hlt]
    · rw [if_neg (by omega), List.getD_eq_default _ _ (by omega)]
  · rw [if_neg hx, if_neg (by omega)]

end Ranges

/-! ### Writing -/

/-- Slot `i` has no room left. -/
def NoRoom (i : PipeSlot) (t : State) : Prop := (t.pipe.pipes i).dataSize = PIPE_BUFFER_SIZE

/-- What a write has done since it had `sent` bytes of its data in the pipe. -/
inductive Sent (mine : Buffer → Prop) (pipe : Pipe.State) (i : PipeSlot) (data : List UInt8)
    (sent : Nat) (t : State) : Outcome → Prop where
  | failed {result : Nat} : 2 ^ 63 ≤ result → Puts i [] pipe t.pipe →
      Sent mine pipe i data sent t (.returned result)
  | done {k : Nat} : sent + k ≤ data.length → sent + k < 2 ^ 31 →
      (sent + k < data.length → NoRoom i t) → Puts i ((data.drop sent).take k) pipe t.pipe →
      Sent mine pipe i data sent t (.returned (sent + k))
  | waits {k fd : Nat} {kbuf : Buffer} : sent + k < data.length → NoRoom i t →
      Puts i ((data.drop sent).take k) pipe t.pipe → mine kbuf → Held kbuf t.heap →
      data.length ≤ kbuf.size → Contains kbuf data t.heap →
      Sent mine pipe i data sent t
        (.waits (.write kbuf (sent + k) (.writing i fd data (sent + k))))
  | faults : Sent mine pipe i data sent t .faults
  | hangs : Sent mine pipe i data sent t .hangs

/-- A system call has spared the heap, and the memory of its process if `user` says so. -/
structure Leaves (own : Option Nat) (s t : State) : Prop where
  spares : Spares own s.heap t.heap
  user : t.user = s.user

namespace Leaves

variable {own : Option Nat} {s t u : State}

theorem trans (first : Leaves own s t) (second : Leaves own t u) : Leaves own s u :=
  ⟨first.spares.trans second.spares, second.user.trans first.user⟩

theorem of_onlyHeap (only : OnlyHeap s t) (spares : Spares own s.heap t.heap) : Leaves own s t :=
  ⟨spares, only.user⟩

end Leaves

theorem ofInt_of_lt {n : Nat} (h : n < 2 ^ 31) : ofInt (toInt32 n) = n := by
  rw [toInt32_of_lt h, ofInt]
  omega

theorem Held.small {kbuf : Buffer} {h : Memory.Heap} (held : Held kbuf h) : kbuf.size < 2 ^ 31 := by
  have hbound := held.bound
  simp only [Memory.MEMORY_START, Memory.MEMORY_SIZE] at hbound
  omega

/-- A write that has its data in a buffer, and `sent` bytes of it in the pipe. -/
theorem afterWrite_sent {u : State} {pipe : Pipe.State} {outcome : Pipe.Outcome} {kbuf : Buffer}
    {i : PipeSlot} {fd sent k : Nat} {data : List UInt8} (held : Held kbuf u.heap)
    (contains : Contains kbuf data u.heap) (hfits : data.length ≤ kbuf.size)
    (hk : sent + k ≤ data.length) (puts : Puts i ((data.drop sent).take k) u.pipe pipe)
    (wrote : Pipe.Wrote i fd data (sent + k) ((pipe.pipes i).dataSize = PIPE_BUFFER_SIZE) outcome)
    (writes : Writes data sent u.pipe outcome pipe) :
    Sent (· = kbuf) u.pipe i data sent
        (afterWrite kbuf sent u.pipe { u with pipe := pipe } outcome).2.2
        (afterWrite kbuf sent u.pipe { u with pipe := pipe } outcome).1 ∧
      Leaves (some kbuf.ptr) u
        (afterWrite kbuf sent u.pipe { u with pipe := pipe } outcome).2.2 := by
  have hsmall := held.small
  have same : Leaves (some kbuf.ptr) u { u with pipe := pipe } :=
    ⟨.refl _ held.heap, rfl⟩
  have returned : ∀ result bytes, outcome = .returned result bytes →
      ∃ t trace, afterWrite kbuf sent u.pipe { u with pipe := pipe } outcome
          = (.returned (ofInt result), trace, t) ∧
        t.pipe = pipe ∧ Leaves (some kbuf.ptr) u t := by
    rintro result bytes rfl
    obtain ⟨t, hrun, only, spares⟩ := @spares_release { u with pipe := pipe } kbuf held
      (ofInt result) (touched kbuf sent (copiedSince u.pipe pipe).length)
    exact ⟨t, _, hrun, only.pipe, same.trans (.of_onlyHeap only spares)⟩
  cases wrote with
  | all htotal =>
      obtain ⟨t, trace, hrun, hpipe, leaves⟩ := returned _ _ rfl
      rw [hrun, ofInt_of_lt (by omega)]
      exact ⟨.done hk (by omega) (fun hlt => by omega) (hpipe ▸ puts), leaves⟩
  | part hfull =>
      obtain ⟨t, trace, hrun, hpipe, leaves⟩ := returned _ _ rfl
      rw [hrun, ofInt_of_lt (by omega)]
      refine ⟨.done hk (by omega) (fun _ => ?_) (hpipe ▸ puts), leaves⟩
      dsimp only
      rw [NoRoom, hpipe]
      exact hfull
  | nothing hnone =>
      obtain ⟨t, trace, hrun, hpipe, leaves⟩ := returned _ _ rfl
      rw [hrun]
      have hzero : k = 0 := by omega
      rw [hzero, List.take_zero] at puts
      exact ⟨.failed (by decide) (hpipe ▸ puts), leaves⟩
  | waits hlt hfull =>
      obtain ⟨j, fd', hcall⟩ := writes.waits _ rfl
      have hcopied : sent + (copiedSince u.pipe pipe).length = sent + k :=
        (Pipe.Call.writing.inj hcall).2.2.2.symm
      refine ⟨?_, same⟩
      dsimp only [afterWrite]
      rw [hcopied]
      exact .waits hlt hfull puts rfl held hfits contains
  | faults => exact ⟨.faults, same⟩

/-- `mine` may be weakened, and the pipes looked at from an earlier state. -/
theorem Sent.mono {mine mine' : Buffer → Prop} {pipe : Pipe.State} {i : PipeSlot}
    {data : List UInt8} {sent : Nat} {t : State} {outcome : Outcome}
    (h : Sent mine pipe i data sent t outcome) (himp : ∀ kbuf, mine kbuf → mine' kbuf) :
    Sent mine' pipe i data sent t outcome := by
  cases h with
  | failed hlarge puts => exact .failed hlarge puts
  | done hk hsmall hfull puts => exact .done hk hsmall hfull puts
  | waits hlt hfull puts hmine held hfits contains =>
      exact .waits hlt hfull puts (himp _ hmine) held hfits contains
  | faults => exact .faults
  | hangs => exact .hangs

theorem puts_none (i : PipeSlot) (pipe : Pipe.State) : Puts i [] pipe pipe :=
  Pipe.puts_nothing i (.refl pipe) rfl

/-- A call of `sys_write` on a pipe sends what the process has at `buf`. -/
theorem writePipe_sent {s : State} {fd buf count : Nat} {i : PipeSlot}
    {f : Fifo UInt8 PIPE_BUFFER_SIZE} (heap : ∃ bs, HeapInv s.heap bs)
    (hfd : Pipe.pipeGetByFd fd s.pipe = some i) (refines : Refines s.pipe i f)
    (hcount : count ≤ 2 ^ 64 - 8) :
    Sent (·.ptr ∉ s.heap.live) s.pipe i (load s.user buf count) 0
        (writePipe fd buf count s).2.2 (writePipe fd buf count s).1 ∧
      Leaves none s (writePipe fd buf count s).2.2 := by
  have nothing : Leaves none s s := ⟨.refl _ heap, rfl⟩
  have refused : Sent (·.ptr ∉ s.heap.live) s.pipe i (load s.user buf count) 0 s
      (.returned FAILURE) := .failed (by decide) (puts_none i s.pipe)
  unfold writePipe
  split
  · exact ⟨.hangs, nothing⟩
  next valid hvalid =>
  split
  · exact ⟨refused, nothing⟩
  next hne =>
  rcases kmalloc_cases heap count with
    ⟨kbuf, hnull, halloc⟩ | ⟨kbuf, t, halloc, hgranted, held, hfresh, -, hlarge⟩
  · rw [halloc]
    dsimp only
    rw [if_pos hnull]
    exact ⟨refused, nothing⟩
  · have granted := spares_kmalloc heap (by omega) halloc
    have only := kmalloc_onlyHeap halloc
    have hagain : validatePointer buf count 0 t = some valid := by
      rw [only.validatePointer, hvalid]
    have hfits := hlarge hcount
    have hsmall := held.small
    have hdata : loadBytes t.user buf count = load s.user buf count := by
      rw [only.user]
      exact loadBytes_user (accepted_lt hvalid hne) (by omega)
    have hlength := Channels.length_load s.user buf count
    rw [halloc]
    dsimp only
    rw [if_neg hgranted, copyFromUser_eq hagain hne]
    dsimp only
    rw [if_neg one_ne_zero, hdata]
    obtain ⟨spares, heldFilled, contains⟩ := @fill_contains t kbuf held
      (load s.user buf count) (by omega)
    have filled : OnlyHeap t (t.fill kbuf 0 (load s.user buf count)) := rfl
    generalize t.fill kbuf 0 (load s.user buf count) = u at spares heldFilled contains filled ⊢
    have hloads : loadBytes u.heap.state.ram kbuf.ptr count = load s.user buf count := by
      have hloads := contains.loadBytes heldFilled (by omega)
      rwa [hlength] at hloads
    have hpipe : u.pipe = s.pipe := filled.pipe.trans only.pipe
    have first : Leaves (some kbuf.ptr) s u :=
      ⟨(granted.weaken _).trans spares, filled.user.trans only.user⟩
    rw [hloads]
    dsimp only
    rcases @Pipe.pipeWrite_puts i fd (load s.user buf count) u.pipe _ (hpipe ▸ hfd)
        (hpipe ▸ refines) with
      hclosed | ⟨k, hk, puts, wrote⟩
    · rw [hclosed]
      obtain ⟨v, hrun, onlyFreed, freed⟩ := @spares_release u kbuf heldFilled
        (ofInt Pipe.PIPE_ERROR_CLOSED) (touched kbuf 0 (copiedSince u.pipe u.pipe).length)
      have hafter : afterWrite kbuf 0 u.pipe u (.returned Pipe.PIPE_ERROR_CLOSED []) = _ := hrun
      dsimp only
      rw [hafter]
      have leaves := first.trans (.of_onlyHeap onlyFreed freed)
      refine ⟨.failed (by decide) ?_, leaves.spares.fresh hfresh, leaves.user⟩
      rw [onlyFreed.pipe, hpipe]
      exact puts_none i s.pipe
    · have writes := pipeWrite_writes fd (load s.user buf count) u.pipe
      obtain ⟨hsent, leaves⟩ := @afterWrite_sent u _ _ kbuf i fd 0 k _ heldFilled contains
        (by omega) (by omega) puts (by rwa [Nat.zero_add]) writes
      rw [hpipe] at hsent leaves ⊢
      have leaves := first.trans leaves
      exact ⟨hsent.mono fun kbuf' heq => heq ▸ hfresh, leaves.spares.fresh hfresh, leaves.user⟩

/-! ### Reading -/

/-- What a read of at most `limit` bytes has done that finds `f` in its pipe. -/
inductive Received (mine : Buffer → Prop) (mayLose : Prop) (s : State) (i : PipeSlot)
    (buf limit : Nat) (f : Fifo UInt8 PIPE_BUFFER_SIZE) (t : State) : Outcome → Prop where
  | failed {result : Nat} : 2 ^ 63 ≤ result → Puts i [] s.pipe t.pipe → t.user = s.user →
      Received mine mayLose s i buf limit f t (.returned result)
  | done : Takes i (f.queue.take limit) s.pipe t.pipe →
      t.user = Channels.store s.user buf (f.queue.take limit) →
      Received mine mayLose s i buf limit f t (.returned (min limit f.queue.length))
  | lost : mayLose → Takes i (f.queue.take limit) s.pipe t.pipe → t.user = s.user →
      Received mine mayLose s i buf limit f t (.returned FAILURE)
  | waits {fd : Nat} {kbuf : Buffer} {current : Slot} : f.queue = [] → Puts i [] s.pipe t.pipe →
      t.user = s.user → mine kbuf → Held kbuf t.heap → limit ≤ kbuf.size →
      Received mine mayLose s i buf limit f t
        (.waits (.read buf kbuf (.reading i fd current limit)))
  | faults : Received mine mayLose s i buf limit f t .faults
  | hangs : Received mine mayLose s i buf limit f t .hangs

theorem Received.mono {mine mine' : Buffer → Prop} {mayLose mayLose' : Prop} {s t : State}
    {i : PipeSlot} {buf limit : Nat} {f : Fifo UInt8 PIPE_BUFFER_SIZE} {outcome : Outcome}
    (h : Received mine mayLose s i buf limit f t outcome) (hmine : ∀ kbuf, mine kbuf → mine' kbuf)
    (hlose : mayLose → mayLose') : Received mine' mayLose' s i buf limit f t outcome := by
  cases h with
  | failed hlarge puts huser => exact .failed hlarge puts huser
  | done takes huser => exact .done takes huser
  | lost hlost takes huser => exact .lost (hlose hlost) takes huser
  | waits hempty puts huser hown held hfits =>
      exact .waits hempty puts huser (hmine _ hown) held hfits
  | faults => exact .faults
  | hangs => exact .hangs

/-- The state before may be another one with the same pipes and user memory. -/
theorem Received.congr {mine : Buffer → Prop} {mayLose : Prop} {s s' t : State} {i : PipeSlot}
    {buf limit : Nat} {f : Fifo UInt8 PIPE_BUFFER_SIZE} {outcome : Outcome}
    (h : Received mine mayLose s' i buf limit f t outcome) (hpipe : s'.pipe = s.pipe)
    (huser : s'.user = s.user) : Received mine mayLose s i buf limit f t outcome := by
  cases h with
  | failed hlarge puts hsame => exact .failed hlarge (hpipe ▸ puts) (hsame.trans huser)
  | done takes hstore => exact .done (hpipe ▸ takes) (huser ▸ hstore)
  | lost hlost takes hsame => exact .lost hlost (hpipe ▸ takes) (hsame.trans huser)
  | waits hempty puts hsame hown held hfits =>
      exact .waits hempty (hpipe ▸ puts) (hsame.trans huser) hown held hfits
  | faults => exact .faults
  | hangs => exact .hangs

theorem store_nil (m : Store) (a : Nat) : Channels.store m a [] = m := by
  funext x
  unfold Channels.store
  simp

theorem takes_none (i : PipeSlot) (pipe : Pipe.State) : Takes i [] pipe pipe := by
  refine ⟨.refl pipe, fun _ => rfl, fun j => ?_⟩
  rw [List.append_nil, ite_self]

/-- A read that has its buffer, and what it finds in the pipe. -/
theorem afterRead_received {u : State} {pipe : Pipe.State} {outcome : Pipe.Outcome}
    {kbuf : Buffer} {i : PipeSlot} {fd buf limit : Nat} {f : Fifo UInt8 PIPE_BUFFER_SIZE}
    (held : Held kbuf u.heap) (hfits : limit ≤ kbuf.size)
    (read : Pipe.Read i fd limit f u.pipe (outcome, pipe)) :
    Received (· = kbuf) (¬ Accepts buf limit PAGE_WRITABLE u) u i buf limit f
        (afterRead buf kbuf { u with pipe := pipe } outcome).2.2
        (afterRead buf kbuf { u with pipe := pipe } outcome).1 ∧
      Spares (some kbuf.ptr) u.heap
        (afterRead buf kbuf { u with pipe := pipe } outcome).2.2.heap := by
  have hsmall := held.small
  have same : Spares (some kbuf.ptr) u.heap u.heap := .refl _ held.heap
  -- a read that has nothing to copy
  have released : ∀ result bytes, bytes = [] → ¬ result > 0 → outcome = .returned result bytes →
      ∃ t trace, afterRead buf kbuf { u with pipe := pipe } outcome
          = (.returned (ofInt result), trace, t) ∧
        t.pipe = pipe ∧ t.user = u.user ∧ Spares (some kbuf.ptr) u.heap t.heap := by
    rintro result bytes rfl hless rfl
    obtain ⟨t, hrun, only, spares⟩ := @spares_release { u with pipe := pipe } kbuf held
      (ofInt result) (touched kbuf 0 0)
    refine ⟨t, touched kbuf 0 0, ?_, only.pipe, only.user, spares⟩
    rw [← hrun]
    exact if_neg hless
  cases read with
  | @failed result hlow hneg =>
      obtain ⟨t, trace, hrun, hpipe, huser, spares⟩ := released _ _ rfl (by omega) rfl
      rw [hrun]
      refine ⟨.failed ?_ ?_ huser, spares⟩
      · simp only [ofInt, Pipe.PIPE_ERROR_CLOSED] at hlow ⊢
        omega
      · rw [hpipe]
        exact puts_none i u.pipe
  | closed hempty =>
      obtain ⟨t, trace, hrun, hpipe, huser, spares⟩ := released _ _ rfl (by omega) rfl
      rw [hrun]
      have hzero : (min limit f.queue.length) = 0 := by rw [hempty, List.length_nil, Nat.min_zero]
      have done : Received (· = kbuf) (¬ Accepts buf limit PAGE_WRITABLE u) u i buf limit f t
          (.returned (min limit f.queue.length)) := by
        refine .done ?_ ?_
        · rw [hempty, List.take_nil, hpipe]
          exact takes_none i u.pipe
        · rw [hempty, List.take_nil, store_nil, huser]
      rw [hzero] at done
      exact ⟨done, spares⟩
  | waits puts hempty => exact ⟨.waits hempty puts rfl rfl held hfits, same⟩
  | faults => exact ⟨.faults, same⟩
  | some takes =>
      have hlength : (f.queue.take limit).length = min limit f.queue.length := List.length_take
      have hmin : ofInt (min limit f.queue.length : Nat) = min limit f.queue.length := by
        rw [ofInt]
        omega
      by_cases hpos : 0 < min limit f.queue.length
      · obtain ⟨spares, heldFilled, contains⟩ := @fill_contains { u with pipe := pipe } kbuf held
          (f.queue.take limit) (by omega)
        have filled : OnlyHeap { u with pipe := pipe }
          ({ u with pipe := pipe }.fill kbuf 0 (f.queue.take limit)) := rfl
        have hgo : ((min limit f.queue.length : Nat) : Int) > 0 := by omega
        simp only [afterRead, if_pos hgo, Int.toNat_natCast]
        generalize State.fill { u with pipe := pipe } kbuf 0 (f.queue.take limit) = v
          at spares heldFilled contains filled ⊢
        have hloads : loadBytes v.heap.state.ram kbuf.ptr (min limit f.queue.length)
            = f.queue.take limit := by
          have hloads := contains.loadBytes heldFilled (by omega)
          rwa [hlength] at hloads
        unfold copyToUser
        split
        next => exact ⟨.hangs, spares⟩
        next copied trace w hcopy =>
          split at hcopy
          next => cases hcopy
          next valid hvalid =>
          have hagain : validatePointer buf (min limit f.queue.length) PAGE_WRITABLE v
              = validatePointer buf (min limit f.queue.length) PAGE_WRITABLE u :=
            filled.validatePointer _ _ _
          split at hcopy
          next hrefused =>
            cases hcopy
            obtain ⟨t, hrun, only, freed⟩ := @spares_release v kbuf heldFilled FAILURE
              (touched kbuf 0 (f.queue.take limit).length ++ [])
            rw [if_pos rfl, hrun]
            refine ⟨.lost ?_ ?_ ?_, spares.trans freed⟩
            · rintro ⟨whole, hwhole, hne⟩
              have hfront := accepted_front hwhole hne hpos (Nat.min_le_left _ _) (by omega)
              rw [← hagain, hvalid, hrefused] at hfront
              cases hfront
            · rw [only.pipe, filled.pipe]
              exact takes
            · rw [only.user, filled.user]
          next haccepted =>
            cases hcopy
            have hbelow := accepted_lt (hagain ▸ hvalid) haccepted
            rw [hloads]
            obtain ⟨t, hrun, only, freed⟩ := @spares_release
              { v with user := storeBytes v.user buf 0 (f.queue.take limit) } kbuf heldFilled
              (ofInt (min limit f.queue.length : Nat))
              (touched kbuf 0 (f.queue.take limit).length ++
                .accepted buf (min limit f.queue.length) ::
                  copiedOut buf kbuf (min limit f.queue.length))
            rw [if_neg one_ne_zero, hrun, hmin]
            refine ⟨.done ?_ ?_, spares.trans freed⟩
            · rw [only.pipe]
              dsimp only
              rw [filled.pipe]
              exact takes
            · rw [only.user]
              dsimp only
              rw [filled.user]
              exact storeBytes_user hbelow (by omega)
      · have hzero : min limit f.queue.length = 0 := by omega
        have hnil : f.queue.take limit = [] := List.length_eq_zero_iff.mp (hlength.trans hzero)
        obtain ⟨t, trace, hrun, hpipe, huser, spares⟩ := released _ _ hnil (by omega) rfl
        rw [hrun, hmin]
        refine ⟨.done ?_ ?_, spares⟩
        · rw [hpipe]
          exact takes
        · rw [hnil, store_nil, huser]

/-- A call of `sys_read` on a pipe puts what it receives at `buf`, and loses nothing. -/
theorem readPipe_received {s : State} {fd buf count : Nat} {i : PipeSlot}
    {f : Fifo UInt8 PIPE_BUFFER_SIZE} (heap : ∃ bs, HeapInv s.heap bs)
    (hfd : Pipe.pipeGetByFd fd s.pipe = some i) (refines : Refines s.pipe i f)
    (hcount : count ≤ 2 ^ 64 - 8) :
    Received (·.ptr ∉ s.heap.live) False s i buf count f
        (readPipe fd buf count s).2.2 (readPipe fd buf count s).1 ∧
      Spares none s.heap (readPipe fd buf count s).2.2.heap := by
  have nothing : Spares none s.heap s.heap := .refl _ heap
  have refused : Received (·.ptr ∉ s.heap.live) False s i buf count f s (.returned FAILURE) :=
    .failed (by decide) (puts_none i s.pipe) rfl
  unfold readPipe
  split
  · exact ⟨.hangs, nothing⟩
  next valid hvalid =>
  split
  · exact ⟨refused, nothing⟩
  next hne =>
  rcases kmalloc_cases heap count with
    ⟨kbuf, hnull, halloc⟩ | ⟨kbuf, t, halloc, hgranted, held, hfresh, -, hlarge⟩
  · rw [halloc]
    dsimp only
    rw [if_pos hnull]
    exact ⟨refused, nothing⟩
  · have granted := spares_kmalloc heap (by omega) halloc
    have only := kmalloc_onlyHeap halloc
    have haccepts : Accepts buf count PAGE_WRITABLE t :=
      ⟨valid, by rw [only.validatePointer, hvalid], hne⟩
    rw [halloc]
    dsimp only
    rw [if_neg hgranted]
    dsimp only
    have read := @Pipe.pipeRead_read i fd count t.pipe _ (only.pipe ▸ hfd) (only.pipe ▸ refines)
    obtain ⟨received, spares⟩ := @afterRead_received t _ _ kbuf i fd buf count f held
      (hlarge hcount) read
    have received := received.congr only.pipe only.user
    exact ⟨received.mono (fun kbuf' heq => heq ▸ hfresh) fun hlost => hlost haccepts,
      ((granted.weaken _).trans spares).fresh hfresh⟩

/-! ### Calls that go on -/

theorem resume_received {s : State} {buf fd count : Nat} {kbuf : Buffer} {i : PipeSlot}
    {current : Slot} {f : Fifo UInt8 PIPE_BUFFER_SIZE} (held : Held kbuf s.heap)
    (hfits : count ≤ kbuf.size) (refines : Refines s.pipe i f) :
    Received (· = kbuf) (¬ Accepts buf count PAGE_WRITABLE s) s i buf count f
        (Waiting.resume s (.read buf kbuf (.reading i fd current count))).2.2
        (Waiting.resume s (.read buf kbuf (.reading i fd current count))).1 ∧
      Spares (some kbuf.ptr) s.heap
        (Waiting.resume s (.read buf kbuf (.reading i fd current count))).2.2.heap := by
  have read : Pipe.Read i fd count f s.pipe ((Pipe.waitToRead i fd current count s.pipe).1,
    (Pipe.waitToRead i fd current count s.pipe).2) := Pipe.waitToRead_read refines current
  exact afterRead_received held hfits read

theorem resume_sent {s : State} {fd written : Nat} {kbuf : Buffer} {i : PipeSlot}
    {data : List UInt8} {f : Fifo UInt8 PIPE_BUFFER_SIZE} (held : Held kbuf s.heap)
    (contains : Contains kbuf data s.heap) (hwritten : written ≤ data.length)
    (hfits : data.length ≤ kbuf.size) (refines : Refines s.pipe i f) :
    Sent (· = kbuf) s.pipe i data written
        (Waiting.resume s (.write kbuf written (.writing i fd data written))).2.2
        (Waiting.resume s (.write kbuf written (.writing i fd data written))).1 ∧
      Leaves (some kbuf.ptr) s
        (Waiting.resume s (.write kbuf written (.writing i fd data written))).2.2 := by
  rcases @Pipe.resumeWrite_puts i fd written data s.pipe f refines hwritten with
    hclosed | ⟨k, hk, puts, wrote⟩
  · obtain ⟨t, hrun, only, spares⟩ := @spares_release s kbuf held (ofInt Pipe.PIPE_ERROR_CLOSED)
      (touched kbuf written (copiedSince s.pipe s.pipe).length)
    have hresume : Waiting.resume s (.write kbuf written (.writing i fd data written))
        = (.returned (ofInt Pipe.PIPE_ERROR_CLOSED),
            touched kbuf written (copiedSince s.pipe s.pipe).length, t) := by
      rw [← hrun]
      simp only [Waiting.resume, Pipe.Call.resume, hclosed]
      rfl
    rw [hresume]
    refine ⟨.failed (by decide) ?_, .of_onlyHeap only spares⟩
    rw [only.pipe]
    exact puts_none i s.pipe
  · exact afterWrite_sent held contains hfits hk puts wrote
      (@resumeWrite_writes i fd data written s.pipe hwritten)

end Curnel.Descriptors
