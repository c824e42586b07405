/-
Where the standard descriptors lead.

`pipe_get_by_fd` takes what a descriptor has above its third bit for the id of a pipe, and a
free slot has the id 0. So as long as a slot is free, the descriptors 0, 1 and 2 lead to
it: `sys_write` on 1 and 2 writes to no terminal, `sys_read` on 0 reads no keyboard, and
`pipe_set_flags` leaves its mark on the slot. `routed_iff` says when each of them does what
it should; apart from the pipes, a text reaches the terminal only if the heap has room for
it, and only up to its first NUL.
-/

import Mathlib.Data.List.TakeWhile
import Curnel.Descriptors.System

namespace Curnel.Descriptors

open Lib Lib.Bytes Lib.Word

/-! ### What is expected of descriptors -/

/-- A range of user memory that `usermode_validate_pointer` accepts. -/
structure ValidBuffer (buf n : Nat) (s : State) : Prop where
  range : Usermode.InUserRange buf n 0 s.paging
  accepted : validatePointer buf n 0 s = some 1

inductive Ask where
  | find (fd : Nat)
  | write (fd buf n : Nat)
  | read (buf count : Nat)
  | close (fd : Nat)
  | setFlags (fd : Nat) (flags : BitVec 8)

/-- A descriptor finds the live pipe whose id it has; 1 and 2 are the terminal, 0 is the
keyboard, and none of these three is a pipe that could be closed or set. -/
def Routed (s : State) : Ask → Prop
  | .find fd =>
      Pipe.pipeGetByFd fd s.pipe ≠ none ↔
        ∃ i, Pipe.Live s.pipe i ∧ (s.pipe.pipes i).id = fd >>> 3
  | .write fd buf n =>
      fd = 1 ∨ fd = 2 → ValidBuffer buf n s → ∃ trace s',
        sysWrite fd buf n s = (.returned n, trace, s') ∧
          s'.terminal = s.terminal ++ [loadBytes s.user buf n]
  | .read buf count =>
      ∀ keys, sysRead 0 buf count { s with keys := keys }
        = keyboardRead buf count { s with keys := keys }
  | .close fd => fd ≤ 2 → (Pipe.pipeClose fd s.pipe).2.pipes = s.pipe.pipes
  | .setFlags fd flags => fd ≤ 2 → (Pipe.pipeSetFlags fd flags s.pipe).2.pipes = s.pipe.pipes

/-- No slot is free. -/
def Full (s : Pipe.State) : Prop := ∀ i, (s.pipes i).id ≠ 0

/-- A slot is given the id 0 as a live pipe when 2⁶⁴ of them have been created. -/
def RoutedWhen (s : State) : Ask → Prop
  | .find fd => 8 ≤ fd ∨ Full s.pipe ∨ ∃ i, Pipe.Live s.pipe i ∧ (s.pipe.pipes i).id = 0
  | .write fd buf n =>
      fd = 1 ∨ fd = 2 → ValidBuffer buf n s →
        Full s.pipe ∧ HasRoom (n + 1) s ∧ 0 ∉ loadBytes s.user buf n
  | .read _ _ => Full s.pipe
  | .close fd =>
      fd ≤ 2 → ∀ i, Pipe.findPipe 0 s.pipe = some i →
        (fd &&& Pipe.PIPE_FLAG_READABLE ≠ 0 → (s.pipe.pipes i).readerOpen = false) ∧
          (fd &&& Pipe.PIPE_FLAG_WRITABLE ≠ 0 → (s.pipe.pipes i).writerOpen = false)
  | .setFlags fd flags =>
      fd ≤ 2 → ∀ i, Pipe.findPipe 0 s.pipe = some i →
        (s.pipe.pipes i).flags &&& Pipe.PIPE_FLAG_NONBLOCK
          = flags &&& Pipe.PIPE_FLAG_NONBLOCK

/-! ### Finding a pipe -/

theorem findPipe_eq_none_iff {id : Nat} {s : Pipe.State} :
    Pipe.findPipe id s = none ↔ ∀ i, (s.pipes i).id ≠ id := by
  simp [Pipe.findPipe, List.find?_eq_none]

theorem findPipe_ne_none_iff {id : Nat} {s : Pipe.State} :
    Pipe.findPipe id s ≠ none ↔ ∃ i, (s.pipes i).id = id := by
  rw [Ne, findPipe_eq_none_iff, not_forall_not]

/-- The standard descriptors are looked up with the id of free slots. -/
theorem pipeGetByFd_standard {fd : Nat} (hfd : fd ≤ 2) (s : Pipe.State) :
    Pipe.pipeGetByFd fd s = Pipe.findPipe 0 s := by
  have hid : fd >>> 3 = 0 := by
    rw [Nat.shiftRight_eq_div_pow]
    omega
  rw [Pipe.pipeGetByFd, hid]

theorem routed_find_iff {s : State} (consistent : Consistent s) (fd : Nat) :
    Routed s (.find fd) ↔ RoutedWhen s (.find fd) := by
  simp only [Routed, RoutedWhen, Pipe.pipeGetByFd, findPipe_ne_none_iff]
  have hlive : ∀ i, (s.pipe.pipes i).id ≠ 0 → Pipe.Live s.pipe i := fun i hid =>
    by_contra fun hdead => hid (consistent.free i hdead).2
  have hfound : (∃ i, Pipe.Live s.pipe i ∧ (s.pipe.pipes i).id = fd >>> 3) →
      ∃ i, (s.pipe.pipes i).id = fd >>> 3 := by
    rintro ⟨i, -, hi⟩
    exact ⟨i, hi⟩
  rcases Nat.lt_or_ge fd 8 with hlow | hhigh
  · have hid : fd >>> 3 = 0 := by
      rw [Nat.shiftRight_eq_div_pow]
      omega
    rw [hid] at hfound ⊢
    rw [or_iff_right (Nat.not_le_of_lt hlow)]
    constructor
    · intro hfinds
      by_cases hzero : ∃ i, (s.pipe.pipes i).id = 0
      · exact Or.inr (hfinds.mp hzero)
      · exact Or.inl (not_exists.mp hzero)
    · rintro (hfull | hthere)
      · exact ⟨fun hfinds => absurd hfinds (not_exists.mpr hfull), hfound⟩
      · exact ⟨fun _ => hthere, hfound⟩
  · have hid : fd >>> 3 ≠ 0 := by
      rw [Nat.shiftRight_eq_div_pow]
      omega
    refine iff_of_true ⟨?_, hfound⟩ (Or.inl hhigh)
    rintro ⟨i, hi⟩
    exact ⟨i, hlive i (hi ▸ hid), hi⟩

/-! ### Closing and setting -/

theorem modify_pipes_eq_iff {s : Pipe.State} {i : Pipe.PipeSlot} {f : Pipe → Pipe} :
    (s.modify i f).pipes = s.pipes ↔ f (s.pipes i) = s.pipes i :=
  Function.update_eq_self_iff

/-- Closing a slot with the id 0 changes it if it closes an end. -/
theorem closeEnds_eq_self_iff {fd : Nat} {p : Pipe} (hid : p.id = 0) :
    Pipe.closeEnds fd p = p ↔
      (fd &&& Pipe.PIPE_FLAG_READABLE ≠ 0 → p.readerOpen = false) ∧
        (fd &&& Pipe.PIPE_FLAG_WRITABLE ≠ 0 → p.writerOpen = false) := by
  constructor
  · intro hsame
    have hreader := Pipe.closeEnds_readerOpen fd p
    have hwriter := Pipe.closeEnds_writerOpen fd p
    rw [hsame] at hreader hwriter
    refine ⟨fun hbit => ?_, fun hbit => ?_⟩
    · rw [hreader, decide_eq_false hbit, Bool.and_false]
    · rw [hwriter, decide_eq_false hbit, Bool.and_false]
  · obtain ⟨id, buffer, readPos, writePos, dataSize, flags, readerPid, writerPid, readerOpen,
      writerOpen⟩ := p
    rintro ⟨hreader, hwriter⟩
    dsimp only at hid hreader hwriter
    subst hid
    unfold Pipe.closeEnds
    by_cases hr : fd &&& Pipe.PIPE_FLAG_READABLE ≠ 0 <;>
      by_cases hw : fd &&& Pipe.PIPE_FLAG_WRITABLE ≠ 0 <;>
        cases readerOpen <;> cases writerOpen <;> simp_all

theorem routed_close_iff (s : State) (fd : Nat) :
    Routed s (.close fd) ↔ RoutedWhen s (.close fd) := by
  simp only [Routed, RoutedWhen]
  refine forall_congr' fun hfd => ?_
  rw [Pipe.pipeClose, pipeGetByFd_standard hfd]
  cases hfind : Pipe.findPipe 0 s.pipe with
  | none => simp
  | some i =>
      dsimp only
      rw [modify_pipes_eq_iff, closeEnds_eq_self_iff (Pipe.findPipe_id hfind)]
      simp

/-- A bit that is set the way it was. -/
theorem set_bits_eq_self_iff {w : Nat} {a b mask : BitVec w} :
    (a &&& ~~~ mask) ||| (b &&& mask) = a ↔ a &&& mask = b &&& mask := by
  constructor
  · intro h
    rw [← h]
    ext j
    simp
    cases a[j] <;> cases b[j] <;> cases mask[j] <;> rfl
  · intro h
    rw [← h]
    ext j
    simp
    cases a[j] <;> cases mask[j] <;> rfl

theorem routed_setFlags_iff (s : State) (fd : Nat) (flags : BitVec 8) :
    Routed s (.setFlags fd flags) ↔ RoutedWhen s (.setFlags fd flags) := by
  simp only [Routed, RoutedWhen]
  refine forall_congr' fun hfd => ?_
  rw [Pipe.pipeSetFlags, pipeGetByFd_standard hfd]
  cases hfind : Pipe.findPipe 0 s.pipe with
  | none => simp
  | some i =>
      have hflags : ∀ p : Pipe, ∀ flags : BitVec 8,
          ({ p with flags := flags } : Pipe) = p ↔ flags = p.flags := by
        intro p flags
        constructor
        · intro h
          rw [← h]
        · rintro rfl
          rfl
      dsimp only
      rw [modify_pipes_eq_iff, hflags, set_bits_eq_self_iff]
      simp

/-! ### Reading -/

theorem copyToUser_keys {dst size copied : Nat} {kbuf : Buffer} {trace : List Access}
    {s s' : State} (h : copyToUser dst kbuf size s = some (copied, trace, s')) :
    s'.keys = s.keys := by
  unfold copyToUser at h
  split at h
  · cases h
  split at h
  · cases h
    rfl
  · cases h
    rfl

theorem afterRead_keys (buf : Nat) (kbuf : Buffer) (s : State) (result : Pipe.Outcome) :
    (afterRead buf kbuf s result).2.2.keys = s.keys := by
  cases result with
  | returned result bytes =>
      simp only [afterRead]
      split
      · split
        · rfl
        · rename_i copied touches t hcopy
          have hcopied : t.keys = (s.fill kbuf 0 bytes).keys := copyToUser_keys hcopy
          exact (release_onlyHeap ..).keys.trans hcopied
      · exact (release_onlyHeap ..).keys
  | waits call => rfl
  | faults => rfl
  | loops => rfl

/-- A read from a pipe leaves the keys alone, and does not return without a buffer to read
to unless it fails. -/
theorem readPipe_keys (fd buf count : Nat) (s : State) :
    (readPipe fd buf count s).2.2.keys = s.keys ∧
      ((readPipe fd buf count s).2.1 = [] → ∀ result,
        (readPipe fd buf count s).1 = .returned result → result = FAILURE) := by
  unfold readPipe
  split
  · exact ⟨rfl, fun _ result hreturns => by cases hreturns⟩
  split
  · refine ⟨rfl, fun _ result hreturns => ?_⟩
    cases hreturns
    rfl
  split
  · exact ⟨rfl, fun htrace => by cases htrace⟩
  · rename_i kbuf t halloc
    have hkeys := (kmalloc_onlyHeap halloc).keys
    split
    · exact ⟨hkeys, fun htrace => by cases htrace⟩
    · exact ⟨(afterRead_keys ..).trans hkeys, fun htrace => by cases htrace⟩

/-- A line break ends what the keyboard is read for, and is taken from it. -/
theorem keyboardRead_lineBreak (buf count : Nat) (s : State) :
    (∃ out trace t, keyboardRead buf count { s with keys := [0x0A] } = (out, trace, t) ∧
        t.keys = []) ∨
      keyboardRead buf count { s with keys := [0x0A] }
        = (.returned 0, [], { s with keys := [0x0A] }) := by
  rcases Nat.eq_zero_or_pos count with rfl | hpos
  · exact Or.inr rfl
  · left
    simp [keyboardRead, keyboardLoop, hpos]

theorem routed_read_iff (s : State) (buf count : Nat) :
    Routed s (.read buf count) ↔ RoutedWhen s (.read buf count) := by
  simp only [Routed, RoutedWhen, sysRead, pipeGetByFd_standard (Nat.zero_le 2)]
  cases hfind : Pipe.findPipe 0 s.pipe with
  | none => exact iff_of_true (fun _ => rfl) (findPipe_eq_none_iff.mp hfind)
  | some i =>
      refine iff_of_false (fun hroutes => ?_) fun hfull => hfull i (Pipe.findPipe_id hfind)
      have hread : readPipe 0 buf count { s with keys := [0x0A] }
          = keyboardRead buf count { s with keys := [0x0A] } := hroutes [0x0A]
      obtain ⟨hkeys, hfails⟩ := readPipe_keys 0 buf count { s with keys := [0x0A] }
      rcases keyboardRead_lineBreak buf count s with ⟨out, trace, t, hkey, htaken⟩ | hnone
      · rw [hread, hkey, htaken] at hkeys
        cases hkeys
      · rw [hread, hnone] at hfails
        have hzero := hfails rfl 0 rfl
        cases hzero

/-! ### Writing -/

theorem afterWrite_terminal (kbuf : Buffer) (written : Nat) (before : Pipe.State) (s : State)
    (result : Pipe.Outcome) :
    (afterWrite kbuf written before s result).2.2.terminal = s.terminal := by
  cases result with
  | returned result bytes => exact (release_onlyHeap ..).terminal
  | waits call => rfl
  | faults => rfl
  | loops => rfl

/-- What is written to a pipe does not reach the terminal. -/
theorem writePipe_terminal (fd buf count : Nat) (s : State) :
    (writePipe fd buf count s).2.2.terminal = s.terminal := by
  unfold writePipe
  split
  · rfl
  split
  · rfl
  split
  · rfl
  · rename_i kbuf t halloc
    have hallocated := (kmalloc_onlyHeap halloc).terminal
    split
    · exact hallocated
    split
    · exact hallocated
    · rename_i copied touches t' hcopy
      have hcopied := (copyFromUser_onlyHeap hcopy).terminal.trans hallocated
      split
      · exact (release_onlyHeap ..).terminal.trans hcopied
      · exact (afterWrite_terminal ..).trans hcopied

/-- Bytes with a NUL after them, read as a string. -/
theorem cString_eq {m : Store} {p : Nat} {bytes : List UInt8}
    (hfits : p + bytes.length < 2 ^ 64) (hbytes : ∀ k ≤ bytes.length, m (p + k) = bytes.getD k 0) :
    cString m (bytes.length + 1) p = some (bytes.takeWhile (· ≠ 0)) := by
  induction bytes generalizing p with
  | nil =>
      have hend : m p = 0 := hbytes 0 (le_refl 0)
      simp [cString, hend]
  | cons b bytes ih =>
      have hfirst : m p = b := hbytes 0 (Nat.zero_le _)
      rw [List.length_cons] at hfits
      rw [List.length_cons, cString, hfirst]
      by_cases hb : b = 0
      · simp [hb]
      · rw [if_neg hb, wadd_of_lt (by omega), ih (by omega)]
        · simp [hb]
        · intro k hk
          have hnext := hbytes (k + 1) (Nat.succ_le_succ hk)
          rw [List.getD_cons_succ] at hnext
          rw [← hnext, Nat.add_assoc, Nat.add_comm 1 k]

/-- The copy of a text in the buffer of a call, with a NUL after it. -/
theorem cString_fill {s : State} {kbuf : Buffer} {bytes : List UInt8}
    (hfits : kbuf.ptr + bytes.length < 2 ^ 64) :
    cString ((s.fill kbuf 0 bytes).fill kbuf bytes.length [0]).heap.state.ram (bytes.length + 1)
      kbuf.ptr = some (bytes.takeWhile (· ≠ 0)) := by
  apply cString_eq hfits
  intro k hk
  have hram : ((s.fill kbuf 0 bytes).fill kbuf bytes.length [0]).heap.state.ram
      = writeBytes (writeBytes s.heap.state.ram kbuf.ptr bytes) (kbuf.ptr + bytes.length) [0] := by
    rw [State.fill, State.fill]
    dsimp only
    rw [storeBytes_eq (by simp; omega), storeBytes_eq (by omega), Nat.add_zero]
  rw [hram]
  rcases Nat.lt_or_eq_of_le hk with hlt | rfl
  · rw [writeBytes_frame _ _ _ (by simp; omega), writeBytes_add hlt]
  · have hend := @writeBytes_add (writeBytes s.heap.state.ram kbuf.ptr bytes)
      (kbuf.ptr + bytes.length) 0 [0] (by simp)
    rw [Nat.add_zero] at hend
    rw [hend]
    simp

/-- Valid buffers are smaller than user space. -/
theorem ValidBuffer.size_le {buf n : Nat} {s : State} (valid : ValidBuffer buf n s) :
    n ≤ USER_STACK_TOP := by
  rcases Nat.eq_zero_or_pos n with rfl | hpos
  · exact Nat.zero_le _
  · have hlast := (valid.range.bytes (buf + (n - 1)) (Nat.le_add_right _ _) (by omega)).upper
    have hfirst := (valid.range.bytes buf (le_refl buf) (by omega)).lower
    simp only [USER_BASE] at hfirst
    omega

/-- A valid text is written to the terminal up to its first NUL, if there is room for it. -/
theorem writeTerminal_cases {buf n : Nat} {s : State} (consistent : Consistent s)
    (valid : ValidBuffer buf n s) :
    ¬ HasRoom (n + 1) s ∧ writeTerminal buf n s = (.returned FAILURE, [], s) ∨
      HasRoom (n + 1) s ∧ ∃ trace s', writeTerminal buf n s = (.returned n, trace, s') ∧
        s'.terminal = s.terminal ++ [(loadBytes s.user buf n).takeWhile (· ≠ 0)] := by
  have hbound := valid.size_le
  simp only [USER_STACK_TOP] at hbound
  have hsize : wadd 64 n 1 = n + 1 := wadd_of_lt (by omega)
  rw [writeTerminal, valid.accepted]
  dsimp only
  rw [if_neg one_ne_zero, hsize]
  rcases kmalloc_cases consistent.heap (n + 1) with
    ⟨kbuf, hnull, halloc⟩ | ⟨kbuf, t, halloc, hne, held, -, -, hlarge⟩
  · left
    rw [halloc, hasRoom_iff halloc]
    exact ⟨not_not.mpr hnull, if_pos hnull⟩
  · right
    have honly := kmalloc_onlyHeap halloc
    have hvalid : validatePointer buf n 0 t = some 1 := by
      rw [honly.validatePointer, valid.accepted]
    have hroom : n + 1 ≤ kbuf.size := hlarge (by omega)
    have hend := held.ptr_lt
    have hcopied : Held kbuf (t.fill kbuf 0 (loadBytes t.user buf n)).heap :=
      held.fill held (by rw [length_loadBytes]; omega)
    have hclosed : Held kbuf
        ((t.fill kbuf 0 (loadBytes t.user buf n)).fill kbuf n [0]).heap := hcopied.fill hcopied hroom
    have hshown := @cString_fill t kbuf (loadBytes t.user buf n) (by rw [length_loadBytes]; omega)
    rw [length_loadBytes] at hshown
    rw [halloc, hasRoom_iff halloc]
    refine ⟨hne, ?_⟩
    obtain ⟨u, hfree, -, -⟩ := kfree_held (s := { (t.fill kbuf 0 (loadBytes t.user buf n)).fill
      kbuf n [0] with
        terminal := t.terminal ++ [(loadBytes t.user buf n).takeWhile (· ≠ 0)] }) hclosed
    have hterminal : u.terminal
        = t.terminal ++ [(loadBytes t.user buf n).takeWhile (· ≠ 0)] :=
      (kfree_onlyHeap hfree).terminal
    dsimp only
    rw [if_neg hne, copyFromUser, hvalid]
    dsimp only
    rw [if_neg one_ne_zero]
    dsimp only
    rw [if_neg one_ne_zero, hshown]
    dsimp only
    refine ⟨_, u, release_eq hfree .., ?_⟩
    rw [hterminal, honly.terminal, honly.user]

theorem routed_write_iff {s : State} (consistent : Consistent s) (fd buf n : Nat) :
    Routed s (.write fd buf n) ↔ RoutedWhen s (.write fd buf n) := by
  simp only [Routed, RoutedWhen]
  refine forall_congr' fun hfd => forall_congr' fun valid => ?_
  have hstandard : fd ≤ 2 := by omega
  rw [sysWrite, pipeGetByFd_standard hstandard]
  cases hfind : Pipe.findPipe 0 s.pipe with
  | some i =>
      refine iff_of_false ?_ fun hwhen => hwhen.1 i (Pipe.findPipe_id hfind)
      rintro ⟨trace, s', hwrite, hterminal⟩
      have hkept := writePipe_terminal fd buf n s
      dsimp only at hwrite
      rw [hwrite, hterminal] at hkept
      simp at hkept
  | none =>
      have hfull : Full s.pipe := findPipe_eq_none_iff.mp hfind
      rw [and_iff_right hfull]
      dsimp only
      rw [if_pos hfd]
      rcases writeTerminal_cases consistent valid with
        ⟨hroom, hfails⟩ | ⟨hroom, trace, s', hwrites, hterminal⟩
      · refine iff_of_false ?_ fun hwhen => hroom hwhen.1
        rintro ⟨trace, s', hwrite, hterminal⟩
        rw [hfails] at hwrite
        cases hwrite
        simp at hterminal
      · rw [and_iff_right hroom]
        have hwhole : (loadBytes s.user buf n).takeWhile (· ≠ 0) = loadBytes s.user buf n ↔
            0 ∉ loadBytes s.user buf n := by
          rw [List.takeWhile_eq_self_iff]
          simp only [ne_eq, decide_not, Bool.not_eq_true', decide_eq_false_iff_not]
          exact ⟨fun hall hzero => hall 0 hzero rfl, fun hnone b hb hzero => hnone (hzero ▸ hb)⟩
        rw [← hwhole]
        constructor
        · rintro ⟨trace', t, hwrite, hshown⟩
          rw [hwrites] at hwrite
          cases hwrite
          rw [hterminal] at hshown
          simpa using hshown
        · intro hshown
          exact ⟨trace, s', hwrites, by rw [hterminal, hshown]⟩

/-! ### The descriptors in every run -/

theorem routed_iff {kernel : Process.State} {ram : Store} {paging : Paging.State} {user : Store}
    {ops : List Background} {s : State} (run : Run Elsewhere (start kernel ram paging user) ops s)
    (ask : Ask) : Routed s ask ↔ RoutedWhen s ask := by
  have consistent := run_consistent run
  cases ask with
  | find fd => exact routed_find_iff consistent fd
  | write fd buf n => exact routed_write_iff consistent fd buf n
  | read buf count => exact routed_read_iff s buf count
  | close fd => exact routed_close_iff s fd
  | setFlags fd flags => exact routed_setFlags_iff s fd flags

/-- A pipe is created, closed and its slot given to another. -/
theorem routed_iff_reused_slot :
    ∃ s, Run Elsewhere (start Process.initAndChild (fun _ => 0) Usermode.unmapped fun _ => 0)
        [.pipe .pipeCreate, .pipe (.pipeClose 9), .pipe (.pipeClose 10), .pipe .pipeCreate] s ∧
      (s.pipe.pipes 0).id = 2 ∧ (Routed s (.find 9) ↔ RoutedWhen s (.find 9)) := by
  have run : Run Elsewhere
      (start Process.initAndChild (fun _ => 0) Usermode.unmapped fun _ => 0)
      [.pipe .pipeCreate, .pipe (.pipeClose 9), .pipe (.pipeClose 10), .pipe .pipeCreate] _ :=
    .cons (.pipe (@Pipe.Step.pipeCreate _ [])) (.cons (.pipe (@Pipe.Step.pipeClose _ [] 9))
      (.cons (.pipe (@Pipe.Step.pipeClose _ [] 10)) (.single (.pipe (@Pipe.Step.pipeCreate _ [])))))
  exact ⟨_, run, by decide +kernel, routed_iff run (.find 9)⟩

/-- As soon as the kernel is up, descriptor 1 finds a slot that no pipe is in, descriptor 0
does not read the keyboard, and setting 1 to non-blocking marks the slot. -/
theorem standard_descriptors_find_free_slot :
    ∃ s, Run Elsewhere (start Process.initAndChild (fun _ => 0) Usermode.unmapped fun _ => 0) [] s ∧
      ¬ Routed s (.find 1) ∧ ¬ Routed s (.read 0x400000 1) ∧
      ¬ Routed s (.setFlags 1 Pipe.PIPE_FLAG_NONBLOCK) := by
  refine ⟨_, .nil _, ?_, ?_, ?_⟩
  · intro routed
    obtain ⟨i, ⟨hcreated, -⟩, -⟩ := routed.mp (findPipe_ne_none_iff.mpr ⟨0, rfl⟩)
    cases hcreated
  · intro routed
    exact (routed_read_iff _ _ _).mp routed 0 rfl
  · intro routed
    have hflags := congrArg (fun p => p.flags) (congrFun (routed (by decide)) 0)
    revert hflags
    decide +kernel

end Curnel.Descriptors
