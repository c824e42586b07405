/-
The second user pointer of `sys_sigaction` and `sys_sigprocmask`.

Both calls read through one user pointer, change the process, and only then look
at the pointer for the old value. `failure_keeps_signals_iff` says for which calls
a failure leaves the signal state alone, `locals_stay_secret_iff` for which calls
nothing of the kernel stack reaches the user: the copy to the user does not ask
whether the local has been filled.
-/

import Curnel.Process.Scheduler
import Curnel.Syscall

namespace Curnel.Syscall

open Lib.Bytes Lib.Word

/-! ### User pointers -/

/-- `usermode_validate_pointer` accepts the range. -/
def Accepted (ptr size accessFlags : Nat) (s : State) : Prop :=
  validatePointer ptr size accessFlags s = some 1

/-- An argument that is not given or can be read. -/
def Readable (ptr size : Nat) (s : State) : Prop := ptr = NULL ∨ Accepted ptr size 0 s

/-- The local after its argument has been read. -/
def argument (dst : Store) (ptr size : Nat) (s : State) : Store :=
  if ptr = NULL then dst else writeBytes dst 0 (readBytes s.user ptr size)

section Pointers

variable {dst src : Store} {ptr size accessFlags result : Nat} {s : State}

theorem validatePointer_cases (hsize : size ≤ PAGE_SIZE) :
    validatePointer ptr size accessFlags s = some 0 ∨ Accepted ptr size accessFlags s := by
  have hreturns : validatePointer ptr size accessFlags s ≠ none :=
    Usermode.usermodeValidatePointer_returns hsize
  obtain ⟨v, hv⟩ := Option.ne_none_iff_exists'.mp hreturns
  rcases Usermode.usermodeValidatePointer_bit hv with rfl | rfl
  · exact Or.inl hv
  · exact Or.inr hv

/-- The page tables decide. -/
theorem accepted_congr {t : State} (h : t.paging = s.paging) :
    Accepted ptr size accessFlags t ↔ Accepted ptr size accessFlags s := by
  unfold Accepted validatePointer
  rw [h]

theorem refused_of_not_accepted (hsize : size ≤ PAGE_SIZE) (h : ¬ Accepted ptr size accessFlags s) :
    validatePointer ptr size accessFlags s = some 0 :=
  (validatePointer_cases hsize).resolve_right h

theorem fetch_readable (readable : Readable ptr size s) :
    fetch dst ptr size s = some (some (argument dst ptr size s)) := by
  unfold fetch argument
  by_cases hnull : ptr = NULL
  · rw [if_pos hnull, if_pos hnull]
  · have accepted := readable.resolve_left hnull
    unfold Accepted at accepted
    simp [hnull, copyFromUser, accepted]

theorem fetch_unreadable (hsize : size ≤ PAGE_SIZE) (h : ¬ Readable ptr size s) :
    fetch dst ptr size s = some none := by
  unfold Readable at h
  push Not at h
  have refused := refused_of_not_accepted hsize h.2
  simp [fetch, h.1, refused]

theorem deliver_null : deliver result NULL src size s = some (result, s) := if_pos rfl

theorem deliver_accepted {t : State} (hptr : ptr ≠ NULL)
    (accepted : Accepted ptr size PAGE_WRITABLE s) (hsame : t.paging = s.paging) :
    deliver result ptr src size t =
      some (result, { t with user := writeBytes t.user ptr (readBytes src 0 size) }) := by
  rw [← accepted_congr hsame] at accepted
  unfold Accepted at accepted
  simp [deliver, hptr, copyToUser, accepted]

theorem deliver_refused {t : State} (hsize : size ≤ PAGE_SIZE) (hptr : ptr ≠ NULL)
    (h : ¬ Accepted ptr size PAGE_WRITABLE s) (hsame : t.paging = s.paging) :
    deliver result ptr src size t = some (FAILURE, t) := by
  rw [← accepted_congr hsame] at h
  have refused := refused_of_not_accepted hsize h
  simp [deliver, hptr, refused]

/-- Handing out the old value leaves the process alone. -/
theorem deliver_process {out : Nat × State} (hsize : size ≤ PAGE_SIZE)
    (h : deliver result ptr src size s = some out) : out.2.process = s.process := by
  by_cases hptr : ptr = NULL
  · rw [hptr, deliver_null] at h
    cases h
    rfl
  by_cases accepted : Accepted ptr size PAGE_WRITABLE s
  · rw [deliver_accepted hptr accepted rfl] at h
    cases h
    rfl
  · rw [deliver_refused hsize hptr accepted rfl] at h
    cases h
    rfl

theorem deliver_returns (hsize : size ≤ PAGE_SIZE) :
    ∃ out, deliver result ptr src size s = some out := by
  by_cases hptr : ptr = NULL
  · rw [hptr]
    exact ⟨_, deliver_null⟩
  by_cases accepted : Accepted ptr size PAGE_WRITABLE s
  · exact ⟨_, deliver_accepted hptr accepted rfl⟩
  · exact ⟨_, deliver_refused hsize hptr accepted rfl⟩

/-- A call that has succeeded so far fails at its end exactly for a pointer that is refused. -/
theorem deliver_failure {out : Nat × State} (hresult : result ≠ FAILURE)
    (h : deliver result ptr src size s = some out) (hfailed : out.1 = FAILURE) :
    ptr ≠ NULL ∧ ¬ Accepted ptr size PAGE_WRITABLE s := by
  constructor
  · rintro rfl
    rw [deliver_null] at h
    cases h
    exact hresult hfailed
  · intro accepted
    by_cases hptr : ptr = NULL
    · rw [hptr, deliver_null] at h
      cases h
      exact hresult hfailed
    · rw [deliver_accepted hptr accepted rfl] at h
      cases h
      exact hresult hfailed

end Pointers

/-! ### What the calls do to the process -/

/-- The action that a user pointer points to. -/
def userAction (ptr : Nat) (s : State) : SignalAction :=
  ⟨readLE s.user ptr 8, readLE s.user (ptr + 8) 4, BitVec.ofNat 64 (readLE s.user (ptr + 16) 8)⟩

/-- The set that a user pointer points to. -/
def userSet (ptr : Nat) (s : State) : SigSet := BitVec.ofNat 64 (readLE s.user ptr 8)

/-- A word inside what has just been read from the user. -/
theorem readLE_argument {dst : Store} {ptr size k n : Nat} {s : State} (hptr : ptr ≠ NULL)
    (hin : k + n ≤ size) :
    readLE (argument dst ptr size s) k n = readLE s.user (ptr + k) n := by
  unfold argument
  rw [if_neg hptr]
  apply readLE_shift
  intro j hj
  have hlength : k + j < (readBytes s.user ptr size).length := by
    simp only [readBytes, List.length_map, List.length_range]
    omega
  have hbyte := writeBytes_add (m := dst) (a := 0) hlength
  rw [Nat.zero_add] at hbyte
  rw [hbyte, List.getD_eq_getElem _ _ hlength]
  simp [readBytes, Nat.add_assoc]

theorem loadAction_argument {dst : Store} {ptr : Nat} {s : State} (hptr : ptr ≠ NULL) :
    loadAction (argument dst ptr SIGNAL_ACTION_SIZE s) = userAction ptr s := by
  have word : ∀ k n, k + n ≤ SIGNAL_ACTION_SIZE →
      readLE (argument dst ptr SIGNAL_ACTION_SIZE s) k n = readLE s.user (ptr + k) n := by
    intro k n hin
    exact readLE_argument hptr hin
  unfold loadAction userAction
  rw [word 0 8 (by decide), word 8 4 (by decide), word 16 8 (by decide), Nat.add_zero]

theorem loadSet_argument (dst : Store) {ptr : Nat} {s : State} (hptr : ptr ≠ NULL) :
    loadSet (argument dst ptr SIGSET_SIZE s) = userSet ptr s := by
  have hin : 0 + 8 ≤ SIGSET_SIZE := le_refl _
  unfold loadSet userSet
  rw [readLE_argument hptr hin, Nat.add_zero]

section Sigaction

variable {signum : Nat} {act : Option Store} {oldact : Store} {s : State} {i : Slot}

theorem signalSetAction_settable (act : Option Store) (oldact : Store)
    (settable : Settable signum) (hcurrent : Process.getCurrentProcess s.process = some i) :
    ∃ padding, signalSetAction signum act oldact s =
      (0, storeAction (actionOf s.process i signum) (s.padding i (Fin.ofNat MAX_SIGNALS signum))
          oldact,
        { s with
          process := withAction i signum (fun action => (act.map loadAction).getD action) s.process
          padding := padding }) := by
  have hi : s.process.currentProcessIndex = i := by
    unfold Process.getCurrentProcess at hcurrent
    split at hcurrent
    · exact Option.some.inj hcurrent
    · cases hcurrent
  unfold signalSetAction Process.signalSetAction
  rw [changeAction_settable settable hcurrent, hi]
  exact ⟨_, rfl⟩

theorem signalSetAction_rejected
    (h : Settable signum → Process.getCurrentProcess s.process = none) :
    signalSetAction signum act oldact s = (-1, oldact, s) := by
  unfold signalSetAction Process.signalSetAction
  rw [changeAction_rejected h]

end Sigaction

/-- The mask that `signal_proc_mask` leaves. -/
def newMask (how : Int) (set : Option SigSet) (blocked : SigSet) : SigSet :=
  match set with
  | none => blocked
  | some mask =>
      if how = 0 then blocked ||| Process.maskable mask
      else if how = 1 then blocked &&& ~~~ Process.maskable mask
      else if how = 2 then Process.maskable mask
      else blocked

/-- `p` with another mask. -/
def withMask (i : Slot) (f : SigSet → SigSet) (s : Process.State) : Process.State :=
  s.modify i fun p => { p with blockedSignals := f p.blockedSignals }

theorem signalProcMask_current (how : Int) (set : Option SigSet) {s : Process.State} {i : Slot}
    (hcurrent : Process.getCurrentProcess s = some i) :
    ∃ result, (result = 0 ∨ newMask how set = id) ∧
      Process.signalProcMask how set s =
        (result, some (s.processes i).blockedSignals, withMask i (newMask how set) s) := by
  unfold Process.signalProcMask Process.changeMask
  rw [hcurrent]
  cases set with
  | none => exact ⟨0, Or.inl rfl, rfl⟩
  | some mask =>
      by_cases hblock : how = 0
      · exact ⟨0, Or.inl rfl, by simp [hblock, newMask, withMask]⟩
      by_cases hunblock : how = 1
      · exact ⟨0, Or.inl rfl, by simp [hunblock, newMask, withMask]⟩
      by_cases hset : how = 2
      · exact ⟨0, Or.inl rfl, by simp [hset, newMask, withMask]⟩
      · refine ⟨-1, Or.inr ?_, by simp [hblock, hunblock, hset, newMask, withMask]⟩
        funext blocked
        simp [newMask, hblock, hunblock, hset]

theorem signalProcMask_rejected {how : Int} {set : Option SigSet} {s : Process.State}
    (h : Process.getCurrentProcess s = none) :
    Process.signalProcMask how set s = (-1, none, s) := by
  unfold Process.signalProcMask Process.changeMask
  rw [h]
  cases set with
  | none => rfl
  | some mask => simp

/-! ### Failing calls -/

/-- The signal state of every process is the same. -/
def SameSignals (s t : Process.State) : Prop :=
  ∀ i, (t.processes i).signalActions = (s.processes i).signalActions ∧
    (t.processes i).blockedSignals = (s.processes i).blockedSignals ∧
    (t.processes i).pendingSignals = (s.processes i).pendingSignals

/-- A call that returns -1 has changed no signal state. -/
def FailureKeepsSignals (fuel : Nat) (l : Locals) (s : State) (call : Call) : Prop :=
  ∀ t, call.run fuel l s = some (.returned FAILURE, t) → SameSignals s.process t.process

/-- The new action is read and accepted, and differs from the old one. -/
def ActionChanges (signum actPtr : Nat) (s : State) : Prop :=
  ∃ i, Process.getCurrentProcess s.process = some i ∧ Settable signum ∧ actPtr ≠ NULL ∧
    Accepted actPtr SIGNAL_ACTION_SIZE 0 s ∧ userAction actPtr s ≠ actionOf s.process i signum

/-- The set is read, and the mask that it asks for differs from the old one. -/
def MaskChanges (how setPtr : Nat) (s : State) : Prop :=
  ∃ i, Process.getCurrentProcess s.process = some i ∧ setPtr ≠ NULL ∧
    Accepted setPtr SIGSET_SIZE 0 s ∧
    newMask (toInt32 how) (some (userSet setPtr s)) (s.process.processes i).blockedSignals
      ≠ (s.process.processes i).blockedSignals

/-- A pointer for an old value that is not given or can be written. -/
def Writable (ptr size : Nat) (s : State) : Prop := ptr = NULL ∨ Accepted ptr size PAGE_WRITABLE s

/-- Where the call changes something, the pointer for the old value can be written. -/
def KeepsWhen (s : State) : Call → Prop
  | .sigaction signum actPtr oldactPtr =>
      ActionChanges signum actPtr s → Writable oldactPtr SIGNAL_ACTION_SIZE s
  | .sigprocmask how setPtr oldsetPtr =>
      MaskChanges how setPtr s → Writable oldsetPtr SIGSET_SIZE s
  | .sigsuspend _ => True

section Failures

variable {l : Locals} {s : State}

/-- For a call that never suspends, in terms of what it returns. -/
theorem returned_failure_iff {run : Option (Nat × State)} :
    (∀ t, run.map (fun out => (Outcome.returned out.1, out.2)) = some (.returned FAILURE, t) →
        SameSignals s.process t.process) ↔
      ∀ out, run = some out → out.1 = FAILURE → SameSignals s.process out.2.process := by
  constructor
  · rintro keeps ⟨r, t⟩ rfl rfl
    exact keeps t rfl
  · intro keeps t hrun
    obtain ⟨out, hout, heq⟩ := Option.map_eq_some_iff.mp hrun
    obtain ⟨hresult, rfl⟩ := Prod.mk.inj heq
    exact keeps out hout (Outcome.returned.inj hresult)

theorem SameSignals.refl (s : Process.State) : SameSignals s s := fun _ => ⟨rfl, rfl, rfl⟩

/-- Putting back the action that is there changes nothing. -/
theorem sameSignals_withAction {s : Process.State} {i : Slot} {signum : Nat}
    {f : SignalAction → SignalAction} (h : f (actionOf s i signum) = actionOf s i signum) :
    SameSignals s (withAction i signum f s) := by
  intro j
  unfold withAction
  refine ⟨?_, ?_, ?_⟩
  · apply Process.modify_congr Process.signalActions
    unfold actionOf at h
    simp only [h, Function.update_eq_self]
  · apply Process.modify_congr Process.blockedSignals
    rfl
  · apply Process.modify_congr Process.pendingSignals
    rfl

theorem sameSignals_withMask {s : Process.State} {i : Slot} {f : SigSet → SigSet}
    (h : f (s.processes i).blockedSignals = (s.processes i).blockedSignals) :
    SameSignals s (withMask i f s) := by
  intro j
  unfold withMask
  refine ⟨?_, ?_, ?_⟩
  · apply Process.modify_congr Process.signalActions
    rfl
  · apply Process.modify_congr Process.blockedSignals
    exact h
  · apply Process.modify_congr Process.pendingSignals
    rfl

theorem ofInt_zero_ne : ofInt 0 ≠ FAILURE := by decide

/-- After its argument has been read, `sys_sigaction` for a signal that it accepts. -/
theorem sysSigaction_settable (l : Locals) {signum actPtr : Nat} (oldactPtr : Nat) {i : Slot}
    (settable : Settable signum) (hcurrent : Process.getCurrentProcess s.process = some i)
    (readable : Readable actPtr SIGNAL_ACTION_SIZE s) :
    ∃ padding, sysSigaction l signum actPtr oldactPtr s =
      deliver (ofInt 0) oldactPtr
        (storeAction (actionOf s.process i signum) (s.padding i (Fin.ofNat MAX_SIGNALS signum))
          l.oldact) SIGNAL_ACTION_SIZE
        { s with
          process := withAction i signum
            (fun action => if actPtr = NULL then action else userAction actPtr s) s.process
          padding := padding } := by
  unfold sysSigaction
  rw [if_neg (not_le.mpr settable.2.1), fetch_readable readable]
  by_cases hnull : actPtr = NULL
  · obtain ⟨padding, hrun⟩ := signalSetAction_settable none l.oldact settable hcurrent
    refine ⟨padding, ?_⟩
    simp only [hnull, ne_eq, not_true_eq_false, if_false, if_true, hrun]
    rfl
  · obtain ⟨padding, hrun⟩ := signalSetAction_settable
      (some (argument l.act actPtr SIGNAL_ACTION_SIZE s)) l.oldact settable hcurrent
    refine ⟨padding, ?_⟩
    simp only [hnull, ne_eq, not_false_eq_true, if_true, if_false, hrun]
    simp only [Option.map_some, Option.getD_some, loadAction_argument hnull]

/-- Where it does not accept the signal, it hands out the local as it is. -/
theorem sysSigaction_rejected {signum actPtr oldactPtr : Nat} (hlt : signum < MAX_SIGNALS)
    (readable : Readable actPtr SIGNAL_ACTION_SIZE s)
    (h : Settable signum → Process.getCurrentProcess s.process = none) :
    sysSigaction l signum actPtr oldactPtr s =
      deliver (ofInt (-1)) oldactPtr l.oldact SIGNAL_ACTION_SIZE s := by
  unfold sysSigaction
  rw [if_neg (not_le.mpr hlt), fetch_readable readable]
  simp only [signalSetAction_rejected h]

theorem sysSigaction_refused {signum actPtr oldactPtr : Nat}
    (h : ¬ Readable actPtr SIGNAL_ACTION_SIZE s ∨ MAX_SIGNALS ≤ signum) :
    sysSigaction l signum actPtr oldactPtr s = some (FAILURE, s) := by
  unfold sysSigaction
  by_cases hlt : signum ≥ MAX_SIGNALS
  · rw [if_pos hlt]
  · have unreadable := h.resolve_right hlt
    rw [if_neg hlt, fetch_unreadable (by decide) unreadable]

theorem sysSigprocmask_current (l : Locals) (how oldsetPtr : Nat) {setPtr : Nat} {i : Slot}
    (hcurrent : Process.getCurrentProcess s.process = some i)
    (readable : Readable setPtr SIGSET_SIZE s) :
    ∃ result mask, (result = 0 ∨ mask = id) ∧
      mask = newMask (toInt32 how) (if setPtr = NULL then none else some (userSet setPtr s)) ∧
      sysSigprocmask l how setPtr oldsetPtr s =
        deliver (ofInt result) oldsetPtr
          (storeSet (some (s.process.processes i).blockedSignals) l.oldset) SIGSET_SIZE
          { s with process := withMask i mask s.process } := by
  have harg : (if setPtr ≠ NULL then some (loadSet (argument l.set setPtr SIGSET_SIZE s)) else none)
      = if setPtr = NULL then none else some (userSet setPtr s) := by
    by_cases hnull : setPtr = NULL
    · simp [hnull]
    · simp [hnull, loadSet_argument]
  obtain ⟨result, hresult, hrun⟩ := signalProcMask_current (toInt32 how)
    (if setPtr = NULL then none else some (userSet setPtr s)) hcurrent
  refine ⟨result, _, hresult, rfl, ?_⟩
  unfold sysSigprocmask
  rw [fetch_readable readable]
  simp only [harg, hrun]

theorem sysSigprocmask_rejected {how setPtr oldsetPtr : Nat}
    (readable : Readable setPtr SIGSET_SIZE s)
    (h : Process.getCurrentProcess s.process = none) :
    sysSigprocmask l how setPtr oldsetPtr s =
      deliver (ofInt (-1)) oldsetPtr l.oldset SIGSET_SIZE s := by
  unfold sysSigprocmask
  rw [fetch_readable readable]
  simp only [signalProcMask_rejected h]
  rfl

theorem sysSigprocmask_refused {how setPtr oldsetPtr : Nat}
    (h : ¬ Readable setPtr SIGSET_SIZE s) :
    sysSigprocmask l how setPtr oldsetPtr s = some (FAILURE, s) := by
  unfold sysSigprocmask
  rw [fetch_unreadable (by decide) h]

/-- `signal_set_action` rejects the signal, or there is a process whose action it sets. -/
theorem rejected_or_current (signum : Nat) (s : State) :
    (Settable signum → Process.getCurrentProcess s.process = none) ∨
      ∃ i, Settable signum ∧ Process.getCurrentProcess s.process = some i := by
  by_cases settable : Settable signum
  · cases hcurrent : Process.getCurrentProcess s.process with
    | none => exact Or.inl fun _ => rfl
    | some i => exact Or.inr ⟨i, settable, rfl⟩
  · exact Or.inl fun h => absurd h settable

/-- Neither call hangs, whatever its pointers. -/
theorem sysSigaction_returns {signum actPtr oldactPtr : Nat} :
    ∃ out, sysSigaction l signum actPtr oldactPtr s = some out := by
  by_cases hread : ¬ Readable actPtr SIGNAL_ACTION_SIZE s ∨ MAX_SIGNALS ≤ signum
  · exact ⟨_, sysSigaction_refused hread⟩
  push Not at hread
  unfold sysSigaction
  rw [if_neg (not_le.mpr hread.2), fetch_readable hread.1]
  exact deliver_returns (by decide)

theorem sysSigprocmask_returns {how setPtr oldsetPtr : Nat} :
    ∃ out, sysSigprocmask l how setPtr oldsetPtr s = some out := by
  by_cases hread : Readable setPtr SIGSET_SIZE s
  · unfold sysSigprocmask
    rw [fetch_readable hread]
    exact deliver_returns (by decide)
  · exact ⟨_, sysSigprocmask_refused hread⟩

/-- `sys_sigaction` fails before the change, or at the pointer for the old action. -/
theorem sigaction_keeps_iff {signum actPtr oldactPtr : Nat} :
    (∀ out, sysSigaction l signum actPtr oldactPtr s = some out → out.1 = FAILURE →
        SameSignals s.process out.2.process) ↔
      (ActionChanges signum actPtr s → Writable oldactPtr SIGNAL_ACTION_SIZE s) := by
  constructor
  · rintro keeps ⟨i, hcurrent, settable, hact, accepted, hchange⟩
    by_contra hwritable
    unfold Writable at hwritable
    push Not at hwritable
    obtain ⟨padding, hrun⟩ := sysSigaction_settable l oldactPtr settable hcurrent
      (Or.inr accepted)
    have hfails := hrun.trans (deliver_refused (by decide) hwritable.1 hwritable.2 rfl)
    have same := keeps _ hfails rfl i
    have hset : actionOf (withAction i signum
        (fun action => if actPtr = NULL then action else userAction actPtr s) s.process) i signum
        = actionOf s.process i signum := by
      unfold actionOf
      rw [same.1]
    rw [actionOf_withAction_self, if_neg hact] at hset
    exact hchange hset
  · intro hwritable out hrun hfailed
    by_cases hread : ¬ Readable actPtr SIGNAL_ACTION_SIZE s ∨ MAX_SIGNALS ≤ signum
    · rw [sysSigaction_refused hread] at hrun
      cases hrun
      exact SameSignals.refl _
    push Not at hread
    obtain ⟨readable, hlt⟩ := hread
    rcases rejected_or_current signum s with hrejected | ⟨i, settable, hcurrent⟩
    · rw [sysSigaction_rejected hlt readable hrejected] at hrun
      rw [deliver_process (by decide) hrun]
      exact SameSignals.refl _
    · obtain ⟨padding, hset⟩ := sysSigaction_settable l oldactPtr settable hcurrent readable
      rw [hset] at hrun
      obtain ⟨hgiven, refused⟩ := deliver_failure ofInt_zero_ne hrun hfailed
      rw [accepted_congr rfl] at refused
      rw [deliver_process (by decide) hrun]
      apply @sameSignals_withAction s.process i signum
        fun action => if actPtr = NULL then action else userAction actPtr s
      -- the pointer is refused, so the call may not have changed anything
      split
      · rfl
      next hact =>
        by_contra hchange
        have changes : ActionChanges signum actPtr s :=
          ⟨i, hcurrent, settable, hact, readable.resolve_left hact, hchange⟩
        exact (hwritable changes).elim hgiven refused

/-- `sys_sigprocmask` too; for a `how` that it does not know, it changes nothing. -/
theorem sigprocmask_keeps_iff {how setPtr oldsetPtr : Nat} :
    (∀ out, sysSigprocmask l how setPtr oldsetPtr s = some out → out.1 = FAILURE →
        SameSignals s.process out.2.process) ↔
      (MaskChanges how setPtr s → Writable oldsetPtr SIGSET_SIZE s) := by
  constructor
  · rintro keeps ⟨i, hcurrent, hset, accepted, hchange⟩
    by_contra hwritable
    unfold Writable at hwritable
    push Not at hwritable
    obtain ⟨result, mask, -, hmask, hrun⟩ := sysSigprocmask_current l how oldsetPtr hcurrent
      (Or.inr accepted)
    have hfails := hrun.trans (deliver_refused (by decide) hwritable.1 hwritable.2 rfl)
    have same := (keeps _ hfails rfl i).2.1
    simp only [withMask, Process.modify_same, hmask, if_neg hset] at same
    exact hchange same
  · intro hwritable out hrun hfailed
    by_cases hread : ¬ Readable setPtr SIGSET_SIZE s
    · rw [sysSigprocmask_refused hread] at hrun
      cases hrun
      exact SameSignals.refl _
    have readable := not_not.mp hread
    cases hcurrent : Process.getCurrentProcess s.process with
    | none =>
        rw [sysSigprocmask_rejected readable hcurrent] at hrun
        rw [deliver_process (by decide) hrun]
        exact SameSignals.refl _
    | some i =>
        obtain ⟨result, mask, hresult, hmask, hcall⟩ :=
          sysSigprocmask_current l how oldsetPtr hcurrent readable
        rw [hcall] at hrun
        rw [deliver_process (by decide) hrun]
        apply sameSignals_withMask
        rcases hresult with rfl | rfl
        · obtain ⟨hgiven, refused⟩ := deliver_failure ofInt_zero_ne hrun hfailed
          rw [accepted_congr rfl] at refused
          by_cases hset : setPtr = NULL
          · rw [hmask, if_pos hset]
            rfl
          · rw [hmask, if_neg hset]
            by_contra hchange
            have changes : MaskChanges how setPtr s :=
              ⟨i, hcurrent, hset, readable.resolve_left hset, hchange⟩
            exact (hwritable changes).elim hgiven refused
        · rfl

/-- `sys_sigsuspend` validates its one pointer first. -/
theorem sigsuspend_keeps {fuel maskPtr : Nat} {t : State}
    (h : sysSigsuspend fuel l maskPtr s = some (.returned FAILURE, t)) :
    SameSignals s.process t.process := by
  unfold sysSigsuspend at h
  split at h
  · cases h
    exact SameSignals.refl _
  split at h
  · cases h
  split at h
  · cases h
    exact SameSignals.refl _
  split at h
  · cases h
    exact SameSignals.refl _
  next hcurrent =>
  split at h
  · cases h
  split at h
  · cases h
    exact SameSignals.refl _
  split at h
  · cases h
  next hsuspend =>
    obtain ⟨i, hi⟩ := Option.ne_none_iff_exists'.mp hcurrent
    unfold Process.sysSigsuspend at hsuspend
    rw [hi] at hsuspend
    obtain ⟨u, -, hu⟩ := Option.map_eq_some_iff.mp hsuspend
    cases hu
  · cases h

end Failures

theorem failureKeepsSignals_sigaction {fuel : Nat} {l : Locals} {s : State}
    {signum actPtr oldactPtr : Nat} :
    FailureKeepsSignals fuel l s (.sigaction signum actPtr oldactPtr) ↔
      KeepsWhen s (.sigaction signum actPtr oldactPtr) :=
  returned_failure_iff.trans sigaction_keeps_iff

/-- **When a failing call leaves the signal state alone.** Whatever is wrong with its
arguments, a call that returns -1 has changed no action, no mask and no pending
signal, exactly when the pointer for the old value is not given or can be written
wherever the call changes the action or the mask. -/
theorem failure_keeps_signals_iff (fuel : Nat) (l : Locals) (s : State) (call : Call) :
    FailureKeepsSignals fuel l s call ↔ KeepsWhen s call := by
  cases call with
  | sigaction signum actPtr oldactPtr => exact failureKeepsSignals_sigaction
  | sigprocmask how setPtr oldsetPtr => exact returned_failure_iff.trans sigprocmask_keeps_iff
  | sigsuspend maskPtr => exact iff_of_true (fun _ h => sigsuspend_keeps h) trivial

/-- A kernel stack of one byte over and over. -/
def filledWith (b : UInt8) : Locals :=
  ⟨fun _ => b, fun _ => b, fun _ => b, fun _ => b, fun _ => b⟩

/-- Tables with one page for the user, at `USER_BASE`. -/
def userPageTables : Paging.State where
  ram x :=
    if x = 0x1000 ∨ x = 0x2000 ∨ x = 0x3010 ∨ x = 0x4000 then 7
    else if x = 0x1001 then 0x20
    else if x = 0x2001 then 0x30
    else if x = 0x3011 then 0x40
    else if x = 0x4001 then 0x50
    else 0
  pmm := ⟨0, 0, 0, 0, 0, 0⟩
  vmm := ⟨0x1000⟩

/-- `init` calls, with a page of ones at `USER_BASE`. -/
def initCalls : State := ⟨Process.initAndChild, userPageTables, fun _ => 1, fun _ _ => 0⟩

/-- The new action is read from the page, and the old one cannot be written below it. -/
theorem sigaction_fails_after_change :
    ¬ FailureKeepsSignals 0 (filledWith 0) initCalls (.sigaction 10 USER_BASE 0x1000) := by
  have accepted : Accepted USER_BASE SIGNAL_ACTION_SIZE 0 initCalls := by
    unfold Accepted
    decide +kernel
  have refused : ¬ Accepted 0x1000 SIGNAL_ACTION_SIZE PAGE_WRITABLE initCalls := by
    unfold Accepted
    decide +kernel
  have changes : ActionChanges 10 USER_BASE initCalls :=
    ⟨0, by decide, by decide, by decide, accepted, by decide⟩
  rw [failureKeepsSignals_sigaction]
  intro keeps
  exact (keeps changes).elim (by decide) refused

/-! ### What the user sees of the kernel stack -/

/-- User memory after the call is the same whatever the locals hold at first. -/
def LocalsStaySecret (fuel : Nat) (s : State) (call : Call) : Prop :=
  ∀ l l' : Locals, (call.run fuel l s).map (fun out => out.2.user)
    = (call.run fuel l' s).map fun out => out.2.user

/-- The local behind the pointer for the old value is copied to the user. -/
def HandedOut (ptr size : Nat) (s : State) : Prop :=
  ptr ≠ NULL ∧ Accepted ptr size PAGE_WRITABLE s

/-- A call that hands out its local has filled it. -/
def FilledWhen (s : State) : Call → Prop
  | .sigaction signum actPtr oldactPtr =>
      signum < MAX_SIGNALS → Readable actPtr SIGNAL_ACTION_SIZE s →
        HandedOut oldactPtr SIGNAL_ACTION_SIZE s →
          Settable signum ∧ Process.getCurrentProcess s.process ≠ none
  | .sigprocmask _ setPtr oldsetPtr =>
      Readable setPtr SIGSET_SIZE s → HandedOut oldsetPtr SIGSET_SIZE s →
        Process.getCurrentProcess s.process ≠ none
  | .sigsuspend _ => True

section Secrets

variable {s t : State} {src : Store} {ptr size result : Nat}

theorem deliver_user_written (handed : HandedOut ptr size s) (hpaging : t.paging = s.paging)
    (huser : t.user = s.user) :
    (deliver result ptr src size t).map (fun out => out.2.user)
      = some (writeBytes s.user ptr (readBytes src 0 size)) := by
  rw [deliver_accepted handed.1 handed.2 hpaging, ← huser]
  rfl

theorem deliver_user_kept (hsize : size ≤ PAGE_SIZE) (h : ¬ HandedOut ptr size s)
    (hpaging : t.paging = s.paging) (huser : t.user = s.user) :
    (deliver result ptr src size t).map (fun out => out.2.user) = some s.user := by
  by_cases hptr : ptr = NULL
  · rw [hptr, deliver_null, ← huser]
    rfl
  · have refused : ¬ Accepted ptr size PAGE_WRITABLE s := fun accepted => h ⟨hptr, accepted⟩
    rw [deliver_refused hsize hptr refused hpaging, ← huser]
    rfl

/-- Two locals that differ in their first byte leave two user memories. -/
theorem written_ne (m : Store) (hsize : 0 < size) :
    writeBytes m ptr (readBytes (fun _ => 0) 0 size)
      ≠ writeBytes m ptr (readBytes (fun _ => 1) 0 size) := by
  intro heq
  have first : ∀ b : UInt8, writeBytes m ptr (readBytes (fun _ => b) 0 size) ptr = b := by
    intro b
    have hlength : 0 < (readBytes (fun _ => b) 0 size).length := by
      simpa [readBytes] using hsize
    have hbyte := writeBytes_add (m := m) (a := ptr) hlength
    rw [Nat.add_zero] at hbyte
    rw [hbyte, List.getD_eq_getElem _ _ hlength]
    simp [readBytes]
  have hfirst := congrFun heq ptr
  rw [first, first] at hfirst
  exact absurd hfirst (by decide)

/-- An assignment to a `signal_action_t` leaves none of its bytes as it was. -/
theorem readBytes_storeAction (action : SignalAction) (padding : Nat) (m m' : Store) :
    readBytes (storeAction action padding m) 0 SIGNAL_ACTION_SIZE
      = readBytes (storeAction action padding m') 0 SIGNAL_ACTION_SIZE := by
  apply readBytes_shift
  intro k hk
  simp only [SIGNAL_ACTION_SIZE] at hk
  unfold storeAction
  apply writeLE_agree
  intro hmask
  apply writeLE_agree
  intro hpadding
  apply writeLE_agree
  intro hflags
  apply writeLE_agree
  intro hhandler
  omega

theorem readBytes_storeSet (blocked : SigSet) (m m' : Store) :
    readBytes (storeSet (some blocked) m) 0 SIGSET_SIZE
      = readBytes (storeSet (some blocked) m') 0 SIGSET_SIZE := by
  apply readBytes_shift
  intro k hk
  simp only [SIGSET_SIZE] at hk
  unfold storeSet
  apply writeLE_agree
  intro hset
  omega

theorem sigaction_secret_iff {signum actPtr oldactPtr : Nat} :
    (∀ l l' : Locals,
        (sysSigaction l signum actPtr oldactPtr s).map (fun out => out.2.user)
          = (sysSigaction l' signum actPtr oldactPtr s).map fun out => out.2.user) ↔
      FilledWhen s (.sigaction signum actPtr oldactPtr) := by
  constructor
  · intro secret hlt readable handed
    by_contra hfilled
    have hrejected : Settable signum → Process.getCurrentProcess s.process = none := by
      intro settable
      by_contra hcurrent
      exact hfilled ⟨settable, hcurrent⟩
    have hsame := secret (filledWith 0) (filledWith 1)
    rw [sysSigaction_rejected hlt readable hrejected, sysSigaction_rejected hlt readable hrejected,
      deliver_user_written handed rfl rfl, deliver_user_written handed rfl rfl] at hsame
    exact written_ne s.user (by decide) (Option.some.inj hsame)
  · intro hfilled l l'
    by_cases hread : ¬ Readable actPtr SIGNAL_ACTION_SIZE s ∨ MAX_SIGNALS ≤ signum
    · rw [sysSigaction_refused hread, sysSigaction_refused hread]
    push Not at hread
    obtain ⟨readable, hlt⟩ := hread
    by_cases handed : HandedOut oldactPtr SIGNAL_ACTION_SIZE s
    · obtain ⟨settable, hsome⟩ := hfilled hlt readable handed
      obtain ⟨i, hcurrent⟩ := Option.ne_none_iff_exists'.mp hsome
      have hrun : ∀ m : Locals,
          (sysSigaction m signum actPtr oldactPtr s).map (fun out => out.2.user)
            = some (writeBytes s.user oldactPtr (readBytes (storeAction
                (actionOf s.process i signum) (s.padding i (Fin.ofNat MAX_SIGNALS signum))
                m.oldact) 0 SIGNAL_ACTION_SIZE)) := by
        intro m
        obtain ⟨padding, hset⟩ := sysSigaction_settable m oldactPtr settable hcurrent readable
        rw [hset]
        exact deliver_user_written handed rfl rfl
      rw [hrun, hrun, readBytes_storeAction _ _ l.oldact l'.oldact]
    · have hrun : ∀ m : Locals,
          (sysSigaction m signum actPtr oldactPtr s).map (fun out => out.2.user)
            = some s.user := by
        intro m
        rcases rejected_or_current signum s with hrejected | ⟨i, settable, hcurrent⟩
        · rw [sysSigaction_rejected hlt readable hrejected]
          exact deliver_user_kept (by decide) handed rfl rfl
        · obtain ⟨padding, hset⟩ := sysSigaction_settable m oldactPtr settable hcurrent readable
          rw [hset]
          exact deliver_user_kept (by decide) handed rfl rfl
      rw [hrun, hrun]

theorem sigprocmask_secret_iff {how setPtr oldsetPtr : Nat} :
    (∀ l l' : Locals,
        (sysSigprocmask l how setPtr oldsetPtr s).map (fun out => out.2.user)
          = (sysSigprocmask l' how setPtr oldsetPtr s).map fun out => out.2.user) ↔
      FilledWhen s (.sigprocmask how setPtr oldsetPtr) := by
  constructor
  · intro secret readable handed hcurrent
    have hsame := secret (filledWith 0) (filledWith 1)
    rw [sysSigprocmask_rejected readable hcurrent, sysSigprocmask_rejected readable hcurrent,
      deliver_user_written handed rfl rfl, deliver_user_written handed rfl rfl] at hsame
    exact written_ne s.user (by decide) (Option.some.inj hsame)
  · intro hfilled l l'
    by_cases hread : ¬ Readable setPtr SIGSET_SIZE s
    · rw [sysSigprocmask_refused hread, sysSigprocmask_refused hread]
    have readable := not_not.mp hread
    cases hcurrent : Process.getCurrentProcess s.process with
    | none =>
        have handed : ¬ HandedOut oldsetPtr SIGSET_SIZE s := fun handed =>
          hfilled readable handed hcurrent
        rw [sysSigprocmask_rejected readable hcurrent, sysSigprocmask_rejected readable hcurrent,
          deliver_user_kept (by decide) handed rfl rfl, deliver_user_kept (by decide) handed rfl rfl]
    | some i =>
        by_cases handed : HandedOut oldsetPtr SIGSET_SIZE s
        · have hrun : ∀ m : Locals,
              (sysSigprocmask m how setPtr oldsetPtr s).map (fun out => out.2.user)
                = some (writeBytes s.user oldsetPtr (readBytes (storeSet
                    (some (s.process.processes i).blockedSignals) m.oldset) 0 SIGSET_SIZE)) := by
            intro m
            obtain ⟨result, mask, -, -, hset⟩ :=
              sysSigprocmask_current m how oldsetPtr hcurrent readable
            rw [hset]
            exact deliver_user_written handed rfl rfl
          rw [hrun, hrun, readBytes_storeSet _ l.oldset l'.oldset]
        · have hrun : ∀ m : Locals,
              (sysSigprocmask m how setPtr oldsetPtr s).map (fun out => out.2.user)
                = some s.user := by
            intro m
            obtain ⟨result, mask, -, -, hset⟩ :=
              sysSigprocmask_current m how oldsetPtr hcurrent readable
            rw [hset]
            exact deliver_user_kept (by decide) handed rfl rfl
          rw [hrun, hrun]

/-- `sys_sigsuspend` overwrites its one local before it looks at it. -/
theorem sigsuspend_secret {fuel maskPtr : Nat} (l l' : Locals) :
    sysSigsuspend fuel l maskPtr s = sysSigsuspend fuel l' maskPtr s := by
  unfold sysSigsuspend
  split
  · rfl
  next hnull =>
  have hload : ∀ m : Store,
      loadSet (writeBytes m 0 (readBytes s.user maskPtr SIGSET_SIZE)) = userSet maskPtr s := by
    intro m
    have hargument := loadSet_argument (s := s) m hnull
    unfold argument at hargument
    rw [if_neg hnull] at hargument
    exact hargument
  unfold copyFromUser
  cases validatePointer maskPtr SIGSET_SIZE 0 s with
  | none => rfl
  | some valid =>
      by_cases hvalid : valid = 0
      · simp only [hvalid, if_true]
      · simp only [hvalid, if_false, hload]

end Secrets

theorem returned_secret_iff {run : Locals → Option (Nat × State)} :
    (∀ l l', ((run l).map fun out => (Outcome.returned out.1, out.2)).map (fun out => out.2.user)
        = ((run l').map fun out => (Outcome.returned out.1, out.2)).map fun out => out.2.user) ↔
      ∀ l l', (run l).map (fun out => out.2.user) = (run l').map fun out => out.2.user := by
  simp only [Option.map_map, Function.comp_def]

theorem localsStaySecret_sigaction {fuel : Nat} {s : State} {signum actPtr oldactPtr : Nat} :
    LocalsStaySecret fuel s (.sigaction signum actPtr oldactPtr) ↔
      FilledWhen s (.sigaction signum actPtr oldactPtr) :=
  returned_secret_iff.trans sigaction_secret_iff

/-- **When no byte of the kernel stack reaches the user.** What user memory holds after
a call is independent of the locals' first contents exactly when every local that is
handed out has been filled: not for a signal number that is rejected, nor without a
current process. -/
theorem locals_stay_secret_iff (fuel : Nat) (s : State) (call : Call) :
    LocalsStaySecret fuel s call ↔ FilledWhen s call := by
  cases call with
  | sigaction signum actPtr oldactPtr => exact localsStaySecret_sigaction
  | sigprocmask how setPtr oldsetPtr => exact returned_secret_iff.trans sigprocmask_secret_iff
  | sigsuspend maskPtr =>
      refine iff_of_true ?_ trivial
      intro l l'
      dsimp only [Call.run]
      rw [sigsuspend_secret l l']

/-- Asking for the action of `SIGKILL` copies the local to the user as it is. -/
theorem sigaction_leaks_for_sigkill :
    ¬ LocalsStaySecret 0 initCalls (.sigaction Process.SIGKILL NULL USER_BASE) := by
  have accepted : Accepted USER_BASE SIGNAL_ACTION_SIZE PAGE_WRITABLE initCalls := by
    unfold Accepted
    decide +kernel
  rw [localsStaySecret_sigaction]
  intro filled
  have settable := (filled (by decide) (Or.inl rfl) ⟨by decide, accepted⟩).1
  exact settable.2.2.1 rfl

end Curnel.Syscall
