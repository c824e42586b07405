/-
syscall.c: the system calls that change signal actions and masks.

A call gets user addresses as its arguments. `user` is the memory behind them,
by virtual address; it is looked at only after `usermode_validate_pointer` has
accepted the range. The locals of a call whose address is taken are stores of
their own, from address 0 on, and hold at first whatever the kernel stack held.

A `signal_action_t` takes 24 bytes: the handler, the flags, four bytes that
belong to no field, and the mask. An assignment copies all 24.
-/

import Curnel.Signals
import Curnel.Usermode

namespace Curnel.Syscall

open Lib.Bytes Lib.Word

/-- `(uint64_t)-1`, which is also `SIG_ERR`. -/
def FAILURE : Nat := 2 ^ 64 - 1

/-! ### `sys_signal` -/

def sysSignal (signum handler : Nat) (s : Process.State) : Nat × Process.State :=
  if signum ≥ MAX_SIGNALS then (FAILURE, s)
  else
    let (result, s) := Process.signalSetHandler signum handler s
    (ofInt result, s)

/-! ### User memory and locals -/

structure State where
  process : Process.State
  paging : Paging.State
  user : Store
  /-- The bytes of each signal action that belong to no field. -/
  padding : Slot → Fin MAX_SIGNALS → Nat

/-- What the locals of a call hold when it starts. -/
structure Locals where
  act : Store
  oldact : Store
  set : Store
  oldset : Store
  mask : Store

/-- `sizeof(signal_action_t)`. -/
def SIGNAL_ACTION_SIZE : Nat := 24

/-- `sizeof(sigset_t)`. -/
def SIGSET_SIZE : Nat := 8

/-- `usermode_validate_pointer` under the page tables of the state. -/
def validatePointer (ptr size accessFlags : Nat) (s : State) : Option Nat :=
  Usermode.usermodeValidatePointer ptr size accessFlags s.paging

/-- `usermode_copy_from_user` into a local. -/
def copyFromUser (dst : Store) (src size : Nat) (s : State) : Option (Nat × Store) :=
  match validatePointer src size 0 s with
  | none => none
  | some valid =>
      if valid = 0 then some (0, dst)
      else some (1, writeBytes dst 0 (readBytes s.user src size))

/-- `usermode_copy_to_user` from a local. -/
def copyToUser (dst : Nat) (src : Store) (size : Nat) (s : State) : Option (Nat × State) :=
  match validatePointer dst size PAGE_WRITABLE s with
  | none => none
  | some valid =>
      if valid = 0 then some (0, s)
      else some (1, { s with user := writeBytes s.user dst (readBytes src 0 size) })

/-- The local that an argument is read into, unless its pointer is null. The
inner `none` is the early return of -1. -/
def fetch (dst : Store) (ptr size : Nat) (s : State) : Option (Option Store) :=
  if ptr = NULL then some (some dst)
  else
    match validatePointer ptr size 0 s with
    | none => none
    | some valid =>
        if valid = 0 then some none
        else
          match copyFromUser dst ptr size s with
          | none => none
          | some (copied, dst) => if copied = 0 then some none else some (some dst)

/-- The end of a call: a local goes to the user, unless the pointer is null. -/
def deliver (result ptr : Nat) (src : Store) (size : Nat) (s : State) : Option (Nat × State) :=
  if ptr = NULL then some (result, s)
  else
    match validatePointer ptr size PAGE_WRITABLE s with
    | none => none
    | some valid =>
        if valid = 0 then some (FAILURE, s)
        else
          match copyToUser ptr src size s with
          | none => none
          | some (copied, s) => if copied = 0 then some (FAILURE, s) else some (result, s)

/-! ### `sys_sigaction` -/

/-- The fields of the `signal_action_t` in a local. -/
def loadAction (m : Store) : SignalAction :=
  ⟨readLE m 0 8, readLE m 8 4, BitVec.ofNat 64 (readLE m 16 8)⟩

/-- `*oldact = action`, where `oldact` is a local. -/
def storeAction (action : SignalAction) (padding : Nat) (m : Store) : Store :=
  let m := writeLE m 0 8 action.handler
  let m := writeLE m 8 4 action.flags
  let m := writeLE m 12 4 padding
  writeLE m 16 8 action.mask.toNat

/-- `signal_set_action` on locals. Where it is not given `oldact`, its caller has no
use for the local either. -/
def signalSetAction (signum : Nat) (act : Option Store) (oldact : Store) (s : State) :
    Int × Store × State :=
  match Process.signalSetAction signum (act.map loadAction) s.process with
  | (result, none, process) => (result, oldact, { s with process := process })
  | (result, some old, process) =>
      let i := s.process.currentProcessIndex
      let n := Fin.ofNat MAX_SIGNALS signum
      let padding :=
        match act with
        | none => s.padding
        | some m =>
            Function.update s.padding i (Function.update (s.padding i) n (readLE m 12 4))
      (result, storeAction old (s.padding i n) oldact,
        { s with process := process, padding := padding })

def sysSigaction (l : Locals) (signum actPtr oldactPtr : Nat) (s : State) :
    Option (Nat × State) :=
  if signum ≥ MAX_SIGNALS then some (FAILURE, s)
  else
    match fetch l.act actPtr SIGNAL_ACTION_SIZE s with
    | none => none
    | some none => some (FAILURE, s)
    | some (some act) =>
        let (result, oldact, s) :=
          signalSetAction signum (if actPtr ≠ NULL then some act else none) l.oldact s
        deliver (ofInt result) oldactPtr oldact SIGNAL_ACTION_SIZE s

/-! ### `sys_sigprocmask` and `sys_sigsuspend` -/

/-- The `sigset_t` in a local. -/
def loadSet (m : Store) : SigSet := BitVec.ofNat 64 (readLE m 0 8)

/-- `*oldset = blocked`, where it is reached. -/
def storeSet (blocked : Option SigSet) (m : Store) : Store :=
  match blocked with
  | none => m
  | some blocked => writeLE m 0 8 blocked.toNat

def sysSigprocmask (l : Locals) (how setPtr oldsetPtr : Nat) (s : State) :
    Option (Nat × State) :=
  match fetch l.set setPtr SIGSET_SIZE s with
  | none => none
  | some none => some (FAILURE, s)
  | some (some set) =>
      let (result, old, process) := Process.signalProcMask (toInt32 how)
        (if setPtr ≠ NULL then some (loadSet set) else none) s.process
      deliver (ofInt result) oldsetPtr (storeSet old l.oldset) SIGSET_SIZE
        { s with process := process }

/-- How far a call has come: it has returned, or it waits in `schedule` with the
mask that it will restore. -/
inductive Outcome where
  | returned (result : Nat)
  | suspended (caller : Slot) (oldMask : SigSet)
deriving DecidableEq, Repr

def sysSigsuspend (fuel : Nat) (l : Locals) (maskPtr : Nat) (s : State) :
    Option (Outcome × State) :=
  if maskPtr = NULL then some (.returned FAILURE, s)
  else
    match validatePointer maskPtr SIGSET_SIZE 0 s with
    | none => none
    | some valid =>
        if valid = 0 then some (.returned FAILURE, s)
        else if Process.getCurrentProcess s.process = none then some (.returned FAILURE, s)
        else
          match copyFromUser l.mask maskPtr SIGSET_SIZE s with
          | none => none
          | some (copied, mask) =>
              if copied = 0 then some (.returned FAILURE, s)
              else
                match Process.sysSigsuspend fuel (loadSet mask) s.process with
                | none => none
                | some (none, process) => some (.returned FAILURE, { s with process := process })
                | some (some (caller, oldMask), process) =>
                    some (.suspended caller oldMask, { s with process := process })

/-! ### The calls with user pointers -/

inductive Call where
  | sigaction (signum actPtr oldactPtr : Nat)
  | sigprocmask (how setPtr oldsetPtr : Nat)
  | sigsuspend (maskPtr : Nat)
deriving DecidableEq, Repr

def Call.run (fuel : Nat) (l : Locals) (s : State) : Call → Option (Outcome × State)
  | .sigaction signum actPtr oldactPtr =>
      (sysSigaction l signum actPtr oldactPtr s).map fun out => (.returned out.1, out.2)
  | .sigprocmask how setPtr oldsetPtr =>
      (sysSigprocmask l how setPtr oldsetPtr s).map fun out => (.returned out.1, out.2)
  | .sigsuspend maskPtr => sysSigsuspend fuel l maskPtr s

/-! ### Signals whose action can be set -/

/-- The signal numbers that `signal_set_handler` and `signal_set_action` accept. -/
def Settable (signum : Nat) : Prop :=
  0 < signum ∧ signum < MAX_SIGNALS ∧ signum ≠ Process.SIGKILL ∧ signum ≠ Process.SIGSTOP

instance (signum : Nat) : Decidable (Settable signum) :=
  inferInstanceAs (Decidable (_ ∧ _ ∧ _ ∧ _))

section Actions

variable {signum : Nat} {f : SignalAction → SignalAction} {s : Process.State} {i : Slot}

/-- The change that `changeAction` makes. -/
def withAction (i : Slot) (signum : Nat) (f : SignalAction → SignalAction)
    (s : Process.State) : Process.State :=
  let n := Fin.ofNat MAX_SIGNALS signum
  s.modify i fun p =>
    { p with signalActions := Function.update p.signalActions n (f (p.signalActions n)) }

/-- The action of the process in slot `i` for a signal. -/
def actionOf (s : Process.State) (i : Slot) (signum : Nat) : SignalAction :=
  (s.processes i).signalActions (Fin.ofNat MAX_SIGNALS signum)

theorem changeAction_settable (settable : Settable signum)
    (hcurrent : Process.getCurrentProcess s = some i) :
    Process.changeAction signum f s = (some (actionOf s i signum), withAction i signum f s) := by
  obtain ⟨hpos, hlt, hkill, hstop⟩ := settable
  have hrange : ¬ ((signum : Int) ≤ 0 ∨ (signum : Int) ≥ MAX_SIGNALS) := by omega
  have hfixed : ¬ ((signum : Int) = Process.SIGKILL ∨ (signum : Int) = Process.SIGSTOP) := by omega
  unfold Process.changeAction
  rw [if_neg hrange, hcurrent]
  simp only [if_neg hfixed, Int.toNat_natCast]
  rfl

theorem changeAction_rejected
    (h : Settable signum → Process.getCurrentProcess s = none) :
    Process.changeAction signum f s = (none, s) := by
  unfold Process.changeAction
  split
  · rfl
  next hrange =>
  split
  · rfl
  next i hcurrent =>
  split
  · rfl
  next hfixed =>
  push Not at hrange hfixed
  have settable : Settable signum :=
    ⟨by omega, by omega, fun heq => hfixed.1 (by rw [heq]), fun heq => hfixed.2 (by rw [heq])⟩
  rw [h settable] at hcurrent
  cases hcurrent

@[simp] theorem actionOf_withAction_self :
    actionOf (withAction i signum f s) i signum = f (actionOf s i signum) := by
  simp [actionOf, withAction]

theorem actionOf_withAction_other {j : Slot} {n : Fin MAX_SIGNALS}
    (h : j ≠ i ∨ n ≠ Fin.ofNat MAX_SIGNALS signum) :
    ((withAction i signum f s).processes j).signalActions n = (s.processes j).signalActions n := by
  by_cases hj : j = i
  · have hn := h.resolve_left (not_not.mpr hj)
    rw [hj, withAction, Process.modify_same]
    exact Function.update_of_ne hn _ _
  · rw [withAction, Process.modify_other _ hj]

theorem getCurrentProcess_withAction :
    Process.getCurrentProcess (withAction i signum f s) = Process.getCurrentProcess s := by
  have hpid : ∀ j, ((withAction i signum f s).processes j).pid = (s.processes j).pid := by
    intro j
    unfold withAction
    apply Process.modify_congr Process.pid
    rfl
  unfold Process.getCurrentProcess
  rw [hpid]
  rfl

end Actions

end Curnel.Syscall
