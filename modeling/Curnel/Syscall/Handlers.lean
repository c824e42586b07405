/-
`sys_signal` as save and restore.

`signal_set_handler` returns the old handler through an `int`, and `sys_signal`
widens the `int` to 64 bits again. What comes back is the low half of the address
with bit 31 spread over the high half: the handler itself exactly when its bits
31 to 63 are all equal.
-/

import Curnel.Process.Scheduler
import Curnel.Syscall

namespace Curnel.Syscall

open Lib.Word

/-! ### One call -/

section Calls

variable {signum handler : Nat} {s : Process.State} {i : Slot}

/-- `signal_set_handler` for a signal that it accepts. -/
theorem sysSignal_settable (settable : Settable signum)
    (hcurrent : Process.getCurrentProcess s = some i) :
    sysSignal signum handler s =
      (ofInt (toInt32 (actionOf s i signum).handler),
        withAction i signum (fun action => { action with handler := handler }) s) := by
  unfold sysSignal Process.signalSetHandler
  rw [if_neg (not_le.mpr settable.2.1), changeAction_settable settable hcurrent]

/-- The second of two calls overwrites what the first has set. -/
theorem withAction_handler_twice (first second : Nat) :
    withAction i signum (fun action => { action with handler := second })
        (withAction i signum (fun action => { action with handler := first }) s) =
      withAction i signum (fun action => { action with handler := second }) s := by
  simp [withAction, Process.State.modify]

end Calls

/-! ### The round trip -/

/-- What the calls promise to a program that sets `first`, then `second` for a while,
and at last the handler that it was given back. -/
structure SavesAndRestores (signum first second : Nat) (s : Process.State) (i : Slot) : Prop where
  returned : (sysSignal signum second (sysSignal signum first s).2).1 = first
  /-- Passing the returned value back restores the actions. -/
  restored : let once := (sysSignal signum first s).2
    let (old, twice) := sysSignal signum second once
    ((sysSignal signum old twice).2.processes i).signalActions = (once.processes i).signalActions
  /-- No other action of any process changes. -/
  others : let once := (sysSignal signum first s).2
    let (old, twice) := sysSignal signum second once
    ∀ t ∈ [once, twice, (sysSignal signum old twice).2], ∀ j n,
      j ≠ i ∨ n ≠ Fin.ofNat MAX_SIGNALS signum →
        (t.processes j).signalActions n = (s.processes j).signalActions n

/-- **When `sys_signal` saves and restores a handler.** For a signal whose handler can
be set, the second call returns the handler that the first has set, and passing it
back restores the actions, exactly when bits 31 to 63 of that handler are equal. -/
theorem sys_signal_restores_iff (signum first second : Nat) (s : Process.State) (i : Slot)
    (settable : Settable signum) (hcurrent : Process.getCurrentProcess s = some i)
    (hfirst : first < 2 ^ 64) :
    SavesAndRestores signum first second s i ↔ first < 2 ^ 31 ∨ 2 ^ 64 - 2 ^ 31 ≤ first := by
  have hcurrent' : ∀ f, Process.getCurrentProcess (withAction i signum f s) = some i := by
    intro f
    rw [getCurrentProcess_withAction, hcurrent]
  have hreturned : (sysSignal signum second (sysSignal signum first s).2).1
      = ofInt (toInt32 first) := by
    rw [sysSignal_settable settable hcurrent, sysSignal_settable settable (hcurrent' _),
      actionOf_withAction_self]
  rw [← ofInt_toInt32_eq_iff hfirst, ← hreturned]
  constructor
  · intro restores
    exact restores.returned
  · intro hsame
    refine ⟨hsame, ?_, ?_⟩
    · rw [hreturned] at hsame
      simp only [sysSignal_settable settable hcurrent, sysSignal_settable settable (hcurrent' _),
        actionOf_withAction_self, hsame, withAction_handler_twice]
    · simp only [sysSignal_settable settable hcurrent, sysSignal_settable settable (hcurrent' _),
        actionOf_withAction_self, withAction_handler_twice, List.mem_cons, List.not_mem_nil,
        or_false]
      rintro t (rfl | rfl | rfl) j n hother
      all_goals exact actionOf_withAction_other hother

theorem sys_signal_restores_user_handler :
    SavesAndRestores 10 0x400000 1 Process.initAndChild 0 ↔
      0x400000 < 2 ^ 31 ∨ 2 ^ 64 - 2 ^ 31 ≤ 0x400000 :=
  sys_signal_restores_iff 10 0x400000 1 Process.initAndChild 0 (by decide) (by decide) (by decide)

/-- A handler at 2 GB comes back as an address in the kernel's half. -/
theorem sys_signal_loses_high_handler :
    (sysSignal 10 1 (sysSignal 10 0x80000000 Process.initAndChild).2).1 = 0xFFFFFFFF80000000 ∧
    ¬ SavesAndRestores 10 0x80000000 1 Process.initAndChild 0 := by
  have hreturned : (sysSignal 10 1 (sysSignal 10 0x80000000 Process.initAndChild).2).1
      = 0xFFFFFFFF80000000 := by decide
  refine ⟨hreturned, fun restores => ?_⟩
  have := restores.returned
  rw [hreturned] at this
  exact absurd this (by decide)

end Curnel.Syscall
