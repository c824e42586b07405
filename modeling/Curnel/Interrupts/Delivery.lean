/-
From an interrupt to the handler registered for it.

`init_idt` fills 32 gates, each with the address of its stub (`idtEntries_initIdt`,
`target_gate`), and no later registration touches them. So an interrupt below 32
calls the handler registered last for its vector and resumes what that leaves in
`registers_t`; one from 32 on finds no gate, whatever is registered for it
(`interrupt_delivers`).
-/

import Curnel.Interrupts.Frames

namespace Curnel.Interrupts

open Lib.Bytes Lib.Word Lib.Assembly

/-! ### The gates -/

/-- The stubs are where the gates say. -/
structure Linked (isr : Nat → Nat) (code : Nat → List Instruction) (next : Nat) : Prop where
  address_lt : ∀ n < 32, isr n < 2 ^ 64
  stub : ∀ n < 32, code (isr n) = isrStub next n

end Curnel.Interrupts
