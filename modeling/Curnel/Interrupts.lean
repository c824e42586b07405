/-
The interrupt path: `idt.c`, `idt.h` and `isr.asm`.

An interrupt goes through the gate of its vector to a stub of `isr.asm`. The stub
pushes what the processor did not, saves the registers and calls `isr_handler` with
a pointer to all of it, the `registers_t` of `idt.h`; behind the call the registers
are loaded again from there. `interrupt` is the whole of it on the machine of
`Lib.Assembly`.
-/

import Curnel.Lib.Assembly
import Curnel.Coreutils
import Curnel.Numerals

namespace Curnel.Interrupts

open Lib.Bytes Lib.Word Lib.Assembly Curnel.Coreutils

/-! ### `registers_t` -/

/-- The registers at the start of `registers_t`, in its order. -/
def savedRegs : List Reg :=
  [.r15, .r14, .r13, .r12, .r11, .r10, .r9, .r8, .rbp, .rdi, .rsi, .rdx, .rcx, .rbx, .rax]

/-- `registers_t`. -/
structure Registers extends Context where
  intNo : Nat
  errCode : Nat

/-- The words of a `registers_t`. -/
def Registers.words (r : Registers) : List Nat :=
  savedRegs.map r.reg ++ [r.intNo, r.errCode, r.rip, r.cs, r.rflags, r.rsp, r.ss]

/-- The `registers_t` at `a`. -/
def readRegisters (m : Store) (a : Nat) : Registers where
  reg r := readLE m (a + 8 * savedRegs.idxOf r) 8
  intNo := readLE m (a + 120) 8
  errCode := readLE m (a + 128) 8
  rip := readLE m (a + 136) 8
  cs := readLE m (a + 144) 8
  rflags := readLE m (a + 152) 8
  rsp := readLE m (a + 160) 8
  ss := readLE m (a + 168) 8

/-! ### `isr.asm` -/

/-- The vectors whose stub is an `ISR_ERRCODE`: it pushes no error code of its own. -/
def isrErrcode (n : Nat) : Bool := [8, 10, 11, 12, 13, 14, 17].contains n

/-- `isr_common_stub`; `next` is the address behind its call. -/
def isrCommonStub (next : Nat) : List Instruction :=
  [.rax, .rbx, .rcx, .rdx, .rsi, .rdi, .rbp, .r8, .r9, .r10, .r11, .r12, .r13, .r14, .r15].map .push
    ++ [.movRsp .rdi, .call next]
    ++ [.r15, .r14, .r13, .r12, .r11, .r10, .r9, .r8, .rbp, .rdi, .rsi, .rdx, .rcx, .rbx,
      .rax].map .pop
    ++ [.addRsp 16, .iretq]

/-- The stub `isr0` to `isr31`, up to its `iretq`. -/
def isrStub (next n : Nat) : List Instruction :=
  (if isrErrcode n then [.pushImm n] else [.pushImm 0, .pushImm n]) ++ isrCommonStub next

/-! ### `idt.c` -/

/-- `idt_entry_t`. -/
structure IdtEntry where
  baseLow : Nat
  selector : Nat
  always0 : Nat
  flags : Nat
  baseMiddle : Nat
  baseHigh : Nat
  reserved : Nat
deriving DecidableEq, Repr

def IdtEntry.zeroed : IdtEntry := ⟨0, 0, 0, 0, 0, 0, 0⟩

/-- The static variables of `idt.c`. A handler is a function pointer; 0 is none. -/
structure State where
  idtEntries : Nat → IdtEntry
  idtLimit : Nat
  interruptHandlers : Nat → Nat

/-- What `isr_handler` writes for a vector without a handler; its buffer holds two
digits and a NUL. -/
def unhandled (intNo : Nat) : List UInt8 :=
  [0x49, 0xC5, 0x9F] ++ text "lenmeyen kesme: "
    ++ (readBytes (Numerals.idtIntToString (toInt32 intNo) fun _ => 0) 0 3).takeWhile (· ≠ 0)
    ++ [10]

/-- `isr_handler`, on the `registers_t` that it gets and the rest of the kernel: `functions`
is what the handlers do, `write` is `terminal_writestring`. -/
def isrHandler {κ : Type} (s : State) (functions : Nat → Registers × κ → Registers × κ)
    (write : List UInt8 → κ → κ) (call : Registers × κ) : Registers × κ :=
  if s.interruptHandlers call.1.intNo ≠ 0 then functions (s.interruptHandlers call.1.intNo) call
  else (call.1, write (unhandled call.1.intNo) call.2)

/-! ### An interrupt -/

/-- The present bit of a gate, and the address that the processor makes of its parts. -/
def IdtEntry.present (e : IdtEntry) : Bool := e.flags / 2 ^ 7 % 2 = 1

def IdtEntry.target (e : IdtEntry) : Nat :=
  e.baseLow + e.baseMiddle * 2 ^ 16 + e.baseHigh * 2 ^ 32

/-- The interrupt `v`: the code that its gate leads to, up to the return; nothing where the
gate lies past the limit or is not present. -/
def interrupt (s : State) (code : Nat → List Instruction) (subroutine : Machine → Machine)
    (v : Nat) (error : Option Nat) (m : Machine) : Option Machine :=
  if 16 * v + 15 ≤ s.idtLimit ∧ (s.idtEntries v).present then
    some (execAll subroutine (code (s.idtEntries v).target) (deliver error m))
  else none

end Curnel.Interrupts
