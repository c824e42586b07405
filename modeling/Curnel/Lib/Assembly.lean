/-
Straight-line code on a machine with a stack of 64-bit words.

The stack grows downwards: `pushWord` and `popWord` move the stack pointer by the
eight bytes of a word. `WordsAt m a vs` says that the words `vs` lie one after
another from the address `a` on. Pushes leave their words on the stack with the
last one first (`pushAll_spec`), pops load them back in order (`execAll_pops`). A
subroutine is any function on machines; it is entered with its return address on
the stack.
-/

import Curnel.Lib.Bytes
import Curnel.Lib.Word

namespace Lib.Assembly

open Lib.Bytes Lib.Word

/-- The general registers but the stack pointer. -/
inductive Reg where
  | rax | rbx | rcx | rdx | rsi | rdi | rbp
  | r8 | r9 | r10 | r11 | r12 | r13 | r14 | r15
deriving DecidableEq, Repr

/-- What an interrupted program needs back. -/
structure Context where
  reg : Reg → Nat
  rip : Nat
  cs : Nat
  rflags : Nat
  rsp : Nat
  ss : Nat

structure Machine extends Context where
  memory : Store

inductive Instruction where
  | push (r : Reg)
  | pushImm (v : Nat)
  | pop (r : Reg)
  | mov (dst src : Reg)
  | movRsp (dst : Reg)
  | addRsp (n : Nat)
  | call (next : Nat)
  | iretq
deriving DecidableEq, Repr

def pushWord (m : Machine) (v : Nat) : Machine :=
  { m with rsp := wsub 64 m.rsp 8, memory := writeLE m.memory (wsub 64 m.rsp 8) 8 v }

/-- The word on top of the stack. -/
def topWord (m : Machine) : Nat := readLE m.memory m.rsp 8

def dropWord (m : Machine) : Machine := { m with rsp := wadd 64 m.rsp 8 }

def setReg (m : Machine) (r : Reg) (v : Nat) : Machine :=
  { m with reg := Function.update m.reg r v }

/-- The return from an interrupt: the next five words are `rip`, `cs`, `rflags`, `rsp`
and `ss`. -/
def iretq (m : Machine) : Machine :=
  { m with
    rip := readLE m.memory m.rsp 8
    cs := readLE m.memory (m.rsp + 8) 8
    rflags := readLE m.memory (m.rsp + 16) 8
    rsp := readLE m.memory (m.rsp + 24) 8
    ss := readLE m.memory (m.rsp + 32) 8 }

/-- One instruction; `subroutine` is what a call enters, its return included. -/
def exec (subroutine : Machine → Machine) : Instruction → Machine → Machine
  | .push r, m => pushWord m (m.reg r)
  | .pushImm v, m => pushWord m v
  | .pop r, m => dropWord (setReg m r (topWord m))
  | .mov dst src, m => setReg m dst (m.reg src)
  | .movRsp dst, m => setReg m dst m.rsp
  | .addRsp n, m => { m with rsp := wadd 64 m.rsp n }
  | .call next, m => subroutine (pushWord m next)
  | .iretq, m => iretq m

def execAll (subroutine : Machine → Machine) (code : List Instruction) (m : Machine) : Machine :=
  code.foldl (fun m i => exec subroutine i m) m

def pushAll (m : Machine) (vs : List Nat) : Machine := vs.foldl pushWord m

/-- An interrupt in 64-bit mode: the stack is aligned to 16 bytes, and the context is pushed,
with an error code behind it where the interrupt has one. -/
def deliver (error : Option Nat) (m : Machine) : Machine :=
  pushAll { m with rsp := m.rsp - m.rsp % 16 }
    ([m.ss, m.rsp, m.rflags, m.cs, m.rip] ++ error.toList)

/-! ### Words in memory -/

/-- The words `vs` lie one after another from `a` on. -/
def WordsAt (m : Store) : Nat → List Nat → Prop
  | _, [] => True
  | a, v :: vs => readLE m a 8 = v ∧ WordsAt m (a + 8) vs

section Words

variable {m m' : Store} {a : Nat} {vs ws : List Nat}

theorem WordsAt.congr (h : WordsAt m a vs)
    (same : Set.EqOn m m' (Set.Ico a (a + 8 * vs.length))) : WordsAt m' a vs := by
  induction vs generalizing a with
  | nil => trivial
  | cons v vs ih =>
      rw [List.length_cons] at same
      refine ⟨?_, ih h.2 fun x hx => same ⟨?_, ?_⟩⟩
      · rw [← h.1]
        refine (readLE_congr fun x hx => same ⟨hx.1, ?_⟩).symm
        have := hx.2
        omega
      · have := hx.1
        omega
      · have := hx.2
        omega

theorem wordsAt_append :
    WordsAt m a (vs ++ ws) ↔ WordsAt m a vs ∧ WordsAt m (a + 8 * vs.length) ws := by
  induction vs generalizing a with
  | nil => simp [WordsAt]
  | cons v vs ih =>
      have hplace : a + 8 + 8 * vs.length = a + 8 * (v :: vs).length := by
        rw [List.length_cons]
        omega
      rw [List.cons_append, WordsAt, WordsAt, ih, hplace, and_assoc]

end Words

/-! ### Pushes -/

section Pushes

variable {m : Machine} {subroutine : Machine → Machine}

/-- The words pushed last come first; nothing above the stack changes. -/
theorem pushAll_spec {vs : List Nat} (hroom : 8 * vs.length ≤ m.rsp) (hlt : m.rsp < 2 ^ 64)
    (hvs : ∀ v ∈ vs, v < 2 ^ 64) :
    ∃ memory, pushAll m vs = { m with rsp := m.rsp - 8 * vs.length, memory := memory } ∧
      WordsAt memory (m.rsp - 8 * vs.length) vs.reverse ∧
      Frame m.memory memory (m.rsp - 8 * vs.length) m.rsp := by
  induction vs generalizing m with
  | nil => exact ⟨m.memory, rfl, trivial, Frame.refl _ _ _⟩
  | cons v vs ih =>
      rw [List.length_cons] at hroom ⊢
      have hrsp : wsub 64 m.rsp 8 = m.rsp - 8 := wsub_of_le hlt (by omega)
      have hplace : m.rsp - 8 - 8 * vs.length = m.rsp - 8 * (vs.length + 1) := by omega
      have hframe := writeLE_frame m.memory (m.rsp - 8) 8 v
      obtain ⟨memory, hpush, hwords, hrest⟩ := @ih (pushWord m v)
        (by simp only [pushWord, hrsp]; omega) (by simp only [pushWord, hrsp]; omega)
        fun w hw => hvs w (List.mem_cons_of_mem v hw)
      simp only [pushWord, hrsp, hplace] at hpush hwords hrest
      refine ⟨memory, ?_, ?_, ?_⟩
      · rw [pushAll, List.foldl_cons]
        simp only [pushWord, hrsp]
        exact hpush
      · rw [List.reverse_cons, wordsAt_append, List.length_reverse]
        refine ⟨hwords, ?_, trivial⟩
        have htop : m.rsp - 8 * (vs.length + 1) + 8 * vs.length = m.rsp - 8 := by omega
        rw [htop, hrest.readLE_eq (Or.inl (le_refl _)), readLE_writeLE_same]
        exact Nat.mod_eq_of_lt (hvs v (List.mem_cons_self ..))
      · exact (hframe.widen (by omega) (by omega)).trans (hrest.widen (le_refl _) (by omega))

theorem pushAll_append (m : Machine) (vs ws : List Nat) :
    pushAll m (vs ++ ws) = pushAll (pushAll m vs) ws :=
  List.foldl_append

@[simp] theorem reg_pushAll (m : Machine) (vs : List Nat) : (pushAll m vs).reg = m.reg := by
  induction vs generalizing m with
  | nil => rfl
  | cons v vs ih => exact ih (pushWord m v)

theorem execAll_append (first second : List Instruction) (m : Machine) :
    execAll subroutine (first ++ second) m
      = execAll subroutine second (execAll subroutine first m) :=
  List.foldl_append

theorem execAll_pushes (rs : List Reg) (m : Machine) :
    execAll subroutine (rs.map .push) m = pushAll m (rs.map m.reg) := by
  induction rs generalizing m with
  | nil => rfl
  | cons r rs ih => exact ih (pushWord m (m.reg r))

theorem execAll_pushImms (vs : List Nat) (m : Machine) :
    execAll subroutine (vs.map .pushImm) m = pushAll m vs := by
  induction vs generalizing m with
  | nil => rfl
  | cons v vs ih => exact ih (pushWord m v)

end Pushes

/-! ### Pops -/

/-- The registers `rs` loaded from `f`. -/
def loadRegs (reg : Reg → Nat) (rs : List Reg) (f : Reg → Nat) : Reg → Nat :=
  fun r => if r ∈ rs then f r else reg r

/-- Pops load the registers with the words from the top of the stack on. -/
theorem execAll_pops {subroutine : Machine → Machine} {m : Machine} {rs : List Reg}
    {f : Reg → Nat} (hwords : WordsAt m.memory m.rsp (rs.map f))
    (hlt : m.rsp + 8 * rs.length < 2 ^ 64) :
    execAll subroutine (rs.map .pop) m
      = { m with rsp := m.rsp + 8 * rs.length, reg := loadRegs m.reg rs f } := by
  induction rs generalizing m with
  | nil =>
      have hload : loadRegs m.reg [] f = m.reg := by
        funext r
        simp [loadRegs]
      simp [execAll, hload]
  | cons r rs ih =>
      rw [List.length_cons] at hlt
      have hrsp : wadd 64 m.rsp 8 = m.rsp + 8 := wadd_of_lt (by omega)
      have hstep : exec subroutine (.pop r) m
          = { m with rsp := m.rsp + 8, reg := Function.update m.reg r (f r) } := by
        simp only [exec, dropWord, setReg, topWord, hrsp, hwords.1]
      rw [List.map_cons, execAll, List.foldl_cons, hstep, ← execAll,
        ih hwords.2 (by dsimp only; omega)]
      have hplace : m.rsp + 8 + 8 * rs.length = m.rsp + 8 * (r :: rs).length := by
        rw [List.length_cons]
        omega
      have hload : loadRegs (Function.update m.reg r (f r)) rs f = loadRegs m.reg (r :: rs) f := by
        funext q
        by_cases hq : q = r
        · subst hq
          simp [loadRegs]
        · simp [loadRegs, hq]
      rw [hplace, hload]

end Lib.Assembly
