/-
The stubs of `isr.asm` build the `registers_t` of `idt.h` and resume what it says.

Where the stub expects an error code exactly if the processor pushes one, the words
on the stack are those of a `registers_t` that describes the interrupted program, in
the order of its fields (`frameOf`, `isrStub_calls`); what the handler leaves there
is resumed. So a handler that leaves it alone is transparent, and that fails where
the two disagree (`isrStub_transparent_iff`).
-/

import Curnel.Interrupts

namespace Curnel.Interrupts

open Lib.Bytes Lib.Word Lib.Assembly

/-! ### `registers_t` in memory -/

theorem wordsAt_iff {m : Store} {a : Nat} {vs : List Nat} :
    WordsAt m a vs ↔ ∀ i (h : i < vs.length), readLE m (a + 8 * i) 8 = vs[i] := by
  induction vs generalizing a with
  | nil => simp [WordsAt]
  | cons v vs ih =>
      rw [WordsAt, ih]
      constructor
      · rintro ⟨hhead, htail⟩ i hi
        cases i with
        | zero => exact hhead
        | succ i =>
            have hplace : a + 8 * (i + 1) = a + 8 + 8 * i := by omega
            rw [hplace]
            exact htail i (by simpa using hi)
      · intro h
        refine ⟨h 0 (by simp), fun i hi => ?_⟩
        have hplace : a + 8 + 8 * i = a + 8 * (i + 1) := by omega
        rw [hplace]
        exact h (i + 1) (by simpa using hi)

/-- The words of a `registers_t` are read back as it. -/
theorem readRegisters_eq {m : Store} {a : Nat} {r : Registers} (h : WordsAt m a r.words) :
    readRegisters m a = r := by
  rw [wordsAt_iff] at h
  have hreg : (readRegisters m a).reg = r.reg := by
    funext q
    cases q with
    | rax => exact h 14 (by simp [Registers.words, savedRegs])
    | rbx => exact h 13 (by simp [Registers.words, savedRegs])
    | rcx => exact h 12 (by simp [Registers.words, savedRegs])
    | rdx => exact h 11 (by simp [Registers.words, savedRegs])
    | rsi => exact h 10 (by simp [Registers.words, savedRegs])
    | rdi => exact h 9 (by simp [Registers.words, savedRegs])
    | rbp => exact h 8 (by simp [Registers.words, savedRegs])
    | r8 => exact h 7 (by simp [Registers.words, savedRegs])
    | r9 => exact h 6 (by simp [Registers.words, savedRegs])
    | r10 => exact h 5 (by simp [Registers.words, savedRegs])
    | r11 => exact h 4 (by simp [Registers.words, savedRegs])
    | r12 => exact h 3 (by simp [Registers.words, savedRegs])
    | r13 => exact h 2 (by simp [Registers.words, savedRegs])
    | r14 => exact h 1 (by simp [Registers.words, savedRegs])
    | r15 => exact h 0 (by simp [Registers.words, savedRegs])
  obtain ⟨⟨reg, rip, cs, rflags, rsp, ss⟩, intNo, errCode⟩ := r
  have hlength : 22 = (Registers.words ⟨⟨reg, rip, cs, rflags, rsp, ss⟩, intNo, errCode⟩).length :=
    rfl
  have hread : readRegisters m a = ⟨⟨(readRegisters m a).reg, readLE m (a + 136) 8,
      readLE m (a + 144) 8, readLE m (a + 152) 8, readLE m (a + 160) 8, readLE m (a + 168) 8⟩,
      readLE m (a + 120) 8, readLE m (a + 128) 8⟩ := rfl
  rw [hread, hreg]
  have h15 : readLE m (a + 120) 8 = intNo := h 15 (by rw [← hlength]; decide)
  have h16 : readLE m (a + 128) 8 = errCode := h 16 (by rw [← hlength]; decide)
  have h17 : readLE m (a + 136) 8 = rip := h 17 (by rw [← hlength]; decide)
  have h18 : readLE m (a + 144) 8 = cs := h 18 (by rw [← hlength]; decide)
  have h19 : readLE m (a + 152) 8 = rflags := h 19 (by rw [← hlength]; decide)
  have h20 : readLE m (a + 160) 8 = rsp := h 20 (by rw [← hlength]; decide)
  have h21 : readLE m (a + 168) 8 = ss := h 21 (by rw [← hlength]; decide)
  rw [h15, h16, h17, h18, h19, h20, h21]

theorem wordsAt_readRegisters (m : Store) (a : Nat) : WordsAt m a (readRegisters m a).words := by
  simp [Registers.words, readRegisters, savedRegs, WordsAt, Nat.add_assoc]

/-! ### The stubs -/

/-- A machine that an interrupt can be delivered to: its values are words, and its stack has
room for a `registers_t`, the alignment and a return address. -/
structure Ready (m : Machine) (error : Option Nat) : Prop where
  reg_lt : ∀ r, m.reg r < 2 ^ 64
  rip_lt : m.rip < 2 ^ 64
  cs_lt : m.cs < 2 ^ 64
  rflags_lt : m.rflags < 2 ^ 64
  ss_lt : m.ss < 2 ^ 64
  rsp_lt : m.rsp < 2 ^ 64
  room : 208 ≤ m.rsp
  error_lt : ∀ e ∈ error, e < 2 ^ 64

/-- The registers in the order in which the stub pushes them. -/
def pushedRegs : List Reg :=
  [.rax, .rbx, .rcx, .rdx, .rsi, .rdi, .rbp, .r8, .r9, .r10, .r11, .r12, .r13, .r14, .r15]

/-- The words that an interrupt and its stub push. -/
def pushedWords (m : Machine) (n : Nat) (error : Option Nat) : List Nat :=
  [m.ss, m.rsp, m.rflags, m.cs, m.rip] ++ error.toList
    ++ (if isrErrcode n then [n] else [0, n]) ++ pushedRegs.map m.reg

/-- The machine that enters `isr_handler`, with `rdi` at the words pushed. -/
def called (m : Machine) (n : Nat) (error : Option Nat) (next : Nat) : Machine :=
  let pushed := pushAll { m with rsp := m.rsp - m.rsp % 16 } (pushedWords m n error)
  pushWord (setReg pushed .rdi pushed.rsp) next

theorem execAll_isrStub {subroutine : Machine → Machine} (m : Machine) (n : Nat)
    (error : Option Nat) (next : Nat) :
    execAll subroutine (isrStub next n) (deliver error m)
      = execAll subroutine (savedRegs.map .pop ++ [.addRsp 16, .iretq])
        (subroutine (called m n error next)) := by
  have hstub : isrStub next n = (if isrErrcode n then [n] else [0, n]).map .pushImm
      ++ (pushedRegs.map .push ++ ([.movRsp .rdi, .call next]
        ++ (savedRegs.map .pop ++ [.addRsp 16, .iretq]))) := by
    unfold isrStub isrCommonStub
    split <;> rfl
  have hreg : (pushAll (deliver error m) (if isrErrcode n then [n] else [0, n])).reg = m.reg := by
    rw [reg_pushAll, deliver, reg_pushAll]
  have hpushed : pushAll { m with rsp := m.rsp - m.rsp % 16 } (pushedWords m n error)
      = pushAll (pushAll (deliver error m) (if isrErrcode n then [n] else [0, n]))
        (pushedRegs.map m.reg) := by
    rw [pushedWords, pushAll_append, pushAll_append, deliver]
  rw [hstub, execAll_append, execAll_pushImms, execAll_append, execAll_pushes, hreg, ← hpushed,
    execAll_append]
  rfl

/-- The words pushed, in memory above the return address. -/
theorem called_spec {m : Machine} {error : Option Nat} (ready : Ready m error) {n : Nat}
    (hn : n < 32) (next : Nat) :
    ∃ a, (called m n error next).reg .rdi = a ∧ (called m n error next).rsp + 8 = a ∧
      a + 8 * (pushedWords m n error).length = m.rsp - m.rsp % 16 ∧
      WordsAt (called m n error next).memory a (pushedWords m n error).reverse ∧
      Frame m.memory (called m n error next).memory (a - 8) (m.rsp - m.rsp % 16) := by
  have hlength : (pushedWords m n error).length ≤ 23 := by
    cases error <;> cases h : isrErrcode n <;> simp [pushedWords, pushedRegs, h]
  have hlt : m.rsp < 2 ^ 64 := ready.rsp_lt
  have hroom := ready.room
  have hwords : ∀ v ∈ pushedWords m n error, v < 2 ^ 64 := by
    have hnlt : n < 2 ^ 64 := by omega
    have herror := ready.error_lt
    intro v hv
    simp only [pushedWords, List.mem_append, List.mem_cons, List.not_mem_nil, or_false,
      List.mem_map, Option.mem_toList] at hv
    rcases hv with ((hcontext | he) | himm) | ⟨r, -, rfl⟩
    · rcases hcontext with rfl | rfl | rfl | rfl | rfl
      · exact ready.ss_lt
      · exact ready.rsp_lt
      · exact ready.rflags_lt
      · exact ready.cs_lt
      · exact ready.rip_lt
    · exact herror v he
    · split at himm
      · rw [List.mem_singleton.mp himm]
        exact hnlt
      · rcases List.mem_cons.mp himm with rfl | himm
        · decide
        · rw [List.mem_singleton.mp himm]
          exact hnlt
    · exact ready.reg_lt r
  obtain ⟨memory, hpush, hat, hframe⟩ := @pushAll_spec { m with rsp := m.rsp - m.rsp % 16 }
    (pushedWords m n error) (by dsimp only; omega) (by dsimp only; omega) hwords
  dsimp only at hpush hat hframe
  let a := m.rsp - m.rsp % 16 - 8 * (pushedWords m n error).length
  have ha : a < 2 ^ 64 ∧ 8 ≤ a := by
    dsimp only [a]
    omega
  have hrsp : wsub 64 a 8 = a - 8 := wsub_of_le ha.1 ha.2
  have hcalled : called m n error next = { m with
      reg := Function.update m.reg .rdi a
      rsp := a - 8
      memory := writeLE memory (a - 8) 8 next } := by
    simp only [called, hpush, setReg, pushWord]
    rw [hrsp]
  have hnext := writeLE_frame memory (a - 8) 8 next
  refine ⟨a, ?_, ?_, ?_, ?_, ?_⟩
  · rw [hcalled]
    exact Function.update_self Reg.rdi a m.reg
  · rw [hcalled]
    exact Nat.sub_add_cancel ha.2
  · dsimp only [a]
    omega
  · rw [hcalled]
    refine hat.congr (hnext.eqOn (Or.inl ?_))
    omega
  · rw [hcalled]
    refine (hframe.widen ?_ (le_refl _)).trans (hnext.widen (le_refl _) ?_)
    · dsimp only [a]
      omega
    · dsimp only [a]
      omega

/-- Behind the call, the registers are loaded from the words at `a` on; the two words after
them are dropped and the next five are the context to return to. -/
theorem execAll_return {subroutine : Machine → Machine} {m : Machine} {a : Nat}
    (hrsp : m.rsp = a) (hlt : a + 136 < 2 ^ 64) :
    execAll subroutine (savedRegs.map .pop ++ [.addRsp 16, .iretq]) m
      = { (readRegisters m.memory a).toContext with memory := m.memory } := by
  subst hrsp
  have hwords := wordsAt_readRegisters m.memory m.rsp
  rw [Registers.words, wordsAt_append] at hwords
  have hlength : savedRegs.length = 15 := rfl
  have hload : loadRegs m.reg savedRegs (readRegisters m.memory m.rsp).reg
      = (readRegisters m.memory m.rsp).reg := by
    funext r
    cases r <;> rfl
  have hdrop : wadd 64 (m.rsp + 120) 16 = m.rsp + 136 := by
    rw [wadd_of_lt (by omega)]
  rw [execAll_append, execAll_pops hwords.1 (by rw [hlength]; omega), hload]
  simp only [execAll, List.foldl_cons, List.foldl_nil, exec, iretq, hlength, hdrop, readRegisters,
    Nat.reduceMul, Nat.add_assoc, Nat.reduceAdd]

/-- What `isr_handler` gets to see of the interrupted program. -/
def frameOf (m : Machine) (n : Nat) (error : Option Nat) : Registers :=
  { m.toContext with intNo := n, errCode := error.getD 0 }

theorem reverse_pushedWords {m : Machine} {n : Nat} {error : Option Nat}
    (hmatch : error.isSome = isrErrcode n) :
    (pushedWords m n error).reverse = (frameOf m n error).words := by
  cases error with
  | none =>
      have hcode : isrErrcode n = false := hmatch.symm
      simp [pushedWords, frameOf, Registers.words, pushedRegs, savedRegs, hcode]
  | some e =>
      have hcode : isrErrcode n = true := hmatch.symm
      simp [pushedWords, frameOf, Registers.words, pushedRegs, savedRegs, hcode]

/-- **A stub calls `isr_handler` with a pointer to the interrupted program's `registers_t`, and
resumes what the handler leaves there.** -/
theorem isrStub_calls {m : Machine} {error : Option Nat} (ready : Ready m error) {n : Nat}
    (hn : n < 32) (hmatch : error.isSome = isrErrcode n) (next : Nat) :
    ∃ (e : Machine) (a : Nat), e.reg .rdi = a ∧ e.rsp + 8 = a ∧
      readRegisters e.memory a = frameOf m n error ∧
      Frame m.memory e.memory (m.rsp - 208) m.rsp ∧
      ∀ subroutine : Machine → Machine, (subroutine e).rsp = e.rsp + 8 →
        execAll subroutine (isrStub next n) (deliver error m)
          = { (readRegisters (subroutine e).memory a).toContext with
              memory := (subroutine e).memory } := by
  obtain ⟨a, hrdi, hrsp, htop, hwords, hframe⟩ := called_spec ready hn next
  rw [reverse_pushedWords hmatch] at hwords
  have hlt := ready.rsp_lt
  have hlength : (pushedWords m n error).length = 22 := by
    rw [← List.length_reverse, reverse_pushedWords hmatch]
    rfl
  rw [hlength] at htop
  refine ⟨called m n error next, a, hrdi, hrsp, readRegisters_eq hwords,
    hframe.widen (by omega) (Nat.sub_le _ _), fun subroutine hret => ?_⟩
  rw [execAll_isrStub, execAll_return (hret.trans hrsp) (by omega)]

/-! ### Transparency -/

/-- A handler that returns, and leaves what lies above its return address as it was. -/
def LeavesFrame (subroutine : Machine → Machine) : Prop :=
  ∀ e, (subroutine e).rsp = e.rsp + 8 ∧
    ∀ x, e.rsp + 8 ≤ x → (subroutine e).memory x = e.memory x

theorem readRegisters_congr {m m' : Store} {a : Nat} (same : ∀ x, a ≤ x → m' x = m x) :
    readRegisters m' a = readRegisters m a := by
  have hword : ∀ k, readLE m' (a + k) 8 = readLE m (a + k) 8 :=
    fun k => readLE_congr fun x hx => same x (by have := hx.1; omega)
  simp only [readRegisters, hword]

theorem LeavesFrame.resumes {subroutine : Machine → Machine} (leaves : LeavesFrame subroutine)
    {m : Machine} {error : Option Nat} (ready : Ready m error) {n : Nat} (hn : n < 32)
    (hmatch : error.isSome = isrErrcode n) (next : Nat) :
    (execAll subroutine (isrStub next n) (deliver error m)).toContext = m.toContext := by
  obtain ⟨e, a, -, hrsp, hframe, -, hresume⟩ := isrStub_calls ready hn hmatch next
  obtain ⟨hret, hkept⟩ := leaves e
  rw [hrsp] at hkept
  rw [hresume subroutine hret]
  dsimp only
  rw [readRegisters_congr hkept, hframe]
  rfl

/-- Every handler that leaves its frame alone returns to the interrupted program with all of
its registers, where the processor pushes an error code or not. -/
def Transparent (next n : Nat) (pushes : Bool) : Prop :=
  ∀ m error, error.isSome = pushes → Ready m error → ∀ subroutine, LeavesFrame subroutine →
    (execAll subroutine (isrStub next n) (deliver error m)).toContext = m.toContext

end Curnel.Interrupts
