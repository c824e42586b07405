/-
The line that the shell edits.

`Holds` cuts the string in the buffer at the cursor, and there is one lemma for each handler
that says what it makes of the two parts, and what it writes. A character is typed over what
follows the cursor: `shell_process_input` puts the NUL right behind it. The Enter key cuts
the line at the cursor too, and executes what is left of it.
-/

import Curnel.Shell

namespace Curnel.Shell

open Coreutils Terminal Lib.Word

/-! ### Strings in the buffer -/

theorem cstring_append {str : List UInt8} (hnul : 0 ∉ str) (rest : List UInt8) :
    cstring (str ++ 0 :: rest) = some str := by
  induction str with
  | nil => rfl
  | cons c str ih =>
      have hc : c ≠ 0 := fun heq => hnul (heq ▸ List.mem_cons_self ..)
      rw [List.cons_append, cstring, if_neg hc, ih fun hin => hnul (List.mem_cons_of_mem c hin)]
      rfl

theorem cstring_eq_some_iff {bytes str : List UInt8} :
    cstring bytes = some str ↔ 0 ∉ str ∧ ∃ rest, bytes = str ++ 0 :: rest := by
  constructor
  · intro h
    induction bytes generalizing str with
    | nil => cases h
    | cons c bytes ih =>
        rw [cstring] at h
        split at h
        next hc =>
          cases h
          exact ⟨List.not_mem_nil, bytes, by rw [hc]; rfl⟩
        next hc =>
          obtain ⟨tail, htail, rfl⟩ := Option.map_eq_some_iff.mp h
          obtain ⟨hnul, rest, rfl⟩ := ih htail
          refine ⟨?_, rest, rfl⟩
          rw [List.mem_cons, not_or]
          exact ⟨fun heq => hc heq.symm, hnul⟩
  · rintro ⟨hnul, rest, rfl⟩
    exact cstring_append hnul rest

/-- There is a string where there is a NUL. -/
theorem exists_cstring {bytes : List UInt8} (h : 0 ∈ bytes) : ∃ str, cstring bytes = some str := by
  induction bytes with
  | nil => cases h
  | cons c bytes ih =>
      rw [cstring]
      by_cases hc : c = 0
      · exact ⟨[], if_pos hc⟩
      · obtain ⟨str, hstr⟩ := ih ((List.mem_cons.mp h).resolve_left fun heq => hc heq.symm)
        exact ⟨c :: str, by rw [if_neg hc, hstr]; rfl⟩

namespace Buffer

variable {b : Buffer} {str : List UInt8}

theorem length_lt (h : b.str = some str) : str.length < SHELL_BUFFER_SIZE := by
  obtain ⟨_, rest, hbytes⟩ := cstring_eq_some_iff.mp h
  have hlength := b.length_eq
  rw [hbytes, List.length_append, List.length_cons] at hlength
  omega

theorem noNul (h : b.str = some str) : 0 ∉ str := (cstring_eq_some_iff.mp h).1

theorem copy_eq {chars : List UInt8} (h : chars.length ≤ SHELL_BUFFER_SIZE) :
    ∃ b' : Buffer, b.copy chars = some b' ∧ b'.bytes = chars ++ b.bytes.drop chars.length :=
  ⟨_, dif_pos h, rfl⟩

theorem put_eq {front back : List UInt8} {old : UInt8} (h : b.bytes = front ++ old :: back)
    (c : UInt8) :
    ∃ b' : Buffer, b.put front.length c = some b' ∧ b'.bytes = front ++ c :: back := by
  have hlt : front.length < SHELL_BUFFER_SIZE := by
    have hlength := b.length_eq
    rw [h, List.length_append, List.length_cons] at hlength
    omega
  refine ⟨_, if_pos hlt, ?_⟩
  dsimp only
  rw [h]
  simp

end Buffer

/-! ### The cursor -/

/-- The buffer holds a string, and the cursor is between these two parts of it. -/
structure Holds (s : State) (left right : List UInt8) : Prop where
  str_eq : s.buffer.str = some (left ++ right)
  pos_eq : s.bufferPos = left.length

namespace Holds

variable {s : State} {left right : List UInt8}

theorem noNul (h : Holds s left right) : 0 ∉ left ++ right := Buffer.noNul h.str_eq

theorem length_lt (h : Holds s left right) : left.length + right.length < 256 := by
  have hlt := Buffer.length_lt h.str_eq
  rwa [List.length_append] at hlt

/-- The bytes of the buffer. -/
theorem bytes_eq (h : Holds s left right) :
    ∃ rest, s.buffer.bytes = left ++ (right ++ 0 :: rest) := by
  obtain ⟨_, rest, hbytes⟩ := cstring_eq_some_iff.mp h.str_eq
  exact ⟨rest, by rw [hbytes, List.append_assoc]⟩

/-- The bytes from the cursor on: at least one. -/
theorem bytes_cons (h : Holds s left right) :
    ∃ old back, s.buffer.bytes = left ++ old :: back := by
  obtain ⟨rest, hbytes⟩ := h.bytes_eq
  cases right with
  | nil => exact ⟨0, rest, hbytes⟩
  | cons c right => exact ⟨c, right ++ 0 :: rest, hbytes⟩

/-- The cursor behind a character that has been typed. -/
theorem typed {buffer : Buffer} {c : UInt8} (hstr : buffer.str = some (left ++ [c]))
    (chars : List UInt8) :
    Holds { s.write chars with buffer := buffer, bufferPos := left.length + 1 } (left ++ [c]) [] :=
  ⟨by rw [List.append_nil]; exact hstr, by simp⟩

/-- The cursor one character back. -/
theorem back {c : UInt8} (h : Holds s (left ++ [c]) right) (chars : List UInt8) :
    Holds { s.write chars with bufferPos := left.length } left (c :: right) := by
  have hstr := h.str_eq
  rw [List.append_assoc] at hstr
  exact ⟨hstr, rfl⟩

/-- The cursor one character on. -/
theorem forth {c : UInt8} (h : Holds s left (c :: right)) (chars : List UInt8) :
    Holds { s.write chars with bufferPos := left.length + 1 } (left ++ [c]) right := by
  refine ⟨?_, by simp⟩
  rw [List.append_assoc]
  exact h.str_eq

theorem pos_ne_zero {c : UInt8} (h : Holds s (left ++ [c]) right) : s.bufferPos ≠ 0 := by
  simp [h.pos_eq]

end Holds

theorem holds_started (env : Env) (terminal : Terminal.State) :
    Holds (started env terminal) [] [] := ⟨rfl, rfl⟩

@[simp] theorem write_nil (s : State) : s.write [] = s := rfl

/-! ### What the keys do -/

section Keys

variable {s : State} {left right : List UInt8} {c : UInt8}

/-- A character replaces all that follows the cursor. -/
theorem shellProcessInput_eq (h : Holds s left right) (hc : c ≠ 0) (hroom : left.length < 255) :
    ∃ buffer : Buffer, buffer.str = some (left ++ [c]) ∧
      shellProcessInput c s
        = some { s.write (right ++ [c]) with buffer := buffer, bufferPos := left.length + 1 } := by
  obtain ⟨old, back, hbytes⟩ := h.bytes_cons
  obtain ⟨first, hfirst, hfirstBytes⟩ := Buffer.put_eq hbytes c
  have hback : back ≠ [] := by
    rintro rfl
    have hlength := s.buffer.length_eq
    rw [hbytes, List.length_append, List.length_singleton, SHELL_BUFFER_SIZE] at hlength
    omega
  obtain ⟨next, back, rfl⟩ := List.exists_cons_of_ne_nil hback
  have hcut : first.bytes = (left ++ [c]) ++ next :: back := by simp [hfirstBytes]
  obtain ⟨second, hsecond, hsecondBytes⟩ := Buffer.put_eq hcut 0
  have hnul : 0 ∉ left ++ [c] := by
    have hleft : 0 ∉ left := fun hin => h.noNul (List.mem_append_left right hin)
    simp [hleft, hc.symm]
  have hstr : second.str = some (left ++ [c]) := by
    rw [Buffer.str, hsecondBytes]
    exact cstring_append hnul back
  have hpos : s.bufferPos < SHELL_BUFFER_SIZE - 1 := by
    rw [h.pos_eq]
    exact hroom
  rw [List.length_append, List.length_singleton] at hsecond
  refine ⟨second, hstr, ?_⟩
  rw [shellProcessInput, if_pos hpos]
  simp [h.str_eq, h.pos_eq, State.write, hfirst, hsecond, hstr, terminalWrite_append]

/-- A line of 255 characters takes no more at its end. -/
theorem shellProcessInput_full (h : Holds s left right) (hfull : ¬ left.length < 255) (c : UInt8) :
    shellProcessInput c s = some s := by
  rw [shellProcessInput, if_neg]
  rw [h.pos_eq]
  exact hfull

theorem shellHandleLeftArrow_eq (h : Holds s (left ++ [c]) right) :
    shellHandleLeftArrow s = { s.write [8] with bufferPos := left.length } := by
  have hpos : s.bufferPos = left.length + 1 := by simp [h.pos_eq]
  rw [shellHandleLeftArrow, hpos, if_pos (Nat.succ_pos _)]
  rfl

theorem shellHandleLeftArrow_start (h : Holds s [] right) : shellHandleLeftArrow s = s := by
  rw [shellHandleLeftArrow, h.pos_eq, if_neg (by simp)]

theorem shellHandleRightArrow_eq (h : Holds s left (c :: right)) :
    shellHandleRightArrow s = some { s.write [c] with bufferPos := left.length + 1 } := by
  obtain ⟨rest, hbytes⟩ := h.bytes_eq
  have hbyte : s.buffer.bytes[left.length]? = some c := by simp [hbytes]
  simp [shellHandleRightArrow, h.str_eq, h.pos_eq, hbyte]

theorem shellHandleRightArrow_end (h : Holds s left []) : shellHandleRightArrow s = some s := by
  simp [shellHandleRightArrow, h.str_eq, h.pos_eq]

/-- The loop moves the characters behind `c` over it; the last of them is there twice. -/
theorem shiftLeft_eq {rest : List UInt8} {fuel : Nat}
    (hbytes : s.buffer.bytes = left ++ c :: (right ++ 0 :: rest))
    (hnul : 0 ∉ left ++ c :: right) (hfuel : right.length < fuel) :
    ∃ (buffer : Buffer) (last : UInt8), 0 ∉ left ++ right ++ [last] ∧
      buffer.bytes = left ++ right ++ last :: 0 :: rest ∧
      shiftLeft fuel left.length s = some { s.write right with buffer := buffer } := by
  induction right generalizing s left c fuel with
  | nil =>
      obtain ⟨fuel, rfl⟩ := Nat.exists_eq_add_of_lt hfuel
      have hstr : s.buffer.str = some (left ++ [c]) := by
        rw [Buffer.str, hbytes]
        have happend := cstring_append hnul rest
        simpa using happend
      have hlength := Buffer.length_lt hstr
      rw [List.length_append, List.length_singleton, SHELL_BUFFER_SIZE] at hlength
      have hend : ¬ left.length < wsub 64 (left.length + 1) 1 := by
        rw [wsub_of_le (by omega) (by omega)]
        omega
      refine ⟨s.buffer, c, by simpa using hnul, by simp [hbytes], ?_⟩
      simp [shiftLeft, hstr, hend]
  | cons d right ih =>
      obtain ⟨fuel, rfl⟩ := Nat.exists_eq_add_of_lt (Nat.lt_of_le_of_lt (Nat.zero_le _) hfuel)
      rw [Nat.zero_add] at hfuel ⊢
      have hstr : s.buffer.str = some (left ++ c :: d :: right) := by
        rw [Buffer.str, hbytes]
        have happend := cstring_append hnul rest
        simpa using happend
      have hlength := Buffer.length_lt hstr
      simp only [List.length_append, List.length_cons, SHELL_BUFFER_SIZE] at hlength
      have hgo : left.length < wsub 64 (left.length + (right.length + 1 + 1)) 1 := by
        rw [wsub_of_le (by omega) (by omega)]
        omega
      have hbyte : s.buffer.bytes[left.length + 1]? = some d := by simp [hbytes]
      obtain ⟨moved, hput, hmoved⟩ := Buffer.put_eq hbytes d
      have hcut : ({ s with buffer := moved }.write [d]).buffer.bytes
          = (left ++ [d]) ++ d :: (right ++ 0 :: rest) := by
        simp [State.write, hmoved]
      have hnul' : 0 ∉ (left ++ [d]) ++ d :: right := by
        simp only [List.mem_append, List.mem_cons, not_or] at hnul ⊢
        simp [hnul]
      obtain ⟨buffer, last, hlast, hbuffer, hshift⟩ :=
        ih hcut hnul' (Nat.lt_of_succ_lt_succ hfuel)
      refine ⟨buffer, last, by simpa using hlast, by simpa using hbuffer, ?_⟩
      rw [List.length_append, List.length_singleton] at hshift
      simpa [shiftLeft, hstr, hgo, hbyte, hput, State.write] using hshift

/-- Backspace takes away the character before the cursor. -/
theorem shellHandleBackspace_eq (h : Holds s (left ++ [c]) right) :
    ∃ buffer : Buffer, buffer.str = some (left ++ right) ∧
      shellHandleBackspace s
        = some { s.write ([8] ++ right ++ [32] ++ List.replicate right.length 8 ++ [8]) with
            buffer := buffer, bufferPos := left.length } := by
  obtain ⟨rest, hbytes⟩ := h.bytes_eq
  have hpos : s.bufferPos = left.length + 1 := by simp [h.pos_eq]
  have hnul := h.noNul
  rw [List.append_assoc] at hnul hbytes
  have hroom := h.length_lt
  rw [List.length_append, List.length_singleton] at hroom
  have hcut : (s.write [8]).buffer.bytes = left ++ c :: (right ++ 0 :: rest) := hbytes
  have hfuel : right.length < SHELL_BUFFER_SIZE + 1 := by
    rw [SHELL_BUFFER_SIZE]
    omega
  obtain ⟨shifted, last, hlast, hshifted, hshift⟩ := shiftLeft_eq hcut hnul hfuel
  have hstr : shifted.str = some (left ++ right ++ [last]) := by
    rw [Buffer.str, hshifted]
    have happend := cstring_append hlast rest
    simpa using happend
  have hend : wsub 64 (left.length + (right.length + 1)) 1 = (left ++ right).length := by
    rw [wsub_of_le (by omega) (by omega), List.length_append]
    omega
  obtain ⟨buffer, hput, hbuffer⟩ := Buffer.put_eq hshifted 0
  have hnul' : 0 ∉ left ++ right := fun hin => hlast (List.mem_append_left _ hin)
  refine ⟨buffer, ?_, ?_⟩
  · rw [Buffer.str, hbuffer]
    exact cstring_append hnul' _
  · rw [List.length_append] at hend hput
    have hdown : left.length + (right.length + 1) - (left.length + 1) = right.length := by omega
    rw [shellHandleBackspace, hpos, if_pos (Nat.succ_pos _), Nat.add_sub_cancel, hshift]
    simp [hpos, hstr, hend, hput, hdown, State.write, terminalWrite_append]

theorem shellHandleBackspace_start (h : Holds s [] right) : shellHandleBackspace s = some s := by
  rw [shellHandleBackspace, h.pos_eq, if_neg (by simp)]

end Keys

/-! ### The prompt -/

theorem shellPrintPrompt_eq (env : Env) (s : State) :
    ∃ terminal, shellPrintPrompt env s = { s with cwd := env.cwd, terminal := terminal } := by
  simp only [shellPrintPrompt, State.setColor, State.write]
  exact ⟨_, rfl⟩

theorem redrawLine_eq (env : Env) (s : State) :
    ∃ terminal, redrawLine env s = { s with cwd := env.cwd, terminal := terminal } := by
  simp only [redrawLine, shellPrintPrompt, State.setColor, State.write]
  exact ⟨_, rfl⟩

/-! ### Commands -/

section Commands

variable {s t : State} {left right : List UInt8}

/-- The commands change no more of the shell than the buffer and its state. -/
theorem runCommand_eq (env : Env) {command : List UInt8} (hstr : s.buffer.str = some command) :
    ∃ buffer terminal state, runCommand env command s
      = some { s with buffer := buffer, terminal := terminal, state := state,
                      executed := s.executed ++ [command] } := by
  obtain ⟨_, rest, hbytes⟩ := cstring_eq_some_iff.mp hstr
  have hlength := Buffer.length_lt hstr
  have hline := length_executeCommand env.func command s.terminal
  obtain ⟨buffer, hcopy, hbuffer⟩ := Buffer.copy_eq (b := s.buffer)
    (show (executeCommand env.func command s.terminal).2.1.length ≤ SHELL_BUFFER_SIZE by omega)
  have hnul : 0 ∈ buffer.bytes := by
    rw [hbuffer, hline, hbytes, List.drop_left]
    simp
  obtain ⟨str, hstr'⟩ := exists_cstring hnul
  have hstr' : buffer.str = some str := hstr'
  unfold runCommand
  rcases hrun : executeCommand env.func command s.terminal with ⟨result, line, terminal⟩
  rw [hrun] at hcopy
  by_cases hresult : result = -1
  · by_cases hexit : str = text "exit"
    · exact ⟨buffer, _, .exit, by simp [hcopy, hstr', hresult, hexit, State.write]; rfl⟩
    · exact ⟨buffer, _, s.state, by simp [hcopy, hstr', hresult, hexit, State.write]; rfl⟩
  · by_cases hexit : str = text "exit"
    · exact ⟨buffer, terminal, .exit, by simp [hcopy, hstr', hresult, hexit]⟩
    · exact ⟨buffer, terminal, s.state, by simp [hcopy, hstr', hresult, hexit]⟩

/-- The history is all that `shell_add_to_history` changes. -/
theorem shellAddToHistory_frame {granted : Bool} {command : List UInt8}
    (h : shellAddToHistory granted command s = some t) :
    t = { s with history := t.history, historyCount := t.historyCount } := by
  unfold shellAddToHistory at h
  split at h
  · cases h
    rfl
  · obtain ⟨same, _, h⟩ := Option.bind_eq_some_iff.mp h
    split at h
    · cases h
      rfl
    · cases h
      dsimp only
      split <;> rfl

/-- The Enter key cuts the line at the cursor. What is left goes into the history, and is
executed; then the next line begins. -/
theorem handleKey_enter (env : Env) (h : Holds s left right) :
    ∃ buffer : Buffer, buffer.str = some left ∧
      handleKey env .enter s
        = if left = [] then some (nextLine env { s.write [10] with buffer := buffer })
          else
            ((shellAddToHistory env.granted left { s.write [10] with buffer := buffer }).bind
              (runCommand env left)).map (nextLine env) := by
  obtain ⟨old, back, hbytes⟩ := h.bytes_cons
  obtain ⟨buffer, hput, hbuffer⟩ := Buffer.put_eq hbytes 0
  have hstr : buffer.str = some left := by
    rw [Buffer.str, hbuffer]
    exact cstring_append (fun hin => h.noNul (List.mem_append_left right hin)) back
  refine ⟨buffer, hstr, ?_⟩
  have hput' : (s.write [10]).buffer.put (s.write [10]).bufferPos 0 = some buffer := by
    rw [← hput, ← h.pos_eq]
    rfl
  have hempty : (s.write [10]).bufferPos = 0 ↔ left = [] := by
    rw [← List.length_eq_zero_iff, ← h.pos_eq]
    rfl
  rw [handleKey, shellExecuteCommand, hput']
  simp only [Option.bind_eq_bind, Option.bind_some, hempty, hstr]
  split <;> rfl

end Commands

end Curnel.Shell
