/-
The shell's buffer against an ideal line.

An ideal line editor keeps what is left of the cursor and what is right of it, and takes a
character at the cursor. The shell moves its cursor into the line, but it loses what is
right of it when a character is typed there, and does not execute it when the line is
entered. `editor_iff` says that these two keys are all that goes wrong.
-/

import Curnel.Shell.Editing
import Curnel.Lib.Run

namespace Curnel.Shell

open Lib

/-! ### The ideal line -/

/-- The line on both sides of the cursor, and the lines executed so far. -/
structure Line where
  left : List UInt8
  right : List UInt8
  executed : List (List UInt8)

/-- The keys of the editor. -/
inductive Edit where
  | type (c : UInt8) (hc : c ≠ 0)
  | backspace
  | left
  | right
  | enter

def Edit.key : Edit → Key
  | .type c _ => .ascii c
  | .backspace => .backspace
  | .left => .arrowLeft
  | .right => .arrowRight
  | .enter => .enter

/-- An empty line is not executed. -/
def Line.edit (l : Line) : Edit → Line
  | .type c _ =>
      if l.left.length + l.right.length < SHELL_BUFFER_SIZE - 1 then
        { l with left := l.left ++ [c] }
      else l
  | .backspace => { l with left := l.left.dropLast }
  | .left =>
      match l.left.getLast? with
      | some c => { l with left := l.left.dropLast, right := c :: l.right }
      | none => l
  | .right =>
      match l.right with
      | c :: right => { l with left := l.left ++ [c], right := right }
      | [] => l
  | .enter =>
      { left := []
        right := []
        executed :=
          if l.left ++ l.right = [] then l.executed else l.executed ++ [l.left ++ l.right] }

/-! ### The shell beside it -/

/-- The shell, and the line that it should hold. -/
structure Editor where
  shell : State
  line : Line

/-- A key of the editor, and what the shell finds outside when it is pressed. -/
structure Press where
  env : Env
  edit : Edit

/-- Both take the key. -/
def EditStep (a : Editor) (press : Press) (b : Editor) : Prop :=
  Step a.shell ⟨press.env, press.edit.key⟩ b.shell ∧ b.line = a.line.edit press.edit

/-- The buffer and the cursor are those of the line, and the same lines have been executed. -/
structure Refines (a : Editor) : Prop where
  holds : Holds a.shell a.line.left a.line.right
  executed_eq : a.shell.executed = a.line.executed

/-- The cursor is at the end of the string. -/
def AtEnd (s : State) : Prop := ∀ str, s.buffer.str = some str → s.bufferPos = str.length

/-- Characters are typed, and lines are entered, at the end only. -/
def EditsAtEnd (a : Editor) (press : Press) : Prop :=
  match press.edit with
  | .type _ _ => AtEnd a.shell
  | .enter => AtEnd a.shell
  | _ => True

/-- With an empty buffer. -/
def emptyLine (s : State) : Editor := ⟨s, [], [], s.executed⟩

section Steps

variable {s t : State} {env : Env} {l : Line} {left right : List UInt8} {c : UInt8}

theorem Holds.atEnd_iff (h : Holds s left right) : AtEnd s ↔ right = [] := by
  constructor
  · intro hend
    have hpos := hend _ h.str_eq
    rw [h.pos_eq, List.length_append] at hpos
    exact List.length_eq_zero_iff.mp (by omega)
  · rintro rfl str hstr
    rw [h.str_eq, List.append_nil] at hstr
    cases hstr
    exact h.pos_eq

/-- The buffer and the cursor determine the line. -/
theorem Holds.unique {left' right' : List UInt8} (h : Holds s left right)
    (h' : Holds s left' right') : left = left' ∧ right = right' := by
  have hstr := h.str_eq.symm.trans h'.str_eq
  have hpos := h.pos_eq.symm.trans h'.pos_eq
  exact List.append_inj (Option.some.inj hstr) hpos

/-- Typing keeps to the line exactly at its end. -/
theorem refines_type_iff (h : Refines ⟨s, l⟩) (hc : c ≠ 0)
    (hkey : handleKey env (.ascii c) s = some t) :
    Refines ⟨t, l.edit (.type c hc)⟩ ↔ AtEnd s := by
  have hholds : Holds s l.left l.right := h.holds
  have hlength := hholds.length_lt
  rw [hholds.atEnd_iff]
  rw [handleKey, if_pos hc] at hkey
  by_cases hroom : l.left.length < 255
  · obtain ⟨buffer, hstr, htyped⟩ := shellProcessInput_eq hholds hc hroom
    rw [htyped] at hkey
    cases hkey
    have hover : Holds { s.write (l.right ++ [c]) with
        buffer := buffer, bufferPos := l.left.length + 1 } (l.left ++ [c]) [] := .typed hstr _
    constructor
    · intro refines
      have hsame := hover.unique refines.holds
      rw [Line.edit] at hsame
      split at hsame
      · exact hsame.2.symm
      · exact absurd hsame.1 (by simp)
    · intro hend
      rw [hend, List.length_nil, Nat.add_zero] at hlength
      have hedit : l.edit (.type c hc) = { l with left := l.left ++ [c] } := by
        rw [Line.edit, if_pos]
        rw [hend]
        exact hroom
      rw [hedit]
      refine ⟨?_, h.executed_eq⟩
      dsimp only
      rw [hend] at hover ⊢
      exact hover
  · have hend : l.right = [] := List.length_eq_zero_iff.mp (by omega)
    rw [shellProcessInput_full hholds hroom] at hkey
    cases hkey
    have hedit : l.edit (.type c hc) = l := by
      rw [Line.edit, if_neg]
      rw [hend]
      exact hroom
    rw [hedit]
    exact iff_of_true h hend

/-- After the Enter key the buffer is empty, and what was left of the cursor is executed. -/
theorem enter_holds (h : Holds s left right) (hkey : handleKey env .enter s = some t) :
    Holds t [] [] ∧
      t.executed = if left = [] then s.executed else s.executed ++ [left] := by
  have hnext : ∀ u : State,
      Holds (nextLine env u) [] [] ∧ (nextLine env u).executed = u.executed := by
    intro u
    unfold nextLine
    dsimp only
    split <;> exact ⟨⟨rfl, rfl⟩, rfl⟩
  obtain ⟨buffer, hstr, henter⟩ := handleKey_enter env h
  rw [henter] at hkey
  split at hkey
  next hleft =>
    cases hkey
    rw [if_pos hleft]
    exact hnext _
  next hleft =>
    obtain ⟨u, hu, rfl⟩ := Option.map_eq_some_iff.mp hkey
    obtain ⟨v, hv, hrun⟩ := Option.bind_eq_some_iff.mp hu
    have hframe := shellAddToHistory_frame hv
    have hvstr : v.buffer.str = some left := by
      rw [hframe]
      exact hstr
    obtain ⟨_, _, _, hcommand⟩ := runCommand_eq env hvstr
    rw [hcommand] at hrun
    cases hrun
    rw [if_neg hleft]
    obtain ⟨hempty, hexecuted⟩ := hnext _
    refine ⟨hempty, hexecuted.trans ?_⟩
    dsimp only
    rw [hframe]
    rfl

/-- Entering a line keeps to it exactly at its end. -/
theorem refines_enter_iff (h : Refines ⟨s, l⟩) (hkey : handleKey env .enter s = some t) :
    Refines ⟨t, l.edit .enter⟩ ↔ AtEnd s := by
  have hholds : Holds s l.left l.right := h.holds
  have hlines : s.executed = l.executed := h.executed_eq
  obtain ⟨hempty, hexecuted⟩ := enter_holds hholds hkey
  rw [hholds.atEnd_iff]
  have hiff : Refines ⟨t, l.edit .enter⟩ ↔ t.executed = (l.edit .enter).executed :=
    ⟨fun refines => refines.executed_eq, fun heq => ⟨hempty, heq⟩⟩
  rw [hiff, hexecuted, hlines, Line.edit]
  by_cases hleft : l.left = []
  · by_cases hright : l.right = []
    · simp [hleft, hright]
    · simp [hleft, hright]
  · simp [hleft]

theorem refines_backspace (h : Refines ⟨s, l⟩) (hkey : handleKey env .backspace s = some t) :
    Refines ⟨t, l.edit .backspace⟩ := by
  obtain ⟨left, right, executed⟩ := l
  have hholds : Holds s left right := h.holds
  rw [handleKey] at hkey
  rcases List.eq_nil_or_concat left with rfl | ⟨left, c, rfl⟩
  · rw [shellHandleBackspace_start hholds] at hkey
    cases hkey
    exact h
  · rw [List.concat_eq_append] at hholds h ⊢
    obtain ⟨buffer, hstr, hback⟩ := shellHandleBackspace_eq hholds
    rw [hback] at hkey
    cases hkey
    rw [Line.edit]
    dsimp only
    rw [List.dropLast_concat]
    exact ⟨⟨hstr, rfl⟩, h.executed_eq⟩

theorem refines_left (h : Refines ⟨s, l⟩) (hkey : handleKey env .arrowLeft s = some t) :
    Refines ⟨t, l.edit .left⟩ := by
  obtain ⟨left, right, executed⟩ := l
  have hholds : Holds s left right := h.holds
  rw [handleKey, Option.some.injEq] at hkey
  subst hkey
  rcases List.eq_nil_or_concat left with rfl | ⟨left, c, rfl⟩
  · rw [shellHandleLeftArrow_start hholds]
    exact h
  · rw [List.concat_eq_append] at hholds h ⊢
    rw [shellHandleLeftArrow_eq hholds]
    simp only [Line.edit, List.getLast?_concat, List.dropLast_concat]
    exact ⟨hholds.back [8], h.executed_eq⟩

theorem refines_right (h : Refines ⟨s, l⟩) (hkey : handleKey env .arrowRight s = some t) :
    Refines ⟨t, l.edit .right⟩ := by
  obtain ⟨left, right, executed⟩ := l
  have hholds : Holds s left right := h.holds
  rw [handleKey] at hkey
  cases right with
  | nil =>
      rw [shellHandleRightArrow_end hholds] at hkey
      cases hkey
      exact h
  | cons c right =>
      rw [shellHandleRightArrow_eq hholds] at hkey
      cases hkey
      exact ⟨hholds.forth [c], h.executed_eq⟩

/-- From an empty buffer, the shell keeps to the ideal line through all keys of a run exactly
when no step of it types a character, or enters the line, before the end of the line. -/
theorem editor_iff (s : State) (hempty : Holds s [] []) (presses : List Press) (b : Editor) :
    Run (fun a press b => EditStep a press b ∧ Refines b) (emptyLine s) presses b ↔
      Run (fun a press b => EditStep a press b ∧ EditsAtEnd a press) (emptyLine s) presses b := by
  refine run_guarded_iff (J := fun _ => True) (fun _ _ => trivial) ?_ trivial ⟨hempty, rfl⟩
  rintro ⟨s, l⟩ ⟨env, edit⟩ ⟨t, l'⟩ _ h ⟨⟨_, hkey⟩, hline⟩
  dsimp only at hkey hline
  subst hline
  cases edit with
  | type c hc => exact refines_type_iff h hc hkey
  | backspace => exact iff_of_true (refines_backspace h hkey) trivial
  | left => exact iff_of_true (refines_left h hkey) trivial
  | right => exact iff_of_true (refines_right h hkey) trivial
  | enter => exact refines_enter_iff h hkey

theorem types (hrunning : s.state = .running) (h : Holds s left right) (hc : c ≠ 0)
    (hroom : left.length < 255) :
    ∃ t, Step s ⟨env, .ascii c⟩ t ∧ Holds t (left ++ [c]) [] ∧ t.state = .running := by
  obtain ⟨buffer, hstr, htyped⟩ := shellProcessInput_eq h hc hroom
  exact ⟨_, ⟨hrunning, (if_pos hc).trans htyped⟩, .typed hstr _, hrunning⟩

theorem goes_left (hrunning : s.state = .running) (h : Holds s (left ++ [c]) right) :
    ∃ t, Step s ⟨env, .arrowLeft⟩ t ∧ Holds t left (c :: right) ∧ t.state = .running := by
  exact ⟨_, ⟨hrunning, congrArg some (shellHandleLeftArrow_eq h)⟩, h.back [8], hrunning⟩

/-- A character is typed in the shell that `shell_init` leaves. -/
theorem editor_iff_started :
    ∃ b, Run (fun a press b => EditStep a press b ∧ Refines b)
      (emptyLine (started plainEnv ⟨0, 0, 7, fun _ => 0⟩)) [⟨plainEnv, .type 97 (by decide)⟩] b := by
  generalize hs : started plainEnv ⟨0, 0, 7, fun _ => 0⟩ = s
  have hempty : Holds s [] [] := hs ▸ holds_started _ _
  have hrunning : s.state = .running := hs ▸ rfl
  obtain ⟨t, htype, _⟩ := types hrunning hempty (show 97 ≠ 0 by decide) (by decide)
  have hstep : EditStep (emptyLine s) ⟨plainEnv, .type 97 (by decide)⟩ ⟨t, [97], [], s.executed⟩ :=
    ⟨htype, rfl⟩
  exact ⟨_, (editor_iff s hempty _ _).mpr (.single ⟨hstep, hempty.atEnd_iff.mpr rfl⟩)⟩

/-- b is typed in front of a, and replaces it. -/
theorem types_over :
    ∃ b, Run EditStep (emptyLine (started plainEnv ⟨0, 0, 7, fun _ => 0⟩))
        [⟨plainEnv, .type 97 (by decide)⟩, ⟨plainEnv, .left⟩, ⟨plainEnv, .type 98 (by decide)⟩] b ∧
      b.line.left ++ b.line.right = [98, 97] ∧ b.shell.buffer.str = some [98] ∧ ¬ Refines b := by
  generalize hs : started plainEnv ⟨0, 0, 7, fun _ => 0⟩ = s
  have hempty : Holds s [] [] := hs ▸ holds_started _ _
  have hrunning : s.state = .running := hs ▸ rfl
  obtain ⟨t, htype, ht, hrunning⟩ := types hrunning hempty (show 97 ≠ 0 by decide) (by decide)
  obtain ⟨u, hleft, hu, hrunning⟩ := goes_left hrunning ht
  obtain ⟨v, hover, hv, _⟩ := types hrunning hu (show 98 ≠ 0 by decide) (by decide)
  refine ⟨⟨v, [98], [97], s.executed⟩, ?_, rfl, hv.str_eq, ?_⟩
  · have hfirst : EditStep (emptyLine s) ⟨plainEnv, .type 97 (by decide)⟩
        ⟨t, [97], [], s.executed⟩ := ⟨htype, rfl⟩
    have hsecond : EditStep ⟨t, [97], [], s.executed⟩ ⟨plainEnv, .left⟩
        ⟨u, [], [97], s.executed⟩ := ⟨hleft, rfl⟩
    exact .cons hfirst (.cons hsecond (.single ⟨hover, rfl⟩))
  · intro refines
    have hsame : ([] : List UInt8) = [97] := (hv.unique refines.holds).2
    cases hsame

end Steps

end Curnel.Shell
