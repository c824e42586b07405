/-
The line on the screen.

`Shows` says that the terminal's row holds the prompt and the string in the buffer, and that
its column is where the cursor of the shell is. Characters typed at the end of the line keep
it so. But shell.c moves back with `'\b'` and goes to the start of the row with `'\r'`, and
`terminal_putchar` draws both and moves on: every key that needs one of them leaves the row
and the column wrong. `screen_iff` says that these keys are all that goes wrong.
-/

import Curnel.Shell.Editing
import Curnel.Lib.Run

namespace Curnel.Shell

open Coreutils Terminal Lib Lib.Word

/-! ### What the row should show -/

def State.prompt (s : State) : List UInt8 := s.cwd ++ text " $ "

/-- A row that shows these characters and blanks. -/
def padded (chars : List UInt8) : List UInt8 :=
  chars ++ List.replicate (VGA_WIDTH - chars.length) 32

/-- The row holds the prompt and the string in the buffer, and the column is at the cursor. -/
structure Shows (s : State) : Prop where
  row_eq : ∃ str, s.buffer.str = some str ∧ shown s.terminal = padded (s.prompt ++ str)
  column_eq : s.terminal.column = s.prompt.length + s.bufferPos

/-- The prompt and the string leave a place for the cursor on the row. -/
def Fits (s : State) : Prop :=
  ∀ str, s.buffer.str = some str → (s.prompt ++ str).length < VGA_WIDTH

/-- The keys that edit a line: they type, take a character away or move the cursor. -/
def Key.Edits : Key → Prop
  | .ascii _ | .tab | .backspace | .arrowLeft | .arrowRight | .arrowUp | .arrowDown => True
  | .enter | .escape | .ctrlC | .ctrlD => False

/-- A key that edits the line, and leaves it short enough for the row. -/
def LineStep (s : State) (event : Event) (t : State) : Prop :=
  Step s event t ∧ event.key.Edits ∧ Fits t

/-- No newline is typed, and the keys that go back have nowhere to go. -/
def StaysForward (s : State) (event : Event) : Prop :=
  match event.key with
  | .ascii c => c ≠ 10
  | .backspace | .arrowLeft => s.bufferPos = 0
  | .arrowUp => upIndex s = none
  | .arrowDown => s.historyCount = 0 ∨ s.historyIndex = -1
  | _ => True

/-! ### The keys -/

section Keys

variable {s t : State} {env : Env} {left right : List UInt8} {c : UInt8}

theorem padded_set {chars : List UInt8} (hroom : chars.length < VGA_WIDTH) (c : UInt8) :
    (padded chars).set chars.length c = padded (chars ++ [c]) := by
  obtain ⟨blanks, hblanks⟩ := Nat.exists_eq_add_of_lt hroom
  have hleft : VGA_WIDTH - chars.length = blanks + 1 := by omega
  have hless : VGA_WIDTH - (chars ++ [c]).length = blanks := by
    rw [List.length_append, List.length_singleton]
    omega
  rw [padded, padded, hleft, hless, List.replicate_succ]
  simp

theorem column_write (s : State) (chars : List UInt8) :
    (s.write chars).terminal.column = columnAfter chars s.terminal.column :=
  column_terminalWrite chars s.terminal

theorem Shows.row (h : Shows s) (hholds : Holds s left right) :
    shown s.terminal = padded (s.prompt ++ (left ++ right)) := by
  obtain ⟨str, hstr, hrow⟩ := h.row_eq
  rw [hholds.str_eq] at hstr
  cases hstr
  exact hrow

theorem Fits.length_lt (h : Fits s) (hholds : Holds s left right) :
    s.prompt.length + (left.length + right.length) < 80 := by
  have hlt := h _ hholds.str_eq
  rwa [List.length_append, List.length_append] at hlt

/-- The column of a cursor that is on the row. -/
theorem Shows.column (h : Shows s) (hholds : Holds s left right) :
    s.terminal.column = s.prompt.length + left.length := by
  rw [h.column_eq, hholds.pos_eq]

/-- A character typed at the end of the line is shown there, unless it leaves the line. -/
theorem shows_type_iff (h : Shows s) (hholds : Holds s left []) (hc : c ≠ 0)
    (hroom : s.prompt.length + left.length + 1 < 80) {buffer : Buffer}
    (hstr : buffer.str = some (left ++ [c])) :
    Shows { s.write [c] with buffer := buffer, bufferPos := left.length + 1 } ↔ c ≠ 10 := by
  have hcolumn := h.column hholds
  constructor
  · rintro shows rfl
    have hnext : columnAfter [10] s.terminal.column = s.prompt.length + (left.length + 1) :=
      (column_write s [10]).symm.trans shows.column_eq
    have hstart : columnAfter [10] s.terminal.column = 0 := rfl
    omega
  · intro hline
    have hwidth : s.terminal.column + 1 < VGA_WIDTH := by
      rw [hcolumn, VGA_WIDTH]
      exact hroom
    refine ⟨⟨left ++ [c], hstr, ?_⟩, ?_⟩
    · calc
        shown (s.write [c]).terminal = (shown s.terminal).set s.terminal.column c :=
          shown_terminalPutchar hline hwidth
        _ = (padded (s.prompt ++ left)).set (s.prompt ++ left).length c := by
          rw [h.row hholds, hcolumn, List.append_nil, List.length_append]
        _ = padded (s.prompt ++ left ++ [c]) := padded_set (by
          rw [List.length_append, VGA_WIDTH]
          omega) c
        _ = padded (s.prompt ++ (left ++ [c])) := by rw [List.append_assoc]
    · have hline' : (10 : UInt8) ∉ [c] := by simp [Ne.symm hline]
      have hnext : (s.write [c]).terminal.column = (s.terminal.column + 1) % VGA_WIDTH := by
        rw [column_write, columnAfter_of_not_mem hline' (by omega)]
        rfl
      rw [Nat.mod_eq_of_lt hwidth, hcolumn] at hnext
      exact hnext

/-- What is written on the line moves the column on, and it should be at the cursor then. -/
theorem Shows.column_written (h : Shows s) (hholds : Holds s left right) (hfits : Fits s)
    {chars : List UInt8} (hline : 10 ∉ chars) {buffer : Buffer} {pos : Nat}
    (shows : Shows { s.write chars with buffer := buffer, bufferPos := pos }) :
    (s.prompt.length + left.length + chars.length) % 80 = s.prompt.length + pos := by
  have hcolumn := h.column hholds
  have hlt := hfits.length_lt hholds
  have hwidth : s.terminal.column < VGA_WIDTH := by
    rw [hcolumn, VGA_WIDTH]
    omega
  have hnext : (s.write chars).terminal.column = s.prompt.length + pos := shows.column_eq
  rw [column_write, columnAfter_of_not_mem hline hwidth, hcolumn] at hnext
  exact hnext

/-- The left arrow moves the column to the right. -/
theorem not_shows_left (h : Shows s) (hholds : Holds s (left ++ [c]) right) (hfits : Fits s) :
    ¬ Shows (shellHandleLeftArrow s) := by
  rw [shellHandleLeftArrow_eq hholds]
  intro shows
  have hlt := hfits.length_lt hholds
  have hwritten := h.column_written hholds hfits (by decide) shows
  simp only [List.length_append, List.length_singleton] at hlt hwritten
  omega

/-- Backspace at the end of the line moves the column on by three. -/
theorem not_shows_backspace (h : Shows s) (hholds : Holds s (left ++ [c]) []) (hfits : Fits s)
    (hkey : shellHandleBackspace s = some t) : ¬ Shows t := by
  obtain ⟨buffer, _, hback⟩ := shellHandleBackspace_eq hholds
  rw [hback] at hkey
  cases hkey
  intro shows
  have hlt := hfits.length_lt hholds
  have hwritten := h.column_written hholds hfits (by decide) shows
  simp only [List.length_append, List.length_singleton, List.length_nil, List.length_replicate]
    at hlt hwritten
  omega

/-! ### The line drawn anew -/

theorem column_redrawLine (env : Env) (s : State) :
    (redrawLine env s).terminal.column
      = columnAfter ([13] ++ List.replicate (s.bufferPos + s.cwd.length + 4) 32 ++ [13]
          ++ (env.cwd ++ text " $ ")) s.terminal.column := by
  simp only [redrawLine, shellPrintPrompt, State.setColor, State.write, terminalSetcolor,
    column_terminalWrite, columnAfter_append]

/-- Where the column ends up behind a line that fits, it has been at the start of a row
before it. -/
theorem columnAfter_home {before line : List UInt8} (hbefore : 10 ∉ before) {column : Nat}
    (hcolumn : column < VGA_WIDTH)
    (hend : columnAfter (before ++ line) column = line.length) :
    (column + before.length) % VGA_WIDTH = 0 := by
  rw [columnAfter_append, columnAfter_of_not_mem hbefore hcolumn] at hend
  have hlt : (column + before.length) % VGA_WIDTH < VGA_WIDTH := Nat.mod_lt _ (by decide)
  have hin : 10 ∉ line := by
    intro hin
    have hless := columnAfter_of_mem hin ((column + before.length) % VGA_WIDTH)
    omega
  rw [columnAfter_of_not_mem hin hlt] at hend
  rw [VGA_WIDTH] at hend ⊢
  omega

/-- A line drawn anew is not where it should be: the two `'\r'` are drawn too, and so the new
prompt is an odd number of cells from the start of the old one. -/
theorem not_shows_redrawn (h : Shows s) (hholds : Holds s left right) (hfits : Fits s)
    {str : List UInt8} (hpos : t.bufferPos = str.length) (hcwd : t.cwd = env.cwd)
    (hcolumn : t.terminal.column = columnAfter str (redrawLine env s).terminal.column) :
    ¬ Shows t := by
  intro shows
  have hprompt : t.prompt = env.cwd ++ text " $ " := by rw [State.prompt, hcwd]
  have hend := shows.column_eq
  rw [hcolumn, column_redrawLine, ← columnAfter_append, List.append_assoc, ← hprompt, hpos,
    ← List.length_append] at hend
  have hold := h.column hholds
  have hlt := hfits.length_lt hholds
  have hwidth : s.terminal.column < VGA_WIDTH := by
    rw [hold, VGA_WIDTH]
    omega
  have hbefore : (10 : UInt8) ∉
      [13] ++ List.replicate (s.bufferPos + s.cwd.length + 4) 32 ++ [13] := by
    simp
  have hhome := columnAfter_home hbefore hwidth hend
  have hlength : s.prompt.length = s.cwd.length + 3 := by
    rw [State.prompt, List.length_append]
    rfl
  rw [hold, hlength, hholds.pos_eq, VGA_WIDTH] at hhome
  simp only [List.length_append, List.length_singleton, List.length_replicate] at hhome
  omega

theorem not_shows_load (h : Shows s) (hholds : Holds s left right) (hfits : Fits s) {index : Int}
    (hload : loadHistory env index s = some t) : ¬ Shows t := by
  obtain ⟨command, _, hload⟩ := Option.bind_eq_some_iff.mp hload
  obtain ⟨buffer, _, hload⟩ := Option.bind_eq_some_iff.mp hload
  obtain ⟨str, _, hload⟩ := Option.bind_eq_some_iff.mp hload
  cases hload
  exact not_shows_redrawn h hholds hfits rfl rfl (column_write _ str)

/-! ### Editing a line -/

/-- The shell after a key at the end of a line that is shown: it is shown again exactly when
the key stays forward, and then the cursor is at the end again. -/
structure Follows (s : State) (event : Event) (t : State) : Prop where
  shows_iff : Shows t ↔ StaysForward s event
  atEnd : StaysForward s event → ∃ left, Holds t left []

theorem Follows.same {event : Event} (h : Shows s) (hholds : Holds s left [])
    (hstays : StaysForward s event) : Follows s event s :=
  ⟨iff_of_true h hstays, fun _ => ⟨left, hholds⟩⟩

theorem Follows.wrong {event : Event} (hwrong : ¬ Shows t) (hstays : ¬ StaysForward s event) :
    Follows s event t :=
  ⟨iff_of_false hwrong hstays, fun hin => absurd hin hstays⟩

theorem follows_typed (h : Shows s) (hholds : Holds s left []) (hfits : Fits s) (hc : c ≠ 0)
    (hkey : shellProcessInput c s = some t) (hfits' : Fits t) :
    (Shows t ↔ c ≠ 10) ∧ ∃ left', Holds t left' [] := by
  have hlt := hfits.length_lt hholds
  have hroom : left.length < 255 := by omega
  obtain ⟨buffer, hstr, htyped⟩ := shellProcessInput_eq hholds hc hroom
  rw [htyped] at hkey
  cases hkey
  have hnext : Holds { s.write ([] ++ [c]) with buffer := buffer, bufferPos := left.length + 1 }
      (left ++ [c]) [] := .typed hstr _
  have hlt' := hfits'.length_lt hnext
  rw [List.length_append, List.length_singleton, List.length_nil] at hlt'
  have hprompt : s.prompt.length + left.length + 1 < 80 := by
    rw [Nat.add_assoc]
    exact hlt'
  exact ⟨shows_type_iff h hholds hc hprompt hstr, left ++ [c], hnext⟩

theorem follows_backspace (h : Shows s) (hholds : Holds s left []) (hfits : Fits s)
    (hkey : shellHandleBackspace s = some t) : Follows s ⟨env, .backspace⟩ t := by
  rcases List.eq_nil_or_concat left with rfl | ⟨left, c, rfl⟩
  · rw [shellHandleBackspace_start hholds] at hkey
    cases hkey
    exact .same h hholds hholds.pos_eq
  · rw [List.concat_eq_append] at hholds
    exact .wrong (not_shows_backspace h hholds hfits hkey) hholds.pos_ne_zero

theorem follows_left (h : Shows s) (hholds : Holds s left []) (hfits : Fits s) :
    Follows s ⟨env, .arrowLeft⟩ (shellHandleLeftArrow s) := by
  rcases List.eq_nil_or_concat left with rfl | ⟨left, c, rfl⟩
  · rw [shellHandleLeftArrow_start hholds]
    exact .same h hholds hholds.pos_eq
  · rw [List.concat_eq_append] at hholds
    exact .wrong (not_shows_left h hholds hfits) hholds.pos_ne_zero

theorem follows_up (h : Shows s) (hholds : Holds s left []) (hfits : Fits s)
    (hkey : shellHandleUpArrow env s = some t) : Follows s ⟨env, .arrowUp⟩ t := by
  rw [shellHandleUpArrow] at hkey
  split at hkey
  next index hindex =>
    have hgoes : upIndex s ≠ none := by simp [hindex]
    exact .wrong (not_shows_load h hholds hfits hkey) hgoes
  next hindex =>
    cases hkey
    exact .same h hholds hindex

theorem follows_down (h : Shows s) (hholds : Holds s left []) (hfits : Fits s)
    (hkey : shellHandleDownArrow env s = some t) : Follows s ⟨env, .arrowDown⟩ t := by
  rw [shellHandleDownArrow] at hkey
  split at hkey
  next hidle =>
    cases hkey
    exact .same h hholds hidle
  next hgoes =>
    split at hkey
    next index _ => exact .wrong (not_shows_load h hholds hfits hkey) hgoes
    next _ =>
      cases hkey
      have hindexed : Shows { s with historyIndex := -1 } := ⟨h.row_eq, h.column_eq⟩
      have hsame : Holds { s with historyIndex := -1 } left [] := ⟨hholds.str_eq, hholds.pos_eq⟩
      have hstart : (shellClearBuffer (redrawLine env { s with historyIndex := -1 })).bufferPos
          = ([] : List UInt8).length := rfl
      exact .wrong (not_shows_redrawn hindexed hsame hfits hstart rfl rfl) hgoes

theorem follows_key {event : Event} (h : Shows s) (hholds : Holds s left []) (hfits : Fits s)
    (hstep : LineStep s event t) : Follows s event t := by
  obtain ⟨env, key⟩ := event
  obtain ⟨⟨_, hkey⟩, hedits, hfits'⟩ := hstep
  dsimp only at hkey hedits
  unfold handleKey at hkey
  cases key with
  | ascii c =>
      dsimp only at hkey
      split at hkey
      next hc =>
        obtain ⟨hshows, hend⟩ := follows_typed h hholds hfits hc hkey hfits'
        exact ⟨hshows, fun _ => hend⟩
      next hc =>
        cases hkey
        cases not_not.mp hc
        exact .same h hholds (show (0 : UInt8) ≠ 10 by decide)
  | tab =>
      obtain ⟨hshows, hend⟩ := follows_typed h hholds hfits (by decide) hkey hfits'
      exact ⟨iff_of_true (hshows.mpr (by decide)) trivial, fun _ => hend⟩
  | backspace => exact follows_backspace h hholds hfits hkey
  | arrowLeft =>
      cases hkey
      exact follows_left h hholds hfits
  | arrowRight =>
      dsimp only at hkey
      rw [shellHandleRightArrow_end hholds] at hkey
      cases hkey
      exact .same h hholds trivial
  | arrowUp => exact follows_up h hholds hfits hkey
  | arrowDown => exact follows_down h hholds hfits hkey
  | enter => exact hedits.elim
  | escape => exact hedits.elim
  | ctrlC => exact hedits.elim
  | ctrlD => exact hedits.elim

/-- On a line that fits, the row shows the prompt and the buffer and the column is at the
cursor after each key exactly when no key types a newline, and the keys that go back are
pressed only where they have nowhere to go. -/
theorem screen_iff (s : State) (hshows : Shows s) (hempty : Holds s [] []) (hfits : Fits s)
    (events : List Event) (t : State) :
    Run (fun s event t => LineStep s event t ∧ Shows t) s events t ↔
      Run (fun s event t => LineStep s event t ∧ StaysForward s event) s events t := by
  have hfollows : ∀ {s : State} {event : Event} {t : State},
      (Shows s ∧ Fits s ∧ ∃ left, Holds s left []) → LineStep s event t → Follows s event t := by
    rintro s event t ⟨hshows, hfits, left, hholds⟩ hstep
    exact follows_key hshows hholds hfits hstep
  refine run_good_iff (J := fun _ => True)
    (I := fun s => Shows s ∧ Fits s ∧ ∃ left, Holds s left [])
    (fun _ _ => trivial) ?_ ?_ trivial ⟨hshows, hfits, [], hempty⟩
  · intro s event t _ hline hstep
    exact (hfollows hline hstep).shows_iff
  · intro s event t _ hline hstep hstays
    have hnext := hfollows hline hstep
    exact ⟨hnext.shows_iff.mpr hstays, hstep.2.2, hnext.atEnd hstays⟩

/-- There is room for a character more. -/
theorem lineStep_type (hrunning : s.state = .running) (hholds : Holds s left []) (hc : c ≠ 0)
    (hroom : s.prompt.length + left.length + 1 < 80) :
    ∃ buffer : Buffer, buffer.str = some (left ++ [c]) ∧
      LineStep s ⟨env, .ascii c⟩
        { s.write [c] with buffer := buffer, bufferPos := left.length + 1 } := by
  obtain ⟨buffer, hstr, htyped⟩ := shellProcessInput_eq hholds hc (by omega)
  refine ⟨buffer, hstr, ⟨hrunning, (if_pos hc).trans htyped⟩, trivial, ?_⟩
  intro str hsame
  cases hstr.symm.trans hsame
  show (s.prompt ++ (left ++ [c])).length < VGA_WIDTH
  rw [List.length_append, List.length_append, List.length_singleton, VGA_WIDTH]
  omega

theorem shows_started : Shows (started plainEnv ⟨0, 0, 7, fun _ => 0⟩) :=
  ⟨⟨[], rfl, by decide +kernel⟩, by decide +kernel⟩

theorem fits_started : Fits (started plainEnv ⟨0, 0, 7, fun _ => 0⟩) := by
  intro str hstr
  cases hstr
  decide

/-- A character is typed in the shell that `shell_init` leaves. -/
theorem lineStep_started :
    ∃ buffer : Buffer, buffer.str = some [97] ∧
      LineStep (started plainEnv ⟨0, 0, 7, fun _ => 0⟩) ⟨plainEnv, .ascii 97⟩
        { (started plainEnv ⟨0, 0, 7, fun _ => 0⟩).write [97] with
          buffer := buffer, bufferPos := 1 } :=
  lineStep_type rfl (holds_started _ _) (by decide) (by decide)

/-- This character keeps the line shown. -/
theorem screen_iff_started :
    ∃ t, Run (fun s event t => LineStep s event t ∧ Shows t)
      (started plainEnv ⟨0, 0, 7, fun _ => 0⟩) [⟨plainEnv, .ascii 97⟩] t := by
  obtain ⟨buffer, _, hstep⟩ := lineStep_started
  have hstays : StaysForward (started plainEnv ⟨0, 0, 7, fun _ => 0⟩) ⟨plainEnv, .ascii 97⟩ :=
    show 97 ≠ 10 by decide
  exact ⟨_, (screen_iff _ shows_started (holds_started _ _) fits_started _ _).mpr
    (.single ⟨hstep, hstays⟩)⟩

/-- The cursor goes back over the only character of the line, and the column goes on. -/
theorem left_goes_right :
    Shows (started plainEnv ⟨0, 0, 7, fun _ => 0⟩) ∧
      ∃ t, Run LineStep (started plainEnv ⟨0, 0, 7, fun _ => 0⟩)
          [⟨plainEnv, .ascii 97⟩, ⟨plainEnv, .arrowLeft⟩] t ∧
        t.prompt.length = 3 ∧ t.bufferPos = 0 ∧ t.terminal.column = 5 ∧ ¬ Shows t := by
  refine ⟨shows_started, ?_⟩
  have hprompt : (started plainEnv ⟨0, 0, 7, fun _ => 0⟩).prompt.length = 3 := rfl
  have hcolumn : (started plainEnv ⟨0, 0, 7, fun _ => 0⟩).terminal.column = 3 := by
    decide +kernel
  have hrunning : (started plainEnv ⟨0, 0, 7, fun _ => 0⟩).state = .running := rfl
  obtain ⟨buffer, hstr, htype⟩ := lineStep_started
  generalize started plainEnv ⟨0, 0, 7, fun _ => 0⟩ = s at hprompt hcolumn hrunning htype ⊢
  generalize ht : ({ s.write [97] with buffer := buffer, bufferPos := 1 } : State) = t at htype
  have hholds : Holds t ([] ++ [97]) [] := ht ▸ ⟨hstr, rfl⟩
  have hback := shellHandleLeftArrow_eq hholds
  have hmoved : (shellHandleLeftArrow t).terminal.column = 5 := by
    rw [hback]
    show (t.write [8]).terminal.column = 5
    rw [column_write, ← ht]
    show columnAfter [8] (s.write [97]).terminal.column = 5
    rw [column_write, hcolumn]
    rfl
  have hsame : (shellHandleLeftArrow t).prompt.length = 3 := by
    rw [hback, ← hprompt, ← ht]
    rfl
  have hstart : (shellHandleLeftArrow t).bufferPos = 0 := by
    rw [hback]
    rfl
  have hnot : ¬ Shows (shellHandleLeftArrow t) := by
    intro shows
    have hends := shows.column_eq
    omega
  refine ⟨_, .cons htype (.single ⟨⟨?_, rfl⟩, trivial, ?_⟩), hsame, hstart, hmoved, hnot⟩
  · rw [← ht]
    exact hrunning
  · rw [hback]
    exact htype.2.2

end Keys

end Curnel.Shell
