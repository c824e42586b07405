/-
The bounds of the shell's buffers.

`Bounded` says that the buffer holds a string with the cursor in it, that the history holds
at most ten commands that fit the buffer, and that the history index is one of theirs or
-1; after `shell_init` it is 0 instead, but then the history is empty. Every key keeps it,
and finds all that it reads and writes inside of the buffer.
-/

import Curnel.Lib.Run
import Curnel.Shell.History

namespace Curnel.Shell

open Coreutils Terminal Lib

/-- The commands of the history: each is a string that fits the buffer. -/
structure Kept (s : State) (commands : List (List UInt8)) : Prop where
  stored : Stored s commands
  length_le : commands.length ≤ 10
  fits : ∀ command ∈ commands, 0 ∉ command ∧ command.length ≤ 255

structure Bounded (s : State) : Prop where
  line : ∃ left right, Holds s left right
  history : ∃ commands, Kept s commands
  index_ge : -1 ≤ s.historyIndex
  index_lt : s.historyCount = 0 ∨ s.historyIndex < s.historyCount

section Keys

variable {s t : State} {commands : List (List UInt8)} {left right : List UInt8}

theorem Kept.congr (h : Kept s commands) (hhistory : t.history = s.history)
    (hcount : t.historyCount = s.historyCount) : Kept t commands := by
  refine ⟨⟨?_, ?_⟩, h.length_le, h.fits⟩
  · rw [hcount]
    exact h.stored.count_eq
  · rw [hhistory]
    exact h.stored.entry_eq

/-- A command more in the history. -/
theorem Kept.add (h : Kept s commands) {command : List UInt8} (hnul : 0 ∉ command)
    (hlength : command.length ≤ 255) :
    ∃ t commands', shellAddToHistory true command s = some t ∧ Kept t commands' := by
  obtain ⟨t, hadd, ht⟩ := shellAddToHistory_stored h.stored command
  refine ⟨t, _, hadd, ht, ?_, ?_⟩
  · have hten := h.length_le
    unfold remember
    split
    · exact hten
    · rw [List.length_append, List.length_singleton]
      split
      · rw [List.length_tail]
        omega
      · omega
  · intro other hin
    unfold remember at hin
    split at hin
    · exact h.fits other hin
    · rcases List.mem_append.mp hin with hold | hnew
      · split at hold
        · exact h.fits other (List.mem_of_mem_tail hold)
        · exact h.fits other hold
      · rw [List.mem_singleton.mp hnew]
        exact ⟨hnul, hlength⟩

namespace Bounded

/-- The line changes, and the history does not. -/
theorem edited (h : Bounded s) (line : ∃ left right, Holds t left right)
    (hhistory : t.history = s.history) (hcount : t.historyCount = s.historyCount)
    (hindex : t.historyIndex = s.historyIndex) : Bounded t := by
  obtain ⟨commands, hkept⟩ := h.history
  refine ⟨line, ⟨commands, hkept.congr hhistory hcount⟩, ?_, ?_⟩
  · rw [hindex]
    exact h.index_ge
  · rw [hindex, hcount]
    exact h.index_lt

/-- An empty line, with the cursor behind the history. -/
theorem cleared (hkept : Kept s commands) : Bounded (shellClearBuffer s) := by
  have hcount := hkept.stored.count_eq
  refine ⟨⟨[], [], rfl, rfl⟩, ⟨commands, hkept.congr rfl rfl⟩, le_refl _, ?_⟩
  show s.historyCount = 0 ∨ -1 < s.historyCount
  omega

theorem prompted (h : Bounded s) (env : Env) : Bounded (shellPrintPrompt env s) := by
  obtain ⟨left, right, hholds⟩ := h.line
  obtain ⟨terminal, hprompt⟩ := shellPrintPrompt_eq env s
  rw [hprompt]
  exact h.edited ⟨left, right, hholds.str_eq, hholds.pos_eq⟩ rfl rfl rfl

theorem nextLine (hkept : Kept s commands) (env : Env) : Bounded (nextLine env s) := by
  unfold Shell.nextLine
  dsimp only
  split
  · exact (cleared hkept).prompted env
  · exact cleared hkept

theorem type (h : Bounded s) {c : UInt8} (hc : c ≠ 0) :
    ∃ t, shellProcessInput c s = some t ∧ Bounded t := by
  obtain ⟨left, right, hholds⟩ := h.line
  by_cases hroom : left.length < 255
  · obtain ⟨buffer, hstr, htyped⟩ := shellProcessInput_eq hholds hc hroom
    exact ⟨_, htyped, h.edited ⟨left ++ [c], [], .typed hstr _⟩ rfl rfl rfl⟩
  · exact ⟨s, shellProcessInput_full hholds hroom c, h⟩

theorem goLeft (h : Bounded s) : Bounded (shellHandleLeftArrow s) := by
  obtain ⟨left, right, hholds⟩ := h.line
  rcases List.eq_nil_or_concat left with rfl | ⟨left, c, rfl⟩
  · rw [shellHandleLeftArrow_start hholds]
    exact h
  · rw [List.concat_eq_append] at hholds
    rw [shellHandleLeftArrow_eq hholds]
    exact h.edited ⟨left, c :: right, hholds.back [8]⟩ rfl rfl rfl

theorem goRight (h : Bounded s) : ∃ t, shellHandleRightArrow s = some t ∧ Bounded t := by
  obtain ⟨left, right, hholds⟩ := h.line
  cases right with
  | nil => exact ⟨s, shellHandleRightArrow_end hholds, h⟩
  | cons c right =>
      exact ⟨_, shellHandleRightArrow_eq hholds,
        h.edited ⟨left ++ [c], right, hholds.forth [c]⟩ rfl rfl rfl⟩

theorem erase (h : Bounded s) : ∃ t, shellHandleBackspace s = some t ∧ Bounded t := by
  obtain ⟨left, right, hholds⟩ := h.line
  rcases List.eq_nil_or_concat left with rfl | ⟨left, c, rfl⟩
  · exact ⟨s, shellHandleBackspace_start hholds, h⟩
  · rw [List.concat_eq_append] at hholds
    obtain ⟨buffer, hstr, hback⟩ := shellHandleBackspace_eq hholds
    exact ⟨_, hback, h.edited ⟨left, right, hstr, rfl⟩ rfl rfl rfl⟩

/-- The indices that the arrow keys go to are those of entries. -/
theorem index_bounds (h : Bounded s) {index : Int}
    (hindex : upIndex s = some index ∨ downIndex s = some index) :
    0 ≤ index ∧ index < s.historyCount := by
  obtain ⟨commands, hkept⟩ := h.history
  have hcount := hkept.stored.count_eq
  have hge := h.index_ge
  have hlt := h.index_lt
  unfold upIndex downIndex at hindex
  grind

/-- An entry of the history is loaded. -/
theorem load (h : Bounded s) (env : Env) {index : Int} (hlow : 0 ≤ index)
    (hhigh : index < s.historyCount) :
    ∃ command, s.history index.toNat = some command ∧ command.length ≤ 255 ∧
      ∃ t, loadHistory env index s = some t ∧ Bounded t := by
  obtain ⟨commands, hkept⟩ := h.history
  have hcount := hkept.stored.count_eq
  have hlt : index.toNat < commands.length := by omega
  have hentry := hkept.stored.entry_eq _ hlt
  rw [List.getElem?_eq_getElem hlt] at hentry
  obtain ⟨hnul, hlength⟩ := hkept.fits _ (List.getElem_mem hlt)
  obtain ⟨t, hload, hholds, hhistory, hcount', hindex⟩ :=
    loadHistory_eq env hentry hnul (by rw [SHELL_BUFFER_SIZE]; omega)
  refine ⟨_, hentry, hlength, t, hload, ⟨_, _, hholds⟩, ⟨commands, hkept.congr hhistory hcount'⟩,
    ?_, ?_⟩
  · omega
  · exact Or.inr (by omega)

theorem goUp (h : Bounded s) (env : Env) : ∃ t, shellHandleUpArrow env s = some t ∧ Bounded t := by
  unfold shellHandleUpArrow
  split
  next index hindex =>
    obtain ⟨hlow, hhigh⟩ := h.index_bounds (Or.inl hindex)
    obtain ⟨_, _, _, hload⟩ := h.load env hlow hhigh
    exact hload
  · exact ⟨s, rfl, h⟩

theorem goDown (h : Bounded s) (env : Env) :
    ∃ t, shellHandleDownArrow env s = some t ∧ Bounded t := by
  unfold shellHandleDownArrow
  split
  · exact ⟨s, rfl, h⟩
  · split
    next index hindex =>
      obtain ⟨hlow, hhigh⟩ := h.index_bounds (Or.inr hindex)
      obtain ⟨_, _, _, hload⟩ := h.load env hlow hhigh
      exact hload
    · obtain ⟨commands, hkept⟩ := h.history
      obtain ⟨terminal, hredraw⟩ := redrawLine_eq env { s with historyIndex := -1 }
      rw [hredraw]
      exact ⟨_, rfl, cleared (hkept.congr rfl rfl)⟩

theorem enter (h : Bounded s) {env : Env} (hgranted : env.granted = true) :
    ∃ t, handleKey env .enter s = some t ∧ Bounded t := by
  obtain ⟨left, right, hholds⟩ := h.line
  obtain ⟨commands, hkept⟩ := h.history
  obtain ⟨buffer, hstr, henter⟩ := handleKey_enter env hholds
  have hsame : Kept { s.write [10] with buffer := buffer } commands := hkept.congr rfl rfl
  rw [henter, hgranted]
  split
  · exact ⟨_, rfl, nextLine hsame env⟩
  · have hlength := Buffer.length_lt hstr
    obtain ⟨t, commands', hadd, ht⟩ :=
      hsame.add (Buffer.noNul hstr) (Nat.le_of_lt_succ hlength)
    have hframe := shellAddToHistory_frame hadd
    have htstr : t.buffer.str = some left := by
      rw [hframe]
      exact hstr
    obtain ⟨buffer', terminal, state, hcommand⟩ := runCommand_eq env htstr
    have hdone : Kept { t with buffer := buffer', terminal := terminal, state := state
                               executed := t.executed ++ [left] } commands' := ht.congr rfl rfl
    rw [hadd, Option.bind_some, hcommand]
    exact ⟨_, rfl, nextLine hdone env⟩

/-- Where `strdup` gets its memory, no key fails. -/
theorem key (h : Bounded s) (env : Env) (hgranted : env.granted = true) (key : Key) :
    ∃ t, handleKey env key s = some t ∧ Bounded t := by
  obtain ⟨commands, hkept⟩ := h.history
  cases key with
  | enter => exact h.enter hgranted
  | backspace => exact h.erase
  | arrowUp => exact h.goUp env
  | arrowDown => exact h.goDown env
  | arrowLeft => exact ⟨_, rfl, h.goLeft⟩
  | arrowRight => exact h.goRight
  | tab => exact h.type (by decide)
  | escape =>
      have hwritten : Bounded ((shellClearBuffer s).write [13]) := (cleared hkept).edited
        ⟨[], [], rfl, rfl⟩ rfl rfl rfl
      exact ⟨_, rfl, hwritten.prompted env⟩
  | ctrlC =>
      have hwritten : Kept (s.write (text "^C" ++ [10])) commands := hkept.congr rfl rfl
      exact ⟨_, rfl, (cleared hwritten).prompted env⟩
  | ctrlD =>
      rw [handleKey]
      split
      · exact ⟨_, rfl, h.edited (h.line.imp fun _ => .imp fun _ line => ⟨line.str_eq, line.pos_eq⟩)
          rfl rfl rfl⟩
      · exact ⟨s, rfl, h⟩
  | ascii c =>
      rw [handleKey]
      split
      next hc => exact h.type hc
      · exact ⟨s, rfl, h⟩

end Bounded

end Keys

/-! ### Every run of the shell -/

/-- What holds between two keys: the bounds, and what the arrow keys would load. -/
structure WithinBounds (s : State) : Prop where
  buffer : ∃ str, s.buffer.str = some str ∧ s.bufferPos ≤ str.length ∧
    str.length ≤ SHELL_BUFFER_SIZE - 1
  count_ge : 0 ≤ s.historyCount
  count_le : s.historyCount ≤ SHELL_HISTORY_SIZE
  loads : ∀ index, upIndex s = some index ∨ downIndex s = some index →
    0 ≤ index ∧ index < s.historyCount ∧
      ∃ command, s.history index.toNat = some command ∧ command.length + 1 ≤ SHELL_BUFFER_SIZE
  /-- No key makes the shell leave its buffer, or follow a null pointer. -/
  handles : ∀ env key, env.granted = true → ∃ t, handleKey env key s = some t

theorem Bounded.withinBounds {s : State} (h : Bounded s) : WithinBounds s := by
  obtain ⟨left, right, hholds⟩ := h.line
  obtain ⟨commands, hkept⟩ := h.history
  have hcount := hkept.stored.count_eq
  have hten := hkept.length_le
  constructor
  · refine ⟨_, hholds.str_eq, ?_, ?_⟩
    · rw [hholds.pos_eq, List.length_append]
      exact Nat.le_add_right ..
    · exact Nat.le_pred_of_lt (Buffer.length_lt hholds.str_eq)
  · omega
  · rw [hcount, SHELL_HISTORY_SIZE]
    omega
  · intro index hindex
    obtain ⟨hlow, hhigh⟩ := h.index_bounds hindex
    obtain ⟨command, hentry, hlength, _⟩ := h.load plainEnv hlow hhigh
    exact ⟨hlow, hhigh, command, hentry, Nat.succ_le_succ hlength⟩
  · intro env key hgranted
    obtain ⟨t, hkey, _⟩ := h.key env hgranted key
    exact ⟨t, hkey⟩

theorem bounded_started (env : Env) (terminal : Terminal.State) :
    Bounded (started env terminal) := by
  refine ⟨⟨[], [], holds_started env terminal⟩, ⟨[], ⟨⟨rfl, ?_⟩, Nat.zero_le _, ?_⟩⟩, ?_,
    Or.inl rfl⟩
  · intro i hi
    exact absurd hi (Nat.not_lt_zero i)
  · intro command hin
    cases hin
  · show (-1 : Int) ≤ 0
    decide

/-- After `shell_init`, as long as `strdup` gets its memory, the shell keeps its buffers'
bounds through any keys, and the arrow keys load entries that exist and fit. -/
theorem shell_within_bounds (env : Env) (terminal : Terminal.State) {events : List Event}
    {s : State} (hgranted : ∀ event ∈ events, event.env.granted = true)
    (run : Run Step (started env terminal) events s) : WithinBounds s := by
  have hkeeps : Bounded s := by
    refine (run.guarded hgranted).invariant ?_ (bounded_started env terminal)
    rintro s event t h ⟨⟨_, hkey⟩, hgranted⟩
    obtain ⟨t', hkey', ht'⟩ := h.key event.env hgranted event.key
    rw [hkey] at hkey'
    cases hkey'
    exact ht'
  exact hkeeps.withinBounds

/-- A character is typed in the shell that `shell_init` leaves. -/
theorem shell_within_bounds_typed :
    ∃ s, Run Step (started plainEnv ⟨0, 0, 7, fun _ => 0⟩) [⟨plainEnv, .ascii 97⟩] s ∧
      WithinBounds s := by
  obtain ⟨s, hkey, _⟩ :=
    (bounded_started plainEnv ⟨0, 0, 7, fun _ => 0⟩).key plainEnv rfl (.ascii 97)
  have run : Run Step (started plainEnv ⟨0, 0, 7, fun _ => 0⟩) [⟨plainEnv, .ascii 97⟩] s :=
    .single ⟨rfl, hkey⟩
  refine ⟨s, run, shell_within_bounds plainEnv ⟨0, 0, 7, fun _ => 0⟩ ?_ run⟩
  intro event hin
  rw [List.mem_singleton.mp hin]
  rfl

end Curnel.Shell
