/-
The command history of the shell.

`Stored` lists the commands behind the pointers of the history, the oldest first. Adding one
makes of that list what `remember` says: empty commands and repetitions of the last one stay
out, and the oldest of ten makes room. `history_recent` follows this through any sequence of
commands, and the up arrow through the list from its end.
-/

import Mathlib.Data.List.Destutter
import Curnel.Shell.Editing

namespace Curnel.Shell

open Coreutils Terminal Lib.Word

/-! ### Commands in the history -/

/-- The history holds these commands, the oldest first. -/
structure Stored (s : State) (commands : List (List UInt8)) : Prop where
  count_eq : s.historyCount = commands.length
  entry_eq : ∀ i < commands.length, s.history i = commands[i]?

/-- A history of ten after one more command. -/
def remember (commands : List (List UInt8)) (command : List UInt8) : List (List UInt8) :=
  if command = [] ∨ commands.getLast? = some command then commands
  else (if commands.length = 10 then commands.tail else commands) ++ [command]

section Add

variable {s t : State} {commands : List (List UInt8)} {command : List UInt8}

theorem Stored.repeatsLast_eq (h : Stored s commands) (command : List UInt8) :
    repeatsLast command s = some (decide (commands.getLast? = some command)) := by
  have hcount := h.count_eq
  unfold repeatsLast
  rcases List.eq_nil_or_concat commands with rfl | ⟨front, last, rfl⟩
  · simp [hcount]
  · rw [List.concat_eq_append] at h hcount ⊢
    rw [List.length_append, List.length_singleton] at hcount
    have hindex : (s.historyCount - 1).toNat = front.length := by omega
    have hentry := h.entry_eq front.length (by simp)
    rw [if_pos (by omega), hindex, hentry]
    simp

theorem Stored.forget (h : Stored s commands) (hfull : commands.length = 10) :
    Stored (forgetOldest s) commands.tail := by
  have hcount := h.count_eq
  constructor
  · rw [List.length_tail]
    show s.historyCount - 1 = _
    omega
  · intro i hi
    rw [List.length_tail] at hi
    have hlt : (i : Int) < s.historyCount - 1 := by omega
    have hentry := h.entry_eq (i + 1) (by omega)
    show (if (i : Int) < s.historyCount - 1 then s.history (i + 1) else s.history i) = _
    rw [if_pos hlt, hentry, List.getElem?_tail]

theorem Stored.append (h : Stored s commands) (command : List UInt8) :
    Stored { s with history := Function.update s.history s.historyCount.toNat (some command)
                    historyCount := s.historyCount + 1 } (commands ++ [command]) := by
  have hcount := h.count_eq
  have hindex : s.historyCount.toNat = commands.length := by omega
  constructor
  · rw [List.length_append, List.length_singleton]
    show s.historyCount + 1 = _
    omega
  · intro i hi
    rw [List.length_append, List.length_singleton] at hi
    show Function.update s.history s.historyCount.toNat (some command) i = _
    rw [hindex]
    rcases Nat.lt_or_eq_of_le (Nat.le_of_lt_succ hi) with hold | rfl
    · rw [Function.update_of_ne (by omega), h.entry_eq i hold, List.getElem?_append_left hold]
    · simp

/-- Where `strdup` succeeds, so does adding a command. -/
theorem shellAddToHistory_stored (h : Stored s commands) (command : List UInt8) :
    ∃ t, shellAddToHistory true command s = some t ∧ Stored t (remember commands command) := by
  have hcount := h.count_eq
  unfold shellAddToHistory remember
  by_cases hempty : command = []
  · exact ⟨s, by simp [hempty], by simpa [hempty] using h⟩
  · rw [if_neg (by simpa using hempty), h.repeatsLast_eq command]
    by_cases hlast : commands.getLast? = some command
    · exact ⟨s, by simp [hlast], by simpa [hlast] using h⟩
    · by_cases hfull : commands.length = 10
      · have hten : s.historyCount = SHELL_HISTORY_SIZE := by
          rw [hcount, hfull]
          rfl
        refine ⟨_, by simp [hlast, hten]; rfl, ?_⟩
        simpa [hempty, hlast, hfull] using (h.forget hfull).append command
      · have hten : ¬ s.historyCount = SHELL_HISTORY_SIZE := by
          rw [hcount, SHELL_HISTORY_SIZE]
          omega
        refine ⟨_, by simp [hlast, hten]; rfl, ?_⟩
        simpa [hempty, hlast, hfull] using h.append command

end Add

/-! ### Sequences of commands -/

/-- The commands without the empty ones and without consecutive repetitions. -/
def distinct (commands : List (List UInt8)) : List (List UInt8) :=
  (commands.filter (· ≠ [])).destutter (· ≠ ·)

def lastTen (commands : List (List UInt8)) : List (List UInt8) :=
  commands.drop (commands.length - 10)

/-- Calls of `shell_add_to_history`, whose `strdup` succeeds. -/
def addCommands (commands : List (List UInt8)) (s : State) : Option State :=
  commands.foldlM (fun s command => shellAddToHistory true command s) s

/-- A history without a bound after one more command. -/
def record (commands : List (List UInt8)) (command : List UInt8) : List (List UInt8) :=
  if command = [] ∨ commands.getLast? = some command then commands else commands ++ [command]

theorem remember_lastTen (commands : List (List UInt8)) (command : List UInt8) :
    remember (lastTen commands) command = lastTen (record commands command) := by
  have hlast : (lastTen commands).getLast? = commands.getLast? := by
    rw [lastTen, List.getLast?_drop]
    split
    next hshort =>
      have hnil : commands = [] := List.length_eq_zero_iff.mp (by omega)
      rw [hnil]
      rfl
    · rfl
  unfold remember record
  rw [hlast]
  split
  · rfl
  · unfold lastTen
    rw [List.length_append, List.length_singleton, List.length_drop]
    by_cases hten : 10 ≤ commands.length
    · have hdrop : commands.length + 1 - 10 = commands.length - 10 + 1 := by omega
      rw [if_pos (by omega), List.tail_drop, hdrop,
        List.drop_append_of_le_length (by omega)]
    · have hnone : commands.length - 10 = 0 := by omega
      have hnone' : commands.length + 1 - 10 = 0 := by omega
      rw [if_neg (by omega), hnone, hnone', List.drop_zero, List.drop_zero]

theorem foldl_record (front : List (List UInt8)) (last : List UInt8)
    (commands : List (List UInt8)) :
    commands.foldl record (front ++ [last])
      = front ++ (commands.filter (· ≠ [])).destutter' (· ≠ ·) last := by
  induction commands generalizing front last with
  | nil => rfl
  | cons command commands ih =>
      rw [List.foldl_cons]
      by_cases hempty : command = []
      · have hsame : record (front ++ [last]) command = front ++ [last] := if_pos (Or.inl hempty)
        rw [hsame, ih, List.filter_cons_of_neg (by simpa using hempty)]
      · rw [List.filter_cons_of_pos (by simpa using hempty)]
        by_cases hrepeat : last = command
        · have hsame : record (front ++ [last]) command = front ++ [last] :=
            if_pos (Or.inr (by simp [hrepeat]))
          rw [hsame, ih, List.destutter'_cons_neg (h := not_not.mpr hrepeat)]
        · have hnew : record (front ++ [last]) command = front ++ [last] ++ [command] :=
            if_neg (by simp [hempty, hrepeat])
          rw [hnew, ih, List.destutter'_cons_pos (h := hrepeat), List.append_assoc]
          rfl

theorem foldl_record_nil (commands : List (List UInt8)) :
    commands.foldl record [] = distinct commands := by
  induction commands with
  | nil => rfl
  | cons command commands ih =>
      rw [List.foldl_cons, distinct]
      by_cases hempty : command = []
      · have hsame : record [] command = [] := if_pos (Or.inl hempty)
        rw [hsame, ih, List.filter_cons_of_neg (by simpa using hempty), distinct]
      · have hnew : record [] command = [] ++ [command] := if_neg (by simp [hempty])
        rw [hnew, foldl_record, List.filter_cons_of_pos (by simpa using hempty)]
        rfl

theorem addCommands_stored {s : State} {earlier : List (List UInt8)}
    (h : Stored s (lastTen earlier)) (commands : List (List UInt8)) :
    ∃ t, addCommands commands s = some t ∧ Stored t (lastTen (commands.foldl record earlier)) := by
  induction commands generalizing s earlier with
  | nil => exact ⟨s, rfl, h⟩
  | cons command commands ih =>
      obtain ⟨t, hadd, ht⟩ := shellAddToHistory_stored h command
      rw [remember_lastTen] at ht
      obtain ⟨u, hrest, hu⟩ := ih ht
      refine ⟨u, ?_, hu⟩
      rw [addCommands, List.foldlM_cons, hadd]
      exact hrest

/-! ### The up arrow -/

section Up

variable {s : State} {commands : List (List UInt8)} {command : List UInt8}

/-- An entry that fits the buffer is loaded. -/
theorem loadHistory_eq (env : Env) {index : Int} (hentry : s.history index.toNat = some command)
    (hnul : 0 ∉ command) (hfits : command.length < SHELL_BUFFER_SIZE) :
    ∃ t, loadHistory env index s = some t ∧ Holds t command [] ∧
      t.history = s.history ∧ t.historyCount = s.historyCount ∧ t.historyIndex = index := by
  have hlength : (command ++ [0]).length ≤ SHELL_BUFFER_SIZE := by
    rw [List.length_append, List.length_singleton]
    exact hfits
  obtain ⟨buffer, hcopy, hbuffer⟩ := Buffer.copy_eq (b := s.buffer) hlength
  have hstr : buffer.str = some command := by
    rw [Buffer.str, hbuffer, List.append_assoc, List.singleton_append]
    exact cstring_append hnul _
  obtain ⟨terminal, hredraw⟩ := redrawLine_eq env { s with historyIndex := index }
  have hload : loadHistory env index s
      = some (State.write
          { s with cwd := env.cwd, terminal := terminal, historyIndex := index
                   buffer := buffer, bufferPos := command.length } command) := by
    rw [loadHistory, hredraw]
    simp only [Option.bind_eq_bind, hentry, hcopy, Option.bind_some, hstr]
  refine ⟨_, hload, ⟨?_, rfl⟩, rfl, rfl, rfl⟩
  rw [List.append_nil]
  exact hstr

/-- The up arrow pressed once for each of these. -/
def upArrows (envs : List Env) (s : State) : Option State :=
  envs.foldlM (fun s env => shellHandleUpArrow env s) s

/-- The place of the up arrow after `j` times. -/
structure WalkedBack (s : State) (commands : List (List UInt8)) (j : Nat) : Prop where
  stored : Stored s commands
  index_eq : s.historyIndex = if j = 0 then -1 else (commands.length : Int) - j

theorem WalkedBack.next {j : Nat} (h : WalkedBack s commands j) (hj : j < commands.length)
    (hcommands : ∀ command ∈ commands, 0 ∉ command ∧ command.length ≤ 255) (env : Env) :
    ∃ t, shellHandleUpArrow env s = some t ∧ WalkedBack t commands (j + 1) ∧
      t.buffer.str = commands[commands.length - (j + 1)]? := by
  have hcount := h.stored.count_eq
  have hindex := h.index_eq
  have hup : upIndex s = some ((commands.length : Int) - (j + 1)) := by
    unfold upIndex
    rw [if_neg (by omega)]
    split at hindex
    next hj =>
      rw [if_pos hindex, hcount, hj]
      rfl
    next hj =>
      rw [if_neg (by omega), if_pos (by omega), hindex]
      congr 1
      omega
  have hplace : ((commands.length : Int) - (j + 1)).toNat = commands.length - (j + 1) := by omega
  have hlt : commands.length - (j + 1) < commands.length := by omega
  obtain ⟨command, hget⟩ : ∃ command, commands[commands.length - (j + 1)]? = some command :=
    ⟨_, List.getElem?_eq_getElem hlt⟩
  obtain ⟨hnul, hlength⟩ := hcommands command (List.mem_of_getElem? hget)
  have hentry := h.stored.entry_eq _ hlt
  rw [hget, ← hplace] at hentry
  obtain ⟨t, hload, hholds, hhistory, hcount', hindex'⟩ :=
    loadHistory_eq env hentry hnul (by rw [SHELL_BUFFER_SIZE]; omega)
  refine ⟨t, ?_, ⟨⟨?_, ?_⟩, ?_⟩, ?_⟩
  · rw [shellHandleUpArrow, hup]
    exact hload
  · rw [hcount', hcount]
  · rw [hhistory]
    exact h.stored.entry_eq
  · rw [hindex', if_neg (Nat.succ_ne_zero j)]
    push_cast
    rfl
  · rw [hget, hholds.str_eq, List.append_nil]

theorem WalkedBack.run {j : Nat} (h : WalkedBack s commands j)
    (hcommands : ∀ command ∈ commands, 0 ∉ command ∧ command.length ≤ 255) (envs : List Env)
    (hpos : 1 ≤ envs.length) (hle : j + envs.length ≤ commands.length) :
    ∃ u, upArrows envs s = some u ∧
      u.buffer.str = commands[commands.length - (j + envs.length)]? := by
  induction envs generalizing s j with
  | nil => exact absurd hpos (by simp)
  | cons env envs ih =>
      rw [List.length_cons] at hle ⊢
      obtain ⟨t, hup, ht, hstr⟩ := h.next (by omega) hcommands env
      rw [upArrows, List.foldlM_cons, hup]
      cases envs with
      | nil => exact ⟨t, rfl, hstr⟩
      | cons env' envs =>
          have hindex : j + ((env' :: envs).length + 1) = j + 1 + (env' :: envs).length := by omega
          rw [hindex] at hle ⊢
          exact ih ht (by simp) hle

end Up

/-- What `shell_add_to_history` keeps of a sequence of commands, and how the up arrow walks
back through it from an empty line. -/
theorem history_recent (s : State) (hnone : s.historyCount = 0) (commands : List (List UInt8))
    (hcommands : ∀ command ∈ commands, 0 ∉ command ∧ command.length ≤ 255) :
    ∃ t, addCommands commands s = some t ∧ Stored t (lastTen (distinct commands)) ∧
      ∀ envs : List Env, 1 ≤ envs.length → (envs.length : Int) ≤ t.historyCount →
        ∃ u, upArrows envs (shellClearBuffer t) = some u ∧
          u.buffer.str = (distinct commands)[(distinct commands).length - envs.length]? := by
  have hempty : Stored s (lastTen []) := ⟨hnone, fun i hi => absurd hi (Nat.not_lt_zero i)⟩
  obtain ⟨t, hadd, ht⟩ := addCommands_stored hempty commands
  rw [foldl_record_nil] at ht
  refine ⟨t, hadd, ht, fun envs hpos hle => ?_⟩
  have hwalk : WalkedBack (shellClearBuffer t) (lastTen (distinct commands)) 0 :=
    ⟨⟨ht.count_eq, ht.entry_eq⟩, rfl⟩
  have hkept : ∀ command ∈ lastTen (distinct commands), 0 ∉ command ∧ command.length ≤ 255 := by
    intro command hin
    have hdistinct := List.mem_of_mem_drop hin
    have hfilter := (List.destutter_sublist _ _).subset hdistinct
    exact hcommands command (List.mem_of_mem_filter hfilter)
  have hcount := ht.count_eq
  obtain ⟨u, hup, hstr⟩ := hwalk.run hkept envs hpos (by omega)
  refine ⟨u, hup, hstr.trans ?_⟩
  rw [lastTen, List.getElem?_drop, List.length_drop]
  rw [lastTen, List.length_drop] at hcount
  congr 1
  omega

/-- A repeated command and an empty one among four. -/
theorem history_recent_two :
    ∃ t, addCommands [[97], [97], [], [98]] (started plainEnv ⟨0, 0, 7, fun _ => 0⟩) = some t ∧
      Stored t [[97], [98]] ∧
      ∃ u, upArrows [plainEnv, plainEnv] (shellClearBuffer t) = some u ∧
        u.buffer.str = some [97] := by
  obtain ⟨t, hadd, ht, hup⟩ := history_recent (started plainEnv ⟨0, 0, 7, fun _ => 0⟩) rfl
    [[97], [97], [], [98]] (by decide)
  have hlast : lastTen (distinct [[97], [97], [], [98]]) = [[97], [98]] := by decide
  rw [hlast] at ht
  exact ⟨t, hadd, ht, hup [plainEnv, plainEnv] (by decide) (by rw [ht.count_eq]; decide)⟩

end Curnel.Shell
