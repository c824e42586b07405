/-
What `keyboard_read` reads.

Its loop counts with a `size_t`, and takes a backspace back by going down by two, or by one
at the start of the buffer, and up by one again: at index 0 and 1 by way of 2⁶⁴ - 1.
`Reading` is its invariant. `keyboard_read_line` says that it returns after the first
character that completes what is held, with just that in its buffer.
-/

import Mathlib.Data.List.Infix
import Curnel.Keyboard

namespace Curnel.Keyboard

open Lib.Bytes Lib.Word

/-! ### What is expected of `keyboard_read` -/

/-- What is held after one more character. -/
def hold (held : List UInt8) (c : UInt8) : List UInt8 :=
  if c = 8 then held.dropLast else held ++ [c]

/-- What is held after these characters. -/
def held (taken : List UInt8) : List UInt8 := taken.foldl hold []

/-- Nothing more is read: `count` characters are held, or a newline. -/
def Complete (count : Nat) (line : List UInt8) : Prop :=
  line.length = count ∨ 10 ∈ line

/-- These characters complete the line, and the last of them does. -/
structure CompletedBy (count : Nat) (taken : List UInt8) : Prop where
  complete : Complete count (held taken)
  notBefore : ∀ before, before <+: taken → before ≠ taken → ¬ Complete count (held before)

/-- The outcome of a read from `buffer` on, with these characters to come. -/
inductive ReadsLine (count : Nat) (chars : List UInt8) (buffer : Store) : Outcome → Prop where
  | returned {taken rest : List UInt8} {buffer' : Store} {terminal : Terminal.State}
      (chars_eq : chars = taken ++ rest) (completed : CompletedBy count taken)
      (bytes_eq : readBytes buffer' 0 (held taken).length = held taken)
      (frame : Frame buffer buffer' 0 count) :
      ReadsLine count chars buffer (.returned (held taken).length rest buffer' terminal)
  | waits {buffer' : Store} {terminal : Terminal.State}
      (notYet : ∀ taken, taken <+: chars → ¬ Complete count (held taken))
      (frame : Frame buffer buffer' 0 count) :
      ReadsLine count chars buffer (.waits buffer' terminal)

/-! ### The index -/

/-- Down by one and up again, even from 0. -/
theorem wadd_wsub {i : Nat} (h : i < 2 ^ 64) : wadd 64 (wsub 64 i 1) 1 = i := by
  unfold wadd wsub
  omega

theorem held_append (taken : List UInt8) (c : UInt8) :
    held (taken ++ [c]) = hold (held taken) c := by
  simp [held]

/-! ### The loop -/

/-- The loop is at index `i` after these characters, without having returned. -/
structure Reading (count : Nat) (start : Store) (taken : List UInt8) (i : Nat)
    (buffer : Store) : Prop where
  index_eq : i = (held taken).length
  index_le : i ≤ count
  bytes_eq : readBytes buffer 0 i = held taken
  noNewline : 10 ∉ held taken
  notBefore : ∀ before, before <+: taken → before ≠ taken → ¬ Complete count (held before)
  frame : Frame start buffer 0 count

namespace Reading

variable {count i : Nat} {start buffer : Store} {taken : List UInt8}

theorem notYet (h : Reading count start taken i buffer) (hi : i < count) {before : List UInt8}
    (hbefore : before <+: taken) : ¬ Complete count (held before) := by
  by_cases heq : before = taken
  · rw [heq]
    rintro (hlength | hnewline)
    · have hindex := h.index_eq
      omega
    · exact h.noNewline hnewline
  · exact h.notBefore before hbefore heq

/-- No line was complete before one more character. -/
theorem notBefore_append (h : Reading count start taken i buffer) (hi : i < count) (c : UInt8)
    {before : List UInt8} (hbefore : before <+: taken ++ [c]) (hne : before ≠ taken ++ [c]) :
    ¬ Complete count (held before) := by
  rcases List.prefix_concat_iff.mp hbefore with heq | hold
  · exact absurd heq hne
  · exact h.notYet hi hold

theorem readBytes_update (h : Reading count start taken i buffer) (c : UInt8) :
    readBytes (Function.update buffer i c) 0 (i + 1) = held taken ++ [c] := by
  have hsame : readBytes (Function.update buffer i c) 0 i = readBytes buffer 0 i := by
    apply readBytes_shift
    intro k hk
    rw [Function.update_of_ne (by omega)]
  rw [← h.bytes_eq, ← hsame, readBytes, List.range_succ, List.map_append]
  simp [readBytes]

theorem frame_update (h : Reading count start taken i buffer) (hi : i < count) (c : UInt8) :
    Frame start (Function.update buffer i c) 0 count := by
  intro x hx
  have hne : x ≠ i := by
    rintro rfl
    exact hx ⟨Nat.zero_le x, hi⟩
  rw [Function.update_of_ne hne]
  exact h.frame hx

theorem store (h : Reading count start taken i buffer) (hi : i < count) {c : UInt8}
    (hbackspace : c ≠ 8) (hnewline : c ≠ 10) :
    Reading count start (taken ++ [c]) (i + 1) (Function.update buffer i c) := by
  have hheld : held (taken ++ [c]) = held taken ++ [c] := by
    rw [held_append, hold, if_neg hbackspace]
  constructor
  · rw [hheld, List.length_append, ← h.index_eq, List.length_singleton]
  · exact hi
  · rw [hheld, h.readBytes_update c]
  · rw [hheld, List.mem_append, List.mem_singleton]
    rintro (hin | heq)
    · exact h.noNewline hin
    · exact hnewline heq.symm
  · exact fun before => h.notBefore_append hi c
  · exact h.frame_update hi c

theorem erase (h : Reading count start taken i buffer) (hi : i < count) :
    Reading count start (taken ++ [8]) (i - 1) buffer := by
  have hheld : held (taken ++ [8]) = (held taken).dropLast := by
    rw [held_append, hold, if_pos rfl]
  constructor
  · rw [hheld, List.length_dropLast, ← h.index_eq]
  · omega
  · rw [hheld, ← h.bytes_eq]
    cases i with
    | zero => rfl
    | succ i => simp [readBytes, List.range_succ]
  · rw [hheld]
    exact fun hin => h.noNewline (List.mem_of_mem_dropLast hin)
  · exact fun before => h.notBefore_append hi 8
  · exact h.frame

/-- A newline completes the line. -/
theorem newline (h : Reading count start taken i buffer) (hi : i < count)
    (rest : List UInt8) (terminal : Terminal.State) :
    ReadsLine count (taken ++ 10 :: rest) start
      (.returned ((i + 1 : Nat) : Int) rest (Function.update buffer i 10) terminal) := by
  have hheld : held (taken ++ [10]) = held taken ++ [10] := by
    rw [held_append, hold, if_neg (by decide)]
  have hlength : (held (taken ++ [10])).length = i + 1 := by
    rw [hheld, List.length_append, ← h.index_eq, List.length_singleton]
  rw [← hlength]
  refine .returned (by simp) ⟨?_, fun before => h.notBefore_append hi 10⟩ ?_ (h.frame_update hi 10)
  · rw [hheld]
    exact Or.inr (by simp)
  · rw [hlength, hheld, h.readBytes_update 10]

/-- `count` characters complete the line. -/
theorem full (h : Reading count start taken i buffer) (hi : ¬ i < count)
    (rest : List UInt8) (terminal : Terminal.State) :
    ReadsLine count (taken ++ rest) start (.returned (i : Int) rest buffer terminal) := by
  have hcount : i = count := Nat.le_antisymm h.index_le (Nat.le_of_not_lt hi)
  have hbytes := h.bytes_eq
  rw [h.index_eq] at hbytes hcount ⊢
  exact .returned rfl ⟨Or.inl hcount, h.notBefore⟩ hbytes h.frame

end Reading

theorem reading_loop {count : Nat} (hcount : count < 2 ^ 31) {start : Store} (chars : List UInt8)
    {taken : List UInt8} {i : Nat} {buffer : Store} (terminal : Terminal.State)
    (h : Reading count start taken i buffer) :
    ReadsLine count (taken ++ chars) start (keyboardReadLoop count chars i buffer terminal) := by
  have hle := h.index_le
  induction chars generalizing taken i buffer terminal with
  | nil =>
      rw [keyboardReadLoop]
      split
      next hi =>
        rw [List.append_nil]
        exact .waits (fun before hbefore => h.notYet hi hbefore) h.frame
      next hi =>
        rw [toInt32_of_lt (by omega)]
        exact h.full hi [] terminal
  | cons c chars ih =>
      have hmore : taken ++ c :: chars = taken ++ [c] ++ chars := by simp
      have hnext : i < count → wadd 64 i 1 = i + 1 := fun hi => wadd_of_lt (by omega)
      rw [keyboardReadLoop]
      split_ifs with hi hnewline hbackspace hpos
      · rw [hnext hi, toInt32_of_lt (by omega), hnewline]
        exact h.newline hi chars terminal
      · have hindex : wadd 64 (wsub 64 (wsub 64 i 1) 1) 1 = i - 1 := by
          rw [wsub_of_le (by omega) hpos, wadd_wsub (by omega)]
        rw [hmore, hbackspace]
        dsimp only
        rw [hindex]
        have herase := h.erase hi
        exact ih _ herase herase.index_le
      · have hindex : wadd 64 (wsub 64 i 1) 1 = i - 1 := by
          rw [wadd_wsub (by omega)]
          omega
        rw [hmore, hbackspace]
        dsimp only
        rw [hindex]
        have herase := h.erase hi
        exact ih _ herase herase.index_le
      · rw [hmore, hnext hi]
        have hstore := h.store hi hbackspace hnewline
        exact ih _ hstore hstore.index_le
      · rw [toInt32_of_lt (by omega)]
        exact h.full hi (c :: chars) terminal

/-- Whatever is typed, `keyboard_read` takes the characters that complete its line and no
more, returns how many it holds then, has just these in its buffer, and changes nothing
outside of the `count` bytes. Until then it waits. -/
theorem keyboard_read_line {count : Nat} (hcount : count < 2 ^ 31) (chars : List UInt8)
    (buffer : Store) (terminal : Terminal.State) :
    ReadsLine count chars buffer (keyboardRead count chars buffer terminal) := by
  have hstart : Reading count buffer [] 0 buffer := by
    refine ⟨rfl, Nat.zero_le _, rfl, ?_, ?_, ?_⟩
    · exact List.not_mem_nil
    · exact fun before hprefix hne => absurd (List.prefix_nil.mp hprefix) hne
    · exact Frame.refl buffer 0 count
  exact reading_loop hcount chars terminal hstart

/-- Backspaces at the indices 0 and 1, and a newline before `count` characters. -/
theorem keyboard_read_line_backspaces :
    ReadsLine 4 [8, 97, 8, 8, 98, 10, 99] (fun _ => 0)
      (keyboardRead 4 [8, 97, 8, 8, 98, 10, 99] (fun _ => 0) ⟨0, 0, 7, fun _ => 0⟩) :=
  keyboard_read_line (by decide) _ _ _

end Curnel.Keyboard
