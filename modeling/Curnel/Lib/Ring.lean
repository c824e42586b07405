/-
Ring buffers and queues.

`window` reads consecutive elements of a buffer of `cap` cells whose indices wrap
around. Taking from its front and writing behind its end is what a ring buffer
does; a `Fifo` says what this is for: what was put in is what was taken out,
followed by what is queued.
-/

import Mathlib.Data.List.Range
import Mathlib.Data.Nat.ModEq
import Mathlib.Logic.Function.Basic
import Mathlib.Logic.Relation

namespace Lib

variable {α : Type}

/-! ### Windows of a ring buffer -/

/-- `n` elements of the buffer from `start` on, round and round. -/
def window (cap : Nat) (buffer : Nat → α) (start n : Nat) : List α :=
  (List.range n).map fun k => buffer ((start + k) % cap)

section Window

variable {cap : Nat} {buffer : Nat → α} {start m n : Nat}

@[simp] theorem length_window : (window cap buffer start n).length = n := by
  simp [window]

@[simp] theorem window_zero : window cap buffer start 0 = [] := rfl

theorem window_mod : window cap buffer (start % cap) n = window cap buffer start n := by
  simp [window]

theorem window_add :
    window cap buffer start (m + n)
      = window cap buffer start m ++ window cap buffer ((start + m) % cap) n := by
  rw [window_mod]
  simp [window, List.range_add, Nat.add_assoc]

/-- The first element, and the window that starts one cell further on. -/
theorem window_succ :
    window cap buffer start (n + 1)
      = buffer (start % cap) :: window cap buffer ((start + 1) % cap) n := by
  rw [Nat.add_comm, window_add]
  simp [window]

theorem window_take (h : m ≤ n) :
    (window cap buffer start n).take m = window cap buffer start m := by
  obtain ⟨k, rfl⟩ := Nat.exists_eq_add_of_le h
  rw [window_add, List.take_left' length_window]

theorem window_drop (h : m ≤ n) :
    (window cap buffer start n).drop m = window cap buffer ((start + m) % cap) (n - m) := by
  obtain ⟨k, rfl⟩ := Nat.exists_eq_add_of_le h
  rw [window_add, List.drop_left' length_window, Nat.add_sub_cancel_left]

/-- A write behind the end of a window makes it longer by what is written. -/
theorem window_write (x : α) (h : n < cap) :
    window cap (Function.update buffer ((start + n) % cap) x) start (n + 1)
      = window cap buffer start n ++ [x] := by
  have hold : window cap (Function.update buffer ((start + n) % cap) x) start n
      = window cap buffer start n := by
    unfold window
    refine List.map_congr_left fun k hk => Function.update_of_ne (fun heq => ?_) _ _
    rw [List.mem_range] at hk
    have hmod : k ≡ n [MOD cap] := Nat.ModEq.add_left_cancel' start heq
    exact hk.ne (hmod.eq_of_lt_of_lt (hk.trans h) h)
  rw [window_add, hold, window_mod, window_succ]
  simp

end Window

/-! ### Queues -/

/-- A queue of at most `cap` elements, with all that has been put in and taken out. -/
structure Fifo (α : Type) (cap : Nat) where
  accepted : List α
  delivered : List α
  queue : List α
  conserved : delivered ++ queue = accepted
  bounded : queue.length ≤ cap

namespace Fifo

variable {cap : Nat}

def empty : Fifo α cap := ⟨[], [], [], rfl, Nat.zero_le _⟩

def put (f : Fifo α cap) (xs : List α) (h : f.queue.length + xs.length ≤ cap) : Fifo α cap where
  accepted := f.accepted ++ xs
  delivered := f.delivered
  queue := f.queue ++ xs
  conserved := by rw [← List.append_assoc, f.conserved]
  bounded := by
    rw [List.length_append]
    exact h

def take (f : Fifo α cap) (n : Nat) : Fifo α cap where
  accepted := f.accepted
  delivered := f.delivered ++ f.queue.take n
  queue := f.queue.drop n
  conserved := by rw [List.append_assoc, List.take_append_drop, f.conserved]
  bounded := by
    rw [List.length_drop]
    exact (Nat.sub_le _ _).trans f.bounded

/-- Empty it, put something in, or take something out. -/
inductive Step : Fifo α cap → Fifo α cap → Prop where
  | reset (f : Fifo α cap) : Step f empty
  | put (f : Fifo α cap) (xs : List α) (h : f.queue.length + xs.length ≤ cap) :
      Step f (f.put xs h)
  | take (f : Fifo α cap) (n : Nat) : Step f (f.take n)

/-- Any number of steps. -/
abbrev Steps : Fifo α cap → Fifo α cap → Prop := Relation.ReflTransGen Step

end Fifo

end Lib
