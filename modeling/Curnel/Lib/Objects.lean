/-
Objects with contents: what an allocator is for.

A store of objects maps names to lists of cells. An allocation gives a name that
no object has to one with any contents of a size that will do; stores and loads
stay inside one object; a free takes its object away. Which sizes will do for a
request is a parameter. Objects do not share cells, so what was stored in one is
loaded from it again, whatever happens to the others (`Run.load_stored`).
-/

import Curnel.Lib.Run
import Mathlib.Logic.Function.Basic

namespace Lib.Objects

variable {π β : Type} [DecidableEq π]

/-- The contents of the objects there are, by their names. -/
abbrev ObjectMap (π β : Type) := π → Option (List β)

/-- What a user does, with what it gets. -/
inductive Event (π β : Type) where
  | alloc (size : Nat) (name : π)
  | refuse (size : Nat)
  | free (name : π)
  | store (name : π) (offset : Nat) (cells : List β)
  | load (name : π) (offset : Nat) (cells : List β)
  | idle

/-- The event takes an object away or writes to it. -/
def Event.Changes (p : π) : Event π β → Prop
  | .free q => q = p
  | .store q _ _ => q = p
  | _ => False

/-- `new` in the place of as many cells of `old`, from `offset` on. -/
def splice (old : List β) (offset : Nat) (new : List β) : List β :=
  old.take offset ++ new ++ old.drop (offset + new.length)

/-- The `n` cells from `offset` on. -/
def slice (cells : List β) (offset n : Nat) : List β := (cells.drop offset).take n

/-- `sized n k` when an object of `k` cells will do for a request of `n`. -/
inductive Step (sized : Nat → Nat → Prop) : ObjectMap π β → Event π β → ObjectMap π β → Prop where
  | alloc {o : ObjectMap π β} {size : Nat} {p : π} {cells : List β} :
      o p = none → sized size cells.length →
      Step sized o (.alloc size p) (Function.update o p (some cells))
  | refuse (o : ObjectMap π β) (size : Nat) : Step sized o (.refuse size) o
  | free {o : ObjectMap π β} {p : π} {cells : List β} :
      o p = some cells → Step sized o (.free p) (Function.update o p none)
  | store {o : ObjectMap π β} {p : π} {offset : Nat} {old new : List β} :
      o p = some old → offset + new.length ≤ old.length →
      Step sized o (.store p offset new) (Function.update o p (some (splice old offset new)))
  | load {o : ObjectMap π β} {p : π} {offset n : Nat} {cells : List β} :
      o p = some cells → offset + n ≤ cells.length →
      Step sized o (.load p offset (slice cells offset n)) o
  | idle (o : ObjectMap π β) : Step sized o .idle o

/-! ### Slices -/

@[simp] theorem length_slice {cells : List β} {offset n : Nat} (h : offset + n ≤ cells.length) :
    (slice cells offset n).length = n := by
  rw [slice, List.length_take, List.length_drop]
  omega

@[simp] theorem length_splice {old new : List β} {offset : Nat}
    (h : offset + new.length ≤ old.length) : (splice old offset new).length = old.length := by
  rw [splice, List.length_append, List.length_append, List.length_take, List.length_drop]
  omega

/-- The cells written are read. -/
theorem slice_splice {old new : List β} {offset : Nat} (h : offset + new.length ≤ old.length) :
    slice (splice old offset new) offset new.length = new := by
  have hbefore : (old.take offset).length = offset := by
    rw [List.length_take]
    omega
  rw [slice, splice, List.append_assoc, List.drop_left' hbefore, List.take_left' rfl]

/-! ### Objects do not share cells -/

/-- An object is what it was after a step that does not change it. -/
theorem Step.unchanged {sized : Nat → Nat → Prop} {o o' : ObjectMap π β} {event : Event π β}
    {p : π} {cells : List β} (step : Step sized o event o') (hp : o p = some cells)
    (keeps : ¬ event.Changes p) : o' p = some cells := by
  cases step with
  | @alloc _ q new hq _ =>
      have hne : p ≠ q := by
        rintro rfl
        rw [hp] at hq
        cases hq
      rw [Function.update_of_ne hne]
      exact hp
  | refuse _ => exact hp
  | @free q _ _ =>
      rw [Function.update_of_ne fun hsame => keeps hsame.symm]
      exact hp
  | @store q _ _ _ _ _ =>
      rw [Function.update_of_ne fun hsame => keeps hsame.symm]
      exact hp
  | load _ _ => exact hp
  | idle => exact hp

/-- A store puts its cells in the place of as many of its object. -/
theorem Step.stored {sized : Nat → Nat → Prop} {o o' : ObjectMap π β} {p : π} {offset : Nat}
    {new : List β} (step : Step sized o (.store p offset new) o') :
    ∃ old, o p = some old ∧ o' p = some (splice old offset new) := by
  cases step with
  | store hold _ => exact ⟨_, hold, Function.update_self ..⟩

end Lib.Objects

namespace Lib.Run

open Lib.Objects

variable {π β : Type} [DecidableEq π] {sized : Nat → Nat → Prop} {o o' : ObjectMap π β} {p : π}

theorem unchanged {events : List (Event π β)} {cells : List β}
    (run : Run (Objects.Step sized) o events o') (hp : o p = some cells)
    (keeps : ∀ e ∈ events, ¬ e.Changes p) : o' p = some cells := by
  induction run with
  | nil _ => exact hp
  | cons first _ ih =>
      exact ih (first.unchanged hp (keeps _ (List.mem_cons_self ..)))
        fun e he => keeps e (List.mem_cons_of_mem _ he)

/-- What was stored last is loaded, whatever is done to other objects in between. -/
theorem load_stored {before between : List (Event π β)} {offset : Nat} {stored loaded : List β}
    (run : Run (Objects.Step sized) o
      (before ++ .store p offset stored :: (between ++ [.load p offset loaded])) o')
    (keeps : ∀ e ∈ between, ¬ e.Changes p) (hlength : loaded.length = stored.length) :
    loaded = stored := by
  obtain ⟨o₁, -, run⟩ := run_append_iff.mp run
  obtain ⟨o₂, hstore, run⟩ := run_cons_iff.mp run
  obtain ⟨o₃, hbetween, run⟩ := run_append_iff.mp run
  obtain ⟨o₄, hload, -⟩ := run_cons_iff.mp run
  cases hstore with
  | @store _ _ old _ hold hroom =>
      have hkept := hbetween.unchanged (Function.update_self ..) keeps
      cases hload with
      | @load _ _ n cells hcells hin =>
          rw [hkept] at hcells
          cases hcells
          rw [length_slice hin] at hlength
          subst hlength
          exact slice_splice hroom

end Lib.Run
