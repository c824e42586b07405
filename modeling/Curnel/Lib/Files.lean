/-
Open files: what handles to separate files are for.

A handle sees the bytes of its file and a position in them. A seek sets the position,
but not past the end; a read gives the bytes from the position on and moves behind
them; a write puts a first part of its bytes in the place of what is at the position.
How large a part is left open, so that a device may fill up. Handles do not meet:
what is written through one is read through it again, whatever is done through the
others (`Run.read_written`).
-/

import Curnel.Lib.Run
import Mathlib.Logic.Function.Basic

namespace Lib.Files

variable {ι β : Type} [DecidableEq ι]

structure OpenFile (β : Type) where
  bytes : List β
  position : Nat

/-- A call through a handle, with what it gives back. -/
inductive Event (ι β : Type) where
  | seek (handle : ι) (position : Nat)
  | read (handle : ι) (n : Nat) (bytes : List β)
  | write (handle : ι) (bytes : List β) (count : Nat)

def Event.handle : Event ι β → ι
  | .seek i _ => i
  | .read i _ _ => i
  | .write i _ _ => i

namespace OpenFile

def seek (f : OpenFile β) (position : Nat) : OpenFile β :=
  { f with position := min position f.bytes.length }

def read (f : OpenFile β) (n : Nat) : List β := (f.bytes.drop f.position).take n

def advance (f : OpenFile β) (n : Nat) : OpenFile β := { f with position := f.position + n }

def write (f : OpenFile β) (new : List β) : OpenFile β where
  bytes := f.bytes.take f.position ++ new ++ f.bytes.drop (f.position + new.length)
  position := f.position + new.length

/-- What has been written is read from where it was written. -/
theorem read_seek_write (f : OpenFile β) (h : f.position ≤ f.bytes.length) (new : List β) :
    ((f.write new).seek f.position).read new.length = new := by
  have hbefore : (f.bytes.take f.position).length = f.position := List.length_take_of_le h
  have hseek : min f.position (f.write new).bytes.length = f.position := by
    apply Nat.min_eq_left
    rw [write, List.length_append, List.length_append, hbefore]
    omega
  rw [read, seek]
  dsimp only
  rw [hseek, write]
  dsimp only
  rw [List.append_assoc, List.drop_left' hbefore, List.take_left' rfl]

end OpenFile

inductive Step : (ι → OpenFile β) → Event ι β → (ι → OpenFile β) → Prop where
  | seek (files : ι → OpenFile β) (i : ι) (position : Nat) :
      Step files (.seek i position) (Function.update files i ((files i).seek position))
  | read (files : ι → OpenFile β) (i : ι) (n : Nat) :
      Step files (.read i n ((files i).read n))
        (Function.update files i ((files i).advance ((files i).read n).length))
  | write (files : ι → OpenFile β) (i : ι) {bytes : List β} {count : Nat} :
      count ≤ bytes.length →
      Step files (.write i bytes count)
        (Function.update files i ((files i).write (bytes.take count)))

/-- A call through one handle leaves the files of the others alone. -/
theorem Step.others {files files' : ι → OpenFile β} {event : Event ι β} (step : Step files event files')
    {i : ι} (hne : i ≠ event.handle) : files' i = files i := by
  cases step with
  | seek _ _ => exact Function.update_of_ne hne _ _
  | read _ _ => exact Function.update_of_ne hne _ _
  | write _ _ => exact Function.update_of_ne hne _ _

end Lib.Files

namespace Lib.Run

open Lib.Files

variable {ι β : Type} [DecidableEq ι] {files files' : ι → OpenFile β}

theorem otherFiles {events : List (Event ι β)} (run : Run Files.Step files events files') {i : ι}
    (hne : ∀ e ∈ events, i ≠ e.handle) : files' i = files i := by
  induction run with
  | nil _ => rfl
  | cons first _ ih =>
      rw [ih fun e he => hne e (List.mem_cons_of_mem _ he),
        first.others (hne _ (List.mem_cons_self ..))]

/-- What a write has stored is read through its handle, after any calls through others. -/
theorem read_written {i : ι} {between : List (Event ι β)} {bytes got : List β} {count : Nat}
    (hposition : (files i).position ≤ (files i).bytes.length)
    (run : Run Files.Step files (.write i bytes count :: (between
      ++ [.seek i (files i).position, .read i count got])) files')
    (hne : ∀ e ∈ between, i ≠ e.handle) : got = bytes.take count := by
  obtain ⟨files₁, hwrite, run⟩ := run_cons_iff.mp run
  obtain ⟨files₂, hbetween, run⟩ := run_append_iff.mp run
  obtain ⟨files₃, hseek, run⟩ := run_cons_iff.mp run
  obtain ⟨files₄, hread, -⟩ := run_cons_iff.mp run
  have hkept := hbetween.otherFiles hne
  cases hwrite with
  | write _ hle =>
      cases hseek with
      | seek _ _ =>
          cases hread with
          | read _ _ =>
              rw [Function.update_self] at hkept
              rw [Function.update_self, hkept]
              have hback := (files i).read_seek_write hposition (bytes.take count)
              rwa [List.length_take_of_le hle] at hback

end Lib.Run
