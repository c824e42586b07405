/-
Uses of frames, as a typing of the heap they make.

A frame that is in use has a use `k`, and its slots may refer to other frames:
`edge k f i` is what slot `i` of the frame `f` refers to, and the use that this
makes of it. `Typed edge own` says that `own` agrees with every slot of every frame
it has a use for. Under it a frame that is reached from the roots has the one use
that `own` gives (`Typed.reached`), so no two slots make different uses of it.
The typing survives an edit that only drops references (`Typed.cut`), that takes a
frame into use (`Typed.adopt`), or that gives up a frame nothing refers to any more
(`Typed.release`).
-/

import Mathlib.Logic.Function.Basic

namespace Lib.Ownership

variable {F I K : Type}

/-- `own` agrees with what the slots of the frames in use refer to. -/
def Typed (edge : K → F → I → Option (F × K)) (own : F → Option K) : Prop :=
  ∀ ⦃f k i g l⦄, own f = some k → edge k f i = some (g, l) → own g = some l

/-- The frames that the slots lead to from the roots, with the use made of them. -/
inductive Reached (edge : K → F → I → Option (F × K)) (roots : F → K → Prop) : F → K → Prop where
  | root {f : F} {k : K} : roots f k → Reached edge roots f k
  | slot {f g : F} {k l : K} {i : I} :
      Reached edge roots f k → edge k f i = some (g, l) → Reached edge roots g l

variable {edge edge' : K → F → I → Option (F × K)} {own : F → Option K}

section Update

variable [DecidableEq F] {f g : F} {k l : K}

/-- The uses after the frame `g` is taken into use as `l`. -/
theorem adopt_eq_some :
    Function.update own g (some l) f = some k ↔ f = g ∧ k = l ∨ f ≠ g ∧ own f = some k := by
  by_cases h : f = g
  · subst h
    simp [eq_comm]
  · simp [h]

/-- The uses after the frame `g` is given up. -/
theorem release_eq_some :
    Function.update own g none f = some k ↔ f ≠ g ∧ own f = some k := by
  by_cases h : f = g
  · subst h
    simp
  · simp [h]

theorem keep_adopt (hnew : own g = none) (hf : own f = some k) :
    Function.update own g (some l) f = some k := by
  refine adopt_eq_some.mpr (Or.inr ⟨?_, hf⟩)
  rintro rfl
  rw [hnew] at hf
  cases hf

end Update

namespace Typed

theorem reached {roots : F → K → Prop} {f : F} {k : K} (typed : Typed edge own)
    (hroots : ∀ f k, roots f k → own f = some k) (h : Reached edge roots f k) :
    own f = some k := by
  induction h with
  | root h => exact hroots _ _ h
  | slot _ hedge ih => exact typed ih hedge

/-- An edit that drops references, or does nothing to them. -/
theorem cut (typed : Typed edge own)
    (same : ∀ f k i, own f = some k → edge' k f i = edge k f i ∨ edge' k f i = none) :
    Typed edge' own := by
  intro f k i g l hf hedge
  rcases same f k i hf with h | h
  · exact typed hf (h ▸ hedge)
  · rw [h] at hedge
    cases hedge

variable [DecidableEq F]

/-- An edit that takes the frame `g` into use: slots may refer to it now, and its
own slots refer to frames in use. -/
theorem adopt {g : F} {l : K} (typed : Typed edge own) (hnew : own g = none)
    (same : ∀ f k i, own f = some k → edge' k f i = edge k f i ∨ edge' k f i = some (g, l))
    (hedges : ∀ i h k, edge' l g i = some (h, k) → own h = some k) :
    Typed edge' (Function.update own g (some l)) := by
  intro f k i h k' hf hedge
  rcases adopt_eq_some.mp hf with ⟨rfl, rfl⟩ | ⟨-, hf⟩
  · exact keep_adopt hnew (hedges i h k' hedge)
  · rcases same f k i hf with heq | heq
    · exact keep_adopt hnew (typed hf (heq ▸ hedge))
    · rw [heq] at hedge
      cases hedge
      exact Function.update_self ..

/-- A frame that no slot refers to may be given up. -/
theorem release {g : F} (typed : Typed edge own)
    (unused : ∀ f k i l, own f = some k → f ≠ g → edge k f i ≠ some (g, l)) :
    Typed edge (Function.update own g none) := by
  intro f k i h l hf hedge
  obtain ⟨hne, hused⟩ := release_eq_some.mp hf
  refine release_eq_some.mpr ⟨?_, typed hused hedge⟩
  rintro rfl
  exact unused f k i l hused hne hedge

end Typed

end Lib.Ownership
