/-
Radix trees kept in tables.

A table is known by a frame `f` and holds an entry `T f i` at each index `i`; an
entry that is present links to the frame `child e`. `follow T f is` walks the
links along the indices `is`; a tree of depth `n` keeps its leaves in the tables
that `n` links reach, and `leaf` looks one up. `Separated` says that no two paths
of the tree meet in one table. Under it an edit of one entry is local: linking a
fresh empty table changes no leaf (`leaf_link`), and writing a leaf entry changes
that leaf alone (`leaf_set`). Tables are compared only where the tree reaches
them, so anything may happen to the rest of the memory they live in.
-/

import Mathlib.Data.List.Induction
import Mathlib.Data.Option.Basic

namespace Lib.Radix

variable {F I E : Type}

/-- The table reached from `f` along the indices `is`, if every entry on the way
is present. -/
def follow (present : E → Bool) (child : E → F) (T : F → I → E) : F → List I → Option F
  | f, [] => some f
  | f, i :: is =>
      if present (T f i) then follow present child T (child (T f i)) is else none

/-- The entry at index `i` of the table that `is` leads to, if it is present. -/
def leaf (present : E → Bool) (child : E → F) (T : F → I → E) (r : F) (is : List I) (i : I) :
    Option E :=
  (follow present child T r is).bind fun f => if present (T f i) then some (T f i) else none

/-- Different paths of at most `n` links lead to different tables. -/
def Separated (present : E → Bool) (child : E → F) (T : F → I → E) (r : F) (n : Nat) : Prop :=
  ∀ ⦃is js : List I⦄ ⦃f : F⦄, is.length ≤ n → js.length ≤ n →
    follow present child T r is = some f → follow present child T r js = some f → is = js

variable {present : E → Bool} {child : E → F} {T T' : F → I → E} {r f g : F} {n : Nat}
variable {is js : List I} {i j : I}

theorem follow_append (f : F) (is js : List I) :
    follow present child T f (is ++ js)
      = (follow present child T f is).bind fun g => follow present child T g js := by
  induction is generalizing f with
  | nil => rfl
  | cons i is ih =>
      rw [List.cons_append, follow, follow]
      split
      · exact ih _
      · rfl

/-- One more link at the far end of a path. -/
theorem follow_concat (f : F) (is : List I) (i : I) :
    follow present child T f (is ++ [i])
      = (follow present child T f is).bind fun g =>
          if present (T g i) then some (child (T g i)) else none := by
  rw [follow_append]
  rfl

theorem follow_concat_eq_some (h : follow present child T r (is ++ [i]) = some g) :
    ∃ f, follow present child T r is = some f ∧ present (T f i) = true ∧ g = child (T f i) := by
  rw [follow_concat, Option.bind_eq_some_iff] at h
  obtain ⟨f, hfollow, hlink⟩ := h
  split at hlink
  next hpresent => exact ⟨f, hfollow, hpresent, (Option.some.inj hlink).symm⟩
  next => cases hlink

/-- A path without links is the only one to a root whose entries are all absent. -/
theorem follow_of_empty (h : ∀ i, present (T r i) = false) (hfollow : follow present child T r is = some f) :
    is = [] ∧ f = r := by
  cases is with
  | nil => exact ⟨rfl, (Option.some.inj hfollow).symm⟩
  | cons i is =>
      rw [follow, if_neg (by simp [h i])] at hfollow
      cases hfollow

theorem separated_of_empty (h : ∀ i, present (T r i) = false) (n : Nat) :
    Separated present child T r n := by
  intro is js f _ _ hf hg
  rw [(follow_of_empty h hf).1, (follow_of_empty h hg).1]

/-- Walks that read the same entries end in the same table. -/
theorem follow_congr (same : ∀ js i ks f, is = js ++ i :: ks →
      follow present child T r js = some f → T' f i = T f i) :
    follow present child T' r is = follow present child T r is := by
  induction is generalizing r with
  | nil => rfl
  | cons i is ih =>
      have hhead : T' r i = T r i := same [] i is r rfl rfl
      rw [follow, follow, hhead]
      split
      next hpresent =>
        apply ih
        intro js j ks f his hfollow
        refine same (i :: js) j ks f (by rw [his]; rfl) ?_
        rw [follow, if_pos hpresent]
        exact hfollow
      next => rfl

/-! ### Writing a leaf -/

section SetLeaf

variable (sep : Separated present child T r n) (hleaf : follow present child T r is = some f)
  (hn : is.length = n)
  (same : ∀ js g j, js.length ≤ n → follow present child T r js = some g →
    ¬ (g = f ∧ j = i) → T' g j = T g j)
include sep hleaf hn same

/-- A write to a leaf table redirects no link. -/
theorem follow_set (hjs : js.length ≤ n) :
    follow present child T' r js = follow present child T r js := by
  apply follow_congr
  rintro ks k ls g rfl hfollow
  simp only [List.length_append, List.length_cons] at hjs
  refine same ks g k (by omega) hfollow fun ⟨hg, _⟩ => ?_
  have hpaths := sep (by omega) (Nat.le_of_eq hn) hfollow (hg ▸ hleaf)
  rw [hpaths] at hjs
  omega

theorem separated_set : Separated present child T' r n := by
  intro ks ls g hks hls hf hg
  rw [follow_set sep hleaf hn same hks] at hf
  rw [follow_set sep hleaf hn same hls] at hg
  exact sep hks hls hf hg

/-- A write to a leaf entry changes that leaf and no other. -/
theorem leaf_set [DecidableEq I] (hjs : js.length = n) (j : I) :
    leaf present child T' r js j
      = if js = is ∧ j = i then (if present (T' f i) then some (T' f i) else none)
        else leaf present child T r js j := by
  rw [leaf, leaf, follow_set sep hleaf hn same (Nat.le_of_eq hjs)]
  split
  next hhere =>
    obtain ⟨rfl, rfl⟩ := hhere
    rw [hleaf]
    rfl
  next helse =>
    cases hfollow : follow present child T r js with
    | none => rfl
    | some g =>
        have hother : ¬ (g = f ∧ j = i) := fun ⟨hg, hj⟩ =>
          helse ⟨sep (Nat.le_of_eq hjs) (Nat.le_of_eq hn) hfollow (hg ▸ hleaf), hj⟩
        simp only [Option.bind_some]
        rw [same js g j (Nat.le_of_eq hjs) hfollow hother]

end SetLeaf

/-! ### Linking a fresh table -/

section Link

variable [DecidableEq I]
variable (sep : Separated present child T r n) (hparent : follow present child T r is = some f)
  (habsent : present (T f i) = false) (hlink : present (T' f i) = true)
  (hempty : ∀ j, present (T' (child (T' f i)) j) = false)
  (fresh : ∀ js, js.length ≤ n → follow present child T r js ≠ some (child (T' f i)))
  (hn : is.length < n)
  (same : ∀ js g j, js.length ≤ n → follow present child T r js = some g →
    ¬ (g = f ∧ j = i) → T' g j = T g j)
include sep hparent habsent hlink hempty fresh hn same

/-- After the link, the tables reached are those of before and the new one. -/
theorem follow_link (hjs : js.length ≤ n) :
    follow present child T' r js
      = if js = is ++ [i] then some (child (T' f i)) else follow present child T r js := by
  -- from the far end: the last link is the new one, an old one, or below the new table
  induction js using List.reverseRecOn with
  | nil => simp [follow]
  | append_singleton ks k ih =>
      simp only [List.length_append, List.length_singleton] at hjs
      rw [follow_concat, ih (by omega)]
      by_cases hbelow : ks = is ++ [i]
      · have hnew : follow present child T r (ks ++ [k]) = none := by
          rw [hbelow, List.append_assoc, follow_append, hparent]
          simp [follow, habsent]
        have hother : ks ++ [k] ≠ is ++ [i] := by
          intro heq
          have hlen := congrArg List.length heq
          rw [hbelow] at hlen
          simp at hlen
        rw [if_pos hbelow, if_neg hother, hnew]
        simp [hempty k]
      · rw [if_neg hbelow, follow_concat]
        cases hfollow : follow present child T r ks with
        | none =>
            have hother : ks ++ [k] ≠ is ++ [i] := by
              intro heq
              obtain ⟨rfl, -⟩ := List.append_inj' heq rfl
              rw [hparent] at hfollow
              cases hfollow
            rw [if_neg hother]
            rfl
        | some g =>
            simp only [Option.bind_some]
            by_cases hhere : g = f ∧ k = i
            · obtain ⟨rfl, rfl⟩ := hhere
              have hpath : ks = is := sep (by omega) (by omega) hfollow hparent
              rw [hpath, if_pos rfl, if_pos hlink]
            · have hother : ks ++ [k] ≠ is ++ [i] := by
                intro heq
                obtain ⟨rfl, hk⟩ := List.append_inj' heq rfl
                rw [hparent] at hfollow
                exact hhere ⟨(Option.some.inj hfollow).symm, List.singleton_inj.mp hk⟩
              rw [if_neg hother, same ks g k (by omega) hfollow hhere]

theorem separated_link : Separated present child T' r n := by
  intro ks ls g hks hls hf hg
  rw [follow_link sep hparent habsent hlink hempty fresh hn same hks] at hf
  rw [follow_link sep hparent habsent hlink hempty fresh hn same hls] at hg
  split at hf
  next hk =>
    split at hg
    next hl => exact hk.trans hl.symm
    next => exact absurd (hg.trans hf.symm) (fresh ls hls)
  next =>
    split at hg
    next => exact absurd (hf.trans hg.symm) (fresh ks hks)
    next => exact sep hks hls hf hg

/-- Linking a fresh empty table changes no leaf. -/
theorem leaf_link (hjs : js.length = n) (j : I) :
    leaf present child T' r js j = leaf present child T r js j := by
  rw [leaf, leaf, follow_link sep hparent habsent hlink hempty fresh hn same (Nat.le_of_eq hjs)]
  split
  next hnew =>
    have hold : follow present child T r js = none := by
      rw [hnew, follow_concat, hparent]
      simp [habsent]
    rw [hold]
    simp [hempty j]
  next helse =>
    cases hfollow : follow present child T r js with
    | none => rfl
    | some g =>
        have hother : ¬ (g = f ∧ j = i) := by
          rintro ⟨rfl, -⟩
          have hpath := sep (Nat.le_of_eq hjs) (by omega) hfollow hparent
          rw [hpath] at hjs
          omega
        simp only [Option.bind_some]
        rw [same js g j (Nat.le_of_eq hjs) hfollow hother]

end Link

end Lib.Radix
