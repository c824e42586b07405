/-
Runs of a labelled transition relation.

`Run step s ls t` says that the steps labelled `ls`, taken in that order, lead
from `s` to `t`. What one step preserves a whole run preserves
(`Run.invariant`), a relation to another system that every step keeps relates
whole runs (`Run.simulation`, `Run.translation`), a run splits wherever its list of labels does
(`run_append_iff`), and an exact guard on the steps is one on the runs
(`run_good_iff`, `run_guarded_iff`). `fuel_returns_iff` says when a loop with fuel
returns, `countP_le_weight` bounds what a chain of nested calls counts.
-/

import Mathlib.Data.List.Chain

namespace Lib

variable {σ ℓ : Type}

/-- The steps labelled `ls`, in order, lead from the first state to the last. -/
inductive Run (step : σ → ℓ → σ → Prop) : σ → List ℓ → σ → Prop where
  | nil (s : σ) : Run step s [] s
  | cons {s t u : σ} {l : ℓ} {ls : List ℓ} :
      step s l t → Run step t ls u → Run step s (l :: ls) u

namespace Run

variable {step : σ → ℓ → σ → Prop} {s t : σ} {l : ℓ} {ls : List ℓ}

theorem single (h : step s l t) : Run step s [l] t := .cons h (.nil t)

/-- The induction rule: what every step preserves, every run preserves. -/
theorem invariant {I : σ → Prop} (hstep : ∀ {s l t}, I s → step s l t → I t)
    (run : Run step s ls t) (h : I s) : I t := by
  induction run with
  | nil _ => exact h
  | cons first _ ih => exact ih (hstep h first)

/-- The simulation rule: what keeps two systems related step by step relates their
runs. -/
theorem simulation {τ : Type} {step' : τ → ℓ → τ → Prop} {R : σ → τ → Prop}
    (hstep : ∀ s l t a, R s a → step s l t → ∃ b, step' a l b ∧ R t b)
    (run : Run step s ls t) {a : τ} (h : R s a) : ∃ b, Run step' a ls b ∧ R t b := by
  induction run generalizing a with
  | nil _ => exact ⟨a, .nil a, h⟩
  | cons first _ ih =>
      obtain ⟨b, first', hb⟩ := hstep _ _ _ _ h first
      obtain ⟨c, rest', hc⟩ := ih hb
      exact ⟨c, .cons first' rest', hc⟩

theorem mono {step' : σ → ℓ → σ → Prop} (h : ∀ {s l t}, step s l t → step' s l t)
    (run : Run step s ls t) : Run step' s ls t := by
  induction run with
  | nil s => exact .nil s
  | cons first _ ih => exact .cons (h first) ih

/-- What holds of every label of a run holds at its steps. -/
theorem guarded {P : ℓ → Prop} (run : Run step s ls t) (h : ∀ l ∈ ls, P l) :
    Run (fun s l t => step s l t ∧ P l) s ls t := by
  induction run with
  | nil s => exact .nil s
  | @cons _ _ _ l ls first _ ih =>
      exact .cons ⟨first, h l (List.mem_cons_self ..)⟩
        (ih fun k hk => h k (List.mem_cons_of_mem l hk))

/-- Steps that meet a guard and keep `I` are good, and so are their runs. -/
theorem good {guard good : σ → ℓ → σ → Prop} {I : σ → Prop}
    (hgood : ∀ {s l t}, I s → step s l t → guard s l t → I t ∧ good s l t)
    (run : Run (fun s l t => step s l t ∧ guard s l t) s ls t) (h : I s) :
    Run (fun s l t => step s l t ∧ good s l t) s ls t := by
  induction run with
  | nil s => exact .nil s
  | cons first _ ih =>
      obtain ⟨hnext, hstep⟩ := hgood h first.1 first.2
      exact .cons ⟨first.1, hstep⟩ (ih hnext)

theorem append {u : σ} {ks : List ℓ} (first : Run step s ls t) (second : Run step t ks u) :
    Run step s (ls ++ ks) u := by
  induction first with
  | nil _ => exact second
  | cons head _ ih => exact .cons head (ih second)

end Run

theorem run_nil_iff {step : σ → ℓ → σ → Prop} {s t : σ} : Run step s [] t ↔ t = s := by
  constructor
  · intro run
    cases run
    rfl
  · rintro rfl
    exact .nil _

theorem run_cons_iff {step : σ → ℓ → σ → Prop} {s u : σ} {l : ℓ} {ls : List ℓ} :
    Run step s (l :: ls) u ↔ ∃ t, step s l t ∧ Run step t ls u := by
  constructor
  · intro run
    cases run with
    | cons first rest => exact ⟨_, first, rest⟩
  · rintro ⟨t, first, rest⟩
    exact .cons first rest

/-- A run over a concatenation is a run over each part, through a state between. -/
theorem run_append_iff {step : σ → ℓ → σ → Prop} {s u : σ} {ls ks : List ℓ} :
    Run step s (ls ++ ks) u ↔ ∃ t, Run step s ls t ∧ Run step t ks u := by
  constructor
  · intro run
    induction ls generalizing s with
    | nil => exact ⟨s, .nil s, run⟩
    | cons l ls ih =>
        obtain ⟨t, first, rest⟩ := run_cons_iff.mp run
        obtain ⟨v, left, right⟩ := ih rest
        exact ⟨v, .cons first left, right⟩
  · rintro ⟨t, left, right⟩
    exact left.append right

/-- Where a step is good exactly when it meets its guard, and such steps keep `I`, the runs
of good steps are the runs whose steps all meet their guards. What `J` says, every step keeps. -/
theorem run_good_iff {step good guard : σ → ℓ → σ → Prop} {I J : σ → Prop}
    (hkeep : ∀ {s l t}, J s → step s l t → J t)
    (hgood : ∀ {s l t}, J s → I s → step s l t → (good s l t ↔ guard s l t))
    (hguard : ∀ {s l t}, J s → I s → step s l t → guard s l t → I t) {s t : σ} {ls : List ℓ}
    (hJ : J s) (hI : I s) :
    Run (fun s l t => step s l t ∧ good s l t) s ls t ↔
      Run (fun s l t => step s l t ∧ guard s l t) s ls t := by
  induction ls generalizing s with
  | nil => rw [run_nil_iff, run_nil_iff]
  | cons l ls ih =>
      rw [run_cons_iff, run_cons_iff]
      constructor
      · rintro ⟨u, ⟨first, hu⟩, rest⟩
        have hmeets := (hgood hJ hI first).mp hu
        exact ⟨u, ⟨first, hmeets⟩, (ih (hkeep hJ first) (hguard hJ hI first hmeets)).mp rest⟩
      · rintro ⟨u, ⟨first, hmeets⟩, rest⟩
        exact ⟨u, ⟨first, (hgood hJ hI first).mpr hmeets⟩,
          (ih (hkeep hJ first) (hguard hJ hI first hmeets)).mpr rest⟩

/-- Where a step keeps `I` exactly when its guard holds, the runs that keep `I` throughout
are the runs whose steps all meet their guards. -/
theorem run_guarded_iff {step : σ → ℓ → σ → Prop} {I J : σ → Prop} {guard : σ → ℓ → Prop}
    (hkeep : ∀ {s l t}, J s → step s l t → J t)
    (hguard : ∀ {s l t}, J s → I s → step s l t → (I t ↔ guard s l)) {s t : σ} {ls : List ℓ}
    (hJ : J s) (hI : I s) :
    Run (fun s l t => step s l t ∧ I t) s ls t ↔
      Run (fun s l t => step s l t ∧ guard s l) s ls t := by
  have hgood : ∀ {s : σ} {l : ℓ} {t : σ}, J s → I s → step s l t → guard s l → I t :=
    fun hJ hI first hmeets => (hguard hJ hI first).mpr hmeets
  exact @run_good_iff σ ℓ step (fun _ _ t => I t) (fun s l _ => guard s l) I J hkeep hguard hgood
    s t ls hJ hI

/-! ### Loops with fuel -/

/-- A loop that passes through numbered places, each of which either stops it or leads to the
next one, returns with enough fuel exactly when some place from the first on stops it. -/
theorem fuel_returns_iff {α β : Type} (loop : Nat → α → Option β) (here : Nat → α → Prop)
    {stops : Nat → Prop} (hempty : ∀ a, loop 0 a = none)
    (hgo : ∀ {n a}, here n a → ¬ stops n → ∃ b, here (n + 1) b ∧
      ∀ fuel, loop (fuel + 1) a = loop fuel b)
    (hstop : ∀ {n a}, here n a → stops n → ∀ fuel, loop (fuel + 1) a ≠ none) {n : Nat} {a : α}
    (hstart : here n a) : (∃ fuel, loop fuel a ≠ none) ↔ ∃ k ≥ n, stops k := by
  constructor
  · rintro ⟨fuel, hreturns⟩
    induction fuel generalizing n a with
    | zero => exact absurd (hempty a) hreturns
    | succ fuel ih =>
        by_cases hn : stops n
        · exact ⟨n, le_refl n, hn⟩
        · obtain ⟨b, hnext, hround⟩ := hgo hstart hn
          rw [hround] at hreturns
          obtain ⟨k, hk, hstops⟩ := ih hnext hreturns
          exact ⟨k, Nat.le_of_succ_le hk, hstops⟩
  · rintro ⟨k, hk, hstops⟩
    obtain ⟨m, rfl⟩ := Nat.exists_eq_add_of_le hk
    induction m generalizing n a with
    | zero => exact ⟨1, hstop hstart hstops 0⟩
    | succ m ih =>
        by_cases hn : stops n
        · exact ⟨1, hstop hstart hn 0⟩
        · obtain ⟨b, hnext, hround⟩ := hgo hstart hn
          have hplace : n + (m + 1) = n + 1 + m := by omega
          rw [hplace] at hstops
          obtain ⟨fuel, hreturns⟩ := ih hnext (Nat.le_add_right _ _) hstops
          exact ⟨fuel + 1, hround fuel ▸ hreturns⟩

/-! ### Nested calls -/

/-- Where every call has less weight than its caller by what the caller counts, no chain of
nested calls counts more than the weight of its first. -/
theorem countP_le_weight {α : Type} {calls : α → α → Prop} {counted : α → Bool}
    {weight : α → Nat} {I : α → Prop}
    (hstep : ∀ {a b}, I a → calls a b →
      I b ∧ weight b + (if counted a then 1 else 0) ≤ weight a)
    (hlast : ∀ {a}, I a → (if counted a then 1 else 0) ≤ weight a) {a : α} {rest : List α}
    (hI : I a) (chain : List.IsChain calls (a :: rest)) :
    (a :: rest).countP counted ≤ weight a := by
  induction rest generalizing a with
  | nil =>
      rw [List.countP_singleton]
      exact hlast hI
  | cons b rest ih =>
      obtain ⟨hcall, chain⟩ := List.isChain_cons_cons.mp chain
      obtain ⟨hI', hless⟩ := hstep hI hcall
      have hrest := ih hI' chain
      rw [List.countP_cons]
      omega

end Lib
