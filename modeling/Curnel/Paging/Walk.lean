/-
What a walk does to the tree of page tables.

A walk that allocates may add empty tables on the path of its address; `Grows`
says that this is all: leaf entries stay, and every table reached stays where it
is. Each level of the walk grows the tree (`pagingDescend_spec`), so the walk
does (`pagingWalk_spec`), whether it arrives or runs out of frames on the way.
-/

import Curnel.Paging.Tree

namespace Curnel.Paging

open Lib.Bytes Lib.Word Lib.Radix

/-- From `s` to `s'`, the tree at most gains empty tables. -/
structure Grows (s s' : State) : Prop where
  ok : TreeOk s'
  root : s'.vmm = s.vmm
  leaves : ∀ js j, js.length = 3 → leaf present child (tables s'.ram) s.vmm.pml4 js j
    = leaf present child (tables s.ram) s.vmm.pml4 js j
  reach : ∀ js f, js.length ≤ 3 → reach s js = some f → reach s' js = some f

namespace Grows

variable {s s' s'' : State}

theorem refl (ok : TreeOk s) : Grows s s :=
  ⟨ok, rfl, fun _ _ _ => rfl, fun _ _ _ h => h⟩

theorem trans (first : Grows s s') (second : Grows s' s'') : Grows s s'' := by
  refine ⟨second.ok, second.root.trans first.root, fun js j hjs => ?_, fun js f hjs h => ?_⟩
  · have hsecond := second.leaves js j hjs
    rw [first.root] at hsecond
    exact hsecond.trans (first.leaves js j hjs)
  · exact second.reach js f hjs (first.reach js f hjs h)

theorem leafEntry (grows : Grows s s') (virtAddr : Nat) :
    leafEntry s' virtAddr = leafEntry s virtAddr := by
  unfold Paging.leafEntry
  rw [grows.root]
  exact grows.leaves (path virtAddr) (index 12 virtAddr) rfl

end Grows

/-! ### The two changes a level may make -/

theorem grows_takePage {s : State} {k : Nat} (ok : TreeOk s) (hfree : Free s k) :
    Grows s (pmmTakePage k s).2 := by
  refine ⟨ok.takePage hfree, pmmTakePage_vmm k s, fun js j hjs => ?_, fun js f hjs h => ?_⟩
  · exact leaf_takePage ok hfree (Nat.le_of_eq hjs) j
  · rw [reach_takePage ok hfree hjs]
    exact h

section Link

variable {s : State} {f a flags : Nat} {is : List (Fin 512)} {i : Fin 512} (ok : TreeOk s)
  (hparent : reach s is = some f) (hlen : is.length < 3)
  (habsent : present (tables s.ram f i) = false) (hpage : TableOk s (PAGE_SIZE * a))
  (hempty : ∀ j, tables s.ram (PAGE_SIZE * a) j = 0) (hnull : PAGE_SIZE * a ≠ NULL)
  (hfresh : ∀ js, js.length ≤ 3 → reach s js ≠ some (PAGE_SIZE * a)) (ha : a < 2 ^ 40)
  (hflags : PAGE_PRESENT ||| flags < 2 ^ 12)
include ok hparent hlen habsent hpage hempty hnull hfresh ha hflags

/-- Linking an empty page that the tree does not know yet makes it a table of the
tree and changes no leaf. -/
theorem grows_link :
    Grows s (setEntry s f i (PAGE_SIZE * a + (PAGE_PRESENT ||| flags))) ∧
      reach (setEntry s f i (PAGE_SIZE * a + (PAGE_PRESENT ||| flags))) (is ++ [i])
        = some (PAGE_SIZE * a) := by
  set entry := PAGE_SIZE * a + (PAGE_PRESENT ||| flags) with hentry
  have hf : TableOk s f := ok.table is f (by omega) hparent
  have hentry_lt : entry < 2 ^ 64 := by
    simp only [hentry, PAGE_SIZE]
    omega
  have hsame := tables_setEntry_same (s := s) (f := f) (i := i) hentry_lt
  have hchild : child (tables (setEntry s f i entry).ram f i) = PAGE_SIZE * a := by
    rw [hsame]
    exact child_eq ha hflags
  have hlink : present (tables (setEntry s f i entry).ram f i) = true := by
    rw [hsame]
    exact present_add
  have hparent_ne : f ≠ PAGE_SIZE * a := by
    rintro rfl
    exact hfresh is (by omega) hparent
  have hempty' : ∀ j, present (tables (setEntry s f i entry).ram
      (child (tables (setEntry s f i entry).ram f i)) j) = false := by
    intro j
    rw [hchild, tables_setEntry_other hf.aligned hpage.aligned fun h => hparent_ne h.1.symm,
      hempty j]
    rfl
  have hfresh' : ∀ js, js.length ≤ 3 → follow present child (tables s.ram) s.vmm.pml4 js
      ≠ some (child (tables (setEntry s f i entry).ram f i)) := by
    rw [hchild]
    exact hfresh
  have hother := @TreeOk.tables_setEntry s f entry i ok hf
  have hreach : ∀ js, js.length ≤ 3 → reach (setEntry s f i entry) js
      = if js = is ++ [i] then some (PAGE_SIZE * a) else reach s js := by
    intro js hjs
    have rule := follow_link ok.separated hparent habsent hlink hempty' hfresh' hlen hother hjs
    rw [hchild] at rule
    exact rule
  refine ⟨⟨⟨ok.frames.setEntry hf, ?_, fun js g hjs hg => ?_, fun js g hjs hne hg => ?_⟩,
    rfl, fun js j hjs => ?_, fun js g hjs hg => ?_⟩, ?_⟩
  · exact separated_link ok.separated hparent habsent hlink hempty' hfresh' hlen hother
  · rw [hreach js hjs] at hg
    split at hg
    next =>
      cases hg
      exact hpage.setEntry hf
    next => exact (ok.table js g hjs hg).setEntry hf
  · rw [hreach js hjs] at hg
    split at hg
    next =>
      cases hg
      exact hnull
    next => exact ok.nonnull js g hjs hne hg
  · exact leaf_link ok.separated hparent habsent hlink hempty' hfresh' hlen hother hjs j
  · rw [hreach js hjs, if_neg]
    · exact hg
    · -- the new path led nowhere before
      rintro rfl
      obtain ⟨f', hf', hpresent, -⟩ := follow_concat_eq_some hg
      have hsame_f : f' = f := Option.some.inj (hf'.symm.trans hparent)
      rw [hsame_f, habsent] at hpresent
      cases hpresent
  · rw [hreach (is ++ [i]) (by simp; omega), if_pos rfl]

end Link

/-! ### One level -/

/-- The state after a search for a frame that was of no avail. -/
def OutOfFrames (s : State) : Prop := ∃ t, pmmAllocPage t = (NULL, s)

theorem pagingDescend_present {f : Nat} {i : Fin 512} {alloc : Bool} {flags : Nat} {s : State}
    (h : present (tables s.ram f i) = true) :
    pagingDescend f i alloc flags s = (some (child (tables s.ram f i)), s) := by
  have hgo : ¬ entryAt s.ram (entryPtr f i) &&& PAGE_PRESENT = 0 := of_decide_eq_true h
  simp only [pagingDescend]
  rw [if_neg hgo]
  rfl

theorem pagingDescend_absent {f : Nat} {i : Fin 512} {flags : Nat} {s : State}
    (h : present (tables s.ram f i) = false) :
    pagingDescend f i false flags s = (none, s) := by
  have hgo : entryAt s.ram (entryPtr f i) &&& PAGE_PRESENT = 0 := present_eq_false_iff.mp h
  simp only [pagingDescend]
  rw [if_pos hgo, if_pos trivial]

theorem pagingDescend_alloc {f : Nat} {i : Fin 512} {flags : Nat} {s : State}
    (h : present (tables s.ram f i) = false) :
    pagingDescend f i true flags s =
      if (pmmAllocPage s).1 = NULL then (none, (pmmAllocPage s).2)
      else
        (some (child (tables (setEntry (pmmAllocPage s).2 f i (pagingMakeEntry
            (pmmAllocPage s).1 (PAGE_PRESENT ||| PAGE_WRITABLE ||| flags))).ram f i)),
          setEntry (pmmAllocPage s).2 f i (pagingMakeEntry
            (pmmAllocPage s).1 (PAGE_PRESENT ||| PAGE_WRITABLE ||| flags))) := by
  have hgo : entryAt s.ram (entryPtr f i) &&& PAGE_PRESENT = 0 := present_eq_false_iff.mp h
  simp only [pagingDescend]
  rw [if_pos hgo, if_neg (by decide)]
  rfl

/-- With `alloc`, a level grows the tree: it arrives at the next table, or finds no frame. -/
theorem pagingDescend_spec {f flags : Nat} {is : List (Fin 512)} {i : Fin 512} {s : State}
    (ok : TreeOk s) (hparent : reach s is = some f) (hlen : is.length < 3)
    (hflags : flags < 2 ^ 12) :
    ∃ s', Grows s s' ∧
      (pagingDescend f i true flags s = (none, s') ∧ OutOfFrames s' ∨
        ∃ g, pagingDescend f i true flags s = (some g, s') ∧ reach s' (is ++ [i]) = some g) := by
  cases hentry : present (tables s.ram f i) with
  | true =>
      refine ⟨s, Grows.refl ok, Or.inr ⟨_, pagingDescend_present hentry, ?_⟩⟩
      unfold reach at hparent ⊢
      rw [follow_concat, hparent]
      simp [hentry]
  | false =>
      have hbody := @pagingDescend_alloc f i flags s hentry
      rcases pmmAllocPage_spec ok.frames.addressable with ⟨hnone, -⟩ | ⟨k, hfree, htake⟩
      · refine ⟨s, Grows.refl ok, Or.inl ⟨?_, s, hnone⟩⟩
        rw [hbody, hnone, if_pos rfl]
      · have hpage := takePage_addr ok.frames.addressable hfree
        have grown := grows_takePage ok hfree
        by_cases hnull : PAGE_SIZE * k = NULL
        · refine ⟨_, grown, Or.inl ⟨?_, s, ?_⟩⟩
          · rw [hbody, htake, hpage, if_pos hnull]
          · rw [htake, ← hpage.trans hnull]
        · have hk : k < 2 ^ 40 := lt_of_lt_of_le hfree.1 ok.frames.bound
          have hflags' : PAGE_PRESENT ||| (PAGE_WRITABLE ||| flags) < 2 ^ 12 :=
            flags_lt (Nat.or_lt_two_pow (by decide) hflags)
          have hmade : pagingMakeEntry (PAGE_SIZE * k) (PAGE_PRESENT ||| PAGE_WRITABLE ||| flags)
              = PAGE_SIZE * k + (PAGE_PRESENT ||| (PAGE_WRITABLE ||| flags)) := by
            rw [Nat.or_assoc]
            exact pagingMakeEntry_eq hk hflags'
          have habsent' : present (tables (pmmTakePage k s).2.ram f i) = false := by
            rw [tables_takePage ok.frames hfree (ok.table is f (by omega) hparent)]
            exact hentry
          have hfresh : ∀ js, js.length ≤ 3 →
              reach (pmmTakePage k s).2 js ≠ some (PAGE_SIZE * k) := by
            intro js hjs
            rw [reach_takePage ok hfree hjs]
            exact reach_ne_fresh ok hfree hjs
          obtain ⟨linked, hreach⟩ := grows_link grown.ok
            (grown.reach is f (by omega) hparent) hlen habsent'
            (tableOk_takePage_fresh ok.frames hfree) (tables_takePage_fresh ok.frames hfree)
            hnull hfresh hk hflags'
          refine ⟨_, grown.trans linked, Or.inr ⟨PAGE_SIZE * k, ?_, hreach⟩⟩
          have hlt : PAGE_SIZE * k + (PAGE_PRESENT ||| (PAGE_WRITABLE ||| flags)) < 2 ^ 64 := by
            simp only [PAGE_SIZE]
            omega
          rw [hbody, htake, hpage, if_neg hnull, hmade, tables_setEntry_same hlt,
            child_eq hk hflags']

/-! ### The walk -/

theorem pagingWalk_eq (virtAddr flags : Nat) (alloc : Bool) (s : State) :
    pagingWalk virtAddr alloc flags s =
      match pagingDescend s.vmm.pml4 (index 39 virtAddr) alloc flags s with
      | (none, s) => (NULL, s)
      | (some pdpt, s) =>
          match pagingDescend pdpt (index 30 virtAddr) alloc flags s with
          | (none, s) => (NULL, s)
          | (some pd, s) =>
              match pagingDescend pd (index 21 virtAddr) alloc flags s with
              | (none, s) => (NULL, s)
              | (some pt, s) => (entryPtr pt (index 12 virtAddr), s) := rfl

/-- With `alloc`, a walk grows the tree: it arrives at the leaf entry of its
address, or finds no frame. -/
theorem pagingWalk_spec (virtAddr : Nat) {flags : Nat} {s : State} (ok : TreeOk s)
    (hflags : flags < 2 ^ 12) :
    ∃ s', Grows s s' ∧
      (pagingWalk virtAddr true flags s = (NULL, s') ∧ OutOfFrames s' ∨
        ∃ pt, pagingWalk virtAddr true flags s = (entryPtr pt (index 12 virtAddr), s') ∧
          reach s' (path virtAddr) = some pt) := by
  rw [pagingWalk_eq]
  have hroot : reach s [] = some s.vmm.pml4 := rfl
  obtain ⟨s₁, grown₁, ⟨hrun₁, hout⟩ | ⟨pdpt, hrun₁, hpdpt⟩⟩ :=
    pagingDescend_spec (i := index 39 virtAddr) ok hroot (by decide) hflags
  · exact ⟨s₁, grown₁, Or.inl ⟨by rw [hrun₁], hout⟩⟩
  obtain ⟨s₂, grown₂, ⟨hrun₂, hout⟩ | ⟨pd, hrun₂, hpd⟩⟩ :=
    pagingDescend_spec (i := index 30 virtAddr) grown₁.ok hpdpt (by simp) hflags
  · exact ⟨s₂, grown₁.trans grown₂, Or.inl ⟨by rw [hrun₁]; simp only [hrun₂], hout⟩⟩
  obtain ⟨s₃, grown₃, ⟨hrun₃, hout⟩ | ⟨pt, hrun₃, hpt⟩⟩ :=
    pagingDescend_spec (i := index 21 virtAddr) grown₂.ok hpd (by simp) hflags
  · exact ⟨s₃, grown₁.trans (grown₂.trans grown₃),
      Or.inl ⟨by rw [hrun₁]; simp only [hrun₂, hrun₃], hout⟩⟩
  · exact ⟨s₃, grown₁.trans (grown₂.trans grown₃),
      Or.inr ⟨pt, by rw [hrun₁]; simp only [hrun₂, hrun₃], hpt⟩⟩

/-- Without `alloc`, a walk arrives where the path of its address leads. -/
theorem pagingWalk_lookup (virtAddr flags : Nat) (s : State) :
    (pagingWalk virtAddr false flags s).1 =
      match reach s (path virtAddr) with
      | none => NULL
      | some pt => entryPtr pt (index 12 virtAddr) := by
  have level : ∀ (f : Nat) (i : Fin 512), pagingDescend f i false flags s
      = (if present (tables s.ram f i) then some (child (tables s.ram f i)) else none, s) := by
    intro f i
    cases h : present (tables s.ram f i) with
    | false => exact pagingDescend_absent h
    | true => exact pagingDescend_present h
  simp only [pagingWalk_eq, level, reach, path, follow]
  generalize tables s.ram s.vmm.pml4 (index 39 virtAddr) = first
  cases present first with
  | false => rfl
  | true =>
      simp only [if_true, level]
      generalize tables s.ram (child first) (index 30 virtAddr) = second
      cases present second with
      | false => rfl
      | true =>
          simp only [if_true, level]
          generalize tables s.ram (child second) (index 21 virtAddr) = third
          cases present third <;> rfl

/-- A walk along a path that is there already allocates nothing. -/
theorem pagingWalk_found {virtAddr flags pt : Nat} {alloc : Bool} {s : State}
    (h : reach s (path virtAddr) = some pt) :
    pagingWalk virtAddr alloc flags s = (entryPtr pt (index 12 virtAddr), s) := by
  simp only [reach, path, follow] at h
  split at h
  next h₁ =>
    split at h
    next h₂ =>
      split at h
      next h₃ =>
        cases h
        rw [pagingWalk_eq, pagingDescend_present h₁]
        simp only [pagingDescend_present h₂, pagingDescend_present h₃]
      next => cases h
    next => cases h
  next => cases h

/-! ### Unmapping -/

@[simp] theorem pagingUnmapPage_vmm (v : Nat) (s : State) : (pagingUnmapPage v s).vmm = s.vmm := by
  have hwalk := congrArg State.vmm (pagingWalk_state v 0 s)
  simp only [pagingUnmapPage]
  split
  · exact hwalk
  · exact hwalk

theorem pagingUnmapPage_of_unreached {s : State} {v : Nat} (h : reach s (path v) = none) :
    pagingUnmapPage v s = s := by
  have hlookup := pagingWalk_lookup v 0 s
  rw [h] at hlookup
  simp only [pagingUnmapPage]
  rw [if_pos hlookup, pagingWalk_state]

theorem pagingUnmapPage_of_reach {s : State} {v pt : Nat} (h : reach s (path v) = some pt)
    (hptr : entryPtr pt (index 12 v) ≠ NULL) :
    pagingUnmapPage v s = setEntry s pt (index 12 v) 0 := by
  simp only [pagingUnmapPage]
  rw [pagingWalk_found h]
  exact if_neg hptr

end Curnel.Paging
