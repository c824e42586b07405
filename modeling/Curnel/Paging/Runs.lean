/-
The page tables implement a finite map.

`PageMap` is what the tree of page tables is for: a finite map from the bits 12
to 47 of a virtual address to a physical page with its flags. `MapStep` says
what mapping and unmapping a page do to it. `paging_refines_map` shows that every
run of `paging_map_page` and `paging_unmap_page` from an empty root is a run of
that map: it has the same results, the present leaf entries are those of the
map, and `paging_get_physical_address` reads it.
-/

import Curnel.Paging.Walk
import Curnel.Lib.Run
import Mathlib.Data.Finmap

namespace Curnel.Paging

open Lib Lib.Bytes Lib.Word Lib.Radix

/-! ### The map -/

/-- Bits 12 to 47 of a virtual address. -/
def pageKey (virtAddr : Nat) : Nat := virtAddr / 2 ^ 12 % 2 ^ 36

/-- A page and the flags it is mapped with. -/
structure Mapping where
  physAddr : Nat
  flags : Nat
  aligned : PAGE_SIZE ∣ physAddr
  physAddr_lt : physAddr < 2 ^ 52
  flags_lt : flags < 2 ^ 12

/-- The leaf entry of a mapping: the page, present, with the flags. -/
def Mapping.entry (m : Mapping) : Nat := m.physAddr ||| (PAGE_PRESENT ||| m.flags)

abbrev PageMap := Finmap fun _ : Nat => Mapping

/-- A call and what it reports: the result of `paging_map_page`, and whether its
walk ran out of frames. -/
inductive Event where
  | mapPage (m : Mapping) (virtAddr : Nat) (result : Nat) (outOfFrames : Bool)
  | unmapPage (virtAddr : Nat)

inductive MapStep : PageMap → Event → PageMap → Prop where
  /-- A page that is bound already stays as it is. -/
  | bound {M : PageMap} {m : Mapping} {v : Nat} :
      pageKey v ∈ M → MapStep M (.mapPage m v NULL false) M
  | outOfFrames {M : PageMap} {m : Mapping} {v : Nat} :
      pageKey v ∉ M → MapStep M (.mapPage m v NULL true) M
  /-- Success reports the page of the address. -/
  | added {M : PageMap} {m : Mapping} {v : Nat} :
      pageKey v ∉ M →
      MapStep M (.mapPage m v (PAGE_SIZE * (v / PAGE_SIZE)) false) (M.insert (pageKey v) m)
  | removed {M : PageMap} {v : Nat} : MapStep M (.unmapPage v) (M.erase (pageKey v))

/-! ### The code -/

inductive Step : State → Event → State → Prop where
  | mapPage {s s' : State} {m : Mapping} {v result : Nat} :
      v < 2 ^ 64 → pagingMapPage m.physAddr v m.flags s = (result, s') →
      Step s (.mapPage m v result
        (decide ((pagingWalk (v &&& PAGE_MASK) true m.flags s).1 = NULL))) s'
  | unmapPage {s : State} {v : Nat} : v < 2 ^ 64 → Step s (.unmapPage v) (pagingUnmapPage v s)

/-- An all-zero root, in memory that the frame allocator never hands out, as it
never hands out its own bitmap; physical addresses have 52 bits. -/
structure EmptyRoot (s : State) : Prop where
  aligned : PAGE_SIZE ∣ s.vmm.pml4
  zero : ∀ i < 512, entryAt s.ram (entryPtr s.vmm.pml4 i) = 0
  spared : Spared s s.vmm.pml4 PAGE_SIZE
  bitmapSpared : Spared s s.pmm.bitmap s.pmm.bitmapSize
  clear : s.vmm.pml4 + PAGE_SIZE ≤ s.pmm.bitmap ∨ s.pmm.bitmap + s.pmm.bitmapSize ≤ s.vmm.pml4
  bound : s.pmm.bitmapSize * 8 ≤ 2 ^ 40

/-- The present leaf entries are those of `M`, and lookups read `M`. -/
structure Represents (s : State) (M : PageMap) : Prop where
  leaves : ∀ v, leafEntry s v = (M.lookup (pageKey v)).map Mapping.entry
  physical : ∀ v m, M.lookup (pageKey v) = some m →
    pagingGetPhysicalAddress v s = m.physAddr + v % PAGE_SIZE

theorem treeOk_of_emptyRoot {s : State} (root : EmptyRoot s) : TreeOk s := by
  have habsent : ∀ i, present (tables s.ram s.vmm.pml4 i) = false := by
    intro i
    rw [present_eq_false_iff, tables, root.zero i i.isLt]
    rfl
  refine ⟨⟨root.bound, root.bitmapSpared⟩, separated_of_empty habsent 3,
    fun is f _ hf => ?_, fun is f _ hne hf => ?_⟩
  · obtain ⟨-, rfl⟩ := follow_of_empty habsent hf
    exact ⟨root.aligned, root.spared, root.clear⟩
  · exact absurd (follow_of_empty habsent hf).1 hne

/-! ### Keys and entries -/

/-- The key of an address is its path and its place in the leaf table. -/
theorem pageKey_eq_iff {v w : Nat} :
    path v = path w ∧ index 12 v = index 12 w ↔ pageKey v = pageKey w := by
  simp only [path, List.cons.injEq, Fin.ext_iff, index_val, pageKey, and_true]
  omega

theorem leafEntry_congr {s : State} {v w : Nat} (h : pageKey v = pageKey w) :
    leafEntry s v = leafEntry s w := by
  obtain ⟨hpath, hindex⟩ := pageKey_eq_iff.mpr h
  rw [leafEntry, leafEntry, hpath, hindex]

namespace Mapping

variable (m : Mapping)

theorem entry_eq : m.entry = m.physAddr + (PAGE_PRESENT ||| m.flags) := by
  obtain ⟨a, ha⟩ := m.aligned
  have hlow := lor_low a (PAGE_PRESENT ||| m.flags) 12 (Paging.flags_lt m.flags_lt)
  have hphys : m.physAddr = a * 2 ^ 12 := by
    rw [ha, PAGE_SIZE]
    omega
  rw [entry, hphys, hlow]

theorem frame_lt {a : Nat} (ha : m.physAddr = PAGE_SIZE * a) : a < 2 ^ 40 := by
  have hlt := m.physAddr_lt
  rw [ha, PAGE_SIZE] at hlt
  omega

theorem pagingMakeEntry_eq : pagingMakeEntry m.physAddr (PAGE_PRESENT ||| m.flags) = m.entry := by
  obtain ⟨a, ha⟩ := m.aligned
  rw [entry_eq, ha]
  exact Paging.pagingMakeEntry_eq (m.frame_lt ha) (Paging.flags_lt m.flags_lt)

theorem entry_lt : m.entry < 2 ^ 64 := by
  have hphys := m.physAddr_lt
  have hflags := Paging.flags_lt m.flags_lt
  rw [entry_eq]
  omega

theorem present_entry : present m.entry = true := by
  obtain ⟨a, ha⟩ := m.aligned
  rw [entry_eq, ha]
  exact present_add

theorem child_entry : child m.entry = m.physAddr := by
  obtain ⟨a, ha⟩ := m.aligned
  rw [entry_eq, ha]
  exact child_eq (m.frame_lt ha) (Paging.flags_lt m.flags_lt)

end Mapping

/-! ### Lookups -/

/-- The pointer to a leaf entry is not null: the tables below the root are not. -/
theorem leafPtr_ne_null {s : State} {v pt : Nat} (ok : TreeOk s)
    (h : reach s (path v) = some pt) : entryPtr pt (index 12 v) ≠ NULL := by
  have hne : pt ≠ NULL := ok.nonnull (path v) pt (le_refl 3) (List.cons_ne_nil _ _) h
  have hrange := entryPtr_range pt (index 12 v)
  exact Nat.pos_iff_ne_zero.mp (lt_of_lt_of_le (Nat.pos_of_ne_zero hne) hrange.1)

/-- `paging_get_physical_address` of an address whose leaf entry is that of `m`. -/
theorem pagingGetPhysicalAddress_eq {s : State} {v : Nat} {m : Mapping} (ok : TreeOk s)
    (h : leafEntry s v = some m.entry) :
    pagingGetPhysicalAddress v s = m.physAddr + v % PAGE_SIZE := by
  obtain ⟨pt, hpt, hentry, -⟩ := reach_of_leafEntry h
  have hoffset : v &&& 0xFFF = v % PAGE_SIZE := Nat.and_two_pow_sub_one_eq_mod v 12
  obtain ⟨a, ha⟩ := m.aligned
  have hphys : m.physAddr = a * 2 ^ 12 := by
    rw [ha, PAGE_SIZE]
    omega
  have hjoin := lor_low a (v % PAGE_SIZE) 12 (Nat.mod_lt _ (by decide))
  have hmasked : entryAt s.ram (entryPtr pt (index 12 v)) &&& ADDRESS_MASK = m.physAddr := by
    rw [← m.child_entry, ← hentry]
    rfl
  simp only [pagingGetPhysicalAddress]
  rw [pagingWalk_found hpt]
  simp only
  rw [if_neg (leafPtr_ne_null ok hpt), hmasked, hoffset, hphys, hjoin]

/-- Where the leaf entries are those of `M`, lookups read `M`. -/
theorem represents_of_leaves {s : State} {M : PageMap} (ok : TreeOk s)
    (h : ∀ v, leafEntry s v = (M.lookup (pageKey v)).map Mapping.entry) : Represents s M := by
  refine ⟨h, fun v m hm => pagingGetPhysicalAddress_eq ok ?_⟩
  rw [h v, hm]
  rfl

theorem Represents.mem_iff {s : State} {M : PageMap} (rep : Represents s M) (v : Nat) :
    pageKey v ∈ M ↔ ∃ entry, leafEntry s v = some entry := by
  rw [rep.leaves v, Finmap.mem_iff]
  cases M.lookup (pageKey v) <;> simp

theorem Represents.grows {s s' : State} {M : PageMap} (rep : Represents s M)
    (grown : Grows s s') : Represents s' M :=
  represents_of_leaves grown.ok fun v => (grown.leafEntry v).trans (rep.leaves v)

/-! ### Writing a leaf entry -/

/-- Writing the leaf entry of `v` changes the leaf entry of its key only. -/
theorem leafEntry_setLeaf {s : State} {v pt entry : Nat} (ok : TreeOk s)
    (hpt : reach s (path v) = some pt) (hentry : entry < 2 ^ 64) (w : Nat) :
    leafEntry (setEntry s pt (index 12 v) entry) w
      = if pageKey w = pageKey v then (if present entry then some entry else none)
        else leafEntry s w := by
  have hlen : ∀ u, (path u).length = 3 := fun _ => rfl
  have hok := ok.table (path v) pt (le_refl 3) hpt
  have rule := leaf_set ok.separated hpt (hlen v)
    (@TreeOk.tables_setEntry s pt entry (index 12 v) ok hok) (hlen w) (index 12 w)
  rw [tables_setEntry_same hentry] at rule
  refine rule.trans ?_
  simp only [pageKey_eq_iff]
  rfl

/-- Writing the leaf entry of `v` as a change of the map at its key. -/
theorem represents_setLeaf {s : State} {M M' : PageMap} {v pt entry : Nat} (ok : TreeOk s)
    (rep : Represents s M) (hpt : reach s (path v) = some pt) (hentry : entry < 2 ^ 64)
    (hhere : (M'.lookup (pageKey v)).map Mapping.entry
      = if present entry then some entry else none)
    (helse : ∀ k, k ≠ pageKey v → M'.lookup k = M.lookup k) :
    TreeOk (setEntry s pt (index 12 v) entry) ∧
      Represents (setEntry s pt (index 12 v) entry) M' := by
  have ok' : TreeOk (setEntry s pt (index 12 v) entry) := ok.setLeaf hpt rfl
  refine ⟨ok', represents_of_leaves ok' fun w => ?_⟩
  rw [leafEntry_setLeaf ok hpt hentry]
  split
  next hkey => rw [hkey, hhere]
  next hkey => rw [rep.leaves w, helse _ hkey]

/-! ### One call -/

/-- Mapping a page is a step of the map. -/
theorem pagingMapPage_spec {s s' : State} {M : PageMap} {m : Mapping} {v result : Nat}
    (ok : TreeOk s) (rep : Represents s M) (hv : v < 2 ^ 64)
    (hrun : pagingMapPage m.physAddr v m.flags s = (result, s')) :
    ∃ M', MapStep M (.mapPage m v result
        (decide ((pagingWalk (v &&& PAGE_MASK) true m.flags s).1 = NULL))) M' ∧
      TreeOk s' ∧ Represents s' M' := by
  simp only [pagingMapPage] at hrun
  rw [and_pageMask hv, pagingWalk_page] at hrun ⊢
  obtain ⟨s₁, grown, ⟨hwalk, -⟩ | ⟨pt, hwalk, hpt⟩⟩ := pagingWalk_spec v ok m.flags_lt
  · rw [hwalk] at hrun ⊢
    cases hrun
    refine ⟨M, .outOfFrames fun hbound => ?_, grown.ok, rep.grows grown⟩
    -- a bound key has its tables already, and the walk finds them
    obtain ⟨entry, hentry⟩ := (rep.mem_iff v).mp hbound
    obtain ⟨pt, hpt, -⟩ := reach_of_leafEntry hentry
    rw [pagingWalk_found hpt] at hwalk
    exact leafPtr_ne_null ok hpt (congrArg Prod.fst hwalk)
  · have hptr := leafPtr_ne_null grown.ok hpt
    have rep₁ := rep.grows grown
    rw [hwalk] at hrun ⊢
    simp only [hptr, if_false, decide_false] at hrun ⊢
    cases hpresent : present (tables s₁.ram pt (index 12 v)) with
    | true =>
        have hcode : entryAt s₁.ram (entryPtr pt (index 12 v)) &&& PAGE_PRESENT ≠ 0 :=
          of_decide_eq_true hpresent
        rw [if_pos hcode] at hrun
        cases hrun
        have hentry := leafEntry_of_reach hpt
        rw [if_pos hpresent] at hentry
        exact ⟨M, .bound ((rep₁.mem_iff v).mpr ⟨_, hentry⟩), grown.ok, rep₁⟩
    | false =>
        have hcode : ¬ entryAt s₁.ram (entryPtr pt (index 12 v)) &&& PAGE_PRESENT ≠ 0 :=
          not_not.mpr (present_eq_false_iff.mp hpresent)
        rw [if_neg hcode] at hrun
        cases hrun
        refine ⟨M.insert (pageKey v) m, .added fun hbound => ?_, ?_⟩
        · obtain ⟨entry, hentry⟩ := (rep₁.mem_iff v).mp hbound
          rw [leafEntry_of_reach hpt, hpresent] at hentry
          cases hentry
        · rw [m.pagingMakeEntry_eq]
          refine represents_setLeaf grown.ok rep₁ hpt m.entry_lt ?_ fun k hk => ?_
          · rw [Finmap.lookup_insert, m.present_entry]
            rfl
          · exact Finmap.lookup_insert_of_ne M hk

/-- Unmapping a page is a step of the map. -/
theorem pagingUnmapPage_spec {s : State} {M : PageMap} {v : Nat} (ok : TreeOk s)
    (rep : Represents s M) :
    TreeOk (pagingUnmapPage v s) ∧ Represents (pagingUnmapPage v s) (M.erase (pageKey v)) := by
  cases hpt : reach s (path v) with
  | none =>
      have hunbound : M.lookup (pageKey v) = none := by
        rw [Finmap.lookup_eq_none, rep.mem_iff v]
        rintro ⟨entry, hentry⟩
        obtain ⟨pt, hpt', -⟩ := reach_of_leafEntry hentry
        rw [hpt] at hpt'
        cases hpt'
      rw [pagingUnmapPage_of_unreached hpt]
      refine ⟨ok, represents_of_leaves ok fun w => ?_⟩
      rw [rep.leaves w]
      by_cases hkey : pageKey w = pageKey v
      · rw [hkey, hunbound, Finmap.lookup_erase]
      · rw [Finmap.lookup_erase_ne hkey]
  | some pt =>
      rw [pagingUnmapPage_of_reach hpt (leafPtr_ne_null ok hpt)]
      refine represents_setLeaf ok rep hpt (by decide) ?_ fun k hk => ?_
      · rw [Finmap.lookup_erase]
        rfl
      · exact Finmap.lookup_erase_ne hk

/-! ### Runs -/

theorem paging_step {s s' : State} {M : PageMap} {event : Event} (ok : TreeOk s)
    (rep : Represents s M) (step : Step s event s') :
    ∃ M', MapStep M event M' ∧ TreeOk s' ∧ Represents s' M' := by
  cases step with
  | mapPage hv hcall => exact pagingMapPage_spec ok rep hv hcall
  | unmapPage hv => exact ⟨_, .removed, pagingUnmapPage_spec ok rep⟩

/-- **The page tables implement a finite map.** A run of `paging_map_page` and
`paging_unmap_page` from an empty root, out of frames or not, reports what the map
reports: mapping adds the binding of its page when it succeeds, and nothing when
the page is bound or the frames run out; unmapping removes the binding. At its
end the present leaf entries are the bindings of the map, and
`paging_get_physical_address` returns the bound page plus the page offset. -/
theorem paging_refines_map {s₀ s : State} {events : List Event} (root : EmptyRoot s₀)
    (run : Run Step s₀ events s) :
    ∃ M, Run MapStep ∅ events M ∧ Represents s M := by
  have ok₀ := treeOk_of_emptyRoot root
  have rep₀ : Represents s₀ ∅ := by
    refine represents_of_leaves ok₀ fun v => ?_
    have habsent : present (tables s₀.ram s₀.vmm.pml4 (index 39 v)) = false := by
      rw [present_eq_false_iff, tables, root.zero _ (index 39 v).isLt]
      rfl
    simp [leafEntry, leaf, path, follow, habsent]
  have hstep : ∀ s event s' M, TreeOk s ∧ Represents s M → Step s event s' →
      ∃ M', MapStep M event M' ∧ TreeOk s' ∧ Represents s' M' :=
    fun _ _ _ _ h step => paging_step h.1 h.2 step
  obtain ⟨M, hrun, -, rep⟩ :=
    run.simulation (R := fun s M => TreeOk s ∧ Represents s M) hstep ⟨ok₀, rep₀⟩
  exact ⟨M, hrun, rep⟩

/-- An empty root at 2 MB; of 16 frames, all but the first are free. -/
def emptyTree : State :=
  ⟨fun a => if a = 0x100000 then 1 else 0, ⟨0, 0, 0, 0, 2, 0x100000⟩, ⟨0x200000⟩⟩

theorem emptyRoot_emptyTree : EmptyRoot emptyTree := by
  have hlow : ∀ i, Free emptyTree i → PAGE_SIZE * i + PAGE_SIZE ≤ 0x100000 := by
    intro i hi
    have hbound : i < 16 := hi.1
    simp only [PAGE_SIZE]
    omega
  refine ⟨by decide, ?_, fun i hi => Or.inl ((hlow i hi).trans (by decide)),
    fun i hi => Or.inl (hlow i hi), Or.inr (by decide), by decide⟩
  intro i hi
  have hword : Set.EqOn emptyTree.ram (fun _ => 0)
      (Set.Ico (entryPtr 0x200000 i) (entryPtr 0x200000 i + 8)) := by
    intro a ha
    have := ha.1
    simp only [entryPtr] at this
    exact if_neg (by omega)
  exact (readLE_congr hword).trans (by rfl)

/-- A call of `paging_map_page` that has been evaluated, as a step. -/
theorem step_mapPage {s : State} {m : Mapping} {v result : Nat} {outOfFrames : Bool}
    (hv : v < 2 ^ 64)
    (heval : (pagingMapPage m.physAddr v m.flags s).1 = result ∧
      decide ((pagingWalk (v &&& PAGE_MASK) true m.flags s).1 = NULL) = outOfFrames) :
    Step s (.mapPage m v result outOfFrames) (pagingMapPage m.physAddr v m.flags s).2 := by
  obtain ⟨rfl, rfl⟩ := heval
  exact .mapPage hv rfl

/-- The page at 4 MB, for user code to write. -/
def userPage : Mapping := ⟨0x400000, 6, by decide, by decide, by decide⟩

/-- Mapped and then mapped again: the second call is refused. -/
theorem paging_refines_map_twice :
    ∃ M, Run MapStep ∅ [.mapPage userPage 0x400000 0x400000 false,
      .mapPage userPage 0x400FFF NULL false] M ∧
      ∃ s, Represents s M := by
  have first := @step_mapPage emptyTree userPage 0x400000 0x400000 false (by decide)
    (by decide +kernel)
  have second := @step_mapPage (pagingMapPage userPage.physAddr 0x400000 userPage.flags emptyTree).2
    userPage 0x400FFF NULL false (by decide) (by decide +kernel)
  obtain ⟨M, run, rep⟩ := paging_refines_map emptyRoot_emptyTree (.cons first (.single second))
  exact ⟨M, run, _, rep⟩

end Curnel.Paging
