/-
Who owns a frame: the kernel, one user process, or nobody.

`Owned` adds the pages to the forest: every present leaf entry refers to a page that no
other slot refers to. Each call that allocates, maps, unmaps or frees keeps it, with
all the ways back after a failure: a frame that was taken and is not in use yet is
`Loose` until it is mapped or given back.
-/

import Curnel.Paging.Lookup

namespace Curnel.Paging

open Lib Lib.Bytes Lib.Word Lib.Radix Lib.Ownership

/-- The forest, with the pages and the roots of the user processes. -/
structure Owned (p4 : Nat) (s : State) (own : Nat → Option Use) (roots : List Nat) : Prop where
  forest : Forest p4 s own
  pages : Typed (pageEdge s.ram) own
  root : ∀ r ∈ roots, own r = some Use.root
  notKernel : p4 ∉ roots
  nodup : roots.Nodup

/-- Frame `k` has been taken, and is not in use. -/
structure Loose (s : State) (own : Nat → Option Use) (k : Nat) : Prop where
  covered : k < s.pmm.bitmapSize * 8
  nonzero : k ≠ 0
  unused : own (PAGE_SIZE * k) = none
  taken : ¬ Free s k
  table : TableOk s (PAGE_SIZE * k)

/-- Above the leaf tables, what is present was so before, or is on the path of `v`. -/
def AddsOnPath (v : Nat) (s : State) (own : Nat → Option Use) (s' : State)
    (own' : Nat → Option Use) : Prop :=
  ∀ f u i, own' f = some u → u.depth < 3 → present (tables s'.ram f i) = true →
    own f = some u ∧ present (tables s.ram f i) = true ∨ i ∈ path v

/-- With another root to walk from. -/
def State.withRoot (s : State) (r : Nat) : State := { s with vmm := { s.vmm with pml4 := r } }

theorem Forest.withRoot {p4 : Nat} {s : State} {own : Nat → Option Use} (forest : Forest p4 s own)
    (r : Nat) : Forest p4 (s.withRoot r) own where
  frames := ⟨forest.frames.bound, forest.frames.bitmap⟩
  typed := forest.typed
  table := fun f u hu =>
    ⟨(forest.table f u hu).aligned, (forest.table f u hu).spared, (forest.table f u hu).clear⟩
  covered := forest.covered
  nonnull := forest.nonnull
  zero := forest.zero
  plain := forest.plain
  clean := forest.clean
  root := forest.root
  middle := forest.middle
  large := forest.large
  boot := forest.boot

/-! ### Pages -/

theorem pageEdge_of_present {m : Store} {u : Use} {f : Nat} {i : Fin 512} (hdepth : u.depth = 3)
    (h : present (tables m f i) = true) :
    pageEdge m u f i = some (child (tables m f i), ⟨4, some ⟨f, i⟩⟩) :=
  if_pos ⟨hdepth, h⟩

theorem pageEdge_eq_some {m : Store} {u l : Use} {f g : Nat} {i : Fin 512}
    (h : pageEdge m u f i = some (g, l)) :
    u.depth = 3 ∧ present (tables m f i) = true ∧ g = child (tables m f i) ∧
      l = ⟨4, some ⟨f, i⟩⟩ := by
  unfold pageEdge at h
  split at h
  next hpage =>
    obtain ⟨hg, hl⟩ := Prod.mk.inj (Option.some.inj h)
    exact ⟨hpage.1, hpage.2, hg.symm, hl.symm⟩
  next => cases h

theorem pageEdge_congr {m m' : Store} {u : Use} {f : Nat} {i : Fin 512}
    (h : u.depth = 3 → tables m' f i = tables m f i) : pageEdge m' u f i = pageEdge m u f i := by
  unfold pageEdge
  by_cases hdepth : u.depth = 3
  · rw [h hdepth]
  · rw [if_neg fun hp => hdepth hp.1, if_neg fun hp => hdepth hp.1]

/-- Writing to a page leaves the slots of other tables alone. -/
theorem tables_of_frame {m m' : Store} {f k : Nat} (hf : PAGE_SIZE ∣ f) (hne : f ≠ PAGE_SIZE * k)
    (frame : Frame m m' (PAGE_SIZE * k) (PAGE_SIZE * k + PAGE_SIZE)) (i : Fin 512) :
    tables m' f i = tables m f i := by
  have hrange := entryPtr_range f i
  obtain ⟨a, rfl⟩ := hf
  have hak : a ≠ k := fun h => hne (congrArg (PAGE_SIZE * ·) h)
  refine frame.readLE_eq ?_
  simp only [PAGE_SIZE] at hrange ⊢
  omega

/-- Writing to a frame that is not in use. -/
theorem Forest.writeFrame {p4 k : Nat} {s : State} {own : Nat → Option Use} {ram : Store}
    (forest : Forest p4 s own) (hunused : own (PAGE_SIZE * k) = none)
    (hclear : PAGE_SIZE * k + PAGE_SIZE ≤ s.pmm.bitmap ∨
      s.pmm.bitmap + s.pmm.bitmapSize ≤ PAGE_SIZE * k)
    (frame : Frame s.ram ram (PAGE_SIZE * k) (PAGE_SIZE * k + PAGE_SIZE)) :
    Forest p4 { s with ram := ram } own ∧ (∀ j, Free { s with ram := ram } j ↔ Free s j) ∧
      ∀ f u i, own f = some u → tables ram f i = tables s.ram f i := by
  have hfree : ∀ j, Free { s with ram := ram } j ↔ Free s j := by
    refine free_congr rfl fun j hj => ?_
    change readLE ram (s.pmm.bitmap + j / 8) 1 = readLE s.ram (s.pmm.bitmap + j / 8) 1
    exact frame.readLE_eq (by omega)
  have hspared : ∀ {a n}, Spared s a n → Spared { s with ram := ram } a n := fun h =>
    h.mono fun j hj => (hfree j).mp hj
  have hsame : ∀ f u i, own f = some u → tables ram f i = tables s.ram f i := by
    intro f u i hu
    refine tables_of_frame (forest.table f u hu).aligned ?_ frame i
    rintro rfl
    rw [hunused] at hu
    cases hu
  refine ⟨forest.of_same ⟨forest.frames.bound, hspared forest.frames.bitmap⟩ hsame
    (fun f u hu => ?_) rfl fun h => forest.zero ((hfree 0).mp h), hfree, hsame⟩
  have htable := forest.table f u hu
  exact ⟨htable.aligned, hspared htable.spared, htable.clear⟩

namespace Owned

variable {p4 k v flags : Nat} {s s' : State} {own own' : Nat → Option Use} {roots : List Nat}

theorem withRoot (owned : Owned p4 s own roots) (r : Nat) : Owned p4 (s.withRoot r) own roots :=
  ⟨owned.forest.withRoot r, owned.pages, owned.root, owned.notKernel, owned.nodup⟩

/-! ### Frames -/

/-- Taking a frame. -/
theorem takePage (owned : Owned p4 s own roots) (hfree : Free s k) :
    Owned p4 (pmmTakePage k s).2 own roots ∧ Loose (pmmTakePage k s).2 own k := by
  have forest := owned.forest
  refine ⟨⟨forest.takePage hfree, owned.pages.cut fun f u i hu => Or.inl ?_, owned.root,
    owned.notKernel, owned.nodup⟩, ⟨hfree.1, ?_, own_of_free forest hfree, fun h => ?_,
    tableOk_takePage_fresh forest.frames hfree⟩⟩
  · exact pageEdge_congr fun _ => tables_takePage forest.frames hfree (forest.table f u hu) i
  · rintro rfl
    exact forest.zero hfree
  · exact ((takePage_free forest.frames.addressable hfree k).mp h).2 rfl

/-- Giving back a frame that is not in use. -/
theorem freePage (owned : Owned p4 s own roots) (loose : Loose s own k) :
    Owned p4 (pmmFreePage (PAGE_SIZE * k) s) own roots := by
  have forest := owned.forest
  refine ⟨forest.freePage loose.covered loose.nonzero loose.unused loose.table.clear,
    owned.pages.cut fun f u i hu => Or.inl (pageEdge_congr fun _ => ?_), owned.root,
    owned.notKernel, owned.nodup⟩
  exact tables_freePage loose.covered (forest.table f u hu) i

/-! ### Growing -/

theorem extend (owned : Owned p4 s own roots) (ext : Extends p4 v flags s own s' own') :
    Owned p4 s' own' roots := by
  refine ⟨ext.forest, fun f u i g l hu hedge => ?_, fun r hr => ext.owns r _ (owned.root r hr),
    owned.notKernel, owned.nodup⟩
  obtain ⟨hdepth, hpresent, hg, hl⟩ := pageEdge_eq_some hedge
  cases hold : own f with
  | none =>
      -- a new leaf table is empty
      have hempty := (ext.fresh f u hold hu).2.2 hdepth i
      rw [hempty] at hpresent
      cases hpresent
  | some w =>
      have hw : w = u := Option.some.inj ((ext.owns f w hold).symm.trans hu)
      subst hw
      have hkept : tables s'.ram f i = tables s.ram f i := by
        rcases ext.slots f w i hold with heq | ⟨hlt, -⟩
        · exact heq
        · omega
      rw [hkept] at hpresent hg
      have hpage := owned.pages hold (pageEdge_of_present hdepth hpresent)
      rw [← hg, ← hl] at hpage
      exact ext.owns g l hpage

end Owned

theorem Loose.withRoot {k : Nat} {s : State} {own : Nat → Option Use} (loose : Loose s own k)
    (r : Nat) : Loose (s.withRoot r) own k :=
  ⟨loose.covered, loose.nonzero, loose.unused, loose.taken,
    ⟨loose.table.aligned, loose.table.spared, loose.table.clear⟩⟩

theorem Loose.extend {p4 k v flags : Nat} {s s' : State} {own own' : Nat → Option Use}
    (loose : Loose s own k) (ext : Extends p4 v flags s own s' own') : Loose s' own' k := by
  have hcovered : PAGE_SIZE * k / PAGE_SIZE = k := Nat.mul_div_cancel_left k (by decide)
  refine ⟨by rw [ext.size]; exact loose.covered, loose.nonzero, ?_,
    fun h => loose.taken (ext.free k h), loose.table.aligned, fun j hj => ?_, ?_⟩
  · cases hu : own' (PAGE_SIZE * k) with
    | none => rfl
    | some u =>
        have hfree := (ext.fresh _ u loose.unused hu).2.1
        rw [hcovered] at hfree
        exact absurd hfree loose.taken
  · exact loose.table.spared j (ext.free j hj)
  · rw [ext.bitmap, ext.size]
    exact loose.table.clear

namespace Owned

variable {p4 k entry : Nat} {s : State} {own : Nat → Option Use} {roots : List Nat} {f : Nat}
  {u : Use} {i : Fin 512}

/-! ### Leaf entries -/

/-- A loose frame is put to use as a page. -/
theorem setLeaf (owned : Owned p4 s own roots) (loose : Loose s own k) (hu : own f = some u)
    (hdepth : u.depth = 3) (hentry : entry < 2 ^ 64) (hpresent : present entry = true)
    (hchild : child entry = PAGE_SIZE * k) :
    Owned p4 (setEntry s f i entry)
      (Function.update own (PAGE_SIZE * k) (some ⟨4, some ⟨f, i⟩⟩)) roots := by
  have hf := owned.forest.table f u hu
  have hcovered : PAGE_SIZE * k / PAGE_SIZE = k := Nat.mul_div_cancel_left k (by decide)
  have hnull : PAGE_SIZE * k ≠ NULL := fun h =>
    loose.nonzero ((Nat.mul_eq_zero.mp h).resolve_left (by decide))
  have forest := owned.forest.setLeaf (i := i) hu hdepth hentry fun h => by
    rw [hpresent] at h
    cases h
  have hwritten : tables (setEntry s f i entry).ram f i = entry := tables_setEntry_same hentry
  have hnone : ∀ m p j h w, tableEdge m p4 ⟨4, p⟩ (PAGE_SIZE * k) j ≠ some (h, w) := by
    intro m p j h w hedge
    unfold tableEdge at hedge
    rw [if_neg fun hlt => absurd hlt.1 (by simp)] at hedge
    cases hedge
  refine ⟨forest.adopt loose.unused (loose.table.setEntry hf) (hcovered.symm ▸ loose.covered) hnull
      (by simp) (fun j h w hedge => absurd hedge (hnone _ _ j h w))
      (fun j hlt => absurd hlt (by simp)),
    owned.pages.adopt loose.unused (fun g w j hw => ?_) (fun j h w hedge => ?_),
    fun r hr => keep_adopt loose.unused (owned.root r hr), owned.notKernel, owned.nodup⟩
  · by_cases hhere : g = f ∧ j = i
    · obtain ⟨rfl, rfl⟩ := hhere
      rw [hu] at hw
      cases hw
      refine Or.inr ?_
      rw [pageEdge_of_present hdepth (by rw [hwritten]; exact hpresent), hwritten, hchild]
    · exact Or.inl (pageEdge_congr fun _ =>
        tables_setEntry_other hf.aligned (owned.forest.table g w hw).aligned hhere)
  · exact absurd (pageEdge_eq_some hedge).1 (by simp)

/-- Clearing a leaf entry makes its page loose. -/
theorem clearLeaf (owned : Owned p4 s own roots) (hu : own f = some u) (hdepth : u.depth = 3)
    (hpresent : present (tables s.ram f i) = true) :
    ∃ k, child (tables s.ram f i) = PAGE_SIZE * k ∧
      Owned p4 (setEntry s f i 0) (Function.update own (PAGE_SIZE * k) none) roots ∧
      Loose (setEntry s f i 0) (Function.update own (PAGE_SIZE * k) none) k := by
  have hf := owned.forest.table f u hu
  have hpage := owned.pages hu (pageEdge_of_present hdepth hpresent)
  have htable := owned.forest.table _ _ hpage
  obtain ⟨k, hk⟩ := htable.aligned
  have hcovered := owned.forest.covered _ _ hpage
  have hnull := owned.forest.nonnull _ _ hpage
  rw [hk] at hpage htable hcovered hnull
  rw [Nat.mul_div_cancel_left k (by decide)] at hcovered
  have hwritten : tables (setEntry s f i 0).ram f i = 0 := tables_setEntry_same (by decide)
  have forest := owned.forest.setLeaf (i := i) hu hdepth (show 0 < 2 ^ 64 by decide) fun _ => rfl
  have hcut : Typed (pageEdge (setEntry s f i 0).ram) own := by
    refine owned.pages.cut fun g w j hw => ?_
    by_cases hhere : g = f ∧ j = i
    · obtain ⟨rfl, rfl⟩ := hhere
      refine Or.inr (if_neg fun h => ?_)
      rw [hwritten] at h
      cases h.2
    · exact Or.inl (pageEdge_congr fun _ =>
        tables_setEntry_other hf.aligned (owned.forest.table g w hw).aligned hhere)
  refine ⟨k, hk, ⟨forest.release hpage, hcut.release fun g w j l hw _ hedge => ?_, fun r hr => ?_,
    owned.notKernel, owned.nodup⟩, ⟨hcovered, ?_, Function.update_self .., fun h => ?_,
    htable.setEntry hf⟩⟩
  · -- two slots would refer to one page
    obtain ⟨-, hpresent', -, hl⟩ := pageEdge_eq_some hedge
    have hused := hcut hw hedge
    rw [hpage, hl] at hused
    obtain ⟨rfl, rfl⟩ := Place.mk.inj (Option.some.inj (Use.mk.inj (Option.some.inj hused)).2)
    rw [hwritten] at hpresent'
    cases hpresent'
  · refine release_eq_some.mpr ⟨?_, owned.root r hr⟩
    rintro rfl
    rw [owned.root _ hr] at hpage
    cases hpage
  · rintro rfl
    exact hnull rfl
  · have hspared := htable.spared k ((free_setEntry hf k).mp h)
    simp only [PAGE_SIZE] at hspared
    omega

/-- Clearing a leaf entry that is clear. -/
theorem clearAbsent (owned : Owned p4 s own roots) (hu : own f = some u) (hdepth : u.depth = 3)
    (habsent : present (tables s.ram f i) = false) :
    Owned p4 (setEntry s f i 0) own roots := by
  have hf := owned.forest.table f u hu
  refine ⟨owned.forest.setLeaf hu hdepth (by decide) fun _ => rfl,
    owned.pages.cut fun g w j hw => ?_, owned.root, owned.notKernel, owned.nodup⟩
  by_cases hhere : g = f ∧ j = i
  · obtain ⟨rfl, rfl⟩ := hhere
    refine Or.inr (if_neg fun h => ?_)
    rw [tables_setEntry_same (by decide)] at h
    cases h.2
  · exact Or.inl (pageEdge_congr fun _ =>
      tables_setEntry_other hf.aligned (owned.forest.table g w hw).aligned hhere)

/-! ### Mapping and unmapping through a root -/

section Root

variable {p4 k v flags : Nat} {s : State} {own : Nat → Option Use} {roots : List Nat}
  (owned : Owned p4 s own roots) (hroot : own s.vmm.pml4 = some Use.root) (high : High p4 s v)
include owned hroot high

/-- Mapping a loose frame puts it to use, or fails and leaves it loose. -/
theorem mapPage (loose : Loose s own k) (hv : v < 2 ^ 64)
    (htables : PlainFlags flags ∨ Tabled s v) (hleaf : NoAddress flags ∨ Mapped s v) :
    ∃ s' own', Owned p4 s' own' roots ∧ s'.vmm = s.vmm ∧
      (pagingMapPage (PAGE_SIZE * k) v flags s = (NULL, s') ∧ Loose s' own' k ∧
          (freeCount s < missing s v ∨ Mapped s v) ∨
        pagingMapPage (PAGE_SIZE * k) v flags s = (PAGE_SIZE * (v / PAGE_SIZE), s') ∧
          freeCount s' + missing s v = freeCount s ∧ ¬ Mapped s v ∧ Mapped s' v ∧
          AddsOnPath v s own s' own') := by
  obtain ⟨s', own', ext, hsame, hrun⟩ :=
    pagingMapPage_extends owned.forest hroot high htables (PAGE_SIZE * k) hv
  have owned' := owned.extend ext
  have loose' := loose.extend ext
  rcases hrun with ⟨hrun, hshort⟩ | ⟨hrun, -, hmapped⟩ | ⟨hsum, hunmapped, pt, hpt, habsent, hrun⟩
  · exact ⟨s', own', owned', ext.vmm, Or.inl ⟨hrun, loose', Or.inl hshort⟩⟩
  · exact ⟨s', own', owned', ext.vmm, Or.inl ⟨hrun, loose', Or.inr hmapped⟩⟩
  · have hroot' := ext.root hroot
    have high' := ext.high high
    obtain ⟨u, hu, hdepth⟩ := own_of_reach_path owned'.forest hroot' high' hpt
    have hk : k < 2 ^ 40 := lt_of_lt_of_le loose.covered owned.forest.frames.bound
    have hplain := plainFlags_present.1.or (hleaf.resolve_right hunmapped)
    have hlt := makeEntry_lt hk hplain.1
    have hpresent := present_makeEntry (PAGE_SIZE * k) flags
    have hmapped := leafEntry_setEntry owned'.forest hroot' high' hpt habsent hlt hpresent
    have hcount : freeCount (setEntry s' pt (index 12 v)
        (pagingMakeEntry (PAGE_SIZE * k) (PAGE_PRESENT ||| flags))) = freeCount s' :=
      freeCount_congr rfl (free_setEntry (owned'.forest.table pt u hu))
    refine ⟨_, _, owned'.setLeaf loose' hu hdepth hlt hpresent (child_makeEntry hk hplain), ext.vmm,
      Or.inr ⟨hrun, hcount ▸ hsum, hunmapped, ⟨_, hmapped⟩, fun f w i hw habove hthere => ?_⟩⟩
    obtain ⟨-, rfl⟩ | ⟨-, hused⟩ := adopt_eq_some.mp hw
    · exact absurd habove (by simp)
    have hne : f ≠ pt := by
      rintro rfl
      have hsame := Option.some.inj (hu.symm.trans hused)
      rw [← hsame, hdepth] at habove
      exact absurd habove (by decide)
    rw [tables_setEntry_other (owned'.forest.table pt u hu).aligned
      (owned'.forest.table f w hused).aligned fun h => hne h.1] at hthere
    rcases ext.entries f w i hused (by omega) hthere with ⟨hold, heq⟩ | ⟨-, -, hpath, -⟩
    · exact Or.inl ⟨hold, heq ▸ hthere⟩
    · exact Or.inr hpath

/-- Unmapping an address makes the page it is mapped to loose, if there is one. -/
theorem unmapPage :
    ∃ own', Owned p4 (pagingUnmapPage v s) own' roots ∧
      (pagingGetPhysicalAddress v s = NULL ∨ pagingGetPhysicalAddress v s % PAGE_SIZE ≠ 0 ∨
        ∃ k, pagingGetPhysicalAddress v s = PAGE_SIZE * k ∧
          Loose (pagingUnmapPage v s) own' k) := by
  cases hpt : reach s (path v) with
  | none =>
      rw [pagingUnmapPage_of_unreached hpt, lookup_of_unreached hpt]
      exact ⟨own, owned, Or.inl rfl⟩
  | some pt =>
      obtain ⟨u, hu, hdepth⟩ := own_of_reach_path owned.forest hroot high hpt
      have hptr := owned.forest.entryPtr_ne_null hu (index 12 v)
      rw [pagingUnmapPage_of_reach hpt hptr, lookup_of_reach hpt, if_neg hptr]
      cases hpresent : present (tables s.ram pt (index 12 v)) with
      | false =>
          refine ⟨own, owned.clearAbsent hu hdepth hpresent, ?_⟩
          have hempty : child 0 = 0 := by decide
          rw [owned.forest.clean pt u _ hu hdepth hpresent, hempty, Nat.zero_add]
          rcases Nat.eq_zero_or_pos (v % PAGE_SIZE) with hzero | hpos
          · exact Or.inl hzero
          · refine Or.inr (Or.inl ?_)
            rw [Nat.mod_mod]
            omega
      | true =>
          obtain ⟨k, hk, owned', loose⟩ := owned.clearLeaf hu hdepth hpresent
          refine ⟨_, owned', Or.inr ?_⟩
          rw [hk]
          rcases Nat.eq_zero_or_pos (v % PAGE_SIZE) with hzero | hpos
          · exact Or.inr ⟨k, by rw [hzero, Nat.add_zero], loose⟩
          · refine Or.inl ?_
            rw [Nat.mul_add_mod, Nat.mod_mod]
            omega

/-- The page that an address was mapped to is given back. -/
theorem freeMapped :
    ∃ own', Owned p4 (if pagingGetPhysicalAddress v s ≠ NULL then
      pmmFreePage (pagingGetPhysicalAddress v s) (pagingUnmapPage v s)
      else pagingUnmapPage v s) own' roots := by
  obtain ⟨own', owned', hnull | hoffset | ⟨k, hk, loose⟩⟩ := unmapPage owned hroot high
  · rw [if_neg (not_not.mpr hnull)]
    exact ⟨own', owned'⟩
  · rw [pmmFreePage_unaligned hoffset, ite_self]
    exact ⟨own', owned'⟩
  · refine ⟨own', ?_⟩
    split
    · rw [hk]
      exact owned'.freePage loose
    · exact owned'

end Root

/-! ### A new root -/

section NewRoot

variable {p4 k : Nat} {s : State} {own : Nat → Option Use} {roots : List Nat}
  (owned : Owned p4 s own roots) (loose : Loose s own k)
include owned loose

/-- Writing to a loose frame. -/
theorem writeLoose {ram : Store}
    (frame : Frame s.ram ram (PAGE_SIZE * k) (PAGE_SIZE * k + PAGE_SIZE)) :
    Owned p4 { s with ram := ram } own roots ∧ Loose { s with ram := ram } own k ∧
      (∀ j, Free { s with ram := ram } j ↔ Free s j) ∧
      ∀ f u i, own f = some u → tables ram f i = tables s.ram f i := by
  obtain ⟨forest, hfree, hsame⟩ :=
    owned.forest.writeFrame loose.unused loose.table.clear frame
  refine ⟨⟨forest, owned.pages.cut fun f u i hu => Or.inl (pageEdge_congr fun _ => hsame f u i hu),
    owned.root, owned.notKernel, owned.nodup⟩, ?_, hfree, hsame⟩
  exact ⟨loose.covered, loose.nonzero, loose.unused, fun h => loose.taken ((hfree k).mp h),
    loose.table.aligned, loose.table.spared.mono fun j hj => (hfree j).mp hj, loose.table.clear⟩

/-- A loose frame becomes a root, once its upper half is a copy of that of the kernel's. -/
theorem adoptRoot
    (hslots : ∀ i : Fin 512, tables s.ram (PAGE_SIZE * k) i
      = if 256 ≤ (i : Nat) then tables s.ram p4 i else 0) :
    Owned p4 s (Function.update own (PAGE_SIZE * k) (some Use.root)) (PAGE_SIZE * k :: roots) := by
  have forest := owned.forest
  have hcovered : PAGE_SIZE * k / PAGE_SIZE = k := Nat.mul_div_cancel_left k (by decide)
  have hnull : PAGE_SIZE * k ≠ NULL := fun h =>
    loose.nonzero ((Nat.mul_eq_zero.mp h).resolve_left (by decide))
  have hlarge : p4 ≠ p2Table p4 := forest.ne_large forest.root (by decide)
  -- what is present is a copy
  have hcopy : ∀ i : Fin 512, present (tables s.ram (PAGE_SIZE * k) i) = true →
      256 ≤ (i : Nat) ∧ tables s.ram (PAGE_SIZE * k) i = tables s.ram p4 i := by
    intro i hpresent
    rw [hslots i] at hpresent ⊢
    split at hpresent
    next hupper => exact ⟨hupper, if_pos hupper⟩
    next => cases hpresent
  refine ⟨forest.adopt loose.unused loose.table (hcovered.symm ▸ loose.covered) hnull (by decide)
      (fun i h w hedge => ?_) (fun i _ hpresent => ?_),
    owned.pages.adopt loose.unused (fun _ _ _ _ => Or.inl rfl)
      (fun i h w hedge => absurd (pageEdge_eq_some hedge).1 (by decide)),
    fun r hr => ?_, fun hmem => ?_, List.nodup_cons.mpr ⟨fun hmem => ?_, owned.nodup⟩⟩
  · unfold tableEdge at hedge
    split at hedge
    next hlink =>
      obtain ⟨rfl, rfl⟩ := Prod.mk.inj (Option.some.inj hedge)
      have hpresent := present_of_links hlink.2
      obtain ⟨hupper, hsame⟩ := hcopy i hpresent
      have hslot : slotOf s.ram p4 Use.root (PAGE_SIZE * k) i = ⟨p4, i⟩ :=
        if_pos ⟨rfl, hupper, hsame⟩
      rw [hslot, hsame]
      rw [hsame] at hpresent
      have hnext := forest.next forest.root (by decide) hlarge hpresent
      rwa [slotOf_root] at hnext
    next => cases hedge
  · obtain ⟨-, hsame⟩ := hcopy i hpresent
    rw [hsame] at hpresent ⊢
    exact forest.plain p4 _ i forest.root (by decide) hlarge hpresent
  · rcases List.mem_cons.mp hr with rfl | hr
    · exact Function.update_self ..
    · exact keep_adopt loose.unused (owned.root r hr)
  · rcases List.mem_cons.mp hmem with heq | hmem
    · have hunused := loose.unused
      rw [← heq, forest.root] at hunused
      cases hunused
    · exact owned.notKernel hmem
  · have hunused := loose.unused
    rw [owned.root _ hmem] at hunused
    cases hunused

end NewRoot

end Owned

/-! ### `paging_create_user_address_space` -/

theorem copyKernelEntries_frame {original new n i : Nat} {m : Store} (h : i + n ≤ 512) :
    Frame m (copyKernelEntries original new n i m) new (new + PAGE_SIZE) := by
  induction n generalizing i m with
  | zero => exact Frame.refl _ _ _
  | succ n ih =>
      rw [copyKernelEntries]
      refine ((writeLE_frame _ _ 8 _).widen ?_ ?_).trans (ih (by omega))
      · exact Nat.le_add_right _ _
      · simp only [entryPtr, PAGE_SIZE]
        omega

/-- The loop copies the entries that it is to copy. -/
theorem tables_copyKernelEntries {original new n i : Nat} {m : Store}
    (horiginal : PAGE_SIZE ∣ original) (hnew : PAGE_SIZE ∣ new) (hne : original ≠ new)
    (h : i + n ≤ 512) (j : Fin 512) :
    tables (copyKernelEntries original new n i m) new j
      = if i ≤ (j : Nat) ∧ (j : Nat) < i + n then tables m original j else tables m new j := by
  induction n generalizing i m with
  | zero => rw [copyKernelEntries, if_neg (by omega)]
  | succ n ih =>
      have hi : i < 512 := by omega
      have hother : ∀ {f : Nat}, PAGE_SIZE ∣ f → ¬ (f = new ∧ (j : Nat) = i) →
          tables (setEntryAt m (entryPtr new i) (entryAt m (entryPtr original i))) f j
            = tables m f j := by
        intro f hf hapart
        refine readLE_writeLE_disjoint ?_
        exact (@entryPtr_apart new f ⟨i, hi⟩ j hnew hf fun hsame =>
          hapart ⟨hsame.1, congrArg Fin.val hsame.2⟩)
      rw [copyKernelEntries, ih (by omega), hother horiginal fun hsame => hne hsame.1]
      by_cases hhere : (j : Nat) = i
      · have hwritten : tables (setEntryAt m (entryPtr new i) (entryAt m (entryPtr original i)))
            new j = tables m original j := by
          unfold tables
          rw [hhere]
          exact (readLE_writeLE_same _ _ 8 _).trans (Nat.mod_eq_of_lt (readLE_lt _ _ 8))
        rw [hwritten, ite_self, if_pos (by omega)]
      · rw [hother hnew fun hsame => hhere hsame.2]
        refine if_congr ?_ rfl rfl
        omega

/-- The upper half of a new root is a copy, and the lower half is empty. -/
theorem newRoot_slots {p4 k : Nat} (haligned : PAGE_SIZE ∣ p4) (hne : p4 ≠ PAGE_SIZE * k)
    (m : Store) (i : Fin 512) :
    tables (copyKernelEntries p4 (PAGE_SIZE * k) 256 256 (fill m (PAGE_SIZE * k) PAGE_SIZE 0))
        (PAGE_SIZE * k) i
      = if 256 ≤ (i : Nat) then tables (copyKernelEntries p4 (PAGE_SIZE * k) 256 256
          (fill m (PAGE_SIZE * k) PAGE_SIZE 0)) p4 i else 0 := by
  have hi := i.isLt
  have hrange := entryPtr_range (PAGE_SIZE * k) i
  have hzero : tables (fill m (PAGE_SIZE * k) PAGE_SIZE 0) (PAGE_SIZE * k) i = 0 :=
    readLE_fill_zero hrange.1 hrange.2
  generalize fill m (PAGE_SIZE * k) PAGE_SIZE 0 = cleared at hzero ⊢
  have hkept := tables_of_frame haligned hne
    (@copyKernelEntries_frame p4 (PAGE_SIZE * k) 256 256 cleared (by decide)) i
  rw [hkept, tables_copyKernelEntries haligned (dvd_mul_right _ _) hne (by decide), hzero]
  exact if_congr (by omega) rfl rfl

/-- A new address space has a new root, with an empty lower half, or nothing happens. -/
theorem Owned.createUserAddressSpace {p4 : Nat} {s : State} {own : Nat → Option Use}
    {roots : List Nat} (owned : Owned p4 s own roots) (hpml4 : s.vmm.pml4 = p4) :
    pagingCreateUserAddressSpace s = (NULL, s) ∧ freeCount s = 0 ∨
      ∃ r s' own', pagingCreateUserAddressSpace s = (r, s') ∧ r ≠ NULL ∧
        s'.vmm = s.vmm ∧ Owned p4 s' own' (r :: roots) ∧ freeCount s' + 1 = freeCount s ∧
        (∀ f u i, own f = some u → tables s'.ram f i = tables s.ram f i) ∧
        ∀ i : Fin 512, tables s'.ram r i
          = if 256 ≤ (i : Nat) then tables s'.ram p4 i else 0 := by
  have forest := owned.forest
  simp only [pagingCreateUserAddressSpace]
  rcases pmmAllocPage_spec forest.frames.addressable with ⟨hnone, hempty⟩ | ⟨k, hfree, htake⟩
  · rw [hnone, if_pos rfl]
    exact Or.inl ⟨rfl, freeCount_eq_zero_iff.mpr hempty⟩
  · obtain ⟨owned₁, loose₁⟩ := owned.takePage hfree
    have hnull := page_ne_null forest hfree
    rw [htake, takePage_addr forest.frames.addressable hfree, if_neg hnull]
    set s₁ := (pmmTakePage k s).2 with hs₁
    have hroot : s₁.vmm.pml4 = p4 := hpml4
    rw [hroot]
    have haligned := (forest.table p4 _ forest.root).aligned
    have hne : p4 ≠ PAGE_SIZE * k := by
      rintro rfl
      have hunused := loose₁.unused
      rw [forest.root] at hunused
      cases hunused
    have hslots := newRoot_slots haligned hne s₁.ram
    have hframe := (fill_frame s₁.ram (PAGE_SIZE * k) PAGE_SIZE 0).trans
      (@copyKernelEntries_frame p4 (PAGE_SIZE * k) 256 256 _ (by decide))
    generalize copyKernelEntries p4 (PAGE_SIZE * k) 256 256 _ = ram at hslots hframe ⊢
    obtain ⟨owned₂, loose₂, hfree₂, hsame₂⟩ := owned₁.writeLoose loose₁ hframe
    have hcount : freeCount { s₁ with ram := ram } = freeCount s₁ := freeCount_congr rfl hfree₂
    refine Or.inr ⟨_, _, _, rfl, hnull, rfl, owned₂.adoptRoot loose₂ hslots, ?_,
      fun f u i hu => ?_, hslots⟩
    · rw [hcount]
      exact takePage_freeCount forest.frames.addressable hfree
    · exact (hsame₂ f u i hu).trans (tables_takePage forest.frames hfree (forest.table f u hu) i)

end Curnel.Paging
