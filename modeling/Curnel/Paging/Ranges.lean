/-
Ranges of pages of the kernel, over runs of `kmalloc_page`, `kmalloc_pages` and the calls
that free them.

All allocations start at one cursor, and each advances it by one page, also
`kmalloc_pages`. `ranges_granted_iff` says which runs grant every allocation: those
where no page from the cursor on that is asked for is live. `KernelPages` is the invariant
on the tables; `Adds` says what mapping one page does, and `kmallocPages_cases` what an
allocation does if there are frames for it.
-/

import Curnel.Paging.Paths
import Mathlib.Algebra.Order.BigOperators.Group.Finset

namespace Curnel.Paging

open Lib Lib.Bytes Lib.Word Lib.Radix Lib.Ownership

/-! ### Calls -/

/-- The addresses of `count` pages from `addr` on. -/
def pages (addr count : Nat) : Finset Nat :=
  (Finset.range count).image fun i => addr + PAGE_SIZE * i

/-- The kernel, and the pages of the ranges that are live. -/
structure Heap where
  kernel : Kernel
  live : Finset Nat

def Heap.mem (h : Heap) : State := h.kernel.mem

/-- The paths of the tables on the way to a page. -/
def tablePaths (v : Nat) : Finset (List (Fin 512)) :=
  {[index 39 v], [index 39 v, index 30 v], path v}

/-- The tables that are missing for `count` pages from `addr` on. -/
def missingTables (s : State) (addr count : Nat) : Finset (List (Fin 512)) :=
  ((Finset.range count).biUnion fun i => tablePaths (addr + PAGE_SIZE * i)).filter
    fun is => reach s is = none

/-- Frames for the pages that an allocation maps and for the tables. -/
def Heap.Enough (h : Heap) (count : Nat) : Prop :=
  count + (missingTables h.mem h.kernel.kernelHeap count).card ≤ freeCount h.mem

inductive RangeCall where
  | kmallocPage
  | kmallocPages (count : Nat)
  | kfreePage (addr : Nat)
  | kfreePages (addr count : Nat)

/-- After an allocation that returns `result.1`. -/
def Heap.alloc (h : Heap) (count : Nat) (result : Nat × Kernel) : Heap :=
  ⟨result.2, if result.1 = NULL then h.live else h.live ∪ pages result.1 count⟩

/-- Calls in any order, as long as there are frames. What is freed is live. -/
inductive RangeStep : Heap → RangeCall → Heap → Prop where
  | kmallocPage {h : Heap} : h.Enough 1 →
      RangeStep h .kmallocPage (h.alloc 1 (kmallocPage h.kernel))
  | kmallocPages {h : Heap} {count : Nat} : 1 ≤ count → h.Enough count →
      RangeStep h (.kmallocPages count) (h.alloc count (kmallocPages count h.kernel))
  | kfreePage {h : Heap} {addr : Nat} : addr ∈ h.live →
      RangeStep h (.kfreePage addr)
        ⟨{ h.kernel with mem := kfreePage addr h.mem }, h.live.erase addr⟩
  | kfreePages {h : Heap} {addr count : Nat} : pages addr count ⊆ h.live →
      RangeStep h (.kfreePages addr count)
        ⟨{ h.kernel with mem := kfreePages addr count h.mem }, h.live \ pages addr count⟩

/-- What `kernel_main` starts with. -/
def Heap.start (mmap : List MemoryMapEntry) (p4 : Nat) (ram : Store) : Heap :=
  ⟨⟨pagingBoot mmap p4 ram, KERNEL_BASE⟩, ∅⟩

/-! ### What is expected -/

/-- An entry that is present and allows writing. -/
def writable (entry : Nat) : Bool := present entry && decide (entry &&& PAGE_WRITABLE ≠ 0)

/-- The leaf entry of an address, where every entry on the way allows writing. -/
def writableEntry (s : State) (v : Nat) : Option Nat :=
  leaf writable child (tables s.ram) s.vmm.pml4 (path v) (index 12 v)

/-- Live pages are mapped writable, to frames of their own. -/
structure Heap.Served (h : Heap) : Prop where
  mapped : ∀ a ∈ h.live, ∃ entry, writableEntry h.mem a = some entry
  distinct : ∀ a ∈ h.live, ∀ b ∈ h.live, ∀ entry entry', writableEntry h.mem a = some entry →
    writableEntry h.mem b = some entry' → child entry = child entry' → a = b

/-- The address that a call returns, with the number of pages, for an allocation. -/
def Heap.allocated (h : Heap) : RangeCall → Option (Nat × Nat)
  | .kmallocPage => some ((kmallocPage h.kernel).1, 1)
  | .kmallocPages count => some ((kmallocPages count h.kernel).1, count)
  | _ => none

/-- An allocation succeeds, with pages that were not live, and live pages are served. -/
def Heap.Grants (h : Heap) (call : RangeCall) (h' : Heap) : Prop :=
  (∀ result count, h.allocated call = some (result, count) →
    result ≠ NULL ∧ InKernelHalf result count ∧ Disjoint (pages result count) h.live ∧
      pages result count ⊆ h'.live) ∧ h'.Served

/-- No page from the cursor on that is asked for is live, nor past the last one. -/
def Heap.Clear (h : Heap) (count : Nat) : Prop :=
  InKernelHalf h.kernel.kernelHeap count ∧ Disjoint (pages h.kernel.kernelHeap count) h.live

def Heap.Meets (h : Heap) : RangeCall → Prop
  | .kmallocPage => h.Clear 1
  | .kmallocPages count => h.Clear count
  | _ => True

/-! ### Pages -/

/-- A page of the kernel's half. -/
structure KernelPage (v : Nat) : Prop where
  aligned : PAGE_SIZE ∣ v
  base : KERNEL_BASE ≤ v
  bound : v < 2 ^ 64

theorem mem_pages {addr count w : Nat} :
    w ∈ pages addr count ↔ ∃ i < count, addr + PAGE_SIZE * i = w := by
  rw [pages, Finset.mem_image]
  simp only [Finset.mem_range]

theorem pages_succ (addr count : Nat) :
    pages addr (count + 1) = insert addr (pages (addr + PAGE_SIZE) count) := by
  ext w
  rw [Finset.mem_insert, mem_pages, mem_pages]
  constructor
  · rintro ⟨i, hi, rfl⟩
    cases i with
    | zero => exact Or.inl rfl
    | succ i => exact Or.inr ⟨i, by omega, by rw [Nat.mul_succ]; omega⟩
  · rintro (rfl | ⟨i, hi, rfl⟩)
    · exact ⟨0, Nat.succ_pos _, rfl⟩
    · exact ⟨i + 1, by omega, by rw [Nat.mul_succ]; omega⟩

theorem KernelPage.high {p4 v : Nat} {s : State} (hv : KernelPage v) : High p4 s v :=
  high_of_kernelBase hv.base hv.bound

/-- Pages of the kernel's half differ in the bits that a walk looks at. -/
theorem KernelPage.eq_of_pageKey {v w : Nat} (hv : KernelPage v) (hw : KernelPage w)
    (h : pageKey v = pageKey w) : v = w := by
  obtain ⟨⟨a, rfl⟩, hbase, hbound⟩ := hv
  obtain ⟨⟨b, rfl⟩, hbase', hbound'⟩ := hw
  simp only [pageKey, PAGE_SIZE, KERNEL_BASE] at *
  omega

/-- The pages of a range in the kernel's half. -/
theorem InKernelHalf.page {addr count i : Nat} (haligned : PAGE_SIZE ∣ addr)
    (h : InKernelHalf addr count) (hi : i < count) : KernelPage (addr + PAGE_SIZE * i) := by
  obtain ⟨hbase, hend⟩ := h
  refine ⟨Nat.dvd_add haligned (dvd_mul_right _ _), hbase.trans (Nat.le_add_right _ _), ?_⟩
  simp only [PAGE_SIZE] at hend ⊢
  omega

theorem InKernelHalf.drop {addr i n : Nat} (h : InKernelHalf addr (i + n)) :
    InKernelHalf (addr + PAGE_SIZE * i) n := by
  refine ⟨h.1.trans (Nat.le_add_right _ _), ?_⟩
  rw [Nat.add_assoc, ← Nat.mul_add]
  exact h.2

/-! ### The invariant on the tables -/

/-- The tables on the way to the pages of the kernel's half let it write. -/
def Writable (s : State) : Prop :=
  ∀ v js f i, KernelPage v → js <+: path v → reach s js = some f →
    present (tables s.ram f i) = true → writable (tables s.ram f i) = true

structure KernelPages (p4 : Nat) (s : State) (own : Nat → Option Use) : Prop where
  owned : Owned p4 s own []
  pml4 : s.vmm.pml4 = p4
  writable : Writable s

theorem KernelPages.root {p4 : Nat} {s : State} {own : Nat → Option Use}
    (ok : KernelPages p4 s own) : own s.vmm.pml4 = some Use.root :=
  ok.owned.kernelRoot ok.pml4

theorem writable_makeEntry (a flags : Nat) :
    writable (pagingMakeEntry a (PAGE_PRESENT ||| (PAGE_WRITABLE ||| flags))) = true := by
  have hbit : (pagingMakeEntry a (PAGE_PRESENT ||| (PAGE_WRITABLE ||| flags))).testBit 1 = true := by
    rw [pagingMakeEntry, Nat.testBit_or, Nat.testBit_or, Nat.testBit_or]
    have hwritable : PAGE_WRITABLE.testBit 1 = true := by decide
    rw [hwritable, Bool.true_or, Bool.or_true, Bool.or_true]
  have hne : pagingMakeEntry a (PAGE_PRESENT ||| (PAGE_WRITABLE ||| flags)) &&& PAGE_WRITABLE ≠ 0 := by
    intro hzero
    have hclear := congrArg (Nat.testBit · 1) hzero
    rw [Nat.testBit_and, hbit] at hclear
    exact absurd hclear (by decide)
  rw [writable, present_makeEntry, decide_eq_true hne]
  rfl

section Read

variable {p4 v w : Nat} {s : State} {own : Nat → Option Use} (ok : KernelPages p4 s own)
include ok

/-- What is mapped is mapped writable. -/
theorem KernelPages.writableEntry (hv : KernelPage v) :
    Paging.writableEntry s v = leafEntry s v := by
  have hfollow : ∀ {js : List (Fin 512)}, js <+: path v →
      follow Paging.writable child (tables s.ram) s.vmm.pml4 js = reach s js := by
    intro js hjs
    induction js using List.reverseRecOn with
    | nil => rfl
    | append_singleton ks k ih =>
        have hks : ks <+: path v := (List.prefix_append ks [k]).trans hjs
        unfold reach at ih ⊢
        rw [follow_concat, follow_concat, ih hks]
        cases hg : follow present child (tables s.ram) s.vmm.pml4 ks with
        | none => rfl
        | some g =>
            rw [Option.bind_some, Option.bind_some]
            refine if_congr ⟨fun h => ?_, fun h => ok.writable v ks g k hv hks hg h⟩ rfl rfl
            exact (Bool.and_eq_true_iff.mp h).1
  unfold Paging.writableEntry leafEntry leaf
  rw [hfollow List.prefix_rfl]
  change _ = (reach s (path v)).bind _
  cases hpt : reach s (path v) with
  | none => rfl
  | some pt =>
      rw [Option.bind_some, Option.bind_some]
      refine if_congr ⟨fun h => ?_, fun h => ok.writable v (path v) pt _ hv List.prefix_rfl hpt h⟩
        rfl rfl
      exact (Bool.and_eq_true_iff.mp h).1

/-- Two pages are mapped to two frames. -/
theorem KernelPages.frames_distinct (hv : KernelPage v) (hw : KernelPage w) {entry entry' : Nat}
    (h : leafEntry s v = some entry) (h' : leafEntry s w = some entry')
    (hsame : child entry = child entry') : v = w := by
  have forest := ok.owned.forest
  have hroot := ok.root
  obtain ⟨pt, hpt, rfl, hpresent⟩ := reach_of_leafEntry h
  obtain ⟨pt', hpt', rfl, hpresent'⟩ := reach_of_leafEntry h'
  obtain ⟨u, hu, hdepth⟩ := own_of_reach_path forest hroot hv.high hpt
  obtain ⟨u', hu', hdepth'⟩ := own_of_reach_path forest hroot hw.high hpt'
  have hpage := ok.owned.pages hu (pageEdge_of_present hdepth hpresent)
  have hpage' := ok.owned.pages hu' (pageEdge_of_present hdepth' hpresent')
  rw [hsame, hpage'] at hpage
  obtain ⟨rfl, hindex⟩ := Place.mk.inj (Option.some.inj (Use.mk.inj (Option.some.inj hpage)).2)
  have hpath := reach_inj forest ok.root hv.high hw.high List.prefix_rfl List.prefix_rfl hpt hpt'
  exact hv.eq_of_pageKey hw (pageKey_eq_iff.mp ⟨hpath, hindex.symm⟩)

end Read

/-! ### Mapping one page -/

/-- What mapping the page `v` does, its frame included. -/
structure Adds (v : Nat) (s s' : State) : Prop where
  count : freeCount s' + missing s v + 1 = freeCount s
  mapped : ∀ w, KernelPage w → (Mapped s' w ↔ Mapped s w ∨ w = v)
  reach : ∀ w js, KernelPage w → js <+: path w →
    (reach s' js = none ↔ reach s js = none ∧ ¬ js <+: path v)

section Map

variable {p4 v k : Nat} {s : State} {own : Nat → Option Use}

theorem KernelPages.takePage (ok : KernelPages p4 s own) (hfree : Free s k) :
    KernelPages p4 (pmmTakePage k s).2 own := by
  have forest := ok.owned.forest
  have hroot := ok.root
  have same : ∀ g u i, own g = some u → tables (pmmTakePage k s).2.ram g i = tables s.ram g i :=
    fun g u i hu => tables_takePage forest.frames hfree (forest.table g u hu) i
  refine ⟨(ok.owned.takePage hfree).1, ok.pml4, fun w js f i hw hjs hf hpresent => ?_⟩
  rw [@reach_same p4 s (pmmTakePage k s).2 own forest hroot rfl same js hjs.length_le] at hf
  obtain ⟨u, hu, -⟩ := own_of_prefix forest ok.root hw.high hjs hf
  rw [same f u i hu] at hpresent ⊢
  exact ok.writable w js f i hw hjs hf hpresent

/-- The tables that a walk makes let the kernel write. -/
theorem KernelPages.extend {flags : Nat} {s' : State} {own' : Nat → Option Use}
    (ok : KernelPages p4 s own) (hflags : NoAddress flags)
    (ext : Extends p4 v flags s own s' own') : KernelPages p4 s' own' := by
  have forest := ok.owned.forest
  have hpml4' : s'.vmm.pml4 = p4 := by
    rw [ext.vmm]
    exact ok.pml4
  refine ⟨ok.owned.extend ext, hpml4', fun w js f i hw hjs hf hpresent => ?_⟩
  obtain ⟨u, hu, hdepth⟩ := own_of_prefix ext.forest (ext.root ok.root) hw.high hjs hf
  have hlen := hjs.length_le
  change js.length ≤ 3 at hlen
  rcases ext.entries f u i hu (by omega) hpresent with ⟨hold, hsame⟩ | ⟨n, -, -, hmade⟩
  · have hf' := reach_of_old forest ok.root ext hflags hlen hold hf
    rw [hsame] at hpresent ⊢
    exact ok.writable w js f i hw hjs hf' hpresent
  · rw [hmade]
    exact writable_makeEntry _ _

/-- Mapping a frame that has been taken, where there are frames for the tables. -/
theorem KernelPages.mapPage (ok : KernelPages p4 s own) (loose : Loose s own k)
    (hv : KernelPage v) (enough : missing s v ≤ freeCount s) :
    Mapped s v ∧ (pagingMapPage (PAGE_SIZE * k) v PAGE_WRITABLE s).1 = NULL ∨
      ¬ Mapped s v ∧ ∃ s' own', pagingMapPage (PAGE_SIZE * k) v PAGE_WRITABLE s = (v, s') ∧
        KernelPages p4 s' own' ∧ freeCount s' + missing s v = freeCount s ∧
        (∀ w, KernelPage w → (Mapped s' w ↔ Mapped s w ∨ w = v)) ∧
        ∀ w js, KernelPage w → js <+: path w →
          (reach s' js = none ↔ reach s js = none ∧ ¬ js <+: path v) := by
  have forest := ok.owned.forest
  have hroot := ok.root
  have only := pagingWalk_reach forest ok.root hv.high plainFlags_writable
  obtain ⟨s₁, own₁, hwalk, ext, -, ⟨-, hshort⟩ | ⟨hrun, -, hmapped⟩ |
      ⟨hsum, hunmapped, pt, hpt, habsent, hempty, hrun⟩⟩ :=
    pagingMapPage_walk forest hroot hv.high (Or.inl plainFlags_writable) (PAGE_SIZE * k) hv.bound
  · omega
  · exact Or.inl ⟨hmapped, by rw [hrun]⟩
  · rw [hwalk] at only
    have ok₁ := ok.extend plainFlags_writable.1 ext
    have hpml4₁ := ok₁.pml4
    have forest₁ := ext.forest
    have loose₁ := loose.extend ext
    obtain ⟨u, hu, hdepth⟩ := own_of_prefix forest₁ ok₁.root hv.high List.prefix_rfl hpt
    change u.depth = 3 at hdepth
    have hk : k < 2 ^ 40 := lt_of_lt_of_le loose.covered forest.frames.bound
    have hplain := plainFlags_present.or plainFlags_writable
    have hlt := makeEntry_lt hk hplain.1.1
    have hpresent := present_makeEntry (PAGE_SIZE * k) PAGE_WRITABLE
    have hchild := child_makeEntry hk hplain.1
    have hwrites := writable_makeEntry (PAGE_SIZE * k) 0
    rw [Nat.or_zero] at hwrites
    set entry := pagingMakeEntry (PAGE_SIZE * k) (PAGE_PRESENT ||| PAGE_WRITABLE) with hentry
    have hreach : ∀ {js : List (Fin 512)}, js.length ≤ 3 →
        reach (setEntry s₁ pt (index 12 v) entry) js = reach s₁ js :=
      fun hlen => reach_setEntry forest₁ ok₁.root hv.high hpt hlen
    rw [aligned_page hv.aligned] at hrun
    refine Or.inr ⟨hunmapped, _, _, hrun, ⟨ok₁.owned.setLeaf loose₁ hu hdepth hlt hpresent hchild,
      hpml4₁, fun w js f i hw hjs hf hthere => ?_⟩, ?_, fun w hw => ?_, fun w js hw hjs => ?_⟩
    · rw [hreach hjs.length_le] at hf
      by_cases hhere : f = pt ∧ i = index 12 v
      · obtain ⟨rfl, rfl⟩ := hhere
        rw [tables_setEntry_same hlt]
        exact hwrites
      · obtain ⟨x, hx, -⟩ := own_of_prefix forest₁ ok₁.root hw.high hjs hf
        rw [tables_setEntry_other (forest₁.table pt u hu).aligned (forest₁.table f x hx).aligned
          hhere] at hthere ⊢
        exact ok₁.writable w js f i hw hjs hf hthere
    · rw [← hsum]
      exact congrArg (· + missing s v)
        (freeCount_congr rfl (free_setEntry (forest₁.table pt u hu)))
    · unfold Mapped
      rw [leafEntry_write forest₁ ok₁.root hv.high hw.high hpt hlt, if_pos hpresent,
        leafEntry_walk forest ok.root ext only hpt hempty hw.high]
      by_cases hsame : pageKey w = pageKey v
      · rw [if_pos hsame]
        exact iff_of_true ⟨entry, rfl⟩ (Or.inr (hw.eq_of_pageKey hv hsame))
      · rw [if_neg hsame]
        exact (or_iff_left fun heq => hsame (congrArg pageKey heq)).symm
    · rw [hreach hjs.length_le]
      constructor
      · intro hnone
        refine ⟨?_, fun hon => ?_⟩
        · cases hold : reach s js with
          | none => rfl
          | some g =>
              rw [ext.reach forest hroot hjs.length_le hold] at hnone
              cases hnone
        · obtain ⟨g, hg⟩ := reach_of_prefix hon hpt
          rw [hg] at hnone
          cases hnone
      · rintro ⟨hnone, hoff⟩
        cases hnew : reach s₁ js with
        | none => rfl
        | some g =>
            rcases only w js g hw.high hjs hnew with hold | hon
            · rw [hnone] at hold
              cases hold
            · exact absurd hon hoff

/-- Taking a frame and mapping it, as both allocations do for each page. -/
theorem KernelPages.addPage (ok : KernelPages p4 s own) (hv : KernelPage v)
    (enough : missing s v < freeCount s) :
    ∃ k, pmmAllocPage s = (PAGE_SIZE * k, (pmmTakePage k s).2) ∧ PAGE_SIZE * k ≠ NULL ∧
      (Mapped s v ∧
          (pagingMapPage (PAGE_SIZE * k) v PAGE_WRITABLE (pmmTakePage k s).2).1 = NULL ∨
        ¬ Mapped s v ∧ ∃ s' own',
          pagingMapPage (PAGE_SIZE * k) v PAGE_WRITABLE (pmmTakePage k s).2 = (v, s') ∧
            KernelPages p4 s' own' ∧ Adds v s s') := by
  have forest := ok.owned.forest
  have hroot := ok.root
  rcases pmmAllocPage_spec forest.frames.addressable with ⟨-, hnone⟩ | ⟨k, hfree, htake⟩
  · rw [freeCount_eq_zero_iff.mpr hnone] at enough
    exact absurd enough (Nat.not_lt_zero _)
  have htake' : pmmAllocPage s = (PAGE_SIZE * k, (pmmTakePage k s).2) :=
    htake.trans (Prod.ext (takePage_addr forest.frames.addressable hfree) rfl)
  have hcount := takePage_freeCount forest.frames.addressable hfree
  have hmissing := @missing_takePage p4 k v s own forest hroot hfree
  have hmapped : ∀ w, KernelPage w → (Mapped (pmmTakePage k s).2 w ↔ Mapped s w) := fun w hw =>
    @mapped_takePage p4 k w s own forest hroot hfree hw.high
  have hreach : ∀ {js : List (Fin 512)}, js.length ≤ 3 →
      reach (pmmTakePage k s).2 js = reach s js := fun hlen =>
    @reach_same p4 s (pmmTakePage k s).2 own forest hroot rfl (fun g u i hu =>
      tables_takePage forest.frames hfree (forest.table g u hu) i) _ hlen
  refine ⟨k, htake', page_ne_null forest hfree, ?_⟩
  rcases (ok.takePage hfree).mapPage (ok.owned.takePage hfree).2 hv (by omega) with
    ⟨hthere, hrun⟩ | ⟨habsent, s', own', hrun, ok', hsum, hmapped', hreach'⟩
  · exact Or.inl ⟨(hmapped v hv).mp hthere, hrun⟩
  · refine Or.inr ⟨fun h => habsent ((hmapped v hv).mpr h), s', own', hrun, ok', by omega,
      fun w hw => ?_, fun w js hw hjs => ?_⟩
    · rw [hmapped' w hw, hmapped w hw]
    · rw [hreach' w js hw hjs, hreach hjs.length_le]

end Map

/-! ### Frames for the tables -/

theorem mem_tablePaths {v : Nat} {js : List (Fin 512)} :
    js ∈ tablePaths v ↔ js <+: path v ∧ js ≠ [] := by
  rw [tablePaths, Finset.mem_insert, Finset.mem_insert, Finset.mem_singleton]
  constructor
  · rintro (rfl | rfl | rfl)
    · exact ⟨⟨_, rfl⟩, List.cons_ne_nil _ _⟩
    · exact ⟨⟨_, rfl⟩, List.cons_ne_nil _ _⟩
    · exact ⟨List.prefix_rfl, List.cons_ne_nil _ _⟩
  · rintro ⟨⟨rest, hrest⟩, hne⟩
    rcases js with _ | ⟨a, _ | ⟨b, _ | ⟨c, js⟩⟩⟩
    · exact absurd rfl hne
    · obtain ⟨rfl, -⟩ := List.cons.inj hrest
      exact Or.inl rfl
    · obtain ⟨rfl, htail⟩ := List.cons.inj hrest
      obtain ⟨rfl, -⟩ := List.cons.inj htail
      exact Or.inr (Or.inl rfl)
    · obtain ⟨rfl, htail⟩ := List.cons.inj hrest
      obtain ⟨rfl, htail'⟩ := List.cons.inj htail
      obtain ⟨rfl, hend⟩ := List.cons.inj htail'
      obtain ⟨rfl, -⟩ := List.append_eq_nil_iff.mp hend
      exact Or.inr (Or.inr rfl)

theorem card_tablePaths (v : Nat) : (tablePaths v).card ≤ 3 := Finset.card_le_three

/-- What is missing on the path of `v`, counted along the walk. -/
theorem missing_eq_card (s : State) (v : Nat) :
    missing s v = ((tablePaths v).filter fun is => reach s is = none).card := by
  have hcons : ∀ f i (is : List (Fin 512)), follow present child (tables s.ram) f (i :: is)
      = if present (tables s.ram f i) then
          follow present child (tables s.ram) (child (tables s.ram f i)) is else none :=
    fun _ _ _ => rfl
  have hnil : ∀ f, follow present child (tables s.ram) f ([] : List (Fin 512)) = some f :=
    fun _ => rfl
  rw [tablePaths, Finset.filter_insert, Finset.filter_insert, Finset.filter_singleton]
  unfold missing reach
  simp only [path, missingFrom, hcons, hnil]
  -- one case for the first level at which the walk stops
  by_cases htop : present (tables s.ram s.vmm.pml4 (index 39 v)) = true
  · simp only [htop, if_true]
    by_cases hmiddle : present (tables s.ram (child (tables s.ram s.vmm.pml4 (index 39 v)))
        (index 30 v)) = true
    · simp only [hmiddle, if_true]
      split <;> simp
    · simp [hmiddle]
  · simp [htop]

theorem missingTables_succ {s s' : State} {v n : Nat} (haligned : PAGE_SIZE ∣ v)
    (h : InKernelHalf v (n + 1)) (adds : Adds v s s') :
    (missingTables s v (n + 1)).card
      = missing s v + (missingTables s' (v + PAGE_SIZE) n).card := by
  have hpage : ∀ i < n, KernelPage (v + PAGE_SIZE + PAGE_SIZE * i) := by
    intro i hi
    have hnext := h.page haligned (show i + 1 < n + 1 by omega)
    rwa [Nat.mul_succ, Nat.add_comm (PAGE_SIZE * i), ← Nat.add_assoc] at hnext
  have hunion : missingTables s v (n + 1)
      = (tablePaths v).filter (fun is => reach s is = none) ∪
        missingTables s' (v + PAGE_SIZE) n := by
    ext js
    simp only [missingTables, Finset.mem_union, Finset.mem_filter, Finset.mem_biUnion,
      Finset.mem_range]
    constructor
    · rintro ⟨⟨i, hi, hjs⟩, hnone⟩
      by_cases hon : js ∈ tablePaths v
      · exact Or.inl ⟨hon, hnone⟩
      · cases i with
        | zero => exact absurd hjs hon
        | succ i =>
            rw [Nat.mul_succ, Nat.add_comm (PAGE_SIZE * i), ← Nat.add_assoc] at hjs
            obtain ⟨hshared, hne⟩ := mem_tablePaths.mp hjs
            have hoff : ¬ js <+: path v := fun hshared => hon (mem_tablePaths.mpr ⟨hshared, hne⟩)
            exact Or.inr ⟨⟨i, by omega, hjs⟩,
              (adds.reach _ js (hpage i (by omega)) hshared).mpr ⟨hnone, hoff⟩⟩
    · rintro (⟨hon, hnone⟩ | ⟨⟨i, hi, hjs⟩, hnone⟩)
      · exact ⟨⟨0, Nat.succ_pos _, hon⟩, hnone⟩
      · have hold := (adds.reach _ js (hpage i hi) (mem_tablePaths.mp hjs).1).mp hnone
        refine ⟨⟨i + 1, by omega, ?_⟩, hold.1⟩
        rwa [Nat.mul_succ, Nat.add_comm (PAGE_SIZE * i), ← Nat.add_assoc]
  have hdisjoint : Disjoint ((tablePaths v).filter fun is => reach s is = none)
      (missingTables s' (v + PAGE_SIZE) n) := by
    rw [Finset.disjoint_left]
    intro js hon hlater
    simp only [missingTables, Finset.mem_filter, Finset.mem_biUnion, Finset.mem_range] at hlater
    obtain ⟨⟨i, hi, hjs⟩, hnone⟩ := hlater
    have hoff := ((adds.reach _ js (hpage i hi) (mem_tablePaths.mp hjs).1).mp hnone).2
    exact hoff (mem_tablePaths.mp (Finset.mem_filter.mp hon).1).1
  rw [hunion, Finset.card_union_of_disjoint hdisjoint, ← missing_eq_card]

theorem missingTables_le (s : State) (v n : Nat) : (missingTables s v n).card ≤ n * 3 := by
  have hsum := Finset.card_biUnion_le_card_mul (Finset.range n)
    (fun i => tablePaths (v + PAGE_SIZE * i)) 3 fun i _ => card_tablePaths _
  rw [Finset.card_range] at hsum
  exact (Finset.card_filter_le _ _).trans hsum

theorem missing_le_missingTables {s : State} {v n : Nat} :
    missing s v ≤ (missingTables s v (n + 1)).card := by
  rw [missing_eq_card]
  apply Finset.card_le_card
  intro js hjs
  rw [Finset.mem_filter] at hjs
  refine Finset.mem_filter.mpr ⟨Finset.mem_biUnion.mpr ⟨0, ?_, hjs.1⟩, hjs.2⟩
  exact Finset.mem_range.mpr (Nat.succ_pos n)

/-- Four frames for each page are enough. -/
theorem Heap.enough_of_le {h : Heap} {n : Nat} (hn : 4 * n ≤ freeCount h.mem) : h.Enough n := by
  have hmissing := missingTables_le h.mem h.kernel.kernelHeap n
  have hframes : n + n * 3 ≤ 4 * n := by omega
  exact (Nat.add_le_add_left hmissing n).trans (hframes.trans hn)

/-! ### Allocations -/

section Alloc

variable {p4 : Nat} {s : State} {own : Nat → Option Use}

/-- Mapping `v` does not change which pages after it are mapped. -/
theorem Adds.mapped_later {s' : State} {v w n : Nat} (adds : Adds v s s') (hw : KernelPage w)
    (h : w ∈ pages (v + PAGE_SIZE) n) : Mapped s' w ↔ Mapped s w := by
  rw [adds.mapped w hw]
  refine or_iff_left ?_
  rintro rfl
  obtain ⟨i, -, hi⟩ := mem_pages.mp h
  simp only [PAGE_SIZE] at hi
  omega

/-- The rest of `kmalloc_pages`, from page `i` on. -/
theorem KernelPages.kmallocPagesLoop {first n i : Nat} (ok : KernelPages p4 s own)
    (haligned : PAGE_SIZE ∣ first) (h : InKernelHalf first (i + n))
    (enough : n + (missingTables s (first + PAGE_SIZE * i) n).card ≤ freeCount s) :
    (∃ w ∈ pages (first + PAGE_SIZE * i) n, Mapped s w) ∧
        (Paging.kmallocPagesLoop first n i s).1 = NULL ∨
      (∀ w ∈ pages (first + PAGE_SIZE * i) n, ¬ Mapped s w) ∧
        ∃ s' own', Paging.kmallocPagesLoop first n i s = (first, s') ∧ KernelPages p4 s' own' ∧
          freeCount s' + (n + (missingTables s (first + PAGE_SIZE * i) n).card) = freeCount s ∧
          ∀ w, KernelPage w →
            (Mapped s' w ↔ Mapped s w ∨ w ∈ pages (first + PAGE_SIZE * i) n) := by
  induction n generalizing s own i with
  | zero =>
      refine Or.inr ⟨fun w hw => ?_, s, own, rfl, ok, rfl, fun w _ => ?_⟩
      · exact absurd hw (Finset.notMem_empty w)
      · exact (or_iff_left (Finset.notMem_empty w)).symm
  | succ n ih =>
      have hpage : KernelPage (first + PAGE_SIZE * i) := h.page haligned (by omega)
      have haddr : wadd 64 first (wmul 64 i PAGE_SIZE) = first + PAGE_SIZE * i := by
        have hbound := hpage.bound
        rw [wmul_of_lt (by rw [Nat.mul_comm]; omega), Nat.mul_comm i, wadd_of_lt hbound]
      have hnext : first + PAGE_SIZE * i + PAGE_SIZE = first + PAGE_SIZE * (i + 1) := by
        rw [Nat.mul_succ, Nat.add_assoc]
      have hrange : InKernelHalf (first + PAGE_SIZE * i) (n + 1) := h.drop
      have hlater : ∀ w ∈ pages (first + PAGE_SIZE * (i + 1)) n, KernelPage w := by
        intro w hw
        obtain ⟨j, hj, rfl⟩ := mem_pages.mp hw
        rw [Nat.add_assoc, ← Nat.mul_add]
        exact h.page haligned (by omega)
      have hfirst := @missing_le_missingTables s (first + PAGE_SIZE * i) n
      obtain ⟨k, htake, hnull, ⟨hthere, hrun⟩ | ⟨habsent, s', own', hrun, ok', adds⟩⟩ :=
        ok.addPage hpage (by omega)
      · refine Or.inl ⟨⟨_, mem_pages.mpr ⟨0, Nat.succ_pos n, rfl⟩, hthere⟩, ?_⟩
        rw [Paging.kmallocPagesLoop, htake]
        dsimp only
        rw [if_neg hnull, haddr, if_pos hrun]
      · have hsum := missingTables_succ (Nat.dvd_add haligned (dvd_mul_right _ _)) hrange adds
        have hcount := adds.count
        have henough : n + (missingTables s' (first + PAGE_SIZE * (i + 1)) n).card ≤ freeCount s' := by
          rw [← hnext]
          omega
        have hbody : Paging.kmallocPagesLoop first (n + 1) i s
            = Paging.kmallocPagesLoop first n (i + 1) s' := by
          rw [Paging.kmallocPagesLoop, htake]
          dsimp only
          rw [if_neg hnull, haddr, hrun]
          dsimp only
          rw [if_neg (kernelBase_ne_null hpage.base)]
        have hsame : ∀ w ∈ pages (first + PAGE_SIZE * (i + 1)) n, (Mapped s' w ↔ Mapped s w) := by
          intro w hw
          have hafter : w ∈ pages (first + PAGE_SIZE * i + PAGE_SIZE) n := by
            rw [hnext]
            exact hw
          exact adds.mapped_later (hlater w hw) hafter
        rw [hbody, pages_succ, hnext]
        rcases ih ok' (by rwa [Nat.add_right_comm, Nat.add_assoc]) henough with
          ⟨⟨w, hw, hthere⟩, hnone⟩ | ⟨hfree, s'', own'', hrest, ok'', hleft, hmapped⟩
        · refine Or.inl ⟨⟨w, Finset.mem_insert_of_mem hw, ?_⟩, hnone⟩
          exact (hsame w hw).mp hthere
        · rw [hnext] at hsum
          refine Or.inr ⟨fun w hw => ?_, s'', own'', hrest, ok'', by omega, fun w hw => ?_⟩
          · rcases Finset.mem_insert.mp hw with rfl | hw
            · exact habsent
            · exact fun hthere => hfree w hw ((hsame w hw).mpr hthere)
          · rw [hmapped w hw, adds.mapped w hw, Finset.mem_insert, or_assoc]

/-- An allocation maps the pages from the cursor on, unless one of them is mapped. -/
theorem KernelPages.kmallocPages {heap count : Nat} (ok : KernelPages p4 s own)
    (haligned : PAGE_SIZE ∣ heap) (hcount : 1 ≤ count) (h : InKernelHalf heap count)
    (enough : count + (missingTables s heap count).card ≤ freeCount s) :
    (∃ w ∈ pages heap count, Mapped s w) ∧ (Paging.kmallocPages count ⟨s, heap⟩).1 = NULL ∨
      (∀ w ∈ pages heap count, ¬ Mapped s w) ∧
        ∃ s' own', Paging.kmallocPages count ⟨s, heap⟩ = (heap, ⟨s', wadd 64 heap PAGE_SIZE⟩) ∧
          KernelPages p4 s' own' ∧
          freeCount s' + (count + (missingTables s heap count).card) = freeCount s ∧
          ∀ w, KernelPage w → (Mapped s' w ↔ Mapped s w ∨ w ∈ pages heap count) := by
  obtain ⟨n, rfl⟩ : ∃ n, count = n + 1 := ⟨count - 1, by omega⟩
  have hpage : KernelPage heap := h.page haligned (Nat.succ_pos n)
  have hlater : ∀ w ∈ pages (heap + PAGE_SIZE) n, KernelPage w := by
    intro w hw
    obtain ⟨j, hj, rfl⟩ := mem_pages.mp hw
    have hnext := h.page haligned (show j + 1 < n + 1 by omega)
    rwa [Nat.mul_succ, Nat.add_comm (PAGE_SIZE * j), ← Nat.add_assoc] at hnext
  have hfirst := @missing_le_missingTables s heap n
  have hnull := kernelBase_ne_null hpage.base
  obtain ⟨k, htake, hframe, ⟨hthere, hrun⟩ | ⟨habsent, s', own', hrun, ok', adds⟩⟩ :=
    ok.addPage hpage (by omega)
  · refine Or.inl ⟨⟨heap, mem_pages.mpr ⟨0, Nat.succ_pos n, rfl⟩, hthere⟩, ?_⟩
    have hfail : (Paging.kmallocPage ⟨s, heap⟩).1 = NULL := by
      rw [Paging.kmallocPage, htake]
      dsimp only
      rw [if_neg hframe, if_pos hrun]
    rw [Paging.kmallocPages]
    dsimp only
    rw [if_pos hfail]
  · have hmade : Paging.kmallocPage ⟨s, heap⟩ = (heap, ⟨s', wadd 64 heap PAGE_SIZE⟩) := by
      rw [Paging.kmallocPage, htake]
      dsimp only
      rw [if_neg hframe, hrun]
      dsimp only
      rw [if_neg hnull]
    have hbody : Paging.kmallocPages (n + 1) ⟨s, heap⟩
        = ((Paging.kmallocPagesLoop heap n 1 s').1,
          ⟨(Paging.kmallocPagesLoop heap n 1 s').2, wadd 64 heap PAGE_SIZE⟩) := by
      rw [Paging.kmallocPages, hmade]
      dsimp only
      rw [if_neg hnull, Nat.add_sub_cancel]
    have hsum := missingTables_succ haligned h adds
    have hused := adds.count
    have hone : heap + PAGE_SIZE * 1 = heap + PAGE_SIZE := by rw [Nat.mul_one]
    rw [hbody, pages_succ]
    rcases ok'.kmallocPagesLoop (i := 1) haligned (by rwa [Nat.add_comm]) (by rw [hone]; omega) with
      ⟨⟨w, hw, hthere⟩, hnone⟩ | ⟨hfree, s'', own'', hrest, ok'', hleft, hmapped⟩
    · rw [hone] at hw
      refine Or.inl ⟨⟨w, Finset.mem_insert_of_mem hw, ?_⟩, hnone⟩
      exact (adds.mapped_later (hlater w hw) hw).mp hthere
    · rw [hone] at hfree hleft hmapped
      rw [hrest]
      refine Or.inr ⟨fun w hw => ?_, s'', own'', rfl, ok'', by omega, fun w hw => ?_⟩
      · rcases Finset.mem_insert.mp hw with rfl | hw
        · exact habsent
        · exact fun hthere => hfree w hw ((adds.mapped_later (hlater w hw) hw).mpr hthere)
      · rw [hmapped w hw, adds.mapped w hw, Finset.mem_insert, or_assoc]

end Alloc

/-- `kmalloc_page` is `kmalloc_pages` for one page. -/
theorem kmallocPages_one (k : Kernel) : kmallocPages 1 k = kmallocPage k := by
  simp only [kmallocPages]
  split
  next hnull => exact Prod.ext hnull.symm rfl
  next => rfl

/-! ### Freeing -/

section Free

variable {p4 : Nat} {s : State} {own : Nat → Option Use}

/-- Giving back a frame that is not in use. -/
theorem KernelPages.freePage {k : Nat} (ok : KernelPages p4 s own) (loose : Loose s own k) :
    KernelPages p4 (pmmFreePage (PAGE_SIZE * k) s) own ∧
      ∀ w, KernelPage w → (Mapped (pmmFreePage (PAGE_SIZE * k) s) w ↔ Mapped s w) := by
  have forest := ok.owned.forest
  have hroot := ok.root
  have hvmm := pmmFreePage_vmm (PAGE_SIZE * k) s
  have same : ∀ g u i, own g = some u →
      tables (pmmFreePage (PAGE_SIZE * k) s).ram g i = tables s.ram g i :=
    fun g u i hu => tables_freePage loose.covered (forest.table g u hu) i
  refine ⟨⟨ok.owned.freePage loose, by rw [hvmm, ok.pml4], fun w js f i hw hjs hf hpresent => ?_⟩,
    fun w hw => ?_⟩
  · rw [reach_same forest hroot hvmm same hjs.length_le] at hf
    obtain ⟨u, hu, -⟩ := own_of_prefix forest ok.root hw.high hjs hf
    rw [same f u i hu] at hpresent ⊢
    exact ok.writable w js f i hw hjs hf hpresent
  · unfold Mapped
    rw [leafEntry_same forest hroot hvmm same hw.high]

/-- Clearing the leaf entry of a page that is mapped. -/
theorem KernelPages.clearLeaf {v pt : Nat} (ok : KernelPages p4 s own) (hv : KernelPage v)
    (hpt : reach s (path v) = some pt) (hpresent : present (tables s.ram pt (index 12 v)) = true) :
    ∃ k own', child (tables s.ram pt (index 12 v)) = PAGE_SIZE * k ∧
      KernelPages p4 (setEntry s pt (index 12 v) 0) own' ∧
      Loose (setEntry s pt (index 12 v) 0) own' k ∧
      ∀ w, KernelPage w → (Mapped (setEntry s pt (index 12 v) 0) w ↔ Mapped s w ∧ w ≠ v) := by
  have forest := ok.owned.forest
  obtain ⟨u, hu, hdepth⟩ := own_of_prefix forest ok.root hv.high List.prefix_rfl hpt
  change u.depth = 3 at hdepth
  obtain ⟨k, hk, owned', loose⟩ := ok.owned.clearLeaf hu hdepth hpresent
  refine ⟨k, _, hk, ⟨owned', ok.pml4, fun w js f i hw hjs hf hthere => ?_⟩, loose, fun w hw => ?_⟩
  · rw [reach_setEntry forest ok.root hv.high hpt hjs.length_le] at hf
    by_cases hhere : f = pt ∧ i = index 12 v
    · obtain ⟨rfl, rfl⟩ := hhere
      rw [tables_setEntry_same (by decide)] at hthere
      cases hthere
    · obtain ⟨x, hx, -⟩ := own_of_prefix forest ok.root hw.high hjs hf
      rw [tables_setEntry_other (forest.table pt u hu).aligned (forest.table f x hx).aligned
        hhere] at hthere ⊢
      exact ok.writable w js f i hw hjs hf hthere
  · unfold Mapped
    rw [leafEntry_write forest ok.root hv.high hw.high hpt (by decide)]
    by_cases hsame : pageKey w = pageKey v
    · rw [if_pos hsame]
      refine iff_of_false ?_ fun h => h.2 (hw.eq_of_pageKey hv hsame)
      rintro ⟨entry, hentry⟩
      cases hentry
    · rw [if_neg hsame]
      exact (and_iff_left fun heq => hsame (congrArg pageKey heq)).symm

/-- A page that is mapped is given back with its frame. -/
theorem KernelPages.kfreePage {v : Nat} (ok : KernelPages p4 s own) (hv : KernelPage v)
    (hmapped : Mapped s v) :
    ∃ own', KernelPages p4 (kfreePage v s) own' ∧
      ∀ w, KernelPage w → (Mapped (Paging.kfreePage v s) w ↔ Mapped s w ∧ w ≠ v) := by
  have forest := ok.owned.forest
  obtain ⟨entry, hentry⟩ := hmapped
  obtain ⟨pt, hpt, rfl, hpresent⟩ := reach_of_leafEntry hentry
  obtain ⟨u, hu, -⟩ := own_of_prefix forest ok.root hv.high List.prefix_rfl hpt
  have hptr := forest.entryPtr_ne_null hu (index 12 v)
  obtain ⟨k, own', hk, ok', loose, hclear⟩ := ok.clearLeaf hv hpt hpresent
  have hframe : PAGE_SIZE * k ≠ NULL := fun h =>
    loose.nonzero ((Nat.mul_eq_zero.mp h).resolve_left (by decide))
  have hphys : pagingGetPhysicalAddress v s = PAGE_SIZE * k := by
    rw [lookup_of_reach hpt, if_neg hptr, hk, Nat.mod_eq_zero_of_dvd hv.aligned, Nat.add_zero]
  have hbody : Paging.kfreePage v s = pmmFreePage (PAGE_SIZE * k) (setEntry s pt (index 12 v) 0) := by
    rw [Paging.kfreePage, hphys, if_neg hframe, pagingUnmapPage_of_reach hpt hptr]
  obtain ⟨okFinal, hsame⟩ := ok'.freePage loose
  rw [hbody]
  exact ⟨own', okFinal, fun w hw => (hsame w hw).trans (hclear w hw)⟩

/-- Freeing pages that are mapped, from page `i` on. -/
theorem KernelPages.kfreePagesLoop {addr n i : Nat} (ok : KernelPages p4 s own)
    (hpages : ∀ w ∈ pages (addr + PAGE_SIZE * i) n, KernelPage w ∧ Mapped s w) :
    ∃ own', KernelPages p4 (kfreePagesLoop addr n i s) own' ∧
      ∀ w, KernelPage w → (Mapped (Paging.kfreePagesLoop addr n i s) w ↔
        Mapped s w ∧ w ∉ pages (addr + PAGE_SIZE * i) n) := by
  induction n generalizing s own i with
  | zero =>
      refine ⟨own, ok, fun w _ => ?_⟩
      exact (and_iff_left (Finset.notMem_empty w)).symm
  | succ n ih =>
      have hnext : addr + PAGE_SIZE * i + PAGE_SIZE = addr + PAGE_SIZE * (i + 1) := by
        rw [Nat.mul_succ, Nat.add_assoc]
      rw [pages_succ, hnext] at hpages ⊢
      obtain ⟨hv, hmapped⟩ := hpages _ (Finset.mem_insert_self _ _)
      have hpage : wadd 64 addr (wmul 64 i PAGE_SIZE) = addr + PAGE_SIZE * i := by
        have hbound := hv.bound
        rw [wmul_of_lt (by rw [Nat.mul_comm]; omega), Nat.mul_comm i, wadd_of_lt hbound]
      obtain ⟨own₁, ok₁, hfirst⟩ := ok.kfreePage hv hmapped
      rw [Paging.kfreePagesLoop, hpage]
      have hrest : ∀ w ∈ pages (addr + PAGE_SIZE * (i + 1)) n,
          KernelPage w ∧ Mapped (Paging.kfreePage (addr + PAGE_SIZE * i) s) w := by
        intro w hw
        obtain ⟨hpage, hthere⟩ := hpages w (Finset.mem_insert_of_mem hw)
        refine ⟨hpage, (hfirst w hpage).mpr ⟨hthere, ?_⟩⟩
        rintro rfl
        obtain ⟨j, -, hj⟩ := mem_pages.mp hw
        simp only [PAGE_SIZE] at hj
        omega
      obtain ⟨own', ok', hlast⟩ := ih ok₁ hrest
      refine ⟨own', ok', fun w hw => ?_⟩
      rw [hlast w hw, hfirst w hw, Finset.mem_insert, not_or, and_assoc]

end Free

/-! ### Steps -/

structure Heap.Ok (p4 : Nat) (h : Heap) (own : Nat → Option Use) : Prop where
  kernelPages : KernelPages p4 h.mem own
  heap : HeapOk h.kernel.kernelHeap
  live : ∀ a ∈ h.live, KernelPage a
  mapped : ∀ w, KernelPage w → (Mapped h.mem w ↔ w ∈ h.live)

section Step

variable {p4 : Nat} {h : Heap} {own : Nat → Option Use} (ok : h.Ok p4 own)
include ok

theorem Heap.Ok.served : h.Served := by
  have hread : ∀ a ∈ h.live, writableEntry h.mem a = leafEntry h.mem a := fun a ha =>
    ok.kernelPages.writableEntry (ok.live a ha)
  refine ⟨fun a ha => ?_, fun a ha b hb entry entry' hentry hentry' hsame => ?_⟩
  · rw [hread a ha]
    exact (ok.mapped a (ok.live a ha)).mpr ha
  · rw [hread a ha] at hentry
    rw [hread b hb] at hentry'
    exact ok.kernelPages.frames_distinct (ok.live a ha) (ok.live b hb) hentry hentry' hsame

/-- An allocation that is not clear fails. -/
theorem Heap.Ok.fails {count : Nat} (hcount : 1 ≤ count) (enough : h.Enough count)
    (hblocked : ¬ h.Clear count) : (kmallocPages count h.kernel).1 = NULL := by
  obtain ⟨result, s', heap', own', hrun, -, -, -, hresult⟩ :=
    ok.kernelPages.owned.kmallocPages ok.kernelPages.pml4 (n := count) ok.heap
  change kmallocPages count h.kernel = _ at hrun
  rw [hrun]
  rcases hresult with hnone | ⟨haligned, hinside, hstart⟩
  · exact hnone
  · subst hstart
    rcases ok.kernelPages.kmallocPages haligned hcount hinside enough with
      ⟨-, hnone⟩ | ⟨hfree, -⟩
    · change (kmallocPages count h.kernel).1 = NULL at hnone
      rwa [hrun] at hnone
    · refine absurd ⟨hinside, Finset.disjoint_left.mpr fun w hw hlive => ?_⟩ hblocked
      exact hfree w hw ((ok.mapped w (ok.live w hlive)).mpr hlive)

/-- An allocation that is clear succeeds. -/
theorem Heap.Ok.allocates {count : Nat} (hcount : 1 ≤ count) (enough : h.Enough count)
    (clear : h.Clear count) :
    (kmallocPages count h.kernel).1 = h.kernel.kernelHeap ∧
      (kmallocPages count h.kernel).2.kernelHeap = wadd 64 h.kernel.kernelHeap PAGE_SIZE ∧
      freeCount (kmallocPages count h.kernel).2.mem
        + (count + (missingTables h.mem h.kernel.kernelHeap count).card) = freeCount h.mem ∧
      ∃ own', (h.alloc count (kmallocPages count h.kernel)).Ok p4 own' := by
  obtain ⟨hinside, hdisjoint⟩ := clear
  obtain ⟨haligned, hzero | hbase⟩ := ok.heap
  · have hlow := hinside.1
    rw [hzero] at hlow
    exact absurd hlow (by decide)
  have hpages : ∀ w ∈ pages h.kernel.kernelHeap count, KernelPage w := by
    intro w hw
    obtain ⟨i, hi, rfl⟩ := mem_pages.mp hw
    exact hinside.page haligned hi
  rcases ok.kernelPages.kmallocPages haligned hcount hinside enough with
    ⟨⟨w, hw, hthere⟩, -⟩ | ⟨-, s', own', hrun, ok', hleft, hmapped⟩
  · have hlive := (ok.mapped w (hpages w hw)).mp hthere
    exact absurd hlive (Finset.disjoint_left.mp hdisjoint hw)
  · change kmallocPages count h.kernel = _ at hrun
    rw [hrun]
    refine ⟨rfl, rfl, hleft, own', ?_⟩
    unfold Heap.alloc
    rw [if_neg (kernelBase_ne_null hinside.1)]
    refine ⟨ok', ?_, fun a ha => ?_, fun w hw => ?_⟩
    · obtain ⟨a, ha⟩ := haligned
      change HeapOk (wadd 64 h.kernel.kernelHeap PAGE_SIZE)
      rw [ha] at hbase ⊢
      exact heapOk_next hbase.1 hbase.2
    · rcases Finset.mem_union.mp ha with ha | ha
      · exact ok.live a ha
      · exact hpages a ha
    · change Mapped s' w ↔ w ∈ h.live ∪ pages h.kernel.kernelHeap count
      rw [hmapped w hw, Finset.mem_union]
      exact or_congr_left (ok.mapped w hw)

/-- An allocation is granted exactly when it is clear. -/
theorem Heap.Ok.grants_alloc_iff {count : Nat} (hcount : 1 ≤ count) (enough : h.Enough count) :
    ((kmallocPages count h.kernel).1 ≠ NULL ∧
        InKernelHalf (kmallocPages count h.kernel).1 count ∧
        Disjoint (pages (kmallocPages count h.kernel).1 count) h.live ∧
        pages (kmallocPages count h.kernel).1 count
          ⊆ (h.alloc count (kmallocPages count h.kernel)).live) ∧
      (h.alloc count (kmallocPages count h.kernel)).Served ↔ h.Clear count := by
  constructor
  · rintro ⟨⟨hnonnull, -⟩, -⟩
    by_contra hblocked
    exact hnonnull (ok.fails hcount enough hblocked)
  · intro clear
    obtain ⟨hresult, -, -, own', ok'⟩ := ok.allocates hcount enough clear
    refine ⟨?_, ok'.served⟩
    have hnonnull := kernelBase_ne_null clear.1.1
    unfold Heap.alloc
    rw [hresult, if_neg hnonnull]
    exact ⟨hnonnull, clear.1, clear.2, Finset.subset_union_right⟩

/-- After an allocation of more than one page, the cursor is at a live page. -/
theorem Heap.Ok.blocks {count : Nat} (hcount : 2 ≤ count) (enough : h.Enough count)
    (clear : h.Clear count) : ¬ (h.alloc count (kmallocPages count h.kernel)).Clear 1 := by
  obtain ⟨hresult, hcursor, -⟩ := ok.allocates (by omega) enough clear
  have hsecond : h.kernel.kernelHeap + PAGE_SIZE ∈ pages h.kernel.kernelHeap count :=
    mem_pages.mpr ⟨1, hcount, by rw [Nat.mul_one]⟩
  have hbound := (InKernelHalf.page ok.heap.1 clear.1 (show 1 < count by omega)).bound
  rw [Nat.mul_one] at hbound
  rintro ⟨-, hdisjoint⟩
  refine Finset.disjoint_left.mp hdisjoint (mem_pages.mpr ⟨0, Nat.one_pos, rfl⟩) ?_
  change (kmallocPages count h.kernel).2.kernelHeap + PAGE_SIZE * 0 ∈ (h.alloc count _).live
  unfold Heap.alloc
  rw [hcursor, wadd_of_lt hbound, Nat.mul_zero, Nat.add_zero, hresult,
    if_neg (kernelBase_ne_null clear.1.1)]
  exact Finset.mem_union_right _ hsecond

/-- With room for one more page, there are frames enough for it after an allocation. -/
theorem Heap.Ok.enough_next {count : Nat} (hcount : 1 ≤ count) (clear : h.Clear count)
    (hroom : 4 * (count + 1) ≤ freeCount h.mem) :
    (h.alloc count (kmallocPages count h.kernel)).Enough 1 := by
  have enough : h.Enough count := Heap.enough_of_le (by omega)
  obtain ⟨-, -, hleft, -⟩ := ok.allocates hcount enough clear
  have hmissing := missingTables_le h.mem h.kernel.kernelHeap count
  apply Heap.enough_of_le
  change 4 * 1 ≤ freeCount (kmallocPages count h.kernel).2.mem
  omega

/-- Freeing live pages. -/
theorem Heap.Ok.frees {addr count : Nat} (hlive : pages addr count ⊆ h.live) :
    ∃ own', Heap.Ok p4 ⟨{ h.kernel with mem := kfreePages addr count h.mem },
      h.live \ pages addr count⟩ own' := by
  have hpages : ∀ w ∈ pages (addr + PAGE_SIZE * 0) count, KernelPage w ∧ Mapped h.mem w := by
    intro w hw
    have hw := hlive hw
    exact ⟨ok.live w hw, (ok.mapped w (ok.live w hw)).mpr hw⟩
  obtain ⟨own', ok', hmapped⟩ := ok.kernelPages.kfreePagesLoop hpages
  refine ⟨own', ok', ok.heap, fun a ha => ok.live a (Finset.mem_sdiff.mp ha).1, fun w hw => ?_⟩
  rw [Finset.mem_sdiff, ← ok.mapped w hw]
  exact hmapped w hw

omit ok in
/-- `kfree_page` is `kfree_pages` for one page. -/
theorem Heap.frees_one {addr : Nat} (hbound : addr < 2 ^ 64) :
    (⟨{ h.kernel with mem := kfreePage addr h.mem }, h.live.erase addr⟩ : Heap)
      = ⟨{ h.kernel with mem := kfreePages addr 1 h.mem }, h.live \ pages addr 1⟩ := by
  have hpages : pages addr 1 = {addr} := by
    rw [pages_succ]
    rfl
  have hmem : kfreePages addr 1 h.mem = kfreePage addr h.mem := by
    rw [kfreePages, kfreePagesLoop, wmul_of_lt (by decide), Nat.zero_mul, wadd_of_lt hbound]
    rfl
  rw [hpages, hmem, Finset.sdiff_singleton_eq_erase]

end Step

/-- One call: it grants what it is asked for exactly when it is clear, and then keeps the
invariant. -/
theorem Heap.Ok.step {p4 : Nat} {h h' : Heap} {own : Nat → Option Use} {call : RangeCall}
    (ok : h.Ok p4 own) (step : RangeStep h call h') :
    (h.Grants call h' ↔ h.Meets call) ∧ (h.Meets call → ∃ own', h'.Ok p4 own') := by
  have free : ∀ {addr count : Nat} {call : RangeCall}, h.allocated call = none → h.Meets call →
      pages addr count ⊆ h.live →
      h' = ⟨{ h.kernel with mem := kfreePages addr count h.mem }, h.live \ pages addr count⟩ →
      (h.Grants call h' ↔ h.Meets call) ∧ (h.Meets call → ∃ own', h'.Ok p4 own') := by
    rintro addr count call hnone hmeets hlive rfl
    obtain ⟨own', ok'⟩ := ok.frees hlive
    refine ⟨iff_of_true ⟨fun result n hsome => ?_, ok'.served⟩ hmeets, fun _ => ⟨own', ok'⟩⟩
    rw [hnone] at hsome
    cases hsome
  have alloc : ∀ {count : Nat} {call : RangeCall}, 1 ≤ count → h.Enough count →
      h.allocated call = some ((kmallocPages count h.kernel).1, count) →
      (h.Meets call ↔ h.Clear count) → h' = h.alloc count (kmallocPages count h.kernel) →
      (h.Grants call h' ↔ h.Meets call) ∧ (h.Meets call → ∃ own', h'.Ok p4 own') := by
    rintro count call hcount enough hsome hmeets rfl
    refine ⟨?_, fun h => (ok.allocates hcount enough (hmeets.mp h)).2.2.2⟩
    rw [hmeets, ← ok.grants_alloc_iff hcount enough]
    refine and_congr_left fun _ => ⟨fun grants => grants _ _ hsome, ?_⟩
    rintro grants result n hresult
    rw [hsome] at hresult
    cases hresult
    exact grants
  cases step with
  | kmallocPage enough =>
      have hone := kmallocPages_one h.kernel
      refine alloc (le_refl 1) enough ?_ Iff.rfl ?_
      · rw [hone]
        rfl
      · rw [hone]
  | kmallocPages hcount enough => exact alloc hcount enough rfl Iff.rfl rfl
  | @kfreePage addr hlive =>
      refine @free addr 1 _ rfl trivial ?_ (Heap.frees_one (ok.live _ hlive).bound)
      intro w hw
      obtain ⟨i, hi, rfl⟩ := mem_pages.mp hw
      obtain rfl : i = 0 := by omega
      exact hlive
  | kfreePages hlive => exact free rfl trivial hlive rfl

/-! ### Runs -/

section Start

variable {mmap : List MemoryMapEntry} {p4 : Nat} {ram : Store} (layout : BootLayout mmap p4 ram)
include layout

/-- Nothing is reachable in the kernel's half at first. -/
theorem unreached_start {v : Nat} {i : Fin 512} {is : List (Fin 512)} (hv : KernelPage v)
    (hpath : i :: is <+: path v) : reach (pagingBoot mmap p4 ram) (i :: is) = none := by
  have hi : i = index 39 v := (List.cons_prefix_cons.mp hpath).1
  have hne : i ≠ 0 := by
    rintro rfl
    have hindex := index_val 39 v
    rw [← hi, Fin.val_zero] at hindex
    have hbase := hv.base
    have hbound := hv.bound
    simp only [KERNEL_BASE] at hbase
    omega
  have hslot := (pagingBoot_slots layout i).1
  rw [if_neg hne] at hslot
  change follow present child (tables (pagingBoot mmap p4 ram).ram) p4 (i :: is) = none
  rw [follow, hslot]
  rfl

/-- `boot.asm` makes the entry of the first table writable. -/
theorem writable_boot : writable (p3Table p4 + 3) = true := by
  obtain ⟨a, rfl⟩ := layout.aligned
  have ha : a + 1 < 2 ^ 40 := by
    have hinside := layout.inKernel
    simp only [PAGE_SIZE, kernelEnd] at hinside
    omega
  have hentry := @pagingMakeEntry_eq (a + 1) (PAGE_PRESENT ||| (PAGE_WRITABLE ||| 0)) ha (by decide)
  have hmade : p3Table (PAGE_SIZE * a) + 3
      = pagingMakeEntry (PAGE_SIZE * (a + 1)) (PAGE_PRESENT ||| (PAGE_WRITABLE ||| 0)) := by
    rw [hentry, Nat.mul_succ]
    rfl
  rw [hmade]
  exact writable_makeEntry _ _

theorem Heap.ok_start : (Heap.start mmap p4 ram).Ok p4 (bootUses p4) := by
  have start := Spaces.ok_start layout
  refine ⟨⟨start.owned, start.pml4, fun v js f i hv hjs hf hpresent => ?_⟩, start.heap,
    fun a ha => absurd ha (Finset.notMem_empty a), fun w hw => ?_⟩
  · cases js with
    | nil =>
        cases hf
        have hslot := (pagingBoot_slots layout i).1
        change writable (tables (pagingBoot mmap p4 ram).ram p4 i) = true
        change present (tables (pagingBoot mmap p4 ram).ram p4 i) = true at hpresent
        rw [hslot] at hpresent ⊢
        by_cases hi : i = 0
        · rw [if_pos hi]
          exact writable_boot layout
        · rw [if_neg hi] at hpresent
          cases hpresent
    | cons j js =>
        have hnone := unreached_start layout hv hjs
        change reach (pagingBoot mmap p4 ram) (j :: js) = some f at hf
        rw [hnone] at hf
        cases hf
  · refine iff_of_false ?_ (Finset.notMem_empty w)
    rintro ⟨entry, hentry⟩
    obtain ⟨pt, hpt, -⟩ := reach_of_leafEntry hentry
    have hnone := unreached_start layout hw (List.prefix_rfl)
    change reach (pagingBoot mmap p4 ram) (path w) = some pt at hpt
    rw [path, hnone] at hpt
    cases hpt

end Start

/-- **Ranges of pages.** In every run whose calls find frames enough, every allocation is granted
exactly when none of the pages that are asked for, from the cursor on, is live or past the last
one: each then returns pages that were not live, and live pages are mapped writable
to frames of their own. -/
theorem ranges_granted_iff {mmap : List MemoryMapEntry} {p4 : Nat} {ram : Store}
    {calls : List RangeCall} {h : Heap} (layout : BootLayout mmap p4 ram) :
    Run (fun h call h' => RangeStep h call h' ∧ h.Grants call h') (Heap.start mmap p4 ram) calls h ↔
      Run (fun h call h' => RangeStep h call h' ∧ h.Meets call) (Heap.start mmap p4 ram) calls h := by
  refine run_good_iff (J := fun _ => True) (I := fun h => ∃ own, h.Ok p4 own)
    (fun _ _ => trivial) ?_ ?_ trivial ⟨_, Heap.ok_start layout⟩
  · rintro h call h' - ⟨own, ok⟩ step
    exact (ok.step step).1
  · rintro h call h' - ⟨own, ok⟩ step meets
    exact (ok.step step).2 meets

theorem Heap.enough_start {n : Nat} (hn : 4 * n ≤ 16) :
    (Heap.start memMap 0x104000 fun _ => 0).Enough n :=
  Heap.enough_of_le (hn.trans freeCount_exampleBoot)

theorem Heap.clear_start {n : Nat} (hn : KERNEL_BASE + PAGE_SIZE * n ≤ 2 ^ 64) :
    (Heap.start memMap 0x104000 fun _ => 0).Clear n :=
  ⟨⟨le_refl _, hn⟩, Finset.disjoint_empty_right _⟩

/-- Three pages by one call. -/
theorem ranges_granted_iff_three :
    ∃ h, Run (fun h call h' => RangeStep h call h' ∧ h.Grants call h')
      (Heap.start memMap 0x104000 fun _ => 0) [.kmallocPages 3] h := by
  have step := RangeStep.kmallocPages (show 1 ≤ 3 by decide) (Heap.enough_start (by decide))
  have clear : (Heap.start memMap 0x104000 fun _ => 0).Clear 3 := Heap.clear_start (by decide)
  exact ⟨_, (ranges_granted_iff bootLayout_exampleBoot).mpr (.single ⟨step, clear⟩)⟩

/-- After `kmalloc_pages(2)`, `kmalloc_page` fails: the cursor is at the second of the two
pages. -/
theorem kmallocPage_after_two :
    ∃ h, Run RangeStep (Heap.start memMap 0x104000 fun _ => 0) [.kmallocPages 2] h ∧
      h.Enough 1 ∧ (kmallocPage h.kernel).1 = NULL := by
  have ok := Heap.ok_start bootLayout_exampleBoot
  have enough : (Heap.start memMap 0x104000 fun _ => 0).Enough 2 := Heap.enough_start (by decide)
  have clear : (Heap.start memMap 0x104000 fun _ => 0).Clear 2 := Heap.clear_start (by decide)
  have step := RangeStep.kmallocPages (show 1 ≤ 2 by decide) enough
  obtain ⟨-, -, -, own', ok'⟩ := ok.allocates (by decide) enough clear
  have hblocked := ok.blocks (le_refl 2) enough clear
  have hroom : 4 * (2 + 1) ≤ 16 := by decide
  have henough := ok.enough_next (by decide) clear (hroom.trans freeCount_exampleBoot)
  refine ⟨_, .single step, henough, ?_⟩
  rw [← kmallocPages_one]
  exact ok'.fails (le_refl 1) henough hblocked

end Curnel.Paging
