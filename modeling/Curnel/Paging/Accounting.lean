/-
The counters of the physical memory manager, next to the bits of the bitmap.

pmm_alloc_page and pmm_free_page move a page between both counters and change one bit
(`Counted.step`). What paging_init starts them with is right for a bitmap of less than a page
and memory that fills its bitmap: the pages of the bitmap lie in the first 4 MB, which are
counted already, and bits past the end of memory stand for pages that are handed out
(`accounted_in_runs_iff`).
-/

import Curnel.Paging.Pages
import Mathlib.Order.Interval.Finset.Nat

namespace Curnel.Paging

open Lib Lib.Bytes Lib.Word

/-! ### Bits -/

def setBits (s : State) : Nat :=
  ((Finset.range (s.pmm.bitmapSize * 8)).filter fun i => bitmapBit s i ≠ 0).card

/-- The clear bits that stand for existing pages, whichever these are. -/
def clearBits (existing : Nat → Prop) [DecidablePred existing] (s : State) : Nat :=
  ((Finset.range (s.pmm.bitmapSize * 8)).filter fun i => bitmapBit s i = 0 ∧ existing i).card

/-- The counters say what the bitmap says, and add up to the whole pages of the memory. -/
structure Accounted (existing : Nat → Prop) [DecidablePred existing] (s : State) : Prop where
  used : s.pmm.usedMemory = PAGE_SIZE * setBits s
  free : s.pmm.freeMemory = PAGE_SIZE * clearBits existing s
  total : s.pmm.usedMemory + s.pmm.freeMemory = PAGE_SIZE * (s.pmm.totalMemory / PAGE_SIZE)

section Bits

variable {existing : Nat → Prop} [DecidablePred existing] {s : State}

theorem free_range : (Finset.range (s.pmm.bitmapSize * 8)).filter (Free s)
    = (Finset.range (s.pmm.bitmapSize * 8)).filter fun i => bitmapBit s i = 0 :=
  Finset.filter_congr fun _ hi => and_iff_right (Finset.mem_range.mp hi)

theorem setBits_add_freeCount (s : State) : setBits s + freeCount s = s.pmm.bitmapSize * 8 := by
  have hsplit := Finset.card_filter_add_card_filter_not
    (s := Finset.range (s.pmm.bitmapSize * 8)) fun i => bitmapBit s i = 0
  rw [Finset.card_range, ← free_range] at hsplit
  rw [Nat.add_comm]
  exact hsplit

theorem clearBits_eq (hexisting : ∀ i, Free s i → existing i) :
    clearBits existing s = freeCount s := by
  unfold clearBits freeCount
  rw [free_range]
  refine congrArg Finset.card (Finset.filter_congr fun i hi => and_iff_left_of_imp fun hclear => ?_)
  exact hexisting i ⟨Finset.mem_range.mp hi, hclear⟩

/-- A page that does not exist is not counted, free or not. -/
theorem clearBits_takePage (ok : Addressable s) {j : Nat} (hfree : Free s j)
    (hmissing : ¬ existing j) : clearBits existing (pmmTakePage j s).2 = clearBits existing s := by
  unfold clearBits
  rw [pmmTakePage_bitmapSize]
  refine congrArg Finset.card (Finset.filter_congr fun i hi => ?_)
  have hi' : i < s.pmm.bitmapSize * 8 := Finset.mem_range.mp hi
  have htake := takePage_free ok hfree i
  unfold Free at htake
  rw [pmmTakePage_bitmapSize, and_iff_right hi', and_iff_right hi'] at htake
  rw [htake]
  constructor
  · rintro ⟨⟨hclear, -⟩, hexists⟩
    exact ⟨hclear, hexists⟩
  · rintro ⟨hclear, hexists⟩
    refine ⟨⟨hclear, ?_⟩, hexists⟩
    rintro rfl
    exact hmissing hexists

end Bits

/-! ### Giving a page back -/

section FreePage

variable {s : State} {k : Nat}

theorem pmmFreePage_free (hfree : Free s k) : pmmFreePage (PAGE_SIZE * k) s = s := by
  have halign : ¬ PAGE_SIZE * k % PAGE_SIZE ≠ 0 := not_not.mpr (Nat.mul_mod_right _ _)
  have hindex : PAGE_SIZE * k / PAGE_SIZE = k := Nat.mul_div_cancel_left k (by decide)
  rw [pmmFreePage, if_neg halign, hindex, if_pos hfree.2]

theorem pmmFreePage_used (hk : k < s.pmm.bitmapSize * 8) (hused : ¬ Free s k) :
    pmmFreePage (PAGE_SIZE * k) s = pmmClearPage k s := by
  have halign : ¬ PAGE_SIZE * k % PAGE_SIZE ≠ 0 := not_not.mpr (Nat.mul_mod_right _ _)
  have hindex : PAGE_SIZE * k / PAGE_SIZE = k := Nat.mul_div_cancel_left k (by decide)
  rw [pmmFreePage, if_neg halign, hindex, if_neg fun hclear => hused ⟨hk, hclear⟩]

theorem clearPage_freeCount (hk : k < s.pmm.bitmapSize * 8) (hused : ¬ Free s k) :
    freeCount (pmmClearPage k s) = freeCount s + 1 := by
  have hfree := freePage_free hk
  rw [pmmFreePage_used hk hused] at hfree
  have hinsert : (Finset.range (s.pmm.bitmapSize * 8)).filter (Free (pmmClearPage k s))
      = insert k ((Finset.range (s.pmm.bitmapSize * 8)).filter (Free s)) := by
    ext j
    rw [Finset.mem_filter, Finset.mem_insert, Finset.mem_filter, hfree j, Finset.mem_range]
    constructor
    · rintro ⟨hj, hold | rfl⟩
      · exact Or.inr ⟨hj, hold⟩
      · exact Or.inl rfl
    · rintro (rfl | ⟨hj, hold⟩)
      · exact ⟨hk, Or.inr rfl⟩
      · exact ⟨hj, Or.inl hold⟩
  have hnew : k ∉ (Finset.range (s.pmm.bitmapSize * 8)).filter (Free s) :=
    fun h => hused (Finset.mem_filter.mp h).2
  have hcard := Finset.card_insert_of_notMem hnew
  rw [← hinsert] at hcard
  exact hcard

end FreePage

/-! ### After `paging_init` -/

section PagingInit

variable (mmap : List MemoryMapEntry) (bootPml4 : Nat) (s : State)

/-- The first page that is free. -/
def firstFree (mmap : List MemoryMapEntry) : Nat :=
  max 1024 ((0x100000 + bitmapSizeOf mmap + 4095) / 4096)

theorem freeCount_pagingInit :
    freeCount (pagingInit mmap bootPml4 s) = bitmapSizeOf mmap * 8 - firstFree mmap := by
  have hfilter : (Finset.range (bitmapSizeOf mmap * 8)).filter (Free (pagingInit mmap bootPml4 s))
      = Finset.Ico (firstFree mmap) (bitmapSizeOf mmap * 8) := by
    ext j
    rw [Finset.mem_filter, Finset.mem_range, free_pagingInit_iff, Finset.mem_Ico]
    unfold firstFree kernelEnd PAGE_SIZE
    omega
  rw [freeCount, pagingInit_bitmapSize, hfilter, Nat.card_Ico]

/-- Used memory is counted as the bitmap has it if the bitmap is shorter than a page, and long
enough for the first 4 MB. -/
theorem used_pagingInit_iff :
    (pagingInit mmap bootPml4 s).pmm.usedMemory
        = PAGE_SIZE * setBits (pagingInit mmap bootPml4 s) ↔
      128 ≤ bitmapSizeOf mmap ∧ bitmapSizeOf mmap < 4096 := by
  obtain ⟨reserved, hpmm⟩ := pagingInit_pmm mmap bootPml4 s
  have hle := bitmapSizeOf_le mmap
  have hbits := setBits_add_freeCount (pagingInit mmap bootPml4 s)
  rw [freeCount_pagingInit, pagingInit_bitmapSize] at hbits
  have hused : (pagingInit mmap bootPml4 s).pmm.usedMemory = reservedBytes mmap := by
    rw [hpmm]
    refine (wadd_of_lt ?_).trans (Nat.zero_add _)
    unfold reservedBytes kernelEnd PAGE_SIZE
    omega
  rw [hused]
  unfold firstFree at hbits
  unfold reservedBytes kernelEnd PAGE_SIZE
  omega

end PagingInit

/-! ### Runs -/

/-- Both counters, for a bitmap with a bit for each of the pages. -/
structure Counted (pages : Nat) (s : State) : Prop where
  used : s.pmm.usedMemory + PAGE_SIZE * freeCount s = PAGE_SIZE * pages
  free : s.pmm.freeMemory = PAGE_SIZE * freeCount s
  total : s.pmm.totalMemory = PAGE_SIZE * pages

section Counted

variable {pages : Nat} {s₀ : State} {p q : Pages}

theorem Counted.takePage {s : State} {i : Nat} (hpages : pages < 2 ^ 40) (ok : Addressable s)
    (counted : Counted pages s) (hfree : Free s i) : Counted pages (pmmTakePage i s).2 := by
  have hcount := takePage_freeCount ok hfree
  obtain ⟨hused, hfreeMemory, htotal⟩ := counted
  unfold PAGE_SIZE at hused hfreeMemory htotal
  refine ⟨?_, ?_, htotal⟩
  · have hword : s.pmm.usedMemory + 4096 < 2 ^ 64 := by omega
    change wadd 64 s.pmm.usedMemory 4096 + 4096 * freeCount _ = 4096 * pages
    rw [wadd_of_lt hword]
    omega
  · change wsub 64 s.pmm.freeMemory 4096 = 4096 * freeCount _
    rw [wsub_of_le (by omega) (by omega)]
    omega

theorem Counted.clearPage {s : State} {i : Nat} (hpages : pages < 2 ^ 40)
    (hsize : s.pmm.bitmapSize * 8 = pages) (counted : Counted pages s)
    (hi : i < s.pmm.bitmapSize * 8) (hused : ¬ Free s i) : Counted pages (pmmClearPage i s) := by
  have hcount := clearPage_freeCount hi hused
  have hbits := setBits_add_freeCount (pmmClearPage i s)
  change setBits _ + freeCount _ = s.pmm.bitmapSize * 8 at hbits
  obtain ⟨hused, hfreeMemory, htotal⟩ := counted
  unfold PAGE_SIZE at hused hfreeMemory htotal
  refine ⟨?_, ?_, htotal⟩
  · change wsub 64 s.pmm.usedMemory 4096 + 4096 * freeCount _ = 4096 * pages
    rw [wsub_of_le (by omega) (by omega)]
    omega
  · change wadd 64 s.pmm.freeMemory 4096 = 4096 * freeCount _
    rw [wadd_of_lt (by omega)]
    omega

theorem Counted.step (hpages : pages < 2 ^ 40) (addressable : Addressable s₀)
    (hsize : s₀.pmm.bitmapSize * 8 = pages) (ok : PagesOk s₀ p) (counted : Counted pages p.mem)
    {event : PageEvent} (step : PageStep p event q) : Counted pages q.mem := by
  have hp := ok.addressable addressable
  have hsize' : p.mem.pmm.bitmapSize * 8 = pages := ok.size ▸ hsize
  cases step with
  | alloc =>
      rcases pagingAllocPage_spec hp with ⟨hnone, -⟩ | ⟨i, hfree, htake⟩
      · rw [hnone]
        exact counted
      · rw [htake]
        exact counted.takePage hpages hp hfree
  | free hmem =>
      obtain ⟨i, hfree, rfl⟩ := ok.returned _ hmem
      have hi : i < p.mem.pmm.bitmapSize * 8 := ok.size ▸ hfree.1
      by_cases hclear : Free p.mem i
      · change Counted pages (pmmFreePage _ p.mem)
        rw [pmmFreePage_free hclear]
        exact counted
      · change Counted pages (pmmFreePage _ p.mem)
        rw [pmmFreePage_used hi hclear]
        exact counted.clearPage hpages hsize' hi hclear
  | @write ram hsame =>
      have hcount := @freeCount_congr p.mem { p.mem with ram := ram } rfl (free_write hsame)
      obtain ⟨hused, hfreeMemory, htotal⟩ := counted
      exact ⟨hcount.symm ▸ hused, hcount.symm ▸ hfreeMemory, htotal⟩

theorem Counted.run (hpages : pages < 2 ^ 40) (addressable : Addressable s₀)
    (hsize : s₀.pmm.bitmapSize * 8 = pages) (counted : Counted pages s₀) {events : List PageEvent}
    (run : Run PageStep ⟨s₀, []⟩ events p) : PagesOk s₀ p ∧ Counted pages p.mem := by
  apply run.invariant (I := fun p => PagesOk s₀ p ∧ Counted pages p.mem) _
    ⟨PagesOk.start s₀, counted⟩
  rintro p event q ⟨ok, counted⟩ step
  exact ⟨ok.step addressable step, counted.step hpages addressable hsize ok step⟩

theorem Counted.accounted {existing : Nat → Prop} [DecidablePred existing] {s : State}
    (counted : Counted (s.pmm.bitmapSize * 8) s) (hexisting : ∀ i, Free s i → existing i) :
    Accounted existing s := by
  have hbits := setBits_add_freeCount s
  have hclear := clearBits_eq hexisting
  obtain ⟨hused, hfreeMemory, htotal⟩ := counted
  unfold PAGE_SIZE at hused hfreeMemory htotal
  refine ⟨?_, ?_, ?_⟩
  · unfold PAGE_SIZE
    omega
  · rw [hclear]
    exact hfreeMemory
  · unfold PAGE_SIZE
    omega

end Counted

/-! ### When the counters are right -/

section Accounted

variable (existing : Nat → Prop) [DecidablePred existing] (mmap : List MemoryMapEntry)
  (bootPml4 : Nat) (s : State)

/-- Where the counters are right in every run, all pages that are free at first exist: to hand
out another one takes it from the free memory, and from no clear bit that is counted. -/
theorem existing_of_accounted {s₀ : State} (addressable : Addressable s₀)
    (haccounted : ∀ events p, Run PageStep ⟨s₀, []⟩ events p → Accounted existing p.mem) {j : Nat}
    (hfree : Free s₀ j) : existing j := by
  by_contra hmissing
  obtain ⟨events, q, run, hfree', htake⟩ := @run_takes ⟨s₀, []⟩ addressable j hfree
  have step := PageStep.alloc q
  have hq := (PagesOk.run addressable run).addressable addressable
  have hbefore := (haccounted events q run).free
  have hafter := (haccounted _ _ (run.append (.single step))).free
  rw [htake] at hafter
  change wsub 64 q.mem.pmm.freeMemory 4096 = _ at hafter
  rw [clearBits_takePage hq hfree' hmissing, ← hbefore, wsub] at hafter
  omega

/-- A bitmap of less than a page lies in the first 4 MB, and nothing more is reserved. -/
theorem reservedBytes_of_short (hshort : bitmapSizeOf mmap < 4096) :
    reservedBytes mmap = kernelEnd := by
  unfold reservedBytes kernelEnd PAGE_SIZE
  omega

/-- Memory that fills a short bitmap is counted as the bitmap has it. -/
theorem counted_pagingInit {units : Nat} (hunits : usableMemory mmap % 2 ^ 64 = 32768 * units)
    (hlow : 0x400000 ≤ 32768 * units) (hhigh : units < 4096) :
    Counted (units * 8) (pagingInit mmap bootPml4 s) := by
  have hcount := freeCount_pagingInit mmap bootPml4 s
  have hsize : bitmapSizeOf mmap = units := by
    rw [bitmapSizeOf_eq, hunits]
    omega
  have hreserved : reservedBytes mmap = 0x400000 := reservedBytes_of_short mmap (hsize ▸ hhigh)
  obtain ⟨reserved, hpmm⟩ := pagingInit_pmm mmap bootPml4 s
  rw [hunits, hreserved, hsize] at hpmm
  unfold firstFree at hcount
  rw [hsize] at hcount
  constructor
  · rw [hcount, hpmm]
    change wadd 64 0 0x400000 + _ = _
    unfold wadd PAGE_SIZE
    omega
  · rw [hcount, hpmm]
    change wsub 64 (32768 * units) 0x400000 = _
    rw [wsub_of_le (by omega) hlow]
    unfold PAGE_SIZE
    omega
  · rw [hpmm]
    change 32768 * units = _
    unfold PAGE_SIZE
    omega

/-- Counters that are right at first are those of memory that fills a short bitmap. -/
theorem total_of_accounted (accounted : Accounted existing (pagingInit mmap bootPml4 s))
    (hexisting : ∀ i, Free (pagingInit mmap bootPml4 s) i → existing i) :
    usableMemory mmap % 2 ^ 64 = 32768 * bitmapSizeOf mmap ∧
      0x400000 ≤ usableMemory mmap % 2 ^ 64 ∧ usableMemory mmap % 2 ^ 64 < 0x8000000 := by
  have hsize := bitmapSizeOf_eq mmap
  obtain ⟨hused, hfree, htotal⟩ := accounted
  obtain ⟨hlong, hshort⟩ := (used_pagingInit_iff mmap bootPml4 s).mp hused
  have hreserved : reservedBytes mmap = 0x400000 := reservedBytes_of_short mmap hshort
  obtain ⟨reserved, hpmm⟩ := pagingInit_pmm mmap bootPml4 s
  rw [hreserved] at hpmm
  rw [clearBits_eq hexisting, freeCount_pagingInit, hpmm] at hfree
  rw [hpmm] at htotal
  unfold wsub firstFree PAGE_SIZE at hfree
  unfold wsub wadd PAGE_SIZE at htotal
  dsimp only at hfree htotal
  omega

/-- **When the counters are right.** After `paging_init` and any calls that allocate pages and
free them, whichever pages are said to exist: exactly for a total memory of 4 MB and more and
less than 128 MB, in units of 8 pages, of which every page after the first 4 MB exists. -/
theorem accounted_in_runs_iff :
    (∀ events p, Run PageStep ⟨pagingInit mmap bootPml4 s, []⟩ events p →
        Accounted existing p.mem) ↔
      (8 * PAGE_SIZE ∣ usableMemory mmap % 2 ^ 64 ∧
        kernelEnd ≤ usableMemory mmap % 2 ^ 64 ∧ usableMemory mmap % 2 ^ 64 < 0x8000000) ∧
      ∀ i, kernelEnd ≤ PAGE_SIZE * i → PAGE_SIZE * i < usableMemory mmap % 2 ^ 64 →
        existing i := by
  have addressable := addressable_pagingInit mmap bootPml4 s
  have hfreeIff := fun i => free_pagingInit_iff mmap bootPml4 s (j := i)
  unfold PAGE_SIZE kernelEnd at hfreeIff ⊢
  constructor
  · intro haccounted
    have hexisting : ∀ i, Free (pagingInit mmap bootPml4 s) i → existing i :=
      fun i => existing_of_accounted existing addressable haccounted
    have htotal := total_of_accounted existing mmap bootPml4 s (haccounted [] _ (.nil _)) hexisting
    refine ⟨⟨⟨bitmapSizeOf mmap, htotal.1⟩, htotal.2⟩, fun i hkernel hi => hexisting i ?_⟩
    rw [hfreeIff]
    omega
  · rintro ⟨⟨⟨units, hunits⟩, hlow, hhigh⟩, hexisting⟩ events p run
    have hsize := bitmapSizeOf_eq mmap
    have hpages : (pagingInit mmap bootPml4 s).pmm.bitmapSize * 8 = units * 8 := by
      rw [pagingInit_bitmapSize]
      omega
    have counted := counted_pagingInit mmap bootPml4 s hunits (by omega) (by omega)
    obtain ⟨ok, counted'⟩ := counted.run (by omega) addressable hpages run
    rw [← hpages, ← ok.size] at counted'
    refine counted'.accounted fun i hi => ?_
    obtain ⟨hlimit, hkernel, -⟩ := (hfreeIff i).mp (ok.free i hi)
    exact hexisting i hkernel (by omega)

end Accounted

/-- The memory map of `kernel_main` has a bitmap of exactly a page, which is counted as used
twice. -/
theorem accounted_fails_at_boot :
    ¬ Accounted (fun i => PAGE_SIZE * i < 0x8000000) (pagingBoot memMap 0x200000 fun _ => 0) := by
  rw [pagingBoot]
  intro accounted
  have hused := (used_pagingInit_iff _ _ _).mp accounted.used
  exact absurd hused.2 (by decide)

end Curnel.Paging
