/-
Pages that paging_alloc_page hands out and paging_free_page takes back.

The bitmap has a bit for every page below the size of the usable memory, wherever in the
address space that memory is: an index of the bitmap is an address divided by the page size
(`bitmapSizeOf`, `free_pagingInit`). In every run the pages that are handed out are those
which paging_init has left free (`PagesOk`), and each of these is handed out in some run.
-/

import Curnel.Lib.Run
import Curnel.Paging.Init

namespace Curnel.Paging

open Lib Lib.Bytes Lib.Word

/-! ### Runs -/

/-- With the pages that `paging_alloc_page` has returned so far. -/
structure Pages where
  mem : State
  returned : List Nat

inductive PageEvent where
  | alloc
  | free (addr : Nat)
  | write

/-- A page that was allocated may be freed, more than once also, and memory may be written
anywhere but in the bitmap. -/
inductive PageStep : Pages → PageEvent → Pages → Prop where
  | alloc (p : Pages) : PageStep p .alloc
      ⟨(pagingAllocPage p.mem).2,
        if (pagingAllocPage p.mem).1 = NULL then p.returned
        else (pagingAllocPage p.mem).1 :: p.returned⟩
  | free {p : Pages} {addr : Nat} : addr ∈ p.returned →
      PageStep p (.free addr) ⟨pagingFreePage addr p.mem, p.returned⟩
  | write {p : Pages} {ram : Store} :
      (∀ a, p.mem.pmm.bitmap ≤ a → a < p.mem.pmm.bitmap + p.mem.pmm.bitmapSize →
        ram a = p.mem.ram a) →
      PageStep p .write ⟨{ p.mem with ram := ram }, p.returned⟩

/-- What the runs from a state keep: the pages that are free, or have been returned, were free
in it. -/
structure PagesOk (s₀ : State) (p : Pages) : Prop where
  bitmap : p.mem.pmm.bitmap = s₀.pmm.bitmap
  size : p.mem.pmm.bitmapSize = s₀.pmm.bitmapSize
  free : ∀ i, Free p.mem i → Free s₀ i
  returned : ∀ addr ∈ p.returned, ∃ i, Free s₀ i ∧ addr = PAGE_SIZE * i

section Runs

variable {s₀ : State} {p q : Pages}

theorem PagesOk.start (s₀ : State) : PagesOk s₀ ⟨s₀, []⟩ :=
  ⟨rfl, rfl, fun _ h => h, fun _ h => absurd h List.not_mem_nil⟩

theorem PagesOk.addressable (ok : PagesOk s₀ p) (addressable : Addressable s₀) :
    Addressable p.mem where
  bound := ok.size ▸ addressable.bound
  bitmap := by
    rw [ok.bitmap, ok.size]
    exact addressable.bitmap.mono ok.free

/-- Memory outside the bitmap says nothing about the free pages. -/
theorem free_write {s : State} {ram : Store}
    (hsame : ∀ a, s.pmm.bitmap ≤ a → a < s.pmm.bitmap + s.pmm.bitmapSize → ram a = s.ram a)
    (i : Nat) : Free { s with ram := ram } i ↔ Free s i := by
  have hbytes : ∀ j < s.pmm.bitmapSize * 8, bitmapByte { s with ram := ram } j = bitmapByte s j := by
    intro j hj
    apply readLE_congr
    intro a ha
    have hlow : s.pmm.bitmap + j / 8 ≤ a := ha.1
    have hhigh : a < s.pmm.bitmap + j / 8 + 1 := ha.2
    exact hsame a (by omega) (by omega)
  exact @free_congr s { s with ram := ram } rfl hbytes i

/-- `paging_alloc_page` takes a free page, or leaves everything as it is. -/
theorem pagingAllocPage_spec {s : State} (ok : Addressable s) :
    (pagingAllocPage s = (NULL, s) ∧ ∀ i, ¬ Free s i) ∨
      ∃ i, Free s i ∧ pagingAllocPage s = (PAGE_SIZE * i, (pmmTakePage i s).2) := by
  refine (pmmAllocPage_spec ok).imp_right ?_
  rintro ⟨i, hfree, htake⟩
  exact ⟨i, hfree, htake.trans (Prod.ext (takePage_addr ok hfree) rfl)⟩

theorem PagesOk.step (addressable : Addressable s₀) (ok : PagesOk s₀ p) {event : PageEvent}
    (step : PageStep p event q) : PagesOk s₀ q := by
  have hp := ok.addressable addressable
  cases step with
  | alloc =>
      rcases pagingAllocPage_spec hp with ⟨hnone, -⟩ | ⟨i, hfree, htake⟩
      · rw [hnone, if_pos rfl]
        exact ok
      · rw [htake]
        refine ⟨ok.bitmap, ok.size, fun j hj => ?_, fun addr haddr => ?_⟩
        · exact ok.free j ((takePage_free hp hfree j).mp hj).1
        · split at haddr
          next => exact ok.returned addr haddr
          next =>
            rcases List.mem_cons.mp haddr with rfl | hold
            · exact ⟨i, ok.free i hfree, rfl⟩
            · exact ok.returned addr hold
  | free hmem =>
      obtain ⟨i, hfree, rfl⟩ := ok.returned _ hmem
      have hi : i < p.mem.pmm.bitmapSize * 8 := ok.size ▸ hfree.1
      refine ⟨(pmmFreePage_bitmap _ _).trans ok.bitmap, (pmmFreePage_bitmapSize _ _).trans ok.size,
        fun j hj => ?_, ok.returned⟩
      rcases (freePage_free hi j).mp hj with hold | rfl
      · exact ok.free j hold
      · exact hfree
  | write hsame => exact ⟨ok.bitmap, ok.size, fun j hj => ok.free j ((free_write hsame j).mp hj),
      ok.returned⟩

theorem PagesOk.run (addressable : Addressable s₀) {events : List PageEvent}
    (run : Run PageStep ⟨s₀, []⟩ events p) : PagesOk s₀ p :=
  run.invariant (fun ok step => ok.step addressable step) (PagesOk.start s₀)

/-- Allocating again and again comes to every free page. -/
theorem run_takes (hp : Addressable p.mem) {j : Nat} (hj : Free p.mem j) :
    ∃ events q, Run PageStep p events q ∧ Free q.mem j ∧
      pagingAllocPage q.mem = (PAGE_SIZE * j, (pmmTakePage j q.mem).2) := by
  induction hn : freeCount p.mem generalizing p with
  | zero => exact absurd hj (freeCount_eq_zero_iff.mp hn j)
  | succ n ih =>
      rcases pagingAllocPage_spec hp with ⟨-, hnone⟩ | ⟨i, hfree, htake⟩
      · exact absurd hj (hnone j)
      by_cases hij : j = i
      · cases hij
        exact ⟨[], p, .nil p, hj, htake⟩
      · have step := PageStep.alloc p
        rw [htake] at step
        have hcount := takePage_freeCount hp hfree
        have hless : freeCount (pmmTakePage i p.mem).2 = n := by omega
        obtain ⟨events, q, run, htaken⟩ := @ih ⟨(pmmTakePage i p.mem).2, _⟩
          (takePage_addressable hp hfree) ((takePage_free hp hfree j).mpr ⟨hj, hij⟩) hless
        exact ⟨.alloc :: events, q, .cons step run, htaken⟩

/-- So every free page but page 0 is returned in some run. -/
theorem run_returns (hp : Addressable p.mem) {j : Nat} (hj : Free p.mem j) (hzero : j ≠ 0) :
    ∃ events q, Run PageStep p events q ∧ PAGE_SIZE * j ∈ q.returned := by
  obtain ⟨events, q, run, -, htake⟩ := run_takes hp hj
  have step := PageStep.alloc q
  have hnull : PAGE_SIZE * j ≠ NULL := Nat.mul_ne_zero (by decide) hzero
  rw [htake, if_neg hnull] at step
  exact ⟨events ++ [.alloc], _, run.append (.single step), List.mem_cons_self⟩

end Runs

/-! ### The bitmap of a memory map -/

/-- The bytes of all entries of type 1. -/
def usableMemory : List MemoryMapEntry → Nat
  | [] => 0
  | entry :: mmap => (if entry.type = 1 then entry.size else 0) + usableMemory mmap

/-- The bytes of the bitmap: it has a bit for every page of that many bytes. -/
def bitmapSizeOf (mmap : List MemoryMapEntry) : Nat := bitmapSizeFor (usableMemory mmap % 2 ^ 64)

theorem bitmapSizeFor_eq {total : Nat} (h : total < 2 ^ 64) :
    bitmapSizeFor total = (total + 32767) / 32768 := by
  have hpages : total / PAGE_SIZE / 8 * 8 * PAGE_SIZE ≤ total := by
    simp only [PAGE_SIZE]
    omega
  unfold bitmapSizeFor
  dsimp only
  rw [wmul_of_lt (w := 64) (a := total / PAGE_SIZE / 8) (by simp only [PAGE_SIZE]; omega),
    wmul_of_lt (by omega)]
  unfold PAGE_SIZE at hpages ⊢
  by_cases hround : total / 4096 / 8 * 8 * 4096 < total
  · rw [if_pos hround]
    omega
  · rw [if_neg hround]
    omega

/-- The loop over the memory map counts the usable memory twice, as total and as free. -/
theorem countMemory_foldl (mmap : List MemoryMapEntry) {total reserved size bitmap : Nat}
    (hlt : total < 2 ^ 64) :
    ∃ reserved', mmap.foldl countMemory ⟨total, total, 0, reserved, size, bitmap⟩
      = ⟨(total + usableMemory mmap) % 2 ^ 64, (total + usableMemory mmap) % 2 ^ 64, 0, reserved',
        size, bitmap⟩ := by
  induction mmap generalizing total reserved with
  | nil =>
      rw [usableMemory, Nat.add_zero, Nat.mod_eq_of_lt hlt]
      exact ⟨reserved, rfl⟩
  | cons entry mmap ih =>
      rw [List.foldl_cons, usableMemory]
      by_cases htype : entry.type = 1
      · have hsum : (wadd 64 total entry.size + usableMemory mmap) % 2 ^ 64
            = (total + (entry.size + usableMemory mmap)) % 2 ^ 64 := by
          rw [wadd, Nat.mod_add_mod, ← Nat.add_assoc, Nat.add_comm entry.size]
        rw [countMemory, if_pos htype, if_pos htype, ← hsum]
        exact ih (wadd_lt 64 total entry.size)
      · rw [countMemory, if_neg htype, if_neg htype, Nat.zero_add]
        exact ih hlt

section PagingInit

variable (mmap : List MemoryMapEntry) (bootPml4 : Nat) (s : State)

/-- What `paging_init` takes for reserved: the first 4 MB, and the bytes of the bitmap, though
the bitmap begins in the first 4 MB. -/
def reservedBytes (mmap : List MemoryMapEntry) : Nat :=
  (kernelEnd + bitmapSizeOf mmap) / PAGE_SIZE * PAGE_SIZE

theorem pagingInit_pmm : ∃ reserved, (pagingInit mmap bootPml4 s).pmm =
    ⟨usableMemory mmap % 2 ^ 64, wsub 64 (usableMemory mmap % 2 ^ 64) (reservedBytes mmap),
      wadd 64 0 (reservedBytes mmap), reserved, bitmapSizeOf mmap, 0x100000⟩ := by
  obtain ⟨reserved, hcounted⟩ := @countMemory_foldl mmap 0 0 s.pmm.bitmapSize s.pmm.bitmap
    (Nat.two_pow_pos 64)
  have hpmm : (pagingInit mmap bootPml4 s).pmm =
      let counted := mmap.foldl countMemory ⟨0, 0, 0, 0, s.pmm.bitmapSize, s.pmm.bitmap⟩
      let size := bitmapSizeFor counted.totalMemory
      let reserved := (kernelEnd - kernelStart + (0x100000 + size) - 0x100000) / PAGE_SIZE * PAGE_SIZE
      ⟨counted.totalMemory, wsub 64 counted.freeMemory reserved,
        wadd 64 counted.usedMemory reserved, counted.reservedMemory, size, 0x100000⟩ := rfl
  have hreserved : reservedBytes mmap = (kernelEnd - kernelStart + (0x100000 + bitmapSizeFor
      (usableMemory mmap % 2 ^ 64)) - 0x100000) / PAGE_SIZE * PAGE_SIZE := by
    rw [reservedBytes, bitmapSizeOf, kernelStart, Nat.sub_zero, ← Nat.add_assoc,
      Nat.add_right_comm, Nat.add_sub_cancel]
  rw [hcounted, Nat.zero_add] at hpmm
  exact ⟨reserved, hpmm.trans (by rw [hreserved, bitmapSizeOf])⟩

theorem pagingInit_bitmapSize :
    (pagingInit mmap bootPml4 s).pmm.bitmapSize = bitmapSizeOf mmap := by
  obtain ⟨reserved, hpmm⟩ := pagingInit_pmm mmap bootPml4 s
  rw [hpmm]

theorem bitmapSizeOf_eq : bitmapSizeOf mmap = (usableMemory mmap % 2 ^ 64 + 32767) / 32768 :=
  bitmapSizeFor_eq (Nat.mod_lt _ (Nat.two_pow_pos 64))

theorem bitmapSizeOf_le : bitmapSizeOf mmap ≤ 2 ^ 49 := by
  rw [bitmapSizeOf_eq]
  omega

/-- The pages that are free at first, by the memory map. -/
theorem free_pagingInit_iff {j : Nat} :
    Free (pagingInit mmap bootPml4 s) j ↔
      j < bitmapSizeOf mmap * 8 ∧ kernelEnd ≤ PAGE_SIZE * j ∧
        0x100000 + bitmapSizeOf mmap ≤ PAGE_SIZE * j := by
  rw [free_pagingInit, pagingInit_bitmapSize]
  refine and_congr_right fun _ => and_congr_right fun hkernel => or_iff_right ?_
  unfold kernelEnd at hkernel
  omega

theorem addressable_pagingInit : Addressable (pagingInit mmap bootPml4 s) where
  bound := by
    rw [pagingInit_bitmapSize]
    have := bitmapSizeOf_le mmap
    omega
  bitmap := by
    intro j hj
    rw [pagingInit_bitmap, pagingInit_bitmapSize]
    exact Or.inr ((free_pagingInit_iff mmap bootPml4 s).mp hj).2.2

end PagingInit

/-! ### The bytes of the bitmap -/

/-- The frames that `markLoop` marks. -/
def markLoopFrames (limit : Nat) : Nat → Nat → List Nat
  | 0, _ => []
  | fuel + 1, addr =>
      if addr < limit then addr / PAGE_SIZE :: markLoopFrames limit fuel (addr + PAGE_SIZE) else []

/-- The frames that `paging_init` marks. -/
def pagingInitFrames (mmap : List MemoryMapEntry) : List Nat :=
  let bitmapEnd := 0x100000 + bitmapSizeOf mmap
  markLoopFrames kernelEnd (kernelEnd / PAGE_SIZE + 1) kernelStart ++
    markLoopFrames bitmapEnd (bitmapEnd / PAGE_SIZE + 1) 0x100000

/-- The indices of the bytes that `paging_init` touches: it clears the bitmap, then marks. -/
def pagingInitTouches (mmap : List MemoryMapEntry) : List Nat :=
  List.range (bitmapSizeOf mmap) ++ (pagingInitFrames mmap).map (· / 8)

/-- The indices of the bytes that the loop of `pmm_alloc_page` touches. -/
def pmmAllocPageLoopTouches : Nat → Nat → State → List Nat
  | 0, _, _ => []
  | n + 1, i, s => i / 8 :: if bitmapBit s i = 0 then [] else pmmAllocPageLoopTouches n (i + 1) s

def pmmAllocPageTouches (s : State) : List Nat :=
  pmmAllocPageLoopTouches (wmul 64 s.pmm.bitmapSize 8) 0 s

theorem markLoop_eq_foldl (bitmap limit fuel addr : Nat) (m : Store) :
    markLoop bitmap limit fuel addr m
      = (markLoopFrames limit fuel addr).foldl (fun m i => markFrame bitmap i m) m := by
  induction fuel generalizing addr m with
  | zero => rfl
  | succ fuel ih =>
      rw [markLoop, markLoopFrames]
      split
      next hgo => exact ih (addr + PAGE_SIZE) _
      next hstop => rfl

/-- `paging_init` writes the bytes that it touches, and no others. -/
theorem pagingInit_ram (mmap : List MemoryMapEntry) (bootPml4 : Nat) (s : State) :
    (pagingInit mmap bootPml4 s).ram = (pagingInitFrames mmap).foldl
      (fun m i => markFrame 0x100000 i m) (fill s.ram 0x100000 (bitmapSizeOf mmap) 0) := by
  have hram : (pagingInit mmap bootPml4 s).ram =
      let size := (pagingInit mmap bootPml4 s).pmm.bitmapSize
      markPages 0x100000 0x100000 (0x100000 + size)
        (markPages 0x100000 kernelStart kernelEnd (fill s.ram 0x100000 size 0)) := rfl
  rw [hram, pagingInit_bitmapSize, pagingInitFrames, List.foldl_append]
  unfold markPages
  rw [markLoop_eq_foldl, markLoop_eq_foldl]

theorem mem_markLoopFrames {limit fuel a j : Nat} (hfuel : limit ≤ PAGE_SIZE * (a + fuel)) :
    j ∈ markLoopFrames limit fuel (PAGE_SIZE * a) ↔ a ≤ j ∧ PAGE_SIZE * j < limit := by
  unfold PAGE_SIZE at hfuel
  induction fuel generalizing a with
  | zero =>
      refine iff_of_false List.not_mem_nil ?_
      unfold PAGE_SIZE
      omega
  | succ fuel ih =>
      rw [markLoopFrames]
      split
      next hgo =>
        have hpage : PAGE_SIZE * a / PAGE_SIZE = a := Nat.mul_div_cancel_left a (by decide)
        rw [hpage, List.mem_cons, ← Nat.mul_succ, ih (by omega)]
        unfold PAGE_SIZE at hgo ⊢
        omega
      next hstop =>
        refine iff_of_false List.not_mem_nil ?_
        unfold PAGE_SIZE at hstop ⊢
        omega

theorem mem_pagingInitFrames {mmap : List MemoryMapEntry} {j : Nat} :
    j ∈ pagingInitFrames mmap ↔ PAGE_SIZE * j < kernelEnd ∨
      256 ≤ j ∧ PAGE_SIZE * j < 0x100000 + bitmapSizeOf mmap := by
  have hkernel := @mem_markLoopFrames kernelEnd (kernelEnd / PAGE_SIZE + 1) 0 j (by decide)
  have hbitmap := @mem_markLoopFrames (0x100000 + bitmapSizeOf mmap)
    ((0x100000 + bitmapSizeOf mmap) / PAGE_SIZE + 1) 256 j (by unfold PAGE_SIZE; omega)
  unfold pagingInitFrames
  dsimp only
  rw [List.mem_append]
  exact or_congr (hkernel.trans (and_iff_right (Nat.zero_le j))) hbitmap

/-- The first 4 MB have 128 bytes in the bitmap. -/
theorem pagingInitTouches_lt_iff (mmap : List MemoryMapEntry) :
    (∀ k ∈ pagingInitTouches mmap, k < bitmapSizeOf mmap) ↔ 128 ≤ bitmapSizeOf mmap := by
  constructor
  · intro htouches
    have hframe : 1023 ∈ pagingInitFrames mmap := mem_pagingInitFrames.mpr (Or.inl (by decide))
    have hlast := htouches (1023 / 8) (List.mem_append_right _ (List.mem_map_of_mem hframe))
    exact hlast
  · intro hsize k hk
    rcases List.mem_append.mp hk with hclear | hmark
    · exact List.mem_range.mp hclear
    · obtain ⟨j, hj, rfl⟩ := List.mem_map.mp hmark
      have hframe := mem_pagingInitFrames.mp hj
      unfold PAGE_SIZE kernelEnd at hframe
      omega

theorem pmmAllocPageLoopTouches_lt {n i k : Nat} {s : State}
    (hk : k ∈ pmmAllocPageLoopTouches n i s) : k * 8 < i + n := by
  induction n generalizing i with
  | zero => cases hk
  | succ n ih =>
      rw [pmmAllocPageLoopTouches] at hk
      rcases List.mem_cons.mp hk with rfl | hrest
      · omega
      · split at hrest
        next => cases hrest
        next =>
          have := ih hrest
          omega

theorem pmmAllocPageTouches_lt {s : State} (ok : Addressable s) {k : Nat}
    (hk : k ∈ pmmAllocPageTouches s) : k < s.pmm.bitmapSize := by
  have hbound := ok.bound
  have hlt := pmmAllocPageLoopTouches_lt hk
  rw [wmul_of_lt (by omega)] at hlt
  omega

/-! ### Pages inside the memory map -/

/-- The page at `addr` lies in one entry of type 1. -/
def InEntry (mmap : List MemoryMapEntry) (addr : Nat) : Prop :=
  ∃ entry ∈ mmap, entry.type = 1 ∧ entry.start ≤ addr ∧ addr + PAGE_SIZE ≤ entry.start + entry.size

/-- No byte past the bitmap is touched, in `paging_init` and in any later `pmm_alloc_page`, and
the pages that are returned are usable memory after the first 4 MB. -/
structure KeepsToMap (mmap : List MemoryMapEntry) (s₀ : State) : Prop where
  init : ∀ k ∈ pagingInitTouches mmap, k < s₀.pmm.bitmapSize
  alloc : ∀ {events p}, Run PageStep ⟨s₀, []⟩ events p →
    ∀ k ∈ pmmAllocPageTouches p.mem, k < p.mem.pmm.bitmapSize
  returned : ∀ {events p}, Run PageStep ⟨s₀, []⟩ events p →
    ∀ addr ∈ p.returned, InEntry mmap addr ∧ kernelEnd ≤ addr

/-- Every page after the first 4 MB and the bitmap, as far as the bitmap has bits, lies in one
entry of type 1. -/
def Filled (mmap : List MemoryMapEntry) : Prop :=
  ∀ i < bitmapSizeOf mmap * 8, kernelEnd ≤ PAGE_SIZE * i →
    0x100000 + bitmapSizeOf mmap ≤ PAGE_SIZE * i → InEntry mmap (PAGE_SIZE * i)

section KeepsToMap

variable (mmap : List MemoryMapEntry) (bootPml4 : Nat) (s : State)

theorem returned_pagingInit {events : List PageEvent} {p : Pages}
    (run : Run PageStep ⟨pagingInit mmap bootPml4 s, []⟩ events p) {addr : Nat}
    (haddr : addr ∈ p.returned) :
    ∃ i < bitmapSizeOf mmap * 8, addr = PAGE_SIZE * i ∧ kernelEnd ≤ addr ∧
      0x100000 + bitmapSizeOf mmap ≤ addr := by
  have ok := PagesOk.run (addressable_pagingInit mmap bootPml4 s) run
  obtain ⟨i, hfree, rfl⟩ := ok.returned addr haddr
  obtain ⟨hi, hkernel, hbitmap⟩ := (free_pagingInit_iff mmap bootPml4 s).mp hfree
  exact ⟨i, hi, rfl, hkernel, hbitmap⟩

/-- A page that the bitmap has a bit for is handed out sooner or later, wherever it is. -/
theorem pagingInit_returns {i : Nat} (hi : i < bitmapSizeOf mmap * 8)
    (hkernel : kernelEnd ≤ PAGE_SIZE * i) (hbitmap : 0x100000 + bitmapSizeOf mmap ≤ PAGE_SIZE * i) :
    ∃ events p, Run PageStep ⟨pagingInit mmap bootPml4 s, []⟩ events p ∧
      PAGE_SIZE * i ∈ p.returned := by
  have hfree := (free_pagingInit_iff mmap bootPml4 s).mpr ⟨hi, hkernel, hbitmap⟩
  apply @run_returns ⟨pagingInit mmap bootPml4 s, []⟩ (addressable_pagingInit mmap bootPml4 s) i hfree
  rintro rfl
  exact absurd hkernel (by decide)

/-- **When the bitmap fits the memory map.** -/
theorem keepsToMap_pagingInit_iff :
    KeepsToMap mmap (pagingInit mmap bootPml4 s) ↔ 128 ≤ bitmapSizeOf mmap ∧ Filled mmap := by
  have addressable := addressable_pagingInit mmap bootPml4 s
  constructor
  · intro keeps
    have hinit := keeps.init
    rw [pagingInit_bitmapSize, pagingInitTouches_lt_iff] at hinit
    refine ⟨hinit, fun i hi hkernel hbitmap => ?_⟩
    obtain ⟨events, p, run, hmem⟩ := pagingInit_returns mmap bootPml4 s hi hkernel hbitmap
    exact (keeps.returned run _ hmem).1
  · rintro ⟨hsize, hfilled⟩
    refine ⟨?_, fun run k hk => ?_, fun run addr haddr => ?_⟩
    · rw [pagingInit_bitmapSize, pagingInitTouches_lt_iff]
      exact hsize
    · exact pmmAllocPageTouches_lt ((PagesOk.run addressable run).addressable addressable) hk
    · obtain ⟨i, hi, rfl, hkernel, hbitmap⟩ := returned_pagingInit mmap bootPml4 s run haddr
      exact ⟨hfilled i hi hkernel hbitmap, hkernel⟩

end KeepsToMap

/-- Two entries of 8 MB with a hole between them: the bitmap has bits up to 16 MB, and the page
at 10 MB is handed out. And 2 MB of memory: its bitmap of 64 bytes is written past its end. -/
theorem keepsToMap_fails_for_hole :
    ¬ KeepsToMap [⟨0x100000, 0x800000, 1⟩, ⟨0x10000000, 0x800000, 1⟩]
        (pagingBoot [⟨0x100000, 0x800000, 1⟩, ⟨0x10000000, 0x800000, 1⟩] 0x200000 fun _ => 0) ∧
      ¬ KeepsToMap [⟨0x100000, 0x200000, 1⟩]
        (pagingBoot [⟨0x100000, 0x200000, 1⟩] 0x200000 fun _ => 0) := by
  refine ⟨fun keeps => ?_, fun keeps => ?_⟩
  · obtain ⟨events, p, run, hmem⟩ := pagingInit_returns
      [⟨0x100000, 0x800000, 1⟩, ⟨0x10000000, 0x800000, 1⟩] 0x200000 _ (i := 2560) (by decide)
      (by decide) (by decide)
    obtain ⟨entry, hentry, -, hstart, hend⟩ := (keeps.returned run _ hmem).1
    simp only [List.mem_cons, List.not_mem_nil, or_false] at hentry
    rcases hentry with rfl | rfl
    · exact absurd hend (by decide)
    · exact absurd hstart (by decide)
  · have hinit := keeps.init
    rw [pagingBoot, pagingInit_bitmapSize, pagingInitTouches_lt_iff] at hinit
    exact absurd hinit (by decide)

end Curnel.Paging
