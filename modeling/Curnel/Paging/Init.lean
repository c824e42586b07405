/-
What `paging_init` makes of the memory.

It writes the bitmap, 1 MB up, and nothing past it: the first 4 MB and the pages
of the bitmap are marked as used, and every other page the bitmap has a bit for
is free. The bits of the first 4 MB are set whether the bitmap is long enough for
them or not, so at least 128 bytes are written (`pagingInit_frame`).
-/

import Curnel.Paging.Frames

namespace Curnel.Paging

open Lib.Bytes Lib.Word

/-- The bit of frame `i` is set in the bitmap at `bitmap`. -/
def Marked (m : Store) (bitmap i : Nat) : Prop :=
  (readLE m (bitmap + i / 8) 1).testBit (i % 8) = true

theorem free_iff_not_marked {s : State} {i : Nat} :
    Free s i ↔ i < s.pmm.bitmapSize * 8 ∧ ¬ Marked s.ram s.pmm.bitmap i := by
  rw [Free, bitmapBit_eq_zero_iff, Marked, bitmapByte, Bool.not_eq_true]

/-! ### Marking frames -/

theorem markFrame_frame (bitmap i : Nat) (m : Store) :
    Frame m (markFrame bitmap i m) (bitmap + i / 8) (bitmap + i / 8 + 1) :=
  writeLE_frame m (bitmap + i / 8) 1 _

/-- Marking a frame sets its bit and no other. -/
theorem marked_markFrame {bitmap i j : Nat} {m : Store} :
    Marked (markFrame bitmap i m) bitmap j ↔ Marked m bitmap j ∨ j = i := by
  have hbyte : readLE m (bitmap + i / 8) 1 ||| 2 ^ (i % 8) < 256 ^ 1 := by
    have hbit : 2 ^ (i % 8) < 2 ^ 8 := Nat.pow_lt_pow_right (by decide) (by omega)
    exact @Nat.or_lt_two_pow _ _ 8 (readLE_lt m _ 1) hbit
  unfold Marked markFrame
  rw [Nat.one_shiftLeft]
  by_cases hsame : j / 8 = i / 8
  · rw [hsame, readLE_writeLE_same, Nat.mod_eq_of_lt hbyte, Nat.testBit_or,
      Nat.testBit_two_pow, Bool.or_eq_true, decide_eq_true_eq]
    exact or_congr_right ⟨fun h => by omega, fun h => by omega⟩
  · have hapart : bitmap + i / 8 + 1 ≤ bitmap + j / 8 ∨ bitmap + j / 8 + 1 ≤ bitmap + i / 8 := by
      omega
    rw [readLE_writeLE_disjoint hapart]
    exact (or_iff_left (by rintro rfl; exact hsame rfl)).symm

theorem markLoop_frame {bitmap limit fuel addr : Nat} {m : Store} :
    Frame m (markLoop bitmap limit fuel addr m) bitmap
      (bitmap + (limit - 1) / PAGE_SIZE / 8 + 1) := by
  induction fuel generalizing addr m with
  | zero => exact Frame.refl m _ _
  | succ fuel ih =>
      rw [markLoop]
      split
      next hgo =>
        have hindex : addr / PAGE_SIZE ≤ (limit - 1) / PAGE_SIZE :=
          Nat.div_le_div_right (by omega)
        have hbyte : addr / PAGE_SIZE / 8 ≤ (limit - 1) / PAGE_SIZE / 8 :=
          Nat.div_le_div_right hindex
        exact ((markFrame_frame bitmap (addr / PAGE_SIZE) m).widen (Nat.le_add_right _ _)
          (Nat.succ_le_succ (Nat.add_le_add_left hbyte bitmap))).trans ih
      next => exact Frame.refl m _ _

/-- From page `a` on, the pages that start below `limit` are marked. -/
theorem marked_markLoop {bitmap limit fuel a j : Nat} {m : Store}
    (hfuel : limit ≤ PAGE_SIZE * (a + fuel)) :
    Marked (markLoop bitmap limit fuel (PAGE_SIZE * a) m) bitmap j ↔
      Marked m bitmap j ∨ a ≤ j ∧ PAGE_SIZE * j < limit := by
  induction fuel generalizing a m with
  | zero =>
      rw [markLoop]
      refine (or_iff_left fun ⟨hlow, hhigh⟩ => ?_).symm
      have := Nat.mul_le_mul_left PAGE_SIZE hlow
      rw [Nat.add_zero] at hfuel
      omega
  | succ fuel ih =>
      rw [markLoop]
      split
      next hgo =>
        have hpage : PAGE_SIZE * a / PAGE_SIZE = a := Nat.mul_div_cancel_left a (by decide)
        rw [hpage, ← Nat.mul_succ, ih (by rw [Nat.succ_add_eq_add_succ]; exact hfuel),
          marked_markFrame, or_assoc]
        refine or_congr_right ⟨?_, ?_⟩
        · rintro (rfl | ⟨hlow, hhigh⟩)
          · exact ⟨le_refl j, hgo⟩
          · exact ⟨Nat.le_of_succ_le hlow, hhigh⟩
        · rintro ⟨hlow, hhigh⟩
          rcases Nat.eq_or_lt_of_le hlow with rfl | hlt
          · exact Or.inl rfl
          · exact Or.inr ⟨hlt, hhigh⟩
      next hstop =>
        refine (or_iff_left fun ⟨hlow, hhigh⟩ => hstop ?_).symm
        exact lt_of_le_of_lt (Nat.mul_le_mul_left PAGE_SIZE hlow) hhigh

theorem marked_markPages {bitmap a limit j : Nat} {m : Store} :
    Marked (markPages bitmap (PAGE_SIZE * a) limit m) bitmap j ↔
      Marked m bitmap j ∨ a ≤ j ∧ PAGE_SIZE * j < limit := by
  apply marked_markLoop
  have hdiv := Nat.div_add_mod limit PAGE_SIZE
  have hmod := Nat.mod_lt limit (show 0 < PAGE_SIZE by decide)
  rw [Nat.mul_add, Nat.mul_add, Nat.mul_one]
  omega

/-! ### After `paging_init` -/

section PagingInit

variable (mmap : List MemoryMapEntry) (bootPml4 : Nat) (s : State)

@[simp] theorem pagingInit_bitmap : (pagingInit mmap bootPml4 s).pmm.bitmap = 0x100000 := rfl

@[simp] theorem pagingInit_pml4 : (pagingInit mmap bootPml4 s).vmm.pml4 = bootPml4 := rfl

/-- The bitmap is written and nothing else, but 128 bytes at least. -/
theorem pagingInit_frame : Frame s.ram (pagingInit mmap bootPml4 s).ram 0x100000
    (0x100000 + max (pagingInit mmap bootPml4 s).pmm.bitmapSize 128) := by
  set size := (pagingInit mmap bootPml4 s).pmm.bitmapSize with hsize
  have hfill := fill_frame s.ram 0x100000 size 0
  have hkernel := @markLoop_frame 0x100000 kernelEnd (kernelEnd / PAGE_SIZE + 1) kernelStart
    (fill s.ram 0x100000 size 0)
  have hbitmap := @markLoop_frame 0x100000 (0x100000 + size) ((0x100000 + size) / PAGE_SIZE + 1)
    0x100000 (markPages 0x100000 kernelStart kernelEnd (fill s.ram 0x100000 size 0))
  have hlast : (0x100000 + size - 1) / PAGE_SIZE / 8 + 1 ≤ max size 128 := by
    simp only [PAGE_SIZE]
    omega
  exact (hfill.widen (le_refl _) (by omega)).trans
    ((hkernel.widen (le_refl _) (by simp only [kernelEnd, PAGE_SIZE]; omega)).trans
      (hbitmap.widen (le_refl _) (by omega)))

/-- The pages of the first 4 MB and those of the bitmap are in use. -/
theorem marked_pagingInit {j : Nat} :
    Marked (pagingInit mmap bootPml4 s).ram 0x100000 j ↔
      Marked (fill s.ram 0x100000 (pagingInit mmap bootPml4 s).pmm.bitmapSize 0) 0x100000 j ∨
        PAGE_SIZE * j < kernelEnd ∨
        0x100000 ≤ PAGE_SIZE * j ∧
          PAGE_SIZE * j < 0x100000 + (pagingInit mmap bootPml4 s).pmm.bitmapSize := by
  set size := (pagingInit mmap bootPml4 s).pmm.bitmapSize with hsize
  have hram : (pagingInit mmap bootPml4 s).ram = markPages 0x100000 (PAGE_SIZE * 256)
      (0x100000 + size) (markPages 0x100000 (PAGE_SIZE * 0) kernelEnd
        (fill s.ram 0x100000 size 0)) := rfl
  have hlow : 256 ≤ j ↔ 0x100000 ≤ PAGE_SIZE * j := by
    simp only [PAGE_SIZE]
    omega
  rw [hram, marked_markPages, marked_markPages, or_assoc, hlow]
  simp only [Nat.zero_le, true_and]

/-- Every other page that the bitmap has a bit for is free. -/
theorem free_pagingInit {j : Nat} :
    Free (pagingInit mmap bootPml4 s) j ↔
      j < (pagingInit mmap bootPml4 s).pmm.bitmapSize * 8 ∧ kernelEnd ≤ PAGE_SIZE * j ∧
        (PAGE_SIZE * j < 0x100000 ∨
          0x100000 + (pagingInit mmap bootPml4 s).pmm.bitmapSize ≤ PAGE_SIZE * j) := by
  rw [free_iff_not_marked, pagingInit_bitmap, marked_pagingInit]
  refine and_congr_right fun hj => ?_
  have hclear : ¬ Marked (fill s.ram 0x100000 (pagingInit mmap bootPml4 s).pmm.bitmapSize 0)
      0x100000 j := by
    unfold Marked
    rw [readLE_fill_zero (by omega) (by omega)]
    simp
  simp only [hclear, false_or, not_or, not_lt, not_and_or, not_le]

/-- The 128 bytes for the first 4 MB have all their bits set. -/
theorem pagingInit_byte {k : Nat} (hk : k < 128) :
    readLE (pagingInit mmap bootPml4 s).ram (0x100000 + k) 1 = 0xFF := by
  have hlt := readLE_lt (pagingInit mmap bootPml4 s).ram (0x100000 + k) 1
  apply Nat.eq_of_testBit_eq
  intro i
  by_cases hi : i < 8
  · have hmarked : Marked (pagingInit mmap bootPml4 s).ram 0x100000 (8 * k + i) := by
      rw [marked_pagingInit]
      refine Or.inr (Or.inl ?_)
      simp only [PAGE_SIZE, kernelEnd]
      omega
    have hindex : (8 * k + i) / 8 = k ∧ (8 * k + i) % 8 = i := by omega
    unfold Marked at hmarked
    rw [hindex.1, hindex.2] at hmarked
    rw [hmarked]
    exact (Nat.testBit_two_pow_sub_one 8 i ▸ decide_eq_true hi).symm
  · have hpow : 2 ^ 8 ≤ 2 ^ i := Nat.pow_le_pow_right (by decide) (by omega)
    rw [Nat.testBit_lt_two_pow (lt_of_lt_of_le hlt hpow),
      Nat.testBit_lt_two_pow (lt_of_lt_of_le (by decide) hpow)]

end PagingInit

end Curnel.Paging
