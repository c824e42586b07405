/-
What `pmm_alloc_page` does to the memory.

It takes one frame whose bit is clear, sets the bit and zeroes the frame, and
touches nothing else (`pmmAllocPage_spec`). That needs the bitmap to be clear of
the frames that may be handed out, which `FramesOk` says and every allocation
keeps.
-/

import Curnel.Paging
import Mathlib.Data.Finset.Card
import Mathlib.Data.Finset.Range

namespace Curnel.Paging

open Lib.Bytes Lib.Word

/-- The bit of frame `i` is clear: the frame may be handed out. -/
def Free (s : State) (i : Nat) : Prop :=
  i < s.pmm.bitmapSize * 8 ∧ bitmapBit s i = 0

instance (s : State) : DecidablePred (Free s) := fun _ => inferInstanceAs (Decidable (_ ∧ _))

/-- How many frames may be handed out. -/
def freeCount (s : State) : Nat := ((Finset.range (s.pmm.bitmapSize * 8)).filter (Free s)).card

/-- No frame that may be handed out meets the `n` bytes from `a` on. -/
def Spared (s : State) (a n : Nat) : Prop :=
  ∀ i, Free s i → PAGE_SIZE * i + PAGE_SIZE ≤ a ∨ a + n ≤ PAGE_SIZE * i

/-- Physical addresses have 52 bits, and the allocator never hands out its own bitmap. -/
structure FramesOk (s : State) : Prop where
  bound : s.pmm.bitmapSize * 8 ≤ 2 ^ 40
  bitmap : Spared s s.pmm.bitmap s.pmm.bitmapSize

/-- The frames that the bitmap has bits for end at 2⁶⁴ at most, and its own are not handed out. -/
structure Addressable (s : State) : Prop where
  bound : s.pmm.bitmapSize * 8 ≤ 2 ^ 52
  bitmap : Spared s s.pmm.bitmap s.pmm.bitmapSize

theorem FramesOk.addressable {s : State} (ok : FramesOk s) : Addressable s :=
  ⟨ok.bound.trans (by decide), ok.bitmap⟩

/-! ### Bits of the bitmap -/

/-- The byte of the bitmap that holds the bit of frame `i`. -/
def bitmapByte (s : State) (i : Nat) : Nat := readLE s.ram (s.pmm.bitmap + i / 8) 1

theorem bitmapBit_eq_zero_iff {s : State} {i : Nat} :
    bitmapBit s i = 0 ↔ (bitmapByte s i).testBit (i % 8) = false := by
  unfold bitmapBit bitmapByte
  rw [Nat.one_shiftLeft, Nat.and_two_pow]
  cases (readLE s.ram (s.pmm.bitmap + i / 8) 1).testBit (i % 8) <;> simp

theorem bitmapByte_lt (s : State) (i : Nat) : bitmapByte s i < 2 ^ 8 :=
  readLE_lt _ _ 1

/-- States that agree on the bitmap have the same free frames. -/
theorem free_congr {s s' : State} (hsize : s'.pmm.bitmapSize = s.pmm.bitmapSize)
    (hbytes : ∀ i < s.pmm.bitmapSize * 8, bitmapByte s' i = bitmapByte s i) (i : Nat) :
    Free s' i ↔ Free s i := by
  unfold Free
  rw [hsize, bitmapBit_eq_zero_iff, bitmapBit_eq_zero_iff]
  constructor
  · rintro ⟨hi, hbit⟩
    exact ⟨hi, hbytes i hi ▸ hbit⟩
  · rintro ⟨hi, hbit⟩
    exact ⟨hi, (hbytes i hi).symm ▸ hbit⟩

theorem freeCount_congr {s s' : State} (hsize : s'.pmm.bitmapSize = s.pmm.bitmapSize)
    (hfree : ∀ i, Free s' i ↔ Free s i) : freeCount s' = freeCount s := by
  unfold freeCount
  rw [hsize, Finset.filter_congr fun i _ => hfree i]

theorem freeCount_eq_zero_iff {s : State} : freeCount s = 0 ↔ ∀ i, ¬ Free s i := by
  rw [freeCount, Finset.card_eq_zero, Finset.filter_eq_empty_iff]
  constructor
  · intro h i hi
    exact h (Finset.mem_range.mpr hi.1) hi
  · intro h i _
    exact h i

theorem Spared.mono {s s' : State} {a n : Nat} (h : Spared s a n)
    (hfree : ∀ i, Free s' i → Free s i) : Spared s' a n :=
  fun i hi => h i (hfree i hi)

/-! ### Taking one frame -/

@[simp] theorem pmmTakePage_vmm (i : Nat) (s : State) : (pmmTakePage i s).2.vmm = s.vmm := rfl

@[simp] theorem pmmTakePage_bitmap (i : Nat) (s : State) :
    (pmmTakePage i s).2.pmm.bitmap = s.pmm.bitmap := rfl

@[simp] theorem pmmTakePage_bitmapSize (i : Nat) (s : State) :
    (pmmTakePage i s).2.pmm.bitmapSize = s.pmm.bitmapSize := rfl

section TakePage

variable {s : State} {i : Nat} (ok : Addressable s) (hfree : Free s i)
include ok hfree

theorem takePage_addr : (pmmTakePage i s).1 = PAGE_SIZE * i := by
  have hbound := ok.bound
  have hi := hfree.1
  simp only [pmmTakePage, PAGE_SIZE]
  rw [wmul_of_lt (by omega), Nat.mul_comm]

/-- A word clear of the bitmap and of the frame keeps its value. -/
theorem takePage_readLE {a n : Nat}
    (hframe : PAGE_SIZE * i + PAGE_SIZE ≤ a ∨ a + n ≤ PAGE_SIZE * i)
    (hbitmap : a + n ≤ s.pmm.bitmap ∨ s.pmm.bitmap + s.pmm.bitmapSize ≤ a) :
    readLE (pmmTakePage i s).2.ram a n = readLE s.ram a n := by
  have haddr := takePage_addr ok hfree
  have hi := hfree.1
  simp only [pmmTakePage] at haddr ⊢
  rw [haddr, readLE_fill_disjoint hframe, readLE_writeLE_disjoint (by omega)]

/-- The frame and a byte of the bitmap are written. -/
theorem takePage_written {a : Nat} (h : (pmmTakePage i s).2.ram a ≠ s.ram a) :
    PAGE_SIZE * i ≤ a ∧ a < PAGE_SIZE * i + PAGE_SIZE ∨
      s.pmm.bitmap ≤ a ∧ a < s.pmm.bitmap + s.pmm.bitmapSize := by
  have haddr := takePage_addr ok hfree
  have hi := hfree.1
  simp only [pmmTakePage] at haddr h
  rw [haddr] at h
  by_contra hout
  rw [not_or] at hout
  refine h ((fill_frame _ _ PAGE_SIZE 0 hout.1).trans (writeLE_frame _ _ 1 _ fun hin => ?_))
  have hlow := hin.1
  have hhigh := hin.2
  exact hout.2 ⟨by omega, by omega⟩

/-- The frame is zeroed. -/
theorem takePage_zero {a n : Nat} (hlow : PAGE_SIZE * i ≤ a)
    (hhigh : a + n ≤ PAGE_SIZE * i + PAGE_SIZE) :
    readLE (pmmTakePage i s).2.ram a n = 0 := by
  have haddr := takePage_addr ok hfree
  simp only [pmmTakePage] at haddr ⊢
  rw [haddr]
  exact readLE_fill_zero hlow hhigh

theorem takePage_bitmapByte (j : Nat) (hj : j < s.pmm.bitmapSize * 8) :
    bitmapByte (pmmTakePage i s).2 j
      = if j / 8 = i / 8 then bitmapByte s i ||| 2 ^ (i % 8) else bitmapByte s j := by
  have haddr := takePage_addr ok hfree
  have hspared := ok.bitmap i hfree
  have hi := hfree.1
  have hbyte : bitmapByte s i ||| 2 ^ (i % 8) < 2 ^ 8 :=
    Nat.or_lt_two_pow (bitmapByte_lt s i) (Nat.pow_lt_pow_right (by decide) (by omega))
  simp only [pmmTakePage, bitmapByte] at haddr hbyte ⊢
  rw [haddr, readLE_fill_disjoint (by omega), Nat.one_shiftLeft]
  split
  next hsame =>
    rw [hsame, readLE_writeLE_same]
    exact Nat.mod_eq_of_lt hbyte
  next hother => rw [readLE_writeLE_disjoint (by omega)]

/-- Exactly frame `i` stops being free. -/
theorem takePage_free (j : Nat) : Free (pmmTakePage i s).2 j ↔ Free s j ∧ j ≠ i := by
  have hbit : j < s.pmm.bitmapSize * 8 →
      (bitmapBit (pmmTakePage i s).2 j = 0 ↔ bitmapBit s j = 0 ∧ j ≠ i) := by
    intro hj
    rw [bitmapBit_eq_zero_iff, bitmapBit_eq_zero_iff, takePage_bitmapByte ok hfree j hj]
    split
    next hsame =>
      have hbytes : bitmapByte s i = bitmapByte s j := by
        unfold bitmapByte
        rw [hsame]
      rw [Nat.testBit_or, Nat.testBit_two_pow, Bool.or_eq_false_iff, decide_eq_false_iff_not,
        hbytes]
      exact and_congr_right fun _ => not_congr (by omega)
    next hother => exact (and_iff_left (by rintro rfl; exact hother rfl)).symm
  unfold Free
  constructor
  · rintro ⟨hj, hclear⟩
    obtain ⟨hclear', hne⟩ := (hbit hj).mp hclear
    exact ⟨⟨hj, hclear'⟩, hne⟩
  · rintro ⟨⟨hj, hclear⟩, hne⟩
    exact ⟨hj, (hbit hj).mpr ⟨hclear, hne⟩⟩

theorem takePage_freeCount : freeCount (pmmTakePage i s).2 + 1 = freeCount s := by
  have herase : (Finset.range (s.pmm.bitmapSize * 8)).filter (Free (pmmTakePage i s).2)
      = ((Finset.range (s.pmm.bitmapSize * 8)).filter (Free s)).erase i := by
    ext j
    rw [Finset.mem_filter, Finset.mem_erase, Finset.mem_filter, takePage_free ok hfree j]
    exact ⟨fun h => ⟨h.2.2, h.1, h.2.1⟩, fun h => ⟨h.2.1, h.2.2, h.1⟩⟩
  have hmem : i ∈ (Finset.range (s.pmm.bitmapSize * 8)).filter (Free s) :=
    Finset.mem_filter.mpr ⟨Finset.mem_range.mpr hfree.1, hfree⟩
  unfold freeCount
  rw [pmmTakePage_bitmapSize, herase]
  exact Finset.card_erase_add_one hmem

theorem takePage_addressable : Addressable (pmmTakePage i s).2 :=
  ⟨ok.bound, ok.bitmap.mono fun j hj => ((takePage_free ok hfree j).mp hj).1⟩

end TakePage

theorem takePage_framesOk {s : State} {i : Nat} (ok : FramesOk s) (hfree : Free s i) :
    FramesOk (pmmTakePage i s).2 :=
  ⟨ok.bound, (takePage_addressable ok.addressable hfree).bitmap⟩

/-! ### Giving one frame back -/

/-- Of the 8 bits of a byte, masking with the others clears one. -/
theorem testBit_clear {byte i m : Nat} (hm : m < 8) :
    (byte &&& (0xFF ^^^ 2 ^ i)).testBit m = (byte.testBit m && decide (m ≠ i)) := by
  have hff : (0xFF : Nat).testBit m = true := by
    exact (Nat.testBit_two_pow_sub_one 8 m).trans (decide_eq_true hm)
  rw [Nat.testBit_and, Nat.testBit_xor, hff, Nat.testBit_two_pow, Bool.true_xor]
  by_cases h : m = i
  · simp [h]
  · simp [h, Ne.symm h]

section FreePage

variable (addr : Nat) (s : State)

@[simp] theorem pmmFreePage_vmm : (pmmFreePage addr s).vmm = s.vmm := by
  simp only [pmmFreePage]
  split
  · rfl
  · split <;> rfl

@[simp] theorem pmmFreePage_bitmap : (pmmFreePage addr s).pmm.bitmap = s.pmm.bitmap := by
  simp only [pmmFreePage]
  split
  · rfl
  · split <;> rfl

@[simp] theorem pmmFreePage_bitmapSize :
    (pmmFreePage addr s).pmm.bitmapSize = s.pmm.bitmapSize := by
  simp only [pmmFreePage]
  split
  · rfl
  · split <;> rfl

variable {addr s}

theorem pmmFreePage_unaligned (h : addr % PAGE_SIZE ≠ 0) : pmmFreePage addr s = s := by
  simp only [pmmFreePage]
  exact if_pos h

variable {k : Nat} (hk : k < s.pmm.bitmapSize * 8)
include hk

/-- Giving back a frame writes to the bitmap only. -/
theorem freePage_frame :
    Frame s.ram (pmmFreePage (PAGE_SIZE * k) s).ram s.pmm.bitmap
      (s.pmm.bitmap + s.pmm.bitmapSize) := by
  have hindex : PAGE_SIZE * k / PAGE_SIZE = k := Nat.mul_div_cancel_left k (by decide)
  simp only [pmmFreePage]
  split
  · exact Frame.refl _ _ _
  · split
    · exact Frame.refl _ _ _
    · rw [hindex]
      exact (writeLE_frame _ _ 1 _).widen (Nat.le_add_right _ _) (by omega)

/-- Exactly frame `k` becomes free. -/
theorem freePage_free (j : Nat) : Free (pmmFreePage (PAGE_SIZE * k) s) j ↔ Free s j ∨ j = k := by
  have halign : ¬ PAGE_SIZE * k % PAGE_SIZE ≠ 0 := not_not.mpr (Nat.mul_mod_right _ _)
  have hindex : PAGE_SIZE * k / PAGE_SIZE = k := Nat.mul_div_cancel_left k (by decide)
  simp only [pmmFreePage]
  rw [if_neg halign, hindex]
  split
  next hclear =>
    refine (or_iff_left_of_imp ?_).symm
    rintro rfl
    exact ⟨hk, hclear⟩
  next hset =>
    have hlt := readLE_lt s.ram (s.pmm.bitmap + k / 8) 1
    have hbyte : readLE s.ram (s.pmm.bitmap + k / 8) 1 &&& (0xFF ^^^ 2 ^ (k % 8)) < 256 ^ 1 :=
      lt_of_le_of_lt Nat.and_le_left hlt
    have hbit : bitmapBit (pmmClearPage k s) j = 0 ↔ bitmapBit s j = 0 ∨ j = k := by
      rw [bitmapBit_eq_zero_iff, bitmapBit_eq_zero_iff]
      simp only [bitmapByte, pmmClearPage]
      rw [Nat.one_shiftLeft]
      by_cases hsame : j / 8 = k / 8
      · rw [hsame, readLE_writeLE_same, Nat.mod_eq_of_lt hbyte, testBit_clear (by omega),
          Bool.and_eq_false_iff, decide_eq_false_iff_not, not_not]
        exact or_congr_right ⟨fun h => by omega, fun h => by omega⟩
      · rw [readLE_writeLE_disjoint (by omega)]
        exact (or_iff_left (by rintro rfl; exact hsame rfl)).symm
    constructor
    · rintro ⟨hj, hclear⟩
      exact (hbit.mp hclear).imp_left fun h => ⟨hj, h⟩
    · rintro (⟨hj, hclear⟩ | rfl)
      · exact ⟨hj, hbit.mpr (Or.inl hclear)⟩
      · exact ⟨hk, hbit.mpr (Or.inr rfl)⟩

end FreePage

/-! ### The search -/

theorem pmmAllocPageLoop_spec {s : State} {n i : Nat} (hn : i + n = s.pmm.bitmapSize * 8) :
    (pmmAllocPageLoop n i s = (NULL, s) ∧ ∀ j, i ≤ j → ¬ Free s j) ∨
      ∃ k, Free s k ∧ pmmAllocPageLoop n i s = pmmTakePage k s := by
  induction n generalizing i with
  | zero => exact Or.inl ⟨rfl, fun j hj hfree => absurd hfree.1 (by omega)⟩
  | succ n ih =>
      rw [pmmAllocPageLoop]
      by_cases hclear : bitmapBit s i = 0
      · rw [if_pos hclear]
        exact Or.inr ⟨i, ⟨by omega, hclear⟩, rfl⟩
      · rw [if_neg hclear]
        refine (ih (by omega)).imp_left fun ⟨hnull, hnone⟩ => ⟨hnull, fun j hj hfree => ?_⟩
        rcases Nat.eq_or_lt_of_le hj with rfl | hlt
        · exact hclear hfree.2
        · exact hnone j hlt hfree

/-- `pmm_alloc_page` gives up when no frame is free, and takes a free one otherwise. -/
theorem pmmAllocPage_spec {s : State} (ok : Addressable s) :
    (pmmAllocPage s = (NULL, s) ∧ ∀ i, ¬ Free s i) ∨
      ∃ i, Free s i ∧ pmmAllocPage s = pmmTakePage i s := by
  have hlimit : wmul 64 s.pmm.bitmapSize 8 = s.pmm.bitmapSize * 8 :=
    wmul_of_lt (lt_of_le_of_lt ok.bound (by decide))
  unfold pmmAllocPage
  rw [hlimit]
  exact (pmmAllocPageLoop_spec (Nat.zero_add _)).imp_left fun ⟨hnull, hnone⟩ =>
    ⟨hnull, fun i => hnone i (Nat.zero_le i)⟩

theorem pmmAllocPageLoop_first {s : State} {n i k : Nat} (hi : i ≤ k) (hk : k < i + n)
    (hclear : bitmapBit s k = 0) (hleast : ∀ j, i ≤ j → j < k → bitmapBit s j ≠ 0) :
    pmmAllocPageLoop n i s = pmmTakePage k s := by
  induction n generalizing i with
  | zero => omega
  | succ n ih =>
      rw [pmmAllocPageLoop]
      rcases Nat.eq_or_lt_of_le hi with rfl | hlt
      · exact if_pos hclear
      · rw [if_neg (hleast i (le_refl i) hlt)]
        exact ih hlt (by omega) fun j hj => hleast j (by omega)

/-- The frame that is taken is the first free one. -/
theorem pmmAllocPage_first {s : State} {k : Nat} (ok : Addressable s) (hfree : Free s k)
    (hleast : ∀ j < k, ¬ Free s j) : pmmAllocPage s = pmmTakePage k s := by
  have hlimit : wmul 64 s.pmm.bitmapSize 8 = s.pmm.bitmapSize * 8 :=
    wmul_of_lt (lt_of_le_of_lt ok.bound (by decide))
  have hk := hfree.1
  unfold pmmAllocPage
  rw [hlimit]
  exact pmmAllocPageLoop_first (Nat.zero_le k) (by omega) hfree.2 fun j _ hj hclear =>
    hleast j hj ⟨by omega, hclear⟩

end Curnel.Paging
