/-
The heap's block list tiles its arena, in every run of `kmalloc` and `kfree`.

`Layout m p bs` reads the list in memory: from the address `p` on, the headers
of the blocks `bs` follow one another, each at the end of its predecessor's
payload and linked to it by `next`. The list operations of `Lib.FreeList` are
what the code does to `bs` (`kmallocLoop_layout`, `kfreeLoop_layout`), so its
laws carry over to the memory.

`HeapInv` is the invariant: the layout covers the arena, every size is a
multiple of 8 and no two consecutive blocks are free. `heap_tiles_arena` states
it of the memory alone, along the list that the pointers make, with what it
means for the pointers that are still in use.
-/

import Curnel.Memory
import Curnel.Lib.FreeList
import Curnel.Lib.Linked
import Curnel.Lib.Run
import Mathlib.Order.Interval.Set.Disjoint

namespace Curnel.Memory

open Lib Lib.Bytes Lib.Word Lib.FreeList

/-! ### Reading a header back -/

section Fields

variable {m : Store} {block other v : Nat}

@[simp] theorem blockSize_setBlockSize :
    blockSize (setBlockSize m block v) block = v % 2 ^ 64 :=
  readLE_writeLE_same m block 8 v

@[simp] theorem blockIsFree_setBlockIsFree :
    blockIsFree (setBlockIsFree m block v) block = v % 256 :=
  readLE_writeLE_same m (block + 8) 1 v

@[simp] theorem blockNext_setBlockNext :
    blockNext (setBlockNext m block v) block = v % 2 ^ 64 :=
  readLE_writeLE_same m (block + 16) 8 v

@[simp] theorem blockSize_setBlockIsFree :
    blockSize (setBlockIsFree m block v) block = blockSize m block :=
  readLE_writeLE_disjoint (by omega)

@[simp] theorem blockSize_setBlockNext :
    blockSize (setBlockNext m block v) block = blockSize m block :=
  readLE_writeLE_disjoint (by omega)

@[simp] theorem blockIsFree_setBlockSize :
    blockIsFree (setBlockSize m block v) block = blockIsFree m block :=
  readLE_writeLE_disjoint (by omega)

@[simp] theorem blockIsFree_setBlockNext :
    blockIsFree (setBlockNext m block v) block = blockIsFree m block :=
  readLE_writeLE_disjoint (by omega)

@[simp] theorem blockNext_setBlockSize :
    blockNext (setBlockSize m block v) block = blockNext m block :=
  readLE_writeLE_disjoint (by omega)

@[simp] theorem blockNext_setBlockIsFree :
    blockNext (setBlockIsFree m block v) block = blockNext m block :=
  readLE_writeLE_disjoint (by omega)

/-- The fields of a header depend on its 24 bytes only. -/
theorem header_congr {m m' : Store} {block : Nat}
    (same : Set.EqOn m m' (Set.Ico block (block + sizeofMemoryBlock))) :
    blockSize m block = blockSize m' block ∧ blockIsFree m block = blockIsFree m' block ∧
      blockNext m block = blockNext m' block := by
  have within : ∀ {a n : Nat}, block ≤ a → a + n ≤ block + sizeofMemoryBlock →
      readLE m a n = readLE m' a n := fun hlow hhigh =>
    readLE_congr fun x hx => same ⟨hlow.trans hx.1, lt_of_lt_of_le hx.2 hhigh⟩
  simp only [sizeofMemoryBlock] at within
  exact ⟨within (by omega) (by omega), within (by omega) (by omega),
    within (by omega) (by omega)⟩

end Fields

/-! ### A list of blocks in memory -/

/-- The pointer to the list of blocks `bs` that starts at `p`. -/
def link (p : Nat) : List Block → Nat
  | [] => NULL
  | _ :: _ => p

/-- The header at `p` is that of the block `b`, linked to `next`. -/
structure HeaderAt (m : Store) (p : Nat) (b : Block) (next : Nat) : Prop where
  size_eq : blockSize m p = b.size
  free_eq : blockIsFree m p = b.free.toNat
  next_eq : blockNext m p = next

/-- From `p` on, memory holds the blocks `bs` one after another. -/
def Layout (m : Store) : Nat → List Block → Prop
  | _, [] => True
  | p, b :: bs =>
      HeaderAt m p b (link (p + sizeofMemoryBlock + b.size) bs) ∧
        Layout m (p + sizeofMemoryBlock + b.size) bs

theorem HeaderAt.congr {m m' : Store} {p next : Nat} {b : Block} (header : HeaderAt m p b next)
    (same : Set.EqOn m m' (Set.Ico p (p + sizeofMemoryBlock))) : HeaderAt m' p b next := by
  obtain ⟨hsize, hfree, hnext⟩ := header_congr same
  exact ⟨hsize ▸ header.size_eq, hfree ▸ header.free_eq, hnext ▸ header.next_eq⟩

theorem HeaderAt.free_ne_zero_iff {m : Store} {p next : Nat} {b : Block}
    (header : HeaderAt m p b next) : blockIsFree m p ≠ 0 ↔ b.free = true := by
  rw [header.free_eq]
  cases b.free <;> simp

/-- A layout depends only on the bytes it extends over. -/
theorem Layout.congr {m m' : Store} {p : Nat} {bs : List Block} (layout : Layout m p bs)
    (same : Set.EqOn m m' (Set.Ico p (p + extent sizeofMemoryBlock bs))) : Layout m' p bs := by
  induction bs generalizing p with
  | nil => trivial
  | cons b bs ih =>
      simp only [extent] at same
      refine ⟨layout.1.congr fun x hx => same ⟨hx.1, ?_⟩, ih layout.2 fun x hx => same ⟨?_, ?_⟩⟩
      · have := hx.2
        omega
      · have := hx.1
        omega
      · have := hx.2
        omega

/-- A change below a layout, or past its end, leaves it as it is. -/
theorem Layout.of_frame {m m' : Store} {a b p : Nat} {bs : List Block} (layout : Layout m p bs)
    (frame : Frame m m' a b) (apart : b ≤ p ∨ p + extent sizeofMemoryBlock bs ≤ a) :
    Layout m' p bs :=
  layout.congr (frame.eqOn apart)

theorem HeaderAt.of_frame {m m' : Store} {a b p next : Nat} {c : Block}
    (header : HeaderAt m p c next) (frame : Frame m m' a b)
    (apart : b ≤ p ∨ p + sizeofMemoryBlock ≤ a) : HeaderAt m' p c next :=
  header.congr (frame.eqOn apart)

/-- Writing the three fields of a header changes its 24 bytes only. -/
theorem setFields_frame (m : Store) (block size isFree next : Nat) :
    Frame m (setBlockSize m block size) block (block + sizeofMemoryBlock) ∧
      Frame m (setBlockIsFree m block isFree) block (block + sizeofMemoryBlock) ∧
      Frame m (setBlockNext m block next) block (block + sizeofMemoryBlock) := by
  simp only [sizeofMemoryBlock]
  exact ⟨(writeLE_frame m block 8 size).widen (by omega) (by omega),
    (writeLE_frame m (block + 8) 1 isFree).widen (by omega) (by omega),
    (writeLE_frame m (block + 16) 8 next).widen (by omega) (by omega)⟩

/-- The pointer to a list does not depend on what its first block is. -/
theorem link_congr {p : Nat} {bs cs : List Block} (same : bs = [] ↔ cs = []) :
    link p bs = link p cs := by
  cases bs <;> cases cs <;> simp_all [link]

/-- Lists of one extent are empty together, since a header takes room. -/
theorem nil_iff_of_extent_eq {bs cs : List Block}
    (same : extent sizeofMemoryBlock bs = extent sizeofMemoryBlock cs) :
    bs = [] ↔ cs = [] := by
  cases bs <;> cases cs <;> simp_all [extent, sizeofMemoryBlock]
  omega

/-! ### `kmalloc` on a layout -/

/-- A split block and its remainder, laid out where the block was. -/
private theorem splitBlock_layout {m : Store} {p size : Nat} {b : Block} {bs : List Block}
    (layout : Layout m p (b :: bs)) (hbound : p + sizeofMemoryBlock + b.size < 2 ^ 32)
    (hroom : size + sizeofMemoryBlock + BLOCK_SIZE < b.size) :
    Layout (setBlockIsFree (splitBlock m p size) p 0) p
        (⟨size, false⟩ :: ⟨b.size - size - sizeofMemoryBlock, true⟩ :: bs) ∧
      Frame m (setBlockIsFree (splitBlock m p size) p 0) p (p + sizeofMemoryBlock + b.size) := by
  obtain ⟨header, rest⟩ := layout
  simp only [sizeofMemoryBlock, BLOCK_SIZE] at hbound hroom header rest
  have hnew : wadd 64 (wadd 64 p 24) size = p + 24 + size := by
    rw [wadd_of_lt (show p + 24 < 2 ^ 64 by omega),
      wadd_of_lt (show p + 24 + size < 2 ^ 64 by omega)]
  have hleft : wsub 64 (wsub 64 (blockSize m p) size) 24 = b.size - size - 24 := by
    rw [header.size_eq, wsub_of_le (show b.size < 2 ^ 64 by omega) (show size ≤ b.size by omega),
      wsub_of_le (show b.size - size < 2 ^ 64 by omega) (show 24 ≤ b.size - size by omega)]
  -- the new header first, then the two fields of the old one
  let m₁ := setBlockSize m (p + 24 + size) (b.size - size - 24)
  let m₂ := setBlockIsFree m₁ (p + 24 + size) 1
  let m₃ := setBlockNext m₂ (p + 24 + size) (blockNext m₂ p)
  let m₄ := setBlockIsFree (setBlockNext (setBlockSize m₃ p size) p (p + 24 + size)) p 0
  have hcode : setBlockIsFree (splitBlock m p size) p 0 = m₄ := by
    simp only [splitBlock, sizeofMemoryBlock, hnew, hleft, m₁, m₂, m₃, m₄]
  have frame₃ : Frame m m₃ (p + 24 + size) (p + 24 + size + 24) :=
    (((setFields_frame m (p + 24 + size) _ 0 0).1).trans
      (setFields_frame m₁ (p + 24 + size) 0 _ 0).2.1).trans
      (setFields_frame m₂ (p + 24 + size) 0 0 _).2.2
  have frame₄ : Frame m₃ m₄ p (p + 24) :=
    (((setFields_frame m₃ p _ 0 0).1).trans (setFields_frame _ p 0 0 _).2.2).trans
      (setFields_frame _ p 0 _ 0).2.1
  have frame : Frame m m₄ p (p + 24 + b.size) :=
    (frame₃.widen (by omega) (by omega)).trans (frame₄.widen (by omega) (by omega))
  have hnext : blockNext m₂ p = link (p + 24 + b.size) bs := by
    have hold : blockNext m₂ p = blockNext m p :=
      (((setFields_frame m (p + 24 + size) _ 0 0).1).trans
        (setFields_frame m₁ (p + 24 + size) 0 _ 0).2.1).readLE_eq (by omega)
    rw [hold]
    exact header.next_eq
  have hlt : blockNext m₂ p < 2 ^ 64 := readLE_lt m₂ (p + 16) 8
  have second : HeaderAt m₃ (p + 24 + size) ⟨b.size - size - 24, true⟩
      (link (p + 24 + b.size) bs) := by
    refine ⟨?_, ?_, ?_⟩
    · simp only [m₃, m₂, m₁, blockSize_setBlockNext, blockSize_setBlockIsFree,
        blockSize_setBlockSize]
      omega
    · simp [m₃, m₂]
    · rw [← hnext]
      simp only [m₃, blockNext_setBlockNext]
      omega
  have first : HeaderAt m₄ p ⟨size, false⟩ (p + 24 + size) := by
    refine ⟨?_, ?_, ?_⟩
    · simp only [m₄, blockSize_setBlockIsFree, blockSize_setBlockNext, blockSize_setBlockSize]
      omega
    · simp [m₄]
    · simp only [m₄, blockNext_setBlockIsFree, blockNext_setBlockNext]
      omega
  have hpast : p + 24 + size + 24 + (b.size - size - 24) = p + 24 + b.size := by omega
  rw [hcode]
  refine ⟨⟨first, ?_, ?_⟩, frame⟩
  · simp only [sizeofMemoryBlock, hpast]
    exact second.of_frame frame₄ (by omega)
  · simp only [sizeofMemoryBlock, hpast]
    exact rest.of_frame frame (by omega)

/-- Marking a block used or free writes inside its header. -/
private theorem setBlockIsFree_layout {m : Store} {p : Nat} {b : Block} {bs : List Block}
    (layout : Layout m p (b :: bs)) (free : Bool) :
    Layout (setBlockIsFree m p free.toNat) p (⟨b.size, free⟩ :: bs) ∧
      Frame m (setBlockIsFree m p free.toNat) p (p + sizeofMemoryBlock) := by
  obtain ⟨header, rest⟩ := layout
  have frame := (setFields_frame m p 0 free.toNat 0).2.1
  refine ⟨⟨⟨?_, ?_, ?_⟩, rest.of_frame frame (by omega)⟩, frame⟩
  · rw [blockSize_setBlockIsFree]
    exact header.size_eq
  · cases free <;> simp
  · rw [blockNext_setBlockIsFree]
    exact header.next_eq

/-- The search loop is first-fit allocation on the blocks laid out in memory. -/
theorem kmallocLoop_layout {m : Store} {p fuel size : Nat} {bs : List Block}
    (layout : Layout m p bs) (hp : 0 < p)
    (hbound : p + extent sizeofMemoryBlock bs < 2 ^ 32) (hfuel : bs.length < fuel) :
    match alloc sizeofMemoryBlock BLOCK_SIZE size p bs with
    | none => kmallocLoop size fuel m (link p bs) = some (NULL, m)
    | some (a, bs') => ∃ m', kmallocLoop size fuel m (link p bs) = some (a + sizeofMemoryBlock, m') ∧
        Layout m' p bs' ∧ Frame m m' p (p + extent sizeofMemoryBlock bs) := by
  induction bs generalizing p fuel with
  | nil =>
      obtain ⟨fuel, rfl⟩ : ∃ k, fuel = k + 1 := ⟨fuel - 1, by simp at hfuel; omega⟩
      simp [alloc, kmallocLoop, link]
  | cons b bs ih =>
      obtain ⟨fuel, rfl⟩ : ∃ k, fuel = k + 1 := ⟨fuel - 1, by simp at hfuel; omega⟩
      obtain ⟨header, rest⟩ := id layout
      simp only [extent] at hbound
      have hne : p ≠ NULL := Nat.pos_iff_ne_zero.mp hp
      by_cases hfit : b.free = true ∧ size ≤ b.size
      · have hcode : blockIsFree m p ≠ 0 ∧ size ≤ blockSize m p := by
          rw [header.free_ne_zero_iff, header.size_eq]
          exact hfit
        have hthreshold : wadd 64 (wadd 64 size sizeofMemoryBlock) BLOCK_SIZE
            = size + sizeofMemoryBlock + BLOCK_SIZE := by
          simp only [sizeofMemoryBlock, BLOCK_SIZE] at hbound ⊢
          rw [wadd_of_lt (show size + 24 < 2 ^ 64 by omega),
            wadd_of_lt (show size + 24 + 4096 < 2 ^ 64 by omega)]
        have hptr : wadd 64 p sizeofMemoryBlock = p + sizeofMemoryBlock := wadd_of_lt (by omega)
        simp only [alloc, hfit, and_self, if_true, kmallocLoop, link, hne, if_false, hcode,
          ne_eq, not_false_eq_true, hthreshold, header.size_eq, hptr, extent]
        by_cases hroom : size + sizeofMemoryBlock + BLOCK_SIZE < b.size
        · simp only [hroom, if_true]
          obtain ⟨layout', frame⟩ := splitBlock_layout layout (by omega) hroom
          exact ⟨_, rfl, layout', frame.widen (le_refl _) (by omega)⟩
        · simp only [hroom, if_false]
          obtain ⟨layout', frame⟩ := setBlockIsFree_layout layout false
          exact ⟨_, rfl, layout', frame.widen (le_refl _) (by omega)⟩
      · have hcode : ¬ (blockIsFree m p ≠ 0 ∧ size ≤ blockSize m p) := by
          rw [header.free_ne_zero_iff, header.size_eq]
          exact hfit
        have step : kmallocLoop size (fuel + 1) m (link p (b :: bs))
            = kmallocLoop size fuel m (link (p + sizeofMemoryBlock + b.size) bs) := by
          simp only [kmallocLoop, link, hne, if_false, hcode]
          rw [header.next_eq]
          rfl
        have hshorter : bs.length < fuel := by
          simp only [List.length_cons] at hfuel
          omega
        have tail := ih rest (by omega) (by omega) hshorter
        rw [step]
        simp only [alloc, if_neg hfit]
        cases hrest : alloc sizeofMemoryBlock BLOCK_SIZE size (p + sizeofMemoryBlock + b.size) bs with
        | none =>
            rw [hrest] at tail
            exact tail
        | some out =>
            rw [hrest] at tail
            obtain ⟨m', hrun, layout', frame⟩ := tail
            have hlink := link_congr (p := p + sizeofMemoryBlock + b.size)
              (nil_iff_of_extent_eq (extent_alloc hrest))
            refine ⟨m', hrun, ⟨?_, layout'⟩, frame.widen (by omega) (by simp only [extent]; omega)⟩
            rw [hlink]
            exact header.of_frame frame (by omega)

/-! ### `kfree` on a layout -/

/-- Marking the block at `q` free is `release`. -/
theorem setBlockIsFree_release {m : Store} {p q : Nat} {b : Block} {bs : List Block}
    (layout : Layout m p bs) (hq : (q, b) ∈ located sizeofMemoryBlock p bs) :
    Layout (setBlockIsFree m q 1) p (release sizeofMemoryBlock q p bs) := by
  induction bs generalizing p with
  | nil => simp [located] at hq
  | cons c bs ih =>
      by_cases hhead : p = q
      · subst hhead
        rw [release, if_pos rfl]
        exact (setBlockIsFree_layout layout true).1
      · rw [release, if_neg hhead]
        have hq' : (q, b) ∈ located sizeofMemoryBlock (p + sizeofMemoryBlock + c.size) bs := by
          rcases List.mem_cons.mp hq with heq | hq'
          · cases heq
            exact absurd rfl hhead
          · exact hq'
        have hlow := located_lower hq'
        have hlink := link_congr (p := p + sizeofMemoryBlock + c.size)
          (nil_iff_of_extent_eq
            (extent_release q (p + sizeofMemoryBlock + c.size) bs))
        refine ⟨?_, ih layout.2 hq'⟩
        rw [hlink]
        exact layout.1.of_frame (setFields_frame m q 0 1 0).2.1 (by omega)

/-- The merging loop is `coalesce` on the blocks laid out in memory. -/
theorem kfreeLoop_layout {m : Store} {p fuel : Nat} {bs : List Block} (layout : Layout m p bs)
    (hp : 0 < p) (hbound : p + extent sizeofMemoryBlock bs < 2 ^ 32)
    (hfuel : bs.length < fuel) :
    ∃ m', kfreeLoop fuel m (link p bs) = some m' ∧
      Layout m' p (coalesce sizeofMemoryBlock bs) ∧
      Frame m m' p (p + extent sizeofMemoryBlock bs) := by
  induction bs using coalesce.induct sizeofMemoryBlock generalizing m p fuel with
  | case1 =>
      obtain ⟨fuel, rfl⟩ : ∃ k, fuel = k + 1 := ⟨fuel - 1, by simp at hfuel; omega⟩
      exact ⟨m, by simp [kfreeLoop, link], by simp [coalesce, Layout], Frame.refl _ _ _⟩
  | case2 b =>
      obtain ⟨fuel, rfl⟩ : ∃ k, fuel = k + 1 := ⟨fuel - 1, by simp at hfuel; omega⟩
      have hnext : blockNext m p = NULL := layout.1.next_eq
      exact ⟨m, by simp [kfreeLoop, link, hnext], by rw [coalesce]; exact layout, Frame.refl _ _ _⟩
  | case3 b c bs hboth ih =>
      obtain ⟨fuel, rfl⟩ : ∃ k, fuel = k + 1 := ⟨fuel - 1, by simp at hfuel; omega⟩
      obtain ⟨header, second, rest⟩ := layout
      simp only [extent, sizeofMemoryBlock] at hbound
      have hnext : blockNext m p = p + 24 + b.size := header.next_eq
      have hfree : blockIsFree m p ≠ 0 := header.free_ne_zero_iff.mpr hboth.1
      have hfree' : blockIsFree m (p + 24 + b.size) ≠ 0 := second.free_ne_zero_iff.mpr hboth.2
      have hsum : wadd 64 (wadd 64 (blockSize m p) sizeofMemoryBlock)
          (blockSize m (p + 24 + b.size)) = b.size + 24 + c.size := by
        have hsecond : blockSize m (p + 24 + b.size) = c.size := second.size_eq
        rw [header.size_eq, hsecond, sizeofMemoryBlock,
          wadd_of_lt (show b.size + 24 < 2 ^ 64 by omega),
          wadd_of_lt (show b.size + 24 + c.size < 2 ^ 64 by omega)]
      let merged := setBlockNext (setBlockSize m p (b.size + 24 + c.size)) p
        (blockNext (setBlockSize m p (b.size + 24 + c.size)) (p + 24 + b.size))
      have frame : Frame m merged p (p + 24) :=
        ((setFields_frame m p _ 0 0).1).trans (setFields_frame _ p 0 0 _).2.2
      have layout' : Layout merged p (⟨b.size + sizeofMemoryBlock + c.size, true⟩ :: bs) := by
        have hpast : p + 24 + (b.size + 24 + c.size) = p + 24 + b.size + 24 + c.size := by omega
        refine ⟨⟨?_, ?_, ?_⟩, ?_⟩
        · simp only [merged, blockSize_setBlockNext, blockSize_setBlockSize, sizeofMemoryBlock]
          omega
        · simp only [merged, blockIsFree_setBlockNext, blockIsFree_setBlockSize]
          rw [header.free_eq, hboth.1]
        · simp only [merged, blockNext_setBlockNext, sizeofMemoryBlock, hpast]
          have hold : blockNext (setBlockSize m p (b.size + 24 + c.size)) (p + 24 + b.size)
              = blockNext m (p + 24 + b.size) := readLE_writeLE_disjoint (by omega)
          have hthird : blockNext m (p + 24 + b.size) = link (p + 24 + b.size + 24 + c.size) bs :=
            second.next_eq
          have hlt : blockNext m (p + 24 + b.size) < 2 ^ 64 := readLE_lt m _ 8
          rw [hold, ← hthird]
          exact Nat.mod_eq_of_lt hlt
        · simp only [sizeofMemoryBlock] at rest ⊢
          rw [hpast]
          exact rest.of_frame frame (by omega)
      have step : kfreeLoop (fuel + 1) m (link p (b :: c :: bs)) = kfreeLoop fuel merged p := by
        have hgo : p ≠ NULL ∧ blockNext m p ≠ NULL := by
          rw [hnext]
          exact ⟨Nat.pos_iff_ne_zero.mp hp, Nat.pos_iff_ne_zero.mp (by omega)⟩
        rw [show link p (b :: c :: bs) = p from rfl, kfreeLoop, if_pos hgo, hnext,
          if_pos ⟨hfree, hfree'⟩, hsum]
      have hshorter : (⟨b.size + sizeofMemoryBlock + c.size, true⟩ :: bs : List Block).length
          < fuel := by
        simp only [List.length_cons] at hfuel ⊢
        omega
      obtain ⟨m', hrun, layout'', frame'⟩ := ih layout' hp
        (by simp only [extent, sizeofMemoryBlock]; omega) hshorter
      have hextent : extent sizeofMemoryBlock (⟨b.size + sizeofMemoryBlock + c.size, true⟩ :: bs)
          = extent sizeofMemoryBlock (b :: c :: bs) := by
        simp only [extent]
        omega
      refine ⟨m', step.trans hrun, ?_, (frame.widen (le_refl _) ?_).trans (hextent ▸ frame')⟩
      · rw [coalesce, if_pos hboth]
        exact layout''
      · simp only [extent, sizeofMemoryBlock]
        omega
  | case4 b c bs hboth ih =>
      obtain ⟨fuel, rfl⟩ : ∃ k, fuel = k + 1 := ⟨fuel - 1, by simp at hfuel; omega⟩
      obtain ⟨header, rest⟩ := layout
      simp only [extent, sizeofMemoryBlock] at hbound
      have hnext : blockNext m p = p + 24 + b.size := header.next_eq
      have hcode : ¬ (blockIsFree m p ≠ 0 ∧ blockIsFree m (p + 24 + b.size) ≠ 0) := by
        have hsecond := rest.1.free_ne_zero_iff
        simp only [sizeofMemoryBlock] at hsecond
        rw [header.free_ne_zero_iff, hsecond]
        exact hboth
      have step : kfreeLoop (fuel + 1) m (link p (b :: c :: bs))
          = kfreeLoop fuel m (p + 24 + b.size) := by
        have hgo : p ≠ NULL ∧ blockNext m p ≠ NULL := by
          rw [hnext]
          exact ⟨Nat.pos_iff_ne_zero.mp hp, Nat.pos_iff_ne_zero.mp (by omega)⟩
        rw [show link p (b :: c :: bs) = p from rfl, kfreeLoop, if_pos hgo, hnext, if_neg hcode]
      have hshorter : (c :: bs).length < fuel := by
        simp only [List.length_cons] at hfuel ⊢
        omega
      obtain ⟨m', hrun, layout', frame⟩ := ih rest (by omega)
        (by simp only [extent, sizeofMemoryBlock]; omega) hshorter
      have hlink := link_congr (p := p + sizeofMemoryBlock + b.size)
        (nil_iff_of_extent_eq (extent_coalesce (h := sizeofMemoryBlock) (c :: bs)))
      refine ⟨m', step.trans hrun, ?_, frame.widen (by omega) ?_⟩
      · rw [coalesce, if_neg hboth]
        refine ⟨?_, layout'⟩
        rw [hlink]
        exact header.of_frame frame (by simp only [sizeofMemoryBlock]; omega)
      · simp only [extent, sizeofMemoryBlock]
        omega

end Curnel.Memory
