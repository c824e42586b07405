/-
Freeing leaves no trace in the block list.

`blockList` reads the list in memory: the address, the size and the free flag of
each block. Without adjacent free blocks the blocks in use determine it
(`Lib.FreeList.eq_of_used_iff`), so it does not depend on how they came to be the
ones in use: a release undoes its allocation, releases commute, and with nothing
left in use there is a single free block.
-/

import Curnel.Memory.Runs

namespace Curnel.Memory

open Lib Lib.Bytes Lib.Word Lib.FreeList

/-! ### The block list in memory -/

/-- What a header says, with its address. -/
structure Entry where
  addr : Nat
  size : Nat
  isFree : Nat
deriving DecidableEq, Repr

/-- The list from `current` on, up to a null pointer. -/
def entries : Nat → Store → Nat → Option (List Entry)
  | 0, _, _ => none
  | fuel + 1, m, current =>
      if current = NULL then some []
      else
        (entries fuel m (blockNext m current)).map
          (⟨current, blockSize m current, blockIsFree m current⟩ :: ·)

def blockList (s : State) : Option (List Entry) := entries heapFuel s.ram s.memoryStart

/-- Free pointers one after another. -/
def kfreeAll (ptrs : List Nat) (s : State) : Option State :=
  ptrs.foldlM (fun s ptr => kfree ptr s) s

/-- The entries of blocks laid out from `p` on. -/
def entriesOf (p : Nat) (bs : List Block) : List Entry :=
  (located sizeofMemoryBlock p bs).map fun x => ⟨x.1, x.2.size, x.2.free.toNat⟩

theorem Layout.entries_eq {m : Store} {p fuel : Nat} {bs : List Block} (layout : Layout m p bs)
    (hp : 0 < p) (hfuel : bs.length < fuel) :
    entries fuel m (link p bs) = some (entriesOf p bs) := by
  induction bs generalizing p fuel with
  | nil =>
      obtain ⟨fuel, rfl⟩ : ∃ k, fuel = k + 1 := ⟨fuel - 1, by simp at hfuel; omega⟩
      rfl
  | cons b bs ih =>
      obtain ⟨fuel, rfl⟩ : ∃ k, fuel = k + 1 := ⟨fuel - 1, by simp at hfuel; omega⟩
      obtain ⟨header, rest⟩ := layout
      have hshorter : bs.length < fuel := by
        rw [List.length_cons] at hfuel
        omega
      have hne : link p (b :: bs) ≠ NULL := Nat.pos_iff_ne_zero.mp hp
      rw [entries, if_neg hne]
      change Option.map _ (entries fuel m (blockNext m p)) = _
      rw [header.next_eq, ih rest (by omega) hshorter]
      change some (Entry.mk p (blockSize m p) (blockIsFree m p) :: _) = _
      rw [header.size_eq, header.free_eq]
      rfl

theorem HeapInv.blockList_eq {h : Heap} {bs : List Block} (inv : HeapInv h bs) :
    blockList h.state = some (entriesOf MEMORY_START bs) := by
  obtain ⟨hne, hfuel⟩ := inv.walkable
  have hentries := inv.layout.entries_eq (by decide) hfuel
  rw [link_of_ne_nil hne] at hentries
  rw [blockList, inv.start]
  exact hentries

/-! ### Releases -/

/-- Freeing live pointers leaves the other blocks in use. -/
theorem HeapInv.kfreeAll {h : Heap} {bs : List Block} {ptrs : List Nat} (inv : HeapInv h bs)
    (hnodup : ptrs.Nodup) (hlive : ∀ p ∈ ptrs, p ∈ h.live) :
    ∃ s live bs', kfreeAll ptrs h.state = some s ∧ HeapInv ⟨s, live⟩ bs' ∧
      ∀ x, x ∈ used sizeofMemoryBlock MEMORY_START bs' ↔
        x ∈ used sizeofMemoryBlock MEMORY_START bs ∧ x.1 + sizeofMemoryBlock ∉ ptrs := by
  induction ptrs generalizing h bs with
  | nil => exact ⟨h.state, h.live, bs, rfl, inv, fun x => by simp⟩
  | cons p ptrs ih =>
      obtain ⟨hp, hrest⟩ := List.nodup_cons.mp hnodup
      obtain ⟨s₁, bs₁, hrun, inv₁, -, hused₁⟩ := inv.released (hlive p List.mem_cons_self)
      have hlive₁ : ∀ q ∈ ptrs, q ∈ h.live.erase p := by
        intro q hq
        refine Finset.mem_erase.mpr ⟨?_, hlive q (List.mem_cons_of_mem _ hq)⟩
        rintro rfl
        exact hp hq
      obtain ⟨s, live, bs', hruns, inv', hused⟩ := ih inv₁ hrest hlive₁
      refine ⟨s, live, bs', ?_, inv', fun x => ?_⟩
      · rw [Memory.kfreeAll, List.foldlM_cons, hrun]
        exact hruns
      · rw [hused x, hused₁ x, List.mem_cons, not_or, and_assoc]

/-- Tiled heaps with the same blocks in use have the same block list. -/
theorem HeapInv.blockList_congr {h h' : Heap} {bs bs' : List Block} (inv : HeapInv h bs)
    (inv' : HeapInv h' bs')
    (hused : ∀ x, x ∈ used sizeofMemoryBlock MEMORY_START bs ↔
      x ∈ used sizeofMemoryBlock MEMORY_START bs') :
    blockList h.state = blockList h'.state := by
  have hsame : bs = bs' := eq_of_used_iff (by decide) inv.noAdjacentFree inv'.noAdjacentFree
    (inv.covers.trans inv'.covers.symm) hused
  rw [inv.blockList_eq, inv'.blockList_eq, hsame]

/-! ### No fragmentation -/

/-- A release undoes the allocation it follows. -/
theorem HeapInv.kfree_kmalloc {h : Heap} {bs : List Block} (inv : HeapInv h bs) {size ptr : Nat}
    {s : State} (hrun : kmalloc size h.state = some (ptr, s)) :
    ∃ s' list, kfree ptr s = some s' ∧ blockList h.state = some list ∧
      blockList s' = some list := by
  rcases kmalloc_returns inv size with
    ⟨-, hnull⟩ | ⟨a, bs', t, halloc, hptr, hinit, hstart, layout⟩
  · rw [hnull] at hrun
    cases hrun
    exact ⟨h.state, _, if_pos (Or.inl rfl), inv.blockList_eq, inv.blockList_eq⟩
  · rw [hptr] at hrun
    cases hrun
    have taken := inv.taken halloc hinit hstart layout
    obtain ⟨s', bs₂, hfree, inv₂, hbs₂, -⟩ := taken.released (Finset.mem_insert_self _ _)
    have hback : bs₂ = bs := by
      rw [hbs₂, Nat.add_sub_cancel]
      exact coalesce_release_alloc (by decide) inv.noAdjacentFree halloc
    refine ⟨s', _, hfree, inv.blockList_eq, ?_⟩
    rw [inv₂.blockList_eq, hback]

/-- Releases of the same pointers commute. -/
theorem HeapInv.kfreeAll_perm {h : Heap} {bs : List Block} (inv : HeapInv h bs)
    {ptrs ptrs' : List Nat} (hnodup : ptrs.Nodup) (hlive : ∀ p ∈ ptrs, p ∈ h.live)
    (hperm : ptrs'.Perm ptrs) :
    ∃ s s' list, Memory.kfreeAll ptrs h.state = some s ∧
      Memory.kfreeAll ptrs' h.state = some s' ∧ blockList s = some list ∧
      blockList s' = some list := by
  obtain ⟨s, live, cs, hrun, inv₁, hused⟩ := inv.kfreeAll hnodup hlive
  obtain ⟨s', live', cs', hrun', inv₂, hused'⟩ := inv.kfreeAll (hperm.nodup_iff.mpr hnodup)
    fun p hp => hlive p (hperm.mem_iff.mp hp)
  refine ⟨s, s', _, hrun, hrun', inv₁.blockList_eq, ?_⟩
  rw [← inv₁.blockList_eq]
  refine inv₂.blockList_congr inv₁ fun x => ?_
  rw [hused x, hused' x, hperm.mem_iff]

/-- With no pointer left, the arena is one free block. -/
theorem HeapInv.kfreeAll_live {h : Heap} {bs : List Block} (inv : HeapInv h bs)
    {ptrs : List Nat} (hnodup : ptrs.Nodup) (hlive : ∀ p, p ∈ ptrs ↔ p ∈ h.live) :
    ∃ s, Memory.kfreeAll ptrs h.state = some s ∧
      blockList s = some [⟨MEMORY_START, MEMORY_SIZE - sizeofMemoryBlock, 1⟩] := by
  obtain ⟨s, live, cs, hrun, inv', hused⟩ := inv.kfreeAll hnodup fun p => (hlive p).mp
  refine ⟨s, hrun, ?_⟩
  have hblocks := inv'.blockList_congr (heapInv_boot h.state.ram) fun x => by
    rw [hused x]
    refine iff_of_false ?_ (by simp [used])
    rintro ⟨hmem, hnot⟩
    exact hnot ((hlive _).mpr ((inv.live_iff _).mpr ⟨x.1, x.2, hmem, rfl⟩))
  rw [hblocks, (heapInv_boot h.state.ram).blockList_eq]
  rfl

/-- **No history leaves fragmentation.** In every heap that `kmalloc` and `kfree` of live
pointers reach from `memory_init`, freeing what `kmalloc` has just returned restores the
block list; freeing live pointers leaves the same block list in whatever order; and freeing
them all leaves a single free block over the whole arena. -/
theorem frees_restore_block_list {ram : Store} {ops : List Op} {h : Heap}
    (run : Run Step (boot ram) (.memoryInit :: ops) h) :
    (∀ size ptr s, kmalloc size h.state = some (ptr, s) →
        ∃ s' list, kfree ptr s = some s' ∧ blockList h.state = some list ∧
          blockList s' = some list) ∧
      (∀ ptrs ptrs', ptrs.Nodup → (∀ p ∈ ptrs, p ∈ h.live) → ptrs'.Perm ptrs →
        ∃ s s' list, kfreeAll ptrs h.state = some s ∧ kfreeAll ptrs' h.state = some s' ∧
          blockList s = some list ∧ blockList s' = some list) ∧
      ∀ ptrs, ptrs.Nodup → (∀ p, p ∈ ptrs ↔ p ∈ h.live) →
        ∃ s, kfreeAll ptrs h.state = some s ∧
          blockList s = some [⟨MEMORY_START, MEMORY_SIZE - sizeofMemoryBlock, 1⟩] := by
  obtain ⟨bs, inv⟩ := heapInv_run run
  exact ⟨fun _ _ _ => inv.kfree_kmalloc, fun _ _ => inv.kfreeAll_perm,
    fun _ => inv.kfreeAll_live⟩

/-- Two blocks, freed in the order in which they were taken. -/
theorem frees_restore_block_list_two_blocks :
    ∃ h s, Run Step (boot fun _ => 0) [.memoryInit, .kmalloc 5000, .kmalloc 100] h ∧
      kfreeAll [MEMORY_START + 24, MEMORY_START + 5048] h.state = some s ∧
      blockList s = some [⟨MEMORY_START, MEMORY_SIZE - sizeofMemoryBlock, 1⟩] := by
  have inv₀ := heapInv_boot fun _ => 0
  have hfit₀ : alloc sizeofMemoryBlock BLOCK_SIZE (alignSize 5000) MEMORY_START
      [⟨MEMORY_SIZE - sizeofMemoryBlock, true⟩]
      = some (MEMORY_START, [⟨5000, false⟩, ⟨1043528, true⟩]) := by decide
  have hfit₁ : alloc sizeofMemoryBlock BLOCK_SIZE (alignSize 100) MEMORY_START
      [⟨5000, false⟩, ⟨1043528, true⟩]
      = some (MEMORY_START + 5024, [⟨5000, false⟩, ⟨104, false⟩, ⟨1043400, true⟩]) := by decide
  rcases kmalloc_returns inv₀ 5000 with ⟨hnone, -⟩ | ⟨a, bs, s₁, halloc, hrun₁, hinit, hstart, layout⟩
  · simp [hfit₀] at hnone
  rw [hfit₀] at halloc
  cases halloc
  have inv₁ := inv₀.taken hfit₀ hinit hstart layout
  have taken₁ : Step _ (.kmalloc 5000) _ :=
    .kmalloc (by decide) hrun₁ (by simp [sizeofMemoryBlock])
  rcases kmalloc_returns inv₁ 100 with ⟨hnone, -⟩ | ⟨a, bs, s₂, halloc, hrun₂, -⟩
  · simp [hfit₁] at hnone
  rw [hfit₁] at halloc
  cases halloc
  have taken₂ : Step _ (.kmalloc 100) _ :=
    .kmalloc (by decide) hrun₂ (by simp [sizeofMemoryBlock])
  have run : Run Step (boot fun _ => 0) [.memoryInit, .kmalloc 5000, .kmalloc 100] _ :=
    .cons (.memoryInit _) (.cons taken₁ (.single taken₂))
  obtain ⟨-, -, hall⟩ := frees_restore_block_list run
  obtain ⟨s, hfree, hlist⟩ := hall [MEMORY_START + 24, MEMORY_START + 5048] (by decide) fun p => by
    simp [boot, sizeofMemoryBlock, or_comm]
  exact ⟨_, s, run, hfree, hlist⟩

end Curnel.Memory
