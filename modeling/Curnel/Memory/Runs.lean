/-
Every run of the heap keeps its arena tiled.

A run starts with `memory_init` and goes on with any `kmalloc`, and with any
`kfree` of a null pointer or of a pointer that `kmalloc` returned and that has
not been freed since; `Heap.live` keeps track of those. One step keeps `HeapInv`
(`heapInv_step`), so every run does, and `HeapInv` read along the linked list is
`TilesArena` with what it means for the payloads (`heap_tiles_arena`). No step
gets stuck in a list walk (`kmalloc_returns`, `kfree_returns`).
-/

import Curnel.Memory.Arena
import Mathlib.Data.Finset.Insert
import Mathlib.Data.Finset.Erase
import Mathlib.Order.CompletePartialOrder

namespace Curnel.Memory

open Lib Lib.Bytes Lib.Word Lib.FreeList

/-! ### The system -/

inductive Op where
  | memoryInit
  | kmalloc (size : Nat)
  | kfree (ptr : Nat)
deriving DecidableEq, Repr

/-- The allocator, and the pointers it has handed out and not got back. -/
structure Heap where
  state : State
  live : Finset Nat

inductive Step : Heap → Op → Heap → Prop where
  | memoryInit (h : Heap) : Step h .memoryInit { h with state := memoryInit h.state }
  | kmallocNull {h : Heap} {size : Nat} {s : State} :
      size < 2 ^ 64 → kmalloc size h.state = some (NULL, s) →
      Step h (.kmalloc size) { h with state := s }
  | kmalloc {h : Heap} {size ptr : Nat} {s : State} :
      size < 2 ^ 64 → kmalloc size h.state = some (ptr, s) → ptr ≠ NULL →
      Step h (.kmalloc size) ⟨s, insert ptr h.live⟩
  | kfree {h : Heap} {ptr : Nat} {s : State} :
      ptr = NULL ∨ ptr ∈ h.live → kfree ptr h.state = some s →
      Step h (.kfree ptr) ⟨s, h.live.erase ptr⟩

/-- The heap before `memory_init`: the memory holds anything. -/
def boot (ram : Store) : Heap := ⟨⟨ram, NULL, false⟩, ∅⟩

/-! ### The invariant -/

/-- The blocks `bs` tile the arena, and the live pointers are the payloads of
those in use. -/
structure HeapInv (h : Heap) (bs : List Block) : Prop where
  initialized : h.state.memoryInitialized = true
  start : h.state.memoryStart = MEMORY_START
  layout : Layout h.state.ram MEMORY_START bs
  covers : extent sizeofMemoryBlock bs = MEMORY_SIZE
  aligned : ∀ b ∈ bs, 8 ∣ b.size
  noAdjacentFree : NoAdjacentFree bs
  live_iff : ∀ p, p ∈ h.live ↔
    ∃ a n, (a, n) ∈ used sizeofMemoryBlock MEMORY_START bs ∧ p = a + sizeofMemoryBlock

theorem memoryInit_of_initialized {s : State} (h : s.memoryInitialized = true) :
    memoryInit s = s := by
  simp [memoryInit, h]

theorem heapInv_boot (ram : Store) :
    HeapInv { boot ram with state := memoryInit (boot ram).state }
      [⟨MEMORY_SIZE - sizeofMemoryBlock, true⟩] := by
  refine ⟨rfl, rfl, ⟨⟨?_, ?_, ?_⟩, trivial⟩, rfl, ?_, List.isChain_singleton _, ?_⟩
  · simp [memoryInit, boot, MEMORY_SIZE, sizeofMemoryBlock]
  · simp [memoryInit, boot]
  · simp [memoryInit, boot, link]
  · simp only [List.mem_singleton, forall_eq]
    decide
  · simp [boot, used]

/-- A list that covers the arena is not empty, and short enough to walk. -/
theorem HeapInv.walkable {h : Heap} {bs : List Block} (inv : HeapInv h bs) :
    bs ≠ [] ∧ bs.length < heapFuel := by
  have hcovers := inv.covers
  have hlength := length_mul_le_extent (h := sizeofMemoryBlock) bs
  simp only [sizeofMemoryBlock, MEMORY_SIZE] at hcovers hlength
  refine ⟨?_, ?_⟩
  · rintro rfl
    simp [extent] at hcovers
  · simp only [heapFuel, MEMORY_SIZE]
    omega

theorem link_of_ne_nil {p : Nat} {bs : List Block} (h : bs ≠ []) : link p bs = p := by
  cases bs with
  | nil => exact absurd rfl h
  | cons b bs => rfl

theorem dvd_alignSize (size : Nat) : 8 ∣ alignSize size := by
  unfold alignSize wadd
  split <;> omega

/-! ### What one call does -/

/-- `kmalloc` returns: a null pointer with the heap as it was, for no bytes or
when nothing fits, or the payload of the block that first-fit allocation takes. -/
theorem kmalloc_returns {h : Heap} {bs : List Block} (inv : HeapInv h bs) (size : Nat) :
    (size = 0 ∨ alloc sizeofMemoryBlock BLOCK_SIZE (alignSize size) MEMORY_START bs = none) ∧
        kmalloc size h.state = some (NULL, h.state) ∨
      ∃ a bs' s, alloc sizeofMemoryBlock BLOCK_SIZE (alignSize size) MEMORY_START bs
          = some (a, bs') ∧ kmalloc size h.state = some (a + sizeofMemoryBlock, s) ∧
        s.memoryInitialized = true ∧ s.memoryStart = MEMORY_START ∧
        Layout s.ram MEMORY_START bs' := by
  obtain ⟨hne, hfuel⟩ := inv.walkable
  by_cases hzero : size = 0
  · exact Or.inl ⟨Or.inl hzero, by simp [kmalloc, hzero, inv.initialized]⟩
  · have search := @kmallocLoop_layout _ _ _ (alignSize size) _ inv.layout (by decide)
      (by rw [inv.covers]; decide) hfuel
    rw [link_of_ne_nil hne, ← inv.start] at search
    cases hfit : alloc sizeofMemoryBlock BLOCK_SIZE (alignSize size) h.state.memoryStart bs with
    | none =>
        rw [hfit] at search
        rw [inv.start] at hfit
        refine Or.inl ⟨Or.inr hfit, ?_⟩
        simp only [kmalloc]
        rw [if_pos inv.initialized, if_neg hzero, search]
        rfl
    | some out =>
        rw [hfit] at search
        obtain ⟨m, hrun, layout, -⟩ := search
        right
        rw [inv.start] at hfit layout
        exact ⟨out.1, out.2, { h.state with ram := m }, hfit,
          by simp [kmalloc, hzero, inv.initialized, hrun], inv.initialized, inv.start, layout⟩

/-- `kfree` of a live pointer returns: its block is released and merged. -/
theorem kfree_returns {h : Heap} {bs : List Block} {p : Nat} (inv : HeapInv h bs)
    (hp : p ∈ h.live) :
    ∃ s, kfree p h.state = some s ∧ s.memoryInitialized = true ∧
      s.memoryStart = MEMORY_START ∧ p = (p - sizeofMemoryBlock) + sizeofMemoryBlock ∧
      Layout s.ram MEMORY_START
        (coalesce sizeofMemoryBlock (release sizeofMemoryBlock (p - sizeofMemoryBlock)
          MEMORY_START bs)) := by
  obtain ⟨hne, hfuel⟩ := inv.walkable
  obtain ⟨a, n, hused, rfl⟩ := (inv.live_iff p).mp hp
  have hlocated := mem_used_iff.mp hused
  have hupper := located_upper hlocated
  simp only [inv.covers] at hupper
  rw [Nat.add_sub_cancel]
  have hblock : wsub 64 (a + sizeofMemoryBlock) sizeofMemoryBlock = a := by
    simp only [sizeofMemoryBlock, MEMORY_START, MEMORY_SIZE] at hupper ⊢
    rw [wsub_of_le (show a + 24 < 2 ^ 64 by omega) (show 24 ≤ a + 24 by omega)]
    omega
  have released := setBlockIsFree_release inv.layout hlocated
  have hextent := extent_release (h := sizeofMemoryBlock) a MEMORY_START bs
  have hsome := (nil_iff_of_extent_eq hextent).not.mpr hne
  have hlength : (release sizeofMemoryBlock a MEMORY_START bs).length < heapFuel := by
    have := length_mul_le_extent (h := sizeofMemoryBlock)
      (release sizeofMemoryBlock a MEMORY_START bs)
    rw [hextent, inv.covers] at this
    simp only [sizeofMemoryBlock, MEMORY_SIZE, heapFuel] at this ⊢
    omega
  obtain ⟨m, hrun, layout, -⟩ := kfreeLoop_layout released (by decide)
    (by rw [hextent, inv.covers]; decide) hlength
  rw [link_of_ne_nil hsome] at hrun
  refine ⟨{ h.state with ram := m }, ?_, inv.initialized, inv.start, rfl, layout⟩
  have hgo : ¬ (a + sizeofMemoryBlock = NULL ∨ h.state.memoryInitialized = false) := by
    simp [sizeofMemoryBlock, inv.initialized]
  rw [kfree, if_neg hgo]
  simp only [hblock, inv.start, hrun, Option.map_some]

/-- A taken block is live from then on. -/
theorem HeapInv.taken {h : Heap} {bs bs' : List Block} {size a : Nat} {s : State}
    (inv : HeapInv h bs)
    (halloc : alloc sizeofMemoryBlock BLOCK_SIZE (alignSize size) MEMORY_START bs = some (a, bs'))
    (hinit : s.memoryInitialized = true) (hstart : s.memoryStart = MEMORY_START)
    (layout : Layout s.ram MEMORY_START bs') :
    HeapInv ⟨s, insert (a + sizeofMemoryBlock) h.live⟩ bs' := by
  obtain ⟨n, -, hused⟩ := used_alloc halloc
  refine ⟨hinit, hstart, layout, (extent_alloc halloc).trans inv.covers,
    dvd_alloc (by decide) (dvd_alignSize size) inv.aligned halloc,
    noAdjacentFree_alloc inv.noAdjacentFree halloc, fun p => ?_⟩
  rw [Finset.mem_insert, inv.live_iff p]
  constructor
  · rintro (rfl | ⟨b, k, hb, rfl⟩)
    · exact ⟨a, n, (hused _).mpr (Or.inl rfl), rfl⟩
    · exact ⟨b, k, (hused _).mpr (Or.inr hb), rfl⟩
  · rintro ⟨b, k, hb, rfl⟩
    rcases (hused _).mp hb with heq | hb
    · cases heq
      exact Or.inl rfl
    · exact Or.inr ⟨b, k, hb, rfl⟩

/-- The block that `kmalloc` takes was not in use. -/
theorem HeapInv.alloc_fresh {h : Heap} {bs bs' : List Block} {need a : Nat} (inv : HeapInv h bs)
    (halloc : alloc sizeofMemoryBlock BLOCK_SIZE need MEMORY_START bs = some (a, bs')) :
    a + sizeofMemoryBlock ∉ h.live := by
  intro hlive
  obtain ⟨b, n, hused, hsame⟩ := (inv.live_iff _).mp hlive
  obtain ⟨size, hfree⟩ := alloc_was_free halloc
  have hb : a = b := by omega
  subst hb
  have hne : ((a, ⟨n, false⟩) : Nat × Block) ≠ (a, ⟨size, true⟩) := by simp
  have hapart := located_apart (mem_used_iff.mp hused) hfree hne
  simp only [sizeofMemoryBlock] at hapart
  omega

/-- `kfree` of a live pointer takes its block out of those in use. -/
theorem HeapInv.released {h : Heap} {bs : List Block} {p : Nat} (inv : HeapInv h bs)
    (hp : p ∈ h.live) :
    ∃ s bs', kfree p h.state = some s ∧ HeapInv ⟨s, h.live.erase p⟩ bs' ∧
      bs' = coalesce sizeofMemoryBlock
        (release sizeofMemoryBlock (p - sizeofMemoryBlock) MEMORY_START bs) ∧
      ∀ x, x ∈ used sizeofMemoryBlock MEMORY_START bs' ↔
        x ∈ used sizeofMemoryBlock MEMORY_START bs ∧ x.1 + sizeofMemoryBlock ≠ p := by
  obtain ⟨s, hrun, hinit, hstart, hpast, layout⟩ := kfree_returns inv hp
  have hused : ∀ x, x ∈ used sizeofMemoryBlock MEMORY_START (coalesce sizeofMemoryBlock
      (release sizeofMemoryBlock (p - sizeofMemoryBlock) MEMORY_START bs)) ↔
      x ∈ used sizeofMemoryBlock MEMORY_START bs ∧ x.1 + sizeofMemoryBlock ≠ p := by
    intro x
    rw [used_coalesce, used_release (by decide), and_comm]
    have hne : x.1 ≠ p - sizeofMemoryBlock ↔ x.1 + sizeofMemoryBlock ≠ p := by omega
    rw [hne]
  refine ⟨s, _, hrun, ⟨hinit, hstart, layout, ?_, ?_, noAdjacentFree_coalesce _, fun q => ?_⟩,
    rfl, hused⟩
  · rw [extent_coalesce, extent_release]
    exact inv.covers
  · exact dvd_coalesce (by decide) (dvd_release inv.aligned)
  · rw [Finset.mem_erase, inv.live_iff q]
    constructor
    · rintro ⟨hne, a, n, hmem, rfl⟩
      exact ⟨a, n, (hused _).mpr ⟨hmem, hne⟩, rfl⟩
    · rintro ⟨a, n, hmem, rfl⟩
      obtain ⟨hold, hne⟩ := (hused _).mp hmem
      exact ⟨hne, a, n, hold, rfl⟩

/-! ### Runs -/

/-- One step keeps the invariant, and the blocks in use that it does not free. -/
theorem Step.keeps_used {h h' : Heap} {op : Op} {bs : List Block} (inv : HeapInv h bs)
    (step : Step h op h') :
    ∃ bs', HeapInv h' bs' ∧ ∀ x ∈ used sizeofMemoryBlock MEMORY_START bs,
      op ≠ .kfree (x.1 + sizeofMemoryBlock) → x ∈ used sizeofMemoryBlock MEMORY_START bs' := by
  cases step with
  | memoryInit =>
      rw [memoryInit_of_initialized inv.initialized]
      exact ⟨bs, inv, fun x hx _ => hx⟩
  | @kmallocNull size s hsize hrun =>
      rcases kmalloc_returns inv size with ⟨-, hnull⟩ | ⟨a, bs', s', -, hptr, -⟩
      · rw [hnull] at hrun
        cases hrun
        exact ⟨bs, inv, fun x hx _ => hx⟩
      · rw [hptr] at hrun
        simp [sizeofMemoryBlock] at hrun
  | @kmalloc size ptr s hsize hrun hne =>
      rcases kmalloc_returns inv size with ⟨-, hnull⟩ | ⟨a, bs', s', halloc, hptr, hinit, hstart, layout⟩
      · rw [hnull] at hrun
        simp only [Option.some.injEq, Prod.mk.injEq] at hrun
        exact absurd hrun.1.symm hne
      · rw [hptr] at hrun
        cases hrun
        obtain ⟨n, -, hused⟩ := used_alloc halloc
        exact ⟨bs', inv.taken halloc hinit hstart layout, fun x hx _ => (hused x).mpr (Or.inr hx)⟩
  | @kfree ptr s hptr hrun =>
      by_cases hlive : ptr ∈ h.live
      · obtain ⟨s', bs', hfree, inv', -, hused⟩ := inv.released hlive
        rw [hfree] at hrun
        cases hrun
        refine ⟨bs', inv', fun x hx hne => (hused x).mpr ⟨hx, fun hsame => hne ?_⟩⟩
        rw [hsame]
      · obtain rfl := hptr.resolve_right hlive
        have hsame : s = h.state := by simpa [Memory.kfree] using hrun.symm
        subst hsame
        rw [Finset.erase_eq_of_notMem hlive]
        exact ⟨bs, inv, fun x hx _ => hx⟩

theorem heapInv_step {h h' : Heap} {op : Op} {bs : List Block} (inv : HeapInv h bs)
    (step : Step h op h') : ∃ bs', HeapInv h' bs' := by
  obtain ⟨bs', inv', -⟩ := step.keeps_used inv
  exact ⟨bs', inv'⟩

theorem heapInv_run {ram : Store} {ops : List Op} {h : Heap}
    (run : Run Step (boot ram) (.memoryInit :: ops) h) : ∃ bs, HeapInv h bs := by
  obtain ⟨h₀, first, rest⟩ := run_cons_iff.mp run
  cases first
  exact rest.invariant (I := fun h => ∃ bs, HeapInv h bs)
    (fun ⟨_, inv⟩ step => heapInv_step inv step) ⟨_, heapInv_boot ram⟩

/-! ### The invariant, read from memory -/

/-- The linked list of headers tiles the arena. -/
structure TilesArena (s : State) (headers : List Nat) : Prop where
  /-- `headers` is the list that `memory_start` and the `next` pointers make. -/
  linked : Linked (blockNext s.ram) (· = NULL) s.memoryStart headers
  first : headers.head? = some MEMORY_START
  adjacent : headers.IsChain fun p q => q = p + sizeofMemoryBlock + blockSize s.ram p
  last : ∀ p ∈ headers.getLast?,
    p + sizeofMemoryBlock + blockSize s.ram p = MEMORY_START + MEMORY_SIZE
  aligned : ∀ p ∈ headers, 8 ∣ blockSize s.ram p
  noAdjacentFree : headers.IsChain fun p q =>
    ¬ (blockIsFree s.ram p ≠ 0 ∧ blockIsFree s.ram q ≠ 0)

/-- The bytes a live pointer stands for. -/
def payload (s : State) (p : Nat) : Set Nat :=
  Set.Ico p (p + blockSize s.ram (p - sizeofMemoryBlock))

/-- The live pointers are payloads of blocks in use: inside the arena, pairwise
disjoint and clear of every header. -/
structure LivePayloads (h : Heap) (headers : List Nat) : Prop where
  inUse : ∀ p ∈ h.live, sizeofMemoryBlock ≤ p ∧ p - sizeofMemoryBlock ∈ headers ∧
    blockIsFree h.state.ram (p - sizeofMemoryBlock) = 0
  inside : ∀ p ∈ h.live,
    payload h.state p ⊆ Set.Ico MEMORY_START (MEMORY_START + MEMORY_SIZE)
  disjoint : ∀ p ∈ h.live, ∀ q ∈ h.live, p ≠ q →
    Disjoint (payload h.state p) (payload h.state q)
  clearOfHeaders : ∀ p ∈ h.live, ∀ q ∈ headers,
    Disjoint (payload h.state p) (Set.Ico q (q + sizeofMemoryBlock))

/-- The headers of a layout are where its blocks are. -/
theorem Layout.header_of_mem {m : Store} {p : Nat} {bs : List Block} {x : Nat × Block}
    (layout : Layout m p bs) (hx : x ∈ located sizeofMemoryBlock p bs) :
    ∃ next, HeaderAt m x.1 x.2 next := by
  induction bs generalizing p with
  | nil => simp [located] at hx
  | cons b bs ih =>
      rcases List.mem_cons.mp hx with rfl | hx
      · exact ⟨_, layout.1⟩
      · exact ih layout.2 hx

/-- Following `next` through a layout meets its headers in order. -/
theorem Layout.linked {m : Store} {p : Nat} {bs : List Block} (layout : Layout m p bs)
    (hp : 0 < p) :
    Linked (blockNext m) (· = NULL) (link p bs)
      ((located sizeofMemoryBlock p bs).map Prod.fst) := by
  induction bs generalizing p with
  | nil => rfl
  | cons b bs ih =>
      refine ⟨rfl, Nat.pos_iff_ne_zero.mp hp, ?_⟩
      rw [layout.1.next_eq]
      exact ih layout.2 (by omega)

theorem Layout.adjacent {m : Store} {p : Nat} {bs : List Block} (layout : Layout m p bs) :
    ((located sizeofMemoryBlock p bs).map Prod.fst).IsChain fun x y =>
      y = x + sizeofMemoryBlock + blockSize m x := by
  induction bs generalizing p with
  | nil => exact List.isChain_nil
  | cons b bs ih =>
      refine List.isChain_cons.mpr ⟨fun y hy => ?_, ih layout.2⟩
      cases bs with
      | nil => simp [located] at hy
      | cons c cs =>
          simp only [located, List.map_cons, List.head?_cons, Option.mem_def,
            Option.some.injEq] at hy
          rw [layout.1.size_eq, ← hy]

theorem Layout.noAdjacentFree {m : Store} {p : Nat} {bs : List Block} (layout : Layout m p bs)
    (apart : NoAdjacentFree bs) :
    ((located sizeofMemoryBlock p bs).map Prod.fst).IsChain fun x y =>
      ¬ (blockIsFree m x ≠ 0 ∧ blockIsFree m y ≠ 0) := by
  induction bs generalizing p with
  | nil => exact List.isChain_nil
  | cons b bs ih =>
      obtain ⟨hhead, htail⟩ := List.isChain_cons.mp apart
      refine List.isChain_cons.mpr ⟨fun y hy => ?_, ih layout.2 htail⟩
      cases bs with
      | nil => simp [located] at hy
      | cons c cs =>
          simp only [located, List.map_cons, List.head?_cons, Option.mem_def,
            Option.some.injEq] at hy
          have hnot := hhead c rfl
          rwa [← layout.1.free_ne_zero_iff, ← layout.2.1.free_ne_zero_iff, hy] at hnot

theorem Layout.last {m : Store} {p : Nat} {bs : List Block} (layout : Layout m p bs) :
    ∀ x ∈ ((located sizeofMemoryBlock p bs).map Prod.fst).getLast?,
      x + sizeofMemoryBlock + blockSize m x = p + extent sizeofMemoryBlock bs := by
  induction bs generalizing p with
  | nil => simp [located]
  | cons b bs ih =>
      intro x hx
      cases bs with
      | nil =>
          simp only [located, List.map_cons, List.map_nil, List.getLast?_singleton,
            Option.mem_def, Option.some.injEq] at hx
          subst hx
          rw [layout.1.size_eq]
          simp only [extent]
          omega
      | cons c cs =>
          have hx' : x ∈ ((located sizeofMemoryBlock (p + sizeofMemoryBlock + b.size)
              (c :: cs)).map Prod.fst).getLast? := by
            simpa [located] using hx
          have := ih layout.2 x hx'
          simp only [extent] at this ⊢
          omega

theorem HeapInv.tilesArena {h : Heap} {bs : List Block} (inv : HeapInv h bs) :
    TilesArena h.state ((located sizeofMemoryBlock MEMORY_START bs).map Prod.fst) := by
  obtain ⟨hne, -⟩ := inv.walkable
  refine ⟨?_, ?_, inv.layout.adjacent, ?_, ?_, inv.layout.noAdjacentFree inv.noAdjacentFree⟩
  · have hlinked := inv.layout.linked (by decide)
    rw [link_of_ne_nil hne] at hlinked
    rw [inv.start]
    exact hlinked
  · cases bs with
    | nil => exact absurd rfl hne
    | cons b bs => rfl
  · rw [← inv.covers]
    exact inv.layout.last
  · intro p hp
    obtain ⟨x, hx, rfl⟩ := List.mem_map.mp hp
    obtain ⟨next, header⟩ := inv.layout.header_of_mem hx
    rw [header.size_eq]
    exact inv.aligned _ (mem_of_located hx)

/-- A live pointer is the payload of a block in use, of the size its header says. -/
theorem HeapInv.block_of_live {h : Heap} {bs : List Block} {p : Nat} (inv : HeapInv h bs)
    (hp : p ∈ h.live) :
    ∃ a n, (a, (⟨n, false⟩ : Block)) ∈ located sizeofMemoryBlock MEMORY_START bs ∧
      p = a + sizeofMemoryBlock ∧ blockIsFree h.state.ram a = 0 ∧
      payload h.state p = Set.Ico (a + sizeofMemoryBlock) (a + sizeofMemoryBlock + n) := by
  obtain ⟨a, n, hused, rfl⟩ := (inv.live_iff p).mp hp
  have hlocated := mem_used_iff.mp hused
  obtain ⟨next, header⟩ := inv.layout.header_of_mem hlocated
  refine ⟨a, n, hlocated, rfl, header.free_eq, ?_⟩
  rw [payload, Nat.add_sub_cancel, header.size_eq]

theorem HeapInv.livePayloads {h : Heap} {bs : List Block} (inv : HeapInv h bs) :
    LivePayloads h ((located sizeofMemoryBlock MEMORY_START bs).map Prod.fst) := by
  have ranges_disjoint : ∀ {a b c d : Nat}, b ≤ c ∨ d ≤ a →
      Disjoint (Set.Ico a b) (Set.Ico c d) := by
    intro a b c d hor
    rw [Set.disjoint_left]
    intro x hx hx'
    have := hx.1
    have := hx.2
    have := hx'.1
    have := hx'.2
    omega
  refine ⟨fun p hp => ?_, fun p hp => ?_, fun p hp q hq hne => ?_, fun p hp q hq => ?_⟩
  · obtain ⟨a, n, hlocated, rfl, hfree, -⟩ := inv.block_of_live hp
    rw [Nat.add_sub_cancel]
    exact ⟨by omega, List.mem_map.mpr ⟨_, hlocated, rfl⟩, hfree⟩
  · obtain ⟨a, n, hlocated, rfl, -, hpayload⟩ := inv.block_of_live hp
    have hlower := located_lower hlocated
    have hupper := located_upper hlocated
    rw [inv.covers] at hupper
    simp only at hlower hupper
    rw [hpayload]
    intro x hx
    have := hx.1
    have := hx.2
    exact ⟨by omega, by omega⟩
  · obtain ⟨a, n, hlocated, rfl, -, hpayload⟩ := inv.block_of_live hp
    obtain ⟨b, k, hlocated', rfl, -, hpayload'⟩ := inv.block_of_live hq
    have hblocks : (a, (⟨n, false⟩ : Block)) ≠ (b, ⟨k, false⟩) := by
      intro heq
      cases heq
      exact hne rfl
    have hapart := located_apart hlocated hlocated' hblocks
    simp only at hapart
    rw [hpayload, hpayload']
    exact ranges_disjoint (by omega)
  · obtain ⟨a, n, hlocated, rfl, -, hpayload⟩ := inv.block_of_live hp
    obtain ⟨⟨b, c⟩, hlocated', rfl⟩ := List.mem_map.mp hq
    rw [hpayload]
    by_cases hsame : (a, (⟨n, false⟩ : Block)) = (b, c)
    · cases hsame
      exact ranges_disjoint (by simp only; omega)
    · have hapart := located_apart hlocated hlocated' hsame
      simp only at hapart
      exact ranges_disjoint (by simp only; omega)

/-! ### Stores in a payload -/

/-- A change inside the payload of a block leaves every header as it is. -/
theorem Layout.store {m m' : Store} {p : Nat} {bs : List Block} {x : Nat × Block}
    (layout : Layout m p bs) (hx : x ∈ located sizeofMemoryBlock p bs)
    (frame : Frame m m' (x.1 + sizeofMemoryBlock) (x.1 + sizeofMemoryBlock + x.2.size)) :
    Layout m' p bs := by
  induction bs generalizing p with
  | nil => simp [located] at hx
  | cons b bs ih =>
      rcases List.mem_cons.mp hx with rfl | hx
      · exact ⟨layout.1.of_frame frame (Or.inr (le_refl _)),
          layout.2.of_frame frame (Or.inl (le_refl _))⟩
      · have hlower := located_lower hx
        exact ⟨layout.1.of_frame frame (Or.inr (by omega)), ih layout.2 hx⟩

/-- So does a store of a caller in a block that it holds. -/
theorem HeapInv.store {h : Heap} {bs : List Block} {p : Nat} {m : Store} (inv : HeapInv h bs)
    (hp : p ∈ h.live)
    (frame : Frame h.state.ram m p (p + blockSize h.state.ram (p - sizeofMemoryBlock))) :
    HeapInv { h with state.ram := m } bs := by
  obtain ⟨a, n, hused, rfl⟩ := (inv.live_iff p).mp hp
  have hlocated := mem_used_iff.mp hused
  obtain ⟨next, header⟩ := inv.layout.header_of_mem hlocated
  rw [Nat.add_sub_cancel, header.size_eq] at frame
  exact ⟨inv.initialized, inv.start, inv.layout.store hlocated frame, inv.covers, inv.aligned,
    inv.noAdjacentFree, inv.live_iff⟩

/-! ### Every run -/

/-- **The block list always tiles the arena.** In every run of `memory_init`,
`kmalloc` of any 64-bit size and `kfree` of null or live pointers, the linked
list of headers starts at `MEMORY_START`, each header's `next` is the end of its
payload, the last block ends at `MEMORY_START + MEMORY_SIZE`, every size is a
multiple of 8 and no two consecutive blocks are both free. So the payloads of
the live pointers lie inside the arena, apart from each other and from every
header. -/
theorem heap_tiles_arena {ram : Store} {ops : List Op} {h : Heap}
    (run : Run Step (boot ram) (.memoryInit :: ops) h) :
    ∃ headers, TilesArena h.state headers ∧ LivePayloads h headers := by
  obtain ⟨bs, inv⟩ := heapInv_run run
  exact ⟨_, inv.tilesArena, inv.livePayloads⟩

/-- The arena after `memory_init`, an allocation of 5000 bytes and its release. -/
theorem heap_tiles_arena_after_release :
    ∃ h headers, Run Step (boot fun _ => 0)
        [.memoryInit, .kmalloc 5000, .kfree (MEMORY_START + sizeofMemoryBlock)] h ∧
      TilesArena h.state headers ∧ LivePayloads h headers := by
  have inv₀ := heapInv_boot fun _ => 0
  have hfit : alloc sizeofMemoryBlock BLOCK_SIZE (alignSize 5000) MEMORY_START
      [⟨MEMORY_SIZE - sizeofMemoryBlock, true⟩]
      = some (MEMORY_START, [⟨5000, false⟩, ⟨1043528, true⟩]) := by decide
  rcases kmalloc_returns inv₀ 5000 with ⟨hnone, -⟩ | ⟨a, bs, s, halloc, hrun, -⟩
  · simp [hfit] at hnone
  rw [hfit] at halloc
  cases halloc
  have taken : Step _ (.kmalloc 5000) _ :=
    .kmalloc (by decide) hrun (by simp [sizeofMemoryBlock])
  obtain ⟨bs₁, inv₁⟩ := heapInv_step inv₀ taken
  obtain ⟨s₂, hfree, -⟩ := kfree_returns inv₁ (Finset.mem_insert_self _ _)
  have run : Run Step (boot fun _ => 0)
      [.memoryInit, .kmalloc 5000, .kfree (MEMORY_START + sizeofMemoryBlock)] _ :=
    .cons (.memoryInit _) (.cons taken
      (.single (.kfree (Or.inr (Finset.mem_insert_self _ _)) hfree)))
  obtain ⟨headers, tiles, payloads⟩ := heap_tiles_arena run
  exact ⟨_, headers, run, tiles, payloads⟩

end Curnel.Memory
