/-
The heap is a store of separate objects, in every run of its users.

The users of the heap allocate and free blocks, store bytes in the payloads they
hold and load them back. `objectsOf` reads a heap as the objects of
`Lib.Objects`: a live pointer names the bytes of its payload. Neither the search
loop of `kmalloc` nor the merging loop of `kfree` changes a byte of a payload in
use (`kmalloc_frame`, `kfree_frame`), so every step of the users is a step of the
objects (`Uses.objects_step`) and every run a run of them.
-/

import Curnel.Memory.Runs
import Curnel.Lib.Objects

namespace Curnel.Memory

open Lib Lib.Bytes Lib.Word Lib.FreeList Lib.Objects

/-! ### What the two loops write -/

/-- The search loop leaves the memory as it is, or takes a free block that is
large enough. -/
theorem kmallocLoop_takes {headers : Set Nat} {size fuel : Nat} {m m' : Store} {p ptr : Nat}
    (hp : p = NULL ∨ p ∈ headers)
    (closed : ∀ a ∈ headers, blockNext m a = NULL ∨ blockNext m a ∈ headers)
    (run : kmallocLoop size fuel m p = some (ptr, m')) :
    m' = m ∨ ∃ a ∈ headers, blockIsFree m a ≠ 0 ∧ size ≤ blockSize m a ∧
      ∃ m₁, (m₁ = m ∨ wadd 64 (wadd 64 size sizeofMemoryBlock) BLOCK_SIZE < blockSize m a ∧
        m₁ = splitBlock m a size) ∧ m' = setBlockIsFree m₁ a 0 := by
  induction fuel generalizing p with
  | zero => cases run
  | succ fuel ih =>
      rw [kmallocLoop] at run
      split at run
      · cases run
        exact Or.inl rfl
      next hne =>
        have hin : p ∈ headers := hp.resolve_left hne
        split at run
        next hfit =>
          cases run
          refine Or.inr ⟨p, hin, hfit.1, hfit.2, _, ?_, rfl⟩
          split
          next hroom => exact Or.inr ⟨hroom, rfl⟩
          next => exact Or.inl rfl
        next => exact ih (closed p hin) run

/-- A split writes the header of the block and the one behind its new payload. -/
theorem splitBlock_frame {m : Store} {p size : Nat}
    (hbound : p + sizeofMemoryBlock + blockSize m p < 2 ^ 32)
    (hroom : size + sizeofMemoryBlock + BLOCK_SIZE < blockSize m p) :
    Frame m (splitBlock m p size) p (p + sizeofMemoryBlock + blockSize m p) := by
  simp only [sizeofMemoryBlock, BLOCK_SIZE] at hbound hroom ⊢
  have hnew : wadd 64 (wadd 64 p 24) size = p + 24 + size := by
    rw [wadd_of_lt (show p + 24 < 2 ^ 64 by omega),
      wadd_of_lt (show p + 24 + size < 2 ^ 64 by omega)]
  let q := p + 24 + size
  have behind : ∀ m' : Store, ∀ a b c, Frame m' (setBlockSize m' q a) p (p + 24 + blockSize m p) ∧
      Frame m' (setBlockIsFree m' q b) p (p + 24 + blockSize m p) ∧
      Frame m' (setBlockNext m' q c) p (p + 24 + blockSize m p) := by
    intro m' a b c
    obtain ⟨hsize, hfree, hnext⟩ := setFields_frame m' q a b c
    simp only [sizeofMemoryBlock] at hsize hfree hnext
    exact ⟨hsize.widen (by omega) (by omega), hfree.widen (by omega) (by omega),
      hnext.widen (by omega) (by omega)⟩
  have own : ∀ m' : Store, ∀ a c, Frame m' (setBlockSize m' p a) p (p + 24 + blockSize m p) ∧
      Frame m' (setBlockNext m' p c) p (p + 24 + blockSize m p) := by
    intro m' a c
    obtain ⟨hsize, -, hnext⟩ := setFields_frame m' p a 0 c
    simp only [sizeofMemoryBlock] at hsize hnext
    exact ⟨hsize.widen (le_refl _) (by omega), hnext.widen (le_refl _) (by omega)⟩
  simp only [splitBlock, sizeofMemoryBlock, hnew]
  exact ((((behind _ _ 0 0).1.trans (behind _ 0 _ 0).2.1).trans (behind _ 0 0 _).2.2).trans
    (own _ _ 0).1).trans (own _ 0 _).2

theorem blockNext_of_frame {m m' : Store} {a p : Nat}
    (frame : Frame m m' p (p + sizeofMemoryBlock))
    (apart : a + sizeofMemoryBlock ≤ p ∨ p + sizeofMemoryBlock ≤ a) :
    blockNext m' a = blockNext m a := by
  refine frame.readLE_eq ?_
  simp only [sizeofMemoryBlock] at apart ⊢
  omega

/-- The merging loop writes to the headers it walks over and to nothing else. -/
theorem kfreeLoop_frame {headers : Set Nat}
    (apart : ∀ a ∈ headers, ∀ b ∈ headers, a ≠ b →
      a + sizeofMemoryBlock ≤ b ∨ b + sizeofMemoryBlock ≤ a)
    {fuel : Nat} {m m' : Store} {p : Nat} (hp : p = NULL ∨ p ∈ headers)
    (closed : ∀ a ∈ headers, blockNext m a = NULL ∨ blockNext m a ∈ headers)
    (run : kfreeLoop fuel m p = some m') {x : Nat}
    (hx : ∀ a ∈ headers, x ∉ Set.Ico a (a + sizeofMemoryBlock)) : m' x = m x := by
  induction fuel generalizing m p with
  | zero => cases run
  | succ fuel ih =>
      rw [kfreeLoop] at run
      dsimp only at run
      split at run
      next hgo =>
        have hin : p ∈ headers := hp.resolve_left hgo.1
        have hnext : blockNext m p ∈ headers := (closed p hin).resolve_left hgo.2
        split at run
        next =>
          -- the header of `p` takes over the link of the block it swallows
          let grown := setBlockSize m p
            (wadd 64 (wadd 64 (blockSize m p) sizeofMemoryBlock) (blockSize m (blockNext m p)))
          let merged := setBlockNext grown p (blockNext grown (blockNext m p))
          have frame : Frame m grown p (p + sizeofMemoryBlock) := (setFields_frame m p _ 0 0).1
          have frame' : Frame grown merged p (p + sizeofMemoryBlock) :=
            (setFields_frame grown p 0 0 _).2.2
          have hgrown : ∀ a ∈ headers, blockNext grown a = blockNext m a := by
            intro a ha
            by_cases hself : a = p
            · rw [hself]
              exact blockNext_setBlockSize
            · exact blockNext_of_frame frame (apart a ha p hin hself)
          have closed' : ∀ a ∈ headers,
              blockNext merged a = NULL ∨ blockNext merged a ∈ headers := by
            intro a ha
            by_cases hself : a = p
            · have hvalue : blockNext merged p = blockNext grown (blockNext m p) % 2 ^ 64 :=
                blockNext_setBlockNext
              have hlt : blockNext grown (blockNext m p) < 2 ^ 64 := readLE_lt _ _ 8
              rw [hself, hvalue, Nat.mod_eq_of_lt hlt, hgrown _ hnext]
              exact closed _ hnext
            · rw [blockNext_of_frame frame' (apart a ha p hin hself), hgrown a ha]
              exact closed a ha
          exact (ih (Or.inr hin) closed' run).trans ((frame.trans frame') (hx p hin))
        next => exact ih (Or.inr hnext) closed run
      next =>
        cases run
        rfl

/-! ### Payloads in use keep their bytes -/

/-- The addresses of the headers of a layout. -/
def headersOf (p : Nat) (bs : List Block) : Set Nat :=
  {a | ∃ b, (a, b) ∈ located sizeofMemoryBlock p bs}

theorem headersOf_cons (p : Nat) (b : Block) (bs : List Block) :
    headersOf p (b :: bs) = insert p (headersOf (p + sizeofMemoryBlock + b.size) bs) := by
  ext a
  simp [headersOf, located, exists_or]

theorem link_mem_headersOf (p : Nat) (bs : List Block) :
    link p bs = NULL ∨ link p bs ∈ headersOf p bs := by
  cases bs with
  | nil => exact Or.inl rfl
  | cons b bs =>
      rw [headersOf_cons]
      exact Or.inr (Set.mem_insert _ _)

theorem Layout.closed {m : Store} {p : Nat} {bs : List Block} (layout : Layout m p bs) :
    ∀ a ∈ headersOf p bs, blockNext m a = NULL ∨ blockNext m a ∈ headersOf p bs := by
  induction bs generalizing p with
  | nil => simp [headersOf, located]
  | cons b bs ih =>
      intro a ha
      rw [headersOf_cons] at ha ⊢
      rcases ha with rfl | ha
      · rw [layout.1.next_eq]
        exact (link_mem_headersOf _ bs).imp_right (Set.mem_insert_of_mem _)
      · exact (ih layout.2 a ha).imp_right (Set.mem_insert_of_mem _)

theorem headersOf_apart {p a b : Nat} {bs : List Block} (ha : a ∈ headersOf p bs)
    (hb : b ∈ headersOf p bs) (hne : a ≠ b) :
    a + sizeofMemoryBlock ≤ b ∨ b + sizeofMemoryBlock ≤ a := by
  obtain ⟨c, hc⟩ := ha
  obtain ⟨d, hd⟩ := hb
  have hdiffer : ((a, c) : Nat × Block) ≠ (b, d) := fun heq => hne (congrArg Prod.fst heq)
  have hapart := located_apart hc hd hdiffer
  dsimp only at hapart
  omega

/-- `kmalloc` changes no byte of a payload in use. -/
theorem HeapInv.kmalloc_eqOn {h : Heap} {s : State} {bs : List Block} {size ptr a n : Nat}
    (inv : HeapInv h bs) (run : kmalloc size h.state = some (ptr, s))
    (hused : (a, n) ∈ used sizeofMemoryBlock MEMORY_START bs) :
    Set.EqOn h.state.ram s.ram
      (Set.Ico (a + sizeofMemoryBlock) (a + sizeofMemoryBlock + n)) := by
  obtain ⟨hne, -⟩ := inv.walkable
  have hlink := link_mem_headersOf MEMORY_START bs
  rw [link_of_ne_nil hne, ← inv.start] at hlink
  rw [kmalloc, if_pos inv.initialized] at run
  split at run
  · cases run
    exact Set.eqOn_refl _ _
  · obtain ⟨⟨ptr, m⟩, hloop, heq⟩ := Option.map_eq_some_iff.mp run
    cases heq
    have closed := inv.layout.closed
    rw [← inv.start] at closed
    rcases kmallocLoop_takes hlink closed hloop with
      rfl | ⟨b, ⟨c, hc⟩, hfree, hfit, m₁, hm₁, rfl⟩
    · exact Set.eqOn_refl _ _
    rw [inv.start] at hc
    obtain ⟨next, header⟩ := inv.layout.header_of_mem hc
    have hlocated := mem_used_iff.mp hused
    have hcfree : c.free = true := header.free_ne_zero_iff.mp hfree
    have hdiffer : ((a, ⟨n, false⟩) : Nat × Block) ≠ (b, c) := by
      intro heq
      cases heq
      simp at hcfree
    have hapart := located_apart hlocated hc hdiffer
    have hupper := located_upper hc
    have hsize : blockSize h.state.ram b = c.size := header.size_eq
    rw [inv.covers] at hupper
    simp only [sizeofMemoryBlock, MEMORY_START, MEMORY_SIZE] at hapart hupper
    have hmarked := fun m : Store => (setFields_frame m b 0 0 0).2.1
    simp only [sizeofMemoryBlock] at hmarked ⊢
    rw [hsize] at hfit hm₁
    have frame : Frame h.state.ram m₁ b (b + 24 + c.size) := by
      rcases hm₁ with rfl | ⟨hroom, rfl⟩
      · exact Frame.refl _ _ _
      · rw [BLOCK_SIZE, sizeofMemoryBlock,
          wadd_of_lt (show alignSize size + 24 < 2 ^ 64 by omega),
          wadd_of_lt (show alignSize size + 24 + 4096 < 2 ^ 64 by omega)] at hroom
        rw [← hsize]
        refine splitBlock_frame ?_ ?_
        · rw [hsize, sizeofMemoryBlock]
          omega
        · rw [hsize, sizeofMemoryBlock, BLOCK_SIZE]
          exact hroom
    exact (frame.trans ((hmarked m₁).widen (le_refl _) (by omega))).eqOn (by omega)

/-- `kfree` changes no byte of a payload in use, the one that it frees included. -/
theorem HeapInv.kfree_eqOn {h : Heap} {s : State} {bs : List Block} {p a n : Nat}
    (inv : HeapInv h bs) (hp : p ∈ h.live) (run : kfree p h.state = some s)
    (hused : (a, n) ∈ used sizeofMemoryBlock MEMORY_START bs) :
    Set.EqOn h.state.ram s.ram
      (Set.Ico (a + sizeofMemoryBlock) (a + sizeofMemoryBlock + n)) := by
  obtain ⟨hne, -⟩ := inv.walkable
  obtain ⟨b, k, hused', rfl⟩ := (inv.live_iff p).mp hp
  have hlocated := mem_used_iff.mp hused
  have hlocated' := mem_used_iff.mp hused'
  have hupper := located_upper hlocated'
  rw [inv.covers] at hupper
  have hblock : wsub 64 (b + sizeofMemoryBlock) sizeofMemoryBlock = b := by
    simp only [sizeofMemoryBlock, MEMORY_START, MEMORY_SIZE] at hupper ⊢
    rw [wsub_of_le (show b + 24 < 2 ^ 64 by omega) (show 24 ≤ b + 24 by omega)]
    omega
  have hgo : ¬ (b + sizeofMemoryBlock = NULL ∨ h.state.memoryInitialized = false) := by
    simp [sizeofMemoryBlock, inv.initialized]
  rw [kfree, if_neg hgo] at run
  dsimp only at run
  rw [hblock] at run
  obtain ⟨m, hloop, rfl⟩ := Option.map_eq_some_iff.mp run
  have hmark := (setFields_frame h.state.ram b 0 1 0).2.1
  have hlink := link_mem_headersOf MEMORY_START bs
  rw [link_of_ne_nil hne, ← inv.start] at hlink
  intro x hx
  have houtside : ∀ c ∈ headersOf MEMORY_START bs, x ∉ Set.Ico c (c + sizeofMemoryBlock) := by
    rintro c ⟨d, hd⟩ hin
    have hlow := hx.1
    have hhigh := hx.2
    have hlow' := hin.1
    have hhigh' := hin.2
    by_cases hsame : ((a, ⟨n, false⟩) : Nat × Block) = (c, d)
    · cases hsame
      omega
    · have hapart := located_apart hlocated hd hsame
      dsimp only at hapart
      omega
  have closed : ∀ c ∈ headersOf MEMORY_START bs,
      blockNext (setBlockIsFree h.state.ram b 1) c = NULL ∨
        blockNext (setBlockIsFree h.state.ram b 1) c ∈ headersOf MEMORY_START bs := by
    intro c hc
    have hkept : blockNext (setBlockIsFree h.state.ram b 1) c = blockNext h.state.ram c := by
      by_cases hself : c = b
      · rw [hself]
        exact blockNext_setBlockIsFree
      · exact blockNext_of_frame hmark (headersOf_apart hc ⟨_, hlocated'⟩ hself)
    rw [hkept]
    exact inv.layout.closed c hc
  rw [inv.start] at hlink hloop
  have hloop' := kfreeLoop_frame (fun c hc d hd => headersOf_apart hc hd) hlink closed hloop
    houtside
  exact (hloop'.trans (hmark (houtside b ⟨_, hlocated'⟩))).symm

/-! ### The users of the heap -/

/-- The bytes of the payload at `p`. -/
def payloadBytes (s : State) (p : Nat) : List UInt8 :=
  readBytes s.ram p (blockSize s.ram (p - sizeofMemoryBlock))

/-- A user holds the pointers it got from `kmalloc` until it gives them to `kfree`,
and keeps its loads and stores inside their payloads. -/
inductive Uses : Heap → Event Nat UInt8 → Heap → Prop where
  | alloc {h : Heap} {size ptr : Nat} {s : State} :
      size < 2 ^ 64 → kmalloc size h.state = some (ptr, s) → ptr ≠ NULL →
      Uses h (.alloc size ptr) ⟨s, insert ptr h.live⟩
  | refuse {h : Heap} {size : Nat} {s : State} :
      size < 2 ^ 64 → kmalloc size h.state = some (NULL, s) →
      Uses h (.refuse size) { h with state := s }
  | free {h : Heap} {ptr : Nat} {s : State} :
      ptr ∈ h.live → kfree ptr h.state = some s → Uses h (.free ptr) ⟨s, h.live.erase ptr⟩
  | store {h : Heap} {ptr offset : Nat} {bytes : List UInt8} :
      ptr ∈ h.live →
      offset + bytes.length ≤ blockSize h.state.ram (ptr - sizeofMemoryBlock) →
      Uses h (.store ptr offset bytes)
        { h with state.ram := writeBytes h.state.ram (ptr + offset) bytes }
  | load {h : Heap} {ptr offset n : Nat} :
      ptr ∈ h.live → offset + n ≤ blockSize h.state.ram (ptr - sizeofMemoryBlock) →
      Uses h (.load ptr offset (readBytes h.state.ram (ptr + offset) n)) h
  | memoryInit (h : Heap) : Uses h .idle { h with state := memoryInit h.state }
  | freeNull {h : Heap} {s : State} :
      kfree NULL h.state = some s → Uses h .idle { h with state := s }

/-! ### Reading the heap as objects -/

/-- What the heap holds for its users. -/
def objectsOf (h : Heap) : ObjectMap Nat UInt8 := fun p =>
  if p ∈ h.live then some (payloadBytes h.state p) else none

/-- A payload has room for what was asked for, where the size rounds up to a
multiple of 8 in 64 bits. -/
def Sized (size room : Nat) : Prop := size ≤ 2 ^ 64 - 8 → size ≤ room

/-- The heap that `memory_init` makes. -/
def initialHeap (ram : Store) : Heap := { boot ram with state := memoryInit (boot ram).state }

theorem payloadBytes_eq {h : Heap} {bs : List Block} {a n : Nat} (inv : HeapInv h bs)
    (hused : (a, n) ∈ used sizeofMemoryBlock MEMORY_START bs) :
    payloadBytes h.state (a + sizeofMemoryBlock)
      = readBytes h.state.ram (a + sizeofMemoryBlock) n := by
  obtain ⟨next, header⟩ := inv.layout.header_of_mem (mem_used_iff.mp hused)
  rw [payloadBytes, Nat.add_sub_cancel, header.size_eq]

theorem objectsOf_live {h : Heap} {p : Nat} (hp : p ∈ h.live) :
    objectsOf h p = some (payloadBytes h.state p) := if_pos hp

theorem objectsOf_not_live {h : Heap} {p : Nat} (hp : p ∉ h.live) : objectsOf h p = none :=
  if_neg hp

/-- A payload that stays in use and keeps its bytes is the same object. -/
theorem payloadBytes_congr {h h' : Heap} {bs bs' : List Block} {a n : Nat} (inv : HeapInv h bs)
    (inv' : HeapInv h' bs') (hused : (a, n) ∈ used sizeofMemoryBlock MEMORY_START bs)
    (hused' : (a, n) ∈ used sizeofMemoryBlock MEMORY_START bs')
    (same : Set.EqOn h.state.ram h'.state.ram
      (Set.Ico (a + sizeofMemoryBlock) (a + sizeofMemoryBlock + n))) :
    payloadBytes h'.state (a + sizeofMemoryBlock)
      = payloadBytes h.state (a + sizeofMemoryBlock) := by
  rw [payloadBytes_eq inv hused, payloadBytes_eq inv' hused']
  exact readBytes_shift fun k hk => (same ⟨Nat.le_add_right _ _, by omega⟩).symm

/-- The blocks in use that an operation leaves in use keep their objects. -/
theorem objectsOf_congr {h h' : Heap} {bs bs' : List Block} {p : Nat} (inv : HeapInv h bs)
    (inv' : HeapInv h' bs') (hp : p ∈ h.live) (hp' : p ∈ h'.live)
    (kept : ∀ a n, (a, n) ∈ used sizeofMemoryBlock MEMORY_START bs →
      p = a + sizeofMemoryBlock → (a, n) ∈ used sizeofMemoryBlock MEMORY_START bs' ∧
        Set.EqOn h.state.ram h'.state.ram
          (Set.Ico (a + sizeofMemoryBlock) (a + sizeofMemoryBlock + n))) :
    objectsOf h' p = objectsOf h p := by
  obtain ⟨a, n, hused, rfl⟩ := (inv.live_iff p).mp hp
  obtain ⟨hused', same⟩ := kept a n hused rfl
  rw [objectsOf_live hp, objectsOf_live hp', payloadBytes_congr inv inv' hused hused' same]

/-- An allocation adds an object, large enough, and leaves the others as they are. -/
theorem alloc_objects {h : Heap} {s : State} {bs : List Block} {size ptr : Nat}
    (inv : HeapInv h bs) (hlt : size < 2 ^ 64) (run : kmalloc size h.state = some (ptr, s))
    (hne : ptr ≠ NULL) :
    (∃ bs', HeapInv ⟨s, insert ptr h.live⟩ bs') ∧
      Objects.Step Sized (objectsOf h) (.alloc size ptr) (objectsOf ⟨s, insert ptr h.live⟩) := by
  rcases kmalloc_returns inv size with ⟨-, hnull⟩ | ⟨a, bs', s', halloc, hptr, hinit, hstart, hlay⟩
  · rw [hnull] at run
    cases run
    exact absurd rfl hne
  rw [hptr] at run
  cases run
  have inv' := inv.taken halloc hinit hstart hlay
  have hfresh := inv.alloc_fresh halloc
  obtain ⟨n, hneed, hused⟩ := used_alloc halloc
  have hnew := payloadBytes_eq inv' ((hused (a, n)).mpr (Or.inl rfl))
  have hmap : objectsOf ⟨s, insert (a + sizeofMemoryBlock) h.live⟩
      = Function.update (objectsOf h) (a + sizeofMemoryBlock)
        (some (payloadBytes s (a + sizeofMemoryBlock))) := by
    funext p
    by_cases hself : p = a + sizeofMemoryBlock
    · subst hself
      rw [Function.update_self, objectsOf_live (Finset.mem_insert_self _ _)]
    · rw [Function.update_of_ne hself]
      by_cases hp : p ∈ h.live
      · refine objectsOf_congr inv inv' hp (Finset.mem_insert_of_mem hp) fun b k hb _ => ?_
        exact ⟨(hused _).mpr (Or.inr hb), inv.kmalloc_eqOn hptr hb⟩
      · rw [objectsOf_not_live hp, objectsOf_not_live]
        simp [hself, hp]
  refine ⟨⟨bs', inv'⟩, ?_⟩
  rw [hmap]
  refine .alloc (objectsOf_not_live hfresh) fun hsize => ?_
  rw [hnew]
  have halign : size ≤ alignSize size := by
    unfold alignSize wadd
    split <;> omega
  simp only [readBytes, List.length_map, List.length_range]
  omega

/-- A free takes its object away and leaves the others as they are. -/
theorem free_objects {h : Heap} {s : State} {bs : List Block} {ptr : Nat}
    (inv : HeapInv h bs) (hlive : ptr ∈ h.live) (run : kfree ptr h.state = some s) :
    (∃ bs', HeapInv ⟨s, h.live.erase ptr⟩ bs') ∧
      Objects.Step Sized (objectsOf h) (.free ptr) (objectsOf ⟨s, h.live.erase ptr⟩) := by
  obtain ⟨s', bs', hfree, inv', -, hused⟩ := inv.released hlive
  rw [hfree] at run
  cases run
  have hmap : objectsOf ⟨s, h.live.erase ptr⟩ = Function.update (objectsOf h) ptr none := by
    funext p
    by_cases hself : p = ptr
    · subst hself
      rw [Function.update_self, objectsOf_not_live (Finset.notMem_erase _ _)]
    · rw [Function.update_of_ne hself]
      by_cases hp : p ∈ h.live
      · refine objectsOf_congr inv inv' hp (Finset.mem_erase.mpr ⟨hself, hp⟩) fun b k hb heq => ?_
        exact ⟨(hused _).mpr ⟨hb, fun hsame => hself (heq.trans hsame)⟩,
          inv.kfree_eqOn hlive hfree hb⟩
      · rw [objectsOf_not_live hp, objectsOf_not_live]
        simp [hp]
  refine ⟨⟨bs', inv'⟩, ?_⟩
  rw [hmap]
  exact .free (objectsOf_live hlive)

theorem length_readBytes (m : Store) (a n : Nat) : (readBytes m a n).length = n := by
  rw [readBytes, List.length_map, List.length_range]

theorem readBytes_eq_slice {m : Store} {a offset n k : Nat} (h : offset + n ≤ k) :
    readBytes m (a + offset) n = slice (readBytes m a k) offset n := by
  obtain ⟨rest, rfl⟩ := Nat.exists_eq_add_of_le h
  rw [slice, Nat.add_assoc, readBytes_add, List.drop_left' (length_readBytes _ _ _), readBytes_add,
    List.take_left' (length_readBytes _ _ _)]

/-- Bytes stored inside a range take the place of as many of its bytes. -/
theorem readBytes_writeBytes {m : Store} {a offset n : Nat} {bytes : List UInt8}
    (h : offset + bytes.length ≤ n) :
    readBytes (writeBytes m (a + offset) bytes) a n = splice (readBytes m a n) offset bytes := by
  obtain ⟨rest, rfl⟩ := Nat.exists_eq_add_of_le h
  have frame := writeBytes_frame m (a + offset) bytes
  have hbefore : readBytes (writeBytes m (a + offset) bytes) a offset = readBytes m a offset :=
    readBytes_shift fun k hk => frame fun hin => by
      have := hin.1
      omega
  have hwritten : readBytes (writeBytes m (a + offset) bytes) (a + offset) bytes.length
      = bytes := by
    apply List.ext_getElem (length_readBytes _ _ _)
    intro k hk hk'
    simp [readBytes, writeBytes_add hk', hk']
  have hafter : readBytes (writeBytes m (a + offset) bytes) (a + offset + bytes.length) rest
      = readBytes m (a + offset + bytes.length) rest :=
    readBytes_shift fun k hk => frame fun hin => by
      have := hin.2
      omega
  have hplace : a + (offset + bytes.length) = a + offset + bytes.length := by omega
  rw [splice, readBytes_add _ a (offset + bytes.length), readBytes_add _ a (offset + bytes.length),
    readBytes_add _ a offset, hplace, hbefore, hwritten, hafter,
    List.drop_left' (by rw [length_readBytes]), readBytes_add _ a offset]
  simp only [List.append_assoc]
  rw [List.take_left' (length_readBytes _ _ _)]

/-- A store changes its own object only. -/
theorem store_objects {h : Heap} {bs : List Block} {ptr : Nat} (offset : Nat)
    (bytes : List UInt8) (inv : HeapInv h bs) (hlive : ptr ∈ h.live)
    (hin : offset + bytes.length ≤ blockSize h.state.ram (ptr - sizeofMemoryBlock)) :
    HeapInv { h with state.ram := writeBytes h.state.ram (ptr + offset) bytes } bs ∧
      Objects.Step Sized (objectsOf h) (.store ptr offset bytes)
        (objectsOf { h with state.ram := writeBytes h.state.ram (ptr + offset) bytes }) := by
  have frame := writeBytes_frame h.state.ram (ptr + offset) bytes
  have inv' := inv.store hlive (frame.widen (by omega) (by omega))
  have hmap : objectsOf { h with state.ram := writeBytes h.state.ram (ptr + offset) bytes }
      = Function.update (objectsOf h) ptr
        (some (splice (payloadBytes h.state ptr) offset bytes)) := by
    funext p
    by_cases hself : p = ptr
    · subst hself
      obtain ⟨a, n, hused, rfl⟩ := (inv.live_iff p).mp hlive
      obtain ⟨next, header⟩ := inv.layout.header_of_mem (mem_used_iff.mp hused)
      rw [Nat.add_sub_cancel, header.size_eq] at hin
      rw [Function.update_self, objectsOf_live (by exact hlive), payloadBytes_eq inv' hused,
        payloadBytes_eq inv hused]
      exact congrArg some (readBytes_writeBytes hin)
    · rw [Function.update_of_ne hself]
      by_cases hp : p ∈ h.live
      · refine objectsOf_congr inv inv' hp hp fun b k hb heq => ⟨hb, ?_⟩
        obtain ⟨a, n, hused, rfl⟩ := (inv.live_iff ptr).mp hlive
        obtain ⟨next, header⟩ := inv.layout.header_of_mem (mem_used_iff.mp hused)
        rw [Nat.add_sub_cancel, header.size_eq] at hin
        have hdiffer : ((a, ⟨n, false⟩) : Nat × Block) ≠ (b, ⟨k, false⟩) := by
          intro hsame
          cases hsame
          exact hself heq
        have hapart := located_apart (mem_used_iff.mp hused) (mem_used_iff.mp hb) hdiffer
        dsimp only at hapart hin
        exact frame.eqOn (by omega)
      · rw [objectsOf_not_live hp, objectsOf_not_live (by exact hp)]
  refine ⟨inv', ?_⟩
  rw [hmap]
  refine .store (objectsOf_live hlive) ?_
  rw [payloadBytes, length_readBytes]
  exact hin

/-! ### Every run -/

/-- A step of a user is a step of the objects. -/
theorem Uses.objects_step {h h' : Heap} {event : Event Nat UInt8} {bs : List Block}
    (inv : HeapInv h bs) (step : Uses h event h') :
    (∃ bs', HeapInv h' bs') ∧ Objects.Step Sized (objectsOf h) event (objectsOf h') := by
  cases step with
  | alloc hlt hrun hne => exact alloc_objects inv hlt hrun hne
  | @refuse size s hlt hrun =>
      rcases kmalloc_returns inv size with ⟨-, hnull⟩ | ⟨a, bs', s', -, hptr, -⟩
      · rw [hnull] at hrun
        cases hrun
        exact ⟨⟨bs, inv⟩, .refuse _ _⟩
      · rw [hptr] at hrun
        simp [sizeofMemoryBlock] at hrun
  | free hlive hrun => exact free_objects inv hlive hrun
  | store hlive hin =>
      obtain ⟨inv', step⟩ := store_objects _ _ inv hlive hin
      exact ⟨⟨bs, inv'⟩, step⟩
  | @load ptr offset n hlive hin =>
      refine ⟨⟨bs, inv⟩, ?_⟩
      rw [readBytes_eq_slice hin]
      refine .load (objectsOf_live hlive) ?_
      rw [length_readBytes]
      exact hin
  | memoryInit =>
      rw [memoryInit_of_initialized inv.initialized]
      exact ⟨⟨bs, inv⟩, .idle _⟩
  | @freeNull s hrun =>
      have hsame : s = h.state := by simpa [kfree] using hrun.symm
      rw [hsame]
      exact ⟨⟨bs, inv⟩, .idle _⟩

/-- A run of the users is a run of the objects. -/
theorem objects_run {h h' : Heap} {events : List (Event Nat UInt8)} {bs : List Block}
    (inv : HeapInv h bs) (run : Run Uses h events h') :
    Run (Objects.Step Sized) (objectsOf h) events (objectsOf h') := by
  obtain ⟨o, hrun, -, rfl⟩ := run.simulation
    (R := fun h o => (∃ bs, HeapInv h bs) ∧ o = objectsOf h)
    (by
      rintro h event h' _ ⟨⟨bs, inv⟩, rfl⟩ step
      obtain ⟨inv', step'⟩ := step.objects_step inv
      exact ⟨_, step', inv', rfl⟩)
    (a := objectsOf h) ⟨⟨bs, inv⟩, rfl⟩
  exact hrun

/-- What a user stored in its payload it loads again, after any calls and stores of others. -/
theorem kmalloc_contents_kept {ram : Store} {before between : List (Event Nat UInt8)}
    {ptr offset : Nat} {stored loaded : List UInt8} {h : Heap}
    (run : Run Uses (initialHeap ram)
      (before ++ .store ptr offset stored :: (between ++ [.load ptr offset loaded])) h)
    (keeps : ∀ e ∈ between, ¬ e.Changes ptr) (hlength : loaded.length = stored.length) :
    loaded = stored :=
  (objects_run (heapInv_boot ram) run).load_stored keeps hlength

end Curnel.Memory
