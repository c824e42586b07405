/-
`kmalloc` is first fit.

`FirstFit n s` says it of one call on the block list in memory: the first free block
that can hold `n` bytes is taken, and cut where enough is left over, or no free
block can hold them and the heap stays as it is. It holds in every heap that a run
reaches, whether `memory_init` has been called or `kmalloc` is about to call it, for
every `n` that can be rounded up in 64 bits; past that the rounded size is 0, which
any free block holds (`kmalloc_first_fit_iff`).
-/

import Curnel.Memory.Restore

namespace Curnel.Memory

open Lib Lib.Bytes Lib.Word Lib.FreeList

/-! ### First fit -/

/-- `n` rounded up to a multiple of 8, as a number of any size. -/
def roundUp (n : Nat) : Nat := (n + 7) / 8 * 8

/-- A free block that can hold `n` bytes. -/
def Fits (n : Nat) (e : Entry) : Prop := e.isFree ≠ 0 ∧ n ≤ e.size

/-- Of the blocks `list`, the one at `e` is taken, with a payload of `kept` bytes; the
remainder, if one is cut off, is a free block behind it. -/
structure Takes (n : Nat) (list list' : List Entry) (e : Entry) (kept : Nat) : Prop where
  holds : Fits n e ∧ n ≤ kept
  first : ∃ before after rest, list = before ++ e :: after ∧ (∀ x ∈ before, ¬ Fits n x) ∧
    list' = before ++ ⟨e.addr, kept, 0⟩ :: (rest ++ after) ∧
    (rest = [] ∧ kept = e.size ∨
      ∃ left, rest = [⟨e.addr + sizeofMemoryBlock + kept, left, 1⟩] ∧
        kept + sizeofMemoryBlock + left = e.size)

/-- What `kmalloc(n)` has to do on the heap `s`. -/
def FirstFit (n : Nat) (s : State) : Prop :=
  ∃ list, blockList (memoryInit s) = some list ∧
    ((∃ e ∈ list, Fits (roundUp n) e) ∧
        (∃ e kept s' list', kmalloc n s = some (e.addr + sizeofMemoryBlock, s') ∧
          blockList s' = some list' ∧ Takes n list list' e kept) ∨
      (∀ e ∈ list, ¬ Fits (roundUp n) e) ∧ kmalloc n s = some (NULL, memoryInit s))

/-! ### Every reachable heap -/

theorem kmalloc_memoryInit (n : Nat) (s : State) : kmalloc n (memoryInit s) = kmalloc n s := by
  by_cases hinit : s.memoryInitialized = true
  · rw [memoryInit_of_initialized hinit]
  · have hdone : (memoryInit s).memoryInitialized = true := by simp [memoryInit, hinit]
    simp only [kmalloc]
    rw [if_pos hdone, if_neg hinit]

/-- The heap has been initialized, or nothing has happened to it. -/
theorem Step.reached {ram : Store} {h h' : Heap} {op : Op}
    (reached : (∃ bs, HeapInv h bs) ∨ h = boot ram) (step : Step h op h') :
    (∃ bs, HeapInv h' bs) ∨ h' = boot ram := by
  rcases reached with ⟨bs, inv⟩ | rfl
  · exact Or.inl (heapInv_step inv step)
  have inv := heapInv_boot ram
  cases step with
  | memoryInit => exact Or.inl ⟨_, inv⟩
  | kmallocNull hsize hrun =>
      rw [← kmalloc_memoryInit] at hrun
      exact Or.inl (heapInv_step inv (.kmallocNull hsize hrun))
  | kmalloc hsize hrun hne =>
      rw [← kmalloc_memoryInit] at hrun
      exact Or.inl (heapInv_step inv (.kmalloc hsize hrun hne))
  | @kfree ptr s hptr hrun =>
      have hnull : ptr = NULL := hptr.resolve_right (by simp [boot])
      subst hnull
      have hsame : s = (boot ram).state := by simpa [Memory.kfree] using hrun.symm
      subst hsame
      exact Or.inr (by simp [boot])

/-- In every heap that a run reaches, the first `memory_init` has tiled the arena or will. -/
theorem heapInv_reached {ram : Store} {ops : List Op} {h : Heap}
    (run : Run Step (boot ram) ops h) :
    ∃ bs, HeapInv { h with state := memoryInit h.state } bs := by
  have reached := run.invariant (I := fun h => (∃ bs, HeapInv h bs) ∨ h = boot ram)
    (fun hreached step => step.reached hreached) (Or.inr rfl)
  rcases reached with ⟨bs, inv⟩ | rfl
  · rw [memoryInit_of_initialized inv.initialized]
    exact ⟨bs, inv⟩
  · exact ⟨_, heapInv_boot ram⟩

/-! ### Rounding -/

theorem alignSize_eq {n : Nat} (hn : n ≤ 2 ^ 64 - 8) : alignSize n = roundUp n := by
  unfold alignSize roundUp wadd
  split <;> omega

theorem alignSize_wraps {n : Nat} (hn : 2 ^ 64 - 8 < n) (hlt : n < 2 ^ 64) :
    alignSize n = 0 := by
  unfold alignSize wadd
  split <;> omega

/-- A multiple of 8 is at least `n` if it is at least `n` rounded up. -/
theorem roundUp_le_iff {n size : Nat} (hsize : 8 ∣ size) : roundUp n ≤ size ↔ n ≤ size := by
  unfold roundUp
  omega

/-! ### The entries of a tiled heap -/

theorem toNat_ne_zero_iff {b : Bool} : b.toNat ≠ 0 ↔ b = true := by
  cases b <;> simp

/-- The entry of a block. -/
def entryOf (x : Nat × Block) : Entry := ⟨x.1, x.2.size, x.2.free.toNat⟩

theorem fits_entryOf {n : Nat} {x : Nat × Block} :
    Fits n (entryOf x) ↔ x.2.free = true ∧ n ≤ x.2.size :=
  and_congr_left fun _ => toNat_ne_zero_iff

theorem entriesOf_eq (p : Nat) (bs : List Block) :
    entriesOf p bs = (located sizeofMemoryBlock p bs).map entryOf := rfl

/-- A block of a tiled heap is smaller than the arena, and its size is a multiple of 8. -/
theorem HeapInv.block_size {h : Heap} {bs : List Block} (inv : HeapInv h bs) {x : Nat × Block}
    (hx : x ∈ located sizeofMemoryBlock MEMORY_START bs) :
    x.2.size < MEMORY_SIZE ∧ 8 ∣ x.2.size := by
  have hupper := located_upper hx
  have hlower := located_lower hx
  have hcovers := inv.covers
  simp only [sizeofMemoryBlock, MEMORY_SIZE] at hupper hcovers ⊢
  exact ⟨by omega, inv.aligned _ (mem_of_located hx)⟩

/-- A block can hold `n` bytes if it can hold `n` rounded up. -/
theorem HeapInv.fits_roundUp {h : Heap} {bs : List Block} (inv : HeapInv h bs) {n : Nat}
    {x : Nat × Block} (hx : x ∈ located sizeofMemoryBlock MEMORY_START bs) :
    Fits (roundUp n) (entryOf x) ↔ Fits n (entryOf x) := by
  rw [fits_entryOf, fits_entryOf, roundUp_le_iff (inv.block_size hx).2]

/-! ### One call -/

/-- What first-fit allocation of the rounded size does to the entries. -/
theorem HeapInv.takes {h : Heap} {bs bs' : List Block} {n a : Nat} (inv : HeapInv h bs)
    (halloc : alloc sizeofMemoryBlock BLOCK_SIZE (roundUp n) MEMORY_START bs = some (a, bs')) :
    ∃ e kept, e.addr = a ∧ e ∈ entriesOf MEMORY_START bs ∧ Fits (roundUp n) e ∧
      Takes n (entriesOf MEMORY_START bs) (entriesOf MEMORY_START bs') e kept := by
  obtain ⟨before, size, after, kept, rest, hbs, hbefore, hsize, hbs', hkept, hcut⟩ :=
    located_alloc halloc
  have hmem : ∀ {x}, x ∈ before ++ (a, ⟨size, true⟩) :: after →
      x ∈ located sizeofMemoryBlock MEMORY_START bs := fun hx => hbs ▸ hx
  have htaken := hmem (List.mem_append_right before List.mem_cons_self)
  have hfits : Fits (roundUp n) (entryOf (a, ⟨size, true⟩)) := fits_entryOf.mpr ⟨rfl, hsize⟩
  have hle : n ≤ roundUp n := by
    unfold roundUp
    omega
  refine ⟨entryOf (a, ⟨size, true⟩), kept, rfl, ?_, hfits,
    ⟨⟨(inv.fits_roundUp htaken).mp hfits, hle.trans hkept⟩, before.map entryOf,
      after.map entryOf, rest.map entryOf, ?_, ?_, ?_, ?_⟩⟩
  · exact List.mem_map_of_mem htaken
  · rw [entriesOf_eq, hbs, List.map_append, List.map_cons]
  · intro e he
    obtain ⟨x, hx, rfl⟩ := List.mem_map.mp he
    rw [← inv.fits_roundUp (hmem (List.mem_append_left _ hx)), fits_entryOf]
    exact hbefore x hx
  · rw [entriesOf_eq, hbs', List.map_append, List.map_cons, List.map_append]
    rfl
  · rcases hcut with ⟨rfl, rfl⟩ | ⟨left, rfl, hleft⟩
    · exact Or.inl ⟨rfl, rfl⟩
    · exact Or.inr ⟨left, rfl, hleft⟩

/-- Below the wrap of the rounding, `kmalloc` is first fit. -/
theorem HeapInv.firstFit {h : Heap} {s : State} {bs : List Block}
    (inv : HeapInv { h with state := memoryInit s } bs) {n : Nat} (hn : 1 ≤ n)
    (hle : n ≤ 2 ^ 64 - 8) : FirstFit n s := by
  have hlist := inv.blockList_eq
  have hcall := kmalloc_returns inv n
  rw [alignSize_eq hle, kmalloc_memoryInit] at hcall
  refine ⟨_, hlist, ?_⟩
  rcases hcall with ⟨hzero | hnone, hrun⟩ | ⟨a, bs', s', halloc, hrun, hinit, hstart, layout⟩
  · omega
  · refine Or.inr ⟨fun e he => ?_, hrun⟩
    obtain ⟨x, hx, rfl⟩ := List.mem_map.mp he
    exact fun hfits => alloc_eq_none_iff.mp hnone x hx (fits_entryOf.mp hfits)
  · obtain ⟨e, kept, rfl, he, hfits, htakes⟩ := inv.takes halloc
    rw [← alignSize_eq hle] at halloc
    have inv' := inv.taken halloc hinit hstart layout
    exact Or.inl ⟨⟨e, he, hfits⟩, e, kept, s', _, hrun, inv'.blockList_eq, htakes⟩

/-- Past the wrap, a free block is taken whatever its size. -/
theorem HeapInv.kmalloc_wraps {h : Heap} {s : State} {bs : List Block}
    (inv : HeapInv { h with state := memoryInit s } bs) {n : Nat} (hn : 2 ^ 64 - 8 < n)
    (hlt : n < 2 ^ 64) {e : Entry} (he : e ∈ entriesOf MEMORY_START bs) (hfree : e.isFree ≠ 0) :
    ∃ ptr s', kmalloc n s = some (ptr, s') ∧ ptr ≠ NULL := by
  have hcall := kmalloc_returns inv n
  rw [alignSize_wraps hn hlt, kmalloc_memoryInit] at hcall
  rcases hcall with ⟨hzero | hnone, -⟩ | ⟨a, bs', s', -, hrun, -⟩
  · omega
  · obtain ⟨x, hx, rfl⟩ := List.mem_map.mp he
    exact absurd ⟨toNat_ne_zero_iff.mp hfree, Nat.zero_le _⟩ (alloc_eq_none_iff.mp hnone x hx)
  · exact ⟨_, s', hrun, by simp [sizeofMemoryBlock]⟩

/-- No block of the arena can hold that much. -/
theorem HeapInv.not_fits {h : Heap} {bs : List Block} (inv : HeapInv h bs) {n : Nat}
    (hn : 2 ^ 64 - 8 < n) {e : Entry} (he : e ∈ entriesOf MEMORY_START bs) :
    ¬ Fits (roundUp n) e := by
  obtain ⟨x, hx, rfl⟩ := List.mem_map.mp he
  change ¬ Fits (roundUp n) (entryOf x)
  rw [inv.fits_roundUp hx, fits_entryOf]
  have hsize := (inv.block_size hx).1
  simp only [MEMORY_SIZE] at hsize
  omega

/-! ### Every call -/

/-- **First fit.** In every heap that `kmalloc` and `kfree` of live pointers reach, a call
of `kmalloc` with a 64-bit `n ≥ 1` takes the first free block that holds `n` bytes or
leaves the heap alone, exactly when `n` is at most 2⁶⁴ - 8 or no block is free. -/
theorem kmalloc_first_fit_iff {ram : Store} {ops : List Op} {h : Heap}
    (run : Run Step (boot ram) ops h) {n : Nat} (hn : 1 ≤ n ∧ n < 2 ^ 64) :
    FirstFit n h.state ↔
      n ≤ 2 ^ 64 - 8 ∨
        ∀ list, blockList (memoryInit h.state) = some list → ∀ e ∈ list, e.isFree = 0 := by
  obtain ⟨bs, inv⟩ := heapInv_reached run
  have hlist := inv.blockList_eq
  rcases Nat.lt_or_ge (2 ^ 64 - 8) n with hover | hle
  · constructor
    · rintro ⟨list, hlist', ⟨⟨e, he, hfits⟩, -⟩ | ⟨-, hnull⟩⟩
      · rw [hlist] at hlist'
        cases hlist'
        exact absurd hfits (inv.not_fits hover he)
      · refine Or.inr fun list' hlist'' e he => ?_
        rw [hlist] at hlist''
        cases hlist''
        by_contra hfree
        obtain ⟨ptr, s', hrun, hne⟩ := inv.kmalloc_wraps hover hn.2 he hfree
        rw [hrun] at hnull
        cases hnull
        exact hne rfl
    · rintro (hle | hused)
      · omega
      · have hcall := kmalloc_returns inv n
        rw [kmalloc_memoryInit] at hcall
        refine ⟨_, hlist, Or.inr ⟨fun e he => inv.not_fits hover he, ?_⟩⟩
        rcases hcall with ⟨-, hrun⟩ | ⟨a, bs', s', halloc, -⟩
        · exact hrun
        · obtain ⟨k, hfree⟩ := alloc_was_free halloc
          exact absurd (hused _ hlist _ (List.mem_map_of_mem hfree)) (by simp)
  · exact iff_of_true (inv.firstFit hn.1 hle) (Or.inl hle)

/-- The first allocation of all, which initializes the heap. -/
theorem kmalloc_first_fit_iff_boot :
    FirstFit 100 (boot fun _ => 0).state ↔
      100 ≤ 2 ^ 64 - 8 ∨ ∀ list, blockList (memoryInit (boot fun _ => 0).state) = some list →
        ∀ e ∈ list, e.isFree = 0 :=
  kmalloc_first_fit_iff (.nil _) (by decide)

/-- A request of 2⁶⁴ - 1 bytes is granted, out of 1 MB. -/
theorem kmalloc_grants_wrapped :
    Run Step (boot fun _ => 0) [.memoryInit]
        { boot fun _ => 0 with state := memoryInit (boot fun _ => 0).state } ∧
      ¬ FirstFit (2 ^ 64 - 1) (memoryInit (boot fun _ => 0).state) := by
  have inv := heapInv_boot fun _ => 0
  have hlist := inv.blockList_eq
  have hsame : memoryInit (memoryInit (boot fun _ => 0).state)
      = memoryInit (boot fun _ => 0).state := memoryInit_of_initialized rfl
  refine ⟨.single (.memoryInit _), ?_⟩
  rintro ⟨list, hlist', ⟨⟨e, he, hfits⟩, -⟩ | ⟨-, hnull⟩⟩
  · rw [hsame, hlist] at hlist'
    cases hlist'
    exact inv.not_fits (by decide) he hfits
  · obtain ⟨ptr, s', hrun, hne⟩ := inv.kmalloc_wraps (n := 2 ^ 64 - 1) (by decide) (by decide)
      (e := ⟨MEMORY_START, MEMORY_SIZE - sizeofMemoryBlock, 1⟩) List.mem_cons_self (by decide)
    rw [kmalloc_memoryInit, hrun] at hnull
    cases hnull
    exact hne rfl

end Curnel.Memory
