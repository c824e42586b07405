/-
Heap and page frames in one memory, as `kernel_main` starts them.

`memory_init` lays the first block of the heap at 1 MB, and `paging_init` puts
the bitmap of the page frames at 1 MB as well. `KeepsApart` says what is expected
of the two allocators from then on; `heap_lost_to_bitmap` shows that no memory
map gives it. The header of the heap is gone before `kernel_main` goes on, and
the first allocation from the heap changes the bitmap.
-/

import Curnel.Memory.Runs
import Curnel.Paging.Init

namespace Curnel.Boot

open Lib Lib.Bytes Lib.Word Memory Paging

/-! ### Both allocators over one memory -/

/-- The memory, and the static variables of `memory.c` and `paging.c`. -/
structure Machine where
  ram : Store
  memoryStart : Nat
  memoryInitialized : Bool
  pmm : PhysicalMemoryManager
  vmm : VirtualMemoryManager

namespace Machine

def heap (k : Machine) : Memory.State := ⟨k.ram, k.memoryStart, k.memoryInitialized⟩

def paging (k : Machine) : Paging.State := ⟨k.ram, k.pmm, k.vmm⟩

def setHeap (k : Machine) (s : Memory.State) : Machine :=
  { k with ram := s.ram, memoryStart := s.memoryStart, memoryInitialized := s.memoryInitialized }

def setPaging (k : Machine) (s : Paging.State) : Machine :=
  { k with ram := s.ram, pmm := s.pmm, vmm := s.vmm }

end Machine

/-- Static variables start out as zero. -/
def powerOn (ram : Store) : Machine := ⟨ram, NULL, false, ⟨0, 0, 0, 0, 0, NULL⟩, ⟨NULL⟩⟩

/-- What `kernel_main` does about memory, with the memory map and the place of
`boot_pml4` given. -/
def kernelMain (mmap : List MemoryMapEntry) (bootPml4 : Nat) (ram : Store) : Machine :=
  let k := powerOn ram
  let k := k.setHeap (memoryInit k.heap)
  k.setPaging (pagingInit mmap bootPml4 k.paging)

inductive Call where
  | kmalloc (size : Nat)
  | kfree (ptr : Nat)
  | pagingAllocPage
  | pagingFreePage (addr : Nat)

inductive Step : Machine → Call → Machine → Prop where
  | kmalloc {k : Machine} {size p : Nat} {s : Memory.State} :
      size < 2 ^ 64 → kmalloc size k.heap = some (p, s) → Step k (.kmalloc size) (k.setHeap s)
  | kfree {k : Machine} {ptr : Nat} {s : Memory.State} :
      ptr < 2 ^ 64 → kfree ptr k.heap = some s → Step k (.kfree ptr) (k.setHeap s)
  | pagingAllocPage {k : Machine} :
      Step k .pagingAllocPage (k.setPaging (pagingAllocPage k.paging).2)
  | pagingFreePage {k : Machine} {addr : Nat} :
      addr < 2 ^ 64 →
      Step k (.pagingFreePage addr) (k.setPaging (pagingFreePage addr k.paging))

/-! ### What is expected of them -/

/-- The blocks of the heap, in the order of their list, tile the arena. -/
structure BlocksTile (s : Memory.State) (headers : List Nat) : Prop where
  linked : Linked (blockNext s.ram) (· = NULL) s.memoryStart headers
  first : headers.head? = some MEMORY_START
  adjacent : headers.IsChain fun p q => q = p + sizeofMemoryBlock + blockSize s.ram p
  last : ∀ p ∈ headers.getLast?,
    p + sizeofMemoryBlock + blockSize s.ram p = MEMORY_START + MEMORY_SIZE

/-- The bytes of the bitmap. -/
def bitmapBytes (k : Machine) : Set Nat := Set.Ico k.pmm.bitmap (k.pmm.bitmap + k.pmm.bitmapSize)

def Call.ofHeap : Call → Prop
  | .kmalloc _ | .kfree _ => True
  | .pagingAllocPage | .pagingFreePage _ => False

/-- All along the calls the heap tiles its arena, and neither allocator writes
what the other keeps its books in. -/
structure KeepsApart (k : Machine) (calls : List Call) : Prop where
  tiles : ∀ before after t, calls = before ++ after → Run Step k before t →
    ∃ headers, BlocksTile t.heap headers
  bitmap : ∀ before call after t u, calls = before ++ call :: after → Run Step k before t →
    Step t call u → call.ofHeap → Set.EqOn t.ram u.ram (bitmapBytes t)
  headers : ∀ before call after t u headers, calls = before ++ call :: after →
    Run Step k before t → Step t call u → ¬ call.ofHeap → BlocksTile t.heap headers →
    ∀ p ∈ headers, Set.EqOn t.ram u.ram (Set.Ico p (p + sizeofMemoryBlock))

/-! ### The first header of the heap -/

section FirstHeader

variable (mmap : List MemoryMapEntry) (bootPml4 : Nat) (ram : Store)

theorem kernelMain_byte {i : Nat} (hi : i < 128) :
    (kernelMain mmap bootPml4 ram).ram (MEMORY_START + i) = 0xFF := by
  have hbyte := pagingInit_byte mmap bootPml4
    ((powerOn ram).setHeap (memoryInit (powerOn ram).heap)).paging hi
  rw [readLE_one] at hbyte
  exact UInt8.toNat_inj.mp hbyte

/-- The bits that mark the first pages as used lie over the header. -/
theorem kernelMain_header :
    blockSize (kernelMain mmap bootPml4 ram).ram MEMORY_START = 2 ^ 64 - 1 ∧
      blockIsFree (kernelMain mmap bootPml4 ram).ram MEMORY_START = 2 ^ 8 - 1 ∧
      blockNext (kernelMain mmap bootPml4 ram).ram MEMORY_START = 2 ^ 64 - 1 := by
  have hword : ∀ i n, i + n ≤ 128 →
      readLE (kernelMain mmap bootPml4 ram).ram (MEMORY_START + i) n = 256 ^ n - 1 := by
    intro i n hin
    apply readLE_ones
    intro j hj
    rw [Nat.add_assoc]
    exact kernelMain_byte mmap bootPml4 ram (by omega)
  exact ⟨hword 0 8 (by decide), hword 8 1 (by decide), hword 16 8 (by decide)⟩

/-- What is left of the header makes no list of blocks that tiles the arena. -/
theorem kernelMain_not_tiled (headers : List Nat) :
    ¬ BlocksTile (kernelMain mmap bootPml4 ram).heap headers := by
  intro tiles
  obtain ⟨hsize, -, hnext⟩ := kernelMain_header mmap bootPml4 ram
  obtain ⟨linked, first, adjacent, last⟩ := tiles
  cases headers with
  | nil => cases first
  | cons p rest =>
      cases Option.some.inj first
      obtain ⟨-, -, hrest⟩ := linked
      have hnext' : blockNext (kernelMain mmap bootPml4 ram).heap.ram MEMORY_START = 2 ^ 64 - 1 :=
        hnext
      rw [hnext'] at hrest
      cases rest with
      | nil => cases hrest
      | cons q rest =>
          -- the link and the size of the block disagree
          obtain ⟨rfl, -⟩ := hrest
          have hend := (List.isChain_cons_cons.mp adjacent).1
          have hsize' : blockSize (kernelMain mmap bootPml4 ram).heap.ram MEMORY_START
              = 2 ^ 64 - 1 := hsize
          rw [hsize'] at hend
          cases hend

/-- The first allocation cuts a block off the arena as if it were the whole
address space, and writes the size of the block over the bitmap. -/
theorem kmalloc_kernelMain {size : Nat} (hsize : size ≠ 0) (hlt : size < 2 ^ 64) :
    ∃ m, kmalloc size (kernelMain mmap bootPml4 ram).heap
        = some (MEMORY_START + sizeofMemoryBlock,
          { (kernelMain mmap bootPml4 ram).heap with ram := m }) ∧
      blockSize m MEMORY_START = alignSize size := by
  obtain ⟨hblock, hfree, -⟩ := kernelMain_header mmap bootPml4 ram
  set m := (kernelMain mmap bootPml4 ram).ram with hm
  have haligned := dvd_alignSize size
  have halign : alignSize size < 2 ^ 64 := by
    unfold alignSize
    split
    · exact wadd_lt 64 _ _
    · exact hlt
  -- a multiple of 8 is not the size of the block, which is odd
  have hsplit : wadd 64 (wadd 64 (alignSize size) sizeofMemoryBlock) BLOCK_SIZE
      < blockSize m MEMORY_START := by
    rw [hblock]
    simp only [wadd, sizeofMemoryBlock, BLOCK_SIZE]
    omega
  have hlarge : blockIsFree m MEMORY_START ≠ 0 ∧ alignSize size ≤ blockSize m MEMORY_START := by
    rw [hfree, hblock]
    exact ⟨by decide, Nat.le_pred_of_lt halign⟩
  have hloop : kmallocLoop (alignSize size) heapFuel m MEMORY_START
      = some (MEMORY_START + sizeofMemoryBlock,
          setBlockIsFree (splitBlock m MEMORY_START (alignSize size)) MEMORY_START 0) := by
    rw [show heapFuel = 0xFFFFF + 1 from rfl, kmallocLoop, if_neg (by decide),
      if_pos hlarge, if_pos hsplit]
    rfl
  have hcall : kmalloc size (kernelMain mmap bootPml4 ram).heap
      = (kmallocLoop (alignSize size) heapFuel m MEMORY_START).map fun out =>
        (out.1, { (kernelMain mmap bootPml4 ram).heap with ram := out.2 }) := by
    unfold kmalloc
    exact if_neg hsize
  refine ⟨setBlockIsFree (splitBlock m MEMORY_START (alignSize size)) MEMORY_START 0, ?_, ?_⟩
  · rw [hcall, hloop]
    rfl
  · unfold splitBlock
    rw [blockSize_setBlockIsFree, blockSize_setBlockNext, blockSize_setBlockSize]
    exact Nat.mod_eq_of_lt halign

end FirstHeader

/-- **The heap and the bitmap of the page frames are in the same place.** Whatever
the memory map, no calls at all are needed for the heap to lose its list of
blocks; and where the map has usable memory at all, the first `kmalloc` changes the
bitmap. -/
theorem heap_lost_to_bitmap (mmap : List MemoryMapEntry) (bootPml4 : Nat) (ram : Store) :
    (∀ calls, ¬ KeepsApart (kernelMain mmap bootPml4 ram) calls) ∧
      ((kernelMain mmap bootPml4 ram).pmm.bitmapSize ≠ 0 → ∀ size, size ≠ 0 → size < 2 ^ 64 →
        ∃ k, Step (kernelMain mmap bootPml4 ram) (.kmalloc size) k ∧
          ¬ Set.EqOn (kernelMain mmap bootPml4 ram).ram k.ram
            (bitmapBytes (kernelMain mmap bootPml4 ram))) := by
  constructor
  · intro calls apart
    obtain ⟨headers, tiles⟩ := apart.tiles [] calls _ rfl (.nil _)
    exact kernelMain_not_tiled mmap bootPml4 ram headers tiles
  · intro hbitmap size hsize hlt
    obtain ⟨m, hcall, hblock⟩ := kmalloc_kernelMain mmap bootPml4 ram hsize hlt
    refine ⟨_, .kmalloc hlt hcall, fun same => ?_⟩
    have hbyte : (kernelMain mmap bootPml4 ram).ram MEMORY_START = m MEMORY_START :=
      same ⟨le_refl _, Nat.lt_add_of_pos_right (Nat.pos_of_ne_zero hbitmap)⟩
    have hset := kernelMain_byte mmap bootPml4 ram (show 0 < 128 by decide)
    have hlow := readLE_mod m MEMORY_START 7
    have haligned := dvd_alignSize size
    have hword : readLE m MEMORY_START 8 = alignSize size := hblock
    rw [Nat.add_zero] at hset
    rw [← hbyte, hset, hword] at hlow
    have hff : (0xFF : UInt8).toNat = 255 := rfl
    omega

/-- With the memory map of `kernel_main` itself: no call has been made yet. -/
theorem heap_lost_at_boot :
    ¬ KeepsApart (kernelMain memMap 0x104000 fun _ => 0) [] := by
  intro apart
  obtain ⟨headers, tiles⟩ := apart.tiles [] [] _ rfl (.nil _)
  exact kernelMain_not_tiled memMap 0x104000 (fun _ => 0) headers tiles

end Curnel.Boot
