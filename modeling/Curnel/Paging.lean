/-
paging.c: physical frames from a bitmap, and four-level page tables.

Frames, bitmap and page tables live in one byte-addressed memory, which the
kernel addresses physically. A pointer is a natural number, `NULL` is zero.
`paging_walk` goes down three levels in the same way; one level of it is
`pagingDescend`. Flushing the TLB and the messages on the terminal leave the
state modelled here alone and are left out.
-/

import Curnel.Memory

namespace Curnel

open Lib.Bytes Lib.Word

/-! ### Constants -/

def PAGE_SIZE : Nat := 4096

def PAGE_PRESENT : Nat := 0x1
def PAGE_WRITABLE : Nat := 0x2
def PAGE_USER : Nat := 0x4
def PAGE_SIZE_BIT : Nat := 0x80

def KERNEL_BASE : Nat := 0xFFFFFFFF80000000
def USER_BASE : Nat := 0x0000000000400000
def USER_STACK_TOP : Nat := 0x00007FFFFFFFFFFF

namespace Paging

/-- The bits of an entry that hold a physical address. -/
def ADDRESS_MASK : Nat := 0x000FFFFFFFFFF000

/-- `~0xFFF`, an `int`, extended to 64 bits. -/
def PAGE_MASK : Nat := 0xFFFFFFFFFFFFF000

/-! ### State -/

structure MemoryMapEntry where
  start : Nat
  size : Nat
  type : Nat

structure PhysicalMemoryManager where
  totalMemory : Nat
  freeMemory : Nat
  usedMemory : Nat
  reservedMemory : Nat
  bitmapSize : Nat
  bitmap : Nat

structure VirtualMemoryManager where
  pml4 : Nat

structure State where
  ram : Store
  pmm : PhysicalMemoryManager
  vmm : VirtualMemoryManager

/-! ### Physical frames -/

/-- The bit of frame `i` in the bitmap. -/
def bitmapBit (s : State) (i : Nat) : Nat :=
  readLE s.ram (s.pmm.bitmap + i / 8) 1 &&& (1 <<< (i % 8))

/-- The body of the loop of `pmm_alloc_page` for a frame whose bit is clear. -/
def pmmTakePage (i : Nat) (s : State) : Nat × State :=
  let byte := readLE s.ram (s.pmm.bitmap + i / 8) 1
  let marked := writeLE s.ram (s.pmm.bitmap + i / 8) 1 (byte ||| (1 <<< (i % 8)))
  let addr := wmul 64 i PAGE_SIZE
  (addr,
    { s with
      ram := fill marked addr PAGE_SIZE 0
      pmm := { s.pmm with
        freeMemory := wsub 64 s.pmm.freeMemory PAGE_SIZE
        usedMemory := wadd 64 s.pmm.usedMemory PAGE_SIZE } })

/-- The loop of `pmm_alloc_page` from frame `i` on, with `n` frames to go. -/
def pmmAllocPageLoop : Nat → Nat → State → Nat × State
  | 0, _, s => (NULL, s)
  | n + 1, i, s =>
      if bitmapBit s i = 0 then pmmTakePage i s else pmmAllocPageLoop n (i + 1) s

def pmmAllocPage (s : State) : Nat × State :=
  pmmAllocPageLoop (wmul 64 s.pmm.bitmapSize 8) 0 s

/-- The end of `pmm_free_page`, for a frame whose bit is set. -/
def pmmClearPage (i : Nat) (s : State) : State :=
  let byte := readLE s.ram (s.pmm.bitmap + i / 8) 1
  { s with
    ram := writeLE s.ram (s.pmm.bitmap + i / 8) 1 (byte &&& (0xFF ^^^ (1 <<< (i % 8))))
    pmm := { s.pmm with
      freeMemory := wadd 64 s.pmm.freeMemory PAGE_SIZE
      usedMemory := wsub 64 s.pmm.usedMemory PAGE_SIZE } }

def pmmFreePage (addr : Nat) (s : State) : State :=
  if addr % PAGE_SIZE ≠ 0 then s
  else if bitmapBit s (addr / PAGE_SIZE) = 0 then s
  else pmmClearPage (addr / PAGE_SIZE) s

def pagingAllocPage (s : State) : Nat × State := pmmAllocPage s

def pagingFreePage (addr : Nat) (s : State) : State := pmmFreePage addr s

/-! ### Starting up -/

/-- The body of the loop of `paging_init` over the memory map. -/
def countMemory (pmm : PhysicalMemoryManager) (entry : MemoryMapEntry) : PhysicalMemoryManager :=
  if entry.type = 1 then
    { pmm with
      totalMemory := wadd 64 pmm.totalMemory entry.size
      freeMemory := wadd 64 pmm.freeMemory entry.size }
  else { pmm with reservedMemory := wadd 64 pmm.reservedMemory entry.size }

/-- One bit a page, rounded up to whole bytes. -/
def bitmapSizeFor (totalMemory : Nat) : Nat :=
  let size := totalMemory / PAGE_SIZE / 8
  if wmul 64 (wmul 64 size 8) PAGE_SIZE < totalMemory then size + 1 else size

/-- `pmm.bitmap[i / 8] |= 1 << (i % 8)`. -/
def markFrame (bitmap i : Nat) (m : Store) : Store :=
  writeLE m (bitmap + i / 8) 1 (readLE m (bitmap + i / 8) 1 ||| (1 <<< (i % 8)))

/-- The loops of `paging_init` that mark the pages from `addr` up to `limit`. -/
def markLoop (bitmap limit : Nat) : Nat → Nat → Store → Store
  | 0, _, m => m
  | fuel + 1, addr, m =>
      if addr < limit then
        markLoop bitmap limit fuel (addr + PAGE_SIZE) (markFrame bitmap (addr / PAGE_SIZE) m)
      else m

/-- A loop over pages ends after as many rounds as there are pages up to `limit`. -/
def markPages (bitmap addr limit : Nat) (m : Store) : Store :=
  markLoop bitmap limit (limit / PAGE_SIZE + 1) addr m

def kernelStart : Nat := 0
def kernelEnd : Nat := 0x400000

/-- `bootPml4` is where the linker puts `boot_pml4`. -/
def pagingInit (mmap : List MemoryMapEntry) (bootPml4 : Nat) (s : State) : State :=
  let pmm := { s.pmm with totalMemory := 0, freeMemory := 0, usedMemory := 0, reservedMemory := 0 }
  let pmm := mmap.foldl countMemory pmm
  let pmm := { pmm with bitmapSize := bitmapSizeFor pmm.totalMemory, bitmap := 0x100000 }
  let ram := fill s.ram pmm.bitmap pmm.bitmapSize 0
  let bitmapEnd := pmm.bitmap + pmm.bitmapSize
  let ram := markPages pmm.bitmap kernelStart kernelEnd ram
  let ram := markPages pmm.bitmap pmm.bitmap bitmapEnd ram
  let reservedPages := (kernelEnd - kernelStart + bitmapEnd - pmm.bitmap) / PAGE_SIZE
  { ram := ram
    pmm := { pmm with
      freeMemory := wsub 64 pmm.freeMemory (reservedPages * PAGE_SIZE)
      usedMemory := wadd 64 pmm.usedMemory (reservedPages * PAGE_SIZE) }
    vmm := { s.vmm with pml4 := bootPml4 } }

/-! ### Page tables -/

def pagingMakeEntry (physAddr flags : Nat) : Nat :=
  (physAddr &&& ADDRESS_MASK) ||| flags

/-- `&table->entries[index]`. -/
def entryPtr (table index : Nat) : Nat := table + 8 * index

/-- The entry a pointer to one points to. -/
def entryAt (m : Store) (ptr : Nat) : Nat := readLE m ptr 8

def setEntryAt (m : Store) (ptr entry : Nat) : Store := writeLE m ptr 8 entry

/-- One level of `paging_walk`: the table that the entry leads to, made first
where it is missing and `alloc` asks for it. `none` is the early `return NULL`. -/
def pagingDescend (table index : Nat) (alloc : Bool) (flags : Nat) (s : State) :
    Option Nat × State :=
  let ptr := entryPtr table index
  if entryAt s.ram ptr &&& PAGE_PRESENT = 0 then
    if alloc = false then (none, s)
    else
      let (page, s) := pmmAllocPage s
      if page = NULL then (none, s)
      else
        let entry := pagingMakeEntry page (PAGE_PRESENT ||| PAGE_WRITABLE ||| flags)
        let s := { s with ram := setEntryAt s.ram ptr entry }
        (some (entryAt s.ram ptr &&& ADDRESS_MASK), s)
  else (some (entryAt s.ram ptr &&& ADDRESS_MASK), s)

/-- A pointer to the leaf entry of an address, or `NULL`. -/
def pagingWalk (virtAddr : Nat) (alloc : Bool) (flags : Nat) (s : State) : Nat × State :=
  let pml4Index := (virtAddr >>> 39) &&& 0x1FF
  let pdptIndex := (virtAddr >>> 30) &&& 0x1FF
  let pdIndex := (virtAddr >>> 21) &&& 0x1FF
  let ptIndex := (virtAddr >>> 12) &&& 0x1FF
  match pagingDescend s.vmm.pml4 pml4Index alloc flags s with
  | (none, s) => (NULL, s)
  | (some pdpt, s) =>
      match pagingDescend pdpt pdptIndex alloc flags s with
      | (none, s) => (NULL, s)
      | (some pd, s) =>
          match pagingDescend pd pdIndex alloc flags s with
          | (none, s) => (NULL, s)
          | (some pt, s) => (entryPtr pt ptIndex, s)

def pagingMapPage (physAddr virtAddr flags : Nat) (s : State) : Nat × State :=
  let virtAddr := virtAddr &&& PAGE_MASK
  let (ptEntry, s) := pagingWalk virtAddr true flags s
  if ptEntry = NULL then (NULL, s)
  else if entryAt s.ram ptEntry &&& PAGE_PRESENT ≠ 0 then (NULL, s)
  else
    let entry := pagingMakeEntry physAddr (PAGE_PRESENT ||| flags)
    (virtAddr, { s with ram := setEntryAt s.ram ptEntry entry })

def pagingUnmapPage (virtAddr : Nat) (s : State) : State :=
  let (ptEntry, s) := pagingWalk virtAddr false 0 s
  if ptEntry = NULL then s else { s with ram := setEntryAt s.ram ptEntry 0 }

def pagingGetPhysicalAddress (virtAddr : Nat) (s : State) : Nat :=
  let (ptEntry, s) := pagingWalk virtAddr false 0 s
  if ptEntry = NULL then NULL
  else (entryAt s.ram ptEntry &&& ADDRESS_MASK) ||| (virtAddr &&& 0xFFF)

/-! ### `boot.asm` -/

/-- `p3_table` and `p2_table`, which follow `p4_table` in `.bss`. -/
def p3Table (p4 : Nat) : Nat := p4 + PAGE_SIZE
def p2Table (p4 : Nat) : Nat := p4 + 2 * PAGE_SIZE

/-- The loop `.map_p2_table` from `ecx` on, with `n` entries to go. -/
def mapP2Table (p2 : Nat) : Nat → Nat → Store → Store
  | 0, _, m => m
  | n + 1, ecx, m =>
      mapP2Table p2 n (ecx + 1)
        (writeLE m (entryPtr p2 ecx) 4 (wmul 32 0x200000 ecx ||| 0b10000011))

/-- `setup_page_tables` stores the lower halves of the entries; `.bss` is zero. -/
def setupPageTables (p4 : Nat) (m : Store) : Store :=
  let m := writeLE m p4 4 (p3Table p4 ||| 0b11)
  let m := writeLE m (p3Table p4) 4 (p2Table p4 ||| 0b11)
  mapP2Table (p2Table p4) 512 0 m

/-- The memory map of `kernel_main`: 128 MB from 1 MB on. -/
def memMap : List MemoryMapEntry := [⟨0x100000, 128 * 1024 * 1024, 1⟩]

/-- The loader clears the three tables, `boot.asm` sets them up, and `kernel_main`
calls `paging_init`; `p4` is where the linker puts `p4_table`, the `boot_pml4`. -/
def pagingBoot (mmap : List MemoryMapEntry) (p4 : Nat) (ram : Store) : State :=
  pagingInit mmap p4
    ⟨setupPageTables p4 (fill ram p4 (3 * PAGE_SIZE) 0), ⟨0, 0, 0, 0, 0, NULL⟩, ⟨NULL⟩⟩

/-! ### Pages of the kernel -/

/-- With the static variable of `kmalloc_page`. -/
structure Kernel where
  mem : State
  kernelHeap : Nat

def kmallocPage (k : Kernel) : Nat × Kernel :=
  let (physAddr, mem) := pmmAllocPage k.mem
  if physAddr = NULL then (NULL, { k with mem := mem })
  else
    let (virtAddr, mem) := pagingMapPage physAddr k.kernelHeap PAGE_WRITABLE mem
    if virtAddr = NULL then (NULL, { k with mem := pmmFreePage physAddr mem })
    else (virtAddr, { mem := mem, kernelHeap := wadd 64 k.kernelHeap PAGE_SIZE })

def kfreePage (addr : Nat) (s : State) : State :=
  let physAddr := pagingGetPhysicalAddress addr s
  if physAddr = NULL then s else pmmFreePage physAddr (pagingUnmapPage addr s)

/-- The loop of `kfree_pages` from page `i` on, with `n` pages to go. -/
def kfreePagesLoop (addr : Nat) : Nat → Nat → State → State
  | 0, _, s => s
  | n + 1, i, s =>
      kfreePagesLoop addr n (i + 1) (kfreePage (wadd 64 addr (wmul 64 i PAGE_SIZE)) s)

def kfreePages (addr count : Nat) (s : State) : State := kfreePagesLoop addr count 0 s

/-- The loop of `kmalloc_pages` from page `i` on, with `n` pages to go. -/
def kmallocPagesLoop (firstPage : Nat) : Nat → Nat → State → Nat × State
  | 0, _, s => (firstPage, s)
  | n + 1, i, s =>
      let (physAddr, s) := pmmAllocPage s
      if physAddr = NULL then (NULL, kfreePages firstPage i s)
      else
        let virtAddr := wadd 64 firstPage (wmul 64 i PAGE_SIZE)
        let (mapped, s) := pagingMapPage physAddr virtAddr PAGE_WRITABLE s
        if mapped = NULL then (NULL, kfreePages firstPage i (pmmFreePage physAddr s))
        else kmallocPagesLoop firstPage n (i + 1) s

def kmallocPages (count : Nat) (k : Kernel) : Nat × Kernel :=
  let (firstPage, k) := kmallocPage k
  if firstPage = NULL then (NULL, k)
  else
    let (result, mem) := kmallocPagesLoop firstPage (count - 1) 1 k.mem
    (result, { k with mem := mem })

/-! ### Address spaces of user processes -/

/-- The loop of `paging_create_user_address_space` from entry `i` on, with `n` to go. -/
def copyKernelEntries (original new : Nat) : Nat → Nat → Store → Store
  | 0, _, m => m
  | n + 1, i, m =>
      copyKernelEntries original new n (i + 1)
        (setEntryAt m (entryPtr new i) (entryAt m (entryPtr original i)))

def pagingCreateUserAddressSpace (s : State) : Nat × State :=
  let (newPml4, s) := pmmAllocPage s
  if newPml4 = NULL then (NULL, s)
  else
    let ram := fill s.ram newPml4 PAGE_SIZE 0
    (newPml4, { s with ram := copyKernelEntries s.vmm.pml4 newPml4 256 256 ram })

def pagingAllocUserPage (userPml4 virtAddr flags : Nat) (s : State) : Nat × State :=
  if KERNEL_BASE ≤ virtAddr then (NULL, s)
  else
    let (physAddr, s) := pmmAllocPage s
    if physAddr = NULL then (NULL, s)
    else
      let originalPml4 := s.vmm.pml4
      let s := { s with vmm := { s.vmm with pml4 := userPml4 } }
      let (mappedAddr, s) := pagingMapPage physAddr virtAddr (flags ||| PAGE_USER) s
      let s := { s with vmm := { s.vmm with pml4 := originalPml4 } }
      if mappedAddr = NULL then (NULL, pmmFreePage physAddr s) else (mappedAddr, s)

def pagingFreeUserPage (userPml4 virtAddr : Nat) (s : State) : State :=
  let originalPml4 := s.vmm.pml4
  let s := { s with vmm := { s.vmm with pml4 := userPml4 } }
  let physAddr := pagingGetPhysicalAddress virtAddr s
  let s := pagingUnmapPage virtAddr s
  let s := if physAddr ≠ NULL then pmmFreePage physAddr s else s
  { s with vmm := { s.vmm with pml4 := originalPml4 } }

/-! ### Walks that allocate nothing -/

theorem pagingDescend_state (table index flags : Nat) (s : State) :
    (pagingDescend table index false flags s).2 = s := by
  simp only [pagingDescend]
  split <;> rfl

/-- Without `alloc`, a walk leaves the state alone. -/
theorem pagingWalk_state (virtAddr flags : Nat) (s : State) :
    (pagingWalk virtAddr false flags s).2 = s := by
  have keep : ∀ {table index : Nat} {t : State} {r : Option Nat × State},
      pagingDescend table index false flags t = r → r.2 = t := by
    rintro table index t r rfl
    exact pagingDescend_state table index flags t
  simp only [pagingWalk]
  split
  next _ h₁ => exact keep h₁
  next _ _ h₁ =>
    split
    next _ h₂ => exact (keep h₂).trans (keep h₁)
    next _ _ h₂ =>
      split
      next _ h₃ => exact (keep h₃).trans ((keep h₂).trans (keep h₁))
      next _ _ h₃ => exact (keep h₃).trans ((keep h₂).trans (keep h₁))

/-! ### Pages -/

theorem and_pageMask {addr : Nat} (h : addr < 2 ^ 64) :
    addr &&& PAGE_MASK = PAGE_SIZE * (addr / PAGE_SIZE) := by
  calc addr &&& PAGE_MASK = addr / 2 ^ 12 % 2 ^ 52 * 2 ^ 12 := land_field addr 12 52
    _ = PAGE_SIZE * (addr / PAGE_SIZE) := by
      simp only [PAGE_SIZE]
      omega

/-- The bits from 12 on are those of the page. -/
theorem shiftRight_page (addr j : Nat) :
    (PAGE_SIZE * (addr / PAGE_SIZE)) >>> (12 + j) = addr >>> (12 + j) := by
  have hpage : (PAGE_SIZE * (addr / PAGE_SIZE)) >>> 12 = addr >>> 12 := by
    simp only [Nat.shiftRight_eq_div_pow, PAGE_SIZE]
    omega
  rw [Nat.shiftRight_add, hpage, ← Nat.shiftRight_add]

/-- A walk depends on the page of the address only. -/
theorem pagingWalk_page (addr flags : Nat) (alloc : Bool) (s : State) :
    pagingWalk (PAGE_SIZE * (addr / PAGE_SIZE)) alloc flags s = pagingWalk addr alloc flags s := by
  simp only [pagingWalk]
  rw [shiftRight_page addr 27, shiftRight_page addr 18, shiftRight_page addr 9,
    shiftRight_page addr 0]

end Paging

end Curnel
