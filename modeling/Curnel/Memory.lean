/-
The kernel heap, `memory.c`: one linked list of blocks over a fixed arena.

A block is a `memory_block_t` header, kept in the arena itself, followed by its
payload: `size` (8 bytes), `is_free` (1 byte and 7 of padding) and the pointer
`next` (8 bytes). All of it is read and written as the code does, byte for byte
in the kernel's memory, so that nothing hides a header behind its block.

A list walk that does not reach a null pointer never returns; `none` stands for
that. `heapFuel` bounds a walk by the bytes of the arena, which no list of
distinct headers inside it exceeds.
-/

import Curnel.Lib.Bytes
import Curnel.Lib.Word

namespace Curnel

/-- The null pointer. -/
abbrev NULL : Nat := 0

end Curnel

namespace Curnel.Memory

open Lib.Bytes Lib.Word

def MEMORY_START : Nat := 0x100000
def MEMORY_SIZE : Nat := 0x100000
def BLOCK_SIZE : Nat := 4096

/-- `sizeof(memory_block_t)`. -/
def sizeofMemoryBlock : Nat := 24

/-- The kernel's memory and the static variables of `memory.c`. -/
structure State where
  ram : Store
  memoryStart : Nat
  memoryInitialized : Bool

/-! ### The fields of `memory_block_t` -/

def blockSize (m : Store) (block : Nat) : Nat := readLE m block 8
def blockIsFree (m : Store) (block : Nat) : Nat := readLE m (block + 8) 1
def blockNext (m : Store) (block : Nat) : Nat := readLE m (block + 16) 8

def setBlockSize (m : Store) (block size : Nat) : Store := writeLE m block 8 size
def setBlockIsFree (m : Store) (block isFree : Nat) : Store := writeLE m (block + 8) 1 isFree
def setBlockNext (m : Store) (block next : Nat) : Store := writeLE m (block + 16) 8 next

/-! ### The operations -/

def memoryInit (s : State) : State :=
  if s.memoryInitialized then s
  else
    let m := setBlockSize s.ram MEMORY_START (MEMORY_SIZE - sizeofMemoryBlock)
    let m := setBlockIsFree m MEMORY_START 1
    let m := setBlockNext m MEMORY_START NULL
    { ram := m, memoryStart := MEMORY_START, memoryInitialized := true }

/-- Cut the free block `current` down to `size` bytes; what is left becomes a
free block behind it. -/
def splitBlock (m : Store) (current size : Nat) : Store :=
  let newBlock := wadd 64 (wadd 64 current sizeofMemoryBlock) size
  let m := setBlockSize m newBlock (wsub 64 (wsub 64 (blockSize m current) size) sizeofMemoryBlock)
  let m := setBlockIsFree m newBlock 1
  let m := setBlockNext m newBlock (blockNext m current)
  let m := setBlockSize m current size
  setBlockNext m current newBlock

/-- The search loop of `kmalloc`, from the block `current` on. -/
def kmallocLoop (size : Nat) : Nat → Store → Nat → Option (Nat × Store)
  | 0, _, _ => none
  | fuel + 1, m, current =>
      if current = NULL then some (NULL, m)
      else if blockIsFree m current ≠ 0 ∧ size ≤ blockSize m current then
        let m :=
          if wadd 64 (wadd 64 size sizeofMemoryBlock) BLOCK_SIZE < blockSize m current then
            splitBlock m current size
          else m
        some (wadd 64 current sizeofMemoryBlock, setBlockIsFree m current 0)
      else kmallocLoop size fuel m (blockNext m current)

def heapFuel : Nat := MEMORY_SIZE

/-- Round up to a multiple of 8, in a 64-bit register. -/
def alignSize (size : Nat) : Nat :=
  if size % 8 ≠ 0 then wadd 64 size (8 - size % 8) else size

def kmalloc (size : Nat) (s : State) : Option (Nat × State) :=
  let s := if s.memoryInitialized then s else memoryInit s
  if size = 0 then some (NULL, s)
  else
    (kmallocLoop (alignSize size) heapFuel s.ram s.memoryStart).map fun out =>
      (out.1, { s with ram := out.2 })

/-- The merging loop of `kfree`, from the block `current` on. -/
def kfreeLoop : Nat → Store → Nat → Option Store
  | 0, _, _ => none
  | fuel + 1, m, current =>
      if current ≠ NULL ∧ blockNext m current ≠ NULL then
        let next := blockNext m current
        if blockIsFree m current ≠ 0 ∧ blockIsFree m next ≠ 0 then
          let m := setBlockSize m current
            (wadd 64 (wadd 64 (blockSize m current) sizeofMemoryBlock) (blockSize m next))
          let m := setBlockNext m current (blockNext m next)
          kfreeLoop fuel m current
        else kfreeLoop fuel m next
      else some m

def kfree (ptr : Nat) (s : State) : Option State :=
  if ptr = NULL ∨ s.memoryInitialized = false then some s
  else
    let block := wsub 64 ptr sizeofMemoryBlock
    let m := setBlockIsFree s.ram block 1
    (kfreeLoop heapFuel m s.memoryStart).map fun m => { s with ram := m }

end Curnel.Memory
