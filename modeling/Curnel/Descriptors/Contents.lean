/-
The buffers of the calls are objects of the heap.

A call gets its buffer from `kmalloc`, fills it, reads it back and gives it to `kfree`; so
does the rest of the kernel with its own blocks. Each of these is a step of the users of the
heap, hence of the objects in it, and leaves the objects of others as they are (`Spares`).
-/

import Curnel.Descriptors.Buffers
import Curnel.Memory.Contents

namespace Curnel.Descriptors

open Lib Lib.Bytes Lib.Word Lib.Objects
open Memory (objectsOf Uses HeapInv payloadBytes)

/-! ### Blocks that are spared -/

/-- All objects are what they were, but for the one at `own`. -/
structure Spares (own : Option Nat) (h h' : Memory.Heap) : Prop where
  heap : ∃ bs, HeapInv h' bs
  objects : ∀ p cells, objectsOf h p = some cells → own ≠ some p → objectsOf h' p = some cells

namespace Spares

variable {own : Option Nat} {h h' h'' : Memory.Heap}

theorem refl (own : Option Nat) (heap : ∃ bs, HeapInv h bs) : Spares own h h :=
  ⟨heap, fun _ _ hp _ => hp⟩

theorem trans (first : Spares own h h') (second : Spares own h' h'') : Spares own h h'' :=
  ⟨second.heap, fun p cells hp hne => second.objects p cells (first.objects p cells hp hne) hne⟩

theorem weaken (spares : Spares none h h') (own : Option Nat) : Spares own h h' :=
  ⟨spares.heap, fun p cells hp _ => spares.objects p cells hp (by simp)⟩

/-- A block that was free before belonged to nobody. -/
theorem fresh {p : Nat} (spares : Spares (some p) h h') (hfresh : p ∉ h.live) :
    Spares none h h' := by
  refine ⟨spares.heap, fun q cells hq _ => spares.objects q cells hq fun heq => ?_⟩
  cases heq
  rw [Memory.objectsOf_not_live hfresh] at hq
  cases hq

theorem of_uses {event : Event Nat UInt8} {bs : List FreeList.Block} (inv : HeapInv h bs)
    (step : Uses h event h') (hown : ∀ p, own ≠ some p → ¬ event.Changes p) : Spares own h h' := by
  obtain ⟨heap, objects⟩ := step.objects_step inv
  exact ⟨heap, fun p cells hp hne => objects.unchanged hp (hown p hne)⟩

end Spares

/-! ### What is held -/

theorem live_of_object {h : Memory.Heap} {p : Nat} {cells : List UInt8}
    (hp : objectsOf h p = some cells) : p ∈ h.live ∧ cells = payloadBytes h.state p := by
  unfold objectsOf at hp
  split at hp
  next hlive => exact ⟨hlive, (Option.some.inj hp).symm⟩
  next => cases hp

theorem length_payloadBytes (h : Memory.Heap) (p : Nat) :
    (payloadBytes h.state p).length = room p h := by
  rw [payloadBytes, Memory.length_readBytes]
  rfl

/-- A buffer is an object of its size. -/
theorem held_iff_object {kbuf : Buffer} {h : Memory.Heap} :
    Held kbuf h ↔ (∃ bs, HeapInv h bs) ∧
      ∃ cells, objectsOf h kbuf.ptr = some cells ∧ cells.length = kbuf.size := by
  constructor
  · intro held
    refine ⟨held.heap, _, Memory.objectsOf_live held.live, ?_⟩
    rw [length_payloadBytes, held.size_eq]
  · rintro ⟨heap, cells, hcells, hlength⟩
    obtain ⟨hlive, hpayload⟩ := live_of_object hcells
    exact ⟨heap, hlive, by rw [← hlength, hpayload, length_payloadBytes]⟩

theorem Spares.held {own : Option Nat} {h h' : Memory.Heap} {kbuf : Buffer}
    (spares : Spares own h h') (held : Held kbuf h) (hne : own ≠ some kbuf.ptr) :
    Held kbuf h' := by
  obtain ⟨-, cells, hcells, hlength⟩ := held_iff_object.mp held
  exact held_iff_object.mpr ⟨spares.heap, cells, spares.objects _ _ hcells hne, hlength⟩

/-- The buffer begins with `data`. -/
def Contains (kbuf : Buffer) (data : List UInt8) (h : Memory.Heap) : Prop :=
  ∃ rest, objectsOf h kbuf.ptr = some (data ++ rest)

theorem Spares.contains {own : Option Nat} {h h' : Memory.Heap} {kbuf : Buffer}
    {data : List UInt8} (spares : Spares own h h') (contains : Contains kbuf data h)
    (hne : own ≠ some kbuf.ptr) : Contains kbuf data h' := by
  obtain ⟨rest, hrest⟩ := contains
  exact ⟨rest, spares.objects _ _ hrest hne⟩

theorem loadBytes_eq {m : Store} {p n : Nat} (h : p + n ≤ 2 ^ 64) :
    loadBytes m p n = readBytes m p n := by
  refine List.map_congr_left fun j hj => ?_
  have hlt := List.mem_range.mp hj
  rw [wadd_of_lt (by omega)]

/-- What the kernel loads from a buffer is what it begins with. -/
theorem Contains.loadBytes {kbuf : Buffer} {data : List UInt8} {h : Memory.Heap}
    (contains : Contains kbuf data h) (held : Held kbuf h) (hfits : data.length ≤ kbuf.size) :
    loadBytes h.state.ram kbuf.ptr data.length = data := by
  obtain ⟨rest, hrest⟩ := contains
  obtain ⟨-, hcells⟩ := live_of_object hrest
  have hlength := congrArg List.length hcells
  have hbound := held.ptr_lt
  rw [length_payloadBytes, ← held.size_eq, List.length_append] at hlength
  rw [payloadBytes, ← room, ← held.size_eq, ← hlength, readBytes_add] at hcells
  rw [loadBytes_eq (by omega)]
  exact (List.append_inj hcells (by rw [Memory.length_readBytes])).1.symm

/-! ### The calls of a call -/

theorem spares_kmalloc {s s' : State} {kbuf : Buffer} {size : Nat}
    (heap : ∃ bs, HeapInv s.heap bs) (hsize : size < 2 ^ 64)
    (h : kmalloc size s = some (kbuf, s')) : Spares none s.heap s'.heap := by
  obtain ⟨bs, inv⟩ := heap
  unfold kmalloc at h
  split at h
  · cases h
  next ptr heap halloc =>
    cases h
    by_cases hnull : ptr = NULL
    · subst hnull
      simpa using Spares.of_uses inv (.refuse hsize halloc) fun _ _ hchanges => hchanges
    · rw [if_neg hnull]
      exact .of_uses inv (.alloc hsize halloc hnull) fun _ _ hchanges => hchanges

/-- A call that has its buffer frees it and returns. -/
theorem spares_release {s : State} {kbuf : Buffer} (held : Held kbuf s.heap) (result : Nat)
    (trace : List Access) :
    ∃ s', release kbuf result trace s = (.returned result, trace, s') ∧ OnlyHeap s s' ∧
      Spares (some kbuf.ptr) s.heap s'.heap := by
  obtain ⟨bs, inv⟩ := held.heap
  obtain ⟨s', hfree, -, -⟩ := kfree_held held
  refine ⟨s', release_eq hfree .., kfree_onlyHeap hfree, ?_⟩
  obtain ⟨heap, hrun, rfl⟩ := Option.map_eq_some_iff.mp hfree
  refine .of_uses inv (.free held.live hrun) fun p hne hchanges => hne ?_
  rw [show kbuf.ptr = p from hchanges]

/-- Bytes are put in the buffer. -/
theorem fill_spares {s : State} {kbuf : Buffer} (held : Held kbuf s.heap) {i : Nat}
    {bytes : List UInt8} (hfits : i + bytes.length ≤ kbuf.size) :
    Spares (some kbuf.ptr) s.heap (s.fill kbuf i bytes).heap ∧
      Held kbuf (s.fill kbuf i bytes).heap ∧
      ∃ old, objectsOf (s.fill kbuf i bytes).heap kbuf.ptr = some (splice old i bytes) := by
  obtain ⟨bs, inv⟩ := held.heap
  have hbound := held.ptr_lt
  have hroom : i + bytes.length ≤ room kbuf.ptr s.heap := by
    rw [← held.size_eq]
    exact hfits
  have hstore : (s.fill kbuf i bytes).heap
      = { s.heap with state.ram := writeBytes s.heap.state.ram (kbuf.ptr + i) bytes } := by
    unfold State.fill
    rw [storeBytes_eq (by omega)]
  have step : Uses s.heap (.store kbuf.ptr i bytes) (s.fill kbuf i bytes).heap := by
    rw [hstore]
    exact .store held.live hroom
  refine ⟨.of_uses inv step fun p hne hchanges => hne ?_, held.fill held hfits, ?_⟩
  · rw [show kbuf.ptr = p from hchanges]
  · obtain ⟨-, objects⟩ := step.objects_step inv
    obtain ⟨old, -, hnew⟩ := objects.stored
    exact ⟨old, hnew⟩

/-- Bytes at the front of the buffer are what it begins with. -/
theorem fill_contains {s : State} {kbuf : Buffer} (held : Held kbuf s.heap) {bytes : List UInt8}
    (hfits : bytes.length ≤ kbuf.size) :
    Spares (some kbuf.ptr) s.heap (s.fill kbuf 0 bytes).heap ∧
      Held kbuf (s.fill kbuf 0 bytes).heap ∧ Contains kbuf bytes (s.fill kbuf 0 bytes).heap := by
  obtain ⟨spares, held', old, hnew⟩ := @fill_spares s kbuf held 0 bytes (by omega)
  exact ⟨spares, held', old.drop (0 + bytes.length), hnew⟩

/-! ### The rest of the kernel -/

/-- The heap of the rest of the kernel is used like that of any user. -/
theorem Elsewhere.spares {s s' : State} {op : Background} (step : Elsewhere s op s')
    (heap : ∃ bs, HeapInv s.heap bs) :
    (∃ bs, HeapInv s'.heap bs) ∧ ∀ p cells, objectsOf s.heap p = some cells →
      op ≠ .heap (.kfree p) → op ≠ .store p → objectsOf s'.heap p = some cells := by
  obtain ⟨bs, inv⟩ := heap
  have same : ∀ p cells, objectsOf s.heap p = some cells → op ≠ .heap (.kfree p) →
      op ≠ .store p → objectsOf s.heap p = some cells := fun _ _ hp _ _ => hp
  cases step with
  | pipe _ => exact ⟨⟨bs, inv⟩, same⟩
  | user => exact ⟨⟨bs, inv⟩, same⟩
  | keys => exact ⟨⟨bs, inv⟩, same⟩
  | terminal => exact ⟨⟨bs, inv⟩, same⟩
  | heap step =>
      cases step with
      | memoryInit =>
          obtain ⟨heap, objects⟩ := (Uses.memoryInit s.heap).objects_step inv
          exact ⟨heap, fun p cells hp _ _ => objects.unchanged hp fun hchanges => hchanges⟩
      | kmallocNull hsize hrun =>
          obtain ⟨heap, objects⟩ := (Uses.refuse hsize hrun).objects_step inv
          exact ⟨heap, fun p cells hp _ _ => objects.unchanged hp fun hchanges => hchanges⟩
      | kmalloc hsize hrun hne =>
          obtain ⟨heap, objects⟩ := (Uses.alloc hsize hrun hne).objects_step inv
          exact ⟨heap, fun p cells hp _ _ => objects.unchanged hp fun hchanges => hchanges⟩
      | @kfree ptr t hptr hrun =>
          by_cases hlive : ptr ∈ s.heap.live
          · obtain ⟨heap, objects⟩ := (Uses.free hlive hrun).objects_step inv
            refine ⟨heap, fun p cells hp hkept _ => objects.unchanged hp fun hchanges => hkept ?_⟩
            rw [show ptr = p from hchanges]
          · obtain rfl := hptr.resolve_right hlive
            obtain ⟨heap, objects⟩ := (Uses.freeNull hrun).objects_step inv
            rw [Finset.erase_eq_of_notMem hlive]
            exact ⟨heap, fun p cells hp _ _ => objects.unchanged hp fun hchanges => hchanges⟩
  | @store ptr ram hlive frame =>
      -- a store of all bytes of the block
      have hram : ram = writeBytes s.heap.state.ram (ptr + 0)
          (readBytes ram ptr (room ptr s.heap)) := by
        funext x
        unfold writeBytes
        rw [Memory.length_readBytes, Nat.add_zero]
        split
        next hin =>
          have hget : (readBytes ram ptr (room ptr s.heap)).getD (x - ptr) 0
              = ram (ptr + (x - ptr)) := by
            have hlt : x - ptr < room ptr s.heap := by omega
            simp [readBytes, hlt]
          rw [hget, Nat.add_sub_cancel' hin.1]
        next hout => exact frame hout
      have step : Uses s.heap (.store ptr 0 (readBytes ram ptr (room ptr s.heap)))
          { s.heap with state.ram := ram } := by
        have hfits : 0 + (readBytes ram ptr (room ptr s.heap)).length
            ≤ Memory.blockSize s.heap.state.ram (ptr - Memory.sizeofMemoryBlock) := by
          rw [Memory.length_readBytes, Nat.zero_add]
          rfl
        have stores := Uses.store hlive hfits
        rwa [← hram] at stores
      obtain ⟨heap, objects⟩ := step.objects_step inv
      refine ⟨heap, fun p cells hp _ hkept => objects.unchanged hp fun hchanges => hkept ?_⟩
      rw [show ptr = p from hchanges]

end Curnel.Descriptors
