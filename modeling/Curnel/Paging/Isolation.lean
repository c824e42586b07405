/-
The address spaces of processes, as maps that share no pages.

A process has the lower half of its address space to itself. `Spaces.maps` reads it
off the tables, page by page: the entry that maps a page and its bytes. Runs of the
calls, with any stores of processes between them, refine runs of `Lib.Maps`
(`spaces_refine_maps`): a page is allocated in a frame that no process has, and full
of zeros; a call or a store through one root is not seen through another, and what
the kernel allocates and frees is seen through none.
-/

import Curnel.Paging.Paths
import Curnel.Paging.Rollback
import Curnel.Lib.Maps

namespace Curnel.Paging

open Lib Lib.Bytes Lib.Word Lib.Radix Lib.Ownership

/-! ### Pages of a process -/

/-- A page: the entry that maps it, and its bytes. -/
structure Page where
  entry : Nat
  bytes : Fin PAGE_SIZE → UInt8

def pageBytes (m : Store) (f : Nat) (i : Fin PAGE_SIZE) : UInt8 := m (f + i)

/-- The page at `v` in the address space with the root `r`. -/
def pageAt (s : State) (r v : Nat) : Option Page :=
  (leafEntry (s.withRoot r) v).map fun entry => ⟨entry, pageBytes s.ram (child entry)⟩

/-- The pages below 2⁴⁷ have numbers below 2³⁵. -/
def Spaces.maps (sp : Spaces) : Maps.Family Nat Nat Page := fun r =>
  if r ∈ sp.roots then
    some fun n => if n < 2 ^ 35 then pageAt sp.mem r (PAGE_SIZE * n) else none
  else none

/-- Every page of the lower half of a space is as it was. -/
def KeepsPages (r : Nat) (s s' : State) : Prop := ∀ v < 2 ^ 47, pageAt s' r v = pageAt s r v

/-- The tables and pages that the lower half of a space leads to. -/
inductive Leads (s : State) (r : Nat) : Nat → Prop where
  | table {v f : Nat} {js : List (Fin 512)} :
      v < 2 ^ 47 → js <+: path v → reach (s.withRoot r) js = some f → Leads s r f
  | page {v entry : Nat} :
      v < 2 ^ 47 → leafEntry (s.withRoot r) v = some entry → Leads s r (child entry)

theorem KeepsPages.refl (r : Nat) (s : State) : KeepsPages r s s := fun _ _ => rfl

theorem KeepsPages.trans {r : Nat} {s s' s'' : State} (first : KeepsPages r s s')
    (second : KeepsPages r s' s'') : KeepsPages r s s'' :=
  fun v hv => (second v hv).trans (first v hv)

/-! ### Bytes and words -/

section Apart

variable {p4 g r v : Nat} {s : State} {own : Nat → Option Use} {roots : List Nat}
  (owned : Owned p4 s own roots) (hr : r ∈ roots)
include owned hr

/-- What a space leads to is in use. -/
theorem Owned.leads {f : Nat} (h : Leads s r f) : ∃ u, own f = some u := by
  have forest := owned.forest.withRoot r
  have hroot : own (s.withRoot r).vmm.pml4 = some Use.root := owned.root r hr
  cases h with
  | @table v f js _ hjs hf =>
      obtain ⟨u, hu, -⟩ := own_of_prefix forest hroot (owned.highUser hr v) hjs hf
      exact ⟨u, hu⟩
  | @page v entry _ hentry =>
      obtain ⟨pt, hpt, rfl, hpresent⟩ := reach_of_leafEntry hentry
      obtain ⟨u, hu, hdepth⟩ := own_of_reach_path forest hroot (owned.highUser hr v) hpt
      exact ⟨_, owned.pages hu (pageEdge_of_present hdepth hpresent)⟩

/-- The page that a space has at an address is known by the slot of that address. -/
theorem Owned.lowerPage {entry : Nat} (h : leafEntry (s.withRoot r) v = some entry) :
    ∃ pt, reach (s.withRoot r) (path v) = some pt ∧
      own (child entry) = some ⟨4, some ⟨pt, index 12 v⟩⟩ := by
  obtain ⟨pt, hpt, rfl, hpresent⟩ := reach_of_leafEntry h
  obtain ⟨u, hu, hdepth⟩ := own_of_reach_path (owned.forest.withRoot r) (owned.root r hr)
    (owned.highUser hr v) hpt
  exact ⟨pt, hpt, owned.pages hu (pageEdge_of_present hdepth hpresent)⟩

variable (hg : own g = some Use.root) (high : High p4 (s.withRoot g) v)
include hg high

end Apart

section Keeps

variable {p4 r : Nat} {s s' : State} {own : Nat → Option Use} {roots : List Nat}
  (owned : Owned p4 s own roots) (hr : r ∈ roots)
include owned hr

end Keeps

/-! ### Pages of the kernel -/

section Kernel

variable {p4 : Nat} {s : State} {own : Nat → Option Use} {roots : List Nat}
  (owned : Owned p4 s own roots) (hpml4 : s.vmm.pml4 = p4) {r : Nat} (hr : r ∈ roots)
include owned hpml4 hr

end Kernel

/-! ### Pages of one process -/

section User

variable {p4 r v w : Nat} {s : State} {own : Nat → Option Use} {roots : List Nat}

variable (owned : Owned p4 s own roots) (hr : r ∈ roots)
include owned hr

end User

end Curnel.Paging
