/-
One role for each frame, over runs of the calls that allocate pages.

The kernel allocates and frees pages of its own, makes address spaces, and allocates
and frees pages in them. `HasRole` reads the role of a frame off the bitmap and the
tables of all roots; a slot in the upper half of a root that is a copy of the kernel's
counts as the kernel's. `one_role` says that no frame gets two roles, as long as no
page is allocated at the address 0 of a process: `paging_map_page` returns the
address it has mapped, and 0 means failure.
-/

import Curnel.Paging.Owners
import Mathlib.Order.Interval.Finset.Nat

namespace Curnel.Paging

open Lib Lib.Bytes Lib.Word Lib.Radix Lib.Ownership

/-! ### Calls -/

/-- The kernel, and the roots of the address spaces made so far. -/
structure Spaces where
  kernel : Kernel
  roots : List Nat

def Spaces.mem (sp : Spaces) : State := sp.kernel.mem

def Spaces.withMem (sp : Spaces) (s : State) : Spaces :=
  { sp with kernel := { sp.kernel with mem := s } }

inductive PageCall where
  | kmallocPage
  | kmallocPages (count : Nat)
  | kfreePage (addr : Nat)
  | kfreePages (addr count : Nat)
  | createUserAddressSpace
  | allocUserPage (userPml4 virtAddr flags : Nat)
  | freeUserPage (userPml4 virtAddr : Nat)

/-- Pages of the kernel's half, as `kmalloc_page` and `kmalloc_pages` return them. -/
def InKernelHalf (addr count : Nat) : Prop :=
  KERNEL_BASE ≤ addr ∧ addr + PAGE_SIZE * count ≤ 2 ^ 64

/-- Any calls, in any order. The kernel frees pages of its half, not necessarily live
ones, and pages of processes are allocated and freed at any address. -/
inductive PageCallStep : Spaces → PageCall → Spaces → Prop where
  | kmallocPage {sp : Spaces} :
      PageCallStep sp .kmallocPage { sp with kernel := (kmallocPage sp.kernel).2 }
  | kmallocPages {sp : Spaces} {count : Nat} :
      PageCallStep sp (.kmallocPages count) { sp with kernel := (kmallocPages count sp.kernel).2 }
  | kfreePage {sp : Spaces} {addr : Nat} : InKernelHalf addr 1 →
      PageCallStep sp (.kfreePage addr) (sp.withMem (kfreePage addr sp.mem))
  | kfreePages {sp : Spaces} {addr count : Nat} : InKernelHalf addr count →
      PageCallStep sp (.kfreePages addr count) (sp.withMem (kfreePages addr count sp.mem))
  | createUserAddressSpace {sp : Spaces} :
      (pagingCreateUserAddressSpace sp.mem).1 ≠ NULL →
      PageCallStep sp .createUserAddressSpace
        { sp.withMem (pagingCreateUserAddressSpace sp.mem).2 with
          roots := (pagingCreateUserAddressSpace sp.mem).1 :: sp.roots }
  | noUserAddressSpace {sp : Spaces} :
      (pagingCreateUserAddressSpace sp.mem).1 = NULL →
      PageCallStep sp .createUserAddressSpace
        (sp.withMem (pagingCreateUserAddressSpace sp.mem).2)
  | allocUserPage {sp : Spaces} {r v flags : Nat} : r ∈ sp.roots → v < 2 ^ 64 → flags < 2 ^ 64 →
      PageCallStep sp (.allocUserPage r v flags)
        (sp.withMem (pagingAllocUserPage r v flags sp.mem).2)
  | freeUserPage {sp : Spaces} {r v : Nat} : r ∈ sp.roots → v < 2 ^ 64 →
      PageCallStep sp (.freeUserPage r v) (sp.withMem (pagingFreeUserPage r v sp.mem))

/-- When a page may be allocated through the root of a state: it will not be, since the
address is the kernel's or mapped or there is no frame for the page; or it is not the
page at 0 that would be mapped, and the flags are no more than flags. -/
def MayAlloc (s : State) (v flags : Nat) : Prop :=
  KERNEL_BASE ≤ v ∨ Mapped s v ∨ freeCount s = 0 ∨
    (PAGE_SIZE ≤ v ∨ freeCount s ≤ missing s v) ∧ NoAddress flags ∧
      (Tabled s v ∨ flags &&& PAGE_SIZE_BIT = 0)

def Spaces.Meets (sp : Spaces) : PageCall → Prop
  | .allocUserPage r v flags => MayAlloc (sp.mem.withRoot r) v flags
  | _ => True

/-- The calls, as long as each meets the condition. -/
def Spaces.CarefulStep (sp : Spaces) (call : PageCall) (sp' : Spaces) : Prop :=
  PageCallStep sp call sp' ∧ sp.Meets call

/-- What `kernel_main` starts with. -/
def Spaces.start (mmap : List MemoryMapEntry) (p4 : Nat) (ram : Store) : Spaces :=
  ⟨⟨pagingBoot mmap p4 ram, KERNEL_BASE⟩, []⟩

/-! ### Roles -/

/-- The table or the page that a slot refers to. -/
def frameEdge (m : Store) (kernelRoot : Nat) (u : Use) (f : Nat) (i : Fin 512) :
    Option (Nat × Use) :=
  (tableEdge m kernelRoot u f i).or (pageEdge m u f i)

inductive Role where
  | free
  | used (u : Use)

/-- The frame at `f` is free in the bitmap, or the roots lead to it. -/
def Spaces.HasRole (sp : Spaces) (f : Nat) : Role → Prop
  | .free => ∃ k, f = PAGE_SIZE * k ∧ Free sp.mem k
  | .used u => Reached (frameEdge sp.mem.ram sp.mem.vmm.pml4)
      (fun r w => (r = sp.mem.vmm.pml4 ∨ r ∈ sp.roots) ∧ w = Use.root) f u

/-- Every frame has at most one role, no root was made twice, and a frame that is not
free is a whole page with its bit set. -/
structure Spaces.OneRole (sp : Spaces) : Prop where
  unique : ∀ f a b, sp.HasRole f a → sp.HasRole f b → a = b
  roots : (sp.mem.vmm.pml4 :: sp.roots).Nodup
  marked : ∀ f u, sp.HasRole f (.used u) →
    PAGE_SIZE ∣ f ∧ f / PAGE_SIZE < sp.mem.pmm.bitmapSize * 8 ∧
      bitmapBit sp.mem (f / PAGE_SIZE) ≠ 0

/-! ### The invariant -/

/-- Where `kmalloc_page` goes on: it stops for good when it has come to the end. -/
def HeapOk (heap : Nat) : Prop :=
  PAGE_SIZE ∣ heap ∧ (heap = 0 ∨ KERNEL_BASE ≤ heap ∧ heap < 2 ^ 64)

structure Spaces.Ok (p4 : Nat) (sp : Spaces) (own : Nat → Option Use) : Prop where
  owned : Owned p4 sp.mem own sp.roots
  pml4 : sp.mem.vmm.pml4 = p4
  heap : HeapOk sp.kernel.kernelHeap

/-- What the invariant says about roles. -/
theorem Spaces.Ok.oneRole {p4 : Nat} {sp : Spaces} {own : Nat → Option Use}
    (ok : sp.Ok p4 own) : sp.OneRole := by
  have forest := ok.owned.forest
  have typed : Typed (frameEdge sp.mem.ram sp.mem.vmm.pml4) own := by
    intro f u i g l hu hedge
    rw [ok.pml4] at hedge
    rcases Option.or_eq_some_iff.mp hedge with htable | ⟨-, hpage⟩
    · exact forest.typed hu htable
    · exact ok.owned.pages hu hpage
  have hroots : ∀ r w, (r = sp.mem.vmm.pml4 ∨ r ∈ sp.roots) ∧ w = Use.root → own r = some w := by
    rintro r w ⟨rfl | hr, rfl⟩
    · rw [ok.pml4]
      exact forest.root
    · exact ok.owned.root r hr
  have hused : ∀ {f u}, sp.HasRole f (.used u) → own f = some u := fun h =>
    typed.reached hroots h
  have hfree : ∀ {f u}, sp.HasRole f .free → ¬ sp.HasRole f (.used u) := by
    rintro f u ⟨k, rfl, hk⟩ h
    have hown := hused h
    rw [own_of_free forest hk] at hown
    cases hown
  refine ⟨fun f a b ha hb => ?_, ?_, fun f u h => ?_⟩
  · cases a with
    | free =>
        cases b with
        | free => rfl
        | used u => exact absurd hb (hfree ha)
    | used u =>
        cases b with
        | free => exact absurd ha (hfree hb)
        | used w => rw [Option.some.inj ((hused ha).symm.trans (hused hb))]
  · rw [ok.pml4]
    exact List.nodup_cons.mpr ⟨ok.owned.notKernel, ok.owned.nodup⟩
  · have hown := hused h
    obtain ⟨k, rfl⟩ := (forest.table f u hown).aligned
    have hcovered := forest.covered _ u hown
    refine ⟨dvd_mul_right _ _, hcovered, fun hclear => ?_⟩
    rw [Nat.mul_div_cancel_left k (by decide)] at hcovered hclear
    rw [own_of_free forest ⟨hcovered, hclear⟩] at hown
    cases hown

/-! ### A frame taken before the walk -/

section TakePage

variable {p4 k v : Nat} {s : State} {own : Nat → Option Use} (forest : Forest p4 s own)
  (hroot : own s.vmm.pml4 = some Use.root) (hfree : Free s k)
include forest hroot hfree

theorem tabled_takePage : Tabled (pmmTakePage k s).2 v ↔ Tabled s v := by
  have hsame := @reach_same p4 s (pmmTakePage k s).2 own forest hroot rfl (fun g u i hu =>
    tables_takePage forest.frames hfree (forest.table g u hu) i) (path v) (le_refl 3)
  unfold Tabled
  rw [hsame]

theorem mapped_takePage (high : High p4 s v) : Mapped (pmmTakePage k s).2 v ↔ Mapped s v := by
  have hsame := @leafEntry_same p4 v s (pmmTakePage k s).2 own forest hroot rfl (fun g u i hu =>
    tables_takePage forest.frames hfree (forest.table g u hu) i) high
  unfold Mapped
  rw [hsame]

theorem missing_takePage : missing (pmmTakePage k s).2 v = missing s v :=
  missing_same forest hroot rfl fun g u i hu =>
    tables_takePage forest.frames hfree (forest.table g u hu) i

end TakePage

/-! ### Pages of the kernel -/

theorem high_of_kernelBase {p4 v : Nat} {s : State} (hbase : KERNEL_BASE ≤ v) (hv : v < 2 ^ 64) :
    High p4 s v := by
  rintro ⟨-, htop, -⟩
  have hindex := index_val 39 v
  rw [htop, Fin.val_zero] at hindex
  simp only [KERNEL_BASE] at hbase
  omega

theorem aligned_page {v : Nat} (h : PAGE_SIZE ∣ v) : PAGE_SIZE * (v / PAGE_SIZE) = v :=
  Nat.mul_div_cancel' h

theorem kernelBase_ne_null {v : Nat} (h : KERNEL_BASE ≤ v) : v ≠ NULL := by
  simp only [KERNEL_BASE, NULL] at *
  omega

theorem heapOk_base : HeapOk KERNEL_BASE := ⟨by decide, Or.inr ⟨le_refl _, by decide⟩⟩

theorem heapOk_next {a : Nat} (hbase : KERNEL_BASE ≤ PAGE_SIZE * a) (hlt : PAGE_SIZE * a < 2 ^ 64) :
    HeapOk (wadd 64 (PAGE_SIZE * a) PAGE_SIZE) := by
  unfold wadd
  simp only [PAGE_SIZE] at hbase hlt ⊢
  rcases Nat.lt_or_ge (4096 * a + 4096) (2 ^ 64) with h | h
  · rw [Nat.add_comm, Nat.mod_eq_of_lt h]
    exact ⟨⟨a + 1, by simp only [PAGE_SIZE]; omega⟩, Or.inr ⟨by omega, h⟩⟩
  · have htop : 4096 + 4096 * a = 2 ^ 64 := by omega
    rw [htop, Nat.mod_self]
    exact ⟨dvd_zero _, Or.inl rfl⟩

namespace Owned

variable {p4 : Nat} {s : State} {own : Nat → Option Use} {roots : List Nat}
  (owned : Owned p4 s own roots) (hpml4 : s.vmm.pml4 = p4)
include owned hpml4

theorem kernelRoot : own s.vmm.pml4 = some Use.root := by
  rw [hpml4]
  exact owned.forest.root

theorem kfreePage {addr : Nat} (hbase : KERNEL_BASE ≤ addr) (haddr : addr < 2 ^ 64) :
    ∃ own', Owned p4 (kfreePage addr s) own' roots ∧ (Paging.kfreePage addr s).vmm = s.vmm := by
  have hroot := owned.kernelRoot hpml4
  have high : High p4 s addr := high_of_kernelBase hbase haddr
  obtain ⟨own', owned'⟩ := owned.freeMapped hroot high
  by_cases hnull : pagingGetPhysicalAddress addr s = NULL
  · have hbody : Paging.kfreePage addr s = s := if_pos hnull
    rw [hbody]
    exact ⟨own, owned, rfl⟩
  · have hbody : Paging.kfreePage addr s
        = pmmFreePage (pagingGetPhysicalAddress addr s) (pagingUnmapPage addr s) := if_neg hnull
    rw [if_pos hnull, ← hbody] at owned'
    refine ⟨own', owned', ?_⟩
    rw [hbody, pmmFreePage_vmm, pagingUnmapPage_vmm]

/-- Freeing pages of the kernel's half from page `i` on. -/
theorem kfreePagesLoop {addr n i : Nat} (h : InKernelHalf addr (i + n)) :
    ∃ own', Owned p4 (kfreePagesLoop addr n i s) own' roots ∧
      (Paging.kfreePagesLoop addr n i s).vmm = s.vmm := by
  induction n generalizing s own i with
  | zero => exact ⟨own, owned, rfl⟩
  | succ n ih =>
      obtain ⟨hbase, hend⟩ := h
      have hpage : wadd 64 addr (wmul 64 i PAGE_SIZE) = addr + PAGE_SIZE * i := by
        simp only [PAGE_SIZE] at hend ⊢
        rw [wmul_of_lt (by omega), wadd_of_lt (by omega), Nat.mul_comm]
      have hlt : addr + PAGE_SIZE * i < 2 ^ 64 := by
        simp only [PAGE_SIZE] at hend ⊢
        omega
      have hle : KERNEL_BASE ≤ addr + PAGE_SIZE * i := hbase.trans (Nat.le_add_right _ _)
      obtain ⟨own₁, owned₁, hvmm⟩ := owned.kfreePage hpml4 hle hlt
      rw [Paging.kfreePagesLoop, hpage]
      obtain ⟨own', owned', hvmm'⟩ := ih owned₁ (by rw [hvmm, hpml4])
        (i := i + 1) ⟨hbase, by rw [Nat.add_right_comm, Nat.add_assoc]; exact hend⟩
      exact ⟨own', owned', hvmm'.trans hvmm⟩

theorem kfreePages {addr count : Nat} (h : InKernelHalf addr count) :
    ∃ own', Owned p4 (kfreePages addr count s) own' roots ∧
      (Paging.kfreePages addr count s).vmm = s.vmm :=
  owned.kfreePagesLoop hpml4 (i := 0) (by rwa [Nat.zero_add])

/-- One page of the kernel at `v`: it is mapped, or the frame is given back. -/
theorem mapKernelPage {k v : Nat} (loose : Loose s own k) (hbase : KERNEL_BASE ≤ v)
    (hv : v < 2 ^ 64) :
    ∃ s' own', Owned p4 s' own' roots ∧ s'.vmm = s.vmm ∧
      (pagingMapPage (PAGE_SIZE * k) v PAGE_WRITABLE s = (NULL, s') ∧ Loose s' own' k ∧
          (freeCount s < missing s v ∨ Mapped s v) ∨
        pagingMapPage (PAGE_SIZE * k) v PAGE_WRITABLE s = (PAGE_SIZE * (v / PAGE_SIZE), s') ∧
          freeCount s' + missing s v = freeCount s ∧ ¬ Mapped s v ∧ Mapped s' v ∧
          AddsOnPath v s own s' own') :=
  owned.mapPage (owned.kernelRoot hpml4) (high_of_kernelBase hbase hv) loose hv
    (Or.inl plainFlags_writable) (Or.inl plainFlags_writable.1)

/-- The address 0 is in a large page, whose first word `paging_walk` takes for a leaf entry
at 0. -/
theorem mapPage_zero (physAddr flags : Nat) : pagingMapPage physAddr 0 flags s = (NULL, s) := by
  have hreach := reach_low owned.forest hpml4 (show InLargePages 0 by decide)
  have hwalk := @pagingWalk_found 0 flags _ true s hreach
  have hptr : entryPtr (0x200000 * (index 21 0 : Nat)) (index 12 0) = NULL := by decide
  rw [hptr] at hwalk
  simp only [pagingMapPage]
  rw [Nat.zero_and, hwalk]
  exact if_pos rfl

theorem kmallocPage {heap : Nat} (hheap : HeapOk heap) :
    ∃ result s' heap' own', Paging.kmallocPage ⟨s, heap⟩ = (result, ⟨s', heap'⟩) ∧
      Owned p4 s' own' roots ∧ s'.vmm = s.vmm ∧ HeapOk heap' ∧
      (result = NULL ∧ (heap = 0 ∨ freeCount s ≤ missing s heap ∨ Mapped s heap) ∨
        PAGE_SIZE ∣ result ∧ InKernelHalf result 1 ∧ result = heap ∧ Mapped s' heap ∧
          freeCount s' + missing s heap + 1 = freeCount s ∧ AddsOnPath heap s own s' own') := by
  have forest := owned.forest
  simp only [Paging.kmallocPage]
  rcases pmmAllocPage_spec forest.frames.addressable with ⟨hnone, hempty⟩ | ⟨k, hfree, htake⟩
  · rw [hnone, if_pos rfl]
    have hcount := freeCount_eq_zero_iff.mpr hempty
    exact ⟨_, _, _, own, rfl, owned, rfl, hheap,
      Or.inl ⟨rfl, Or.inr (Or.inl (hcount ▸ Nat.zero_le _))⟩⟩
  · obtain ⟨owned₁, loose₁⟩ := owned.takePage hfree
    have hnull := page_ne_null forest hfree
    have hpml4₁ : (pmmTakePage k s).2.vmm.pml4 = p4 := hpml4
    have hroot := owned.kernelRoot hpml4
    have hcount := takePage_freeCount forest.frames.addressable hfree
    have hmissing := @missing_takePage p4 k heap s own forest hroot hfree
    rw [htake, takePage_addr forest.frames.addressable hfree, if_neg hnull]
    obtain ⟨haligned, rfl | ⟨hbase, hlt⟩⟩ := hheap
    · rw [owned₁.mapPage_zero hpml4₁, if_pos rfl]
      exact ⟨_, _, _, own, rfl, owned₁.freePage loose₁, pmmFreePage_vmm _ _,
        ⟨haligned, Or.inl rfl⟩, Or.inl ⟨rfl, Or.inl rfl⟩⟩
    · have hmapped := @mapped_takePage p4 k heap s own forest hroot hfree
        (high_of_kernelBase hbase hlt)
      obtain ⟨s', own', owned', hvmm, ⟨hrun, loose', hwhy⟩ | ⟨hrun, hsum, -, hnew, hadds⟩⟩ :=
        owned₁.mapKernelPage hpml4₁ loose₁ hbase hlt
      · rw [hrun, if_pos rfl]
        refine ⟨_, _, _, own', rfl, owned'.freePage loose', ?_, ⟨haligned, Or.inr ⟨hbase, hlt⟩⟩,
          Or.inl ⟨rfl, Or.inr ?_⟩⟩
        · rw [pmmFreePage_vmm]
          exact hvmm
        · exact hwhy.imp (fun hshort => by omega) hmapped.mp
      · rw [hrun, aligned_page haligned, if_neg (kernelBase_ne_null hbase)]
        obtain ⟨a, rfl⟩ := haligned
        have hend : PAGE_SIZE * a + PAGE_SIZE * 1 ≤ 2 ^ 64 := by
          simp only [PAGE_SIZE] at hlt ⊢
          omega
        refine ⟨_, _, _, own', rfl, owned', hvmm, heapOk_next hbase hlt,
          Or.inr ⟨dvd_mul_right _ _, ⟨hbase, hend⟩, rfl, hnew, by dsimp only; omega,
            fun f u i hu hdepth hpresent => ?_⟩⟩
        refine (hadds f u i hu hdepth hpresent).imp_left fun hwas => ?_
        obtain ⟨hold, hthere⟩ := hwas
        rw [tables_takePage forest.frames hfree (forest.table f u hold)] at hthere
        exact ⟨hold, hthere⟩

/-- Mapping pages after `firstPage`, from page `i` on: all of them, or none is left. -/
theorem kmallocPagesLoop {firstPage n i : Nat} (haligned : PAGE_SIZE ∣ firstPage)
    (h : InKernelHalf firstPage i) :
    ∃ result s' own', Paging.kmallocPagesLoop firstPage n i s = (result, s') ∧
      Owned p4 s' own' roots ∧ s'.vmm = s.vmm ∧
      (result = NULL ∨ result = firstPage ∧ InKernelHalf firstPage (i + n)) := by
  induction n generalizing s own i with
  | zero => exact ⟨_, _, own, rfl, owned, rfl, Or.inr ⟨rfl, h⟩⟩
  | succ n ih =>
      have forest := owned.forest
      rw [Paging.kmallocPagesLoop]
      rcases pmmAllocPage_spec forest.frames.addressable with ⟨hnone, -⟩ | ⟨k, hfree, htake⟩
      · rw [hnone]
        obtain ⟨own', owned', hvmm⟩ := owned.kfreePages hpml4 h
        exact ⟨_, _, own', rfl, owned', hvmm, Or.inl rfl⟩
      obtain ⟨owned₁, loose₁⟩ := owned.takePage hfree
      have hpml4₁ : (pmmTakePage k s).2.vmm.pml4 = p4 := hpml4
      have hback : ∀ {s' own'}, Owned p4 s' own' roots → s'.vmm = s.vmm → Loose s' own' k →
          ∃ own'', Owned p4 (Paging.kfreePages firstPage i (pmmFreePage (PAGE_SIZE * k) s')) own''
              roots ∧
            (Paging.kfreePages firstPage i (pmmFreePage (PAGE_SIZE * k) s')).vmm = s.vmm := by
        intro s' own' owned' hvmm loose'
        obtain ⟨own'', owned'', hvmm'⟩ := (owned'.freePage loose').kfreePages
          (by rw [pmmFreePage_vmm, hvmm, hpml4]) h
        exact ⟨own'', owned'', by rw [hvmm', pmmFreePage_vmm, hvmm]⟩
      rw [htake]
      dsimp only
      rw [takePage_addr forest.frames.addressable hfree, if_neg (page_ne_null forest hfree)]
      obtain ⟨a, rfl⟩ := haligned
      obtain ⟨hbase, hend⟩ := h
      have hpage : wadd 64 (PAGE_SIZE * a) (wmul 64 i PAGE_SIZE) = PAGE_SIZE * (a + i) % 2 ^ 64 := by
        have hi : i * PAGE_SIZE < 2 ^ 64 := by
          simp only [PAGE_SIZE, KERNEL_BASE] at hbase hend ⊢
          omega
        rw [wmul_of_lt hi, wadd, Nat.mul_add, Nat.add_comm, Nat.mul_comm i]
      rw [hpage]
      rcases Nat.lt_or_ge (PAGE_SIZE * (a + i)) (2 ^ 64) with hlt | hge
      · rw [Nat.mod_eq_of_lt hlt]
        have hbase' : KERNEL_BASE ≤ PAGE_SIZE * (a + i) :=
          hbase.trans (Nat.mul_le_mul_left _ (Nat.le_add_right a i))
        obtain ⟨s', own', owned', hvmm, ⟨hrun, loose', -⟩ | ⟨hrun, -⟩⟩ :=
          owned₁.mapKernelPage hpml4₁ loose₁ hbase' hlt
        · rw [hrun, if_pos rfl]
          obtain ⟨own'', owned'', hvmm'⟩ := hback owned' hvmm loose'
          exact ⟨_, _, own'', rfl, owned'', hvmm', Or.inl rfl⟩
        · rw [hrun, aligned_page (dvd_mul_right _ _), if_neg (kernelBase_ne_null hbase')]
          have hend' : PAGE_SIZE * a + PAGE_SIZE * (i + 1) ≤ 2 ^ 64 := by
            simp only [PAGE_SIZE] at hlt ⊢
            omega
          have hpml4' : s'.vmm.pml4 = p4 := by
            rw [hvmm]
            exact hpml4
          obtain ⟨result, s'', own'', hrest, owned'', hvmm'', hresult⟩ :=
            ih owned' hpml4' (i := i + 1) ⟨hbase, hend'⟩
          refine ⟨result, s'', own'', hrest, owned'', hvmm''.trans hvmm, ?_⟩
          rw [← Nat.add_assoc, Nat.add_right_comm]
          exact hresult
      · -- past the last page, the address is 0
        have htop : PAGE_SIZE * (a + i) = 2 ^ 64 := by
          rw [Nat.mul_add] at hge ⊢
          exact le_antisymm hend hge
        rw [htop, Nat.mod_self, owned₁.mapPage_zero hpml4₁, if_pos rfl]
        obtain ⟨own'', owned'', hvmm'⟩ := hback owned₁ rfl loose₁
        exact ⟨_, _, own'', rfl, owned'', hvmm', Or.inl rfl⟩

/-- What `kmalloc_pages` returns are pages of the kernel's half. -/
theorem kmallocPages {heap n : Nat} (hheap : HeapOk heap) :
    ∃ result s' heap' own', Paging.kmallocPages n ⟨s, heap⟩ = (result, ⟨s', heap'⟩) ∧
      Owned p4 s' own' roots ∧ s'.vmm = s.vmm ∧ HeapOk heap' ∧
      (result = NULL ∨ PAGE_SIZE ∣ result ∧ InKernelHalf result n ∧ result = heap) := by
  obtain ⟨first, s₁, heap₁, own₁, hfirst, owned₁, hvmm₁, hheap₁, hresult⟩ :=
    owned.kmallocPage hpml4 hheap
  unfold Paging.kmallocPages
  rw [hfirst]
  dsimp only
  by_cases hnull : first = NULL
  · rw [if_pos hnull]
    exact ⟨_, _, _, own₁, rfl, owned₁, hvmm₁, hheap₁, Or.inl rfl⟩
  · rw [if_neg hnull]
    obtain ⟨haligned, hinside, hheap, -⟩ := hresult.resolve_left fun h => hnull h.1
    obtain ⟨result, s', own', hrest, owned', hvmm', hlast⟩ :=
      owned₁.kmallocPagesLoop (by rw [hvmm₁, hpml4]) (n := n - 1) haligned hinside
    rw [hrest]
    refine ⟨_, _, _, own', rfl, owned', hvmm'.trans hvmm₁, hheap₁, hlast.imp_right ?_⟩
    rintro ⟨rfl, hbase, hend⟩
    refine ⟨haligned, ⟨hbase, ?_⟩, hheap⟩
    simp only [PAGE_SIZE] at hend ⊢
    omega

/-! ### Pages of processes -/

end Owned

theorem pagingAllocUserPage_of_kernel {r v flags : Nat} {s : State} (hbase : KERNEL_BASE ≤ v) :
    pagingAllocUserPage r v flags s = (NULL, s) := if_pos hbase

section Body

variable {v : Nat} {s s₁ : State} (r flags : Nat) (hbase : ¬ KERNEL_BASE ≤ v)
include hbase

theorem pagingAllocUserPage_none (h : pmmAllocPage s = (NULL, s₁)) :
    pagingAllocUserPage r v flags s = (NULL, s₁) := by
  simp only [pagingAllocUserPage]
  rw [if_neg hbase, h]
  exact if_pos rfl

theorem pagingAllocUserPage_eq {p4 k : Nat} {own : Nat → Option Use} (forest : Forest p4 s own)
    (hfree : Free s k) (htake : pmmAllocPage s = pmmTakePage k s) :
    pagingAllocUserPage r v flags s =
      let (mapped, s') :=
        pagingMapPage (PAGE_SIZE * k) v (flags ||| PAGE_USER) ((pmmTakePage k s).2.withRoot r)
      if mapped = NULL then (NULL, pmmFreePage (PAGE_SIZE * k) (s'.withRoot s.vmm.pml4))
      else (mapped, s'.withRoot s.vmm.pml4) := by
  have haddr : pmmTakePage k s = (PAGE_SIZE * k, (pmmTakePage k s).2) :=
    Prod.ext (takePage_addr forest.frames.addressable hfree) rfl
  simp only [pagingAllocUserPage]
  rw [if_neg hbase, htake, haddr]
  exact if_neg (page_ne_null forest hfree)

end Body

namespace Owned

variable {p4 : Nat} {s : State} {own : Nat → Option Use} {roots : List Nat}
  (owned : Owned p4 s own roots)
include owned

/-- The frame is mapped at another address than 0, or it is loose again. -/
theorem mapUserPage {k v flags : Nat} (hroot : own s.vmm.pml4 = some Use.root)
    (high : High p4 s v) (hfree : Free s k) (hv : v < 2 ^ 64)
    (may : Mapped s v ∨ freeCount s = 0 ∨ (PAGE_SIZE ≤ v ∨ freeCount s ≤ missing s v) ∧
      NoAddress flags ∧ (Tabled s v ∨ flags &&& PAGE_SIZE_BIT = 0)) :
    ∃ s' own', Owned p4 s' own' roots ∧ s'.vmm = s.vmm ∧
      (pagingMapPage (PAGE_SIZE * k) v (flags ||| PAGE_USER) (pmmTakePage k s).2 = (NULL, s') ∧
          Loose s' own' k ∨
        ∃ a, a ≠ NULL ∧
          pagingMapPage (PAGE_SIZE * k) v (flags ||| PAGE_USER) (pmmTakePage k s).2
            = (a, s')) := by
  have forest := owned.forest
  obtain ⟨owned₁, loose₁⟩ := owned.takePage hfree
  have hcount := takePage_freeCount forest.frames.addressable hfree
  have hmissing := @missing_takePage p4 k v s own forest hroot hfree
  have hmapped := @mapped_takePage p4 k v s own forest hroot hfree high
  have htabled := @tabled_takePage p4 k v s own forest hroot hfree
  have htables : PlainFlags (flags ||| PAGE_USER) ∨ Tabled (pmmTakePage k s).2 v := by
    rcases may with ⟨entry, hentry⟩ | hnone | ⟨-, hflags, htables | hsize⟩
    · obtain ⟨pt, hpt, -, -⟩ := reach_of_leafEntry hentry
      exact Or.inr (htabled.mpr ⟨pt, hpt⟩)
    · omega
    · exact Or.inr (htabled.mpr htables)
    · exact Or.inl (PlainFlags.or ⟨hflags, hsize⟩ plainFlags_user)
  have hleaf : NoAddress (flags ||| PAGE_USER) ∨ Mapped (pmmTakePage k s).2 v := by
    rcases may with h | hnone | ⟨-, hflags, -⟩
    · exact Or.inr (hmapped.mpr h)
    · omega
    · exact Or.inl (hflags.or plainFlags_user.1)
  obtain ⟨s', own', owned', hvmm, ⟨hrun, loose', -⟩ | ⟨hrun, henough, hunmapped, -⟩⟩ :=
    owned₁.mapPage hroot high loose₁ hv htables hleaf
  · exact ⟨s', own', owned', hvmm, Or.inl ⟨hrun, loose'⟩⟩
  · refine ⟨s', own', owned', hvmm, Or.inr ⟨_, ?_, hrun⟩⟩
    rcases may with h | hnone | ⟨hpage | hshort, -⟩
    · exact absurd (hmapped.mpr h) hunmapped
    · omega
    · simp only [PAGE_SIZE, NULL] at hpage ⊢
      omega
    · omega

theorem highUser {r : Nat} (hr : r ∈ roots) (v : Nat) : High p4 (s.withRoot r) v := by
  rintro ⟨hroot, -⟩
  have hsame : r = p4 := hroot
  exact owned.notKernel (hsame ▸ hr)

theorem freeUserPage {r : Nat} (hr : r ∈ roots) (v : Nat) :
    ∃ own', Owned p4 (pagingFreeUserPage r v s) own' roots ∧
      (pagingFreeUserPage r v s).vmm = s.vmm := by
  obtain ⟨own', owned'⟩ := (owned.withRoot r).freeMapped (owned.root r hr) (owned.highUser hr v)
  exact ⟨own', owned'.withRoot s.vmm.pml4, rfl⟩

/-- A page for a process: one is mapped, or the frame is given back. -/
theorem allocUserPage {r v flags : Nat} (hr : r ∈ roots) (hv : v < 2 ^ 64)
    (may : MayAlloc (s.withRoot r) v flags) :
    ∃ own', Owned p4 (pagingAllocUserPage r v flags s).2 own' roots ∧
      (pagingAllocUserPage r v flags s).2.vmm = s.vmm := by
  have forest := owned.forest
  by_cases hbase : KERNEL_BASE ≤ v
  · rw [pagingAllocUserPage_of_kernel hbase]
    exact ⟨own, owned, rfl⟩
  rcases pmmAllocPage_spec forest.frames.addressable with ⟨hnone, -⟩ | ⟨k, hfree, htake⟩
  · rw [pagingAllocUserPage_none r flags hbase hnone]
    exact ⟨own, owned, rfl⟩
  have hbody := pagingAllocUserPage_eq r flags hbase forest hfree htake
  obtain ⟨s', own', owned', hvmm, hrun⟩ := (owned.withRoot r).mapUserPage (owned.root r hr)
    (owned.highUser hr v) hfree hv (may.resolve_left hbase)
  change _ ∧ _ ∨ ∃ a, a ≠ NULL ∧ pagingMapPage _ _ _ ((pmmTakePage k s).2.withRoot r) = _ at hrun
  have hback : (s'.withRoot s.vmm.pml4).vmm = s.vmm := rfl
  rcases hrun with ⟨hrun, loose'⟩ | ⟨a, ha, hrun⟩
  · change pagingMapPage _ _ _ ((pmmTakePage k s).2.withRoot r) = _ at hrun
    rw [hbody, hrun]
    dsimp only
    rw [if_pos rfl]
    exact ⟨own', (owned'.withRoot s.vmm.pml4).freePage (loose'.withRoot _),
      pmmFreePage_vmm _ _⟩
  · rw [hbody, hrun]
    dsimp only
    rw [if_neg ha]
    exact ⟨own', owned'.withRoot s.vmm.pml4, hback⟩

end Owned

/-! ### Runs -/

theorem Spaces.ok_start {mmap : List MemoryMapEntry} {p4 : Nat} {ram : Store}
    (layout : BootLayout mmap p4 ram) : (Spaces.start mmap p4 ram).Ok p4 (bootUses p4) := by
  refine ⟨⟨forest_pagingBoot layout, fun f u i g l hu hedge => ?_, fun r hr => ?_,
    List.not_mem_nil, List.nodup_nil⟩, rfl, ?_⟩
  · -- the boot tables are no leaf tables
    have hdepth := (pageEdge_eq_some hedge).1
    rcases bootUses_eq_some hu with ⟨-, rfl⟩ | ⟨-, rfl⟩ | ⟨-, rfl⟩ <;> cases hdepth
  · cases hr
  · exact heapOk_base

/-- One call. -/
theorem Spaces.ok_step {p4 : Nat} {sp sp' : Spaces} {call : PageCall}
    (ok : ∃ own, sp.Ok p4 own) (step : sp.CarefulStep call sp') : ∃ own, sp'.Ok p4 own := by
  obtain ⟨own, ok⟩ := ok
  obtain ⟨owned, hpml4, hheap⟩ := ok
  obtain ⟨call, meets⟩ := step
  have keep : ∀ {s' : State}, (∃ own', Owned p4 s' own' sp.roots ∧ s'.vmm = sp.mem.vmm) →
      ∃ own', (sp.withMem s').Ok p4 own' := by
    rintro s' ⟨own', owned', hvmm⟩
    exact ⟨own', owned', (congrArg VirtualMemoryManager.pml4 hvmm).trans hpml4, hheap⟩
  cases call with
  | kmallocPage =>
      obtain ⟨result, s', heap', own', hrun, owned', hvmm, hheap', -⟩ :=
        owned.kmallocPage hpml4 hheap
      change Paging.kmallocPage sp.kernel = _ at hrun
      rw [hrun]
      exact ⟨own', owned', (congrArg VirtualMemoryManager.pml4 hvmm).trans hpml4, hheap'⟩
  | @kmallocPages count =>
      obtain ⟨result, s', heap', own', hrun, owned', hvmm, hheap', -⟩ :=
        owned.kmallocPages hpml4 (n := count) hheap
      change Paging.kmallocPages count sp.kernel = _ at hrun
      rw [hrun]
      exact ⟨own', owned', (congrArg VirtualMemoryManager.pml4 hvmm).trans hpml4, hheap'⟩
  | kfreePage h =>
      have hlt : _ < 2 ^ 64 := lt_of_lt_of_le (Nat.lt_add_of_pos_right (by decide)) h.2
      exact keep (owned.kfreePage hpml4 h.1 hlt)
  | kfreePages h => exact keep (owned.kfreePages hpml4 h)
  | createUserAddressSpace hmade =>
      rcases owned.createUserAddressSpace hpml4 with
        ⟨hnone, -⟩ | ⟨r, s', own', hrun, -, hvmm, owned', -⟩
      · rw [hnone] at hmade
        exact absurd rfl hmade
      · rw [hrun]
        exact ⟨own', owned', (congrArg VirtualMemoryManager.pml4 hvmm).trans hpml4, hheap⟩
  | noUserAddressSpace hnone =>
      rcases owned.createUserAddressSpace hpml4 with
        ⟨hrun, -⟩ | ⟨r, s', own', hrun, hr, -⟩
      · rw [hrun]
        exact keep ⟨own, owned, rfl⟩
      · rw [hrun] at hnone
        exact absurd hnone hr
  | allocUserPage hr hv _ => exact keep (owned.allocUserPage hr hv meets)
  | freeUserPage hr _ => exact keep (owned.freeUserPage hr _)

/-! ### The page at 0 -/

/-- What a walk reads, the roots lead to. -/
theorem reached_of_reach {p4 v : Nat} {s : State} {own : Nat → Option Use} {R : Nat → Use → Prop}
    (forest : Forest p4 s own) (hroot : own s.vmm.pml4 = some Use.root)
    (hR : R s.vmm.pml4 Use.root) (high : High p4 s v) {is : List (Fin 512)} {f : Nat}
    (his : is <+: path v) (h : reach s is = some f) :
    ∃ u, u.depth = is.length ∧ own f = some u ∧ Reached (frameEdge s.ram p4) R f u := by
  induction is using List.reverseRecOn generalizing f with
  | nil =>
      cases h
      exact ⟨Use.root, rfl, hroot, .root hR⟩
  | append_singleton ks k ih =>
      obtain ⟨g, hg, hpresent, rfl⟩ := follow_concat_eq_some h
      have hlen := length_of_prefix_concat his
      obtain ⟨u, hdepth, hu, hreached⟩ := ih ((List.prefix_append ks [k]).trans his) hg
      have hlarge := prefix_ne_large forest hroot high his hg
      have hlinks := forest.plain g u k hu (by omega) hlarge hpresent
      have hedge : frameEdge s.ram p4 u g k
          = some (child (tables s.ram g k), ⟨u.depth + 1, some (slotOf s.ram p4 u g k)⟩) := by
        unfold frameEdge
        rw [tableEdge_of_links (by omega) hlinks]
        rfl
      refine ⟨_, ?_, forest.next hu (by omega) hlarge hpresent, .slot hreached hedge⟩
      rw [List.length_append, List.length_singleton, hdepth]

/-- The page that an address is mapped to, the roots lead to. -/
theorem reached_of_leafEntry {p4 v entry : Nat} {s : State} {own : Nat → Option Use}
    {R : Nat → Use → Prop} (forest : Forest p4 s own) (hroot : own s.vmm.pml4 = some Use.root)
    (hR : R s.vmm.pml4 Use.root) (high : High p4 s v) (h : leafEntry s v = some entry) :
    ∃ u, Reached (frameEdge s.ram p4) R (child entry) u := by
  obtain ⟨pt, hpt, rfl, hpresent⟩ := reach_of_leafEntry h
  obtain ⟨u, hdepth, -, hreached⟩ :=
    reached_of_reach forest hroot hR high List.prefix_rfl hpt
  change u.depth = 3 at hdepth
  have hedge : frameEdge s.ram p4 u pt (index 12 v)
      = some (child (tables s.ram pt (index 12 v)), ⟨4, some ⟨pt, index 12 v⟩⟩) := by
    unfold frameEdge tableEdge
    rw [if_neg fun hlt => absurd hlt.1 (by omega)]
    exact pageEdge_of_present hdepth hpresent
  exact ⟨_, .slot hreached hedge⟩

theorem pmmFreePage_withRoot (addr r : Nat) (s : State) :
    pmmFreePage addr (s.withRoot r) = (pmmFreePage addr s).withRoot r := by
  unfold pmmFreePage
  split
  · rfl
  · change (if bitmapBit s _ = 0 then _ else _) = _
    split
    · rfl
    · rfl

/-- A page for a process, once it has its frame: the state in which the walk ends, and whether the
frame is given back there. At the address 0 it is given back with its entry in place. -/
theorem Owned.alloc_taken {p4 r v flags k : Nat} {s : State} {own : Nat → Option Use}
    {roots : List Nat} (owned : Owned p4 s own roots) (hpml4 : s.vmm.pml4 = p4) (hr : r ∈ roots)
    (hv : v < 2 ^ 64) (hbase : ¬ KERNEL_BASE ≤ v)
    (hflags : PlainFlags flags ∨ Tabled (s.withRoot r) v) (hfree : Free s k)
    (htake : pmmAllocPage s = pmmTakePage k s) :
    ∃ s' own', Extends p4 v (flags ||| PAGE_USER) (pmmTakePage k (s.withRoot r)).2 own s' own' ∧
      (Tabled (s.withRoot r) v → s' = (pmmTakePage k (s.withRoot r)).2 ∧ own' = own) ∧
      ((freeCount s ≤ missing (s.withRoot r) v ∨ Mapped (s.withRoot r) v) ∧
          (pagingAllocUserPage r v flags s).2 = pmmFreePage (PAGE_SIZE * k) (s'.withRoot p4) ∨
        missing (s.withRoot r) v < freeCount s ∧ ¬ Mapped (s.withRoot r) v ∧
          ∃ pt, reach s' (path v) = some pt ∧ present (tables s'.ram pt (index 12 v)) = false ∧
            (pagingAllocUserPage r v flags s).2 =
              let mapped := (setEntry s' pt (index 12 v) (pagingMakeEntry (PAGE_SIZE * k)
                (PAGE_PRESENT ||| (flags ||| PAGE_USER)))).withRoot p4
              if v < PAGE_SIZE then pmmFreePage (PAGE_SIZE * k) mapped else mapped) := by
  have hroot : own (s.withRoot r).vmm.pml4 = some Use.root := owned.root r hr
  have high := owned.highUser hr v
  have hbody := pagingAllocUserPage_eq r flags hbase owned.forest hfree htake
  rw [hpml4] at hbody
  have rooted := owned.withRoot r
  obtain ⟨owned₁, -⟩ := rooted.takePage (k := k) hfree
  have hcount : freeCount (pmmTakePage k (s.withRoot r)).2 + 1 = freeCount s :=
    takePage_freeCount rooted.forest.frames.addressable hfree
  have hmissing := @missing_takePage p4 k v _ own rooted.forest hroot hfree
  have hmapped := @mapped_takePage p4 k v _ own rooted.forest hroot hfree high
  have htabled := @tabled_takePage p4 k v _ own rooted.forest hroot hfree
  have huser : PlainFlags (flags ||| PAGE_USER) ∨ _ :=
    hflags.imp (fun h => h.or plainFlags_user) htabled.mpr
  obtain ⟨s', own', ext, hsame, hrun⟩ := pagingMapPage_extends owned₁.forest hroot high huser
    (PAGE_SIZE * k) hv
  refine ⟨s', own', ext, fun h => hsame (htabled.mpr h), ?_⟩
  have gives_up : pagingMapPage (PAGE_SIZE * k) v (flags ||| PAGE_USER)
      (pmmTakePage k (s.withRoot r)).2 = (NULL, s') → (pagingAllocUserPage r v flags s).2
        = pmmFreePage (PAGE_SIZE * k) (s'.withRoot p4) := by
    intro hrun
    change pagingMapPage _ _ _ ((pmmTakePage k s).2.withRoot r) = _ at hrun
    rw [hbody, hrun]
    dsimp only
    rw [if_pos rfl]
  rcases hrun with ⟨hrun, hshort⟩ | ⟨hrun, -, hwas⟩ | ⟨hsum, hunmapped, pt, hpt, habsent, hrun⟩
  · exact Or.inl ⟨Or.inl (by omega), gives_up hrun⟩
  · exact Or.inl ⟨Or.inr (hmapped.mp hwas), gives_up hrun⟩
  · refine Or.inr ⟨by omega, fun h => hunmapped (hmapped.mpr h), pt, hpt, habsent, ?_⟩
    change pagingMapPage _ _ _ ((pmmTakePage k s).2.withRoot r) = _ at hrun
    rw [hbody, hrun]
    dsimp only
    -- `paging_map_page` answers with the page, which may be `NULL`
    by_cases hpage : v < PAGE_SIZE
    · have hnull : PAGE_SIZE * (v / PAGE_SIZE) = NULL := by
        rw [Nat.div_eq_of_lt hpage]
        rfl
      rw [if_pos hnull, if_pos hpage]
    · have hnonzero : PAGE_SIZE * (v / PAGE_SIZE) ≠ NULL := by
        simp only [PAGE_SIZE, NULL] at hpage ⊢
        omega
      rw [if_neg hnonzero, if_neg hpage]

/-- From `s` to `s'`, the frame `k` is mapped at `v` through the root `r`, and stays free. -/
structure Strays (p4 r v k : Nat) (s : State) (own : Nat → Option Use) (s' : State)
    (own' : Nat → Option Use) : Prop where
  forest : Forest p4 s' own'
  owns : ∀ f u, own f = some u → own' f = some u
  kept : ∀ f u i, own f = some u → present (tables s.ram f i) = true →
    tables s'.ram f i = tables s.ram f i
  unused : own' (PAGE_SIZE * k) = none
  free : ∀ j, Free s' j → Free s j
  again : Free s' k
  mapped : ∃ entry, leafEntry (s'.withRoot r) v = some entry ∧ child entry = PAGE_SIZE * k

/-- The frame of a page allocated at the address 0 of a process is mapped, and given back. -/
theorem Spaces.Ok.strays {p4 r v flags k : Nat} {sp : Spaces} {own : Nat → Option Use}
    (ok : sp.Ok p4 own) (hr : r ∈ sp.roots) (hv : v < PAGE_SIZE) (hflags : PlainFlags flags)
    (hunmapped : ¬ Mapped (sp.mem.withRoot r) v)
    (henough : missing (sp.mem.withRoot r) v < freeCount sp.mem) (hfree : Free sp.mem k)
    (htake : pmmAllocPage sp.mem = pmmTakePage k sp.mem) :
    (pagingAllocUserPage r v flags sp.mem).2.vmm.pml4 = p4 ∧
      ∃ own', Strays p4 r v k sp.mem own (pagingAllocUserPage r v flags sp.mem).2 own' := by
  have owned := ok.owned
  have forest := owned.forest
  set s := sp.mem with hs
  have hbase : ¬ KERNEL_BASE ≤ v := by
    simp only [KERNEL_BASE, PAGE_SIZE] at hv ⊢
    omega
  have hv' : v < 2 ^ 64 := lt_of_lt_of_le hv (by decide)
  -- the walk through the root
  have rooted := owned.withRoot r
  have hroot : own (s.withRoot r).vmm.pml4 = some Use.root := owned.root r hr
  have high := owned.highUser hr v
  obtain ⟨-, loose₁⟩ := rooted.takePage (k := k) hfree
  have hplain := hflags.or plainFlags_user
  obtain ⟨s', own', ext, -, ⟨hwhy, -⟩ | ⟨-, -, pt, hpt, habsent, hresult⟩⟩ :=
    owned.alloc_taken ok.pml4 hr hv' hbase (Or.inl hflags) hfree htake
  · rcases hwhy with hshort | hmapped
    · omega
    · exact absurd hmapped hunmapped
  dsimp only at hresult
  rw [if_pos hv, pmmFreePage_withRoot] at hresult
  -- the leaf entry refers to the frame, which is given back
  have hroot' := ext.root hroot
  have high' := ext.high high
  obtain ⟨u, hu, hdepth⟩ := own_of_reach_path ext.forest hroot' high' hpt
  have loose := loose₁.extend ext
  have hk : k < 2 ^ 40 := lt_of_lt_of_le hfree.1 forest.frames.bound
  set entry := pagingMakeEntry (PAGE_SIZE * k) (PAGE_PRESENT ||| (flags ||| PAGE_USER)) with hentry
  have hpresent : present entry = true := present_makeEntry _ _
  have hchild : child entry = PAGE_SIZE * k :=
    child_makeEntry hk (plainFlags_present.or hplain).1
  have hlt : entry < 2 ^ 64 := makeEntry_lt hk (plainFlags_present.or hplain).1.1
  have forest₂ := ext.forest.setLeaf (i := index 12 v) hu hdepth hlt fun h => by
    rw [hpresent] at h
    cases h
  have hleaf₂ := leafEntry_setEntry ext.forest hroot' high' hpt habsent hlt hpresent
  have htable := ext.forest.table pt u hu
  have hslots : ∀ f w i, own f = some w → present (tables s.ram f i) = true →
      tables (setEntry s' pt (index 12 v) entry).ram f i = tables s.ram f i := by
    intro f w i hw hthere
    have htaken : tables (pmmTakePage k (s.withRoot r)).2.ram f i = tables s.ram f i :=
      tables_takePage forest.frames hfree (forest.table f w hw) i
    have hgrown := ext.slot_present hw (by rw [htaken]; exact hthere)
    rw [tables_setEntry_other htable.aligned (forest.table f w hw).aligned, hgrown, htaken]
    rintro ⟨rfl, rfl⟩
    rw [hgrown, htaken, hthere] at habsent
    cases habsent
  have hfree₂ : ∀ j, Free (setEntry s' pt (index 12 v) entry) j → Free s j := by
    intro j hj
    have htaken := ext.free j ((free_setEntry htable j).mp hj)
    exact ((takePage_free rooted.forest.frames.addressable hfree j).mp htaken).1
  set s₂ := setEntry s' pt (index 12 v) entry with hs₂
  have hcovered : k < s₂.pmm.bitmapSize * 8 := loose.covered
  have forest₃ := forest₂.freePage hcovered loose.nonzero loose.unused loose.table.clear
  have hkeep : ∀ f w i, own' f = some w →
      tables (pmmFreePage (PAGE_SIZE * k) s₂).ram f i = tables s₂.ram f i :=
    fun f w i hw => tables_freePage hcovered (forest₂.table f w hw) i
  have hleaf₃ : leafEntry (pmmFreePage (PAGE_SIZE * k) s₂) v = some entry := by
    rw [leafEntry_same forest₂ hroot' (pmmFreePage_vmm _ _) hkeep high']
    exact hleaf₂
  have hvmm₃ : (pmmFreePage (PAGE_SIZE * k) s₂).vmm.pml4 = r := by
    rw [pmmFreePage_vmm]
    exact congrArg VirtualMemoryManager.pml4 ext.vmm
  rw [hresult]
  refine ⟨rfl, own', ?_⟩
  exact
    { forest := forest₃.withRoot p4
      owns := fun f w h => ext.owns f w h
      kept := fun f w i hw hthere =>
        (hkeep f w i (ext.owns f w hw)).trans (hslots f w i hw hthere)
      unused := loose.unused
      free := fun j hj => by
        rcases (freePage_free hcovered j).mp hj with hj | rfl
        · exact hfree₂ j hj
        · exact hfree
      again := (freePage_free hcovered k).mpr (Or.inr rfl)
      mapped := by
        refine ⟨entry, ?_, hchild⟩
        have hvia : ((pmmFreePage (PAGE_SIZE * k) s₂).withRoot p4).withRoot r
            = pmmFreePage (PAGE_SIZE * k) s₂ := by
          rw [← hvmm₃]
          rfl
        rw [hvia]
        exact hleaf₃ }

/-- A page allocated at the address 0 of a process is mapped and free. -/
theorem Spaces.Ok.roles_clash {p4 r v flags : Nat} {sp : Spaces} {own : Nat → Option Use}
    (ok : sp.Ok p4 own) (hr : r ∈ sp.roots) (hv : v < PAGE_SIZE) (hflags : PlainFlags flags)
    (hunmapped : ¬ Mapped (sp.mem.withRoot r) v)
    (henough : missing (sp.mem.withRoot r) v < freeCount sp.mem) :
    ¬ (sp.withMem (pagingAllocUserPage r v flags sp.mem).2).OneRole := by
  have owned := ok.owned
  rcases pmmAllocPage_spec owned.forest.frames.addressable with ⟨-, hnone⟩ | ⟨k, hfree, htake⟩
  · rw [freeCount_eq_zero_iff.mpr hnone] at henough
    exact absurd henough (Nat.not_lt_zero _)
  obtain ⟨hpml4, own', strays⟩ := ok.strays hr hv hflags hunmapped henough hfree htake
  generalize (pagingAllocUserPage r v flags sp.mem).2 = s' at hpml4 strays ⊢
  intro one
  obtain ⟨entry, hentry, hchild⟩ := strays.mapped
  have high : High p4 (s'.withRoot r) v := by
    rintro ⟨hsame, -⟩
    exact owned.notKernel (hsame ▸ hr)
  obtain ⟨w, hreached⟩ := reached_of_leafEntry
    (R := fun g u => (g = p4 ∨ g ∈ sp.roots) ∧ u = Use.root) (strays.forest.withRoot r)
    (strays.owns r _ (owned.root r hr)) ⟨Or.inr hr, rfl⟩ high hentry
  rw [hchild] at hreached
  have hused : (sp.withMem s').HasRole (PAGE_SIZE * k) (.used w) := by
    change Reached (frameEdge s'.ram s'.vmm.pml4) (fun g u => (g = s'.vmm.pml4 ∨ _) ∧ _) _ w
    rw [hpml4]
    exact hreached
  have hboth := one.unique (PAGE_SIZE * k) .free (.used w) ⟨k, rfl, strays.again⟩ hused
  cases hboth

/-- **One role for each frame.** In every state that the calls reach from the boot, as long as
each allocation for a process meets the condition, failing calls included. The next one
with plain flags keeps it that way exactly when it meets the condition too. -/
theorem one_role {mmap : List MemoryMapEntry} {p4 : Nat} {ram : Store} {calls : List PageCall}
    {sp : Spaces} (layout : BootLayout mmap p4 ram)
    (run : Run Spaces.CarefulStep (Spaces.start mmap p4 ram) calls sp) :
    sp.OneRole ∧ ∀ r ∈ sp.roots, ∀ v < 2 ^ 64, ∀ flags, PlainFlags flags →
      ((sp.withMem (pagingAllocUserPage r v flags sp.mem).2).OneRole ↔
        MayAlloc (sp.mem.withRoot r) v flags) := by
  obtain ⟨own, ok⟩ := run.invariant (I := fun sp => ∃ own, Spaces.Ok p4 sp own)
    Spaces.ok_step ⟨_, Spaces.ok_start layout⟩
  refine ⟨ok.oneRole, fun r hr v hv flags hflags => ⟨fun one => ?_, fun may => ?_⟩⟩
  · by_contra hno
    unfold MayAlloc at hno
    simp only [not_or] at hno
    obtain ⟨-, hunmapped, -, hmissing⟩ := hno
    have hcount : freeCount (sp.mem.withRoot r) = freeCount sp.mem := rfl
    have hlow : ¬ (PAGE_SIZE ≤ v ∨ freeCount sp.mem ≤ missing (sp.mem.withRoot r) v) :=
      fun h => hmissing ⟨h, hflags.1, Or.inr hflags.2⟩
    exact ok.roles_clash hr (by omega) hflags hunmapped (by omega) one
  · obtain ⟨own', ok'⟩ := Spaces.ok_step ⟨own, ok⟩
      ⟨@PageCallStep.allocUserPage sp r v flags hr hv hflags.1.1, may⟩
    exact ok'.oneRole

theorem PageCallStep.made {sp : Spaces} {r : Nat} {s' : State}
    (h : pagingCreateUserAddressSpace sp.mem = (r, s')) (hr : r ≠ NULL) :
    PageCallStep sp .createUserAddressSpace { sp.withMem s' with roots := r :: sp.roots } := by
  have hmade : (pagingCreateUserAddressSpace sp.mem).1 ≠ NULL := by
    rw [h]
    exact hr
  have step := PageCallStep.createUserAddressSpace hmade
  rwa [h] at step

theorem missingFrom_le (m : Store) (is : List (Fin 512)) (f : Nat) :
    missingFrom m is f ≤ is.length := by
  induction is generalizing f with
  | nil => exact le_refl _
  | cons i is ih =>
      rw [missingFrom, List.length_cons]
      split
      · exact (ih _).trans (Nat.le_succ _)
      · exact le_refl _

theorem freeCount_exampleBoot : 16 ≤ freeCount exampleBoot := by
  have hsize : exampleBoot.pmm.bitmapSize = 4096 := by decide +kernel
  have hfree : ∀ k, 1024 ≤ k → k < 32768 → Free exampleBoot k := by
    intro k hlow hhigh
    unfold exampleBoot pagingBoot at hsize ⊢
    rw [free_pagingInit, hsize]
    simp only [kernelEnd, PAGE_SIZE]
    omega
  have hsubset : Finset.Ico 1024 1040 ⊆
      (Finset.range (exampleBoot.pmm.bitmapSize * 8)).filter (Free exampleBoot) := by
    intro k hk
    rw [Finset.mem_Ico] at hk
    rw [Finset.mem_filter, Finset.mem_range, hsize]
    exact ⟨by omega, hfree k hk.1 (by omega)⟩
  have hcard := Finset.card_le_card hsubset
  rw [Nat.card_Ico] at hcard
  exact hcard

/-- The first address space, with room for a page in it. -/
theorem firstSpace : ∃ r s own, Run Spaces.CarefulStep (Spaces.start memMap 0x104000 fun _ => 0)
      [.createUserAddressSpace] ⟨⟨s, KERNEL_BASE⟩, [r]⟩ ∧
    Spaces.Ok 0x104000 ⟨⟨s, KERNEL_BASE⟩, [r]⟩ own ∧ 4 ≤ freeCount s ∧
    ∀ v, (index 39 v : Nat) < 256 → ¬ Tabled (s.withRoot r) v := by
  have hcount := freeCount_exampleBoot
  have start := Spaces.ok_start bootLayout_exampleBoot
  rcases start.owned.createUserAddressSpace start.pml4 with
    ⟨-, hnone⟩ | ⟨r, s, own, hrun, hr, hvmm, owned, hfree, -, hslots⟩
  · change freeCount exampleBoot = 0 at hnone
    omega
  · change pagingCreateUserAddressSpace exampleBoot = _ at hrun
    change freeCount s + 1 = freeCount exampleBoot at hfree
    have step : PageCallStep (Spaces.start memMap 0x104000 fun _ => 0) .createUserAddressSpace _ :=
      .made hrun hr
    refine ⟨r, s, own, .single ⟨step, trivial⟩, ⟨owned, ?_, heapOk_base⟩, by omega, ?_⟩
    · exact congrArg VirtualMemoryManager.pml4 hvmm
    · rintro v hlow ⟨pt, hpt⟩
      have hempty := hslots (index 39 v)
      rw [if_neg (Nat.not_le.mpr hlow)] at hempty
      change follow present child (tables s.ram) r (path v) = some pt at hpt
      rw [path, follow, hempty] at hpt
      cases hpt

/-- One page at 4 KB in the first address space. -/
theorem one_role_first_page :
    ∃ r sp, Run Spaces.CarefulStep (Spaces.start memMap 0x104000 fun _ => 0)
        [.createUserAddressSpace, .allocUserPage r 0x1000 PAGE_WRITABLE] sp ∧ sp.OneRole := by
  obtain ⟨r, s, own, first, -, -, -⟩ := firstSpace
  have step : PageCallStep ⟨⟨s, KERNEL_BASE⟩, [r]⟩ (.allocUserPage r 0x1000 PAGE_WRITABLE) _ :=
    .allocUserPage (List.mem_singleton.mpr rfl) (by decide) (by decide)
  have may : MayAlloc (s.withRoot r) 0x1000 PAGE_WRITABLE :=
    Or.inr (Or.inr (Or.inr ⟨Or.inl (by decide), plainFlags_writable.1, Or.inr (by decide)⟩))
  have run := first.append (.single ⟨step, may⟩)
  exact ⟨r, _, run, (one_role bootLayout_exampleBoot run).1⟩

/-- The page at the address 0 of the first process is free again as soon as it is mapped. -/
theorem page_zero_freed :
    ∃ r sp, Run PageCallStep (Spaces.start memMap 0x104000 fun _ => 0)
        [.createUserAddressSpace, .allocUserPage r 0 PAGE_WRITABLE] sp ∧ ¬ sp.OneRole := by
  obtain ⟨r, s, own, first, ok, hcount, hempty⟩ := firstSpace
  have step : PageCallStep ⟨⟨s, KERNEL_BASE⟩, [r]⟩ (.allocUserPage r 0 PAGE_WRITABLE) _ :=
    .allocUserPage (List.mem_singleton.mpr rfl) (by decide) (by decide)
  have htabled : ¬ Tabled (s.withRoot r) 0 := hempty 0 (by decide)
  have hunmapped : ¬ Mapped (s.withRoot r) 0 := by
    rintro ⟨entry, hentry⟩
    obtain ⟨pt, hpt, -⟩ := reach_of_leafEntry hentry
    exact htabled ⟨pt, hpt⟩
  have hmissing : missing (s.withRoot r) 0 ≤ 3 := missingFrom_le _ _ _
  have run := (first.mono fun step => step.1).append (.single step)
  refine ⟨r, _, run, ok.roles_clash (List.mem_singleton.mpr rfl) (by decide) plainFlags_writable
    hunmapped ?_⟩
  change missing (s.withRoot r) 0 < freeCount s
  omega

end Curnel.Paging
