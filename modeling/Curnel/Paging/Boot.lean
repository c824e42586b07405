/-
The forest that `boot.asm` and `paging_init` start with.

`BootLayout` is what the linker and the memory map have to give: the three tables lie
past the bitmap, in the first 4 MB, and the bitmap has bits for them; physical
addresses have 52 bits. From then on the only tables are those three
(`forest_pagingBoot`), and every frame that is free lies past them.
-/

import Curnel.Paging.Growth
import Curnel.Paging.Init

namespace Curnel.Paging

open Lib.Bytes Lib.Word Lib.Radix Lib.Ownership

/-- Where the tables of `boot.asm` are, next to the bitmap. -/
structure BootLayout (mmap : List MemoryMapEntry) (p4 : Nat) (ram : Store) : Prop where
  aligned : PAGE_SIZE ∣ p4
  pastBitmap : 0x100000 + (pagingBoot mmap p4 ram).pmm.bitmapSize ≤ p4
  inKernel : p4 + 3 * PAGE_SIZE ≤ kernelEnd
  covered : p4 + 3 * PAGE_SIZE ≤ PAGE_SIZE * ((pagingBoot mmap p4 ram).pmm.bitmapSize * 8)
  ram : (pagingBoot mmap p4 ram).pmm.bitmapSize * 8 ≤ 2 ^ 40

/-! ### `setup_page_tables` -/

/-- An entry whose lower half is stored over zeros. -/
theorem tables_writeLE {m : Store} {f v : Nat} {i : Fin 512} (hzero : tables m f i = 0)
    (hv : v < 2 ^ 32) : tables (writeLE m (entryPtr f i) 4 v) f i = v := by
  have hupper : readLE (writeLE m (entryPtr f i) 4 v) (entryPtr f i + 4) 4
      = readLE m (entryPtr f i + 4) 4 := readLE_writeLE_disjoint (Or.inl (le_refl _))
  have hlower : readLE (writeLE m (entryPtr f i) 4 v) (entryPtr f i) 4 = v := by
    rw [readLE_writeLE_same]
    exact Nat.mod_eq_of_lt hv
  have hold : readLE m (entryPtr f i) 4 + 256 ^ 4 * readLE m (entryPtr f i + 4) 4 = 0 :=
    (readLE_add m (entryPtr f i) 4 4).symm.trans hzero
  have hnew : tables (writeLE m (entryPtr f i) 4 v) f i
      = v + 256 ^ 4 * readLE m (entryPtr f i + 4) 4 := by
    rw [← hlower, ← hupper, hlower]
    exact (readLE_add _ (entryPtr f i) 4 4).trans (by rw [hlower])
  omega

/-- A half of an entry leaves the other entries of aligned tables alone. -/
theorem tables_writeLE_other {m : Store} {f g v : Nat} {i j : Fin 512} (hf : PAGE_SIZE ∣ f)
    (hg : PAGE_SIZE ∣ g) (h : ¬ (g = f ∧ j = i)) :
    tables (writeLE m (entryPtr f i) 4 v) g j = tables m g j := by
  have hapart := entryPtr_apart hf hg h
  exact readLE_writeLE_disjoint (by omega)

theorem tables_mapP2Table {p2 g : Nat} {m : Store} (hp2 : PAGE_SIZE ∣ p2) (hg : PAGE_SIZE ∣ g)
    {n ecx : Nat} (hn : ecx + n = 512) (j : Fin 512)
    (hzero : g = p2 → ecx ≤ j → tables m g j = 0) :
    tables (mapP2Table p2 n ecx m) g j
      = if g = p2 ∧ ecx ≤ j then largeEntry j else tables m g j := by
  induction n generalizing ecx m with
  | zero =>
      rw [mapP2Table, if_neg]
      rintro ⟨-, hj⟩
      have := j.isLt
      omega
  | succ n ih =>
      have hecx : ecx < 512 := by omega
      have hentry : wmul 32 0x200000 ecx ||| 0b10000011 = largeEntry ecx := by
        have hmul : wmul 32 0x200000 ecx = ecx * 2 ^ 21 := by
          rw [wmul_of_lt (by omega)]
          omega
        rw [hmul, lor_low _ _ 21 (by decide), largeEntry]
        omega
      have hlt : largeEntry ecx < 2 ^ 32 := by
        unfold largeEntry
        omega
      rw [mapP2Table, hentry]
      by_cases hhere : g = p2 ∧ j = (⟨ecx, hecx⟩ : Fin 512)
      · obtain ⟨rfl, rfl⟩ := hhere
        rw [ih (by omega) fun _ h => absurd h (by simp), if_neg (by simp), if_pos ⟨rfl, le_refl _⟩]
        exact tables_writeLE (i := ⟨ecx, hecx⟩) (hzero rfl (le_refl _)) hlt
      · have hother := @tables_writeLE_other m p2 g (largeEntry ecx) ⟨ecx, hecx⟩ j hp2 hg hhere
        rw [ih (by omega)]
        · rw [hother]
          refine if_congr (and_congr_right fun h => ?_) rfl rfl
          have hne : (j : Nat) ≠ ecx := fun heq => hhere ⟨h, Fin.ext heq⟩
          omega
        · intro h hj
          rw [hother]
          exact hzero h (by omega)

section Setup

variable {p4 : Nat} (haligned : PAGE_SIZE ∣ p4)
include haligned

theorem p3Table_aligned : PAGE_SIZE ∣ p3Table p4 := Nat.dvd_add haligned (dvd_refl _)

theorem p2Table_aligned : PAGE_SIZE ∣ p2Table p4 := Nat.dvd_add haligned (dvd_mul_left _ _)

omit haligned in
/-- The address of an aligned table with the flags 3, as it is stored. -/
theorem table_or_three {f : Nat} (hf : PAGE_SIZE ∣ f) : f ||| 0b11 = f + 3 := by
  obtain ⟨a, rfl⟩ := hf
  have hjoin := lor_low a 3 12 (by decide)
  rw [PAGE_SIZE, Nat.mul_comm]
  exact hjoin

/-- What `setup_page_tables` stores, entry by entry. -/
theorem tables_setupPageTables (hinside : p4 + 3 * PAGE_SIZE ≤ kernelEnd) (ram : Store)
    (i : Fin 512) :
    tables (setupPageTables p4 (fill ram p4 (3 * PAGE_SIZE) 0)) p4 i
        = (if i = 0 then p3Table p4 + 3 else 0) ∧
      tables (setupPageTables p4 (fill ram p4 (3 * PAGE_SIZE) 0)) (p3Table p4) i
        = (if i = 0 then p2Table p4 + 3 else 0) ∧
      tables (setupPageTables p4 (fill ram p4 (3 * PAGE_SIZE) 0)) (p2Table p4) i
        = largeEntry i := by
  have haligned₃ := p3Table_aligned haligned
  have haligned₂ := p2Table_aligned haligned
  set m₀ := fill ram p4 (3 * PAGE_SIZE) 0 with hm₀
  have hzero : ∀ f j, p4 ≤ f → f + PAGE_SIZE ≤ p4 + 3 * PAGE_SIZE → tables m₀ f j = 0 := by
    intro f j hlow hhigh
    have hrange := entryPtr_range f j
    exact readLE_fill_zero (hlow.trans hrange.1) (hrange.2.trans hhigh)
  have hzero₄ := fun j => hzero p4 j (le_refl _) (by omega)
  have hzero₃ := fun j => hzero (p3Table p4) j (Nat.le_add_right _ _) (by unfold p3Table; omega)
  have hzero₂ := fun j => hzero (p2Table p4) j (Nat.le_add_right _ _) (by unfold p2Table; omega)
  have hne₃ : p4 ≠ p3Table p4 := by
    simp only [p3Table, PAGE_SIZE]
    omega
  have hne₂ : p4 ≠ p2Table p4 := by
    simp only [p2Table, PAGE_SIZE]
    omega
  have hne₃₂ : p3Table p4 ≠ p2Table p4 := by
    simp only [p3Table, p2Table, PAGE_SIZE]
    omega
  have hlt₃ : p3Table p4 + 3 < 2 ^ 32 := by
    simp only [p3Table, PAGE_SIZE, kernelEnd] at hinside ⊢
    omega
  have hlt₂ : p2Table p4 + 3 < 2 ^ 32 := by
    simp only [p2Table, PAGE_SIZE, kernelEnd] at hinside ⊢
    omega
  set m₁ := writeLE m₀ (entryPtr p4 (0 : Fin 512)) 4 (p3Table p4 + 3) with hm₁
  set m₂ := writeLE m₁ (entryPtr (p3Table p4) (0 : Fin 512)) 4 (p2Table p4 + 3) with hm₂
  have hsetup : setupPageTables p4 m₀ = mapP2Table (p2Table p4) 512 0 m₂ := by
    simp only [setupPageTables]
    rw [table_or_three haligned₃, table_or_three haligned₂]
    rfl
  have hfirst : ∀ {f j}, PAGE_SIZE ∣ f → ¬ (f = p4 ∧ j = 0) → tables m₁ f j = tables m₀ f j :=
    fun hf hne => tables_writeLE_other haligned hf hne
  have hsecond : ∀ {f j}, PAGE_SIZE ∣ f → ¬ (f = p3Table p4 ∧ j = 0) →
      tables m₂ f j = tables m₁ f j := fun hf hne => tables_writeLE_other haligned₃ hf hne
  have htable : ∀ {f} j, PAGE_SIZE ∣ f → tables (mapP2Table (p2Table p4) 512 0 m₂) f j
      = if f = p2Table p4 ∧ 0 ≤ (j : Nat) then largeEntry j else tables m₂ f j := by
    intro f j hf
    refine tables_mapP2Table haligned₂ hf (Nat.zero_add _) j ?_
    rintro rfl -
    rw [hsecond haligned₂ fun h => hne₃₂ h.1.symm, hfirst haligned₂ fun h => hne₂ h.1.symm]
    exact hzero₂ j
  rw [hsetup]
  refine ⟨?_, ?_, ?_⟩
  · rw [htable i haligned, if_neg fun h => hne₂ h.1, hsecond haligned fun h => hne₃ h.1]
    split
    next hi =>
      rw [hi]
      exact tables_writeLE (hzero₄ 0) hlt₃
    next hi =>
      rw [hfirst haligned fun h => hi h.2]
      exact hzero₄ i
  · rw [htable i haligned₃, if_neg fun h => hne₃₂ h.1]
    split
    next hi =>
      rw [hi]
      refine tables_writeLE ?_ hlt₂
      rw [hfirst haligned₃ fun h => hne₃ h.1.symm]
      exact hzero₃ 0
    next hi =>
      rw [hsecond haligned₃ fun h => hi h.2, hfirst haligned₃ fun h => hne₃ h.1.symm]
      exact hzero₃ i
  · rw [htable i haligned₂, if_pos ⟨rfl, Nat.zero_le _⟩]

end Setup

/-- A large page is no link to a table. -/
theorem links_largeEntry (i : Nat) : links (largeEntry i) = false := by
  have hbit : largeEntry i &&& PAGE_SIZE_BIT = largeEntry i / 2 ^ 7 % 2 ^ 1 * 2 ^ 7 :=
    land_field (largeEntry i) 7 1
  have hset : largeEntry i &&& PAGE_SIZE_BIT ≠ 0 := by
    rw [hbit]
    unfold largeEntry
    omega
  rw [links, decide_eq_false hset, Bool.and_false]

/-! ### The forest -/

/-- The tables of `boot.asm` and what they are used for. -/
def bootUses (p4 : Nat) : Nat → Option Use := fun f =>
  if f = p4 then some Use.root
  else if f = p3Table p4 then some ⟨1, some ⟨p4, 0⟩⟩
  else if f = p2Table p4 then some ⟨2, some ⟨p3Table p4, 0⟩⟩
  else none

theorem bootUses_eq_some {p4 f : Nat} {u : Use} (h : bootUses p4 f = some u) :
    f = p4 ∧ u = Use.root ∨ f = p3Table p4 ∧ u = ⟨1, some ⟨p4, 0⟩⟩ ∨
      f = p2Table p4 ∧ u = ⟨2, some ⟨p3Table p4, 0⟩⟩ := by
  unfold bootUses at h
  split at h
  next hf => exact Or.inl ⟨hf, (Option.some.inj h).symm⟩
  next =>
    split at h
    next hf => exact Or.inr (Or.inl ⟨hf, (Option.some.inj h).symm⟩)
    next =>
      split at h
      next hf => exact Or.inr (Or.inr ⟨hf, (Option.some.inj h).symm⟩)
      next => cases h

section Boot

variable {mmap : List MemoryMapEntry} {p4 : Nat} {ram : Store} (layout : BootLayout mmap p4 ram)
include layout

/-- `paging_init` leaves the tables alone. -/
theorem tables_pagingBoot {f : Nat} (hf : p4 ≤ f) (i : Fin 512) :
    tables (pagingBoot mmap p4 ram).ram f i
      = tables (setupPageTables p4 (fill ram p4 (3 * PAGE_SIZE) 0)) f i := by
  have hframe := pagingInit_frame mmap p4
    ⟨setupPageTables p4 (fill ram p4 (3 * PAGE_SIZE) 0), ⟨0, 0, 0, 0, 0, NULL⟩, ⟨NULL⟩⟩
  dsimp only at hframe
  have hrange := entryPtr_range f i
  have hpast := layout.pastBitmap
  have hcovered := layout.covered
  unfold pagingBoot at hpast hcovered
  obtain ⟨a, ha⟩ := layout.aligned
  generalize (pagingInit mmap p4 _).pmm.bitmapSize = size at hframe hpast hcovered
  have hend : 0x100000 + max size 128 ≤ entryPtr f i := by
    simp only [PAGE_SIZE] at ha hcovered
    omega
  exact hframe.readLE_eq (Or.inl hend)

/-- The slots of the tables when `kernel_main` goes on. -/
theorem pagingBoot_slots (i : Fin 512) :
    tables (pagingBoot mmap p4 ram).ram p4 i = (if i = 0 then p3Table p4 + 3 else 0) ∧
      tables (pagingBoot mmap p4 ram).ram (p3Table p4) i
        = (if i = 0 then p2Table p4 + 3 else 0) ∧
      tables (pagingBoot mmap p4 ram).ram (p2Table p4) i = largeEntry i := by
  have hsetup := tables_setupPageTables layout.aligned layout.inKernel ram i
  exact ⟨(tables_pagingBoot layout (le_refl _) i).trans hsetup.1,
    (tables_pagingBoot layout (Nat.le_add_right _ _) i).trans hsetup.2.1,
    (tables_pagingBoot layout (Nat.le_add_right _ _) i).trans hsetup.2.2⟩

theorem bootTables_pagingBoot : BootTables (pagingBoot mmap p4 ram).ram p4 :=
  ⟨(pagingBoot_slots layout 0).1.trans (if_pos rfl),
    (pagingBoot_slots layout 0).2.1.trans (if_pos rfl),
    fun i => (pagingBoot_slots layout i).2.2⟩

omit layout in
/-- What is free lies past the first 4 MB and past the bitmap. -/
theorem free_pagingBoot {k : Nat} (h : Free (pagingBoot mmap p4 ram) k) :
    kernelEnd ≤ PAGE_SIZE * k ∧
      0x100000 + (pagingBoot mmap p4 ram).pmm.bitmapSize ≤ PAGE_SIZE * k := by
  obtain ⟨-, hkernel, hbitmap⟩ := (free_pagingInit mmap p4 _).mp h
  refine ⟨hkernel, hbitmap.resolve_left fun hlow => ?_⟩
  simp only [kernelEnd] at hkernel
  omega

theorem forest_pagingBoot : Forest p4 (pagingBoot mmap p4 ram) (bootUses p4) := by
  have boot := bootTables_pagingBoot layout
  have hinside := layout.inKernel
  have hpast := layout.pastBitmap
  have hcovered := layout.covered
  have haligned := layout.aligned
  have hbitmap : (pagingBoot mmap p4 ram).pmm.bitmap = 0x100000 := rfl
  have hne₃ : p3Table p4 ≠ p4 := by
    simp only [p3Table, PAGE_SIZE]
    omega
  have hne₂ : p2Table p4 ≠ p4 := by
    simp only [p2Table, PAGE_SIZE]
    omega
  have hne₂₃ : p2Table p4 ≠ p3Table p4 := by
    simp only [p2Table, p3Table, PAGE_SIZE]
    omega
  -- all three tables lie between the bitmap and the end of the kernel
  have hbetween : ∀ f u, bootUses p4 f = some u →
      PAGE_SIZE ∣ f ∧ p4 ≤ f ∧ f + PAGE_SIZE ≤ p4 + 3 * PAGE_SIZE := by
    intro f u hu
    rcases bootUses_eq_some hu with ⟨rfl, -⟩ | ⟨rfl, -⟩ | ⟨rfl, -⟩
    · exact ⟨haligned, le_refl _, by omega⟩
    · exact ⟨p3Table_aligned haligned, Nat.le_add_right _ _, by unfold p3Table; omega⟩
    · exact ⟨p2Table_aligned haligned, Nat.le_add_right _ _, by unfold p2Table; omega⟩
  have hslot₄ := fun i => (pagingBoot_slots layout i).1
  have hslot₃ := fun i => (pagingBoot_slots layout i).2.1
  have hlow₃ : p3Table p4 < 2 ^ 40 := by
    simp only [p3Table, PAGE_SIZE, kernelEnd] at hinside ⊢
    omega
  have hlow₂ : p2Table p4 < 2 ^ 40 := by
    simp only [p2Table, PAGE_SIZE, kernelEnd] at hinside ⊢
    omega
  have hmiddle : bootUses p4 (p3Table p4) = some ⟨1, some ⟨p4, 0⟩⟩ := by
    unfold bootUses
    rw [if_neg hne₃, if_pos rfl]
  have hlarge : bootUses p4 (p2Table p4) = some ⟨2, some ⟨p3Table p4, 0⟩⟩ := by
    unfold bootUses
    rw [if_neg hne₂, if_neg hne₂₃, if_pos rfl]
  have honly : ∀ {entry e : Nat} {i : Fin 512}, entry = (if i = 0 then e else 0) →
      present entry = true → i = 0 := by
    intro entry e i heq hpresent
    by_contra hi
    rw [heq, if_neg hi] at hpresent
    cases hpresent
  have hchild : ∀ f, PAGE_SIZE ∣ f → f < 2 ^ 40 → child (f + 3) = f ∧ links (f + 3) = true := by
    rintro f ⟨a, rfl⟩ hf
    have ha : a < 2 ^ 40 := by
      simp only [PAGE_SIZE] at hf
      omega
    have hlinks := links_makeEntry ha plainFlags_writable
    rw [pagingMakeEntry_eq ha (by decide)] at hlinks
    exact ⟨child_eq ha (by decide), hlinks⟩
  refine
    { frames := ⟨layout.ram, fun k hk => Or.inr ?_⟩
      typed := fun f u i g l hu hedge => ?_
      table := fun f u hu => ⟨(hbetween f u hu).1, fun k hk => Or.inr ?_, Or.inr ?_⟩
      covered := fun f u hu => ?_
      nonnull := fun f u hu => ?_
      zero := fun hzero => ?_
      plain := fun f u i hu hdepth hbig hpresent => ?_
      clean := fun f u i hu hdepth => ?_
      root := if_pos rfl
      middle := hmiddle
      large := hlarge
      boot := boot }
  · rw [hbitmap]
    exact (free_pagingBoot hk).2
  · unfold tableEdge at hedge
    split at hedge
    next hlink =>
      cases hedge
      have hpresent := present_of_links hlink.2
      rcases bootUses_eq_some hu with ⟨rfl, rfl⟩ | ⟨rfl, rfl⟩ | ⟨rfl, rfl⟩
      · obtain rfl : i = 0 := honly (hslot₄ i) hpresent
        rw [hslot₄, if_pos rfl, (hchild _ (p3Table_aligned haligned) hlow₃).1, slotOf_root]
        exact hmiddle
      · obtain rfl : i = 0 := honly (hslot₃ i) hpresent
        rw [hslot₃, if_pos rfl, (hchild _ (p2Table_aligned haligned) hlow₂).1,
          slotOf_eq (by simp)]
        exact hlarge
      · rw [boot.bottom i, links_largeEntry] at hlink
        cases hlink.2
    next => cases hedge
  · have := (free_pagingBoot hk).1
    have := (hbetween f u hu).2.2
    omega
  · rw [hbitmap]
    exact hpast.trans (hbetween f u hu).2.1
  · have hend := (hbetween f u hu).2.2
    refine Nat.div_lt_of_lt_mul ?_
    simp only [PAGE_SIZE] at hend hcovered ⊢
    omega
  · have hlow' := (hbetween f u hu).2.1
    exact Nat.pos_iff_ne_zero.mp (by omega)
  · have hzero' := (free_pagingBoot hzero).1
    rw [Nat.mul_zero] at hzero'
    exact absurd hzero' (by decide)
  · rcases bootUses_eq_some hu with ⟨rfl, rfl⟩ | ⟨rfl, rfl⟩ | ⟨rfl, rfl⟩
    · obtain rfl : i = 0 := honly (hslot₄ i) hpresent
      rw [hslot₄, if_pos rfl]
      exact (hchild _ (p3Table_aligned haligned) hlow₃).2
    · obtain rfl : i = 0 := honly (hslot₃ i) hpresent
      rw [hslot₃, if_pos rfl]
      exact (hchild _ (p2Table_aligned haligned) hlow₂).2
    · exact absurd rfl hbig
  · rcases bootUses_eq_some hu with ⟨rfl, rfl⟩ | ⟨rfl, rfl⟩ | ⟨rfl, rfl⟩ <;> cases hdepth

end Boot

/-- The boot of `kernel_main`, with `p4_table` behind the first pages of the kernel. -/
def exampleBoot : State := pagingBoot memMap 0x104000 fun _ => 0

theorem bootLayout_exampleBoot : BootLayout memMap 0x104000 fun _ => 0 := by
  have hsize : (pagingBoot memMap 0x104000 fun _ => 0).pmm.bitmapSize = 4096 := by decide +kernel
  refine ⟨by decide, ?_, by decide, ?_, ?_⟩
  · rw [hsize]
    decide
  · rw [hsize]
    decide
  · rw [hsize]
    decide

end Curnel.Paging
