/-
`paging_get_physical_address` next to the processor's translation.

The tables of `boot.asm` map the first gigabyte with large pages, and `paging_walk`
takes each of them for a table. Past the first gigabyte the two walks read the same
entries, but `paging_get_physical_address` does not ask whether the last one is
present. `lookup_agrees_iff` says for which addresses it is right, in every state
that `paging_map_page` and `paging_unmap_page` reach outside that gigabyte; these
calls write to page tables and the bitmap only.
-/

import Curnel.Paging.Processor
import Curnel.Lib.Run

namespace Curnel.Paging

open Lib Lib.Bytes Lib.Word Lib.Radix Lib.Ownership

/-! ### Calls -/

inductive MapCall where
  | mapPage (physAddr virtAddr flags : Nat)
  | unmapPage (virtAddr : Nat)

inductive MapCallStep : State → MapCall → State → Prop where
  | mapPage {s : State} {physAddr v flags : Nat} :
      physAddr < 2 ^ 64 → v < 2 ^ 64 → flags < 2 ^ 64 →
      MapCallStep s (.mapPage physAddr v flags) (pagingMapPage physAddr v flags s).2
  | unmapPage {s : State} {v : Nat} :
      v < 2 ^ 64 → MapCallStep s (.unmapPage v) (pagingUnmapPage v s)

/-- In the gigabyte that `boot.asm` maps, as far as the tables tell. -/
def InLargePages (v : Nat) : Prop := index 39 v = 0 ∧ index 30 v = 0

instance (v : Nat) : Decidable (InLargePages v) := inferInstanceAs (Decidable (_ ∧ _))

/-- The leaf table of `v` is there. -/
def Tabled (s : State) (v : Nat) : Prop := ∃ pt, reach s (path v) = some pt

def Mapped (s : State) (v : Nat) : Prop := ∃ entry, leafEntry s v = some entry

/-- A call that keeps out of the large pages, and that makes entries which the
processor takes as they are meant: flags with address bits or the page-size bit do
no harm once the tables are there, and none at all where the page is mapped. -/
def Meets (cpu : Processor) (s : State) : MapCall → Prop
  | .mapPage physAddr v flags =>
      ¬ InLargePages v ∧
        (Tabled s v ∨ PlainFlags flags ∧ (cpu.noExecute = true ∨ flags.testBit 63 = false)) ∧
        (Mapped s v ∨ cpu.accepts (pagingMakeEntry physAddr (PAGE_PRESENT ||| flags)) = true)
  | .unmapPage v => ¬ InLargePages v

/-- The calls, as long as each meets the condition. -/
def CarefulStep (cpu : Processor) (s : State) (call : MapCall) (s' : State) : Prop :=
  MapCallStep s call s' ∧ Meets cpu s call

/-! ### What is expected -/

/-- What `paging_get_physical_address` should return. -/
def physicalAddress (cpu : Processor) (s : State) (v : Nat) : Nat :=
  ((cpu.translate s.ram s.vmm.pml4 v).map Translation.physAddr).getD NULL

/-- The word that the code takes for the leaf entry of an address in a large page. -/
def strayEntry (s : State) (v : Nat) : Nat :=
  tables s.ram (0x200000 * (index 21 v : Nat)) (index 12 v)

/-- When the lookup of `v` is right: in a large page by accident, and elsewhere if `v` is
mapped, has no leaf table or lies at the start of its page. -/
def Agrees (s : State) (v : Nat) : Prop :=
  if InLargePages v then
    v = 0 ∨ PAGE_SIZE ≤ v ∧ child (strayEntry s v) = PAGE_SIZE * (v / PAGE_SIZE)
  else Mapped s v ∨ ¬ Tabled s v ∨ PAGE_SIZE ∣ v

/-- The byte at `a` is in a page table. -/
def InPageTable (s : State) (a : Nat) : Prop :=
  ∃ is f, is.length ≤ 3 ∧ follow links child (tables s.ram) s.vmm.pml4 is = some f ∧
    f ≤ a ∧ a < f + PAGE_SIZE

/-! ### The invariant -/

/-- A forest with one root, whose entries the processor accepts. -/
structure Plain (cpu : Processor) (p4 : Nat) (s : State) (own : Nat → Option Use) : Prop where
  forest : Forest p4 s own
  pml4 : s.vmm.pml4 = p4
  accepted : ∀ f u i, own f = some u → u.depth ≤ 3 → present (tables s.ram f i) = true →
    cpu.accepts (tables s.ram f i) = true
  fits : PAGE_SIZE * (s.pmm.bitmapSize * 8) ≤ 2 ^ cpu.physBits

namespace Plain

variable {cpu : Processor} {p4 : Nat} {s : State} {own : Nat → Option Use}

theorem root (plain : Plain cpu p4 s own) : own s.vmm.pml4 = some Use.root := by
  rw [plain.pml4]
  exact plain.forest.root

theorem high (_ : Plain cpu p4 s own) {v : Nat} (h : ¬ InLargePages v) : High p4 s v :=
  fun hlow => h hlow.2

/-- In a table above the leaves, what is present links to a table and is accepted. -/
theorem slot (plain : Plain cpu p4 s own) {f : Nat} {u : Use} {i : Fin 512}
    (hu : own f = some u) (hdepth : u.depth < 3) (hlarge : f ≠ p2Table p4)
    (h : present (tables s.ram f i) = true) :
    cpu.accepts (tables s.ram f i) = true ∧ ¬ large (tables s.ram f i) = true :=
  ⟨plain.accepted f u i hu (by omega) h,
    not_large_of_links (plain.forest.plain f u i hu hdepth hlarge h)⟩

end Plain

/-! ### The software walk -/

/-- The page of an entry joined with an offset. -/
theorem child_or_offset (entry v : Nat) :
    (entry &&& ADDRESS_MASK) ||| (v &&& 0xFFF) = child entry + v % PAGE_SIZE := by
  have hoffset : v &&& 0xFFF = v % PAGE_SIZE := Nat.and_two_pow_sub_one_eq_mod v 12
  have hfield : child entry = entry / 2 ^ 12 % 2 ^ 40 * 2 ^ 12 := land_field entry 12 40
  have hjoin := lor_low (entry / 2 ^ 12 % 2 ^ 40) (v % PAGE_SIZE) 12 (Nat.mod_lt _ (by decide))
  rw [hoffset, hfield, ← hjoin, ← hfield]
  rfl

theorem lookup_of_unreached {s : State} {v : Nat} (h : reach s (path v) = none) :
    pagingGetPhysicalAddress v s = NULL := by
  have hwalk := pagingWalk_lookup v 0 s
  rw [h] at hwalk
  simp only [pagingGetPhysicalAddress]
  rw [hwalk, if_pos rfl]

theorem lookup_of_reach {s : State} {v pt : Nat} (h : reach s (path v) = some pt) :
    pagingGetPhysicalAddress v s
      = if entryPtr pt (index 12 v) = NULL then NULL
        else child (tables s.ram pt (index 12 v)) + v % PAGE_SIZE := by
  simp only [pagingGetPhysicalAddress]
  rw [pagingWalk_found h, child_or_offset]
  rfl

/-! ### The processor's walk -/

/-- What is present in the tables above the leaf table, the processor accepts as a link. -/
def Passable (cpu : Processor) (s : State) (v : Nat) : Prop :=
  ∀ js f i, js ++ [i] <+: path v → reach s js = some f → present (tables s.ram f i) = true →
    cpu.accepts (tables s.ram f i) = true ∧ ¬ large (tables s.ram f i) = true

/-- The processor goes down to the leaf table that `paging_walk` finds. -/
theorem translate_path {cpu : Processor} {s : State} {v : Nat} (hv : Canonical v)
    (passable : Passable cpu s v) : cpu.translate s.ram s.vmm.pml4 v
    = (reach s (path v)).bind fun pt => cpu.translateLeaf s.ram pt v
        [tables s.ram s.vmm.pml4 (index 39 v),
          tables s.ram (child (tables s.ram s.vmm.pml4 (index 39 v))) (index 30 v),
          tables s.ram (child (tables s.ram (child (tables s.ram s.vmm.pml4 (index 39 v)))
            (index 30 v))) (index 21 v)] := by
  have hno : ∀ {entry : Nat}, ¬ present entry = true → cpu.accepts entry = false := fun h =>
    Processor.accepts_of_absent (Bool.eq_false_iff.mpr h)
  have hnext : ∀ {js : List (Fin 512)} {f : Nat} {i : Fin 512}, reach s js = some f →
      present (tables s.ram f i) = true → reach s (js ++ [i]) = some (child (tables s.ram f i)) := by
    intro js f i hf hpresent
    unfold reach at hf ⊢
    rw [follow_concat, hf, Option.bind_some, if_pos hpresent]
  simp only [Processor.translate]
  rw [if_neg (not_not.mpr hv)]
  by_cases hp₄ : present (tables s.ram s.vmm.pml4 (index 39 v)) = true
  swap
  · rw [if_pos (Or.inl (hno hp₄)), reach, path, follow, if_neg hp₄]
    rfl
  obtain ⟨hacc₄, hlink₄⟩ := passable [] _ (index 39 v) ⟨[index 30 v, index 21 v], rfl⟩ rfl hp₄
  have hpdpt : reach s [index 39 v] = some (child (tables s.ram s.vmm.pml4 (index 39 v))) :=
    @hnext [] _ _ rfl hp₄
  have hpath : reach s (path v)
      = follow present child (tables s.ram) (child (tables s.ram s.vmm.pml4 (index 39 v)))
        [index 30 v, index 21 v] := by
    rw [reach, path, follow, if_pos hp₄]
  rw [if_neg (not_or.mpr ⟨by rw [hacc₄]; decide, hlink₄⟩), hpath]
  generalize child (tables s.ram s.vmm.pml4 (index 39 v)) = pdpt at hpdpt ⊢
  simp only [Processor.translatePointers]
  by_cases hp₃ : present (tables s.ram pdpt (index 30 v)) = true
  swap
  · rw [if_pos (hno hp₃), follow, if_neg hp₃]
    rfl
  obtain ⟨hacc₃, hlink₃⟩ :=
    passable [index 39 v] _ (index 30 v) ⟨[index 21 v], rfl⟩ hpdpt hp₃
  have hpd := hnext hpdpt hp₃
  rw [if_neg (by rw [hacc₃]; decide), if_neg hlink₃, follow, if_pos hp₃]
  generalize child (tables s.ram pdpt (index 30 v)) = pd at hpd ⊢
  simp only [Processor.translateDirectory]
  by_cases hp₂ : present (tables s.ram pd (index 21 v)) = true
  swap
  · rw [if_pos (hno hp₂), follow, if_neg hp₂]
    rfl
  obtain ⟨hacc₂, hlink₂⟩ := passable [index 39 v, index 30 v] _ (index 21 v) List.prefix_rfl hpd hp₂
  rw [if_neg (by rw [hacc₂]; decide), if_neg hlink₂, follow, if_pos hp₂]
  rfl

/-! ### Past the first gigabyte -/

section High

variable {cpu : Processor} {p4 : Nat} {s : State} {own : Nat → Option Use}
  (plain : Plain cpu p4 s own) {v : Nat} (hv : Canonical v) (hhigh : ¬ InLargePages v)
include plain hhigh

theorem Plain.passable : Passable cpu s v := by
  intro js f i hpath hf hpresent
  have hlen := length_of_prefix_concat hpath
  obtain ⟨u, hu, hdepth⟩ := own_of_reach plain.forest plain.root (by omega) hf
  exact plain.slot hu (by omega)
    (prefix_ne_large plain.forest plain.root (plain.high hhigh) hpath hf) hpresent

include hv

/-- Past the first gigabyte, the lookup is right unless it reads an absent leaf entry with
an offset into the page. -/
theorem lookup_agrees_high :
    pagingGetPhysicalAddress v s = physicalAddress cpu s v ↔
      Mapped s v ∨ ¬ Tabled s v ∨ PAGE_SIZE ∣ v := by
  have htranslate := translate_path hv (Plain.passable plain hhigh)
  unfold physicalAddress
  cases hpt : reach s (path v) with
  | none =>
      rw [hpt, Option.bind_none] at htranslate
      rw [lookup_of_unreached hpt, htranslate]
      refine iff_of_true rfl (Or.inr (Or.inl ?_))
      rintro ⟨pt, hpt'⟩
      rw [hpt] at hpt'
      cases hpt'
  | some pt =>
      obtain ⟨u, hu, hdepth⟩ :=
        own_of_reach_path plain.forest plain.root (plain.high hhigh) hpt
      have hptr := plain.forest.entryPtr_ne_null hu (index 12 v)
      rw [hpt, Option.bind_some, Processor.translateLeaf] at htranslate
      rw [lookup_of_reach hpt, if_neg hptr, htranslate]
      cases hleaf : present (tables s.ram pt (index 12 v)) with
      | true =>
          have hacc := plain.accepted pt u (index 12 v) hu (by omega) hleaf
          have hmapped : Mapped s v := by
            refine ⟨tables s.ram pt (index 12 v), ?_⟩
            rw [leafEntry, leaf, ← reach, hpt, Option.bind_some, if_pos hleaf]
          rw [hacc]
          exact iff_of_true rfl (Or.inl hmapped)
      | false =>
          have hzero := plain.forest.clean pt u (index 12 v) hu hdepth hleaf
          have hunmapped : ¬ Mapped s v := by
            rintro ⟨entry, hentry⟩
            rw [leafEntry, leaf, ← reach, hpt, Option.bind_some, hleaf] at hentry
            cases hentry
          have htabled : Tabled s v := ⟨pt, hpt⟩
          have hempty : child 0 = 0 := by decide
          rw [Processor.accepts_of_absent hleaf, if_pos rfl, hzero, hempty, Nat.zero_add]
          constructor
          · intro h
            exact Or.inr (Or.inr (Nat.dvd_of_mod_eq_zero h))
          · rintro (h | h | h)
            · exact absurd h hunmapped
            · exact absurd htabled h
            · exact Nat.mod_eq_zero_of_dvd h

end High

/-! ### The first gigabyte -/

theorem child_largeEntry (i : Fin 512) : child (largeEntry i) = 0x200000 * (i : Nat) := by
  have hi := i.isLt
  have hpage := @child_eq (512 * i) 0x83 (by omega) (by decide)
  have hsame : PAGE_SIZE * (512 * (i : Nat)) = 0x200000 * i := by
    simp only [PAGE_SIZE]
    omega
  rw [hsame] at hpage
  exact hpage

/-- `paging_walk` takes a large page for a leaf table. -/
theorem reach_low {p4 v : Nat} {s : State} {own : Nat → Option Use} (forest : Forest p4 s own)
    (hpml4 : s.vmm.pml4 = p4) (hlow : InLargePages v) :
    reach s (path v) = some (0x200000 * (index 21 v : Nat)) := by
  have haligned := (forest.table p4 _ forest.root).aligned
  have hbottom : present (largeEntry (index 21 v)) = true := by
    rw [present_iff, largeEntry]
    omega
  simp only [reach, path, follow]
  rw [hlow.1, hlow.2, hpml4, if_pos (forest.boot.present_top haligned), forest.boot.top,
    forest.child_add forest.middle, if_pos (forest.boot.present_middle haligned),
    forest.boot.middle, forest.child_add forest.large, forest.boot.bottom, if_pos hbottom,
    child_largeEntry]

section Low

variable {v : Nat} (hv : Canonical v) (hlow : InLargePages v)
include hv hlow

theorem lt_of_inLargePages : v < 2 ^ 30 := by
  obtain ⟨h₄, h₃⟩ := hlow
  have h₄' := congrArg Fin.val h₄
  have h₃' := congrArg Fin.val h₃
  rw [index_val] at h₄' h₃'
  simp only [Fin.val_zero] at h₄' h₃'
  unfold Canonical at hv
  omega

variable {cpu : Processor} {p4 : Nat} {s : State} {own : Nat → Option Use}
  (plain : Plain cpu p4 s own)
include plain

/-- The processor maps the first gigabyte at its own address. -/
theorem translate_low : (cpu.translate s.ram s.vmm.pml4 v).map Translation.physAddr = some v := by
  have forest := plain.forest
  have haligned := (forest.table p4 _ forest.root).aligned
  have hlt := lt_of_inLargePages hv hlow
  obtain ⟨hacc₄, hlink₄⟩ := plain.slot forest.root (by decide)
    (forest.ne_large forest.root (by decide)) (forest.boot.present_top haligned)
  obtain ⟨hacc₃, hlink₃⟩ := plain.slot forest.middle (by simp)
    (forest.ne_large forest.middle (by simp)) (forest.boot.present_middle haligned)
  rw [forest.boot.top] at hacc₄ hlink₄
  rw [forest.boot.middle] at hacc₃ hlink₃
  have hindex : (index 21 v : Nat) = v / 2 ^ 21 := by
    rw [index_val]
    omega
  have hpresent : present (largeEntry (index 21 v)) = true := by
    rw [present_iff, largeEntry]
    omega
  have hacc₂ : cpu.accepts (largeEntry (index 21 v)) = true := by
    refine Processor.accepts_of_lt hpresent ?_
    have hi := (index 21 v).isLt
    unfold largeEntry
    omega
  have hlarge : large (largeEntry (index 21 v)) = true := by
    have hlinks := links_largeEntry (index 21 v)
    rw [links_eq, hpresent, Bool.true_and, Bool.not_eq_false'] at hlinks
    exact hlinks
  have hreserved : bits (largeEntry (index 21 v)) 13 21 = 0 := by
    unfold bits largeEntry
    omega
  have hphys : bits (largeEntry (index 21 v)) 21 52 * 2 ^ 21 + v % 2 ^ 21 = v := by
    rw [hindex]
    unfold bits largeEntry
    omega
  simp only [Processor.translate]
  rw [if_neg (not_not.mpr hv), plain.pml4, hlow.1, forest.boot.top,
    if_neg (not_or.mpr ⟨by rw [hacc₄]; decide, hlink₄⟩), forest.child_add forest.middle]
  simp only [Processor.translatePointers]
  rw [hlow.2, forest.boot.middle, if_neg (by rw [hacc₃]; decide), if_neg hlink₃,
    forest.child_add forest.large]
  simp only [Processor.translateDirectory]
  rw [forest.boot.bottom, if_neg (by rw [hacc₂]; decide), if_pos hlarge, if_pos hreserved,
    Option.map_some, hphys]

/-- In a large page, the lookup is right at address 0 and where the word that it takes
for a leaf entry happens to hold the page. -/
theorem lookup_agrees_low :
    pagingGetPhysicalAddress v s = physicalAddress cpu s v ↔
      v = 0 ∨ PAGE_SIZE ≤ v ∧ child (strayEntry s v) = PAGE_SIZE * (v / PAGE_SIZE) := by
  have hlt := lt_of_inLargePages hv hlow
  have h21 := index_val 21 v
  have h12 := index_val 12 v
  have hsplit : PAGE_SIZE * (v / PAGE_SIZE) + v % PAGE_SIZE = v := Nat.div_add_mod v PAGE_SIZE
  have hptr : entryPtr (0x200000 * (index 21 v : Nat)) (index 12 v) = NULL ↔ v < PAGE_SIZE := by
    simp only [entryPtr, PAGE_SIZE, NULL, h21, h12]
    omega
  rw [physicalAddress, translate_low hv hlow plain, lookup_of_reach (reach_low plain.forest plain.pml4 hlow),
    Option.getD_some, strayEntry]
  generalize child (tables s.ram (0x200000 * (index 21 v : Nat)) (index 12 v)) = page
  split
  next hnull =>
    have hpage := hptr.mp hnull
    refine ⟨fun h => Or.inl h.symm, fun h => ?_⟩
    exact (h.resolve_right fun h => absurd h.1 (not_le.mpr hpage)).symm
  next hnull =>
    have hpage : PAGE_SIZE ≤ v := not_lt.mp fun h => hnull (hptr.mpr h)
    have hpos : 0 < PAGE_SIZE := by decide
    omega

end Low

theorem lookup_agrees {cpu : Processor} {p4 : Nat} {s : State} {own : Nat → Option Use}
    (plain : Plain cpu p4 s own) {v : Nat} (hv : Canonical v) :
    pagingGetPhysicalAddress v s = physicalAddress cpu s v ↔ Agrees s v := by
  unfold Agrees
  split
  next hlow => exact lookup_agrees_low hv hlow plain
  next hhigh => exact lookup_agrees_high plain hv hhigh

/-! ### Tables as the processor sees them -/

section Links

variable {p4 : Nat} {s : State} {own : Nat → Option Use} (forest : Forest p4 s own)
  (hroot : own s.vmm.pml4 = some Use.root)
include forest hroot

/-- On a path past the first gigabyte, what is present is a link. -/
theorem follow_links {v : Nat} (high : High p4 s v) {is : List (Fin 512)} {f : Nat}
    (hpath : is <+: path v) (h : reach s is = some f) :
    follow links child (tables s.ram) s.vmm.pml4 is = some f := by
  induction is using List.reverseRecOn generalizing f with
  | nil => exact h
  | append_singleton ks k ih =>
      obtain ⟨g, hg, hpresent, rfl⟩ := follow_concat_eq_some h
      have hlen := length_of_prefix_concat hpath
      have hshared : ks <+: path v := (List.prefix_append ks [k]).trans hpath
      obtain ⟨u, hu, hdepth⟩ := own_of_reach forest hroot (by omega) hg
      have hlarge := prefix_ne_large forest hroot high hpath hg
      have hlinks := forest.plain g u k hu (by omega) hlarge hpresent
      rw [follow_concat, ih hshared hg, Option.bind_some, if_pos hlinks]

theorem inPageTable_of_inTable {v a : Nat} (high : High p4 s v) (h : InTable s v a) :
    InPageTable s a := by
  obtain ⟨is, f, his, hreach, hrange⟩ := h
  exact ⟨is, f, his.length_le, follow_links forest hroot high his hreach, hrange⟩

end Links

/-! ### One call -/

namespace Plain

variable {cpu : Processor} {p4 : Nat} {s : State} {own : Nat → Option Use}

/-- Growing keeps the tables acceptable, where the flags are. -/
theorem extend {v flags : Nat} {s' : State} {own' : Nat → Option Use}
    (plain : Plain cpu p4 s own) (ext : Extends p4 v flags s own s' own')
    (hflags : PlainFlags flags) (hno : cpu.noExecute = true ∨ flags.testBit 63 = false) :
    Plain cpu p4 s' own' := by
  refine ⟨ext.forest, by rw [ext.vmm, plain.pml4], fun f u i hu hdepth hpresent => ?_,
    by rw [ext.size]; exact plain.fits⟩
  rcases ext.entries f u i hu hdepth hpresent with ⟨hu', heq⟩ | ⟨k, hfree, -, hmade⟩
  · rw [heq] at hpresent ⊢
    exact plain.accepted f u i hu' hdepth hpresent
  · have hk : k < 2 ^ 40 := lt_of_lt_of_le hfree.1 plain.forest.frames.bound
    have hfits : PAGE_SIZE * k < 2 ^ cpu.physBits :=
      lt_of_lt_of_le (Nat.mul_lt_mul_of_pos_left hfree.1 (by decide)) plain.fits
    have hlast : (PAGE_WRITABLE ||| flags).testBit 63 = flags.testBit 63 := by
      rw [Nat.testBit_or]
      exact Bool.false_or _
    rw [hmade]
    exact Processor.accepts_makeEntry hfits hk (plainFlags_writable.or hflags).1
      (by rw [hlast]; exact hno)

/-- Writing a leaf entry that the processor accepts, or clearing one. -/
theorem setLeaf {f entry : Nat} {u : Use} {i : Fin 512} (plain : Plain cpu p4 s own)
    (hu : own f = some u) (hdepth : u.depth = 3) (hentry : entry < 2 ^ 64)
    (h : entry = 0 ∨ cpu.accepts entry = true) : Plain cpu p4 (setEntry s f i entry) own := by
  have hclean : present entry = false → entry = 0 := by
    intro habsent
    refine h.resolve_right fun hacc => ?_
    rw [Processor.present_of_accepts hacc] at habsent
    cases habsent
  refine ⟨plain.forest.setLeaf hu hdepth hentry hclean, plain.pml4,
    fun g w j hw hle hpresent => ?_, plain.fits⟩
  by_cases hhere : g = f ∧ j = i
  · obtain ⟨rfl, rfl⟩ := hhere
    rw [tables_setEntry_same hentry] at hpresent ⊢
    refine h.resolve_left ?_
    rintro rfl
    cases hpresent
  · rw [tables_setEntry_other (plain.forest.table f u hu).aligned
      (plain.forest.table g w hw).aligned hhere] at hpresent ⊢
    exact plain.accepted g w j hw hle hpresent

/-- Unmapping clears the leaf entry of an address that has a leaf table. -/
theorem unmapPage {v : Nat} (plain : Plain cpu p4 s own) (hhigh : ¬ InLargePages v) :
    Plain cpu p4 (pagingUnmapPage v s) own := by
  cases hpt : reach s (path v) with
  | none =>
      rw [pagingUnmapPage_of_unreached hpt]
      exact plain
  | some pt =>
      obtain ⟨u, hu, hdepth⟩ :=
        own_of_reach_path plain.forest plain.root (plain.high hhigh) hpt
      rw [pagingUnmapPage_of_reach hpt (plain.forest.entryPtr_ne_null hu (index 12 v))]
      exact plain.setLeaf hu hdepth (by decide) (Or.inl rfl)

/-- Mapping a page keeps the invariant, and writes to page tables and the bitmap only. -/
theorem mapPage {physAddr v flags : Nat} (plain : Plain cpu p4 s own) (hphys : physAddr < 2 ^ 64)
    (hv : v < 2 ^ 64) (hflags : flags < 2 ^ 64) (meets : Meets cpu s (.mapPage physAddr v flags)) :
    (∃ own', Plain cpu p4 (pagingMapPage physAddr v flags s).2 own') ∧
      ∀ a, (pagingMapPage physAddr v flags s).2.ram a ≠ s.ram a →
        InPageTable (pagingMapPage physAddr v flags s).2 a ∨ InBitmap s a := by
  obtain ⟨hhigh, htables, hleaf⟩ := meets
  obtain ⟨s', own', ext, hsame, hrun⟩ := pagingMapPage_extends plain.forest plain.root
    (plain.high hhigh) (htables.symm.imp_left And.left) physAddr hv
  have plain' : Plain cpu p4 s' own' := by
    rcases htables with htabled | ⟨hplain, hno⟩
    · obtain ⟨rfl, rfl⟩ := hsame htabled
      exact plain
    · exact plain.extend ext hplain hno
  have hgrown : ∀ a, s'.ram a ≠ s.ram a → InPageTable s' a ∨ InBitmap s a := fun a ha =>
    (ext.written a ha).imp_left
      (inPageTable_of_inTable plain'.forest plain'.root (plain'.high hhigh))
  rcases hrun with ⟨hrun, -⟩ | ⟨hrun, -, -⟩ | ⟨-, hunmapped, pt, hpt, habsent, hrun⟩
  · rw [hrun]
    exact ⟨⟨own', plain'⟩, hgrown⟩
  · rw [hrun]
    exact ⟨⟨own', plain'⟩, hgrown⟩
  · rw [hrun]
    dsimp only
    obtain ⟨u, hu, hdepth⟩ :=
      own_of_reach_path plain'.forest plain'.root (plain'.high hhigh) hpt
    have hacc : cpu.accepts (pagingMakeEntry physAddr (PAGE_PRESENT ||| flags)) = true :=
      hleaf.resolve_left hunmapped
    have hentry : pagingMakeEntry physAddr (PAGE_PRESENT ||| flags) < 2 ^ 64 :=
      Nat.or_lt_two_pow (lt_of_le_of_lt Nat.and_le_left hphys)
        (Nat.or_lt_two_pow (by decide) hflags)
    have plain'' := plain'.setLeaf (i := index 12 v) hu hdepth hentry (Or.inr hacc)
    set s'' := setEntry s' pt (index 12 v)
      (pagingMakeEntry physAddr (PAGE_PRESENT ||| flags)) with hs''
    refine ⟨⟨own', plain''⟩, fun a ha => ?_⟩
    -- the entry written is in the leaf table, and no path to a table runs through it
    have hkept : ∀ {is : List (Fin 512)} {f : Nat}, is <+: path v → reach s' is = some f →
        reach s'' is = some f := by
      intro is f his hreach
      refine @reach_kept p4 s' own' plain'.forest plain'.root s'' rfl
        (fun g w j hw hpresent => ?_) is f his.length_le hreach
      refine tables_setEntry_other (plain'.forest.table pt u hu).aligned
        (plain'.forest.table g w hw).aligned ?_
      rintro ⟨rfl, rfl⟩
      rw [hpresent] at habsent
      cases habsent
    have htable : ∀ {a}, InTable s' v a → InPageTable s'' a := by
      rintro a ⟨is, f, his, hreach, hrange⟩
      exact inPageTable_of_inTable plain''.forest plain''.root (plain''.high hhigh)
        ⟨is, f, his, hkept his hreach, hrange⟩
    by_cases hin : entryPtr pt (index 12 v) ≤ a ∧ a < entryPtr pt (index 12 v) + 8
    · have hrange := entryPtr_range pt (index 12 v)
      exact Or.inl (htable ⟨path v, pt, List.prefix_rfl, hpt, hrange.1.trans hin.1,
        lt_of_lt_of_le hin.2 hrange.2⟩)
    · have hsame' : s''.ram a = s'.ram a := writeLE_frame _ _ 8 _ hin
      rw [hsame'] at ha
      exact (ext.written a ha).imp_left htable

end Plain

/-! ### Runs -/

theorem plain_pagingBoot {cpu : Processor} {mmap : List MemoryMapEntry} {p4 : Nat} {ram : Store}
    (layout : BootLayout mmap p4 ram)
    (fits : PAGE_SIZE * ((pagingBoot mmap p4 ram).pmm.bitmapSize * 8) ≤ 2 ^ cpu.physBits) :
    Plain cpu p4 (pagingBoot mmap p4 ram) (bootUses p4) := by
  have hinside := layout.inKernel
  refine ⟨forest_pagingBoot layout, rfl, fun f u i hu _ hpresent => ?_, fits⟩
  refine Processor.accepts_of_lt hpresent ?_
  obtain ⟨hslot₄, hslot₃, hslot₂⟩ := pagingBoot_slots layout i
  simp only [PAGE_SIZE, kernelEnd] at hinside
  rcases bootUses_eq_some hu with ⟨rfl, -⟩ | ⟨rfl, -⟩ | ⟨rfl, -⟩
  · rw [hslot₄]
    split
    · simp only [p3Table, PAGE_SIZE]
      omega
    · decide
  · rw [hslot₃]
    split
    · simp only [p2Table, PAGE_SIZE]
      omega
    · decide
  · have hi := i.isLt
    rw [hslot₂]
    unfold largeEntry
    omega

theorem plain_step {cpu : Processor} {p4 : Nat} {s s' : State} {call : MapCall}
    (plain : ∃ own, Plain cpu p4 s own) (step : CarefulStep cpu s call s') :
    ∃ own, Plain cpu p4 s' own := by
  obtain ⟨own, plain⟩ := plain
  obtain ⟨call, meets⟩ := step
  cases call with
  | mapPage hphys hv hflags => exact (plain.mapPage hphys hv hflags meets).1
  | unmapPage hv => exact ⟨own, plain.unmapPage meets⟩

/-- **Where the lookup is right.** Take the tables of `boot.asm` and any run of
`paging_map_page` and `paging_unmap_page` that keeps out of the first gigabyte and has
the processor accept what it maps. In every state reached, the lookup of a canonical
address gives what the processor does exactly when `Agrees` says so; and the next such
call of `paging_map_page` writes to page tables and the bitmap only. -/
theorem lookup_agrees_iff {cpu : Processor} {mmap : List MemoryMapEntry} {p4 : Nat} {ram : Store}
    {calls : List MapCall} {s : State} (layout : BootLayout mmap p4 ram)
    (fits : PAGE_SIZE * ((pagingBoot mmap p4 ram).pmm.bitmapSize * 8) ≤ 2 ^ cpu.physBits)
    (run : Run (CarefulStep cpu) (pagingBoot mmap p4 ram) calls s) :
    (∀ v, Canonical v → (pagingGetPhysicalAddress v s = physicalAddress cpu s v ↔ Agrees s v)) ∧
      ∀ physAddr v flags s', CarefulStep cpu s (.mapPage physAddr v flags) s' →
        ∀ a, s'.ram a ≠ s.ram a → InPageTable s' a ∨ InBitmap s a := by
  obtain ⟨own, plain⟩ := run.invariant (I := fun s => ∃ own, Plain cpu p4 s own)
    plain_step ⟨_, plain_pagingBoot layout fits⟩
  refine ⟨fun v hv => lookup_agrees plain hv, fun physAddr v flags s' step => ?_⟩
  obtain ⟨call, meets⟩ := step
  cases call with
  | mapPage hphys hv hflags => exact (plain.mapPage hphys hv hflags meets).2

/-- A processor with 36-bit physical addresses, and nothing else enabled. -/
def smallProcessor : Processor := ⟨36, false, false, by decide, by decide⟩

theorem exampleBoot_fits :
    PAGE_SIZE * (exampleBoot.pmm.bitmapSize * 8) ≤ 2 ^ smallProcessor.physBits := by
  have hsize : exampleBoot.pmm.bitmapSize = 4096 := by decide +kernel
  rw [hsize]
  decide

/-- One page mapped at 1 GB. -/
theorem lookup_agrees_iff_mapped :
    ∃ s, Run (CarefulStep smallProcessor) exampleBoot [.mapPage 0x400000 0x40000000 6] s ∧
      ∀ v, Canonical v →
        (pagingGetPhysicalAddress v s = physicalAddress smallProcessor s v ↔ Agrees s v) := by
  have meets : Meets smallProcessor exampleBoot (.mapPage 0x400000 0x40000000 6) :=
    ⟨by decide, Or.inr ⟨⟨⟨by decide, by decide⟩, by decide⟩, Or.inr (by decide)⟩,
      Or.inr (by decide)⟩
  have run : Run (CarefulStep smallProcessor) exampleBoot [.mapPage 0x400000 0x40000000 6] _ :=
    .single ⟨.mapPage (by decide) (by decide) (by decide), meets⟩
  exact ⟨_, run, (lookup_agrees_iff bootLayout_exampleBoot exampleBoot_fits run).1⟩

/-- The second page of memory, right after the boot: the processor maps it, and the lookup
says that nothing does. -/
theorem lookup_misses_large_page :
    Canonical 0x1000 ∧ physicalAddress smallProcessor exampleBoot 0x1000 = 0x1000 ∧
      pagingGetPhysicalAddress 0x1000 exampleBoot = NULL := by
  have plain : Plain smallProcessor 0x104000 exampleBoot (bootUses 0x104000) :=
    plain_pagingBoot bootLayout_exampleBoot exampleBoot_fits
  have hlow : InLargePages 0x1000 := by decide
  refine ⟨by decide, congrArg (Option.getD · NULL) (translate_low (by decide) hlow plain), ?_⟩
  -- the word at address 8 is taken for the entry of the page
  have hstray : tables exampleBoot.ram (0x200000 * (index 21 0x1000 : Nat)) (index 12 0x1000)
      = 0 := by
    decide +kernel
  have hptr : entryPtr (0x200000 * (index 21 0x1000 : Nat)) (index 12 0x1000) ≠ NULL := by decide
  rw [lookup_of_reach (reach_low plain.forest plain.pml4 hlow), if_neg hptr, hstray]
  rfl

end Curnel.Paging
