/-
Page tables of several roots in one memory, as a typing of their frames.

A root shares the upper half of its slots with the kernel's: `slotOf` counts a copy
of a slot of the kernel's root as that slot. `Forest` is the invariant on the tables:
`own` knows every table that the roots lead to, with the slot that refers to it, and
none of those frames can be handed out or meets the bitmap. The tables that
`boot.asm` sets up are among them; their large pages are the only ones.

A walk that allocates makes the forest grow (`pagingWalk_grows`): it fills absent
slots on its own path with empty tables, and changes no slot beside.
-/

import Curnel.Paging.Walk
import Curnel.Lib.Ownership

namespace Curnel.Paging

open Lib.Bytes Lib.Word Lib.Radix Lib.Ownership

/-! ### Uses of frames -/

structure Place where
  table : Nat
  slot : Fin 512

/-- What a frame is used for: it is a table, `depth` links below a root, or a page, for
a `depth` of four; and the slot that refers to it. -/
structure Use where
  depth : Nat
  place : Option Place

def Use.root : Use := ⟨0, none⟩

/-- An entry that leads to a table, as no large page does. -/
def links (entry : Nat) : Bool := present entry && decide (entry &&& PAGE_SIZE_BIT = 0)

/-- Slot `i` of the table `f`. In the upper half of a root, a copy of a slot of the
kernel's root counts as that slot. -/
def slotOf (m : Store) (kernelRoot : Nat) (u : Use) (f : Nat) (i : Fin 512) : Place :=
  if u.depth = 0 ∧ 256 ≤ (i : Nat) ∧ tables m f i = tables m kernelRoot i then ⟨kernelRoot, i⟩
  else ⟨f, i⟩

/-- The table that a slot refers to. -/
def tableEdge (m : Store) (kernelRoot : Nat) (u : Use) (f : Nat) (i : Fin 512) :
    Option (Nat × Use) :=
  if u.depth < 3 ∧ links (tables m f i) = true then
    some (child (tables m f i), ⟨u.depth + 1, some (slotOf m kernelRoot u f i)⟩)
  else none

/-- The page that a slot of a leaf table refers to. -/
def pageEdge (m : Store) (u : Use) (f : Nat) (i : Fin 512) : Option (Nat × Use) :=
  if u.depth = 3 ∧ present (tables m f i) = true then
    some (child (tables m f i), ⟨4, some ⟨f, i⟩⟩)
  else none

/-! ### The tables of `boot.asm` -/

/-- One large page: 2 MB of memory at its own address. -/
def largeEntry (i : Nat) : Nat := 0x200000 * i + 0x83

/-- What `setup_page_tables` leaves in the tables. -/
structure BootTables (m : Store) (p4 : Nat) : Prop where
  top : tables m p4 0 = p3Table p4 + 3
  middle : tables m (p3Table p4) 0 = p2Table p4 + 3
  bottom : ∀ i, tables m (p2Table p4) i = largeEntry i

/-! ### The invariant -/

structure Forest (p4 : Nat) (s : State) (own : Nat → Option Use) : Prop where
  frames : FramesOk s
  typed : Typed (tableEdge s.ram p4) own
  table : ∀ f u, own f = some u → TableOk s f
  covered : ∀ f u, own f = some u → f / PAGE_SIZE < s.pmm.bitmapSize * 8
  nonnull : ∀ f u, own f = some u → f ≠ NULL
  zero : ¬ Free s 0
  /-- There are no large pages but those of `boot.asm`. -/
  plain : ∀ f u i, own f = some u → u.depth < 3 → f ≠ p2Table p4 →
    present (tables s.ram f i) = true → links (tables s.ram f i) = true
  /-- Absent leaf entries are zero. -/
  clean : ∀ f u i, own f = some u → u.depth = 3 → present (tables s.ram f i) = false →
    tables s.ram f i = 0
  root : own p4 = some Use.root
  middle : own (p3Table p4) = some ⟨1, some ⟨p4, 0⟩⟩
  large : own (p2Table p4) = some ⟨2, some ⟨p3Table p4, 0⟩⟩
  boot : BootTables s.ram p4

/-! ### Entries -/

theorem links_iff {entry : Nat} :
    links entry = true ↔ present entry = true ∧ entry &&& PAGE_SIZE_BIT = 0 := by
  rw [links, Bool.and_eq_true, decide_eq_true_eq]

theorem present_of_links {entry : Nat} (h : links entry = true) : present entry = true :=
  (links_iff.mp h).1

/-- Flags that leave the address of an entry alone. -/
def NoAddress (flags : Nat) : Prop := flags < 2 ^ 64 ∧ flags &&& ADDRESS_MASK = 0

/-- Flags that leave the address of an entry alone and make no large page of it. -/
def PlainFlags (flags : Nat) : Prop := NoAddress flags ∧ flags &&& PAGE_SIZE_BIT = 0

theorem NoAddress.or {a b : Nat} (ha : NoAddress a) (hb : NoAddress b) : NoAddress (a ||| b) := by
  refine ⟨Nat.or_lt_two_pow ha.1 hb.1, ?_⟩
  rw [Nat.and_or_distrib_right, ha.2, hb.2]
  rfl

theorem PlainFlags.or {a b : Nat} (ha : PlainFlags a) (hb : PlainFlags b) :
    PlainFlags (a ||| b) := by
  refine ⟨ha.1.or hb.1, ?_⟩
  rw [Nat.and_or_distrib_right, ha.2, hb.2]
  rfl

theorem plainFlags_present : PlainFlags PAGE_PRESENT := ⟨⟨by decide, by decide⟩, by decide⟩

theorem plainFlags_writable : PlainFlags PAGE_WRITABLE := ⟨⟨by decide, by decide⟩, by decide⟩

theorem plainFlags_user : PlainFlags PAGE_USER := ⟨⟨by decide, by decide⟩, by decide⟩

theorem child_page {a : Nat} (ha : a < 2 ^ 40) : child (PAGE_SIZE * a) = PAGE_SIZE * a := by
  have h := @child_eq a 0 ha (by decide)
  rwa [Nat.add_zero] at h

section MakeEntry

variable {a flags : Nat} (ha : a < 2 ^ 40)
include ha

theorem makeEntry_eq : pagingMakeEntry (PAGE_SIZE * a) flags = PAGE_SIZE * a ||| flags := by
  have hchild := child_page ha
  unfold child at hchild
  rw [pagingMakeEntry, hchild]

theorem makeEntry_lt (hflags : flags < 2 ^ 64) :
    pagingMakeEntry (PAGE_SIZE * a) flags < 2 ^ 64 := by
  rw [makeEntry_eq ha]
  refine Nat.or_lt_two_pow ?_ hflags
  simp only [PAGE_SIZE]
  omega

theorem child_makeEntry (hflags : NoAddress flags) :
    child (pagingMakeEntry (PAGE_SIZE * a) flags) = PAGE_SIZE * a := by
  have hchild := child_page ha
  unfold child at hchild
  rw [makeEntry_eq ha, child, Nat.and_or_distrib_right, hchild, hflags.2]
  exact Nat.or_zero _

end MakeEntry

theorem present_makeEntry (physAddr flags : Nat) :
    present (pagingMakeEntry physAddr (PAGE_PRESENT ||| flags)) = true := by
  have hodd : (PAGE_PRESENT ||| flags) % 2 = 1 := Nat.or_mod_two_eq_one.mpr (Or.inl rfl)
  rw [present_iff, pagingMakeEntry]
  exact Nat.or_mod_two_eq_one.mpr (Or.inr hodd)

theorem links_makeEntry {a flags : Nat} (ha : a < 2 ^ 40) (hflags : PlainFlags flags) :
    links (pagingMakeEntry (PAGE_SIZE * a) (PAGE_PRESENT ||| flags)) = true := by
  have hpage : PAGE_SIZE * a &&& PAGE_SIZE_BIT = 0 := by
    have hbit : PAGE_SIZE * a &&& PAGE_SIZE_BIT = PAGE_SIZE * a / 2 ^ 7 % 2 ^ 1 * 2 ^ 7 :=
      land_field (PAGE_SIZE * a) 7 1
    rw [hbit]
    simp only [PAGE_SIZE]
    omega
  refine links_iff.mpr ⟨present_makeEntry _ _, ?_⟩
  rw [makeEntry_eq ha, Nat.and_or_distrib_right, hpage, (plainFlags_present.or hflags).2]
  rfl

namespace BootTables

variable {m : Store} {p4 : Nat} (boot : BootTables m p4) (haligned : PAGE_SIZE ∣ p4)
include boot haligned

theorem present_top : present (tables m p4 0) = true := by
  obtain ⟨a, rfl⟩ := haligned
  rw [boot.top, present_iff, p3Table, PAGE_SIZE]
  omega

theorem present_middle : present (tables m (p3Table p4) 0) = true := by
  obtain ⟨a, rfl⟩ := haligned
  rw [boot.middle, present_iff, p2Table, PAGE_SIZE]
  omega

end BootTables

/-! ### Slots that refer to tables -/

theorem tableEdge_congr {m m' : Store} {p4 f : Nat} {u : Use} {i : Fin 512}
    (hf : tables m' f i = tables m f i) (hroot : tables m' p4 i = tables m p4 i) :
    tableEdge m' p4 u f i = tableEdge m p4 u f i := by
  unfold tableEdge slotOf
  rw [hf, hroot]

theorem tableEdge_of_links {m : Store} {p4 f : Nat} {u : Use} {i : Fin 512}
    (hdepth : u.depth < 3) (h : links (tables m f i) = true) :
    tableEdge m p4 u f i
      = some (child (tables m f i), ⟨u.depth + 1, some (slotOf m p4 u f i)⟩) :=
  if_pos ⟨hdepth, h⟩

theorem tableEdge_of_absent {m : Store} {p4 f : Nat} {u : Use} {i : Fin 512}
    (h : present (tables m f i) = false) : tableEdge m p4 u f i = none := by
  refine if_neg fun ⟨_, hlinks⟩ => ?_
  rw [present_of_links hlinks] at h
  cases h

theorem slotOf_eq {m : Store} {p4 f : Nat} {u : Use} {i : Fin 512} (h : u.depth ≠ 0) :
    slotOf m p4 u f i = ⟨f, i⟩ :=
  if_neg fun hroot => h hroot.1

theorem slotOf_root (m : Store) (p4 : Nat) (u : Use) (i : Fin 512) :
    slotOf m p4 u p4 i = ⟨p4, i⟩ := by
  unfold slotOf
  split <;> rfl

namespace Forest

variable {p4 : Nat} {s : State} {own : Nat → Option Use} {f g : Nat} {u : Use} {i : Fin 512}

theorem ne_large (forest : Forest p4 s own) (hu : own f = some u) (hdepth : u.depth ≠ 2) :
    f ≠ p2Table p4 := by
  rintro rfl
  rw [forest.large] at hu
  cases hu
  exact hdepth rfl

/-- A present slot of a table refers to a table one level down. -/
theorem next (forest : Forest p4 s own) (hu : own f = some u) (hdepth : u.depth < 3)
    (hlarge : f ≠ p2Table p4) (hpresent : present (tables s.ram f i) = true) :
    own (child (tables s.ram f i)) = some ⟨u.depth + 1, some (slotOf s.ram p4 u f i)⟩ :=
  forest.typed hu (tableEdge_of_links hdepth (forest.plain f u i hu hdepth hlarge hpresent))

theorem entryPtr_ne_null (forest : Forest p4 s own) (hu : own f = some u) (i : Fin 512) :
    entryPtr f i ≠ NULL := by
  have hnull := forest.nonnull f u hu
  have hrange := entryPtr_range f i
  exact Nat.pos_iff_ne_zero.mp (lt_of_lt_of_le (Nat.pos_of_ne_zero hnull) hrange.1)

/-- The entry that `boot.asm` makes for a table. -/
theorem child_add (forest : Forest p4 s own) (hu : own f = some u) : child (f + 3) = f := by
  obtain ⟨a, ha⟩ := (forest.table f u hu).aligned
  have hcovered := forest.covered f u hu
  have hbound := forest.frames.bound
  rw [ha, Nat.mul_div_cancel_left a (by decide)] at hcovered
  rw [ha]
  exact child_eq (by omega) (by decide)

/-- A step that leaves the slots of the tables alone. -/
theorem of_same {s' : State} (forest : Forest p4 s own) (frames : FramesOk s')
    (same : ∀ f u i, own f = some u → tables s'.ram f i = tables s.ram f i)
    (table : ∀ f u, own f = some u → TableOk s' f)
    (hsize : s'.pmm.bitmapSize = s.pmm.bitmapSize) (hzero : ¬ Free s' 0) : Forest p4 s' own := by
  refine
    { frames := frames
      typed := forest.typed.cut fun f u i hu =>
        Or.inl (tableEdge_congr (same f u i hu) (same p4 _ i forest.root))
      table := table
      covered := fun f u hu => hsize ▸ forest.covered f u hu
      nonnull := forest.nonnull
      zero := hzero
      plain := fun f u i hu => ?_
      clean := fun f u i hu => ?_
      root := forest.root
      middle := forest.middle
      large := forest.large
      boot := ⟨?_, ?_, fun i => ?_⟩ }
  · rw [same f u i hu]
    exact forest.plain f u i hu
  · rw [same f u i hu]
    exact forest.clean f u i hu
  · rw [same p4 _ 0 forest.root]
    exact forest.boot.top
  · rw [same _ _ 0 forest.middle]
    exact forest.boot.middle
  · rw [same _ _ i forest.large]
    exact forest.boot.bottom i

/-! ### Frames taken and given back -/

end Forest

theorem tables_freePage {s : State} {f k : Nat} (hk : k < s.pmm.bitmapSize * 8) (hf : TableOk s f)
    (i : Fin 512) : tables (pmmFreePage (PAGE_SIZE * k) s).ram f i = tables s.ram f i := by
  have hrange := entryPtr_range f i
  have hclear := hf.clear
  exact (freePage_frame hk).readLE_eq (by omega)

namespace Forest

variable {p4 : Nat} {s : State} {own : Nat → Option Use} {f g : Nat} {u : Use} {i : Fin 512}

theorem takePage {k : Nat} (forest : Forest p4 s own) (hfree : Free s k) :
    Forest p4 (pmmTakePage k s).2 own :=
  forest.of_same (takePage_framesOk forest.frames hfree)
    (fun f u i hu => tables_takePage forest.frames hfree (forest.table f u hu) i)
    (fun f u hu => (forest.table f u hu).takePage forest.frames hfree) rfl
    fun h => forest.zero ((takePage_free forest.frames.addressable hfree 0).mp h).1

/-- Giving back a frame that is not in use. -/
theorem freePage {k : Nat} (forest : Forest p4 s own) (hk : k < s.pmm.bitmapSize * 8)
    (hnull : k ≠ 0) (hunused : own (PAGE_SIZE * k) = none)
    (hclear : PAGE_SIZE * k + PAGE_SIZE ≤ s.pmm.bitmap ∨
      s.pmm.bitmap + s.pmm.bitmapSize ≤ PAGE_SIZE * k) :
    Forest p4 (pmmFreePage (PAGE_SIZE * k) s) own := by
  have hspared : ∀ {a n}, Spared s a n →
      (PAGE_SIZE * k + PAGE_SIZE ≤ a ∨ a + n ≤ PAGE_SIZE * k) →
      Spared (pmmFreePage (PAGE_SIZE * k) s) a n := by
    intro a n hspared hapart j hj
    rcases (freePage_free hk j).mp hj with hold | rfl
    · exact hspared j hold
    · exact hapart
  refine forest.of_same ⟨?_, ?_⟩ (fun f u i hu => ?_) (fun f u hu => ⟨?_, ?_, ?_⟩)
    (pmmFreePage_bitmapSize _ s) fun h => ?_
  · rw [pmmFreePage_bitmapSize]
    exact forest.frames.bound
  · rw [pmmFreePage_bitmap, pmmFreePage_bitmapSize]
    exact hspared forest.frames.bitmap hclear
  · exact tables_freePage hk (forest.table f u hu) i
  · exact (forest.table f u hu).aligned
  · refine hspared (forest.table f u hu).spared ?_
    obtain ⟨a, rfl⟩ := (forest.table f u hu).aligned
    have hne : a ≠ k := by
      rintro rfl
      rw [hunused] at hu
      cases hu
    simp only [PAGE_SIZE]
    omega
  · rw [pmmFreePage_bitmap, pmmFreePage_bitmapSize]
    exact (forest.table f u hu).clear
  · rcases (freePage_free hk 0).mp h with hold | heq
    · exact forest.zero hold
    · exact hnull heq.symm

/-! ### Linking an empty table -/

section Link

variable {a entry : Nat} (forest : Forest p4 s own) (hu : own f = some u) (hdepth : u.depth < 3)
  (habsent : present (tables s.ram f i) = false) (hnew : own g = none)
  (hentry : entry < 2 ^ 64) (hlinks : links entry = true) (hchild : child entry = g)
include forest hu hdepth habsent hnew hentry hlinks hchild

/-- The slots of the tables in use refer to what they did, and the slot written to
the empty table. -/
theorem tableEdge_link {h : Nat} {k : Use} {j : Fin 512} (hk : own h = some k) :
    tableEdge (setEntry s f i entry).ram p4 k h j = tableEdge s.ram p4 k h j ∨
      tableEdge (setEntry s f i entry).ram p4 k h j
        = some (g, ⟨u.depth + 1, some (slotOf (setEntry s f i entry).ram p4 u f i)⟩) := by
  have hf := forest.table f u hu
  have hwritten : tables (setEntry s f i entry).ram f i = entry := tables_setEntry_same hentry
  have same : ∀ {h k j}, own h = some k → ¬ (h = f ∧ j = i) →
      tables (setEntry s f i entry).ram h j = tables s.ram h j := fun hk hne =>
    tables_setEntry_other hf.aligned (forest.table _ _ hk).aligned hne
  by_cases hhere : h = f ∧ j = i
  · obtain ⟨rfl, rfl⟩ := hhere
    rw [hu] at hk
    cases hk
    refine Or.inr ?_
    rw [tableEdge_of_links hdepth (by rw [hwritten]; exact hlinks), hwritten, hchild]
  · refine Or.inl ?_
    by_cases hroot : p4 = f ∧ j = i
    · -- a slot of the kernel's root: other roots have no copy of what was absent, nor
      -- of what is new
      obtain ⟨rfl, rfl⟩ := hroot
      unfold tableEdge slotOf
      rw [same hk hhere, hwritten]
      by_cases hlink : k.depth < 3 ∧ links (tables s.ram h j) = true
      · have hold : tables s.ram h j ≠ tables s.ram p4 j := by
          intro heq
          rw [← heq, present_of_links hlink.2] at habsent
          cases habsent
        have hnewEntry : tables s.ram h j ≠ entry := by
          intro heq
          have hused := forest.typed hk (tableEdge_of_links hlink.1 hlink.2)
          rw [heq, hchild, hnew] at hused
          cases hused
        rw [if_pos hlink, if_pos hlink, if_neg fun h => hnewEntry h.2.2,
          if_neg fun h => hold h.2.2]
      · rw [if_neg hlink, if_neg hlink]
    · exact tableEdge_congr (same hk hhere) (same forest.root hroot)

variable (hlarge : f ≠ p2Table p4) (hpage : TableOk s g)
  (hcovered : g / PAGE_SIZE < s.pmm.bitmapSize * 8) (hnull : g ≠ NULL)
  (hempty : ∀ j, tables s.ram g j = 0)
include hlarge hpage hcovered hnull hempty

theorem link :
    Forest p4 (setEntry s f i entry) (Function.update own g
      (some ⟨u.depth + 1, some (slotOf (setEntry s f i entry).ram p4 u f i)⟩)) := by
  have hf := forest.table f u hu
  set l : Use := ⟨u.depth + 1, some (slotOf (setEntry s f i entry).ram p4 u f i)⟩ with hl
  have hne : ∀ {h k}, own h = some k → h ≠ g := by
    rintro h k hk rfl
    rw [hnew] at hk
    cases hk
  have same : ∀ {h k j}, own h = some k → ¬ (h = f ∧ j = i) →
      tables (setEntry s f i entry).ram h j = tables s.ram h j := fun hk hne =>
    tables_setEntry_other hf.aligned (forest.table _ _ hk).aligned hne
  have hzero : ∀ j, tables (setEntry s f i entry).ram g j = 0 := by
    intro j
    rw [tables_setEntry_other hf.aligned hpage.aligned fun h => hne hu h.1.symm]
    exact hempty j
  have hwritten : tables (setEntry s f i entry).ram f i = entry := tables_setEntry_same hentry
  have hpresent : ∀ {h : Nat} {k : Use} {j : Fin 512}, own h = some k →
      present (tables s.ram h j) = true →
      tables (setEntry s f i entry).ram h j = tables s.ram h j := by
    intro h k j hk hj
    refine same hk ?_
    rintro ⟨rfl, rfl⟩
    rw [habsent] at hj
    cases hj
  refine
    { frames := forest.frames.setEntry hf
      typed := forest.typed.adopt hnew
        (fun h k j hk => tableEdge_link forest hu hdepth habsent hnew hentry hlinks hchild hk)
        fun j h k hedge => ?_
      table := fun h k hk => ?_
      covered := fun h k hk => ?_
      nonnull := fun h k hk => ?_
      zero := fun h => forest.zero ((free_setEntry hf 0).mp h)
      plain := fun h k j hk hdeep hbig hj => ?_
      clean := fun h k j hk hdeep hj => ?_
      root := keep_adopt hnew forest.root
      middle := keep_adopt hnew forest.middle
      large := keep_adopt hnew forest.large
      boot := ⟨?_, ?_, fun j => ?_⟩ }
  · rw [tableEdge_of_absent (by rw [hzero j]; rfl)] at hedge
    cases hedge
  · obtain ⟨rfl, -⟩ | ⟨-, hused⟩ := adopt_eq_some.mp hk
    · exact hpage.setEntry hf
    · exact (forest.table h k hused).setEntry hf
  · obtain ⟨rfl, -⟩ | ⟨-, hused⟩ := adopt_eq_some.mp hk
    · exact hcovered
    · exact forest.covered h k hused
  · obtain ⟨rfl, -⟩ | ⟨-, hused⟩ := adopt_eq_some.mp hk
    · exact hnull
    · exact forest.nonnull h k hused
  · obtain ⟨rfl, -⟩ | ⟨-, hused⟩ := adopt_eq_some.mp hk
    · rw [hzero j] at hj
      cases hj
    · by_cases hhere : h = f ∧ j = i
      · obtain ⟨rfl, rfl⟩ := hhere
        rw [hwritten]
        exact hlinks
      · rw [same hused hhere] at hj ⊢
        exact forest.plain h k j hused hdeep hbig hj
  · obtain ⟨rfl, -⟩ | ⟨-, hused⟩ := adopt_eq_some.mp hk
    · exact hzero j
    · have hother : ¬ (h = f ∧ j = i) := by
        rintro ⟨rfl, -⟩
        rw [hu] at hused
        cases hused
        omega
      rw [same hused hother] at hj ⊢
      exact forest.clean h k j hused hdeep hj
  · rw [hpresent forest.root]
    · exact forest.boot.top
    · exact forest.boot.present_top (forest.table _ _ forest.root).aligned
  · rw [hpresent forest.middle]
    · exact forest.boot.middle
    · exact forest.boot.present_middle (forest.table _ _ forest.root).aligned
  · rw [same forest.large fun h => hlarge h.1.symm]
    exact forest.boot.bottom j

end Link

/-! ### Leaf entries -/

theorem setLeaf {entry : Nat} (forest : Forest p4 s own) (hu : own f = some u)
    (hdepth : u.depth = 3) (hentry : entry < 2 ^ 64)
    (hclean : present entry = false → entry = 0) : Forest p4 (setEntry s f i entry) own := by
  have hf := forest.table f u hu
  have hwritten : tables (setEntry s f i entry).ram f i = entry := tables_setEntry_same hentry
  have same : ∀ {h k j}, own h = some k → ¬ (h = f ∧ j = i) →
      tables (setEntry s f i entry).ram h j = tables s.ram h j := fun hk hne =>
    tables_setEntry_other hf.aligned (forest.table _ _ hk).aligned hne
  -- a table above the leaf tables is another frame
  have above : ∀ {h k} (j), own h = some k → k.depth ≠ 3 →
      tables (setEntry s f i entry).ram h j = tables s.ram h j := by
    intro h k j hk hother
    refine same hk ?_
    rintro ⟨rfl, -⟩
    rw [hu] at hk
    cases hk
    exact hother hdepth
  refine
    { frames := forest.frames.setEntry hf
      typed := forest.typed.cut fun h k j hk => ?_
      table := fun h k hk => (forest.table h k hk).setEntry hf
      covered := forest.covered
      nonnull := forest.nonnull
      zero := fun h => forest.zero ((free_setEntry hf 0).mp h)
      plain := fun h k j hk hdeep hbig hj => ?_
      clean := fun h k j hk hdeep hj => ?_
      root := forest.root
      middle := forest.middle
      large := forest.large
      boot := ⟨?_, ?_, fun j => ?_⟩ }
  · by_cases hk3 : k.depth < 3
    · exact Or.inl (tableEdge_congr (above j hk (by omega)) (above j forest.root (by decide)))
    · exact Or.inr (if_neg fun h => hk3 h.1)
  · rw [above j hk (by omega)] at hj ⊢
    exact forest.plain h k j hk hdeep hbig hj
  · by_cases hhere : h = f ∧ j = i
    · obtain ⟨rfl, rfl⟩ := hhere
      rw [hwritten] at hj ⊢
      exact hclean hj
    · rw [same hk hhere] at hj ⊢
      exact forest.clean h k j hk hdeep hj
  · rw [above 0 forest.root (by decide)]
    exact forest.boot.top
  · rw [above 0 forest.middle (by simp)]
    exact forest.boot.middle
  · rw [above j forest.large (by simp)]
    exact forest.boot.bottom j

/-! ### Frames put to use and given up -/

/-- A frame put to use as a page or as a root. -/
theorem adopt {l : Use} (forest : Forest p4 s own) (hnew : own g = none) (hpage : TableOk s g)
    (hcovered : g / PAGE_SIZE < s.pmm.bitmapSize * 8) (hnull : g ≠ NULL) (hleaf : l.depth ≠ 3)
    (hedges : ∀ i h k, tableEdge s.ram p4 l g i = some (h, k) → own h = some k)
    (hplain : ∀ i, l.depth < 3 → present (tables s.ram g i) = true →
      links (tables s.ram g i) = true) :
    Forest p4 s (Function.update own g (some l)) := by
  refine
    { frames := forest.frames
      typed := forest.typed.adopt hnew (fun _ _ _ _ => Or.inl rfl) hedges
      table := fun h k hk => ?_
      covered := fun h k hk => ?_
      nonnull := fun h k hk => ?_
      zero := forest.zero
      plain := fun h k j hk hdeep hbig hj => ?_
      clean := fun h k j hk hdeep hj => ?_
      root := keep_adopt hnew forest.root
      middle := keep_adopt hnew forest.middle
      large := keep_adopt hnew forest.large
      boot := forest.boot }
  · obtain ⟨rfl, -⟩ | ⟨-, hused⟩ := adopt_eq_some.mp hk
    · exact hpage
    · exact forest.table h k hused
  · obtain ⟨rfl, -⟩ | ⟨-, hused⟩ := adopt_eq_some.mp hk
    · exact hcovered
    · exact forest.covered h k hused
  · obtain ⟨rfl, -⟩ | ⟨-, hused⟩ := adopt_eq_some.mp hk
    · exact hnull
    · exact forest.nonnull h k hused
  · obtain ⟨rfl, rfl⟩ | ⟨-, hused⟩ := adopt_eq_some.mp hk
    · exact hplain j hdeep hj
    · exact forest.plain h k j hused hdeep hbig hj
  · obtain ⟨rfl, rfl⟩ | ⟨-, hused⟩ := adopt_eq_some.mp hk
    · exact absurd hdeep hleaf
    · exact forest.clean h k j hused hdeep hj

/-- A page given up. -/
theorem release {p : Option Place} (forest : Forest p4 s own) (hpage : own g = some ⟨4, p⟩) :
    Forest p4 s (Function.update own g none) := by
  have keep : ∀ {h k}, own h = some k → k.depth ≠ 4 → Function.update own g none h = some k := by
    intro h k hk hother
    refine release_eq_some.mpr ⟨?_, hk⟩
    rintro rfl
    rw [hpage] at hk
    cases hk
    exact hother rfl
  refine
    { frames := forest.frames
      typed := forest.typed.release fun h k j l hk _ hedge => ?_
      table := fun h k hk => forest.table h k (release_eq_some.mp hk).2
      covered := fun h k hk => forest.covered h k (release_eq_some.mp hk).2
      nonnull := fun h k hk => forest.nonnull h k (release_eq_some.mp hk).2
      zero := forest.zero
      plain := fun h k j hk => forest.plain h k j (release_eq_some.mp hk).2
      clean := fun h k j hk => forest.clean h k j (release_eq_some.mp hk).2
      root := keep forest.root (by decide)
      middle := keep forest.middle (by simp)
      large := keep forest.large (by simp)
      boot := forest.boot }
  · -- a table refers to tables
    have hused := forest.typed hk hedge
    rw [hpage] at hused
    cases hused
    unfold tableEdge at hedge
    split at hedge
    next hlink =>
      have hdepth := congrArg Use.depth (Prod.mk.inj (Option.some.inj hedge)).2
      simp only at hdepth
      omega
    next => cases hedge

end Forest

end Curnel.Paging
