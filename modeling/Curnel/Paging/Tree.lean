/-
The four-level tree of page tables as a radix tree.

A table is the frame it starts at, an index is nine bits of the address, and the
entries are read from memory. `TreeOk` is the invariant: no table is reached on
two paths, none can be handed out as a frame and none meets the bitmap.
`pagingWalk_spec` says what a walk that allocates does to the tree: it may add
empty tables on the path of its address, and changes no leaf entry.
-/

import Curnel.Paging.Frames
import Curnel.Lib.Radix

namespace Curnel.Paging

open Lib.Bytes Lib.Word Lib.Radix

/-! ### Tables, indices and paths -/

instance neZero_entries : NeZero 512 := ⟨by decide⟩

/-- The entries of the table in frame `f`. -/
def tables (m : Store) (f : Nat) (i : Fin 512) : Nat := entryAt m (entryPtr f i)

def present (entry : Nat) : Bool := entry &&& PAGE_PRESENT ≠ 0

/-- The table or page that an entry leads to. -/
def child (entry : Nat) : Nat := entry &&& ADDRESS_MASK

/-- The nine bits of an address from bit `shift` on. -/
def index (shift virtAddr : Nat) : Fin 512 :=
  ⟨(virtAddr >>> shift) &&& 0x1FF, lt_of_le_of_lt Nat.and_le_right (by decide)⟩

theorem index_val (shift v : Nat) : (index shift v : Nat) = v / 2 ^ shift % 512 := by
  change (v >>> shift) &&& (2 ^ 9 - 1) = _
  rw [Nat.and_two_pow_sub_one_eq_mod, Nat.shiftRight_eq_div_pow]

/-- The indices that lead from the root to the leaf table of an address. -/
def path (virtAddr : Nat) : List (Fin 512) :=
  [index 39 virtAddr, index 30 virtAddr, index 21 virtAddr]

/-- The table that a path leads to. -/
def reach (s : State) (is : List (Fin 512)) : Option Nat :=
  follow present child (tables s.ram) s.vmm.pml4 is

/-- The present leaf entry of an address. -/
def leafEntry (s : State) (virtAddr : Nat) : Option Nat :=
  leaf present child (tables s.ram) s.vmm.pml4 (path virtAddr) (index 12 virtAddr)

theorem length_of_prefix_concat {v : Nat} {is : List (Fin 512)} {i : Fin 512}
    (h : is ++ [i] <+: path v) : is.length + 1 ≤ 3 := by
  have hlen := h.length_le
  rw [List.length_append, List.length_singleton] at hlen
  exact hlen

/-- One index further down a path. -/
theorem path_next {v : Nat} {done rest : List (Fin 512)} {i : Fin 512}
    (hpath : done ++ i :: rest = path v) :
    done ++ [i] <+: path v ∧ (done ++ [i]) ++ rest = path v ∧ done.length + 1 ≤ 3 := by
  have hpath' : (done ++ [i]) ++ rest = path v := by
    rw [← hpath, List.append_assoc]
    rfl
  have hshared : done ++ [i] <+: path v := ⟨rest, hpath'⟩
  exact ⟨hshared, hpath', length_of_prefix_concat hshared⟩

/-! ### Leaf entries -/

/-- An address with a present leaf entry has a leaf table. -/
theorem reach_of_leafEntry {s : State} {v entry : Nat} (h : leafEntry s v = some entry) :
    ∃ pt, reach s (path v) = some pt ∧ tables s.ram pt (index 12 v) = entry ∧
      present entry = true := by
  rw [leafEntry, leaf, Option.bind_eq_some_iff] at h
  obtain ⟨pt, hpt, hentry⟩ := h
  split at hentry
  next hpresent =>
    cases hentry
    exact ⟨pt, hpt, rfl, hpresent⟩
  next => cases hentry

theorem leafEntry_of_reach {s : State} {v pt : Nat} (h : reach s (path v) = some pt) :
    leafEntry s v = if present (tables s.ram pt (index 12 v)) then
      some (tables s.ram pt (index 12 v)) else none := by
  unfold reach at h
  rw [leafEntry, leaf, h]
  rfl

/-! ### Entries -/

/-- An entry made for a page carries the page's address and the flags, apart. -/
theorem pagingMakeEntry_eq {a flags : Nat} (ha : a < 2 ^ 40) (hflags : flags < 2 ^ 12) :
    pagingMakeEntry (PAGE_SIZE * a) flags = PAGE_SIZE * a + flags := by
  have hmask : PAGE_SIZE * a &&& ADDRESS_MASK = a * 2 ^ 12 := by
    calc PAGE_SIZE * a &&& ADDRESS_MASK
        = PAGE_SIZE * a / 2 ^ 12 % 2 ^ 40 * 2 ^ 12 := land_field (PAGE_SIZE * a) 12 40
      _ = a * 2 ^ 12 := by simp only [PAGE_SIZE]; omega
  rw [pagingMakeEntry, hmask, lor_low a flags 12 hflags]
  simp only [PAGE_SIZE]
  omega

theorem child_eq {a flags : Nat} (ha : a < 2 ^ 40) (hflags : flags < 2 ^ 12) :
    child (PAGE_SIZE * a + flags) = PAGE_SIZE * a := by
  calc child (PAGE_SIZE * a + flags)
      = (PAGE_SIZE * a + flags) / 2 ^ 12 % 2 ^ 40 * 2 ^ 12 :=
        land_field (PAGE_SIZE * a + flags) 12 40
    _ = PAGE_SIZE * a := by simp only [PAGE_SIZE]; omega

theorem present_iff {entry : Nat} : present entry = true ↔ entry % 2 = 1 := by
  have hbit : entry &&& PAGE_PRESENT = entry % 2 := Nat.and_one_is_mod entry
  rw [present, hbit, decide_eq_true_eq]
  omega

theorem present_eq_false_iff {entry : Nat} :
    present entry = false ↔ entry &&& PAGE_PRESENT = 0 := by
  simp [present]

/-- Joined with `PAGE_PRESENT`, flags make an entry present. -/
theorem present_add {a flags : Nat} : present (PAGE_SIZE * a + (PAGE_PRESENT ||| flags)) = true := by
  rw [present_iff]
  have hodd : (PAGE_PRESENT ||| flags) % 2 = 1 := Nat.or_mod_two_eq_one.mpr (Or.inl rfl)
  simp only [PAGE_SIZE]
  omega

theorem flags_lt {flags : Nat} (h : flags < 2 ^ 12) : PAGE_PRESENT ||| flags < 2 ^ 12 :=
  Nat.or_lt_two_pow (by decide) h

/-! ### The invariant -/

/-- What holds of each table of the tree. -/
structure TableOk (s : State) (f : Nat) : Prop where
  aligned : PAGE_SIZE ∣ f
  spared : Spared s f PAGE_SIZE
  clear : f + PAGE_SIZE ≤ s.pmm.bitmap ∨ s.pmm.bitmap + s.pmm.bitmapSize ≤ f

structure TreeOk (s : State) : Prop where
  frames : FramesOk s
  separated : Separated present child (tables s.ram) s.vmm.pml4 3
  table : ∀ is f, is.length ≤ 3 → reach s is = some f → TableOk s f
  nonnull : ∀ is f, is.length ≤ 3 → is ≠ [] → reach s is = some f → f ≠ NULL

/-- An entry lies inside its table. -/
theorem entryPtr_range (f : Nat) (i : Fin 512) :
    f ≤ entryPtr f i ∧ entryPtr f i + 8 ≤ f + PAGE_SIZE := by
  have hi := i.isLt
  simp only [entryPtr, PAGE_SIZE]
  omega

/-- Different entries of aligned tables do not overlap. -/
theorem entryPtr_apart {f g : Nat} {i j : Fin 512} (hf : PAGE_SIZE ∣ f) (hg : PAGE_SIZE ∣ g)
    (h : ¬ (g = f ∧ j = i)) :
    entryPtr f i + 8 ≤ entryPtr g j ∨ entryPtr g j + 8 ≤ entryPtr f i := by
  obtain ⟨a, rfl⟩ := hf
  obtain ⟨b, rfl⟩ := hg
  have hi := i.isLt
  have hj := j.isLt
  have hne : a = b → (j : Nat) ≠ i := by
    rintro rfl heq
    exact h ⟨rfl, Fin.ext heq⟩
  simp only [entryPtr, PAGE_SIZE]
  omega

/-! ### Writing one entry -/

/-- Writing entry `i` of table `f`. -/
def setEntry (s : State) (f : Nat) (i : Fin 512) (entry : Nat) : State :=
  { s with ram := setEntryAt s.ram (entryPtr f i) entry }

section SetEntry

variable {s : State} {f g entry : Nat} {i j : Fin 512}

theorem tables_setEntry_same (hentry : entry < 2 ^ 64) :
    tables (setEntry s f i entry).ram f i = entry := by
  unfold tables setEntry entryAt setEntryAt
  rw [readLE_writeLE_same]
  exact Nat.mod_eq_of_lt hentry

theorem tables_setEntry_other (hf : PAGE_SIZE ∣ f) (hg : PAGE_SIZE ∣ g)
    (h : ¬ (g = f ∧ j = i)) : tables (setEntry s f i entry).ram g j = tables s.ram g j :=
  readLE_writeLE_disjoint (entryPtr_apart hf hg h)

/-- The bitmap does not notice a write to a table. -/
theorem free_setEntry (ok : TableOk s f) (k : Nat) : Free (setEntry s f i entry) k ↔ Free s k := by
  have hbytes : ∀ k < s.pmm.bitmapSize * 8,
      bitmapByte (setEntry s f i entry) k = bitmapByte s k := by
    intro k hk
    have hrange := entryPtr_range f i
    have hclear := ok.clear
    have hapart : entryPtr f i + 8 ≤ s.pmm.bitmap + k / 8 ∨
        s.pmm.bitmap + k / 8 + 1 ≤ entryPtr f i := by omega
    exact readLE_writeLE_disjoint hapart
  exact @free_congr s (setEntry s f i entry) rfl hbytes k

theorem TableOk.setEntry (hg : TableOk s g) (hf : TableOk s f) :
    TableOk (setEntry s f i entry) g :=
  ⟨hg.aligned, hg.spared.mono fun k hk => (free_setEntry hf k).mp hk, hg.clear⟩

theorem FramesOk.setEntry (ok : FramesOk s) (hf : TableOk s f) :
    FramesOk (setEntry s f i entry) :=
  ⟨ok.bound, ok.bitmap.mono fun k hk => (free_setEntry hf k).mp hk⟩

end SetEntry

/-- Where the tables of the tree are read, a write to one entry is seen there only. -/
theorem TreeOk.tables_setEntry {s : State} {f entry : Nat} {i : Fin 512} (ok : TreeOk s)
    (hf : TableOk s f) (js : List (Fin 512)) (g : Nat) (j : Fin 512) (hjs : js.length ≤ 3)
    (hfollow : reach s js = some g) (h : ¬ (g = f ∧ j = i)) :
    tables (setEntry s f i entry).ram g j = tables s.ram g j :=
  tables_setEntry_other hf.aligned (ok.table js g hjs hfollow).aligned h

/-! ### A leaf entry -/

section SetLeaf

variable {s : State} {f entry : Nat} {is : List (Fin 512)} {i : Fin 512} (ok : TreeOk s)
  (hleaf : reach s is = some f) (hlen : is.length = 3)
include ok hleaf hlen

theorem reach_setLeaf {js : List (Fin 512)} (hjs : js.length ≤ 3) :
    reach (setEntry s f i entry) js = reach s js :=
  follow_set ok.separated hleaf hlen
    (ok.tables_setEntry (ok.table is f (Nat.le_of_eq hlen) hleaf)) hjs

theorem TreeOk.setLeaf : TreeOk (setEntry s f i entry) := by
  have hf := ok.table is f (Nat.le_of_eq hlen) hleaf
  refine ⟨ok.frames.setEntry hf, separated_set ok.separated hleaf hlen (ok.tables_setEntry hf),
    fun js g hjs hg => ?_, fun js g hjs hne hg => ?_⟩
  · rw [reach_setLeaf ok hleaf hlen hjs] at hg
    exact (ok.table js g hjs hg).setEntry hf
  · rw [reach_setLeaf ok hleaf hlen hjs] at hg
    exact ok.nonnull js g hjs hne hg

end SetLeaf

/-! ### A fresh table -/

/-- Taking a frame leaves the tree as it is: the frame is none of its tables. -/
theorem tables_takePage {s : State} {k f : Nat} (ok : FramesOk s) (hfree : Free s k)
    (hf : TableOk s f) (i : Fin 512) :
    tables (pmmTakePage k s).2.ram f i = tables s.ram f i := by
  have hrange := entryPtr_range f i
  have hclear := hf.clear
  have hspared := hf.spared k hfree
  exact takePage_readLE ok.addressable hfree (by omega) (by omega)

theorem tables_takePage_fresh {s : State} {k : Nat} (ok : FramesOk s) (hfree : Free s k)
    (i : Fin 512) : tables (pmmTakePage k s).2.ram (PAGE_SIZE * k) i = 0 := by
  have hrange := entryPtr_range (PAGE_SIZE * k) i
  exact takePage_zero ok.addressable hfree (by omega) (by omega)

theorem TableOk.takePage {s : State} {k f : Nat} (hf : TableOk s f) (ok : FramesOk s)
    (hfree : Free s k) : TableOk (pmmTakePage k s).2 f := by
  refine ⟨hf.aligned, hf.spared.mono fun j hj => ((takePage_free ok.addressable hfree j).mp hj).1, ?_⟩
  rw [pmmTakePage_bitmap, pmmTakePage_bitmapSize]
  exact hf.clear

/-- The frame taken is a table of its own: aligned, clear of the bitmap, and not
to be handed out again. -/
theorem tableOk_takePage_fresh {s : State} {k : Nat} (ok : FramesOk s) (hfree : Free s k) :
    TableOk (pmmTakePage k s).2 (PAGE_SIZE * k) := by
  refine ⟨dvd_mul_right _ _, fun j hj => ?_, ?_⟩
  · have hne := ((takePage_free ok.addressable hfree j).mp hj).2
    simp only [PAGE_SIZE]
    omega
  · rw [pmmTakePage_bitmap, pmmTakePage_bitmapSize]
    exact ok.bitmap k hfree

section TakePage

variable {s : State} {k : Nat} (ok : TreeOk s) (hfree : Free s k)
include ok hfree

theorem reach_takePage {js : List (Fin 512)} (hjs : js.length ≤ 3) :
    reach (pmmTakePage k s).2 js = reach s js := by
  unfold reach
  rw [pmmTakePage_vmm]
  apply follow_congr
  rintro is i ls g rfl hfollow
  simp only [List.length_append, List.length_cons] at hjs
  exact tables_takePage ok.frames hfree (ok.table is g (by omega) hfollow) i

theorem leaf_takePage {js : List (Fin 512)} (hjs : js.length ≤ 3) (j : Fin 512) :
    leaf present child (tables (pmmTakePage k s).2.ram) s.vmm.pml4 js j
      = leaf present child (tables s.ram) s.vmm.pml4 js j := by
  have hreach := reach_takePage ok hfree hjs
  unfold reach at hreach
  rw [pmmTakePage_vmm] at hreach
  rw [leaf, leaf, hreach]
  cases hfollow : follow present child (tables s.ram) s.vmm.pml4 js with
  | none => simp only [Option.bind_none]
  | some g =>
      simp only [Option.bind_some]
      rw [tables_takePage ok.frames hfree (ok.table js g hjs hfollow) j]

theorem TreeOk.takePage : TreeOk (pmmTakePage k s).2 := by
  refine ⟨takePage_framesOk ok.frames hfree, fun is js f his hjs hf hg => ?_,
    fun is f his hf => ?_, fun is f his hne hf => ?_⟩
  · have hf' := reach_takePage ok hfree his
    have hg' := reach_takePage ok hfree hjs
    exact ok.separated his hjs (hf'.symm.trans hf) (hg'.symm.trans hg)
  · rw [reach_takePage ok hfree his] at hf
    exact (ok.table is f his hf).takePage ok.frames hfree
  · rw [reach_takePage ok hfree his] at hf
    exact ok.nonnull is f his hne hf

/-- No path of the tree leads to the frame taken. -/
theorem reach_ne_fresh {js : List (Fin 512)} (hjs : js.length ≤ 3) :
    reach s js ≠ some (PAGE_SIZE * k) := by
  intro hreach
  have hspared := (ok.table js _ hjs hreach).spared k hfree
  simp only [PAGE_SIZE] at hspared
  omega

end TakePage

end Curnel.Paging
