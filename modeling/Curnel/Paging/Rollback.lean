/-
What a failed allocation of the kernel leaves behind.

`kmalloc_pages` gives back what it has mapped when it runs out of frames or comes to a page that
is mapped. `Borrows` relates the state before a call to every state on the way: besides the pages
mapped so far and the frame in hand, only tables are new, and what was present is as it was. Each
step of the call keeps it, the steps back too, so with no page left (`Borrows.restores`) the
processor translates every address as before, and the frames that are gone are tables.
-/

import Curnel.Paging.Ranges
import Curnel.Paging.Sharing

namespace Curnel.Paging

open Lib Lib.Bytes Lib.Word Lib.Radix Lib.Ownership

/-! ### What is expected -/

/-- On the way to the pages of the kernel's half there are tables only, and no large page. -/
def HeapInSmallPages (s : State) : Prop :=
  ∀ v js i f, KernelPage v → js ++ [i] <+: path v → reach s js = some f →
    present (tables s.ram f i) = true → links (tables s.ram f i) = true

/-- The frame at `f` serves as a table: the roots lead to it, at most three links down. -/
def Spaces.Table (sp : Spaces) (f : Nat) : Prop := ∃ u, sp.HasRole f (.used u) ∧ u.depth ≤ 3

/-- Nothing is lost from `sp` to `sp'`: the processor translates every address through every root
as before, and the frames that are not free any more are tables. -/
structure Spaces.Restores (sp sp' : Spaces) : Prop where
  roots : sp'.mem.vmm.pml4 = sp.mem.vmm.pml4 ∧ sp'.roots = sp.roots
  translations : ∀ (cpu : Processor) r v, r = sp.mem.vmm.pml4 ∨ r ∈ sp.roots →
    cpu.translate sp'.mem.ram r v = cpu.translate sp.mem.ram r v
  taken : ∀ k, Free sp.mem k → ¬ Free sp'.mem k → sp'.Table (PAGE_SIZE * k)
  kept : ∀ k, Free sp'.mem k → Free sp.mem k

/-- After an allocation of the kernel. -/
def Spaces.after (sp : Spaces) (result : Nat × Kernel) : Spaces := { sp with kernel := result.2 }

/-- An allocation of one page, or of pages that end at 2⁶⁴ at most, loses nothing when it fails. -/
def Spaces.FailsClean (sp : Spaces) : Prop :=
  HeapInSmallPages sp.mem →
    ((kmallocPage sp.kernel).1 = NULL → sp.Restores (sp.after (kmallocPage sp.kernel))) ∧
      ∀ count, sp.kernel.kernelHeap + PAGE_SIZE * count ≤ 2 ^ 64 →
        (kmallocPages count sp.kernel).1 = NULL →
          sp.Restores (sp.after (kmallocPages count sp.kernel))

/-- One more page at the end of a range. -/
theorem pages_concat (addr count : Nat) :
    pages addr (count + 1) = insert (addr + PAGE_SIZE * count) (pages addr count) := by
  unfold pages
  rw [Finset.range_add_one, Finset.image_insert]

/-- Every slot of the table of large pages is present. -/
theorem Forest.ne_large_of_absent {p4 f : Nat} {s : State} {own : Nat → Option Use} {i : Fin 512}
    (forest : Forest p4 s own) (habsent : present (tables s.ram f i) = false) : f ≠ p2Table p4 := by
  rintro rfl
  have hodd : largeEntry i % 2 = 1 := by
    unfold largeEntry
    omega
  rw [forest.boot.bottom i, present_iff.mpr hodd] at habsent
  cases habsent

/-! ### Tables that a walk makes -/

section Descend

variable {p4 v flags : Nat} {s : State} {own : Nat → Option Use} (forest : Forest p4 s own)
  (hroot : own s.vmm.pml4 = some Use.root) (high : High p4 s v) (hflags : PlainFlags flags)
include forest hroot high hflags

/-- A level takes no frame but the one for its table. -/
theorem pagingDescend_takes {f k : Nat} {is : List (Fin 512)} {i : Fin 512}
    (hf : reach s is = some f) (hpath : is ++ [i] <+: path v) (hfree : Free s k) :
    Free (pagingDescend f i true flags s).2 k ∨
      reach (pagingDescend f i true flags s).2 (is ++ [i]) = some (PAGE_SIZE * k) := by
  have hlen := length_of_prefix_concat hpath
  obtain ⟨u, hu, hdepth⟩ := own_of_reach forest hroot (by omega) hf
  cases habsent : present (tables s.ram f i) with
  | true =>
      rw [pagingDescend_present habsent]
      exact Or.inl hfree
  | false =>
      rw [pagingDescend_alloc habsent]
      rcases pmmAllocPage_spec forest.frames.addressable with ⟨-, hnone⟩ | ⟨n, hn, htake⟩
      · exact absurd hfree (hnone k)
      have hn40 : n < 2 ^ 40 := lt_of_lt_of_le hn.1 forest.frames.bound
      have hplain : PlainFlags (PAGE_PRESENT ||| (PAGE_WRITABLE ||| flags)) :=
        plainFlags_present.or (plainFlags_writable.or hflags)
      obtain ⟨-, hreach, -, -⟩ := extends_link forest hroot hf hu hdepth hpath
        (prefix_ne_large forest hroot high hpath hf) habsent hn (makeEntry_lt hn40 hplain.1.1)
        (links_makeEntry hn40 (plainFlags_writable.or hflags)) (child_makeEntry hn40 hplain.1) rfl
      rw [htake, takePage_addr forest.frames.addressable hn,
        if_neg (page_ne_null forest hn), Nat.or_assoc]
      by_cases hsame : k = n
      · rw [hsame]
        exact Or.inr hreach
      · have hstill := (takePage_free forest.frames.addressable hn k).mpr ⟨hfree, hsame⟩
        have htable := (forest.takePage hn).table f u hu
        exact Or.inl ((free_setEntry htable k).mpr hstill)

/-- What the rest of a walk takes, its path leads to. -/
theorem pagingDescendAll_takes {k f : Nat} {done rest : List (Fin 512)}
    (hpath : done ++ rest = path v) (hf : reach s done = some f) (hfree : Free s k) :
    Free (pagingDescendAll true flags rest f s).2 k ∨
      ∃ js, js <+: path v ∧
        reach (pagingDescendAll true flags rest f s).2 js = some (PAGE_SIZE * k) := by
  induction rest generalizing s own done f with
  | nil => exact Or.inl hfree
  | cons i rest ih =>
      obtain ⟨hshared, hpath', hlen⟩ := path_next hpath
      obtain ⟨u, hu, hdepth⟩ := own_of_reach forest hroot (by omega) hf
      have hfirst := pagingDescend_takes forest hroot high hflags hf hshared hfree
      rw [pagingDescendAll]
      rcases pagingDescend_extends forest hroot hf hu hdepth hshared
        (prefix_ne_large forest hroot high hshared hf) hflags with
        ⟨g, hrun, hg⟩ | ⟨-, ⟨hrun, -⟩ | ⟨s₁, own₁, g, ext₁, hrun, hg, -, -⟩⟩
      · rw [hrun]
        exact ih forest hroot high hpath' hg hfree
      · rw [hrun]
        exact Or.inl hfree
      · rw [hrun] at hfirst ⊢
        have hroot₁ : own₁ s₁.vmm.pml4 = some Use.root := by
          rw [ext₁.vmm]
          exact ext₁.owns _ _ hroot
        have high₁ := ext₁.high high
        rcases hfirst with hstill | htable
        · exact ih ext₁.forest hroot₁ high₁ hpath' hg hstill
        · -- the table made here stays where it is
          obtain ⟨s', own', ext', hlast⟩ :=
            pagingDescendAll_extends ext₁.forest hroot₁ high₁ hflags hpath' hg
          have hend : (pagingDescendAll true flags rest g s₁).2 = s' := by
            rcases hlast with ⟨hrest, -⟩ | ⟨pt, hrest, -⟩
            · rw [hrest]
            · rw [hrest]
          refine Or.inr ⟨done ++ [i], hshared, ?_⟩
          change reach (pagingDescendAll true flags rest g s₁).2 _ = _
          rw [hend]
          exact ext'.reach ext₁.forest hroot₁ hshared.length_le htable

theorem pagingWalk_takes {k : Nat} (hfree : Free s k) :
    Free (pagingWalk v true flags s).2 k ∨
      ∃ js, js <+: path v ∧ reach (pagingWalk v true flags s).2 js = some (PAGE_SIZE * k) := by
  have hall := @pagingDescendAll_takes p4 v flags s own forest hroot high hflags k s.vmm.pml4 []
    (path v) rfl rfl hfree
  rw [pagingWalk_eq_descendAll]
  generalize pagingDescendAll true flags (path v) s.vmm.pml4 s = r at hall ⊢
  obtain ⟨_ | pt, s'⟩ := r
  · exact hall
  · exact hall

end Descend

/-! ### Pages in hand -/

/-- From `s` on, the pages `live` have been mapped and the frame `held` is in hand. Besides, only
tables are new, and what was present is as it was. -/
structure Borrows (p4 : Nat) (roots : List Nat) (s : State) (own : Nat → Option Use)
    (live : Finset Nat) (held : Option Nat) (s' : State) (own' : Nat → Option Use) : Prop where
  owned : Owned p4 s' own' roots
  vmm : s'.vmm = s.vmm
  owns : ∀ f u, own f = some u → own' f = some u
  present : ∀ f u i, own f = some u → present (tables s.ram f i) = true →
    tables s'.ram f i = tables s.ram f i
  /-- Above the leaf tables, what is new refers to a new table. -/
  above : ∀ f u i, own' f = some u → u.depth < 3 → Paging.present (tables s'.ram f i) = true →
    own f = some u ∧ tables s'.ram f i = tables s.ram f i ∨
      ∃ k, Free s k ∧ child (tables s'.ram f i) = PAGE_SIZE * k
  /-- A new leaf entry is that of a page in `live`. -/
  leaves : ∀ f u i, own' f = some u → u.depth = 3 → Paging.present (tables s'.ram f i) = true →
    own f = some u ∧ tables s'.ram f i = tables s.ram f i ∨
      ∃ v ∈ live, reach s' (path v) = some f ∧ i = index 12 v
  mapped : ∀ v ∈ live, KernelPage v ∧ ∃ entry k, leafEntry s' v = some entry ∧
    child entry = PAGE_SIZE * k ∧ Free s k
  free : ∀ k, Free s' k → Free s k
  /-- A frame that was free is a table now, or in hand, or that of a page in `live`. -/
  taken : ∀ k, Free s k → Free s' k ∨ held = some k ∨
    (∃ v js, KernelPage v ∧ js <+: path v ∧ reach s' js = some (PAGE_SIZE * k)) ∨
      ∃ v ∈ live, ∃ entry, leafEntry s' v = some entry ∧ child entry = PAGE_SIZE * k

namespace Borrows

variable {p4 : Nat} {roots : List Nat} {s s₁ s₂ : State} {own own₁ own₂ : Nat → Option Use}
  {live : Finset Nat} {held held' : Option Nat} {k v : Nat}

theorem refl (owned : Owned p4 s own roots) : Borrows p4 roots s own ∅ none s own where
  owned := owned
  vmm := rfl
  owns := fun _ _ h => h
  present := fun _ _ _ _ _ => rfl
  above := fun _ _ _ hu _ _ => Or.inl ⟨hu, rfl⟩
  leaves := fun _ _ _ hu _ _ => Or.inl ⟨hu, rfl⟩
  mapped := fun v hv => absurd hv (Finset.notMem_empty v)
  free := fun _ h => h
  taken := fun _ h => Or.inl h

theorem pml4 (b : Borrows p4 roots s own live held s₁ own₁) (hpml4 : s.vmm.pml4 = p4) :
    s₁.vmm.pml4 = p4 := by
  rw [b.vmm, hpml4]

/-- A step that leaves the tables alone. -/
theorem of_same (b : Borrows p4 roots s own live held s₁ own₁) (hpml4 : s.vmm.pml4 = p4)
    (owned : Owned p4 s₂ own₁ roots) (hvmm : s₂.vmm = s₁.vmm)
    (same : ∀ f u i, own₁ f = some u → tables s₂.ram f i = tables s₁.ram f i)
    (hfree : ∀ k, Free s₂ k → Free s k)
    (htaken : ∀ k, Free s₁ k ∨ held = some k → Free s₂ k ∨ held' = some k) :
    Borrows p4 roots s own live held' s₂ own₁ := by
  have forest := b.owned.forest
  have hroot := own_pml4 forest (b.pml4 hpml4)
  have hreach : ∀ {js : List (Fin 512)}, js.length ≤ 3 → reach s₂ js = reach s₁ js :=
    fun hlen => reach_same forest hroot hvmm same hlen
  have hleaf : ∀ {w : Nat}, KernelPage w → leafEntry s₂ w = leafEntry s₁ w :=
    fun hw => leafEntry_same forest hroot hvmm same hw.high
  refine
    { owned := owned
      vmm := hvmm.trans b.vmm
      owns := b.owns
      present := fun f u i hu hpresent => ?_
      above := fun f u i hu hdepth hpresent => ?_
      leaves := fun f u i hu hdepth hpresent => ?_
      mapped := fun v hv => ?_
      free := hfree
      taken := fun k hk => ?_ }
  · rw [same f u i (b.owns f u hu)]
    exact b.present f u i hu hpresent
  · rw [same f u i hu] at hpresent ⊢
    exact b.above f u i hu hdepth hpresent
  · rw [same f u i hu] at hpresent ⊢
    refine (b.leaves f u i hu hdepth hpresent).imp_right fun ⟨w, hw, hpt, hi⟩ => ⟨w, hw, ?_, hi⟩
    exact (hreach (le_refl 3)).trans hpt
  · obtain ⟨hpage, entry, k, hentry, hchild, hk⟩ := b.mapped v hv
    exact ⟨hpage, entry, k, (hleaf hpage).trans hentry, hchild, hk⟩
  · rcases b.taken k hk with hstill | hheld | ⟨w, js, hw, hjs, htable⟩ | ⟨w, hw, entry, hentry, hchild⟩
    · exact (htaken k (Or.inl hstill)).imp_right Or.inl
    · exact (htaken k (Or.inr hheld)).imp_right Or.inl
    · exact Or.inr (Or.inr (Or.inl ⟨w, js, hw, hjs, (hreach hjs.length_le).trans htable⟩))
    · exact Or.inr (Or.inr (Or.inr ⟨w, hw, entry, (hleaf (b.mapped w hw).1).trans hentry, hchild⟩))

/-- Taking a frame. -/
theorem takePage (b : Borrows p4 roots s own live none s₁ own₁) (hpml4 : s.vmm.pml4 = p4)
    (hk : Free s₁ k) :
    Borrows p4 roots s own live (some k) (pmmTakePage k s₁).2 own₁ ∧
      Loose (pmmTakePage k s₁).2 own₁ k := by
  have forest := b.owned.forest
  have hfree := takePage_free forest.frames.addressable hk
  obtain ⟨owned, loose⟩ := b.owned.takePage hk
  refine ⟨b.of_same hpml4 owned rfl (fun f u i hu =>
    tables_takePage forest.frames hk (forest.table f u hu) i) (fun j hj => ?_) fun j hj => ?_, loose⟩
  · exact b.free j ((hfree j).mp hj).1
  · rcases hj with hj | hj
    · by_cases hsame : j = k
      · exact Or.inr (congrArg some hsame.symm)
      · exact Or.inl ((hfree j).mpr ⟨hj, hsame⟩)
    · cases hj

/-- Giving back the frame in hand. -/
theorem freePage (b : Borrows p4 roots s own live (some k) s₁ own₁) (hpml4 : s.vmm.pml4 = p4)
    (hk : Free s k) (loose : Loose s₁ own₁ k) :
    Borrows p4 roots s own live none (pmmFreePage (PAGE_SIZE * k) s₁) own₁ := by
  have forest := b.owned.forest
  have hfree := freePage_free loose.covered
  refine b.of_same hpml4 (b.owned.freePage loose) (pmmFreePage_vmm _ _) (fun f u i hu =>
    tables_freePage loose.covered (forest.table f u hu) i) (fun j hj => ?_) fun j hj => ?_
  · rcases (hfree j).mp hj with hold | rfl
    · exact b.free j hold
    · exact hk
  · refine Or.inl ((hfree j).mpr (hj.imp_right fun h => ?_))
    exact (Option.some.inj h).symm

/-- A walk to a page of the kernel makes tables only. -/
theorem walk (b : Borrows p4 roots s own live held s₁ own₁) (hpml4 : s.vmm.pml4 = p4)
    (hv : KernelPage v) (ext : Extends p4 v PAGE_WRITABLE s₁ own₁ s₂ own₂)
    (htakes : ∀ k, Free s₁ k → Free s₂ k ∨
      ∃ js, js <+: path v ∧ reach s₂ js = some (PAGE_SIZE * k)) :
    Borrows p4 roots s own live held s₂ own₂ := by
  have forest := b.owned.forest
  have hroot := own_pml4 forest (b.pml4 hpml4)
  have hreach : ∀ {js : List (Fin 512)} {f : Nat}, js.length ≤ 3 → reach s₁ js = some f →
      reach s₂ js = some f := fun hlen h => ext.reach forest hroot hlen h
  have hleaf : ∀ {w entry : Nat}, KernelPage w → leafEntry s₁ w = some entry →
      leafEntry s₂ w = some entry := by
    intro w entry hw h
    obtain ⟨pt, hpt, rfl, hpresent⟩ := reach_of_leafEntry h
    obtain ⟨u, hu, -⟩ := own_of_reach_path forest hroot hw.high hpt
    rw [leafEntry_of_reach (hreach (le_refl 3) hpt), ext.slot_present hu hpresent, if_pos hpresent]
  refine
    { owned := b.owned.extend ext
      vmm := ext.vmm.trans b.vmm
      owns := fun f u h => ext.owns f u (b.owns f u h)
      present := fun f u i hu hpresent => ?_
      above := fun f u i hu hdepth hpresent => ?_
      leaves := fun f u i hu hdepth hpresent => ?_
      mapped := fun w hw => ?_
      free := fun k h => b.free k (ext.free k h)
      taken := fun k hk => ?_ }
  · have hsame := b.present f u i hu hpresent
    rw [ext.slot_present (b.owns f u hu) (by rwa [hsame]), hsame]
  · rcases ext.entries f u i hu (by omega) hpresent with ⟨hold, hsame⟩ | ⟨k, hfree, -, hmade⟩
    · rw [hsame] at hpresent ⊢
      exact b.above f u i hold hdepth hpresent
    · have hk : k < 2 ^ 40 := lt_of_lt_of_le hfree.1 forest.frames.bound
      refine Or.inr ⟨k, b.free k hfree, ?_⟩
      rw [hmade]
      exact child_makeEntry hk
        (plainFlags_present.or (plainFlags_writable.or plainFlags_writable)).1
  · cases hold : own₁ f with
    | none =>
        -- a new leaf table is empty
        have hempty := (ext.fresh f u hold hu).2.2 hdepth i
        rw [hempty] at hpresent
        cases hpresent
    | some w =>
        have hw : w = u := Option.some.inj ((ext.owns f w hold).symm.trans hu)
        subst hw
        have hsame : tables s₂.ram f i = tables s₁.ram f i := by
          rcases ext.slots f w i hold with hsame | ⟨hlt, -⟩
          · exact hsame
          · omega
        rw [hsame] at hpresent ⊢
        refine (b.leaves f w i hold hdepth hpresent).imp_right fun ⟨x, hx, hpt, hi⟩ => ?_
        exact ⟨x, hx, hreach (le_refl 3) hpt, hi⟩
  · obtain ⟨hpage, entry, k, hentry, hchild, hk⟩ := b.mapped w hw
    exact ⟨hpage, entry, k, hleaf hpage hentry, hchild, hk⟩
  · rcases b.taken k hk with hstill | hheld | ⟨w, js, hw, hjs, htable⟩ | ⟨w, hw, entry, hentry, hchild⟩
    · rcases htakes k hstill with hstill | ⟨js, hjs, htable⟩
      · exact Or.inl hstill
      · exact Or.inr (Or.inr (Or.inl ⟨v, js, hv, hjs, htable⟩))
    · exact Or.inr (Or.inl hheld)
    · exact Or.inr (Or.inr (Or.inl ⟨w, js, hw, hjs, hreach hjs.length_le htable⟩))
    · exact Or.inr (Or.inr (Or.inr ⟨w, hw, entry, hleaf (b.mapped w hw).1 hentry, hchild⟩))

section Leaf

variable {pt : Nat} (b : Borrows p4 roots s own live held s₁ own₁) (hpml4 : s.vmm.pml4 = p4)
  (hv : KernelPage v) (hpt : reach s₁ (path v) = some pt)
include b hpml4 hv hpt

/-- The leaf table of a page is one of depth three. -/
theorem leafTable : ∃ u, own₁ pt = some u ∧ u.depth = 3 :=
  own_of_reach_path b.owned.forest (own_pml4 b.owned.forest (b.pml4 hpml4)) hv.high hpt

/-- Slots other than the leaf entry of a page are as they were after a write to it. -/
theorem tables_other {f entry : Nat} {u : Use} {i : Fin 512} (hu : own₁ f = some u)
    (hne : ¬ (f = pt ∧ i = index 12 v)) :
    tables (setEntry s₁ pt (index 12 v) entry).ram f i = tables s₁.ram f i := by
  obtain ⟨w, hw, -⟩ := b.leafTable hpml4 hv hpt
  exact tables_setEntry_other (b.owned.forest.table pt w hw).aligned
    (b.owned.forest.table f u hu).aligned hne

/-- The frame in hand is mapped at a page. -/
theorem setLeaf {k : Nat} (hheld : held = some k) (loose : Loose s₁ own₁ k) (hk : Free s k)
    (habsent : Paging.present (tables s₁.ram pt (index 12 v)) = false) :
    Borrows p4 roots s own (insert v live) none
      (setEntry s₁ pt (index 12 v)
        (pagingMakeEntry (PAGE_SIZE * k) (PAGE_PRESENT ||| PAGE_WRITABLE)))
      (Function.update own₁ (PAGE_SIZE * k) (some ⟨4, some ⟨pt, index 12 v⟩⟩)) := by
  have forest := b.owned.forest
  have hroot := own_pml4 forest (b.pml4 hpml4)
  obtain ⟨u, hu, hdepth⟩ := b.leafTable hpml4 hv hpt
  have hk40 : k < 2 ^ 40 := lt_of_lt_of_le loose.covered forest.frames.bound
  have hplain := plainFlags_present.or plainFlags_writable
  have hlt := makeEntry_lt hk40 hplain.1.1
  have hpresent := present_makeEntry (PAGE_SIZE * k) PAGE_WRITABLE
  have hchild := child_makeEntry hk40 hplain.1
  generalize pagingMakeEntry (PAGE_SIZE * k) (PAGE_PRESENT ||| PAGE_WRITABLE) = entry
    at hlt hpresent hchild ⊢
  have htable := forest.table pt u hu
  have hreach : ∀ {js : List (Fin 512)}, js.length ≤ 3 →
      reach (setEntry s₁ pt (index 12 v) entry) js = reach s₁ js :=
    fun hlen => reach_setEntry forest hroot hv.high hpt hlen
  have hwrite : ∀ {w : Nat}, KernelPage w → leafEntry (setEntry s₁ pt (index 12 v) entry) w
      = if pageKey w = pageKey v then some entry else leafEntry s₁ w := by
    intro w hw
    rw [leafEntry_write forest hroot hv.high hw.high hpt hlt, if_pos hpresent]
  have hunmapped : leafEntry s₁ v = none := by
    rw [leafEntry_of_reach hpt, habsent]
    rfl
  -- the pages mapped before are other pages
  have hkeep : ∀ w ∈ live, leafEntry (setEntry s₁ pt (index 12 v) entry) w = leafEntry s₁ w := by
    intro w hw
    obtain ⟨hpage, e, -, he, -⟩ := b.mapped w hw
    rw [hwrite hpage, if_neg]
    intro hsame
    rw [hpage.eq_of_pageKey hv hsame, hunmapped] at he
    cases he
  refine
    { owned := b.owned.setLeaf loose hu hdepth hlt hpresent hchild
      vmm := b.vmm
      owns := fun f w h => keep_adopt loose.unused (b.owns f w h)
      present := fun f w i hw hthere => ?_
      above := fun f w i hw habove hthere => ?_
      leaves := fun f w i hw hleaf hthere => ?_
      mapped := fun w hw => ?_
      free := fun j h => b.free j ((free_setEntry htable j).mp h)
      taken := fun j hj => ?_ }
  · have hsame := b.present f w i hw hthere
    rw [b.tables_other hpml4 hv hpt (b.owns f w hw), hsame]
    rintro ⟨rfl, rfl⟩
    rw [hsame, hthere] at habsent
    cases habsent
  · obtain ⟨-, rfl⟩ | ⟨-, hused⟩ := adopt_eq_some.mp hw
    · exact absurd habove (by simp)
    · have hother : ¬ (f = pt ∧ i = index 12 v) := by
        rintro ⟨rfl, -⟩
        rw [hu] at hused
        cases hused
        omega
      rw [b.tables_other hpml4 hv hpt hused hother] at hthere ⊢
      exact b.above f w i hused habove hthere
  · obtain ⟨-, rfl⟩ | ⟨-, hused⟩ := adopt_eq_some.mp hw
    · cases hleaf
    · by_cases hhere : f = pt ∧ i = index 12 v
      · obtain ⟨rfl, rfl⟩ := hhere
        exact Or.inr ⟨v, Finset.mem_insert_self v live, (hreach (le_refl 3)).trans hpt, rfl⟩
      · rw [b.tables_other hpml4 hv hpt hused hhere] at hthere ⊢
        refine (b.leaves f w i hused hleaf hthere).imp_right fun ⟨x, hx, hpt', hi⟩ => ?_
        exact ⟨x, Finset.mem_insert_of_mem hx, (hreach (le_refl 3)).trans hpt', hi⟩
  · rcases Finset.mem_insert.mp hw with rfl | hw
    · exact ⟨hv, entry, k, (hwrite hv).trans (if_pos rfl), hchild, hk⟩
    · obtain ⟨hpage, e, j, he, hej, hj⟩ := b.mapped w hw
      exact ⟨hpage, e, j, (hkeep w hw).trans he, hej, hj⟩
  · rcases b.taken j hj with hstill | hsame | ⟨w, js, hw, hjs, htable'⟩ | ⟨w, hw, e, he, hej⟩
    · exact Or.inl ((free_setEntry htable j).mpr hstill)
    · obtain rfl := Option.some.inj (hheld.symm.trans hsame)
      exact Or.inr (Or.inr (Or.inr ⟨v, Finset.mem_insert_self v live, entry,
        (hwrite hv).trans (if_pos rfl), hchild⟩))
    · exact Or.inr (Or.inr (Or.inl ⟨w, js, hw, hjs, (hreach hjs.length_le).trans htable'⟩))
    · exact Or.inr (Or.inr (Or.inr ⟨w, Finset.mem_insert_of_mem hw, e, (hkeep w hw).trans he, hej⟩))

end Leaf

/-- Unmapping a page in `live` takes its frame in hand. -/
theorem clearLeaf (b : Borrows p4 roots s own live none s₁ own₁) (hpml4 : s.vmm.pml4 = p4)
    (start : Owned p4 s own roots) (hv : v ∈ live) :
    ∃ pt k own₂, reach s₁ (path v) = some pt ∧ Paging.present (tables s₁.ram pt (index 12 v)) = true ∧
      child (tables s₁.ram pt (index 12 v)) = PAGE_SIZE * k ∧ Free s k ∧
      Borrows p4 roots s own (live.erase v) (some k) (setEntry s₁ pt (index 12 v) 0) own₂ ∧
      Loose (setEntry s₁ pt (index 12 v) 0) own₂ k := by
  have forest := b.owned.forest
  have hroot := own_pml4 forest (b.pml4 hpml4)
  obtain ⟨hpage, entry, n, hentry, hchild, hn⟩ := b.mapped v hv
  obtain ⟨pt, hpt, rfl, hpresent⟩ := reach_of_leafEntry hentry
  obtain ⟨u, hu, hdepth⟩ := b.leafTable hpml4 hpage hpt
  obtain ⟨k, hk, owned', loose⟩ := b.owned.clearLeaf hu hdepth hpresent
  obtain rfl : k = n := Nat.eq_of_mul_eq_mul_left (by decide) (hk.symm.trans hchild)
  have htable := forest.table pt u hu
  have hreach : ∀ {js : List (Fin 512)}, js.length ≤ 3 →
      reach (setEntry s₁ pt (index 12 v) 0) js = reach s₁ js :=
    fun hlen => reach_setEntry forest hroot hpage.high hpt hlen
  have hkeep : ∀ w ∈ live.erase v, leafEntry (setEntry s₁ pt (index 12 v) 0) w = leafEntry s₁ w := by
    intro w hw
    obtain ⟨hne, hw⟩ := Finset.mem_erase.mp hw
    rw [leafEntry_write forest hroot hpage.high (b.mapped w hw).1.high hpt (by decide), if_neg]
    exact fun hsame => hne ((b.mapped w hw).1.eq_of_pageKey hpage hsame)
  have hgone : ∀ f i, Paging.present (tables (setEntry s₁ pt (index 12 v) 0).ram f i) = true →
      ¬ (f = pt ∧ i = index 12 v) := by
    rintro f i hthere ⟨rfl, rfl⟩
    rw [tables_setEntry_same (by decide)] at hthere
    cases hthere
  refine ⟨pt, k, _, hpt, hpresent, hk, hn, ?_, loose⟩
  refine
    { owned := owned'
      vmm := b.vmm
      owns := fun f w h => release_eq_some.mpr ⟨?_, b.owns f w h⟩
      present := fun f w i hw hthere => ?_
      above := fun f w i hw habove hthere => ?_
      leaves := fun f w i hw hleaf hthere => ?_
      mapped := fun w hw => ?_
      free := fun j h => b.free j ((free_setEntry htable j).mp h)
      taken := fun j hj => ?_ }
  · rintro rfl
    rw [own_of_free start.forest hn] at h
    cases h
  · have hsame := b.present f w i hw hthere
    rw [b.tables_other hpml4 hpage hpt (b.owns f w hw), hsame]
    -- what was present leads to no frame that was free
    rintro ⟨rfl, rfl⟩
    obtain rfl := Option.some.inj (hu.symm.trans (b.owns f w hw))
    have hused := start.pages hw (pageEdge_of_present hdepth hthere)
    rw [← hsame, hk, own_of_free start.forest hn] at hused
    cases hused
  · have hused := (release_eq_some.mp hw).2
    have hother := hgone f i hthere
    rw [b.tables_other hpml4 hpage hpt hused hother] at hthere ⊢
    exact b.above f w i hused habove hthere
  · have hused := (release_eq_some.mp hw).2
    have hother := hgone f i hthere
    rw [b.tables_other hpml4 hpage hpt hused hother] at hthere ⊢
    refine (b.leaves f w i hused hleaf hthere).imp_right fun ⟨x, hx, hpt', hi⟩ => ?_
    refine ⟨x, Finset.mem_erase.mpr ⟨?_, hx⟩, (hreach (le_refl 3)).trans hpt', hi⟩
    rintro rfl
    exact hother ⟨Option.some.inj (hpt'.symm.trans hpt), hi⟩
  · obtain ⟨hpage', e, j, he, hej, hj⟩ := b.mapped w (Finset.mem_of_mem_erase hw)
    exact ⟨hpage', e, j, (hkeep w hw).trans he, hej, hj⟩
  · rcases b.taken j hj with hstill | hheld | ⟨w, js, hw, hjs, htable'⟩ | ⟨w, hw, e, he, hej⟩
    · exact Or.inl ((free_setEntry htable j).mpr hstill)
    · cases hheld
    · exact Or.inr (Or.inr (Or.inl ⟨w, js, hw, hjs, (hreach hjs.length_le).trans htable'⟩))
    · by_cases hsame : w = v
      · subst hsame
        rw [leafEntry_of_reach hpt, if_pos hpresent] at he
        rw [← Option.some.inj he, hk] at hej
        exact Or.inr (Or.inl (congrArg some (Nat.eq_of_mul_eq_mul_left (by decide) hej)))
      · have hw' := Finset.mem_erase.mpr ⟨hsame, hw⟩
        exact Or.inr (Or.inr (Or.inr ⟨w, hw', e, (hkeep w hw').trans he, hej⟩))

/-- `kfree_page` for a page in `live`. -/
theorem kfreePage (b : Borrows p4 roots s own live none s₁ own₁) (hpml4 : s.vmm.pml4 = p4)
    (start : Owned p4 s own roots) (hv : v ∈ live) :
    ∃ own₂, Borrows p4 roots s own (live.erase v) none (kfreePage v s₁) own₂ := by
  have hpage := (b.mapped v hv).1
  obtain ⟨pt, k, own₂, hpt, hpresent, hk, hfree, b₂, loose⟩ := b.clearLeaf hpml4 start hv
  obtain ⟨u, hu, -⟩ := b.leafTable hpml4 hpage hpt
  have hptr := b.owned.forest.entryPtr_ne_null hu (index 12 v)
  have hframe := page_ne_null start.forest hfree
  have hphys : pagingGetPhysicalAddress v s₁ = PAGE_SIZE * k := by
    rw [lookup_of_reach hpt, if_neg hptr, hk, Nat.mod_eq_zero_of_dvd hpage.aligned, Nat.add_zero]
  have hbody : Paging.kfreePage v s₁
      = pmmFreePage (PAGE_SIZE * k) (setEntry s₁ pt (index 12 v) 0) := by
    rw [Paging.kfreePage, hphys, if_neg hframe, pagingUnmapPage_of_reach hpt hptr]
  rw [hbody]
  exact ⟨own₂, b₂.freePage hpml4 hfree loose⟩

/-! ### Ways there and back -/

/-- The frame in hand is mapped at a page, or stays in hand. -/
theorem mapPage (b : Borrows p4 roots s own live (some k) s₁ own₁) (hpml4 : s.vmm.pml4 = p4)
    (loose : Loose s₁ own₁ k) (hk : Free s k) (hv : KernelPage v) :
    ∃ s₂ own₂,
      pagingMapPage (PAGE_SIZE * k) v PAGE_WRITABLE s₁ = (NULL, s₂) ∧
          Borrows p4 roots s own live (some k) s₂ own₂ ∧ Loose s₂ own₂ k ∨
        pagingMapPage (PAGE_SIZE * k) v PAGE_WRITABLE s₁ = (v, s₂) ∧
          Borrows p4 roots s own (insert v live) none s₂ own₂ := by
  have forest := b.owned.forest
  have hroot := own_pml4 forest (b.pml4 hpml4)
  obtain ⟨s₂, own₂, hwalk, ext, -, hrun⟩ :=
    pagingMapPage_walk forest hroot hv.high (Or.inl plainFlags_writable) (PAGE_SIZE * k) hv.bound
  have htakes : ∀ j, Free s₁ j → Free s₂ j ∨
      ∃ js, js <+: path v ∧ reach s₂ js = some (PAGE_SIZE * j) := by
    intro j hj
    have htakes := pagingWalk_takes forest hroot hv.high plainFlags_writable hj
    rwa [hwalk] at htakes
  have b₂ := b.walk hpml4 hv ext htakes
  have loose₂ := loose.extend ext
  rcases hrun with ⟨hrun, -⟩ | ⟨hrun, -, -⟩ | ⟨-, -, pt, hpt, habsent, -, hrun⟩
  · exact ⟨s₂, own₂, Or.inl ⟨hrun, b₂, loose₂⟩⟩
  · exact ⟨s₂, own₂, Or.inl ⟨hrun, b₂, loose₂⟩⟩
  · rw [aligned_page hv.aligned] at hrun
    exact ⟨_, _, Or.inr ⟨hrun, b₂.setLeaf hpml4 hv hpt rfl loose₂ hk habsent⟩⟩

section Calls

variable (start : Owned p4 s own roots) (hpml4 : s.vmm.pml4 = p4)
include start hpml4

/-- Giving back the pages mapped so far, from page `i` on. -/
theorem kfreePagesLoop {first n i : Nat}
    (b : Borrows p4 roots s own (pages (first + PAGE_SIZE * i) n) none s₁ own₁)
    (hpages : ∀ w ∈ pages (first + PAGE_SIZE * i) n, KernelPage w) :
    ∃ own₂, Borrows p4 roots s own ∅ none (kfreePagesLoop first n i s₁) own₂ := by
  induction n generalizing s₁ own₁ i with
  | zero => exact ⟨own₁, b⟩
  | succ n ih =>
      have hnext : first + PAGE_SIZE * i + PAGE_SIZE = first + PAGE_SIZE * (i + 1) := by
        rw [Nat.mul_succ, Nat.add_assoc]
      rw [pages_succ, hnext] at b hpages
      have hv := hpages _ (Finset.mem_insert_self _ _)
      have hpage : wadd 64 first (wmul 64 i PAGE_SIZE) = first + PAGE_SIZE * i := by
        have hbound := hv.bound
        rw [wmul_of_lt (by rw [Nat.mul_comm]; omega), Nat.mul_comm i, wadd_of_lt hbound]
      have hnew : first + PAGE_SIZE * i ∉ pages (first + PAGE_SIZE * (i + 1)) n := by
        intro hin
        obtain ⟨j, -, hj⟩ := mem_pages.mp hin
        simp only [PAGE_SIZE] at hj
        omega
      obtain ⟨own₂, b₂⟩ := b.kfreePage hpml4 start (Finset.mem_insert_self _ _)
      rw [Finset.erase_insert hnew] at b₂
      rw [Paging.kfreePagesLoop, hpage]
      exact ih b₂ fun w hw => hpages w (Finset.mem_insert_of_mem hw)

theorem kfreePages {first count : Nat} (b : Borrows p4 roots s own (pages first count) none s₁ own₁) :
    ∃ own₂, Borrows p4 roots s own ∅ none (kfreePages first count s₁) own₂ := by
  refine @kfreePagesLoop p4 roots s s₁ own own₁ start hpml4 first count 0 ?_ fun w hw => ?_
  · exact b
  · exact (b.mapped w hw).1

/-- Mapping pages after `first`, from page `i` on: where it fails, all of them are given back. -/
theorem kmallocPagesLoop {first n i : Nat} (haligned : PAGE_SIZE ∣ first)
    (h : InKernelHalf first (i + n))
    (b : Borrows p4 roots s own (pages first i) none s₁ own₁) :
    ∃ result s₂ own₂, Paging.kmallocPagesLoop first n i s₁ = (result, s₂) ∧
      (result = NULL → Borrows p4 roots s own ∅ none s₂ own₂) := by
  induction n generalizing s₁ own₁ i with
  | zero =>
      refine ⟨first, s₁, own₁, rfl, fun hnull => ?_⟩
      exact absurd hnull (kernelBase_ne_null h.1)
  | succ n ih =>
      have forest := b.owned.forest
      have hv : KernelPage (first + PAGE_SIZE * i) := h.page haligned (by omega)
      have haddr : wadd 64 first (wmul 64 i PAGE_SIZE) = first + PAGE_SIZE * i := by
        have hbound := hv.bound
        rw [wmul_of_lt (by rw [Nat.mul_comm]; omega), Nat.mul_comm i, wadd_of_lt hbound]
      rw [Paging.kmallocPagesLoop]
      rcases pmmAllocPage_spec forest.frames.addressable with ⟨hnone, -⟩ | ⟨k, hfree, htake⟩
      · rw [hnone]
        obtain ⟨own₂, b₂⟩ := b.kfreePages start hpml4
        exact ⟨_, _, own₂, rfl, fun _ => b₂⟩
      have hk := b.free k hfree
      obtain ⟨b₁, loose⟩ := b.takePage hpml4 hfree
      rw [htake]
      dsimp only
      rw [takePage_addr forest.frames.addressable hfree, if_neg (page_ne_null forest hfree), haddr]
      obtain ⟨s₂, own₂, ⟨hrun, b₂, loose₂⟩ | ⟨hrun, b₂⟩⟩ := b₁.mapPage hpml4 loose hk hv
      · rw [hrun, if_pos rfl]
        obtain ⟨own₃, b₃⟩ := (b₂.freePage hpml4 hk loose₂).kfreePages start hpml4
        exact ⟨_, _, own₃, rfl, fun _ => b₃⟩
      · rw [hrun, if_neg (kernelBase_ne_null hv.base)]
        rw [← pages_concat] at b₂
        exact ih (by rwa [Nat.add_right_comm, Nat.add_assoc]) b₂

/-- `kmalloc_page` maps one page, or gives back its frame. -/
theorem kmallocPage {heap : Nat} (hheap : HeapOk heap) :
    ∃ result s₂ heap' own₂, Paging.kmallocPage ⟨s, heap⟩ = (result, ⟨s₂, heap'⟩) ∧
      (result = NULL ∧ Borrows p4 roots s own ∅ none s₂ own₂ ∨
        result = heap ∧ KernelPage heap ∧ Borrows p4 roots s own (pages heap 1) none s₂ own₂) := by
  have forest := start.forest
  have b := Borrows.refl start
  simp only [Paging.kmallocPage]
  rcases pmmAllocPage_spec forest.frames.addressable with ⟨hnone, -⟩ | ⟨k, hfree, htake⟩
  · rw [hnone, if_pos rfl]
    exact ⟨_, _, _, own, rfl, Or.inl ⟨rfl, b⟩⟩
  obtain ⟨b₁, loose⟩ := b.takePage hpml4 hfree
  rw [htake, takePage_addr forest.frames.addressable hfree, if_neg (page_ne_null forest hfree)]
  obtain ⟨haligned, rfl | ⟨hbase, hlt⟩⟩ := hheap
  · rw [b₁.owned.mapPage_zero (b₁.pml4 hpml4), if_pos rfl]
    exact ⟨_, _, _, own, rfl, Or.inl ⟨rfl, b₁.freePage hpml4 hfree loose⟩⟩
  · have hv : KernelPage heap := ⟨haligned, hbase, hlt⟩
    obtain ⟨s₂, own₂, ⟨hrun, b₂, loose₂⟩ | ⟨hrun, b₂⟩⟩ := b₁.mapPage hpml4 loose hfree hv
    · rw [hrun, if_pos rfl]
      exact ⟨_, _, _, own₂, rfl, Or.inl ⟨rfl, b₂.freePage hpml4 hfree loose₂⟩⟩
    · rw [hrun, if_neg (kernelBase_ne_null hbase)]
      exact ⟨_, _, _, own₂, rfl, Or.inr ⟨rfl, hv, b₂⟩⟩

/-- Whichever page `kmalloc_pages` fails at, nothing stays mapped. -/
theorem kmallocPages {heap count : Nat} (hheap : HeapOk heap)
    (hend : heap + PAGE_SIZE * count ≤ 2 ^ 64) :
    ∃ result s₂ heap' own₂, Paging.kmallocPages count ⟨s, heap⟩ = (result, ⟨s₂, heap'⟩) ∧
      (result = NULL → Borrows p4 roots s own ∅ none s₂ own₂) := by
  obtain ⟨first, s₁, heap', own₁, hfirst, ⟨rfl, b₁⟩ | ⟨rfl, hv, b₁⟩⟩ :=
    kmallocPage start hpml4 hheap
  · unfold Paging.kmallocPages
    rw [hfirst]
    dsimp only
    rw [if_pos rfl]
    exact ⟨_, _, _, own₁, rfl, fun _ => b₁⟩
  · have hinside : InKernelHalf first (1 + (count - 1)) := by
      refine ⟨hv.base, ?_⟩
      obtain ⟨a, rfl⟩ := hv.aligned
      have hbound := hv.bound
      simp only [PAGE_SIZE] at hend hbound ⊢
      omega
    obtain ⟨result, s₂, own₂, hrest, hback⟩ :=
      b₁.kmallocPagesLoop start hpml4 hv.aligned hinside
    unfold Paging.kmallocPages
    rw [hfirst]
    dsimp only
    rw [if_neg (kernelBase_ne_null hv.base), hrest]
    exact ⟨_, _, _, own₂, rfl, hback⟩

end Calls

/-! ### Nothing in hand -/

section Back

variable (b : Borrows p4 roots s own ∅ none s₁ own₁) (start : Owned p4 s own roots)
include b start

/-- What a new slot above the leaf tables refers to is a new table. -/
theorem made_links {f : Nat} {u : Use} {i : Fin 512} {k : Nat} (hu : own₁ f = some u)
    (hdepth : u.depth < 3) (hlarge : f ≠ p2Table p4)
    (hpresent : Paging.present (tables s₁.ram f i) = true) (hk : Free s k)
    (hchild : child (tables s₁.ram f i) = PAGE_SIZE * k) :
    links (tables s₁.ram f i) = true ∧ own (child (tables s₁.ram f i)) = none ∧
      ∃ w, own₁ (child (tables s₁.ram f i)) = some w ∧ w.depth = u.depth + 1 := by
  refine ⟨b.owned.forest.plain f u i hu hdepth hlarge hpresent, ?_, _,
    b.owned.forest.next hu hdepth hlarge hpresent, rfl⟩
  rw [hchild]
  exact own_of_free start.forest hk

/-- A new table leads to no page. -/
theorem dead {f n : Nat} {u : Use} (hnew : own f = none) (hu : own₁ f = some u)
    (hdepth : u.depth + n = 3) : Dead s₁.ram n f := by
  have hlarge : f ≠ p2Table p4 := by
    rintro rfl
    rw [start.forest.large] at hnew
    cases hnew
  induction n generalizing f u with
  | zero =>
      intro i
      by_contra hpresent
      rw [Bool.not_eq_false] at hpresent
      rcases b.leaves f u i hu (by omega) hpresent with ⟨hold, -⟩ | ⟨v, hv, -⟩
      · rw [hnew] at hold
        cases hold
      · exact absurd hv (Finset.notMem_empty v)
  | succ n ih =>
      intro i
      cases hpresent : Paging.present (tables s₁.ram f i) with
      | false => exact Or.inl rfl
      | true =>
          rcases b.above f u i hu (by omega) hpresent with ⟨hold, -⟩ | ⟨k, hk, hchild⟩
          · rw [hnew] at hold
            cases hold
          obtain ⟨hlinks, hnone, w, hw, hnext⟩ :=
            b.made_links start hu (by omega) hlarge hpresent hk hchild
          refine Or.inr ⟨hlinks, ih hnone hw (by omega) ?_⟩
          rintro hsame
          rw [hsame, start.forest.large] at hnone
          cases hnone

/-- Nothing but tables that lead to no page is new. -/
theorem kept {f n : Nat} {u : Use} (hu : own f = some u) (hdepth : u.depth + n = 3) :
    Kept s.ram s₁.ram n f := by
  induction n generalizing f u with
  | zero =>
      intro i
      cases hpresent : Paging.present (tables s.ram f i) with
      | true => exact b.present f u i hu hpresent
      | false =>
          rw [start.forest.clean f u i hu (by omega) hpresent]
          refine b.owned.forest.clean f u i (b.owns f u hu) (by omega) ?_
          by_contra hnew
          rw [Bool.not_eq_false] at hnew
          rcases b.leaves f u i (b.owns f u hu) (by omega) hnew with ⟨-, hsame⟩ | ⟨v, hv, -⟩
          · rw [hsame, hpresent] at hnew
            cases hnew
          · exact absurd hv (Finset.notMem_empty v)
  | succ n ih =>
      intro i
      cases hpresent : Paging.present (tables s.ram f i) with
      | true =>
          refine Or.inl ⟨b.present f u i hu hpresent, fun hlinks => ?_⟩
          have hnext := start.forest.typed hu (tableEdge_of_links (by omega) hlinks)
          refine ih hnext ?_
          change u.depth + 1 + n = 3
          omega
      | false =>
          refine Or.inr ⟨rfl, ?_⟩
          cases hnew : Paging.present (tables s₁.ram f i) with
          | false => exact Or.inl rfl
          | true =>
              rcases b.above f u i (b.owns f u hu) (by omega) hnew with
                ⟨-, hsame⟩ | ⟨k, hk, hchild⟩
              · rw [hsame, hpresent] at hnew
                cases hnew
              obtain ⟨hlinks, hnone, w, hw, hnext⟩ := b.made_links start (b.owns f u hu)
                (by omega) (start.forest.ne_large_of_absent hpresent) hnew hk hchild
              exact Or.inr ⟨hlinks, b.dead start hnone hw (by omega)⟩

/-- With no page left and no frame in hand, nothing is lost. -/
theorem restores {sp sp' : Spaces} (hpml4 : s.vmm.pml4 = p4) (hs : sp.mem = s)
    (hroots : sp.roots = roots) (hs' : sp'.mem = s₁) (hroots' : sp'.roots = roots) :
    sp.Restores sp' := by
  subst hs hs' hroots
  have forest := start.forest
  have hpml4' := b.pml4 hpml4
  refine ⟨⟨hpml4'.trans hpml4.symm, hroots'⟩, fun cpu r v hr => ?_, fun k hk hgone => ?_, b.free⟩
  · have hroot : own r = some Use.root := by
      rcases hr with rfl | hr
      · exact own_pml4 forest hpml4
      · exact start.root r hr
    exact Processor.translate_kept (b.kept start hroot rfl)
  · rcases b.taken k hk with hstill | hheld | ⟨v, js, hv, hjs, htable⟩ | ⟨v, hv, -⟩
    · exact absurd hstill hgone
    · cases hheld
    · have forest' := b.owned.forest
      obtain ⟨u, hdepth, -, hreached⟩ := reached_of_reach
        (R := fun r w => (r = sp'.mem.vmm.pml4 ∨ r ∈ sp'.roots) ∧ w = Use.root) forest'
        (own_pml4 forest' hpml4') ⟨Or.inl rfl, rfl⟩ hv.high hjs htable
      refine ⟨u, ?_, ?_⟩
      · change Reached _ _ _ u
        rw [hpml4']
        rwa [hpml4'] at hreached
      · rw [hdepth]
        exact hjs.length_le
    · exact absurd hv (Finset.notMem_empty v)

end Back

end Borrows

/-! ### A frame mapped and free -/

theorem pagingFreeUserPage_eq (r v : Nat) (s : State) :
    pagingFreeUserPage r v s = (if pagingGetPhysicalAddress v (s.withRoot r) ≠ NULL then
      pmmFreePage (pagingGetPhysicalAddress v (s.withRoot r)) (pagingUnmapPage v (s.withRoot r))
      else pagingUnmapPage v (s.withRoot r)).withRoot s.vmm.pml4 := rfl

/-- Through equal slots, the processor translates alike. -/
theorem translate_copy {cpu : Processor} {m : Store} {r r' v : Nat}
    (h : tables m r (index 39 v) = tables m r' (index 39 v)) :
    cpu.translate m r v = cpu.translate m r' v := by
  simp only [Processor.translate, h]

section Stray

variable {p4 r k : Nat} {s s₁ : State} {own own₁ : Nat → Option Use}
  (strays : Strays p4 r 0 k s own s₁ own₁)
include strays

/-- The frame is mapped still, and handed out again: it becomes a root. -/
theorem Strays.becomes_root (hpml4 : s₁.vmm.pml4 = p4) (hleast : ∀ j < k, ¬ Free s j) :
    ∃ s₂, pagingCreateUserAddressSpace s₁ = (PAGE_SIZE * k, s₂) ∧ s₂.vmm = s₁.vmm ∧
      Forest p4 s₂ own₁ ∧ Loose s₂ own₁ k ∧ (∀ j, Free s₂ j → Free s₁ j) ∧
      (∀ f u i, own₁ f = some u → tables s₂.ram f i = tables s₁.ram f i) ∧
      ∀ i : Fin 512, 256 ≤ (i : Nat) → tables s₂.ram (PAGE_SIZE * k) i = tables s₂.ram p4 i := by
  have forest := strays.forest
  have hk := strays.again
  have htake := pmmAllocPage_first forest.frames.addressable hk fun j hj h =>
    hleast j hj (strays.free j h)
  have hfree := takePage_free forest.frames.addressable hk
  have hroot := (forest.table p4 _ forest.root).aligned
  have hne : p4 ≠ PAGE_SIZE * k := by
    rintro rfl
    have hunused := strays.unused
    rw [forest.root] at hunused
    cases hunused
  have hslots := newRoot_slots hroot hne (pmmTakePage k s₁).2.ram
  have hframe := (fill_frame (pmmTakePage k s₁).2.ram (PAGE_SIZE * k) PAGE_SIZE 0).trans
    (@copyKernelEntries_frame p4 (PAGE_SIZE * k) 256 256 _ (by decide))
  have hbody : pagingCreateUserAddressSpace s₁ = (PAGE_SIZE * k,
      { (pmmTakePage k s₁).2 with
        ram := copyKernelEntries p4 (PAGE_SIZE * k) 256 256
          (fill (pmmTakePage k s₁).2.ram (PAGE_SIZE * k) PAGE_SIZE 0) }) := by
    have hroot : (pmmTakePage k s₁).2.vmm.pml4 = p4 := hpml4
    simp only [pagingCreateUserAddressSpace]
    rw [htake, takePage_addr forest.frames.addressable hk, if_neg (page_ne_null forest hk), hroot]
  rw [hbody]
  generalize copyKernelEntries p4 (PAGE_SIZE * k) 256 256 _ = ram at hslots hframe ⊢
  have htable := tableOk_takePage_fresh forest.frames hk
  obtain ⟨forest₂, hfree₂, hsame⟩ :=
    (forest.takePage hk).writeFrame strays.unused htable.clear hframe
  refine ⟨_, rfl, rfl, forest₂, ⟨hk.1, ?_, strays.unused, fun h => ?_, htable.aligned, ?_,
    htable.clear⟩, fun j hj => ?_, fun f u i hu => ?_, fun i hi => ?_⟩
  · rintro rfl
    exact forest.zero hk
  · exact ((hfree k).mp ((hfree₂ k).mp h)).2 rfl
  · exact htable.spared.mono fun j hj => (hfree₂ j).mp hj
  · exact ((hfree j).mp ((hfree₂ j).mp hj)).1
  · exact (hsame f u i hu).trans (tables_takePage forest.frames hk (forest.table f u hu) i)
  · exact (hslots i).trans (if_pos hi)

/-- The page that was mapped is freed, and the root with it. -/
theorem Strays.frees_root {s₂ : State} {roots : List Nat} (owned : Owned p4 s own roots)
    (hr : own r = some Use.root) (hne : r ≠ p4) (hk : Free s k) (hvmm : s₂.vmm = s₁.vmm)
    (forest : Forest p4 s₂ own₁) (loose : Loose s₂ own₁ k)
    (hsame : ∀ f u i, own₁ f = some u → tables s₂.ram f i = tables s₁.ram f i)
    (hslots : ∀ i : Fin 512, 256 ≤ (i : Nat) →
      tables s₂.ram (PAGE_SIZE * k) i = tables s₂.ram p4 i) :
    (pagingFreeUserPage r 0 s₂).vmm = s₁.vmm ∧ Forest p4 (pagingFreeUserPage r 0 s₂) own₁ ∧
      Free (pagingFreeUserPage r 0 s₂) k ∧
      (∀ j, Free (pagingFreeUserPage r 0 s₂) j → Free s₂ j ∨ j = k) ∧
      (∀ f u i, own f = some u → present (tables s.ram f i) = true →
        tables (pagingFreeUserPage r 0 s₂).ram f i = tables s.ram f i) ∧
      ∀ i : Fin 512, 256 ≤ (i : Nat) → tables (pagingFreeUserPage r 0 s₂).ram (PAGE_SIZE * k) i
        = tables (pagingFreeUserPage r 0 s₂).ram p4 i := by
  have hr₁ := strays.owns r _ hr
  have high : ∀ t : State, High p4 (t.withRoot r) 0 := fun t h => hne h.1
  have hvmm' : (s₂.withRoot r).vmm = (s₁.withRoot r).vmm := rfl
  obtain ⟨entry, hentry, hchild⟩ := strays.mapped
  have hleaf : leafEntry (s₂.withRoot r) 0 = some entry := by
    rw [leafEntry_same (strays.forest.withRoot r) hr₁ hvmm' hsame (high s₁)]
    exact hentry
  obtain ⟨pt, hpt, rfl, hpresent⟩ := reach_of_leafEntry hleaf
  have rooted := forest.withRoot r
  obtain ⟨u, hu, hdepth⟩ := own_of_reach_path rooted hr₁ (high s₂) hpt
  have hptr := rooted.entryPtr_ne_null hu (index 12 0)
  have hframe := page_ne_null owned.forest hk
  have hphys : pagingGetPhysicalAddress 0 (s₂.withRoot r) = PAGE_SIZE * k := by
    rw [lookup_of_reach hpt, if_neg hptr, hchild, Nat.zero_mod, Nat.add_zero]
  have hbody : pagingFreeUserPage r 0 s₂
      = (pmmFreePage (PAGE_SIZE * k) (setEntry (s₂.withRoot r) pt (index 12 0) 0)).withRoot
        s₂.vmm.pml4 := by
    rw [pagingFreeUserPage_eq, hphys, if_pos hframe, pagingUnmapPage_of_reach hpt hptr]
  have htable := rooted.table pt u hu
  have forest₃ := rooted.setLeaf (i := index 12 0) hu hdepth (show 0 < 2 ^ 64 by decide) fun _ => rfl
  have hcovered : k < (setEntry (s₂.withRoot r) pt (index 12 0) 0).pmm.bitmapSize * 8 :=
    loose.covered
  have forest₄ := forest₃.freePage hcovered loose.nonzero loose.unused loose.table.clear
  have hother : ∀ {f : Nat} {i : Fin 512}, TableOk (s₂.withRoot r) f → ¬ (f = pt ∧ i = index 12 0) →
      tables (pmmFreePage (PAGE_SIZE * k) (setEntry (s₂.withRoot r) pt (index 12 0) 0)).ram f i
        = tables s₂.ram f i := by
    intro f i hf hapart
    rw [tables_freePage hcovered (hf.setEntry htable),
      tables_setEntry_other htable.aligned hf.aligned hapart]
    rfl
  have hloose : TableOk (s₂.withRoot r) (PAGE_SIZE * k) := (loose.withRoot r).table
  have hnotpt : PAGE_SIZE * k ≠ pt := by
    rintro rfl
    have hunused := loose.unused
    rw [hu] at hunused
    cases hunused
  have hp4pt : p4 ≠ pt := by
    rintro rfl
    rw [forest.root] at hu
    cases hu
    cases hdepth
  rw [hbody]
  refine ⟨congrArg VirtualMemoryManager.mk (congrArg VirtualMemoryManager.pml4 hvmm),
    forest₄.withRoot _, (freePage_free hcovered k).mpr (Or.inr rfl), fun j hj => ?_,
    fun f w i hw hthere => ?_, fun i hi => ?_⟩
  · exact ((freePage_free hcovered j).mp hj).imp_left (free_setEntry htable j).mp
  · have hw₁ := strays.owns f w hw
    have hkept : tables s₂.ram f i = tables s.ram f i :=
      (hsame f w i hw₁).trans (strays.kept f w i hw hthere)
    refine (hother (rooted.table f w hw₁) ?_).trans hkept
    -- what was present led to no free frame
    rintro ⟨rfl, rfl⟩
    obtain rfl := Option.some.inj (hu.symm.trans hw₁)
    have hused := owned.pages hw (pageEdge_of_present hdepth hthere)
    change child (tables s₂.ram f (index 12 0)) = PAGE_SIZE * k at hchild
    rw [← hkept, hchild, own_of_free owned.forest hk] at hused
    cases hused
  · change tables (pmmFreePage _ _).ram _ i = tables (pmmFreePage _ _).ram _ i
    rw [hother hloose fun h => hnotpt h.1, hother (rooted.table p4 _ forest.root) fun h => hp4pt h.1]
    exact hslots i hi

end Stray

/-- Two pages of the kernel, then an address space: the next page of the kernel is mapped. -/
theorem twoPages : ∃ r s own, Run Spaces.CarefulStep (Spaces.start memMap 0x104000 fun _ => 0)
      [.kmallocPages 2, .createUserAddressSpace] ⟨⟨s, KERNEL_BASE + PAGE_SIZE⟩, [r]⟩ ∧
    Spaces.Ok 0x104000 ⟨⟨s, KERNEL_BASE + PAGE_SIZE⟩, [r]⟩ own ∧ 4 ≤ freeCount s ∧
    Mapped s KERNEL_BASE ∧ Mapped s (KERNEL_BASE + PAGE_SIZE) ∧ ¬ Mapped (s.withRoot r) 0 := by
  have hcount := freeCount_exampleBoot
  have ok := Heap.ok_start bootLayout_exampleBoot
  have start := ok.kernelPages
  change KernelPages 0x104000 exampleBoot _ at start
  have hmissing := missingTables_le exampleBoot KERNEL_BASE 2
  have haligned : PAGE_SIZE ∣ KERNEL_BASE := by decide
  have hrange : InKernelHalf KERNEL_BASE 2 := ⟨le_refl _, by decide⟩
  have hheapOk : HeapOk (KERNEL_BASE + PAGE_SIZE) := ⟨by decide, Or.inr ⟨by decide, by decide⟩⟩
  have hnone : ∀ w ∈ pages KERNEL_BASE 2, ¬ Mapped exampleBoot w := by
    intro w hw hthere
    obtain ⟨i, hi, rfl⟩ := mem_pages.mp hw
    exact absurd ((ok.mapped _ (hrange.page haligned hi)).mp hthere) (Finset.notMem_empty _)
  rcases start.kmallocPages haligned (show 1 ≤ 2 by decide) hrange (by omega) with
    ⟨⟨w, hw, hthere⟩, -⟩ | ⟨-, s₁, own₁, hrun₁, ok₁, hsum, hmapped⟩
  · exact absurd hthere (hnone w hw)
  have hfirst : KernelPage KERNEL_BASE := ⟨by decide, le_refl _, by decide⟩
  have hsecond : KernelPage (KERNEL_BASE + PAGE_SIZE) := ⟨by decide, by decide, by decide⟩
  have hmapped₁ : Mapped s₁ KERNEL_BASE ∧ Mapped s₁ (KERNEL_BASE + PAGE_SIZE) :=
    ⟨(hmapped _ hfirst).mpr (Or.inr (mem_pages.mpr ⟨0, by decide, rfl⟩)),
      (hmapped _ hsecond).mpr (Or.inr (mem_pages.mpr ⟨1, by decide, rfl⟩))⟩
  have hheap : wadd 64 KERNEL_BASE PAGE_SIZE = KERNEL_BASE + PAGE_SIZE := by decide
  rw [hheap] at hrun₁
  rcases ok₁.owned.createUserAddressSpace ok₁.pml4 with
    ⟨-, hempty⟩ | ⟨r, s, own, hrun, hr, hvmm, owned, hfree, hkept, hslots⟩
  · omega
  have hpml4 : s.vmm.pml4 = 0x104000 := (congrArg VirtualMemoryManager.pml4 hvmm).trans ok₁.pml4
  have hstill : ∀ w, KernelPage w → Mapped s₁ w → Mapped s w := by
    intro w hw hthere
    unfold Mapped at hthere ⊢
    rwa [leafEntry_same ok₁.owned.forest (ok₁.owned.kernelRoot ok₁.pml4) hvmm hkept hw.high]
  -- the two steps
  have step₁ : PageCallStep (Spaces.start memMap 0x104000 fun _ => 0) (.kmallocPages 2) _ :=
    .kmallocPages
  change PageCallStep _ _ ⟨(kmallocPages 2 ⟨exampleBoot, KERNEL_BASE⟩).2, []⟩ at step₁
  rw [hrun₁] at step₁
  have step₂ : PageCallStep ⟨⟨s₁, KERNEL_BASE + PAGE_SIZE⟩, []⟩ .createUserAddressSpace _ :=
    .made hrun hr
  refine ⟨r, s, own, .cons ⟨step₁, trivial⟩ (.single ⟨step₂, trivial⟩),
    ⟨owned, hpml4, hheapOk⟩, by omega,
    hstill _ hfirst hmapped₁.1, hstill _ hsecond hmapped₁.2, ?_⟩
  rintro ⟨entry, hentry⟩
  obtain ⟨pt, hpt, -⟩ := reach_of_leafEntry hentry
  have hempty : tables s.ram r (index 39 0) = 0 := (hslots (index 39 0)).trans (if_neg (by decide))
  change follow present child (tables s.ram) r (path 0) = some pt at hpt
  rw [path, follow, hempty] at hpt
  cases hpt

/-- Where the next page is mapped, the frame taken for it is zeroed and given back. -/
theorem kmallocPage_mapped {p4 k heap : Nat} {s : State} {own : Nat → Option Use}
    (forest : Forest p4 s own) (hpml4 : s.vmm.pml4 = p4) (hv : KernelPage heap)
    (hmapped : Mapped s heap) (hk : Free s k) (htake : pmmAllocPage s = pmmTakePage k s) :
    kmallocPage ⟨s, heap⟩ = (NULL, ⟨pmmFreePage (PAGE_SIZE * k) (pmmTakePage k s).2, heap⟩) := by
  have hroot := own_pml4 forest hpml4
  have hmapped₁ := (mapped_takePage forest hroot hk hv.high).mpr hmapped
  have hmissing : missing (pmmTakePage k s).2 heap = 0 := by
    obtain ⟨entry, hentry⟩ := hmapped₁
    obtain ⟨pt, hpt, -⟩ := reach_of_leafEntry hentry
    exact missing_eq_zero_iff.mpr ⟨pt, hpt⟩
  have hrun : pagingMapPage (PAGE_SIZE * k) heap PAGE_WRITABLE (pmmTakePage k s).2
      = (NULL, (pmmTakePage k s).2) := by
    obtain ⟨s', own', -, -, -, ⟨-, hshort⟩ | ⟨hrun, hsame, -⟩ | ⟨-, hno, -⟩⟩ :=
      pagingMapPage_walk (forest.takePage hk) hroot hv.high (Or.inl plainFlags_writable)
        (PAGE_SIZE * k) hv.bound
    · omega
    · subst hsame
      exact hrun
    · exact absurd hmapped₁ hno
  simp only [kmallocPage]
  rw [htake, takePage_addr forest.frames.addressable hk, if_neg (page_ne_null forest hk), hrun,
    if_pos rfl]

/-- The tables of the kernel have no large pages on the way to its own pages. -/
theorem Forest.heapInSmallPages {p4 : Nat} {s : State} {own : Nat → Option Use}
    (forest : Forest p4 s own) (hpml4 : s.vmm.pml4 = p4) : HeapInSmallPages s := by
  intro v js i f hv hpath hf hpresent
  have hroot := own_pml4 forest hpml4
  have hlen := length_of_prefix_concat hpath
  obtain ⟨u, hu, hdepth⟩ := own_of_reach forest hroot (by omega) hf
  exact forest.plain f u i hu (by omega) (prefix_ne_large forest hroot hv.high hpath hf) hpresent

/-! ### Runs -/

/-- What the invariant says about allocations that fail. -/
theorem Spaces.Ok.failsClean {p4 : Nat} {sp : Spaces} {own : Nat → Option Use}
    (ok : sp.Ok p4 own) : sp.FailsClean := by
  obtain ⟨start, hpml4, hheap⟩ := ok
  refine fun _ => ⟨fun hnull => ?_, fun count hend hnull => ?_⟩
  · obtain ⟨result, s', heap', own', hrun, hresult⟩ := Borrows.kmallocPage start hpml4 hheap
    change Paging.kmallocPage sp.kernel = _ at hrun
    rw [hrun] at hnull ⊢
    rcases hresult with ⟨-, b⟩ | ⟨rfl, hv, -⟩
    · exact b.restores start hpml4 rfl rfl rfl rfl
    · exact absurd hnull (kernelBase_ne_null hv.base)
  · obtain ⟨result, s', heap', own', hrun, hback⟩ := Borrows.kmallocPages start hpml4 hheap hend
    change Paging.kmallocPages count sp.kernel = _ at hrun
    rw [hrun] at hnull ⊢
    exact (hback hnull).restores start hpml4 rfl rfl rfl rfl

/-- **Failed allocations lose nothing.** In every state that the calls reach from the boot, as long
as each allocation for a process meets the condition, an allocation of the kernel that
returns `NULL`, at whatever page it fails, leaves every translation as it was, and keeps no
frame but for tables. -/
theorem failed_allocations_lose_nothing {mmap : List MemoryMapEntry} {p4 : Nat} {ram : Store}
    {calls : List PageCall} {sp : Spaces} (layout : BootLayout mmap p4 ram)
    (run : Run Spaces.CarefulStep (Spaces.start mmap p4 ram) calls sp) : sp.FailsClean := by
  obtain ⟨own, ok⟩ := run.invariant (I := fun sp => ∃ own, Spaces.Ok p4 sp own)
    Spaces.ok_step ⟨_, Spaces.ok_start layout⟩
  exact ok.failsClean

/-- After two pages the next one is mapped, and `kmalloc_page` fails. -/
theorem failed_allocation_after_two :
    ∃ sp, Run Spaces.CarefulStep (Spaces.start memMap 0x104000 fun _ => 0)
        [.kmallocPages 2, .createUserAddressSpace] sp ∧
      (kmallocPage sp.kernel).1 = NULL ∧ sp.Restores (sp.after (kmallocPage sp.kernel)) := by
  obtain ⟨r, s, own, run, ok, hcount, -, hsecond, -⟩ := twoPages
  have forest : Forest 0x104000 s own := ok.owned.forest
  have hpml4 : s.vmm.pml4 = 0x104000 := ok.pml4
  have hnext : KernelPage (KERNEL_BASE + PAGE_SIZE) := ⟨by decide, by decide, by decide⟩
  have hnull : (kmallocPage ⟨s, KERNEL_BASE + PAGE_SIZE⟩).1 = NULL := by
    rcases pmmAllocPage_spec forest.frames.addressable with ⟨-, hnone⟩ | ⟨k, hk, htake⟩
    · rw [freeCount_eq_zero_iff.mpr hnone] at hcount
      exact absurd hcount (by decide)
    · rw [kmallocPage_mapped forest hpml4 hnext hsecond hk htake]
  have clean := failed_allocations_lose_nothing bootLayout_exampleBoot run
  exact ⟨_, run, hnull, (clean (forest.heapInSmallPages hpml4)).1 hnull⟩

/-- Where what is present stays, what is mapped stays. -/
theorem mapped_kept {p4 v : Nat} {s s' : State} {own : Nat → Option Use} (forest : Forest p4 s own)
    (hroot : own s.vmm.pml4 = some Use.root) (hvmm : s'.vmm = s.vmm)
    (kept : ∀ f u i, own f = some u → present (tables s.ram f i) = true →
      tables s'.ram f i = tables s.ram f i) (high : High p4 s v) (h : Mapped s v) : Mapped s' v := by
  obtain ⟨entry, hentry⟩ := h
  obtain ⟨pt, hpt, rfl, hpresent⟩ := reach_of_leafEntry hentry
  obtain ⟨u, hu, -⟩ := own_of_reach_path forest hroot high hpt
  refine ⟨tables s.ram pt (index 12 v), ?_⟩
  rw [leafEntry_of_reach (reach_kept forest hroot hvmm kept (le_refl 3) hpt),
    kept pt u _ hu hpresent, if_pos hpresent]

/-- A page at the address 0 of a process leaves its frame free. The frame becomes the root of
the next process, is freed with the page, and an allocation of the kernel that fails zeroes it. -/
theorem failed_allocation_clears_root :
    ∃ calls sp, Run PageCallStep (Spaces.start memMap 0x104000 fun _ => 0) calls sp ∧
      ¬ sp.FailsClean := by
  obtain ⟨r, s, own, first, ok, hcount, hfirst, hsecond, hunmapped⟩ := twoPages
  have owned : Owned 0x104000 s own [r] := ok.owned
  have hpml4 : s.vmm.pml4 = 0x104000 := ok.pml4
  have hsome : ∃ k, Free s k := by
    by_contra hnone
    rw [freeCount_eq_zero_iff.mpr fun i hi => hnone ⟨i, hi⟩] at hcount
    omega
  obtain ⟨k, hk, hleast⟩ : ∃ k, Free s k ∧ ∀ j < k, ¬ Free s j :=
    ⟨Nat.find hsome, Nat.find_spec hsome, fun j hj => Nat.find_min hsome hj⟩
  have hmissing : missing (s.withRoot r) 0 ≤ 3 := missingFrom_le _ _ _
  have hr : r ∈ [r] := List.mem_singleton.mpr rfl
  obtain ⟨hpml4₁, own₁, strays⟩ := ok.strays hr (by decide) plainFlags_writable hunmapped
    (lt_of_le_of_lt hmissing hcount) hk (pmmAllocPage_first owned.forest.frames.addressable hk hleast)
  have step₁ : PageCallStep ⟨⟨s, KERNEL_BASE + PAGE_SIZE⟩, [r]⟩ (.allocUserPage r 0 PAGE_WRITABLE)
      ⟨⟨(pagingAllocUserPage r 0 PAGE_WRITABLE s).2, KERNEL_BASE + PAGE_SIZE⟩, [r]⟩ :=
    .allocUserPage hr (by decide) (by decide)
  change (pagingAllocUserPage r 0 PAGE_WRITABLE s).2.vmm.pml4 = _ at hpml4₁
  change Strays _ r 0 k s own (pagingAllocUserPage r 0 PAGE_WRITABLE s).2 own₁ at strays
  generalize (pagingAllocUserPage r 0 PAGE_WRITABLE s).2 = s₁ at hpml4₁ strays step₁
  -- the frame becomes the root of the second process, and is freed with the page
  have hown := owned.root r hr
  have hne : r ≠ 0x104000 := fun h => owned.notKernel (h ▸ hr)
  obtain ⟨s₂, hmade, hvmm₂, forest₂, loose, hfree₂, hsame₂, hslots₂⟩ :=
    strays.becomes_root hpml4₁ hleast
  have step₂ : PageCallStep ⟨⟨s₁, KERNEL_BASE + PAGE_SIZE⟩, [r]⟩ .createUserAddressSpace
      ⟨⟨s₂, KERNEL_BASE + PAGE_SIZE⟩, [PAGE_SIZE * k, r]⟩ :=
    .made hmade (page_ne_null owned.forest hk)
  obtain ⟨hvmm₃, forest₃, hk₃, hfree₃, hkept₃, hslots₃⟩ :=
    strays.frees_root owned hown hne hk hvmm₂ forest₂ loose hsame₂ hslots₂
  have step₃ : PageCallStep ⟨⟨s₂, KERNEL_BASE + PAGE_SIZE⟩, [PAGE_SIZE * k, r]⟩ (.freeUserPage r 0)
      ⟨⟨pagingFreeUserPage r 0 s₂, KERNEL_BASE + PAGE_SIZE⟩, [PAGE_SIZE * k, r]⟩ :=
    .freeUserPage (List.mem_cons_of_mem _ hr) (by decide)
  have run := (first.mono fun step => step.1).append (.cons step₁ (.cons step₂ (.single step₃)))
  refine ⟨_, _, run, fun clean => ?_⟩
  have hpml4₃ : (pagingFreeUserPage r 0 s₂).vmm.pml4 = 0x104000 :=
    (congrArg VirtualMemoryManager.pml4 hvmm₃).trans hpml4₁
  generalize pagingFreeUserPage r 0 s₂ = s₃ at *
  -- what the kernel had mapped is mapped still
  have hvmm : s₃.vmm = s.vmm := congrArg VirtualMemoryManager.mk (hpml4₃.trans hpml4.symm)
  have hstill : ∀ v, KernelPage v → Mapped s v → Mapped s₃ v := fun v hv =>
    mapped_kept owned.forest (own_pml4 owned.forest hpml4) hvmm hkept₃ hv.high
  have hpage : KernelPage KERNEL_BASE := ⟨by decide, le_refl _, by decide⟩
  have hnext : KernelPage (KERNEL_BASE + PAGE_SIZE) := ⟨by decide, by decide, by decide⟩
  have htake := pmmAllocPage_first forest₃.frames.addressable hk₃ fun j hj h => by
    rcases hfree₃ j h with h | rfl
    · exact hleast j hj (strays.free j (hfree₂ j h))
    · exact Nat.lt_irrefl j hj
  have hfails := kmallocPage_mapped forest₃ hpml4₃ hnext (hstill _ hnext hsecond) hk₃ htake
  obtain ⟨hback, -⟩ := clean (forest₃.heapInSmallPages hpml4₃)
  change (kmallocPage ⟨s₃, _⟩).1 = NULL → _ at hback
  rw [hfails] at hback
  -- the root of the second process had the kernel's last slot
  have hbefore : (fullProcessor.translate s₃.ram (PAGE_SIZE * k) KERNEL_BASE).isSome = true := by
    rw [translate_copy (hslots₃ (index 39 KERNEL_BASE) (by decide))]
    exact (fullProcessor_translate forest₃ hpml4₃ (by decide) (by decide)).mpr
      (hstill _ hpage hfirst)
  have hzero : tables (pmmFreePage (PAGE_SIZE * k) (pmmTakePage k s₃).2).ram (PAGE_SIZE * k)
      (index 39 KERNEL_BASE) = 0 := by
    rw [tables_freePage (s := (pmmTakePage k s₃).2) hk₃.1
      (tableOk_takePage_fresh forest₃.frames hk₃)]
    exact tables_takePage_fresh forest₃.frames hk₃ _
  have hsame := (hback rfl).translations fullProcessor (PAGE_SIZE * k) KERNEL_BASE
    (Or.inr (List.mem_cons_self ..))
  change fullProcessor.translate (pmmFreePage (PAGE_SIZE * k) (pmmTakePage k s₃).2).ram _ _
    = fullProcessor.translate s₃.ram _ _ at hsame
  have hnone : fullProcessor.translate (pmmFreePage (PAGE_SIZE * k) (pmmTakePage k s₃).2).ram
      (PAGE_SIZE * k) KERNEL_BASE = none := by
    simp only [Processor.translate]
    rw [hzero, if_pos (Or.inl (Processor.accepts_of_absent rfl)), ite_self]
  rw [← hsame, hnone] at hbefore
  cases hbefore

end Curnel.Paging
