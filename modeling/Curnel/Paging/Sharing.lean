/-
What an allocation for a process does to the kernel's view of the memory.

The upper half of a root is a copy of that of the kernel's root, so the tables below a
slot that was present then are shared. `paging_alloc_user_page` compares addresses with
`KERNEL_BASE`, which lies in the last of the 256 shared slots, and a walk looks at 48 bits
only. `kernel_view_kept` says when the processor translates every address through the
kernel's root as it did before: what the call writes are free frames, the bitmap and one
table on its path (`Confined`), and that table is the kernel's only behind a shared slot.
-/

import Curnel.Paging.Roles

namespace Curnel.Paging

open Lib Lib.Bytes Lib.Word Lib.Radix Lib.Ownership

/-! ### Views -/

/-- Every address below the table `f`, `n` links above the leaf tables, faults. -/
def Dead (m : Store) : Nat → Nat → Prop
  | 0, f => ∀ i, present (tables m f i) = false
  | n + 1, f => ∀ i, present (tables m f i) = false ∨
      links (tables m f i) = true ∧ Dead m n (child (tables m f i))

/-- Below the table `f`, what was absent may have got tables that lead to no page, and
nothing else changes. -/
def Kept (m m' : Store) : Nat → Nat → Prop
  | 0, f => ∀ i, tables m' f i = tables m f i
  | n + 1, f => ∀ i,
      tables m' f i = tables m f i ∧
          (links (tables m f i) = true → Kept m m' n (child (tables m f i))) ∨
        present (tables m f i) = false ∧
          (present (tables m' f i) = false ∨
            links (tables m' f i) = true ∧ Dead m' n (child (tables m' f i)))

namespace Processor

variable {cpu : Processor} {m m' : Store} {f v : Nat} {above above' : List Nat}

theorem links_of_accepts {entry : Nat} (h : cpu.accepts entry = true)
    (hsmall : ¬ large entry = true) : links entry = true := by
  rw [links_eq, present_of_accepts h, Bool.eq_false_iff.mpr hsmall]
  rfl

theorem translateLeaf_dead (h : Dead m 0 f) : cpu.translateLeaf m f v above = none :=
  if_pos (accepts_of_absent (h (index 12 v)))

theorem translateDirectory_dead (h : Dead m 1 f) : cpu.translateDirectory m f v above = none := by
  simp only [translateDirectory]
  rcases h (index 21 v) with habsent | ⟨hlinks, hdead⟩
  · exact if_pos (accepts_of_absent habsent)
  · rw [if_neg (not_large_of_links hlinks), translateLeaf_dead hdead, ite_self]

theorem translatePointers_dead (h : Dead m 2 f) : cpu.translatePointers m f v above = none := by
  simp only [translatePointers]
  rcases h (index 30 v) with habsent | ⟨hlinks, hdead⟩
  · exact if_pos (accepts_of_absent habsent)
  · rw [if_neg (not_large_of_links hlinks), translateDirectory_dead hdead, ite_self]

theorem translateLeaf_kept (h : Kept m m' 0 f) :
    cpu.translateLeaf m' f v above = cpu.translateLeaf m f v above := by
  simp only [translateLeaf, h (index 12 v)]

theorem translateDirectory_kept (h : Kept m m' 1 f) :
    cpu.translateDirectory m' f v above = cpu.translateDirectory m f v above := by
  simp only [translateDirectory]
  rcases h (index 21 v) with ⟨hsame, hbelow⟩ | ⟨habsent, hnew⟩
  · rw [hsame]
    split
    · rfl
    next hacc =>
      split
      · rfl
      next hsmall =>
        exact translateLeaf_kept (hbelow (links_of_accepts (Bool.not_eq_false _ ▸ hacc) hsmall))
  · rw [if_pos (accepts_of_absent habsent)]
    rcases hnew with habsent' | ⟨hlinks, hdead⟩
    · exact if_pos (accepts_of_absent habsent')
    · rw [if_neg (not_large_of_links hlinks), translateLeaf_dead hdead, ite_self]

theorem translatePointers_kept (h : Kept m m' 2 f) :
    cpu.translatePointers m' f v above = cpu.translatePointers m f v above := by
  simp only [translatePointers]
  rcases h (index 30 v) with ⟨hsame, hbelow⟩ | ⟨habsent, hnew⟩
  · rw [hsame]
    split
    · rfl
    next hacc =>
      split
      · rfl
      next hsmall =>
        exact translateDirectory_kept
          (hbelow (links_of_accepts (Bool.not_eq_false _ ▸ hacc) hsmall))
  · rw [if_pos (accepts_of_absent habsent)]
    rcases hnew with habsent' | ⟨hlinks, hdead⟩
    · exact if_pos (accepts_of_absent habsent')
    · rw [if_neg (not_large_of_links hlinks), translateDirectory_dead hdead, ite_self]

/-- The processor does not notice tables that lead to no page. -/
theorem translate_kept (h : Kept m m' 3 f) : cpu.translate m' f v = cpu.translate m f v := by
  simp only [translate]
  split
  · rfl
  rcases h (index 39 v) with ⟨hsame, hbelow⟩ | ⟨habsent, hnew⟩
  · rw [hsame]
    split
    · rfl
    next hok =>
      rw [not_or] at hok
      exact translatePointers_kept
        (hbelow (links_of_accepts (Bool.not_eq_false _ ▸ hok.1) hok.2))
  · rw [if_pos (Or.inl (accepts_of_absent habsent))]
    rcases hnew with habsent' | ⟨hlinks, hdead⟩
    · exact if_pos (Or.inl (accepts_of_absent habsent'))
    · rw [translatePointers_dead hdead, ite_self]

end Processor

/-- Where the tables that the processor can come to are as they were, nothing changes. -/
theorem kept_of_same {m m' : Store} {root f n : Nat} {is : List (Fin 512)}
    (same : ∀ is f, is.length ≤ 3 → follow links child (tables m) root is = some f →
      ∀ i, tables m' f i = tables m f i)
    (hf : follow links child (tables m) root is = some f) (hlen : is.length + n = 3) :
    Kept m m' n f := by
  induction n generalizing f is with
  | zero => exact same is f (by omega) hf
  | succ n ih =>
      intro i
      refine Or.inl ⟨same is f (by omega) hf i, fun hlinks => ?_⟩
      refine @ih (child (tables m f i)) (is ++ [i]) ?_ ?_
      · rw [follow_concat, hf, Option.bind_some, if_pos hlinks]
      · rw [List.length_append, List.length_singleton]
        omega

namespace Extends

variable {p4 v flags f n : Nat} {s s' : State} {own own' : Nat → Option Use} {u : Use}

/-- A new table leads to no page. -/
theorem dead (ext : Extends p4 v flags s own s' own') (forest : Forest p4 s own)
    (hflags : PlainFlags flags) (hnew : own f = none) (hu : own' f = some u)
    (hdepth : u.depth + n = 3) : Dead s'.ram n f := by
  induction n generalizing f u with
  | zero =>
      intro i
      rw [(ext.fresh f u hnew hu).2.2 (by omega) i]
      rfl
  | succ n ih =>
      intro i
      cases hpresent : present (tables s'.ram f i) with
      | false => exact Or.inl rfl
      | true =>
          rcases ext.entries f u i hu (by omega) hpresent with ⟨hold, -⟩ | ⟨k, hfree, -, hmade⟩
          · rw [hnew] at hold
            cases hold
          have hk : k < 2 ^ 40 := lt_of_lt_of_le hfree.1 forest.frames.bound
          have hplain := plainFlags_writable.or hflags
          have hlinks := links_makeEntry hk hplain
          have hchild := child_makeEntry hk (plainFlags_present.or hplain).1
          have hlarge : f ≠ p2Table p4 := by
            rintro rfl
            rw [forest.large] at hnew
            cases hnew
          have hnext := ext.forest.next hu (by omega) hlarge hpresent
          rw [hmade, hchild] at hnext
          refine Or.inr ⟨by rw [hmade]; exact hlinks, ?_⟩
          rw [hmade, hchild]
          refine ih (own_of_free forest hfree) hnext ?_
          change u.depth + 1 + n = 3
          omega

/-- A walk makes tables that lead to no page, and changes nothing else. -/
theorem kept (ext : Extends p4 v flags s own s' own') (forest : Forest p4 s own)
    (hflags : PlainFlags flags) (hu : own f = some u) (hdepth : u.depth + n = 3) :
    Kept s.ram s'.ram n f := by
  induction n generalizing f u with
  | zero =>
      intro i
      rcases ext.slots f u i hu with heq | ⟨hlt, -⟩
      · exact heq
      · omega
  | succ n ih =>
      intro i
      rcases ext.slots f u i hu with heq | ⟨-, habsent, -⟩
      · refine Or.inl ⟨heq, fun hlinks => ?_⟩
        have hnext := forest.typed hu (tableEdge_of_links (by omega) hlinks)
        refine ih hnext ?_
        change u.depth + 1 + n = 3
        omega
      · refine Or.inr ⟨habsent, ?_⟩
        cases hpresent : present (tables s'.ram f i) with
        | false => exact Or.inl rfl
        | true =>
            rcases ext.entries f u i (ext.owns f u hu) (by omega) hpresent with
              ⟨-, heq⟩ | ⟨k, hfree, -, hmade⟩
            · rw [heq, habsent] at hpresent
              cases hpresent
            have hk : k < 2 ^ 40 := lt_of_lt_of_le hfree.1 forest.frames.bound
            have hplain := plainFlags_writable.or hflags
            have hlinks := links_makeEntry hk hplain
            have hchild := child_makeEntry hk (plainFlags_present.or hplain).1
            have hnext := ext.forest.typed (ext.owns f u hu)
              (tableEdge_of_links (by omega) (by rw [hmade]; exact hlinks))
            rw [hmade, hchild] at hnext
            refine Or.inr ⟨by rw [hmade]; exact hlinks, ?_⟩
            rw [hmade, hchild]
            refine ext.dead forest hflags (own_of_free forest hfree) hnext ?_
            change u.depth + 1 + n = 3
            omega

end Extends

/-! ### What is written -/

/-- What is written from `s` to `s'` are frames that were free, the bitmap and the
table `T`. -/
structure Confined (T : Nat) (s s' : State) : Prop where
  bitmap : s'.pmm.bitmap = s.pmm.bitmap
  size : s'.pmm.bitmapSize = s.pmm.bitmapSize
  frames : FramesOk s'
  free : ∀ k, Free s' k → Free s k
  written : ∀ a, s'.ram a ≠ s.ram a → InBitmap s a ∨
    (∃ k, Free s k ∧ PAGE_SIZE * k ≤ a ∧ a < PAGE_SIZE * k + PAGE_SIZE) ∨
    T ≤ a ∧ a < T + PAGE_SIZE

namespace Confined

variable {T f k entry : Nat} {i : Fin 512} {s s' : State}

theorem refl (T : Nat) (h : FramesOk s) : Confined T s s :=
  ⟨rfl, rfl, h, fun _ h => h, fun _ h => absurd rfl h⟩

theorem trans {s'' : State} (first : Confined T s s') (second : Confined T s' s'') :
    Confined T s s'' := by
  refine ⟨second.bitmap.trans first.bitmap, second.size.trans first.size, second.frames,
    fun k h => first.free k (second.free k h), fun a ha => ?_⟩
  by_cases hold : s'.ram a = s.ram a
  · rcases second.written a (hold ▸ ha) with hbitmap | ⟨k, hfree, hframe⟩ | htarget
    · unfold InBitmap at hbitmap ⊢
      rw [first.bitmap, first.size] at hbitmap
      exact Or.inl hbitmap
    · exact Or.inr (Or.inl ⟨k, first.free k hfree, hframe⟩)
    · exact Or.inr (Or.inr htarget)
  · exact first.written a hold

theorem takePage (conf : Confined T s s') (hfree : Free s' k) :
    Confined T s (pmmTakePage k s').2 := by
  refine ⟨conf.bitmap, conf.size, takePage_framesOk conf.frames hfree,
    fun j h => conf.free j ((takePage_free conf.frames.addressable hfree j).mp h).1, fun a ha => ?_⟩
  by_cases hold : s'.ram a = s.ram a
  · rcases takePage_written conf.frames.addressable hfree (hold ▸ ha) with hframe | hbitmap
    · exact Or.inr (Or.inl ⟨k, conf.free k hfree, hframe⟩)
    · rw [conf.bitmap, conf.size] at hbitmap
      exact Or.inl hbitmap
  · exact conf.written a hold

theorem setEntry (conf : Confined T s s') (hok : TableOk s' f)
    (hf : f = T ∨ ∃ k, Free s k ∧ f = PAGE_SIZE * k) : Confined T s (setEntry s' f i entry) := by
  refine ⟨conf.bitmap, conf.size, conf.frames.setEntry hok,
    fun j h => conf.free j ((free_setEntry hok j).mp h), fun a ha => ?_⟩
  by_cases hin : entryPtr f i ≤ a ∧ a < entryPtr f i + 8
  · have hrange := entryPtr_range f i
    have hpage : f ≤ a ∧ a < f + PAGE_SIZE :=
      ⟨hrange.1.trans hin.1, lt_of_lt_of_le hin.2 hrange.2⟩
    rcases hf with rfl | ⟨k, hfree, rfl⟩
    · exact Or.inr (Or.inr hpage)
    · exact Or.inr (Or.inl ⟨k, hfree, hpage⟩)
  · have hsame : (Paging.setEntry s' f i entry).ram a = s'.ram a := writeLE_frame _ _ 8 _ hin
    exact conf.written a (hsame ▸ ha)

/-- A frame given back. -/
theorem freePage (conf : Confined T s s') (frames : FramesOk s) (hfree : Free s k) :
    Confined T s (pmmFreePage (PAGE_SIZE * k) s') := by
  have hk : k < s'.pmm.bitmapSize * 8 := by
    rw [conf.size]
    exact hfree.1
  have hfree' : ∀ j, Free (pmmFreePage (PAGE_SIZE * k) s') j → Free s j := by
    intro j hj
    rcases (freePage_free hk j).mp hj with hold | rfl
    · exact conf.free j hold
    · exact hfree
  refine ⟨?_, ?_, ⟨?_, ?_⟩, hfree', fun a ha => ?_⟩
  · rw [pmmFreePage_bitmap, conf.bitmap]
  · rw [pmmFreePage_bitmapSize, conf.size]
  · rw [pmmFreePage_bitmapSize]
    exact conf.frames.bound
  · rw [pmmFreePage_bitmap, pmmFreePage_bitmapSize, conf.bitmap, conf.size]
    exact frames.bitmap.mono hfree'
  · by_cases hin : InBitmap s' a
    · unfold InBitmap at hin ⊢
      rw [conf.bitmap, conf.size] at hin
      exact Or.inl hin
    · exact conf.written a (freePage_frame hk hin ▸ ha)

/-- Another root to walk from changes nothing. -/
theorem withRoot (conf : Confined T s s') (r r' : Nat) :
    Confined T (s.withRoot r) (s'.withRoot r') :=
  ⟨conf.bitmap, conf.size, ⟨conf.frames.bound, conf.frames.bitmap⟩, conf.free, conf.written⟩

/-- A table in use other than `T` is as it was. -/
theorem tables_eq {u : Use} {p4 : Nat} {own : Nat → Option Use} (conf : Confined T s s')
    (forest : Forest p4 s own) (hu : own f = some u) (hT : PAGE_SIZE ∣ T) (hne : f ≠ T)
    (i : Fin 512) : tables s'.ram f i = tables s.ram f i := by
  have htable := forest.table f u hu
  have hrange := entryPtr_range f i
  refine readLE_congr fun a ha => ?_
  obtain ⟨hlow, hhigh⟩ := ha
  by_contra hwritten
  rcases conf.written a hwritten with hbitmap | ⟨k, hfree, hframe⟩ | htarget
  · have hclear := htable.clear
    unfold InBitmap at hbitmap
    omega
  · have hspared := htable.spared k hfree
    omega
  · obtain ⟨b, rfl⟩ := htable.aligned
    obtain ⟨c, rfl⟩ := hT
    have hbc : b ≠ c := fun h => hne (congrArg (PAGE_SIZE * ·) h)
    simp only [PAGE_SIZE] at hrange htarget hlow hhigh
    omega

end Confined

/-! ### What a call writes -/

section Level

variable {f k flags : Nat} {i : Fin 512} {s : State} (frames : FramesOk s) (hfree : Free s k)
  (hok : TableOk s f) (hflags : NoAddress flags)
include frames hfree hok hflags

/-- A level that makes a table goes on in that table, which is empty. -/
theorem pagingDescend_made (habsent : present (tables s.ram f i) = false)
    (htake : pmmAllocPage s = pmmTakePage k s) (hnull : PAGE_SIZE * k ≠ NULL) :
    pagingDescend f i true flags s
        = (some (PAGE_SIZE * k), setEntry (pmmTakePage k s).2 f i
            (pagingMakeEntry (PAGE_SIZE * k) (PAGE_PRESENT ||| PAGE_WRITABLE ||| flags))) ∧
      TableOk (setEntry (pmmTakePage k s).2 f i
        (pagingMakeEntry (PAGE_SIZE * k) (PAGE_PRESENT ||| PAGE_WRITABLE ||| flags)))
        (PAGE_SIZE * k) ∧
      ∀ j, tables (setEntry (pmmTakePage k s).2 f i
        (pagingMakeEntry (PAGE_SIZE * k) (PAGE_PRESENT ||| PAGE_WRITABLE ||| flags))).ram
        (PAGE_SIZE * k) j = 0 := by
  have hk : k < 2 ^ 40 := lt_of_lt_of_le hfree.1 frames.bound
  have hplain : NoAddress (PAGE_PRESENT ||| PAGE_WRITABLE ||| flags) :=
    (plainFlags_present.1.or plainFlags_writable.1).or hflags
  have hlt := makeEntry_lt hk hplain.1
  have hpage := tableOk_takePage_fresh frames hfree
  have htable := hok.takePage frames hfree
  have hne : PAGE_SIZE * k ≠ f := by
    rintro rfl
    have hspared := hok.spared k hfree
    simp only [PAGE_SIZE] at hspared
    omega
  refine ⟨?_, hpage.setEntry htable, fun j => ?_⟩
  · rw [pagingDescend_alloc habsent, htake, takePage_addr frames.addressable hfree, if_neg hnull,
      tables_setEntry_same hlt, child_makeEntry hk hplain]
  · rw [tables_setEntry_other htable.aligned hpage.aligned fun h => hne h.1]
    exact tables_takePage_fresh frames hfree j

end Level

/-- The rest of a walk from a table made for it. -/
theorem pagingDescendAll_fresh {T k flags : Nat} {rest : List (Fin 512)} {s s' : State}
    (conf : Confined T s s') (hfree : Free s k) (hok : TableOk s' (PAGE_SIZE * k))
    (hempty : ∀ i, tables s'.ram (PAGE_SIZE * k) i = 0) (hflags : NoAddress flags) :
    Confined T s (pagingDescendAll true flags rest (PAGE_SIZE * k) s').2 ∧
      ∀ pt, (pagingDescendAll true flags rest (PAGE_SIZE * k) s').1 = some pt →
        TableOk (pagingDescendAll true flags rest (PAGE_SIZE * k) s').2 pt ∧
          ∃ j, Free s j ∧ pt = PAGE_SIZE * j := by
  induction rest generalizing k s' with
  | nil => 
      refine ⟨conf, fun pt hpt => ?_⟩
      cases hpt
      exact ⟨hok, k, hfree, rfl⟩
  | cons i rest ih =>
      have habsent : present (tables s'.ram (PAGE_SIZE * k) i) = false := by
        rw [hempty i]
        rfl
      rw [pagingDescendAll]
      rcases pmmAllocPage_spec conf.frames.addressable with ⟨hnone, -⟩ | ⟨j, hfree', htake⟩
      · rw [pagingDescend_alloc habsent, hnone, if_pos rfl]
        exact ⟨conf, fun pt hpt => by cases hpt⟩
      have taken := conf.takePage hfree'
      by_cases hnull : PAGE_SIZE * j = NULL
      · rw [pagingDescend_alloc habsent, htake, takePage_addr conf.frames.addressable hfree', if_pos hnull]
        exact ⟨taken, fun pt hpt => by cases hpt⟩
      obtain ⟨hrun, hok', hempty'⟩ :=
        pagingDescend_made conf.frames hfree' hok hflags habsent htake hnull
      rw [hrun]
      exact ih (taken.setEntry (hok.takePage conf.frames hfree') (Or.inr ⟨k, hfree, rfl⟩))
        (conf.free j hfree') hok' hempty'

section Walk

variable {p4 v flags : Nat} {s : State} {own : Nat → Option Use} (forest : Forest p4 s own)
  (hroot : own s.vmm.pml4 = some Use.root) (high : High p4 s v)
include forest hroot high

/-- The rest of a walk writes to the last table that is there, and to new ones. -/
theorem pagingDescendAll_confined (hflags : NoAddress flags) {done rest : List (Fin 512)} {f : Nat}
    (hpath : done ++ rest = path v) (hf : reach s done = some f) :
    ∃ is T, is <+: path v ∧ reach s is = some T ∧
      Confined T s (pagingDescendAll true flags rest f s).2 ∧
      ∀ pt, (pagingDescendAll true flags rest f s).1 = some pt →
        TableOk (pagingDescendAll true flags rest f s).2 pt ∧
          (pt = T ∨ ∃ j, Free s j ∧ pt = PAGE_SIZE * j) := by
  have hshared : done <+: path v := ⟨rest, hpath⟩
  obtain ⟨u, hu, -⟩ := own_of_prefix forest hroot high hshared hf
  have hok := forest.table f u hu
  induction rest generalizing done f u with
  | nil =>
      refine ⟨done, f, hshared, hf, Confined.refl f forest.frames, fun pt hpt => ?_⟩
      cases hpt
      exact ⟨hok, Or.inl rfl⟩
  | cons i rest ih =>
      obtain ⟨hnext', hpath', -⟩ := path_next hpath
      cases hentry : present (tables s.ram f i) with
      | true =>
          have hnext : reach s (done ++ [i]) = some (child (tables s.ram f i)) := by
            unfold reach at hf ⊢
            rw [follow_concat, hf, Option.bind_some, if_pos hentry]
          obtain ⟨w, hw, -⟩ := own_of_prefix forest hroot high hnext' hnext
          rw [pagingDescendAll, pagingDescend_present hentry]
          exact ih hpath' hnext hnext' w hw (forest.table _ w hw)
      | false =>
          refine ⟨done, f, hshared, hf, ?_⟩
          have conf := Confined.refl f forest.frames
          rw [pagingDescendAll]
          rcases pmmAllocPage_spec forest.frames.addressable with ⟨hnone, -⟩ | ⟨k, hfree, htake⟩
          · rw [pagingDescend_alloc hentry, hnone, if_pos rfl]
            exact ⟨conf, fun pt hpt => by cases hpt⟩
          obtain ⟨hrun, hok', hempty⟩ := pagingDescend_made forest.frames hfree hok hflags hentry
            htake (page_ne_null forest hfree)
          rw [hrun]
          obtain ⟨conf', hlast⟩ := @pagingDescendAll_fresh _ _ _ rest _ _
            ((conf.takePage hfree).setEntry (hok.takePage forest.frames hfree) (Or.inl rfl))
            hfree hok' hempty hflags
          exact ⟨conf', fun pt hpt => (hlast pt hpt).imp_right Or.inr⟩

/-- Mapping a page writes to one table on its path, and to new ones. -/
theorem pagingMapPage_confined (physAddr : Nat) (hv : v < 2 ^ 64)
    (hflags : NoAddress flags ∨ Tabled s v) :
    ∃ is T, is <+: path v ∧ reach s is = some T ∧
      Confined T s (pagingMapPage physAddr v flags s).2 := by
  have hwalk : ∃ is T, is <+: path v ∧ reach s is = some T ∧
      Confined T s (pagingWalk v true flags s).2 ∧
      ((pagingWalk v true flags s).1 = NULL ∨
        ∃ pt, (pagingWalk v true flags s).1 = entryPtr pt (index 12 v) ∧
          TableOk (pagingWalk v true flags s).2 pt ∧
          (pt = T ∨ ∃ j, Free s j ∧ pt = PAGE_SIZE * j)) := by
    rcases hflags with hflags | ⟨pt, hpt⟩
    · obtain ⟨is, T, his, hT, conf, hlast⟩ := @pagingDescendAll_confined p4 v flags s own forest
        hroot high hflags [] (path v) s.vmm.pml4 rfl rfl
      refine ⟨is, T, his, hT, ?_⟩
      rw [pagingWalk_eq_descendAll]
      rcases hrun : pagingDescendAll true flags (path v) s.vmm.pml4 s with ⟨_ | pt, s'⟩
      · rw [hrun] at conf
        exact ⟨conf, Or.inl rfl⟩
      · rw [hrun] at conf hlast
        exact ⟨conf, Or.inr ⟨pt, rfl, hlast pt rfl⟩⟩
    · obtain ⟨u, hu, -⟩ := own_of_reach_path forest hroot high hpt
      rw [pagingWalk_found hpt]
      exact ⟨path v, pt, List.prefix_rfl, hpt, Confined.refl pt forest.frames,
        Or.inr ⟨pt, rfl, forest.table pt u hu, Or.inl rfl⟩⟩
  obtain ⟨is, T, his, hT, conf, hend⟩ := hwalk
  refine ⟨is, T, his, hT, ?_⟩
  simp only [pagingMapPage]
  rw [and_pageMask hv, pagingWalk_page]
  rcases hend with hnull | ⟨pt, hpt, hok, hwhere⟩
  · rw [if_pos hnull]
    exact conf
  · split
    · exact conf
    · split
      · exact conf
      · rw [hpt]
        exact conf.setEntry hok hwhere

end Walk

/-- An allocation for a process writes to one table on its path, to the bitmap and to
frames that were free. -/
theorem pagingAllocUserPage_confined {p4 r v flags : Nat} {s : State} {own : Nat → Option Use}
    {roots : List Nat} (owned : Owned p4 s own roots) (hr : r ∈ roots) (hv : v < 2 ^ 64)
    (hflags : NoAddress flags ∨ Tabled (s.withRoot r) v) :
    ∃ is T, is <+: path v ∧ reach (s.withRoot r) is = some T ∧
      Confined T s (pagingAllocUserPage r v flags s).2 := by
  have forest := owned.forest
  have hroot : own (s.withRoot r).vmm.pml4 = some Use.root := owned.root r hr
  by_cases hbase : KERNEL_BASE ≤ v
  · rw [pagingAllocUserPage_of_kernel hbase]
    exact ⟨[], r, List.nil_prefix, rfl, Confined.refl r forest.frames⟩
  rcases pmmAllocPage_spec forest.frames.addressable with ⟨hnone, -⟩ | ⟨k, hfree, htake⟩
  · rw [pagingAllocUserPage_none r flags hbase hnone]
    exact ⟨[], r, List.nil_prefix, rfl, Confined.refl r forest.frames⟩
  have hbody := pagingAllocUserPage_eq r flags hbase forest hfree htake
  have rooted := owned.withRoot r
  obtain ⟨owned₁, -⟩ := rooted.takePage (k := k) hfree
  have htabled := @tabled_takePage p4 k v _ own rooted.forest hroot hfree
  have huser : NoAddress (flags ||| PAGE_USER) ∨ _ :=
    hflags.imp (fun h => h.or plainFlags_user.1) htabled.mpr
  obtain ⟨is, T, his, hT, conf⟩ := pagingMapPage_confined owned₁.forest hroot
    (owned.highUser hr v) (PAGE_SIZE * k) hv huser
  have hsame := @reach_same p4 (s.withRoot r) (pmmTakePage k (s.withRoot r)).2 own rooted.forest
    hroot rfl (fun g u i hu =>
      tables_takePage rooted.forest.frames hfree (rooted.forest.table g u hu) i) is his.length_le
  rw [hsame] at hT
  refine ⟨is, T, his, hT, ?_⟩
  have conf' := ((Confined.refl T rooted.forest.frames).takePage (k := k) hfree).trans conf
  rw [hbody]
  change Confined T (s.withRoot r) (pagingMapPage _ _ _ ((pmmTakePage k s).2.withRoot r)).2 at conf'
  rcases hrun : pagingMapPage (PAGE_SIZE * k) v (flags ||| PAGE_USER)
    ((pmmTakePage k s).2.withRoot r) with ⟨mapped, s'⟩
  rw [hrun] at conf'
  have back := conf'.withRoot s.vmm.pml4 s.vmm.pml4
  dsimp only
  split
  · exact back.freePage forest.frames hfree
  · exact back

/-! ### Shared tables -/

/-- The slot of `v` in the root `r` is present, and a copy of the kernel's. -/
def SharedSlot (s : State) (r v : Nat) : Prop :=
  256 ≤ (index 39 v : Nat) ∧ tables s.ram r (index 39 v) = tables s.ram s.vmm.pml4 (index 39 v) ∧
    present (tables s.ram r (index 39 v)) = true

section Apart

variable {p4 r v : Nat} {s : State} {own : Nat → Option Use} {roots : List Nat}
  (owned : Owned p4 s own roots) (hpml4 : s.vmm.pml4 = p4) (hr : r ∈ roots)

/-- The tables that the processor can come to from the kernel's root are known. -/
theorem own_of_links (forest : Forest p4 s own) {is : List (Fin 512)} {f : Nat} (hlen : is.length ≤ 3)
    (h : follow links child (tables s.ram) p4 is = some f) :
    ∃ u, own f = some u ∧ u.depth = is.length := by
  induction is using List.reverseRecOn generalizing f with
  | nil =>
      cases h
      exact ⟨Use.root, forest.root, rfl⟩
  | append_singleton ks k ih =>
      rw [List.length_append, List.length_singleton] at hlen
      obtain ⟨g, hg, hlinks, rfl⟩ := follow_concat_eq_some h
      obtain ⟨u, hu, hdepth⟩ := ih (by omega) hg
      refine ⟨_, forest.typed hu (tableEdge_of_links (by omega) hlinks), ?_⟩
      rw [List.length_append, List.length_singleton]
      exact congrArg (· + 1) hdepth

include owned hpml4 hr

/-- A table that both the kernel's root and another one lead to lies behind a shared
slot. -/
theorem shared_of_common {is js : List (Fin 512)} {f : Nat} (hlen : is.length ≤ 3)
    (hf : follow links child (tables s.ram) p4 is = some f) (hjs : js <+: path v)
    (hg : reach (s.withRoot r) js = some f) : SharedSlot s r v := by
  have rooted := owned.withRoot r
  have hroot : own (s.withRoot r).vmm.pml4 = some Use.root := owned.root r hr
  have high := owned.highUser hr v
  have hne : r ≠ p4 := fun h => owned.notKernel (h ▸ hr)
  induction js using List.reverseRecOn generalizing is f with
  | nil =>
      -- a root is no table of another root, and no two roots are one
      cases hg
      obtain ⟨u, hu, hdepth⟩ := own_of_links owned.forest hlen hf
      have hused : own r = some Use.root := hroot
      change own r = some u at hu
      rw [hused] at hu
      cases hu
      rw [List.length_eq_zero_iff.mp hdepth.symm] at hf
      exact absurd (Option.some.inj hf).symm hne
  | append_singleton ks j ih =>
      obtain ⟨g, hgk, hpresent, rfl⟩ := follow_concat_eq_some hg
      have hks : ks <+: path v := (List.prefix_append ks [j]).trans hjs
      have hklen := length_of_prefix_concat hjs
      obtain ⟨w, hw, hwdepth⟩ := own_of_reach rooted.forest hroot (by omega) hgk
      have hlarge := prefix_ne_large rooted.forest hroot high hjs hgk
      have hused := rooted.forest.next hw (by omega) hlarge hpresent
      rcases List.eq_nil_or_concat' is with rfl | ⟨ls, i, rfl⟩
      · rw [← Option.some.inj hf, owned.forest.root] at hused
        cases hused
      obtain ⟨g', hg', hlinks, hsame⟩ := follow_concat_eq_some hf
      rw [List.length_append, List.length_singleton] at hlen
      obtain ⟨u, hu, hudepth⟩ := own_of_links owned.forest (by omega) hg'
      have hused' := owned.forest.typed hu (tableEdge_of_links (by omega) hlinks)
      rw [← hsame] at hused'
      -- one table, one slot that refers to it
      obtain ⟨hdepths, hslots⟩ := Use.mk.inj (Option.some.inj (hused.symm.trans hused'))
      by_cases htop : w.depth = 0
      · have hks_nil : ks = [] := List.length_eq_zero_iff.mp (by omega)
        have hls_nil : ls = [] := List.length_eq_zero_iff.mp (by omega)
        rw [hks_nil] at hgk hjs
        rw [hls_nil] at hg'
        rw [← Option.some.inj hgk] at hslots hpresent
        rw [← Option.some.inj hg', slotOf_root] at hslots
        have hj : j = index 39 v := (List.cons_prefix_cons.mp hjs).1
        subst hj
        unfold slotOf at hslots
        split at hslots
        next hcopy =>
          refine ⟨hcopy.2.1, ?_, hpresent⟩
          rw [hpml4]
          exact hcopy.2.2
        next => exact absurd (Place.mk.inj (Option.some.inj hslots)).1 hne
      · rw [slotOf_eq htop, slotOf_eq (by omega)] at hslots
        have htables := (Place.mk.inj (Option.some.inj hslots)).1
        exact ih (by omega) (htables ▸ hg') hks hgk

end Apart

/-! ### The kernel's view -/

/-- The translation of an address through the root of a state. -/
def kernelView (cpu : Processor) (s : State) (w : Nat) : Option Translation :=
  cpu.translate s.ram s.vmm.pml4 w

/-- No processor translates an address differently after the allocation, with the
kernel's tables. -/
def KeepsKernelView (s : State) (r v flags : Nat) : Prop :=
  ∀ cpu w, kernelView cpu (pagingAllocUserPage r v flags s).2 w = kernelView cpu s w

/-- When the allocation keeps out of the kernel's tables: nothing is mapped, or the slot
of the address is not a shared one. -/
def KeepsOut (s : State) (r v flags : Nat) : Prop :=
  KERNEL_BASE ≤ v ∨ freeCount s = 0 ∨ Mapped (s.withRoot r) v ∨
    ¬ SharedSlot s r v ∧ (NoAddress flags ∨ Tabled (s.withRoot r) v) ∨
    freeCount s ≤ missing (s.withRoot r) v ∧ PlainFlags flags

section View

variable {p4 : Nat} {s : State} {own : Nat → Option Use} (forest : Forest p4 s own)
include forest

/-- Where the tables in use are as they were, so is the view. -/
theorem view_of_same {m : Store}
    (same : ∀ f u i, own f = some u → tables m f i = tables s.ram f i) (cpu : Processor) (w : Nat) :
    cpu.translate m p4 w = cpu.translate s.ram p4 w := by
  refine Processor.translate_kept (@kept_of_same _ _ p4 _ _ [] ?_ rfl rfl)
  intro is f hlen hf i
  obtain ⟨u, hu, -⟩ := own_of_links forest hlen hf
  exact same f u i hu

/-- A processor with all that the tables may ask for. -/
def fullProcessor : Processor := ⟨52, true, true, by decide, by decide⟩

omit forest in
theorem fullProcessor_accepts (entry : Nat) : fullProcessor.accepts entry = present entry := by
  have hnone : bits entry 52 52 = 0 := Nat.mod_one _
  change (present entry && decide (bits entry 52 52 = 0) && (true || _)) = present entry
  rw [hnone]
  simp

/-- Past the first gigabyte, it translates what is mapped. -/
theorem fullProcessor_translate {w : Nat} (hpml4 : s.vmm.pml4 = p4) (hw : Canonical w)
    (hhigh : ¬ InLargePages w) :
    (fullProcessor.translate s.ram p4 w).isSome = true ↔ Mapped s w := by
  have hbound := forest.frames.bound
  have plain : Plain fullProcessor p4 s own := by
    refine ⟨forest, hpml4, fun f u i _ _ hpresent => ?_, ?_⟩
    · rw [fullProcessor_accepts]
      exact hpresent
    · change PAGE_SIZE * (s.pmm.bitmapSize * 8) ≤ 2 ^ 52
      simp only [PAGE_SIZE]
      omega
  have htranslate := translate_path hw (Plain.passable plain hhigh)
  rw [hpml4] at htranslate
  unfold Mapped
  rw [htranslate]
  cases hpt : reach s (path w) with
  | none =>
      have hleaf : leafEntry s w = none := by
        unfold leafEntry leaf
        change (reach s (path w)).bind _ = none
        rw [hpt]
        rfl
      rw [hleaf]
      simp
  | some pt =>
      rw [leafEntry_of_reach hpt, Option.bind_some, Processor.translateLeaf, fullProcessor_accepts]
      cases hpresent : present (tables s.ram pt (index 12 w)) with
      | false => simp
      | true => simp

end View

/-! ### One allocation -/

/-- Through equal slots, the same is mapped. -/
theorem mapped_copy {s : State} {r r' v : Nat}
    (h : tables s.ram r (index 39 v) = tables s.ram r' (index 39 v)) :
    Mapped (s.withRoot r) v ↔ Mapped (s.withRoot r') v := by
  have hsame : leafEntry (s.withRoot r) v = leafEntry (s.withRoot r') v := by
    change leaf present child (tables s.ram) r (path v) (index 12 v)
      = leaf present child (tables s.ram) r' (path v) (index 12 v)
    simp only [leaf, path, follow]
    rw [h]
  unfold Mapped
  rw [hsame]

/-- The canonical address in the upper half that a walk takes for `v`. -/
def upperAlias (v : Nat) : Nat := v % 2 ^ 48 + (2 ^ 64 - 2 ^ 48)

section UpperAlias

variable {v : Nat} (hupper : 256 ≤ (index 39 v : Nat))
include hupper

theorem canonical_upperAlias : Canonical (upperAlias v) := by
  have hindex := index_val 39 v
  refine Or.inr ?_
  unfold upperAlias
  omega

omit hupper in
theorem index_upperAlias {shift : Nat}
    (hshift : shift = 39 ∨ shift = 30 ∨ shift = 21 ∨ shift = 12) :
    index shift (upperAlias v) = index shift v := by
  apply Fin.ext
  rw [index_val, index_val]
  unfold upperAlias
  rcases hshift with rfl | rfl | rfl | rfl <;> omega

omit hupper in
theorem mapped_upperAlias (s : State) : Mapped s (upperAlias v) ↔ Mapped s v := by
  unfold Mapped leafEntry path
  rw [index_upperAlias (by decide), index_upperAlias (by decide), index_upperAlias (by decide),
    index_upperAlias (by decide)]

theorem not_inLargePages_of_upper : ¬ InLargePages v := by
  rintro ⟨htop, -⟩
  rw [htop] at hupper
  exact absurd hupper (by decide)

end UpperAlias

section Alloc

variable {p4 r v flags : Nat} {s : State} {own : Nat → Option Use} {roots : List Nat}
  (owned : Owned p4 s own roots) (hpml4 : s.vmm.pml4 = p4) (hr : r ∈ roots) (hv : v < 2 ^ 64)
include owned hpml4 hr hv

/-- Behind a slot of its own, an allocation writes to no table of the kernel's. -/
theorem kept_of_unshared (hflags : NoAddress flags ∨ Tabled (s.withRoot r) v)
    (hown : ¬ SharedSlot s r v) (cpu : Processor) (w : Nat) :
    cpu.translate (pagingAllocUserPage r v flags s).2.ram p4 w = cpu.translate s.ram p4 w := by
  have forest := owned.forest
  obtain ⟨is, T, his, hT, conf⟩ := pagingAllocUserPage_confined owned hr hv hflags
  have hroot : own (s.withRoot r).vmm.pml4 = some Use.root := owned.root r hr
  obtain ⟨u, hu, -⟩ := own_of_prefix (forest.withRoot r) hroot (owned.highUser hr v) his hT
  refine Processor.translate_kept (@kept_of_same _ _ p4 _ _ [] ?_ rfl rfl)
  intro js f hlen hf i
  obtain ⟨w, hw, -⟩ := own_of_links forest hlen hf
  refine conf.tables_eq forest hw (forest.table T u hu).aligned ?_ i
  rintro rfl
  exact hown (shared_of_common owned hpml4 hr hlen hf his hT)

/-- An allocation for a process leaves everything as it is for want of a frame, or takes one. -/
theorem alloc_cases (hbase : ¬ KERNEL_BASE ≤ v)
    (hflags : PlainFlags flags ∨ Tabled (s.withRoot r) v) :
    freeCount s = 0 ∧ (pagingAllocUserPage r v flags s).2 = s ∨
      ∃ k s' own', Free s k ∧
        Extends p4 v (flags ||| PAGE_USER) (pmmTakePage k (s.withRoot r)).2 own s' own' ∧
        (Tabled (s.withRoot r) v → s' = (pmmTakePage k (s.withRoot r)).2 ∧ own' = own) ∧
        ((freeCount s ≤ missing (s.withRoot r) v ∨ Mapped (s.withRoot r) v) ∧
            (pagingAllocUserPage r v flags s).2
              = pmmFreePage (PAGE_SIZE * k) (s'.withRoot p4) ∨
          missing (s.withRoot r) v < freeCount s ∧ ¬ Mapped (s.withRoot r) v ∧
            ∃ pt, reach s' (path v) = some pt ∧ present (tables s'.ram pt (index 12 v)) = false ∧
              (pagingAllocUserPage r v flags s).2 =
                let mapped := (setEntry s' pt (index 12 v) (pagingMakeEntry (PAGE_SIZE * k)
                  (PAGE_PRESENT ||| (flags ||| PAGE_USER)))).withRoot p4
                if v < PAGE_SIZE then pmmFreePage (PAGE_SIZE * k) mapped else mapped) := by
  rcases pmmAllocPage_spec owned.forest.frames.addressable with
    ⟨hnone, hempty⟩ | ⟨k, hfree, htake⟩
  · refine Or.inl ⟨freeCount_eq_zero_iff.mpr hempty, ?_⟩
    rw [pagingAllocUserPage_none r flags hbase hnone]
  · obtain ⟨s', own', taken⟩ := owned.alloc_taken hpml4 hr hv hbase hflags hfree htake
    exact Or.inr ⟨k, s', own', hfree, taken⟩

/-- An allocation that maps nothing leaves the view alone. -/
theorem kept_of_failed (hbase : ¬ KERNEL_BASE ≤ v)
    (hflags : PlainFlags flags ∨ Tabled (s.withRoot r) v)
    (hfails : freeCount s = 0 ∨ freeCount s ≤ missing (s.withRoot r) v ∨ Mapped (s.withRoot r) v)
    (cpu : Processor) (w : Nat) :
    cpu.translate (pagingAllocUserPage r v flags s).2.ram p4 w = cpu.translate s.ram p4 w := by
  have forest := owned.forest
  have rooted := forest.withRoot r
  rcases alloc_cases owned hpml4 hr hv hbase hflags with
    ⟨-, hsame⟩ | ⟨k, s', own', hfree, ext, hstill, ⟨-, hresult⟩ | ⟨henough, hunmapped, -⟩⟩
  · rw [hsame]
  · -- a frame is taken, the walk may make tables, and the frame is given back
    have taken := rooted.takePage (k := k) hfree
    have first := view_of_same forest (fun f u i hu =>
      tables_takePage forest.frames hfree (forest.table f u hu) i) cpu w
    have second : cpu.translate s'.ram p4 w = cpu.translate (pmmTakePage k s).2.ram p4 w := by
      rcases hflags with hplain | htabled
      · exact Processor.translate_kept
          (ext.kept taken (hplain.or plainFlags_user) forest.root rfl)
      · rw [(hstill htabled).1]
        rfl
    have hcovered : k < s'.pmm.bitmapSize * 8 := by
      rw [ext.size]
      exact hfree.1
    have third := view_of_same ext.forest (fun f u i hu =>
      tables_freePage hcovered (ext.forest.table f u hu) i) cpu w
    rw [hresult, pmmFreePage_withRoot]
    exact third.trans (second.trans first)
  · rcases hfails with h | h | h
    · omega
    · omega
    · exact absurd h hunmapped

/-- Behind a shared slot, the page that an allocation maps is seen by the kernel. -/
theorem changed_of_shared (hbase : ¬ KERNEL_BASE ≤ v) (hword : flags < 2 ^ 64)
    (hflags : PlainFlags flags ∨ Tabled (s.withRoot r) v) (hshared : SharedSlot s r v)
    (hunmapped : ¬ Mapped (s.withRoot r) v) (henough : missing (s.withRoot r) v < freeCount s) :
    ∃ w, fullProcessor.translate (pagingAllocUserPage r v flags s).2.ram p4 w
      ≠ fullProcessor.translate s.ram p4 w := by
  have forest := owned.forest
  have hne : r ≠ p4 := fun h => owned.notKernel (h ▸ hr)
  obtain ⟨hupper, hcopy, hpresent⟩ := hshared
  have hindex := index_val 39 v
  have hpage : PAGE_SIZE ≤ v := by
    simp only [PAGE_SIZE]
    omega
  rcases alloc_cases owned hpml4 hr hv hbase hflags with
    ⟨hnone, -⟩ | ⟨k, s', own', hfree, ext, -, ⟨hwhy, -⟩ | ⟨-, -, pt, hpt, habsent, hresult⟩⟩
  · omega
  · rcases hwhy with h | h
    · omega
    · exact absurd h hunmapped
  dsimp only at hresult
  rw [hresult, if_neg (not_lt.mpr hpage)]
  -- the leaf entry is written, and the slots of the two roots stay equal
  have hroot : own (pmmTakePage k (s.withRoot r)).2.vmm.pml4 = some Use.root := owned.root r hr
  have hroot' := ext.root hroot
  have hr' : s'.vmm.pml4 = r := congrArg VirtualMemoryManager.pml4 ext.vmm
  have high' : High p4 s' v := fun h => hne (hr'.symm.trans h.1)
  obtain ⟨u, hu, hdepth⟩ := own_of_reach_path ext.forest hroot' high' hpt
  have hk : k < 2 ^ 40 := lt_of_lt_of_le hfree.1 forest.frames.bound
  have hfields := makeEntry_lt hk
    (Nat.or_lt_two_pow (show PAGE_PRESENT < 2 ^ 64 by decide)
      (Nat.or_lt_two_pow hword (show PAGE_USER < 2 ^ 64 by decide)))
  have hpresent' := present_makeEntry (PAGE_SIZE * k) (flags ||| PAGE_USER)
  generalize pagingMakeEntry (PAGE_SIZE * k) (PAGE_PRESENT ||| (flags ||| PAGE_USER)) = entry
    at hfields hpresent' ⊢
  have hleaf := leafEntry_setEntry ext.forest hroot' high' hpt habsent hfields hpresent'
  have forest₂ := ext.forest.setLeaf (i := index 12 v) hu hdepth hfields fun h => by
    rw [hpresent'] at h
    cases h
  have hkept : ∀ g, own g = some Use.root → present (tables s.ram g (index 39 v)) = true →
      tables (setEntry s' pt (index 12 v) entry).ram g (index 39 v)
        = tables s.ram g (index 39 v) := by
    intro g hg hslot
    have hgt : g ≠ pt := by
      rintro rfl
      rw [ext.owns _ _ hg] at hu
      cases hu
      cases hdepth
    have htaken : tables (pmmTakePage k (s.withRoot r)).2.ram g (index 39 v)
        = tables s.ram g (index 39 v) := tables_takePage forest.frames hfree (forest.table g _ hg) _
    rw [tables_setEntry_other (ext.forest.table pt u hu).aligned (forest.table g _ hg).aligned
      fun h => hgt h.1, ext.slot_present hg (by rw [htaken]; exact hslot), htaken]
  have hcopy' : tables s.ram r (index 39 v) = tables s.ram p4 (index 39 v) := hpml4 ▸ hcopy
  have hkept_r := hkept r (owned.root r hr) hpresent
  have hkept_p4 := hkept p4 forest.root (hcopy' ▸ hpresent)
  set s₂ := setEntry s' pt (index 12 v) entry with hs₂
  have hafter : Mapped (s₂.withRoot p4) v := by
    have hvia : s₂.withRoot r = s₂ := congrArg (fun vmm => State.mk s₂.ram s₂.pmm vmm) ext.vmm.symm
    rw [← mapped_copy (hkept_r.trans (hcopy'.trans hkept_p4.symm)), hvia]
    exact ⟨entry, hleaf⟩
  have hbefore : ¬ Mapped (s.withRoot p4) v := fun h =>
    hunmapped ((mapped_copy hcopy').mpr h)
  -- the alias of `v` that the processor takes is translated after the call only
  have hcanonical := canonical_upperAlias hupper
  have hhigh : ¬ InLargePages (upperAlias v) := by
    refine not_inLargePages_of_upper ?_
    rw [index_upperAlias (Or.inl rfl)]
    exact hupper
  have htrue := (fullProcessor_translate (forest₂.withRoot p4) rfl hcanonical hhigh).mpr
    ((mapped_upperAlias _).mpr hafter)
  have hfalse := (fullProcessor_translate (forest.withRoot p4) rfl hcanonical hhigh).not.mpr
    ((mapped_upperAlias _).not.mpr hbefore)
  refine ⟨upperAlias v, fun h => hfalse ?_⟩
  change (fullProcessor.translate s.ram p4 (upperAlias v)).isSome = true
  rw [← h]
  exact htrue

omit hr hv in
theorem pagingAllocUserPage_pml4 : (pagingAllocUserPage r v flags s).2.vmm.pml4 = p4 := by
  have forest := owned.forest
  by_cases hbase : KERNEL_BASE ≤ v
  · rw [pagingAllocUserPage_of_kernel hbase]
    exact hpml4
  rcases pmmAllocPage_spec forest.frames.addressable with ⟨hnone, -⟩ | ⟨k, hfree, htake⟩
  · rw [pagingAllocUserPage_none r flags hbase hnone]
    exact hpml4
  rw [pagingAllocUserPage_eq r flags hbase forest hfree htake]
  dsimp only
  split
  · rw [pmmFreePage_vmm]
    exact hpml4
  · exact hpml4

/-- The condition is enough for any flags. -/
theorem keepsKernelView (hkeeps : KeepsOut s r v flags) : KeepsKernelView s r v flags := by
  intro cpu w
  unfold kernelView
  rw [pagingAllocUserPage_pml4 owned hpml4, hpml4]
  by_cases hbase : KERNEL_BASE ≤ v
  · rw [pagingAllocUserPage_of_kernel hbase]
  rcases hkeeps with h | hnone | ⟨entry, hentry⟩ | ⟨hown, hflags⟩ | ⟨hshort, hflags⟩
  · exact absurd h hbase
  · have hflags : pagingAllocUserPage r v flags s = (NULL, s) := by
      rcases pmmAllocPage_spec owned.forest.frames.addressable with ⟨h, -⟩ | ⟨k, hfree, -⟩
      · exact pagingAllocUserPage_none r flags hbase h
      · exact absurd hfree (freeCount_eq_zero_iff.mp hnone k)
    rw [hflags]
  · obtain ⟨pt, hpt, -⟩ := reach_of_leafEntry hentry
    exact kept_of_failed owned hpml4 hr hv hbase (Or.inr ⟨pt, hpt⟩)
      (Or.inr (Or.inr ⟨entry, hentry⟩)) cpu w
  · exact kept_of_unshared owned hpml4 hr hv hflags hown cpu w
  · exact kept_of_failed owned hpml4 hr hv hbase (Or.inl hflags) (Or.inr (Or.inl hshort)) cpu w

/-- The condition is needed, where the tables are there or the flags make tables of the
entries of tables. -/
theorem keepsOut (hword : flags < 2 ^ 64) (hflags : PlainFlags flags ∨ Tabled (s.withRoot r) v)
    (hview : KeepsKernelView s r v flags) : KeepsOut s r v flags := by
  by_contra hno
  unfold KeepsOut at hno
  simp only [not_or] at hno
  obtain ⟨hbase, hsome, hunmapped, hslot, hframes⟩ := hno
  have hshared : SharedSlot s r v := by
    by_contra hown
    exact hslot ⟨hown, hflags.imp_left And.left⟩
  have henough : missing (s.withRoot r) v < freeCount s := by
    rcases hflags with hplain | htabled
    · exact not_le.mp fun h => hframes ⟨h, hplain⟩
    · rw [missing_eq_zero_iff.mpr htabled]
      exact Nat.pos_of_ne_zero hsome
  obtain ⟨w, hw⟩ := changed_of_shared owned hpml4 hr hv hbase hword hflags hshared hunmapped henough
  have hsame := hview fullProcessor w
  unfold kernelView at hsame
  rw [pagingAllocUserPage_pml4 owned hpml4, hpml4] at hsame
  exact hw hsame

end Alloc

/-! ### Runs -/

/-- **What the kernel sees.** In every state that careful calls reach from the boot, and
for every root made so far, any allocation that keeps out of the kernel's tables leaves
the kernel's view alone. Where the tables are there or the flags are plain, no other
does. -/
theorem kernel_view_kept {mmap : List MemoryMapEntry} {p4 : Nat} {ram : Store}
    {calls : List PageCall} {sp : Spaces} (layout : BootLayout mmap p4 ram)
    (run : Run Spaces.CarefulStep (Spaces.start mmap p4 ram) calls sp) :
    ∀ r ∈ sp.roots, ∀ v < 2 ^ 64, ∀ flags < 2 ^ 64,
      (KeepsOut sp.mem r v flags → KeepsKernelView sp.mem r v flags) ∧
        (PlainFlags flags ∨ Tabled (sp.mem.withRoot r) v →
          (KeepsKernelView sp.mem r v flags ↔ KeepsOut sp.mem r v flags)) := by
  obtain ⟨own, ok⟩ := run.invariant (I := fun sp => ∃ own, Spaces.Ok p4 sp own)
    Spaces.ok_step ⟨_, Spaces.ok_start layout⟩
  intro r hr v hv flags hword
  have enough : KeepsOut sp.mem r v flags → KeepsKernelView sp.mem r v flags :=
    keepsKernelView ok.owned ok.pml4 hr hv
  exact ⟨enough, fun hflags => ⟨keepsOut ok.owned ok.pml4 hr hv hword hflags, enough⟩⟩

/-- The kernel takes a page, so that its last slot is present, and then makes the first address
space. -/
theorem sharedSpace : ∃ r s own heap, Run Spaces.CarefulStep (Spaces.start memMap 0x104000 fun _ => 0)
      [.kmallocPage, .createUserAddressSpace] ⟨⟨s, heap⟩, [r]⟩ ∧
    Spaces.Ok 0x104000 ⟨⟨s, heap⟩, [r]⟩ own ∧ 4 ≤ freeCount s ∧
    (∀ v, (index 39 v : Nat) < 256 → ¬ SharedSlot s r v) ∧
    (∀ v, index 39 v = 511 → SharedSlot s r v) ∧
    ∀ v, index 39 v = 511 → index 30 v ∉ path KERNEL_BASE → ¬ Mapped (s.withRoot r) v := by
  have hcount := freeCount_exampleBoot
  have start := Spaces.ok_start bootLayout_exampleBoot
  have hmissing : missing exampleBoot KERNEL_BASE ≤ 3 := missingFrom_le _ _ _
  obtain ⟨result, s₁, heap, own₁, hrun₁, owned₁, hvmm₁, hheap₁, ⟨-, hwhy⟩ |
      ⟨-, -, -, hmapped, hsum, hadds⟩⟩ := start.owned.kmallocPage start.pml4 heapOk_base
  · change KERNEL_BASE = 0 ∨ freeCount exampleBoot ≤ missing exampleBoot KERNEL_BASE ∨
      Mapped exampleBoot KERNEL_BASE at hwhy
    rcases hwhy with hzero | hshort | ⟨entry, hentry⟩
    · cases hzero
    · omega
    · -- the last slot is absent at first
      obtain ⟨pt, hpt, -⟩ := reach_of_leafEntry hentry
      have hslot : tables exampleBoot.ram 0x104000 511 = 0 :=
        (pagingBoot_slots bootLayout_exampleBoot 511).1.trans (if_neg (by decide))
      change follow present child (tables exampleBoot.ram) 0x104000 (511 :: [510, 0]) = some pt at hpt
      rw [follow, hslot] at hpt
      cases hpt
  change freeCount s₁ + missing exampleBoot KERNEL_BASE + 1 = freeCount exampleBoot at hsum
  have hpml4₁ : s₁.vmm.pml4 = 0x104000 := congrArg VirtualMemoryManager.pml4 hvmm₁
  have hpresent₁ : present (tables s₁.ram 0x104000 511) = true := by
    obtain ⟨entry, hentry⟩ := hmapped
    obtain ⟨pt, hpt, -⟩ := reach_of_leafEntry hentry
    unfold reach at hpt
    rw [hpml4₁] at hpt
    change follow present child (tables s₁.ram) 0x104000 (511 :: [510, 0]) = some pt at hpt
    rw [follow] at hpt
    split at hpt
    next hpresent => exact hpresent
    next => cases hpt
  rcases owned₁.createUserAddressSpace hpml4₁ with
    ⟨-, hnone⟩ | ⟨r, s, own, hrun, hr, hvmm, owned, hfree, hkept, hslots⟩
  · omega
  have hpml4 : s.vmm.pml4 = 0x104000 := (congrArg VirtualMemoryManager.pml4 hvmm).trans hpml4₁
  have hlast : tables s.ram r 511 = tables s.ram 0x104000 511 :=
    (hslots 511).trans (if_pos (by decide))
  have hroot : tables s.ram 0x104000 511 = tables s₁.ram 0x104000 511 :=
    hkept 0x104000 Use.root 511 owned₁.forest.root
  -- the two steps
  have step₁ : PageCallStep (Spaces.start memMap 0x104000 fun _ => 0) .kmallocPage _ := .kmallocPage
  change PageCallStep _ _ ⟨(kmallocPage ⟨exampleBoot, KERNEL_BASE⟩).2, []⟩ at step₁
  change kmallocPage ⟨exampleBoot, KERNEL_BASE⟩ = _ at hrun₁
  rw [hrun₁] at step₁
  have step₂ : PageCallStep ⟨⟨s₁, heap⟩, []⟩ .createUserAddressSpace _ := .made hrun hr
  refine ⟨r, s, own, heap, .cons ⟨step₁, trivial⟩ (.single ⟨step₂, trivial⟩),
    ⟨owned, hpml4, hheap₁⟩, by omega, fun v hlow hshared => ?_, fun v htop => ?_,
    fun v htop hoff hmapped => ?_⟩
  · exact absurd hshared.1 (Nat.not_le.mpr hlow)
  · unfold SharedSlot
    rw [htop, hpml4]
    refine ⟨by decide, hlast, ?_⟩
    rw [hlast, hroot]
    exact hpresent₁
  · -- the table behind the slot is new, and has one entry
    obtain ⟨entry, hentry⟩ := hmapped
    obtain ⟨pt, hpt, -⟩ := reach_of_leafEntry hentry
    change follow present child (tables s.ram) r (index 39 v :: index 30 v :: _) = some pt at hpt
    rw [htop, follow, hlast, hroot, if_pos hpresent₁, follow] at hpt
    split at hpt
    next hthere =>
      have hlarge : 0x104000 ≠ p2Table 0x104000 := by decide
      have hused := owned₁.forest.next owned₁.forest.root (by decide) hlarge hpresent₁
      rw [slotOf_root] at hused
      rw [hkept _ _ _ hused] at hthere
      rcases hadds _ _ _ hused (by decide) hthere with ⟨hold, -⟩ | hpath
      · rcases bootUses_eq_some hold with ⟨-, huse⟩ | ⟨-, huse⟩ | ⟨-, huse⟩
        · cases huse
        · cases huse
        · cases huse
      · exact hoff hpath
    next => cases hpt

/-- A page at 1 GB in the first address space, whose slot is not a shared one. -/
theorem kernel_view_kept_low :
    ∃ r sp, Run Spaces.CarefulStep (Spaces.start memMap 0x104000 fun _ => 0)
        [.kmallocPage, .createUserAddressSpace] sp ∧
      r ∈ sp.roots ∧ KeepsKernelView sp.mem r 0x40000000 PAGE_WRITABLE := by
  obtain ⟨r, s, own, heap, run, -, -, hown, -, -⟩ := sharedSpace
  have hr : r ∈ [r] := List.mem_singleton.mpr rfl
  have hlow : ¬ SharedSlot s r 0x40000000 := hown _ (by decide)
  refine ⟨r, _, run, hr, (kernel_view_kept bootLayout_exampleBoot run r hr 0x40000000
    (by decide) PAGE_WRITABLE (by decide)).1 ?_⟩
  exact Or.inr (Or.inr (Or.inr (Or.inl ⟨hlow, Or.inl plainFlags_writable.1⟩)))

/-- A page for the first process at 2 GB below `KERNEL_BASE`: the kernel sees it. -/
theorem user_page_in_kernel_half :
    ∃ r sp, Run Spaces.CarefulStep (Spaces.start memMap 0x104000 fun _ => 0)
        [.kmallocPage, .createUserAddressSpace] sp ∧
      r ∈ sp.roots ∧ ¬ KeepsKernelView sp.mem r 0xFFFFFFFF00000000 PAGE_WRITABLE := by
  obtain ⟨r, s, own, heap, run, ok, hcount, -, hshared, hunmapped⟩ := sharedSpace
  have hr : r ∈ [r] := List.mem_singleton.mpr rfl
  refine ⟨r, _, run, hr, fun hview => ?_⟩
  have hslot : SharedSlot s r 0xFFFFFFFF00000000 := hshared _ (by decide)
  have hmissing : missing (s.withRoot r) 0xFFFFFFFF00000000 ≤ 3 := missingFrom_le _ _ _
  rcases keepsOut ok.owned ok.pml4 hr (by decide) (by decide) (Or.inl plainFlags_writable)
    hview with h | h | h | h | h
  · exact absurd h (by decide)
  · change freeCount s = 0 at h
    omega
  · exact hunmapped _ (by decide) (by decide) h
  · exact h.1 hslot
  · have hshort : freeCount s ≤ missing (s.withRoot r) 0xFFFFFFFF00000000 := h.1
    omega

end Curnel.Paging
