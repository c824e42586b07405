/-
What a walk that allocates does to the forest.

`Extends` says that from one state to the next the forest at most grew along the
path of one address: every table in use stays in use for what it was, the only slots
filled are absent ones on the path, and nothing but tables on the path and the bitmap
is written. Each level of the walk extends the forest (`pagingDescend_extends`), so the
walk does (`pagingWalk_extends`), whether it arrives or runs out of frames.
-/

import Curnel.Paging.Forest

namespace Curnel.Paging

open Lib.Bytes Lib.Word Lib.Radix Lib.Ownership

/-- Slot `i` of the table `f` is on the path of `v`. -/
def OnPath (s : State) (v f : Nat) (i : Fin 512) : Prop :=
  ∃ is, is ++ [i] <+: path v ∧ reach s is = some f

/-- The byte at `a` is in a table on the path of `v`. -/
def InTable (s : State) (v a : Nat) : Prop :=
  ∃ is f, is <+: path v ∧ reach s is = some f ∧ f ≤ a ∧ a < f + PAGE_SIZE

def InBitmap (s : State) (a : Nat) : Prop :=
  s.pmm.bitmap ≤ a ∧ a < s.pmm.bitmap + s.pmm.bitmapSize

structure Extends (p4 v flags : Nat) (s : State) (own : Nat → Option Use) (s' : State)
    (own' : Nat → Option Use) : Prop where
  forest : Forest p4 s' own'
  vmm : s'.vmm = s.vmm
  bitmap : s'.pmm.bitmap = s.pmm.bitmap
  size : s'.pmm.bitmapSize = s.pmm.bitmapSize
  owns : ∀ f u, own f = some u → own' f = some u
  /-- A new table comes from a free frame, and is empty where it is a leaf table. -/
  fresh : ∀ f u, own f = none → own' f = some u →
    u.depth ≤ 3 ∧ Free s (f / PAGE_SIZE) ∧ (u.depth = 3 → ∀ i, tables s'.ram f i = 0)
  slots : ∀ f u i, own f = some u → tables s'.ram f i = tables s.ram f i ∨
    u.depth < 3 ∧ present (tables s.ram f i) = false ∧ OnPath s' v f i
  /-- What is present was so before, or refers to a new table, on the path. -/
  entries : ∀ f u i, own' f = some u → u.depth ≤ 3 → present (tables s'.ram f i) = true →
    own f = some u ∧ tables s'.ram f i = tables s.ram f i ∨
      ∃ k, Free s k ∧ i ∈ path v ∧ tables s'.ram f i
        = pagingMakeEntry (PAGE_SIZE * k) (PAGE_PRESENT ||| (PAGE_WRITABLE ||| flags))
  free : ∀ k, Free s' k → Free s k
  written : ∀ a, s'.ram a ≠ s.ram a → InTable s' v a ∨ InBitmap s a

/-! ### Tables on a path -/

section Path

variable {p4 : Nat} {s : State} {own : Nat → Option Use} (forest : Forest p4 s own)
  (hroot : own s.vmm.pml4 = some Use.root)
include forest hroot

/-- Two links down, every table is known. -/
theorem own_of_reach {is : List (Fin 512)} {f : Nat} (hlen : is.length ≤ 2)
    (h : reach s is = some f) : ∃ u, own f = some u ∧ u.depth = is.length := by
  induction is using List.reverseRecOn generalizing f with
  | nil =>
      cases h
      exact ⟨Use.root, hroot, rfl⟩
  | append_singleton ks k ih =>
      rw [List.length_append, List.length_singleton] at hlen
      obtain ⟨g, hg, hpresent, rfl⟩ := follow_concat_eq_some h
      obtain ⟨u, hu, hdepth⟩ := ih (by omega) hg
      refine ⟨_, forest.next hu (by omega) (forest.ne_large hu (by omega)) hpresent, ?_⟩
      rw [List.length_append, List.length_singleton]
      exact congrArg (· + 1) hdepth

/-- The address is not one of those that the kernel's root maps with large pages. -/
def High (p4 : Nat) (s : State) (v : Nat) : Prop :=
  ¬ (s.vmm.pml4 = p4 ∧ index 39 v = 0 ∧ index 30 v = 0)

/-- The only path to the table of large pages. -/
theorem reach_ne_large {v g : Nat} (high : High p4 s v)
    (h : reach s [index 39 v, index 30 v] = some g) : g ≠ p2Table p4 := by
  rintro rfl
  obtain ⟨f, hf, hpresent, hg⟩ := @follow_concat_eq_some _ _ _ _ _ _ _ _ [index 39 v] _ h
  obtain ⟨r, hr, hpresent', hf'⟩ := @follow_concat_eq_some _ _ _ _ _ _ _ _ [] _ hf
  cases hr
  have hused : own f = some ⟨1, some (slotOf s.ram p4 Use.root s.vmm.pml4 (index 39 v))⟩ := by
    rw [hf']
    exact forest.next hroot (by decide) (forest.ne_large hroot (by decide)) hpresent'
  have hused' : own (p2Table p4) = some ⟨2, some ⟨f, index 30 v⟩⟩ := by
    have hnext := forest.next hused (by simp) (forest.ne_large hused (by simp)) hpresent
    have hplace := @slotOf_eq s.ram p4 f ⟨1, some (slotOf s.ram p4 Use.root s.vmm.pml4 (index 39 v))⟩
      (index 30 v) (Nat.succ_ne_zero 0)
    rwa [hplace, ← hg] at hnext
  rw [forest.large] at hused'
  obtain ⟨hmiddle, hindex⟩ := Place.mk.inj (Option.some.inj (Use.mk.inj (Option.some.inj hused')).2)
  rw [← hmiddle, forest.middle] at hused
  have hslot := Option.some.inj (Use.mk.inj (Option.some.inj hused)).2
  unfold slotOf at hslot
  split at hslot
  next hupper =>
    have hzero := (Place.mk.inj hslot).2
    rw [← hzero] at hupper
    exact absurd hupper.2.1 (by decide)
  next =>
    obtain ⟨htop, hindex'⟩ := Place.mk.inj hslot
    exact high ⟨htop.symm, hindex'.symm, hindex.symm⟩

/-- No table that a walk past the first gigabyte reads on its way is that of the large
pages. -/
theorem prefix_ne_large {v g : Nat} {ks : List (Fin 512)} {k : Fin 512} (high : High p4 s v)
    (hpath : ks ++ [k] <+: path v) (h : reach s ks = some g) : g ≠ p2Table p4 := by
  have hlen := length_of_prefix_concat hpath
  obtain ⟨u, hu, hdepth⟩ := own_of_reach forest hroot (by omega) h
  by_cases htwo : ks.length = 2
  · have hks : ks = [index 39 v, index 30 v] := by
      rw [List.prefix_iff_eq_take.mp ((List.prefix_append ks [k]).trans hpath), htwo]
      rfl
    exact reach_ne_large forest hroot high (hks ▸ h)
  · exact forest.ne_large hu (by omega)

theorem own_of_reach_path {v f : Nat} (high : High p4 s v) (h : reach s (path v) = some f) :
    ∃ u, own f = some u ∧ u.depth = 3 := by
  obtain ⟨g, hg, hpresent, rfl⟩ :=
    @follow_concat_eq_some _ _ _ _ _ _ _ _ [index 39 v, index 30 v] _ h
  obtain ⟨u, hu, hdepth⟩ := own_of_reach forest hroot (by simp) hg
  rw [List.length_cons, List.length_singleton] at hdepth
  refine ⟨_, forest.next hu (by omega) (reach_ne_large forest hroot high hg) hpresent, ?_⟩
  exact congrArg (· + 1) hdepth

/-- Every table on a path is known. -/
theorem own_of_prefix {v f : Nat} {js : List (Fin 512)} (high : High p4 s v) (hjs : js <+: path v)
    (hf : reach s js = some f) : ∃ u, own f = some u ∧ u.depth = js.length := by
  rcases Nat.lt_or_ge js.length 3 with hlt | hge
  · exact own_of_reach forest hroot (by omega) hf
  · have hpath : js = path v := hjs.eq_of_length_le hge
    rw [hpath] at hf ⊢
    exact own_of_reach_path forest hroot high hf

/-- Where what is present stays, a path leads where it did. -/
theorem reach_kept {s' : State} (hvmm : s'.vmm = s.vmm)
    (kept : ∀ g u i, own g = some u → present (tables s.ram g i) = true →
      tables s'.ram g i = tables s.ram g i) {is : List (Fin 512)} {f : Nat} (hlen : is.length ≤ 3)
    (h : reach s is = some f) : reach s' is = some f := by
  induction is using List.reverseRecOn generalizing f with
  | nil =>
      cases h
      exact congrArg (fun vmm => some vmm.pml4) hvmm
  | append_singleton ks k ih =>
      rw [List.length_append, List.length_singleton] at hlen
      obtain ⟨g, hg, hpresent, rfl⟩ := follow_concat_eq_some h
      obtain ⟨u, hu, -⟩ := own_of_reach forest hroot (by omega) hg
      have hkept := kept g u k hu hpresent
      have hg' := ih (by omega) hg
      unfold reach at hg' ⊢
      rw [follow_concat, hg', Option.bind_some, hkept, if_pos hpresent]

end Path

namespace Extends

variable {p4 v flags : Nat} {s s' s'' : State} {own own' own'' : Nat → Option Use}

theorem root (ext : Extends p4 v flags s own s' own') (hroot : own s.vmm.pml4 = some Use.root) :
    own' s'.vmm.pml4 = some Use.root := by
  rw [ext.vmm]
  exact ext.owns _ _ hroot

theorem high {w : Nat} (ext : Extends p4 v flags s own s' own') (high : High p4 s w) :
    High p4 s' w := by
  unfold High
  rw [ext.vmm]
  exact high

theorem refl (forest : Forest p4 s own) : Extends p4 v flags s own s own where
  forest := forest
  vmm := rfl
  bitmap := rfl
  size := rfl
  owns := fun _ _ h => h
  fresh := fun _ _ hnone h => by rw [hnone] at h; cases h
  slots := fun _ _ _ _ => Or.inl rfl
  entries := fun _ _ _ hu _ _ => Or.inl ⟨hu, rfl⟩
  free := fun _ h => h
  written := fun _ h => absurd rfl h

/-- What is present stays. -/
theorem slot_present (ext : Extends p4 v flags s own s' own') {f : Nat} {u : Use} {i : Fin 512}
    (hu : own f = some u) (h : present (tables s.ram f i) = true) :
    tables s'.ram f i = tables s.ram f i := by
  rcases ext.slots f u i hu with heq | ⟨-, habsent, -⟩
  · exact heq
  · rw [h] at habsent
    cases habsent

theorem reach (ext : Extends p4 v flags s own s' own') (forest : Forest p4 s own)
    (hroot : own s.vmm.pml4 = some Use.root) {is : List (Fin 512)} {f : Nat}
    (hlen : is.length ≤ 3) (h : reach s is = some f) : Paging.reach s' is = some f :=
  reach_kept forest hroot ext.vmm (fun _ _ _ hu h => ext.slot_present hu h) hlen h

theorem trans (first : Extends p4 v flags s own s' own') (second : Extends p4 v flags s' own' s'' own'')
    (hroot : own s.vmm.pml4 = some Use.root) : Extends p4 v flags s own s'' own'' := by
  have hroot' : own' s'.vmm.pml4 = some Use.root := by
    rw [first.vmm]
    exact first.owns _ _ hroot
  have hshort : ∀ {is : List (Fin 512)}, is <+: path v → is.length ≤ 3 := fun h => h.length_le
  refine
    { forest := second.forest
      vmm := second.vmm.trans first.vmm
      bitmap := second.bitmap.trans first.bitmap
      size := second.size.trans first.size
      owns := fun f u h => second.owns f u (first.owns f u h)
      fresh := fun f u hnone hu => ?_
      slots := fun f u i hu => ?_
      entries := fun f u i hu hdepth hpresent => ?_
      free := fun k h => first.free k (second.free k h)
      written := fun a ha => ?_ }
  · cases hmid : own' f with
    | none =>
        obtain ⟨hdepth, hfree, hempty⟩ := second.fresh f u hmid hu
        exact ⟨hdepth, first.free _ hfree, hempty⟩
    | some u' =>
        have hsame : u' = u := Option.some.inj ((second.owns f u' hmid).symm.trans hu)
        subst hsame
        obtain ⟨hdepth, hfree, hempty⟩ := first.fresh f u' hnone hmid
        refine ⟨hdepth, hfree, fun h3 i => ?_⟩
        rcases second.slots f u' i hmid with heq | ⟨hlt, -⟩
        · rw [heq]
          exact hempty h3 i
        · omega
  · rcases second.slots f u i (first.owns f u hu) with heq | ⟨hdepth, habsent, hpath⟩
    · rcases first.slots f u i hu with heq' | ⟨hdepth, habsent, is, his, hreach⟩
      · exact Or.inl (heq.trans heq')
      · have hlen := hshort his
        rw [List.length_append, List.length_singleton] at hlen
        exact Or.inr ⟨hdepth, habsent, is, his,
          second.reach first.forest hroot' (by omega) hreach⟩
    · rcases first.slots f u i hu with heq' | ⟨-, habsent', -⟩
      · rw [heq'] at habsent
        exact Or.inr ⟨hdepth, habsent, hpath⟩
      · exact Or.inr ⟨hdepth, habsent', hpath⟩
  · rcases second.entries f u i hu hdepth hpresent with ⟨hu', heq⟩ | ⟨k, hfree, hmade⟩
    · rw [heq] at hpresent ⊢
      exact first.entries f u i hu' hdepth hpresent
    · exact Or.inr ⟨k, first.free k hfree, hmade⟩
  · by_cases hmid : s''.ram a = s'.ram a
    · rcases first.written a (hmid ▸ ha) with ⟨is, f, his, hreach, hrange⟩ | hbitmap
      · exact Or.inl ⟨is, f, his, second.reach first.forest hroot' (hshort his) hreach, hrange⟩
      · exact Or.inr hbitmap
    · refine (second.written a hmid).imp_right fun h => ?_
      unfold InBitmap at h ⊢
      rwa [first.bitmap, first.size] at h

end Extends

/-! ### One level -/

section Level

variable {p4 v flags : Nat} {s : State} {own : Nat → Option Use} (forest : Forest p4 s own)
include forest

/-- A frame that may be handed out is not in use. -/
theorem own_of_free {k : Nat} (hfree : Free s k) : own (PAGE_SIZE * k) = none := by
  cases hu : own (PAGE_SIZE * k) with
  | none => rfl
  | some u =>
      have hspared := (forest.table _ u hu).spared k hfree
      simp only [PAGE_SIZE] at hspared
      omega

theorem page_ne_null {k : Nat} (hfree : Free s k) : PAGE_SIZE * k ≠ NULL := by
  intro h
  have hzero : k = 0 := (Nat.mul_eq_zero.mp h).resolve_left (by decide)
  exact forest.zero (hzero ▸ hfree)

variable {f : Nat} {is : List (Fin 512)} {i : Fin 512} {u : Use}
  (hroot : own s.vmm.pml4 = some Use.root) (hf : reach s is = some f) (hu : own f = some u)
  (hdepth : u.depth = is.length) (hpath : is ++ [i] <+: path v) (hlarge : f ≠ p2Table p4)
include hroot hf hu hdepth hpath hlarge

/-- A level that makes a table. -/
theorem extends_link {k entry : Nat} (habsent : present (tables s.ram f i) = false)
    (hfree : Free s k) (hentry : entry < 2 ^ 64) (hlinks : links entry = true)
    (hchild : child entry = PAGE_SIZE * k)
    (hmade : entry
      = pagingMakeEntry (PAGE_SIZE * k) (PAGE_PRESENT ||| (PAGE_WRITABLE ||| flags))) :
    Extends p4 v flags s own (setEntry (pmmTakePage k s).2 f i entry)
        (Function.update own (PAGE_SIZE * k) (some ⟨u.depth + 1,
          some (slotOf (setEntry (pmmTakePage k s).2 f i entry).ram p4 u f i)⟩)) ∧
      reach (setEntry (pmmTakePage k s).2 f i entry) (is ++ [i]) = some (PAGE_SIZE * k) ∧
      (∀ j, tables (setEntry (pmmTakePage k s).2 f i entry).ram (PAGE_SIZE * k) j = 0) ∧
      freeCount (setEntry (pmmTakePage k s).2 f i entry) + 1 = freeCount s := by
  have hlen : is.length < 3 := by
    have := hpath.length_le
    rw [List.length_append, List.length_singleton] at this
    exact this
  have forest₁ := forest.takePage hfree
  have hnew := own_of_free forest hfree
  have htaken : tables (pmmTakePage k s).2.ram f i = tables s.ram f i :=
    tables_takePage forest.frames hfree (forest.table f u hu) i
  have hpage := tableOk_takePage_fresh forest.frames hfree
  have hcovered : PAGE_SIZE * k / PAGE_SIZE = k := Nat.mul_div_cancel_left k (by decide)
  have forest' := forest₁.link hu (by omega) (htaken.symm ▸ habsent) hnew hentry hlinks
    hchild hlarge hpage (hcovered.symm ▸ hfree.1) (page_ne_null forest hfree)
    (tables_takePage_fresh forest.frames hfree)
  have htable := forest₁.table f u hu
  set s' := setEntry (pmmTakePage k s).2 f i entry with hs'
  have hwritten : tables s'.ram f i = entry := tables_setEntry_same hentry
  have same : ∀ g w j, own g = some w → ¬ (g = f ∧ j = i) →
      tables s'.ram g j = tables s.ram g j := by
    intro g w j hw hne
    rw [tables_setEntry_other htable.aligned (forest.table g w hw).aligned hne]
    exact tables_takePage forest.frames hfree (forest.table g w hw) j
  have hreach : reach s' is = some f := by
    refine @reach_kept p4 s own forest hroot s' rfl (fun g w j hw hpresent => same g w j hw ?_)
      is f (by omega) hf
    rintro ⟨rfl, rfl⟩
    rw [habsent] at hpresent
    cases hpresent
  have hnext : reach s' (is ++ [i]) = some (PAGE_SIZE * k) := by
    unfold reach at hreach ⊢
    rw [follow_concat, hreach, Option.bind_some, hwritten, if_pos (present_of_links hlinks),
      hchild]
  have hempty : ∀ j, tables s'.ram (PAGE_SIZE * k) j = 0 := by
    intro j
    rw [tables_setEntry_other htable.aligned hpage.aligned]
    · exact tables_takePage_fresh forest.frames hfree j
    · rintro ⟨rfl, -⟩
      rw [hu] at hnew
      cases hnew
  have hcount : freeCount s' + 1 = freeCount s := by
    have hsame : freeCount s' = freeCount (pmmTakePage k s).2 :=
      freeCount_congr rfl fun j => free_setEntry htable j
    rw [hsame]
    exact takePage_freeCount forest.frames.addressable hfree
  refine ⟨?_, hnext, hempty, hcount⟩
  exact
    { forest := forest'
      vmm := rfl
      bitmap := rfl
      size := rfl
      owns := fun g w hw => keep_adopt hnew hw
      fresh := by
        intro g w hnone hw
        obtain ⟨rfl, rfl⟩ | ⟨-, hw⟩ := adopt_eq_some.mp hw
        · refine ⟨?_, ?_, fun _ j => ?_⟩
          · change u.depth + 1 ≤ 3
            omega
          · rw [hcovered]
            exact hfree
          · exact hempty j
        · rw [hnone] at hw
          cases hw
      slots := by
        intro g w j hw
        by_cases hhere : g = f ∧ j = i
        · obtain ⟨rfl, rfl⟩ := hhere
          rw [hu] at hw
          cases hw
          exact Or.inr ⟨by omega, habsent, is, hpath, hreach⟩
        · exact Or.inl (same g w j hw hhere)
      entries := by
        intro g w j hw _ hpresent
        obtain ⟨rfl, rfl⟩ | ⟨-, hw⟩ := adopt_eq_some.mp hw
        · rw [hempty j] at hpresent
          cases hpresent
        · by_cases hhere : g = f ∧ j = i
          · obtain ⟨rfl, rfl⟩ := hhere
            exact Or.inr ⟨k, hfree, hpath.subset (List.mem_append_right _ (List.mem_singleton_self _)),
              hwritten.trans hmade⟩
          · exact Or.inl ⟨hw, same g w j hw hhere⟩
      free := fun j h =>
        ((takePage_free forest.frames.addressable hfree j).mp ((free_setEntry htable j).mp h)).1
      written := by
        intro a ha
        by_cases hentry' : entryPtr f i ≤ a ∧ a < entryPtr f i + 8
        · have hrange := entryPtr_range f i
          refine Or.inl ⟨is, f, (List.prefix_append is [i]).trans hpath, hreach, ?_⟩
          exact ⟨hrange.1.trans hentry'.1, lt_of_lt_of_le hentry'.2 hrange.2⟩
        · have hsame : s'.ram a = (pmmTakePage k s).2.ram a := writeLE_frame _ _ 8 _ hentry'
          rw [hsame] at ha
          refine (takePage_written forest.frames.addressable hfree ha).imp_left fun hframe => ?_
          exact ⟨is ++ [i], PAGE_SIZE * k, hpath, hnext, hframe⟩ }

/-- With `alloc`, a level extends the forest: it finds the next table, makes an empty
one, or there is no free frame for it. -/
theorem pagingDescend_extends (hflags : PlainFlags flags) :
    (∃ g, pagingDescend f i true flags s = (some g, s) ∧ reach s (is ++ [i]) = some g) ∨
      reach s (is ++ [i]) = none ∧
        (pagingDescend f i true flags s = (none, s) ∧ freeCount s = 0 ∨
          ∃ s' own' g, Extends p4 v flags s own s' own' ∧
            pagingDescend f i true flags s = (some g, s') ∧ reach s' (is ++ [i]) = some g ∧
            (∀ j, tables s'.ram g j = 0) ∧ freeCount s' + 1 = freeCount s) := by
  cases hentry : present (tables s.ram f i) with
  | true =>
      refine Or.inl ⟨_, pagingDescend_present hentry, ?_⟩
      unfold reach at hf ⊢
      rw [follow_concat, hf, Option.bind_some, if_pos hentry]
  | false =>
      have hbody := @pagingDescend_alloc f i flags s hentry
      refine Or.inr ⟨?_, ?_⟩
      · unfold reach at hf ⊢
        rw [follow_concat, hf, Option.bind_some, hentry]
        rfl
      rcases pmmAllocPage_spec forest.frames.addressable with ⟨hnone, hempty⟩ | ⟨k, hfree, htake⟩
      · refine Or.inl ⟨?_, freeCount_eq_zero_iff.mpr hempty⟩
        rw [hbody, hnone, if_pos rfl]
      · have hk : k < 2 ^ 40 := lt_of_lt_of_le hfree.1 forest.frames.bound
        have hflags' : PlainFlags (PAGE_PRESENT ||| (PAGE_WRITABLE ||| flags)) :=
          plainFlags_present.or (plainFlags_writable.or hflags)
        have hlt := makeEntry_lt hk hflags'.1.1
        have hchild := child_makeEntry hk hflags'.1
        obtain ⟨ext, hreach, hempty, hcount⟩ := extends_link forest hroot hf hu hdepth hpath hlarge
          hentry hfree hlt (links_makeEntry hk (plainFlags_writable.or hflags)) hchild rfl
        refine Or.inr ⟨_, _, PAGE_SIZE * k, ext, ?_, hreach, hempty, hcount⟩
        rw [hbody, htake, takePage_addr forest.frames.addressable hfree, if_neg (page_ne_null forest hfree),
          Nat.or_assoc, tables_setEntry_same hlt, hchild]

end Level

/-! ### The walk -/

/-- The levels of a walk along `is`, one after another. -/
def pagingDescendAll (alloc : Bool) (flags : Nat) : List (Fin 512) → Nat → State →
    Option Nat × State
  | [], table, s => (some table, s)
  | i :: is, table, s =>
      match pagingDescend table i alloc flags s with
      | (none, s) => (none, s)
      | (some next, s) => pagingDescendAll alloc flags is next s

theorem pagingWalk_eq_descendAll (virtAddr flags : Nat) (alloc : Bool) (s : State) :
    pagingWalk virtAddr alloc flags s =
      match pagingDescendAll alloc flags (path virtAddr) s.vmm.pml4 s with
      | (none, s) => (NULL, s)
      | (some pt, s) => (entryPtr pt (index 12 virtAddr), s) := by
  rw [pagingWalk_eq]
  simp only [path, pagingDescendAll]
  rcases pagingDescend s.vmm.pml4 (index 39 virtAddr) alloc flags s with ⟨_ | pdpt, s₁⟩
  · rfl
  dsimp only
  rcases pagingDescend pdpt (index 30 virtAddr) alloc flags s₁ with ⟨_ | pd, s₂⟩
  · rfl
  dsimp only
  rcases pagingDescend pd (index 21 virtAddr) alloc flags s₂ with ⟨_ | pt, s₃⟩
  · rfl
  · rfl

/-- How many tables are missing on the way along `is` from a table. -/
def missingFrom (m : Store) : List (Fin 512) → Nat → Nat
  | [], _ => 0
  | i :: is, f =>
      if present (tables m f i) then missingFrom m is (child (tables m f i)) else is.length + 1

/-- How many tables are missing on the path of `v`. -/
def missing (s : State) (v : Nat) : Nat := missingFrom s.ram (path v) s.vmm.pml4

theorem missingFrom_empty {m : Store} {f : Nat} (h : ∀ j, tables m f j = 0)
    (is : List (Fin 512)) : missingFrom m is f = is.length := by
  cases is with
  | nil => rfl
  | cons i is =>
      rw [missingFrom, h i]
      rfl

theorem missingFrom_eq_zero_iff {m : Store} {is : List (Fin 512)} {f : Nat} :
    missingFrom m is f = 0 ↔ ∃ g, follow present child (tables m) f is = some g := by
  induction is generalizing f with
  | nil => exact iff_of_true rfl ⟨f, rfl⟩
  | cons i is ih =>
      rw [follow, missingFrom]
      split
      next => exact ih
      next => exact iff_of_false (Nat.succ_ne_zero _) (by rintro ⟨g, hg⟩; cases hg)

/-- Nothing is missing where there is a leaf table. -/
theorem missing_eq_zero_iff {s : State} {v : Nat} :
    missing s v = 0 ↔ ∃ pt, reach s (path v) = some pt :=
  missingFrom_eq_zero_iff

/-- What is missing depends on the tables in use. -/
theorem missingFrom_congr {p4 : Nat} {s : State} {own : Nat → Option Use} {m : Store}
    (forest : Forest p4 s own) (same : ∀ g u i, own g = some u → tables m g i = tables s.ram g i)
    {is : List (Fin 512)} {f : Nat} {u : Use} (hu : own f = some u)
    (hdepth : u.depth + is.length ≤ 3) : missingFrom m is f = missingFrom s.ram is f := by
  induction is generalizing f u with
  | nil => rfl
  | cons i is ih =>
      rw [missingFrom, missingFrom, same f u i hu]
      cases is with
      | nil => rfl
      | cons j is =>
          rw [List.length_cons, List.length_cons] at hdepth
          split
          next hpresent =>
            have hnext := forest.next hu (by omega) (forest.ne_large hu (by omega)) hpresent
            refine ih hnext ?_
            change u.depth + 1 + (is.length + 1) ≤ 3
            omega
          next => rfl

/-! ### Steps that leave the tables alone -/

section Same

variable {p4 v : Nat} {s s' : State} {own : Nat → Option Use} (forest : Forest p4 s own)
  (hroot : own s.vmm.pml4 = some Use.root) (hvmm : s'.vmm = s.vmm)
  (same : ∀ g u i, own g = some u → tables s'.ram g i = tables s.ram g i)
include forest hroot hvmm same

theorem reach_same {is : List (Fin 512)} (hlen : is.length ≤ 3) : reach s' is = reach s is := by
  unfold reach
  rw [hvmm]
  refine follow_congr fun js i ks f hpath hf => ?_
  have hsplit := congrArg List.length hpath
  rw [List.length_append, List.length_cons] at hsplit
  obtain ⟨u, hu, -⟩ := own_of_reach forest hroot (by omega) hf
  exact same f u i hu

theorem leafEntry_same (high : High p4 s v) : leafEntry s' v = leafEntry s v := by
  have hreach := @reach_same p4 s s' own forest hroot hvmm same (path v) (le_refl 3)
  unfold leafEntry leaf
  change (reach s' (path v)).bind _ = (reach s (path v)).bind _
  rw [hreach]
  cases hpt : reach s (path v) with
  | none => rw [Option.bind_none, Option.bind_none]
  | some pt =>
      obtain ⟨u, hu, -⟩ := own_of_reach_path forest hroot high hpt
      simp only [Option.bind_some]
      rw [same pt u (index 12 v) hu]

theorem missing_same : missing s' v = missing s v := by
  unfold missing
  rw [hvmm]
  exact missingFrom_congr forest same hroot (le_refl 3)

end Same

/-- A leaf entry that was absent is written. -/
theorem leafEntry_setEntry {p4 v pt entry : Nat} {s : State} {own : Nat → Option Use}
    (forest : Forest p4 s own) (hroot : own s.vmm.pml4 = some Use.root) (high : High p4 s v)
    (hpt : reach s (path v) = some pt) (habsent : present (tables s.ram pt (index 12 v)) = false)
    (hentry : entry < 2 ^ 64) (hpresent : present entry = true) :
    leafEntry (setEntry s pt (index 12 v) entry) v = some entry := by
  obtain ⟨u, hu, -⟩ := own_of_reach_path forest hroot high hpt
  have htable := forest.table pt u hu
  have hpt' := @reach_kept p4 s own forest hroot (setEntry s pt (index 12 v) entry) rfl
    (fun g w i hw hold => tables_setEntry_other htable.aligned (forest.table g w hw).aligned (by
      rintro ⟨rfl, rfl⟩
      rw [hold] at habsent
      cases habsent)) (path v) pt (le_refl 3) hpt
  rw [leafEntry_of_reach hpt', tables_setEntry_same hentry, if_pos hpresent]

section Walk

variable {p4 v flags : Nat} {s : State} {own : Nat → Option Use} (forest : Forest p4 s own)
  (hroot : own s.vmm.pml4 = some Use.root) (high : High p4 s v)
include forest hroot high

/-- The rest of a walk, from the table `f` on its path. -/
theorem pagingDescendAll_extends (hflags : PlainFlags flags) {done rest : List (Fin 512)} {f : Nat}
    (hpath : done ++ rest = path v) (hf : reach s done = some f) :
    ∃ s' own', Extends p4 v flags s own s' own' ∧
      (pagingDescendAll true flags rest f s = (none, s') ∧ freeCount s' = 0 ∧
          freeCount s < missingFrom s.ram rest f ∨
        ∃ pt, pagingDescendAll true flags rest f s = (some pt, s') ∧
          reach s' (path v) = some pt ∧
          freeCount s' + missingFrom s.ram rest f = freeCount s ∧
          (missingFrom s.ram rest f ≠ 0 → ∀ j, tables s'.ram pt j = 0)) := by
  induction rest generalizing s own done f with
  | nil =>
      rw [List.append_nil] at hpath
      exact ⟨s, own, Extends.refl forest, Or.inr ⟨f, rfl, hpath ▸ hf, rfl, absurd rfl⟩⟩
  | cons i rest ih =>
      obtain ⟨hshared, hpath', hlen⟩ := path_next hpath
      obtain ⟨u, hu, hdepth⟩ := own_of_reach forest hroot (by omega) hf
      have hnext : reach s (done ++ [i]) = if present (tables s.ram f i) then
          some (child (tables s.ram f i)) else none := by
        unfold reach at hf ⊢
        rw [follow_concat, hf, Option.bind_some]
      rw [pagingDescendAll, missingFrom]
      rcases pagingDescend_extends forest hroot hf hu hdepth hshared
        (prefix_ne_large forest hroot high hshared hf) hflags with
        ⟨g, hrun, hg⟩ | ⟨habsent, ⟨hrun, hcount⟩ | ⟨s₁, own₁, g, ext₁, hrun, hg, hempty, hcount⟩⟩
      · -- the table is there
        have hpresent : present (tables s.ram f i) = true := by
          by_contra hno
          rw [hnext, if_neg hno] at hg
          cases hg
        rw [hnext, if_pos hpresent] at hg
        cases hg
        rw [if_pos hpresent, hrun]
        exact ih forest hroot high hpath' (hnext.trans (if_pos hpresent))
      · -- no frame for the table
        have hno : ¬ present (tables s.ram f i) = true := by
          intro hpresent
          rw [hnext, if_pos hpresent] at habsent
          cases habsent
        rw [if_neg hno, hrun]
        exact ⟨s, own, Extends.refl forest, Or.inl ⟨rfl, hcount, by omega⟩⟩
      · -- a new table, and none below it
        have hno : ¬ present (tables s.ram f i) = true := by
          intro hpresent
          rw [hnext, if_pos hpresent] at habsent
          cases habsent
        have hroot₁ : own₁ s₁.vmm.pml4 = some Use.root := by
          rw [ext₁.vmm]
          exact ext₁.owns _ _ hroot
        have high₁ : High p4 s₁ v := by
          unfold High
          rw [ext₁.vmm]
          exact high
        have hmissing := missingFrom_empty hempty rest
        rw [if_neg hno, hrun]
        obtain ⟨s', own', ext, ⟨hfail, hzero, hlt⟩ | ⟨pt, harrive, hpt, hsum, hleaf⟩⟩ :=
          ih ext₁.forest hroot₁ high₁ hpath' hg
        · exact ⟨s', own', ext₁.trans ext hroot, Or.inl ⟨hfail, hzero, by omega⟩⟩
        · refine ⟨s', own', ext₁.trans ext hroot, Or.inr ⟨pt, harrive, hpt, by omega, fun _ => ?_⟩⟩
          cases rest with
          | nil =>
              -- the new table is the leaf table
              cases harrive
              exact hempty
          | cons i rest => exact hleaf (by rw [hmissing]; exact Nat.succ_ne_zero _)

variable (hflags : PlainFlags flags ∨ ∃ pt, reach s (path v) = some pt)
include hflags

/-- With `alloc`, a walk extends the forest: it arrives at the leaf entry of its
address if there are frames for the missing tables. Where the leaf table is there
already, nothing happens. -/
theorem pagingWalk_extends :
    ∃ s' own', Extends p4 v flags s own s' own' ∧
      ((∃ pt, reach s (path v) = some pt) → s' = s ∧ own' = own) ∧
      (pagingWalk v true flags s = (NULL, s') ∧ freeCount s' = 0 ∧ freeCount s < missing s v ∨
        ∃ pt, pagingWalk v true flags s = (entryPtr pt (index 12 v), s') ∧
          reach s' (path v) = some pt ∧ freeCount s' + missing s v = freeCount s ∧
          (missing s v ≠ 0 → ∀ j, tables s'.ram pt j = 0)) := by
  by_cases hfound : ∃ pt, reach s (path v) = some pt
  · have hmissing := missing_eq_zero_iff.mpr hfound
    obtain ⟨pt, hpt⟩ := hfound
    exact ⟨s, own, Extends.refl forest, fun _ => ⟨rfl, rfl⟩,
      Or.inr ⟨pt, pagingWalk_found hpt, hpt, by rw [hmissing, Nat.add_zero], absurd hmissing⟩⟩
  · have hplain := hflags.resolve_right hfound
    rw [pagingWalk_eq_descendAll]
    obtain ⟨s', own', ext, ⟨hrun, hzero, hlt⟩ | ⟨pt, hrun, hpt, hsum, hleaf⟩⟩ :=
      @pagingDescendAll_extends p4 v flags s own forest hroot high hplain [] (path v) s.vmm.pml4
        rfl rfl
    · exact ⟨s', own', ext, fun h => absurd h hfound, Or.inl ⟨by rw [hrun], hzero, hlt⟩⟩
    · exact ⟨s', own', ext, fun h => absurd h hfound, Or.inr ⟨pt, by rw [hrun], hpt, hsum, hleaf⟩⟩

/-- Mapping a page writes to the leaf entry that the walk comes to. It fails where frames run
out and where the page was mapped before, which changes nothing. -/
theorem pagingMapPage_walk (physAddr : Nat) (hv : v < 2 ^ 64) :
    ∃ s' own', (pagingWalk v true flags s).2 = s' ∧ Extends p4 v flags s own s' own' ∧
      ((∃ pt, reach s (path v) = some pt) → s' = s ∧ own' = own) ∧
      (pagingMapPage physAddr v flags s = (NULL, s') ∧ freeCount s < missing s v ∨
        pagingMapPage physAddr v flags s = (NULL, s') ∧ s' = s ∧
          (∃ entry, leafEntry s v = some entry) ∨
        freeCount s' + missing s v = freeCount s ∧ (¬ ∃ entry, leafEntry s v = some entry) ∧
          ∃ pt, reach s' (path v) = some pt ∧ present (tables s'.ram pt (index 12 v)) = false ∧
            (missing s v ≠ 0 → ∀ j, tables s'.ram pt j = 0) ∧
            pagingMapPage physAddr v flags s = (PAGE_SIZE * (v / PAGE_SIZE),
              setEntry s' pt (index 12 v)
                (pagingMakeEntry physAddr (PAGE_PRESENT ||| flags)))) := by
  obtain ⟨s', own', ext, hsame, hwalk⟩ := pagingWalk_extends forest hroot high hflags
  have hbody : pagingMapPage physAddr v flags s
      = if (pagingWalk v true flags s).1 = NULL then (NULL, (pagingWalk v true flags s).2)
        else if entryAt (pagingWalk v true flags s).2.ram (pagingWalk v true flags s).1
          &&& PAGE_PRESENT ≠ 0 then (NULL, (pagingWalk v true flags s).2)
        else (PAGE_SIZE * (v / PAGE_SIZE), { (pagingWalk v true flags s).2 with
          ram := setEntryAt (pagingWalk v true flags s).2.ram (pagingWalk v true flags s).1
            (pagingMakeEntry physAddr (PAGE_PRESENT ||| flags)) }) := by
    simp only [pagingMapPage]
    rw [and_pageMask hv, pagingWalk_page]
  refine ⟨s', own', ?_, ext, hsame, ?_⟩
  · rcases hwalk with ⟨hrun, -⟩ | ⟨pt, hrun, -⟩
    · rw [hrun]
    · rw [hrun]
  rcases hwalk with ⟨hrun, -, hlt⟩ | ⟨pt, hrun, hpt, hsum, hempty⟩
  · refine Or.inl ⟨?_, hlt⟩
    rw [hbody, hrun, if_pos rfl]
  refine Or.inr ?_
  have hroot' := ext.root hroot
  have high' := ext.high high
  obtain ⟨u, hu, -⟩ := own_of_reach_path ext.forest hroot' high' hpt
  have hptr := ext.forest.entryPtr_ne_null hu (index 12 v)
  rw [hrun] at hbody
  dsimp only at hbody
  rw [if_neg hptr] at hbody
  -- a leaf table that was there is as it was, and a new one is empty
  have hleaf : leafEntry s v = if present (tables s'.ram pt (index 12 v)) then
      some (tables s'.ram pt (index 12 v)) else none := by
    by_cases hmissing : missing s v = 0
    · obtain ⟨rfl, rfl⟩ := hsame (missing_eq_zero_iff.mp hmissing)
      exact leafEntry_of_reach hpt
    · have hnone : leafEntry s v = none := by
        cases hentry : leafEntry s v with
        | none => rfl
        | some entry =>
            obtain ⟨pt₀, hpt₀, -⟩ := reach_of_leafEntry hentry
            exact absurd (missing_eq_zero_iff.mpr ⟨pt₀, hpt₀⟩) hmissing
      rw [hnone, hempty hmissing]
      rfl
  cases hpresent : present (tables s'.ram pt (index 12 v)) with
  | true =>
      rw [if_pos hpresent] at hleaf
      obtain ⟨pt₀, hpt₀, -⟩ := reach_of_leafEntry hleaf
      refine Or.inl ⟨hbody.trans (if_pos ?_), (hsame ⟨pt₀, hpt₀⟩).1, _, hleaf⟩
      exact of_decide_eq_true hpresent
  | false =>
      rw [if_neg (by rw [hpresent]; decide)] at hleaf
      refine Or.inr ⟨hsum, ?_, pt, hpt, hpresent, hempty, hbody.trans (if_neg ?_)⟩
      · rintro ⟨entry, hentry⟩
        rw [hleaf] at hentry
        cases hentry
      · exact not_not.mpr (present_eq_false_iff.mp hpresent)

/-- Mapping a page extends the forest, and writes the leaf entry if it does not fail. -/
theorem pagingMapPage_extends (physAddr : Nat) (hv : v < 2 ^ 64) :
    ∃ s' own', Extends p4 v flags s own s' own' ∧
      ((∃ pt, reach s (path v) = some pt) → s' = s ∧ own' = own) ∧
      (pagingMapPage physAddr v flags s = (NULL, s') ∧ freeCount s < missing s v ∨
        pagingMapPage physAddr v flags s = (NULL, s') ∧ s' = s ∧
          (∃ entry, leafEntry s v = some entry) ∨
        freeCount s' + missing s v = freeCount s ∧ (¬ ∃ entry, leafEntry s v = some entry) ∧
          ∃ pt, reach s' (path v) = some pt ∧ present (tables s'.ram pt (index 12 v)) = false ∧
            pagingMapPage physAddr v flags s = (PAGE_SIZE * (v / PAGE_SIZE),
              setEntry s' pt (index 12 v)
                (pagingMakeEntry physAddr (PAGE_PRESENT ||| flags)))) := by
  obtain ⟨s', own', -, ext, hsame, h⟩ :=
    pagingMapPage_walk forest hroot high hflags physAddr hv
  refine ⟨s', own', ext, hsame, h.imp_right (Or.imp_right ?_)⟩
  rintro ⟨hsum, hunmapped, pt, hpt, habsent, -, hrun⟩
  exact ⟨hsum, hunmapped, pt, hpt, habsent, hrun⟩

end Walk

end Curnel.Paging
