/-
Paths from a root.

Two paths from one root lead to one table only if they are one path (`reach_inj`); from
the kernel's root that is so past the first gigabyte. So a walk that allocates makes the
tables on its own path reachable and no others (`pagingWalk_reach`), and mapping or
unmapping a page changes the leaf entry of that page only.
-/

import Curnel.Paging.Roles
import Curnel.Paging.Runs

namespace Curnel.Paging

open Lib Lib.Bytes Lib.Word Lib.Radix Lib.Ownership

/-! ### One path to a table -/

theorem own_pml4 {p4 : Nat} {s : State} {own : Nat → Option Use} (forest : Forest p4 s own)
    (hpml4 : s.vmm.pml4 = p4) : own s.vmm.pml4 = some Use.root := by
  rw [hpml4]
  exact forest.root

/-- The slot that counts for another has its index, and below the roots it is the same slot. -/
theorem slotOf_index (m : Store) (p4 : Nat) (u : Use) (f : Nat) (i : Fin 512) :
    ∃ g, slotOf m p4 u f i = ⟨g, i⟩ ∧ (u.depth ≠ 0 → g = f) := by
  unfold slotOf
  split
  next hshared => exact ⟨p4, rfl, fun h => absurd hshared.1 h⟩
  next => exact ⟨f, rfl, fun _ => rfl⟩

section Root

variable {p4 : Nat} {s : State} {own : Nat → Option Use} (forest : Forest p4 s own)
  (hroot : own s.vmm.pml4 = some Use.root)
include forest hroot

/-- The last link of a path is the slot that the table is known by, or a copy of it. -/
theorem own_of_link {v f : Nat} {ks : List (Fin 512)} {k : Fin 512} (high : High p4 s v)
    (hpath : ks ++ [k] <+: path v) (h : reach s (ks ++ [k]) = some f) :
    ∃ g g', reach s ks = some g ∧ own f = some ⟨ks.length + 1, some ⟨g', k⟩⟩ ∧
      (ks ≠ [] → g' = g) := by
  have hlen := length_of_prefix_concat hpath
  obtain ⟨g, hg, hpresent, rfl⟩ := follow_concat_eq_some h
  obtain ⟨u, hu, hdepth⟩ := own_of_reach forest hroot (by omega) hg
  have hnext := forest.next hu (by omega) (prefix_ne_large forest hroot high hpath hg) hpresent
  obtain ⟨g', hslot, hsame⟩ := slotOf_index s.ram p4 u g k
  rw [hslot, hdepth] at hnext
  refine ⟨g, g', hg, hnext, fun hne => hsame ?_⟩
  rw [hdepth]
  exact fun hnil => hne (List.length_eq_zero_iff.mp hnil)

/-- Different paths lead to different tables. -/
theorem reach_inj {v w f : Nat} {is js : List (Fin 512)} (hv : High p4 s v) (hw : High p4 s w)
    (his : is <+: path v) (hjs : js <+: path w) (hf : reach s is = some f)
    (hg : reach s js = some f) : is = js := by
  have hnil : ∀ {ks k x}, ks ++ [k] <+: path x → High p4 s x →
      reach s (ks ++ [k]) ≠ some s.vmm.pml4 := by
    intro ks k x hks hx hreach
    obtain ⟨g, g', -, hown, -⟩ := own_of_link forest hroot hx hks hreach
    rw [hroot] at hown
    cases hown
  induction is using List.reverseRecOn generalizing f js with
  | nil =>
      cases hf
      rcases List.eq_nil_or_concat' js with rfl | ⟨ls, l, rfl⟩
      · rfl
      · exact absurd hg (hnil hjs hw)
  | append_singleton ks k ih =>
      rcases List.eq_nil_or_concat' js with rfl | ⟨ls, l, rfl⟩
      · cases hg
        exact absurd hf (hnil his hv)
      · obtain ⟨g, x, hreach, hown, hx⟩ := own_of_link forest hroot hv his hf
        obtain ⟨g', y, hreach', hown', hy⟩ := own_of_link forest hroot hw hjs hg
        rw [hown] at hown'
        obtain ⟨hlength, hslot⟩ := Use.mk.inj (Option.some.inj hown')
        obtain ⟨rfl, rfl⟩ := Place.mk.inj (Option.some.inj hslot)
        cases ks with
        | nil =>
            have hls : ls = [] := List.length_eq_zero_iff.mp (Nat.succ_inj.mp hlength).symm
            rw [hls]
        | cons j js =>
            have hls : ls ≠ [] := by
              rintro rfl
              cases hlength
            rw [← hy hls, hx (List.cons_ne_nil j js)] at hreach'
            rw [ih ((List.prefix_append _ [k]).trans his) ((List.prefix_append ls [k]).trans hjs)
              hreach hreach']

end Root

/-! ### What a walk makes reachable -/

theorem reach_of_prefix {s : State} {is js : List (Fin 512)} {f : Nat} (h : is <+: js)
    (hf : reach s js = some f) : ∃ g, reach s is = some g := by
  obtain ⟨ks, rfl⟩ := h
  unfold reach at hf ⊢
  rw [follow_append, Option.bind_eq_some_iff] at hf
  obtain ⟨g, hg, -⟩ := hf
  exact ⟨g, hg⟩

/-- Every table that a path led to before, or that the path of `v` leads to now. -/
def OnlyReaches (p4 v : Nat) (s s' : State) : Prop :=
  ∀ w js g, High p4 s w → js <+: path w → reach s' js = some g →
    reach s js = some g ∨ js <+: path v

section Descend

variable {p4 v flags : Nat} {s : State} {own : Nat → Option Use} (forest : Forest p4 s own)
  (hroot : own s.vmm.pml4 = some Use.root) (high : High p4 s v)
include forest hroot high

/-- A new empty table at the end of a path that was there. -/
theorem onlyReaches_link {s' : State} {own' : Nat → Option Use} {is : List (Fin 512)}
    {i : Fin 512} {f n : Nat} (ext : Extends p4 v flags s own s' own') (hpath : is ++ [i] <+: path v)
    (hf : reach s is = some f) (hn : reach s' (is ++ [i]) = some n)
    (hempty : ∀ j, tables s'.ram n j = 0) : OnlyReaches p4 v s s' := by
  intro w js g hw hjs hg
  have hstop : ∀ j, present (tables s'.ram n j) = false := by
    intro j
    rw [hempty j]
    rfl
  induction js using List.reverseRecOn generalizing g with
  | nil =>
      have hg : some s'.vmm.pml4 = some g := hg
      rw [ext.vmm] at hg
      exact Or.inl hg
  | append_singleton ls l ih =>
      obtain ⟨x, hx, hpresent, rfl⟩ := follow_concat_eq_some hg
      have hls : ls <+: path w := (List.prefix_append ls [l]).trans hjs
      have hlen := length_of_prefix_concat hjs
      by_cases hold : reach s ls = some x
      · obtain ⟨u, hu, -⟩ := own_of_reach forest hroot (by omega) hold
        rcases ext.slots x u l hu with hsame | ⟨-, -, is', his', hreach'⟩
        · refine Or.inl ?_
          unfold reach at hold ⊢
          rw [follow_concat, hold, Option.bind_some, ← hsame, if_pos hpresent]
        · -- the slot of that table on the path of `v`
          have hone := reach_inj ext.forest (ext.root hroot) (ext.high high) (ext.high hw)
            ((List.prefix_append is' [l]).trans his') hls hreach' hx
          exact Or.inr (hone ▸ his')
      · have hnew : ls <+: path v := (ih x hls hx).resolve_left hold
        have hend : x = n → False := by
          rintro rfl
          rw [hstop l] at hpresent
          cases hpresent
        have hfresh : ¬ ls <+: is := by
          intro hle
          obtain ⟨y, hy⟩ := reach_of_prefix hle hf
          have hy' := ext.reach forest hroot (by omega) hy
          exact hold (hy.trans (hy'.symm.trans hx))
        rcases List.prefix_or_prefix_of_prefix hnew hpath with hle | hge
        · rcases List.prefix_concat_iff.mp hle with rfl | hle
          · exact absurd (Option.some.inj (hx.symm.trans hn)) hend
          · exact absurd hle hfresh
        · -- nothing is reachable below the new table
          obtain ⟨rest, rfl⟩ := hge
          unfold reach at hn
          rw [follow_append, hn, Option.bind_some] at hx
          exact absurd (follow_of_empty hstop hx).2 hend

theorem pagingDescendAll_reach (hflags : PlainFlags flags) {done rest : List (Fin 512)} {f : Nat}
    (hpath : done ++ rest = path v) (hf : reach s done = some f) :
    OnlyReaches p4 v s (pagingDescendAll true flags rest f s).2 := by
  induction rest generalizing s own done f with
  | nil => exact fun w js g _ _ hg => Or.inl hg
  | cons i rest ih =>
      obtain ⟨hshared, hpath', hlen⟩ := path_next hpath
      obtain ⟨u, hu, hdepth⟩ := own_of_reach forest hroot (by omega) hf
      rw [pagingDescendAll]
      rcases pagingDescend_extends forest hroot hf hu hdepth hshared
        (prefix_ne_large forest hroot high hshared hf) hflags with
        ⟨g, hrun, hg⟩ | ⟨-, ⟨hrun, -⟩ | ⟨s₁, own₁, g, ext₁, hrun, hg, hempty, -⟩⟩
      · rw [hrun]
        exact ih forest hroot high hpath' hg
      · rw [hrun]
        exact fun w js g _ _ hg => Or.inl hg
      · rw [hrun]
        have hlast := ih ext₁.forest (ext₁.root hroot) (ext₁.high high) hpath' hg
        have hfirst := onlyReaches_link forest hroot high ext₁ hshared hf hg hempty
        intro w js x hw hjs hx
        rcases hlast w js x (ext₁.high hw) hjs hx with hmid | hon
        · exact hfirst w js x hw hjs hmid
        · exact Or.inr hon

theorem pagingWalk_reach (hflags : PlainFlags flags) :
    OnlyReaches p4 v s (pagingWalk v true flags s).2 := by
  have hall := @pagingDescendAll_reach p4 v flags s own forest hroot high hflags [] (path v)
    s.vmm.pml4 rfl rfl
  have hstate : (pagingWalk v true flags s).2
      = (pagingDescendAll true flags (path v) s.vmm.pml4 s).2 := by
    rw [pagingWalk_eq_descendAll]
    generalize pagingDescendAll true flags (path v) s.vmm.pml4 s = r
    obtain ⟨_ | pt, s'⟩ := r
    · rfl
    · rfl
  rw [hstate]
  exact hall

end Descend

/-! ### Leaf entries -/

theorem eq_of_path_prefix {v w : Nat} (h : path w <+: path v) : path w = path v :=
  h.eq_of_length rfl

theorem leafEntry_of_unreached {s : State} {v : Nat} (h : reach s (path v) = none) :
    leafEntry s v = none := by
  unfold leafEntry leaf
  change (reach s (path v)).bind _ = none
  rw [h]
  rfl

section Leaf

variable {p4 v w pt entry : Nat} {s : State} {own : Nat → Option Use} (forest : Forest p4 s own)
  (hroot : own s.vmm.pml4 = some Use.root) (hv : High p4 s v) (hw : High p4 s w)
  (hpt : reach s (path v) = some pt)
include forest hroot hv hpt

/-- A write to a leaf table redirects no link. -/
theorem reach_setEntry {js : List (Fin 512)} (hlen : js.length ≤ 3) :
    reach (setEntry s pt (index 12 v) entry) js = reach s js := by
  obtain ⟨u, hu, hdepth⟩ := own_of_reach_path forest hroot hv hpt
  unfold reach
  apply follow_congr
  intro is i ks f hsplit hf
  have hlengths := congrArg List.length hsplit
  rw [List.length_append, List.length_cons] at hlengths
  obtain ⟨u', hu', hdepth'⟩ := own_of_reach forest hroot (by omega) hf
  apply tables_setEntry_other (forest.table pt u hu).aligned (forest.table f u' hu').aligned
  rintro ⟨rfl, -⟩
  rw [hu] at hu'
  cases hu'
  omega

include hw

/-- Writing a leaf entry changes the entry of that page and no other. -/
theorem leafEntry_write (hentry : entry < 2 ^ 64) :
    leafEntry (setEntry s pt (index 12 v) entry) w
      = if pageKey w = pageKey v then (if present entry then some entry else none)
        else leafEntry s w := by
  obtain ⟨u, hu, -⟩ := own_of_reach_path forest hroot hv hpt
  have hreach := @reach_setEntry p4 v pt entry s own forest hroot hv hpt (path w) (le_refl 3)
  split
  next hsame =>
    rw [leafEntry_congr hsame]
    have hreach' := @reach_setEntry p4 v pt entry s own forest hroot hv hpt (path v) (le_refl 3)
    rw [leafEntry_of_reach (hreach'.trans hpt), tables_setEntry_same hentry]
  next hother =>
    cases hpt' : reach s (path w) with
    | none =>
        rw [leafEntry_of_unreached hpt']
        exact leafEntry_of_unreached (hreach.trans hpt')
    | some pt' =>
        obtain ⟨u', hu', -⟩ := own_of_reach_path forest hroot hw hpt'
        rw [leafEntry_of_reach (hreach.trans hpt'), leafEntry_of_reach hpt',
          tables_setEntry_other (forest.table pt u hu).aligned (forest.table pt' u' hu').aligned]
        rintro ⟨rfl, hindex⟩
        have hpath := reach_inj forest hroot hw hv List.prefix_rfl List.prefix_rfl hpt' hpt
        exact hother (pageKey_eq_iff.mp ⟨hpath, hindex⟩)

end Leaf

section Walk

variable {p4 v w flags : Nat} {s s' : State} {own own' : Nat → Option Use}
  (forest : Forest p4 s own) (hroot : own s.vmm.pml4 = some Use.root)
  (ext : Extends p4 v flags s own s' own')
include forest hroot ext

/-- A walk makes no other path lead to a table that was there. -/
theorem reach_of_old (hflags : NoAddress flags) {f : Nat} {u : Use} {js : List (Fin 512)}
    (hlen : js.length ≤ 3) (hu : own f = some u) (h : reach s' js = some f) :
    reach s js = some f := by
  have hroot' := ext.root hroot
  induction js using List.reverseRecOn generalizing f u with
  | nil =>
      have h : some s'.vmm.pml4 = some f := h
      rw [ext.vmm] at h
      exact h
  | append_singleton ks k ih =>
      rw [List.length_append, List.length_singleton] at hlen
      obtain ⟨g, hg, hpresent, rfl⟩ := follow_concat_eq_some h
      obtain ⟨x, hx, hdepth⟩ := own_of_reach ext.forest hroot' (by omega) hg
      rcases ext.entries g x k hx (by omega) hpresent with ⟨hold, hsame⟩ | ⟨n, hfree, -, hmade⟩
      · have hks := ih (by omega) hold hg
        rw [hsame] at hpresent ⊢
        unfold reach at hks ⊢
        rw [follow_concat, hks, Option.bind_some, if_pos hpresent]
      · have hn : n < 2 ^ 40 := lt_of_lt_of_le hfree.1 forest.frames.bound
        have hchild := child_makeEntry hn
          (plainFlags_present.1.or (plainFlags_writable.1.or hflags))
        rw [hmade, hchild, own_of_free forest hfree] at hu
        cases hu

/-- The tables that a walk makes lead to no page yet. -/
theorem leafEntry_walk {pt : Nat} (only : OnlyReaches p4 v s s')
    (hpt : reach s' (path v) = some pt) (hempty : missing s v ≠ 0 → ∀ j, tables s'.ram pt j = 0)
    (hw : High p4 s w) : leafEntry s' w = leafEntry s w := by
  cases hold : reach s (path w) with
  | some g =>
      obtain ⟨u, hu, hdepth⟩ := own_of_reach_path forest hroot hw hold
      have hsame : tables s'.ram g (index 12 w) = tables s.ram g (index 12 w) := by
        rcases ext.slots g u (index 12 w) hu with hsame | ⟨hlt, -⟩
        · exact hsame
        · omega
      have hkept := ext.reach forest hroot (le_refl 3) hold
      rw [leafEntry_of_reach hkept, leafEntry_of_reach hold, hsame]
  | none =>
      rw [leafEntry_of_unreached hold]
      cases hnew : reach s' (path w) with
      | none => exact leafEntry_of_unreached hnew
      | some g =>
          have hon := (only w (path w) g hw List.prefix_rfl hnew).resolve_left fun h => by
            rw [hold] at h
            cases h
          have hpath := eq_of_path_prefix hon
          rw [hpath] at hnew hold
          have hmissing : missing s v ≠ 0 := by
            intro hzero
            obtain ⟨g', hg'⟩ := missing_eq_zero_iff.mp hzero
            rw [hold] at hg'
            cases hg'
          have hzero := hempty hmissing (index 12 w)
          rw [hpt] at hnew
          cases hnew
          rw [leafEntry_of_reach (hpath ▸ hpt), hzero]
          rfl

end Walk

end Curnel.Paging
