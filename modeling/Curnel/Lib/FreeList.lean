/-
First-fit allocation over a tiled arena.

An arena is cut into blocks that follow one another without gaps; each block is
a header of `h` bytes followed by a payload, and is free or in use. Addresses
are not stored: `located` recovers them from the sizes. An allocation takes the
first free block that is large enough and splits off what is left when that is
worth a block of its own (`alloc`); a release marks a block free (`release`) and
merges neighbours that are both free (`coalesce`).

Every operation keeps the arena's extent, its alignment and, between them, the
absence of adjacent free blocks; what they do to the blocks in use is `used`. A
list without adjacent free blocks is determined by its blocks in use
(`eq_of_used_iff`).
-/

import Mathlib.Data.List.Basic
import Mathlib.Data.List.Chain
import Mathlib.Tactic.Linarith

namespace Lib.FreeList

/-- A block: the bytes its header is followed by, and whether it is free. -/
structure Block where
  size : Nat
  free : Bool
deriving DecidableEq, Repr

variable {h t need d : Nat}

/-- The bytes the blocks and their headers take up. -/
def extent (h : Nat) : List Block → Nat
  | [] => 0
  | b :: bs => h + b.size + extent h bs

/-- The blocks with the addresses of their headers, the first one at `a`. -/
def located (h : Nat) : Nat → List Block → List (Nat × Block)
  | _, [] => []
  | a, b :: bs => (a, b) :: located h (a + h + b.size) bs

/-- The header addresses and payload sizes of the blocks in use. -/
def used (h : Nat) : Nat → List Block → List (Nat × Nat)
  | _, [] => []
  | a, b :: bs =>
      if b.free then used h (a + h + b.size) bs
      else (a, b.size) :: used h (a + h + b.size) bs

/-- No two consecutive blocks are both free. -/
def NoAdjacentFree (bs : List Block) : Prop :=
  bs.IsChain fun b c => ¬ (b.free = true ∧ c.free = true)

/-- Take the first free block of at least `need` bytes. What lies past a payload
of `need` bytes becomes a block of its own when it holds more than a header and
`t` further bytes. -/
def alloc (h t need : Nat) : Nat → List Block → Option (Nat × List Block)
  | _, [] => none
  | a, b :: bs =>
      if b.free = true ∧ need ≤ b.size then
        if need + h + t < b.size then
          some (a, ⟨need, false⟩ :: ⟨b.size - need - h, true⟩ :: bs)
        else some (a, ⟨b.size, false⟩ :: bs)
      else (alloc h t need (a + h + b.size) bs).map fun out => (out.1, b :: out.2)

/-- Mark the block whose header is at `p` free. -/
def release (h p : Nat) : Nat → List Block → List Block
  | _, [] => []
  | a, b :: bs =>
      if a = p then ⟨b.size, true⟩ :: bs else b :: release h p (a + h + b.size) bs

/-- Merge every run of free blocks into one block. -/
def coalesce (h : Nat) : List Block → List Block
  | [] => []
  | [b] => [b]
  | b :: c :: bs =>
      if b.free = true ∧ c.free = true then coalesce h (⟨b.size + h + c.size, true⟩ :: bs)
      else b :: coalesce h (c :: bs)
termination_by bs => bs.length

/-! ### Addresses -/

theorem located_lower {a : Nat} {bs : List Block} {x : Nat × Block}
    (hx : x ∈ located h a bs) : a ≤ x.1 := by
  induction bs generalizing a with
  | nil => simp [located] at hx
  | cons b bs ih =>
      rcases List.mem_cons.mp hx with rfl | hx
      · exact le_refl _
      · have := ih hx
        omega

theorem located_upper {a : Nat} {bs : List Block} {x : Nat × Block}
    (hx : x ∈ located h a bs) : x.1 + h + x.2.size ≤ a + extent h bs := by
  induction bs generalizing a with
  | nil => simp [located] at hx
  | cons b bs ih =>
      rcases List.mem_cons.mp hx with rfl | hx
      · simp only [extent]
        omega
      · have := ih hx
        simp only [extent]
        omega

theorem mem_of_located {a : Nat} {bs : List Block} {x : Nat × Block}
    (hx : x ∈ located h a bs) : x.2 ∈ bs := by
  induction bs generalizing a with
  | nil => simp [located] at hx
  | cons b bs ih =>
      rcases List.mem_cons.mp hx with rfl | hx
      · exact List.mem_cons_self
      · exact List.mem_cons_of_mem _ (ih hx)

/-- Blocks follow one another: none starts before an earlier one ends. -/
theorem located_pairwise (a : Nat) (bs : List Block) :
    (located h a bs).Pairwise fun x y => x.1 + h + x.2.size ≤ y.1 := by
  induction bs generalizing a with
  | nil => exact List.Pairwise.nil
  | cons b bs ih =>
      refine List.Pairwise.cons (fun y hy => ?_) (ih _)
      exact located_lower hy

/-- Of two different blocks, one ends before the other starts. -/
theorem located_apart {a : Nat} {bs : List Block} {x y : Nat × Block}
    (hx : x ∈ located h a bs) (hy : y ∈ located h a bs) (hne : x ≠ y) :
    x.1 + h + x.2.size ≤ y.1 ∨ y.1 + h + y.2.size ≤ x.1 := by
  let Apart : Nat × Block → Nat × Block → Prop := fun x y =>
    x.1 + h + x.2.size ≤ y.1 ∨ y.1 + h + y.2.size ≤ x.1
  have symmetric : Std.Symm Apart := ⟨fun _ _ => Or.symm⟩
  have pairwise : (located h a bs).Pairwise Apart :=
    (located_pairwise a bs).imp fun hxy => Or.inl hxy
  exact pairwise.forall hx hy hne

theorem length_mul_le_extent (bs : List Block) : bs.length * h ≤ extent h bs := by
  induction bs with
  | nil => simp
  | cons b bs ih =>
      simp only [List.length_cons, extent, Nat.add_mul, Nat.one_mul]
      omega

theorem mem_used_iff {a p n : Nat} {bs : List Block} :
    (p, n) ∈ used h a bs ↔ (p, ⟨n, false⟩) ∈ located h a bs := by
  induction bs generalizing a with
  | nil => simp [used, located]
  | cons b bs ih =>
      obtain ⟨size, free⟩ := b
      cases free <;> simp [used, located, ih]

theorem used_lower {a : Nat} {bs : List Block} {x : Nat × Nat} (hx : x ∈ used h a bs) :
    a ≤ x.1 :=
  located_lower (x := (x.1, ⟨x.2, false⟩)) (mem_used_iff.mp hx)

/-! ### The extent is kept -/

theorem extent_alloc {a p : Nat} {bs bs' : List Block}
    (done : alloc h t need a bs = some (p, bs')) : extent h bs' = extent h bs := by
  induction bs generalizing a p bs' with
  | nil => simp [alloc] at done
  | cons b bs ih =>
      simp only [alloc] at done
      split at done
      · split at done
        · rename_i hfit hsplit
          cases done
          simp only [extent]
          omega
        · cases done
          rfl
      · obtain ⟨⟨q, cs⟩, hrest, heq⟩ := Option.map_eq_some_iff.mp done
        cases heq
        simp only [extent, ih hrest]

theorem extent_release (p a : Nat) (bs : List Block) :
    extent h (release h p a bs) = extent h bs := by
  induction bs generalizing a with
  | nil => rfl
  | cons b bs ih =>
      simp only [release]
      split
      · rfl
      · simp only [extent, ih]

theorem extent_coalesce (bs : List Block) : extent h (coalesce h bs) = extent h bs := by
  induction bs using coalesce.induct h with
  | case1 => rw [coalesce]
  | case2 b => rw [coalesce]
  | case3 b c bs hfree ih =>
      rw [coalesce, if_pos hfree, ih]
      simp only [extent]
      omega
  | case4 b c bs hfree ih =>
      rw [coalesce, if_neg hfree]
      simp only [extent] at ih ⊢
      omega

/-! ### Alignment is kept -/

theorem dvd_alloc {a p : Nat} {bs bs' : List Block} (hh : d ∣ h) (hneed : d ∣ need)
    (aligned : ∀ b ∈ bs, d ∣ b.size) (done : alloc h t need a bs = some (p, bs')) :
    ∀ b ∈ bs', d ∣ b.size := by
  induction bs generalizing a p bs' with
  | nil => simp [alloc] at done
  | cons b bs ih =>
      have hb := aligned b List.mem_cons_self
      have hbs : ∀ c ∈ bs, d ∣ c.size := fun c hc => aligned c (List.mem_cons_of_mem _ hc)
      simp only [alloc] at done
      split at done
      · split at done
        · cases done
          have hrest : d ∣ b.size - need - h := Nat.dvd_sub (Nat.dvd_sub hb hneed) hh
          simpa [hneed, hrest] using hbs
        · cases done
          simpa [hb] using hbs
      · obtain ⟨⟨q, cs⟩, hrest, heq⟩ := Option.map_eq_some_iff.mp done
        cases heq
        simpa [hb] using ih hbs hrest

theorem dvd_release {p a : Nat} {bs : List Block} (aligned : ∀ b ∈ bs, d ∣ b.size) :
    ∀ b ∈ release h p a bs, d ∣ b.size := by
  induction bs generalizing a with
  | nil => exact aligned
  | cons b bs ih =>
      have hb := aligned b List.mem_cons_self
      have hbs : ∀ c ∈ bs, d ∣ c.size := fun c hc => aligned c (List.mem_cons_of_mem _ hc)
      simp only [release]
      split
      · simpa [hb] using hbs
      · simpa [hb] using ih hbs

theorem dvd_coalesce {bs : List Block} (hh : d ∣ h) (aligned : ∀ b ∈ bs, d ∣ b.size) :
    ∀ b ∈ coalesce h bs, d ∣ b.size := by
  induction bs using coalesce.induct h with
  | case1 => simp [coalesce]
  | case2 b => simpa [coalesce] using aligned
  | case3 b c bs hfree ih =>
      rw [coalesce, if_pos hfree]
      apply ih
      have hb := aligned b (by simp)
      have hc := aligned c (by simp)
      have hbs : ∀ e ∈ bs, d ∣ e.size := fun e he => aligned e (by simp [he])
      simpa [Nat.dvd_add (Nat.dvd_add hb hh) hc] using hbs
  | case4 b c bs hfree ih =>
      rw [coalesce, if_neg hfree]
      have hb := aligned b (by simp)
      have hrest := ih fun e he => aligned e (List.mem_cons_of_mem _ he)
      simpa [hb] using hrest

/-! ### Adjacent free blocks -/

/-- The head of an allocated list is free only if it was free before. -/
private theorem alloc_head_free {a p : Nat} {bs bs' : List Block} {c : Block}
    (done : alloc h t need a bs = some (p, bs')) (hc : c ∈ bs'.head?) (hfree : c.free = true) :
    ∃ b ∈ bs.head?, b.free = true := by
  cases bs with
  | nil => simp [alloc] at done
  | cons b bs =>
      simp only [alloc] at done
      split at done
      · rename_i hfit
        exact ⟨b, rfl, hfit.1⟩
      · obtain ⟨⟨q, cs⟩, -, heq⟩ := Option.map_eq_some_iff.mp done
        cases heq
        simp only [List.head?_cons, Option.mem_def, Option.some.injEq] at hc
        exact ⟨b, rfl, hc ▸ hfree⟩

theorem noAdjacentFree_alloc {a p : Nat} {bs bs' : List Block} (hbs : NoAdjacentFree bs)
    (done : alloc h t need a bs = some (p, bs')) : NoAdjacentFree bs' := by
  induction bs generalizing a p bs' with
  | nil => simp [alloc] at done
  | cons b bs ih =>
      obtain ⟨hhead, htail⟩ := List.isChain_cons.mp hbs
      simp only [alloc] at done
      split at done
      · rename_i hfit
        split at done
        · cases done
          -- the remainder is free, but what follows it is not: its block was free
          refine List.isChain_cons.mpr ⟨by simp, List.isChain_cons.mpr ⟨?_, htail⟩⟩
          intro c hc hboth
          exact hhead c hc ⟨hfit.1, hboth.2⟩
        · cases done
          exact List.isChain_cons.mpr ⟨by simp, htail⟩
      · obtain ⟨⟨q, cs⟩, hrest, heq⟩ := Option.map_eq_some_iff.mp done
        cases heq
        refine List.isChain_cons.mpr ⟨fun c hc hboth => ?_, ih htail hrest⟩
        obtain ⟨e, he, hefree⟩ := alloc_head_free hrest hc hboth.2
        exact hhead e he ⟨hboth.1, hefree⟩

/-- Merging keeps the first block free or in use as it was. -/
private theorem coalesce_head_free {bs : List Block} {c : Block}
    (hc : c ∈ (coalesce h bs).head?) (hfree : c.free = true) :
    ∃ b ∈ bs.head?, b.free = true := by
  induction bs using coalesce.induct h with
  | case1 => simp [coalesce] at hc
  | case2 b =>
      simp only [coalesce, List.head?_cons, Option.mem_def, Option.some.injEq] at hc
      exact ⟨b, rfl, hc ▸ hfree⟩
  | case3 b e bs hboth ih => exact ⟨b, rfl, hboth.1⟩
  | case4 b e bs hboth ih =>
      rw [coalesce, if_neg hboth] at hc
      simp only [List.head?_cons, Option.mem_def, Option.some.injEq] at hc
      exact ⟨b, rfl, hc ▸ hfree⟩

theorem noAdjacentFree_coalesce (bs : List Block) : NoAdjacentFree (coalesce h bs) := by
  induction bs using coalesce.induct h with
  | case1 => simp [coalesce, NoAdjacentFree]
  | case2 b => simp [coalesce, NoAdjacentFree]
  | case3 b c bs hfree ih =>
      rw [coalesce, if_pos hfree]
      exact ih
  | case4 b c bs hfree ih =>
      rw [coalesce, if_neg hfree]
      refine List.isChain_cons.mpr ⟨fun e he hboth => ?_, ih⟩
      obtain ⟨c', hc', hcfree⟩ := coalesce_head_free he hboth.2
      simp only [List.head?_cons, Option.mem_def, Option.some.injEq] at hc'
      exact hfree ⟨hboth.1, hc' ▸ hcfree⟩

/-! ### The blocks in use -/

/-- An allocation adds the block it returns to those in use, and only that. -/
theorem used_alloc {a p : Nat} {bs bs' : List Block}
    (done : alloc h t need a bs = some (p, bs')) :
    ∃ n, need ≤ n ∧ ∀ x, x ∈ used h a bs' ↔ x = (p, n) ∨ x ∈ used h a bs := by
  induction bs generalizing a p bs' with
  | nil => simp [alloc] at done
  | cons b bs ih =>
      simp only [alloc] at done
      split at done
      · rename_i hfit
        split at done
        · rename_i hsplit
          cases done
          have hpast : a + h + need + h + (b.size - need - h) = a + h + b.size := by omega
          refine ⟨need, le_refl _, fun x => ?_⟩
          simp [used, hfit.1, hpast]
        · cases done
          refine ⟨b.size, hfit.2, fun x => ?_⟩
          simp [used, hfit.1]
      · obtain ⟨⟨q, cs⟩, hrest, heq⟩ := Option.map_eq_some_iff.mp done
        cases heq
        obtain ⟨n, hn, hused⟩ := ih hrest
        refine ⟨n, hn, fun x => ?_⟩
        simp only [used]
        split
        · exact hused x
        · rw [List.mem_cons, List.mem_cons, hused x]
          tauto

/-- An allocation takes the first block that fits, and leaves the blocks around it. -/
theorem located_alloc {a p : Nat} {bs bs' : List Block}
    (done : alloc h t need a bs = some (p, bs')) :
    ∃ before n after kept rest, located h a bs = before ++ (p, ⟨n, true⟩) :: after ∧
      (∀ x ∈ before, ¬ (x.2.free = true ∧ need ≤ x.2.size)) ∧ need ≤ n ∧
      located h a bs' = before ++ (p, ⟨kept, false⟩) :: (rest ++ after) ∧ need ≤ kept ∧
      (rest = [] ∧ kept = n ∨
        ∃ left, rest = [(p + h + kept, ⟨left, true⟩)] ∧ kept + h + left = n) := by
  induction bs generalizing a p bs' with
  | nil => simp [alloc] at done
  | cons b bs ih =>
      simp only [alloc] at done
      split at done
      next hfit =>
        obtain ⟨hfree, hle⟩ := hfit
        have hblock : b = ⟨b.size, true⟩ := by rw [← hfree]
        split at done
        next hsplit =>
          cases done
          have hpast : a + h + need + h + (b.size - need - h) = a + h + b.size := by omega
          refine ⟨[], b.size, _, need, _, by rw [located, ← hblock]; rfl, by simp, hle, ?_,
            Nat.le_refl _, Or.inr ⟨b.size - need - h, rfl, by omega⟩⟩
          simp [located, hpast]
        next =>
          cases done
          exact ⟨[], b.size, _, b.size, [], by rw [located, ← hblock]; rfl, by simp, hle,
            by simp [located], hle, Or.inl ⟨rfl, rfl⟩⟩
      next hfit =>
        obtain ⟨⟨q, cs⟩, hrest, heq⟩ := Option.map_eq_some_iff.mp done
        cases heq
        obtain ⟨before, n, after, kept, rest, hbs, hbefore, hn, hcs, hkept, hsplit⟩ := ih hrest
        refine ⟨(a, b) :: before, n, after, kept, rest, ?_, ?_, hn, ?_, hkept, hsplit⟩
        · rw [located, hbs]
          rfl
        · intro x hx
          rcases List.mem_cons.mp hx with rfl | hx
          · exact hfit
          · exact hbefore x hx
        · rw [located, hcs]
          rfl

theorem alloc_eq_none_iff {a : Nat} {bs : List Block} :
    alloc h t need a bs = none ↔
      ∀ x ∈ located h a bs, ¬ (x.2.free = true ∧ need ≤ x.2.size) := by
  induction bs generalizing a with
  | nil => simp [alloc, located]
  | cons b bs ih =>
      simp only [alloc, located, List.forall_mem_cons]
      split
      next hfit =>
        refine iff_of_false ?_ fun hnone => hnone.1 hfit
        split <;> simp
      next hfit =>
        rw [Option.map_eq_none_iff, ih]
        exact (and_iff_right hfit).symm

/-- The address an allocation returns was the header of a free block. -/
theorem alloc_was_free {a p : Nat} {bs bs' : List Block}
    (done : alloc h t need a bs = some (p, bs')) :
    ∃ n, (p, ⟨n, true⟩) ∈ located h a bs := by
  induction bs generalizing a p bs' with
  | nil => simp [alloc] at done
  | cons b bs ih =>
      simp only [alloc] at done
      split at done
      · rename_i hfit
        have hmem : (a, (⟨b.size, true⟩ : Block)) ∈ located h a (b :: bs) := by
          simp [located, ← hfit.1]
        split at done <;> cases done <;> exact ⟨b.size, hmem⟩
      · obtain ⟨⟨q, cs⟩, hrest, heq⟩ := Option.map_eq_some_iff.mp done
        cases heq
        obtain ⟨n, hn⟩ := ih hrest
        exact ⟨n, List.mem_cons_of_mem _ hn⟩

/-- A release takes its block out of those in use, and only that. -/
theorem used_release {p a : Nat} {bs : List Block} (hh : 0 < h) :
    ∀ x, x ∈ used h a (release h p a bs) ↔ x.1 ≠ p ∧ x ∈ used h a bs := by
  induction bs generalizing a with
  | nil => simp [release, used]
  | cons b bs ih =>
      intro x
      simp only [release]
      split
      · rename_i hp
        subst hp
        have hlater : x ∈ used h (a + h + b.size) bs → x.1 ≠ a := fun hx => by
          have := used_lower hx
          omega
        by_cases hfree : b.free = true
        · simp only [used, hfree, if_true]
          exact ⟨fun hx => ⟨hlater hx, hx⟩, fun hx => hx.2⟩
        · simp only [used, hfree, if_true, Bool.false_eq_true, if_false, List.mem_cons]
          refine ⟨fun hx => ⟨hlater hx, Or.inr hx⟩, ?_⟩
          rintro ⟨hne, rfl | hx⟩
          · exact absurd rfl hne
          · exact hx
      · rename_i hp
        by_cases hfree : b.free = true
        · simp only [used, hfree, if_true]
          exact ih x
        · simp only [used, hfree, Bool.false_eq_true, if_false, List.mem_cons, ih x]
          constructor
          · rintro (rfl | ⟨hne, hx⟩)
            · exact ⟨hp, Or.inl rfl⟩
            · exact ⟨hne, Or.inr hx⟩
          · rintro ⟨hne, rfl | hx⟩
            · exact Or.inl rfl
            · exact Or.inr ⟨hne, hx⟩

/-- Merging free blocks leaves the blocks in use where they are. -/
theorem used_coalesce (a : Nat) (bs : List Block) :
    used h a (coalesce h bs) = used h a bs := by
  induction bs using coalesce.induct h generalizing a with
  | case1 => rw [coalesce]
  | case2 b => rw [coalesce]
  | case3 b c bs hfree ih =>
      have hpast : a + h + (b.size + h + c.size) = a + h + b.size + h + c.size := by omega
      rw [coalesce, if_pos hfree, ih]
      simp [used, hfree.1, hfree.2, hpast]
  | case4 b c bs hfree ih =>
      rw [coalesce, if_neg hfree]
      rw [used, used, ih]

/-! ### The blocks in use determine the list -/

/-- Between the same blocks in use, a free block that starts a list is as large as the one
that starts another. -/
private theorem size_le_of_used {a : Nat} {b c : Block} {bs cs : List Block}
    (apart : NoAdjacentFree (b :: bs)) (hb : b.free = true) (hc : c.free = true)
    (hextent : extent h (b :: bs) = extent h (c :: cs))
    (hused : ∀ x, x ∈ used h a (b :: bs) → x ∈ used h a (c :: cs)) : c.size ≤ b.size := by
  by_contra hlt
  rw [not_le] at hlt
  simp only [extent] at hextent
  cases bs with
  | nil =>
      simp only [extent] at hextent
      omega
  | cons d bs =>
      have hd : d.free = false := by
        have hnot := (List.isChain_cons_cons.mp apart).1
        rw [not_and, Bool.not_eq_true] at hnot
        exact hnot hb
      have hmem : (a + h + b.size, d.size) ∈ used h a (b :: d :: bs) := by
        rw [used, if_pos hb, used, hd]
        exact List.mem_cons_self
      have hlater := hused _ hmem
      rw [used, if_pos hc] at hlater
      have hlow := used_lower hlater
      dsimp only at hlow
      omega

/-- What is in use past the head of a list. -/
private theorem used_tail_iff {a : Nat} {b c : Block} {bs cs : List Block} (hh : 0 < h)
    (hhead : b = c) (hused : ∀ x, x ∈ used h a (b :: bs) ↔ x ∈ used h a (c :: cs))
    (x : Nat × Nat) : x ∈ used h (a + h + b.size) bs ↔ x ∈ used h (a + h + c.size) cs := by
  subst hhead
  by_cases hfree : b.free = true
  · have hx := hused x
    rwa [used, used, if_pos hfree, if_pos hfree] at hx
  · have hx := hused x
    rw [used, used, if_neg hfree, if_neg hfree, List.mem_cons, List.mem_cons] at hx
    have hpast : ∀ es, x ∈ used h (a + h + b.size) es → x ≠ (a, b.size) := by
      rintro es hmem rfl
      have hlow := used_lower hmem
      dsimp only at hlow
      omega
    constructor
    · intro hmem
      exact (hx.mp (Or.inr hmem)).resolve_left (hpast bs hmem)
    · intro hmem
      exact (hx.mpr (Or.inr hmem)).resolve_left (hpast cs hmem)

/-- A block in use at the start of one list is at the start of the other. -/
private theorem head_of_used {a : Nat} {b c : Block} {bs cs : List Block} (hh : 0 < h)
    (hb : b.free = false) (hused : ∀ x, x ∈ used h a (b :: bs) → x ∈ used h a (c :: cs)) :
    b = c := by
  obtain ⟨bsize, bfree⟩ := b
  obtain ⟨csize, cfree⟩ := c
  dsimp only at hb
  subst hb
  have hmem : (a, bsize) ∈ used h a (⟨csize, cfree⟩ :: cs) := hused _ List.mem_cons_self
  have hlater : (a, bsize) ∉ used h (a + h + csize) cs := by
    intro hmem
    have hlow := used_lower hmem
    dsimp only at hlow
    omega
  cases cfree with
  | true => exact absurd hmem hlater
  | false =>
      rcases List.mem_cons.mp hmem with heq | hmem
      · cases heq
        rfl
      · exact absurd hmem hlater

/-- **Normal form.** Without adjacent free blocks, the extent and the blocks in use
determine the list: the gaps between those in use are the free blocks. -/
theorem eq_of_used_iff {a : Nat} {bs cs : List Block} (hh : 0 < h) (apart : NoAdjacentFree bs)
    (apart' : NoAdjacentFree cs) (hextent : extent h bs = extent h cs)
    (hused : ∀ x, x ∈ used h a bs ↔ x ∈ used h a cs) : bs = cs := by
  induction bs generalizing a cs with
  | nil =>
      cases cs with
      | nil => rfl
      | cons c cs =>
          simp only [extent] at hextent
          omega
  | cons b bs ih =>
      cases cs with
      | nil =>
          simp only [extent] at hextent
          omega
      | cons c cs =>
          have hhead : b = c := by
            cases hb : b.free with
            | false => exact head_of_used hh hb fun x => (hused x).mp
            | true =>
                cases hc : c.free with
                | false => exact (head_of_used hh hc fun x => (hused x).mpr).symm
                | true =>
                    have hle := size_le_of_used apart hb hc hextent fun x => (hused x).mp
                    have hge := size_le_of_used apart' hc hb hextent.symm fun x => (hused x).mpr
                    obtain ⟨bsize, bfree⟩ := b
                    obtain ⟨csize, cfree⟩ := c
                    dsimp only at hb hc hle hge
                    rw [hb, hc, le_antisymm hge hle]
          have htail := used_tail_iff hh hhead hused
          subst hhead
          simp only [extent] at hextent
          rw [ih (List.isChain_cons.mp apart).2 (List.isChain_cons.mp apart').2 (by omega) htail]

/-- A release undoes the allocation it follows. -/
theorem coalesce_release_alloc {a p : Nat} {bs bs' : List Block} (hh : 0 < h)
    (apart : NoAdjacentFree bs) (done : alloc h t need a bs = some (p, bs')) :
    coalesce h (release h p a bs') = bs := by
  have hextent : extent h (coalesce h (release h p a bs')) = extent h bs := by
    rw [extent_coalesce, extent_release, extent_alloc done]
  obtain ⟨n, -, htaken⟩ := used_alloc done
  obtain ⟨k, hfree⟩ := alloc_was_free done
  refine eq_of_used_iff (a := a) hh (noAdjacentFree_coalesce _) apart hextent fun x => ?_
  rw [used_coalesce, used_release hh, htaken x]
  constructor
  · rintro ⟨hne, rfl | hx⟩
    · exact absurd rfl hne
    · exact hx
  · intro hx
    refine ⟨?_, Or.inr hx⟩
    rintro rfl
    have hlocated := mem_used_iff.mp hx
    rcases located_apart hfree hlocated (by simp) with hbelow | habove
    · dsimp only at hbelow
      omega
    · dsimp only at habove
      omega

end Lib.FreeList
