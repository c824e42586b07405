/-
How an x86-64 processor translates an address, with four levels of tables.

`translate` is the processor's walk: at each level the entry must be present and
have no reserved bit set; an entry of the second or third level with the page-size
bit maps a large page. The answer is the physical address and what the entries on
the way allow. `none` is a page fault, or, for an address that is not canonical, a
general protection fault. The software walk of `paging.c` is compared with it in
`Curnel.Paging.Lookup`.
-/

import Curnel.Paging.Boot

namespace Curnel.Paging

open Lib.Bytes Lib.Word Lib.Radix

/-- What processors differ in: the width of physical addresses, whether the
no-execute bit is enabled, and whether there are pages of 1 GB. -/
structure Processor where
  physBits : Nat
  noExecute : Bool
  hugePages : Bool
  physBits_ge : 32 ≤ physBits
  physBits_le : physBits ≤ 52

/-- The bits of an entry from `low` up to `high`. -/
def bits (entry low high : Nat) : Nat := entry / 2 ^ low % 2 ^ (high - low)

/-- An entry that is present and has no reserved bit set, at any level. -/
def Processor.accepts (cpu : Processor) (entry : Nat) : Bool :=
  present entry && decide (bits entry cpu.physBits 52 = 0) &&
    (cpu.noExecute || !entry.testBit 63)

/-- The page-size bit. -/
def large (entry : Nat) : Bool := decide (entry &&& PAGE_SIZE_BIT ≠ 0)

/-- What the entries on the way to a page allow, taken together. -/
structure Rights where
  writable : Bool
  user : Bool
  noExecute : Bool

def rights (entries : List Nat) : Rights :=
  ⟨entries.all fun e => e.testBit 1, entries.all fun e => e.testBit 2,
    entries.any fun e => e.testBit 63⟩

structure Translation where
  physAddr : Nat
  rights : Rights

/-- Bits 47 to 63 are equal. -/
def Canonical (v : Nat) : Prop := v < 2 ^ 47 ∨ 2 ^ 64 - 2 ^ 47 ≤ v ∧ v < 2 ^ 64

instance (v : Nat) : Decidable (Canonical v) := inferInstanceAs (Decidable (_ ∨ _))

namespace Processor

variable (cpu : Processor) (m : Store)

/-- The last level: a page of 4 KB. -/
def translateLeaf (table v : Nat) (above : List Nat) : Option Translation :=
  let entry := tables m table (index 12 v)
  if cpu.accepts entry = false then none
  else some ⟨child entry + v % PAGE_SIZE, rights (above ++ [entry])⟩

/-- The third level: pages of 2 MB. -/
def translateDirectory (table v : Nat) (above : List Nat) : Option Translation :=
  let entry := tables m table (index 21 v)
  if cpu.accepts entry = false then none
  else if large entry = true then
    if bits entry 13 21 = 0 then
      some ⟨bits entry 21 52 * 2 ^ 21 + v % 2 ^ 21, rights (above ++ [entry])⟩
    else none
  else cpu.translateLeaf m (child entry) v (above ++ [entry])

/-- The second level: pages of 1 GB, where there are any. -/
def translatePointers (table v : Nat) (above : List Nat) : Option Translation :=
  let entry := tables m table (index 30 v)
  if cpu.accepts entry = false then none
  else if large entry = true then
    if cpu.hugePages = true ∧ bits entry 13 30 = 0 then
      some ⟨bits entry 30 52 * 2 ^ 30 + v % 2 ^ 30, rights (above ++ [entry])⟩
    else none
  else cpu.translateDirectory m (child entry) v (above ++ [entry])

/-- The translation of `v` through the tables below `root`. -/
def translate (root v : Nat) : Option Translation :=
  let entry := tables m root (index 39 v)
  if ¬ Canonical v then none
  else if cpu.accepts entry = false ∨ large entry = true then none
  else cpu.translatePointers m (child entry) v [entry]

end Processor

/-! ### Entries that the processor accepts -/

theorem links_eq (entry : Nat) : links entry = (present entry && !large entry) := by
  rw [links, large]
  by_cases h : entry &&& PAGE_SIZE_BIT = 0
  · simp [h]
  · simp [h]

theorem not_large_of_links {entry : Nat} (h : links entry = true) : ¬ large entry = true := by
  rw [links_eq, Bool.and_eq_true, Bool.not_eq_true'] at h
  rw [h.2]
  decide

namespace Processor

variable {cpu : Processor}

theorem present_of_accepts {entry : Nat} (h : cpu.accepts entry = true) :
    present entry = true := by
  unfold accepts at h
  rw [Bool.and_eq_true, Bool.and_eq_true] at h
  exact h.1.1

theorem accepts_of_absent {entry : Nat} (h : present entry = false) :
    cpu.accepts entry = false := by
  unfold accepts
  rw [h]
  rfl

/-- A small entry has no reserved bit set. -/
theorem accepts_of_lt {entry : Nat} (hpresent : present entry = true) (h : entry < 2 ^ 32) :
    cpu.accepts entry = true := by
  have hpow : 2 ^ 32 ≤ 2 ^ cpu.physBits := Nat.pow_le_pow_right (by decide) cpu.physBits_ge
  have hbits : bits entry cpu.physBits 52 = 0 := by
    rw [bits, Nat.div_eq_of_lt (lt_of_lt_of_le h hpow), Nat.zero_mod]
  have hno : entry.testBit 63 = false :=
    Nat.testBit_lt_two_pow (lt_of_lt_of_le h (Nat.pow_le_pow_right (by decide) (by decide)))
  rw [accepts, hpresent, hbits, hno]
  simp

theorem bits_eq_zero {entry low high : Nat}
    (h : ∀ i, low ≤ i → i < high → entry.testBit i = false) : bits entry low high = 0 := by
  apply Nat.eq_of_testBit_eq
  intro i
  rw [bits, Nat.testBit_mod_two_pow, Nat.testBit_div_two_pow, Nat.zero_testBit]
  by_cases hi : i < high - low
  · rw [h (i + low) (by omega) (by omega), Bool.and_false]
  · rw [decide_eq_false hi, Bool.false_and]

theorem testBit_of_noAddress {flags i : Nat} (h : NoAddress flags) (hlow : 12 ≤ i)
    (hhigh : i < 52) : flags.testBit i = false := by
  have hmask : ADDRESS_MASK = (2 ^ 40 - 1) * 2 ^ 12 := by decide
  have hset : ADDRESS_MASK.testBit i = true := by
    rw [hmask, Nat.testBit_mul_two_pow, Nat.testBit_two_pow_sub_one, Bool.and_eq_true]
    exact ⟨decide_eq_true hlow, decide_eq_true (by omega)⟩
  have hand := congrArg (fun n => n.testBit i) h.2
  simp only [Nat.testBit_and, hset, Bool.and_true, Nat.zero_testBit] at hand
  exact hand

/-- Flags that the processor accepts with a page in its memory: none of them is an
address bit, and the no-execute bit needs to be enabled. -/
theorem accepts_makeEntry {a flags : Nat} (ha : PAGE_SIZE * a < 2 ^ cpu.physBits)
    (ha' : a < 2 ^ 40) (hflags : NoAddress flags)
    (hno : cpu.noExecute = true ∨ flags.testBit 63 = false) :
    cpu.accepts (pagingMakeEntry (PAGE_SIZE * a) (PAGE_PRESENT ||| flags)) = true := by
  have hpresent := present_makeEntry (PAGE_SIZE * a) flags
  have hge := cpu.physBits_ge
  have hone : ∀ i, 1 ≤ i → PAGE_PRESENT.testBit i = false := fun i hi =>
    Nat.testBit_lt_two_pow (Nat.one_lt_two_pow (Nat.pos_iff_ne_zero.mp hi))
  have hpage : ∀ i, cpu.physBits ≤ i → (PAGE_SIZE * a).testBit i = false := fun i hi =>
    Nat.testBit_lt_two_pow (lt_of_lt_of_le ha (Nat.pow_le_pow_right (by decide) hi))
  rw [makeEntry_eq ha'] at hpresent ⊢
  have hbits : bits (PAGE_SIZE * a ||| (PAGE_PRESENT ||| flags)) cpu.physBits 52 = 0 := by
    apply bits_eq_zero
    intro i hlow hhigh
    rw [Nat.testBit_or, Nat.testBit_or, hpage i hlow, hone i (by omega),
      testBit_of_noAddress hflags (by omega) hhigh]
    rfl
  have hlast : (PAGE_SIZE * a ||| (PAGE_PRESENT ||| flags)).testBit 63 = flags.testBit 63 := by
    have hle := cpu.physBits_le
    rw [Nat.testBit_or, Nat.testBit_or, hpage 63 (by omega), hone 63 (by decide)]
    rfl
  rw [accepts, hpresent, hbits, hlast, decide_eq_true rfl, Bool.true_and, Bool.true_and,
    Bool.or_eq_true, Bool.not_eq_true']
  exact hno

end Processor

end Curnel.Paging
