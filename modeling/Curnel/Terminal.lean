/-
kernel.c: the VGA text terminal.

A cell of the screen holds a character in its lower byte and a colour in its upper one;
`shown` reads the characters of a row. `terminal_putchar` gives a meaning to `'\n'` only:
every other character is drawn, and moves the column on by one.
-/

import Mathlib.Data.List.Range
import Mathlib.Logic.Function.Basic

namespace Curnel.Terminal

def VGA_WIDTH : Nat := 80
def VGA_HEIGHT : Nat := 25

def VGA_COLOR_BLACK : UInt8 := 0
def VGA_COLOR_LIGHT_GREY : UInt8 := 7
def VGA_COLOR_LIGHT_GREEN : UInt8 := 10
def VGA_COLOR_LIGHT_CYAN : UInt8 := 11

/-- The terminal, and the cells at `VGA_MEMORY`. -/
structure State where
  row : Nat
  column : Nat
  color : UInt8
  buffer : Nat → UInt16

def vgaEntryColor (fg bg : UInt8) : UInt8 := fg ||| bg <<< 4

def vgaEntry (c color : UInt8) : UInt16 := c.toUInt16 ||| color.toUInt16 <<< 8

/-! ### The functions of the terminal -/

def terminalInitialize (s : State) : State :=
  let color := vgaEntryColor VGA_COLOR_LIGHT_GREY VGA_COLOR_BLACK
  { row := 0
    column := 0
    color := color
    buffer := fun index =>
      if index < VGA_HEIGHT * VGA_WIDTH then vgaEntry 32 color else s.buffer index }

def terminalSetcolor (color : UInt8) (s : State) : State := { s with color := color }

def terminalPutentryat (c color : UInt8) (x y : Nat) (s : State) : State :=
  { s with buffer := Function.update s.buffer (y * VGA_WIDTH + x) (vgaEntry c color) }

/-- The next row, or the first one after the last. -/
def nextRow (s : State) : State :=
  { s with row := if s.row + 1 = VGA_HEIGHT then 0 else s.row + 1 }

def terminalPutchar (c : UInt8) (s : State) : State :=
  if c = 10 then nextRow { s with column := 0 }
  else
    let s := terminalPutentryat c s.color s.column s.row s
    if s.column + 1 = VGA_WIDTH then nextRow { s with column := 0 }
    else { s with column := s.column + 1 }

/-- `terminal_write`. A string is given as its characters up to the NUL, and
`terminal_writestring` is this too. -/
def terminalWrite (data : List UInt8) (s : State) : State :=
  data.foldl (fun s c => terminalPutchar c s) s

@[simp] theorem terminalWrite_nil (s : State) : terminalWrite [] s = s := rfl

@[simp] theorem terminalWrite_cons (c : UInt8) (data : List UInt8) (s : State) :
    terminalWrite (c :: data) s = terminalWrite data (terminalPutchar c s) := rfl

theorem terminalWrite_append (first second : List UInt8) (s : State) :
    terminalWrite (first ++ second) s = terminalWrite second (terminalWrite first s) :=
  List.foldl_append

/-! ### The column -/

def nextColumn (column : Nat) (c : UInt8) : Nat :=
  if c = 10 ∨ column + 1 = VGA_WIDTH then 0 else column + 1

/-- The column after the characters of a string. -/
def columnAfter (data : List UInt8) (column : Nat) : Nat := data.foldl nextColumn column

theorem columnAfter_append (first second : List UInt8) (column : Nat) :
    columnAfter (first ++ second) column = columnAfter second (columnAfter first column) :=
  List.foldl_append

theorem column_terminalPutchar (c : UInt8) (s : State) :
    (terminalPutchar c s).column = nextColumn s.column c := by
  unfold terminalPutchar nextColumn terminalPutentryat nextRow
  by_cases hline : c = 10
  · simp [hline]
  · by_cases hend : s.column + 1 = VGA_WIDTH
    · simp [hline, hend]
    · simp [hline, hend]

theorem column_terminalWrite (data : List UInt8) (s : State) :
    (terminalWrite data s).column = columnAfter data s.column := by
  induction data generalizing s with
  | nil => rfl
  | cons c data ih =>
      rw [terminalWrite_cons, ih, column_terminalPutchar]
      rfl

theorem columnAfter_le (data : List UInt8) (column : Nat) :
    columnAfter data column ≤ column + data.length := by
  induction data generalizing column with
  | nil => exact Nat.le_refl _
  | cons c data ih =>
      have hnext : nextColumn column c ≤ column + 1 := by
        unfold nextColumn
        split <;> omega
      have hrest : columnAfter (c :: data) column ≤ nextColumn column c + data.length := ih _
      rw [List.length_cons]
      omega

/-- On one line, every character moves the column on by one. -/
theorem columnAfter_of_not_mem {data : List UInt8} (h : 10 ∉ data) {column : Nat}
    (hcolumn : column < VGA_WIDTH) :
    columnAfter data column = (column + data.length) % VGA_WIDTH := by
  induction data generalizing column with
  | nil => exact (Nat.mod_eq_of_lt hcolumn).symm
  | cons c data ih =>
      rw [List.mem_cons, not_or] at h
      have hnext : nextColumn column c = (column + 1) % VGA_WIDTH := by
        unfold nextColumn
        rw [VGA_WIDTH] at hcolumn ⊢
        simp only [Ne.symm h.1, false_or]
        split <;> omega
      have hlt : (column + 1) % VGA_WIDTH < VGA_WIDTH := Nat.mod_lt _ (by decide)
      have hrest : columnAfter (c :: data) column = columnAfter data (nextColumn column c) := rfl
      rw [hrest, hnext, ih h.2 hlt, Nat.mod_add_mod, List.length_cons, Nat.add_assoc,
        Nat.add_comm 1]

/-- The characters behind a newline are fewer than all. -/
theorem columnAfter_of_mem {data : List UInt8} (h : 10 ∈ data) (column : Nat) :
    columnAfter data column < data.length := by
  obtain ⟨front, back, rfl⟩ := List.append_of_mem h
  have hnext : columnAfter (front ++ 10 :: back) column = columnAfter back 0 := by
    rw [columnAfter_append]
    rfl
  have hback := columnAfter_le back 0
  rw [hnext, List.length_append, List.length_cons]
  omega

/-! ### What a row shows -/

/-- The character in a cell. -/
def glyph (entry : UInt16) : UInt8 := entry.toUInt8

/-- The characters of the row that the terminal is on. -/
def shown (s : State) : List UInt8 :=
  (List.range VGA_WIDTH).map fun x => glyph (s.buffer (s.row * VGA_WIDTH + x))

theorem glyph_vgaEntry (c color : UInt8) : glyph (vgaEntry c color) = c := by
  apply UInt8.toBitVec_inj.mp
  apply BitVec.eq_of_getLsbD_eq
  intro i hi
  simp [glyph, vgaEntry, hi]

/-- Before the last column, a character is drawn at the column and nothing else changes. -/
theorem shown_terminalPutchar {c : UInt8} {s : State} (hc : c ≠ 10)
    (hroom : s.column + 1 < VGA_WIDTH) :
    shown (terminalPutchar c s) = (shown s).set s.column c := by
  have hput : terminalPutchar c s
      = { terminalPutentryat c s.color s.column s.row s with column := s.column + 1 } := by
    rw [terminalPutchar, if_neg hc]
    exact if_neg (Nat.ne_of_lt hroom)
  rw [hput]
  apply List.ext_getElem
  · simp [shown]
  · intro x hx _
    have hx : x < VGA_WIDTH := by simpa [shown] using hx
    by_cases heq : x = s.column
    · simp [shown, terminalPutentryat, heq, glyph_vgaEntry]
    · have hcell : s.row * VGA_WIDTH + x ≠ s.row * VGA_WIDTH + s.column := by omega
      simp [shown, terminalPutentryat, Ne.symm heq, Function.update_of_ne hcell]

end Curnel.Terminal
