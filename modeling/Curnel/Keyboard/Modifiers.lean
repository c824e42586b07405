/-
The modifiers and the keys that set them.

The two Shift keys share a flag, as the two Ctrl keys and the two Alt keys do, and the
handler puts the flag down when either of the two is released; it does not look at the
prefix of the right Ctrl and Alt. `modifiers_iff` says which sequences of keys it gets
right.
-/

import Curnel.Keyboard
import Curnel.Lib.Run

namespace Curnel.Keyboard

open Lib

/-! ### Keys -/

/-- A key of a set-1 keyboard. None with a prefix has the scancode of a Shift key. -/
structure Key where
  extended : Bool
  scancode : UInt8
  scancode_lt : scancode < 128
  shift_plain : extended = true → scancode ≠ KEY_LSHIFT ∧ scancode ≠ KEY_RSHIFT
deriving DecidableEq

inductive Modifier where
  | shift
  | ctrl
  | alt
deriving DecidableEq

namespace Modifier

def left : Modifier → Key
  | shift => ⟨false, KEY_LSHIFT, by decide, by decide⟩
  | ctrl => ⟨false, KEY_LCTRL, by decide, by decide⟩
  | alt => ⟨false, KEY_LALT, by decide, by decide⟩

def right : Modifier → Key
  | shift => ⟨false, KEY_RSHIFT, by decide, by decide⟩
  | ctrl => ⟨true, KEY_LCTRL, by decide, by decide⟩
  | alt => ⟨true, KEY_LALT, by decide, by decide⟩

/-- Its flag in `keyboard_state`. -/
def flag (s : State) : Modifier → Bool
  | shift => s.shiftPressed
  | ctrl => s.ctrlPressed
  | alt => s.altPressed

end Modifier

inductive Change where
  | pressed (key : Key)
  | released (key : Key)

/-- The scancodes that the keyboard sends, one interrupt each. -/
def Change.scancodes : Change → List UInt8
  | .pressed key => (if key.extended then [PREFIX] else []) ++ [key.scancode]
  | .released key => (if key.extended then [PREFIX] else []) ++ [key.scancode ||| KEY_RELEASE]

def interrupts (scancodes : List UInt8) (s : State) : State :=
  scancodes.foldl (fun s scancode => keyboardHandler scancode s) s

/-- The driver, and the keys that are down. -/
structure Board where
  keyboard : State
  down : Key → Bool

/-- A key is pressed when it is up, and released when it is down. -/
inductive Turn : Board → Change → Board → Prop where
  | press {b : Board} {key : Key} (hup : b.down key = false) :
      Turn b (.pressed key)
        ⟨interrupts (Change.pressed key).scancodes b.keyboard, Function.update b.down key true⟩
  | release {b : Board} {key : Key} (hdown : b.down key = true) :
      Turn b (.released key)
        ⟨interrupts (Change.released key).scancodes b.keyboard, Function.update b.down key false⟩

/-- After `keyboard_init`, with all keys up. -/
def allUp (s : State) : Board := ⟨keyboardInit s, fun _ => false⟩

/-- Each flag is up exactly when one of its two keys is down. -/
def Modified (b : Board) : Prop :=
  ∀ m : Modifier, m.flag b.keyboard = (b.down m.left || b.down m.right)

/-- No key is released while the other key of its modifier is down. -/
def NotBoth (b : Board) (change : Change) : Prop :=
  ∀ m : Modifier, (change = .released m.left → b.down m.right = false) ∧
    (change = .released m.right → b.down m.left = false)

/-! ### What the handler does to the flags -/

/-- The modifier whose case of the two `switch`es a scancode is. -/
def modifierOf (scancode : UInt8) : Option Modifier :=
  if scancode = KEY_LSHIFT ∨ scancode = KEY_RSHIFT then some .shift
  else if scancode = KEY_LCTRL then some .ctrl
  else if scancode = KEY_LALT then some .alt
  else none

theorem modifierOf_eq_iff {key : Key} {m : Modifier} :
    modifierOf key.scancode = some m ↔ key = m.left ∨ key = m.right := by
  obtain ⟨extended, scancode, hlt, hplain⟩ := key
  cases m <;> cases extended <;>
    grind [modifierOf, Modifier.left, Modifier.right, KEY_LSHIFT, KEY_RSHIFT, KEY_LCTRL, KEY_LALT]

theorem flag_press (scancode : UInt8) (s : State) (m : Modifier) :
    m.flag (press scancode s) = if modifierOf scancode = some m then true else m.flag s := by
  have hput : ∀ c, m.flag (keyboardBufferPut c s) = m.flag s := by
    intro c
    unfold keyboardBufferPut
    split <;> cases m <;> rfl
  unfold press modifierOf
  split_ifs <;> cases m <;> simp_all [Modifier.flag, keyboardUpdateLeds, outb] <;>
    cases ascii scancode s <;> simp [hput]

theorem flag_release (scancode : UInt8) (s : State) (m : Modifier) :
    m.flag (release scancode s) = if modifierOf scancode = some m then false else m.flag s := by
  unfold release modifierOf
  cases m <;> split_ifs <;> simp_all [Modifier.flag]

/-- The release bit of a scancode, and the rest of it. -/
theorem released_bits {scancode : UInt8} (h : scancode < 128) :
    scancode ≠ PREFIX ∧ scancode &&& KEY_RELEASE = 0 ∧
      (scancode ||| KEY_RELEASE) &&& KEY_RELEASE ≠ 0 ∧
      (scancode ||| KEY_RELEASE) &&& ~~~KEY_RELEASE = scancode ∧
      (scancode ||| KEY_RELEASE = PREFIX → modifierOf scancode = none) := by
  have hall : ∀ n : Fin 128, UInt8.ofNat n ≠ PREFIX ∧ UInt8.ofNat n &&& KEY_RELEASE = 0 ∧
      (UInt8.ofNat n ||| KEY_RELEASE) &&& KEY_RELEASE ≠ 0 ∧
      (UInt8.ofNat n ||| KEY_RELEASE) &&& ~~~KEY_RELEASE = UInt8.ofNat n ∧
      (UInt8.ofNat n ||| KEY_RELEASE = PREFIX → modifierOf (UInt8.ofNat n) = none) := by
    decide +kernel
  have hthis := hall ⟨scancode.toNat, UInt8.lt_iff_toNat_lt.mp h⟩
  simpa using hthis

theorem flag_mode (s : State) (m : Modifier) :
    m.flag (keyboardHandler PREFIX s) = m.flag s := by
  cases m <;> rfl

/-- A prefix before a scancode makes no difference to the flags. -/
theorem flag_interrupts (extended : Bool) (scancode : UInt8) (s : State) (m : Modifier) :
    ∃ s', m.flag s' = m.flag s ∧
      interrupts ((if extended then [PREFIX] else []) ++ [scancode]) s
        = keyboardHandler scancode s' := by
  cases extended with
  | false => exact ⟨s, rfl, rfl⟩
  | true => exact ⟨keyboardHandler PREFIX s, flag_mode s m, rfl⟩

/-- What the prefix and the scancode of a pressed key do to a flag. -/
theorem flag_pressed (key : Key) (s : State) (m : Modifier) :
    m.flag (interrupts (Change.pressed key).scancodes s)
      = if key = m.left ∨ key = m.right then true else m.flag s := by
  obtain ⟨hmode, hlow, _⟩ := released_bits key.scancode_lt
  obtain ⟨s', hsame, hrun⟩ := flag_interrupts key.extended key.scancode s m
  have hflag := flag_press key.scancode s' m
  simp only [modifierOf_eq_iff] at hflag
  rw [Change.scancodes, hrun, ← hsame, ← hflag, keyboardHandler, if_neg hmode,
    if_neg (not_not.mpr hlow)]
  cases m <;> rfl

theorem flag_released (key : Key) (s : State) (m : Modifier) :
    m.flag (interrupts (Change.released key).scancodes s)
      = if key = m.left ∨ key = m.right then false else m.flag s := by
  obtain ⟨_, _, hhigh, hkey, hnone⟩ := released_bits key.scancode_lt
  obtain ⟨s', hsame, hrun⟩ :=
    flag_interrupts key.extended (key.scancode ||| KEY_RELEASE) s m
  rw [Change.scancodes, hrun, ← hsame]
  simp only [← modifierOf_eq_iff]
  by_cases hmode : key.scancode ||| KEY_RELEASE = PREFIX
  · -- a release that reads as the prefix is of no modifier's key
    rw [hmode, flag_mode, hnone hmode]
    rfl
  · rw [← flag_release key.scancode s' m, keyboardHandler, if_neg hmode, if_pos hhigh, hkey]
    cases m <;> rfl

theorem left_ne_right (m : Modifier) : m.left ≠ m.right := by
  cases m <;> decide

/-- A step leaves the flags right exactly when it releases no key whose other is down. -/
theorem modified_iff {b b' : Board} {change : Change} (h : Modified b)
    (turn : Turn b change b') : Modified b' ↔ NotBoth b change := by
  cases turn with
  | @press key hup =>
      refine iff_of_true (fun m => ?_) (fun m => ?_)
      · rw [flag_pressed]
        grind [Function.update_apply, h m]
      · constructor
        · intro heq
          cases heq
        · intro heq
          cases heq
  | @release key hdown =>
      refine forall_congr' fun m => ?_
      rw [flag_released]
      have hne := left_ne_right m
      have hm := h m
      simp only [Change.released.injEq]
      grind [Function.update_apply]

/-- The flags are right after every key of a run exactly when no step releases a key of a
modifier while the other one is down. -/
theorem modifiers_iff (s : State) (changes : List Change) (b : Board) :
    Run (fun b change b' => Turn b change b' ∧ Modified b') (allUp s) changes b ↔
      Run (fun b change b' => Turn b change b' ∧ NotBoth b change) (allUp s) changes b := by
  refine run_guarded_iff (J := fun _ => True) (fun _ _ => trivial)
    (fun _ h turn => modified_iff h turn) trivial ?_
  intro m
  cases m <;> rfl

/-- Both Shift keys are pressed, and one is released. -/
theorem both_shifts_released :
    ∃ b, Run Turn (allUp zeroed)
      [.pressed Modifier.shift.left, .pressed Modifier.shift.right,
        .released Modifier.shift.left] b ∧ ¬ Modified b := by
  refine ⟨_, .cons (.press rfl) (.cons (.press (by decide)) (.single (.release (by decide)))), ?_⟩
  intro h
  exact absurd (h .shift) (by decide)

end Curnel.Keyboard
