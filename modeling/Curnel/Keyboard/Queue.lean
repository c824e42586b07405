/-
The ring of the keyboard is a queue.

The handler interrupts a call of `keyboard_getchar_nonblock` wherever it stands: before its
test, between the test and the loading of the character, and between that and the store of
the new index. `Holds` says which characters a ring holds; one cell stays free, so that full
and empty differ. `keyboard_ring_fifo` says what comes out of any such run.
-/

import Curnel.Keyboard
import Curnel.Lib.Ring
import Curnel.Lib.Run

namespace Curnel.Keyboard

open Lib

/-! ### What the handler puts -/

/-- The cases of the second `switch`. No other key is looked up in the tables. -/
def SWITCHED : List UInt8 :=
  [KEY_LSHIFT, KEY_RSHIFT, KEY_LCTRL, KEY_LALT, KEY_CAPSLOCK, KEY_NUMLOCK, KEY_SCROLLLOCK]

/-- The character with which the handler calls `keyboard_buffer_put`, if it does. -/
def passed (scancode : UInt8) (s : State) : Option UInt8 :=
  if scancode = PREFIX ∨ scancode &&& KEY_RELEASE ≠ 0 ∨ scancode ∈ SWITCHED then none
  else ascii scancode s

/-- What the queue in the ring depends on. -/
def ring (s : State) : (Nat → UInt8) × Nat × Nat := (s.buffer, s.bufferStart, s.bufferEnd)

theorem ring_release (scancode : UInt8) (s : State) : ring (release scancode s) = ring s := by
  unfold release
  split_ifs <;> rfl

theorem press_switched {scancode : UInt8} (h : scancode ∈ SWITCHED) (s : State) :
    ring (press scancode s) = ring s := by
  simp only [SWITCHED, List.mem_cons, List.not_mem_nil, or_false] at h
  rcases h with rfl | rfl | rfl | rfl | rfl | rfl | rfl <;> rfl

theorem press_other {scancode : UInt8} (h : scancode ∉ SWITCHED) (s : State) :
    press scancode s = (ascii scancode s).elim s fun c => keyboardBufferPut c s := by
  simp only [SWITCHED, List.mem_cons, List.not_mem_nil, or_false, not_or] at h
  obtain ⟨hlshift, hrshift, hlctrl, hlalt, hcaps, hnum, hscroll⟩ := h
  simp only [press, hlshift, hrshift, hlctrl, hlalt, hcaps, hnum, hscroll, or_self, if_false]
  cases ascii scancode s <;> rfl

/-- The handler leaves the ring alone, or puts one character into it. -/
theorem ring_keyboardHandler (scancode : UInt8) (s : State) :
    ring (keyboardHandler scancode s)
      = ring ((passed scancode s).elim s fun c => keyboardBufferPut c s) := by
  unfold keyboardHandler passed
  by_cases hmode : scancode = PREFIX
  · simp [hmode, ring]
  · by_cases hrelease : scancode &&& KEY_RELEASE = 0
    · by_cases hswitched : scancode ∈ SWITCHED
      · simpa [hmode, hrelease, hswitched, ring] using press_switched hswitched s
      · simp [hmode, hrelease, hswitched, ring, press_other hswitched]
    · simpa [hmode, hrelease, ring] using ring_release (scancode &&& ~~~KEY_RELEASE) s

theorem getD_lt {table : List UInt8} (h : ∀ c ∈ table, c < 128) (k : Nat) :
    table.getD k 0 < 128 := by
  rw [List.getD_eq_getElem?_getD]
  rcases Nat.lt_or_ge k table.length with hk | hk
  · rw [List.getElem?_eq_getElem hk]
    exact h _ (List.getElem_mem hk)
  · rw [List.getElem?_eq_none hk]
    decide

/-- Every key has an ASCII character. -/
theorem ascii_lt {scancode c : UInt8} {s : State} (h : ascii scancode s = some c) : c < 128 := by
  have htable : (if s.shiftPressed ^^ s.capsLock then kbdUsUppercase else kbdUsLowercase).getD
      scancode.toNat 0 < 128 := by
    split
    · exact getD_lt (by decide +kernel) _
    · exact getD_lt (by decide +kernel) _
  revert htable h
  unfold ascii
  dsimp only
  generalize (if s.shiftPressed ^^ s.capsLock then kbdUsUppercase else kbdUsLowercase).getD
    scancode.toNat 0 = k
  intro h hk
  split_ifs at h with hzero hcontrol
  · obtain ⟨_, hlow, hhigh⟩ := hcontrol
    cases h
    grind
  · cases h
    exact hk

/-! ### What the ring holds -/

/-- The characters in the ring, the next one to be taken first. -/
structure Holds (s : State) (chars : List UInt8) : Prop where
  start_lt : s.bufferStart < 256
  end_eq : s.bufferEnd = (s.bufferStart + chars.length) % 256
  length_le : chars.length ≤ 255
  window_eq : window 256 s.buffer s.bufferStart chars.length = chars

namespace Holds

variable {s t : State} {chars : List UInt8}

theorem congr (h : Holds s chars) (hring : ring t = ring s) : Holds t chars := by
  simp only [ring, Prod.mk.injEq] at hring
  obtain ⟨hbuffer, hstart, hend⟩ := hring
  constructor
  · rw [hstart]
    exact h.start_lt
  · rw [hstart, hend]
    exact h.end_eq
  · exact h.length_le
  · rw [hbuffer, hstart]
    exact h.window_eq

theorem empty_iff (h : Holds s chars) : keyboardBufferEmpty s = true ↔ chars = [] := by
  have hstart := h.start_lt
  have hend := h.end_eq
  have hlength := h.length_le
  rw [keyboardBufferEmpty, beq_iff_eq, ← List.length_eq_zero_iff]
  omega

theorem full_iff (h : Holds s chars) : keyboardBufferFull s = true ↔ chars.length = 255 := by
  have hstart := h.start_lt
  have hend := h.end_eq
  have hlength := h.length_le
  have hmask : (s.bufferEnd + 1) &&& 0xFF = (s.bufferEnd + 1) % 256 :=
    Nat.and_two_pow_sub_one_eq_mod _ 8
  rw [keyboardBufferFull, beq_iff_eq, hmask]
  omega

theorem put (h : Holds s chars) (c : UInt8) (hroom : chars.length < 255) :
    Holds (keyboardBufferPut c s) (chars ++ [c]) := by
  have hnot : ¬ keyboardBufferFull s = true := fun hfull => by
    have := h.full_iff.mp hfull
    omega
  have hmask : (s.bufferEnd + 1) &&& 0xFF = (s.bufferEnd + 1) % 256 :=
    Nat.and_two_pow_sub_one_eq_mod _ 8
  rw [keyboardBufferPut, if_neg hnot]
  constructor
  · exact h.start_lt
  · have hend := h.end_eq
    simp only [hmask, List.length_append, List.length_singleton]
    omega
  · rw [List.length_append, List.length_singleton]
    omega
  · have hlt : chars.length < 256 := by omega
    have hwrite : window 256 (Function.update s.buffer ((s.bufferStart + chars.length) % 256) c)
        s.bufferStart (chars.length + 1) = window 256 s.buffer s.bufferStart chars.length ++ [c] :=
      window_write c hlt
    rw [h.window_eq, ← h.end_eq] at hwrite
    rw [List.length_append, List.length_singleton]
    exact hwrite

theorem next {c : UInt8} (h : Holds s (c :: chars)) : s.buffer s.bufferStart = c := by
  have hwindow := h.window_eq
  rw [List.length_cons, window_succ, Nat.mod_eq_of_lt h.start_lt] at hwindow
  exact (List.cons.inj hwindow).1

theorem advance {c : UInt8} (h : Holds s (c :: chars)) : Holds (advance s) chars := by
  have hstart := h.start_lt
  have hend := h.end_eq
  have hlength := h.length_le
  have hwindow := h.window_eq
  have hmask : (s.bufferStart + 1) &&& 0xFF = (s.bufferStart + 1) % 256 :=
    Nat.and_two_pow_sub_one_eq_mod _ 8
  rw [List.length_cons] at hend hlength
  rw [List.length_cons, window_succ] at hwindow
  constructor
  · simp only [Keyboard.advance, hmask]
    omega
  · simp only [Keyboard.advance, hmask]
    omega
  · omega
  · simp only [Keyboard.advance, hmask]
    exact (List.cons.inj hwindow).2

end Holds

/-! ### Calls and interrupts -/

/-- Where `keyboard_getchar_nonblock` stands. -/
inductive Call where
  | idle
  /-- It has found the ring not empty. -/
  | get
  /-- It has loaded this character. -/
  | loaded (c : UInt8)
deriving DecidableEq

structure System where
  keyboard : State
  call : Call

/-- What is seen of a step. -/
inductive Event where
  /-- An interrupt with this scancode puts nothing. -/
  | ignored (scancode : UInt8)
  /-- It finds room for this character. -/
  | accepted (scancode c : UInt8)
  /-- It finds no room for this character. -/
  | dropped (scancode c : UInt8)
  | tests
  | loads
  | returns (result : Int)

def interruptEvent (scancode : UInt8) (s : State) : Event :=
  match passed scancode s with
  | none => .ignored scancode
  | some c => if keyboardBufferFull s then .dropped scancode c else .accepted scancode c

/-- An interrupt comes at any time; a call goes on by one access to the ring. -/
inductive Step : System → Event → System → Prop where
  | interrupt (scancode : UInt8) (s : System) :
      Step s (interruptEvent scancode s.keyboard)
        { s with keyboard := keyboardHandler scancode s.keyboard }
  | empty {s : System} (hcall : s.call = .idle) (hempty : keyboardBufferEmpty s.keyboard = true) :
      Step s (.returns (-1)) s
  | test {s : System} (hcall : s.call = .idle)
      (hempty : keyboardBufferEmpty s.keyboard = false) :
      Step s .tests { s with call := .get }
  | gone {s : System} (hcall : s.call = .get) (hempty : keyboardBufferEmpty s.keyboard = true) :
      Step s (.returns (charToInt 0)) { s with call := .idle }
  | load {s : System} (hcall : s.call = .get)
      (hempty : keyboardBufferEmpty s.keyboard = false) :
      Step s .loads { s with call := .loaded (s.keyboard.buffer s.keyboard.bufferStart) }
  | store {s : System} {c : UInt8} (hcall : s.call = .loaded c) :
      Step s (.returns (charToInt c)) { keyboard := advance s.keyboard, call := .idle }

/-- After `keyboard_init`. -/
def started (s : State) : System := ⟨keyboardInit s, .idle⟩

/-- The characters that the handler has accepted, in order. -/
def acceptedChars (events : List Event) : List UInt8 :=
  events.filterMap fun event =>
    match event with
    | .accepted _ c => some c
    | _ => none

/-- The characters that calls have returned, in order. -/
def returnedChars (events : List Event) : List Int :=
  events.filterMap fun event =>
    match event with
    | .returns result => if result = -1 then none else some result
    | _ => none

/-! ### The queue behind the ring -/

theorem charToInt_of_lt {c : UInt8} (h : c < 128) : charToInt c = c.toNat := by
  have hlow : 2 * c.toNat < 2 ^ 8 := by
    have hc : c.toNat < 128 := UInt8.lt_iff_toNat_lt.mp h
    omega
  exact BitVec.toInt_eq_toNat_of_lt hlow

/-- The queue holds what the ring does, and a call that has begun finds its character. -/
structure Refines (s : System) (f : Fifo UInt8 255) : Prop where
  holds : Holds s.keyboard f.queue
  ascii : ∀ c ∈ f.queue, c < 128
  get : s.call = .get → f.queue ≠ []
  loaded : ∀ c, s.call = .loaded c → f.queue.head? = some c

theorem refines_started (s : State) : Refines (started s) Fifo.empty := by
  constructor
  · exact ⟨Nat.zero_lt_succ 255, rfl, Nat.zero_le 255, rfl⟩
  · intro c hc
    cases hc
  · intro h
    cases h
  · intro c h
    cases h

/-- What a step adds to the queue's history is what is seen of the step. -/
structure Follows (e : Event) (f g : Fifo UInt8 255) : Prop where
  accepted : g.accepted = f.accepted ++ acceptedChars [e]
  delivered : g.delivered.map charToInt = f.delivered.map charToInt ++ returnedChars [e]

namespace Refines

variable {s t : System} {e : Event} {f : Fifo UInt8 255}

theorem interrupt (h : Refines s f) (scancode : UInt8) :
    ∃ g, Refines { s with keyboard := keyboardHandler scancode s.keyboard } g ∧
      Follows (interruptEvent scancode s.keyboard) f g := by
  have hring := ring_keyboardHandler scancode s.keyboard
  unfold interruptEvent
  cases hpassed : passed scancode s.keyboard with
  | none =>
      rw [hpassed] at hring
      exact ⟨f, ⟨h.holds.congr hring, h.ascii, h.get, h.loaded⟩, by simp [acceptedChars],
        by simp [returnedChars]⟩
  | some c =>
      rw [hpassed, Option.elim_some] at hring
      by_cases hfull : keyboardBufferFull s.keyboard = true
      · have hsame : keyboardBufferPut c s.keyboard = s.keyboard := by
          rw [keyboardBufferPut, if_pos hfull]
        rw [hsame] at hring
        simp only [hfull, if_true]
        exact ⟨f, ⟨h.holds.congr hring, h.ascii, h.get, h.loaded⟩, by simp [acceptedChars],
          by simp [returnedChars]⟩
      · have hbound := h.holds.length_le
        have hlength : f.queue.length ≠ 255 := fun heq => hfull (h.holds.full_iff.mpr heq)
        have hroom : f.queue.length < 255 := by omega
        have hc : c < 128 := by
          unfold passed at hpassed
          split at hpassed
          · cases hpassed
          · exact ascii_lt hpassed
        simp only [hfull]
        refine ⟨f.put [c] (Nat.succ_le_of_lt hroom), ?_, ?_⟩
        · constructor
          · exact (h.holds.put c hroom).congr hring
          · intro b hb
            rcases List.mem_append.mp hb with hold | hnew
            · exact h.ascii b hold
            · exact List.mem_singleton.mp hnew ▸ hc
          · intro hcall
            simp [Fifo.put]
          · intro b hcall
            simp [Fifo.put, List.head?_append, h.loaded b hcall]
        · exact ⟨by simp [Fifo.put, acceptedChars], by simp [Fifo.put, returnedChars]⟩

theorem store {c : UInt8} (h : Refines s f) (hcall : s.call = .loaded c) :
    ∃ g, Refines { keyboard := advance s.keyboard, call := .idle } g ∧
      Follows (.returns (charToInt c)) f g := by
  obtain ⟨rest, hqueue⟩ := List.head?_eq_some_iff.mp (h.loaded c hcall)
  have hc : c < 128 := h.ascii c (by simp [hqueue])
  have hholds := h.holds
  rw [hqueue] at hholds
  have hne : charToInt c ≠ -1 := by
    rw [charToInt_of_lt hc]
    omega
  refine ⟨f.take 1, ?_, ?_⟩
  · constructor
    · simpa [Fifo.take, hqueue] using hholds.advance
    · intro b hb
      exact h.ascii b (List.mem_of_mem_drop hb)
    · intro hidle
      cases hidle
    · intro b hidle
      cases hidle
  · exact ⟨by simp [Fifo.take, acceptedChars], by simp [Fifo.take, hqueue, returnedChars, hne]⟩

/-- A step that adds nothing to the history. -/
theorem quiet (h : Refines t f) (haccepted : acceptedChars [e] = [])
    (hreturned : returnedChars [e] = []) : ∃ g, Refines t g ∧ Follows e f g :=
  ⟨f, h, by rw [haccepted, List.append_nil], by rw [hreturned, List.append_nil]⟩

theorem step (h : Refines s f) (step : Step s e t) : ∃ g, Refines t g ∧ Follows e f g := by
  cases step with
  | interrupt scancode => exact h.interrupt scancode
  | empty hcall hempty => exact h.quiet rfl rfl
  | test hcall hempty =>
      have hne : f.queue ≠ [] := fun hnil => by simp [h.holds.empty_iff.mpr hnil] at hempty
      exact quiet ⟨h.holds, h.ascii, fun _ => hne, fun _ hload => by cases hload⟩ rfl rfl
  | gone hcall hempty => exact absurd (h.holds.empty_iff.mp hempty) (h.get hcall)
  | load hcall hempty =>
      obtain ⟨c, rest, hqueue⟩ := List.exists_cons_of_ne_nil (h.get hcall)
      have hholds := h.holds
      rw [hqueue] at hholds
      have hloaded : Refines { s with call := .loaded c } f := by
        constructor
        · exact h.holds
        · exact h.ascii
        · intro hget
          cases hget
        · intro b hb
          cases hb
          rw [hqueue, List.head?_cons]
      rw [hholds.next]
      exact hloaded.quiet rfl rfl
  | store hcall => exact h.store hcall

theorem run {events : List Event} (h : Refines s f) (run : Run Step s events t) :
    ∃ g : Fifo UInt8 255, Refines t g ∧ g.accepted = f.accepted ++ acceptedChars events ∧
      g.delivered.map charToInt = f.delivered.map charToInt ++ returnedChars events := by
  induction run generalizing f with
  | nil => exact ⟨f, h, by simp [acceptedChars], by simp [returnedChars]⟩
  | @cons _ _ _ e events first _ ih =>
      obtain ⟨g, hg, hfollows⟩ := h.step first
      obtain ⟨k, hk, haccepted, hdelivered⟩ := ih hg
      refine ⟨k, hk, ?_, ?_⟩
      · rw [haccepted, hfollows.accepted, List.append_assoc, acceptedChars, acceptedChars,
          ← List.filterMap_append, List.singleton_append]
        rfl
      · rw [hdelivered, hfollows.delivered, List.append_assoc, returnedChars, returnedChars,
          ← List.filterMap_append, List.singleton_append]
        rfl

/-- A character is dropped only when the queue is full. -/
theorem dropped {scancode c : UInt8} (h : Refines s f) (step : Step s (.dropped scancode c) t) :
    f.queue.length = 255 := by
  generalize hevent : Event.dropped scancode c = event at step
  cases step with
  | interrupt scancode =>
      unfold interruptEvent at hevent
      split at hevent
      · cases hevent
      · split at hevent
        · next hfull => exact h.holds.full_iff.mp hfull
        · cases hevent
  | empty | test | gone | load | store => cases hevent

/-- A call returns -1 exactly when it begins with the queue empty. -/
theorem returns_iff (h : Refines s f) :
    (∃ t, Step s (.returns (-1)) t) ↔ s.call = .idle ∧ f.queue = [] := by
  constructor
  · rintro ⟨t, step⟩
    generalize hevent : Event.returns (-1) = event at step
    cases step with
    | interrupt scancode =>
        unfold interruptEvent at hevent
        split at hevent
        · cases hevent
        · split at hevent <;> cases hevent
    | empty hcall hempty => exact ⟨hcall, h.holds.empty_iff.mp hempty⟩
    | gone hcall hempty => exact absurd (h.holds.empty_iff.mp hempty) (h.get hcall)
    | @store _ c hcall =>
        obtain ⟨rest, hqueue⟩ := List.head?_eq_some_iff.mp (h.loaded c hcall)
        have hc : c < 128 := h.ascii c (by simp [hqueue])
        have hminus := Event.returns.inj hevent
        rw [charToInt_of_lt hc] at hminus
        omega
    | test | load => cases hevent
  · rintro ⟨hcall, hqueue⟩
    exact ⟨s, .empty hcall (h.holds.empty_iff.mpr hqueue)⟩

end Refines

/-- In every run of interrupts and calls, the characters returned are the characters
accepted, in their order, up to those unread: a queue of 255. A character is dropped only
when 255 are unread, and -1 is returned exactly when a call begins with none unread. -/
theorem keyboard_ring_fifo {s : State} {events : List Event} {t : System}
    (run : Run Step (started s) events t) :
    ∃ f : Fifo UInt8 255,
      f.accepted = acceptedChars events ∧
      f.delivered.map charToInt = returnedChars events ∧
      (∀ scancode c u, Step t (.dropped scancode c) u → f.queue.length = 255) ∧
      ((∃ u, Step t (.returns (-1)) u) ↔ t.call = .idle ∧ f.queue = []) := by
  obtain ⟨f, hf, haccepted, hdelivered⟩ := (refines_started s).run run
  exact ⟨f, haccepted, hdelivered, fun _ _ _ => hf.dropped, hf.returns_iff⟩

/-- The key A is pressed, and a call begins after it. -/
theorem keyboard_ring_fifo_one :
    ∃ f : Fifo UInt8 255, f.accepted = [97] ∧ f.delivered.map charToInt = [97] := by
  have run : Run Step (started zeroed)
      [interruptEvent 0x1E (keyboardInit zeroed), .tests, .loads, .returns (charToInt 97)]
      ⟨advance (keyboardHandler 0x1E (keyboardInit zeroed)), .idle⟩ :=
    .cons (.interrupt 0x1E _) (.cons (.test rfl rfl) (.cons (.load rfl rfl)
      (.single (.store rfl))))
  obtain ⟨f, haccepted, hdelivered, _⟩ := keyboard_ring_fifo run
  exact ⟨f, haccepted, hdelivered⟩

/-- A call that is not interrupted is `keyboard_getchar_nonblock`. -/
theorem run_getchar (s : State) :
    ∃ events, Run Step ⟨s, .idle⟩ (events ++ [.returns (keyboardGetcharNonblock s).1])
      ⟨(keyboardGetcharNonblock s).2, .idle⟩ := by
  unfold keyboardGetcharNonblock keyboardBufferGet
  cases hempty : keyboardBufferEmpty s with
  | true => exact ⟨[], .single (.empty rfl hempty)⟩
  | false =>
      exact ⟨[.tests, .loads], .cons (.test rfl hempty) (.cons (.load rfl hempty)
        (.single (.store rfl)))⟩

end Curnel.Keyboard
