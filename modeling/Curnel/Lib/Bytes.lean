/-
Byte-addressed stores and the little-endian words kept in them.

A store is total: it gives a byte at every address, as raw memory or a disk
sector does. A word of `n` bytes is read and written at any address, aligned or
not. Reading back a word just written gives it modulo `256 ^ n`
(`readLE_writeLE_same`); a write leaves every word that shares no byte with it
alone (`readLE_writeLE_disjoint`). `Frame m m' a b` says that a change of store
is confined to the bytes from `a` up to `b`; frames widen and compose. `StringAt m a s`
says that the NUL-terminated string `s` is stored at `a`.
-/

import Mathlib.Data.List.TakeWhile
import Mathlib.Data.Set.Function
import Mathlib.Order.Interval.Set.Defs
import Mathlib.Tactic.Ring

namespace Lib.Bytes

/-- A byte at every address. -/
abbrev Store := Nat → UInt8

/-- The little-endian word in the `n` bytes from `a` on. -/
def readLE (m : Store) (a : Nat) : Nat → Nat
  | 0 => 0
  | n + 1 => (m a).toNat + 256 * readLE m (a + 1) n

/-- Store `v`, modulo `256 ^ n`, as the little-endian word in the `n` bytes from
`a` on. -/
def writeLE (m : Store) (a n v : Nat) : Store := fun x =>
  if a ≤ x ∧ x < a + n then UInt8.ofNat (v / 256 ^ (x - a)) else m x

/-- Set the `n` bytes from `a` on to `b`. -/
def fill (m : Store) (a n : Nat) (b : UInt8) : Store := fun x =>
  if a ≤ x ∧ x < a + n then b else m x

/-- Store a list of bytes from `a` on. -/
def writeBytes (m : Store) (a : Nat) (bytes : List UInt8) : Store := fun x =>
  if a ≤ x ∧ x < a + bytes.length then bytes.getD (x - a) 0 else m x

/-- The `n` bytes from `a` on. -/
def readBytes (m : Store) (a n : Nat) : List UInt8 := (List.range n).map fun k => m (a + k)

/-! ### Reading -/

theorem readLE_lt (m : Store) (a n : Nat) : readLE m a n < 256 ^ n := by
  induction n generalizing a with
  | zero => simp [readLE]
  | succ n ih =>
      have hbyte : (m a).toNat < 256 := (m a).toNat_lt
      have hrest := ih (a + 1)
      rw [readLE, Nat.pow_succ]
      omega

/-- The same bytes at two places are the same number. -/
theorem readLE_shift {m m' : Store} {a b n : Nat} (h : ∀ k < n, m (a + k) = m' (b + k)) :
    readLE m a n = readLE m' b n := by
  induction n generalizing a b with
  | zero => rfl
  | succ n ih =>
      have hfirst : m a = m' b := h 0 (Nat.succ_pos n)
      have hrest : readLE m (a + 1) n = readLE m' (b + 1) n := by
        refine ih fun k hk => ?_
        have hnext := h (k + 1) (by omega)
        rwa [Nat.add_comm k 1, ← Nat.add_assoc, ← Nat.add_assoc] at hnext
      rw [readLE, readLE, hfirst, hrest]

/-- A word depends on its own bytes only. -/
theorem readLE_congr {m m' : Store} {a n : Nat} (h : Set.EqOn m m' (Set.Ico a (a + n))) :
    readLE m a n = readLE m' a n :=
  readLE_shift fun k hk => h ⟨Nat.le_add_right a k, Nat.add_lt_add_left hk a⟩

theorem readBytes_shift {m m' : Store} {a b n : Nat} (h : ∀ k < n, m (a + k) = m' (b + k)) :
    readBytes m a n = readBytes m' b n :=
  List.map_congr_left fun k hk => h k (List.mem_range.mp hk)

theorem readLE_one (m : Store) (a : Nat) : readLE m a 1 = (m a).toNat := by
  simp [readLE]

/-- A word in two parts, the lower one first. -/
theorem readLE_add (m : Store) (a n k : Nat) :
    readLE m a (n + k) = readLE m a n + 256 ^ n * readLE m (a + n) k := by
  induction n generalizing a with
  | zero => simp [readLE]
  | succ n ih =>
      have hindex : a + 1 + n = a + (n + 1) := by omega
      rw [Nat.succ_add, readLE, readLE, ih (a + 1), hindex, Nat.pow_succ]
      ring

/-- The lowest byte comes first. -/
theorem readLE_mod (m : Store) (a n : Nat) : readLE m a (n + 1) % 256 = (m a).toNat := by
  have hbyte : (m a).toNat < 256 := (m a).toNat_lt
  rw [readLE]
  omega

/-- A word with all its bits set. -/
theorem readLE_ones {m : Store} {a n : Nat} (h : ∀ i < n, m (a + i) = 0xFF) :
    readLE m a n = 256 ^ n - 1 := by
  induction n generalizing a with
  | zero => rfl
  | succ n ih =>
      have hhead : (m a).toNat = 255 := congrArg UInt8.toNat (h 0 (Nat.succ_pos n))
      have htail : readLE m (a + 1) n = 256 ^ n - 1 := by
        apply ih
        intro i hi
        rw [Nat.add_assoc, Nat.add_comm 1 i]
        exact h (i + 1) (by omega)
      have hpos := Nat.pow_pos (show 0 < 256 by decide) (n := n)
      rw [readLE, hhead, htail, Nat.pow_succ]
      omega

/-! ### Writing -/

/-- From `m` to `m'`, no byte changes outside those from `a` up to `b`. -/
def Frame (m m' : Store) (a b : Nat) : Prop :=
  Set.EqOn m' m (Set.Ico a b)ᶜ

namespace Frame

variable {m m' m'' : Store} {a b c d : Nat}

theorem refl (m : Store) (a b : Nat) : Frame m m a b := fun _ _ => rfl

theorem widen (frame : Frame m m' a b) (hlow : c ≤ a) (hhigh : b ≤ d) : Frame m m' c d :=
  fun _ hx => frame fun hin => hx ⟨hlow.trans hin.1, lt_of_lt_of_le hin.2 hhigh⟩

theorem trans (first : Frame m m' a b) (second : Frame m' m'' a b) : Frame m m'' a b :=
  fun _ hx => (second hx).trans (first hx)

/-- Away from its range, a frame is an equality. -/
theorem eqOn (frame : Frame m m' a b) (apart : b ≤ c ∨ d ≤ a) :
    Set.EqOn m m' (Set.Ico c d) := by
  intro x hx
  refine (frame fun hin => ?_).symm
  have hlow := hx.1
  have hhigh := hx.2
  have hlow' := hin.1
  have hhigh' := hin.2
  omega

/-- A word outside the range of a frame keeps its value. -/
theorem readLE_eq {n : Nat} (frame : Frame m m' a b) (apart : b ≤ c ∨ c + n ≤ a) :
    readLE m' c n = readLE m c n :=
  (readLE_congr (frame.eqOn apart)).symm

end Frame

theorem writeLE_frame (m : Store) (a n v : Nat) : Frame m (writeLE m a n v) a (a + n) :=
  fun _ hx => if_neg fun h => hx ⟨h.1, h.2⟩

/-- A word written in two stores leaves them as far apart as they were elsewhere. -/
theorem writeLE_agree {m m' : Store} {a n v x : Nat}
    (h : ¬ (a ≤ x ∧ x < a + n) → m x = m' x) : writeLE m a n v x = writeLE m' a n v x := by
  unfold writeLE
  split
  · rfl
  next hout => exact h hout

theorem fill_frame (m : Store) (a n : Nat) (b : UInt8) : Frame m (fill m a n b) a (a + n) :=
  fun _ hx => if_neg fun h => hx ⟨h.1, h.2⟩

theorem writeBytes_frame (m : Store) (a : Nat) (bytes : List UInt8) :
    Frame m (writeBytes m a bytes) a (a + bytes.length) :=
  fun _ hx => if_neg fun h => hx ⟨h.1, h.2⟩

/-- The bytes stored are read back. -/
theorem writeBytes_add {m : Store} {a k : Nat} {bytes : List UInt8} (h : k < bytes.length) :
    writeBytes m a bytes (a + k) = bytes.getD k 0 := by
  rw [writeBytes, if_pos ⟨Nat.le_add_right a k, by omega⟩, Nat.add_sub_cancel_left]

/-- Writing at `a` a word whose bytes from `a` on are those of `v` shifted down:
the general form of `readLE_writeLE_same`, over which the induction runs. -/
theorem readLE_of_bytes (m : Store) (a n v : Nat)
    (h : ∀ i < n, m (a + i) = UInt8.ofNat (v / 256 ^ i)) : readLE m a n = v % 256 ^ n := by
  induction n generalizing a v with
  | zero => simp [readLE, Nat.mod_one]
  | succ n ih =>
      have hhead : (m a).toNat = v % 256 := by
        have := h 0 (by omega)
        simp only [Nat.add_zero, Nat.pow_zero, Nat.div_one] at this
        rw [this]
        exact UInt8.toNat_ofNat'
      have htail : readLE m (a + 1) n = v / 256 % 256 ^ n := by
        apply ih
        intro i hi
        have := h (i + 1) (by omega)
        rw [Nat.pow_succ, Nat.mul_comm, ← Nat.div_div_eq_div_mul] at this
        rw [← this]
        congr 1
        omega
      rw [readLE, hhead, htail, Nat.pow_succ, Nat.mul_comm (256 ^ n), Nat.mod_mul]

theorem readLE_writeLE_same (m : Store) (a n v : Nat) :
    readLE (writeLE m a n v) a n = v % 256 ^ n := by
  apply readLE_of_bytes
  intro i hi
  have hin : a ≤ a + i ∧ a + i < a + n := by omega
  rw [writeLE, if_pos hin, Nat.add_sub_cancel_left]

/-- A word that shares no byte with the one written keeps its value. -/
theorem readLE_writeLE_disjoint {m : Store} {a n v b k : Nat} (h : a + n ≤ b ∨ b + k ≤ a) :
    readLE (writeLE m a n v) b k = readLE m b k :=
  (writeLE_frame m a n v).readLE_eq h

/-- A word outside a filled range keeps its value. -/
theorem readLE_fill_disjoint {m : Store} {a n b k : Nat} {c : UInt8}
    (h : a + n ≤ b ∨ b + k ≤ a) : readLE (fill m a n c) b k = readLE m b k :=
  (fill_frame m a n c).readLE_eq h

/-- Every word inside a zeroed range is zero. -/
theorem readLE_fill_zero {m : Store} {a n b k : Nat} (hlow : a ≤ b) (hhigh : b + k ≤ a + n) :
    readLE (fill m a n 0) b k = 0 := by
  induction k generalizing b with
  | zero => rfl
  | succ k ih =>
      have hhead : fill m a n 0 b = 0 := if_pos (by omega)
      rw [readLE, hhead, ih (by omega) (by omega)]
      rfl

/-! ### Writing bytes one by one -/

theorem writeBytes_nil (m : Store) (a : Nat) : writeBytes m a [] = m := by
  funext x
  unfold writeBytes
  split
  · rename_i h
    simp only [List.length_nil] at h
    omega
  · rfl

theorem writeBytes_cons (m : Store) (a : Nat) (c : UInt8) (bytes : List UInt8) :
    writeBytes (Function.update m a c) (a + 1) bytes = writeBytes m a (c :: bytes) := by
  funext x
  unfold writeBytes
  rw [List.length_cons]
  rcases Nat.lt_trichotomy x a with hx | rfl | hx
  · rw [if_neg (by omega), if_neg (by omega), Function.update_of_ne (by omega)]
  · rw [if_neg (by omega), if_pos (by omega), Function.update_self, Nat.sub_self]
    rfl
  · obtain ⟨k, rfl⟩ := Nat.exists_eq_add_of_le hx
    have hindex : a.succ + k - a = k + 1 := by omega
    have hindex' : a.succ + k - (a + 1) = k := by omega
    rw [Function.update_of_ne (by omega), hindex, hindex', List.getD_cons_succ]
    simp only [show (a + 1 ≤ a.succ + k ∧ a.succ + k < a + 1 + bytes.length) ↔
      (a ≤ a.succ + k ∧ a.succ + k < a + (bytes.length + 1)) by omega]

/-- Two ranges written one after the other. -/
theorem writeBytes_append (m : Store) (a : Nat) (first second : List UInt8) :
    writeBytes (writeBytes m a first) (a + first.length) second
      = writeBytes m a (first ++ second) := by
  induction first generalizing m a with
  | nil => rw [writeBytes_nil, List.nil_append, List.length_nil, Nat.add_zero]
  | cons c first ih =>
      have hplace : a + (c :: first).length = a + 1 + first.length := by
        rw [List.length_cons]
        omega
      rw [← writeBytes_cons, hplace, ih, writeBytes_cons, List.cons_append]

theorem writeBytes_concat (m : Store) (a : Nat) (bytes : List UInt8) (c : UInt8) :
    Function.update (writeBytes m a bytes) (a + bytes.length) c
      = writeBytes m a (bytes ++ [c]) := by
  rw [← writeBytes_append, ← writeBytes_cons, writeBytes_nil]

/-! ### Strings -/

theorem readBytes_succ (m : Store) (a n : Nat) :
    readBytes m a (n + 1) = m a :: readBytes m (a + 1) n := by
  rw [readBytes, List.range_succ_eq_map, List.map_cons, List.map_map, readBytes]
  refine congrArg₂ List.cons rfl (List.map_congr_left fun k _ => ?_)
  have hplace : a + (k + 1) = a + 1 + k := by omega
  exact congrArg m hplace

theorem readBytes_add (m : Store) (a n k : Nat) :
    readBytes m a (n + k) = readBytes m a n ++ readBytes m (a + n) k := by
  rw [readBytes, List.range_add, List.map_append, List.map_map, readBytes, readBytes]
  refine congrArg _ (List.map_congr_left fun i _ => ?_)
  exact congrArg m (Nat.add_assoc a n i).symm

/-- The characters of `s` are stored from `a` on, and a NUL behind them. -/
structure StringAt (m : Store) (a : Nat) (s : List UInt8) : Prop where
  bytes_eq : readBytes m a s.length = s
  nul : m (a + s.length) = 0
  noNul : 0 ∉ s

/-- What is stored behind the NUL does not count. -/
theorem stringAt_writeBytes (m : Store) (a : Nat) {s : List UInt8} (h : 0 ∉ s)
    (rest : List UInt8) : StringAt (writeBytes m a (s ++ 0 :: rest)) a s := by
  have hbyte : ∀ k ≤ s.length,
      writeBytes m a (s ++ 0 :: rest) (a + k) = (s ++ 0 :: rest).getD k 0 := by
    intro k hk
    apply writeBytes_add
    rw [List.length_append, List.length_cons]
    omega
  refine ⟨?_, ?_, h⟩
  · apply List.ext_getElem
    · simp [readBytes]
    · intro k _ hk
      simp [readBytes, hbyte k (Nat.le_of_lt hk), List.getElem?_append_left hk, hk]
  · simp [hbyte s.length (le_refl _)]

/-- Any bytes with a NUL behind them are a string, up to their first NUL. -/
theorem stringAt_takeWhile (m : Store) (a : Nat) (bytes : List UInt8) :
    StringAt (writeBytes m a (bytes ++ [0])) a (bytes.takeWhile (· ≠ 0)) := by
  have hcut : ∃ rest, bytes ++ [0] = bytes.takeWhile (· ≠ 0) ++ 0 :: rest := by
    induction bytes with
    | nil => exact ⟨[], rfl⟩
    | cons c bytes ih =>
        by_cases hc : c = 0
        · exact ⟨bytes ++ [0], by simp [hc]⟩
        · obtain ⟨rest, hrest⟩ := ih
          exact ⟨rest, by simp [hc, hrest]⟩
  obtain ⟨rest, hrest⟩ := hcut
  rw [hrest]
  refine stringAt_writeBytes m a ?_ rest
  intro hin
  simpa using List.mem_takeWhile_imp hin

namespace StringAt

variable {m : Store} {a : Nat} {s t : List UInt8} {c : UInt8}

theorem cons (h : StringAt m a (c :: s)) : m a = c ∧ c ≠ 0 ∧ StringAt m (a + 1) s := by
  have hbytes := h.bytes_eq
  rw [List.length_cons, readBytes_succ] at hbytes
  have hnul := h.noNul
  rw [List.mem_cons, not_or] at hnul
  have hplace : a + (c :: s).length = a + 1 + s.length := by
    rw [List.length_cons]
    omega
  exact ⟨List.head_eq_of_cons_eq hbytes, Ne.symm hnul.1, List.tail_eq_of_cons_eq hbytes,
    hplace ▸ h.nul, hnul.2⟩

/-- A string ends at the first NUL. -/
theorem unique (hs : StringAt m a s) (ht : StringAt m a t) : s = t := by
  induction s generalizing a t with
  | nil =>
      cases t with
      | nil => rfl
      | cons d t =>
          obtain ⟨hd, hne, _⟩ := ht.cons
          exact absurd (hd.symm.trans hs.nul) hne
  | cons c s ih =>
      obtain ⟨hc, hne, hs⟩ := hs.cons
      cases t with
      | nil => exact absurd (hc.symm.trans ht.nul) hne
      | cons d t =>
          obtain ⟨hd, _, ht⟩ := ht.cons
          rw [ih hs ht, ← hc, ← hd]

end StringAt

end Lib.Bytes
