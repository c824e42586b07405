/-
Which words `parse_command_line` finds.

`starts` lists what follows from the first character of each word on: each argument is an
offset of one of them. The loop has written a NUL behind every word but the one that fills
the vector, whose string goes on to the end of the line. `parse_command_line_iff` says when
this is its end too.
-/

import Mathlib.Data.List.TakeWhile
import Curnel.Coreutils

namespace Curnel.Coreutils

/-- The string `argv[i]` of each argument is the word in its place, and NULL follows. -/
structure ParsesWords (line : List UInt8) (argv : Nat → Option Nat) (maxArgs : Nat) : Prop where
  argc_eq : (parseCommandLine line argv maxArgs).argc = min (words line).length (maxArgs - 1)
  arg_eq : ∀ i < (parseCommandLine line argv maxArgs).argc,
    (parseCommandLine line argv maxArgs).arg i = (words line)[i]?
  null : (parseCommandLine line argv maxArgs).argv (parseCommandLine line argv maxArgs).argc = none

/-- The vector is not filled, or the line ends with the word that fills it. -/
def Terminated (line : List UInt8) (maxArgs : Nat) : Prop :=
  (words line).length < maxArgs - 1 ∨
    ((words line).length = maxArgs - 1 ∧ ∀ c ∈ line.getLast?, blank c = false)

/-! ### Where words begin -/

/-- The line from each word on, from inside of a word or between words. -/
def starts : Bool → List UInt8 → List (List UInt8)
  | _, [] => []
  | inWord, c :: rest =>
      if blank c then starts false rest
      else if inWord then starts true rest
      else (c :: rest) :: starts true rest

/-- The characters up to the next blank. -/
def word (line : List UInt8) : List UInt8 := line.takeWhile fun c => !blank c

section Starts

variable {c : UInt8} {inWord : Bool} {line : List UInt8}

theorem starts_blank (h : blank c = true) (inWord : Bool) (rest : List UInt8) :
    starts inWord (c :: rest) = starts false rest := by
  rw [starts, if_pos h]

theorem starts_inside (h : blank c = false) (rest : List UInt8) :
    starts true (c :: rest) = starts true rest := by
  simp [starts, h]

theorem starts_begin (h : blank c = false) (rest : List UInt8) :
    starts false (c :: rest) = (c :: rest) :: starts true rest := by
  simp [starts, h]

theorem word_blank (h : blank c = true) (rest : List UInt8) : word (c :: rest) = [] := by
  simp [word, h]

theorem word_cons (h : blank c = false) (rest : List UInt8) :
    word (c :: rest) = c :: word rest := by
  simp [word, h]

/-- The first piece of a line cut at its blanks, and the words behind it. -/
theorem splitOnP_eq (line : List UInt8) :
    ∃ pieces, line.splitOnP blank = word line :: pieces ∧
      (starts true line).map word = pieces.filter (· ≠ []) ∧
      (starts false line).map word = (line.splitOnP blank).filter (· ≠ []) := by
  induction line with
  | nil => exact ⟨[], rfl, rfl, rfl⟩
  | cons c rest ih =>
      obtain ⟨pieces, hsplit, hinside, hbegin⟩ := ih
      cases hblank : blank c with
      | true =>
          refine ⟨rest.splitOnP blank, ?_, ?_, ?_⟩
          · rw [List.splitOnP_cons_eq_if_modifyHead, if_pos hblank, word_blank hblank]
          · rw [starts_blank hblank, hbegin]
          · rw [starts_blank hblank, hbegin, List.splitOnP_cons_eq_if_modifyHead, if_pos hblank]
            rfl
      | false =>
          have hcons : (c :: rest).splitOnP blank = word (c :: rest) :: pieces := by
            rw [List.splitOnP_cons_eq_if_modifyHead, hblank, hsplit, word_cons hblank]
            rfl
          refine ⟨pieces, hcons, ?_, ?_⟩
          · rw [starts_inside hblank, hinside]
          · rw [starts_begin hblank, List.map_cons, hinside, hcons, word_cons hblank]
            simp

theorem words_eq (line : List UInt8) : words line = (starts false line).map word := by
  obtain ⟨_, _, _, hbegin⟩ := splitOnP_eq line
  exact hbegin.symm

theorem blank_of_starts (h : starts false line = []) : ∀ c ∈ line, blank c = true := by
  induction line with
  | nil => exact fun c hc => by cases hc
  | cons c rest ih =>
      cases hblank : blank c with
      | true =>
          rw [starts_blank hblank] at h
          intro d hd
          rcases List.mem_cons.mp hd with rfl | hin
          · exact hblank
          · exact ih h d hin
      | false =>
          rw [starts_begin hblank] at h
          cases h

/-- A word goes on to the end of the line. -/
theorem word_eq_self_iff :
    word line = line ↔ starts true line = [] ∧ ∀ c ∈ line.getLast?, blank c = false := by
  induction line with
  | nil => simp [word, starts]
  | cons c rest ih =>
      cases hblank : blank c with
      | true =>
          rw [word_blank hblank, starts_blank hblank]
          constructor
          · intro h
            cases h
          · rintro ⟨hnone, hlast⟩
            have hall : ∀ d ∈ c :: rest, blank d = true := by
              intro d hd
              rcases List.mem_cons.mp hd with rfl | hin
              · exact hblank
              · exact blank_of_starts hnone d hin
            have hend := hlast _ (List.getLast?_eq_some_getLast (List.cons_ne_nil c rest))
            rw [hall _ (List.getLast_mem _)] at hend
            cases hend
      | false =>
          rw [word_cons hblank, starts_inside hblank, List.cons.injEq, ih]
          cases rest with
          | nil => simp [starts, hblank]
          | cons d rest => simp [List.getLast?_cons_cons]

/-- A word, and what is behind its first character. -/
theorem starts_getElem {j : Nat} {s : List UInt8} (h : (starts inWord line)[j]? = some s) :
    ∃ c rest, s = c :: rest ∧ blank c = false ∧
      starts true rest = (starts inWord line).drop (j + 1) ∧ s <:+ line := by
  induction line generalizing inWord j with
  | nil =>
      rw [starts] at h
      cases h
  | cons b line ih =>
      have hlater : ∀ {inWord' j'}, (starts inWord' line)[j']? = some s →
          ∃ c rest, s = c :: rest ∧ blank c = false ∧
            starts true rest = (starts inWord' line).drop (j' + 1) ∧ s <:+ b :: line := by
        intro inWord' j' h'
        obtain ⟨c, rest, hs, hblank, hdrop, hsuffix⟩ := ih h'
        exact ⟨c, rest, hs, hblank, hdrop, hsuffix.trans (List.suffix_cons b line)⟩
      cases hblank : blank b with
      | true =>
          rw [starts_blank hblank] at h ⊢
          exact hlater h
      | false =>
          cases inWord with
          | true =>
              rw [starts_inside hblank] at h ⊢
              exact hlater h
          | false =>
              rw [starts_begin hblank] at h ⊢
              cases j with
              | zero =>
                  rw [List.getElem?_cons_zero, Option.some.injEq] at h
                  exact ⟨b, line, h.symm, hblank, rfl, h ▸ List.suffix_refl _⟩
              | succ j =>
                  rw [List.getElem?_cons_succ] at h
                  exact hlater h

/-- The line ends with one of its words. -/
theorem word_start_eq_iff {j : Nat} {s : List UInt8} (h : (starts false line)[j]? = some s) :
    word s = s ↔ (words line).length = j + 1 ∧ ∀ c ∈ line.getLast?, blank c = false := by
  obtain ⟨c, rest, rfl, hblank, hdrop, before, rfl⟩ := starts_getElem h
  have hlt : j < (starts false (before ++ c :: rest)).length :=
    (List.getElem?_eq_some_iff.mp h).1
  have hinside := starts_inside hblank rest
  have hlast : (before ++ c :: rest).getLast? = (c :: rest).getLast? := by
    rw [List.getLast?_append_of_ne_nil _ (List.cons_ne_nil c rest)]
  rw [word_eq_self_iff, hinside, hdrop, List.drop_eq_nil_iff, hlast, words_eq, List.length_map]
  exact and_congr_left fun _ => by omega

end Starts

/-! ### The loop -/

/-- What the loop does from inside of a word or between words, with `argc` arguments found. -/
structure ParsesRest (maxArgs : Nat) (rest : List UInt8) (i argc : Nat) (inWord : Bool)
    (argv : Nat → Option Nat) (p : Parsed) : Prop where
  argc_eq : p.argc = argc + min (starts inWord rest).length (maxArgs - 1 - argc)
  kept : ∀ k < argc, p.argv k = argv k
  current : inWord = true →
    p.line.takeWhile (· ≠ 0) = if argc < maxArgs - 1 then word rest else rest
  added : ∀ j, argc + j < p.argc → ∃ s, (starts inWord rest)[j]? = some s ∧
    s.length ≤ rest.length ∧ p.argv (argc + j) = some (i + (rest.length - s.length)) ∧
    stringAt p.line (rest.length - s.length)
      = if argc + j + 1 < maxArgs - 1 then word s else s

namespace ParsesRest

variable {maxArgs i argc : Nat} {rest : List UInt8} {c : UInt8} {inWord : Bool}
  {argv : Nat → Option Nat} {p : Parsed}

theorem finished (inWord : Bool) (argv : Nat → Option Nat) (i argc maxArgs : Nat) :
    ParsesRest maxArgs [] i argc inWord argv ⟨argc, [], argv⟩ := by
  constructor
  · simp [starts]
  · exact fun _ _ => rfl
  · intro _
    simp [word]
  · intro j hj
    dsimp only at hj
    omega

theorem full (hnul : 0 ∉ rest) (hfull : ¬ argc < maxArgs - 1) (inWord : Bool)
    (argv : Nat → Option Nat) (i : Nat) :
    ParsesRest maxArgs rest i argc inWord argv ⟨argc, rest, argv⟩ := by
  constructor
  · dsimp only
    omega
  · exact fun _ _ => rfl
  · intro _
    rw [if_neg hfull, List.takeWhile_eq_self_iff]
    intro c hc
    simpa using fun hzero : c = 0 => hnul (hzero ▸ hc)
  · intro j hj
    dsimp only at hj
    omega

/-- The arguments found in the rest, from a character in front of it. -/
theorem later (h : ParsesRest maxArgs rest (i + 1) argc inWord argv p) (c b : UInt8) {j : Nat}
    (hj : argc + j < p.argc) :
    ∃ s, (starts inWord rest)[j]? = some s ∧ s.length ≤ (c :: rest).length ∧
      p.argv (argc + j) = some (i + ((c :: rest).length - s.length)) ∧
      stringAt (b :: p.line) ((c :: rest).length - s.length)
        = if argc + j + 1 < maxArgs - 1 then word s else s := by
  obtain ⟨s, hs, hlength, hargv, hstring⟩ := h.added j hj
  have hoffset : (c :: rest).length - s.length = rest.length - s.length + 1 := by
    rw [List.length_cons]
    omega
  refine ⟨s, hs, ?_, ?_, ?_⟩
  · rw [List.length_cons]
    omega
  · rw [hoffset, hargv]
    congr 1
    omega
  · rw [hoffset]
    exact hstring

/-- A character more in front of the rest, where no word begins. -/
theorem cons (h : ParsesRest maxArgs rest (i + 1) argc inWord argv p) {inWord' : Bool} (b : UInt8)
    (hstarts : starts inWord' (c :: rest) = starts inWord rest)
    (hcurrent : inWord' = true → (b :: p.line).takeWhile (· ≠ 0)
      = if argc < maxArgs - 1 then word (c :: rest) else c :: rest) :
    ParsesRest maxArgs (c :: rest) i argc inWord' argv { p with line := b :: p.line } := by
  constructor
  · rw [hstarts]
    exact h.argc_eq
  · exact h.kept
  · exact hcurrent
  · intro j hj
    rw [hstarts]
    exact h.later c b hj

/-- The first character of a word. -/
theorem begin (h : ParsesRest maxArgs rest (i + 1) (argc + 1) true
      (Function.update argv argc (some i)) p) (hroom : argc < maxArgs - 1)
    (hblank : blank c = false) (hnul : c ≠ 0) :
    ParsesRest maxArgs (c :: rest) i argc false argv { p with line := c :: p.line } := by
  have hstarts := starts_begin hblank rest
  have hargc := h.argc_eq
  constructor
  · rw [hstarts, List.length_cons]
    show p.argc = _
    omega
  · intro k hk
    show p.argv k = _
    rw [h.kept k (by omega), Function.update_of_ne (by omega)]
  · intro hfalse
    cases hfalse
  · intro j hj
    cases j with
    | zero =>
        refine ⟨c :: rest, by rw [hstarts]; rfl, le_refl _, ?_, ?_⟩
        · show p.argv argc = _
          rw [h.kept argc (Nat.lt_succ_self argc), Function.update_self, Nat.sub_self, Nat.add_zero]
        · have htake : stringAt (c :: p.line) 0 = c :: p.line.takeWhile (· ≠ 0) := by
            simp [stringAt, hnul]
          rw [Nat.sub_self, htake, h.current rfl, word_cons hblank]
          split <;> rfl
    | succ j =>
        have hshift : argc + (j + 1) = argc + 1 + j := by omega
        rw [hstarts, hshift]
        exact h.later c c (by rw [← hshift]; exact hj)

end ParsesRest

theorem parsesRest (maxArgs : Nat) (rest : List UInt8) (hnul : 0 ∉ rest) (i argc : Nat)
    (inWord : Bool) (argv : Nat → Option Nat) :
    ParsesRest maxArgs rest i argc inWord argv (parseLoop maxArgs rest i argc inWord argv) := by
  induction rest generalizing i argc inWord argv with
  | nil => exact .finished inWord argv i argc maxArgs
  | cons c rest ih =>
      have hc : c ≠ 0 := fun heq => hnul (heq ▸ List.mem_cons_self ..)
      have hrest : 0 ∉ rest := fun hin => hnul (List.mem_cons_of_mem c hin)
      rw [parseLoop]
      by_cases hroom : argc < maxArgs - 1
      · rw [if_pos hroom]
        cases hblank : blank c with
        | true =>
            refine (ih hrest (i + 1) argc false argv).cons _ (starts_blank hblank inWord rest) ?_
            rintro rfl
            rw [if_pos hroom, word_blank hblank]
            rfl
        | false =>
            cases inWord with
            | true =>
                have hnext := ih hrest (i + 1) argc true argv
                refine hnext.cons c (starts_inside hblank rest) fun _ => ?_
                have htake := hnext.current rfl
                rw [if_pos hroom] at htake ⊢
                rw [List.takeWhile_cons_of_pos (by simpa using hc), htake, word_cons hblank]
            | false => exact (ih hrest (i + 1) (argc + 1) true _).begin hroom hblank hc
      · rw [if_neg hroom]
        exact .full hnul hroom inWord argv i

/-! ### `parse_command_line` -/

section Parse

variable {line : List UInt8} {maxArgs : Nat}

theorem parse_argc_eq (maxArgs : Nat) (hline : 0 ∉ line) (argv : Nat → Option Nat) :
    (parseCommandLine line argv maxArgs).argc = min (words line).length (maxArgs - 1) := by
  have hargc := (parsesRest maxArgs line hline 0 0 false argv).argc_eq
  rw [Nat.zero_add, Nat.sub_zero] at hargc
  rw [words_eq, List.length_map]
  exact hargc

/-- An argument ends with its word, but for the one that fills the vector. -/
theorem parse_arg_start (hline : 0 ∉ line) (argv : Nat → Option Nat) {i : Nat}
    (hi : i < (parseCommandLine line argv maxArgs).argc) :
    ∃ s, (starts false line)[i]? = some s ∧
      (parseCommandLine line argv maxArgs).arg i
        = some (if i + 1 < maxArgs - 1 then word s else s) := by
  have hloop := parsesRest maxArgs line hline 0 0 false argv
  obtain ⟨s, hs, _, hargv, hstring⟩ := hloop.added i (by rw [Nat.zero_add]; exact hi)
  rw [Nat.zero_add] at hargv hstring
  have hne : i ≠ (parseLoop maxArgs line 0 0 false argv).argc := Nat.ne_of_lt hi
  refine ⟨s, hs, ?_⟩
  rw [← hstring]
  simp [Parsed.arg, parseCommandLine, Function.update_of_ne hne, hargv]

/-- Only the word that fills the vector may be wrong. -/
theorem parse_arg_eq_iff (hline : 0 ∉ line) (argv : Nat → Option Nat) {i : Nat}
    (hi : i < (parseCommandLine line argv maxArgs).argc) :
    (parseCommandLine line argv maxArgs).arg i = (words line)[i]? ↔
      i + 1 < maxArgs - 1 ∨
        ((words line).length = i + 1 ∧ ∀ c ∈ line.getLast?, blank c = false) := by
  obtain ⟨s, hs, harg⟩ := parse_arg_start hline argv hi
  have hword : (words line)[i]? = some (word s) := by
    rw [words_eq, List.getElem?_map, hs, Option.map_some]
  rw [harg, hword, Option.some.injEq, ← word_start_eq_iff hs]
  split
  next hbefore => exact iff_of_true rfl (Or.inl hbefore)
  next hlast => exact ⟨fun heq => Or.inr heq.symm, fun h => (h.resolve_left hlast).symm⟩

/-- Every argument is the word in its place exactly when the vector is not filled, or the line
ends with the word that fills it. -/
theorem parse_command_line_iff (hline : 0 ∉ line) (argv : Nat → Option Nat)
    (hmax : 2 ≤ maxArgs) : ParsesWords line argv maxArgs ↔ Terminated line maxArgs := by
  have hargc := parse_argc_eq maxArgs hline argv
  constructor
  · intro parses
    by_cases hfew : (words line).length < maxArgs - 1
    · exact Or.inl hfew
    · have hlast : maxArgs - 2 < (parseCommandLine line argv maxArgs).argc := by omega
      have hword := (parse_arg_eq_iff hline argv hlast).mp (parses.arg_eq _ hlast)
      have hindex : maxArgs - 2 + 1 = maxArgs - 1 := by omega
      rw [hindex] at hword
      exact Or.inr (hword.resolve_left (Nat.lt_irrefl _))
  · intro terminated
    refine ⟨hargc, fun i hi => (parse_arg_eq_iff hline argv hi).mpr ?_, Function.update_self ..⟩
    rcases terminated with hfew | ⟨hlength, hlast⟩
    · exact Or.inl (by omega)
    · by_cases hbefore : i + 1 < maxArgs - 1
      · exact Or.inl hbefore
      · exact Or.inr ⟨by omega, hlast⟩

end Parse

/-- Two words, with room for 63. -/
theorem parse_command_line_two_words : ParsesWords [97, 32, 98] (fun _ => none) 64 :=
  (parse_command_line_iff (by decide) _ (by decide)).mpr (Or.inl (by decide))

/-- With room for one, the first of them goes on to the end of the line; so does the last of
the 63 that `execute_command` has room for. -/
theorem parse_command_line_full_vector :
    (parseCommandLine [97, 32, 98] (fun _ => none) 2).arg 0 = some [97, 32, 98] ∧
      ¬ ParsesWords [97, 32, 98] (fun _ => none) 2 ∧
      ¬ ParsesWords (List.replicate 64 [97, 32]).flatten (fun _ => none) 64 := by
  refine ⟨by decide, fun parses => ?_, fun parses => ?_⟩
  · exact absurd (parses.arg_eq 0 (by decide)) (by decide)
  · exact absurd (parses.arg_eq 62 (by decide +kernel)) (by decide +kernel)

end Curnel.Coreutils
