/-
`int_to_string`, which kernel.c and idt.c each define, and `atoi`.

Both take the digits off from the right, write them to the string as they come, add the sign
and the NUL, and turn the string round. kernel.c takes the sign off first and goes on while
the number is not 0; idt.c goes on while it is positive. The negative of the smallest `int`
is itself: kernel.c then writes the characters below '0', and idt.c writes no digit at all.
`int_to_string_iff` says that this is the only number where they go wrong.
-/

import Mathlib.Data.Nat.Digits.Lemmas
import Curnel.Process.Sleeping

namespace Curnel.Numerals

open Lib.Bytes Lib.Word Process

/-- A character code as a `char`. -/
def toChar (c : Int) : UInt8 := UInt8.ofNat (c % 256).toNat

/-! ### kernel.c -/

/-- The loop over the digits. `str` is the memory from the string on. -/
def kernelDigits (num : Int) (i : Nat) (str : Store) : Nat × Store :=
  if num = 0 then (i, str)
  else
    let rem := num.tmod 10
    let c := if rem > 9 then rem - 10 + 97 else rem + 48
    kernelDigits (num.tdiv 10) (i + 1) (Function.update str i (toChar c))
termination_by num.natAbs
decreasing_by
  rw [Int.natAbs_tdiv]
  exact Nat.div_lt_self (by omega) (by decide)

/-- Exchange two characters. -/
def swap (a b : Nat) (str : Store) : Store :=
  Function.update (Function.update str a (str b)) b (str a)

/-- The loop that turns the string round. -/
def kernelReverse (start last : Nat) (str : Store) : Store :=
  if start < last then kernelReverse (start + 1) (last - 1) (swap start last str) else str
termination_by last - start

/-- The sign goes behind the digits. -/
def putSign (isNegative : Bool) (i : Nat) (str : Store) : Nat × Store :=
  if isNegative then (i + 1, Function.update str i 45) else (i, str)

def kernelIntToString (num : Int) (str : Store) : Store :=
  let isNegative : Bool := num < 0
  let num := if isNegative then int32 (-num) else num
  if num = 0 then Function.update (Function.update str 0 48) 1 0
  else
    let (i, str) := kernelDigits num 0 str
    let (i, str) := putSign isNegative i str
    kernelReverse 0 (i - 1) (Function.update str i 0)

/-! ### idt.c -/

def idtDigits (num : Int) (i : Nat) (str : Store) : Nat × Store :=
  if num > 0 then
    idtDigits (num.tdiv 10) (i + 1) (Function.update str i (toChar (num.tmod 10 + 48)))
  else (i, str)
termination_by num.natAbs
decreasing_by
  rw [Int.natAbs_tdiv]
  exact Nat.div_lt_self (by omega) (by decide)

def idtReverse (j len : Nat) (str : Store) : Store :=
  if j < len / 2 then idtReverse (j + 1) len (swap j (len - j - 1) str) else str
termination_by len / 2 - j

def idtIntToString (num : Int) (str : Store) : Store :=
  if num = 0 then Function.update (Function.update str 0 48) 1 0
  else
    let sign : Bool := num < 0
    let num := if sign then int32 (-num) else num
    let (i, str) := idtDigits num 0 str
    let (i, str) := putSign sign i str
    idtReverse 0 i (Function.update str i 0)

/-! ### What is expected of them -/

/-- The decimal representation, without leading zeros. -/
def decimal (n : Int) : List UInt8 :=
  if n = 0 then [48]
  else
    (if n < 0 then [45] else []) ++
      (Nat.digits 10 n.natAbs).reverse.map fun d => UInt8.ofNat (48 + d)

/-- The memory starts with the NUL-terminated string `s`. -/
structure IsString (str : Store) (s : List UInt8) : Prop where
  bytes_eq : readBytes str 0 s.length = s
  nul : str s.length = 0
  noNul : 0 ∉ s

/-! ### The digits -/

/-- The digits of `n` with a sign, as the loop of kernel.c writes them. -/
def signedDigits (sign : Int) (n : Nat) : List UInt8 :=
  (Nat.digits 10 n).map fun d : Nat => toChar (sign * d + 48)

theorem signedDigits_succ {sign : Int} {n : Nat} (h : n ≠ 0) :
    signedDigits sign n = toChar (sign * (n % 10 : Nat) + 48) :: signedDigits sign (n / 10) := by
  rw [signedDigits, Nat.digits_eq_cons_digits_div (by decide) h]
  rfl

theorem tmod_signed {sign : Int} (hsign : sign = 1 ∨ sign = -1) (n : Nat) :
    (sign * n).tmod 10 = sign * (n % 10 : Nat) := by
  have hplain : (n : Int).tmod 10 = (n % 10 : Nat) := rfl
  rcases hsign with rfl | rfl
  · rw [one_mul, one_mul, hplain]
  · rw [neg_one_mul, neg_one_mul, Int.neg_tmod, hplain]

theorem tdiv_signed {sign : Int} (hsign : sign = 1 ∨ sign = -1) (n : Nat) :
    (sign * n).tdiv 10 = sign * (n / 10 : Nat) := by
  have hplain : (n : Int).tdiv 10 = (n / 10 : Nat) := rfl
  rcases hsign with rfl | rfl
  · rw [one_mul, one_mul, hplain]
  · rw [neg_one_mul, neg_one_mul, Int.neg_tdiv, hplain]

theorem kernelDigits_eq {sign : Int} (hsign : sign = 1 ∨ sign = -1) (n i : Nat) (str : Store) :
    kernelDigits (sign * n) i str
      = (i + (signedDigits sign n).length, writeBytes str i (signedDigits sign n)) := by
  induction n using Nat.strong_induction_on generalizing i str with
  | _ n ih =>
      rw [kernelDigits]
      by_cases hn : n = 0
      · subst hn
        simp [signedDigits, writeBytes_nil]
      · have hne : sign * (n : Int) ≠ 0 := by
          rcases hsign with rfl | rfl <;> omega
        have hsmall : ¬ sign * (n % 10 : Nat) > 9 := by
          rcases hsign with rfl | rfl <;> omega
        rw [if_neg hne]
        dsimp only
        rw [tmod_signed hsign, tdiv_signed hsign, if_neg hsmall, ih (n / 10) (by omega),
          signedDigits_succ hn, writeBytes_cons, List.length_cons]
        congr 1
        omega

theorem idtDigits_eq (n i : Nat) (str : Store) :
    idtDigits n i str = kernelDigits n i str := by
  induction n using Nat.strong_induction_on generalizing i str with
  | _ n ih =>
      rw [idtDigits, kernelDigits]
      by_cases hn : n = 0
      · simp [hn]
      · have hdiv : (n : Int).tdiv 10 = (n / 10 : Nat) := rfl
        have hsmall : ¬ (n : Int).tmod 10 > 9 := by
          have hrem : (n : Int).tmod 10 = (n % 10 : Nat) := rfl
          omega
        rw [if_pos (by omega), if_neg (by omega)]
        dsimp only
        rw [if_neg hsmall, hdiv, ih (n / 10) (by omega)]

/-! ### Turning the string round -/

theorem swap_apply (a b : Nat) (str : Store) (x : Nat) :
    swap a b str x = if x = b then str a else if x = a then str b else str x := by
  simp [swap, Function.update_apply]

theorem kernelReverse_apply (start last : Nat) (str : Store) (x : Nat) :
    kernelReverse start last str x
      = if start ≤ x ∧ x ≤ last then str (start + last - x) else str x := by
  induction start, last, str using kernelReverse.induct with
  | case1 start last str h ih =>
      rw [kernelReverse, if_pos h, ih, swap_apply, swap_apply]
      have hmirror : start + 1 + (last - 1) - x = start + last - x := by omega
      rw [hmirror]
      grind
  | case2 start last str h =>
      rw [kernelReverse, if_neg h]
      split
      · congr 1
        omega
      · rfl

theorem idtReverse_eq (j len : Nat) (str : Store) :
    idtReverse j len str = kernelReverse j (len - j - 1) str := by
  induction j, str using idtReverse.induct len with
  | case1 j str h ih =>
      rw [idtReverse, if_pos h, kernelReverse, if_pos (by omega), ih]
      congr 1
  | case2 j str h => rw [idtReverse, if_neg h, kernelReverse, if_neg (by omega)]

/-- A string turned round in its place, in front of its NUL. -/
theorem kernelReverse_writeBytes {m : Store} {bytes : List UInt8} (h : bytes ≠ []) :
    kernelReverse 0 (bytes.length - 1) (writeBytes m 0 (bytes ++ [0]))
      = writeBytes m 0 (bytes.reverse ++ [0]) := by
  have hpos : 0 < bytes.length := List.length_pos_of_ne_nil h
  funext x
  rw [kernelReverse_apply]
  unfold writeBytes
  simp only [List.length_append, List.length_reverse, List.length_singleton, Nat.zero_le,
    true_and, Nat.zero_add, Nat.sub_zero, List.getD_eq_getElem?_getD]
  rcases Nat.lt_trichotomy x bytes.length with hx | rfl | hx
  · rw [if_pos (by omega), if_pos (by omega), if_pos (by omega),
      List.getElem?_append_left (by omega), List.getElem?_append_left (by simpa using hx),
      List.getElem?_reverse hx]
  · rw [if_neg (by omega), if_pos (by omega), if_pos (by omega)]
    simp
  · rw [if_neg (by omega), if_neg (by omega), if_neg (by omega)]

/-! ### The strings written -/

theorem int32_of_bounds {n : Int} (hlow : -2 ^ 31 ≤ n) (hhigh : n < 2 ^ 31) : int32 n = n := by
  unfold int32
  rcases Int.lt_or_le n 0 with hneg | hpos
  · have hbits : ofInt n % 2 ^ 32 = (n + 2 ^ 32).toNat := by
      unfold ofInt
      omega
    rw [toInt32_high (by omega), hbits]
    omega
  · have hbits : ofInt n = n.toNat := by
      unfold ofInt
      omega
    rw [hbits, toInt32_of_lt (by omega)]
    omega

/-- What follows the digits before the string is turned round. -/
def signChars (num : Int) : List UInt8 := if num < 0 then [45] else []

theorem putSign_eq (num : Int) (chars : List UInt8) (str : Store) :
    putSign (num < 0) chars.length (writeBytes str 0 chars)
      = ((chars ++ signChars num).length, writeBytes str 0 (chars ++ signChars num)) := by
  have hconcat := writeBytes_concat str 0 chars 45
  rw [Nat.zero_add] at hconcat
  unfold putSign signChars
  by_cases hneg : num < 0
  · simp [hneg, hconcat]
  · simp [hneg]

/-- The end of both functions: the NUL, and the string turned round. -/
theorem reversed_eq (str : Store) {chars : List UInt8} (h : chars ≠ []) :
    kernelReverse 0 (chars.length - 1) (Function.update (writeBytes str 0 chars) chars.length 0)
      = writeBytes str 0 (chars.reverse ++ [0]) := by
  have hconcat := writeBytes_concat str 0 chars 0
  rw [Nat.zero_add] at hconcat
  rw [hconcat, kernelReverse_writeBytes h]

theorem zero_eq (str : Store) :
    Function.update (Function.update str 0 48) 1 0 = writeBytes str 0 (decimal 0 ++ [0]) := by
  rw [decimal, if_pos rfl, List.singleton_append, ← writeBytes_cons, ← writeBytes_cons,
    writeBytes_nil]

theorem signedDigits_ne_nil (sign : Int) {n : Nat} (h : n ≠ 0) : signedDigits sign n ≠ [] := by
  rw [signedDigits_succ h]
  exact List.cons_ne_nil _ _

/-- kernel.c, once the number is `sign * n`. -/
theorem kernelIntToString_eq {num sign : Int} {n : Nat} (hsign : sign = 1 ∨ sign = -1)
    (hn : n ≠ 0) (hnum : (if num < 0 then int32 (-num) else num) = sign * n) (str : Store) :
    kernelIntToString num str
      = writeBytes str 0 ((signedDigits sign n ++ signChars num).reverse ++ [0]) := by
  have hne : sign * (n : Int) ≠ 0 := by
    rcases hsign with rfl | rfl <;> omega
  unfold kernelIntToString
  simp only [decide_eq_true_eq, hnum, if_neg hne, kernelDigits_eq hsign, Nat.zero_add, putSign_eq]
  exact reversed_eq str (List.append_ne_nil_of_left_ne_nil (signedDigits_ne_nil sign hn) _)

/-- idt.c, once the number is positive. -/
theorem idtIntToString_eq {num : Int} {n : Nat} (hn : n ≠ 0) (hzero : num ≠ 0)
    (hnum : (if num < 0 then int32 (-num) else num) = n) (str : Store) :
    idtIntToString num str
      = writeBytes str 0 ((signedDigits 1 n ++ signChars num).reverse ++ [0]) := by
  have hdigits := kernelDigits_eq (Or.inl rfl) n 0 str
  rw [one_mul, Nat.zero_add] at hdigits
  unfold idtIntToString
  simp only [decide_eq_true_eq, hnum, if_neg hzero, idtDigits_eq, hdigits, putSign_eq,
    idtReverse_eq, Nat.sub_zero]
  exact reversed_eq str (List.append_ne_nil_of_left_ne_nil (signedDigits_ne_nil 1 hn) _)

theorem decimal_eq {num : Int} (h : num ≠ 0) :
    decimal num = (signedDigits 1 num.natAbs ++ signChars num).reverse := by
  have hdigit : (fun d : Nat => toChar (1 * d + 48)) = fun d => UInt8.ofNat (48 + d) := by
    funext d
    have hmod : ((1 * d + 48 : Int) % 256).toNat = (48 + d) % 2 ^ 8 := by omega
    rw [toChar, hmod, UInt8.ofNat_mod_size]
  have hsign : (signChars num).reverse = if num < 0 then [45] else [] := by
    unfold signChars
    split <;> rfl
  rw [decimal, if_neg h, List.reverse_append, hsign, signedDigits, hdigit, List.map_reverse]

/-- Every other `int` has a negative. -/
theorem abs_eq {num : Int} (hlow : -2 ^ 31 < num) (hhigh : num < 2 ^ 31) :
    (if num < 0 then int32 (-num) else num) = num.natAbs := by
  split
  · rw [int32_of_bounds (by omega) (by omega)]
    omega
  · omega

theorem kernelIntToString_decimal {num : Int} (hlow : -2 ^ 31 < num) (hhigh : num < 2 ^ 31)
    (str : Store) : kernelIntToString num str = writeBytes str 0 (decimal num ++ [0]) := by
  by_cases hzero : num = 0
  · subst hzero
    exact zero_eq str
  · rw [decimal_eq hzero]
    refine kernelIntToString_eq (Or.inl rfl) (by omega) ?_ str
    rw [abs_eq hlow hhigh, one_mul]

theorem idtIntToString_decimal {num : Int} (hlow : -2 ^ 31 < num) (hhigh : num < 2 ^ 31)
    (str : Store) : idtIntToString num str = writeBytes str 0 (decimal num ++ [0]) := by
  by_cases hzero : num = 0
  · subst hzero
    exact zero_eq str
  · rw [decimal_eq hzero]
    exact idtIntToString_eq (by omega) hzero (abs_eq hlow hhigh) str

/-! ### Strings -/

theorem toNat_digit {d : Nat} (h : d < 10) : (UInt8.ofNat (48 + d)).toNat = 48 + d := by
  rw [UInt8.toNat_ofNat']
  omega

theorem digit_bounds {d : Nat} (h : d < 10) :
    48 ≤ UInt8.ofNat (48 + d) ∧ UInt8.ofNat (48 + d) ≤ 57 := by
  rw [UInt8.le_iff_toNat_le, UInt8.le_iff_toNat_le, toNat_digit h]
  exact ⟨Nat.le_add_right 48 d, show 48 + d ≤ 57 by omega⟩

/-- A sign or a digit. -/
theorem char_of_mem_decimal {c : UInt8} {num : Int} (h : c ∈ decimal num) :
    c = 45 ∨ 48 ≤ c ∧ c ≤ 57 := by
  unfold decimal at h
  split at h
  · rw [List.mem_singleton] at h
    subst h
    exact Or.inr (by decide)
  · rw [List.mem_append, List.mem_map] at h
    rcases h with hsign | ⟨d, hd, rfl⟩
    · split at hsign
      · exact Or.inl (List.mem_singleton.mp hsign)
      · cases hsign
    · exact Or.inr (digit_bounds (Nat.digits_lt_base (by decide) (List.mem_reverse.mp hd)))

theorem zero_notMem_decimal (num : Int) : 0 ∉ decimal num :=
  fun h => absurd (char_of_mem_decimal h) (by decide)

theorem isString_iff {str : Store} {s : List UInt8} : IsString str s ↔ StringAt str 0 s := by
  have hnul : str (0 + s.length) = 0 ↔ str s.length = 0 := by rw [Nat.zero_add]
  constructor
  · intro h
    exact ⟨h.bytes_eq, hnul.mpr h.nul, h.noNul⟩
  · intro h
    exact ⟨h.bytes_eq, hnul.mp h.nul, h.noNul⟩

theorem isString_writeBytes (str : Store) {s : List UInt8} (h : 0 ∉ s) :
    IsString (writeBytes str 0 (s ++ [0])) s :=
  isString_iff.mpr (stringAt_writeBytes str 0 h [])

/-- A memory starts with one string. -/
theorem IsString.unique {str : Store} {s t : List UInt8} (hs : IsString str s)
    (ht : IsString str t) : s = t :=
  (isString_iff.mp hs).unique (isString_iff.mp ht)

/-! ### `atoi` -/

theorem le_foldl (digits : List Nat) (value : Nat) :
    value ≤ digits.foldl (fun value d => d + 10 * value) value := by
  induction digits generalizing value with
  | nil => exact le_refl value
  | cons d digits ih =>
      have hrest := ih (d + 10 * value)
      rw [List.foldl_cons]
      omega

theorem atoiDigits_map (digits : List Nat) (hdigits : ∀ d ∈ digits, d < 10) (result : Nat)
    (hfits : digits.foldl (fun value d => d + 10 * value) result < 2 ^ 31) :
    atoiDigits result (digits.map fun d => UInt8.ofNat (48 + d))
      = (digits.foldl (fun value d => d + 10 * value) result : Nat) := by
  induction digits generalizing result with
  | nil => rfl
  | cons d digits ih =>
      have hten : d < 10 := hdigits d (List.mem_cons_self ..)
      have hnext : int32 (result * 10 + ((UInt8.ofNat (48 + d)).toNat - 48))
          = ((d + 10 * result : Nat) : Int) := by
        have hle := le_foldl digits (d + 10 * result)
        rw [List.foldl_cons] at hfits
        rw [toNat_digit hten, int32_of_bounds (by omega) (by omega)]
        omega
      rw [List.map_cons, atoiDigits, if_pos (digit_bounds hten), hnext, List.foldl_cons]
      exact ih (fun k hk => hdigits k (List.mem_cons_of_mem d hk)) _ hfits

theorem atoi_minus (rest : List UInt8) : atoi (45 :: rest) = int32 (-1 * atoiDigits 0 rest) := rfl

theorem atoi_digit {c : UInt8} (h : 48 ≤ c ∧ c ≤ 57) (rest : List UInt8) :
    atoi (c :: rest) = int32 (1 * atoiDigits 0 (c :: rest)) := by
  have hdrop : (c :: rest).dropWhile (fun c => c = 32 ∨ c = 9) = c :: rest :=
    List.dropWhile_cons_of_neg (by grind)
  unfold atoi
  rw [hdrop]
  split
  next heq =>
    cases heq
    exact absurd h.1 (by decide)
  next heq =>
    cases heq
    exact absurd h.1 (by decide)
  · rfl

theorem atoi_decimal {num : Int} (hlow : -2 ^ 31 < num) (hhigh : num < 2 ^ 31) :
    atoi (decimal num) = num := by
  have hvalue : (Nat.digits 10 num.natAbs).reverse.foldl (fun value d => d + 10 * value) 0
      = num.natAbs := by
    have hofDigits := Nat.ofDigits_eq_foldr 10 (Nat.digits 10 num.natAbs)
    rw [Nat.ofDigits_digits] at hofDigits
    rw [List.foldl_reverse]
    exact hofDigits.symm
  have hdigits : ∀ d ∈ (Nat.digits 10 num.natAbs).reverse, d < 10 :=
    fun d hd => Nat.digits_lt_base (by decide) (List.mem_reverse.mp hd)
  have hread := atoiDigits_map _ hdigits 0 (by omega)
  rw [hvalue] at hread
  by_cases hzero : num = 0
  · subst hzero
    decide
  · have hne : (Nat.digits 10 num.natAbs).reverse ≠ [] := by
      rw [List.reverse_ne_nil_iff, Nat.digits_ne_nil_iff_ne_zero]
      omega
    obtain ⟨d, rest, hcons⟩ := List.exists_cons_of_ne_nil hne
    rw [decimal, if_neg hzero]
    by_cases hneg : num < 0
    · rw [if_pos hneg, List.singleton_append, atoi_minus]
      rw [Nat.cast_zero] at hread
      rw [hread, int32_of_bounds (by omega) (by omega)]
      omega
    · rw [if_neg hneg, List.nil_append]
      rw [hcons] at hread hdigits ⊢
      rw [List.map_cons] at hread ⊢
      rw [Nat.cast_zero] at hread
      rw [atoi_digit (digit_bounds (hdigits d (List.mem_cons_self ..))), hread,
        int32_of_bounds (by omega) (by omega)]
      omega

/-! ### The two functions and `atoi` -/

/-- idt.c writes no digit of a number that is its own negative. -/
theorem idtIntToString_self {num : Int} (hneg : num < 0) (hself : int32 (-num) = num)
    (str : Store) : idtIntToString num str = writeBytes str 0 ([45] ++ [0]) := by
  have hdigits : idtDigits num 0 str = (0, str) := by
    rw [idtDigits, if_neg (by omega)]
  have hreverse : ∀ str, idtReverse 0 1 str = str := by
    intro str
    rw [idtReverse, if_neg (by decide)]
  unfold idtIntToString
  simp only [hneg, decide_true, if_true, hself, hdigits, putSign, if_neg hneg.ne, hreverse]
  rw [List.singleton_append, ← writeBytes_cons, ← writeBytes_cons, writeBytes_nil]

/-- The smallest `int`. -/
theorem min_self : int32 (- -2 ^ 31) = -2 ^ 31 := by decide

theorem idtIntToString_min (str : Store) :
    ¬ IsString (idtIntToString Int32.minValue.toInt str) (decimal Int32.minValue.toInt) := by
  rw [Int32.toInt_minValue, idtIntToString_self (by decide) min_self]
  intro hidt
  have hsame := hidt.unique (isString_writeBytes str (by decide))
  have hlength := congrArg List.length hsame
  have hdigits := List.length_pos_of_ne_nil
    (signedDigits_ne_nil 1 (show (-2 ^ 31 : Int).natAbs ≠ 0 by decide))
  have hsign : (signChars (-2 ^ 31)).length = 1 := rfl
  rw [decimal_eq (by decide), List.length_reverse, List.length_append, hsign,
    List.length_singleton] at hlength
  omega

/-- Both functions write the decimal representation of an `int`, and `atoi` reads it back,
exactly when it is not the smallest one. -/
theorem int_to_string_iff (n : Int32) (str : Store) :
    (IsString (kernelIntToString n.toInt str) (decimal n.toInt) ∧
      IsString (idtIntToString n.toInt str) (decimal n.toInt) ∧
      atoi (decimal n.toInt) = n.toInt) ↔ n ≠ Int32.minValue := by
  constructor
  · rintro ⟨_, hidt, _⟩ rfl
    exact idtIntToString_min str hidt
  · intro hne
    have hhigh : n.toInt < 2 ^ 31 := Int32.toInt_lt n
    have hlow : -2 ^ 31 < n.toInt := by
      refine lt_of_le_of_ne (Int32.le_toInt n) fun heq => hne ?_
      exact Int32.toInt_inj.mp (heq.symm.trans Int32.toInt_minValue.symm)
    rw [kernelIntToString_decimal hlow hhigh, idtIntToString_decimal hlow hhigh]
    exact ⟨isString_writeBytes str (zero_notMem_decimal _),
      isString_writeBytes str (zero_notMem_decimal _), atoi_decimal hlow hhigh⟩

/-- For the smallest `int` kernel.c writes characters that are no digits, and idt.c a sign and
nothing else: neither writes its decimal representation. -/
theorem int_to_string_min :
    IsString (kernelIntToString Int32.minValue.toInt fun _ => 0)
        [45, 46, 47, 44, 41, 44, 40, 45, 42, 44, 40] ∧
      IsString (idtIntToString Int32.minValue.toInt fun _ => 0) [45] ∧
      ¬ IsString (idtIntToString Int32.minValue.toInt fun _ => 0)
        (decimal Int32.minValue.toInt) := by
  have hdigits : signedDigits (-1) (2 ^ 31) = [40, 44, 42, 45, 40, 44, 41, 44, 47, 46] := by
    have hten : Nat.digits 10 (2 ^ 31) = [8, 4, 6, 3, 8, 4, 7, 4, 1, 2] := by norm_num
    rw [signedDigits, hten]
    rfl
  refine ⟨?_, ?_, idtIntToString_min _⟩
  · rw [Int32.toInt_minValue, kernelIntToString_eq (Or.inr rfl) (show 2 ^ 31 ≠ 0 by decide)
      (by rw [if_pos (by decide), min_self]; rfl), hdigits]
    exact isString_writeBytes _ (by decide)
  · rw [Int32.toInt_minValue, idtIntToString_self (by decide) min_self]
    exact isString_writeBytes _ (by decide)

end Curnel.Numerals
