/-
A counter that wraps, and a divider behind it.

A counter goes through 1, 2, …, `W - 1`, 0, 1, …, and something happens whenever `q` divides
it. As long as it has not wrapped that is every `q` counts (`beats_of_lt`); where it
wraps, it happens at 0 although the counts since the last time may be fewer than `q`
(`beats_eq_div_iff`).
-/

import Mathlib.Data.Nat.Basic
import Mathlib.Tactic.Ring

namespace Lib

/-- How often `q` divides the counter in the first `n` counts. -/
def beats (W q : Nat) : Nat → Nat
  | 0 => 0
  | n + 1 => beats W q n + if (n + 1) % W % q = 0 then 1 else 0

variable {W q : Nat}

/-- A full turn has a beat at 0 and one at each multiple of `q` below `W`. -/
theorem beats_eq (hW : 0 < W) (n : Nat) :
    beats W q n = n / W * ((W - 1) / q + 1) + n % W / q := by
  induction n with
  | zero => simp [beats]
  | succ n ih =>
      have hn := Nat.div_add_mod n W
      have hlt := Nat.mod_lt n hW
      rw [beats, ih]
      rcases Nat.lt_or_ge (n % W + 1) W with hinside | hend
      · have hdiv : (n + 1) / W = n / W := by
          rw [Nat.div_eq_iff hW]
          rw [Nat.mul_comm] at hn
          omega
        have hmod : (n + 1) % W = n % W + 1 := by
          rw [Nat.add_mod, Nat.mod_eq_of_lt (show 1 < W by omega), Nat.mod_eq_of_lt hinside]
        rw [hdiv, hmod]
        by_cases hbeat : (n % W + 1) % q = 0
        · rw [if_pos hbeat, Nat.succ_div_of_mod_eq_zero hbeat]
          omega
        · rw [if_neg hbeat, Nat.succ_div_of_mod_ne_zero hbeat, Nat.add_zero]
      · -- the counter wraps
        have hlast : n % W = W - 1 := by omega
        have hsum : n + 1 = W * (n / W + 1) := by
          rw [Nat.mul_add, Nat.mul_one]
          omega
        have hdiv : (n + 1) / W = n / W + 1 := by
          rw [hsum, Nat.mul_div_cancel_left _ hW]
        have hmod : (n + 1) % W = 0 := by
          rw [hsum, Nat.mul_mod_right]
        rw [hdiv, hmod, hlast, Nat.zero_mod, if_pos rfl, Nat.zero_div, Nat.add_mul, Nat.one_mul]
        omega

theorem beats_of_lt {n : Nat} (hn : n < W) : beats W q n = n / q := by
  rw [beats_eq (by omega), Nat.div_eq_of_lt hn, Nat.mod_eq_of_lt hn, Nat.zero_mul, Nat.zero_add]

/-- By how much a full turn falls short of the next multiple of `q`. -/
theorem turn_eq (hW : 0 < W) (hq : 0 < q) : q * ((W - 1) / q + 1) = W + (q - W % q) % q := by
  have hdiv := Nat.div_add_mod (W - 1) q
  have hlt := Nat.mod_lt (W - 1) hq
  have hturn : W = q * ((W - 1) / q) + ((W - 1) % q + 1) := by omega
  have hmod : W % q = ((W - 1) % q + 1) % q := by
    conv_lhs => rw [hturn]
    rw [Nat.mul_add_mod]
  rw [Nat.mul_add, Nat.mul_one, hmod]
  rcases Nat.lt_or_ge ((W - 1) % q + 1) q with hinside | hend
  · rw [Nat.mod_eq_of_lt hinside, Nat.mod_eq_of_lt (by omega)]
    omega
  · have hlast : (W - 1) % q + 1 = q := by omega
    rw [hlast, Nat.mod_self, Nat.sub_zero, Nat.mod_self]
    omega

/-- There is a beat every `q` counts exactly if what the turns fall short by in all is no
more than what is over in the last of them. -/
theorem beats_eq_div_iff (hW : 0 < W) (hq : 0 < q) (n : Nat) :
    beats W q n = n / q ↔ n / W * ((q - W % q) % q) ≤ n % W % q := by
  have hturn := turn_eq hW hq
  have hn := Nat.div_add_mod n W
  have hrest := Nat.div_add_mod (n % W) q
  have hlt := Nat.mod_lt (n % W) hq
  rw [beats_eq hW]
  generalize n / W = turns at *
  generalize n % W = b at *
  generalize (W - 1) / q + 1 = each at *
  generalize (q - W % q) % q = short at *
  generalize b / q = whole at *
  generalize b % q = left at *
  have hall : n + turns * short = (turns * each + whole) * q + left := by
    calc n + turns * short = turns * (W + short) + b := by rw [← hn]; ring
      _ = turns * (q * each) + (q * whole + left) := by rw [hturn, hrest]
      _ = (turns * each + whole) * q + left := by ring
  rw [eq_comm, Nat.div_eq_iff hq]
  omega

end Lib
