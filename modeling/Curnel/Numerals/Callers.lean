/-
The buffers that `int_to_string` is given.

Each caller has an array on its stack for the digits of a value that it has not looked at:
an argument of 64 bits is narrowed to an `int` on the way, and may come out with a sign.
`int_to_string_fits_iff` says which values each of them has room for, and `narrow_buffers`
names some that do not fit.
-/

import Curnel.Numerals

namespace Curnel.Numerals

open Lib.Bytes Lib.Word Process

/-- kernel.c and idt.c define the same function. -/
inductive Version where
  | kernel
  | idt
deriving DecidableEq

def intToString : Version → Int → Store → Store
  | .kernel => kernelIntToString
  | .idt => idtIntToString

/-! ### The callers -/

/-- A call of `int_to_string`, with the value that it is given. -/
inductive Site where
  | syscallHandler (rax : Nat)
  | isrHandler (intNo : Nat)
  | createProcess (pid : Nat)
  | exitProcessPid (pid : Nat)
  | exitProcessCode (exitCode : Nat)
  | stopProcess (pid : Nat)
  | continueProcess (pid : Nat)
  | timerInit (frequency : Nat)
  | pagingInit (megabytes : Nat)
  | testSignalHandler (signum : Nat)
  | kernelMain (shellPid : Nat)

namespace Site

/-- The size of the caller's array. -/
def size : Site → Nat
  | syscallHandler _ => 5
  | isrHandler _ => 3
  | createProcess _ => 10
  | exitProcessPid _ => 10
  | exitProcessCode _ => 10
  | stopProcess _ => 10
  | continueProcess _ => 10
  | timerInit _ => 10
  | pagingInit _ => 32
  | testSignalHandler _ => 5
  | kernelMain _ => 5

/-- What the caller passes on, before it is narrowed. -/
def value : Site → Nat
  | syscallHandler rax => rax
  | isrHandler intNo => intNo
  | createProcess pid => pid
  | exitProcessPid pid => pid
  | exitProcessCode exitCode => exitCode
  | stopProcess pid => pid
  | continueProcess pid => pid
  | timerInit frequency => frequency
  | pagingInit megabytes => megabytes
  | testSignalHandler signum => signum
  | kernelMain shellPid => shellPid

def num (site : Site) : Int := toInt32 site.value

end Site

/-- `syscall_table` has a function at this number. -/
def ValidCall (rax : Nat) : Prop := 1 ≤ rax ∧ rax ≤ 26

/-- The values that reach the calls. -/
inductive Reached : Site → Prop where
  | syscallHandler {rax : Nat} (hrax : rax < 2 ^ 64) (hinvalid : ¬ ValidCall rax) :
      Reached (.syscallHandler rax)
  | isrHandler {intNo : Nat} (h : intNo < 256) : Reached (.isrHandler intNo)
  | createProcess {pid : Nat} (h : pid < 2 ^ 64) : Reached (.createProcess pid)
  | exitProcessPid {pid : Nat} (h : pid < 2 ^ 64) : Reached (.exitProcessPid pid)
  | exitProcessCode {exitCode : Nat} (h : exitCode < 2 ^ 64) : Reached (.exitProcessCode exitCode)
  | stopProcess {pid : Nat} (h : pid < 2 ^ 64) : Reached (.stopProcess pid)
  | continueProcess {pid : Nat} (h : pid < 2 ^ 64) : Reached (.continueProcess pid)
  | timerInit {frequency : Nat} (h : frequency < 2 ^ 32) : Reached (.timerInit frequency)
  | pagingInit {megabytes : Nat} (h : megabytes < 2 ^ 44) : Reached (.pagingInit megabytes)
  | testSignalHandler {signum : Nat} (h : signum < 2 ^ 32) : Reached (.testSignalHandler signum)
  | kernelMain {shellPid : Nat} (h : shellPid < 2 ^ 64) : Reached (.kernelMain shellPid)

/-- Whatever is behind the array, the call leaves it alone. -/
def Fits (version : Version) (site : Site) : Prop :=
  ∀ str : Store, Frame str (intToString version site.num str) 0 site.size

/-- A digit less for a sign. The sign that idt.c writes for the smallest `int` always fits. -/
def Short (version : Version) (site : Site) : Prop :=
  (-10 ^ (site.size - 2) < site.num ∧ site.num < 10 ^ (site.size - 1)) ∨
    (version = .idt ∧ site.num = -2 ^ 31)

/-! ### Lengths -/

theorem frame_writeBytes_iff {bytes : List UInt8} {size : Nat} :
    (∀ str, Frame str (writeBytes str 0 bytes) 0 size) ↔ bytes.length ≤ size := by
  constructor
  · intro frame
    by_contra hlong
    have hsize : size < bytes.length := Nat.lt_of_not_le hlong
    have hout : size ∉ Set.Ico 0 size := fun hin => Nat.lt_irrefl size hin.2
    have hbyte := writeBytes_add (m := fun _ => bytes.getD size 0 + 1) (a := 0) hsize
    have hsame := frame (fun _ => bytes.getD size 0 + 1) hout
    rw [Nat.zero_add] at hbyte
    rw [hbyte] at hsame
    grind
  · intro hlength str
    exact (writeBytes_frame str 0 bytes).widen (Nat.le_refl 0) (by omega)

theorem length_decimal_le_iff {num : Int} {size : Nat} (hsize : 2 ≤ size) :
    (decimal num ++ [0]).length ≤ size ↔ -10 ^ (size - 2) < num ∧ num < 10 ^ (size - 1) := by
  have hlow : ((10 ^ (size - 2) : Nat) : Int) = 10 ^ (size - 2) := by norm_cast
  have hhigh : ((10 ^ (size - 1) : Nat) : Int) = 10 ^ (size - 1) := by norm_cast
  have hlowPos : 0 < 10 ^ (size - 2) := Nat.pow_pos (by decide)
  have hhighPos : 0 < 10 ^ (size - 1) := Nat.pow_pos (by decide)
  have hdigits : ∀ k, (Nat.digits 10 num.natAbs).length ≤ k ↔ num.natAbs < 10 ^ k :=
    fun k => Nat.digits_length_le_iff (by decide) num.natAbs
  rw [← hlow, ← hhigh]
  by_cases hzero : num = 0
  · subst hzero
    refine iff_of_true hsize ⟨?_, ?_⟩ <;> omega
  · have hlength : (decimal num).length
        = (Nat.digits 10 num.natAbs).length + (signChars num).length := by
      rw [decimal_eq hzero, List.length_reverse, List.length_append, signedDigits, List.length_map]
    rw [List.length_append, List.length_singleton, hlength, signChars]
    split
    next hneg =>
      have hbound := hdigits (size - 2)
      rw [List.length_singleton]
      omega
    next hnonneg =>
      have hbound := hdigits (size - 1)
      rw [List.length_nil]
      omega

theorem two_le_size (site : Site) : 2 ≤ site.size := by
  cases site <;> simp [Site.size]

theorem fits_of_writes {version : Version} {site : Site} {chars : List UInt8}
    (hlength : chars.length = (decimal site.num ++ [0]).length)
    (hwrites : ∀ str, intToString version site.num str = writeBytes str 0 chars) :
    Fits version site ↔ -10 ^ (site.size - 2) < site.num ∧ site.num < 10 ^ (site.size - 1) := by
  rw [← length_decimal_le_iff (two_le_size site), ← hlength, ← frame_writeBytes_iff, Fits]
  simp only [hwrites]

theorem fits_above_min {version : Version} {site : Site} (hlow : -2 ^ 31 < site.num) :
    Fits version site ↔ -10 ^ (site.size - 2) < site.num ∧ site.num < 10 ^ (site.size - 1) := by
  have hhigh : site.num < 2 ^ 31 := toInt32_lt _
  cases version with
  | kernel => exact fits_of_writes rfl (kernelIntToString_decimal hlow hhigh)
  | idt => exact fits_of_writes rfl (idtIntToString_decimal hlow hhigh)

/-- kernel.c writes as many characters for the smallest `int` as its digits and its sign. -/
theorem fits_kernel_min {site : Site} (hmin : site.num = -2 ^ 31) :
    Fits .kernel site ↔ -10 ^ (site.size - 2) < site.num ∧ site.num < 10 ^ (site.size - 1) := by
  have hnum : (if site.num < 0 then int32 (-site.num) else site.num) = -1 * (2 ^ 31 : Nat) := by
    rw [hmin, if_pos (by decide), min_self]
    rfl
  refine fits_of_writes ?_ (kernelIntToString_eq (Or.inr rfl) (by decide) hnum)
  rw [hmin, decimal_eq (by decide)]
  simp [signedDigits]

/-- idt.c writes a sign and the NUL. -/
theorem fits_idt_min {site : Site} (hmin : site.num = -2 ^ 31) : Fits .idt site := by
  intro str
  rw [intToString, hmin, idtIntToString_self (by decide) min_self]
  exact (writeBytes_frame str 0 _).widen (Nat.le_refl 0) (two_le_size site)

/-- A caller's array is long enough exactly for the values that have few enough digits. -/
theorem int_to_string_fits_iff (version : Version) (site : Site) :
    Fits version site ↔ Short version site := by
  rcases eq_or_lt_of_le (show -2 ^ 31 ≤ site.num from BitVec.le_toInt _) with hmin | hlow
  · cases version with
    | kernel =>
        rw [fits_kernel_min hmin.symm]
        simp [Short]
    | idt => exact iff_of_true (fits_idt_min hmin.symm) (Or.inr ⟨rfl, hmin.symm⟩)
  · rw [fits_above_min hlow, Short]
    exact (or_iff_left fun hmin => hlow.ne' hmin.2).symm

/-- Values that do not fit: the number of a system call, an interrupt, an exit code. -/
theorem narrow_buffers :
    (Reached (.syscallHandler 10000) ∧ ∀ version, ¬ Fits version (.syscallHandler 10000)) ∧
    (Reached (.isrHandler 100) ∧ ∀ version, ¬ Fits version (.isrHandler 100)) ∧
    (Reached (.exitProcessCode 1000000000) ∧
      ∀ version, ¬ Fits version (.exitProcessCode 1000000000)) := by
  have hlong : ∀ {version site}, -2 ^ 31 < site.num ∧ 10 ^ (site.size - 1) ≤ site.num →
      ¬ Fits version site := by
    rintro version site ⟨hlow, hlarge⟩ fits
    exact absurd ((fits_above_min hlow).mp fits).2 (not_lt.mpr hlarge)
  refine ⟨⟨.syscallHandler (by decide) ?_, fun version => hlong (by decide)⟩,
    ⟨.isrHandler (by decide), fun version => hlong (by decide)⟩,
    ⟨.exitProcessCode (by decide), fun version => hlong (by decide)⟩⟩
  unfold ValidCall
  omega

end Curnel.Numerals
