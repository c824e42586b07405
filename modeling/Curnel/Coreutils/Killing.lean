/-
coreutils.c: `cmd_kill`, and what it reports.

The signal may be given by name or by number, the process by its PID as `ps` writes it or,
negative, by its group (`Asks`). `cmd_kill` takes every result of `sys_kill` but 0 for a
failure. The `sys_kill` of signals.c returns 0 when it has sent the signal, that of syscall.c
returns how many processes it has sent the signal to. So with the second one `cmd_kill`
reports success exactly where nobody has been signalled (`kill_reports_iff`).
-/

import Curnel.Coreutils
import Curnel.Numerals
import Curnel.Process.Kill

namespace Curnel.Coreutils

open Lib.Word (ofInt)
open Numerals (decimal char_of_mem_decimal atoi_decimal)
open Process

/-! ### The code -/

def SIGHUP : Nat := 1
def SIGINT : Nat := 2

/-- The argument of `-s`. -/
def signalArg (arg : List UInt8) : Option Nat :=
  if arg = text "SIGTERM" ∨ arg = text "15" then some SIGTERM
  else if arg = text "SIGKILL" ∨ arg = text "9" then some SIGKILL
  else if arg = text "SIGINT" ∨ arg = text "2" then some SIGINT
  else if arg = text "SIGHUP" ∨ arg = text "1" then some SIGHUP
  else if arg = text "SIGCONT" ∨ arg = text "18" then some SIGCONT
  else if arg = text "SIGSTOP" ∨ arg = text "19" then some SIGSTOP
  else
    let signum := atoi arg
    if signum ≤ 0 ∨ signum ≥ MAX_SIGNALS then none else some signum.toNat

/-- `signum` and `pid_arg_index`. -/
def killOptions (argv : List (List UInt8)) : Option (Nat × Nat) :=
  if argv.length ≥ 3 ∧ argv[1]? = some (text "-s") then
    (signalArg (argv[2]?.getD [])).map fun signum => (signum, 3)
  else some (SIGTERM, 1)

/-- `cmd_kill` with one of the definitions of `sys_kill`: the result, and what that leaves
where it is called. -/
def cmdKill (sysKill : Nat → Nat → State → Option Killed) (argv : List (List UInt8)) (s : State) :
    Option (Int × Option Killed) :=
  match killOptions argv with
  | none => some (-1, none)
  | some (signum, pidArgIndex) =>
      match argv[pidArgIndex]? with
      | none => some (-1, none)
      | some arg =>
          (sysKill (ofInt (atoi arg)) signum s).map fun out =>
            (if out.result ≠ 0 then -1 else 0, some out)

/-! ### What is asked for -/

/-- The signals that `cmd_kill` knows by name. -/
def signalNames : List (List UInt8 × Nat) :=
  [(text "SIGTERM", SIGTERM), (text "SIGKILL", SIGKILL), (text "SIGINT", SIGINT),
    (text "SIGHUP", SIGHUP), (text "SIGCONT", SIGCONT), (text "SIGSTOP", SIGSTOP)]

/-- The arguments ask for a signal to a PID. -/
inductive Asks : List (List UInt8) → Nat → Int → Prop where
  | plain (name : List UInt8) (pid : Int) (more : List (List UInt8)) :
      Asks (name :: decimal pid :: more) SIGTERM pid
  | named {signal : List UInt8} {signum : Nat} (known : (signal, signum) ∈ signalNames)
      (name : List UInt8) (pid : Int) (more : List (List UInt8)) :
      Asks (name :: text "-s" :: signal :: decimal pid :: more) signum pid
  | numbered {signum : Nat} (range : 0 < signum ∧ signum < MAX_SIGNALS)
      (name : List UInt8) (pid : Int) (more : List (List UInt8)) :
      Asks (name :: text "-s" :: decimal signum :: decimal pid :: more) signum pid

theorem signalArg_named {signal : List UInt8} {signum : Nat}
    (known : (signal, signum) ∈ signalNames) : signalArg signal = some signum := by
  have hall : ∀ p ∈ signalNames, signalArg p.1 = some p.2 := by decide +kernel
  exact hall _ known

/-- The numbers that are compared as text are those that `atoi` finds in it. -/
theorem signalArg_unnamed {arg : List UInt8} (h : ∀ p ∈ signalNames, arg ≠ p.1) :
    signalArg arg
      = if atoi arg ≤ 0 ∨ atoi arg ≥ MAX_SIGNALS then none else some (atoi arg).toNat := by
  have hnumbers : ∀ number ∈ ["15", "9", "2", "1", "18", "19"].map text, signalArg number
      = if atoi number ≤ 0 ∨ atoi number ≥ MAX_SIGNALS then none
        else some (atoi number).toNat := by decide +kernel
  by_cases hin : arg ∈ ["15", "9", "2", "1", "18", "19"].map text
  · exact hnumbers arg hin
  · simp only [signalNames, List.forall_mem_cons, List.not_mem_nil, false_imp_iff, implies_true,
      and_true] at h
    simp only [List.map_cons, List.map_nil, List.mem_cons, List.not_mem_nil, or_false,
      not_or] at hin
    simp only [signalArg, h, hin, or_self, if_false]

theorem notMem_decimal {c : UInt8} (hc : 57 < c) (n : Int) : c ∉ decimal n := by
  intro h
  rcases char_of_mem_decimal h with rfl | ⟨-, hle⟩
  · exact absurd hc (by decide)
  · exact absurd hc (UInt8.not_lt.mpr hle)

theorem signalArg_decimal {signum : Nat} (range : 0 < signum ∧ signum < MAX_SIGNALS) :
    signalArg (decimal signum) = some signum := by
  have hnames : ∀ p ∈ signalNames, decimal signum ≠ p.1 := by
    intro p hp heq
    have hletter : ∀ p ∈ signalNames, 83 ∈ p.1 := by decide +kernel
    exact notMem_decimal (by decide) signum (heq ▸ hletter p hp)
  simp only [MAX_SIGNALS] at range
  rw [signalArg_unnamed hnames, atoi_decimal (by omega) (by omega), if_neg (by
    simp only [MAX_SIGNALS]; omega), Int.toNat_natCast]

theorem Asks.range {argv : List (List UInt8)} {signum : Nat} {pid : Int}
    (asks : Asks argv signum pid) : 0 < signum ∧ signum < MAX_SIGNALS := by
  cases asks with
  | plain => decide
  | named known =>
      have hall : ∀ p ∈ signalNames, 0 < p.2 ∧ p.2 < MAX_SIGNALS := by decide +kernel
      exact hall _ known
  | numbered range => exact range

theorem Asks.options {argv : List (List UInt8)} {signum : Nat} {pid : Int}
    (asks : Asks argv signum pid) :
    ∃ i, killOptions argv = some (signum, i) ∧ argv[i]? = some (decimal pid) := by
  cases asks with
  | plain name pid more =>
      have hoption : decimal pid ≠ text "-s" := by
        intro heq
        have hletter : 115 ∈ text "-s" := by decide +kernel
        exact notMem_decimal (by decide) pid (heq ▸ hletter)
      refine ⟨1, if_neg fun h => hoption ?_, rfl⟩
      exact Option.some.inj h.2
  | named known name pid more =>
      refine ⟨3, (if_pos ⟨by simp, rfl⟩).trans ?_, rfl⟩
      exact congrArg (Option.map _) (signalArg_named known)
  | numbered range name pid more =>
      refine ⟨3, (if_pos ⟨by simp, rfl⟩).trans ?_, rfl⟩
      exact congrArg (Option.map _) (signalArg_decimal range)

/-- The signal asked for is sent to the PID asked for. -/
theorem cmdKill_asked {argv : List (List UInt8)} {signum : Nat} {pid : Int}
    (asks : Asks argv signum pid) (hlow : -2 ^ 31 < pid) (hhigh : pid < 2 ^ 31)
    (sysKill : Nat → Nat → State → Option Killed) (s : State) :
    cmdKill sysKill argv s = (sysKill (ofInt pid) signum s).map fun out =>
      (if out.result ≠ 0 then -1 else 0, some out) := by
  obtain ⟨i, hoptions, harg⟩ := asks.options
  rw [cmdKill, hoptions]
  dsimp only
  rw [harg]
  dsimp only
  rw [atoi_decimal hlow hhigh]

/-! ### What is reported -/

section Reports

variable {fuel signum pid : Nat} {s : State} {out : Killed}

theorem failure_ne_zero : ofInt (-1) ≠ 0 := by decide

/-- The `sys_kill` of syscall.c returns 0 where it has found nobody to signal. -/
theorem sysKill_eq_zero_iff (range : 0 < signum ∧ signum < MAX_SIGNALS) (hpid : pid < 2 ^ 64)
    (h : Syscall.sysKill fuel pid signum s = some out) :
    out.result = 0 ↔ out.targets = [] ∧ (pid = 0 → getCurrentProcess s ≠ none) := by
  have hcount : out.result = out.targets.length → (out.result = 0 ↔ out.targets = []) :=
    fun heq => by rw [heq, List.length_eq_zero_iff]
  rw [Syscall.sysKill, if_neg (by omega)] at h
  split at h
  next hzero =>
    cases hcurrent : getCurrentProcess s with
    | none =>
        rw [hcurrent] at h
        cases h
        exact iff_of_false failure_ne_zero fun h => h.2 hzero rfl
    | some current =>
        rw [hcurrent] at h
        rw [hcount (sendEach_counts range h)]
        exact (and_iff_left fun _ => Option.some_ne_none _).symm
  next hne =>
    have hsend : out.result = out.targets.length := by
      split at h
      next => exact sendEach_counts range h
      split at h
      next => exact sendEach_counts range h
      next hless heq =>
        -- no word is above -1
        have hlast : ofInt (-1) = 2 ^ 64 - 1 := by decide
        omega
    rw [hcount hsend]
    exact (and_iff_left fun h => absurd h hne).symm

/-- That of signals.c where it has signalled the process. -/
theorem sendToProcess_eq_zero_iff (range : 0 < signum ∧ signum < MAX_SIGNALS)
    (h : Signals.sysKill fuel pid signum s = some out) : out.result = 0 ↔ out.targets ≠ [] := by
  rw [Signals.sysKill, if_neg (by omega), sendToProcess] at h
  split at h
  next =>
    cases h
    exact iff_of_false failure_ne_zero fun h => h rfl
  next i _ =>
    obtain ⟨⟨result, t⟩, hsend, rfl⟩ := Option.map_eq_some_iff.mp h
    have hzero := signalSend_accepted range hsend
    subst hzero
    exact iff_of_true rfl (List.cons_ne_nil _ _)

end Reports

/-- **What `kill` reports.** Whatever signal the arguments ask for, by name or number, and
whatever PID or group: with the `sys_kill` of syscall.c, `cmd_kill` returns 0 exactly where no
process has been signalled (and there is a current one, if its group is meant), with that of
signals.c exactly where one has been. -/
theorem kill_reports_iff {argv : List (List UInt8)} {signum : Nat} {pid : Int}
    (asks : Asks argv signum pid) (hlow : -2 ^ 31 < pid) (hhigh : pid < 2 ^ 31) (fuel : Nat)
    (s : State) :
    (∀ result out, cmdKill (Syscall.sysKill fuel) argv s = some (result, out) →
        ∃ killed, out = some killed ∧ Syscall.sysKill fuel (ofInt pid) signum s = some killed ∧
          (result = 0 ↔ killed.targets = [] ∧ (pid = 0 → getCurrentProcess s ≠ none))) ∧
      (∀ result out, cmdKill (Signals.sysKill fuel) argv s = some (result, out) →
        ∃ killed, out = some killed ∧ Signals.sysKill fuel (ofInt pid) signum s = some killed ∧
          (result = 0 ↔ killed.targets ≠ [])) ∧
      (WellFormed s → enoughFuel ≤ fuel →
        (cmdKill (Syscall.sysKill fuel) argv s ≠ none) ∧
          cmdKill (Signals.sysKill fuel) argv s ≠ none) := by
  have hreport : ∀ killed : Killed, (if killed.result ≠ 0 then (-1 : Int) else 0) = 0 ↔
      killed.result = 0 := by
    intro killed
    split <;> simp_all
  have hlt : ofInt pid < 2 ^ 64 := by
    unfold ofInt
    omega
  have hzero : ofInt pid = 0 ↔ pid = 0 := by
    unfold ofInt
    omega
  refine ⟨fun result out h => ?_, fun result out h => ?_, fun wf hfuel => ?_⟩
  · rw [cmdKill_asked asks hlow hhigh] at h
    obtain ⟨killed, hkill, heq⟩ := Option.map_eq_some_iff.mp h
    obtain ⟨rfl, rfl⟩ := Prod.mk.inj heq
    refine ⟨killed, rfl, hkill, ?_⟩
    rw [hreport, sysKill_eq_zero_iff asks.range hlt hkill, hzero]
  · rw [cmdKill_asked asks hlow hhigh] at h
    obtain ⟨killed, hkill, heq⟩ := Option.map_eq_some_iff.mp h
    obtain ⟨rfl, rfl⟩ := Prod.mk.inj heq
    refine ⟨killed, rfl, hkill, ?_⟩
    rw [hreport, sendToProcess_eq_zero_iff asks.range hkill]
  · obtain ⟨killed, hkill⟩ := @Syscall.sysKill_returns fuel (ofInt pid) signum s wf hfuel
    obtain ⟨killed', hkill'⟩ := @Signals.sysKill_returns fuel (ofInt pid) signum s wf hfuel
    rw [cmdKill_asked asks hlow hhigh, cmdKill_asked asks hlow hhigh, hkill, hkill']
    exact ⟨Option.some_ne_none _, Option.some_ne_none _⟩

/-- `kill 2`, with process 2 there. -/
theorem kill_reports_iff_child :
    (∃ killed, cmdKill (Syscall.sysKill 1) [text "kill", decimal 2] initAndChild
        = some (0, some killed) ∧ killed.targets = []) ∧
      ∃ killed, cmdKill (Signals.sysKill 1) [text "kill", decimal 2] initAndChild
        = some (0, some killed) ∧ killed.targets ≠ [] := by
  obtain ⟨hsyscall, hsignals, -⟩ := kill_reports_iff (.plain (text "kill") 2 []) (by decide)
    (by decide) 1 initAndChild
  have hresults : (cmdKill (Syscall.sysKill 1) [text "kill", decimal 2] initAndChild).map Prod.fst
        = some 0 ∧
      (cmdKill (Signals.sysKill 1) [text "kill", decimal 2] initAndChild).map Prod.fst
        = some 0 := by
    constructor <;> decide +kernel
  obtain ⟨⟨result, out⟩, hrun, heq⟩ := Option.map_eq_some_iff.mp hresults.1
  obtain ⟨⟨result', out'⟩, hrun', heq'⟩ := Option.map_eq_some_iff.mp hresults.2
  dsimp only at heq heq'
  subst heq
  subst heq'
  obtain ⟨killed, rfl, -, hnobody⟩ := hsyscall _ _ hrun
  obtain ⟨killed', rfl, -, hsomebody⟩ := hsignals _ _ hrun'
  exact ⟨⟨killed, hrun, (hnobody.mp rfl).1⟩, killed', hrun', hsomebody.mp rfl⟩

end Curnel.Coreutils
