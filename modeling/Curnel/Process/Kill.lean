/-
The two definitions of `sys_kill`, and the processes they signal.

`syscall.c` tells single processes, groups and all processes apart by comparing
an unsigned `pid` with -1; `signals.c` knows single processes only. `Addressed`
says whom a `pid` read as a signed number means, and `sys_kill_addresses_iff` for
which tables and pids each definition calls `signal_send` on exactly these. A group that
is killed is killed whole (`kill_group`), although every exit enters the scheduler.
-/

import Mathlib.Data.List.Nodup
import Curnel.Process.Parked

namespace Curnel.Process

open Lib Word

/-! ### Sending to several processes -/

/-- What a `sys_kill` leaves behind. `targets` is no value of the code: it lists
the slots that `signal_send` was called on, in order. -/
structure Killed where
  result : Nat
  targets : List Slot
  state : State

/-- The loop `if (process) if (signal_send(process, signum) == 0) sent++`, over
the processes that `pick` finds. -/
def sendEach {α : Type} (fuel : Nat) (signum : Int) (pick : α → State → Option Slot) :
    List α → State → Option Killed
  | [], s => some ⟨0, [], s⟩
  | a :: rest, s =>
      match pick a s with
      | none => sendEach fuel signum pick rest s
      | some i =>
          match signalSend fuel i signum s with
          | none => none
          | some (r, s) =>
              (sendEach fuel signum pick rest s).map fun out =>
                ⟨if r = 0 then out.result + 1 else out.result, i :: out.targets, out.state⟩

/-- The test on the process in slot `i` in `send_signal_to_process_group`. -/
def groupMember (pgid : Nat) (i : Slot) (s : State) : Option Slot :=
  if (s.processes i).pid ≠ 0 ∧ (s.processes i).processGroup = pgid then some i else none

def sendSignalToProcessGroup (fuel pgid : Nat) (signum : Int) (s : State) : Option Killed :=
  sendEach fuel signum (groupMember pgid) (List.finRange MAX_PROCESSES) s

/-- `get_process(i)`, and the test on what it returns. -/
def liveProcess (pid : Nat) (s : State) : Option Slot :=
  match getProcess pid s with
  | none => none
  | some i => if (s.processes i).pid ≠ 0 then some i else none

/-- `signal_send(get_process(pid), signum)`, or -1. -/
def sendToProcess (fuel pid : Nat) (signum : Int) (s : State) : Option Killed :=
  match getProcess pid s with
  | none => some ⟨ofInt (-1), [], s⟩
  | some i => (signalSend fuel i signum s).map fun out => ⟨ofInt out.1, [i], out.2⟩

/-- `sys_kill` of `syscall.c`. `-1` is converted to 64 bits, so that the last
branch is never taken. -/
def Syscall.sysKill (fuel pid signum : Nat) (s : State) : Option Killed :=
  if signum ≥ MAX_SIGNALS then some ⟨ofInt (-1), [], s⟩
  else if pid = 0 then
    match getCurrentProcess s with
    | none => some ⟨ofInt (-1), [], s⟩
    | some current => sendSignalToProcessGroup fuel (s.processes current).processGroup signum s
  else if pid < ofInt (-1) then sendSignalToProcessGroup fuel (Word.wsub 64 0 pid) signum s
  else if pid = ofInt (-1) then sendEach fuel signum liveProcess (List.range MAX_PROCESSES) s
  else sendToProcess fuel pid signum s

/-- `sys_kill` of `signals.c`. -/
def Signals.sysKill (fuel pid signum : Nat) (s : State) : Option Killed :=
  if signum ≥ MAX_SIGNALS then some ⟨ofInt (-1), [], s⟩
  else sendToProcess fuel pid signum s

/-! ### The processes addressed -/

/-- A 64-bit word read as a signed number. -/
def toSigned (n : Nat) : Int := if n < 2 ^ 63 then n else n - 2 ^ 64

/-- `pid`, read as a signed number, means the process in slot `i`. -/
def Addressed (pid : Nat) (s : State) (i : Slot) : Prop :=
  (s.processes i).pid ≠ 0 ∧
    if 0 < toSigned pid then ((s.processes i).pid : Int) = toSigned pid
    else if toSigned pid = 0 then
      ∃ current, getCurrentProcess s = some current ∧
        (s.processes i).processGroup = (s.processes current).processGroup
    else if toSigned pid = -1 then True
    else ((s.processes i).processGroup : Int) = - toSigned pid

/-- `signal_send` is called once on each process that `pid` means, and on no
other; where a positive `pid` means none the result is -1. -/
structure KillsAddressed (pid : Nat) (s : State) (out : Killed) : Prop where
  nodup : out.targets.Nodup
  targets : ∀ i, i ∈ out.targets ↔ Addressed pid s i
  missing : 0 < toSigned pid → (∀ i, ¬ Addressed pid s i) → out.result = ofInt (-1)

/-- The tables on which `sys_kill` of `syscall.c` signals exactly whom `pid` means. -/
def Syscall.KillsExactly (pid : Nat) (s : State) : Prop :=
  if 0 < toSigned pid then
    ∃ i, (s.processes i).pid = pid ∧
      ∀ j, (s.processes j).pid ≠ 0 → ((s.processes j).processGroup = 2 ^ 64 - pid ↔ j = i)
  else if toSigned pid = -1 then
    ∀ i, (s.processes i).pid ≠ 0 → (s.processes i).pid < MAX_PROCESSES
  else True

/-- The tables on which `sys_kill` of `signals.c` does. -/
def Signals.KillsExactly (pid : Nat) (s : State) : Prop :=
  if 0 < toSigned pid then True
  else if toSigned pid = 0 then False
  else if toSigned pid = -1 then ∀ i, (s.processes i).pid ≠ 0 → (s.processes i).pid = pid
  else
    ∀ i, (s.processes i).pid ≠ 0 →
      ((s.processes i).processGroup = 2 ^ 64 - pid ↔ (s.processes i).pid = pid)

/-! ### What `sendEach` signals -/

/-- A signal that there is can be sent. -/
theorem signalSend_accepted {fuel signum : Nat} {i : Slot} {result : Int} {s t : State}
    (range : 0 < signum ∧ signum < MAX_SIGNALS)
    (h : signalSend fuel i signum s = some (result, t)) : result = 0 := by
  have haccepted : ¬ ((signum : Int) ≤ 0 ∨ (signum : Int) ≥ MAX_SIGNALS) := by
    simp only [MAX_SIGNALS] at range ⊢
    omega
  have hpending : (signalAddPending i signum s).1 = 0 := by
    rw [signalAddPending, if_neg haccepted]
    split
    · rfl
    · split <;> rfl
  cases fuel with
  | zero => simp [signalSend] at h
  | succ fuel =>
      rw [signalSend, if_neg haccepted] at h
      split at h
      · obtain ⟨_, -, heq⟩ := Option.map_eq_some_iff.mp h
        exact (Prod.mk.inj heq).1.symm
      split at h
      · obtain ⟨_, -, heq⟩ := Option.map_eq_some_iff.mp h
        exact (Prod.mk.inj heq).1.symm
      split at h
      · split at h <;> exact (Prod.mk.inj (Option.some.inj h)).1.symm
      · rw [← hpending, Option.some.inj h]

section SendEach

variable {α : Type} {pick : α → State → Option Slot}

/-- Sending changes neither PIDs nor groups: what is found is what was there at first. -/
theorem sendEach_targets (hpick : ∀ a s s', Evolves s s' → pick a s' = pick a s) {fuel : Nat}
    {signum : Int} {items : List α} {s : State} {out : Killed}
    (h : sendEach fuel signum pick items s = some out) :
    out.targets = items.filterMap (pick · s) := by
  induction items generalizing s out with
  | nil =>
      cases h
      rfl
  | cons a rest ih =>
      rw [sendEach] at h
      cases hfind : pick a s with
      | none =>
          rw [hfind] at h
          simp only [List.filterMap_cons, hfind]
          exact ih h
      | some i =>
          simp only [hfind] at h
          simp only [List.filterMap_cons, hfind]
          split at h
          next => cases h
          next r t hsend =>
            have evolves := (evolves_calls fuel).signalSend hsend
            obtain ⟨later, hlater, rfl⟩ := Option.map_eq_some_iff.mp h
            have hsame : rest.filterMap (pick · t) = rest.filterMap (pick · s) :=
              List.filterMap_congr fun b _ => hpick b s t evolves
            rw [← hsame, ← ih hlater]

/-- It counts at most one signal for each item. -/
theorem sendEach_result_le {fuel : Nat} {signum : Int} {items : List α} {s : State}
    {out : Killed} (h : sendEach fuel signum pick items s = some out) :
    out.result ≤ items.length := by
  induction items generalizing s out with
  | nil =>
      cases h
      exact Nat.le_refl 0
  | cons a rest ih =>
      rw [sendEach] at h
      split at h
      next => exact (ih h).trans (Nat.le_succ _)
      next =>
        split at h
        next => cases h
        next =>
          obtain ⟨later, hlater, rfl⟩ := Option.map_eq_some_iff.mp h
          have hle := ih hlater
          simp only [List.length_cons]
          split <;> omega

/-- Every process that a signal has been sent to is counted. -/
theorem sendEach_counts {fuel signum : Nat} {items : List α} {s : State} {out : Killed}
    (range : 0 < signum ∧ signum < MAX_SIGNALS)
    (h : sendEach fuel signum pick items s = some out) : out.result = out.targets.length := by
  induction items generalizing s out with
  | nil =>
      cases h
      rfl
  | cons a rest ih =>
      rw [sendEach] at h
      split at h
      next => exact ih h
      next =>
        split at h
        next => cases h
        next r t hsend =>
          obtain ⟨later, hlater, rfl⟩ := Option.map_eq_some_iff.mp h
          rw [if_pos (signalSend_accepted range hsend), ih hlater, List.length_cons]

theorem sendEach_returns {fuel : Nat} {signum : Int} {items : List α} {s : State}
    (wf : WellFormed s) (hfuel : enoughFuel ≤ fuel) :
    ∃ out, sendEach fuel signum pick items s = some out := by
  induction items generalizing s with
  | nil => exact ⟨_, rfl⟩
  | cons a rest ih =>
      rw [sendEach]
      split
      next => exact ih wf
      next i _ =>
        obtain ⟨⟨r, t⟩, hsend⟩ := @signalSend_returns fuel i signum s wf hfuel
        obtain ⟨later, hlater⟩ := ih (wf.evolves ((evolves_calls fuel).signalSend hsend))
        rw [hsend]
        exact ⟨_, Option.map_eq_some_iff.mpr ⟨later, hlater, rfl⟩⟩

end SendEach

theorem groupMember_evolves (pgid : Nat) (i : Slot) (s s' : State) (h : Evolves s s') :
    groupMember pgid i s' = groupMember pgid i s := by
  rw [groupMember, groupMember, h.pid_eq i, h.processGroup_eq i]

theorem liveProcess_evolves (pid : Nat) (s s' : State) (h : Evolves s s') :
    liveProcess pid s' = liveProcess pid s := by
  simp only [liveProcess, getProcess_congr h.pid_eq, h.pid_eq]

/-- With unique PIDs, a process is found exactly under its PID. -/
theorem getProcess_eq_some_iff {s : State} (unique : UniquePids s) {pid : Nat} (hpid : pid ≠ 0)
    {i : Slot} : getProcess pid s = some i ↔ (s.processes i).pid = pid := by
  constructor
  · exact getProcess_pid
  · rintro rfl
    exact getProcess_of_pid unique hpid

/-- `send_signal_to_process_group` signals each live member of the group once. -/
theorem sendSignalToProcessGroup_targets {fuel pgid : Nat} {signum : Int} {s : State}
    {out : Killed} (h : sendSignalToProcessGroup fuel pgid signum s = some out) :
    out.targets.Nodup ∧
      ∀ i, i ∈ out.targets ↔ (s.processes i).pid ≠ 0 ∧ (s.processes i).processGroup = pgid := by
  unfold sendSignalToProcessGroup at h
  rw [sendEach_targets (groupMember_evolves pgid) h]
  constructor
  · refine List.Nodup.filterMap (fun i j k hi hj => ?_) (List.nodup_finRange _)
    simp only [groupMember, Option.mem_def, Option.ite_none_right_eq_some] at hi hj
    exact (Option.some.inj hi.2).trans (Option.some.inj hj.2).symm
  · intro i
    simp [groupMember]

/-- The loop for `pid == -1` signals the live processes with a PID below 64. -/
theorem sendAll_targets {fuel : Nat} {signum : Int} {s : State} {out : Killed}
    (unique : UniquePids s)
    (h : sendEach fuel signum liveProcess (List.range MAX_PROCESSES) s = some out) :
    out.targets.Nodup ∧
      ∀ i, i ∈ out.targets ↔ (s.processes i).pid ≠ 0 ∧ (s.processes i).pid < MAX_PROCESSES := by
  have hlive : ∀ {pid i}, liveProcess pid s = some i ↔
      (s.processes i).pid ≠ 0 ∧ (s.processes i).pid = pid := by
    intro pid i
    unfold liveProcess
    constructor
    · intro h
      split at h
      next => cases h
      next j hj =>
        obtain ⟨hpid, hij⟩ := Option.ite_none_right_eq_some.mp h
        cases hij
        exact ⟨hpid, getProcess_pid hj⟩
    · rintro ⟨hpid, rfl⟩
      simp only [getProcess_of_pid unique hpid]
      rw [if_pos hpid]
  rw [sendEach_targets liveProcess_evolves h]
  constructor
  · refine List.Nodup.filterMap (fun m n k hm hn => ?_) List.nodup_range
    exact (hlive.mp hm).2.symm.trans (hlive.mp hn).2
  · intro i
    simp only [List.mem_filterMap, List.mem_range, hlive]
    constructor
    · rintro ⟨pid, hlt, hpid, rfl⟩
      exact ⟨hpid, hlt⟩
    · rintro ⟨hpid, hlt⟩
      exact ⟨_, hlt, hpid, rfl⟩

/-- `signal_send` to the process found, and to no other. -/
theorem sendToProcess_targets {fuel pid : Nat} {signum : Int} {s : State} {out : Killed}
    (h : sendToProcess fuel pid signum s = some out) :
    out.targets.Nodup ∧ (∀ i, i ∈ out.targets ↔ getProcess pid s = some i) ∧
      (getProcess pid s = none → out.result = ofInt (-1)) := by
  unfold sendToProcess at h
  split at h
  next hnone =>
    cases h
    rw [hnone]
    exact ⟨List.nodup_nil, by simp, fun _ => rfl⟩
  next i hsome =>
    obtain ⟨sent, -, rfl⟩ := Option.map_eq_some_iff.mp h
    rw [hsome]
    exact ⟨List.nodup_singleton i, by simp [eq_comm], by simp⟩

/-! ### The four kinds of `pid` -/

theorem addressed_of_pos {pid : Nat} {s : State} {i : Slot} (hpos : 0 < pid)
    (hsmall : pid < 2 ^ 63) :
    Addressed pid s i ↔ (s.processes i).pid ≠ 0 ∧ (s.processes i).pid = pid := by
  have hsigned : toSigned pid = pid := if_pos hsmall
  rw [Addressed, hsigned, if_pos (by omega), Nat.cast_inj]

theorem addressed_zero {s : State} {i : Slot} :
    Addressed 0 s i ↔ (s.processes i).pid ≠ 0 ∧ ∃ current, getCurrentProcess s = some current ∧
      (s.processes i).processGroup = (s.processes current).processGroup := by
  have hsigned : toSigned 0 = 0 := rfl
  rw [Addressed, hsigned, if_neg (by omega), if_pos rfl]

theorem addressed_all {s : State} {i : Slot} :
    Addressed (2 ^ 64 - 1) s i ↔ (s.processes i).pid ≠ 0 := by
  have hsigned : toSigned (2 ^ 64 - 1) = -1 := rfl
  rw [Addressed, hsigned, if_neg (by omega), if_neg (by omega), if_pos rfl, and_true]

theorem addressed_group {pid : Nat} {s : State} {i : Slot} (hlarge : 2 ^ 63 ≤ pid)
    (hlt : pid < 2 ^ 64 - 1) :
    Addressed pid s i ↔
      (s.processes i).pid ≠ 0 ∧ (s.processes i).processGroup = 2 ^ 64 - pid := by
  have hsigned : toSigned pid = pid - 2 ^ 64 := if_neg (by omega)
  rw [Addressed, hsigned, if_neg (by omega), if_neg (by omega), if_neg (by omega)]
  omega

/-- The targets are what `pid` means. -/
theorem killsAddressed_iff {pid : Nat} {s : State} {out : Killed} {target : Slot → Prop}
    (h : out.targets.Nodup ∧ ∀ i, i ∈ out.targets ↔ target i) :
    KillsAddressed pid s out ↔
      (∀ i, target i ↔ Addressed pid s i) ∧
        (0 < toSigned pid → (∀ i, ¬ Addressed pid s i) → out.result = ofInt (-1)) := by
  constructor
  · intro kills
    exact ⟨fun i => (h.2 i).symm.trans (kills.targets i), kills.missing⟩
  · rintro ⟨htarget, hmissing⟩
    exact ⟨h.1, fun i => (h.2 i).trans (htarget i), hmissing⟩

theorem toSigned_pos_iff {pid : Nat} (hpid : pid < 2 ^ 64) :
    0 < toSigned pid ↔ 0 < pid ∧ pid < 2 ^ 63 := by
  unfold toSigned
  split <;> omega

theorem toSigned_eq_zero_iff {pid : Nat} (hpid : pid < 2 ^ 64) : toSigned pid = 0 ↔ pid = 0 := by
  unfold toSigned
  split <;> omega

theorem toSigned_eq_neg_one_iff {pid : Nat} (hpid : pid < 2 ^ 64) :
    toSigned pid = -1 ↔ pid = 2 ^ 64 - 1 := by
  unfold toSigned
  split <;> omega

/-- `-pid`, in 64 bits. -/
theorem wsub_zero {pid : Nat} (hpos : 0 < pid) : Word.wsub 64 0 pid = 2 ^ 64 - pid := by
  unfold Word.wsub
  omega

/-! ### The definition in `syscall.c` -/

/-- A positive `pid` is taken for the group `2 ^ 64 - pid`. -/
theorem Syscall.kills_process_iff {fuel pid signum : Nat} {s : State} {out : Killed}
    (unique : UniquePids s) (hpos : 0 < pid) (hsmall : pid < 2 ^ 63)
    (hsignum : signum < MAX_SIGNALS)
    (h : Syscall.sysKill fuel pid signum s = some out) :
    KillsAddressed pid s out ↔
      ∃ i, (s.processes i).pid = pid ∧
        ∀ j, (s.processes j).pid ≠ 0 → ((s.processes j).processGroup = 2 ^ 64 - pid ↔ j = i) := by
  have hless : pid < ofInt (-1) := hsmall.trans (by decide)
  rw [Syscall.sysKill, if_neg (by omega), if_neg (by omega), if_pos hless, wsub_zero hpos] at h
  have hfew : out.result ≠ ofInt (-1) := by
    have hle : out.result ≤ MAX_PROCESSES := by
      have := sendEach_result_le h
      rwa [List.length_finRange] at this
    have hlarge : MAX_PROCESSES < ofInt (-1) := by decide
    omega
  rw [killsAddressed_iff (sendSignalToProcessGroup_targets h)]
  constructor
  · rintro ⟨htarget, hmissing⟩
    have hsigned : 0 < toSigned pid := (toSigned_pos_iff (by omega)).mpr ⟨hpos, hsmall⟩
    obtain ⟨i, hi⟩ : ∃ i, Addressed pid s i := by
      by_contra hnone
      exact hfew (hmissing hsigned (not_exists.mp hnone))
    have hpid := ((addressed_of_pos hpos hsmall).mp hi).2
    refine ⟨i, hpid, fun j hj => ?_⟩
    have hj' := htarget j
    rw [addressed_of_pos hpos hsmall, and_iff_right hj, and_iff_right hj] at hj'
    rw [hj']
    constructor
    · intro hsame
      exact unique j i hj (hsame.trans hpid.symm)
    · rintro rfl
      exact hpid
  · rintro ⟨i, hi, hgroup⟩
    have haddressed : Addressed pid s i :=
      (addressed_of_pos hpos hsmall).mpr ⟨by omega, hi⟩
    refine ⟨fun j => ?_, fun _ hnone => absurd haddressed (hnone i)⟩
    rw [addressed_of_pos hpos hsmall]
    apply and_congr_right
    intro hj
    rw [hgroup j hj]
    constructor
    · rintro rfl
      exact hi
    · intro hsame
      exact unique j i hj (hsame.trans hi.symm)

/-- The caller's group. -/
theorem Syscall.kills_own_group {fuel signum : Nat} {s : State} {out : Killed}
    (hsignum : signum < MAX_SIGNALS) (h : Syscall.sysKill fuel 0 signum s = some out) :
    KillsAddressed 0 s out := by
  rw [Syscall.sysKill, if_neg (by omega), if_pos rfl] at h
  have hmissing : ¬ 0 < toSigned 0 := by decide
  cases hcurrent : getCurrentProcess s with
  | none =>
      rw [hcurrent] at h
      cases h
      refine ⟨List.nodup_nil, fun i => ?_, fun hpos => absurd hpos hmissing⟩
      simp [addressed_zero, hcurrent]
  | some current =>
      simp only [hcurrent] at h
      rw [killsAddressed_iff (sendSignalToProcessGroup_targets h)]
      refine ⟨fun i => ?_, fun hpos => absurd hpos hmissing⟩
      simp [addressed_zero, hcurrent]

/-- All processes: the loop finds those with a PID below 64. -/
theorem Syscall.kills_all_iff {fuel signum : Nat} {s : State} {out : Killed}
    (unique : UniquePids s) (hsignum : signum < MAX_SIGNALS)
    (h : Syscall.sysKill fuel (2 ^ 64 - 1) signum s = some out) :
    KillsAddressed (2 ^ 64 - 1) s out ↔
      ∀ i, (s.processes i).pid ≠ 0 → (s.processes i).pid < MAX_PROCESSES := by
  rw [Syscall.sysKill, if_neg (by omega), if_neg (by omega), if_neg (by decide),
    if_pos (by decide)] at h
  rw [killsAddressed_iff (sendAll_targets unique h)]
  have hmissing : ¬ 0 < toSigned (2 ^ 64 - 1) := by decide
  simp only [addressed_all, and_iff_left_iff_imp, hmissing, false_implies, and_true]

/-- A group named by its negative number. -/
theorem Syscall.kills_group {fuel pid signum : Nat} {s : State} {out : Killed}
    (hlarge : 2 ^ 63 ≤ pid) (hlt : pid < 2 ^ 64 - 1) (hsignum : signum < MAX_SIGNALS)
    (h : Syscall.sysKill fuel pid signum s = some out) : KillsAddressed pid s out := by
  have hless : pid < ofInt (-1) := by
    have hmax : ofInt (-1) = 2 ^ 64 - 1 := by decide
    omega
  rw [Syscall.sysKill, if_neg (by omega), if_neg (by omega), if_pos hless,
    wsub_zero (by omega)] at h
  rw [killsAddressed_iff (sendSignalToProcessGroup_targets h)]
  refine ⟨fun i => (addressed_group hlarge hlt).symm, fun hpos => ?_⟩
  rw [toSigned_pos_iff (by omega)] at hpos
  omega

theorem Syscall.kills_iff {fuel pid signum : Nat} {s : State} {out : Killed}
    (unique : UniquePids s) (hpid : pid < 2 ^ 64) (hsignum : signum < MAX_SIGNALS)
    (h : Syscall.sysKill fuel pid signum s = some out) :
    KillsAddressed pid s out ↔ Syscall.KillsExactly pid s := by
  unfold Syscall.KillsExactly
  simp only [toSigned_pos_iff hpid, toSigned_eq_neg_one_iff hpid]
  split
  next hpos => exact Syscall.kills_process_iff unique hpos.1 hpos.2 hsignum h
  next hpos =>
    split
    next hall =>
      subst hall
      exact Syscall.kills_all_iff unique hsignum h
    next hall =>
      refine iff_of_true ?_ trivial
      by_cases hzero : pid = 0
      · subst hzero
        exact Syscall.kills_own_group hsignum h
      · exact Syscall.kills_group (by omega) (by omega) hsignum h

/-! ### The definition in `signals.c` -/

/-- Process 0 is an unused slot. -/
theorem Signals.kills_own_group {fuel : Nat} {signum : Int} {s : State} {out : Killed}
    (h : sendToProcess fuel 0 signum s = some out) : ¬ KillsAddressed 0 s out := by
  intro kills
  have htargets := (sendToProcess_targets h).2.1
  have haddressed := fun i => (htargets i).symm.trans (kills.targets i)
  cases hcurrent : getCurrentProcess s with
  | none =>
      have hunused : (s.processes s.currentProcessIndex).pid = 0 := by
        unfold getCurrentProcess at hcurrent
        split at hcurrent
        next => cases hcurrent
        next hpid => exact not_not.mp hpid
      cases hfind : getProcess 0 s with
      | none => exact getProcess_eq_none.mp hfind _ hunused
      | some i => exact ((haddressed i).mp hfind).1 (getProcess_pid hfind)
  | some current =>
      have hlive : (s.processes current).pid ≠ 0 := by
        unfold getCurrentProcess at hcurrent
        obtain ⟨hpid, hindex⟩ := Option.ite_none_right_eq_some.mp hcurrent
        cases hindex
        exact hpid
      have hself : Addressed 0 s current := addressed_zero.mpr ⟨hlive, current, hcurrent, rfl⟩
      exact hlive (getProcess_pid ((haddressed current).mpr hself))

theorem Signals.kills_iff {fuel pid signum : Nat} {s : State} {out : Killed}
    (unique : UniquePids s) (hpid : pid < 2 ^ 64) (hsignum : signum < MAX_SIGNALS)
    (h : Signals.sysKill fuel pid signum s = some out) :
    KillsAddressed pid s out ↔ Signals.KillsExactly pid s := by
  rw [Signals.sysKill, if_neg (by omega)] at h
  unfold Signals.KillsExactly
  simp only [toSigned_pos_iff hpid, toSigned_eq_zero_iff hpid, toSigned_eq_neg_one_iff hpid]
  by_cases hzero : pid = 0
  · subst hzero
    exact iff_of_false (Signals.kills_own_group h) (by simp)
  obtain ⟨hnodup, htargets, hresult⟩ := sendToProcess_targets h
  rw [killsAddressed_iff ⟨hnodup, htargets⟩]
  simp only [getProcess_eq_some_iff unique hzero]
  split
  next hpos =>
    refine iff_of_true ⟨fun i => ?_, fun _ hnone => hresult ?_⟩ trivial
    · rw [addressed_of_pos hpos.1 hpos.2]
      exact ⟨fun hi => ⟨by omega, hi⟩, And.right⟩
    · refine getProcess_eq_none.mpr fun i hi => ?_
      exact hnone i ((addressed_of_pos hpos.1 hpos.2).mpr ⟨by omega, hi⟩)
  next hpos =>
    have hmissing : ¬ 0 < toSigned pid := fun hsigned => hpos ((toSigned_pos_iff hpid).mp hsigned)
    simp only [hmissing, false_implies, and_true]
    split
    next hall =>
      subst hall
      simp only [addressed_all]
      exact ⟨fun htarget i => (htarget i).mpr, fun hlive i => ⟨fun hi => by omega, hlive i⟩⟩
    next hall =>
      simp only [addressed_group (by omega : 2 ^ 63 ≤ pid) (by omega : pid < 2 ^ 64 - 1)]
      constructor
      · intro htarget i hi
        rw [htarget i, and_iff_right hi]
      · intro hgroup i
        constructor
        · intro hi
          have hlive : (s.processes i).pid ≠ 0 := by omega
          exact ⟨hlive, (hgroup i hlive).mpr hi⟩
        · rintro ⟨hlive, hi⟩
          exact (hgroup i hlive).mp hi

/-! ### Both -/

theorem sendToProcess_returns {fuel pid : Nat} {signum : Int} {s : State} (wf : WellFormed s)
    (hfuel : enoughFuel ≤ fuel) : ∃ out, sendToProcess fuel pid signum s = some out := by
  unfold sendToProcess
  split
  next => exact ⟨_, rfl⟩
  next i _ =>
    obtain ⟨out, hsend⟩ := @signalSend_returns fuel i signum s wf hfuel
    rw [hsend]
    exact ⟨_, rfl⟩

theorem Syscall.sysKill_returns {fuel pid signum : Nat} {s : State} (wf : WellFormed s)
    (hfuel : enoughFuel ≤ fuel) : ∃ out, Syscall.sysKill fuel pid signum s = some out := by
  unfold Syscall.sysKill
  split
  · exact ⟨_, rfl⟩
  split
  · split
    · exact ⟨_, rfl⟩
    · exact sendEach_returns wf hfuel
  split
  · exact sendEach_returns wf hfuel
  split
  · exact sendEach_returns wf hfuel
  · exact sendToProcess_returns wf hfuel

theorem Signals.sysKill_returns {fuel pid signum : Nat} {s : State} (wf : WellFormed s)
    (hfuel : enoughFuel ≤ fuel) : ∃ out, Signals.sysKill fuel pid signum s = some out := by
  unfold Signals.sysKill
  split
  · exact ⟨_, rfl⟩
  · exact sendToProcess_returns wf hfuel

/-- When each `sys_kill` signals exactly the processes that `pid` means; on a
well-formed table both return. -/
theorem sys_kill_addresses_iff {s : State} {pid signum : Nat} (unique : UniquePids s)
    (hpid : pid < 2 ^ 64) (hsignum : 1 ≤ signum ∧ signum ≤ 31) :
    (∀ fuel out, Syscall.sysKill fuel pid signum s = some out →
        (KillsAddressed pid s out ↔ Syscall.KillsExactly pid s)) ∧
      (∀ fuel out, Signals.sysKill fuel pid signum s = some out →
        (KillsAddressed pid s out ↔ Signals.KillsExactly pid s)) ∧
      (WellFormed s → ∀ fuel, enoughFuel ≤ fuel →
        (∃ out, Syscall.sysKill fuel pid signum s = some out) ∧
          ∃ out, Signals.sysKill fuel pid signum s = some out) := by
  have hrange : signum < MAX_SIGNALS := by
    simp only [MAX_SIGNALS]
    omega
  exact ⟨fun _ _ => Syscall.kills_iff unique hpid hrange,
    fun _ _ => Signals.kills_iff unique hpid hrange,
    fun wf _ hfuel => ⟨Syscall.sysKill_returns wf hfuel, Signals.sysKill_returns wf hfuel⟩⟩

/-- Both definitions, for process 2 of a table that has one. -/
theorem sys_kill_addresses_iff_child :
    (∀ fuel out, Syscall.sysKill fuel 2 SIGTERM initAndChild = some out →
        (KillsAddressed 2 initAndChild out ↔ Syscall.KillsExactly 2 initAndChild)) ∧
      ∃ out, Signals.sysKill enoughFuel 2 SIGTERM initAndChild = some out := by
  obtain ⟨hsyscall, -, hreturns⟩ := @sys_kill_addresses_iff initAndChild 2 SIGTERM
    wellFormed_initAndChild.uniquePids (by decide) (by decide)
  exact ⟨hsyscall, (hreturns wellFormed_initAndChild enoughFuel (Nat.le_refl _)).2⟩

/-- `sys_kill(2, SIGTERM)` signals nobody and returns 0, though process 2 is there. -/
theorem sys_kill_misses_process :
    UniquePids initAndChild ∧ (initAndChild.processes 1).pid = 2 ∧
      ∃ out, Syscall.sysKill 1 2 SIGTERM initAndChild = some out ∧ out.result = 0 ∧
        out.targets = [] ∧ ¬ KillsAddressed 2 initAndChild out := by
  have hcall : (Syscall.sysKill 1 2 SIGTERM initAndChild).map (fun out => (out.result, out.targets))
      = some (0, []) := by decide +kernel
  obtain ⟨out, hout, hvalues⟩ := Option.map_eq_some_iff.mp hcall
  obtain ⟨hresult, hnone⟩ := Prod.mk.inj hvalues
  refine ⟨wellFormed_initAndChild.uniquePids, by decide, out, hout, hresult, hnone, ?_⟩
  intro kills
  have haddressed : Addressed 2 initAndChild 1 :=
    (addressed_of_pos (by decide) (by decide)).mpr (by decide)
  have hmem := (kills.targets 1).mpr haddressed
  rw [hnone] at hmem
  cases hmem

/-! ### Killing a group -/

theorem signalSend_kill {fuel : Nat} {i : Slot} {s : State} {out : Int × State}
    (h : signalSend fuel i SIGKILL s = some out) :
    ∃ less, exitProcess less (s.processes i).pid (128 + SIGKILL) s = some out.2 := by
  cases fuel with
  | zero => simp [signalSend] at h
  | succ fuel =>
      rw [signalSend, if_neg (by decide), if_pos rfl] at h
      obtain ⟨t, hexit, rfl⟩ := Option.map_eq_some_iff.mp h
      exact ⟨fuel, hexit⟩

/-- Killing one process after another: each of them is a zombie at the end. -/
theorem sendEach_kills {α : Type} {pick : α → State → Option Slot} {fuel : Nat}
    (hlive : ∀ a s i, pick a s = some i → (s.processes i).pid ≠ 0) {items : List α} {s : State}
    {out : Killed} (wf : WellFormed s) (h : sendEach fuel SIGKILL pick items s = some out) :
    (∀ i ∈ out.targets, (out.state.processes i).state = .zombie) ∧
      ∀ j, (s.processes j).state = .zombie → (out.state.processes j).state = .zombie := by
  induction items generalizing s out with
  | nil =>
      cases h
      refine ⟨fun i hi => ?_, fun j hj => hj⟩
      cases hi
  | cons a rest ih =>
      rw [sendEach] at h
      cases hfind : pick a s with
      | none =>
          rw [hfind] at h
          exact ih wf h
      | some i =>
          simp only [hfind] at h
          split at h
          next => cases h
          next r t hsend =>
            obtain ⟨later, hlater, rfl⟩ := Option.map_eq_some_iff.mp h
            obtain ⟨less, hexit⟩ := signalSend_kill hsend
            have hself := getProcess_of_pid wf.uniquePids (hlive a s i hfind)
            obtain ⟨hkilled, hothers⟩ := exitProcess_kills wf hself hexit
            obtain ⟨hzombies, hstay⟩ :=
              ih (wf.evolves ((evolves_calls fuel).signalSend hsend)) hlater
            refine ⟨fun k hk => ?_, fun j hj => ?_⟩
            · rcases List.mem_cons.mp hk with rfl | hk
              · exact hstay k hkilled
              · exact hzombies k hk
            · apply hstay
              by_cases hji : j = i
              · rw [hji]
                exact hkilled
              · have hparked := not_runnable_of_state hj (by decide) (by decide)
                rw [(hothers j hji hparked).state]
                exact hj

/-- The live members of a group. -/
def groupMembers (pgid : Nat) (s : State) : Finset Slot :=
  Finset.univ.filter fun i => (s.processes i).pid ≠ 0 ∧ (s.processes i).processGroup = pgid

/-- **Killing a group.** On a well-formed table `send_signal_to_process_group(pgid, SIGKILL)`
returns the number of processes in the group, and leaves each of them a zombie. -/
theorem kill_group {fuel pgid : Nat} {s : State} (wf : WellFormed s) (hfuel : enoughFuel ≤ fuel) :
    ∃ out, sendSignalToProcessGroup fuel pgid SIGKILL s = some out ∧
      out.result = (groupMembers pgid s).card ∧
      ∀ i ∈ groupMembers pgid s, (out.state.processes i).state = .zombie := by
  obtain ⟨out, hout⟩ := @sendEach_returns _ (groupMember pgid) fuel SIGKILL
    (List.finRange MAX_PROCESSES) s wf hfuel
  obtain ⟨hnodup, htargets⟩ := sendSignalToProcessGroup_targets hout
  have hmembers : out.targets.toFinset = groupMembers pgid s := by
    ext i
    rw [List.mem_toFinset, htargets, groupMembers, Finset.mem_filter, and_iff_right
      (Finset.mem_univ i)]
  have hlive : ∀ i (s : State) k, groupMember pgid i s = some k → (s.processes k).pid ≠ 0 := by
    intro i s k hk
    obtain ⟨⟨hpid, -⟩, heq⟩ := Option.ite_none_right_eq_some.mp hk
    cases heq
    exact hpid
  have hcount : out.result = out.targets.length := @sendEach_counts _ (groupMember pgid) fuel
    SIGKILL (List.finRange MAX_PROCESSES) s out (by decide) hout
  obtain ⟨hzombies, -⟩ := sendEach_kills hlive wf hout
  refine ⟨out, hout, ?_, fun i hi => ?_⟩
  · rw [hcount, ← hmembers, List.toFinset_card_of_nodup hnodup]
  · rw [← hmembers, List.mem_toFinset] at hi
    exact hzombies i hi

/-- Both processes of a table are in group 1. -/
theorem kill_group_initAndChild :
    ∃ out, sendSignalToProcessGroup enoughFuel 1 SIGKILL initAndChild = some out ∧
      out.result = (groupMembers 1 initAndChild).card ∧
      ∀ i ∈ groupMembers 1 initAndChild, (out.state.processes i).state = .zombie :=
  kill_group wellFormed_initAndChild (Nat.le_refl _)

end Curnel.Process
