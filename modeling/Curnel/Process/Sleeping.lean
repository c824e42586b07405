/-
How long the calls that sleep do sleep.

`process_sleep` and `timer_sleep` multiply the frequency by the milliseconds in 32 bits,
`sleep_process` adds the milliseconds to the ticks as they are, and the shell command
multiplies the seconds by 1000 in an `int` first. `sleep_ticks_iff` says for which arguments
each of them still uses the tick it should.
-/

import Curnel.Process.Ticking

namespace Curnel.Process

open Lib Word

/-! ### The calls -/

/-- `(timer_frequency * ms) / 1000`, where both factors have 32 bits. -/
def sleepTicks (ms : Nat) (s : State) : Nat := wmul 32 s.timerFrequency ms / 1000

/-- The tick that the loop of `timer_sleep` waits for. -/
def timerSleepTarget (ms : Nat) (s : State) : Nat :=
  let ticks := sleepTicks ms s
  let ticks := if ticks = 0 then 1 else ticks
  wadd 64 s.timerTicks ticks

inductive Rest where
  /-- The process has been put to sleep, and `schedule()` has returned. -/
  | scheduled (s : State)
  /-- `timer_sleep` waits for a tick. -/
  | waits (targetTicks : Nat)

def processSleep (fuel ms : Nat) (s : State) : Option Rest :=
  match getCurrentProcess s with
  | some i => (schedule fuel (fallAsleep i (sleepTicks ms s) s)).map .scheduled
  | none => some (.waits (timerSleepTarget ms s))

/-- `process_sleep` takes 32 bits of the argument. -/
def sysSleep (fuel milliseconds : Nat) (s : State) : Option Rest :=
  processSleep fuel (milliseconds % 2 ^ 32) s

/-- `(int)n`. Where the code's `int` overflows, it wraps. -/
def int32 (n : Int) : Int := toInt32 (ofInt n)

/-- The loop of `atoi` over the digits. -/
def atoiDigits : Int → List UInt8 → Int
  | result, [] => result
  | result, c :: str =>
      if 48 ≤ c ∧ c ≤ 57 then atoiDigits (int32 (result * 10 + (c.toNat - 48))) str else result

def atoi (str : List UInt8) : Int :=
  match str.dropWhile fun c => c = 32 ∨ c = 9 with
  | 45 :: rest => int32 (-1 * atoiDigits 0 rest)
  | 43 :: rest => int32 (1 * atoiDigits 0 rest)
  | rest => int32 (1 * atoiDigits 0 rest)

/-- The result, and the rest that is taken. -/
def cmdSleep (fuel : Nat) (argv : List (List UInt8)) (s : State) : Option (Int × Option Rest) :=
  match argv[1]? with
  | none => some (-1, none)
  | some arg =>
      let seconds := atoi arg
      if seconds ≤ 0 then some (-1, none)
      else (sysSleep fuel (ofInt (int32 (seconds * 1000))) s).map fun rest => (0, some rest)

/-! ### What is expected of them -/

/-- The call returns, and puts the process in slot `i` to sleep until `tick`. -/
structure SleepsUntil (call : Nat → Option State) (i : Slot) (tick : Nat) : Prop where
  returns : ∃ fuel s, call fuel = some s
  asleep : ∀ fuel s, call fuel = some s →
    (s.processes i).state = .sleeping ∧ (s.processes i).sleepUntil = tick

/-- `process_sleep` of the current process, when it returns. -/
def processSlept (ms : Nat) (s : State) (fuel : Nat) : Option State :=
  match processSleep fuel ms s with
  | some (.scheduled s) => some s
  | _ => none

/-- The process in slot `i` sleeps as it did. -/
structure StaysAsleep (i : Slot) (s s' : State) : Prop where
  pid_eq : (s'.processes i).pid = (s.processes i).pid
  sleeping : (s'.processes i).state = .sleeping
  sleepUntil_eq : (s'.processes i).sleepUntil = (s.processes i).sleepUntil

/-- A step in which the process in slot `i` stays asleep as it was in `t`. -/
def AsleepStep (i : Slot) (t v : Table) (l : Option Bool) (w : Table) : Prop :=
  TickStep v l w ∧ StaysAsleep i t.kernel w.kernel

/-- While the process in slot `i` stays asleep, the timer does not make it ready before the
`n`-th tick. -/
def SleepsFor (i : Slot) (n : Nat) (t : Table) : Prop :=
  ∀ ls u, Run (AsleepStep i t) t ls u →
    interrupts ls + 1 < n → ((timerTick u.kernel).processes i).state = .sleeping

/-- With that frequency, from that tick on, `cmd_sleep` of so many seconds is not cut short.
Below 100 Hz there is one tick at most. -/
def NotCutShort (frequency seconds ticks : Nat) : Prop :=
  let product := 1000 * frequency * seconds
  if frequency < 100 then
    frequency * seconds ≤ 1 ∨
      if ticks = 2 ^ 64 - 1 then product % 2 ^ 32 / 1000 ≠ 1
      else 2000 ≤ product % 2 ^ 32 ∧ ticks + product % 2 ^ 32 / 1000 < 2 ^ 64
  else if ticks = 2 ^ 64 - 1 then product < 2 ^ 32 ∨ product % 2 ^ 32 < 1000
  else product < 2 ^ 32 ∧ ticks + frequency * seconds < 2 ^ 64

/-! ### The conversions -/

theorem acceptedFrequency_bounds (frequency : Nat) :
    1 ≤ acceptedFrequency frequency ∧ acceptedFrequency frequency ≤ 1193 := by
  unfold acceptedFrequency
  dsimp only
  split <;> split <;> omega

theorem int32_lt (n : Int) : int32 n < 2 ^ 31 := toInt32_lt _

theorem atoi_lt (str : List UInt8) : atoi str < 2 ^ 31 := by
  unfold atoi
  split <;> exact int32_lt _

/-- An `int` on its way to `process_sleep` keeps its lower 32 bits. -/
theorem ofInt_int32 (n : Nat) : ofInt (int32 n) % 2 ^ 32 = n % 2 ^ 32 := by
  have hn : ofInt n % 2 ^ 32 = n % 2 ^ 32 := by
    unfold ofInt
    omega
  unfold int32
  rcases Nat.lt_or_ge (ofInt n % 2 ^ 32) (2 ^ 31) with hlow | hhigh
  · rw [toInt32_low hlow, hn, ofInt]
    omega
  · rw [toInt32_high hhigh, hn, ofInt]
    omega

/-- The product fits 32 bits, or the ticks are too few. -/
theorem ticks_exact_iff {t product : Nat} (ht : t < 2 ^ 64) :
    wadd 64 t (product % 2 ^ 32 / 1000) = t + product / 1000 ↔
      product < 2 ^ 32 ∧ t + product / 1000 < 2 ^ 64 := by
  rw [wadd]
  omega

/-- As `ticks_exact_iff`, with one tick at least. -/
theorem target_exact_iff {t product : Nat} (ht : t < 2 ^ 64) :
    wadd 64 t (if product % 2 ^ 32 / 1000 = 0 then 1 else product % 2 ^ 32 / 1000)
        = t + max 1 (product / 1000) ↔
      product < 2 ^ 32 ∧ t + max 1 (product / 1000) < 2 ^ 64 := by
  rw [wadd]
  split <;> omega

/-- Milliseconds are ticks where there are as many. -/
theorem millis_exact_iff {t ms ticks : Nat} (ht : t < 2 ^ 64) (hms : ms < 2 ^ 32) :
    wadd 64 t ms = t + ticks ↔ ms = ticks ∧ t + ms < 2 ^ 64 := by
  rw [wadd]
  omega

/-- A sum of two words wraps at most once. -/
theorem mod_word_cases {a b : Nat} (ha : a < 2 ^ 64) (hb : b < 2 ^ 64) :
    a + b < 2 ^ 64 ∧ (a + b) % 2 ^ 64 = a + b ∨
      2 ^ 64 ≤ a + b ∧ (a + b) % 2 ^ 64 = a + b - 2 ^ 64 := by
  rcases Nat.lt_or_ge (a + b) (2 ^ 64) with hfits | hwraps
  · exact .inl ⟨hfits, Nat.mod_eq_of_lt hfits⟩
  · rw [Nat.mod_eq_sub_mod hwraps, Nat.mod_eq_of_lt (by omega)]
    exact .inr ⟨hwraps, rfl⟩

/-- A wake-up time `wake` ticks ahead is after the first `n - 1` ticks. -/
theorem early_iff {t wake n : Nat} (ht : t < 2 ^ 64) (hwake : wake < 2 ^ 32) (hn : 1 < n)
    (hbound : n < 2 ^ 48) :
    (∀ k, 1 ≤ k → k < n → (t + k) % 2 ^ 64 < (t + wake) % 2 ^ 64) ↔
      if t = 2 ^ 64 - 1 then wake = 0 ∨ n ≤ wake else n ≤ wake ∧ t + wake < 2 ^ 64 := by
  have hsum := mod_word_cases ht (show wake < 2 ^ 64 by omega)
  constructor
  · intro hearly
    have hfirst := hearly 1 (Nat.le_refl 1) hn
    have hone := mod_word_cases ht (show 1 < 2 ^ 64 by decide)
    split
    · by_contra hshort
      have hlate := hearly wake (by omega) (by omega)
      omega
    · by_contra hshort
      by_cases hnone : wake = 0
      · omega
      · by_cases hle : n ≤ wake
        · omega
        · have hlate := hearly wake (by omega) (by omega)
          omega
  · intro hlong k hk hkn
    have htick := mod_word_cases ht (show k < 2 ^ 64 by omega)
    split at hlong <;> omega

/-- The ticks before the last one, of those that come, are before the time computed. -/
theorem notCutShort_iff {frequency seconds t : Nat} (hfrequency : 1 ≤ frequency)
    (hslow : frequency ≤ 1193) (hseconds : 0 < seconds) (hint : seconds < 2 ^ 31)
    (ht : t < 2 ^ 64) :
    (∀ k, 1 ≤ k → k < frequency * seconds → k = 1 ∨ 100 ≤ frequency →
        (t + k) % 2 ^ 64 < wadd 64 t (1000 * frequency * seconds % 2 ^ 32 / 1000)) ↔
      NotCutShort frequency seconds t := by
  have hproduct : 1000 * frequency * seconds = 1000 * (frequency * seconds) := Nat.mul_assoc ..
  have hlarge : frequency ≤ frequency * seconds := Nat.le_mul_of_pos_right _ hseconds
  have hbound : frequency * seconds ≤ 1193 * 2 ^ 31 := Nat.mul_le_mul hslow hint.le
  have hpos : 1 ≤ frequency * seconds := hfrequency.trans hlarge
  rw [NotCutShort, hproduct, wadd, Nat.add_comm _ t]
  generalize frequency * seconds = n at *
  by_cases hfirst : frequency < 100
  · -- only the first tick comes
    rw [if_pos hfirst]
    by_cases hone : n ≤ 1
    · exact iff_of_true (fun k hk hkn _ => by omega) (.inl hone)
    · have hearly := @early_iff t (1000 * n % 2 ^ 32 / 1000) 2 ht (by omega) (by decide) (by decide)
      rw [or_iff_right hone]
      have honly : (∀ k, 1 ≤ k → k < n → k = 1 ∨ 100 ≤ frequency →
          (t + k) % 2 ^ 64 < (t + 1000 * n % 2 ^ 32 / 1000) % 2 ^ 64) ↔
          ∀ k, 1 ≤ k → k < 2 → (t + k) % 2 ^ 64 < (t + 1000 * n % 2 ^ 32 / 1000) % 2 ^ 64 := by
        constructor
        · exact fun h k hk hkn => h k hk (by omega) (.inl (by omega))
        · exact fun h k hk hkn hcomes => h k hk (by omega)
      rw [honly, hearly]
      split <;> omega
  · have hearly := @early_iff t (1000 * n % 2 ^ 32 / 1000) n ht (by omega) (by omega) (by omega)
    have hall : (∀ k, 1 ≤ k → k < n → k = 1 ∨ 100 ≤ frequency →
        (t + k) % 2 ^ 64 < (t + 1000 * n % 2 ^ 32 / 1000) % 2 ^ 64) ↔
        ∀ k, 1 ≤ k → k < n → (t + k) % 2 ^ 64 < (t + 1000 * n % 2 ^ 32 / 1000) % 2 ^ 64 := by
      constructor
      · exact fun h k hk hkn => h k hk hkn (.inr (by omega))
      · exact fun h k hk hkn _ => h k hk hkn
    rw [if_neg hfirst, hall, hearly]
    split <;> omega

/-! ### Staying asleep -/

theorem sleepsUntil_iff {s : State} {i : Slot} {ticks tick : Nat} (wf : WellFormed s) :
    SleepsUntil (fun fuel => schedule fuel (fallAsleep i ticks s)) i tick ↔
      wadd 64 s.timerTicks ticks = tick := by
  obtain ⟨s', hs'⟩ := @schedule_returns_of_enough enoughFuel _ (wf.fallAsleep i ticks) (by decide)
  constructor
  · intro sleeps
    rw [← (sleeps.asleep _ _ hs').2, (fallAsleep_asleep wf hs').2]
  · intro htick
    refine ⟨⟨_, _, hs'⟩, fun fuel u hu => ?_⟩
    rw [← htick]
    exact fallAsleep_asleep wf hu

/-- A tick that returns has divided by something. -/
theorem timerHandler_divides {fuel : Nat} {s s' : State} (h : timerHandler fuel s = some s') :
    ¬ DividesByZero s := by
  rw [DividesByZero, ← timerTick_frequency]
  exact (timerHandler_cases h).1

section Asleep

variable {i : Slot} {t u : Table}

/-- A tick leaves a process asleep if it is the last one, or its time has not come. -/
theorem timerTick_asleep_iff (numbered : Numbered u) (hlive : (u.kernel.processes i).pid ≠ 0)
    (hsleeping : (u.kernel.processes i).state = .sleeping) :
    ((timerTick u.kernel).processes i).state = .sleeping ↔
      (u.kernel.processes i).pid = MAX_PROCESSES ∨
        nextTick u.kernel < (u.kernel.processes i).sleepUntil := by
  have hle : (u.kernel.processes i).pid ≤ MAX_PROCESSES := by
    rw [numbered.pid_of_live hlive]
    exact i.isLt
  rw [timerTick_processes numbered.wellFormed.uniquePids hlive]
  split
  next hdue =>
    have hnever : ¬ ((u.kernel.processes i).pid = MAX_PROCESSES ∨
        nextTick u.kernel < (u.kernel.processes i).sleepUntil) := by
      rintro (hlast | hearly)
      · exact hdue.1.ne hlast
      · exact Nat.not_le_of_lt hearly hdue.2.2
    exact iff_of_false (by simp) hnever
  next hno =>
    refine iff_of_true hsleeping ?_
    by_contra hboth
    rw [not_or, Nat.not_lt] at hboth
    exact hno ⟨lt_of_le_of_ne hle hboth.1, hsleeping, hboth.2⟩

theorem StaysAsleep.trans {s s' s'' : State} (first : StaysAsleep i s s')
    (second : StaysAsleep i s' s'') : StaysAsleep i s s'' :=
  ⟨second.pid_eq.trans first.pid_eq, second.sleeping,
    second.sleepUntil_eq.trans first.sleepUntil_eq⟩

/-- If the tick leaves it asleep, so does the interrupt. -/
theorem timerHandler_staysAsleep {fuel : Nat} {s' : State} (numbered : Numbered u)
    (hlive : (u.kernel.processes i).pid ≠ 0)
    (hasleep : ((timerTick u.kernel).processes i).state = .sleeping)
    (h : timerHandler fuel u.kernel = some s') : StaysAsleep i u.kernel s' := by
  have hpid := (Step.timerHandler h).evolves.pid_eq i
  have hsame : ((timerTick u.kernel).processes i).sleepUntil
      = (u.kernel.processes i).sleepUntil := by
    rw [timerTick_processes numbered.wellFormed.uniquePids hlive]
    split <;> rfl
  rcases (timerHandler_cases h).2 with ⟨-, hrun⟩ | ⟨-, hout⟩
  · obtain ⟨hstate, huntil⟩ := schedule_asleep
      (numbered.wellFormed.evolves (evolves_timerTick u.kernel)) hrun hasleep
    exact ⟨hpid, hstate, huntil.trans hsame⟩
  · rw [hout] at hpid ⊢
    exact ⟨hpid, hasleep, hsame⟩

theorem run_asleep {ls : List (Option Bool)} (run : Run (AsleepStep i t) t ls u)
    (hsleeping : (t.kernel.processes i).state = .sleeping) :
    StaysAsleep i t.kernel u.kernel :=
  run.invariant (I := fun v => StaysAsleep i t.kernel v.kernel) (fun _ step => step.2)
    ⟨rfl, hsleeping, rfl⟩

theorem run_divides {ls : List (Option Bool)} {t' : Table} (run : Run (AsleepStep i t) t' ls u)
    (hzero : DividesByZero t'.kernel) : interrupts ls = 0 := by
  induction run with
  | nil _ => rfl
  | cons first _ ih =>
      rw [interrupts_cons]
      cases first.1 with
      | interrupt h => exact absurd hzero (timerHandler_divides h)
      | other h hop =>
          refine (Nat.zero_add _).trans (ih ?_)
          rw [DividesByZero, (h.sameTime hop).frequency]
          exact hzero

/-- Runs of as many interrupts as do not wake the process. -/
theorem exists_asleep (numbered : Numbered t) (hlive : (t.kernel.processes i).pid ≠ 0)
    (hsleeping : (t.kernel.processes i).state = .sleeping) (hticks : t.kernel.timerTicks < 2 ^ 64)
    {n : Nat} (hcomes : n = 0 ∨ ¬ DividesByZero t.kernel)
    (hearly : ∀ k, 1 ≤ k → k ≤ n →
      (t.kernel.timerTicks + k) % 2 ^ 64 < (t.kernel.processes i).sleepUntil) :
    ∃ ls u, Run (AsleepStep i t) t ls u ∧ interrupts ls = n := by
  induction n with
  | zero => exact ⟨[], t, .nil t, rfl⟩
  | succ n ih =>
      have hdivides := hcomes.resolve_left (Nat.succ_ne_zero n)
      obtain ⟨ls, u, run, hcount⟩ := ih (.inr hdivides)
        fun k hk hkn => hearly k hk (Nat.le_succ_of_le hkn)
      have steps := run.mono (fun step => step.1)
      have numbered' := steps.invariant (fun before step => step.numbered before) numbered
      have asleep := run_asleep run hsleeping
      obtain ⟨hnow, hfrequency, -⟩ := run_ticks steps (Nat.mod_eq_of_lt hticks).symm
      have hlive' : (u.kernel.processes i).pid ≠ 0 := by
        rwa [asleep.pid_eq]
      have hnext : nextTick u.kernel = (t.kernel.timerTicks + (n + 1)) % 2 ^ 64 := by
        rw [nextTick, wadd, hnow, hcount]
        omega
      have htick : ((timerTick u.kernel).processes i).state = .sleeping := by
        refine (timerTick_asleep_iff numbered' hlive' asleep.sleeping).mpr (.inr ?_)
        rw [hnext, asleep.sleepUntil_eq]
        exact hearly (n + 1) (Nat.le_add_left 1 n) (Nat.le_refl _)
      have hdivides' : ¬ DividesByZero u.kernel := by
        rwa [DividesByZero, hfrequency]
      obtain ⟨s, hs⟩ := timerHandler_returns_of numbered'.wellFormed hdivides'
      have last : AsleepStep i t u _ _ := ⟨.interrupt hs,
        asleep.trans (timerHandler_staysAsleep numbered' hlive' htick hs)⟩
      refine ⟨_, _, run.append (.single last), ?_⟩
      rw [interrupts, List.countP_append]
      exact congrArg (· + 1) hcount

/-- The process is left asleep until the last tick exactly if none of the ticks that come
before it has the time it waits for. -/
theorem sleepsFor_iff (numbered : Numbered t) (hlive : (t.kernel.processes i).pid ≠ 0)
    (hsleeping : (t.kernel.processes i).state = .sleeping)
    (hticks : t.kernel.timerTicks < 2 ^ 64) (n : Nat) :
    SleepsFor i n t ↔ (t.kernel.processes i).pid = MAX_PROCESSES ∨
      ∀ k, 1 ≤ k → k < n → k = 1 ∨ 100 ≤ t.kernel.timerFrequency →
        (t.kernel.timerTicks + k) % 2 ^ 64 < (t.kernel.processes i).sleepUntil := by
  have hslow : 100 ≤ t.kernel.timerFrequency ↔ ¬ DividesByZero t.kernel := by
    rw [DividesByZero]
    omega
  -- what the tick after a run does
  have hlast : ∀ {ls u}, Run (AsleepStep i t) t ls u →
      (((timerTick u.kernel).processes i).state = .sleeping ↔
        (t.kernel.processes i).pid = MAX_PROCESSES ∨
          (t.kernel.timerTicks + (interrupts ls + 1)) % 2 ^ 64
            < (t.kernel.processes i).sleepUntil) := by
    intro ls u run
    have steps := run.mono (fun step => step.1)
    have numbered' := steps.invariant (fun before step => step.numbered before) numbered
    have asleep := run_asleep run hsleeping
    have hnow := (run_ticks steps (Nat.mod_eq_of_lt hticks).symm).1
    have hnext : nextTick u.kernel = (t.kernel.timerTicks + (interrupts ls + 1)) % 2 ^ 64 := by
      rw [nextTick, wadd, hnow]
      omega
    have hlive' : (u.kernel.processes i).pid ≠ 0 := by
      rwa [asleep.pid_eq]
    rw [timerTick_asleep_iff numbered' hlive' asleep.sleeping, asleep.pid_eq,
      asleep.sleepUntil_eq, hnext]
  constructor
  · intro sleeps
    by_cases hpid : (t.kernel.processes i).pid = MAX_PROCESSES
    · exact .inl hpid
    refine .inr fun k => ?_
    induction k using Nat.strong_induction_on with
    | _ k ih =>
        intro hk hkn hcomes
        have hbefore : k - 1 = 0 ∨ ¬ DividesByZero t.kernel := by
          rcases hcomes with hone | hfast
          · exact .inl (by omega)
          · exact .inr (hslow.mp hfast)
        obtain ⟨ls, u, run, hcount⟩ := exists_asleep numbered hlive hsleeping hticks hbefore
          fun j hj hjk => ih j (by omega) hj (by omega) (hcomes.imp (by omega) id)
        have htick := (hlast run).mp (sleeps ls u run (by omega))
        rw [hcount, Nat.sub_add_cancel hk] at htick
        exact htick.resolve_left hpid
  · rintro hearly ls u run hcount
    refine (hlast run).mpr (hearly.imp_right fun hall => hall _ (Nat.le_add_left 1 _) hcount ?_)
    by_cases hzero : DividesByZero t.kernel
    · exact .inl (congrArg (· + 1) (run_divides run hzero))
    · exact .inr (hslow.mpr hzero)

end Asleep

/-! ### The results -/

theorem run_frequency {t t' : Table} {ops : List (Option TableOp)} (run : Run KernelStep t ops t') :
    t'.kernel.timerFrequency = t.kernel.timerFrequency := by
  refine run.invariant (I := fun u => u.kernel.timerFrequency = t.kernel.timerFrequency)
    (fun {u op v} before step => ?_) rfl
  rw [← before]
  by_cases hop : op = some (.call .timerHandler)
  · subst hop
    cases step with
    | table step =>
        cases step with
        | call h =>
            cases h with
            | timerHandler h => exact (timerHandler_time h).2
  · exact (step.sameTime hop).frequency

theorem processSlept_eq {s : State} {i : Slot} (hcurrent : getCurrentProcess s = some i)
    (ms : Nat) :
    processSlept ms s = fun fuel => schedule fuel (fallAsleep i (sleepTicks ms s) s) := by
  funext fuel
  rw [processSlept, processSleep, hcurrent]
  dsimp only
  cases schedule fuel (fallAsleep i (sleepTicks ms s) s) <;> rfl

/-- The shell command passes the lower 32 bits of a thousand times the seconds. -/
theorem cmdSleep_eq {fuel seconds : Nat} {argv : List (List UInt8)} {arg : List UInt8} {s : State}
    (harg : argv[1]? = some arg) (hatoi : atoi arg = seconds) (hpos : 0 < seconds) :
    cmdSleep fuel argv s
      = (processSleep fuel (seconds * 1000 % 2 ^ 32) s).map fun rest => (0, some rest) := by
  have haccepted : ¬ (seconds : Int) ≤ 0 := by omega
  rw [cmdSleep, harg]
  dsimp only
  rw [hatoi, if_neg haccepted, sysSleep]
  have hmillis := ofInt_int32 (seconds * 1000)
  rw [Nat.cast_mul] at hmillis
  rw [← hmillis]
  rfl

theorem sleepTicks_seconds (seconds : Nat) (s : State) :
    sleepTicks (seconds * 1000 % 2 ^ 32) s
      = 1000 * s.timerFrequency * seconds % 2 ^ 32 / 1000 := by
  have hproduct : s.timerFrequency * (seconds * 1000) = 1000 * s.timerFrequency * seconds := by
    ring
  rw [sleepTicks, wmul, Nat.mul_mod, Nat.mod_mod, ← Nat.mul_mod, hproduct]

/-- The command that puts a process to sleep leaves what the scheduler does. -/
theorem cmdSleep_scheduled {fuel seconds : Nat} {argv : List (List UInt8)} {arg : List UInt8}
    {s s' : State} {i : Slot} (hcurrent : getCurrentProcess s = some i)
    (harg : argv[1]? = some arg) (hatoi : atoi arg = seconds) (hpos : 0 < seconds) :
    cmdSleep fuel argv s = some (0, some (.scheduled s')) ↔
      schedule fuel (fallAsleep i (1000 * s.timerFrequency * seconds % 2 ^ 32 / 1000) s)
        = some s' := by
  rw [cmdSleep_eq harg hatoi hpos, processSleep, hcurrent, sleepTicks_seconds]
  dsimp only
  cases schedule fuel (fallAsleep i (1000 * s.timerFrequency * seconds % 2 ^ 32 / 1000) s) <;> simp

/-- A process that has just gone to sleep, seen from the state it went to sleep in. -/
theorem sleepsFor_fallAsleep {t : Table} {i : Slot} {fuel ticks : Nat} {s : State}
    (numbered : Numbered t) (hticks : t.kernel.timerTicks < 2 ^ 64)
    (hcurrent : getCurrentProcess t.kernel = some i)
    (hs : schedule fuel (fallAsleep i ticks t.kernel) = some s) (n : Nat) :
    SleepsFor i n { t with kernel := s } ↔ (t.kernel.processes i).pid = MAX_PROCESSES ∨
      ∀ k, 1 ≤ k → k < n → k = 1 ∨ 100 ≤ t.kernel.timerFrequency →
        (t.kernel.timerTicks + k) % 2 ^ 64 < wadd 64 t.kernel.timerTicks ticks := by
  obtain ⟨hsleeping, huntil⟩ := fallAsleep_asleep numbered.wellFormed hs
  have evolves : Evolves t.kernel s :=
    (evolves_modify rfl rfl).trans ((evolves_calls fuel).schedule hs)
  have time := SameTime.schedule hs
  have hnow : s.timerTicks = t.kernel.timerTicks := time.ticks
  have hfrequency : s.timerFrequency = t.kernel.timerFrequency := time.frequency
  have hpid := evolves.pid_eq i
  have hlive : (s.processes i).pid ≠ 0 := by
    rw [hpid]
    exact getCurrentProcess_live hcurrent
  have hiff := sleepsFor_iff (t := { t with kernel := s }) (numbered.evolves evolves) hlive
    hsleeping (hnow ▸ hticks) n
  dsimp only at hiff
  rwa [hpid, hnow, hfrequency, huntil] at hiff

/-- For an accepted frequency, every tick and every 32-bit number of milliseconds: when the
calls use the tick they should; and when `cmd_sleep` of a positive number of seconds is not cut
short by the timer. -/
theorem sleep_ticks_iff {enabled : Bool} {ticks frequency : Nat} {ops : List (Option TableOp)}
    {t : Table}
    (run : Run KernelStep (.start enabled ticks (acceptedFrequency frequency)) ops t)
    (hticks : t.kernel.timerTicks < 2 ^ 64) :
    let f := acceptedFrequency frequency
    let now := t.kernel.timerTicks
    (∀ ms < 2 ^ 32,
      (∀ i, getCurrentProcess t.kernel = some i →
        (SleepsUntil (processSlept ms t.kernel) i (now + f * ms / 1000) ↔
          f * ms < 2 ^ 32 ∧ now + f * ms / 1000 < 2 ^ 64)) ∧
      (timerSleepTarget ms t.kernel = now + max 1 (f * ms / 1000) ↔
        f * ms < 2 ^ 32 ∧ now + max 1 (f * ms / 1000) < 2 ^ 64) ∧
      ∀ pid i, getProcess pid t.kernel = some i →
        (SleepsUntil (fun fuel => sleepProcess fuel pid ms t.kernel) i (now + f * ms / 1000) ↔
          ms = f * ms / 1000 ∧ now + ms < 2 ^ 64)) ∧
    ∀ i argv arg, getCurrentProcess t.kernel = some i → argv[1]? = some arg → 0 < atoi arg →
      ((∀ fuel s, cmdSleep fuel argv t.kernel = some (0, some (.scheduled s)) →
          SleepsFor i (f * (atoi arg).toNat) { t with kernel := s }) ↔
        (t.kernel.processes i).pid = MAX_PROCESSES ∨ NotCutShort f (atoi arg).toNat now) := by
  intro f now
  have numbered := run_numbered run
  have wf := numbered.wellFormed
  have hf : t.kernel.timerFrequency = f := run_frequency run
  obtain ⟨hone, hmax⟩ := acceptedFrequency_bounds frequency
  refine ⟨fun ms hms => ⟨fun i hcurrent => ?_, ?_, fun pid i hfind => ?_⟩,
    fun i argv arg hcurrent harg hpos => ?_⟩
  · rw [processSlept_eq hcurrent, sleepsUntil_iff wf, sleepTicks, wmul, hf]
    exact ticks_exact_iff hticks
  · rw [timerSleepTarget, sleepTicks, wmul, hf]
    exact target_exact_iff hticks
  · have hcall : (fun fuel => sleepProcess fuel pid ms t.kernel)
        = fun fuel => schedule fuel (fallAsleep i ms t.kernel) := by
      funext fuel
      exact sleepProcess_eq hfind
    rw [hcall, sleepsUntil_iff wf]
    exact millis_exact_iff hticks hms
  · obtain ⟨seconds, hatoi⟩ := Int.eq_ofNat_of_zero_le hpos.le
    have hint := atoi_lt arg
    rw [hatoi] at hpos hint
    rw [hatoi, Int.toNat_natCast]
    have hcall : ∀ fuel s, cmdSleep fuel argv t.kernel = some (0, some (.scheduled s)) ↔
        schedule fuel (fallAsleep i (1000 * f * seconds % 2 ^ 32 / 1000) t.kernel) = some s := by
      intro fuel s
      rw [cmdSleep_scheduled hcurrent harg hatoi (by omega), hf]
    have hsleeps : ∀ fuel s, schedule fuel
          (fallAsleep i (1000 * f * seconds % 2 ^ 32 / 1000) t.kernel) = some s →
        (SleepsFor i (f * seconds) { t with kernel := s } ↔
          (t.kernel.processes i).pid = MAX_PROCESSES ∨
            ∀ k, 1 ≤ k → k < f * seconds → k = 1 ∨ 100 ≤ f →
              (now + k) % 2 ^ 64 < wadd 64 now (1000 * f * seconds % 2 ^ 32 / 1000)) := by
      intro fuel s hs
      rw [sleepsFor_fallAsleep numbered hticks hcurrent hs, hf]
    rw [← notCutShort_iff hone hmax (by omega) (by omega) hticks]
    constructor
    · intro hall
      obtain ⟨s, hs⟩ := @schedule_returns_of_enough enoughFuel _
        (wf.fallAsleep i (1000 * f * seconds % 2 ^ 32 / 1000)) (by decide)
      exact (hsleeps _ s hs).mp (hall _ s ((hcall _ s).mpr hs))
    · intro hlong fuel s hcmd
      exact (hsleeps fuel s ((hcall fuel s).mp hcmd)).mpr hlong

/-- At 100 Hz `init` sleeps for 5000 milliseconds until tick 500. -/
theorem sleep_ticks_iff_five_seconds :
    ∃ ops t, Run KernelStep (.start true 0 (acceptedFrequency 100)) ops t ∧
      getCurrentProcess t.kernel = some 0 ∧ SleepsUntil (processSlept 5000 t.kernel) 0 500 := by
  have run : Run KernelStep (.start true 0 (acceptedFrequency 100))
      [some (.createProcess [] 0 0 0)] _ := .single (.table .createProcess)
  have hcurrent : getCurrentProcess
      (createProcess [] 0 0 0 (.start true 0 (acceptedFrequency 100))).2.kernel = some 0 := by
    decide +kernel
  have hsleeps := ((sleep_ticks_iff run (by decide +kernel)).1 5000 (by decide)).1 0 hcurrent
  exact ⟨_, _, run, hcurrent, hsleeps.mpr (by decide +kernel)⟩

/-- At 100 Hz the product of almost twelve hours does not fit 32 bits, and `process_sleep` waits
for a tick that has come; and `sleep_process` takes milliseconds for ticks. -/
theorem sleep_ticks_differ :
    ∃ ops t, Run KernelStep (.start true 0 (acceptedFrequency 100)) ops t ∧
      t.kernel.timerTicks = 0 ∧
      ¬ SleepsUntil (processSlept 42949673 t.kernel) 0 (0 + 100 * 42949673 / 1000) ∧
      ¬ SleepsUntil (fun fuel => sleepProcess fuel 1 1000 t.kernel) 0 (0 + 100 * 1000 / 1000) := by
  have run : Run KernelStep (.start true 0 (acceptedFrequency 100))
      [some (.createProcess [] 0 0 0)] _ := .single (.table .createProcess)
  have wf := (run_numbered run).wellFormed
  have hcurrent : getCurrentProcess
      (createProcess [] 0 0 0 (.start true 0 (acceptedFrequency 100))).2.kernel = some 0 := by
    decide +kernel
  have hfind : getProcess 1
      (createProcess [] 0 0 0 (.start true 0 (acceptedFrequency 100))).2.kernel = some 0 := by
    decide +kernel
  refine ⟨_, _, run, by decide +kernel, ?_, ?_⟩
  · rw [processSlept_eq hcurrent, sleepsUntil_iff wf]
    decide +kernel
  · have hcall : (fun fuel => sleepProcess fuel 1 1000
          (createProcess [] 0 0 0 (.start true 0 (acceptedFrequency 100))).2.kernel)
        = fun fuel => schedule fuel (fallAsleep 0 1000
          (createProcess [] 0 0 0 (.start true 0 (acceptedFrequency 100))).2.kernel) := by
      funext fuel
      exact sleepProcess_eq hfind
    rw [hcall, sleepsUntil_iff wf]
    decide +kernel

end Curnel.Process
