/-
How often the timer interrupt enters the scheduler.

`timer_handler` divides the ticks by `timer_frequency / 100`, which is zero below 100 Hz.
From 100 Hz on every interrupt returns, and `N` of them enter the scheduler as often as
the divider beats (`run_scheduled`). That is once every `timer_frequency / 100` ticks
exactly as long as the wrap of the tick counter does not show (`timer_divides_iff`).
-/

import Curnel.Process.Sweep
import Curnel.Lib.Clock

namespace Curnel.Process

open Lib Word

/-! ### Starting the timer -/

/-- The frequency that `timer_init` sets. -/
def acceptedFrequency (frequency : Nat) : Nat :=
  let frequency := if frequency < 1 then 1 else frequency
  if frequency > 1193 then 1193 else frequency

/-- `timer_init`, without its output to the timer chip. -/
def timerInit (frequency : Nat) (s : State) : State :=
  { s with timerFrequency := acceptedFrequency frequency, timerTicks := 0 }

def Table.timerInit (frequency : Nat) (t : Table) : Table :=
  { t with kernel := Process.timerInit frequency t.kernel }

/-- `timer_ticks % (timer_frequency / 100)` at the next interrupt divides by zero. -/
def DividesByZero (s : State) : Prop := s.timerFrequency / 100 = 0

/-- The next interrupt enters the scheduler. -/
def EntersScheduler (s : State) : Prop := nextTick s % (s.timerFrequency / 100) = 0

instance (s : State) : Decidable (EntersScheduler s) := inferInstanceAs (Decidable (_ = _))

/-! ### Interrupts -/

/-- Timer interrupts that return, each with whether it has entered the scheduler, and the
other steps of the kernel. -/
inductive TickStep : Table → Option Bool → Table → Prop where
  | interrupt {t : Table} {fuel : Nat} {s : State} : timerHandler fuel t.kernel = some s →
      TickStep t (some (decide (EntersScheduler t.kernel))) { t with kernel := s }
  | other {t t' : Table} {op : Option TableOp} : KernelStep t op t' →
      op ≠ some (.call .timerHandler) → TickStep t none t'

/-- How many interrupts there are. -/
def interrupts (ls : List (Option Bool)) : Nat := ls.countP Option.isSome

/-- How many of them have entered the scheduler. -/
def scheduled (ls : List (Option Bool)) : Nat := ls.count (some true)

/-- In every run of `n` interrupts none divides by zero, and one in so many enters the
scheduler. -/
structure Divides (t : Table) (n : Nat) : Prop where
  never_by_zero : ∀ ls u, Run TickStep t ls u → interrupts ls < n → ¬ DividesByZero u.kernel
  scheduled_eq : ∀ ls u, Run TickStep t ls u → interrupts ls = n →
    scheduled ls = n / max 1 (t.kernel.timerFrequency / 100)

theorem timerHandler_time {fuel : Nat} {s s' : State} (h : timerHandler fuel s = some s') :
    s'.timerTicks = nextTick s ∧ s'.timerFrequency = s.timerFrequency := by
  rcases (timerHandler_cases h).2 with ⟨-, hrun⟩ | ⟨-, hout⟩
  · have time := SameTime.schedule hrun
    exact ⟨time.ticks.trans (timerTick_ticks s), time.frequency.trans (timerTick_frequency s)⟩
  · rw [hout]
    exact ⟨timerTick_ticks s, timerTick_frequency s⟩

/-- From 100 Hz on the interrupt returns. -/
theorem timerHandler_returns_of {s : State} (wf : WellFormed s) (hdivides : ¬ DividesByZero s) :
    ∃ s', timerHandler enoughFuel s = some s' := by
  rw [DividesByZero, ← timerTick_frequency] at hdivides
  rw [timerHandler_eq, if_neg hdivides]
  split
  · exact schedule_returns_of_enough (wf.evolves (evolves_timerTick s)) (by decide)
  · exact ⟨_, rfl⟩

/-- Only the interrupt counts ticks. -/
theorem Step.sameTime {s s' : State} {op : Op} (step : Step s op s') (hop : op ≠ .timerHandler) :
    SameTime s s' := by
  cases step with
  | signalSend h => exact (SameTime.keptByCalls.calls _).signalSend h
  | signalHandlePending h => exact (SameTime.keptByCalls.calls _).signalHandlePending h
  | schedule h => exact SameTime.schedule h
  | exitProcess h => exact (SameTime.keptByCalls.calls _).exitProcess h
  | stopProcess h => exact (SameTime.keptByCalls.calls _).stopProcess h
  | continueProcess => exact SameTime.continueProcess _ s
  | blockProcess =>
      unfold Process.blockProcess
      split
      · exact .refl s
      · exact ⟨rfl, rfl⟩
  | unblockProcess => exact SameTime.keptByCalls.unblockProcess _ s
  | @sleepProcess fuel pid ms s s' h =>
      rcases sleepProcess_cases h with ⟨-, rfl⟩ | ⟨i, -, hrun⟩
      · exact .refl s'
      · have asleep : SameTime s (fallAsleep i ms s) := ⟨rfl, rfl⟩
        exact asleep.trans (SameTime.schedule hrun)
  | timerHandler => exact absurd rfl hop

theorem sameTime_createProcess (name : List UInt8) (entryPoint parentPid stack : Nat)
    (t : Table) : SameTime t.kernel (createProcess name entryPoint parentPid stack t).2.kernel := by
  unfold createProcess
  split
  · exact .refl _
  · exact ⟨rfl, rfl⟩

theorem sameTime_sysFork (stack : Nat) (t : Table) :
    SameTime t.kernel (sysFork stack t).2.kernel := by
  unfold sysFork
  split
  · exact .refl _
  · have created := sameTime_createProcess (t.records ‹Slot›).name 0
      (t.kernel.processes ‹Slot›).pid stack t
    dsimp only
    split
    · exact created
    split
    · exact created
    · exact created.trans ⟨rfl, rfl⟩

theorem KernelStep.sameTime {t t' : Table} {op : Option TableOp} (step : KernelStep t op t')
    (hop : op ≠ some (.call .timerHandler)) : SameTime t.kernel t'.kernel := by
  cases step with
  | table step =>
      cases step with
      | createProcess => exact sameTime_createProcess ..
      | sysFork => exact sameTime_sysFork ..
      | call h => exact h.sameTime fun heq => hop (by rw [heq])
  | other _ _ hticks hfrequency => exact ⟨hticks, hfrequency⟩

/-! ### Runs -/

theorem TickStep.numbered {t t' : Table} {l : Option Bool} (numbered : Numbered t)
    (step : TickStep t l t') : Numbered t' := by
  cases step with
  | interrupt h => exact numbered.evolves (Step.timerHandler h).evolves
  | other h => exact h.numbered numbered

theorem interrupts_cons (l : Option Bool) (ls : List (Option Bool)) :
    interrupts (l :: ls) = (if l.isSome then 1 else 0) + interrupts ls := by
  rw [interrupts, List.countP_cons, Nat.add_comm]
  rfl

theorem scheduled_cons (l : Option Bool) (ls : List (Option Bool)) :
    scheduled (l :: ls) = (if l = some true then 1 else 0) + scheduled ls := by
  rw [scheduled, List.count_cons, Nat.add_comm]
  simp [scheduled]

/-- From the `n`-th tick on: the ticks counted, and the interrupts that enter the scheduler. -/
theorem run_ticks {t u : Table} {ls : List (Option Bool)} {n : Nat} (run : Run TickStep t ls u)
    (hticks : t.kernel.timerTicks = n % 2 ^ 64) :
    u.kernel.timerTicks = (n + interrupts ls) % 2 ^ 64 ∧
      u.kernel.timerFrequency = t.kernel.timerFrequency ∧
      beats (2 ^ 64) (t.kernel.timerFrequency / 100) n + scheduled ls
        = beats (2 ^ 64) (t.kernel.timerFrequency / 100) (n + interrupts ls) := by
  induction run generalizing n with
  | nil _ => exact ⟨hticks, rfl, rfl⟩
  | @cons t v u l ls first _ ih =>
      rw [interrupts_cons, scheduled_cons]
      cases first with
      | interrupt h =>
          obtain ⟨hnext, hfrequency⟩ := timerHandler_time h
          have hcount : nextTick t.kernel = (n + 1) % 2 ^ 64 := by
            rw [nextTick, wadd, hticks]
            omega
          obtain ⟨hticks', hfrequency', hbeats⟩ := ih (hnext.trans hcount)
          rw [hfrequency] at hfrequency' hbeats
          have hone : (if (some (decide (EntersScheduler t.kernel))).isSome then 1 else 0) = 1 :=
            rfl
          rw [hone, ← Nat.add_assoc]
          refine ⟨hticks', hfrequency', hbeats ▸ ?_⟩
          rw [beats, ← Nat.add_assoc]
          simp only [Option.some.injEq, decide_eq_true_eq, EntersScheduler, hcount]
      | other h hop =>
          have time := h.sameTime hop
          obtain ⟨hticks', hfrequency', hbeats⟩ := ih (time.ticks.trans hticks)
          rw [time.frequency] at hfrequency' hbeats
          have hnone : (if (none : Option Bool).isSome then 1 else 0) = 0 := rfl
          have hno : (if (none : Option Bool) = some true then 1 else 0) = 0 := rfl
          rw [hnone, hno, Nat.zero_add, Nat.zero_add]
          exact ⟨hticks', hfrequency', hbeats⟩

/-- From 100 Hz on there are runs of any number of interrupts. -/
theorem exists_interrupts {t : Table} (numbered : Numbered t) (n : Nat)
    (hdivides : ¬ DividesByZero t.kernel) :
    ∃ ls u, Run TickStep t ls u ∧ interrupts ls = n := by
  induction n generalizing t with
  | zero => exact ⟨[], t, .nil t, rfl⟩
  | succ n ih =>
      obtain ⟨s, hs⟩ := timerHandler_returns_of numbered.wellFormed hdivides
      have first := @TickStep.interrupt t _ s hs
      obtain ⟨-, hfrequency⟩ := timerHandler_time hs
      obtain ⟨ls, u, rest, hcount⟩ := ih (first.numbered numbered) (by
        rw [DividesByZero, hfrequency]
        exact hdivides)
      refine ⟨_, u, .cons first rest, ?_⟩
      rw [interrupts_cons, hcount, Nat.add_comm]
      rfl

theorem Numbered.timerInit {t : Table} (numbered : Numbered t) (frequency : Nat) :
    Numbered (t.timerInit frequency) :=
  ⟨numbered.pos, numbered.le, numbered.pid, numbered.exitSignal⟩

/-- Whether the interrupts after `timer_init` divide as they should: from 100 Hz on, as long
as the wrap of the counter does not make up for more than one interval. -/
theorem timer_divides_iff {enabled : Bool} {ticks frequency₀ : Nat}
    {ops : List (Option TableOp)} {t : Table}
    (run : Run KernelStep (.start enabled ticks frequency₀) ops t) (frequency n : Nat) :
    let q := acceptedFrequency frequency / 100
    Divides (t.timerInit frequency) n ↔
      n = 0 ∨ 100 ≤ acceptedFrequency frequency ∧
        n / 2 ^ 64 * ((q - 2 ^ 64 % q) % q) ≤ n % 2 ^ 64 % q := by
  intro q
  have numbered := (run_numbered run).timerInit frequency
  have hq : (t.timerInit frequency).kernel.timerFrequency / 100 = q := rfl
  have hstart : (t.timerInit frequency).kernel.timerTicks = 0 % 2 ^ 64 := rfl
  have hslow : 100 ≤ acceptedFrequency frequency ↔ 0 < q := by omega
  constructor
  · intro divides
    rcases Nat.eq_zero_or_pos n with hzero | hpos
    · exact .inl hzero
    have hfast : ¬ DividesByZero (t.timerInit frequency).kernel :=
      divides.never_by_zero [] _ (.nil _) hpos
    have hqpos : 0 < q := Nat.pos_of_ne_zero hfast
    refine .inr ⟨hslow.mpr hqpos, ?_⟩
    obtain ⟨ls, u, run, hcount⟩ := exists_interrupts numbered n hfast
    have hbeats := (run_ticks run hstart).2.2
    have hdone := divides.scheduled_eq ls u run hcount
    rw [hq, Nat.max_eq_right hqpos] at hdone
    rw [hq, beats, Nat.zero_add, Nat.zero_add, hcount] at hbeats
    exact (beats_eq_div_iff (by decide) hqpos n).mp (hbeats.symm.trans hdone)
  · rintro (rfl | ⟨hfast, hover⟩)
    · refine ⟨fun _ _ _ hlt => absurd hlt (Nat.not_lt_zero _), fun ls u run hnone => ?_⟩
      have hbeats := (run_ticks run hstart).2.2
      rw [hnone, beats, Nat.zero_add] at hbeats
      rw [hbeats, Nat.zero_div]
    · have hqpos := hslow.mp hfast
      constructor
      · intro ls u run _
        rw [DividesByZero, (run_ticks run hstart).2.1]
        exact hqpos.ne'
      · intro ls u run hcount
        have hbeats := (run_ticks run hstart).2.2
        rw [hq, beats, Nat.zero_add, Nat.zero_add, hcount] at hbeats
        rw [hq, Nat.max_eq_right hqpos, hbeats]
        exact (beats_eq_div_iff (by decide) hqpos n).mpr hover

/-- A thousand interrupts at 250 Hz. -/
theorem timer_divides_iff_at_250 :
    Divides ((Table.start true 0 0).timerInit 250) 1000 := by
  have start : Run KernelStep (.start true 0 0) [] _ := .nil _
  exact (timer_divides_iff start 250 1000).mpr (by decide)

/-- At 99 Hz the first interrupt divides by zero. -/
theorem timer_divides_by_zero_at_99 : ¬ Divides ((Table.start true 0 0).timerInit 99) 1 :=
  fun divides => divides.never_by_zero [] _ (.nil _) (by decide) rfl

end Curnel.Process
