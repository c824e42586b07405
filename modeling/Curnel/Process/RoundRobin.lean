/-
The scheduler goes round the table.

Where no runnable process has a deliverable signal, `schedule` makes the next runnable slot
current and changes nothing that it looks at the next time (`schedule_next`). So as many
calls as there are runnable processes go once through `round`, the runnable slots in the
order in which the search comes to them; the last may be the slot where it began, which
the search reaches with its last probe and takes for none.
-/

import Curnel.Process.Running
import Curnel.Process.Delivery

namespace Curnel.Process

/-! ### The next runnable slot -/

/-- The first runnable slot after the current one is `k` places on. -/
structure FirstAfter (s : State) (k : Nat) : Prop where
  pos : 0 < k
  le : k ≤ MAX_PROCESSES
  runnable : runnable s (slotAfter s.currentProcessIndex k)
  least : ∀ m, 0 < m → m < k → ¬ Process.runnable s (slotAfter s.currentProcessIndex m)

theorem slotAfter_round (index : Slot) : slotAfter index MAX_PROCESSES = index := by
  apply Fin.ext
  have hindex : (index : Nat) < 64 := index.isLt
  simp only [slotAfter, Fin.ofNat, MAX_PROCESSES]
  omega

theorem slotAfter_slotAfter (index : Slot) (k m : Nat) :
    slotAfter (slotAfter index k) m = slotAfter index (k + m) := by
  apply Fin.ext
  simp only [slotAfter, Fin.ofNat, MAX_PROCESSES]
  omega

/-- Every slot comes once in a round. -/
theorem exists_place (index i : Slot) :
    ∃ k, 0 < k ∧ k ≤ MAX_PROCESSES ∧ slotAfter index k = i := by
  by_cases hi : i = index
  · exact ⟨MAX_PROCESSES, by decide, Nat.le_refl _, (slotAfter_round index).trans hi.symm⟩
  · obtain ⟨k, hpos, hlt, hk⟩ := exists_slotAfter hi
    exact ⟨k, hpos, hlt.le, hk⟩

theorem slotAfter_injective {index : Slot} {k m : Nat} (hk : 0 < k ∧ k ≤ MAX_PROCESSES)
    (hm : 0 < m ∧ m ≤ MAX_PROCESSES) (h : slotAfter index k = slotAfter index m) : k = m := by
  have hindex : (index : Nat) < 64 := index.isLt
  have hval := congrArg Fin.val h
  simp only [slotAfter, Fin.ofNat, MAX_PROCESSES] at hval hk hm
  omega

theorem exists_firstAfter {s : State} {i : Slot} (h : runnable s i) : ∃ k, FirstAfter s k := by
  obtain ⟨k, hpos, hle, hk⟩ := exists_place s.currentProcessIndex i
  have hsome : ∃ m, 0 < m ∧ runnable s (slotAfter s.currentProcessIndex m) :=
    ⟨k, hpos, hk.symm ▸ h⟩
  obtain ⟨hfirst, hrun⟩ := Nat.find_spec hsome
  refine ⟨Nat.find hsome, hfirst, ?_, hrun, fun m hm hlt hrun' => ?_⟩
  · exact (Nat.find_min' hsome ⟨hpos, hk.symm ▸ h⟩).trans hle
  · exact Nat.find_min hsome hlt ⟨hm, hrun'⟩

/-- The scheduler selects the first runnable slot, unless it is the current one. -/
theorem FirstAfter.nextRunnable {s : State} {k : Nat} (first : FirstAfter s k) :
    nextRunnable s =
      if k = MAX_PROCESSES then none else some (slotAfter s.currentProcessIndex k) := by
  obtain ⟨m, hm, hsearch, hbefore, hfound⟩ :=
    scheduleSearch_spec s MAX_PROCESSES 0 s.currentProcessIndex
  have hmk : m = k := by
    rcases lt_trichotomy m k with hlt | heq | hlt
    · obtain ⟨hpos, hrun⟩ := hfound (lt_of_lt_of_le hlt first.le)
      exact absurd hrun (first.least m hpos hlt)
    · exact heq
    · exact absurd first.runnable (hbefore k first.pos hlt)
  subst hmk
  unfold Process.nextRunnable
  rw [hsearch]
  simp only [Nat.zero_add]

/-! ### A switch -/

/-- With unique PIDs, the context switch finds the current process. -/
theorem dispatch_eq {s : State} (unique : UniquePids s)
    (hpid : (s.processes s.currentProcessIndex).pid ≠ 0) :
    dispatch s = s.modify s.currentProcessIndex fun p =>
      { p with state := .running, cpuTime := Lib.Word.wadd 64 p.cpuTime 1 } := by
  unfold dispatch switchToProcess
  rw [getProcess_of_pid unique hpid]
  rfl

theorem deliverable_selected {s : State} {i j : Slot} {n : Nat} :
    Deliverable (selected i s) j n ↔ Deliverable s j n := by
  rw [deliverable_iff, deliverable_iff]
  have hhandling : ((selected i s).processes j).handlingSignal = (s.processes j).handlingSignal := by
    unfold selected State.setState
    exact modify_congr Process.handlingSignal (by rfl) j
  have hpending : ((selected i s).processes j).pendingSignals = (s.processes j).pendingSignals := by
    unfold selected State.setState
    exact modify_congr Process.pendingSignals (by rfl) j
  rw [hhandling, hpending, (evolves_selected i s).blockedSignals_eq j,
    (evolves_selected i s).enabled]

/-- A process without deliverable signals is dispatched. -/
theorem schedule_dispatches {fuel : Nat} {s : State} {i : Slot}
    (hnext : nextRunnable s = some i) (calm : ∀ n, ¬ Deliverable s i n) :
    schedule (fuel + 2) s = some (dispatch (selected i s)) := by
  have hfate : pendingFate i (selected i s) = (.none, selected i s) :=
    pendingFate_of_none fun n hn => calm n (deliverable_selected.mp hn)
  rw [schedule_of_some hnext, signalHandlePending, hfate]
  rfl

/-- What the scheduler looks at is the same in both states. -/
structure SameTurns (s s' : State) : Prop where
  pid : ∀ i, (s'.processes i).pid = (s.processes i).pid
  runnable : ∀ i, runnable s' i ↔ Process.runnable s i
  deliverable : ∀ i n, Deliverable s' i n ↔ Deliverable s i n

theorem SameTurns.refl (s : State) : SameTurns s s :=
  ⟨fun _ => rfl, fun _ => Iff.rfl, fun _ _ => Iff.rfl⟩

theorem SameTurns.trans {s s' s'' : State} (first : SameTurns s s') (second : SameTurns s' s'') :
    SameTurns s s'' :=
  ⟨fun i => (second.pid i).trans (first.pid i),
    fun i => (second.runnable i).trans (first.runnable i),
    fun i n => (second.deliverable i n).trans (first.deliverable i n)⟩

/-- A change of state and CPU time of a runnable process that keeps it runnable. -/
theorem SameTurns.modify {s : State} {i : Slot} {f : Process → Process}
    (hrun : Process.runnable s i) (hlasting : lasting (f (s.processes i)) = lasting (s.processes i))
    (hpending : (f (s.processes i)).pendingSignals = (s.processes i).pendingSignals)
    (hidle : (f (s.processes i)).handlingSignal = (s.processes i).handlingSignal)
    (hstate : (f (s.processes i)).state = .running) : SameTurns s (s.modify i f) := by
  have evolves : Evolves s (s.modify i f) := evolves_modify hlasting hpending
  refine ⟨evolves.pid_eq, fun j => ?_, fun j n => ?_⟩
  · by_cases hj : j = i
    · subst hj
      unfold Process.runnable
      rw [evolves.pid_eq j, modify_same, hstate]
      refine iff_of_true ⟨hrun.1, Or.inr rfl⟩ hrun
    · rw [Process.runnable, Process.runnable, modify_other f hj]
  · rw [deliverable_iff, deliverable_iff, modify_congr Process.handlingSignal hidle j,
      modify_congr Process.pendingSignals hpending j, evolves.blockedSignals_eq j]
    exact Iff.rfl

theorem sameTurns_index (s : State) (i : Slot) : SameTurns s { s with currentProcessIndex := i } := by
  refine ⟨fun _ => rfl, fun _ => Iff.rfl, fun j n => ?_⟩
  rw [deliverable_iff, deliverable_iff]

theorem sameTurns_selected {s : State} {i : Slot} (hrun : Process.runnable s i) :
    SameTurns s (selected i s) := by
  unfold selected State.setState
  exact (sameTurns_index s i).trans
    (SameTurns.modify (((sameTurns_index s i).runnable i).mpr hrun) rfl rfl rfl rfl)

/-- A table in which no runnable process has a deliverable signal. -/
structure Calm (s : State) : Prop where
  unique : UniquePids s
  quiet : ∀ i, runnable s i → ∀ n, ¬ Deliverable s i n

theorem Calm.same {s s' : State} (calm : Calm s) (same : SameTurns s s') : Calm s' := by
  refine ⟨fun i j hi hij => ?_, fun i hi n hn => ?_⟩
  · rw [same.pid i] at hi hij
    rw [same.pid j] at hij
    exact calm.unique i j hi hij
  · exact calm.quiet i ((same.runnable i).mp hi) n ((same.deliverable i n).mp hn)

/-- **One turn.** `schedule` makes the next runnable slot current. -/
theorem schedule_next {fuel k : Nat} {s : State} (calm : Calm s) (first : FirstAfter s k) :
    ∃ s', schedule (fuel + 2) s = some s' ∧
      s'.currentProcessIndex = slotAfter s.currentProcessIndex k ∧ SameTurns s s' := by
  have hnext := first.nextRunnable
  have hrun := first.runnable
  by_cases hround : k = MAX_PROCESSES
  · -- the last probe is the current slot itself
    rw [if_pos hround] at hnext
    refine ⟨s, schedule_of_none hnext, ?_, SameTurns.refl s⟩
    rw [hround, slotAfter_round]
  · rw [if_neg hround] at hnext
    set i := slotAfter s.currentProcessIndex k with hi
    have same₁ := sameTurns_selected hrun
    have hpid : ((selected i s).processes i).pid ≠ 0 := by
      rw [same₁.pid i]
      exact hrun.1
    have hdispatch := dispatch_eq (calm.same same₁).unique hpid
    refine ⟨_, schedule_dispatches hnext (calm.quiet i hrun), ?_, same₁.trans ?_⟩
    · rw [hdispatch]
      rfl
    · rw [hdispatch]
      exact SameTurns.modify ((same₁.runnable i).mpr hrun) rfl rfl rfl rfl

/-! ### Rounds -/

/-- The current slot after each of `n` calls of `schedule`. -/
def turns (fuel : Nat) : Nat → State → Option (List Slot)
  | 0, _ => some []
  | n + 1, s =>
      match schedule fuel s with
      | none => none
      | some t => (turns fuel n t).map (t.currentProcessIndex :: ·)

/-- The runnable slots from `k` places after `index` on, with `n` slots to go. -/
def roundFrom (s : State) (index : Slot) (k n : Nat) : List Slot :=
  ((List.range' k n).map (slotAfter index)).filter (runnable s ·)

/-- The runnable slots in the order in which they come after the current one. -/
def round (s : State) : List Slot := roundFrom s s.currentProcessIndex 1 MAX_PROCESSES

theorem roundFrom_succ (s : State) (index : Slot) (k n : Nat) :
    roundFrom s index k (n + 1) =
      if runnable s (slotAfter index k) then slotAfter index k :: roundFrom s index (k + 1) n
      else roundFrom s index (k + 1) n := by
  rw [roundFrom, List.range'_succ, List.map_cons, List.filter_cons]
  simp only [decide_eq_true_eq]
  rfl

theorem roundFrom_congr {s s' : State} (h : ∀ i, runnable s' i ↔ runnable s i) (index : Slot)
    (k n : Nat) : roundFrom s' index k n = roundFrom s index k n := by
  simp only [roundFrom, h]

theorem mem_round {s : State} {i : Slot} : i ∈ round s ↔ runnable s i := by
  rw [round, roundFrom, List.mem_filter, List.mem_map, decide_eq_true_eq, and_iff_right_iff_imp]
  intro _
  obtain ⟨k, hpos, hle, hk⟩ := exists_place s.currentProcessIndex i
  refine ⟨k, ?_, hk⟩
  rw [List.mem_range'_1]
  omega

theorem nodup_round (s : State) : (round s).Nodup := by
  apply List.Nodup.filter
  refine List.Nodup.map_on (fun k hk m hm h => ?_) (List.nodup_range' (h := Nat.one_pos))
  rw [List.mem_range'_1] at hk hm
  exact slotAfter_injective (by omega) (by omega) h

theorem length_round (s : State) : (round s).length = runnableCount s := by
  rw [runnableCount, ← List.toFinset_card_of_nodup (nodup_round s)]
  congr 1
  ext i
  simp [mem_round]

/-- From `k` places after `index`, with no runnable slot up to `m` further on, the calls go
through the runnable slots that are left of the round. -/
theorem turns_roundFrom {fuel : Nat} (n : Nat) {s : State} {index : Slot} {k m : Nat}
    (calm : Calm s) (hcurrent : s.currentProcessIndex = slotAfter index k)
    (hnone : ∀ l, 0 < l → l ≤ m → ¬ runnable s (slotAfter index (k + l)))
    (hround : k + m + n = MAX_PROCESSES) :
    turns (fuel + 2) (roundFrom s index (k + m + 1) n).length s =
      some (roundFrom s index (k + m + 1) n) := by
  induction n generalizing s k m with
  | zero => rfl
  | succ n ih =>
      rw [roundFrom_succ]
      by_cases hrun : runnable s (slotAfter index (k + m + 1))
      · rw [if_pos hrun]
        have first : FirstAfter s (m + 1) := by
          refine ⟨Nat.succ_pos m, by omega, ?_, fun l hpos hlt => ?_⟩
          · rw [hcurrent, slotAfter_slotAfter]
            exact hrun
          · rw [hcurrent, slotAfter_slotAfter]
            exact hnone l hpos (by omega)
        obtain ⟨s', hcall, hcurrent', same⟩ := @schedule_next fuel _ s calm first
        rw [hcurrent, slotAfter_slotAfter, ← Nat.add_assoc] at hcurrent'
        have hrest := ih (calm.same same) hcurrent' (fun l hpos hl => by omega) (m := 0) (by omega)
        rw [Nat.add_zero, roundFrom_congr same.runnable] at hrest
        rw [List.length_cons, turns, hcall]
        simp only [hrest, hcurrent', Option.map_some]
      · rw [if_neg hrun]
        refine ih calm hcurrent (fun l hpos hl => ?_) (m := m + 1) (by omega)
        by_cases hl' : l ≤ m
        · exact hnone l hpos hl'
        · have hlast : l = m + 1 := by omega
          subst hlast
          exact hrun

/-- **Round robin.** With unique PIDs and no deliverable signal at any runnable process, as
many calls of `schedule` as there are runnable processes make each of them current once, in
the order of their slots round the table from the current one, and no other. -/
theorem schedule_round_robin {fuel : Nat} {s : State} (unique : UniquePids s)
    (quiet : ∀ i, runnable s i → ∀ n, ¬ Deliverable s i n) (hfuel : 2 ≤ fuel) :
    turns fuel (runnableCount s) s = some (round s) ∧ (round s).Nodup ∧
      ∀ i, i ∈ round s ↔ runnable s i := by
  obtain ⟨fuel, rfl⟩ : ∃ k, fuel = k + 2 := ⟨fuel - 2, by omega⟩
  refine ⟨?_, nodup_round s, fun i => mem_round⟩
  rw [← length_round]
  exact turns_roundFrom MAX_PROCESSES ⟨unique, quiet⟩ (slotAfter_zero _).symm
    (fun l hpos hl => by omega) (m := 0) rfl

theorem schedule_round_robin_initAndChild :
    turns 2 (runnableCount initAndChild) initAndChild = some (round initAndChild) ∧
      (round initAndChild).Nodup ∧ ∀ i, i ∈ round initAndChild ↔ runnable initAndChild i :=
  schedule_round_robin wellFormed_initAndChild.uniquePids
    (fun _ _ n hn => not_sigMem_zero n hn.pending) (Nat.le_refl _)

end Curnel.Process
