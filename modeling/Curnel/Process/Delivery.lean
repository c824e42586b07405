/-
What `signal_handle_pending` does, by the first signal it can deliver.

Its scan takes the deliverable signals in increasing order. With none it does nothing; an
ignored one it takes, and goes on as if it had started without it; a custom handler and
a default action that terminates end it. The four lemmas on `pendingFate` say no more
than that, and no later proof unfolds the scan.
-/

import Curnel.Process.Pending

namespace Curnel.Process

/-! ### Deliverable signals -/

/-- `signal_handle_pending` may deliver `signum` to the process in slot `i`. -/
structure Deliverable (s : State) (i : Slot) (signum : Nat) : Prop where
  enabled : s.signalHandlingEnabled = true
  idle : (s.processes i).handlingSignal = false
  range : 1 ≤ signum ∧ signum < MAX_SIGNALS
  pending : SigMem (s.processes i).pendingSignals signum
  free : ¬ SigMem (s.processes i).blockedSignals signum

/-- The signal that is delivered first. -/
structure Lowest (s : State) (i : Slot) (signum : Nat) : Prop where
  deliverable : Deliverable s i signum
  least : ∀ m < signum, ¬ Deliverable s i m

/-- The signal is taken without effect. -/
def Ignored (s : State) (i : Slot) (signum : Nat) : Prop :=
  handlerOf s i signum = SIG_IGN ∨
    handlerOf s i signum = SIG_DFL ∧ defaultSignalActions.getD signum 0 = 0

/-- The signal terminates the process. -/
def Fatal (s : State) (i : Slot) (signum : Nat) : Prop :=
  handlerOf s i signum = SIG_DFL ∧ defaultSignalActions.getD signum 0 ≠ 0

theorem deliverable_iff {s : State} {i : Slot} {signum : Nat} :
    Deliverable s i signum ↔
      s.signalHandlingEnabled = true ∧ (s.processes i).handlingSignal = false ∧
        (1 ≤ signum ∧ signum < MAX_SIGNALS) ∧ SigMem (s.processes i).pendingSignals signum ∧
        ¬ SigMem (s.processes i).blockedSignals signum :=
  ⟨fun ⟨h₁, h₂, h₃, h₄, h₅⟩ => ⟨h₁, h₂, h₃, h₄, h₅⟩, fun ⟨h₁, h₂, h₃, h₄, h₅⟩ => ⟨h₁, h₂, h₃, h₄, h₅⟩⟩

instance (s : State) (i : Slot) (signum : Nat) : Decidable (Deliverable s i signum) :=
  decidable_of_iff' _ deliverable_iff

/-- Every signal is ignored, fatal or handled. -/
theorem ignored_or_fatal_or_custom (s : State) (i : Slot) (signum : Nat) :
    Ignored s i signum ∨ Fatal s i signum ∨ IsCustom (handlerOf s i signum) := by
  unfold Ignored Fatal IsCustom
  tauto

theorem Fatal.not_ignored {s : State} {i : Slot} {signum : Nat} (h : Fatal s i signum) :
    ¬ Ignored s i signum := by
  rintro (hign | ⟨-, hzero⟩)
  · rw [h.1] at hign
    exact absurd hign (by decide)
  · exact h.2 hzero

theorem Fatal.not_custom {s : State} {i : Slot} {signum : Nat} (h : Fatal s i signum) :
    ¬ IsCustom (handlerOf s i signum) := fun custom => custom.1 h.1

theorem exists_lowest {s : State} {i : Slot} {signum : Nat} (h : Deliverable s i signum) :
    ∃ n ≤ signum, Lowest s i n :=
  ⟨Nat.find ⟨signum, h⟩, Nat.find_min' _ h, Nat.find_spec ⟨signum, h⟩,
    fun _ hm => Nat.find_min ⟨signum, h⟩ hm⟩

/-! ### One round of the scan -/

section Scan

variable {i : Slot} {s : State}

theorem pendingScan_skip {n signum : Nat}
    (h : ¬ (SigMem (s.processes i).pendingSignals signum ∧
      ¬ SigMem (s.processes i).blockedSignals signum)) :
    pendingScan i (n + 1) signum s = pendingScan i n (signum + 1) s := by
  have hskip : ¬ ((s.processes i).pendingSignals &&& sigBit signum ≠ 0 ∧
      (s.processes i).blockedSignals &&& sigBit signum = 0) := by
    rintro ⟨hmem, hclear⟩
    exact h ⟨hmem, not_not.mpr hclear⟩
  rw [pendingScan]
  simp only
  rw [if_neg hskip]

/-- What the scan does with a signal that it takes. -/
theorem pendingScan_take {n signum : Nat} (hmem : SigMem (s.processes i).pendingSignals signum)
    (hfree : ¬ SigMem (s.processes i).blockedSignals signum) :
    (Ignored s i signum →
        pendingScan i (n + 1) signum s = pendingScan i n (signum + 1) (clearPending i signum s)) ∧
      (Fatal s i signum →
        pendingScan i (n + 1) signum s = (.terminate signum, clearPending i signum s)) ∧
      (IsCustom (handlerOf s i signum) →
        pendingScan i (n + 1) signum s =
          (.handled, callHandler i signum (handlerOf s i signum) (clearPending i signum s))) := by
  have htaken : (s.processes i).pendingSignals &&& sigBit signum ≠ 0 ∧
      (s.processes i).blockedSignals &&& sigBit signum = 0 := ⟨hmem, not_not.mp hfree⟩
  rw [pendingScan]
  simp only
  rw [if_pos htaken]
  change (Ignored s i signum → (if handlerOf s i signum = SIG_DFL then _ else _) = _) ∧
    (Fatal s i signum → (if handlerOf s i signum = SIG_DFL then _ else _) = _) ∧
    (IsCustom (handlerOf s i signum) → (if handlerOf s i signum = SIG_DFL then _ else _) = _)
  refine ⟨?_, ?_, ?_⟩
  · rintro (hign | ⟨hdfl, hzero⟩)
    · have hdfl : handlerOf s i signum ≠ SIG_DFL := by
        rw [hign]
        decide
      rw [if_neg hdfl]
      exact if_pos hign
    · rw [if_pos hdfl, hzero, if_neg (by decide), if_pos rfl]
  · rintro ⟨hdfl, hfatal⟩
    have hterm := (defaultSignalActions_terminate signum).resolve_left hfatal
    rw [if_pos hdfl, if_pos hterm]
  · rintro ⟨hdfl, hign⟩
    rw [if_neg hdfl]
    exact if_neg hign

/-- The scan passes over what is not deliverable. -/
theorem pendingScan_pass {start k n : Nat}
    (h : ∀ m, start ≤ m → m < start + k → ¬ (SigMem (s.processes i).pendingSignals m ∧
      ¬ SigMem (s.processes i).blockedSignals m)) :
    pendingScan i (k + n) start s = pendingScan i n (start + k) s := by
  induction k generalizing start with
  | zero => rw [Nat.zero_add, Nat.add_zero]
  | succ k ih =>
      have hfuel : k + 1 + n = k + n + 1 := by omega
      have hend : start + (k + 1) = start + 1 + k := by omega
      rw [hfuel, pendingScan_skip (h start (Nat.le_refl _) (by omega)), hend]
      exact ih fun m hm hm' => h m (by omega) (by omega)

end Scan

/-! ### The scan as a whole -/

section Fate

variable {i : Slot} {s : State} {signum : Nat}

/-- What is not deliverable although it could be is not pending or is blocked. -/
theorem not_pending_of_not_deliverable (henabled : s.signalHandlingEnabled = true)
    (hidle : (s.processes i).handlingSignal = false) {m : Nat} (hrange : 1 ≤ m ∧ m < MAX_SIGNALS)
    (h : ¬ Deliverable s i m) : ¬ (SigMem (s.processes i).pendingSignals m ∧
      ¬ SigMem (s.processes i).blockedSignals m) :=
  fun hboth => h ⟨henabled, hidle, hrange, hboth.1, hboth.2⟩

theorem pendingFate_eq_scan (henabled : s.signalHandlingEnabled = true)
    (hidle : (s.processes i).handlingSignal = false) :
    pendingFate i s = pendingScan i (MAX_SIGNALS - 1) 1 s := by
  have hcode : ¬ s.signalHandlingEnabled = false := by
    rw [henabled]
    decide
  have hcode' : ¬ (s.processes i).handlingSignal = true := by
    rw [hidle]
    decide
  rw [pendingFate, if_neg hcode, if_neg hcode']

theorem pendingFate_of_none (h : ∀ n, ¬ Deliverable s i n) : pendingFate i s = (.none, s) := by
  by_cases henabled : s.signalHandlingEnabled = true
  · by_cases hidle : (s.processes i).handlingSignal = false
    · rw [pendingFate_eq_scan henabled hidle]
      have hpass := @pendingScan_pass i s 1 31 0 fun m hm hm' =>
        not_pending_of_not_deliverable henabled hidle ⟨hm, hm'⟩ (h m)
      exact hpass
    · have hbusy : (s.processes i).handlingSignal = true := by simpa using hidle
      rw [pendingFate, hbusy]
      split <;> rfl
  · have hdisabled : s.signalHandlingEnabled = false := by simpa using henabled
    rw [pendingFate, if_pos hdisabled]

/-- The scan comes to the lowest deliverable signal. -/
theorem Lowest.pendingFate_eq (lowest : Lowest s i signum) :
    pendingFate i s = pendingScan i (31 - signum + 1) signum s := by
  obtain ⟨⟨henabled, hidle, hrange, -, -⟩, hleast⟩ := lowest
  have hmax : MAX_SIGNALS = 32 := rfl
  have hpass := @pendingScan_pass i s 1 (signum - 1) (31 - signum + 1) fun m hm hm' =>
    not_pending_of_not_deliverable henabled hidle ⟨hm, by omega⟩ (hleast m (by omega))
  have hfuel : signum - 1 + (31 - signum + 1) = MAX_SIGNALS - 1 := by omega
  have hstart : 1 + (signum - 1) = signum := by omega
  rw [hfuel, hstart] at hpass
  rw [pendingFate_eq_scan henabled hidle, hpass]

theorem Lowest.fatal (lowest : Lowest s i signum) (h : Fatal s i signum) :
    pendingFate i s = (.terminate signum, clearPending i signum s) := by
  rw [lowest.pendingFate_eq]
  exact (pendingScan_take lowest.deliverable.pending lowest.deliverable.free).2.1 h

theorem Lowest.custom (lowest : Lowest s i signum) (h : IsCustom (handlerOf s i signum)) :
    pendingFate i s =
      (.handled, callHandler i signum (handlerOf s i signum) (clearPending i signum s)) := by
  rw [lowest.pendingFate_eq]
  exact (pendingScan_take lowest.deliverable.pending lowest.deliverable.free).2.2 h

/-! ### Taking a signal -/

theorem clearPending_same :
    ((clearPending i signum s).processes i) =
      { s.processes i with
        pendingSignals := (s.processes i).pendingSignals &&& ~~~ sigBit signum } := by
  rw [clearPending, modify_same]

theorem sigMem_cleared {n : Nat} :
    SigMem ((clearPending i signum s).processes i).pendingSignals n ↔
      SigMem (s.processes i).pendingSignals n ∧ n ≠ signum := by
  rw [clearPending_same]
  constructor
  · intro hmem
    refine ⟨?_, ?_⟩
    · rw [sigMem_iff, BitVec.getLsbD_and] at hmem
      rw [sigMem_iff]
      exact (Bool.and_eq_true_iff.mp hmem).1
    · rintro rfl
      exact not_sigMem_remove hmem
  · rintro ⟨hmem, hne⟩
    exact sigMem_remove hmem hne

/-- Taking a signal takes it out of the deliverable ones. -/
theorem deliverable_cleared {n : Nat} :
    Deliverable (clearPending i signum s) i n ↔ Deliverable s i n ∧ n ≠ signum := by
  rw [deliverable_iff, deliverable_iff, sigMem_cleared, clearPending_same]
  change s.signalHandlingEnabled = true ∧ (s.processes i).handlingSignal = false ∧
    (1 ≤ n ∧ n < MAX_SIGNALS) ∧ (SigMem (s.processes i).pendingSignals n ∧ n ≠ signum) ∧
    ¬ SigMem (s.processes i).blockedSignals n ↔ _
  tauto

theorem handlerOf_clearPending (n : Nat) :
    handlerOf (clearPending i signum s) i n = handlerOf s i n :=
  handlerOf_congr (lasting_clearPending s i signum i) n

/-- An ignored signal is taken, and the scan goes on as if it had not been there. -/
theorem Lowest.ignored (lowest : Lowest s i signum) (h : Ignored s i signum) :
    pendingFate i s = pendingFate i (clearPending i signum s) := by
  obtain ⟨⟨henabled, hidle, hrange, hmem, hfree⟩, hleast⟩ := id lowest
  have hmax : MAX_SIGNALS = 32 := rfl
  have henabled' : (clearPending i signum s).signalHandlingEnabled = true := henabled
  have hidle' : ((clearPending i signum s).processes i).handlingSignal = false := by
    rw [clearPending_same]
    exact hidle
  have hpass := @pendingScan_pass i (clearPending i signum s) 1 signum (31 - signum)
    fun m hm hm' => not_pending_of_not_deliverable henabled' hidle' ⟨hm, by omega⟩ fun hdel => by
      obtain ⟨hold, hne⟩ := deliverable_cleared.mp hdel
      exact hleast m (by omega) hold
  have hfuel : signum + (31 - signum) = MAX_SIGNALS - 1 := by omega
  rw [hfuel, Nat.add_comm 1 signum] at hpass
  rw [lowest.pendingFate_eq, pendingFate_eq_scan henabled' hidle', hpass]
  exact (pendingScan_take hmem hfree).1 h

/-! ### Going on without a signal -/

/-- The signals that could be delivered. -/
def deliverables (s : State) (i : Slot) : Finset Nat :=
  (Finset.range MAX_SIGNALS).filter (Deliverable s i)

theorem mem_deliverables {n : Nat} : n ∈ deliverables s i ↔ Deliverable s i n := by
  rw [deliverables, Finset.mem_filter, Finset.mem_range]
  constructor
  · intro h
    exact h.2
  · intro h
    exact ⟨h.range.2, h⟩

/-- 0 is no signal. -/
theorem card_deliverables_lt (s : State) (i : Slot) : (deliverables s i).card < MAX_SIGNALS := by
  have hsub : deliverables s i ⊆ (Finset.range MAX_SIGNALS).erase 0 := by
    intro n hn
    have hdel := mem_deliverables.mp hn
    rw [Finset.mem_erase, Finset.mem_range]
    exact ⟨by have := hdel.range.1; omega, hdel.range.2⟩
  have hcard := Finset.card_le_card hsub
  rw [Finset.card_erase_of_mem (by decide), Finset.card_range] at hcard
  have hmax : MAX_SIGNALS = 32 := rfl
  omega

theorem card_cleared (hdel : Deliverable s i signum) :
    (deliverables (clearPending i signum s) i).card < (deliverables s i).card := by
  apply Finset.card_lt_card
  rw [Finset.ssubset_iff_of_subset]
  · refine ⟨signum, mem_deliverables.mpr hdel, fun hmem => ?_⟩
    exact (deliverable_cleared.mp (mem_deliverables.mp hmem)).2 rfl
  · intro n hn
    exact mem_deliverables.mpr (deliverable_cleared.mp (mem_deliverables.mp hn)).1

end Fate

/-- What holds of a state if it does after its first deliverable signal has been ignored. -/
theorem ignoring_induct {P : State → Prop} {i : Slot}
    (hstep : ∀ s, (∀ n, Lowest s i n → Ignored s i n → P (clearPending i n s)) → P s)
    (s : State) : P s := by
  induction hcard : (deliverables s i).card using Nat.strong_induction_on generalizing s with
  | _ card ih =>
      refine hstep s fun n lowest _ => ?_
      exact ih _ (hcard ▸ card_cleared lowest.deliverable) _ rfl

end Curnel.Process
