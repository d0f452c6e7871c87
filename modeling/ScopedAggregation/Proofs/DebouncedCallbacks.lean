import Mathlib.Data.List.Induction
import ScopedAggregation.Watch.Debouncer

namespace ScopedAggregation.Debouncer

variable {α β : Type}

/-- What happens to a debouncer, each at once. -/
inductive Step (α : Type) where
  | trigger (callback : α)
  | fire
  | stop
deriving DecidableEq, Repr

def Step.map (f : α → β) : Step α → Step β
  | .trigger callback => .trigger (f callback)
  | .fire => .fire
  | .stop => .stop

/-- Takes a step: the callback to be run, if any, and the debouncer after it. -/
def perform (d : Debouncer α) : Step α → Option α × Debouncer α
  | .trigger callback => (none, d.trigger callback)
  | .fire => d.fire
  | .stop => (none, d.stop)

/-- A new debouncer after some steps. -/
def after (steps : List (Step α)) : Debouncer α :=
  steps.foldl (fun d step => (d.perform step).2) {}

/-- The callback that is run at step `k`. -/
def ranAt (steps : List (Step α)) (k : Nat) : Option α :=
  steps[k]?.bind fun step => ((after (steps.take k)).perform step).1

/-- Callbacks told apart by the step that triggers them, since one may be passed several times. -/
def numbered (steps : List (Step α)) : List (Step (Nat × α)) :=
  steps.mapIdx fun i step => step.map (i, ·)

/-- The callback that was triggered at step `i` is run at step `k`. -/
def Runs (steps : List (Step α)) (i k : Nat) : Prop :=
  ∃ callback, ranAt (numbered steps) k = some (i, callback)

theorem after_concat (steps : List (Step α)) (step : Step α) :
    after (steps ++ [step]) = ((after steps).perform step).2 := by
  simp [after]

/-- Nothing waits in a stopped debouncer. -/
def Settled (d : Debouncer α) : Prop := d.stopped = true → d.pending = none

theorem Settled.perform {d : Debouncer α} (h : d.Settled) (step : Step α) :
    (d.perform step).2.Settled := by
  cases step with
  | trigger callback =>
    by_cases hs : d.stopped = true
    · have hsame : d.trigger callback = d := if_pos hs
      show (d.trigger callback).Settled
      rw [hsame]
      exact h
    · intro hstopped
      have hkept : (d.trigger callback).stopped = d.stopped := by simp [trigger, hs]
      exact absurd (hkept.symm.trans hstopped) hs
  | fire => exact fun _ => rfl
  | stop => exact fun _ => rfl

theorem settled_after (steps : List (Step α)) : (after steps).Settled := by
  induction steps using List.reverseRecOn with
  | nil => exact fun _ => rfl
  | append_singleton steps step ih =>
    rw [after_concat]
    exact ih.perform step

theorem stopped_perform (d : Debouncer α) (step : Step α) :
    (d.perform step).2.stopped = true ↔ d.stopped = true ∨ step = .stop := by
  cases step with
  | trigger callback =>
    have hkept : (d.trigger callback).stopped = d.stopped := by
      unfold trigger
      split <;> rfl
    simp [perform, hkept]
  | fire => simp [perform, fire]
  | stop => simp [perform, stop]

theorem stopped_after (steps : List (Step α)) : (after steps).stopped = true ↔ .stop ∈ steps := by
  induction steps using List.reverseRecOn with
  | nil => simp [after]
  | append_singleton steps step ih =>
    rw [after_concat, stopped_perform, ih, List.mem_append, List.mem_singleton, eq_comm]

/-- Only the last step can have left a callback waiting. -/
theorem pending_after {steps : List (Step α)} {callback : α} :
    (after steps).pending = some callback ↔
      .stop ∉ steps ∧ steps.getLast? = some (.trigger callback) := by
  cases steps using List.reverseRecOn with
  | nil => simp [after]
  | append_singleton steps step =>
    have hstopped := stopped_after steps
    rw [after_concat, List.getLast?_concat]
    cases step with
    | trigger last =>
      -- After a stop a trigger changes nothing, and nothing was left waiting.
      by_cases h : (after steps).stopped = true
      · have hmem : .stop ∈ steps := hstopped.mp h
        have hnone := settled_after steps h
        simp [perform, trigger, h, hmem, hnone]
      · have hmem : .stop ∉ steps := fun hs => h (hstopped.mpr hs)
        simp [perform, trigger, h, hmem]
    | fire => simp [perform, fire]
    | stop => simp [perform, stop]

theorem fire_eq_some {d : Debouncer α} (h : d.Settled) {callback : α} :
    d.fire.1 = some callback ↔ d.pending = some callback := by
  by_cases hs : d.stopped = true
  · simp [fire, hs, h hs]
  · simp [fire, hs]

theorem last_of_take {steps : List (Step α)} {k : Nat} {step : Step α} (h : k ≤ steps.length) :
    (steps.take k).getLast? = some step ↔ ∃ i, i + 1 = k ∧ steps[i]? = some step := by
  cases k with
  | zero => simp
  | succ i =>
    have hi : i < steps.length := h
    have hget : (steps.take (i + 1)).getLast? = steps[i]? := by
      rw [List.getLast?_eq_getElem?, List.length_take, Nat.min_eq_left h, Nat.add_sub_cancel,
        List.getElem?_take_of_lt (Nat.lt_succ_self i)]
    rw [hget]
    constructor
    · exact fun he => ⟨i, rfl, he⟩
    · rintro ⟨j, hj, he⟩
      have hji : j = i := by omega
      rwa [hji] at he

/-- A callback is run if a timer runs out right after its trigger and nothing was stopped before. -/
theorem ranAt_eq_some {steps : List (Step α)} {k : Nat} {callback : α} :
    ranAt steps k = some callback ↔
      steps[k]? = some .fire ∧ .stop ∉ steps.take k ∧
        ∃ i, i + 1 = k ∧ steps[i]? = some (.trigger callback) := by
  have hfired : steps[k]? = some .fire → (ranAt steps k = some callback ↔
      .stop ∉ steps.take k ∧ ∃ i, i + 1 = k ∧ steps[i]? = some (.trigger callback)) := by
    intro hk
    have hlength : k < steps.length := (List.getElem?_eq_some_iff.mp hk).1
    rw [← last_of_take (Nat.le_of_lt hlength), ← pending_after, ← fire_eq_some (settled_after _)]
    simp [ranAt, hk, perform]
  constructor
  · intro h
    obtain ⟨step, hk, hstep⟩ := Option.bind_eq_some_iff.mp h
    cases step with
    | trigger other => cases hstep
    | stop => cases hstep
    | fire => exact ⟨hk, (hfired hk).mp h⟩
  · rintro ⟨hk, h⟩
    exact (hfired hk).mpr h

theorem getElem?_numbered (steps : List (Step α)) (i : Nat) :
    (numbered steps)[i]? = steps[i]?.map (Step.map (i, ·)) := by
  simp [numbered]

theorem stop_mem_take_numbered (steps : List (Step α)) (k : Nat) :
    .stop ∈ (numbered steps).take k ↔ .stop ∈ steps.take k := by
  have hstop : ∀ (i : Nat) (step : Step α), step.map (i, ·) = .stop ↔ step = .stop := by
    intro i step
    cases step <;> simp [Step.map]
  simp only [List.mem_iff_getElem?, List.getElem?_take]
  apply exists_congr
  intro i
  split
  · simp [getElem?_numbered, hstop]
  · simp

theorem trigger_numbered {steps : List (Step α)} {i j : Nat} {callback : α} :
    (numbered steps)[i]? = some (.trigger (j, callback)) ↔
      i = j ∧ steps[i]? = some (.trigger callback) := by
  rw [getElem?_numbered]
  cases hi : steps[i]? with
  | none => simp
  | some step => cases step <;> simp [Step.map]

theorem ranAt_numbered {steps : List (Step α)} {i k : Nat} {callback : α} :
    ranAt (numbered steps) k = some (i, callback) ↔
      i + 1 = k ∧ steps[i]? = some (.trigger callback) ∧ steps[k]? = some .fire ∧
        .stop ∉ steps.take k := by
  have hfire : (numbered steps)[k]? = some .fire ↔ steps[k]? = some .fire := by
    rw [getElem?_numbered]
    cases hk : steps[k]? with
    | none => simp
    | some step => cases step <;> simp [Step.map]
  rw [ranAt_eq_some, hfire, stop_mem_take_numbered]
  constructor
  · rintro ⟨hk, hstop, j, hj, htrigger⟩
    obtain ⟨rfl, hplain⟩ := trigger_numbered.mp htrigger
    exact ⟨hj, hplain, hk, hstop⟩
  · rintro ⟨hi, htrigger, hk, hstop⟩
    exact ⟨hk, hstop, i, hi, trigger_numbered.mpr ⟨rfl, htrigger⟩⟩

/-- Each callback is run at most once and only by the step right after its trigger, so not after a
later trigger; nothing is run after a stop, and what is triggered then never is. But a callback whose
trigger a timer follows is run, unless there was a stop. -/
theorem callbacks_run_latest_once (steps : List (Step α)) :
    (∀ i k l, Runs steps i k → Runs steps i l → k = l) ∧
    (∀ i j k callback, Runs steps i k → steps[j]? = some (.trigger callback) → i < j → k < j) ∧
    (∀ j k, steps[j]? = some .stop → j < k → ranAt steps k = none) ∧
    (∀ i j k, steps[j]? = some .stop → j < i → ¬ Runs steps i k) ∧
    (∀ k callback, ranAt steps k = some callback ↔
      ∃ i, Runs steps i k ∧ steps[i]? = some (.trigger callback)) ∧
    ∀ i callback, steps[i]? = some (.trigger callback) → steps[i + 1]? = some .fire →
      (Runs steps i (i + 1) ↔ .stop ∉ steps.take i) := by
  have hruns : ∀ {i k}, Runs steps i k → i + 1 = k ∧ .stop ∉ steps.take k := by
    rintro i k ⟨callback, h⟩
    obtain ⟨hk, -, -, hstop⟩ := ranAt_numbered.mp h
    exact ⟨hk, hstop⟩
  have hstopped : ∀ {j k}, steps[j]? = some .stop → j < k → .stop ∈ steps.take k := by
    intro j k hj hjk
    apply List.mem_of_getElem? (i := j)
    rwa [List.getElem?_take_of_lt hjk]
  refine ⟨?_, ?_, ?_, ?_, ?_, ?_⟩
  · intro i k l hk hl
    have := (hruns hk).1
    have := (hruns hl).1
    omega
  · intro i j k callback hk hj hij
    obtain ⟨_, hrun⟩ := hk
    obtain ⟨hik, -, hfire, -⟩ := ranAt_numbered.mp hrun
    have hne : j ≠ k := by
      rintro rfl
      rw [hfire] at hj
      cases hj
    omega
  · intro j k hj hjk
    cases h : ranAt steps k with
    | none => rfl
    | some callback => exact absurd (hstopped hj hjk) (ranAt_eq_some.mp h).2.1
  · intro i j k hj hji h
    have hk := (hruns h).1
    exact (hruns h).2 (hstopped hj (by omega))
  · intro k callback
    rw [ranAt_eq_some]
    constructor
    · rintro ⟨hk, hstop, i, hi, htrigger⟩
      exact ⟨i, ⟨callback, ranAt_numbered.mpr ⟨hi, htrigger, hk, hstop⟩⟩, htrigger⟩
    · rintro ⟨i, ⟨_, h⟩, htrigger⟩
      obtain ⟨hi, -, hk, hstop⟩ := ranAt_numbered.mp h
      exact ⟨hk, hstop, i, hi, htrigger⟩
  · intro i callback htrigger hfire
    have htake : .stop ∈ steps.take (i + 1) ↔ .stop ∈ steps.take i := by
      rw [List.take_add_one, htrigger]
      simp
    rw [← htake]
    exact ⟨fun h => (hruns h).2,
      fun hstop => ⟨callback, ranAt_numbered.mpr ⟨rfl, htrigger, hfire, hstop⟩⟩⟩

/-- Two triggers, timers of both, a third trigger that the stop overtakes, and a fourth after it. -/
def overtakenSteps : List (Step Char) :=
  [.trigger 'a', .trigger 'b', .fire, .fire, .trigger 'c', .stop, .fire, .trigger 'b', .fire]

theorem overtakenSteps_run_once :
    Runs overtakenSteps 1 2 ∧ (∀ k, ¬ Runs overtakenSteps 0 k) ∧ (∀ k, 5 < k →
      ranAt overtakenSteps k = none) ∧ ∀ k, ¬ Runs overtakenSteps 7 k := by
  obtain ⟨-, hlater, hstop, hafter, -, hnext⟩ := callbacks_run_latest_once overtakenSteps
  have hlast : Runs overtakenSteps 1 2 := (hnext 1 'b' rfl rfl).mpr (by decide)
  refine ⟨hlast, ?_, fun k hk => hstop 5 k rfl hk, fun k => hafter 7 5 k rfl (by decide)⟩
  rintro k ⟨callback, hk⟩
  have hfirst := hlater 0 1 k 'b' ⟨callback, hk⟩ rfl (by decide)
  have hsecond := (ranAt_numbered.mp hk).1
  omega

end ScopedAggregation.Debouncer
