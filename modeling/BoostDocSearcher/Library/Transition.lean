import Mathlib.Logic.Relation

/-!
# Runs of a transition system

A system starts in an initial state and takes steps, in any order that it allows. What holds
initially and is kept by every step holds in every reachable state. When a measure falls with every
step, all runs end, and they end in a goal as soon as no other state is stuck.
-/

namespace Transition

variable {σ : Type*}

/-- The states that a system can reach. -/
inductive Reachable (initial : σ → Prop) (step : σ → σ → Prop) : σ → Prop where
  /-- A run begins in an initial state. -/
  | start {state : σ} : initial state → Reachable initial step state
  /-- A run goes on with any step. -/
  | step {before after : σ} :
      Reachable initial step before → step before after → Reachable initial step after

/-- A property that the initial states have and every step keeps. -/
structure Invariant (initial : σ → Prop) (step : σ → σ → Prop) (property : σ → Prop) : Prop where
  /-- Initial states have the property. -/
  start : ∀ state, initial state → property state
  /-- Steps keep the property. -/
  step : ∀ before after, property before → step before after → property after

/-- An invariant holds in every reachable state. -/
theorem Invariant.of_reachable {initial : σ → Prop} {step : σ → σ → Prop} {property : σ → Prop}
    (kept : Invariant initial step property) {state : σ}
    (reachable : Reachable initial step state) : property state := by
  induction reachable with
  | start begins => exact kept.start _ begins
  | step _ taken induction => exact kept.step _ _ induction taken

/-- Every run from the state reaches the goal: the goal holds here, or the system can go on, and
reaches the goal whichever step it takes. -/
inductive Inevitable (step : σ → σ → Prop) (goal : σ → Prop) : σ → Prop where
  /-- The goal is reached. -/
  | here {state : σ} : goal state → Inevitable step goal state
  /-- The goal is reached behind every step. -/
  | later {state : σ} : (∃ after, step state after) →
      (∀ after, step state after → Inevitable step goal after) → Inevitable step goal state

/-- Under an invariant, a measure that falls with every step leads every run to the goal, when
only goals are stuck. -/
theorem inevitable_of_measure {step : σ → σ → Prop} {goal property : σ → Prop} (measure : σ → Nat)
    (kept : ∀ before after, property before → step before after → property after)
    (falls : ∀ before after, property before → step before after → measure after < measure before)
    (progress : ∀ state, property state → ¬ goal state → ∃ after, step state after) {state : σ}
    (holds : property state) : Inevitable step goal state := by
  induction bound : measure state using Nat.strongRecOn generalizing state with
  | ind bound_value induction =>
      subst bound
      by_cases reached : goal state
      · exact .here reached
      · refine .later (progress state holds reached) ?_
        intro after taken
        exact induction _ (falls state after holds taken) (kept state after holds taken) rfl

end Transition
