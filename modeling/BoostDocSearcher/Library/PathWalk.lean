import Mathlib.Data.List.Basic

/-!
# Walks in a tree of names

A path is walked one move after another: a move stays, goes up, or goes down to a name. A walk from
the root fails when it would leave the tree. Whether it fails depends only on how many moves of its
beginnings go up and down.
-/

namespace PathWalk

variable {α : Type*}

/-- One move of a walk. -/
inductive Move (α : Type*) where
  /-- Stay. -/
  | stay
  /-- Go up to the parent. -/
  | up
  /-- Go down to a child. -/
  | down (name : α)
  deriving DecidableEq, Repr

/-- Where a walk leads. A place is given by the names on its way from the root, the last one
first. -/
def walk : List α → List (Move α) → Option (List α)
  | place, [] => some place
  | place, .stay :: moves => walk place moves
  | [], .up :: _ => none
  | _ :: place, .up :: moves => walk place moves
  | place, .down name :: moves => walk (name :: place) moves

/-- How often a walk goes up. -/
def ups : List (Move α) → Nat
  | [] => 0
  | .up :: moves => ups moves + 1
  | _ :: moves => ups moves

/-- How often a walk goes down. -/
def downs : List (Move α) → Nat
  | [] => 0
  | .down _ :: moves => downs moves + 1
  | _ :: moves => downs moves

theorem walk_append (place : List α) (first rest : List (Move α)) :
    walk place (first ++ rest) = (walk place first).bind fun there => walk there rest := by
  induction first generalizing place with
  | nil => rfl
  | cons move first induction =>
      cases move with
      | stay => exact induction place
      | up =>
          cases place with
          | nil => rfl
          | cons name place => exact induction place
      | down name => exact induction (name :: place)

theorem isSome_walk_of_append {place : List α} {first rest : List (Move α)}
    (inside : (walk place (first ++ rest)).isSome) : (walk place first).isSome := by
  rw [walk_append] at inside
  exact Option.isSome_of_isSome_bind inside

/-- A walk stays inside exactly when no beginning of it goes up more often than the depth of its
start and its moves down allow. -/
theorem isSome_walk_iff {place : List α} {moves : List (Move α)} :
    (walk place moves).isSome ↔
      ∀ first, first <+: moves → ups first ≤ place.length + downs first := by
  induction moves generalizing place with
  | nil =>
      refine ⟨fun _ first prefixed => ?_, fun _ => rfl⟩
      rw [List.prefix_nil.mp prefixed]
      exact Nat.zero_le _
  | cons move moves induction =>
      have prefixes (bound : Nat → Nat → Prop) (start : bound 0 0) :
          (∀ first, first <+: move :: moves → bound (ups first) (downs first)) ↔
            ∀ first, first <+: moves → bound (ups (move :: first)) (downs (move :: first)) := by
        constructor
        · intro bounded first prefixed
          exact bounded _ ((List.prefix_cons_inj move).mpr prefixed)
        · intro bounded first prefixed
          rcases List.prefix_cons_iff.mp prefixed with rfl | ⟨rest, rfl, inside⟩
          · exact start
          · exact bounded rest inside
      rw [prefixes (fun up down => up ≤ place.length + down) (Nat.zero_le _)]
      cases move with
      | stay => exact induction
      | up =>
          cases place with
          | nil =>
              refine ⟨fun failed => ?_, fun bounded => ?_⟩
              · simp [walk] at failed
              · have first := bounded [] List.nil_prefix
                simp [ups, downs] at first
          | cons name place =>
              rw [walk, induction]
              refine forall₂_congr fun first _ => ?_
              simp only [ups, downs, List.length_cons]
              omega
      | down name =>
          rw [walk, induction]
          refine forall₂_congr fun first _ => ?_
          simp only [ups, downs, List.length_cons]
          omega

end PathWalk
