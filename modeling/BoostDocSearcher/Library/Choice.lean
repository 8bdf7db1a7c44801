import Mathlib.Order.MinMax

/-!
# Choosing the best of some candidates

A loop walks over the candidates, remembers the first one whose value is strictly above everything
before it, and starts from a floor that a candidate must exceed to be chosen at all. What it returns
is the greatest value above the floor, and a candidate that attains it. Decisions in a sequence are
scored by a fold that is clamped at the floor after every step, so that a best sequence is built
from best continuations.
-/

namespace Choice

variable {α ω : Type*} [LinearOrder ω]

/-- One turn of the loop. -/
def improve (value : α → ω) (leader : Option α × ω) (candidate : α) : Option α × ω :=
  if value candidate > leader.2 then (some candidate, value candidate) else leader

/-- The candidate that is chosen and its value, or no candidate and the floor. -/
def best (floor : ω) (value : α → ω) (candidates : List α) : Option α × ω :=
  candidates.foldl (improve value) (none, floor)

/-- The value that a candidate counts for: at least the floor. -/
def clamped (floor value : ω) : ω := max floor value

theorem improve_value (value : α → ω) (leader : Option α × ω) (candidate : α) :
    (improve value leader candidate).2 = max leader.2 (value candidate) := by
  unfold improve
  split
  · rename_i above
    exact (max_eq_right above.le).symm
  · rename_i below
    exact (max_eq_left (not_lt.mp below)).symm

theorem le_foldl_improve (value : α → ω) (candidates : List α) (leader : Option α × ω) :
    leader.2 ≤ (candidates.foldl (improve value) leader).2 ∧
      ∀ candidate ∈ candidates, value candidate ≤ (candidates.foldl (improve value) leader).2 := by
  induction candidates generalizing leader with
  | nil => simp
  | cons first rest induction =>
      obtain ⟨above, all⟩ := induction (improve value leader first)
      rw [improve_value, max_le_iff] at above
      refine ⟨above.1, ?_⟩
      intro candidate member
      rcases List.mem_cons.mp member with rfl | member
      · exact above.2
      · exact all candidate member

/-- What the loop returns is what it started from, or a candidate with its value. -/
theorem foldl_improve_cases (value : α → ω) (candidates : List α) (leader : Option α × ω) :
    candidates.foldl (improve value) leader = leader ∨
      ∃ chosen ∈ candidates,
        candidates.foldl (improve value) leader = (some chosen, value chosen) := by
  induction candidates generalizing leader with
  | nil => exact .inl rfl
  | cons first rest induction =>
      rw [List.foldl_cons]
      rcases induction (improve value leader first) with same | ⟨chosen, member, found⟩
      · rw [same, improve]
        split
        · exact .inr ⟨first, List.mem_cons_self, rfl⟩
        · exact .inl rfl
      · exact .inr ⟨chosen, List.mem_cons_of_mem _ member, found⟩

section Best

variable {floor : ω} {value : α → ω} {candidates : List α}

theorem floor_le_best : floor ≤ (best floor value candidates).2 :=
  (le_foldl_improve value candidates (none, floor)).1

theorem le_best {candidate : α} (member : candidate ∈ candidates) :
    value candidate ≤ (best floor value candidates).2 :=
  (le_foldl_improve value candidates (none, floor)).2 candidate member

/-- Either nothing exceeds the floor and nothing is chosen, or a best candidate is chosen. -/
theorem best_cases :
    (best floor value candidates = (none, floor) ∧
        ∀ candidate ∈ candidates, value candidate ≤ floor) ∨
      ∃ chosen ∈ candidates,
        best floor value candidates = (some chosen, value chosen) ∧ floor ≤ value chosen ∧
          ∀ candidate ∈ candidates, value candidate ≤ value chosen := by
  have bounded (candidate : α) (member : candidate ∈ candidates) :=
    @le_best _ _ _ floor value candidates candidate member
  have above : floor ≤ (best floor value candidates).2 := floor_le_best
  rcases foldl_improve_cases value candidates (none, floor) with nothing | ⟨chosen, member, found⟩
  · rw [show best floor value candidates = (none, floor) from nothing] at bounded
    exact .inl ⟨nothing, bounded⟩
  · rw [show best floor value candidates = (some chosen, value chosen) from found] at bounded above
    exact .inr ⟨chosen, member, found, above, bounded⟩

/-- The value of the choice is the clamped value of the chosen candidate, and when nothing is chosen
that of any candidate at all. -/
theorem best_eq_clamped {fallback : α} (member : fallback ∈ candidates) :
    (best floor value candidates).2 =
      clamped floor (value ((best floor value candidates).1.getD fallback)) := by
  rcases @best_cases _ _ _ floor value candidates with
    ⟨nothing, below⟩ | ⟨chosen, -, found, above, -⟩
  · rw [nothing]
    exact (max_eq_left (below fallback member)).symm
  · rw [found]
    exact (max_eq_right above).symm

theorem clamped_le_best {candidate : α} (member : candidate ∈ candidates) :
    clamped floor (value candidate) ≤ (best floor value candidates).2 :=
  max_le floor_le_best (le_best member)

end Best

theorem clamped_mono {floor lower upper : ω} (ordered : lower ≤ upper) :
    clamped floor lower ≤ clamped floor upper :=
  max_le_max_left floor ordered

end Choice
