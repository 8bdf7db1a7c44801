import Mathlib.Data.List.Infix
import Mathlib.Data.List.Forall2

/-!
# First occurrence of a pattern

A pattern occurs in a text at a position when its symbols agree, one by one, with the symbols found
there. The agreement is any Boolean relation, so that the same search serves both for equality and
for comparison up to a normal form. The scan returns the least position.
-/

namespace Occurrence

variable {α β γ δ : Type*}

/-- The pattern agrees with the front of the text. -/
def matchesFront (agree : α → β → Bool) : List α → List β → Bool
  | _, [] => true
  | [], _ :: _ => false
  | symbol :: text, wanted :: pattern =>
      agree symbol wanted && matchesFront agree text pattern

/-- Least position at which the pattern agrees with the text. -/
def first? (agree : α → β → Bool) : List α → List β → Option Nat
  | [], pattern => if matchesFront agree [] pattern then some 0 else none
  | symbol :: text, pattern =>
      if matchesFront agree (symbol :: text) pattern then
        some 0
      else
        (first? agree text pattern).map (· + 1)

@[simp]
theorem matchesFront_nil (agree : α → β → Bool) (text : List α) :
    matchesFront agree text [] = true := by
  cases text <;> rfl

/-- A front match exposes the block of the text that agrees with the pattern. -/
theorem matchesFront_iff {agree : α → β → Bool} {text : List α} {pattern : List β} :
    matchesFront agree text pattern = true ↔
      ∃ block after, text = block ++ after ∧
        List.Forall₂ (fun symbol wanted => agree symbol wanted = true) block pattern := by
  induction pattern generalizing text with
  | nil => simp
  | cons wanted pattern induction =>
      cases text with
      | nil =>
          simp only [matchesFront, Bool.false_eq_true, false_iff]
          intro ⟨block, after, text_eq, agrees⟩
          cases agrees
          simp at text_eq
      | cons symbol text =>
          simp only [matchesFront, Bool.and_eq_true, induction]
          constructor
          · rintro ⟨head_agrees, block, after, rfl, tail_agrees⟩
            exact ⟨symbol :: block, after, rfl, .cons head_agrees tail_agrees⟩
          · intro ⟨block, after, text_eq, agrees⟩
            cases agrees with
            | cons head_agrees tail_agrees =>
                obtain ⟨rfl, rfl⟩ := List.cons.inj text_eq
                exact ⟨head_agrees, _, after, rfl, tail_agrees⟩

theorem length_le_of_matchesFront {agree : α → β → Bool} {text : List α} {pattern : List β}
    (matched : matchesFront agree text pattern = true) : pattern.length ≤ text.length := by
  obtain ⟨block, after, rfl, agrees⟩ := matchesFront_iff.mp matched
  simp [agrees.length_eq]

theorem matchesFront_beq_iff [DecidableEq α] {text pattern : List α} :
    matchesFront (· == ·) text pattern = true ↔ pattern <+: text := by
  rw [matchesFront_iff]
  constructor
  · rintro ⟨block, after, rfl, agrees⟩
    obtain rfl : block = pattern := by
      simpa [List.forall₂_eq_eq_eq] using agrees
    exact List.prefix_append block after
  · rintro ⟨after, rfl⟩
    exact ⟨pattern, after, rfl, by simp [List.forall₂_same]⟩

/-- The search answers a position exactly when the pattern matches there and nowhere before. -/
theorem first?_eq_some_iff {agree : α → β → Bool} {text : List α} {pattern : List β}
    {position : Nat} :
    first? agree text pattern = some position ↔
      position ≤ text.length ∧ matchesFront agree (text.drop position) pattern = true ∧
        ∀ earlier < position, matchesFront agree (text.drop earlier) pattern = false := by
  induction text generalizing position with
  | nil =>
      rw [first?]
      split
      · rename_i matched
        constructor
        · rintro ⟨rfl⟩
          simp [matched]
        · intro ⟨bound, _, _⟩
          simp at bound
          simp [bound]
      · rename_i unmatched
        simp [unmatched]
  | cons symbol text induction =>
      rw [first?]
      split
      · rename_i matched
        constructor
        · rintro ⟨rfl⟩
          simp [matched]
        · intro ⟨_, _, minimal⟩
          cases position with
          | zero => rfl
          | succ position =>
              have head_fails := minimal 0 (Nat.succ_pos position)
              simp [matched] at head_fails
      · rename_i unmatched
        cases position with
        | zero => simp [unmatched]
        | succ position =>
            simp only [Option.map_eq_some_iff, Nat.add_right_cancel_iff, exists_eq_right,
              induction, List.length_cons, Nat.add_le_add_iff_right, List.drop_succ_cons]
            refine and_congr_right fun _ => and_congr_right fun _ => ?_
            constructor
            · intro minimal earlier bound
              cases earlier with
              | zero => simpa using unmatched
              | succ earlier => exact minimal earlier (Nat.lt_of_succ_lt_succ bound)
            · intro minimal earlier bound
              exact minimal (earlier + 1) (Nat.succ_lt_succ bound)

/-- The whole pattern fits behind the position that the search answers. -/
theorem add_length_le_of_first? {agree : α → β → Bool} {text : List α} {pattern : List β}
    {position : Nat} (found : first? agree text pattern = some position) :
    position + pattern.length ≤ text.length := by
  obtain ⟨bound, matched, -⟩ := first?_eq_some_iff.mp found
  have fits := length_le_of_matchesFront matched
  rw [List.length_drop] at fits
  omega

theorem matchesFront_map (agree : γ → δ → Bool) (left : α → γ) (right : β → δ)
    (text : List α) (pattern : List β) :
    matchesFront agree (text.map left) (pattern.map right) =
      matchesFront (fun symbol wanted => agree (left symbol) (right wanted)) text pattern := by
  induction pattern generalizing text with
  | nil => simp
  | cons wanted pattern induction =>
      cases text with
      | nil => rfl
      | cons symbol text => simp [matchesFront, induction]

/-- Searching relabelled words is searching the words up to the relabelled agreement. -/
theorem first?_map (agree : γ → δ → Bool) (left : α → γ) (right : β → δ)
    (text : List α) (pattern : List β) :
    first? agree (text.map left) (pattern.map right) =
      first? (fun symbol wanted => agree (left symbol) (right wanted)) text pattern := by
  induction text with
  | nil =>
      have matched := matchesFront_map agree left right [] pattern
      rw [List.map_nil] at matched
      simp only [List.map_nil, first?, matched]
  | cons symbol text induction =>
      have matched := matchesFront_map agree left right (symbol :: text) pattern
      rw [List.map_cons] at matched
      simp only [List.map_cons, first?, matched, induction]

end Occurrence
