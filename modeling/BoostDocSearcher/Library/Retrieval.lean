import Mathlib.Data.List.Induction
import Mathlib.Data.List.Perm.Basic
import Mathlib.Data.List.Sort

/-!
# Weighted retrieval

A document answers a query word with a weight, or does not contain the word. A query is a list of
words; it tells about a document the words that occur in it, in query order and with repetitions,
and the total of their weights. Nothing is told about a document in which no word occurs. This is
the meaning that an inverted index computes by merging posting lists.
-/

namespace Retrieval

variable {δ κ M : Type*}

/-- A sorting procedure for a strict comparison: it may order ties as it likes. -/
structure Sorting {α : Type*} (before : α → α → Bool) where
  /-- The sorted list. -/
  run : List α → List α
  /-- Sorting neither loses nor invents elements. -/
  perm : ∀ items, (run items).Perm items
  /-- No element comes strictly before one that is placed in front of it. -/
  ordered : ∀ items, (run items).Pairwise fun left right => before right left = false

/-- Insertion sort, for a comparison that is a strict weak order. -/
def Sorting.insertion {α : Type*} {before : α → α → Bool}
    (asymmetric : ∀ left right, before left right = true → before right left = false)
    (transitive : ∀ first second third, before second first = false →
      before third second = false → before third first = false) : Sorting before where
  run := List.insertionSort fun left right => before right left = false
  perm := List.perm_insertionSort _
  ordered := by
    have total : Std.Total fun left right => before right left = false := by
      constructor
      intro left right
      cases comparison : before right left with
      | false => exact Or.inl rfl
      | true => exact Or.inr (asymmetric right left comparison)
    have trans : IsTrans α fun left right => before right left = false :=
      ⟨fun first second third => transitive first second third⟩
    exact List.pairwise_insertionSort _

/-- Words of a query that occur in a document, in query order and with repetitions. -/
def matched (occurs : δ → κ → Option M) (words : List κ) (document : δ) : List κ :=
  words.filter fun word => (occurs document word).isSome

/-- Total weight of a query in a document. -/
def score [Zero M] [Add M] (occurs : δ → κ → Option M) (words : List κ) (document : δ) : M :=
  (words.filterMap (occurs document)).foldl (· + ·) 0

/-- What a query tells about a document: nothing, or the total weight and the matching words. -/
def answer [Zero M] [Add M] (occurs : δ → κ → Option M) (words : List κ) (document : δ) :
    Option (M × List κ) :=
  if matched occurs words document = [] then
    none
  else
    some (score occurs words document, matched occurs words document)

/-- Let one more word contribute to the answer, from the default answer when there is none. -/
def visit [Zero M] [Add M] (occurs : δ → κ → Option M) (document : δ)
    (known : Option (M × List κ)) (word : κ) : Option (M × List κ) :=
  match occurs document word with
  | none => known
  | some weight => some ((known.getD (0, [])).1 + weight, (known.getD (0, [])).2 ++ [word])

section Answer

variable [Zero M] [Add M] {occurs : δ → κ → Option M}

theorem answer_append_singleton (words : List κ) (word : κ) (document : δ) :
    answer occurs (words ++ [word]) document =
      visit occurs document (answer occurs words document) word := by
  simp only [answer, visit, matched, score, List.filter_append, List.filterMap_append]
  cases occurrence : occurs document word with
  | none => simp [occurrence]
  | some weight =>
      by_cases unmatched : words.filter (fun word => (occurs document word).isSome) = []
      · have weightless : words.filterMap (occurs document) = [] := by
          rw [List.filterMap_eq_nil_iff]
          intro other member
          simpa using List.filter_eq_nil_iff.mp unmatched other member
        simp [occurrence, unmatched, weightless]
      · simp [occurrence, unmatched, List.foldl_append]

theorem foldl_visit (words : List κ) (document : δ) :
    words.foldl (visit occurs document) none = answer occurs words document := by
  induction words using List.reverseRecOn with
  | nil => rfl
  | append_singleton words word induction =>
      rw [List.foldl_append, induction, answer_append_singleton]
      rfl

theorem answer_eq_some_iff {words : List κ} {document : δ} {found : M × List κ} :
    answer occurs words document = some found ↔
      matched occurs words document ≠ [] ∧
        found = (score occurs words document, matched occurs words document) := by
  rw [answer]
  split
  · rename_i unmatched
    simp [unmatched]
  · rename_i some_match
    simp [some_match, eq_comm]

theorem answer_isSome_iff {words : List κ} {document : δ} :
    (answer occurs words document).isSome ↔
      ∃ word ∈ words, (occurs document word).isSome := by
  rw [answer]
  split
  · rename_i unmatched
    simpa [matched] using unmatched
  · rename_i some_match
    simpa [matched, Option.isSome_iff_ne_none] using some_match

/-- Two documents that agree on the words of a query have the same answer. -/
theorem answer_congr {δ' : Type*} {occurs' : δ' → κ → Option M} {words : List κ}
    {document : δ} {document' : δ'}
    (agree : ∀ word ∈ words, occurs document word = occurs' document' word) :
    answer occurs words document = answer occurs' words document' := by
  have matched_eq : matched occurs words document = matched occurs' words document' :=
    List.filter_congr fun word member => by rw [agree word member]
  have score_eq : score occurs words document = score occurs' words document' := by
    rw [score, score, List.filterMap_congr agree]
  rw [answer, answer, matched_eq, score_eq]

end Answer

end Retrieval
