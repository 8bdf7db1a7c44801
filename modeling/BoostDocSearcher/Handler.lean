import BoostDocSearcher.Ranking
import BoostDocSearcher.Submission

/-!
# Answering a request

For a query string without the key of the search text the handler sets the prompt, but goes on: it
searches for the empty text, and the result takes the place of the prompt. A request is answered as
intended exactly when its query string gives the key.
-/

namespace BoostDocSearcher.HttpServer

open Httplib

/-! ## What is asked and what is answered -/

section Answers

open Searcher Tally

variable {jieba : JiebaUtil} {order : Index.KeywordOrder} {index : Index}

theorem hasParam_wordKey_iff {query : Bytes} :
    hasParam (parseQueryText query []) wordKey = true ↔ GivesKey wordKey query := by
  have letters : wordKey.all (fun c => !isSpaceOrTab c && c != equals) = true := rfl
  apply hasParam_parseQueryText_iff (List.cons_ne_nil _ _)
  intro c member
  simpa using List.all_eq_true.mp letters c member

/-- What `GET /s` leads to for a raw query string. -/
def answerQuery (jieba : JiebaUtil) (index : Index) (writer : List JsonElem → Bytes)
    (traversal : Traversal (Entry Nat InvertedElemOut)) (sorting : Retrieval.Sorting heavier)
    (query : Bytes) : Outcome :=
  outcome (answerSearch (search jieba index writer traversal sorting) (parseQueryText query [])) {}

/-- A query string is answered in the way of the request lines that carry it. -/
theorem processRequest_eq_answerQuery (jieba : JiebaUtil) (index : Index)
    (writer : List JsonElem → Bytes) (traversal : Traversal (Entry Nat InvertedElemOut))
    (sorting : Retrieval.Sorting heavier) {query : Bytes} (carried : Carried query)
    (short : (requestLine (bytes "/s?" ++ query)).length ≤ requestUriMaxLength) :
    processRequest (search jieba index writer traversal sorting)
        (requestLine (bytes "/s?" ++ query)) =
      some (answerQuery jieba index writer traversal sorting query) := by
  rw [processRequest, route, if_neg (Nat.not_lt.mpr short), parseRequestLine_search carried]
  rfl

/-- A query string without a search text is answered like a search for the empty text. -/
theorem answerQuery_of_wordless (jieba : JiebaUtil) (index : Index)
    (writer : List JsonElem → Bytes) (traversal : Traversal (Entry Nat InvertedElemOut))
    (sorting : Retrieval.Sorting heavier) {query : Bytes} (wordless : ¬ GivesKey wordKey query) :
    answerQuery jieba index writer traversal sorting query =
      { searched := [[]]
        response := (search jieba index writer traversal sorting []).map jsonResponse } := by
  rw [← hasParam_wordKey_iff, Bool.not_eq_true] at wordless
  rw [answerQuery, outcome_answerSearch, getParamValue_of_absent wordless]

/-- What the answer to a request must be. -/
structure Answers (jieba : JiebaUtil) (index : Index) (writer : List JsonElem → Bytes)
    (traversal : Traversal (Entry Nat InvertedElemOut)) (sorting : Retrieval.Sorting heavier)
    (params : Params) (result : Outcome) : Prop where
  /-- Without a search text nothing is searched for, and the prompt is sent. -/
  asks : (∀ param ∈ params, param.1 ≠ wordKey) →
    result = { searched := [], response := .ok prompt }
  /-- With search texts, the first one is searched for, and the array that is found is sent. -/
  finds : ∀ value, FirstValue params wordKey value →
    ∃ elems, root index (jieba.cutString value) traversal sorting = .ok elems ∧
      result = { searched := [value], response := .ok (jsonResponse (writer elems)) }

/-- A request is answered as it must be exactly when its query string gives a search text. -/
theorem answers_iff (reachable : Index.Reachable jieba order index)
    (writer : List JsonElem → Bytes) (traversal : Traversal (Entry Nat InvertedElemOut))
    (sorting : Retrieval.Sorting heavier) (query : Bytes) :
    Answers jieba index writer traversal sorting (parseQueryText query [])
        (answerQuery jieba index writer traversal sorting query) ↔
      GivesKey wordKey query := by
  rw [answerQuery, outcome_answerSearch, ← hasParam_wordKey_iff]
  generalize parseQueryText query [] = params
  constructor
  · intro answers
    by_contra absent
    have wordless : ∀ param ∈ params, param.1 ≠ wordKey := by
      intro param member named
      exact absent (hasParam_eq_true_iff.mpr ⟨param, member, named⟩)
    have same := congrArg Outcome.searched (answers.asks wordless)
    contradiction
  · intro present
    constructor
    case asks =>
      intro wordless
      obtain ⟨param, member, named⟩ := hasParam_eq_true_iff.mp present
      exact absurd named (wordless param member)
    case finds =>
      intro value first
      rw [(firstValue_iff.mp first).2]
      have found := root_eq reachable (jieba.cutString value) traversal sorting
      refine ⟨_, found, ?_⟩
      rw [search, found]
      rfl

/-- A writer that keeps the titles of its elements. -/
def titles (elems : List JsonElem) : Bytes :=
  elems.flatMap (·.title)

/-- A query string whose second key has spaces around it and an encoded letter. -/
theorem answers_iff_spelledKey :
    Answers .singleWord listIndex titles (.inOrder _) stableSort
      (parseQueryText (bytes "page=1& %77ord =LIST") [])
      (answerQuery .singleWord listIndex titles (.inOrder _) stableSort
        (bytes "page=1& %77ord =LIST")) :=
  (answers_iff (reachable_addLine _ _ (by decide) (by decide)) titles (.inOrder _) stableSort
    (bytes "page=1& %77ord =LIST")).mpr
    ⟨bytes " %77ord =LIST", by decide, bytes "%77ord",
      ⟨[space], [space], bytes "=LIST", rfl, by simp [isSpaceOrTab], by simp [isSpaceOrTab],
        Or.inr rfl⟩,
      rfl⟩

/-- Under another key the empty text is searched for, and its placeholder replaces the prompt. -/
theorem answerQuery_otherKey :
    answerQuery .singleWord listIndex titles (.inOrder _) stableSort (bytes "q=list") =
        { searched := [[]]
          response := .ok (jsonResponse (bytes "Search nothing!")) } ∧
      ¬ Answers .singleWord listIndex titles (.inOrder _) stableSort
        (parseQueryText (bytes "q=list") [])
        (answerQuery .singleWord listIndex titles (.inOrder _) stableSort (bytes "q=list")) := by
  have result_eq :
      answerQuery .singleWord listIndex titles (.inOrder _) stableSort (bytes "q=list") =
        { searched := [[]]
          response := .ok (jsonResponse (bytes "Search nothing!")) } := rfl
  refine ⟨result_eq, fun answers => ?_⟩
  have same := congrArg Outcome.searched (answers.asks (by decide))
  rw [result_eq] at same
  contradiction

end Answers

end BoostDocSearcher.HttpServer
