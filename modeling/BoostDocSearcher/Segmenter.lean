import BoostDocSearcher.Cppjieba.QuerySegment
import BoostDocSearcher.Location

/-!
# The searcher with its own segmenter

The index and the searcher take their segmenter as a parameter. Here the parameter is the segmenter
of the repository, with any dictionary, any model and any file of stop words. What was assumed of
the parameter holds of it, and documents are found by their own words.
-/

namespace BoostDocSearcher

open Tally

/-! ## The instance -/

/-- `initJiebaUtil`: the lines of the file of stop words, or of a file that cannot be opened. -/
def initJiebaUtil (stopFile : Option Bytes) : Table Bytes Bool × Bool :=
  match stopFile with
  | none => (∅, false)
  | some file =>
      ((getlines file).foldl
        (fun table line => if line ∈ table then table else table.insert line true) ∅, true)

/-- `jiebaUtil`, with what `initJiebaUtil` reads. -/
def jiebaUtil {W : Type*} [Cppjieba.Weight W] (jieba : Cppjieba.Jieba W)
    (stopFile : Option Bytes) : JiebaUtil where
  cutForSearch := fun src => jieba.cutForSearch src true
  stopKeywordMap := (initJiebaUtil stopFile).1

/-- The stop words are the lines of their file, whatever they hold. -/
theorem mem_initJiebaUtil_iff {stopFile : Option Bytes} {word : Bytes} :
    word ∈ (initJiebaUtil stopFile).1 ↔ ∃ file, stopFile = some file ∧ word ∈ getlines file := by
  have loop (lines : List Bytes) (table : Table Bytes Bool) :
      word ∈ lines.foldl
          (fun table line => if line ∈ table then table else table.insert line true) table ↔
        word ∈ table ∨ word ∈ lines := by
    induction lines generalizing table with
    | nil => simp
    | cons line lines induction =>
        rw [List.foldl_cons, induction, List.mem_cons]
        split
        · rename_i known
          constructor
          · rintro (before | later)
            · exact .inl before
            · exact .inr (.inr later)
          · rintro (before | rfl | later)
            · exact .inl before
            · exact .inl known
            · exact .inr later
        · rw [AList.mem_insert]
          tauto
  cases stopFile with
  | none => simp [initJiebaUtil]
  | some file => simp [initJiebaUtil, loop]

section Instance

variable {W : Type*} [Cppjieba.Weight W]

theorem cutsBlocks_jiebaUtil (jieba : Cppjieba.Jieba W) (stopFile : Option Bytes) :
    CutsBlocks (jiebaUtil jieba stopFile) := by
  intro text token member
  exact (Cppjieba.Jieba.token_spec member).1

/-- A text has a token that is no stop word exactly when it is not empty and can be decoded, as long
as none of its tokens is a line of the file of stop words. -/
theorem exists_token_jiebaUtil_iff (jieba : Cppjieba.Jieba W) (stopFile : Option Bytes)
    {text : Bytes} (kept : ∀ file ∈ stopFile, ∀ token ∈ jieba.cutForSearch text true,
      toLower token ∉ getlines file) :
    (∃ token ∈ (jiebaUtil jieba stopFile).cutString text,
        toLower token ∉ (jiebaUtil jieba stopFile).stopKeywordMap) ↔
      text ≠ [] ∧ (Cppjieba.decodeRunesInString text).isSome := by
  have tokens_ne_nil_iff : jieba.cutForSearch text true ≠ [] ↔
      text ≠ [] ∧ (Cppjieba.decodeRunesInString text).isSome := by
    rw [ne_eq, Cppjieba.Jieba.cutForSearch_eq_nil_iff, not_or, ← Option.not_isSome_iff_eq_none,
      not_not]
  rw [← tokens_ne_nil_iff]
  constructor
  · rintro ⟨token, member, -⟩
    exact List.ne_nil_of_mem member
  · intro nonempty
    obtain ⟨token, member⟩ := List.exists_mem_of_ne_nil _ nonempty
    refine ⟨token, member, fun stop => ?_⟩
    obtain ⟨file, opened, line⟩ := mem_initJiebaUtil_iff.mp stop
    exact kept file opened token member line

end Instance

/-! ## Documents are found by their own words -/

section Retrieval

variable {jieba : JiebaUtil} {order : Index.KeywordOrder} {index : Index}

theorem occurrences_pos_iff {text keyword : Bytes} :
    0 < Index.occurrences jieba text keyword ↔
      keyword ∉ jieba.stopKeywordMap ∧ ∃ token ∈ jieba.cutString text, toLower token = keyword := by
  rw [Index.occurrences, List.countP_pos_iff]
  simp only [decide_eq_true_eq]
  constructor
  · rintro ⟨token, member, lowered, kept⟩
    exact ⟨kept, token, member, lowered⟩
  · rintro ⟨kept, token, member, lowered⟩
    exact ⟨token, member, lowered, kept⟩

/-- A document is listed for the tokens of its title and of its content that are no stop words. -/
theorem keywordWeight_isSome_iff {doc : Index.DocInfo} {keyword : Bytes} :
    (Index.keywordWeight jieba doc keyword).isSome ↔
      keyword ∉ jieba.stopKeywordMap ∧
        ∃ token ∈ jieba.cutString doc.title ++ jieba.cutString doc.content,
          toLower token = keyword := by
  have weighed : (Index.keywordWeight jieba doc keyword).isSome ↔
      0 < Index.occurrences jieba doc.title keyword ∨
        0 < Index.occurrences jieba doc.content keyword := by
    rw [Option.isSome_iff_exists, ← Nat.add_pos_iff_pos_or_pos]
    simp only [Index.keywordWeight_eq_some_iff]
    constructor
    · rintro ⟨-, present, -⟩
      exact present
    · intro present
      exact ⟨_, present, rfl⟩
  rw [weighed, occurrences_pos_iff, occurrences_pos_iff]
  simp only [List.mem_append]
  constructor
  · rintro (⟨kept, token, member, lowered⟩ | ⟨kept, token, member, lowered⟩)
    · exact ⟨kept, token, .inl member, lowered⟩
    · exact ⟨kept, token, .inr member, lowered⟩
  · rintro ⟨kept, token, member | member, lowered⟩
    · exact .inl ⟨kept, token, member, lowered⟩
    · exact .inr ⟨kept, token, member, lowered⟩

/-- A document answers a query exactly when they share a word: a token of the query that is no
stop word is a token of the title or of the content, up to letter case. -/
theorem mem_hits_iff (reachable : Index.Reachable jieba order index) {docId : Nat}
    {doc : Index.DocInfo} (position : index.forwardIndex[docId]? = some doc) (query : Bytes)
    (traversal : Traversal (Entry Nat Searcher.InvertedElemOut))
    (sorting : Retrieval.Sorting Searcher.heavier) :
    docId ∈ (Searcher.allInvertedElemOut index (jieba.cutString query) traversal sorting).map
        (·.docId) ↔
      ∃ asked ∈ jieba.cutString query, toLower asked ∉ jieba.stopKeywordMap ∧
        ∃ token ∈ jieba.cutString doc.title ++ jieba.cutString doc.content,
          toLower token = toLower asked := by
  rw [Searcher.mem_docIds_iff reachable]
  simp only [Searcher.elemOf_isSome reachable position, keywordWeight_isSome_iff, List.mem_map,
    exists_exists_and_eq_and]

/-- The document of one word answers that word in capitals. -/
theorem mem_hits_listIndex :
    0 ∈ (Searcher.allInvertedElemOut Searcher.listIndex
          (JiebaUtil.singleWord.cutString (bytes "LIST")) (.inOrder _) Searcher.stableSort).map
        (·.docId) ↔
      ∃ asked ∈ JiebaUtil.singleWord.cutString (bytes "LIST"),
        toLower asked ∉ JiebaUtil.singleWord.stopKeywordMap ∧
          ∃ token ∈ JiebaUtil.singleWord.cutString (bytes "list") ++
              JiebaUtil.singleWord.cutString (bytes "list"),
            toLower token = toLower asked :=
  mem_hits_iff (Searcher.reachable_addLine _ _ (by decide) (by decide))
    (show Searcher.listIndex.forwardIndex[0]? =
      some ⟨bytes "list", bytes "list", bytes "url", 0⟩ by decide)
    (bytes "LIST") (.inOrder _) Searcher.stableSort

/-- A document answers its own title exactly when some token of the title is no stop word. -/
theorem mem_hits_title_iff (reachable : Index.Reachable jieba order index) {docId : Nat}
    {doc : Index.DocInfo} (position : index.forwardIndex[docId]? = some doc)
    (traversal : Traversal (Entry Nat Searcher.InvertedElemOut))
    (sorting : Retrieval.Sorting Searcher.heavier) :
    docId ∈ (Searcher.allInvertedElemOut index (jieba.cutString doc.title) traversal sorting).map
        (·.docId) ↔
      ∃ token ∈ jieba.cutString doc.title, toLower token ∉ jieba.stopKeywordMap := by
  rw [Searcher.mem_docIds_iff reachable]
  simp only [Searcher.elemOf_isSome reachable position, keywordWeight_isSome_iff, List.mem_map,
    exists_exists_and_eq_and]
  constructor
  · rintro ⟨asked, member, kept, -⟩
    exact ⟨asked, member, kept⟩
  · rintro ⟨asked, member, kept⟩
    exact ⟨asked, member, kept, asked, List.mem_append_left _ member, rfl⟩

end Retrieval

section OwnTitle

variable {W : Type*} [Cppjieba.Weight W] {order : Index.KeywordOrder} {index : Index}

/-- With the segmenter of the repository, a document answers its own title exactly when the title is
not empty and can be decoded, as long as no token of the title is a line of the file of stop words.
A title that is empty or cannot be decoded has no answer at all. -/
theorem mem_hits_ownTitle_iff (jieba : Cppjieba.Jieba W) (stopFile : Option Bytes)
    (reachable : Index.Reachable (jiebaUtil jieba stopFile) order index) {docId : Nat}
    {doc : Index.DocInfo} (position : index.forwardIndex[docId]? = some doc)
    (kept : ∀ file ∈ stopFile, ∀ token ∈ jieba.cutForSearch doc.title true,
      toLower token ∉ getlines file)
    (traversal : Traversal (Entry Nat Searcher.InvertedElemOut))
    (sorting : Retrieval.Sorting Searcher.heavier) :
    (docId ∈ (Searcher.allInvertedElemOut index ((jiebaUtil jieba stopFile).cutString doc.title)
        traversal sorting).map (·.docId) ↔
      doc.title ≠ [] ∧ (Cppjieba.decodeRunesInString doc.title).isSome) ∧
      (doc.title = [] ∨ Cppjieba.decodeRunesInString doc.title = none →
        Searcher.allInvertedElemOut index ((jiebaUtil jieba stopFile).cutString doc.title)
          traversal sorting = []) := by
  refine ⟨?_, fun wordless => ?_⟩
  · rw [mem_hits_title_iff reachable position]
    exact exists_token_jiebaUtil_iff jieba stopFile kept
  · have no_tokens : (jiebaUtil jieba stopFile).cutString doc.title = [] :=
      Cppjieba.Jieba.cutForSearch_eq_nil_iff.mpr wordless
    by_contra found
    obtain ⟨_, member, -⟩ :=
      (Searcher.allInvertedElemOut_ne_nil_iff reachable _ traversal sorting).mp found
    simp [no_tokens] at member

/-- A segmenter with two words, whose model tells nothing. -/
def twoWords : Cppjieba.Jieba ℚ where
  dictTrie := {
    dictUnits := [⟨Cppjieba.DictTrie.runesOf (bytes "vector"), -1⟩,
      ⟨Cppjieba.DictTrie.runesOf (bytes "list"), -1⟩]
    minWeight := -2
    userDictSingleChineseWord := ∅ }
  model := Cppjieba.Jieba.flatModel

/-- The title holds two words, neither of them a stop word. -/
theorem mem_hits_ownTitle_twoWords :
    0 ∈ (Searcher.allInvertedElemOut
          (Index.empty.addLine (jiebaUtil twoWords (some (bytes "the\n"))) (fun _ => .inOrder _)
            (bytes "vector list\x03list\x03url"))
          ((jiebaUtil twoWords (some (bytes "the\n"))).cutString (bytes "vector list"))
          (.inOrder _) Searcher.stableSort).map (·.docId) := by
  have cut : twoWords.cutForSearch (bytes "vector list") true =
      [bytes "vector", bytes " ", bytes "list"] := by
    decide +kernel
  have kept : ∀ file ∈ some (bytes "the\n"),
      ∀ token ∈ twoWords.cutForSearch (bytes "vector list") true,
        toLower token ∉ getlines file := by
    rw [cut]
    decide
  refine (mem_hits_ownTitle_iff twoWords (some (bytes "the\n"))
    (Searcher.reachable_addLine _ _ (by decide) (by decide))
    (show _ = some ⟨bytes "vector list", bytes "list", bytes "url", 0⟩ from rfl) kept (.inOrder _)
    Searcher.stableSort).1.mpr ⟨by decide, ?_⟩
  decide +kernel

end OwnTitle

end BoostDocSearcher
