import BoostDocSearcher.Ranking
import BoostDocSearcher.RawFormat

/-!
# Letter case

Two runs on inputs that differ in letter case only: raw files, lines, fields, keyword counts,
posting lists, merging tables and snippet windows correspond one by one. The only assumption is on
the segmenter, which must cut texts that are equal up to case at the same places.
-/

namespace BoostDocSearcher

open Tally

/-- The segmenter gives the same tokens, up to case, for texts that are equal up to case. -/
def FoldsCase (jieba : JiebaUtil) : Prop :=
  ∀ text text', SameLetters text text' →
    (jieba.cutString text).map toLower = (jieba.cutString text').map toLower

/-! ## Documents and their lines -/

/-- Parsed documents that differ in the case of title and content only. -/
structure SameDoc (doc doc' : Parser.DocInfo) : Prop where
  /-- Titles are equal up to case. -/
  title : SameLetters doc.title doc'.title
  /-- Contents are equal up to case. -/
  content : SameLetters doc.content doc'.content
  /-- Addresses are equal. -/
  url : doc.url = doc'.url

theorem sameLetters_outStr {doc doc' : Parser.DocInfo} (same : SameDoc doc doc') :
    SameLetters (Parser.outStr doc) (Parser.outStr doc') := by
  rw [Parser.outStr, Parser.outStr, same.url]
  have separator : SameLetters [SEP] [SEP] := rfl
  exact same.title.append (separator.append (same.content.append rfl))

/-- The files that the parser writes for such documents are equal up to case. -/
theorem sameLetters_saved {docs docs' : List Parser.DocInfo}
    (same : List.Forall₂ SameDoc docs docs') :
    SameLetters (docs.flatMap Parser.outStr) (docs'.flatMap Parser.outStr) := by
  induction same with
  | nil => rfl
  | cons head _ induction => exact (sameLetters_outStr head).append induction

theorem lineFields_toLower (line : Bytes) :
    Index.lineFields (toLower line) = (Index.lineFields line).map toLower := by
  rw [lineFields_eq, lineFields_eq]
  apply Delimited.fields_map
  intro c
  simp only [List.contains_cons, List.contains_nil, Bool.or_false, Bool.beq_eq_decide_eq,
    tolower_eq_SEP]

/-- Indexed documents whose texts are equal up to case. -/
structure SameText (doc doc' : Index.DocInfo) : Prop where
  /-- Titles are equal up to case. -/
  title : SameLetters doc.title doc'.title
  /-- Contents are equal up to case. -/
  content : SameLetters doc.content doc'.content
  /-- Ids are equal. -/
  docId : doc.docId = doc'.docId

theorem sameText_lineDoc {line line' : Bytes} (same : SameLetters line line') (docId : Nat) :
    SameText (Index.lineDoc docId line) (Index.lineDoc docId line') := by
  have fields : (Index.lineFields line).map toLower = (Index.lineFields line').map toLower := by
    rw [← lineFields_toLower, ← lineFields_toLower, same]
  have field (position : Nat) : SameLetters ((Index.lineFields line).getD position [])
      ((Index.lineFields line').getD position []) := by
    have lowered (fields : List Bytes) :
        toLower (fields.getD position []) = (fields.map toLower).getD position [] := by
      rw [List.getD_eq_getElem?_getD, List.getD_eq_getElem?_getD, List.getElem?_map]
      cases fields[position]? <;> rfl
    rw [SameLetters, lowered, lowered, fields]
  exact ⟨field 0, field 1, rfl⟩

/-! ## Keyword weights and answers -/

theorem occurrences_of_same {jieba : JiebaUtil} (folds : FoldsCase jieba) {text text' : Bytes}
    (same : SameLetters text text') (keyword : Bytes) :
    Index.occurrences jieba text keyword = Index.occurrences jieba text' keyword := by
  have counted (text : Bytes) : Index.occurrences jieba text keyword =
      ((jieba.cutString text).map toLower).countP fun token =>
        token = keyword ∧ keyword ∉ jieba.stopKeywordMap := by
    rw [List.countP_map]
    rfl
  rw [counted, counted, folds text text' same]

theorem keywordWeight_of_same {jieba : JiebaUtil} (folds : FoldsCase jieba)
    {doc doc' : Index.DocInfo} (same : SameText doc doc') (keyword : Bytes) :
    Index.keywordWeight jieba doc keyword = Index.keywordWeight jieba doc' keyword := by
  simp only [Index.keywordWeight, occurrences_of_same folds same.title,
    occurrences_of_same folds same.content]

theorem hit_of_same {jieba : JiebaUtil} (folds : FoldsCase jieba) {doc doc' : Index.DocInfo}
    (same : SameText doc doc') (words : List Bytes) :
    Searcher.hit jieba words doc = Searcher.hit jieba words doc' := by
  rw [Searcher.hit, Searcher.hit, same.docId]
  congr 1
  exact Retrieval.answer_congr fun word _ => keywordWeight_of_same folds same word

/-! ## Snippets -/

namespace SameLetters

theorem take_drop {text text' : Bytes} (same : SameLetters text text') (start count : Nat) :
    SameLetters ((text.drop start).take count) ((text'.drop start).take count) := by
  unfold SameLetters toLower at *
  rw [List.map_take, List.map_drop, same, ← List.map_drop, ← List.map_take]

end SameLetters

theorem stdSearch_of_same {content content' : Bytes} (same : SameLetters content content')
    (keyword : Bytes) :
    stdSearch (fun x y => tolower x == tolower y) content keyword =
      stdSearch (fun x y => tolower x == tolower y) content' keyword := by
  have lowered (content : Bytes) :
      Occurrence.first? (fun x y => tolower x == tolower y) content keyword =
        Occurrence.first? (· == ·) (toLower content) (toLower keyword) :=
    (Occurrence.first?_map (· == ·) tolower tolower content keyword).symm
  rw [stdSearch, stdSearch, lowered, lowered, same, same.length_eq]

theorem descWindow_of_same {content content' : Bytes} (same : SameLetters content content')
    (keyword : Bytes) :
    Searcher.descWindow content keyword = Searcher.descWindow content' keyword := by
  unfold Searcher.descWindow
  rw [stdSearch_of_same same, same.length_eq]

theorem sameLetters_descText {content content' : Bytes} (same : SameLetters content content')
    (keyword : Bytes) :
    SameLetters (Searcher.descText content keyword) (Searcher.descText content' keyword) := by
  unfold Searcher.descText
  rw [descWindow_of_same same]
  cases Searcher.descWindow content' keyword with
  | missing => rfl
  | nothing => rfl
  | cut start stop =>
      exact SameLetters.append rfl ((same.take_drop start _).append rfl)

/-! ## Two runs -/

/-- Two searches that agree up to letter case. -/
structure SameUpToCase (jieba : JiebaUtil) (built built' : Index) (query query' : Bytes) :
    Prop where
  /-- The merging tables hold the same ids, weights and keywords. -/
  table : ∀ docId,
    (Searcher.invertedElemOutMap built (jieba.cutString query)).lookup docId =
      (Searcher.invertedElemOutMap built' (jieba.cutString query')).lookup docId
  /-- Every hit has a snippet in both runs, cut at the same window. -/
  snippet : ∀ docId found,
    (Searcher.invertedElemOutMap built (jieba.cutString query)).lookup docId = some found →
    ∃ doc doc' keyword desc desc',
      built.getForwardIndex docId = some doc ∧ built'.getForwardIndex docId = some doc' ∧
        subscript found.keywords 0 = .ok keyword ∧
        Searcher.descWindow doc.content keyword = Searcher.descWindow doc'.content keyword ∧
        Searcher.getDesc doc.content keyword = .ok desc ∧
        Searcher.getDesc doc'.content keyword = .ok desc' ∧ SameLetters desc desc'

/-- The documents at one position of two indexes built from lines that are equal up to case. -/
theorem sameText_position (jieba : JiebaUtil) (order order' : Index.KeywordOrder)
    {lines lines' : List Bytes} (same : lines.map toLower = lines'.map toLower) (docId : Nat) :
    Option.Rel SameText
      (lines.foldl (Index.addLine jieba order) Index.empty).forwardIndex[docId]?
      (lines'.foldl (Index.addLine jieba order') Index.empty).forwardIndex[docId]? := by
  have line_same := congrArg (·[docId]?) same
  simp only [Index.forwardIndex_foldl_addLine, Index.empty, List.nil_append, List.length_nil,
    Nat.zero_add, List.getElem?_mapIdx, List.getElem?_map] at line_same ⊢
  cases line_eq : lines[docId]? with
  | none =>
      cases line_eq' : lines'[docId]? with
      | none => exact .none
      | some line' => simp [line_eq, line_eq'] at line_same
  | some line =>
      cases line_eq' : lines'[docId]? with
      | none => simp [line_eq, line_eq'] at line_same
      | some line' =>
          have letters : toLower line = toLower line' := by
            simpa [line_eq, line_eq'] using line_same
          exact .some (sameText_lineDoc letters docId)

theorem sameUpToCase_of_lines {jieba : JiebaUtil} (folds : FoldsCase jieba)
    {order order' : Index.KeywordOrder} {built built' : Index}
    (reachable : Index.Reachable jieba order built)
    (reachable' : Index.Reachable jieba order' built')
    (positions : ∀ docId : Nat, Option.Rel SameText built.forwardIndex[docId]?
      built'.forwardIndex[docId]?)
    {query query' : Bytes} (same : SameLetters query query') :
    SameUpToCase jieba built built' query query' := by
  have words_eq := folds query query' same
  constructor
  case table =>
    intro docId
    rw [Searcher.lookup_invertedElemOutMap reachable,
      Searcher.lookup_invertedElemOutMap reachable', words_eq]
    have related := positions docId
    generalize built.forwardIndex[docId]? = place, built'.forwardIndex[docId]? = place'
      at related ⊢
    cases related with
    | none => rfl
    | some texts => exact hit_of_same folds texts _
  case snippet =>
    intro docId found looked_up
    rw [Searcher.lookup_invertedElemOutMap reachable] at looked_up
    simp only [Searcher.getForwardIndex_eq]
    have related := positions docId
    generalize built.forwardIndex[docId]? = place, built'.forwardIndex[docId]? = place'
      at related looked_up ⊢
    cases related with
    | none => contradiction
    | @some doc doc' texts =>
        obtain ⟨-, some_match, -⟩ := Searcher.matched_of_hit looked_up
        obtain ⟨keyword, rest, keywords_eq⟩ := List.exists_cons_of_ne_nil some_match
        refine ⟨doc, doc', keyword, _, _, rfl, rfl, ?_, descWindow_of_same texts.content keyword,
          Searcher.getDesc_eq _ _, Searcher.getDesc_eq _ _,
          sameLetters_descText texts.content keyword⟩
        simp [keywords_eq]

/-- Two builds and searches on inputs that are equal up to case agree up to case. -/
theorem caseFolding_neutral {jieba : JiebaUtil} (folds : FoldsCase jieba)
    (order order' : Index.KeywordOrder) {docs docs' : List Parser.DocInfo}
    (same : List.Forall₂ SameDoc docs docs') :
    (∃ fault,
        Index.empty.buildIndex jieba order (Parser.saveDocInfo docs true) = .error fault ∧
          Index.empty.buildIndex jieba order' (Parser.saveDocInfo docs' true) = .error fault) ∨
      ∃ built built',
        Index.empty.buildIndex jieba order (Parser.saveDocInfo docs true) = .ok (built, true) ∧
          Index.empty.buildIndex jieba order' (Parser.saveDocInfo docs' true) =
            .ok (built', true) ∧
          ∀ query query', SameLetters query query' →
            SameUpToCase jieba built built' query query' := by
  rw [Parser.saveDocInfo_of_open, Parser.saveDocInfo_of_open]
  have files_same := sameLetters_saved same
  generalize docs.flatMap Parser.outStr = file at files_same
  generalize docs'.flatMap Parser.outStr = file' at files_same
  have lines_same : (getlines file).map toLower = (getlines file').map toLower := by
    rw [← getlines_toLower, ← getlines_toLower, files_same]
  have lengths_same : (getlines file).map (fun line => (Index.lineFields line).length) =
      (getlines file').map fun line => (Index.lineFields line).length := by
    have mapped := congrArg (List.map fun line => (Index.lineFields line).length) lines_same
    simpa [lineFields_toLower, Function.comp_def] using mapped
  have short_same : (∃ line ∈ getlines file, (Index.lineFields line).length < 3) ↔
      ∃ line ∈ getlines file', (Index.lineFields line).length < 3 := by
    have counted := congrArg (fun lengths => ∃ length ∈ lengths, length < 3) lengths_same
    simpa using counted
  by_cases short : ∃ line ∈ getlines file, (Index.lineFields line).length < 3
  · left
    exact ⟨.badSubscript, Index.buildIndex_of_short short jieba order Index.empty,
      Index.buildIndex_of_short (short_same.mp short) jieba order' Index.empty⟩
  · right
    have long : ∀ line ∈ getlines file, 3 ≤ (Index.lineFields line).length := by
      simpa using short
    have long' : ∀ line ∈ getlines file', 3 ≤ (Index.lineFields line).length := by
      simpa using (not_congr short_same).mp short
    refine ⟨_, _, Index.buildIndex_of_long long jieba order Index.empty,
      Index.buildIndex_of_long long' jieba order' Index.empty, ?_⟩
    intro query query' query_same
    exact sameUpToCase_of_lines folds (Index.Reachable.of_long long jieba order)
      (Index.Reachable.of_long long' jieba order')
      (sameText_position jieba order order' lines_same) query_same

theorem foldsCase_singleWord : FoldsCase .singleWord := by
  intro text text' same
  exact congrArg (fun lowered => [lowered]) same

/-- One document in two spellings. -/
theorem caseFolding_neutral_list :
    (∃ fault,
        Index.empty.buildIndex .singleWord (fun _ => .inOrder _)
            (Parser.saveDocInfo [⟨bytes "List", bytes "a List", bytes "url"⟩] true) =
          .error fault ∧
        Index.empty.buildIndex .singleWord (fun _ => .inOrder _)
            (Parser.saveDocInfo [⟨bytes "LIST", bytes "A list", bytes "url"⟩] true) =
          .error fault) ∨
      ∃ built built',
        Index.empty.buildIndex .singleWord (fun _ => .inOrder _)
            (Parser.saveDocInfo [⟨bytes "List", bytes "a List", bytes "url"⟩] true) =
          .ok (built, true) ∧
        Index.empty.buildIndex .singleWord (fun _ => .inOrder _)
            (Parser.saveDocInfo [⟨bytes "LIST", bytes "A list", bytes "url"⟩] true) =
          .ok (built', true) ∧
        ∀ query query', SameLetters query query' →
          SameUpToCase .singleWord built built' query query' :=
  caseFolding_neutral foldsCase_singleWord _ _
    (.cons ⟨by decide, by decide, rfl⟩ .nil)

end BoostDocSearcher
