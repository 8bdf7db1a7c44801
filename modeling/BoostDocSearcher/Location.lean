import BoostDocSearcher.Pipeline
import BoostDocSearcher.Ranking
import BoostDocSearcher.Snippet

/-!
# Every hit is located in its document

A keyword of a hit may come from the title alone, while its snippet is looked up in the content. The
lookup succeeds because the stripper keeps the whole title, so that every token of the title is a
block of the content too, up to letter case.
-/

namespace BoostDocSearcher

open Tally

/-- Every token is a contiguous block of the text that was cut. -/
def CutsBlocks (jieba : JiebaUtil) : Prop :=
  ∀ text, ∀ token ∈ jieba.cutString text, token <:+: text

/-- A finished run of the parser on files and paths without field separators, with some content and
an untagged title in every document. -/
structure LocatedInput (files : FileSystem) (filesList : List Bytes)
    (docs : List Parser.DocInfo) : Prop where
  /-- The parser returns these documents. -/
  parsed : Parser.parseDocInfo files filesList [] = .ok (true, docs)
  /-- No path contains a separator of the raw format. -/
  path_clean : ∀ filePath ∈ filesList, CleanField filePath
  /-- No file contains a field separator. -/
  file_clean : ∀ filePath ∈ filesList, ∀ raw, files filePath = some raw → SEP ∉ raw
  /-- Every stripped content has text. -/
  filled : ∀ doc ∈ docs, doc.content ≠ []
  /-- No title opens a tag. -/
  untagged : ∀ doc ∈ docs, Parser.tagOpen ∉ doc.title

theorem title_infix_content {files : FileSystem} {filePath : Bytes} {doc : Parser.DocInfo}
    (parsed : Parser.parseFile files filePath = .ok (some doc))
    (untagged : Parser.tagOpen ∉ doc.title) : doc.title <:+: doc.content := by
  obtain ⟨raw, -, titled, content_eq, -, -⟩ := Parser.parseFile_eq_some_iff.mp parsed
  rcases Parser.parseTitle_cases (Parser.joinLines raw) [] with
    untitled | ⟨front, text, after, joined_eq, found⟩
  · simp [untitled] at titled
  · obtain rfl : text = doc.title := by simpa [found] using titled
    have unbroken : doc.title.map (fun c => if c = newline then space else c) = doc.title := by
      rw [List.map_congr_left, List.map_id]
      intro c member
      exact if_neg (mem_of_mem_title titled member).2
    rw [content_eq, joined_eq, Parser.kept_append, Parser.kept_titleOpen_append,
      Parser.kept_content_append untagged, unbroken]
    exact ⟨_, _, List.append_assoc _ _ _⟩

/-- A keyword is found in a text that contains one of its spellings as a block. -/
theorem stdSearch_ne_length {content token : Bytes} (block : token <:+: content)
    (nonempty : content ≠ []) :
    stdSearch (fun x y => tolower x == tolower y) content (toLower token) ≠ content.length := by
  obtain ⟨front, after, content_eq⟩ := block
  have slice_eq : slice content front.length (front.length + (toLower token).length) = token := by
    rw [slice, ← content_eq, List.append_assoc, List.drop_left, Nat.add_sub_cancel_left,
      length_toLower, List.take_left]
  have occurs : Searcher.OccursAt content (toLower token) front.length := by
    refine ⟨?_, ?_⟩
    · rw [← content_eq, List.append_assoc, List.length_append]
      exact Nat.le_add_right _ _
    · rw [slice_eq, SameLetters, toLower_toLower]
  intro at_end
  rcases Searcher.stdSearch_eq_length_iff.mp at_end with empty | missing
  · exact nonempty empty
  · exact missing ⟨front.length, occurs⟩

/-- A keyword that a document is listed for is a spelling of a block of its content. -/
theorem exists_block_of_occurs {jieba : JiebaUtil} (cuts : CutsBlocks jieba)
    {doc : Index.DocInfo} (title_block : doc.title <:+: doc.content) {keyword : Bytes}
    (occurs : (Index.keywordWeight jieba doc keyword).isSome) :
    ∃ token, token <:+: doc.content ∧ toLower token = keyword := by
  obtain ⟨weight, weight_eq⟩ := Option.isSome_iff_exists.mp occurs
  have present := (Index.keywordWeight_eq_some_iff.mp weight_eq).1
  have spelled {text : Bytes} (counted : 0 < Index.occurrences jieba text keyword) :
      ∃ token, token <:+: text ∧ toLower token = keyword := by
    obtain ⟨token, member, matched⟩ := List.countP_pos_iff.mp counted
    simp only [decide_eq_true_eq] at matched
    exact ⟨token, cuts text token member, matched.1⟩
  rcases Nat.add_pos_iff_pos_or_pos.mp present with titled | contained
  · obtain ⟨token, block, lowered⟩ := spelled titled
    exact ⟨token, block.trans title_block, lowered⟩
  · exact spelled contained

/-- A hit is located: its document is there, and the lookup of its first keyword succeeds. -/
def Located (index : Index) (found : Searcher.InvertedElemOut) : Prop :=
  ∃ doc keyword, index.getForwardIndex found.docId = some doc ∧
    subscript found.keywords 0 = .ok keyword ∧
    Searcher.descWindow doc.content keyword ≠ .missing

theorem located_of_hit {jieba : JiebaUtil} (cuts : CutsBlocks jieba) {index : Index}
    {words : List Bytes} {doc : Index.DocInfo} {found : Searcher.InvertedElemOut}
    (position : index.forwardIndex[found.docId]? = some doc)
    (answered : Searcher.hit jieba words doc = some found)
    (title_block : doc.title <:+: doc.content) (content_ne : doc.content ≠ []) :
    Located index found := by
  obtain ⟨keywords_eq, some_match, -⟩ := Searcher.matched_of_hit answered
  obtain ⟨keyword, rest, cons_eq⟩ := List.exists_cons_of_ne_nil some_match
  refine ⟨doc, keyword, ?_, by simp [cons_eq], ?_⟩
  · rw [Searcher.getForwardIndex_eq, position]
  · have matched : keyword ∈ Retrieval.matched (Index.keywordWeight jieba) words doc := by
      rw [← keywords_eq, cons_eq]
      exact List.mem_cons_self
    obtain ⟨token, block, rfl⟩ :=
      exists_block_of_occurs cuts title_block (List.mem_filter.mp matched).2
    have located := stdSearch_ne_length block content_ne
    rw [Searcher.descWindow, if_neg located]
    split <;> simp

/-- Every hit of every search is located in its document. -/
theorem hits_located {jieba : JiebaUtil} (cuts : CutsBlocks jieba) {files : FileSystem}
    {filesList : List Bytes} {docs : List Parser.DocInfo}
    (input : LocatedInput files filesList docs) (order : Index.KeywordOrder) :
    ∃ built,
      Index.empty.buildIndex jieba order (Parser.saveDocInfo docs true) = .ok (built, true) ∧
        ∀ query traversal sorting,
          ∀ found ∈ Searcher.allInvertedElemOut built (jieba.cutString query) traversal sorting,
            Located built found := by
  have origin (doc : Parser.DocInfo) (member : doc ∈ docs) :
      ∃ filePath ∈ filesList, Parser.parseFile files filePath = .ok (some doc) := by
    rcases Parser.mem_of_parseDocInfo input.parsed member with before | from_file
    · simp at before
    · exact from_file
  have clean : ∀ doc ∈ docs, CleanDoc doc := by
    intro doc member
    obtain ⟨filePath, path_mem, parsed⟩ := origin doc member
    exact cleanDoc_of_parseFile parsed (input.path_clean filePath path_mem)
      (input.file_clean filePath path_mem)
  obtain ⟨built, finished, stored⟩ := (buildIndex_saved_iff clean jieba order).mpr input.filled
  refine ⟨built, finished, ?_⟩
  intro query traversal sorting found found_mem
  have reachable : Index.Reachable jieba order built := .build .empty finished
  obtain ⟨doc, position, answered⟩ :=
    (Searcher.mem_allInvertedElemOut_iff reachable).mp found_mem
  obtain ⟨parsedDoc, parsed_mem, rfl⟩ :
      ∃ parsedDoc ∈ docs, parsedDoc.indexed found.docId = doc := by
    rw [stored, List.getElem?_mapIdx, Option.map_eq_some_iff] at position
    obtain ⟨parsedDoc, parsed_eq, indexed_eq⟩ := position
    exact ⟨parsedDoc, List.mem_of_getElem? parsed_eq, indexed_eq⟩
  obtain ⟨filePath, -, parsed⟩ := origin parsedDoc parsed_mem
  exact located_of_hit cuts position answered
    (title_infix_content parsed (input.untagged parsedDoc parsed_mem))
    (input.filled parsedDoc parsed_mem)

theorem cutsBlocks_singleWord : CutsBlocks .singleWord := by
  intro text token member
  obtain rfl : token = text := List.mem_singleton.mp member
  exact List.infix_refl token

/-- The document of a file whose title is one word. -/
def vectorDoc : Parser.DocInfo where
  title := bytes "vector"
  content := bytes "vector"
  url := Parser.urlHead ++ (bytes "data/input/a.html").drop Parser.srcPath.length

theorem locatedInput_vectorDoc :
    LocatedInput (oneFile (bytes "<title>vector</title>")) [bytes "data/input/a.html"]
      [vectorDoc] := by
  have input : ParserInput (oneFile (bytes "<title>vector</title>"))
      [bytes "data/input/a.html"] := parserInput_oneFile (by decide)
  have parsed : Parser.parseDocInfo (oneFile (bytes "<title>vector</title>"))
      [bytes "data/input/a.html"] [] = .ok (true, [vectorDoc]) := by
    rw [Parser.parseDocInfo,
      Parser.parseFile_oneFile (bytes "<title>vector</title>") (bytes "vector") rfl]
    rfl
  exact ⟨parsed, input.path_clean, input.file_clean, by decide, by decide⟩

/-- The hits in the index of that file are located. -/
theorem hits_located_vectorDoc :
    ∃ built,
      Index.empty.buildIndex .singleWord (fun _ => .inOrder _)
          (Parser.saveDocInfo [vectorDoc] true) = .ok (built, true) ∧
        ∀ query traversal sorting,
          ∀ found ∈ Searcher.allInvertedElemOut built (JiebaUtil.singleWord.cutString query)
              traversal sorting,
            Located built found :=
  hits_located cutsBlocks_singleWord locatedInput_vectorDoc _

end BoostDocSearcher
