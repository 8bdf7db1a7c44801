import BoostDocSearcher.Index
import BoostDocSearcher.Parser

/-!
# The raw record format between the two programs

The parser writes a document as `title\3content\3url\n`; the index reads lines and cuts them at runs
of `\3`. The round trip succeeds on exactly the documents whose fields hold neither separator and
whose content is not empty. A line with fewer than three fields is not rejected by the reader: it
reads past the end of the fields, although its caller is ready to skip a rejected line.
-/

namespace BoostDocSearcher

/-- A field that survives the format: without field separator and without newline. -/
def CleanField (field : Bytes) : Prop :=
  SEP ∉ field ∧ newline ∉ field

/-- The document of the forward index that a parsed document is meant to become. -/
def Parser.DocInfo.indexed (docId : Nat) (doc : Parser.DocInfo) : Index.DocInfo where
  title := doc.title
  content := doc.content
  url := doc.url
  docId := docId

/-- The line of one document, without the newline that ends it. -/
def Parser.DocInfo.row (doc : Parser.DocInfo) : Bytes :=
  doc.title ++ SEP :: (doc.content ++ SEP :: doc.url)

theorem outStr_eq (doc : Parser.DocInfo) : Parser.outStr doc = doc.row ++ [newline] := by
  simp [Parser.outStr, Parser.DocInfo.row]

/-! ## Fields of a line -/

theorem lineFields_eq (line : Bytes) :
    Index.lineFields line = Delimited.fields (fun c => [SEP].contains c) line := rfl

theorem cleanField_of_mem {line field : Bytes} (unbroken : newline ∉ line)
    (member : field ∈ Index.lineFields line) : CleanField field := by
  constructor
  · intro inside
    have separates := (Delimited.mem_of_mem_fields member inside).2
    simp at separates
  · intro inside
    exact unbroken (Delimited.mem_of_mem_fields member inside).1

theorem cleanField_getD {line : Bytes} (unbroken : newline ∉ line) (position : Nat) :
    CleanField ((Index.lineFields line).getD position []) := by
  rw [List.getD_eq_getElem?_getD]
  cases found : (Index.lineFields line)[position]? with
  | none => simp [CleanField]
  | some field => exact cleanField_of_mem unbroken (List.mem_of_getElem? found)

theorem separator_free {field : Bytes} (clean : CleanField field) :
    ∀ c ∈ field, [SEP].contains c = false := by
  intro c member
  have ne : c ≠ SEP := fun equation => clean.1 (equation ▸ member)
  simpa using ne

theorem lineFields_row {doc : Parser.DocInfo} (title_clean : CleanField doc.title)
    (content_clean : CleanField doc.content) (url_clean : CleanField doc.url)
    (content_ne : doc.content ≠ []) :
    Index.lineFields doc.row = [doc.title, doc.content, doc.url] := by
  rw [lineFields_eq, Parser.DocInfo.row]
  exact Delimited.fields_three (by simp) (separator_free title_clean)
    (separator_free content_clean) (separator_free url_clean) content_ne

theorem lineFields_row_of_empty {doc : Parser.DocInfo} (title_clean : CleanField doc.title)
    (url_clean : CleanField doc.url) (content_eq : doc.content = []) :
    Index.lineFields doc.row = [doc.title, doc.url] := by
  rw [lineFields_eq, Parser.DocInfo.row, content_eq, List.nil_append]
  exact Delimited.fields_three_of_empty (by simp) (separator_free title_clean)
    (separator_free url_clean)

/-! ## Lines of a saved file -/

/-- The three fields of a document are clean. -/
structure CleanDoc (doc : Parser.DocInfo) : Prop where
  /-- The title survives the format. -/
  title : CleanField doc.title
  /-- The content survives the format. -/
  content : CleanField doc.content
  /-- The address survives the format. -/
  url : CleanField doc.url

theorem newline_notMem_row {doc : Parser.DocInfo} (clean : CleanDoc doc) :
    newline ∉ doc.row := by
  have separator_ne : newline ≠ SEP := by decide
  simp [Parser.DocInfo.row, clean.title.2, clean.content.2, clean.url.2, separator_ne]

theorem getlines_saved {docs : List Parser.DocInfo} (clean : ∀ doc ∈ docs, CleanDoc doc) :
    getlines (docs.flatMap Parser.outStr) = docs.map Parser.DocInfo.row := by
  have terminated : docs.flatMap Parser.outStr =
      (docs.map Parser.DocInfo.row).flatMap (· ++ [newline]) := by
    rw [List.flatMap_map]
    exact List.flatMap_congr fun doc _ => outStr_eq doc
  rw [terminated, getlines]
  apply Delimited.records_flatMap_terminated
  intro row member
  obtain ⟨doc, doc_mem, rfl⟩ := List.mem_map.mp member
  exact newline_notMem_row (clean doc doc_mem)

theorem lineDoc_row {doc : Parser.DocInfo} (clean : CleanDoc doc) (content_ne : doc.content ≠ [])
    (docId : Nat) : Index.lineDoc docId doc.row = doc.indexed docId := by
  rw [Index.lineDoc, lineFields_row clean.title clean.content clean.url content_ne]
  rfl

/-- On clean documents the outcome of building depends on the contents alone. -/
theorem buildIndex_saved_iff {docs : List Parser.DocInfo} (clean : ∀ doc ∈ docs, CleanDoc doc)
    (jieba : JiebaUtil) (order : Index.KeywordOrder) :
    (∃ built,
        Index.empty.buildIndex jieba order (Parser.saveDocInfo docs true) = .ok (built, true) ∧
          built.forwardIndex = docs.mapIdx Parser.DocInfo.indexed) ↔
      ∀ doc ∈ docs, doc.content ≠ [] := by
  rw [Parser.saveDocInfo_of_open]
  constructor
  · intro ⟨built, finished, _⟩ doc member content_eq
    obtain ⟨-, long, -⟩ := Index.buildIndex_eq_ok_iff.mp finished
    rw [getlines_saved clean] at long
    have three := long doc.row (List.mem_map_of_mem member)
    rw [lineFields_row_of_empty (clean doc member).title (clean doc member).url
      content_eq] at three
    simp at three
  · intro filled
    have long : ∀ line ∈ docs.map Parser.DocInfo.row, 3 ≤ (Index.lineFields line).length := by
      intro line member
      obtain ⟨doc, doc_mem, rfl⟩ := List.mem_map.mp member
      have doc_clean := clean doc doc_mem
      rw [lineFields_row doc_clean.title doc_clean.content doc_clean.url (filled doc doc_mem)]
      exact Nat.le_refl 3
    refine ⟨_, Index.buildIndex_of_long ?_ jieba order Index.empty, ?_⟩
    · rwa [getlines_saved clean]
    · rw [getlines_saved clean, Index.forwardIndex_foldl_addLine]
      apply List.ext_getElem
      · simp [Index.empty]
      · intro position bound _
        have inside : position < docs.length := by simpa [Index.empty] using bound
        have member : docs[position] ∈ docs := List.getElem_mem inside
        simp only [Index.empty, List.nil_append, List.getElem_mapIdx, List.getElem_map,
          List.length_nil, Nat.zero_add]
        exact lineDoc_row (clean _ member) (filled _ member) position

/-- A finished run stores clean fields only, whatever the file holds. -/
theorem cleanDoc_of_stored {file : Bytes} {docs : List Parser.DocInfo} {jieba : JiebaUtil}
    {order : Index.KeywordOrder}
    (stored : ((getlines file).foldl (Index.addLine jieba order) Index.empty).forwardIndex =
      docs.mapIdx Parser.DocInfo.indexed) :
    ∀ doc ∈ docs, CleanDoc doc := by
  intro doc member
  obtain ⟨position, bound, rfl⟩ := List.mem_iff_getElem.mp member
  rw [Index.forwardIndex_foldl_addLine] at stored
  have lengths : (getlines file).length = docs.length := by
    simpa [Index.empty] using congrArg List.length stored
  have line_bound : position < (getlines file).length := by omega
  have same := congrArg (·[position]?) stored
  simp only [Index.empty, List.nil_append, List.length_nil, Nat.zero_add, List.getElem?_mapIdx,
    List.getElem?_eq_getElem line_bound, List.getElem?_eq_getElem bound, Option.map_some,
    Option.some.injEq, Index.lineDoc, Parser.DocInfo.indexed, Index.DocInfo.mk.injEq] at same
  obtain ⟨title_eq, content_eq, url_eq, -⟩ := same
  have unbroken : newline ∉ (getlines file)[position] :=
    Delimited.terminator_notMem (List.getElem_mem line_bound)
  exact ⟨title_eq ▸ cleanField_getD unbroken 0, content_eq ▸ cleanField_getD unbroken 1,
    url_eq ▸ cleanField_getD unbroken 2⟩

/-- The raw format round-trips exactly the documents with clean fields and some content. -/
theorem rawFile_roundTrip_iff (jieba : JiebaUtil) (order : Index.KeywordOrder)
    (docs : List Parser.DocInfo) :
    (∃ built,
        Index.empty.buildIndex jieba order (Parser.saveDocInfo docs true) = .ok (built, true) ∧
          built.forwardIndex = docs.mapIdx Parser.DocInfo.indexed) ↔
      ∀ doc ∈ docs, CleanField doc.title ∧ CleanField doc.content ∧ CleanField doc.url ∧
        doc.content ≠ [] := by
  constructor
  · intro ⟨built, finished, stored⟩
    have clean : ∀ doc ∈ docs, CleanDoc doc := by
      rw [Parser.saveDocInfo_of_open] at finished
      obtain ⟨-, -, rfl⟩ := Index.buildIndex_eq_ok_iff.mp finished
      exact cleanDoc_of_stored stored
    have filled := (buildIndex_saved_iff clean jieba order).mp ⟨built, finished, stored⟩
    intro doc member
    have doc_clean := clean doc member
    exact ⟨doc_clean.title, doc_clean.content, doc_clean.url, filled doc member⟩
  · intro good
    have clean : ∀ doc ∈ docs, CleanDoc doc := fun doc member =>
      ⟨(good doc member).1, (good doc member).2.1, (good doc member).2.2.1⟩
    exact (buildIndex_saved_iff clean jieba order).mpr fun doc member =>
      (good doc member).2.2.2

/-! ## Malformed lines -/

/-- The file without the lines that have fewer than three fields. -/
def dropMalformed (file : Bytes) : Bytes :=
  ((getlines file).filter fun line => 3 ≤ (Index.lineFields line).length).flatMap
    (· ++ [newline])

/-- Building recovers from malformed lines: it finishes with the index of the file without them,
reports each of them as a failure that changes nothing, and keeps the ids consecutive. -/
structure SkipsMalformed (jieba : JiebaUtil) (order : Index.KeywordOrder) (before : Index)
    (file : Bytes) : Prop where
  /-- The two files give the same index, whose ids are consecutive. -/
  same : ∃ built, before.buildIndex jieba order (some file) = .ok (built, true) ∧
    before.buildIndex jieba order (some (dropMalformed file)) = .ok (built, true) ∧
    built.Consecutive
  /-- A malformed line makes `buildForwardIndex` report a failure. -/
  reported : ∀ line ∈ getlines file, (Index.lineFields line).length < 3 →
    ∀ state : Index, state.buildForwardIndex line = .ok (state, none)

theorem getlines_dropMalformed (file : Bytes) :
    getlines (dropMalformed file) =
      (getlines file).filter fun line => 3 ≤ (Index.lineFields line).length := by
  apply Delimited.records_flatMap_terminated
  intro line member
  exact Delimited.terminator_notMem (List.mem_of_mem_filter member)

/-- Malformed lines are survived exactly when there are none. -/
theorem skipsMalformed_iff {jieba : JiebaUtil} {order : Index.KeywordOrder} {before : Index}
    (reachable : Index.Reachable jieba order before) (file : Bytes) :
    SkipsMalformed jieba order before file ↔
      ∀ line ∈ getlines file, 3 ≤ (Index.lineFields line).length := by
  constructor
  · intro ⟨⟨built, finished, _, _⟩, _⟩
    exact (Index.buildIndex_eq_ok_iff.mp finished).2.1
  · intro long
    have unchanged : getlines (dropMalformed file) = getlines file := by
      rw [getlines_dropMalformed, List.filter_eq_self]
      intro line member
      simpa using long line member
    refine ⟨⟨_, Index.buildIndex_of_long long jieba order before, ?_, ?_⟩, ?_⟩
    · rw [Index.buildIndex_of_long (unchanged ▸ long), unchanged]
    · exact reachable.consecutive.foldl_addLine jieba order (getlines file)
    · intro line member short
      exact absurd (long line member) (Nat.not_le.mpr short)

/-- A line of one field, fed to a fresh index. -/
theorem skipsMalformed_oneField :
    Index.Reachable .singleWord (fun _ => .inOrder _) Index.empty ∧
      ¬ SkipsMalformed .singleWord (fun _ => .inOrder _) Index.empty (bytes "vector\n") := by
  refine ⟨.empty, fun skips => ?_⟩
  obtain ⟨built, finished, -⟩ := skips.same
  have faulted : Index.empty.buildIndex .singleWord (fun _ => .inOrder _)
      (some (bytes "vector\n")) = .error .badSubscript := rfl
  rw [faulted] at finished
  contradiction

/-- The equivalence on a file of one proper line. -/
theorem skipsMalformed_properLine :
    SkipsMalformed .singleWord (fun _ => .inOrder _) Index.empty (bytes "a\x03b\x03c\n") ↔
      ∀ line ∈ getlines (bytes "a\x03b\x03c\n"), 3 ≤ (Index.lineFields line).length :=
  skipsMalformed_iff .empty _

end BoostDocSearcher
