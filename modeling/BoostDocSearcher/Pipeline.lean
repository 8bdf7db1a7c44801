import BoostDocSearcher.RawFormat

/-!
# From HTML files to the forward index

The parser and the index composed: files are parsed, written as raw records and read back. What the
parser can emit is clean, so a document is lost exactly when its stripped content is empty, and then
the reader runs past the end of its fields.
-/

namespace BoostDocSearcher

open Parser.Status

/-- The files of one run of the parser: bytes and paths without field separators, paths below the
source directory and without newlines. -/
structure ParserInput (files : FileSystem) (filesList : List Bytes) : Prop where
  /-- Every path starts with the source directory. -/
  located : ∀ filePath ∈ filesList, Parser.srcPath <+: filePath
  /-- No path contains a separator of the raw format. -/
  path_clean : ∀ filePath ∈ filesList, CleanField filePath
  /-- No file contains a field separator. -/
  file_clean : ∀ filePath ∈ filesList, ∀ raw, files filePath = some raw → SEP ∉ raw

/-- The parser accepts a file: it finds a title. -/
def Accepted (raw : Bytes) : Prop :=
  ∃ title, Parser.parseTitle (Parser.joinLines raw) [] = .ok (true, title)

/-- Some closing bracket is directly followed by a byte that opens no tag. -/
def HasText (text : Bytes) : Prop :=
  ∃ front c after, text = front ++ Parser.tagClose :: c :: after ∧ c ≠ Parser.tagOpen

/-! ## When the stripped content is empty -/

theorem hasText_cons {c : Byte} {text : Bytes} :
    HasText (c :: text) ↔
      (c = Parser.tagClose ∧ ∃ next rest, text = next :: rest ∧ next ≠ Parser.tagOpen) ∨
        HasText text := by
  constructor
  · intro ⟨front, next, after, text_eq, next_ne⟩
    cases front with
    | nil =>
        obtain ⟨rfl, rfl⟩ := List.cons.inj text_eq
        exact Or.inl ⟨rfl, next, after, rfl, next_ne⟩
    | cons first front =>
        obtain ⟨-, rfl⟩ := List.cons.inj text_eq
        exact Or.inr ⟨front, next, after, rfl, next_ne⟩
  · rintro (⟨rfl, next, rest, rfl, next_ne⟩ | ⟨front, next, after, rfl, next_ne⟩)
    · exact ⟨[], next, rest, rfl, next_ne⟩
    · exact ⟨c :: front, next, after, rfl, next_ne⟩

/-- Both states of the stripper at once: inside a text the next byte may already be kept. -/
theorem kept_ne_nil_iff (text : Bytes) :
    (Parser.kept lable text ≠ [] ↔ HasText text) ∧
      (Parser.kept content text ≠ [] ↔
        (∃ next rest, text = next :: rest ∧ next ≠ Parser.tagOpen) ∨ HasText text) := by
  induction text with
  | nil => simp [HasText]
  | cons c text induction =>
      obtain ⟨inTag, inText⟩ := induction
      constructor
      · rw [Parser.kept_lable_cons, hasText_cons]
        by_cases closes : c = Parser.tagClose
        · simp only [closes, if_true, true_and]
          exact inText
        · simp only [closes, if_false, false_and, false_or]
          exact inTag
      · rw [Parser.kept_content_cons, hasText_cons]
        by_cases opens : c = Parser.tagOpen
        · subst opens
          have no_close : Parser.tagOpen ≠ Parser.tagClose := by decide
          simpa [no_close] using inTag
        · simp [opens]

/-! ## What the parser emits -/

/-- The document of one file, if there is one. -/
def parsedDoc (files : FileSystem) (filePath : Bytes) : Option Parser.DocInfo :=
  match Parser.parseFile files filePath with
  | .ok parsed => parsed
  | .error _ => none

theorem parsedDoc_eq_some_iff {files : FileSystem} {filePath : Bytes} {doc : Parser.DocInfo} :
    parsedDoc files filePath = some doc ↔
      Parser.parseFile files filePath = .ok (some doc) := by
  rw [parsedDoc]
  split <;> rename_i outcome <;> simp [outcome]

theorem mem_of_mem_title {raw title : Bytes}
    (titled : Parser.parseTitle (Parser.joinLines raw) [] = .ok (true, title)) {c : Byte}
    (member : c ∈ title) : c ∈ raw ∧ c ≠ newline := by
  rcases Parser.parseTitle_cases (Parser.joinLines raw) [] with
    untitled | ⟨front, text, after, content_eq, found⟩
  · rw [untitled] at titled
    simp at titled
  · obtain rfl : text = title := by
      rw [found] at titled
      simpa using titled
    have inside : c ∈ Parser.joinLines raw := by
      rw [content_eq]
      simp [member]
    exact Parser.mem_joinLines.mp inside

theorem cleanField_urlHead : CleanField Parser.urlHead := by
  unfold CleanField
  decide

/-- A document that comes out of a file without field separators is clean. -/
theorem cleanDoc_of_parseFile {files : FileSystem} {filePath : Bytes} {doc : Parser.DocInfo}
    (parsed : Parser.parseFile files filePath = .ok (some doc))
    (path_clean : CleanField filePath)
    (file_clean : ∀ raw, files filePath = some raw → SEP ∉ raw) : CleanDoc doc := by
  obtain ⟨raw, opened, titled, content_eq, -, url_eq⟩ :=
    Parser.parseFile_eq_some_iff.mp parsed
  have raw_clean := file_clean raw opened
  refine ⟨⟨?_, ?_⟩, ⟨?_, ?_⟩, ⟨?_, ?_⟩⟩
  · exact fun member => raw_clean (mem_of_mem_title titled member).1
  · exact fun member => (mem_of_mem_title titled member).2 rfl
  · intro member
    rw [content_eq] at member
    rcases (Parser.mem_kept member).1 with inside | is_space
    · exact raw_clean (Parser.mem_joinLines.mp inside).1
    · exact absurd is_space (by decide)
  · intro member
    rw [content_eq] at member
    exact (Parser.mem_kept member).2 rfl
  · rw [url_eq, List.mem_append]
    rintro (head_mem | tail_mem)
    · exact cleanField_urlHead.1 head_mem
    · exact path_clean.1 (List.mem_of_mem_drop tail_mem)
  · rw [url_eq, List.mem_append]
    rintro (head_mem | tail_mem)
    · exact cleanField_urlHead.2 head_mem
    · exact path_clean.2 (List.mem_of_mem_drop tail_mem)

theorem parseDocInfo_of_input {files : FileSystem} {filesList : List Bytes}
    (input : ParserInput files filesList) :
    Parser.parseDocInfo files filesList [] =
      .ok (true, filesList.filterMap (parsedDoc files)) := by
  apply Parser.parseDocInfo_eq_ok
  intro filePath member
  have bound : Parser.srcPath.length ≤ filePath.length :=
    (input.located filePath member).length_le
  obtain ⟨parsed, outcome⟩ := Parser.parseFile_total bound files
  rw [parsedDoc, outcome]

/-! ## No document is lost -/

/-- The parsed documents reach the forward index unchanged and in order, and no read goes past the
end of the fields. -/
def KeepsDocuments (jieba : JiebaUtil) (order : Index.KeywordOrder) (files : FileSystem)
    (filesList : List Bytes) : Prop :=
  ∃ docs, Parser.parseDocInfo files filesList [] = .ok (true, docs) ∧
    ∃ built,
      Index.empty.buildIndex jieba order (Parser.saveDocInfo docs true) = .ok (built, true) ∧
        built.forwardIndex = docs.mapIdx Parser.DocInfo.indexed

theorem keepsDocuments_iff_filled {files : FileSystem} {filesList : List Bytes}
    (input : ParserInput files filesList) (jieba : JiebaUtil) (order : Index.KeywordOrder) :
    KeepsDocuments jieba order files filesList ↔
      ∀ filePath ∈ filesList, ∀ doc, parsedDoc files filePath = some doc →
        doc.content ≠ [] := by
  have clean : ∀ doc ∈ filesList.filterMap (parsedDoc files), CleanDoc doc := by
    intro doc member
    obtain ⟨filePath, path_mem, parsed⟩ := List.mem_filterMap.mp member
    exact cleanDoc_of_parseFile (parsedDoc_eq_some_iff.mp parsed)
      (input.path_clean filePath path_mem) (input.file_clean filePath path_mem)
  have stored := buildIndex_saved_iff clean jieba order
  constructor
  · intro ⟨docs, finished, kept⟩ filePath path_mem doc parsed
    obtain ⟨-, rfl⟩ : true = true ∧ filesList.filterMap (parsedDoc files) = docs := by
      simpa [parseDocInfo_of_input input] using finished
    exact stored.mp kept doc (List.mem_filterMap.mpr ⟨filePath, path_mem, parsed⟩)
  · intro filled
    refine ⟨_, parseDocInfo_of_input input, stored.mpr fun doc member => ?_⟩
    obtain ⟨filePath, path_mem, parsed⟩ := List.mem_filterMap.mp member
    exact filled filePath path_mem doc parsed

/-- No document is lost exactly when every accepted file has text right behind a tag. -/
theorem keepsDocuments_iff {files : FileSystem} {filesList : List Bytes}
    (input : ParserInput files filesList) (jieba : JiebaUtil) (order : Index.KeywordOrder) :
    KeepsDocuments jieba order files filesList ↔
      ∀ filePath ∈ filesList, ∀ raw, files filePath = some raw → Accepted raw →
        HasText (Parser.joinLines raw) := by
  rw [keepsDocuments_iff_filled input]
  refine forall₂_congr fun filePath path_mem => ?_
  have bound : Parser.srcPath.length ≤ filePath.length :=
    (input.located filePath path_mem).length_le
  constructor
  · intro filled raw opened ⟨title, titled⟩
    refine (kept_ne_nil_iff _).1.mp ?_
    exact filled ⟨title, Parser.kept .lable (Parser.joinLines raw),
        Parser.urlHead ++ filePath.drop Parser.srcPath.length⟩
      (parsedDoc_eq_some_iff.mpr
        (Parser.parseFile_eq_some_iff.mpr ⟨raw, opened, titled, rfl, bound, rfl⟩))
  · intro hasText doc parsed
    obtain ⟨raw, opened, titled, content_eq, -, -⟩ :=
      Parser.parseFile_eq_some_iff.mp (parsedDoc_eq_some_iff.mp parsed)
    rw [content_eq]
    exact (kept_ne_nil_iff _).1.mpr (hasText raw opened ⟨doc.title, titled⟩)

/-- A file system with one file, below the source directory. -/
def oneFile (raw : Bytes) : FileSystem :=
  fun filePath => if filePath = bytes "data/input/a.html" then some raw else none

theorem Parser.parseFile_oneFile (raw title : Bytes)
    (titled : Parser.parseTitle (Parser.joinLines raw) [] = .ok (true, title)) :
    Parser.parseFile (oneFile raw) (bytes "data/input/a.html") =
      .ok (some
        { title
          content := Parser.kept .lable (Parser.joinLines raw)
          url := Parser.urlHead ++ (bytes "data/input/a.html").drop Parser.srcPath.length }) :=
  Parser.parseFile_eq_some_iff.mpr ⟨raw, if_pos rfl, titled, rfl, by decide, rfl⟩

theorem parserInput_oneFile {raw : Bytes} (clean : SEP ∉ raw) :
    ParserInput (oneFile raw) [bytes "data/input/a.html"] where
  located := by
    simp only [List.mem_singleton, forall_eq]
    decide
  path_clean := by
    simp only [List.mem_singleton, forall_eq, CleanField]
    decide
  file_clean := by
    intro filePath _ found opened
    rw [oneFile] at opened
    split at opened
    · exact Option.some.inj opened ▸ clean
    · contradiction

/-- A file whose title is all that it has, and is empty. -/
theorem keepsDocuments_emptyTitle :
    ParserInput (oneFile (bytes "<title></title>")) [bytes "data/input/a.html"] ∧
      ¬ KeepsDocuments .singleWord (fun _ => .inOrder _)
        (oneFile (bytes "<title></title>")) [bytes "data/input/a.html"] := by
  have input : ParserInput (oneFile (bytes "<title></title>")) [bytes "data/input/a.html"] :=
    parserInput_oneFile (by decide)
  refine ⟨input, fun kept => ?_⟩
  have filled := (keepsDocuments_iff_filled input _ _).mp kept
  have parsed := Parser.parseFile_oneFile (bytes "<title></title>") [] rfl
  exact filled _ List.mem_cons_self _ (parsedDoc_eq_some_iff.mpr parsed) rfl

/-- The equivalence on a file whose title is one word. -/
theorem keepsDocuments_oneWord :
    KeepsDocuments .singleWord (fun _ => .inOrder _)
        (oneFile (bytes "<title>vector</title>")) [bytes "data/input/a.html"] ↔
      ∀ filePath ∈ [bytes "data/input/a.html"], ∀ raw,
        oneFile (bytes "<title>vector</title>") filePath = some raw → Accepted raw →
          HasText (Parser.joinLines raw) :=
  keepsDocuments_iff (parserInput_oneFile (by decide)) _ _

end BoostDocSearcher
