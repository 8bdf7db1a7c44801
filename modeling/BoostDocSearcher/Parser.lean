import BoostDocSearcher.Text

/-!
# The document parser

The offline program that turns HTML files into the raw record file: `fileUtil::readFile` and the
functions of the parser. A file system gives the bytes of the files that can be opened. Output
parameters are threaded through as an argument and a result, next to the Boolean that is returned.
-/

namespace BoostDocSearcher

/-- Contents of the files that can be opened, by path. -/
abbrev FileSystem := Bytes → Option Bytes

/-- `fileUtil::readFile`: append the lines of a file, without their newlines. -/
def readFile (files : FileSystem) (filePath out : Bytes) : Bool × Bytes :=
  match files filePath with
  | none => (false, out)
  | some raw => (true, (getlines raw).foldl (fun out line => out ++ line) out)

namespace Parser

/-- A parsed document, before it is given an id. -/
structure DocInfo where
  /-- Text between the title tags. -/
  title : Bytes
  /-- Text of the document without tags. -/
  content : Bytes
  /-- Address of the document on the official site. -/
  url : Bytes
  deriving DecidableEq, Repr

/-- Directory of the HTML files, a prefix of every path. -/
def srcPath : Bytes := bytes "data/input"

/-- The part that all addresses share. -/
def urlHead : Bytes := bytes "https://www.boost.org/doc/libs/1_82_0/doc/html"

/-- The opening tag of a title. -/
def titleOpen : Bytes := bytes "<title>"

/-- The closing tag of a title. -/
def titleClose : Bytes := bytes "</title>"

/-- The byte `'<'`. -/
def tagOpen : Byte := '<'.toUInt8

/-- The byte `'>'`. -/
def tagClose : Byte := '>'.toUInt8

/-- `parseTitle`: the bytes between the first opening and the first closing tag, when they come in
this order. -/
def parseTitle (fileContent title : Bytes) : Result (Bool × Bytes) :=
  match find fileContent titleOpen with
  | none => .ok (false, title)
  | some start =>
      match find fileContent titleClose with
      | none => .ok (false, title)
      | some stop =>
          let start := start + titleOpen.length
          if start > stop then
            .ok (false, title)
          else do
            let text ← substr fileContent start (stop - start)
            return (true, text)

/-- The two states of the tag stripper. -/
inductive Status where
  /-- Inside a tag. -/
  | lable
  /-- Inside the text. -/
  | content
  deriving DecidableEq, Repr

/-- One turn of the loop of `parseContent`. -/
def contentStep : Status × Bytes → Byte → Status × Bytes
  | (.lable, content), c =>
      if c = tagClose then (.content, content) else (.lable, content)
  | (.content, content), c =>
      if c = tagOpen then
        (.lable, content)
      else
        (.content, content ++ [if c = newline then space else c])

/-- `parseContent`: append the text outside tags, with newlines as spaces. -/
def parseContent (fileContent content : Bytes) : Bool × Bytes :=
  (true, (fileContent.foldl contentStep (.lable, content)).2)

/-- `parseUrl`: replace the source directory by the official address. The old value of the output
is overwritten. -/
def parseUrl (filePath _url : Bytes) : Result (Bool × Bytes) := do
  let urlTail ← substrFrom filePath srcPath.length
  return (true, urlHead ++ urlTail)

/-- One turn of the loop of `parseDocInfo`; `none` when the file is skipped. -/
def parseFile (files : FileSystem) (filePath : Bytes) : Result (Option DocInfo) :=
  let (opened, fileContent) := readFile files filePath []
  if !opened then
    .ok none
  else do
    let (titled, title) ← parseTitle fileContent []
    if !titled then
      return none
    else
      let (stripped, content) := parseContent fileContent []
      if !stripped then
        return none
      else
        let (located, url) ← parseUrl filePath []
        if !located then
          return none
        else
          return some { title, content, url }

/-- `parseDocInfo`: the documents of the files that could be parsed, in order. -/
def parseDocInfo (files : FileSystem) :
    List Bytes → List DocInfo → Result (Bool × List DocInfo)
  | [], docResults => .ok (true, docResults)
  | filePath :: filesList, docResults => do
      match ← parseFile files filePath with
      | none => parseDocInfo files filesList docResults
      | some doc => parseDocInfo files filesList (docResults ++ [doc])

/-- The record that is written for one document. -/
def outStr (item : DocInfo) : Bytes :=
  item.title ++ SEP :: (item.content ++ SEP :: (item.url ++ [newline]))

/-- `saveDocInfo`: the bytes of the output file, or `none` when it cannot be opened. -/
def saveDocInfo (docResults : List DocInfo) (isOpen : Bool) : Option Bytes :=
  if isOpen then
    some (docResults.foldl (fun out item => out ++ outStr item) [])
  else
    none

/-! ## Reading a file -/

/-- A file as the parser sees it: its bytes without the newlines. -/
def joinLines (raw : Bytes) : Bytes :=
  raw.filter (· ≠ newline)

theorem mem_joinLines {raw : Bytes} {c : Byte} :
    c ∈ joinLines raw ↔ c ∈ raw ∧ c ≠ newline := by
  simp [joinLines]

theorem readFile_of_open {files : FileSystem} {filePath raw : Bytes}
    (opens : files filePath = some raw) (out : Bytes) :
    readFile files filePath out = (true, out ++ joinLines raw) := by
  have flattened : (getlines raw).foldl (fun out line => out ++ line) out =
      out ++ (getlines raw).flatten := by
    generalize getlines raw = lines
    induction lines generalizing out with
    | nil => simp
    | cons line lines induction => simp [induction]
  rw [readFile, opens]
  simp only [flattened]
  rw [getlines, Delimited.flatten_records, joinLines]

theorem readFile_of_closed {files : FileSystem} {filePath : Bytes}
    (closed : files filePath = none) (out : Bytes) :
    readFile files filePath out = (false, out) := by
  rw [readFile, closed]

/-! ## The title -/

/-- A pattern that is found is really there, and the text continues behind it. -/
theorem exists_of_find {text pattern : Bytes} {position : Nat}
    (found : find text pattern = some position) :
    ∃ front after, text = front ++ (pattern ++ after) ∧ front.length = position := by
  obtain ⟨bound, matched, -⟩ := Occurrence.first?_eq_some_iff.mp found
  obtain ⟨after, drop_eq⟩ := Occurrence.matchesFront_beq_iff.mp matched
  refine ⟨text.take position, after, ?_, List.length_take_of_le bound⟩
  rw [drop_eq, List.take_append_drop]

theorem parseTitle_of_find {fileContent : Bytes} {start stop : Nat}
    (opened : find fileContent titleOpen = some start)
    (closed : find fileContent titleClose = some stop)
    (ordered : start + titleOpen.length ≤ stop) (title : Bytes) :
    parseTitle fileContent title =
      .ok (true, (fileContent.drop (start + titleOpen.length)).take
        (stop - (start + titleOpen.length))) := by
  have inside := Occurrence.add_length_le_of_first? opened
  simp only [parseTitle, opened, closed, gt_iff_lt, Nat.not_lt.mpr ordered, if_false,
    substr_of_le inside]
  rfl

/-- `parseTitle` never faults; it fails without touching its output, or finds a title that
stands directly behind an opening tag. -/
theorem parseTitle_cases (fileContent title : Bytes) :
    parseTitle fileContent title = .ok (false, title) ∨
      ∃ front text after, fileContent = front ++ (titleOpen ++ (text ++ after)) ∧
        parseTitle fileContent title = .ok (true, text) := by
  cases opened : find fileContent titleOpen with
  | none =>
      left
      simp [parseTitle, opened]
  | some start =>
      cases closed : find fileContent titleClose with
      | none =>
          left
          simp [parseTitle, opened, closed]
      | some stop =>
          by_cases ordered : start + titleOpen.length ≤ stop
          · right
            obtain ⟨front, rest, content_eq, front_length⟩ := exists_of_find opened
            have rest_eq : fileContent.drop (start + titleOpen.length) = rest := by
              rw [content_eq, ← front_length, ← List.append_assoc, ← List.length_append,
                List.drop_left]
            refine ⟨front, rest.take (stop - (start + titleOpen.length)),
              rest.drop (stop - (start + titleOpen.length)), ?_, ?_⟩
            · rw [List.take_append_drop]
              exact content_eq
            · rw [parseTitle_of_find opened closed ordered, rest_eq]
          · left
            simp [parseTitle, opened, closed, Nat.lt_of_not_le ordered]

/-! ## The text outside tags -/

/-- The state of the stripper after some bytes. -/
def statusAfter (status : Status) (text : Bytes) : Status :=
  (text.foldl contentStep (status, [])).1

/-- The bytes that the stripper keeps. -/
def kept (status : Status) (text : Bytes) : Bytes :=
  (text.foldl contentStep (status, [])).2

theorem foldl_contentStep (status : Status) (content text : Bytes) :
    text.foldl contentStep (status, content) =
      (statusAfter status text, content ++ kept status text) := by
  unfold statusAfter kept
  induction text generalizing status content with
  | nil => simp
  | cons c text induction =>
      have oneStep : contentStep (status, content) c =
          ((contentStep (status, []) c).1, content ++ (contentStep (status, []) c).2) := by
        cases status <;> simp only [contentStep] <;> split <;> simp
      rw [List.foldl_cons, List.foldl_cons, oneStep, induction,
        induction (contentStep (status, []) c).1 (contentStep (status, []) c).2,
        List.append_assoc]

theorem parseContent_eq (fileContent content : Bytes) :
    parseContent fileContent content = (true, content ++ kept .lable fileContent) := by
  rw [parseContent, foldl_contentStep]

@[simp]
theorem kept_nil (status : Status) : kept status [] = [] := rfl

theorem kept_append (status : Status) (left right : Bytes) :
    kept status (left ++ right) = kept status left ++ kept (statusAfter status left) right := by
  rw [kept, List.foldl_append, foldl_contentStep status [] left, foldl_contentStep]
  rfl

theorem kept_lable_cons (c : Byte) (text : Bytes) :
    kept .lable (c :: text) =
      if c = tagClose then kept .content text else kept .lable text := by
  rw [← List.singleton_append, kept_append]
  by_cases closes : c = tagClose <;> simp [kept, statusAfter, contentStep, closes]

theorem kept_content_cons (c : Byte) (text : Bytes) :
    kept .content (c :: text) =
      if c = tagOpen then
        kept .lable text
      else
        (if c = newline then space else c) :: kept .content text := by
  rw [← List.singleton_append, kept_append]
  by_cases opens : c = tagOpen <;> simp [kept, statusAfter, contentStep, opens]

/-- Every kept byte is a byte of the file that opens no tag, or a space for a newline. -/
theorem mem_kept {status : Status} {text : Bytes} {c : Byte} (member : c ∈ kept status text) :
    (c ∈ text ∨ c = space) ∧ c ≠ newline := by
  induction text generalizing status with
  | nil => simp at member
  | cons head text induction =>
      have later {other : Status} (inside : c ∈ kept other text) :
          (c ∈ head :: text ∨ c = space) ∧ c ≠ newline := by
        obtain ⟨origin, not_newline⟩ := induction inside
        exact ⟨origin.imp_left (List.mem_cons_of_mem head), not_newline⟩
      cases status with
      | lable =>
          rw [kept_lable_cons] at member
          split at member <;> exact later member
      | content =>
          rw [kept_content_cons] at member
          split at member
          · exact later member
          · rcases List.mem_cons.mp member with rfl | inside
            · split
              · exact ⟨Or.inr rfl, by decide⟩
              · rename_i not_newline
                exact ⟨Or.inl List.mem_cons_self, not_newline⟩
            · exact later inside

theorem kept_content_append {text : Bytes} (untagged : tagOpen ∉ text) (after : Bytes) :
    kept .content (text ++ after) =
      text.map (fun c => if c = newline then space else c) ++ kept .content after := by
  induction text with
  | nil => rfl
  | cons c text induction =>
      obtain ⟨head_ne, tail_free⟩ : tagOpen ≠ c ∧ tagOpen ∉ text := by
        simpa using untagged
      rw [List.cons_append, kept_content_cons, if_neg head_ne.symm, induction tail_free]
      rfl

/-- The title tag leaves the stripper in the text, whatever came before it. -/
theorem kept_titleOpen_append (status : Status) (after : Bytes) :
    kept status (titleOpen ++ after) = kept .content after := by
  have silent : kept status titleOpen = [] := by cases status <;> decide
  have resynchronised : statusAfter status titleOpen = .content := by cases status <;> decide
  rw [kept_append, silent, resynchronised, List.nil_append]

/-! ## One file and all files -/

/-- A file is skipped, or gives a document, or faults in `parseUrl`; the three cases by what the
file holds. -/
theorem parseFile_of_open {files : FileSystem} {filePath raw : Bytes}
    (opens : files filePath = some raw) :
    parseFile files filePath =
      match parseTitle (joinLines raw) [] with
      | .error fault => .error fault
      | .ok (false, _) => .ok none
      | .ok (true, title) =>
          (substrFrom filePath srcPath.length).map fun urlTail =>
            some ⟨title, kept .lable (joinLines raw), urlHead ++ urlTail⟩ := by
  simp only [parseFile, readFile_of_open opens, List.nil_append, Bool.not_true,
    Bool.false_eq_true, if_false, parseContent_eq, parseUrl]
  rcases parseTitle (joinLines raw) [] with fault | ⟨titled, title⟩
  · rfl
  · cases titled
    · rfl
    · cases substrFrom filePath srcPath.length <;> rfl

theorem parseFile_of_closed {files : FileSystem} {filePath : Bytes}
    (closed : files filePath = none) : parseFile files filePath = .ok none := by
  simp [parseFile, readFile_of_closed closed]

theorem parseFile_eq_some_iff {files : FileSystem} {filePath : Bytes} {doc : DocInfo} :
    parseFile files filePath = .ok (some doc) ↔
      ∃ raw, files filePath = some raw ∧
        parseTitle (joinLines raw) [] = .ok (true, doc.title) ∧
        doc.content = kept .lable (joinLines raw) ∧
        srcPath.length ≤ filePath.length ∧
        doc.url = urlHead ++ filePath.drop srcPath.length := by
  cases opening : files filePath with
  | none => simp [parseFile_of_closed opening]
  | some raw =>
      rw [parseFile_of_open opening]
      constructor
      · intro parsed
        refine ⟨raw, rfl, ?_⟩
        rcases title_eq : parseTitle (joinLines raw) [] with fault | ⟨titled, title⟩
        · simp [title_eq] at parsed
        · cases titled
          · simp [title_eq] at parsed
          · rcases tail_eq : substrFrom filePath srcPath.length with fault | urlTail
            · simp [title_eq, tail_eq, Except.map] at parsed
            · simp only [title_eq, tail_eq, Except.map, Except.ok.injEq,
                Option.some.injEq] at parsed
              obtain ⟨bound, rfl⟩ := substrFrom_eq_ok tail_eq
              subst parsed
              exact ⟨rfl, rfl, bound, rfl⟩
      · intro ⟨raw', same, titled, content_eq, bound, url_eq⟩
        obtain rfl := Option.some.inj same
        obtain ⟨title, content, url⟩ := doc
        subst content_eq url_eq
        rw [titled, substrFrom_of_le bound]
        rfl

theorem parseFile_total {filePath : Bytes} (bound : srcPath.length ≤ filePath.length)
    (files : FileSystem) : ∃ parsed, parseFile files filePath = .ok parsed := by
  cases opening : files filePath with
  | none => exact ⟨none, parseFile_of_closed opening⟩
  | some raw =>
      rw [parseFile_of_open opening, substrFrom_of_le bound]
      rcases parseTitle_cases (joinLines raw) [] with untitled | ⟨_, text, _, _, titled⟩
      · exact ⟨none, by rw [untitled]⟩
      · exact ⟨_, by rw [titled]; rfl⟩

/-- A run over all files collects exactly the documents of the single files, in order. -/
theorem parseDocInfo_eq_ok {files : FileSystem} {filesList : List Bytes}
    {found : Bytes → Option DocInfo}
    (parsed : ∀ filePath ∈ filesList, parseFile files filePath = .ok (found filePath))
    (docResults : List DocInfo) :
    parseDocInfo files filesList docResults =
      .ok (true, docResults ++ filesList.filterMap found) := by
  induction filesList generalizing docResults with
  | nil => simp [parseDocInfo]
  | cons filePath filesList induction =>
      have rest := induction fun other member =>
        parsed other (List.mem_cons_of_mem filePath member)
      have here := parsed filePath List.mem_cons_self
      cases outcome : found filePath with
      | none =>
          rw [outcome] at here
          rw [parseDocInfo, here]
          simpa [outcome, bind, Except.bind] using rest docResults
      | some doc =>
          rw [outcome] at here
          rw [parseDocInfo, here]
          simpa [outcome, bind, Except.bind] using rest (docResults ++ [doc])

/-- Every document of a finished run comes out of one of the files. -/
theorem mem_of_parseDocInfo {files : FileSystem} {filesList : List Bytes}
    {docResults results : List DocInfo} {flag : Bool}
    (finished : parseDocInfo files filesList docResults = .ok (flag, results))
    {doc : DocInfo} (member : doc ∈ results) :
    doc ∈ docResults ∨ ∃ filePath ∈ filesList, parseFile files filePath = .ok (some doc) := by
  induction filesList generalizing docResults with
  | nil =>
      obtain ⟨-, rfl⟩ : true = flag ∧ docResults = results := by
        simpa [parseDocInfo] using finished
      exact Or.inl member
  | cons filePath filesList induction =>
      rw [parseDocInfo] at finished
      rcases here : parseFile files filePath with fault | parsed
      · rw [here] at finished
        contradiction
      · rw [here] at finished
        cases parsed with
        | none =>
            rcases induction finished with before | ⟨other, other_mem, origin⟩
            · exact Or.inl before
            · exact Or.inr ⟨other, List.mem_cons_of_mem filePath other_mem, origin⟩
        | some first =>
            rcases induction finished with before | ⟨other, other_mem, origin⟩
            · rcases List.mem_append.mp before with earlier | now
              · exact Or.inl earlier
              · obtain rfl := List.mem_singleton.mp now
                exact Or.inr ⟨filePath, List.mem_cons_self, here⟩
            · exact Or.inr ⟨other, List.mem_cons_of_mem filePath other_mem, origin⟩

theorem saveDocInfo_of_open (docResults : List DocInfo) :
    saveDocInfo docResults true = some (docResults.flatMap outStr) := by
  have written (out : Bytes) : docResults.foldl (fun out item => out ++ outStr item) out =
      out ++ docResults.flatMap outStr := by
    induction docResults generalizing out with
    | nil => simp
    | cons item docResults induction => simp [induction]
  rw [saveDocInfo, if_pos rfl, written, List.nil_append]

end Parser
end BoostDocSearcher
