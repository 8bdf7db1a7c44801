import Mathlib.Data.UInt
import BoostDocSearcher.Library.Tally
import BoostDocSearcher.Text

/-!
# The forward and the inverted index

The index of the server: cutting texts into keywords with and without stop words, the forward index
from document ids to documents, and the inverted index from keywords to posting lists. The segmenter
is a parameter, as is the order in which a hash table of keywords is traversed.
-/

namespace BoostDocSearcher

open Tally

/-! ## Utilities -/

/-- `stringUtil::split`: cut at any of the separators, a run of them counting once. -/
def split (file sep : Bytes) : Bool × List Bytes :=
  let fileResult := Delimited.fields (fun c => sep.contains c) file
  (!fileResult.isEmpty, fileResult)

/-- `jiebaUtil`: the segmenter and the stop words of the process. -/
structure JiebaUtil where
  /-- `cppjieba::Jieba::CutForSearch`. -/
  cutForSearch : Bytes → List Bytes
  /-- The stop words, as the keys of a hash table. -/
  stopKeywordMap : Table Bytes Bool

namespace JiebaUtil

/-- The loop of `noStopHelper`: the tokens before the iterator are kept, and the one at the iterator
is erased when its lower-case form is a stop word. -/
def noStopLoop (jieba : JiebaUtil) : List Bytes → List Bytes → List Bytes
  | out, [] => out
  | out, word :: rest =>
      if toLower word ∈ jieba.stopKeywordMap then
        jieba.noStopLoop out rest
      else
        jieba.noStopLoop (out ++ [word]) rest

/-- `noStopHelper`. -/
def noStopHelper (jieba : JiebaUtil) (src : Bytes) : List Bytes :=
  jieba.noStopLoop [] (jieba.cutForSearch src)

/-- `cutString`: all tokens. -/
def cutString (jieba : JiebaUtil) (src : Bytes) : List Bytes :=
  jieba.cutForSearch src

/-- `cutStringNoStop`: the tokens that are no stop words. -/
def cutStringNoStop (jieba : JiebaUtil) (src : Bytes) : List Bytes :=
  jieba.noStopHelper src

/-- Segments every text into one token and knows no stop words, as the real segmenter does on a
text of one Latin word that is no stop word. -/
def singleWord : JiebaUtil where
  cutForSearch := fun src => [src]
  stopKeywordMap := ∅

/-- Segments a text into the words between its spaces and knows no stop words, as the real segmenter
does on Latin words, apart from the spaces. -/
def spaced : JiebaUtil where
  cutForSearch := fun src => src.splitOn space
  stopKeywordMap := ∅

theorem cutStringNoStop_eq (jieba : JiebaUtil) (src : Bytes) :
    jieba.cutStringNoStop src =
      (jieba.cutString src).filter fun word => toLower word ∉ jieba.stopKeywordMap := by
  have looped (out rest : List Bytes) : jieba.noStopLoop out rest =
      out ++ rest.filter fun word => toLower word ∉ jieba.stopKeywordMap := by
    induction rest generalizing out with
    | nil => simp [noStopLoop]
    | cons word rest induction =>
        rw [noStopLoop, List.filter_cons]
        split <;> rename_i stop <;> simp [induction, stop]
  rw [cutStringNoStop, noStopHelper, looped, List.nil_append, cutString]

end JiebaUtil

/-! ## Data -/

namespace Index

/-- A document of the forward index. -/
structure DocInfo where
  /-- Title of the document. -/
  title : Bytes
  /-- Text of the document without tags. -/
  content : Bytes
  /-- Address of the document on the official site. -/
  url : Bytes
  /-- Position of the document in the forward index. -/
  docId : Nat
  deriving DecidableEq, Repr

/-- One posting of the inverted index. -/
structure InvertedElem where
  /-- The document. -/
  docId : Nat
  /-- The keyword, in lower case. -/
  keyword : Bytes
  /-- Weight of the document in a search for the keyword. -/
  weight : UInt64
  deriving DecidableEq, Repr

/-- Occurrences of a keyword in one document. -/
structure KeywordCnt where
  /-- Occurrences in the title. -/
  titleCnt : UInt64
  /-- Occurrences in the content. -/
  contentCnt : UInt64
  deriving DecidableEq, Repr

instance : Inhabited KeywordCnt := ⟨⟨0, 0⟩⟩

/-- The posting list of a keyword. -/
abbrev InvertedList := List InvertedElem

/-- The orders in which the keywords of the documents are traversed, by document id. -/
abbrev KeywordOrder := Nat → Traversal (Entry Bytes KeywordCnt)

/-- Weight of an occurrence in the title. -/
def titleWeight : UInt64 := 40

/-- Weight of an occurrence in the content. -/
def contentWeight : UInt64 := 1

end Index

/-- The index: documents by id, and posting lists by keyword. -/
structure Index where
  /-- The documents, at the position that is their id. -/
  forwardIndex : List Index.DocInfo
  /-- The posting lists. -/
  invertedIndex : Table Bytes Index.InvertedList

namespace Index

/-- The index of a fresh process. -/
def empty : Index where
  forwardIndex := []
  invertedIndex := ∅

/-- `getInvertedList`, with `none` for the null pointer. -/
def getInvertedList (self : Index) (keyword : Bytes) : Option InvertedList :=
  self.invertedIndex.lookup keyword

/-- `getForwardIndex`, with `none` for the null pointer. -/
def getForwardIndex (self : Index) (docId : Nat) : Option DocInfo :=
  if docId ≥ self.forwardIndex.length then none else self.forwardIndex[docId]?

/-! ## Building -/

/-- `buildForwardIndex`: append the document of one line and return a pointer to it. -/
def buildForwardIndex (self : Index) (file : Bytes) : Result (Index × Option DocInfo) := do
  let fileResult := (split file [SEP]).2
  let title ← subscript fileResult 0
  let content ← subscript fileResult 1
  let url ← subscript fileResult 2
  let doc : DocInfo := { title, content, url, docId := self.forwardIndex.length }
  return ({ self with forwardIndex := self.forwardIndex ++ [doc] }, some doc)

/-- Count one more occurrence in the title. -/
def KeywordCnt.bumpTitle (cnt : KeywordCnt) : KeywordCnt :=
  { cnt with titleCnt := cnt.titleCnt + 1 }

/-- Count one more occurrence in the content. -/
def KeywordCnt.bumpContent (cnt : KeywordCnt) : KeywordCnt :=
  { cnt with contentCnt := cnt.contentCnt + 1 }

/-- The table of the keywords of one document, filled by two counting loops. -/
def keywordsMap (jieba : JiebaUtil) (doc : DocInfo) : Table Bytes KeywordCnt :=
  let titled := (jieba.cutStringNoStop doc.title).foldl
    (fun table keyword => upsert table (toLower keyword) KeywordCnt.bumpTitle) ∅
  (jieba.cutStringNoStop doc.content).foldl
    (fun table keyword => upsert table (toLower keyword) KeywordCnt.bumpContent) titled

/-- The posting that an entry of the keyword table gives. -/
def postingOf (doc : DocInfo) (keywordInfo : Entry Bytes KeywordCnt) : InvertedElem where
  docId := doc.docId
  keyword := keywordInfo.1
  weight :=
    keywordInfo.2.titleCnt * titleWeight + keywordInfo.2.contentCnt * contentWeight

/-- `buildInvertedIndex`: append one posting for each keyword of the document. -/
def buildInvertedIndex (jieba : JiebaUtil) (order : KeywordOrder) (self : Index)
    (doc : DocInfo) : Index × Bool :=
  let entries := (order doc.docId).visit (keywordsMap jieba doc).entries
  let invertedIndex := entries.foldl
    (fun table keywordInfo =>
      upsert table keywordInfo.1 fun list => list ++ [postingOf doc keywordInfo])
    self.invertedIndex
  ({ self with invertedIndex }, true)

/-- The loop of `buildIndex` over the lines of the raw file. A null document is logged and
skipped. -/
def buildLines (jieba : JiebaUtil) (order : KeywordOrder) : List Bytes → Index → Result Index
  | [], self => .ok self
  | line :: lines, self => do
      let (forwarded, doc) ← self.buildForwardIndex line
      match doc with
      | none => buildLines jieba order lines forwarded
      | some doc => buildLines jieba order lines (forwarded.buildInvertedIndex jieba order doc).1

/-- `buildIndex` on the bytes of a raw file, or on a file that cannot be opened. -/
def buildIndex (jieba : JiebaUtil) (order : KeywordOrder) (self : Index) (input : Option Bytes) :
    Result (Index × Bool) :=
  match input with
  | none => .ok (self, false)
  | some file => do
      let built ← buildLines jieba order (getlines file) self
      return (built, true)

/-- A sequence of `buildIndex` calls. -/
def buildAll (jieba : JiebaUtil) (order : KeywordOrder) : List Bytes → Index → Result Index
  | [], self => .ok self
  | file :: files, self => do
      let (built, _) ← self.buildIndex jieba order (some file)
      buildAll jieba order files built

/-- The index states that calls of `buildIndex` can reach. -/
inductive Reachable (jieba : JiebaUtil) (order : KeywordOrder) : Index → Prop where
  /-- A fresh process. -/
  | empty : Reachable jieba order Index.empty
  /-- One more call that returns. -/
  | build {before after : Index} {input : Option Bytes} {opened : Bool} :
      Reachable jieba order before →
      before.buildIndex jieba order input = .ok (after, opened) →
      Reachable jieba order after

/-! ## One line -/

/-- The fields of a line of the raw file. -/
def lineFields (line : Bytes) : List Bytes :=
  (split line [SEP]).2

/-- The document that a line with enough fields describes. -/
def lineDoc (docId : Nat) (line : Bytes) : DocInfo where
  title := (lineFields line).getD 0 []
  content := (lineFields line).getD 1 []
  url := (lineFields line).getD 2 []
  docId := docId

theorem getElem?_lineFields {line : Bytes} (long : 3 ≤ (lineFields line).length) (docId : Nat) :
    (lineFields line)[0]? = some (lineDoc docId line).title ∧
      (lineFields line)[1]? = some (lineDoc docId line).content ∧
      (lineFields line)[2]? = some (lineDoc docId line).url := by
  have present {position : Nat} (bound : position < 3) :
      (lineFields line)[position]? = some ((lineFields line).getD position []) := by
    have inside : position < (lineFields line).length := by omega
    simp [List.getD_eq_getElem?_getD, inside]
  exact ⟨present (by omega), present (by omega), present (by omega)⟩

theorem buildForwardIndex_of_long {line : Bytes} (long : 3 ≤ (lineFields line).length)
    (self : Index) :
    self.buildForwardIndex line =
      .ok ({ self with forwardIndex :=
              self.forwardIndex ++ [lineDoc self.forwardIndex.length line] },
        some (lineDoc self.forwardIndex.length line)) := by
  unfold lineDoc
  obtain ⟨title, content, url, rest, fields_eq⟩ :
      ∃ title content url rest, lineFields line = title :: content :: url :: rest := by
    match fields_eq : lineFields line, long with
    | title :: content :: url :: rest, _ => exact ⟨title, content, url, rest, rfl⟩
  unfold lineFields at fields_eq
  simp [buildForwardIndex, lineFields, fields_eq, subscript, bind, Except.bind, pure,
    Except.pure]

theorem buildForwardIndex_of_short {line : Bytes} (short : (lineFields line).length < 3)
    (self : Index) : self.buildForwardIndex line = .error .badSubscript := by
  unfold lineFields at short
  unfold buildForwardIndex
  match fields_eq : (split line [SEP]).2, short with
  | [], _ => rfl
  | [_], _ => rfl
  | [_, _], _ => rfl

/-- The state after a line with enough fields. -/
def addLine (jieba : JiebaUtil) (order : KeywordOrder) (self : Index) (line : Bytes) : Index :=
  let doc := lineDoc self.forwardIndex.length line
  (buildInvertedIndex jieba order { self with forwardIndex := self.forwardIndex ++ [doc] } doc).1

@[simp]
theorem forwardIndex_addLine (jieba : JiebaUtil) (order : KeywordOrder) (self : Index)
    (line : Bytes) :
    (self.addLine jieba order line).forwardIndex =
      self.forwardIndex ++ [lineDoc self.forwardIndex.length line] := rfl

/-! ## All lines -/

theorem buildLines_of_long {jieba : JiebaUtil} {order : KeywordOrder} {lines : List Bytes}
    (long : ∀ line ∈ lines, 3 ≤ (lineFields line).length) (self : Index) :
    buildLines jieba order lines self = .ok (lines.foldl (addLine jieba order) self) := by
  induction lines generalizing self with
  | nil => rfl
  | cons line lines induction =>
      rw [buildLines, buildForwardIndex_of_long (long line List.mem_cons_self)]
      exact induction (fun other member => long other (List.mem_cons_of_mem line member))
        (self.addLine jieba order line)

/-- One line with too few fields is enough to read past the end of the fields. -/
theorem buildLines_of_short {jieba : JiebaUtil} {order : KeywordOrder} {lines : List Bytes}
    (short : ∃ line ∈ lines, (lineFields line).length < 3) (self : Index) :
    buildLines jieba order lines self = .error .badSubscript := by
  induction lines generalizing self with
  | nil => simp at short
  | cons line lines induction =>
      rw [buildLines]
      by_cases long : 3 ≤ (lineFields line).length
      · rw [buildForwardIndex_of_long long]
        apply induction
        obtain ⟨other, member, other_short⟩ := short
        rcases List.mem_cons.mp member with rfl | later
        · omega
        · exact ⟨other, later, other_short⟩
      · rw [buildForwardIndex_of_short (Nat.lt_of_not_le long)]
        rfl

theorem buildLines_eq_ok_iff {jieba : JiebaUtil} {order : KeywordOrder} {lines : List Bytes}
    {self built : Index} :
    buildLines jieba order lines self = .ok built ↔
      (∀ line ∈ lines, 3 ≤ (lineFields line).length) ∧
        built = lines.foldl (addLine jieba order) self := by
  by_cases long : ∀ line ∈ lines, 3 ≤ (lineFields line).length
  · rw [buildLines_of_long long]
    constructor
    · intro equation
      exact ⟨long, (Except.ok.inj equation).symm⟩
    · rintro ⟨-, rfl⟩
      rfl
  · have short : ∃ line ∈ lines, (lineFields line).length < 3 := by
      simpa using long
    rw [buildLines_of_short short]
    simp [long]

theorem buildIndex_eq_ok_iff {jieba : JiebaUtil} {order : KeywordOrder} {file : Bytes}
    {self built : Index} {opened : Bool} :
    self.buildIndex jieba order (some file) = .ok (built, opened) ↔
      opened = true ∧ (∀ line ∈ getlines file, 3 ≤ (lineFields line).length) ∧
        built = (getlines file).foldl (addLine jieba order) self := by
  rw [buildIndex]
  rcases outcome : buildLines jieba order (getlines file) self with fault | finished
  · have failed : ¬ ((∀ line ∈ getlines file, 3 ≤ (lineFields line).length) ∧
        built = (getlines file).foldl (addLine jieba order) self) := by
      rw [← buildLines_eq_ok_iff, outcome]
      simp
    simp [bind, Except.bind, failed]
  · obtain ⟨long, rfl⟩ := buildLines_eq_ok_iff.mp outcome
    simp only [bind, Except.bind, pure, Except.pure, Except.ok.injEq, Prod.mk.injEq]
    constructor
    · rintro ⟨rfl, rfl⟩
      exact ⟨rfl, long, rfl⟩
    · rintro ⟨rfl, -, rfl⟩
      exact ⟨rfl, rfl⟩

theorem buildIndex_of_long {file : Bytes}
    (long : ∀ line ∈ getlines file, 3 ≤ (lineFields line).length) (jieba : JiebaUtil)
    (order : KeywordOrder) (self : Index) :
    self.buildIndex jieba order (some file) =
      .ok ((getlines file).foldl (addLine jieba order) self, true) :=
  buildIndex_eq_ok_iff.mpr ⟨rfl, long, rfl⟩

theorem buildIndex_of_short {file : Bytes}
    (short : ∃ line ∈ getlines file, (lineFields line).length < 3) (jieba : JiebaUtil)
    (order : KeywordOrder) (self : Index) :
    self.buildIndex jieba order (some file) = .error .badSubscript := by
  rw [buildIndex, buildLines_of_short short]
  rfl

theorem buildAll_of_long {jieba : JiebaUtil} {order : KeywordOrder} {files : List Bytes}
    (long : ∀ file ∈ files, ∀ line ∈ getlines file, 3 ≤ (lineFields line).length)
    (self : Index) :
    buildAll jieba order files self =
      .ok ((files.flatMap getlines).foldl (addLine jieba order) self) := by
  induction files generalizing self with
  | nil => rfl
  | cons file files induction =>
      rw [buildAll, buildIndex_of_long (long file List.mem_cons_self), List.flatMap_cons,
        List.foldl_append]
      exact induction (fun other member => long other (List.mem_cons_of_mem file member)) _

theorem forwardIndex_foldl_addLine (jieba : JiebaUtil) (order : KeywordOrder)
    (lines : List Bytes) (self : Index) :
    (lines.foldl (addLine jieba order) self).forwardIndex =
      self.forwardIndex ++
        lines.mapIdx fun position line => lineDoc (self.forwardIndex.length + position) line := by
  induction lines generalizing self with
  | nil => simp
  | cons line lines induction =>
      rw [List.foldl_cons, induction, forwardIndex_addLine, List.mapIdx_cons]
      simp [Nat.add_assoc, Nat.add_comm 1]

/-! ## Document ids -/

/-- Every document carries its position as its id. -/
def Consecutive (self : Index) : Prop :=
  self.forwardIndex.map (·.docId) = List.range self.forwardIndex.length

theorem consecutive_empty : empty.Consecutive := rfl

theorem Consecutive.addLine {self : Index} (consecutive : self.Consecutive) (jieba : JiebaUtil)
    (order : KeywordOrder) (line : Bytes) : (self.addLine jieba order line).Consecutive := by
  unfold Consecutive at *
  rw [forwardIndex_addLine, List.map_append, consecutive, List.length_append,
    List.length_singleton, List.range_succ]
  rfl

theorem Consecutive.foldl_addLine {self : Index} (consecutive : self.Consecutive)
    (jieba : JiebaUtil) (order : KeywordOrder) (lines : List Bytes) :
    (lines.foldl (Index.addLine jieba order) self).Consecutive := by
  induction lines generalizing self with
  | nil => exact consecutive
  | cons line lines induction => exact induction (consecutive.addLine jieba order line)

/-- Every reachable index is the fresh one with some lines entered, all of them long enough. -/
theorem Reachable.exists_lines {jieba : JiebaUtil} {order : KeywordOrder} {self : Index}
    (reachable : Reachable jieba order self) :
    ∃ lines : List Bytes, (∀ line ∈ lines, 3 ≤ (lineFields line).length) ∧
      self = lines.foldl (Index.addLine jieba order) Index.empty := by
  induction reachable with
  | empty => exact ⟨[], by simp, rfl⟩
  | @build before after input opened _ built induction =>
      obtain ⟨lines, long, rfl⟩ := induction
      cases input with
      | none =>
          obtain ⟨rfl, -⟩ : lines.foldl (Index.addLine jieba order) Index.empty = after ∧
              false = opened := by
            simpa [buildIndex] using built
          exact ⟨lines, long, rfl⟩
      | some file =>
          obtain ⟨-, file_long, rfl⟩ := buildIndex_eq_ok_iff.mp built
          refine ⟨lines ++ getlines file, ?_, by rw [List.foldl_append]⟩
          intro line member
          rcases List.mem_append.mp member with earlier | later
          · exact long line earlier
          · exact file_long line later

/-- A file of lines with enough fields makes a fresh process reach its index. -/
theorem Reachable.of_long {file : Bytes}
    (long : ∀ line ∈ getlines file, 3 ≤ (lineFields line).length) (jieba : JiebaUtil)
    (order : KeywordOrder) :
    Reachable jieba order ((getlines file).foldl (Index.addLine jieba order) Index.empty) :=
  .build .empty (buildIndex_of_long long jieba order Index.empty)

theorem Reachable.consecutive {jieba : JiebaUtil} {order : KeywordOrder} {self : Index}
    (reachable : Reachable jieba order self) : self.Consecutive := by
  obtain ⟨lines, -, rfl⟩ := reachable.exists_lines
  exact consecutive_empty.foldl_addLine jieba order lines

end Index
end BoostDocSearcher
