import BoostDocSearcher.Index
import BoostDocSearcher.Library.Retrieval

/-!
# The searcher

One query against the index: the posting lists of its words are merged into one entry for each
document, the entries are sorted by weight, and each becomes an element of the response array with a
snippet of its text. The traversal order of the merging table and the sorting procedure are
parameters.
-/

namespace BoostDocSearcher.Searcher

open Tally

/-! ## Snippets -/

/-- Bytes of a snippet before the keyword. -/
def prevStep : Nat := 50

/-- Bytes of a snippet from the keyword on. -/
def nextStep : Nat := 100

/-- The exits of `getDesc`. -/
inductive Window where
  /-- The keyword does not occur. -/
  | missing
  /-- The window is empty. -/
  | nothing
  /-- The window that is cut out of the content. -/
  | cut (start stop : Nat)
  deriving DecidableEq, Repr

/-- Where `getDesc` begins the window, for an occurrence at `pos`. -/
def windowStart (pos : Nat) : Nat :=
  let start := 0
  if pos > sizeAdd start prevStep then sizeAdd start (sizeSub pos prevStep) else start

/-- Where `getDesc` ends the window, for an occurrence at `pos`. -/
def windowStop (size pos : Nat) : Nat :=
  let stop := sizeSub size 1
  if sizeAdd pos nextStep < stop then sizeAdd pos nextStep else stop

/-- The part of `getDesc` that places the window. -/
def descWindow (content keyword : Bytes) : Window :=
  let iter := stdSearch (fun x y => tolower x == tolower y) content keyword
  if iter = content.length then
    .missing
  else if windowStart iter ≥ windowStop content.length iter then
    .nothing
  else
    .cut (windowStart iter) (windowStop content.length iter)

/-- `getDesc`: the snippet of a content for a keyword. -/
def getDesc (content keyword : Bytes) : Result Bytes :=
  match descWindow content keyword with
  | .missing => .ok (bytes "keyword does not exist!")
  | .nothing => .ok (bytes "nothing!")
  | .cut start stop => do
      let desc := if start > 0 then bytes "..." else []
      let piece ← substr content start (sizeSub stop start)
      let desc := desc ++ piece
      return if stop < content.length then desc ++ bytes "..." else desc

/-! ## Merging and sorting -/

/-- The entry of one document in the merging table. -/
structure InvertedElemOut where
  /-- The document. -/
  docId : Nat
  /-- Total weight of the words found so far. -/
  weight : UInt64
  /-- The words found so far. -/
  keywords : List Bytes
  deriving DecidableEq, Repr

instance : Inhabited InvertedElemOut := ⟨⟨0, 0, []⟩⟩

/-- Account for one posting in the entry of its document. -/
def InvertedElemOut.merge (elem : Index.InvertedElem) (item : InvertedElemOut) :
    InvertedElemOut where
  docId := elem.docId
  weight := item.weight + elem.weight
  keywords := item.keywords ++ [elem.keyword]

/-- Merge the posting list of one word, if there is one. -/
def mergeWord (index : Index) (table : Table Nat InvertedElemOut) (word : Bytes) :
    Table Nat InvertedElemOut :=
  match index.getInvertedList (toLower word) with
  | none => table
  | some tmpInvertedList =>
      tmpInvertedList.foldl
        (fun table elem => upsert table elem.docId (InvertedElemOut.merge elem)) table

/-- The merging table of `search`, filled from the words of the query in order. -/
def invertedElemOutMap (index : Index) (keywords : List Bytes) : Table Nat InvertedElemOut :=
  keywords.foldl (mergeWord index) ∅

/-- The comparison that `search` sorts by. -/
def heavier (elem1 elem2 : InvertedElemOut) : Bool :=
  elem1.weight > elem2.weight

/-- A sorting procedure that `search` may use. -/
def stableSort : Retrieval.Sorting heavier :=
  .insertion
    (by
      intro elem1 elem2 ordered
      simp only [heavier, gt_iff_lt, decide_eq_true_eq, decide_eq_false_iff_not,
        UInt64.lt_iff_toNat_lt] at ordered ⊢
      omega)
    (by
      intro elem1 elem2 elem3 first second
      simp only [heavier, gt_iff_lt, decide_eq_false_iff_not, UInt64.lt_iff_toNat_lt]
        at first second ⊢
      omega)

/-- The sorted entries of `search`. -/
def allInvertedElemOut (index : Index) (keywords : List Bytes)
    (order : Traversal (Entry Nat InvertedElemOut)) (sorting : Retrieval.Sorting heavier) :
    List InvertedElemOut :=
  sorting.run ((order.visit (invertedElemOutMap index keywords).entries).map (·.2))

/-! ## The response -/

/-- One element of the response array. -/
structure JsonElem where
  /-- Address of the document. -/
  url : Bytes
  /-- Title of the document. -/
  title : Bytes
  /-- Snippet of the document. -/
  desc : Bytes
  deriving DecidableEq, Repr

/-- The element of an empty response. -/
def searchNothing : JsonElem where
  url := bytes "http://119.3.223.238:8080"
  title := bytes "Search nothing!"
  desc := bytes "Search nothing!"

/-- The element of one entry, with the snippet for its first keyword. -/
def jsonElem (index : Index) (elemOut : InvertedElemOut) : Result JsonElem :=
  match index.getForwardIndex elemOut.docId with
  | none => .error .nullPointer
  | some doc => do
      let title := if doc.title.isEmpty then bytes "TITLE" else doc.title
      let keyword ← subscript elemOut.keywords 0
      let desc ← getDesc doc.content keyword
      return { url := doc.url, title, desc }

/-- The array that `search` serialises, from the words of the query. -/
def root (index : Index) (keywords : List Bytes)
    (order : Traversal (Entry Nat InvertedElemOut)) (sorting : Retrieval.Sorting heavier) :
    Result (List JsonElem) :=
  let elems := allInvertedElemOut index keywords order sorting
  if elems.isEmpty then .ok [searchNothing] else elems.mapM (jsonElem index)

/-- `search`: cut the query, and serialise the array with the writer of the JSON library. -/
def search (jieba : JiebaUtil) (index : Index) (writer : List JsonElem → Bytes)
    (order : Traversal (Entry Nat InvertedElemOut)) (sorting : Retrieval.Sorting heavier)
    (query : Bytes) : Result Bytes :=
  (root index (jieba.cutString query) order sorting).map writer

/-! ## Snippets never throw -/

/-- The keyword is not found in an empty content, even when it is empty itself. -/
theorem descWindow_nil (keyword : Bytes) : descWindow [] keyword = .missing := by
  cases keyword <;> rfl

theorem windowStop_le {size : Nat} (nonempty : 1 ≤ size) (pos : Nat) :
    windowStop size pos ≤ size - 1 := by
  have last := sizeSub_le nonempty
  simp only [windowStop]
  split <;> omega

/-- A window is never empty, and ends before the last byte of the content. -/
theorem cut_bounds {content keyword : Bytes} {start stop : Nat}
    (window : descWindow content keyword = .cut start stop) :
    start < stop ∧ stop + 1 ≤ content.length := by
  have nonempty : 1 ≤ content.length := by
    by_contra empty
    rw [List.eq_nil_of_length_eq_zero (by omega : content.length = 0),
      descWindow_nil] at window
    contradiction
  unfold descWindow at window
  generalize stdSearch (fun x y => tolower x == tolower y) content keyword = pos at window
  have last := windowStop_le nonempty pos
  by_cases missing : pos = content.length
  · simp [missing] at window
  · by_cases empty : windowStart pos ≥ windowStop content.length pos
    · simp [missing, empty] at window
    · simp only [missing, empty, if_false, Window.cut.injEq] at window
      omega

/-- The text of a snippet, which exists for every content and keyword. -/
def descText (content keyword : Bytes) : Bytes :=
  match descWindow content keyword with
  | .missing => bytes "keyword does not exist!"
  | .nothing => bytes "nothing!"
  | .cut start stop =>
      (if start > 0 then bytes "..." else []) ++
        ((content.drop start).take (sizeSub stop start) ++ bytes "...")

theorem getDesc_eq (content keyword : Bytes) :
    getDesc content keyword = .ok (descText content keyword) := by
  unfold getDesc descText
  cases window : descWindow content keyword with
  | missing => rfl
  | nothing => rfl
  | cut start stop =>
      obtain ⟨proper, inside⟩ := cut_bounds window
      simp only [substr_of_le (show start ≤ content.length by omega)]
      change Except.ok (if stop < content.length then _ else _) = _
      rw [if_pos (by omega)]
      simp only [List.append_assoc]

end BoostDocSearcher.Searcher
