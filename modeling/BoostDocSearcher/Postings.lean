import BoostDocSearcher.Index

/-!
# Exact contents of the inverted index

What the index holds after any sequence of builds, independently of the order in which the keywords
of a document are traversed: the posting list of a keyword has one element for each document that
contains it, in the order of the ids, and the element carries forty times the number of occurrences
in the title plus the number of occurrences in the content.
-/

namespace BoostDocSearcher.Index

open Tally

/-- Tokens of a text whose lower-case form is the keyword, unless the keyword is a stop word. -/
def occurrences (jieba : JiebaUtil) (text keyword : Bytes) : Nat :=
  (jieba.cutString text).countP fun token =>
    toLower token = keyword ∧ keyword ∉ jieba.stopKeywordMap

/-- Weight of a document in the posting list of a keyword, if the document is listed there. -/
def keywordWeight (jieba : JiebaUtil) (doc : DocInfo) (keyword : Bytes) : Option UInt64 :=
  let titled := occurrences jieba doc.title keyword
  let contained := occurrences jieba doc.content keyword
  if titled + contained = 0 then none else some (UInt64.ofNat (40 * titled + contained))

/-- Element of a document in the posting list of a keyword. -/
def posting (jieba : JiebaUtil) (keyword : Bytes) (doc : DocInfo) : Option InvertedElem :=
  (keywordWeight jieba doc keyword).map fun weight =>
    { docId := doc.docId, keyword, weight }

/-- The posting list that a list of documents gives a keyword. -/
def postings (jieba : JiebaUtil) (docs : List DocInfo) (keyword : Bytes) : InvertedList :=
  docs.filterMap (posting jieba keyword)

/-! ## Counting the keywords of one document -/

theorem length_filter_cutStringNoStop (jieba : JiebaUtil) (text keyword : Bytes) :
    ((jieba.cutStringNoStop text).filter fun token => toLower token = keyword).length =
      occurrences jieba text keyword := by
  rw [JiebaUtil.cutStringNoStop_eq, List.filter_filter, ← List.countP_eq_length_filter,
    occurrences]
  apply List.countP_congr
  intro token _
  simp only [Bool.and_eq_true, decide_eq_true_eq]
  constructor
  · rintro ⟨rfl, free⟩
    exact ⟨rfl, free⟩
  · rintro ⟨rfl, free⟩
    exact ⟨rfl, free⟩

theorem bumpTitle_iterate (cnt : KeywordCnt) (count : Nat) :
    KeywordCnt.bumpTitle^[count] cnt =
      { cnt with titleCnt := cnt.titleCnt + UInt64.ofNat count } := by
  induction count with
  | zero => simp
  | succ count induction =>
      rw [Function.iterate_succ_apply', induction, KeywordCnt.bumpTitle]
      simp [UInt64.add_assoc]

theorem bumpContent_iterate (cnt : KeywordCnt) (count : Nat) :
    KeywordCnt.bumpContent^[count] cnt =
      { cnt with contentCnt := cnt.contentCnt + UInt64.ofNat count } := by
  induction count with
  | zero => simp
  | succ count induction =>
      rw [Function.iterate_succ_apply', induction, KeywordCnt.bumpContent]
      simp [UInt64.add_assoc]

/-- The two counting loops leave the two counts, for the keywords that occur at all. -/
theorem lookup_keywordsMap (jieba : JiebaUtil) (doc : DocInfo) (keyword : Bytes) :
    (keywordsMap jieba doc).lookup keyword =
      if occurrences jieba doc.title keyword + occurrences jieba doc.content keyword = 0 then
        none
      else
        some
          { titleCnt := UInt64.ofNat (occurrences jieba doc.title keyword)
            contentCnt := UInt64.ofNat (occurrences jieba doc.content keyword) } := by
  have title_nil := List.length_eq_zero_iff (l :=
    (jieba.cutStringNoStop doc.title).filter fun token => toLower token = keyword)
  have content_nil := List.length_eq_zero_iff (l :=
    (jieba.cutStringNoStop doc.content).filter fun token => toLower token = keyword)
  rw [length_filter_cutStringNoStop] at title_nil content_nil
  simp only [keywordsMap, lookup_foldl_upsert, foldl_amend_const, AList.lookup_empty,
    length_filter_cutStringNoStop, ← title_nil, ← content_nil, bumpTitle_iterate,
    bumpContent_iterate]
  by_cases untitled : occurrences jieba doc.title keyword = 0 <;>
    by_cases uncontained : occurrences jieba doc.content keyword = 0 <;>
    simp [untitled, uncontained, default]

/-! ## One document enters the index -/

theorem weight_eq (titled contained : Nat) :
    UInt64.ofNat titled * titleWeight + UInt64.ofNat contained * contentWeight =
      UInt64.ofNat (40 * titled + contained) := by
  rw [UInt64.ofNat_add, UInt64.ofNat_mul, titleWeight, contentWeight, UInt64.mul_one,
    UInt64.mul_comm]
  rfl

/-- Entering a document appends its posting to the list of each of its keywords, and changes no
other list. -/
theorem lookup_buildInvertedIndex (jieba : JiebaUtil) (order : KeywordOrder) (self : Index)
    (doc : DocInfo) (keyword : Bytes) :
    (self.buildInvertedIndex jieba order doc).1.getInvertedList keyword =
      match posting jieba keyword doc with
      | none => self.getInvertedList keyword
      | some elem => some ((self.getInvertedList keyword).getD [] ++ [elem]) := by
  simp only [getInvertedList, buildInvertedIndex, lookup_foldl_upsert, filter_visit,
    lookup_keywordsMap, posting, keywordWeight]
  by_cases absent :
      occurrences jieba doc.title keyword + occurrences jieba doc.content keyword = 0
  · simp [absent]
  · simp only [if_neg absent, Option.toList_some, List.map_cons, List.map_nil, List.foldl_cons,
      List.foldl_nil, Option.map_some, amend, postingOf, weight_eq]
    rfl

/-- Every posting list is the one that the documents of the forward index give. -/
def Listed (jieba : JiebaUtil) (self : Index) : Prop :=
  ∀ keyword, self.getInvertedList keyword =
    if postings jieba self.forwardIndex keyword = [] then
      none
    else
      some (postings jieba self.forwardIndex keyword)

theorem listed_empty (jieba : JiebaUtil) : Listed jieba empty := by
  intro keyword
  simp [getInvertedList, empty, postings]

theorem Listed.addLine {jieba : JiebaUtil} {self : Index} (listed : Listed jieba self)
    (order : KeywordOrder) (line : Bytes) : Listed jieba (self.addLine jieba order line) := by
  intro keyword
  have before := listed keyword
  rw [forwardIndex_addLine, Index.addLine, lookup_buildInvertedIndex]
  simp only [postings, List.filterMap_append, List.filterMap_cons, List.filterMap_nil]
  cases posting jieba keyword (lineDoc self.forwardIndex.length line) with
  | none =>
      simp only [List.append_nil]
      exact before
  | some elem =>
      have old : getInvertedList
          { self with forwardIndex := self.forwardIndex ++
              [lineDoc self.forwardIndex.length line] } keyword =
          self.getInvertedList keyword := rfl
      simp only [old, before, postings]
      by_cases nothing : self.forwardIndex.filterMap (posting jieba keyword) = [] <;>
        simp [nothing]

theorem Listed.foldl_addLine {jieba : JiebaUtil} {self : Index} (listed : Listed jieba self)
    (order : KeywordOrder) (lines : List Bytes) :
    Listed jieba (lines.foldl (Index.addLine jieba order) self) := by
  induction lines generalizing self with
  | nil => exact listed
  | cons line lines induction => exact induction (listed.addLine order line)

/-- The lists of any reachable index are those of its documents. -/
theorem Reachable.listed {jieba : JiebaUtil} {order : KeywordOrder} {self : Index}
    (reachable : Reachable jieba order self) : Listed jieba self := by
  obtain ⟨lines, -, rfl⟩ := reachable.exists_lines
  exact (listed_empty jieba).foldl_addLine order lines

/-! ## Runs of builds -/

/-- A sequence of builds from a fresh process only enters lines, so it reaches its result. -/
theorem Reachable.buildAll {jieba : JiebaUtil} {order : KeywordOrder} {files : List Bytes}
    {before after : Index} (reachable : Reachable jieba order before)
    (built : Index.buildAll jieba order files before = .ok after) :
    Reachable jieba order after := by
  induction files generalizing before with
  | nil => exact Except.ok.inj built ▸ reachable
  | cons file files induction =>
      rw [Index.buildAll] at built
      rcases step : before.buildIndex jieba order (some file) with fault | ⟨middle, opened⟩
      · rw [step] at built
        contradiction
      · rw [step] at built
        exact induction (reachable.build step) built

theorem Consecutive.docId_eq {self : Index} (consecutive : self.Consecutive) {position : Nat}
    {doc : DocInfo} (found : self.forwardIndex[position]? = some doc) : doc.docId = position := by
  obtain ⟨bound, rfl⟩ := List.getElem?_eq_some_iff.mp found
  have same := congrArg (·[position]?) consecutive
  simpa [bound] using same

theorem Consecutive.getElem?_docId {self : Index} (consecutive : self.Consecutive)
    {doc : DocInfo} (member : doc ∈ self.forwardIndex) :
    self.forwardIndex[doc.docId]? = some doc := by
  obtain ⟨position, found⟩ := List.mem_iff_getElem?.mp member
  rwa [consecutive.docId_eq found]

theorem Consecutive.pairwise_docId {self : Index} (consecutive : self.Consecutive) :
    self.forwardIndex.Pairwise fun left right => left.docId < right.docId := by
  have mapped : (self.forwardIndex.map (·.docId)).Pairwise (· < ·) := by
    rw [consecutive]
    exact List.pairwise_lt_range
  exact List.pairwise_map.mp mapped

theorem Consecutive.pairwise_postings {self : Index} (consecutive : self.Consecutive)
    (jieba : JiebaUtil) (keyword : Bytes) :
    (postings jieba self.forwardIndex keyword).Pairwise fun left right =>
      left.docId < right.docId := by
  apply List.Pairwise.filterMap (posting jieba keyword) _ consecutive.pairwise_docId
  intro left right ordered elem listed other also
  simp only [posting, Option.map_eq_some_iff] at listed also
  obtain ⟨_, -, rfl⟩ := listed
  obtain ⟨_, -, rfl⟩ := also
  exact ordered

theorem keywordWeight_eq_some_iff {jieba : JiebaUtil} {doc : DocInfo} {keyword : Bytes}
    {weight : UInt64} :
    keywordWeight jieba doc keyword = some weight ↔
      0 < occurrences jieba doc.title keyword + occurrences jieba doc.content keyword ∧
        weight = UInt64.ofNat
          (40 * occurrences jieba doc.title keyword + occurrences jieba doc.content keyword) := by
  simp only [keywordWeight]
  split
  · rename_i absent
    simp [absent]
  · rename_i present
    simp [Nat.pos_of_ne_zero present, eq_comm]

theorem postings_eq_nil_iff {jieba : JiebaUtil} {docs : List DocInfo} {keyword : Bytes} :
    postings jieba docs keyword = [] ↔
      ∀ doc ∈ docs,
        occurrences jieba doc.title keyword + occurrences jieba doc.content keyword = 0 := by
  rw [postings, List.filterMap_eq_nil_iff]
  refine forall₂_congr fun doc _ => ?_
  simp [posting, keywordWeight]

theorem mem_postings_iff {jieba : JiebaUtil} {docs : List DocInfo} {keyword : Bytes}
    {elem : InvertedElem} :
    elem ∈ postings jieba docs keyword ↔
      ∃ doc ∈ docs,
        0 < occurrences jieba doc.title keyword + occurrences jieba doc.content keyword ∧
          elem =
            { docId := doc.docId
              keyword
              weight := UInt64.ofNat
                (40 * occurrences jieba doc.title keyword +
                  occurrences jieba doc.content keyword) } := by
  simp only [postings, List.mem_filterMap, posting, Option.map_eq_some_iff,
    keywordWeight_eq_some_iff]
  refine exists_congr fun doc => and_congr_right fun _ => ?_
  constructor
  · rintro ⟨weight, ⟨present, rfl⟩, rfl⟩
    exact ⟨present, rfl⟩
  · rintro ⟨present, rfl⟩
    exact ⟨_, ⟨present, rfl⟩, rfl⟩

/-- What a posting list must look like: ids increase, every document that contains the keyword has
an element, and every element belongs to such a document and carries its weight. -/
structure ExactList (jieba : JiebaUtil) (docs : List DocInfo) (keyword : Bytes)
    (list : InvertedList) : Prop where
  /-- The ids increase strictly, so that no document has two elements. -/
  increasing : list.Pairwise fun left right => left.docId < right.docId
  /-- Every document with an occurrence is listed. -/
  complete : ∀ docId doc, docs[docId]? = some doc →
    0 < occurrences jieba doc.title keyword + occurrences jieba doc.content keyword →
      ∃ elem ∈ list, elem.docId = docId
  /-- Every element stands for a document with an occurrence. -/
  sound : ∀ elem ∈ list, elem.keyword = keyword ∧
    ∃ doc, docs[elem.docId]? = some doc ∧
      0 < occurrences jieba doc.title keyword + occurrences jieba doc.content keyword ∧
      elem.weight.toNat = (40 * occurrences jieba doc.title keyword +
        occurrences jieba doc.content keyword) % 2 ^ 64

theorem ExactList.weight_eq {jieba : JiebaUtil} {docs : List DocInfo} {keyword : Bytes}
    {list : InvertedList} (exactly : ExactList jieba docs keyword list) {elem : InvertedElem}
    (member : elem ∈ list) {doc : DocInfo} (found : docs[elem.docId]? = some doc)
    (bound : 40 * occurrences jieba doc.title keyword +
      occurrences jieba doc.content keyword < 2 ^ 64) :
    elem.weight.toNat = 40 * occurrences jieba doc.title keyword +
      occurrences jieba doc.content keyword := by
  obtain ⟨-, listed, listed_found, -, weight⟩ := exactly.sound elem member
  obtain rfl := Option.some.inj (found.symm.trans listed_found)
  rw [weight, Nat.mod_eq_of_lt bound]

theorem Consecutive.exactList {self : Index} (consecutive : self.Consecutive)
    (jieba : JiebaUtil) (keyword : Bytes) :
    ExactList jieba self.forwardIndex keyword (postings jieba self.forwardIndex keyword) where
  increasing := consecutive.pairwise_postings jieba keyword
  complete := by
    intro docId doc found present
    refine ⟨_, mem_postings_iff.mpr ⟨doc, List.mem_of_getElem? found, present, rfl⟩, ?_⟩
    exact consecutive.docId_eq found
  sound := by
    intro elem member
    obtain ⟨doc, doc_mem, present, rfl⟩ := mem_postings_iff.mp member
    exact ⟨rfl, doc, consecutive.getElem?_docId doc_mem, present, UInt64.toNat_ofNat'⟩

/-- What the index must hold after the given lines were read. -/
structure ExactContents (jieba : JiebaUtil) (lines : List Bytes) (built : Index) : Prop where
  /-- One document for each line. -/
  length : built.forwardIndex.length = lines.length
  /-- The document at a position has this id and the first three fields of the line. -/
  documents : ∀ (docId : Nat) (line : Bytes), lines[docId]? = some line →
    ∃ doc, built.forwardIndex[docId]? = some doc ∧ doc.docId = docId ∧
      (lineFields line)[0]? = some doc.title ∧ (lineFields line)[1]? = some doc.content ∧
      (lineFields line)[2]? = some doc.url
  /-- Keywords that occur nowhere have no list. -/
  absent : ∀ keyword,
    (∀ doc ∈ built.forwardIndex,
      occurrences jieba doc.title keyword + occurrences jieba doc.content keyword = 0) →
    built.getInvertedList keyword = none
  /-- Keywords that occur have exactly the list of the documents that contain them. -/
  listed : ∀ keyword,
    (∃ doc ∈ built.forwardIndex,
      0 < occurrences jieba doc.title keyword + occurrences jieba doc.content keyword) →
    ∃ list, built.getInvertedList keyword = some list ∧
      ExactList jieba built.forwardIndex keyword list ∧
      ∀ elem ∈ list, ∀ doc, built.forwardIndex[elem.docId]? = some doc →
        40 * occurrences jieba doc.title keyword +
          occurrences jieba doc.content keyword < 2 ^ 64 →
        elem.weight.toNat = 40 * occurrences jieba doc.title keyword +
          occurrences jieba doc.content keyword

/-- Exact contents of both indexes after any sequence of builds on proper files. -/
theorem buildAll_contents (jieba : JiebaUtil) (order : KeywordOrder) {files : List Bytes}
    (long : ∀ file ∈ files, ∀ line ∈ getlines file, 3 ≤ (lineFields line).length) :
    ∃ built, buildAll jieba order files empty = .ok built ∧
      ExactContents jieba (files.flatMap getlines) built := by
  have built : buildAll jieba order files empty =
      .ok ((files.flatMap getlines).foldl (Index.addLine jieba order) empty) :=
    buildAll_of_long long empty
  have reachable := Reachable.empty.buildAll built
  have exactly := reachable.consecutive.exactList jieba
  refine ⟨_, built, ?_, ?_, ?_, ?_⟩
  · simp [forwardIndex_foldl_addLine, empty]
  · intro docId line found
    have line_long : 3 ≤ (lineFields line).length := by
      obtain ⟨file, file_mem, line_mem⟩ := List.mem_flatMap.mp (List.mem_of_getElem? found)
      exact long file file_mem line line_mem
    refine ⟨lineDoc docId line, ?_, rfl, getElem?_lineFields line_long docId⟩
    simp [forwardIndex_foldl_addLine, empty, found]
  · intro keyword nowhere
    rw [reachable.listed, if_pos (postings_eq_nil_iff.mpr nowhere)]
  · intro keyword ⟨doc, doc_mem, present⟩
    have listed_ne : postings jieba _ keyword ≠ [] := fun nothing =>
      Nat.ne_of_gt present (postings_eq_nil_iff.mp nothing doc doc_mem)
    refine ⟨_, by rw [reachable.listed, if_neg listed_ne], exactly keyword, ?_⟩
    intro elem member other found bound
    exact (exactly keyword).weight_eq member found bound

/-- Two files, of two documents each. -/
def twoFiles : List Bytes :=
  [bytes "list\x03a list of lists\x03list.html\nvector\x03a Vector and a list\x03vector.html\n",
    bytes "set\x03a set\x03set.html\nlist of sets\x03a set and a set\x03sets.html\n"]

/-- The contents after builds on both files. -/
theorem buildAll_contents_twoFiles :
    ∃ built, buildAll .spaced (fun _ => .inOrder _) twoFiles empty = .ok built ∧
      ExactContents .spaced (twoFiles.flatMap getlines) built :=
  buildAll_contents .spaced _ (by decide)

end BoostDocSearcher.Index
