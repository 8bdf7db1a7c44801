import BoostDocSearcher.Postings
import BoostDocSearcher.Searcher

/-!
# What a search finds

Over a reachable index the merging table holds, for each document, the weighted answer of the query.
The sorted entries are therefore a rearrangement of the answers of all documents, whatever the
traversal order and the sorting procedure, and every step behind the sorting succeeds.
-/

namespace BoostDocSearcher

open Tally

/-! ## Posting lists by document -/

namespace Index

/-- The posting of a document in the list of a keyword. -/
def elemOf (self : Index) (keyword : Bytes) (docId : Nat) : Option InvertedElem :=
  ((self.getInvertedList keyword).getD []).find? fun elem => elem.docId = docId

theorem Consecutive.filter_docId {self : Index} (consecutive : self.Consecutive) (docId : Nat) :
    self.forwardIndex.filter (fun doc => doc.docId = docId) =
      self.forwardIndex[docId]?.toList := by
  have distinct : self.forwardIndex.Nodup := by
    apply List.Nodup.of_map (·.docId)
    rw [consecutive]
    exact List.nodup_range
  have same : (self.forwardIndex.filter fun doc => doc.docId = docId).Perm
      self.forwardIndex[docId]?.toList := by
    refine (List.perm_ext_iff_of_nodup (distinct.filter _) ?_).mpr fun doc => ?_
    · cases self.forwardIndex[docId]? <;> simp
    · simp only [List.mem_filter, decide_eq_true_eq, Option.mem_toList]
      constructor
      · intro ⟨member, id_eq⟩
        rw [← id_eq]
        exact consecutive.getElem?_docId member
      · intro found
        exact ⟨List.mem_of_getElem? found, consecutive.docId_eq found⟩
  cases found : self.forwardIndex[docId]? with
  | none =>
      rw [found] at same
      simpa using same.eq_nil
  | some doc =>
      rw [found] at same
      simpa using same.eq_singleton

theorem Consecutive.filter_postings {self : Index} (consecutive : self.Consecutive)
    (jieba : JiebaUtil) (keyword : Bytes) (docId : Nat) :
    (postings jieba self.forwardIndex keyword).filter (fun elem => elem.docId = docId) =
      (self.forwardIndex[docId]?.bind (posting jieba keyword)).toList := by
  have labelled (doc : DocInfo) :
      (posting jieba keyword doc).filter (fun elem => elem.docId = docId) =
        if doc.docId = docId then posting jieba keyword doc else none := by
    unfold posting
    cases keywordWeight jieba doc keyword with
    | none => simp
    | some weight => simp [Option.filter]
  calc (postings jieba self.forwardIndex keyword).filter (fun elem => elem.docId = docId)
      = self.forwardIndex.filterMap fun doc =>
          if doc.docId = docId then posting jieba keyword doc else none := by
        rw [postings, List.filter_filterMap]
        exact List.filterMap_congr fun doc _ => labelled doc
    _ = (self.forwardIndex.filter fun doc => doc.docId = docId).filterMap
          (posting jieba keyword) := by
        rw [List.filterMap_filter]
        simp only [decide_eq_true_eq]
    _ = (self.forwardIndex[docId]?.bind (posting jieba keyword)).toList := by
        rw [consecutive.filter_docId]
        cases self.forwardIndex[docId]? with
        | none => rfl
        | some doc => cases posting_eq : posting jieba keyword doc <;> simp [posting_eq]

/-- Lists of keywords without postings are absent, so an absent list reads as an empty one. -/
theorem Listed.getD_getInvertedList {jieba : JiebaUtil} {self : Index}
    (listed : Listed jieba self) (keyword : Bytes) :
    (self.getInvertedList keyword).getD [] = postings jieba self.forwardIndex keyword := by
  rw [listed]
  split
  · rename_i nothing
    simp [nothing]
  · rfl

theorem Reachable.elemOf_eq {jieba : JiebaUtil} {order : KeywordOrder} {self : Index}
    (reachable : Reachable jieba order self) (keyword : Bytes) (docId : Nat) :
    self.elemOf keyword docId = self.forwardIndex[docId]?.bind (posting jieba keyword) := by
  rw [elemOf, reachable.listed.getD_getInvertedList, ← List.head?_filter,
    reachable.consecutive.filter_postings]
  cases self.forwardIndex[docId]?.bind (posting jieba keyword) <;> rfl

end Index

namespace Searcher

variable {jieba : JiebaUtil} {order : Index.KeywordOrder} {index : Index}

/-! ## The merging table -/

/-- The entry that an answer makes of a document. -/
def entry (docId : Nat) (found : UInt64 × List Bytes) : InvertedElemOut where
  docId := docId
  weight := found.1
  keywords := found.2

/-- The entry that a query gives a document, if the document answers it. -/
def hit (jieba : JiebaUtil) (words : List Bytes) (doc : Index.DocInfo) : Option InvertedElemOut :=
  (Retrieval.answer (Index.keywordWeight jieba) words doc).map (entry doc.docId)

/-- Merging one word amends the entry of a document by its posting, if there is one. -/
theorem lookup_mergeWord (reachable : Index.Reachable jieba order index)
    (table : Table Nat InvertedElemOut) (word : Bytes) (docId : Nat) :
    (mergeWord index table word).lookup docId =
      match index.forwardIndex[docId]?.bind (Index.posting jieba (toLower word)) with
      | none => table.lookup docId
      | some elem => amend (table.lookup docId) (InvertedElemOut.merge elem) := by
  have merged : mergeWord index table word =
      ((index.getInvertedList (toLower word)).getD []).foldl
        (fun table elem => upsert table elem.docId (InvertedElemOut.merge elem)) table := by
    rw [mergeWord]
    split <;> rename_i found <;> rw [found] <;> rfl
  rw [merged, lookup_foldl_upsert, reachable.listed.getD_getInvertedList,
    reachable.consecutive.filter_postings]
  cases index.forwardIndex[docId]?.bind (Index.posting jieba (toLower word)) <;> rfl

/-- The loop over the words visits every document with every word. -/
theorem lookup_foldl_mergeWord (reachable : Index.Reachable jieba order index)
    {docId : Nat} {doc : Index.DocInfo}
    (found : index.forwardIndex[docId]? = some doc) (keywords : List Bytes)
    {table : Table Nat InvertedElemOut} {known : Option (UInt64 × List Bytes)}
    (known_eq : table.lookup docId = known.map (entry docId)) :
    (keywords.foldl (mergeWord index) table).lookup docId =
      ((keywords.map toLower).foldl (Retrieval.visit (Index.keywordWeight jieba) doc)
        known).map (entry docId) := by
  induction keywords generalizing table known with
  | nil => exact known_eq
  | cons word keywords induction =>
      rw [List.foldl_cons, List.map_cons, List.foldl_cons]
      apply induction
      rw [lookup_mergeWord reachable, found, Option.bind_some, Index.posting, Retrieval.visit]
      cases Index.keywordWeight jieba doc (toLower word) with
      | none => exact known_eq
      | some weight =>
          have id_eq : doc.docId = docId := reachable.consecutive.docId_eq found
          simp only [Option.map_some, amend, known_eq, InvertedElemOut.merge, id_eq]
          cases known <;> rfl

theorem lookup_foldl_mergeWord_of_none (reachable : Index.Reachable jieba order index) {docId : Nat}
    (missing : index.forwardIndex[docId]? = none) (keywords : List Bytes)
    (table : Table Nat InvertedElemOut) :
    (keywords.foldl (mergeWord index) table).lookup docId = table.lookup docId := by
  induction keywords generalizing table with
  | nil => rfl
  | cons word keywords induction =>
      rw [List.foldl_cons, induction, lookup_mergeWord reachable, missing]
      rfl

theorem lookup_invertedElemOutMap (reachable : Index.Reachable jieba order index)
    (keywords : List Bytes) (docId : Nat) :
    (invertedElemOutMap index keywords).lookup docId =
      index.forwardIndex[docId]?.bind (hit jieba (keywords.map toLower)) := by
  rw [invertedElemOutMap]
  cases found : index.forwardIndex[docId]? with
  | none =>
      rw [lookup_foldl_mergeWord_of_none reachable found]
      rfl
  | some doc =>
      have id_eq : doc.docId = docId := reachable.consecutive.docId_eq found
      have fresh : (∅ : Table Nat InvertedElemOut).lookup docId = none.map (entry docId) := rfl
      rw [lookup_foldl_mergeWord reachable found keywords fresh, Retrieval.foldl_visit,
        Option.bind_some, hit, id_eq]

theorem docId_of_hit {words : List Bytes} {doc : Index.DocInfo} {found : InvertedElemOut}
    (answered : hit jieba words doc = some found) :
    found.docId = doc.docId := by
  obtain ⟨_, -, rfl⟩ := Option.map_eq_some_iff.mp answered
  rfl

/-! ## The sorted entries -/

theorem nodup_docId_hits (reachable : Index.Reachable jieba order index) (words : List Bytes) :
    ((index.forwardIndex.filterMap (hit jieba words)).map (·.docId)).Nodup := by
  have increasing : (index.forwardIndex.filterMap (hit jieba words)).Pairwise
      fun left right => left.docId < right.docId := by
    apply List.Pairwise.filterMap (hit jieba words) _ reachable.consecutive.pairwise_docId
    intro left right ordered found answered other also
    rw [docId_of_hit answered, docId_of_hit also]
    exact ordered
  exact List.pairwise_map.mpr (increasing.imp fun ordered => Nat.ne_of_lt ordered)

/-- The sorted entries are the answers of all documents, in some order. -/
theorem allInvertedElemOut_perm (reachable : Index.Reachable jieba order index)
    (keywords : List Bytes) (traversal : Traversal (Entry Nat InvertedElemOut))
    (sorting : Retrieval.Sorting heavier) :
    (allInvertedElemOut index keywords traversal sorting).Perm
      (index.forwardIndex.filterMap (hit jieba (keywords.map toLower))) := by
  refine (sorting.perm _).trans ?_
  apply visit_values_perm traversal InvertedElemOut.docId
  · exact (nodup_docId_hits reachable _).of_map
  · intro docId found
    rw [lookup_invertedElemOutMap reachable, Option.bind_eq_some_iff, List.mem_filterMap]
    constructor
    · intro ⟨doc, doc_found, answered⟩
      refine ⟨⟨doc, List.mem_of_getElem? doc_found, answered⟩, ?_⟩
      rw [docId_of_hit answered]
      exact reachable.consecutive.docId_eq doc_found
    · intro ⟨⟨doc, member, answered⟩, id_eq⟩
      rw [docId_of_hit answered] at id_eq
      exact ⟨doc, id_eq ▸ reachable.consecutive.getElem?_docId member, answered⟩

theorem mem_allInvertedElemOut_iff (reachable : Index.Reachable jieba order index)
    {keywords : List Bytes} {traversal : Traversal (Entry Nat InvertedElemOut)}
    {sorting : Retrieval.Sorting heavier} {found : InvertedElemOut} :
    found ∈ allInvertedElemOut index keywords traversal sorting ↔
      ∃ doc, index.forwardIndex[found.docId]? = some doc ∧
        hit jieba (keywords.map toLower) doc = some found := by
  rw [(allInvertedElemOut_perm reachable keywords traversal sorting).mem_iff, List.mem_filterMap]
  refine exists_congr fun doc => and_congr_left fun answered => ?_
  rw [docId_of_hit answered]
  constructor
  · intro member
    exact reachable.consecutive.getElem?_docId member
  · intro position
    exact List.mem_of_getElem? position

theorem pairwise_weight (index : Index) (keywords : List Bytes)
    (traversal : Traversal (Entry Nat InvertedElemOut)) (sorting : Retrieval.Sorting heavier) :
    (allInvertedElemOut index keywords traversal sorting).Pairwise fun left right =>
      right.weight ≤ left.weight := by
  apply (sorting.ordered _).imp
  intro left right placed
  simpa [heavier] using placed

/-! ## The response -/

/-- The element that describes one entry, given its document. -/
def describe (doc : Index.DocInfo) (found : InvertedElemOut) : JsonElem where
  url := doc.url
  title := if doc.title.isEmpty then bytes "TITLE" else doc.title
  desc := descText doc.content (found.keywords.headD [])

theorem matched_of_hit {words : List Bytes} {doc : Index.DocInfo} {found : InvertedElemOut}
    (answered : hit jieba words doc = some found) :
    found.keywords = Retrieval.matched (Index.keywordWeight jieba) words doc ∧
      found.keywords ≠ [] ∧
      found.weight = Retrieval.score (Index.keywordWeight jieba) words doc := by
  obtain ⟨_, answer_eq, rfl⟩ := Option.map_eq_some_iff.mp answered
  obtain ⟨some_match, rfl⟩ := Retrieval.answer_eq_some_iff.mp answer_eq
  exact ⟨rfl, some_match, rfl⟩

/-- The element that describes one entry, with a filler where there is no document. -/
def elemFor (index : Index) (found : InvertedElemOut) : JsonElem :=
  match index.forwardIndex[found.docId]? with
  | none => searchNothing
  | some doc => describe doc found

theorem getForwardIndex_eq (index : Index) (docId : Nat) :
    index.getForwardIndex docId = index.forwardIndex[docId]? := by
  rw [Index.getForwardIndex]
  split
  · rename_i past
    rw [List.getElem?_eq_none past]
  · rfl

theorem jsonElem_of_hit {words : List Bytes} {doc : Index.DocInfo} {found : InvertedElemOut}
    (position : index.forwardIndex[found.docId]? = some doc)
    (answered : hit jieba words doc = some found) :
    jsonElem index found = .ok (elemFor index found) := by
  obtain ⟨word, rest, keywords_eq⟩ := List.exists_cons_of_ne_nil (matched_of_hit answered).2.1
  simp only [jsonElem, elemFor, getForwardIndex_eq, position, keywords_eq, subscript, getDesc_eq,
    describe, List.headD_cons, List.getElem?_cons_zero, bind, Except.bind, pure, Except.pure]

theorem mapM_eq_ok {α β : Type} {step : α → Result β} {value : α → β} {items : List α}
    (each : ∀ item ∈ items, step item = .ok (value item)) :
    items.mapM step = .ok (items.map value) := by
  induction items with
  | nil => rfl
  | cons item items induction =>
      have rest := induction fun other member => each other (List.mem_cons_of_mem item member)
      simp [List.mapM_cons, each item List.mem_cons_self, rest, bind, Except.bind, pure,
        Except.pure]

/-- The response is always there: the placeholder, or the elements of the sorted entries. -/
theorem root_eq (reachable : Index.Reachable jieba order index) (keywords : List Bytes)
    (traversal : Traversal (Entry Nat InvertedElemOut)) (sorting : Retrieval.Sorting heavier) :
    root index keywords traversal sorting =
      .ok (if (allInvertedElemOut index keywords traversal sorting).isEmpty then
          [searchNothing]
        else
          (allInvertedElemOut index keywords traversal sorting).map (elemFor index)) := by
  simp only [root]
  split
  · rfl
  · apply mapM_eq_ok
    intro found member
    obtain ⟨doc, position, answered⟩ := (mem_allInvertedElemOut_iff reachable).mp member
    exact jsonElem_of_hit position answered

/-! ## Correctness of a search -/

theorem toNat_foldl_add (weights : List UInt64) (total : UInt64) :
    (weights.foldl (· + ·) total).toNat =
      (total.toNat + (weights.map UInt64.toNat).sum) % 2 ^ 64 := by
  induction weights generalizing total with
  | nil => simp [Nat.mod_eq_of_lt total.toNat_lt]
  | cons weight weights induction =>
      rw [List.foldl_cons, induction, UInt64.toNat_add, Nat.mod_add_mod, List.map_cons,
        List.sum_cons, Nat.add_assoc]

theorem sum_filterMap (weigh : Bytes → Option UInt64) (words : List Bytes) :
    ((words.filterMap weigh).map UInt64.toNat).sum =
      (words.map fun word => ((weigh word).map UInt64.toNat).getD 0).sum := by
  induction words with
  | nil => rfl
  | cons word words induction =>
      cases weight_eq : weigh word <;> simp [weight_eq, induction]

/-- What an element of the response must say about the document of an entry. -/
def Describes (index : Index) (words : List Bytes) (found : InvertedElemOut)
    (elem : JsonElem) : Prop :=
  ∃ doc word, index.getForwardIndex found.docId = some doc ∧
    words.find? (fun word => (index.elemOf word found.docId).isSome) = some word ∧
    elem.url = doc.url ∧ elem.title = (if doc.title = [] then bytes "TITLE" else doc.title) ∧
    getDesc doc.content word = .ok elem.desc

/-- What a search must do, by its lower-case words, the entries it ranks and its response. -/
structure CorrectSearch (index : Index) (words : List Bytes) (ranked : List InvertedElemOut)
    (respond : (List JsonElem → Bytes) → Result Bytes) : Prop where
  /-- Without any known word the response is the placeholder. -/
  nothing : (∀ word ∈ words, index.getInvertedList word = none) →
    ∀ writer, respond writer = .ok (writer [searchNothing])
  /-- With a known word the response describes the ranked entries, one by one. -/
  described : (∃ word ∈ words, index.getInvertedList word ≠ none) →
    ∃ elems, (∀ writer, respond writer = .ok (writer elems)) ∧
      List.Forall₂ (Describes index words) ranked elems
  /-- No document is ranked twice. -/
  distinct : (ranked.map (·.docId)).Nodup
  /-- Exactly the documents in the posting list of some word are ranked. -/
  hits : ∀ docId, docId ∈ ranked.map (·.docId) ↔
    ∃ word ∈ words, (index.elemOf word docId).isSome
  /-- Documents are ranked by the sum of the weights of all words, repetitions included. -/
  weight : ∀ found ∈ ranked, found.weight.toNat =
    (words.map fun word =>
      ((index.elemOf word found.docId).map (·.weight.toNat)).getD 0).sum % 2 ^ 64
  /-- Heavier documents come first. -/
  ordered : ranked.Pairwise fun left right => right.weight ≤ left.weight

theorem elemOf_isSome (reachable : Index.Reachable jieba order index) {docId : Nat}
    {doc : Index.DocInfo} (position : index.forwardIndex[docId]? = some doc) (word : Bytes) :
    (index.elemOf word docId).isSome = (Index.keywordWeight jieba doc word).isSome := by
  rw [reachable.elemOf_eq, position, Option.bind_some, Index.posting, Option.isSome_map]

theorem describes_of_hit (reachable : Index.Reachable jieba order index) {words : List Bytes}
    {doc : Index.DocInfo} {found : InvertedElemOut}
    (position : index.forwardIndex[found.docId]? = some doc)
    (answered : hit jieba words doc = some found) :
    Describes index words found (elemFor index found) := by
  obtain ⟨keywords_eq, some_match, -⟩ := matched_of_hit answered
  obtain ⟨word, rest, cons_eq⟩ := List.exists_cons_of_ne_nil some_match
  simp only [elemFor, position]
  refine ⟨doc, word, ?_, ?_, rfl, ?_, ?_⟩
  · rw [getForwardIndex_eq, position]
  · simp only [elemOf_isSome reachable position]
    rw [← List.head?_filter, ← Retrieval.matched, ← keywords_eq, cons_eq, List.head?_cons]
  · simp only [describe, List.isEmpty_iff]
  · rw [getDesc_eq, describe, cons_eq, List.headD_cons]

theorem weight_of_hit (reachable : Index.Reachable jieba order index) {words : List Bytes}
    {doc : Index.DocInfo} {found : InvertedElemOut}
    (position : index.forwardIndex[found.docId]? = some doc)
    (answered : hit jieba words doc = some found) :
    found.weight.toNat =
      (words.map fun word =>
        ((index.elemOf word found.docId).map (·.weight.toNat)).getD 0).sum % 2 ^ 64 := by
  have weighed (word : Bytes) : ((index.elemOf word found.docId).map (·.weight.toNat)) =
      (Index.keywordWeight jieba doc word).map UInt64.toNat := by
    rw [reachable.elemOf_eq, position, Option.bind_some, Index.posting, Option.map_map]
    rfl
  rw [(matched_of_hit answered).2.2, Retrieval.score, toNat_foldl_add, sum_filterMap]
  simp only [weighed, UInt64.toNat_zero, Nat.zero_add]

/-- A word has a posting list when some document is listed for it. -/
theorem getInvertedList_ne_none_iff (reachable : Index.Reachable jieba order index) {word : Bytes} :
    index.getInvertedList word ≠ none ↔ ∃ docId, (index.elemOf word docId).isSome := by
  constructor
  · intro known
    have nonempty : (index.getInvertedList word).getD [] ≠ [] := by
      rw [reachable.listed.getD_getInvertedList]
      intro nothing
      exact known (by rw [reachable.listed, if_pos nothing])
    obtain ⟨elem, rest, cons_eq⟩ := List.exists_cons_of_ne_nil nonempty
    exact ⟨elem.docId, by simp [Index.elemOf, cons_eq]⟩
  · intro ⟨docId, found⟩ absent
    simp [Index.elemOf, absent] at found

theorem mem_docIds_iff (reachable : Index.Reachable jieba order index) (keywords : List Bytes)
    (traversal : Traversal (Entry Nat InvertedElemOut)) (sorting : Retrieval.Sorting heavier)
    {docId : Nat} :
    docId ∈ (allInvertedElemOut index keywords traversal sorting).map (·.docId) ↔
      ∃ word ∈ keywords.map toLower, (index.elemOf word docId).isSome := by
  constructor
  · intro member
    obtain ⟨found, found_mem, rfl⟩ := List.mem_map.mp member
    obtain ⟨doc, position, answered⟩ := (mem_allInvertedElemOut_iff reachable).mp found_mem
    obtain ⟨_, answer_eq, -⟩ := Option.map_eq_some_iff.mp answered
    obtain ⟨word, word_mem, occurs⟩ :=
      Retrieval.answer_isSome_iff.mp (Option.isSome_of_eq_some answer_eq)
    exact ⟨word, word_mem, by rwa [elemOf_isSome reachable position]⟩
  · intro ⟨word, word_mem, listed⟩
    cases position : index.forwardIndex[docId]? with
    | none => simp [reachable.elemOf_eq, position] at listed
    | some doc =>
        rw [elemOf_isSome reachable position] at listed
        obtain ⟨answer, answer_eq⟩ := Option.isSome_iff_exists.mp
          (Retrieval.answer_isSome_iff.mpr ⟨word, word_mem, listed⟩)
        have id_eq : doc.docId = docId := reachable.consecutive.docId_eq position
        refine List.mem_map.mpr ⟨entry docId answer, ?_, rfl⟩
        refine (mem_allInvertedElemOut_iff reachable).mpr ⟨doc, position, ?_⟩
        rw [hit, answer_eq, id_eq]
        rfl

theorem allInvertedElemOut_ne_nil_iff (reachable : Index.Reachable jieba order index)
    (keywords : List Bytes) (traversal : Traversal (Entry Nat InvertedElemOut))
    (sorting : Retrieval.Sorting heavier) :
    allInvertedElemOut index keywords traversal sorting ≠ [] ↔
      ∃ word ∈ keywords.map toLower, index.getInvertedList word ≠ none := by
  simp only [getInvertedList_ne_none_iff reachable]
  constructor
  · intro nonempty
    obtain ⟨found, found_mem⟩ := List.exists_mem_of_ne_nil _ nonempty
    obtain ⟨word, word_mem, listed⟩ :=
      (mem_docIds_iff reachable keywords traversal sorting).mp
        (List.mem_map_of_mem (f := (·.docId)) found_mem)
    exact ⟨word, word_mem, _, listed⟩
  · intro ⟨word, word_mem, docId, listed⟩ empty
    have member := (mem_docIds_iff reachable keywords traversal sorting).mpr
      ⟨word, word_mem, listed⟩
    simp [empty] at member

/-- A search over a reachable index finds what the posting lists say. -/
theorem search_correct (reachable : Index.Reachable jieba order index)
    (traversal : Traversal (Entry Nat InvertedElemOut)) (sorting : Retrieval.Sorting heavier)
    (query : Bytes) :
    CorrectSearch index ((jieba.cutString query).map toLower)
      (allInvertedElemOut index (jieba.cutString query) traversal sorting)
      (fun writer => search jieba index writer traversal sorting query) := by
  have some_ranked :=
    allInvertedElemOut_ne_nil_iff reachable (jieba.cutString query) traversal sorting
  have responds := root_eq reachable (jieba.cutString query) traversal sorting
  constructor
  case nothing =>
    intro unknown writer
    have empty : allInvertedElemOut index (jieba.cutString query) traversal sorting = [] := by
      by_contra nonempty
      obtain ⟨word, word_mem, known⟩ := some_ranked.mp nonempty
      exact known (unknown word word_mem)
    rw [search, responds, empty]
    rfl
  case described =>
    intro known
    have nonempty := some_ranked.mpr known
    refine ⟨_, fun writer => by rw [search, responds, if_neg (by simpa using nonempty)]; rfl, ?_⟩
    rw [List.forall₂_map_right_iff, List.forall₂_same]
    intro found found_mem
    obtain ⟨doc, position, answered⟩ := (mem_allInvertedElemOut_iff reachable).mp found_mem
    exact describes_of_hit reachable position answered
  case distinct =>
    have same := (allInvertedElemOut_perm reachable (jieba.cutString query) traversal sorting).map
      (·.docId)
    exact same.nodup_iff.mpr (nodup_docId_hits reachable _)
  case hits => exact fun docId => mem_docIds_iff reachable _ traversal sorting
  case weight =>
    intro found found_mem
    obtain ⟨doc, position, answered⟩ := (mem_allInvertedElemOut_iff reachable).mp found_mem
    exact weight_of_hit reachable position answered
  case ordered => exact pairwise_weight index _ traversal sorting

/-- The index of a file with one document, whose title and content are one word. -/
def listIndex : Index :=
  Index.empty.addLine .singleWord (fun _ => .inOrder _) (bytes "list\x03list\x03url")

theorem reachable_addLine (jieba : JiebaUtil) (order : Index.KeywordOrder) {line : Bytes}
    (unbroken : newline ∉ line) (long : 3 ≤ (Index.lineFields line).length) :
    Index.Reachable jieba order (Index.empty.addLine jieba order line) := by
  have lines_eq : getlines (line ++ [newline]) = [line] :=
    Delimited.records_append_cons unbroken []
  have file_long : ∀ other ∈ getlines (line ++ [newline]),
      3 ≤ (Index.lineFields other).length := by
    simpa [lines_eq] using long
  have reachable := Index.Reachable.of_long file_long jieba order
  rwa [lines_eq] at reachable

/-- The file of two documents that share a word. -/
def twoDocuments : Bytes :=
  bytes "list\x03a list of lists\x03list.html\nvector\x03a Vector and a list\x03vector.html\n"

/-- The index of that file. -/
def twoIndex : Index :=
  (getlines twoDocuments).foldl (Index.addLine .spaced fun _ => .inOrder _) Index.empty

/-- A search for two words, of which one is in both documents. -/
theorem search_correct_twoIndex :
    CorrectSearch twoIndex ((JiebaUtil.spaced.cutString (bytes "LIST vector")).map toLower)
      (allInvertedElemOut twoIndex (JiebaUtil.spaced.cutString (bytes "LIST vector")) (.inOrder _)
        stableSort)
      (fun writer =>
        search .spaced twoIndex writer (.inOrder _) stableSort (bytes "LIST vector")) :=
  search_correct (Index.Reachable.of_long (by decide) .spaced _) (.inOrder _) stableSort
    (bytes "LIST vector")

/-! ## Stop words in queries -/

theorem getInvertedList_of_stop (reachable : Index.Reachable jieba order index) {keyword : Bytes}
    (stop : keyword ∈ jieba.stopKeywordMap) : index.getInvertedList keyword = none := by
  rw [reachable.listed, if_pos]
  rw [Index.postings_eq_nil_iff]
  intro doc _
  simp [Index.occurrences, stop]

theorem mergeWord_of_stop (reachable : Index.Reachable jieba order index) {word : Bytes}
    (stop : toLower word ∈ jieba.stopKeywordMap) (table : Table Nat InvertedElemOut) :
    mergeWord index table word = table := by
  rw [mergeWord, getInvertedList_of_stop reachable stop]

/-- Cutting the query with or without stop words fills the same merging table. -/
theorem stopWords_neutral (reachable : Index.Reachable jieba order index) (query : Bytes) :
    invertedElemOutMap index (jieba.cutString query) =
        invertedElemOutMap index (jieba.cutStringNoStop query) ∧
      ∀ traversal sorting,
        allInvertedElemOut index (jieba.cutString query) traversal sorting =
            allInvertedElemOut index (jieba.cutStringNoStop query) traversal sorting ∧
          root index (jieba.cutString query) traversal sorting =
            root index (jieba.cutStringNoStop query) traversal sorting := by
  have same : invertedElemOutMap index (jieba.cutString query) =
      invertedElemOutMap index (jieba.cutStringNoStop query) := by
    rw [JiebaUtil.cutStringNoStop_eq, invertedElemOutMap, invertedElemOutMap]
    generalize jieba.cutString query = keywords
    generalize (∅ : Table Nat InvertedElemOut) = table
    induction keywords generalizing table with
    | nil => rfl
    | cons word keywords induction =>
        rw [List.foldl_cons, List.filter_cons, induction]
        split
        · rfl
        · rename_i dropped
          rw [mergeWord_of_stop reachable (by simpa using dropped)]
  refine ⟨same, fun traversal sorting => ?_⟩
  have ranked : allInvertedElemOut index (jieba.cutString query) traversal sorting =
      allInvertedElemOut index (jieba.cutStringNoStop query) traversal sorting := by
    rw [allInvertedElemOut, allInvertedElemOut, same]
  exact ⟨ranked, by simp only [root, ranked]⟩

/-- A segmenter that knows a stop word. -/
def stopThe : JiebaUtil :=
  { JiebaUtil.singleWord with stopKeywordMap := AList.insert (bytes "the") true ∅ }

/-- A query of the stop word, after a build that met it in a title. -/
theorem stopWords_neutral_stopThe :
    let index := Index.empty.addLine stopThe (fun _ => .inOrder _) (bytes "the\x03list\x03url")
    invertedElemOutMap index (stopThe.cutString (bytes "The")) =
        invertedElemOutMap index (stopThe.cutStringNoStop (bytes "The")) ∧
      ∀ traversal sorting,
        allInvertedElemOut index (stopThe.cutString (bytes "The")) traversal sorting =
            allInvertedElemOut index (stopThe.cutStringNoStop (bytes "The")) traversal sorting ∧
          root index (stopThe.cutString (bytes "The")) traversal sorting =
            root index (stopThe.cutStringNoStop (bytes "The")) traversal sorting :=
  stopWords_neutral (reachable_addLine _ _ (by decide) (by decide)) (bytes "The")

end Searcher
end BoostDocSearcher
