import BoostDocSearcher.Ranking

/-!
# The enumeration order of the documents

Ids, posting lists and hash tables all depend on the order of the lines in the raw file. What a
search says about a document does not: it is a function of the line alone, so that two orders of the
same lines give the same weighted elements, and sorting leaves nothing open but ties.
-/

namespace BoostDocSearcher.Searcher

open Tally

/-- The weighted element that a query gives a document, whatever its id. -/
def weightedElem (jieba : JiebaUtil) (words : List Bytes) (doc : Index.DocInfo) :
    Option (UInt64 × JsonElem) :=
  (hit jieba words doc).map fun found => (found.weight, describe doc found)

theorem weightedElem_lineDoc (jieba : JiebaUtil) (words : List Bytes) (docId : Nat)
    (line : Bytes) :
    weightedElem jieba words (Index.lineDoc docId line) =
      weightedElem jieba words (Index.lineDoc 0 line) := by
  have agree : Retrieval.answer (Index.keywordWeight jieba) words (Index.lineDoc docId line) =
      Retrieval.answer (Index.keywordWeight jieba) words (Index.lineDoc 0 line) :=
    Retrieval.answer_congr fun _ _ => rfl
  rw [weightedElem, weightedElem, hit, hit, agree, Option.map_map, Option.map_map]
  rfl

/-- The weighted elements of a search, in the order of the sorted entries. -/
def weightedElems (index : Index) (ranked : List InvertedElemOut) : List (UInt64 × JsonElem) :=
  ranked.map fun found => (found.weight, elemFor index found)

theorem weightedElems_perm {jieba : JiebaUtil} {order : Index.KeywordOrder} {index : Index}
    (reachable : Index.Reachable jieba order index) (keywords : List Bytes)
    (traversal : Traversal (Entry Nat InvertedElemOut)) (sorting : Retrieval.Sorting heavier) :
    (weightedElems index (allInvertedElemOut index keywords traversal sorting)).Perm
      (index.forwardIndex.filterMap (weightedElem jieba (keywords.map toLower))) := by
  have ranked := (allInvertedElemOut_perm reachable keywords traversal sorting).map
    fun found => (found.weight, elemFor index found)
  rw [List.map_filterMap] at ranked
  refine ranked.trans (List.Perm.of_eq (List.filterMap_congr fun doc member => ?_))
  rw [weightedElem]
  cases answered : hit jieba (keywords.map toLower) doc with
  | none => rfl
  | some found =>
      have position : index.forwardIndex[found.docId]? = some doc := by
        rw [docId_of_hit answered]
        exact reachable.consecutive.getElem?_docId member
      simp only [Option.map_some, elemFor, position]

/-- After building from a fresh process the weighted elements come from the lines. -/
theorem filterMap_weightedElem (jieba : JiebaUtil) (order : Index.KeywordOrder)
    (words : List Bytes) (lines : List Bytes) :
    (lines.foldl (Index.addLine jieba order) Index.empty).forwardIndex.filterMap
        (weightedElem jieba words) =
      lines.filterMap fun line => weightedElem jieba words (Index.lineDoc 0 line) := by
  rw [Index.forwardIndex_foldl_addLine]
  simp only [Index.empty, List.nil_append, List.length_nil, Nat.zero_add]
  induction lines using List.reverseRecOn with
  | nil => rfl
  | append_singleton lines line induction =>
      rw [List.mapIdx_append, List.filterMap_append, List.filterMap_append, induction]
      simp only [List.mapIdx_cons, List.mapIdx_nil, List.filterMap_cons, List.filterMap_nil,
        weightedElem_lineDoc jieba words (0 + lines.length)]

/-- Two rankings with their responses agree up to the order of entries of equal weight. -/
structure SameUpToTies (ranked ranked' : List InvertedElemOut) (elems elems' : List JsonElem) :
    Prop where
  /-- The same elements with the same weights. -/
  weighted : ((ranked.map (·.weight)).zip elems).Perm ((ranked'.map (·.weight)).zip elems')
  /-- The same elements, the placeholder included. -/
  perm : elems.Perm elems'
  /-- The same weights at the same places. -/
  weights : ranked.map (·.weight) = ranked'.map (·.weight)
  /-- Both responses are sorted by weight. -/
  ordered : (ranked.map (·.weight)).Pairwise fun left right => right ≤ left

theorem map_fst_weightedElems (index : Index) (ranked : List InvertedElemOut) :
    (weightedElems index ranked).map (·.1) = ranked.map (·.weight) := by
  rw [weightedElems, List.map_map]
  rfl

theorem zip_elems (index : Index) (ranked : List InvertedElemOut) :
    (ranked.map (·.weight)).zip
        (if ranked.isEmpty then [searchNothing] else ranked.map (elemFor index)) =
      weightedElems index ranked := by
  cases ranked with
  | nil => rfl
  | cons found ranked =>
      rw [if_neg (by simp), weightedElems, List.zip_map']

/-- Rankings whose weighted elements are rearrangements of each other agree up to ties. -/
theorem sameUpToTies_of_perm {index index' : Index} {ranked ranked' : List InvertedElemOut}
    (ordered : ranked.Pairwise fun left right => right.weight ≤ left.weight)
    (ordered' : ranked'.Pairwise fun left right => right.weight ≤ left.weight)
    (same : (weightedElems index ranked).Perm (weightedElems index' ranked')) :
    SameUpToTies ranked ranked'
      (if ranked.isEmpty then [searchNothing] else ranked.map (elemFor index))
      (if ranked'.isEmpty then [searchNothing] else ranked'.map (elemFor index')) := by
  have weights_perm : (ranked.map (·.weight)).Perm (ranked'.map (·.weight)) := by
    have mapped := same.map (·.1)
    rwa [map_fst_weightedElems, map_fst_weightedElems] at mapped
  have lengths : ranked.length = ranked'.length := by
    simpa using weights_perm.length_eq
  refine ⟨?_, ?_, ?_, List.pairwise_map.mpr ordered⟩
  · rwa [zip_elems, zip_elems]
  · have elems_perm : (ranked.map (elemFor index)).Perm (ranked'.map (elemFor index')) := by
      have mapped := same.map (·.2)
      rwa [weightedElems, weightedElems, List.map_map, List.map_map] at mapped
    cases ranked with
    | nil =>
        obtain rfl : ranked' = [] := List.eq_nil_of_length_eq_zero lengths.symm
        exact List.Perm.refl _
    | cons found ranked =>
        cases ranked' with
        | nil => simp at lengths
        | cons found' ranked' => simpa using elems_perm
  · exact weights_perm.eq_of_pairwise
      (fun _ _ _ _ above below => UInt64.le_antisymm below above)
      (List.pairwise_map.mpr ordered) (List.pairwise_map.mpr ordered')

/-- All searches of two indexes agree up to ties, whatever the traversal orders and the sorting
procedures. -/
def SameSearches (jieba : JiebaUtil) (index index' : Index) : Prop :=
  ∀ query traversal traversal' sorting sorting', ∃ elems elems',
    root index (jieba.cutString query) traversal sorting = .ok elems ∧
      root index' (jieba.cutString query) traversal' sorting' = .ok elems' ∧
      SameUpToTies (allInvertedElemOut index (jieba.cutString query) traversal sorting)
        (allInvertedElemOut index' (jieba.cutString query) traversal' sorting') elems elems'

/-- The order of the lines does not show in a search, except among entries of equal weight. -/
theorem enumeration_neutral (jieba : JiebaUtil) (order order' : Index.KeywordOrder)
    {file file' : Bytes} (same : (getlines file).Perm (getlines file'))
    (long : ∀ line ∈ getlines file, 3 ≤ (Index.lineFields line).length) :
    ∃ built built',
      Index.empty.buildIndex jieba order (some file) = .ok (built, true) ∧
        Index.empty.buildIndex jieba order' (some file') = .ok (built', true) ∧
        SameSearches jieba built built' := by
  have long' : ∀ line ∈ getlines file', 3 ≤ (Index.lineFields line).length :=
    fun line member => long line (same.mem_iff.mpr member)
  have reachable := Index.Reachable.of_long long jieba order
  have reachable' := Index.Reachable.of_long long' jieba order'
  refine ⟨_, _, Index.buildIndex_of_long long jieba order Index.empty,
    Index.buildIndex_of_long long' jieba order' Index.empty, ?_⟩
  intro query traversal traversal' sorting sorting'
  have weighted := weightedElems_perm reachable (jieba.cutString query) traversal sorting
  have weighted' := weightedElems_perm reachable' (jieba.cutString query) traversal' sorting'
  rw [filterMap_weightedElem] at weighted weighted'
  refine ⟨_, _, root_eq reachable _ traversal sorting, root_eq reachable' _ traversal' sorting',
    sameUpToTies_of_perm (pairwise_weight _ _ traversal sorting)
      (pairwise_weight _ _ traversal' sorting') ?_⟩
  exact weighted.trans ((same.filterMap _).trans weighted'.symm)

/-- Two lines in both orders. -/
theorem enumeration_neutral_twoLines :
    ∃ built built',
      Index.empty.buildIndex .singleWord (fun _ => .inOrder _)
          (some (bytes "a\x03b\x03c\nd\x03b\x03f\n")) = .ok (built, true) ∧
        Index.empty.buildIndex .singleWord (fun _ => .inOrder _)
          (some (bytes "d\x03b\x03f\na\x03b\x03c\n")) = .ok (built', true) ∧
        SameSearches .singleWord built built' :=
  enumeration_neutral _ _ _ (List.Perm.swap _ _ _) (by decide)

end BoostDocSearcher.Searcher
