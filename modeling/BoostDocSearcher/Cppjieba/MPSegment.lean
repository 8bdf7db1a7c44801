import Mathlib.Data.Finset.Basic
import BoostDocSearcher.Cppjieba.Trie
import BoostDocSearcher.Library.Choice

/-!
# Segmentation of maximal probability

The words of the dictionary are the edges of a graph over the positions of a text. From the last
position back to the first, each position remembers its best edge and the weight of the best way to
the end. The segmentation that follows the best edges is at least as heavy as any other one into
words of the dictionary and single runes.
-/

namespace BoostDocSearcher.Cppjieba

variable {W : Type*}

/-- `DictTrie`, with all that a segmentation reads of it. -/
structure DictTrie (W : Type*) where
  /-- The entries, in the order in which they are inserted. -/
  dictUnits : List (DictUnit W)
  /-- The weight of a rune that is no word. -/
  minWeight : W
  /-- The words of one rune that the user has added. -/
  userDictSingleChineseWord : Finset Rune

/-- `trie_`. -/
def DictTrie.trie (dictTrie : DictTrie W) : TrieNode W :=
  Trie.createTrie dictTrie.dictUnits

/-- `DictTrie::Find` on a run of runes. -/
def DictTrie.find (dictTrie : DictTrie W) (runes : List RuneStr) : Option (DictUnit W) :=
  Trie.find dictTrie.trie runes

/-- One position of the text. -/
structure Dag (W : Type*) where
  /-- The rune at the position. -/
  runestr : RuneStr
  /-- The edges, each with the position of its last rune, counted from this one. -/
  nexts : List (Nat × Option (DictUnit W))
  /-- The entry of the best edge, if it has one. -/
  pInfo : Option (DictUnit W)
  /-- The weight of the best way to the end. -/
  weight : W

namespace MPSegment

/-- `MAX_WORD_LENGTH`. -/
def maxWordLength : Nat := 512

section Definitions

variable [Weight W]

/-- `DictTrie::Find` on a text. -/
def findDags (dictTrie : DictTrie W) (maxWordLen : Nat) : List RuneStr → List (Dag W)
  | [] => []
  | runestr :: rest =>
      { runestr, nexts := Trie.nexts dictTrie.trie maxWordLen runestr rest, pInfo := none,
        weight := 0 } :: findDags dictTrie maxWordLen rest

/-- The weight of an entry, and of a rune that is no word. -/
def unitWeight (dictTrie : DictTrie W) : Option (DictUnit W) → W
  | some p => p.weight
  | none => dictTrie.minWeight

/-- The weight of the way to the end that begins with an edge, where `later` are the positions
behind the edge's own. -/
def edgeWeight (dictTrie : DictTrie W) (later : List (Dag W))
    (edge : Nat × Option (DictUnit W)) : W :=
  let val : W := 0
  let val := match later[edge.1]? with
    | some dag => val + dag.weight
    | none => val
  val + unitWeight dictTrie edge.2

/-- `CalcDP`, from the last position to the first. -/
def calcDP (dictTrie : DictTrie W) : List (Dag W) → List (Dag W)
  | [] => []
  | dag :: dags =>
      let later := calcDP dictTrie dags
      let leader := Choice.best minDouble (edgeWeight dictTrie later) dag.nexts
      { dag with pInfo := leader.1.bind (·.2), weight := leader.2 } :: later

/-- `CutByDag`. The entry of an edge has at least one rune. -/
def cutByDag (runes : List RuneStr) (dags : List (Dag W)) : List WordRange :=
  match runes, dags with
  | rune :: runes, dag :: dags =>
      match dag.pInfo with
      | some p =>
          ⟨rune, runes.take (p.word.length - 1)⟩ ::
            cutByDag (runes.drop (p.word.length - 1)) (dags.drop (p.word.length - 1))
      | none => ⟨rune, []⟩ :: cutByDag runes dags
  | _, _ => []
termination_by dags.length
decreasing_by
  all_goals simp only [List.length_drop, List.length_cons]; omega

/-- `MPSegment::Cut` on a run of runes. -/
def cut (dictTrie : DictTrie W) (runes : List RuneStr) (maxWordLen : Nat) : List WordRange :=
  cutByDag runes (calcDP dictTrie (findDags dictTrie maxWordLen runes))

end Definitions

/-! ## Segmentations -/

/-- A word that a segmentation may use: a single rune, or a word of the dictionary. -/
def Admissible (dictTrie : DictTrie W) (maxWordLen : Nat) (word : WordRange) : Prop :=
  word.length = 1 ∨ word.length ≤ maxWordLen ∧ (dictTrie.find word.runes).isSome

/-- A decomposition of a text into admissible words. -/
structure Segmentation (dictTrie : DictTrie W) (maxWordLen : Nat) (runes : List RuneStr)
    (words : List WordRange) : Prop where
  /-- The words are the text. -/
  covers : words.flatMap (·.runes) = runes
  /-- Every word is admissible. -/
  admissible : ∀ word ∈ words, Admissible dictTrie maxWordLen word

variable {dictTrie : DictTrie W} {maxWordLen : Nat}

theorem mem_nexts_of_admissible {word : WordRange} (rest : List RuneStr)
    (allowed : Admissible dictTrie maxWordLen word) :
    (word.more.length, dictTrie.find word.runes) ∈
      Trie.nexts dictTrie.trie maxWordLen word.left (word.more ++ rest) := by
  rw [Trie.mem_nexts_iff]
  refine ⟨?_, ?_⟩
  · rw [List.take_succ_cons, List.take_left]
    rfl
  · rcases allowed with single | ⟨length_le, present⟩
    · exact .inl (Nat.succ.inj single)
    · refine .inr ⟨present, ?_, length_le⟩
      rw [List.length_append]
      omega

variable [Weight W]

/-- The weight of a segmentation: the sum of its words, which never falls below that of the
impossible. -/
def score (dictTrie : DictTrie W) : List WordRange → W
  | [] => 0
  | word :: words =>
      Choice.clamped minDouble
        (score dictTrie words + unitWeight dictTrie (dictTrie.find word.runes))

/-- The weight of the best way from the first position to the end. -/
def bestWeight (dictTrie : DictTrie W) (maxWordLen : Nat) (runes : List RuneStr) : W :=
  match calcDP dictTrie (findDags dictTrie maxWordLen runes) with
  | [] => 0
  | dag :: _ => dag.weight

/-- What is computed for a position depends only on the text from there on. -/
theorem drop_calcDP (runes : List RuneStr) (count : Nat) :
    (calcDP dictTrie (findDags dictTrie maxWordLen runes)).drop count =
      calcDP dictTrie (findDags dictTrie maxWordLen (runes.drop count)) := by
  induction runes generalizing count with
  | nil => simp [findDags, calcDP]
  | cons runestr rest induction =>
      cases count with
      | zero => rfl
      | succ count => exact induction count

theorem edgeWeight_eq (rest : List RuneStr) (edge : Nat × Option (DictUnit W)) :
    edgeWeight dictTrie (calcDP dictTrie (findDags dictTrie maxWordLen rest)) edge =
      bestWeight dictTrie maxWordLen (rest.drop edge.1) + unitWeight dictTrie edge.2 := by
  rw [edgeWeight, bestWeight, ← drop_calcDP]
  generalize calcDP dictTrie (findDags dictTrie maxWordLen rest) = later
  rw [← List.head?_drop]
  cases later.drop edge.1 with
  | nil => rfl
  | cons dag dags =>
      simp only [List.head?_cons]
      rw [zero_add]

theorem calcDP_cons (runestr : RuneStr) (rest : List RuneStr) :
    ∃ leader, leader = Choice.best minDouble
        (fun edge => bestWeight dictTrie maxWordLen (rest.drop edge.1) + unitWeight dictTrie edge.2)
        (Trie.nexts dictTrie.trie maxWordLen runestr rest) ∧
      bestWeight dictTrie maxWordLen (runestr :: rest) = leader.2 ∧
      calcDP dictTrie (findDags dictTrie maxWordLen (runestr :: rest)) =
        ⟨runestr, Trie.nexts dictTrie.trie maxWordLen runestr rest, leader.1.bind (·.2),
          leader.2⟩ :: calcDP dictTrie (findDags dictTrie maxWordLen rest) := by
  have values : edgeWeight dictTrie (calcDP dictTrie (findDags dictTrie maxWordLen rest)) =
      fun edge =>
        bestWeight dictTrie maxWordLen (rest.drop edge.1) + unitWeight dictTrie edge.2 :=
    funext (edgeWeight_eq rest)
  refine ⟨_, rfl, ?_, ?_⟩
  · rw [bestWeight, findDags, calcDP, values]
  · rw [findDags, calcDP, values]

/-- No segmentation is heavier than what is computed for the first position. -/
theorem score_le_bestWeight {runes : List RuneStr} {words : List WordRange}
    (segmentation : Segmentation dictTrie maxWordLen runes words) :
    score dictTrie words ≤ bestWeight dictTrie maxWordLen runes := by
  obtain ⟨covers, admissible⟩ := segmentation
  subst covers
  induction words with
  | nil => exact le_refl _
  | cons word words induction =>
      have later := induction fun other member => admissible other (List.mem_cons_of_mem _ member)
      have edge := mem_nexts_of_admissible (words.flatMap (·.runes))
        (admissible word List.mem_cons_self)
      obtain ⟨leader, rfl, weight_eq, -⟩ := @calcDP_cons _ dictTrie maxWordLen _ word.left
        (word.more ++ words.flatMap (·.runes))
      rw [List.flatMap_cons, WordRange.runes, List.cons_append, weight_eq, score]
      refine le_trans (Choice.clamped_mono ?_) (Choice.clamped_le_best edge)
      rw [List.drop_left]
      exact Weight.add_mono later (le_refl _)

/-- A cut begins with this word and goes on with the cut of what is left. -/
structure FirstWord (dictTrie : DictTrie W) (maxWordLen : Nat) (runes : List RuneStr)
    (word : WordRange) (left : List RuneStr) : Prop where
  /-- The word begins the text. -/
  runes_eq : runes = word.runes ++ left
  /-- The word is admissible. -/
  admissible : Admissible dictTrie maxWordLen word
  /-- The rest of the text is cut on its own. -/
  cut_eq : cut dictTrie runes maxWordLen = word :: cut dictTrie left maxWordLen
  /-- The best way to the end begins with the word. -/
  weight_eq : bestWeight dictTrie maxWordLen runes =
    Choice.clamped minDouble
      (bestWeight dictTrie maxWordLen left + unitWeight dictTrie (dictTrie.find word.runes))

/-- What `CutByDag` cuts at a position: the word of the best edge, which is a word of the
dictionary, or the rune alone. -/
theorem exists_firstWord (runestr : RuneStr) (rest : List RuneStr) :
    ∃ word left, FirstWord dictTrie maxWordLen (runestr :: rest) word left := by
  obtain ⟨leader, leader_eq, weight_eq, dags_eq⟩ :=
    @calcDP_cons _ dictTrie maxWordLen _ runestr rest
  have alone : (0, dictTrie.find [runestr]) ∈ Trie.nexts dictTrie.trie maxWordLen runestr rest :=
    Trie.mem_nexts_iff.mpr ⟨rfl, .inl rfl⟩
  rcases @Choice.best_cases _ _ _ minDouble
      (fun edge => bestWeight dictTrie maxWordLen (rest.drop edge.1) + unitWeight dictTrie edge.2)
      (Trie.nexts dictTrie.trie maxWordLen runestr rest) with
    ⟨nothing, below⟩ | ⟨⟨nextPos, p⟩, edge, chosen, above, -⟩
  · rw [nothing] at leader_eq
    subst leader_eq
    refine ⟨⟨runestr, []⟩, rest, rfl, .inl rfl, ?_, ?_⟩
    · rw [cut, dags_eq, cutByDag]
      rfl
    · rw [weight_eq]
      exact (max_eq_left (below _ alone)).symm
  · rw [chosen] at leader_eq
    subst leader_eq
    obtain ⟨found, reach⟩ := Trie.mem_nexts_iff.mp edge
    cases p with
    | none =>
        obtain rfl : nextPos = 0 := by simpa using reach
        have find_eq : dictTrie.find (⟨runestr, []⟩ : WordRange).runes = none := found
        refine ⟨⟨runestr, []⟩, rest, rfl, .inl rfl, ?_, ?_⟩
        · rw [cut, dags_eq, cutByDag]
          rfl
        · rw [weight_eq, find_eq]
          exact (max_eq_right above).symm
    | some p =>
        have inside : nextPos ≤ rest.length := by
          rcases reach with first | ⟨-, inside, -⟩ <;> omega
        have word_length : p.word.length - 1 = nextPos := by
          rw [Trie.word_of_find found]
          simp [inside]
        have runes_eq : (⟨runestr, rest.take nextPos⟩ : WordRange).runes =
            (runestr :: rest).take (nextPos + 1) := rfl
        have find_eq : dictTrie.find (⟨runestr, rest.take nextPos⟩ : WordRange).runes = some p := by
          rw [runes_eq]
          exact found
        refine ⟨⟨runestr, rest.take nextPos⟩, rest.drop nextPos, ?_, ?_, ?_, ?_⟩
        · rw [runes_eq, List.take_succ_cons, List.cons_append, List.take_append_drop]
        · rcases reach with rfl | ⟨-, -, length_le⟩
          · exact .inl rfl
          · refine .inr ⟨?_, by rw [find_eq]; rfl⟩
            rw [WordRange.length, List.length_take_of_le inside]
            exact length_le
        · rw [cut, dags_eq, cutByDag]
          simp only [Option.bind_some, word_length]
          rw [drop_calcDP, cut]
        · rw [weight_eq, find_eq]
          exact (max_eq_right above).symm

/-- The segmentation that follows the best edges has the weight that is computed for the first
position. -/
theorem cut_spec (runes : List RuneStr) :
    Segmentation dictTrie maxWordLen runes (cut dictTrie runes maxWordLen) ∧
      score dictTrie (cut dictTrie runes maxWordLen) = bestWeight dictTrie maxWordLen runes := by
  cases runes with
  | nil =>
      have empty : cut dictTrie [] maxWordLen = [] := by simp [cut, cutByDag]
      rw [empty]
      exact ⟨⟨rfl, by simp⟩, rfl⟩
  | cons runestr rest =>
      obtain ⟨word, left, runes_eq, allowed, cut_eq, weight_eq⟩ :=
        @exists_firstWord _ dictTrie maxWordLen _ runestr rest
      have shorter : left.length < (runestr :: rest).length := by
        have := WordRange.length_runes word
        rw [runes_eq, List.length_append, this, WordRange.length]
        omega
      obtain ⟨⟨covers, admissible⟩, score_eq⟩ := cut_spec left
      rw [cut_eq]
      refine ⟨⟨?_, ?_⟩, ?_⟩
      · rw [List.flatMap_cons, covers, runes_eq]
      · intro other member
        rcases List.mem_cons.mp member with rfl | member
        · exact allowed
        · exact admissible other member
      · rw [score, score_eq, weight_eq]
termination_by runes.length
decreasing_by exact shorter

/-- The segmentation is optimal: it decomposes the text into words of the dictionary and single
runes, and no other such decomposition is heavier. -/
theorem cut_optimal (dictTrie : DictTrie W) (maxWordLen : Nat) (runes : List RuneStr) :
    Segmentation dictTrie maxWordLen runes (cut dictTrie runes maxWordLen) ∧
      ∀ words, Segmentation dictTrie maxWordLen runes words →
        score dictTrie words ≤ score dictTrie (cut dictTrie runes maxWordLen) := by
  obtain ⟨segmentation, score_eq⟩ := @cut_spec _ dictTrie maxWordLen _ runes
  refine ⟨segmentation, ?_⟩
  intro words other
  rw [score_eq]
  exact score_le_bestWeight other

end MPSegment

end BoostDocSearcher.Cppjieba
