import BoostDocSearcher.Cppjieba.DictTrie
import BoostDocSearcher.Cppjieba.HMMSegment

/-!
# The segmenter of the searcher

A text is cut at separators, each piece is cut by the dictionary, what the dictionary leaves as
single runes is cut by the hidden Markov model, and of every longer word the words of two and of
three runes inside it are emitted before the word itself. Nothing of a text is lost on the way, and
every token is a block of the text that begins and ends between characters.

Texts have fewer than `2 ^ 32` bytes. The decoder never comes to the end of a longer one, which has
no tokens here.
-/

namespace BoostDocSearcher.Cppjieba

variable {W : Type*}

/-! ## Separators -/

namespace PreFilter

/-- `SPECIAL_SEPARATORS`. -/
def specialSeparators : Bytes := bytes " \t\n，。"

/-- `symbols_`, as `ResetSeparators` sets it. -/
def symbols : List Rune :=
  ((decodeRunesInString specialSeparators).getD []).map (·.rune)

/-- `Next`: the range up to the next separator, or the separator alone, and what is left. -/
def next : List RuneStr → List RuneStr × List RuneStr
  | [] => ([], [])
  | rune :: rest =>
      if rune.rune ∈ symbols then
        ([rune], rest)
      else
        (rune :: rest.takeWhile fun rune => rune.rune ∉ symbols,
          rest.dropWhile fun rune => rune.rune ∉ symbols)

theorem length_next_lt (rune : RuneStr) (rest : List RuneStr) :
    (next (rune :: rest)).2.length < (rune :: rest).length := by
  rw [next]
  split
  · exact Nat.lt_succ_self _
  · exact Nat.lt_succ_of_le (List.dropWhile_suffix _).length_le

/-- The loop over `HasNext` and `Next`. -/
def ranges (sentence : List RuneStr) : List (List RuneStr) :=
  match sentence with
  | [] => []
  | rune :: rest => (next (rune :: rest)).1 :: ranges (next (rune :: rest)).2
termination_by sentence.length
decreasing_by exact length_next_lt rune rest

/-- A range is a separator alone, or a nonempty piece without separators. -/
def Piece (range : List RuneStr) : Prop :=
  (∃ rune, range = [rune] ∧ rune.rune ∈ symbols) ∨
    range ≠ [] ∧ ∀ rune ∈ range, rune.rune ∉ symbols

theorem flatten_ranges (sentence : List RuneStr) : (ranges sentence).flatten = sentence := by
  induction sentence using ranges.induct with
  | case1 => rw [ranges, List.flatten_nil]
  | case2 rune rest induction =>
      rw [ranges, List.flatten_cons, induction, next]
      split
      · rfl
      · rw [List.cons_append, List.takeWhile_append_dropWhile]

theorem piece_of_mem_ranges {sentence range : List RuneStr} (member : range ∈ ranges sentence) :
    Piece range := by
  induction sentence using ranges.induct with
  | case1 => simp [ranges] at member
  | case2 rune rest induction =>
      rw [ranges, List.mem_cons] at member
      rcases member with rfl | later
      · rw [next]
        split
        · rename_i separator
          exact .inl ⟨rune, rfl, separator⟩
        · rename_i plain
          refine .inr ⟨List.cons_ne_nil _ _, ?_⟩
          intro other inside
          rcases List.mem_cons.mp inside with rfl | inside
          · exact plain
          · simpa using List.mem_takeWhile_imp inside
      · exact induction later

end PreFilter

/-! ## Dictionary and model together -/

namespace MixSegment

/-- A single rune that the user has not added as a word. -/
def collected (dictTrie : DictTrie W) (word : WordRange) : Bool :=
  word.more.isEmpty && decide (word.left.rune ∉ dictTrie.userDictSingleChineseWord)

theorem flatMap_run {dictTrie : DictTrie W} {run : List WordRange}
    (single : ∀ word ∈ run, collected dictTrie word) :
    run.map (·.left) = run.flatMap (·.runes) := by
  induction run with
  | nil => rfl
  | cons word run induction =>
      obtain ⟨first, rest⟩ := List.forall_mem_cons.mp single
      rw [collected, Bool.and_eq_true, List.isEmpty_iff] at first
      rw [List.map_cons, List.flatMap_cons, induction rest, WordRange.runes, first.1]
      rfl

variable [Weight W]

/-- The loop of `MixSegment::Cut`: runs of single runes are cut again by the model. -/
def mixLoop (dictTrie : DictTrie W) (model : HMMModel W) (words : List WordRange) :
    List WordRange :=
  match words with
  | [] => []
  | word :: rest =>
      if collected dictTrie word then
        let run := word :: rest.takeWhile (collected dictTrie)
        HMMSegment.cut model (run.map (·.left)) ++
          mixLoop dictTrie model (rest.dropWhile (collected dictTrie))
      else
        word :: mixLoop dictTrie model rest
termination_by words.length
decreasing_by
  · exact Nat.lt_succ_of_le (List.dropWhile_suffix _).length_le
  · simp

/-- `MixSegment::Cut` on a run of runes. -/
def cut (dictTrie : DictTrie W) (model : HMMModel W) (runes : List RuneStr) (hmm : Bool) :
    List WordRange :=
  let words := MPSegment.cut dictTrie runes MPSegment.maxWordLength
  if hmm then mixLoop dictTrie model words else words

theorem flatMap_mixLoop (dictTrie : DictTrie W) (model : HMMModel W) (words : List WordRange) :
    (mixLoop dictTrie model words).flatMap (·.runes) = words.flatMap (·.runes) := by
  induction words using mixLoop.induct dictTrie with
  | case1 => rw [mixLoop]
  | case2 word rest lone induction =>
      have single : ∀ other ∈ word :: rest.takeWhile (collected dictTrie),
          collected dictTrie other := by
        intro other member
        rcases List.mem_cons.mp member with rfl | member
        · exact lone
        · exact List.mem_takeWhile_imp member
      rw [mixLoop, if_pos lone, List.flatMap_append, induction, HMMSegment.flatMap_cut,
        flatMap_run single, ← List.flatMap_append, List.cons_append,
        List.takeWhile_append_dropWhile]
  | case3 word rest longer induction =>
      rw [mixLoop, if_neg longer, List.flatMap_cons, List.flatMap_cons, induction]

theorem flatMap_cut (dictTrie : DictTrie W) (model : HMMModel W) (runes : List RuneStr)
    (hmm : Bool) : (cut dictTrie model runes hmm).flatMap (·.runes) = runes := by
  have covers := (@MPSegment.cut_spec _ dictTrie MPSegment.maxWordLength _ runes).1.covers
  cases hmm with
  | false => exact covers
  | true => exact (flatMap_mixLoop dictTrie model _).trans covers

end MixSegment

/-! ## Words for a search -/

/-- `Jieba`, with what a cut for a search uses of it. -/
structure Jieba (W : Type*) where
  /-- `dict_trie_`. -/
  dictTrie : DictTrie W
  /-- `model_`. -/
  model : HMMModel W

namespace QuerySegment

/-- The words of the dictionary with `more + 1` runes inside a longer word, from left to right. -/
def grams (dictTrie : DictTrie W) (more : Nat) : List RuneStr → List WordRange
  | [] => []
  | left :: rest =>
      if more ≤ rest.length then
        let wr : WordRange := ⟨left, rest.take more⟩
        if (dictTrie.find wr.runes).isSome then
          wr :: grams dictTrie more rest
        else
          grams dictTrie more rest
      else
        []

/-- What `QuerySegment::Cut` emits for one word. -/
def wordsOf (dictTrie : DictTrie W) (word : WordRange) : List WordRange :=
  (if word.length > 2 then grams dictTrie 1 word.runes else []) ++
    ((if word.length > 3 then grams dictTrie 2 word.runes else []) ++ [word])

/-- The grams are the words of the dictionary with this number of runes inside the word. -/
theorem mem_grams_iff {dictTrie : DictTrie W} {more : Nat} {runes : List RuneStr}
    {gram : WordRange} :
    gram ∈ grams dictTrie more runes ↔
      gram.length = more + 1 ∧ gram.runes <:+: runes ∧ (dictTrie.find gram.runes).isSome := by
  induction runes with
  | nil =>
      simp only [grams, List.not_mem_nil, List.infix_nil, false_iff]
      rintro ⟨-, empty, -⟩
      exact gram.runes_ne_nil empty
  | cons left rest induction =>
      have begins : gram.runes <+: left :: rest ∧ gram.length = more + 1 ↔
          more ≤ rest.length ∧ gram = ⟨left, rest.take more⟩ := by
        obtain ⟨first, others⟩ := gram
        rw [WordRange.runes, List.cons_prefix_cons, List.prefix_iff_eq_take, WordRange.length,
          WordRange.mk.injEq]
        constructor
        · rintro ⟨⟨rfl, others_eq⟩, length_eq⟩
          obtain rfl : others.length = more := Nat.succ.inj length_eq
          refine ⟨?_, rfl, others_eq⟩
          have lengths := congrArg List.length others_eq
          simp only [List.length_take] at lengths
          omega
        · rintro ⟨inside, rfl, rfl⟩
          rw [List.length_take_of_le inside]
          exact ⟨⟨rfl, rfl⟩, rfl⟩
      rw [List.infix_cons_iff, grams]
      by_cases inside : more ≤ rest.length
      · rw [if_pos inside]
        by_cases found : (dictTrie.find (⟨left, rest.take more⟩ : WordRange).runes).isSome
        · simp only [found, if_true, List.mem_cons, induction]
          constructor
          · rintro (rfl | ⟨length_eq, block, present⟩)
            · have here := begins.mpr ⟨inside, rfl⟩
              exact ⟨here.2, .inl here.1, found⟩
            · exact ⟨length_eq, .inr block, present⟩
          · rintro ⟨length_eq, first | block, present⟩
            · exact .inl (begins.mp ⟨first, length_eq⟩).2
            · exact .inr ⟨length_eq, block, present⟩
        · simp only [found, Bool.false_eq_true, if_false, induction]
          constructor
          · rintro ⟨length_eq, block, present⟩
            exact ⟨length_eq, .inr block, present⟩
          · rintro ⟨length_eq, first | block, present⟩
            · rw [(begins.mp ⟨first, length_eq⟩).2] at present
              exact absurd present found
            · exact ⟨length_eq, block, present⟩
      · rw [if_neg inside]
        simp only [List.not_mem_nil, false_iff]
        rintro ⟨length_eq, first | block, -⟩
        · exact inside (begins.mp ⟨first, length_eq⟩).1
        · have := block.length_le
          rw [WordRange.length_runes] at this
          omega

/-- What is emitted for a word: the word, and inside a longer one the words of the dictionary with
two and with three runes. -/
theorem mem_wordsOf_iff {dictTrie : DictTrie W} {word token : WordRange} :
    token ∈ wordsOf dictTrie word ↔
      token = word ∨
        (token.length = 2 ∨ token.length = 3) ∧ token.length < word.length ∧
          token.runes <:+: word.runes ∧ (dictTrie.find token.runes).isSome := by
  rw [wordsOf, List.mem_append, List.mem_append, List.mem_singleton]
  have listed (more : Nat) :
      token ∈ (if word.length > more + 1 then grams dictTrie more word.runes else []) ↔
        token.length = more + 1 ∧ token.length < word.length ∧ token.runes <:+: word.runes ∧
          (dictTrie.find token.runes).isSome := by
    split
    · rename_i longer
      rw [mem_grams_iff]
      constructor
      · rintro ⟨length_eq, inside⟩
        exact ⟨length_eq, by omega, inside⟩
      · rintro ⟨length_eq, -, inside⟩
        exact ⟨length_eq, inside⟩
    · rename_i short
      simp only [List.not_mem_nil, false_iff]
      omega
  rw [listed 1, listed 2]
  constructor
  · rintro (⟨two, inside⟩ | ⟨three, inside⟩ | rfl)
    · exact .inr ⟨.inl two, inside⟩
    · exact .inr ⟨.inr three, inside⟩
    · exact .inl rfl
  · rintro (rfl | ⟨two | three, inside⟩)
    · exact .inr (.inr rfl)
    · exact .inl ⟨two, inside⟩
    · exact .inr (.inl ⟨three, inside⟩)

section Cut

variable [Weight W]

/-- `QuerySegment::Cut` on a run of runes. -/
def cut (jieba : Jieba W) (runes : List RuneStr) (hmm : Bool) : List WordRange :=
  (MixSegment.cut jieba.dictTrie jieba.model runes hmm).flatMap (wordsOf jieba.dictTrie)

theorem infix_of_mem_cut {jieba : Jieba W} {runes : List RuneStr} {hmm : Bool} {token : WordRange}
    (member : token ∈ cut jieba runes hmm) : token.runes <:+: runes := by
  obtain ⟨word, word_mem, emitted⟩ := List.mem_flatMap.mp member
  have word_block : word.runes <:+: runes := by
    rw [← MixSegment.flatMap_cut jieba.dictTrie jieba.model runes hmm]
    obtain ⟨front, back, split⟩ := List.append_of_mem word_mem
    rw [split, List.flatMap_append, List.flatMap_cons]
    exact ⟨_, _, List.append_assoc _ _ _⟩
  rcases mem_wordsOf_iff.mp emitted with rfl | ⟨-, -, inside, -⟩
  · exact word_block
  · exact inside.trans word_block

end Cut

end QuerySegment

namespace Jieba

variable [Weight W]

/-- The ranges that a segmenter collects for a text. A text that cannot be decoded has no runes. -/
def wordRanges (cutRange : List RuneStr → List WordRange) (sentence : Bytes) : List WordRange :=
  (PreFilter.ranges ((decodeRunesInString sentence).getD [])).flatMap cutRange

/-- The ranges of `Cut`. -/
def mixRanges (jieba : Jieba W) (sentence : Bytes) (hmm : Bool) : List WordRange :=
  wordRanges (fun range => MixSegment.cut jieba.dictTrie jieba.model range hmm) sentence

/-- The ranges of `CutForSearch`. -/
def queryRanges (jieba : Jieba W) (sentence : Bytes) (hmm : Bool) : List WordRange :=
  wordRanges (fun range => QuerySegment.cut jieba range hmm) sentence

/-- `Jieba::Cut`. -/
def cut (jieba : Jieba W) (sentence : Bytes) (hmm : Bool) : List Bytes :=
  getWordsFromWordRanges sentence (jieba.mixRanges sentence hmm)

/-- `Jieba::CutForSearch`. -/
def cutForSearch (jieba : Jieba W) (sentence : Bytes) (hmm : Bool) : List Bytes :=
  getWordsFromWordRanges sentence (jieba.queryRanges sentence hmm)

/-! ## Tokens of a text -/

variable {jieba : Jieba W} {sentence : Bytes} {hmm : Bool}

/-- A cut for a search emits for each word of a plain cut what belongs to it. -/
theorem queryRanges_eq (jieba : Jieba W) (sentence : Bytes) (hmm : Bool) :
    jieba.queryRanges sentence hmm =
      (jieba.mixRanges sentence hmm).flatMap (QuerySegment.wordsOf jieba.dictTrie) :=
  List.flatMap_assoc.symm

theorem flatMap_mixRanges (jieba : Jieba W) (sentence : Bytes) (hmm : Bool) :
    (jieba.mixRanges sentence hmm).flatMap (·.runes) =
      (decodeRunesInString sentence).getD [] := by
  rw [mixRanges, wordRanges, List.flatMap_assoc]
  simp only [MixSegment.flatMap_cut]
  rw [List.flatMap_id', PreFilter.flatten_ranges]

/-- A plain cut loses nothing: its words, put together, are the text. -/
theorem flatten_cut (jieba : Jieba W) (hmm : Bool)
    (decoded : (decodeRunesInString sentence).isSome) :
    (jieba.cut sentence hmm).flatten = sentence := by
  obtain ⟨runes, runes_eq⟩ := Option.isSome_iff_exists.mp decoded
  apply flatten_getWords
  rw [flatMap_mixRanges, runes_eq]
  rfl

/-- A cut for a search emits the words of a plain cut in their order, among others. -/
theorem cut_sublist_cutForSearch (jieba : Jieba W) (sentence : Bytes) (hmm : Bool) :
    (jieba.cut sentence hmm).Sublist (jieba.cutForSearch sentence hmm) := by
  rw [cut, cutForSearch, queryRanges_eq]
  apply List.Sublist.map
  induction jieba.mixRanges sentence hmm with
  | nil => exact List.Sublist.slnil
  | cons word words induction =>
      have last : [word].Sublist (QuerySegment.wordsOf jieba.dictTrie word) := by
        rw [QuerySegment.wordsOf, ← List.append_assoc]
        exact List.sublist_append_right _ _
      rw [List.flatMap_cons]
      exact last.append induction

/-- The ranges of a cut for a search are runs of the runes of the text. -/
theorem infix_of_mem_queryRanges {token : WordRange}
    (member : token ∈ jieba.queryRanges sentence hmm) :
    token.runes <:+: (decodeRunesInString sentence).getD [] := by
  obtain ⟨range, range_mem, token_mem⟩ := List.mem_flatMap.mp member
  refine (QuerySegment.infix_of_mem_cut token_mem).trans ?_
  rw [← PreFilter.flatten_ranges ((decodeRunesInString sentence).getD [])]
  exact List.infix_of_mem_flatten range_mem

theorem exists_token_block {token : Bytes} (member : token ∈ jieba.cutForSearch sentence hmm) :
    ∃ range front back, decodeRunesInString sentence = some (front ++ (range.runes ++ back)) ∧
      token = getWordFromRunes sentence range := by
  obtain ⟨range, range_mem, rfl⟩ := List.mem_map.mp member
  obtain ⟨front, back, split⟩ := infix_of_mem_queryRanges range_mem
  refine ⟨range, front, back, ?_, rfl⟩
  cases decoded : decodeRunesInString sentence with
  | none =>
      rw [decoded] at split
      simp [range.runes_ne_nil] at split
  | some runes =>
      rw [decoded, Option.getD_some, List.append_assoc] at split
      rw [split]

/-- Every token is a nonempty block of the text, and splits no character. -/
theorem token_spec {token : Bytes} (member : token ∈ jieba.cutForSearch sentence hmm) :
    token <:+: sentence ∧ token ≠ [] ∧ (Utf8.Valid sentence → Utf8.Valid token) := by
  obtain ⟨range, front, back, decoded, rfl⟩ := exists_token_block member
  refine ⟨?_, getWordFromRunes_ne_nil decoded, fun valid => valid_getWordFromRunes valid decoded⟩
  obtain ⟨before, after, split⟩ := exists_block decoded
  exact ⟨before, after, by rw [List.append_assoc]; exact split.symm⟩

theorem cutForSearch_eq_nil_iff :
    jieba.cutForSearch sentence hmm = [] ↔
      sentence = [] ∨ decodeRunesInString sentence = none := by
  constructor
  · intro nothing
    cases decoded : decodeRunesInString sentence with
    | none => exact .inr rfl
    | some runes =>
        have words_eq : jieba.cut sentence hmm = [] := by
          apply List.eq_nil_of_sublist_nil
          rw [← nothing]
          exact cut_sublist_cutForSearch jieba sentence hmm
        have whole := @flatten_cut _ _ sentence jieba hmm (by rw [decoded]; rfl)
        rw [words_eq] at whole
        exact .inl whole.symm
  · intro empty
    have no_runes : (decodeRunesInString sentence).getD [] = [] := by
      rcases empty with rfl | failed
      · rfl
      · rw [failed]
        rfl
    have no_ranges := flatMap_mixRanges jieba sentence hmm
    rw [no_runes] at no_ranges
    rw [cutForSearch, queryRanges_eq]
    cases words_eq : jieba.mixRanges sentence hmm with
    | nil => rfl
    | cons word words => simp [words_eq, word.runes_ne_nil] at no_ranges

theorem piece_of_mem_queryRanges {token : WordRange}
    (member : token ∈ jieba.queryRanges sentence hmm) : PreFilter.Piece token.runes := by
  obtain ⟨range, range_mem, token_mem⟩ := List.mem_flatMap.mp member
  have block := QuerySegment.infix_of_mem_cut token_mem
  rcases PreFilter.piece_of_mem_ranges range_mem with ⟨rune, rfl, separator⟩ | ⟨-, plain⟩
  · refine .inl ⟨rune, ?_, separator⟩
    have short := block.length_le
    obtain ⟨left, more⟩ := token
    cases more with
    | nil =>
        have := block.subset (List.mem_singleton_self left)
        rw [List.mem_singleton.mp this]
        rfl
    | cons other more => simp [WordRange.runes] at short
  · exact .inr ⟨token.runes_ne_nil, fun rune inside => plain rune (block.subset inside)⟩

/-- A cut for a search loses nothing and makes nothing up: among its tokens are, in order, words
that put together are the text if it can be decoded, every token is a nonempty block of the text
that splits no character, and none reaches over a separator. -/
theorem cutForSearch_spec (jieba : Jieba W) (sentence : Bytes) (hmm : Bool) :
    ((decodeRunesInString sentence).isSome → (jieba.cut sentence hmm).flatten = sentence) ∧
      (jieba.cut sentence hmm).Sublist (jieba.cutForSearch sentence hmm) ∧
        (∀ token ∈ jieba.cutForSearch sentence hmm,
          token <:+: sentence ∧ token ≠ [] ∧ (Utf8.Valid sentence → Utf8.Valid token)) ∧
            ∀ token ∈ jieba.queryRanges sentence hmm, PreFilter.Piece token.runes :=
  ⟨flatten_cut jieba hmm, cut_sublist_cutForSearch jieba sentence hmm, fun _ => token_spec,
    fun _ => piece_of_mem_queryRanges⟩

/-! ## Words of the files -/

section Files

variable {W : Type} [Weight W]

/-- What a search is cut into: the words of a plain cut, and inside them the shorter words of
two and of three runes that some line of the dictionaries gives. -/
theorem mem_queryRanges_init_iff {floats : Floats W} {unset : W}
    {option : UserWordWeightOption} {dict : Bytes} {users : List Bytes}
    {loaded : DictTrie.Loaded W}
    (finished : DictTrie.init floats unset option (some dict) (users.map some) = some loaded)
    (model : HMMModel W) (sentence : Bytes) (hmm : Bool) (token : WordRange) :
    token ∈ queryRanges { dictTrie := loaded.dictTrie, model } sentence hmm ↔
      ∃ word ∈ mixRanges { dictTrie := loaded.dictTrie, model } sentence hmm, token = word ∨
        (token.length = 2 ∨ token.length = 3) ∧ token.length < word.length ∧
          token.runes <:+: word.runes ∧
            ∃ entry ∈ DictTrie.entries floats loaded dict users,
              entry.word = token.runes.map (·.rune) := by
  rw [queryRanges_eq, List.mem_flatMap]
  simp only [QuerySegment.mem_wordsOf_iff, DictTrie.isSome_find_iff finished token.runes_ne_nil]

/-- A model that tells nothing. -/
def flatModel : HMMModel ℚ where
  startProb := .tabulate fun _ => 0
  transProb := .tabulate fun _ => .tabulate fun _ => 0
  emitProbVec := .tabulate fun _ _ => none

/-- The word `vec` as its three runes. -/
def vecRange : WordRange := ⟨⟨118, 0, 1, 0, 1⟩, [⟨101, 1, 1, 1, 1⟩, ⟨99, 2, 1, 2, 1⟩]⟩

/-- Inside a word of three runes a line of each dictionary gives a word of two. -/
theorem mem_queryRanges_init_words : ∃ loaded,
    DictTrie.init DictTrie.eighthFloats 0 .wordWeightMedian (some DictTrie.words)
        ([DictTrie.userWords].map some) = some loaded ∧
      ∀ token, token ∈
          queryRanges { dictTrie := loaded.dictTrie, model := flatModel } (bytes "vec") true ↔
        token = vecRange ∨ token = ⟨⟨118, 0, 1, 0, 1⟩, [⟨101, 1, 1, 1, 1⟩]⟩ ∨
          token = ⟨⟨101, 1, 1, 1, 1⟩, [⟨99, 2, 1, 2, 1⟩]⟩ := by
  obtain ⟨loaded, finished⟩ := DictTrie.exists_init_words
  have mixed : (DictTrie.init DictTrie.eighthFloats 0 .wordWeightMedian (some DictTrie.words)
      ([DictTrie.userWords].map some)).map (fun loaded =>
        mixRanges { dictTrie := loaded.dictTrie, model := flatModel } (bytes "vec") true) =
      some [vecRange] := by decide +kernel
  rw [finished, Option.map_some] at mixed
  have listed (word : List Rune) :
      (∃ entry ∈ DictTrie.entries DictTrie.eighthFloats loaded DictTrie.words [DictTrie.userWords],
        entry.word = word) ↔ word ∈ [[118, 101, 99], [118, 101], [118, 101], [101, 99]] := by
    rw [← List.mem_map]
    rfl
  refine ⟨loaded, finished, fun token => ?_⟩
  rw [mem_queryRanges_init_iff finished, Option.some.inj mixed]
  simp only [List.mem_singleton, exists_eq_left, listed]
  refine or_congr_right ⟨?_, ?_⟩
  · rintro ⟨two | three, shorter, block, -⟩
    · obtain ⟨left, more⟩ := token
      obtain ⟨other, rfl⟩ := List.length_eq_one_iff.mp (Nat.succ.inj two)
      simpa [WordRange.runes, vecRange, List.infix_cons_iff] using block
    · exact absurd three (Nat.ne_of_lt shorter)
  · rintro (rfl | rfl)
    · exact ⟨.inl rfl, by decide, by decide, by decide⟩
    · exact ⟨.inl rfl, by decide, by decide, by decide⟩

end Files

end Jieba

end BoostDocSearcher.Cppjieba
