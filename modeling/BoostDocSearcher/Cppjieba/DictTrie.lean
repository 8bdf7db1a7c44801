import Mathlib.Data.Finset.Dedup
import Mathlib.Data.List.Sort
import BoostDocSearcher.Cppjieba.MPSegment

/-!
# Loading the dictionary

The dictionary is read line by line, first the one of the repository and then those of the user.
Frequencies become weights, the smallest of them is the weight of what is no word, and words of the
user get the median unless they come with a frequency of their own. A word that cannot be decoded
leaves an entry without runes, which is found nowhere, and one that comes twice has the weight of
its last line.
-/

namespace BoostDocSearcher.Cppjieba

/-- `limonp::Split` at one byte. The loop ends with the text, so that nothing comes behind a last
separator. -/
def Limonp.split (src : Bytes) (separator : Byte) : List Bytes :=
  Delimited.records separator src

/-- What is done with numbers besides adding and comparing them. -/
structure Floats (W : Type) where
  /-- `atof`. -/
  atof : Bytes → W
  /-- `atoi`, whose value is then converted. -/
  atoi : Bytes → W
  /-- Division. -/
  div : W → W → W
  /-- `log`. -/
  log : W → W

/-- `UserWordWeightOption`. -/
inductive UserWordWeightOption where
  /-- The smallest weight. -/
  | wordWeightMin
  /-- The weight in the middle. -/
  | wordWeightMedian
  /-- The greatest weight. -/
  | wordWeightMax
  deriving DecidableEq, Repr

variable {W : Type}

namespace DictTrie

/-! ## Entries -/

/-- `MakeNodeInfo`. A word that cannot be decoded leaves no runes, and the old weight. -/
def makeNodeInfo (nodeInfo : DictUnit W) (word : Bytes) (weight : W) : DictUnit W :=
  match decodeRunesInString word with
  | some runes => { word := runes.map (·.rune), weight }
  | none => { nodeInfo with word := [] }

/-- The loop of `LoadDict`, in which all lines share one entry. A line without three columns ends
the process. -/
def loadDict (floats : Floats W) (nodeInfo : DictUnit W) : List Bytes → Option (List (DictUnit W))
  | [] => some []
  | line :: lines =>
      match Limonp.split line space with
      | [word, freq, _] => do
          let nodeInfo := makeNodeInfo nodeInfo word (floats.atof freq)
          let nodeInfos ← loadDict floats nodeInfo lines
          return nodeInfo :: nodeInfos
      | _ => none

section Weights

variable [Weight W]

/-- `CalcFreqSum`. -/
def calcFreqSum (nodeInfos : List (DictUnit W)) : W :=
  nodeInfos.foldl (fun sum nodeInfo => sum + nodeInfo.weight) 0

/-- The weight of a frequency. -/
def logWeight (floats : Floats W) (sum freq : W) : W :=
  floats.log (floats.div freq sum)

/-- `CalculateWeight`, with its assertions. -/
def calculateWeight (floats : Floats W) (nodeInfos : List (DictUnit W)) (sum : W) :
    Option (List (DictUnit W)) :=
  if 0 < sum ∧ ∀ nodeInfo ∈ nodeInfos, 0 < nodeInfo.weight then
    some (nodeInfos.map fun nodeInfo =>
      { nodeInfo with weight := logWeight floats sum nodeInfo.weight })
  else
    none

/-- `SetStaticWordWeights`: the smallest weight, and the default for words of the user. -/
def setStaticWordWeights (option : UserWordWeightOption) (nodeInfos : List (DictUnit W)) :
    Option (W × W) := do
  let x := (nodeInfos.map (·.weight)).insertionSort (· ≤ ·)
  let minWeight ← x[0]?
  let maxWeight ← x[x.length - 1]?
  let medianWeight ← x[x.length / 2]?
  return (minWeight, match option with
    | .wordWeightMin => minWeight
    | .wordWeightMedian => medianWeight
    | .wordWeightMax => maxWeight)

/-- `InserUserDictNode`, up to the set of single runes. An entry begins without runes and with any
weight. -/
def inserUserDictNode (floats : Floats W) (nodeInfo : DictUnit W) (freqSum defaultWeight : W)
    (line : Bytes) : Option (DictUnit W) :=
  match Limonp.split line space with
  | [word] => some (makeNodeInfo nodeInfo word defaultWeight)
  | [word, _] => some (makeNodeInfo nodeInfo word defaultWeight)
  | [word, freq, _] =>
      if 0 < freqSum then
        some (makeNodeInfo nodeInfo word (logWeight floats freqSum (floats.atoi freq)))
      else
        none
  | _ => some nodeInfo

/-- The lines that `LoadUserDict` reads of its files. -/
def userLines (files : List Bytes) : List Bytes :=
  (files.flatMap getlines).filter fun line => !line.isEmpty

/-- `DictTrie` behind `Init`. -/
structure Loaded (W : Type) where
  /-- The entries of the dictionary, and then those of the user. -/
  staticNodeInfos : List (DictUnit W)
  /-- `freq_sum_`. -/
  freqSum : W
  /-- `min_weight_`. -/
  minWeight : W
  /-- `user_word_default_weight_`. -/
  userWordDefaultWeight : W
  /-- `user_dict_single_chinese_word_`. -/
  userDictSingleChineseWord : Finset Rune

/-- `Init`, with the files as far as they can be opened, and `none` where the process is aborted.
The entries that are not set yet are given. -/
def init (floats : Floats W) (unset : W) (option : UserWordWeightOption) (dict : Option Bytes)
    (users : List (Option Bytes)) : Option (Loaded W) := do
  let dictFile ← dict
  let nodeInfos ← loadDict floats ⟨[], unset⟩ (getlines dictFile)
  let freqSum := calcFreqSum nodeInfos
  let nodeInfos ← calculateWeight floats nodeInfos freqSum
  let (minWeight, defaultWeight) ← setStaticWordWeights option nodeInfos
  let userFiles ← users.mapM id
  let userInfos ←
    (userLines userFiles).mapM (inserUserDictNode floats ⟨[], unset⟩ freqSum defaultWeight)
  return {
    staticNodeInfos := nodeInfos ++ userInfos
    freqSum
    minWeight
    userWordDefaultWeight := defaultWeight
    userDictSingleChineseWord :=
      (userInfos.filterMap fun nodeInfo =>
        match nodeInfo.word with
        | [rune] => some rune
        | _ => none).toFinset }

end Weights

/-- What a segmentation reads of a dictionary. -/
def Loaded.dictTrie (loaded : Loaded W) : DictTrie W where
  dictUnits := loaded.staticNodeInfos
  minWeight := loaded.minWeight
  userDictSingleChineseWord := loaded.userDictSingleChineseWord

/-! ## The entry of a line -/

/-- The runes of a word, and none if it cannot be decoded. -/
def runesOf (word : Bytes) : List Rune :=
  ((decodeRunesInString word).getD []).map (·.rune)

/-- Two entries that say the same, as far as they can be found. -/
def Agree (nodeInfo entry : DictUnit W) : Prop :=
  nodeInfo.word = entry.word ∧ (entry.word ≠ [] → nodeInfo.weight = entry.weight)

theorem agree_makeNodeInfo (nodeInfo : DictUnit W) (word : Bytes) (weight : W) :
    Agree (makeNodeInfo nodeInfo word weight) ⟨runesOf word, weight⟩ := by
  rw [makeNodeInfo, runesOf]
  cases decodeRunesInString word with
  | some runes => exact ⟨rfl, fun _ => rfl⟩
  | none => exact ⟨rfl, fun nonempty => absurd rfl nonempty⟩

theorem findRev?_of_agree {nodeInfos entries : List (DictUnit W)}
    (agree : List.Forall₂ Agree nodeInfos entries) {key : List Rune} (nonempty : key ≠ []) :
    (nodeInfos.findRev? fun nodeInfo => nodeInfo.word = key) =
      entries.findRev? fun entry => entry.word = key := by
  induction agree with
  | nil => rfl
  | @cons nodeInfo entry nodeInfos entries first _ induction =>
      obtain ⟨word_eq, weight_eq⟩ := first
      rw [List.findRev?, List.findRev?, induction]
      split
      · rfl
      · rw [word_eq]
        split
        · rename_i found
          have entry_ne : entry.word ≠ [] := by
            rintro empty
            exact nonempty (by simpa [empty] using found)
          obtain ⟨word, weight⟩ := nodeInfo
          obtain rfl : word = entry.word := word_eq
          rw [show weight = entry.weight from weight_eq entry_ne]
        · rfl

/-- A column of a line. -/
def column (line : Bytes) (position : Nat) : Bytes :=
  (Limonp.split line space).getD position []

/-- The entries of the dictionary are those of its lines, one by one. -/
theorem forall₂_of_loadDict {floats : Floats W} {nodeInfo : DictUnit W} {lines : List Bytes}
    {nodeInfos : List (DictUnit W)} (loaded : loadDict floats nodeInfo lines = some nodeInfos) :
    List.Forall₂ (fun nodeInfo line =>
      Agree nodeInfo ⟨runesOf (column line 0), floats.atof (column line 1)⟩) nodeInfos lines := by
  induction lines generalizing nodeInfo nodeInfos with
  | nil =>
      obtain rfl := Option.some.inj loaded
      exact .nil
  | cons line lines induction =>
      rw [loadDict] at loaded
      split at loaded
      · rename_i word freq tag columns
        obtain ⟨others, later, nodeInfos_eq⟩ := Option.bind_eq_some_iff.mp loaded
        obtain rfl := Option.some.inj nodeInfos_eq
        refine .cons ?_ (induction later)
        rw [column, column, columns]
        exact agree_makeNodeInfo nodeInfo word (floats.atof freq)
      · contradiction

/-- The frequencies that the lines of the dictionary leave, one for each. A line whose word cannot
be decoded leaves that of the line before it. -/
def frequencies (floats : Floats W) (last : W) : List Bytes → List W
  | [] => []
  | line :: lines =>
      let freq := if (decodeRunesInString (column line 0)).isSome then floats.atof (column line 1)
        else last
      freq :: frequencies floats freq lines

theorem map_weight_loadDict {floats : Floats W} {nodeInfo : DictUnit W} {lines : List Bytes}
    {nodeInfos : List (DictUnit W)} (loaded : loadDict floats nodeInfo lines = some nodeInfos) :
    nodeInfos.map (·.weight) = frequencies floats nodeInfo.weight lines := by
  induction lines generalizing nodeInfo nodeInfos with
  | nil =>
      obtain rfl := Option.some.inj loaded
      rfl
  | cons line lines induction =>
      rw [loadDict] at loaded
      split at loaded
      · rename_i word freq tag columns
        obtain ⟨others, later, nodeInfos_eq⟩ := Option.bind_eq_some_iff.mp loaded
        obtain rfl := Option.some.inj nodeInfos_eq
        have weight_eq : (makeNodeInfo nodeInfo word (floats.atof freq)).weight =
            if (decodeRunesInString word).isSome then floats.atof freq else nodeInfo.weight := by
          rw [makeNodeInfo]
          cases decodeRunesInString word <;> rfl
        rw [List.map_cons, induction later, frequencies, column, column, columns, weight_eq]
        rfl
      · contradiction

/-- What a line of the dictionary says. -/
def staticEntry (floats : Floats W) (freqSum : W) (line : Bytes) : DictUnit W where
  word := runesOf (column line 0)
  weight := logWeight floats freqSum (floats.atof (column line 1))

/-- What a line of the user says. With other than one to three columns it says nothing. -/
def userEntry (floats : Floats W) (freqSum defaultWeight : W) (line : Bytes) : DictUnit W :=
  match (Limonp.split line space).length with
  | 1 | 2 => ⟨runesOf (column line 0), defaultWeight⟩
  | 3 => ⟨runesOf (column line 0), logWeight floats freqSum (floats.atoi (column line 1))⟩
  | _ => ⟨[], defaultWeight⟩

theorem weight_userEntry {floats : Floats W} {freqSum defaultWeight : W} {line : Bytes}
    (unweighted : (Limonp.split line space).length ≠ 3) :
    (userEntry floats freqSum defaultWeight line).weight = defaultWeight := by
  rw [userEntry]
  split
  · rfl
  · rfl
  · contradiction
  · rfl

section Entries

variable [Weight W] {floats : Floats W} {unset : W} {option : UserWordWeightOption}

theorem agree_inserUserDictNode {freqSum defaultWeight : W} {line : Bytes} {nodeInfo : DictUnit W}
    (inserted : inserUserDictNode floats ⟨[], unset⟩ freqSum defaultWeight line =
      some nodeInfo) : Agree nodeInfo (userEntry floats freqSum defaultWeight line) := by
  rw [inserUserDictNode] at inserted
  rw [userEntry, column, column]
  split at inserted
  · rename_i word columns
    obtain rfl := Option.some.inj inserted
    rw [columns]
    exact agree_makeNodeInfo _ word defaultWeight
  · rename_i word tag columns
    obtain rfl := Option.some.inj inserted
    rw [columns]
    exact agree_makeNodeInfo _ word defaultWeight
  · rename_i word freq tag columns
    split at inserted
    · obtain rfl := Option.some.inj inserted
      rw [columns]
      exact agree_makeNodeInfo _ word _
    · contradiction
  · rename_i one two three
    obtain rfl := Option.some.inj inserted
    have silent : (⟨[], unset⟩ : DictUnit W).word = [] := rfl
    split
    · rename_i length_eq
      obtain ⟨word, columns⟩ := List.length_eq_one_iff.mp length_eq
      exact absurd columns (one word)
    · rename_i length_eq
      obtain ⟨word, tag, columns⟩ := List.length_eq_two.mp length_eq
      exact absurd columns (two word tag)
    · rename_i length_eq
      obtain ⟨word, freq, tag, columns⟩ := List.length_eq_three.mp length_eq
      exact absurd columns (three word freq tag)
    · exact ⟨rfl, fun nonempty => absurd rfl nonempty⟩

/-! ## Weights of the dictionary -/

/-- A weight that stands at a position when the weights are put in order. -/
structure Ranked (weights : List W) (position : Nat) (weight : W) : Prop where
  /-- It is one of the weights. -/
  member : weight ∈ weights
  /-- No more weights are smaller than there are positions before it. -/
  below : weights.countP (· < weight) ≤ position
  /-- No more weights are greater than there are positions behind it. -/
  above : position + weights.countP (weight < ·) < weights.length

/-- Where the default for words of the user stands among so many weights. -/
def defaultPosition (option : UserWordWeightOption) (count : Nat) : Nat :=
  match option with
  | .wordWeightMin => 0
  | .wordWeightMedian => count / 2
  | .wordWeightMax => count - 1

theorem Ranked.le {weights : List W} {weight other : W} (least : Ranked weights 0 weight)
    (member : other ∈ weights) : weight ≤ other := by
  have nothing := List.countP_eq_zero.mp (Nat.le_zero.mp least.below) other member
  simpa using nothing

theorem ranked_of_insertionSort {weights : List W} {position : Nat} {weight : W}
    (placed : (weights.insertionSort (· ≤ ·))[position]? = some weight) :
    Ranked weights position weight := by
  have sorted := List.pairwise_insertionSort (· ≤ ·) weights
  have same := List.perm_insertionSort (· ≤ ·) weights
  generalize weights.insertionSort (· ≤ ·) = x at placed sorted same
  obtain ⟨inside, rfl⟩ := List.getElem?_eq_some_iff.mp placed
  obtain ⟨front, weight, back, rfl, front_length, weight_eq⟩ : ∃ front weight back,
      x = front ++ weight :: back ∧ front.length = position ∧ x[position] = weight := by
    refine ⟨x.take position, x[position], x.drop (position + 1), ?_,
      List.length_take_of_le inside.le, rfl⟩
    rw [← List.drop_eq_getElem_cons inside, List.take_append_drop]
  rw [weight_eq]
  rw [List.pairwise_append, List.pairwise_cons] at sorted
  obtain ⟨-, ⟨greater, -⟩, smaller⟩ := sorted
  have few : front.countP (· < weight) ≤ front.length := List.countP_le_length
  have many : back.countP (weight < ·) ≤ back.length := List.countP_le_length
  refine ⟨same.mem_iff.mp (by simp), ?_, ?_⟩
  · have none_smaller : back.countP (· < weight) = 0 := by
      rw [List.countP_eq_zero]
      intro other member
      simpa using greater other member
    rw [← same.countP_eq, List.countP_append, List.countP_cons, none_smaller]
    simp only [lt_self_iff_false, decide_false, Bool.false_eq_true, if_false]
    omega
  · have none_greater : front.countP (weight < ·) = 0 := by
      rw [List.countP_eq_zero]
      intro other member
      simpa using smaller other member weight List.mem_cons_self
    rw [← same.countP_eq, ← same.length_eq, List.countP_append, List.countP_cons, none_greater,
      List.length_append, List.length_cons]
    simp only [lt_self_iff_false, decide_false, Bool.false_eq_true, if_false]
    omega

theorem ranked_of_setStaticWordWeights {nodeInfos : List (DictUnit W)}
    {minWeight defaultWeight : W}
    (set : setStaticWordWeights option nodeInfos = some (minWeight, defaultWeight)) :
    Ranked (nodeInfos.map (·.weight)) 0 minWeight ∧
      Ranked (nodeInfos.map (·.weight)) (defaultPosition option nodeInfos.length)
        defaultWeight := by
  have length_eq := List.length_insertionSort (· ≤ ·) (nodeInfos.map (·.weight))
  rw [List.length_map] at length_eq
  rw [setStaticWordWeights] at set
  obtain ⟨first, first_eq, set⟩ := Option.bind_eq_some_iff.mp set
  obtain ⟨last, last_eq, set⟩ := Option.bind_eq_some_iff.mp set
  obtain ⟨middle, middle_eq, set⟩ := Option.bind_eq_some_iff.mp set
  obtain ⟨rfl, rfl⟩ := Prod.mk.inj (Option.some.inj set)
  rw [length_eq] at last_eq middle_eq
  refine ⟨ranked_of_insertionSort first_eq, ?_⟩
  cases option with
  | wordWeightMin => exact ranked_of_insertionSort first_eq
  | wordWeightMedian => exact ranked_of_insertionSort middle_eq
  | wordWeightMax => exact ranked_of_insertionSort last_eq

/-! ## The dictionary behind all lines -/

/-- What `Init` does with the lines of its files. -/
structure Loads (floats : Floats W) (unset : W) (option : UserWordWeightOption) (dict : Bytes)
    (users : List Bytes) (loaded : Loaded W) (nodeInfos userInfos : List (DictUnit W)) :
    Prop where
  /-- The lines of the dictionary are read one by one. -/
  static : List.Forall₂ (fun nodeInfo line =>
    Agree nodeInfo ⟨runesOf (column line 0), floats.atof (column line 1)⟩) nodeInfos (getlines dict)
  /-- The lines of the user are read one by one. -/
  user : List.Forall₂ (fun nodeInfo line =>
    Agree nodeInfo (userEntry floats loaded.freqSum loaded.userWordDefaultWeight line))
    userInfos (userLines users)
  /-- The frequencies of the dictionary are those that its lines leave. -/
  weights : nodeInfos.map (·.weight) = frequencies floats unset (getlines dict)
  /-- Their sum is kept. -/
  freqSum_eq : loaded.freqSum = calcFreqSum nodeInfos
  /-- The weights of words of the dictionary are logarithms. -/
  units_eq : loaded.staticNodeInfos =
    nodeInfos.map (fun nodeInfo =>
      { nodeInfo with weight := logWeight floats loaded.freqSum nodeInfo.weight }) ++ userInfos
  /-- The smallest weight and the default are weights of the dictionary. -/
  weights_eq : setStaticWordWeights option (nodeInfos.map fun nodeInfo =>
      { nodeInfo with weight := logWeight floats loaded.freqSum nodeInfo.weight }) =
    some (loaded.minWeight, loaded.userWordDefaultWeight)

theorem exists_loads {dict : Bytes} {users : List Bytes} {loaded : Loaded W}
    (finished : init floats unset option (some dict) (users.map some) = some loaded) :
    ∃ nodeInfos userInfos,
      Loads floats unset option dict users loaded nodeInfos userInfos := by
  have opened : (users.map some).mapM id = some users := by
    rw [List.mapM_map]
    exact (@List.mapM_pure Option _ _ _ _ users id).trans (congrArg some (List.map_id users))
  rw [init, Option.bind_eq_bind, Option.bind_some] at finished
  obtain ⟨nodeInfos, read, finished⟩ := Option.bind_eq_some_iff.mp finished
  obtain ⟨weighted, calculated, finished⟩ := Option.bind_eq_some_iff.mp finished
  obtain ⟨⟨minWeight, defaultWeight⟩, set, finished⟩ := Option.bind_eq_some_iff.mp finished
  dsimp only at finished
  rw [opened, Option.bind_eq_bind, Option.bind_some] at finished
  obtain ⟨userInfos, inserted, finished⟩ := Option.bind_eq_some_iff.mp finished
  obtain rfl := Option.some.inj finished
  rw [calculateWeight] at calculated
  split at calculated
  · obtain rfl := Option.some.inj calculated
    refine ⟨nodeInfos, userInfos, forall₂_of_loadDict read, ?_, map_weight_loadDict read, rfl, rfl,
      set⟩
    have each (lines : List Bytes) (infos : List (DictUnit W))
        (mapped : lines.mapM (inserUserDictNode floats ⟨[], unset⟩ (calcFreqSum nodeInfos)
          defaultWeight) = some infos) :
        List.Forall₂ (fun nodeInfo line =>
          Agree nodeInfo (userEntry floats (calcFreqSum nodeInfos) defaultWeight line))
          infos lines := by
      induction lines generalizing infos with
      | nil =>
          obtain rfl := Option.some.inj mapped
          exact .nil
      | cons line lines induction =>
          rw [List.mapM_cons] at mapped
          obtain ⟨nodeInfo, first, mapped⟩ := Option.bind_eq_some_iff.mp mapped
          obtain ⟨others, later, mapped⟩ := Option.bind_eq_some_iff.mp mapped
          obtain rfl := Option.some.inj mapped
          exact .cons (agree_inserUserDictNode first) (induction others later)
    exact each _ _ inserted
  · contradiction

/-- What the lines of the dictionary and then those of the user say. -/
def entries (floats : Floats W) (loaded : Loaded W) (dict : Bytes) (users : List Bytes) :
    List (DictUnit W) :=
  (getlines dict).map (staticEntry floats loaded.freqSum) ++
    (userLines users).map (userEntry floats loaded.freqSum loaded.userWordDefaultWeight)

theorem agree_staticNodeInfos {dict : Bytes} {users : List Bytes} {loaded : Loaded W}
    (finished : init floats unset option (some dict) (users.map some) = some loaded) :
    List.Forall₂ Agree loaded.staticNodeInfos (entries floats loaded dict users) := by
  obtain ⟨nodeInfos, userInfos, loads⟩ := exists_loads finished
  rw [loads.units_eq, entries]
  refine List.rel_append ?_ ?_
  · rw [List.forall₂_map_left_iff, List.forall₂_map_right_iff]
    refine loads.static.imp fun nodeInfo line agree => ⟨agree.1, fun filled => ?_⟩
    rw [agree.2 filled]
    rfl
  · rw [List.forall₂_map_right_iff]
    exact loads.user

/-- A run of runes is a word of the dictionary exactly when some line says so. -/
theorem isSome_find_iff {dict : Bytes} {users : List Bytes} {loaded : Loaded W}
    (finished : init floats unset option (some dict) (users.map some) = some loaded)
    {runes : List RuneStr} (nonempty : runes ≠ []) :
    (loaded.dictTrie.find runes).isSome ↔
      ∃ entry ∈ entries floats loaded dict users, entry.word = runes.map (·.rune) := by
  have found := findRev?_of_agree (agree_staticNodeInfos finished)
    (show runes.map (·.rune) ≠ [] by simpa using nonempty)
  rw [DictTrie.find, DictTrie.trie, Trie.find_createTrie, if_neg nonempty, Loaded.dictTrie, found,
    List.findRev?_eq_find?_reverse, List.find?_isSome]
  simp only [List.mem_reverse, decide_eq_true_eq]

/-- The weights of the lines of the dictionary: the logarithms of their parts of all frequencies. -/
def staticWeights (floats : Floats W) (unset : W) (loaded : Loaded W) (dict : Bytes) : List W :=
  (frequencies floats unset (getlines dict)).map (logWeight floats loaded.freqSum)

/-- What `Init` keeps of the frequencies of the dictionary. -/
structure Weighed (floats : Floats W) (unset : W) (option : UserWordWeightOption) (dict : Bytes)
    (loaded : Loaded W) : Prop where
  /-- The sum of the frequencies, from the first line to the last. -/
  freqSum_eq : loaded.freqSum =
    (frequencies floats unset (getlines dict)).foldl (fun sum freq => sum + freq) 0
  /-- The smallest weight. -/
  minWeight : Ranked (staticWeights floats unset loaded dict) 0 loaded.minWeight
  /-- The weight for words of the user, as the option says. -/
  userWordDefaultWeight : Ranked (staticWeights floats unset loaded dict)
    (defaultPosition option (getlines dict).length) loaded.userWordDefaultWeight

theorem weighed_of_init {dict : Bytes} {users : List Bytes} {loaded : Loaded W}
    (finished : init floats unset option (some dict) (users.map some) = some loaded) :
    Weighed floats unset option dict loaded := by
  obtain ⟨nodeInfos, userInfos, loads⟩ := exists_loads finished
  obtain ⟨least, default⟩ := ranked_of_setStaticWordWeights loads.weights_eq
  have weights_eq : (nodeInfos.map fun nodeInfo => { nodeInfo with
      weight := logWeight floats loaded.freqSum nodeInfo.weight }).map (·.weight) =
        staticWeights floats unset loaded dict := by
    rw [staticWeights, ← loads.weights, List.map_map, List.map_map]
    rfl
  rw [weights_eq] at least default
  rw [List.length_map, loads.static.length_eq] at default
  refine ⟨?_, least, default⟩
  rw [loads.freqSum_eq, ← loads.weights, List.foldl_map]
  rfl

/-- Words are found with what their last line says, where the lines of the user come behind those of
the dictionary, and weigh what the frequencies and the option for words of the user give. -/
theorem find_init {dict : Bytes} {users : List Bytes} {loaded : Loaded W}
    (finished : init floats unset option (some dict) (users.map some) = some loaded) :
    Weighed floats unset option dict loaded ∧
      ∀ runes, loaded.dictTrie.find runes =
        if runes = [] then none
        else (entries floats loaded dict users).findRev? fun entry =>
          entry.word = runes.map (·.rune) := by
  refine ⟨weighed_of_init finished, fun runes => ?_⟩
  rw [DictTrie.find, DictTrie.trie, Trie.find_createTrie]
  split
  · rfl
  · rename_i nonempty
    exact findRev?_of_agree (agree_staticNodeInfos finished) (by simpa using nonempty)

/-- The arithmetic of frequencies that add up to eight, as doubles print it. -/
def eighthFloats : Floats ℚ where
  atof := fun s => s.foldl (fun value c => 10 * value + (c.toNat - 48 : Nat)) 0
  atoi := fun s => s.foldl (fun value c => 10 * value + (c.toNat - 48 : Nat)) 0
  div := fun x y => x / y
  log := fun x =>
    if x = 1 / 8 then -2.0794415416798357
    else if x = 3 / 8 then -0.9808292530117262
    else -0.6931471805599453

/-- A dictionary with two lines for one of its words. -/
def words : Bytes := bytes "vec 3 n\nve 4 n\nve 1 n\n"

/-- A word of the user. -/
def userWords : Bytes := bytes "ec\n"

theorem exists_init_words : ∃ loaded,
    init eighthFloats 0 .wordWeightMedian (some words) ([userWords].map some) =
      some loaded := by
  refine Option.isSome_iff_exists.mp ?_
  decide +kernel

/-- The last line of a word counts, and a word of the user gets the weight in the middle. -/
theorem find_init_words : ∃ loaded,
    init eighthFloats 0 .wordWeightMedian (some words) ([userWords].map some) = some loaded ∧
      loaded.freqSum = 8 ∧ loaded.userWordDefaultWeight = -0.9808292530117262 ∧
      (∀ runes, runes.map (·.rune) = runesOf (bytes "ve") →
        loaded.dictTrie.find runes = some ⟨runesOf (bytes "ve"), -2.0794415416798357⟩) ∧
      ∀ runes, runes.map (·.rune) = runesOf (bytes "ec") →
        loaded.dictTrie.find runes = some ⟨runesOf (bytes "ec"), -0.9808292530117262⟩ := by
  obtain ⟨loaded, finished⟩ := exists_init_words
  obtain ⟨weighed, found⟩ := find_init finished
  have sum_eq : loaded.freqSum = 8 := weighed.freqSum_eq.trans (by decide +kernel)
  have weights_eq : staticWeights eighthFloats 0 loaded words =
      [-0.9808292530117262, -0.6931471805599453, -2.0794415416798357] := by
    rw [staticWeights, sum_eq]
    decide +kernel
  have default_eq : loaded.userWordDefaultWeight = -0.9808292530117262 := by
    have middle := weighed.userWordDefaultWeight
    rw [weights_eq] at middle
    have listed := middle.member
    simp only [List.mem_cons, List.not_mem_nil, or_false] at listed
    rcases listed with first | second | third
    · exact first
    · exact absurd (second ▸ middle).below (by decide +kernel)
    · exact absurd (third ▸ middle).above (by decide +kernel)
  have read {runes : List RuneStr} {word : List Rune} (filled : word ≠ [])
      (asked : runes.map (·.rune) = word) :
      loaded.dictTrie.find runes =
        ((getlines words).map (staticEntry eighthFloats 8) ++
          (userLines [userWords]).map
            (userEntry eighthFloats 8 (-0.9808292530117262))).findRev? fun entry =>
          entry.word = word := by
    have nonempty : runes ≠ [] := by
      rintro rfl
      exact filled asked.symm
    rw [found, if_neg nonempty, entries, sum_eq, default_eq, asked]
  refine ⟨loaded, finished, sum_eq, default_eq, fun runes asked => ?_, fun runes asked => ?_⟩
  · rw [read (by decide) asked]
    decide +kernel
  · rw [read (by decide) asked]
    decide +kernel

/-! ## The smallest weight -/

/-- No word is lighter than a rune that is no word, unless the user gives a frequency. -/
theorem minWeight_le_unitWeight {dict : Bytes} {users : List Bytes} {loaded : Loaded W}
    (finished : init floats unset option (some dict) (users.map some) = some loaded)
    (unweighted : ∀ line ∈ userLines users, (Limonp.split line space).length ≠ 3)
    (runes : List RuneStr) :
    loaded.minWeight ≤
      MPSegment.unitWeight loaded.dictTrie (loaded.dictTrie.find runes) := by
  obtain ⟨nodeInfos, userInfos, loads⟩ := exists_loads finished
  obtain ⟨least, default⟩ := ranked_of_setStaticWordWeights loads.weights_eq
  cases found : loaded.dictTrie.find runes with
  | none => exact le_refl _
  | some p =>
      have word_eq : p.word = runes.map (·.rune) := Trie.word_of_find found
      rw [DictTrie.find, DictTrie.trie, Trie.find_createTrie] at found
      split at found
      · contradiction
      · rename_i nonempty
        rw [List.findRev?_eq_find?_reverse] at found
        have member := List.mem_reverse.mp (List.mem_of_find?_eq_some found)
        rw [Loaded.dictTrie, loads.units_eq, List.mem_append] at member
        rcases member with static | user
        · exact least.le (List.mem_map_of_mem static)
        · obtain ⟨position, bound, rfl⟩ := List.mem_iff_getElem.mp user
          have lengths := loads.user.length_eq
          have agree := (List.forall₂_iff_get.mp loads.user).2 position bound (lengths ▸ bound)
          have columns := unweighted _ (List.get_mem (userLines users) ⟨position, lengths ▸ bound⟩)
          have filled : (userInfos.get ⟨position, bound⟩).word ≠ [] := by
            rw [List.get_eq_getElem, word_eq]
            simpa using nonempty
          rw [agree.1] at filled
          have weight_eq := (agree.2 filled).trans (weight_userEntry columns)
          exact (least.le default.member).trans_eq weight_eq.symm

theorem minWeight_le_unitWeight_words : ∃ loaded,
    init eighthFloats 0 .wordWeightMedian (some words) ([userWords].map some) = some loaded ∧
      ∀ runes, loaded.minWeight ≤
        MPSegment.unitWeight loaded.dictTrie (loaded.dictTrie.find runes) := by
  obtain ⟨loaded, finished⟩ := exists_init_words
  have unweighted : ∀ line ∈ userLines [userWords], (Limonp.split line space).length ≠ 3 := by
    decide
  exact ⟨loaded, finished, minWeight_le_unitWeight finished unweighted⟩

end Entries

end DictTrie

end BoostDocSearcher.Cppjieba
