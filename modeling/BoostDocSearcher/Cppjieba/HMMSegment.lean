import BoostDocSearcher.Cppjieba.Trie
import BoostDocSearcher.Library.Choice

/-!
# Segmentation by a hidden Markov model

Runes that are no part of a word of the dictionary are labelled as the beginning, the middle, the
end or the whole of a word. The labels are the most probable ones of the model, and a word ends
behind each label that ends one. Runs of Latin letters and of digits are kept together instead of
being labelled.
-/

namespace BoostDocSearcher.Cppjieba

/-! ## The model -/

/-- The part of its word that a rune is. -/
inductive Status where
  /-- The first rune of several. -/
  | B
  /-- The last rune of several. -/
  | E
  /-- A rune between the first and the last one. -/
  | M
  /-- The only rune. -/
  | S
  deriving DecidableEq, Repr

namespace Status

/-- The value of the enumeration. -/
def toNat : Status → Nat
  | B => 0
  | E => 1
  | M => 2
  | S => 3

/-- The states in the order of the loops. -/
def all : List Status := [B, E, M, S]

theorem mem_all (status : Status) : status ∈ all := by
  cases status <;> simp [all]

theorem odd_iff (status : Status) : status.toNat % 2 = 1 ↔ status = E ∨ status = S := by
  cases status <;> simp [toNat]

end Status

/-- One value for each state. -/
structure ByStatus (α : Type*) where
  /-- The value for `B`. -/
  b : α
  /-- The value for `E`. -/
  e : α
  /-- The value for `M`. -/
  m : α
  /-- The value for `S`. -/
  s : α
  deriving DecidableEq, Repr

namespace ByStatus

variable {α : Type*}

/-- The value for a state. -/
def get (values : ByStatus α) : Status → α
  | .B => values.b
  | .E => values.e
  | .M => values.m
  | .S => values.s

/-- The values of a function. -/
def tabulate (f : Status → α) : ByStatus α := ⟨f .B, f .E, f .M, f .S⟩

@[simp]
theorem get_tabulate (f : Status → α) (status : Status) : (tabulate f).get status = f status := by
  cases status <;> rfl

end ByStatus

variable {W : Type*}

/-- `HMMModel`, with logarithms of probabilities. -/
structure HMMModel (W : Type*) where
  /-- The probability that a text begins in a state. -/
  startProb : ByStatus W
  /-- The probability of one state behind another. -/
  transProb : ByStatus (ByStatus W)
  /-- The probabilities of the runes of a state, as far as they are known. -/
  emitProbVec : ByStatus (Rune → Option W)

/-- `GetEmitProb`, with the default that the segmenter passes. -/
def HMMModel.getEmitProb [Weight W] (model : HMMModel W) (y : Status) (key : Rune) : W :=
  (model.emitProbVec.get y key).getD minDouble

namespace HMMSegment

/-! ## Labels -/

/-- What is remembered for one rune and one state. -/
structure Cell (W : Type*) where
  /-- The state of the rune before, with `none` for the first rune. -/
  path : Option Status
  /-- The weight of the best labels up to here. -/
  weight : W

/-- What is remembered for one rune. -/
abbrev Column (W : Type*) := ByStatus (Cell W)

section Definitions

variable [Weight W]

/-- The first column. -/
def startColumn (model : HMMModel W) (rune : RuneStr) : Column W :=
  .tabulate fun y => ⟨none, model.startProb.get y + model.getEmitProb y rune.rune⟩

/-- The weight of a state behind another one. -/
def stepWeight (model : HMMModel W) (rune : RuneStr) (y : Status) (weight : W) (preY : Status) :
    W :=
  weight + (model.transProb.get preY).get y + model.getEmitProb y rune.rune

/-- One turn of the outer loop of `Viterbi`. When all ways are impossible, the state before is taken
for `E`. -/
def nextColumn (model : HMMModel W) (old : Column W) (rune : RuneStr) : Column W :=
  .tabulate fun y =>
    let leader := Choice.best minDouble
      (fun preY => stepWeight model rune y (old.get preY).weight preY) Status.all
    ⟨some (leader.1.getD .E), leader.2⟩

/-- The outer loop of `Viterbi`: the last column, and those behind it from the last to the first. -/
def forward (model : HMMModel W) (now : Column W) (behind : List (Column W)) :
    List RuneStr → Column W × List (Column W)
  | [] => (now, behind)
  | rune :: rest => forward model (nextColumn model now rune) (now :: behind) rest

/-- The last loop of `Viterbi`, with the states behind the current one in `status`. -/
def backward (stat : Status) (status : List Status) (now : Column W) :
    List (Column W) → List Status
  | [] => stat :: status
  | old :: behind =>
      match (now.get stat).path with
      | some preY => backward preY (stat :: status) old behind
      | none => stat :: status

/-- `Viterbi`, which is only called on a nonempty run of runes. -/
def viterbi (model : HMMModel W) : List RuneStr → List Status
  | [] => []
  | rune :: rest =>
      let (now, behind) := forward model (startColumn model rune) [] rest
      let endE := (now.get .E).weight
      let endS := (now.get .S).weight
      let stat := if endE ≥ endS then Status.E else Status.S
      backward stat [] now behind

end Definitions

/-! ## The labels are optimal -/

section Optimal

variable [Weight W] {model : HMMModel W}

/-- The weight of labelled runes, the last one first: the start, and then one step for each further
rune, which never falls below the impossible. -/
def score (model : HMMModel W) : List (RuneStr × Status) → W
  | [] => 0
  | [(rune, y)] => model.startProb.get y + model.getEmitProb y rune.rune
  | (rune, y) :: (before, preY) :: older =>
      Choice.clamped minDouble
        (stepWeight model rune y (score model ((before, preY) :: older)) preY)

theorem stepWeight_mono (rune : RuneStr) (y preY : Status) {lower upper : W}
    (ordered : lower ≤ upper) :
    stepWeight model rune y lower preY ≤ stepWeight model rune y upper preY :=
  Weight.add_mono (Weight.add_mono ordered le_rfl) le_rfl

/-- The columns are exact for the runes behind them, which are listed from the last to the first:
no labels that end in a state are heavier than its cell, and the path from there leads back over
labels of that weight. -/
structure Exact (model : HMMModel W) (seen : List RuneStr) (now : Column W)
    (behind : List (Column W)) : Prop where
  /-- No labels are heavier. -/
  bound : ∀ y ys, (y :: ys).length = seen.length →
    score model (seen.zip (y :: ys)) ≤ (now.get y).weight
  /-- The path has the weight of the cell. -/
  traced : ∀ y, ∃ ys, (y :: ys).length = seen.length ∧
    score model (seen.zip (y :: ys)) = (now.get y).weight ∧
      ∀ status, backward y status now behind = (y :: ys).reverse ++ status

theorem exact_start (rune : RuneStr) : Exact model [rune] (startColumn model rune) [] := by
  refine ⟨?_, ?_⟩
  · intro y ys length_eq
    obtain rfl : ys = [] := List.eq_nil_of_length_eq_zero (Nat.succ.inj length_eq)
    simp [score, startColumn]
  · intro y
    exact ⟨[], rfl, by simp [score, startColumn], fun status => rfl⟩

theorem Exact.step {before : RuneStr} {older : List RuneStr} {now : Column W}
    {behind : List (Column W)} (exact : Exact model (before :: older) now behind)
    (rune : RuneStr) :
    Exact model (rune :: before :: older) (nextColumn model now rune) (now :: behind) := by
  have cell (y : Status) : (nextColumn model now rune).get y =
      ⟨some ((Choice.best minDouble
          (fun preY => stepWeight model rune y (now.get preY).weight preY) Status.all).1.getD .E),
        (Choice.best minDouble
          (fun preY => stepWeight model rune y (now.get preY).weight preY) Status.all).2⟩ :=
    ByStatus.get_tabulate _ y
  refine ⟨?_, ?_⟩
  · intro y ys length_eq
    cases ys with
    | nil => simp at length_eq
    | cons preY ys =>
        rw [cell]
        refine le_trans (Choice.clamped_mono ?_) (Choice.clamped_le_best (Status.mem_all preY))
        exact stepWeight_mono rune y preY (exact.bound preY ys (Nat.succ.inj length_eq))
  · intro y
    -- The path goes back to the state that was chosen, or to `E` when none was.
    have weight_eq := @Choice.best_eq_clamped _ _ _ minDouble
      (fun preY => stepWeight model rune y (now.get preY).weight preY) Status.all Status.E
      (Status.mem_all .E)
    rw [cell]
    generalize leader_eq : Choice.best minDouble
      (fun preY => stepWeight model rune y (now.get preY).weight preY) Status.all = leader
      at weight_eq
    obtain ⟨ys, length_eq, score_eq, traced⟩ := exact.traced (leader.1.getD .E)
    refine ⟨leader.1.getD .E :: ys, by rw [List.length_cons, length_eq]; rfl, ?_, ?_⟩
    · rw [weight_eq, ← score_eq]
      rfl
    · intro status
      have labelled : ((nextColumn model now rune).get y).path = some (leader.1.getD .E) := by
        rw [cell, leader_eq]
      rw [backward, labelled]
      simp only [traced]
      simp

theorem Exact.forward {before : RuneStr} {older : List RuneStr} {now : Column W}
    {behind : List (Column W)} (exact : Exact model (before :: older) now behind)
    (rest : List RuneStr) :
    Exact model (rest.reverse ++ before :: older) (HMMSegment.forward model now behind rest).1
      (HMMSegment.forward model now behind rest).2 := by
  induction rest generalizing before older now behind with
  | nil => exact exact
  | cons rune rest induction =>
      rw [List.reverse_cons, List.append_assoc]
      exact induction (exact.step rune)

/-- Labels of a run of runes whose last one ends a word. -/
structure Labelling (runes : List RuneStr) (labels : List Status) : Prop where
  /-- There is one label for each rune. -/
  length_eq : labels.length = runes.length
  /-- The last label ends a word. -/
  closed : ∀ last ∈ labels.getLast?, last = .E ∨ last = .S

/-- The weight of a labelling. -/
def labelScore (model : HMMModel W) (runes : List RuneStr) (labels : List Status) : W :=
  score model (runes.reverse.zip labels.reverse)

/-- Of a nonempty run of runes the last loop leaves labels that end a word, and none that end one
are heavier. -/
theorem exists_viterbi_eq (model : HMMModel W) (rune : RuneStr) (rest : List RuneStr) :
    ∃ y ys, viterbi model (rune :: rest) = (y :: ys).reverse ∧
      (y :: ys).length = (rune :: rest).length ∧ (y = .E ∨ y = .S) ∧
        ∀ z zs, (z :: zs).length = (rune :: rest).length → (z = .E ∨ z = .S) →
          score model ((rune :: rest).reverse.zip (z :: zs)) ≤
            score model ((rune :: rest).reverse.zip (y :: ys)) := by
  have exact := (@exact_start _ _ model rune).forward rest
  rw [← List.reverse_cons] at exact
  rw [viterbi]
  generalize forward model (startColumn model rune) [] rest = columns at exact
  obtain ⟨now, behind⟩ := columns
  dsimp only at exact ⊢
  generalize stat_eq :
    (if (now.get .E).weight ≥ (now.get .S).weight then Status.E else Status.S) = stat
  have heaviest (z : Status) (closing : z = .E ∨ z = .S) :
      (now.get z).weight ≤ (now.get stat).weight := by
    split at stat_eq <;> rename_i compared <;> subst stat_eq
    · rcases closing with rfl | rfl
      · exact le_refl _
      · exact compared
    · rcases closing with rfl | rfl
      · exact le_of_not_ge compared
      · exact le_refl _
  have closes : stat = .E ∨ stat = .S := by
    split at stat_eq
    · exact .inl stat_eq.symm
    · exact .inr stat_eq.symm
  obtain ⟨ys, length_eq, score_eq, traced⟩ := exact.traced stat
  refine ⟨stat, ys, by rw [traced, List.append_nil], ?_, closes, ?_⟩
  · rw [length_eq, List.length_reverse]
  · intro z zs length_eq closing
    rw [score_eq]
    refine le_trans (exact.bound z zs ?_) (heaviest z closing)
    rw [length_eq, List.length_reverse]

theorem labelling_viterbi (model : HMMModel W) (runes : List RuneStr) :
    Labelling runes (viterbi model runes) := by
  cases runes with
  | nil => exact ⟨rfl, by simp [viterbi]⟩
  | cons rune rest =>
      obtain ⟨y, ys, labels_eq, length_eq, closes, -⟩ := exists_viterbi_eq model rune rest
      rw [labels_eq]
      exact ⟨by rw [List.length_reverse, length_eq], by simpa using closes⟩

/-- The labels are optimal: they are a labelling of the runes, and no other one is heavier. -/
theorem viterbi_optimal (model : HMMModel W) (runes : List RuneStr) :
    Labelling runes (viterbi model runes) ∧
      ∀ labels, Labelling runes labels →
        labelScore model runes labels ≤ labelScore model runes (viterbi model runes) := by
  refine ⟨labelling_viterbi model runes, ?_⟩
  intro labels labelling
  cases runes with
  | nil => exact le_of_eq (by simp [labelScore])
  | cons rune rest =>
      obtain ⟨y, ys, labels_eq, -, -, heaviest⟩ := exists_viterbi_eq model rune rest
      have reversed_length : labels.reverse.length = (rune :: rest).length := by
        rw [List.length_reverse, labelling.length_eq]
      have closed := labelling.closed
      rw [List.getLast?_eq_head?_reverse] at closed
      rw [labelScore, labelScore, labels_eq, List.reverse_reverse]
      cases reversed_eq : labels.reverse with
      | nil => simp [reversed_eq] at reversed_length
      | cons z zs =>
          rw [reversed_eq] at reversed_length closed
          exact heaviest z zs reversed_length (closed z rfl)

end Optimal

/-! ## Cutting -/

/-- The range from the runes behind an iterator up to the rune at it. -/
def rangeTo (left : List RuneStr) (last : RuneStr) : WordRange :=
  match left with
  | [] => ⟨last, []⟩
  | first :: more => ⟨first, more ++ [last]⟩

@[simp]
theorem runes_rangeTo (left : List RuneStr) (last : RuneStr) :
    (rangeTo left last).runes = left ++ [last] := by
  cases left <;> rfl

/-- The loop of `InternalCut`, with the runes from `left` on. -/
def cutByStatus (left : List RuneStr) : List RuneStr → List Status → List WordRange
  | rune :: runes, stat :: status =>
      if stat.toNat % 2 = 1 then
        rangeTo left rune :: cutByStatus [] runes status
      else
        cutByStatus (left ++ [rune]) runes status
  | _, _ => []

/-- `'a' <= x <= 'z'` or `'A' <= x <= 'Z'`. -/
def isLetter (x : Rune) : Bool :=
  ('a'.val ≤ x && x ≤ 'z'.val) || ('A'.val ≤ x && x ≤ 'Z'.val)

/-- `'0' <= x <= '9'`. -/
def isDigit (x : Rune) : Bool :=
  '0'.val ≤ x && x ≤ '9'.val

/-- A run of runes by its first and its other runes: how many it takes from the text. -/
def ruleLength (first other : Rune → Bool) : List RuneStr → Nat
  | [] => 0
  | rune :: rest =>
      if first rune.rune then 1 + (rest.takeWhile fun rune => other rune.rune).length else 0

/-- `SequentialLetterRule`: a letter, and the letters and digits behind it. -/
def sequentialLetterRule (runes : List RuneStr) : Nat :=
  ruleLength isLetter (fun x => isLetter x || isDigit x) runes

/-- `NumbersRule`: a digit, and the digits and points behind it. -/
def numbersRule (runes : List RuneStr) : Nat :=
  ruleLength isDigit (fun x => isDigit x || x == '.'.val) runes

/-- The length of the word that begins with an ASCII rune: the first rule that applies, or the rune
alone. -/
def asciiLength (runes : List RuneStr) : Nat :=
  if sequentialLetterRule runes ≠ 0 then
    sequentialLetterRule runes
  else if numbersRule runes ≠ 0 then
    numbersRule runes
  else
    1

section Cut

variable [Weight W]

/-- `InternalCut`. -/
def internalCut (model : HMMModel W) (runes : List RuneStr) : List WordRange :=
  cutByStatus [] runes (viterbi model runes)

/-- The call of `InternalCut`, unless `left` and `right` are equal. -/
def flush (model : HMMModel W) (left : List RuneStr) : List WordRange :=
  if left = [] then [] else internalCut model left

/-- The loop of `HMMSegment::Cut`, with the runes from `left` to `right`. -/
def cutLoop (model : HMMModel W) (left runes : List RuneStr) : List WordRange :=
  match runes with
  | [] => flush model left
  | rune :: rest =>
      if rune.rune < 0x80 then
        let more := asciiLength (rune :: rest) - 1
        flush model left ++
          ⟨rune, rest.take more⟩ :: cutLoop model [] (rest.drop more)
      else
        cutLoop model (left ++ [rune]) rest
termination_by runes.length
decreasing_by
  · simp only [List.length_drop, List.length_cons]
    omega
  · simp

/-- `HMMSegment::Cut` on a run of runes. -/
def cut (model : HMMModel W) (runes : List RuneStr) : List WordRange :=
  cutLoop model [] runes

variable {model : HMMModel W}

theorem flatMap_cutByStatus {runes : List RuneStr} {labels : List Status}
    (labelling : Labelling runes labels) (left : List RuneStr) (nonempty : runes ≠ []) :
    (cutByStatus left runes labels).flatMap (·.runes) = left ++ runes := by
  obtain ⟨length_eq, closed⟩ := labelling
  induction runes generalizing left labels with
  | nil => contradiction
  | cons rune rest induction =>
      cases labels with
      | nil => simp at length_eq
      | cons stat status =>
          have lengths : status.length = rest.length := Nat.succ.inj length_eq
          rw [cutByStatus]
          cases rest with
          | nil =>
              obtain rfl := List.eq_nil_of_length_eq_zero lengths
              rw [if_pos ((Status.odd_iff stat).mpr (closed stat rfl))]
              simp [cutByStatus]
          | cons next rest =>
              cases status with
              | nil => simp at lengths
              | cons other status =>
                  rw [List.getLast?_cons_cons] at closed
                  have later (left : List RuneStr) :=
                    induction left (List.cons_ne_nil next rest) lengths closed
                  split
                  · rw [List.flatMap_cons, later, runes_rangeTo]
                    simp
                  · rw [later]
                    simp

theorem flatMap_flush (left : List RuneStr) :
    (flush model left).flatMap (·.runes) = left := by
  unfold flush
  split
  · rename_i empty
    simp [empty]
  · rename_i nonempty
    exact flatMap_cutByStatus (labelling_viterbi model left) [] nonempty

theorem flatMap_cutLoop (left runes : List RuneStr) :
    (cutLoop model left runes).flatMap (·.runes) = left ++ runes := by
  induction left, runes using cutLoop.induct with
  | case1 left => rw [cutLoop, flatMap_flush, List.append_nil]
  | case2 left rune rest ascii more induction =>
      rw [cutLoop, if_pos ascii, List.flatMap_append, List.flatMap_cons, flatMap_flush, induction,
        WordRange.runes, List.nil_append, List.cons_append, List.take_append_drop]
  | case3 left rune rest wide induction =>
      rw [cutLoop, if_neg wide, induction]
      simp

theorem flatMap_cut (model : HMMModel W) (runes : List RuneStr) :
    (cut model runes).flatMap (·.runes) = runes :=
  flatMap_cutLoop [] runes

theorem take_ruleLength {first other : Rune → Bool} {rune : RuneStr} {rest : List RuneStr}
    (applies : ruleLength first other (rune :: rest) ≠ 0) :
    rest.take (ruleLength first other (rune :: rest) - 1) =
      rest.takeWhile fun rune => other rune.rune := by
  rw [ruleLength] at applies ⊢
  split at applies
  · rename_i begins
    rw [if_pos begins, Nat.add_sub_cancel_left]
    exact (List.prefix_iff_eq_take.mp (List.takeWhile_prefix _)).symm
  · contradiction

theorem ascii_of_class {x : Rune}
    (member : isLetter x = true ∨ isDigit x = true ∨ x = '.'.val) : x < 0x80 := by
  have small {bound : Rune} (below : x ≤ bound) (bound_lt : bound < 0x80) : x < 0x80 :=
    UInt32.lt_of_le_of_lt below bound_lt
  rcases member with letter | digit | rfl
  · simp only [isLetter, Bool.or_eq_true, Bool.and_eq_true, decide_eq_true_eq] at letter
    rcases letter with ⟨-, below⟩ | ⟨-, below⟩
    · exact small below (by decide)
    · exact small below (by decide)
  · simp only [isDigit, Bool.and_eq_true, decide_eq_true_eq] at digit
    exact small digit.2 (by decide)
  · decide

theorem ascii_of_mem_take {rune other : RuneStr} {rest : List RuneStr}
    (member : other ∈ rest.take (asciiLength (rune :: rest) - 1)) : other.rune < 0x80 := by
  unfold asciiLength at member
  split at member
  · rename_i letters
    rw [sequentialLetterRule, take_ruleLength letters] at member
    have taken := List.mem_takeWhile_imp member
    simp only [Bool.or_eq_true] at taken
    rcases taken with letter | digit
    · exact ascii_of_class (.inl letter)
    · exact ascii_of_class (.inr (.inl digit))
  · split at member
    · rename_i numbers
      rw [numbersRule, take_ruleLength numbers] at member
      have taken := List.mem_takeWhile_imp member
      simp only [Bool.or_eq_true, beq_iff_eq] at taken
      exact ascii_of_class (.inr taken)
    · simp at member

/-- A range within ASCII, or within what lies beyond it. -/
def OneScript (word : WordRange) : Prop :=
  (∀ rune ∈ word.runes, rune.rune < 0x80) ∨ ∀ rune ∈ word.runes, ¬ rune.rune < 0x80

theorem oneScript_of_mem_flush {left : List RuneStr} (wide : ∀ rune ∈ left, ¬ rune.rune < 0x80)
    {word : WordRange} (member : word ∈ flush model left) : OneScript word := by
  refine .inr fun rune inside => wide rune ?_
  rw [← @flatMap_flush _ _ model left]
  exact List.mem_flatMap.mpr ⟨word, member, inside⟩

theorem oneScript_of_mem_cutLoop {left runes : List RuneStr}
    (wide : ∀ rune ∈ left, ¬ rune.rune < 0x80) {word : WordRange}
    (member : word ∈ cutLoop model left runes) : OneScript word := by
  induction left, runes using cutLoop.induct with
  | case1 left =>
      rw [cutLoop] at member
      exact oneScript_of_mem_flush wide member
  | case2 left rune rest ascii more induction =>
      rw [cutLoop, if_pos ascii, List.mem_append, List.mem_cons] at member
      rcases member with flushed | rfl | later
      · exact oneScript_of_mem_flush wide flushed
      · refine .inl fun other inside => ?_
        rcases List.mem_cons.mp inside with rfl | inside
        · exact ascii
        · exact ascii_of_mem_take inside
      · exact induction (by simp) later
  | case3 left rune rest beyond induction =>
      rw [cutLoop, if_neg beyond] at member
      refine induction ?_ member
      intro other inside
      rcases List.mem_append.mp inside with inside | last
      · exact wide other inside
      · rw [List.mem_singleton.mp last]
        exact beyond

/-- The model loses nothing, and joins no ASCII with what lies beyond it. -/
theorem cut_oneScript (model : HMMModel W) (runes : List RuneStr) :
    (cut model runes).flatMap (·.runes) = runes ∧ ∀ word ∈ cut model runes, OneScript word :=
  ⟨flatMap_cut model runes, fun _ member => oneScript_of_mem_cutLoop (by simp) member⟩

end Cut

end HMMSegment

end BoostDocSearcher.Cppjieba
