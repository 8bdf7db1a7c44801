import Mathlib.Algebra.Group.Defs
import Mathlib.Algebra.Order.Ring.Rat
import BoostDocSearcher.Cppjieba.Unicode
import BoostDocSearcher.Library.PrefixTree

/-!
# The dictionary of the segmenter

The words of the dictionary are stored in a prefix tree over runes. A text is looked up in two ways:
one run of runes as a word, and at every position all words that begin there, as the edges of a
graph over the positions. Weights are floating-point numbers in the source. All that is used of them
is an order and an addition that grows with its summands, which rounding does not destroy.
-/

namespace BoostDocSearcher.Cppjieba

/-- Weights: the logarithms of frequencies and probabilities. -/
class Weight (W : Type*) extends LinearOrder W, AddZeroClass W where
  /-- `MIN_DOUBLE`, the weight of what is impossible. -/
  minDouble : W
  /-- Sums grow with their summands. -/
  add_mono : ∀ {a b c d : W}, a ≤ b → c ≤ d → a + c ≤ b + d

export Weight (minDouble)

instance : Weight ℚ where
  minDouble := -314 * 10 ^ 98
  add_mono := add_le_add

/-- An entry of the dictionary. -/
structure DictUnit (W : Type*) where
  /-- The runes of the word. -/
  word : List Rune
  /-- The weight of the word. -/
  weight : W
  deriving DecidableEq, Repr

variable {W : Type*}

/-- `TrieNode`, with the pointer to an entry as its value. -/
abbrev TrieNode (W : Type*) := PrefixTree Rune (DictUnit W)

namespace Trie

/-- `InsertNode`. The empty word is ignored. -/
def insertNode (root : TrieNode W) (key : List Rune) (ptValue : DictUnit W) : TrieNode W :=
  if key = [] then root else root.insert ptValue key

/-- `CreateTrie`, as `DictTrie` calls it: every entry under its own word. -/
def createTrie (dictUnits : List (DictUnit W)) : TrieNode W :=
  dictUnits.foldl (fun root unit => insertNode root unit.word unit) .empty

/-- `Find` on a run of runes: the entry of exactly this word. -/
def find (root : TrieNode W) (runes : List RuneStr) : Option (DictUnit W) :=
  if runes = [] then none else root.lookup (runes.map (·.rune))

/-- The inner loop of `Find` on a text: the words that begin at `i` and end at `j` or later, with
`nextPos` counted from `i`. -/
def nextsLoop (maxWordLen nextPos : Nat) (ptNode : Option (TrieNode W)) (runes : List RuneStr) :
    List (Nat × Option (DictUnit W)) :=
  match runes with
  | [] => []
  | runestr :: rest =>
      if nextPos + 1 ≤ maxWordLen then
        match ptNode.bind fun node => node.next runestr.rune with
        | none => []
        | some child =>
            let later := nextsLoop maxWordLen (nextPos + 1) (some child) rest
            match child.value with
            | none => later
            | some unit => (nextPos, some unit) :: later
      else
        []

/-- The edges of `Find` that begin at the first rune: the rune alone, in the dictionary or not, and
all longer words of the dictionary. -/
def nexts (root : TrieNode W) (maxWordLen : Nat) (runestr : RuneStr) (rest : List RuneStr) :
    List (Nat × Option (DictUnit W)) :=
  let ptNode := root.next runestr.rune
  (0, ptNode.bind (·.value)) :: nextsLoop maxWordLen 1 ptNode rest

end Trie

/-! ## Lookups -/

namespace Trie

/-- The trie is the tree of the entries with a nonempty word. -/
theorem createTrie_eq (dictUnits : List (DictUnit W)) :
    createTrie dictUnits =
      .build ((dictUnits.filter (·.word ≠ [])).map fun unit => (unit.word, unit)) .empty := by
  rw [createTrie]
  generalize (PrefixTree.empty : TrieNode W) = root
  induction dictUnits generalizing root with
  | nil => rfl
  | cons unit dictUnits induction =>
      rw [List.foldl_cons, induction, insertNode]
      by_cases blank : unit.word = []
      · simp [blank]
      · simp [blank, PrefixTree.build]

theorem find_createTrie (dictUnits : List (DictUnit W)) (runes : List RuneStr) :
    find (createTrie dictUnits) runes =
      if runes = [] then none
      else dictUnits.findRev? fun unit => unit.word = runes.map (·.rune) := by
  unfold find
  split
  · rfl
  · rename_i nonempty
    have key_ne : runes.map (·.rune) ≠ [] := by simpa using nonempty
    generalize runes.map (·.rune) = key at key_ne
    have same_test (unit : DictUnit W) : (unit.word ≠ [] ∧ unit.word = key) ↔ unit.word = key :=
      ⟨And.right, fun same => ⟨same ▸ key_ne, same⟩⟩
    rw [createTrie_eq, PrefixTree.lookup_build, List.findRev?_eq_find?_reverse, ← List.map_reverse,
      ← List.filter_reverse, List.find?_map, List.find?_filter, List.findRev?_eq_find?_reverse]
    simp only [Function.comp_def, decide_eq_true_eq, same_test, PrefixTree.lookup_empty]
    cases dictUnits.reverse.find? fun unit => decide (unit.word = key) with
    | none => rfl
    | some found => rfl

theorem word_of_find {dictUnits : List (DictUnit W)} {runes : List RuneStr} {unit : DictUnit W}
    (found : find (createTrie dictUnits) runes = some unit) :
    unit.word = runes.map (·.rune) := by
  rw [find_createTrie] at found
  split at found
  · contradiction
  · simpa using List.find?_some ((List.findRev?_eq_find?_reverse).symm.trans found)

/-- The inner loop finds the words that extend what lies behind it. -/
theorem mem_nextsLoop_iff {maxWordLen : Nat} {root node : TrieNode W} {behind rest : List RuneStr}
    (reached : root.descend (behind.map (·.rune)) = some node) {nextPos : Nat}
    {p : Option (DictUnit W)} :
    (nextPos, p) ∈ nextsLoop maxWordLen behind.length (some node) rest ↔
      p.isSome ∧ behind.length ≤ nextPos ∧ nextPos < behind.length + rest.length ∧
        nextPos + 1 ≤ maxWordLen ∧
        find root ((behind ++ rest).take (nextPos + 1)) = p := by
  induction rest generalizing behind node with
  | nil =>
      simp only [nextsLoop, List.not_mem_nil, List.length_nil, false_iff]
      omega
  | cons runestr rest induction =>
      -- What is looked up at a position from here on begins with this rune.
      have lookup_eq (beyond : Nat) :
          find root ((behind ++ runestr :: rest).take (behind.length + beyond + 1)) =
            (node.next runestr.rune).bind fun child =>
              child.lookup ((rest.take beyond).map (·.rune)) := by
        rw [List.take_append, List.take_of_length_le (by omega),
          show behind.length + beyond + 1 - behind.length = beyond + 1 by omega,
          List.take_succ_cons, find, if_neg (by simp), List.map_append, List.map_cons,
          PrefixTree.lookup_append_cons reached]
      rw [nextsLoop]
      split
      · rename_i short
        cases child_eq : node.next runestr.rune with
        | none =>
            simp only [Option.bind_some, child_eq, List.not_mem_nil, false_iff]
            rintro ⟨present, from_here, -, -, found⟩
            obtain ⟨beyond, rfl⟩ := Nat.exists_eq_add_of_le from_here
            rw [lookup_eq, child_eq] at found
            simp [← found] at present
        | some child =>
            have reached_child :
                root.descend ((behind ++ [runestr]).map (·.rune)) = some child := by
              simp [PrefixTree.descend_append, reached, PrefixTree.descend, child_eq]
            have later := induction reached_child
            rw [List.length_append, List.length_singleton, List.append_assoc,
              List.singleton_append] at later
            have here :
                find root ((behind ++ runestr :: rest).take (behind.length + 1)) = child.value := by
              have := lookup_eq 0
              rwa [child_eq] at this
            simp only [Option.bind_some, child_eq]
            cases value_eq : child.value with
            | none =>
                rw [later, List.length_cons]
                constructor
                · rintro ⟨present, from_next, inside, length_le, found⟩
                  exact ⟨present, by omega, by omega, length_le, found⟩
                · rintro ⟨present, from_here, inside, length_le, found⟩
                  have beyond : behind.length ≠ nextPos := by
                    rintro rfl
                    rw [here, value_eq] at found
                    simp [← found] at present
                  exact ⟨present, by omega, by omega, length_le, found⟩
            | some unit =>
                rw [List.mem_cons, later, List.length_cons]
                constructor
                · rintro (same | ⟨present, from_next, inside, length_le, found⟩)
                  · obtain ⟨rfl, rfl⟩ := Prod.mk.inj same
                    exact ⟨rfl, le_refl _, by omega, short, by rw [here, value_eq]⟩
                  · exact ⟨present, by omega, by omega, length_le, found⟩
                · rintro ⟨present, from_here, inside, length_le, found⟩
                  rcases Nat.eq_or_lt_of_le from_here with rfl | beyond
                  · rw [here, value_eq] at found
                    exact .inl (by rw [found])
                  · exact .inr ⟨present, by omega, by omega, length_le, found⟩
      · rename_i long
        simp only [List.not_mem_nil, false_iff]
        omega

/-- The edges from a position are the rune alone and the longer words of the dictionary that begin
there, up to the greatest length of a word. -/
theorem mem_nexts_iff {maxWordLen : Nat} {root : TrieNode W} {runestr : RuneStr}
    {rest : List RuneStr} {nextPos : Nat} {p : Option (DictUnit W)} :
    (nextPos, p) ∈ nexts root maxWordLen runestr rest ↔
      find root ((runestr :: rest).take (nextPos + 1)) = p ∧
        (nextPos = 0 ∨
          p.isSome ∧ nextPos < 1 + rest.length ∧ nextPos + 1 ≤ maxWordLen) := by
  have single : find root [runestr] = (root.next runestr.rune).bind (·.value) := by
    rw [find, if_neg (List.cons_ne_nil _ _), List.map_singleton, PrefixTree.lookup_cons]
    rfl
  rw [nexts, List.mem_cons]
  cases child_eq : root.next runestr.rune with
  | none =>
      have missing (beyond : Nat) :
          find root ((runestr :: rest).take (beyond + 1)) = none := by
        rw [List.take_succ_cons, find, if_neg (List.cons_ne_nil _ _), List.map_cons,
          PrefixTree.lookup_cons, child_eq]
        rfl
      have nothing : nextsLoop maxWordLen 1 (none : Option (TrieNode W)) rest = [] := by
        cases rest <;> simp [nextsLoop]
      rw [nothing, missing]
      constructor
      · rintro (same | absent)
        · obtain ⟨rfl, rfl⟩ := Prod.mk.inj same
          exact ⟨rfl, .inl rfl⟩
        · simp at absent
      · rintro ⟨rfl, rfl | ⟨present, -⟩⟩
        · exact .inl rfl
        · simp at present
  | some child =>
      have reached : root.descend ([runestr].map (·.rune)) = some child := by
        simp [PrefixTree.descend, child_eq]
      have later := @mem_nextsLoop_iff _ maxWordLen _ _ _ rest reached nextPos p
      rw [List.length_singleton, List.singleton_append] at later
      rw [later]
      rw [child_eq] at single
      constructor
      · rintro (same | ⟨present, -, inside, length_le, found⟩)
        · obtain ⟨rfl, rfl⟩ := Prod.mk.inj same
          exact ⟨single, .inl rfl⟩
        · exact ⟨found, .inr ⟨present, inside, length_le⟩⟩
      · rintro ⟨found, rfl | ⟨present, inside, length_le⟩⟩
        · exact .inl (by rw [← found]; exact congrArg _ single)
        · rcases Nat.eq_zero_or_pos nextPos with rfl | positive
          · exact .inl (by rw [← found]; exact congrArg _ single)
          · exact .inr ⟨present, positive, inside, length_le, found⟩

/-- What is found at a position of a text are the words of the dictionary that begin there, up
to the greatest length of a word, each with its last entry, and the rune alone in any case. -/
theorem mem_nexts_createTrie_iff (dictUnits : List (DictUnit W)) {maxWordLen : Nat}
    {runestr : RuneStr} {rest : List RuneStr} {nextPos : Nat} {p : Option (DictUnit W)} :
    (nextPos, p) ∈ nexts (createTrie dictUnits) maxWordLen runestr rest ↔
      (dictUnits.findRev? fun unit =>
          unit.word = ((runestr :: rest).take (nextPos + 1)).map (·.rune)) = p ∧
        (nextPos = 0 ∨
          p.isSome ∧ nextPos < (runestr :: rest).length ∧ nextPos + 1 ≤ maxWordLen) := by
  rw [mem_nexts_iff, find_createTrie, if_neg (by simp), List.length_cons, Nat.add_comm rest.length]

end Trie

end BoostDocSearcher.Cppjieba
