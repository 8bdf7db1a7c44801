import Mathlib.Data.List.DropRight
import BoostDocSearcher.Cppjieba.DictTrie
import BoostDocSearcher.Cppjieba.HMMSegment

/-!
# Loading the model

The file of the model has nine lines that are neither blank nor comments: the probabilities of the
first state, those of the transitions, and for each state those of its runes. A model that is
written in this form is read back, whatever comments and blank lines stand between its lines, and of
a rune that comes twice the last probability counts.
-/

namespace BoostDocSearcher.Cppjieba

namespace Limonp

/-- `limonp::IsSpace`. -/
def isSpace (c : Byte) : Bool :=
  c = space || (9 ≤ c && c ≤ 13)

/-- `limonp::Trim`. -/
def trim (s : Bytes) : Bytes :=
  (s.rdropWhile isSpace).dropWhile isSpace

end Limonp

namespace HMMModel

variable {W : Type}

/-- The byte `','`. -/
def comma : Byte := ','.toUInt8

/-- The byte `':'`. -/
def colon : Byte := ':'.toUInt8

/-! ## Reading -/

/-- `GetLine`: the next line that is neither blank nor a comment, and the lines behind it. -/
def getLine : List Bytes → Option (Bytes × List Bytes)
  | [] => none
  | line :: lines =>
      let line := Limonp.trim line
      if line.isEmpty || (bytes "#").isPrefixOf line then getLine lines else some (line, lines)

/-- The probabilities of the states in one line. -/
def loadProb (floats : Floats W) (line : Bytes) : Option (ByStatus W) :=
  match Limonp.split line space with
  | [b, e, m, s] => some ⟨floats.atof b, floats.atof e, floats.atof m, floats.atof s⟩
  | _ => none

/-- One turn of the loop of `LoadEmitProb`. -/
def addEmitProb (floats : Floats W) (mp : Rune → Option W) (piece : Bytes) :
    Option (Rune → Option W) :=
  match Limonp.split piece colon with
  | [char, prob] =>
      match decodeRunesInString char with
      | some [rune] => some (Function.update mp rune.rune (some (floats.atof prob)))
      | _ => none
  | _ => none

/-- `LoadEmitProb`. -/
def loadEmitProb (floats : Floats W) (line : Bytes) : Option (Rune → Option W) :=
  if line.isEmpty then
    none
  else
    (Limonp.split line comma).foldlM (addEmitProb floats) fun _ => none

/-- A line that is read in a way of its own, and the lines behind it. -/
def nextLine {α : Type} (load : Bytes → Option α) (lines : List Bytes) :
    Option (α × List Bytes) := do
  let (line, lines) ← getLine lines
  let value ← load line
  return (value, lines)

/-- `LoadModel`, with the file if it can be opened, and `none` where the process is aborted. -/
def loadModel (floats : Floats W) (file : Option Bytes) : Option (HMMModel W) := do
  let file ← file
  let (startProb, lines) ← nextLine (loadProb floats) (getlines file)
  let (transB, lines) ← nextLine (loadProb floats) lines
  let (transE, lines) ← nextLine (loadProb floats) lines
  let (transM, lines) ← nextLine (loadProb floats) lines
  let (transS, lines) ← nextLine (loadProb floats) lines
  let (emitProbB, lines) ← nextLine (loadEmitProb floats) lines
  let (emitProbE, lines) ← nextLine (loadEmitProb floats) lines
  let (emitProbM, lines) ← nextLine (loadEmitProb floats) lines
  let (emitProbS, _) ← nextLine (loadEmitProb floats) lines
  return {
    startProb
    transProb := ⟨transB, transE, transM, transS⟩
    emitProbVec := ⟨emitProbB, emitProbE, emitProbM, emitProbS⟩ }

/-! ## Writing -/

/-- A model as its file writes it. -/
structure Source where
  /-- The probabilities of the first state. -/
  startProb : ByStatus Bytes
  /-- The probabilities of one state behind another. -/
  transProb : ByStatus (ByStatus Bytes)
  /-- The probabilities of the characters of a state. -/
  emitProb : ByStatus (List (Char × Bytes))

/-- A number can stand in a line: it is there, and holds no separator. -/
def Plain (number : Bytes) : Prop :=
  number ≠ [] ∧ space ∉ number ∧ comma ∉ number ∧ colon ∉ number

namespace Source

/-- The line of the probabilities of the states. -/
def probLine (probs : ByStatus Bytes) : Bytes :=
  [space].intercalate [probs.b, probs.e, probs.m, probs.s]

/-- The piece of one character. -/
def emitPiece (entry : Char × Bytes) : Bytes :=
  [colon].intercalate [String.utf8EncodeChar entry.1, entry.2]

/-- The line of the probabilities of characters. -/
def emitLine (entries : List (Char × Bytes)) : Bytes :=
  [comma].intercalate (entries.map emitPiece)

/-- The lines of the file that count. -/
def rows (source : Source) : List Bytes :=
  probLine source.startProb ::
    [source.transProb.b, source.transProb.e, source.transProb.m, source.transProb.s].map probLine ++
    [source.emitProb.b, source.emitProb.e, source.emitProb.m, source.emitProb.s].map emitLine

/-- The model that is written. -/
def model (floats : Floats W) (source : Source) : HMMModel W where
  startProb := .tabulate fun y => floats.atof (source.startProb.get y)
  transProb := .tabulate fun y => .tabulate fun z => floats.atof ((source.transProb.get y).get z)
  emitProbVec := .tabulate fun y rune =>
    ((source.emitProb.get y).findRev? fun entry => entry.1.val = rune).map fun entry =>
      floats.atof entry.2

/-- All numbers are plain, and every state has characters, which are no separators. -/
structure Proper (source : Source) : Prop where
  /-- The probabilities of the first state are plain. -/
  startProb : ∀ y, Plain (source.startProb.get y)
  /-- The probabilities of transitions are plain. -/
  transProb : ∀ y z, Plain ((source.transProb.get y).get z)
  /-- Every state has characters. -/
  filled : ∀ y, source.emitProb.get y ≠ []
  /-- The characters are no separators, and their probabilities are plain. -/
  emitProb : ∀ y, ∀ entry ∈ source.emitProb.get y,
    entry.1 ≠ ',' ∧ entry.1 ≠ ':' ∧ Plain entry.2

end Source

/-- The lines of a file that count. -/
def meaningful (lines : List Bytes) : List Bytes :=
  (lines.map Limonp.trim).filter fun line => !(line.isEmpty || (bytes "#").isPrefixOf line)

/-! ## Reading what is written -/

section RoundTrip

variable {floats : Floats W}

theorem exists_nextLine {α : Type} {load : Bytes → Option α} {lines rows : List Bytes} {row : Bytes}
    (written : meaningful lines = row :: rows) {value : α} (loaded : load row = some value) :
    ∃ rest, nextLine load lines = some (value, rest) ∧ meaningful rest = rows := by
  induction lines with
  | nil => simp [meaningful] at written
  | cons line lines induction =>
      rw [meaningful, List.map_cons] at written
      rw [nextLine, getLine]
      dsimp only
      split
      · rename_i skipped
        rw [List.filter_cons_of_neg (by rw [skipped]; exact Bool.false_ne_true)] at written
        exact induction written
      · rename_i counts
        rw [List.filter_cons_of_pos (by rw [Bool.eq_false_iff.mpr counts]; rfl)] at written
        obtain ⟨row_eq, rows_eq⟩ := List.cons.inj written
        refine ⟨lines, ?_, rows_eq⟩
        rw [row_eq, Option.bind_eq_bind, Option.bind_some, loaded]
        rfl

theorem loadProb_probLine {probs : ByStatus Bytes} (plain : ∀ y, Plain (probs.get y)) :
    loadProb floats (Source.probLine probs) =
      some (.tabulate fun y => floats.atof (probs.get y)) := by
  have pieces : Limonp.split (Source.probLine probs) space =
      [probs.b, probs.e, probs.m, probs.s] := by
    apply Delimited.records_intercalate
    · simp only [List.forall_mem_cons, List.not_mem_nil, false_imp_iff, forall_const, and_true]
      exact ⟨(plain .B).2.1, (plain .E).2.1, (plain .M).2.1, (plain .S).2.1⟩
    · intro row last
      obtain rfl : probs.s = row := Option.some.inj last
      exact (plain .S).1
  rw [loadProb, pieces]
  rfl

theorem notMem_utf8EncodeChar {char separator : Char} (ne : char ≠ separator)
    (ascii : separator.toNat < 0x80) : separator.toUInt8 ∉ String.utf8EncodeChar char := by
  have value : separator.toUInt8.toNat = separator.toNat := by
    rw [Char.toUInt8, UInt32.toNat_toUInt8]
    exact Nat.mod_eq_of_lt (by change separator.toNat < 256; omega)
  intro member
  have same := Utf8.val_of_mem_utf8EncodeChar member (by rwa [value])
  rw [value] at same
  exact ne (Char.ext (UInt32.toNat.inj same))

theorem addEmitProb_emitPiece {char : Char} {prob : Bytes} (ne : char ≠ ':') (plain : Plain prob)
    (mp : Rune → Option W) :
    addEmitProb floats mp (Source.emitPiece (char, prob)) =
      some (Function.update mp char.val (some (floats.atof prob))) := by
  have pieces : Limonp.split (Source.emitPiece (char, prob)) colon =
      [String.utf8EncodeChar char, prob] := by
    apply Delimited.records_intercalate
    · simp only [List.forall_mem_cons, List.not_mem_nil, false_imp_iff, forall_const, and_true]
      exact ⟨notMem_utf8EncodeChar ne (by decide), plain.2.2.2⟩
    · intro row last
      obtain rfl : prob = row := Option.some.inj last
      exact plain.1
  have decoded : decodeRunesInString (String.utf8EncodeChar char) =
      some (runeStrs 0 0 [char]) := by
    have encoded : Utf8.encode [char] = String.utf8EncodeChar char := by
      rw [Utf8.encode_cons, Utf8.encode, List.flatMap_nil, List.append_nil]
    have few := char.utf8Size_le_four
    rw [← encoded]
    refine decodeRunesInString_encode ?_
    rw [encoded, String.length_utf8EncodeChar]
    omega
  rw [addEmitProb, pieces]
  dsimp only
  rw [decoded]
  rfl

theorem foldlM_addEmitProb {entries : List (Char × Bytes)}
    (proper : ∀ entry ∈ entries, entry.1 ≠ ':' ∧ Plain entry.2) (mp : Rune → Option W) :
    (entries.map Source.emitPiece).foldlM (addEmitProb floats) mp =
      some fun rune => ((entries.findRev? fun entry => entry.1.val = rune).map fun entry =>
        floats.atof entry.2).or (mp rune) := by
  induction entries generalizing mp with
  | nil => rfl
  | cons entry entries induction =>
      obtain ⟨⟨ne, plain⟩, others⟩ := List.forall_mem_cons.mp proper
      rw [List.map_cons, List.foldlM_cons, addEmitProb_emitPiece ne plain]
      rw [Option.bind_eq_bind, Option.bind_some, induction others]
      congr 1
      funext rune
      rw [List.findRev?]
      cases entries.findRev? fun entry => entry.1.val = rune with
      | some found => rfl
      | none =>
          by_cases same : entry.1.val = rune
          · subst same
            simp
          · simp [same, Function.update_of_ne (Ne.symm same)]

theorem loadEmitProb_emitLine {entries : List (Char × Bytes)} (filled : entries ≠ [])
    (proper : ∀ entry ∈ entries, entry.1 ≠ ',' ∧ entry.1 ≠ ':' ∧ Plain entry.2) :
    loadEmitProb floats (Source.emitLine entries) =
      some fun rune => (entries.findRev? fun entry => entry.1.val = rune).map fun entry =>
        floats.atof entry.2 := by
  have piece_ne (entry : Char × Bytes) : Source.emitPiece entry ≠ [] := by
    simp [Source.emitPiece, List.intercalate_cons_cons]
  have pieces : Limonp.split (Source.emitLine entries) comma = entries.map Source.emitPiece := by
    apply Delimited.records_intercalate
    · intro piece member
      obtain ⟨entry, entry_mem, rfl⟩ := List.mem_map.mp member
      obtain ⟨ne, -, plain⟩ := proper entry entry_mem
      have other : comma ≠ colon := by decide
      simp only [Source.emitPiece, List.intercalate_cons_cons, List.intercalate_singleton,
        List.mem_append, List.mem_singleton, not_or]
      exact ⟨⟨notMem_utf8EncodeChar ne (by decide), other⟩, plain.2.2.1⟩
    · intro piece member
      obtain ⟨entry, -, rfl⟩ := List.mem_map.mp (List.mem_of_getLast? member)
      exact piece_ne entry
  have nonempty : (Source.emitLine entries).isEmpty = false := by
    rw [List.isEmpty_eq_false_iff]
    intro empty
    rw [empty] at pieces
    exact filled (List.map_eq_nil_iff.mp pieces.symm)
  rw [loadEmitProb, nonempty, if_neg Bool.false_ne_true, pieces,
    foldlM_addEmitProb fun entry member => (proper entry member).2]
  simp only [Option.or_none]

/-- A model is read as it is written, whatever comments and blank lines its file holds
besides. -/
theorem loadModel_rows (floats : Floats W) {source : Source} (proper : source.Proper) {file : Bytes}
    (written : meaningful (getlines file) = source.rows) :
    loadModel floats (some file) = some (source.model floats) := by
  have emit (y : Status) :=
    @loadEmitProb_emitLine _ floats _ (proper.filled y) (proper.emitProb y)
  have trans (y : Status) := @loadProb_probLine _ floats _ (proper.transProb y)
  obtain ⟨lines₁, start_eq, written⟩ :=
    exists_nextLine written (@loadProb_probLine _ floats _ proper.startProb)
  obtain ⟨lines₂, b_eq, written⟩ := exists_nextLine written (trans .B)
  obtain ⟨lines₃, e_eq, written⟩ := exists_nextLine written (trans .E)
  obtain ⟨lines₄, m_eq, written⟩ := exists_nextLine written (trans .M)
  obtain ⟨lines₅, s_eq, written⟩ := exists_nextLine written (trans .S)
  obtain ⟨lines₆, emit_b_eq, written⟩ := exists_nextLine written (emit .B)
  obtain ⟨lines₇, emit_e_eq, written⟩ := exists_nextLine written (emit .E)
  obtain ⟨lines₈, emit_m_eq, written⟩ := exists_nextLine written (emit .M)
  obtain ⟨lines₉, emit_s_eq, -⟩ := exists_nextLine written (emit .S)
  simp only [loadModel, Option.bind_eq_bind, Option.bind_some, start_eq, b_eq, e_eq, m_eq, s_eq,
    emit_b_eq, emit_e_eq, emit_m_eq, emit_s_eq]
  rfl

/-- A model whose numbers are all different. -/
def numberedSource : Source where
  startProb := ⟨bytes "1", bytes "2", bytes "3", bytes "4"⟩
  transProb := {
    b := ⟨bytes "5", bytes "6", bytes "7", bytes "8"⟩
    e := ⟨bytes "9", bytes "10", bytes "11", bytes "12"⟩
    m := ⟨bytes "13", bytes "14", bytes "15", bytes "16"⟩
    s := ⟨bytes "17", bytes "18", bytes "19", bytes "20"⟩ }
  emitProb := {
    b := [('v', bytes "21"), ('中', bytes "22"), ('v', bytes "23")]
    e := [('v', bytes "24")]
    m := [('w', bytes "25")]
    s := [('x', bytes "26"), ('y', bytes "27")] }

/-- Its file, with comments and blank lines. -/
def numberedModelFile : Bytes :=
  bytes "#start\n1 2 3 4\n\n5 6 7 8\n9 10 11 12\n13 14 15 16\n17 18 19 20\n#emit\n" ++
    bytes "v:21,中:22,v:23\nv:24\n\nw:25\nx:26,y:27\n"

theorem loadModel_rows_numberedModelFile :
    loadModel DictTrie.eighthFloats (some numberedModelFile) =
      some (numberedSource.model DictTrie.eighthFloats) := by
  have written : meaningful (getlines numberedModelFile) = numberedSource.rows := by
    decide +kernel
  refine loadModel_rows DictTrie.eighthFloats ⟨?_, ?_, ?_, ?_⟩ written
  · intro y
    cases y <;> (rw [Plain]; decide)
  · intro y z
    cases y <;> cases z <;> (rw [Plain]; decide)
  · intro y
    cases y <;> exact List.cons_ne_nil _ _
  · have plain : ∀ y, ∀ entry ∈ numberedSource.emitProb.get y,
        entry.1 ≠ ',' ∧ entry.1 ≠ ':' ∧ entry.2 ≠ [] ∧ space ∉ entry.2 ∧ comma ∉ entry.2 ∧
          colon ∉ entry.2 := by
      intro y
      cases y <;> decide
    exact plain

end RoundTrip

end HMMModel

end BoostDocSearcher.Cppjieba
