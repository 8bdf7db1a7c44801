import Mathlib.Data.List.Basic
import Mathlib.Data.List.DropRight

/-!
# Terminated records, compressed fields and pieces

Three ways of cutting a sequence at distinguished symbols. A *record* ends at a terminator, and the
last record may miss it; a *field* lies between maximal runs of separators, so an empty field can
only be the first or the last one; a *piece* lies between any two separators. The first two cuts are
inverted exactly on the sequences that their writers may emit, and the last one commutes with every
code that leaves the separator alone. Once the blanks around pieces are stripped, the first piece
that is left is known by what stands around it.
-/

namespace Delimited

variable {α β : Type*}

/-- The records of a sequence: each ends at a terminator, except that trailing symbols without a
terminator form a last record of their own. -/
def records [DecidableEq α] (terminator : α) : List α → List (List α)
  | [] => []
  | symbol :: rest =>
      if symbol = terminator then
        [] :: records terminator rest
      else
        match records terminator rest with
        | [] => [[symbol]]
        | record :: more => (symbol :: record) :: more

/-- Cut at maximal runs of separators. The flag tells that the symbol before was a separator. -/
def fieldsFrom (separator : α → Bool) : Bool → List α → List (List α)
  | _, [] => [[]]
  | inRun, symbol :: rest =>
      if separator symbol then
        if inRun then
          fieldsFrom separator true rest
        else
          [] :: fieldsFrom separator true rest
      else
        (fieldsFrom separator false rest).modifyHead (symbol :: ·)

/-- The fields of a sequence, a run of separators counting once. -/
def fields (separator : α → Bool) (word : List α) : List (List α) :=
  fieldsFrom separator false word

/-- A word without the blanks at its ends. -/
def strip (blank : α → Bool) (word : List α) : List α :=
  (word.dropWhile blank).rdropWhile blank

/-- The first piece of a word that is not blank, without the blanks at its ends. -/
def firstPiece [DecidableEq α] (blank : α → Bool) (separator : α) (word : List α) : List α :=
  ((word.dropWhile fun symbol => blank symbol || symbol = separator).takeWhile
    (· ≠ separator)).rdropWhile blank

/-- A block leads a word: only blanks and separators stand before it, and only blanks between it and
the next separator or the end. -/
def Leads (blank : α → Bool) (separator : α) (block word : List α) : Prop :=
  ∃ lead trail rest, word = lead ++ (block ++ (trail ++ rest)) ∧
    (∀ symbol ∈ lead, blank symbol ∨ symbol = separator) ∧ (∀ symbol ∈ trail, blank symbol) ∧
    (rest = [] ∨ rest.head? = some separator)

/-! ## Records -/

section Records

variable [DecidableEq α]

/-- A terminated record is read back before anything that follows it. -/
theorem records_append_cons {terminator : α} {record : List α}
    (unterminated : terminator ∉ record) (rest : List α) :
    records terminator (record ++ terminator :: rest) =
      record :: records terminator rest := by
  induction record with
  | nil => simp [records]
  | cons symbol record induction =>
      obtain ⟨head_ne, tail_free⟩ : terminator ≠ symbol ∧ terminator ∉ record := by
        simpa using unterminated
      rw [List.cons_append, records, if_neg head_ne.symm, induction tail_free]

/-- Writing a terminator after every record is undone by reading records. -/
theorem records_flatMap_terminated {terminator : α} {rows : List (List α)}
    (unterminated : ∀ row ∈ rows, terminator ∉ row) :
    records terminator (rows.flatMap (· ++ [terminator])) = rows := by
  induction rows with
  | nil => rfl
  | cons row rows induction =>
      rw [List.flatMap_cons, List.append_assoc, List.singleton_append,
        records_append_cons (unterminated row List.mem_cons_self)]
      rw [induction fun other member => unterminated other (List.mem_cons_of_mem row member)]

/-- A nonempty record without its terminator is a record of its own. -/
theorem records_of_free {terminator : α} {record : List α} (unterminated : terminator ∉ record)
    (nonempty : record ≠ []) : records terminator record = [record] := by
  induction record with
  | nil => contradiction
  | cons symbol record induction =>
      obtain ⟨head_ne, tail_free⟩ : terminator ≠ symbol ∧ terminator ∉ record := by
        simpa using unterminated
      rw [records, if_neg head_ne.symm]
      cases record with
      | nil => rfl
      | cons next record => rw [induction tail_free (List.cons_ne_nil next record)]

/-- Writing a terminator between records is undone by reading them, unless the last one is empty. -/
theorem records_intercalate {terminator : α} {rows : List (List α)}
    (unterminated : ∀ row ∈ rows, terminator ∉ row) (filled : ∀ row ∈ rows.getLast?, row ≠ []) :
    records terminator ([terminator].intercalate rows) = rows := by
  induction rows with
  | nil => rfl
  | cons row rows induction =>
      obtain ⟨row_free, rows_free⟩ := List.forall_mem_cons.mp unterminated
      cases rows with
      | nil =>
          rw [List.intercalate_singleton]
          exact records_of_free row_free (filled row rfl)
      | cons next rows =>
          rw [List.getLast?_cons_cons] at filled
          rw [List.intercalate_cons_cons, List.append_assoc, List.singleton_append,
            records_append_cons row_free, induction rows_free filled]

theorem flatten_records (terminator : α) (word : List α) :
    (records terminator word).flatten = word.filter (· ≠ terminator) := by
  induction word with
  | nil => rfl
  | cons symbol rest induction =>
      rw [records]
      split
      · rename_i symbol_eq
        simpa [symbol_eq] using induction
      · rename_i symbol_ne
        rw [List.filter_cons_of_pos (by simpa using symbol_ne), ← induction]
        cases records terminator rest <;> rfl

theorem mem_of_mem_record {terminator : α} {word record : List α} {symbol : α}
    (record_mem : record ∈ records terminator word) (symbol_mem : symbol ∈ record) :
    symbol ∈ word ∧ symbol ≠ terminator := by
  have flattened : symbol ∈ (records terminator word).flatten :=
    List.mem_flatten.mpr ⟨record, record_mem, symbol_mem⟩
  simpa [flatten_records] using flattened

theorem terminator_notMem {terminator : α} {word record : List α}
    (record_mem : record ∈ records terminator word) : terminator ∉ record :=
  fun member => (mem_of_mem_record record_mem member).2 rfl

/-- Relabelling symbols commutes with reading records when it respects the terminator. -/
theorem records_map [DecidableEq β] {relabel : α → β} {source : α} {target : β}
    (respects : ∀ symbol, relabel symbol = target ↔ symbol = source) (word : List α) :
    records target (word.map relabel) = (records source word).map (List.map relabel) := by
  induction word with
  | nil => rfl
  | cons symbol rest induction =>
      simp only [List.map_cons, records, respects]
      split
      · rw [induction]
        rfl
      · rw [induction]
        cases records source rest <;> rfl

end Records

/-! ## Fields -/

variable {separator : α → Bool}

theorem fieldsFrom_ne_nil (inRun : Bool) (word : List α) :
    fieldsFrom separator inRun word ≠ [] := by
  induction word generalizing inRun with
  | nil => simp [fieldsFrom]
  | cons symbol rest induction =>
      rw [fieldsFrom]
      split
      · split
        · exact induction true
        · simp
      · have rest_ne := induction false
        cases equation : fieldsFrom separator false rest with
        | nil => exact absurd equation rest_ne
        | cons head tail => simp

theorem fieldsFrom_of_free {word : List α} (free : ∀ symbol ∈ word, separator symbol = false)
    (inRun : Bool) : fieldsFrom separator inRun word = [word] := by
  induction word generalizing inRun with
  | nil => rfl
  | cons symbol rest induction =>
      have head_free : separator symbol = false := free symbol List.mem_cons_self
      have rest_free : ∀ other ∈ rest, separator other = false :=
        fun other member => free other (List.mem_cons_of_mem symbol member)
      simp [fieldsFrom, head_free, induction rest_free]

/-- A separator closes the field before it, unless it only prolongs a run. -/
theorem fieldsFrom_append_cons {field : List α} {symbol : α}
    (free : ∀ other ∈ field, separator other = false) (closes : separator symbol = true)
    {inRun : Bool} (opened : field ≠ [] ∨ inRun = false) (rest : List α) :
    fieldsFrom separator inRun (field ++ symbol :: rest) =
      field :: fieldsFrom separator true rest := by
  induction field generalizing inRun with
  | nil =>
      have fresh : inRun = false := opened.resolve_left (by simp)
      simp [fieldsFrom, closes, fresh]
  | cons head tail induction =>
      have head_free : separator head = false := free head List.mem_cons_self
      have tail_free : ∀ other ∈ tail, separator other = false :=
        fun other member => free other (List.mem_cons_of_mem head member)
      simp [fieldsFrom, head_free, induction tail_free (Or.inr rfl)]

theorem fieldsFrom_true_cons {symbol : α} (prolongs : separator symbol = true)
    (rest : List α) :
    fieldsFrom separator true (symbol :: rest) = fieldsFrom separator true rest := by
  simp [fieldsFrom, prolongs]

/-- No field contains a separator, and every symbol of a field comes from the word. -/
theorem mem_of_mem_fieldsFrom {inRun : Bool} {word field : List α} {symbol : α}
    (field_mem : field ∈ fieldsFrom separator inRun word) (symbol_mem : symbol ∈ field) :
    symbol ∈ word ∧ separator symbol = false := by
  induction word generalizing inRun field with
  | nil =>
      obtain rfl : field = [] := by simpa [fieldsFrom] using field_mem
      simp at symbol_mem
  | cons head rest induction =>
      have later {flag : Bool} {other : List α} (other_mem : other ∈ fieldsFrom separator flag rest)
          (inside : symbol ∈ other) : symbol ∈ head :: rest ∧ separator symbol = false :=
        ⟨List.mem_cons_of_mem head (induction other_mem inside).1, (induction other_mem inside).2⟩
      rw [fieldsFrom] at field_mem
      split at field_mem
      · split at field_mem
        · exact later field_mem symbol_mem
        · rcases List.mem_cons.mp field_mem with rfl | rest_mem
          · simp at symbol_mem
          · exact later rest_mem symbol_mem
      · rename_i head_free
        cases equation : fieldsFrom separator false rest with
        | nil => exact absurd equation (fieldsFrom_ne_nil false rest)
        | cons first others =>
            rw [equation, List.modifyHead_cons] at field_mem
            rcases List.mem_cons.mp field_mem with rfl | others_mem
            · rcases List.mem_cons.mp symbol_mem with rfl | first_mem
              · exact ⟨List.mem_cons_self, by simpa using head_free⟩
              · exact later (equation ▸ List.mem_cons_self) first_mem
            · exact later (equation ▸ List.mem_cons_of_mem first others_mem) symbol_mem

theorem mem_of_mem_fields {word field : List α} {symbol : α}
    (field_mem : field ∈ fields separator word) (symbol_mem : symbol ∈ field) :
    symbol ∈ word ∧ separator symbol = false :=
  mem_of_mem_fieldsFrom field_mem symbol_mem

/-- Relabelling symbols commutes with cutting into fields when it respects the separators. -/
theorem fields_map {relabel : α → α}
    (respects : ∀ symbol, separator (relabel symbol) = separator symbol) (word : List α) :
    fields separator (word.map relabel) = (fields separator word).map (List.map relabel) := by
  have fromAny (inRun : Bool) : fieldsFrom separator inRun (word.map relabel) =
      (fieldsFrom separator inRun word).map (List.map relabel) := by
    induction word generalizing inRun with
    | nil => rfl
    | cons symbol rest induction =>
        simp only [List.map_cons, fieldsFrom, respects]
        split
        · split
          · exact induction true
          · rw [induction true]
            rfl
        · rw [induction false]
          cases fieldsFrom separator false rest <;> rfl
  exact fromAny false

/-- Three fields joined by single separators come back exactly when the middle one is nonempty. -/
theorem fields_three {first second third : List α} {symbol : α}
    (closes : separator symbol = true)
    (first_free : ∀ other ∈ first, separator other = false)
    (second_free : ∀ other ∈ second, separator other = false)
    (third_free : ∀ other ∈ third, separator other = false) (second_ne : second ≠ []) :
    fields separator (first ++ symbol :: (second ++ symbol :: third)) =
      [first, second, third] := by
  rw [fields, fieldsFrom_append_cons first_free closes (Or.inr rfl),
    fieldsFrom_append_cons second_free closes (Or.inl second_ne), fieldsFrom_of_free third_free]

/-- With an empty middle field the two separators form one run, and a field is lost. -/
theorem fields_three_of_empty {first third : List α} {symbol : α}
    (closes : separator symbol = true)
    (first_free : ∀ other ∈ first, separator other = false)
    (third_free : ∀ other ∈ third, separator other = false) :
    fields separator (first ++ symbol :: symbol :: third) = [first, third] := by
  rw [fields, fieldsFrom_append_cons first_free closes (Or.inr rfl),
    fieldsFrom_true_cons closes, fieldsFrom_of_free third_free]

/-! ## Pieces -/

section Pieces

variable [DecidableEq α] [DecidableEq β]

theorem splitOn_append_of_free {mark : α} {block : List α} (free : mark ∉ block)
    (word : List α) :
    (block ++ word).splitOn mark = (word.splitOn mark).modifyHead (block ++ ·) := by
  induction block with
  | nil =>
      rw [List.nil_append]
      cases word.splitOn mark <;> rfl
  | cons symbol block induction =>
      obtain ⟨head_ne, tail_free⟩ : mark ≠ symbol ∧ mark ∉ block := by
        simpa using free
      rw [List.cons_append, List.splitOn_cons_eq_if_modifyHead,
        if_neg (by simpa using head_ne.symm), induction tail_free]
      cases word.splitOn mark <;> rfl

/-- Cutting a coded sequence is coding the pieces, when the code leaves the separator alone. -/
theorem splitOn_flatMap {code : α → List β} {separator : α} {mark : β}
    (kept : code separator = [mark]) (free : ∀ symbol, symbol ≠ separator → mark ∉ code symbol)
    (word : List α) :
    (word.flatMap code).splitOn mark =
      (word.splitOn separator).map fun piece => piece.flatMap code := by
  induction word with
  | nil => rfl
  | cons symbol word induction =>
      rw [List.flatMap_cons, List.splitOn_cons_eq_if_modifyHead]
      by_cases separates : symbol = separator
      · rw [separates, kept, List.singleton_append, List.splitOn_cons_eq_if_modifyHead, induction]
        simp
      · rw [splitOn_append_of_free (free symbol separates), induction,
          if_neg (by simpa using separates)]
        cases word.splitOn separator with
        | nil => rfl
        | cons piece pieces => simp

theorem notMem_takeWhile_ne (separator : α) (word : List α) :
    separator ∉ word.takeWhile (· ≠ separator) := by
  intro member
  simpa using List.mem_takeWhile_imp member

/-- A word is read to its end when the separator does not occur in it. -/
theorem takeWhile_ne_eq_self_iff {separator : α} {word : List α} :
    word.takeWhile (· ≠ separator) = word ↔ separator ∉ word := by
  constructor
  · exact fun whole => whole ▸ notMem_takeWhile_ne separator word
  · intro free
    rw [List.takeWhile_eq_self_iff]
    intro symbol member
    simpa using ne_of_mem_of_not_mem member free

/-- The first piece ends before the first separator, and the others lie inside the word. -/
theorem splitOn_eq_cons (separator : α) (word : List α) :
    ∃ others, word.splitOn separator = word.takeWhile (· ≠ separator) :: others ∧
      ∀ piece ∈ others, piece <:+: word ∧ separator ∉ piece := by
  induction word with
  | nil => exact ⟨[], rfl, by simp⟩
  | cons symbol word induction =>
      obtain ⟨others, split_eq, inside⟩ := induction
      have later : ∀ piece ∈ others, piece <:+: symbol :: word ∧ separator ∉ piece :=
        fun piece member => ⟨List.infix_cons (inside piece member).1, (inside piece member).2⟩
      rw [List.splitOn_cons_eq_if_modifyHead, split_eq]
      split
      · rename_i separates
        rw [List.takeWhile_cons_of_neg (by simpa using separates)]
        refine ⟨_, rfl, ?_⟩
        intro piece member
        rcases List.mem_cons.mp member with rfl | other_mem
        · exact ⟨List.infix_cons (List.takeWhile_prefix _).isInfix, notMem_takeWhile_ne _ _⟩
        · exact later piece other_mem
      · rename_i symbol_ne
        rw [List.takeWhile_cons_of_pos (by simpa using symbol_ne)]
        exact ⟨others, rfl, later⟩

theorem infix_of_mem_splitOn {separator : α} {word piece : List α}
    (piece_mem : piece ∈ word.splitOn separator) : piece <:+: word ∧ separator ∉ piece := by
  obtain ⟨others, split_eq, inside⟩ := splitOn_eq_cons separator word
  rw [split_eq] at piece_mem
  rcases List.mem_cons.mp piece_mem with rfl | other_mem
  · exact ⟨(List.takeWhile_prefix _).isInfix, notMem_takeWhile_ne separator word⟩
  · exact inside piece other_mem

end Pieces

/-! ## Blanks around pieces -/

section Blanks

variable {blank : α → Bool} {separator : α}

theorem rdropWhile_append_of_blank {tail : List α} (blanks : ∀ symbol ∈ tail, blank symbol)
    (word : List α) : (word ++ tail).rdropWhile blank = word.rdropWhile blank := by
  rw [List.rdropWhile, List.reverse_append,
    List.dropWhile_append_of_pos fun symbol member => blanks symbol (List.mem_reverse.mp member)]
  rfl

variable [DecidableEq α]

theorem uncut_of_blank (solid : blank separator = false) {tail : List α}
    (blanks : ∀ symbol ∈ tail, blank symbol) : ∀ symbol ∈ tail, decide (symbol ≠ separator) := by
  intro symbol member
  have is_blank := blanks symbol member
  rw [decide_eq_true_eq]
  rintro rfl
  simp [solid] at is_blank

/-- Stripping the pieces and dropping the empty ones leaves the first piece in front. -/
theorem headD_filter_splitOn (word : List α) :
    (((word.splitOn separator).map (strip blank)).filter fun piece => !piece.isEmpty).headD [] =
      firstPiece blank separator word := by
  induction word with
  | nil => rfl
  | cons symbol word induction =>
      obtain ⟨others, split_eq, -⟩ := splitOn_eq_cons separator word
      rw [List.splitOn_cons_eq_if_modifyHead]
      by_cases separates : symbol = separator
      · rw [if_pos (by simpa using separates), List.map_cons, firstPiece,
          List.dropWhile_cons_of_pos (by simp [separates])]
        exact induction
      · rw [if_neg (by simpa using separates), split_eq, List.modifyHead_cons, List.map_cons]
        cases is_blank : blank symbol with
        | true =>
            have stripped (piece : List α) : strip blank (symbol :: piece) = strip blank piece := by
              rw [strip, List.dropWhile_cons_of_pos is_blank, strip]
            rw [stripped, ← List.map_cons, ← split_eq, induction, firstPiece, firstPiece,
              List.dropWhile_cons_of_pos (by simp [is_blank])]
        | false =>
            have solid : (symbol :: word.takeWhile (· ≠ separator)).rdropWhile blank ≠ [] := by
              rw [ne_eq, List.rdropWhile_eq_nil_iff]
              intro all_blank
              simpa [is_blank] using all_blank symbol List.mem_cons_self
            rw [strip, List.dropWhile_cons_of_neg (by simp [is_blank]), firstPiece,
              List.dropWhile_cons_of_neg (by simp [is_blank, separates]),
              List.takeWhile_cons_of_pos (by simpa using separates),
              List.filter_cons_of_pos (by simpa using solid), List.headD_cons]

theorem leads_firstPiece (word : List α) :
    Leads blank separator (firstPiece blank separator word) word := by
  let opens := fun symbol => blank symbol || symbol = separator
  let body := word.dropWhile opens
  refine ⟨word.takeWhile opens, (body.takeWhile (· ≠ separator)).rtakeWhile blank,
    body.dropWhile (· ≠ separator), ?_, ?_, ?_, ?_⟩
  · rw [firstPiece, ← List.append_assoc (List.rdropWhile blank _),
      List.rdropWhile_append_rtakeWhile, List.takeWhile_append_dropWhile,
      List.takeWhile_append_dropWhile]
  · intro symbol member
    simpa [opens] using List.mem_takeWhile_imp member
  · exact fun symbol => List.mem_rtakeWhile_imp
  · have stopped := List.head?_dropWhile_not (· ≠ separator) body
    cases rest_eq : body.dropWhile (· ≠ separator) with
    | nil => exact Or.inl rfl
    | cons symbol rest =>
        right
        rw [rest_eq] at stopped
        simpa using stopped

/-- A block without blanks and separators is the first piece when it leads the word. -/
theorem Leads.firstPiece_eq {block word : List α} (leads : Leads blank separator block word)
    (solid : blank separator = false) (block_ne : block ≠ [])
    (inside : ∀ symbol ∈ block, blank symbol = false ∧ symbol ≠ separator) :
    firstPiece blank separator word = block := by
  obtain ⟨lead, trail, rest, rfl, opens, blanks, closed⟩ := leads
  have opened : (lead ++ (block ++ (trail ++ rest))).dropWhile
      (fun symbol => blank symbol || symbol = separator) = block ++ (trail ++ rest) := by
    rw [List.dropWhile_append_of_pos (by simpa using opens)]
    obtain ⟨symbol, others, rfl⟩ := List.exists_cons_of_ne_nil block_ne
    obtain ⟨head_solid, head_ne⟩ := inside symbol List.mem_cons_self
    rw [List.cons_append, List.dropWhile_cons_of_neg (by simp [head_solid, head_ne])]
  have rest_cut : rest.takeWhile (· ≠ separator) = [] := by
    rcases closed with rfl | head_eq
    · rfl
    · obtain ⟨others, rfl⟩ := List.head?_eq_some_iff.mp head_eq
      rw [List.takeWhile_cons_of_neg (by simp)]
  have cut : (block ++ (trail ++ rest)).takeWhile (· ≠ separator) = block ++ trail := by
    rw [List.takeWhile_append_of_pos (by simpa using fun symbol member => (inside symbol member).2),
      List.takeWhile_append_of_pos (uncut_of_blank solid blanks), rest_cut, List.append_nil]
  rw [firstPiece, opened, cut, rdropWhile_append_of_blank blanks,
    List.rdropWhile_eq_self_iff.mpr]
  intro nonempty is_blank
  rw [(inside _ (List.getLast_mem nonempty)).1] at is_blank
  contradiction

theorem firstPiece_dropWhile (word : List α) :
    firstPiece blank separator (word.dropWhile blank) = firstPiece blank separator word := by
  induction word with
  | nil => rfl
  | cons symbol word induction =>
      cases is_blank : blank symbol with
      | true =>
          rw [List.dropWhile_cons_of_pos is_blank, induction, firstPiece, firstPiece,
            List.dropWhile_cons_of_pos (by simp [is_blank])]
      | false => rw [List.dropWhile_cons_of_neg (by simp [is_blank])]

theorem firstPiece_append_of_blank (solid : blank separator = false) {tail : List α}
    (blanks : ∀ symbol ∈ tail, blank symbol) (word : List α) :
    firstPiece blank separator (word ++ tail) = firstPiece blank separator word := by
  rw [firstPiece, firstPiece, List.dropWhile_append]
  split
  · rename_i nothing
    rw [List.isEmpty_iff.mp nothing, List.dropWhile_eq_nil_iff.mpr]
    intro symbol member
    simp [blanks symbol member]
  · rw [List.takeWhile_append]
    split
    · rename_i whole
      rw [List.takeWhile_eq_self_iff.mpr (uncut_of_blank solid blanks),
        rdropWhile_append_of_blank blanks,
        (List.takeWhile_prefix _).eq_of_length whole]
    · rfl

theorem firstPiece_strip (solid : blank separator = false) (word : List α) :
    firstPiece blank separator (strip blank word) = firstPiece blank separator word := by
  have split_end := List.rdropWhile_append_rtakeWhile (p := blank) (l := word.dropWhile blank)
  rw [← firstPiece_dropWhile word, ← split_end, strip,
    firstPiece_append_of_blank solid fun symbol => List.mem_rtakeWhile_imp]

end Blanks

end Delimited
