import BoostDocSearcher.Pipeline

/-!
# The text that the stripper keeps

The two-state loop of `parseContent` is compared with a description by positions: a byte is kept
exactly when a closing bracket comes before it with no opening bracket in between. The same
description tells which newlines are lost when `readFile` joins the lines of a file.
-/

namespace BoostDocSearcher.Parser

/-- A byte of text as it is stored. -/
def spaced (c : Byte) : Byte :=
  if c = newline then space else c

/-- A closing bracket comes before the position, with no opening bracket in between. -/
def InText (fileContent : Bytes) (position : Nat) : Prop :=
  ∃ closing < position, fileContent[closing]? = some tagClose ∧
    ∀ between < position, closing < between → fileContent[between]? ≠ some tagOpen

instance (fileContent : Bytes) (position : Nat) : Decidable (InText fileContent position) :=
  inferInstanceAs (Decidable (∃ closing < position, fileContent[closing]? = some tagClose ∧
    ∀ between < position, closing < between → fileContent[between]? ≠ some tagOpen))

/-- The positions of the text bytes, in order. -/
def textPositions (fileContent : Bytes) : List Nat :=
  (List.range fileContent.length).filter fun position =>
    fileContent[position]? ≠ some tagOpen ∧ InText fileContent position

/-- The text bytes, in order, with newlines as spaces. -/
def textBytes (fileContent : Bytes) : Bytes :=
  (textPositions fileContent).filterMap fun position => fileContent[position]?.map spaced

/-! ## One more byte -/

theorem inText_append {position : Nat} {text : Bytes} (bound : position ≤ text.length)
    (after : Bytes) : InText (text ++ after) position ↔ InText text position := by
  have same {other : Nat} (earlier : other < position) :
      (text ++ after)[other]? = text[other]? :=
    List.getElem?_append_left (by omega)
  constructor
  · intro ⟨closing, earlier, closes, free⟩
    refine ⟨closing, earlier, same earlier ▸ closes, ?_⟩
    intro between before_position behind
    exact same before_position ▸ free between before_position behind
  · intro ⟨closing, earlier, closes, free⟩
    refine ⟨closing, earlier, (same earlier).trans closes, ?_⟩
    intro between before_position behind
    rw [same before_position]
    exact free between before_position behind

theorem inText_snoc (text : Bytes) (c : Byte) :
    InText (text ++ [c]) (text.length + 1) ↔
      c = tagClose ∨ (c ≠ tagOpen ∧ InText text text.length) := by
  have last : (text ++ [c])[text.length]? = some c := by simp
  constructor
  · intro ⟨closing, bound, closes, free⟩
    rcases Nat.lt_succ_iff_lt_or_eq.mp bound with earlier | rfl
    · right
      have not_open := free text.length (Nat.lt_succ_self _) earlier
      rw [last] at not_open
      refine ⟨fun opens => not_open (congrArg some opens), ?_⟩
      rw [← inText_append (Nat.le_refl _) [c]]
      exact ⟨closing, earlier, closes, fun between before => free between (by omega)⟩
    · left
      rw [last] at closes
      exact Option.some.inj closes
  · rintro (rfl | ⟨not_open, inside⟩)
    · exact ⟨text.length, Nat.lt_succ_self _, last, by omega⟩
    · rw [← inText_append (Nat.le_refl _) [c]] at inside
      obtain ⟨closing, earlier, closes, free⟩ := inside
      refine ⟨closing, by omega, closes, ?_⟩
      intro between bound behind
      rcases Nat.lt_succ_iff_lt_or_eq.mp bound with before | rfl
      · exact free between before behind
      · rw [last]
        exact fun opens => not_open (Option.some.inj opens)

theorem textBytes_snoc (text : Bytes) (c : Byte) :
    textBytes (text ++ [c]) =
      textBytes text ++
        if c ≠ tagOpen ∧ InText text text.length then [spaced c] else [] := by
  have last : (text ++ [c])[text.length]? = some c := by simp
  have earlier : (List.range text.length).filter (fun position =>
      (text ++ [c])[position]? ≠ some tagOpen ∧ InText (text ++ [c]) position) =
        textPositions text := by
    apply List.filter_congr
    intro position member
    have bound := List.mem_range.mp member
    simp only [List.getElem?_append_left bound, inText_append (Nat.le_of_lt bound)]
  have kept_earlier : (textPositions text).filterMap (fun position =>
      (text ++ [c])[position]?.map spaced) = textBytes text := by
    apply List.filterMap_congr
    intro position member
    have bound := List.mem_range.mp (List.mem_of_mem_filter member)
    rw [List.getElem?_append_left bound]
  rw [textBytes, textPositions, List.length_append, List.length_singleton, List.range_succ,
    List.filter_append, earlier, List.filterMap_append, kept_earlier]
  congr 1
  by_cases kept_here : c ≠ tagOpen ∧ InText text text.length
  · rw [if_pos kept_here, List.filter_cons_of_pos]
    · simp
    · simpa [inText_append (Nat.le_refl _)] using kept_here
  · rw [if_neg kept_here, List.filter_cons_of_neg]
    · rfl
    · simpa [inText_append (Nat.le_refl _)] using kept_here

theorem statusAfter_snoc (text : Bytes) (c : Byte) :
    statusAfter .lable (text ++ [c]) =
      (contentStep (statusAfter .lable text, kept .lable text) c).1 := by
  rw [statusAfter, List.foldl_append]
  rfl

theorem kept_snoc (text : Bytes) (c : Byte) :
    kept .lable (text ++ [c]) =
      (contentStep (statusAfter .lable text, kept .lable text) c).2 := by
  rw [kept, List.foldl_append]
  rfl

/-- The stripper is in the text exactly behind a closing bracket that no opening one follows. -/
theorem statusAfter_eq_content_iff (text : Bytes) :
    statusAfter .lable text = .content ↔ InText text text.length := by
  induction text using List.reverseRecOn with
  | nil =>
      constructor
      · intro inside
        contradiction
      · intro ⟨closing, bound, _⟩
        simp at bound
  | append_singleton text c induction =>
      rw [statusAfter_snoc, List.length_append, List.length_singleton, inText_snoc, ← induction]
      cases statusAfter .lable text with
      | lable => by_cases closes : c = tagClose <;> simp [contentStep, closes]
      | content =>
          by_cases opens : c = tagOpen
          · subst opens
            simp [contentStep]
            decide
          · simp [contentStep, opens]

/-- The loop keeps exactly the text bytes. -/
theorem kept_eq_textBytes (text : Bytes) : kept .lable text = textBytes text := by
  induction text using List.reverseRecOn with
  | nil => rfl
  | append_singleton text c induction =>
      simp only [kept_snoc, textBytes_snoc, ← statusAfter_eq_content_iff, induction]
      cases statusAfter .lable text with
      | lable => by_cases closes : c = tagClose <;> simp [contentStep, closes]
      | content => by_cases opens : c = tagOpen <;> simp [contentStep, opens, spaced]

theorem kept_lable_append {front : Bytes} (unclosed : tagClose ∉ front) (rest : Bytes) :
    kept .lable (front ++ rest) = kept .lable rest := by
  induction front with
  | nil => rfl
  | cons c front induction =>
      obtain ⟨head_ne, tail_free⟩ : tagClose ≠ c ∧ tagClose ∉ front := by
        simpa using unclosed
      rw [List.cons_append, kept_lable_cons, if_neg head_ne.symm, induction tail_free]

theorem tagOpen_notMem_kept (status : Status) (text : Bytes) : tagOpen ∉ kept status text := by
  induction text generalizing status with
  | nil => simp
  | cons c text induction =>
      cases status with
      | lable =>
          rw [kept_lable_cons]
          split <;> exact induction _
      | content =>
          rw [kept_content_cons]
          split
          · exact induction _
          · rename_i not_open
            rw [List.mem_cons, not_or]
            refine ⟨?_, induction _⟩
            split
            · decide
            · exact Ne.symm not_open

/-- `parseContent` keeps exactly the text bytes, none of which opens a tag, ends a line or
comes before the first closing bracket. -/
theorem parseContent_eq_textBytes (fileContent content : Bytes) :
    parseContent fileContent content = (true, content ++ textBytes fileContent) ∧
      tagOpen ∉ textBytes fileContent ∧ newline ∉ textBytes fileContent ∧
      ∀ front rest, fileContent = front ++ rest → tagClose ∉ front →
        textBytes fileContent = textBytes rest := by
  rw [parseContent_eq, kept_eq_textBytes]
  refine ⟨rfl, ?_, ?_, ?_⟩
  · rw [← kept_eq_textBytes]
    exact tagOpen_notMem_kept .lable fileContent
  · intro member
    rw [← kept_eq_textBytes] at member
    exact (mem_kept member).2 rfl
  · rintro front rest rfl unclosed
    rw [← kept_eq_textBytes, ← kept_eq_textBytes, kept_lable_append unclosed]

/-! ## Lines that are joined -/

/-- The bytes of a file without a newline at its very end. -/
def withoutFinalNewline (raw : Bytes) : Bytes :=
  if raw.getLast? = some newline then raw.dropLast else raw

/-- No newline lies in text. -/
def UnbrokenText (raw : Bytes) : Prop :=
  ∀ position, raw[position]? = some newline → ¬InText raw position

theorem joinLines_append (left right : Bytes) :
    joinLines (left ++ right) = joinLines left ++ joinLines right :=
  List.filter_append left right

theorem joinLines_withoutFinalNewline (raw : Bytes) :
    joinLines (withoutFinalNewline raw) = joinLines raw := by
  rw [withoutFinalNewline]
  split
  · rename_i ends
    obtain ⟨body, rfl⟩ := List.getLast?_eq_some_iff.mp ends
    rw [List.dropLast_concat, joinLines_append]
    simp [joinLines]
  · rfl

theorem unbrokenText_snoc (text : Bytes) (c : Byte) :
    UnbrokenText (text ++ [c]) ↔
      UnbrokenText text ∧ (c = newline → ¬InText text text.length) := by
  have last : (text ++ [c])[text.length]? = some c := by simp
  constructor
  · intro unbroken
    constructor
    · intro position breaks
      have bound := (List.getElem?_eq_some_iff.mp breaks).1
      rw [← inText_append (Nat.le_of_lt bound) [c]]
      exact unbroken position ((List.getElem?_append_left bound).trans breaks)
    · rintro rfl
      rw [← inText_append (Nat.le_refl _) [newline]]
      exact unbroken text.length last
  · intro ⟨unbroken, not_here⟩ position breaks
    have bound := (List.getElem?_eq_some_iff.mp breaks).1
    rw [List.length_append, List.length_singleton] at bound
    rcases Nat.lt_succ_iff_lt_or_eq.mp bound with earlier | rfl
    · rw [inText_append (Nat.le_of_lt earlier)]
      exact unbroken position ((List.getElem?_append_left earlier).symm.trans breaks)
    · rw [inText_append (Nat.le_refl _)]
      exact not_here (Option.some.inj (last.symm.trans breaks))

theorem statusAfter_joinLines (text : Bytes) :
    statusAfter .lable (joinLines text) = statusAfter .lable text := by
  induction text using List.reverseRecOn with
  | nil => rfl
  | append_singleton text c induction =>
      rw [joinLines_append, statusAfter_snoc]
      by_cases breaks : c = newline
      · subst breaks
        have dropped : joinLines [newline] = [] := by decide
        rw [dropped, List.append_nil, induction]
        cases statusAfter .lable text <;> rfl
      · have whole : joinLines [c] = [c] := by simp [joinLines, breaks]
        rw [whole, statusAfter_snoc, induction]
        cases statusAfter .lable text <;> simp only [contentStep] <;> split <;> rfl

/-- Joining the lines drops the spaces of the newlines in text, and nothing else. -/
theorem kept_joinLines (text : Bytes) :
    (kept .lable (joinLines text)).length ≤ (kept .lable text).length ∧
      (kept .lable (joinLines text) = kept .lable text ↔ UnbrokenText text) := by
  induction text using List.reverseRecOn with
  | nil =>
      refine ⟨Nat.le_refl _, ?_⟩
      simp [joinLines, UnbrokenText]
  | append_singleton text c induction =>
      obtain ⟨shorter, same_iff⟩ := induction
      rw [unbrokenText_snoc, ← same_iff, ← statusAfter_eq_content_iff, joinLines_append]
      by_cases breaks : c = newline
      · subst breaks
        have dropped : joinLines [newline] = [] := by decide
        rw [dropped, List.append_nil, kept_snoc]
        cases statusAfter .lable text with
        | lable => simpa [contentStep, show newline ≠ tagClose by decide] using shorter
        | content =>
            have longer : (contentStep (.content, kept .lable text) newline).2 =
                kept .lable text ++ [space] := rfl
            rw [longer, List.length_append]
            refine ⟨Nat.le_add_right_of_le shorter, ?_⟩
            constructor
            · intro same
              rw [same, List.length_append, List.length_singleton] at shorter
              omega
            · intro same_and_free
              exact absurd rfl (same_and_free.2 rfl)
      · have whole : joinLines [c] = [c] := by simp [joinLines, breaks]
        rw [whole, kept_snoc, kept_snoc, statusAfter_joinLines]
        cases statusAfter .lable text with
        | lable => by_cases closes : c = tagClose <;> simp [contentStep, closes, breaks, shorter]
        | content =>
            by_cases opens : c = tagOpen
            · subst opens
              simp [contentStep, breaks, shorter]
            · simp [contentStep, opens, breaks, shorter]

/-- What the parser keeps of a file agrees with the text of its original bytes. -/
theorem kept_joinLines_iff (raw : Bytes) :
    kept .lable (joinLines raw) = kept .lable (withoutFinalNewline raw) ↔
      UnbrokenText (withoutFinalNewline raw) := by
  rw [← joinLines_withoutFinalNewline]
  exact (kept_joinLines (withoutFinalNewline raw)).2

/-- The content that is added to the results for a file is its joined text. -/
theorem content_of_parseDocInfo {files : FileSystem} {filePath raw : Bytes}
    (opens : files filePath = some raw) {docResults : List DocInfo} {doc : DocInfo}
    (stored : parseDocInfo files [filePath] docResults = .ok (true, docResults ++ [doc])) :
    doc.content = kept .lable (joinLines raw) := by
  rw [parseDocInfo] at stored
  rcases parsed : parseFile files filePath with fault | found
  · rw [parsed] at stored
    contradiction
  · rw [parsed] at stored
    cases found with
    | none =>
        simp [bind, Except.bind, parseDocInfo] at stored
    | some first =>
        obtain rfl : first = doc := by
          simpa [bind, Except.bind, parseDocInfo] using stored
        obtain ⟨raw', opens', -, content_eq, -⟩ := parseFile_eq_some_iff.mp parsed
        rw [opens] at opens'
        rw [content_eq, Option.some.inj opens']

/-- The stored content keeps the words of a file apart exactly when its text has no inner
newline. -/
theorem storedContent_iff {files : FileSystem} {filePath raw : Bytes}
    (opens : files filePath = some raw) :
    ((parseContent (readFile files filePath []).2 []).2 =
        (parseContent (withoutFinalNewline raw) []).2 ↔
      UnbrokenText (withoutFinalNewline raw)) ∧
    ∀ docResults doc,
      parseDocInfo files [filePath] docResults = .ok (true, docResults ++ [doc]) →
        (doc.content = (parseContent (withoutFinalNewline raw) []).2 ↔
          UnbrokenText (withoutFinalNewline raw)) := by
  constructor
  · rw [readFile_of_open opens, parseContent_eq, parseContent_eq]
    exact kept_joinLines_iff raw
  · intro docResults doc stored
    rw [content_of_parseDocInfo opens stored, parseContent_eq]
    exact kept_joinLines_iff raw

/-- A file whose only newline ends it. -/
def oneLine : Bytes := bytes "<title>vector</title>\n"

theorem storedContent_iff_oneLine :
    ((parseContent (readFile (oneFile oneLine) (bytes "data/input/a.html") []).2 []).2 =
        (parseContent (withoutFinalNewline oneLine) []).2 ↔
      UnbrokenText (withoutFinalNewline oneLine)) ∧
    ∀ docResults doc,
      parseDocInfo (oneFile oneLine) [bytes "data/input/a.html"] docResults =
          .ok (true, docResults ++ [doc]) →
        (doc.content = (parseContent (withoutFinalNewline oneLine) []).2 ↔
          UnbrokenText (withoutFinalNewline oneLine)) :=
  storedContent_iff (if_pos rfl)

/-- A file with a newline between two words. -/
def twoLines : Bytes := bytes "<title>a</title><p>one\ntwo</p>"

/-- Two words on two lines are stored as one. -/
theorem storedContent_twoLines :
    parseDocInfo (oneFile twoLines) [bytes "data/input/a.html"] [] =
        .ok (true, [⟨bytes "a", bytes "aonetwo", urlHead ++ bytes "/a.html"⟩]) ∧
      bytes "aonetwo" ≠ (parseContent (withoutFinalNewline twoLines) []).2 := by
  constructor
  · rw [parseDocInfo, parseFile_oneFile twoLines (bytes "a") rfl]
    rfl
  · decide

end BoostDocSearcher.Parser
