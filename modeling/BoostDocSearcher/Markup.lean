import BoostDocSearcher.Stripping

/-!
# Documents as token sequences

The grammar of a document: tags with quoted attribute values, comments, and runs of text. The two
states of the stripper know nothing of quotes and comments, so what it keeps of a document is its
text exactly when no tag and no comment leaves the state for tags early.
-/

namespace BoostDocSearcher.Markup

open BoostDocSearcher.Parser

/-- The byte of a double quote. -/
def quote : Byte := 34

/-- No bracket and no quote stands in a part of a tag. -/
def Unquoted (part : Bytes) : Prop :=
  tagOpen ∉ part ∧ tagClose ∉ part ∧ quote ∉ part

instance (part : Bytes) : Decidable (Unquoted part) :=
  inferInstanceAs (Decidable (tagOpen ∉ part ∧ tagClose ∉ part ∧ quote ∉ part))

/-- An attribute with a quoted value. -/
structure Attribute where
  /-- All that comes before the opening quote: blanks, the name and `'='`. -/
  label : Bytes
  /-- The bytes between the quotes. -/
  value : Bytes
  /-- The quotes come after the label. -/
  label_unquoted : Unquoted label
  /-- The value ends at the closing quote. -/
  value_inside : quote ∉ value

/-- An opening or closing tag. -/
structure Tag where
  /-- Whether a slash comes before the name. -/
  closing : Bool
  /-- The name. -/
  name : Bytes
  /-- The attributes. -/
  attributes : List Attribute
  /-- All that comes between the last attribute and the closing bracket. -/
  ending : Bytes
  /-- The name stands outside the quotes. -/
  name_unquoted : Unquoted name
  /-- So does the rest. -/
  ending_unquoted : Unquoted ending

/-- A comment. -/
structure Comment where
  /-- The bytes between the delimiters. -/
  body : Bytes
  /-- The comment ends at its closing delimiter. -/
  inside : ¬bytes "-->" <:+: body

/-- A run of text. -/
structure TextRun where
  /-- The bytes of the run. -/
  text : Bytes
  /-- The next tag or comment is not part of the run. -/
  untagged : tagOpen ∉ text

/-- One token of a document. -/
inductive Token where
  /-- An opening or closing tag. -/
  | tag (element : Tag)
  /-- A comment. -/
  | comment (remark : Comment)
  /-- A run of text. -/
  | text (run : TextRun)

/-- A sequence of tokens that starts with a tag. -/
structure Document where
  /-- The first token. -/
  first : Tag
  /-- The other tokens. -/
  rest : List Token

/-- The bytes of an attribute. -/
def Attribute.raw (field : Attribute) : Bytes :=
  field.label ++ quote :: (field.value ++ [quote])

/-- The bytes of a tag. -/
def Tag.raw (element : Tag) : Bytes :=
  tagOpen :: ((if element.closing then bytes "/" else []) ++ element.name ++
    element.attributes.flatMap Attribute.raw ++ element.ending ++ [tagClose])

/-- The bytes of a comment. -/
def Comment.raw (remark : Comment) : Bytes :=
  bytes "<!--" ++ remark.body ++ bytes "-->"

/-- The bytes of a token. -/
def Token.raw : Token → Bytes
  | .tag element => element.raw
  | .comment remark => remark.raw
  | .text run => run.text

/-- The text of a token, with newlines as spaces. -/
def Token.shown : Token → Bytes
  | .tag _ | .comment _ => []
  | .text run => run.text.map spaced

/-- All tokens of a document. -/
def Document.tokens (document : Document) : List Token :=
  .tag document.first :: document.rest

/-- The bytes of a document. -/
def Document.raw (document : Document) : Bytes :=
  document.tokens.flatMap Token.raw

/-- The text runs of a document, with newlines as spaces. -/
def Document.shown (document : Document) : Bytes :=
  document.tokens.flatMap Token.shown

/-- Each closing bracket ends the markup or is directly followed by an opening one. -/
def Sealed (markup : Bytes) : Prop :=
  ∀ front after, markup = front ++ tagClose :: after → after = [] ∨ tagOpen ∈ after.head?

/-- A token that is a tag or a comment is sealed. -/
def Token.Sealed : Token → Prop
  | .tag element => Markup.Sealed element.raw
  | .comment remark => Markup.Sealed remark.raw
  | .text _ => True

/-! ## One tag or comment -/

theorem sealed_cons (c : Byte) (text : Bytes) :
    Sealed (c :: text) ↔ (c = tagClose → text = [] ∨ tagOpen ∈ text.head?) ∧ Sealed text := by
  constructor
  · intro whole
    refine ⟨?_, ?_⟩
    · rintro rfl
      exact whole [] text rfl
    · intro front after text_eq
      exact whole (c :: front) after (congrArg (c :: ·) text_eq)
  · intro ⟨here, later⟩ front after text_eq
    cases front with
    | nil =>
        obtain ⟨rfl, rfl⟩ := List.cons.inj text_eq
        exact here rfl
    | cons d front =>
        obtain ⟨-, rest_eq⟩ := List.cons.inj text_eq
        exact later front after rest_eq

theorem kept_tagOpen_cons (status : Status) (text : Bytes) :
    kept status (tagOpen :: text) = kept .lable text := by
  cases status with
  | lable => rw [kept_lable_cons, if_neg (by decide)]
  | content => rw [kept_content_cons, if_pos rfl]

/-- The stripper keeps nothing of a text exactly when the text is sealed. -/
theorem kept_lable_eq_nil_iff (text : Bytes) : kept .lable text = [] ↔ Sealed text := by
  induction text with
  | nil => simp [Sealed]
  | cons c text induction =>
      rw [sealed_cons, ← induction, kept_lable_cons]
      by_cases closes : c = tagClose
      · rw [if_pos closes]
        cases text with
        | nil => simp
        | cons d text =>
            by_cases opens : d = tagOpen
            · subst opens
              rw [kept_tagOpen_cons, kept_tagOpen_cons]
              simp
            · simp [kept_content_cons, closes, opens]
      · simp [closes]

theorem kept_tagClose_append (status : Status) (text after : Bytes) :
    kept status (text ++ [tagClose] ++ after) =
      kept status (text ++ [tagClose]) ++ kept .content after := by
  have in_text (before : Status) : statusAfter before [tagClose] = .content := by
    cases before <;> rfl
  rw [kept_append, statusAfter, List.foldl_append, foldl_contentStep status [] text,
    foldl_contentStep, in_text]

/-! ## Whole documents -/

theorem Tag.exists_raw_eq (element : Tag) :
    ∃ inner, element.raw = tagOpen :: (inner ++ [tagClose]) :=
  ⟨_, rfl⟩

theorem Comment.exists_raw_eq (remark : Comment) :
    ∃ inner, remark.raw = tagOpen :: (inner ++ [tagClose]) := by
  have opening : bytes "<!--" = tagOpen :: bytes "!--" := by decide
  have closing : bytes "-->" = bytes "--" ++ [tagClose] := by decide
  refine ⟨bytes "!--" ++ remark.body ++ bytes "--", ?_⟩
  rw [Comment.raw, opening, closing]
  simp

/-- What a tag or comment leaves in the output comes before all that follows it. -/
theorem kept_markup_append {markup inner : Bytes}
    (delimited : markup = tagOpen :: (inner ++ [tagClose])) (status : Status) (after : Bytes) :
    kept status (markup ++ after) = kept .lable markup ++ kept .content after := by
  subst delimited
  have closed := kept_tagClose_append .lable (tagOpen :: inner) after
  rw [List.cons_append, List.cons_append, kept_tagOpen_cons] at closed
  rw [List.cons_append, kept_tagOpen_cons]
  simpa using closed

/-- Only a sealed tag or comment adds nothing to the text that follows it. -/
theorem kept_markup_iff {markup after text : Bytes}
    (delimited : ∃ inner, markup = tagOpen :: (inner ++ [tagClose]))
    (longer : text.length ≤ (kept .content after).length) :
    text.length ≤ (kept .content (markup ++ after)).length ∧
      (kept .content (markup ++ after) = text ↔ Sealed markup ∧ kept .content after = text) := by
  obtain ⟨inner, delimited⟩ := delimited
  rw [kept_markup_append delimited, List.length_append, ← kept_lable_eq_nil_iff]
  refine ⟨by omega, ?_⟩
  constructor
  · intro same
    have lengths := congrArg List.length same
    rw [List.length_append] at lengths
    have silent : kept .lable markup = [] := List.eq_nil_of_length_eq_zero (by omega)
    rw [silent] at same
    exact ⟨silent, same⟩
  · intro ⟨silent, same⟩
    rw [silent, same, List.nil_append]

/-- What is kept of tokens in the text holds their text runs, and is nothing else exactly when every
tag and comment is sealed. -/
theorem kept_tokens (tokens : List Token) :
    (tokens.flatMap Token.shown).length ≤ (kept .content (tokens.flatMap Token.raw)).length ∧
      (kept .content (tokens.flatMap Token.raw) = tokens.flatMap Token.shown ↔
        ∀ token ∈ tokens, token.Sealed) := by
  induction tokens with
  | nil => simp
  | cons token tokens induction =>
      obtain ⟨longer, same_iff⟩ := induction
      rw [List.flatMap_cons, List.flatMap_cons, List.forall_mem_cons, ← same_iff]
      cases token with
      | tag element => exact kept_markup_iff element.exists_raw_eq longer
      | comment remark => exact kept_markup_iff remark.exists_raw_eq longer
      | text run =>
          have whole : kept .content (run.text ++ tokens.flatMap Token.raw) =
              run.text.map spaced ++ kept .content (tokens.flatMap Token.raw) :=
            kept_content_append run.untagged _
          simp only [Token.raw, Token.shown, Token.Sealed, whole, List.length_append,
            Nat.add_le_add_iff_left, List.append_cancel_left_eq, true_and]
          exact ⟨longer, trivial⟩

/-- The stripper keeps the text runs of a document, and nothing else, exactly when in every tag
and comment each closing bracket but the last is directly followed by an opening one. -/
theorem parseContent_document_iff (document : Document) (content : Bytes) :
    parseContent document.raw content = (true, content ++ document.shown) ↔
      ∀ token ∈ document.tokens, token.Sealed := by
  have from_text : kept .lable document.raw = kept .content document.raw := by
    obtain ⟨inner, opening⟩ := document.first.exists_raw_eq
    have starts : document.raw =
        tagOpen :: (inner ++ [tagClose] ++ document.rest.flatMap Token.raw) := by
      rw [Document.raw, Document.tokens, List.flatMap_cons, Token.raw, opening]
      rfl
    rw [starts, kept_tagOpen_cons, kept_tagOpen_cons]
  rw [parseContent_eq, from_text, Prod.mk.injEq, List.append_right_inj]
  exact (and_iff_right rfl).trans (kept_tokens document.tokens).2

/-- A link whose quoted value holds a closing bracket. -/
def bracketInValue : Document where
  first :=
    { closing := false
      name := bytes "a"
      attributes := [⟨bytes " b=", bytes ">x", by decide, by decide⟩]
      ending := []
      name_unquoted := by decide
      ending_unquoted := by decide }
  rest := [.text ⟨bytes "y", by decide⟩]

/-- The value and the end of its tag are stored as text. -/
theorem parseContent_bracketInValue :
    bracketInValue.raw = bytes "<a b=\x22>x\x22>y" ∧
      parseContent bracketInValue.raw [] = (true, bytes "x\x22>y") ∧
      parseContent bracketInValue.raw [] ≠ (true, bracketInValue.shown) := by
  decide

end BoostDocSearcher.Markup
