import Mathlib.Data.List.TakeWhile
import Mathlib.Tactic.IntervalCases
import BoostDocSearcher.Stripping

/-!
# The title of a file

`parseTitle` looks for the first opening and the first closing tag of the whole file. Its outcome is
described by the positions at which the tags stand, and its result is found again in the text that
the stripper keeps.
-/

namespace BoostDocSearcher.Parser

/-- The pattern stands in the text at this position. -/
def StandsAt (text pattern : Bytes) (position : Nat) : Prop :=
  pattern <+: text.drop position

instance (text pattern : Bytes) (position : Nat) : Decidable (StandsAt text pattern position) :=
  inferInstanceAs (Decidable (pattern <+: text.drop position))

/-- The first opening tag of a file stands at `start`, and the nearest closing tag behind it stands
at `stop`. -/
structure TitleElement (fileContent : Bytes) (start stop : Nat) : Prop where
  /-- An opening tag stands at `start`. -/
  opened : StandsAt fileContent titleOpen start
  /-- No opening tag stands before. -/
  first : ∀ earlier < start, ¬StandsAt fileContent titleOpen earlier
  /-- A closing tag stands at `stop`. -/
  closed : StandsAt fileContent titleClose stop
  /-- It does not begin before the end of the opening tag. -/
  behind : start + titleOpen.length ≤ stop
  /-- No closing tag stands between them. -/
  nearest : ∀ between < stop, start + titleOpen.length ≤ between →
    ¬StandsAt fileContent titleClose between

/-- No closing tag stands before a position. -/
def UnclosedBefore (fileContent : Bytes) (start : Nat) : Prop :=
  ∀ earlier < start, ¬StandsAt fileContent titleClose earlier

/-! ## Positions of the tags -/

theorem matchesFront_eq_false_iff {text pattern : Bytes} :
    Occurrence.matchesFront (· == ·) text pattern = false ↔ ¬pattern <+: text := by
  rw [← Occurrence.matchesFront_beq_iff, Bool.not_eq_true]

theorem find_eq_some_iff {text pattern : Bytes} (nonempty : pattern ≠ []) {position : Nat} :
    find text pattern = some position ↔
      StandsAt text pattern position ∧ ∀ earlier < position, ¬StandsAt text pattern earlier := by
  simp only [find, Occurrence.first?_eq_some_iff, Occurrence.matchesFront_beq_iff,
    matchesFront_eq_false_iff, StandsAt]
  constructor
  · intro ⟨_, stands, first⟩
    exact ⟨stands, first⟩
  · intro ⟨stands, first⟩
    refine ⟨?_, stands, first⟩
    by_contra outside
    rw [List.drop_of_length_le (by omega), List.prefix_nil] at stands
    exact nonempty stands

theorem titleTags_apart {fileContent : Bytes} {start stop : Nat}
    (opened : StandsAt fileContent titleOpen start)
    (closed : StandsAt fileContent titleClose stop) :
    stop < start ∨ start + titleOpen.length ≤ stop := by
  by_contra overlap
  obtain ⟨after, drop_eq⟩ := opened
  obtain ⟨offset, rfl⟩ : ∃ offset, stop = start + offset := ⟨stop - start, by omega⟩
  have width : titleOpen.length = 7 := by decide
  rw [StandsAt, ← List.drop_drop, ← drop_eq] at closed
  have inside : offset < 7 := by omega
  have spelled : titleOpen = [60, 116, 105, 116, 108, 101, 62] := by decide
  have closing : titleClose = [60, 47, 116, 105, 116, 108, 101, 62] := by decide
  rw [spelled, closing] at closed
  interval_cases offset <;> simp at closed

/-- The two searches of `parseTitle` answer the ends of a title element that no closing tag
precedes. -/
theorem find_tags_iff {fileContent : Bytes} {start stop : Nat} :
    (find fileContent titleOpen = some start ∧ find fileContent titleClose = some stop ∧
        start + titleOpen.length ≤ stop) ↔
      TitleElement fileContent start stop ∧ UnclosedBefore fileContent start := by
  rw [find_eq_some_iff (by decide), find_eq_some_iff (by decide)]
  constructor
  · intro ⟨⟨opened, first⟩, ⟨closed, nearest⟩, behind⟩
    exact ⟨⟨opened, first, closed, behind, fun between before _ => nearest between before⟩,
      fun earlier before => nearest earlier (by omega)⟩
  · intro ⟨element, unclosed⟩
    refine ⟨⟨element.opened, element.first⟩, ⟨element.closed, ?_⟩, element.behind⟩
    intro between before stands
    rcases titleTags_apart element.opened stands with earlier | later
    · exact unclosed between earlier stands
    · exact element.nearest between before later stands

/-! ## The outcome of `parseTitle` -/

theorem parseTitle_eq_true_iff (fileContent title text : Bytes) :
    parseTitle fileContent title = .ok (true, text) ↔
      ∃ start stop, TitleElement fileContent start stop ∧ UnclosedBefore fileContent start ∧
        text = slice fileContent (start + titleOpen.length) stop := by
  simp only [← and_assoc, ← find_tags_iff]
  constructor
  · intro found
    cases opened : find fileContent titleOpen with
    | none => simp [parseTitle, opened] at found
    | some start =>
        cases closed : find fileContent titleClose with
        | none => simp [parseTitle, opened, closed] at found
        | some stop =>
            by_cases ordered : start + titleOpen.length ≤ stop
            · rw [parseTitle_of_find opened closed ordered] at found
              exact ⟨start, stop, ⟨⟨rfl, rfl⟩, ordered⟩, by simpa [slice] using found.symm⟩
            · simp [parseTitle, opened, closed, Nat.lt_of_not_le ordered] at found
  · rintro ⟨start, stop, ⟨⟨opened, closed⟩, ordered⟩, rfl⟩
    exact parseTitle_of_find opened closed ordered title

/-- `parseTitle` accepts a file exactly when no closing tag stands before its title element, and
leaves its output alone otherwise. -/
theorem parseTitle_outcome (fileContent title : Bytes) :
    (∀ text, parseTitle fileContent title = .ok (true, text) ↔
      ∃ start stop, TitleElement fileContent start stop ∧ UnclosedBefore fileContent start ∧
        text = slice fileContent (start + titleOpen.length) stop) ∧
    ∀ out, parseTitle fileContent title = .ok (false, out) ↔
      out = title ∧
        ¬∃ start stop, TitleElement fileContent start stop ∧ UnclosedBefore fileContent start := by
  refine ⟨parseTitle_eq_true_iff fileContent title, fun out => ?_⟩
  rcases parseTitle_cases fileContent title with untitled | ⟨_, text, _, _, titled⟩
  · rw [untitled]
    constructor
    · intro same
      refine ⟨(Prod.mk.inj (Except.ok.inj same)).2.symm, ?_⟩
      intro ⟨start, stop, element, unclosed⟩
      have titled := (parseTitle_eq_true_iff fileContent title _).mpr
        ⟨start, stop, element, unclosed, rfl⟩
      rw [untitled] at titled
      simp at titled
    · rintro ⟨rfl, -⟩
      rfl
  · rw [titled]
    constructor
    · intro other
      simp at other
    · intro ⟨_, no_element⟩
      obtain ⟨start, stop, element, unclosed, -⟩ :=
        (parseTitle_eq_true_iff fileContent title text).mp titled
      exact absurd ⟨start, stop, element, unclosed⟩ no_element

/-- A closing tag before the title element hides it. -/
theorem parseTitle_closedBefore :
    TitleElement (bytes "</title><title>a</title>") 8 16 ∧
      parseTitle (bytes "</title><title>a</title>") [] = .ok (false, []) := by
  refine ⟨⟨by decide, by decide, by decide, by decide, ?_⟩, rfl⟩
  decide

/-! ## The title in the content -/

/-- The stripper keeps a title up to its first opening bracket, whatever comes before it. -/
theorem title_infix_parseContent {fileContent title text : Bytes}
    (titled : parseTitle fileContent title = .ok (true, text)) :
    (text.takeWhile (· ≠ tagOpen)).map spaced <:+: (parseContent fileContent []).2 := by
  rcases parseTitle_cases fileContent title with
    untitled | ⟨front, found, after, content_eq, accepted⟩
  · simp [untitled] at titled
  · obtain rfl : found = text := by simpa [accepted] using titled
    generalize shown_eq : found.takeWhile (· ≠ tagOpen) = shown
    have untagged : tagOpen ∉ shown := shown_eq ▸ Delimited.notMem_takeWhile_ne tagOpen found
    have found_eq : found = shown ++ found.dropWhile (· ≠ tagOpen) := by
      rw [← shown_eq, List.takeWhile_append_dropWhile]
    rw [parseContent_eq, content_eq, kept_append, kept_titleOpen_append, found_eq,
      List.append_assoc, kept_content_append untagged]
    exact ⟨_, _, List.append_assoc _ _ _⟩

/-- The inclusion for a title that ends with a tag. -/
theorem title_infix_parseContent_tagged :
    ((bytes "a <b>c</b>").takeWhile (· ≠ tagOpen)).map spaced <:+:
      (parseContent (bytes "<!-- > <title>a <b>c</b></title>") []).2 :=
  title_infix_parseContent (show parseTitle _ [] = .ok (true, bytes "a <b>c</b>") from rfl)

end BoostDocSearcher.Parser
