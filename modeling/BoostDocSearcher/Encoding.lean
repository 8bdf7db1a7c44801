import BoostDocSearcher.Library.Utf8
import BoostDocSearcher.Snippet

/-!
# Snippets of encoded text

The window of `getDesc` is placed by byte distances, and a content is UTF-8. A snippet is well
formed exactly when neither end of its window splits a character.
-/

namespace BoostDocSearcher.Searcher

open Utf8

theorem boundary_slice {content : Bytes} {start stop : Nat} (proper : start < stop) :
    Boundary (slice content start stop) 0 ↔ Boundary content start := by
  have head_eq : (slice content start stop)[0]? = content[start]? := by
    rw [slice, List.getElem?_take_of_lt (by omega), List.getElem?_drop, Nat.add_zero]
  rw [Boundary, Boundary, head_eq]

theorem boundary_drop (content : Bytes) (stop : Nat) :
    Boundary (content.drop stop) 0 ↔ Boundary content stop := by
  rw [Boundary, Boundary, List.getElem?_drop, Nat.add_zero]

/-- A window is well formed exactly when neither end splits a character. -/
theorem valid_slice_iff {content : Bytes} (valid : Valid content) {start stop : Nat}
    (proper : start < stop) (inside : stop ≤ content.length) :
    Valid (slice content start stop) ↔ Boundary content start ∧ Boundary content stop := by
  have width := length_slice inside start
  have nonempty : slice content start stop ≠ [] := List.ne_nil_of_length_pos (by omega)
  have whole : Valid (content.take start ++ (slice content start stop ++ content.drop stop)) := by
    rw [take_slice_drop (Nat.le_of_lt proper)]
    exact valid
  rw [whole.block_iff nonempty, boundary_slice proper, boundary_drop]

theorem valid_marks : Valid (bytes "...") :=
  ⟨"...".toList, rfl⟩

/-- The marks of a snippet do not change whether it is well formed. -/
theorem valid_excerpt_iff (content : Bytes) (start stop : Nat) :
    Valid (excerpt content start stop) ↔ Valid (slice content start stop) := by
  have lead_valid : Valid (if start > 0 then bytes "..." else []) := by
    split
    · exact valid_marks
    · exact valid_nil
  constructor
  · intro marked
    exact ((marked.of_append_left lead_valid).split valid_marks.boundary_zero).1
  · intro valid
    exact lead_valid.append (valid.append valid_marks)

theorem valid_descText_iff {content keyword : Bytes} (valid : Valid content) {start stop : Nat}
    (window : descWindow content keyword = .cut start stop) :
    Valid (descText content keyword) ↔ Boundary content start ∧ Boundary content stop := by
  obtain ⟨proper, inside⟩ := cut_bounds window
  rw [descText_of_cut window, valid_excerpt_iff, valid_slice_iff valid proper (by omega)]

/-- The window of an occurrence with more than 100 bytes from its first byte on. -/
theorem descWindow_of_goesOn {content keyword : Bytes} {pos : Nat}
    (first : FirstAt content keyword pos) (goes_on : pos + nextStep < content.length)
    (bound : content.length < 2 ^ 63) :
    descWindow content keyword = .cut (pos - prevStep) (pos + nextStep) := by
  have several : 2 ≤ content.length := by
    simp only [nextStep] at goes_on
    omega
  rw [descWindow_of_firstAt first several bound, Nat.min_eq_left (by omega)]

/-- A snippet of a well-formed content is well formed exactly when its window splits no
character. -/
theorem getDesc_valid_iff {content : Bytes} (valid : Valid content) (keyword : Bytes) :
    ∃ desc, getDesc content keyword = .ok desc ∧
      ((∀ start stop, descWindow content keyword ≠ .cut start stop) → Valid desc) ∧
      (∀ start stop, descWindow content keyword = .cut start stop →
        (Valid desc ↔ Boundary content start ∧ Boundary content stop)) ∧
      ∀ pos, FirstAt content keyword pos → pos + nextStep < content.length →
        content.length < 2 ^ 63 →
        (Valid desc ↔ Boundary content (pos - prevStep) ∧ Boundary content (pos + nextStep)) := by
  refine ⟨descText content keyword, getDesc_eq content keyword, ?_, ?_, ?_⟩
  · intro uncut
    cases window : descWindow content keyword with
    | missing =>
        rw [descText, window]
        exact ⟨"keyword does not exist!".toList, rfl⟩
    | nothing =>
        rw [descText, window]
        exact ⟨"nothing!".toList, rfl⟩
    | cut start stop => exact absurd window (uncut start stop)
  · intro start stop window
    exact valid_descText_iff valid window
  · intro pos first goes_on bound
    exact valid_descText_iff valid (descWindow_of_goesOn first goes_on bound)

/-- Letters, with a character of two bytes across the end of a window that begins at the front. -/
def accented : Bytes := List.replicate 99 'a'.toUInt8 ++ bytes "éb"

theorem valid_accented : Valid accented := by
  have letters (count : Nat) : Valid (List.replicate count 'a'.toUInt8) := by
    induction count with
    | zero => exact valid_nil
    | succ count induction => exact Valid.append ⟨"a".toList, rfl⟩ induction
  exact (letters 99).append ⟨"éb".toList, rfl⟩

/-- The equivalence for a content that goes on behind the window. -/
theorem getDesc_valid_iff_accented :
    ∃ desc, getDesc accented (bytes "a") = .ok desc ∧
      ((∀ start stop, descWindow accented (bytes "a") ≠ .cut start stop) → Valid desc) ∧
      (∀ start stop, descWindow accented (bytes "a") = .cut start stop →
        (Valid desc ↔ Boundary accented start ∧ Boundary accented stop)) ∧
      ∀ pos, FirstAt accented (bytes "a") pos → pos + nextStep < accented.length →
        accented.length < 2 ^ 63 →
        (Valid desc ↔ Boundary accented (pos - prevStep) ∧ Boundary accented (pos + nextStep)) :=
  getDesc_valid_iff valid_accented (bytes "a")

/-- The window of a word at the front splits that character. -/
theorem getDesc_accented :
    Valid accented ∧ Valid (bytes "a") ∧ FirstAt accented (bytes "a") 0 ∧
      ∃ desc, getDesc accented (bytes "a") = .ok desc ∧ ¬Valid desc := by
  have first : FirstAt accented (bytes "a") 0 :=
    ⟨⟨Nat.zero_le _, rfl⟩, fun _ before => absurd before (Nat.not_lt_zero _)⟩
  have size : accented.length = 102 := rfl
  have window := descWindow_of_goesOn first (by rw [size]; decide) (by omega)
  refine ⟨valid_accented, ⟨"a".toList, rfl⟩, first, _, getDesc_eq _ _, ?_⟩
  rw [valid_descText_iff valid_accented window]
  intro ⟨_, ends⟩
  have tail_byte : accented[0 + nextStep]? = some 0xA9 := rfl
  have begins := ends 0xA9 tail_byte
  revert begins
  decide

end BoostDocSearcher.Searcher
