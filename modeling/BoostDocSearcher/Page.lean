import Mathlib.Logic.Embedding.Basic
import BoostDocSearcher.Library.Rewriting
import BoostDocSearcher.Snippet

/-!
# The result page

`BuildHtml` shows a title and a snippet after three global replacements. A string of the page is a
list of code units, and the server works on bytes; the replacements are the same in both alphabets,
so the alphabet is a parameter that contains the bytes.
-/

namespace BoostDocSearcher.Page

open Rewriting

/-- The byte `'&'`. -/
def ampersand : Byte := '&'.toUInt8

/-- `&lt;` stands for `'<'`. -/
def ltRule : Rule Byte := ⟨bytes "&lt;", bytes "<"⟩

/-- `&gt;` stands for `'>'`. -/
def gtRule : Rule Byte := ⟨bytes "&gt;", bytes ">"⟩

/-- `&amp;` stands for `'&'`. -/
def ampRule : Rule Byte := ⟨bytes "&amp;", bytes "&"⟩

/-- The entities that the page replaces. -/
def entities : List (Rule Byte) := [ltRule, gtRule, ampRule]

/-- The code units of a string of the page, for the bytes of ASCII. -/
def codeUnit : Byte ↪ UInt16 where
  toFun := UInt8.toUInt16
  inj' := by
    intro first second same
    exact UInt8.toUInt16_inj.mp same

variable {α : Type} [DecidableEq α] (unit : Byte ↪ α)

/-- `text.replace(/pattern/g, replacement)`. -/
def replaceAll (rule : Rule Byte) (text : List α) : List α :=
  rewrite [rule.map unit] text

/-- The text that `BuildHtml` shows for a title or a snippet. -/
def shownText (text : List α) : List α :=
  replaceAll unit ampRule (replaceAll unit gtRule (replaceAll unit ltRule text))

/-- Each entity is replaced once, in one pass. -/
def decodeEntities (text : List α) : List α :=
  rewrite (entities.map (Rule.map unit)) text

/-- The escape of one symbol. -/
def escapeUnit (symbol : α) : List α :=
  if symbol = unit '&'.toUInt8 then
    (bytes "&amp;").map unit
  else if symbol = unit '<'.toUInt8 then
    (bytes "&lt;").map unit
  else if symbol = unit '>'.toUInt8 then
    (bytes "&gt;").map unit
  else
    [symbol]

/-- HTML escaping of `'&'`, `'<'` and `'>'`. -/
def escapeHtml (text : List α) : List α :=
  text.flatMap (escapeUnit unit)

/-! ## Three passes in one -/

theorem marked_entities : Marked ampersand entities where
  named := by
    simp only [entities, List.forall_mem_cons, List.not_mem_nil, false_implies, implies_true,
      and_true]
    exact ⟨⟨bytes "lt;", rfl, by decide⟩, ⟨bytes "gt;", rfl, by decide⟩,
      ⟨bytes "amp;", rfl, by decide⟩⟩
  apart := by decide

/-- A replacement by a symbol that no entity holds is part of the one pass for the entities after
it. -/
theorem rewrite_replaceAll {rule : Rule Byte} {rules : List (Rule Byte)} {symbol : Byte}
    (some_entities : rule :: rules ⊆ entities) (single : rule.replacement = [symbol])
    (foreign : ∀ other ∈ entities, symbol ∉ other.pattern) (text : List α) :
    rewrite (rules.map (Rule.map unit)) (replaceAll unit rule text) =
      rewrite ((rule :: rules).map (Rule.map unit)) text := by
  have replacement_eq : (rule.map unit).replacement = [unit symbol] := by
    rw [Rule.map, single, List.map_singleton]
  have foreign_unit : ∀ other ∈ rule :: rules, unit symbol ∉ (other.map unit).pattern := by
    intro other member
    rw [Rule.map, List.mem_map_of_injective unit.injective]
    exact foreign other (some_entities member)
  have marked := (marked_entities.subset some_entities).map unit.injective
  refine rewrite_rewrite marked ?_ ?_ ?_ text
  · simp [replacement_eq]
  · obtain ⟨name, pattern_eq, -⟩ := marked.named (rule.map unit) List.mem_cons_self
    rw [replacement_eq, List.mem_singleton]
    intro marker_eq
    apply foreign_unit rule List.mem_cons_self
    rw [pattern_eq, marker_eq]
    exact List.mem_cons_self
  · intro other member
    obtain ⟨other, origin, rfl⟩ := List.mem_map.mp member
    rw [replacement_eq, List.disjoint_singleton]
    exact foreign_unit other (List.mem_cons_of_mem rule origin)

/-- The three replacements in a row are one pass. -/
theorem shownText_eq (text : List α) : shownText unit text = decodeEntities unit text := by
  have last_two (inner : List α) : replaceAll unit ampRule (replaceAll unit gtRule inner) =
      rewrite ([gtRule, ampRule].map (Rule.map unit)) inner := by
    have some_entities : gtRule :: [ampRule] ⊆ entities := by decide
    exact rewrite_replaceAll unit some_entities rfl (by decide) inner
  rw [shownText, last_two]
  exact rewrite_replaceAll unit (List.Subset.refl entities) rfl (by decide) text

theorem decodeEntities_escapeUnit (symbol : α) (text : List α) :
    decodeEntities unit (escapeUnit unit symbol ++ text) =
      symbol :: decodeEntities unit text := by
  have marked := marked_entities.map unit.injective
  have entity (rule : Rule Byte) (member : rule ∈ entities) :
      decodeEntities unit (rule.pattern.map unit ++ text) =
        rule.replacement.map unit ++ decodeEntities unit text :=
    marked.rewrite_pattern_append (List.mem_map_of_mem member) text
  rw [escapeUnit]
  split
  · rename_i symbol_eq
    rw [symbol_eq]
    exact entity ampRule (by decide)
  · rename_i not_ampersand
    split
    · rename_i symbol_eq
      rw [symbol_eq]
      exact entity ltRule (by decide)
    · split
      · rename_i symbol_eq
        rw [symbol_eq]
        exact entity gtRule (by decide)
      · exact rewrite_cons_of_none (marked.front?_cons_of_ne not_ampersand text)

theorem decodeEntities_escapeHtml (text : List α) :
    decodeEntities unit (escapeHtml unit text) = text := by
  induction text with
  | nil => rfl
  | cons symbol text induction =>
      rw [escapeHtml, List.flatMap_cons, decodeEntities_escapeUnit]
      exact congrArg (symbol :: ·) induction

/-- The replacements of the page are one pass that undoes HTML escaping. -/
theorem shownText_correct (text : List UInt16) :
    shownText codeUnit text = decodeEntities codeUnit text ∧
      shownText codeUnit (escapeHtml codeUnit text) = text := by
  rw [shownText_eq, shownText_eq]
  exact ⟨rfl, decodeEntities_escapeHtml codeUnit text⟩

/-! ## Snippets on the page -/

/-- The text that the page shows for a string of the server. Entities are ASCII, so that they stand
at the same places in the encoded text as in the string that the page reads. -/
def shownBytes (text : Bytes) : Bytes :=
  shownText (.refl Byte) text

/-- Every ampersand of a content begins an entity. -/
def OnlyEntities (content : Bytes) : Prop :=
  ∀ position, content[position]? = some ampersand →
    ∃ rule ∈ entities, rule.pattern <+: content.drop position

theorem shownBytes_eq (text : Bytes) : shownBytes text = rewrite entities text :=
  shownText_eq (.refl Byte) text

theorem entities_shrink : ∀ rule ∈ entities, rule.replacement.length < rule.pattern.length := by
  decide

theorem shownBytes_excerpt (content : Bytes) (start stop : Nat) :
    shownBytes (Searcher.excerpt content start stop) =
      (if start > 0 then bytes "..." else []) ++
        (shownBytes (slice content start stop) ++ bytes "...") := by
  have lead_unmarked : ampersand ∉ (if start > 0 then bytes "..." else []) := by
    split <;> decide
  have foreign : ∀ rule ∈ entities, '.'.toUInt8 ∉ rule.pattern := by decide
  have tail_whole : ¬Straddled entities (slice content start stop ++ bytes "...")
      (slice content start stop).length :=
    not_straddled_of_notMem foreign _ (bytes "..")
  have tail_shown : rewrite entities (bytes "...") = bytes "..." := by decide
  rw [shownBytes_eq, shownBytes_eq, Searcher.excerpt,
    marked_entities.rewrite_unmarked_append lead_unmarked,
    marked_entities.rewrite_append tail_whole, tail_shown]

/-- Cutting a snippet commutes with decoding exactly when no end of its window falls inside an
entity, and then the shown text is a piece of the decoded content. -/
theorem shownBytes_snippet {content keyword : Bytes} {start stop : Nat}
    (window : Searcher.descWindow content keyword = .cut start stop) :
    ∃ desc, Searcher.getDesc content keyword = .ok desc ∧
      shownBytes desc = (if start > 0 then bytes "..." else []) ++
        (shownBytes (slice content start stop) ++ bytes "...") ∧
      (shownBytes content = shownBytes (content.take start) ++
          (shownBytes (slice content start stop) ++ shownBytes (content.drop stop)) ↔
        ¬Straddled entities content start ∧ ¬Straddled entities content stop) ∧
      (¬Straddled entities content start → ¬Straddled entities content stop →
        shownBytes (slice content start stop) <:+: shownBytes content) := by
  obtain ⟨proper, inside⟩ := Searcher.cut_bounds window
  have commutes : shownBytes content = shownBytes (content.take start) ++
        (shownBytes (slice content start stop) ++ shownBytes (content.drop stop)) ↔
      ¬Straddled entities content start ∧ ¬Straddled entities content stop := by
    have pieces := take_slice_drop (Nat.le_of_lt proper) content
    have front_width : (content.take start).length = start := List.length_take_of_le (by omega)
    have block_end : (content.take start).length + (slice content start stop).length = stop := by
      rw [front_width, length_slice (by omega)]
      omega
    have exact_cuts := marked_entities.rewrite_block_iff entities_shrink (content.take start)
      (slice content start stop) (content.drop stop)
    rw [block_end, front_width, pieces] at exact_cuts
    simpa only [shownBytes_eq] using exact_cuts
  refine ⟨Searcher.descText content keyword, Searcher.getDesc_eq content keyword, ?_, commutes, ?_⟩
  · rw [Searcher.descText_of_cut window, shownBytes_excerpt]
  · intro start_whole stop_whole
    rw [commutes.mpr ⟨start_whole, stop_whole⟩]
    exact ⟨_, _, List.append_assoc _ _ _⟩

/-- The result for a content with one entity inside its window. -/
theorem shownBytes_snippet_ampersand :
    ∃ desc, Searcher.getDesc (bytes "a &amp; b") (bytes "a") = .ok desc ∧
      shownBytes desc = (if 0 > 0 then bytes "..." else []) ++
        (shownBytes (slice (bytes "a &amp; b") 0 8) ++ bytes "...") ∧
      (shownBytes (bytes "a &amp; b") = shownBytes ((bytes "a &amp; b").take 0) ++
          (shownBytes (slice (bytes "a &amp; b") 0 8) ++
            shownBytes ((bytes "a &amp; b").drop 8)) ↔
        ¬Straddled entities (bytes "a &amp; b") 0 ∧ ¬Straddled entities (bytes "a &amp; b") 8) ∧
      (¬Straddled entities (bytes "a &amp; b") 0 → ¬Straddled entities (bytes "a &amp; b") 8 →
        shownBytes (slice (bytes "a &amp; b") 0 8) <:+: shownBytes (bytes "a &amp; b")) :=
  shownBytes_snippet
    (Searcher.descWindow_of_firstAt (show Searcher.FirstAt _ _ 0 by decide) (by decide) (by decide))

/-- A content whose only entity lies across the end of a window that begins at the front. -/
def brokenEntity : Bytes := List.replicate 98 'a'.toUInt8 ++ bytes "&lt;b"

theorem onlyEntities_brokenEntity : OnlyEntities brokenEntity := by
  intro position begins
  have width : (List.replicate 98 'a'.toUInt8).length = 98 := List.length_replicate
  rcases Nat.lt_or_ge position 98 with early | late
  · rw [brokenEntity, List.getElem?_append_left (by omega),
      List.getElem?_replicate_of_lt early] at begins
    exact absurd begins (by decide)
  · obtain ⟨offset, rfl⟩ := Nat.exists_eq_add_of_le late
    have tail_eq : brokenEntity.drop 98 = bytes "&lt;b" := by
      rw [brokenEntity, List.drop_append, width, List.drop_of_length_le (by omega)]
      rfl
    rw [← List.getElem?_drop, tail_eq] at begins
    rw [← List.drop_drop, tail_eq]
    have tail_entities : ∀ offset < 5, (bytes "&lt;b")[offset]? = some ampersand →
        ∃ rule ∈ entities, rule.pattern <+: (bytes "&lt;b").drop offset := by
      decide
    exact tail_entities offset (List.getElem?_eq_some_iff.mp begins).1 begins

/-- The window of a word at the front shows a fragment of that entity. -/
theorem shownBytes_brokenEntity :
    OnlyEntities brokenEntity ∧ Searcher.FirstAt brokenEntity (bytes "a") 0 ∧
      Searcher.descWindow brokenEntity (bytes "a") = .cut 0 100 ∧
      ∃ desc, Searcher.getDesc brokenEntity (bytes "a") = .ok desc ∧
        ∀ shown, shownBytes desc = shown ++ bytes "..." →
          ¬shown <:+: shownBytes brokenEntity := by
  have first : Searcher.FirstAt brokenEntity (bytes "a") 0 :=
    ⟨⟨Nat.zero_le _, rfl⟩, fun _ before => absurd before (Nat.not_lt_zero _)⟩
  have size : brokenEntity.length = 103 := rfl
  have window : Searcher.descWindow brokenEntity (bytes "a") = .cut 0 100 := by
    rw [Searcher.descWindow_of_firstAt first (by omega) (by omega), size]
    rfl
  refine ⟨onlyEntities_brokenEntity, first, window, _, Searcher.getDesc_eq _ _, ?_⟩
  intro shown shown_eq piece
  rw [Searcher.descText_of_cut window, shownBytes_excerpt, if_neg (by omega), List.nil_append,
    List.append_left_inj] at shown_eq
  have letters : ampersand ∉ List.replicate 98 'a'.toUInt8 := by
    rw [List.mem_replicate]
    decide
  have cut_eq : slice brokenEntity 0 100 = List.replicate 98 'a'.toUInt8 ++ bytes "&l" := rfl
  have fragment : ampersand ∈ shown := by
    rw [← shown_eq, cut_eq, shownBytes_eq, marked_entities.rewrite_unmarked_append letters,
      List.mem_append]
    right
    decide
  have decoded : ampersand ∉ shownBytes brokenEntity := by
    rw [brokenEntity, shownBytes_eq, marked_entities.rewrite_unmarked_append letters,
      List.mem_append, not_or]
    exact ⟨letters, by decide⟩
  exact decoded (piece.subset fragment)

end BoostDocSearcher.Page
