import Mathlib.Data.List.Basic
import Mathlib.Data.List.Infix
import Mathlib.Data.List.Pairwise

/-!
# Replacement of words

One pass over a text replaces, from left to right, each word that is the pattern of a rule, and
never looks again at what it wrote. When the patterns begin with a marker that they hold nowhere
else, passes for single rules can be fused into one pass for all of them, and a pass commutes with a
cut of the text exactly when the cut falls inside no pattern.
-/

namespace Rewriting

/-- The replacement of one word by another. -/
structure Rule (α : Type*) where
  /-- The word that is replaced. -/
  pattern : List α
  /-- The word that is written for it. -/
  replacement : List α
  deriving DecidableEq

variable {α β : Type*}

/-- The same rule in another alphabet. -/
def Rule.map (relabel : α → β) (rule : Rule α) : Rule β where
  pattern := rule.pattern.map relabel
  replacement := rule.replacement.map relabel

/-- Each pattern begins with the marker and holds it nowhere else, and no pattern is a prefix of
another. -/
structure Marked (marker : α) (rules : List (Rule α)) : Prop where
  /-- Behind the marker comes a name without it. -/
  named : ∀ rule ∈ rules, ∃ name, rule.pattern = marker :: name ∧ marker ∉ name
  /-- Two rules never match at the same place. -/
  apart : ∀ first ∈ rules, ∀ second ∈ rules, first.pattern <+: second.pattern → first = second

/-- A pattern begins before the position and ends behind it. -/
def Straddled (rules : List (Rule α)) (text : List α) (position : Nat) : Prop :=
  ∃ rule ∈ rules, ∃ start < position,
    position < start + rule.pattern.length ∧ rule.pattern <+: text.drop start

theorem not_straddled_of_notMem {rules : List (Rule α)} {symbol : α}
    (foreign : ∀ rule ∈ rules, symbol ∉ rule.pattern) (left right : List α) :
    ¬Straddled rules (left ++ symbol :: right) left.length := by
  intro ⟨rule, member, start, before, behind, matched⟩
  have inside : left.length - start < rule.pattern.length := by omega
  have here : rule.pattern[left.length - start]? = some symbol := by
    have place : start + (left.length - start) = left.length := by omega
    rw [List.getElem?_eq_getElem inside, matched.getElem inside, ← List.getElem?_eq_getElem,
      List.getElem?_drop, place]
    simp
  exact foreign rule member (List.mem_of_getElem? here)

/-- A pattern that a cut of a text falls into is still cut when words come before the text. -/
theorem straddled_append {rules : List (Rule α)} {text : List α} {position : Nat}
    (word : List α) (straddled : Straddled rules text position) :
    Straddled rules (word ++ text) (word.length + position) := by
  obtain ⟨rule, member, start, before, behind, matched⟩ := straddled
  refine ⟨rule, member, word.length + start, by omega, by omega, ?_⟩
  rwa [← List.drop_drop, List.drop_left]

theorem straddled_cons {rules : List (Rule α)} {text : List α} {position : Nat}
    (symbol : α) (straddled : Straddled rules text position) :
    Straddled rules (symbol :: text) (position + 1) := by
  have shifted := straddled_append [symbol] straddled
  rwa [List.length_singleton, Nat.add_comm] at shifted

namespace Marked

variable {marker : α} {rules : List (Rule α)}

theorem pattern_ne_nil (marked : Marked marker rules) {rule : Rule α} (member : rule ∈ rules) :
    rule.pattern ≠ [] := by
  obtain ⟨name, pattern_eq, -⟩ := marked.named rule member
  simp [pattern_eq]

theorem eq_of_prefix_of_prefix (marked : Marked marker rules) {first second : Rule α}
    (first_mem : first ∈ rules) (second_mem : second ∈ rules) {text : List α}
    (first_front : first.pattern <+: text) (second_front : second.pattern <+: text) :
    first = second := by
  rcases List.prefix_or_prefix_of_prefix first_front second_front with shorter | longer
  · exact marked.apart first first_mem second second_mem shorter
  · exact (marked.apart second second_mem first first_mem longer).symm

theorem subset (marked : Marked marker rules) {fewer : List (Rule α)} (smaller : fewer ⊆ rules) :
    Marked marker fewer where
  named rule member := marked.named rule (smaller member)
  apart first first_mem second second_mem :=
    marked.apart first (smaller first_mem) second (smaller second_mem)

theorem map (marked : Marked marker rules) {relabel : α → β}
    (distinct : Function.Injective relabel) :
    Marked (relabel marker) (rules.map (Rule.map relabel)) where
  named := by
    intro rule member
    obtain ⟨rule, origin, rfl⟩ := List.mem_map.mp member
    obtain ⟨name, pattern_eq, name_free⟩ := marked.named rule origin
    refine ⟨name.map relabel, ?_, ?_⟩
    · rw [Rule.map, pattern_eq, List.map_cons]
    · rwa [List.mem_map_of_injective distinct]
  apart := by
    intro first first_mem second second_mem shorter
    obtain ⟨first, first_origin, rfl⟩ := List.mem_map.mp first_mem
    obtain ⟨second, second_origin, rfl⟩ := List.mem_map.mp second_mem
    obtain ⟨pattern, inside, same⟩ := List.prefix_map_iff.mp shorter
    rw [← List.map_injective_iff.mpr distinct same] at inside
    rw [marked.apart first first_origin second second_origin inside]

theorem not_prefix_drop (marked : Marked marker rules) {rule other : Rule α}
    (member : rule ∈ rules) (other_mem : other ∈ rules) {start : Nat} (positive : 0 < start)
    (inside : start < rule.pattern.length) (after : List α) :
    ¬other.pattern <+: (rule.pattern ++ after).drop start := by
  obtain ⟨name, pattern_eq, name_free⟩ := marked.named rule member
  obtain ⟨other_name, other_eq, -⟩ := marked.named other other_mem
  obtain ⟨offset, rfl⟩ := Nat.exists_eq_succ_of_ne_zero (Nat.ne_of_gt positive)
  rw [pattern_eq, List.length_cons] at inside
  have bound : offset < name.length := Nat.lt_of_succ_lt_succ inside
  rw [pattern_eq, other_eq, List.cons_append, List.drop_succ_cons,
    List.drop_append_of_le_length (Nat.le_of_lt bound), List.drop_eq_getElem_cons bound,
    List.cons_append, List.cons_prefix_cons]
  intro ⟨marker_eq, _⟩
  exact name_free (marker_eq ▸ List.getElem_mem bound)

theorem straddled_of_append (marked : Marked marker rules) {rule : Rule α}
    (member : rule ∈ rules) {text : List α} {position : Nat}
    (straddled : Straddled rules (rule.pattern ++ text) (rule.pattern.length + position)) :
    Straddled rules text position := by
  obtain ⟨other, other_mem, start, before, behind, matched⟩ := straddled
  rcases Nat.lt_or_ge start rule.pattern.length with early | late
  · rcases Nat.eq_zero_or_pos start with rfl | positive
    · rw [List.drop_zero] at matched
      have same := marked.eq_of_prefix_of_prefix other_mem member matched (List.prefix_append _ _)
      rw [same] at behind
      omega
    · exact absurd matched (marked.not_prefix_drop member other_mem positive early text)
  · obtain ⟨offset, rfl⟩ := Nat.exists_eq_add_of_le late
    rw [← List.drop_drop, List.drop_left] at matched
    exact ⟨other, other_mem, offset, by omega, by omega, matched⟩

end Marked

variable [DecidableEq α]

/-- The first rule whose pattern is a prefix of the text. -/
def front? (rules : List (Rule α)) (text : List α) : Option (Rule α) :=
  rules.find? fun rule => decide (rule.pattern <+: text)

/-- One pass, with some symbols of the last match still to be passed over. -/
def rewriteFrom (rules : List (Rule α)) : Nat → List α → List α
  | _, [] => []
  | skip + 1, _ :: text => rewriteFrom rules skip text
  | 0, symbol :: text =>
      match front? rules (symbol :: text) with
      | some rule => rule.replacement ++ rewriteFrom rules (rule.pattern.length - 1) text
      | none => symbol :: rewriteFrom rules 0 text

/-- One pass over a text. -/
def rewrite (rules : List (Rule α)) (text : List α) : List α :=
  rewriteFrom rules 0 text

/-! ## One step of a pass -/

theorem rewriteFrom_eq_drop (rules : List (Rule α)) (skip : Nat) (text : List α) :
    rewriteFrom rules skip text = rewrite rules (text.drop skip) := by
  induction skip generalizing text with
  | zero => rfl
  | succ skip induction =>
      cases text with
      | nil => rfl
      | cons symbol text => exact induction text

@[simp]
theorem rewrite_nil (rules : List (Rule α)) : rewrite rules [] = [] := rfl

theorem front?_eq_none_iff {rules : List (Rule α)} {text : List α} :
    front? rules text = none ↔ ∀ rule ∈ rules, ¬rule.pattern <+: text := by
  simp [front?]

theorem mem_of_front? {rules : List (Rule α)} {text : List α} {rule : Rule α}
    (found : front? rules text = some rule) : rule ∈ rules ∧ rule.pattern <+: text :=
  ⟨List.mem_of_find?_eq_some found, by simpa using List.find?_some found⟩

theorem rewrite_cons_of_none {rules : List (Rule α)} {symbol : α} {text : List α}
    (free : front? rules (symbol :: text) = none) :
    rewrite rules (symbol :: text) = symbol :: rewrite rules text := by
  rw [rewrite, rewriteFrom, free]
  rfl

theorem rewrite_of_some {rules : List (Rule α)} {after : List α} {rule : Rule α}
    (found : front? rules (rule.pattern ++ after) = some rule) (nonempty : rule.pattern ≠ []) :
    rewrite rules (rule.pattern ++ after) = rule.replacement ++ rewrite rules after := by
  obtain ⟨symbol, pattern, pattern_eq⟩ := List.exists_cons_of_ne_nil nonempty
  rw [pattern_eq, List.cons_append] at found
  rw [pattern_eq, List.cons_append, rewrite, rewriteFrom, found]
  simp only [rewriteFrom_eq_drop, pattern_eq, List.length_cons, Nat.add_sub_cancel, List.drop_left]

namespace Marked

variable {marker : α} {rules : List (Rule α)}

theorem front?_append (marked : Marked marker rules) {rule : Rule α} (member : rule ∈ rules)
    (after : List α) : front? rules (rule.pattern ++ after) = some rule := by
  cases found : front? rules (rule.pattern ++ after) with
  | none => exact absurd (List.prefix_append _ _) (front?_eq_none_iff.mp found rule member)
  | some other =>
      obtain ⟨other_mem, other_front⟩ := mem_of_front? found
      rw [marked.eq_of_prefix_of_prefix other_mem member other_front (List.prefix_append _ _)]

theorem rewrite_pattern_append (marked : Marked marker rules) {rule : Rule α}
    (member : rule ∈ rules) (after : List α) :
    rewrite rules (rule.pattern ++ after) = rule.replacement ++ rewrite rules after :=
  rewrite_of_some (marked.front?_append member after) (marked.pattern_ne_nil member)

theorem front?_cons_of_ne (marked : Marked marker rules) {symbol : α} (ne : symbol ≠ marker)
    (text : List α) : front? rules (symbol :: text) = none := by
  rw [front?_eq_none_iff]
  intro rule member matched
  obtain ⟨name, pattern_eq, -⟩ := marked.named rule member
  rw [pattern_eq, List.cons_prefix_cons] at matched
  exact ne matched.1.symm

theorem rewrite_unmarked_append (marked : Marked marker rules) {word : List α}
    (unmarked : marker ∉ word) (text : List α) :
    rewrite rules (word ++ text) = word ++ rewrite rules text := by
  induction word with
  | nil => rfl
  | cons symbol word induction =>
      obtain ⟨ne, tail_free⟩ : marker ≠ symbol ∧ marker ∉ word := by simpa using unmarked
      rw [List.cons_append, rewrite_cons_of_none (marked.front?_cons_of_ne ne.symm _),
        induction tail_free]
      rfl

end Marked

/-- A prefix of the result that holds nothing of the replacement was there before. -/
theorem prefix_of_prefix_rewrite {rule : Rule α} (replaced : rule.replacement ≠ [])
    (nonempty : rule.pattern ≠ []) {word text : List α}
    (disjoint : word.Disjoint rule.replacement) (written : word <+: rewrite [rule] text) :
    word <+: text := by
  induction word generalizing text with
  | nil => exact List.nil_prefix
  | cons symbol word induction =>
      cases text with
      | nil => simp at written
      | cons first text =>
          cases found : front? [rule] (first :: text) with
          | none =>
              rw [rewrite_cons_of_none found, List.cons_prefix_cons] at written
              rw [List.cons_prefix_cons]
              exact ⟨written.1, induction (List.disjoint_of_disjoint_cons_left disjoint) written.2⟩
          | some other =>
              obtain ⟨member, after, text_eq⟩ := mem_of_front? found
              obtain rfl := List.mem_singleton.mp member
              rw [← text_eq] at found written
              rw [rewrite_of_some found nonempty] at written
              obtain ⟨head, rest, replacement_eq⟩ := List.exists_cons_of_ne_nil replaced
              rw [replacement_eq, List.cons_append, List.cons_prefix_cons] at written
              have shared : symbol ∈ other.replacement := by simp [replacement_eq, written.1]
              exact absurd shared (disjoint List.mem_cons_self)

/-! ## Passes in a row -/

theorem Marked.rewrite_singleton_append {marker : α} {rules : List (Rule α)}
    (marked : Marked marker rules) {rule other : Rule α} (member : rule ∈ rules)
    (other_mem : other ∈ rules) (different : other ≠ rule) (after : List α) :
    rewrite [rule] (other.pattern ++ after) = other.pattern ++ rewrite [rule] after := by
  obtain ⟨name, pattern_eq, name_free⟩ := marked.named other other_mem
  have alone : Marked marker [rule] := marked.subset (by simpa using member)
  have untouched : front? [rule] (marker :: (name ++ after)) = none := by
    rw [front?_eq_none_iff, List.forall_mem_singleton, ← List.cons_append, ← pattern_eq]
    intro matched
    exact different
      (marked.eq_of_prefix_of_prefix other_mem member (List.prefix_append _ _) matched)
  rw [pattern_eq, List.cons_append, rewrite_cons_of_none untouched,
    alone.rewrite_unmarked_append name_free]
  rfl

/-- What a pass writes behind a symbol completes no pattern of another rule. -/
theorem front?_rewrite_eq_none {marker : α} {rule : Rule α} {rules : List (Rule α)}
    (marked : Marked marker (rule :: rules)) (replaced : rule.replacement ≠ [])
    (disjoint : ∀ other ∈ rules, other.pattern.Disjoint rule.replacement) {symbol : α}
    {text : List α} (free : front? (rule :: rules) (symbol :: text) = none) :
    front? rules (symbol :: rewrite [rule] text) = none := by
  rw [front?_eq_none_iff] at free ⊢
  intro other member matched
  have other_mem := List.mem_cons_of_mem rule member
  obtain ⟨name, pattern_eq, -⟩ := marked.named other other_mem
  have name_disjoint : name.Disjoint rule.replacement := by
    have all_disjoint := disjoint other member
    rw [pattern_eq] at all_disjoint
    exact List.disjoint_of_disjoint_cons_left all_disjoint
  rw [pattern_eq, List.cons_prefix_cons] at matched
  apply free other other_mem
  rw [pattern_eq, List.cons_prefix_cons]
  exact ⟨matched.1, prefix_of_prefix_rewrite replaced
    (marked.pattern_ne_nil List.mem_cons_self) name_disjoint matched.2⟩

/-- A pass for one rule and then one for others is a single pass for all of them, when what the
first one writes has nothing in common with the patterns of the others. -/
theorem rewrite_rewrite {marker : α} {rule : Rule α} {rules : List (Rule α)}
    (marked : Marked marker (rule :: rules)) (replaced : rule.replacement ≠ [])
    (unmarked : marker ∉ rule.replacement)
    (disjoint : ∀ other ∈ rules, other.pattern.Disjoint rule.replacement) (text : List α) :
    rewrite rules (rewrite [rule] text) = rewrite (rule :: rules) text := by
  have first_marked : Marked marker [rule] := marked.subset (by simp)
  have others_marked : Marked marker rules := marked.subset (by simp)
  induction text using (measure List.length).wf.induction with
  | h text induction =>
      cases found : front? (rule :: rules) text with
      | some other =>
          obtain ⟨member, after, rfl⟩ := mem_of_front? found
          have shorter : after.length < (other.pattern ++ after).length := by
            have positive := List.length_pos_of_ne_nil (marked.pattern_ne_nil member)
            rw [List.length_append]
            omega
          have later := induction after shorter
          rw [marked.rewrite_pattern_append member]
          by_cases same : other = rule
          · subst same
            rw [first_marked.rewrite_pattern_append List.mem_cons_self,
              others_marked.rewrite_unmarked_append unmarked, later]
          · have other_mem : other ∈ rules := (List.mem_cons.mp member).resolve_left same
            rw [marked.rewrite_singleton_append List.mem_cons_self member same,
              others_marked.rewrite_pattern_append other_mem, later]
      | none =>
          cases text with
          | nil => rfl
          | cons symbol text =>
              have first_none : front? [rule] (symbol :: text) = none := by
                rw [front?_eq_none_iff, List.forall_mem_singleton]
                exact front?_eq_none_iff.mp found rule List.mem_cons_self
              rw [rewrite_cons_of_none first_none,
                rewrite_cons_of_none (front?_rewrite_eq_none marked replaced disjoint found),
                rewrite_cons_of_none found, induction text (Nat.lt_succ_self _)]

/-! ## Passes over a cut text -/

theorem front?_append_of_none {rules : List (Rule α)} {left right : List α}
    (free : front? rules (left ++ right) = none) : front? rules left = none := by
  rw [front?_eq_none_iff] at free ⊢
  intro rule member matched
  exact free rule member (matched.trans (List.prefix_append left right))

/-- A pattern at the front of a text reaches beyond a cut, or ends before it. -/
theorem straddled_or_prefix {rules : List (Rule α)} {left right : List α} {rule : Rule α}
    (found : front? rules (left ++ right) = some rule) (nonempty : left ≠ []) :
    (left.length < rule.pattern.length ∧ Straddled rules (left ++ right) left.length) ∨
      ∃ after, left = rule.pattern ++ after := by
  obtain ⟨member, matched⟩ := mem_of_front? found
  rcases Nat.lt_or_ge left.length rule.pattern.length with longer | fits
  · left
    refine ⟨longer, rule, member, 0, List.length_pos_of_ne_nil nonempty, by omega, ?_⟩
    rwa [List.drop_zero]
  · right
    obtain ⟨after, left_eq⟩ :=
      List.prefix_of_prefix_length_le matched (List.prefix_append left right) fits
    exact ⟨after, left_eq.symm⟩

theorem Marked.rewrite_append {marker : α} {rules : List (Rule α)} (marked : Marked marker rules)
    {left right : List α} (whole : ¬Straddled rules (left ++ right) left.length) :
    rewrite rules (left ++ right) = rewrite rules left ++ rewrite rules right := by
  induction left using (measure List.length).wf.induction with
  | h left induction =>
      by_cases empty : left = []
      · rw [empty]
        rfl
      cases found : front? rules (left ++ right) with
      | none =>
          obtain ⟨symbol, tail, rfl⟩ := List.exists_cons_of_ne_nil empty
          have left_none := front?_append_of_none found
          rw [List.cons_append] at found ⊢
          rw [rewrite_cons_of_none found, rewrite_cons_of_none left_none,
            induction tail (Nat.lt_succ_self _) fun cut => whole (straddled_cons symbol cut)]
          rfl
      | some rule =>
          have member := (mem_of_front? found).1
          rcases straddled_or_prefix found empty with ⟨-, cut⟩ | ⟨after, rfl⟩
          · exact absurd cut whole
          · have shorter : after.length < (rule.pattern ++ after).length := by
              have positive := List.length_pos_of_ne_nil (marked.pattern_ne_nil member)
              rw [List.length_append]
              omega
            have later : ¬Straddled rules (after ++ right) after.length := by
              intro cut
              apply whole
              rw [List.append_assoc, List.length_append]
              exact straddled_append rule.pattern cut
            rw [List.append_assoc, marked.rewrite_pattern_append member,
              marked.rewrite_pattern_append member, induction after shorter later,
              List.append_assoc]

/-- A proper beginning of a pattern is copied, and so is what is missing of it. -/
theorem Marked.rewrite_parts {marker : α} {rules : List (Rule α)} (marked : Marked marker rules)
    {rule : Rule α} (member : rule ∈ rules) {front more : List α}
    (pattern_eq : rule.pattern = front ++ more) (front_ne : front ≠ []) (more_ne : more ≠ [])
    (after : List α) :
    rewrite rules front = front ∧ rewrite rules (more ++ after) = more ++ rewrite rules after := by
  obtain ⟨name, named, name_free⟩ := marked.named rule member
  obtain ⟨symbol, rest, rfl⟩ := List.exists_cons_of_ne_nil front_ne
  obtain ⟨rfl, rfl⟩ : marker = symbol ∧ name = rest ++ more := by
    simpa [named] using pattern_eq
  obtain ⟨rest_free, more_free⟩ : marker ∉ rest ∧ marker ∉ more := by simpa using name_free
  have no_match : front? rules (marker :: rest) = none := by
    rw [front?_eq_none_iff]
    intro other other_mem matched
    have inside : marker :: rest <+: rule.pattern := pattern_eq ▸ List.prefix_append _ _
    obtain rfl := marked.apart other other_mem rule member (matched.trans inside)
    have fits := matched.length_le
    rw [pattern_eq, List.length_append] at fits
    have positive := List.length_pos_of_ne_nil more_ne
    omega
  constructor
  · have copied := marked.rewrite_unmarked_append rest_free []
    rw [List.append_nil, rewrite_nil, List.append_nil] at copied
    rw [rewrite_cons_of_none no_match, copied]
  · exact marked.rewrite_unmarked_append more_free after

/-- A cut inside a pattern leaves both parts of it in the results, which are longer together than
the result for the whole text. -/
theorem Marked.length_rewrite_lt {marker : α} {rules : List (Rule α)}
    (marked : Marked marker rules)
    (shrinks : ∀ rule ∈ rules, rule.replacement.length < rule.pattern.length)
    {left right : List α} (cut : Straddled rules (left ++ right) left.length) :
    (rewrite rules (left ++ right)).length <
      (rewrite rules left).length + (rewrite rules right).length := by
  induction left using (measure List.length).wf.induction with
  | h left induction =>
      have nonempty : left ≠ [] := by
        rintro rfl
        obtain ⟨rule, member, start, before, -⟩ := cut
        simp at before
      cases found : front? rules (left ++ right) with
      | none =>
          obtain ⟨symbol, tail, rfl⟩ := List.exists_cons_of_ne_nil nonempty
          have left_none := front?_append_of_none found
          have tail_cut : Straddled rules (tail ++ right) tail.length := by
            obtain ⟨rule, member, start, before, behind, matched⟩ := cut
            cases start with
            | zero => exact absurd matched (front?_eq_none_iff.mp found rule member)
            | succ start =>
                rw [List.length_cons] at before behind
                exact ⟨rule, member, start, by omega, by omega, matched⟩
          have shorter := induction tail (Nat.lt_succ_self _) tail_cut
          rw [List.cons_append] at found ⊢
          rw [rewrite_cons_of_none found, rewrite_cons_of_none left_none, List.length_cons,
            List.length_cons]
          omega
      | some rule =>
          obtain ⟨member, matched⟩ := mem_of_front? found
          have shrink := shrinks rule member
          rcases straddled_or_prefix found nonempty with ⟨longer, -⟩ | ⟨after, rfl⟩
          · obtain ⟨more, pattern_eq⟩ := List.prefix_of_prefix_length_le
              (List.prefix_append left right) matched (Nat.le_of_lt longer)
            obtain ⟨after, text_eq⟩ := matched
            rw [← pattern_eq, List.append_assoc, List.append_right_inj] at text_eq
            have more_ne : more ≠ [] := by
              rintro rfl
              simp [← pattern_eq] at longer
            obtain ⟨left_kept, right_kept⟩ :=
              marked.rewrite_parts member pattern_eq.symm nonempty more_ne after
            have widths := congrArg List.length pattern_eq
            rw [← text_eq, ← List.append_assoc, pattern_eq, marked.rewrite_pattern_append member,
              left_kept, right_kept, List.length_append, List.length_append]
            rw [List.length_append] at widths
            omega
          · have shorter : after.length < (rule.pattern ++ after).length := by
              rw [List.length_append]
              omega
            rw [List.append_assoc, List.length_append] at cut
            have later := induction after shorter (marked.straddled_of_append member cut)
            rw [List.append_assoc, marked.rewrite_pattern_append member,
              marked.rewrite_pattern_append member, List.length_append, List.length_append]
            omega

/-- A pass commutes with a cut exactly when the cut falls inside no pattern. -/
theorem Marked.rewrite_append_iff {marker : α} {rules : List (Rule α)}
    (marked : Marked marker rules)
    (shrinks : ∀ rule ∈ rules, rule.replacement.length < rule.pattern.length)
    {left right : List α} :
    rewrite rules (left ++ right) = rewrite rules left ++ rewrite rules right ↔
      ¬Straddled rules (left ++ right) left.length := by
  constructor
  · intro same cut
    have shorter := marked.length_rewrite_lt shrinks cut
    rw [same, List.length_append] at shorter
    omega
  · exact marked.rewrite_append

theorem Marked.length_rewrite_append_le {marker : α} {rules : List (Rule α)}
    (marked : Marked marker rules)
    (shrinks : ∀ rule ∈ rules, rule.replacement.length < rule.pattern.length)
    (left right : List α) :
    (rewrite rules (left ++ right)).length ≤
      (rewrite rules left).length + (rewrite rules right).length := by
  by_cases cut : Straddled rules (left ++ right) left.length
  · exact Nat.le_of_lt (marked.length_rewrite_lt shrinks cut)
  · rw [marked.rewrite_append cut, List.length_append]

/-- A pass commutes with the cut of a block out of a text exactly when no end of the block falls
inside a pattern. -/
theorem Marked.rewrite_block_iff {marker : α} {rules : List (Rule α)}
    (marked : Marked marker rules)
    (shrinks : ∀ rule ∈ rules, rule.replacement.length < rule.pattern.length)
    (front block after : List α) :
    rewrite rules (front ++ (block ++ after)) =
        rewrite rules front ++ (rewrite rules block ++ rewrite rules after) ↔
      ¬Straddled rules (front ++ (block ++ after)) front.length ∧
        ¬Straddled rules (front ++ (block ++ after)) (front.length + block.length) := by
  constructor
  · intro same
    have front_whole : ¬Straddled rules (front ++ (block ++ after)) front.length := by
      intro cut
      have shorter := marked.length_rewrite_lt shrinks cut
      have rest := marked.length_rewrite_append_le shrinks block after
      rw [same, List.length_append, List.length_append] at shorter
      omega
    refine ⟨front_whole, ?_⟩
    rw [marked.rewrite_append front_whole, List.append_right_inj,
      marked.rewrite_append_iff shrinks] at same
    intro ⟨rule, member, start, before, behind, matched⟩
    rcases Nat.lt_or_ge start front.length with early | late
    · exact front_whole ⟨rule, member, start, early, by omega, matched⟩
    · obtain ⟨offset, rfl⟩ := Nat.exists_eq_add_of_le late
      rw [← List.drop_drop, List.drop_left] at matched
      exact same ⟨rule, member, offset, by omega, by omega, matched⟩
  · intro ⟨front_whole, block_whole⟩
    rw [marked.rewrite_append front_whole, marked.rewrite_append]
    exact fun cut => block_whole (straddled_append front cut)

end Rewriting
