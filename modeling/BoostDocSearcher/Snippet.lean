import BoostDocSearcher.Searcher

/-!
# Windows and snippets

Where the window of `getDesc` lies, for a content and keyword of any bytes and a size that a
`std::string` can have: the arithmetic never wraps, each exit has its condition, and a snippet shows
the whole first occurrence and runs to the end of a short content exactly when the content goes on
behind the window.
-/

namespace BoostDocSearcher.Searcher

/-- The keyword occurs at a position of the content, up to letter case. -/
def OccursAt (content keyword : Bytes) (pos : Nat) : Prop :=
  pos ≤ content.length ∧ SameLetters (slice content pos (pos + keyword.length)) keyword

/-- The first occurrence of the keyword is at a position. -/
def FirstAt (content keyword : Bytes) (pos : Nat) : Prop :=
  OccursAt content keyword pos ∧ ∀ earlier < pos, ¬OccursAt content keyword earlier

instance (content keyword : Bytes) (pos : Nat) : Decidable (OccursAt content keyword pos) :=
  inferInstanceAs (Decidable (_ ∧ _))

instance (content keyword : Bytes) (pos : Nat) : Decidable (FirstAt content keyword pos) :=
  inferInstanceAs (Decidable (OccursAt content keyword pos ∧
    ∀ earlier < pos, ¬OccursAt content keyword earlier))

/-- The window of a content, with the marks that `getDesc` adds to it. -/
def excerpt (content : Bytes) (start stop : Nat) : Bytes :=
  (if start > 0 then bytes "..." else []) ++ (slice content start stop ++ bytes "...")

/-! ## The first occurrence -/

theorem matchesFront_tolower_iff {text keyword : Bytes} :
    Occurrence.matchesFront (fun x y => tolower x == tolower y) text keyword = true ↔
      SameLetters (text.take keyword.length) keyword := by
  rw [← Occurrence.matchesFront_map (· == ·) tolower tolower, Occurrence.matchesFront_beq_iff,
    List.prefix_iff_eq_take, List.length_map, ← List.map_take]
  exact eq_comm

theorem firstAt_iff {content keyword : Bytes} {pos : Nat} :
    FirstAt content keyword pos ↔
      Occurrence.first? (fun x y => tolower x == tolower y) content keyword = some pos := by
  rw [Occurrence.first?_eq_some_iff, FirstAt]
  simp only [OccursAt, slice, Nat.add_sub_cancel_left, ← matchesFront_tolower_iff,
    Bool.not_eq_true, not_and, and_assoc]
  refine and_congr_right fun bound => and_congr_right fun _ => ?_
  exact forall₂_congr fun earlier before => ⟨fun free => free (by omega), fun free _ => free⟩

theorem exists_firstAt {content keyword : Bytes} (occurs : ∃ pos, OccursAt content keyword pos) :
    ∃ pos, FirstAt content keyword pos :=
  ⟨Nat.find occurs, Nat.find_spec occurs, fun _ before => Nat.find_min occurs before⟩

/-- The keyword fits behind the position of its first occurrence. -/
theorem FirstAt.add_length_le {content keyword : Bytes} {pos : Nat}
    (first : FirstAt content keyword pos) : pos + keyword.length ≤ content.length :=
  Occurrence.add_length_le_of_first? (firstAt_iff.mp first)

theorem FirstAt.lt_length {content keyword : Bytes} {pos : Nat}
    (first : FirstAt content keyword pos) (nonempty : content ≠ []) : pos < content.length := by
  have positive := List.length_pos_of_ne_nil nonempty
  have fits := first.add_length_le
  by_contra outside
  have empty_keyword : keyword = [] := List.eq_nil_of_length_eq_zero (by omega)
  subst empty_keyword
  refine first.2 0 (by omega) ⟨Nat.zero_le _, ?_⟩
  simp [slice, SameLetters]

/-- A keyword that is there to show has a first occurrence, which begins inside the content. -/
theorem exists_firstAt_of_present {content keyword : Bytes}
    (present : ¬(content = [] ∨ ¬∃ pos, OccursAt content keyword pos)) :
    ∃ pos, FirstAt content keyword pos ∧ pos < content.length := by
  obtain ⟨nonempty, occurs⟩ := not_or.mp present
  obtain ⟨pos, first⟩ := exists_firstAt (not_not.mp occurs)
  exact ⟨pos, first, first.lt_length nonempty⟩

theorem stdSearch_of_firstAt {content keyword : Bytes} {pos : Nat}
    (first : FirstAt content keyword pos) :
    stdSearch (fun x y => tolower x == tolower y) content keyword = pos := by
  rw [stdSearch, firstAt_iff.mp first, Option.getD_some]

/-- `std::search` answers the end of the content exactly when there is nothing to show. -/
theorem stdSearch_eq_length_iff {content keyword : Bytes} :
    stdSearch (fun x y => tolower x == tolower y) content keyword = content.length ↔
      content = [] ∨ ¬∃ pos, OccursAt content keyword pos := by
  constructor
  · intro at_end
    by_contra present
    obtain ⟨pos, first, inside⟩ := exists_firstAt_of_present present
    rw [stdSearch_of_firstAt first] at at_end
    omega
  · rintro (rfl | missing)
    · cases keyword <;> rfl
    · cases answered :
          Occurrence.first? (fun x y => tolower x == tolower y) content keyword with
      | none => rw [stdSearch, answered, Option.getD_none]
      | some pos => exact absurd ⟨pos, (firstAt_iff.mpr answered).1⟩ missing

/-! ## The window -/

/-- The sizes that `getDesc` adds and subtracts for an occurrence at `pos` stay in the range of
`std::size_t`. -/
structure NoWrap (size pos : Nat) : Prop where
  /-- The content has a last byte. -/
  nonempty : 0 < size
  /-- The position of the last byte does not wrap. -/
  last : sizeSub size 1 = size - 1
  /-- The bound for a window that begins at the front does not wrap. -/
  lower : sizeAdd 0 prevStep = prevStep
  /-- The begin of a later window does not wrap. -/
  before : prevStep < pos → sizeAdd 0 (sizeSub pos prevStep) = pos - prevStep
  /-- The end of the window does not wrap. -/
  after : sizeAdd pos nextStep = pos + nextStep

theorem noWrap_of_lt {size pos : Nat} (inside : pos < size) (bound : size < 2 ^ 63) :
    NoWrap size pos where
  nonempty := by omega
  last := sizeSub_of_lt (by omega) (by omega)
  lower := sizeAdd_of_lt (by decide)
  before := by
    intro far
    rw [sizeSub_of_lt (by omega) (by omega), sizeAdd_of_lt (by omega), Nat.zero_add]
  after := sizeAdd_of_lt (by simp only [nextStep]; omega)

theorem windowStart_eq {size pos : Nat} (safe : NoWrap size pos) :
    windowStart pos = pos - prevStep := by
  simp only [windowStart, safe.lower]
  split
  · exact safe.before ‹_›
  · omega

theorem windowStop_eq {size pos : Nat} (safe : NoWrap size pos) :
    windowStop size pos = min (pos + nextStep) (size - 1) := by
  simp only [windowStop, safe.after, safe.last]
  split <;> omega

/-- The window of a content of at least two bytes that the keyword occurs in. -/
theorem descWindow_of_firstAt {content keyword : Bytes} {pos : Nat}
    (first : FirstAt content keyword pos) (several : 2 ≤ content.length)
    (bound : content.length < 2 ^ 63) :
    descWindow content keyword =
      .cut (pos - prevStep) (min (pos + nextStep) (content.length - 1)) := by
  have inside := first.lt_length (List.ne_nil_of_length_pos (by omega))
  have safe := noWrap_of_lt inside bound
  rw [descWindow, stdSearch_of_firstAt first, if_neg (by omega), windowStart_eq safe,
    windowStop_eq safe]
  exact if_neg (by simp only [prevStep, nextStep]; omega)

theorem descWindow_of_length_one {content keyword : Bytes} {pos : Nat}
    (first : FirstAt content keyword pos) (single : content.length = 1) :
    descWindow content keyword = .nothing := by
  have inside := first.lt_length (List.ne_nil_of_length_pos (by omega))
  obtain rfl : pos = 0 := by omega
  rw [descWindow, stdSearch_of_firstAt first, single]
  rfl

theorem windowStop_lt (size pos : Nat) : windowStop size pos < 2 ^ 64 := by
  simp only [windowStop]
  split
  · exact sizeAdd_lt pos nextStep
  · exact sizeSub_lt size 1

/-- The count that `getDesc` gives to `substr` is the width of the window. -/
theorem sizeSub_of_cut {content keyword : Bytes} {start stop : Nat}
    (window : descWindow content keyword = .cut start stop) :
    sizeSub stop start = stop - start := by
  have proper := (cut_bounds window).1
  rw [descWindow] at window
  split at window
  · cases window
  · split at window
    · cases window
    · obtain ⟨-, stop_eq⟩ := Window.cut.inj window
      have bound := windowStop_lt content.length
        (stdSearch (fun x y => tolower x == tolower y) content keyword)
      rw [stop_eq] at bound
      exact sizeSub_of_lt (Nat.le_of_lt proper) bound

theorem descText_of_cut {content keyword : Bytes} {start stop : Nat}
    (window : descWindow content keyword = .cut start stop) :
    descText content keyword = excerpt content start stop := by
  rw [descText, window]
  simp only [excerpt, slice, sizeSub_of_cut window]

/-! ## The exits of `getDesc` -/

/-- The text of a keyword that does not occur. -/
def notFoundText : Bytes := bytes "keyword does not exist!"

/-- The text of an empty window. -/
def nothingText : Bytes := bytes "nothing!"

theorem descText_of_missing {content keyword : Bytes}
    (missing : content = [] ∨ ¬∃ pos, OccursAt content keyword pos) :
    descText content keyword = notFoundText := by
  rw [descText, descWindow, if_pos (stdSearch_eq_length_iff.mpr missing)]
  rfl

theorem descText_of_length_one {content keyword : Bytes} {pos : Nat}
    (first : FirstAt content keyword pos) (single : content.length = 1) :
    descText content keyword = nothingText := by
  rw [descText, descWindow_of_length_one first single]
  rfl

theorem descText_of_firstAt {content keyword : Bytes} {pos : Nat}
    (first : FirstAt content keyword pos) (several : 2 ≤ content.length)
    (bound : content.length < 2 ^ 63) :
    descText content keyword =
      excerpt content (pos - prevStep) (min (pos + nextStep) (content.length - 1)) :=
  descText_of_cut (descWindow_of_firstAt first several bound)

theorem noWrap_stdSearch {content keyword : Bytes} (bound : content.length < 2 ^ 63)
    (found : stdSearch (fun x y => tolower x == tolower y) content keyword ≠ content.length) :
    NoWrap content.length
      (stdSearch (fun x y => tolower x == tolower y) content keyword) := by
  obtain ⟨pos, first, inside⟩ := exists_firstAt_of_present (mt stdSearch_eq_length_iff.mpr found)
  rw [stdSearch_of_firstAt first]
  exact noWrap_of_lt inside bound

/-- A snippet around the first occurrence, of at most 150 bytes. -/
def IsExcerpt (content keyword desc : Bytes) : Prop :=
  ∃ pos start stop, FirstAt content keyword pos ∧ desc = excerpt content start stop ∧
    start ≤ pos ∧ pos ≤ stop ∧ pos - start ≤ 50 ∧
    1 ≤ (slice content start stop).length ∧ (slice content start stop).length ≤ 150

theorem isExcerpt_of_firstAt {content keyword : Bytes} {pos : Nat}
    (first : FirstAt content keyword pos) (several : 2 ≤ content.length)
    (bound : content.length < 2 ^ 63) :
    IsExcerpt content keyword (descText content keyword) := by
  have inside := first.lt_length (List.ne_nil_of_length_pos (by omega))
  refine ⟨pos, _, _, first, descText_of_firstAt first several bound, ?_⟩
  rw [length_slice (by omega)]
  simp only [prevStep, nextStep]
  omega

/-- An excerpt ends with its mark, so that it is none of the messages. -/
theorem not_isExcerpt_of_getLast {content keyword message : Bytes}
    (unmarked : message.getLast? ≠ some '.'.toUInt8) : ¬IsExcerpt content keyword message := by
  rintro ⟨_, start, stop, _, rfl, _⟩
  apply unmarked
  have marked : (bytes "...").getLast? = some '.'.toUInt8 := rfl
  rw [excerpt, List.getLast?_append, List.getLast?_append, marked]
  rfl

theorem missing_or_firstAt (content keyword : Bytes) :
    (content = [] ∨ ¬∃ pos, OccursAt content keyword pos) ∨
      ∃ pos, FirstAt content keyword pos ∧ (content.length = 1 ∨ 2 ≤ content.length) := by
  by_cases missing : content = [] ∨ ¬∃ pos, OccursAt content keyword pos
  · exact Or.inl missing
  · obtain ⟨pos, first, inside⟩ := exists_firstAt_of_present missing
    exact Or.inr ⟨pos, first, by omega⟩

theorem descText_outcome {content keyword : Bytes} (bound : content.length < 2 ^ 63) :
    (descText content keyword = notFoundText ↔
        content = [] ∨ ¬∃ pos, OccursAt content keyword pos) ∧
      (descText content keyword = nothingText ↔
        content.length = 1 ∧ ∃ pos, OccursAt content keyword pos) ∧
      (2 ≤ content.length ∧ (∃ pos, OccursAt content keyword pos) ↔
        IsExcerpt content keyword (descText content keyword)) := by
  have distinct : notFoundText ≠ nothingText := by decide
  have found_no_excerpt : ¬IsExcerpt content keyword notFoundText :=
    not_isExcerpt_of_getLast (by decide)
  have nothing_no_excerpt : ¬IsExcerpt content keyword nothingText :=
    not_isExcerpt_of_getLast (by decide)
  have present {pos : Nat} (first : FirstAt content keyword pos) (positive : 0 < content.length) :
      ¬(content = [] ∨ ¬∃ pos, OccursAt content keyword pos) :=
    not_or.mpr ⟨List.ne_nil_of_length_pos positive, not_not.mpr ⟨pos, first.1⟩⟩
  rcases missing_or_firstAt content keyword with missing | ⟨pos, first, single | several⟩
  · have no_size {size : Nat} (positive : 0 < size) :
        ¬(size ≤ content.length ∧ ∃ pos, OccursAt content keyword pos) := by
      intro ⟨fits, occurs⟩
      rw [missing.resolve_right (not_not.mpr occurs), List.length_nil] at fits
      omega
    rw [descText_of_missing missing]
    refine ⟨iff_of_true rfl missing, iff_of_false distinct ?_,
      iff_of_false (no_size (by omega)) found_no_excerpt⟩
    exact fun ⟨single, occurs⟩ => no_size Nat.one_pos ⟨Nat.le_of_eq single.symm, occurs⟩
  · rw [descText_of_length_one first single]
    exact ⟨iff_of_false distinct.symm (present first (by omega)),
      iff_of_true rfl ⟨single, pos, first.1⟩, iff_of_false (by omega) nothing_no_excerpt⟩
  · have excerpted := isExcerpt_of_firstAt first several bound
    have inside : 0 < content.length := by omega
    exact ⟨iff_of_false (fun same => found_no_excerpt (same ▸ excerpted)) (present first inside),
      iff_of_false (fun same => nothing_no_excerpt (same ▸ excerpted)) (by omega),
      iff_of_true ⟨several, pos, first.1⟩ excerpted⟩

/-- The arithmetic of `getDesc` is safe, and its three outcomes are exact. -/
theorem getDesc_outcome {content keyword : Bytes} (bound : content.length < 2 ^ 63) :
    (stdSearch (fun x y => tolower x == tolower y) content keyword ≠ content.length →
      NoWrap content.length
        (stdSearch (fun x y => tolower x == tolower y) content keyword)) ∧
    (∀ start stop, descWindow content keyword = .cut start stop →
      start < stop ∧ stop ≤ content.length - 1 ∧ sizeSub stop start = stop - start) ∧
    ∃ desc, getDesc content keyword = .ok desc ∧
      (desc = notFoundText ↔ content = [] ∨ ¬∃ pos, OccursAt content keyword pos) ∧
      (desc = nothingText ↔ content.length = 1 ∧ ∃ pos, OccursAt content keyword pos) ∧
      (2 ≤ content.length ∧ (∃ pos, OccursAt content keyword pos) ↔
        IsExcerpt content keyword desc) := by
  refine ⟨noWrap_stdSearch bound, ?_, descText content keyword, getDesc_eq content keyword,
    descText_outcome bound⟩
  intro start stop window
  obtain ⟨proper, inside⟩ := cut_bounds window
  exact ⟨proper, by omega, sizeSub_of_cut window⟩

/-- The outcome for a word inside a short content. -/
theorem getDesc_outcome_vector :
    (stdSearch (fun x y => tolower x == tolower y) (bytes "std::Vector") (bytes "vector") ≠
        (bytes "std::Vector").length →
      NoWrap (bytes "std::Vector").length
        (stdSearch (fun x y => tolower x == tolower y) (bytes "std::Vector") (bytes "vector"))) ∧
    (∀ start stop, descWindow (bytes "std::Vector") (bytes "vector") = .cut start stop →
      start < stop ∧ stop ≤ (bytes "std::Vector").length - 1 ∧
        sizeSub stop start = stop - start) ∧
    ∃ desc, getDesc (bytes "std::Vector") (bytes "vector") = .ok desc ∧
      (desc = notFoundText ↔
        bytes "std::Vector" = [] ∨ ¬∃ pos, OccursAt (bytes "std::Vector") (bytes "vector") pos) ∧
      (desc = nothingText ↔ (bytes "std::Vector").length = 1 ∧
        ∃ pos, OccursAt (bytes "std::Vector") (bytes "vector") pos) ∧
      (2 ≤ (bytes "std::Vector").length ∧
          (∃ pos, OccursAt (bytes "std::Vector") (bytes "vector") pos) ↔
        IsExcerpt (bytes "std::Vector") (bytes "vector") desc) :=
  getDesc_outcome (by decide)

/-! ## What a snippet shows -/

/-- A snippet contains the occurrence at `pos` as a whole; it begins and ends with the content,
without a mark, when the content is short on that side. -/
def ShowsMatch (content : Bytes) (pos width : Nat) (desc : Bytes) : Prop :=
  ∃ lead start stop tail, desc = lead ++ (slice content start stop ++ tail) ∧
    (lead = [] ∨ lead = bytes "...") ∧ (tail = [] ∨ tail = bytes "...") ∧
    start ≤ pos ∧ pos + width ≤ stop ∧ stop ≤ content.length ∧
    (pos ≤ prevStep → start = 0 ∧ lead = []) ∧
    (content.length ≤ pos + nextStep → stop = content.length ∧ tail = [])

/-- A block that is followed by marks and is also its own continuation two places later, up to one
last symbol, repeats the mark. -/
theorem eq_mark_of_overlap {α : Type} {mark first second last : α} {block : List α}
    (overlap : first :: second :: (block ++ [last]) = block ++ [mark, mark, mark]) :
    ∀ symbol ∈ block ++ [mark, mark, mark], symbol = mark := by
  induction block generalizing first second with
  | nil => simp
  | cons head block induction =>
      obtain ⟨rfl, shifted⟩ := List.cons.inj overlap
      have later := induction shifted
      have head_eq : first = mark := by
        apply later
        rw [← List.append_eq, ← shifted]
        simp
      simpa [head_eq] using later

/-- A keyword that occurs where the content repeats one symbol also occurs a place earlier. -/
theorem not_firstAt_of_repeated {content keyword : Bytes} {pos : Nat} {mark : Byte}
    (later : 0 < pos) (repeated : ∀ c ∈ content.drop (pos - 1), c = mark) :
    ¬FirstAt content keyword pos := by
  intro first
  have fits := first.add_length_le
  have uniform {start : Nat} (bound : pos - 1 ≤ start)
      (inside : start + keyword.length ≤ content.length) :
      slice content start (start + keyword.length) = List.replicate keyword.length mark := by
    refine List.eq_replicate_iff.mpr ⟨by rw [length_slice inside]; omega, ?_⟩
    intro c member
    have in_drop := List.mem_of_mem_take member
    obtain ⟨offset, rfl⟩ : ∃ offset, start = pos - 1 + offset := ⟨start - (pos - 1), by omega⟩
    rw [← List.drop_drop] at in_drop
    exact repeated c (List.mem_of_mem_drop in_drop)
  refine first.2 (pos - 1) (by omega) ⟨by omega, ?_⟩
  rw [uniform (Nat.le_refl _) (by omega), ← uniform (by omega) fits]
  exact first.1.2

/-- A marked window that is also an end of the content is found again two places earlier. -/
theorem exists_drop_of_showsMatch {content : Bytes} {pos width : Nat} (far : prevStep < pos)
    (inside : pos < content.length) (near : content.length ≤ pos + nextStep)
    (shows : ShowsMatch content pos width
      (excerpt content (pos - prevStep) (content.length - 1))) :
    ∃ earlier, pos - prevStep = earlier + 2 ∧ content.drop earlier =
      slice content (pos - prevStep) (content.length - 1) ++ bytes "..." := by
  obtain ⟨lead, start, stop, tail, desc_eq, lead_cases, -, start_le, -, -, -, ends⟩ := shows
  obtain ⟨rfl, rfl⟩ := ends near
  have marks : (bytes "...").length = 3 := rfl
  have width_eq := length_slice (Nat.sub_le content.length 1) (pos - prevStep)
  rw [excerpt, if_pos (by omega), slice_to_end, List.append_nil] at desc_eq
  have lengths := congrArg List.length desc_eq
  simp only [List.length_append, List.length_drop, marks, width_eq] at lengths
  rcases lead_cases with rfl | rfl
  · rw [List.length_nil] at lengths
    refine ⟨start + 3, by omega, ?_⟩
    rw [← List.drop_drop, ← List.nil_append (content.drop start), ← desc_eq, ← marks,
      List.drop_left]
  · rw [marks] at lengths
    exact ⟨start, by omega, (List.append_cancel_left desc_eq).symm⟩

theorem exists_drop_eq_concat {content : Bytes} {start : Nat} (inside : start < content.length) :
    ∃ last, content.drop start = slice content start (content.length - 1) ++ [last] := by
  have nonempty : content.drop start ≠ [] := by
    intro empty
    have length_eq := congrArg List.length empty
    rw [List.length_drop, List.length_nil] at length_eq
    omega
  refine ⟨(content.drop start).getLast nonempty, ?_⟩
  have count : content.length - 1 - start = (content.drop start).length - 1 := by
    rw [List.length_drop]
    omega
  rw [slice, count, ← List.dropLast_eq_take, List.dropLast_concat_getLast]

/-- A short content that begins near the occurrence is never shown as a whole. -/
theorem not_showsMatch_of_early {content keyword : Bytes} {pos : Nat}
    (first : FirstAt content keyword pos) (nonempty : content ≠ [])
    (bound : content.length < 2 ^ 63) (near : content.length ≤ pos + nextStep)
    (early : pos ≤ prevStep) :
    ¬ShowsMatch content pos keyword.length (descText content keyword) := by
  intro ⟨lead, start, stop, tail, desc_eq, _, _, _, _, _, begins, ends⟩
  have inside := first.lt_length nonempty
  obtain ⟨rfl, rfl⟩ := begins early
  obtain ⟨rfl, rfl⟩ := ends near
  rw [slice_to_end, List.drop_zero, List.append_nil, List.nil_append] at desc_eq
  have lengths := congrArg List.length desc_eq
  by_cases single : content.length = 1
  · rw [descText_of_length_one first single, single] at lengths
    contradiction
  · have front : pos - prevStep = 0 := by omega
    have last : min (pos + nextStep) (content.length - 1) = content.length - 1 := by omega
    have marks : (bytes "...").length = 3 := rfl
    rw [descText_of_firstAt first (by omega) bound, front, last, excerpt, if_neg (by omega),
      List.nil_append, List.length_append, length_slice (Nat.sub_le _ 1), marks] at lengths
    omega

/-- The window never reaches the end of a content that ends near the occurrence. -/
theorem not_showsMatch_of_near {content keyword : Bytes} {pos : Nat}
    (first : FirstAt content keyword pos) (nonempty : content ≠ [])
    (bound : content.length < 2 ^ 63) (near : content.length ≤ pos + nextStep) :
    ¬ShowsMatch content pos keyword.length (descText content keyword) := by
  by_cases early : pos ≤ prevStep
  · exact not_showsMatch_of_early first nonempty bound near early
  · intro shows
    have inside := first.lt_length nonempty
    have last : min (pos + nextStep) (content.length - 1) = content.length - 1 := by omega
    rw [descText_of_firstAt first (by omega) bound, last] at shows
    have far : prevStep < pos := by omega
    obtain ⟨earlier, shift_eq, drop_eq⟩ := exists_drop_of_showsMatch far inside near shows
    obtain ⟨final, window_eq⟩ :=
      exists_drop_eq_concat (show pos - prevStep < content.length by omega)
    have overlap : content[earlier] :: content[earlier + 1] ::
        (slice content (pos - prevStep) (content.length - 1) ++ [final]) =
          slice content (pos - prevStep) (content.length - 1) ++ bytes "..." := by
      rw [← window_eq, shift_eq, ← List.drop_eq_getElem_cons, ← List.drop_eq_getElem_cons,
        ← shift_eq, drop_eq]
    have repeated : ∀ c ∈ content.drop (pos - 1), c = '.'.toUInt8 := by
      intro c member
      have step_back : pos - 1 = earlier + (pos - 1 - earlier) := by omega
      rw [step_back, ← List.drop_drop, drop_eq] at member
      exact eq_mark_of_overlap overlap c (List.mem_of_mem_drop member)
    exact not_firstAt_of_repeated (by omega) repeated first

/-- The snippet shows the whole occurrence, and the ends of the content that are near, exactly
when the content goes on behind the window. -/
theorem getDesc_showsMatch_iff {content keyword : Bytes} {pos : Nat}
    (bound : content.length < 2 ^ 63) (nonempty : keyword ≠ [])
    (short : keyword.length ≤ nextStep) (first : FirstAt content keyword pos) :
    (∃ desc, getDesc content keyword = .ok desc ∧
        ShowsMatch content pos keyword.length desc) ↔
      pos + nextStep < content.length := by
  have some_byte := List.length_pos_of_ne_nil nonempty
  have fits := first.add_length_le
  have content_ne : content ≠ [] := List.ne_nil_of_length_pos (by omega)
  constructor
  · intro ⟨desc, answered, shows⟩
    rw [getDesc_eq] at answered
    obtain rfl := Except.ok.inj answered
    by_contra near
    exact not_showsMatch_of_near first content_ne bound (by omega) shows
  · intro goes_on
    have last : min (pos + nextStep) (content.length - 1) = pos + nextStep := by omega
    refine ⟨_, getDesc_eq content keyword, if pos - prevStep > 0 then bytes "..." else [],
      pos - prevStep, pos + nextStep, bytes "...", ?_⟩
    rw [descText_of_firstAt first (by simp only [nextStep] at goes_on; omega) bound, last]
    refine ⟨rfl, ?_, Or.inr rfl, by omega, by omega, by omega, ?_, by omega⟩
    · split
      · exact Or.inr rfl
      · exact Or.inl rfl
    · intro early
      exact ⟨by omega, if_neg (by omega)⟩

/-- The equivalence for a word at the front of a longer content. -/
theorem getDesc_showsMatch_iff_front :
    (∃ desc, getDesc (bytes "Vector" ++ List.replicate 100 space) (bytes "vector") = .ok desc ∧
        ShowsMatch (bytes "Vector" ++ List.replicate 100 space) 0 (bytes "vector").length desc) ↔
      0 + nextStep < (bytes "Vector" ++ List.replicate 100 space).length :=
  getDesc_showsMatch_iff
    (by
      rw [List.length_append, List.length_replicate]
      decide)
    (by decide) (by decide)
    ⟨⟨Nat.zero_le _, rfl⟩, fun _ before => absurd before (Nat.not_lt_zero _)⟩

/-- A content that is one word is shown without its last byte. -/
theorem getDesc_wholeWord :
    FirstAt (bytes "vector") (bytes "vector") 0 ∧
      getDesc (bytes "vector") (bytes "vector") = .ok (bytes "vecto...") ∧
      ¬ShowsMatch (bytes "vector") 0 (bytes "vector").length (bytes "vecto...") := by
  have first : FirstAt (bytes "vector") (bytes "vector") 0 := by decide
  have shortened : descText (bytes "vector") (bytes "vector") = bytes "vecto..." := by
    rw [descText_of_firstAt first (by decide) (by decide)]
    rfl
  refine ⟨first, ?_, ?_⟩
  · rw [getDesc_eq, shortened]
  · rw [← shortened]
    exact not_showsMatch_of_near first (by decide) (by decide) (by decide)

end BoostDocSearcher.Searcher
