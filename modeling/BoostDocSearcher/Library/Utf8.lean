import Mathlib.Data.List.Basic

/-!
# Well-formed UTF-8

A byte string is well formed when it is the encoding of a sequence of characters. Encodings are
self-synchronising: whether a cut splits a character shows in the byte behind the cut alone, and a
block of a well-formed text is well formed exactly when neither of its ends splits a character.
-/

namespace Utf8

/-- The encoding of a sequence of characters. -/
def encode (chars : List Char) : List UInt8 :=
  chars.flatMap String.utf8EncodeChar

/-- The text is the encoding of some characters. -/
def Valid (text : List UInt8) : Prop :=
  ∃ chars, encode chars = text

/-- The byte at a position, if there is one, begins a character. -/
def Boundary (text : List UInt8) (position : Nat) : Prop :=
  ∀ c ∈ text[position]?, c.IsUTF8FirstByte

@[simp]
theorem encode_cons (char : Char) (chars : List Char) :
    encode (char :: chars) = String.utf8EncodeChar char ++ encode chars :=
  List.flatMap_cons

theorem valid_nil : Valid [] :=
  ⟨[], rfl⟩

theorem Valid.append {left right : List UInt8} (left_valid : Valid left)
    (right_valid : Valid right) : Valid (left ++ right) := by
  obtain ⟨front, rfl⟩ := left_valid
  obtain ⟨after, rfl⟩ := right_valid
  exact ⟨front ++ after, List.flatMap_append⟩

theorem isUTF8FirstByte_of_utf8EncodeChar {char : Char} {before after : List UInt8} {c : UInt8}
    (encoded : String.utf8EncodeChar char = before ++ c :: after) :
    c.IsUTF8FirstByte ↔ before = [] := by
  have inside : before.length < (String.utf8EncodeChar char).length := by
    rw [encoded, List.length_append, List.length_cons]
    omega
  have here : (String.utf8EncodeChar char)[before.length] = c := by
    simp [encoded]
  rw [← here, UInt8.isUTF8FirstByte_getElem_utf8EncodeChar, List.length_eq_zero_iff]

/-- A byte of ASCII is the encoding of its own character and part of no other. -/
theorem val_of_mem_utf8EncodeChar {char : Char} {c : UInt8}
    (member : c ∈ String.utf8EncodeChar char) (ascii : c.toNat < 0x80) :
    char.val.toNat = c.toNat := by
  unfold String.utf8EncodeChar at member
  generalize char.val.toNat = v at member ⊢
  dsimp only at member
  split at member
  · rename_i one
    rw [List.mem_singleton] at member
    subst member
    simp only [UInt8.toNat_ofNat'] at ascii ⊢
    omega
  · exfalso
    split at member
    · simp only [List.mem_cons, List.not_mem_nil, or_false] at member
      rcases member with rfl | rfl <;> simp only [UInt8.toNat_ofNat'] at ascii <;> omega
    · split at member
      · simp only [List.mem_cons, List.not_mem_nil, or_false] at member
        rcases member with rfl | rfl | rfl <;> simp only [UInt8.toNat_ofNat'] at ascii <;> omega
      · simp only [List.mem_cons, List.not_mem_nil, or_false] at member
        rcases member with rfl | rfl | rfl | rfl <;> simp only [UInt8.toNat_ofNat'] at ascii <;>
          omega

/-- A character is determined by any text that begins with its encoding. -/
theorem utf8EncodeChar_append_inj {first second : Char} {left right : List UInt8}
    (same : String.utf8EncodeChar first ++ left = String.utf8EncodeChar second ++ right) :
    first = second ∧ left = right := by
  have decoded (char : Char) (after : List UInt8) :
      (String.utf8EncodeChar char ++ after).toByteArray.utf8DecodeChar? 0 = some char := by
    rw [List.toByteArray_append]
    exact ByteArray.utf8DecodeChar?_utf8EncodeChar_append
  have chars_eq : first = second := by
    rw [← Option.some.injEq, ← decoded first left, same, decoded]
  subst chars_eq
  exact ⟨rfl, List.append_cancel_left same⟩

/-- What follows a well-formed text in a well-formed text is well formed. -/
theorem Valid.of_append_left {left right : List UInt8} (whole : Valid (left ++ right))
    (left_valid : Valid left) : Valid right := by
  obtain ⟨chars, rfl⟩ := left_valid
  obtain ⟨all, all_eq⟩ := whole
  induction chars generalizing all with
  | nil => exact ⟨all, all_eq⟩
  | cons char chars induction =>
      cases all with
      | nil =>
          have lengths := congrArg List.length all_eq
          have positive := char.utf8Size_pos
          simp [encode] at lengths
          omega
      | cons first rest =>
          rw [encode_cons, encode_cons, List.append_assoc] at all_eq
          exact induction rest (utf8EncodeChar_append_inj all_eq).2

/-- A well-formed text begins with the first byte of a character. -/
theorem Valid.boundary_zero {text : List UInt8} (valid : Valid text) : Boundary text 0 := by
  obtain ⟨chars, rfl⟩ := valid
  intro c head_eq
  cases chars with
  | nil => simp [encode] at head_eq
  | cons char chars =>
      cases encoded : String.utf8EncodeChar char with
      | nil => exact absurd encoded String.utf8EncodeChar_ne_nil
      | cons first after =>
          simp only [encode_cons, encoded, List.cons_append, List.getElem?_cons_zero,
            Option.mem_some_iff] at head_eq
          subst head_eq
          exact (isUTF8FirstByte_of_utf8EncodeChar encoded).mpr rfl

/-- A cut at a boundary splits a well-formed text into well-formed texts. -/
theorem Valid.split {left right : List UInt8} (whole : Valid (left ++ right))
    (boundary : Boundary right 0) : Valid left ∧ Valid right := by
  suffices left_valid : Valid left from ⟨left_valid, whole.of_append_left left_valid⟩
  obtain ⟨chars, chars_eq⟩ := whole
  induction chars generalizing left with
  | nil =>
      obtain ⟨rfl, -⟩ := List.append_eq_nil_iff.mp chars_eq.symm
      exact valid_nil
  | cons char chars induction =>
      rw [encode_cons] at chars_eq
      rcases List.append_eq_append_iff.mp chars_eq with
        ⟨front, left_eq, rest_eq⟩ | ⟨inner, char_eq, right_eq⟩
      · subst left_eq
        exact Valid.append ⟨[char], by simp [encode]⟩ (induction rest_eq)
      · cases inner with
        | nil =>
            rw [List.append_nil] at char_eq
            exact ⟨[char], by simp [encode, char_eq]⟩
        | cons c inner =>
            have begins : c.IsUTF8FirstByte := boundary c (by simp [right_eq])
            rw [(isUTF8FirstByte_of_utf8EncodeChar char_eq).mp begins]
            exact valid_nil

/-- A nonempty block of a well-formed text is well formed exactly when neither end splits a
character. -/
theorem Valid.block_iff {front block after : List UInt8} (whole : Valid (front ++ (block ++ after)))
    (nonempty : block ≠ []) : Valid block ↔ Boundary block 0 ∧ Boundary after 0 := by
  have head_eq : (block ++ after)[0]? = block[0]? :=
    List.getElem?_append_left (List.length_pos_of_ne_nil nonempty)
  have tail_valid (begins : Boundary block 0) : Valid (block ++ after) := by
    apply (whole.split _).2
    intro c member
    rw [head_eq] at member
    exact begins c member
  constructor
  · intro block_valid
    have rest_valid := (tail_valid block_valid.boundary_zero).of_append_left block_valid
    exact ⟨block_valid.boundary_zero, rest_valid.boundary_zero⟩
  · intro ⟨begins, ends⟩
    exact ((tail_valid begins).split ends).1

end Utf8
