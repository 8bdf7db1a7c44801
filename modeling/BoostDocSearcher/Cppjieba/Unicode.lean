import Mathlib.Data.Nat.Bitwise
import BoostDocSearcher.Library.Utf8
import BoostDocSearcher.Text

/-!
# Runes of a text

The segmenter works on runes: code points with the place of their bytes in the text. The decoder
looks at the first byte of a rune and at the number of bytes that are left, never at the form of the
bytes behind the first one. Its counters have 32 bits, so that it comes to an end for texts of less
than 2³² bytes only. Runes tile the text, so that every run of runes stands for a contiguous block
of it.
-/

namespace BoostDocSearcher.Cppjieba

/-! ## Decoding -/

/-- A code point, as far as the decoder checks it. -/
abbrev Rune := UInt32

/-- A rune with its place in the text. -/
structure RuneStr where
  /-- The code point. -/
  rune : Rune
  /-- Position of its first byte. -/
  offset : UInt32
  /-- Number of its bytes. -/
  len : UInt32
  /-- Number of runes before it. -/
  unicodeOffset : UInt32
  /-- Always one. -/
  unicodeLength : UInt32
  deriving DecidableEq, Repr

/-- A code point and the number of its bytes, zero for a failure. -/
structure RuneStrLite where
  /-- The code point. -/
  rune : Rune
  /-- Number of its bytes. -/
  len : UInt32
  deriving DecidableEq, Repr

/-- The six bits that a byte behind the first one adds to a rune. -/
def tailBits (str : Bytes) (position : Nat) : Rune :=
  ((str.getD position 0) &&& 0x3f).toUInt32

/-- `DecodeRuneInString`: the rune at the beginning of a text. -/
def decodeRuneInString (str : Bytes) : RuneStrLite :=
  match str with
  | [] => ⟨0, 0⟩
  | c :: _ =>
      if c &&& 0x80 = 0 then
        ⟨(c &&& 0x7f).toUInt32, 1⟩
      else if c ≤ 0xdf ∧ 1 < str.length then
        ⟨(c &&& 0x1f).toUInt32 <<< 6 ||| tailBits str 1, 2⟩
      else if c ≤ 0xef ∧ 2 < str.length then
        ⟨((c &&& 0x0f).toUInt32 <<< 6 ||| tailBits str 1) <<< 6 ||| tailBits str 2, 3⟩
      else if c ≤ 0xf7 ∧ 3 < str.length then
        ⟨(((c &&& 0x07).toUInt32 <<< 6 ||| tailBits str 1) <<< 6 ||| tailBits str 2) <<< 6 |||
          tailBits str 3, 4⟩
      else
        ⟨0, 0⟩

theorem len_decodeRuneInString_le (str : Bytes) :
    (decodeRuneInString str).len.toNat ≤ str.length := by
  cases str with
  | nil => exact Nat.le_refl 0
  | cons c rest =>
      rw [decodeRuneInString]
      have first : 1 ≤ (c :: rest).length := Nat.succ_pos _
      split
      · exact first
      · split
        · rename_i two
          exact two.2
        · split
          · rename_i three
            exact three.2
          · split
            · rename_i four
              exact four.2
            · exact Nat.zero_le _

/-- The loop of `DecodeRunesInString` with its counters of bytes and of runes, for a number of
turns. It leaves nothing where it goes on behind them, and `some none` for a failure. -/
def decodeLoop (s : Bytes) : Nat → UInt32 → UInt32 → Option (Option (List RuneStr))
  | 0, _, _ => none
  | turns + 1, i, j =>
      if i.toNat < s.length then
        let rp := decodeRuneInString (s.drop i.toNat)
        if rp.len = 0 then
          some none
        else
          (decodeLoop s turns (i + rp.len) (j + 1)).map fun runes =>
            runes.map fun runes => ⟨rp.rune, i, rp.len, j, 1⟩ :: runes
      else
        some (some [])

/-- `DecodeRunesInString`, with `none` for a failure, which leaves no runes. A text on which a
counter wraps is never decoded: the loop fails, or goes on for ever. -/
def decodeRunesInString (s : Bytes) : Option (List RuneStr) :=
  (decodeLoop s (s.length + 1) 0 0).join

/-- A nonempty run of runes, which the source gives by its first and its last one. -/
structure WordRange where
  /-- The first rune. -/
  left : RuneStr
  /-- The runes behind the first one. -/
  more : List RuneStr
  deriving DecidableEq, Repr

namespace WordRange

/-- All runes of a range. -/
def runes (range : WordRange) : List RuneStr := range.left :: range.more

/-- The last rune. -/
def right (range : WordRange) : RuneStr := range.more.getLastD range.left

/-- `WordRange::Length`. -/
def length (range : WordRange) : Nat := range.more.length + 1

@[simp]
theorem length_runes (range : WordRange) : range.runes.length = range.length := by
  simp [runes, length]

theorem runes_ne_nil (range : WordRange) : range.runes ≠ [] :=
  List.cons_ne_nil _ _

end WordRange

/-- `GetWordFromRunes`: the bytes of a range. -/
def getWordFromRunes (s : Bytes) (range : WordRange) : Bytes :=
  let len := range.right.offset - range.left.offset + range.right.len
  (s.drop range.left.offset.toNat).take len.toNat

/-- `GetWordsFromWordRanges`. -/
def getWordsFromWordRanges (s : Bytes) (wrs : List WordRange) : List Bytes :=
  wrs.map (getWordFromRunes s)

/-! ## Tilings -/

/-- The runes lie one behind the other over the whole text, which begins at a position of a longer
text behind some runes. -/
inductive Tiled : Nat → Nat → Bytes → List RuneStr → Prop where
  /-- No runes. -/
  | nil (position unicode : Nat) : Tiled position unicode [] []
  /-- One more rune in front. -/
  | cons {position unicode : Nat} {piece rest : Bytes} {rune : RuneStr} {runes : List RuneStr} :
      piece ≠ [] → rune.offset.toNat = position → rune.len.toNat = piece.length →
      rune.unicodeOffset.toNat = unicode → rune.unicodeLength = 1 →
      Tiled (position + piece.length) (unicode + 1) rest runes →
      Tiled position unicode (piece ++ rest) (rune :: runes)

theorem decodeLoop_succ {s : Bytes} {turns : Nat} {i j : UInt32} {runes : List RuneStr}
    (decoded : decodeLoop s (turns + 1) i j = some (some runes)) :
    (s.length ≤ i.toNat ∧ runes = []) ∨
      ∃ rp later, i.toNat < s.length ∧ decodeRuneInString (s.drop i.toNat) = rp ∧ rp.len ≠ 0 ∧
        decodeLoop s turns (i + rp.len) (j + 1) = some (some later) ∧
        runes = ⟨rp.rune, i, rp.len, j, 1⟩ :: later := by
  rw [decodeLoop] at decoded
  split at decoded
  · rename_i inside
    dsimp only at decoded
    split at decoded
    · simp at decoded
    · rename_i proper
      obtain ⟨result, result_eq, decoded⟩ := Option.map_eq_some_iff.mp decoded
      obtain ⟨later, rfl, runes_eq⟩ := Option.map_eq_some_iff.mp decoded
      exact .inr ⟨_, later, inside, rfl, proper, result_eq, runes_eq.symm⟩
  · rename_i outside
    simp only [Option.some.injEq] at decoded
    exact .inl ⟨Nat.le_of_not_lt outside, decoded.symm⟩

theorem length_lt_of_decodeLoop {s : Bytes} {turns : Nat} {i j : UInt32} {runes : List RuneStr}
    (decoded : decodeLoop s turns i j = some (some runes)) : s.length < 2 ^ 32 := by
  induction turns generalizing i j runes with
  | zero => simp [decodeLoop] at decoded
  | succ turns induction =>
      rcases decodeLoop_succ decoded with ⟨finished, -⟩ | ⟨rp, later, -, -, -, decoded, -⟩
      · exact finished.trans_lt i.toNat_lt
      · exact induction decoded

theorem toNat_add_of_lt {m n : UInt32} (bound : m.toNat + n.toNat < 2 ^ 32) :
    (m + n).toNat = m.toNat + n.toNat := by
  rw [UInt32.toNat_add, Nat.mod_eq_of_lt bound]

theorem tiled_of_decodeLoop {before rest : Bytes} {turns : Nat} {i j : UInt32}
    {runes : List RuneStr} (position : i.toNat = before.length) (few : j.toNat ≤ i.toNat)
    (decoded : decodeLoop (before ++ rest) turns i j = some (some runes)) :
    Tiled i.toNat j.toNat rest runes := by
  have short := length_lt_of_decodeLoop decoded
  rw [List.length_append] at short
  induction turns generalizing before rest i j runes with
  | zero => simp [decodeLoop] at decoded
  | succ turns induction =>
      rcases decodeLoop_succ decoded with
        ⟨finished, rfl⟩ | ⟨rp, later, inside, rp_eq, proper, goes_on, rfl⟩
      · have nothing : rest = [] := by
          rw [List.length_append] at finished
          exact List.eq_nil_of_length_eq_zero (by omega)
        rw [nothing]
        exact .nil _ _
      · rw [position, List.drop_left] at rp_eq
        have bound := len_decodeRuneInString_le rest
        rw [rp_eq] at bound
        have positive : rp.len.toNat ≠ 0 := fun zero => proper (UInt32.toNat.inj zero)
        have piece_length : (rest.take rp.len.toNat).length = rp.len.toNat :=
          List.length_take_of_le bound
        have piece_ne : rest.take rp.len.toNat ≠ [] := by
          intro empty
          exact positive (by rw [← piece_length, empty, List.length_nil])
        -- Neither counter wraps inside the text.
        have i_eq : (i + rp.len).toNat = i.toNat + rp.len.toNat := toNat_add_of_lt (by omega)
        have j_eq : (j + 1).toNat = j.toNat + 1 := toNat_add_of_lt (show j.toNat + 1 < _ by omega)
        have split : before ++ rest =
            before ++ rest.take rp.len.toNat ++ rest.drop rp.len.toNat := by
          rw [List.append_assoc, List.take_append_drop]
        rw [split] at goes_on
        have reached : (i + rp.len).toNat = (before ++ rest.take rp.len.toNat).length := by
          rw [List.length_append, piece_length, i_eq, position]
        have ended : (before ++ rest.take rp.len.toNat).length +
            (rest.drop rp.len.toNat).length < 2 ^ 32 := by
          rw [List.length_append, List.length_drop, piece_length]
          omega
        have tiled : Tiled (i + rp.len).toNat (j + 1).toNat (rest.drop rp.len.toNat) later :=
          induction reached (by omega) goes_on ended
        rw [i_eq, j_eq] at tiled
        have whole : Tiled i.toNat j.toNat (rest.take rp.len.toNat ++ rest.drop rp.len.toNat)
            (⟨rp.rune, i, rp.len, j, 1⟩ :: later) := by
          refine .cons piece_ne rfl piece_length.symm rfl rfl ?_
          rwa [piece_length]
        rwa [List.take_append_drop] at whole

/-- The runes of a text that is decoded tile it, and it is short enough for the counters. -/
theorem tiled_of_decoded {text : Bytes} {runes : List RuneStr}
    (decoded : decodeRunesInString text = some runes) :
    text.length < 2 ^ 32 ∧ Tiled 0 0 text runes := by
  have finished := Option.join_eq_some_iff.mp decoded
  exact ⟨length_lt_of_decodeLoop finished,
    @tiled_of_decodeLoop [] text _ 0 0 runes rfl le_rfl finished⟩

/-- The loop needs no more turns than there are bytes, and one to see the end. -/
theorem isSome_decodeLoop {s : Bytes} (short : s.length < 2 ^ 32) {turns : Nat} {i : UInt32}
    (j : UInt32) (inside : i.toNat ≤ s.length) (enough : s.length < i.toNat + turns) :
    (decodeLoop s turns i j).isSome := by
  induction turns generalizing i j with
  | zero => omega
  | succ turns induction =>
      rw [decodeLoop]
      split
      · dsimp only
        split
        · rfl
        · rename_i proper
          have bound := len_decodeRuneInString_le (s.drop i.toNat)
          rw [List.length_drop] at bound
          have positive : (decodeRuneInString (s.drop i.toNat)).len.toNat ≠ 0 :=
            fun zero => proper (UInt32.toNat.inj zero)
          have i_eq := @toNat_add_of_lt i (decodeRuneInString (s.drop i.toNat)).len (by omega)
          rw [Option.isSome_map]
          exact induction (j + 1) (by omega) (by omega)
      · rfl

/-! ## Well-formed texts -/

/-- The runes of well-formed text, from a position of a longer text on. -/
def runeStrs (i j : Nat) (chars : List Char) : List RuneStr :=
  match chars with
  | [] => []
  | char :: chars =>
      ⟨char.val, .ofNat i, .ofNat char.utf8Size, .ofNat j, 1⟩ ::
        runeStrs (i + char.utf8Size) (j + 1) chars

theorem and_0x80_eq_zero_iff (c : Byte) : c &&& 0x80 = 0 ↔ c.toNat < 0x80 := by
  have bound := c.toNat_lt
  have bit : c.toNat &&& 2 ^ 7 = (c.toNat.testBit 7).toNat * 2 ^ 7 :=
    Nat.and_two_pow _ _
  rw [← UInt8.toNat_inj, UInt8.toNat_and]
  change c.toNat &&& 2 ^ 7 = 0 ↔ _
  rw [bit, Nat.testBit_eq_decide_div_mod_eq]
  by_cases set : c.toNat / 2 ^ 7 % 2 = 1
  · simp only [set, decide_true]
    simp
    omega
  · simp only [set, decide_false]
    simp
    omega

theorem toNat_tailBits (str : Bytes) (position : Nat) :
    (tailBits str position).toNat = (str.getD position 0).toNat % 64 := by
  rw [tailBits, UInt8.toNat_toUInt32, UInt8.toNat_and]
  exact Nat.and_two_pow_sub_one_eq_mod _ 6

theorem toNat_shiftLeft_or {high low : Rune} (high_lt : high.toNat < 2 ^ 26)
    (low_lt : low.toNat < 2 ^ 6) :
    (high <<< 6 ||| low).toNat = high.toNat * 64 + low.toNat := by
  rw [UInt32.toNat_or, UInt32.toNat_shiftLeft]
  change high.toNat <<< 6 % 2 ^ 32 ||| low.toNat = _
  rw [Nat.shiftLeft_eq, Nat.mod_eq_of_lt (by omega), Nat.mul_comm,
    ← Nat.two_pow_add_eq_or_of_lt low_lt]

theorem toNat_firstBits (c : Byte) (width : Nat) (mask : Byte) (full : mask.toNat = 2 ^ width - 1) :
    (c &&& mask).toUInt32.toNat = c.toNat % 2 ^ width := by
  rw [UInt8.toNat_toUInt32, UInt8.toNat_and, full, Nat.and_two_pow_sub_one_eq_mod]

section Forms

variable {c₀ c₁ c₂ c₃ : Byte} {rest : Bytes}

theorem decode_one (small : c₀.toNat ≤ 0x7f) :
    decodeRuneInString (c₀ :: rest) = ⟨c₀.toUInt32, 1⟩ := by
  rw [decodeRuneInString, if_pos ((and_0x80_eq_zero_iff c₀).mpr (by omega))]
  congr 1
  apply UInt32.toNat.inj
  rw [toNat_firstBits c₀ 7 0x7f rfl, UInt8.toNat_toUInt32]
  omega

theorem and_0x80_ne_zero (large : 0x80 ≤ c₀.toNat) : ¬ c₀ &&& 0x80 = 0 := by
  rw [and_0x80_eq_zero_iff]
  omega

theorem not_le_and {bound : Byte} {long : Prop} (large : bound.toNat < c₀.toNat) :
    ¬ (c₀ ≤ bound ∧ long) := by
  rw [UInt8.le_iff_toNat_le]
  omega

theorem decode_two (large : 0x80 ≤ c₀.toNat) (small : c₀.toNat ≤ 0xdf) :
    (decodeRuneInString (c₀ :: c₁ :: rest)).rune.toNat =
        c₀.toNat % 32 * 64 + c₁.toNat % 64 ∧
      (decodeRuneInString (c₀ :: c₁ :: rest)).len = 2 := by
  rw [decodeRuneInString, if_neg (and_0x80_ne_zero large),
    if_pos ⟨UInt8.le_iff_toNat_le.mpr small, by simp⟩]
  refine ⟨?_, rfl⟩
  have high := toNat_firstBits c₀ 5 0x1f rfl
  have low := toNat_tailBits (c₀ :: c₁ :: rest) 1
  rw [toNat_shiftLeft_or (by omega) (by omega), high, low]
  rfl

theorem decode_three (large : 0xdf < c₀.toNat) (small : c₀.toNat ≤ 0xef) :
    (decodeRuneInString (c₀ :: c₁ :: c₂ :: rest)).rune.toNat =
        (c₀.toNat % 16 * 64 + c₁.toNat % 64) * 64 + c₂.toNat % 64 ∧
      (decodeRuneInString (c₀ :: c₁ :: c₂ :: rest)).len = 3 := by
  rw [decodeRuneInString, if_neg (and_0x80_ne_zero (by omega)),
    if_neg (not_le_and (show (0xdf : Byte).toNat < _ from large)),
    if_pos ⟨UInt8.le_iff_toNat_le.mpr small, by simp⟩]
  refine ⟨?_, rfl⟩
  have high := toNat_firstBits c₀ 4 0x0f rfl
  have second := toNat_tailBits (c₀ :: c₁ :: c₂ :: rest) 1
  have third := toNat_tailBits (c₀ :: c₁ :: c₂ :: rest) 2
  have front := toNat_shiftLeft_or (show _ < 2 ^ 26 by rw [high]; omega)
    (show _ < 2 ^ 6 by rw [second]; omega)
  rw [toNat_shiftLeft_or (by omega) (by omega), front, high, second, third]
  rfl

theorem decode_four (large : 0xef < c₀.toNat) (small : c₀.toNat ≤ 0xf7) :
    (decodeRuneInString (c₀ :: c₁ :: c₂ :: c₃ :: rest)).rune.toNat =
        ((c₀.toNat % 8 * 64 + c₁.toNat % 64) * 64 + c₂.toNat % 64) * 64 + c₃.toNat % 64 ∧
      (decodeRuneInString (c₀ :: c₁ :: c₂ :: c₃ :: rest)).len = 4 := by
  rw [decodeRuneInString, if_neg (and_0x80_ne_zero (by omega)),
    if_neg (not_le_and (show (0xdf : Byte).toNat < _ from lt_trans (by decide) large)),
    if_neg (not_le_and (show (0xef : Byte).toNat < _ from large)),
    if_pos ⟨UInt8.le_iff_toNat_le.mpr small, by simp⟩]
  refine ⟨?_, rfl⟩
  have high := toNat_firstBits c₀ 3 0x07 rfl
  have second := toNat_tailBits (c₀ :: c₁ :: c₂ :: c₃ :: rest) 1
  have third := toNat_tailBits (c₀ :: c₁ :: c₂ :: c₃ :: rest) 2
  have fourth := toNat_tailBits (c₀ :: c₁ :: c₂ :: c₃ :: rest) 3
  have front := toNat_shiftLeft_or (show _ < 2 ^ 26 by rw [high]; omega)
    (show _ < 2 ^ 6 by rw [second]; omega)
  have middle := toNat_shiftLeft_or (show _ < 2 ^ 26 by rw [front]; omega)
    (show _ < 2 ^ 6 by rw [third]; omega)
  rw [toNat_shiftLeft_or (by omega) (by omega), middle, front, high, second, third, fourth]
  rfl

end Forms

theorem decodeRuneInString_append (char : Char) (rest : Bytes) :
    decodeRuneInString (String.utf8EncodeChar char ++ rest) =
      ⟨char.val, .ofNat char.utf8Size⟩ := by
  have top : char.val.toNat < 0x110000 := by
    have valid := char.valid
    simp only [UInt32.isValidChar, Nat.isValidChar] at valid
    omega
  suffices value : ∀ read : RuneStrLite, read.rune.toNat = char.val.toNat ∧
      read.len = .ofNat (String.utf8EncodeChar char).length →
        read = ⟨char.val, .ofNat char.utf8Size⟩ by
    apply value
    unfold String.utf8EncodeChar
    generalize char.val.toNat = v at top
    dsimp only
    split
    · rename_i one
      rw [List.cons_append, decode_one (by simp; omega)]
      simp
      omega
    · split
      · rename_i two
        obtain ⟨rune_eq, len_eq⟩ := @decode_two (UInt8.ofNat (v / 64 % 0x20 + 0xc0))
          (UInt8.ofNat (v % 0x40 + 0x80)) rest (by simp; omega) (by simp; omega)
        refine ⟨?_, len_eq⟩
        rw [List.cons_append, List.cons_append, List.nil_append, rune_eq]
        simp only [UInt8.toNat_ofNat']
        omega
      · split
        · rename_i three
          obtain ⟨rune_eq, len_eq⟩ := @decode_three (UInt8.ofNat (v / 4096 % 0x10 + 0xe0))
            (UInt8.ofNat (v / 64 % 0x40 + 0x80)) (UInt8.ofNat (v % 0x40 + 0x80)) rest
            (by simp; omega) (by simp; omega)
          refine ⟨?_, len_eq⟩
          rw [List.cons_append, List.cons_append, List.cons_append, List.nil_append, rune_eq]
          simp only [UInt8.toNat_ofNat']
          omega
        · obtain ⟨rune_eq, len_eq⟩ := @decode_four (UInt8.ofNat (v / 262144 % 0x08 + 0xf0))
            (UInt8.ofNat (v / 4096 % 0x40 + 0x80)) (UInt8.ofNat (v / 64 % 0x40 + 0x80))
            (UInt8.ofNat (v % 0x40 + 0x80)) rest (by simp; omega) (by simp; omega)
          refine ⟨?_, len_eq⟩
          rw [List.cons_append, List.cons_append, List.cons_append, List.cons_append,
            List.nil_append, rune_eq]
          simp only [UInt8.toNat_ofNat']
          omega
  intro read ⟨rune_eq, len_eq⟩
  obtain ⟨rune, len⟩ := read
  rw [String.length_utf8EncodeChar] at len_eq
  simp only [RuneStrLite.mk.injEq]
  exact ⟨UInt32.toNat.inj rune_eq, len_eq⟩

theorem toNat_ofNat_utf8Size (char : Char) :
    (UInt32.ofNat char.utf8Size).toNat = char.utf8Size := by
  have few := char.utf8Size_le_four
  exact UInt32.toNat_ofNat_of_lt' (by rw [UInt32.size]; omega)

theorem decodeLoop_encode {before : Bytes} (chars : List Char) {turns j : Nat}
    (few : j ≤ before.length) (short : (before ++ Utf8.encode chars).length < 2 ^ 32)
    (enough : (Utf8.encode chars).length < turns) :
    decodeLoop (before ++ Utf8.encode chars) turns (.ofNat before.length) (.ofNat j) =
      some (some (runeStrs before.length j chars)) := by
  induction chars generalizing before turns j with
  | nil =>
      obtain ⟨turns, rfl⟩ := Nat.exists_eq_succ_of_ne_zero (Nat.ne_zero_of_lt enough)
      rw [Utf8.encode, List.flatMap_nil, List.append_nil] at short ⊢
      have position : (UInt32.ofNat before.length).toNat = before.length :=
        UInt32.toNat_ofNat_of_lt' short
      rw [decodeLoop, position, if_neg (Nat.lt_irrefl _)]
      rfl
  | cons char chars induction =>
      obtain ⟨turns, rfl⟩ := Nat.exists_eq_succ_of_ne_zero (Nat.ne_zero_of_lt enough)
      have positive := char.utf8Size_pos
      have width := String.length_utf8EncodeChar char
      rw [Utf8.encode_cons] at short enough ⊢
      have lengths := short
      rw [List.length_append, List.length_append, width] at lengths
      rw [List.length_append, width] at enough
      have position : (UInt32.ofNat before.length).toNat = before.length :=
        UInt32.toNat_ofNat_of_lt' (show _ < 2 ^ 32 by omega)
      have size := toNat_ofNat_utf8Size char
      have proper : UInt32.ofNat char.utf8Size ≠ 0 := by
        intro zero
        rw [zero] at size
        exact positive.ne size
      have inside : before.length <
          (before ++ (String.utf8EncodeChar char ++ Utf8.encode chars)).length := by
        rw [List.length_append, List.length_append, width]
        omega
      have later := @induction (before ++ String.utf8EncodeChar char) turns (j + 1)
        (by rw [List.length_append, width]; omega) (by rwa [List.append_assoc]) (by omega)
      rw [List.length_append, width, UInt32.ofNat_add, UInt32.ofNat_add, List.append_assoc]
        at later
      rw [decodeLoop, position, if_pos inside, List.drop_left, decodeRuneInString_append]
      dsimp only
      rw [if_neg proper]
      change (decodeLoop _ _ _ (UInt32.ofNat j + UInt32.ofNat 1)).map _ = _
      rw [later]
      rfl

theorem decodeRunesInString_encode {chars : List Char}
    (short : (Utf8.encode chars).length < 2 ^ 32) :
    decodeRunesInString (Utf8.encode chars) = some (runeStrs 0 0 chars) := by
  have read := @decodeLoop_encode [] chars ((Utf8.encode chars).length + 1) 0 le_rfl short
    (Nat.lt_succ_self _)
  exact Option.join_eq_some_iff.mpr read

/-- Decoding comes to an end for a text of less than 2³² bytes, well-formed text is decoded to its
characters, and the runes of any text that is decoded tile it. -/
theorem decodeRunesInString_spec {text : Bytes} (short : text.length < 2 ^ 32) :
    (decodeLoop text (text.length + 1) 0 0).isSome ∧
      (∀ chars, text = Utf8.encode chars →
        decodeRunesInString text = some (runeStrs 0 0 chars)) ∧
      ∀ runes, decodeRunesInString text = some runes → Tiled 0 0 text runes := by
  have enough : text.length < (0 : UInt32).toNat + (text.length + 1) := by
    rw [UInt32.toNat_zero]
    omega
  refine ⟨isSome_decodeLoop short 0 (Nat.zero_le _) enough, ?_, fun _ decoded =>
    (tiled_of_decoded decoded).2⟩
  rintro chars rfl
  exact decodeRunesInString_encode short

/-- A text with a character of each width. -/
theorem decodeRunesInString_spec_widths :
    decodeRunesInString (Utf8.encode ['v', 'é', '中', '😀']) =
        some [⟨118, 0, 1, 0, 1⟩, ⟨0xe9, 1, 2, 1, 1⟩, ⟨0x4e2d, 3, 3, 2, 1⟩, ⟨0x1f600, 6, 4, 3, 1⟩] ∧
      Tiled 0 0 (Utf8.encode ['v', 'é', '中', '😀'])
        [⟨118, 0, 1, 0, 1⟩, ⟨0xe9, 1, 2, 1, 1⟩, ⟨0x4e2d, 3, 3, 2, 1⟩, ⟨0x1f600, 6, 4, 3, 1⟩] := by
  have short : (Utf8.encode ['v', 'é', '中', '😀']).length < 2 ^ 32 := by decide
  obtain ⟨-, decoded, tiled⟩ := decodeRunesInString_spec short
  have read := decoded _ rfl
  exact ⟨read, tiled _ read⟩

/-! ## Blocks -/

theorem Tiled.split {position unicode : Nat} {text : Bytes} {front back : List RuneStr}
    (tiling : Tiled position unicode text (front ++ back)) :
    ∃ left right, text = left ++ right ∧ Tiled position unicode left front ∧
      Tiled (position + left.length) (unicode + front.length) right back := by
  induction front generalizing position unicode text with
  | nil => exact ⟨[], text, rfl, .nil _ _, tiling⟩
  | cons first front induction =>
      cases tiling with
      | @cons _ _ piece rest _ _ piece_ne offset len unicodeOffset unicodeLength later =>
          obtain ⟨left, right, rest_eq, left_tiled, right_tiled⟩ := induction later
          refine ⟨piece ++ left, right, by rw [rest_eq, List.append_assoc],
            .cons piece_ne offset len unicodeOffset unicodeLength left_tiled, ?_⟩
          rwa [List.length_append, List.length_cons, ← Nat.add_assoc, Nat.add_comm front.length,
            ← Nat.add_assoc]

/-- The bytes of a rune are the last ones of the block that it ends. -/
theorem Tiled.offset_last {position unicode : Nat} {text : Bytes} {front : List RuneStr}
    {last : RuneStr} (tiling : Tiled position unicode text (front ++ [last])) :
    position ≤ last.offset.toNat ∧
      last.offset.toNat + last.len.toNat = position + text.length := by
  obtain ⟨left, right, rfl, -, right_tiled⟩ := tiling.split
  cases right_tiled with
  | cons _ offset len _ _ later =>
      cases later with
      | nil =>
          simp only [List.length_append, List.length_nil]
          omega

namespace WordRange

theorem exists_runes_eq (range : WordRange) : ∃ front, range.runes = front ++ [range.right] := by
  refine ⟨range.runes.dropLast, ?_⟩
  have last_eq : range.right = range.runes.getLast range.runes_ne_nil := by
    simp [runes, right, List.getLast_eq_getLastD]
  rw [last_eq, List.dropLast_append_getLast]

end WordRange

theorem getWordFromRunes_of_tiled {before word after : Bytes} {unicode : Nat} {range : WordRange}
    (tiling : Tiled before.length unicode word range.runes)
    (short : before.length + word.length < 2 ^ 32) :
    getWordFromRunes (before ++ (word ++ after)) range = word := by
  obtain ⟨front, runes_eq⟩ := range.exists_runes_eq
  have first : range.left.offset.toNat = before.length := by
    cases tiling
    assumption
  rw [runes_eq] at tiling
  obtain ⟨begins, ends⟩ := tiling.offset_last
  have behind : (range.right.offset - range.left.offset).toNat =
      range.right.offset.toNat - before.length := by
    rw [UInt32.toNat_sub_of_le _ _ (UInt32.le_iff_toNat_le.mpr (first ▸ begins)), first]
  have len_eq : (range.right.offset - range.left.offset + range.right.len).toNat =
      word.length := by
    rw [toNat_add_of_lt (by omega), behind]
    omega
  rw [getWordFromRunes, len_eq, first, List.drop_left, List.take_left]

/-- Consecutive ranges stand for the consecutive blocks of what they cover. -/
theorem flatten_getWordsFromWordRanges {before text after : Bytes} {unicode : Nat}
    {wrs : List WordRange} (tiling : Tiled before.length unicode text (wrs.flatMap (·.runes)))
    (short : before.length + text.length < 2 ^ 32) :
    (getWordsFromWordRanges (before ++ (text ++ after)) wrs).flatten = text := by
  induction wrs generalizing before unicode text with
  | nil =>
      cases tiling
      rfl
  | cons range wrs induction =>
      rw [List.flatMap_cons] at tiling
      obtain ⟨word, rest, rfl, word_tiled, rest_tiled⟩ := tiling.split
      rw [← List.length_append] at rest_tiled
      rw [List.length_append] at short
      have here : getWordFromRunes (before ++ (word ++ (rest ++ after))) range = word :=
        getWordFromRunes_of_tiled word_tiled (by omega)
      have later := induction rest_tiled (by rw [List.length_append]; omega)
      simp only [getWordsFromWordRanges, List.map_cons, List.flatten_cons, List.append_assoc]
        at later ⊢
      rw [here, later]

/-- A run of the runes of a text stands for a block of the text, which its runes tile. -/
theorem exists_tiled_block {text : Bytes} {front back : List RuneStr} {range : WordRange}
    (decoded : decodeRunesInString text = some (front ++ (range.runes ++ back))) :
    ∃ before after, text = before ++ (getWordFromRunes text range ++ after) ∧
      Tiled before.length front.length (getWordFromRunes text range) range.runes := by
  obtain ⟨short, tiling⟩ := tiled_of_decoded decoded
  obtain ⟨before, _, rfl, -, later⟩ := tiling.split
  obtain ⟨word, after, rfl, word_tiled, -⟩ := later.split
  rw [List.length_append, List.length_append] at short
  rw [Nat.zero_add, Nat.zero_add] at word_tiled
  rw [getWordFromRunes_of_tiled word_tiled (by omega)]
  exact ⟨before, after, rfl, word_tiled⟩

theorem exists_block {text : Bytes} {front back : List RuneStr} {range : WordRange}
    (decoded : decodeRunesInString text = some (front ++ (range.runes ++ back))) :
    ∃ before after, text = before ++ (getWordFromRunes text range ++ after) := by
  obtain ⟨before, after, split, -⟩ := exists_tiled_block decoded
  exact ⟨before, after, split⟩

theorem getWordFromRunes_ne_nil {text : Bytes} {front back : List RuneStr} {range : WordRange}
    (decoded : decodeRunesInString text = some (front ++ (range.runes ++ back))) :
    getWordFromRunes text range ≠ [] := by
  obtain ⟨_, _, _, tiling⟩ := exists_tiled_block decoded
  intro empty
  rw [empty, WordRange.runes] at tiling
  generalize word_eq : ([] : Bytes) = word at tiling
  cases tiling with
  | cons piece_ne => exact piece_ne (List.append_eq_nil_iff.mp word_eq.symm).1

/-- Ranges that cover all runes of a text stand for a decomposition of the text. -/
theorem flatten_getWords {text : Bytes} {wrs : List WordRange}
    (decoded : decodeRunesInString text = some (wrs.flatMap (·.runes))) :
    (getWordsFromWordRanges text wrs).flatten = text := by
  obtain ⟨short, tiling⟩ := tiled_of_decoded decoded
  have joined := @flatten_getWordsFromWordRanges [] text [] 0 wrs tiling
    (by rwa [List.length_nil, Nat.zero_add])
  rwa [List.nil_append, List.append_nil] at joined

theorem runeStrs_append (i j : Nat) (chars more : List Char) :
    runeStrs i j (chars ++ more) =
      runeStrs i j chars ++
        runeStrs (i + (Utf8.encode chars).length) (j + chars.length) more := by
  induction chars generalizing i j with
  | nil => rfl
  | cons char chars induction =>
      rw [List.cons_append, runeStrs, induction, runeStrs, List.cons_append, Utf8.encode_cons,
        List.length_append, String.length_utf8EncodeChar, List.length_cons]
      congr 3 <;> omega

theorem length_runeStrs (i j : Nat) (chars : List Char) :
    (runeStrs i j chars).length = chars.length := by
  induction chars generalizing i j with
  | nil => rfl
  | cons char chars induction =>
      rw [runeStrs, List.length_cons, induction, List.length_cons]

theorem tiled_runeStrs (i j : Nat) (chars : List Char) (few : j ≤ i)
    (short : i + (Utf8.encode chars).length < 2 ^ 32) :
    Tiled i j (Utf8.encode chars) (runeStrs i j chars) := by
  induction chars generalizing i j with
  | nil => exact .nil i j
  | cons char chars induction =>
      have width := String.length_utf8EncodeChar char
      have positive := char.utf8Size_pos
      rw [Utf8.encode_cons, List.length_append, width] at short
      rw [Utf8.encode_cons, runeStrs]
      refine .cons String.utf8EncodeChar_ne_nil ?_ ?_ ?_ rfl ?_
      · exact UInt32.toNat_ofNat_of_lt' (show _ < 2 ^ 32 by omega)
      · rw [width]
        exact toNat_ofNat_utf8Size char
      · exact UInt32.toNat_ofNat_of_lt' (show _ < 2 ^ 32 by omega)
      · rw [width]
        exact induction _ _ (by omega) (by omega)

theorem length_le_length_encode (chars : List Char) :
    chars.length ≤ (Utf8.encode chars).length := by
  induction chars with
  | nil => exact le_rfl
  | cons char chars induction =>
      have positive := char.utf8Size_pos
      rw [Utf8.encode_cons, List.length_append, String.length_utf8EncodeChar, List.length_cons]
      omega

/-- The words of a well-formed text are well formed: no word splits a character. -/
theorem valid_getWordFromRunes {text : Bytes} (valid : Utf8.Valid text) {front back : List RuneStr}
    {range : WordRange}
    (decoded : decodeRunesInString text = some (front ++ (range.runes ++ back))) :
    Utf8.Valid (getWordFromRunes text range) := by
  obtain ⟨chars, rfl⟩ := valid
  have short := (tiled_of_decoded decoded).1
  have runes_eq : runeStrs 0 0 chars = front ++ (range.runes ++ back) := by
    rw [decodeRunesInString_encode short] at decoded
    exact Option.some.inj decoded
  -- The characters split where the runes do, because there is one rune for each character.
  obtain ⟨left, middle, right, rfl, left_len, middle_len⟩ :
      ∃ left middle right, chars = left ++ (middle ++ right) ∧
        left.length = front.length ∧ middle.length = range.runes.length := by
    have total := congrArg List.length runes_eq
    rw [length_runeStrs, List.length_append, List.length_append] at total
    refine ⟨chars.take front.length, (chars.drop front.length).take range.runes.length,
      (chars.drop front.length).drop range.runes.length, by simp, ?_, ?_⟩
    · rw [List.length_take]
      omega
    · rw [List.length_take, List.length_drop]
      omega
  rw [runeStrs_append, runeStrs_append] at runes_eq
  have front_eq := List.append_inj runes_eq (by rw [length_runeStrs, left_len])
  have middle_eq := (List.append_inj front_eq.2 (by rw [length_runeStrs, middle_len])).1
  have whole : Utf8.encode (left ++ (middle ++ right)) =
      Utf8.encode left ++ (Utf8.encode middle ++ Utf8.encode right) := by
    simp [Utf8.encode]
  rw [whole] at short ⊢
  have lengths := short
  rw [List.length_append, List.length_append] at lengths
  have few := length_le_length_encode left
  have word_tiled : Tiled (Utf8.encode left).length left.length (Utf8.encode middle)
      range.runes := by
    rw [← middle_eq, Nat.zero_add, Nat.zero_add]
    exact tiled_runeStrs _ _ _ few (by omega)
  rw [getWordFromRunes_of_tiled word_tiled (by omega)]
  exact ⟨middle, rfl⟩

end BoostDocSearcher.Cppjieba
