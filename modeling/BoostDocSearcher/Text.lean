import Mathlib.Algebra.Group.Nat.Defs
import Mathlib.Data.List.Basic
import BoostDocSearcher.Library.Delimited
import BoostDocSearcher.Library.Occurrence

/-!
# Byte strings

The `std::string` operations that the parser, the index and the searcher share. A string is a list
of bytes of any value. Reads that C++ leaves undefined and exceptions that it throws are faults, so
that a computation without a fault is one that the program really performs.
-/

namespace BoostDocSearcher

/-- One `char` of a `std::string`. -/
abbrev Byte := UInt8

/-- A `std::string`. -/
abbrev Bytes := List Byte

/-- The bytes of a string literal of the source, which is encoded in UTF-8. -/
def bytes (text : String) : Bytes :=
  text.toList.flatMap String.utf8EncodeChar

/-- The byte `'\n'`. -/
def newline : Byte := '\n'.toUInt8

/-- The byte `' '`. -/
def space : Byte := ' '.toUInt8

/-- The byte `'\3'` between the fields of a raw record, `SEP` in the parser. -/
def SEP : Byte := '\x03'.toUInt8

/-! ## Faults -/

/-- Ways in which a run leaves the behaviour that C++ defines for it. -/
inductive Fault where
  /-- `operator[]` of a vector at or past its end. -/
  | badSubscript
  /-- A null pointer is dereferenced. -/
  | nullPointer
  /-- `std::out_of_range` is thrown and never caught. -/
  | outOfRange
  deriving DecidableEq, Repr

/-- The outcome of a computation that may fault. -/
abbrev Result (α : Type) := Except Fault α

/-- `std::vector::operator[]`, which does not check its bound. -/
def subscript {α : Type} (items : List α) (position : Nat) : Result α :=
  match items[position]? with
  | some item => .ok item
  | none => .error .badSubscript

/-- `std::string::substr(position, count)`. -/
def substr (text : Bytes) (position count : Nat) : Result Bytes :=
  if text.length < position then
    .error .outOfRange
  else
    .ok ((text.drop position).take count)

/-- `std::string::substr(position)`. -/
def substrFrom (text : Bytes) (position : Nat) : Result Bytes :=
  substr text position (text.length - position)

/-- The bytes from one position up to, but not including, another. -/
def slice (text : Bytes) (start stop : Nat) : Bytes :=
  (text.drop start).take (stop - start)

/-- `std::string::find`, with `none` for `npos`. -/
def find (text pattern : Bytes) : Option Nat :=
  Occurrence.first? (· == ·) text pattern

/-- `std::search`: the offset of the first match, or the end of the text. -/
def stdSearch (agree : Byte → Byte → Bool) (text pattern : Bytes) : Nat :=
  (Occurrence.first? agree text pattern).getD text.length

/-- `std::size_t` addition. -/
def sizeAdd (left right : Nat) : Nat :=
  (left + right) % 2 ^ 64

/-- `std::size_t` subtraction. -/
def sizeSub (left right : Nat) : Nat :=
  (left + (2 ^ 64 - right % 2 ^ 64)) % 2 ^ 64

/-- The lines that `while (std::getline(in, line))` yields. -/
def getlines (file : Bytes) : List Bytes :=
  Delimited.records newline file

@[simp]
theorem subscript_of_lt {α : Type} {items : List α} {position : Nat}
    (bound : position < items.length) : subscript items position = .ok items[position] := by
  simp [subscript, bound]

theorem substr_of_le {text : Bytes} {position : Nat} (bound : position ≤ text.length)
    (count : Nat) : substr text position count = .ok ((text.drop position).take count) := by
  rw [substr, if_neg (Nat.not_lt.mpr bound)]

theorem substrFrom_of_le {text : Bytes} {position : Nat} (bound : position ≤ text.length) :
    substrFrom text position = .ok (text.drop position) := by
  rw [substrFrom, substr_of_le bound, List.take_of_length_le]
  rw [List.length_drop]

theorem substrFrom_eq_ok {text rest : Bytes} {position : Nat}
    (equation : substrFrom text position = .ok rest) :
    position ≤ text.length ∧ rest = text.drop position := by
  by_cases bound : position ≤ text.length
  · rw [substrFrom_of_le bound] at equation
    exact ⟨bound, (Except.ok.inj equation).symm⟩
  · rw [substrFrom, substr, if_pos (Nat.lt_of_not_le bound)] at equation
    contradiction

theorem length_slice {text : Bytes} {stop : Nat} (bound : stop ≤ text.length) (start : Nat) :
    (slice text start stop).length = stop - start := by
  rw [slice, List.length_take, List.length_drop]
  omega

theorem slice_to_end (text : Bytes) (start : Nat) :
    slice text start text.length = text.drop start := by
  rw [slice, List.take_of_length_le]
  rw [List.length_drop]

theorem take_slice_drop {start stop : Nat} (ordered : start ≤ stop) (text : Bytes) :
    text.take start ++ (slice text start stop ++ text.drop stop) = text := by
  have drop_eq : text.drop stop = (text.drop start).drop (stop - start) := by
    rw [List.drop_drop, Nat.add_sub_cancel' ordered]
  rw [slice, drop_eq, List.take_append_drop, List.take_append_drop]

theorem sizeAdd_lt (left right : Nat) : sizeAdd left right < 2 ^ 64 :=
  Nat.mod_lt _ (Nat.two_pow_pos 64)

theorem sizeSub_lt (left right : Nat) : sizeSub left right < 2 ^ 64 :=
  Nat.mod_lt _ (Nat.two_pow_pos 64)

theorem sizeAdd_of_lt {left right : Nat} (bound : left + right < 2 ^ 64) :
    sizeAdd left right = left + right :=
  Nat.mod_eq_of_lt bound

theorem sizeSub_of_lt {left right : Nat} (ordered : right ≤ left) (bound : left < 2 ^ 64) :
    sizeSub left right = left - right := by
  unfold sizeSub
  omega

theorem sizeSub_le {left right : Nat} (ordered : right ≤ left) :
    sizeSub left right ≤ left - right := by
  have reduced : sizeSub left right = (left - right) % 2 ^ 64 := by
    unfold sizeSub
    omega
  rw [reduced]
  exact Nat.mod_le _ _

/-! ## Letter case -/

/-- `std::tolower` in the C locale: ASCII capitals are shifted, other bytes are kept. -/
def tolower (c : Byte) : Byte :=
  if 'A'.toUInt8 ≤ c ∧ c ≤ 'Z'.toUInt8 then c + 32 else c

/-- `boost::to_lower` in the C locale. -/
def toLower (text : Bytes) : Bytes :=
  text.map tolower

/-- Two strings are equal up to ASCII letter case. -/
def SameLetters (left right : Bytes) : Prop :=
  toLower left = toLower right

instance (left right : Bytes) : Decidable (SameLetters left right) :=
  inferInstanceAs (Decidable (toLower left = toLower right))

theorem toNat_tolower (c : Byte) :
    (tolower c).toNat = if 65 ≤ c.toNat ∧ c.toNat ≤ 90 then c.toNat + 32 else c.toNat := by
  have capital : ('A'.toUInt8 ≤ c ∧ c ≤ 'Z'.toUInt8) ↔ 65 ≤ c.toNat ∧ c.toNat ≤ 90 := by
    rw [UInt8.le_iff_toNat_le, UInt8.le_iff_toNat_le]
    rfl
  simp only [tolower, capital]
  split
  · rw [UInt8.toNat_add]
    change (c.toNat + 32) % 256 = c.toNat + 32
    omega
  · rfl

@[simp]
theorem tolower_tolower (c : Byte) : tolower (tolower c) = tolower c := by
  apply UInt8.toNat_inj.mp
  rw [toNat_tolower (tolower c), toNat_tolower c]
  by_cases capital : 65 ≤ c.toNat ∧ c.toNat ≤ 90
  · rw [if_pos capital, if_neg (by omega)]
  · rw [if_neg capital, if_neg capital]

/-- Only bytes that are no lower-case letters keep their preimage. -/
theorem tolower_eq_iff {target : Byte} (unlettered : target.toNat < 65) (c : Byte) :
    tolower c = target ↔ c = target := by
  rw [← UInt8.toNat_inj, ← UInt8.toNat_inj, toNat_tolower]
  split <;> omega

theorem tolower_eq_newline (c : Byte) : tolower c = newline ↔ c = newline :=
  tolower_eq_iff (by decide) c

theorem tolower_eq_SEP (c : Byte) : tolower c = SEP ↔ c = SEP :=
  tolower_eq_iff (by decide) c

@[simp]
theorem toLower_toLower (text : Bytes) : toLower (toLower text) = toLower text := by
  simp [toLower]

@[simp]
theorem length_toLower (text : Bytes) : (toLower text).length = text.length := by
  simp [toLower]

namespace SameLetters

theorem length_eq {left right : Bytes} (same : SameLetters left right) :
    left.length = right.length := by
  simpa using congrArg List.length same

theorem append {left right left' right' : Bytes} (first : SameLetters left right)
    (second : SameLetters left' right') : SameLetters (left ++ left') (right ++ right') := by
  unfold SameLetters toLower at *
  rw [List.map_append, List.map_append, first, second]

end SameLetters

theorem getlines_toLower (file : Bytes) :
    getlines (toLower file) = (getlines file).map toLower :=
  Delimited.records_map tolower_eq_newline file

end BoostDocSearcher
