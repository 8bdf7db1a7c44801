import Mathlib.Algebra.Group.Int.Defs
import BoostDocSearcher.Httplib

/-!
# Ranges of a response

A request may ask for ranges of bytes. The header is matched against a regular expression, its
numbers are read with a check for overflow, and the offset and the length of a range are computed in
machine integers, also for ranges that begin or end behind the body. A single range is answered by
exactly the bytes that it asks for, although the range that the response claims to hold can be
longer than the one that it holds.
-/

namespace BoostDocSearcher.Httplib

/-- The byte `','`. -/
def comma : Byte := ','.toUInt8

/-- The byte `'-'`. -/
def hyphen : Byte := '-'.toUInt8

/-! ## Numbers -/

/-- `std::to_string` of a number that is not negative. -/
def decimal (n : Nat) : Bytes :=
  (Nat.toDigits 10 n).map Char.toUInt8

/-- A decimal digit. -/
def isDigit (c : Byte) : Bool :=
  48 ≤ c && c ≤ 57

/-- The number of a run of digits. -/
def number (s : Bytes) : Nat :=
  s.foldl (fun value c => 10 * value + (c.toNat - 48)) 0

/-! ## The header -/

/-- A range of a `Request`: the first and the last position, −1 where there is none. -/
abbrev Range := Int × Int

/-- A character of the class `\s`. -/
def isWhiteSpace (c : Byte) : Bool :=
  c = space || (9 ≤ c && c ≤ 13)

/-- The groups of `(\d*)-(\d*)` in a text that matches it. -/
def rangeGroups (s : Bytes) : Option (Bytes × Bytes) :=
  let first := s.takeWhile isDigit
  match s.drop first.length with
  | [] => none
  | c :: last => if c = hyphen ∧ last.all isDigit then some (first, last) else none

/-- The groups of `\s*(\d*)-(\d*)` in a text that matches it. -/
def spacedGroups (s : Bytes) : Option (Bytes × Bytes) :=
  rangeGroups (s.dropWhile isWhiteSpace)

/-- A position of a range. `std::stoll` throws beyond the numbers of 64 bits. -/
def position (s : Bytes) : Option Int :=
  if s.isEmpty then
    some (-1)
  else if number s < 2 ^ 63 then
    some (number s)
  else
    none

/-- The range of two groups, unless it is invalid. -/
def validRange (groups : Bytes × Bytes) : Option Range := do
  let first ← position groups.1
  let last ← position groups.2
  if first ≠ -1 ∧ last ≠ -1 ∧ first > last then none else return (first, last)

/-- `parse_range_header`. -/
def parseRangeHeader (s : Bytes) : Option (List Range) :=
  if (bytes "bytes=").isPrefixOf s then
    let set := s.drop 6
    match set.splitOn comma with
    | [] => none
    | first :: others =>
        if (rangeGroups first).isSome ∧ others.all (fun piece => (spacedGroups piece).isSome) then
          ((split set comma).filterMap spacedGroups).mapM validRange
        else
          none
  else
    none

/-! ## The body -/

/-- `get_range_offset_and_length`. -/
def getRangeOffsetAndLength (r : Range) (contentLength : Nat) : Nat × Nat :=
  if r.1 = -1 ∧ r.2 = -1 then
    (0, contentLength)
  else
    let slen : Int := contentLength
    let (first, second) := if r.1 = -1 then (max 0 (slen - r.2), slen - 1) else r
    let second := if second = -1 then slen - 1 else second
    ((first % 2 ^ 64).toNat, ((second - first + 1) % 2 ^ 64).toNat)

/-- `make_content_range_header_field`. -/
def makeContentRangeHeaderField (offset length contentLength : Nat) : Bytes :=
  bytes "bytes " ++ decimal offset ++ bytes "-" ++ decimal (sizeSub (sizeAdd offset length) 1) ++
    bytes "/" ++ decimal contentLength

/-- The part for one range in `process_multipart_ranges_data`. -/
def rangePart (boundary contentType body : Bytes) (r : Range) : Option Bytes :=
  let (offset, length) := getRangeOffsetAndLength r body.length
  if offset < body.length then
    some (bytes "--" ++ boundary ++ bytes "\r\n" ++
      (if contentType.isEmpty then [] else bytes "Content-Type: " ++ contentType ++ bytes "\r\n") ++
      bytes "Content-Range: " ++ makeContentRangeHeaderField offset length body.length ++
      bytes "\r\n" ++ bytes "\r\n" ++ (body.drop offset).take length ++ bytes "\r\n")
  else
    none

/-- `make_multipart_ranges_data`. -/
def makeMultipartRangesData (boundary contentType body : Bytes) (ranges : List Range) :
    Option Bytes :=
  (ranges.mapM (rangePart boundary contentType body)).map fun parts =>
    parts.flatten ++ bytes "--" ++ boundary ++ bytes "--\r\n"

/-- The first part of `Server::apply_ranges`: for several ranges the content type becomes that of a
multipart body, and the old one belongs to its parts. -/
def multipartType (boundary : Bytes) (ranges : List Range) (res : Response) : Response × Bytes :=
  if ranges.length > 1 then
    let named := fun (header : Bytes × Bytes) => decide (SameLetters header.1 contentTypeKey)
    ({ res with
        headers := res.headers.eraseP named ++
          [(contentTypeKey, bytes "multipart/byteranges; boundary=" ++ boundary)] },
      ((res.headers.find? named).map Prod.snd).getD [])
  else
    (res, [])

/-- The part of `Server::apply_ranges` on a body: the response, and whether its status becomes
416. -/
def cutBody (boundary contentType : Bytes) (ranges : List Range) (res : Response) :
    Response × Bool :=
  match ranges with
  | [] => (res, false)
  | [r] =>
      let (offset, length) := getRangeOffsetAndLength r res.body.length
      let res := res.setHeader (bytes "Content-Range")
        (makeContentRangeHeaderField offset length res.body.length)
      if offset < res.body.length then
        ({ res with body := (res.body.drop offset).take length }, false)
      else
        ({ res with body := [] }, true)
  | _ =>
      match makeMultipartRangesData boundary contentType res.body ranges with
      | some data => ({ res with body := data }, false)
      | none => ({ res with body := [] }, true)

/-- `Server::apply_ranges` for a response without a content provider, built without support for
compression: the response, and whether its status becomes 416. -/
def applyRanges (boundary : Bytes) (ranges : List Range) (res : Response) : Response × Bool :=
  let (res, contentType) := multipartType boundary ranges res
  if res.body.isEmpty then
    (res, false)
  else
    let (res, unsatisfiable) := cutBody boundary contentType ranges res
    (res.setHeader (bytes "Content-Length") (decimal res.body.length), unsatisfiable)

/-! ## Numbers are read back -/

theorem toUInt8_toNat_of_isDigit {c : Char} (digit : c.isDigit) :
    c.toUInt8.toNat = c.toNat ∧ isDigit c.toUInt8 = true := by
  have bounds : 48 ≤ c.toNat ∧ c.toNat ≤ 57 := by
    simpa [Char.isDigit, UInt32.le_iff_toNat_le] using digit
  have same : c.toUInt8.toNat = c.toNat := by
    rw [Char.toUInt8, UInt32.toNat_toUInt8]
    exact Nat.mod_eq_of_lt (by change c.toNat < 256; omega)
  refine ⟨same, ?_⟩
  simp only [isDigit, Bool.and_eq_true, decide_eq_true_eq, UInt8.le_iff_toNat_le, same]
  exact bounds

theorem isDigit_of_mem_decimal {n : Nat} {c : Byte} (member : c ∈ decimal n) :
    isDigit c = true := by
  obtain ⟨digit, digit_mem, rfl⟩ := List.mem_map.mp member
  exact (toUInt8_toNat_of_isDigit
    (Nat.isDigit_of_mem_toDigits (Nat.succ_pos 9) (Nat.le_refl 10) digit_mem)).2

theorem decimal_ne_nil (n : Nat) : decimal n ≠ [] :=
  fun empty => Nat.toDigits_ne_nil (List.map_eq_nil_iff.mp empty)

theorem number_decimal (n : Nat) : number (decimal n) = n := by
  have fold (digits : List Char) (digital : ∀ c ∈ digits, c.isDigit) (value : Nat) :
      (digits.map Char.toUInt8).foldl (fun value c => 10 * value + (c.toNat - 48)) value =
        Nat.ofDigitChars 10 digits value := by
    induction digits generalizing value with
    | nil => simp
    | cons c digits induction =>
        rw [List.map_cons, List.foldl_cons, Nat.ofDigitChars_cons,
          (toUInt8_toNat_of_isDigit (digital c List.mem_cons_self)).1]
        exact induction (fun other member => digital other (List.mem_cons_of_mem c member)) _
  rw [number, decimal, fold _ fun c member =>
    Nat.isDigit_of_mem_toDigits (Nat.succ_pos 9) (Nat.le_refl 10) member]
  exact Nat.ofDigitChars_ten_toDigits

theorem decimal_injective : Function.Injective decimal :=
  Function.LeftInverse.injective number_decimal

/-! ## One range -/

/-- What a single range asks for. -/
inductive Asked where
  /-- The bytes from one position to another. -/
  | between (first last : Nat)
  /-- The bytes from a position on. -/
  | onward (first : Nat)
  /-- So many bytes at the end. -/
  | final (count : Nat)
  deriving DecidableEq, Repr

namespace Asked

/-- The value of the header. -/
def header : Asked → Bytes
  | between first last => bytes "bytes=" ++ (decimal first ++ hyphen :: decimal last)
  | onward first => bytes "bytes=" ++ (decimal first ++ [hyphen])
  | final count => bytes "bytes=" ++ hyphen :: decimal count

/-- Positions in order and below the limit of the numbers that are read. -/
def Valid : Asked → Prop
  | between first last => first ≤ last ∧ last < 2 ^ 63
  | onward first => first < 2 ^ 63
  | final count => count < 2 ^ 63

/-- The position of the first byte in a text of a length. -/
def start (length : Nat) : Asked → Nat
  | between first _ | onward first => first
  | final count => length - count

/-- The bytes that are asked for. -/
def slice (body : Bytes) : Asked → Bytes
  | between first last => (body.drop first).take (last + 1 - first)
  | onward first => body.drop first
  | final count => body.drop (body.length - count)

/-- The range ends behind a text of a length. -/
def Overshoots (length : Nat) : Asked → Prop
  | between _ last => length ≤ last
  | _ => False

/-- The range as it is read. -/
def range : Asked → Range
  | between first last => (first, last)
  | onward first => (first, -1)
  | final count => (-1, count)

end Asked

section Parsing

variable {first last : Bytes}

theorem rangeGroups_append (first_digits : ∀ c ∈ first, isDigit c = true)
    (last_digits : ∀ c ∈ last, isDigit c = true) :
    rangeGroups (first ++ hyphen :: last) = some (first, last) := by
  have hyphen_digit : isDigit hyphen = false := rfl
  have taken : (first ++ hyphen :: last).takeWhile isDigit = first := by
    rw [List.takeWhile_append_of_pos first_digits,
      List.takeWhile_cons_of_neg (by simp [hyphen_digit]),
      List.append_nil]
  rw [rangeGroups, taken, List.drop_left]
  exact if_pos ⟨rfl, List.all_eq_true.mpr last_digits⟩

theorem ordinary_of_isDigit {c : Byte} (digit : isDigit c = true) :
    isSpaceOrTab c = false ∧ isWhiteSpace c = false ∧ c ≠ comma := by
  have bounds : 48 ≤ c.toNat ∧ c.toNat ≤ 57 := by
    simpa [isDigit, UInt8.le_iff_toNat_le] using digit
  have other {value : Byte} (outside : value.toNat < 48) : c ≠ value := by
    rintro rfl
    omega
  have above : ¬ c ≤ 13 := by
    rw [UInt8.le_iff_toNat_le]
    change ¬ c.toNat ≤ 13
    omega
  have blank : c ≠ space := other (by decide)
  have tab : c ≠ '\t'.toUInt8 := other (by decide)
  refine ⟨by simp [isSpaceOrTab, blank, tab], by simp [isWhiteSpace, blank, above], ?_⟩
  exact other (by decide)

/-- Digits and a hyphen stand for themselves wherever the header is cut. -/
theorem ordinary_of_mem {c : Byte} (first_digits : ∀ c ∈ first, isDigit c = true)
    (last_digits : ∀ c ∈ last, isDigit c = true) (member : c ∈ first ++ hyphen :: last) :
    isSpaceOrTab c = false ∧ isWhiteSpace c = false ∧ c ≠ comma := by
  have digit_or_hyphen : isDigit c = true ∨ c = hyphen := by
    rcases List.mem_append.mp member with inside | inside
    · exact .inl (first_digits c inside)
    · rcases List.mem_cons.mp inside with rfl | inside
      · exact .inr rfl
      · exact .inl (last_digits c inside)
  rcases digit_or_hyphen with digit | rfl
  · exact ordinary_of_isDigit digit
  · decide

theorem parseRangeHeader_single (first_digits : ∀ c ∈ first, isDigit c = true)
    (last_digits : ∀ c ∈ last, isDigit c = true) :
    parseRangeHeader (bytes "bytes=" ++ (first ++ hyphen :: last)) =
      (validRange (first, last)).map fun r => [r] := by
  have ordinary : ∀ c ∈ first ++ hyphen :: last,
      isSpaceOrTab c = false ∧ isWhiteSpace c = false ∧ c ≠ comma :=
    fun c member => ordinary_of_mem first_digits last_digits member
  have groups := rangeGroups_append first_digits last_digits
  have nonempty : first ++ hyphen :: last ≠ [] := by simp
  have behind :
      (bytes "bytes=" ++ (first ++ hyphen :: last)).drop 6 = first ++ hyphen :: last := rfl
  generalize first ++ hyphen :: last = set at ordinary groups nonempty behind
  have unspaced : set.dropWhile isWhiteSpace = set := by
    cases set with
    | nil => rfl
    | cons c set =>
        rw [List.dropWhile_cons_of_neg (by simp [(ordinary c List.mem_cons_self).2.1])]
  have single : set.splitOn comma = [set] :=
    List.splitOn_eq_singleton fun member => (ordinary comma member).2.2 rfl
  have pieces : split set comma = [set] := by
    rw [split, single, List.map_singleton, trim_of_free fun c member => (ordinary c member).1,
      List.filter_cons_of_pos (by simpa using nonempty)]
    rfl
  rw [parseRangeHeader, if_pos (List.isPrefixOf_iff_prefix.mpr (List.prefix_append _ _)), behind]
  dsimp only
  rw [single, pieces]
  have spaced : spacedGroups set = some (first, last) := by
    rw [spacedGroups, unspaced, groups]
  simp only [groups, Option.isSome_some, List.all_nil, and_self, if_true, List.filterMap_cons,
    spaced, List.filterMap_nil, List.mapM_cons, List.mapM_nil]
  cases validRange (first, last) <;> rfl

end Parsing

theorem position_decimal {n : Nat} (bound : n < 2 ^ 63) :
    position (decimal n) = some (n : Int) := by
  rw [position, if_neg (by simpa using decimal_ne_nil n), number_decimal, if_pos bound]

theorem parseRangeHeader_asked {asked : Asked} (valid : asked.Valid) :
    parseRangeHeader asked.header = some [asked.range] := by
  have digits (n : Nat) : ∀ c ∈ decimal n, isDigit c = true := fun _ => isDigit_of_mem_decimal
  have none_digits : ∀ c ∈ ([] : Bytes), isDigit c = true := by simp
  have nowhere : position [] = some (-1) := rfl
  cases asked with
  | between first last =>
      have ordered : ¬ (first : Int) > last := by
        have := valid.1
        omega
      rw [Asked.header, parseRangeHeader_single (digits first) (digits last), validRange,
        position_decimal (Nat.lt_of_le_of_lt valid.1 valid.2), position_decimal valid.2]
      simp [ordered, Asked.range]
  | onward first =>
      rw [Asked.header, parseRangeHeader_single (digits first) none_digits, validRange,
        position_decimal valid, nowhere]
      simp [Asked.range]
  | final count =>
      rw [Asked.header, ← List.nil_append (hyphen :: decimal count),
        parseRangeHeader_single none_digits (digits count), validRange, position_decimal valid,
        nowhere]
      simp [Asked.range]

/-- The length of a range in machine integers, when it begins inside a text. -/
def Asked.length (length : Nat) : Asked → Nat
  | between first last => last + 1 - first
  | onward first => length - first
  | final count => min count length

theorem getRangeOffsetAndLength_asked {asked : Asked} (valid : asked.Valid) {length : Nat}
    (short : length < 2 ^ 63) (inside : asked.start length < length) :
    getRangeOffsetAndLength asked.range length = (asked.start length, asked.length length) := by
  cases asked with
  | between first last =>
      obtain ⟨ordered, bound⟩ := valid
      simp only [Asked.start] at inside
      have some_first : ¬ (first : Int) = -1 := by omega
      have some_last : ¬ (last : Int) = -1 := by omega
      simp only [getRangeOffsetAndLength, Asked.range, some_first, some_last, and_self, if_false,
        Asked.start, Asked.length, Prod.mk.injEq]
      omega
  | onward first =>
      simp only [Asked.start] at inside
      have some_first : ¬ (first : Int) = -1 := by omega
      simp only [getRangeOffsetAndLength, Asked.range, some_first, false_and, if_false, if_true,
        Asked.start, Asked.length, Prod.mk.injEq]
      omega
  | final count =>
      simp only [Asked.start] at inside
      have some_count : ¬ (count : Int) = -1 := by omega
      have some_last : ¬ (length : Int) - 1 = -1 := by omega
      simp only [getRangeOffsetAndLength, Asked.range, some_count, and_false, if_false, if_true,
        some_last, Asked.start, Asked.length, Prod.mk.injEq]
      omega

/-- The offset of a range that begins behind a text is not inside it. -/
theorem length_le_offset {asked : Asked} (valid : asked.Valid) {length : Nat}
    (short : length < 2 ^ 63) (outside : length ≤ asked.start length) :
    length ≤ (getRangeOffsetAndLength asked.range length).1 := by
  cases asked with
  | between first last =>
      obtain ⟨ordered, bound⟩ := valid
      simp only [Asked.start] at outside
      have some_first : ¬ (first : Int) = -1 := by omega
      simp only [getRangeOffsetAndLength, Asked.range, some_first, false_and, if_false]
      omega
  | onward first =>
      have bound : first < 2 ^ 63 := valid
      simp only [Asked.start] at outside
      have some_first : ¬ (first : Int) = -1 := by omega
      simp only [getRangeOffsetAndLength, Asked.range, some_first, false_and, if_false]
      omega
  | final count =>
      have bound : count < 2 ^ 63 := valid
      simp only [Asked.start] at outside
      have some_count : ¬ (count : Int) = -1 := by omega
      simp only [getRangeOffsetAndLength, Asked.range, some_count, and_false, if_false, if_true]
      omega

theorem take_drop_asked (asked : Asked) (body : Bytes) :
    (body.drop (asked.start body.length)).take (asked.length body.length) = asked.slice body := by
  cases asked with
  | between first last => rfl
  | onward first =>
      rw [Asked.start, Asked.length, Asked.slice, List.take_of_length_le (by simp)]
  | final count =>
      rw [Asked.start, Asked.length, Asked.slice, List.take_of_length_le]
      rw [List.length_drop]
      omega

/-- A range asks for nothing exactly when it begins behind the text. -/
theorem slice_eq_nil_iff {asked : Asked} (valid : asked.Valid) (body : Bytes) :
    asked.slice body = [] ↔ body.length ≤ asked.start body.length := by
  cases asked with
  | between first last =>
      have ordered := valid.1
      simp only [Asked.slice, Asked.start, List.take_eq_nil_iff, List.drop_eq_nil_iff]
      omega
  | onward first => simp [Asked.slice, Asked.start]
  | final count => simp [Asked.slice, Asked.start]

/-! ## The answer -/

/-- The byte `'\r'`. -/
def carriageReturn : Byte := '\r'.toUInt8

/-- A text without line breaks. -/
def Unbroken (s : Bytes) : Prop :=
  ∀ c ∈ s, c ≠ carriageReturn ∧ c ≠ newline

instance (s : Bytes) : Decidable (Unbroken s) :=
  List.decidableBAll (fun c => c ≠ carriageReturn ∧ c ≠ newline) s

theorem Unbroken.append {first rest : Bytes} (first_unbroken : Unbroken first)
    (rest_unbroken : Unbroken rest) : Unbroken (first ++ rest) := by
  intro c member
  rcases List.mem_append.mp member with inside | inside
  · exact first_unbroken c inside
  · exact rest_unbroken c inside

theorem unbroken_decimal (n : Nat) : Unbroken (decimal n) := by
  intro c member
  have digit := isDigit_of_mem_decimal member
  constructor <;> rintro rfl <;> exact absurd digit (by decide)

theorem Unbroken.hasCrlf_eq_false {s : Bytes} (unbroken : Unbroken s) : hasCrlf s = false := by
  rw [hasCrlf, List.any_eq_false]
  intro c member
  have inside := unbroken c ((List.takeWhile_prefix _).subset member)
  simpa [carriageReturn] using inside

theorem setHeader_of_unbroken {key val : Bytes} (res : Response) (key_unbroken : Unbroken key)
    (val_unbroken : Unbroken val) :
    res.setHeader key val = { res with headers := res.headers ++ [(key, val)] } := by
  rw [Response.setHeader, key_unbroken.hasCrlf_eq_false, val_unbroken.hasCrlf_eq_false]
  rfl

/-- The field that names so many bytes from a position in a text of a length. -/
def contentRange (offset count length : Nat) : Bytes :=
  bytes "bytes " ++ decimal offset ++ bytes "-" ++ decimal (offset + count - 1) ++ bytes "/" ++
    decimal length

theorem unbroken_makeContentRangeHeaderField (offset length contentLength : Nat) :
    Unbroken (makeContentRangeHeaderField offset length contentLength) := by
  have word : Unbroken (bytes "bytes ") := by decide
  have dash : Unbroken (bytes "-") := by decide
  have stroke : Unbroken (bytes "/") := by decide
  exact ((((word.append (unbroken_decimal _)).append dash).append (unbroken_decimal _)).append
    stroke).append (unbroken_decimal _)

/-- The field of a range that begins inside a text names the bytes that are sent exactly when the
range does not end behind it. -/
theorem field_eq_iff {asked : Asked} (valid : asked.Valid) {body : Bytes}
    (short : body.length < 2 ^ 63) (inside : asked.start body.length < body.length) :
    makeContentRangeHeaderField (asked.start body.length) (asked.length body.length) body.length =
        contentRange (asked.start body.length) (asked.slice body).length body.length ↔
      ¬ asked.Overshoots body.length := by
  rw [makeContentRangeHeaderField, contentRange, List.append_left_inj, List.append_left_inj,
    List.append_right_inj, decimal_injective.eq_iff]
  have sum : asked.start body.length + asked.length body.length < 2 ^ 64 ∧
      0 < asked.start body.length + asked.length body.length := by
    cases asked with
    | between first last =>
        obtain ⟨ordered, bound⟩ := valid
        simp only [Asked.start, Asked.length]
        omega
    | onward first =>
        simp only [Asked.start, Asked.length] at inside ⊢
        omega
    | final count =>
        simp only [Asked.start, Asked.length] at inside ⊢
        omega
  rw [sizeAdd_of_lt sum.1, sizeSub_of_lt sum.2 sum.1]
  cases asked with
  | between first last =>
      have ordered := valid.1
      simp only [Asked.start, Asked.length, Asked.slice, Asked.Overshoots, List.length_take,
        List.length_drop] at inside ⊢
      omega
  | onward first =>
      simp [Asked.start, Asked.length, Asked.slice, Asked.Overshoots]
  | final count =>
      simp only [Asked.start, Asked.length, Asked.slice, Asked.Overshoots, List.length_drop,
        not_false_eq_true, iff_true] at inside ⊢
      omega

theorem applyRanges_singleton (boundary : Bytes) {res : Response} (nonempty : res.body ≠ [])
    (r : Range) :
    applyRanges boundary [r] res =
      let (offset, length) := getRangeOffsetAndLength r res.body.length
      let sent := if offset < res.body.length then (res.body.drop offset).take length else []
      (⟨res.headers ++
          [(bytes "Content-Range", makeContentRangeHeaderField offset length res.body.length),
            (bytes "Content-Length", decimal sent.length)], sent⟩,
        !decide (offset < res.body.length)) := by
  have range_key : Unbroken (bytes "Content-Range") := by decide
  have length_key : Unbroken (bytes "Content-Length") := by decide
  have filled : res.body.isEmpty = false := by simpa using nonempty
  have one : ¬ [r].length > 1 := Nat.lt_irrefl 1
  simp only [applyRanges, multipartType, cutBody, one, if_false, filled, Bool.false_eq_true]
  generalize getRangeOffsetAndLength r res.body.length = window
  rw [setHeader_of_unbroken res range_key (unbroken_makeContentRangeHeaderField _ _ _)]
  by_cases inside : window.1 < res.body.length
  · simp only [inside, if_true]
    rw [setHeader_of_unbroken _ length_key (unbroken_decimal _)]
    simp
  · simp only [inside, if_false]
    rw [setHeader_of_unbroken _ length_key (unbroken_decimal _)]
    simp

/-- A single range of a body is answered by exactly the bytes that it asks for, or with status 416
when it asks for none. The response tells which bytes it holds exactly when the range does not end
behind the body. -/
theorem applyRanges_asked (boundary : Bytes) (res : Response) {asked : Asked} (valid : asked.Valid)
    (nonempty : res.body ≠ []) (short : res.body.length < 2 ^ 63) :
    ∃ ranges field, parseRangeHeader asked.header = some ranges ∧
      applyRanges boundary ranges res =
        (⟨res.headers ++ [(bytes "Content-Range", field),
            (bytes "Content-Length", decimal (asked.slice res.body).length)],
          asked.slice res.body⟩, (asked.slice res.body).isEmpty) ∧
      (asked.slice res.body ≠ [] →
        (field = contentRange (asked.start res.body.length) (asked.slice res.body).length
            res.body.length ↔
          ¬ asked.Overshoots res.body.length)) := by
  obtain ⟨field, field_eq⟩ : ∃ field, field = makeContentRangeHeaderField
      (getRangeOffsetAndLength asked.range res.body.length).1
      (getRangeOffsetAndLength asked.range res.body.length).2 res.body.length := ⟨_, rfl⟩
  have empty_iff := slice_eq_nil_iff valid res.body
  refine ⟨[asked.range], field, parseRangeHeader_asked valid, ?_, ?_⟩
  · rw [applyRanges_singleton boundary nonempty, field_eq]
    by_cases inside : asked.start res.body.length < res.body.length
    · have something : asked.slice res.body ≠ [] :=
        fun nothing => Nat.not_le_of_lt inside (empty_iff.mp nothing)
      rw [getRangeOffsetAndLength_asked valid short inside]
      dsimp only
      rw [if_pos inside, take_drop_asked]
      simp [inside, something]
    · have outside := Nat.not_lt.mp inside
      have behind := Nat.not_lt.mpr (length_le_offset valid short outside)
      dsimp only
      rw [if_neg behind, empty_iff.mpr outside]
      simp [behind]
  · intro something
    have inside : asked.start res.body.length < res.body.length :=
      Nat.lt_of_not_le fun outside => something (empty_iff.mpr outside)
    rw [field_eq, getRangeOffsetAndLength_asked valid short inside]
    exact field_eq_iff valid short inside

/-- A range that ends behind the body, whose header names more bytes than are sent. -/
theorem applyRanges_asked_overshoot :
    ∃ ranges field, parseRangeHeader (Asked.between 1 7).header = some ranges ∧
      applyRanges [] ranges ⟨[], bytes "abc"⟩ =
        (⟨[(bytes "Content-Range", field), (bytes "Content-Length", decimal 2)], bytes "bc"⟩,
          false) ∧
      (bytes "bc" ≠ [] →
        (field = contentRange 1 2 3 ↔ ¬ (Asked.between 1 7).Overshoots 3)) :=
  @applyRanges_asked [] ⟨[], bytes "abc"⟩ (.between 1 7) ⟨by decide, by decide⟩ (by decide)
    (by decide)

end BoostDocSearcher.Httplib
