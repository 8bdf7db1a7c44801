import BoostDocSearcher.Httplib.Messages

/-!
# Contents of requests

The content of a request comes behind its headers: as many bytes as they say, or in chunks that
each say how long they are, or up to the end of the connection. It is read into a buffer, in pieces
of the sizes in which the bytes arrive. What a client writes in one of the first two forms is read
exactly, however it arrives, and what follows is left for the next request. A content in chunks that
is cut off is refused, wherever the cut is, but for one place.
-/

namespace BoostDocSearcher.Httplib

/-! ## Numbers -/

/-- A digit of a number to a base. -/
def isDigitOf (base : Nat) (c : Byte) : Bool :=
  (isHex c).any (· < base)

/-- The number of a run of digits. -/
def numberOf (base : Nat) (digits : Bytes) : Nat :=
  digits.foldl (fun value c => base * value + (isHex c).getD 0) 0

/-- Whether a text begins with the mark of a hexadecimal number and a digit. -/
def hexMarked : Bytes → Bool
  | zero :: mark :: c :: _ =>
      zero = '0'.toUInt8 && (mark = 'x'.toUInt8 || mark = 'X'.toUInt8) && (isHex c).isSome
  | _ => false

/-- `strtoul` and `strtoull`: the number at the beginning of a text, if there is one. A number that
is too great becomes the greatest one, and a negative one is counted from 2⁶⁴ downwards. -/
def strtoul (base : Nat) (s : Bytes) : Option Nat :=
  let s := (cString s).dropWhile isWhiteSpace
  let negative : Bool := s.head? = some hyphen
  let s := if s.head? = some hyphen ∨ s.head? = some plus then s.drop 1 else s
  let s := if base = 16 ∧ hexMarked s then s.drop 2 else s
  let digits := s.takeWhile (isDigitOf base)
  if digits.isEmpty then
    none
  else
    let value := numberOf base digits
    if value < 2 ^ 64 then
      some (if negative then (2 ^ 64 - value) % 2 ^ 64 else value)
    else
      some (2 ^ 64 - 1)

/-- `from_i_to_hex`. -/
def fromIToHex (n : Nat) : Bytes :=
  let digit := (bytes "0123456789abcdef").getD (n % 16) 0
  if n < 16 then [digit] else fromIToHex (n / 16) ++ [digit]

/-! ## Reading -/

/-- `Stream::read` into a buffer of a size: as many bytes as have arrived when a number of them is
still to come, and none at the end and on failure. -/
def recv (arrive : Nat → Nat) (size : Nat) (strm : Stream) : Bytes × Stream :=
  let n := min size (max 1 (arrive strm.pending.length))
  (strm.pending.take n, { strm with pending := strm.pending.drop n })

/-- `CPPHTTPLIB_RECV_BUFSIZ`. -/
def recvBufsiz : Nat := 4096

theorem length_recv_lt {arrive : Nat → Nat} {size : Nat} {strm rest : Stream} {c : Byte}
    {buf : Bytes} (received : recv arrive size strm = (c :: buf, rest)) :
    rest.pending.length < strm.pending.length := by
  obtain ⟨taken, rfl⟩ := Prod.mk.inj received
  have positive := congrArg List.length taken
  rw [List.length_take, List.length_cons] at positive
  dsimp only
  rw [List.length_drop]
  omega

/-- `read_content_with_length`. -/
def readContentWithLength (arrive : Nat → Nat) (len : Nat) (strm : Stream) :
    Option Bytes × Stream :=
  if len = 0 then
    (some [], strm)
  else
    match recv arrive (min len recvBufsiz) strm with
    | ([], rest) => (none, rest)
    | (c :: buf, rest) =>
        let (later, last) := readContentWithLength arrive (len - (c :: buf).length) rest
        (later.map (c :: buf ++ ·), last)
  termination_by len
  decreasing_by
    rw [List.length_cons]
    omega

/-- `read_content_without_length`. -/
def readContentWithoutLength (arrive : Nat → Nat) (strm : Stream) : Option Bytes × Stream :=
  match _ : recv arrive recvBufsiz strm with
  | ([], rest) => (if rest.broken then none else some [], rest)
  | (c :: buf, rest) =>
      let (later, last) := readContentWithoutLength arrive rest
      (later.map (c :: buf ++ ·), last)
  termination_by strm.pending.length
  decreasing_by exact length_recv_lt ‹_›

theorem exists_recv_eq (arrive : Nat → Nat) {size : Nat} (positive : 0 < size) {strm : Stream}
    (filled : strm.pending ≠ []) :
    ∃ n, 0 < n ∧ n ≤ size ∧ n ≤ strm.pending.length ∧
      recv arrive size strm =
        (strm.pending.take n, { strm with pending := strm.pending.drop n }) := by
  have some_pending := List.length_pos_of_ne_nil filled
  rcases Nat.le_total (min size (max 1 (arrive strm.pending.length))) strm.pending.length with
    inside | beyond
  · exact ⟨_, by omega, Nat.min_le_left _ _, inside, rfl⟩
  · refine ⟨strm.pending.length, some_pending, beyond.trans (Nat.min_le_left _ _), le_rfl, ?_⟩
    rw [recv, List.take_of_length_le beyond, List.drop_of_length_le beyond, List.take_length,
      List.drop_length]

/-- A content of a known length is read as it was sent, however it arrives, unless it ends too
early. -/
theorem readContentWithLength_eq (arrive : Nat → Nat) (len : Nat) (strm : Stream) :
    readContentWithLength arrive len strm =
      if len ≤ strm.pending.length then
        (some (strm.pending.take len), { strm with pending := strm.pending.drop len })
      else
        (none, { strm with pending := [] }) := by
  induction len using Nat.strong_induction_on generalizing strm with
  | _ len induction =>
      rw [readContentWithLength]
      by_cases finished : len = 0
      · simp [finished]
      rw [if_neg finished]
      by_cases empty : strm.pending = []
      · simp [recv, empty, finished]
      have size : 0 < min len recvBufsiz := by
        rw [recvBufsiz]
        omega
      obtain ⟨n, positive, few, inside, received⟩ := exists_recv_eq arrive size empty
      have bound : n ≤ len := few.trans (Nat.min_le_left _ _)
      have taken_length : (strm.pending.take n).length = n := List.length_take_of_le inside
      rw [received]
      cases taken : strm.pending.take n with
      | nil =>
          rw [taken] at taken_length
          exact absurd taken_length.symm (Nat.ne_of_gt positive)
      | cons c buf =>
          rw [taken] at taken_length
          dsimp only
          rw [taken_length, induction (len - n) (by omega), ← taken]
          dsimp only
          rw [List.length_drop, List.drop_drop, Nat.add_sub_cancel' bound]
          by_cases enough : len ≤ strm.pending.length
          · rw [if_pos enough, if_pos (by omega)]
            simp [← List.take_add, Nat.add_sub_cancel' bound]
          · rw [if_neg enough, if_neg (by omega)]
            rfl

theorem length_readContentWithLength_le {arrive : Nat → Nat} {len : Nat} {strm rest : Stream}
    {content : Option Bytes} (read : readContentWithLength arrive len strm = (content, rest)) :
    rest.pending.length ≤ strm.pending.length := by
  rw [readContentWithLength_eq] at read
  split at read
  · obtain ⟨-, rfl⟩ := Prod.mk.inj read
    exact (List.drop_suffix len strm.pending).length_le
  · obtain ⟨-, rfl⟩ := Prod.mk.inj read
    exact Nat.zero_le _

/-! ## Chunks -/

/-- What a turn of the loop of `read_content_chunked` leads to. -/
inductive ChunkStep where
  /-- The content is not in chunks. -/
  | failed
  /-- The content ends with these bytes. -/
  | finished (bytes : Bytes)
  /-- A chunk was read, and the line of the next one. -/
  | more (chunk line : Bytes)

/-- The body of the loop of `read_content_chunked`, behind the line of a chunk. -/
def readChunk (arrive : Nat → Nat) (line : Bytes) (strm : Stream) : ChunkStep × Stream :=
  match strtoul 16 line with
  | none => (.failed, strm)
  | some chunkLen =>
      if chunkLen = 2 ^ 64 - 1 then
        (.failed, strm)
      else if chunkLen = 0 then
        match getline strm with
        | none => (.failed, { strm with pending := [] })
        | some (line, rest) => (if cString line = crlf then .finished [] else .failed, rest)
      else
        match readContentWithLength arrive chunkLen strm with
        | (none, rest) => (.failed, rest)
        | (some chunk, rest) =>
            match getline rest with
            | none => (.failed, { rest with pending := [] })
            | some (line, rest) =>
                -- A chunk that does not end with its line ends the content, without an error.
                if cString line = crlf then
                  match getline rest with
                  | none => (.failed, { rest with pending := [] })
                  | some (line, rest) => (.more chunk line, rest)
                else
                  (.finished chunk, rest)

theorem length_readChunk_lt {arrive : Nat → Nat} {line chunk next : Bytes} {strm rest : Stream}
    (read : readChunk arrive line strm = (.more chunk next, rest)) :
    rest.pending.length < strm.pending.length := by
  rw [readChunk] at read
  split at read
  · simp at read
  · split at read
    · simp at read
    · split at read
      · split at read
        · simp at read
        · split at read <;> simp at read
      · split at read
        · simp at read
        · rename_i content
          split at read
          · simp at read
          · rename_i ended
            split at read
            · split at read
              · simp at read
              · rename_i opened
                obtain ⟨-, rfl⟩ := Prod.mk.inj read
                exact (length_pending_lt opened).trans ((length_pending_lt ended).trans_le
                  (length_readContentWithLength_le content))
            · simp at read

/-- The loop of `read_content_chunked`. -/
def chunkLoop (arrive : Nat → Nat) (line : Bytes) (strm : Stream) : Option Bytes × Stream :=
  match _ : readChunk arrive line strm with
  | (.failed, rest) => (none, rest)
  | (.finished chunk, rest) => (some chunk, rest)
  | (.more chunk line, rest) =>
      let (later, last) := chunkLoop arrive line rest
      (later.map (chunk ++ ·), last)
  termination_by strm.pending.length
  decreasing_by exact length_readChunk_lt ‹_›

/-- `read_content_chunked`. -/
def readContentChunked (arrive : Nat → Nat) (strm : Stream) : Option Bytes × Stream :=
  match getline strm with
  | none => (none, { strm with pending := [] })
  | some (line, rest) => chunkLoop arrive line rest

/-- `is_chunked_transfer_encoding`. -/
def isChunkedTransferEncoding (headers : Headers) : Bool :=
  SameLetters (getHeaderValue headers (bytes "Transfer-Encoding")) (bytes "chunked")

/-- The content of a request, as `detail::read_content` reads it. No content is longer than the
limit of the program. -/
def readBody (arrive : Nat → Nat) (headers : Headers) (strm : Stream) : Option Bytes × Stream :=
  if isChunkedTransferEncoding headers then
    readContentChunked arrive strm
  else if hasHeader headers contentLengthKey then
    readContentWithLength arrive
      ((strtoul 10 (getHeaderValue headers contentLengthKey)).getD 0) strm
  else
    readContentWithoutLength arrive strm

/-- Whether the content of a request was read. -/
inductive ContentResult where
  /-- The content was read. -/
  | read
  /-- The content ends too early or is not what its headers say. -/
  | badRequest
  /-- The content is compressed. -/
  | unsupportedMediaType
  deriving DecidableEq, Repr

/-- How contents arrive, and how those of several parts are read. -/
structure Reception where
  /-- How many bytes have arrived when a number of them is still to come. -/
  arrive : Nat → Nat
  /-- `Server::read_content` for the contents of forms with several parts. -/
  readMultipart : Request → Headers → Stream → ContentResult × Stream
  /-- These are read from the stream like any other. -/
  leaves : ∀ req headers strm, Leaves strm (readMultipart req headers strm).2

/-- Contents that arrive byte by byte, and no forms of several parts. -/
def byteByByte : Reception where
  arrive := fun _ => 1
  readMultipart := fun _ _ strm => (.badRequest, strm)
  leaves := fun _ _ strm => .refl strm

/-- `Request::is_multipart_form_data`. -/
def isMultipartFormData (headers : Headers) : Bool :=
  (bytes "multipart/form-data").isPrefixOf (getHeaderValue headers contentTypeKey)

/-- Whether a content is compressed, which the library is built without. -/
def isCompressed (headers : Headers) : Bool :=
  let encoding := getHeaderValue headers (bytes "Content-Encoding")
  ["gzip", "deflate", "br"].any fun kind => (find encoding (bytes kind)).isSome

/-- `Server::read_content`, as far as it matters for what follows. -/
def readContent (reception : Reception) (req : Request) (headers : Headers) (strm : Stream) :
    ContentResult × Stream :=
  if isMultipartFormData headers then
    reception.readMultipart req headers strm
  else if req.method = bytes "DELETE" ∧ !hasHeader headers contentLengthKey then
    (.read, strm)
  else if isCompressed headers then
    (.unsupportedMediaType, strm)
  else
    let (content, rest) := readBody reception.arrive headers strm
    (if content.isSome then .read else .badRequest, rest)

/-! ## What is left -/

/-- A chunk as `write_content_chunked` writes it. -/
def writeChunk (payload : Bytes) : Bytes :=
  fromIToHex payload.length ++ crlf ++ (payload ++ crlf)

/-- `write_content_chunked`, without compression, of pieces that its provider hands over in one
call: a chunk for each piece that is not empty, and the mark of the end. -/
def writeContentChunked (payloads : List Bytes) : Bytes :=
  (payloads.filter fun payload => !payload.isEmpty).flatMap writeChunk ++ bytes "0\r\n\r\n"

/-! ## Numbers are read back -/

theorem isHex_of_isDigit {c : Byte} (digit : isDigit c = true) :
    isHex c = some (c.toNat - 48) := by
  rw [isDigit, Bool.and_eq_true, decide_eq_true_eq, decide_eq_true_eq] at digit
  exact if_pos digit

theorem isWhiteSpace_of_isHex {c : Byte} {v : Nat} (digit : isHex c = some v) :
    isWhiteSpace c = false := by
  rw [isWhiteSpace, Bool.or_eq_false_iff]
  refine ⟨decide_eq_false (ne_of_isHex digit (by decide)), ?_⟩
  rw [Bool.and_eq_false_iff, decide_eq_false_iff_not, decide_eq_false_iff_not]
  refine .inr fun control => ?_
  have great : 48 ≤ c.toNat := by
    have zero : '0'.toUInt8.toNat = 48 := rfl
    have capitalA : 'A'.toUInt8.toNat = 65 := rfl
    have smallA : 'a'.toUInt8.toNat = 97 := rfl
    simp only [isHex, UInt8.le_iff_toNat_le] at digit
    split at digit
    · omega
    · split at digit
      · omega
      · split at digit
        · omega
        · contradiction
  have small : c.toNat ≤ 13 := UInt8.le_iff_toNat_le.mp control
  omega

theorem hexMarked_of_free {s : Bytes} (free : ∀ c ∈ s, c ≠ 'x'.toUInt8 ∧ c ≠ 'X'.toUInt8) :
    hexMarked s = false := by
  rcases s with _ | ⟨zero, _ | ⟨mark, _ | ⟨c, rest⟩⟩⟩
  · rfl
  · rfl
  · rfl
  · obtain ⟨not_small, not_capital⟩ := free mark (by simp)
    simp [hexMarked, not_small, not_capital]

/-- A number that a text begins with is read, up to what is no digit. -/
theorem strtoul_append {base : Nat} {digits behind : Bytes} (filled : digits ≠ [])
    (digital : ∀ c ∈ digits, isDigitOf base c = true)
    (ended : ∀ c ∈ behind, isHex c = none ∧ c ≠ 'x'.toUInt8 ∧ c ≠ 'X'.toUInt8)
    (bound : numberOf base digits < 2 ^ 64) :
    strtoul base (digits ++ behind) = some (numberOf base digits) := by
  have named : ∀ c ∈ digits, ∃ v, isHex c = some v := by
    intro c member
    have digit := digital c member
    rw [isDigitOf] at digit
    cases value : isHex c with
    | none =>
        rw [value] at digit
        contradiction
    | some v => exact ⟨v, rfl⟩
  have other {c d : Byte} (member : c ∈ digits) (unnamed : isHex d = none) : c ≠ d :=
    ne_of_isHex (named c member).choose_spec unnamed
  have terminated : cString (digits ++ behind) = digits ++ cString behind :=
    cString_append (fun zero => other zero isHex_zero rfl) behind
  have behind_ended : ∀ c ∈ cString behind,
      isHex c = none ∧ c ≠ 'x'.toUInt8 ∧ c ≠ 'X'.toUInt8 :=
    fun c member => ended c ((List.takeWhile_prefix _).subset member)
  generalize cString behind = rest at terminated behind_ended
  have read : (digits ++ rest).takeWhile (isDigitOf base) = digits := by
    rw [List.takeWhile_append_of_pos digital]
    cases rest with
    | nil => rw [List.takeWhile_nil, List.append_nil]
    | cons c rest =>
        have undigital : isDigitOf base c = false := by
          rw [isDigitOf, (behind_ended c List.mem_cons_self).1]
          rfl
        rw [List.takeWhile_cons_of_neg (by simp [undigital]), List.append_nil]
  have unmarked : hexMarked (digits ++ rest) = false := by
    refine hexMarked_of_free fun c member => ?_
    rcases List.mem_append.mp member with inside | beyond
    · exact ⟨other inside (by decide), other inside (by decide)⟩
    · exact (behind_ended c beyond).2
  obtain ⟨first, more, rfl⟩ := List.exists_cons_of_ne_nil filled
  obtain ⟨v, digit⟩ := named first List.mem_cons_self
  have solid : (first :: more ++ rest).dropWhile isWhiteSpace = first :: more ++ rest := by
    rw [List.cons_append, List.dropWhile_cons_of_neg (by simp [isWhiteSpace_of_isHex digit])]
  have not_minus : first ≠ hyphen := other List.mem_cons_self (by decide)
  have not_plus : first ≠ plus := other List.mem_cons_self (by decide)
  have unsigned : ¬ ((first :: more ++ rest).head? = some hyphen ∨
      (first :: more ++ rest).head? = some plus) := by
    simp [not_minus, not_plus]
  have unprefixed : ¬ (base = 16 ∧ hexMarked (first :: more ++ rest) = true) := by
    rw [unmarked]
    exact fun both => Bool.false_ne_true both.2
  have positive : ¬ decide ((first :: more ++ rest).head? = some hyphen) = true := by
    simp [not_minus]
  rw [strtoul, terminated]
  dsimp only
  rw [solid, if_neg unsigned, if_neg unprefixed, read, if_neg positive, if_pos bound]
  rfl

theorem numberOf_append (base : Nat) (front back : Bytes) :
    numberOf base (front ++ back) =
      back.foldl (fun value c => base * value + (isHex c).getD 0) (numberOf base front) :=
  List.foldl_append

theorem fromIToHex_spec (n : Nat) :
    fromIToHex n ≠ [] ∧ (∀ c ∈ fromIToHex n, isDigitOf 16 c = true) ∧
      numberOf 16 (fromIToHex n) = n := by
  have digit_eq : ∀ k < 16, isHex ((bytes "0123456789abcdef").getD k 0) = some k := by decide
  induction n using fromIToHex.induct with
  | case1 n small =>
      have digit := digit_eq (n % 16) (Nat.mod_lt n (Nat.succ_pos 15))
      rw [fromIToHex, if_pos small]
      refine ⟨List.cons_ne_nil _ _, ?_, ?_⟩
      · intro c member
        rw [List.mem_singleton.mp member, isDigitOf, digit]
        simpa using Nat.mod_lt n (Nat.succ_pos 15)
      · rw [numberOf, List.foldl_cons, List.foldl_nil, digit]
        simpa using Nat.mod_eq_of_lt small
  | case2 n great induction =>
      obtain ⟨-, digital, number_eq⟩ := induction
      have digit := digit_eq (n % 16) (Nat.mod_lt n (Nat.succ_pos 15))
      rw [fromIToHex, if_neg great]
      refine ⟨by simp, ?_, ?_⟩
      · intro c member
        rcases List.mem_append.mp member with front | last
        · exact digital c front
        · rw [List.mem_singleton.mp last, isDigitOf, digit]
          simpa using Nat.mod_lt n (Nat.succ_pos 15)
      · rw [numberOf_append, number_eq, List.foldl_cons, List.foldl_nil, digit]
        exact Nat.div_add_mod n 16

theorem newline_notMem_fromIToHex (n : Nat) : newline ∉ fromIToHex n := by
  obtain ⟨-, digital, -⟩ := fromIToHex_spec n
  exact fun member => absurd (digital newline member) (by decide)

theorem isHex_of_mem_crlf :
    ∀ c ∈ crlf, isHex c = none ∧ c ≠ 'x'.toUInt8 ∧ c ≠ 'X'.toUInt8 := by
  have first : carriageReturn ≠ 'x'.toUInt8 ∧ carriageReturn ≠ 'X'.toUInt8 := by decide
  have last : newline ≠ 'x'.toUInt8 ∧ newline ≠ 'X'.toUInt8 := by decide
  exact List.forall_mem_cons.mpr ⟨⟨rfl, first⟩, List.forall_mem_singleton.mpr ⟨rfl, last⟩⟩

theorem strtoul_fromIToHex {n : Nat} (bound : n < 2 ^ 64) :
    strtoul 16 (fromIToHex n ++ crlf) = some n := by
  obtain ⟨filled, digital, number_eq⟩ := fromIToHex_spec n
  rw [strtoul_append filled digital isHex_of_mem_crlf (by rwa [number_eq]), number_eq]

theorem strtoul_decimal {n : Nat} (bound : n < 2 ^ 64) : strtoul 10 (decimal n) = some n := by
  have value {c : Byte} (member : c ∈ decimal n) : isHex c = some (c.toNat - 48) :=
    isHex_of_isDigit (isDigit_of_mem_decimal member)
  have number_eq : numberOf 10 (decimal n) = n := by
    have same : numberOf 10 (decimal n) = number (decimal n) := by
      refine List.foldl_ext _ _ _ fun total c member => ?_
      rw [value member]
      rfl
    rw [same, number_decimal]
  have digital : ∀ c ∈ decimal n, isDigitOf 10 c = true := by
    intro c member
    have digit := isDigit_of_mem_decimal member
    rw [isDigit, Bool.and_eq_true, decide_eq_true_eq, decide_eq_true_eq,
      UInt8.le_iff_toNat_le, UInt8.le_iff_toNat_le] at digit
    have nine : (57 : Byte).toNat = 57 := rfl
    rw [isDigitOf, value member, Option.any_some, decide_eq_true_eq]
    omega
  have read := strtoul_append (decimal_ne_nil n) digital (List.forall_mem_nil _)
    (by rwa [number_eq])
  rwa [List.append_nil, number_eq] at read

/-! ## Contents are read back -/

theorem cString_crlf : cString crlf = crlf := by decide

/-- A chunk is read, and what follows it is read as chunks again. -/
theorem readContentChunked_writeChunk (arrive : Nat → Nat) {payload : Bytes} (filled : payload ≠ [])
    (bound : payload.length < 2 ^ 64 - 1) (rest : Bytes) (broken : Bool) :
    readContentChunked arrive ⟨writeChunk payload ++ rest, broken⟩ =
      ((readContentChunked arrive ⟨rest, broken⟩).1.map (payload ++ ·),
        (readContentChunked arrive ⟨rest, broken⟩).2) := by
  have positive := List.length_pos_of_ne_nil filled
  have shape : writeChunk payload ++ rest =
      fromIToHex payload.length ++ crlf ++ (payload ++ ([] ++ crlf ++ rest)) := by
    simp [writeChunk]
  have inside : payload.length ≤ (payload ++ ([] ++ crlf ++ rest)).length := by
    rw [List.length_append]
    exact Nat.le_add_right _ _
  have step : readChunk arrive (fromIToHex payload.length ++ crlf)
      ⟨payload ++ ([] ++ crlf ++ rest), broken⟩ =
        match getline ⟨rest, broken⟩ with
        | none => (.failed, ⟨[], broken⟩)
        | some (line, rest) => (.more payload line, rest) := by
    rw [readChunk, strtoul_fromIToHex (bound.trans (by omega))]
    dsimp only
    rw [if_neg (Nat.ne_of_lt bound), if_neg (Nat.ne_of_gt positive), readContentWithLength_eq]
    dsimp only
    rw [if_pos inside, List.take_left, List.drop_left]
    dsimp only
    rw [getline_append List.not_mem_nil]
    dsimp only
    rw [List.nil_append, if_pos cString_crlf]
  rw [readContentChunked, shape, getline_append (newline_notMem_fromIToHex _)]
  dsimp only
  rw [chunkLoop, step, readContentChunked]
  cases getline ⟨rest, broken⟩ <;> rfl

theorem readContentChunked_done (arrive : Nat → Nat) (rest : Bytes) (broken : Bool) :
    readContentChunked arrive ⟨bytes "0\r\n\r\n" ++ rest, broken⟩ = (some [], ⟨rest, broken⟩) := by
  have shape : bytes "0\r\n\r\n" ++ rest = bytes "0" ++ crlf ++ ([] ++ crlf ++ rest) := rfl
  have zero : strtoul 16 (bytes "0" ++ crlf) = some 0 := by decide
  have step : readChunk arrive (bytes "0" ++ crlf) ⟨[] ++ crlf ++ rest, broken⟩ =
      (.finished [], ⟨rest, broken⟩) := by
    rw [readChunk, zero]
    dsimp only
    rw [if_neg (by decide), if_pos rfl, getline_append List.not_mem_nil]
    rfl
  rw [readContentChunked, shape, getline_append (by decide)]
  dsimp only
  rw [chunkLoop, step]

theorem readContentChunked_append (arrive : Nat → Nat) {payloads : List Bytes}
    (filled : ∀ payload ∈ payloads, payload ≠ [] ∧ payload.length < 2 ^ 64 - 1) (rest : Bytes)
    (broken : Bool) :
    readContentChunked arrive
        ⟨payloads.flatMap writeChunk ++ (bytes "0\r\n\r\n" ++ rest), broken⟩ =
      (some payloads.flatten, ⟨rest, broken⟩) := by
  induction payloads with
  | nil => exact readContentChunked_done arrive rest broken
  | cons payload payloads induction =>
      obtain ⟨⟨nonempty, bound⟩, others⟩ := List.forall_mem_cons.mp filled
      rw [List.flatMap_cons, List.append_assoc,
        readContentChunked_writeChunk arrive nonempty bound, induction others]
      rfl

theorem filled_of_bounded {payloads : List Bytes}
    (bounded : ∀ payload ∈ payloads, payload.length < 2 ^ 64 - 1) :
    ∀ payload ∈ payloads.filter fun payload => !payload.isEmpty,
      payload ≠ [] ∧ payload.length < 2 ^ 64 - 1 := by
  intro payload member
  obtain ⟨listed, nonempty⟩ := List.mem_filter.mp member
  exact ⟨by simpa using nonempty, bounded payload listed⟩

/-- A content as a client declares it: the bytes on the connection, and the content. -/
inductive Declared (headers : Headers) : Bytes → Bytes → Prop where
  /-- As many bytes as the headers say. -/
  | sized (content : Bytes) : isChunkedTransferEncoding headers = false →
      getHeaderValue headers contentLengthKey = decimal content.length →
      content.length < 2 ^ 64 → Declared headers content content
  /-- Chunks. -/
  | chunked (payloads : List Bytes) : isChunkedTransferEncoding headers = true →
      (∀ payload ∈ payloads, payload.length < 2 ^ 64 - 1) →
      Declared headers (writeContentChunked payloads) payloads.flatten

/-- A content that is declared is read exactly, however its bytes arrive, and what follows it is
left. -/
theorem readBody_append (arrive : Nat → Nat) {headers : Headers} {text content : Bytes}
    (declared : Declared headers text content) (rest : Bytes) (broken : Bool) :
    readBody arrive headers ⟨text ++ rest, broken⟩ = (some content, ⟨rest, broken⟩) := by
  cases declared with
  | sized _ unchunked length_eq bound =>
      have present : hasHeader headers contentLengthKey = true := by
        by_contra absent
        have empty : getHeaderValue headers contentLengthKey = [] := by
          rw [getHeaderValue, List.find?_eq_none.mpr]
          intro header member named
          exact absent (List.any_eq_true.mpr ⟨header, member, named⟩)
        rw [empty] at length_eq
        exact decimal_ne_nil _ length_eq.symm
      have inside : text.length ≤ (text ++ rest).length := by
        rw [List.length_append]
        exact Nat.le_add_right _ _
      rw [readBody, unchunked, if_neg Bool.false_ne_true, if_pos present, length_eq,
        strtoul_decimal bound, Option.getD_some, readContentWithLength_eq]
      dsimp only
      rw [if_pos inside, List.take_left, List.drop_left]
  | chunked payloads chunked bounded =>
      rw [readBody, if_pos chunked, writeContentChunked, List.append_assoc,
        readContentChunked_append arrive (filled_of_bounded bounded)]
      congr 2
      exact List.flatten_filter_not_isEmpty

/-! ## Contents that are cut off -/

theorem prefix_append_cases {α : Type} {front back cut : List α} (begins : cut <+: front ++ back) :
    cut <+: front ∨ ∃ rest, cut = front ++ rest ∧ rest <+: back := by
  rcases List.prefix_or_prefix_of_prefix begins (List.prefix_append front back) with
    inside | ⟨rest, rfl⟩
  · exact .inl inside
  · exact .inr ⟨rest, rfl, (List.prefix_append_right_inj front).mp begins⟩

theorem readChunk_nil (arrive : Nat → Nat) (line : Bytes) (broken : Bool) :
    ∃ rest, readChunk arrive line ⟨[], broken⟩ = (.failed, rest) := by
  have ended : getline ⟨[], broken⟩ = none := by
    rw [getline_unended List.not_mem_nil]
    rfl
  rw [readChunk]
  cases strtoul 16 line with
  | none => exact ⟨_, rfl⟩
  | some chunkLen =>
      dsimp only
      split
      · exact ⟨_, rfl⟩
      · split
        · exact ⟨_, by rw [ended]⟩
        · rename_i positive
          have short : ¬ chunkLen ≤ ([] : Bytes).length := by
            rw [List.length_nil]
            omega
          exact ⟨_, by rw [readContentWithLength_eq, if_neg short]⟩

theorem readContentChunked_of_unended (arrive : Nat → Nat) {cut : Bytes}
    (unended : newline ∉ cut) (broken : Bool) :
    (readContentChunked arrive ⟨cut, broken⟩).1 = none := by
  rw [readContentChunked, getline_unended unended]
  split
  · rfl
  · rename_i line rest read
    split at read
    · contradiction
    · obtain ⟨rfl, rfl⟩ := Prod.mk.inj (Option.some.inj read)
      obtain ⟨rest, failed⟩ := readChunk_nil arrive cut broken
      rw [chunkLoop, failed]

theorem unended_of_beginning {line cut : Bytes} (unbroken : newline ∉ line)
    (begins : cut <+: line ++ crlf) (proper : cut ≠ line ++ crlf) : newline ∉ cut := by
  have shape : line ++ crlf = (line ++ [carriageReturn]) ++ [newline] := by
    simp [crlf]
  rw [shape] at begins proper
  have inside := (List.prefix_concat_iff.mp begins).resolve_left proper
  intro member
  rcases List.mem_append.mp (inside.subset member) with early | last
  · exact unbroken early
  · exact absurd (List.mem_singleton.mp last) (by decide)

/-- What is cut off behind the end of its first line holds all of this line. -/
theorem exists_behind_line {line back cut : Bytes} (unbroken : newline ∉ line)
    (begins : cut <+: line ++ crlf ++ back) (ended : newline ∈ cut) :
    ∃ behind, cut = line ++ crlf ++ behind ∧ behind <+: back := by
  rcases prefix_append_cases begins with early | late
  · by_cases whole : cut = line ++ crlf
    · exact ⟨[], by rw [whole, List.append_nil], List.nil_prefix⟩
    · exact absurd ended (unended_of_beginning unbroken early whole)
  · exact late

theorem readChunk_cut (arrive : Nat → Nat) {payload : Bytes} (filled : payload ≠ [])
    (bound : payload.length < 2 ^ 64 - 1) {cut : Bytes} (begins : cut <+: payload ++ crlf)
    (proper : cut ≠ payload ++ crlf) (broken : Bool) :
    ∃ rest, readChunk arrive (fromIToHex payload.length ++ crlf) ⟨cut, broken⟩ =
      (if broken = false ∧ cut = payload ++ [carriageReturn] then .finished payload else .failed,
        rest) := by
  have positive := List.length_pos_of_ne_nil filled
  rw [readChunk, strtoul_fromIToHex (bound.trans (by omega))]
  dsimp only
  rw [if_neg (Nat.ne_of_lt bound), if_neg (Nat.ne_of_gt positive), readContentWithLength_eq]
  dsimp only
  by_cases inside : payload.length ≤ cut.length
  · obtain ⟨behind, rfl⟩ : payload <+: cut :=
      List.prefix_of_prefix_length_le (List.prefix_append payload crlf) begins inside
    have behind_begins : behind <+: crlf := (List.prefix_append_right_inj payload).mp begins
    have unended : newline ∉ behind :=
      @unended_of_beginning [] behind List.not_mem_nil behind_begins fun whole =>
        proper (congrArg (payload ++ ·) whole)
    have other : behind ≠ crlf := fun whole => proper (congrArg (payload ++ ·) whole)
    rw [if_pos inside, List.take_left, List.drop_left]
    dsimp only
    rw [getline_unended unended]
    have few : behind = [] ∨ behind = [carriageReturn] := by
      rcases List.prefix_cons_iff.mp behind_begins with rfl | ⟨rest, rfl, rest_begins⟩
      · exact .inl rfl
      · rcases List.prefix_cons_iff.mp rest_begins with rfl | ⟨last, rfl, last_begins⟩
        · exact .inr rfl
        · exact absurd (by rw [List.prefix_nil.mp last_begins]; rfl) other
    rcases few with rfl | rfl
    · rw [if_pos (.inl rfl), if_neg (by simp)]
      exact ⟨_, rfl⟩
    · cases broken with
      | true =>
          rw [if_pos (.inr rfl), if_neg (by simp)]
          exact ⟨_, rfl⟩
      | false =>
          have unclosed : cString [carriageReturn] ≠ crlf := by decide
          rw [if_neg (by decide), if_pos ⟨rfl, rfl⟩]
          dsimp only
          rw [if_neg unclosed]
          exact ⟨_, rfl⟩
  · have shorter : ¬ (broken = false ∧ cut = payload ++ [carriageReturn]) := by
      rintro ⟨-, rfl⟩
      exact inside (List.prefix_append payload _).length_le
    rw [if_neg inside, if_neg shorter]
    exact ⟨_, rfl⟩

/-- A chunk that is cut off is read only without the last byte of its end, and only if the
connection has ended there. -/
theorem readContentChunked_cutChunk (arrive : Nat → Nat) {payload : Bytes} (filled : payload ≠ [])
    (bound : payload.length < 2 ^ 64 - 1) {cut : Bytes} (begins : cut <+: writeChunk payload)
    (proper : cut ≠ writeChunk payload) (broken : Bool) (content : Bytes) :
    (readContentChunked arrive ⟨cut, broken⟩).1 = some content ↔
      broken = false ∧ cut ++ [newline] = writeChunk payload ∧ content = payload := by
  have unbroken := newline_notMem_fromIToHex payload.length
  have closed : writeChunk payload =
      fromIToHex payload.length ++ crlf ++ (payload ++ [carriageReturn]) ++ [newline] := by
    simp [writeChunk, crlf]
  by_cases ended : newline ∈ cut
  · -- The line of the chunk is there.
    obtain ⟨behind, rfl, behind_begins⟩ := exists_behind_line unbroken begins ended
    have behind_proper : behind ≠ payload ++ crlf := fun whole => proper (by rw [whole, writeChunk])
    obtain ⟨rest, step⟩ := readChunk_cut arrive filled bound behind_begins behind_proper broken
    have cut_iff : fromIToHex payload.length ++ crlf ++ behind ++ [newline] = writeChunk payload ↔
        behind = payload ++ [carriageReturn] := by
      rw [closed, List.append_cancel_right_eq, List.append_cancel_left_eq]
    rw [readContentChunked, getline_append unbroken, cut_iff]
    dsimp only
    by_cases last : broken = false ∧ behind = payload ++ [carriageReturn]
    · rw [if_pos last] at step
      rw [chunkLoop, step]
      simp [last, eq_comm]
    · rw [if_neg last] at step
      rw [chunkLoop, step]
      simp only [reduceCtorEq, false_iff]
      exact fun both => last ⟨both.1, both.2.1⟩
  · rw [readContentChunked_of_unended arrive ended]
    simp only [reduceCtorEq, false_iff]
    rintro ⟨-, whole, -⟩
    rw [closed, List.append_cancel_right_eq] at whole
    exact ended (by rw [whole]; simp [crlf])

theorem readContentChunked_cutDone (arrive : Nat → Nat) {cut : Bytes}
    (begins : cut <+: bytes "0\r\n\r\n") (proper : cut ≠ bytes "0\r\n\r\n") (broken : Bool) :
    (readContentChunked arrive ⟨cut, broken⟩).1 = none := by
  have shape : bytes "0\r\n\r\n" = bytes "0" ++ crlf ++ crlf := rfl
  rw [shape] at begins proper
  have unbroken : newline ∉ bytes "0" := by decide
  by_cases ended : newline ∈ cut
  · obtain ⟨behind, rfl, behind_begins⟩ := exists_behind_line unbroken begins ended
    have open_behind : newline ∉ behind :=
      @unended_of_beginning [] behind List.not_mem_nil behind_begins fun whole =>
        proper (congrArg (bytes "0" ++ crlf ++ ·) whole)
    have other : cString behind ≠ crlf := by
      intro whole
      have member : newline ∈ cString behind := by
        rw [whole]
        decide
      exact open_behind ((List.takeWhile_prefix _).subset member)
    have zero : strtoul 16 (bytes "0" ++ crlf) = some 0 := by decide
    have step : ∃ rest,
        readChunk arrive (bytes "0" ++ crlf) ⟨behind, broken⟩ = (.failed, rest) := by
      rw [readChunk, zero]
      dsimp only
      rw [if_neg (by decide), if_pos rfl, getline_unended open_behind]
      split
      · exact ⟨_, rfl⟩
      · rename_i line rest read
        split at read
        · contradiction
        · obtain ⟨rfl, rfl⟩ := Prod.mk.inj (Option.some.inj read)
          exact ⟨_, by rw [if_neg other]⟩
    obtain ⟨rest, step⟩ := step
    rw [readContentChunked, getline_append unbroken]
    dsimp only
    rw [chunkLoop, step]
  · exact readContentChunked_of_unended arrive ended broken

/-- Chunks that are cut off before the last byte of one of them, and the content up to there. -/
inductive ClosingCut : List Bytes → Bytes → Bytes → Prop where
  /-- The last byte of the first chunk is missing, and all that follows. -/
  | here {payload cut : Bytes} (payloads : List Bytes) : cut ++ [newline] = writeChunk payload →
      ClosingCut (payload :: payloads) cut payload
  /-- The last byte of a later chunk is missing, and all that follows. -/
  | later {payloads : List Bytes} {cut content : Bytes} (payload : Bytes) :
      ClosingCut payloads cut content →
      ClosingCut (payload :: payloads) (writeChunk payload ++ cut) (payload ++ content)

theorem closingCut_cons_iff {payload cut content : Bytes} {payloads : List Bytes} :
    ClosingCut (payload :: payloads) cut content ↔
      cut ++ [newline] = writeChunk payload ∧ content = payload ∨
        ∃ behind later, cut = writeChunk payload ++ behind ∧ content = payload ++ later ∧
          ClosingCut payloads behind later := by
  constructor
  · intro closing
    cases closing with
    | here _ whole => exact .inl ⟨whole, rfl⟩
    | later _ closing => exact .inr ⟨_, _, rfl, rfl, closing⟩
  · rintro (⟨whole, rfl⟩ | ⟨behind, later, rfl, rfl, closing⟩)
    · exact .here _ whole
    · exact .later _ closing

/-- Chunks that are cut off are read as a content only before the last byte of one of them. -/
theorem readContentChunked_beginning (arrive : Nat → Nat) {payloads : List Bytes}
    (filled : ∀ payload ∈ payloads, payload ≠ [] ∧ payload.length < 2 ^ 64 - 1) {cut : Bytes}
    (begins : cut <+: payloads.flatMap writeChunk ++ bytes "0\r\n\r\n") (broken : Bool)
    (content : Bytes) :
    (readContentChunked arrive ⟨cut, broken⟩).1 = some content ↔
      cut = payloads.flatMap writeChunk ++ bytes "0\r\n\r\n" ∧ content = payloads.flatten ∨
        broken = false ∧ ClosingCut payloads cut content := by
  induction payloads generalizing cut content with
  | nil =>
      have unclosed : ¬ (broken = false ∧ ClosingCut [] cut content) := by
        rintro ⟨-, closing⟩
        cases closing
      rw [or_iff_left unclosed]
      by_cases whole : cut = bytes "0\r\n\r\n"
      · have read := readContentChunked_done arrive [] broken
        rw [List.append_nil] at read
        rw [whole, read]
        simp [eq_comm]
      · rw [readContentChunked_cutDone arrive begins whole]
        simp [whole]
  | cons payload payloads induction =>
      obtain ⟨⟨nonempty, bound⟩, others⟩ := List.forall_mem_cons.mp filled
      rw [List.flatMap_cons, List.append_assoc] at begins ⊢
      rw [closingCut_cons_iff]
      by_cases late : writeChunk payload <+: cut
      · obtain ⟨behind, rfl⟩ := late
        have step := induction others ((List.prefix_append_right_inj _).mp begins)
        have unclosed : writeChunk payload ++ behind ++ [newline] ≠ writeChunk payload := by
          simp
        rw [readContentChunked_writeChunk arrive nonempty bound, Option.map_eq_some_iff]
        simp only [step, unclosed, false_and, false_or, List.append_cancel_left_eq,
          List.flatten_cons]
        constructor
        · rintro ⟨later, ⟨rfl, rfl⟩ | ⟨ended, closing⟩, rfl⟩
          · exact .inl ⟨rfl, rfl⟩
          · exact .inr ⟨ended, behind, later, rfl, rfl, closing⟩
        · rintro (⟨rfl, rfl⟩ | ⟨ended, behind', later, rfl, rfl, closing⟩)
          · exact ⟨_, .inl ⟨rfl, rfl⟩, rfl⟩
          · exact ⟨later, .inr ⟨ended, closing⟩, rfl⟩
      · have early : cut <+: writeChunk payload := by
          rcases prefix_append_cases begins with early | ⟨rest, rfl, -⟩
          · exact early
          · exact absurd (List.prefix_append _ _) late
        have proper : cut ≠ writeChunk payload := fun whole => late (by rw [whole])
        rw [readContentChunked_cutChunk arrive nonempty bound early proper]
        constructor
        · rintro ⟨ended, closing⟩
          exact .inr ⟨ended, .inl closing⟩
        · rintro (⟨whole, -⟩ | ⟨ended, closing | ⟨behind, later, rfl, -, -⟩⟩)
          · exact absurd (whole ▸ List.prefix_append _ _) late
          · exact ⟨ended, closing⟩
          · exact absurd (List.prefix_append _ _) late

/-- A content in chunks that is cut off is refused, wherever it is cut off, unless only the last
byte of the end of a chunk is missing when the connection ends. Then the chunks up to there are
taken for the whole content. -/
theorem readContentChunked_cut (arrive : Nat → Nat) {payloads : List Bytes}
    (bounded : ∀ payload ∈ payloads, payload.length < 2 ^ 64 - 1) {cut : Bytes}
    (begins : cut <+: writeContentChunked payloads) (broken : Bool) (content : Bytes) :
    (readContentChunked arrive ⟨cut, broken⟩).1 = some content ↔
      cut = writeContentChunked payloads ∧ content = payloads.flatten ∨
        broken = false ∧
          ClosingCut (payloads.filter fun payload => !payload.isEmpty) cut content := by
  rw [readContentChunked_beginning arrive (filled_of_bounded bounded) begins,
    List.flatten_filter_not_isEmpty]
  rfl

/-- The connection ends behind the first of two chunks, and nobody notices. -/
theorem readContentChunked_cut_closing :
    (readContentChunked (fun _ => 1) ⟨bytes "3\r\nabc\r", false⟩).1 = some (bytes "abc") := by
  have digit : fromIToHex 3 = bytes "3" := by
    rw [fromIToHex]
    rfl
  have chunk : bytes "3\r\nabc\r" ++ [newline] = writeChunk (bytes "abc") := by
    change _ = fromIToHex 3 ++ _ ++ _
    rw [digit]
    decide
  have begins : bytes "3\r\nabc\r" <+: writeContentChunked [bytes "abc", bytes "de"] :=
    (List.prefix_append _ [newline]).trans (chunk ▸ List.prefix_append_of_prefix
      (List.prefix_append (writeChunk (bytes "abc")) _))
  have bounded : ∀ payload ∈ [bytes "abc", bytes "de"], payload.length < 2 ^ 64 - 1 := by decide
  exact (readContentChunked_cut (fun _ => 1) bounded begins false (bytes "abc")).mpr
    (.inr ⟨rfl, .here _ chunk⟩)

end BoostDocSearcher.Httplib
