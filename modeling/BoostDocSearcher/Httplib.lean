import Mathlib.Data.List.DropRight
import BoostDocSearcher.Text

/-!
# Requests in the HTTP library

The path of a request line through the server's HTTP library: the length limit, the request line,
the query string and the decoding of its keys and values. The decoder understands `%XX` and
`%uXXXX`; a percent sign that begins neither is kept.
-/

namespace BoostDocSearcher.Httplib

/-- The byte `'%'`. -/
def percent : Byte := '%'.toUInt8

/-- The byte `'+'`. -/
def plus : Byte := '+'.toUInt8

/-- The byte `'&'`. -/
def ampersand : Byte := '&'.toUInt8

/-- The byte `'='`. -/
def equals : Byte := '='.toUInt8

/-- The byte `'u'` of a four-digit escape. -/
def unicodeMark : Byte := 'u'.toUInt8

/-! ## Decoding -/

/-- `is_hex`, with the value of the digit. -/
def isHex (c : Byte) : Option Nat :=
  if '0'.toUInt8 ≤ c ∧ c ≤ '9'.toUInt8 then
    some (c.toNat - '0'.toNat)
  else if 'A'.toUInt8 ≤ c ∧ c ≤ 'F'.toUInt8 then
    some (c.toNat - 'A'.toNat + 10)
  else if 'a'.toUInt8 ≤ c ∧ c ≤ 'f'.toUInt8 then
    some (c.toNat - 'a'.toNat + 10)
  else
    none

/-- The loop of `from_hex_to_i`. The byte behind the text is the terminating zero. -/
def fromHexLoop : Nat → Bytes → Nat → Option Nat
  | 0, _, val => some val
  | _ + 1, [], _ => none
  | cnt + 1, c :: s, val =>
      if c = 0 then
        none
      else
        match isHex c with
        | none => none
        | some v => fromHexLoop cnt s (val * 16 + v)

/-- `from_hex_to_i` on the rest of a text: the value of its first digits. -/
def fromHexToI (s : Bytes) (cnt : Nat) : Option Nat :=
  if s.isEmpty then none else fromHexLoop cnt s 0

/-- `to_utf8`, for the codes of four digits. -/
def toUtf8 (code : Nat) : Bytes :=
  if code < 0x80 then
    [(code &&& 0x7F).toUInt8]
  else if code < 0x800 then
    [(0xC0 ||| ((code >>> 6) &&& 0x1F)).toUInt8, (0x80 ||| (code &&& 0x3F)).toUInt8]
  else if code < 0xD800 then
    [(0xE0 ||| ((code >>> 12) &&& 0xF)).toUInt8, (0x80 ||| ((code >>> 6) &&& 0x3F)).toUInt8,
      (0x80 ||| (code &&& 0x3F)).toUInt8]
  else if code < 0xE000 then
    []
  else
    [(0xE0 ||| ((code >>> 12) &&& 0xF)).toUInt8, (0x80 ||| ((code >>> 6) &&& 0x3F)).toUInt8,
      (0x80 ||| (code &&& 0x3F)).toUInt8]

/-- The loop of `decode_url`; the number counts the bytes that an escape has already used up. -/
def decodeLoop (convertPlusToSpace : Bool) : Nat → Bytes → Bytes
  | _, [] => []
  | skip + 1, _ :: s => decodeLoop convertPlusToSpace skip s
  | 0, c :: s =>
      if c = percent ∧ s ≠ [] then
        if s.head? = some unicodeMark then
          match fromHexToI (s.drop 1) 4 with
          | some val => toUtf8 val ++ decodeLoop convertPlusToSpace 5 s
          | none => c :: decodeLoop convertPlusToSpace 0 s
        else
          match fromHexToI s 2 with
          | some val => val.toUInt8 :: decodeLoop convertPlusToSpace 2 s
          | none => c :: decodeLoop convertPlusToSpace 0 s
      else if convertPlusToSpace ∧ c = plus then
        space :: decodeLoop convertPlusToSpace 0 s
      else
        c :: decodeLoop convertPlusToSpace 0 s

/-- `decode_url`. -/
def decodeUrl (s : Bytes) (convertPlusToSpace : Bool) : Bytes :=
  decodeLoop convertPlusToSpace 0 s

/-! ## The query string -/

/-- `is_space_or_tab`. -/
def isSpaceOrTab (c : Byte) : Bool :=
  c = space || c = '\t'.toUInt8

/-- `trim`. -/
def trim (s : Bytes) : Bytes :=
  (s.dropWhile isSpaceOrTab).rdropWhile isSpaceOrTab

/-- `split`: the trimmed pieces on which the callback is run. -/
def split (s : Bytes) (d : Byte) : List Bytes :=
  ((s.splitOn d).map trim).filter fun piece => !piece.isEmpty

/-- The parameters of a request, a multimap in the order of insertion. -/
abbrev Params := List (Bytes × Bytes)

/-- The inner callback of `parse_query_text`, on the key and the value so far. -/
def assignPair (pair : Bytes × Bytes) (piece : Bytes) : Bytes × Bytes :=
  if pair.1.isEmpty then (piece, pair.2) else (pair.1, piece)

/-- The outer callback of `parse_query_text`. -/
def emplacePair (params : Params) (piece : Bytes) : Params :=
  let (key, val) := (split piece equals).foldl assignPair ([], [])
  if !key.isEmpty then params ++ [(decodeUrl key true, decodeUrl val true)] else params

/-- `parse_query_text`. -/
def parseQueryText (s : Bytes) (params : Params) : Params :=
  (split s ampersand).foldl emplacePair params

/-- `Request::has_param`. -/
def hasParam (params : Params) (key : Bytes) : Bool :=
  params.any fun param => param.1 = key

/-- `Request::get_param_value` for the first value. -/
def getParamValue (params : Params) (key : Bytes) : Bytes :=
  match params.find? fun param => param.1 = key with
  | some param => param.2
  | none => []

/-! ## The request line -/

/-- `CPPHTTPLIB_REQUEST_URI_MAX_LENGTH`. -/
def requestUriMaxLength : Nat := 8192

/-- The part of a `Request` that the handlers use. -/
structure Request where
  /-- The method. -/
  method : Bytes
  /-- The decoded path. -/
  path : Bytes
  /-- The parameters of the query string. -/
  params : Params
  deriving DecidableEq, Repr

/-- The methods of a request line. -/
def methods : List Bytes :=
  ["GET", "HEAD", "POST", "PUT", "DELETE", "CONNECT", "OPTIONS", "TRACE", "PATCH", "PRI"].map bytes

/-- The ends of a request line. -/
def versions : List Bytes :=
  [" HTTP/1.0\r\n", " HTTP/1.1\r\n"].map bytes

/-- The target of a request line behind its method, up to the version that must end the line. -/
def targetOf (line : Bytes) : Option Bytes :=
  (versions.find? fun version => version.isSuffixOf line).map fun version =>
    line.take (line.length - version.length)

/-- `Server::parse_request_line`, on the text up to its first zero byte: a method, a space, a path
without question mark, perhaps a query string behind one, and a version. -/
def parseRequestLine (s : Bytes) : Option Request := do
  let s := s.takeWhile (· ≠ 0)
  let method ← methods.find? fun method => (method ++ [space]).isPrefixOf s
  let target ← targetOf (s.drop (method.length + 1))
  let path := target.takeWhile (· ≠ '?'.toUInt8)
  let query := (target.drop path.length).drop 1
  if path.isEmpty ∨ query.any (fun c => c = newline || c = '\r'.toUInt8) then
    none
  else
    return {
      method
      path := decodeUrl path false
      params := if query.isEmpty then [] else parseQueryText query [] }

/-! ## Responses -/

/-- The headers of a message, a multimap in the order of insertion. Letter case does not matter in
their keys. -/
abbrev Headers := List (Bytes × Bytes)

/-- `has_crlf`, on the text up to its first zero byte. -/
def hasCrlf (s : Bytes) : Bool :=
  (s.takeWhile (· ≠ 0)).any fun c => c = '\r'.toUInt8 || c = newline

/-- The part of a `Response` that `set_content` writes, with all headers. -/
structure Response where
  /-- The headers. -/
  headers : Headers := []
  /-- The body. -/
  body : Bytes := []
  deriving DecidableEq, Repr

/-- `Response::set_header`. -/
def Response.setHeader (self : Response) (key val : Bytes) : Response :=
  if !hasCrlf key && !hasCrlf val then
    { self with headers := self.headers ++ [(key, val)] }
  else
    self

/-- The key of the content type. -/
def contentTypeKey : Bytes := bytes "Content-Type"

/-- `Response::set_content`: the headers with the key of the content type are erased, and a new one
is set. -/
def Response.setContent (self : Response) (s contentType : Bytes) : Response :=
  let erased : Response :=
    { headers := self.headers.filter fun header => !SameLetters header.1 contentTypeKey
      body := s }
  erased.setHeader contentTypeKey contentType

/-! ## Escapes -/

/-- What the bytes behind a percent sign stand for, and how many of them are used up. -/
def escapeOf (s : Bytes) : Option (Bytes × Nat) :=
  if s.head? = some unicodeMark then
    (fromHexToI (s.drop 1) 4).map fun val => (toUtf8 val, 5)
  else
    (fromHexToI s 2).map fun val => ([val.toUInt8], 2)

@[simp]
theorem decodeUrl_nil (convertPlusToSpace : Bool) : decodeUrl [] convertPlusToSpace = [] := rfl

theorem decodeLoop_skip (convertPlusToSpace : Bool) (skip : Nat) (s : Bytes) :
    decodeLoop convertPlusToSpace skip s = decodeUrl (s.drop skip) convertPlusToSpace := by
  induction s generalizing skip with
  | nil => cases skip <;> rfl
  | cons c s induction =>
      cases skip with
      | zero => rfl
      | succ skip => exact induction skip

/-- A percent sign is replaced together with the digits of its escape, or kept. -/
theorem decodeUrl_percent (s : Bytes) (convertPlusToSpace : Bool) :
    decodeUrl (percent :: s) convertPlusToSpace =
      match escapeOf s with
      | some (out, used) => out ++ decodeUrl (s.drop used) convertPlusToSpace
      | none => percent :: decodeUrl s convertPlusToSpace := by
  have not_plus : percent ≠ plus := by decide
  rw [decodeUrl, decodeLoop, escapeOf]
  cases s with
  | nil => simp [not_plus, fromHexToI, decodeLoop_skip]
  | cons c s =>
      rw [if_pos ⟨rfl, List.cons_ne_nil c s⟩]
      split
      · cases fromHexToI ((c :: s).drop 1) 4 <;> simp [decodeLoop_skip]
      · cases fromHexToI (c :: s) 2 <;> simp [decodeLoop_skip]

/-- Other bytes are kept one by one, except that a plus sign becomes a space. -/
theorem decodeUrl_cons {c : Byte} (ordinary : c ≠ percent) (s : Bytes) :
    decodeUrl (c :: s) true = (if c = plus then space else c) :: decodeUrl s true := by
  rw [decodeUrl, decodeLoop, if_neg (fun both => ordinary both.1)]
  by_cases is_plus : c = plus <;> simp [is_plus, decodeLoop_skip]

theorem length_toUtf8_le (code : Nat) : (toUtf8 code).length ≤ 3 := by
  unfold toUtf8
  repeat' split
  all_goals simp

theorem isHex_zero : isHex 0 = none := by decide

theorem isHex_unicodeMark : isHex unicodeMark = none := by decide

theorem isHex_percent : isHex percent = none := by decide

theorem fromHexLoop_of_no_digit {c : Byte} (no_digit : isHex c = none) (cnt val : Nat)
    (s : Bytes) : fromHexLoop (cnt + 1) (c :: s) val = none := by
  rw [fromHexLoop, no_digit]
  split <;> rfl

/-- A text begins with so many hexadecimal digits. -/
def Digits (cnt : Nat) (s : Bytes) : Prop :=
  cnt ≤ s.length ∧ ∀ c ∈ s.take cnt, (isHex c).isSome

/-- The bytes behind a percent sign begin with two digits, or with a mark and four digits. -/
def Escape (s : Bytes) : Prop :=
  Digits 2 s ∨ s.head? = some unicodeMark ∧ Digits 4 (s.drop 1)

theorem digits_succ_cons {cnt : Nat} {c : Byte} {s : Bytes} :
    Digits (cnt + 1) (c :: s) ↔ (isHex c).isSome ∧ Digits cnt s := by
  simp only [Digits, List.length_cons, Nat.add_le_add_iff_right, List.take_succ_cons,
    List.forall_mem_cons]
  exact and_left_comm

theorem isSome_fromHexLoop {cnt val : Nat} {s : Bytes} :
    (fromHexLoop cnt s val).isSome ↔ Digits cnt s := by
  induction cnt generalizing s val with
  | zero => simp [fromHexLoop, Digits]
  | succ cnt induction =>
      cases s with
      | nil => simp [fromHexLoop, Digits]
      | cons c s =>
          rw [digits_succ_cons, fromHexLoop]
          split
          · rename_i zero
            simp [zero, isHex_zero]
          · cases isHex c with
            | none => simp
            | some v => simpa using induction

theorem isSome_fromHexToI {cnt : Nat} (positive : 0 < cnt) {s : Bytes} :
    (fromHexToI s cnt).isSome ↔ Digits cnt s := by
  rw [fromHexToI]
  split
  · rename_i empty
    obtain rfl : s = [] := List.isEmpty_iff.mp empty
    simp [Digits, Nat.ne_of_gt positive]
  · exact isSome_fromHexLoop

theorem isSome_escapeOf {s : Bytes} : (escapeOf s).isSome ↔ Escape s := by
  rw [escapeOf, Escape]
  split
  · rename_i marked
    have undigested : ¬ Digits 2 s := by
      cases s with
      | nil => simp [Digits]
      | cons c s =>
          obtain rfl : c = unicodeMark := by simpa using marked
          simp [digits_succ_cons, isHex_unicodeMark]
    simp [marked, undigested, isSome_fromHexToI]
  · rename_i unmarked
    simp [unmarked, isSome_fromHexToI]

theorem ne_of_isHex {c other : Byte} {v : Nat} (digit : isHex c = some v)
    (no_digit : isHex other = none) : c ≠ other := by
  intro same
  rw [same, no_digit] at digit
  contradiction

theorem escapeOf_two_digits {high low : Byte} {first second : Nat}
    (high_eq : isHex high = some first) (low_eq : isHex low = some second) (s : Bytes) :
    escapeOf (high :: low :: s) = some ([(first * 16 + second).toUInt8], 2) := by
  have high_ne := ne_of_isHex high_eq isHex_zero
  have low_ne := ne_of_isHex low_eq isHex_zero
  have unmarked := ne_of_isHex high_eq isHex_unicodeMark
  simp [escapeOf, unmarked, fromHexToI, fromHexLoop, high_ne, low_ne, high_eq, low_eq]

/-- The two kinds of escapes, with their digits and the number of bytes they stand for. -/
theorem escapeOf_cases {s out : Bytes} {used : Nat} (escape : escapeOf s = some (out, used)) :
    (used = 2 ∧ Digits 2 s ∧ out.length ≤ 2) ∨
      (used = 5 ∧ s.head? = some unicodeMark ∧ Digits 4 (s.drop 1) ∧ out.length ≤ 5) := by
  rw [escapeOf] at escape
  split at escape
  · rename_i marked
    obtain ⟨val, read, pair_eq⟩ := Option.map_eq_some_iff.mp escape
    obtain ⟨rfl, rfl⟩ := Prod.mk.inj pair_eq
    have digits := (isSome_fromHexToI (by omega)).mp (Option.isSome_of_eq_some read)
    have short := length_toUtf8_le val
    exact Or.inr ⟨rfl, marked, digits, by omega⟩
  · obtain ⟨val, read, pair_eq⟩ := Option.map_eq_some_iff.mp escape
    obtain ⟨rfl, rfl⟩ := Prod.mk.inj pair_eq
    have digits := (isSome_fromHexToI (by omega)).mp (Option.isSome_of_eq_some read)
    exact Or.inl ⟨rfl, digits, by simp⟩

/-- An escape is there as a whole, and stands for no more bytes than are behind its sign. -/
theorem length_of_escapeOf {s out : Bytes} {used : Nat} (escape : escapeOf s = some (out, used)) :
    out.length ≤ used ∧ used ≤ s.length := by
  rcases escapeOf_cases escape with ⟨rfl, digits, short⟩ | ⟨rfl, -, digits, short⟩
  · exact ⟨short, digits.1⟩
  · have bound := digits.1
    rw [List.length_drop] at bound
    omega

/-! ## Keys and values -/

/-- The parameter that a piece of the query string gives: the first piece of it is the key, and the
last one behind it the value. -/
def pairOf (piece : Bytes) : Option (Bytes × Bytes) :=
  match split piece equals with
  | [] => none
  | key :: vals => some (decodeUrl key true, decodeUrl (vals.getLastD []) true)

theorem foldl_assignPair {key : Bytes} (key_ne : key ≠ []) (val : Bytes) (pieces : List Bytes) :
    pieces.foldl assignPair (key, val) = (key, pieces.getLastD val) := by
  induction pieces generalizing val with
  | nil => rfl
  | cons piece pieces induction =>
      have assigned : assignPair (key, val) piece = (key, piece) := by
        simp [assignPair, key_ne]
      rw [List.foldl_cons, assigned, induction, List.getLastD_cons]

theorem ne_nil_of_mem_split {s piece : Bytes} {d : Byte} (member : piece ∈ split s d) :
    piece ≠ [] := by
  simpa using (List.mem_filter.mp member).2

theorem emplacePair_eq (params : Params) (piece : Bytes) :
    emplacePair params piece = params ++ (pairOf piece).toList := by
  rw [emplacePair, pairOf]
  cases pieces_eq : split piece equals with
  | nil => simp
  | cons key vals =>
      have key_ne : key ≠ [] := ne_nil_of_mem_split (pieces_eq ▸ List.mem_cons_self)
      have first : assignPair ([], []) key = (key, []) := rfl
      simp only [List.foldl_cons, first, foldl_assignPair key_ne]
      simp [key_ne]

theorem parseQueryText_eq (s : Bytes) (params : Params) :
    parseQueryText s params = params ++ (split s ampersand).filterMap pairOf := by
  rw [parseQueryText]
  induction split s ampersand generalizing params with
  | nil => simp
  | cons piece pieces induction =>
      rw [List.foldl_cons, induction, emplacePair_eq, List.append_assoc, List.filterMap_cons]
      cases pairOf piece <;> rfl

theorem trim_of_free {s : Bytes} (free : ∀ c ∈ s, isSpaceOrTab c = false) : trim s = s := by
  have front : s.dropWhile isSpaceOrTab = s := by
    rw [List.dropWhile_eq_self_iff]
    intro nonempty blank
    have ordinary := free _ (List.getElem_mem nonempty)
    simp [ordinary] at blank
  rw [trim, front, List.rdropWhile_eq_self_iff]
  intro nonempty blank
  have ordinary := free _ (List.getLast_mem nonempty)
  simp [ordinary] at blank

/-- The first value of a key among the parameters of a request. -/
def FirstValue (params : Params) (key value : Bytes) : Prop :=
  ∃ before after, params = before ++ (key, value) :: after ∧ ∀ param ∈ before, param.1 ≠ key

theorem hasParam_eq_true_iff {params : Params} {key : Bytes} :
    hasParam params key = true ↔ ∃ param ∈ params, param.1 = key := by
  simp [hasParam]

theorem getParamValue_of_absent {params : Params} {key : Bytes}
    (absent : hasParam params key = false) : getParamValue params key = [] := by
  have nothing : params.find? (fun param => param.1 = key) = none := by
    simpa [hasParam] using absent
  rw [getParamValue, nothing]

/-- `getParamValue` finds the first value of a key that the parameters have. -/
theorem firstValue_iff {params : Params} {key value : Bytes} :
    FirstValue params key value ↔
      hasParam params key = true ∧ getParamValue params key = value := by
  constructor
  · rintro ⟨before, after, rfl, others⟩
    have passed : before.find? (fun param => param.1 = key) = none := by
      simpa using others
    refine ⟨hasParam_eq_true_iff.mpr ⟨(key, value), by simp, rfl⟩, ?_⟩
    rw [getParamValue, List.find?_append, passed]
    simp
  · intro ⟨present, value_eq⟩
    rw [getParamValue] at value_eq
    split at value_eq
    · rename_i param found
      obtain ⟨named, before, after, params_eq, others⟩ := List.find?_eq_some_iff_append.mp found
      obtain ⟨name, first⟩ := param
      obtain rfl : name = key := by simpa using named
      exact ⟨before, after, by rw [params_eq, ← value_eq], by simpa using others⟩
    · rename_i absent
      obtain ⟨param, member, named⟩ := hasParam_eq_true_iff.mp present
      exact absurd named (by simpa using List.find?_eq_none.mp absent param member)

/-! ## Keys of a query string -/

/-- A byte that no escape contains and that decoding leaves alone. -/
def inert (c : Byte) : Bool :=
  (isHex c).isNone && c ≠ percent && c ≠ plus && c ≠ unicodeMark

/-- A query string gives a key: the block that leads one of its parts, between the ampersands and
before the equals sign, is decoded to the key. -/
def GivesKey (key query : Bytes) : Prop :=
  ∃ part ∈ query.splitOn ampersand, ∃ name,
    Delimited.Leads isSpaceOrTab equals name part ∧ decodeUrl name true = key

theorem notMem_take_of_escapeOf {c : Byte} (inert_c : inert c = true) {s out : Bytes} {used : Nat}
    (escape : escapeOf s = some (out, used)) : c ∉ s.take used := by
  simp only [inert, ne_eq, Bool.and_eq_true, Option.isNone_iff_eq_none, decide_eq_true_eq]
    at inert_c
  obtain ⟨⟨⟨no_digit, -⟩, -⟩, not_mark⟩ := inert_c
  have undigested {cnt : Nat} {digits : Bytes} (all_digits : Digits cnt digits) :
      c ∉ digits.take cnt := by
    intro member
    simpa [no_digit] using all_digits.2 c member
  rcases escapeOf_cases escape with ⟨rfl, digits, -⟩ | ⟨rfl, marked, digits, -⟩
  · exact undigested digits
  · obtain ⟨rest, rfl⟩ := List.head?_eq_some_iff.mp marked
    rw [List.take_succ_cons, List.mem_cons, not_or]
    exact ⟨not_mark, undigested digits⟩

theorem mem_decodeUrl {c : Byte} (inert_c : inert c = true) {s : Bytes} (member : c ∈ s) :
    c ∈ decodeUrl s true := by
  have behind (skip : Nat) (later : c ∈ s.drop skip) : c ∈ decodeUrl (s.drop skip) true := by
    clear member
    induction s generalizing skip with
    | nil => simp at later
    | cons d s induction =>
        cases skip with
        | succ skip => exact induction skip later
        | zero =>
            rw [List.drop_zero] at later ⊢
            by_cases is_percent : d = percent
            · subst is_percent
              have not_percent : c ≠ percent := by rintro rfl; revert inert_c; decide
              have inside : c ∈ s := (List.mem_cons.mp later).resolve_left not_percent
              rw [decodeUrl_percent]
              split
              · rename_i out used escape
                rw [← List.take_append_drop used s] at inside
                have unused := (List.mem_append.mp inside).resolve_left
                  (notMem_take_of_escapeOf inert_c escape)
                exact List.mem_append_right out (induction used unused)
              · exact List.mem_cons_of_mem percent (induction 0 inside)
            · rw [decodeUrl_cons is_percent]
              rcases List.mem_cons.mp later with rfl | inside
              · have not_plus : c ≠ plus := by rintro rfl; revert inert_c; decide
                rw [if_neg not_plus]
                exact List.mem_cons_self
              · exact List.mem_cons_of_mem _ (induction 0 inside)
  exact behind 0 member

theorem inert_of_separates {c : Byte} (separates : ¬(isSpaceOrTab c = false ∧ c ≠ equals)) :
    inert c = true := by
  have cases_of : c = space ∨ c = '\t'.toUInt8 ∨ c = equals := by
    simpa [isSpaceOrTab, imp_iff_not_or, or_assoc] using separates
  rcases cases_of with rfl | rfl | rfl <;> rfl

theorem headD_split (s : Bytes) (d : Byte) :
    (split s d).headD [] = Delimited.firstPiece isSpaceOrTab d s :=
  Delimited.headD_filter_splitOn s

theorem firstPiece_trim (part : Bytes) :
    Delimited.firstPiece isSpaceOrTab equals (trim part) =
      Delimited.firstPiece isSpaceOrTab equals part :=
  Delimited.firstPiece_strip rfl part

theorem mem_split_iff {s piece : Bytes} {d : Byte} :
    piece ∈ split s d ↔ (∃ part ∈ s.splitOn d, trim part = piece) ∧ piece ≠ [] := by
  simp [split]

theorem exists_pairOf_iff {key : Bytes} (key_ne : key ≠ []) (piece : Bytes) :
    (∃ value, pairOf piece = some (key, value)) ↔
      decodeUrl (Delimited.firstPiece isSpaceOrTab equals piece) true = key := by
  rw [← headD_split, pairOf]
  cases split piece equals with
  | nil => simp [key_ne.symm]
  | cons name vals => simp

/-- A block is decoded to the key in front of a part exactly when the part gives the key. -/
theorem decodeUrl_firstPiece_iff {key : Bytes} (key_ne : key ≠ [])
    (unblank : ∀ c ∈ key, isSpaceOrTab c = false ∧ c ≠ equals) (part : Bytes) :
    decodeUrl (Delimited.firstPiece isSpaceOrTab equals part) true = key ↔
      ∃ name, Delimited.Leads isSpaceOrTab equals name part ∧ decodeUrl name true = key := by
  constructor
  · exact fun decoded => ⟨_, Delimited.leads_firstPiece part, decoded⟩
  · intro ⟨name, leads, decoded⟩
    have name_ne : name ≠ [] := by
      rintro rfl
      exact key_ne decoded.symm
    have inside (c : Byte) (member : c ∈ name) : isSpaceOrTab c = false ∧ c ≠ equals := by
      by_contra separates
      have kept := mem_decodeUrl (inert_of_separates separates) member
      exact separates (unblank c (decoded ▸ kept))
    rw [leads.firstPiece_eq rfl name_ne inside, decoded]

/-- A parameter with a key exists exactly when the query string gives the key. -/
theorem hasParam_parseQueryText_iff {key : Bytes} (key_ne : key ≠ [])
    (unblank : ∀ c ∈ key, isSpaceOrTab c = false ∧ c ≠ equals) (query : Bytes) :
    hasParam (parseQueryText query []) key = true ↔ GivesKey key query := by
  rw [parseQueryText_eq, List.nil_append, GivesKey]
  simp only [hasParam, List.any_eq_true, decide_eq_true_eq, List.mem_filterMap]
  constructor
  · rintro ⟨⟨_, value⟩, ⟨piece, member, pair⟩, rfl⟩
    obtain ⟨⟨part, part_mem, rfl⟩, -⟩ := mem_split_iff.mp member
    have decoded := (exists_pairOf_iff key_ne _).mp ⟨value, pair⟩
    rw [firstPiece_trim] at decoded
    exact ⟨part, part_mem, (decodeUrl_firstPiece_iff key_ne unblank part).mp decoded⟩
  · rintro ⟨part, part_mem, named⟩
    have decoded := (decodeUrl_firstPiece_iff key_ne unblank part).mpr named
    rw [← firstPiece_trim] at decoded
    obtain ⟨value, pair⟩ := (exists_pairOf_iff key_ne _).mpr decoded
    have trimmed_ne : trim part ≠ [] := by
      intro blank
      rw [blank] at decoded
      exact key_ne decoded.symm
    have member := mem_split_iff.mpr ⟨⟨part, part_mem, rfl⟩, trimmed_ne⟩
    exact ⟨(key, value), ⟨trim part, member, pair⟩, rfl⟩

/-! ## Contents of a response -/

/-- The second content replaces the first one, together with its type. -/
theorem setContent_setContent (response : Response) (s contentType s' contentType' : Bytes) :
    (response.setContent s contentType).setContent s' contentType' =
      response.setContent s' contentType' := by
  have same : SameLetters contentTypeKey contentTypeKey := rfl
  have erased : (response.setContent s contentType).headers.filter
      (fun header => !SameLetters header.1 contentTypeKey) =
        response.headers.filter fun header => !SameLetters header.1 contentTypeKey := by
    rw [Response.setContent, Response.setHeader]
    split <;> simp [List.filter_append, same]
  rw [Response.setContent, erased, Response.setContent]

end BoostDocSearcher.Httplib
