import BoostDocSearcher.Httplib

/-!
# From the search box to the searcher

The page appends the text of the search box to an address without encoding it. The browser drops
what follows a number sign and encodes some bytes, and the server decodes the query string. What the
searcher receives is the text itself exactly when nothing in the text has a meaning of its own on
the way, and the request line is short enough to be read at all.
-/

namespace BoostDocSearcher.HttpServer

open Httplib

/-! ## The page and the browser -/

/-- The byte that begins the part of an address that is not sent. -/
def numberSign : Byte := '#'.toUInt8

/-- `Search` of the page: the address of a request for a text. -/
def searchUrl (query : Bytes) : Bytes :=
  bytes "/s?word=" ++ query

/-- A digit of a percent-encoded byte. -/
def hexDigit (n : Nat) : Byte :=
  if n < 10 then (48 + n).toUInt8 else (55 + n).toUInt8

/-- The bytes that a browser encodes: controls, the space, quotes, angle brackets and all bytes of
characters beyond ASCII. -/
def encodes (c : Byte) : Bool :=
  c < 0x20 || 0x7F ≤ c || [0x20, 0x22, 0x27, 0x3C, 0x3E].contains c

/-- A byte as the browser sends it. -/
def encodeByte (c : Byte) : Bytes :=
  if encodes c then [percent, hexDigit (c.toNat / 16), hexDigit (c.toNat % 16)] else [c]

/-- A text as the browser sends it. -/
def encode (text : Bytes) : Bytes :=
  text.flatMap encodeByte

/-- The target of the request for an address. -/
def browserTarget (url : Bytes) : Bytes :=
  encode (url.takeWhile (· ≠ numberSign))

/-- The request line for a target. -/
def requestLine (target : Bytes) : Bytes :=
  bytes "GET " ++ (target ++ bytes " HTTP/1.1\r\n")

/-! ## The server -/

/-- The key of the search text. -/
def wordKey : Bytes := bytes "word"

/-- What a handler has done so far. -/
structure Handling where
  /-- The response that is built. -/
  response : Httplib.Response := {}
  /-- The texts that the searcher was run on, in order. -/
  searched : List Bytes := []
  deriving DecidableEq, Repr

/-- Programs of a handler. -/
abbrev HandlerM (α : Type) := ExceptT Fault (StateM Handling) α

/-- `response.set_content`. -/
def setContent (body contentType : Bytes) : HandlerM Unit :=
  modify fun handling =>
    { handling with response := handling.response.setContent body contentType }

/-- `searcher.search`, with the run recorded. -/
def runSearch (search : Bytes → Result Bytes) (query : Bytes) : HandlerM Bytes := do
  modify fun handling => { handling with searched := handling.searched ++ [query] }
  liftExcept (search query)

/-- The handler of `GET /s`, statement by statement. -/
def answerSearch (search : Bytes → Result Bytes) (params : Params) : HandlerM Unit := do
  if !hasParam params wordKey then
    setContent (bytes "请输入内容后搜索") (bytes "text/plain; charset=utf-8")
  -- The branch does not return, so what follows is run for every request.
  let searchContent := getParamValue params wordKey
  let searchJsonResult ← runSearch search searchContent
  setContent searchJsonResult (bytes "application/json")

/-- What a request leads to: the texts that were searched for, and the response. -/
structure Outcome where
  /-- The texts that the searcher was run on, in order. -/
  searched : List Bytes
  /-- The response, unless the handler faults. -/
  response : Result Httplib.Response
  deriving DecidableEq, Repr

/-- Run a handler to its end. -/
def outcome (handler : HandlerM Unit) (before : Handling) : Outcome :=
  let (finished, after) := handler.run.run before
  { searched := after.searched
    response := finished.map fun _ => after.response }

/-- A fresh response with its content set. -/
def contentOf (body contentType : Bytes) : Httplib.Response where
  headers := [(contentTypeKey, contentType)]
  body := body

/-- The answer to a request without search text. -/
def prompt : Httplib.Response :=
  contentOf (bytes "请输入内容后搜索") (bytes "text/plain; charset=utf-8")

/-- The response of a search. -/
def jsonResponse (searchJsonResult : Bytes) : Httplib.Response :=
  contentOf searchJsonResult (bytes "application/json")

/-- The parameters of a request that reaches the handler of `GET /s`. -/
def route (line : Bytes) : Option Params :=
  if line.length > requestUriMaxLength then
    none
  else
    match parseRequestLine line with
    | none => none
    | some request =>
        if (request.method = bytes "GET" ∨ request.method = bytes "HEAD") ∧
            request.path = bytes "/s" then
          some request.params
        else
          none

/-- `Server::process_request`, as far as the handler of `GET /s` is concerned. -/
def processRequest (search : Bytes → Result Bytes) (line : Bytes) : Option Outcome :=
  (route line).map fun params => outcome (answerSearch search params) {}

/-- Typing a text and pressing the button: the texts that are searched for, and the response. -/
def submit (search : Bytes → Result Bytes) (query : Bytes) : Option Outcome :=
  processRequest search (requestLine (browserTarget (searchUrl query)))

/-- A text of the search box: not empty, without control characters, and without white space at its
ends. -/
structure SearchText where
  /-- The bytes of the text. -/
  text : Bytes
  /-- Something is typed. -/
  nonempty : text ≠ []
  /-- No byte is a control character. -/
  printable : ∀ c ∈ text, 0x20 ≤ c ∧ c ≠ 0x7F
  /-- The text does not begin or end with white space. -/
  trimmed : text.head? ≠ some space ∧ text.getLast? ≠ some space

/-! ## Runs of the handler -/

section Runs

variable {α : Type} {first : HandlerM α} {next : α → HandlerM Unit} {before after : Handling}

theorem outcome_bind_of_ok {value : α} (finished : first.run.run before = (.ok value, after)) :
    outcome (first >>= next) before = outcome (next value) after := by
  simp only [outcome, ExceptT.run_bind, StateT.run_bind, finished]
  rfl

theorem outcome_bind_of_error {fault : Fault}
    (stopped : first.run.run before = (.error fault, after)) :
    outcome (first >>= next) before =
      { searched := after.searched, response := .error fault } := by
  simp only [outcome, ExceptT.run_bind, StateT.run_bind, stopped]
  rfl

end Runs

theorem run_setContent (body contentType : Bytes) (before : Handling) :
    (setContent body contentType).run.run before =
      (.ok (), { before with response := before.response.setContent body contentType }) := rfl

theorem run_runSearch (search : Bytes → Result Bytes) (query : Bytes) (before : Handling) :
    (runSearch search query).run.run before =
      (search query, { before with searched := before.searched ++ [query] }) := by
  rw [runSearch]
  cases search query <;> rfl

/-- The result of a search is set as the content of the response that is there. -/
theorem outcome_results (search : Bytes → Result Bytes) (query : Bytes) (before : Handling) :
    outcome (runSearch search query >>= fun body => setContent body (bytes "application/json"))
        before =
      { searched := before.searched ++ [query]
        response := (search query).map fun body =>
          before.response.setContent body (bytes "application/json") } := by
  have searched := run_runSearch search query before
  cases result : search query with
  | error fault =>
      rw [result] at searched
      rw [outcome_bind_of_error searched]
      rfl
  | ok body =>
      rw [result] at searched
      rw [outcome_bind_of_ok searched]
      rfl

theorem setContent_fresh (body : Bytes) :
    ({} : Httplib.Response).setContent body (bytes "application/json") = jsonResponse body := rfl

/-- With or without a search text, the searcher is run once and its result is what is sent. -/
theorem outcome_answerSearch (search : Bytes → Result Bytes) (params : Params) :
    outcome (answerSearch search params) {} =
      { searched := [getParamValue params wordKey]
        response := (search (getParamValue params wordKey)).map jsonResponse } := by
  rw [answerSearch]
  cases hasParam params wordKey with
  | true => exact outcome_results search _ {}
  | false =>
      refine (outcome_bind_of_ok (run_setContent _ _ {})).trans ?_
      refine (outcome_results search _ _).trans ?_
      simp only [setContent_setContent, setContent_fresh, List.nil_append]

/-! ## Encoded bytes -/

theorem toNat_hexDigit {n : Nat} (digit : n < 16) :
    (hexDigit n).toNat = if n < 10 then 48 + n else 55 + n := by
  unfold hexDigit
  split
  · simp only [Nat.toUInt8, UInt8.toNat_ofNat']
    omega
  · simp only [Nat.toUInt8, UInt8.toNat_ofNat']
    omega

theorem encodes_eq_true_iff {c : Byte} :
    encodes c = true ↔ c.toNat < 0x20 ∨ 0x7F ≤ c.toNat ∨ c.toNat = 0x20 ∨ c.toNat = 0x22 ∨
      c.toNat = 0x27 ∨ c.toNat = 0x3C ∨ c.toNat = 0x3E := by
  simp only [encodes, Bool.or_eq_true, decide_eq_true_eq, List.contains_cons, List.contains_nil,
    Bool.or_false, beq_iff_eq, UInt8.lt_iff_toNat_lt, UInt8.le_iff_toNat_le, ← UInt8.toNat_inj,
    or_assoc]
  rfl

theorem toNat_of_mem_encode {text : Bytes} {c : Byte} (member : c ∈ encode text) :
    0x20 < c.toNat ∧ c.toNat < 0x7F := by
  obtain ⟨source, -, inside⟩ := List.mem_flatMap.mp member
  rw [encodeByte] at inside
  split at inside
  · have bound : source.toNat < 256 := source.toNat_lt
    have high := toNat_hexDigit (show source.toNat / 16 < 16 by omega)
    have low := toNat_hexDigit (show source.toNat % 16 < 16 by omega)
    have sign : percent.toNat = 37 := rfl
    simp only [List.mem_cons, List.not_mem_nil, or_false] at inside
    rcases inside with rfl | rfl | rfl
    · omega
    · rw [high]
      split <;> omega
    · rw [low]
      split <;> omega
  · rename_i kept
    rw [encodes_eq_true_iff] at kept
    obtain rfl := List.mem_singleton.mp inside
    omega

@[simp]
theorem encode_nil : encode [] = [] := rfl

theorem encode_cons (c : Byte) (text : Bytes) : encode (c :: text) = encodeByte c ++ encode text :=
  List.flatMap_cons

theorem encodeByte_of_encodes {c : Byte} (encoded : encodes c = true) :
    encodeByte c = [percent, hexDigit (c.toNat / 16), hexDigit (c.toNat % 16)] := by
  rw [encodeByte, if_pos encoded]

theorem encodeByte_of_kept {c : Byte} (kept : encodes c = false) : encodeByte c = [c] := by
  rw [encodeByte, kept]
  rfl

theorem encodeByte_ne_nil (c : Byte) : encodeByte c ≠ [] := by
  rw [encodeByte]
  split <;> simp

theorem length_encode (text : Bytes) :
    (encode text).length = text.length + 2 * text.countP encodes := by
  induction text with
  | nil => rfl
  | cons c text induction =>
      rw [encode_cons, List.length_append, induction, List.countP_cons, List.length_cons]
      cases encoded : encodes c with
      | true =>
          simp only [encodeByte_of_encodes encoded, List.length_cons, List.length_nil, if_true]
          omega
      | false =>
          simp only [encodeByte_of_kept encoded, List.length_cons, List.length_nil,
            Bool.false_eq_true, if_false]
          omega

theorem kept_of_isHex {c : Byte} (digit : (isHex c).isSome) : encodes c = false := by
  rw [Bool.eq_false_iff, ne_eq, encodes_eq_true_iff]
  have zero : '0'.toUInt8.toNat = 48 := rfl
  have nine : '9'.toUInt8.toNat = 57 := rfl
  have capitalA : 'A'.toUInt8.toNat = 65 := rfl
  have capitalF : 'F'.toUInt8.toNat = 70 := rfl
  have smallA : 'a'.toUInt8.toNat = 97 := rfl
  have smallF : 'f'.toUInt8.toNat = 102 := rfl
  simp only [isHex, UInt8.le_iff_toNat_le] at digit
  split at digit
  · omega
  · split at digit
    · omega
    · split at digit
      · omega
      · simp at digit

/-- An encoded byte is no digit, and neither is the percent sign that it is sent with. -/
theorem fromHexLoop_encode (cnt : Nat) (text : Bytes) (val : Nat) :
    fromHexLoop cnt (encode text) val = fromHexLoop cnt text val := by
  induction cnt generalizing text val with
  | zero => rw [fromHexLoop, fromHexLoop]
  | succ cnt induction =>
      cases text with
      | nil => rfl
      | cons c text =>
          cases encoded : encodes c with
          | true =>
              have no_digit : isHex c = none := by
                rw [← Option.not_isSome_iff_eq_none]
                intro digit
                rw [kept_of_isHex digit] at encoded
                contradiction
              rw [encode_cons, encodeByte_of_encodes encoded, List.cons_append,
                fromHexLoop_of_no_digit isHex_percent, fromHexLoop_of_no_digit no_digit]
          | false =>
              rw [encode_cons, encodeByte_of_kept encoded, List.singleton_append, fromHexLoop,
                fromHexLoop]
              simp only [induction]

theorem drop_encode {cnt : Nat} {text : Bytes} (digits : Digits cnt text) :
    (encode text).drop cnt = encode (text.drop cnt) := by
  induction cnt generalizing text with
  | zero => rfl
  | succ cnt induction =>
      cases text with
      | nil => rfl
      | cons c text =>
          obtain ⟨digit, rest_digits⟩ := digits_succ_cons.mp digits
          rw [encode_cons, encodeByte_of_kept (kept_of_isHex digit), List.singleton_append,
            List.drop_succ_cons, List.drop_succ_cons, induction rest_digits]

theorem encode_eq_nil_iff {text : Bytes} : encode text = [] ↔ text = [] := by
  cases text with
  | nil => simp
  | cons c text => simp [encode_cons, encodeByte_ne_nil]

theorem head?_encode_eq_mark {text : Bytes} :
    (encode text).head? = some unicodeMark ↔ text.head? = some unicodeMark := by
  cases text with
  | nil => rfl
  | cons c text =>
      have percent_ne : percent ≠ unicodeMark := by decide
      have mark_kept : encodes unicodeMark = false := by decide
      cases encoded : encodes c with
      | true =>
          have mark_ne : c ≠ unicodeMark := by
            rintro rfl
            rw [mark_kept] at encoded
            contradiction
          simp [encode_cons, encodeByte_of_encodes encoded, percent_ne, mark_ne]
      | false => simp [encode_cons, encodeByte_of_kept encoded]

theorem fromHexToI_encode (cnt : Nat) (text : Bytes) :
    fromHexToI (encode text) cnt = fromHexToI text cnt := by
  rw [fromHexToI, fromHexToI, fromHexLoop_encode]
  have empty_eq : (encode text).isEmpty = text.isEmpty := by
    rw [Bool.eq_iff_iff, List.isEmpty_iff, List.isEmpty_iff, encode_eq_nil_iff]
  rw [empty_eq]

theorem escapeOf_encode (text : Bytes) : escapeOf (encode text) = escapeOf text := by
  rw [escapeOf, escapeOf]
  simp only [head?_encode_eq_mark]
  split
  · rename_i marked
    have tail_eq : (encode text).drop 1 = encode (text.drop 1) := by
      cases text with
      | nil => rfl
      | cons c text =>
          obtain rfl : c = unicodeMark := by simpa using marked
          rfl
    rw [tail_eq, fromHexToI_encode]
  · rw [fromHexToI_encode]

theorem drop_encode_of_escapeOf {text out : Bytes} {used : Nat}
    (escape : escapeOf text = some (out, used)) :
    (encode text).drop used = encode (text.drop used) := by
  rcases escapeOf_cases escape with ⟨rfl, digits, -⟩ | ⟨rfl, marked, digits, -⟩
  · exact drop_encode digits
  · cases text with
    | nil => simp at marked
    | cons c text =>
        obtain rfl : c = unicodeMark := by simpa using marked
        have kept : (encode (unicodeMark :: text)).drop 5 = (encode text).drop 4 := rfl
        rw [kept]
        exact drop_encode digits

/-! ## Decoding what the browser encoded -/

theorem isHex_hexDigit {n : Nat} (digit : n < 16) : isHex (hexDigit n) = some n := by
  revert n
  decide

theorem decodeUrl_encodeByte {c : Byte} (encoded : encodes c = true) (s : Bytes) :
    decodeUrl (encodeByte c ++ s) true = c :: decodeUrl s true := by
  have bound : c.toNat < 256 := c.toNat_lt
  have high := isHex_hexDigit (show c.toNat / 16 < 16 by omega)
  have low := isHex_hexDigit (show c.toNat % 16 < 16 by omega)
  have value : (c.toNat / 16 * 16 + c.toNat % 16).toUInt8 = c := by
    rw [Nat.div_add_mod' c.toNat 16]
    exact UInt8.ofNat_toNat
  rw [encodeByte_of_encodes encoded, List.cons_append, decodeUrl_percent]
  simp only [List.cons_append, List.nil_append, escapeOf_two_digits high low, value,
    List.drop_succ_cons, List.drop_zero]

/-- No percent sign of a text begins an escape. -/
def NoEscape (text : Bytes) : Prop :=
  ∀ front after, text = front ++ percent :: after → ¬ Escape after

theorem noEscape_cons {c : Byte} {text : Bytes} :
    NoEscape (c :: text) ↔ (c = percent → ¬ Escape text) ∧ NoEscape text := by
  constructor
  · intro free
    refine ⟨?_, ?_⟩
    · rintro rfl
      exact free [] text rfl
    · intro front after text_eq
      exact free (c :: front) after (by rw [text_eq, List.cons_append])
  · intro ⟨head_free, tail_free⟩ front after text_eq
    cases front with
    | nil =>
        obtain ⟨rfl, rfl⟩ := List.cons.inj text_eq
        exact head_free rfl
    | cons first front =>
        obtain ⟨-, rfl⟩ := List.cons.inj text_eq
        exact tail_free front after rfl

/-- A byte that stands for itself, or a plus sign, adds one byte to the decoded text. -/
theorem decodeUrl_encode_cons {c : Byte} {text : Bytes}
    (unescaped : c = percent → ¬ Escape text) :
    decodeUrl (encode (c :: text)) true =
      (if c = plus then space else c) :: decodeUrl (encode text) true := by
  rw [encode_cons]
  cases encoded : encodes c with
  | true =>
      have not_plus : c ≠ plus := by
        rintro rfl
        exact absurd encoded (by decide)
      rw [decodeUrl_encodeByte encoded, if_neg not_plus]
  | false =>
      rw [encodeByte_of_kept encoded, List.singleton_append]
      by_cases is_percent : c = percent
      · have not_plus : c ≠ plus := by
          rw [is_percent]
          decide
        have no_escape : escapeOf (encode text) = none := by
          rw [escapeOf_encode, ← Option.not_isSome_iff_eq_none, isSome_escapeOf]
          exact unescaped is_percent
        rw [if_neg not_plus, is_percent, decodeUrl_percent, no_escape]
      · exact decodeUrl_cons is_percent _

theorem decodeUrl_encode_escape {text : Bytes} (escape : Escape text) :
    ∃ out used, out.length ≤ used ∧ used ≤ text.length ∧
      decodeUrl (encode (percent :: text)) true =
        out ++ decodeUrl (encode (text.drop used)) true := by
  obtain ⟨⟨out, used⟩, escape_eq⟩ := Option.isSome_iff_exists.mp (isSome_escapeOf.mpr escape)
  obtain ⟨short, inside⟩ := length_of_escapeOf escape_eq
  refine ⟨out, used, short, inside, ?_⟩
  have kept : encode (percent :: text) = percent :: encode text := rfl
  rw [kept, decodeUrl_percent, escapeOf_encode, escape_eq]
  simp only [drop_encode_of_escapeOf escape_eq]

theorem length_decodeUrl_encode_le (text : Bytes) :
    (decodeUrl (encode text) true).length ≤ text.length := by
  induction text using (measure List.length).wf.induction with
  | h text induction =>
      cases text with
      | nil => exact Nat.le_refl 0
      | cons c text =>
          by_cases escapes : c = percent ∧ Escape text
          · obtain ⟨rfl, escape⟩ := escapes
            obtain ⟨out, used, short, inside, decoded⟩ := decodeUrl_encode_escape escape
            have rest_lt : (text.drop used).length < (percent :: text).length := by
              rw [List.length_drop, List.length_cons]
              omega
            have rest_le := induction (text.drop used) rest_lt
            rw [List.length_drop] at rest_le
            rw [decoded, List.length_append, List.length_cons]
            omega
          · rw [decodeUrl_encode_cons fun is_percent escape => escapes ⟨is_percent, escape⟩]
            exact Nat.succ_le_succ (induction text (Nat.lt_succ_self text.length))

/-- Decoding keeps a text exactly when it has neither plus signs nor escapes. -/
theorem decodeUrl_encode_eq_iff {text : Bytes} :
    decodeUrl (encode text) true = text ↔ plus ∉ text ∧ NoEscape text := by
  induction text with
  | nil => simp [NoEscape]
  | cons c text induction =>
      rw [noEscape_cons]
      by_cases escapes : c = percent ∧ Escape text
      · obtain ⟨rfl, escape⟩ := escapes
        obtain ⟨out, used, short, inside, decoded⟩ := decodeUrl_encode_escape escape
        have shorter : (decodeUrl (encode (percent :: text)) true).length <
            (percent :: text).length := by
          have rest_le := length_decodeUrl_encode_le (text.drop used)
          rw [List.length_drop] at rest_le
          rw [decoded, List.length_append, List.length_cons]
          omega
        constructor
        · intro same
          rw [same] at shorter
          exact absurd shorter (Nat.lt_irrefl _)
        · intro ⟨_, free, _⟩
          exact absurd escape (free rfl)
      · have unescaped : c = percent → ¬ Escape text :=
          fun is_percent escape => escapes ⟨is_percent, escape⟩
        have space_ne : space ≠ plus := by decide
        have first_iff : (if c = plus then space else c) = c ↔ plus ≠ c := by
          split
          · rename_i is_plus
            simp [is_plus, space_ne]
          · rename_i not_plus
            simp [Ne.symm not_plus]
        rw [decodeUrl_encode_cons unescaped, List.cons.injEq, first_iff, induction,
          List.mem_cons, not_or, and_assoc]
        exact and_congr_right fun _ => and_congr_right fun _ =>
          (and_iff_right unescaped).symm

/-! ## The query string -/

theorem separator_notMem_encodeByte {separator : Byte}
    (is_separator : separator = ampersand ∨ separator = equals) {c : Byte} (ne : c ≠ separator) :
    separator ∉ encodeByte c := by
  have bound : c.toNat < 256 := c.toNat_lt
  have high := toNat_hexDigit (show c.toNat / 16 < 16 by omega)
  have low := toNat_hexDigit (show c.toNat % 16 < 16 by omega)
  have code : separator.toNat = 38 ∨ separator.toNat = 61 :=
    is_separator.imp (congrArg UInt8.toNat) (congrArg UInt8.toNat)
  have sign : percent.toNat = 37 := rfl
  rw [encodeByte]
  split
  · simp only [List.mem_cons, List.not_mem_nil, or_false, ← UInt8.toNat_inj, sign, high, low]
    split <;> split <;> omega
  · rw [List.mem_singleton]
    exact ne.symm

/-- The nonempty pieces of a text between separators. -/
def piecesOf (separator : Byte) (text : Bytes) : List Bytes :=
  (text.splitOn separator).filter fun piece => !piece.isEmpty

theorem split_encode {separator : Byte} (is_separator : separator = ampersand ∨ separator = equals)
    (text : Bytes) :
    Httplib.split (encode text) separator = (piecesOf separator text).map encode := by
  have kept : encodeByte separator = [separator] := by
    rcases is_separator with rfl | rfl <;> rfl
  have cut : (encode text).splitOn separator = (text.splitOn separator).map encode :=
    Delimited.splitOn_flatMap kept
      (fun _ ne => separator_notMem_encodeByte is_separator ne) text
  have untrimmed (piece : Bytes) : trim (encode piece) = encode piece := by
    apply trim_of_free
    intro c member
    have visible := toNat_of_mem_encode member
    have space_code : space.toNat = 32 := rfl
    have tab_code : '\t'.toUInt8.toNat = 9 := rfl
    simp only [isSpaceOrTab, Bool.or_eq_false_iff, decide_eq_false_iff_not, ← UInt8.toNat_inj]
    omega
  have empty_eq (piece : Bytes) : (encode piece).isEmpty = piece.isEmpty := by
    rw [Bool.eq_iff_iff, List.isEmpty_iff, List.isEmpty_iff, encode_eq_nil_iff]
  rw [Httplib.split, cut, List.map_map, piecesOf, List.filter_map]
  simp only [Function.comp_def, untrimmed, empty_eq]

/-- The value that a text gives its key: the last piece between equals signs. -/
def lastPiece (text : Bytes) : Bytes :=
  (piecesOf equals text).getLastD []

theorem lastPiece_infix (text : Bytes) :
    lastPiece text <:+: text ∧ equals ∉ lastPiece text := by
  rw [lastPiece, List.getLastD_eq_getLast?]
  cases last_eq : (piecesOf equals text).getLast? with
  | none => simp
  | some piece =>
      have member := (List.mem_filter.mp (List.mem_of_getLast? last_eq)).1
      exact Delimited.infix_of_mem_splitOn member

theorem lastPiece_of_free {text : Bytes} (free : equals ∉ text) : lastPiece text = text := by
  rw [lastPiece, piecesOf, List.splitOn_eq_singleton free]
  cases text <;> rfl

/-- The piece of the query string that the page writes gives the key a value. -/
theorem pairOf_wordKey (text : Bytes) :
    pairOf (encode (bytes "word=" ++ text)) =
      some (wordKey, decodeUrl (encode (lastPiece text)) true) := by
  have pieces_eq : piecesOf equals (bytes "word=" ++ text) = wordKey :: piecesOf equals text := by
    have joined : bytes "word=" ++ text = wordKey ++ equals :: text := rfl
    have key_whole : wordKey.splitOn equals = [wordKey] := List.splitOn_eq_singleton (by decide)
    rw [piecesOf, joined, List.splitOn_append_cons_of_beq _ _ (by simp), key_whole]
    rfl
  have key_eq : decodeUrl (encode wordKey) true = wordKey := by decide
  have last_eq : ((piecesOf equals text).map encode).getLastD [] = encode (lastPiece text) := by
    rw [lastPiece, List.getLastD_eq_getLast?, List.getLastD_eq_getLast?, List.getLast?_map]
    cases (piecesOf equals text).getLast? <;> rfl
  rw [pairOf, split_encode (Or.inr rfl), pieces_eq, List.map_cons]
  simp only [key_eq, last_eq]

/-- The search text of the page is the first value of its key, read up to the first ampersand. -/
theorem getParamValue_wordKey (text : Bytes) :
    getParamValue (parseQueryText (bytes "word=" ++ encode text) []) wordKey =
      decodeUrl (encode (lastPiece (text.takeWhile (· ≠ ampersand)))) true := by
  obtain ⟨others, cut, -⟩ := Delimited.splitOn_eq_cons ampersand text
  have sent : bytes "word=" ++ encode text = encode (bytes "word=" ++ text) := rfl
  have key_free : ampersand ∉ bytes "word=" := by decide
  have pieces_eq : piecesOf ampersand (bytes "word=" ++ text) =
      (bytes "word=" ++ text.takeWhile (· ≠ ampersand)) ::
        others.filter fun piece => !piece.isEmpty := by
    rw [piecesOf, Delimited.splitOn_append_of_free key_free, cut]
    rfl
  rw [sent, parseQueryText_eq, split_encode (Or.inl rfl), pieces_eq, List.map_cons,
    List.filterMap_cons, pairOf_wordKey]
  simp [getParamValue]

/-! ## The request line -/

theorem targetOf_append (target : Bytes) :
    targetOf (target ++ bytes " HTTP/1.1\r\n") = some target := by
  have older : (bytes " HTTP/1.0\r\n").isSuffixOf (target ++ bytes " HTTP/1.1\r\n") = false := by
    rw [List.isSuffixOf, List.reverse_append]
    rfl
  have newer : (bytes " HTTP/1.1\r\n").isSuffixOf (target ++ bytes " HTTP/1.1\r\n") = true :=
    List.isSuffixOf_iff_suffix.mpr (List.suffix_append _ _)
  have found : versions.find? (fun version => version.isSuffixOf
      (target ++ bytes " HTTP/1.1\r\n")) = some (bytes " HTTP/1.1\r\n") := by
    simp only [versions, List.map_cons, List.find?_cons, older, newer]
  rw [targetOf, found, Option.map_some, List.length_append, Nat.add_sub_cancel,
    List.take_left]

/-- A query string that a request line can carry: no byte of it ends the line or the text. -/
def Carried (query : Bytes) : Prop :=
  ∀ c ∈ query, c ≠ 0 ∧ c ≠ newline ∧ c ≠ '\r'.toUInt8

/-- The server reads the parameters of a search from the query string. -/
theorem parseRequestLine_search {query : Bytes} (carried : Carried query) :
    parseRequestLine (requestLine (bytes "/s?" ++ query)) =
      some
        { method := bytes "GET"
          path := bytes "/s"
          params := parseQueryText query [] } := by
  have zero_free : (0 : Byte) ∉ requestLine (bytes "/s?" ++ query) := by
    simp only [requestLine, List.mem_append, not_or]
    exact ⟨by decide, ⟨by decide, fun member => (carried 0 member).1 rfl⟩, by decide⟩
  have whole := Delimited.takeWhile_ne_eq_self_iff.mpr zero_free
  have method_eq : methods.find? (fun method => (method ++ [space]).isPrefixOf
      (requestLine (bytes "/s?" ++ query))) = some (bytes "GET") := rfl
  have rest_eq : (requestLine (bytes "/s?" ++ query)).drop ((bytes "GET").length + 1) =
      (bytes "/s?" ++ query) ++ bytes " HTTP/1.1\r\n" := rfl
  have path_eq : (bytes "/s?" ++ query).takeWhile (· ≠ '?'.toUInt8) = bytes "/s" := rfl
  have query_eq : ((bytes "/s?" ++ query).drop (bytes "/s").length).drop 1 = query := rfl
  have unbroken : query.any (fun c => c = newline || c = '\r'.toUInt8) = false := by
    rw [List.any_eq_false]
    intro c member
    simp [(carried c member).2]
  have params_eq : (if query.isEmpty then [] else parseQueryText query []) =
      parseQueryText query [] := by
    cases query <;> rfl
  simp only [parseRequestLine, whole, method_eq, rest_eq, targetOf_append, path_eq, query_eq,
    unbroken, params_eq, Option.bind_eq_bind, Option.bind_some]
  rfl

theorem parseRequestLine_page (text : Bytes) :
    parseRequestLine (requestLine (bytes "/s?word=" ++ encode text)) =
      some
        { method := bytes "GET"
          path := bytes "/s"
          params := parseQueryText (bytes "word=" ++ encode text) [] } := by
  have sent : bytes "word=" ++ encode text = encode (bytes "word=" ++ text) := rfl
  have carried : Carried (bytes "word=" ++ encode text) := by
    intro c member
    rw [sent] at member
    have visible := (toNat_of_mem_encode member).1
    refine ⟨?_, ?_, ?_⟩
    all_goals
      rintro rfl
      exact absurd visible (by decide)
  have address : bytes "/s?word=" ++ encode text = bytes "/s?" ++ (bytes "word=" ++ encode text) :=
    rfl
  rw [address, parseRequestLine_search carried]

theorem browserTarget_searchUrl (query : Bytes) :
    browserTarget (searchUrl query) =
      bytes "/s?word=" ++ encode (query.takeWhile (· ≠ numberSign)) := rfl

/-! ## What is searched -/

/-- A text in which no byte has a meaning of its own between the page and the searcher. -/
structure Plain (text : Bytes) : Prop where
  /-- Nothing is cut off by the browser. -/
  number_sign : numberSign ∉ text
  /-- No second parameter begins. -/
  ampersand : ampersand ∉ text
  /-- No second value begins. -/
  equals : equals ∉ text
  /-- No plus sign becomes a space. -/
  plus : plus ∉ text
  /-- No percent sign begins an escape. -/
  escape : NoEscape text

/-- Bytes of the request line for a text: the method, the path, the key and the version, and three
bytes for each encoded byte. -/
def lineLength (text : Bytes) : Nat :=
  23 + text.length + 2 * text.countP encodes

theorem length_requestLine (text : Bytes) :
    (requestLine (bytes "/s?word=" ++ encode text)).length = lineLength text := by
  have front : (bytes "GET ").length = 4 := by decide
  have path : (bytes "/s?word=").length = 8 := by decide
  have version : (bytes " HTTP/1.1\r\n").length = 11 := by decide
  rw [requestLine, List.length_append, List.length_append, List.length_append, length_encode,
    front, path, version, lineLength]
  omega

/-- The text that is searched for, if a request is let through at all. -/
theorem submit_eq (search : Bytes → Result Bytes) (query : Bytes) :
    (submit search query).map (·.searched) =
      if lineLength (query.takeWhile (· ≠ numberSign)) > requestUriMaxLength then
        none
      else
        some [decodeUrl (encode (lastPiece ((query.takeWhile (· ≠ numberSign)).takeWhile
          (· ≠ ampersand)))) true] := by
  rw [submit, processRequest, browserTarget_searchUrl, route, length_requestLine,
    parseRequestLine_page]
  split
  · rfl
  · simp only [true_or, true_and, if_true, Option.map_some, outcome_answerSearch,
      getParamValue_wordKey]

/-- A text that comes through was never cut, so that nothing in it was a separator. -/
theorem free_of_decoded {text : Bytes}
    (decoded : decodeUrl (encode (lastPiece ((text.takeWhile (· ≠ numberSign)).takeWhile
      (· ≠ ampersand)))) true = text) :
    numberSign ∉ text ∧ ampersand ∉ text ∧ equals ∉ text := by
  have sent : text.takeWhile (· ≠ numberSign) <+: text := List.takeWhile_prefix _
  have front : (text.takeWhile (· ≠ numberSign)).takeWhile (· ≠ ampersand) <+:
      text.takeWhile (· ≠ numberSign) := List.takeWhile_prefix _
  generalize first_eq :
    (text.takeWhile (· ≠ numberSign)).takeWhile (· ≠ ampersand) = first at front decoded
  obtain ⟨last_inside, last_free⟩ := lastPiece_infix first
  have length_le : text.length ≤ (lastPiece first).length := by
    have shorter := length_decodeUrl_encode_le (lastPiece first)
    rwa [decoded] at shorter
  have last_le := last_inside.length_le
  have front_le := front.length_le
  have sent_le := sent.length_le
  have sent_eq : text.takeWhile (· ≠ numberSign) = text := sent.eq_of_length_le (by omega)
  have last_eq : lastPiece first = first := last_inside.eq_of_length_le (by omega)
  have whole : first = text := (front.trans sent).eq_of_length_le (by omega)
  rw [sent_eq, whole] at first_eq
  exact ⟨Delimited.takeWhile_ne_eq_self_iff.mp sent_eq,
    Delimited.takeWhile_ne_eq_self_iff.mp first_eq, whole ▸ last_eq ▸ last_free⟩

/-- The typed text is searched exactly when it is plain and its request line is short enough. -/
theorem submit_eq_self_iff (search : Bytes → Result Bytes) (query : SearchText) :
    (submit search query.text).map (·.searched) = some [query.text] ↔
      Plain query.text ∧ lineLength query.text ≤ requestUriMaxLength := by
  obtain ⟨text, -, -, -⟩ := query
  have uncut (no_number_sign : numberSign ∉ text) :=
    Delimited.takeWhile_ne_eq_self_iff.mpr no_number_sign
  have whole (no_ampersand : ampersand ∉ text) :=
    Delimited.takeWhile_ne_eq_self_iff.mpr no_ampersand
  simp only [submit_eq]
  constructor
  · intro searched
    split at searched
    · contradiction
    · rename_i short
      obtain ⟨no_number_sign, no_ampersand, no_equals⟩ :=
        free_of_decoded (List.singleton_inj.mp (Option.some.inj searched))
      rw [uncut no_number_sign] at short
      rw [uncut no_number_sign, whole no_ampersand, lastPiece_of_free no_equals,
        Option.some.injEq, List.singleton_inj, decodeUrl_encode_eq_iff] at searched
      exact ⟨⟨no_number_sign, no_ampersand, no_equals, searched.1, searched.2⟩,
        Nat.le_of_not_lt short⟩
  · intro ⟨plain, short⟩
    rw [uncut plain.number_sign, if_neg (Nat.not_lt.mpr short), whole plain.ampersand,
      lastPiece_of_free plain.equals, decodeUrl_encode_eq_iff.mpr ⟨plain.plus, plain.escape⟩]

/-- The name of the language that the library is written in. -/
def cPlusPlus : SearchText where
  text := bytes "c++"
  nonempty := by decide
  printable := by
    have text_eq : bytes "c++" = [99, 43, 43] := by decide
    simp [text_eq]
  trimmed := by decide

/-- The plus signs of that name become spaces. -/
theorem submit_cPlusPlus :
    (submit (fun _ => .ok []) cPlusPlus.text).map (·.searched) = some [bytes "c  "] ∧
      (submit (fun _ => .ok []) cPlusPlus.text).map (·.searched) ≠ some [cPlusPlus.text] := by
  have searched :
      (submit (fun _ => .ok []) cPlusPlus.text).map (·.searched) = some [bytes "c  "] := rfl
  refine ⟨searched, ?_⟩
  rw [searched]
  decide

end BoostDocSearcher.HttpServer
