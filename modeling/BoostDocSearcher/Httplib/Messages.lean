import Mathlib.Data.List.Sort
import BoostDocSearcher.Httplib.Ranges
import BoostDocSearcher.Httplib.StaticFiles
import BoostDocSearcher.Library.Framing

/-!
# Messages on a connection

Requests are read line by line and header by header, and responses are written with their headers in
the order of a multimap. Headers are set and written as texts that end at a zero byte, so no value
can end its line. The end of each response is declared by its length, unless it has no body, and a
client that knows which requests have the method HEAD reads every response back, whatever follows
it.
-/

namespace BoostDocSearcher.Httplib

/-- The end of a line. -/
def crlf : Bytes := [carriageReturn, newline]

/-- The byte `':'`. -/
def colon : Byte := ':'.toUInt8

/-! ## Requests -/

/-- What can be read from a connection: some bytes, and then its end or an error. -/
structure Stream where
  /-- The bytes that arrive in time. -/
  pending : Bytes
  /-- Whether reading fails behind them. -/
  broken : Bool
  deriving DecidableEq, Repr

/-- `stream_line_reader::getline`. -/
def getline (strm : Stream) : Option (Bytes × Stream) :=
  let line := strm.pending.takeWhile (· ≠ newline)
  match strm.pending.drop line.length with
  | c :: rest => some (line ++ [c], { strm with pending := rest })
  | [] => if line.isEmpty ∨ strm.broken then none else some (line, { strm with pending := [] })

theorem getline_spec {strm rest : Stream} {line : Bytes} (read : getline strm = some (line, rest)) :
    line ≠ [] ∧ strm.pending = line ++ rest.pending ∧ rest.broken = strm.broken := by
  have whole : strm.pending.takeWhile (· ≠ newline) ++
      strm.pending.drop (strm.pending.takeWhile (· ≠ newline)).length = strm.pending :=
    List.prefix_iff_eq_append.mp (List.takeWhile_prefix _)
  rw [getline] at read
  generalize strm.pending.takeWhile (· ≠ newline) = first at read whole
  generalize strm.pending.drop first.length = behind at read whole
  cases behind with
  | cons c more =>
      obtain ⟨rfl, rfl⟩ := Prod.mk.inj (Option.some.inj read)
      exact ⟨by simp, by rw [← whole, List.append_assoc]; rfl, rfl⟩
  | nil =>
      dsimp only at read
      split at read
      · contradiction
      · rename_i proper
        obtain ⟨rfl, rfl⟩ := Prod.mk.inj (Option.some.inj read)
        exact ⟨fun empty => proper (.inl (by rw [empty]; rfl)), whole.symm, rfl⟩

theorem length_pending_lt {strm rest : Stream} {line : Bytes}
    (read : getline strm = some (line, rest)) : rest.pending.length < strm.pending.length := by
  obtain ⟨filled, pending_eq, -⟩ := getline_spec read
  have positive := List.length_pos_of_ne_nil filled
  rw [pending_eq, List.length_append]
  omega

/-- What is left of a stream is an end of it, behind which reading goes on or fails as before. -/
def Leaves (strm rest : Stream) : Prop :=
  rest.pending <:+ strm.pending ∧ rest.broken = strm.broken

theorem Leaves.refl (strm : Stream) : Leaves strm strm :=
  ⟨List.suffix_refl _, rfl⟩

theorem Leaves.trans {first second third : Stream} (before : Leaves first second)
    (behind : Leaves second third) : Leaves first third :=
  ⟨behind.1.trans before.1, behind.2.trans before.2⟩

/-- A line that is cut off is read only if the connection has ended. -/
theorem getline_unended {line : Bytes} (unended : newline ∉ line) (broken : Bool) :
    getline ⟨line, broken⟩ =
      if line.isEmpty ∨ broken then none else some (line, ⟨[], broken⟩) := by
  have whole : line.takeWhile (· ≠ newline) = line :=
    Delimited.takeWhile_ne_eq_self_iff.mpr unended
  rw [getline]
  dsimp only
  rw [whole, List.drop_length]

theorem getline_append {line : Bytes} (unbroken : newline ∉ line) (rest : Bytes) (broken : Bool) :
    getline ⟨line ++ crlf ++ rest, broken⟩ = some (line ++ crlf, ⟨rest, broken⟩) := by
  have line_eq : (line ++ crlf ++ rest).takeWhile (· ≠ newline) = line ++ [carriageReturn] := by
    have shape : line ++ crlf ++ rest = (line ++ [carriageReturn]) ++ newline :: rest := by
      simp [crlf]
    have ended : newline ∉ line ++ [carriageReturn] := by
      rw [List.mem_append, not_or]
      exact ⟨unbroken, by decide⟩
    rw [shape, List.takeWhile_append_of_pos, List.takeWhile_cons_of_neg (by simp), List.append_nil]
    intro c member
    simpa using ne_of_mem_of_not_mem member ended
  have behind :
      (line ++ crlf ++ rest).drop (line ++ [carriageReturn]).length = newline :: rest := by
    simp [crlf]
  rw [getline, line_eq]
  dsimp only
  rw [behind]
  simp [crlf]

/-- `parse_header`, on a line without its end. -/
def parseHeader (line : Bytes) : Option (Bytes × Bytes) :=
  let line := line.rdropWhile isSpaceOrTab
  let key := line.takeWhile (· ≠ colon)
  match line.drop key.length with
  | [] => none
  | _ :: val =>
      let val := val.dropWhile isSpaceOrTab
      if val.isEmpty then none else some (key, decodeUrl val false)

/-- What `read_headers` leaves behind. -/
structure ReadHeaders where
  /-- Its result. -/
  complete : Bool
  /-- The headers that were read. -/
  headers : Headers
  /-- What is left to read. -/
  rest : Stream
  deriving DecidableEq, Repr

/-- `read_headers`. -/
def readHeaders (headers : Headers) (strm : Stream) : ReadHeaders :=
  match _ : getline strm with
  | none => ⟨false, headers, { strm with pending := [] }⟩
  | some (line, rest) =>
      if crlf.isSuffixOf line then
        if line.length = 2 then
          ⟨true, headers, rest⟩
        else
          readHeaders (headers ++ (parseHeader (line.take (line.length - 2))).toList) rest
      else
        readHeaders headers rest
  termination_by strm.pending.length
  decreasing_by all_goals exact length_pending_lt ‹_›

/-- `Request::get_header_value` for the first value. -/
def getHeaderValue (headers : Headers) (key : Bytes) : Bytes :=
  match headers.find? fun header => SameLetters header.1 key with
  | some header => cString header.2
  | none => []

/-- `has_header`. -/
def hasHeader (headers : Headers) (key : Bytes) : Bool :=
  headers.any fun header => SameLetters header.1 key

/-! ## Responses -/

/-- `detail::ci`: the order of keys, in which letter case does not matter. -/
def ci : Bytes → Bytes → Bool
  | _, [] => false
  | [], _ :: _ => true
  | c :: first, d :: second =>
      if tolower c = tolower d then ci first second else tolower c < tolower d

/-- The headers in the order of a multimap: by key, and in the order of insertion for equal keys. -/
def ordered (headers : Headers) : Headers :=
  headers.insertionSort fun first second => ci second.1 first.1 = false

/-- The messages of `status_message`. -/
def statusMessages : List (Nat × String) :=
  [(100, "Continue"), (101, "Switching Protocol"), (102, "Processing"), (103, "Early Hints"),
    (200, "OK"), (201, "Created"), (202, "Accepted"), (203, "Non-Authoritative Information"),
    (204, "No Content"), (205, "Reset Content"), (206, "Partial Content"), (207, "Multi-Status"),
    (208, "Already Reported"), (226, "IM Used"), (300, "Multiple Choice"),
    (301, "Moved Permanently"), (302, "Found"), (303, "See Other"), (304, "Not Modified"),
    (305, "Use Proxy"), (306, "unused"), (307, "Temporary Redirect"),
    (308, "Permanent Redirect"), (400, "Bad Request"), (401, "Unauthorized"),
    (402, "Payment Required"), (403, "Forbidden"), (404, "Not Found"),
    (405, "Method Not Allowed"), (406, "Not Acceptable"),
    (407, "Proxy Authentication Required"), (408, "Request Timeout"), (409, "Conflict"),
    (410, "Gone"), (411, "Length Required"), (412, "Precondition Failed"),
    (413, "Payload Too Large"), (414, "URI Too Long"), (415, "Unsupported Media Type"),
    (416, "Range Not Satisfiable"), (417, "Expectation Failed"), (418, "I'm a teapot"),
    (421, "Misdirected Request"), (422, "Unprocessable Entity"), (423, "Locked"),
    (424, "Failed Dependency"), (425, "Too Early"), (426, "Upgrade Required"),
    (428, "Precondition Required"), (429, "Too Many Requests"),
    (431, "Request Header Fields Too Large"), (451, "Unavailable For Legal Reasons"),
    (501, "Not Implemented"), (502, "Bad Gateway"), (503, "Service Unavailable"),
    (504, "Gateway Timeout"), (505, "HTTP Version Not Supported"),
    (506, "Variant Also Negotiates"), (507, "Insufficient Storage"), (508, "Loop Detected"),
    (510, "Not Extended"), (511, "Network Authentication Required")]

/-- `status_message`. -/
def statusMessage (status : Nat) : Bytes :=
  bytes ((statusMessages.lookup status).getD "Internal Server Error")

/-- The key of the length of a body. -/
def contentLengthKey : Bytes := bytes "Content-Length"

/-- The first header of `write_response_core`. The timeout and the number of requests are the
constants of the library. -/
def Response.setConnection (res : Response) (closeConnection : Bool) (requestHeaders : Headers) :
    Response :=
  if closeConnection ||
      Httplib.getHeaderValue requestHeaders (bytes "Connection") = bytes "close" then
    res.setHeader (bytes "Connection") (bytes "close")
  else
    res.setHeader (bytes "Keep-Alive") (bytes "timeout=5, max=5")

/-- Set a header under a condition, unless it is there. -/
def Response.setMissing (res : Response) (condition : Bool) (key val : Bytes) : Response :=
  if !hasHeader res.headers key && condition then res.setHeader key val else res

/-- What `write_response_core` adds to the headers of a response. -/
def finishResponse (closeConnection isHead : Bool) (requestHeaders : Headers) (res : Response) :
    Response :=
  let connected := res.setConnection closeConnection requestHeaders
  let typed := connected.setMissing (!res.body.isEmpty) contentTypeKey (bytes "text/plain")
  let measured := typed.setMissing res.body.isEmpty contentLengthKey (bytes "0")
  measured.setMissing isHead (bytes "Accept-Ranges") (bytes "bytes")

/-- The line of a header, without its end. -/
def headerLine (header : Bytes × Bytes) : Bytes :=
  cString header.1 ++ bytes ": " ++ cString header.2

/-- The headers that `write_headers` writes. -/
def writtenHeaders (headers : Headers) : Headers :=
  (ordered headers).filter fun header => header.1 ≠ bytes "EXCEPTION_WHAT"

/-- The response line, without its end. -/
def responseLine (status : Nat) : Bytes :=
  bytes "HTTP/1.1 " ++ decimal status ++ bytes " " ++ statusMessage status

/-- What `write_response_core` writes. -/
def writeResponse (isHead : Bool) (status : Nat) (res : Response) : Bytes :=
  responseLine status ++ crlf ++
    (writtenHeaders res.headers).flatMap (fun header => headerLine header ++ crlf) ++ crlf ++
    (if isHead then [] else res.body)

/-! ## The client -/

/-- A message as a client reads it. -/
structure Reply where
  /-- The status. -/
  status : Nat
  /-- The headers, in the order in which they come. -/
  headers : Headers
  /-- The body. -/
  body : Bytes
  deriving DecidableEq, Repr

/-- A header line, cut at its colon and the space behind it. -/
def headerOf (line : Bytes) : Bytes × Bytes :=
  let key := line.takeWhile (· ≠ colon)
  (key, line.drop (key.length + 2))

/-- Read one message: its head up to an empty line, and as many bytes as its length declares,
unless the request or the status tells that there is no body. -/
def readMessage (isHead : Bool) (input : Bytes) : Option (Reply × Bytes) :=
  (Framing.readBlock carriageReturn newline input.length input).bind fun (lines, rest) =>
    match lines with
    | [] => none
    | statusLine :: fields =>
        let status := number ((statusLine.drop (bytes "HTTP/1.1 ").length).takeWhile isDigit)
        let headers := fields.map headerOf
        if isHead ∨ status < 200 then
          some (⟨status, headers, []⟩, rest)
        else
          let length := number (getHeaderValue headers contentLengthKey)
          if rest.length < length then
            none
          else
            some (⟨status, headers, rest.take length⟩, rest.drop length)

/-- Read the reply to a request, behind a message that only tells to go on. -/
def readReply (isHead : Bool) (input : Bytes) : Option (Reply × Bytes) :=
  (readMessage isHead input).bind fun (message, rest) =>
    if message.status < 200 then readMessage isHead rest else some (message, rest)

/-! ## Headers that a client can read -/

/-- A header whose line ends where it should, and whose key ends at its colon. -/
def CleanHeader (header : Bytes × Bytes) : Prop :=
  (∀ c ∈ header.1, c ≠ 0 ∧ c ≠ colon) ∧ Unbroken header.1 ∧ Unbroken (cString header.2)

instance (header : Bytes × Bytes) : Decidable (CleanHeader header) :=
  @instDecidableAnd _ _ (List.decidableBAll (fun c => c ≠ 0 ∧ c ≠ colon) header.1) inferInstance

/-- All headers are clean, and a declared length is the length of the body. -/
structure Sized (res : Response) : Prop where
  /-- The headers are clean. -/
  clean : ∀ header ∈ res.headers, CleanHeader header
  /-- A length is the length of the body. -/
  length_eq : ∀ header ∈ res.headers, SameLetters header.1 contentLengthKey →
    cString header.2 = decimal res.body.length

/-- A header that is set leaves a response sized, when it says nothing else about the length. -/
theorem Sized.setHeader {res : Response} (sized : Sized res) {key val : Bytes}
    (clean : CleanHeader (key, val))
    (length_eq : SameLetters key contentLengthKey → cString val = decimal res.body.length) :
    Sized (res.setHeader key val) := by
  rw [Response.setHeader]
  split
  · refine ⟨fun header member => ?_, fun header member named => ?_⟩
    · rcases List.mem_append.mp member with old | new
      · exact sized.clean header old
      · rw [List.mem_singleton.mp new]
        exact clean
    · rcases List.mem_append.mp member with old | new
      · exact sized.length_eq header old named
      · rw [List.mem_singleton.mp new] at named ⊢
        exact length_eq named
  · exact sized

theorem hasHeader_setHeader {res : Response} {key : Bytes} (other val : Bytes)
    (present : hasHeader res.headers key = true) :
    hasHeader (res.setHeader other val).headers key = true := by
  rw [Response.setHeader]
  split
  · rw [hasHeader, List.any_append, Bool.or_eq_true]
    exact .inl present
  · exact present

theorem hasHeader_setHeader_self {res : Response} {key val : Bytes}
    (clean : CleanHeader (key, val)) : hasHeader (res.setHeader key val).headers key = true := by
  have key_unbroken : hasCrlf key = false := clean.2.1.hasCrlf_eq_false
  have val_unbroken : hasCrlf val = false := by
    rw [hasCrlf, List.any_eq_false]
    intro c member
    simpa [carriageReturn] using clean.2.2 c member
  rw [Response.setHeader, key_unbroken, val_unbroken]
  exact List.any_eq_true.mpr
    ⟨(key, val), List.mem_append_right _ (List.mem_singleton_self _), decide_eq_true rfl⟩

/-- A response that can be read once its length is declared. -/
structure Ready (body : Bytes) (res : Response) : Prop where
  /-- The body. -/
  body_eq : res.body = body
  /-- The response is sized. -/
  sized : Sized res
  /-- The length of a body is declared. -/
  declared : body ≠ [] → hasHeader res.headers contentLengthKey = true

theorem Ready.setHeader {body : Bytes} {res : Response} (ready : Ready body res) {key val : Bytes}
    (clean : CleanHeader (key, val))
    (length_eq : SameLetters key contentLengthKey → cString val = decimal res.body.length) :
    Ready body (res.setHeader key val) where
  body_eq := by rw [body_setHeader, ready.body_eq]
  sized := ready.sized.setHeader clean length_eq
  declared := fun filled => hasHeader_setHeader _ _ (ready.declared filled)

theorem Ready.setMissing {body : Bytes} {res : Response} (ready : Ready body res)
    {condition : Bool} {key val : Bytes} (clean : CleanHeader (key, val))
    (length_eq : condition = true → SameLetters key contentLengthKey →
      cString val = decimal res.body.length) :
    Ready body (res.setMissing condition key val) := by
  rw [Response.setMissing]
  split
  · rename_i missing
    exact ready.setHeader clean (length_eq (Bool.and_eq_true_iff.mp missing).2)
  · exact ready

theorem hasHeader_setMissing {res : Response} {key : Bytes} (condition : Bool) (other val : Bytes)
    (present : hasHeader res.headers key = true) :
    hasHeader (res.setMissing condition other val).headers key = true := by
  rw [Response.setMissing]
  split
  · exact hasHeader_setHeader other val present
  · exact present

/-- What is added to the headers keeps a response readable, and declares its length. -/
theorem Ready.finishResponse {res : Response} (ready : Ready res.body res)
    (closeConnection isHead : Bool) (requestHeaders : Headers) :
    Ready res.body (finishResponse closeConnection isHead requestHeaders res) ∧
      hasHeader (finishResponse closeConnection isHead requestHeaders res).headers
        contentLengthKey = true := by
  rw [Httplib.finishResponse]
  have connected : Ready res.body (res.setConnection closeConnection requestHeaders) := by
    rw [Response.setConnection]
    split
    · exact ready.setHeader (by decide) fun named => absurd named (by decide)
    · exact ready.setHeader (by decide) fun named => absurd named (by decide)
  generalize res.setConnection closeConnection requestHeaders = first at connected
  have typed : Ready res.body
      (first.setMissing (!res.body.isEmpty) contentTypeKey (bytes "text/plain")) :=
    connected.setMissing (by decide) fun _ named => absurd named (by decide)
  generalize first.setMissing (!res.body.isEmpty) contentTypeKey (bytes "text/plain") = second
    at typed
  have zero_eq : res.body.isEmpty = true → cString (bytes "0") = decimal second.body.length := by
    intro empty
    rw [typed.body_eq, List.isEmpty_iff.mp empty]
    decide
  have measured : Ready res.body
      (second.setMissing res.body.isEmpty contentLengthKey (bytes "0")) :=
    typed.setMissing (by decide) fun empty _ => zero_eq empty
  have declared :
      hasHeader (second.setMissing res.body.isEmpty contentLengthKey (bytes "0")).headers
        contentLengthKey = true := by
    rcases eq_or_ne res.body [] with empty | filled
    · rw [Response.setMissing, List.isEmpty_iff.mpr empty, Bool.and_true]
      split
      · exact hasHeader_setHeader_self (by decide)
      · rename_i present
        simpa using present
    · exact measured.declared filled
  refine ⟨measured.setMissing (by decide) fun _ named => absurd named (by decide), ?_⟩
  exact hasHeader_setMissing _ _ _ declared

/-! ## Responses are read back -/

/-- A header as it is read. -/
def readHeader (header : Bytes × Bytes) : Bytes × Bytes :=
  (header.1, cString header.2)

theorem mem_of_mem_writtenHeaders {headers : Headers} {header : Bytes × Bytes}
    (member : header ∈ writtenHeaders headers) : header ∈ headers :=
  (List.perm_insertionSort _ headers).mem_iff.mp (List.mem_filter.mp member).1

theorem CleanHeader.cString_key {header : Bytes × Bytes} (clean : CleanHeader header) :
    cString header.1 = header.1 :=
  cString_eq_self fun member => (clean.1 0 member).1 rfl

theorem headerOf_headerLine {header : Bytes × Bytes} (clean : CleanHeader header) :
    headerOf (headerLine header) = readHeader header := by
  have key_free : colon ∉ header.1 := fun member => (clean.1 colon member).2 rfl
  have line_eq : headerLine header = header.1 ++ colon :: space :: cString header.2 := by
    rw [headerLine, clean.cString_key, List.append_assoc]
    rfl
  have key_eq : (header.1 ++ colon :: space :: cString header.2).takeWhile (· ≠ colon) =
      header.1 := by
    rw [List.takeWhile_append_of_pos, List.takeWhile_cons_of_neg (by simp), List.append_nil]
    intro c member
    simpa using ne_of_mem_of_not_mem member key_free
  rw [line_eq, headerOf, key_eq, List.drop_append]
  simp [readHeader]

theorem carriageReturn_notMem_headerLine {header : Bytes × Bytes} (clean : CleanHeader header) :
    headerLine header ≠ [] ∧ carriageReturn ∉ headerLine header := by
  refine ⟨by simp [headerLine, bytes], ?_⟩
  intro member
  rw [headerLine, clean.cString_key] at member
  have separator : Unbroken (bytes ": ") := by decide
  have unbroken := (clean.2.1.append separator).append clean.2.2
  exact (unbroken carriageReturn member).1 rfl

theorem carriageReturn_notMem_responseLine {status : Nat}
    (worded : Unbroken (statusMessage status)) : carriageReturn ∉ responseLine status := by
  have version : Unbroken (bytes "HTTP/1.1 ") := by decide
  have blank : Unbroken (bytes " ") := by decide
  intro member
  exact (((version.append (unbroken_decimal status)).append blank).append worded
    carriageReturn member).1 rfl

theorem readBlock_head {status : Nat} (worded : Unbroken (statusMessage status)) {headers : Headers}
    (clean : ∀ header ∈ headers, CleanHeader header) (behind : Bytes) :
    let head := Framing.writeBlock carriageReturn newline
      (responseLine status :: headers.map headerLine)
    Framing.readBlock carriageReturn newline (head ++ behind).length (head ++ behind) =
      some (responseLine status :: headers.map headerLine, behind) := by
  refine Framing.readBlock_writeBlock (fun line member => ?_) ?_ behind
  · rcases List.mem_cons.mp member with rfl | field
    · exact ⟨by simp [responseLine, bytes], carriageReturn_notMem_responseLine worded⟩
    · obtain ⟨header, header_mem, rfl⟩ := List.mem_map.mp field
      exact carriageReturn_notMem_headerLine (clean header header_mem)
  · rw [List.length_append]
    exact Nat.lt_of_lt_of_le (Framing.length_lt_writeBlock _ _ _) (Nat.le_add_right _ _)

theorem status_responseLine (status : Nat) :
    number (((responseLine status).drop (bytes "HTTP/1.1 ").length).takeWhile isDigit) =
      status := by
  have behind : (responseLine status).drop (bytes "HTTP/1.1 ").length =
      decimal status ++ (bytes " " ++ statusMessage status) := by
    rw [responseLine, List.append_assoc, List.append_assoc, List.drop_left]
  have digits : (decimal status ++ (bytes " " ++ statusMessage status)).takeWhile isDigit =
      decimal status := by
    rw [List.takeWhile_append_of_pos fun c => isDigit_of_mem_decimal]
    exact List.append_nil _
  rw [behind, digits, number_decimal]

/-- The declared length of a sized response is the length of its body. -/
theorem getHeaderValue_contentLength {res : Response} (sized : Sized res)
    (declared : hasHeader res.headers contentLengthKey = true) :
    getHeaderValue ((writtenHeaders res.headers).map readHeader) contentLengthKey =
      decimal res.body.length := by
  obtain ⟨header, member, named⟩ := List.any_eq_true.mp declared
  have written : header ∈ writtenHeaders res.headers := by
    refine List.mem_filter.mpr ⟨(List.perm_insertionSort _ _).mem_iff.mpr member, ?_⟩
    have other : header.1 ≠ bytes "EXCEPTION_WHAT" := by
      intro key_eq
      rw [key_eq] at named
      exact absurd named (by decide)
    simpa using other
  rw [getHeaderValue]
  cases found : ((writtenHeaders res.headers).map readHeader).find?
      fun header => SameLetters header.1 contentLengthKey with
  | none =>
      have absent := List.find?_eq_none.mp found (readHeader header)
        (List.mem_map_of_mem written)
      exact absurd named absent
  | some field =>
      obtain ⟨source, source_mem, rfl⟩ := List.mem_map.mp (List.mem_of_find?_eq_some found)
      have source_named := List.find?_some found
      have length_eq := sized.length_eq source (mem_of_mem_writtenHeaders source_mem)
        (of_decide_eq_true source_named)
      dsimp only [readHeader]
      rw [length_eq, cString_eq_self]
      intro zero
      exact absurd (isDigit_of_mem_decimal zero) (by decide)

/-- A response whose length is declared is read back, whatever follows it. -/
theorem readMessage_writeResponse {res : Response} (sized : Sized res)
    (declared : hasHeader res.headers contentLengthKey = true) (isHead : Bool) {status : Nat}
    (worded : Unbroken (statusMessage status)) (final : 200 ≤ status) (rest : Bytes) :
    readMessage isHead (writeResponse isHead status res ++ rest) =
      some (⟨status, (writtenHeaders res.headers).map readHeader,
        if isHead then [] else res.body⟩, rest) := by
  have clean : ∀ header ∈ writtenHeaders res.headers, CleanHeader header :=
    fun header member => sized.clean header (mem_of_mem_writtenHeaders member)
  have head := readBlock_head worded clean ((if isHead then [] else res.body) ++ rest)
  have input_eq : writeResponse isHead status res ++ rest =
      Framing.writeBlock carriageReturn newline
        (responseLine status :: (writtenHeaders res.headers).map headerLine) ++
          ((if isHead then [] else res.body) ++ rest) := by
    simp [writeResponse, Framing.writeBlock, crlf, List.flatMap_map]
  have fields : ((writtenHeaders res.headers).map headerLine).map headerOf =
      (writtenHeaders res.headers).map readHeader := by
    rw [List.map_map]
    exact List.map_congr_left fun header member => headerOf_headerLine (clean header member)
  dsimp only at head
  rw [readMessage, input_eq, head, Option.bind_some]
  dsimp only
  rw [status_responseLine, fields, getHeaderValue_contentLength sized declared, number_decimal]
  cases isHead with
  | true => simp
  | false => simp [Nat.not_lt.mpr final]

/-- What is written before a reply to tell the client to go on. -/
def interimResponse : Bytes :=
  responseLine 100 ++ crlf ++ crlf

theorem readMessage_interimResponse (isHead : Bool) (rest : Bytes) :
    readMessage isHead (interimResponse ++ rest) = some (⟨100, [], []⟩, rest) := by
  have none_clean : ∀ header ∈ ([] : Headers), CleanHeader header := by simp
  have worded : Unbroken (statusMessage 100) := by decide
  have head := readBlock_head worded none_clean rest
  have input_eq : interimResponse ++ rest =
      Framing.writeBlock carriageReturn newline [responseLine 100] ++ rest := by
    simp [interimResponse, Framing.writeBlock, crlf]
  dsimp only at head
  rw [readMessage, input_eq]
  simp only [List.map_nil] at head
  rw [head, Option.bind_some]
  dsimp only
  rw [status_responseLine, if_pos (.inr (by decide))]
  rfl

end BoostDocSearcher.Httplib
