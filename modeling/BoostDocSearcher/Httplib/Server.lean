import BoostDocSearcher.Httplib.Content

/-!
# Connections of the server

A connection is kept for a number of requests. Each is answered from a file, by a handler or with an
error, and after each answer the next request is read from where the last one ended. The client
reads back exactly the answers, in their order, and requests that are written at once are answered
one after another, each as if it had come alone.

Sockets have numbers below `FD_SETSIZE`, no write to them fails, and the regular expressions of the
library find enough stack for the headers that they are matched with. On a socket with a greater
number every request is answered with an error.
-/

namespace BoostDocSearcher.Httplib

/-! ## Routing -/

/-- The response has clean headers, and leaves its length to the server. -/
def Unsized (res : Response) : Prop :=
  ∀ header ∈ res.headers, CleanHeader header ∧ ¬ SameLetters header.1 contentLengthKey

/-- A handler of a path. The regular expressions of the paths have no special characters. -/
structure Handler where
  /-- The path. -/
  pattern : Bytes
  /-- What the handler does with a fresh response. -/
  run : Params → Result Response
  /-- Responses are unsized. -/
  unsized : ∀ params res, run params = .ok res → Unsized res

/-- A server with handlers for GET only, on a file system, and how the contents of requests arrive
there. -/
structure Server where
  /-- The files. -/
  disk : Disk
  /-- `base_dirs_`. -/
  baseDirs : List MountPointEntry
  /-- `get_handlers_`. -/
  getHandlers : List Handler
  /-- How contents arrive. -/
  reception : Reception
  /-- The headers of the mount points are unsized. -/
  unsized : ∀ entry ∈ baseDirs, Unsized { headers := entry.headers }

/-- What `routing` leaves behind. -/
structure Routed where
  /-- Its result. -/
  routed : Bool
  /-- The status, if it is set. -/
  status : Option Nat
  /-- The response. -/
  response : Response

/-- `expect_content`. -/
def expectContent (method : Bytes) : Bool :=
  (["POST", "PUT", "PATCH", "PRI", "DELETE"].map bytes).contains method

/-- `Server::dispatch_request`, for handlers that do not throw. -/
def dispatchRequest (handlers : List Handler) (req : Request) : Result Routed :=
  match handlers.find? fun handler => handler.pattern = req.path with
  | some handler => (handler.run req.params).map fun res => ⟨true, none, res⟩
  | none => .ok ⟨false, none, {}⟩

namespace Server

/-- The regular handlers of `Server::routing`. -/
def dispatch (server : Server) (req : Request) : Result Routed :=
  if (["GET", "HEAD"].map bytes).contains req.method then
    dispatchRequest server.getHandlers req
  else if (["POST", "PUT", "DELETE", "OPTIONS", "PATCH"].map bytes).contains req.method then
    dispatchRequest [] req
  else
    .ok ⟨false, some 400, {}⟩

/-- `Server::routing`. -/
def routing (server : Server) (req : Request) (headers : Headers) (strm : Stream) :
    Result (Routed × Stream) :=
  let file :=
    if (["GET", "HEAD"].map bytes).contains req.method then
      handleFileRequest server.disk server.baseDirs req.path {}
    else
      none
  match file with
  | some res => .ok (⟨true, some 200, res⟩, strm)
  | none =>
      if expectContent req.method then
        match readContent server.reception req headers strm with
        | (.read, strm) => (server.dispatch req).map fun routed => (routed, strm)
        | (.badRequest, strm) => .ok (⟨false, some 400, {}⟩, strm)
        | (.unsupportedMediaType, strm) => .ok (⟨false, some 415, {}⟩, strm)
      else
        (server.dispatch req).map fun routed => (routed, strm)

end Server

/-! ## Requests on a connection -/

/-- What a request led to. -/
structure Exchange where
  /-- Whether the method is HEAD. -/
  isHead : Bool
  /-- Whether the client was told to go on. -/
  interim : Bool
  /-- The status of the response. -/
  status : Nat
  /-- The response, with all its headers. -/
  response : Response
  /-- `connection_closed`. -/
  closed : Bool
  deriving DecidableEq, Repr

/-- What is written on the connection. -/
def Exchange.written (exchange : Exchange) : Bytes :=
  (if exchange.interim then interimResponse else []) ++
    writeResponse exchange.isHead exchange.status exchange.response

/-- An answer with nothing but a status. -/
def refuse (closeConnection isHead : Bool) (headers : Headers) (closed : Bool) (status : Nat) :
    Exchange where
  isHead := isHead
  interim := false
  status := status
  response := finishResponse closeConnection isHead headers {}
  closed := closed

/-- `make_multipart_data_boundary`, with the characters that are drawn. -/
def makeMultipartDataBoundary (draws : List (Fin 62)) : Bytes :=
  bytes "--cpp-httplib-multipart-data-" ++ draws.filterMap fun draw =>
    (bytes "0123456789ABCDEFGHIJKLMNOPQRSTUVWXYZabcdefghijklmnopqrstuvwxyz")[draw.val]?

/-- The status and the response behind the routing: ranges are applied to what was routed. -/
def Routed.settle (boundary : Bytes) (ranges : List Range) (routed : Routed) : Nat × Response :=
  if routed.routed then
    let (res, unsatisfiable) := applyRanges boundary ranges routed.response
    (if unsatisfiable then 416 else routed.status.getD (if ranges.isEmpty then 200 else 206), res)
  else
    (routed.status.getD 404, routed.response)

/-- Whether the request asks to close the connection. -/
def connectionClosed (line : Bytes) (headers : Headers) : Bool :=
  let connection := getHeaderValue headers (bytes "Connection")
  connection = bytes "close" ||
    ((bytes " HTTP/1.0\r\n").isSuffixOf (cString line) && connection ≠ bytes "Keep-Alive")

/-- The ranges of a request, unless their header is wrong. -/
def requestRanges (headers : Headers) : Option (List Range) :=
  if hasHeader headers (bytes "Range") then
    parseRangeHeader (getHeaderValue headers (bytes "Range"))
  else
    some []

namespace Server

/-- `Server::process_request`, behind the headers. -/
def respond (server : Server) (draws : List (Fin 62)) (closeConnection : Bool) (line : Bytes)
    (req : Request) (headers : Headers) (strm : Stream) : Result (Exchange × Stream) :=
  let isHead : Bool := req.method = bytes "HEAD"
  let closed := connectionClosed line headers
  match requestRanges headers with
  | none => .ok (refuse closeConnection isHead headers closed 416, strm)
  | some ranges => do
      let (routed, strm) ← server.routing req headers strm
      let (status, res) := routed.settle (makeMultipartDataBoundary draws) ranges
      return (
        { isHead
          interim := getHeaderValue headers (bytes "Expect") = bytes "100-continue"
          status
          response := finishResponse closeConnection isHead headers res
          closed }, strm)

/-- `Server::process_request`, unless the connection is closed, on a socket below `FD_SETSIZE`. -/
def processRequest (server : Server) (draws : List (Fin 62)) (closeConnection : Bool)
    (strm : Stream) : Option (Result (Exchange × Stream)) :=
  (getline strm).map fun (line, strm) =>
    if line.length > requestUriMaxLength then
      .ok (refuse closeConnection false [] false 414, (readHeaders [] strm).rest)
    else
      match parseRequestLine line with
      | none => .ok (refuse closeConnection false [] false 400, strm)
      | some req =>
          let read := readHeaders [] strm
          if read.complete then
            server.respond draws closeConnection line req read.headers read.rest
          else
            .ok (refuse closeConnection (req.method = bytes "HEAD") read.headers false 400,
              read.rest)

/-- `process_server_socket_core`: the exchanges on a connection that is kept for so many
requests. -/
def serve (server : Server) (draws : Nat → List (Fin 62)) : Nat → Stream → Result (List Exchange)
  | 0, _ => .ok []
  | count + 1, strm =>
      match server.processRequest (draws count) (count = 0) strm with
      | none => .ok []
      | some (.error fault) => .error fault
      | some (.ok (exchange, strm)) =>
          if exchange.closed then
            .ok [exchange]
          else
            (serve server draws count strm).map fun exchanges => exchange :: exchanges

end Server

/-- `CPPHTTPLIB_KEEPALIVE_MAX_COUNT`. -/
def keepAliveMaxCount : Nat := 5

/-! ## Unsized responses -/

theorem unsized_fresh : Unsized {} := by
  simp [Unsized]

theorem Unsized.setHeader {res : Response} (unsized : Unsized res) {key val : Bytes}
    (clean : CleanHeader (key, val)) (other : ¬ SameLetters key contentLengthKey) :
    Unsized (res.setHeader key val) := by
  rw [Response.setHeader]
  split
  · intro header member
    rcases List.mem_append.mp member with old | new
    · exact unsized header old
    · rw [List.mem_singleton.mp new]
      exact ⟨clean, other⟩
  · exact unsized

theorem Unsized.sized {res : Response} (unsized : Unsized res) : Sized res where
  clean := fun header member => (unsized header member).1
  length_eq := fun header member named => absurd named (unsized header member).2

theorem Unsized.ready_of_empty {res : Response} (unsized : Unsized res) (empty : res.body = []) :
    Ready res.body res where
  body_eq := rfl
  sized := unsized.sized
  declared := fun filled => absurd empty filled

theorem Unsized.ready_setLength {res : Response} (unsized : Unsized res) :
    Ready res.body (res.setHeader contentLengthKey (decimal res.body.length)) := by
  have key_clean : CleanHeader (contentLengthKey, []) := by decide
  have digits : cString (decimal res.body.length) = decimal res.body.length :=
    cString_eq_self fun zero => absurd (isDigit_of_mem_decimal zero) (by decide)
  have clean : CleanHeader (contentLengthKey, decimal res.body.length) := by
    refine ⟨key_clean.1, key_clean.2.1, ?_⟩
    rw [digits]
    exact unbroken_decimal _
  exact
    { body_eq := body_setHeader _ _ _
      sized := unsized.sized.setHeader clean fun _ => digits
      declared := fun _ => hasHeader_setHeader_self clean }

theorem unbroken_cString {s : Bytes} (unbroken : Unbroken s) : Unbroken (cString s) :=
  fun c member => unbroken c ((List.takeWhile_prefix _).subset member)

/-- A header with a key of the library and an unbroken value is clean. -/
theorem cleanHeader_of_unbroken {key val : Bytes} (key_clean : CleanHeader (key, []))
    (unbroken : Unbroken val) : CleanHeader (key, val) :=
  ⟨key_clean.1, key_clean.2.1, unbroken_cString unbroken⟩

theorem unsized_multipartType {res : Response} (unsized : Unsized res) {boundary : Bytes}
    (unbroken : Unbroken boundary) (ranges : List Range) :
    Unsized (multipartType boundary ranges res).1 := by
  rw [multipartType]
  split
  · have key_clean : CleanHeader (contentTypeKey, []) := by decide
    have other : ¬ SameLetters contentTypeKey contentLengthKey := by decide
    have kind : Unbroken (bytes "multipart/byteranges; boundary=") := by decide
    intro header member
    rcases List.mem_append.mp member with old | new
    · exact unsized header (List.mem_of_mem_eraseP old)
    · rw [List.mem_singleton.mp new]
      exact ⟨cleanHeader_of_unbroken key_clean (kind.append unbroken), other⟩
  · exact unsized

theorem unsized_cutBody {res : Response} (unsized : Unsized res) (boundary contentType : Bytes)
    (ranges : List Range) : Unsized (cutBody boundary contentType ranges res).1 := by
  rcases ranges with _ | ⟨r, _ | ⟨second, more⟩⟩
  · exact unsized
  · have key_clean : CleanHeader (bytes "Content-Range", []) := by decide
    have ranged (offset length : Nat) : Unsized (res.setHeader (bytes "Content-Range")
        (makeContentRangeHeaderField offset length res.body.length)) :=
      unsized.setHeader (cleanHeader_of_unbroken key_clean
        (unbroken_makeContentRangeHeaderField _ _ _)) (by decide)
    simp only [cutBody]
    split
    · exact ranged _ _
    · exact ranged _ _
  · simp only [cutBody]
    split
    · exact unsized
    · exact unsized

/-- Ranges leave an unsized response readable, with the length of what is left of its body. -/
theorem ready_applyRanges {res : Response} (unsized : Unsized res) {boundary : Bytes}
    (unbroken : Unbroken boundary) (ranges : List Range) :
    Ready (applyRanges boundary ranges res).1.body (applyRanges boundary ranges res).1 := by
  have typed := unsized_multipartType unsized unbroken ranges
  rw [applyRanges]
  dsimp only
  split
  · rename_i empty
    exact typed.ready_of_empty (List.isEmpty_iff.mp empty)
  · have cut := unsized_cutBody typed boundary (multipartType boundary ranges res).2 ranges
    rw [body_setHeader]
    exact cut.ready_setLength

theorem unsized_handleFileRequest {server : Server} {path : Bytes} {res : Response}
    (served : handleFileRequest server.disk server.baseDirs path {} = some res) : Unsized res := by
  obtain ⟨entry, entry_mem, responded⟩ := List.exists_of_findSome?_eq_some served
  rw [MountPointEntry.respond, Option.bind_eq_bind, Option.bind_eq_some_iff] at responded
  obtain ⟨file, -, responded⟩ := responded
  rw [Option.bind_eq_some_iff] at responded
  obtain ⟨body, -, responded⟩ := responded
  obtain rfl := Option.some.inj responded
  have added (headers : Headers) (clean : Unsized { headers })
      {res : Response} (unsized : Unsized res) :
      Unsized (headers.foldl (fun res kv => res.setHeader (cString kv.1) kv.2) res) := by
    induction headers generalizing res with
    | nil => exact unsized
    | cons header headers induction =>
        obtain ⟨header_clean, other⟩ := clean header List.mem_cons_self
        refine induction (fun later member => clean later (List.mem_cons_of_mem header member)) ?_
        dsimp only
        rw [header_clean.cString_key]
        exact unsized.setHeader header_clean other
  refine added entry.headers (server.unsized entry entry_mem) ?_
  have bare : Unsized { ({} : Response) with body } := by simp [Unsized]
  cases found : findContentType file with
  | none => exact bare
  | some type =>
      have types_clean : ∀ entry ∈ contentTypes, Unbroken entry.2 := by decide
      obtain ⟨before, after, table_eq, -⟩ := List.lookup_eq_some_iff.mp found
      have member : (fileExtension file, type) ∈ contentTypes := by
        rw [table_eq]
        exact List.mem_append_right _ List.mem_cons_self
      have key_clean : CleanHeader (contentTypeKey, []) := by decide
      exact bare.setHeader (cleanHeader_of_unbroken key_clean (types_clean _ member)) (by decide)

/-! ## Every exchange can be read -/

/-- The statuses of a server. -/
def statuses : List Nat :=
  [200, 206, 400, 404, 414, 415, 416]

theorem worded_of_mem {status : Nat} (member : status ∈ statuses) :
    200 ≤ status ∧ Unbroken (statusMessage status) := by
  have worded : ∀ status ∈ statuses, 200 ≤ status ∧ Unbroken (statusMessage status) := by decide
  exact worded status member

/-- An exchange whose response can be read back. -/
structure Exchange.Readable (exchange : Exchange) : Prop where
  /-- The status is one of the server's. -/
  status_mem : exchange.status ∈ statuses
  /-- The response is sized. -/
  sized : Sized exchange.response
  /-- The length of the response is declared. -/
  declared : hasHeader exchange.response.headers contentLengthKey = true

/-- The reply that the client should read. -/
def Exchange.reply (exchange : Exchange) : Reply where
  status := exchange.status
  headers := (writtenHeaders exchange.response.headers).map readHeader
  body := if exchange.isHead then [] else exchange.response.body

theorem readReply_written {exchange : Exchange} (readable : exchange.Readable) (rest : Bytes) :
    readReply exchange.isHead (exchange.written ++ rest) = some (exchange.reply, rest) := by
  obtain ⟨final, worded⟩ := worded_of_mem readable.status_mem
  have message := readMessage_writeResponse readable.sized readable.declared exchange.isHead
    worded final rest
  rw [readReply, Exchange.written]
  cases exchange.interim with
  | false =>
      rw [if_neg Bool.false_ne_true, List.nil_append, message, Option.bind_some]
      dsimp only
      rw [if_neg (Nat.not_lt.mpr final)]
      rfl
  | true =>
      rw [if_pos rfl, List.append_assoc, readMessage_interimResponse, Option.bind_some]
      dsimp only
      rw [if_pos (by decide), message]
      rfl

theorem readable_of_ready {res : Response} (ready : Ready res.body res) {status : Nat}
    (status_mem : status ∈ statuses) (closeConnection isHead : Bool) (headers : Headers)
    (interim closed : Bool) :
    Exchange.Readable
      { isHead, interim, status, closed
        response := finishResponse closeConnection isHead headers res } where
  status_mem := status_mem
  sized := (ready.finishResponse closeConnection isHead headers).1.sized
  declared := (ready.finishResponse closeConnection isHead headers).2

theorem readable_refuse {status : Nat} (status_mem : status ∈ statuses)
    (closeConnection isHead : Bool) (headers : Headers) (closed : Bool) :
    (refuse closeConnection isHead headers closed status).Readable :=
  readable_of_ready (unsized_fresh.ready_of_empty rfl) status_mem closeConnection isHead headers
    false closed

/-- What routing may leave behind. -/
structure Routed.Proper (routed : Routed) : Prop where
  /-- The response is unsized. -/
  unsized : Unsized routed.response
  /-- A status that is set is one of the server's. -/
  status_mem : ∀ status ∈ routed.status, status ∈ statuses
  /-- Without a route the response has no body. -/
  empty : routed.routed = false → routed.response.body = []

theorem proper_unrouted (status : Option Nat) (status_mem : ∀ value ∈ status, value ∈ statuses) :
    Routed.Proper ⟨false, status, {}⟩ where
  unsized := unsized_fresh
  status_mem := status_mem
  empty := fun _ => rfl

theorem proper_dispatchRequest {handlers : List Handler} {req : Request} {routed : Routed}
    (dispatched : dispatchRequest handlers req = .ok routed) : routed.Proper := by
  rw [dispatchRequest] at dispatched
  split at dispatched
  · rename_i handler _
    cases ran : handler.run req.params with
    | error fault =>
        rw [ran] at dispatched
        contradiction
    | ok res =>
        rw [ran] at dispatched
        obtain rfl := Except.ok.inj dispatched
        exact ⟨handler.unsized _ _ ran, by simp, by simp⟩
  · obtain rfl := Except.ok.inj dispatched
    exact proper_unrouted none (by simp)

theorem proper_dispatch {server : Server} {req : Request} {routed : Routed}
    (dispatched : server.dispatch req = .ok routed) : routed.Proper := by
  rw [Server.dispatch] at dispatched
  split at dispatched
  · exact proper_dispatchRequest dispatched
  split at dispatched
  · exact proper_dispatchRequest dispatched
  · obtain rfl := Except.ok.inj dispatched
    exact proper_unrouted (some 400) (by decide)

theorem proper_routing {server : Server} {req : Request} {headers : Headers} {strm rest : Stream}
    {routed : Routed} (routed_eq : server.routing req headers strm = .ok (routed, rest)) :
    routed.Proper := by
  have dispatched {behind : Stream} (mapped :
      (server.dispatch req).map (fun routed => (routed, behind)) = .ok (routed, rest)) :
      routed.Proper := by
    cases found : server.dispatch req with
    | error fault =>
        rw [found] at mapped
        contradiction
    | ok result =>
        rw [found] at mapped
        obtain ⟨rfl, -⟩ := Prod.mk.inj (Except.ok.inj mapped)
        exact proper_dispatch found
  rw [Server.routing] at routed_eq
  split at routed_eq
  · rename_i res file
    obtain ⟨rfl, -⟩ := Prod.mk.inj (Except.ok.inj routed_eq)
    split at file
    · have fine : ∀ value ∈ some 200, value ∈ statuses := by decide
      exact ⟨unsized_handleFileRequest file, fine, by simp⟩
    · contradiction
  · split at routed_eq
    · split at routed_eq
      · exact dispatched routed_eq
      · obtain ⟨rfl, -⟩ := Prod.mk.inj (Except.ok.inj routed_eq)
        exact proper_unrouted (some 400) (by decide)
      · obtain ⟨rfl, -⟩ := Prod.mk.inj (Except.ok.inj routed_eq)
        exact proper_unrouted (some 415) (by decide)
    · exact dispatched routed_eq

theorem unbroken_makeMultipartDataBoundary (draws : List (Fin 62)) :
    Unbroken (makeMultipartDataBoundary draws) := by
  have front : Unbroken (bytes "--cpp-httplib-multipart-data-") := by decide
  have letters : Unbroken
      (bytes "0123456789ABCDEFGHIJKLMNOPQRSTUVWXYZabcdefghijklmnopqrstuvwxyz") := by decide
  refine front.append fun c member => ?_
  obtain ⟨draw, -, drawn⟩ := List.mem_filterMap.mp member
  exact letters c (List.mem_of_getElem? drawn)

/-- What is routed becomes a readable response with a status of the server. -/
theorem Routed.Proper.settle {routed : Routed} (proper : routed.Proper) {boundary : Bytes}
    (unbroken : Unbroken boundary) (ranges : List Range) :
    Ready (routed.settle boundary ranges).2.body (routed.settle boundary ranges).2 ∧
      (routed.settle boundary ranges).1 ∈ statuses := by
  have getD_mem {other : Nat} (other_mem : other ∈ statuses) :
      routed.status.getD other ∈ statuses := by
    cases set : routed.status with
    | none => exact other_mem
    | some status => exact proper.status_mem status set
  rw [Routed.settle]
  split
  · refine ⟨ready_applyRanges proper.unsized unbroken ranges, ?_⟩
    dsimp only
    split
    · decide
    · refine getD_mem ?_
      split <;> decide
  · rename_i unrouted
    exact ⟨proper.unsized.ready_of_empty (proper.empty (Bool.eq_false_iff.mpr unrouted)),
      getD_mem (by decide)⟩

theorem readable_respond {server : Server} {draws : List (Fin 62)} {closeConnection : Bool}
    {line : Bytes} {req : Request} {headers : Headers} {strm rest : Stream} {exchange : Exchange}
    (responded : server.respond draws closeConnection line req headers strm =
      .ok (exchange, rest)) : exchange.Readable := by
  rw [Server.respond] at responded
  dsimp only at responded
  split at responded
  · obtain ⟨rfl, -⟩ := Prod.mk.inj (Except.ok.inj responded)
    exact readable_refuse (by decide) _ _ _ _
  · rename_i ranges _
    cases routed_eq : server.routing req headers strm with
    | error fault =>
        rw [routed_eq] at responded
        contradiction
    | ok result =>
        obtain ⟨routed, behind⟩ := result
        have proper := proper_routing routed_eq
        rw [routed_eq] at responded
        obtain ⟨rfl, -⟩ := Prod.mk.inj (Except.ok.inj responded)
        obtain ⟨ready, status_mem⟩ := proper.settle
          (unbroken_makeMultipartDataBoundary draws) ranges
        exact readable_of_ready ready status_mem _ _ _ _ _

theorem readable_processRequest {server : Server} {draws : List (Fin 62)} {closeConnection : Bool}
    {strm rest : Stream} {exchange : Exchange}
    (processed : server.processRequest draws closeConnection strm = some (.ok (exchange, rest))) :
    exchange.Readable := by
  obtain ⟨⟨line, behind⟩, -, processed⟩ := Option.map_eq_some_iff.mp processed
  dsimp only at processed
  split at processed
  · obtain ⟨rfl, -⟩ := Prod.mk.inj (Except.ok.inj processed)
    exact readable_refuse (by decide) _ _ _ _
  split at processed
  · obtain ⟨rfl, -⟩ := Prod.mk.inj (Except.ok.inj processed)
    exact readable_refuse (by decide) _ _ _ _
  · split at processed
    · exact readable_respond processed
    · obtain ⟨rfl, -⟩ := Prod.mk.inj (Except.ok.inj processed)
      exact readable_refuse (by decide) _ _ _ _

/-- Every exchange of a connection is readable. -/
theorem readable_serve {server : Server} {draws : Nat → List (Fin 62)} {count : Nat}
    {strm : Stream} {exchanges : List Exchange}
    (served : server.serve draws count strm = .ok exchanges) :
    ∀ exchange ∈ exchanges, exchange.Readable := by
  induction count generalizing strm exchanges with
  | zero =>
      obtain rfl := Except.ok.inj served
      simp
  | succ count induction =>
      rw [Server.serve] at served
      split at served
      · obtain rfl := Except.ok.inj served
        simp
      · contradiction
      · rename_i first rest processed
        have first_readable := readable_processRequest processed
        split at served
        · obtain rfl := Except.ok.inj served
          simpa using first_readable
        · cases later : server.serve draws count rest with
          | error fault =>
              rw [later] at served
              contradiction
          | ok others =>
              rw [later] at served
              obtain rfl := Except.ok.inj served
              intro exchange member
              rcases List.mem_cons.mp member with rfl | other
              · exact first_readable
              · exact induction later exchange other

theorem readMany_written {exchanges : List Exchange}
    (readable : ∀ exchange ∈ exchanges, exchange.Readable) :
    Framing.readMany readReply (exchanges.map Exchange.isHead)
        (exchanges.flatMap Exchange.written) =
      some (exchanges.map Exchange.reply, []) := by
  have read := Framing.readMany_flatMap
    (fun exchange member => readReply_written (readable exchange member)) []
  rwa [List.append_nil] at read

namespace Server

/-- No handler fails. -/
def Total (server : Server) : Prop :=
  ∀ handler ∈ server.getHandlers, ∀ params, ∃ res, handler.run params = .ok res

variable {server : Server}

theorem Total.exists_dispatch (total : server.Total) (req : Request) :
    ∃ routed, server.dispatch req = .ok routed := by
  rw [dispatch]
  split
  · rw [dispatchRequest]
    split
    · rename_i handler found
      obtain ⟨res, ran⟩ := total handler (List.mem_of_find?_eq_some found) req.params
      exact ⟨_, by rw [ran]; rfl⟩
    · exact ⟨_, rfl⟩
  · split
    · exact ⟨_, rfl⟩
    · exact ⟨_, rfl⟩

theorem Total.exists_routing (total : server.Total) (req : Request) (headers : Headers)
    (strm : Stream) : ∃ result, server.routing req headers strm = .ok result := by
  obtain ⟨routed, dispatched⟩ := total.exists_dispatch req
  simp only [routing, dispatched]
  split
  · exact ⟨_, rfl⟩
  · split
    · split
      · exact ⟨_, rfl⟩
      · exact ⟨_, rfl⟩
      · exact ⟨_, rfl⟩
    · exact ⟨_, rfl⟩

/-- A request that is refused whatever it asks for, and the status of its answer. -/
inductive Refused (strm : Stream) : Nat → Prop where
  /-- The request line is too long. -/
  | uriTooLong {line : Bytes} {rest : Stream} : getline strm = some (line, rest) →
      requestUriMaxLength < line.length → Refused strm 414
  /-- The request line is none. -/
  | badLine {line : Bytes} {rest : Stream} : getline strm = some (line, rest) →
      line.length ≤ requestUriMaxLength → parseRequestLine line = none → Refused strm 400
  /-- The headers do not end. -/
  | cutHeaders {line : Bytes} {rest : Stream} {req : Request} :
      getline strm = some (line, rest) → line.length ≤ requestUriMaxLength →
      parseRequestLine line = some req → (readHeaders [] rest).complete = false →
      Refused strm 400
  /-- The header of the ranges is wrong. -/
  | badRange {line : Bytes} {rest : Stream} {req : Request} :
      getline strm = some (line, rest) → line.length ≤ requestUriMaxLength →
      parseRequestLine line = some req → (readHeaders [] rest).complete = true →
      requestRanges (readHeaders [] rest).headers = none → Refused strm 416

/-- A turn of the loop over the requests of a connection. -/
structure Turn (server : Server) (draws : List (Fin 62)) (closeConnection : Bool) (strm : Stream)
    (exchange : Exchange) (rest : Stream) : Prop where
  /-- The exchange is the answer to what comes first. -/
  processed : server.processRequest draws closeConnection strm = some (.ok (exchange, rest))
  /-- A request that is no proper one is refused. -/
  refused : ∀ status, Refused strm status → exchange.status = status
  /-- The bytes of the request are taken off the stream. -/
  leaves : Leaves strm rest
  /-- They are at least one. -/
  shorter : rest.pending.length < strm.pending.length

/-- The first check of `process_request` that a request fails gives the status. -/
theorem Refused.status_eq {draws : List (Fin 62)} {closeConnection : Bool} {strm rest : Stream}
    {exchange : Exchange} {status : Nat} (refused : Refused strm status)
    (processed : server.processRequest draws closeConnection strm = some (.ok (exchange, rest))) :
    exchange.status = status := by
  rw [processRequest] at processed
  cases refused with
  | uriTooLong read long =>
      rw [read, Option.map_some] at processed
      dsimp only at processed
      rw [if_pos long] at processed
      obtain ⟨rfl, -⟩ := Prod.mk.inj (Except.ok.inj (Option.some.inj processed))
      rfl
  | badLine read short unparsed =>
      rw [read, Option.map_some] at processed
      dsimp only at processed
      rw [if_neg (Nat.not_lt.mpr short), unparsed] at processed
      obtain ⟨rfl, -⟩ := Prod.mk.inj (Except.ok.inj (Option.some.inj processed))
      rfl
  | cutHeaders read short parsed cut =>
      rw [read, Option.map_some] at processed
      dsimp only at processed
      rw [if_neg (Nat.not_lt.mpr short), parsed] at processed
      dsimp only at processed
      rw [if_neg (by rw [cut]; exact Bool.false_ne_true)] at processed
      obtain ⟨rfl, -⟩ := Prod.mk.inj (Except.ok.inj (Option.some.inj processed))
      rfl
  | badRange read short parsed whole wrong =>
      rw [read, Option.map_some] at processed
      dsimp only at processed
      rw [if_neg (Nat.not_lt.mpr short), parsed] at processed
      dsimp only at processed
      rw [if_pos whole, respond] at processed
      dsimp only at processed
      rw [wrong] at processed
      obtain ⟨rfl, -⟩ := Prod.mk.inj (Except.ok.inj (Option.some.inj processed))
      rfl

/-- A connection that is served to its end: the exchanges, and what is left of the stream. Requests
are taken off the stream one behind the other until their number is used up, one of them asks to
close the connection, or nothing of another one arrives. -/
inductive Served (server : Server) (draws : Nat → List (Fin 62)) :
    Nat → Stream → List Exchange → Stream → Prop where
  /-- The number of requests is used up. -/
  | usedUp (strm : Stream) : Served server draws 0 strm [] strm
  /-- Nothing of a request arrives. -/
  | ended {count : Nat} {strm : Stream} :
      newline ∉ strm.pending → strm.pending = [] ∨ strm.broken = true →
      Served server draws (count + 1) strm [] strm
  /-- The last request asks to close the connection. -/
  | closed {count : Nat} {strm rest : Stream} {exchange : Exchange} :
      Turn server (draws count) (count = 0) strm exchange rest → exchange.closed = true →
      Served server draws (count + 1) strm [exchange] rest
  /-- The connection is kept for the next request. -/
  | kept {count : Nat} {strm rest left : Stream} {exchange : Exchange}
      {exchanges : List Exchange} :
      Turn server (draws count) (count = 0) strm exchange rest → exchange.closed = false →
      Served server draws count rest exchanges left →
      Served server draws (count + 1) strm (exchange :: exchanges) left

theorem Served.length_le {draws : Nat → List (Fin 62)} {count : Nat} {strm left : Stream}
    {exchanges : List Exchange} (served : Served server draws count strm exchanges left) :
    exchanges.length ≤ count := by
  induction served with
  | usedUp => exact le_rfl
  | ended => exact Nat.zero_le _
  | closed => exact Nat.succ_le_succ (Nat.zero_le _)
  | kept _ _ _ induction => exact Nat.succ_le_succ induction

end Server

/-! ## Requests that are written one after another -/

/-- A request as a client writes it, up to its content. -/
structure WireHead where
  /-- The request line, without its end. -/
  line : Bytes
  /-- The lines of the headers, without their ends. -/
  fields : List Bytes
  /-- What the request line says. -/
  request : Request
  /-- The request line is one line. -/
  unbroken : newline ∉ line
  /-- The request line is short enough. -/
  short : (line ++ crlf).length ≤ requestUriMaxLength
  /-- The request line is proper. -/
  parsed : parseRequestLine (line ++ crlf) = some request
  /-- The lines of the headers are lines, and do not end the headers. -/
  proper : ∀ field ∈ fields, newline ∉ field ∧ field ≠ []

namespace WireHead

/-- What is written up to the content. -/
def text (head : WireHead) : Bytes :=
  (head.line ++ crlf) ++ (head.fields.flatMap (· ++ crlf) ++ crlf)

/-- The headers of a request. -/
def headers (head : WireHead) : Headers :=
  head.fields.filterMap parseHeader

end WireHead

/-- The server answers without reading the content: the header of the ranges is wrong, the content
is compressed, or a DELETE does not say its length. -/
def leavesContent (req : Request) (headers : Headers) : Bool :=
  (requestRanges headers).isNone ||
    (req.method = bytes "DELETE" && !hasHeader headers contentLengthKey) || isCompressed headers

/-- The content of a request ends where the server takes it to end. No content that the server
leaves is of this kind, nor is one behind a method without contents, one without a declaration, or a
form of several parts. -/
inductive Framed (req : Request) (headers : Headers) : Bytes → Prop where
  /-- Nothing is sent behind the headers, and nothing is expected there. -/
  | nothing : expectContent req.method = false → Framed req headers []
  /-- Nothing is sent behind the headers, and the server answers without reading there. -/
  | unread : expectContent req.method = true → isMultipartFormData headers = false →
      leavesContent req headers = true → Framed req headers []
  /-- A content is declared, and read. -/
  | declared {text content : Bytes} : expectContent req.method = true →
      Declared headers text content → isMultipartFormData headers = false →
      leavesContent req headers = false → Framed req headers text

theorem Framed.eq_nil {req : Request} {headers : Headers} {text : Bytes}
    (framed : Framed req headers text) (refused : requestRanges headers = none) : text = [] := by
  cases framed with
  | nothing => rfl
  | unread => rfl
  | declared _ _ _ read =>
      rw [leavesContent, refused] at read
      contradiction

/-- A request as a client writes it. -/
structure WireRequest extends WireHead where
  /-- The bytes behind the headers. -/
  content : Bytes
  /-- The content ends where the server takes it to end. -/
  framed : Framed request toWireHead.headers content

/-- What is written for a request. -/
def WireRequest.text (wire : WireRequest) : Bytes :=
  wire.toWireHead.text ++ wire.content

/-- A line that ends as it should is a header, or the end of the headers. -/
theorem readHeaders_cons {headers : Headers} {strm rest : Stream} {line : Bytes}
    (read : getline strm = some (line ++ crlf, rest)) :
    readHeaders headers strm =
      if line = [] then
        ⟨true, headers, rest⟩
      else
        readHeaders (headers ++ (parseHeader line).toList) rest := by
  have suffix : crlf.isSuffixOf (line ++ crlf) = true :=
    List.isSuffixOf_iff_suffix.mpr (List.suffix_append _ _)
  have ended : (line ++ crlf).length = 2 ↔ line = [] := by
    rw [List.length_append, ← List.length_eq_zero_iff]
    change line.length + 2 = 2 ↔ _
    omega
  have shortened : (line ++ crlf).take ((line ++ crlf).length - 2) = line := by
    rw [List.length_append]
    exact List.take_left
  rw [readHeaders]
  split
  · rename_i none_read
    rw [read] at none_read
    contradiction
  · rename_i line' rest' some_read
    rw [read] at some_read
    obtain ⟨rfl, rfl⟩ := Prod.mk.inj (Option.some.inj some_read)
    rw [if_pos suffix, shortened]
    exact if_congr ended rfl rfl

theorem readHeaders_fields {fields : List Bytes}
    (proper : ∀ field ∈ fields, newline ∉ field ∧ field ≠ []) (headers : Headers) (rest : Bytes)
    (broken : Bool) :
    readHeaders headers ⟨fields.flatMap (· ++ crlf) ++ crlf ++ rest, broken⟩ =
      ⟨true, headers ++ fields.filterMap parseHeader, ⟨rest, broken⟩⟩ := by
  induction fields generalizing headers with
  | nil =>
      have read : getline ⟨[] ++ crlf ++ rest, broken⟩ = some ([] ++ crlf, ⟨rest, broken⟩) :=
        getline_append List.not_mem_nil rest broken
      rw [List.flatMap_nil, readHeaders_cons read, if_pos rfl, List.filterMap_nil, List.append_nil]
  | cons field fields induction =>
      obtain ⟨unbroken, nonempty⟩ := proper field List.mem_cons_self
      have read := getline_append unbroken (fields.flatMap (· ++ crlf) ++ crlf ++ rest) broken
      have later := induction (fun other member => proper other (List.mem_cons_of_mem field member))
        (headers ++ (parseHeader field).toList)
      rw [List.flatMap_cons, List.append_assoc, List.append_assoc, ← List.append_assoc _ crlf rest,
        readHeaders_cons read, if_neg nonempty, later, List.append_assoc]
      cases found : parseHeader field with
      | none => rw [List.filterMap_cons_none found]; rfl
      | some header => rw [List.filterMap_cons_some found]; rfl

namespace Server

/-- The answer to a request, as if it came alone. -/
def answer (server : Server) (draws : List (Fin 62)) (closeConnection : Bool) (wire : WireRequest) :
    Result Exchange :=
  (server.respond draws closeConnection (wire.line ++ crlf) wire.request wire.headers
    ⟨wire.content, false⟩).map Prod.fst

/-- Every request is answered, and closes the connection as it says. -/
theorem Total.exists_answer {server : Server} (total : server.Total) (draws : List (Fin 62))
    (closeConnection : Bool) (wire : WireRequest) :
    ∃ exchange, server.answer draws closeConnection wire = .ok exchange ∧
      exchange.isHead = decide (wire.request.method = bytes "HEAD") ∧
      exchange.closed = connectionClosed (wire.line ++ crlf) wire.headers := by
  obtain ⟨result, routed⟩ := total.exists_routing wire.request wire.headers ⟨wire.content, false⟩
  rw [answer, respond]
  cases requestRanges wire.headers with
  | none => exact ⟨_, rfl, rfl, rfl⟩
  | some ranges => exact ⟨_, by dsimp only; rw [routed]; rfl, rfl, rfl⟩

/-- The answers to requests, up to the last one for which the connection is kept. -/
def answers (server : Server) (draws : Nat → List (Fin 62)) :
    Nat → List WireRequest → Result (List Exchange)
  | 0, _ => .ok []
  | _ + 1, [] => .ok []
  | count + 1, wire :: wires =>
      match server.answer (draws count) (count = 0) wire with
      | .error fault => .error fault
      | .ok exchange =>
          if exchange.closed then
            .ok [exchange]
          else
            (answers server draws count wires).map fun exchanges => exchange :: exchanges

theorem unfetched_of_expectContent {method : Bytes} (expected : expectContent method = true) :
    (["GET", "HEAD"].map bytes).contains method = false := by
  have apart : ∀ method ∈ ["POST", "PUT", "PATCH", "PRI", "DELETE"].map bytes,
      (["GET", "HEAD"].map bytes).contains method = false := by decide
  exact apart method (List.contains_iff_mem.mp expected)

theorem readContent_append (reception : Reception) {req : Request} {headers : Headers}
    {text content : Bytes} (declared : Declared headers text content)
    (single : isMultipartFormData headers = false) (read : leavesContent req headers = false)
    (rest : Bytes) (broken : Bool) :
    readContent reception req headers ⟨text ++ rest, broken⟩ = (.read, ⟨rest, broken⟩) := by
  rw [leavesContent, Bool.or_eq_false_iff, Bool.or_eq_false_iff] at read
  obtain ⟨⟨-, sized⟩, plain⟩ := read
  have expected : ¬ (req.method = bytes "DELETE" ∧
      (!hasHeader headers contentLengthKey) = true) := by
    simpa using sized
  rw [readContent, single, if_neg Bool.false_ne_true, if_neg expected, plain,
    if_neg Bool.false_ne_true, readBody_append reception.arrive declared]
  rfl

theorem readContent_of_left (reception : Reception) {req : Request} {headers : Headers}
    (single : isMultipartFormData headers = false)
    (left : ((req.method = bytes "DELETE" && !hasHeader headers contentLengthKey) ||
      isCompressed headers) = true) :
    ∃ result, ∀ strm, readContent reception req headers strm = (result, strm) := by
  by_cases unsized : req.method = bytes "DELETE" ∧ (!hasHeader headers contentLengthKey) = true
  · refine ⟨.read, fun strm => ?_⟩
    rw [readContent, single, if_neg Bool.false_ne_true, if_pos unsized]
  · have compressed : isCompressed headers = true := by
      rw [Bool.or_eq_true, Bool.and_eq_true, decide_eq_true_eq] at left
      exact left.resolve_left unsized
    refine ⟨.unsupportedMediaType, fun strm => ?_⟩
    rw [readContent, single, if_neg Bool.false_ne_true, if_neg unsized, if_pos compressed]

theorem routing_append (server : Server) {req : Request} {headers : Headers} {text : Bytes}
    (framed : Framed req headers text) (ranged : (requestRanges headers).isNone = false)
    (rest : Bytes) (broken : Bool) :
    server.routing req headers ⟨text ++ rest, broken⟩ =
      (server.routing req headers ⟨text, false⟩).map fun (routed, _) =>
        (routed, ⟨rest, broken⟩) := by
  cases framed with
  | nothing unexpected =>
      simp only [routing, unexpected, Bool.false_eq_true, if_false, List.nil_append]
      split
      · rfl
      · cases server.dispatch req <;> rfl
  | unread expected single left =>
      rw [leavesContent, ranged, Bool.false_or] at left
      obtain ⟨result, unread⟩ := readContent_of_left server.reception single left
      simp only [routing, unfetched_of_expectContent expected, expected, Bool.false_eq_true,
        if_false, if_true, unread, List.nil_append]
      cases result with
      | read => cases server.dispatch req <;> rfl
      | badRequest => rfl
      | unsupportedMediaType => rfl
  | declared expected declared single read =>
      have whole := readContent_append server.reception declared single read
      have alone := whole [] false
      rw [List.append_nil] at alone
      simp only [routing, unfetched_of_expectContent expected, expected, Bool.false_eq_true,
        if_false, if_true, whole rest broken, alone]
      cases server.dispatch req <;> rfl

theorem respond_append (server : Server) (draws : List (Fin 62)) (closeConnection : Bool)
    (wire : WireRequest) (rest : Bytes) (broken : Bool) :
    server.respond draws closeConnection (wire.line ++ crlf) wire.request wire.headers
        ⟨wire.content ++ rest, broken⟩ =
      (server.answer draws closeConnection wire).map fun exchange =>
        (exchange, ⟨rest, broken⟩) := by
  rw [answer, respond, respond]
  dsimp only
  cases ranges_eq : requestRanges wire.headers with
  | none =>
      rw [wire.framed.eq_nil ranges_eq]
      rfl
  | some ranges =>
      dsimp only
      rw [server.routing_append wire.framed (by rw [ranges_eq]; rfl) rest broken]
      cases server.routing wire.request wire.headers ⟨wire.content, false⟩ <;> rfl

theorem processRequest_head (server : Server) (draws : List (Fin 62)) (closeConnection : Bool)
    (head : WireHead) (rest : Bytes) (broken : Bool) :
    server.processRequest draws closeConnection ⟨head.text ++ rest, broken⟩ =
      some (server.respond draws closeConnection (head.line ++ crlf) head.request head.headers
        ⟨rest, broken⟩) := by
  have read := getline_append head.unbroken
    (head.fields.flatMap (· ++ crlf) ++ crlf ++ rest) broken
  have headers_eq := readHeaders_fields head.proper [] rest broken
  rw [List.nil_append] at headers_eq
  rw [processRequest, WireHead.text, List.append_assoc, read, Option.map_some]
  dsimp only
  rw [if_neg (Nat.not_lt.mpr head.short), head.parsed]
  dsimp only
  rw [headers_eq, if_pos rfl]
  rfl

/-- A request is read to its end and answered, whatever follows it. -/
theorem processRequest_text (server : Server) (draws : List (Fin 62)) (closeConnection : Bool)
    (wire : WireRequest) (rest : Bytes) (broken : Bool) :
    server.processRequest draws closeConnection ⟨wire.text ++ rest, broken⟩ =
      some ((server.answer draws closeConnection wire).map fun exchange =>
        (exchange, ⟨rest, broken⟩)) := by
  rw [WireRequest.text, List.append_assoc, processRequest_head]
  exact congrArg some (respond_append server draws closeConnection wire rest broken)

/-- Requests that are written one after another are answered one after another, each from its own
bytes only, when their contents end where the server takes them to end. -/
theorem serve_requests (server : Server) (draws : Nat → List (Fin 62)) (count : Nat)
    (wires : List WireRequest) (broken : Bool) :
    server.serve draws count ⟨wires.flatMap WireRequest.text, broken⟩ =
      server.answers draws count wires := by
  induction count generalizing wires with
  | zero => rfl
  | succ count induction =>
      cases wires with
      | nil => rfl
      | cons wire wires =>
          rw [serve, List.flatMap_cons, processRequest_text, answers]
          cases server.answer (draws count) (count = 0) wire with
          | error fault => rfl
          | ok exchange =>
              change (if exchange.closed then _ else _) = _
              rw [induction]

/-! ## Contents that are left -/

theorem exists_dispatch_of_expected (server : Server) {req : Request}
    (expected : expectContent req.method = true) :
    ∃ routed, server.dispatch req = .ok routed := by
  rw [dispatch, unfetched_of_expectContent expected, if_neg Bool.false_ne_true]
  split
  · exact ⟨_, rfl⟩
  · exact ⟨_, rfl⟩

theorem exists_respond_of_expected (server : Server) (draws : List (Fin 62))
    (closeConnection : Bool) (line : Bytes) {req : Request} (headers : Headers)
    (expected : expectContent req.method = true) (strm : Stream) :
    ∃ exchange, server.respond draws closeConnection line req headers strm =
      .ok (exchange, if (requestRanges headers).isNone then strm
        else (readContent server.reception req headers strm).2) := by
  obtain ⟨routed, dispatched⟩ := server.exists_dispatch_of_expected expected
  have routed_eq : ∃ routed, server.routing req headers strm =
      .ok (routed, (readContent server.reception req headers strm).2) := by
    simp only [routing, unfetched_of_expectContent expected, expected, dispatched,
      Bool.false_eq_true, if_false, if_true]
    obtain ⟨result, rest⟩ := readContent server.reception req headers strm
    cases result with
    | read => exact ⟨_, rfl⟩
    | badRequest => exact ⟨_, rfl⟩
    | unsupportedMediaType => exact ⟨_, rfl⟩
  obtain ⟨routed, routed_eq⟩ := routed_eq
  rw [respond]
  cases requestRanges headers with
  | none => exact ⟨_, rfl⟩
  | some ranges => exact ⟨_, by dsimp only; rw [routed_eq]; rfl⟩

/-- What is left behind a request: what follows its content, unless the server answers without
reading the content. Then the content is taken to be the next request. A content in chunks is one
that `writeContentChunked` writes, without trailers. -/
theorem processRequest_declared (server : Server) (draws : List (Fin 62)) (closeConnection : Bool)
    (head : WireHead) {text content : Bytes}
    (expected : expectContent head.request.method = true)
    (declared : Declared head.headers text content)
    (single : isMultipartFormData head.headers = false) (rest : Bytes) (broken : Bool) :
    ∃ exchange,
      server.processRequest draws closeConnection ⟨head.text ++ (text ++ rest), broken⟩ =
        some (.ok (exchange,
          ⟨if leavesContent head.request head.headers then text ++ rest else rest, broken⟩)) := by
  obtain ⟨exchange, responded⟩ := server.exists_respond_of_expected draws closeConnection
    (head.line ++ crlf) head.headers expected ⟨text ++ rest, broken⟩
  refine ⟨exchange, ?_⟩
  rw [processRequest_head, responded]
  congr 3
  cases left : leavesContent head.request head.headers with
  | false =>
      have ranged : (requestRanges head.headers).isNone = false := by
        rw [leavesContent, Bool.or_eq_false_iff, Bool.or_eq_false_iff] at left
        exact left.1.1
      rw [ranged, if_neg Bool.false_ne_true,
        readContent_append server.reception declared single left]
      rfl
  | true =>
      cases ranged : (requestRanges head.headers).isNone with
      | true => rfl
      | false =>
          rw [leavesContent, ranged, Bool.false_or] at left
          obtain ⟨result, unread⟩ := readContent_of_left server.reception single left
          rw [if_neg Bool.false_ne_true, unread]
          rfl

/-- A server without files and handlers. -/
def bare : Server where
  disk := emptyDisk
  baseDirs := []
  getHandlers := []
  reception := byteByByte
  unsized := fun _ member => absurd member List.not_mem_nil

/-- A request with a compressed content. -/
def compressedHead : WireHead where
  line := bytes "POST / HTTP/1.1"
  fields := [bytes "Content-Encoding: gzip", bytes "Content-Length: 18"]
  request := { method := bytes "POST", path := bytes "/", params := [] }
  unbroken := by decide
  short := by decide
  parsed := rfl
  proper := by decide

/-- A request that comes as the content of another one is answered like any other. -/
theorem processRequest_declared_compressed :
    ∃ exchange,
      bare.processRequest [] false
          ⟨compressedHead.text ++ (bytes "GET / HTTP/1.1\r\n\r\n" ++ []), false⟩ =
        some (.ok (exchange,
          ⟨if leavesContent compressedHead.request compressedHead.headers then
              bytes "GET / HTTP/1.1\r\n\r\n" ++ []
            else [], false⟩)) :=
  processRequest_declared bare [] false compressedHead rfl (.sized _ rfl rfl (by decide)) rfl []
    false

end Server

end BoostDocSearcher.Httplib
