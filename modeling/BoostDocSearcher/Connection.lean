import BoostDocSearcher.Handler
import BoostDocSearcher.Httplib.Server

/-!
# The server on its connections

The server of the program has one directory of files and one handler, which searches. What it gives
away of the file system are exactly the files below that directory. Searches that a client writes on
a connection, one after another, are answered in this order, and the client reads the array that
each of them finds. Other bytes on the connection are answered or refused, up to its end.
-/

namespace BoostDocSearcher.HttpServer

open Httplib

/-- `rootPath`. -/
def rootPath : Bytes := bytes "./wwwRoot"

/-- The handler leaves the length of its responses to the server. -/
theorem unsized_jsonResponse (body : Bytes) : Unsized (jsonResponse body) := by
  have clean : CleanHeader (contentTypeKey, bytes "application/json") := by decide
  have other : ¬ SameLetters contentTypeKey contentLengthKey := by decide
  intro header member
  rw [List.mem_singleton.mp member]
  exact ⟨clean, other⟩

/-- The handler of `GET /s`. -/
def searchHandler (search : Bytes → Result Bytes) : Httplib.Handler where
  pattern := bytes "/s"
  run := fun params => (outcome (answerSearch search params) {}).response
  unsized := by
    intro params res ran
    rw [outcome_answerSearch] at ran
    cases found : search (getParamValue params wordKey) with
    | error fault =>
        rw [found] at ran
        contradiction
    | ok body =>
        rw [found] at ran
        obtain rfl := Except.ok.inj ran
        exact unsized_jsonResponse body

/-- The mount points behind `set_base_dir`. -/
def baseDirs (disk : Disk) : List MountPointEntry :=
  (setBaseDir disk rootPath none []).1

/-- The mount point of a directory that is there. -/
def rootEntry : MountPointEntry where
  mountPoint := [slash]
  baseDir := rootPath
  headers := []
  rooted := rfl
  ended := by decide

theorem baseDirs_eq (disk : Disk) :
    baseDirs disk = if disk.isDir rootPath then [rootEntry] else [] := by
  have unterminated : cString rootPath = rootPath := by decide
  have entry_eq (rooted : [slash].head? = some slash) :
      (⟨[slash], cString rootPath, [], rooted, zero_notMem_cString rootPath⟩ : MountPointEntry) =
        rootEntry := by
    simp only [rootEntry, unterminated]
  rw [baseDirs, setBaseDir, setMountPoint]
  have there : disk.isDir (cString rootPath) = disk.isDir rootPath := by rw [unterminated]
  rw [there]
  split
  · exact congrArg (fun entry => [entry]) (entry_eq rfl)
  · rfl

/-- The server of the program. -/
def server (disk : Disk) (reception : Reception)
    (search : Bytes → Result Bytes) : Server where
  disk := disk
  baseDirs := baseDirs disk
  getHandlers := [searchHandler search]
  reception := reception
  unsized := by
    intro entry member
    rw [baseDirs_eq] at member
    split at member
    · rw [List.mem_singleton.mp member]
      exact unsized_fresh
    · contradiction

/-! ## Files -/

/-- The files that the server sends are exactly the regular files below its directory. -/
theorem sent_iff (disk : Disk) (body : Bytes) :
    (∃ path res, handleFileRequest disk (baseDirs disk) path {} = some res ∧ res.body = body) ↔
      disk.isDir rootPath = true ∧
        ∃ file, disk.file file = some body ∧ 0 ∉ file ∧ Below rootPath file := by
  have served (path : Bytes) :
      (∃ res, handleFileRequest disk (baseDirs disk) path {} = some res ∧ res.body = body) ↔
        disk.isDir rootPath = true ∧
          ∃ file, rootEntry.opened disk path = some file ∧ disk.file file = some body := by
    rw [handleFileRequest, baseDirs_eq]
    split
    · rename_i there
      rw [List.findSome?_singleton, exists_respond_iff]
      simp [there]
    · rename_i missing
      simp [missing]
  simp only [served]
  constructor
  · rintro ⟨path, there, file, opened, content⟩
    obtain ⟨-, ended, below⟩ := (fetchable_iff disk rootEntry file).mp ⟨path, opened⟩
    exact ⟨there, file, content, ended, below⟩
  · rintro ⟨there, file, content, ended, below⟩
    have found : (disk.file file).isSome := by
      rw [content]
      rfl
    obtain ⟨path, opened⟩ := (fetchable_iff disk rootEntry file).mpr ⟨found, ended, below⟩
    exact ⟨path, there, file, opened, content⟩

/-! ## Searches -/

/-- Unless there is a file of this name, `/s` is left to the handler. -/
theorem handleFileRequest_search {disk : Disk} (free : disk.file (bytes "./wwwRoot/s") = none) :
    handleFileRequest disk (baseDirs disk) (bytes "/s") {} = none := by
  rw [handleFileRequest, baseDirs_eq]
  split
  · rw [List.findSome?_singleton, MountPointEntry.respond]
    cases looked : rootEntry.filePath (bytes "/s") with
    | none => rfl
    | some file =>
        have file_eq : cString file = bytes "./wwwRoot/s" := by
          rw [MountPointEntry.filePath, if_pos (by decide)] at looked
          dsimp only at looked
          split at looked
          · obtain rfl := Option.some.inj looked
            decide
          · contradiction
        rw [Option.bind_eq_bind, Option.bind_some, file_eq, free]
        rfl
  · rfl

theorem requestLine_search (query : Bytes) :
    bytes "GET /s?" ++ (query ++ bytes " HTTP/1.1") ++ crlf =
      requestLine (bytes "/s?" ++ query) := by
  simp only [requestLine, List.append_assoc]
  rfl

/-- A search as a client writes it, without asking for a part of the result or for the end of the
connection. -/
structure SearchRequest where
  /-- The query string. -/
  query : Bytes
  /-- The lines of the headers, without their ends. -/
  fields : List Bytes
  /-- The request line carries the query string. -/
  carried : Carried query
  /-- The request line is short enough. -/
  short : (requestLine (bytes "/s?" ++ query)).length ≤ requestUriMaxLength
  /-- The lines of the headers are lines, and do not end the headers. -/
  proper : ∀ field ∈ fields, newline ∉ field ∧ field ≠ []
  /-- No header asks for a range. -/
  whole : hasHeader (fields.filterMap parseHeader) (bytes "Range") = false
  /-- No header asks for the end of the connection. -/
  kept : getHeaderValue (fields.filterMap parseHeader) (bytes "Connection") ≠ bytes "close"

namespace SearchRequest

/-- The text that is searched for. -/
def word (request : SearchRequest) : Bytes :=
  getParamValue (parseQueryText request.query []) wordKey

/-- The request on a connection. -/
def wire (request : SearchRequest) : WireRequest where
  line := bytes "GET /s?" ++ (request.query ++ bytes " HTTP/1.1")
  fields := request.fields
  request :=
    { method := bytes "GET"
      path := bytes "/s"
      params := parseQueryText request.query [] }
  unbroken := by
    simp only [List.mem_append, not_or]
    exact ⟨by decide, fun member => (request.carried newline member).2.1 rfl, by decide⟩
  short := by
    rw [requestLine_search]
    exact request.short
  parsed := by
    rw [requestLine_search]
    exact parseRequestLine_search request.carried
  proper := request.proper
  content := []
  framed := .nothing rfl

end SearchRequest

theorem connectionClosed_wire (request : SearchRequest) :
    connectionClosed (request.wire.line ++ crlf) request.wire.headers = false := by
  have unended : cString (request.wire.line ++ crlf) = request.wire.line ++ crlf := by
    refine cString_eq_self ?_
    simp only [SearchRequest.wire, List.mem_append, not_or]
    exact ⟨⟨by decide, fun member => (request.carried 0 member).1 rfl, by decide⟩, by decide⟩
  have current : (bytes " HTTP/1.0\r\n").isSuffixOf (request.wire.line ++ crlf) = false := by
    rw [Bool.eq_false_iff, ne_eq, List.isSuffixOf_iff_suffix]
    intro older
    have newer : bytes " HTTP/1.1\r\n" <:+ request.wire.line ++ crlf :=
      ⟨bytes "GET /s?" ++ request.query, by simp [SearchRequest.wire, crlf, bytes]; rfl⟩
    have same := List.suffix_of_suffix_length_le older newer (by decide)
    exact absurd (same.eq_of_length (by decide)) (by decide)
  have open_connection : getHeaderValue request.wire.headers (bytes "Connection") ≠ bytes "close" :=
    request.kept
  rw [connectionClosed, unended, current]
  simp [open_connection]

theorem applyRanges_nil (boundary : Bytes) (res : Httplib.Response) :
    (applyRanges boundary [] res).1.body = res.body ∧ (applyRanges boundary [] res).2 = false := by
  have measured : applyRanges boundary [] res =
      if res.body.isEmpty then
        (res, false)
      else
        (res.setHeader (bytes "Content-Length") (decimal res.body.length), false) := rfl
  rw [measured]
  split
  · exact ⟨rfl, rfl⟩
  · exact ⟨body_setHeader _ _ _, rfl⟩

theorem exists_answer_search {disk : Disk} (free : disk.file (bytes "./wwwRoot/s") = none)
    (reception : Reception)
    {search : Bytes → Result Bytes} {request : SearchRequest} {body : Bytes}
    (found : search request.word = .ok body) (draws : List (Fin 62)) (closeConnection : Bool) :
    ∃ exchange, (server disk reception search).answer draws closeConnection request.wire =
        .ok exchange ∧
      exchange.isHead = false ∧ exchange.closed = false ∧ exchange.status = 200 ∧
        exchange.response.body = body := by
  have ran : (searchHandler search).run request.wire.request.params =
      .ok (jsonResponse body) := by
    have response_eq :
        (searchHandler search).run request.wire.request.params =
          (search request.word).map jsonResponse := by
      change (outcome (answerSearch search (parseQueryText request.query [])) {}).response = _
      rw [outcome_answerSearch]
      rfl
    rw [response_eq, found]
    rfl
  have routed (strm : Stream) :
      (server disk reception search).routing request.wire.request request.wire.headers strm =
        .ok (⟨true, none, jsonResponse body⟩, strm) := by
    have missing : handleFileRequest (server disk reception search).disk
        (server disk reception search).baseDirs request.wire.request.path {} = none :=
      handleFileRequest_search free
    have dispatched : (server disk reception search).dispatch request.wire.request =
        .ok ⟨true, none, jsonResponse body⟩ := by
      change ((searchHandler search).run request.wire.request.params).map _ = _
      rw [ran]
      rfl
    rw [Server.routing, missing, dispatched]
    rfl
  have whole : requestRanges request.wire.headers = some [] := by
    have absent : hasHeader request.wire.headers (bytes "Range") = false := request.whole
    rw [requestRanges, absent]
    rfl
  have unclosed := connectionClosed_wire request
  obtain ⟨kept, satisfied⟩ := applyRanges_nil (makeMultipartDataBoundary draws) (jsonResponse body)
  rw [Server.answer, Server.respond, whole, unclosed]
  dsimp only
  rw [routed]
  refine ⟨_, rfl, rfl, rfl, ?_, ?_⟩
  · change (if (applyRanges (makeMultipartDataBoundary draws) [] (jsonResponse body)).2 then 416
      else 200) = 200
    rw [satisfied]
    rfl
  · have ready := ready_applyRanges (unsized_jsonResponse body)
      (unbroken_makeMultipartDataBoundary draws) []
    have finished := (ready.finishResponse closeConnection false request.wire.headers).1.body_eq
    exact finished.trans kept

/-- A request of a client that searches: a search, or any other one that does not end the
connection. -/
inductive Message where
  /-- A search. -/
  | search (request : SearchRequest)
  /-- Another request. -/
  | other (wire : WireRequest)
    (kept : connectionClosed (wire.line ++ crlf) wire.headers = false)

namespace Message

/-- The request on a connection. -/
def wire : Message → WireRequest
  | search request => request.wire
  | other wire _ => wire

/-- Whether the method is HEAD. -/
def isHead (message : Message) : Bool :=
  message.wire.request.method = bytes "HEAD"

theorem unclosed (message : Message) :
    connectionClosed (message.wire.line ++ crlf) message.wire.headers = false := by
  cases message with
  | search request => exact connectionClosed_wire request
  | other wire kept => exact kept

end Message

theorem total_server (disk : Disk) (reception : Reception) {search : Bytes → Result Bytes}
    {result : Bytes → Bytes} (found : ∀ word, search word = .ok (result word)) :
    (server disk reception search).Total := by
  intro handler member params
  rw [List.mem_singleton.mp member]
  refine ⟨jsonResponse (result (getParamValue params wordKey)), ?_⟩
  change (outcome (answerSearch search params) {}).response = _
  rw [outcome_answerSearch, found]
  rfl

/-- Requests are answered one after another while the connection is kept, and searches by their
results, whatever else is requested. -/
theorem exists_serve_search {disk : Disk} (free : disk.file (bytes "./wwwRoot/s") = none)
    (reception : Reception) {search : Bytes → Result Bytes} {result : Bytes → Bytes}
    (found : ∀ word, search word = .ok (result word)) (draws : Nat → List (Fin 62))
    (messages : List Message) {count : Nat} (few : messages.length ≤ count) (broken : Bool) :
    ∃ exchanges, (server disk reception search).serve draws count
        ⟨messages.flatMap (·.wire.text), broken⟩ = .ok exchanges ∧
      exchanges.map Exchange.isHead = messages.map Message.isHead ∧
      List.Forall₂ (fun message exchange => ∀ request, message = .search request →
        exchange.reply.status = 200 ∧ exchange.reply.body = result request.word)
        messages exchanges := by
  induction messages generalizing count with
  | nil => cases count <;> exact ⟨[], rfl, rfl, .nil⟩
  | cons message messages induction =>
      obtain ⟨count, rfl⟩ := Nat.exists_eq_succ_of_ne_zero (Nat.ne_zero_of_lt few)
      obtain ⟨exchange, answered, head, closed⟩ :=
        (total_server disk reception found).exists_answer (draws count) (count = 0) message.wire
      obtain ⟨exchanges, later, heads, replies⟩ := induction (Nat.le_of_succ_le_succ few)
      refine ⟨exchange :: exchanges, ?_, ?_, .cons ?_ replies⟩
      · rw [Server.serve, List.flatMap_cons, Server.processRequest_text, answered]
        change (if exchange.closed then _ else _) = _
        rw [closed, message.unclosed, if_neg Bool.false_ne_true, later]
        rfl
      · rw [List.map_cons, List.map_cons, head, heads]
        rfl
      · rintro request rfl
        obtain ⟨exchange', answered', head', -, status_eq, body_eq⟩ :=
          exists_answer_search free reception (found request.word) (draws count) (count = 0)
        obtain rfl : exchange = exchange' := Except.ok.inj (answered.symm.trans answered')
        simp [Exchange.reply, head', status_eq, body_eq]

section Replies

open Searcher Tally

variable {jieba : JiebaUtil} {order : Index.KeywordOrder} {index : Index}

theorem exists_search (reachable : Index.Reachable jieba order index)
    (writer : List JsonElem → Bytes) (traversal : Traversal (Entry Nat InvertedElemOut))
    (sorting : Retrieval.Sorting heavier) (word : Bytes) :
    ∃ body, search jieba index writer traversal sorting word = .ok body :=
  ⟨_, by rw [search, root_eq reachable]; rfl⟩

/-- A client that writes searches on a connection reads the result of each, in their order. In
between it may write any requests whose contents end where the server takes them to end. -/
theorem search_replies (reachable : Index.Reachable jieba order index)
    (writer : List JsonElem → Bytes) (traversal : Traversal (Entry Nat InvertedElemOut))
    (sorting : Retrieval.Sorting heavier) {disk : Disk}
    (free : disk.file (bytes "./wwwRoot/s") = none) (reception : Reception)
    (draws : Nat → List (Fin 62)) (messages : List Message)
    (few : messages.length ≤ keepAliveMaxCount) (broken : Bool) :
    ∃ exchanges replies,
      (server disk reception (search jieba index writer traversal sorting)).serve draws
          keepAliveMaxCount ⟨messages.flatMap (·.wire.text), broken⟩ = .ok exchanges ∧
        Framing.readMany readReply (messages.map Message.isHead)
          (exchanges.flatMap Exchange.written) = some (replies, []) ∧
        List.Forall₂ (fun message reply => ∀ request, message = .search request →
          reply.status = 200 ∧
            search jieba index writer traversal sorting request.word = .ok reply.body)
          messages replies := by
  choose result found using exists_search reachable writer traversal sorting
  obtain ⟨exchanges, served, heads, replies⟩ :=
    exists_serve_search free reception found draws messages few broken
  have read := readMany_written (readable_serve served)
  rw [heads] at read
  refine ⟨exchanges, _, served, read, ?_⟩
  rw [List.forall₂_map_right_iff]
  refine replies.imp fun message exchange answered request same => ?_
  obtain ⟨status_eq, body_eq⟩ := answered request same
  exact ⟨status_eq, by rw [found, body_eq]⟩

/-- A search for a word of `listIndex`. -/
def listRequest : SearchRequest where
  query := bytes "word=LIST"
  fields := [bytes "Host: localhost"]
  carried := @of_decide_eq_true _ (List.decidableBAll _ _) rfl
  short := by decide
  proper := by decide
  whole := by decide
  kept := by decide

/-- A request whose content looks like another one. -/
def hiddenRequest : WireRequest where
  line := bytes "PUT / HTTP/1.1"
  fields := [bytes "Content-Length: 18"]
  request := { method := bytes "PUT", path := bytes "/", params := [] }
  unbroken := by decide
  short := by decide
  parsed := by rfl
  proper := by decide
  content := bytes "GET / HTTP/1.1\r\n\r\n"
  framed := .declared rfl (.sized _ rfl rfl (by decide)) rfl rfl

theorem search_replies_hiddenRequest :
    ∃ exchanges replies,
      (server emptyDisk byteByByte
          (search .singleWord listIndex titles (.inOrder _) stableSort)).serve
          (fun _ => []) keepAliveMaxCount
          ⟨[.search listRequest, Message.other hiddenRequest rfl, .search listRequest].flatMap
            (·.wire.text), true⟩ = .ok exchanges ∧
        Framing.readMany readReply
          ([.search listRequest, Message.other hiddenRequest rfl, .search listRequest].map
            Message.isHead)
          (exchanges.flatMap Exchange.written) = some (replies, []) ∧
        List.Forall₂ (fun message reply => ∀ request, message = .search request →
          reply.status = 200 ∧
            search .singleWord listIndex titles (.inOrder _) stableSort request.word =
              .ok reply.body)
          [.search listRequest, Message.other hiddenRequest rfl, .search listRequest] replies :=
  search_replies (reachable_addLine _ _ (by decide) (by decide)) titles (.inOrder _) stableSort
    rfl _ _ _ (by decide) true

end Replies

end BoostDocSearcher.HttpServer
