import BoostDocSearcher.Connection
import BoostDocSearcher.Pipeline
import BoostDocSearcher.Segmenter

/-!
# From files to replies

The two programs together, with the segmenter of the repository: the parser turns files into a raw
file, the server builds its index from it, and a client that searches for the title of a page reads
an array that names the page.
-/

namespace BoostDocSearcher

open HttpServer Httplib Searcher Tally

section Reply

variable {jieba : JiebaUtil} {order : Index.KeywordOrder} {index : Index}

/-- The array of a search has an element for each document that answers it. -/
theorem exists_elem_of_hit (reachable : Index.Reachable jieba order index) {docId : Nat}
    {doc : Index.DocInfo} (position : index.forwardIndex[docId]? = some doc) {query : Bytes}
    {traversal : Traversal (Entry Nat InvertedElemOut)} {sorting : Retrieval.Sorting heavier}
    (member : docId ∈
      (allInvertedElemOut index (jieba.cutString query) traversal sorting).map (·.docId)) :
    ∃ elems, (∀ writer, search jieba index writer traversal sorting query = .ok (writer elems)) ∧
      ∃ elem ∈ elems, elem.url = doc.url ∧
        elem.title = if doc.title.isEmpty then bytes "TITLE" else doc.title := by
  obtain ⟨found, found_mem, rfl⟩ := List.mem_map.mp member
  have nonempty :
      (allInvertedElemOut index (jieba.cutString query) traversal sorting).isEmpty = false := by
    simpa using List.ne_nil_of_mem found_mem
  refine ⟨_, fun writer => by rw [search, root_eq reachable]; rfl, elemFor index found, ?_, ?_⟩
  · rw [nonempty, if_neg Bool.false_ne_true]
    exact List.mem_map_of_mem found_mem
  · rw [elemFor, position]
    exact ⟨rfl, rfl⟩

theorem exists_reply {disk : Disk} (free : disk.file (bytes "./wwwRoot/s") = none)
    (reception : Reception)
    {search : Bytes → Result Bytes} {result : Bytes → Bytes}
    (found : ∀ word, search word = .ok (result word)) (draws : Nat → List (Fin 62))
    (request : SearchRequest) (broken : Bool) :
    ∃ exchanges reply,
      (server disk reception search).serve draws keepAliveMaxCount
          ⟨request.wire.text, broken⟩ = .ok exchanges ∧
        Framing.readMany readReply [false] (exchanges.flatMap Exchange.written) =
          some ([reply], []) ∧
        reply.status = 200 ∧ reply.body = result request.word := by
  obtain ⟨exchanges, served, heads, replies⟩ :=
    exists_serve_search free reception found draws [.search request]
      (Nat.succ_le_succ (Nat.zero_le 4)) broken
  rw [List.flatMap_singleton] at served
  have read := readMany_written (readable_serve served)
  rw [heads] at read
  obtain ⟨exchange, rest, answered, ended, rfl⟩ := List.forall₂_cons_left_iff.mp replies
  obtain rfl := List.forall₂_nil_left_iff.mp ended
  obtain ⟨status_eq, body_eq⟩ := answered request rfl
  exact ⟨[exchange], exchange.reply, served, read, status_eq, body_eq⟩

end Reply

section Pages

variable {W : Type*} [Cppjieba.Weight W] {files : FileSystem} {filesList : List Bytes}

/-- Every page is found by its title. The parser and the index finish, and on the index that is
built, the search for the title of any accepted file is answered with an array that names the file,
unless the title cannot be cut into words or has a stop word. Titles and contents have fewer than
`2 ^ 32` bytes. -/
theorem title_replies (input : ParserInput files filesList)
    (filled : ∀ filePath ∈ filesList, ∀ doc, parsedDoc files filePath = some doc →
      doc.content ≠ [])
    (jieba : Cppjieba.Jieba W) (stopFile : Option Bytes) (order : Index.KeywordOrder)
    (traversal : Traversal (Entry Nat InvertedElemOut)) (sorting : Retrieval.Sorting heavier)
    (writer : List JsonElem → Bytes) {disk : Disk}
    (free : disk.file (bytes "./wwwRoot/s") = none)
    (reception : Reception)
    (draws : Nat → List (Fin 62)) :
    ∃ docs index, Parser.parseDocInfo files filesList [] = .ok (true, docs) ∧
      Index.empty.buildIndex (jiebaUtil jieba stopFile) order (Parser.saveDocInfo docs true) =
        .ok (index, true) ∧
      ∀ filePath ∈ filesList, ∀ doc, parsedDoc files filePath = some doc →
        doc.title ≠ [] → (Cppjieba.decodeRunesInString doc.title).isSome →
        (∀ file ∈ stopFile, ∀ token ∈ jieba.cutForSearch doc.title true,
          toLower token ∉ getlines file) →
        ∀ request : SearchRequest, request.word = doc.title → ∀ broken, ∃ exchanges reply elems,
          (server disk reception (search (jiebaUtil jieba stopFile) index writer traversal
              sorting)).serve draws keepAliveMaxCount ⟨request.wire.text, broken⟩ =
            .ok exchanges ∧
          Framing.readMany readReply [false] (exchanges.flatMap Exchange.written) =
            some ([reply], []) ∧
          reply.status = 200 ∧ reply.body = writer elems ∧
          ∃ elem ∈ elems, elem.title = doc.title ∧
            elem.url = Parser.urlHead ++ filePath.drop Parser.srcPath.length := by
  obtain ⟨docs, finished, index, built, stored⟩ :=
    (keepsDocuments_iff_filled input (jiebaUtil jieba stopFile) order).mpr filled
  refine ⟨docs, index, finished, built, ?_⟩
  intro filePath listed doc parsed titled decoded kept request asks broken
  have reachable : Index.Reachable (jiebaUtil jieba stopFile) order index :=
    .build .empty built
  -- The document stands in the index where the parser has put it.
  obtain ⟨docId, position⟩ : ∃ docId : Nat, index.forwardIndex[docId]? =
      some (doc.indexed docId) := by
    have docs_eq : docs = filesList.filterMap (parsedDoc files) := by
      rw [parseDocInfo_of_input input] at finished
      exact (Prod.mk.inj (Except.ok.inj finished)).2.symm
    have member : doc ∈ docs := by
      rw [docs_eq]
      exact List.mem_filterMap.mpr ⟨filePath, listed, parsed⟩
    obtain ⟨docId, position⟩ := List.mem_iff_getElem?.mp member
    refine ⟨docId, ?_⟩
    rw [stored, List.getElem?_mapIdx, position, Option.map_some]
  have hit := (mem_hits_title_iff reachable position traversal sorting).mpr
    ((exists_token_jiebaUtil_iff jieba stopFile kept).mpr ⟨titled, decoded⟩)
  obtain ⟨elems, found, elem, elem_mem, url_eq, title_eq⟩ :=
    exists_elem_of_hit reachable position hit
  choose result total using exists_search reachable writer traversal sorting
  obtain ⟨exchanges, reply, served, read, status_eq, body_eq⟩ :=
    exists_reply free reception total draws request broken
  refine ⟨exchanges, reply, elems, served, read, status_eq, ?_, elem, elem_mem, ?_, ?_⟩
  · rw [body_eq, asks]
    exact Except.ok.inj ((total doc.title).symm.trans (found writer))
  · have titled' : ¬ (doc.indexed docId).title.isEmpty = true := by
      rwa [List.isEmpty_iff]
    rw [title_eq, if_neg titled']
    rfl
  · obtain ⟨raw, -, -, -, -, address⟩ :=
      Parser.parseFile_eq_some_iff.mp (parsedDoc_eq_some_iff.mp parsed)
    rw [url_eq]
    exact address

end Pages

/-- A search for two words. -/
def titleRequest : SearchRequest where
  query := bytes "word=vector+list"
  fields := []
  carried := @of_decide_eq_true _ (List.decidableBAll _ _) rfl
  short := by decide
  proper := by simp
  whole := rfl
  kept := by decide

/-- A page is found by the two words of its title, in front of a file of stop words. -/
theorem title_replies_twoWords :
    ∃ docs index exchanges reply elems,
      Parser.parseDocInfo (oneFile (bytes "<title>vector list</title>"))
        [bytes "data/input/a.html"] [] = .ok (true, docs) ∧
      Index.empty.buildIndex (jiebaUtil twoWords (some (bytes "the\n"))) (fun _ => .inOrder _)
        (Parser.saveDocInfo docs true) = .ok (index, true) ∧
      (server emptyDisk byteByByte
          (search (jiebaUtil twoWords (some (bytes "the\n"))) index titles (.inOrder _)
            stableSort)).serve
          (fun _ => []) keepAliveMaxCount ⟨titleRequest.wire.text, true⟩ = .ok exchanges ∧
      Framing.readMany readReply [false] (exchanges.flatMap Exchange.written) =
        some ([reply], []) ∧
      reply.status = 200 ∧ reply.body = titles elems ∧
      ∃ elem ∈ elems, elem.title = bytes "vector list" ∧
        elem.url = Parser.urlHead ++ bytes "/a.html" := by
  have parsed := parsedDoc_eq_some_iff.mpr
    (Parser.parseFile_oneFile (bytes "<title>vector list</title>") (bytes "vector list") rfl)
  have filled : ∀ filePath ∈ [bytes "data/input/a.html"], ∀ doc,
      parsedDoc (oneFile (bytes "<title>vector list</title>")) filePath = some doc →
        doc.content ≠ [] := by
    intro filePath listed doc found
    rw [List.mem_singleton.mp listed, parsed] at found
    obtain rfl := Option.some.inj found
    exact List.cons_ne_nil _ _
  have cut : twoWords.cutForSearch (bytes "vector list") true =
      [bytes "vector", bytes " ", bytes "list"] := by
    decide +kernel
  have kept : ∀ file ∈ some (bytes "the\n"),
      ∀ token ∈ twoWords.cutForSearch (bytes "vector list") true,
        toLower token ∉ getlines file := by
    rw [cut]
    decide
  have decoded : (Cppjieba.decodeRunesInString (bytes "vector list")).isSome := by
    decide +kernel
  obtain ⟨docs, index, finished, built, answered⟩ :=
    title_replies (parserInput_oneFile (by decide)) filled twoWords (some (bytes "the\n"))
      (fun _ => .inOrder _) (.inOrder _) stableSort titles
      (show emptyDisk.file _ = none from rfl) byteByByte fun _ => []
  obtain ⟨exchanges, reply, elems, replied⟩ :=
    answered _ (List.mem_singleton_self _) _ parsed (List.cons_ne_nil _ _) decoded kept
      titleRequest rfl true
  have address : (bytes "data/input/a.html").drop Parser.srcPath.length = bytes "/a.html" := by
    decide
  rw [address] at replied
  exact ⟨docs, index, exchanges, reply, elems, finished, built, replied⟩

end BoostDocSearcher
