import BoostDocSearcher.Httplib
import BoostDocSearcher.Library.PathWalk

/-!
# The files of the server

A request for a path that begins with a mount point is answered from a file below its base
directory. The path of a request is decoded, so it can hold any bytes: empty components, dots, and
zero bytes, at which the system calls stop reading while the check of the path goes on. In spite of
them, the files that can be fetched are exactly the regular files below the base directory.
-/

namespace BoostDocSearcher.Httplib

open PathWalk

/-- The byte `'/'`. -/
def slash : Byte := '/'.toUInt8

/-- What a system call reads of a string. -/
def cString (s : Bytes) : Bytes :=
  s.takeWhile (· ≠ 0)

/-- The files, as system calls see them. The server may read all regular files. -/
structure Disk where
  /-- The content of the regular file at a path. -/
  file : Bytes → Option Bytes
  /-- Whether there is a directory at a path. -/
  isDir : Bytes → Bool
  /-- A path ends in the name of its file: neither dots nor a slash name a regular file. -/
  named : ∀ front name, slash ∉ name → (file (front ++ slash :: name)).isSome →
    name ≠ [] ∧ name ≠ bytes "." ∧ name ≠ bytes ".."

/-- A disk without files. -/
def emptyDisk : Disk where
  file := fun _ => none
  isDir := fun _ => true
  named := fun _ _ _ found => absurd found Bool.false_ne_true

theorem ne_slash_of_skipped {path rest : Bytes} {c : Byte}
    (skipped : path.dropWhile (· = slash) = c :: rest) : c ≠ slash := by
  have kept := List.head?_dropWhile_not (· = slash) path
  rw [skipped] at kept
  simpa using kept

/-- The loop of `is_valid_path` comes closer to the end of the path. -/
theorem length_behind_lt {path rest : Bytes} {c : Byte}
    (skipped : path.dropWhile (· = slash) = c :: rest) :
    ((c :: rest).dropWhile (· ≠ slash)).length < path.length := by
  have inside : (path.dropWhile (· = slash)).length ≤ path.length :=
    (List.dropWhile_suffix _).length_le
  rw [skipped, List.length_cons] at inside
  rw [List.dropWhile_cons_of_pos (by simpa using ne_slash_of_skipped skipped)]
  have behind : (rest.dropWhile (· ≠ slash)).length ≤ rest.length :=
    (List.dropWhile_suffix _).length_le
  omega

/-- The loop of `is_valid_path`, with its counter. -/
def validLoop (level : Nat) (path : Bytes) : Bool :=
  match skipped : path.dropWhile (· = slash) with
  | [] => true
  | c :: rest =>
      let component := (c :: rest).takeWhile (· ≠ slash)
      let behind := (c :: rest).dropWhile (· ≠ slash)
      if component = bytes "." then
        validLoop level behind
      else if component = bytes ".." then
        if level = 0 then false else validLoop (level - 1) behind
      else
        validLoop (level + 1) behind
  termination_by path.length
  decreasing_by all_goals exact length_behind_lt skipped

/-- `is_valid_path`. -/
def isValidPath (path : Bytes) : Bool :=
  validLoop 0 path

/-- The characters of a file extension. -/
def isAlnum (c : Byte) : Bool :=
  (65 ≤ c && c ≤ 90) || (97 ≤ c && c ≤ 122) || (48 ≤ c && c ≤ 57)

/-- `file_extension`. -/
def fileExtension (path : Bytes) : Bytes :=
  let extension := path.rtakeWhile isAlnum
  if (path.rdropWhile isAlnum).getLast? = some '.'.toUInt8 then extension else []

/-- The content types of `find_content_type`. -/
def contentTypes : List (Bytes × Bytes) :=
  [("txt", "text/plain"), ("html", "text/html"), ("htm", "text/html"), ("css", "text/css"),
    ("jpeg", "image/jpg"), ("jpg", "image/jpg"), ("png", "image/png"), ("gif", "image/gif"),
    ("svg", "image/svg+xml"), ("ico", "image/x-icon"), ("json", "application/json"),
    ("pdf", "application/pdf"), ("js", "application/javascript"), ("wasm", "application/wasm"),
    ("xml", "application/xml"), ("xhtml", "application/xhtml+xml")].map
    fun (extension, type) => (bytes extension, bytes type)

/-- `find_content_type`, without types of the user. -/
def findContentType (path : Bytes) : Option Bytes :=
  contentTypes.lookup (fileExtension path)

/-- A `MountPointEntry`. -/
structure MountPointEntry where
  /-- The beginning of the paths that are requested. -/
  mountPoint : Bytes
  /-- The directory of the files. -/
  baseDir : Bytes
  /-- Headers of the responses. -/
  headers : Headers
  /-- `set_mount_point` takes mount points that begin with a slash. -/
  rooted : mountPoint.head? = some slash
  /-- The directory comes from a text that ends at a zero byte. -/
  ended : 0 ∉ baseDir

theorem zero_notMem_cString (s : Bytes) : 0 ∉ cString s :=
  Delimited.notMem_takeWhile_ne 0 s

/-- `Server::set_mount_point`: the entries behind it, and its result. -/
def setMountPoint (disk : Disk) (mountPoint : Option Bytes) (dir : Bytes) (headers : Headers)
    (baseDirs : List MountPointEntry) : List MountPointEntry × Bool :=
  if disk.isDir (cString dir) then
    let mnt := mountPoint.getD [slash]
    if rooted : mnt.head? = some slash then
      (baseDirs ++ [⟨mnt, cString dir, headers, rooted, zero_notMem_cString dir⟩], true)
    else
      (baseDirs, false)
  else
    (baseDirs, false)

/-- `Server::set_base_dir`. -/
def setBaseDir (disk : Disk) (dir : Bytes) (mountPoint : Option Bytes)
    (baseDirs : List MountPointEntry) : List MountPointEntry × Bool :=
  setMountPoint disk mountPoint dir [] baseDirs

/-- The path that `handle_file_request` looks for under an entry. -/
def MountPointEntry.filePath (entry : MountPointEntry) (path : Bytes) : Option Bytes :=
  if entry.mountPoint.isPrefixOf path then
    let subPath := slash :: path.drop entry.mountPoint.length
    if isValidPath subPath then
      let path := entry.baseDir ++ subPath
      some (if path.getLast? = some slash then path ++ bytes "index.html" else path)
    else
      none
  else
    none

/-- The body of the loop of `handle_file_request`, for a file that is there. -/
def MountPointEntry.respond (disk : Disk) (path : Bytes) (res : Response)
    (entry : MountPointEntry) : Option Response := do
  let path ← entry.filePath path
  let body ← disk.file (cString path)
  let typed : Response :=
    match findContentType path with
    | some type => { res with body }.setHeader contentTypeKey type
    | none => { res with body }
  return entry.headers.foldl (fun res kv => res.setHeader (cString kv.1) kv.2) typed

/-- `Server::handle_file_request`: the response with status 200, if a file is found. -/
def handleFileRequest (disk : Disk) (baseDirs : List MountPointEntry) (path : Bytes)
    (res : Response) : Option Response :=
  baseDirs.findSome? (MountPointEntry.respond disk path res)

/-! ## Walks -/

/-- The components of a path. -/
def components (path : Bytes) : List Bytes :=
  (path.splitOn slash).filter (· ≠ [])

/-- What a component does on the way from a directory. -/
def moveOf (component : Bytes) : Move Bytes :=
  if component = bytes "." then
    .stay
  else if component = bytes ".." then
    .up
  else
    .down component

/-- The way that a path goes. -/
def moves (path : Bytes) : List (Move Bytes) :=
  (components path).map moveOf

/-- A path leads to something below a directory, and never leaves the directory on its way. -/
def Below (dir path : Bytes) : Prop :=
  ∃ rest place, path = dir ++ slash :: rest ∧ walk [] (moves rest) = some place ∧ place ≠ []

theorem components_append_slash (front rest : Bytes) :
    components (front ++ slash :: rest) = components front ++ components rest := by
  rw [components, List.splitOn_append_cons_self, List.filter_append]
  rfl

theorem components_of_free {component : Bytes} (free : slash ∉ component)
    (nonempty : component ≠ []) : components component = [component] := by
  rw [components, List.splitOn_eq_singleton free, List.filter_cons_of_pos (by simpa using nonempty)]
  rfl

theorem components_cons_slash (rest : Bytes) : components (slash :: rest) = components rest :=
  components_append_slash [] rest

theorem components_dropWhile (path : Bytes) :
    components (path.dropWhile (· = slash)) = components path := by
  induction path with
  | nil => rfl
  | cons c path induction =>
      by_cases skips : c = slash
      · rw [List.dropWhile_cons_of_pos (by simpa using skips), induction, skips,
          components_cons_slash]
      · rw [List.dropWhile_cons_of_neg (by simpa using skips)]

theorem components_cons {c : Byte} (ordinary : c ≠ slash) (rest : Bytes) :
    components (c :: rest) =
      (c :: rest).takeWhile (· ≠ slash) :: components ((c :: rest).dropWhile (· ≠ slash)) := by
  have free := Delimited.notMem_takeWhile_ne slash (c :: rest)
  have nonempty : (c :: rest).takeWhile (· ≠ slash) ≠ [] := by
    rw [List.takeWhile_cons_of_pos (by simpa using ordinary)]
    exact List.cons_ne_nil _ _
  have whole : (c :: rest).takeWhile (· ≠ slash) ++ (c :: rest).dropWhile (· ≠ slash) = c :: rest :=
    List.takeWhile_append_dropWhile
  have ended := List.head?_dropWhile_not (· ≠ slash) (c :: rest)
  generalize (c :: rest).takeWhile (· ≠ slash) = component at *
  generalize (c :: rest).dropWhile (· ≠ slash) = behind at *
  rw [← whole]
  cases behind with
  | nil =>
      rw [List.append_nil, components_of_free free nonempty]
      rfl
  | cons d more =>
      obtain rfl : d = slash := by simpa using ended
      rw [components_append_slash, components_of_free free nonempty, components_cons_slash]
      rfl

/-- The loop of `is_valid_path` walks the path, with only the depth of the place in mind. -/
theorem validLoop_eq (place : List Bytes) (path : Bytes) :
    validLoop place.length path = (walk place (moves path)).isSome := by
  induction bound : path.length using Nat.strongRecOn generalizing place path with
  | ind bound_value induction =>
      subst bound
      rw [validLoop, moves, ← components_dropWhile path]
      split
      · rename_i skipped
        rw [skipped]
        rfl
      · rename_i c rest skipped
        have shorter := length_behind_lt skipped
        rw [skipped, components_cons (ne_slash_of_skipped skipped), List.map_cons, moveOf]
        dsimp only
        generalize (c :: rest).takeWhile (· ≠ slash) = component
        generalize (c :: rest).dropWhile (· ≠ slash) = behind at *
        split
        · exact induction _ shorter place behind rfl
        split
        · cases place with
          | nil => rfl
          | cons name place => exact induction _ shorter place behind rfl
        · exact induction _ shorter (component :: place) behind rfl

/-- A path is valid exactly when no beginning of it goes up more often than down. -/
theorem isValidPath_iff (path : Bytes) :
    isValidPath path = true ↔ ∀ first, first <+: moves path → ups first ≤ downs first := by
  rw [isValidPath, ← List.length_nil, validLoop_eq, isSome_walk_iff]
  simp

/-! ## The files that can be fetched -/

/-- The file that an entry opens for a request. -/
def MountPointEntry.opened (disk : Disk) (entry : MountPointEntry) (path : Bytes) : Option Bytes :=
  ((entry.filePath path).map cString).filter fun path => (disk.file path).isSome

theorem exists_last_slash {path : Bytes} (member : slash ∈ path) :
    ∃ front name, path = front ++ slash :: name ∧ slash ∉ name := by
  obtain ⟨back, others, reverse_eq, free⟩ :=
    List.eq_append_cons_of_mem (List.mem_reverse.mpr member)
  refine ⟨others.reverse, back.reverse, ?_, fun inside => free (List.mem_reverse.mp inside)⟩
  simpa using congrArg List.reverse reverse_eq

theorem moveOf_name {name : Bytes} (stays : name ≠ bytes ".") (ups : name ≠ bytes "..") :
    moveOf name = .down name := by
  rw [moveOf, if_neg stays, if_neg ups]

theorem moves_append_slash (front rest : Bytes) :
    moves (front ++ slash :: rest) = moves front ++ moves rest := by
  rw [moves, components_append_slash, List.map_append]
  rfl

theorem moves_cons_slash (rest : Bytes) : moves (slash :: rest) = moves rest :=
  moves_append_slash [] rest

theorem isValidPath_cons_slash (rest : Bytes) :
    isValidPath (slash :: rest) = (walk [] (moves rest)).isSome := by
  rw [isValidPath, ← moves_cons_slash, ← validLoop_eq, List.length_nil]

theorem moves_of_name {name : Bytes} (free : slash ∉ name) (nonempty : name ≠ [])
    (stays : name ≠ bytes ".") (ups : name ≠ bytes "..") : moves name = [.down name] := by
  rw [moves, components_of_free free nonempty, List.map_singleton, moveOf_name stays ups]

theorem isSome_walk_index {rest : Bytes} (ends : (slash :: rest).getLast? = some slash)
    (valid : (walk [] (moves rest)).isSome) :
    (walk [] (moves (rest ++ bytes "index.html"))).isSome := by
  obtain ⟨front, front_eq⟩ := List.getLast?_eq_some_iff.mp ends
  have same : moves rest = moves front := by
    rw [← moves_cons_slash, front_eq, moves_append_slash]
    exact List.append_nil _
  have index : moves (rest ++ bytes "index.html") =
      moves rest ++ [.down (bytes "index.html")] := by
    rw [same, ← moves_cons_slash, ← List.cons_append, front_eq, List.append_assoc,
      List.singleton_append, moves_append_slash]
    rfl
  obtain ⟨place, there⟩ := Option.isSome_iff_exists.mp valid
  rw [index, walk_append, there]
  rfl

theorem filePath_eq_some {entry : MountPointEntry} {request path : Bytes}
    (looked : entry.filePath request = some path) :
    ∃ rest, path = entry.baseDir ++ slash :: rest ∧ (walk [] (moves rest)).isSome := by
  rw [MountPointEntry.filePath] at looked
  split at looked
  · dsimp only at looked
    split at looked
    · rename_i valid
      rw [isValidPath_cons_slash] at valid
      generalize request.drop entry.mountPoint.length = rest at looked valid
      rw [Option.some.injEq] at looked
      subst looked
      split
      · rename_i ends
        refine ⟨rest ++ bytes "index.html", by simp, isSome_walk_index ?_ valid⟩
        rwa [List.getLast?_append_of_ne_nil _ (List.cons_ne_nil _ _)] at ends
      · exact ⟨rest, rfl, valid⟩
    · contradiction
  · contradiction

/-- A file at the beginning of a way that stays inside lies below the directory. -/
theorem below_of_prefix (disk : Disk) {dir rest whole : Bytes} (prefixed : rest <+: whole)
    (inside : (walk [] (moves whole)).isSome) (found : (disk.file (dir ++ slash :: rest)).isSome) :
    Below dir (dir ++ slash :: rest) := by
  have rooted : slash ∈ slash :: rest := List.mem_cons_self
  obtain ⟨front, name, rest_eq, free⟩ := exists_last_slash rooted
  obtain ⟨behind, rfl⟩ := prefixed
  rw [rest_eq, ← List.append_assoc] at found
  obtain ⟨nonempty, stays, ups⟩ := disk.named _ _ free found
  have whole_eq : moves (rest ++ behind) = moves front ++ moves (name ++ behind) := by
    rw [← moves_cons_slash, ← List.cons_append, rest_eq, List.append_assoc, List.cons_append,
      moves_append_slash]
  rw [whole_eq] at inside
  obtain ⟨place, there⟩ := Option.isSome_iff_exists.mp (isSome_walk_of_append inside)
  refine ⟨rest, name :: place, rfl, ?_, List.cons_ne_nil _ _⟩
  rw [← moves_cons_slash, rest_eq, moves_append_slash, moves_of_name free nonempty stays ups,
    walk_append, there]
  rfl

theorem cString_append {front : Bytes} (ended : 0 ∉ front) (rest : Bytes) :
    cString (front ++ rest) = front ++ cString rest := by
  rw [cString, List.takeWhile_append_of_pos]
  · rfl
  · intro c member
    simpa using ne_of_mem_of_not_mem member ended

theorem cString_eq_self {s : Bytes} (ended : 0 ∉ s) : cString s = s :=
  Delimited.takeWhile_ne_eq_self_iff.mpr ended

/-- The files that a base directory gives away are exactly the regular files below it. -/
theorem fetchable_iff (disk : Disk) (entry : MountPointEntry) (path : Bytes) :
    (∃ request, entry.opened disk request = some path) ↔
      (disk.file path).isSome ∧ 0 ∉ path ∧ Below entry.baseDir path := by
  constructor
  · rintro ⟨request, opened⟩
    rw [MountPointEntry.opened, Option.filter_eq_some_iff, Option.map_eq_some_iff] at opened
    obtain ⟨⟨looked, looked_eq, rfl⟩, found⟩ := opened
    obtain ⟨rest, rfl, inside⟩ := filePath_eq_some looked_eq
    refine ⟨found, zero_notMem_cString _, ?_⟩
    rw [cString_append entry.ended] at found ⊢
    exact below_of_prefix disk (List.takeWhile_prefix _) inside found
  · rintro ⟨found, ended, rest, place, rfl, inside, -⟩
    refine ⟨entry.mountPoint ++ rest, ?_⟩
    have valid : isValidPath (slash :: rest) = true := by
      rw [isValidPath_cons_slash, inside]
      rfl
    have named : (entry.baseDir ++ slash :: rest).getLast? ≠ some slash := by
      intro ends
      obtain ⟨front, front_eq⟩ := List.getLast?_eq_some_iff.mp ends
      rw [front_eq] at found
      exact (disk.named front [] List.not_mem_nil found).1 rfl
    have looked : entry.filePath (entry.mountPoint ++ rest) =
        some (entry.baseDir ++ slash :: rest) := by
      rw [MountPointEntry.filePath,
        if_pos (List.isPrefixOf_iff_prefix.mpr (List.prefix_append _ _)),
        List.drop_left]
      dsimp only
      rw [if_pos valid, if_neg named]
    rw [MountPointEntry.opened, looked, Option.map_some, cString_eq_self ended]
    exact Option.filter_some_pos found

@[simp]
theorem body_setHeader (res : Response) (key val : Bytes) :
    (res.setHeader key val).body = res.body := by
  rw [Response.setHeader]
  split <;> rfl

/-- The body of a response is the content of the file that is opened. -/
theorem exists_respond_iff (disk : Disk) (entry : MountPointEntry) (path body : Bytes)
    (res : Response) :
    (∃ reply, entry.respond disk path res = some reply ∧ reply.body = body) ↔
      ∃ file, entry.opened disk path = some file ∧ disk.file file = some body := by
  have unchanged (headers : Headers) (typed : Response) :
      (headers.foldl (fun res kv => res.setHeader (cString kv.1) kv.2) typed).body =
        typed.body := by
    induction headers generalizing typed with
    | nil => rfl
    | cons header headers induction => rw [List.foldl_cons, induction, body_setHeader]
  have typed_body (looked content : Bytes) :
      (match findContentType looked with
        | some type => ({ res with body := content } : Response).setHeader contentTypeKey type
        | none => { res with body := content }).body = content := by
    split
    · exact body_setHeader _ _ _
    · rfl
  rw [MountPointEntry.respond, MountPointEntry.opened]
  cases looked : entry.filePath path with
  | none => simp
  | some file =>
      simp only [Option.bind_eq_bind, Option.bind_some, Option.map_some,
        Option.filter_eq_some_iff, Option.some.injEq]
      cases content : disk.file (cString file) with
      | none =>
          refine ⟨by simp, ?_⟩
          rintro ⟨_, ⟨rfl, -⟩, content_eq⟩
          rw [content] at content_eq
          contradiction
      | some text =>
          constructor
          · rintro ⟨reply, reply_eq, rfl⟩
            refine ⟨_, ⟨rfl, by rw [content]; rfl⟩, ?_⟩
            obtain rfl := Option.some.inj reply_eq
            rw [content, unchanged, typed_body]
          · rintro ⟨_, ⟨rfl, -⟩, content_eq⟩
            obtain rfl := Option.some.inj (content.symm.trans content_eq)
            exact ⟨_, rfl, by rw [unchanged, typed_body]⟩

end BoostDocSearcher.Httplib
