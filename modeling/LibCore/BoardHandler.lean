import LibCore.HttpRequest
import LibCore.Multipart
import LibCore.Radix
import LibCore.TemplateEngine

/-!
# The Board: Writing, Changing and Removing

The handlers of `board_handler.c` that change the board: `write`, `modify`, `remove` and `comment_write`.
Each of them works on two stores. The rows are changed within a transaction, and the file of an attachment
lies on the disk, where it is saved before the transaction and deleted behind it.

A handler is a function of the request, of what the database and the disk answer, and of the client at its
start. Every statement of a handler is another one, so the answers are a function of the statement. The
transaction is that of the database; the client has a flag `in_transaction` for it, which the three clients
of `db.h` treat in their own ways. What the handler did is a list of events, in order. The event loop serves
one request after the other.

An answer of `file_delete` decides nothing but a line in the log and is left out, as are the log itself,
references and the memory: allocations succeed. A client that is not there is one that is not connected.

## Main definitions

* `Client`, `Answer`: the three clients, and what the database answers to `beginTransaction`, `commit` and
  `rollback` on each.
* `Env`: the answers.
* `write`, `modify`, `remove`, `commentWrite`: the handlers.
* `run`: a sequence of requests.
-/

open CString Radix Json HttpServer Multipart

namespace BoardHandler

/-! ### Transactions -/

/-- The clients of `mysql.c`, `pgsql.c` and `sqlite.c`. -/
inductive Client where
  | mysql | pgsql | sqlite
deriving DecidableEq

/-- What a handler does to the two stores. -/
inductive Event where
  /-- `file_save` has succeeded. -/
  | saved (path : Bytes)
  /-- `file_delete` is called. -/
  | deleted (path : Bytes)
  | began (ok : Bool)
  | committed (ok : Bool)
  | rolledBack (ok : Bool)
deriving DecidableEq

/-- What the database answers to a statement of a transaction. It carries it out; or it refuses it, on a
connection that is there, and its transaction stays as it is; or the statement fails and the transaction is
gone, with the connection or because the database has rolled it back by itself. -/
inductive Answer where
  | ok | failed | lost
deriving DecidableEq

/-- What the client returns for it. -/
def Answer.isOk : Answer → Bool
  | .ok => true
  | .failed | .lost => false

/-- Whether the transaction of the database is open behind `COMMIT` or `ROLLBACK`. -/
def Answer.leaves (answer : Answer) (isOpen : Bool) : Bool :=
  match answer with
  | .failed => isOpen
  | .ok | .lost => false

/-- The client, the database, and what the handler has done so far. -/
structure World where
  inTransaction : Bool
  /-- The database has an open transaction. -/
  isOpen : Bool
  trace : List Event

/-- One more event. -/
def World.log (w : World) (event : Event) : World := { w with trace := w.trace ++ [event] }

/-- `beginTransaction`. The client of PostgreSQL does not ask while its flag is set. -/
def beginTransaction (client : Client) (answer : Answer) (w : World) : Bool × World :=
  let ok := answer.isOk
  let isOpen := ok || answer.leaves w.isOpen
  match client with
  | .mysql | .sqlite =>
      (ok, { w with inTransaction := w.inTransaction || ok, isOpen := isOpen }.log (.began ok))
  | .pgsql =>
      if w.inTransaction then (false, w.log (.began false))
      else (ok, { w with inTransaction := ok, isOpen := isOpen }.log (.began ok))

/-- `commit`. The client of SQLite clears its flag only if the statement succeeds; that of PostgreSQL does not
ask while its flag is clear, and asks for a rollback itself where `COMMIT` fails. -/
def commit (client : Client) (answer rollback : Answer) (w : World) : Bool × World :=
  let ok := answer.isOk
  let isOpen := answer.leaves w.isOpen
  match client with
  | .mysql => (ok, { w with inTransaction := false, isOpen := isOpen }.log (.committed ok))
  | .pgsql =>
      if w.inTransaction then
        (ok, { w with inTransaction := false, isOpen := if ok then isOpen else rollback.leaves isOpen }.log
          (.committed ok))
      else (false, w.log (.committed false))
  | .sqlite => (ok, { w with inTransaction := w.inTransaction && !ok, isOpen := isOpen }.log (.committed ok))

/-- `rollback`. No handler looks at what it returns. -/
def rollback (client : Client) (answer : Answer) (w : World) : World :=
  let ok := answer.isOk
  let isOpen := answer.leaves w.isOpen
  match client with
  | .mysql => { w with inTransaction := false, isOpen := isOpen }.log (.rolledBack ok)
  | .pgsql =>
      if w.inTransaction then { w with inTransaction := false, isOpen := isOpen }.log (.rolledBack ok)
      else w.log (.rolledBack false)
  | .sqlite => { w with inTransaction := w.inTransaction && !ok, isOpen := isOpen }.log (.rolledBack ok)

/-! ### Requests and answers -/

/-- The bytes of a text. -/
def text (s : String) : Bytes := ascii s.toList

/-- A statement that changes rows; a map of values is the list of what is put into it. -/
inductive Statement where
  | insertTable (table : String) (data : List (String × Bytes))
  | updateTable (table : String) (data : List (String × Bytes)) (cond : Bytes)
  | sqlQuery (sql : Bytes)

/-- What the database and the disk answer to the calls of one request. -/
structure Env (D : Type) where
  /-- There is a client, and it is connected. -/
  isConnected : Bool
  begin : Answer
  commit : Answer
  rollback : Answer
  exec : Statement → Bool
  /-- The rows of a query, unless it fails. -/
  records : Bytes → Option (List (HashMap Bytes))
  /-- `last_insert_id` behind an insertion. -/
  lastInsertId : ℤ
  /-- The path under which `file_save` has stored a file, unless it fails. -/
  fileSave : MultipartFile → Option Bytes
  /-- A `double` as an `int`. -/
  toInt : D → ℤ

/-- `HttpRequest`, as far as the handlers read it. -/
structure Request (D : Type) where
  method : HttpMethod
  params : Option (HashMap Bytes)
  form : Option (HashMap Bytes)
  json : Option (Obj D)
  multipart : Option MultipartResult

/-- The answer to a request: `sendStatus`, a text with its status, or the JSON of a success. -/
inductive Reply where
  | sendStatus (code : ℕ)
  | sendText (code : ℕ) (body : String)
  | sendJson (code : ℕ) (status idName : String) (id : ℤ)
deriving DecidableEq

/-- `INT_MAX`. -/
def intMax : ℕ := 2147483647

/-- The digits-only parsers of the file: a number that is not below `least`. -/
def parseInt (least : ℕ) (s : Bytes) : Option ℕ :=
  if s = [] ∨ s.any (!isdigit ·) then none
  else if decimalValue s < least ∨ intMax < decimalValue s then none
  else some (decimalValue s)

/-- `parse_positive_int`. -/
def parsePositiveInt (s : Option Bytes) : Option ℕ := s.bind fun s => parseInt 1 (cstr s)

/-- `parse_nonnegative_int`. -/
def parseNonnegativeInt (s : Option Bytes) : Option ℕ := s.bind fun s => parseInt 0 (cstr s)

/-- `snprintf` into a buffer: the text, unless it is cut off. -/
def snprintf (size : ℕ) (s : Bytes) : Option Bytes := if s.length < size then some s else none

/-- `hashmap_get_str`, and `MultipartResult_get_field` on the fields. -/
def getStr (map : Option (HashMap Bytes)) (key : String) : Option Bytes :=
  (map.bind (·.get (text key))).map cstr

/-- `getString` of a JSON object. -/
def getString {D : Type} (node : Obj D) (key : String) : Option Bytes :=
  match TemplateEngine.nodeGet node (text key) with
  | some (.jString s) => some (cstr s)
  | _ => none

/-- `getInt` of a JSON object. -/
def getInt {D : Type} (toInt : D → ℤ) (node : Obj D) (key : String) : ℤ :=
  match TemplateEngine.nodeGet node (text key) with
  | some (.jNumber d) => toInt d
  | _ => 0

/-- A text that is there and not empty. -/
def nonEmpty (s : Option Bytes) : Option Bytes := s.filter (· ≠ [])

/-- The file `attach` of a request, if it has data. -/
def attachOf (multipart : MultipartResult) : Option MultipartFile :=
  (multipart.files.get (text "attach")).filter fun attach => attach.data.getD [] ≠ []

/-- `attach->size`. -/
def sizeOf (attach : MultipartFile) : ℕ := (attach.data.getD []).length

/-! ### Steps the handlers share -/

section Steps

variable {D : Type} (client : Client) (env : Env D)

/-- `if (file_saved) self->file_delete(...)`. -/
def discard (upload : Option Bytes) (w : World) : World :=
  upload.elim w fun path => w.log (.deleted path)

/-- An exit from the transaction: the rollback, the new file, and the answer. -/
def abort (upload : Option Bytes) (reply : Reply) (w : World) : World × Reply :=
  (discard upload (rollback client env.rollback w), reply)

/-- The part of `write` and `modify` that saves the file of the request. -/
def withUpload (maxUploadSize : ℕ) (attach : Option MultipartFile) (w : World)
    (next : Option (MultipartFile × Bytes) → World → World × Reply) : World × Reply :=
  attach.elim (next none w) fun attach =>
    if sizeOf attach > maxUploadSize then (w, .sendText 413 "File too large. Max size exceeded.")
    else
      (env.fileSave attach).elim (w, .sendText 500 "File save failed.") fun path =>
        next (some (attach, path)) (w.log (.saved path))

/-- The beginning of the transaction. -/
def withTransaction (upload : Option Bytes) (failure : String) (w : World)
    (next : World → World × Reply) : World × Reply :=
  let (ok, w) := beginTransaction client env.begin w
  if ok then next w else (discard upload w, .sendText 500 failure)

/-- The end of the transaction. -/
def withCommit (upload : Option Bytes) (failure : String) (w : World) (next : World → World × Reply) :
    World × Reply :=
  let (ok, w) := commit client env.commit env.rollback w
  if ok then next w else abort client env upload (.sendText 500 failure) w

/-- A query within the transaction, in a buffer of the given size. -/
def withRecords (upload : Option Bytes) (size : ℕ) (sql : Bytes) (overflow failure : String) (w : World)
    (next : List (HashMap Bytes) → World × Reply) : World × Reply :=
  (snprintf size sql).elim (abort client env upload (.sendText 500 overflow) w) fun sql =>
    (env.records sql).elim (abort client env upload (.sendText 500 failure) w) next

/-- The query for the post of the request. -/
def postQuery (postId : ℕ) : Bytes :=
  text "SELECT id FROM board_posts WHERE id = " ++ decimal postId ++ text " AND is_deleted = 0"

/-- The values of an attachment. -/
def attachmentData (postId : Bytes) (attach : MultipartFile) (path : Bytes) : List (String × Bytes) :=
  [("post_id", postId), ("member_id", text "1"), ("file_name", attach.filename), ("saved_name", path),
    ("file_size", decimal (sizeOf attach)), ("mime_type", attach.contentType.getD octetStream)]

end Steps

/-! ### The handlers -/

section Handlers

variable {D : Type} (client : Client) (maxUploadSize : ℕ) (env : Env D) (req : Request D)

/-- The insertion of the attachment of a new post. -/
def insertAttachment (upload : MultipartFile × Bytes) (postId : ℤ) (w : World)
    (next : World × Reply) : World × Reply :=
  let failed := fun body => abort client env (some upload.2) (.sendText 500 body) w
  ((snprintf 32 (decimal postId.toNat)).bind fun pid =>
      (snprintf 32 (decimal (sizeOf upload.1))).map fun _ => pid).elim (failed "Buffer error.") fun pid =>
    if env.exec (.insertTable "board_attachments" (attachmentData pid upload.1 upload.2)) then next
    else failed "Attachment DB fail."

/-- `BoardHandler_write`. -/
def write (w : World) : World × Reply :=
  if req.method ≠ .post then (w, .sendStatus 405)
  else
    req.multipart.elim (w, .sendText 400 "Bad Request.") fun multipart =>
      if !env.isConnected then (w, .sendText 500 "DB unavailable.")
      else
        (nonEmpty (getStr (some multipart.fields) "title")).elim (w, .sendText 400 "Missing fields.")
          fun title =>
        (nonEmpty (getStr (some multipart.fields) "content")).elim (w, .sendText 400 "Missing fields.")
          fun content =>
        withUpload env maxUploadSize (attachOf multipart) w fun file w =>
          let upload := file.map Prod.snd
          withTransaction client env upload "DB TX failed." w fun w =>
            (snprintf 32 (text "1")).elim
              (abort client env upload (.sendText 500 "Buffer error.") w) fun mid =>
            let postOk := env.exec (.insertTable "board_posts"
              [("member_id", mid), ("title", title), ("content", content)])
            if !postOk || env.lastInsertId ≤ 0 || env.lastInsertId > intMax then
              abort client env upload (.sendText 500 "Invalid inserted post ID.") w
            else
              let finish := withCommit client env upload "Commit fail." w fun w =>
                (w, .sendJson 200 "success" "post_id" env.lastInsertId)
              file.elim finish fun file => insertAttachment client env file env.lastInsertId w finish

/-- The attachment that is stored for a post: the path, which may be empty, in the buffer of 512
bytes. -/
def oldPathOf (row : HashMap Bytes) : Option Bytes :=
  snprintf 512 ((getStr (some row) "saved_name").getD [])

/-- The change of the row of an attachment, or its insertion where there is none. -/
def storeAttachment (hasOldRow : Bool) (postId : Bytes) (upload : MultipartFile × Bytes) : Bool :=
  let data := attachmentData postId upload.1 upload.2
  if hasOldRow then
    (snprintf 64 (text "post_id=" ++ postId ++ text " AND is_deleted=0")).elim false fun cond =>
      env.exec (.updateTable "board_attachments" data cond)
  else env.exec (.insertTable "board_attachments" data)

/-- `BoardHandler_modify` from the change of the post on. -/
def modifyRows (postId : ℕ) (title content : Bytes) (file : Option (MultipartFile × Bytes))
    (hasOldRow : Bool) (oldPath : Bytes) (w : World) : World × Reply :=
  let upload := file.map Prod.snd
  (snprintf 64 (text "id=" ++ decimal postId ++ text " AND is_deleted=0")).elim
    (abort client env upload (.sendText 500 "Buffer error.") w) fun cond =>
  let updateOk := env.exec (.updateTable "board_posts" [("title", title), ("content", content)] cond)
  let finish := withCommit client env upload "DB commit failed." w fun w =>
    let w := if oldPath ≠ [] ∧ upload.any (oldPath ≠ ·) then w.log (.deleted oldPath) else w
    (w, .sendJson 200 "ok" "post_id" postId)
  if !updateOk then abort client env upload (.sendText 500 "DB query failed.") w
  else
    file.elim finish fun file =>
      ((snprintf 32 (decimal (sizeOf file.1))).bind fun _ => snprintf 32 (decimal postId)).elim
        (abort client env upload (.sendText 500 "Buffer error.") w) fun pid =>
      if storeAttachment env hasOldRow pid file then finish
      else abort client env upload (.sendText 500 "DB query failed.") w

/-- `BoardHandler_modify`. -/
def modify (w : World) : World × Reply :=
  if req.method ≠ .put then (w, .sendStatus 405)
  else
    req.multipart.elim (w, .sendText 400 "Bad Request.") fun multipart =>
      if !env.isConnected then (w, .sendText 500 "DB unavailable.")
      else
        (parsePositiveInt (getStr req.params "id")).elim (w, .sendText 400 "Invalid ID.") fun postId =>
        (nonEmpty (getStr (some multipart.fields) "title")).elim (w, .sendText 400 "Missing fields.")
          fun title =>
        (nonEmpty (getStr (some multipart.fields) "content")).elim (w, .sendText 400 "Missing fields.")
          fun content =>
        withUpload env maxUploadSize (attachOf multipart) w fun file w =>
          let upload := file.map Prod.snd
          withTransaction client env upload "DB TX init failed." w fun w =>
            withRecords client env upload 128 (postQuery postId) "Check query buffer overflow."
              "Check query failed." w fun rows =>
            if rows = [] then abort client env upload (.sendText 404 "Not found.") w
            else
              withRecords client env upload 256
                (text "SELECT saved_name FROM board_attachments WHERE post_id = " ++ decimal postId ++
                  text " AND is_deleted = 0 LIMIT 1")
                "Old att query buffer overflow." "Old attachment query failed." w fun rows =>
              rows.head?.elim (modifyRows client env postId title content file false [] w) fun row =>
                (oldPathOf row).elim
                  (abort client env upload (.sendText 500 "Attachment path too long.") w) fun oldPath =>
                modifyRows client env postId title content file true oldPath w

/-- The deletion of the files of a post. -/
def deleteAll (paths : List (HashMap Bytes)) (w : World) : World :=
  (paths.filterMap fun row => getStr (some row) "saved_name").foldl (fun w path => w.log (.deleted path)) w

/-- `BoardHandler_remove`. -/
def remove (w : World) : World × Reply :=
  if !env.isConnected then (w, .sendText 500 "DB unavailable.")
  else
    (parsePositiveInt (getStr req.params "id")).elim (w, .sendText 400 "Invalid ID.") fun postId =>
    withTransaction client env none "DB TX failed." w fun w =>
      withRecords client env none 128 (postQuery postId) "Buffer error." "Check query failed." w fun rows =>
      if rows = [] then abort client env none (.sendText 404 "Not found.") w
      else
        withRecords client env none 256
          (text "SELECT saved_name FROM board_attachments WHERE post_id = " ++ decimal postId)
          "Buffer error." "Att query failed." w fun paths =>
        let failed := fun body => abort client env none (.sendText 500 body) w
        let now := if client = .sqlite then text "datetime('now', 'localtime')" else text "NOW()"
        (snprintf 256 (text "UPDATE board_posts SET is_deleted = 1, deleted_at = " ++ now ++
          text " WHERE id = " ++ decimal postId)).elim (failed "Buffer error.") fun sql =>
        let postOk := env.exec (.sqlQuery sql)
        (snprintf 256 (text "UPDATE board_attachments SET is_deleted = 1 WHERE post_id = " ++
          decimal postId)).elim (failed "Buffer error.") fun sql =>
        let attOk := env.exec (.sqlQuery sql)
        if !postOk || !attOk then failed "Delete failed."
        else
          withCommit client env none "Commit failed." w fun w =>
            (deleteAll paths w, .sendJson 200 "success" "deleted_id" postId)

/-- The content and the parent of a comment, from the JSON or else from the form of the request; `none` if
the number of the parent is refused. -/
def commentFields : Option (Option Bytes × ℤ) :=
  match req.json.filter TemplateEngine.isObjectNode with
  | some json =>
      if getInt env.toInt json "parent_id" < 0 then none
      else some (getString json "content", getInt env.toInt json "parent_id")
  | none =>
      (nonEmpty (getStr req.form "parent_id")).elim (some (getStr req.form "content", 0)) fun parent =>
        (parsePositiveInt (some parent)).map fun n => (getStr req.form "content", n)

/-- The depth of a comment: 1 below another one, which has to be there and to lie at depth 0. -/
def withDepth (postId parentId : ℕ) (w : World) (next : ℕ → World × Reply) : World × Reply :=
  if parentId = 0 then next 0
  else
    withRecords client env none 256
      (text "SELECT depth FROM board_comments WHERE id = " ++ decimal parentId ++ text " AND post_id = " ++
        decimal postId ++ text " AND is_deleted = 0")
      "Buffer error." "Parent comment query failed." w fun rows =>
    rows.head?.elim (abort client env none (.sendText 404 "Parent comment missing or invalid.") w) fun row =>
    (parseNonnegativeInt (getStr (some row) "depth")).elim
      (abort client env none (.sendText 500 "Invalid parent comment metadata.") w) fun parentDepth =>
    if parentDepth ≠ 0 then abort client env none (.sendText 400 "Reply depth limit exceeded.") w
    else next 1

/-- The insertion of a comment. -/
def insertComment (postId parentId depth : ℕ) (content : Bytes) (w : World) : World × Reply :=
  let parent := if parentId = 0 then [] else [("parent_id", decimal parentId)]
  let data := [("post_id", decimal postId), ("member_id", text "1"), ("content", content),
    ("depth", decimal depth)] ++ parent
  if !env.exec (.insertTable "board_comments" data) || env.lastInsertId ≤ 0 || env.lastInsertId > intMax then
    abort client env none (.sendText 500 "Invalid inserted comment ID.") w
  else
    withCommit client env none "Commit failed." w fun w =>
      (w, .sendJson 201 "success" "comment_id" env.lastInsertId)

/-- `BoardHandler_comment_write`. -/
def commentWrite (w : World) : World × Reply :=
  if !env.isConnected then (w, .sendText 500 "DB unavailable.")
  else
    (parsePositiveInt (getStr req.params "id")).elim (w, .sendText 400 "Invalid post ID.") fun postId =>
    (commentFields env req).elim (w, .sendText 400 "Invalid parent ID.") fun fields =>
    (nonEmpty fields.1).elim (w, .sendText 400 "No content.") fun content =>
    withTransaction client env none "DB TX failed." w fun w =>
      withRecords client env none 128 (postQuery postId) "Buffer error." "Post query failed." w fun rows =>
      if rows = [] then abort client env none (.sendText 404 "Post not found.") w
      else
        withDepth client env postId fields.2.toNat w fun depth =>
        if [decimal postId, text "1", decimal depth, decimal fields.2.toNat].any (32 ≤ ·.length) then
          abort client env none (.sendText 500 "Buffer error.") w
        else insertComment client env postId fields.2.toNat depth content w

end Handlers

/-! ### Runs -/

/-- The handlers. -/
inductive Handler where
  | write | modify | remove | commentWrite
deriving DecidableEq

/-- A request, the handler it goes to, and the answers that are given meanwhile. -/
structure Step (D : Type) where
  handler : Handler
  req : Request D
  env : Env D

variable {D : Type}

/-- A request is served by its handler. -/
def serve (client : Client) (maxUploadSize : ℕ) (step : Step D) (w : World) : World × Reply :=
  match step.handler with
  | .write => write client maxUploadSize step.env step.req w
  | .modify => modify client maxUploadSize step.env step.req w
  | .remove => remove client step.env step.req w
  | .commentWrite => commentWrite client step.env step.req w

/-- What a sequence of requests leads to, one after the other: the client and the database are as the request
before has left them. -/
def run (client : Client) (maxUploadSize : ℕ) : World → List (Step D) → List (World × Reply)
  | _, [] => []
  | w, step :: steps =>
      let result := serve client maxUploadSize step { w with trace := [] }
      result :: run client maxUploadSize result.1 steps

/-- No transaction is open, and no request has been served. -/
def World.init : World := ⟨false, false, []⟩

end BoardHandler
