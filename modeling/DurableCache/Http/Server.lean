import DurableCache.Engine
import DurableCache.Http.Bodies
import DurableCache.Http.MediaType
import DurableCache.Http.Percent
import DurableCache.Http.SetRequest
import DurableCache.Http.Target
import DurableCache.Http.Token

/-!
# The server

The server maps seven resources onto calls of the engine. A request for an unknown path or
with the wrong method never reaches the engine, and neither does one whose key or body cannot
be read.
-/

namespace DurableCache.Http

/-- A request as it comes in. -/
structure Request where
  method : String
  target : String
  /-- Names and values of the headers. -/
  headers : List (String × String)
  body : String

/-- The body of a response. -/
inductive Body where
  | empty
  | text (s : String)
  | json (v : Json.Value)

/-- A response as it goes out. -/
structure Response where
  status : Nat
  /-- Names and values of the headers. -/
  headers : List (String × String)
  body : Body

/-- What a path leads to. The keys are percent encoded. -/
inductive Resource where
  | set
  | get (key : String)
  | delete (key : String)
  | commit
  | clear
  | stats
  | health
  deriving DecidableEq, Repr

namespace Resource

/-- The resource at a path. A key is one segment that is not empty. -/
def ofPath? (path : List Char) : Option Resource :=
  match (path.splitOn '/').map String.ofList with
  | ["", "set"] => some .set
  | ["", "get", key] => if key = "" then none else some (.get key)
  | ["", "del", key] => if key = "" then none else some (.delete key)
  | ["", "commit"] => some .commit
  | ["", "clear"] => some .clear
  | ["", "stats"] => some .stats
  | ["", "health"] => some .health
  | _ => none

/-- The methods of a resource, as a header lists them. -/
def methods : Resource → List String
  | .set => ["PUT"]
  | .get _ | .stats | .health => ["GET", "HEAD"]
  | .delete _ | .clear => ["DELETE"]
  | .commit => ["POST"]

/-- The header that lists the methods of a resource. -/
def allow (r : Resource) : String × String := ("allow", ",".intercalate r.methods)

end Resource

/-- The value of a header. -/
def Request.header? (r : Request) (name : String) : Option String :=
  (r.headers.find? fun h => h.1.toLower == name).map Prod.snd

/-- The greatest number of bytes in a body. -/
def longestBody : Nat := 2 * 1024 * 1024

/-- A response with a text. -/
def textResponse (status : Nat) (s : String) : Response :=
  ⟨status, [("content-type", "text/plain; charset=utf-8")], .text s⟩

/-- A response with a JSON value. -/
def jsonResponse (status : Nat) (v : Json.Value) : Response :=
  ⟨status, [("content-type", "application/json")], .json v⟩

/-- A response that reports an error. -/
def errorResponse (e : CacheError) : Response := jsonResponse e.status (errorBody e.display)

/-- A response to a body that cannot be read. -/
def unreadableBody : Json.ReadError → Response
  | .mismatch place cause =>
    let prefixText := match place with
      | none => ""
      | some place => place.describe ++ ": "
    textResponse 422
      ("Failed to deserialize the JSON body into the target type: " ++ prefixText ++
        cause.message)
  | _ => textResponse 400 "Failed to parse the request body as JSON"

/-- The request to write that a body holds, or the response that refuses it. Text behind a
complete value is passed over. -/
def Request.readSet (r : Request) : Except Response SetRequest :=
  if !(r.header? "content-type").any MediaType.isJson then
    .error (textResponse 415 "Expected request with `Content-Type: application/json`")
  else if longestBody < r.body.utf8ByteSize then
    .error (textResponse 413 "Failed to buffer the request body: length limit exceeded")
  else
    match Json.decodePart SetRequest.shape.read r.body with
    | .error e => .error (unreadableBody e)
    | .ok request =>
      match request.complaint? with
      | some reason => .error (errorResponse (.invalidRequest reason))
      | none => .ok request

/-- The response to a key that is no text. -/
def unreadableKey : Response := textResponse 400 "Invalid URL: Invalid UTF-8 in `key`"

variable {σ : Type} [BlobStore σ]

/-- Answers a request that reaches a resource. -/
def serve (e : Engine σ) (now : Timestamp) (r : Request) :
    Resource → Except Abort Response × Engine σ
  | .set =>
    match r.readSet with
    | .error response => (.ok response, e)
    | .ok request =>
      match e.put now request.key request.value request.timeToLive with
      | (.ok (), e) => (.ok (jsonResponse 200 (setBody request.key)), e)
      | (.error why, e) => (.error why, e)
  | .get key =>
    match Percent.decode? key with
    | none => (.ok unreadableKey, e)
    | some key =>
      match e.get now key with
      | (.ok (some value), e) => (.ok (jsonResponse 200 (valueBody key value)), e)
      | (.ok none, e) => (.ok (errorResponse (.notFound key)), e)
      | (.error why, e) => (.error why, e)
  | .delete key =>
    match Percent.decode? key with
    | none => (.ok unreadableKey, e)
    | some key =>
      match e.invalidate key with
      | (true, e) => (.ok (jsonResponse 200 (deleteBody key)), e)
      | (false, e) => (.ok (errorResponse (.notFound key)), e)
  | .commit =>
    match e.commit now with
    | (.done report, e) => (.ok (jsonResponse 200 (commitBody report)), e)
    | (.failed error, e) => (.ok (errorResponse error), e)
    | (.abandoned _, e) => (.ok (errorResponse (.internal "task")), e)
  | .clear =>
    let (removed, e) := e.clear
    (.ok (jsonResponse 200 (clearBody removed)), e)
  | .stats =>
    let stats := e.cache.stats
    match stats.hitRate? with
    | none => (.error .sizeOverflow, e)
    | some rate => (.ok (jsonResponse 200 (statsBody stats rate)), e)
  | .health => ((readClock now).map fun now => jsonResponse 200 (healthBody e.ready now), e)

/-- The header that lets scripts of all origins read a response. -/
def anyOrigin : String × String := ("access-control-allow-origin", "*")

/-- A response that every origin may read. -/
def Response.forAnyOrigin (r : Response) : Response := { r with headers := anyOrigin :: r.headers }

/-- The answer to a script that asks what it may send. -/
def optionsResponse (resource : Option Resource) : Response :=
  ⟨200,
    [("access-control-allow-methods", "*"), ("access-control-allow-headers", "*")] ++
      (resource.map Resource.allow).toList,
    .empty⟩

/-- Answers a request whose target names a path. -/
def respondAt (e : Engine σ) (now : Timestamp) (r : Request) (path : List Char) :
    Except Abort Response × Engine σ :=
  let resource := Resource.ofPath? path
  if r.method = "OPTIONS" then (.ok (optionsResponse resource), e)
  else
    match resource with
    | none => (.ok ⟨404, [], .empty⟩, e)
    | some resource =>
      if !resource.methods.contains r.method then (.ok ⟨405, [resource.allow], .empty⟩, e)
      else
        match serve e now r resource with
        | (.ok response, e) =>
          (.ok (if r.method = "HEAD" then { response with body := .empty } else response), e)
        | abandoned => abandoned

/-- The greatest number of bytes in the name of a header. -/
def longestHeaderName : Nat := 65535

/-- Whether a character may stand in the value of a header: all but controls, and the tab. -/
def isHeaderChar (c : Char) : Bool := c = '\t' || 0x20 ≤ c.toNat && c.toNat != 0x7f

/-- Whether a header has a good name and a good value. -/
def isHeader (name value : String) : Bool :=
  isToken name && name.utf8ByteSize ≤ longestHeaderName && value.toList.all isHeaderChar

/-- The path that a request names, or nothing if its method, its target or a header is none. -/
def Request.path? (r : Request) : Option (List Char) :=
  if isToken r.method && r.headers.all fun h => isHeader h.1 h.2 then targetPath? r.target
  else none

/-- Answers a request; nothing if its method, its target or a header is none. -/
def respond (e : Engine σ) (now : Timestamp) (r : Request) :
    Option (Except Abort Response) × Engine σ :=
  match r.path? with
  | none => (none, e)
  | some path =>
    let (response, e) := respondAt e now r path
    (some (response.map Response.forAnyOrigin), e)

end DurableCache.Http
