import DurableCache.Json.Error
import DurableCache.Json.Writer

/-!
# Errors of the cache

An error is the cause that a caller sees, with one text and one status for each kind. A
call that is abandoned is something else: it never comes to an answer, and what it did up
to then stays done.
-/

namespace DurableCache

/-- Why a call was abandoned before it answered. -/
inductive Abort where
  /-- A size or a sum of sizes does not fit into a word. -/
  | sizeOverflow
  /-- A part that the host supplies broke down. -/
  | hostFault
  /-- The call goes on for ever. -/
  | endless
  /-- The clock has run past the last time that it can show. -/
  | clockOverrun
  deriving DecidableEq, Repr

/-- What can go wrong in a call that answers. -/
inductive CacheError where
  | notFound (key : String)
  | invalidRequest (reason : String)
  | persistence (reason : String)
  /-- A file of blobs that is not a JSON object of strings. -/
  | unreadable (file : String) (cause : Json.ReadError)
  | serialization (cause : Json.ReadError)
  /-- A failure of the file system, with its reason if that is known. -/
  | io (reason : Option String)
  | workerPool (reason : String)
  | internal (reason : String)
  deriving DecidableEq, Repr

/-- The text of an error. -/
def CacheError.display : CacheError → String
  | .notFound key => "Key not found: " ++ key
  | .invalidRequest reason => "Invalid request: " ++ reason
  | .persistence reason => "Persistence error: " ++ reason
  | .unreadable file cause =>
    "Persistence error: " ++ file ++ " is unreadable: " ++ cause.message
  | .serialization cause => "Serialization error: " ++ cause.message
  | .io none => "I/O error"
  | .io (some reason) => "I/O error: " ++ reason
  | .workerPool reason => "Worker pool error: " ++ reason
  | .internal reason => "Internal error: " ++ reason

/-- The status of a response that reports an error. -/
def CacheError.status : CacheError → Nat
  | .notFound _ => 404
  | .invalidRequest _ => 400
  | .workerPool _ => 503
  | .persistence _ | .unreadable _ _ | .serialization _ | .io _ | .internal _ => 500

/-- The body of a response that reports `message`. -/
def errorBody (message : String) : Json.Value := .object [("error", .string message)]

/-- How a call ended. -/
inductive Outcome (α : Type) where
  | done (result : α)
  | failed (error : CacheError)
  | abandoned (why : Abort)
  deriving DecidableEq, Repr

/-- Why a call was abandoned, unless it answered. -/
def abort? {α : Type} : Except Abort α → Option Abort
  | .ok _ => none
  | .error why => some why

/-- Why a call was abandoned, unless it answered or failed. -/
def Outcome.abort? {α : Type} : Outcome α → Option Abort
  | .abandoned why => some why
  | .done _ | .failed _ => none

end DurableCache
