import DurableCache.Http.Token

/-!
# Media types

A media type has a type, a subtype and parameters. It is JSON if it is an application type
whose subtype is JSON or ends in a JSON suffix.
-/

namespace DurableCache.Http.MediaType

/-- Whether a character may stand in a quoted value. -/
def isQuotable (c : Char) : Bool := 0x20 ≤ c.toNat && c.toNat ≤ 0x7e

/-- What stands behind a quoted value, by the text behind its opening quote. The value has at
least one character, and that one may be a quote itself. -/
def afterQuoted? : List Char → Option (List Char)
  | [] => none
  | first :: rest =>
    let inside (c : Char) : Bool := c != '"'
    match rest.dropWhile inside with
    | [] => none
    | _ :: behind =>
      if isQuotable first && (rest.takeWhile inside).all isQuotable then some behind else none

/-- Whether a text behind a semicolon is a list of parameters, in at most `rounds` rounds. -/
def areParameters : (rounds : Nat) → List Char → Bool
  | 0, _ => false
  | _ + 1, [] => true
  | rounds + 1, ' ' :: rest => areParameters rounds rest
  | rounds + 1, s =>
    let name := s.takeWhile isTokenChar
    match s.dropWhile isTokenChar with
    | '=' :: '"' :: quoted =>
      !name.isEmpty &&
        match (afterQuoted? quoted).map fun behind => behind.dropWhile (· == ' ') with
        | some [] => true
        | some (';' :: rest) => areParameters rounds rest
        | _ => false
    | '=' :: value =>
      !name.isEmpty &&
        match value.dropWhile isTokenChar with
        | [] => true
        | ';' :: rest => !(value.takeWhile isTokenChar).isEmpty && areParameters rounds rest
        | _ => false
    | _ => false

/-- The subtype up to its last plus sign, and the suffix behind that sign. A plus sign at the
beginning is part of the subtype. -/
def splitSuffix (subtype : List Char) : List Char × Option (List Char) :=
  let backwards := subtype.reverse
  let suffix := (backwards.takeWhile (· != '+')).reverse
  match backwards.dropWhile (· != '+') with
  | _ :: stem => if stem.isEmpty then (subtype, none) else (stem.reverse, some suffix)
  | [] => (subtype, none)

/-- Whether a media type is JSON. -/
def isJson (mediaType : String) : Bool :=
  let s := mediaType.toList
  let isName (name : List Char) (expected : String) : Bool :=
    name.map Char.toLower == expected.toList
  match s.dropWhile isTokenChar with
  | '/' :: rest =>
    let subtype := rest.takeWhile isTokenChar
    let parameters := match rest.dropWhile isTokenChar with
      | [] => true
      | ';' :: text => areParameters (text.length + 1) text
      | _ => false
    let (stem, suffix) := splitSuffix subtype
    isName (s.takeWhile isTokenChar) "application" && !subtype.isEmpty && parameters &&
      (isName stem "json" || suffix.any fun name => isName name "json")
  | _ => false

example : isJson "application/json" = true := by decide
example : isJson "Application/JSON; charset=utf-8" = true := by decide
example : isJson "application/vnd.api+json;" = true := by decide
example : isJson "application/json; a=\"b c\" ;d" = false := by decide
example : isJson "application/json; a=\"\"" = false := by decide
example : isJson "text/json" = false := by decide
example : isJson "application/json charset=utf-8" = false := by decide

end DurableCache.Http.MediaType
