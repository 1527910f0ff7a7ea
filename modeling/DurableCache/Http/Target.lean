/-!
# Request targets

A request names its target by a path, by a path behind a scheme and an authority, by an
authority alone or by an asterisk. Only the path matters; what follows a question mark or a
number sign is passed over.
-/

namespace DurableCache.Http

/-- Whether a character may stand in a path as it is. -/
def isPathChar (c : Char) : Bool :=
  let n := c.toNat
  n == 0x21 || (0x24 ≤ n && n ≤ 0x3b) || n == 0x3d || (0x40 ≤ n && n ≤ 0x5f) ||
    (0x61 ≤ n && n ≤ 0x7a) || n == 0x7c || 0x7e ≤ n || c == '"' || c == '{' || c == '}'

/-- Whether a character may stand in a query as it is. -/
def isQueryChar (c : Char) : Bool :=
  let n := c.toNat
  n == 0x21 || (0x24 ≤ n && n ≤ 0x3b) || n == 0x3d || 0x3f ≤ n

/-- The path of a text that is a path with or without a query. -/
def pathOf? (s : List Char) : Option (List Char) :=
  let path := s.takeWhile fun c => c != '?' && c != '#'
  let query := match s.dropWhile fun c => c != '?' && c != '#' with
    | '?' :: rest => rest.takeWhile fun c => c != '#'
    | _ => []
  if path.all isPathChar && query.all isQueryChar then some path else none

/-- Whether a character without a meaning of its own may stand in an authority. -/
def isAuthorityChar (c : Char) : Bool :=
  c.isAlphanum || ['-', '.', '_', '~', '!', '$', '&', '(', ')', '*', '+', ',', ';', '=',
    Char.ofNat 0x27].contains c

/-- The greatest number of characters in a scheme. -/
def longestScheme : Nat := 64

/-- Whether a text begins with a scheme, and the text behind the scheme with its colon and slashes.
A scheme may be empty; one that is too long gives nothing. -/
def splitScheme? (s : List Char) : Option (Bool × List Char) :=
  let isSchemeChar (c : Char) : Bool := c.isAlphanum || c == '+' || c == '-' || c == '.'
  match s.dropWhile isSchemeChar with
  | ':' :: '/' :: '/' :: rest =>
    if longestScheme < (s.takeWhile isSchemeChar).length then none else some (true, rest)
  | _ => some (false, s)

/-- What has been seen of an authority. -/
structure Authority where
  /-- The colons behind the last at sign or closing bracket. -/
  colons : Nat
  /-- Whether there was an opening bracket. -/
  opened : Bool
  /-- Whether there was a closing bracket. -/
  closed : Bool
  /-- Whether there was an escape behind the last at sign or closing bracket. -/
  escaped : Bool
  /-- Whether the last character was an at sign. -/
  atSign : Bool

namespace Authority

/-- Nothing has been seen yet. -/
def start : Authority := ⟨0, false, false, false, false⟩

/-- The greatest number of colons in front of an at sign, between brackets or in the host. -/
def mostColons : Nat := 8

/-- Sees one more character. At signs and closing brackets end what may hold colons and escapes
in front of the host, and brackets enclose one part. -/
def see? (a : Authority) (c : Char) : Option Authority :=
  match c with
  | ':' => if a.colons < mostColons then some { a with colons := a.colons + 1, atSign := false }
    else none
  | '[' => if a.escaped || a.opened then none else some { a with opened := true, atSign := false }
  | ']' => if !a.opened || a.closed then none else some ⟨0, true, true, false, false⟩
  | '@' => some { a with colons := 0, escaped := false, atSign := true }
  | '%' => some { a with escaped := true, atSign := false }
  | c => if isAuthorityChar c then some { a with atSign := false } else none

/-- Whether an authority may end here: its brackets are closed, and its host is there and has
no escapes and at most one port. -/
def isComplete (a : Authority) : Bool :=
  a.opened == a.closed && a.colons ≤ 1 && !a.escaped && !a.atSign

end Authority

/-- Whether a text can be an authority. -/
def isAuthority (s : List Char) : Bool :=
  !s.isEmpty && (s.foldlM Authority.see? .start).any Authority.isComplete

/-- The greatest number of bytes in a target. -/
def longestTarget : Nat := 65534

/-- The path that a target names, or nothing if the text is no target. An asterisk and an
authority name a path that leads nowhere. -/
def targetPath? (target : String) : Option (List Char) :=
  if longestTarget < target.utf8ByteSize then none
  else
    match target.toList with
    | [] => none
    | ['*'] => some ['*']
    | '/' :: rest => pathOf? ('/' :: rest)
    | s =>
      match splitScheme? s with
      | none => none
      | some (false, _) => if isAuthority s then some [] else none
      | some (true, rest) =>
        let inAuthority (c : Char) : Bool := c != '/' && c != '?' && c != '#'
        if isAuthority (rest.takeWhile inAuthority) then
          (pathOf? (rest.dropWhile inAuthority)).map fun path =>
            if path.isEmpty then ['/'] else path
        else none

example : targetPath? "http://u:p@h:80/set?q" = some ['/', 's', 'e', 't'] := by decide
example : targetPath? "http://h" = some ['/'] := by decide
example : targetPath? "http://[::1%25e]" = some ['/'] := by decide
example : targetPath? "http://h:80:90" = none := by decide

end DurableCache.Http
