import DurableCache.Table

/-!
# Directories

A directory holds files and directories by path. A path is a text of parts with slashes
between them: a dot leads nowhere, two dots lead to the directory above, and every other part
is the name of a node. Names and paths have a greatest length and no zero character. All parts
but the last have to lead to directories that are there.
-/

namespace DurableCache

/-- What a path leads to. -/
inductive Node where
  /-- A file, with its content if that is text. -/
  | file (text : Option String)
  | directory
  deriving DecidableEq, Repr

/-- Why a path leads nowhere. -/
inductive PathFault where
  /-- Something on the way is not there. -/
  | missing
  /-- The path is no path, or something that it needs is of another kind. -/
  | unusable
  deriving DecidableEq, Repr

/-- The nodes below a directory, and those above it that have been made, by their places. -/
structure Directory where
  nodes : Table String Node
  deriving DecidableEq

namespace Directory

/-- The directory without nodes. -/
def empty : Directory := ⟨∅⟩

instance : Inhabited Directory := ⟨empty⟩

/-- The greatest number of bytes in a name. -/
def longestName : Nat := 255

/-- The greatest number of bytes in a path that begins in the directory. -/
def longestPath : Nat := 4079

/-- Whether a part of a path can be the name of a node. -/
def isName (name : String) : Bool :=
  name.utf8ByteSize ≤ longestName && !name.toList.contains '\x00'

/-- Whether a text can be a path. -/
def isPath (path : String) : Bool :=
  path.utf8ByteSize ≤ longestPath && !path.toList.contains '\x00'

/-- The parts of a path. Slashes in a row count as one. -/
def partsOf (path : String) : List String :=
  ((path.toList.splitOn '/').map String.ofList).filter (· != "")

/-- The path of a list of parts. -/
def pathOf (parts : List String) : String := "/".intercalate parts

/-- Whether a path ends in a slash. -/
def endsInSlash (path : String) : Bool := path.toList.getLast? == some '/'

/-- The path of a name in a folder. -/
def join (folder name : String) : String :=
  if folder = "" || endsInSlash folder then folder ++ name else folder ++ "/" ++ name

/-- A path less what leads nowhere at its beginning. -/
def shown : List Char → List Char
  | '/' :: rest => shown rest
  | '.' :: '/' :: rest => shown rest
  | path => path

/-- A place is the names from the directory down to a node. A place above the directory begins
with pairs of dots. -/
abbrev Place := List String

/-- The place above a place. -/
def above (place : Place) : Place :=
  if place.all (· == "..") then ".." :: place else place.dropLast

/-- The node at a place. -/
def nodeAt? (d : Directory) (place : Place) : Option Node := d.nodes.find? (pathOf place)

/-- Goes on from the place of a directory to the directory that a part of a path leads to. -/
def enter (d : Directory) (place : Place) (part : String) : Except PathFault Place :=
  if part = "." then .ok place
  else if part = ".." then .ok (above place)
  else if !isName part then .error .unusable
  else
    match d.nodeAt? (place ++ [part]) with
    | some .directory => .ok (place ++ [part])
    | some (.file _) => .error .unusable
    | none => .error .missing

/-- The place that a list of parts leads to, and the node there. -/
def follow (d : Directory) (parts : List String) : Except PathFault (Place × Option Node) :=
  match parts.getLast? with
  | none => .ok ([], some .directory)
  | some last =>
    (parts.dropLast.foldlM d.enter []).bind fun place =>
      if last = "." then .ok (place, some .directory)
      else if last = ".." then .ok (above place, some .directory)
      else if !isName last then .error .unusable
      else .ok (place ++ [last], d.nodeAt? (place ++ [last]))

/-- The place that a path leads to, and the node there. -/
def locate (d : Directory) (path : String) : Except PathFault (Place × Option Node) :=
  if isPath path then d.follow (partsOf path) else .error .unusable

/-- The node at a path. A path on which something is missing leads to no node. -/
def find? (d : Directory) (path : String) : Except PathFault (Option Node) :=
  match d.locate path with
  | .ok (_, node) => .ok node
  | .error .missing => .ok none
  | .error .unusable => .error .unusable

/-- Makes one directory, unless it is there. -/
def makeOne (d : Directory) (parts : List String) : Except PathFault Directory :=
  match d.follow parts with
  | .error why => .error why
  | .ok (_, some .directory) => .ok d
  | .ok (_, some (.file _)) => .error .unusable
  | .ok (place, none) => .ok ⟨d.nodes.insert (pathOf place) .directory⟩

/-- Makes directories one after the other, up to the first that cannot be made. -/
def makeEach : List (List String) → Directory → Except PathFault Unit × Directory
  | [], d => (.ok (), d)
  | parts :: rest, d =>
    match d.makeOne parts with
    | .error why => (.error why, d)
    | .ok d => makeEach rest d

/-- The first parts of a path, from one part on to all parts. -/
def stations (parts : List String) : List (List String) :=
  (List.range parts.length).map fun i => parts.take (i + 1)

/-- Makes the directories of a path that are not there yet. Dots at the end of a path do not
make the directory in front of them. What was made before a fault stays. -/
def makePath (d : Directory) (path : String) : Except PathFault Unit × Directory :=
  if isPath path then
    let parts := partsOf path
    let stem := (parts.reverse.dropWhile (· == ".")).reverse
    makeEach (stations stem.dropLast ++ [parts]) d
  else (.error .unusable, d)

/-- Writes a file, in place of any file at the path. -/
def write (d : Directory) (path : String) (text : Option String) : Except PathFault Directory :=
  if endsInSlash path then .error .unusable
  else
    match d.locate path with
    | .error why => .error why
    | .ok (_, some .directory) => .error .unusable
    | .ok (place, _) => .ok ⟨d.nodes.insert (pathOf place) (.file text)⟩

/-- Moves a file, in place of any file at the other path. -/
def rename (d : Directory) (source target : String) : Except PathFault Directory :=
  match d.locate source with
  | .ok (place, some (.file text)) =>
    (d.write target text).map fun d => ⟨d.nodes.erase (pathOf place)⟩
  | .ok _ => .error .unusable
  | .error why => .error why

/-- Deletes a file. -/
def delete (d : Directory) (path : String) : Except PathFault Directory :=
  match d.locate path with
  | .ok (place, some (.file _)) => .ok ⟨d.nodes.erase (pathOf place)⟩
  | .ok (_, some .directory) => .error .unusable
  | .ok (_, none) => .error .missing
  | .error why => .error why

/-- The nodes that stand directly in the directory. -/
def topLevel (d : Directory) : Table String Node :=
  d.nodes.filter fun place _ => !place.toList.contains '/'

end Directory

end DurableCache
