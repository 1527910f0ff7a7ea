import DurableCache.Blobs
import DurableCache.Blobs.Directory
import DurableCache.Json.Decode
import DurableCache.Json.Writer
import DurableCache.Text.Blank
import DurableCache.Text.Quoted

/-!
# Blob files

The blobs of a namespace are one JSON object in one file. Writes are held in memory until a
flush, which writes a temporary file beside it and moves that over the blob file, so the
blob file is never seen half written.
-/

namespace DurableCache

/-- The blobs of a namespace, and the directory in which they are saved. -/
structure FileBlobs where
  /-- The whole directory that the store works in. -/
  directory : Directory
  /-- The path from that directory to the blob file's own. -/
  folder : String
  namespaceName : String
  blobs : BlobMap
  /-- Whether the blobs have changed since they were last saved. -/
  dirty : Bool
  deriving DecidableEq

namespace FileBlobs

/-- The name of a namespace's blob file. -/
def fileName (namespaceName : String) : String := namespaceName ++ ".json"

/-- The name of the file that a flush writes first. It is derived from the blob file's name by
what stands in front of the extension; where that is two dots it leads to the directory above,
so that such a namespace cannot be flushed. -/
def temporaryName (namespaceName : String) : String :=
  if namespaceName = "." then ".." else namespaceName ++ ".json.tmp"

/-- The path of the blob file. -/
def file (s : FileBlobs) : String := Directory.join s.folder (fileName s.namespaceName)

/-- The path of the temporary file. -/
def temporaryFile (s : FileBlobs) : String :=
  Directory.join s.folder (temporaryName s.namespaceName)

/-- The path of the blob file as it is shown. -/
def shownFile (s : FileBlobs) : String := String.ofList (Directory.shown s.file.toList)

/-- Whether a namespace can be part of a file name: it is not empty and has no slash. -/
def isNamespace (name : String) : Bool :=
  name != "" && !name.toList.any fun c => c = '/' || c = '\\'

/-- The error of a namespace that cannot be part of a file name. -/
def invalidNamespace (name : String) : CacheError :=
  .invalidRequest ("Invalid blob store namespace: " ++ Text.quoted name)

/-- The text of a blob file. Its members are written in the order of their keys; they may be read in
any order. -/
def encode (blobs : BlobMap) : String :=
  (Json.Value.object (blobs.rows.map fun row => (row.1, .string row.2))).render

/-- Reads the text of a blob file. Blank text holds no blobs. -/
def decode (text : String) : Except Json.ReadError BlobMap :=
  if (Text.trim text.toList).isEmpty then .ok ∅
  else (Json.decode (Json.readMap Json.readText) text).map Table.ofList

/-- The error of a file that cannot be used. -/
def unusable : CacheError := .io none

/-- The blobs of a namespace as the directory has them. A file that is not there holds none. -/
def load (d : Directory) (folder namespaceName : String) : Except CacheError BlobMap :=
  match d.find? (Directory.join folder (fileName namespaceName)) with
  | .ok none => .ok ∅
  | .ok (some (.file (some text))) =>
    (decode text).mapError (.unreadable (fileName namespaceName))
  | _ => .error unusable

/-- Opens a namespace in a folder, which is made if it is not there. The directory that is
answered beside the store is also the one that a failed opening leaves behind. -/
def openIn (d : Directory) (folder namespaceName : String) :
    Except CacheError FileBlobs × Directory :=
  if !isNamespace namespaceName then (.error (invalidNamespace namespaceName), d)
  else
    match d.makePath folder with
    | (.error _, d) => (.error unusable, d)
    | (.ok (), d) =>
      match load d folder namespaceName with
      | .error e => (.error e, d)
      | .ok blobs =>
        (.ok { directory := d, folder, namespaceName, blobs, dirty := false }, d)

/-- Writes the temporary file and moves it over the blob file. If the second step fails the
temporary file stays. -/
def save (s : FileBlobs) : Except CacheError Unit × FileBlobs :=
  match s.directory.write s.temporaryFile (some (encode s.blobs)) with
  | .error _ => (.error unusable, s)
  | .ok written =>
    match written.rename s.temporaryFile s.file with
    | .error _ => (.error unusable, { s with directory := written })
    | .ok saved => (.ok (), { s with directory := saved, dirty := false })

instance : BlobStore FileBlobs where
  getAll s := (.done s.blobs, s)
  get key s := (.done (s.blobs.find? key), s)
  put key blob s := (.done (), { s with blobs := s.blobs.insert key blob, dirty := true })
  remove key s :=
    if s.blobs.contains key then
      (.done (), { s with blobs := s.blobs.erase key, dirty := true })
    else (.done (), s)
  flush s :=
    if s.dirty then
      match s.save with
      | (.ok (), s) => (.done (), s)
      | (.error e, s) => (.failed e, s)
    else (.done (), s)

end FileBlobs

end DurableCache
