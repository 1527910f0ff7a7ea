import DurableCache.Error
import DurableCache.Table

/-!
# Blob stores

A blob store is the durable half of the cache: a map from keys to blobs that the host
supplies. It may hold writes back until it is flushed, and any call may fail or break down.
-/

namespace DurableCache

/-- Blobs by key. -/
abbrev BlobMap := Table String String

/-- A durable map from keys to blobs whose state is a `σ`. -/
class BlobStore (σ : Type) where
  /-- All keys with their blobs. -/
  getAll : σ → Outcome BlobMap × σ
  /-- The blob under a key. -/
  get : String → σ → Outcome (Option String) × σ
  /-- Writes a blob under a key. -/
  put : String → String → σ → Outcome Unit × σ
  /-- Deletes the blob under a key, if any. -/
  remove : String → σ → Outcome Unit × σ
  /-- Makes the writes so far durable. -/
  flush : σ → Outcome Unit × σ

/-- A blob store in memory: every write is durable at once, and no call fails. -/
structure MemoryBlobs where
  blobs : BlobMap
  deriving DecidableEq

namespace MemoryBlobs

instance : Inhabited MemoryBlobs := ⟨⟨∅⟩⟩

instance : BlobStore MemoryBlobs where
  getAll s := (.done s.blobs, s)
  get key s := (.done (s.blobs.find? key), s)
  put key blob s := (.done (), ⟨s.blobs.insert key blob⟩)
  remove key s := (.done (), ⟨s.blobs.erase key⟩)
  flush s := (.done (), s)

end MemoryBlobs

end DurableCache
