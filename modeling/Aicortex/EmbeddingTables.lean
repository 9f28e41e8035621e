import Aicortex.Schema

/-!
The rows of the embedding pipeline: the recorded model revisions, the chunks a memory
was cut into, and the vectors computed from them.
-/

namespace Aicortex.EmbeddingTables
open Aicortex.Text Aicortex.Schema
open Aicortex.Claims hiding Unit
set_option linter.unusedSimpArgs false

abbrev Bytes := List UInt8

/-- What a provider is compared on: another model, width or normalization is another identity. -/
structure ModelIdentity where
  modelId : String
  dims : Nat
  normalized : Bool
  deriving Repr, DecidableEq

/-- A recorded model revision. -/
structure ModelRow where
  identity : ModelIdentity
  revision : Nat
  firstSeen : Nat
  active : Bool
  deriving Repr, DecidableEq

structure ChunkRow where
  chunkId : String
  scope : Scope
  memoryId : MemoryId
  revision : Nat
  ordinal : Nat
  byteStart : Nat
  byteEnd : Nat
  deriving DecidableEq

structure EmbeddingRow where
  scope : Scope
  memoryId : MemoryId
  revision : Nat
  ordinal : Nat
  identity : ModelIdentity
  vector : Bytes
  updated : Nat
  deriving DecidableEq

/-- What a chunk and its vector share. -/
abbrev ChunkKey := Scope × MemoryId × Nat × Nat

def ChunkRow.key (row : ChunkRow) : ChunkKey := (row.scope,row.memoryId,row.revision,row.ordinal)

def EmbeddingRow.key (row : EmbeddingRow) : ChunkKey := (row.scope,row.memoryId,row.revision,row.ordinal)

end Aicortex.EmbeddingTables
