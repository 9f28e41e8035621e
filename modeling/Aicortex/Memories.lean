import Aicortex.Claims

/-!
The memory record: its closed taxonomies, its body and media references, and the
parts it is built from.
-/

namespace Aicortex.Memories
open Aicortex.Text
open Aicortex.Claims hiding Unit
set_option linter.unusedSimpArgs false

inductive MemoryKind where
  | observation
  | fact
  | preference
  | decision
  | task
  | reference
  | personNote
  | correction
  deriving Repr, DecidableEq

def MemoryKind.label : MemoryKind → String
  | .observation => "observation"
  | .fact => "fact"
  | .preference => "preference"
  | .decision => "decision"
  | .task => "task"
  | .reference => "reference"
  | .personNote => "person_note"
  | .correction => "correction"

/-- Whether the memory is still current, and which memory replaced it. -/
inductive Status where
  | active
  | quarantined
  | superseded (by' : MemoryId)
  | expired
  | erased
  deriving Repr, DecidableEq

/-- The only way to instruction grade: a person and a decision in the ledger. -/
structure Promotion where
  by' : Sub
  decision : DecisionRef
  deriving Repr, DecidableEq

inductive TrustClass where
  | evidence
  | assertion
  | instruction (promotion : Promotion)
  deriving Repr, DecidableEq

/-- `sha256:` and sixty-four lowercase hex digits. -/
def mediaDigest (field text : String) : Except TypeError Unit :=
  let chars := text.toList
  let body := chars.drop 7
  if chars.take 7 ≠ "sha256:".toList then .error (.invalid field [.quoted text,.lit " lacks the sha256: prefix"])
  else if (body.map Char.utf8Size).sum ≠ 64 then
    .error (.invalid field [.quoted text,.lit " is not 64 hex characters after the prefix"])
  else if !body.all isLowerHexDigit then
    .error (.invalid field [.quoted text,.lit " is not lowercase hex after the prefix"])
  else .ok ()

abbrev MediaDigest := CheckedString "media.digest" mediaDigest

structure MediaRef where
  digest : MediaDigest
  mediaType : String
  bytes : Option Nat
  deriving Repr, DecidableEq

structure MemoryBody where
  text : String
  title : Option String
  media : List MediaRef
  deriving Repr, DecidableEq

/-- Importance decays by floating-point arithmetic that nothing here performs; the
    base is carried as the bits of its single-precision value. -/
structure Importance where
  baseBits : UInt32
  lastUsed : UnixSeconds
  uses : Nat
  deriving Repr, DecidableEq

structure MemoryParts where
  id : MemoryId
  scope : Scope
  kind : MemoryKind
  body : MemoryBody
  actor : Actor
  provenance : Provenance
  trust : TrustClass
  importance : Importance
  created : UnixSeconds
  deriving DecidableEq

structure Memory where
  id : MemoryId
  scope : Scope
  kind : MemoryKind
  body : MemoryBody
  actor : Actor
  provenance : Provenance
  trust : TrustClass
  status : Status
  importance : Importance
  schemaVersion : Nat
  created : UnixSeconds
  updated : UnixSeconds
  deriving DecidableEq

def memorySchemaVersion : Nat := 1

/-- A memory as written: active, current, and updated when it was created. -/
def Memory.new (parts : MemoryParts) : Memory where
  id := parts.id
  scope := parts.scope
  kind := parts.kind
  body := parts.body
  actor := parts.actor
  provenance := parts.provenance
  trust := parts.trust
  status := .active
  importance := parts.importance
  schemaVersion := memorySchemaVersion
  created := parts.created
  updated := parts.created

namespace Sample
open Claims.Sample

def memoryId : MemoryId := ⟨7,by decide⟩
def secondMemoryId : MemoryId := ⟨8,by decide⟩
def thirdMemoryId : MemoryId := ⟨9,by decide⟩

def parts (body : MemoryBody) : MemoryParts where
  id := memoryId
  scope := scope
  kind := .fact
  body := body
  actor := actor
  provenance := provenance
  trust := .evidence
  importance := ⟨0x3F000000,10,1⟩
  created := 10

end Sample

end Aicortex.Memories
