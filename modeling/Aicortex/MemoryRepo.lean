import Aicortex.Schema

/-!
The memory table and what changes it short of an erasure: capture, the merge of a
repeated capture, supersession, deadlines, expiry and the re-digest. Each is the
statements one call stages, as they act when the transaction commits; what the call
read beforehand is among its arguments, and the statement's own guard compares it. A
guard that fails writes NULL into a column that holds none, which aborts the whole
transaction.
-/

namespace Aicortex.MemoryRepo
open Aicortex.Text Aicortex.CivilTime Aicortex.Memories Aicortex.Schema Lib.Tables Lib.Outcome
open Aicortex.Claims hiding Unit
set_option linter.unusedSimpArgs false

/-! ### Rows -/

def label : Status → StatusLabel
  | .active => .active
  | .quarantined => .quarantined
  | .superseded _ => .superseded
  | .expired => .expired
  | .erased => .erased

def supersededBy : Status → Option MemoryId
  | .superseded by' => some by'
  | _ => none

def ofScope (scope : Scope) (id : MemoryId) (row : MemoryRow) : Bool := row.scope == scope && row.id == id

/-- The parents a memory names, in order. -/
def derivationRows (memory : Memory) : List DerivationRow :=
  memory.provenance.derivedFrom.zipIdx.map (fun parent => ⟨memory.id,parent.1,parent.2,memory.scope⟩)

section
variable (fingerprint : Memory → String)

/-- The columns of a memory, written from its record. -/
def memoryRow (memory : Memory) : MemoryRow where
  id := memory.id
  scope := memory.scope
  status := label memory.status
  supersededBy := supersededBy memory.status
  kind := memory.kind
  trust := memory.trust
  fingerprint := fingerprint memory
  fingerprintVersion := 0
  schemaVersion := memory.schemaVersion
  bodyBytes := byteLen memory.body.text
  created := secondsToSql memory.created
  updated := secondsToSql memory.updated
  record := memory
  validUntil := none
  originErased := false

/-- Live memories of a scope differ in their fingerprints. -/
def clashes (left right : MemoryRow) : Bool :=
  left.live && right.live && left.scope == right.scope && left.fingerprint == right.fingerprint

def insertMemory (db : Database) (row : MemoryRow) : Except StoreError Database := do
  let memories ← insertRow MemoryRow.id (.constraint "memory") row db.memories
  if db.memories.any (clashes row) then .error (.constraint "memory_scope_fingerprint")
  else .ok { db with memories := memories }

def insertDerivation (db : Database) (row : DerivationRow) : Except StoreError Database := do
  let derivations ← insertRow (fun row => (row.memoryId,row.parentId)) (StoreError.constraint "memory_derivation") row
    db.derivations
  .ok { db with derivations := derivations }

/-- Stage a capture: the memory, its provenance and its derivation rows. -/
def insert (maxBodyBytes : Nat) (memory : Memory) (provenance : Provenance) (db : Database) :
    Except StoreError Database :=
  if provenance ≠ memory.provenance then
    .error (.validation s!"the provenance offered for memory {memory.id} is not the one the record carries")
  else if byteLen memory.body.text > maxBodyBytes then
    .error (.validation (s!"memory {memory.id} has a {byteLen memory.body.text} byte body, over the " ++
      s!"{maxBodyBytes} byte ceiling"))
  else do
    let db ← insertMemory db (memoryRow fingerprint memory)
    (derivationRows memory).foldlM insertDerivation db

/-! ### The life of a memory -/

/-- Fold a repeated capture into the record that already holds the content. -/
def mergeInto (existing again : Memory) : Memory :=
  { existing with
    importance := { existing.importance with
      lastUsed := again.created
      uses := min (existing.importance.uses + 1) (2 ^ 32 - 1) }
    updated := max existing.updated again.created
    body := { existing.body with
      title := existing.body.title.or again.body.title
      media := again.body.media.foldl (fun media added => if media.contains added then media else media ++ [added])
        existing.body.media } }

/-- Change the row of a memory whose guard holds; a row whose guard fails aborts, and
    where there is no row nothing happens. -/
def guarded (scope : Scope) (id : MemoryId) (guard : MemoryRow → Bool) (change : MemoryRow → MemoryRow) (db : Database) :
    Except StoreError Database :=
  if db.memories.any (fun row => ofScope scope id row && !guard row) then .error (.constraint "memory.record")
  else .ok { db with memories := updateWhere (ofScope scope id) change db.memories }

def merge (scope : Scope) (id : MemoryId) (expected again : Memory) (db : Database) : Except StoreError Database :=
  guarded scope id (fun row => row.record == expected && row.live)
    (fun row => { row with
      record := mergeInto expected again
      updated := secondsToSql (mergeInto expected again).updated }) db

/-- The chain of successors from a memory, as far as the fuel reaches. -/
def successors (db : Database) (scope : Scope) : Nat → MemoryId → List MemoryId
  | 0, id => [id]
  | fuel + 1, id => id :: ((db.memories.find? (ofScope scope id)).bind (·.supersededBy)).toList.flatMap
      (successors db scope fuel)

/-- A walk over all rows meets every successor there is. -/
def reaches (db : Database) (scope : Scope) (start target : MemoryId) : Bool :=
  (successors db scope db.memories.length start).contains target

def supersede (scope : Scope) (old new : MemoryId) (expected : Memory) (at' : UnixSeconds) (db : Database) :
    Except StoreError Database :=
  if old = new then .error (.validation s!"memory {old} cannot supersede itself")
  else
    guarded scope old (fun row => row.record == expected && row.live && !reaches db scope new old)
      (fun row => { row with
        status := .superseded
        supersededBy := some new
        record := { expected with status := .superseded new, updated := at' }
        updated := secondsToSql at' }) db

def setValidUntil (scope : Scope) (id : MemoryId) (until' : Option UnixSeconds) (db : Database) : Database :=
  { db with
    memories := updateWhere (fun row => ofScope scope id row && row.live)
      (fun row => { row with validUntil := until'.map secondsToSql }) db.memories }

/-- One batch of memories read as due, those still active. -/
def expire (scope : Scope) (ids : List MemoryId) (now : UnixSeconds) (db : Database) : Database :=
  { db with
    memories := updateWhere (fun row => row.scope == scope && row.status == .active && ids.contains row.id)
      (fun row => { row with
        status := .expired
        updated := secondsToSql now
        record := { row.record with status := .expired, updated := secondsToSql now } }) db.memories }

/-- One row of a re-digest, unless the record moved since it was read. -/
def redigestRow (scope : Scope) (db : Database) (read : MemoryId × Memory) : Except StoreError Database :=
  let due := fun row : MemoryRow => ofScope scope read.1 row && row.live && decide (row.fingerprintVersion < 1)
  let change := fun row : MemoryRow => { row with fingerprint := fingerprint read.2, fingerprintVersion := 1 }
  if db.memories.any (fun row => due row && row.record != read.2) then .error (.constraint "memory.fingerprint_version")
  else if db.memories.any (fun row => due row &&
      db.memories.any (fun other => other.id != row.id && clashes (change row) other)) then
    .error (.constraint "memory_scope_fingerprint")
  else .ok { db with memories := updateWhere due change db.memories }

def redigest (scope : Scope) (rows : List (MemoryId × Memory)) (db : Database) : Except StoreError Database :=
  rows.foldlM (redigestRow fingerprint scope) db

/-- The key of one Decision; a refusal's belongs to no memory. -/
def issueKey (row : KeyRow) (db : Database) : Except StoreError Database := do
  let keys ← insertRow KeyRow.keyId (.constraint "decision_key") row db.keys
  .ok { db with keys := keys }

inductive MemoryTxn where
  | insert (maxBodyBytes : Nat) (memory : Memory) (provenance : Provenance)
  | merge (scope : Scope) (id : MemoryId) (expected again : Memory)
  | supersede (scope : Scope) (old new : MemoryId) (expected : Memory) (at' : UnixSeconds)
  | setValidUntil (scope : Scope) (id : MemoryId) (until' : Option UnixSeconds)
  | expire (scope : Scope) (ids : List MemoryId) (now : UnixSeconds)
  | redigest (scope : Scope) (rows : List (MemoryId × Memory))
  | issueKey (row : KeyRow)

def commit (db : Database) : MemoryTxn → Except StoreError Database
  | .insert maxBodyBytes memory provenance => insert fingerprint maxBodyBytes memory provenance db
  | .merge scope id expected again => merge scope id expected again db
  | .supersede scope old new expected at' => supersede scope old new expected at' db
  | .setValidUntil scope id until' => .ok (setValidUntil scope id until' db)
  | .expire scope ids now => .ok (expire scope ids now db)
  | .redigest scope rows => redigest fingerprint scope rows db
  | .issueKey row => issueKey row db

end

end Aicortex.MemoryRepo
