import Aicortex.Store
import Aicortex.CaptureGate
import Aicortex.Lib.StaleRuns

/-!
The life of a memory with its aggregates: the counters of a scope and the log of the
sources a memory was captured from. A call reads what it needs, each read of a state of
its own, stages statements, and commits them as one transaction later; any number of
calls may run at once. The statements move the counters and the rows side by side, each
under its own guard.
-/

namespace Aicortex.Lifecycle
open Aicortex.Text Aicortex.CivilTime Aicortex.Memories Aicortex.Schema Aicortex.MemoryRepo Aicortex.Erasure
open Aicortex.CaptureGate
open Lib.Tables Lib.Outcome Lib.StaleRuns
open Aicortex.Claims hiding Unit
set_option linter.unusedSimpArgs false

/-! ### The tables beside the memories -/

/-- One capture of a memory, in the order the captures arrived. -/
structure MemorySourceRow where
  memoryId : MemoryId
  ordinal : Nat
  scope : Scope
  source : SourceRef
  capturedAt : Nat
  ingestedAt : Nat
  extractor : Option ExtractorVersion
  deriving DecidableEq

/-- The primary key of a counter: a scope, a kind and a status. -/
abbrev Bucket := Scope × MemoryKind × StatusLabel

/-- The counter rows there are. -/
abbrev Counters := Bucket → Option Int

structure Holdings where
  db : Database
  counters : Counters
  captures : List MemorySourceRow

def Holdings.empty : Holdings := ⟨.empty,fun _ => none,[]⟩

/-- What a counter reads; one that has no row reads zero. -/
def Counters.read (counters : Counters) (bucket : Bucket) : Int := (counters bucket).getD 0

/-- The upsert of a counter by a delta, which stops at zero where there is a row. -/
def adjust (counters : Counters) (bucket : Bucket) (delta : Int) : Counters :=
  Function.update counters bucket (some (match counters bucket with
    | none => delta
    | some count => max 0 (count + delta)))

/-- The upsert an erasure makes, which does not stop. -/
def shift (counters : Counters) (bucket : Bucket) (delta : Int) : Counters :=
  Function.update counters bucket (some (match counters bucket with
    | none => delta
    | some count => count + delta))

/-- The update of a counter that has a row. -/
def updateCounter (counters : Counters) (bucket : Bucket) (change : Int → Int) : Counters :=
  Function.update counters bucket ((counters bucket).map change)

def bucketOf (row : MemoryRow) : Bucket := (row.scope,row.kind,row.status)

/-- The source row of a capture, at the next free ordinal. -/
def sourceRow (captures : List MemorySourceRow) (scope : Scope) (memory : MemoryId) (provenance : Provenance) :
    MemorySourceRow where
  memoryId := memory
  ordinal := (((captures.filter (fun row => row.memoryId == memory)).map (·.ordinal + 1)).max?).getD 0
  scope := scope
  source := provenance.source
  capturedAt := secondsToSql provenance.capturedAt
  ingestedAt := secondsToSql provenance.ingestedAt
  extractor := provenance.extractor

/-! ### Moves -/

/-- The rows of a kind an expiry pass claims. -/
def claimed (db : Database) (scope : Scope) (ids : List MemoryId) (kind : MemoryKind) : Int :=
  db.memories.countP (fun row => row.scope == scope && row.kind == kind && row.status == .active && ids.contains row.id)

/-- The counter moves of an expiry pass, over the rows it is about to change. -/
def expireCounters (db : Database) (scope : Scope) (ids : List MemoryId) (kinds : List MemoryKind) (counters : Counters) :
    Counters :=
  kinds.foldl (fun counters kind =>
    let counters := updateCounter counters (scope,kind,.active) (fun count => max 0 (count - claimed db scope ids kind))
    updateCounter counters (scope,kind,.expired) (fun count => count + claimed db scope ids kind)) counters

/-- The live row a shell stands for, as it is now. -/
def liveRows (db : Database) (scope : Scope) (shell : Shell) : List MemoryRow :=
  db.memories.filter (fun row => ofScope scope shell.id row && row.live)

/-- The counter moves of an erasure: every shell's live row leaves its bucket for that
    of the erased, before any of them becomes a tombstone. -/
def eraseCounters (db : Database) (scope : Scope) (shells : List Shell) (counters : Counters) : Counters :=
  shells.foldl (fun counters shell =>
    let counters := (liveRows db scope shell).foldl (fun counters row => shift counters (bucketOf row) (-1)) counters
    (liveRows db scope shell).foldl (fun counters row => shift counters (row.scope,row.kind,.erased) 1) counters) counters

/-- The source log of the swept memories goes with them. -/
def sweepCaptures (scope : Scope) (shells : List Shell) (captures : List MemorySourceRow) : List MemorySourceRow :=
  deleteWhere (fun row => row.scope == scope && shells.any (fun shell => shell.id == row.memoryId)) captures

/-- The counter rows an expiry pass is about to update, at zero where there is none. -/
def materialize (scope : Scope) (kinds : List MemoryKind) (counters : Counters) : Counters :=
  kinds.foldl (fun counters kind => adjust (adjust counters (scope,kind,.expired) 0) (scope,kind,.active) 0) counters

/-- The statements a call stages. -/
inductive Move where
  | insert (maxBodyBytes : Nat) (memory : Memory) (provenance : Provenance)
  | source (scope : Scope) (id : MemoryId) (provenance : Provenance)
  | merge (scope : Scope) (id : MemoryId) (expected again : Memory)
  | supersede (scope : Scope) (old new : MemoryId) (expected : Memory) (at' : UnixSeconds)
  | setValidUntil (scope : Scope) (id : MemoryId) (until' : Option UnixSeconds)
  | materialize (scope : Scope) (kinds : List MemoryKind)
  | expire (scope : Scope) (ids : List MemoryId) (kinds : List MemoryKind) (now : UnixSeconds)
  | erase (prepared : PreparedErasure)
  | startScope (scope : Scope) (decisionId : String)
  | drain (scope : Scope) (operation : String) (shells : List Shell) (now : UnixSeconds)
  | deliver (scope : Scope) (target : Option MemoryId) (decisionId : String)

section
variable (fingerprint : Memory → String)

def apply (store : Holdings) : Move → Except StoreError Holdings
  | .insert maxBodyBytes memory provenance => do
    let db ← MemoryRepo.insert fingerprint maxBodyBytes memory provenance store.db
    .ok { store with db := db, counters := adjust store.counters (memory.scope,memory.kind,label memory.status) 1 }
  | .source scope id provenance =>
    .ok { store with captures := store.captures ++ [sourceRow store.captures scope id provenance] }
  | .merge scope id expected again => do
    let db ← MemoryRepo.merge scope id expected again store.db
    .ok { store with db := db }
  | .supersede scope old new expected at' => do
    let db ← MemoryRepo.supersede scope old new expected at' store.db
    let counters := adjust store.counters (scope,expected.kind,label expected.status) (-1)
    .ok { store with db := db, counters := adjust counters (scope,expected.kind,.superseded) 1 }
  | .setValidUntil scope id until' => .ok { store with db := MemoryRepo.setValidUntil scope id until' store.db }
  | .materialize scope kinds => .ok { store with counters := Lifecycle.materialize scope kinds store.counters }
  | .expire scope ids kinds now =>
    .ok { store with
      db := MemoryRepo.expire scope ids now store.db
      counters := expireCounters store.db scope ids kinds store.counters }
  | .erase prepared => do
    let db ← commitErase prepared store.db
    .ok {
      db := db
      counters := eraseCounters store.db prepared.scope prepared.shells store.counters
      captures := sweepCaptures prepared.scope prepared.shells store.captures }
  | .startScope scope decisionId => do
    let db ← Erasure.startScope scope decisionId store.db
    .ok { store with db := db }
  | .drain scope operation shells now => do
    let (db,_) ← Erasure.drain scope operation shells now store.db
    .ok {
      db := db
      counters := eraseCounters store.db scope shells store.counters
      captures := sweepCaptures scope shells store.captures }
  | .deliver scope target decisionId => .ok { store with db := Erasure.deliver scope target decisionId store.db }

end

/-! ### Reads -/

/-- The live memory that already holds a fingerprint. -/
def fingerprintHolder (db : Database) (scope : Scope) (digest : String) : Option MemoryId :=
  (db.memories.find? (fun row => row.scope == scope && row.fingerprint == digest && row.live)).map (·.id)

def get (db : Database) (scope : Scope) (id : MemoryId) : Option Memory :=
  (db.memories.find? (ofScope scope id)).map (·.record)

/-- The memory that superseded another. -/
def successor (db : Database) (scope : Scope) (id : MemoryId) : Option MemoryId :=
  (db.memories.find? (ofScope scope id)).bind (·.supersededBy)

def maxChain : Nat := 10000
def maxExpiryBatch : Nat := 500

/-- The memories due to expire, the oldest deadline first, one more than the batch. -/
def due (db : Database) (scope : Scope) (now : UnixSeconds) (batch : Nat) : List MemoryId :=
  (((db.memories.filter (fun row => row.scope == scope && row.status == .active &&
      row.validUntil.any (fun deadline => decide (deadline ≤ secondsToSql now)))).insertionSort
    (fun left right => toLex (left.validUntil.getD 0,left.id) ≤ toLex (right.validUntil.getD 0,right.id))).take
      (batch + 1)).map (·.id)

/-- The distinct kinds among a batch of ids. -/
def kindsOf (db : Database) (scope : Scope) (ids : List MemoryId) : List MemoryKind :=
  (db.memories.filter (fun row => row.scope == scope && ids.contains row.id)).foldl
    (fun kinds row => if kinds.contains row.kind then kinds else kinds ++ [row.kind]) []

/-! ### Calls -/

/-- How a capture settles: in a row of its own, or merged into the row that holds its
    content. -/
inductive Settling where
  | inserted (maxBodyBytes : Nat) (memory : Memory)
  | merged (scope : Scope) (id : MemoryId) (expected again : Memory)

namespace Settling

/-- The memory that was captured. -/
def memory : Settling → Memory
  | .inserted _ memory => memory
  | .merged _ _ _ again => again

/-- The row it settled in. -/
def id : Settling → MemoryId
  | .inserted _ memory => memory.id
  | .merged _ id _ _ => id

def moves : Settling → List Move
  | .inserted maxBodyBytes memory =>
    [.insert maxBodyBytes memory memory.provenance,.source memory.scope memory.id memory.provenance]
  | .merged scope id expected again => [.merge scope id expected again,.source scope id again.provenance]

end Settling

/-- The supersession of one memory by another, with the record it was read at. -/
structure Supersession where
  scope : Scope
  old : MemoryId
  new : MemoryId
  expected : Memory
  at' : UnixSeconds

def Supersession.move (supersession : Supersession) : Move :=
  .supersede supersession.scope supersession.old supersession.new supersession.expected supersession.at'

section
variable (fingerprint : Memory → String)

/-- Stage a capture: the holder is read at the leader and its record at a replica. -/
def capture (leader replica : Database) (maxBodyBytes : Nat) (memory : Memory) : Except StoreError Settling :=
  match fingerprintHolder leader memory.scope (fingerprint memory) with
  | none => .ok (.inserted maxBodyBytes memory)
  | some id =>
    match get replica memory.scope id with
    | none => .error (.integrity s!"memory {id} holds a fingerprint but not a row")
    | some existing =>
      if existing.status = .erased then .error (.conflict s!"memory {id} was erased before merge")
      else .ok (.merged memory.scope id existing memory)

/-- The walk from the successor to the end of its chain, one read a step. -/
def walkChain (reads : Nat → Database) (scope : Scope) (old new : MemoryId) : Nat → Nat → MemoryId → Except StoreError PUnit
  | 0, _, _ => .error (.integrity (s!"the supersession chain from {new} is longer than {maxChain} and is " ++
      "presumed cyclic"))
  | fuel + 1, read, walker =>
    match successor (reads read) scope walker with
    | none => .ok ()
    | some next =>
      if next = old then .error (.validation s!"superseding {old} by {new} would close a supersession cycle")
      else walkChain reads scope old new fuel (read + 1) next

/-- Stage a supersession: the chain is walked, and then the record is read. -/
def supersede (reads : Nat → Database) (replica : Database) (scope : Scope) (old new : MemoryId) (at' : UnixSeconds) :
    Except StoreError Supersession :=
  if old = new then .error (.validation s!"memory {old} cannot supersede itself")
  else do
    walkChain reads scope old new (maxChain + 1) 0 new
    match get replica scope old with
    | none => .error (.integrity s!"memory {old} is not a row of this scope")
    | some memory =>
      if memory.status = .erased then .error (.conflict s!"memory {old} has been erased and cannot be superseded")
      else .ok ⟨scope,old,new,memory,at'⟩

/-- Only a person's promotion is acted on. -/
def isActionable : TrustClass → Bool
  | .instruction _ => true
  | _ => false

def actorLabel : ActorKind → String
  | .human => "human"
  | .agent _ => "agent"
  | .system => "system"
  | .imported => "import"

/-- Stage a correction: the correcting memory is captured and what it corrects is
    superseded by the row the capture settled in. -/
def correct (leader replica : Database) (reads : Nat → Database) (later : Database) (maxBodyBytes : Nat) (memory : Memory)
    (old : MemoryId) : Except StoreError (Settling × Supersession) :=
  if memory.kind ≠ .correction then
    .error (.validation (s!"memory {memory.id} corrects {old} but is a {memory.kind.label} rather than a correction"))
  else if !memory.provenance.derivedFrom.contains old then
    .error (.validation s!"the correction {memory.id} does not name {old} in derived_from")
  else if memory.actor.kind ≠ .human ∧ isActionable memory.trust = true then
    .error (.validation (s!"the correction {memory.id} was written by {actorLabel memory.actor.kind} and cannot be " ++
      "instruction grade"))
  else do
    let settling ← capture fingerprint leader replica maxBodyBytes memory
    let supersession ← supersede reads later memory.scope old settling.id memory.created
    .ok (settling,supersession)

end

/-- Prepare the erasure of one memory, each of the reads of a state of its own. -/
def prepareErase (reads : Nat → Database) (scope : Scope) (id : MemoryId) (cascade : Bool) (now : UnixSeconds) :
    Except StoreError PreparedErasure :=
  if (receipt (reads 0) scope (some id)).isSome then .error (.conflict s!"memory {id} already has a durable erasure receipt")
  else
    match shell (reads 1) scope id with
    | none => .error (.validation s!"memory {id} is not an erasable row of this scope")
    | some root =>
      let cascaded := if cascade then derivedOf (reads 2) scope id else []
      let derived := cascaded.zipIdx.filterMap (fun child => shell (reads (3 + child.2)) scope child.1)
      .ok ⟨scope,id,cascade,cascaded,root :: derived,now⟩

/-! ### Runs -/

/-- What a call commits as one transaction. -/
inductive Txn where
  | insert (maxBodyBytes : Nat) (memory : Memory) (provenance : Provenance)
  | capture (settling : Settling)
  | supersede (supersession : Supersession)
  | correct (settling : Settling) (supersession : Supersession)
  | setValidUntil (scope : Scope) (id : MemoryId) (until' : Option UnixSeconds)
  | prepareExpiry (scope : Scope) (kinds : List MemoryKind)
  | expire (scope : Scope) (ids : List MemoryId) (kinds : List MemoryKind) (now : UnixSeconds)
  | erase (prepared : PreparedErasure)
  | startScope (scope : Scope) (decisionId : String)
  | drain (scope : Scope) (operation : String) (shells : List Shell) (now : UnixSeconds)
  | deliver (scope : Scope) (target : Option MemoryId) (decisionId : String)

def Txn.moves : Txn → List Move
  | .insert maxBodyBytes memory provenance => [.insert maxBodyBytes memory provenance]
  | .capture settling => settling.moves
  | .supersede supersession => [supersession.move]
  | .correct settling supersession => settling.moves ++ [supersession.move]
  | .setValidUntil scope id until' => [.setValidUntil scope id until']
  | .prepareExpiry scope kinds => [.materialize scope kinds]
  | .expire scope ids kinds now => [.expire scope ids kinds now]
  | .erase prepared => [.erase prepared]
  | .startScope scope decisionId => [.startScope scope decisionId]
  | .drain scope operation shells now => [.drain scope operation shells now]
  | .deliver scope target decisionId => [.deliver scope target decisionId]

/-- A memory the write gate let through: only its verdicts hold one. -/
inductive Admitted (memory : Memory) : Prop
  | passed {SecretRules : Type} (linked : Linked SecretRules) (rules : RuleSet SecretRules) (candidate : Candidate)
      (verdict : evaluate linked rules candidate = .admitted memory)
  | held {SecretRules : Type} (linked : Linked SecretRules) (rules : RuleSet SecretRules) (candidate : Candidate)
      (reason : Reason) (verdict : evaluate linked rules candidate = .quarantine memory reason)
  | overridden {SecretRules : Type} (linked : Linked SecretRules) (rules : RuleSet SecretRules) (candidate : Candidate)
      (over' : Override) (verdict : evaluateOverridden linked rules candidate over' = .ok (.admitted memory))

section
variable (fingerprint : Memory → String)

/-- A state that could have been read. -/
def Read (history : List Holdings) (db : Database) : Prop := ∃ seen ∈ history, seen.db = db

/-- Two reads through the leader, the second no earlier than the first. -/
def ReadInOrder (history : List Holdings) (first second : Database) : Prop :=
  ∃ recent seen older, history = recent ++ seen :: older ∧ seen.db = first ∧ ∃ again ∈ recent ++ [seen], again.db = second

/-- What each call stages, from whatever states it read. -/
inductive Stages (history : List Holdings) : Txn → Prop
  | insert (maxBodyBytes : Nat) {memory : Memory} (provenance : Provenance) (admitted : Admitted memory) :
      Stages history (.insert maxBodyBytes memory provenance)
  | capture {leader replica : Database} (maxBodyBytes : Nat) {memory : Memory} {settling : Settling}
      (admitted : Admitted memory) (atLeader : Read history leader) (atReplica : Read history replica)
      (staged : Lifecycle.capture fingerprint leader replica maxBodyBytes memory = .ok settling) :
      Stages history (.capture settling)
  | supersede {reads : Nat → Database} {replica : Database} {scope : Scope} {old new : MemoryId} {at' : UnixSeconds}
      {supersession : Supersession} (walked : ∀ read, Read history (reads read)) (atReplica : Read history replica)
      (staged : Lifecycle.supersede reads replica scope old new at' = .ok supersession) :
      Stages history (.supersede supersession)
  | correct {leader replica later : Database} {reads : Nat → Database} (maxBodyBytes : Nat) {memory : Memory}
      {old : MemoryId} {settling : Settling} {supersession : Supersession} (admitted : Admitted memory)
      (atLeader : Read history leader) (atReplica : Read history replica) (walked : ∀ read, Read history (reads read))
      (atLater : Read history later)
      (staged : Lifecycle.correct fingerprint leader replica reads later maxBodyBytes memory old =
        .ok (settling,supersession)) :
      Stages history (.correct settling supersession)
  | setValidUntil (scope : Scope) (id : MemoryId) (until' : Option UnixSeconds) :
      Stages history (.setValidUntil scope id until')
  | prepareExpiry {first second : Database} {scope : Scope} {now : UnixSeconds} {batch : Nat} {ids : List MemoryId}
      (bounded : 0 < batch ∧ batch ≤ maxExpiryBatch) (reads : ReadInOrder history first second)
      (read : ids = (due first scope now batch).take batch) :
      Stages history (.prepareExpiry scope (kindsOf second scope ids))
  | expire {first second : Database} {scope : Scope} {now : UnixSeconds} {batch : Nat} {ids : List MemoryId}
      {before : Holdings} (bounded : 0 < batch ∧ batch ≤ maxExpiryBatch) (reads : ReadInOrder history first second)
      (read : ids = (due first scope now batch).take batch)
      -- the counter rows were committed by the call's first transaction
      (prepared : { before with counters := materialize scope (kindsOf second scope ids) before.counters } ∈ history) :
      Stages history (.expire scope ids (kindsOf second scope ids) now)
  | erase {reads : Nat → Database} {scope : Scope} {id : MemoryId} {cascade : Bool} {now : UnixSeconds}
      {prepared : PreparedErasure} (read : ∀ read, Read history (reads read))
      (staged : Lifecycle.prepareErase reads scope id cascade now = .ok prepared) : Stages history (.erase prepared)
  | startScope (scope : Scope) (decisionId : String) : Stages history (.startScope scope decisionId)
  | drain {db : Database} {scope : Scope} (operation : String) {batch : Nat} (now : UnixSeconds)
      (bounded : 0 < batch ∧ batch ≤ maxErasureBatch) (atBatch : Read history db) :
      Stages history (.drain scope operation (batchShells db scope batch) now)
  | deliver (scope : Scope) (target : Option MemoryId) (decisionId : String) :
      Stages history (.deliver scope target decisionId)

def system : System Holdings Move Txn StoreError := ⟨.empty,apply fingerprint,Txn.moves,Stages fingerprint⟩

end

end Aicortex.Lifecycle
