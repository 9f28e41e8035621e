import Aicortex.Lifecycle
import Aicortex.ModelRegistry
import Aicortex.Chunking
import Aicortex.Provider

/-!
The store with the embedding pipeline around it. A memory is written with its embedding
work; workers claim the work, cut the memory into chunks, have them embedded and commit
the chunks and vectors with the completion of the claim; an operator activates models,
re-embeds and drops old revisions; an erasure takes a memory and all derived of it. Each
call reads, and later commits one transaction whose statements repeat what they rest on.
The queue and the store are the chassis's own. Of the queue it is assumed that work is
staged once, that a claim completes only for its holder, that nothing else completes work,
and that these act with the transaction they are part of. Of the store it is assumed that
a transaction acts whole or not at all, and that only one that did not act answers an error.
-/

namespace Aicortex.Pipeline
open Aicortex.Text Aicortex.CivilTime Aicortex.Memories Aicortex.Schema Aicortex.MemoryRepo Aicortex.Erasure
open Aicortex.Lifecycle Aicortex.EmbeddingTables Aicortex.ModelRegistry Aicortex.Chunking Aicortex.Provider
open Lib.Tables Lib.Outcome Lib.StaleRuns Lib.StaleRuns.System
open Aicortex.Claims hiding Unit
set_option linter.unusedSimpArgs false

/-! ### Rows -/

structure ProvenanceRow where
  memoryId : MemoryId
  scope : Scope
  source : SourceRef
  capturedAt : Nat
  ingestedAt : Nat
  extractor : Option ExtractorVersion
  deriving DecidableEq

/-- The identity of a piece of work; the processor is named after the revision. -/
structure WorkKey where
  scope : Scope
  memoryId : MemoryId
  revision : Nat
  modelId : String
  deriving DecidableEq

inductive WorkState where
  | pending
  | claimed
  | failed
  | dead
  | done
  deriving Repr, DecidableEq

structure WorkRow where
  key : WorkKey
  state : WorkState
  attempt : Nat
  createdAt : Nat
  deriving DecidableEq

/-- One attempt at a piece of work that failed, and why. -/
structure AttemptRow where
  key : WorkKey
  attempt : Nat
  errorClass : String
  deriving DecidableEq

/-- The holdings with all that is derived of them. -/
structure Stock where
  holdings : Holdings
  provenance : List ProvenanceRow
  models : List ModelRow
  chunks : List ChunkRow
  embeddings : List EmbeddingRow
  work : List WorkRow
  attempts : List AttemptRow

namespace Stock

def empty : Stock := ⟨.empty,[],[],[],[],[],[]⟩

def memories (stock : Stock) : List MemoryRow := stock.holdings.db.memories

end Stock

/-! ### Staging work -/

/-- The model a memory write stages its work for. -/
structure ActiveEmbedding where
  modelId : String
  revision : Nat
  deriving Repr, DecidableEq

/-- What the pipeline counts as live: neither erased nor quarantined. -/
def embeddable (row : MemoryRow) : Bool := row.status != .erased && row.status != .quarantined

/-- Abort unless the memory of the scope is live. -/
def stageLiveMemoryGuard (scope : Scope) (id : MemoryId) (stock : Stock) : Except StoreError Unit :=
  if stock.memories.any (fun row => ofScope scope id row && embeddable row) then .ok ()
  else .error (.constraint "chunk.chunk_id")

/-- Assumed of the queue: work is staged once, and what is there under the key stays. -/
def stageWork (key : WorkKey) (now : UnixSeconds) (work : List WorkRow) : List WorkRow :=
  if work.any (fun row => row.key == key) then work else work ++ [⟨key,.pending,0,secondsToSql now⟩]

/-- Abort unless the model is still the active one, and stage the work for it. -/
def stageActiveEmbedding (scope : Scope) (id : MemoryId) (model : ActiveEmbedding) (now : UnixSeconds) (stock : Stock) :
    Except StoreError Stock :=
  if stock.models.any (fun row => row.revision == model.revision && row.identity.modelId == model.modelId && row.active) then
    .ok { stock with work := stageWork ⟨scope,id,model.revision,model.modelId⟩ now stock.work }
  else .error (.constraint "embedding_model.model_id")

/-- Stage the work for the model that was observed, or abort if there is one after all. -/
def stageTarget (target : Option ActiveEmbedding) (scope : Scope) (id : MemoryId) (now : UnixSeconds) (stock : Stock) :
    Except StoreError Stock :=
  match target with
  | some model => stageActiveEmbedding scope id model now stock
  | none => if stock.models.any ModelRow.active then .error (.constraint "embedding_model") else .ok stock

/-! ### A memory's life -/

/-- The memory a transaction inserts. -/
def insertedBy : Lifecycle.Txn → Option Memory
  | .insert _ memory _ => some memory
  | .capture (.inserted _ memory) => some memory
  | .correct (.inserted _ memory) _ => some memory
  | _ => none

/-- The memory a capture stages embedding work for, and the time it is stamped with. -/
def settledBy (settling : Settling) : Scope × MemoryId × UnixSeconds :=
  match settling with
  | .inserted _ memory => (memory.scope,memory.id,memory.updated)
  | .merged scope id expected again => (scope,id,(mergeInto expected again).updated)

def stagedBy : Lifecycle.Txn → Option (Scope × MemoryId × UnixSeconds)
  | .insert _ memory _ => some (memory.scope,memory.id,memory.updated)
  | .capture settling => some (settledBy settling)
  | .correct settling _ => some (settledBy settling)
  | _ => none

/-- The memories a transaction sweeps. -/
def sweptBy : Lifecycle.Txn → Option (Scope × List Shell)
  | .erase prepared => some (prepared.scope,prepared.shells)
  | .drain scope _ shells _ => some (scope,shells)
  | _ => none

def provenanceRow (memory : Memory) : ProvenanceRow where
  memoryId := memory.id
  scope := memory.scope
  source := memory.provenance.source
  capturedAt := secondsToSql memory.provenance.capturedAt
  ingestedAt := secondsToSql memory.provenance.ingestedAt
  extractor := memory.provenance.extractor

def insertProvenance (inserted : Option Memory) (rows : List ProvenanceRow) : Except StoreError (List ProvenanceRow) :=
  match inserted with
  | none => .ok rows
  | some memory => insertRow ProvenanceRow.memoryId (.constraint "provenance") (provenanceRow memory) rows

/-- Whether a row derived of a memory belongs to one of the shells of a scope. -/
def ofShells (scope : Scope) (shells : List Shell) (owner : Scope) (memory : MemoryId) : Bool :=
  owner == scope && shells.any (fun shell => shell.id == memory)

/-- The vectors, the chunks and the provenance of the shells go, and so does their work. -/
def sweep (scope : Scope) (shells : List Shell) (stock : Stock) : Stock :=
  { stock with
    embeddings := deleteWhere (fun row => ofShells scope shells row.scope row.memoryId) stock.embeddings
    chunks := deleteWhere (fun row => ofShells scope shells row.scope row.memoryId) stock.chunks
    provenance := deleteWhere (fun row => ofShells scope shells row.scope row.memoryId) stock.provenance
    attempts := deleteWhere (fun row => ofShells scope shells row.key.scope row.key.memoryId) stock.attempts
    work := deleteWhere (fun row => ofShells scope shells row.key.scope row.key.memoryId) stock.work }

section
variable (fingerprint : Memory → String)

/-- A transaction of a memory's life, the statements grouped by the table they write. -/
def commitLife (txn : Lifecycle.Txn) (target : Option ActiveEmbedding) (stock : Stock) : Except StoreError Stock := do
  let holdings ← (Lifecycle.system fingerprint).commit stock.holdings txn
  let provenance ← insertProvenance (insertedBy txn) stock.provenance
  let stock := { stock with holdings := holdings, provenance := provenance }
  let stock := (sweptBy txn).elim stock (fun swept => sweep swept.1 swept.2 stock)
  match stagedBy txn with
  | none => .ok stock
  | some (scope,id,now) => stageTarget target scope id now stock

def commitRedigest (scope : Scope) (rows : List (MemoryId × Memory)) (stock : Stock) : Except StoreError Stock := do
  let db ← MemoryRepo.redigest fingerprint scope rows stock.holdings.db
  .ok { stock with holdings := { stock.holdings with db := db } }

end

/-! ### Workers -/

/-- A claim on a piece of work; the attempt tells one holder from the next. -/
structure Claim where
  key : WorkKey
  attempt : Nat
  deriving DecidableEq

def Claim.holds (claim : Claim) (row : WorkRow) : Bool :=
  row.key == claim.key && row.state == .claimed && row.attempt == claim.attempt

/-- Assumed of the queue: a claim is completed for its holder, and a holder that lost it
    aborts its transaction. -/
def complete (claim : Claim) (stock : Stock) : Except StoreError Stock :=
  if stock.work.any claim.holds then
    .ok { stock with work := updateWhere claim.holds (fun row => { row with state := .done }) stock.work }
  else .error (.conflict "the claim is held by another")

/-- What a worker computed for a claim. -/
structure Derivative where
  claim : Claim
  memory : MemoryId
  model : ModelRow
  chunks : List Chunk
  vectors : List Vector
  now : UnixSeconds

def hexByte (byte : UInt8) : String :=
  String.ofList [Nat.digitChar (byte.toNat / 16),Nat.digitChar (byte.toNat % 16)]

/-- The identity of a chunk, spelled in hex. -/
def chunkId (scopeId : String) (memory : MemoryId) (revision ordinal : Nat) : String :=
  String.join ((s!"{scopeId}\x1f{memory}\x1f{revision}\x1f{ordinal}").toByteArray.data.toList.map hexByte)

/-- The rows of one memory at one revision. -/
def ofGroup (scope : Scope) (memory : MemoryId) (revision : Nat) (key : ChunkKey) : Bool :=
  key.1 == scope && key.2.1 == memory && key.2.2.1 == revision

def insertChunk (stock : Stock) (row : ChunkRow) : Except StoreError Stock := do
  let _ ← insertRow ChunkRow.chunkId (StoreError.constraint "chunk.chunk_id") row stock.chunks
  let chunks ← insertRow ChunkRow.key (.constraint "chunk") row stock.chunks
  .ok { stock with chunks := chunks }

def insertEmbedding (stock : Stock) (row : EmbeddingRow) : Except StoreError Stock :=
  if row.vector.length ≠ row.identity.dims * 4 then .error (.constraint "embedding.vector")
  else do
    let embeddings ← insertRow EmbeddingRow.key (.constraint "embedding") row stock.embeddings
    .ok { stock with embeddings := embeddings }

section
variable (scopeId : Scope → String)

def Derivative.chunkRow (derivative : Derivative) (chunk : Chunk) : ChunkRow where
  chunkId := chunkId (scopeId derivative.claim.key.scope) derivative.memory derivative.model.revision chunk.ordinal
  scope := derivative.claim.key.scope
  memoryId := derivative.memory
  revision := derivative.model.revision
  ordinal := chunk.ordinal
  byteStart := chunk.byteStart
  byteEnd := chunk.byteEnd

def Derivative.embeddingRow (derivative : Derivative) (chunk : Chunk) (vector : Vector) : EmbeddingRow where
  scope := derivative.claim.key.scope
  memoryId := derivative.memory
  revision := derivative.model.revision
  ordinal := chunk.ordinal
  identity := { derivative.model.identity with dims := vector.dims }
  vector := vector.toLeBytes
  updated := secondsToSql derivative.now

def storeChunk (derivative : Derivative) (stock : Stock) (chunk : Chunk × Vector) : Except StoreError Stock := do
  let stock ← insertChunk stock (derivative.chunkRow scopeId chunk.1)
  insertEmbedding stock (derivative.embeddingRow chunk.1 chunk.2)

/-- The guards of a worker's commit: the memory is live, and the model is the active one. -/
def stageDerivativeCommitGuards (derivative : Derivative) (stock : Stock) : Except StoreError Unit := do
  stageLiveMemoryGuard derivative.claim.key.scope derivative.memory stock
  if stock.models.any (fun row => row.revision == derivative.model.revision &&
      row.identity == derivative.model.identity && row.active) then .ok ()
  else .error (.constraint "embedding_model.model_id")

/-- Replace the rows of the memory at the revision, and complete the claim. -/
def commitEmbed (derivative : Derivative) (stock : Stock) : Except StoreError Stock := do
  stageDerivativeCommitGuards derivative stock
  let replaced := ofGroup derivative.claim.key.scope derivative.memory derivative.model.revision
  let stock ← (derivative.chunks.zip derivative.vectors).foldlM (storeChunk scopeId derivative)
    { stock with
      embeddings := deleteWhere (fun row => replaced row.key) stock.embeddings
      chunks := deleteWhere (fun row => replaced row.key) stock.chunks }
  complete derivative.claim stock

end

/-! ### What a worker reads -/

/-- Why a call stops before it commits anything. -/
inductive CallError where
  | config (message : String)
  | store (error : StoreError)
  deriving Repr, DecidableEq

def sameModelRevision (left right : ModelRow) : Bool := left.identity == right.identity && left.revision == right.revision

/-- The row a worker reads for a claim. -/
def embeddingMemory (stock : Stock) (scope : Scope) (id : MemoryId) : Option MemoryRow :=
  stock.memories.find? (ofScope scope id)

def maxDerivativeVectorBytes : Nat := 1024 * 1024

/-- What a worker commits for a claim. -/
inductive Step where
  | completeEmpty
  | defer
  | quarantine
  | embed (derivative : Derivative)

/-- Process a claim: the active model is read, then the memory; the chunks are embedded
    outside of any transaction. -/
def process (config : ChunkConfig) (model : ModelRow) (provider : List Chunk → Except StoreError (List Vector))
    (claim : Claim) (atActive atMemory : Stock) (now : UnixSeconds) : Except CallError Step :=
  match active atActive.models with
  | none => .ok .defer
  | some current =>
    if claim.key.revision = model.revision ∧ claim.key.modelId = model.identity.modelId ∧
        sameModelRevision current model = true then
      match embeddingMemory atMemory claim.key.scope claim.key.memoryId with
      | none => .ok .completeEmpty
      | some row =>
        if row.status = .erased then .ok .completeEmpty
        else if row.status = .quarantined then .ok .quarantine
        else
          match split config row.record.body.text with
          | .error (.config message) => .error (.config message)
          | .error (.validation message) => .error (.store (.validation message))
          | .ok chunks =>
            if chunks = [] then .error (.store (.validation s!"memory {row.record.id} has no text to embed"))
            else if maxDerivativeVectorBytes < chunks.length * model.identity.dims * 4 then
              .error (.store (.validation (s!"embedding derivative payload exceeds the {maxDerivativeVectorBytes}-byte " ++
                "worker limit")))
            else do
              let vectors ← (provider chunks).mapError .store
              (validateBatch model.identity chunks.length vectors).mapError .store
              .ok (.embed ⟨claim,row.record.id,model,chunks,vectors,now⟩)
    else .ok .completeEmpty

/-- After a commit was refused: the memory is read, then the active model. -/
def reconcileCommitFailure (model : ModelRow) (claim : Claim) (refusal : StoreError) (atMemory atActive : Stock) :
    Except CallError Step :=
  match embeddingMemory atMemory claim.key.scope claim.key.memoryId with
  | none => .ok .completeEmpty
  | some row =>
    if row.status = .quarantined then .ok .quarantine
    else if row.status = .erased then .ok .completeEmpty
    else
      match active atActive.models with
      | none => .ok .defer
      | some current => if sameModelRevision current model = true then .error (.store refusal) else .ok .completeEmpty

/-! ### Operators -/

def stageLiveEmbedding (scope : Scope) (model : ActiveEmbedding) (now : UnixSeconds) (stock : Stock) (id : MemoryId) :
    Except StoreError Stock := do
  stageLiveMemoryGuard scope id stock
  stageActiveEmbedding scope id model now stock

/-- Whether a memory has a vector at a revision. -/
def embedded (stock : Stock) (scope : Scope) (id : MemoryId) (revision : Nat) : Bool :=
  stock.embeddings.any (fun row => row.scope == scope && row.memoryId == id && row.revision == revision)

/-- A bounded page of live memories that lack a revision. -/
def memoriesMissingEmbedding (stock : Stock) (scope : Scope) (revision : Nat) (after : Option MemoryId) (limit : Nat) :
    List MemoryId :=
  (((stock.memories.filter (fun row => row.scope == scope && embeddable row && after.all (fun last => decide (last < row.id)) &&
    !embedded stock scope row.id revision)).map (·.id)).insertionSort (· ≤ ·)).take limit

/-- Live memories from the maintained counters. -/
def liveMemoryTotal (holdings : Holdings) (scope : Scope) : Except StoreError Nat :=
  let kinds : List MemoryKind := [.observation,.fact,.preference,.decision,.task,.reference,.personNote,.correction]
  let statuses : List StatusLabel := [.active,.superseded,.expired]
  let count := kinds.foldl (fun total kind =>
    statuses.foldl (fun total status => total + holdings.counters.read (scope,kind,status)) total) 0
  if count < 0 then .error (.integrity "live memory count is negative") else .ok count.toNat

/-- How many live memories of the scope have a vector at a revision. -/
def embeddingCoverage (stock : Stock) (scope : Scope) (revision : Nat) : Nat :=
  stock.memories.countP (fun row => row.scope == scope && embeddable row && embedded stock scope row.id revision)

structure Coverage where
  revision : Nat
  embedded : Nat
  total : Nat
  deriving Repr, DecidableEq

/-- The coverage of every revision: the live total, the vectors and the revisions are
    three reads. -/
def coverage (atTotal atEmbedded atModels : Stock) (scope : Scope) : Except StoreError (List Coverage) := do
  let total ← liveMemoryTotal atTotal.holdings scope
  .ok (atModels.models.map (fun model => ⟨model.revision,embeddingCoverage atEmbedded scope model.revision,total⟩))

/-- What is read before a revision is dropped. -/
def prepareDrop (atActive atTotal atEmbedded atModels : Stock) (scope : Scope) (revision : Nat) : Except CallError Unit :=
  match active atActive.models with
  | none => .error (.config "no active embedding model")
  | some current =>
    if current.revision = revision then .error (.store (.conflict s!"cannot drop active embedding revision {revision}"))
    else do
      let covered ← (coverage atTotal atEmbedded atModels scope).mapError .store
      match covered.find? (fun item => item.revision == current.revision) with
      | none => .error (.store (.integrity "active revision has no coverage row"))
      | some item =>
        if item.embedded ≠ item.total then
          .error (.store (.conflict
            s!"active revision {current.revision} covers {item.embedded}/{item.total} live memories"))
        else .ok ()

/-- Abort unless every live memory of the scope has a vector at the active revision. -/
def stageCompleteEmbeddingCoverageGuard (scope : Scope) (stock : Stock) : Except StoreError Unit :=
  if stock.memories.any (fun row => row.scope == scope && embeddable row &&
      !(active stock.models).any (fun model => embedded stock scope row.id model.revision)) then
    .error (.constraint "chunk.chunk_id")
  else .ok ()

/-- The recorded rows of a revision that is not active. -/
def retired (stock : Stock) (revision : Nat) : Nat :=
  stock.models.countP (fun row => row.revision == revision && !row.active)

/-- The statements of a drop, and how many registry rows the second of them touched. -/
def commitDrop (scope : Scope) (revision : Nat) (stock : Stock) : Except StoreError (Stock × Nat) := do
  stageCompleteEmbeddingCoverageGuard scope stock
  let dropped := fun (owner : Scope) (at' : Nat) => owner == scope && at' == revision && retired stock revision != 0
  .ok ({ stock with
    embeddings := deleteWhere (fun row => dropped row.scope row.revision) stock.embeddings
    chunks := deleteWhere (fun row => dropped row.scope row.revision) stock.chunks },retired stock revision)

/-- What the call answers after its transaction committed. -/
def dropAnswer (revision affected : Nat) : Except StoreError Unit :=
  if affected ≠ 1 then .error (.conflict s!"embedding revision {revision} is not inactive or active coverage changed")
  else .ok ()

/-- The whole call, with what it leaves of the state it commits to. A transaction the store
    answers an error to is assumed to have left nothing; the call's own refusal of what its
    transaction did comes after the commit. -/
def dropRevision (atActive atTotal atEmbedded atModels now : Stock) (scope : Scope) (revision : Nat) :
    Stock × Except CallError Unit :=
  match prepareDrop atActive atTotal atEmbedded atModels scope revision with
  | .error refusal => (now,.error refusal)
  | .ok () =>
    match commitDrop scope revision now with
    | .error refusal => (now,.error (.store refusal))
    | .ok (next,affected) => (next,(dropAnswer revision affected).mapError .store)

/-! ### Runs -/

/-- What a call commits as one transaction. -/
inductive Txn where
  | life (txn : Lifecycle.Txn) (target : Option ActiveEmbedding)
  | redigest (scope : Scope) (rows : List (MemoryId × Memory))
  | activate (model : ModelRow)
  | embed (derivative : Derivative)
  | completeEmpty (claim : Claim)
  | reembed (scope : Scope) (model : ActiveEmbedding) (ids : List MemoryId) (now : UnixSeconds)
  | dropRevision (scope : Scope) (revision : Nat)
  -- claiming, renewing, failing, requeueing and sweeping, which the chassis does
  | upkeep (row : WorkRow → WorkRow) (attempts : List AttemptRow → List AttemptRow)

section
variable (fingerprint : Memory → String) (scopeId : Scope → String)

/-- Assumed of the store: an error is the answer to a transaction that left nothing. -/
def commit (stock : Stock) : Txn → Except StoreError Stock
  | .life txn target => commitLife fingerprint txn target stock
  | .redigest scope rows => commitRedigest fingerprint scope rows stock
  | .activate model => do
    let models ← ModelRegistry.activate stock.models model
    .ok { stock with models := models }
  | .embed derivative => commitEmbed scopeId derivative stock
  | .completeEmpty claim => complete claim stock
  | .reembed scope model ids now => ids.foldlM (stageLiveEmbedding scope model now) stock
  | .dropRevision scope revision => do
    let (stock,_) ← commitDrop scope revision stock
    .ok stock
  | .upkeep row attempts => .ok { stock with work := stock.work.map row, attempts := attempts stock.attempts }

end

/-- A worker is bound to a model it read as the active one. -/
def Bound (history : List Stock) (model : ModelRow) : Prop := ∃ seen ∈ history, active seen.models = some model

/-- A state in which a claim was held. -/
def Held (stock : Stock) (claim : Claim) : Prop := ∃ row ∈ stock.work, claim.holds row = true

def maxReembedBatch : Nat := 500

section
variable (fingerprint : Memory → String) (config : ChunkConfig) (redigests : Bool)

/-- What each call stages, from whatever states it read. -/
inductive Stages (history : List Stock) : Txn → Prop
  | life {txn : Lifecycle.Txn} (target : Option ActiveEmbedding)
      (staged : Lifecycle.Stages fingerprint (history.map Stock.holdings) txn) : Stages history (.life txn target)
  | redigest (runs : redigests = true) (scope : Scope) (rows : List (MemoryId × Memory)) :
      Stages history (.redigest scope rows)
  | activate {model : ModelRow} (staged : ModelRegistry.Stages (history.map Stock.models) model) :
      Stages history (.activate model)
  | embed {model : ModelRow} {claim : Claim} {claimedAt atActive atMemory : Stock} {derivative : Derivative}
      (provider : List Chunk → Except StoreError (List Vector)) (now : UnixSeconds) (bound : Bound history model)
      (own : claim.key.revision = model.revision) (held : Held claimedAt claim)
      (activeRead : InOrder history claimedAt atActive) (memoryRead : InOrder history atActive atMemory)
      (processed : process config model provider claim atActive atMemory now = .ok (.embed derivative)) :
      Stages history (.embed derivative)
  | completeEmpty {model : ModelRow} {claim : Claim} {claimedAt atActive atMemory : Stock}
      (provider : List Chunk → Except StoreError (List Vector)) (now : UnixSeconds) (bound : Bound history model)
      (own : claim.key.revision = model.revision) (held : Held claimedAt claim)
      (activeRead : InOrder history claimedAt atActive) (memoryRead : InOrder history atActive atMemory)
      (processed : process config model provider claim atActive atMemory now = .ok .completeEmpty) :
      Stages history (.completeEmpty claim)
  | reconciled {model : ModelRow} {claim : Claim} {claimedAt atMemory atActive : Stock} (refusal : StoreError)
      (bound : Bound history model) (own : claim.key.revision = model.revision) (held : Held claimedAt claim)
      (memoryRead : InOrder history claimedAt atMemory) (activeRead : InOrder history atMemory atActive)
      (reconciled : reconcileCommitFailure model claim refusal atMemory atActive = .ok .completeEmpty) :
      Stages history (.completeEmpty claim)
  | reembed {atMissing : Stock} {scope : Scope} {model : ModelRow} {after : Option MemoryId} {limit : Nat}
      (now : UnixSeconds) (bounded : 0 < limit ∧ limit ≤ maxReembedBatch) (live : model.active = true)
      (read : atMissing ∈ history) :
      Stages history (.reembed scope ⟨model.identity.modelId,model.revision⟩
        ((memoriesMissingEmbedding atMissing scope model.revision after (limit + 1)).take limit) now)
  | dropRevision {atActive atTotal atEmbedded atModels : Stock} {scope : Scope} {revision : Nat}
      (activeRead : atActive ∈ history) (totalRead : atTotal ∈ history) (embeddedRead : atEmbedded ∈ history)
      (modelsRead : atModels ∈ history)
      (prepared : prepareDrop atActive atTotal atEmbedded atModels scope revision = .ok ()) :
      Stages history (.dropRevision scope revision)
  | upkeep {row : WorkRow → WorkRow} (attempts : List AttemptRow → List AttemptRow)
      (sameKey : ∀ work, (row work).key = work.key) (completesNothing : ∀ work, (row work).state = .done → work.state = .done) :
      Stages history (.upkeep row attempts)

/-- The pipeline; the re-digest of an upgrade may run beside it or not. -/
def system (scopeId : Scope → String) : System Stock Txn Txn StoreError :=
  ⟨.empty,commit fingerprint scopeId,fun txn => [txn],Stages fingerprint config redigests⟩

end

end Aicortex.Pipeline
