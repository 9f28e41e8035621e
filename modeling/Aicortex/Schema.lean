import Aicortex.ClaimGate
import Aicortex.Projection
import Aicortex.Lib.Tables
import Aicortex.Lib.Outcome

/-!
The tables of the memory store and the transactions that write them. A transaction
is committed whole or not at all: a broken key refuses it, and nothing of it is
stored. A scope stands for its own identifier, a digest of the owner, the kind and
the key taken to be injective; a document stands for the text it was written as, which
whoever reads the column parses again. Sequence numbers are natural numbers below the largest stored integer.
-/

namespace Aicortex.Schema
open Aicortex.Text Aicortex.CivilTime Aicortex.History Aicortex.Memories Aicortex.ClaimGate Lib.Tables Lib.Outcome
open Aicortex.Claims hiding Unit
set_option linter.unusedSimpArgs false

inductive StoreError where
  | validation (message : String)
  | integrity (message : String)
  | conflict (message : String)
  | constraint (table : String)
  deriving Repr, DecidableEq

/-- The largest integer a column holds. -/
def maxInteger : Nat := 2 ^ 63 - 1

/-- A time as a column holds it, saturated at the largest integer. -/
def secondsToSql (at' : UnixSeconds) : Nat := min at' maxInteger

/-! ### Rows of the claim tables -/

structure ClaimRow where
  claimId : ClaimId
  scope : Scope
  subjectNamespace : Namespace
  subjectKind : SubjectKind
  subjectKey : String
  predicate : PredicateRef
  slotKey : Option SlotKey
  txSeq : Nat
  recordedAt : Nat
  validTime : ValidTime
  sourceTime : Option TimePoint
  sourceSeq : Option Nat
  authority : AuthorityLevel
  sourcing : Sourcing
  admission : AdmissionRef
  supersession : SupersessionRule
  hostileContent : Bool
  originErased : Bool
  erased : Bool
  claim : Option Claim
  deriving DecidableEq

structure RelationRow where
  scope : Scope
  fromClaim : ClaimId
  kind : RelationKind
  target : RelationTarget
  txSeq : Nat
  recordedAt : Nat
  authority : AuthorityLevel
  document : Option ClaimRelation
  deriving DecidableEq

structure RetractionRow where
  scope : Scope
  target : ClaimId
  txSeq : Nat
  recordedAt : Nat
  document : Retraction
  deriving DecidableEq

structure SourceRow where
  scope : Scope
  claimId : ClaimId
  source : MemoryId
  deriving DecidableEq

structure AdmissionRow where
  claimId : ClaimId
  scope : Scope
  proposal : ProposalId
  policy : PolicyRef
  authority : AuthorityLevel
  sourcing : Sourcing
  verdict : String
  evidence : List Evidence
  relations : List ClaimRelation
  corrects : List ClaimId
  conflicts : List ClaimId
  admittedAt : Nat
  deriving DecidableEq

structure ProposalRow where
  proposalId : ProposalId
  scope : Scope
  claimId : ClaimId
  predicate : PredicateRef
  proposer : Actor
  proposedAt : Nat
  document : ClaimProposal
  deriving DecidableEq

/-- What an erased claim keeps: its identity and what says nothing of its subject. -/
def ClaimRow.tombstone (row : ClaimRow) : ClaimRow :=
  { row with
    subjectKey := ""
    slotKey := none
    claim := none
    hostileContent := false
    originErased := true
    erased := true }

def ClaimRow.marked (row : ClaimRow) : ClaimRow := { row with originErased := true }

def RelationRow.scrubbed (row : RelationRow) : RelationRow := { row with document := none }

def AdmissionRow.scrubbed (row : AdmissionRow) : AdmissionRow := { row with evidence := [], relations := [] }

/-! ### Rows of the memory tables -/

/-- The status column, which does not name a successor. -/
inductive StatusLabel where
  | active
  | quarantined
  | superseded
  | expired
  | erased
  deriving Repr, DecidableEq

structure MemoryRow where
  id : MemoryId
  scope : Scope
  status : StatusLabel
  supersededBy : Option MemoryId
  kind : MemoryKind
  trust : TrustClass
  fingerprint : String
  fingerprintVersion : Nat
  schemaVersion : Nat
  bodyBytes : Nat
  created : Nat
  updated : Nat
  record : Memory
  validUntil : Option Nat
  originErased : Bool
  deriving DecidableEq

def MemoryRow.live (row : MemoryRow) : Bool := row.status != .erased

def MemoryRow.marked (row : MemoryRow) : MemoryRow := { row with originErased := true }

structure DerivationRow where
  memoryId : MemoryId
  parentId : MemoryId
  position : Nat
  scope : Scope
  deriving DecidableEq

/-- A digest key; one minted for a refusal belongs to no memory. -/
structure KeyRow where
  keyId : String
  scope : Scope
  memory : Option MemoryId
  deriving DecidableEq

/-- The durable receipt of an erasure: of one memory, or of the whole scope. -/
structure ReceiptRow where
  scope : Scope
  target : Option MemoryId
  decisionId : String
  ready : Bool
  delivered : Bool
  deriving DecidableEq

structure Database where
  txCounter : Scope → Nat
  claims : List ClaimRow
  relations : List RelationRow
  retractions : List RetractionRow
  sources : List SourceRow
  admissions : List AdmissionRow
  proposals : List ProposalRow
  memories : List MemoryRow
  derivations : List DerivationRow
  keys : List KeyRow
  receipts : List ReceiptRow

namespace Database

def empty : Database := ⟨fun _ => 0,[],[],[],[],[],[],[],[],[],[]⟩

/-! ### Inserts -/

/-- The scope's next sequence number. A counter at the largest integer does not move. -/
def nextTx (db : Database) (scope : Scope) : Except StoreError Database :=
  if db.txCounter scope < maxInteger then
    .ok { db with txCounter := Function.update db.txCounter scope (db.txCounter scope + 1) }
  else .error (.constraint "claim_tx_counter")

/-- A claim is unique by id and by its number in the scope. -/
def insertClaim (db : Database) (row : ClaimRow) : Except StoreError Database := do
  let claims ← insertRow ClaimRow.claimId (.constraint "claim_history") row db.claims
  let _ ← insertRow (fun row => (row.scope,row.txSeq)) (StoreError.constraint "claim_history_scope_tx") row db.claims
  .ok { db with claims := claims }

def insertRelation (db : Database) (row : RelationRow) : Except StoreError Database := do
  let relations ← insertRow (fun row => (row.scope,row.fromClaim,row.kind,row.target))
    (StoreError.constraint "claim_relation") row db.relations
  .ok { db with relations := relations }

def insertRetraction (db : Database) (row : RetractionRow) : Except StoreError Database := do
  let retractions ← insertRow (fun row => (row.scope,row.target,row.txSeq)) (StoreError.constraint "claim_retraction") row
    db.retractions
  .ok { db with retractions := retractions }

def insertSource (db : Database) (row : SourceRow) : Except StoreError Database := do
  let sources ← insertRow id (StoreError.constraint "claim_source") row db.sources
  .ok { db with sources := sources }

def insertAdmission (db : Database) (row : AdmissionRow) : Except StoreError Database := do
  let admissions ← insertRow AdmissionRow.claimId (.constraint "claim_admission") row db.admissions
  .ok { db with admissions := admissions }

def insertProposal (db : Database) (row : ProposalRow) : Except StoreError Database := do
  let proposals ← insertRow ProposalRow.proposalId (.constraint "claim_proposal") row db.proposals
  .ok { db with proposals := proposals }

/-! ### What a committed insert does -/

theorem nextTx_ok {db next : Database} {scope : Scope} (executed : db.nextTx scope = .ok next) :
    db.txCounter scope < maxInteger ∧
      next = { db with txCounter := Function.update db.txCounter scope (db.txCounter scope + 1) } := by
  unfold nextTx at executed
  split_ifs at executed with room
  exact ⟨room,(Except.ok.inj executed).symm⟩

theorem insertClaim_ok {db next : Database} {row : ClaimRow} (executed : db.insertClaim row = .ok next) :
    (∀ other ∈ db.claims, other.claimId ≠ row.claimId) ∧
      (∀ other ∈ db.claims, (other.scope,other.txSeq) ≠ (row.scope,row.txSeq)) ∧
      next = { db with claims := db.claims ++ [row] } := by
  unfold insertClaim at executed
  obtain ⟨claims,inserted,executed⟩ := bind_ok_iff.mp executed
  obtain ⟨_,numbered,executed⟩ := bind_ok_iff.mp executed
  obtain ⟨free,rfl⟩ := insertRow_ok.mp inserted
  exact ⟨free,(insertRow_ok.mp numbered).1,(Except.ok.inj executed).symm⟩

theorem fills_relations : Fills insertRelation (fun row => (row.scope,row.fromClaim,row.kind,row.target))
    (StoreError.constraint "claim_relation") Database.relations (fun db rows => { db with relations := rows }) :=
  ⟨fun _ _ => rfl,fun _ _ => rfl,fun _ _ _ => rfl,fun _ => rfl⟩

theorem fills_sources : Fills insertSource id (StoreError.constraint "claim_source") Database.sources
    (fun db rows => { db with sources := rows }) :=
  ⟨fun _ _ => rfl,fun _ _ => rfl,fun _ _ _ => rfl,fun _ => rfl⟩

theorem fills_admissions : Fills insertAdmission AdmissionRow.claimId (StoreError.constraint "claim_admission")
    Database.admissions (fun db rows => { db with admissions := rows }) :=
  ⟨fun _ _ => rfl,fun _ _ => rfl,fun _ _ _ => rfl,fun _ => rfl⟩

theorem insertRetraction_ok {db next : Database} {row : RetractionRow} (executed : db.insertRetraction row = .ok next) :
    next = { db with retractions := db.retractions ++ [row] } := by
  unfold insertRetraction at executed
  obtain ⟨retractions,inserted,executed⟩ := bind_ok_iff.mp executed
  rw [(insertRow_ok.mp inserted).2] at executed
  exact (Except.ok.inj executed).symm

theorem insertProposal_ok {db next : Database} {row : ProposalRow} (executed : db.insertProposal row = .ok next) :
    next = { db with proposals := db.proposals ++ [row] } := by
  unfold insertProposal at executed
  obtain ⟨proposals,inserted,executed⟩ := bind_ok_iff.mp executed
  rw [(insertRow_ok.mp inserted).2] at executed
  exact (Except.ok.inj executed).symm

theorem insertRelations_ok {rows : List RelationRow} {db next : Database}
    (executed : rows.foldlM insertRelation db = .ok next) : next = { db with relations := db.relations ++ rows } :=
  (fills_relations.run_ok_iff.mp executed).2.2

theorem insertSources_ok {rows : List SourceRow} {db next : Database} (executed : rows.foldlM insertSource db = .ok next) :
    next = { db with sources := db.sources ++ rows } :=
  (fills_sources.run_ok_iff.mp executed).2.2

end Database

end Aicortex.Schema
