import Aicortex.ClaimDocuments
import Aicortex.Schema

/-!
The claim tables: append, retraction and erasure of claims, proposals and admission
records as committed transactions, and the bounded history page that reads them
back. The page is one query on the claims and two further ones on the relations and
retractions, each document parsed as it is met and the whole rebuilt through a history
that refuses unknown endpoints.
-/

namespace Aicortex.ClaimRepo
open Aicortex.Text Aicortex.CivilTime Aicortex.History Aicortex.Projection Aicortex.ClaimGate Aicortex.Schema
open Lib.Tables Lib.Outcome Lib.Wire
open Aicortex.Wire (Form timePoint)
open Aicortex.Claims hiding Unit
set_option linter.unusedSimpArgs false

/-! ### Appending -/

/-- Inputs around one admitted claim, which only the gate builds. -/
structure ClaimAppend where
  admitted : AdmittedClaim
  grounded : admitted.Grounded
  valid : ValidTime
  sourceTime : Option TimePoint
  sourceSeq : Option Nat
  validTimeMode : ValidTimeMode
  supersession : SupersessionRule
  hostileContent : Bool

namespace ClaimAppend

def admissionRef (item : ClaimAppend) : AdmissionRef :=
  ⟨item.admitted.proposal,item.admitted.policy.id,item.admitted.policy.version,item.admitted.sourcing⟩

/-- The record an item would be read back as, before it has a sequence number. -/
def probe (item : ClaimAppend) (at' : UnixSeconds) : ClaimRecord where
  claim := item.admitted.claim
  valid := item.valid
  sourceTime := item.sourceTime
  sourceSeq := item.sourceSeq
  tx := ⟨1,at'⟩
  authority := item.admitted.authority
  admission := item.admissionRef
  supersession := item.supersession
  hostileContent := item.hostileContent
  originErased := false

def claimRow (item : ClaimAppend) (at' : UnixSeconds) (seq : Nat) : ClaimRow where
  claimId := item.admitted.claim.id
  scope := item.admitted.claim.scope
  subjectNamespace := item.admitted.claim.subject.namespace
  subjectKind := item.admitted.claim.subject.kind
  subjectKey := item.admitted.claim.subject.key.text
  predicate := item.admitted.claim.predicate
  slotKey := item.admitted.claim.slot
  txSeq := seq
  recordedAt := at'
  validTime := item.valid
  sourceTime := item.sourceTime
  sourceSeq := item.sourceSeq
  authority := item.admitted.authority
  sourcing := item.admitted.sourcing
  admission := item.admissionRef
  supersession := item.supersession
  hostileContent := item.hostileContent
  originErased := false
  erased := false
  claim := some item.admitted.claim

def sourceRows (item : ClaimAppend) : List SourceRow :=
  item.admitted.claim.provenance.derivedFrom.map (fun source =>
    ⟨item.admitted.claim.scope,item.admitted.claim.id,source⟩)

def relationRows (item : ClaimAppend) (at' : UnixSeconds) (seq : Nat) : List RelationRow :=
  item.admitted.relations.map (fun relation =>
    ⟨item.admitted.claim.scope,relation.source,relation.kind,relation.target,seq,at',item.admitted.authority,
      some relation⟩)

end ClaimAppend

def admissionRow (admitted : AdmittedClaim) (at' : UnixSeconds) : AdmissionRow where
  claimId := admitted.claim.id
  scope := admitted.claim.scope
  proposal := admitted.proposal
  policy := admitted.policy
  authority := admitted.authority
  sourcing := admitted.sourcing
  verdict := "admit"
  evidence := admitted.evidence
  relations := admitted.relations
  corrects := admitted.corrects
  conflicts := admitted.conflicts
  admittedAt := secondsToSql at'

/-- The slot of a supersession's target, in the history at hand or in the batch. -/
def targetSlot (existing : ClaimHistory) (batch : List ClaimAppend) (target : ClaimId) : Option SlotId :=
  ((existing.claims.find? target).map ClaimRecord.slotId).or
    ((batch.find? (fun candidate => candidate.admitted.claim.id == target)).map (fun candidate =>
      SlotId.ofClaim candidate.admitted.claim))

def crossesSlot (existing : ClaimHistory) (batch : List ClaimAppend) (slot : SlotId) (relation : ClaimRelation) : Bool :=
  match relation.kind,relation.target with
  | .supersedes,.claim target => targetSlot existing batch target != some slot
  | _,_ => false

/-- What is checked of an item before anything is written. -/
def checkItem (existing : ClaimHistory) (batch : List ClaimAppend) (at' : UnixSeconds) (item : ClaimAppend) :
    Except StoreError PUnit := do
  ((item.probe at').validateTime item.validTimeMode).mapError (fun error => .validation error.display)
  if item.admitted.relations.any (crossesSlot existing batch (item.probe at').slotId) then
    .error (.validation "supersession cannot cross a scope, subject, predicate, or slot")
  else if item.sourceSeq.any (fun seq => decide (seq > maxInteger)) then
    .error (.validation "source sequence exceeds SQLite INTEGER")
  else if at' > maxInteger then .error (.validation "time exceeds SQLite INTEGER")
  else .ok ()

/-- One item's rows, under the scope's next sequence number. -/
def appendItem (at' : UnixSeconds) (db : Database) (item : ClaimAppend) : Except StoreError Database := do
  let db ← db.nextTx item.admitted.claim.scope
  let seq := db.txCounter item.admitted.claim.scope
  let db ← db.insertClaim (item.claimRow at' seq)
  let db ← item.sourceRows.foldlM Database.insertSource db
  (item.relationRows at' seq).foldlM Database.insertRelation db

def recordAdmission (at' : UnixSeconds) (db : Database) (admitted : AdmittedClaim) : Except StoreError Database :=
  db.insertAdmission (admissionRow admitted at')

/-- Append a batch with its admission records. -/
def append (existing : ClaimHistory) (batch : List ClaimAppend) (at' : UnixSeconds) (db : Database) :
    Except StoreError Database := do
  if batch.isEmpty then .error (.validation "a claim append batch is empty")
  else
    batch.forM (checkItem existing batch at')
    let db ← batch.foldlM (appendItem at') db
    (batch.map (·.admitted)).foldlM (recordAdmission at') db

def admitBatch (batch : List AdmittedClaim) (at' : UnixSeconds) (db : Database) : Except StoreError Database :=
  if batch.isEmpty then .error (.validation "an admission batch admits at least one claim")
  else batch.foldlM (recordAdmission at') db

def propose (proposal : ClaimProposal) (db : Database) : Except StoreError Database :=
  db.insertProposal ⟨proposal.id,proposal.claim.scope,proposal.claim.id,proposal.claim.predicate,proposal.proposer,
    secondsToSql proposal.proposedAt,proposal⟩

def retract (scope : Scope) (retraction : Retraction) (db : Database) : Except StoreError Database :=
  if retraction.tx.recordedAt > maxInteger then .error (.validation "time exceeds SQLite INTEGER")
  else do
    let db ← db.nextTx scope
    db.insertRetraction ⟨scope,retraction.target,db.txCounter scope,retraction.tx.recordedAt,retraction⟩

/-! ### Erasing one claim -/

def ofSubject (scope : Scope) (subject : SubjectRef) (row : ClaimRow) : Bool :=
  row.scope == scope && row.subjectNamespace == subject.namespace && row.subjectKind == subject.kind &&
    row.subjectKey == subject.key.text

def eraseClaim (scope : Scope) (subject : SubjectRef) (id : ClaimId) (db : Database) : Database :=
  { db with
    claims := updateWhere (fun row => ofSubject scope subject row && row.claimId == id && !row.erased)
      ClaimRow.tombstone db.claims
    relations := updateWhere (fun row => row.scope == scope && row.fromClaim == id) RelationRow.scrubbed db.relations
    admissions := updateWhere (fun row => row.scope == scope && row.claimId == id) AdmissionRow.scrubbed
      db.admissions }

/-! ### What the erasure of a memory or a scope does to claims -/

def cites (db : Database) (scope : Scope) (source : MemoryId) (id : ClaimId) : Bool :=
  db.sources.any (fun row => row.scope == scope && row.claimId == id && row.source == source)

/-- The live claims that cite an erased memory are marked. -/
def markSourceClaims (scope : Scope) (source : MemoryId) (db : Database) : Database :=
  { db with
    claims := updateWhere (fun row => row.scope == scope && !row.erased && cites db scope source row.claimId)
      ClaimRow.marked db.claims }

/-- Or, in a cascade, erased with what they wrote. -/
def eraseSourceClaims (scope : Scope) (source : MemoryId) (db : Database) : Database :=
  { db with
    claims := updateWhere (fun row => row.scope == scope && !row.erased && cites db scope source row.claimId)
      ClaimRow.tombstone db.claims
    relations := updateWhere (fun row => row.scope == scope && cites db scope source row.fromClaim)
      RelationRow.scrubbed db.relations
    admissions := updateWhere (fun row => row.scope == scope && cites db scope source row.claimId)
      AdmissionRow.scrubbed db.admissions }

/-- One batch of a scope's erasure: the claims become tombstones, and what was
    recorded around them goes. -/
def eraseScopeClaims (scope : Scope) (db : Database) : Database :=
  { db with
    claims := updateWhere (fun row => row.scope == scope && !row.erased) ClaimRow.tombstone db.claims
    relations := deleteWhere (fun row => row.scope == scope) db.relations
    retractions := deleteWhere (fun row => row.scope == scope) db.retractions
    sources := deleteWhere (fun row => row.scope == scope) db.sources
    admissions := deleteWhere (fun row => row.scope == scope) db.admissions
    proposals := deleteWhere (fun row => row.scope == scope) db.proposals }

/-! ### Transactions on the claim tables -/

inductive ClaimTxn where
  | propose (proposal : ClaimProposal)
  | admissions (batch : List AdmittedClaim) (at' : UnixSeconds)
  | append (existing : ClaimHistory) (batch : List ClaimAppend) (at' : UnixSeconds)
  | retract (scope : Scope) (retraction : Retraction)
  | erase (scope : Scope) (subject : SubjectRef) (id : ClaimId)
  | markSource (scope : Scope) (source : MemoryId)
  | eraseSource (scope : Scope) (source : MemoryId)
  | eraseScope (scope : Scope)

def commit (db : Database) : ClaimTxn → Except StoreError Database
  | .propose proposal => propose proposal db
  | .admissions batch at' => admitBatch batch at' db
  | .append existing batch at' => append existing batch at' db
  | .retract scope retraction => retract scope retraction db
  | .erase scope subject id => .ok (eraseClaim scope subject id db)
  | .markSource scope source => .ok (markSourceClaims scope source db)
  | .eraseSource scope source => .ok (eraseSourceClaims scope source db)
  | .eraseScope scope => .ok (eraseScopeClaims scope db)

/-- Committed one after another. -/
def commitAll (db : Database) (txns : List ClaimTxn) : Except StoreError Database := txns.foldlM commit db

/-! ### What a committed transaction does -/

/-- An item is appended under a fresh id and the scope's next number, which no claim
    of the scope has; its rows are added and nothing else changes. -/
theorem appendItem_ok {at' : UnixSeconds} {db next : Database} {item : ClaimAppend}
    (executed : appendItem at' db item = .ok next) :
    db.txCounter item.admitted.claim.scope < maxInteger ∧
      (∀ other ∈ db.claims, other.claimId ≠ item.admitted.claim.id) ∧
      (∀ other ∈ db.claims,
        (other.scope,other.txSeq) ≠ (item.admitted.claim.scope,db.txCounter item.admitted.claim.scope + 1)) ∧
      next = { db with
        txCounter := Function.update db.txCounter item.admitted.claim.scope
          (db.txCounter item.admitted.claim.scope + 1)
        claims := db.claims ++ [item.claimRow at' (db.txCounter item.admitted.claim.scope + 1)]
        sources := db.sources ++ item.sourceRows
        relations := db.relations ++ item.relationRows at' (db.txCounter item.admitted.claim.scope + 1) } := by
  unfold appendItem at executed
  obtain ⟨numbered,counted,executed⟩ := bind_ok_iff.mp executed
  obtain ⟨claimed,inserted,executed⟩ := bind_ok_iff.mp executed
  obtain ⟨sourced,cited,related⟩ := bind_ok_iff.mp executed
  obtain ⟨room,rfl⟩ := Database.nextTx_ok counted
  obtain ⟨fresh,unused,rfl⟩ := Database.insertClaim_ok inserted
  rw [Database.insertSources_ok cited] at related
  have final := Database.insertRelations_ok related
  simp only [Function.update_self] at fresh unused final
  exact ⟨room,fresh,unused,final⟩

/-- The admission records of a batch are kept when no two name one claim and none was
    kept before. -/
theorem recordAdmissions_ok_iff {at' : UnixSeconds} {batch : List AdmittedClaim} {db next : Database} :
    batch.foldlM (recordAdmission at') db = .ok next ↔
      UniqueBy (fun admitted => admitted.claim.id) batch ∧
        (∀ admitted ∈ batch, ∀ other ∈ db.admissions, other.claimId ≠ admitted.claim.id) ∧
        next = { db with admissions := db.admissions ++ batch.map (fun admitted => admissionRow admitted at') } := by
  have rows : batch.foldlM (recordAdmission at') db =
      (batch.map (fun admitted => admissionRow admitted at')).foldlM Database.insertAdmission db := by
    rw [List.foldlM_map]
    rfl
  rw [rows,Database.fills_admissions.run_ok_iff]
  simp only [UniqueBy,List.map_map,List.forall_mem_map]
  rfl

theorem recordAdmissions_ok {at' : UnixSeconds} {batch : List AdmittedClaim} {db next : Database}
    (executed : batch.foldlM (recordAdmission at') db = .ok next) :
    (∀ admitted ∈ batch, ∀ other ∈ db.admissions, other.claimId ≠ admitted.claim.id) ∧
      next = { db with admissions := db.admissions ++ batch.map (fun admitted => admissionRow admitted at') } :=
  (recordAdmissions_ok_iff.mp executed).2

theorem append_ok {existing : ClaimHistory} {batch : List ClaimAppend} {at' : UnixSeconds} {db next : Database}
    (executed : append existing batch at' db = .ok next) :
    ∃ mid, batch.foldlM (appendItem at') db = .ok mid ∧
      (batch.map (·.admitted)).foldlM (recordAdmission at') mid = .ok next := by
  unfold append at executed
  split_ifs at executed
  obtain ⟨_,-,executed⟩ := bind_ok_iff.mp executed
  exact bind_ok_iff.mp executed

theorem admitBatch_ok {batch : List AdmittedClaim} {at' : UnixSeconds} {db next : Database}
    (executed : admitBatch batch at' db = .ok next) : batch.foldlM (recordAdmission at') db = .ok next := by
  unfold admitBatch at executed
  split_ifs at executed
  exact executed

theorem retract_ok {scope : Scope} {retraction : Retraction} {db next : Database}
    (executed : retract scope retraction db = .ok next) :
    db.txCounter scope < maxInteger ∧
      next = { db with
        txCounter := Function.update db.txCounter scope (db.txCounter scope + 1)
        retractions := db.retractions ++
          [⟨scope,retraction.target,db.txCounter scope + 1,retraction.tx.recordedAt,retraction⟩] } := by
  unfold retract at executed
  split_ifs at executed
  obtain ⟨numbered,counted,inserted⟩ := bind_ok_iff.mp executed
  obtain ⟨room,rfl⟩ := Database.nextTx_ok counted
  have final := Database.insertRetraction_ok inserted
  simp only [Function.update_self] at final
  exact ⟨room,final⟩

/-! ### Reading a page -/

def maxClaimPageRows : Nat := 500

structure HistoryQuery where
  scope : Scope
  subject : SubjectRef
  predicate : Option PredicateRef
  bound : TxBound

def HistoryQuery.selects (query : HistoryQuery) (row : ClaimRow) : Bool :=
  ofSubject query.scope query.subject row && withinTx ⟨row.txSeq,row.recordedAt⟩ query.bound &&
    query.predicate.all (fun predicate => row.predicate == predicate)

structure ClaimHistoryPage where
  history : ClaimHistory
  nextAfter : Option Nat
  deriving DecidableEq

/-- The rows of a page: beyond the cursor, in sequence, up to the limit. -/
def pageRows (db : Database) (query : HistoryQuery) (after limit : Nat) : List ClaimRow :=
  ((db.claims.filter (fun row => query.selects row && decide (after < row.txSeq))).insertionSort
    (fun left right => left.txSeq ≤ right.txSeq)).take limit

/-- The text documents are kept as: the forms of the types other packages define, and
    how a refusal to read one is worded. -/
structure Serde where
  foreign : ClaimWire.Foreign
  message : Refusal TypeError → String

/-- The value is read from the text it was written as. -/
def parse {α : Type} (serde : Serde) (what : String) (form : Form α) (written : α) : Except StoreError α :=
  (form.decode (form.encode written)).mapError (fun refusal =>
    .integrity s!"stored {what} does not parse: {serde.message refusal}")

/-- The record of a row and its document. -/
def recordOf (row : ClaimRow) (claim : Claim) : ClaimRecord where
  claim := claim
  valid := row.validTime
  sourceTime := row.sourceTime
  sourceSeq := row.sourceSeq
  tx := ⟨row.txSeq,row.recordedAt⟩
  authority := row.authority
  admission := row.admission
  supersession := row.supersession
  hostileContent := row.hostileContent
  originErased := row.originErased

def decodeLive (serde : Serde) (row : ClaimRow) : Except StoreError ClaimRecord :=
  match row.claim with
  | none => .error (.integrity s!"live claim {row.claimId} has no document")
  | some written => do
    let claim ← parse serde "claim" (ClaimWire.claim serde.foreign) written
    let admission ← parse serde "admission reference" (ClaimDocuments.admissionRef serde.foreign) row.admission
    if admission.sourcing ≠ row.sourcing then .error (.integrity "stored admission sourcing disagrees")
    else do
      let valid ← parse serde "valid time" ClaimDocuments.validTime row.validTime
      let sourceTime ← row.sourceTime.mapM (parse serde "source time" timePoint)
      .ok { recordOf row claim with
        valid := valid
        sourceTime := sourceTime
        admission := admission }

/-- A refusal of the rebuilt history is an integrity error. -/
def corrupt {α : Type} (result : Except HistoryError α) : Except StoreError α :=
  result.mapError (fun error => .integrity error.display)

def loadClaim (serde : Serde) (history : ClaimHistory) (row : ClaimRow) : Except StoreError ClaimHistory :=
  if row.erased then .ok history
  else do
    let record ← decodeLive serde row
    corrupt (history.appendClaim record)

/-- The ids of the subject's claims, which the two further queries are keyed by. -/
def subjectIds (db : Database) (scope : Scope) (subject : SubjectRef) : List ClaimId :=
  (db.claims.filter (ofSubject scope subject)).map (·.claimId)

/-- The column order `to_id` is read in. -/
def targetId : RelationTarget → Nat
  | .claim id => id.value
  | .memory id => id.value

def relationOrder (left right : RelationRow) : Bool :=
  decide (left.txSeq < right.txSeq) || (left.txSeq == right.txSeq &&
    (decide (left.fromClaim < right.fromClaim) || (left.fromClaim == right.fromClaim &&
      decide (targetId left.target ≤ targetId right.target))))

def retractionOrder (left right : RetractionRow) : Bool :=
  decide (left.txSeq < right.txSeq) || (left.txSeq == right.txSeq && decide (left.target ≤ right.target))

def subjectRelations (db : Database) (scope : Scope) (subject : SubjectRef) : List RelationRow :=
  (db.relations.filter (fun row => row.scope == scope && (subjectIds db scope subject).contains row.fromClaim)).insertionSort
    (fun left right => relationOrder left right = true)

def subjectRetractions (db : Database) (scope : Scope) (subject : SubjectRef) : List RetractionRow :=
  (db.retractions.filter (fun row => row.scope == scope && (subjectIds db scope subject).contains row.target)).insertionSort
    (fun left right => retractionOrder left right = true)

def relationRecord (row : RelationRow) (relation : ClaimRelation) : HistoryRelation :=
  ⟨relation,row.authority,⟨row.txSeq,row.recordedAt⟩⟩

def retractionRecord (row : RetractionRow) (retraction : Retraction) : Retraction :=
  { retraction with tx := ⟨row.txSeq,row.recordedAt⟩ }

/-- Whether a relation's claims are all in the history; another one is skipped. -/
def attaches (history : ClaimHistory) (relation : ClaimRelation) : Bool :=
  history.claims.contains relation.source &&
    match relation.target with
    | .claim target => history.claims.contains target
    | .memory _ => true

def loadRelation (serde : Serde) (history : ClaimHistory) (row : RelationRow) : Except StoreError ClaimHistory :=
  match row.document with
  | none => .ok history
  | some written => do
    let relation ← parse serde "claim relation" (ClaimDocuments.claimRelation serde.foreign) written
    if attaches history relation then corrupt (history.appendRelation (relationRecord row relation)) else .ok history

def loadRetraction (serde : Serde) (history : ClaimHistory) (row : RetractionRow) : Except StoreError ClaimHistory := do
  let retraction ← parse serde "claim retraction" (ClaimDocuments.retraction serde.foreign) row.document
  corrupt (history.appendRetraction (retractionRecord row retraction))

/-- Read one bounded page of a subject's history. -/
def history (serde : Serde) (db : Database) (query : HistoryQuery) (after limit : Nat) :
    Except StoreError ClaimHistoryPage :=
  if limit = 0 ∨ limit > maxClaimPageRows then
    .error (.validation s!"claim history limit {limit} is not between 1 and {maxClaimPageRows}")
  else if after > maxInteger then .error (.validation "history cursor exceeds SQLite INTEGER")
  else
    match query.bound with
    | .sequence seq =>
      if seq > maxInteger then .error (.validation "transaction bound exceeds SQLite INTEGER") else read
    | .recordedAt instant => if instant > maxInteger then .error (.validation "time exceeds SQLite INTEGER") else read
where
  read : Except StoreError ClaimHistoryPage := do
    let rows := pageRows db query after limit
    let loaded ← rows.foldlM (loadClaim serde) ClaimHistory.new
    let rebuilt ←
      if loaded.claims.entries.isEmpty then .ok loaded
      else do
        let related ← (subjectRelations db query.scope query.subject).foldlM (loadRelation serde) loaded
        (subjectRetractions db query.scope query.subject).foldlM (loadRetraction serde) related
    .ok ⟨rebuilt,if rows.length = limit then rows.getLast?.map (·.txSeq) else none⟩

namespace Sample
open Claims.Sample History.Sample

/-- The owner's own statement, as the gate admits it. -/
def admitted (id : ClaimId) (value : String) : AdmittedClaim where
  claim := claim id value
  proposal := ⟨id.value,id.bound⟩
  proposer := actor
  policy := ClaimGate.Sample.policy.reference
  authority := .userAsserted
  sourcing := .user
  evidence := [.userStatement ⟨"alice"⟩ .userAsserted]
  relations := []
  corrects := []
  conflicts := []

def item (id : ClaimId) (value : String) : ClaimAppend where
  admitted := admitted id value
  grounded := by simp [AdmittedClaim.Grounded,admitted]
  valid := .timeless
  sourceTime := none
  sourceSeq := none
  validTimeMode := .timeless
  supersession := .bySourceOrder
  hostileContent := false

/-- Two claims about one seat, and the first withdrawn. -/
def withdrawn : List ClaimTxn :=
  [.append .new [item firstId "12A"] 10,.append .new [item secondId "14C"] 11,.retract scope (retraction firstId 12)]

/-- Documents as the forms write them, and a refusal in a few words. -/
def serde : Serde where
  foreign := ClaimWire.Sample.foreign
  message
    | .unexpected wanted => "expected " ++ wanted
    | .unknownField name => "unknown field " ++ name
    | .duplicateField name => "duplicate field " ++ name
    | .missingField name => "missing field " ++ name
    | .refused _ => "refused"

/-- Everything known of the seat. -/
def query : HistoryQuery := ⟨scope,subject,none,.sequence 10⟩

end Sample

end Aicortex.ClaimRepo
