import Aicortex.ErasureAccounts
import Aicortex.LifecycleFacts

/-!
The decision protocol of erasures. A receipt is committed with the destruction it stands
for, the batches of a scope are counted in a journal, the receipt is made ready by the
commit that leaves nothing, and only then is a Decision put together from the receipt and
the journal and appended to the ledger. Any caller may take any of these steps, from
reads that are out of date, and may stop after any of them.
-/

namespace Aicortex.ErasureLedger
open Aicortex.Text Aicortex.CivilTime Aicortex.Memories Aicortex.Schema Aicortex.MemoryRepo Aicortex.Erasure
open Aicortex.Pipeline Aicortex.ErasureAccounts
open Lib.Tables Lib.Outcome Lib.StaleRuns Lib.StaleRuns.System
open Aicortex.Claims hiding Unit
set_option linter.unusedSimpArgs false

/-! ### Decisions -/

/-- A value of a Decision's payload. -/
inductive Field where
  | text (value : String)
  | number (value : Nat)
  | flag (value : Bool)
  | texts (values : List String)
  deriving Repr, DecidableEq

/-- A Decision without the chain parent, which the ledger assigns. -/
structure Decision where
  id : String
  kind : String
  subject : Sub
  reason : String
  payload : List (String × Field)
  deriving DecidableEq

def Decision.field (decision : Decision) (key : String) : Option Field :=
  (decision.payload.find? (fun item => item.1 == key)).map Prod.snd

def Decision.insert (decision : Decision) (key : String) (value : Field) : Decision :=
  { decision with payload := decision.payload.filter (fun item => item.1 != key) ++ [(key,value)] }

theorem Decision.field_insert (decision : Decision) (key : String) (value : Field) :
    (decision.insert key value).field key = some value := by
  have none' : (decision.payload.filter (fun item => item.1 != key)).find? (fun item => item.1 == key) = none := by
    refine List.find?_eq_none.mpr fun item member => ?_
    simpa using (List.mem_filter.mp member).2
  simp [Decision.field,Decision.insert,List.find?_append,none']

theorem Decision.field_insert_other (decision : Decision) {key other : String} (apart : other ≠ key) (value : Field) :
    (decision.insert key value).field other = decision.field other := by
  have same : (decision.payload.filter (fun item => item.1 != key)).find? (fun item => item.1 == other) =
      decision.payload.find? (fun item => item.1 == other) := by
    rw [List.find?_filter]
    refine congrArg (fun test => decision.payload.find? test) (funext fun item => ?_)
    by_cases here : item.1 = other
    · simp [here,apart]
    · simp [here]
  simp [Decision.field,Decision.insert,List.find?_append,same,apart.symm]

/-- On whose authority a memory is being erased. -/
structure Authority where
  subject : Sub
  reasonCode : String
  deriving DecidableEq

def kindEraseScope : String := "memory.erase_scope"

def caveat : String :=
  "a backup taken before this erasure still holds the erased rows and their Decision digest keys until that backup is " ++
    "discarded; erasure reaches the live store, not copies already taken from it"

def eraseId (id : MemoryId) : String := s!"{kindErase}-{id}"

def eraseScopeId (id : MemoryId) : String := s!"{kindEraseScope}-{id}"

/-- The Decision of one memory's erasure, before it is counted. -/
def eraseDecision (authority : Authority) (prepared : PreparedErasure) : Decision where
  id := eraseId prepared.target
  kind := kindErase
  subject := authority.subject
  reason := "a memory was erased and its derivatives removed"
  payload := [("scope",.text prepared.scope.display),("memory_id",.text (toString prepared.target)),
    ("authority",.text authority.subject.text),("reason_code",.text authority.reasonCode),("cascade",.flag prepared.cascade),
    ("cascaded",.texts (prepared.cascaded.map toString)),("caveat",.text caveat)]

def eraseScopeDecision (authority : Authority) (scope : Scope) (id : MemoryId) : Decision where
  id := eraseScopeId id
  kind := kindEraseScope
  subject := authority.subject
  reason := "a scope was erased and its derivatives removed"
  payload := [("scope",.text scope.display),("authority",.text authority.subject.text),
    ("reason_code",.text authority.reasonCode),("caveat",.text caveat)]

/-- The Decision that is delivered: the receipt's own with the totals of its journal. -/
def counted (target : Option MemoryId) (decision : Decision) (totals : Totals) : Decision :=
  let decision := (decision.insert "derivatives_removed" (.number totals.derivatives)).insert "keys_destroyed"
    (.number totals.keysDestroyed)
  match target with
  | none => (decision.insert "memories" (.number totals.memories)).insert "batches" (.number totals.batches)
  | some _ => decision.insert "derivatives_marked" (.number totals.marked)

/-- The ids of the two kinds of operation never meet. -/
theorem eraseId_ne_eraseScopeId (memory operation : MemoryId) : eraseId memory ≠ eraseScopeId operation := by
  intro same
  have chars := congrArg (fun text : String => text.toList[12]?) same
  simp [eraseId,eraseScopeId,kindErase,kindEraseScope,toString] at chars

/-! ### Tables -/

/-- The durable receipt of an erasure, with the Decision it will deliver. -/
structure Receipt where
  scope : Scope
  target : Option MemoryId
  decision : Decision
  ready : Bool
  delivered : Bool
  deriving DecidableEq

namespace Receipt

def at' (scope : Scope) (target : Option MemoryId) (receipt : Receipt) : Bool :=
  receipt.scope == scope && receipt.target == target

/-- The receipt without what it will deliver. -/
def row (receipt : Receipt) : ReceiptRow :=
  ⟨receipt.scope,receipt.target,receipt.decision.id,receipt.ready,receipt.delivered⟩

end Receipt

/-- The store with the journal, and the ledger beside it. -/
structure Vault where
  stock : Stock
  receipts : List Receipt
  journal : List JournalRow
  ledger : List Decision

namespace Vault

def empty : Vault := ⟨.empty,[],[],[]⟩

/-- The database as an erasure reads it. -/
def db (vault : Vault) : Database := { vault.stock.holdings.db with receipts := vault.receipts.map Receipt.row }

def receipt (vault : Vault) (scope : Scope) (target : Option MemoryId) : Option Receipt :=
  vault.receipts.find? (Receipt.at' scope target)

def batched (vault : Vault) (scope : Scope) (operation : String) (entries : List Entry) (now : UnixSeconds) : Vault :=
  let (stock,journal) := accountedBatch scope operation entries now (vault.stock,vault.journal)
  { vault with stock := stock, journal := journal }

end Vault

/-! ### Transactions -/

/-- A receipt for one memory is refused unless the memory is still live. -/
def insertReceipt (vault : Vault) (receipt : Receipt) : Except StoreError Vault := do
  if receipt.target.any (fun id => !vault.stock.memories.any (fun memory => ofScope receipt.scope id memory && memory.live)) then
    .error (.constraint "erasure_receipt.decision")
  else
    let receipts ← insertRow (fun row : Receipt => (row.scope,row.target)) (StoreError.constraint "erasure_receipt") receipt
      vault.receipts
    let _ ← insertRow (fun row : Receipt => row.decision.id) (StoreError.constraint "erasure_receipt.decision_id") receipt
      vault.receipts
    .ok { vault with receipts := receipts }

/-- One memory's erasure: the receipt, the counted statements, and the receipt made ready. -/
def erase (prepared : PreparedErasure) (decision : Decision) (vault : Vault) : Except StoreError Vault := do
  let vault ← insertReceipt vault ⟨prepared.scope,some prepared.target,decision,false,false⟩
  let vault := vault.batched prepared.scope decision.id (eraseBatch prepared) prepared.now
  .ok { vault with
    receipts := updateWhere (Receipt.at' prepared.scope (some prepared.target)) (fun receipt => { receipt with ready := true })
      vault.receipts }

def startScope (scope : Scope) (decision : Decision) (vault : Vault) : Except StoreError Vault :=
  insertReceipt { vault with receipts := deleteWhere (fun receipt => receipt.at' scope none && receipt.delivered) vault.receipts }
    ⟨scope,none,decision,false,false⟩

/-- One batch of a scope's erasure, refused unless the operation is the open one. -/
def drainOneBatch (scope : Scope) (operation : String) (shells : List Shell) (now : UnixSeconds) (vault : Vault) :
    Except StoreError Vault :=
  if vault.receipts.any (fun receipt => receipt.at' scope none && !(receipt.decision.id == operation && !receipt.ready)) then
    .error (.constraint "erasure_receipt.ready")
  else
    let vault := vault.batched scope operation (drainBatch scope shells now) now
    .ok { vault with
      receipts := updateWhere (fun receipt => receipt.at' scope none && receipt.decision.id == operation &&
        drained vault.stock.holdings.db scope) (fun receipt => { receipt with ready := true }) vault.receipts }

/-- The ledger refuses a second record with an id it has. -/
def append (decision : Decision) (vault : Vault) : Except StoreError Vault :=
  if vault.ledger.any (fun resident => resident.id == decision.id) then .error (.conflict decision.id)
  else .ok { vault with ledger := vault.ledger ++ [decision] }

def deliver (scope : Scope) (target : Option MemoryId) (decisionId : String) (vault : Vault) : Vault :=
  { vault with
    receipts := updateWhere (fun receipt => receipt.at' scope target && receipt.decision.id == decisionId)
      (fun receipt => { receipt with delivered := true }) vault.receipts }

/-- Whether a Decision is in the ledger; another under its id is an error. -/
def decisionResident (ledger : List Decision) (decision : Decision) : Except StoreError Bool :=
  match ledger.find? (fun resident => resident.id == decision.id) with
  | none => .ok false
  | some resident =>
    if resident = decision then .ok true else .error (.integrity "erasure Decision id has different content")

/-! ### Runs -/

/-- What a caller, or anyone else, commits. -/
inductive Txn where
  -- captures, and all else that writes neither receipts nor the journal
  | other (change : Stock → Stock)
  | record (decision : Decision)
  | erase (prepared : PreparedErasure) (decision : Decision)
  | startScope (scope : Scope) (decision : Decision)
  | drain (scope : Scope) (operation : String) (shells : List Shell) (now : UnixSeconds)
  | append (decision : Decision)
  | deliver (scope : Scope) (target : Option MemoryId) (decisionId : String)

def commit (vault : Vault) : Txn → Except StoreError Vault
  | .other change => .ok { vault with stock := change vault.stock }
  | .record decision => ErasureLedger.append decision vault
  | .erase prepared decision => ErasureLedger.erase prepared decision vault
  | .startScope scope decision => ErasureLedger.startScope scope decision vault
  | .drain scope operation shells now => drainOneBatch scope operation shells now vault
  | .append decision => ErasureLedger.append decision vault
  | .deliver scope target decisionId => .ok (ErasureLedger.deliver scope target decisionId vault)

/-- Whether a caller starts a new operation: there was none, or the last is delivered and
    there is more to erase. -/
def startsAnew (previous : Option Receipt) (hasWork hasKeys : Bool) : Bool :=
  previous.all (fun receipt => receipt.delivered && (hasWork || hasKeys))

/-- Progress of a scope from before operations had their own totals. -/
def hasLegacy (journal : List JournalRow) (scope : Scope) : Bool := journal.any (ofOperation scope "legacy")

/-- A caller read a ready receipt, and later the totals of its journal, and has put the
    Decision together. -/
def Prepares (history : List Vault) (scope : Scope) (target : Option MemoryId) (receipt : Receipt) (decision : Decision) : Prop :=
  ∃ atReceipt atTotals, InOrder history atReceipt atTotals ∧ atReceipt.receipt scope target = some receipt ∧
    receipt.ready = true ∧
    decision = counted target receipt.decision (journalTotals atTotals.journal scope receipt.decision.id)

/-- A caller is about to append a Decision: it has not been delivered, and was not in the
    ledger when the caller looked. -/
def Appends (history : List Vault) (scope : Scope) (target : Option MemoryId) (decision : Decision) : Prop :=
  ∃ receipt, Prepares history scope target receipt decision ∧ receipt.delivered = false ∧
    ∃ seen ∈ history, decisionResident seen.ledger decision = .ok false

/-- What each caller stages, from whatever states it read. -/
inductive Stages (history : List Vault) : Txn → Prop
  | other (change : Stock → Stock) : Stages history (.other change)
  -- the Decisions of the gates, whose ids begin with kinds of their own
  | record {decision : Decision} (apart : ∀ id, decision.id ≠ eraseId id ∧ decision.id ≠ eraseScopeId id) :
      Stages history (.record decision)
  | erase {reads : Nat → Database} {scope : Scope} {id : MemoryId} {cascade : Bool} {now : UnixSeconds}
      {prepared : PreparedErasure} (authority : Authority) (read : ∀ place, ∃ seen ∈ history, reads place = seen.db)
      (staged : Lifecycle.prepareErase reads scope id cascade now = .ok prepared) :
      Stages history (.erase prepared (eraseDecision authority prepared))
  | startScope {atPrevious atWork atKeys atLegacy : Vault} {scope : Scope} (authority : Authority) (id : MemoryId)
      (previousRead : atPrevious ∈ history) (workRead : atWork ∈ history) (keysRead : atKeys ∈ history)
      (legacyRead : atLegacy ∈ history) (current : hasLegacy atLegacy.journal scope = false)
      (anew : startsAnew (atPrevious.receipt scope none) (atWork.stock.memories.any (fun row => row.scope == scope && row.live))
        (atKeys.stock.holdings.db.keys.any (fun row => row.scope == scope)) = true) :
      Stages history (.startScope scope (eraseScopeDecision authority scope id))
  | drain {atReceipt atBatch : Vault} {scope : Scope} {receipt : Receipt} {batch : Nat} (now : UnixSeconds)
      (bounded : 0 < batch ∧ batch ≤ maxErasureBatch) (reads : InOrder history atReceipt atBatch)
      (found : atReceipt.receipt scope none = some receipt) (draining : receipt.ready = false) :
      Stages history (.drain scope receipt.decision.id (batchShells atBatch.db scope batch) now)
  | append {scope : Scope} {target : Option MemoryId} {decision : Decision} (appends : Appends history scope target decision) :
      Stages history (.append decision)
  | deliver {scope : Scope} {target : Option MemoryId} {receipt : Receipt} {decision : Decision}
      (prepares : Prepares history scope target receipt decision)
      (delivered : receipt.delivered = true ∨ ∃ seen ∈ history, decisionResident seen.ledger decision = .ok true) :
      Stages history (.deliver scope target receipt.decision.id)

def system : System Vault Txn Txn StoreError := ⟨.empty,commit,fun txn => [txn],Stages⟩

/-- The ids that new operations are given are new. -/
def Fresh (now : Vault) : Txn → Prop
  | .startScope _ decision =>
    (∀ receipt ∈ now.receipts, receipt.decision.id ≠ decision.id) ∧ ∀ resident ∈ now.ledger, resident.id ≠ decision.id
  | _ => True

/-- The operation whose rows a transaction destroys. -/
def batchOf : Txn → Option (Scope × String)
  | .erase prepared decision => some (prepared.scope,decision.id)
  | .drain scope operation _ _ => some (scope,operation)
  | _ => none

/-- What the committed batches of an operation took away. -/
def destroyed (scope : Scope) (operation : String) : List (Txn × Vault) → Totals
  | [] => .zero
  | (txn,next) :: older =>
    if batchOf txn = some (scope,operation) then
      (destroyed scope operation older).add (losses (system.current older).stock next.stock)
    else destroyed scope operation older

/-! ### What a transaction can do -/

section
variable {scope : Scope} {target : Option MemoryId} {operation : String} {now next : Vault}

theorem Receipt.at'_iff {receipt : Receipt} : receipt.at' scope target = true ↔ receipt.scope = scope ∧ receipt.target = target := by
  simp [Receipt.at']

theorem Vault.receipt_some {receipt : Receipt} (found : now.receipt scope target = some receipt) :
    receipt ∈ now.receipts ∧ receipt.scope = scope ∧ receipt.target = target :=
  ⟨List.mem_of_find?_eq_some found,Receipt.at'_iff.mp (List.find?_some found)⟩

theorem insertReceipt_ok {receipt : Receipt} (inserted : insertReceipt now receipt = .ok next) :
    (∀ other ∈ now.receipts, (other.scope,other.target) ≠ (receipt.scope,receipt.target)) ∧
      (∀ other ∈ now.receipts, other.decision.id ≠ receipt.decision.id) ∧
      next = { now with receipts := now.receipts ++ [receipt] } := by
  unfold insertReceipt at inserted
  split_ifs at inserted
  obtain ⟨receipts,keyed,inserted⟩ := bind_ok_iff.mp inserted
  obtain ⟨_,identified,inserted⟩ := bind_ok_iff.mp inserted
  obtain ⟨free,rfl⟩ := insertRow_ok.mp keyed
  cases inserted
  exact ⟨free,(insertRow_ok.mp identified).1,rfl⟩

/-- An erasure adds one receipt, which is ready, and the losses of its batch. -/
theorem erase_ok {prepared : PreparedErasure} {decision : Decision} (erased : ErasureLedger.erase prepared decision now = .ok next) :
    (∀ other ∈ now.receipts, (other.scope,other.target) ≠ (prepared.scope,some prepared.target)) ∧
      (∀ other ∈ now.receipts, other.decision.id ≠ decision.id) ∧
      next = { now.batched prepared.scope decision.id (eraseBatch prepared) prepared.now with
        receipts := now.receipts ++ [⟨prepared.scope,some prepared.target,decision,true,false⟩] } := by
  obtain ⟨mid,inserted,erased⟩ := bind_ok_iff.mp erased
  obtain ⟨free,new,rfl⟩ := insertReceipt_ok inserted
  cases erased
  refine ⟨free,new,?_⟩
  have others : ∀ other ∈ now.receipts, other.at' prepared.scope (some prepared.target) = false := by
    intro other member
    refine Bool.eq_false_iff.mpr fun here => ?_
    have here := Receipt.at'_iff.mp here
    exact free other member (by rw [here.1,here.2])
  simp only [Vault.batched]
  rw [updateWhere_latest _ others (Receipt.at'_iff.mpr ⟨rfl,rfl⟩)]

/-- Starting an operation drops the one delivered before it, and adds a receipt. -/
theorem startScope_ok {decision : Decision} (started : ErasureLedger.startScope scope decision now = .ok next) :
    ∃ kept, kept = deleteWhere (fun receipt => receipt.at' scope none && receipt.delivered) now.receipts ∧
      (∀ other ∈ kept, (other.scope,other.target) ≠ (scope,none)) ∧ (∀ other ∈ kept, other.decision.id ≠ decision.id) ∧
      next = { now with receipts := kept ++ [⟨scope,none,decision,false,false⟩] } := by
  obtain ⟨free,new,is⟩ := insertReceipt_ok started
  exact ⟨_,rfl,free,new,is⟩

/-- A batch finds no receipt of the scope but that of its own operation, still open. -/
theorem drain_ok {shells : List Shell} {at' : UnixSeconds} (committed : drainOneBatch scope operation shells at' now = .ok next) :
    (∀ receipt ∈ now.receipts, receipt.scope = scope → receipt.target = none →
      receipt.decision.id = operation ∧ receipt.ready = false) ∧
    next.stock = (now.batched scope operation (drainBatch scope shells at') at').stock ∧
    next.journal = (now.batched scope operation (drainBatch scope shells at') at').journal ∧ next.ledger = now.ledger ∧
    next.receipts = updateWhere (fun receipt => receipt.at' scope none && receipt.decision.id == operation &&
      drained next.stock.holdings.db scope) (fun receipt => { receipt with ready := true }) now.receipts := by
  unfold drainOneBatch at committed
  split_ifs at committed with taken
  cases committed
  refine ⟨?_,rfl,rfl,rfl,rfl⟩
  intro receipt member here whole
  by_contra late
  refine taken (List.any_eq_true.mpr ⟨receipt,member,?_⟩)
  have at_ := Receipt.at'_iff.mpr ⟨here,whole⟩
  by_cases same : receipt.decision.id = operation
  · have closed : receipt.ready = true := by
      by_contra open'
      exact late ⟨same,Bool.eq_false_iff.mpr open'⟩
    simp [at_,closed]
  · simp [at_,same]

theorem append_ok {decision : Decision} (appended : ErasureLedger.append decision now = .ok next) :
    (∀ resident ∈ now.ledger, resident.id ≠ decision.id) ∧ next = { now with ledger := now.ledger ++ [decision] } := by
  unfold ErasureLedger.append at appended
  split_ifs at appended with taken
  cases appended
  refine ⟨fun resident member same => taken (List.any_eq_true.mpr ⟨resident,member,by simpa using same⟩),rfl⟩

end

end Aicortex.ErasureLedger
