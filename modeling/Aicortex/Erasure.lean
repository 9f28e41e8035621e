import Aicortex.ClaimRepo
import Aicortex.MemoryRepo

/-!
Erasure of one memory and of a scope. One memory's erasure is prepared from reads and
committed later as one transaction: a durable receipt, the sweep of the derivatives,
tombstones, and marks on what was derived. A scope is drained in batches, each its own
transaction, until a batch commits with nothing left; the receipt then says so.
-/

namespace Aicortex.Erasure
open Aicortex.Text Aicortex.CivilTime Aicortex.Memories Aicortex.Schema Aicortex.ClaimRepo Aicortex.MemoryRepo
open Lib.Tables Lib.Outcome
open Aicortex.Claims hiding Unit
set_option linter.unusedSimpArgs false

/-! ### Tombstones -/

/-- The few columns an erasure needs from a row it is about to empty. -/
structure Shell where
  id : MemoryId
  kind : MemoryKind
  status : StatusLabel
  created : UnixSeconds
  deriving DecidableEq

def Shell.of (row : MemoryRow) : Shell := ⟨row.id,row.kind,row.status,row.created⟩

/-- The record that replaces an erased memory's own. -/
def tombstone (scope : Scope) (shell : Shell) (now : UnixSeconds) : Memory :=
  { Memory.new {
      id := shell.id
      scope := scope
      kind := shell.kind
      body := ⟨"",none,[]⟩
      actor := ⟨.system,⟨"erased",by decide⟩,none⟩
      provenance := ⟨⟨⟨"erased",by decide⟩,none,none⟩,shell.created,shell.created,[],none,none,[]⟩
      trust := .assertion
      importance := ⟨0,shell.created,0⟩
      created := shell.created } with
    status := .erased
    updated := now }

def buryRow (scope : Scope) (now : UnixSeconds) (shell : Shell) (row : MemoryRow) : MemoryRow :=
  { row with
    status := .erased
    supersededBy := none
    fingerprint := ""
    bodyBytes := 0
    validUntil := none
    updated := secondsToSql now
    record := tombstone scope shell now }

/-- One guarded tombstone a shell: a row erased since it was read stays as it is. -/
def stageTombstones (scope : Scope) (shells : List Shell) (now : UnixSeconds) (db : Database) : Database :=
  shells.foldl (fun db shell => { db with
    memories := updateWhere (fun row => ofScope scope shell.id row && row.live) (buryRow scope now shell) db.memories }) db

/-- The derivation rows that name a swept memory as the child go; those that name it
    as the parent stay. -/
def stageSweep (scope : Scope) (shells : List Shell) (db : Database) : Database :=
  { db with
    derivations := deleteWhere (fun row => row.scope == scope && shells.any (fun shell => shell.id == row.memoryId))
      db.derivations }

def destroyForMemories (scope : Scope) (shells : List Shell) (db : Database) : Database :=
  { db with
    keys := deleteWhere (fun row => row.scope == scope && shells.any (fun shell => row.memory == some shell.id)) db.keys }

def destroyForScope (scope : Scope) (db : Database) : Database :=
  { db with keys := deleteWhere (fun row => row.scope == scope) db.keys }

/-! ### Receipts -/

def receiptAt (scope : Scope) (target : Option MemoryId) (row : ReceiptRow) : Bool :=
  row.scope == scope && row.target == target

def receipt (db : Database) (scope : Scope) (target : Option MemoryId) : Option ReceiptRow :=
  db.receipts.find? (receiptAt scope target)

/-- A receipt for one memory is refused unless the memory is still live. -/
def insertReceipt (db : Database) (row : ReceiptRow) : Except StoreError Database := do
  if row.target.any (fun id => !db.memories.any (fun memory => ofScope row.scope id memory && memory.live)) then
    .error (.constraint "erasure_receipt.decision")
  else
    let receipts ← insertRow (fun row => (row.scope,row.target)) (StoreError.constraint "erasure_receipt") row db.receipts
    let _ ← insertRow ReceiptRow.decisionId (.constraint "erasure_receipt.decision_id") row db.receipts
    .ok { db with receipts := receipts }

def deliver (scope : Scope) (target : Option MemoryId) (decisionId : String) (db : Database) : Database :=
  { db with
    receipts := updateWhere (fun row => receiptAt scope target row && row.decisionId == decisionId)
      (fun row => { row with delivered := true }) db.receipts }

/-! ### One memory -/

/-- Whether a memory names another as a parent, in the scope. -/
def derives (db : Database) (scope : Scope) (parent child : MemoryId) : Bool :=
  db.derivations.any (fun row => row.scope == scope && row.parentId == parent && row.memoryId == child)

def markDerived (scope : Scope) (parent : MemoryId) (db : Database) : Database :=
  { db with
    memories := updateWhere (fun row => row.scope == scope && !row.originErased && row.live && derives db scope parent row.id)
      MemoryRow.marked db.memories }

def kindErase : String := "memory.erase"

/-- A single-memory erasure prepared from reads and ready to commit. -/
structure PreparedErasure where
  scope : Scope
  target : MemoryId
  cascade : Bool
  cascaded : List MemoryId
  shells : List Shell
  now : UnixSeconds

def shell (db : Database) (scope : Scope) (id : MemoryId) : Option Shell :=
  (db.memories.find? (fun row => ofScope scope id row && row.live)).map Shell.of

def derivedOf (db : Database) (scope : Scope) (id : MemoryId) : List MemoryId :=
  (db.derivations.filter (fun row => row.scope == scope && row.parentId == id)).map (·.memoryId)

/-- What the prepared statements do to the rows. -/
def eraseRows (prepared : PreparedErasure) (db : Database) : Database :=
  let db := stageSweep prepared.scope prepared.shells db
  let db := destroyForMemories prepared.scope prepared.shells db
  let db := stageTombstones prepared.scope prepared.shells prepared.now db
  let db := markDerived prepared.scope prepared.target db
  if prepared.cascade then eraseSourceClaims prepared.scope prepared.target db
  else markSourceClaims prepared.scope prepared.target db

/-- The prepared statements, as they act when their transaction commits. -/
def commitErase (prepared : PreparedErasure) (db : Database) : Except StoreError Database := do
  let db ← insertReceipt db ⟨prepared.scope,some prepared.target,s!"{kindErase}-{prepared.target}",false,false⟩
  let db := eraseRows prepared db
  .ok { db with
    receipts := updateWhere (receiptAt prepared.scope (some prepared.target)) (fun row => { row with ready := true })
      db.receipts }

/-! ### A scope -/

def maxErasureBatch : Nat := 500
def maxAccountedErasureBatch : Nat := 200

/-- A new operation takes the place of a delivered one. -/
def startScope (scope : Scope) (decisionId : String) (db : Database) : Except StoreError Database :=
  insertReceipt
    { db with receipts := deleteWhere (fun row => receiptAt scope none row && row.delivered) db.receipts }
    ⟨scope,none,decisionId,false,false⟩

/-- The next memories of the scope that are not tombstones yet. -/
def batchShells (db : Database) (scope : Scope) (batch : Nat) : List Shell :=
  (((db.memories.filter (fun row => row.scope == scope && row.live)).insertionSort
    (fun left right => left.id ≤ right.id)).take (min batch maxAccountedErasureBatch)).map Shell.of

/-- Whether anything of the scope is left, as the receipt's last statement asks. -/
def drained (db : Database) (scope : Scope) : Bool :=
  !db.memories.any (fun row => row.scope == scope && row.live) &&
    !db.claims.any (fun row => row.scope == scope && !row.erased) && !db.keys.any (fun row => row.scope == scope)

/-- What a batch does to the rows. -/
def drainRows (scope : Scope) (shells : List Shell) (now : UnixSeconds) (db : Database) : Database :=
  let db := stageSweep scope shells db
  let db := destroyForScope scope db
  let db := stageTombstones scope shells now db
  eraseScopeClaims scope db

/-- One batch of an operation, and whether it was the last. -/
def drain (scope : Scope) (operation : String) (shells : List Shell) (now : UnixSeconds) (db : Database) :
    Except StoreError (Database × Bool) :=
  if db.receipts.any (fun row => receiptAt scope none row && !(row.decisionId == operation && !row.ready)) then
    .error (.constraint "erasure_receipt.ready")
  else
    let db := drainRows scope shells now db
    let done := fun row : ReceiptRow => receiptAt scope none row && row.decisionId == operation && drained db scope
    .ok ({ db with receipts := updateWhere done (fun row => { row with ready := true }) db.receipts },
      db.receipts.any done)

/-! ### Which memories become tombstones -/

/-- A row that one of the shells names. -/
def named (scope : Scope) (shells : List Shell) (row : MemoryRow) : Bool :=
  row.scope == scope && shells.any (fun shell => shell.id == row.id)

/-- A row after the tombstones of all shells. -/
def bury (scope : Scope) (shells : List Shell) (now : UnixSeconds) (row : MemoryRow) : MemoryRow :=
  shells.foldl (fun row shell => if ofScope scope shell.id row && row.live then buryRow scope now shell row else row) row

theorem stageTombstones_eq (scope : Scope) (shells : List Shell) (now : UnixSeconds) (db : Database) :
    stageTombstones scope shells now db = { db with memories := db.memories.map (bury scope shells now) } := by
  induction shells generalizing db with
  | nil =>
    have still : bury scope [] now = id := rfl
    rw [still,List.map_id]
    rfl
  | cons shell rest ih =>
    have unfolded : stageTombstones scope (shell :: rest) now db = stageTombstones scope rest now { db with
        memories := updateWhere (fun row => ofScope scope shell.id row && row.live) (buryRow scope now shell)
          db.memories } := rfl
    rw [unfolded,ih]
    simp only [updateWhere,List.map_map]
    rfl

/-- A buried row keeps its name, its place and its mark, and is live only if it was
    and no shell names it. -/
theorem bury_spec (scope : Scope) (shells : List Shell) (now : UnixSeconds) (row : MemoryRow) :
    (bury scope shells now row).id = row.id ∧ (bury scope shells now row).scope = row.scope ∧
      (bury scope shells now row).originErased = row.originErased ∧
      (bury scope shells now row).live = (row.live && !named scope shells row) := by
  induction shells generalizing row with
  | nil => simp [bury,named]
  | cons shell rest ih =>
    have unfolded : bury scope (shell :: rest) now row = bury scope rest now
        (if ofScope scope shell.id row && row.live then buryRow scope now shell row else row) := rfl
    rw [unfolded]
    by_cases chosen : (ofScope scope shell.id row && row.live) = true
    · obtain ⟨sameId,sameScope,sameMark,lives⟩ := ih (buryRow scope now shell row)
      rw [if_pos chosen]
      refine ⟨sameId,sameScope,sameMark,?_⟩
      simp only [ofScope,Bool.and_eq_true,beq_iff_eq] at chosen
      have hit : named scope (shell :: rest) row = true := by simp [named,chosen.1.1,chosen.1.2]
      have dead : (buryRow scope now shell row).live = false := rfl
      rw [lives,hit,dead]
      simp
    · rw [if_neg chosen]
      obtain ⟨sameId,sameScope,sameMark,lives⟩ := ih row
      refine ⟨sameId,sameScope,sameMark,?_⟩
      rw [lives]
      cases alive : row.live with
      | false => rfl
      | true =>
        have missed : ofScope scope shell.id row = false := by simpa [alive] using chosen
        simp only [ofScope,Bool.and_eq_false_iff,beq_eq_false_iff_ne,ne_eq] at missed
        simp only [Bool.true_and,named,List.any_cons]
        rcases missed with elsewhere | other
        · have apart : (row.scope == scope) = false := by simpa using elsewhere
          simp [apart]
        · have apart : (shell.id == row.id) = false := beq_false_of_ne (Ne.symm other)
          simp [apart]

/-! ### What a committed erasure does -/

theorem insertReceipt_ok {db next : Database} {row : ReceiptRow} (executed : insertReceipt db row = .ok next) :
    (∀ id, row.target = some id → ∃ memory ∈ db.memories, ofScope row.scope id memory = true ∧ memory.live = true) ∧
      (∀ other ∈ db.receipts, (other.scope,other.target) ≠ (row.scope,row.target)) ∧
      next = { db with receipts := db.receipts ++ [row] } := by
  unfold insertReceipt at executed
  split_ifs at executed with dead
  obtain ⟨receipts,inserted,executed⟩ := bind_ok_iff.mp executed
  obtain ⟨_,-,executed⟩ := bind_ok_iff.mp executed
  obtain ⟨free,rfl⟩ := insertRow_ok.mp inserted
  refine ⟨?_,free,(Except.ok.inj executed).symm⟩
  intro id target
  simpa [target] using dead

/-- What an erasure does to the claims that cite the memory. -/
def sourceClaims (prepared : PreparedErasure) (db : Database) : Database :=
  if prepared.cascade then eraseSourceClaims prepared.scope prepared.target db
  else markSourceClaims prepared.scope prepared.target db

theorem sourceClaims_same (prepared : PreparedErasure) (db : Database) :
    (sourceClaims prepared db).memories = db.memories ∧ (sourceClaims prepared db).derivations = db.derivations ∧
      (sourceClaims prepared db).sources = db.sources ∧ (sourceClaims prepared db).receipts = db.receipts := by
  unfold sourceClaims
  split_ifs
  · exact ⟨rfl,rfl,rfl,rfl⟩
  · exact ⟨rfl,rfl,rfl,rfl⟩

/-- The claim tables change as the source's erasure changes them, and the memories are
    buried and then marked by what derivations the sweep leaves. -/
theorem eraseRows_eq (prepared : PreparedErasure) (db : Database) :
    eraseRows prepared db =
      { sourceClaims prepared db with
        derivations := (stageSweep prepared.scope prepared.shells db).derivations
        keys := (destroyForMemories prepared.scope prepared.shells db).keys
        memories := updateWhere
          (fun row => row.scope == prepared.scope && !row.originErased && row.live &&
            derives (stageSweep prepared.scope prepared.shells db) prepared.scope prepared.target row.id)
          MemoryRow.marked (db.memories.map (bury prepared.scope prepared.shells prepared.now)) } := by
  unfold eraseRows sourceClaims
  simp only [stageTombstones_eq]
  cases prepared.cascade <;> rfl

theorem eraseRows_receipts (prepared : PreparedErasure) (db : Database) (receipts : List ReceiptRow) :
    eraseRows prepared { db with receipts := receipts } = { eraseRows prepared db with receipts := receipts } := by
  rw [eraseRows_eq,eraseRows_eq]
  unfold sourceClaims
  cases prepared.cascade <;> rfl

/-- A committed erasure found its memory live, and leaves the other receipts as they
    were. -/
theorem commitErase_ok {prepared : PreparedErasure} {db next : Database} (executed : commitErase prepared db = .ok next) :
    (∃ row ∈ db.memories, ofScope prepared.scope prepared.target row = true ∧ row.live = true) ∧
      next = { eraseRows prepared db with receipts := next.receipts } ∧
      ∀ row ∈ next.receipts, row ∈ db.receipts ∨ row.target = some prepared.target := by
  unfold commitErase at executed
  obtain ⟨mid,inserted,executed⟩ := bind_ok_iff.mp executed
  obtain ⟨alive,-,rfl⟩ := insertReceipt_ok inserted
  rw [eraseRows_receipts] at executed
  obtain rfl := Except.ok.inj executed
  refine ⟨alive prepared.target rfl,rfl,?_⟩
  intro row member
  rcases mem_updateWhere.mp member with ⟨old,-⟩ | ⟨old,-,chosen,rfl⟩
  · rcases List.mem_append.mp old with older | added
    · exact .inl older
    · exact .inr (by rw [List.mem_singleton.mp added])
  · simp only [receiptAt,Bool.and_eq_true,beq_iff_eq] at chosen
    exact .inr chosen.2

theorem drainRows_eq (scope : Scope) (shells : List Shell) (now : UnixSeconds) (db : Database) :
    drainRows scope shells now db =
      { eraseScopeClaims scope db with
        derivations := (stageSweep scope shells db).derivations
        keys := (destroyForScope scope db).keys
        memories := db.memories.map (bury scope shells now) } := by
  unfold drainRows
  simp only [stageTombstones_eq]
  rfl

theorem drainRows_receipts (scope : Scope) (shells : List Shell) (now : UnixSeconds) (db : Database) :
    (drainRows scope shells now db).receipts = db.receipts := by
  rw [drainRows_eq]
  rfl

/-- An operation starts only where every earlier one was delivered, and takes their
    place. -/
theorem startScope_ok {scope : Scope} {decisionId : String} {db next : Database}
    (executed : startScope scope decisionId db = .ok next) :
    (∀ row ∈ db.receipts, receiptAt scope none row = true → row.delivered = true) ∧
      next = { db with
        receipts := deleteWhere (fun row => receiptAt scope none row && row.delivered) db.receipts ++
          [⟨scope,none,decisionId,false,false⟩] } := by
  obtain ⟨-,free,rfl⟩ := insertReceipt_ok executed
  refine ⟨?_,rfl⟩
  intro row member here
  by_contra pending
  have kept : row ∈ deleteWhere (fun row => receiptAt scope none row && row.delivered) db.receipts := by
    refine mem_deleteWhere.mpr ⟨member,?_⟩
    show (receiptAt scope none row && row.delivered) = false
    rw [Bool.eq_false_iff.mpr pending,Bool.and_false]
  simp only [receiptAt,Bool.and_eq_true,beq_iff_eq] at here
  exact free row kept (Prod.ext here.1 here.2)

/-- Which receipt the last statement of a batch completes. -/
def completes (scope : Scope) (operation : String) (db : Database) (row : ReceiptRow) : Bool :=
  receiptAt scope none row && row.decisionId == operation && drained db scope

theorem drain_ok {scope : Scope} {operation : String} {shells : List Shell} {now : UnixSeconds} {db next : Database}
    {last : Bool} (executed : drain scope operation shells now db = .ok (next,last)) :
    next = { drainRows scope shells now db with
        receipts := updateWhere (completes scope operation (drainRows scope shells now db))
          (fun row => { row with ready := true }) db.receipts } ∧
      last = db.receipts.any (completes scope operation (drainRows scope shells now db)) := by
  unfold drain at executed
  split_ifs at executed
  simp only [drainRows_receipts] at executed
  obtain ⟨rfl,rfl⟩ := Prod.mk.inj (Except.ok.inj executed)
  exact ⟨rfl,rfl⟩

end Aicortex.Erasure
