import Aicortex.Store

/-!
The erasure of a whole scope as a program that reads and commits while others do. It
finds the scope's receipt, decides whether to start afresh or to go on with what the
receipt says, drains the scope batch by batch, and delivers the receipt. Between any two
of its steps any transaction may commit, and it may fail anywhere.
-/

namespace Aicortex.ScopeErasure
open Aicortex.Text Aicortex.CivilTime Aicortex.Memories Aicortex.Schema Aicortex.ClaimRepo Aicortex.Erasure
open Aicortex.Store
open Lib.Tables Lib.Outcome
open Aicortex.Claims hiding Unit
set_option linter.unusedSimpArgs false

/-! ### The program -/

/-- One call, with the identity its Decision gets if it starts an operation. -/
structure Call where
  scope : Scope
  batch : Nat
  now : UnixSeconds
  decisionId : String

/-- Where a call stands, with what it has read so far. -/
inductive Phase where
  | begin
  | found (previous : Option ReceiptRow)
  | looked (previous : Option ReceiptRow) (hasWork : Bool)
  | starting
  | opened
  | draining (operation : String)
  | batched (operation : String) (shells : List Shell)
  | drained
  | delivering (receipt : ReceiptRow)
  | done
  | failed (error : StoreError)

/-- A completed operation is replayed unless new content or keys arrived. Pending
    delivery always wins over starting another operation. -/
def start (previous : Option ReceiptRow) (hasWork keys : Bool) : Bool :=
  previous.all (fun receipt => receipt.delivered && (hasWork || keys))

def requiredReceipt (db : Database) (scope : Scope) : Except StoreError ReceiptRow :=
  match receipt db scope none with
  | some row => .ok row
  | none => .error (.integrity "committed erasure has no durable receipt")

/-- One step of a call: a read, or a transaction. -/
def advance (call : Call) (db : Database) : Phase → Except StoreError (Phase × Database)
  | .begin =>
    if call.batch = 0 ∨ call.batch > maxErasureBatch then
      .error (.validation s!"an erasure batch of {call.batch} is not between 1 and {maxErasureBatch}")
    else .ok (.found (receipt db call.scope none),db)
  | .found previous => .ok (.looked previous (db.memories.any (fun row => row.scope == call.scope && row.live)),db)
  | .looked previous hasWork =>
    .ok (if start previous hasWork (db.keys.any (fun row => row.scope == call.scope)) then .starting else .opened,db)
  | .starting => do
    let db ← startScope call.scope call.decisionId db
    .ok (.opened,db)
  | .opened => do
    let row ← requiredReceipt db call.scope
    .ok (if row.ready then .delivering row else .draining row.decisionId,db)
  | .draining operation => .ok (.batched operation (batchShells db call.scope call.batch),db)
  | .batched operation shells => do
    let (db,last) ← drain call.scope operation shells call.now db
    .ok (if last then .drained else .draining operation,db)
  | .drained => do
    let row ← requiredReceipt db call.scope
    .ok (.delivering row,db)
  | .delivering row =>
    if row.ready then .ok (.done,deliver call.scope none row.decisionId db)
    else .error (.conflict "erasure is still draining")
  | .done => .ok (.done,db)
  | .failed error => .ok (.failed error,db)

section
variable (fingerprint : Memory → String)

/-- A run of a call whose own steps all meet a condition, with the states of the store
    it went through, the last one first. -/
inductive Run (call : Call) (Allowed : Phase → Database → Prop) (first : Database) :
    List Database → Phase → Database → Prop where
  | begin : Run call Allowed first [first] .begin first
  | advance {trace : List Database} {phase next : Phase} {db after : Database} (earlier : Run call Allowed first trace phase db)
      (allowed : Allowed phase db) (stepped : advance call db phase = .ok (next,after)) :
      Run call Allowed first (after :: trace) next after
  | others {trace : List Database} {phase : Phase} {db after : Database} {txn : Txn}
      (earlier : Run call Allowed first trace phase db) (committed : commit fingerprint db txn = .ok after) :
      Run call Allowed first (after :: trace) phase after
  | fails {trace : List Database} {phase : Phase} {db : Database} (earlier : Run call Allowed first trace phase db)
      (error : StoreError) : Run call Allowed first trace (.failed error) db

end

/-! ### What a complete erasure leaves -/

section
variable {fingerprint : Memory → String} {call : Call} {scope : Scope} {first db after : Database} {trace : List Database}

def MemoriesGone (scope : Scope) (first db : Database) : Prop :=
  ∀ row ∈ first.memories, row.scope = scope → ∀ later ∈ db.memories, later.id = row.id → later.live = false

def ClaimsGone (scope : Scope) (first db : Database) : Prop :=
  ∀ row ∈ first.claims, row.scope = scope → ∀ later ∈ db.claims, later.claimId = row.claimId → later.erased = true

/-- A proposal is gone once it has left the table; another may be staged under its id. -/
def ProposalsGone (scope : Scope) (first : Database) (trace : List Database) : Prop :=
  ∀ row ∈ first.proposals, row.scope = scope → ∃ state ∈ trace, row ∉ state.proposals

/-- No memory, claim or proposal that a scope had at first is still live. -/
structure Cleared (scope : Scope) (first : Database) (trace : List Database) (db : Database) : Prop where
  memories : MemoriesGone scope first db
  claims : ClaimsGone scope first db
  proposals : ProposalsGone scope first trace

/-- Nothing of the scope is live. -/
structure Emptied (scope : Scope) (db : Database) : Prop where
  memories : ∀ row ∈ db.memories, row.scope = scope → row.live = false
  claims : ∀ row ∈ db.claims, row.scope = scope → row.erased = true
  proposals : ∀ row ∈ db.proposals, row.scope ≠ scope

/-- A later row of a memory is what the memory turned into. -/
theorem memory_turned (sound : Sound first) (advances : Advances first db) {row later : MemoryRow}
    (member : row ∈ first.memories) (laterIn : later ∈ db.memories) (same : later.id = row.id) : MemoryTurns row later := by
  rcases advances.memories.origin laterIn with ⟨old,oldIn,oldId,turned⟩ | new
  · obtain rfl := sound.unique.eq_of_key oldIn member (oldId.trans same)
    exact turned
  · exact absurd same.symm (new row member)

theorem claim_turned (sound : Sound first) (advances : Advances first db) {row later : ClaimRow}
    (member : row ∈ first.claims) (laterIn : later ∈ db.claims) (same : later.claimId = row.claimId) :
    ClaimTurns row later := by
  rcases advances.claims.origin laterIn with ⟨old,oldIn,oldId,turned⟩ | new
  · obtain rfl := sound.consistent.ids.eq_of_key oldIn member (oldId.trans same)
    exact turned
  · exact absurd same.symm (new row member)

theorem MemoriesGone.onward (gone : MemoriesGone scope first db) (reached : Advances first db)
    (advances : Advances db after) : MemoriesGone scope first after := by
  intro row member inScope later laterIn same
  rcases advances.memories.origin laterIn with ⟨old,oldIn,oldId,turned⟩ | new
  · exact turned.final (gone row member inScope old oldIn (oldId.trans same))
  · obtain ⟨kept,keptIn,keptId,-⟩ := reached.memories.stays member
    exact absurd (keptId.trans same.symm) (new kept keptIn)

theorem ClaimsGone.onward (gone : ClaimsGone scope first db) (reached : Advances first db)
    (advances : Advances db after) : ClaimsGone scope first after := by
  intro row member inScope later laterIn same
  rcases advances.claims.origin laterIn with ⟨old,oldIn,oldId,turned⟩ | new
  · exact turned.final (gone row member inScope old oldIn (oldId.trans same))
  · obtain ⟨kept,keptIn,keptId,-⟩ := reached.claims.stays member
    exact absurd (keptId.trans same.symm) (new kept keptIn)

theorem ProposalsGone.onward (gone : ProposalsGone scope first trace) (state : Database) :
    ProposalsGone scope first (state :: trace) := by
  intro row member inScope
  obtain ⟨seen,seenIn,absent⟩ := gone row member inScope
  exact ⟨seen,List.mem_cons_of_mem _ seenIn,absent⟩

/-- What is cleared stays so. -/
theorem Cleared.onward (cleared : Cleared scope first trace db) (reached : Advances first db)
    (advances : Advances db after) : Cleared scope first (after :: trace) after :=
  ⟨cleared.memories.onward reached advances,cleared.claims.onward reached advances,cleared.proposals.onward after⟩

theorem memoriesGone_of_dead (sound : Sound first) (reached : Advances first db)
    (dead : ∀ row ∈ db.memories, row.scope = scope → row.live = false) : MemoriesGone scope first db := by
  intro row member inScope later laterIn same
  exact dead later laterIn ((memory_turned sound reached member laterIn same).scope.trans inScope)

theorem Emptied.cleared (sound : Sound first) (reached : Advances first db) (emptied : Emptied scope db) :
    Cleared scope first (db :: trace) db := by
  refine ⟨memoriesGone_of_dead sound reached emptied.memories,?_,?_⟩
  · intro row member inScope later laterIn same
    exact emptied.claims later laterIn ((claim_turned sound reached member laterIn same).scope.trans inScope)
  · intro row member inScope
    exact ⟨db,List.mem_cons_self,fun still => emptied.proposals row still inScope⟩

/-! ### What a transaction does to receipts -/

theorem claims_receipts {txn : ClaimTxn} (committed : ClaimRepo.commit db txn = .ok after) : after.receipts = db.receipts := by
  have admissions : ∀ {at' : UnixSeconds} {batch : List ClaimGate.AdmittedClaim} {db after : Database},
      batch.foldlM (recordAdmission at') db = .ok after → after.receipts = db.receipts := by
    intro at' batch db after recorded
    rw [(recordAdmissions_ok recorded).2]
  cases txn with
  | propose proposal => rw [Database.insertProposal_ok committed]
  | admissions batch at' => exact admissions (admitBatch_ok committed)
  | append existing batch at' =>
    obtain ⟨mid,appended,admitted⟩ := append_ok committed
    rw [admissions admitted]
    refine foldlM_invariant (fun state => state.receipts = db.receipts) ?_ rfl appended
    intro item _ before next kept stepped
    rw [(appendItem_ok stepped).2.2.2]
    exact kept
  | retract scope retraction => rw [(retract_ok committed).2]
  | erase scope subject id => rw [← Except.ok.inj committed,eraseClaim]
  | markSource scope source => rw [← Except.ok.inj committed,markSourceClaims]
  | eraseSource scope source => rw [← Except.ok.inj committed,eraseSourceClaims]
  | eraseScope scope => rw [← Except.ok.inj committed,eraseScopeClaims]

theorem memories_receipts {txn : MemoryRepo.MemoryTxn} (committed : MemoryRepo.commit fingerprint db txn = .ok after) :
    after.receipts = db.receipts := by
  cases txn with
  | insert maxBodyBytes memory provenance =>
    simp only [MemoryRepo.commit,MemoryRepo.insert] at committed
    split_ifs at committed
    obtain ⟨mid,inserted,derived⟩ := bind_ok_iff.mp committed
    rw [insertDerivations_ok derived,(insertMemory_ok inserted).2]
  | merge scope id expected again => rw [(guarded_ok committed).2]
  | supersede scope old new expected at' =>
    simp only [MemoryRepo.commit,MemoryRepo.supersede] at committed
    split_ifs at committed
    rw [(guarded_ok committed).2]
  | setValidUntil scope id until' => rw [← Except.ok.inj committed,MemoryRepo.setValidUntil]
  | expire scope ids now => rw [← Except.ok.inj committed,MemoryRepo.expire]
  | redigest scope rows =>
    refine foldlM_invariant (fun state => state.receipts = db.receipts) ?_ rfl committed
    intro read _ before next kept stepped
    simp only [MemoryRepo.redigestRow] at stepped
    split_ifs at stepped
    rw [← Except.ok.inj stepped]
    exact kept
  | issueKey row =>
    simp only [MemoryRepo.commit,MemoryRepo.issueKey] at committed
    obtain ⟨keys,-,committed⟩ := bind_ok_iff.mp committed
    rw [← Except.ok.inj committed]

/-- A batch after which the receipt's statement finds nothing left has emptied the
    scope; the proposals, which the statement does not ask for, went in the batch. -/
theorem drained_emptied {shells : List Shell} {now : UnixSeconds} {receipts : List ReceiptRow}
    (clean : drained (drainRows scope shells now db) scope = true) :
    Emptied scope { drainRows scope shells now db with receipts := receipts } := by
  simp only [drained,Bool.and_eq_true,Bool.not_eq_true',List.any_eq_false] at clean
  obtain ⟨⟨memories,claims⟩,-⟩ := clean
  refine ⟨?_,?_,?_⟩
  · intro row member inScope
    simpa [inScope] using memories row member
  · intro row member inScope
    simpa [inScope] using claims row member
  · intro row member inScope
    rw [drainRows_eq] at member
    have kept := (mem_deleteWhere.mp member).2
    simp [inScope] at kept

theorem startScope_unready {decisionId : String} (started : startScope scope decisionId db = .ok after) :
    ∀ row ∈ after.receipts, receiptAt scope none row = true → row.ready = false := by
  obtain ⟨delivered,rfl⟩ := startScope_ok started
  intro row member here
  rcases List.mem_append.mp member with old | added
  · obtain ⟨stored,kept⟩ := mem_deleteWhere.mp old
    rw [here,delivered row stored here] at kept
    cases kept
  · rw [List.mem_singleton.mp added]

/-- No scope receipt is ready after an operation starts. After any other transaction
    each is what it was, or delivered, or made ready by a batch that emptied the scope. -/
theorem receipts_commit {txn : Txn} (committed : commit fingerprint db txn = .ok after) (scope : Scope) :
    (∀ row ∈ after.receipts, receiptAt scope none row = true → row.ready = false) ∨
      ∀ row ∈ after.receipts, receiptAt scope none row = true → ∃ old ∈ db.receipts, receiptAt scope none old = true ∧
        (old.delivered = true → row.delivered = true) ∧ (row.ready = true → old.ready = true ∨ Emptied scope after) := by
  have same : after.receipts = db.receipts → ∀ row ∈ after.receipts, receiptAt scope none row = true →
      ∃ old ∈ db.receipts, receiptAt scope none old = true ∧ (old.delivered = true → row.delivered = true) ∧
        (row.ready = true → old.ready = true ∨ Emptied scope after) := by
    intro unchanged row member here
    rw [unchanged] at member
    exact ⟨row,member,here,id,.inl⟩
  cases txn with
  | claims txn => exact .inr (same (claims_receipts committed))
  | memories txn => exact .inr (same (memories_receipts committed))
  | erase prepared =>
    obtain ⟨-,-,origin⟩ := commitErase_ok committed
    right
    intro row member here
    rcases origin row member with old | single
    · exact ⟨row,old,here,id,.inl⟩
    · simp [receiptAt,single] at here
  | startScope other decisionId =>
    by_cases mine : other = scope
    · subst mine
      exact .inl (startScope_unready committed)
    · obtain ⟨-,rfl⟩ := startScope_ok committed
      right
      intro row member here
      rcases List.mem_append.mp member with old | added
      · exact ⟨row,(mem_deleteWhere.mp old).1,here,id,.inl⟩
      · rw [List.mem_singleton.mp added] at here
        simp [receiptAt,mine] at here
  | drain other operation shells now =>
    obtain ⟨last,drained⟩ := drain_committed committed
    obtain ⟨rfl,-⟩ := drain_ok drained
    right
    intro row member here
    rcases mem_updateWhere.mp member with ⟨old,-⟩ | ⟨old,oldIn,chosen,rfl⟩
    · exact ⟨row,old,here,id,.inl⟩
    · simp only [completes,Bool.and_eq_true] at chosen
      have both : other = scope := by
        have there := chosen.1.1
        simp only [receiptAt,Bool.and_eq_true,beq_iff_eq] at there here
        exact there.1.symm.trans here.1
      subst both
      exact ⟨old,oldIn,here,id,fun _ => .inr (drained_emptied chosen.2)⟩
  | deliver other target decisionId =>
    obtain rfl := Except.ok.inj committed
    right
    intro row member here
    rcases mem_updateWhere.mp member with ⟨old,-⟩ | ⟨old,oldIn,-,rfl⟩
    · exact ⟨row,old,here,id,.inl⟩
    · exact ⟨old,oldIn,here,fun _ => rfl,.inl⟩

/-! ### Every run -/

/-- Where a call has found a delivered receipt and no live memory, the scope has a
    key to show for its new content, or had no live claim and no proposal at first. -/
def Shows (scope : Scope) (first : Database) : Phase → Database → Prop
  | .looked (some previous) hasWork, db => previous.delivered = true → hasWork = false →
      db.keys.any (fun row => row.scope == scope) = true ∨
        ((∀ row ∈ first.claims, row.scope = scope → row.erased = true) ∧ ∀ row ∈ first.proposals, row.scope ≠ scope)
  | _, _ => True

/-- A scope receipt that is ready tells of an erasure since the call began. -/
def Fresh (scope : Scope) (first : Database) (trace : List Database) (db : Database) : Prop :=
  ∀ row ∈ db.receipts, receiptAt scope none row = true → row.ready = true → Cleared scope first trace db

/-- Every operation on the scope has been delivered. -/
def Delivered (scope : Scope) (db : Database) : Prop :=
  ∀ row ∈ db.receipts, receiptAt scope none row = true → row.delivered = true

/-- What a call may rely on at each phase. An undelivered receipt is one that was
    started since the call began, so what it says is fresh. -/
def Holds (scope : Scope) (first : Database) (trace : List Database) (db : Database) : Phase → Prop
  | .begin | .starting => Delivered scope db ∨ Fresh scope first trace db
  | .found previous => (Delivered scope db ∨ Fresh scope first trace db) ∧
      ∀ row, previous = some row → row.delivered = false → Fresh scope first trace db
  | .looked previous hasWork => (Delivered scope db ∨ Fresh scope first trace db) ∧
      (∀ row, previous = some row → row.delivered = false → Fresh scope first trace db) ∧
      (hasWork = false → MemoriesGone scope first db)
  | .opened | .draining _ | .batched _ _ => Fresh scope first trace db
  | .drained | .done => Cleared scope first trace db
  | .delivering row => row.ready = true → Cleared scope first trace db
  | .failed _ => True

theorem Fresh.commit (fresh : Fresh scope first trace db) (sound : Sound first) (reached : Advances first db) {txn : Txn}
    (committed : commit fingerprint db txn = .ok after) : Fresh scope first (after :: trace) after := by
  have advances := commit_advances committed
  intro row member here ready
  rcases receipts_commit committed scope with none | origin
  · rw [none row member here] at ready
    cases ready
  · obtain ⟨old,oldIn,there,-,before⟩ := origin row member here
    rcases before ready with earlier | emptied
    · exact (fresh old oldIn there earlier).onward reached advances
    · exact emptied.cleared sound (reached.trans advances)

theorem Delivered.commit (delivered : Delivered scope db) {txn : Txn} (committed : commit fingerprint db txn = .ok after) :
    Delivered scope after ∨ Fresh scope first (after :: trace) after := by
  rcases receipts_commit committed scope with none | origin
  · right
    intro row member here ready
    rw [none row member here] at ready
    cases ready
  · left
    intro row member here
    obtain ⟨old,oldIn,there,kept,-⟩ := origin row member here
    exact kept (delivered old oldIn there)

/-- What a call relies on, no transaction takes away. -/
theorem Holds.commit {phase : Phase} (holds : Holds scope first trace db phase) (sound : Sound first)
    (reached : Advances first db) {txn : Txn} (committed : commit fingerprint db txn = .ok after) :
    Holds scope first (after :: trace) after phase := by
  have advances := commit_advances committed
  have either : Delivered scope db ∨ Fresh scope first trace db →
      Delivered scope after ∨ Fresh scope first (after :: trace) after := by
    rintro (delivered | fresh)
    · exact delivered.commit committed
    · exact .inr (fresh.commit sound reached committed)
  cases phase with
  | begin => exact either holds
  | starting => exact either holds
  | found previous => exact ⟨either holds.1,fun row found pending => (holds.2 row found pending).commit sound reached committed⟩
  | looked previous hasWork =>
    exact ⟨either holds.1,fun row found pending => (holds.2.1 row found pending).commit sound reached committed,
      fun idle => (holds.2.2 idle).onward reached advances⟩
  | opened => exact Fresh.commit holds sound reached committed
  | draining operation => exact Fresh.commit holds sound reached committed
  | batched operation shells => exact Fresh.commit holds sound reached committed
  | drained => exact Cleared.onward holds reached advances
  | done => exact Cleared.onward holds reached advances
  | delivering row => exact fun ready => (holds ready).onward reached advances
  | failed error => trivial

theorem Fresh.longer (fresh : Fresh scope first trace db) (reached : Advances first db) :
    Fresh scope first (db :: trace) db :=
  fun row member here ready => (fresh row member here ready).onward reached (Advances.refl db)

theorem receipt_some {target : Option MemoryId} {row : ReceiptRow} (found : receipt db scope target = some row) :
    row ∈ db.receipts ∧ receiptAt scope target row = true :=
  ⟨List.mem_of_find?_eq_some found,List.find?_some found⟩

theorem requiredReceipt_ok {row : ReceiptRow} (found : requiredReceipt db scope = .ok row) :
    row ∈ db.receipts ∧ receiptAt scope none row = true := by
  unfold requiredReceipt at found
  split at found
  · next stored read =>
    obtain rfl := Except.ok.inj found
    exact receipt_some read
  · cases found

theorem advance_advances {phase next : Phase} (stepped : advance call db phase = .ok (next,after)) : Advances db after := by
  cases phase with
  | begin =>
    simp only [advance] at stepped
    split_ifs at stepped
    obtain ⟨-,rfl⟩ := Prod.mk.inj (Except.ok.inj stepped)
    exact Advances.refl db
  | starting =>
    obtain ⟨mid,started,rest⟩ := bind_ok_iff.mp stepped
    obtain ⟨-,rfl⟩ := Prod.mk.inj (Except.ok.inj rest)
    obtain ⟨-,rfl⟩ := startScope_ok started
    exact advances_of_receipts (Advances.refl db)
  | opened =>
    obtain ⟨row,-,rest⟩ := bind_ok_iff.mp stepped
    obtain ⟨-,rfl⟩ := Prod.mk.inj (Except.ok.inj rest)
    exact Advances.refl db
  | batched operation shells =>
    obtain ⟨⟨mid,last⟩,drained,rest⟩ := bind_ok_iff.mp stepped
    obtain ⟨-,rfl⟩ := Prod.mk.inj (Except.ok.inj rest)
    obtain ⟨rfl,-⟩ := drain_ok drained
    exact advances_of_receipts (drainRows_advances _ _ _ _)
  | drained =>
    obtain ⟨row,-,rest⟩ := bind_ok_iff.mp stepped
    obtain ⟨-,rfl⟩ := Prod.mk.inj (Except.ok.inj rest)
    exact Advances.refl db
  | delivering row =>
    simp only [advance] at stepped
    split_ifs at stepped
    obtain ⟨-,rfl⟩ := Prod.mk.inj (Except.ok.inj stepped)
    exact advances_of_receipts (Advances.refl db)
  | found previous | looked previous hasWork | draining operation | done | failed error =>
    obtain ⟨-,rfl⟩ := Prod.mk.inj (Except.ok.inj stepped)
    exact Advances.refl db

/-- What is read of the scope's receipt: one that is not delivered is fresh. -/
theorem found_fresh (either : Delivered scope db ∨ Fresh scope first trace db) {row : ReceiptRow}
    (found : receipt db scope none = some row) (pending : row.delivered = false) : Fresh scope first trace db := by
  rcases either with delivered | fresh
  · obtain ⟨member,here⟩ := receipt_some found
    rw [delivered row member here] at pending
    cases pending
  · exact fresh

/-- A call that does not start afresh may rely on the receipt it has found. -/
theorem replay_fresh {previous : Option ReceiptRow} {hasWork : Bool} (sound : Sound first) (reached : Advances first db)
    (holds : Holds scope first trace db (.looked previous hasWork)) (shows : Shows scope first (.looked previous hasWork) db)
    (kept : start previous hasWork (db.keys.any (fun row => row.scope == scope)) = false) :
    Fresh scope first trace db := by
  cases previous with
  | none => simp [start] at kept
  | some row =>
    cases delivered : row.delivered with
    | false => exact holds.2.1 row rfl delivered
    | true =>
      simp only [start,Option.all_some,delivered,Bool.true_and,Bool.or_eq_false_iff] at kept
      rcases shows delivered kept.1 with keyed | ⟨claims,proposals⟩
      · rw [kept.2] at keyed
        cases keyed
      · -- nothing was left to erase when the call began, and the memories have gone since
        intro _ _ _ _
        refine ⟨holds.2.2 kept.1,?_,?_⟩
        · intro claim member inScope later laterIn same
          exact (claim_turned sound reached member laterIn same).final (claims claim member inScope)
        · intro proposal member inScope
          exact absurd inScope (proposals proposal member)

theorem Holds.advance {phase next : Phase} (holds : Holds call.scope first trace db phase) (sound : Sound first)
    (reached : Advances first db) (shows : Shows call.scope first phase db)
    (stepped : advance call db phase = .ok (next,after)) : Holds call.scope first (after :: trace) after next := by
  have either : Delivered call.scope db ∨ Fresh call.scope first trace db →
      Delivered call.scope db ∨ Fresh call.scope first (db :: trace) db :=
    fun held => held.imp id (fun fresh => fresh.longer reached)
  cases phase with
  | begin =>
    simp only [ScopeErasure.advance] at stepped
    split_ifs at stepped
    obtain ⟨rfl,rfl⟩ := Prod.mk.inj (Except.ok.inj stepped)
    exact ⟨either holds,fun row found pending => found_fresh (either holds) found pending⟩
  | found previous =>
    obtain ⟨rfl,rfl⟩ := Prod.mk.inj (Except.ok.inj stepped)
    refine ⟨either holds.1,fun row found pending => (holds.2 row found pending).longer reached,?_⟩
    intro idle
    refine memoriesGone_of_dead sound reached ?_
    intro row member inScope
    simpa [inScope] using List.any_eq_false.mp idle row member
  | looked previous hasWork =>
    obtain ⟨rfl,rfl⟩ := Prod.mk.inj (Except.ok.inj stepped)
    cases fresh : start previous hasWork (db.keys.any (fun row => row.scope == call.scope)) with
    | true => exact either holds.1
    | false => exact (replay_fresh sound reached holds shows fresh).longer reached
  | starting =>
    obtain ⟨mid,started,rest⟩ := bind_ok_iff.mp stepped
    obtain ⟨rfl,rfl⟩ := Prod.mk.inj (Except.ok.inj rest)
    intro row member here ready
    rw [startScope_unready started row member here] at ready
    cases ready
  | opened =>
    obtain ⟨row,found,rest⟩ := bind_ok_iff.mp stepped
    obtain ⟨rfl,rfl⟩ := Prod.mk.inj (Except.ok.inj rest)
    have fresh := Fresh.longer holds reached
    obtain ⟨member,here⟩ := requiredReceipt_ok found
    split_ifs
    · exact fresh row member here
    · exact fresh
  | draining operation =>
    obtain ⟨rfl,rfl⟩ := Prod.mk.inj (Except.ok.inj stepped)
    exact Fresh.longer holds reached
  | batched operation shells =>
    obtain ⟨⟨mid,last⟩,executed,rest⟩ := bind_ok_iff.mp stepped
    obtain ⟨rfl,rfl⟩ := Prod.mk.inj (Except.ok.inj rest)
    cases last with
    | true =>
      obtain ⟨rfl,completed⟩ := drain_ok executed
      obtain ⟨row,-,chosen⟩ := List.any_eq_true.mp completed.symm
      simp only [completes,Bool.and_eq_true] at chosen
      exact (drained_emptied chosen.2).cleared sound
        (reached.trans (advances_of_receipts (drainRows_advances _ _ _ _)))
    | false =>
      have committed : Store.commit (fun _ => "") db (.drain call.scope operation shells call.now) = .ok mid := by
        simp [Store.commit,executed,Except.map]
      exact Fresh.commit holds sound reached committed
  | drained =>
    obtain ⟨row,-,rest⟩ := bind_ok_iff.mp stepped
    obtain ⟨rfl,rfl⟩ := Prod.mk.inj (Except.ok.inj rest)
    exact fun _ => Cleared.onward holds reached (Advances.refl db)
  | delivering row =>
    have advances := advance_advances stepped
    simp only [ScopeErasure.advance] at stepped
    split_ifs at stepped with ready
    obtain ⟨rfl,rfl⟩ := Prod.mk.inj (Except.ok.inj stepped)
    exact (holds ready).onward reached advances
  | done =>
    obtain ⟨rfl,rfl⟩ := Prod.mk.inj (Except.ok.inj stepped)
    exact Cleared.onward holds reached (Advances.refl db)
  | failed error =>
    obtain ⟨rfl,rfl⟩ := Prod.mk.inj (Except.ok.inj stepped)
    trivial

theorem run_holds {phase : Phase} (sound : Sound first) (delivered : Delivered call.scope first)
    (run : Run fingerprint call (Shows call.scope first) first trace phase db) :
    Advances first db ∧ Holds call.scope first trace db phase := by
  induction run with
  | begin => exact ⟨Advances.refl first,.inl delivered⟩
  | advance _ allowed stepped ih =>
    exact ⟨ih.1.trans (advance_advances stepped),ih.2.advance sound ih.1 allowed stepped⟩
  | others _ committed ih => exact ⟨ih.1.trans (commit_advances committed),ih.2.commit sound ih.1 committed⟩
  | fails _ error ih => exact ⟨ih.1,trivial⟩

/-- On a store where every earlier erasure of the scope was delivered, a call that
    replays a receipt only where it `Shows` that it may leaves nothing live of what the
    scope held when it began, whatever else commits in between. -/
theorem erased_scope_cleared {last : Database} (reachable : Reachable fingerprint first)
    (delivered : Delivered call.scope first)
    (run : Run fingerprint call (Shows call.scope first) first trace .done last) :
    Cleared call.scope first trace last :=
  (run_holds (reachable_sound reachable) delivered run).2

end

namespace Sample
open Claims.Sample ClaimRepo.Sample Store.Sample

def call : Call := ⟨scope,10,30,"second"⟩

/-- The scope was erased before, and the receipt delivered. -/
def erasedOnce : List Txn := [.startScope scope "first",.drain scope "first" [] 20,.deliver scope none "first"]

/-- Then a note and a claim were written. -/
def noted : List Txn := erasedOnce ++ [capture (note noteId "seat 12A" []),.claims (.append .new [item firstId "12A"] 25)]

/-- Or a claim alone, proposed first. -/
def claimed : List Txn :=
  erasedOnce ++ [.claims (.propose ClaimGate.Sample.ownStatement),.claims (.append .new [item firstId "12A"] 25)]

def stored (txns : List Txn) : Database := ((commitAll textOf .empty txns).toOption).getD .empty

def started : Database := (startScope scope "second" (stored noted)).toOption.getD .empty

def swept : Database :=
  ((drain scope "second" (batchShells started scope 10) 30 started).toOption.map Prod.fst).getD .empty

/-- The note shows that there is something to erase. -/
theorem erased_scope_cleared_noted :
    commitAll textOf .empty noted = .ok (stored noted) ∧ Delivered call.scope (stored noted) ∧
      ∃ trace, Run textOf call (Shows call.scope (stored noted)) (stored noted) trace .done
          (deliver scope none "second" swept) ∧
        Cleared call.scope (stored noted) trace (deliver scope none "second" swept) := by
  have receipts : (stored noted).receipts = [⟨scope,none,"first",true,true⟩] := rfl
  have delivered : Delivered call.scope (stored noted) := by
    intro row member _
    rw [receipts] at member
    rw [List.mem_singleton.mp member]
  have found : Run textOf call (Shows call.scope (stored noted)) (stored noted) _
      (.found (some ⟨scope,none,"first",true,true⟩)) (stored noted) := .advance .begin trivial rfl
  have looked : Run textOf call (Shows call.scope (stored noted)) (stored noted) _
      (.looked (some ⟨scope,none,"first",true,true⟩) true) (stored noted) := .advance found trivial rfl
  have starting : Run textOf call (Shows call.scope (stored noted)) (stored noted) _ .starting (stored noted) :=
    .advance looked (fun _ idle => by cases idle) rfl
  have opened : Run textOf call (Shows call.scope (stored noted)) (stored noted) _ .opened started :=
    .advance starting trivial rfl
  have draining : Run textOf call (Shows call.scope (stored noted)) (stored noted) _ (.draining "second") started :=
    .advance opened trivial rfl
  have batched : Run textOf call (Shows call.scope (stored noted)) (stored noted) _
      (.batched "second" (batchShells started scope 10)) started := .advance draining trivial rfl
  have drained : Run textOf call (Shows call.scope (stored noted)) (stored noted) _ .drained swept :=
    .advance batched trivial rfl
  have delivering : Run textOf call (Shows call.scope (stored noted)) (stored noted) _
      (.delivering ⟨scope,none,"second",true,false⟩) swept := .advance drained trivial rfl
  have done : Run textOf call (Shows call.scope (stored noted)) (stored noted) _ .done
      (deliver scope none "second" swept) := .advance delivering trivial rfl
  exact ⟨rfl,delivered,_,done,erased_scope_cleared ⟨noted,rfl⟩ delivered done⟩

/-- The call replays the delivered receipt, and the claim and its proposal stay. -/
theorem replay_leaves_claim :
    commitAll textOf .empty claimed = .ok (stored claimed) ∧ Delivered call.scope (stored claimed) ∧
      ∃ trace, Run textOf call (fun _ _ => True) (stored claimed) trace .done (deliver scope none "first" (stored claimed)) ∧
        ¬ ClaimsGone call.scope (stored claimed) (deliver scope none "first" (stored claimed)) ∧
        ¬ ProposalsGone call.scope (stored claimed) trace := by
  have receipts : (stored claimed).receipts = [⟨scope,none,"first",true,true⟩] := rfl
  have delivered : Delivered call.scope (stored claimed) := by
    intro row member _
    rw [receipts] at member
    rw [List.mem_singleton.mp member]
  have found : Run textOf call (fun _ _ => True) (stored claimed) _
      (.found (some ⟨scope,none,"first",true,true⟩)) (stored claimed) := .advance .begin trivial rfl
  have looked : Run textOf call (fun _ _ => True) (stored claimed) _
      (.looked (some ⟨scope,none,"first",true,true⟩) false) (stored claimed) := .advance found trivial rfl
  have opened : Run textOf call (fun _ _ => True) (stored claimed) _ .opened (stored claimed) :=
    .advance looked trivial rfl
  have delivering : Run textOf call (fun _ _ => True) (stored claimed) _
      (.delivering ⟨scope,none,"first",true,true⟩) (stored claimed) := .advance opened trivial rfl
  refine ⟨rfl,delivered,_,.advance delivering trivial rfl,?_,?_⟩
  · intro gone
    have erased := gone _ List.mem_cons_self rfl _ List.mem_cons_self rfl
    cases erased
  · intro gone
    obtain ⟨state,member,absent⟩ := gone _ List.mem_cons_self rfl
    simp only [List.mem_cons,List.not_mem_nil,or_false] at member
    rcases member with rfl | rfl | rfl | rfl | rfl | rfl <;> exact absent List.mem_cons_self

end Sample

end Aicortex.ScopeErasure
