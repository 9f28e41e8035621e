import Aicortex.ErasureLedger

/-!
The counted statements of an erasure leave what the same transaction leaves when its
statements are grouped by the tables they write, and a run of erasures that are counted
and delivered is a run of the pipeline.
-/

namespace Aicortex.ErasureSettlement
open Aicortex.Text Aicortex.CivilTime Aicortex.Memories Aicortex.Schema Aicortex.MemoryRepo
open Aicortex.Erasure hiding stageSweep stageTombstones destroyForScope insertReceipt startScope deliver drain
open Aicortex.Lifecycle Aicortex.EmbeddingTables Aicortex.Pipeline Aicortex.ErasureAccounts
open Lib.Tables Lib.Outcome Lib.StaleRuns Lib.StaleRuns.System
open Aicortex.Claims hiding Unit
set_option linter.unusedSimpArgs false

/-! ### Statement by statement -/

/-- The statements without their accounting. -/
def settle (entries : List Entry) (stock : Stock) : Stock := entries.foldl (fun stock entry => (entry.statement stock).1) stock

theorem settle_append (left right : List Entry) (stock : Stock) : settle (left ++ right) stock = settle right (settle left stock) :=
  List.foldl_append

theorem accountedBatch_settles (scope : Scope) (operation : String) (entries : List Entry) (now : UnixSeconds)
    (stock : Stock) (journal : List JournalRow) :
    (accountedBatch scope operation entries now (stock,journal)).1 = settle entries stock := by
  have through : ∀ (entries : List Entry) (tables : Stock × List JournalRow),
      (entries.foldl (execute scope operation) tables).1 = settle entries tables.1 := by
    intro entries
    induction entries with
    | nil => exact fun _ => rfl
    | cons entry rest ih => exact fun tables => ih (execute scope operation tables entry)
  exact through entries _

/-- A delete for each of several shells is one delete of what they select. -/
theorem settle_deletes {ρ : Type} (rows : Stock → List ρ) (put : Stock → List ρ → Stock) {account : Option Account}
    {chosen : Shell → ρ → Bool} (got : ∀ stock others, rows (put stock others) = others)
    (again : ∀ stock others more, put (put stock others) more = put stock more) (same : ∀ stock, put stock (rows stock) = stock)
    (shells : List Shell) (stock : Stock) :
    settle (shells.map (fun shell => ⟨deletes rows put (chosen shell),account⟩)) stock =
      put stock (deleteWhere (fun row => shells.any (fun shell => chosen shell row)) (rows stock)) := by
  rw [← foldl_deleteWhere]
  induction shells generalizing stock with
  | nil => exact (same stock).symm
  | cons shell rest ih =>
    refine (ih _).trans ?_
    simp only [deletes,got,again,List.foldl_cons]

section
variable (scope : Scope) (shells : List Shell)

/-- The rows of any of the shells, as one condition. -/
theorem any_shell (owner : Scope) (memory : MemoryId) :
    shells.any (fun shell => owner == scope && memory == shell.id) = ofShells scope shells owner memory := by
  rw [ofShells,List.and_any_distrib_left]
  exact congrArg shells.any (funext fun shell => by rw [BEq.comm (a := memory)])

/-- In a table whose rows are of memories, the rows of the shells go. -/
theorem settle_swept {ρ : Type} (rows : Stock → List ρ) (put : Stock → List ρ → Stock) {account : Option Account}
    (owner : ρ → Scope × MemoryId) (got : ∀ stock others, rows (put stock others) = others)
    (again : ∀ stock others more, put (put stock others) more = put stock more) (same : ∀ stock, put stock (rows stock) = stock)
    (stock : Stock) :
    settle (shells.map (fun shell => ⟨deletes rows put (fun row => (owner row).1 == scope && (owner row).2 == shell.id),account⟩))
      stock = put stock (deleteWhere (fun row => ofShells scope shells (owner row).1 (owner row).2) (rows stock)) := by
  rw [settle_deletes rows put got again same]
  simp only [any_shell]

theorem settle_stageSweep (stock : Stock) :
    settle (stageSweep scope shells) stock =
      { stock with
        embeddings := deleteWhere (fun row => ofShells scope shells row.scope row.memoryId) stock.embeddings
        chunks := deleteWhere (fun row => ofShells scope shells row.scope row.memoryId) stock.chunks
        provenance := deleteWhere (fun row => ofShells scope shells row.scope row.memoryId) stock.provenance
        holdings := { stock.holdings with
          db := Erasure.stageSweep scope shells stock.holdings.db
          captures := sweepCaptures scope shells stock.holdings.captures } } := by
  have embeddings : ∀ stock, settle (shells.map (fun shell => deleteEmbeddings scope shell.id)) stock = { stock with
      embeddings := deleteWhere (fun row => ofShells scope shells row.scope row.memoryId) stock.embeddings } :=
    settle_swept scope shells Stock.embeddings (fun stock rows => { stock with embeddings := rows })
      (fun row => (row.scope,row.memoryId)) (fun _ _ => rfl) (fun _ _ _ => rfl) fun _ => rfl
  have chunks : ∀ stock, settle (shells.map (fun shell => deleteChunks scope shell.id)) stock = { stock with
      chunks := deleteWhere (fun row => ofShells scope shells row.scope row.memoryId) stock.chunks } :=
    settle_swept scope shells Stock.chunks (fun stock rows => { stock with chunks := rows })
      (fun row => (row.scope,row.memoryId)) (fun _ _ => rfl) (fun _ _ _ => rfl) fun _ => rfl
  have provenance : ∀ stock, settle (shells.map (fun shell => deleteProvenance scope shell.id)) stock = { stock with
      provenance := deleteWhere (fun row => ofShells scope shells row.scope row.memoryId) stock.provenance } :=
    settle_swept scope shells Stock.provenance (fun stock rows => { stock with provenance := rows })
      (fun row => (row.scope,row.memoryId)) (fun _ _ => rfl) (fun _ _ _ => rfl) fun _ => rfl
  have derivations : ∀ stock, settle (shells.map (fun shell => deleteDerivations scope shell.id)) stock =
      putDb stock (Erasure.stageSweep scope shells stock.holdings.db) :=
    settle_swept scope shells (fun stock => stock.holdings.db.derivations) (fun stock rows => putDb stock { stock.holdings.db with derivations := rows })
      (fun row => (row.scope,row.memoryId)) (fun _ _ => rfl) (fun _ _ _ => rfl) fun _ => rfl
  have sources : ∀ stock, settle (shells.map (fun shell => deleteSources scope shell.id)) stock = { stock with
      holdings := { stock.holdings with captures := sweepCaptures scope shells stock.holdings.captures } } :=
    settle_swept scope shells (fun stock => stock.holdings.captures) (fun stock rows => { stock with holdings := { stock.holdings with captures := rows } })
      (fun row => (row.scope,row.memoryId)) (fun _ _ => rfl) (fun _ _ _ => rfl) fun _ => rfl
  simp only [stageSweep,settle_append,embeddings,chunks,provenance,derivations,sources]
  rfl

theorem settle_destroyForMemory (stock : Stock) :
    settle (shells.map (fun shell => destroyForMemory scope shell.id)) stock =
      putDb stock (destroyForMemories scope shells stock.holdings.db) := by
  have deleted : settle (shells.map (fun shell => destroyForMemory scope shell.id)) stock = putDb stock { stock.holdings.db with
      keys := deleteWhere (fun row => shells.any (fun shell => row.scope == scope && row.memory == some shell.id))
        stock.holdings.db.keys } :=
    settle_deletes (fun stock => stock.holdings.db.keys) (fun stock rows => putDb stock { stock.holdings.db with keys := rows })
      (fun _ _ => rfl) (fun _ _ _ => rfl) (fun _ => rfl) shells stock
  rw [deleted,destroyForMemories]
  simp only [List.and_any_distrib_left]

theorem settle_queue (stock : Stock) :
    settle (stageEmbeddingQueueErasure scope shells) stock =
      { stock with
        attempts := deleteWhere (fun row => ofShells scope shells row.key.scope row.key.memoryId) stock.attempts
        work := deleteWhere (fun row => ofShells scope shells row.key.scope row.key.memoryId) stock.work } := by
  have folded : ∀ (shells : List Shell) (stock : Stock), settle (stageEmbeddingQueueErasure scope shells) stock = { stock with
      attempts := shells.foldl (fun rows shell =>
        deleteWhere (fun row => row.key.scope == scope && row.key.memoryId == shell.id) rows) stock.attempts
      work := shells.foldl (fun rows shell =>
        deleteWhere (fun row => row.key.scope == scope && row.key.memoryId == shell.id) rows) stock.work } := by
    intro shells
    induction shells with
    | nil => exact fun _ => rfl
    | cons shell rest ih => exact fun stock => ih _
  rw [folded,foldl_deleteWhere,foldl_deleteWhere]
  simp only [any_shell]

/-- The counters move by the rows that are live before any of them is buried. -/
theorem settle_stageTombstones (now : UnixSeconds) (stock : Stock) :
    settle (stageTombstones scope shells now) stock =
      { stock with
        holdings := { stock.holdings with
          db := Erasure.stageTombstones scope shells now stock.holdings.db
          counters := eraseCounters stock.holdings.db scope shells stock.holdings.counters } } := by
  have counted : ∀ (shells : List Shell) (stock : Stock), settle (shells.map (moveCounters scope)) stock = { stock with
      holdings := { stock.holdings with
        counters := eraseCounters stock.holdings.db scope shells stock.holdings.counters } } := by
    intro shells
    induction shells with
    | nil => exact fun _ => rfl
    | cons shell rest ih => exact fun stock => ih _
  have buried : ∀ (shells : List Shell) (stock : Stock), settle (shells.map (buries scope now)) stock =
      putDb stock (Erasure.stageTombstones scope shells now stock.holdings.db) := by
    intro shells
    induction shells with
    | nil => exact fun _ => rfl
    | cons shell rest ih => exact fun stock => ih _
  rw [stageTombstones,settle_append,counted,buried]
  rfl

end

/-! ### Whole batches -/

/-- One memory's erasure. -/
theorem settle_eraseBatch (prepared : PreparedErasure) (stock : Stock) :
    settle (eraseBatch prepared) stock = sweep prepared.scope prepared.shells { stock with
      holdings :=
        { db := eraseRows prepared stock.holdings.db
          counters := eraseCounters stock.holdings.db prepared.scope prepared.shells stock.holdings.counters
          captures := sweepCaptures prepared.scope prepared.shells stock.holdings.captures } } := by
  simp only [eraseBatch,settle_append,settle_stageSweep,settle_destroyForMemory,settle_stageTombstones,settle_queue]
  rfl

/-- One batch of a scope's erasure. -/
theorem settle_drainBatch (scope : Scope) (shells : List Shell) (now : UnixSeconds) (stock : Stock) :
    settle (drainBatch scope shells now) stock = sweep scope shells { stock with
      holdings :=
        { db := drainRows scope shells now stock.holdings.db
          counters := eraseCounters stock.holdings.db scope shells stock.holdings.counters
          captures := sweepCaptures scope shells stock.holdings.captures } } := by
  simp only [drainBatch,settle_append,settle_stageSweep,settle_stageTombstones,settle_queue]
  rfl

/-! ### Transactions -/

open ErasureLedger hiding Txn Stages commit system

/-- What a vault holds, the receipts among its rows. -/
def shadow (vault : Vault) : Stock := putDb vault.stock vault.db

section
variable {vault next : Vault} {scope : Scope}

theorem insertReceipt_shadow {receipt : Receipt} (inserted : ErasureLedger.insertReceipt vault receipt = .ok next) :
    Erasure.insertReceipt vault.db receipt.row = .ok next.db := by
  unfold ErasureLedger.insertReceipt at inserted
  split_ifs at inserted with dead
  obtain ⟨receipts,keyed,inserted⟩ := bind_ok_iff.mp inserted
  obtain ⟨more,identified,inserted⟩ := bind_ok_iff.mp inserted
  cases inserted
  refine (if_neg dead).trans ?_
  exact bind_ok_iff.mpr ⟨_,insertRow_map (fun _ => rfl) keyed,bind_ok_iff.mpr ⟨_,insertRow_map (fun _ => rfl) identified,rfl⟩⟩

theorem batched_settles (operation : String) (entries : List Entry) (now : UnixSeconds) :
    (vault.batched scope operation entries now).stock = settle entries vault.stock :=
  accountedBatch_settles scope operation entries now vault.stock vault.journal

/-- The rows and the receipts of an erasure, once its receipt is inserted. -/
theorem erase_executed {mid : Vault} (prepared : PreparedErasure) (inserted : Erasure.insertReceipt vault.db
    ⟨prepared.scope,some prepared.target,eraseId prepared.target,false,false⟩ = .ok mid.db) :
    commitErase prepared vault.db = .ok { eraseRows prepared mid.stock.holdings.db with
      receipts := (updateWhere (Receipt.at' prepared.scope (some prepared.target)) (fun receipt => { receipt with ready := true })
        mid.receipts).map Receipt.row } := by
  refine bind_ok_iff.mpr ⟨_,inserted,congrArg Except.ok ?_⟩
  have rows : eraseRows prepared mid.db =
      { eraseRows prepared mid.stock.holdings.db with receipts := mid.receipts.map Receipt.row } := eraseRows_receipts _ _ _
  have ready : (updateWhere (Receipt.at' prepared.scope (some prepared.target)) (fun receipt => { receipt with ready := true })
      mid.receipts).map Receipt.row = updateWhere (receiptAt prepared.scope (some prepared.target))
        (fun row => { row with ready := true }) (mid.receipts.map Receipt.row) := by
    refine map_updateWhere_view ?_ ?_ _
    · exact fun _ => rfl
    · exact fun _ => rfl
  rw [rows,ready]

/-- A memory's erasure is the pipeline's. -/
theorem erase_settles (fingerprint : Memory → String) {prepared : PreparedErasure} {authority : Authority}
    (erased : ErasureLedger.erase prepared (eraseDecision authority prepared) vault = .ok next) :
    commitLife fingerprint (.erase prepared) none (shadow vault) = .ok (shadow next) := by
  obtain ⟨mid,inserted,erased⟩ := bind_ok_iff.mp erased
  have receipt := insertReceipt_shadow inserted
  obtain ⟨-,-,rfl⟩ := ErasureLedger.insertReceipt_ok inserted
  cases erased
  have executed := erase_executed prepared receipt
  refine bind_ok_iff.mpr ⟨_,bind_ok_iff.mpr ⟨_,bind_ok_iff.mpr ⟨_,executed,rfl⟩,rfl⟩,bind_ok_iff.mpr ⟨_,rfl,?_⟩⟩
  refine congrArg Except.ok ?_
  rw [shadow,ErasureLedger.Vault.db]
  simp only [batched_settles,settle_eraseBatch]
  rfl

theorem startScope_settles (fingerprint : Memory → String) {decision : Decision}
    (started : ErasureLedger.startScope scope decision vault = .ok next) :
    commitLife fingerprint (.startScope scope decision.id) none (shadow vault) = .ok (shadow next) := by
  have executed : Erasure.startScope scope decision.id vault.db = .ok next.db := by
    have receipt := insertReceipt_shadow started
    have kept : (deleteWhere (fun receipt => receipt.at' scope none && receipt.delivered) vault.receipts).map Receipt.row =
        deleteWhere (fun row => receiptAt scope none row && row.delivered) (vault.receipts.map Receipt.row) := by
      simp only [deleteWhere,List.filter_map]
      rfl
    rw [ErasureLedger.Vault.db,kept] at receipt
    exact receipt
  obtain ⟨kept,-,-,-,rfl⟩ := ErasureLedger.startScope_ok started
  exact bind_ok_iff.mpr ⟨_,bind_ok_iff.mpr ⟨_,bind_ok_iff.mpr ⟨_,executed,rfl⟩,rfl⟩,bind_ok_iff.mpr ⟨_,rfl,rfl⟩⟩

/-- The rows and the receipts of a batch whose operation is the open one. -/
theorem drain_executed {operation : String} {shells : List Shell} {now : UnixSeconds}
    (free : ¬ vault.receipts.any (fun receipt => receipt.at' scope none && !(receipt.decision.id == operation && !receipt.ready)) =
      true) :
    ∃ last, Erasure.drain scope operation shells now vault.db = .ok ({ drainRows scope shells now vault.stock.holdings.db with
      receipts := (updateWhere (fun receipt => receipt.at' scope none && receipt.decision.id == operation &&
        drained (drainRows scope shells now vault.stock.holdings.db) scope) (fun receipt => { receipt with ready := true })
          vault.receipts).map Receipt.row },last) := by
  have open' : ¬ vault.db.receipts.any (fun row => receiptAt scope none row && !(row.decisionId == operation && !row.ready)) =
      true := by
    rw [ErasureLedger.Vault.db,List.any_map]
    exact free
  have rows : drainRows scope shells now vault.db =
      { drainRows scope shells now vault.stock.holdings.db with receipts := vault.receipts.map Receipt.row } := by
    rw [drainRows_eq,drainRows_eq]
    rfl
  have ready : (updateWhere (fun receipt => receipt.at' scope none && receipt.decision.id == operation &&
      drained (drainRows scope shells now vault.stock.holdings.db) scope) (fun receipt => { receipt with ready := true })
        vault.receipts).map Receipt.row = updateWhere (fun row => receiptAt scope none row && row.decisionId == operation &&
          drained (drainRows scope shells now vault.stock.holdings.db) scope) (fun row => { row with ready := true })
            (vault.receipts.map Receipt.row) := by
    refine map_updateWhere_view ?_ ?_ _
    · exact fun _ => rfl
    · exact fun _ => rfl
  refine ⟨vault.db.receipts.any (fun row => receiptAt scope none row && row.decisionId == operation &&
    drained (drainRows scope shells now vault.stock.holdings.db) scope),?_⟩
  rw [Erasure.drain,if_neg open',rows,ready]
  rfl

/-- A batch of a scope's erasure is the pipeline's. -/
theorem drain_settles (fingerprint : Memory → String) {operation : String} {shells : List Shell} {now : UnixSeconds}
    (committed : drainOneBatch scope operation shells now vault = .ok next) :
    commitLife fingerprint (.drain scope operation shells now) none (shadow vault) = .ok (shadow next) := by
  unfold drainOneBatch at committed
  split_ifs at committed with taken
  cases committed
  obtain ⟨last,executed⟩ := drain_executed taken
  refine bind_ok_iff.mpr ⟨_,bind_ok_iff.mpr ⟨_,bind_ok_iff.mpr ⟨_,executed,rfl⟩,rfl⟩,bind_ok_iff.mpr ⟨_,rfl,?_⟩⟩
  refine congrArg Except.ok ?_
  rw [shadow,ErasureLedger.Vault.db]
  simp only [batched_settles,settle_drainBatch]
  rfl

theorem deliver_settles (fingerprint : Memory → String) (target : Option MemoryId) (decisionId : String) :
    commitLife fingerprint (.deliver scope target decisionId) none (shadow vault) =
      .ok (shadow (ErasureLedger.deliver scope target decisionId vault)) := by
  have delivered : (updateWhere (fun receipt => receipt.at' scope target && receipt.decision.id == decisionId)
      (fun receipt => { receipt with delivered := true }) vault.receipts).map Receipt.row =
        updateWhere (fun row => receiptAt scope target row && row.decisionId == decisionId)
          (fun row => { row with delivered := true }) (vault.receipts.map Receipt.row) := by
    refine map_updateWhere_view ?_ ?_ _
    · exact fun _ => rfl
    · exact fun _ => rfl
  refine bind_ok_iff.mpr ⟨_,bind_ok_iff.mpr ⟨_,rfl,rfl⟩,bind_ok_iff.mpr ⟨_,rfl,congrArg Except.ok ?_⟩⟩
  simp only [shadow,ErasureLedger.Vault.db,ErasureLedger.deliver,delivered]
  rfl

end

/-! ### Runs -/

section
variable (fingerprint : Memory → String) (config : Chunking.ChunkConfig) (redigests : Bool) (scopeId : Scope → String)
variable {log : List (ErasureLedger.Txn × Vault)}

/-- What else is committed is the pipeline's. -/
def Piped (log : List (ErasureLedger.Txn × Vault)) : Prop :=
  ∀ newer change next older, log = newer ++ (.other change,next) :: older → ∃ txn,
    Pipeline.Stages fingerprint config redigests ((ErasureLedger.system.states older).map shadow) txn ∧
      Pipeline.commit fingerprint scopeId (shadow (ErasureLedger.system.current older)) txn = .ok (shadow next)

/-- A step that leaves the rows as they are is one of the chassis that changes nothing. -/
theorem idle_commits (stock : Stock) (history : List Stock) :
    Pipeline.Stages fingerprint config redigests history (.upkeep id id) ∧
      Pipeline.commit fingerprint scopeId stock (.upkeep id id) = .ok stock := by
  refine ⟨.upkeep id (fun _ => rfl) fun _ => id,congrArg Except.ok ?_⟩
  rw [List.map_id]
  rfl

/-- What an erasure stages the pipeline stages, and commits to the same rows. -/
theorem step_settles {history : List Vault} {now next : Vault} {txn : ErasureLedger.Txn}
    (staged : ErasureLedger.Stages history txn) (committed : ErasureLedger.commit now txn = .ok next)
    (piped : ∀ change, txn = .other change → ∃ inner, Pipeline.Stages fingerprint config redigests (history.map shadow) inner ∧
      Pipeline.commit fingerprint scopeId (shadow now) inner = .ok (shadow next)) :
    ∃ inner, Pipeline.Stages fingerprint config redigests (history.map shadow) inner ∧
      Pipeline.commit fingerprint scopeId (shadow now) inner = .ok (shadow next) := by
  have read : ∀ seen ∈ history, Lifecycle.Read ((history.map shadow).map Stock.holdings) seen.db :=
    fun seen member => ⟨_,List.mem_map_of_mem (List.mem_map_of_mem member),rfl⟩
  cases staged with
  | other change => exact piped change rfl
  | record apart =>
    obtain ⟨-,rfl⟩ := append_ok committed
    exact ⟨_,idle_commits fingerprint config redigests scopeId _ _⟩
  | append appends =>
    obtain ⟨-,rfl⟩ := append_ok committed
    exact ⟨_,idle_commits fingerprint config redigests scopeId _ _⟩
  | erase authority reads prepares =>
    refine ⟨_,.life none (.erase (fun place => ?_) prepares),erase_settles fingerprint committed⟩
    obtain ⟨seen,member,is⟩ := reads place
    rw [is]
    exact read seen member
  | startScope authority id => exact ⟨_,.life none (.startScope _ _),startScope_settles fingerprint committed⟩
  | drain at' bounded reads found draining =>
    exact ⟨_,.life none (.drain _ at' bounded (read _ reads.mem_second)),drain_settles fingerprint committed⟩
  | deliver prepares delivered =>
    cases committed
    exact ⟨_,.life none (.deliver _ _ _),deliver_settles fingerprint _ _⟩

/-- A run of erasures that are counted and delivered is a run of the pipeline: what holds
    in every run of the pipeline holds of its rows. -/
theorem shadow_run {Meets : Vault → ErasureLedger.Txn → Prop} (run : Run ErasureLedger.system Meets log)
    (piped : Piped fingerprint config redigests scopeId log) :
    ∃ inner, Run (Pipeline.system fingerprint config redigests scopeId) (fun _ _ => True) inner ∧
      (Pipeline.system fingerprint config redigests scopeId).states inner = (ErasureLedger.system.states log).map shadow ∧
      (Pipeline.system fingerprint config redigests scopeId).current inner = shadow (ErasureLedger.system.current log) := by
  induction run with
  | start => exact ⟨[],.start,rfl,rfl⟩
  | @step log txn next run staged meet committed ih =>
    obtain ⟨inner,innerRun,states,current⟩ := ih fun newer change state older is =>
      piped ((txn,next) :: newer) change state older (by rw [is]; rfl)
    obtain ⟨step,stages,commits⟩ := step_settles fingerprint config redigests scopeId staged (commit_single rfl committed)
      fun change is => piped [] change next log (by rw [is]; rfl)
    refine ⟨(step,shadow next) :: inner,innerRun.step ?_ (meetAll_of_forall (fun _ _ _ => trivial) _) ?_,?_,rfl⟩
    · rw [states]
      exact stages
    · rw [current]
      exact bind_ok_iff.mpr ⟨_,commits,rfl⟩
    · exact congrArg (shadow next :: ·) states

end

end Aicortex.ErasureSettlement
