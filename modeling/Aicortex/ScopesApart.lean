import Aicortex.PipelineFacts
import Aicortex.Lib.Parts

/-!
Scopes stay apart. Every row names the scope it belongs to, and every statement its own
scope beside whatever else selects a row; so of a set of scopes the store keeps a part that
the transactions of those scopes read and write as if there were no other, and that the
transactions of other scopes leave alone.
-/

namespace Aicortex.ScopesApart
open Aicortex.Text Aicortex.CivilTime Aicortex.Memories Aicortex.Schema Aicortex.ClaimRepo Aicortex.MemoryRepo Aicortex.Erasure
open Aicortex.Lifecycle Aicortex.EmbeddingTables Aicortex.ModelRegistry Aicortex.Chunking Aicortex.Pipeline
open Lib.Tables Lib.Outcome Lib.Parts Lib.StaleRuns
open Aicortex.Claims hiding Unit
set_option linter.unusedSimpArgs false

/-! ### The part of some scopes -/

section
variable (keep : Scope → Bool)

def onlyDatabase (db : Database) : Database where
  txCounter := fun scope => if keep scope then db.txCounter scope else 0
  claims := db.claims.filter (fun row => keep row.scope)
  relations := db.relations.filter (fun row => keep row.scope)
  retractions := db.retractions.filter (fun row => keep row.scope)
  sources := db.sources.filter (fun row => keep row.scope)
  admissions := db.admissions.filter (fun row => keep row.scope)
  proposals := db.proposals.filter (fun row => keep row.scope)
  memories := db.memories.filter (fun row => keep row.scope)
  derivations := db.derivations.filter (fun row => keep row.scope)
  keys := db.keys.filter (fun row => keep row.scope)
  receipts := db.receipts.filter (fun row => keep row.scope)

def onlyCounters (counters : Counters) : Counters := fun bucket => if keep bucket.1 then counters bucket else none

def onlyHoldings (store : Holdings) : Holdings where
  db := onlyDatabase keep store.db
  counters := onlyCounters keep store.counters
  captures := store.captures.filter (fun row => keep row.scope)

/-- The models are of no scope. -/
def onlyStock (stock : Stock) : Stock where
  holdings := onlyHoldings keep stock.holdings
  provenance := stock.provenance.filter (fun row => keep row.scope)
  models := stock.models
  chunks := stock.chunks.filter (fun row => keep row.scope)
  embeddings := stock.embeddings.filter (fun row => keep row.scope)
  work := stock.work.filter (fun row => keep row.key.scope)
  attempts := stock.attempts.filter (fun row => keep row.key.scope)

end

section
variable {keep : Scope → Bool} {scope : Scope} {id : MemoryId} {fingerprint : Memory → String}

/-! ### Tables -/

theorem memoriesTable :
    Table (onlyDatabase keep) keep Database.memories (fun db rows => { db with memories := rows }) MemoryRow.scope :=
  ⟨fun _ => rfl,fun _ _ => rfl,fun _ => rfl⟩

theorem derivationsTable :
    Table (onlyDatabase keep) keep Database.derivations (fun db rows => { db with derivations := rows }) DerivationRow.scope :=
  ⟨fun _ => rfl,fun _ _ => rfl,fun _ => rfl⟩

theorem keysTable : Table (onlyDatabase keep) keep Database.keys (fun db rows => { db with keys := rows }) KeyRow.scope :=
  ⟨fun _ => rfl,fun _ _ => rfl,fun _ => rfl⟩

theorem receiptsTable :
    Table (onlyDatabase keep) keep Database.receipts (fun db rows => { db with receipts := rows }) ReceiptRow.scope :=
  ⟨fun _ => rfl,fun _ _ => rfl,fun _ => rfl⟩

theorem claimsTable : Table (onlyDatabase keep) keep Database.claims (fun db rows => { db with claims := rows }) ClaimRow.scope :=
  ⟨fun _ => rfl,fun _ _ => rfl,fun _ => rfl⟩

theorem relationsTable :
    Table (onlyDatabase keep) keep Database.relations (fun db rows => { db with relations := rows }) RelationRow.scope :=
  ⟨fun _ => rfl,fun _ _ => rfl,fun _ => rfl⟩

theorem retractionsTable :
    Table (onlyDatabase keep) keep Database.retractions (fun db rows => { db with retractions := rows }) RetractionRow.scope :=
  ⟨fun _ => rfl,fun _ _ => rfl,fun _ => rfl⟩

theorem sourcesTable :
    Table (onlyDatabase keep) keep Database.sources (fun db rows => { db with sources := rows }) SourceRow.scope :=
  ⟨fun _ => rfl,fun _ _ => rfl,fun _ => rfl⟩

theorem admissionsTable :
    Table (onlyDatabase keep) keep Database.admissions (fun db rows => { db with admissions := rows }) AdmissionRow.scope :=
  ⟨fun _ => rfl,fun _ _ => rfl,fun _ => rfl⟩

theorem proposalsTable :
    Table (onlyDatabase keep) keep Database.proposals (fun db rows => { db with proposals := rows }) ProposalRow.scope :=
  ⟨fun _ => rfl,fun _ _ => rfl,fun _ => rfl⟩

theorem capturesTable :
    Table (onlyHoldings keep) keep Holdings.captures (fun store rows => { store with captures := rows })
      MemorySourceRow.scope := ⟨fun _ => rfl,fun _ _ => rfl,fun _ => rfl⟩

theorem provenanceTable :
    Table (onlyStock keep) keep Stock.provenance (fun stock rows => { stock with provenance := rows }) ProvenanceRow.scope :=
  ⟨fun _ => rfl,fun _ _ => rfl,fun _ => rfl⟩

theorem chunksTable : Table (onlyStock keep) keep Stock.chunks (fun stock rows => { stock with chunks := rows }) ChunkRow.scope :=
  ⟨fun _ => rfl,fun _ _ => rfl,fun _ => rfl⟩

theorem embeddingsTable :
    Table (onlyStock keep) keep Stock.embeddings (fun stock rows => { stock with embeddings := rows }) EmbeddingRow.scope :=
  ⟨fun _ => rfl,fun _ _ => rfl,fun _ => rfl⟩

theorem workTable :
    Table (onlyStock keep) keep Stock.work (fun stock rows => { stock with work := rows }) (fun row => row.key.scope) :=
  ⟨fun _ => rfl,fun _ _ => rfl,fun _ => rfl⟩

theorem attemptsTable :
    Table (onlyStock keep) keep Stock.attempts (fun stock rows => { stock with attempts := rows }) (fun row => row.key.scope) :=
  ⟨fun _ => rfl,fun _ _ => rfl,fun _ => rfl⟩

/-! ### Reading one scope -/

/-- A condition that names a scope before it asks anything else. -/
theorem scope_of {owner : Scope} {rest : Bool} (chosen : (owner == scope && rest) = true) : owner = scope :=
  beq_iff_eq.mp (Bool.and_eq_true_iff.mp chosen).1

theorem scope_of_more {owner : Scope} {rest more : Bool} (chosen : (owner == scope && rest && more) = true) : owner = scope :=
  scope_of (Bool.and_eq_true_iff.mp chosen).1

theorem ofScope_scope : ∀ row : MemoryRow, ofScope scope id row = true → row.scope = scope := fun _ => scope_of

theorem ofScope_and_scope {rest : MemoryRow → Bool} :
    ∀ row : MemoryRow, (ofScope scope id row && rest row) = true → row.scope = scope := fun _ => scope_of_more

theorem receiptAt_scope {target : Option MemoryId} : ∀ row : ReceiptRow, receiptAt scope target row = true → row.scope = scope :=
  fun _ => scope_of

theorem liveRows_scope {db : Database} {shell : Shell} {row : MemoryRow} (member : row ∈ liveRows db scope shell) :
    row.scope = scope := ofScope_and_scope row (List.mem_filter.mp member).2

section
variable (mine : keep scope = true)
include mine

theorem derives_only (db : Database) (parent child : MemoryId) :
    derives (onlyDatabase keep db) scope parent child = derives db scope parent child :=
  derivationsTable.any_only (fun _ => scope_of_more) mine db

theorem cites_only (db : Database) (source : MemoryId) (claim : ClaimId) :
    cites (onlyDatabase keep db) scope source claim = cites db scope source claim :=
  sourcesTable.any_only (fun _ => scope_of_more) mine db

theorem drained_only (db : Database) : drained (onlyDatabase keep db) scope = drained db scope := by
  unfold drained
  rw [memoriesTable.any_only (fun _ => scope_of) mine,claimsTable.any_only (fun _ => scope_of) mine,
    keysTable.any_only (fun row chosen => beq_iff_eq.mp chosen) mine]

theorem claimed_only (db : Database) (ids : List MemoryId) (kind : MemoryKind) :
    claimed (onlyDatabase keep db) scope ids kind = claimed db scope ids kind := by
  unfold claimed
  rw [memoriesTable.countP_only (fun row chosen => scope_of_more (Bool.and_eq_true_iff.mp chosen).1) mine]

theorem liveRows_only (db : Database) (shell : Shell) :
    liveRows (onlyDatabase keep db) scope shell = liveRows db scope shell :=
  memoriesTable.filter_only ofScope_and_scope mine db

theorem successor_only (db : Database) (id : MemoryId) :
    successor (onlyDatabase keep db) scope id = successor db scope id := by
  unfold successor
  rw [memoriesTable.find?_only ofScope_scope mine]

/-- A walk over fewer rows meets no other successors. -/
theorem reaches_only {db : Database} {start target : MemoryId} (unreached : reaches db scope start target = false) :
    reaches (onlyDatabase keep db) scope start target = false := by
  have longer : ∀ fuel more start, target ∈ successors (onlyDatabase keep db) scope fuel start →
      target ∈ successors db scope (fuel + more) start := by
    intro fuel
    induction fuel with
    | zero =>
      intro more start met
      rw [List.mem_singleton.mp met]
      cases more <;> simp [successors]
    | succ fuel ih =>
      intro more start met
      rw [Nat.succ_add]
      have next := successor_only mine db start
      unfold successor at next
      rw [successors,next] at met
      rw [successors]
      rcases List.mem_cons.mp met with rfl | later
      · exact List.mem_cons_self
      · obtain ⟨mid,inside,further⟩ := List.mem_flatMap.mp later
        exact List.mem_cons_of_mem _ (List.mem_flatMap.mpr ⟨mid,inside,ih more mid further⟩)
  refine Bool.eq_false_iff.mpr fun met => Bool.eq_false_iff.mp unreached ?_
  have fewer : (onlyDatabase keep db).memories.length ≤ db.memories.length := List.length_filter_le _ _
  have met := longer _ (db.memories.length - (onlyDatabase keep db).memories.length) start (List.contains_iff_mem.mp met)
  rw [Nat.add_sub_cancel' fewer] at met
  exact List.contains_iff_mem.mpr met

end

/-! ### The life of a memory -/

theorem guarded_confined (guard : Database → MemoryRow → Bool) (change : MemoryRow → MemoryRow)
    (weaker : keep scope = true → ∀ db row, guard db row = true → guard (onlyDatabase keep db) row = true)
    (same : ∀ row, (change row).scope = row.scope) :
    Confined (onlyDatabase keep) (keep scope) (fun db => guarded scope id (guard db) change db) := by
  refine .guarded _ (fun mine db passed => ?_)
    (memoriesTable.update_local (fun _ => ofScope scope id) change (fun _ => ofScope_scope) same fun _ _ _ => rfl).confined
  refine List.any_eq_false.mpr fun row member blocked => ?_
  have free := List.any_eq_false.mp passed row (List.mem_filter.mp member).1
  simp only [Bool.and_eq_true,Bool.not_eq_true',not_and,Bool.not_eq_false] at free blocked
  rw [weaker mine db row (free blocked.1)] at blocked
  cases blocked.2

theorem merge_confined (expected again : Memory) :
    Confined (onlyDatabase keep) (keep scope) (fun db => MemoryRepo.merge scope id expected again db) :=
  guarded_confined (fun _ row => row.record == expected && row.live) _ (fun _ _ _ passed => passed) fun _ => rfl

theorem supersede_confined (old new : MemoryId) (expected : Memory) (at' : UnixSeconds) :
    Confined (onlyDatabase keep) (keep scope) (fun db => MemoryRepo.supersede scope old new expected at' db) := by
  unfold MemoryRepo.supersede
  split_ifs
  · exact .refused _
  refine guarded_confined (fun db row => row.record == expected && row.live && !reaches db scope new old) _ ?_ fun _ => rfl
  intro mine db row passed
  simp only [Bool.and_eq_true,Bool.not_eq_true'] at passed ⊢
  exact ⟨passed.1,reaches_only mine passed.2⟩

theorem setValidUntil_local (until' : Option UnixSeconds) :
    Local (onlyDatabase keep) (keep scope) (MemoryRepo.setValidUntil scope id until') :=
  memoriesTable.update_local (fun _ row => ofScope scope id row && row.live) _ (fun _ => ofScope_and_scope) (fun _ => rfl)
    fun _ _ _ => rfl

theorem expire_local (ids : List MemoryId) (now : UnixSeconds) :
    Local (onlyDatabase keep) (keep scope) (MemoryRepo.expire scope ids now) :=
  memoriesTable.update_local (fun _ row => row.scope == scope && row.status == .active && ids.contains row.id) _
    (fun _ _ => scope_of_more) (fun _ => rfl) fun _ _ _ => rfl

theorem insertMemory_confined (row : MemoryRow) :
    Confined (onlyDatabase keep) (keep row.scope) (fun db => insertMemory db row) := by
  refine ⟨fun mine db next executed => ?_,fun other db next executed => ?_⟩
  · obtain ⟨memories,inserted,rest⟩ := bind_ok_iff.mp executed
    split_ifs at rest with clash
    cases rest
    have apart : (onlyDatabase keep db).memories.any (clashes row) = false :=
      memoriesTable.any_only_false (Bool.eq_false_iff.mpr clash)
    refine bind_ok_iff.mpr ⟨_,insertRow_filter inserted mine,?_⟩
    rw [if_neg (by simp [apart])]
    rfl
  · obtain ⟨memories,inserted,rest⟩ := bind_ok_iff.mp executed
    split_ifs at rest
    cases rest
    exact memoriesTable.only_write_same (insertRow_filter_apart inserted other)

theorem insert_confined (maxBodyBytes : Nat) (memory : Memory) (provenance : Provenance) :
    Confined (onlyDatabase keep) (keep memory.scope) (fun db => MemoryRepo.insert fingerprint maxBodyBytes memory provenance db) := by
  have rows : Confined (onlyDatabase keep) (keep memory.scope) (fun db => (do
      let db ← insertMemory db (memoryRow fingerprint memory)
      (derivationRows memory).foldlM insertDerivation db : Except StoreError Database)) := by
    refine (insertMemory_confined (memoryRow fingerprint memory)).bind (.foldlM fun row member => ?_)
    obtain ⟨parent,-,rfl⟩ := List.mem_map.mp member
    exact derivationsTable.insert_confined _ _ (⟨memory.id,parent.1,parent.2,memory.scope⟩ : DerivationRow)
  unfold MemoryRepo.insert
  split_ifs
  · exact .refused _
  · exact .refused _
  · exact rows

theorem redigestRow_confined (read : MemoryId × Memory) :
    Confined (onlyDatabase keep) (keep scope) (fun db => redigestRow fingerprint scope db read) := by
  have named : ∀ row : MemoryRow, (ofScope scope read.1 row && row.live && decide (row.fingerprintVersion < 1)) = true →
      row.scope = scope := fun row chosen => ofScope_and_scope row (Bool.and_eq_true_iff.mp chosen).1
  refine .guarded _ (fun _ db passed => memoriesTable.any_only_false passed) (.guarded _ (fun _ db passed => ?_)
    (memoriesTable.update_local _ (fun row => { row with fingerprint := fingerprint read.2, fingerprintVersion := 1 })
      (fun _ => named) (fun _ => rfl) fun _ _ _ => rfl).confined)
  refine List.any_eq_false.mpr fun row member clash => ?_
  obtain ⟨due,clashing⟩ := Bool.and_eq_true_iff.mp clash
  obtain ⟨other,inside,same⟩ := List.any_eq_true.mp clashing
  refine List.any_eq_false.mp passed row (List.mem_filter.mp member).1 (Bool.and_eq_true_iff.mpr ⟨due,?_⟩)
  exact List.any_eq_true.mpr ⟨other,(List.mem_filter.mp inside).1,same⟩

theorem redigest_confined (rows : List (MemoryId × Memory)) :
    Confined (onlyDatabase keep) (keep scope) (fun db => MemoryRepo.redigest fingerprint scope rows db) :=
  .foldlM fun read _ => redigestRow_confined read

/-! ### Erasures -/

section
variable (shells : List Shell) (now : UnixSeconds)

theorem stageSweep_local : Local (onlyDatabase keep) (keep scope) (stageSweep scope shells) :=
  derivationsTable.delete_local _ fun _ => scope_of

theorem destroyForMemories_local : Local (onlyDatabase keep) (keep scope) (destroyForMemories scope shells) :=
  keysTable.delete_local _ fun _ => scope_of

theorem destroyForScope_local : Local (onlyDatabase keep) (keep scope) (destroyForScope scope) :=
  keysTable.delete_local _ fun _ chosen => beq_iff_eq.mp chosen

theorem stageTombstones_local : Local (onlyDatabase keep) (keep scope) (stageTombstones scope shells now) :=
  .foldl fun shell _ => memoriesTable.update_local (fun _ row => ofScope scope shell.id row && row.live) _
    (fun _ => ofScope_and_scope) (fun _ => rfl) fun _ _ _ => rfl

end

theorem markDerived_local (parent : MemoryId) : Local (onlyDatabase keep) (keep scope) (markDerived scope parent) :=
  memoriesTable.update_local
    (fun db row => row.scope == scope && !row.originErased && row.live && derives db scope parent row.id) _
    (fun _ _ chosen => scope_of_more (Bool.and_eq_true_iff.mp chosen).1) (fun _ => rfl)
    fun mine db row => by rw [derives_only mine]

theorem markSourceClaims_local (source : MemoryId) : Local (onlyDatabase keep) (keep scope) (markSourceClaims scope source) :=
  claimsTable.update_local (fun db row => row.scope == scope && !row.erased && cites db scope source row.claimId) _
    (fun _ _ => scope_of_more) (fun _ => rfl) fun mine db row => by rw [cites_only mine]

theorem eraseSourceClaims_local (source : MemoryId) : Local (onlyDatabase keep) (keep scope) (eraseSourceClaims scope source) := by
  have claims := (@claimsTable keep).update_local
    (fun db row => row.scope == scope && !row.erased && cites db scope source row.claimId) ClaimRow.tombstone
    (fun _ _ => scope_of_more) (fun _ => rfl) fun mine db row => by rw [cites_only mine]
  have relations := (@relationsTable keep).update_local
    (fun db row => row.scope == scope && cites db scope source row.fromClaim) RelationRow.scrubbed
    (fun _ _ => scope_of) (fun _ => rfl) fun mine db row => by rw [cites_only mine]
  have admissions := (@admissionsTable keep).update_local
    (fun db row => row.scope == scope && cites db scope source row.claimId) AdmissionRow.scrubbed
    (fun _ _ => scope_of) (fun _ => rfl) fun mine db row => by rw [cites_only mine]
  exact (claims.comp relations).comp admissions

theorem eraseScopeClaims_local : Local (onlyDatabase keep) (keep scope) (eraseScopeClaims scope) := by
  have claims := (@claimsTable keep).update_local (fun _ row => row.scope == scope && !row.erased) ClaimRow.tombstone
    (fun _ _ => scope_of) (fun _ => rfl) fun _ _ _ => rfl
  have relations := (@relationsTable keep).delete_local (fun row => row.scope == scope) fun _ chosen => beq_iff_eq.mp chosen
  have retractions := (@retractionsTable keep).delete_local (fun row => row.scope == scope) fun _ chosen => beq_iff_eq.mp chosen
  have sources := (@sourcesTable keep).delete_local (fun row => row.scope == scope) fun _ chosen => beq_iff_eq.mp chosen
  have admissions := (@admissionsTable keep).delete_local (fun row => row.scope == scope) fun _ chosen => beq_iff_eq.mp chosen
  have proposals := (@proposalsTable keep).delete_local (fun row => row.scope == scope) fun _ chosen => beq_iff_eq.mp chosen
  exact ((((claims.comp relations).comp retractions).comp sources).comp admissions).comp proposals

theorem insertReceipt_confined (row : ReceiptRow) :
    Confined (onlyDatabase keep) (keep row.scope) (fun db => insertReceipt db row) := by
  refine ⟨fun mine db next executed => ?_,fun other db next executed => ?_⟩
  · unfold insertReceipt at executed ⊢
    have alive : ∀ id, (onlyDatabase keep db).memories.any (fun memory => ofScope row.scope id memory && memory.live) =
        db.memories.any (fun memory => ofScope row.scope id memory && memory.live) :=
      fun id => memoriesTable.any_only ofScope_and_scope mine db
    simp only [alive]
    split_ifs at executed ⊢
    obtain ⟨receipts,inserted,rest⟩ := bind_ok_iff.mp executed
    obtain ⟨others,numbered,rest⟩ := bind_ok_iff.mp rest
    cases rest
    exact bind_ok_iff.mpr ⟨_,insertRow_filter inserted mine,bind_ok_iff.mpr ⟨_,insertRow_filter numbered mine,rfl⟩⟩
  · unfold insertReceipt at executed
    split_ifs at executed
    obtain ⟨receipts,inserted,rest⟩ := bind_ok_iff.mp executed
    obtain ⟨others,-,rest⟩ := bind_ok_iff.mp rest
    cases rest
    exact receiptsTable.only_write_same (insertRow_filter_apart inserted other)

theorem deliver_local (target : Option MemoryId) (decisionId : String) :
    Local (onlyDatabase keep) (keep scope) (Erasure.deliver scope target decisionId) :=
  receiptsTable.update_local (fun _ row => receiptAt scope target row && row.decisionId == decisionId) _
    (fun _ row chosen => receiptAt_scope row (Bool.and_eq_true_iff.mp chosen).1) (fun _ => rfl) fun _ _ _ => rfl

theorem startScope_confined (decisionId : String) :
    Confined (onlyDatabase keep) (keep scope) (fun db => Erasure.startScope scope decisionId db) := by
  have cleared := (@receiptsTable keep).delete_local (fun row => receiptAt scope none row && row.delivered)
    fun row chosen => receiptAt_scope row (Bool.and_eq_true_iff.mp chosen).1
  exact cleared.then' (insertReceipt_confined ⟨scope,none,decisionId,false,false⟩)

theorem eraseRows_local (prepared : PreparedErasure) : Local (onlyDatabase keep) (keep prepared.scope) (eraseRows prepared) := by
  have claims : Local (onlyDatabase keep) (keep prepared.scope) (sourceClaims prepared) := by
    unfold sourceClaims
    split_ifs
    · exact eraseSourceClaims_local prepared.target
    · exact markSourceClaims_local prepared.target
  exact ((((stageSweep_local prepared.shells).comp (destroyForMemories_local prepared.shells)).comp
    (stageTombstones_local prepared.shells prepared.now)).comp (markDerived_local prepared.target)).comp claims

theorem commitErase_confined (prepared : PreparedErasure) :
    Confined (onlyDatabase keep) (keep prepared.scope) (fun db => commitErase prepared db) := by
  have ready := (@receiptsTable keep).update_local (fun _ => receiptAt prepared.scope (some prepared.target))
    (fun row => { row with ready := true }) (fun _ => receiptAt_scope) (fun _ => rfl) fun _ _ _ => rfl
  have receipt : Confined (onlyDatabase keep) (keep prepared.scope) _ := insertReceipt_confined
    ⟨prepared.scope,some prepared.target,s!"{kindErase}-{prepared.target}",false,false⟩
  exact receipt.bind ((eraseRows_local prepared).comp ready).confined

theorem drainRows_local (shells : List Shell) (now : UnixSeconds) :
    Local (onlyDatabase keep) (keep scope) (drainRows scope shells now) :=
  (((stageSweep_local shells).comp destroyForScope_local).comp (stageTombstones_local shells now)).comp eraseScopeClaims_local

/-- A batch, without what it answers. -/
def drainedBatch (scope : Scope) (operation : String) (shells : List Shell) (now : UnixSeconds) (db : Database) :
    Except StoreError Database := do
  let (db,_) ← Erasure.drain scope operation shells now db
  .ok db

theorem drain_confined (operation : String) (shells : List Shell) (now : UnixSeconds) :
    Confined (onlyDatabase keep) (keep scope) (drainedBatch scope operation shells now) := by
  have done := (@receiptsTable keep).update_local
    (fun db row => receiptAt scope none row && row.decisionId == operation && drained db scope)
    (fun row => { row with ready := true })
    (fun _ row chosen => receiptAt_scope row (Bool.and_eq_true_iff.mp (Bool.and_eq_true_iff.mp chosen).1).1) (fun _ => rfl)
    fun mine db row => by rw [drained_only mine]
  have same : drainedBatch scope operation shells now = fun db =>
      if db.receipts.any (fun row => receiptAt scope none row && !(row.decisionId == operation && !row.ready)) then
        .error (.constraint "erasure_receipt.ready")
      else .ok { drainRows scope shells now db with
        receipts := updateWhere (fun row => receiptAt scope none row && row.decisionId == operation &&
            drained (drainRows scope shells now db) scope) (fun row => { row with ready := true })
          (drainRows scope shells now db).receipts } := by
    funext db
    unfold drainedBatch Erasure.drain
    split_ifs <;> rfl
  rw [same]
  exact .guarded _ (fun _ _ passed => receiptsTable.any_only_false passed) ((drainRows_local shells now).comp done).confined

/-! ### Counters -/

/-- A counter is changed by what it was. -/
theorem counter_local (bucket : Bucket) (change : Option Int → Option Int) :
    Local (onlyCounters keep) (keep bucket.1) (fun counters => Function.update counters bucket (change (counters bucket))) := by
  refine ⟨fun mine counters => ?_,fun other counters => ?_⟩
  · funext found
    by_cases same : found = bucket
    · subst same
      simp [onlyCounters,mine]
    · simp [onlyCounters,Function.update_of_ne same]
  · funext found
    by_cases same : found = bucket
    · subst same
      simp [onlyCounters,other]
    · simp [onlyCounters,Function.update_of_ne same]

theorem adjust_local (bucket : Bucket) (delta : Int) :
    Local (onlyCounters keep) (keep bucket.1) (fun counters => adjust counters bucket delta) := by
  have same : (fun counters : Counters => adjust counters bucket delta) = fun counters =>
      Function.update counters bucket (some ((counters bucket).elim delta fun count => max 0 (count + delta))) := by
    funext counters
    unfold adjust
    cases counters bucket <;> rfl
  rw [same]
  exact counter_local bucket fun count => some (count.elim delta fun count => max 0 (count + delta))

theorem shift_local (bucket : Bucket) (delta : Int) :
    Local (onlyCounters keep) (keep bucket.1) (fun counters => shift counters bucket delta) := by
  have same : (fun counters : Counters => shift counters bucket delta) = fun counters =>
      Function.update counters bucket (some ((counters bucket).elim delta fun count => count + delta)) := by
    funext counters
    unfold shift
    cases counters bucket <;> rfl
  rw [same]
  exact counter_local bucket fun count => some (count.elim delta fun count => count + delta)

theorem updateCounter_local (bucket : Bucket) (change : Int → Int) :
    Local (onlyCounters keep) (keep bucket.1) (fun counters => updateCounter counters bucket change) :=
  counter_local bucket (Option.map change)

theorem materialize_local (kinds : List MemoryKind) :
    Local (onlyCounters keep) (keep scope) (Lifecycle.materialize scope kinds) :=
  .foldl fun kind _ => (adjust_local (scope,kind,.expired) 0).comp (adjust_local (scope,kind,.active) 0)

theorem expireCounters_local (db : Database) (ids : List MemoryId) (kinds : List MemoryKind) :
    Local (onlyCounters keep) (keep scope) (expireCounters db scope ids kinds) :=
  .foldl fun kind _ => (updateCounter_local (scope,kind,.active) _).comp (updateCounter_local (scope,kind,.expired) _)

theorem eraseCounters_local (db : Database) (shells : List Shell) :
    Local (onlyCounters keep) (keep scope) (eraseCounters db scope shells) := by
  refine .foldl fun shell _ => ?_
  have left : Local (onlyCounters keep) (keep scope)
      (fun counters => (liveRows db scope shell).foldl (fun counters row => shift counters (bucketOf row) (-1)) counters) :=
    .foldl fun row member => liveRows_scope member ▸ shift_local (bucketOf row) (-1)
  have entered : Local (onlyCounters keep) (keep scope)
      (fun counters => (liveRows db scope shell).foldl (fun counters row => shift counters (row.scope,row.kind,.erased) 1) counters) :=
    .foldl fun row member => liveRows_scope member ▸ shift_local (row.scope,row.kind,.erased) 1
  exact left.comp entered

/-- A change of the counters by the rows there are. -/
theorem counters_local (change : Database → Counters → Counters)
    (each : ∀ db, Local (onlyCounters keep) (keep scope) (change db))
    (alike : keep scope = true → ∀ db, change (onlyDatabase keep db) = change db) :
    Local (onlyHoldings keep) (keep scope) (fun store => { store with counters := change store.db store.counters }) := by
  refine ⟨fun mine store => ?_,fun other store => ?_⟩
  · simp only [onlyHoldings,alike mine,(each store.db).inside mine]
  · simp only [onlyHoldings,(each store.db).outside other]

/-! ### Moves -/

/-- A step of the rows. -/
theorem database_confined {step : Database → Except StoreError Database}
    (confined : Confined (onlyDatabase keep) (keep scope) step) :
    Confined (onlyHoldings keep) (keep scope) (fun store => step store.db >>= fun db => .ok { store with db := db }) :=
  confined.lift Holdings.db (fun store db => { store with db := db }) (fun _ => rfl) (fun _ _ => rfl) fun _ => rfl

def moveScope : Move → Scope
  | .insert _ memory _ => memory.scope
  | .source scope _ _ => scope
  | .merge scope _ _ _ => scope
  | .supersede scope _ _ _ _ => scope
  | .setValidUntil scope _ _ => scope
  | .materialize scope _ => scope
  | .expire scope _ _ _ => scope
  | .erase prepared => prepared.scope
  | .startScope scope _ => scope
  | .drain scope _ _ _ => scope
  | .deliver scope _ _ => scope

/-- A move that counts the sources of a memory, of whatever scope they are. -/
def counts : Move → Bool
  | .source _ _ _ => true
  | _ => false

theorem move_confined (move : Move) (uncounted : counts move = false) :
    Confined (onlyHoldings keep) (keep (moveScope move)) (fun store => Lifecycle.apply fingerprint store move) := by
  cases move with
  | insert maxBodyBytes memory provenance =>
    have counters : Local (onlyHoldings keep) (keep memory.scope) _ := counters_local
      (fun _ counters => adjust counters (memory.scope,memory.kind,label memory.status) 1)
      (fun _ => adjust_local (memory.scope,memory.kind,label memory.status) 1) fun _ _ => rfl
    exact counters.then' (database_confined (insert_confined maxBodyBytes memory provenance))
  | source => cases uncounted
  | merge scope id expected again => exact database_confined (merge_confined expected again)
  | supersede scope old new expected at' =>
    have counters : Local (onlyHoldings keep) (keep scope) _ := counters_local
      (fun _ counters => adjust (adjust counters (scope,expected.kind,label expected.status) (-1))
        (scope,expected.kind,.superseded) 1) (fun _ => (adjust_local (scope,expected.kind,label expected.status) (-1)).comp
          (adjust_local (scope,expected.kind,.superseded) 1)) fun _ _ => rfl
    exact counters.then' (database_confined (supersede_confined old new expected at'))
  | setValidUntil scope id until' => exact database_confined (setValidUntil_local until').confined
  | materialize scope kinds =>
    exact (counters_local (fun _ => Lifecycle.materialize scope kinds) (fun _ => materialize_local kinds) fun _ _ => rfl).confined
  | expire scope ids kinds now =>
    have counters : Local (onlyHoldings keep) (keep scope) _ := counters_local (fun db => expireCounters db scope ids kinds)
      (fun db => expireCounters_local db ids kinds) fun mine db => by
        funext counters
        simp only [expireCounters,claimed_only mine]
    exact counters.then' (database_confined (expire_local ids now).confined)
  | erase prepared =>
    have counters : Local (onlyHoldings keep) (keep prepared.scope) _ := counters_local
      (fun db => eraseCounters db prepared.scope prepared.shells)
      (fun db => eraseCounters_local db prepared.shells) fun mine db => by
        funext counters
        simp only [eraseCounters,liveRows_only mine]
    have captures := (@capturesTable keep).delete_local
      (fun row => row.scope == prepared.scope && prepared.shells.any (fun shell => shell.id == row.memoryId)) fun _ => scope_of
    exact (counters.comp captures).then' (database_confined (commitErase_confined prepared))
  | startScope scope decisionId => exact database_confined (startScope_confined decisionId)
  | drain scope operation shells now =>
    have counters : Local (onlyHoldings keep) (keep scope) _ := counters_local (fun db => eraseCounters db scope shells)
      (fun db => eraseCounters_local db shells) fun mine db => by
        funext counters
        simp only [eraseCounters,liveRows_only mine]
    have captures := (@capturesTable keep).delete_local
      (fun row => row.scope == scope && shells.any (fun shell => shell.id == row.memoryId)) fun _ => scope_of
    have step := (counters.comp captures).then' (database_confined (drain_confined operation shells now))
    have same : (fun store => Lifecycle.apply fingerprint store (.drain scope operation shells now)) = fun store : Holdings =>
        drainedBatch scope operation shells now store.db >>= fun db => .ok {
          db := db
          counters := eraseCounters store.db scope shells store.counters
          captures := sweepCaptures scope shells store.captures } := by
      funext store
      simp only [Lifecycle.apply,drainedBatch]
      cases Erasure.drain scope operation shells now store.db <;> rfl
    rw [same]
    exact step
  | deliver scope target decisionId => exact database_confined (deliver_local target decisionId).confined

end

end Aicortex.ScopesApart
