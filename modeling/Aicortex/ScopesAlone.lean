import Aicortex.ErasureFinality
import Aicortex.ScopesApart

/-!
Scopes alone. Of any run of the pipeline the transactions of some scopes, with the
activations and the upkeep of the queue, are a run of their own from an empty store: each
could have been staged from what its scopes had been, commits there, and leaves on the store
what the whole run left of these scopes. What another scope does can keep a transaction from
committing, an id being a key across scopes; it has no part in what one that committed did.
-/

namespace Aicortex.ScopesAlone
open Aicortex.Text Aicortex.CivilTime Aicortex.Memories Aicortex.Schema Aicortex.MemoryRepo Aicortex.Erasure
open Aicortex.Lifecycle Aicortex.EmbeddingTables Aicortex.ModelRegistry Aicortex.Chunking Aicortex.Pipeline
open Aicortex.Provider Aicortex.ScopesApart Aicortex.ErasureFinality
open Lib.Tables Lib.Outcome Lib.Parts Lib.StaleRuns Lib.StaleRuns.System
open Aicortex.Claims hiding Unit
set_option linter.unusedSimpArgs false

section
variable {keep : Scope → Bool} {scope : Scope} {fingerprint : Memory → String} {scopeId : Scope → String}

/-! ### A memory's life -/

/-- The source of a capture takes its ordinal among the sources of the memory; where those
    are all of one scope, the other scopes have none of it. -/
theorem source_went {now : Holdings} {id : MemoryId} (provenance : Provenance)
    (traced : ∀ row ∈ now.captures, row.memoryId = id → row.scope = scope) :
    Went (onlyHoldings keep) (keep scope)
      (fun store => (.ok { store with captures := store.captures ++ [sourceRow store.captures scope id provenance] } : Except StoreError Holdings))
      now { now with captures := now.captures ++ [sourceRow now.captures scope id provenance] } := by
  refine ⟨fun mine => ?_,fun other => ?_⟩
  · have counted : (now.captures.filter (fun row => keep row.scope)).filter (fun row => row.memoryId == id) =
        now.captures.filter (fun row => row.memoryId == id) := by
      rw [List.filter_filter]
      refine List.filter_congr fun row member => ?_
      by_cases of' : row.memoryId = id
      · simp [of',traced row member of',mine]
      · simp [of']
    have same : sourceRow (onlyHoldings keep now).captures scope id provenance = sourceRow now.captures scope id provenance := by
      simp only [onlyHoldings,sourceRow,counted]
    rw [same]
    simp [onlyHoldings,List.filter_append,sourceRow,mine]
  · simp [onlyHoldings,List.filter_append,sourceRow,other]

/-- A capture is of the scope it settles in. -/
theorem settling_went {settling : Settling} {now next : Holdings}
    (traced : ∀ row ∈ now.captures, row.memoryId = (settledBy settling).2.1 → row.scope = (settledBy settling).1)
    (executed : settling.moves.foldlM (Lifecycle.apply fingerprint) now = .ok next) :
    Went (onlyHoldings keep) (keep (settledBy settling).1) (fun store => settling.moves.foldlM (Lifecycle.apply fingerprint) store)
      now next := by
  cases settling with
  | inserted maxBodyBytes memory =>
    obtain ⟨mid,settled,rfl⟩ := sourced_applied executed
    obtain ⟨-,-,-,is⟩ := insert_applied settled
    have captures : mid.captures = now.captures := by rw [is]
    have settled : Lifecycle.apply fingerprint now (.insert maxBodyBytes memory memory.provenance) = .ok mid := settled
    have first : Went (onlyHoldings keep) (keep memory.scope) _ now mid := (move_confined _ rfl).went settled
    exact first.bind (source_went memory.provenance (by rw [captures]; exact traced))
  | merged scope id expected again =>
    obtain ⟨mid,settled,rfl⟩ := sourced_applied executed
    obtain ⟨-,is⟩ := merge_applied settled
    have captures : mid.captures = now.captures := by rw [is]
    have settled : Lifecycle.apply fingerprint now (.merge scope id expected again) = .ok mid := settled
    have first : Went (onlyHoldings keep) (keep scope) _ now mid := (move_confined _ rfl).went settled
    exact first.bind (source_went again.provenance (by rw [captures]; exact traced))

/-- The scope of a transaction. -/
def lifeScope : Lifecycle.Txn → Scope
  | .insert _ memory _ => memory.scope
  | .capture settling => (settledBy settling).1
  | .supersede supersession => supersession.scope
  | .correct settling _ => (settledBy settling).1
  | .setValidUntil scope _ _ => scope
  | .prepareExpiry scope _ => scope
  | .expire scope _ _ _ => scope
  | .erase prepared => prepared.scope
  | .startScope scope _ => scope
  | .drain scope _ _ _ => scope
  | .deliver scope _ _ => scope

def settledIn : Lifecycle.Txn → Option Settling
  | .capture settling => some settling
  | .correct settling _ => some settling
  | _ => none

/-- What a transaction of more than one part has to do with one scope: what it supersedes
    is of the scope it captures in, and so are the sources that were logged before. -/
structure Single (now : Holdings) (txn : Lifecycle.Txn) : Prop where
  aligned : ∀ settling supersession, txn = .correct settling supersession → supersession.scope = (settledBy settling).1
  traced : ∀ settling, settledIn txn = some settling →
    ∀ row ∈ now.captures, row.memoryId = (settledBy settling).2.1 → row.scope = (settledBy settling).1

theorem move_went {now next : Holdings} (move : Move) (uncounted : counts move = false)
    (executed : [move].foldlM (Lifecycle.apply fingerprint) now = .ok next) :
    Went (onlyHoldings keep) (keep (moveScope move)) (fun store => [move].foldlM (Lifecycle.apply fingerprint) store) now next := by
  refine (Confined.foldlM fun other member => ?_).went executed
  rw [List.mem_singleton.mp member]
  exact move_confined move uncounted

theorem holdings_went {txn : Lifecycle.Txn} {now next : Holdings} (single : Single now txn)
    (committed : (Lifecycle.system fingerprint).commit now txn = .ok next) :
    Went (onlyHoldings keep) (keep (lifeScope txn)) (fun store => (Lifecycle.system fingerprint).commit store txn) now next := by
  cases txn with
  | insert maxBodyBytes memory provenance => exact move_went (.insert maxBodyBytes memory provenance) rfl committed
  | capture settling => exact settling_went (single.traced settling rfl) committed
  | supersede supersession => exact move_went supersession.move rfl committed
  | correct settling supersession =>
    have parts : (settling.moves ++ [supersession.move]).foldlM (Lifecycle.apply fingerprint) now = .ok next := committed
    rw [List.foldlM_append] at parts
    obtain ⟨mid,captured,superseded⟩ := bind_ok_iff.mp parts
    have first : Went (onlyHoldings keep) (keep (settledBy settling).1)
        (fun store => settling.moves.foldlM (Lifecycle.apply fingerprint) store) now mid :=
      settling_went (single.traced settling rfl) captured
    have second : Went (onlyHoldings keep) (keep (moveScope supersession.move)) _ mid next :=
      move_went supersession.move rfl superseded
    have here : moveScope supersession.move = (settledBy settling).1 := single.aligned settling supersession rfl
    rw [here] at second
    have joined := first.bind second
    have same : (fun store => (Lifecycle.system fingerprint).commit store (.correct settling supersession)) =
        fun store => settling.moves.foldlM (Lifecycle.apply fingerprint) store >>=
          fun mid => [supersession.move].foldlM (Lifecycle.apply fingerprint) mid := by
      funext store
      exact List.foldlM_append
    rw [same]
    exact joined
  | setValidUntil scope id until' => exact move_went (.setValidUntil scope id until') rfl committed
  | prepareExpiry scope kinds => exact move_went (.materialize scope kinds) rfl committed
  | expire scope ids kinds at' => exact move_went (.expire scope ids kinds at') rfl committed
  | erase prepared => exact move_went (.erase prepared) rfl committed
  | startScope scope decisionId => exact move_went (.startScope scope decisionId) rfl committed
  | drain scope operation shells at' => exact move_went (.drain scope operation shells at') rfl committed
  | deliver scope target decisionId => exact move_went (.deliver scope target decisionId) rfl committed

theorem insertedBy_scope {txn : Lifecycle.Txn} {memory : Memory} (inserted : insertedBy txn = some memory) :
    memory.scope = lifeScope txn := by
  cases txn with
  | insert => cases inserted; rfl
  | capture settling => cases settling <;> cases inserted; rfl
  | correct settling => cases settling <;> cases inserted; rfl
  | supersede => cases inserted
  | setValidUntil => cases inserted
  | prepareExpiry => cases inserted
  | expire => cases inserted
  | erase => cases inserted
  | startScope => cases inserted
  | drain => cases inserted
  | deliver => cases inserted

theorem stagedBy_scope {txn : Lifecycle.Txn} {owner : Scope} {id : MemoryId} {at' : UnixSeconds}
    (staged : stagedBy txn = some (owner,id,at')) : owner = lifeScope txn := by
  cases txn with
  | insert => cases staged; rfl
  | capture settling => rw [lifeScope,Option.some.inj staged]
  | correct settling => rw [lifeScope,Option.some.inj staged]
  | supersede => cases staged
  | setValidUntil => cases staged
  | prepareExpiry => cases staged
  | expire => cases staged
  | erase => cases staged
  | startScope => cases staged
  | drain => cases staged
  | deliver => cases staged

theorem sweptBy_scope {txn : Lifecycle.Txn} {owner : Scope} {shells : List Shell} (swept : sweptBy txn = some (owner,shells)) :
    owner = lifeScope txn := by
  cases txn <;> cases swept <;> rfl

/-! ### Statements beside the memories -/

theorem stageWork_local (key : WorkKey) (now : UnixSeconds) :
    Local (onlyStock keep) (keep key.scope) (fun stock => { stock with work := stageWork key now stock.work }) := by
  refine ⟨fun mine stock => ?_,fun other stock => ?_⟩
  · have there : (onlyStock keep stock).work.any (fun row => row.key == key) = stock.work.any (fun row => row.key == key) :=
      workTable.any_only (fun row chosen => by rw [beq_iff_eq.mp chosen]) mine stock
    have staged : (stageWork key now stock.work).filter (fun row => keep row.key.scope) =
        stageWork key now (onlyStock keep stock).work := by
      unfold stageWork
      rw [there]
      split_ifs
      · rfl
      · simp [onlyStock,List.filter_append,mine]
    exact (workTable.only_write stock _).trans (by rw [staged])
  · refine workTable.only_write_same ?_
    unfold stageWork
    split_ifs
    · rfl
    · simp [List.filter_append,other]

theorem stageActiveEmbedding_confined (id : MemoryId) (model : ActiveEmbedding) (now : UnixSeconds) :
    Confined (onlyStock keep) (keep scope) (stageActiveEmbedding scope id model now) :=
  .allowed (fun stock : Stock => stock.models.any (fun row =>
    row.revision == model.revision && row.identity.modelId == model.modelId && row.active)) (fun _ _ live => live)
    (stageWork_local ⟨scope,id,model.revision,model.modelId⟩ now).confined

theorem stageTarget_confined (target : Option ActiveEmbedding) (id : MemoryId) (now : UnixSeconds) :
    Confined (onlyStock keep) (keep scope) (stageTarget target scope id now) := by
  cases target with
  | some model => exact stageActiveEmbedding_confined id model now
  | none =>
    exact .guarded (fun stock : Stock => stock.models.any ModelRow.active) (fun _ _ free => free) Local.still.confined

theorem sweep_local (shells : List Shell) : Local (onlyStock keep) (keep scope) (sweep scope shells) := by
  have embeddings := (@embeddingsTable keep).delete_local (fun row => ofShells scope shells row.scope row.memoryId)
    fun _ => scope_of
  have chunks := (@chunksTable keep).delete_local (fun row => ofShells scope shells row.scope row.memoryId) fun _ => scope_of
  have provenance := (@provenanceTable keep).delete_local (fun row => ofShells scope shells row.scope row.memoryId)
    fun _ => scope_of
  have attempts := (@attemptsTable keep).delete_local (fun row => ofShells scope shells row.key.scope row.key.memoryId)
    fun _ => scope_of
  have work := (@workTable keep).delete_local (fun row => ofShells scope shells row.key.scope row.key.memoryId)
    fun _ => scope_of
  exact (((embeddings.comp chunks).comp provenance).comp attempts).comp work

theorem insertProvenance_confined (inserted : Option Memory) (named : ∀ memory, inserted = some memory → memory.scope = scope) :
    Confined (onlyStock keep) (keep scope) (fun stock =>
      insertProvenance inserted stock.provenance >>= fun rows => .ok { stock with provenance := rows }) := by
  cases inserted with
  | none => exact Local.still.confined
  | some memory =>
    rw [← named memory rfl]
    exact provenanceTable.insert_confined ProvenanceRow.memoryId (StoreError.constraint "provenance") (provenanceRow memory)

/-- What a transaction stages beside the memories it writes. -/
theorem aftermath_confined (txn : Lifecycle.Txn) (target : Option ActiveEmbedding) :
    Confined (onlyStock keep) (keep (lifeScope txn)) (fun stock =>
      (insertProvenance (insertedBy txn) stock.provenance >>= fun rows => .ok { stock with provenance := rows }) >>=
        fun stock => (stagedBy txn).elim (.ok ((sweptBy txn).elim stock (fun swept => sweep swept.1 swept.2 stock)))
          (fun staged => stageTarget target staged.1 staged.2.1 staged.2.2
            ((sweptBy txn).elim stock (fun swept => sweep swept.1 swept.2 stock)))) := by
  have swept : Local (onlyStock keep) (keep (lifeScope txn))
      (fun stock => (sweptBy txn).elim stock (fun swept => sweep swept.1 swept.2 stock)) := by
    cases is : sweptBy txn with
    | none => exact .still
    | some swept =>
      rw [← sweptBy_scope is]
      exact sweep_local swept.2
  refine (insertProvenance_confined (insertedBy txn) fun memory is => insertedBy_scope is).bind ?_
  cases is : stagedBy txn with
  | none => exact swept.confined
  | some staged =>
    have here := stagedBy_scope is
    exact swept.then' (by rw [← here]; exact stageTarget_confined target staged.2.1 staged.2.2)

theorem commitLife_eq (txn : Lifecycle.Txn) (target : Option ActiveEmbedding) (stock : Stock) :
    commitLife fingerprint txn target stock =
      ((Lifecycle.system fingerprint).commit stock.holdings txn >>= fun holdings => .ok { stock with holdings := holdings }) >>=
        fun stock => (insertProvenance (insertedBy txn) stock.provenance >>= fun rows => .ok { stock with provenance := rows }) >>=
          fun stock => (stagedBy txn).elim (.ok ((sweptBy txn).elim stock (fun swept => sweep swept.1 swept.2 stock)))
            (fun staged => stageTarget target staged.1 staged.2.1 staged.2.2
              ((sweptBy txn).elim stock (fun swept => sweep swept.1 swept.2 stock))) := by
  unfold commitLife
  cases (Lifecycle.system fingerprint).commit stock.holdings txn with
  | error refusal => rfl
  | ok holdings =>
    simp only [ok_bind]
    cases insertProvenance (insertedBy txn) stock.provenance with
    | error refusal => rfl
    | ok rows => cases stagedBy txn <;> rfl

theorem life_went {txn : Lifecycle.Txn} {target : Option ActiveEmbedding} {now next : Stock} (single : Single now.holdings txn)
    (executed : commitLife fingerprint txn target now = .ok next) :
    Went (onlyStock keep) (keep (lifeScope txn)) (commitLife fingerprint txn target) now next := by
  rw [commitLife_eq] at executed
  obtain ⟨mid,first,rest⟩ := bind_ok_iff.mp executed
  obtain ⟨holdings,committed,same⟩ := bind_ok_iff.mp first
  cases same
  have went : Went (onlyHoldings keep) (keep (lifeScope txn)) (fun store => (Lifecycle.system fingerprint).commit store txn)
      now.holdings holdings := holdings_went single committed
  have later : Went (onlyStock keep) (keep (lifeScope txn)) _ { now with holdings := holdings } next :=
    (aftermath_confined txn target).went rest
  refine ⟨fun mine => ?_,fun other => ?_⟩
  · rw [commitLife_eq]
    refine bind_ok_iff.mpr ⟨_,bind_ok_iff.mpr ⟨_,went.inside mine,rfl⟩,later.inside mine⟩
  · rw [later.outside other]
    show ({ onlyStock keep now with holdings := onlyHoldings keep holdings } : Stock) = onlyStock keep now
    rw [went.outside other]
    rfl

/-! ### Workers and operators -/

theorem memories_any_only (mine : keep scope = true) {selected : MemoryRow → Bool}
    (named : ∀ row, selected row = true → row.scope = scope) (stock : Stock) :
    (onlyStock keep stock).memories.any selected = stock.memories.any selected :=
  memoriesTable.any_only named mine stock.holdings.db

theorem redigests_confined (rows : List (MemoryId × Memory)) :
    Confined (onlyStock keep) (keep scope) (commitRedigest fingerprint scope rows) :=
  (redigest_confined rows).lift (fun stock : Stock => stock.holdings.db)
    (fun stock db => { stock with holdings := { stock.holdings with db := db } }) (fun _ => rfl) (fun _ _ => rfl) fun _ => rfl

theorem complete_confined (claim : Pipeline.Claim) : Confined (onlyStock keep) (keep claim.key.scope) (complete claim) := by
  have named : ∀ row : WorkRow, claim.holds row = true → row.key.scope = claim.key.scope :=
    fun row holds => by rw [claim.holds_key holds]
  exact .allowed (fun stock : Stock => stock.work.any claim.holds)
    (fun mine stock held => by rw [← held]; exact workTable.any_only named mine stock)
    (workTable.update_local (fun _ => claim.holds) (fun row => { row with state := .done }) (fun _ => named) (fun _ => rfl)
      fun _ _ _ => rfl).confined

theorem stageLiveMemoryGuard_confined (id : MemoryId) :
    Confined (onlyStock keep) (keep scope) (fun stock => stageLiveMemoryGuard scope id stock >>= fun _ => .ok stock) := by
  have guard : Confined (onlyStock keep) (keep scope) (fun stock : Stock =>
      if stock.memories.any (fun row => ofScope scope id row && embeddable row) then .ok stock
      else .error (StoreError.constraint "chunk.chunk_id")) :=
    .allowed _ (fun mine stock live => by rw [← live]; exact memories_any_only mine ofScope_and_scope stock) Local.still.confined
  have same : (fun stock => stageLiveMemoryGuard scope id stock >>= fun _ => .ok stock) = fun stock : Stock =>
      if stock.memories.any (fun row => ofScope scope id row && embeddable row) then .ok stock
      else .error (StoreError.constraint "chunk.chunk_id") := by
    funext stock
    unfold stageLiveMemoryGuard
    split_ifs <;> rfl
  rw [same]
  exact guard

theorem stageLiveEmbedding_confined (model : ActiveEmbedding) (now : UnixSeconds) (id : MemoryId) :
    Confined (onlyStock keep) (keep scope) (fun stock => stageLiveEmbedding scope model now stock id) := by
  have guard : Confined (onlyStock keep) (keep scope) _ := stageLiveMemoryGuard_confined id
  have staged := guard.bind (stageActiveEmbedding_confined id model now)
  have same : (fun stock => stageLiveEmbedding scope model now stock id) = fun stock =>
      (stageLiveMemoryGuard scope id stock >>= fun _ => .ok stock) >>= stageActiveEmbedding scope id model now := by
    funext stock
    unfold stageLiveEmbedding
    cases stageLiveMemoryGuard scope id stock <;> rfl
  rw [same]
  exact staged

theorem insertChunk_confined (row : ChunkRow) : Confined (onlyStock keep) (keep row.scope) (fun stock => insertChunk stock row) := by
  have second := (@chunksTable keep).insert_confined ChunkRow.key (StoreError.constraint "chunk") row
  refine ⟨fun mine stock next executed => ?_,fun other stock next executed => ?_⟩
  · obtain ⟨rows,free,rest⟩ := bind_ok_iff.mp executed
    exact bind_ok_iff.mpr ⟨_,insertRow_filter free mine,second.inside mine stock next rest⟩
  · obtain ⟨rows,-,rest⟩ := bind_ok_iff.mp executed
    exact second.outside other stock next rest

theorem insertEmbedding_confined (row : EmbeddingRow) :
    Confined (onlyStock keep) (keep row.scope) (fun stock => insertEmbedding stock row) := by
  unfold insertEmbedding
  split_ifs
  · exact .refused _
  · exact embeddingsTable.insert_confined EmbeddingRow.key (StoreError.constraint "embedding") row

theorem ofGroup_scope {memory : MemoryId} {revision : Nat} {key : ChunkKey} (of' : ofGroup scope memory revision key = true) :
    key.1 = scope := scope_of_more of'

theorem commitEmbed_confined (derivative : Derivative) :
    Confined (onlyStock keep) (keep derivative.claim.key.scope) (commitEmbed scopeId derivative) := by
  have live : Confined (onlyStock keep) (keep derivative.claim.key.scope) _ := stageLiveMemoryGuard_confined derivative.memory
  have active : Confined (onlyStock keep) (keep derivative.claim.key.scope) (fun stock : Stock =>
      if stock.models.any (fun row => row.revision == derivative.model.revision && row.identity == derivative.model.identity &&
        row.active) then .ok stock else .error (StoreError.constraint "embedding_model.model_id")) :=
    .allowed _ (fun _ _ is => is) Local.still.confined
  have embeddings := (@embeddingsTable keep).delete_local
    (fun row => ofGroup derivative.claim.key.scope derivative.memory derivative.model.revision row.key) fun _ => ofGroup_scope
  have chunks := (@chunksTable keep).delete_local
    (fun row => ofGroup derivative.claim.key.scope derivative.memory derivative.model.revision row.key) fun _ => ofGroup_scope
  have stored : Confined (onlyStock keep) (keep derivative.claim.key.scope) (fun stock =>
      (derivative.chunks.zip derivative.vectors).foldlM (storeChunk scopeId derivative) stock) :=
    .foldlM fun pair _ => (insertChunk_confined (derivative.chunkRow scopeId pair.1)).bind
      (insertEmbedding_confined (derivative.embeddingRow pair.1 pair.2))
  have whole := ((live.bind active).bind ((embeddings.comp chunks).then' stored)).bind (complete_confined derivative.claim)
  have same : commitEmbed scopeId derivative = fun stock =>
      (((stageLiveMemoryGuard derivative.claim.key.scope derivative.memory stock >>= fun _ => .ok stock) >>= fun stock : Stock =>
        if stock.models.any (fun row => row.revision == derivative.model.revision &&
          row.identity == derivative.model.identity && row.active) then .ok stock
        else .error (StoreError.constraint "embedding_model.model_id")) >>= fun stock =>
          (derivative.chunks.zip derivative.vectors).foldlM (storeChunk scopeId derivative) { stock with
            embeddings := deleteWhere (fun row => ofGroup derivative.claim.key.scope derivative.memory
              derivative.model.revision row.key) stock.embeddings
            chunks := deleteWhere (fun row => ofGroup derivative.claim.key.scope derivative.memory
              derivative.model.revision row.key) stock.chunks }) >>= complete derivative.claim := by
    funext stock
    unfold commitEmbed stageDerivativeCommitGuards
    cases stageLiveMemoryGuard derivative.claim.key.scope derivative.memory stock with
    | error refusal => rfl
    | ok passed =>
      simp only [ok_bind]
      split_ifs <;> rfl
  rw [same]
  exact whole

theorem embedded_only (mine : keep scope = true) (stock : Stock) (id : MemoryId) (revision : Nat) :
    embedded (onlyStock keep stock) scope id revision = embedded stock scope id revision :=
  embeddingsTable.any_only (fun _ => scope_of_more) mine stock

theorem coverageGuard_only (mine : keep scope = true) (stock : Stock) :
    stageCompleteEmbeddingCoverageGuard scope (onlyStock keep stock) = stageCompleteEmbeddingCoverageGuard scope stock := by
  unfold stageCompleteEmbeddingCoverageGuard
  simp only [embedded_only mine]
  rw [memories_any_only mine (fun _ => scope_of_more)]
  rfl

theorem drop_confined (revision : Nat) :
    Confined (onlyStock keep) (keep scope) (fun stock => commitDrop scope revision stock >>= fun dropped => .ok dropped.1) := by
  have dropped : ∀ retirees : Nat, Local (onlyStock keep) (keep scope) (fun stock => { stock with
      embeddings := deleteWhere (fun row => row.scope == scope && row.revision == revision && retirees != 0) stock.embeddings
      chunks := deleteWhere (fun row => row.scope == scope && row.revision == revision && retirees != 0) stock.chunks }) := by
    intro retirees
    have embeddings := (@embeddingsTable keep).delete_local
      (fun row => row.scope == scope && row.revision == revision && retirees != 0) fun _ => scope_of_more
    have chunks := (@chunksTable keep).delete_local
      (fun row => row.scope == scope && row.revision == revision && retirees != 0) fun _ => scope_of_more
    exact embeddings.comp chunks
  refine ⟨fun mine stock next executed => ?_,fun other stock next executed => ?_⟩
  · obtain ⟨⟨_,affected⟩,committed,rest⟩ := bind_ok_iff.mp executed
    cases rest
    obtain ⟨_,covered,rest⟩ := bind_ok_iff.mp committed
    cases rest
    refine bind_ok_iff.mpr ⟨(_,_),bind_ok_iff.mpr ⟨(),?_,rfl⟩,?_⟩
    · rw [coverageGuard_only mine]
      exact covered
    · exact congrArg Except.ok ((dropped (retired stock revision)).inside mine stock).symm
  · obtain ⟨⟨_,affected⟩,committed,rest⟩ := bind_ok_iff.mp executed
    cases rest
    obtain ⟨_,-,rest⟩ := bind_ok_iff.mp committed
    cases rest
    exact (dropped (retired stock revision)).outside other stock

/-! ### Transactions -/

/-- The scope of a transaction; activations and the upkeep of the queue are of none. -/
def txnScope : Pipeline.Txn → Option Scope
  | .life txn _ => some (lifeScope txn)
  | .redigest scope _ => some scope
  | .activate _ => none
  | .embed derivative => some derivative.claim.key.scope
  | .completeEmpty claim => some claim.key.scope
  | .reembed scope _ _ _ => some scope
  | .dropRevision scope _ => some scope
  | .upkeep _ _ => none

/-- Whether a transaction is of the scopes, or of none. -/
def concerns (keep : Scope → Bool) (txn : Pipeline.Txn) : Bool := (txnScope txn).all keep

/-- What the scopes see of a transaction: of the dead letters, their own. -/
def seenBy (keep : Scope → Bool) (now : Stock) : Pipeline.Txn → Pipeline.Txn
  | .upkeep row attempts => .upkeep row (fun _ => (attempts now.attempts).filter (fun row => keep row.key.scope))
  | txn => txn

/-- What a transaction rests on, as it commits. -/
structure Rests (now : Stock) (txn : Pipeline.Txn) : Prop where
  single : ∀ life target, txn = .life life target → Single now.holdings life
  sameKey : ∀ row attempts, txn = .upkeep row attempts → ∀ work, (row work).key = work.key

theorem upkeep_only {row : WorkRow → WorkRow} (sameKey : ∀ work, (row work).key = work.key) (work : List WorkRow) :
    (work.map row).filter (fun row => keep row.key.scope) = (work.filter (fun row => keep row.key.scope)).map row := by
  rw [List.filter_map]
  refine congrArg (List.map row) (List.filter_congr fun found _ => ?_)
  simp only [Function.comp,sameKey]

theorem commit_only {txn : Pipeline.Txn} {now next : Stock} (rests : Rests now txn)
    (committed : Pipeline.commit fingerprint scopeId now txn = .ok next) :
    (concerns keep txn = true → Pipeline.commit fingerprint scopeId (onlyStock keep now) (seenBy keep now txn) =
        .ok (onlyStock keep next)) ∧
      (concerns keep txn = false → onlyStock keep next = onlyStock keep now) := by
  cases txn with
  | life txn target =>
    have went : Went (onlyStock keep) (keep (lifeScope txn)) _ now next := life_went (rests.single txn target rfl) committed
    exact ⟨went.inside,went.outside⟩
  | redigest scope rows =>
    have went : Went (onlyStock keep) (keep scope) _ now next := (redigests_confined rows).went committed
    exact ⟨went.inside,went.outside⟩
  | activate model =>
    refine ⟨fun _ => ?_,fun other => by simp [concerns,txnScope] at other⟩
    obtain ⟨models,activated,rest⟩ := bind_ok_iff.mp committed
    cases rest
    exact bind_ok_iff.mpr ⟨models,activated,rfl⟩
  | embed derivative =>
    have went : Went (onlyStock keep) (keep derivative.claim.key.scope) _ now next :=
      (commitEmbed_confined derivative).went committed
    exact ⟨went.inside,went.outside⟩
  | completeEmpty claim =>
    have went : Went (onlyStock keep) (keep claim.key.scope) _ now next := (complete_confined claim).went committed
    exact ⟨went.inside,went.outside⟩
  | reembed scope model ids at' =>
    have went : Went (onlyStock keep) (keep scope) _ now next :=
      (Confined.foldlM fun id _ => stageLiveEmbedding_confined model at' id).went committed
    exact ⟨went.inside,went.outside⟩
  | dropRevision scope revision =>
    have went : Went (onlyStock keep) (keep scope) _ now next := (drop_confined revision).went committed
    exact ⟨went.inside,went.outside⟩
  | upkeep row attempts =>
    refine ⟨fun _ => ?_,fun other => by simp [concerns,txnScope] at other⟩
    cases committed
    simp only [Pipeline.commit,seenBy,onlyStock,upkeep_only (rests.sameKey row attempts rfl)]

/-! ### Where the sources of a memory come from -/

section
variable {config : ChunkConfig} {redigests : Bool} {history thin : List Stock} {now next : Stock}

/-- The sources that are logged of a memory are of its scope. -/
theorem captures_of (basis : Basis now) (moored : Moored now) {row : MemoryRow} (inside : row ∈ now.memories) :
    ∀ source ∈ now.holdings.captures, source.memoryId = row.id → source.scope = row.scope := by
  intro source member named
  obtain ⟨other,there,here,-⟩ := moored.captures source member
  simp only [ofScope,Bool.and_eq_true,beq_iff_eq] at here
  have one : other = row := List.inj_on_of_nodup_map basis.unique there inside (here.2.trans named)
  rw [← one,here.1]

theorem settling_traced {Inv : Stock → Prop} (trail : Trail Inv Pipeline.Since history now) (basis : Basis now)
    (moored : Moored now) {settling : Settling}
    (fits : ∀ move ∈ settling.moves, Lifecycle.Fit fingerprint (history.map Stock.holdings) move) {after : Holdings}
    (executed : settling.moves.foldlM (Lifecycle.apply fingerprint) now.holdings = .ok after) :
    ∀ row ∈ now.holdings.captures, row.memoryId = (settledBy settling).2.1 → row.scope = (settledBy settling).1 := by
  cases settling with
  | inserted maxBodyBytes memory =>
    -- a memory that was just inserted has no source yet
    obtain ⟨mid,settled,-⟩ := sourced_applied executed
    obtain ⟨free,-⟩ := insert_applied settled
    intro row member named
    obtain ⟨other,there,here,-⟩ := moored.captures row member
    simp only [ofScope,Bool.and_eq_true,beq_iff_eq] at here
    exact (free other there (here.2.trans named)).elim
  | merged scope id expected again =>
    obtain ⟨-,⟨row,seen,here,-⟩,-⟩ := fits _ List.mem_cons_self
    obtain ⟨later,inside,sameId,kept⟩ := seen_standing trail seen
    simp only [ofScope,Bool.and_eq_true,beq_iff_eq] at here
    intro source member named
    have whose := captures_of basis moored inside source member (named.trans (here.2.symm.trans sameId.symm))
    rw [whose,kept.scope,here.1]
    rfl

theorem capture_scope {leader replica : Database} {maxBodyBytes : Nat} {memory : Memory} {settling : Settling}
    (staged : Lifecycle.capture fingerprint leader replica maxBodyBytes memory = .ok settling) :
    (settledBy settling).1 = memory.scope := by
  unfold Lifecycle.capture at staged
  split at staged
  · cases staged
    rfl
  · split at staged
    · cases staged
    · split_ifs at staged
      cases staged
      rfl

theorem supersede_scope {reads : Nat → Database} {replica : Database} {old new : MemoryId} {at' : UnixSeconds}
    {supersession : Supersession} (staged : Lifecycle.supersede reads replica scope old new at' = .ok supersession) :
    supersession.scope = scope := by
  unfold Lifecycle.supersede at staged
  split_ifs at staged
  obtain ⟨_,-,rest⟩ := bind_ok_iff.mp staged
  split at rest
  · cases rest
  · split_ifs at rest
    cases rest
    rfl

/-- A correction captures and supersedes in one scope. -/
theorem correct_scope {leader replica later : Database} {reads : Nat → Database} {maxBodyBytes : Nat} {memory : Memory}
    {old : MemoryId} {settling : Settling} {supersession : Supersession}
    (staged : Lifecycle.correct fingerprint leader replica reads later maxBodyBytes memory old = .ok (settling,supersession)) :
    (settledBy settling).1 = memory.scope ∧ supersession.scope = memory.scope := by
  unfold Lifecycle.correct at staged
  split_ifs at staged
  obtain ⟨captured,first,rest⟩ := bind_ok_iff.mp staged
  obtain ⟨superseded,second,same⟩ := bind_ok_iff.mp rest
  cases same
  exact ⟨capture_scope first,supersede_scope second⟩

theorem single_of_staged {Inv : Stock → Prop} (trail : Trail Inv Pipeline.Since history now) (basis : Basis now)
    (moored : Moored now) {txn : Lifecycle.Txn} {after : Holdings}
    (staged : Lifecycle.Stages fingerprint (history.map Stock.holdings) txn)
    (committed : (Lifecycle.system fingerprint).commit now.holdings txn = .ok after) : Single now.holdings txn := by
  have fits := Lifecycle.fits _ _ staged
  refine ⟨?_,?_⟩
  · rintro settling supersession rfl
    cases staged with
    | correct maxBodyBytes admitted atLeader atReplica walked atLater staged =>
      obtain ⟨captured,superseded⟩ := correct_scope staged
      exact superseded.trans captured.symm
  · intro settling settled
    cases txn with
    | capture found =>
      cases settled
      exact settling_traced trail basis moored fits committed
    | correct found supersession =>
      cases settled
      obtain ⟨mid,captured,-⟩ := correct_applied committed
      exact settling_traced trail basis moored (fun move member => fits move (List.mem_append_left _ member)) captured
    | insert => cases settled
    | supersede => cases settled
    | setValidUntil => cases settled
    | prepareExpiry => cases settled
    | expire => cases settled
    | erase => cases settled
    | startScope => cases settled
    | drain => cases settled
    | deliver => cases settled

theorem rests_of_staged {Inv : Stock → Prop} (trail : Trail Inv Pipeline.Since history now) (basis : Basis now)
    (moored : Moored now) {txn : Pipeline.Txn} (staged : Pipeline.Stages fingerprint config redigests history txn)
    (committed : Pipeline.commit fingerprint scopeId now txn = .ok next) : Rests now txn := by
  refine ⟨?_,?_⟩
  · rintro life target rfl
    cases staged with
    | life target staged =>
      obtain ⟨holdings,executed,-⟩ := life_cases committed
      exact single_of_staged trail basis moored staged executed
  · rintro row attempts rfl
    cases staged with
    | upkeep attempts sameKey completesNothing => exact sameKey

/-! ### What the calls of a scope read of it -/

section
variable (mine : keep scope = true)
include mine

theorem fingerprintHolder_only (db : Database) (digest : String) :
    fingerprintHolder (onlyDatabase keep db) scope digest = fingerprintHolder db scope digest := by
  unfold fingerprintHolder
  rw [memoriesTable.find?_only (fun _ => scope_of_more) mine]

theorem get_only (db : Database) (id : MemoryId) : Lifecycle.get (onlyDatabase keep db) scope id = Lifecycle.get db scope id := by
  unfold Lifecycle.get
  rw [memoriesTable.find?_only ofScope_scope mine]

theorem due_only (db : Database) (at' : UnixSeconds) (batch : Nat) :
    due (onlyDatabase keep db) scope at' batch = due db scope at' batch := by
  unfold due
  rw [memoriesTable.filter_only (fun _ => scope_of_more) mine]

theorem kindsOf_only (db : Database) (ids : List MemoryId) :
    kindsOf (onlyDatabase keep db) scope ids = kindsOf db scope ids := by
  unfold kindsOf
  rw [memoriesTable.filter_only (fun _ => scope_of) mine]

theorem receipt_only (db : Database) (target : Option MemoryId) :
    receipt (onlyDatabase keep db) scope target = receipt db scope target :=
  receiptsTable.find?_only receiptAt_scope mine db

theorem shell_only (db : Database) (id : MemoryId) : shell (onlyDatabase keep db) scope id = shell db scope id := by
  unfold shell
  rw [memoriesTable.find?_only ofScope_and_scope mine]

theorem derivedOf_only (db : Database) (id : MemoryId) :
    derivedOf (onlyDatabase keep db) scope id = derivedOf db scope id := by
  unfold derivedOf
  rw [derivationsTable.filter_only (fun _ => scope_of) mine]

theorem batchShells_only (db : Database) (batch : Nat) :
    batchShells (onlyDatabase keep db) scope batch = batchShells db scope batch := by
  unfold batchShells
  rw [memoriesTable.filter_only (fun _ => scope_of) mine]

theorem walkChain_only (reads : Nat → Database) (old new : MemoryId) (fuel read : Nat) (walker : MemoryId) :
    walkChain (fun read => onlyDatabase keep (reads read)) scope old new fuel read walker =
      walkChain reads scope old new fuel read walker := by
  induction fuel generalizing read walker with
  | zero => rfl
  | succ fuel ih =>
    unfold walkChain
    rw [successor_only mine]
    simp only [ih]

theorem supersede_only (reads : Nat → Database) (replica : Database) (old new : MemoryId) (at' : UnixSeconds) :
    Lifecycle.supersede (fun read => onlyDatabase keep (reads read)) (onlyDatabase keep replica) scope old new at' =
      Lifecycle.supersede reads replica scope old new at' := by
  unfold Lifecycle.supersede
  rw [walkChain_only mine,get_only mine]

theorem prepareErase_only (reads : Nat → Database) (id : MemoryId) (cascade : Bool) (at' : UnixSeconds) :
    Lifecycle.prepareErase (fun read => onlyDatabase keep (reads read)) scope id cascade at' =
      Lifecycle.prepareErase reads scope id cascade at' := by
  unfold Lifecycle.prepareErase
  simp only [receipt_only mine,shell_only mine,derivedOf_only mine]

theorem embeddingMemory_only (stock : Stock) (id : MemoryId) :
    embeddingMemory (onlyStock keep stock) scope id = embeddingMemory stock scope id :=
  memoriesTable.find?_only ofScope_scope mine stock.holdings.db

theorem liveMemoryTotal_only (holdings : Holdings) :
    liveMemoryTotal (onlyHoldings keep holdings) scope = liveMemoryTotal holdings scope := by
  have same : ∀ kind status, (onlyHoldings keep holdings).counters.read (scope,kind,status) =
      holdings.counters.read (scope,kind,status) := by
    intro kind status
    simp [onlyHoldings,onlyCounters,Counters.read,mine]
  unfold liveMemoryTotal
  simp only [same]

theorem embeddingCoverage_only (stock : Stock) (revision : Nat) :
    embeddingCoverage (onlyStock keep stock) scope revision = embeddingCoverage stock scope revision := by
  unfold embeddingCoverage
  simp only [embedded_only mine]
  exact memoriesTable.countP_only (fun _ => scope_of_more) mine stock.holdings.db

theorem memoriesMissingEmbedding_only (stock : Stock) (revision : Nat) (after : Option MemoryId) (limit : Nat) :
    memoriesMissingEmbedding (onlyStock keep stock) scope revision after limit =
      memoriesMissingEmbedding stock scope revision after limit := by
  unfold memoriesMissingEmbedding
  simp only [embedded_only mine]
  have named : ∀ row : MemoryRow, (row.scope == scope && embeddable row && after.all (fun last => decide (last < row.id)) &&
      !embedded stock scope row.id revision) = true → row.scope = scope :=
    fun row chosen => scope_of_more (Bool.and_eq_true_iff.mp chosen).1
  have same := (@memoriesTable keep).filter_only named mine stock.holdings.db
  exact congrArg (fun rows => ((rows.map MemoryRow.id).insertionSort (· ≤ ·)).take limit) same

theorem prepareDrop_only (atActive atTotal atEmbedded atModels : Stock) (revision : Nat) :
    prepareDrop (onlyStock keep atActive) (onlyStock keep atTotal) (onlyStock keep atEmbedded) (onlyStock keep atModels) scope
      revision = prepareDrop atActive atTotal atEmbedded atModels scope revision := by
  have total : liveMemoryTotal (onlyStock keep atTotal).holdings scope = liveMemoryTotal atTotal.holdings scope :=
    liveMemoryTotal_only mine atTotal.holdings
  unfold prepareDrop coverage
  rw [total]
  simp only [embeddingCoverage_only mine]
  rfl

end

theorem capture_only {memory : Memory} (mine : keep memory.scope = true) (leader replica : Database) (maxBodyBytes : Nat) :
    Lifecycle.capture fingerprint (onlyDatabase keep leader) (onlyDatabase keep replica) maxBodyBytes memory =
      Lifecycle.capture fingerprint leader replica maxBodyBytes memory := by
  unfold Lifecycle.capture
  rw [fingerprintHolder_only mine]
  simp only [get_only mine]

theorem correct_only {memory : Memory} (mine : keep memory.scope = true) (leader replica : Database) (reads : Nat → Database)
    (later : Database) (maxBodyBytes : Nat) (old : MemoryId) :
    Lifecycle.correct fingerprint (onlyDatabase keep leader) (onlyDatabase keep replica)
      (fun read => onlyDatabase keep (reads read)) (onlyDatabase keep later) maxBodyBytes memory old =
      Lifecycle.correct fingerprint leader replica reads later maxBodyBytes memory old := by
  unfold Lifecycle.correct
  simp only [capture_only mine,supersede_only mine]

theorem process_only {config : ChunkConfig} {model : ModelRow} {provider : List Chunk → Except StoreError (List Vector)}
    {claim : Pipeline.Claim} (mine : keep claim.key.scope = true) (atActive atMemory : Stock) (at' : UnixSeconds) :
    process config model provider claim (onlyStock keep atActive) (onlyStock keep atMemory) at' =
      process config model provider claim atActive atMemory at' := by
  unfold process
  rw [embeddingMemory_only mine]
  rfl

theorem reconcile_only {model : ModelRow} {claim : Pipeline.Claim} (mine : keep claim.key.scope = true) (refusal : StoreError)
    (atMemory atActive : Stock) :
    reconcileCommitFailure model claim refusal (onlyStock keep atMemory) (onlyStock keep atActive) =
      reconcileCommitFailure model claim refusal atMemory atActive := by
  unfold reconcileCommitFailure
  rw [embeddingMemory_only mine]
  rfl

end

/-! ### What a call of a scope stages -/

section
variable {config : ChunkConfig} {redigests : Bool} {history thin : List Stock}

theorem read_only' (thinned : Thinned (onlyStock keep) history thin) {db : Database}
    (read : Lifecycle.Read (history.map Stock.holdings) db) :
    Lifecycle.Read (thin.map Stock.holdings) (onlyDatabase keep db) := by
  obtain ⟨holdings,inside,rfl⟩ := read
  obtain ⟨stock,within,rfl⟩ := List.mem_map.mp inside
  exact ⟨_,List.mem_map_of_mem (thinned.mem within),rfl⟩

theorem readInOrder_only (thinned : Thinned (onlyStock keep) history thin) {first second : Database}
    (reads : Lifecycle.ReadInOrder (history.map Stock.holdings) first second) :
    Lifecycle.ReadInOrder (thin.map Stock.holdings) (onlyDatabase keep first) (onlyDatabase keep second) := by
  obtain ⟨recent,seen,older,is,rfl,again,within,rfl⟩ := reads
  have order : InOrder (history.map Stock.holdings) seen again := ⟨recent,older,is,within⟩
  obtain ⟨one,two,ordered,rfl,rfl⟩ := order.of_map
  obtain ⟨newer,past,split,inside⟩ := (thinned.inOrder ordered).map Stock.holdings
  exact ⟨newer,_,past,split,rfl,_,inside,rfl⟩

/-- What a call of a scope stages it would have staged of the scope alone. -/
theorem life_stages (thinned : Thinned (onlyStock keep) history thin) {txn : Lifecycle.Txn}
    (staged : Lifecycle.Stages fingerprint (history.map Stock.holdings) txn) (mine : keep (lifeScope txn) = true) :
    Lifecycle.Stages fingerprint (thin.map Stock.holdings) txn := by
  cases staged with
  | insert maxBodyBytes provenance admitted => exact .insert maxBodyBytes provenance admitted
  | capture maxBodyBytes admitted atLeader atReplica staged =>
    rw [lifeScope,capture_scope staged] at mine
    exact .capture maxBodyBytes admitted (read_only' thinned atLeader) (read_only' thinned atReplica)
      ((capture_only mine _ _ _).trans staged)
  | supersede walked atReplica staged =>
    rw [lifeScope,supersede_scope staged] at mine
    exact .supersede (fun read => read_only' thinned (walked read)) (read_only' thinned atReplica)
      ((supersede_only mine _ _ _ _ _).trans staged)
  | correct maxBodyBytes admitted atLeader atReplica walked atLater staged =>
    rw [lifeScope,(correct_scope staged).1] at mine
    exact .correct maxBodyBytes admitted (read_only' thinned atLeader) (read_only' thinned atReplica)
      (fun read => read_only' thinned (walked read)) (read_only' thinned atLater)
      ((correct_only mine _ _ _ _ _ _).trans staged)
  | setValidUntil scope id until' => exact .setValidUntil scope id until'
  | @prepareExpiry first second scope at' batch ids bounded reads read =>
    have mine : keep scope = true := mine
    rw [← kindsOf_only mine]
    exact .prepareExpiry bounded (readInOrder_only thinned reads) (by rw [due_only mine]; exact read)
  | @expire first second scope at' batch ids before bounded reads read prepared =>
    have mine : keep scope = true := mine
    obtain ⟨stock,within,is⟩ := List.mem_map.mp prepared
    have there := List.mem_map_of_mem (f := Stock.holdings) (thinned.mem within)
    have same : (onlyStock keep stock).holdings = { onlyHoldings keep before with
        counters := Lifecycle.materialize scope (kindsOf second scope ids) (onlyHoldings keep before).counters } := by
      show onlyHoldings keep stock.holdings = _
      rw [is]
      simp only [onlyHoldings,(@materialize_local keep scope _).inside mine]
    rw [same] at there
    rw [← kindsOf_only mine] at there ⊢
    exact .expire bounded (readInOrder_only thinned reads) (by rw [due_only mine]; exact read) there
  | erase read staged =>
    obtain ⟨whose,-⟩ := prepareErase_target staged
    rw [lifeScope,whose] at mine
    exact .erase (fun at' => read_only' thinned (read at')) ((prepareErase_only mine _ _ _ _).trans staged)
  | startScope scope decisionId => exact .startScope scope decisionId
  | @drain db scope operation batch at' bounded atBatch =>
    have mine : keep scope = true := mine
    rw [← batchShells_only mine]
    exact .drain operation at' bounded (read_only' thinned atBatch)
  | deliver scope target decisionId => exact .deliver scope target decisionId

theorem bound_only (thinned : Thinned (onlyStock keep) history thin) {model : ModelRow} (bound : Bound history model) :
    Bound thin model := by
  obtain ⟨seen,inside,is⟩ := bound
  exact ⟨_,thinned.mem inside,is⟩

theorem held_only {claim : Pipeline.Claim} (mine : keep claim.key.scope = true) {stock : Stock} (held : Held stock claim) :
    Held (onlyStock keep stock) claim := by
  obtain ⟨row,inside,holds⟩ := held
  exact ⟨row,List.mem_filter.mpr ⟨inside,by rw [claim.holds_key holds,mine]⟩,holds⟩

theorem embed_claim {model : ModelRow} {provider : List Chunk → Except StoreError (List Vector)} {claim : Pipeline.Claim}
    {atActive atMemory : Stock} {at' : UnixSeconds} {derivative : Derivative}
    (processed : process config model provider claim atActive atMemory at' = .ok (.embed derivative)) :
    derivative.claim = claim := by
  obtain ⟨row,chunks,vectors,-,-,-,-,-,-,rfl⟩ := process_embed processed
  rfl

/-- The calls of the scopes, and those of none, stage on the part what they stage on the
    whole. -/
theorem stages_only (thinned : Thinned (onlyStock keep) history thin) {txn : Pipeline.Txn} (now : Stock)
    (staged : Pipeline.Stages fingerprint config redigests history txn) (mine : concerns keep txn = true) :
    Pipeline.Stages fingerprint config redigests thin (seenBy keep now txn) := by
  cases staged with
  | life target staged => exact .life target (life_stages thinned staged mine)
  | redigest runs scope rows => exact .redigest runs scope rows
  | activate staged =>
    obtain ⟨_,_,provider,at',mapped,read⟩ := staged
    obtain ⟨atLatest,atActive,order,rfl,rfl⟩ := mapped.of_map
    exact .activate ⟨_,_,provider,at',(thinned.inOrder order).map Stock.models,read⟩
  | embed provider at' bound own held activeRead memoryRead processed =>
    have same := embed_claim processed
    rw [concerns,txnScope,same] at mine
    exact .embed provider at' (bound_only thinned bound) own (held_only mine held) (thinned.inOrder activeRead)
      (thinned.inOrder memoryRead) ((process_only mine _ _ _).trans processed)
  | completeEmpty provider at' bound own held activeRead memoryRead processed =>
    have mine : keep _ = true := mine
    exact .completeEmpty provider at' (bound_only thinned bound) own (held_only mine held) (thinned.inOrder activeRead)
      (thinned.inOrder memoryRead) ((process_only mine _ _ _).trans processed)
  | reconciled refusal bound own held memoryRead activeRead reconciled =>
    have mine : keep _ = true := mine
    exact .reconciled refusal (bound_only thinned bound) own (held_only mine held) (thinned.inOrder memoryRead)
      (thinned.inOrder activeRead) ((reconcile_only mine _ _ _).trans reconciled)
  | @reembed atMissing scope model after limit at' bounded live read =>
    have mine : keep scope = true := mine
    rw [← memoriesMissingEmbedding_only mine]
    exact .reembed at' bounded live (thinned.mem read)
  | dropRevision activeRead totalRead embeddedRead modelsRead prepared =>
    have mine : keep _ = true := mine
    exact .dropRevision (thinned.mem activeRead) (thinned.mem totalRead) (thinned.mem embeddedRead) (thinned.mem modelsRead)
      ((prepareDrop_only mine _ _ _ _ _).trans prepared)
  | upkeep attempts sameKey completesNothing => exact .upkeep _ sameKey completesNothing

/-! ### Runs -/

/-- What is committed in a run rests on what the run keeps. -/
theorem rests_of_run {log : List (Pipeline.Txn × Stock)} {txn : Pipeline.Txn} {next : Stock}
    (run : Run (Pipeline.system fingerprint config redigests scopeId) (fun _ _ => True) log)
    (staged : Pipeline.Stages fingerprint config redigests ((Pipeline.system fingerprint config redigests scopeId).states log) txn)
    (executed : Pipeline.commit fingerprint scopeId ((Pipeline.system fingerprint config redigests scopeId).current log) txn =
      .ok next) : Rests ((Pipeline.system fingerprint config redigests scopeId).current log) txn := by
  have trail := run.trail Pipeline.stages_fit moored_keeps
  obtain ⟨basis,moored⟩ := trail.held _ (System.current_mem _ log)
  exact rests_of_staged trail basis moored staged executed

theorem empty_only : onlyStock keep Stock.empty = Stock.empty := by
  have counters : onlyCounters keep (fun _ => none) = fun _ => none := by
    funext bucket
    simp [onlyCounters]
  simp [onlyStock,Stock.empty,onlyHoldings,Holdings.empty,onlyDatabase,Database.empty,counters]

/-- Of any run the transactions of some scopes, with those of none, are a run: it leads to
    what the whole run left of these scopes, through what it had left of them at each state,
    whatever the other scopes did meanwhile. -/
theorem scopes_alone {log : List (Pipeline.Txn × Stock)}
    (run : Run (Pipeline.system fingerprint config redigests scopeId) (fun _ _ => True) log) (keep : Scope → Bool) :
    Run (Pipeline.system fingerprint config redigests scopeId) (fun _ _ => True)
        (alone (Pipeline.system fingerprint config redigests scopeId) (onlyStock keep) (concerns keep) (seenBy keep) log) ∧
      (Pipeline.system fingerprint config redigests scopeId).current
          (alone (Pipeline.system fingerprint config redigests scopeId) (onlyStock keep) (concerns keep) (seenBy keep) log) =
        onlyStock keep ((Pipeline.system fingerprint config redigests scopeId).current log) ∧
      Thinned (onlyStock keep) ((Pipeline.system fingerprint config redigests scopeId).states log)
        ((Pipeline.system fingerprint config redigests scopeId).states
          (alone (Pipeline.system fingerprint config redigests scopeId) (onlyStock keep) (concerns keep) (seenBy keep) log)) := by
  refine alone_run run empty_only ?_ ?_
  · intro log txn next run staged committed other
    have executed := commit_single rfl committed
    exact (commit_only (rests_of_run run staged executed) executed).2 other
  · intro log txn next thin run staged committed mine thinned
    have executed := commit_single rfl committed
    have went := (commit_only (rests_of_run run staged executed) executed).1 mine
    exact ⟨stages_only thinned _ staged mine,bind_ok_iff.mpr ⟨_,went,rfl⟩⟩

end

end

namespace Sample
open Claims.Sample Memories.Sample Store.Sample Lifecycle.Sample Pipeline.Sample

def elsewhere : Scope := ⟨⟨"bob"⟩,.personal⟩

/-- The text of the embedded note, offered in another scope. -/
def offeredElsewhere : CaptureGate.Candidate :=
  { offered secondMemoryId "aisle seat" .evidence [] 1 with
    parts := { (offered secondMemoryId "aisle seat" .evidence [] 1).parts with scope := elsewhere } }

def noteElsewhere : Memory := CaptureGate.normalized CaptureGate.Sample.linked offeredElsewhere

/-- Beside the small pipeline the same text is captured in another scope. -/
def both : List (Pipeline.Txn × Stock) := Pipeline.Sample.captured stored noteElsewhere

theorem run_both : Run (pipeline true) (fun _ _ => True) both := by
  have passes : CaptureGate.walkCapture CaptureGate.Sample.linked CaptureGate.Sample.rules offeredElsewhere = .pass := by
    decide +kernel
  have admitted : Admitted noteElsewhere := by
    refine .passed CaptureGate.Sample.linked CaptureGate.Sample.rules offeredElsewhere ?_
    rw [CaptureGate.evaluate,passes]
    rfl
  exact Pipeline.Sample.run_captured (run_stored true) admitted fun _ _ => trivial

end Sample

theorem scopes_alone_both :
    (Pipeline.Sample.now Sample.both).memories.length = 2 ∧
    ((Pipeline.Sample.pipeline true).current (alone (Pipeline.Sample.pipeline true) (onlyStock (· == Sample.elsewhere))
      (concerns (· == Sample.elsewhere)) (seenBy (· == Sample.elsewhere)) Sample.both)).memories.length = 1 := by
  refine ⟨by decide +kernel,?_⟩
  have alone' := (scopes_alone Sample.run_both (· == Sample.elsewhere)).2.1
  refine (congrArg (fun stock : Stock => stock.memories.length) alone').trans ?_
  decide +kernel

end Aicortex.ScopesAlone
