import Aicortex.PipelineFacts

/-!
Erasure is final. Every transaction that could reach an erased memory looks at its
status as it commits, and every one that writes a row derived of a memory finds the
memory live in the same transaction; so what an erasure swept is not written again, and
the tombstone stays as it was left.
-/

namespace Aicortex.ErasureFinality
open Aicortex.Text Aicortex.CivilTime Aicortex.Memories Aicortex.Schema Aicortex.MemoryRepo Aicortex.Erasure
open Aicortex.Lifecycle Aicortex.EmbeddingTables Aicortex.ModelRegistry Aicortex.Chunking Aicortex.Pipeline
open Lib.Tables Lib.Outcome Lib.StaleRuns Lib.StaleRuns.System
open Aicortex.Claims hiding Unit
set_option linter.unusedSimpArgs false

/-! ### Rows and their memories -/

/-- A memory of the scope that is live. -/
def Live (memories : List MemoryRow) (scope : Scope) (id : MemoryId) : Prop :=
  ∃ row ∈ memories, ofScope scope id row = true ∧ row.live = true

/-- Every row of a table is of a live memory of its own scope. -/
def Attached {ρ : Type} (owner : ρ → Scope × MemoryId) (memories : List MemoryRow) (rows : List ρ) : Prop :=
  ∀ row ∈ rows, Live memories (owner row).1 (owner row).2

section
variable {ρ : Type} {owner : ρ → Scope × MemoryId} {before after : List MemoryRow} {rows more : List ρ}

/-- Rows whose memories stay live stay attached, and what is new may be shown to be. -/
theorem Attached.next (attached : Attached owner before rows)
    (origin : ∀ row ∈ more, (row ∈ rows ∧ (Live before (owner row).1 (owner row).2 → Live after (owner row).1 (owner row).2)) ∨
      Live after (owner row).1 (owner row).2) : Attached owner after more := by
  intro row member
  rcases origin row member with ⟨old,stays⟩ | live
  · exact stays (attached row old)
  · exact live

end

/-- No derivative is left of a memory that is not live. -/
structure Moored (stock : Stock) : Prop where
  embeddings : Attached (fun row : EmbeddingRow => (row.scope,row.memoryId)) stock.memories stock.embeddings
  chunks : Attached (fun row : ChunkRow => (row.scope,row.memoryId)) stock.memories stock.chunks
  provenance : Attached (fun row : ProvenanceRow => (row.scope,row.memoryId)) stock.memories stock.provenance
  captures : Attached (fun row : MemorySourceRow => (row.scope,row.memoryId)) stock.memories stock.holdings.captures
  derivations : Attached (fun row : DerivationRow => (row.scope,row.memoryId)) stock.memories stock.holdings.db.derivations

/-! ### What a move leaves live -/

section
variable {fingerprint : Memory → String} {now next : Holdings}

/-- What a move sweeps. -/
def moveSweeps : Move → Option (Scope × List Shell)
  | .erase prepared => some (prepared.scope,prepared.shells)
  | .drain scope _ shells _ => some (scope,shells)
  | _ => none

/-- The memory a move adds derivations or a source for. -/
def moveOwner : Move → Option (Scope × MemoryId)
  | .insert _ memory _ => some (memory.scope,memory.id)
  | .source scope id _ => some (scope,id)
  | _ => none

/-- Whether a memory is among those a sweep names. -/
def among (swept : Option (Scope × List Shell)) (scope : Scope) (id : MemoryId) : Bool :=
  swept.any (fun sweep => ofShells sweep.1 sweep.2 scope id)

theorem live_update {selected : MemoryRow → Bool} {change : MemoryRow → MemoryRow} {rows : List MemoryRow}
    (kept : ∀ row ∈ rows, selected row = true → (change row).id = row.id ∧ (change row).scope = row.scope ∧
      (row.live = true → (change row).live = true)) {scope : Scope} {id : MemoryId} (live : Live rows scope id) :
    Live (updateWhere selected change rows) scope id := by
  obtain ⟨row,inside,here,alive⟩ := live
  by_cases chosen : selected row = true
  · obtain ⟨sameId,sameScope,stays⟩ := kept row inside chosen
    exact ⟨_,mem_updateWhere.mpr (.inr ⟨row,inside,chosen,rfl⟩),by rw [ofScope,sameId,sameScope]; exact here,stays alive⟩
  · exact ⟨row,mem_updateWhere.mpr (.inl ⟨inside,Bool.eq_false_iff.mpr chosen⟩),here,alive⟩

theorem live_bury {shells : List Shell} {rows : List MemoryRow} {swept scope : Scope} {id : MemoryId} (at' : UnixSeconds)
    (missed : ofShells swept shells scope id = false) (live : Live rows scope id) :
    Live (rows.map (bury swept shells at')) scope id := by
  obtain ⟨row,inside,here,alive⟩ := live
  obtain ⟨sameId,sameScope,-,lives⟩ := bury_spec swept shells at' row
  refine ⟨_,List.mem_map_of_mem inside,by rw [ofScope,sameId,sameScope]; exact here,?_⟩
  simp only [ofScope,Bool.and_eq_true,beq_iff_eq] at here
  have apart : named swept shells row = false := by
    rw [named,here.1,here.2]
    exact missed
  rw [lives,alive,apart]
  rfl

/-- A memory that a move does not sweep stays live. -/
theorem move_live {move : Move} (applied : (Lifecycle.system fingerprint).apply now move = .ok next) {scope : Scope}
    {id : MemoryId} (missed : among (moveSweeps move) scope id = false) (live : Live now.db.memories scope id) :
    Live next.db.memories scope id := by
  cases move with
  | insert maxBodyBytes memory provenance =>
    obtain ⟨-,-,-,rfl⟩ := insert_applied applied
    obtain ⟨row,inside,rest⟩ := live
    exact ⟨row,List.mem_append_left _ inside,rest⟩
  | source scope id provenance =>
    cases applied
    exact live
  | merge scope id expected again =>
    obtain ⟨-,rfl⟩ := merge_applied applied
    refine live_update ?_ live
    exact fun row _ _ => ⟨rfl,rfl,fun alive => alive⟩
  | supersede scope old new expected at' =>
    obtain ⟨-,rfl⟩ := supersede_applied applied
    refine live_update ?_ live
    exact fun row _ _ => ⟨rfl,rfl,fun _ => rfl⟩
  | setValidUntil scope id until' =>
    cases applied
    refine live_update ?_ live
    exact fun row _ _ => ⟨rfl,rfl,fun alive => alive⟩
  | materialize scope kinds =>
    cases applied
    exact live
  | expire scope ids kinds at' =>
    cases applied
    refine live_update ?_ live
    exact fun row _ _ => ⟨rfl,rfl,fun _ => rfl⟩
  | erase prepared =>
    obtain ⟨-,-,memories,-,-⟩ := erase_applied applied
    rw [memories]
    refine live_update ?_ (live_bury prepared.now missed live)
    exact fun row _ _ => ⟨rfl,rfl,fun alive => alive⟩
  | startScope scope decisionId =>
    obtain ⟨receipts,rfl⟩ := startScope_applied applied
    exact live
  | drain scope operation shells at' =>
    obtain ⟨-,memories,-,-⟩ := drain_applied applied
    rw [memories]
    exact live_bury at' missed live
  | deliver scope target decisionId =>
    cases applied
    exact live

/-- The derivations and captures a move adds or leaves. -/
theorem move_rows {move : Move} (applied : (Lifecycle.system fingerprint).apply now move = .ok next) :
    (∀ edge ∈ next.db.derivations, (edge ∈ now.db.derivations ∧ among (moveSweeps move) edge.scope edge.memoryId = false) ∨
      moveOwner move = some (edge.scope,edge.memoryId)) ∧
    ∀ row ∈ next.captures, (row ∈ now.captures ∧ among (moveSweeps move) row.scope row.memoryId = false) ∨
      moveOwner move = some (row.scope,row.memoryId) := by
  have swept : ∀ (scope : Scope) (shells : List Shell), (∀ edge ∈ (stageSweep scope shells now.db).derivations,
      edge ∈ now.db.derivations ∧ ofShells scope shells edge.scope edge.memoryId = false) ∧
      ∀ row ∈ sweepCaptures scope shells now.captures,
        row ∈ now.captures ∧ ofShells scope shells row.scope row.memoryId = false :=
    fun scope shells => ⟨fun edge member => mem_deleteWhere.mp member,fun row member => mem_deleteWhere.mp member⟩
  cases move with
  | insert maxBodyBytes memory provenance =>
    obtain ⟨-,-,-,rfl⟩ := insert_applied applied
    refine ⟨fun edge member => ?_,fun row member => .inl ⟨member,rfl⟩⟩
    rcases List.mem_append.mp member with old | new
    · exact .inl ⟨old,rfl⟩
    · obtain ⟨parent,-,rfl⟩ := List.mem_map.mp new
      exact .inr rfl
  | source scope id provenance =>
    cases applied
    refine ⟨fun edge member => .inl ⟨member,rfl⟩,fun row member => ?_⟩
    rcases List.mem_append.mp member with old | new
    · exact .inl ⟨old,rfl⟩
    · rw [List.mem_singleton.mp new]
      exact .inr rfl
  | merge scope id expected again =>
    obtain ⟨-,rfl⟩ := merge_applied applied
    exact ⟨fun edge member => .inl ⟨member,rfl⟩,fun row member => .inl ⟨member,rfl⟩⟩
  | supersede scope old new expected at' =>
    obtain ⟨-,rfl⟩ := supersede_applied applied
    exact ⟨fun edge member => .inl ⟨member,rfl⟩,fun row member => .inl ⟨member,rfl⟩⟩
  | setValidUntil scope id until' =>
    cases applied
    exact ⟨fun edge member => .inl ⟨member,rfl⟩,fun row member => .inl ⟨member,rfl⟩⟩
  | materialize scope kinds =>
    cases applied
    exact ⟨fun edge member => .inl ⟨member,rfl⟩,fun row member => .inl ⟨member,rfl⟩⟩
  | expire scope ids kinds at' =>
    cases applied
    exact ⟨fun edge member => .inl ⟨member,rfl⟩,fun row member => .inl ⟨member,rfl⟩⟩
  | erase prepared =>
    obtain ⟨-,derivations,-,-,captures⟩ := erase_applied applied
    rw [derivations,captures]
    obtain ⟨edges,rows⟩ := swept prepared.scope prepared.shells
    exact ⟨fun edge member => .inl (edges edge member),fun row member => .inl (rows row member)⟩
  | startScope scope decisionId =>
    obtain ⟨receipts,rfl⟩ := startScope_applied applied
    exact ⟨fun edge member => .inl ⟨member,rfl⟩,fun row member => .inl ⟨member,rfl⟩⟩
  | drain scope operation shells at' =>
    obtain ⟨derivations,-,-,captures⟩ := drain_applied applied
    rw [derivations,captures]
    obtain ⟨edges,rows⟩ := swept scope shells
    exact ⟨fun edge member => .inl (edges edge member),fun row member => .inl (rows row member)⟩
  | deliver scope target decisionId =>
    cases applied
    exact ⟨fun edge member => .inl ⟨member,rfl⟩,fun row member => .inl ⟨member,rfl⟩⟩

end

/-! ### What a transaction leaves live -/

theorem settling_moves {settling : Settling} {move : Move} (member : move ∈ settling.moves) :
    moveSweeps move = none ∧
      (moveOwner move = none ∨ moveOwner move = some ((settledBy settling).1,(settledBy settling).2.1)) := by
  cases settling with
  | inserted maxBodyBytes memory =>
    rcases List.mem_cons.mp member with rfl | last
    · exact ⟨rfl,.inr rfl⟩
    · rw [List.mem_singleton.mp last]
      exact ⟨rfl,.inr rfl⟩
  | merged scope id expected again =>
    rcases List.mem_cons.mp member with rfl | last
    · exact ⟨rfl,.inl rfl⟩
    · rw [List.mem_singleton.mp last]
      exact ⟨rfl,.inr rfl⟩

/-- A transaction that sweeps is one move; the others add rows only for the memory they
    stage work for. -/
theorem txn_moves (txn : Lifecycle.Txn) :
    (∃ move, txn.moves = [move] ∧ moveSweeps move = sweptBy txn ∧ (moveOwner move = none ∨ moveOwner move = stagedOwner txn)) ∨
    (sweptBy txn = none ∧ ∀ move ∈ txn.moves, moveSweeps move = none ∧
      (moveOwner move = none ∨ moveOwner move = stagedOwner txn)) := by
  cases txn with
  | capture settling => exact .inr ⟨rfl,fun move member => settling_moves member⟩
  | correct settling supersession =>
    refine .inr ⟨rfl,fun move member => ?_⟩
    rcases List.mem_append.mp member with first | last
    · exact settling_moves first
    · rw [List.mem_singleton.mp last]
      exact ⟨rfl,.inl rfl⟩
  | insert => exact .inl ⟨_,rfl,rfl,.inr rfl⟩
  | supersede => exact .inl ⟨_,rfl,rfl,.inl rfl⟩
  | setValidUntil => exact .inl ⟨_,rfl,rfl,.inl rfl⟩
  | prepareExpiry => exact .inl ⟨_,rfl,rfl,.inl rfl⟩
  | expire => exact .inl ⟨_,rfl,rfl,.inl rfl⟩
  | erase => exact .inl ⟨_,rfl,rfl,.inl rfl⟩
  | startScope => exact .inl ⟨_,rfl,rfl,.inl rfl⟩
  | drain => exact .inl ⟨_,rfl,rfl,.inl rfl⟩
  | deliver => exact .inl ⟨_,rfl,rfl,.inl rfl⟩

section
variable {fingerprint : Memory → String} {now next : Holdings} {txn : Lifecycle.Txn}

theorem life_live (committed : (Lifecycle.system fingerprint).commit now txn = .ok next) {scope : Scope} {id : MemoryId}
    (missed : among (sweptBy txn) scope id = false) (live : Live now.db.memories scope id) :
    Live next.db.memories scope id := by
  rcases txn_moves txn with ⟨move,only,sweeps,-⟩ | ⟨-,each⟩
  · exact move_live (commit_single only committed) (by rw [sweeps]; exact missed) live
  · refine foldlM_invariant (fun mid : Holdings => Live mid.db.memories scope id) ?_ live committed
    intro move member mid after alive applied
    exact move_live applied (by rw [(each move member).1]; rfl) alive

/-- A row that a transaction leaves was there and was not swept, or is of the memory it
    stages work for. -/
def Left {ρ : Type} (owner : ρ → Scope × MemoryId) (txn : Lifecycle.Txn) (before : List ρ) (row : ρ) : Prop :=
  (row ∈ before ∧ among (sweptBy txn) (owner row).1 (owner row).2 = false) ∨ stagedOwner txn = some (owner row)

theorem Left.added {ρ : Type} {owner : ρ → Scope × MemoryId} {before : List ρ} {row : ρ} {move : Move}
    (under : moveOwner move = none ∨ moveOwner move = stagedOwner txn) (added : moveOwner move = some (owner row)) :
    Left owner txn before row := by
  rcases under with none' | same
  · rw [none'] at added
    cases added
  · exact .inr (same ▸ added)

theorem life_rows (committed : (Lifecycle.system fingerprint).commit now txn = .ok next) :
    (∀ edge ∈ next.db.derivations, Left (fun edge => (edge.scope,edge.memoryId)) txn now.db.derivations edge) ∧
      ∀ row ∈ next.captures, Left (fun row => (row.scope,row.memoryId)) txn now.captures row := by
  rcases txn_moves txn with ⟨move,only,sweeps,under⟩ | ⟨unswept,each⟩
  · obtain ⟨edges,rows⟩ := move_rows (commit_single only committed)
    rw [sweeps] at edges rows
    exact ⟨fun edge member => (edges edge member).elim .inl (fun added => Left.added under added),
      fun row member => (rows row member).elim .inl (fun added => Left.added under added)⟩
  · refine foldlM_invariant (fun mid : Holdings =>
      (∀ edge ∈ mid.db.derivations, Left (fun edge => (edge.scope,edge.memoryId)) txn now.db.derivations edge) ∧
        ∀ row ∈ mid.captures, Left (fun row => (row.scope,row.memoryId)) txn now.captures row) ?_ ?_ committed
    · rintro move member mid after ⟨heldEdges,heldRows⟩ applied
      obtain ⟨edges,rows⟩ := move_rows applied
      have under := (each move member).2
      exact ⟨fun edge within => (edges edge within).elim (fun old => heldEdges edge old.1) (fun added => Left.added under added),
        fun row within => (rows row within).elim (fun old => heldRows row old.1) (fun added => Left.added under added)⟩
    · exact ⟨fun edge member => .inl ⟨member,by rw [unswept]; rfl⟩,fun row member => .inl ⟨member,by rw [unswept]; rfl⟩⟩

/-- Rows that a transaction leaves stay attached. -/
theorem life_attached {ρ : Type} {owner : ρ → Scope × MemoryId} {rows more : List ρ}
    (committed : (Lifecycle.system fingerprint).commit now txn = .ok next)
    (alive : ∀ scope id, stagedOwner txn = some (scope,id) → Live next.db.memories scope id)
    (left : ∀ row ∈ more, Left owner txn rows row) (attached : Attached owner now.db.memories rows) :
    Attached owner next.db.memories more := by
  refine attached.next fun row member => ?_
  rcases left row member with ⟨old,missed⟩ | staged
  · exact .inl ⟨old,life_live committed missed⟩
  · exact .inr (alive _ _ staged)

theorem insertProvenance_left {before after : List ProvenanceRow} (unswept : sweptBy txn = none)
    (inserted : insertProvenance (insertedBy txn) before = .ok after) :
    ∀ row ∈ after, Left (fun row => (row.scope,row.memoryId)) txn before row := by
  intro row member
  cases hit : insertedBy txn with
  | none =>
    rw [hit] at inserted
    cases inserted
    exact .inl ⟨member,by rw [unswept]; rfl⟩
  | some memory =>
    rw [hit] at inserted
    obtain ⟨-,rfl⟩ := insertRow_ok.mp inserted
    rcases List.mem_append.mp member with old | new
    · exact .inl ⟨old,by rw [unswept]; rfl⟩
    · rw [List.mem_singleton.mp new]
      exact .inr (inserted_staged hit)

end

/-! ### No transaction casts a row adrift -/

section
variable {fingerprint : Memory → String} {config : ChunkConfig} {redigests : Bool} {scopeId : Scope → String}
variable {history : List Stock} {now next : Stock}

theorem life_moored {Inv : Stock → Prop} (trail : Trail Inv Since history now) (moored : Moored now) {txn : Lifecycle.Txn}
    {target : Option ActiveEmbedding} (staged : Lifecycle.Stages fingerprint (history.map Stock.holdings) txn)
    (executed : commitLife fingerprint txn target now = .ok next) : Moored next := by
  obtain ⟨holdings,committed,effect⟩ := life_cases executed
  have alive : ∀ scope id, stagedOwner txn = some (scope,id) → Live holdings.db.memories scope id := by
    intro scope id owner
    obtain ⟨⟨_,_,at'⟩,work,same⟩ := Option.map_eq_some_iff.mp owner
    cases same
    exact staged_live trail staged committed work
  obtain ⟨edges,rows⟩ := life_rows committed
  have derivations := life_attached committed alive edges moored.derivations
  have captures := life_attached committed alive rows moored.captures
  rcases effect with ⟨-,-,unswept,rfl⟩ | ⟨provenance,scope,id,at',inserted,-,unswept,work⟩ | ⟨scope,shells,-,-,swept,rfl⟩
  · have whole : ∀ {ρ : Type} (owner : ρ → Scope × MemoryId) (table : List ρ), ∀ row ∈ table, Left owner txn table row :=
      fun owner table row member => .inl ⟨member,by rw [unswept]; rfl⟩
    exact ⟨life_attached committed alive (whole _ _) moored.embeddings,life_attached committed alive (whole _ _) moored.chunks,
      life_attached committed alive (whole _ _) moored.provenance,captures,derivations⟩
  · have whole : ∀ {ρ : Type} (owner : ρ → Scope × MemoryId) (table : List ρ), ∀ row ∈ table, Left owner txn table row :=
      fun owner table row member => .inl ⟨member,by rw [unswept]; rfl⟩
    have settled : Moored { now with holdings := holdings, provenance := provenance } :=
      ⟨life_attached committed alive (whole _ _) moored.embeddings,life_attached committed alive (whole _ _) moored.chunks,
        life_attached committed alive (insertProvenance_left unswept inserted) moored.provenance,captures,derivations⟩
    rcases stageTarget_ok work with ⟨_,-,-,rfl⟩ | ⟨-,rfl⟩
    · exact ⟨settled.embeddings,settled.chunks,settled.provenance,settled.captures,settled.derivations⟩
    · exact settled
  · have kept : ∀ {ρ : Type} (owner : ρ → Scope × MemoryId) (table : List ρ),
        ∀ row ∈ deleteWhere (fun row => ofShells scope shells (owner row).1 (owner row).2) table, Left owner txn table row := by
      intro ρ owner table row member
      obtain ⟨old,missed⟩ := mem_deleteWhere.mp member
      exact .inl ⟨old,by rw [swept]; exact missed⟩
    have embeddings := kept (fun row : EmbeddingRow => (row.scope,row.memoryId)) now.embeddings
    have chunks := kept (fun row : ChunkRow => (row.scope,row.memoryId)) now.chunks
    have provenance := kept (fun row : ProvenanceRow => (row.scope,row.memoryId)) now.provenance
    exact ⟨life_attached committed alive embeddings moored.embeddings,life_attached committed alive chunks moored.chunks,
      life_attached committed alive provenance moored.provenance,captures,derivations⟩

theorem live_of_embeddable {row : MemoryRow} (alive : embeddable row = true) : row.live = true := by
  simp only [embeddable,Bool.and_eq_true] at alive
  exact alive.1

/-- The rows a worker's commit leaves are those of other groups, and its own. -/
theorem replaced_attached {ρ : Type} {owner : ρ → Scope × MemoryId} {gone : ρ → Bool} {memories : List MemoryRow}
    {rows added : List ρ} (attached : Attached owner memories rows)
    (new : ∀ row ∈ added, Live memories (owner row).1 (owner row).2) :
    Attached owner memories (deleteWhere gone rows ++ added) := by
  intro row member
  rcases List.mem_append.mp member with old | own
  · exact attached row (mem_deleteWhere.mp old).1
  · exact new row own

theorem embed_moored (moored : Moored now) {derivative : Derivative} (executed : commitEmbed scopeId derivative now = .ok next) :
    Moored next := by
  obtain ⟨guarded,-,rfl,-⟩ := embed_ok executed
  obtain ⟨⟨row,inside,here,alive⟩,-⟩ := stageDerivativeCommitGuards_ok guarded
  have live : Live now.memories derivative.claim.key.scope derivative.memory := ⟨row,inside,here,live_of_embeddable alive⟩
  refine ⟨replaced_attached moored.embeddings ?_,replaced_attached moored.chunks ?_,moored.provenance,moored.captures,
    moored.derivations⟩
  · intro row member
    obtain ⟨pair,-,rfl⟩ := List.mem_map.mp member
    exact live
  · intro row member
    obtain ⟨pair,-,rfl⟩ := List.mem_map.mp member
    exact live

theorem redigest_live {scope owner : Scope} {id : MemoryId} {rows : List (MemoryId × Memory)}
    (executed : commitRedigest fingerprint scope rows now = .ok next) (live : Live now.memories owner id) :
    Live next.memories owner id := by
  obtain ⟨change,turned,rfl⟩ := redigest_ok executed
  obtain ⟨row,inside,here,alive⟩ := live
  obtain ⟨⟨sameId,kept⟩,status⟩ := turned row inside
  refine ⟨_,List.mem_map_of_mem inside,by rw [ofScope,sameId,kept.scope]; exact here,?_⟩
  rw [MemoryRow.live,status]
  exact alive

theorem redigest_moored (moored : Moored now) {scope : Scope} {rows : List (MemoryId × Memory)}
    (executed : commitRedigest fingerprint scope rows now = .ok next) : Moored next := by
  have still : ∀ {ρ : Type} {owner : ρ → Scope × MemoryId} {table : List ρ}, Attached owner now.memories table →
      Attached owner next.memories table :=
    fun attached row member => redigest_live executed (attached row member)
  obtain ⟨change,turned,rfl⟩ := redigest_ok executed
  exact ⟨still moored.embeddings,still moored.chunks,still moored.provenance,still moored.captures,still moored.derivations⟩

theorem moored_keeps :
    Keeps (Pipeline.system fingerprint config redigests scopeId) (fun _ _ => True) (Stages fingerprint config redigests)
      (fun stock => Basis stock ∧ Moored stock) Since := by
  refine basis_keeps.further ?_ ?_
  · refine ⟨?_,?_,?_,?_,?_⟩ <;>
      simp [Attached,Pipeline.system,Stock.empty,Holdings.empty,Database.empty]
  intro history now txn next trail basis moored staged _ executed
  cases staged with
  | life target staged => exact life_moored trail moored staged executed
  | redigest runs scope rows => exact redigest_moored moored executed
  | activate staged =>
    obtain ⟨models,committed,rest⟩ := bind_ok_iff.mp executed
    cases rest
    exact ⟨moored.embeddings,moored.chunks,moored.provenance,moored.captures,moored.derivations⟩
  | embed provider time bound own held activeRead memoryRead processed => exact embed_moored moored executed
  | completeEmpty provider time bound own held activeRead memoryRead processed =>
    obtain ⟨-,rfl⟩ := complete_ok executed
    exact ⟨moored.embeddings,moored.chunks,moored.provenance,moored.captures,moored.derivations⟩
  | reconciled refusal bound own held memoryRead activeRead reconciled =>
    obtain ⟨-,rfl⟩ := complete_ok executed
    exact ⟨moored.embeddings,moored.chunks,moored.provenance,moored.captures,moored.derivations⟩
  | reembed time bounded live read =>
    obtain ⟨work,rfl,-⟩ := reembed_ok executed
    exact ⟨moored.embeddings,moored.chunks,moored.provenance,moored.captures,moored.derivations⟩
  | dropRevision activeRead totalRead embeddedRead modelsRead prepared =>
    obtain ⟨⟨stock,affected⟩,dropped,rest⟩ := bind_ok_iff.mp executed
    cases rest
    obtain ⟨-,-,rfl⟩ := drop_ok dropped
    exact ⟨fun row member => moored.embeddings row (mem_deleteWhere.mp member).1,
      fun row member => moored.chunks row (mem_deleteWhere.mp member).1,moored.provenance,moored.captures,moored.derivations⟩
  | upkeep attempts sameKey completesNothing =>
    cases executed
    exact ⟨moored.embeddings,moored.chunks,moored.provenance,moored.captures,moored.derivations⟩

/-- No row derived of a memory names it. -/
structure Bare (stock : Stock) (id : MemoryId) : Prop where
  embeddings : ∀ row ∈ stock.embeddings, row.memoryId ≠ id
  chunks : ∀ row ∈ stock.chunks, row.memoryId ≠ id
  provenance : ∀ row ∈ stock.provenance, row.memoryId ≠ id
  captures : ∀ row ∈ stock.holdings.captures, row.memoryId ≠ id
  derivations : ∀ row ∈ stock.holdings.db.derivations, row.memoryId ≠ id

/-- An attached row is of no erased memory, in whatever scope it stands. -/
theorem Attached.apart {ρ : Type} {owner : ρ → Scope × MemoryId} {memories : List MemoryRow} {rows : List ρ}
    (attached : Attached owner memories rows) (unique : UniqueBy MemoryRow.id memories) {memory : MemoryRow}
    (inside : memory ∈ memories) (dead : memory.live = false) : ∀ row ∈ rows, (owner row).2 ≠ memory.id := by
  intro row member same
  obtain ⟨other,there,here,lives⟩ := attached row member
  simp only [ofScope,Bool.and_eq_true,beq_iff_eq] at here
  have one : other = memory := List.inj_on_of_nodup_map unique there inside (here.2.trans same)
  rw [one,dead] at lives
  cases lives

theorem Moored.bare {stock : Stock} (moored : Moored stock) (unique : UniqueBy MemoryRow.id stock.memories)
    {memory : MemoryRow} (inside : memory ∈ stock.memories) (dead : memory.live = false) : Bare stock memory.id :=
  ⟨moored.embeddings.apart unique inside dead,moored.chunks.apart unique inside dead,
    moored.provenance.apart unique inside dead,moored.captures.apart unique inside dead,
    moored.derivations.apart unique inside dead⟩

/-- A tombstone keeps every column from then on, and nothing derived of the memory is
    there in any state in which it is erased. -/
theorem erasure_final {log : List (Pipeline.Txn × Stock)}
    (run : Run (Pipeline.system fingerprint config redigests scopeId) (fun _ _ => True) log) :
    ((Pipeline.system fingerprint config redigests scopeId).states log).Pairwise (fun later earlier =>
      ∀ memory ∈ earlier.memories, memory.status = .erased →
        ∀ row, row ∈ later.memories ∧ row.id = memory.id ↔ row = memory) ∧
    ∀ stock ∈ (Pipeline.system fingerprint config redigests scopeId).states log, ∀ memory ∈ stock.memories,
      memory.status = .erased → Bare stock memory.id := by
  have trail := run.trail Pipeline.stages_fit moored_keeps
  have lifeless : ∀ {row : MemoryRow}, row.status = .erased → row.live = false := by
    intro row status
    simp [MemoryRow.live,status]
  constructor
  · refine List.Pairwise.imp_of_mem ?_ trail.ordered
    intro later earlier laterIn _ since memory member status row
    obtain ⟨kept,inside,sameId,turned⟩ := since.rows memory member
    have same : kept = memory := turned.erased (lifeless status)
    subst same
    constructor
    · rintro ⟨there,named⟩
      exact List.inj_on_of_nodup_map (trail.held later laterIn).1.unique there inside named
    · rintro rfl
      exact ⟨inside,rfl⟩
  · intro stock inside memory member status
    obtain ⟨basis,moored⟩ := trail.held stock inside
    exact moored.bare basis.unique member (lifeless status)

end

namespace Sample
open Pipeline.Sample

/-- The embedded note of the small pipeline is erased. -/
def buried : List (Pipeline.Txn × Stock) := Pipeline.Sample.erased stored Store.Sample.noteId false

theorem run_buried : Run (pipeline true) (fun _ _ => True) buried := run_erased (run_stored true) fun _ _ => trivial

theorem note_buried : ∃ memory ∈ (Pipeline.Sample.now buried).memories, memory.status = .erased := by decide +kernel

end Sample

theorem erasure_final_buried :
    (Pipeline.Sample.now Pipeline.Sample.stored).embeddings ≠ [] ∧
    ∃ memory ∈ (Pipeline.Sample.now Sample.buried).memories, Bare (Pipeline.Sample.now Sample.buried) memory.id := by
  refine ⟨by decide +kernel,?_⟩
  obtain ⟨memory,inside,status⟩ := Sample.note_buried
  exact ⟨memory,inside,(erasure_final Sample.run_buried).2 _ (System.current_mem _ _) memory inside status⟩

end Aicortex.ErasureFinality
