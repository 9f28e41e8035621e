import Aicortex.ErasureFinality

/-!
The chunks and vectors of a memory at a revision are whole. A worker writes them in one
transaction that first deletes what was there, and every other path takes all of them or
none. The ranges were cut from a text read earlier; a live memory keeps its text, so they
are ranges of the text as it is.
-/

namespace Aicortex.DerivativeWholeness
open Aicortex.Text Aicortex.CivilTime Aicortex.Memories Aicortex.Schema Aicortex.MemoryRepo Aicortex.Erasure
open Aicortex.Lifecycle Aicortex.EmbeddingTables Aicortex.ModelRegistry Aicortex.Chunking Aicortex.Provider
open Aicortex.Pipeline Aicortex.ErasureFinality
open Lib.Tables Lib.Outcome Lib.StaleRuns Lib.StaleRuns.System
open Aicortex.Claims hiding Unit
set_option linter.unusedSimpArgs false

/-! ### The rows of a memory at a revision -/

section
variable (stock : Stock) (scope : Scope) (id : MemoryId) (revision : Nat)

def chunkGroup : List ChunkRow := stock.chunks.filter (fun row => ofGroup scope id revision row.key)

def embeddingGroup : List EmbeddingRow := stock.embeddings.filter (fun row => ofGroup scope id revision row.key)

/-- The group has a chunk for each piece the text is cut into, a vector for each chunk,
    and every vector is of the model of the revision. -/
structure Complete (config : ChunkConfig) (pieces : List Chunk) : Prop where
  cut : ∃ memory ∈ stock.memories, ofScope scope id memory = true ∧ memory.live = true ∧
    split config memory.record.body.text = .ok pieces
  numbered : pieces.map Chunk.ordinal = List.range pieces.length
  ranges : (chunkGroup stock scope id revision).map (fun row => (row.ordinal,row.byteStart,row.byteEnd)) =
    pieces.map (fun piece => (piece.ordinal,piece.byteStart,piece.byteEnd))
  vectors : (embeddingGroup stock scope id revision).map EmbeddingRow.ordinal = List.range pieces.length
  model : ∃ model ∈ stock.models, model.revision = revision ∧ ∀ row ∈ embeddingGroup stock scope id revision,
    row.identity = model.identity ∧ row.vector.length = model.identity.dims * 4

/-- Nothing is stored of the memory at the revision. -/
def Blank : Prop := chunkGroup stock scope id revision = [] ∧ embeddingGroup stock scope id revision = []

end

structure Derived (config : ChunkConfig) (stock : Stock) : Prop where
  whole : ∀ scope id revision, Blank stock scope id revision ∨ ∃ pieces, Complete stock scope id revision config pieces
  keyed : UniqueBy ChunkRow.key stock.chunks
  identified : UniqueBy ChunkRow.chunkId stock.chunks

section
variable {config : ChunkConfig} {now next : Stock} {scope : Scope} {id : MemoryId} {revision : Nat} {pieces : List Chunk}

theorem ofGroup_iff {key : ChunkKey} :
    ofGroup scope id revision key = true ↔ key.1 = scope ∧ key.2.1 = id ∧ key.2.2.1 = revision := by
  simp [ofGroup,and_assoc]

/-- A memory that stays keeps its text. -/
def Carried (before after : List MemoryRow) (scope : Scope) (id : MemoryId) : Prop :=
  ∀ memory ∈ before, ofScope scope id memory = true → memory.live = true → ∃ later ∈ after,
    ofScope scope id later = true ∧ later.live = true ∧ later.record.body.text = memory.record.body.text

theorem carried_of_live {before after : List MemoryRow} (standing : Standing before after) (unique : UniqueBy MemoryRow.id after)
    (stays : Live before scope id → Live after scope id) : Carried before after scope id := by
  intro memory inside here alive
  obtain ⟨later,there,sameId,kept⟩ := standing memory inside
  obtain ⟨other,also,chosen,lives⟩ := stays ⟨memory,inside,here,alive⟩
  simp only [ofScope,Bool.and_eq_true,beq_iff_eq] at here chosen
  have same : other = later := List.inj_on_of_nodup_map unique also there (by rw [chosen.2,sameId,here.2])
  subst same
  exact ⟨other,also,by simp [ofScope,chosen.1,chosen.2],lives,kept.text lives⟩

/-- A group whose rows are left alone stays complete with its memory. -/
theorem Complete.carry (complete : Complete now scope id revision config pieces) (carried : Carried now.memories next.memories scope id)
    (onward : Onward now.models next.models)
    (chunks : chunkGroup next scope id revision = chunkGroup now scope id revision)
    (embeddings : embeddingGroup next scope id revision = embeddingGroup now scope id revision) :
    Complete next scope id revision config pieces := by
  obtain ⟨memory,inside,here,alive,cut⟩ := complete.cut
  obtain ⟨later,there,chosen,lives,text⟩ := carried memory inside here alive
  obtain ⟨model,recorded,revised,identity⟩ := complete.model
  obtain ⟨kept,still,sameRevision,sameIdentity,-⟩ := onward.kept recorded
  refine ⟨⟨later,there,chosen,lives,by rw [text]; exact cut⟩,complete.numbered,?_,?_,kept,still,sameRevision.trans revised,?_⟩
  · rw [chunks]
    exact complete.ranges
  · rw [embeddings]
    exact complete.vectors
  · rw [embeddings,sameIdentity]
    exact identity

/-- A transaction that leaves the chunks and vectors leaves them whole, if the memories
    stay live. -/
theorem Derived.still (derived : Derived config now) (carried : ∀ scope id, Carried now.memories next.memories scope id)
    (onward : Onward now.models next.models) (chunks : next.chunks = now.chunks) (embeddings : next.embeddings = now.embeddings) :
    Derived config next := by
  refine ⟨fun scope id revision => ?_,by rw [chunks]; exact derived.keyed,by rw [chunks]; exact derived.identified⟩
  have sameChunks : chunkGroup next scope id revision = chunkGroup now scope id revision := by rw [chunkGroup,chunks]; rfl
  have sameVectors : embeddingGroup next scope id revision = embeddingGroup now scope id revision := by
    rw [embeddingGroup,embeddings]
    rfl
  rcases derived.whole scope id revision with ⟨noChunks,noVectors⟩ | ⟨pieces,complete⟩
  · exact .inl ⟨sameChunks.trans noChunks,sameVectors.trans noVectors⟩
  · exact .inr ⟨pieces,complete.carry (carried scope id) onward sameChunks sameVectors⟩

/-- A deletion that takes every group whole or leaves it leaves them whole. -/
theorem Derived.delete (derived : Derived config now) (gone : Scope → MemoryId → Nat → Bool)
    (carried : ∀ scope id revision, gone scope id revision = false → Carried now.memories next.memories scope id)
    (onward : Onward now.models next.models)
    (chunks : next.chunks = deleteWhere (fun row => gone row.scope row.memoryId row.revision) now.chunks)
    (embeddings : next.embeddings = deleteWhere (fun row => gone row.scope row.memoryId row.revision) now.embeddings) :
    Derived config next := by
  refine ⟨fun scope id revision => ?_,by rw [chunks]; exact derived.keyed.delete _,by rw [chunks]; exact derived.identified.delete _⟩
  by_cases taken : gone scope id revision = true
  · refine .inl ⟨?_,?_⟩
    · rw [chunkGroup,chunks]
      refine filter_deleteWhere_gone fun row _ inside => ?_
      obtain ⟨rfl,rfl,rfl⟩ := ofGroup_iff.mp inside
      exact taken
    · rw [embeddingGroup,embeddings]
      refine filter_deleteWhere_gone fun row _ inside => ?_
      obtain ⟨rfl,rfl,rfl⟩ := ofGroup_iff.mp inside
      exact taken
  have left : gone scope id revision = false := Bool.eq_false_iff.mpr taken
  have sameChunks : chunkGroup next scope id revision = chunkGroup now scope id revision := by
    rw [chunkGroup,chunks]
    refine filter_deleteWhere_apart fun row _ inside => ?_
    obtain ⟨rfl,rfl,rfl⟩ := ofGroup_iff.mp inside
    exact left
  have sameVectors : embeddingGroup next scope id revision = embeddingGroup now scope id revision := by
    rw [embeddingGroup,embeddings]
    refine filter_deleteWhere_apart fun row _ inside => ?_
    obtain ⟨rfl,rfl,rfl⟩ := ofGroup_iff.mp inside
    exact left
  rcases derived.whole scope id revision with ⟨noChunks,noVectors⟩ | ⟨pieces,complete⟩
  · exact .inl ⟨sameChunks.trans noChunks,sameVectors.trans noVectors⟩
  · exact .inr ⟨pieces,complete.carry (carried scope id revision left) onward sameChunks sameVectors⟩

/-! ### What a worker stores -/

section
variable {scopeId : Scope → String} {derivative : Derivative}

/-- The rows of the worker's own group after its commit. -/
theorem own_group {ρ : Type} {key : ρ → ChunkKey} {rows added : List ρ}
    (own : ∀ row ∈ added, ofGroup scope id revision (key row) = true) :
    (deleteWhere (fun row => ofGroup scope id revision (key row)) rows ++ added).filter
      (fun row => ofGroup scope id revision (key row)) = added := by
  rw [List.filter_append,filter_deleteWhere_gone fun row _ inside => inside,List.nil_append,List.filter_eq_self]
  exact own

/-- The rows of every other group are left. -/
theorem other_group {ρ : Type} {key : ρ → ChunkKey} {rows added : List ρ} {part gone : ChunkKey → Bool}
    (apart : ∀ row, part row = true → gone row = false) (own : ∀ row ∈ added, gone (key row) = true) :
    (deleteWhere (fun row => gone (key row)) rows ++ added).filter (fun row => part (key row)) =
      rows.filter (fun row => part (key row)) := by
  have none' : added.filter (fun row => part (key row)) = [] := by
    refine List.filter_eq_nil_iff.mpr fun row member inside => ?_
    have taken := own row member
    rw [apart _ inside] at taken
    cases taken
  rw [List.filter_append,filter_deleteWhere_apart fun row _ inside => apart _ inside,none',List.append_nil]

/-- The memory a worker read is the one its commit finds live, with the same text. -/
theorem read_text {atMemory : Stock} (since : Since atMemory now) (read : Basis atMemory) (basis : Basis now) {row live : MemoryRow}
    (was : row ∈ atMemory.memories) (inside : live ∈ now.memories) (here : live.id = row.record.id) (alive : live.live = true) :
    live.record.body.text = row.record.body.text := by
  obtain ⟨later,there,sameId,kept⟩ := since.rows row was
  have same : later = live := List.inj_on_of_nodup_map basis.unique there inside (by rw [sameId,here,read.named row was])
  subst same
  exact kept.text alive

theorem map_zip_fst {α β γ : Type} (f : α → γ) {left : List α} {right : List β} (count : right.length = left.length) :
    (left.zip right).map (fun pair => f pair.1) = left.map f := by
  have through : (left.zip right).map (fun pair => f pair.1) = ((left.zip right).map Prod.fst).map f := by
    rw [List.map_map]
    rfl
  rw [through,List.map_fst_zip (le_of_eq count.symm)]

/-- The keys of the stored chunks differ only in their ordinals. -/
theorem ordinals_nodup {rows : List ChunkRow}
    (unique : UniqueBy ChunkRow.key (rows ++ derivative.chunks.map (derivative.chunkRow scopeId))) :
    (derivative.chunks.map Chunk.ordinal).Nodup := by
  rw [UniqueBy,List.map_append,List.nodup_append,List.map_map] at unique
  have through : derivative.chunks.map (ChunkRow.key ∘ derivative.chunkRow scopeId) = (derivative.chunks.map Chunk.ordinal).map
      (fun ordinal => (derivative.claim.key.scope,derivative.memory,derivative.model.revision,ordinal)) := by
    rw [List.map_map]
    rfl
  rw [through] at unique
  exact unique.2.1.of_map _

/-- A commit of a worker puts its rows in the place of the group it computed, and leaves
    every other group. -/
theorem embed_groups (executed : commitEmbed scopeId derivative now = .ok next)
    (count : derivative.vectors.length = derivative.chunks.length) :
    chunkGroup next derivative.claim.key.scope derivative.memory derivative.model.revision =
        derivative.chunks.map (derivative.chunkRow scopeId) ∧
      embeddingGroup next derivative.claim.key.scope derivative.memory derivative.model.revision =
        (derivative.chunks.zip derivative.vectors).map (fun pair => derivative.embeddingRow pair.1 pair.2) ∧
      ∀ scope id revision,
        ¬ (scope = derivative.claim.key.scope ∧ id = derivative.memory ∧ revision = derivative.model.revision) →
          chunkGroup next scope id revision = chunkGroup now scope id revision ∧
            embeddingGroup next scope id revision = embeddingGroup now scope id revision := by
  obtain ⟨-,-,is,-⟩ := embed_ok executed
  have chunks : next.chunks = deleteWhere
      (fun row => ofGroup derivative.claim.key.scope derivative.memory derivative.model.revision row.key) now.chunks ++
        derivative.chunks.map (derivative.chunkRow scopeId) := by rw [is,map_zip_fst _ count]
  have embeddings : next.embeddings = deleteWhere
      (fun row => ofGroup derivative.claim.key.scope derivative.memory derivative.model.revision row.key) now.embeddings ++
        (derivative.chunks.zip derivative.vectors).map (fun pair => derivative.embeddingRow pair.1 pair.2) := by rw [is]
  have ownChunks : ∀ row ∈ derivative.chunks.map (derivative.chunkRow scopeId),
      ofGroup derivative.claim.key.scope derivative.memory derivative.model.revision row.key = true := by
    intro row member
    obtain ⟨chunk,-,rfl⟩ := List.mem_map.mp member
    exact ofGroup_iff.mpr ⟨rfl,rfl,rfl⟩
  have ownVectors : ∀ row ∈ (derivative.chunks.zip derivative.vectors).map (fun pair => derivative.embeddingRow pair.1 pair.2),
      ofGroup derivative.claim.key.scope derivative.memory derivative.model.revision row.key = true := by
    intro row member
    obtain ⟨pair,-,rfl⟩ := List.mem_map.mp member
    exact ofGroup_iff.mpr ⟨rfl,rfl,rfl⟩
  refine ⟨?_,?_,fun scope id revision other => ?_⟩
  · rw [chunkGroup,chunks]
    exact own_group ownChunks
  · rw [embeddingGroup,embeddings]
    exact own_group ownVectors
  · have apart : ∀ key, ofGroup scope id revision key = true →
        ofGroup derivative.claim.key.scope derivative.memory derivative.model.revision key = false := by
      intro key within
      obtain ⟨rfl,rfl,rfl⟩ := ofGroup_iff.mp within
      exact Bool.eq_false_iff.mpr fun also => other (ofGroup_iff.mp also)
    rw [chunkGroup,embeddingGroup,chunks,embeddings]
    exact ⟨other_group apart ownChunks,other_group apart ownVectors⟩

theorem embed_derived (derived : Derived config now) {live : MemoryRow} (inside : live ∈ now.memories)
    (here : ofScope derivative.claim.key.scope derivative.memory live = true) (alive : live.live = true)
    (cut : split config live.record.body.text = .ok derivative.chunks)
    (count : derivative.vectors.length = derivative.chunks.length)
    (dims : ∀ vector ∈ derivative.vectors, vector.dims = derivative.model.identity.dims)
    (executed : commitEmbed scopeId derivative now = .ok next) : Derived config next := by
  obtain ⟨chunkRows,vectorRows,others⟩ := embed_groups executed count
  obtain ⟨guarded,-,is,ids,keys,widths⟩ := embed_ok executed
  obtain ⟨-,model,recorded,revised,identity,-⟩ := stageDerivativeCommitGuards_ok guarded
  have memories : next.memories = now.memories := by rw [is]; rfl
  have models : next.models = now.models := by rw [is]
  have unique := keys derived.keyed
  refine ⟨fun scope id revision => ?_,unique,ids derived.identified⟩
  by_cases own : scope = derivative.claim.key.scope ∧ id = derivative.memory ∧ revision = derivative.model.revision
  · obtain ⟨rfl,rfl,rfl⟩ := own
    rw [is,map_zip_fst _ count] at unique
    have numbered := split_range cut (ordinals_nodup unique)
    refine .inr ⟨derivative.chunks,⟨live,by rw [memories]; exact inside,here,alive,cut⟩,numbered,?_,?_,
      model,by rw [models]; exact recorded,revised,?_⟩
    · rw [chunkRows,List.map_map]
      rfl
    · rw [vectorRows,List.map_map,← numbered]
      exact map_zip_fst Chunk.ordinal count
    · intro row member
      rw [vectorRows] at member
      obtain ⟨pair,within,rfl⟩ := List.mem_map.mp member
      have wide := dims pair.2 (List.of_mem_zip within).2
      have same : (derivative.embeddingRow pair.1 pair.2).identity = model.identity := by
        rw [identity,Derivative.embeddingRow,wide]
      exact ⟨same,by rw [widths pair within,same]⟩
  · obtain ⟨sameChunks,sameVectors⟩ := others scope id revision own
    rcases derived.whole scope id revision with ⟨noChunks,noVectors⟩ | ⟨pieces,complete⟩
    · exact .inl ⟨sameChunks.trans noChunks,sameVectors.trans noVectors⟩
    · refine .inr ⟨pieces,complete.carry ?_ (by rw [models]; exact List.prefix_refl _) sameChunks sameVectors⟩
      intro memory there chosen lives
      exact ⟨memory,by rw [memories]; exact there,chosen,lives,rfl⟩

end

/-! ### Every transaction leaves the derivatives whole -/

theorem carried_still (memories : List MemoryRow) (scope : Scope) (id : MemoryId) : Carried memories memories scope id :=
  fun memory inside here alive => ⟨memory,inside,here,alive,rfl⟩

theorem life_derived {fingerprint : Memory → String} (derived : Derived config now) (basis : Basis next) (since : Since now next)
    {txn : Lifecycle.Txn} {target : Option ActiveEmbedding} (executed : commitLife fingerprint txn target now = .ok next) :
    Derived config next := by
  obtain ⟨holdings,committed,quiet | settles | sweeps⟩ := life_cases executed
  · obtain ⟨-,-,unswept,rfl⟩ := quiet
    refine derived.still (fun scope id => carried_of_live since.rows basis.unique ?_) since.models rfl rfl
    exact life_live committed (by rw [unswept]; rfl)
  · obtain ⟨provenance,scope,id,at',-,-,unswept,work⟩ := settles
    have alive : ∀ scope id, Live now.memories scope id → Live holdings.db.memories scope id :=
      fun scope id => life_live committed (by rw [unswept]; rfl)
    rcases stageTarget_ok work with ⟨_,-,-,rfl⟩ | ⟨-,rfl⟩
    · exact derived.still (fun scope id => carried_of_live since.rows basis.unique (alive scope id)) since.models rfl rfl
    · exact derived.still (fun scope id => carried_of_live since.rows basis.unique (alive scope id)) since.models rfl rfl
  · obtain ⟨scope,shells,-,-,swept,rfl⟩ := sweeps
    refine derived.delete (fun owner id _ => ofShells scope shells owner id) ?_ since.models rfl rfl
    intro owner id revision missed
    refine carried_of_live since.rows basis.unique ?_
    exact life_live committed (by rw [swept]; exact missed)

section
variable {fingerprint : Memory → String} {redigests : Bool} {scopeId : Scope → String}

theorem derived_keeps :
    Keeps (Pipeline.system fingerprint config redigests scopeId) (fun _ _ => True)
      (Pipeline.Stages fingerprint config redigests) (fun stock => Basis stock ∧ Derived config stock) Since := by
  refine basis_keeps.further ?_ ?_
  · exact ⟨fun scope id revision => .inl ⟨rfl,rfl⟩,List.nodup_nil,List.nodup_nil⟩
  intro history now txn next trail basis derived staged _ executed
  have base : Trail Basis Since history now := ⟨fun seen member => (trail.held seen member).1,trail.since,trail.ordered⟩
  obtain ⟨nextBasis,since⟩ := basis_keeps.move history now txn next base basis staged trivial executed
  cases staged with
  | life target staged => exact life_derived derived nextBasis since executed
  | redigest runs scope rows =>
    have alive : ∀ scope id, Live now.memories scope id → Live next.memories scope id := fun scope id => redigest_live executed
    obtain ⟨change,turned,rfl⟩ := redigest_ok executed
    exact derived.still (fun scope id => carried_of_live since.rows nextBasis.unique (alive scope id)) since.models rfl rfl
  | activate staged =>
    obtain ⟨models,committed,rest⟩ := bind_ok_iff.mp executed
    cases rest
    exact derived.still (carried_still _) since.models rfl rfl
  | embed provider time bound own held activeRead memoryRead processed =>
    obtain ⟨row,chunks,vectors,was,-,cut,-,count,dims,rfl⟩ := process_embed processed
    obtain ⟨guarded,-⟩ := embed_ok executed
    obtain ⟨⟨live,inside,here,alive⟩,-⟩ := stageDerivativeCommitGuards_ok guarded
    have id : live.id = row.record.id := by simpa [ofScope] using (Bool.and_eq_true_iff.mp here).2
    have text := read_text (trail.since _ memoryRead.mem_second) (trail.held _ memoryRead.mem_second).1 basis was inside id
      (live_of_embeddable alive)
    exact embed_derived derived inside here (live_of_embeddable alive) (by rw [text]; exact cut) count dims executed
  | completeEmpty provider time bound own held activeRead memoryRead processed =>
    obtain ⟨-,rfl⟩ := complete_ok executed
    exact derived.still (carried_still _) since.models rfl rfl
  | reconciled refusal bound own held memoryRead activeRead reconciled =>
    obtain ⟨-,rfl⟩ := complete_ok executed
    exact derived.still (carried_still _) since.models rfl rfl
  | reembed time bounded live read =>
    obtain ⟨work,rfl,-⟩ := reembed_ok executed
    exact derived.still (carried_still _) since.models rfl rfl
  | dropRevision activeRead totalRead embeddedRead modelsRead prepared =>
    obtain ⟨⟨stock,affected⟩,dropped,rest⟩ := bind_ok_iff.mp executed
    cases rest
    obtain ⟨-,-,rfl⟩ := drop_ok dropped
    exact derived.delete (fun owner _ at' => owner == _ && at' == _ && _) (fun scope id _ _ => carried_still _ scope id)
      since.models rfl rfl
  | upkeep attempts sameKey completesNothing =>
    cases executed
    exact derived.still (carried_still _) since.models rfl rfl

/-- In every state of a run the chunks and vectors of a memory at a revision are numbered
    alike from zero without a gap, and where there are any they are those of the memory's
    text and the revision's model. -/
theorem derivatives_whole {log : List (Pipeline.Txn × Stock)}
    (run : Run (Pipeline.system fingerprint config redigests scopeId) (fun _ _ => True) log) :
    ∀ stock ∈ (Pipeline.system fingerprint config redigests scopeId).states log,
      (∀ scope id revision, ∃ count,
        (chunkGroup stock scope id revision).map ChunkRow.ordinal = List.range count ∧
        (embeddingGroup stock scope id revision).map EmbeddingRow.ordinal = List.range count ∧
        (0 < count → ∃ memory model pieces,
          (∀ row, row ∈ stock.memories ∧ row.id = id ↔ row = memory) ∧ memory.scope = scope ∧
          (∀ row, row ∈ stock.models ∧ row.revision = revision ↔ row = model) ∧
          split config memory.record.body.text = .ok pieces ∧
          (chunkGroup stock scope id revision).map (fun row => (row.ordinal,row.byteStart,row.byteEnd)) =
            pieces.map (fun piece => (piece.ordinal,piece.byteStart,piece.byteEnd)) ∧
          ∀ row ∈ embeddingGroup stock scope id revision,
            row.identity = model.identity ∧ row.vector.length = model.identity.dims * 4)) ∧
      (stock.chunks.map ChunkRow.chunkId).Nodup := by
  intro stock inside
  obtain ⟨basis,derived⟩ := (run.trail Pipeline.stages_fit derived_keeps).held stock inside
  refine ⟨fun scope id revision => ?_,derived.identified⟩
  rcases derived.whole scope id revision with ⟨noChunks,noVectors⟩ | ⟨pieces,complete⟩
  · exact ⟨0,by rw [noChunks]; rfl,by rw [noVectors]; rfl,fun none' => absurd none' (lt_irrefl 0)⟩
  obtain ⟨memory,held,here,-,cut⟩ := complete.cut
  obtain ⟨model,recorded,rfl,identity⟩ := complete.model
  simp only [ofScope,Bool.and_eq_true,beq_iff_eq] at here
  obtain ⟨rfl,rfl⟩ := here
  have ordinals := congrArg (List.map Prod.fst) complete.ranges
  rw [List.map_map,List.map_map] at ordinals
  refine ⟨pieces.length,ordinals.trans complete.numbered,complete.vectors,fun _ => ⟨memory,model,pieces,fun row => ?_,rfl,
    fun row => ?_,cut,complete.ranges,identity⟩⟩
  · constructor
    · rintro ⟨there,same⟩
      exact List.inj_on_of_nodup_map basis.unique there held same
    · rintro rfl
      exact ⟨held,rfl⟩
  · constructor
    · rintro ⟨there,same⟩
      exact basis.registered.unique there recorded same
    · rintro rfl
      exact ⟨recorded,rfl⟩

/-- The ten bytes of a note are two chunks and two vectors of the model it was stored under. -/
theorem derivatives_whole_stored :
    (∃ pieces, split Pipeline.Sample.config "aisle seat" = .ok pieces ∧
      pieces.map (fun piece => (piece.ordinal,piece.byteStart,piece.byteEnd)) = [(0,0,8),(1,6,10)] ∧
      (chunkGroup (Pipeline.Sample.now Pipeline.Sample.stored) Claims.Sample.scope Store.Sample.noteId 1).map
        (fun row => (row.ordinal,row.byteStart,row.byteEnd)) =
          pieces.map (fun piece => (piece.ordinal,piece.byteStart,piece.byteEnd)) ∧
      ∀ row ∈ embeddingGroup (Pipeline.Sample.now Pipeline.Sample.stored) Claims.Sample.scope Store.Sample.noteId 1,
        row.identity = Pipeline.Sample.tiny ∧ row.vector.length = 8) ∧
    (embeddingGroup (Pipeline.Sample.now Pipeline.Sample.stored) Claims.Sample.scope Store.Sample.noteId 1).map
      EmbeddingRow.ordinal = [0,1] ∧
    ((Pipeline.Sample.now Pipeline.Sample.stored).chunks.map ChunkRow.chunkId).Nodup := by
  have whole := derivatives_whole (Pipeline.Sample.run_stored false) _ ((Pipeline.Sample.pipeline false).current_mem _)
  obtain ⟨count,numbered,-,rest⟩ := whole.1 Claims.Sample.scope Store.Sample.noteId 1
  have two : (chunkGroup (Pipeline.Sample.now Pipeline.Sample.stored) Claims.Sample.scope Store.Sample.noteId 1).map
      (fun row => (row.ordinal,row.byteStart,row.byteEnd)) = [(0,0,8),(1,6,10)] := by decide +kernel
  have several : 0 < count := by
    have length := congrArg List.length numbered
    have lengths := congrArg List.length two
    simp only [List.length_map,List.length_range,List.length_cons,List.length_nil] at length lengths
    exact length ▸ lengths ▸ Nat.succ_pos 1
  obtain ⟨memory,model,pieces,isMemory,-,isModel,cut,ranges,vectors⟩ := rest several
  obtain ⟨row,there,text⟩ : ∃ row, (row ∈ (Pipeline.Sample.now Pipeline.Sample.stored).memories ∧ row.id = Store.Sample.noteId) ∧
      row.record.body.text = "aisle seat" := ⟨_,⟨List.mem_cons_self,by decide +kernel⟩,by decide +kernel⟩
  obtain rfl := (isMemory row).mp there
  obtain rfl : Pipeline.Sample.tinyRow = model := (isModel _).mp ⟨by decide +kernel,rfl⟩
  exact ⟨⟨pieces,text ▸ cut,ranges.symm.trans two,ranges,vectors⟩,by decide +kernel,whole.2⟩

end

end

end Aicortex.DerivativeWholeness
