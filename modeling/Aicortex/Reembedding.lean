import Aicortex.EmbeddingReadiness
import Aicortex.Lib.Keyset

/-!
Re-embedding. A pass stages work for a bounded page of the live memories that lack a vector
of the active model, and answers with where the next one starts. Passes repeated until one
answers that there is no more leave no memory of the scope without its work, whatever is
captured, erased, embedded or dropped between them.
-/

namespace Aicortex.Reembedding
open Aicortex.Text Aicortex.CivilTime Aicortex.Memories Aicortex.Schema Aicortex.MemoryRepo Aicortex.EmbeddingTables
open Aicortex.ModelRegistry Aicortex.Chunking Aicortex.Pipeline Aicortex.EmbeddingReadiness
open Lib.Tables Lib.Outcome Lib.StaleRuns Lib.StaleRuns.System
open Aicortex.Claims hiding Unit
set_option linter.unusedSimpArgs false

/-! ### One pass -/

/-- What a pass answers: the work it added, where the next one starts, and whether it has to. -/
structure ReembeddingBatch where
  staged : Nat
  cursor : Option MemoryId
  more : Bool
  deriving DecidableEq

/-- The memories a pass reads, one more than it may stage. -/
def page (scope : Scope) (model : ModelRow) (cursor : Option MemoryId) (limit : Nat) (seen : Stock) : List MemoryId :=
  memoriesMissingEmbedding seen scope model.revision cursor (limit + 1)

def selected (scope : Scope) (model : ModelRow) (cursor : Option MemoryId) (limit : Nat) (seen : Stock) : List MemoryId :=
  (page scope model cursor limit seen).take limit

def activeEmbedding (model : ModelRow) : ActiveEmbedding := ⟨model.identity.modelId,model.revision⟩

/-- One pass, from what was read to what is committed. -/
def reembedUnderLease (scope : Scope) (model : ModelRow) (cursor : Option MemoryId) (limit : Nat) (now : UnixSeconds)
    (seen stock : Stock) : Except StoreError (Stock × ReembeddingBatch) := do
  let ids := selected scope model cursor limit seen
  let next ← ids.foldlM (stageLiveEmbedding scope (activeEmbedding model) now) stock
  .ok (next,⟨next.work.length - stock.work.length,ids.getLast?.or cursor,
    decide (limit < (page scope model cursor limit seen).length)⟩)

def stageReembeddingBatch (scope : Scope) (model : ModelRow) (cursor : Option MemoryId) (limit : Nat) (now : UnixSeconds)
    (seen stock : Stock) : Except CallError (Stock × ReembeddingBatch) :=
  if limit = 0 ∨ maxReembedBatch < limit then
    .error (.config s!"re-embedding batch limit must be in 1..={maxReembedBatch}")
  else if model.active = false then
    .error (.store (.validation "re-embedding requires an active target model revision"))
  else (reembedUnderLease scope model cursor limit now seen stock).mapError .store

/-- Where an operator stands between the passes over a scope. -/
inductive Progress where
  | between (cursor : Option MemoryId)
  | reading (cursor : Option MemoryId) (limit : Nat) (seen : Stock)
  | done

/-- The log after a pass; one that selects nothing commits nothing. -/
def passed (scope : Scope) (model : ModelRow) (ids : List MemoryId) (now : UnixSeconds) (next : Stock)
    (log : List (Txn × Stock)) : List (Txn × Stock) :=
  if ids = [] then log else (.reembed scope (activeEmbedding model) ids now,next) :: log

def after (batch : ReembeddingBatch) : Progress := if batch.more then .between batch.cursor else .done

/-- Passes over a scope from `start` on, with the states they read: each takes the cursor of
    the one before it, one that fails is repeated, and anything may be committed meanwhile. -/
inductive Sweep (system : System Stock Txn Txn StoreError) (scope : Scope) (model : ModelRow) (start : List (Txn × Stock)) :
    List (Txn × Stock) → List Stock → Progress → Prop
  | start : Sweep system scope model start start [] (.between none)
  | wait {log : List (Txn × Stock)} {reads : List Stock} {progress : Progress}
      (sweep : Sweep system scope model start log reads progress) (entry : Txn × Stock) :
      Sweep system scope model start (entry :: log) reads progress
  | read {log : List (Txn × Stock)} {reads : List Stock} {cursor : Option MemoryId}
      (sweep : Sweep system scope model start log reads (.between cursor)) (limit : Nat) :
      Sweep system scope model start log (system.current log :: reads) (.reading cursor limit (system.current log))
  | answer {log : List (Txn × Stock)} {reads : List Stock} {cursor : Option MemoryId} {limit : Nat} {seen next : Stock}
      {batch : ReembeddingBatch} (sweep : Sweep system scope model start log reads (.reading cursor limit seen))
      (now : UnixSeconds)
      (answers : stageReembeddingBatch scope model cursor limit now seen (system.current log) = .ok (next,batch)) :
      Sweep system scope model start (passed scope model (selected scope model cursor limit seen) now next log) reads (after batch)
  | fail {log : List (Txn × Stock)} {reads : List Stock} {cursor : Option MemoryId} {limit : Nat} {seen : Stock}
      (sweep : Sweep system scope model start log reads (.reading cursor limit seen)) :
      Sweep system scope model start log reads (.between cursor)

/-! ### Pages -/

/-- The live memories of the scope that have no vector of the model. -/
def missing (seen : Stock) (scope : Scope) (revision : Nat) : List MemoryId :=
  (seen.memories.filter (fun row => row.scope == scope && embeddable row && !embedded seen scope row.id revision)).map (·.id)

section
variable {seen : Stock} {scope : Scope} {model : ModelRow} {cursor : Option MemoryId} {limit revision : Nat} {id : MemoryId}

/-- The order of the memories, with room below for no cursor. -/
def bound (id : MemoryId) : WithBot MemoryId := id

def floor : Option MemoryId → WithBot MemoryId
  | none => ⊥
  | some last => last

theorem floor_lt (cursor : Option MemoryId) (id : MemoryId) :
    floor cursor < bound id ↔ cursor.all (fun last => decide (last < id)) = true := by
  cases cursor with
  | none => simp [floor,bound]
  | some last => simp [floor,bound]

theorem missing_page (size : Nat) :
    memoriesMissingEmbedding seen scope revision cursor size =
      Lib.Keyset.page bound size (floor cursor) (missing seen scope revision) := by
  have sorted : (fun left right : MemoryId => bound left ≤ bound right) = fun left right => left ≤ right := by
    funext left right
    exact propext WithBot.coe_le_coe
  have rows : (missing seen scope revision).filter (fun id => decide (floor cursor < bound id)) =
      (seen.memories.filter (fun row => row.scope == scope && embeddable row && cursor.all (fun last => decide (last < row.id)) &&
        !embedded seen scope row.id revision)).map (·.id) := by
    rw [missing,List.filter_map,List.filter_filter]
    congr 1
    refine List.filter_congr fun row _ => ?_
    rw [Bool.eq_iff_iff]
    simp only [Function.comp,Bool.and_eq_true,decide_eq_true_eq,floor_lt]
    tauto
  unfold memoriesMissingEmbedding Lib.Keyset.page Lib.Keyset.following
  rw [rows]
  congr 1
  simp only [sorted]

theorem selected_page :
    selected scope model cursor limit seen =
      Lib.Keyset.page bound limit (floor cursor) (missing seen scope model.revision) := by
  rw [selected,page,missing_page,Lib.Keyset.page,Lib.Keyset.page,List.take_take,Nat.min_eq_left (Nat.le_succ limit)]

theorem mem_missing : id ∈ missing seen scope revision ↔
    ∃ row ∈ seen.memories, row.id = id ∧ row.scope = scope ∧ embeddable row = true ∧ embedded seen scope id revision = false := by
  unfold missing
  rw [List.mem_map]
  constructor
  · rintro ⟨row,member,rfl⟩
    simp only [List.mem_filter,Bool.and_eq_true,beq_iff_eq,Bool.not_eq_true'] at member
    exact ⟨row,member.1,rfl,member.2.1.1,member.2.1.2,member.2.2⟩
  · rintro ⟨row,inside,rfl,own,live,lacks⟩
    exact ⟨row,List.mem_filter.mpr ⟨inside,by simp [own,live,lacks]⟩,rfl⟩

theorem missing_unique (unique : UniqueBy MemoryRow.id seen.memories) : UniqueBy bound (missing seen scope revision) := by
  have ids : (missing seen scope revision).Nodup := unique.sublist (List.filter_sublist.map _)
  exact ids.map fun _ _ same => WithBot.coe_injective same

/-- A memory beyond the cursor is selected, or the next pass starts below it. -/
theorem selected_reaches (unique : UniqueBy MemoryRow.id seen.memories) (lacks : id ∈ missing seen scope model.revision)
    (beyond : floor cursor < bound id) :
    id ∈ selected scope model cursor limit seen ∨ (limit < (page scope model cursor limit seen).length ∧
      floor ((selected scope model cursor limit seen).getLast?.or cursor) < bound id) := by
  by_cases here : id ∈ selected scope model cursor limit seen
  · exact .inl here
  refine .inr ⟨?_,?_⟩
  · by_contra few
    have few : (page scope model cursor limit seen).length ≤ limit := Nat.le_of_not_lt few
    refine here ?_
    rw [selected,List.take_of_length_le few,page,missing_page,Lib.Keyset.page_short]
    · exact Lib.Keyset.mem_following.mpr ⟨lacks,beyond⟩
    · rw [← missing_page]
      exact Nat.lt_succ_of_le few
  · cases ends : (selected scope model cursor limit seen).getLast? with
    | none => exact beyond
    | some final =>
      rw [selected_page] at ends here
      exact Lib.Keyset.page_before (missing_unique unique) ends lacks beyond here

end

/-! ### Work for the memories that were met -/

section
variable {fingerprint : Memory → String} {config : ChunkConfig} {redigests : Bool} {scopeId : Scope → String}
variable {now next seen : Stock} {scope : Scope} {model : ModelRow} {id : MemoryId}

/-- A pass leaves work for each memory it selected. -/
theorem reembed_stages {active : ActiveEmbedding} {ids : List MemoryId} {at' : UnixSeconds}
    (executed : ids.foldlM (stageLiveEmbedding scope active at') now = .ok next) :
    ∀ id ∈ ids, ∃ row ∈ next.work, row.key = ⟨scope,id,active.revision,active.modelId⟩ := by
  induction ids generalizing now with
  | nil => simp
  | cons first rest ih =>
    obtain ⟨mid,staged,further⟩ := bind_ok_iff.mp executed
    intro id member
    rcases List.mem_cons.mp member with rfl | later
    · obtain ⟨_,-,work⟩ := bind_ok_iff.mp staged
      obtain ⟨-,rfl⟩ := stageActiveEmbedding_ok work
      obtain ⟨work,rfl,stays,-⟩ := reembed_ok further
      obtain ⟨row,inside,key⟩ := stageWork_there ⟨scope,id,active.revision,active.modelId⟩ at' now.work
      exact ⟨row,stays row inside,key⟩
    · exact ih further id later

/-- A memory has its work, or is erased. -/
def Covered (now : Stock) (scope : Scope) (model : ModelRow) (id : MemoryId) : Prop :=
  (∃ row ∈ now.work, row.key = ⟨scope,id,model.revision,model.identity.modelId⟩) ∨
    ∃ memory ∈ now.memories, memory.id = id ∧ memory.live = false

theorem Covered.since (covered : Covered seen scope model id) (since : Since seen now) : Covered now scope model id := by
  rcases covered with ⟨row,inside,key⟩ | ⟨memory,inside,named,dead⟩
  · rcases since.work row inside with ⟨later,there,same⟩ | ⟨gone,there,named,dead⟩
    · exact .inl ⟨later,there,same.trans key⟩
    · rw [key] at named
      exact .inr ⟨gone,there,named,dead⟩
  · obtain ⟨later,there,sameId,kept⟩ := since.rows memory inside
    exact .inr ⟨later,there,sameId.trans named,by rw [kept.erased dead]; exact dead⟩

/-- How far a memory that every pass could have met is accounted for. -/
def Accounts (now : Stock) (scope : Scope) (model : ModelRow) (id : MemoryId) : Progress → Prop
  | .between cursor => floor cursor < bound id ∨ Covered now scope model id
  | .reading cursor _ seen =>
    (floor cursor < bound id ∧ id ∈ missing seen scope model.revision ∧ UniqueBy MemoryRow.id seen.memories) ∨
      Covered now scope model id
  | .done => Covered now scope model id

theorem Accounts.since {progress : Progress} (accounts : Accounts now scope model id progress) (since : Since now next) :
    Accounts next scope model id progress := by
  cases progress with
  | between cursor => exact accounts.imp_right fun covered => covered.since since
  | reading cursor limit seen => exact accounts.imp_right fun covered => covered.since since
  | done => exact Covered.since accounts since

theorem stage_ok {cursor : Option MemoryId} {limit : Nat} {at' : UnixSeconds} {batch : ReembeddingBatch}
    (answers : stageReembeddingBatch scope model cursor limit at' seen now = .ok (next,batch)) :
    (selected scope model cursor limit seen).foldlM (stageLiveEmbedding scope (activeEmbedding model) at') now = .ok next ∧
      batch.cursor = (selected scope model cursor limit seen).getLast?.or cursor ∧
      batch.more = decide (limit < (page scope model cursor limit seen).length) := by
  unfold stageReembeddingBatch at answers
  split_ifs at answers
  obtain ⟨_,staged,same⟩ := bind_ok_iff.mp (mapError_ok_iff.mp answers)
  cases same
  exact ⟨staged,rfl,rfl⟩

/-- One pass goes on to the next, or has met all there is. -/
theorem answer_accounts {cursor : Option MemoryId} {limit : Nat} {at' : UnixSeconds} {batch : ReembeddingBatch}
    (accounts : Accounts now scope model id (.reading cursor limit seen)) (since : Since now next)
    (answers : stageReembeddingBatch scope model cursor limit at' seen now = .ok (next,batch)) :
    Accounts next scope model id (after batch) := by
  obtain ⟨staged,last,more⟩ := stage_ok answers
  have arrived : Covered next scope model id → Accounts next scope model id (after batch) := by
    intro covered
    unfold after
    split_ifs
    · exact .inr covered
    · exact covered
  rcases accounts with ⟨beyond,lacks,unique⟩ | covered
  · rcases selected_reaches unique lacks beyond with here | ⟨further,ahead⟩
    · exact arrived (.inl (reembed_stages staged id here))
    · rw [after,more,decide_eq_true further,last]
      exact .inl ahead
  · exact arrived (covered.since since)

/-! ### What lies between two states of a run -/

/-- Every vector has work behind it. -/
def Backed (stock : Stock) : Prop :=
  ∀ row ∈ stock.embeddings, ∃ work ∈ stock.work, work.key.scope = row.scope ∧ work.key.memoryId = row.memoryId ∧
    work.key.revision = row.revision

/-- Vectors that stay keep the work behind them where it stays. -/
theorem Backed.kept (backed : Backed now) (same : ∀ row ∈ next.embeddings, row ∈ now.embeddings)
    (stays : ∀ work ∈ now.work, ∃ later ∈ next.work, later.key = work.key) : Backed next := by
  intro row inside
  obtain ⟨work,held,named⟩ := backed row (same row inside)
  obtain ⟨later,there,key⟩ := stays work held
  exact ⟨later,there,by rw [key]; exact named⟩

theorem life_backed {txn : Lifecycle.Txn} {target : Option ActiveEmbedding} (backed : Backed now)
    (executed : commitLife fingerprint txn target now = .ok next) : Backed next := by
  obtain ⟨holdings,-,⟨-,-,-,rfl⟩ | ⟨provenance,owner,written,at',-,-,-,work⟩ | ⟨owner,shells,-,-,-,rfl⟩⟩ := life_cases executed
  · exact backed
  · rcases stageTarget_ok work with ⟨_,-,-,rfl⟩ | ⟨-,rfl⟩
    · exact backed.kept (fun _ => id) fun work held => ⟨work,stageWork_stays held,rfl⟩
    · exact backed
  · -- what is swept of the work is swept of the vectors
    intro row inside
    obtain ⟨old,spared⟩ := mem_deleteWhere.mp inside
    obtain ⟨work,held,owner',memory,revision⟩ := backed row old
    refine ⟨work,mem_deleteWhere.mpr ⟨held,?_⟩,owner',memory,revision⟩
    rw [owner',memory]
    exact spared

theorem embed_backed {claim : Pipeline.Claim} {atActive atMemory : Stock} {derivative : Derivative}
    {provider : List Chunk → Except StoreError (List Provider.Vector)} {time : UnixSeconds} (backed : Backed now)
    (read : Basis atMemory) (own : claim.key.revision = model.revision)
    (processed : process config model provider claim atActive atMemory time = .ok (.embed derivative))
    (executed : commitEmbed scopeId derivative now = .ok next) : Backed next := by
  obtain ⟨row,chunks,vectors,inside,here,-,-,-,-,rfl⟩ := process_embed processed
  obtain ⟨-,⟨held,among,holds⟩,rfl,-⟩ := embed_ok executed
  simp only [ofScope,Bool.and_eq_true,beq_iff_eq] at here
  intro embedding member
  rcases List.mem_append.mp member with old | new
  · obtain ⟨work,was,named⟩ := backed embedding (mem_deleteWhere.mp old).1
    obtain ⟨later,there,key⟩ := @updated_stays claim _ _ was
    exact ⟨later,there,by rw [key]; exact named⟩
  · obtain ⟨pair,-,rfl⟩ := List.mem_map.mp new
    obtain ⟨later,there,key⟩ := @updated_stays claim _ _ among
    have name := Pipeline.Claim.holds_key holds
    refine ⟨later,there,?_⟩
    rw [key,name]
    exact ⟨rfl,(here.2.symm.trans (read.named row inside).symm),own⟩

theorem backed_keeps : Keeps (Pipeline.system fingerprint config redigests scopeId) (fun _ _ => True)
    (Pipeline.Stages fingerprint config redigests) (fun stock => Basis stock ∧ Backed stock) Since := by
  refine basis_keeps.further (fun _ member => by cases member) ?_
  intro history now txn next trail _ backed staged _ executed
  cases staged with
  | life target staged => exact life_backed backed executed
  | redigest runs owner rows =>
    obtain ⟨change,-,rfl⟩ := redigest_ok executed
    exact backed
  | activate staged =>
    obtain ⟨models,-,rest⟩ := bind_ok_iff.mp executed
    cases rest
    exact backed
  | embed provider time bound own held activeRead memoryRead processed =>
    exact embed_backed backed (trail.held _ memoryRead.mem_second).1 own processed executed
  | completeEmpty provider time bound own held activeRead memoryRead processed =>
    obtain ⟨-,rfl⟩ := complete_ok executed
    exact backed.kept (fun _ => id) fun work held => updated_stays held
  | reconciled refusal bound own held memoryRead activeRead reconciled =>
    obtain ⟨-,rfl⟩ := complete_ok executed
    exact backed.kept (fun _ => id) fun work held => updated_stays held
  | reembed time bounded live read =>
    obtain ⟨work,rfl,stays,-⟩ := reembed_ok executed
    exact backed.kept (fun _ => id) fun row held => ⟨row,stays row held,rfl⟩
  | dropRevision activeRead totalRead embeddedRead modelsRead prepared =>
    obtain ⟨⟨stock,affected⟩,dropped,rest⟩ := bind_ok_iff.mp executed
    cases rest
    obtain ⟨-,-,rfl⟩ := drop_ok dropped
    exact backed.kept (fun _ member => (mem_deleteWhere.mp member).1) fun row held => ⟨row,held,rfl⟩
  | upkeep attempts sameKey completesNothing =>
    cases executed
    exact backed.kept (fun _ => id) fun row held => ⟨_,List.mem_map_of_mem held,sameKey row⟩

/-- A model that is active at both ends is active between them. -/
theorem active_between {first middle last : List ModelRow} (one : Onward first middle) (two : Onward middle last)
    (registered : Registered middle) (firstHeld : Registered first) (lastHeld : Registered last)
    (begins : active first = some model) (ends : active last = some model) : active middle = some model := by
  obtain ⟨inside,newest⟩ := firstHeld.active_iff.mp begins
  obtain ⟨-,latest⟩ := lastHeld.active_iff.mp ends
  have lower := one.length_le
  have upper := two.length_le
  obtain ⟨kept,there,revision,identity,seen⟩ := one.kept inside
  have top : kept.revision = middle.length := by omega
  have flag := registered.newest kept there
  rw [top,decide_eq_true rfl] at flag
  have was := firstHeld.newest model inside
  rw [newest,decide_eq_true rfl] at was
  have same : kept = model := by
    cases kept
    cases model
    simp_all
  exact same ▸ registered.active_iff.mpr ⟨there,top⟩

theorem grown_of_added {added further : Memory → Prop} {before after : List MemoryRow} (grown : Grown fingerprint added before after)
    (wider : ∀ memory, added memory → further memory) : Grown fingerprint further before after := by
  refine ⟨grown.stays,fun row inside => ?_,grown.unique⟩
  rcases grown.origin row inside with old | ⟨fresh,memory,written,named,kept⟩
  · exact .inl old
  · exact .inr ⟨fresh,memory,wider memory written,named,kept⟩

/-- The memories of a later state: those of the one before, and the one that was written. -/
theorem commit_grown {history : List Stock} {txn : Txn} (staged : Pipeline.Stages fingerprint config redigests history txn)
    (executed : Pipeline.commit fingerprint scopeId now txn = .ok next) :
    Grown fingerprint (fun memory => ∃ life target, txn = .life life target ∧ insertedBy life = some memory)
      now.memories next.memories := by
  have same : Grown fingerprint (fun memory => ∃ life target, txn = .life life target ∧ insertedBy life = some memory)
      now.memories now.memories := (Turned.still _).grown
  cases staged with
  | @life txn target staged =>
    obtain ⟨holdings,committed,written⟩ := life_cases executed
    have grown : Grown fingerprint (fun memory => ∃ life target', Txn.life txn target = .life life target' ∧
        insertedBy life = some memory) now.memories holdings.db.memories :=
      grown_of_added (life_grown committed) fun memory written => ⟨txn,target,rfl,written⟩
    rcases written with ⟨-,-,-,rfl⟩ | ⟨provenance,owner,id,at',-,-,-,work⟩ | ⟨owner,shells,-,-,-,rfl⟩
    · exact grown
    · rcases stageTarget_ok work with ⟨_,-,-,rfl⟩ | ⟨-,rfl⟩
      · exact grown
      · exact grown
    · exact grown
  | redigest runs owner rows =>
    obtain ⟨change,turned,rfl⟩ := redigest_ok executed
    exact Turned.grown ⟨change,rfl,fun row member => (turned row member).1⟩
  | activate staged =>
    obtain ⟨models,-,rest⟩ := bind_ok_iff.mp executed
    cases rest
    exact same
  | embed provider time bound own held activeRead memoryRead processed =>
    obtain ⟨-,-,rfl,-⟩ := embed_ok executed
    exact same
  | completeEmpty provider time bound own held activeRead memoryRead processed =>
    obtain ⟨-,rfl⟩ := complete_ok executed
    exact same
  | reconciled refusal bound own held memoryRead activeRead reconciled =>
    obtain ⟨-,rfl⟩ := complete_ok executed
    exact same
  | reembed time bounded live read =>
    obtain ⟨work,rfl,-⟩ := reembed_ok executed
    exact same
  | dropRevision activeRead totalRead embeddedRead modelsRead prepared =>
    obtain ⟨⟨stock,affected⟩,dropped,rest⟩ := bind_ok_iff.mp executed
    cases rest
    obtain ⟨-,-,rfl⟩ := drop_ok dropped
    exact same
  | upkeep attempts sameKey completesNothing =>
    cases executed
    exact same

/-! ### Whole sweeps -/

variable {start log : List (Txn × Stock)} {reads : List Stock} {progress : Progress}

theorem run_whole (run : Run (Pipeline.system fingerprint config redigests scopeId) (fun _ _ => True) log) :
    Trail (fun stock => Basis stock ∧ Backed stock) Since
      ((Pipeline.system fingerprint config redigests scopeId).states log)
      ((Pipeline.system fingerprint config redigests scopeId).current log) :=
  run.trail Pipeline.stages_fit backed_keeps

/-- A state goes on to the one after it. -/
theorem run_next {entry : Txn × Stock}
    (run : Run (Pipeline.system fingerprint config redigests scopeId) (fun _ _ => True) (entry :: log)) :
    Since ((Pipeline.system fingerprint config redigests scopeId).current log) entry.2 :=
  (run_whole run).since _ (List.mem_cons_of_mem _ (current_mem _ log))

/-- What the passes read are states of the run from the start of the sweep on. -/
theorem sweep_reads (run : Run (Pipeline.system fingerprint config redigests scopeId) (fun _ _ => True) log)
    (sweep : Sweep (Pipeline.system fingerprint config redigests scopeId) scope model start log reads progress) :
    (∃ newer, log = newer ++ start) ∧ ∀ seen ∈ reads,
      seen ∈ (Pipeline.system fingerprint config redigests scopeId).states log ∧
        Since ((Pipeline.system fingerprint config redigests scopeId).current start) seen := by
  induction sweep with
  | start => exact ⟨⟨[],rfl⟩,nofun⟩
  | wait sweep entry ih =>
    cases run with
    | step run staged meet committed =>
      obtain ⟨⟨newer,is⟩,known⟩ := ih run
      exact ⟨⟨_ :: newer,by rw [is]; rfl⟩,fun seen member => ⟨List.mem_cons_of_mem _ (known seen member).1,(known seen member).2⟩⟩
  | @read log reads cursor sweep limit ih =>
    obtain ⟨⟨newer,is⟩,known⟩ := ih run
    refine ⟨⟨newer,is⟩,fun seen member => ?_⟩
    rcases List.mem_cons.mp member with rfl | before
    · refine ⟨current_mem _ log,(run_whole run).since _ ?_⟩
      rw [is,states_append]
      exact List.mem_append_right _ (current_mem _ start)
    · exact known seen before
  | @answer log reads cursor limit seen next batch sweep at' answers ih =>
    unfold passed at run ⊢
    split_ifs at run ⊢ with nothing
    · exact ih run
    · cases run with
      | step run staged meet committed =>
        obtain ⟨⟨newer,is⟩,known⟩ := ih run
        exact ⟨⟨_ :: newer,by rw [is]; rfl⟩,fun seen member => ⟨List.mem_cons_of_mem _ (known seen member).1,(known seen member).2⟩⟩
  | fail sweep ih => exact ih run

/-- A memory that every pass could have met is accounted for. -/
theorem sweep_accounts (run : Run (Pipeline.system fingerprint config redigests scopeId) (fun _ _ => True) log)
    (sweep : Sweep (Pipeline.system fingerprint config redigests scopeId) scope model start log reads progress)
    (lacks : ∀ seen ∈ reads, id ∈ missing seen scope model.revision) :
    Accounts ((Pipeline.system fingerprint config redigests scopeId).current log) scope model id progress := by
  induction sweep with
  | start => exact .inl (WithBot.bot_lt_coe id)
  | wait sweep entry ih =>
    have onward := run_next run
    cases run with
    | step run staged meet committed => exact (ih run lacks).since onward
  | @read log reads cursor sweep limit ih =>
    have unique := ((run_whole run).held _ (current_mem _ log)).1.unique
    rcases ih run (fun seen member => lacks seen (List.mem_cons_of_mem _ member)) with beyond | covered
    · exact .inl ⟨beyond,lacks _ List.mem_cons_self,unique⟩
    · exact .inr covered
  | @answer log reads cursor limit seen next batch sweep at' answers ih =>
    unfold passed at run ⊢
    split_ifs at run ⊢ with nothing
    · have same : (Pipeline.system fingerprint config redigests scopeId).current log = next := by
        have staged := (stage_ok answers).1
        rw [nothing] at staged
        exact Except.ok.inj staged
      have ends := answer_accounts (ih run lacks) (by rw [same]; exact Since.still next) answers
      rw [same]
      exact ends
    · have onward := run_next run
      cases run with
      | step run staged meet committed => exact answer_accounts (ih run lacks) onward answers
  | @fail log reads cursor limit seen sweep ih =>
    rcases ih run lacks with ⟨beyond,-,-⟩ | covered
    · exact .inl beyond
    · exact .inr covered

/-- A memory of a later state was there, or was written meanwhile. -/
theorem written_since {newer : List (Txn × Stock)} {row : MemoryRow}
    (run : Run (Pipeline.system fingerprint config redigests scopeId) (fun _ _ => True) (newer ++ start))
    (inside : row ∈ ((Pipeline.system fingerprint config redigests scopeId).current (newer ++ start)).memories) :
    (∃ old ∈ ((Pipeline.system fingerprint config redigests scopeId).current start).memories, old.id = row.id) ∨
      ∃ later earlier life target next memory, newer = later ++ (.life life target,next) :: earlier ∧
        insertedBy life = some memory ∧ memory.id = row.id ∧ memory.scope = row.scope := by
  induction newer generalizing row with
  | nil => exact .inl ⟨row,inside,rfl⟩
  | cons entry newer ih =>
    cases run with
    | @step _ txn next run staged meet committed =>
      have grown := commit_grown staged (commit_single rfl committed)
      rcases grown.origin row inside with ⟨old,was,same,kept⟩ | ⟨-,memory,⟨life,target,rfl,written⟩,named,kept⟩
      · rcases ih run was with ⟨first,there,named⟩ | ⟨later,earlier,life,target,next',memory,rfl,written,named,owner⟩
        · exact .inl ⟨first,there,named.trans same.symm⟩
        · exact .inr ⟨_ :: later,earlier,life,target,next',memory,rfl,written,named.trans same.symm,owner.trans kept.scope.symm⟩
      · exact .inr ⟨[],newer,life,target,next,memory,rfl,written,named.symm,kept.scope.symm⟩

/-- A memory that was there at the start of the sweep. -/
theorem stood_covered (run : Run (Pipeline.system fingerprint config redigests scopeId) (fun _ _ => True) log)
    (activated : active ((Pipeline.system fingerprint config redigests scopeId).current start).models = some model)
    (still : active ((Pipeline.system fingerprint config redigests scopeId).current log).models = some model)
    (sweep : Sweep (Pipeline.system fingerprint config redigests scopeId) scope model start log reads .done)
    {row old : MemoryRow} (inside : row ∈ ((Pipeline.system fingerprint config redigests scopeId).current log).memories)
    (own : row.scope = scope) (stood : old ∈ ((Pipeline.system fingerprint config redigests scopeId).current start).memories)
    (named : old.id = row.id) (alive : row.status ≠ .erased)
    (admitted : ∀ seen ∈ reads, ∀ old ∈ seen.memories, old.id = row.id → old.status ≠ .quarantined) :
    Covered ((Pipeline.system fingerprint config redigests scopeId).current log) scope model row.id := by
  have trail := run_whole run
  have basis := (trail.held _ (current_mem _ log)).1
  obtain ⟨⟨newer,is⟩,known⟩ := sweep_reads run sweep
  have began : (Pipeline.system fingerprint config redigests scopeId).current start ∈
      (Pipeline.system fingerprint config redigests scopeId).states log := by
    rw [is,states_append]
    exact List.mem_append_right _ (current_mem _ start)
  -- at every read the row was there, live and admitted
  have met : ∀ seen ∈ reads, ∃ there ∈ seen.memories, there.id = row.id ∧ there.scope = scope ∧ embeddable there = true := by
    intro seen member
    obtain ⟨among,since⟩ := known seen member
    obtain ⟨there,placed,sameId,-⟩ := since.rows old stood
    have name : there.id = row.id := sameId.trans named
    obtain ⟨last,lastIn,lastId,kept⟩ := (trail.since seen among).rows there placed
    have same : last = row := basis.unique.eq_of_key lastIn inside (lastId.trans name)
    subst same
    have living : there.status ≠ .erased := by
      intro gone
      have frozen := kept.erased (dead_of_erased gone)
      rw [frozen] at alive
      exact alive gone
    exact ⟨there,placed,name,kept.scope.symm.trans own,by
      simp [embeddable,living,admitted seen member there placed name]⟩
  by_cases lacking : ∀ seen ∈ reads, row.id ∈ missing seen scope model.revision
  · exact sweep_accounts run sweep lacking
  · -- a vector that a pass found has its work behind it
    push Not at lacking
    obtain ⟨seen,member,found⟩ := lacking
    obtain ⟨among,since⟩ := known seen member
    obtain ⟨seenBasis,backed⟩ := trail.held seen among
    obtain ⟨there,placed,name,owner,live⟩ := met seen member
    have has : embedded seen scope row.id model.revision = true := by
      by_contra lacks
      exact found (mem_missing.mpr ⟨there,placed,name,owner,live,Bool.eq_false_iff.mpr lacks⟩)
    obtain ⟨vector,stored,matching⟩ := List.any_eq_true.mp has
    simp only [Bool.and_eq_true,beq_iff_eq] at matching
    obtain ⟨work,held,ofScope',ofMemory,ofRevision⟩ := backed vector stored
    obtain ⟨-,recorded,among',revision,modelId⟩ := seenBasis.worked work held
    have current := active_between since.models ((trail.since seen among).models) seenBasis.registered
      (trail.held _ began).1.registered basis.registered activated still
    have same : recorded = model := seenBasis.registered.unique among' (seenBasis.registered.active_iff.mp current).1
      (revision.trans (ofRevision.trans matching.2))
    subst same
    refine Covered.since (.inl ⟨work,held,?_⟩) (trail.since seen among)
    cases key : work.key
    simp only [key] at ofScope' ofMemory ofRevision modelId
    rw [ofScope',ofMemory,ofRevision,← modelId,matching.1.1,matching.1.2,matching.2]

/-- When a sweep that started under the active model has met all there is, and the model is
    still the active one, every memory of the scope has its work for the model, is erased, or
    was in quarantine when a pass read it: those that were there, those captured meanwhile,
    and those whose vectors a pass found, which may have been dropped since. -/
theorem reembedded_whole (run : Run (Pipeline.system fingerprint config redigests scopeId) (fun _ _ => True) log)
    (activated : active ((Pipeline.system fingerprint config redigests scopeId).current start).models = some model)
    (still : active ((Pipeline.system fingerprint config redigests scopeId).current log).models = some model)
    (sweep : Sweep (Pipeline.system fingerprint config redigests scopeId) scope model start log reads .done) :
    ∀ row ∈ ((Pipeline.system fingerprint config redigests scopeId).current log).memories, row.scope = scope →
      row.status = .erased ∨
      (∃ work ∈ ((Pipeline.system fingerprint config redigests scopeId).current log).work,
        work.key = ⟨scope,row.id,model.revision,model.identity.modelId⟩) ∨
      ∃ seen ∈ reads, ∃ old ∈ seen.memories, old.id = row.id ∧ old.status = .quarantined := by
  intro row inside own
  by_cases erased : row.status = .erased
  · exact .inl erased
  have trail := run_whole run
  have basis := (trail.held _ (current_mem _ log)).1
  have living : Covered ((Pipeline.system fingerprint config redigests scopeId).current log) scope model row.id →
      ∃ work ∈ ((Pipeline.system fingerprint config redigests scopeId).current log).work,
        work.key = ⟨scope,row.id,model.revision,model.identity.modelId⟩ := by
    rintro (work | ⟨memory,there,same,dead⟩)
    · exact work
    · have is : memory = row := basis.unique.eq_of_key there inside same
      subst is
      exact absurd (erased_of_dead dead) erased
  obtain ⟨⟨newer,is⟩,-⟩ := sweep_reads run sweep
  rcases written_since (is ▸ run) (is ▸ inside) with ⟨old,stood,named⟩ | ⟨later,earlier,life,target,next,memory,split,written,named,owner⟩
  · by_cases admitted : ∀ seen ∈ reads, ∀ old ∈ seen.memories, old.id = row.id → old.status ≠ .quarantined
    · exact .inr (.inl (living (stood_covered run activated still sweep inside own stood named erased admitted)))
    · push Not at admitted
      exact .inr (.inr admitted)
  · -- it was captured under the model
    refine .inr (.inl (living ?_))
    have joined : log = later ++ (.life life target,next) :: (earlier ++ start) := by rw [is,split]; simp
    have among : ∀ older newer, log = newer ++ older → (Pipeline.system fingerprint config redigests scopeId).current older ∈
        (Pipeline.system fingerprint config redigests scopeId).states log := by
      intro older newer is
      rw [is,states_append]
      exact List.mem_append_right _ (current_mem _ older)
    have middle := among (earlier ++ start) (later ++ [(.life life target,next)]) (by rw [joined]; simp)
    have before := (joined ▸ run).before
    have runBefore := before.1
    have onward := (run_whole runBefore).since ((Pipeline.system fingerprint config redigests scopeId).current start) (by
      rw [states_append]
      exact List.mem_append_right _ (current_mem _ start))
    have began := among start newer is
    have current := active_between onward.models (trail.since _ middle).models (trail.held _ middle).1.registered
      (trail.held _ began).1.registered basis.registered activated still
    obtain ⟨-,-,-,committed⟩ := before
    have executed := commit_single rfl committed
    obtain ⟨work,held,key⟩ := insert_staged (trail.held _ middle).1.registered executed written current
    have nextIn := among ((.life life target,next) :: (earlier ++ start)) later joined
    refine Covered.since (.inl ⟨work,held,?_⟩) (trail.since next nextIn)
    rw [key,named,owner,own]

end

/-! ### A sweep over a note captured before there was a model -/

namespace Sample
open Claims.Sample Store.Sample Lifecycle.Sample Pipeline.Sample

/-- A note is captured, and a model is activated after it. -/
def begun : List (Txn × Stock) := activated (captured [] (noted noteId "aisle seat" .evidence [] 1)) tiny

theorem run_begun : Run (pipeline false) (fun _ _ => True) begun :=
  run_activated (run_captured .start (noted_admitted aisle_passes _ _ _ _) fun _ _ => trivial) fun _ => trivial

/-- The pass stages the one piece of work, and there is no more. -/
theorem begun_answers : ∃ next, stageReembeddingBatch scope tinyRow none 10 18 (now begun) (now begun) =
    .ok (next,⟨1,some noteId,false⟩) := by
  have answer : (stageReembeddingBatch scope tinyRow none 10 18 (now begun) (now begun)).toOption.map Prod.snd =
      some ⟨1,some noteId,false⟩ := by
    decide +kernel
  cases staged : stageReembeddingBatch scope tinyRow none 10 18 (now begun) (now begun) with
  | error refusal =>
    rw [staged] at answer
    cases answer
  | ok pair =>
    rw [staged] at answer
    obtain ⟨next,batch⟩ := pair
    cases answer
    exact ⟨next,rfl⟩

/-- The note that no capture staged work for has it after the sweep. -/
theorem reembedded_whole_begun : ∃ log, Run (pipeline false) (fun _ _ => True) log ∧ log.length = begun.length + 1 ∧
    ∀ row ∈ (now log).memories, row.scope = scope → row.status = .erased ∨
      (∃ work ∈ (now log).work, work.key = ⟨scope,row.id,tinyRow.revision,tinyRow.identity.modelId⟩) ∨
      ∃ old ∈ (now begun).memories, old.id = row.id ∧ old.status = .quarantined := by
  obtain ⟨next,answers⟩ := begun_answers
  have some' : selected scope tinyRow none 10 (now begun) ≠ [] := by decide +kernel
  have sweep : Sweep (pipeline false) scope tinyRow begun
      (passed scope tinyRow (selected scope tinyRow none 10 (now begun)) 18 next begun) [now begun] .done :=
    (Sweep.start.read 10).answer 18 answers
  have logged : passed scope tinyRow (selected scope tinyRow none 10 (now begun)) 18 next begun =
      (.reembed scope (activeEmbedding tinyRow) (selected scope tinyRow none 10 (now begun)) 18,next) :: begun := if_neg some'
  rw [logged] at sweep
  have run : Run (pipeline false) (fun _ _ => True)
      ((.reembed scope (activeEmbedding tinyRow) (selected scope tinyRow none 10 (now begun)) 18,next) :: begun) :=
    run_begun.step (.reembed 18 ⟨by decide,by decide⟩ rfl ((pipeline false).current_mem begun))
      (meetAll_of_forall (fun _ _ _ => trivial) _) (bind_ok_iff.mpr ⟨next,(stage_ok answers).1,rfl⟩)
  have activated : active (now begun).models = some tinyRow := by decide +kernel
  have still : active next.models = some tinyRow := by
    obtain ⟨work,rfl,-⟩ := reembed_ok (stage_ok answers).1
    exact activated
  refine ⟨_,run,rfl,fun row inside own => ?_⟩
  rcases reembedded_whole run activated still sweep row inside own with erased | work | ⟨seen,member,old,there,named,held⟩
  · exact .inl erased
  · exact .inr (.inl work)
  · cases List.mem_singleton.mp member
    exact .inr (.inr ⟨old,there,named,held⟩)

end Sample

end Aicortex.Reembedding
