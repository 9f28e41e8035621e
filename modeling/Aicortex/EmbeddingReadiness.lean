import Aicortex.PipelineFacts
import Aicortex.CounterAccuracy

/-!
No embedding work is lost silently. A memory is written with its work; the work of the
active revision is completed only for an erased memory or together with its vectors,
however stale the view it is completed on; and a live memory without a vector shows in
the readiness warning. The warning counts the live memories by their counters, so it
holds as long as the counters do: a cascading erasure of a memory that names itself as
its parent counts it out twice.
-/

namespace Aicortex.EmbeddingReadiness
open Aicortex.Text Aicortex.CivilTime Aicortex.Memories Aicortex.Schema Aicortex.MemoryRepo Aicortex.Erasure
open Aicortex.Lifecycle Aicortex.EmbeddingTables Aicortex.ModelRegistry Aicortex.Chunking Aicortex.Pipeline
open Aicortex.CounterAccuracy
open Lib.Tables Lib.Outcome Lib.StaleRuns Lib.StaleRuns.System Lib.Tally
open Aicortex.Claims hiding Unit
set_option linter.unusedSimpArgs false

/-! ### Preflight -/

/-- Queue state surfaced by preflight and metrics. -/
structure QueueHealth where
  pending : Nat
  dead : Nat
  quarantined : Nat
  oldestPendingAgeSeconds : Option Nat
  deriving Repr, DecidableEq

/-- A row of the queue with its dead attempt and its memory, where there are any. -/
structure QueueRow where
  work : WorkRow
  attempt : Option AttemptRow
  memory : Option MemoryRow

/-- The unfinished and dead work of a scope, joined with what explains it. -/
def queueRows (stock : Stock) (scope : Scope) : List QueueRow :=
  (stock.work.filter (fun row => row.key.scope == scope && row.state != .done)).flatMap (fun row =>
    let memory := stock.memories.find? (ofScope scope row.key.memoryId)
    match stock.attempts.filter (fun attempt => attempt.key == row.key && attempt.attempt == row.attempt) with
    | [] => [⟨row,none,memory⟩]
    | attempts => attempts.map (fun attempt => ⟨row,some attempt,memory⟩))

def QueueRow.isQuarantined (row : QueueRow) : Bool :=
  row.attempt.any (fun attempt => attempt.errorClass == "quarantined") && row.memory.any (fun memory => memory.status == .quarantined)

def queueHealth (stock : Stock) (scope : Scope) (now : UnixSeconds) : QueueHealth :=
  let rows := queueRows stock scope
  let unfinished := rows.filter (fun row => row.work.state != .dead)
  { pending := unfinished.length
    dead := rows.countP (fun row => row.work.state == .dead && !row.isQuarantined)
    quarantined := rows.countP (fun row => row.work.state == .dead && row.isQuarantined)
    oldestPendingAgeSeconds := ((unfinished.map (·.work.createdAt)).min?).map (fun created => now - created) }

/-- Embedding state used by preflight and operator metrics. -/
structure EmbeddingPreflight where
  active : Option ModelRow
  queue : QueueHealth
  coverage : List Coverage
  liveMemories : Nat

namespace EmbeddingPreflight

/-- The active model, the queue, the coverage and the live total are separate reads. -/
def read (atActive atQueue atTotal atEmbedded atModels atLive : Stock) (scope : Scope) (now : UnixSeconds) :
    Except StoreError EmbeddingPreflight := do
  let covered ← Pipeline.coverage atTotal atEmbedded atModels scope
  let live ← liveMemoryTotal atLive.holdings scope
  .ok ⟨ModelRegistry.active atActive.models,queueHealth atQueue scope now,covered,live⟩

/-- Warning text when dead embedding work makes readiness degraded. -/
def readinessWarning (preflight : EmbeddingPreflight) : Option String :=
  if 0 < preflight.queue.dead then some "dead embedding work requires operator attention"
  else if 0 < preflight.liveMemories ∧ preflight.active = none then some "live memories have no active embedding model"
  else if preflight.active.any (fun active =>
      (preflight.coverage.find? (fun item => item.revision == active.revision)).all
        (fun item => decide (item.embedded < preflight.liveMemories))) then
    some "active embedding coverage is incomplete"
  else none

end EmbeddingPreflight

/-! ### The live total -/

section
variable {stock : Stock} {scope : Scope}

/-- The live memories of a scope as rows. -/
def liveRows (stock : Stock) (scope : Scope) : Nat := stock.memories.countP (fun row => row.scope == scope && embeddable row)

/-- Exact counters add up to the number of live memories. -/
theorem liveMemoryTotal_accurate (accurate : Accurate stock.holdings) (scope : Scope) :
    liveMemoryTotal stock.holdings scope = .ok (liveRows stock scope) := by
  have counted : ∀ kind status, stock.holdings.counters.read (scope,kind,status) = stock.memories.countP
      (fun row => (row.scope == scope && row.kind == kind) && decide (row.status = status)) := by
    intro kind status
    rw [accurate,tally_apply]
    refine congrArg Nat.cast (List.countP_congr fun row _ => ?_)
    simp [bucketOf,and_assoc]
  have turned : ∀ (kind : MemoryKind) (statuses : List StatusLabel), stock.memories.countP
      (fun row => (row.scope == scope && row.kind == kind) && decide (row.status ∈ statuses)) = stock.memories.countP
        (fun row => (row.scope == scope && decide (row.status ∈ statuses)) && decide (row.kind = kind)) := by
    intro kind statuses
    refine List.countP_congr fun row _ => ?_
    simp
    tauto
  have all : stock.memories.countP (fun row => (row.scope == scope && decide (row.status ∈ [.active,.superseded,.expired])) &&
      decide (row.kind ∈ [.observation,.fact,.preference,.decision,.task,.reference,.personNote,.correction])) =
        liveRows stock scope := by
    refine List.countP_congr fun row _ => ?_
    cases row.kind <;> cases status : row.status <;> simp [embeddable,status]
  unfold liveMemoryTotal
  simp only [counted,foldl_countP MemoryRow.status _ stock.memories (by decide : [StatusLabel.active,.superseded,.expired].Nodup),
    turned,foldl_countP MemoryRow.kind _ stock.memories (by decide :
      [MemoryKind.observation,.fact,.preference,.decision,.task,.reference,.personNote,.correction].Nodup),all]
  simp

/-- A live memory of the scope has no vector at the active revision, or there is no
    active model. -/
def Uncovered (stock : Stock) (scope : Scope) : Prop :=
  ∃ memory ∈ stock.memories, memory.scope = scope ∧ embeddable memory = true ∧
    ∀ model, active stock.models = some model → embedded stock scope memory.id model.revision = false

theorem embeddingCoverage_lt {revision : Nat} {memory : MemoryRow} (inside : memory ∈ stock.memories) (own : memory.scope = scope)
    (alive : embeddable memory = true) (lacks : embedded stock scope memory.id revision = false) :
    embeddingCoverage stock scope revision < liveRows stock scope := by
  obtain ⟨before,after,split⟩ := List.append_of_mem inside
  have fewer : ∀ rows : List MemoryRow, rows.countP (fun row => row.scope == scope && embeddable row &&
      embedded stock scope row.id revision) ≤ rows.countP (fun row => row.scope == scope && embeddable row) :=
    fun rows => List.countP_mono_left fun row _ chosen => (Bool.and_eq_true_iff.mp chosen).1
  have first := fewer before
  have rest := fewer after
  rw [embeddingCoverage,liveRows,split,List.countP_append,List.countP_append,List.countP_cons,List.countP_cons]
  simp only [own,alive,lacks,beq_self_eq_true,Bool.and_true,Bool.and_false,if_true,Bool.false_eq_true,if_false]
  omega

/-- With exact counters the warning is there whenever a live memory is not covered. -/
theorem readiness_uncovered (accurate : Accurate stock.holdings) (uncovered : Uncovered stock scope)
    (now : UnixSeconds) :
    ∃ preflight, EmbeddingPreflight.read stock stock stock stock stock stock scope now = .ok preflight ∧
      preflight.readinessWarning.isSome = true := by
  obtain ⟨memory,inside,own,alive,lacks⟩ := uncovered
  have total := liveMemoryTotal_accurate accurate scope
  have some' : 0 < liveRows stock scope := List.countP_pos_iff.mpr ⟨memory,inside,by simp [own,alive]⟩
  unfold EmbeddingPreflight.read Pipeline.coverage
  rw [total]
  refine ⟨_,rfl,?_⟩
  unfold EmbeddingPreflight.readinessWarning
  split_ifs with dead missing incomplete
  · rfl
  · rfl
  · rfl
  · exfalso
    cases current : active stock.models with
    | none => exact missing ⟨some',current⟩
    | some model =>
      refine incomplete ?_
      rw [current,Option.any_some]
      cases found : (stock.models.map (fun row => Coverage.mk row.revision (embeddingCoverage stock scope row.revision)
          (liveRows stock scope))).find? (fun item => item.revision == model.revision) with
      | none => rfl
      | some item =>
        obtain ⟨row,-,rfl⟩ := List.mem_map.mp (List.mem_of_find?_eq_some found)
        have same : row.revision = model.revision := by simpa using List.find?_some found
        rw [Option.all_some,decide_eq_true_eq]
        exact embeddingCoverage_lt inside own alive (by rw [same]; exact lacks model current)

end

/-! ### Completion -/

def Erased (stock : Stock) (id : MemoryId) : Prop := ∃ memory ∈ stock.memories, memory.id = id ∧ memory.status = .erased

def Done (stock : Stock) (key : WorkKey) : Prop := ∃ row ∈ stock.work, row.key = key ∧ row.state = .done

theorem erased_of_dead {row : MemoryRow} (dead : row.live = false) : row.status = .erased := by
  simpa [MemoryRow.live] using dead

theorem dead_of_erased {row : MemoryRow} (erased : row.status = .erased) : row.live = false := by
  simp [MemoryRow.live,erased]

section
variable {fingerprint : Memory → String} {config : ChunkConfig} {redigests : Bool} {scopeId : Scope → String}
variable {history : List Stock} {now next : Stock} {claim : Pipeline.Claim} {model current : ModelRow}
variable {claimedAt atActive atMemory : Stock}

/-- While the revision of a claim is the newest, whoever read the registry after the claim
    was held read its model as the active one. -/
theorem current_model (trail : Trail Basis Since history now) (basis : Basis now) (bound : Bound history model)
    (own : claim.key.revision = model.revision) (held : Held claimedAt claim) (atClaim : claimedAt ∈ history)
    (atRead : atActive ∈ history) (order : Since claimedAt atActive) (newest : now.models.length = claim.key.revision)
    (is : active atActive.models = some current) :
    claim.key.modelId = model.identity.modelId ∧ sameModelRevision current model = true := by
  obtain ⟨seen,inside,wasActive⟩ := bound
  obtain ⟨work,queued,holds⟩ := held
  have key : work.key = claim.key := Pipeline.Claim.holds_key holds
  obtain ⟨-,recorded,known,revision,modelId⟩ := (trail.held _ atClaim).worked work queued
  rw [key] at revision modelId
  obtain ⟨there,latest⟩ := (trail.held _ atRead).registered.active_iff.mp is
  obtain ⟨wasThere,-⟩ := (trail.held _ inside).registered.active_iff.mp wasActive
  have bounded := ((trail.held _ atClaim).registered.revision_le known).2
  have first := order.models.length_le
  have second := (trail.since _ atRead).models.length_le
  have same : current.revision = claim.key.revision := by omega
  obtain ⟨one,oneIn,oneRevision,oneIdentity,-⟩ := (trail.since _ atRead).models.kept there
  obtain ⟨two,twoIn,twoRevision,twoIdentity,-⟩ := (trail.since _ inside).models.kept wasThere
  obtain ⟨three,threeIn,threeRevision,threeIdentity,-⟩ := (trail.since _ atClaim).models.kept known
  have firstTwo : one = two := basis.registered.unique oneIn twoIn (by omega)
  have lastTwo : three = two := basis.registered.unique threeIn twoIn (by omega)
  subst firstTwo lastTwo
  rw [sameModelRevision_iff]
  exact ⟨by rw [← modelId,← threeIdentity,twoIdentity],by rw [← oneIdentity,twoIdentity],by omega⟩

/-- A claim of the newest revision that is completed with nothing stored is of an erased
    memory. -/
theorem idle_erased (trail : Trail Basis Since history now) (basis : Basis now) (bound : Bound history model)
    (own : claim.key.revision = model.revision) (held : Held claimedAt claim) (atClaim : claimedAt ∈ history)
    (activeRead : atActive ∈ history) (activeOrder : Since claimedAt atActive) (memoryRead : atMemory ∈ history)
    (memoryOrder : Since claimedAt atMemory) (newest : now.models.length = claim.key.revision)
    (idle : Idle model claim atActive atMemory) : Erased now claim.key.memoryId := by
  rcases idle with ⟨current,is,other⟩ | gone | ⟨row,found,erased⟩
  · exact (other ⟨own,current_model trail basis bound own held atClaim activeRead activeOrder newest is⟩).elim
  · obtain ⟨work,queued,holds⟩ := held
    have key : work.key = claim.key := Pipeline.Claim.holds_key holds
    have placed := ((trail.held _ atClaim).worked work queued).1
    rw [key] at placed
    obtain ⟨row,inside,here⟩ := memoryOrder.rows.placed placed
    have missing := List.find?_eq_none.mp gone row inside
    exact (missing here).elim
  · obtain ⟨inside,here⟩ := embeddingMemory_some found
    obtain ⟨later,there,sameId,kept⟩ := (trail.since _ memoryRead).rows row inside
    have same := kept.erased (dead_of_erased erased)
    subst same
    simp only [ofScope,Bool.and_eq_true,beq_iff_eq] at here
    exact ⟨later,there,here.2,erased⟩

theorem completed_key {key : WorkKey} {work : List WorkRow}
    (done : ∃ row ∈ updateWhere claim.holds (fun row => { row with state := .done }) work, row.key = key ∧ row.state = .done)
    (still : ¬∃ row ∈ work, row.key = key ∧ row.state = .done) : claim.key = key := by
  obtain ⟨row,member,named,finished⟩ := done
  rcases mem_updateWhere.mp member with ⟨old,-⟩ | ⟨old,-,holds,rfl⟩
  · exact (still ⟨row,old,named,finished⟩).elim
  · exact (Pipeline.Claim.holds_key holds).symm.trans named

/-- A worker's commit leaves a vector of its memory. -/
theorem embed_stored {provider : List Chunk → Except StoreError (List Provider.Vector)} {time : UnixSeconds} {derivative : Derivative}
    (read : Basis atMemory) (own : claim.key.revision = model.revision)
    (processed : process config model provider claim atActive atMemory time = .ok (.embed derivative))
    (executed : commitEmbed scopeId derivative now = .ok next) :
    embedded next claim.key.scope claim.key.memoryId claim.key.revision = true := by
  obtain ⟨row,chunks,vectors,inside,here,-,some',count,-,rfl⟩ := process_embed processed
  obtain ⟨-,-,rfl,-⟩ := embed_ok executed
  simp only [ofScope,Bool.and_eq_true,beq_iff_eq] at here
  cases chunks with
  | nil => exact (some' rfl).elim
  | cons chunk rest =>
    cases vectors with
    | nil => simp at count
    | cons vector others =>
      refine List.any_eq_true.mpr ⟨_,List.mem_append_right _ (List.mem_cons_self),?_⟩
      simp [Derivative.embeddingRow,read.named row inside,here.2,own]

/-- Staging work finishes none. -/
theorem done_of_stageWork {key staged : WorkKey} {at' : UnixSeconds} {work : List WorkRow}
    (done : ∃ row ∈ stageWork staged at' work, row.key = key ∧ row.state = .done) :
    ∃ row ∈ work, row.key = key ∧ row.state = .done := by
  obtain ⟨row,member,named,finished⟩ := done
  rcases mem_stageWork member with old | ⟨-,pending⟩
  · exact ⟨row,old,named,finished⟩
  · rw [pending] at finished
    cases finished

theorem life_done {key : WorkKey} {txn : Lifecycle.Txn} {target : Option ActiveEmbedding}
    (executed : commitLife fingerprint txn target now = .ok next) (done : Done next key) : Done now key := by
  obtain ⟨holdings,-,⟨-,-,-,rfl⟩ | ⟨provenance,scope,id,at',-,-,-,work⟩ | ⟨scope,shells,-,-,-,rfl⟩⟩ := life_cases executed
  · exact done
  · rcases stageTarget_ok work with ⟨_,-,-,rfl⟩ | ⟨-,rfl⟩
    · exact done_of_stageWork done
    · exact done
  · obtain ⟨row,member,rest⟩ := done
    exact ⟨row,(mem_deleteWhere.mp member).1,rest⟩

/-- Work of the newest revision becomes completed only for an erased memory or an
    embedded one. -/
theorem completes (trail : Trail Basis Since history now) (basis : Basis now) {txn : Pipeline.Txn}
    (staged : Pipeline.Stages fingerprint config redigests history txn)
    (executed : Pipeline.commit fingerprint scopeId now txn = .ok next) {key : WorkKey} (done : Done next key)
    (still : ¬Done now key) (newest : now.models.length = key.revision) :
    Erased next key.memoryId ∨ embedded next key.scope key.memoryId key.revision = true := by
  cases staged with
  | life target staged => exact (still (life_done executed done)).elim
  | redigest runs scope rows =>
    obtain ⟨change,-,rfl⟩ := redigest_ok executed
    exact (still done).elim
  | activate staged =>
    obtain ⟨models,-,rest⟩ := bind_ok_iff.mp executed
    cases rest
    exact (still done).elim
  | embed provider time bound own held activeRead memoryRead processed =>
    have stored := embed_stored (trail.held _ memoryRead.mem_second) own processed executed
    obtain ⟨row,chunks,vectors,-,-,-,-,-,-,rfl⟩ := process_embed processed
    obtain ⟨-,-,rfl,-⟩ := embed_ok executed
    have same := completed_key done still
    subst same
    exact .inr stored
  | completeEmpty provider time bound own held activeRead memoryRead processed =>
    obtain ⟨-,rfl⟩ := complete_ok executed
    have same := completed_key done still
    subst same
    have first := trail.since_in_order Since.still activeRead
    have second := trail.since_in_order Since.still memoryRead
    have gone := idle_erased trail basis bound own held activeRead.mem_first activeRead.mem_second first memoryRead.mem_second
      (Since.onward _ _ _ first second) newest (process_completeEmpty processed)
    exact .inl gone
  | reconciled refusal bound own held memoryRead activeRead reconciled =>
    obtain ⟨-,rfl⟩ := complete_ok executed
    have same := completed_key done still
    subst same
    have first := trail.since_in_order Since.still memoryRead
    have second := trail.since_in_order Since.still activeRead
    have gone := idle_erased trail basis bound own held memoryRead.mem_first activeRead.mem_second
      (Since.onward _ _ _ first second) memoryRead.mem_second first newest (reconcile_completeEmpty reconciled)
    exact .inl gone
  | reembed time bounded live read =>
    obtain ⟨work,rfl,-,origin⟩ := reembed_ok executed
    obtain ⟨row,member,named,finished⟩ := done
    rcases origin row member with old | ⟨pending,-⟩
    · exact (still ⟨row,old,named,finished⟩).elim
    · rw [pending] at finished
      cases finished
  | dropRevision activeRead totalRead embeddedRead modelsRead prepared =>
    obtain ⟨⟨stock,affected⟩,dropped,rest⟩ := bind_ok_iff.mp executed
    cases rest
    obtain ⟨-,-,rfl⟩ := drop_ok dropped
    exact (still done).elim
  | upkeep attempts sameKey completesNothing =>
    cases executed
    obtain ⟨row,member,named,finished⟩ := done
    obtain ⟨old,inside,rfl⟩ := List.mem_map.mp member
    exact (still ⟨old,inside,(sameKey old).symm.trans named,completesNothing old finished⟩).elim

/-! ### Staging -/

/-- A memory written while a revision is active is written with its work. -/
theorem insert_staged {txn : Lifecycle.Txn} {target : Option ActiveEmbedding} {memory : Memory} (registered : Registered now.models)
    (executed : commitLife fingerprint txn target now = .ok next) (inserted : insertedBy txn = some memory)
    (is : active now.models = some model) :
    ∃ row ∈ next.work, row.key = ⟨memory.scope,memory.id,model.revision,model.identity.modelId⟩ := by
  obtain ⟨holdings,-,⟨nothing,-⟩ | ⟨provenance,scope,id,at',-,staged,-,work⟩ | ⟨scope,shells,nothing,-⟩⟩ := life_cases executed
  · rw [inserted] at nothing
    cases nothing
  · have owner : scope = memory.scope ∧ id = memory.id := by
      have same := inserted_staged inserted
      rw [stagedOwner,staged] at same
      exact Prod.mk.inj (Option.some.inj same)
    rcases stageTarget_ok work with ⟨row,recorded,flagged,rfl⟩ | ⟨none',rfl⟩
    · obtain ⟨there,latest⟩ := registered.active_iff.mp is
      rw [registered.newest row recorded,decide_eq_true_eq] at flagged
      have same : row = model := registered.unique recorded there (flagged.trans latest.symm)
      subst same
      obtain ⟨rfl,rfl⟩ := owner
      exact stageWork_there _ _ _
    · obtain ⟨there,latest⟩ := registered.active_iff.mp is
      have flagged := registered.newest model there
      rw [none' model there,latest] at flagged
      simp at flagged
  · rw [inserted] at nothing
    cases nothing

/-! ### Runs -/

/-- A cascading erasure is not of a memory that names itself as its parent. -/
def Spares (now : Stock) : Pipeline.Txn → Prop
  | .life (.erase prepared) _ =>
    prepared.cascade = true → derives now.holdings.db prepared.scope prepared.target prepared.target = false
  | _ => True

theorem spares_moves {txn : Lifecycle.Txn} {target : Option ActiveEmbedding} (spares : Spares now (.life txn target)) :
    (Lifecycle.system fingerprint).MeetAll SparesItself now.holdings txn.moves := by
  cases txn with
  | erase prepared => exact ⟨spares,fun _ _ => trivial⟩
  | capture settling => exact meetAll_of_forall (captures_spare settling) _
  | correct settling supersession =>
    refine meetAll_of_forall (fun move member holdings => ?_) _
    rcases List.mem_append.mp member with first | last
    · exact captures_spare settling move first holdings
    · rw [List.mem_singleton.mp last]
      exact trivial
  | insert => exact ⟨trivial,fun _ _ => trivial⟩
  | supersede => exact ⟨trivial,fun _ _ => trivial⟩
  | setValidUntil => exact ⟨trivial,fun _ _ => trivial⟩
  | prepareExpiry => exact ⟨trivial,fun _ _ => trivial⟩
  | expire => exact ⟨trivial,fun _ _ => trivial⟩
  | startScope => exact ⟨trivial,fun _ _ => trivial⟩
  | drain => exact ⟨trivial,fun _ _ => trivial⟩
  | deliver => exact ⟨trivial,fun _ _ => trivial⟩

/-- The holdings of the pipeline are those of a memory's life. -/
theorem accurate_lifted :
    Keeps (Pipeline.system fingerprint config false scopeId) Spares (Pipeline.Stages fingerprint config false)
      (fun stock => (Tidy stock.holdings ∧ RecordAgreement.AllAligned stock.holdings) ∧ Accurate stock.holdings)
      (fun seen now => Lifecycle.Since seen.holdings now.holdings) := by
  refine (@accurate_keeps fingerprint).lift Lifecycle.fits rfl ?_
  intro history now txn next staged spares executed
  cases staged with
  | life target staged =>
    obtain ⟨holdings,committed,⟨-,-,-,rfl⟩ | ⟨provenance,scope,id,at',-,-,-,work⟩ | ⟨scope,shells,-,-,-,rfl⟩⟩ := life_cases executed
    · exact .inr ⟨_,staged,spares_moves spares,committed⟩
    · rcases stageTarget_ok work with ⟨_,-,-,rfl⟩ | ⟨-,rfl⟩
      · exact .inr ⟨_,staged,spares_moves spares,committed⟩
      · exact .inr ⟨_,staged,spares_moves spares,committed⟩
    · exact .inr ⟨_,staged,spares_moves spares,committed⟩
  | redigest runs => cases runs
  | activate staged =>
    obtain ⟨models,-,rest⟩ := bind_ok_iff.mp executed
    cases rest
    exact .inl rfl
  | embed provider time bound own held activeRead memoryRead processed =>
    obtain ⟨-,-,rfl,-⟩ := embed_ok executed
    exact .inl rfl
  | completeEmpty provider time bound own held activeRead memoryRead processed =>
    obtain ⟨-,rfl⟩ := complete_ok executed
    exact .inl rfl
  | reconciled refusal bound own held memoryRead activeRead reconciled =>
    obtain ⟨-,rfl⟩ := complete_ok executed
    exact .inl rfl
  | reembed time bounded live read =>
    obtain ⟨work,rfl,-⟩ := reembed_ok executed
    exact .inl rfl
  | dropRevision activeRead totalRead embeddedRead modelsRead prepared =>
    obtain ⟨⟨stock,affected⟩,dropped,rest⟩ := bind_ok_iff.mp executed
    cases rest
    obtain ⟨-,-,rfl⟩ := drop_ok dropped
    exact .inl rfl
  | upkeep attempts sameKey completesNothing =>
    cases executed
    exact .inl rfl

/-- No embedding work is lost over a log of the pipeline. -/
structure WorkKept (system : System Stock Pipeline.Txn Pipeline.Txn StoreError) (log : List (Pipeline.Txn × Stock)) : Prop where
  -- a memory written while a model was active has its work until it is erased
  staged : ∀ newer older txn target next memory model, log = newer ++ (.life txn target,next) :: older →
    insertedBy txn = some memory → active (system.current older).models = some model →
    ∀ state ∈ newer.map Prod.snd ++ [next], Erased state memory.id ∨
      ∃ row ∈ state.work, row.key = ⟨memory.scope,memory.id,model.revision,model.identity.modelId⟩
  -- work of the active revision is completed for an erased or an embedded memory
  completed : ∀ newer older txn next key model, log = newer ++ (txn,next) :: older → Done next key →
    ¬Done (system.current older) key → active (system.current older).models = some model → model.revision = key.revision →
    Erased next key.memoryId ∨ embedded next key.scope key.memoryId key.revision = true
  -- a live memory that is not covered shows in the warning
  warned : ∀ state ∈ system.states log, ∀ scope now, Uncovered state scope →
    ∃ preflight, EmbeddingPreflight.read state state state state state state scope now = .ok preflight ∧
      preflight.readinessWarning.isSome = true

/-- No embedding work is lost over a run that erases no self-derived memory with its
    derivatives. -/
theorem work_kept {log : List (Pipeline.Txn × Stock)} (run : Run (Pipeline.system fingerprint config false scopeId) Spares log) :
    WorkKept (Pipeline.system fingerprint config false scopeId) log := by
  have free := run.free
  refine ⟨?_,?_,?_⟩
  · rintro newer older txn target next memory model rfl inserted is state member
    obtain ⟨runBefore,-,-,committed⟩ := free.before
    have executed := commit_single rfl committed
    have basis := runBefore.holds Pipeline.stages_fit basis_keeps
    obtain ⟨row,queued,key⟩ := insert_staged basis.registered executed inserted is
    have since : Pipeline.Since next state := by
      rcases List.mem_append.mp member with later | same
      · exact free.after Pipeline.stages_fit basis_keeps state later
      · rw [List.mem_singleton.mp same]
        exact Since.still next
    rcases since.work row queued with ⟨later,inside,same⟩ | ⟨gone,inside,named,dead⟩
    · exact .inr ⟨later,inside,same.trans key⟩
    · rw [key] at named
      exact .inl ⟨gone,inside,named,erased_of_dead dead⟩
  · rintro newer older txn next key model rfl done still is revision
    obtain ⟨runBefore,staged,-,committed⟩ := free.before
    have executed := commit_single rfl committed
    have trail := runBefore.trail Pipeline.stages_fit basis_keeps
    have basis := runBefore.holds Pipeline.stages_fit basis_keeps
    have newest := (basis.registered.active_iff.mp is).2
    exact completes trail basis staged executed done still (newest.symm.trans revision)
  · intro state inside scope now uncovered
    have accurate := ((run.trail Pipeline.stages_fit accurate_lifted).held state inside).2
    exact readiness_uncovered accurate uncovered now

end

namespace Sample
open Claims.Sample hiding secondId
open Store.Sample Lifecycle.Sample Pipeline.Sample

/-- The embedded note is erased with its derivatives. -/
def swept : List (Pipeline.Txn × Stock) := Pipeline.Sample.erased stored noteId true

theorem run_swept : Run (pipeline false) Spares swept := by
  have noted : Run (pipeline false) Spares prepared :=
    run_claimedWork (Pipeline.Sample.run_captured (run_activated .start fun _ => trivial) (noted_admitted aisle_passes _ _ _ _)
      fun _ _ => trivial) fun _ => trivial
  have worked : Run (pipeline false) Spares stored := run_worked noted (by decide +kernel) (by decide +kernel) fun _ => trivial
  refine Pipeline.Sample.run_erased worked ?_
  intro prepared staged _
  obtain ⟨rightScope,rightTarget⟩ := prepareErase_target staged
  rw [rightScope,rightTarget]
  decide +kernel

/-- A note that names itself as its parent is erased with its derivatives, and another is
    captured; there is no model. -/
def drifted : List (Pipeline.Txn × Stock) :=
  Pipeline.Sample.captured (Pipeline.Sample.erased (Pipeline.Sample.captured [] (noted noteId "aisle seat" .evidence [noteId] 1)) noteId true)
    (noted secondId "window seat" .evidence [] 1)

theorem run_drifted : Run (pipeline false) (fun _ _ => True) drifted :=
  Pipeline.Sample.run_captured (Pipeline.Sample.run_erased (Pipeline.Sample.run_captured .start
    (noted_admitted aisle_passes _ _ _ _) fun _ _ => trivial) fun _ _ => trivial) (noted_admitted window_passes _ _ _ _)
      fun _ _ => trivial

theorem drifted_uncovered : Uncovered (Pipeline.Sample.now drifted) scope := by
  have live : ∃ memory ∈ (Pipeline.Sample.now drifted).memories, memory.scope = scope ∧ embeddable memory = true := by
    decide +kernel
  have none' : active (Pipeline.Sample.now drifted).models = none := by decide +kernel
  obtain ⟨memory,inside,own,alive⟩ := live
  refine ⟨memory,inside,own,alive,fun model is => ?_⟩
  rw [none'] at is
  cases is

theorem drifted_quiet :
    (EmbeddingPreflight.read (Pipeline.Sample.now drifted) (Pipeline.Sample.now drifted) (Pipeline.Sample.now drifted)
      (Pipeline.Sample.now drifted) (Pipeline.Sample.now drifted) (Pipeline.Sample.now drifted) scope 30).toOption.map
        EmbeddingPreflight.readinessWarning = some none := by
  decide +kernel

end Sample

/-- The counter of the live memories stands one short, and the live note without a model
    shows nowhere. -/
theorem drifted_silent :
    Run (Pipeline.Sample.pipeline false) (fun _ _ => True) Sample.drifted ∧
      ¬WorkKept (Pipeline.Sample.pipeline false) Sample.drifted := by
  refine ⟨Sample.run_drifted,fun kept => ?_⟩
  obtain ⟨preflight,read,some'⟩ :=
    kept.warned _ ((Pipeline.Sample.pipeline false).current_mem Sample.drifted) _ 30 Sample.drifted_uncovered
  have quiet := Sample.drifted_quiet
  rw [Pipeline.Sample.now,read] at quiet
  have silent : preflight.readinessWarning = none := Option.some.inj quiet
  rw [silent] at some'
  cases some'

theorem work_kept_swept :
    Sample.swept.length = 5 ∧ WorkKept (Pipeline.Sample.pipeline false) Sample.swept :=
  ⟨by decide +kernel,work_kept Sample.run_swept⟩

end Aicortex.EmbeddingReadiness
