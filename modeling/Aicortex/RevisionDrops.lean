import Aicortex.PipelineFacts

/-!
Dropping a revision never loses coverage. What the call read first may be gone as it
commits, so the transaction asks again: every live memory of the scope has a vector at
the active revision, and the dropped one is recorded and not active. A revision that is
not active never is again, and workers write at the active one only.
-/

namespace Aicortex.RevisionDrops
open Aicortex.Text Aicortex.CivilTime Aicortex.Memories Aicortex.Schema Aicortex.MemoryRepo Aicortex.Erasure
open Aicortex.Lifecycle Aicortex.EmbeddingTables Aicortex.ModelRegistry Aicortex.Chunking Aicortex.Pipeline
open Lib.Tables Lib.Outcome Lib.StaleRuns Lib.StaleRuns.System
open Aicortex.Claims hiding Unit
set_option linter.unusedSimpArgs false

/-! ### Revisions that were replaced -/

/-- Nothing is added at a revision that was already replaced. -/
def Closed (seen now : Stock) : Prop :=
  ∀ revision < seen.models.length,
    (∀ row ∈ now.embeddings, row.revision = revision → row ∈ seen.embeddings) ∧
    ∀ row ∈ now.chunks, row.revision = revision → row ∈ seen.chunks

theorem Closed.of_subset {seen now : Stock} (embeddings : ∀ row ∈ now.embeddings, row ∈ seen.embeddings)
    (chunks : ∀ row ∈ now.chunks, row ∈ seen.chunks) : Closed seen now :=
  fun _ _ => ⟨fun row member _ => embeddings row member,fun row member _ => chunks row member⟩

theorem Closed.still (stock : Stock) : Closed stock stock := Closed.of_subset (fun _ member => member) (fun _ member => member)

theorem Closed.onward (first second third : Stock) (since : Since first second) (one : Closed first second)
    (two : Closed second third) : Closed first third := by
  intro revision replaced
  have later : revision < second.models.length := lt_of_lt_of_le replaced since.models.length_le
  refine ⟨fun row member is => ?_,fun row member is => ?_⟩
  · exact (one revision replaced).1 row ((two revision later).1 row member is) is
  · exact (one revision replaced).2 row ((two revision later).2 row member is) is

section
variable {fingerprint : Memory → String} {config : ChunkConfig} {redigests : Bool} {scopeId : Scope → String}
variable {now next : Stock}

theorem life_closed {txn : Lifecycle.Txn} {target : Option ActiveEmbedding}
    (executed : commitLife fingerprint txn target now = .ok next) : Closed now next := by
  obtain ⟨holdings,-,⟨-,-,-,rfl⟩ | ⟨provenance,scope,id,at',-,-,-,work⟩ | ⟨scope,shells,-,-,-,rfl⟩⟩ := life_cases executed
  · exact Closed.of_subset (fun _ member => member) (fun _ member => member)
  · rcases stageTarget_ok work with ⟨_,-,-,rfl⟩ | ⟨-,rfl⟩
    · exact Closed.of_subset (fun _ member => member) (fun _ member => member)
    · exact Closed.of_subset (fun _ member => member) (fun _ member => member)
  · exact Closed.of_subset (fun _ member => (mem_deleteWhere.mp member).1) (fun _ member => (mem_deleteWhere.mp member).1)

/-- A worker writes at the active revision, which is the newest. -/
theorem embed_closed (registered : Registered now.models) {derivative : Derivative}
    (executed : commitEmbed scopeId derivative now = .ok next) : Closed now next := by
  obtain ⟨guarded,-,rfl,-⟩ := embed_ok executed
  obtain ⟨-,model,recorded,revised,-,active⟩ := stageDerivativeCommitGuards_ok guarded
  rw [registered.newest model recorded,decide_eq_true_eq] at active
  intro revision replaced
  refine ⟨fun row member is => ?_,fun row member is => ?_⟩
  · rcases List.mem_append.mp member with old | new
    · exact (mem_deleteWhere.mp old).1
    · obtain ⟨pair,-,rfl⟩ := List.mem_map.mp new
      have newest : derivative.model.revision = revision := is
      omega
  · rcases List.mem_append.mp member with old | new
    · exact (mem_deleteWhere.mp old).1
    · obtain ⟨pair,-,rfl⟩ := List.mem_map.mp new
      have newest : derivative.model.revision = revision := is
      omega

theorem closed_keeps :
    Keeps (Pipeline.system fingerprint config redigests scopeId) (fun _ _ => True)
      (Pipeline.Stages fingerprint config redigests) Basis (fun seen now => Since seen now ∧ Closed seen now) := by
  refine basis_keeps.along Closed.still (fun first second third one _ => Closed.onward first second third one) ?_
  intro history now txn next trail basis staged _ executed
  cases staged with
  | life target staged => exact life_closed executed
  | redigest runs scope rows =>
    obtain ⟨change,-,rfl⟩ := redigest_ok executed
    exact Closed.of_subset (fun _ member => member) (fun _ member => member)
  | activate staged =>
    obtain ⟨models,-,rest⟩ := bind_ok_iff.mp executed
    cases rest
    exact Closed.of_subset (fun _ member => member) (fun _ member => member)
  | embed provider time bound own held activeRead memoryRead processed => exact embed_closed basis.registered executed
  | completeEmpty provider time bound own held activeRead memoryRead processed =>
    obtain ⟨-,rfl⟩ := complete_ok executed
    exact Closed.of_subset (fun _ member => member) (fun _ member => member)
  | reconciled refusal bound own held memoryRead activeRead reconciled =>
    obtain ⟨-,rfl⟩ := complete_ok executed
    exact Closed.of_subset (fun _ member => member) (fun _ member => member)
  | reembed time bounded live read =>
    obtain ⟨work,rfl,-⟩ := reembed_ok executed
    exact Closed.of_subset (fun _ member => member) (fun _ member => member)
  | dropRevision activeRead totalRead embeddedRead modelsRead prepared =>
    obtain ⟨⟨stock,affected⟩,dropped,rest⟩ := bind_ok_iff.mp executed
    cases rest
    obtain ⟨-,-,rfl⟩ := drop_ok dropped
    exact Closed.of_subset (fun _ member => (mem_deleteWhere.mp member).1) (fun _ member => (mem_deleteWhere.mp member).1)
  | upkeep attempts sameKey completesNothing =>
    cases executed
    exact Closed.of_subset (fun _ member => member) (fun _ member => member)

/-! ### What a drop finds and does -/

theorem retired_le_one (registered : Registered now.models) (revision : Nat) : retired now revision ≤ 1 := by
  have distinct : (now.models.map ModelRow.revision).Nodup := registered.numbered ▸ List.nodup_range'
  have once := List.nodup_iff_count_le_one.mp distinct revision
  rw [List.count_eq_countP,List.countP_map] at once
  refine le_trans (List.countP_mono_left fun row _ chosen => ?_) once
  exact (Bool.and_eq_true_iff.mp chosen).1

theorem retired_pos {revision : Nat} (some' : retired now revision ≠ 0) :
    ∃ model ∈ now.models, model.revision = revision ∧ model.active = false := by
  obtain ⟨model,recorded,chosen⟩ := List.countP_pos_iff.mp (Nat.pos_of_ne_zero some')
  simp only [Bool.and_eq_true,beq_iff_eq,Bool.not_eq_true'] at chosen
  exact ⟨model,recorded,chosen.1,chosen.2⟩

/-- A replaced revision is not the active one, and there is an active one. -/
theorem retired_replaced (registered : Registered now.models) {revision : Nat} (some' : retired now revision ≠ 0) :
    revision < now.models.length ∧ ∃ current, active now.models = some current ∧ current.revision ≠ revision := by
  obtain ⟨model,recorded,rfl,inactive⟩ := retired_pos some'
  rw [registered.newest model recorded,decide_eq_false_iff_not] at inactive
  obtain ⟨positive,upTo⟩ := registered.revision_le recorded
  obtain ⟨newest,held,is⟩ := registered.exists_revision (lt_of_lt_of_le positive upTo) (le_refl _)
  exact ⟨lt_of_le_of_ne upTo inactive,newest,registered.active_iff.mpr ⟨held,is⟩,by rw [is]; exact fun same => inactive same.symm⟩

theorem coverage_guard {scope : Scope} {current : ModelRow} (guarded : stageCompleteEmbeddingCoverageGuard scope now = .ok ())
    (is : active now.models = some current) {memory : MemoryRow} (inside : memory ∈ now.memories) (own : memory.scope = scope)
    (alive : embeddable memory = true) : embedded now scope memory.id current.revision = true := by
  unfold stageCompleteEmbeddingCoverageGuard at guarded
  split_ifs at guarded with missing
  by_contra lacking
  refine missing (List.any_eq_true.mpr ⟨memory,inside,?_⟩)
  rw [is]
  simp [own,alive,Bool.eq_false_iff.mpr lacking]

/-- Where nothing is retired under the number, nothing is deleted. -/
theorem drop_nothing {scope : Scope} {revision affected : Nat} (executed : commitDrop scope revision now = .ok (next,affected))
    (none' : retired now revision = 0) : next = now := by
  obtain ⟨-,-,rfl⟩ := drop_ok executed
  simp [none',deleteWhere]

/-- A call that answers with an error left everything as it was. -/
theorem dropRevision_error (registered : Registered now.models) {atActive atTotal atEmbedded atModels : Stock} {scope : Scope}
    {revision : Nat} {refusal : CallError}
    (refused : (dropRevision atActive atTotal atEmbedded atModels now scope revision).2 = .error refusal) :
    (dropRevision atActive atTotal atEmbedded atModels now scope revision).1 = now := by
  unfold dropRevision at refused ⊢
  cases prepared : prepareDrop atActive atTotal atEmbedded atModels scope revision with
  | error _ => rfl
  | ok _ =>
    cases executed : commitDrop scope revision now with
    | error _ => rfl
    | ok result =>
      obtain ⟨next,affected⟩ := result
      simp only [prepared,executed] at refused ⊢
      refine drop_nothing executed ?_
      obtain ⟨-,rfl,-⟩ := drop_ok executed
      have atMost := retired_le_one registered revision
      by_contra some'
      have one : retired now revision = 1 := by omega
      rw [dropAnswer,one] at refused
      cases refused

/-- Rows are gone after a transaction. -/
def Deleted (now next : Stock) : Prop := next.embeddings ≠ now.embeddings ∨ next.chunks ≠ now.chunks

/-- What is asked of the drop of a revision of a scope, and of the states after it. -/
structure DropSafe (scope : Scope) (revision : Nat) (now next : Stock) (later : List Stock) : Prop where
  inactive : Deleted now next → ∃ model ∈ now.models, model.revision = revision ∧ model.active = false
  covered : Deleted now next → ∃ current, active now.models = some current ∧ current.revision ≠ revision ∧
    ∀ memory ∈ now.memories, memory.scope = scope → embeddable memory = true →
      ∃ row ∈ now.embeddings, row.scope = scope ∧ row.memoryId = memory.id ∧ row.revision = current.revision
  others : next.embeddings.filter (fun row => !(row.scope == scope && row.revision == revision)) =
      now.embeddings.filter (fun row => !(row.scope == scope && row.revision == revision)) ∧
    next.chunks.filter (fun row => !(row.scope == scope && row.revision == revision)) =
      now.chunks.filter (fun row => !(row.scope == scope && row.revision == revision)) ∧
    next = { now with embeddings := next.embeddings, chunks := next.chunks }
  closed : Deleted now next → ∀ after ∈ later,
    (∀ row ∈ after.embeddings, row.revision = revision → row ∈ next.embeddings) ∧
    ∀ row ∈ after.chunks, row.revision = revision → row ∈ next.chunks

theorem drop_safe {scope : Scope} {revision affected : Nat} {later : List Stock} (basis : Basis now)
    (executed : commitDrop scope revision now = .ok (next,affected)) (after : ∀ state ∈ later, Closed next state) :
    DropSafe scope revision now next later := by
  obtain ⟨guarded,-,is⟩ := drop_ok executed
  have some' : Deleted now next → retired now revision ≠ 0 := by
    intro deleted none'
    rw [drop_nothing executed none'] at deleted
    simp [Deleted] at deleted
  refine ⟨fun deleted => retired_pos (some' deleted),fun deleted => ?_,⟨?_,?_,by rw [is]⟩,fun deleted state member => ?_⟩
  · obtain ⟨-,current,active,other⟩ := retired_replaced basis.registered (some' deleted)
    refine ⟨current,active,other,fun memory inside own alive => ?_⟩
    have covered := coverage_guard guarded active inside own alive
    obtain ⟨row,stored,chosen⟩ := List.any_eq_true.mp covered
    simp only [Bool.and_eq_true,beq_iff_eq] at chosen
    exact ⟨row,stored,chosen.1.1,chosen.1.2,chosen.2⟩
  · rw [is]
    refine filter_deleteWhere_apart fun row _ kept => ?_
    rw [Bool.not_eq_true'] at kept
    rw [kept,Bool.false_and]
  · rw [is]
    refine filter_deleteWhere_apart fun row _ kept => ?_
    rw [Bool.not_eq_true'] at kept
    rw [kept,Bool.false_and]
  · obtain ⟨replaced,-⟩ := retired_replaced basis.registered (some' deleted)
    exact after state member revision (by rw [is]; exact replaced)

/-- The states after an entry of a log go on from what it committed. -/
theorem closed_after {newer older : List (Pipeline.Txn × Stock)} {txn : Pipeline.Txn}
    (run : Run (Pipeline.system fingerprint config redigests scopeId) (fun _ _ => True) (newer ++ (txn,next) :: older)) :
    ∀ state ∈ newer.map Prod.snd, Closed next state :=
  fun state member => (run.after Pipeline.stages_fit closed_keeps state member).2

/-- Every drop of a run is safe and is that of a call, and a call that answers with an
    error deletes nothing, whatever it read and whatever state it commits to. -/
theorem drops_covered {log : List (Pipeline.Txn × Stock)}
    (run : Run (Pipeline.system fingerprint config redigests scopeId) (fun _ _ => True) log) :
    (∀ newer older scope revision next, log = newer ++ (.dropRevision scope revision,next) :: older →
      DropSafe scope revision ((Pipeline.system fingerprint config redigests scopeId).current older) next
        (newer.map Prod.snd) ∧
      ∃ atActive atTotal atEmbedded atModels, (dropRevision atActive atTotal atEmbedded atModels
        ((Pipeline.system fingerprint config redigests scopeId).current older) scope revision).1 = next) ∧
    ∀ stock ∈ (Pipeline.system fingerprint config redigests scopeId).states log,
      ∀ atActive atTotal atEmbedded atModels scope revision refusal,
        (dropRevision atActive atTotal atEmbedded atModels stock scope revision).2 = .error refusal →
          (dropRevision atActive atTotal atEmbedded atModels stock scope revision).1 = stock := by
  refine ⟨fun newer older scope revision next is => ?_,fun stock inside _ _ _ _ _ _ _ => ?_⟩
  · subst is
    obtain ⟨runBefore,staged,-,committed⟩ := run.before
    have executed := commit_single rfl committed
    obtain ⟨⟨stock,affected⟩,dropped,rest⟩ := bind_ok_iff.mp executed
    cases rest
    refine ⟨drop_safe (runBefore.holds Pipeline.stages_fit basis_keeps) dropped (closed_after run),?_⟩
    cases staged with
    | @dropRevision atActive atTotal atEmbedded atModels _ _ _ _ _ _ prepared =>
      refine ⟨atActive,atTotal,atEmbedded,atModels,?_⟩
      simp only [dropRevision,prepared,dropped]
  · exact dropRevision_error ((run.trail Pipeline.stages_fit basis_keeps).held stock inside).registered

end

namespace Sample
open Pipeline.Sample

def wideRow : ModelRow := ⟨wide,2,10,true⟩

/-- A second model is activated, the note embedded again, and the first revision dropped. -/
def moved : List (Pipeline.Txn × Stock) := worked (claimedWork (reembedded (activated stored wide) wideRow)) wideRow Store.Sample.noteId

theorem run_moved : Run (pipeline true) (fun _ _ => True) moved := by
  have changed : Run (pipeline true) (fun _ _ => True) (activated stored wide) := run_activated (run_stored true) fun _ => trivial
  have pending : Run (pipeline true) (fun _ _ => True) (reembedded (activated stored wide) wideRow) :=
    run_reembedded changed rfl fun _ _ _ => trivial
  have handed := run_claimedWork pending fun _ => trivial
  exact run_worked handed (by decide +kernel) (by decide +kernel) fun _ => trivial

theorem run_dropped : Run (pipeline true) (fun _ _ => True) (dropped moved 1) :=
  Pipeline.Sample.run_dropped run_moved (by decide +kernel) trivial

end Sample

theorem drops_covered_moved :
    (∃ row ∈ (Pipeline.Sample.now Sample.moved).embeddings, row.revision = 1) ∧
    (∀ row ∈ (Pipeline.Sample.now (Pipeline.Sample.dropped Sample.moved 1)).embeddings, row.revision = 2) ∧
    DropSafe Claims.Sample.scope 1 ((Pipeline.Sample.pipeline true).current Sample.moved)
      (Pipeline.Sample.now (Pipeline.Sample.dropped Sample.moved 1)) [] := by
  refine ⟨by decide +kernel,by decide +kernel,?_⟩
  have entry : Pipeline.Sample.dropped Sample.moved 1 = (.dropRevision Claims.Sample.scope 1,_) :: Sample.moved :=
    Pipeline.Sample.then_eq (by decide +kernel)
  exact ((drops_covered Sample.run_dropped).1 [] Sample.moved Claims.Sample.scope 1 _ entry).1

end Aicortex.RevisionDrops
