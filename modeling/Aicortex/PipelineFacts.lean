import Aicortex.Pipeline
import Aicortex.LifecycleFacts

/-!
What every transaction of the pipeline keeps, whatever its call read. A memory row keeps
its place, a live one its text, and an erased one every column. The registry only grows.
Work stays until its memory is erased, and is always of a memory and a model that were
recorded.
-/

namespace Aicortex.Pipeline
open Aicortex.Text Aicortex.CivilTime Aicortex.Memories Aicortex.Schema Aicortex.MemoryRepo Aicortex.Erasure
open Aicortex.Lifecycle Aicortex.EmbeddingTables Aicortex.ModelRegistry Aicortex.Chunking Aicortex.Provider
open Lib.Tables Lib.Outcome Lib.StaleRuns Lib.StaleRuns.System
open Aicortex.Claims hiding Unit
set_option linter.unusedSimpArgs false

/-! ### Memory rows over time -/

/-- What a row keeps from one state to the next. -/
structure Kept (old new : MemoryRow) : Prop where
  scope : new.scope = old.scope
  named : old.record.id = old.id → new.record.id = old.id
  erased : old.live = false → new = old
  text : new.live = true → new.record.body.text = old.record.body.text

theorem Kept.still (row : MemoryRow) : Kept row row := ⟨rfl,id,fun _ => rfl,fun _ => rfl⟩

theorem Kept.alive {old new : MemoryRow} (kept : Kept old new) (alive : new.live = true) : old.live = true := by
  by_contra dead
  rw [kept.erased (Bool.eq_false_iff.mpr dead)] at alive
  exact dead alive

/-- The rows after a move that inserts nothing. -/
def Turned (before after : List MemoryRow) : Prop :=
  ∃ change : MemoryRow → MemoryRow, after = before.map change ∧
    ∀ row ∈ before, (change row).id = row.id ∧ Kept row (change row)

theorem Turned.still (rows : List MemoryRow) : Turned rows rows :=
  ⟨id,(List.map_id rows).symm,fun row _ => ⟨rfl,Kept.still row⟩⟩

theorem Turned.update {selected : MemoryRow → Bool} {change : MemoryRow → MemoryRow} {rows : List MemoryRow}
    (kept : ∀ row ∈ rows, selected row = true → (change row).id = row.id ∧ Kept row (change row)) :
    Turned rows (updateWhere selected change rows) := by
  refine ⟨fun row => if selected row then change row else row,rfl,?_⟩
  intro row member
  dsimp only
  split_ifs with chosen
  · exact kept row member chosen
  · exact ⟨rfl,Kept.still row⟩

theorem Kept.onward (first second third : MemoryRow) (sameId : second.id = first.id) (one : Kept first second)
    (two : Kept second third) : Kept first third := by
  refine ⟨two.scope.trans one.scope,?_,?_,?_⟩
  · intro named
    rw [two.named ((one.named named).trans sameId.symm),sameId]
  · intro dead
    have same := one.erased dead
    rw [two.erased (by rw [same]; exact dead),same]
  · intro alive
    rw [two.text alive,one.text (two.alive alive)]

theorem bury_kept (scope : Scope) (shells : List Shell) (now : UnixSeconds) (row : MemoryRow) :
    (bury scope shells now row).id = row.id ∧ Kept row (bury scope shells now row) := by
  rcases bury_cases scope shells now row with ⟨-,same⟩ | ⟨alive,shell,-,here,buried⟩
  · rw [same]
    exact ⟨rfl,Kept.still row⟩
  · rw [buried]
    simp only [ofScope,Bool.and_eq_true,beq_iff_eq] at here
    refine ⟨rfl,rfl,fun _ => here.2.symm,fun dead => ?_,fun live => ?_⟩
    · rw [alive] at dead
      cases dead
    · cases live

theorem Turned.bury (scope : Scope) (shells : List Shell) (now : UnixSeconds) (rows : List MemoryRow) :
    Turned rows (rows.map (bury scope shells now)) :=
  ⟨_,rfl,fun row _ => bury_kept scope shells now row⟩

theorem Turned.trans {first second third : List MemoryRow} (one : Turned first second) (two : Turned second third) :
    Turned first third := by
  obtain ⟨change,rfl,kept⟩ := one
  obtain ⟨further,rfl,still⟩ := two
  refine ⟨further ∘ change,List.map_map,?_⟩
  intro row member
  obtain ⟨sameId,turned⟩ := kept row member
  obtain ⟨againId,again⟩ := still _ (List.mem_map_of_mem member)
  exact ⟨againId.trans sameId,Kept.onward _ _ _ sameId turned again⟩

theorem Turned.unique {before after : List MemoryRow} (turned : Turned before after) (unique : UniqueBy MemoryRow.id before) :
    UniqueBy MemoryRow.id after := by
  obtain ⟨change,rfl,kept⟩ := turned
  have same : before.map (MemoryRow.id ∘ change) = before.map MemoryRow.id :=
    List.map_congr_left fun row member => (kept row member).1
  unfold UniqueBy
  rw [List.map_map,same]
  exact unique

theorem Turned.origin {before after : List MemoryRow} (turned : Turned before after) {row : MemoryRow} (member : row ∈ after) :
    ∃ old ∈ before, row.id = old.id ∧ Kept old row := by
  obtain ⟨change,rfl,kept⟩ := turned
  obtain ⟨old,inside,rfl⟩ := List.mem_map.mp member
  exact ⟨old,inside,kept old inside⟩

theorem Turned.stays {before after : List MemoryRow} (turned : Turned before after) {old : MemoryRow} (member : old ∈ before) :
    ∃ row ∈ after, row.id = old.id ∧ Kept old row := by
  obtain ⟨change,rfl,kept⟩ := turned
  exact ⟨change old,List.mem_map_of_mem member,kept old member⟩

/-- No row leaves the table, and each keeps what a row keeps. -/
def Standing (before after : List MemoryRow) : Prop := ∀ old ∈ before, ∃ row ∈ after, row.id = old.id ∧ Kept old row

theorem Standing.still (rows : List MemoryRow) : Standing rows rows := fun row member => ⟨row,member,rfl,Kept.still row⟩

theorem Standing.trans {first second third : List MemoryRow} (one : Standing first second) (two : Standing second third) :
    Standing first third := by
  intro old member
  obtain ⟨row,inside,sameId,kept⟩ := one old member
  obtain ⟨later,there,againId,still⟩ := two row inside
  exact ⟨later,there,againId.trans sameId,Kept.onward _ _ _ sameId kept still⟩

/-- The rows of a later state: what the earlier ones turned into, and what was added. -/
structure Grown (fingerprint : Memory → String) (added : Memory → Prop) (before after : List MemoryRow) : Prop where
  stays : Standing before after
  origin : ∀ row ∈ after, (∃ old ∈ before, row.id = old.id ∧ Kept old row) ∨
    ((∀ old ∈ before, old.id ≠ row.id) ∧ ∃ memory, added memory ∧ row.id = memory.id ∧
      Kept (memoryRow fingerprint memory) row)
  unique : UniqueBy MemoryRow.id before → UniqueBy MemoryRow.id after

section
variable {fingerprint : Memory → String} {added : Memory → Prop} {first second third : List MemoryRow}

theorem Turned.grown (turned : Turned first second) : Grown fingerprint added first second :=
  ⟨fun _ member => turned.stays member,fun _ member => .inl (turned.origin member),turned.unique⟩

theorem Grown.insert {memory : Memory} (counted : added memory) (free : ∀ other ∈ first, other.id ≠ memory.id) :
    Grown fingerprint added first (first ++ [memoryRow fingerprint memory]) := by
  refine ⟨?_,?_,fun unique => unique.insert free⟩
  · intro old member
    exact ⟨old,List.mem_append_left _ member,rfl,Kept.still old⟩
  · intro row member
    rcases List.mem_append.mp member with old | new
    · exact .inl ⟨row,old,rfl,Kept.still row⟩
    · rw [List.mem_singleton.mp new]
      exact .inr ⟨free,memory,counted,rfl,Kept.still _⟩

theorem Grown.trans (one : Grown fingerprint added first second) (two : Grown fingerprint added second third) :
    Grown fingerprint added first third := by
  refine ⟨one.stays.trans two.stays,?_,fun unique => two.unique (one.unique unique)⟩
  intro row member
  rcases two.origin row member with ⟨mid,inside,sameId,kept⟩ | ⟨fresh,new⟩
  · rcases one.origin mid inside with ⟨old,was,again,still⟩ | ⟨fresh,memory,counted,named,still⟩
    · exact .inl ⟨old,was,sameId.trans again,Kept.onward _ _ _ again still kept⟩
    · exact .inr ⟨by rwa [sameId],memory,counted,sameId.trans named,Kept.onward _ _ _ named still kept⟩
  · refine .inr ⟨fun old was same => ?_,new⟩
    obtain ⟨mid,inside,sameId,-⟩ := one.stays old was
    exact fresh mid inside (sameId.trans same)

end

/-! ### What a move of a memory's life does to the rows -/

section
variable {fingerprint : Memory → String} {now next : Holdings}

/-- A move inserts one row, or turns the rows there are. -/
theorem move_turns {move : Move} (applied : (Lifecycle.system fingerprint).apply now move = .ok next) :
    (∃ maxBodyBytes memory provenance, move = .insert maxBodyBytes memory provenance ∧
        (∀ other ∈ now.db.memories, other.id ≠ memory.id) ∧
        next.db.memories = now.db.memories ++ [memoryRow fingerprint memory]) ∨
      Turned now.db.memories next.db.memories := by
  cases move with
  | insert maxBodyBytes memory provenance =>
    obtain ⟨free,-,-,rfl⟩ := insert_applied applied
    exact .inl ⟨_,_,_,rfl,free,rfl⟩
  | source scope id provenance =>
    cases applied
    exact .inr (Turned.still _)
  | merge scope id expected again =>
    obtain ⟨guard,rfl⟩ := merge_applied applied
    refine .inr (Turned.update fun row member chosen => ?_)
    obtain ⟨record,alive⟩ := guard row member chosen
    refine ⟨rfl,rfl,fun named => ?_,fun dead => ?_,fun _ => ?_⟩
    · exact (congrArg Memory.id record).symm.trans named
    · rw [alive] at dead
      cases dead
    · exact (congrArg (fun memory => memory.body.text) record).symm
  | supersede scope old new expected at' =>
    obtain ⟨guard,rfl⟩ := supersede_applied applied
    refine .inr (Turned.update fun row member chosen => ?_)
    obtain ⟨record,alive,-⟩ := guard row member chosen
    refine ⟨rfl,rfl,fun named => ?_,fun dead => ?_,fun _ => ?_⟩
    · exact (congrArg Memory.id record).symm.trans named
    · rw [alive] at dead
      cases dead
    · exact (congrArg (fun memory => memory.body.text) record).symm
  | setValidUntil scope id until' =>
    cases applied
    refine .inr (Turned.update fun row member chosen => ⟨rfl,rfl,fun named => named,fun dead => ?_,fun _ => rfl⟩)
    rw [dead,Bool.and_false] at chosen
    cases chosen
  | materialize scope kinds =>
    cases applied
    exact .inr (Turned.still _)
  | expire scope ids kinds at' =>
    cases applied
    refine .inr (Turned.update fun row member chosen => ⟨rfl,rfl,fun named => named,fun dead => ?_,fun _ => rfl⟩)
    simp only [Bool.and_eq_true,beq_iff_eq] at chosen
    simp [MemoryRow.live,chosen.1.2] at dead
  | erase prepared =>
    obtain ⟨-,-,memories,-,-⟩ := erase_applied applied
    rw [memories]
    refine .inr ((Turned.bury _ _ _ _).trans (Turned.update fun row member chosen =>
      ⟨rfl,rfl,fun named => named,fun dead => ?_,fun _ => rfl⟩))
    simp [dead] at chosen
  | startScope scope decisionId =>
    obtain ⟨receipts,rfl⟩ := startScope_applied applied
    exact .inr (Turned.still _)
  | drain scope operation shells at' =>
    obtain ⟨-,memories,-,-⟩ := drain_applied applied
    rw [memories]
    exact .inr (Turned.bury _ _ _ _)
  | deliver scope target decisionId =>
    cases applied
    exact .inr (Turned.still _)

theorem insertedBy_of_settling {settling : Settling} {maxBodyBytes : Nat} {memory : Memory} {provenance : Provenance}
    (member : Move.insert maxBodyBytes memory provenance ∈ settling.moves) : settling = .inserted maxBodyBytes memory := by
  cases settling with
  | inserted _ _ =>
    simp only [Settling.moves,List.mem_cons,List.not_mem_nil,or_false,reduceCtorEq,Move.insert.injEq] at member
    obtain ⟨rfl,rfl,-⟩ := member
    rfl
  | merged _ _ _ _ => simp [Settling.moves] at member

/-- A transaction inserts the memory it is said to. -/
theorem insertedBy_of_mem {txn : Lifecycle.Txn} {maxBodyBytes : Nat} {memory : Memory} {provenance : Provenance}
    (member : Move.insert maxBodyBytes memory provenance ∈ txn.moves) : insertedBy txn = some memory := by
  cases txn with
  | insert _ _ _ =>
    simp only [Txn.moves,List.mem_singleton,Move.insert.injEq] at member
    obtain ⟨-,rfl,-⟩ := member
    rfl
  | capture settling => rw [insertedBy_of_settling member]; rfl
  | correct settling supersession =>
    rcases List.mem_append.mp member with first | last
    · rw [insertedBy_of_settling first]
      rfl
    · simp [Supersession.move] at last
  | supersede supersession => simp [Txn.moves,Supersession.move] at member
  | setValidUntil => simp [Txn.moves] at member
  | prepareExpiry => simp [Txn.moves] at member
  | expire => simp [Txn.moves] at member
  | erase => simp [Txn.moves] at member
  | startScope => simp [Txn.moves] at member
  | drain => simp [Txn.moves] at member
  | deliver => simp [Txn.moves] at member

/-- The memory a transaction stages work for. -/
def stagedOwner (txn : Lifecycle.Txn) : Option (Scope × MemoryId) :=
  (stagedBy txn).map (fun staged => (staged.1,staged.2.1))

/-- A transaction stages work for the memory it inserts. -/
theorem inserted_staged {txn : Lifecycle.Txn} {memory : Memory} (inserted : insertedBy txn = some memory) :
    stagedOwner txn = some (memory.scope,memory.id) := by
  cases txn with
  | insert =>
    cases inserted
    rfl
  | capture settling =>
    cases settling with
    | inserted =>
      cases inserted
      rfl
    | merged => cases inserted
  | correct settling supersession =>
    cases settling with
    | inserted =>
      cases inserted
      rfl
    | merged => cases inserted
  | supersede => cases inserted
  | setValidUntil => cases inserted
  | prepareExpiry => cases inserted
  | expire => cases inserted
  | erase => cases inserted
  | startScope => cases inserted
  | drain => cases inserted
  | deliver => cases inserted

theorem life_grown {txn : Lifecycle.Txn} (committed : (Lifecycle.system fingerprint).commit now txn = .ok next) :
    Grown fingerprint (fun memory => insertedBy txn = some memory) now.db.memories next.db.memories := by
  refine foldlM_invariant (fun mid : Holdings => Grown fingerprint (fun memory => insertedBy txn = some memory)
    now.db.memories mid.db.memories) ?_ (Turned.still _).grown committed
  intro move member mid after grown applied
  rcases move_turns applied with ⟨maxBodyBytes,memory,provenance,rfl,free,is⟩ | turned
  · rw [is]
    exact grown.trans (Grown.insert (insertedBy_of_mem member) free)
  · exact grown.trans turned.grown

end

/-! ### What a committed transaction has done -/

section
variable {fingerprint : Memory → String} {scopeId : Scope → String} {now next : Stock}

theorem stageLiveMemoryGuard_ok {scope : Scope} {id : MemoryId} (passed : stageLiveMemoryGuard scope id now = .ok ()) :
    ∃ row ∈ now.memories, ofScope scope id row = true ∧ embeddable row = true := by
  unfold stageLiveMemoryGuard at passed
  split_ifs at passed with live
  obtain ⟨row,member,chosen⟩ := List.any_eq_true.mp live
  obtain ⟨here,alive⟩ := Bool.and_eq_true_iff.mp chosen
  exact ⟨row,member,here,alive⟩

theorem stageActiveEmbedding_ok {scope : Scope} {id : MemoryId} {model : ActiveEmbedding} {at' : UnixSeconds}
    (executed : stageActiveEmbedding scope id model at' now = .ok next) :
    (∃ row ∈ now.models, row.revision = model.revision ∧ row.identity.modelId = model.modelId ∧ row.active = true) ∧
      next = { now with work := stageWork ⟨scope,id,model.revision,model.modelId⟩ at' now.work } := by
  unfold stageActiveEmbedding at executed
  split_ifs at executed with is
  obtain ⟨row,member,chosen⟩ := List.any_eq_true.mp is
  simp only [Bool.and_eq_true,beq_iff_eq] at chosen
  exact ⟨⟨row,member,chosen.1.1,chosen.1.2,chosen.2⟩,(Except.ok.inj executed).symm⟩

/-- Staging under a target adds work for the active model, or finds no model active. -/
theorem stageTarget_ok {target : Option ActiveEmbedding} {scope : Scope} {id : MemoryId} {at' : UnixSeconds}
    (executed : stageTarget target scope id at' now = .ok next) :
    (∃ row ∈ now.models, row.active = true ∧
        next = { now with work := stageWork ⟨scope,id,row.revision,row.identity.modelId⟩ at' now.work }) ∨
      ((∀ row ∈ now.models, row.active = false) ∧ next = now) := by
  cases target with
  | some model =>
    obtain ⟨⟨row,member,revision,modelId,active⟩,rfl⟩ := stageActiveEmbedding_ok executed
    exact .inl ⟨row,member,active,by rw [revision,modelId]⟩
  | none =>
    simp only [stageTarget] at executed
    split_ifs at executed with busy
    refine .inr ⟨fun row member => ?_,(Except.ok.inj executed).symm⟩
    by_contra active
    exact busy (List.any_eq_true.mpr ⟨row,member,Bool.of_not_eq_false active⟩)

theorem mem_stageWork {key : WorkKey} {at' : UnixSeconds} {work : List WorkRow} {row : WorkRow}
    (member : row ∈ stageWork key at' work) : row ∈ work ∨ (row.key = key ∧ row.state = .pending) := by
  unfold stageWork at member
  split_ifs at member
  · exact .inl member
  · rcases List.mem_append.mp member with old | new
    · exact .inl old
    · rw [List.mem_singleton.mp new]
      exact .inr ⟨rfl,rfl⟩

theorem stageWork_stays {key : WorkKey} {at' : UnixSeconds} {work : List WorkRow} {row : WorkRow} (member : row ∈ work) :
    row ∈ stageWork key at' work := by
  unfold stageWork
  split_ifs
  · exact member
  · exact List.mem_append_left _ member

theorem stageWork_there (key : WorkKey) (at' : UnixSeconds) (work : List WorkRow) :
    ∃ row ∈ stageWork key at' work, row.key = key := by
  unfold stageWork
  split_ifs with there
  · obtain ⟨row,member,same⟩ := List.any_eq_true.mp there
    exact ⟨row,member,by simpa using same⟩
  · exact ⟨_,List.mem_append_right _ (List.mem_singleton_self _),rfl⟩

/-- A transaction of a memory's life writes the holdings alone, or stages work for the
    memory it settled, or sweeps what was derived of the memories it erases. -/
theorem life_cases {txn : Lifecycle.Txn} {target : Option ActiveEmbedding}
    (executed : commitLife fingerprint txn target now = .ok next) :
    ∃ holdings, (Lifecycle.system fingerprint).commit now.holdings txn = .ok holdings ∧
      ((insertedBy txn = none ∧ stagedBy txn = none ∧ sweptBy txn = none ∧ next = { now with holdings := holdings }) ∨
      (∃ provenance scope id at', insertProvenance (insertedBy txn) now.provenance = .ok provenance ∧
        stagedBy txn = some (scope,id,at') ∧ sweptBy txn = none ∧
        stageTarget target scope id at' { now with holdings := holdings, provenance := provenance } = .ok next) ∨
      ∃ scope shells, insertedBy txn = none ∧ stagedBy txn = none ∧ sweptBy txn = some (scope,shells) ∧
        next = sweep scope shells { now with holdings := holdings }) := by
  obtain ⟨holdings,committed,rest⟩ := bind_ok_iff.mp executed
  obtain ⟨provenance,inserted,rest⟩ := bind_ok_iff.mp rest
  refine ⟨holdings,committed,?_⟩
  cases txn with
  | insert => exact .inr (.inl ⟨provenance,_,_,_,inserted,rfl,rfl,rest⟩)
  | capture => exact .inr (.inl ⟨provenance,_,_,_,inserted,rfl,rfl,rest⟩)
  | correct => exact .inr (.inl ⟨provenance,_,_,_,inserted,rfl,rfl,rest⟩)
  | erase =>
    cases inserted
    cases rest
    exact .inr (.inr ⟨_,_,rfl,rfl,rfl,rfl⟩)
  | drain =>
    cases inserted
    cases rest
    exact .inr (.inr ⟨_,_,rfl,rfl,rfl,rfl⟩)
  | supersede =>
    cases inserted
    cases rest
    exact .inl ⟨rfl,rfl,rfl,rfl⟩
  | setValidUntil =>
    cases inserted
    cases rest
    exact .inl ⟨rfl,rfl,rfl,rfl⟩
  | prepareExpiry =>
    cases inserted
    cases rest
    exact .inl ⟨rfl,rfl,rfl,rfl⟩
  | expire =>
    cases inserted
    cases rest
    exact .inl ⟨rfl,rfl,rfl,rfl⟩
  | startScope =>
    cases inserted
    cases rest
    exact .inl ⟨rfl,rfl,rfl,rfl⟩
  | deliver =>
    cases inserted
    cases rest
    exact .inl ⟨rfl,rfl,rfl,rfl⟩

/-- A re-digest turns the rows and leaves their statuses. -/
theorem redigest_ok {scope : Scope} {rows : List (MemoryId × Memory)}
    (executed : commitRedigest fingerprint scope rows now = .ok next) :
    ∃ change : MemoryRow → MemoryRow,
      (∀ row ∈ now.memories, ((change row).id = row.id ∧ Kept row (change row)) ∧ (change row).status = row.status) ∧
      next = { now with holdings := { now.holdings with
        db := { now.holdings.db with memories := now.memories.map change } } } := by
  obtain ⟨db,redigested,rest⟩ := bind_ok_iff.mp executed
  cases rest
  have kept : ∃ change : MemoryRow → MemoryRow,
      (∀ row ∈ now.memories, ((change row).id = row.id ∧ Kept row (change row)) ∧ (change row).status = row.status) ∧
      db = { now.holdings.db with memories := now.memories.map change } := by
    refine foldlM_invariant (fun mid : Database => ∃ change : MemoryRow → MemoryRow,
      (∀ row ∈ now.memories, ((change row).id = row.id ∧ Kept row (change row)) ∧ (change row).status = row.status) ∧
      mid = { now.holdings.db with memories := now.memories.map change }) ?_ ?_ redigested
    · rintro read - mid after ⟨change,kept,rfl⟩ written
      unfold redigestRow at written
      dsimp only at written
      split_ifs at written
      cases written
      refine ⟨_,?_,by simp only [updateWhere,List.map_map]; rfl⟩
      intro row member
      obtain ⟨⟨sameId,turned⟩,status⟩ := kept row member
      simp only [Function.comp]
      split_ifs with chosen
      · refine ⟨⟨sameId,Kept.onward _ _ _ sameId turned ⟨rfl,fun named => named,fun dead => ?_,fun _ => rfl⟩⟩,status⟩
        simp [dead] at chosen
      · exact ⟨⟨sameId,turned⟩,status⟩
    · exact ⟨id,fun row _ => ⟨⟨rfl,Kept.still row⟩,rfl⟩,by rw [List.map_id]; rfl⟩
  obtain ⟨change,turned,rfl⟩ := kept
  exact ⟨change,turned,rfl⟩

theorem Claim.holds_key {claim : Claim} {row : WorkRow} (holds : claim.holds row = true) : row.key = claim.key := by
  simp only [Claim.holds,Bool.and_eq_true,beq_iff_eq] at holds
  exact holds.1.1

theorem complete_ok {claim : Claim} (executed : complete claim now = .ok next) :
    (∃ row ∈ now.work, claim.holds row = true) ∧
      next = { now with work := updateWhere claim.holds (fun row => { row with state := .done }) now.work } := by
  unfold complete at executed
  split_ifs at executed with held
  exact ⟨List.any_eq_true.mp held,(Except.ok.inj executed).symm⟩

theorem stageDerivativeCommitGuards_ok {derivative : Derivative}
    (passed : stageDerivativeCommitGuards derivative now = .ok ()) :
    (∃ row ∈ now.memories, ofScope derivative.claim.key.scope derivative.memory row = true ∧ embeddable row = true) ∧
      ∃ row ∈ now.models, row.revision = derivative.model.revision ∧ row.identity = derivative.model.identity ∧
        row.active = true := by
  obtain ⟨_,live,rest⟩ := bind_ok_iff.mp passed
  refine ⟨stageLiveMemoryGuard_ok live,?_⟩
  split_ifs at rest with is
  obtain ⟨row,member,chosen⟩ := List.any_eq_true.mp is
  simp only [Bool.and_eq_true,beq_iff_eq] at chosen
  exact ⟨row,member,chosen.1.1,chosen.1.2,chosen.2⟩

theorem storeChunk_ok {derivative : Derivative} {chunk : Chunk × Vector}
    (executed : storeChunk scopeId derivative now chunk = .ok next) :
    (∀ other ∈ now.chunks, other.chunkId ≠ (derivative.chunkRow scopeId chunk.1).chunkId) ∧
      (∀ other ∈ now.chunks, other.key ≠ (derivative.chunkRow scopeId chunk.1).key) ∧
      (derivative.embeddingRow chunk.1 chunk.2).vector.length = (derivative.embeddingRow chunk.1 chunk.2).identity.dims * 4 ∧
      next = { now with
        chunks := now.chunks ++ [derivative.chunkRow scopeId chunk.1]
        embeddings := now.embeddings ++ [derivative.embeddingRow chunk.1 chunk.2] } := by
  obtain ⟨mid,chunked,vectored⟩ := bind_ok_iff.mp executed
  obtain ⟨_,identified,rest⟩ := bind_ok_iff.mp chunked
  obtain ⟨chunks,keyed,rest⟩ := bind_ok_iff.mp rest
  obtain ⟨fresh,-⟩ := insertRow_ok.mp identified
  obtain ⟨free,rfl⟩ := insertRow_ok.mp keyed
  cases rest
  unfold insertEmbedding at vectored
  split_ifs at vectored with wide
  obtain ⟨embeddings,stored,rest⟩ := bind_ok_iff.mp vectored
  obtain ⟨-,rfl⟩ := insertRow_ok.mp stored
  cases rest
  exact ⟨fresh,free,not_not.mp wide,rfl⟩

/-- The loop over the chunks adds a chunk and a vector for each, under keys of their own. -/
theorem storeChunks_ok {derivative : Derivative} {pairs : List (Chunk × Vector)}
    (executed : pairs.foldlM (storeChunk scopeId derivative) now = .ok next) :
    next = { now with
        chunks := now.chunks ++ pairs.map (fun pair => derivative.chunkRow scopeId pair.1)
        embeddings := now.embeddings ++ pairs.map (fun pair => derivative.embeddingRow pair.1 pair.2) } ∧
      (UniqueBy ChunkRow.chunkId now.chunks → UniqueBy ChunkRow.chunkId next.chunks) ∧
      (UniqueBy ChunkRow.key now.chunks → UniqueBy ChunkRow.key next.chunks) ∧
      ∀ pair ∈ pairs, (derivative.embeddingRow pair.1 pair.2).vector.length =
        (derivative.embeddingRow pair.1 pair.2).identity.dims * 4 := by
  induction pairs generalizing now with
  | nil =>
    cases executed
    simp
  | cons pair rest ih =>
    obtain ⟨mid,stored,remaining⟩ := bind_ok_iff.mp executed
    obtain ⟨fresh,free,wide,rfl⟩ := storeChunk_ok stored
    obtain ⟨is,ids,keys,widths⟩ := ih remaining
    refine ⟨?_,fun unique => ids (unique.insert fresh),fun unique => keys (unique.insert free),?_⟩
    · rw [is]
      simp
    · intro other member
      rcases List.mem_cons.mp member with rfl | later
      · exact wide
      · exact widths other later

/-- A worker's commit found its memory live and its model active, and replaced the rows
    of the memory at the revision. -/
theorem embed_ok {derivative : Derivative} (executed : commitEmbed scopeId derivative now = .ok next) :
    stageDerivativeCommitGuards derivative now = .ok () ∧
      (∃ row ∈ now.work, derivative.claim.holds row = true) ∧
      next = { now with
        chunks := deleteWhere (fun row => ofGroup derivative.claim.key.scope derivative.memory derivative.model.revision row.key)
          now.chunks ++ (derivative.chunks.zip derivative.vectors).map (fun pair => derivative.chunkRow scopeId pair.1)
        embeddings := deleteWhere
          (fun row => ofGroup derivative.claim.key.scope derivative.memory derivative.model.revision row.key)
          now.embeddings ++ (derivative.chunks.zip derivative.vectors).map
            (fun pair => derivative.embeddingRow pair.1 pair.2)
        work := updateWhere derivative.claim.holds (fun row => { row with state := .done }) now.work } ∧
      (UniqueBy ChunkRow.chunkId now.chunks → UniqueBy ChunkRow.chunkId next.chunks) ∧
      (UniqueBy ChunkRow.key now.chunks → UniqueBy ChunkRow.key next.chunks) ∧
      ∀ pair ∈ derivative.chunks.zip derivative.vectors, (derivative.embeddingRow pair.1 pair.2).vector.length =
        (derivative.embeddingRow pair.1 pair.2).identity.dims * 4 := by
  obtain ⟨_,guarded,rest⟩ := bind_ok_iff.mp executed
  obtain ⟨mid,stored,completed⟩ := bind_ok_iff.mp rest
  obtain ⟨is,ids,keys,widths⟩ := storeChunks_ok stored
  obtain ⟨held,rfl⟩ := complete_ok completed
  subst is
  exact ⟨guarded,held,rfl,fun unique => ids (unique.delete _),fun unique => keys (unique.delete _),widths⟩

/-- A re-embedding pass only adds work, for live memories and the active model. -/
theorem reembed_ok {scope : Scope} {model : ActiveEmbedding} {ids : List MemoryId} {at' : UnixSeconds}
    (executed : ids.foldlM (stageLiveEmbedding scope model at') now = .ok next) :
    ∃ work, next = { now with work := work } ∧ (∀ row ∈ now.work, row ∈ work) ∧
      ∀ row ∈ work, row ∈ now.work ∨ (row.state = .pending ∧
        (∃ memory ∈ now.memories, ofScope row.key.scope row.key.memoryId memory = true) ∧
        ∃ recorded ∈ now.models, recorded.revision = row.key.revision ∧ recorded.identity.modelId = row.key.modelId) := by
  refine foldlM_invariant (fun mid : Stock => ∃ work, mid = { now with work := work } ∧ (∀ row ∈ now.work, row ∈ work) ∧
      ∀ row ∈ work, row ∈ now.work ∨ (row.state = .pending ∧
        (∃ memory ∈ now.memories, ofScope row.key.scope row.key.memoryId memory = true) ∧
        ∃ recorded ∈ now.models, recorded.revision = row.key.revision ∧ recorded.identity.modelId = row.key.modelId))
    ?_ ⟨_,rfl,fun _ member => member,fun _ member => .inl member⟩ executed
  rintro id - mid after ⟨work,rfl,stays,origin⟩ staged
  obtain ⟨_,live,rest⟩ := bind_ok_iff.mp staged
  obtain ⟨memory,inside,here,-⟩ := stageLiveMemoryGuard_ok live
  obtain ⟨⟨recorded,known,revision,modelId,-⟩,rfl⟩ := stageActiveEmbedding_ok rest
  refine ⟨_,rfl,fun row member => stageWork_stays (stays row member),?_⟩
  intro row member
  rcases mem_stageWork member with old | ⟨key,pending⟩
  · exact origin row old
  · rw [key]
    exact .inr ⟨pending,⟨memory,inside,here⟩,recorded,known,revision,modelId⟩

/-- A drop found every live memory of the scope covered, and deletes the rows of a
    revision that is recorded and not active. -/
theorem drop_ok {scope : Scope} {revision affected : Nat} (executed : commitDrop scope revision now = .ok (next,affected)) :
    stageCompleteEmbeddingCoverageGuard scope now = .ok () ∧ affected = retired now revision ∧
      next = { now with
        embeddings := deleteWhere
          (fun row => row.scope == scope && row.revision == revision && retired now revision != 0) now.embeddings
        chunks := deleteWhere
          (fun row => row.scope == scope && row.revision == revision && retired now revision != 0) now.chunks } := by
  obtain ⟨_,guarded,rest⟩ := bind_ok_iff.mp executed
  cases rest
  exact ⟨guarded,rfl,rfl⟩

end

/-! ### What a worker read -/

section
variable {config : ChunkConfig} {model : ModelRow} {provider : List Chunk → Except StoreError (List Vector)} {claim : Claim}
variable {atActive atMemory : Stock} {time : UnixSeconds}

theorem sameModelRevision_iff {left right : ModelRow} :
    sameModelRevision left right = true ↔ left.identity = right.identity ∧ left.revision = right.revision := by
  simp [sameModelRevision]

theorem embeddingMemory_some {stock : Stock} {scope : Scope} {id : MemoryId} {row : MemoryRow}
    (found : embeddingMemory stock scope id = some row) : row ∈ stock.memories ∧ ofScope scope id row = true :=
  ⟨List.mem_of_find?_eq_some found,List.find?_some found⟩

/-- What a worker has to have read to complete a claim with nothing stored: another model
    is active, or the memory is not there, or it is erased. -/
def Idle (model : ModelRow) (claim : Claim) (atActive atMemory : Stock) : Prop :=
  (∃ current, active atActive.models = some current ∧ ¬(claim.key.revision = model.revision ∧
    claim.key.modelId = model.identity.modelId ∧ sameModelRevision current model = true)) ∨
  embeddingMemory atMemory claim.key.scope claim.key.memoryId = none ∨
  ∃ row, embeddingMemory atMemory claim.key.scope claim.key.memoryId = some row ∧ row.status = .erased

/-- What a worker decides, and what it has to have read for that. -/
theorem process_ok {step : Step} (processed : process config model provider claim atActive atMemory time = .ok step) :
    (step = .defer ∧ active atActive.models = none) ∨
    (step = .completeEmpty ∧ Idle model claim atActive atMemory) ∨
    (step = .quarantine ∧ ∃ row, embeddingMemory atMemory claim.key.scope claim.key.memoryId = some row ∧
      row.status = .quarantined) ∨
    ∃ row chunks vectors, step = .embed ⟨claim,row.record.id,model,chunks,vectors,time⟩ ∧
      embeddingMemory atMemory claim.key.scope claim.key.memoryId = some row ∧
      split config row.record.body.text = .ok chunks ∧ chunks ≠ [] ∧
      validateBatch model.identity chunks.length vectors = .ok () := by
  unfold process at processed
  cases current : active atActive.models with
  | none =>
    rw [current] at processed
    cases processed
    exact .inl ⟨rfl,rfl⟩
  | some latest =>
    simp only [current] at processed
    split at processed
    case isFalse other =>
      cases processed
      exact .inr (.inl ⟨rfl,.inl ⟨latest,current,other⟩⟩)
    case isTrue =>
      cases found : embeddingMemory atMemory claim.key.scope claim.key.memoryId with
      | none =>
        simp only [found] at processed
        cases processed
        exact .inr (.inl ⟨rfl,.inr (.inl found)⟩)
      | some row =>
        simp only [found] at processed
        split at processed
        case isTrue erased =>
          cases processed
          exact .inr (.inl ⟨rfl,.inr (.inr ⟨row,found,erased⟩)⟩)
        split at processed
        case isTrue quarantined =>
          cases processed
          exact .inr (.inr (.inl ⟨rfl,row,rfl,quarantined⟩))
        cases cut : split config row.record.body.text with
        | error reason => cases reason <;> simp [cut] at processed
        | ok chunks =>
          simp only [cut] at processed
          split at processed
          · cases processed
          next some' =>
            split at processed
            · cases processed
            obtain ⟨vectors,-,rest⟩ := bind_ok_iff.mp processed
            obtain ⟨⟨⟩,checked,rest⟩ := bind_ok_iff.mp rest
            cases valid : validateBatch model.identity chunks.length vectors with
            | error refusal =>
              rw [valid] at checked
              cases checked
            | ok =>
              cases rest
              exact .inr (.inr (.inr ⟨row,chunks,vectors,rfl,rfl,cut,some',valid⟩))

/-- What a worker commits it computed from the memory it read, for the model it read as
    the active one. -/
theorem process_embed {derivative : Derivative}
    (processed : process config model provider claim atActive atMemory time = .ok (.embed derivative)) :
    ∃ row chunks vectors, row ∈ atMemory.memories ∧ ofScope claim.key.scope claim.key.memoryId row = true ∧
      split config row.record.body.text = .ok chunks ∧ chunks ≠ [] ∧ vectors.length = chunks.length ∧
      (∀ vector ∈ vectors, vector.dims = model.identity.dims) ∧
      derivative = ⟨claim,row.record.id,model,chunks,vectors,time⟩ := by
  rcases process_ok processed with ⟨other,-⟩ | ⟨other,-⟩ | ⟨other,-⟩ | ⟨row,chunks,vectors,same,found,cut,some',valid⟩
  · cases other
  · cases other
  · cases other
  · obtain ⟨inside,here⟩ := embeddingMemory_some found
    obtain ⟨count,dims⟩ := validateBatch_ok valid
    cases same
    exact ⟨row,chunks,vectors,inside,here,cut,some',count,dims,rfl⟩

theorem process_completeEmpty
    (processed : process config model provider claim atActive atMemory time = .ok .completeEmpty) :
    Idle model claim atActive atMemory := by
  rcases process_ok processed with ⟨other,-⟩ | ⟨-,idle⟩ | ⟨other,-⟩ | ⟨row,chunks,vectors,other,-⟩
  · cases other
  · exact idle
  · cases other
  · cases other

theorem reconcile_completeEmpty {refusal : StoreError}
    (reconciled : reconcileCommitFailure model claim refusal atMemory atActive = .ok .completeEmpty) :
    Idle model claim atActive atMemory := by
  unfold reconcileCommitFailure at reconciled
  cases found : embeddingMemory atMemory claim.key.scope claim.key.memoryId with
  | none => exact .inr (.inl found)
  | some row =>
    simp only [found] at reconciled
    split at reconciled
    · cases reconciled
    split at reconciled
    case isTrue erased => exact .inr (.inr ⟨row,found,erased⟩)
    cases current : active atActive.models with
    | none => simp [current] at reconciled
    | some latest =>
      simp only [current] at reconciled
      split at reconciled
      · cases reconciled
      next other => exact .inl ⟨latest,current,fun same => other same.2.2⟩

end

/-! ### What every transaction keeps -/

/-- What an earlier state has to do with a later one. -/
structure Since (seen now : Stock) : Prop where
  rows : Standing seen.memories now.memories
  models : Onward seen.models now.models
  -- work goes only with its memory
  work : ∀ row ∈ seen.work, (∃ later ∈ now.work, later.key = row.key) ∨
    ∃ memory ∈ now.memories, memory.id = row.key.memoryId ∧ memory.live = false

/-- The keys hold, records name their rows, the registry is in order, and work is of a
    memory and a model that are recorded. -/
structure Basis (stock : Stock) : Prop where
  unique : UniqueBy MemoryRow.id stock.memories
  named : ∀ row ∈ stock.memories, row.record.id = row.id
  registered : Registered stock.models
  worked : ∀ row ∈ stock.work, (∃ memory ∈ stock.memories, ofScope row.key.scope row.key.memoryId memory = true) ∧
    ∃ model ∈ stock.models, model.revision = row.key.revision ∧ model.identity.modelId = row.key.modelId

theorem Since.still (stock : Stock) : Since stock stock :=
  ⟨Standing.still _,List.prefix_refl _,fun row member => .inl ⟨row,member,rfl⟩⟩

theorem Since.onward (first second third : Stock) (one : Since first second) (two : Since second third) :
    Since first third := by
  refine ⟨one.rows.trans two.rows,one.models.trans two.models,?_⟩
  intro row member
  rcases one.work row member with ⟨later,inside,same⟩ | ⟨memory,inside,named,dead⟩
  · rw [← same]
    exact two.work later inside
  · obtain ⟨after,there,sameId,kept⟩ := two.rows memory inside
    exact .inr ⟨after,there,sameId.trans named,by rw [kept.erased dead]; exact dead⟩

/-- A memory of a scope is still there in a later state. -/
theorem Standing.placed {before after : List MemoryRow} (standing : Standing before after) {scope : Scope} {id : MemoryId}
    (there : ∃ row ∈ before, ofScope scope id row = true) : ∃ row ∈ after, ofScope scope id row = true := by
  obtain ⟨old,was,here⟩ := there
  obtain ⟨row,inside,sameId,kept⟩ := standing old was
  exact ⟨row,inside,by rw [ofScope,kept.scope,sameId]; exact here⟩

/-- What is left to show of a transaction: where its work rows come from, and which of
    those before it are gone. -/
theorem basis_next {fingerprint : Memory → String} {added : Memory → Prop} {now next : Stock} (basis : Basis now)
    (grown : Grown fingerprint added now.memories next.memories) (registered : Registered next.models)
    (onward : Onward now.models next.models)
    (origin : ∀ row ∈ next.work, (∃ old ∈ now.work, old.key = row.key) ∨
      ((∃ memory ∈ next.memories, ofScope row.key.scope row.key.memoryId memory = true) ∧
        ∃ model ∈ next.models, model.revision = row.key.revision ∧ model.identity.modelId = row.key.modelId))
    (stays : ∀ row ∈ now.work, (∃ later ∈ next.work, later.key = row.key) ∨
      ∃ memory ∈ next.memories, memory.id = row.key.memoryId ∧ memory.live = false) : Basis next ∧ Since now next := by
  refine ⟨⟨grown.unique basis.unique,?_,registered,?_⟩,grown.stays,onward,stays⟩
  · intro row member
    rcases grown.origin row member with ⟨old,was,sameId,kept⟩ | ⟨-,memory,-,sameId,kept⟩
    · rw [kept.named (basis.named old was),sameId]
    · rw [kept.named rfl,sameId]
      rfl
  · intro row member
    rcases origin row member with ⟨old,was,same⟩ | known
    · obtain ⟨placed,model,recorded,revision,modelId⟩ := basis.worked old was
      rw [same] at placed revision modelId
      obtain ⟨kept,inside,sameRevision,sameIdentity,-⟩ := onward.kept recorded
      exact ⟨grown.stays.placed placed,kept,inside,sameRevision.trans revision,by rw [sameIdentity,modelId]⟩
    · exact known

/-! ### The memory a capture settles in -/

section
variable {fingerprint : Memory → String} {history : List Stock} {now : Stock}

theorem seen_standing {Inv : Stock → Prop} (trail : Trail Inv Since history now) {row : MemoryRow}
    (seen : Lifecycle.Seen (history.map Stock.holdings) row) : ∃ later ∈ now.memories, later.id = row.id ∧ Kept row later := by
  obtain ⟨holdings,inside,member⟩ := seen
  obtain ⟨stock,within,rfl⟩ := List.mem_map.mp inside
  exact (trail.since stock within).rows row member

/-- A capture settles in a live memory. -/
theorem settling_live {Inv : Stock → Prop} (trail : Trail Inv Since history now) {settling : Settling}
    (fits : ∀ move ∈ settling.moves, Lifecycle.Fit fingerprint (history.map Stock.holdings) move) {next : Holdings}
    (executed : settling.moves.foldlM (Lifecycle.apply fingerprint) now.holdings = .ok next) :
    ∃ row ∈ next.db.memories, ofScope (settledBy settling).1 (settledBy settling).2.1 row = true ∧ row.live = true := by
  cases settling with
  | inserted maxBodyBytes memory =>
    obtain ⟨mid,settled,rfl⟩ := sourced_applied executed
    obtain ⟨-,-,-,rfl⟩ := insert_applied settled
    refine ⟨memoryRow fingerprint memory,List.mem_append_right _ (List.mem_singleton_self _),by simp [ofScope,settledBy,memoryRow],?_⟩
    have fresh : Fresh memory := fits _ List.mem_cons_self
    rcases fresh.status with status | status <;> simp [memoryRow,MemoryRow.live,status,label]
  | merged scope id expected again =>
    obtain ⟨mid,settled,rfl⟩ := sourced_applied executed
    obtain ⟨guard,rfl⟩ := merge_applied settled
    obtain ⟨-,⟨row,seen,here,-⟩,-⟩ := fits _ List.mem_cons_self
    obtain ⟨later,inside,sameId,kept⟩ := seen_standing trail seen
    have there : ofScope scope id later = true := by rw [ofScope,kept.scope,sameId]; exact here
    exact ⟨_,mem_updateWhere.mpr (.inr ⟨later,inside,there,rfl⟩),there,(guard later inside there).2⟩

theorem supersede_live {supersession : Supersession} {mid next : Holdings}
    (applied : (Lifecycle.system fingerprint).apply mid supersession.move = .ok next) {scope : Scope} {id : MemoryId}
    (alive : ∃ row ∈ mid.db.memories, ofScope scope id row = true ∧ row.live = true) :
    ∃ row ∈ next.db.memories, ofScope scope id row = true ∧ row.live = true := by
  obtain ⟨row,inside,here,lives⟩ := alive
  obtain ⟨-,rfl⟩ := supersede_applied applied
  by_cases chosen : ofScope supersession.scope supersession.old row = true
  · exact ⟨_,mem_updateWhere.mpr (.inr ⟨row,inside,chosen,rfl⟩),here,rfl⟩
  · exact ⟨row,mem_updateWhere.mpr (.inl ⟨inside,Bool.eq_false_iff.mpr chosen⟩),here,lives⟩

/-- The memory work is staged for is live as the transaction commits. -/
theorem staged_live {Inv : Stock → Prop} (trail : Trail Inv Since history now) {txn : Lifecycle.Txn}
    (staged : Lifecycle.Stages fingerprint (history.map Stock.holdings) txn) {next : Holdings}
    (committed : (Lifecycle.system fingerprint).commit now.holdings txn = .ok next) {scope : Scope} {id : MemoryId}
    {at' : UnixSeconds} (work : stagedBy txn = some (scope,id,at')) :
    ∃ row ∈ next.db.memories, ofScope scope id row = true ∧ row.live = true := by
  have fits := Lifecycle.fits _ _ staged
  cases txn with
  | insert maxBodyBytes memory provenance =>
    have applied := commit_single rfl committed
    obtain ⟨-,-,-,rfl⟩ := insert_applied applied
    cases work
    refine ⟨memoryRow fingerprint memory,List.mem_append_right _ (List.mem_singleton_self _),by simp [ofScope,memoryRow],?_⟩
    have fresh : Fresh memory := fits _ (List.mem_singleton_self _)
    rcases fresh.status with status | status <;> simp [memoryRow,MemoryRow.live,status,label]
  | capture settling =>
    have settled := settling_live trail fits committed
    rw [Option.some.inj work] at settled
    exact settled
  | correct settling supersession =>
    obtain ⟨mid,captured,superseded⟩ := correct_applied committed
    have settled := settling_live trail (fun move member => fits move (List.mem_append_left _ member)) captured
    rw [Option.some.inj work] at settled
    exact supersede_live superseded settled
  | supersede => cases work
  | setValidUntil => cases work
  | prepareExpiry => cases work
  | expire => cases work
  | erase => cases work
  | startScope => cases work
  | drain => cases work
  | deliver => cases work

/-- What a transaction sweeps is erased as it commits. -/
theorem swept_dead {txn : Lifecycle.Txn} {next : Holdings}
    (committed : (Lifecycle.system fingerprint).commit now.holdings txn = .ok next) {scope : Scope} {shells : List Shell}
    (swept : sweptBy txn = some (scope,shells)) :
    ∀ row ∈ next.db.memories, named scope shells row = true → row.live = false := by
  have buried : ∀ (at' : UnixSeconds) (old : MemoryRow), named scope shells (bury scope shells at' old) = true →
      (bury scope shells at' old).live = false := by
    intro at' old hit
    obtain ⟨sameId,sameScope,-,lives⟩ := bury_spec scope shells at' old
    have was : named scope shells old = true := by
      unfold named at hit ⊢
      rwa [sameId,sameScope] at hit
    rw [lives,was]
    simp
  cases txn with
  | erase prepared =>
    have applied := commit_single rfl committed
    obtain ⟨-,-,memories,-,-⟩ := erase_applied applied
    cases swept
    intro row member hit
    rw [memories] at member
    rcases mem_updateWhere.mp member with ⟨inside,-⟩ | ⟨mid,inside,-,rfl⟩
    · obtain ⟨old,-,rfl⟩ := List.mem_map.mp inside
      exact buried _ old hit
    · obtain ⟨old,-,rfl⟩ := List.mem_map.mp inside
      exact buried _ old hit
  | drain scope' operation shells' at' =>
    have applied := commit_single rfl committed
    obtain ⟨-,memories,-,-⟩ := drain_applied applied
    cases swept
    intro row member hit
    rw [memories] at member
    obtain ⟨old,-,rfl⟩ := List.mem_map.mp member
    exact buried _ old hit
  | insert => cases swept
  | capture => cases swept
  | supersede => cases swept
  | correct => cases swept
  | setValidUntil => cases swept
  | prepareExpiry => cases swept
  | expire => cases swept
  | startScope => cases swept
  | deliver => cases swept

theorem named_of_ofShells {scope owner : Scope} {shells : List Shell} {id : MemoryId} {row : MemoryRow}
    (swept : ofShells scope shells owner id = true) (here : ofScope owner id row = true) : named scope shells row = true := by
  simp only [ofShells,ofScope,Bool.and_eq_true,beq_iff_eq] at swept here
  simp only [named,here.1,here.2,swept.1,swept.2,beq_self_eq_true,Bool.and_self]

end

/-! ### Every transaction keeps the basis -/

section
variable {fingerprint : Memory → String} {config : ChunkConfig} {redigests : Bool} {scopeId : Scope → String}

theorem stages_fit : (system fingerprint config redigests scopeId).Fits (Stages fingerprint config redigests) := by
  intro history txn staged move within
  rw [List.mem_singleton.mp within]
  exact staged

/-- A change of the work rows in place keeps their keys. -/
theorem updated_keys {claim : Claim} {work : List WorkRow} {row : WorkRow}
    (member : row ∈ updateWhere claim.holds (fun row => { row with state := .done }) work) : ∃ old ∈ work, old.key = row.key := by
  rcases mem_updateWhere.mp member with ⟨inside,-⟩ | ⟨old,inside,-,rfl⟩
  · exact ⟨row,inside,rfl⟩
  · exact ⟨old,inside,rfl⟩

theorem updated_stays {claim : Claim} {work : List WorkRow} {row : WorkRow} (member : row ∈ work) :
    ∃ later ∈ updateWhere claim.holds (fun row => { row with state := .done }) work, later.key = row.key := by
  refine @updateWhere_stays _ _ WorkRow.key _ _ _ ?_ _ member
  exact fun _ _ _ => rfl

section
variable {history : List Stock} {now next : Stock}

theorem life_keeps (trail : Trail Basis Since history now) (basis : Basis now) {txn : Lifecycle.Txn}
    {target : Option ActiveEmbedding} (staged : Lifecycle.Stages fingerprint (history.map Stock.holdings) txn)
    (executed : commitLife fingerprint txn target now = .ok next) : Basis next ∧ Since now next := by
  obtain ⟨holdings,committed,quiet | settles | sweeps⟩ := life_cases executed
  · obtain ⟨-,-,-,rfl⟩ := quiet
    exact basis_next basis (life_grown committed) basis.registered (List.prefix_refl _)
      (fun row member => .inl ⟨row,member,rfl⟩) (fun row member => .inl ⟨row,member,rfl⟩)
  · obtain ⟨provenance,scope,id,at',-,work,-,stagedWork⟩ := settles
    have placed : ∃ row ∈ holdings.db.memories, ofScope scope id row = true := by
      obtain ⟨row,inside,here,-⟩ := staged_live trail staged committed work
      exact ⟨row,inside,here⟩
    rcases stageTarget_ok stagedWork with ⟨model,recorded,-,rfl⟩ | ⟨-,rfl⟩
    · refine basis_next basis (life_grown committed) basis.registered (List.prefix_refl _) ?_
        (fun row member => .inl ⟨row,stageWork_stays member,rfl⟩)
      intro row member
      rcases mem_stageWork member with old | ⟨key,-⟩
      · exact .inl ⟨row,old,rfl⟩
      · rw [key]
        exact .inr ⟨placed,model,recorded,rfl,rfl⟩
    · exact basis_next basis (life_grown committed) basis.registered (List.prefix_refl _)
        (fun row member => .inl ⟨row,member,rfl⟩) (fun row member => .inl ⟨row,member,rfl⟩)
  · obtain ⟨scope,shells,-,-,swept,rfl⟩ := sweeps
    have grown := life_grown committed
    refine basis_next basis grown basis.registered (List.prefix_refl _) ?_ ?_
    · intro row member
      exact .inl ⟨row,(mem_deleteWhere.mp member).1,rfl⟩
    · intro row member
      by_cases gone : ofShells scope shells row.key.scope row.key.memoryId = true
      · obtain ⟨memory,inside,here⟩ := grown.stays.placed (basis.worked row member).1
        have hit := named_of_ofShells gone here
        simp only [ofScope,Bool.and_eq_true,beq_iff_eq] at here
        exact .inr ⟨memory,inside,here.2,swept_dead committed swept memory inside hit⟩
      · exact .inl ⟨row,mem_deleteWhere.mpr ⟨member,Bool.eq_false_iff.mpr gone⟩,rfl⟩

theorem activation_keeps (trail : Trail Basis Since history now) (basis : Basis now) {model : ModelRow} {models : List ModelRow}
    (staged : ModelRegistry.Stages (history.map Stock.models) model)
    (committed : ModelRegistry.activate now.models model = .ok models) : Registered models ∧ Onward now.models models := by
  obtain ⟨_,_,provider,time,mapped,read⟩ := staged
  obtain ⟨atLatest,atActive,order,rfl,rfl⟩ := mapped.of_map
  have since := trail.since_in_order Since.still order
  exact activate_keeps (trail.held _ order.mem_first).registered (trail.held _ order.mem_second).registered basis.registered
    since.models (trail.since _ order.mem_second).models read committed

/-- Every transaction keeps the basis, and goes on from the state before it. -/
theorem basis_keeps :
    Keeps (system fingerprint config redigests scopeId) (fun _ _ => True) (Stages fingerprint config redigests) Basis Since := by
  refine ⟨Since.still,Since.onward,?_,?_⟩
  · refine ⟨by simp [system,Stock.empty,Stock.memories,Holdings.empty,Database.empty,UniqueBy],?_,
      registered_keeps.initial,by simp [system,Stock.empty]⟩
    simp [system,Stock.empty,Stock.memories,Holdings.empty,Database.empty]
  intro history now txn next trail basis staged _ executed
  have same : Grown fingerprint (fun _ => True) now.memories now.memories := (Turned.still _).grown
  have keepsWork : ∀ row ∈ now.work, (∃ later ∈ now.work, later.key = row.key) ∨
      ∃ memory ∈ now.memories, memory.id = row.key.memoryId ∧ memory.live = false :=
    fun row member => .inl ⟨row,member,rfl⟩
  have fromWork : ∀ row ∈ now.work, (∃ old ∈ now.work, old.key = row.key) ∨
      ((∃ memory ∈ now.memories, ofScope row.key.scope row.key.memoryId memory = true) ∧
        ∃ model ∈ now.models, model.revision = row.key.revision ∧ model.identity.modelId = row.key.modelId) :=
    fun row member => .inl ⟨row,member,rfl⟩
  cases staged with
  | life target staged => exact life_keeps trail basis staged executed
  | redigest runs scope rows =>
    obtain ⟨change,turned,rfl⟩ := redigest_ok executed
    have grown : Turned now.memories (now.memories.map change) := ⟨change,rfl,fun row member => (turned row member).1⟩
    exact basis_next basis (@Turned.grown fingerprint (fun _ => True) _ _ grown) basis.registered (List.prefix_refl _)
      (fun row member => .inl ⟨row,member,rfl⟩) (fun row member => .inl ⟨row,member,rfl⟩)
  | activate staged =>
    obtain ⟨models,committed,rest⟩ := bind_ok_iff.mp executed
    cases rest
    obtain ⟨registered,onward⟩ := activation_keeps trail basis staged committed
    exact basis_next basis same registered onward (fun row member => .inl ⟨row,member,rfl⟩) keepsWork
  | embed provider time bound own held activeRead memoryRead processed =>
    obtain ⟨-,-,rfl,-⟩ := embed_ok executed
    exact basis_next basis same basis.registered (List.prefix_refl _) (fun row member => .inl (updated_keys member))
      (fun row member => .inl (updated_stays member))
  | completeEmpty provider time bound own held activeRead memoryRead processed =>
    obtain ⟨-,rfl⟩ := complete_ok executed
    exact basis_next basis same basis.registered (List.prefix_refl _) (fun row member => .inl (updated_keys member))
      (fun row member => .inl (updated_stays member))
  | reconciled refusal bound own held memoryRead activeRead reconciled =>
    obtain ⟨-,rfl⟩ := complete_ok executed
    exact basis_next basis same basis.registered (List.prefix_refl _) (fun row member => .inl (updated_keys member))
      (fun row member => .inl (updated_stays member))
  | reembed time bounded live read =>
    obtain ⟨work,rfl,stays,origin⟩ := reembed_ok executed
    refine basis_next basis same basis.registered (List.prefix_refl _) ?_ (fun row member => .inl ⟨row,stays row member,rfl⟩)
    intro row member
    rcases origin row member with old | ⟨-,known⟩
    · exact .inl ⟨row,old,rfl⟩
    · exact .inr known
  | dropRevision activeRead totalRead embeddedRead modelsRead prepared =>
    obtain ⟨⟨stock,affected⟩,dropped,rest⟩ := bind_ok_iff.mp executed
    cases rest
    obtain ⟨-,-,rfl⟩ := drop_ok dropped
    exact basis_next basis same basis.registered (List.prefix_refl _) fromWork keepsWork
  | upkeep attempts sameKey completesNothing =>
    cases executed
    refine basis_next basis same basis.registered (List.prefix_refl _) ?_ ?_
    · intro row member
      obtain ⟨old,inside,rfl⟩ := List.mem_map.mp member
      exact .inl ⟨old,inside,(sameKey old).symm⟩
    · intro row member
      exact .inl ⟨_,List.mem_map_of_mem member,sameKey row⟩

end

end

/-! ### A small pipeline -/

namespace Sample
open Claims.Sample Memories.Sample Store.Sample Lifecycle.Sample

def config : ChunkConfig := ⟨4,8,2,9⟩

def tiny : ModelIdentity := ⟨"tiny",2,false⟩
def wide : ModelIdentity := ⟨"wide",3,false⟩

def pipeline (redigests : Bool) : System Stock Txn Txn StoreError := system textOf config redigests Scope.display

def now (log : List (Txn × Stock)) : Stock := (pipeline false).current log

/-- The log after one more transaction; whether the re-digest runs beside it is the same. -/
def then' (log : List (Txn × Stock)) (txn : Txn) : List (Txn × Stock) := (pipeline false).extend log txn

/-- A provider that answers every chunk with the same vector. -/
def provider (model : ModelIdentity) (chunks : List Chunk) : Except StoreError (List Vector) :=
  chunks.mapM (fun _ => Vector.new (List.replicate model.dims 0x3F000000))

def activated (log : List (Txn × Stock)) (model : ModelIdentity) : List (Txn × Stock) :=
  match activateProvider (now log).models (now log).models model 10 with
  | .ok (.activates row) => then' log (.activate row)
  | _ => log

/-- A capture stages its work for the active model it observed. -/
def captured (log : List (Txn × Stock)) (memory : Memory) : List (Txn × Stock) :=
  match Lifecycle.capture textOf (now log).holdings.db (now log).holdings.db 64 memory with
  | .ok settling =>
    then' log (.life (.capture settling) ((active (now log).models).map (fun row => ⟨row.identity.modelId,row.revision⟩)))
  | .error _ => log

/-- The chassis hands out all that is pending. -/
def claimedWork (log : List (Txn × Stock)) : List (Txn × Stock) :=
  then' log (.upkeep (fun row => if row.state = .pending then { row with state := .claimed, attempt := 1 } else row) id)

/-- The claim of a memory's work for a model. -/
def claimOf (model : ModelRow) (id : MemoryId) : Claim := ⟨⟨scope,id,model.revision,model.identity.modelId⟩,1⟩

/-- A worker of a model processes a memory's claim. -/
def worked (log : List (Txn × Stock)) (model : ModelRow) (id : MemoryId) : List (Txn × Stock) :=
  match process config model (provider model.identity) (claimOf model id) (now log) (now log) 15 with
  | .ok (.embed derivative) => then' log (.embed derivative)
  | _ => log

def erased (log : List (Txn × Stock)) (id : MemoryId) (cascade : Bool) : List (Txn × Stock) :=
  match prepareErase (fun _ => (now log).holdings.db) scope id cascade 20 with
  | .ok prepared => then' log (.life (.erase prepared) none)
  | .error _ => log

/-- An operator stages work for the memories that lack a model's vectors. -/
def reembedded (log : List (Txn × Stock)) (model : ModelRow) : List (Txn × Stock) :=
  then' log (.reembed scope ⟨model.identity.modelId,model.revision⟩
    ((memoriesMissingEmbedding (now log) scope model.revision none (10 + 1)).take 10) 18)

def dropped (log : List (Txn × Stock)) (revision : Nat) : List (Txn × Stock) := then' log (.dropRevision scope revision)

section
variable {redigests : Bool} {Meets : Stock → Txn → Prop} {log : List (Txn × Stock)}

theorem run_then {txn : Txn} (run : Run (pipeline redigests) Meets log)
    (staged : Stages textOf config redigests ((pipeline redigests).states log) txn) (meet : Meets (now log) txn) :
    Run (pipeline redigests) Meets (then' log txn) :=
  run.extend staged ⟨meet,fun _ _ => trivial⟩

theorem then_eq {txn : Txn} (longer : (then' log txn).length ≠ log.length) : then' log txn = (txn,now (then' log txn)) :: log :=
  extend_eq longer

theorem run_activated {model : ModelIdentity} (run : Run (pipeline redigests) Meets log)
    (meet : ∀ row, Meets (now log) (.activate row)) : Run (pipeline redigests) Meets (activated log model) := by
  unfold activated
  split
  · next row staged =>
    exact run_then run (.activate ⟨_,_,model,10,((pipeline redigests).current_inOrder log).map Stock.models,staged⟩) (meet row)
  · exact run

theorem read_now (redigests : Bool) (log : List (Txn × Stock)) :
    Lifecycle.Read (((pipeline redigests).states log).map Stock.holdings) (now log).holdings.db :=
  ⟨_,List.mem_map_of_mem ((pipeline redigests).current_mem log),rfl⟩

theorem run_captured {memory : Memory} (run : Run (pipeline redigests) Meets log) (admitted : Admitted memory)
    (meet : ∀ settling target, Meets (now log) (.life (.capture settling) target)) :
    Run (pipeline redigests) Meets (captured log memory) := by
  unfold captured
  split
  · next settling staged =>
    exact run_then run (.life _ (.capture 64 admitted (read_now redigests log) (read_now redigests log) staged)) (meet settling _)
  · exact run

theorem run_claimedWork (run : Run (pipeline redigests) Meets log) (meet : ∀ row, Meets (now log) (.upkeep row id)) :
    Run (pipeline redigests) Meets (claimedWork log) := by
  refine run_then run (.upkeep id ?_ ?_) (meet _)
  · intro work
    split_ifs <;> rfl
  · intro work finished
    split_ifs at finished
    exact finished

theorem run_worked {model : ModelRow} {id : MemoryId} (run : Run (pipeline redigests) Meets log)
    (bound : active (now log).models = some model) (held : (now log).work.any (claimOf model id).holds = true)
    (meet : ∀ derivative, Meets (now log) (.embed derivative)) : Run (pipeline redigests) Meets (worked log model id) := by
  unfold worked
  have order := (pipeline redigests).current_inOrder log
  split
  · next derivative staged =>
    exact run_then run (.embed (provider model.identity) 15 ⟨_,(pipeline redigests).current_mem log,bound⟩ rfl
      (List.any_eq_true.mp held) order order staged) (meet derivative)
  · exact run

theorem run_erased {id : MemoryId} {cascade : Bool} (run : Run (pipeline redigests) Meets log)
    (meet : ∀ prepared, prepareErase (fun _ => (now log).holdings.db) scope id cascade 20 = .ok prepared →
      Meets (now log) (.life (.erase prepared) none)) : Run (pipeline redigests) Meets (erased log id cascade) := by
  unfold erased
  split
  · next prepared staged => exact run_then run (.life none (.erase (fun _ => read_now redigests log) staged)) (meet prepared staged)
  · exact run

theorem run_reembedded {model : ModelRow} (run : Run (pipeline redigests) Meets log) (live : model.active = true)
    (meet : ∀ model ids time, Meets (now log) (.reembed scope model ids time)) :
    Run (pipeline redigests) Meets (reembedded log model) :=
  run_then run (.reembed 18 ⟨by decide,by decide⟩ live ((pipeline redigests).current_mem log)) (meet _ _ _)

theorem run_dropped {revision : Nat} (run : Run (pipeline redigests) Meets log)
    (passes : prepareDrop (now log) (now log) (now log) (now log) scope revision = .ok ())
    (meet : Meets (now log) (.dropRevision scope revision)) : Run (pipeline redigests) Meets (dropped log revision) := by
  have read := (pipeline redigests).current_mem log
  exact run_then run (.dropRevision read read read read passes) meet

end

/-- A model is activated, a note captured, and its work handed out and done. -/
def prepared : List (Txn × Stock) := claimedWork (captured (activated [] tiny) (noted noteId "aisle seat" .evidence [] 1))

def tinyRow : ModelRow := ⟨tiny,1,10,true⟩

def stored : List (Txn × Stock) := worked prepared tinyRow noteId

theorem run_stored (redigests : Bool) : Run (pipeline redigests) (fun _ _ => True) stored := by
  have noteRun : Run (pipeline redigests) (fun _ _ => True) prepared :=
    run_claimedWork (run_captured (run_activated .start fun _ => trivial) (noted_admitted aisle_passes _ _ _ _)
      fun _ _ => trivial) fun _ => trivial
  exact run_worked noteRun (by decide +kernel) (by decide +kernel) fun _ => trivial

end Sample

end Aicortex.Pipeline
