import Aicortex.LifecycleFacts

/-!
The parents of a captured memory. A capture that settles in a row of its own stages an
edge from every parent it names; one that is merged stages none, and the record it is
merged into keeps the parents it had. So the edges of a live row are to the parents its
record names, and a repeat has edges exactly where it names no others. What has an edge
is marked or buried when the parent is erased.
-/

namespace Aicortex.MergedDerivations
open Aicortex.Text Aicortex.CivilTime Aicortex.Memories Aicortex.Schema Aicortex.MemoryRepo Aicortex.Erasure
open Aicortex.Lifecycle
open Lib.Tables Lib.Outcome Lib.StaleRuns
open Aicortex.Claims hiding Unit
set_option linter.unusedSimpArgs false

/-! ### The edges of a row -/

/-- The edges of a live row are those its record names, and every edge is of a row. -/
structure Edged (store : Holdings) : Prop where
  owned : ∀ edge ∈ store.db.derivations, ∃ row ∈ store.db.memories, row.id = edge.memoryId ∧ row.scope = edge.scope
  told : ∀ row ∈ store.db.memories, row.live = true → ∀ parent,
    derives store.db row.scope parent row.id = true ↔ parent ∈ row.record.provenance.derivedFrom

theorem derives_iff {db : Database} {scope : Scope} {parent child : MemoryId} :
    derives db scope parent child = true ↔
      ∃ edge ∈ db.derivations, edge.scope = scope ∧ edge.parentId = parent ∧ edge.memoryId = child := by
  simp [derives,and_assoc]

theorem mem_derivationRows {memory : Memory} {edge : DerivationRow} (member : edge ∈ derivationRows memory) :
    edge.memoryId = memory.id ∧ edge.scope = memory.scope ∧ edge.parentId ∈ memory.provenance.derivedFrom := by
  obtain ⟨⟨parent,position⟩,listed,rfl⟩ := List.mem_map.mp member
  exact ⟨rfl,rfl,List.fst_mem_of_mem_zipIdx listed⟩

theorem exists_derivationRow {memory : Memory} {parent : MemoryId} (listed : parent ∈ memory.provenance.derivedFrom) :
    ∃ edge ∈ derivationRows memory, edge.scope = memory.scope ∧ edge.parentId = parent ∧ edge.memoryId = memory.id := by
  obtain ⟨place,below,rfl⟩ := List.mem_iff_getElem.mp listed
  refine ⟨⟨memory.id,memory.provenance.derivedFrom[place],place,memory.scope⟩,?_,rfl,rfl,rfl⟩
  refine List.mem_map.mpr ⟨(memory.provenance.derivedFrom[place],place),?_,rfl⟩
  exact List.mk_mem_zipIdx_iff_getElem?.mpr (List.getElem?_eq_getElem below)

/-- A sweep leaves the edges of the rows it does not name. -/
theorem derives_spared {db : Database} {scope : Scope} {shells : List Shell} {row : MemoryRow}
    (spared : named scope shells row = false) (parent : MemoryId) :
    derives (stageSweep scope shells db) row.scope parent row.id = derives db row.scope parent row.id := by
  rw [Bool.eq_iff_iff,derives_iff,derives_iff]
  constructor
  · rintro ⟨edge,member,is⟩
    exact ⟨edge,(mem_deleteWhere.mp member).1,is⟩
  · rintro ⟨edge,member,inScope,ofParent,ofChild⟩
    refine ⟨edge,mem_deleteWhere.mpr ⟨member,?_⟩,inScope,ofParent,ofChild⟩
    rw [inScope,ofChild]
    exact spared

section
variable {fingerprint : Memory → String} {now next : Holdings}

theorem edged_insert (edged : Edged now) {memory : Memory} (free : ∀ other ∈ now.db.memories, other.id ≠ memory.id)
    (rows : next.db.memories = now.db.memories ++ [memoryRow fingerprint memory])
    (edges : next.db.derivations = now.db.derivations ++ derivationRows memory) : Edged next := by
  refine ⟨?_,?_⟩
  · intro edge member
    rw [edges] at member
    rw [rows]
    rcases List.mem_append.mp member with old | new
    · obtain ⟨row,rowIn,is⟩ := edged.owned edge old
      exact ⟨row,List.mem_append_left _ rowIn,is⟩
    · obtain ⟨child,inScope,-⟩ := mem_derivationRows new
      exact ⟨memoryRow fingerprint memory,List.mem_append_right _ (List.mem_singleton_self _),child.symm,inScope.symm⟩
  · intro row member alive parent
    rw [rows] at member
    rw [derives_iff,edges]
    rcases List.mem_append.mp member with old | new
    · rw [← edged.told row old alive parent,derives_iff]
      constructor
      · rintro ⟨edge,edgeIn,inScope,ofParent,ofChild⟩
        rcases List.mem_append.mp edgeIn with before | added
        · exact ⟨edge,before,inScope,ofParent,ofChild⟩
        · exact absurd (ofChild.symm.trans (mem_derivationRows added).1) (free row old)
      · rintro ⟨edge,edgeIn,is⟩
        exact ⟨edge,List.mem_append_left _ edgeIn,is⟩
    · obtain rfl := List.mem_singleton.mp new
      constructor
      · rintro ⟨edge,edgeIn,inScope,rfl,ofChild⟩
        rcases List.mem_append.mp edgeIn with before | added
        · obtain ⟨child,childIn,same,-⟩ := edged.owned edge before
          exact absurd (same.trans ofChild) (free child childIn)
        · exact (mem_derivationRows added).2.2
      · intro listed
        obtain ⟨edge,edgeIn,is⟩ := exists_derivationRow listed
        exact ⟨edge,List.mem_append_right _ edgeIn,is⟩

/-- A change of rows in place that keeps the parents their records name. -/
theorem edged_update (edged : Edged now) {selected : MemoryRow → Bool} {change : MemoryRow → MemoryRow}
    (rows : next.db.memories = updateWhere selected change now.db.memories)
    (edges : next.db.derivations = now.db.derivations)
    (kept : ∀ row ∈ now.db.memories, selected row = true → (change row).id = row.id ∧ (change row).scope = row.scope ∧
      (change row).record.provenance = row.record.provenance ∧ row.live = true) : Edged next := by
  have same : ∀ scope parent child, derives next.db scope parent child = derives now.db scope parent child := by
    intro scope parent child
    rw [derives,edges,derives]
  refine ⟨?_,?_⟩
  · intro edge member
    rw [edges] at member
    obtain ⟨row,rowIn,ofChild,inScope⟩ := edged.owned edge member
    have places : ∀ row ∈ now.db.memories, selected row = true →
        ((change row).id,(change row).scope) = (row.id,row.scope) := by
      intro row member chosen
      obtain ⟨sameId,sameScope,-⟩ := kept row member chosen
      rw [sameId,sameScope]
    obtain ⟨later,laterIn,place⟩ := @updateWhere_stays _ _ (fun row : MemoryRow => (row.id,row.scope)) _ _ _ places _ rowIn
    rw [Prod.mk.injEq] at place
    rw [rows]
    exact ⟨later,laterIn,place.1.trans ofChild,place.2.trans inScope⟩
  · intro row member alive parent
    rw [rows] at member
    rw [same]
    rcases mem_updateWhere.mp member with ⟨old,-⟩ | ⟨old,oldIn,chosen,rfl⟩
    · exact edged.told row old alive parent
    · obtain ⟨sameId,sameScope,sameParents,oldAlive⟩ := kept old oldIn chosen
      rw [sameId,sameScope,sameParents]
      exact edged.told old oldIn oldAlive parent

theorem edged_bury (edged : Edged now) {scope : Scope} {shells : List Shell} {at' : UnixSeconds}
    (rows : next.db.memories = now.db.memories.map (bury scope shells at'))
    (edges : next.db.derivations = (stageSweep scope shells now.db).derivations) : Edged next := by
  refine ⟨?_,?_⟩
  · intro edge member
    rw [edges] at member
    obtain ⟨row,rowIn,ofChild,inScope⟩ := edged.owned edge (mem_deleteWhere.mp member).1
    obtain ⟨sameId,sameScope,-⟩ := bury_spec scope shells at' row
    rw [rows]
    exact ⟨_,List.mem_map_of_mem rowIn,sameId.trans ofChild,sameScope.trans inScope⟩
  · intro row member alive parent
    rw [rows] at member
    obtain ⟨old,oldIn,rfl⟩ := List.mem_map.mp member
    obtain ⟨same,oldAlive,spared⟩ := bury_live alive
    have swept : derives next.db old.scope parent old.id =
        derives (stageSweep scope shells now.db) old.scope parent old.id := by
      rw [derives,edges,derives]
    rw [same,swept,derives_spared spared]
    exact edged.told old oldIn oldAlive parent

/-- In every state of every run the edges of a live row are those its record names. -/
theorem edged_keeps :
    System.Keeps (system fingerprint) (fun _ _ => True) (Fit fingerprint) (fun state => Tidy state ∧ Edged state) Since := by
  refine tidy_keeps.further ⟨?_,?_⟩ ?_
  · intro edge member
    cases member
  · intro row member
    cases member
  intro history now move next trail tidy edged fit _ applied
  cases move with
  | insert maxBodyBytes memory provenance =>
    obtain ⟨free,-,-,rfl⟩ := insert_applied applied
    exact edged_insert edged free rfl rfl
  | source scope id provenance =>
    cases applied
    exact ⟨edged.owned,edged.told⟩
  | merge scope id expected again =>
    obtain ⟨guard,rfl⟩ := merge_applied applied
    refine edged_update edged rfl rfl ?_
    intro row member chosen
    obtain ⟨rfl,alive⟩ := guard row member chosen
    exact ⟨rfl,rfl,rfl,alive⟩
  | supersede scope old new expected at' =>
    obtain ⟨guard,rfl⟩ := supersede_applied applied
    refine edged_update edged rfl rfl ?_
    intro row member chosen
    obtain ⟨rfl,alive,-⟩ := guard row member chosen
    exact ⟨rfl,rfl,rfl,alive⟩
  | setValidUntil scope id until' =>
    cases applied
    refine edged_update edged rfl rfl ?_
    intro row _ chosen
    exact ⟨rfl,rfl,rfl,(Bool.and_eq_true_iff.mp chosen).2⟩
  | materialize scope kinds =>
    cases applied
    exact ⟨edged.owned,edged.told⟩
  | expire scope ids kinds at' =>
    cases applied
    refine edged_update edged rfl rfl ?_
    intro row _ chosen
    simp only [Bool.and_eq_true,beq_iff_eq] at chosen
    exact ⟨rfl,rfl,rfl,by simp [MemoryRow.live,chosen.1.2]⟩
  | erase prepared =>
    obtain ⟨-,derivations,memories,-⟩ := erase_applied applied
    have buried : Edged { next with
        db := { next.db with memories := now.db.memories.map (bury prepared.scope prepared.shells prepared.now) } } :=
      edged_bury edged rfl derivations
    refine edged_update buried memories rfl ?_
    intro row _ chosen
    simp only [Bool.and_eq_true] at chosen
    exact ⟨rfl,rfl,rfl,chosen.1.2⟩
  | startScope scope decisionId =>
    obtain ⟨receipts,rfl⟩ := startScope_applied applied
    exact ⟨edged.owned,edged.told⟩
  | drain scope operation shells at' =>
    obtain ⟨derivations,memories,-⟩ := drain_applied applied
    exact edged_bury edged memories derivations
  | deliver scope target decisionId =>
    cases applied
    exact ⟨edged.owned,edged.told⟩

end

/-! ### Captures and the erasures after them -/

/-- How the capture of a transaction settled. -/
def settles : Txn → Option Settling
  | .capture settling => some settling
  | .correct settling _ => some settling
  | _ => none

/-- Every parent that a capture names has an edge to the row the capture settled in. -/
def Joined (entry : Txn × Holdings) : Prop :=
  ∀ settling, settles entry.1 = some settling → ∀ parent ∈ settling.memory.provenance.derivedFrom,
    derives entry.2.db settling.memory.scope parent settling.id = true

/-- An erasure of a parent that a capture named buries or marks the row it settled in. -/
def Answers (later earlier : Txn × Holdings) : Prop :=
  ∀ settling prepared, settles earlier.1 = some settling → later.1 = .erase prepared →
    prepared.scope = settling.memory.scope → prepared.target ∈ settling.memory.provenance.derivedFrom →
    ∀ row ∈ later.2.db.memories, row.id = settling.id → row.live = false ∨ row.originErased = true

structure EdgesSurvive (log : List (Txn × Holdings)) : Prop where
  joined : ∀ entry ∈ log, Joined entry
  answered : log.Pairwise Answers

/-- A repeat names no parent that the record it is merged into does not. -/
def Within : Settling → Prop
  | .inserted _ _ => True
  | .merged _ _ expected again => ∀ parent ∈ again.provenance.derivedFrom, parent ∈ expected.provenance.derivedFrom

def MergesWithin (_ : Holdings) : Move → Prop
  | .merge _ _ expected again => ∀ parent ∈ again.provenance.derivedFrom, parent ∈ expected.provenance.derivedFrom
  | _ => True

section
variable {fingerprint : Memory → String} {history : List Holdings} {now next : Holdings}

/-- What derives from the target of an erasure is buried or marked by it. -/
theorem erase_reaches (tidy : Tidy now) (edged : Edged now) {prepared : PreparedErasure}
    (applied : (system fingerprint).apply now (.erase prepared) = .ok next) {child : MemoryId}
    (derived : ∀ row ∈ now.db.memories, row.id = child → row.live = true →
      derives now.db prepared.scope prepared.target child = true) :
    ∀ row ∈ next.db.memories, row.id = child → row.live = false ∨ row.originErased = true := by
  rintro row member rfl
  obtain ⟨-,-,memories,-⟩ := erase_applied applied
  rw [memories] at member
  rcases mem_updateWhere.mp member with ⟨inside,skipped⟩ | ⟨old,-,-,rfl⟩
  · by_contra missed
    obtain ⟨alive,unmarked⟩ := not_or.mp missed
    obtain ⟨old,oldIn,rfl⟩ := List.mem_map.mp inside
    obtain ⟨same,oldAlive,spared⟩ := bury_live (Bool.of_not_eq_false alive)
    rw [same] at skipped unmarked derived
    have edge := derived old oldIn rfl oldAlive
    obtain ⟨row,rowIn,inScope,-,ofChild⟩ := derives_iff.mp edge
    obtain ⟨owner,ownerIn,sameId,sameScope⟩ := edged.owned row rowIn
    obtain rfl := tidy.unique.eq_of_key ownerIn oldIn (sameId.trans ofChild)
    have here : owner.scope = prepared.scope := sameScope.trans inScope
    have still := @derives_spared now.db _ _ _ spared prepared.target
    rw [here,edge] at still
    rw [here,Bool.eq_false_iff.mpr unmarked,oldAlive,still] at skipped
    simp at skipped
  · exact .inr rfl

/-- A capture is joined to its parents when it settles in a row of its own, or when the
    row it is merged into has them already. -/
theorem settling_edged_iff {Inv : Holdings → Prop} (trail : System.Trail Inv Since history now) (edged : Edged now)
    {settling : Settling} (fits : ∀ move ∈ settling.moves, Fit fingerprint history move)
    (executed : settling.moves.foldlM (apply fingerprint) now = .ok next) :
    (∀ parent ∈ settling.memory.provenance.derivedFrom,
      derives next.db settling.memory.scope parent settling.id = true) ↔ Within settling := by
  cases settling with
  | inserted maxBodyBytes memory =>
    obtain ⟨mid,inserted,rfl⟩ := sourced_applied executed
    obtain ⟨-,-,-,rfl⟩ := insert_applied inserted
    refine iff_of_true ?_ trivial
    intro parent listed
    obtain ⟨edge,edgeIn,is⟩ := exists_derivationRow listed
    exact derives_iff.mpr ⟨edge,List.mem_append_right _ edgeIn,is⟩
  | merged scope id expected again =>
    obtain ⟨mid,merged,rfl⟩ := sourced_applied executed
    obtain ⟨guard,rfl⟩ := merge_applied merged
    obtain ⟨rfl,⟨was,wasSeen,there,-⟩,-⟩ := fits _ List.mem_cons_self
    obtain ⟨row,inside,sameId,steady⟩ := wasSeen.stays trail
    have here : ofScope again.scope id row = true := by
      rw [ofScope,steady.scope,sameId]
      exact there
    obtain ⟨rfl,alive⟩ := guard row inside here
    simp only [ofScope,Bool.and_eq_true,beq_iff_eq] at here
    have told := edged.told row inside alive
    rw [here.1,here.2] at told
    exact forall₂_congr fun parent _ => told parent

/-- Of what a capture stages, only a merge is under the condition. -/
theorem meets_iff (settling : Settling) {others : List Move} (free : ∀ move ∈ others, ∀ now, MergesWithin now move)
    (now : Holdings) : (system fingerprint).MeetAll MergesWithin now (settling.moves ++ others) ↔ Within settling := by
  cases settling with
  | inserted maxBodyBytes memory =>
    refine iff_of_true (System.meetAll_of_forall ?_ now) trivial
    intro move member now
    rcases List.mem_append.mp member with mine | other
    · simp only [Settling.moves,List.mem_cons,List.not_mem_nil,or_false] at mine
      rcases mine with rfl | rfl <;> exact trivial
    · exact free move other now
  | merged scope id expected again =>
    constructor
    · exact fun meet => meet.1
    · intro within
      refine System.meetAll_of_forall ?_ now
      intro move member now
      rcases List.mem_append.mp member with mine | other
      · simp only [Settling.moves,List.mem_cons,List.not_mem_nil,or_false] at mine
        rcases mine with rfl | rfl
        · exact within
        · exact trivial
      · exact free move other now

/-- One transaction joins what it captures exactly when its merge meets the condition. -/
theorem joined_iff {log : List (Txn × Holdings)} (run : System.Run (system fingerprint) (fun _ _ => True) log) {txn : Txn}
    (staged : (system fingerprint).Stages ((system fingerprint).states log) txn)
    (committed : (system fingerprint).commit ((system fingerprint).current log) txn = .ok next) :
    Joined (txn,next) ↔
      (system fingerprint).MeetAll MergesWithin ((system fingerprint).current log) ((system fingerprint).moves txn) := by
  have trail := run.trail fits edged_keeps
  have edged := (trail.held _ ((system fingerprint).current_mem log)).2
  have fit := fits _ _ staged
  have only : ∀ settling, settles txn = some settling → (Joined (txn,next) ↔
      ∀ parent ∈ settling.memory.provenance.derivedFrom,
        derives next.db settling.memory.scope parent settling.id = true) := by
    intro settling is
    constructor
    · exact fun joined => joined settling is
    · intro edges other otherIs
      obtain rfl := Option.some.inj (is.symm.trans otherIs)
      exact edges
  cases txn with
  | capture settling =>
    have free : ∀ move ∈ ([] : List Move), ∀ now, MergesWithin now move := by simp
    have meets := @meets_iff fingerprint settling [] free ((system fingerprint).current log)
    rw [List.append_nil] at meets
    exact (only settling rfl).trans ((settling_edged_iff trail edged fit committed).trans meets.symm)
  | correct settling supersession =>
    obtain ⟨mid,captured,superseded⟩ := correct_applied committed
    obtain ⟨-,rfl⟩ := supersede_applied superseded
    have free : ∀ move ∈ [supersession.move], ∀ now, MergesWithin now move := by
      intro move member now
      rw [List.mem_singleton.mp member]
      exact trivial
    have fitting := fun move member => fit move (List.mem_append_left _ member)
    exact (only settling rfl).trans ((settling_edged_iff trail edged fitting captured).trans (meets_iff settling free _).symm)
  | _ => exact iff_of_true (fun settling is => by cases is) ⟨trivial,fun _ _ => trivial⟩

/-- An erasure reaches every capture that was joined to the erased memory. -/
theorem answers_of {log : List (Txn × Holdings)} (run : System.Run (system fingerprint) (fun _ _ => True) log) {txn : Txn}
    (committed : (system fingerprint).commit ((system fingerprint).current log) txn = .ok next) {entry : Txn × Holdings}
    (member : entry ∈ log) (joined : Joined entry) : Answers (txn,next) entry := by
  rintro settling prepared settled rfl sameScope named
  have trail := run.trail fits edged_keeps
  obtain ⟨tidy,edged⟩ := trail.held _ ((system fingerprint).current_mem log)
  refine erase_reaches tidy edged (System.commit_single rfl committed) ?_
  intro row rowIn mine alive
  have before : entry.2 ∈ (system fingerprint).states log := List.mem_append_left _ (List.mem_map_of_mem member)
  have edge := joined settling settled prepared.target named
  rw [← mine,← sameScope] at edge
  rw [← mine]
  exact derives_still trail tidy.unique before rowIn alive edge

/-- Every capture of a run has an edge from each parent it names, and answers the erasure
    of any, exactly when no repeat names a parent that the record it is merged into does
    not. -/
theorem edges_survive_iff {log : List (Txn × Holdings)} (run : System.Run (system fingerprint) (fun _ _ => True) log) :
    EdgesSurvive log ↔ System.Run (system fingerprint) MergesWithin log := by
  induction run with
  | start => exact iff_of_true ⟨by simp,List.Pairwise.nil⟩ .start
  | @step log txn next run staged meet committed ih =>
    have last := joined_iff run staged committed
    constructor
    · intro survive
      have earlier : EdgesSurvive log :=
        ⟨fun entry member => survive.joined entry (List.mem_cons_of_mem _ member),(List.pairwise_cons.mp survive.answered).2⟩
      exact (ih.mp earlier).step staged (last.mp (survive.joined _ List.mem_cons_self)) committed
    · intro within
      cases within with
      | step before _ meets _ =>
        have earlier := ih.mpr before
        refine ⟨List.forall_mem_cons.mpr ⟨last.mpr meets,earlier.joined⟩,List.pairwise_cons.mpr ⟨?_,earlier.answered⟩⟩
        exact fun entry member => answers_of run committed member (earlier.joined entry member)

end

namespace Sample
open Claims.Sample hiding secondId
open Memories.Sample Store.Sample Lifecycle.Sample

def thirdId : MemoryId := thirdMemoryId

/-- A summary of the given parents, after the note it may name. -/
def summarized (parents : List MemoryId) : List (Txn × Holdings) :=
  captured (captured [] (noted secondId "window seat" .evidence [] 1)) (noted noteId "aisle seat" .evidence parents 1)

/-- The summary is captured again, naming the note. -/
def resummarized (parents : List MemoryId) : List (Txn × Holdings) :=
  captured (summarized parents) (noted thirdId "aisle seat" .evidence [secondId] 1)

def isWithin : Settling → Bool
  | .inserted _ _ => true
  | .merged _ _ expected again =>
    again.provenance.derivedFrom.all (fun parent => expected.provenance.derivedFrom.contains parent)

theorem within_of {settling : Settling} (is : isWithin settling = true) : Within settling := by
  cases settling with
  | inserted maxBodyBytes memory => exact trivial
  | merged scope id expected again =>
    intro parent listed
    exact List.contains_iff_mem.mp (List.all_eq_true.mp is parent listed)

theorem resummarized_run (parents : List MemoryId) : System.Run (system textOf) (fun _ _ => True) (resummarized parents) :=
  run_captured_free (run_captured_free (run_captured_free .start (noted_admitted window_passes _ _ _ _))
    (noted_admitted aisle_passes _ _ _ _)) (noted_admitted aisle_passes _ _ _ _)

/-- A summary that named no parent is merged with one that names the note: there is no
    edge, and the summary outlives the erasure of the note without a mark. -/
theorem merged_summary_unmarked :
    System.Run (system textOf) (fun _ _ => True) (erased (resummarized []) secondId false) ∧
      ¬ EdgesSurvive (erased (resummarized []) secondId false) ∧
      (((system textOf).current (erased (resummarized []) secondId false)).db.memories.filter (fun row => row.id == noteId)).map
        (fun row => (row.live,row.originErased)) = [(true,false)] := by
  refine ⟨run_erased (resummarized_run []) fun _ _ => trivial,?_,by decide +kernel⟩
  intro survive
  have joined : (erased (resummarized []) secondId false).all (fun entry => (settles entry.1).all (fun settling =>
      settling.memory.provenance.derivedFrom.all
        (fun parent => derives entry.2.db settling.memory.scope parent settling.id))) = true := by
    refine List.all_eq_true.mpr fun entry member => ?_
    rw [Option.all_eq_true]
    intro settling is
    exact List.all_eq_true.mpr fun parent listed => survive.joined entry member settling is parent listed
  revert joined
  decide +kernel

/-- A summary that names the note both times is marked when the note is erased. -/
theorem edges_survive_iff_resummarized :
    System.Run (system textOf) (fun _ _ => True) (erased (resummarized [secondId]) secondId false) ∧
      EdgesSurvive (erased (resummarized [secondId]) secondId false) ∧
      (((system textOf).current (erased (resummarized [secondId]) secondId false)).db.memories.filter
        (fun row => row.id == noteId)).map (fun row => (row.live,row.originErased)) = [(true,true)] := by
  have run : System.Run (system textOf) (fun _ _ => True) (erased (resummarized [secondId]) secondId false) :=
    run_erased (resummarized_run [secondId]) fun _ _ => trivial
  have within : ∀ {log : List (Txn × Holdings)} {memory : Memory},
      (capture textOf ((system textOf).current log).db ((system textOf).current log).db 64 memory).toOption.all isWithin = true →
      ∀ settling, capture textOf ((system textOf).current log).db ((system textOf).current log).db 64 memory = .ok settling →
        (system textOf).MeetAll MergesWithin ((system textOf).current log) settling.moves := by
    intro log memory check settling staged
    rw [staged] at check
    have meets := @meets_iff textOf settling [] (by simp) ((system textOf).current log)
    rw [List.append_nil] at meets
    exact meets.mpr (within_of check)
  refine ⟨run,(edges_survive_iff run).mpr ?_,by decide +kernel⟩
  refine run_erased (run_captured (run_captured (run_captured .start (noted_admitted window_passes _ _ _ _) ?_)
    (noted_admitted aisle_passes _ _ _ _) ?_) (noted_admitted aisle_passes _ _ _ _) ?_) fun _ _ => trivial
  all_goals exact within (by decide +kernel)

end Sample

end Aicortex.MergedDerivations
