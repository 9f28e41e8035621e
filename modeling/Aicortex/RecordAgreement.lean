import Aicortex.LifecycleFacts

/-!
The columns of a memory and the record beside them. Every statement that rewrites the
record rewrites the columns it is projected to, so the two agree in every state, with
one exception: a tombstone's record is an assertion, and the tombstone statement does
not write the trust column.
-/

namespace Aicortex.RecordAgreement
open Aicortex.Text Aicortex.CivilTime Aicortex.Memories Aicortex.Schema Aicortex.MemoryRepo Aicortex.Erasure
open Aicortex.Lifecycle
open Lib.Tables Lib.Outcome Lib.StaleRuns
open Aicortex.Claims hiding Unit
set_option linter.unusedSimpArgs false

/-! ### Columns other than trust -/

/-- The columns every statement writes with the record. -/
structure Aligned (row : MemoryRow) : Prop where
  status : row.status = label row.record.status
  supersededBy : row.supersededBy = supersededBy row.record.status
  kind : row.kind = row.record.kind
  schemaVersion : row.schemaVersion = row.record.schemaVersion
  bodyBytes : row.bodyBytes = byteLen row.record.body.text
  created : row.created = secondsToSql row.record.created
  updated : row.updated = secondsToSql row.record.updated
  current : row.schemaVersion = memorySchemaVersion

def AllAligned (store : Holdings) : Prop := ∀ row ∈ store.db.memories, Aligned row

theorem secondsToSql_idem (at' : UnixSeconds) : secondsToSql (secondsToSql at') = secondsToSql at' := by
  simp [secondsToSql]

section
variable {fingerprint : Memory → String} {history : List Holdings} {now : Holdings}

/-- A tombstone's columns are its record's, and its trust column is the row's own. -/
theorem buried_aligned (trail : System.Trail (fun state => Tidy state ∧ AllAligned state) Since history now) (tidy : Tidy now)
    (aligned : AllAligned now) {scope : Scope} {shells : List Shell} {at' : UnixSeconds}
    (seen : ∀ shell ∈ shells, ShellSeen history scope shell) :
    ∀ row ∈ now.db.memories.map (bury scope shells at'), Aligned row := by
  intro row member
  obtain ⟨old,inside,rfl⟩ := List.mem_map.mp member
  rcases bury_cases scope shells at' old with ⟨-,same⟩ | ⟨-,shell,named,here,buried⟩
  · rw [same]
    exact aligned old inside
  · rw [buried]
    obtain ⟨kind,created⟩ := (seen shell named).current trail tidy.unique inside here
    have old := aligned old inside
    refine ⟨rfl,rfl,kind,old.current,rfl,?_,rfl,old.current⟩
    show _ = secondsToSql shell.created
    rw [← created,old.created,secondsToSql_idem]
    exact old.created

/-- The columns other than trust agree with the record in every state of every run. -/
theorem aligned_keeps :
    System.Keeps (system fingerprint) (fun _ _ => True) (Fit fingerprint) (fun state => Tidy state ∧ AllAligned state)
      Since := by
  refine tidy_keeps.further (by simp [AllAligned,system,Holdings.empty,Database.empty]) ?_
  intro history now move next trail tidy aligned fit _ applied
  cases move with
  | insert maxBodyBytes memory provenance =>
    obtain ⟨-,-,-,rfl⟩ := insert_applied applied
    intro row member
    rcases List.mem_append.mp member with old | added
    · exact aligned row old
    · rw [List.mem_singleton.mp added]
      exact ⟨rfl,rfl,rfl,rfl,rfl,rfl,rfl,fit.schemaVersion⟩
  | source scope id provenance =>
    cases applied
    exact aligned
  | merge scope id expected again =>
    obtain ⟨guard,rfl⟩ := merge_applied applied
    refine updateWhere_all aligned ?_
    intro row member chosen
    obtain ⟨rfl,-⟩ := guard row member chosen
    have old := aligned row member
    exact ⟨old.status,old.supersededBy,old.kind,old.schemaVersion,old.bodyBytes,old.created,rfl,old.current⟩
  | supersede scope old new expected at' =>
    obtain ⟨guard,rfl⟩ := supersede_applied applied
    refine updateWhere_all aligned ?_
    intro row member chosen
    obtain ⟨rfl,-⟩ := guard row member chosen
    have old := aligned row member
    exact ⟨rfl,rfl,old.kind,old.schemaVersion,old.bodyBytes,old.created,rfl,old.current⟩
  | setValidUntil scope id until' =>
    cases applied
    refine updateWhere_all aligned ?_
    intro row member _
    have old := aligned row member
    exact ⟨old.status,old.supersededBy,old.kind,old.schemaVersion,old.bodyBytes,old.created,old.updated,old.current⟩
  | materialize scope kinds =>
    cases applied
    exact aligned
  | expire scope ids kinds at' =>
    cases applied
    refine updateWhere_all aligned ?_
    intro row member chosen
    simp only [Bool.and_eq_true,beq_iff_eq] at chosen
    have old := aligned row member
    -- an active row has no successor, and neither has an expired one
    have unsuperseded : row.supersededBy = none := by
      have active := old.status
      rw [chosen.1.2] at active
      rw [old.supersededBy]
      cases status : row.record.status with
      | superseded by' => simp [status,label] at active
      | _ => rfl
    exact ⟨rfl,unsuperseded,old.kind,old.schemaVersion,old.bodyBytes,old.created,(secondsToSql_idem at').symm,old.current⟩
  | erase prepared =>
    obtain ⟨-,-,memories,-⟩ := erase_applied applied
    have buried := @buried_aligned history now trail tidy aligned _ _ prepared.now fit.2.2
    intro row member
    rw [memories] at member
    refine updateWhere_all buried ?_ row member
    intro marked inside _
    have old := buried marked inside
    exact ⟨old.status,old.supersededBy,old.kind,old.schemaVersion,old.bodyBytes,old.created,old.updated,old.current⟩
  | startScope scope decisionId =>
    obtain ⟨receipts,rfl⟩ := startScope_applied applied
    exact aligned
  | drain scope operation shells at' =>
    obtain ⟨-,memories,-⟩ := drain_applied applied
    obtain ⟨seen,inside,batch,rfl⟩ := fit
    intro row member
    rw [memories] at member
    exact buried_aligned trail tidy aligned (batchShells_seen ⟨seen,inside,rfl⟩) row member
  | deliver scope target decisionId =>
    cases applied
    exact aligned

end

/-! ### The id -/

def AllNamed (store : Holdings) : Prop := ∀ row ∈ store.db.memories, row.record.id = row.id

theorem buried_named {rows : List MemoryRow} (named : ∀ row ∈ rows, row.record.id = row.id) (scope : Scope)
    (shells : List Shell) (at' : UnixSeconds) : ∀ row ∈ rows.map (bury scope shells at'), row.record.id = row.id := by
  intro row member
  obtain ⟨old,inside,rfl⟩ := List.mem_map.mp member
  rcases bury_cases scope shells at' old with ⟨-,same⟩ | ⟨-,shell,-,here,buried⟩
  · rw [same]
    exact named old inside
  · simp only [ofScope,Bool.and_eq_true,beq_iff_eq] at here
    rw [buried]
    exact here.2.symm

section
variable {fingerprint : Memory → String}

/-- The record of a row is of the row's id in every state of every run. -/
theorem named_keeps :
    System.Keeps (system fingerprint) (fun _ _ => True) (Fit fingerprint)
      (fun state => (Tidy state ∧ AllAligned state) ∧ AllNamed state) Since := by
  refine aligned_keeps.further (by simp [AllNamed,system,Holdings.empty,Database.empty]) ?_
  intro history now move next _ _ named _ _ applied
  cases move with
  | insert maxBodyBytes memory provenance =>
    obtain ⟨-,-,-,rfl⟩ := insert_applied applied
    intro row member
    rcases List.mem_append.mp member with old | added
    · exact named row old
    · rw [List.mem_singleton.mp added]
      rfl
  | source scope id provenance =>
    cases applied
    exact named
  | merge scope id expected again =>
    obtain ⟨guard,rfl⟩ := merge_applied applied
    refine updateWhere_all named ?_
    intro row member chosen
    obtain ⟨rfl,-⟩ := guard row member chosen
    exact named row member
  | supersede scope old new expected at' =>
    obtain ⟨guard,rfl⟩ := supersede_applied applied
    refine updateWhere_all named ?_
    intro row member chosen
    obtain ⟨rfl,-⟩ := guard row member chosen
    exact named row member
  | setValidUntil scope id until' =>
    cases applied
    exact updateWhere_all named fun row member _ => named row member
  | materialize scope kinds =>
    cases applied
    exact named
  | expire scope ids kinds at' =>
    cases applied
    exact updateWhere_all named fun row member _ => named row member
  | erase prepared =>
    obtain ⟨-,-,memories,-⟩ := erase_applied applied
    have buried := buried_named named prepared.scope prepared.shells prepared.now
    intro row member
    rw [memories] at member
    refine updateWhere_all buried ?_ row member
    exact fun marked inside _ => buried marked inside
  | startScope scope decisionId =>
    obtain ⟨receipts,rfl⟩ := startScope_applied applied
    exact named
  | drain scope operation shells at' =>
    obtain ⟨-,memories,-⟩ := drain_applied applied
    intro row member
    rw [memories] at member
    exact buried_named named scope shells at' row member
  | deliver scope target decisionId =>
    cases applied
    exact named

end

/-! ### Trust -/

/-- The columns of a row are projected from its record. -/
structure Agrees (row : MemoryRow) : Prop where
  status : row.status = label row.record.status
  supersededBy : row.supersededBy = supersededBy row.record.status
  kind : row.kind = row.record.kind
  trust : row.trust = row.record.trust
  schemaVersion : row.schemaVersion = row.record.schemaVersion
  bodyBytes : row.bodyBytes = byteLen row.record.body.text
  created : row.created = secondsToSql row.record.created
  updated : row.updated = secondsToSql row.record.updated

def AllAgree (store : Holdings) : Prop := ∀ row ∈ store.db.memories, Agrees row

/-- What becomes a tombstone is of the trust a tombstone records. -/
def AssertionsBuried (store : Holdings) (scope : Scope) (shells : List Shell) : Prop :=
  ∀ row ∈ store.db.memories, row.live = true → named scope shells row = true → row.trust = .assertion

/-- An erasure and a batch of a scope's erasure bury assertions only. -/
def BuriesAssertions (now : Holdings) : Move → Prop
  | .erase prepared => AssertionsBuried now prepared.scope prepared.shells
  | .drain scope _ shells _ => AssertionsBuried now scope shells
  | _ => True

def AllTrusted (store : Holdings) : Prop := ∀ row ∈ store.db.memories, row.trust = row.record.trust

/-- Burying keeps the trust columns exactly when it buries assertions. -/
theorem buried_trusted_iff {store : Holdings} (trusted : AllTrusted store) (scope : Scope) (shells : List Shell)
    (at' : UnixSeconds) :
    (∀ row ∈ store.db.memories.map (bury scope shells at'), row.trust = row.record.trust) ↔
      AssertionsBuried store scope shells := by
  constructor
  · intro kept row member alive chosen
    have buried := kept _ (List.mem_map_of_mem member)
    rcases bury_cases scope shells at' row with ⟨missed,-⟩ | ⟨-,shell,-,-,is⟩
    · rw [alive,chosen] at missed
      cases missed
    · rw [is] at buried
      exact buried
  · intro assertions row member
    obtain ⟨old,inside,rfl⟩ := List.mem_map.mp member
    rcases bury_cases scope shells at' old with ⟨-,same⟩ | ⟨alive,shell,isShell,here,is⟩
    · rw [same]
      exact trusted old inside
    · rw [is]
      exact assertions old inside alive (named_of_shell isShell here)

section
variable {fingerprint : Memory → String}

/-- One move keeps the trust columns exactly when it buries assertions only. -/
theorem trusted_iff {now next : Holdings} {move : Move} (trusted : AllTrusted now)
    (applied : (system fingerprint).apply now move = .ok next) : AllTrusted next ↔ BuriesAssertions now move := by
  cases move with
  | insert maxBodyBytes memory provenance =>
    obtain ⟨-,-,-,rfl⟩ := insert_applied applied
    refine iff_of_true ?_ trivial
    intro row member
    rcases List.mem_append.mp member with old | added
    · exact trusted row old
    · rw [List.mem_singleton.mp added]
      rfl
  | source scope id provenance =>
    cases applied
    exact iff_of_true trusted trivial
  | merge scope id expected again =>
    obtain ⟨guard,rfl⟩ := merge_applied applied
    refine iff_of_true (updateWhere_all trusted ?_) trivial
    intro row member chosen
    obtain ⟨rfl,-⟩ := guard row member chosen
    exact trusted row member
  | supersede scope old new expected at' =>
    obtain ⟨guard,rfl⟩ := supersede_applied applied
    refine iff_of_true (updateWhere_all trusted ?_) trivial
    intro row member chosen
    obtain ⟨rfl,-⟩ := guard row member chosen
    exact trusted row member
  | setValidUntil scope id until' =>
    cases applied
    exact iff_of_true (updateWhere_all trusted fun row member _ => trusted row member) trivial
  | materialize scope kinds =>
    cases applied
    exact iff_of_true trusted trivial
  | expire scope ids kinds at' =>
    cases applied
    exact iff_of_true (updateWhere_all trusted fun row member _ => trusted row member) trivial
  | erase prepared =>
    obtain ⟨-,-,memories,-⟩ := erase_applied applied
    rw [BuriesAssertions,← buried_trusted_iff trusted _ _ prepared.now,AllTrusted,memories]
    constructor
    · intro kept row member
      have after := kept _ (List.mem_map_of_mem member)
      split_ifs at after
      · exact after
      · exact after
    · intro buried
      exact updateWhere_all buried fun row member _ => buried row member
  | startScope scope decisionId =>
    obtain ⟨receipts,rfl⟩ := startScope_applied applied
    exact iff_of_true trusted trivial
  | drain scope operation shells at' =>
    obtain ⟨-,memories,-⟩ := drain_applied applied
    rw [BuriesAssertions,← buried_trusted_iff trusted _ _ at',AllTrusted,memories]
  | deliver scope target decisionId =>
    cases applied
    exact iff_of_true trusted trivial

theorem trusted_keeps :
    System.Keeps (system fingerprint) BuriesAssertions (Fit fingerprint)
      (fun state => (Tidy state ∧ AllAligned state) ∧ AllTrusted state) Since :=
  aligned_keeps.further (by simp [AllTrusted,system,Holdings.empty,Database.empty])
    fun _ _ _ _ _ _ trusted _ buries applied => (trusted_iff trusted applied).mpr buries

theorem agrees_iff {store : Holdings} (aligned : AllAligned store) : AllAgree store ↔ AllTrusted store := by
  constructor
  · exact fun agree row member => (agree row member).trust
  · intro trusted row member
    have columns := aligned row member
    exact ⟨columns.status,columns.supersededBy,columns.kind,trusted row member,columns.schemaVersion,columns.bodyBytes,
      columns.created,columns.updated⟩

/-- A capture, with or without a supersession after it, buries nothing. -/
theorem settling_buries (settling : Settling) : ∀ move ∈ settling.moves, ∀ now, BuriesAssertions now move := by
  intro move member now
  rcases Settling.mem_moves member with ⟨_,_,_,rfl⟩ | ⟨_,_,_,rfl⟩ | ⟨_,_,_,_,rfl⟩
  all_goals exact trivial

/-- The columns agree with the record in every state of a run exactly when every row the
    run turned into a tombstone was an assertion. -/
theorem columns_agree_iff {log : List (Txn × Holdings)} (run : System.Run (system fingerprint) (fun _ _ => True) log) :
    (∀ state ∈ (system fingerprint).states log, AllAgree state) ↔ System.Run (system fingerprint) BuriesAssertions log := by
  constructor
  · induction run with
    | start => exact fun _ => .start
    | @step log txn next run staged meet committed ih =>
      intro agree
      have earlier := ih fun state member => agree state (List.mem_cons_of_mem _ member)
      have trusted : AllTrusted ((system fingerprint).current log) := fun row member =>
        (agree _ (List.mem_cons_of_mem _ ((system fingerprint).current_mem log)) row member).trust
      have after : AllTrusted next := fun row member => (agree next List.mem_cons_self row member).trust
      have single : ∀ move, (system fingerprint).moves txn = [move] →
          (system fingerprint).MeetAll BuriesAssertions ((system fingerprint).current log) ((system fingerprint).moves txn) := by
        intro move only
        have applied := System.commit_single only committed
        rw [only]
        exact ⟨(trusted_iff trusted applied).mp after,fun _ _ => trivial⟩
      refine earlier.step staged ?_ committed
      cases txn with
      | capture settling => exact System.meetAll_of_forall (settling_buries settling) _
      | correct settling supersession =>
        refine System.meetAll_of_forall ?_ _
        intro move member now
        rcases List.mem_append.mp member with first | last
        · exact settling_buries settling move first now
        · obtain rfl := List.mem_singleton.mp last
          exact trivial
      | _ => exact single _ rfl
  · intro buries state member
    have held := (buries.trail fits trusted_keeps).held state member
    exact (agrees_iff held.1.2).mpr held.2

end

namespace Sample
open Store.Sample Lifecycle.Sample

/-- A note of the given trust is captured and erased. -/
def forgotten (trust : TrustClass) : List (Txn × Holdings) :=
  erased (captured [] (noted noteId "aisle seat" trust [] 1)) noteId false

theorem forgotten_runs {Meets : Holdings → Move → Prop} {trust : TrustClass}
    (captures : ∀ settling : Settling, ∀ move ∈ settling.moves, ∀ now, Meets now move)
    (erases : ∀ prepared, prepareErase (fun _ => ((system textOf).current
      (captured [] (noted noteId "aisle seat" trust [] 1))).db) Claims.Sample.scope noteId false 20 = .ok prepared →
      Meets ((system textOf).current (captured [] (noted noteId "aisle seat" trust [] 1))) (.erase prepared)) :
    System.Run (system textOf) Meets (forgotten trust) :=
  run_erased (run_captured .start (noted_admitted aisle_passes _ _ _ _)
    fun settling _ => System.meetAll_of_forall (captures settling) _) erases

/-- The tombstone of evidence says assertion where its column says evidence. -/
theorem tombstone_disagrees :
    System.Run (system textOf) (fun _ _ => True) (forgotten .evidence) ∧
      ¬ AllAgree ((system textOf).current (forgotten .evidence)) := by
  constructor
  · exact forgotten_runs (fun _ _ _ _ => trivial) fun _ _ => trivial
  · intro agree
    have trust : ((system textOf).current (forgotten .evidence)).db.memories.all
        (fun row => decide (row.trust = row.record.trust)) = true :=
      List.all_eq_true.mpr fun row member => decide_eq_true (agree row member).trust
    revert trust
    decide +kernel

/-- A note that is an assertion is forgotten with its columns in agreement. -/
theorem columns_agree_iff_assertion :
    System.Run (system textOf) (fun _ _ => True) (forgotten .assertion) ∧
      (forgotten .assertion).length = 2 ∧
      ∀ state ∈ (system textOf).states (forgotten .assertion), AllAgree state := by
  have runs : System.Run (system textOf) (fun _ _ => True) (forgotten .assertion) :=
    forgotten_runs (fun _ _ _ _ => trivial) fun _ _ => trivial
  refine ⟨runs,by decide +kernel,(columns_agree_iff runs).mpr (forgotten_runs settling_buries ?_)⟩
  intro prepared _ row member alive chosen
  have trust : ((system textOf).current (captured [] (noted noteId "aisle seat" .assertion [] 1))).db.memories.all
      (fun row => decide (row.trust = .assertion)) = true := by
    decide +kernel
  exact of_decide_eq_true (List.all_eq_true.mp trust row member)

end Sample

end Aicortex.RecordAgreement
