import Aicortex.LifecycleFacts
import Aicortex.Lib.Dominance

/-!
Who superseded whom. A call walks the chain of its successor before it stages anything,
on reads that may be stale when the transaction commits, so two calls that cross each
find nothing wrong. The statement walks the chain again as it commits; the rows have no
cycle then, so the walk is complete, and the edge it lets through closes none.
-/

namespace Aicortex.SupersessionChains
open Aicortex.Text Aicortex.CivilTime Aicortex.Memories Aicortex.Schema Aicortex.MemoryRepo Aicortex.Erasure
open Aicortex.Lifecycle
open Relation Lib.Tables Lib.Outcome Lib.StaleRuns Lib.Dominance
open Aicortex.Claims hiding Unit
set_option linter.unusedSimpArgs false

/-- The row of one memory of the scope names the other as its successor. -/
def Supersedes (db : Database) (scope : Scope) (old new : MemoryId) : Prop :=
  ∃ row ∈ db.memories, row.scope = scope ∧ row.id = old ∧ row.supersededBy = some new

def NoCycle (store : Holdings) : Prop := ∀ scope, Acyclic (Supersedes store.db scope)

/-! ### The walk of the statement -/

theorem successors_eq (db : Database) (scope : Scope) (fuel : Nat) (id : MemoryId) :
    successors db scope fuel id = chainFrom (successor db scope) fuel id := by
  induction fuel generalizing id with
  | zero => rfl
  | succ fuel ih =>
    have same : successors db scope fuel = chainFrom (successor db scope) fuel := funext ih
    rw [successors,chainFrom,same]
    rfl

/-- Where ids are unique, the row that is read is the one there is. -/
theorem successor_iff {db : Database} (unique : UniqueBy MemoryRow.id db.memories) {scope : Scope} {old new : MemoryId} :
    successor db scope old = some new ↔ Supersedes db scope old new := by
  constructor
  · intro found
    obtain ⟨row,located,is⟩ := Option.bind_eq_some_iff.mp found
    have here := List.find?_some located
    simp only [ofScope,Bool.and_eq_true,beq_iff_eq] at here
    exact ⟨row,List.mem_of_find?_eq_some located,here.1,here.2,is⟩
  · rintro ⟨row,member,rfl,rfl,is⟩
    have chosen : ofScope row.scope row.id row = true := by simp [ofScope]
    obtain ⟨found,located⟩ := Option.isSome_iff_exists.mp (List.find?_isSome.mpr ⟨row,member,chosen⟩)
    have here := List.find?_some located
    simp only [ofScope,Bool.and_eq_true,beq_iff_eq] at here
    obtain rfl := unique.eq_of_key (List.mem_of_find?_eq_some located) member here.2
    rw [successor,located]
    exact is

/-- The statement's walk meets every memory that can be reached. -/
theorem reaches_complete {db : Database} (unique : UniqueBy MemoryRow.id db.memories) {scope : Scope}
    (acyclic : Acyclic (Supersedes db scope)) {source target : MemoryId}
    (path : ReflTransGen (Supersedes db scope) source target) : reaches db scope source target = true := by
  have edges : (fun old new => successor db scope old = some new) = Supersedes db scope :=
    funext fun _ => funext fun _ => propext (successor_iff unique)
  have covers : ∀ id, (successor db scope id).isSome = true → id ∈ db.memories.map MemoryRow.id := by
    intro id has
    obtain ⟨new,found⟩ := Option.isSome_iff_exists.mp has
    obtain ⟨row,member,-,rfl,-⟩ := (successor_iff unique).mp found
    exact List.mem_map_of_mem member
  rw [← edges] at acyclic path
  have met := mem_chainFrom acyclic covers path
  rw [List.length_map] at met
  rw [reaches,successors_eq]
  exact List.contains_iff_mem.mpr met

/-! ### One move -/

/-- A row names no successor, or the one its memory had before. -/
def Inherits (before : List MemoryRow) (row : MemoryRow) : Prop :=
  row.supersededBy = none ∨
    ∃ old ∈ before, old.scope = row.scope ∧ old.id = row.id ∧ old.supersededBy = row.supersededBy

theorem inherits_self {rows : List MemoryRow} : ∀ row ∈ rows, Inherits rows row :=
  fun row member => .inr ⟨row,member,rfl,rfl,rfl⟩

theorem noCycle_of {now next : Holdings} (free : NoCycle now)
    (inherits : ∀ row ∈ next.db.memories, Inherits now.db.memories row) : NoCycle next := by
  intro scope
  refine (free scope).mono ?_
  rintro old new ⟨row,member,rfl,rfl,is⟩
  rcases inherits row member with bare | ⟨before,inside,sameScope,sameId,same⟩
  · rw [bare] at is
    cases is
  · exact ⟨before,inside,sameScope,sameId,same.trans is⟩

theorem inherits_update {selected : MemoryRow → Bool} {change : MemoryRow → MemoryRow} {before rows : List MemoryRow}
    (inherits : ∀ row ∈ rows, Inherits before row)
    (same : ∀ row, (change row).scope = row.scope ∧ (change row).id = row.id ∧ (change row).supersededBy = row.supersededBy) :
    ∀ row ∈ updateWhere selected change rows, Inherits before row := by
  intro row member
  rcases mem_updateWhere.mp member with ⟨old,-⟩ | ⟨old,inside,-,rfl⟩
  · exact inherits row old
  · obtain ⟨sameScope,sameId,sameSuccessor⟩ := same old
    unfold Inherits
    rw [sameScope,sameId,sameSuccessor]
    exact inherits old inside

/-- A tombstone names no successor. -/
theorem inherits_bury (scope : Scope) (shells : List Shell) (at' : UnixSeconds) (rows : List MemoryRow) :
    ∀ row ∈ rows.map (bury scope shells at'), Inherits rows row := by
  intro row member
  obtain ⟨old,inside,rfl⟩ := List.mem_map.mp member
  rcases bury_cases scope shells at' old with ⟨-,same⟩ | ⟨-,shell,-,-,buried⟩
  · rw [same]
    exact inherits_self old inside
  · rw [buried]
    exact .inl rfl

/-- The edge a supersession adds runs to a memory from which the old one is not reached. -/
theorem noCycle_supersede {fingerprint : Memory → String} {now next : Holdings}
    (unique : UniqueBy MemoryRow.id now.db.memories) (free : NoCycle now) {scope : Scope} {old new : MemoryId}
    {expected : Memory} {at' : UnixSeconds} (applied : (system fingerprint).apply now (.supersede scope old new expected at') = .ok next) :
    NoCycle next := by
  obtain ⟨guard,rfl⟩ := supersede_applied applied
  intro within
  by_cases touched : within = scope ∧ ∃ row ∈ now.db.memories, ofScope scope old row = true
  · obtain ⟨rfl,row,member,chosen⟩ := touched
    have blocked : ¬ ReflTransGen (Supersedes now.db within) new old := by
      intro path
      have met := reaches_complete unique (free within) path
      rw [(guard row member chosen).2.2] at met
      cases met
    refine (acyclic_add_edge (free within) blocked).mono ?_
    rintro first second ⟨after,inside,rfl,rfl,is⟩
    rcases mem_updateWhere.mp inside with ⟨before,-⟩ | ⟨before,-,taken,rfl⟩
    · exact .inl ⟨after,before,rfl,rfl,is⟩
    · simp only [ofScope,Bool.and_eq_true,beq_iff_eq] at taken
      exact .inr ⟨taken.2,(Option.some.inj is).symm⟩
  · refine (free within).mono ?_
    rintro first second ⟨after,inside,rfl,rfl,is⟩
    rcases mem_updateWhere.mp inside with ⟨before,-⟩ | ⟨before,was,taken,rfl⟩
    · exact ⟨after,before,rfl,rfl,is⟩
    · have here := taken
      simp only [ofScope,Bool.and_eq_true,beq_iff_eq] at here
      exact absurd ⟨here.1,before,was,taken⟩ touched

section
variable {fingerprint : Memory → String}

theorem noCycle_keeps :
    System.Keeps (system fingerprint) (fun _ _ => True) (Fit fingerprint) (fun state => Tidy state ∧ NoCycle state) Since := by
  refine tidy_keeps.further ?_ ?_
  · intro scope id path
    obtain ⟨_,⟨row,member,-⟩,-⟩ := TransGen.head'_iff.mp path
    cases member
  intro history now move next trail tidy free fit _ applied
  cases move with
  | insert maxBodyBytes memory provenance =>
    obtain ⟨-,-,-,rfl⟩ := insert_applied applied
    refine noCycle_of free ?_
    intro row member
    rcases List.mem_append.mp member with old | added
    · exact inherits_self row old
    · rw [List.mem_singleton.mp added]
      refine .inl ?_
      rcases fit.status with active | quarantined
      · simp [memoryRow,active,supersededBy]
      · simp [memoryRow,quarantined,supersededBy]
  | source scope id provenance =>
    cases applied
    exact free
  | merge scope id expected again =>
    obtain ⟨-,rfl⟩ := merge_applied applied
    exact noCycle_of free (inherits_update inherits_self fun _ => ⟨rfl,rfl,rfl⟩)
  | supersede scope old new expected at' =>
    exact noCycle_supersede tidy.unique free applied
  | setValidUntil scope id until' =>
    cases applied
    exact noCycle_of free (inherits_update inherits_self fun _ => ⟨rfl,rfl,rfl⟩)
  | materialize scope kinds =>
    cases applied
    exact free
  | expire scope ids kinds at' =>
    cases applied
    exact noCycle_of free (inherits_update inherits_self fun _ => ⟨rfl,rfl,rfl⟩)
  | erase prepared =>
    obtain ⟨-,-,memories,-⟩ := erase_applied applied
    refine noCycle_of free ?_
    rw [memories]
    exact inherits_update (inherits_bury _ _ _ _) fun _ => ⟨rfl,rfl,rfl⟩
  | startScope scope decisionId =>
    obtain ⟨receipts,rfl⟩ := startScope_applied applied
    exact free
  | drain scope operation shells at' =>
    obtain ⟨-,memories,-⟩ := drain_applied applied
    refine noCycle_of free ?_
    rw [memories]
    exact inherits_bury _ _ _ _
  | deliver scope target decisionId =>
    cases applied
    exact free

/-- No state of a run has a cycle of superseded memories, whatever the calls read. -/
theorem supersession_acyclic {log : List (Txn × Holdings)} (run : System.Run (system fingerprint) (fun _ _ => True) log)
    {state : Holdings} (reached : state ∈ (system fingerprint).states log) (scope : Scope) :
    Acyclic (Supersedes state.db scope) :=
  ((run.trail fits noCycle_keeps).held state reached).2 scope

end

namespace Sample
open Claims.Sample hiding secondId
open Store.Sample Lifecycle.Sample

/-- Two notes. -/
def notes : List (Txn × Holdings) :=
  captured (captured [] (noted noteId "aisle seat" .evidence [] 1)) (noted secondId "window seat" .evidence [] 1)

/-- The log after a supersession that was staged when there were just the two notes. -/
def superseded (log : List (Txn × Holdings)) (old new : MemoryId) : List (Txn × Holdings) :=
  match supersede (fun _ => ((system textOf).current notes).db) ((system textOf).current notes).db scope old new 20 with
  | .ok supersession => (system textOf).extend log (.supersede supersession)
  | .error _ => log

theorem notes_run : System.Run (system textOf) (fun _ _ => True) notes :=
  run_captured_free (run_captured_free .start (noted_admitted aisle_passes _ _ _ _)) (noted_admitted window_passes _ _ _ _)

theorem superseded_run {log : List (Txn × Holdings)} (run : System.Run (system textOf) (fun _ _ => True) log)
    (later : (system textOf).current notes ∈ (system textOf).states log) (old new : MemoryId) :
    System.Run (system textOf) (fun _ _ => True) (superseded log old new) := by
  have read : Read ((system textOf).states log) ((system textOf).current notes).db := ⟨_,later,rfl⟩
  unfold superseded
  split
  · next staged => exact run.extend (.supersede (fun _ => read) read staged) ⟨trivial,fun _ _ => trivial⟩
  · exact run

theorem superseded_states {log : List (Txn × Holdings)} {state : Holdings} (before : state ∈ (system textOf).states log)
    (old new : MemoryId) : state ∈ (system textOf).states (superseded log old new) := by
  unfold superseded
  split
  · unfold System.extend
    split
    · exact List.mem_cons_of_mem _ before
    · exact before
  · exact before

/-- Two calls that cross, each staged before the other commits. -/
def crossed : List (Txn × Holdings) := superseded (superseded notes noteId secondId) secondId noteId

/-- Either of the two would commit alone; the one that comes second is refused. -/
theorem supersession_acyclic_crossed :
    System.Run (system textOf) (fun _ _ => True) crossed ∧
      (superseded notes noteId secondId).length = 3 ∧ (superseded notes secondId noteId).length = 3 ∧
      crossed.length = 3 ∧ Supersedes ((system textOf).current crossed).db scope noteId secondId ∧
      Acyclic (Supersedes ((system textOf).current crossed).db scope) := by
  have start := (system textOf).current_mem notes
  have run : System.Run (system textOf) (fun _ _ => True) crossed :=
    superseded_run (superseded_run notes_run start noteId secondId) (superseded_states start _ _) secondId noteId
  have edge : ((system textOf).current crossed).db.memories.any
      (fun row => decide (row.scope = scope ∧ row.id = noteId ∧ row.supersededBy = some secondId)) = true := by
    decide +kernel
  obtain ⟨row,member,is⟩ := List.any_eq_true.mp edge
  refine ⟨run,by decide +kernel,by decide +kernel,by decide +kernel,⟨row,member,of_decide_eq_true is⟩,?_⟩
  exact supersession_acyclic run ((system textOf).current_mem crossed) scope

end Sample

end Aicortex.SupersessionChains
