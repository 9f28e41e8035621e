import Aicortex.EmbeddingTables
import Aicortex.Lib.StaleRuns

/-!
The registry of embedding models. The provider a node resolves at boot is made the
active revision: the same identity keeps the revision it has, any other is recorded
under the next number. Two reads and one guarded transaction, from any number of
nodes at once, keep one numbered history in which only the latest revision is active.
-/

namespace Aicortex.ModelRegistry
open Lib.Outcome Lib.StaleRuns Lib.StaleRuns.System
open Aicortex.Schema Aicortex.EmbeddingTables
open Aicortex.Claims hiding Unit
set_option linter.unusedSimpArgs false

/-- The largest revision number. -/
def maxRevision : Nat := 2 ^ 32 - 1

/-! ### Reads -/

/-- The active revision, if one was recorded. -/
def active (models : List ModelRow) : Option ModelRow := models.find? ModelRow.active

/-- The highest revision ever recorded, active or not. -/
def latestRevision (models : List ModelRow) : Except StoreError (Option Nat) :=
  match (models.map ModelRow.revision).max? with
  | none => .ok none
  | some revision =>
    if revision ≤ maxRevision then .ok (some revision)
    else .error (.integrity "model revision is outside u32")

/-! ### The activation transaction -/

/-- Clear the active flag; an active revision above the given one cannot be cleared. -/
def deactivate (models : List ModelRow) (revision : Nat) : Except StoreError (List ModelRow) :=
  if models.any (fun row => row.active && decide (revision < row.revision)) then .error (.constraint "embedding_model")
  else .ok (models.map (fun row => if row.active then { row with active := false } else row))

/-- Record a revision as the active one. A higher revision refuses it, and so does a
    recorded revision of another identity; the same identity keeps its row. -/
def record (models : List ModelRow) (model : ModelRow) : Except StoreError (List ModelRow) :=
  if models.any (fun row => decide (model.revision < row.revision)) then .error (.constraint "embedding_model")
  else
    match models.find? (fun row => row.revision == model.revision) with
    | none =>
      if models.any ModelRow.active then .error (.constraint "embedding_model_one_active")
      else .ok (models ++ [{ model with firstSeen := secondsToSql model.firstSeen, active := true }])
    | some existing =>
      if existing.identity ≠ model.identity then .error (.constraint "embedding_model")
      else if models.any (fun row => row.active && row.revision != model.revision) then
        .error (.constraint "embedding_model_one_active")
      else .ok (models.map (fun row => if row.revision = model.revision then { row with active := true } else row))

/-- The two statements of an activation, committed as one. -/
def activate (models : List ModelRow) (model : ModelRow) : Except StoreError (List ModelRow) := do
  let cleared ← deactivate models model.revision
  record cleared model

/-- What activating a provider comes to before anything is written. -/
inductive Activation where
  | unchanged (model : ModelRow)
  | activates (model : ModelRow)
  deriving DecidableEq

/-- Make the provider's model the active revision: the latest revision is read first,
    the active one after it. -/
def activateProvider (atLatest atActive : List ModelRow) (provider : ModelIdentity) (now : UnixSeconds) :
    Except StoreError Activation := do
  let latest ← latestRevision atLatest
  match (active atActive).filter (fun model => model.identity == provider) with
  | some model => .ok (.unchanged model)
  | none =>
    if maxRevision ≤ latest.getD 0 then .error (.integrity "model revision numbers are exhausted")
    else if provider.dims = 0 then
      .error (.validation "embedding model revision and dimensions must be non-zero")
    else .ok (.activates ⟨provider,latest.getD 0 + 1,now,true⟩)

/-! ### Runs of activations -/

/-- An activation is staged from two reads in order. -/
def Stages (history : List (List ModelRow)) (model : ModelRow) : Prop :=
  ∃ atLatest atActive provider now, InOrder history atLatest atActive ∧
    activateProvider atLatest atActive provider now = .ok (.activates model)

def system : System (List ModelRow) ModelRow ModelRow StoreError where
  start := []
  apply := activate
  moves model := [model]
  Stages := Stages

/-! ### What every state holds -/

/-- The revisions are numbered from one without a gap, the highest is the active one,
    and each differs in identity from the one before it. -/
structure Registered (models : List ModelRow) : Prop where
  numbered : models.map ModelRow.revision = List.range' 1 models.length
  newest : ∀ row ∈ models, row.active = decide (row.revision = models.length)
  changes : ∀ row ∈ models, ∀ next ∈ models, next.revision = row.revision + 1 → next.identity ≠ row.identity

/-- A row without its active flag: what never changes of it. -/
def settled (row : ModelRow) : ModelRow := { row with active := false }

/-- A later state has the rows of an earlier one, in their place, and perhaps more. -/
def Onward (earlier later : List ModelRow) : Prop := earlier.map settled <+: later.map settled

section Facts
variable {models next earlier later : List ModelRow} {row other model : ModelRow}

theorem Onward.length_le (onward : Onward earlier later) : earlier.length ≤ later.length := by
  simpa using List.IsPrefix.length_le onward

/-- A recorded revision keeps its number, its identity and when it was first seen. -/
theorem Onward.kept (onward : Onward earlier later) (held : row ∈ earlier) :
    ∃ kept ∈ later, kept.revision = row.revision ∧ kept.identity = row.identity ∧ kept.firstSeen = row.firstSeen := by
  have within : settled row ∈ later.map settled := onward.subset (List.mem_map_of_mem held)
  obtain ⟨kept,keptHeld,same⟩ := List.mem_map.mp within
  simp only [settled,ModelRow.mk.injEq] at same
  exact ⟨kept,keptHeld,same.2.1,same.1,same.2.2.1⟩

theorem Registered.revision_le (registered : Registered models) (held : row ∈ models) :
    0 < row.revision ∧ row.revision ≤ models.length := by
  have numbered : row.revision ∈ models.map ModelRow.revision := List.mem_map_of_mem held
  rw [registered.numbered,List.mem_range'_1] at numbered
  omega

theorem Registered.exists_revision (registered : Registered models) {revision : Nat} (positive : 0 < revision)
    (upTo : revision ≤ models.length) : ∃ row ∈ models, row.revision = revision := by
  have within : revision ∈ models.map ModelRow.revision := by
    rw [registered.numbered,List.mem_range'_1]
    omega
  exact List.mem_map.mp within

theorem Registered.unique (registered : Registered models) (held : row ∈ models) (also : other ∈ models)
    (same : row.revision = other.revision) : row = other := by
  have distinct : (models.map ModelRow.revision).Nodup := registered.numbered ▸ List.nodup_range'
  exact List.inj_on_of_nodup_map distinct held also same

theorem Registered.latest (registered : Registered models) {latest : Option Nat}
    (read : latestRevision models = .ok latest) : latest.getD 0 = models.length := by
  unfold latestRevision at read
  cases highest : (models.map ModelRow.revision).max? with
  | none =>
    have nothing : models = [] := by simpa using List.max?_eq_none_iff.mp highest
    simp only [highest] at read
    obtain rfl := Except.ok.inj read
    simp [nothing]
  | some revision =>
    simp only [highest] at read
    split_ifs at read
    obtain rfl := Except.ok.inj read
    obtain ⟨within,above⟩ := List.max?_eq_some_iff.mp highest
    rw [registered.numbered,List.mem_range'_1] at within
    have last : models.length ∈ models.map ModelRow.revision := by
      rw [registered.numbered,List.mem_range'_1]
      omega
    have := above _ last
    simp only [Option.getD_some]
    omega

theorem Registered.active_iff (registered : Registered models) :
    active models = some row ↔ row ∈ models ∧ row.revision = models.length := by
  constructor
  · intro found
    have held := List.mem_of_find?_eq_some found
    have flagged : row.active = true := List.find?_some found
    rw [registered.newest row held] at flagged
    exact ⟨held,of_decide_eq_true flagged⟩
  · rintro ⟨held,highest⟩
    unfold active
    cases found : models.find? ModelRow.active with
    | none =>
      have flagged : row.active = true := by rw [registered.newest row held,highest]; simp
      exact absurd flagged (List.find?_eq_none.mp found row held)
    | some other =>
      have also := List.mem_of_find?_eq_some found
      have flagged : other.active = true := List.find?_some found
      rw [registered.newest other also] at flagged
      rw [registered.unique also held ((of_decide_eq_true flagged).trans highest.symm)]

theorem deactivate_ok {revision : Nat} (cleared : deactivate models revision = .ok next) : next = models.map settled := by
  unfold deactivate at cleared
  split_ifs at cleared
  rw [← Except.ok.inj cleared]
  refine List.map_congr_left fun row _ => ?_
  by_cases flagged : row.active = true
  · simp [flagged,settled]
  · have plain : row.active = false := by simpa using flagged
    obtain ⟨identity,revision,firstSeen,active⟩ := row
    simp only at plain
    subst plain
    rfl

/-- The flag goes back to the row it was taken from. -/
theorem Registered.restored (registered : Registered models) {revision : Nat} (last : revision = models.length) :
    (models.map settled).map (fun row => if row.revision = revision then { row with active := true } else row) = models := by
  rw [List.map_map]
  refine (List.map_congr_left fun other also => ?_).trans (List.map_id models)
  have flag := registered.newest other also
  obtain ⟨identity,number,firstSeen,active⟩ := other
  simp only at flag
  simp only [Function.comp,settled,id]
  by_cases top : number = revision
  · simp [top,flag,last]
  · have lower : ¬ number = models.length := by omega
    simp [top,flag,lower]

/-- What a committed activation did: it found its revision recorded and active already,
    or it recorded a revision above all others. -/
theorem activate_cases (registered : Registered models) (positive : 0 < model.revision)
    (committed : activate models model = .ok next) :
    (next = models ∧ ∃ row ∈ models, row.revision = models.length ∧ row.revision = model.revision ∧
      row.identity = model.identity) ∨
    (models.length < model.revision ∧
      next = models.map settled ++ [{ model with firstSeen := secondsToSql model.firstSeen, active := true }]) := by
  obtain ⟨cleared,clearing,recorded⟩ := bind_ok_iff.mp committed
  obtain rfl := deactivate_ok clearing
  unfold record at recorded
  by_cases above : (models.map settled).any (fun row => decide (model.revision < row.revision)) = true
  · rw [if_pos above] at recorded
    cases recorded
  rw [if_neg above] at recorded
  have highest : ∀ row ∈ models, row.revision ≤ model.revision := by
    intro row held
    by_contra higher
    refine above (List.any_eq_true.mpr ⟨settled row,List.mem_map_of_mem held,?_⟩)
    exact decide_eq_true (by simpa [settled] using higher)
  cases found : (models.map settled).find? (fun row => row.revision == model.revision) with
  | none =>
    simp only [found] at recorded
    split_ifs at recorded
    right
    refine ⟨?_,(Except.ok.inj recorded).symm⟩
    by_contra within
    obtain ⟨row,held,same⟩ := registered.exists_revision positive (not_lt.mp within)
    have absent := List.find?_eq_none.mp found (settled row) (List.mem_map_of_mem held)
    exact absent (by simpa [settled] using same)
  | some existing =>
    simp only [found] at recorded
    split_ifs at recorded with different
    obtain ⟨row,held,rfl⟩ := List.mem_map.mp (List.mem_of_find?_eq_some found)
    have same : row.revision = model.revision := by simpa [settled] using List.find?_some found
    have last : row.revision = models.length := by
      obtain ⟨_,upTo⟩ := registered.revision_le held
      obtain ⟨top,topHeld,topIs⟩ := registered.exists_revision (List.length_pos_of_mem held) (le_refl _)
      have := highest top topHeld
      omega
    left
    refine ⟨?_,row,held,last,same,not_not.mp different⟩
    rw [← Except.ok.inj recorded]
    exact registered.restored (same.symm.trans last)

theorem activateProvider_ok {atLatest atActive : List ModelRow} {provider : ModelIdentity} {now : UnixSeconds}
    (registered : Registered atLatest)
    (staged : activateProvider atLatest atActive provider now = .ok (.activates model)) :
    model.revision = atLatest.length + 1 ∧ model.identity = provider ∧
      ∀ row, active atActive = some row → row.identity ≠ provider := by
  unfold activateProvider at staged
  obtain ⟨latest,read,staged⟩ := bind_ok_iff.mp staged
  have highest := registered.latest read
  cases same : (active atActive).filter (fun model => model.identity == provider) with
  | some found => simp [same] at staged
  | none =>
    simp only [same] at staged
    split_ifs at staged
    obtain rfl := Activation.activates.inj (Except.ok.inj staged)
    refine ⟨by simp [highest],rfl,fun row found equal => ?_⟩
    simp [found,Option.filter,equal] at same

theorem activateProvider_unchanged {atLatest atActive : List ModelRow} {provider : ModelIdentity} {now : UnixSeconds}
    (read : activateProvider atLatest atActive provider now = .ok (.unchanged model)) :
    model ∈ atActive ∧ model.active = true ∧ model.identity = provider := by
  unfold activateProvider at read
  obtain ⟨latest,-,read⟩ := bind_ok_iff.mp read
  cases same : (active atActive).filter (fun model => model.identity == provider) with
  | none =>
    simp only [same] at read
    split_ifs at read
    cases read
  | some found =>
    simp only [same] at read
    obtain rfl := Activation.unchanged.inj (Except.ok.inj read)
    obtain ⟨found,identity⟩ := Option.filter_eq_some_iff.mp same
    exact ⟨List.mem_of_find?_eq_some found,List.find?_some found,by simpa using identity⟩

/-- A row under the next number, of another identity than the last, extends a registry. -/
theorem Registered.extend (held : Registered models) (successor : model.revision = models.length + 1)
    (flagged : model.active = true)
    (differs : ∀ row ∈ models, row.revision = models.length → model.identity ≠ row.identity) :
    Registered (models.map settled ++ [model]) := by
  refine ⟨?_,?_,?_⟩
  · have same : (models.map settled).map ModelRow.revision = models.map ModelRow.revision := by
      rw [List.map_map]
      rfl
    rw [List.map_append,same,held.numbered,List.length_append,List.length_map,List.map_singleton,
      List.length_singleton,← List.range'_append_1]
    simp [successor,Nat.add_comm]
  · intro row within
    rw [List.length_append,List.length_map,List.length_singleton]
    rcases List.mem_append.mp within with old | new
    · obtain ⟨original,originalHeld,rfl⟩ := List.mem_map.mp old
      obtain ⟨_,upTo⟩ := held.revision_le originalHeld
      have lower : ¬ original.revision = models.length + 1 := by omega
      simp [settled,lower]
    · rw [List.mem_singleton.mp new]
      simp [successor,flagged]
  · intro row rowIn after afterIn adjacent
    rcases List.mem_append.mp rowIn with old | new
    · obtain ⟨original,originalHeld,rfl⟩ := List.mem_map.mp old
      rcases List.mem_append.mp afterIn with laterOld | laterNew
      · obtain ⟨follower,followerHeld,rfl⟩ := List.mem_map.mp laterOld
        exact held.changes original originalHeld follower followerHeld adjacent
      · rw [List.mem_singleton.mp laterNew] at adjacent ⊢
        have next : model.revision = original.revision + 1 := adjacent
        exact differs original originalHeld (by omega)
    · rw [List.mem_singleton.mp new] at adjacent
      rcases List.mem_append.mp afterIn with laterOld | laterNew
      · obtain ⟨follower,followerHeld,rfl⟩ := List.mem_map.mp laterOld
        have upTo := (held.revision_le followerHeld).2
        have next : follower.revision = model.revision + 1 := adjacent
        omega
      · rw [List.mem_singleton.mp laterNew] at adjacent
        omega

/-- One activation, staged from two earlier states in order, keeps the registry. -/
theorem activate_keeps {atLatest atActive : List ModelRow} {provider : ModelIdentity} {now : UnixSeconds}
    (latestHeld : Registered atLatest) (activeHeld : Registered atActive) (held : Registered models)
    (order : Onward atLatest atActive) (since : Onward atActive models)
    (staged : activateProvider atLatest atActive provider now = .ok (.activates model))
    (committed : activate models model = .ok next) : Registered next ∧ Onward models next := by
  obtain ⟨numbered,identity,changed⟩ := activateProvider_ok latestHeld staged
  rcases activate_cases held (by omega) committed with ⟨rfl,_⟩ | ⟨higher,rfl⟩
  · exact ⟨held,List.prefix_refl _⟩
  have lengths := order.length_le
  have further := since.length_le
  have successor : model.revision = models.length + 1 := by omega
  -- the state the active revision was read from had all the rows there are now
  have previous : ∀ row ∈ models, row.revision = models.length → model.identity ≠ row.identity := by
    intro row rowHeld last
    obtain ⟨top,topHeld,topIs⟩ := activeHeld.exists_revision
      (show 0 < atActive.length from by have := List.length_pos_of_mem rowHeld; omega) (le_refl _)
    obtain ⟨kept,keptHeld,keptRevision,keptIdentity,_⟩ := since.kept topHeld
    have one := held.unique keptHeld rowHeld (by omega)
    rw [← one,keptIdentity,identity]
    exact (changed top (activeHeld.active_iff.mpr ⟨topHeld,topIs⟩)).symm
  refine ⟨held.extend successor rfl previous,?_⟩
  have settledTwice : (models.map settled).map settled = models.map settled := by
    rw [List.map_map]
    rfl
  unfold Onward
  rw [List.map_append,settledTwice]
  exact List.prefix_append _ _

/-- After an activation committed, the identity it named is the active one. -/
theorem activate_active {atLatest atActive : List ModelRow} {provider : ModelIdentity} {now : UnixSeconds}
    (latestHeld : Registered atLatest) (held : Registered models)
    (staged : activateProvider atLatest atActive provider now = .ok (.activates model))
    (committed : activate models model = .ok next) :
    ∃ row ∈ next, row.active = true ∧ row.identity = model.identity ∧ row.revision = model.revision := by
  obtain ⟨numbered,-,-⟩ := activateProvider_ok latestHeld staged
  rcases activate_cases held (by omega) committed with ⟨rfl,row,rowHeld,last,same,identity⟩ | ⟨_,rfl⟩
  · exact ⟨row,rowHeld,by rw [held.newest row rowHeld,last]; simp,identity,same⟩
  · exact ⟨_,List.mem_append_right _ (List.mem_singleton_self _),rfl,rfl,rfl⟩

end Facts

theorem stages_fit : system.Fits Stages := by
  intro history txn staged move within
  rw [List.mem_singleton.mp within]
  exact staged

theorem registered_keeps : Keeps system (fun _ _ => True) Stages Registered Onward where
  still models := List.prefix_refl _
  onward first second third := List.IsPrefix.trans
  initial := ⟨rfl,by simp [system],by simp [system]⟩
  move := by
    rintro history now model next trail held ⟨atLatest,atActive,provider,time,order,staged⟩ _ committed
    have since := trail.since_in_order (fun models => List.prefix_refl _) order
    exact activate_keeps (trail.held _ order.mem_first) (trail.held _ order.mem_second) held since
      (trail.since _ order.mem_second) staged committed

/-- One revision is active, and none was recorded above it. -/
def OneActive (models : List ModelRow) : Prop :=
  ∃ top ∈ models, (∀ row ∈ models, row.active = true ↔ row = top) ∧ ∀ row ∈ models, row.revision ≤ top.revision

/-- Nothing recorded was lost, renumbered or reinterpreted, and the active number did not fall. -/
def Continues (earlier later : List ModelRow) : Prop :=
  (∀ row ∈ earlier, ∃ kept ∈ later, kept.revision = row.revision) ∧
    (∀ row ∈ earlier, ∀ kept ∈ later, kept.revision = row.revision →
      kept.identity = row.identity ∧ kept.firstSeen = row.firstSeen) ∧
    ∀ before ∈ earlier, before.active = true → ∃ after ∈ later, after.active = true ∧ before.revision ≤ after.revision

/-- Revisions with none recorded between them differ in identity. -/
def NoneSpurious (models : List ModelRow) : Prop :=
  ∀ row ∈ models, ∀ next ∈ models, row.revision < next.revision →
    (∀ other ∈ models, ¬ (row.revision < other.revision ∧ other.revision < next.revision)) →
    next.identity ≠ row.identity

theorem Registered.oneActive {models : List ModelRow} (registered : Registered models) (recorded : models ≠ []) :
    OneActive models := by
  obtain ⟨top,topHeld,topIs⟩ := registered.exists_revision (List.length_pos_of_ne_nil recorded) (le_refl _)
  refine ⟨top,topHeld,fun row held => ?_,fun row held => ?_⟩
  · rw [registered.newest row held,decide_eq_true_iff]
    exact ⟨fun last => registered.unique held topHeld (last.trans topIs.symm),fun same => same ▸ topIs⟩
  · have := registered.revision_le held
    omega

theorem Registered.noneSpurious {models : List ModelRow} (registered : Registered models) : NoneSpurious models := by
  intro row held next nextHeld below between
  have adjacent : next.revision = row.revision + 1 := by
    by_contra apart
    have upTo := registered.revision_le nextHeld
    obtain ⟨middle,middleHeld,middleIs⟩ := registered.exists_revision (Nat.succ_pos row.revision)
      (show row.revision + 1 ≤ models.length from by omega)
    exact between middle middleHeld (by omega)
  exact registered.changes row held next nextHeld adjacent

theorem Onward.continues {earlier later : List ModelRow} (onward : Onward earlier later) (laterHeld : Registered later) :
    Continues earlier later := by
  refine ⟨fun row held => ?_,fun row held kept keptHeld same => ?_,fun before held flagged => ?_⟩
  · obtain ⟨kept,keptHeld,same,_⟩ := onward.kept held
    exact ⟨kept,keptHeld,same⟩
  · obtain ⟨known,knownHeld,number,identity,seen⟩ := onward.kept held
    rw [laterHeld.unique keptHeld knownHeld (same.trans number.symm)]
    exact ⟨identity,seen⟩
  · obtain ⟨top,topHeld,active,highest⟩ := laterHeld.oneActive (fun none' => by
      have := onward.length_le
      rw [none'] at this
      exact absurd (List.length_pos_of_mem held) (by simpa using this))
    refine ⟨top,topHeld,(active top topHeld).mpr rfl,?_⟩
    obtain ⟨kept,keptHeld,same,_⟩ := onward.kept held
    exact same ▸ highest kept keptHeld

/-- However activations interleave: once a revision is recorded exactly the highest is
    active, nothing recorded changes and the active number does not fall, no revision
    repeats the identity of the one before it, and every success names the identity
    that was active when it committed or when it read. -/
theorem activations_safe {log : List (ModelRow × List ModelRow)} (run : Run system (fun _ _ => True) log) :
    (∀ models ∈ system.states log, models ≠ [] → OneActive models) ∧
    (system.states log).Pairwise (fun later earlier => Continues earlier later) ∧
    (∀ models ∈ system.states log, NoneSpurious models) ∧
    (∀ entry ∈ log, ∃ row ∈ entry.2, row.active = true ∧ row.identity = entry.1.identity ∧
      row.revision = entry.1.revision) ∧
    (∀ atLatest atActive provider now, InOrder (system.states log) atLatest atActive →
      (∀ model, activateProvider atLatest atActive provider now = .ok (.unchanged model) →
        model ∈ atActive ∧ model.active = true ∧ model.identity = provider) ∧
      ∀ model, activateProvider atLatest atActive provider now = .ok (.activates model) → model.identity = provider) := by
  have trail := run.trail stages_fit registered_keeps
  refine ⟨fun models held => (trail.held models held).oneActive,?_,fun models held => (trail.held models held).noneSpurious,
    ?_,fun atLatest atActive provider now order => ⟨fun model read => ?_,fun model staged => ?_⟩⟩
  · refine List.Pairwise.imp_of_mem ?_ trail.ordered
    intro later earlier laterIn _ onward
    exact onward.continues (trail.held _ laterIn)
  · clear trail
    induction run with
    | start => simp
    | @step log model next run staged meet committed ih =>
      intro entry within
      rcases List.mem_cons.mp within with rfl | earlier
      · have before := run.trail stages_fit registered_keeps
        obtain ⟨atLatest,atActive,provider,now,order,prepared⟩ := staged
        exact activate_active (before.held _ order.mem_first) (before.held _ (system.current_mem log)) prepared
          (commit_single rfl committed)
      · exact ih entry earlier
  · exact activateProvider_unchanged read
  · exact (activateProvider_ok (trail.held _ order.mem_first) staged).2.1

namespace Sample

def small : ModelIdentity := ⟨"small",384,true⟩
def large : ModelIdentity := ⟨"large",768,true⟩

def first : List (ModelRow × List ModelRow) := system.extend [] ⟨small,1,10,true⟩
/-- A second node read the empty registry too and names the same identity. -/
def joined : List (ModelRow × List ModelRow) := system.extend first ⟨small,1,11,true⟩
def changed : List (ModelRow × List ModelRow) := system.extend joined ⟨large,2,20,true⟩

theorem run_changed : Run system (fun _ _ => True) changed := by
  have runFirst : Run system (fun _ _ => True) first :=
    Run.extend .start ⟨[],[],small,10,⟨[],[],rfl,List.mem_singleton_self _⟩,by decide⟩
      (meetAll_of_forall (fun _ _ _ => trivial) _)
  have runJoined : Run system (fun _ _ => True) joined :=
    Run.extend runFirst ⟨[],[],small,11,⟨[system.current first],[],by decide +kernel,by simp⟩,by decide⟩
      (meetAll_of_forall (fun _ _ _ => trivial) _)
  refine Run.extend runJoined ⟨system.current joined,system.current joined,large,20,⟨[],?_⟩,by decide +kernel⟩
    (meetAll_of_forall (fun _ _ _ => trivial) _)
  exact ⟨(system.states joined).tail,by decide +kernel,by simp⟩

end Sample

theorem activations_safe_changed :
    OneActive (system.current Sample.changed) ∧ (system.current Sample.changed).length = 2 :=
  ⟨(activations_safe Sample.run_changed).1 _ (system.current_mem _) (by decide +kernel),by decide +kernel⟩

end Aicortex.ModelRegistry
