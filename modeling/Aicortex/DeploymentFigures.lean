import Aicortex.Deployment

/-!
What the deployment-wide figures mean. On a store that stands still the sum over the
scopes is what a look at the whole tables would report, and a walk that was cut off
reports no more than that; so a memory without its vector, or work that died, shows in the
figures of the deployment whichever scope it is of.
-/

namespace Aicortex.Deployment
open Aicortex.Text Aicortex.CivilTime Aicortex.Memories Aicortex.Schema Aicortex.MemoryRepo Aicortex.EmbeddingTables
open Aicortex.ModelRegistry Aicortex.Pipeline Aicortex.EmbeddingReadiness
open Lib.Tables Lib.Outcome Lib.StaleRuns Lib.StaleRuns.System Lib.Ordered Lib.Capped
open Aicortex.Claims hiding Unit

/-! ### The whole tables -/

/-- A piece of work with its dead attempts and its memory. -/
def joined (stock : Stock) (row : WorkRow) : List QueueRow :=
  let memory := stock.memories.find? (ofScope row.key.scope row.key.memoryId)
  match stock.attempts.filter (fun attempt => attempt.key == row.key && attempt.attempt == row.attempt) with
  | [] => [⟨row,none,memory⟩]
  | attempts => attempts.map (fun attempt => ⟨row,some attempt,memory⟩)

/-- The unfinished and dead work of all scopes. -/
def allQueueRows (stock : Stock) : List QueueRow := (stock.work.filter (fun row => row.state != .done)).flatMap (joined stock)

def cap (amount : Nat) : Nat := min amount maxCount

def age (now : UnixSeconds) (times : List Nat) : Option Nat := times.min?.map (fun created => now - created)

def pendingTimes (rows : List QueueRow) : List Nat := (rows.filter (fun row => row.work.state != .dead)).map (·.work.createdAt)

/-- What a look at the whole tables reports. -/
def whole (state : State) (now : UnixSeconds) : EmbeddingPreflight where
  active := active state.stock.models
  queue := { pending := cap ((allQueueRows state.stock).countP (fun row => row.work.state != .dead))
             dead := cap ((allQueueRows state.stock).countP (fun row => row.work.state == .dead && !row.isQuarantined))
             quarantined := cap ((allQueueRows state.stock).countP (fun row => row.work.state == .dead && row.isQuarantined))
             oldestPendingAgeSeconds := age now (pendingTimes (allQueueRows state.stock)) }
  -- revisions come with the scopes
  coverage := if state.scopes = [] then [] else state.stock.models.map (fun model =>
    ⟨model.revision,cap (state.stock.memories.countP (fun row => embeddable row && embedded state.stock row.scope row.id model.revision)),
      cap (state.stock.memories.countP embeddable)⟩)
  liveMemories := cap (state.stock.memories.countP embeddable)

/-- A walk over a store that stands still. -/
def Sight.still (state : State) (late : Nat → Bool) : Sight :=
  ⟨state.stock,fun _ => state,fun _ => ⟨state.stock,state.stock,state.stock,state.stock,state.stock⟩,late⟩

/-! ### The queue of a scope -/

section
variable {stock : Stock} {now : UnixSeconds}

theorem joined_work {row : WorkRow} {queued : QueueRow} (member : queued ∈ joined stock row) : queued.work = row := by
  unfold joined at member
  dsimp only at member
  split at member
  · rw [List.mem_singleton.mp member]
  · obtain ⟨attempt,-,rfl⟩ := List.mem_map.mp member
    rfl

/-- What is made of some rows is what is made of all, of these rows. -/
theorem flatMap_part {rows : List WorkRow} {part : WorkRow → Bool} {one all : WorkRow → List QueueRow}
    (same : ∀ row, part row = true → one row = all row) (of : ∀ row queued, queued ∈ all row → queued.work = row) :
    (rows.filter part).flatMap one = (rows.flatMap all).filter (fun queued => part queued.work) := by
  induction rows with
  | nil => rfl
  | cons row rest ih =>
    rw [List.flatMap_cons,List.filter_append,← ih]
    by_cases here : part row = true
    · have kept : (all row).filter (fun queued => part queued.work) = all row :=
        List.filter_eq_self.mpr fun queued member => by rw [of row queued member,here]
      rw [List.filter_cons_of_pos here,List.flatMap_cons,same row here,kept]
    · have gone : (all row).filter (fun queued => part queued.work) = [] :=
        List.filter_eq_nil_iff.mpr fun queued member => by rwa [of row queued member]
      rw [List.filter_cons_of_neg here,gone,List.nil_append]

theorem queueRows_eq (stock : Stock) (scope : Scope) :
    queueRows stock scope = (allQueueRows stock).filter (fun row => row.work.key.scope == scope) := by
  have split : stock.work.filter (fun row => row.key.scope == scope && row.state != .done) =
      (stock.work.filter (fun row => row.state != .done)).filter (fun row => row.key.scope == scope) := by
    rw [List.filter_filter]
  unfold queueRows allQueueRows
  rw [split]
  refine flatMap_part (fun row own => ?_) (fun row queued => joined_work)
  rw [← beq_iff_eq.mp own]
  rfl

theorem mem_allQueueRows {row : QueueRow} (member : row ∈ allQueueRows stock) : row.work ∈ stock.work := by
  obtain ⟨work,inside,joins⟩ := List.mem_flatMap.mp member
  rw [joined_work joins]
  exact (List.mem_filter.mp inside).1

theorem countP_queueRows (part : QueueRow → Bool) (scope : Scope) :
    (queueRows stock scope).countP part =
      (allQueueRows stock).countP (fun row => part row && decide (row.work.key.scope = scope)) := by
  rw [queueRows_eq,List.countP_filter]
  rfl

end

/-! ### Scope by scope -/

/-- The figures of a scope on a store that stands still. -/
def figuresAt (stock : Stock) (now : UnixSeconds) (scope : Scope) : Figures :=
  ⟨queueHealth stock scope now,liveRows stock scope,
    stock.models.map (fun model => ⟨model.revision,embeddingCoverage stock scope model.revision,liveRows stock scope⟩)⟩

section
variable {stock : Stock} {now : UnixSeconds} {keys : List Scope}

theorem liveRows_eq (stock : Stock) (scope : Scope) :
    liveRows stock scope = stock.memories.countP (fun row => embeddable row && decide (row.scope = scope)) := by
  refine List.countP_congr fun row _ => ?_
  simp [and_comm]

theorem embeddingCoverage_eq (stock : Stock) (scope : Scope) (revision : Nat) :
    embeddingCoverage stock scope revision = stock.memories.countP (fun row =>
      (embeddable row && embedded stock row.scope row.id revision) && decide (row.scope = scope)) := by
  refine List.countP_congr fun row _ => ?_
  by_cases own : row.scope = scope
  · subst own
    simp
  · simp [own]

theorem pending_eq (stock : Stock) (scope : Scope) (now : UnixSeconds) :
    (queueHealth stock scope now).pending = (allQueueRows stock).countP (fun row =>
      row.work.state != .dead && decide (row.work.key.scope = scope)) := by
  rw [← countP_queueRows,List.countP_eq_length_filter]
  rfl

theorem dead_eq (stock : Stock) (scope : Scope) (now : UnixSeconds) :
    (queueHealth stock scope now).dead = (allQueueRows stock).countP (fun row =>
      (row.work.state == .dead && !row.isQuarantined) && decide (row.work.key.scope = scope)) :=
  countP_queueRows _ scope

theorem quarantined_eq (stock : Stock) (scope : Scope) (now : UnixSeconds) :
    (queueHealth stock scope now).quarantined = (allQueueRows stock).countP (fun row =>
      (row.work.state == .dead && row.isQuarantined) && decide (row.work.key.scope = scope)) :=
  countP_queueRows _ scope

theorem times_eq (stock : Stock) (scope : Scope) :
    pendingTimes (queueRows stock scope) =
      ((allQueueRows stock).filter (fun row => row.work.state != .dead && row.work.key.scope == scope)).map (·.work.createdAt) := by
  unfold pendingTimes
  rw [queueRows_eq,List.filter_filter]

/-- The largest age of several queues is the age of the oldest of all that wait. -/
theorem ages_max (queues : List (List Nat)) : (queues.filterMap (age now)).max? = age now queues.flatten := by
  induction queues with
  | nil => rfl
  | cons queue rest ih =>
    rw [List.flatten_cons,List.filterMap_cons]
    cases queue with
    | nil => exact ih
    | cons first others =>
      have oldest' : ∀ (times : List Nat) (start : Nat), times.foldl min start = times.min?.elim start (min start) := by
        intro times start
        have front : (start :: times).min? = some (times.min?.elim start (min start)) := List.min?_cons
        exact Option.some.inj front
      simp only [age,List.min?_cons',Option.map_some,List.cons_append,List.max?_cons,ih,List.foldl_append]
      cases later : rest.flatten.min? with
      | none =>
        rw [List.min?_eq_none_iff.mp later]
        rfl
      | some time =>
        rw [oldest' rest.flatten,later]
        simp only [Option.map_some,Option.elim_some,Option.some.injEq]
        omega

theorem age_mem {times : List Nat} {value : Nat} : age now times = some value ↔
    ∃ time ∈ times, value = now - time ∧ ∀ other ∈ times, time ≤ other := by
  unfold age
  simp only [Option.map_eq_some_iff,List.min?_eq_some_iff]
  constructor
  · rintro ⟨time,⟨member,least⟩,rfl⟩
    exact ⟨time,member,rfl,least⟩
  · rintro ⟨time,member,rfl,least⟩
    exact ⟨time,⟨member,least⟩,rfl⟩

theorem age_congr {times others : List Nat} (same : ∀ time, time ∈ times ↔ time ∈ others) : age now times = age now others := by
  refine Option.ext fun value => ?_
  rw [age_mem,age_mem]
  simp only [same]

/-- Fewer that wait are no older. -/
theorem age_le {times others : List Nat} (part : ∀ time ∈ times, time ∈ others) {value : Nat} (is : age now times = some value) :
    ∃ more, age now others = some more ∧ value ≤ more := by
  obtain ⟨time,member,rfl,-⟩ := age_mem.mp is
  obtain ⟨least,smallest⟩ := Option.isSome_iff_exists.mp (List.isSome_min?_of_mem (part time member))
  have below := (List.min?_eq_some_iff.mp smallest).2 time (part time member)
  exact ⟨now - least,by rw [age,smallest]; rfl,by omega⟩

end

/-! ### Part and whole -/

/-- A report that names no more than another. -/
structure AtMost (part whole : EmbeddingPreflight) : Prop where
  active : part.active = whole.active
  pending : part.queue.pending ≤ whole.queue.pending
  dead : part.queue.dead ≤ whole.queue.dead
  quarantined : part.queue.quarantined ≤ whole.queue.quarantined
  oldest : ∀ age, part.queue.oldestPendingAgeSeconds = some age →
    ∃ more, whole.queue.oldestPendingAgeSeconds = some more ∧ age ≤ more
  live : part.liveMemories ≤ whole.liveMemories
  coverage : ∀ item ∈ part.coverage, ∃ other ∈ whole.coverage, other.revision = item.revision ∧
    item.embedded ≤ other.embedded ∧ item.total ≤ other.total

section
variable {ρ : Type} {keys : List Scope} {rows : List ρ} {part : ρ → Bool} {key : ρ → Scope} {amount : Scope → Nat}

/-- The amounts of some scopes are of some of the rows. -/
theorem spread_le (distinct : keys.Nodup) (is : ∀ scope, amount scope = rows.countP (fun row => part row && decide (key row = scope))) :
    capped (keys.map amount) ≤ cap (rows.countP part) := by
  have each : keys.map amount = keys.map (fun scope => rows.countP (fun row => part row && decide (key row = scope))) :=
    List.map_congr_left fun scope _ => is scope
  have below := sum_countP_le key part rows distinct
  unfold capped cap
  rw [each]
  omega

/-- The amounts of all scopes are of all rows. -/
theorem spread_eq (distinct : keys.Nodup) (covered : ∀ row ∈ rows, key row ∈ keys)
    (is : ∀ scope, amount scope = rows.countP (fun row => part row && decide (key row = scope))) :
    capped (keys.map amount) = cap (rows.countP part) := by
  have each : keys.map amount = keys.map (fun scope => rows.countP (fun row => part row && decide (key row = scope))) :=
    List.map_congr_left fun scope _ => is scope
  rw [capped,each,sum_countP_all key part distinct covered]
  rfl

end

section
variable {state : State} {now : UnixSeconds} {late : Nat → Bool} {visited : List ScopeRow} {health : DeploymentHealth}

theorem counted_still (accurate : CounterAccuracy.Accurate state.stock.holdings) {count : Nat} {counted : List Figures}
    (read : Counted (Sight.still state late) now count visited counted) :
    counted = visited.map (fun row => figuresAt state.stock now row.scope) := by
  induction read with
  | nil count => rfl
  | cons read later ih =>
    have is := read.symm.trans (figures_ok accurate accurate _)
    rw [ih,List.map_cons]
    exact congrArg (· :: _) (Except.ok.inj is)

/-- Of a revision each scope counts its own memories. -/
theorem ofRevision_still (registered : Registered state.stock.models) {model : ModelRow} (recorded : model ∈ state.stock.models) :
    ofRevision model.revision (visited.map (fun row => figuresAt state.stock now row.scope)) = visited.map (fun row =>
      ⟨model.revision,embeddingCoverage state.stock row.scope model.revision,liveRows state.stock row.scope⟩) := by
  have distinct : UniqueBy ModelRow.revision state.stock.models := by
    unfold UniqueBy
    rw [registered.numbered]
    exact List.nodup_range'
  have only : state.stock.models.filter (fun other => decide (other.revision = model.revision)) = [model] :=
    distinct.filter_eq recorded (by simp) (by simp)
  induction visited with
  | nil => rfl
  | cons row rest ih =>
    unfold ofRevision at ih ⊢
    rw [List.map_cons,List.flatMap_cons,List.filter_append,ih,List.map_cons,figuresAt,List.filter_map]
    simp only [Function.comp_def]
    rw [only]
    rfl

theorem ofRevision_recorded {revision : Nat}
    (some' : ofRevision revision (visited.map (fun row => figuresAt state.stock now row.scope)) ≠ []) :
    visited ≠ [] ∧ ∃ model ∈ state.stock.models, model.revision = revision := by
  obtain ⟨item,inside⟩ := List.exists_mem_of_ne_nil _ some'
  obtain ⟨among,is⟩ := List.mem_filter.mp inside
  obtain ⟨figure,counted,covers⟩ := List.mem_flatMap.mp among
  obtain ⟨row,member,rfl⟩ := List.mem_map.mp counted
  obtain ⟨model,recorded,rfl⟩ := List.mem_map.mp covers
  exact ⟨List.ne_nil_of_mem member,model,recorded,of_decide_eq_true is⟩

/-- The coverage that is reported: of every revision, once a scope was counted. -/
theorem covered_still (registered : Registered state.stock.models)
    (totals : Totals (visited.map (fun row => figuresAt state.stock now row.scope)) health) {item : Coverage} :
    item ∈ health.report.coverage ↔ visited ≠ [] ∧ ∃ model ∈ state.stock.models, item = ⟨model.revision,
      capped ((visited.map ScopeRow.scope).map (fun scope => embeddingCoverage state.stock scope model.revision)),
      capped ((visited.map ScopeRow.scope).map (liveRows state.stock))⟩ := by
  have amounts : ∀ model ∈ state.stock.models, ofRevision model.revision (visited.map (fun row => figuresAt state.stock now row.scope)) =
      visited.map (fun row =>
        ⟨model.revision,embeddingCoverage state.stock row.scope model.revision,liveRows state.stock row.scope⟩) :=
    fun model recorded => ofRevision_still registered recorded
  rw [totals.covered]
  constructor
  · rintro ⟨some',embedded,total⟩
    obtain ⟨nonempty,model,recorded,revision⟩ := ofRevision_recorded some'
    rw [← revision,amounts model recorded,List.map_map] at embedded total
    refine ⟨nonempty,model,recorded,?_⟩
    rw [List.map_map,List.map_map]
    cases item
    cases revision
    cases embedded
    cases total
    rfl
  · rintro ⟨nonempty,model,recorded,rfl⟩
    rw [amounts model recorded,List.map_map,List.map_map,List.map_map,List.map_map]
    exact ⟨by simpa using nonempty,rfl,rfl⟩

end

section
variable {scopeId : Scope → String} {state : State} {now : UnixSeconds} {late : Nat → Bool} {visited : List ScopeRow}
variable {health : DeploymentHealth}

/-- No scope that is listed has the key of another scope of the store. -/
def Apart (scopeId : Scope → String) (state : State) : Prop :=
  ∀ row ∈ state.scopes, ∀ memory ∈ state.stock.memories, row.id scopeId = scopeId memory.scope → row.scope = memory.scope

/-- The scopes of all that the figures are of are listed. -/
theorem scopes_cover (basis : Basis state.stock) (listed : Listed scopeId state) (apart : Apart scopeId state)
    (covers : ∀ row ∈ state.scopes, row ∈ visited) :
    (∀ memory ∈ state.stock.memories, memory.scope ∈ visited.map ScopeRow.scope) ∧
      ∀ row ∈ allQueueRows state.stock, row.work.key.scope ∈ visited.map ScopeRow.scope := by
  have memories : ∀ memory ∈ state.stock.memories, memory.scope ∈ visited.map ScopeRow.scope := by
    intro memory member
    obtain ⟨row,inside,same⟩ := listed.placed memory member
    exact List.mem_map.mpr ⟨row,covers row inside,apart row inside memory member same⟩
  refine ⟨memories,fun row member => ?_⟩
  obtain ⟨⟨memory,inside,here⟩,-⟩ := basis.worked row.work (mem_allQueueRows member)
  simp only [ofScope,Bool.and_eq_true,beq_iff_eq] at here
  rw [← here.1]
  exact memories memory inside

theorem amounts_still (amount : Figures → Nat) : (visited.map (fun row => figuresAt state.stock now row.scope)).map amount =
    (visited.map ScopeRow.scope).map (fun scope => amount (figuresAt state.stock now scope)) := by
  rw [List.map_map,List.map_map]
  rfl

theorem oldest_still (totals : Totals (visited.map (fun row => figuresAt state.stock now row.scope)) health) :
    health.report.queue.oldestPendingAgeSeconds =
      age now ((visited.map ScopeRow.scope).map (fun scope => pendingTimes (queueRows state.stock scope))).flatten := by
  rw [totals.oldest,← ages_max,List.filterMap_map,List.filterMap_map,List.filterMap_map]
  rfl

theorem mem_times {keys : List Scope} {time : Nat} :
    time ∈ (keys.map (fun scope => pendingTimes (queueRows state.stock scope))).flatten ↔
      ∃ row ∈ allQueueRows state.stock, row.work.key.scope ∈ keys ∧ row.work.state ≠ .dead ∧ row.work.createdAt = time := by
  rw [List.mem_flatten]
  constructor
  · rintro ⟨times,among,member⟩
    obtain ⟨scope,inside,rfl⟩ := List.mem_map.mp among
    rw [times_eq] at member
    obtain ⟨row,chosen,is⟩ := List.mem_map.mp member
    obtain ⟨queued,waits⟩ := List.mem_filter.mp chosen
    simp only [Bool.and_eq_true,bne_iff_ne,beq_iff_eq] at waits
    exact ⟨row,queued,by rwa [waits.2],waits.1,is⟩
  · rintro ⟨row,queued,inside,waits,is⟩
    refine ⟨_,List.mem_map.mpr ⟨_,inside,rfl⟩,?_⟩
    rw [times_eq]
    exact List.mem_map.mpr ⟨row,List.mem_filter.mpr ⟨queued,by simpa using waits⟩,is⟩

theorem mem_allTimes {time : Nat} : time ∈ pendingTimes (allQueueRows state.stock) ↔
    ∃ row ∈ allQueueRows state.stock, row.work.state ≠ .dead ∧ row.work.createdAt = time := by
  unfold pendingTimes
  simp only [List.mem_map,List.mem_filter,bne_iff_ne,and_assoc]

/-- What was counted on a store that stands still is no more than there is. -/
theorem still_atMost (registered : Registered state.stock.models) (distinct : (visited.map ScopeRow.scope).Nodup)
    (part : ∀ row ∈ visited, row ∈ state.scopes)
    (totals : Totals (visited.map (fun row => figuresAt state.stock now row.scope)) health)
    (current : health.report.active = active state.stock.models) : AtMost health.report (whole state now) := by
  refine ⟨current,?_,?_,?_,?_,?_,?_⟩
  · rw [totals.pending,amounts_still]
    exact spread_le distinct fun scope => pending_eq _ scope now
  · rw [totals.dead,amounts_still]
    exact spread_le distinct fun scope => dead_eq _ scope now
  · rw [totals.quarantined,amounts_still]
    exact spread_le distinct fun scope => quarantined_eq _ scope now
  · intro value is
    rw [oldest_still totals] at is
    refine age_le (fun time member => ?_) is
    obtain ⟨row,queued,-,waits,same⟩ := mem_times.mp member
    exact mem_allTimes.mpr ⟨row,queued,waits,same⟩
  · rw [totals.live,amounts_still]
    exact spread_le distinct (liveRows_eq state.stock)
  · intro item member
    obtain ⟨nonempty,model,recorded,rfl⟩ := (covered_still registered totals).mp member
    have some' : state.scopes ≠ [] := by
      obtain ⟨row,inside⟩ := List.exists_mem_of_ne_nil _ nonempty
      exact List.ne_nil_of_mem (part row inside)
    have covers : (whole state now).coverage = state.stock.models.map (fun model => ⟨model.revision,
        cap (state.stock.memories.countP (fun row => embeddable row && embedded state.stock row.scope row.id model.revision)),
        cap (state.stock.memories.countP embeddable)⟩) := if_neg some'
    rw [covers]
    refine ⟨_,List.mem_map_of_mem recorded,rfl,?_,?_⟩
    · exact spread_le distinct fun scope => embeddingCoverage_eq state.stock scope model.revision
    · exact spread_le distinct (liveRows_eq state.stock)

/-- What was counted of every scope is what there is. -/
theorem still_whole (basis : Basis state.stock) (listed : Listed scopeId state) (apart : Apart scopeId state)
    (distinct : (visited.map ScopeRow.scope).Nodup) (part : ∀ row ∈ visited, row ∈ state.scopes)
    (covers : ∀ row ∈ state.scopes, row ∈ visited)
    (totals : Totals (visited.map (fun row => figuresAt state.stock now row.scope)) health)
    (current : health.report.active = active state.stock.models) : health.report = whole state now := by
  obtain ⟨memories,queued⟩ := scopes_cover basis listed apart covers
  have queue : health.report.queue = (whole state now).queue := by
    have pending := totals.pending
    have dead := totals.dead
    have quarantined := totals.quarantined
    have oldest := oldest_still totals
    rw [amounts_still] at pending dead quarantined
    have onePending := spread_eq distinct queued fun scope => pending_eq state.stock scope now
    have oneDead := spread_eq distinct queued fun scope => dead_eq state.stock scope now
    have oneQuarantined := spread_eq distinct queued fun scope => quarantined_eq state.stock scope now
    have times : age now ((visited.map ScopeRow.scope).map (fun scope => pendingTimes (queueRows state.stock scope))).flatten =
        age now (pendingTimes (allQueueRows state.stock)) := by
      refine age_congr fun time => ?_
      rw [mem_times,mem_allTimes]
      constructor
      · rintro ⟨row,inside,-,waits,is⟩
        exact ⟨row,inside,waits,is⟩
      · rintro ⟨row,inside,waits,is⟩
        exact ⟨row,inside,queued row inside,waits,is⟩
    have fields : ∀ queue : QueueHealth, queue = ⟨queue.pending,queue.dead,queue.quarantined,queue.oldestPendingAgeSeconds⟩ :=
      fun _ => rfl
    rw [fields health.report.queue,oldest,times,pending.trans onePending,dead.trans oneDead,quarantined.trans oneQuarantined]
    rfl
  have live : health.report.liveMemories = (whole state now).liveMemories := by
    rw [totals.live,amounts_still]
    exact spread_eq distinct memories (liveRows_eq state.stock)
  have coverage : health.report.coverage = (whole state now).coverage := by
    have members : ∀ item, item ∈ health.report.coverage ↔ item ∈ (whole state now).coverage := by
      intro item
      rw [covered_still basis.registered totals,whole]
      dsimp only
      have empty : visited = [] ↔ state.scopes = [] := by
        constructor
        · rintro rfl
          exact List.eq_nil_iff_forall_not_mem.mpr fun row member => nomatch covers row member
        · intro none'
          exact List.eq_nil_iff_forall_not_mem.mpr fun row member => nomatch none' ▸ part row member
      split_ifs with none'
      · simp [empty.mpr none']
      · rw [ne_eq,empty,List.mem_map]
        constructor
        · rintro ⟨-,model,recorded,rfl⟩
          refine ⟨model,recorded,?_⟩
          rw [spread_eq distinct memories fun scope => embeddingCoverage_eq state.stock scope model.revision,
            spread_eq distinct memories (liveRows_eq state.stock)]
        · rintro ⟨model,recorded,rfl⟩
          refine ⟨none',model,recorded,?_⟩
          rw [spread_eq distinct memories fun scope => embeddingCoverage_eq state.stock scope model.revision,
            spread_eq distinct memories (liveRows_eq state.stock)]
    have sorted : (whole state now).coverage.Pairwise (fun left right => left.revision < right.revision) := by
      rw [whole]
      dsimp only
      split_ifs
      · exact .nil
      · rw [List.pairwise_map]
        have numbered : (state.stock.models.map ModelRow.revision).Pairwise (· < ·) := by
          rw [basis.registered.numbered]
          exact List.pairwise_lt_range'
        exact List.pairwise_map.mp numbered
    have nodup : ∀ items : List Coverage, items.Pairwise (fun left right => left.revision < right.revision) → items.Nodup :=
      fun items ordered => ordered.imp fun below same => absurd (congrArg Coverage.revision same) below.ne
    have perm := (List.perm_ext_iff_of_nodup (nodup _ totals.ordered) (nodup _ sorted)).mpr members
    exact perm.eq_of_pairwise (fun left right _ _ below above => absurd below (Nat.lt_asymm above)) totals.ordered sorted
  have fields : ∀ report : EmbeddingPreflight, report = ⟨report.active,report.queue,report.coverage,report.liveMemories⟩ :=
    fun _ => rfl
  rw [fields health.report,current,queue,coverage,live]
  rfl

end

/-! ### A walk over a store that stands still -/

section
variable {fingerprint : Memory → String} {config : Chunking.ChunkConfig} {scopeId : Scope → String} {state : State}
variable {now : UnixSeconds} {late : Nat → Bool}

/-- A walk takes no more pages than there are scopes left, and one that finds nothing. -/
theorem still_ends (accurate : CounterAccuracy.Accurate state.stock.holdings) {fuel pages : Nat} {after : Option String}
    {count : Nat} {sums : Sums}
    (enough : (Lib.Keyset.following (ScopeRow.id scopeId) (after.getD "") state.scopes).length < fuel) :
    ∃ summed, readPages scopeId (Sight.still state late) now fuel pages after count sums = some (.ok summed) := by
  have readable : ∀ index scope, ∃ figure, figures ((Sight.still state late).scope index) scope now = .ok figure :=
    fun _ scope => ⟨_,figures_ok accurate accurate scope⟩
  induction fuel generalizing pages after count sums with
  | zero => omega
  | succ fuel ih =>
    unfold readPages
    dsimp only
    split
    · exact ⟨_,rfl⟩
    · next last is =>
      obtain ⟨⟨after',whole⟩,summed⟩ := readScopes_total readable
        (scopeKeysAfter scopeId ((Sight.still state late).page pages).scopes after scopePage) count sums
      rw [summed]
      cases whole with
      | false => exact ⟨_,rfl⟩
      | true =>
        have shrinks := Lib.Keyset.following_shrinks (List.mem_of_getLast? is)
        exact ih (Nat.lt_of_lt_of_le shrinks (Nat.le_of_lt_succ enough))

theorem following_le (after : String) (scopes : List ScopeRow) :
    (Lib.Keyset.following (ScopeRow.id scopeId) after scopes).length ≤ scopes.length := by
  rw [(Lib.Keyset.following_perm after scopes).length_eq]
  exact List.length_filter_le _ _

/-- On a store that stands still a walk ends in a report that names no more than there is;
    one that is complete reports what a look at the whole tables would, and only the time
    keeps it from that. -/
theorem figures_whole {log : List (Txn × State)} (run : Run (system fingerprint config false scopeId) Spares log)
    (reached : state ∈ (system fingerprint config false scopeId).states log) (named : ∀ scope, scopeId scope ≠ "")
    (apart : Apart scopeId state) (late : Nat → Bool) (now : UnixSeconds) :
    ∃ health, readDeployment scopeId (Sight.still state late) now (state.scopes.length + 1) = some (.ok health) ∧
      AtMost health.report (whole state now) ∧
      (health.complete = true → health.report = whole state now ∧ health.scopesRead = cap state.scopes.length) ∧
      (health.complete = false → ∃ count, late count = true) := by
  have listed := (run.free.trail stages_fit listed_keeps).held state reached
  have accurate := run_accurate run (List.mem_map_of_mem reached)
  have keeps := @stock_keeps fingerprint config false scopeId _ _ (fun _ _ => True) (fun _ _ => True) (fun _ _ _ => trivial)
    basis_keeps
  have basis : Basis state.stock := (run.free.trail stages_fit keeps).held state reached
  obtain ⟨⟨sums,complete⟩,read⟩ := @still_ends scopeId state now late accurate (state.scopes.length + 1) 0 none 0 .zero
    (Nat.lt_succ_of_le (following_le _ _))
  obtain ⟨visited,counted,figured,rfl,met⟩ := @readPages_ok scopeId (Sight.still state late) now _ 0 none [] [] sums complete
    .start (.nil 0) read
  have unique : ∀ read, UniqueBy (ScopeRow.id scopeId) ((Sight.still state late).page read).scopes := fun _ => listed.unique
  have part : ∀ row ∈ visited, row ∈ state.scopes := by
    intro row member
    obtain ⟨_,within⟩ := met.listed member
    exact within
  have distinct : (visited.map ScopeRow.scope).Nodup := by
    have keys : (visited.map (ScopeRow.id scopeId)).Nodup := List.pairwise_map.mpr ((met.ascending unique).imp ne_of_lt)
    have mapped : visited.map (ScopeRow.id scopeId) = (visited.map ScopeRow.scope).map scopeId := by
      rw [List.map_map]
      rfl
    rw [mapped] at keys
    exact keys.of_map
  have totals := health_totals counted (active state.stock.models) complete
  rw [counted_still accurate figured] at totals
  have report : readDeployment scopeId (Sight.still state late) now (state.scopes.length + 1) =
      some (.ok ((counted.foldl Sums.add .zero).health (active state.stock.models) complete)) := by
    rw [readDeployment,read]
    rfl
  rw [counted_still accurate figured] at report
  refine ⟨_,report,still_atMost basis.registered distinct part totals rfl,?_,?_⟩
  · intro all
    have whole' : complete = true := all
    subst whole'
    have covers : ∀ row ∈ state.scopes, row ∈ visited :=
      fun row member => met.meets unique (named row.scope) fun _ => member
    have perm : visited.Perm state.scopes :=
      (List.perm_ext_iff_of_nodup (distinct.of_map) (listed.unique.of_map)).mpr fun row => ⟨part row,covers row⟩
    refine ⟨still_whole basis listed apart distinct part covers totals rfl,?_⟩
    rw [totals.read,List.length_map,perm.length_eq]
    rfl
  · intro cut
    have partial' : complete = false := cut
    subst partial'
    cases met with
    | cut reading part spent => exact ⟨_,spent⟩

end

namespace Sample
open Claims.Sample hiding secondId
open Store.Sample Lifecycle.Sample Pipeline.Sample

theorem figures_whole_noted :
    current.scopes.length = 1 ∧ (whole current 30).queue.pending = 0 ∧ (whole current 30).liveMemories = 1 ∧
      ∃ health, readDeployment Scope.display (Sight.still current fun _ => false) 30 (current.scopes.length + 1) = some (.ok health) ∧
        health.report = whole current 30 := by
  have one : current.scopes.length = 1 := by decide +kernel
  have apart : Apart Scope.display current := by
    unfold Apart
    decide +kernel
  obtain ⟨health,read,-,complete,cut⟩ := figures_whole run_noted (deployment.current_mem noted) display_named apart
    (fun _ => false) 30
  refine ⟨one,by decide +kernel,by decide +kernel,health,read,(complete ?_).1⟩
  by_contra partial'
  obtain ⟨count,late⟩ := cut (Bool.eq_false_iff.mpr partial')
  cases late

end Sample

end Aicortex.Deployment
