import Aicortex.LifecycleFacts

/-!
Repeated captures of one content. A capture that finds the content merges into the row
that holds it, one that does not writes a row, and a race between two is lost by the one
that commits second: by the unique index, or by the merge guard, which compares the whole
record. So no two live rows of a scope hold one content, and the row that holds it has
one source row for every capture and has counted every repeat, as far as its counter
counts.
-/

namespace Aicortex.Deduplication
open Aicortex.Text Aicortex.CivilTime Aicortex.Memories Aicortex.Schema Aicortex.MemoryRepo Aicortex.Erasure
open Aicortex.Lifecycle
open Lib.Tables Lib.Outcome Lib.StaleRuns
open Aicortex.Claims hiding Unit
set_option linter.unusedSimpArgs false

/-! ### Captures of a content -/

/-- The memory a transaction writes. -/
def written : Txn → Option Memory
  | .insert _ memory _ => some memory
  | .capture settling => some settling.memory
  | .correct settling _ => some settling.memory
  | _ => none

def isCapture : Txn → Bool
  | .capture _ => true
  | .correct _ _ => true
  | _ => false

/-- The source rows of a memory. -/
def sources (store : Holdings) (id : MemoryId) : Nat := store.captures.countP (fun row => row.memoryId == id)

/-- A use count after one more use. -/
def usedAgain (uses : Nat) : Nat := min (uses + 1) (2 ^ 32 - 1)

section
variable (fingerprint : Memory → String)

def writes (scope : Scope) (digest : String) (txn : Txn) : Bool :=
  (written txn).any (fun memory => memory.scope == scope && fingerprint memory == digest)

/-- The transactions that wrote a content since no live row held it, the latest first. -/
def streak (scope : Scope) (digest : String) : List (Txn × Holdings) → List Txn
  | [] => []
  | (txn,state) :: log =>
    if (fingerprintHolder state.db scope digest).isSome then
      if writes fingerprint scope digest txn then txn :: streak scope digest log else streak scope digest log
    else []

/-- What a live row shows of the captures of its content. -/
structure Told (log : List (Txn × Holdings)) (row : MemoryRow) : Prop where
  sources : sources ((system fingerprint).current log) row.id =
    (streak fingerprint row.scope row.fingerprint log).countP isCapture
  uses : ∃ repeats first memory, streak fingerprint row.scope row.fingerprint log = repeats ++ [first] ∧
    (∀ again ∈ repeats, isCapture again = true) ∧ written first = some memory ∧
    row.record.importance.uses = usedAgain^[repeats.length] memory.importance.uses

end

/-- No two live rows of a scope hold one content. -/
def Single (store : Holdings) : Prop :=
  ∀ left ∈ store.db.memories, ∀ right ∈ store.db.memories, left.live = true → right.live = true →
    left.scope = right.scope → left.fingerprint = right.fingerprint → left.id = right.id

/-- Rows that were there with the contents they have stay apart. -/
theorem Single.turned {now next : Holdings} (single : Single now)
    (rows : ∀ row ∈ next.db.memories, row.live = true → ∃ old ∈ now.db.memories, old.live = true ∧ old.id = row.id ∧
      old.scope = row.scope ∧ old.fingerprint = row.fingerprint) : Single next := by
  intro left leftIn right rightIn leftAlive rightAlive sameScope sameContent
  obtain ⟨first,firstIn,firstAlive,firstId,firstScope,firstContent⟩ := rows left leftIn leftAlive
  obtain ⟨second,secondIn,secondAlive,secondId,secondScope,secondContent⟩ := rows right rightIn rightAlive
  rw [← firstId,← secondId]
  refine single first firstIn second secondIn firstAlive secondAlive ?_ ?_
  · rw [firstScope,secondScope,sameScope]
  · rw [firstContent,secondContent,sameContent]

/-- What a log keeps. -/
structure Recorded (fingerprint : Memory → String) (log : List (Txn × Holdings)) : Prop where
  sourced : ∀ source ∈ ((system fingerprint).current log).captures,
    ∃ row ∈ ((system fingerprint).current log).db.memories, row.id = source.memoryId
  single : Single ((system fingerprint).current log)
  told : ∀ row ∈ ((system fingerprint).current log).db.memories, row.live = true → Told fingerprint log row

section
variable {fingerprint : Memory → String} {log : List (Txn × Holdings)} {now mid next : Holdings} {txn : Txn}

theorem holder_isSome {db : Database} {row : MemoryRow} (member : row ∈ db.memories) (alive : row.live = true) :
    (fingerprintHolder db row.scope row.fingerprint).isSome = true := by
  rw [fingerprintHolder,Option.isSome_map,List.find?_isSome]
  exact ⟨row,member,by simp [alive]⟩

theorem streak_held {row : MemoryRow} (member : row ∈ next.db.memories) (alive : row.live = true) :
    streak fingerprint row.scope row.fingerprint ((txn,next) :: log) =
      if writes fingerprint row.scope row.fingerprint txn then txn :: streak fingerprint row.scope row.fingerprint log
      else streak fingerprint row.scope row.fingerprint log := by
  rw [streak,if_pos (holder_isSome member alive)]

/-- A content no live row holds has no captures to show. -/
theorem streak_free {scope : Scope} {digest : String}
    (free : ∀ row ∈ ((system fingerprint).current log).db.memories, row.scope = scope → row.fingerprint = digest →
      row.live = false) : streak fingerprint scope digest log = [] := by
  cases log with
  | nil => rfl
  | cons entry rest =>
    obtain ⟨txn,state⟩ := entry
    rw [streak,if_neg]
    intro held
    obtain ⟨id,found⟩ := Option.isSome_iff_exists.mp held
    obtain ⟨row,member,here,alive,same⟩ := fingerprintHolder_some found
    simp only [ofScope,Bool.and_eq_true,beq_iff_eq] at here
    rw [free row member here.1 same] at alive
    cases alive

/-! ### Moves that write no content -/

/-- Every live row was there with its content, its uses and its sources. -/
structure Quiet (now next : Holdings) : Prop where
  rows : ∀ row ∈ next.db.memories, row.live = true → ∃ old ∈ now.db.memories, old.live = true ∧ old.id = row.id ∧
    old.scope = row.scope ∧ old.fingerprint = row.fingerprint ∧ old.record.importance = row.record.importance ∧
    sources next row.id = sources now row.id
  captures : ∀ source ∈ next.captures, source ∈ now.captures
  stays : ∀ row ∈ now.db.memories, ∃ later ∈ next.db.memories, later.id = row.id

theorem quiet_same (rows : next.db.memories = now.db.memories) (captures : next.captures = now.captures) : Quiet now next := by
  refine ⟨?_,fun source member => captures ▸ member,fun row member => ⟨row,rows ▸ member,rfl⟩⟩
  intro row member alive
  exact ⟨row,rows ▸ member,alive,rfl,rfl,rfl,rfl,by rw [sources,captures,sources]⟩

theorem Quiet.trans (first : Quiet now mid) (second : Quiet mid next) : Quiet now next := by
  refine ⟨?_,fun source member => first.captures source (second.captures source member),?_⟩
  · intro row member alive
    obtain ⟨between,betweenIn,betweenAlive,sameId,sameScope,sameContent,sameImportance,sameSources⟩ :=
      second.rows row member alive
    obtain ⟨old,oldIn,oldAlive,oldId,oldScope,oldContent,oldImportance,oldSources⟩ :=
      first.rows between betweenIn betweenAlive
    refine ⟨old,oldIn,oldAlive,oldId.trans sameId,oldScope.trans sameScope,oldContent.trans sameContent,
      oldImportance.trans sameImportance,?_⟩
    rw [sameSources,← sameId,oldSources]
  · intro row member
    obtain ⟨between,betweenIn,same⟩ := first.stays row member
    obtain ⟨later,laterIn,named⟩ := second.stays between betweenIn
    exact ⟨later,laterIn,named.trans same⟩

/-- A change of rows in place that touches neither content nor uses. -/
theorem quiet_update {selected : MemoryRow → Bool} {change : MemoryRow → MemoryRow}
    (rows : next.db.memories = updateWhere selected change now.db.memories) (captures : next.captures = now.captures)
    (kept : ∀ row ∈ now.db.memories, selected row = true → (change row).id = row.id ∧ (change row).scope = row.scope ∧
      (change row).fingerprint = row.fingerprint ∧ (change row).record.importance = row.record.importance ∧
      row.live = true) : Quiet now next := by
  have sameSources : ∀ id, sources next id = sources now id := fun id => by rw [sources,captures,sources]
  refine ⟨?_,fun source member => captures ▸ member,?_⟩
  · intro row member alive
    rw [rows] at member
    rcases mem_updateWhere.mp member with ⟨inside,-⟩ | ⟨old,inside,chosen,rfl⟩
    · exact ⟨row,inside,alive,rfl,rfl,rfl,rfl,sameSources _⟩
    · obtain ⟨sameId,sameScope,sameContent,sameImportance,oldAlive⟩ := kept old inside chosen
      exact ⟨old,inside,oldAlive,sameId.symm,sameScope.symm,sameContent.symm,sameImportance.symm,
        (sameSources _).trans (by rw [sameId])⟩
  · intro row member
    rw [rows]
    exact updateWhere_stays (fun row member chosen => (kept row member chosen).1) member

/-- An erasure leaves the rows it does not bury, and their sources. -/
theorem quiet_bury {Inv : Holdings → Prop} {history : List Holdings} (trail : System.Trail Inv Since history now)
    (unique : UniqueBy MemoryRow.id now.db.memories) {scope : Scope} {shells : List Shell} {at' : UnixSeconds}
    (seen : ∀ shell ∈ shells, ShellSeen history scope shell)
    (rows : next.db.memories = now.db.memories.map (bury scope shells at'))
    (captures : next.captures = sweepCaptures scope shells now.captures) : Quiet now next := by
  refine ⟨?_,?_,?_⟩
  · intro row member alive
    rw [rows] at member
    obtain ⟨old,inside,rfl⟩ := List.mem_map.mp member
    obtain ⟨same,oldAlive,unnamed⟩ := bury_live alive
    -- a shell of the row's own id would name it, as ids are unique
    have spared : shells.any (fun shell => shell.id == old.id) = false := by
      rw [List.any_eq_false]
      intro shell listed hit
      obtain ⟨was,wasSeen,there,-⟩ := seen shell listed
      simp only [beq_iff_eq] at hit
      simp only [ofScope,Bool.and_eq_true,beq_iff_eq] at there
      have steady := wasSeen.current trail unique inside (hit.symm.trans there.2.symm)
      have here : ofScope scope shell.id old = true := by
        rw [ofScope,steady.scope,there.1,hit]
        simp
      rw [named_of_shell listed here] at unnamed
      cases unnamed
    rw [same]
    refine ⟨old,inside,oldAlive,rfl,rfl,rfl,rfl,?_⟩
    unfold sources
    rw [captures,sweepCaptures,deleteWhere,List.countP_filter]
    refine List.countP_congr fun source _ => ?_
    simp only [Bool.and_eq_true,beq_iff_eq,Bool.not_eq_true']
    constructor
    · exact fun both => both.1
    · intro mine
      refine ⟨mine,?_⟩
      rw [mine,spared,Bool.and_false]
  · intro source member
    rw [captures] at member
    exact (mem_deleteWhere.mp member).1
  · intro row member
    rw [rows]
    exact ⟨_,List.mem_map_of_mem member,(bury_spec scope shells at' row).1⟩

/-- A transaction that writes nothing leaves every count as it was. -/
theorem Recorded.idle (recorded : Recorded fingerprint log) (writesNothing : written txn = none) :
    Recorded fingerprint ((txn,(system fingerprint).current log) :: log) := by
  refine ⟨recorded.sourced,recorded.single,?_⟩
  intro row (member : row ∈ ((system fingerprint).current log).db.memories) alive
  obtain ⟨sources,uses⟩ := recorded.told row member alive
  have same := @streak_held fingerprint log _ txn row member alive
  have silent : writes fingerprint row.scope row.fingerprint txn = false := by simp [writes,writesNothing]
  rw [silent,if_neg Bool.false_ne_true] at same
  refine ⟨?_,?_⟩
  · rw [same]
    exact sources
  · rw [same]
    exact uses

theorem Recorded.quiet (recorded : Recorded fingerprint ((txn,mid) :: log)) (quiet : Quiet mid next) :
    Recorded fingerprint ((txn,next) :: log) := by
  refine ⟨?_,?_,?_⟩
  · intro source member
    obtain ⟨row,rowIn,same⟩ := recorded.sourced source (quiet.captures source member)
    obtain ⟨later,laterIn,named⟩ := quiet.stays row rowIn
    exact ⟨later,laterIn,named.trans same⟩
  · refine recorded.single.turned fun row member alive => ?_
    obtain ⟨old,oldIn,oldAlive,sameId,sameScope,sameContent,-⟩ := quiet.rows row member alive
    exact ⟨old,oldIn,oldAlive,sameId,sameScope,sameContent⟩
  · intro row (member : row ∈ next.db.memories) alive
    obtain ⟨old,oldIn,oldAlive,sameId,sameScope,sameContent,sameImportance,sameSources⟩ := quiet.rows row member alive
    obtain ⟨sources,uses⟩ := recorded.told old oldIn oldAlive
    have same : streak fingerprint row.scope row.fingerprint ((txn,next) :: log) =
        streak fingerprint old.scope old.fingerprint ((txn,mid) :: log) := by
      rw [streak_held member alive,streak_held oldIn oldAlive,sameScope,sameContent]
    refine ⟨?_,?_⟩
    · rw [same,← sources,sameId]
      exact sameSources
    · rw [same,← sameImportance]
      exact uses

theorem quiet_supersede {supersession : Supersession} (applied : (system fingerprint).apply now supersession.move = .ok next) :
    Quiet now next := by
  obtain ⟨guard,rfl⟩ := supersede_applied applied
  refine quiet_update rfl rfl ?_
  intro row member chosen
  obtain ⟨sameRecord,alive,-⟩ := guard row member chosen
  refine ⟨rfl,rfl,rfl,?_,alive⟩
  rw [sameRecord]

/-- A move that neither writes a row nor merges into one. -/
def Plain : Move → Prop
  | .insert _ _ _ => False
  | .source _ _ _ => False
  | .merge _ _ _ _ => False
  | _ => True

theorem quiet_move {Inv : Holdings → Prop} {history : List Holdings} (trail : System.Trail Inv Since history now)
    (unique : UniqueBy MemoryRow.id now.db.memories) {move : Move} (fit : Fit fingerprint history move) (plain : Plain move)
    (applied : (system fingerprint).apply now move = .ok next) : Quiet now next := by
  cases move with
  | insert | source | merge => cases plain
  | supersede scope old new expected at' =>
    exact @quiet_supersede fingerprint now next ⟨scope,old,new,expected,at'⟩ applied
  | setValidUntil scope id until' =>
    cases applied
    refine quiet_update rfl rfl ?_
    intro row _ chosen
    exact ⟨rfl,rfl,rfl,rfl,(Bool.and_eq_true_iff.mp chosen).2⟩
  | materialize scope kinds =>
    cases applied
    exact quiet_same rfl rfl
  | expire scope ids kinds at' =>
    cases applied
    refine quiet_update rfl rfl ?_
    intro row _ chosen
    simp only [Bool.and_eq_true,beq_iff_eq] at chosen
    exact ⟨rfl,rfl,rfl,rfl,by simp [MemoryRow.live,chosen.1.2]⟩
  | erase prepared =>
    obtain ⟨-,-,memories,-,captures⟩ := erase_applied applied
    have buried : Quiet now { next with
        db := { next.db with memories := now.db.memories.map (bury prepared.scope prepared.shells prepared.now) } } :=
      quiet_bury trail unique fit.2.2 rfl captures
    refine buried.trans (quiet_update memories rfl ?_)
    intro row _ chosen
    simp only [Bool.and_eq_true] at chosen
    exact ⟨rfl,rfl,rfl,rfl,chosen.1.2⟩
  | startScope scope decisionId =>
    obtain ⟨receipts,rfl⟩ := startScope_applied applied
    exact quiet_same rfl rfl
  | drain scope operation shells at' =>
    obtain ⟨-,memories,-,captures⟩ := drain_applied applied
    obtain ⟨seen,inside,batch,rfl⟩ := fit
    exact quiet_bury trail unique (batchShells_seen ⟨seen,inside,rfl⟩) memories captures
  | deliver scope target decisionId =>
    cases applied
    exact quiet_same rfl rfl

/-! ### Moves that write one -/

theorem writes_iff {memory : Memory} (writesIt : written txn = some memory) {scope : Scope} {digest : String} :
    writes fingerprint scope digest txn = true ↔ memory.scope = scope ∧ fingerprint memory = digest := by
  simp [writes,writesIt]

theorem sources_append {scope : Scope} {id : MemoryId} {provenance : Provenance}
    (captures : next.captures = now.captures ++ [sourceRow now.captures scope id provenance]) (other : MemoryId) :
    sources next other = sources now other + if other = id then 1 else 0 := by
  have names : (sourceRow now.captures scope id provenance).memoryId = id := rfl
  unfold sources
  rw [captures,List.countP_append,List.countP_singleton,names]
  by_cases mine : other = id
  · simp [mine]
  · simp [mine,Ne.symm mine]

/-- A transaction wrote a row of its own. -/
structure Entered (fingerprint : Memory → String) (now next : Holdings) (txn : Txn) (memory : Memory) : Prop where
  fresh : Fresh memory
  writesIt : written txn = some memory
  free : ∀ other ∈ now.db.memories, other.id ≠ memory.id
  apart : ∀ other ∈ now.db.memories, clashes (memoryRow fingerprint memory) other = false
  rows : next.db.memories = now.db.memories ++ [memoryRow fingerprint memory]
  captures : ∀ source ∈ next.captures, source ∈ now.captures ∨ source.memoryId = memory.id
  counts : ∀ id, sources next id = sources now id + if id = memory.id ∧ isCapture txn = true then 1 else 0

/-- No live row held the content. -/
theorem Entered.other {memory : Memory} (entered : Entered fingerprint now next txn memory) {row : MemoryRow}
    (member : row ∈ now.db.memories) (alive : row.live = true) :
    ¬ (memory.scope = row.scope ∧ fingerprint memory = row.fingerprint) := by
  rintro ⟨sameScope,sameContent⟩
  have newAlive : (memoryRow fingerprint memory).live = true := by
    rcases entered.fresh.status with status | status <;> simp [memoryRow,status,label,MemoryRow.live]
  have clash := entered.apart row member
  rw [clashes,newAlive,alive] at clash
  simp [memoryRow,sameScope,sameContent] at clash

theorem Entered.single {memory : Memory} (entered : Entered fingerprint now next txn memory) (single : Single now) :
    Single next := by
  intro left leftIn right rightIn leftAlive rightAlive sameScope sameContent
  rw [entered.rows] at leftIn rightIn
  rcases List.mem_append.mp leftIn with leftOld | leftNew
  · rcases List.mem_append.mp rightIn with rightOld | rightNew
    · exact single left leftOld right rightOld leftAlive rightAlive sameScope sameContent
    · obtain rfl := List.mem_singleton.mp rightNew
      exact absurd ⟨sameScope.symm,sameContent.symm⟩ (entered.other leftOld leftAlive)
  · obtain rfl := List.mem_singleton.mp leftNew
    rcases List.mem_append.mp rightIn with rightOld | rightNew
    · exact absurd ⟨sameScope,sameContent⟩ (entered.other rightOld rightAlive)
    · rw [List.mem_singleton.mp rightNew]

/-- The new row starts a streak of its own. -/
theorem Entered.told {memory : Memory}
    (entered : Entered fingerprint ((system fingerprint).current log) next txn memory) (recorded : Recorded fingerprint log)
    (alive : (memoryRow fingerprint memory).live = true) :
    Told fingerprint ((txn,next) :: log) (memoryRow fingerprint memory) := by
  have before : streak fingerprint memory.scope (fingerprint memory) log = [] := by
    refine streak_free fun row member sameScope sameContent => ?_
    by_contra lives
    exact entered.other member (Bool.of_not_eq_false lives) ⟨sameScope.symm,sameContent.symm⟩
  have unsourced : sources ((system fingerprint).current log) memory.id = 0 := by
    refine List.countP_eq_zero.mpr fun source member mine => ?_
    obtain ⟨row,rowIn,same⟩ := recorded.sourced source member
    simp only [beq_iff_eq] at mine
    exact entered.free row rowIn (same.trans mine)
  have member : memoryRow fingerprint memory ∈ next.db.memories := by
    rw [entered.rows]
    exact List.mem_append_right _ (List.mem_singleton_self _)
  have hit : writes fingerprint (memoryRow fingerprint memory).scope (memoryRow fingerprint memory).fingerprint txn = true :=
    (writes_iff entered.writesIt).mpr ⟨rfl,rfl⟩
  have only : streak fingerprint (memoryRow fingerprint memory).scope (memoryRow fingerprint memory).fingerprint
      ((txn,next) :: log) = [txn] := by
    rw [streak_held member alive,if_pos hit]
    exact congrArg (txn :: ·) before
  refine ⟨?_,[],txn,memory,only,by simp,entered.writesIt,rfl⟩
  rw [only,List.countP_singleton]
  refine (entered.counts memory.id).trans ?_
  simp [unsourced]

theorem Recorded.inserted (recorded : Recorded fingerprint log) {memory : Memory}
    (entered : Entered fingerprint ((system fingerprint).current log) next txn memory) :
    Recorded fingerprint ((txn,next) :: log) := by
  refine ⟨?_,entered.single recorded.single,?_⟩
  · intro source member
    show ∃ row ∈ next.db.memories, _
    rw [entered.rows]
    rcases entered.captures source member with old | mine
    · obtain ⟨row,rowIn,same⟩ := recorded.sourced source old
      exact ⟨row,List.mem_append_left _ rowIn,same⟩
    · exact ⟨memoryRow fingerprint memory,List.mem_append_right _ (List.mem_singleton_self _),mine.symm⟩
  · intro row (member : row ∈ next.db.memories) alive
    have unfolded := @streak_held fingerprint log next txn row member alive
    rw [entered.rows] at member
    rcases List.mem_append.mp member with old | new
    · have silent : ¬ writes fingerprint row.scope row.fingerprint txn = true :=
        fun hit => entered.other old alive ((writes_iff entered.writesIt).mp hit)
      rw [if_neg silent] at unfolded
      obtain ⟨sources,uses⟩ := recorded.told row old alive
      refine ⟨?_,?_⟩
      · rw [unfolded,← sources]
        refine (entered.counts row.id).trans ?_
        simp [entered.free row old]
      · rw [unfolded]
        exact uses
    · obtain rfl := List.mem_singleton.mp new
      exact entered.told recorded alive

/-- A capture was merged into the row that held its content. -/
structure Repeated (fingerprint : Memory → String) (now next : Holdings) (txn : Txn) (again : Memory) (id : MemoryId) :
    Prop where
  writesIt : written txn = some again
  capture : isCapture txn = true
  holder : ∃ row ∈ now.db.memories, row.id = id ∧ row.live = true ∧ row.scope = again.scope ∧
    row.fingerprint = fingerprint again
  rows : ∀ row ∈ next.db.memories, row.live = true → ∃ old ∈ now.db.memories, old.live = true ∧ old.id = row.id ∧
    old.scope = row.scope ∧ old.fingerprint = row.fingerprint ∧
    row.record.importance.uses =
      if row.id = id then usedAgain old.record.importance.uses else old.record.importance.uses
  stays : ∀ row ∈ now.db.memories, ∃ later ∈ next.db.memories, later.id = row.id
  captures : ∀ source ∈ next.captures, source ∈ now.captures ∨ source.memoryId = id
  counts : ∀ other, sources next other = sources now other + if other = id then 1 else 0

/-- Of the live rows, the capture is of the content of the one it was merged into. -/
theorem Repeated.writes_iff {again : Memory} {id : MemoryId} (repeated : Repeated fingerprint now next txn again id)
    (single : Single now) {row : MemoryRow} (member : row ∈ now.db.memories) (alive : row.live = true)
    (unique : UniqueBy MemoryRow.id now.db.memories) :
    writes fingerprint row.scope row.fingerprint txn = true ↔ row.id = id := by
  obtain ⟨holder,holderIn,holderId,holderAlive,sameScope,sameContent⟩ := repeated.holder
  rw [Deduplication.writes_iff repeated.writesIt]
  constructor
  · rintro ⟨ofScope,ofContent⟩
    rw [← holderId]
    exact single row member holder holderIn alive holderAlive (ofScope.symm.trans sameScope.symm)
      (ofContent.symm.trans sameContent.symm)
  · intro same
    obtain rfl := unique.eq_of_key member holderIn (same.trans holderId.symm)
    exact ⟨sameScope.symm,sameContent.symm⟩

theorem Recorded.repeated (recorded : Recorded fingerprint log)
    (unique : UniqueBy MemoryRow.id ((system fingerprint).current log).db.memories) {again : Memory} {id : MemoryId}
    (repeated : Repeated fingerprint ((system fingerprint).current log) next txn again id) :
    Recorded fingerprint ((txn,next) :: log) := by
  refine ⟨?_,?_,?_⟩
  · intro source member
    rcases repeated.captures source member with old | mine
    · obtain ⟨row,rowIn,same⟩ := recorded.sourced source old
      obtain ⟨later,laterIn,named⟩ := repeated.stays row rowIn
      exact ⟨later,laterIn,named.trans same⟩
    · obtain ⟨holder,holderIn,holderId,-⟩ := repeated.holder
      obtain ⟨later,laterIn,named⟩ := repeated.stays holder holderIn
      exact ⟨later,laterIn,named.trans (holderId.trans mine.symm)⟩
  · refine recorded.single.turned fun row member alive => ?_
    obtain ⟨old,oldIn,oldAlive,sameId,sameScope,sameContent,-⟩ := repeated.rows row member alive
    exact ⟨old,oldIn,oldAlive,sameId,sameScope,sameContent⟩
  · intro row (member : row ∈ next.db.memories) alive
    obtain ⟨old,oldIn,oldAlive,sameId,sameScope,sameContent,usesNow⟩ := repeated.rows row member alive
    obtain ⟨sources,repeats,first,memory,was,captures,wrote,uses⟩ := recorded.told old oldIn oldAlive
    have hit := repeated.writes_iff recorded.single oldIn oldAlive unique
    have unfolded := @streak_held fingerprint log next txn row member alive
    rw [← sameScope,← sameContent] at unfolded
    rw [sameId] at hit sources
    by_cases mine : row.id = id
    · rw [if_pos (hit.mpr mine)] at unfolded
      refine ⟨?_,txn :: repeats,first,memory,?_,?_,wrote,?_⟩
      · rw [← sameScope,← sameContent,unfolded,List.countP_cons_of_pos repeated.capture,← sources]
        refine (repeated.counts row.id).trans ?_
        rw [if_pos mine]
      · rw [← sameScope,← sameContent,unfolded,was,List.cons_append]
      · exact List.forall_mem_cons.mpr ⟨repeated.capture,captures⟩
      · rw [usesNow,if_pos mine,uses,List.length_cons,Function.iterate_succ_apply']
    · rw [if_neg fun found => mine (hit.mp found)] at unfolded
      refine ⟨?_,repeats,first,memory,?_,captures,wrote,?_⟩
      · rw [← sameScope,← sameContent,unfolded,← sources]
        refine (repeated.counts row.id).trans ?_
        rw [if_neg mine,add_zero]
      · rw [← sameScope,← sameContent,unfolded,was]
      · rw [usesNow,if_neg mine,uses]

/-! ### Runs -/

theorem settled_inserted {maxBodyBytes : Nat} {memory : Memory} (fresh : Fresh memory) (writesIt : written txn = some memory)
    (capture : isCapture txn = true)
    (executed : (Settling.inserted maxBodyBytes memory).moves.foldlM (apply fingerprint) now = .ok next) :
    Entered fingerprint now next txn memory := by
  obtain ⟨mid,inserted,rfl⟩ := sourced_applied executed
  obtain ⟨free,apart,-,rfl⟩ := insert_applied inserted
  refine ⟨fresh,writesIt,free,apart,rfl,?_,?_⟩
  · intro source member
    rcases List.mem_append.mp member with old | new
    · exact .inl old
    · rw [List.mem_singleton.mp new]
      exact .inr rfl
  · intro id
    simp only [capture,and_true]
    exact sources_append rfl id

theorem settled_merged {Inv : Holdings → Prop} {history : List Holdings} (trail : System.Trail Inv Since history now)
    (unique : UniqueBy MemoryRow.id now.db.memories) {scope : Scope} {id : MemoryId} {expected again : Memory}
    (fit : Fit fingerprint history (.merge scope id expected again)) (writesIt : written txn = some again)
    (capture : isCapture txn = true)
    (executed : (Settling.merged scope id expected again).moves.foldlM (apply fingerprint) now = .ok next) :
    Repeated fingerprint now next txn again id := by
  obtain ⟨mid,merged,rfl⟩ := sourced_applied executed
  obtain ⟨guard,rfl⟩ := merge_applied merged
  -- the row that held the content when it was read is live, so it holds it still
  obtain ⟨rfl,-,was,wasSeen,there,-,content⟩ := fit
  obtain ⟨holder,inside,sameId,steady⟩ := wasSeen.stays trail
  have here : ofScope again.scope id holder = true := by
    rw [ofScope,steady.scope,sameId]
    exact there
  have named := here
  simp only [ofScope,Bool.and_eq_true,beq_iff_eq] at named
  obtain ⟨-,alive⟩ := guard holder inside here
  refine ⟨writesIt,capture,⟨holder,inside,named.2,alive,named.1,(steady.content alive).2.trans content⟩,?_,?_,?_,?_⟩
  · intro row member rowAlive
    rcases mem_updateWhere.mp member with ⟨old,skipped⟩ | ⟨old,oldIn,chosen,rfl⟩
    · have elsewhere : row.id ≠ id := by
        intro mine
        rw [unique.eq_of_key old inside (mine.trans named.2.symm),here] at skipped
        cases skipped
      exact ⟨row,old,rowAlive,rfl,rfl,rfl,(if_neg elsewhere).symm⟩
    · obtain ⟨rfl,oldAlive⟩ := guard old oldIn chosen
      simp only [ofScope,Bool.and_eq_true,beq_iff_eq] at chosen
      exact ⟨old,oldIn,oldAlive,rfl,rfl,rfl,(if_pos chosen.2).symm⟩
  · intro row member
    refine updateWhere_stays ?_ member
    exact fun _ _ _ => rfl
  · intro source member
    rcases List.mem_append.mp member with old | new
    · exact .inl old
    · rw [List.mem_singleton.mp new]
      exact .inr rfl
  · exact fun other => sources_append rfl other

/-- A capture that commits is recorded, in a row of its own or as a repeat. -/
theorem Recorded.settled {Inv : Holdings → Prop} (recorded : Recorded fingerprint log)
    (trail : System.Trail Inv Since ((system fingerprint).states log) ((system fingerprint).current log))
    (unique : UniqueBy MemoryRow.id ((system fingerprint).current log).db.memories) {settling : Settling}
    (fits : ∀ move ∈ settling.moves, Fit fingerprint ((system fingerprint).states log) move)
    (writesIt : written txn = some settling.memory) (capture : isCapture txn = true)
    (executed : settling.moves.foldlM (apply fingerprint) ((system fingerprint).current log) = .ok next) :
    Recorded fingerprint ((txn,next) :: log) := by
  cases settling with
  | inserted maxBodyBytes memory =>
    exact recorded.inserted (settled_inserted (fits _ List.mem_cons_self) writesIt capture executed)
  | merged scope id expected again =>
    exact recorded.repeated unique (settled_merged trail unique (fits _ List.mem_cons_self) writesIt capture executed)

theorem run_recorded (run : System.Run (system fingerprint) (fun _ _ => True) log) : Recorded fingerprint log := by
  induction run with
  | start =>
    refine ⟨?_,?_,?_⟩
    · intro source member
      cases member
    · intro left member
      cases member
    · intro row member
      cases member
  | @step log txn next run staged meet committed ih =>
    have trail := run.trail fits tidy_keeps
    have tidy := trail.held _ ((system fingerprint).current_mem log)
    have fit := fits _ _ staged
    have quiet : ∀ {move}, (system fingerprint).moves txn = [move] → Plain move → written txn = none →
        Recorded fingerprint ((txn,next) :: log) := by
      intro move only plain silent
      have fit := fit move (by rw [only]; exact List.mem_singleton_self _)
      exact (ih.idle silent).quiet (quiet_move trail tidy.unique fit plain (System.commit_single only committed))
    cases txn with
    | insert maxBodyBytes memory provenance =>
      obtain ⟨free,apart,-,rfl⟩ := insert_applied (System.commit_single rfl committed)
      refine ih.inserted ⟨fit _ List.mem_cons_self,rfl,free,apart,rfl,fun _ member => .inl member,?_⟩
      intro id
      simp [isCapture,sources]
    | capture settling => exact ih.settled trail tidy.unique fit rfl rfl committed
    | correct settling supersession =>
      obtain ⟨mid,captured,superseded⟩ := correct_applied committed
      have fitting := fun move member => fit move (List.mem_append_left _ member)
      exact (ih.settled trail tidy.unique fitting rfl rfl captured).quiet (quiet_supersede superseded)
    | supersede supersession => exact quiet rfl trivial rfl
    | setValidUntil scope id until' => exact quiet rfl trivial rfl
    | prepareExpiry scope kinds => exact quiet rfl trivial rfl
    | expire scope ids kinds at' => exact quiet rfl trivial rfl
    | erase prepared => exact quiet rfl trivial rfl
    | startScope scope decisionId => exact quiet rfl trivial rfl
    | drain scope operation shells at' => exact quiet rfl trivial rfl
    | deliver scope target decisionId => exact quiet rfl trivial rfl

theorem streak_holder {scope : Scope} {digest : String} (some' : streak fingerprint scope digest log ≠ []) :
    ∃ row ∈ ((system fingerprint).current log).db.memories, row.live = true ∧ row.scope = scope ∧ row.fingerprint = digest := by
  by_contra none'
  refine some' (streak_free fun row member sameScope sameContent => ?_)
  by_contra alive
  exact none' ⟨row,member,Bool.of_not_eq_false alive,sameScope,sameContent⟩

theorem usedAgain_iterate {uses : Nat} (bounded : uses < 2 ^ 32) (repeats : Nat) :
    usedAgain^[repeats] uses = min (uses + repeats) (2 ^ 32 - 1) := by
  induction repeats with
  | zero =>
    rw [Function.iterate_zero,id_eq]
    omega
  | succ repeats ih =>
    rw [Function.iterate_succ_apply',ih,usedAgain]
    omega

/-- No two live rows of a scope hold one content. Where the content was written since no
    live row held it, one does; it has one source row for every capture, and its use
    count is that of the first with one more for every repeat, as far as it counts. -/
theorem captures_deduplicated (run : System.Run (system fingerprint) (fun _ _ => True) log) (scope : Scope) (digest : String) :
    (∀ left ∈ ((system fingerprint).current log).db.memories, ∀ right ∈ ((system fingerprint).current log).db.memories,
      left.live = true → right.live = true → left.scope = scope → right.scope = scope → left.fingerprint = digest →
      right.fingerprint = digest → left = right) ∧
    ∀ repeats first, streak fingerprint scope digest log = repeats ++ [first] →
      (∀ again ∈ repeats, isCapture again = true) ∧
      ∃ row ∈ ((system fingerprint).current log).db.memories, row.live = true ∧ row.scope = scope ∧
        row.fingerprint = digest ∧
        sources ((system fingerprint).current log) row.id = repeats.length + (if isCapture first then 1 else 0) ∧
        ∃ memory, written first = some memory ∧ (memory.importance.uses < 2 ^ 32 →
          row.record.importance.uses = min (memory.importance.uses + repeats.length) (2 ^ 32 - 1)) := by
  have recorded := run_recorded run
  have tidy : Tidy ((system fingerprint).current log) := run.holds fits tidy_keeps
  refine ⟨?_,?_⟩
  · intro left leftIn right rightIn leftAlive rightAlive leftScope rightScope leftContent rightContent
    refine tidy.unique.eq_of_key leftIn rightIn ?_
    exact recorded.single left leftIn right rightIn leftAlive rightAlive (leftScope.trans rightScope.symm)
      (leftContent.trans rightContent.symm)
  · intro repeats first is
    obtain ⟨row,member,alive,rfl,rfl⟩ := streak_holder (by rw [is]; simp)
    obtain ⟨counted,others,opening,memory,was,captures,wrote,uses⟩ := recorded.told row member alive
    obtain ⟨rfl,same⟩ := List.append_inj' (is.symm.trans was) rfl
    obtain rfl := List.singleton_inj.mp same
    refine ⟨captures,row,member,alive,rfl,rfl,?_,memory,wrote,?_⟩
    · rw [counted,is,List.countP_append,List.countP_eq_length.mpr captures,List.countP_singleton]
    · intro bounded
      rw [uses,usedAgain_iterate bounded]

end

namespace Sample
open Claims.Sample hiding secondId
open Store.Sample Lifecycle.Sample

/-- A note is captured and captured again under another id. -/
def repeatedNote (uses : Nat) : List (Txn × Holdings) :=
  captured (captured [] (noted noteId "aisle seat" .evidence [] uses)) (noted secondId "aisle seat" .evidence [] 1)

theorem repeatedNote_run (uses : Nat) : System.Run (system textOf) (fun _ _ => True) (repeatedNote uses) :=
  run_captured_free (run_captured_free .start (noted_admitted aisle_passes _ _ _ _)) (noted_admitted aisle_passes _ _ _ _)

/-- A use count at the largest number does not show the repeat. -/
theorem full_count_misses_repeat :
    System.Run (system textOf) (fun _ _ => True) (repeatedNote (2 ^ 32 - 1)) ∧
      (streak textOf scope "aisle seat" (repeatedNote (2 ^ 32 - 1))).length = 2 ∧
      ((system textOf).current (repeatedNote (2 ^ 32 - 1))).db.memories.map (fun row => row.record.importance.uses) =
        [2 ^ 32 - 1] ∧
      2 ^ 32 - 1 ≠ 2 ^ 32 - 1 + 1 :=
  ⟨repeatedNote_run _,by decide +kernel,by decide +kernel,by decide⟩

/-- A note captured twice has two sources and one use more. -/
theorem captures_deduplicated_twice :
    System.Run (system textOf) (fun _ _ => True) (repeatedNote 1) ∧
      ∃ row ∈ ((system textOf).current (repeatedNote 1)).db.memories,
        sources ((system textOf).current (repeatedNote 1)) row.id = 2 ∧ row.record.importance.uses = 2 := by
  have captures : (streak textOf scope "aisle seat" (repeatedNote 1)).map isCapture = [true,true] := by decide +kernel
  have begins : (streak textOf scope "aisle seat" (repeatedNote 1)).map
      (fun txn => (written txn).map (fun memory => memory.importance.uses)) = [some 1,some 1] := by decide +kernel
  obtain ⟨second,first,is⟩ := List.length_eq_two.mp
    (by decide +kernel : (streak textOf scope "aisle seat" (repeatedNote 1)).length = 2)
  obtain ⟨-,row,member,-,-,-,counted,memory,wrote,used⟩ :=
    (captures_deduplicated (repeatedNote_run 1) scope "aisle seat").2 [second] first is
  rw [is] at captures begins
  simp only [List.map_cons,List.map_nil,List.cons.injEq,and_true] at captures begins
  rw [wrote] at begins
  have once : memory.importance.uses = 1 := Option.some.inj begins.2
  refine ⟨repeatedNote_run 1,row,member,?_,?_⟩
  · rw [counted,if_pos captures.2,List.length_singleton]
  · rw [used (by rw [once]; decide),once,List.length_singleton]
    decide

end Sample

end Aicortex.Deduplication
