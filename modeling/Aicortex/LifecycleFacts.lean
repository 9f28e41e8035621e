import Aicortex.Lifecycle

/-!
What every transaction of the lifecycle keeps, whatever its call read. A memory row
keeps its place, its kind and its times of creation, its content stays as long as it
lives, and an erased row stays erased. What a call read of a row is therefore still
true of it in these respects when the transaction commits.
-/

namespace Aicortex.Lifecycle
open Aicortex.Text Aicortex.CivilTime Aicortex.Memories Aicortex.Schema Aicortex.MemoryRepo Aicortex.Erasure
open Aicortex.CaptureGate
open Lib.Tables Lib.Outcome Lib.StaleRuns
open Aicortex.Claims hiding Unit
set_option linter.unusedSimpArgs false

/-! ### What the gate lets through -/

/-- A memory as it is first written. -/
structure Fresh (memory : Memory) : Prop where
  status : memory.status = .active ∨ memory.status = .quarantined
  schemaVersion : memory.schemaVersion = memorySchemaVersion

theorem Admitted.fresh {memory : Memory} (admitted : Admitted memory) : Fresh memory := by
  cases admitted with
  | passed linked rules candidate verdict =>
    unfold evaluate at verdict
    split at verdict
    · cases verdict
      exact ⟨.inl rfl,rfl⟩
    · cases verdict
    · cases verdict
  | held linked rules candidate reason verdict =>
    unfold evaluate at verdict
    split at verdict
    · cases verdict
    · cases verdict
      exact ⟨.inr rfl,rfl⟩
    · cases verdict
  | overridden linked rules candidate over' verdict =>
    simp only [evaluateOverridden] at verdict
    split_ifs at verdict
    cases verdict
    exact ⟨.inl rfl,rfl⟩

/-! ### Rows over time -/

/-- What a row keeps from one state to the next. -/
structure Steady (old new : MemoryRow) : Prop where
  scope : new.scope = old.scope
  kind : new.kind = old.kind
  trust : new.trust = old.trust
  schemaVersion : new.schemaVersion = old.schemaVersion
  created : new.created = old.created
  content : new.live = true → old.live = true ∧ new.fingerprint = old.fingerprint

theorem Steady.still (row : MemoryRow) : Steady row row := ⟨rfl,rfl,rfl,rfl,rfl,fun alive => ⟨alive,rfl⟩⟩

theorem Steady.onward (first second third : MemoryRow) (one : Steady first second) (two : Steady second third) :
    Steady first third := by
  refine ⟨two.scope.trans one.scope,two.kind.trans one.kind,two.trust.trans one.trust,
    two.schemaVersion.trans one.schemaVersion,two.created.trans one.created,?_⟩
  intro alive
  obtain ⟨wasAlive,same⟩ := two.content alive
  obtain ⟨before,earlier⟩ := one.content wasAlive
  exact ⟨before,same.trans earlier⟩

abbrev RowsEvolve (before after : List MemoryRow) : Prop := Evolves MemoryRow.id Steady before after

/-- A change of rows in place that leaves the live ones their content. -/
theorem rows_update {selected : MemoryRow → Bool} {change : MemoryRow → MemoryRow} {rows : List MemoryRow}
    (steady : ∀ row ∈ rows, selected row = true → (change row).id = row.id ∧ Steady row (change row)) :
    RowsEvolve rows (updateWhere selected change rows) :=
  Evolves.update Steady.still selected steady

theorem bury_dead {scope : Scope} {shells : List Shell} {now : UnixSeconds} {row : MemoryRow} (dead : row.live = false) :
    bury scope shells now row = row := by
  induction shells with
  | nil => rfl
  | cons shell rest ih =>
    have unfolded : bury scope (shell :: rest) now row = bury scope rest now
        (if ofScope scope shell.id row && row.live then buryRow scope now shell row else row) := rfl
    rw [unfolded,dead,Bool.and_false,if_neg Bool.false_ne_true,ih]

theorem named_of_shell {scope : Scope} {shells : List Shell} {shell : Shell} {row : MemoryRow} (listed : shell ∈ shells)
    (here : ofScope scope shell.id row = true) : named scope shells row = true := by
  simp only [ofScope,Bool.and_eq_true,beq_iff_eq] at here
  simp only [named,here.1,beq_self_eq_true,Bool.true_and,List.any_eq_true,beq_iff_eq]
  exact ⟨shell,listed,here.2.symm⟩

/-- A row is buried under the first shell that names it, if it lives. -/
theorem bury_cases (scope : Scope) (shells : List Shell) (now : UnixSeconds) (row : MemoryRow) :
    ((row.live && named scope shells row) = false ∧ bury scope shells now row = row) ∨
      (row.live = true ∧ ∃ shell ∈ shells, ofScope scope shell.id row = true ∧
        bury scope shells now row = buryRow scope now shell row) := by
  induction shells with
  | nil => exact .inl ⟨by simp [named],rfl⟩
  | cons shell rest ih =>
    have unfolded : bury scope (shell :: rest) now row = bury scope rest now
        (if ofScope scope shell.id row && row.live then buryRow scope now shell row else row) := rfl
    by_cases chosen : (ofScope scope shell.id row && row.live) = true
    · obtain ⟨here,alive⟩ := Bool.and_eq_true_iff.mp chosen
      refine .inr ⟨alive,shell,List.mem_cons_self,here,?_⟩
      rw [unfolded,if_pos chosen]
      exact bury_dead rfl
    · rw [unfolded,if_neg chosen]
      rcases ih with ⟨missed,same⟩ | ⟨alive,other,member,here,buried⟩
      · refine .inl ⟨?_,same⟩
        cases alive : row.live with
        | false => rfl
        | true =>
          have elsewhere : ofScope scope shell.id row = false := by simpa [alive] using chosen
          rw [alive,Bool.true_and] at missed
          simp only [ofScope,Bool.and_eq_false_iff,beq_eq_false_iff_ne,ne_eq] at elsewhere
          simp only [named,Bool.true_and,List.any_cons,Bool.and_eq_false_iff,beq_eq_false_iff_ne,ne_eq,
            Bool.or_eq_false_iff] at missed ⊢
          tauto
      · exact .inr ⟨alive,other,List.mem_cons_of_mem _ member,here,buried⟩

/-- A row that lives after the burial was left alone by it. -/
theorem bury_live {scope : Scope} {shells : List Shell} {now : UnixSeconds} {row : MemoryRow}
    (alive : (bury scope shells now row).live = true) :
    bury scope shells now row = row ∧ row.live = true ∧ named scope shells row = false := by
  obtain ⟨-,-,-,lives⟩ := bury_spec scope shells now row
  rw [alive] at lives
  simp only [Bool.true_eq,Bool.and_eq_true,Bool.not_eq_true'] at lives
  rcases bury_cases scope shells now row with ⟨-,same⟩ | ⟨-,shell,listed,here,-⟩
  · exact ⟨same,lives⟩
  · rw [named_of_shell listed here] at lives
    cases lives.2

theorem bury_steady (scope : Scope) (shells : List Shell) (now : UnixSeconds) (row : MemoryRow) :
    (bury scope shells now row).id = row.id ∧ Steady row (bury scope shells now row) := by
  rcases bury_cases scope shells now row with ⟨-,same⟩ | ⟨-,shell,-,-,buried⟩
  · rw [same]
    exact ⟨rfl,Steady.still row⟩
  · rw [buried]
    refine ⟨rfl,rfl,rfl,rfl,rfl,rfl,?_⟩
    intro alive
    cases alive

theorem rows_bury (scope : Scope) (shells : List Shell) (now : UnixSeconds) (rows : List MemoryRow) :
    RowsEvolve rows (rows.map (bury scope shells now)) :=
  ⟨bury scope shells now,[],by simp,fun row _ => bury_steady scope shells now row,by simp,by simp [UniqueBy]⟩

/-! ### What each move does to the memory rows -/

theorem marked_steady (row : MemoryRow) : row.marked.id = row.id ∧ Steady row row.marked :=
  ⟨rfl,rfl,rfl,rfl,rfl,rfl,fun alive => ⟨alive,rfl⟩⟩

/-- The primary key of a derivation. -/
def derivationKey (row : DerivationRow) : MemoryId × MemoryId := (row.memoryId,row.parentId)

theorem insertDerivations_unique {rows : List DerivationRow} {db next : Database}
    (executed : rows.foldlM insertDerivation db = .ok next) (unique : UniqueBy derivationKey db.derivations) :
    UniqueBy derivationKey next.derivations := by
  refine foldlM_invariant (fun db : Database => UniqueBy derivationKey db.derivations) ?_ unique executed
  intro row _ before after held inserted
  obtain ⟨derivations,added,kept⟩ := bind_ok_iff.mp inserted
  obtain ⟨free,rfl⟩ := insertRow_ok.mp added
  obtain rfl := Except.ok.inj kept
  exact held.insert free

theorem insert_ok {fingerprint : Memory → String} {maxBodyBytes : Nat} {memory : Memory} {provenance : Provenance}
    {db next : Database} (executed : MemoryRepo.insert fingerprint maxBodyBytes memory provenance db = .ok next) :
    (∀ other ∈ db.memories, other.id ≠ memory.id) ∧
      (∀ other ∈ db.memories, clashes (memoryRow fingerprint memory) other = false) ∧
      (UniqueBy derivationKey db.derivations → UniqueBy derivationKey next.derivations) ∧
      next = { db with
        memories := db.memories ++ [memoryRow fingerprint memory]
        derivations := db.derivations ++ derivationRows memory } := by
  unfold MemoryRepo.insert at executed
  split_ifs at executed
  obtain ⟨mid,inserted,derived⟩ := bind_ok_iff.mp executed
  obtain ⟨memories,added,guarded⟩ := bind_ok_iff.mp inserted
  obtain ⟨free,rfl⟩ := insertRow_ok.mp added
  split_ifs at guarded with clash
  obtain rfl := Except.ok.inj guarded
  refine ⟨free,?_,fun unique => insertDerivations_unique derived unique,Store.insertDerivations_ok derived⟩
  intro other member
  by_contra clashing
  exact clash (List.any_eq_true.mpr ⟨other,member,Bool.of_not_eq_false clashing⟩)

theorem supersede_ok {scope : Scope} {old new : MemoryId} {expected : Memory} {at' : UnixSeconds} {db next : Database}
    (executed : MemoryRepo.supersede scope old new expected at' db = .ok next) :
    old ≠ new ∧
      (∀ row ∈ db.memories, ofScope scope old row = true →
        row.record = expected ∧ row.live = true ∧ reaches db scope new old = false) ∧
      next = { db with
        memories := updateWhere (ofScope scope old)
          (fun row => { row with
            status := .superseded
            supersededBy := some new
            record := { expected with status := .superseded new, updated := at' }
            updated := secondsToSql at' }) db.memories } := by
  unfold MemoryRepo.supersede at executed
  split_ifs at executed with same
  obtain ⟨passed,rfl⟩ := Store.guarded_ok executed
  refine ⟨same,?_,rfl⟩
  intro row member chosen
  have guard := passed row member chosen
  simp only [Bool.and_eq_true,beq_iff_eq,Bool.not_eq_true'] at guard
  exact ⟨guard.1.1,guard.1.2,guard.2⟩

theorem merge_ok {scope : Scope} {id : MemoryId} {expected again : Memory} {db next : Database}
    (executed : MemoryRepo.merge scope id expected again db = .ok next) :
    (∀ row ∈ db.memories, ofScope scope id row = true → row.record = expected ∧ row.live = true) ∧
      next = { db with
        memories := updateWhere (ofScope scope id)
          (fun row => { row with
            record := mergeInto expected again
            updated := secondsToSql (mergeInto expected again).updated }) db.memories } := by
  obtain ⟨passed,rfl⟩ := Store.guarded_ok executed
  refine ⟨?_,rfl⟩
  intro row member chosen
  simpa [Bool.and_eq_true,beq_iff_eq] using passed row member chosen

/-- What a capture stages. -/
theorem Settling.mem_moves {settling : Settling} {move : Move} (member : move ∈ settling.moves) :
    (∃ maxBodyBytes memory provenance, move = .insert maxBodyBytes memory provenance) ∨
      (∃ scope id provenance, move = .source scope id provenance) ∨
      ∃ scope id expected again, move = .merge scope id expected again := by
  cases settling with
  | inserted maxBodyBytes memory =>
    simp only [Settling.moves,List.mem_cons,List.not_mem_nil,or_false] at member
    rcases member with rfl | rfl
    · exact .inl ⟨_,_,_,rfl⟩
    · exact .inr (.inl ⟨_,_,_,rfl⟩)
  | merged scope id expected again =>
    simp only [Settling.moves,List.mem_cons,List.not_mem_nil,or_false] at member
    rcases member with rfl | rfl
    · exact .inr (.inr ⟨_,_,_,_,rfl⟩)
    · exact .inr (.inl ⟨_,_,_,rfl⟩)

/-! ### What a move that commits has done -/

section
variable {fingerprint : Memory → String} {now next : Holdings}

theorem insert_applied {maxBodyBytes : Nat} {memory : Memory} {provenance : Provenance}
    (applied : (system fingerprint).apply now (.insert maxBodyBytes memory provenance) = .ok next) :
    (∀ other ∈ now.db.memories, other.id ≠ memory.id) ∧
      (∀ other ∈ now.db.memories, clashes (memoryRow fingerprint memory) other = false) ∧
      (UniqueBy derivationKey now.db.derivations → UniqueBy derivationKey next.db.derivations) ∧
      next = { now with
        db := { now.db with
          memories := now.db.memories ++ [memoryRow fingerprint memory]
          derivations := now.db.derivations ++ derivationRows memory }
        counters := adjust now.counters (memory.scope,memory.kind,label memory.status) 1 } := by
  obtain ⟨db,inserted,rest⟩ := bind_ok_iff.mp applied
  obtain ⟨free,apart,unique,rfl⟩ := insert_ok inserted
  cases rest
  exact ⟨free,apart,unique,rfl⟩

theorem merge_applied {scope : Scope} {id : MemoryId} {expected again : Memory}
    (applied : (system fingerprint).apply now (.merge scope id expected again) = .ok next) :
    (∀ row ∈ now.db.memories, ofScope scope id row = true → row.record = expected ∧ row.live = true) ∧
      next = { now with
        db := { now.db with
          memories := updateWhere (ofScope scope id)
            (fun row => { row with
              record := mergeInto expected again
              updated := secondsToSql (mergeInto expected again).updated }) now.db.memories } } := by
  obtain ⟨db,merged,rest⟩ := bind_ok_iff.mp applied
  obtain ⟨guard,rfl⟩ := merge_ok merged
  cases rest
  exact ⟨guard,rfl⟩

theorem supersede_applied {scope : Scope} {old new : MemoryId} {expected : Memory} {at' : UnixSeconds}
    (applied : (system fingerprint).apply now (.supersede scope old new expected at') = .ok next) :
    (∀ row ∈ now.db.memories, ofScope scope old row = true →
        row.record = expected ∧ row.live = true ∧ reaches now.db scope new old = false) ∧
      next = { now with
        db := { now.db with
          memories := updateWhere (ofScope scope old)
            (fun row => { row with
              status := .superseded
              supersededBy := some new
              record := { expected with status := .superseded new, updated := at' }
              updated := secondsToSql at' }) now.db.memories }
        counters := adjust (adjust now.counters (scope,expected.kind,label expected.status) (-1))
          (scope,expected.kind,.superseded) 1 } := by
  obtain ⟨db,superseded,rest⟩ := bind_ok_iff.mp applied
  obtain ⟨-,guard,rfl⟩ := supersede_ok superseded
  cases rest
  exact ⟨guard,rfl⟩

/-- An erasure found its memory live; some rows are buried, and some of the others are
    marked. -/
theorem erase_applied {prepared : PreparedErasure} (applied : (system fingerprint).apply now (.erase prepared) = .ok next) :
    (∃ row ∈ now.db.memories, ofScope prepared.scope prepared.target row = true ∧ row.live = true) ∧
      next.db.derivations = (stageSweep prepared.scope prepared.shells now.db).derivations ∧
      next.db.memories = updateWhere
        (fun row => row.scope == prepared.scope && !row.originErased && row.live &&
          derives (stageSweep prepared.scope prepared.shells now.db) prepared.scope prepared.target row.id)
        MemoryRow.marked (now.db.memories.map (bury prepared.scope prepared.shells prepared.now)) ∧
      next.counters = eraseCounters now.db prepared.scope prepared.shells now.counters ∧
      next.captures = sweepCaptures prepared.scope prepared.shells now.captures := by
  obtain ⟨db,erased,rest⟩ := bind_ok_iff.mp applied
  obtain ⟨alive,changed,-⟩ := commitErase_ok erased
  cases rest
  refine ⟨alive,?_,?_,rfl,rfl⟩
  · rw [changed,eraseRows_eq]
  · rw [changed,eraseRows_eq]

theorem startScope_applied {scope : Scope} {decisionId : String}
    (applied : (system fingerprint).apply now (.startScope scope decisionId) = .ok next) :
    ∃ receipts, next = { now with db := { now.db with receipts := receipts } } := by
  obtain ⟨db,started,rest⟩ := bind_ok_iff.mp applied
  obtain ⟨-,rfl⟩ := startScope_ok started
  cases rest
  exact ⟨_,rfl⟩

theorem drain_applied {scope : Scope} {operation : String} {shells : List Shell} {at' : UnixSeconds}
    (applied : (system fingerprint).apply now (.drain scope operation shells at') = .ok next) :
    next.db.derivations = (stageSweep scope shells now.db).derivations ∧
      next.db.memories = now.db.memories.map (bury scope shells at') ∧
      next.counters = eraseCounters now.db scope shells now.counters ∧
      next.captures = sweepCaptures scope shells now.captures := by
  obtain ⟨⟨db,last⟩,drained,rest⟩ := bind_ok_iff.mp applied
  obtain ⟨rfl,-⟩ := drain_ok drained
  cases rest
  rw [drainRows_eq]
  exact ⟨rfl,rfl,rfl,rfl⟩

/-- A capture settles in one move and then logs its source. -/
theorem sourced_applied {first : Move} {scope : Scope} {id : MemoryId} {provenance : Provenance}
    (executed : [first,.source scope id provenance].foldlM (apply fingerprint) now = .ok next) :
    ∃ mid, (system fingerprint).apply now first = .ok mid ∧
      next = { mid with captures := mid.captures ++ [sourceRow mid.captures scope id provenance] } := by
  obtain ⟨mid,settled,rest⟩ := bind_ok_iff.mp executed
  obtain ⟨last,sourced,same⟩ := bind_ok_iff.mp rest
  cases sourced
  cases same
  exact ⟨mid,settled,rfl⟩

/-- A correction is a capture and then a supersession. -/
theorem correct_applied {settling : Settling} {supersession : Supersession}
    (committed : (system fingerprint).commit now (.correct settling supersession) = .ok next) :
    ∃ mid, settling.moves.foldlM (apply fingerprint) now = .ok mid ∧
      (system fingerprint).apply mid supersession.move = .ok next := by
  have parts : (settling.moves ++ [supersession.move]).foldlM (apply fingerprint) now = .ok next := committed
  rw [List.foldlM_append] at parts
  obtain ⟨mid,captured,rest⟩ := bind_ok_iff.mp parts
  obtain ⟨last,superseded,same⟩ := bind_ok_iff.mp rest
  cases same
  exact ⟨mid,captured,superseded⟩

end

/-! ### What a call knew -/

/-- A row as some state of the history had it. -/
def Seen (history : List Holdings) (row : MemoryRow) : Prop := ∃ seen ∈ history, row ∈ seen.db.memories

/-- A shell read from a row. -/
def ShellSeen (history : List Holdings) (scope : Scope) (shell : Shell) : Prop :=
  ∃ row, Seen history row ∧ ofScope scope shell.id row = true ∧ shell = Shell.of row

/-- What the call that staged a move had read for it. -/
def Fit (fingerprint : Memory → String) (history : List Holdings) : Move → Prop
  | .insert _ memory _ => Fresh memory
  | .merge scope id expected again =>
    scope = again.scope ∧ (∃ row, Seen history row ∧ ofScope scope id row = true ∧ row.record = expected) ∧
      ∃ row, Seen history row ∧ ofScope scope id row = true ∧ row.live = true ∧ row.fingerprint = fingerprint again
  | .supersede scope old _ expected _ => ∃ row, Seen history row ∧ ofScope scope old row = true ∧ row.record = expected
  | .expire scope ids kinds _ =>
    (∃ first second, ReadInOrder history first second ∧ kinds = kindsOf second scope ids ∧
      ∀ id ∈ ids, ∃ row ∈ first.memories, ofScope scope id row = true) ∧
      ∃ before : Holdings, { before with counters := materialize scope kinds before.counters } ∈ history
  | .erase prepared =>
    (∃ root derived, prepared.shells = root :: derived ∧ root.id = prepared.target ∧
      (derived.map Shell.id).Sublist prepared.cascaded) ∧
      (∃ seen ∈ history, prepared.cascaded =
        if prepared.cascade then derivedOf seen.db prepared.scope prepared.target else []) ∧
      ∀ shell ∈ prepared.shells, ShellSeen history prepared.scope shell
  | .drain scope _ shells _ => ∃ seen ∈ history, ∃ batch, shells = batchShells seen.db scope batch
  | _ => True

theorem get_some {db : Database} {scope : Scope} {id : MemoryId} {memory : Memory} (found : get db scope id = some memory) :
    ∃ row ∈ db.memories, ofScope scope id row = true ∧ row.record = memory := by
  obtain ⟨row,is,rfl⟩ := Option.map_eq_some_iff.mp found
  exact ⟨row,List.mem_of_find?_eq_some is,List.find?_some is,rfl⟩

theorem fingerprintHolder_some {db : Database} {scope : Scope} {digest : String} {id : MemoryId}
    (found : fingerprintHolder db scope digest = some id) :
    ∃ row ∈ db.memories, ofScope scope id row = true ∧ row.live = true ∧ row.fingerprint = digest := by
  obtain ⟨row,is,rfl⟩ := Option.map_eq_some_iff.mp found
  have chosen := List.find?_some is
  simp only [Bool.and_eq_true,beq_iff_eq] at chosen
  exact ⟨row,List.mem_of_find?_eq_some is,by simp [ofScope,chosen.1.1],chosen.2,chosen.1.2⟩

theorem shell_seen {history : List Holdings} {db : Database} (read : Read history db) {scope : Scope} {id : MemoryId}
    {found : Shell} (is : shell db scope id = some found) : found.id = id ∧ ShellSeen history scope found := by
  obtain ⟨seen,inside,rfl⟩ := read
  obtain ⟨row,located,rfl⟩ := Option.map_eq_some_iff.mp is
  have chosen := List.find?_some located
  simp only [ofScope,Bool.and_eq_true,beq_iff_eq] at chosen
  refine ⟨chosen.1.2,row,⟨seen,inside,List.mem_of_find?_eq_some located⟩,?_,rfl⟩
  simp [ofScope,Shell.of,chosen.1.1]

section
variable {fingerprint : Memory → String} {history : List Holdings}

theorem capture_fits {leader replica : Database} {maxBodyBytes : Nat} {memory : Memory} {settling : Settling}
    (admitted : Admitted memory) (atLeader : Read history leader) (atReplica : Read history replica)
    (staged : capture fingerprint leader replica maxBodyBytes memory = .ok settling) :
    ∀ move ∈ settling.moves, Fit fingerprint history move := by
  unfold capture at staged
  split at staged
  · cases staged
    intro move member
    simp only [Settling.moves,List.mem_cons,List.not_mem_nil,or_false] at member
    rcases member with rfl | rfl
    · exact admitted.fresh
    · exact trivial
  · next id holds =>
    split at staged
    · cases staged
    · next existing found =>
      split_ifs at staged
      cases staged
      intro move member
      simp only [Settling.moves,List.mem_cons,List.not_mem_nil,or_false] at member
      rcases member with rfl | rfl
      · obtain ⟨seen,inside,rfl⟩ := atReplica
        obtain ⟨first,earlier,rfl⟩ := atLeader
        obtain ⟨row,rowIn,here,record⟩ := get_some found
        obtain ⟨holder,holderIn,there,alive,same⟩ := fingerprintHolder_some holds
        exact ⟨rfl,⟨row,⟨seen,inside,rowIn⟩,here,record⟩,holder,⟨first,earlier,holderIn⟩,there,alive,same⟩
      · exact trivial

theorem supersede_fits {reads : Nat → Database} {replica : Database} {scope : Scope} {old new : MemoryId}
    {at' : UnixSeconds} {supersession : Supersession} (atReplica : Read history replica)
    (staged : supersede reads replica scope old new at' = .ok supersession) :
    Fit fingerprint history supersession.move := by
  unfold supersede at staged
  split_ifs at staged
  obtain ⟨_,-,rest⟩ := bind_ok_iff.mp staged
  split at rest
  · cases rest
  · next memory found =>
    split_ifs at rest
    cases rest
    obtain ⟨seen,inside,rfl⟩ := atReplica
    obtain ⟨row,rowIn,here,record⟩ := get_some found
    exact ⟨row,⟨seen,inside,rowIn⟩,here,record⟩

/-- The shells of the children are in the order of the children, some left out. -/
theorem shells_sublist {reads : Nat → Database} (read : ∀ read, Read history (reads read)) (scope : Scope)
    (children : List MemoryId) (start : Nat) :
    (((children.zipIdx start).filterMap (fun child => shell (reads (3 + child.2)) scope child.1)).map Shell.id).Sublist
      children := by
  induction children generalizing start with
  | nil => exact List.Sublist.refl _
  | cons child rest ih =>
    rw [List.zipIdx_cons,List.filterMap_cons]
    split
    · exact (ih _).cons _
    · next found located =>
      rw [List.map_cons,(shell_seen (read _) located).1]
      exact (ih _).cons_cons _

theorem prepareErase_target {reads : Nat → Database} {scope : Scope} {id : MemoryId} {cascade : Bool} {now : UnixSeconds}
    {prepared : PreparedErasure} (staged : prepareErase reads scope id cascade now = .ok prepared) :
    prepared.scope = scope ∧ prepared.target = id := by
  unfold prepareErase at staged
  split at staged
  · cases staged
  split at staged
  · cases staged
  · cases staged
    exact ⟨rfl,rfl⟩

theorem prepareErase_fits {reads : Nat → Database} {scope : Scope} {id : MemoryId} {cascade : Bool} {now : UnixSeconds}
    {prepared : PreparedErasure} (read : ∀ read, Read history (reads read))
    (staged : prepareErase reads scope id cascade now = .ok prepared) : Fit fingerprint history (.erase prepared) := by
  unfold prepareErase at staged
  split at staged
  · cases staged
  split at staged
  · cases staged
  · next root is =>
    cases staged
    obtain ⟨rootId,rootSeen⟩ := shell_seen (read 1) is
    have derivedSeen : ∀ children : List (MemoryId × Nat), ∀ found ∈ children.filterMap
        (fun child => shell (reads (3 + child.2)) scope child.1), ShellSeen history scope found := by
      intro children found member
      obtain ⟨child,-,located⟩ := List.mem_filterMap.mp member
      exact (shell_seen (read _) located).2
    refine ⟨⟨root,_,rfl,rootId,?_⟩,?_,?_⟩
    · exact shells_sublist read scope _ 0
    · obtain ⟨seen,inside,same⟩ := read 2
      rw [← same]
      exact ⟨seen,inside,rfl⟩
    · intro found member
      rcases List.mem_cons.mp member with rfl | derived
      · exact rootSeen
      · exact derivedSeen _ found derived

/-- Whatever a call read, its moves fit what it read. -/
theorem fits : (system fingerprint).Fits (Fit fingerprint) := by
  intro history txn staged
  cases staged with
  | insert maxBodyBytes provenance admitted =>
    intro move member
    obtain rfl := List.mem_singleton.mp member
    exact admitted.fresh
  | capture maxBodyBytes admitted atLeader atReplica staged => exact capture_fits admitted atLeader atReplica staged
  | supersede walked atReplica staged =>
    intro move member
    obtain rfl := List.mem_singleton.mp member
    exact supersede_fits atReplica staged
  | correct maxBodyBytes admitted atLeader atReplica walked atLater staged =>
    unfold correct at staged
    split_ifs at staged
    obtain ⟨settling,captured,rest⟩ := bind_ok_iff.mp staged
    obtain ⟨supersession,superseded,same⟩ := bind_ok_iff.mp rest
    cases same
    intro move member
    rcases List.mem_append.mp member with first | last
    · exact capture_fits admitted atLeader atReplica captured move first
    · obtain rfl := List.mem_singleton.mp last
      exact supersede_fits atLater superseded
  | expire bounded reads read prepared =>
    intro move member
    obtain rfl := List.mem_singleton.mp member
    refine ⟨⟨_,_,reads,rfl,?_⟩,_,prepared⟩
    intro id claimed
    rw [read] at claimed
    obtain ⟨row,chosen,rfl⟩ := List.mem_map.mp (List.mem_of_mem_take claimed)
    have kept := (List.mem_insertionSort _).mp (List.mem_of_mem_take chosen)
    obtain ⟨inside,active⟩ := List.mem_filter.mp kept
    simp only [Bool.and_eq_true,beq_iff_eq] at active
    exact ⟨row,inside,by simp [ofScope,active.1.1]⟩
  | erase read staged =>
    intro move member
    obtain rfl := List.mem_singleton.mp member
    exact prepareErase_fits read staged
  | drain operation now bounded atBatch =>
    intro move member
    obtain rfl := List.mem_singleton.mp member
    obtain ⟨seen,inside,rfl⟩ := atBatch
    exact ⟨seen,inside,_,rfl⟩
  | setValidUntil => exact fun move member => List.mem_singleton.mp member ▸ trivial
  | prepareExpiry => exact fun move member => List.mem_singleton.mp member ▸ trivial
  | startScope => exact fun move member => List.mem_singleton.mp member ▸ trivial
  | deliver => exact fun move member => List.mem_singleton.mp member ▸ trivial

end

/-! ### What every move keeps -/

/-- No counter row goes away. -/
def Counted (before after : Counters) : Prop := ∀ bucket, (before bucket).isSome = true → (after bucket).isSome = true

theorem Counted.trans {first second third : Counters} (one : Counted first second) (two : Counted second third) :
    Counted first third := fun bucket there => two bucket (one bucket there)

theorem counted_update (counters : Counters) (bucket : Bucket) (count : Int) :
    Counted counters (Function.update counters bucket (some count)) := by
  intro other there
  by_cases same : other = bucket
  · simp [same]
  · simpa [same] using there

theorem counted_shift (counters : Counters) (bucket : Bucket) (delta : Int) :
    Counted counters (shift counters bucket delta) :=
  counted_update counters bucket _

theorem counted_updateCounter (counters : Counters) (bucket : Bucket) (change : Int → Int) :
    Counted counters (updateCounter counters bucket change) := by
  intro other there
  by_cases same : other = bucket
  · subst same
    simpa [updateCounter] using there
  · simpa [updateCounter,same] using there

theorem counted_foldl {α : Type} {step : Counters → α → Counters} (each : ∀ counters item, Counted counters (step counters item))
    (items : List α) (counters : Counters) : Counted counters (items.foldl step counters) := by
  induction items generalizing counters with
  | nil => exact fun _ there => there
  | cons item rest ih => exact (each counters item).trans (ih _)

theorem counted_eraseCounters (db : Database) (scope : Scope) (shells : List Shell) (counters : Counters) :
    Counted counters (eraseCounters db scope shells counters) := by
  refine counted_foldl (fun counters shell => ?_) shells counters
  exact (counted_foldl (fun counters (row : MemoryRow) => counted_shift counters (bucketOf row) (-1)) _ _).trans
    (counted_foldl (fun counters (row : MemoryRow) => counted_shift counters (row.scope,row.kind,.erased) 1) _ _)

theorem counted_expireCounters (db : Database) (scope : Scope) (ids : List MemoryId) (kinds : List MemoryKind)
    (counters : Counters) : Counted counters (expireCounters db scope ids kinds counters) := by
  refine counted_foldl (fun counters kind => ?_) kinds counters
  exact (counted_updateCounter _ _ _).trans (counted_updateCounter _ _ _)

theorem counted_materialize (scope : Scope) (kinds : List MemoryKind) (counters : Counters) :
    Counted counters (materialize scope kinds counters) := by
  refine counted_foldl (fun counters kind => ?_) kinds counters
  exact (counted_update counters (scope,kind,.expired) _).trans (counted_update _ (scope,kind,.active) _)

/-- What an earlier state has to do with a later one. -/
structure Since (seen now : Holdings) : Prop where
  rows : RowsEvolve seen.db.memories now.db.memories
  counted : Counted seen.counters now.counters
  -- a derivation goes only with its memory
  edges : ∀ edge ∈ seen.db.derivations, edge ∈ now.db.derivations ∨
    ∃ row ∈ now.db.memories, row.id = edge.memoryId ∧ row.live = false

theorem Since.still (state : Holdings) : Since state state :=
  ⟨Evolves.refl Steady.still _,fun _ there => there,fun _ there => .inl there⟩

theorem Since.onward (first second third : Holdings) (one : Since first second) (two : Since second third) :
    Since first third := by
  refine ⟨Evolves.trans Steady.onward one.rows two.rows,one.counted.trans two.counted,?_⟩
  intro edge member
  rcases one.edges edge member with kept | ⟨row,inside,named,dead⟩
  · exact two.edges edge kept
  · obtain ⟨later,there,same,steady⟩ := two.rows.stays inside
    refine .inr ⟨later,there,same.trans named,?_⟩
    by_contra alive
    have before := (steady.content (Bool.of_not_eq_false alive)).1
    rw [dead] at before
    cases before

/-- The primary keys of the memories and of the derivations hold. -/
structure Tidy (store : Holdings) : Prop where
  unique : UniqueBy MemoryRow.id store.db.memories
  derived : UniqueBy derivationKey store.db.derivations

theorem tidy_of {now next : Holdings} (tidy : Tidy now) (rows : RowsEvolve now.db.memories next.db.memories)
    (derived : UniqueBy derivationKey next.db.derivations) (counted : Counted now.counters next.counters)
    (edges : ∀ edge ∈ now.db.derivations, edge ∈ next.db.derivations ∨
      ∃ row ∈ next.db.memories, row.id = edge.memoryId ∧ row.live = false) :
    Tidy next ∧ Since now next :=
  ⟨⟨rows.unique tidy.unique,derived⟩,rows,counted,edges⟩

/-- A row that was read is there, as steady as rows are. -/
theorem Seen.stays {Inv : Holdings → Prop} {history : List Holdings} {now : Holdings}
    (trail : System.Trail Inv Since history now) {old : MemoryRow} (seen : Seen history old) :
    ∃ row ∈ now.db.memories, row.id = old.id ∧ Steady old row := by
  obtain ⟨state,inside,member⟩ := seen
  exact (trail.since state inside).rows.stays member

theorem batchShells_seen {history : List Holdings} {db : Database} {scope : Scope} {batch : Nat} (read : Read history db) :
    ∀ shell ∈ batchShells db scope batch, ShellSeen history scope shell := by
  intro shell member
  obtain ⟨seen,inside,rfl⟩ := read
  obtain ⟨row,chosen,rfl⟩ := List.mem_map.mp member
  have kept := (List.mem_insertionSort _).mp (List.mem_of_mem_take chosen)
  obtain ⟨rowIn,live⟩ := List.mem_filter.mp kept
  simp only [Bool.and_eq_true,beq_iff_eq] at live
  exact ⟨row,⟨seen,inside,rowIn⟩,by simp [ofScope,Shell.of,live.1],rfl⟩

/-- The derivations a sweep deletes are of memories it buries. -/
theorem edges_swept {Inv : Holdings → Prop} {history : List Holdings} {now : Holdings}
    (trail : System.Trail Inv Since history now) {scope : Scope} {shells : List Shell} {at' : UnixSeconds}
    (seen : ∀ shell ∈ shells, ShellSeen history scope shell) :
    ∀ edge ∈ now.db.derivations, edge ∈ (stageSweep scope shells now.db).derivations ∨
      ∃ row ∈ now.db.memories.map (bury scope shells at'), row.id = edge.memoryId ∧ row.live = false := by
  intro edge member
  by_cases swept : (edge.scope == scope && shells.any (fun shell => shell.id == edge.memoryId)) = true
  · simp only [Bool.and_eq_true,beq_iff_eq,List.any_eq_true] at swept
    obtain ⟨-,shell,listed,child⟩ := swept
    obtain ⟨old,wasSeen,there,-⟩ := seen shell listed
    obtain ⟨row,inside,same,steady⟩ := wasSeen.stays trail
    obtain ⟨sameId,-,-,lives⟩ := bury_spec scope shells at' row
    simp only [ofScope,Bool.and_eq_true,beq_iff_eq] at there
    have hit : named scope shells row = true := by
      refine named_of_shell listed ?_
      rw [ofScope,steady.scope,there.1,same,there.2]
      simp
    refine .inr ⟨_,List.mem_map_of_mem inside,?_,?_⟩
    · rw [sameId,same,there.2,child]
    · rw [lives,hit]
      simp
  · exact .inl (mem_deleteWhere.mpr ⟨member,Bool.eq_false_iff.mpr swept⟩)

section
variable {fingerprint : Memory → String}

/-- Every move keeps the keys, and every row what a row keeps. -/
theorem tidy_keeps : System.Keeps (system fingerprint) (fun _ _ => True) (Fit fingerprint) Tidy Since := by
  refine ⟨Since.still,Since.onward,⟨by simp [system,Holdings.empty,Database.empty,UniqueBy],
    by simp [system,Holdings.empty,Database.empty,UniqueBy]⟩,?_⟩
  intro history now move next trail tidy fit _ applied
  have same : RowsEvolve now.db.memories now.db.memories := Evolves.refl Steady.still _
  have uncounted : Counted now.counters now.counters := fun _ there => there
  have underived : ∀ edge ∈ now.db.derivations, edge ∈ now.db.derivations ∨
      ∃ row ∈ next.db.memories, row.id = edge.memoryId ∧ row.live = false := fun _ there => .inl there
  cases move with
  | insert maxBodyBytes memory provenance =>
    obtain ⟨free,-,unique,rfl⟩ := insert_applied applied
    exact tidy_of tidy (Evolves.insert Steady.still free) (unique tidy.derived) (counted_update _ _ _)
      fun edge member => .inl (List.mem_append_left _ member)
  | source scope id provenance =>
    cases applied
    exact tidy_of tidy same tidy.derived uncounted underived
  | merge scope id expected again =>
    obtain ⟨-,rfl⟩ := merge_applied applied
    refine tidy_of tidy (rows_update ?_) tidy.derived uncounted underived
    exact fun row _ _ => ⟨rfl,rfl,rfl,rfl,rfl,rfl,fun alive => ⟨alive,rfl⟩⟩
  | supersede scope old new expected at' =>
    obtain ⟨guard,rfl⟩ := supersede_applied applied
    refine tidy_of tidy (rows_update ?_) tidy.derived ((counted_update _ _ _).trans (counted_update _ _ _))
      underived
    exact fun row member chosen => ⟨rfl,rfl,rfl,rfl,rfl,rfl,fun _ => ⟨(guard row member chosen).2.1,rfl⟩⟩
  | setValidUntil scope id until' =>
    cases applied
    refine tidy_of tidy (rows_update ?_) tidy.derived uncounted underived
    exact fun row _ _ => ⟨rfl,rfl,rfl,rfl,rfl,rfl,fun alive => ⟨alive,rfl⟩⟩
  | materialize scope kinds =>
    cases applied
    exact tidy_of tidy same tidy.derived (counted_materialize _ _ _) underived
  | expire scope ids kinds at' =>
    cases applied
    refine tidy_of tidy (rows_update ?_) tidy.derived (counted_expireCounters _ _ _ _ _) underived
    intro row _ chosen
    simp only [Bool.and_eq_true,beq_iff_eq] at chosen
    exact ⟨rfl,rfl,rfl,rfl,rfl,rfl,fun _ => ⟨by simp [MemoryRow.live,chosen.1.2],rfl⟩⟩
  | erase prepared =>
    obtain ⟨-,derivations,memories,counters,-⟩ := erase_applied applied
    refine tidy_of tidy ?_ ?_ ?_ ?_
    · rw [memories]
      exact Evolves.trans Steady.onward (rows_bury _ _ _ _) (rows_update fun row _ _ => marked_steady row)
    · rw [derivations]
      exact tidy.derived.delete _
    · rw [counters]
      exact counted_eraseCounters _ _ _ _
    · intro edge member
      rw [derivations,memories]
      rcases @edges_swept Tidy history now trail _ _ prepared.now fit.2.2 edge member with kept | ⟨row,inside,named,dead⟩
      · exact .inl kept
      · refine .inr ⟨row,mem_updateWhere.mpr (.inl ⟨inside,?_⟩),named,dead⟩
        simp [dead]
  | startScope scope decisionId =>
    obtain ⟨receipts,rfl⟩ := startScope_applied applied
    exact tidy_of tidy same tidy.derived uncounted underived
  | drain scope operation shells at' =>
    obtain ⟨derivations,memories,counters,-⟩ := drain_applied applied
    obtain ⟨seen,inside,batch,rfl⟩ := fit
    refine tidy_of tidy ?_ ?_ ?_ ?_
    · rw [memories]
      exact rows_bury _ _ _ _
    · rw [derivations]
      exact tidy.derived.delete _
    · rw [counters]
      exact counted_eraseCounters _ _ _ _
    · intro edge member
      rw [derivations,memories]
      exact edges_swept trail (batchShells_seen ⟨seen,inside,rfl⟩) edge member
  | deliver scope target decisionId =>
    cases applied
    exact tidy_of tidy same tidy.derived uncounted underived

end

/-! ### What was read is still so -/

section
variable {history : List Holdings} {now : Holdings}

theorem Seen.current {Inv : Holdings → Prop} (trail : System.Trail Inv Since history now)
    (unique : UniqueBy MemoryRow.id now.db.memories) {old row : MemoryRow} (seen : Seen history old)
    (member : row ∈ now.db.memories) (same : row.id = old.id) : Steady old row := by
  obtain ⟨found,inside,named,steady⟩ := seen.stays trail
  rwa [unique.eq_of_key member inside (same.trans named.symm)]

theorem ShellSeen.current {Inv : Holdings → Prop} (trail : System.Trail Inv Since history now)
    (unique : UniqueBy MemoryRow.id now.db.memories) {scope : Scope} {shell : Shell} (seen : ShellSeen history scope shell)
    {row : MemoryRow} (member : row ∈ now.db.memories) (here : ofScope scope shell.id row = true) :
    row.kind = shell.kind ∧ row.created = shell.created := by
  obtain ⟨old,wasSeen,there,is⟩ := seen
  simp only [ofScope,Bool.and_eq_true,beq_iff_eq] at here there
  have steady := wasSeen.current trail unique member (here.2.trans there.2.symm)
  rw [is]
  exact ⟨steady.kind,steady.created⟩

/-- An edge that was read is there as long as its memory lives. -/
theorem derives_still {Inv : Holdings → Prop} (trail : System.Trail Inv Since history now)
    (unique : UniqueBy MemoryRow.id now.db.memories) {seen : Holdings} (inside : seen ∈ history) {scope : Scope}
    {parent : MemoryId} {row : MemoryRow} (member : row ∈ now.db.memories) (alive : row.live = true)
    (derived : derives seen.db scope parent row.id = true) : derives now.db scope parent row.id = true := by
  obtain ⟨edge,edgeIn,chosen⟩ := List.any_eq_true.mp derived
  have child := chosen
  simp only [Bool.and_eq_true,beq_iff_eq] at child
  rcases (trail.since seen inside).edges edge edgeIn with kept | ⟨other,otherIn,same,dead⟩
  · exact List.any_eq_true.mpr ⟨edge,kept,chosen⟩
  · rw [unique.eq_of_key otherIn member (same.trans child.2),alive] at dead
    cases dead

end

/-! ### A sample run -/

namespace Sample
open Claims.Sample Memories.Sample Store.Sample

def secondId : MemoryId := secondMemoryId

/-- A note as an authenticated caller offers it. -/
def offered (id : MemoryId) (text : String) (trust : TrustClass) (parents : List MemoryId) (uses : Nat) : Candidate where
  parts := { parts ⟨text,none,[]⟩ with
    id := id
    trust := trust
    provenance := { provenance with derivedFrom := parents }
    importance := ⟨0x3F000000,10,uses⟩ }
  origin := .authenticated

/-- The note as the gate admits it. -/
def noted (id : MemoryId) (text : String) (trust : TrustClass) (parents : List MemoryId) (uses : Nat) : Memory :=
  normalized CaptureGate.Sample.linked (offered id text trust parents uses)

/-- The gate looks at no more of a note than its text. -/
theorem noted_admitted {text : String}
    (passes : walkCapture CaptureGate.Sample.linked CaptureGate.Sample.rules (offered noteId text .evidence [] 1) = .pass)
    (id : MemoryId) (trust : TrustClass) (parents : List MemoryId) (uses : Nat) :
    Admitted (noted id text trust parents uses) := by
  refine .passed CaptureGate.Sample.linked CaptureGate.Sample.rules (offered id text trust parents uses) ?_
  have same : walkCapture CaptureGate.Sample.linked CaptureGate.Sample.rules (offered id text trust parents uses) =
      walkCapture CaptureGate.Sample.linked CaptureGate.Sample.rules (offered noteId text .evidence [] 1) := rfl
  rw [evaluate,same,passes]
  rfl

theorem aisle_passes :
    walkCapture CaptureGate.Sample.linked CaptureGate.Sample.rules (offered noteId "aisle seat" .evidence [] 1) = .pass := by
  decide +kernel

theorem window_passes :
    walkCapture CaptureGate.Sample.linked CaptureGate.Sample.rules (offered noteId "window seat" .evidence [] 1) = .pass := by
  decide +kernel

/-- The log after a capture that read the latest state. -/
def captured (log : List (Txn × Holdings)) (memory : Memory) : List (Txn × Holdings) :=
  match capture textOf ((system textOf).current log).db ((system textOf).current log).db 64 memory with
  | .ok settling => (system textOf).extend log (.capture settling)
  | .error _ => log

/-- The log after an erasure that read the latest state. -/
def erased (log : List (Txn × Holdings)) (id : MemoryId) (cascade : Bool) : List (Txn × Holdings) :=
  match prepareErase (fun _ => ((system textOf).current log).db) scope id cascade 20 with
  | .ok prepared => (system textOf).extend log (.erase prepared)
  | .error _ => log

theorem read_current (log : List (Txn × Holdings)) :
    Read ((system textOf).states log) ((system textOf).current log).db :=
  ⟨_,(system textOf).current_mem log,rfl⟩

theorem run_captured {Meets : Holdings → Move → Prop} {log : List (Txn × Holdings)} {memory : Memory}
    (run : System.Run (system textOf) Meets log) (admitted : Admitted memory)
    (meet : ∀ settling, capture textOf ((system textOf).current log).db ((system textOf).current log).db 64 memory =
      .ok settling → (system textOf).MeetAll Meets ((system textOf).current log) settling.moves) :
    System.Run (system textOf) Meets (captured log memory) := by
  unfold captured
  split
  · next settling staged =>
    exact run.extend (.capture 64 admitted (read_current log) (read_current log) staged) (meet settling staged)
  · exact run

/-- A capture that nothing is asked of. -/
theorem run_captured_free {log : List (Txn × Holdings)} {memory : Memory}
    (run : System.Run (system textOf) (fun _ _ => True) log) (admitted : Admitted memory) :
    System.Run (system textOf) (fun _ _ => True) (captured log memory) :=
  run_captured run admitted fun _ _ => System.meetAll_of_forall (fun _ _ _ => trivial) _

theorem run_erased {Meets : Holdings → Move → Prop} {log : List (Txn × Holdings)} {id : MemoryId} {cascade : Bool}
    (run : System.Run (system textOf) Meets log)
    (meet : ∀ prepared, prepareErase (fun _ => ((system textOf).current log).db) scope id cascade 20 = .ok prepared →
      Meets ((system textOf).current log) (.erase prepared)) :
    System.Run (system textOf) Meets (erased log id cascade) := by
  unfold erased
  split
  · next prepared staged => exact run.extend (.erase (fun _ => read_current log) staged) ⟨meet prepared staged,fun _ _ => trivial⟩
  · exact run

end Sample

end Aicortex.Lifecycle
