import Aicortex.LifecycleFacts

/-!
Expiry against the deadlines. A pass reads the memories that are due, takes the lease of
the scope and then claims, of the ids it read, those still active. The claim does not
look at the deadline again, so what the rows it turns were due by is the deadline of the
read. It is the deadline of the commit exactly when no later deadline came between.
-/

namespace Aicortex.ExpiryDeadlines
open Aicortex.Text Aicortex.CivilTime Aicortex.Memories Aicortex.Schema Aicortex.MemoryRepo Aicortex.Erasure Aicortex.Lifecycle
open Lib.Tables Lib.Outcome Lib.StaleRuns
open Aicortex.Claims hiding Unit
set_option linter.unusedSimpArgs false

/-! ### Deadlines and what may be said of them -/

/-- The deadline a transaction sets for a memory. -/
def deadlineSet (scope : Scope) (id : MemoryId) : Txn → Option (Option UnixSeconds)
  | .setValidUntil scope' id' until' => if scope' = scope ∧ id' = id then some until' else none
  | _ => none

/-- The last deadline set for a memory in a part of a log. -/
def lastDeadline (scope : Scope) (id : MemoryId) (log : List (Txn × Holdings)) : Option (Option UnixSeconds) :=
  log.findSome? (fun entry => deadlineSet scope id entry.1)

/-- The rows an expiry pass claims. -/
def claims (scope : Scope) (ids : List MemoryId) (row : MemoryRow) : Bool :=
  row.scope == scope && row.status == .active && ids.contains row.id

section
variable (fingerprint : Memory → String)

/-- A row turns expired only in an expiry, and by a deadline it has as the expiry commits. -/
def RespectsDeadlines (log : List (Txn × Holdings)) : Prop :=
  ∀ newer txn next older, log = newer ++ (txn,next) :: older →
    ∀ old ∈ ((system fingerprint).current older).db.memories, ∀ row ∈ next.db.memories, row.id = old.id →
      old.status ≠ .expired → row.status = .expired →
        ∃ scope ids kinds now deadline, txn = .expire scope ids kinds now ∧ row.validUntil = some deadline ∧ deadline ≤ now

/-- Between the read of a batch and its commit no memory the commit still claims was
    last given a deadline past the time of the pass, or none. -/
def Undisturbed (older : List (Txn × Holdings)) : Txn → Prop
  | .expire scope ids _ now =>
    ∀ recent earlier, older = recent ++ earlier →
      (∃ batch, ids = (due ((system fingerprint).current earlier).db scope now batch).take batch) →
      ∀ row ∈ ((system fingerprint).current older).db.memories, claims scope ids row = true →
        ∀ until', lastDeadline scope row.id recent = some until' → ∃ deadline, until' = some deadline ∧ secondsToSql deadline ≤ now
  | _ => True

end

/-! ### What a transaction does to the deadlines -/

/-- A change that is neither of a deadline nor an expiry. -/
structure Plain (old new : MemoryRow) : Prop where
  scope : new.scope = old.scope
  active : new.status = .active → old.status = .active ∧ new.validUntil = old.validUntil
  expired : new.status = .expired → old.status = .expired

theorem Plain.still (row : MemoryRow) : Plain row row := ⟨rfl,fun active => ⟨active,rfl⟩,id⟩

theorem Plain.onward (first second third : MemoryRow) (one : Plain first second) (two : Plain second third) :
    Plain first third := by
  refine ⟨two.scope.trans one.scope,?_,fun expired => one.expired (two.expired expired)⟩
  intro active
  obtain ⟨wasActive,same⟩ := two.active active
  obtain ⟨before,earlier⟩ := one.active wasActive
  exact ⟨before,same.trans earlier⟩

abbrev PlainRows (before after : Holdings) : Prop := Evolves MemoryRow.id Plain before.db.memories after.db.memories

theorem bury_plain (scope : Scope) (shells : List Shell) (now : UnixSeconds) (row : MemoryRow) :
    Plain row (bury scope shells now row) := by
  rcases bury_cases scope shells now row with ⟨-,same⟩ | ⟨-,shell,-,-,buried⟩
  · rw [same]
    exact Plain.still row
  · rw [buried]
    exact ⟨rfl,nofun,nofun⟩

theorem bury_rows (scope : Scope) (shells : List Shell) (now : UnixSeconds) (rows : List MemoryRow) :
    Evolves MemoryRow.id Plain rows (rows.map (bury scope shells now)) :=
  ⟨bury scope shells now,[],by simp,fun row _ => ⟨(bury_spec scope shells now row).1,bury_plain scope shells now row⟩,
    by simp,by simp [UniqueBy]⟩

/-- The moves that touch neither a deadline nor an active row's claim to be one. -/
def Ordinary : Move → Prop
  | .setValidUntil .. => False
  | .expire .. => False
  | _ => True

section
variable {fingerprint : Memory → String} {now next : Holdings}

theorem ordinary_applied {move : Move} (ordinary : Ordinary move)
    (applied : (system fingerprint).apply now move = .ok next) : PlainRows now next := by
  have same : PlainRows now now := Evolves.refl Plain.still _
  cases move with
  | insert maxBodyBytes memory provenance =>
    obtain ⟨free,-,-,rfl⟩ := insert_applied applied
    exact Evolves.insert Plain.still free
  | source scope id provenance =>
    cases applied
    exact same
  | merge scope id expected again =>
    obtain ⟨-,rfl⟩ := merge_applied applied
    exact Evolves.update Plain.still _ fun row _ _ => ⟨rfl,rfl,fun active => ⟨active,rfl⟩,fun expired => expired⟩
  | supersede scope old new expected at' =>
    obtain ⟨-,rfl⟩ := supersede_applied applied
    exact Evolves.update Plain.still _ fun row _ _ => ⟨rfl,rfl,nofun,nofun⟩
  | setValidUntil scope id until' => exact ordinary.elim
  | materialize scope kinds =>
    cases applied
    exact same
  | expire scope ids kinds at' => exact ordinary.elim
  | erase prepared =>
    obtain ⟨-,-,memories,-,-⟩ := erase_applied applied
    unfold PlainRows
    rw [memories]
    refine Evolves.trans Plain.onward (bury_rows _ _ _ _) (Evolves.update Plain.still _ fun row _ _ => ?_)
    exact ⟨rfl,rfl,fun active => ⟨active,rfl⟩,id⟩
  | startScope scope decisionId =>
    obtain ⟨receipts,rfl⟩ := startScope_applied applied
    exact same
  | drain scope operation shells at' =>
    obtain ⟨-,memories,-,-⟩ := drain_applied applied
    unfold PlainRows
    rw [memories]
    exact bury_rows _ _ _ _
  | deliver scope target decisionId =>
    cases applied
    exact same

theorem ordinary_commit {moves : List Move} (ordinary : ∀ move ∈ moves, Ordinary move)
    (executed : moves.foldlM (system fingerprint).apply now = .ok next) : PlainRows now next := by
  refine foldlM_invariant (fun mid => PlainRows now mid) ?_ (Evolves.refl Plain.still _) executed
  intro move member mid after held applied
  exact Evolves.trans Plain.onward held (ordinary_applied (ordinary move member) applied)

theorem settling_ordinary (settling : Settling) : ∀ move ∈ settling.moves, Ordinary move := by
  intro move member
  rcases Settling.mem_moves member with ⟨_,_,_,rfl⟩ | ⟨_,_,_,rfl⟩ | ⟨_,_,_,_,rfl⟩
  all_goals exact trivial

/-- A transaction sets a deadline, expires a batch, or does neither. -/
theorem commit_cases {txn : Txn} (committed : (system fingerprint).commit now txn = .ok next) :
    (∃ scope id until', txn = .setValidUntil scope id until' ∧
        next = { now with db := MemoryRepo.setValidUntil scope id until' now.db }) ∨
      (∃ scope ids kinds at', txn = .expire scope ids kinds at' ∧
        next = { now with
          db := MemoryRepo.expire scope ids at' now.db
          counters := expireCounters now.db scope ids kinds now.counters }) ∨
      ((∀ scope id, deadlineSet scope id txn = none) ∧ (∀ older, Undisturbed fingerprint older txn) ∧ PlainRows now next) := by
  have plain : ∀ {move : Move}, (system fingerprint).moves txn = [move] → Ordinary move → PlainRows now next :=
    fun only ordinary => ordinary_applied ordinary (System.commit_single only committed)
  cases txn with
  | setValidUntil scope id until' =>
    have applied := System.commit_single rfl committed
    cases applied
    exact .inl ⟨scope,id,until',rfl,rfl⟩
  | expire scope ids kinds at' =>
    have applied := System.commit_single rfl committed
    cases applied
    exact .inr (.inl ⟨scope,ids,kinds,at',rfl,rfl⟩)
  | insert => exact .inr (.inr ⟨fun _ _ => rfl,fun _ => trivial,plain rfl trivial⟩)
  | capture settling =>
    exact .inr (.inr ⟨fun _ _ => rfl,fun _ => trivial,ordinary_commit (settling_ordinary settling) committed⟩)
  | supersede => exact .inr (.inr ⟨fun _ _ => rfl,fun _ => trivial,plain rfl trivial⟩)
  | correct settling supersession =>
    refine .inr (.inr ⟨fun _ _ => rfl,fun _ => trivial,ordinary_commit ?_ committed⟩)
    intro move member
    rcases List.mem_append.mp member with first | last
    · exact settling_ordinary settling move first
    · rw [List.mem_singleton.mp last]
      exact trivial
  | prepareExpiry => exact .inr (.inr ⟨fun _ _ => rfl,fun _ => trivial,plain rfl trivial⟩)
  | erase => exact .inr (.inr ⟨fun _ _ => rfl,fun _ => trivial,plain rfl trivial⟩)
  | startScope => exact .inr (.inr ⟨fun _ _ => rfl,fun _ => trivial,plain rfl trivial⟩)
  | drain => exact .inr (.inr ⟨fun _ _ => rfl,fun _ => trivial,plain rfl trivial⟩)
  | deliver => exact .inr (.inr ⟨fun _ _ => rfl,fun _ => trivial,plain rfl trivial⟩)

/-- An active row was active before the transaction, or is new; its deadline is the one
    the transaction sets, or the one it had. -/
theorem active_origin {txn : Txn} (committed : (system fingerprint).commit now txn = .ok next) {row : MemoryRow}
    (member : row ∈ next.db.memories) (active : row.status = .active) :
    (∃ old ∈ now.db.memories, old.id = row.id ∧ row.scope = old.scope ∧ old.status = .active ∧
        row.validUntil = (deadlineSet row.scope row.id txn).elim old.validUntil (Option.map secondsToSql)) ∨
      ∀ old ∈ now.db.memories, old.id ≠ row.id := by
  rcases commit_cases committed with ⟨scope,id,until',rfl,rfl⟩ | ⟨scope,ids,kinds,at',rfl,rfl⟩ | ⟨silent,-,plain⟩
  · rcases mem_updateWhere.mp member with ⟨inside,missed⟩ | ⟨old,inside,chosen,rfl⟩
    · refine .inl ⟨row,inside,rfl,rfl,active,?_⟩
      have elsewhere : ¬ (scope = row.scope ∧ id = row.id) := by
        rintro ⟨rfl,rfl⟩
        simp [ofScope,MemoryRow.live,active] at missed
      simp [deadlineSet,elsewhere]
    · refine .inl ⟨old,inside,rfl,rfl,active,?_⟩
      simp only [ofScope,Bool.and_eq_true,beq_iff_eq] at chosen
      simp [deadlineSet,chosen.1.1,chosen.1.2]
  · rcases mem_updateWhere.mp member with ⟨inside,-⟩ | ⟨old,-,-,rfl⟩
    · exact .inl ⟨row,inside,rfl,rfl,active,rfl⟩
    · cases active
  · rcases plain.origin member with ⟨old,inside,same,turned⟩ | fresh
    · obtain ⟨wasActive,kept⟩ := turned.active active
      exact .inl ⟨old,inside,same,turned.scope,wasActive,by rw [silent,kept]; rfl⟩
    · exact .inr fresh

/-- A row turns expired in an expiry that claims it, and keeps its deadline. -/
theorem expired_origin {txn : Txn} (committed : (system fingerprint).commit now txn = .ok next)
    (unique : UniqueBy MemoryRow.id now.db.memories) {old row : MemoryRow} (was : old ∈ now.db.memories)
    (member : row ∈ next.db.memories) (same : row.id = old.id) (before : old.status ≠ .expired)
    (after : row.status = .expired) :
    ∃ scope ids kinds at', txn = .expire scope ids kinds at' ∧ claims scope ids old = true ∧ row.validUntil = old.validUntil := by
  rcases commit_cases committed with ⟨scope,id,until',rfl,rfl⟩ | ⟨scope,ids,kinds,at',rfl,rfl⟩ | ⟨-,-,plain⟩
  · exfalso
    rcases mem_updateWhere.mp member with ⟨inside,-⟩ | ⟨other,inside,-,rfl⟩
    · rw [unique.eq_of_key inside was same] at after
      exact before after
    · rw [unique.eq_of_key inside was same] at after
      exact before after
  · rcases mem_updateWhere.mp member with ⟨inside,-⟩ | ⟨other,inside,chosen,rfl⟩
    · rw [unique.eq_of_key inside was same] at after
      exact absurd after before
    · rw [unique.eq_of_key inside was same] at chosen ⊢
      exact ⟨scope,ids,kinds,at',rfl,chosen,rfl⟩
  · exfalso
    rcases plain.origin member with ⟨other,inside,named,turned⟩ | fresh
    · rw [unique.eq_of_key inside was (named.trans same)] at turned
      exact before (turned.expired after)
    · exact fresh old was same.symm

end

/-! ### Runs -/

section
variable {fingerprint : Memory → String}

theorem current_mem_append (recent earlier : List (Txn × Holdings)) :
    (system fingerprint).current earlier ∈ (system fingerprint).states (recent ++ earlier) := by
  unfold System.states
  rw [List.map_append,List.append_assoc]
  exact List.mem_append_right _ ((system fingerprint).current_mem earlier)

theorem run_unique {log : List (Txn × Holdings)} (run : System.Run (system fingerprint) (fun _ _ => True) log) :
    UniqueBy MemoryRow.id ((system fingerprint).current log).db.memories :=
  (run.holds fits tidy_keeps).unique

/-- Run rule: the deadline of an active row is the last one set since, or the one it had. -/
theorem deadline_since {recent earlier : List (Txn × Holdings)}
    (run : System.Run (system fingerprint) (fun _ _ => True) (recent ++ earlier)) {old row : MemoryRow}
    (was : old ∈ ((system fingerprint).current earlier).db.memories)
    (member : row ∈ ((system fingerprint).current (recent ++ earlier)).db.memories) (same : row.id = old.id)
    (active : row.status = .active) :
    row.scope = old.scope ∧ row.validUntil =
      (lastDeadline old.scope old.id recent).elim old.validUntil (Option.map secondsToSql) := by
  induction recent generalizing row with
  | nil =>
    rw [(run_unique run).eq_of_key member was same]
    exact ⟨rfl,rfl⟩
  | cons entry recent ih =>
    obtain ⟨txn,next⟩ := entry
    cases run with
    | step run staged meet committed =>
      rcases active_origin committed member active with ⟨mid,inside,named,placed,wasActive,deadline⟩ | fresh
      · obtain ⟨midPlaced,midDeadline⟩ := ih run inside (named.trans same) wasActive
        refine ⟨placed.trans midPlaced,?_⟩
        rw [deadline,midDeadline,placed.trans midPlaced,same]
        unfold lastDeadline
        rw [List.findSome?_cons]
        cases deadlineSet old.scope old.id txn with
        | none => rfl
        | some until' => rfl
      · obtain ⟨mid,inside,named,-⟩ :=
          ((run.trail fits tidy_keeps).since _ (current_mem_append recent earlier)).rows.stays was
        exact absurd (named.trans same.symm) (fresh mid inside)

/-- A state that was read is the one some part of the log led to. -/
theorem states_split {log : List (Txn × Holdings)} {later older : List Holdings} {seen : Holdings}
    (history : (system fingerprint).states log = later ++ seen :: older) :
    ∃ recent earlier, log = recent ++ earlier ∧ (system fingerprint).current earlier = seen := by
  induction log generalizing later with
  | nil =>
    cases later with
    | nil => exact ⟨[],[],rfl,(List.cons.inj history).1⟩
    | cons first rest =>
      have short := congrArg List.length history
      simp [System.states] at short
  | cons entry log ih =>
    cases later with
    | nil => exact ⟨[],entry :: log,rfl,(List.cons.inj history).1⟩
    | cons first rest =>
      obtain ⟨recent,earlier,rfl,is⟩ := ih (List.cons.inj history).2
      exact ⟨entry :: recent,earlier,rfl,is⟩

theorem mem_due {db : Database} {scope : Scope} {now : UnixSeconds} {batch : Nat} {id : MemoryId}
    (member : id ∈ (due db scope now batch).take batch) :
    ∃ row ∈ db.memories, row.id = id ∧ row.scope = scope ∧ ∃ deadline, row.validUntil = some deadline ∧ deadline ≤ now := by
  obtain ⟨row,chosen,rfl⟩ := List.mem_map.mp (List.mem_of_mem_take member)
  obtain ⟨inside,isDue⟩ := List.mem_filter.mp ((List.mem_insertionSort _).mp (List.mem_of_mem_take chosen))
  simp only [Bool.and_eq_true,beq_iff_eq,Option.any_eq_true,decide_eq_true_eq] at isDue
  obtain ⟨⟨placed,-⟩,deadline,is,reached⟩ := isDue
  exact ⟨row,inside,rfl,placed,deadline,is,reached.trans (Nat.min_le_left _ _)⟩

/-- A row a pass claims has the deadline it was read with, or the last one set since. -/
theorem claimed_deadline {recent earlier : List (Txn × Holdings)}
    (run : System.Run (system fingerprint) (fun _ _ => True) (recent ++ earlier)) {scope : Scope} {ids : List MemoryId}
    {now : UnixSeconds} (read : ∃ batch, ids = (due ((system fingerprint).current earlier).db scope now batch).take batch)
    {row : MemoryRow} (member : row ∈ ((system fingerprint).current (recent ++ earlier)).db.memories)
    (claimed : claims scope ids row = true) :
    ∃ deadline, deadline ≤ now ∧
      row.validUntil = (lastDeadline scope row.id recent).elim (some deadline) (Option.map secondsToSql) := by
  obtain ⟨batch,rfl⟩ := read
  simp only [claims,Bool.and_eq_true,beq_iff_eq,List.contains_iff_mem] at claimed
  obtain ⟨⟨-,active⟩,listed⟩ := claimed
  obtain ⟨old,was,same,placed,deadline,had,reached⟩ := mem_due listed
  have since := (deadline_since run was member same.symm active).2
  rw [had,same,placed] at since
  exact ⟨deadline,reached,since⟩

/-- The rows a pass claims turn expired and keep their deadlines. -/
theorem claimed_turns {db : Database} {scope : Scope} {ids : List MemoryId} {row : MemoryRow} (now : UnixSeconds)
    (member : row ∈ db.memories) (claimed : claims scope ids row = true) :
    ∃ later ∈ (MemoryRepo.expire scope ids now db).memories, later.id = row.id ∧ later.status = .expired ∧
      later.validUntil = row.validUntil :=
  ⟨_,mem_updateWhere.mpr (.inr ⟨row,member,claimed,rfl⟩),rfl,rfl,rfl⟩

/-- Each row a run turned expired was due as it turned, exactly when no expiry's batch was
    given a later deadline, or none, between its read and its commit. -/
theorem expiry_respects_deadlines {log : List (Txn × Holdings)}
    (run : System.Run (system fingerprint) (fun _ _ => True) log) :
    RespectsDeadlines fingerprint log ↔
      ∀ newer txn next older, log = newer ++ (txn,next) :: older → Undisturbed fingerprint older txn := by
  constructor
  · intro respects newer txn next older split
    subst split
    obtain ⟨runBefore,-,-,committed⟩ := run.before
    rcases commit_cases committed with ⟨_,_,_,rfl,-⟩ | ⟨scope,ids,kinds,now,rfl,is⟩ | ⟨-,quiet,-⟩
    · exact trivial
    · rintro recent earlier rfl read row member claimed until' last
      obtain ⟨deadline,-,has⟩ := claimed_deadline runBefore read member claimed
      rw [last] at has
      have active := claimed
      simp only [claims,Bool.and_eq_true,beq_iff_eq] at active
      -- the commit turns the claimed row, so the run vouches for its deadline
      obtain ⟨later,there,named,turned,kept⟩ := claimed_turns now member claimed
      subst is
      obtain ⟨_,_,_,_,found,same,stored,reached⟩ := respects newer _ _ _ rfl row member later there named
        (by rw [active.1.2]; nofun) turned
      cases same
      obtain ⟨given,rfl,rfl⟩ := Option.map_eq_some_iff.mp (has.symm.trans (kept.symm.trans stored))
      exact ⟨given,rfl,reached⟩
    · exact quiet _
  · rintro undisturbed newer txn next older rfl old was row member same before after
    obtain ⟨runBefore,staged,-,committed⟩ := run.before
    obtain ⟨scope,ids,kinds,now,rfl,claimed,kept⟩ := expired_origin committed (run_unique runBefore) was member same before after
    have quiet := undisturbed newer _ next older rfl
    cases staged with
    | @expire first second scope now batch ids beforehand bounded reads read prepared =>
      obtain ⟨later,seen,earliest,history,rfl,-⟩ := reads
      obtain ⟨recent,earlier,rfl,rfl⟩ := states_split history
      obtain ⟨deadline,reached,has⟩ := claimed_deadline runBefore ⟨batch,read⟩ was claimed
      refine ⟨scope,ids,kindsOf second scope ids,now,?_⟩
      cases last : lastDeadline scope old.id recent with
      | none =>
        rw [last] at has
        exact ⟨deadline,rfl,kept.trans has,reached⟩
      | some until' =>
        rw [last] at has
        obtain ⟨given,rfl,inTime⟩ := quiet recent earlier rfl ⟨batch,read⟩ old was claimed until' last
        exact ⟨secondsToSql given,rfl,kept.trans has,inTime⟩

end

namespace Sample
open Claims.Sample Memories.Sample Store.Sample Lifecycle.Sample

/-- A note due at fifteen. -/
def dated : List (Txn × Holdings) :=
  (system textOf).extend (captured [] (noted noteId "aisle seat" .evidence [] 1)) (.setValidUntil scope noteId (some 15))

/-- A pass at twenty has read it as due and committed the counter rows. -/
def prepared : List (Txn × Holdings) := (system textOf).extend dated (.prepareExpiry scope [.fact])

/-- The note is given another deadline, or none, before the pass commits. -/
def redated (until' : Option UnixSeconds) : List (Txn × Holdings) :=
  (system textOf).extend prepared (.setValidUntil scope noteId until')

def expired (until' : Option UnixSeconds) : List (Txn × Holdings) :=
  (system textOf).extend (redated until') (.expire scope [noteId] [.fact] 20)

theorem run_dated : System.Run (system textOf) (fun _ _ => True) dated :=
  (run_captured_free .start (noted_admitted aisle_passes _ _ _ _)).extend (.setValidUntil _ _ _)
    (System.meetAll_of_forall (fun _ _ _ => trivial) _)

theorem dated_due : [noteId] = (due ((system textOf).current dated).db scope 20 1).take 1 := by
  decide +kernel

theorem dated_kinds : [MemoryKind.fact] = kindsOf ((system textOf).current dated).db scope [noteId] := by
  decide +kernel

/-- The states of the run from the read on, whatever the new deadline. -/
theorem states_redated (until' : Option UnixSeconds) :
    ∃ last, (system textOf).states (redated until') = [last,{ (system textOf).current dated with
      counters := materialize scope [.fact] ((system textOf).current dated).counters }] ++ (system textOf).states dated :=
  ⟨_,rfl⟩

theorem states_dated : ∃ older, (system textOf).states dated = (system textOf).current dated :: older := ⟨_,rfl⟩

theorem run_expired (until' : Option UnixSeconds) : System.Run (system textOf) (fun _ _ => True) (expired until') := by
  have free : ∀ now txn, (system textOf).MeetAll (fun _ _ => True) now ((system textOf).moves txn) :=
    fun now txn => System.meetAll_of_forall (fun _ _ _ => trivial) now
  obtain ⟨older,readAt⟩ := states_dated
  obtain ⟨last,since⟩ := states_redated until'
  refine ((run_dated.extend ?_ (free _ _)).extend (.setValidUntil _ _ _) (free _ _)).extend ?_ (free _ _)
  · rw [dated_kinds]
    exact .prepareExpiry (by decide) ⟨[],_,older,readAt,rfl,_,List.mem_singleton_self _,rfl⟩ dated_due
  · rw [dated_kinds]
    refine @Stages.expire _ _ _ _ _ _ _ _ ((system textOf).current dated) (by decide) ⟨_,_,older,
      since.trans (congrArg _ readAt),rfl,_,List.mem_append_right _ (List.mem_singleton_self _),rfl⟩ dated_due ?_
    rw [← dated_kinds]
    exact since ▸ List.mem_cons_of_mem _ List.mem_cons_self

/-- A note whose deadline was cleared after the read expires all the same. -/
theorem cleared_note_expires :
    System.Run (system textOf) (fun _ _ => True) (expired none) ∧ ¬ RespectsDeadlines textOf (expired none) := by
  refine ⟨run_expired none,fun respects => ?_⟩
  have turned : ∃ old ∈ ((system textOf).current (redated none)).db.memories,
      ∃ row ∈ ((system textOf).current (expired none)).db.memories,
        row.id = old.id ∧ old.status ≠ .expired ∧ row.status = .expired ∧ row.validUntil = none := by
    decide +kernel
  obtain ⟨old,was,row,member,same,before,after,bare⟩ := turned
  obtain ⟨_,_,_,_,deadline,-,stored,-⟩ := respects [] _ _ (redated none) rfl old was row member same before after
  rw [bare] at stored
  cases stored

/-- A note whose deadline moved to eighteen expires at twenty. -/
theorem expiry_respects_deadlines_moved :
    System.Run (system textOf) (fun _ _ => True) (expired (some 18)) ∧ RespectsDeadlines textOf (expired (some 18)) := by
  refine ⟨run_expired _,(expiry_respects_deadlines (run_expired _)).mpr ?_⟩
  have calm : ∀ entry ∈ redated (some 18), ∀ older, Undisturbed textOf older entry.1 := by
    have shape : ∃ third second first settling start, redated (some 18) = [(.setValidUntil scope noteId (some 18),third),
        (.prepareExpiry scope [.fact],second),(.setValidUntil scope noteId (some 15),first),(.capture settling,start)] :=
      ⟨_,_,_,_,_,rfl⟩
    obtain ⟨third,second,first,settling,start,is⟩ := shape
    rw [is]
    intro entry member older
    simp only [List.mem_cons,List.not_mem_nil,or_false] at member
    rcases member with rfl | rfl | rfl | rfl
    all_goals exact trivial
  intro newer txn next older split
  cases newer with
  | cons entry newer =>
    have inside : (txn,next) ∈ redated (some 18) := by
      rw [show redated (some 18) = newer ++ (txn,next) :: older from (List.cons.inj split).2]
      simp
    exact calm _ inside older
  | nil =>
    obtain ⟨same,rfl⟩ := List.cons.inj split
    obtain ⟨rfl,-⟩ := Prod.mk.inj same
    intro recent earlier parts read row member claimed until' last
    simp only [claims,Bool.and_eq_true,List.contains_iff_mem,List.mem_singleton] at claimed
    rw [claimed.2] at last
    cases recent with
    | nil => cases last
    | cons entry recent =>
      obtain ⟨rfl,-⟩ := List.cons.inj parts
      cases last
      exact ⟨18,rfl,by decide⟩

end Sample

end Aicortex.ExpiryDeadlines
