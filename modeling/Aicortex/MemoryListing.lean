import Aicortex.Cursors
import Aicortex.RecordAgreement
import Aicortex.IdText
import Aicortex.Lib.Base64
import Aicortex.Lib.Keyset
import Mathlib.Data.Prod.Lex
import Mathlib.Order.OrderDual
import Mathlib.Order.WithBot

/-!
Listing a scope's memories page by page. A page holds the rows past the cursor, newest
first, and a full page hands out the cursor of its last row. A client that follows the
cursors meets no row twice and misses none that matched all along, whatever is committed
between the pages.
-/

namespace Aicortex.MemoryListing
open Aicortex.Text Aicortex.CivilTime Aicortex.IdText Aicortex.Memories Aicortex.Schema Aicortex.MemoryRepo
open Aicortex.Lifecycle Aicortex.RecordAgreement Aicortex.ScopeIdentity Aicortex.Cursors
open Lib.Tables Lib.Outcome Lib.StaleRuns Lib.Keyset
open Aicortex.Claims hiding Unit
set_option linter.unusedSimpArgs false

/-! ### The statement -/

def maxPageRows : Nat := 500

/-- One page of a listing, and the cursor that continues it. -/
structure Listing where
  memories : List Memory
  next : Option String
  deriving DecidableEq

/-- The rows a listing asks for. -/
def matching (scope : Scope) (filter : MemoryFilter) (row : MemoryRow) : Bool :=
  row.scope == scope && filter.status.all (fun status => row.status == status) &&
    filter.kind.all (fun kind => row.kind == kind)

/-- The rows past a cursor. -/
def past (after : Cursor) (row : MemoryRow) : Bool :=
  decide (row.created < secondsToSql after.created.toNat) ||
    (row.created == secondsToSql after.created.toNat && decide (row.id.hyphenated < after.id.hyphenated))

/-- The order of the listing: the later time first, then the later id. -/
def newestFirst (left right : MemoryRow) : Prop :=
  right.created < left.created ∨ (right.created = left.created ∧ right.id.hyphenated ≤ left.id.hyphenated)

instance : DecidableRel newestFirst := fun left right =>
  inferInstanceAs (Decidable (right.created < left.created ∨
    (right.created = left.created ∧ right.id.hyphenated ≤ left.id.hyphenated)))

def listRows (db : Database) (scope : Scope) (filter : MemoryFilter) (after : Option Cursor) (limit : Nat) :
    List MemoryRow :=
  ((db.memories.filter (fun row => matching scope filter row && after.all (fun after => past after row))).insertionSort
    newestFirst).take limit

section
variable (signing : Signing)

/-- The cursor of a row. -/
def cursorOf (row : MemoryRow) : Cursor := ⟨UInt64.ofNat row.created,row.id⟩

/-- One page of a scope's memories, newest first. Assumed of a stored record: it reads back
    as the memory it was written from, as one built by the checked constructors does. -/
def list (db : Database) (key : CursorKey) (scope : Scope) (filter : MemoryFilter) (limit : UInt32)
    (cursor : Option String) : Except StoreError Listing :=
  if limit = 0 ∨ maxPageRows < limit.toNat then
    .error (.validation s!"a page of {limit} rows is not between 1 and {maxPageRows}")
  else do
    let scopeText := scopeId signing.sha256 scope
    let after ← match cursor with
      | none => .ok none
      | some text => (Cursor.decode signing text key scopeText filter).map some
    let rows := listRows db scope filter after limit.toNat
    let full := rows.length == limit.toNat
    let next := if full then rows.getLast?.map (fun last => (cursorOf last).encode signing key scopeText filter) else none
    .ok ⟨rows.map MemoryRow.record,next⟩

/-! ### Following the cursors -/

/-- The pages a client has read, each of the table as it then was, up to the cursor it
    holds. -/
inductive Walked (key : CursorKey) (scope : Scope) (filter : MemoryFilter) (limit : UInt32) (tables : Nat → Database) :
    Nat → Option String → List Memory → Prop
  | start : Walked key scope filter limit tables 0 none []
  | turns {index : Nat} {cursor : Option String} {earlier memories : List Memory} {next : String}
      (walked : Walked key scope filter limit tables index cursor earlier)
      (read : list signing (tables index) key scope filter limit cursor = .ok ⟨memories,some next⟩) :
      Walked key scope filter limit tables (index + 1) (some next) (earlier ++ memories)

/-- The whole of what a client was given, when the last page handed out no cursor. -/
def Finished (key : CursorKey) (scope : Scope) (filter : MemoryFilter) (limit : UInt32) (tables : Nat → Database)
    (last : Nat) (all : List Memory) : Prop :=
  ∃ cursor earlier memories, Walked signing key scope filter limit tables last cursor earlier ∧
    list signing (tables last) key scope filter limit cursor = .ok ⟨memories,none⟩ ∧ all = earlier ++ memories

end

/-! ### Places -/

/-- Where a row stands in a listing, and before all rows. -/
abbrev Place := (WithTop (Lex (Nat × String)))ᵒᵈ

def placeOf (created : Nat) (id : MemoryId) : Place := OrderDual.toDual (WithTop.some (toLex (created,id.hyphenated)))

def rowPlace (row : MemoryRow) : Place := placeOf row.created row.id

def memoryPlace (memory : Memory) : Place := placeOf (secondsToSql memory.created) memory.id

/-- Where a page starts: behind its cursor, or before all rows. -/
def placeAfter : Option Cursor → Place
  | none => OrderDual.toDual ⊤
  | some after => placeOf (secondsToSql after.created.toNat) after.id

theorem placeOf_lt {created created' : Nat} {id id' : MemoryId} :
    placeOf created id < placeOf created' id' ↔
      created' < created ∨ (created' = created ∧ id'.hyphenated < id.hyphenated) := by
  rw [placeOf,placeOf,OrderDual.toDual_lt_toDual,WithTop.coe_lt_coe,Prod.Lex.toLex_lt_toLex]

theorem placeOf_le {created created' : Nat} {id id' : MemoryId} :
    placeOf created id ≤ placeOf created' id' ↔
      created' < created ∨ (created' = created ∧ id'.hyphenated ≤ id.hyphenated) := by
  rw [placeOf,placeOf,OrderDual.toDual_le_toDual,WithTop.coe_le_coe,Prod.Lex.toLex_le_toLex]

theorem placeOf_inj {created created' : Nat} {id id' : MemoryId} :
    placeOf created id = placeOf created' id' ↔ created = created' ∧ id = id' := by
  rw [placeOf,placeOf,OrderDual.toDual_inj,WithTop.coe_inj,toLex_inj,Prod.mk.injEq,hyphenated_injective.eq_iff]

theorem before_all (created : Nat) (id : MemoryId) : placeAfter none < placeOf created id := by
  rw [placeAfter,placeOf,OrderDual.toDual_lt_toDual]
  exact WithTop.coe_lt_top _

theorem past_iff {after : Option Cursor} {row : MemoryRow} :
    after.all (fun after => past after row) = true ↔ placeAfter after < rowPlace row := by
  cases after with
  | none => simpa [rowPlace] using before_all row.created row.id
  | some after => simp [placeAfter,rowPlace,placeOf_lt,past]

/-- A page is a read of the matching rows in the order of their places. -/
theorem listRows_eq (db : Database) (scope : Scope) (filter : MemoryFilter) (after : Option Cursor) (limit : Nat) :
    listRows db scope filter after limit =
      page rowPlace limit (placeAfter after) (db.memories.filter (matching scope filter)) := by
  have order : newestFirst = fun left right => rowPlace left ≤ rowPlace right := by
    funext left right
    exact propext placeOf_le.symm
  have chosen : db.memories.filter (fun row => matching scope filter row && after.all (fun after => past after row)) =
      (db.memories.filter (matching scope filter)).filter (fun row => decide (placeAfter after < rowPlace row)) := by
    rw [List.filter_filter]
    refine List.filter_congr fun row _ => ?_
    rw [Bool.and_comm]
    congr 1
    rw [Bool.eq_iff_iff,past_iff,decide_eq_true_eq]
  rw [listRows,page,following,chosen]
  congr! 2

/-! ### Tables between the reads -/

/-- The ids are distinct, and the columns a listing reads are the record's. -/
structure Listable (db : Database) : Prop where
  unique : UniqueBy MemoryRow.id db.memories
  named : ∀ row ∈ db.memories, row.record.id = row.id
  created : ∀ row ∈ db.memories, row.created = secondsToSql row.record.created

/-- The tables the reads find: a memory has one time in all of them. -/
structure Tables (tables : Nat → Database) : Prop where
  listable : ∀ read, Listable (tables read)
  steady : ∀ one two, ∀ row ∈ (tables one).memories, ∀ other ∈ (tables two).memories, other.id = row.id →
    other.created = row.created

theorem Tables.still {db : Database} (listable : Listable db) : Tables (fun _ => db) := by
  refine ⟨fun _ => listable,fun _ _ row inside other within same => ?_⟩
  rw [listable.unique.eq_of_key within inside same]

theorem Listable.places {db : Database} (listable : Listable db) (scope : Scope) (filter : MemoryFilter) :
    UniqueBy rowPlace (db.memories.filter (matching scope filter)) := by
  have ids : UniqueBy MemoryRow.id (db.memories.filter (matching scope filter)) :=
    listable.unique.sublist (List.filter_sublist.map _)
  exact List.pairwise_map.mpr ((List.pairwise_map.mp ids).imp fun apart same => apart (placeOf_inj.mp same).2)

theorem Listable.memoryPlace {db : Database} (listable : Listable db) {row : MemoryRow} (member : row ∈ db.memories) :
    memoryPlace row.record = rowPlace row := by
  rw [MemoryListing.memoryPlace,rowPlace,listable.named row member,listable.created row member]

/-- The cursor of a stored row starts the next page behind that row. -/
theorem Listable.placeAfter {db : Database} (listable : Listable db) {row : MemoryRow} (member : row ∈ db.memories) :
    placeAfter (some (cursorOf row)) = rowPlace row := by
  have small : row.created ≤ maxInteger := by
    rw [listable.created row member]
    exact Nat.min_le_right _ _
  have read : (UInt64.ofNat row.created).toNat = row.created := by
    apply UInt64.toNat_ofNat_of_lt'
    exact lt_of_le_of_lt small (by decide)
  simp only [MemoryListing.placeAfter,cursorOf,read,rowPlace,secondsToSql,Nat.min_eq_left small]

section
variable {fingerprint : Memory → String} {log : List (Txn × Holdings)}

theorem listable_of_run (run : System.Run (system fingerprint) (fun _ _ => True) log) {state : Holdings}
    (member : state ∈ (system fingerprint).states log) : Listable state.db := by
  obtain ⟨⟨tidy,aligned⟩,named⟩ := (run.trail fits named_keeps).held state member
  exact ⟨tidy.unique,named,fun row inside => (aligned row inside).created⟩

/-- A row keeps its time from any state of a run to any other. -/
theorem tables_of_run (run : System.Run (system fingerprint) (fun _ _ => True) log) {reads : Nat → Holdings}
    (inRun : ∀ read, reads read ∈ (system fingerprint).states log) : Tables (fun read => (reads read).db) := by
  refine ⟨fun read => listable_of_run run (inRun read),?_⟩
  intro one two row inside other within same
  have trail := run.trail fits named_keeps
  have unique := (listable_of_run run ((system fingerprint).current_mem log)).unique
  obtain ⟨first,firstIn,firstIs,kept⟩ := (trail.since _ (inRun one)).rows.stays inside
  obtain ⟨second,secondIn,secondIs,keptToo⟩ := (trail.since _ (inRun two)).rows.stays within
  rw [← kept.created,← keptToo.created,unique.eq_of_key secondIn firstIn (secondIs.trans (same.trans firstIs.symm))]

end

/-! ### Transactions between the reads -/

/-- What a transaction on the memories leaves to a listing: every row under its id and
    at its time, and the columns those of the record. -/
structure Lists (before after : Database) : Prop where
  stays : ∀ old ∈ before.memories, ∃ row ∈ after.memories, row.id = old.id ∧ row.created = old.created
  listable : Listable before → Listable after

theorem Lists.refl (db : Database) : Lists db db := ⟨fun old member => ⟨old,member,rfl,rfl⟩,fun listable => listable⟩

theorem Lists.trans {before mid after : Database} (first : Lists before mid) (second : Lists mid after) :
    Lists before after := by
  refine ⟨fun old member => ?_,fun listable => second.listable (first.listable listable)⟩
  obtain ⟨row,inside,id,created⟩ := first.stays old member
  obtain ⟨later,there,laterId,laterCreated⟩ := second.stays row inside
  exact ⟨later,there,laterId.trans id,laterCreated.trans created⟩

/-- A change in place that touches neither ids nor times. -/
theorem lists_update {db : Database} {selected : MemoryRow → Bool} {change : MemoryRow → MemoryRow}
    (id : ∀ row, (change row).id = row.id) (created : ∀ row, (change row).created = row.created)
    (record : ∀ row ∈ db.memories, selected row = true →
      (change row).record.id = row.record.id ∧ (change row).record.created = row.record.created) :
    Lists db { db with memories := updateWhere selected change db.memories } := by
  constructor
  · intro old member
    obtain ⟨row,inside,same⟩ := @updateWhere_stays _ _ (fun row : MemoryRow => (row.id,row.created)) selected change
      db.memories (fun row _ _ => by rw [id,created]) old member
    exact ⟨row,inside,(Prod.mk.inj same).1,(Prod.mk.inj same).2⟩
  · intro listable
    refine ⟨listable.unique.update selected id,updateWhere_all listable.named ?_,updateWhere_all listable.created ?_⟩
    · intro row member chosen
      rw [(record row member chosen).1,id,listable.named row member]
    · intro row member chosen
      rw [(record row member chosen).2,created,listable.created row member]

theorem lists_guarded {scope : Scope} {id : MemoryId} {guard : MemoryRow → Bool} {change : MemoryRow → MemoryRow}
    {db next : Database} (executed : guarded scope id guard change db = .ok next)
    (named : ∀ row, (change row).id = row.id) (created : ∀ row, (change row).created = row.created)
    (record : ∀ row, guard row = true →
      (change row).record.id = row.record.id ∧ (change row).record.created = row.record.created) : Lists db next := by
  obtain ⟨passed,rfl⟩ := Store.guarded_ok executed
  exact lists_update named created fun row member chosen => record row (passed row member chosen)

theorem lists_same {before after : Database} (same : after.memories = before.memories) : Lists before after := by
  refine ⟨fun old member => ⟨old,by rwa [same],rfl,rfl⟩,fun listable => ⟨?_,?_,?_⟩⟩ <;> rw [same]
  · exact listable.unique
  · exact listable.named
  · exact listable.created

/-- A transaction on the memories, whatever its call read. -/
theorem commit_lists {fingerprint : Memory → String} {db next : Database} {txn : MemoryTxn}
    (executed : MemoryRepo.commit fingerprint db txn = .ok next) : Lists db next := by
  cases txn with
  | insert maxBodyBytes memory provenance =>
    simp only [MemoryRepo.commit,MemoryRepo.insert] at executed
    split_ifs at executed
    obtain ⟨mid,inserted,derived⟩ := bind_ok_iff.mp executed
    obtain ⟨free,rfl⟩ := Store.insertMemory_ok inserted
    obtain rfl := Store.insertDerivations_ok derived
    refine ⟨fun old member => ⟨old,List.mem_append_left _ member,rfl,rfl⟩,fun listable => ⟨?_,?_,?_⟩⟩
    · exact listable.unique.insert free
    · exact List.forall_mem_append.mpr ⟨listable.named,by simp [memoryRow]⟩
    · exact List.forall_mem_append.mpr ⟨listable.created,by simp [memoryRow]⟩
  | merge scope id expected again =>
    refine lists_guarded executed (fun _ => rfl) (fun _ => rfl) fun row passed => ?_
    simp only [Bool.and_eq_true,beq_iff_eq] at passed
    rw [passed.1]
    exact ⟨rfl,rfl⟩
  | supersede scope old new expected at' =>
    simp only [MemoryRepo.commit,MemoryRepo.supersede] at executed
    split_ifs at executed
    refine lists_guarded executed (fun _ => rfl) (fun _ => rfl) fun row passed => ?_
    simp only [Bool.and_eq_true,beq_iff_eq] at passed
    rw [passed.1.1]
    exact ⟨rfl,rfl⟩
  | setValidUntil scope id until' =>
    obtain rfl := Except.ok.inj executed
    exact lists_update (fun _ => rfl) (fun _ => rfl) fun _ _ _ => ⟨rfl,rfl⟩
  | expire scope ids now =>
    obtain rfl := Except.ok.inj executed
    exact lists_update (fun _ => rfl) (fun _ => rfl) fun _ _ _ => ⟨rfl,rfl⟩
  | redigest scope rows =>
    refine foldlM_invariant (Lists db) (fun read _ before after held stepped => held.trans ?_) (Lists.refl db) executed
    simp only [redigestRow] at stepped
    split_ifs at stepped
    obtain rfl := Except.ok.inj stepped
    exact lists_update (fun _ => rfl) (fun _ => rfl) fun _ _ _ => ⟨rfl,rfl⟩
  | issueKey row =>
    obtain ⟨keys,-,issued⟩ := bind_ok_iff.mp executed
    obtain rfl := Except.ok.inj issued
    exact lists_same rfl

/-- Tables of which each comes from the one before by transactions on the memories. -/
def Onward (fingerprint : Memory → String) (tables : Nat → Database) : Prop :=
  ∀ read, ∃ txns : List MemoryTxn, txns.foldlM (MemoryRepo.commit fingerprint) (tables read) = .ok (tables (read + 1))

theorem Onward.lists {fingerprint : Memory → String} {tables : Nat → Database} (onward : Onward fingerprint tables)
    (read more : Nat) : Lists (tables read) (tables (read + more)) := by
  induction more with
  | zero => exact Lists.refl _
  | succ more ih =>
    obtain ⟨txns,executed⟩ := onward (read + more)
    refine ih.trans ?_
    exact foldlM_invariant (Lists (tables (read + more))) (fun txn _ before after held stepped =>
      held.trans (commit_lists stepped)) (Lists.refl _) executed

theorem Onward.tables {fingerprint : Memory → String} {tables : Nat → Database} (onward : Onward fingerprint tables)
    (listable : Listable (tables 0)) : Tables tables := by
  have each : ∀ read, Listable (tables read) := by
    intro read
    have reached := onward.lists 0 read
    rw [Nat.zero_add] at reached
    exact reached.listable listable
  have later : ∀ read more, ∀ row ∈ (tables read).memories, ∀ other ∈ (tables (read + more)).memories, other.id = row.id →
      other.created = row.created := by
    intro read more row inside other within same
    obtain ⟨found,there,id,created⟩ := (onward.lists read more).stays row inside
    rw [(each (read + more)).unique.eq_of_key within there (same.trans id.symm),created]
  refine ⟨each,fun one two row inside other within same => ?_⟩
  rcases Nat.le_total one two with earlier | earlier
  · obtain ⟨more,rfl⟩ := Nat.exists_eq_add_of_le earlier
    exact later one more row inside other within same
  · obtain ⟨more,rfl⟩ := Nat.exists_eq_add_of_le earlier
    exact (later two more other within row inside same.symm).symm

/-! ### One page -/

/-- What a client may ask for at once. -/
def Admissible (limit : UInt32) : Prop := 1 ≤ limit.toNat ∧ limit.toNat ≤ maxPageRows

instance (limit : UInt32) : Decidable (Admissible limit) :=
  inferInstanceAs (Decidable (1 ≤ limit.toNat ∧ limit.toNat ≤ maxPageRows))

section
variable {signing : Signing} {key : CursorKey} {scope : Scope} {filter : MemoryFilter} {limit : UInt32}
variable {tables : Nat → Database} {index last : Nat} {cursor : Option String} {earlier all : List Memory}

/-- A cursor as it is handed out for this key, scope and filter. -/
def handedOut (signing : Signing) (key : CursorKey) (scope : Scope) (filter : MemoryFilter) (after : Cursor) : String :=
  after.encode signing key (scopeId signing.sha256 scope) filter

theorem admissible_limit (admissible : Admissible limit) : ¬ (limit = 0 ∨ maxPageRows < limit.toNat) := by
  rintro (none | beyond)
  · have positive := admissible.1
    rw [none] at positive
    exact absurd positive (by decide)
  · exact absurd admissible.2 (Nat.not_le_of_lt beyond)

/-- A page behind no cursor, or behind one that was handed out here, is read. -/
theorem list_ok (lawful : signing.Lawful) (admissible : Admissible limit) (db : Database) (after : Option Cursor) :
    list signing db key scope filter limit (after.map (handedOut signing key scope filter)) =
      .ok ⟨(listRows db scope filter after limit.toNat).map MemoryRow.record,
        if (listRows db scope filter after limit.toNat).length = limit.toNat then
          (listRows db scope filter after limit.toNat).getLast?.map (fun last =>
            handedOut signing key scope filter (cursorOf last))
        else none⟩ := by
  rw [list,if_neg (admissible_limit admissible)]
  cases after with
  | none => simp [handedOut]
  | some after => simp [handedOut,decode_encode lawful,Except.map,ok_bind]

/-- A page behind a cursor that is refused is not read. -/
theorem list_refused (admissible : Admissible limit) {text : String} {refusal : StoreError}
    (unread : Cursor.decode signing text key (scopeId signing.sha256 scope) filter = .error refusal) (db : Database) :
    list signing db key scope filter limit (some text) = .error refusal := by
  rw [list,if_neg (admissible_limit admissible)]
  simp only [unread]
  rfl

theorem length_listRows_le (db : Database) (after : Option Cursor) (limit : Nat) :
    (listRows db scope filter after limit).length ≤ limit := by
  rw [listRows,List.length_take]
  exact Nat.min_le_left _ _

/-! ### The reads behind a client's pages -/

/-- The pages a client was given are reads by keyset, each full, and its cursor is that
    of the last row. -/
theorem walked_reading (lawful : signing.Lawful) (admissible : Admissible limit) (steady : Tables tables)
    (walked : Walked signing key scope filter limit tables index cursor earlier) :
    ∃ after rows, cursor = after.map (handedOut signing key scope filter) ∧ earlier = rows.map MemoryRow.record ∧
      Reading rowPlace limit.toNat (fun read => (tables read).memories.filter (matching scope filter)) (placeAfter none)
        index (placeAfter after) rows ∧ rows.length = index * limit.toNat := by
  induction walked with
  | start => exact ⟨none,[],rfl,rfl,.start,by simp⟩
  | @turns index cursor earlier memories next walked read ih =>
    obtain ⟨after,rows,rfl,rfl,reading,length⟩ := ih
    rw [list_ok lawful admissible] at read
    injection read with page
    injection page with given handed
    split_ifs at handed with full
    obtain ⟨final,ends,rfl⟩ := Option.map_eq_some_iff.mp handed
    refine ⟨some (cursorOf final),rows ++ listRows (tables index) scope filter after limit.toNat,rfl,?_,?_,?_⟩
    · rw [← given,List.map_append]
    · have inside : final ∈ (tables index).memories := by
        have member := List.mem_of_getLast? ends
        rw [listRows_eq] at member
        exact (List.mem_filter.mp (mem_page member).1).1
      rw [(steady.listable index).placeAfter inside]
      rw [listRows_eq] at ends ⊢
      exact reading.turns ends
    · rw [List.length_append,length,full]
      ring

/-- A walk that ended is a walk by keyset. -/
theorem finished_walk (lawful : signing.Lawful) (admissible : Admissible limit) (steady : Tables tables)
    (finished : Finished signing key scope filter limit tables last all) :
    ∃ rows, all = rows.map MemoryRow.record ∧
      Walk rowPlace limit.toNat (fun read => (tables read).memories.filter (matching scope filter)) 0 last
        (placeAfter none) rows := by
  obtain ⟨cursor,earlier,memories,walked,read,rfl⟩ := finished
  obtain ⟨after,rows,rfl,rfl,reading,-⟩ := walked_reading lawful admissible steady walked
  rw [list_ok lawful admissible] at read
  injection read with page
  injection page with given handed
  have short : (listRows (tables last) scope filter after limit.toNat).length < limit.toNat := by
    refine lt_of_le_of_ne (length_listRows_le _ _ _) fun full => ?_
    rw [if_pos full,Option.map_eq_none_iff,List.getLast?_eq_none_iff] at handed
    rw [handed] at full
    exact absurd admissible.1 (by simp [← full])
  refine ⟨rows ++ listRows (tables last) scope filter after limit.toNat,by rw [← given,List.map_append],?_⟩
  rw [listRows_eq] at short ⊢
  exact reading.walk (.ends short)

/-! ### What a client is given -/

/-- One memory comes before another in a listing. -/
def Before (first second : Memory) : Prop :=
  secondsToSql second.created < secondsToSql first.created ∨
    (secondsToSql second.created = secondsToSql first.created ∧ second.id.hyphenated < first.id.hyphenated)

/-- What a client was given by some reads: strictly descending, no memory twice, and
    nothing that did not match as it was read. -/
structure Given (scope : Scope) (filter : MemoryFilter) (tables : Nat → Database) (reads : Nat) (memories : List Memory) :
    Prop where
  descending : memories.Pairwise Before
  distinct : (memories.map Memory.id).Nodup
  matched : ∀ memory ∈ memories, ∃ read < reads, ∃ row ∈ (tables read).memories,
    row.record = memory ∧ matching scope filter row = true

theorem given_of_rows (steady : Tables tables) {reads : Nat} {rows : List MemoryRow}
    (ascending : rows.Pairwise (fun left right => rowPlace left < rowPlace right))
    (read : ∀ row ∈ rows, ∃ read < reads, row ∈ (tables read).memories.filter (matching scope filter)) :
    Given scope filter tables reads (rows.map MemoryRow.record) := by
  have stored : ∀ row ∈ rows, ∃ read < reads, row ∈ (tables read).memories ∧ matching scope filter row = true := by
    intro row member
    obtain ⟨index,low,within⟩ := read row member
    exact ⟨index,low,List.mem_filter.mp within⟩
  constructor
  · refine List.pairwise_map.mpr (List.Pairwise.imp_of_mem ?_ ascending)
    intro left right inLeft inRight below
    obtain ⟨one,-,leftIn,-⟩ := stored left inLeft
    obtain ⟨two,-,rightIn,-⟩ := stored right inRight
    rw [← (steady.listable one).memoryPlace leftIn,← (steady.listable two).memoryPlace rightIn] at below
    exact placeOf_lt.mp below
  · rw [List.map_map]
    refine List.pairwise_map.mpr (List.Pairwise.imp_of_mem ?_ ascending)
    intro left right inLeft inRight below same
    obtain ⟨one,-,leftIn,-⟩ := stored left inLeft
    obtain ⟨two,-,rightIn,-⟩ := stored right inRight
    have ids : right.id = left.id := by
      rw [← (steady.listable one).named left leftIn,← (steady.listable two).named right rightIn]
      exact same.symm
    have created := steady.steady one two left leftIn right rightIn ids
    exact below.ne (placeOf_inj.mpr ⟨created.symm,ids.symm⟩)
  · intro memory member
    obtain ⟨row,inside,rfl⟩ := List.mem_map.mp member
    obtain ⟨index,low,within,matches'⟩ := stored row inside
    exact ⟨index,low,row,within,rfl,matches'⟩

/-- What following the cursors comes to over tables that change between the reads. -/
structure ExactlyOnce (signing : Signing) (key : CursorKey) (scope : Scope) (filter : MemoryFilter) (limit : UInt32)
    (tables : Nat → Database) : Prop where
  goesOn : ∀ {index cursor earlier}, Walked signing key scope filter limit tables index cursor earlier →
    ∃ page, list signing (tables index) key scope filter limit cursor = .ok page
  soFar : ∀ {index cursor earlier}, Walked signing key scope filter limit tables index cursor earlier →
    Given scope filter tables index earlier
  whole : ∀ {last all}, Finished signing key scope filter limit tables last all →
    Given scope filter tables (last + 1) all
  complete : ∀ {last all}, Finished signing key scope filter limit tables last all → ∀ id,
    (∀ read ≤ last, ∃ row ∈ (tables read).memories, row.id = id ∧ matching scope filter row = true) →
    (all.map Memory.id).count id = 1

theorem exactlyOnce_of_tables (lawful : signing.Lawful) (admissible : Admissible limit) (steady : Tables tables) :
    ExactlyOnce signing key scope filter limit tables := by
  have unique : ∀ read, UniqueBy rowPlace ((tables read).memories.filter (matching scope filter)) :=
    fun read => (steady.listable read).places scope filter
  have whole : ∀ {last all}, Finished signing key scope filter limit tables last all →
      Given scope filter tables (last + 1) all := by
    intro last all finished
    obtain ⟨rows,rfl,walk⟩ := finished_walk lawful admissible steady finished
    refine given_of_rows steady (walk.ascending unique) fun row member => ?_
    obtain ⟨-,read,-,high,within⟩ := walk.mem member
    exact ⟨read,by omega,within⟩
  refine ⟨?_,?_,whole,?_⟩
  · intro index cursor earlier walked
    obtain ⟨after,-,rfl,-⟩ := walked_reading lawful admissible steady walked
    exact ⟨_,list_ok lawful admissible _ after⟩
  · intro index cursor earlier walked
    obtain ⟨after,rows,-,rfl,reading,-⟩ := walked_reading lawful admissible steady walked
    exact given_of_rows steady (reading.ascending unique).1 fun row member => reading.mem member
  · intro last all finished id throughout
    refine List.count_eq_one_of_mem (whole finished).distinct ?_
    obtain ⟨rows,rfl,walk⟩ := finished_walk lawful admissible steady finished
    obtain ⟨first,firstIn,firstId,-⟩ := throughout 0 (Nat.zero_le _)
    have present : ∀ read, 0 ≤ read → read ≤ last →
        ∃ row ∈ (tables read).memories.filter (matching scope filter), rowPlace row = rowPlace first := by
      intro read _ high
      obtain ⟨row,inside,rowId,matched⟩ := throughout read high
      have created := steady.steady 0 read first firstIn row inside (rowId.trans firstId.symm)
      exact ⟨row,List.mem_filter.mpr ⟨inside,matched⟩,placeOf_inj.mpr ⟨created,rowId.trans firstId.symm⟩⟩
    obtain ⟨row,member,same⟩ := walk.meets unique (before_all first.created first.id) present
    obtain ⟨-,read,-,-,within⟩ := walk.mem member
    have named := (steady.listable read).named row (List.mem_filter.mp within).1
    rw [List.map_map]
    exact List.mem_map.mpr ⟨row,member,by rw [Function.comp_apply,named,(placeOf_inj.mp same).2,firstId]⟩

/-! ### A table that stays as it is -/

/-- Over one table the walk reads the full pages there are and ends with the next. -/
structure Ends (signing : Signing) (key : CursorKey) (scope : Scope) (filter : MemoryFilter) (limit : UInt32)
    (db : Database) : Prop where
  bounded : ∀ {index cursor earlier}, Walked signing key scope filter limit (fun _ => db) index cursor earlier →
    index ≤ (db.memories.filter (matching scope filter)).length / limit.toNat
  ends : ∃ last all, Finished signing key scope filter limit (fun _ => db) last all ∧
    all.Perm ((db.memories.filter (matching scope filter)).map MemoryRow.record)

theorem walked_bounded (lawful : signing.Lawful) (admissible : Admissible limit) {db : Database} (listable : Listable db)
    (walked : Walked signing key scope filter limit (fun _ => db) index cursor earlier) :
    index ≤ (db.memories.filter (matching scope filter)).length / limit.toNat := by
  obtain ⟨after,rows,-,-,reading,length⟩ := walked_reading lawful admissible (Tables.still listable) walked
  have unique := listable.places scope filter
  have distinct : rows.Nodup := (reading.ascending fun _ => unique).1.imp fun below same => by
    rw [same] at below
    exact lt_irrefl _ below
  have within : rows ⊆ db.memories.filter (matching scope filter) := by
    intro row member
    obtain ⟨-,-,inside⟩ := reading.mem member
    exact inside
  rw [Nat.le_div_iff_mul_le admissible.1,← length]
  exact (List.subperm_of_subset distinct within).length_le

theorem ends_of_listable (lawful : signing.Lawful) (admissible : Admissible limit) {db : Database}
    (listable : Listable db) : Ends signing key scope filter limit db := by
  have steady := Tables.still listable
  refine ⟨walked_bounded lawful admissible listable,?_⟩
  -- a client that has not reached the end can read on, and there is a last page it can reach
  have reaches : ∀ more index cursor earlier, Walked signing key scope filter limit (fun _ => db) index cursor earlier →
      (db.memories.filter (matching scope filter)).length / limit.toNat < index + more →
      ∃ last all, Finished signing key scope filter limit (fun _ => db) last all := by
    intro more
    induction more with
    | zero =>
      intro index cursor earlier walked beyond
      have bound := walked_bounded lawful admissible listable walked
      omega
    | succ more ih =>
      intro index cursor earlier walked beyond
      obtain ⟨⟨memories,next⟩,read⟩ := (exactlyOnce_of_tables lawful admissible steady).goesOn walked
      cases next with
      | none => exact ⟨index,earlier ++ memories,cursor,earlier,memories,walked,read,rfl⟩
      | some next => exact ih (index + 1) (some next) _ (walked.turns read) (by omega)
  obtain ⟨last,all,finished⟩ := reaches _ 0 none [] .start (Nat.lt_of_lt_of_eq (Nat.lt_succ_self _) (Nat.zero_add _).symm)
  refine ⟨last,all,finished,?_⟩
  obtain ⟨rows,rfl,walk⟩ := finished_walk lawful admissible steady finished
  exact (walk.still (listable.places scope filter) fun row _ => before_all row.created row.id).map _

/-! ### Cursors -/

/-- A cursor is read back where it was handed out, what is accepted carries its own tag,
    and a tag is refused with any key, scope, filter or position but its own. -/
structure Sealed (signing : Signing) : Prop where
  back : ∀ cursor key scope filter,
    Cursor.decode signing (handedOut signing key scope filter cursor) key (scopeId signing.sha256 scope) filter = .ok cursor
  only : ∀ {text key scope filter cursor}, Cursor.decode signing text key (scopeId signing.sha256 scope) filter = .ok cursor →
    signing.decodeText text = some (cursor.position ++ (Minted.mk key cursor.position scope filter).tag signing)
  elsewhere : ∀ {cursor : Cursor} {minted presented : Minted} {text : String}, minted.position = cursor.position →
    presented.position.length = positionBytes →
    signing.decodeText text = some (presented.position ++ minted.tag signing) →
    Uncollided signing presented minted → presented ≠ minted →
    Cursor.decode signing text presented.key (presented.scopeText signing) presented.filter = .error unsigned ∧
      ∀ db limit, Admissible limit →
        list signing db presented.key presented.scope presented.filter limit (some text) = .error unsigned

theorem sealed_of_lawful (lawful : signing.Lawful) : Sealed signing := by
  refine ⟨fun cursor key scope filter => decode_encode lawful cursor key _ filter,
    fun accepted => (decode_ok_iff lawful).mp accepted,?_⟩
  intro cursor minted presented text position length carries uncollided other
  have first : minted.position.length = positionBytes := by rw [position,length_position]
  have refusal := decode_elsewhere lawful first length uncollided carries other
  exact ⟨refusal,fun db limit admissible => list_refused admissible refusal db⟩

/-- Following the cursors gives every memory that matched throughout once, in order,
    whatever is committed on the memories between the pages, and through a run whichever
    of its states the pages read; over a table that stays as it is the pages end; and a
    cursor is of use only where it was handed out. -/
theorem pages_exactly_once (lawful : signing.Lawful) (key : CursorKey) (scope : Scope) (filter : MemoryFilter)
    (admissible : Admissible limit) {fingerprint : Memory → String} {log : List (Txn × Holdings)}
    (run : System.Run (system fingerprint) (fun _ _ => True) log) :
    (∀ tables : Nat → Database, (∃ state ∈ (system fingerprint).states log, tables 0 = state.db) →
      Onward fingerprint tables → ExactlyOnce signing key scope filter limit tables) ∧
    (∀ reads : Nat → Holdings, (∀ read, reads read ∈ (system fingerprint).states log) →
      ExactlyOnce signing key scope filter limit (fun read => (reads read).db)) ∧
    (∀ state ∈ (system fingerprint).states log, Ends signing key scope filter limit state.db) ∧ Sealed signing := by
  refine ⟨?_,fun reads inRun => ?_,fun state member => ?_,sealed_of_lawful lawful⟩
  · rintro tables ⟨state,member,first⟩ onward
    refine exactlyOnce_of_tables lawful admissible (onward.tables ?_)
    rw [first]
    exact listable_of_run run member
  · exact exactlyOnce_of_tables lawful admissible (tables_of_run run inRun)
  · exact ends_of_listable lawful admissible (listable_of_run run member)

end

namespace Sample
open Claims.Sample Memories.Sample Store.Sample Lifecycle.Sample

def key : CursorKey := ⟨List.replicate 32 7,by decide⟩
def activeOnly : MemoryFilter := ⟨some .active,none⟩
def everything : MemoryFilter := ⟨none,none⟩

/-- SHA-256 on the scope and the two filters. -/
def sha256 (material : ByteArray) : List UInt8 :=
  if material.data.toList = (scopeMaterial scope).data.toList then
    [131,127,227,170,244,187,33,208,131,213,128,111,76,1,206,30,240,99,50,3,77,189,13,110,141,45,66,169,44,161,45,193]
  else if material.data.toList = utf8 activeOnly.material then
    [227,141,177,144,151,118,51,161,126,7,139,148,26,197,179,190,73,88,144,235,238,220,126,63,245,177,175,156,95,166,215,208]
  else if material.data.toList = utf8 everything.material then
    [142,229,225,155,40,89,169,154,92,48,242,32,10,25,218,121,148,115,59,173,63,166,15,69,61,255,7,81,182,68,73,145]
  else List.replicate 32 0

/-- The cursor of a note captured at ten. -/
def noteCursor : Cursor := ⟨10,noteId⟩

/-- What the tag of that cursor covers under a filter. -/
def coveredBy (filter : MemoryFilter) : List UInt8 :=
  utf8 domain ++ noteCursor.position ++ utf8 (scopeId sha256 scope) ++ utf8 (filter.digest sha256)

/-- HMAC-SHA-256 on that cursor under the two filters. -/
def hmac (_ : CursorKey) (material : List UInt8) : List UInt8 :=
  if material = coveredBy activeOnly then
    [13,210,55,71,208,124,47,89,1,55,67,211,226,165,180,114,3,119,137,12,238,251,249,197,31,45,160,64,133,246,255,151]
  else if material = coveredBy everything then
    [255,135,30,6,168,36,35,63,5,225,186,164,185,237,204,105,247,133,162,95,74,204,100,167,165,234,44,46,200,237,59,236]
  else List.replicate 32 0

def signing : Signing := ⟨sha256,hmac,Lib.Base64.encode,Lib.Base64.decode⟩

theorem signing_lawful : signing.Lawful := by
  refine ⟨fun material => ?_,fun key material => ?_,Lib.Base64.decode_encode⟩
  · simp only [signing,sha256]
    split_ifs <;> rfl
  · simp only [signing,hmac]
    split_ifs <;> rfl

/-- A note is read, and before the next page another of the same time is captured. -/
def firstNote : List (Txn × Holdings) := captured [] (noted noteId "aisle seat" .evidence [] 1)
def twoNotes : List (Txn × Holdings) := captured firstNote (noted secondId "window seat" .evidence [] 1)

def reads (read : Nat) : Holdings := if read = 0 then (system textOf).current firstNote else (system textOf).current twoNotes

theorem run_twoNotes : System.Run (system textOf) (fun _ _ => True) twoNotes :=
  run_captured_free (run_captured_free .start (noted_admitted aisle_passes _ _ _ _)) (noted_admitted window_passes _ _ _ _)

theorem twoNotes_states : ∃ older, (system textOf).states twoNotes =
    (system textOf).current twoNotes :: (system textOf).current firstNote :: older := ⟨_,rfl⟩

theorem reads_inRun (read : Nat) : reads read ∈ (system textOf).states twoNotes := by
  obtain ⟨older,is⟩ := twoNotes_states
  rw [is,reads]
  split_ifs <;> simp

theorem first_page : (listRows (reads 0).db scope activeOnly none 1).map cursorOf = [noteCursor] := by decide +kernel

theorem second_page : (listRows (reads 1).db scope activeOnly (some noteCursor) 1).map cursorOf = [] := by decide +kernel

theorem note_throughout : ∀ read ≤ 1, ∃ row ∈ (reads read).db.memories,
    row.id = noteId ∧ matching scope activeOnly row = true := by
  decide +kernel

/-- The note's page hands out its cursor, and the next page ends the listing. -/
theorem notes_finished : ∃ all, Finished signing key scope activeOnly 1 (fun read => (reads read).db) 1 all := by
  have admissible : Admissible 1 := by decide
  obtain ⟨row,rows,is⟩ := List.map_eq_singleton_iff.mp first_page
  have first := @list_ok signing key scope activeOnly 1 signing_lawful admissible (reads 0).db none
  have second := @list_ok signing key scope activeOnly 1 signing_lawful admissible (reads 1).db (some noteCursor)
  rw [show (1 : UInt32).toNat = 1 from rfl] at first second
  rw [List.map_eq_nil_iff.mp second_page] at second
  rw [rows] at first
  simp only [is,List.length_singleton,if_true,List.getLast?_singleton,Option.map_some] at first
  exact ⟨_,_,_,_,Walked.turns .start first,second,rfl⟩

/-- The cursor of the note under one filter and under the other. -/
def noteMinted (filter : MemoryFilter) : Minted := ⟨key,noteCursor.position,scope,filter⟩

theorem note_uncollided : Uncollided signing (noteMinted everything) (noteMinted activeOnly) := by
  refine ⟨fun same => absurd same ?_,fun same => rfl,fun same => absurd same ?_⟩ <;> decide +kernel

/-- The note is listed once though another is captured between the pages, and the cursor
    of its page is refused under another filter. -/
theorem pages_exactly_once_notes :
    signing.Lawful ∧ Admissible 1 ∧ System.Run (system textOf) (fun _ _ => True) twoNotes ∧
      (∃ all, Finished signing key scope activeOnly 1 (fun read => (reads read).db) 1 all ∧
        (all.map Memory.id).count noteId = 1) ∧
      (∃ last all, Finished signing key scope activeOnly 1 (fun _ => (reads 1).db) last all ∧
        (all.map Memory.id).count secondMemoryId = 1) ∧
      Cursor.decode signing (handedOut signing key scope activeOnly noteCursor) key (scopeId sha256 scope) everything =
        .error unsigned := by
  have admissible : Admissible 1 := by decide
  obtain ⟨committed,once,ends,sealed'⟩ := pages_exactly_once signing_lawful key scope activeOnly admissible run_twoNotes
  obtain ⟨all,finished⟩ := notes_finished
  obtain ⟨last,given,still,-⟩ := (ends _ (reads_inRun 1)).ends
  refine ⟨signing_lawful,admissible,run_twoNotes,⟨all,finished,?_⟩,⟨last,given,still,?_⟩,?_⟩
  · exact (once reads reads_inRun).complete finished noteId note_throughout
  · have present : ∃ row ∈ (reads 1).db.memories, row.id = secondMemoryId ∧ matching scope activeOnly row = true := by
      decide +kernel
    have paged := committed (fun _ => (reads 1).db) ⟨_,reads_inRun 1,rfl⟩ (fun _ => ⟨[],rfl⟩)
    exact paged.complete still secondMemoryId fun _ _ => present
  · have carries : signing.decodeText (handedOut signing key scope activeOnly noteCursor) =
        some ((noteMinted everything).position ++ (noteMinted activeOnly).tag signing) := signing_lawful.texts _
    exact (sealed'.elsewhere rfl (length_position noteCursor) carries note_uncollided (by decide)).1

end Sample

end Aicortex.MemoryListing
