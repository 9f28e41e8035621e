import Aicortex.Lifecycle

/-!
What an erasure leaves marked. One memory is erased, and in a cascade the memories that
name it as a parent with it; the marks on what was derived are keyed by the one memory.
The marks are complete exactly when what names a swept memory names the erased one too.
-/

namespace Aicortex.DerivedMarks
open Aicortex.Text Aicortex.CivilTime Aicortex.Memories Aicortex.Schema Aicortex.ClaimRepo Aicortex.Erasure
open Aicortex.Store
open Lib.Tables Lib.Outcome
open Aicortex.Claims hiding Unit
set_option linter.unusedSimpArgs false

/-! ### The marks and what they depend on -/

/-- A memory that was live before a transaction and is a tombstone after it. -/
def Tombstoned (before after : Database) (id : MemoryId) : Prop :=
  (∃ row ∈ before.memories, row.id = id ∧ row.live = true) ∧ ∃ row ∈ after.memories, row.id = id ∧ row.live = false

/-- Everything live that was derived from a memory the transaction made a tombstone
    says so. -/
structure MarksDerivatives (before after : Database) : Prop where
  memories : ∀ row ∈ after.memories, row.live = true → ∀ edge ∈ after.derivations, edge.memoryId = row.id →
    Tombstoned before after edge.parentId → row.originErased = true
  claims : ∀ row ∈ after.claims, ∀ source ∈ after.sources, source.claimId = row.claimId →
    Tombstoned before after source.source → row.originErased = true ∨ row.erased = true

/-- The live memories an erasure is after: the one asked for and, in a cascade, those
    that named it as a parent when the erasure read them. -/
def Doomed (read db : Database) (scope : Scope) (target : MemoryId) (cascade : Bool) (id : MemoryId) : Prop :=
  (∃ row ∈ db.memories, row.id = id ∧ row.scope = scope ∧ row.live = true) ∧
    (id = target ∨ (cascade = true ∧ derives read scope target id = true))

/-- What is live, carries no mark yet and names a doomed memory names the target. -/
structure NamesTarget (read db : Database) (scope : Scope) (target : MemoryId) (cascade : Bool) : Prop where
  memories : ∀ row ∈ db.memories, row.live = true → row.originErased = false →
    ¬ Doomed read db scope target cascade row.id → ∀ edge ∈ db.derivations, edge.memoryId = row.id →
    Doomed read db scope target cascade edge.parentId → derives db scope target row.id = true
  claims : ∀ row ∈ db.claims, row.erased = false → row.originErased = false →
    ∀ source ∈ db.sources, source.claimId = row.claimId → Doomed read db scope target cascade source.source →
    cites db scope target row.claimId = true

/-! ### What is prepared -/

theorem shell_some {db : Database} {scope : Scope} {id : MemoryId} {found : Shell}
    (read : shell db scope id = some found) :
    found.id = id ∧ ∃ row ∈ db.memories, row.id = id ∧ row.scope = scope ∧ row.live = true := by
  unfold shell at read
  obtain ⟨row,matched,rfl⟩ := Option.map_eq_some_iff.mp read
  have chosen := List.find?_some matched
  simp only [MemoryRepo.ofScope,Bool.and_eq_true,beq_iff_eq] at chosen
  exact ⟨chosen.1.2,row,List.mem_of_find?_eq_some matched,chosen.1.2,chosen.1.1,chosen.2⟩

theorem shell_of_live {db : Database} {row : MemoryRow} (member : row ∈ db.memories) (live : row.live = true) :
    ∃ found, shell db row.scope row.id = some found := by
  have matched : (db.memories.find? (fun other => MemoryRepo.ofScope row.scope row.id other && other.live)).isSome := by
    rw [List.find?_isSome]
    exact ⟨row,member,by simp [MemoryRepo.ofScope,live]⟩
  obtain ⟨other,found⟩ := Option.isSome_iff_exists.mp matched
  exact ⟨Shell.of other,by rw [shell,found,Option.map_some]⟩

theorem mem_derivedOf {db : Database} {scope : Scope} {parent child : MemoryId} :
    child ∈ derivedOf db scope parent ↔ derives db scope parent child = true := by
  simp only [derivedOf,derives,List.mem_map,List.mem_filter,List.any_eq_true,Bool.and_eq_true,beq_iff_eq]
  constructor
  · rintro ⟨row,⟨member,inScope,named⟩,rfl⟩
    exact ⟨row,member,⟨inScope,named⟩,rfl⟩
  · rintro ⟨row,member,⟨inScope,named⟩,rfl⟩
    exact ⟨row,⟨member,inScope,named⟩,rfl⟩

/-- States read one after another, with anything committed between the reads and after
    the last of them. -/
structure ReadsBefore (fingerprint : Memory → String) (reads : Nat → Database) (db : Database) : Prop where
  begun : Reachable fingerprint (reads 0)
  onward : ∀ n, ∃ txns, commitAll fingerprint (reads n) txns = .ok (reads (n + 1))
  since : ∀ n, ∃ txns, commitAll fingerprint (reads n) txns = .ok db

section
variable {fingerprint : Memory → String} {reads : Nat → Database} {db next : Database} {scope : Scope}
  {target : MemoryId} {cascade : Bool} {now : UnixSeconds} {prepared : PreparedErasure}

theorem ReadsBefore.advances (earlier : ReadsBefore fingerprint reads db) (n : Nat) : Advances (reads n) db := by
  obtain ⟨txns,meanwhile⟩ := earlier.since n
  exact commitAll_advances meanwhile

theorem ReadsBefore.step (earlier : ReadsBefore fingerprint reads db) (n : Nat) : Advances (reads n) (reads (n + 1)) := by
  obtain ⟨txns,between⟩ := earlier.onward n
  exact commitAll_advances between

theorem ReadsBefore.later (earlier : ReadsBefore fingerprint reads db) (n m : Nat) :
    Advances (reads n) (reads (n + m)) := by
  induction m with
  | zero => exact .refl _
  | succ m ih => exact ih.trans (earlier.step (n + m))

theorem ReadsBefore.sound (earlier : ReadsBefore fingerprint reads db) (n : Nat) : Sound (reads n) := by
  have onward := earlier.later 0 n
  rw [Nat.zero_add] at onward
  exact onward.sound (reachable_sound earlier.begun)

/-- The shells are those of the target and, in a cascade, of what named it as a parent,
    as far as each was live when it was read. -/
theorem prepareErase_ok (ready : Lifecycle.prepareErase reads scope target cascade now = .ok prepared) :
    prepared.scope = scope ∧ prepared.target = target ∧ (∃ found ∈ prepared.shells, found.id = target) ∧
      (∀ found ∈ prepared.shells, found.id = target ∨ (cascade = true ∧ derives (reads 2) scope target found.id = true)) ∧
      (cascade = true → ∀ id, derives (reads 2) scope target id = true →
        (∀ later, ∃ row ∈ (reads (2 + later)).memories, row.id = id ∧ row.scope = scope ∧ row.live = true) →
        ∃ found ∈ prepared.shells, found.id = id) := by
  unfold Lifecycle.prepareErase at ready
  split at ready
  · cases ready
  split at ready
  · cases ready
  · next root readRoot =>
    obtain rfl := Except.ok.inj ready
    obtain ⟨noteId,-⟩ := shell_some readRoot
    refine ⟨rfl,rfl,⟨root,List.mem_cons_self,noteId⟩,?_,?_⟩
    · intro found member
      rcases List.mem_cons.mp member with rfl | later
      · exact .inl noteId
      · obtain ⟨⟨child,place⟩,childIn,readChild⟩ := List.mem_filterMap.mp later
        obtain ⟨rfl,-⟩ := shell_some readChild
        have listed := List.fst_mem_of_mem_zipIdx childIn
        refine .inr ?_
        cases cascade with
        | false => cases listed
        | true => exact ⟨rfl,mem_derivedOf.mp listed⟩
    · rintro rfl id derived lives
      obtain ⟨place,bound,placed⟩ := List.mem_iff_getElem.mp (mem_derivedOf.mpr derived)
      obtain ⟨row,member,rfl,rfl,live⟩ := lives (1 + place)
      obtain ⟨found,readRow⟩ := shell_of_live member live
      refine ⟨found,List.mem_cons_of_mem _ (List.mem_filterMap.mpr ⟨(row.id,place),?_,?_⟩),(shell_some readRow).1⟩
      · rw [List.mem_zipIdx_iff_getElem?,if_pos rfl,List.getElem?_eq_getElem bound,placed]
      · rw [show 3 + place = 2 + (1 + place) by omega]
        exact readRow

/-- What names a memory as a parent when the parents are read, and is live in the end,
    was live at every read since. -/
theorem live_since (earlier : ReadsBefore fingerprint reads db) {row : MemoryRow} (member : row ∈ db.memories)
    (live : row.live = true) (derived : derives (reads 2) scope target row.id = true) (later : Nat) :
    ∃ old ∈ (reads (2 + later)).memories, old.id = row.id ∧ old.scope = scope ∧ old.live = true := by
  obtain ⟨edge,edgeIn,chosen⟩ := List.any_eq_true.mp derived
  simp only [Bool.and_eq_true,beq_iff_eq] at chosen
  obtain ⟨child,childIn,childId,childScope⟩ := (earlier.sound 2).derived edge edgeIn
  obtain ⟨old,oldIn,oldId,turned⟩ := (earlier.later 2 later).memories.stays childIn
  obtain ⟨last,lastIn,lastId,turnedOn⟩ := (earlier.advances (2 + later)).memories.stays oldIn
  have sound := (earlier.advances 0).sound (earlier.sound 0)
  have sameId : old.id = row.id := oldId.trans (childId.trans chosen.2)
  obtain rfl := sound.unique.eq_of_key lastIn member (lastId.trans sameId)
  refine ⟨old,oldIn,sameId,turned.scope.trans (childScope.trans chosen.1.1),?_⟩
  by_contra dead
  rw [turnedOn.final (Bool.eq_false_iff.mpr dead)] at live
  cases live

/-- The shells name, of the live rows, those the erasure is after. -/
theorem named_iff (earlier : ReadsBefore fingerprint reads db)
    (ready : Lifecycle.prepareErase reads scope target cascade now = .ok prepared) {row : MemoryRow}
    (member : row ∈ db.memories) (live : row.live = true) :
    named scope prepared.shells row = true ↔ Doomed (reads 2) db scope target cascade row.id := by
  obtain ⟨-,-,root,within,complete⟩ := prepareErase_ok ready
  simp only [named,Bool.and_eq_true,beq_iff_eq,List.any_eq_true]
  constructor
  · rintro ⟨inScope,found,foundIn,sameId⟩
    refine ⟨⟨row,member,rfl,inScope,live⟩,?_⟩
    rw [← sameId]
    exact within found foundIn
  · rintro ⟨⟨other,otherIn,sameId,inScope,-⟩,swept⟩
    have sound := (earlier.advances 0).sound (earlier.sound 0)
    obtain rfl := sound.unique.eq_of_key otherIn member sameId
    refine ⟨inScope,?_⟩
    rcases swept with isTarget | ⟨cascades,derived⟩
    · rw [isTarget]
      exact root
    · exact complete cascades _ derived (live_since earlier member live derived)

/-! ### What the commit leaves -/

/-- A memory row after the tombstones and the marks. -/
def settle (prepared : PreparedErasure) (db : Database) (row : MemoryRow) : MemoryRow :=
  let buried := bury prepared.scope prepared.shells prepared.now row
  if buried.scope == prepared.scope && !buried.originErased && buried.live &&
      derives (stageSweep prepared.scope prepared.shells db) prepared.scope prepared.target buried.id then buried.marked
  else buried

theorem eraseRows_memories (prepared : PreparedErasure) (db : Database) :
    (eraseRows prepared db).memories = db.memories.map (settle prepared db) := by
  rw [eraseRows_eq]
  simp only [updateWhere,List.map_map]
  rfl

theorem settle_spec (prepared : PreparedErasure) (db : Database) (row : MemoryRow) :
    (settle prepared db row).id = row.id ∧
      (settle prepared db row).live = (row.live && !named prepared.scope prepared.shells row) ∧
      (settle prepared db row).originErased = (row.originErased || (row.scope == prepared.scope &&
        (row.live && !named prepared.scope prepared.shells row) &&
        derives (stageSweep prepared.scope prepared.shells db) prepared.scope prepared.target row.id)) := by
  obtain ⟨sameId,sameScope,sameMark,lives⟩ := bury_spec prepared.scope prepared.shells prepared.now row
  simp only [settle,sameId,sameScope,sameMark,lives]
  by_cases chosen : (row.scope == prepared.scope && !row.originErased &&
      (row.live && !named prepared.scope prepared.shells row) &&
      derives (stageSweep prepared.scope prepared.shells db) prepared.scope prepared.target row.id) = true
  · rw [if_pos chosen]
    simp only [Bool.and_eq_true,Bool.not_eq_true'] at chosen
    refine ⟨sameId,lives,?_⟩
    simp [MemoryRow.marked,chosen]
  · rw [if_neg chosen]
    refine ⟨sameId,lives,?_⟩
    rw [sameMark]
    cases marked : row.originErased with
    | true => rfl
    | false => simpa [marked] using chosen

/-- A derivation of a row that no shell names is not swept. -/
theorem edge_kept (sound : Sound db) {shells : List Shell} {row : MemoryRow} (member : row ∈ db.memories)
    (spared : named scope shells row = false) {edge : DerivationRow} (edgeIn : edge ∈ db.derivations)
    (ofRow : edge.memoryId = row.id) : edge ∈ (stageSweep scope shells db).derivations := by
  refine mem_deleteWhere.mpr ⟨edgeIn,?_⟩
  obtain ⟨child,childIn,childId,childScope⟩ := sound.derived edge edgeIn
  obtain rfl := sound.unique.eq_of_key childIn member (childId.trans ofRow)
  rw [← childScope,ofRow]
  exact spared

theorem derives_swept (sound : Sound db) {shells : List Shell} {row : MemoryRow} (member : row ∈ db.memories)
    (spared : named scope shells row = false) :
    derives (stageSweep scope shells db) scope target row.id = derives db scope target row.id := by
  rw [Bool.eq_iff_iff]
  simp only [derives,List.any_eq_true,Bool.and_eq_true,beq_iff_eq]
  constructor
  · rintro ⟨edge,edgeIn,chosen⟩
    exact ⟨edge,(mem_deleteWhere.mp edgeIn).1,chosen⟩
  · rintro ⟨edge,edgeIn,chosen⟩
    exact ⟨edge,edge_kept sound member spared edgeIn chosen.2,chosen⟩

/-- A memory with a derivation in a scope is in the scope. -/
theorem derives_scope (sound : Sound db) {row : MemoryRow} (member : row ∈ db.memories)
    (derived : derives db scope target row.id = true) : row.scope = scope := by
  obtain ⟨edge,edgeIn,chosen⟩ := List.any_eq_true.mp derived
  simp only [Bool.and_eq_true,beq_iff_eq] at chosen
  obtain ⟨child,childIn,childId,childScope⟩ := sound.derived edge edgeIn
  obtain rfl := sound.unique.eq_of_key childIn member (childId.trans chosen.2)
  exact childScope.trans chosen.1.1

theorem cites_scope (sound : Sound db) {row : ClaimRow} (member : row ∈ db.claims)
    (cited : cites db scope target row.claimId = true) : row.scope = scope := by
  obtain ⟨source,sourceIn,chosen⟩ := List.any_eq_true.mp cited
  simp only [Bool.and_eq_true,beq_iff_eq] at chosen
  obtain ⟨claim,claimIn,claimId,claimScope⟩ := sound.cited source sourceIn
  obtain rfl := sound.consistent.ids.eq_of_key claimIn member (claimId.trans chosen.1.2)
  exact claimScope.trans chosen.1.1

/-- The claims an erasure changes are those of the scope that cite the target, and each
    of them ends up marked. -/
theorem sourceClaims_claims (prepared : PreparedErasure) (db : Database) :
    ∃ change : ClaimRow → ClaimRow, (∀ row, (change row).claimId = row.claimId ∧ (change row).originErased = true) ∧
      (sourceClaims prepared db).claims = updateWhere
        (fun row => row.scope == prepared.scope && !row.erased && cites db prepared.scope prepared.target row.claimId)
        change db.claims := by
  unfold sourceClaims
  split_ifs
  · exact ⟨ClaimRow.tombstone,fun _ => ⟨rfl,rfl⟩,rfl⟩
  · exact ⟨ClaimRow.marked,fun _ => ⟨rfl,rfl⟩,rfl⟩

theorem tombstoned_iff (earlier : ReadsBefore fingerprint reads db)
    (ready : Lifecycle.prepareErase reads scope target cascade now = .ok prepared)
    (rows : next.memories = db.memories.map (settle prepared db)) {id : MemoryId} :
    Tombstoned db next id ↔ Doomed (reads 2) db scope target cascade id := by
  obtain ⟨sameScope,-,-,-,-⟩ := prepareErase_ok ready
  have sound := (earlier.advances 0).sound (earlier.sound 0)
  constructor
  · rintro ⟨⟨row,member,rfl,live⟩,after,afterIn,sameId,dead⟩
    rw [rows] at afterIn
    obtain ⟨old,oldIn,rfl⟩ := List.mem_map.mp afterIn
    obtain ⟨settledId,settledLive,-⟩ := settle_spec prepared db old
    obtain rfl := sound.unique.eq_of_key oldIn member (settledId.symm.trans sameId)
    rw [settledLive,live,Bool.true_and,Bool.not_eq_false',sameScope] at dead
    exact (named_iff earlier ready member live).mp dead
  · intro doomed
    obtain ⟨row,member,rfl,-,live⟩ := doomed.1
    have buried := (named_iff earlier ready member live).mpr doomed
    obtain ⟨settledId,settledLive,-⟩ := settle_spec prepared db row
    refine ⟨⟨row,member,rfl,live⟩,settle prepared db row,?_,settledId,?_⟩
    · rw [rows]
      exact List.mem_map_of_mem member
    · rw [settledLive,sameScope,buried]
      simp

/-- A live row is marked in the end exactly when it was before, or names the target. -/
theorem settled_mark (sound : Sound db) {row : MemoryRow} (member : row ∈ db.memories)
    (survives : (settle prepared db row).live = true) :
    (settle prepared db row).originErased = true ↔
      row.originErased = true ∨ derives db prepared.scope prepared.target row.id = true := by
  obtain ⟨-,settledLive,settledMark⟩ := settle_spec prepared db row
  rw [settledLive] at survives
  have spared : named prepared.scope prepared.shells row = false := by
    simp only [Bool.and_eq_true,Bool.not_eq_true'] at survives
    exact survives.2
  rw [settledMark,survives,derives_swept sound member spared]
  simp only [Bool.or_eq_true,Bool.and_eq_true,beq_iff_eq]
  constructor
  · rintro (marked | ⟨-,derived⟩)
    · exact .inl marked
    · exact .inr derived
  · rintro (marked | derived)
    · exact .inl marked
    · exact .inr ⟨⟨derives_scope sound member derived,trivial⟩,derived⟩

/-- The memories: those spared are marked by the sweep's edges to the target. -/
theorem memories_marked_iff (earlier : ReadsBefore fingerprint reads db)
    (ready : Lifecycle.prepareErase reads prepared.scope prepared.target cascade now = .ok prepared)
    (rows : next.memories = db.memories.map (settle prepared db))
    (edges : next.derivations = (stageSweep prepared.scope prepared.shells db).derivations)
    {gone : MemoryId → Prop} (doomed : gone = Doomed (reads 2) db prepared.scope prepared.target cascade) :
    (∀ row ∈ next.memories, row.live = true → ∀ edge ∈ next.derivations, edge.memoryId = row.id → gone edge.parentId →
        row.originErased = true) ↔
      ∀ row ∈ db.memories, row.live = true → row.originErased = false → ¬ gone row.id →
        ∀ edge ∈ db.derivations, edge.memoryId = row.id → gone edge.parentId →
        derives db prepared.scope prepared.target row.id = true := by
  have sound := (earlier.advances 0).sound (earlier.sound 0)
  have spared : ∀ row ∈ db.memories, row.live = true → (named prepared.scope prepared.shells row = false ↔ ¬ gone row.id) := by
    intro row member live
    rw [doomed,← named_iff earlier ready member live,Bool.not_eq_true]
  rw [rows,edges]
  constructor
  · intro complete row member live unmarked apart edge edgeIn ofRow parent
    obtain ⟨settledId,settledLive,-⟩ := settle_spec prepared db row
    have kept := (spared row member live).mpr apart
    have survives : (settle prepared db row).live = true := by
      rw [settledLive,live,kept]
      rfl
    have marked := complete (settle prepared db row) (List.mem_map_of_mem member) survives edge
      (edge_kept sound member kept edgeIn ofRow) (ofRow.trans settledId.symm) parent
    rcases (settled_mark sound member survives).mp marked with before | derived
    · rw [unmarked] at before
      cases before
    · exact derived
  · intro keyed after afterIn survives edge edgeIn ofRow parent
    obtain ⟨row,member,rfl⟩ := List.mem_map.mp afterIn
    obtain ⟨settledId,settledLive,-⟩ := settle_spec prepared db row
    refine (settled_mark sound member survives).mpr ?_
    rw [settledLive,Bool.and_eq_true,Bool.not_eq_true'] at survives
    by_cases marked : row.originErased = true
    · exact .inl marked
    · exact .inr (keyed row member survives.1 (Bool.eq_false_iff.mpr marked) ((spared row member survives.1).mp survives.2)
        edge (mem_deleteWhere.mp edgeIn).1 (ofRow.trans settledId) parent)

/-- The claims: those that cite the target in the scope are changed, and no others. -/
theorem claims_marked_iff (sound : Sound db) (claims : next.claims = (sourceClaims prepared db).claims)
    (sources : next.sources = db.sources) (gone : MemoryId → Prop) :
    (∀ row ∈ next.claims, ∀ source ∈ next.sources, source.claimId = row.claimId → gone source.source →
        row.originErased = true ∨ row.erased = true) ↔
      ∀ row ∈ db.claims, row.erased = false → row.originErased = false →
        ∀ source ∈ db.sources, source.claimId = row.claimId → gone source.source →
        cites db prepared.scope prepared.target row.claimId = true := by
  obtain ⟨change,marks,turned⟩ := sourceClaims_claims prepared db
  rw [claims,turned,sources]
  constructor
  · intro complete row member alive unmarked source sourceIn ofRow parent
    by_contra uncited
    have marked := complete row (mem_updateWhere.mpr (.inl ⟨member,by simp [uncited]⟩)) source sourceIn ofRow parent
    simp [alive,unmarked] at marked
  · intro keyed after afterIn source sourceIn ofRow parent
    rcases mem_updateWhere.mp afterIn with ⟨member,skipped⟩ | ⟨old,-,-,rfl⟩
    · by_contra missed
      simp only [not_or,Bool.not_eq_true] at missed
      have cited := keyed after member missed.2 missed.1 source sourceIn ofRow parent
      simp [cites_scope sound member cited,missed.2,cited] at skipped
    · exact .inl (marks old).2

end

/-- An erasure, each of whose reads is of a reachable store of its own, committed after any
    transactions, marks everything derived from what it makes a tombstone exactly when all
    of that names the erased memory itself. -/
theorem erase_marks_iff {fingerprint : Memory → String} {reads : Nat → Database} {db next : Database} {scope : Scope}
    {target : MemoryId} {cascade : Bool} {now : UnixSeconds} {prepared : PreparedErasure}
    (earlier : ReadsBefore fingerprint reads db)
    (ready : Lifecycle.prepareErase reads scope target cascade now = .ok prepared)
    (committed : commitErase prepared db = .ok next) :
    MarksDerivatives db next ↔ NamesTarget (reads 2) db scope target cascade := by
  have sound := (earlier.advances 0).sound (earlier.sound 0)
  obtain ⟨rfl,rfl,-,-,-⟩ := prepareErase_ok ready
  obtain ⟨-,changed,-⟩ := commitErase_ok committed
  have rows : next.memories = db.memories.map (settle prepared db) := by rw [changed,← eraseRows_memories]
  have edges : next.derivations = (stageSweep prepared.scope prepared.shells db).derivations := by
    rw [changed,eraseRows_eq]
  have claims : next.claims = (sourceClaims prepared db).claims := by rw [changed,eraseRows_eq]
  have sources : next.sources = db.sources := by
    rw [changed,eraseRows_eq]
    exact (sourceClaims_same prepared db).2.2.1
  have doomed : Tombstoned db next = Doomed (reads 2) db prepared.scope prepared.target cascade :=
    funext fun id => propext (tombstoned_iff earlier ready rows)
  have memories := memories_marked_iff earlier ready rows edges doomed
  have cited := claims_marked_iff sound claims sources (Tombstoned db next)
  rw [doomed] at memories cited
  constructor
  · rintro ⟨allMemories,allClaims⟩
    rw [doomed] at allMemories allClaims
    exact ⟨memories.mp allMemories,cited.mp allClaims⟩
  · rintro ⟨ofMemories,ofClaims⟩
    refine ⟨?_,?_⟩
    · rw [doomed]
      exact memories.mpr ofMemories
    · rw [doomed]
      exact cited.mpr ofClaims

namespace Sample
open Claims.Sample Memories.Sample Store.Sample

def summaryId : MemoryId := secondMemoryId
def digestId : MemoryId := thirdMemoryId

/-- A note, a summary of it, and a summary of the summary. -/
def summaries : List Txn :=
  [capture (note noteId "seat 12A" []),capture (note summaryId "a window seat" [noteId]),
    capture (note digestId "likes the window" [summaryId])]

def stored (txns : List Txn) : Database :=
  match commitAll textOf .empty txns with
  | .ok db => db
  | .error _ => .empty

/-- The note is read before its summary is there, and the summary before a digest of both. -/
def reads (n : Nat) : Database := stored (if n < 2 then summaries.take 1 else summaries.take 2)

def digested : Database :=
  stored (summaries.take 2 ++ [capture (note digestId "a window seat, 12A" [noteId,summaryId])])

theorem reads_before : ReadsBefore textOf reads digested where
  begun := ⟨summaries.take 1,rfl⟩
  onward
    | 0 => ⟨[],rfl⟩
    | 1 => ⟨[capture (note summaryId "a window seat" [noteId])],rfl⟩
    | _ + 2 => ⟨[],rfl⟩
  since
    | 0 | 1 => ⟨[capture (note summaryId "a window seat" [noteId]),
        capture (note digestId "a window seat, 12A" [noteId,summaryId])],rfl⟩
    | _ + 2 => ⟨[capture (note digestId "a window seat, 12A" [noteId,summaryId])],rfl⟩

/-- The cascade takes the note and its summary, and the digest, captured since, is marked
    by the note it names. -/
theorem erase_marks_iff_summaries :
    ∃ prepared next, Lifecycle.prepareErase reads scope noteId true 20 = .ok prepared ∧
      commitErase prepared digested = .ok next ∧
      next.memories.map (fun row => (row.id,row.live,row.originErased)) =
        [(noteId,false,false),(summaryId,false,false),(digestId,true,true)] ∧
      MarksDerivatives digested next := by
  refine ⟨_,_,rfl,rfl,by decide,
    (@erase_marks_iff textOf reads digested _ scope noteId true 20 _ reads_before rfl rfl).mpr ⟨?_,?_⟩⟩
  · unfold Doomed
    decide
  · unfold Doomed
    decide

/-- A cascade takes the summary with the note, and what was made of the summary is not
    marked. -/
theorem cascade_leaves_grandchild_unmarked :
    ∃ db prepared next, commitAll textOf .empty summaries = .ok db ∧
      Lifecycle.prepareErase (fun _ => db) scope noteId true 20 = .ok prepared ∧ commitErase prepared db = .ok next ∧
      ¬ MarksDerivatives db next := by
  refine ⟨_,_,_,rfl,rfl,rfl,?_⟩
  intro complete
  have marked := complete.memories _ (List.mem_cons_of_mem _ (List.mem_cons_of_mem _ List.mem_cons_self)) rfl _
    List.mem_cons_self rfl ⟨⟨_,List.mem_cons_of_mem _ List.mem_cons_self,rfl,rfl⟩,
      ⟨_,List.mem_cons_of_mem _ List.mem_cons_self,rfl,rfl⟩⟩
  cases marked

end Sample

end Aicortex.DerivedMarks
