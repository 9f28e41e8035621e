import Aicortex.ClaimRepo

/-!
What every committed run keeps true of the claim tables: claims are unique by id and
by number, the number of a claim is below the scope's counter, a live row carries the
document its columns were written from, an erased row has lost its subject key, a
stored document names the claim its row is keyed by, and a relation is in the scope of
the claim it starts at.
-/

namespace Aicortex.ClaimTables
open Aicortex.Text Aicortex.CivilTime Aicortex.History Aicortex.ClaimGate Aicortex.Schema Aicortex.ClaimRepo
open Lib.Tables Lib.Outcome
open Aicortex.Claims hiding Unit
set_option linter.unusedSimpArgs false

/-- A row whose columns agree with its document, or a tombstone. -/
structure Faithful (row : ClaimRow) : Prop where
  live : row.erased = false → ∃ claim, row.claim = some claim ∧ claim.id = row.claimId ∧ claim.scope = row.scope ∧
    row.admission.sourcing = row.sourcing
  blank : row.erased = true → row.subjectKey = ""

structure Consistent (db : Database) : Prop where
  ids : UniqueBy ClaimRow.claimId db.claims
  numbers : UniqueBy (fun row => (row.scope,row.txSeq)) db.claims
  counted : ∀ row ∈ db.claims, 0 < row.txSeq ∧ row.txSeq ≤ db.txCounter row.scope
  bounded : ∀ scope, db.txCounter scope ≤ maxInteger
  faithful : ∀ row ∈ db.claims, Faithful row
  related : ∀ row ∈ db.relations, ∀ relation, row.document = some relation → relation.source = row.fromClaim
  owned : ∀ row ∈ db.relations, ∃ claim ∈ db.claims, claim.claimId = row.fromClaim ∧ claim.scope = row.scope
  retracted : ∀ row ∈ db.retractions, row.document.target = row.target

theorem empty_consistent : Consistent .empty := by
  constructor <;> simp [Database.empty,UniqueBy]

/-- A relation is in the scope of any row of the claim it starts at. -/
theorem Consistent.relation_scope {db : Database} (consistent : Consistent db) {row : RelationRow} {claim : ClaimRow}
    (rowIn : row ∈ db.relations) (claimIn : claim ∈ db.claims) (starts : row.fromClaim = claim.claimId) :
    row.scope = claim.scope := by
  obtain ⟨owner,ownerIn,named,inScope⟩ := consistent.owned row rowIn
  rw [← inScope,consistent.ids.eq_of_key ownerIn claimIn (named.trans starts)]

/-! ### One transaction -/

private theorem counter_le {counter : Scope → Nat} {scope other : Scope} (room : counter scope < maxInteger)
    (bounded : ∀ scope, counter scope ≤ maxInteger) :
    counter other ≤ Function.update counter scope (counter scope + 1) other ∧
      Function.update counter scope (counter scope + 1) other ≤ maxInteger := by
  by_cases same : other = scope
  · subst same
    simp only [Function.update_self]
    omega
  · rw [Function.update_of_ne same]
    exact ⟨le_refl _,bounded other⟩

theorem appendItem_consistent {at' : UnixSeconds} {db next : Database} {item : ClaimAppend} (consistent : Consistent db)
    (executed : appendItem at' db item = .ok next) : Consistent next := by
  obtain ⟨room,fresh,unused,rfl⟩ := appendItem_ok executed
  have grows : ∀ scope, _ := fun scope => @counter_le db.txCounter item.admitted.claim.scope scope room consistent.bounded
  constructor
  · exact consistent.ids.insert fresh
  · exact consistent.numbers.insert unused
  · intro row member
    rcases List.mem_append.mp member with old | added
    · obtain ⟨positive,below⟩ := consistent.counted row old
      exact ⟨positive,le_trans below (grows row.scope).1⟩
    · obtain rfl := List.mem_singleton.mp added
      simp [ClaimAppend.claimRow]
  · intro scope
    exact (grows scope).2
  · intro row member
    rcases List.mem_append.mp member with old | added
    · exact consistent.faithful row old
    · obtain rfl := List.mem_singleton.mp added
      exact ⟨fun _ => ⟨item.admitted.claim,rfl,rfl,rfl,rfl⟩,fun erased => by simp [ClaimAppend.claimRow] at erased⟩
  · intro row member relation document
    rcases List.mem_append.mp member with old | added
    · exact consistent.related row old relation document
    · obtain ⟨built,-,rfl⟩ := List.mem_map.mp added
      cases document
      rfl
  · intro row member
    rcases List.mem_append.mp member with old | added
    · obtain ⟨claim,inside,named,inScope⟩ := consistent.owned row old
      exact ⟨claim,List.mem_append_left _ inside,named,inScope⟩
    · obtain ⟨relation,carried,rfl⟩ := List.mem_map.mp added
      exact ⟨_,List.mem_append_right _ (List.mem_singleton_self _),(item.grounded relation carried).symm,rfl⟩
  · exact consistent.retracted

theorem recordAdmissions_consistent {at' : UnixSeconds} {batch : List AdmittedClaim} {db next : Database}
    (consistent : Consistent db) (executed : batch.foldlM (recordAdmission at') db = .ok next) : Consistent next := by
  obtain ⟨-,rfl⟩ := recordAdmissions_ok executed
  exact ⟨consistent.ids,consistent.numbers,consistent.counted,consistent.bounded,consistent.faithful,consistent.related,
    consistent.owned,consistent.retracted⟩

theorem retract_consistent {scope : Scope} {retraction : Retraction} {db next : Database} (consistent : Consistent db)
    (executed : retract scope retraction db = .ok next) : Consistent next := by
  obtain ⟨room,rfl⟩ := retract_ok executed
  have grows : ∀ other, _ := fun other => @counter_le db.txCounter scope other room consistent.bounded
  refine ⟨consistent.ids,consistent.numbers,?_,?_,consistent.faithful,consistent.related,consistent.owned,?_⟩
  · intro row member
    obtain ⟨positive,below⟩ := consistent.counted row member
    exact ⟨positive,le_trans below (grows row.scope).1⟩
  · intro other
    exact (grows other).2
  · intro row member
    rcases List.mem_append.mp member with old | added
    · exact consistent.retracted row old
    · obtain rfl := List.mem_singleton.mp added
      rfl

/-- A change of claim rows that keeps what they are known by. -/
structure Identified (change : ClaimRow → ClaimRow) : Prop where
  id : ∀ row, (change row).claimId = row.claimId
  scope : ∀ row, (change row).scope = row.scope
  number : ∀ row, (change row).txSeq = row.txSeq
  faithful : ∀ row, Faithful row → Faithful (change row)

theorem tombstone_identified : Identified ClaimRow.tombstone :=
  ⟨fun _ => rfl,fun _ => rfl,fun _ => rfl,fun _ _ => ⟨fun live => by simp [ClaimRow.tombstone] at live,fun _ => rfl⟩⟩

theorem marked_identified : Identified ClaimRow.marked :=
  ⟨fun _ => rfl,fun _ => rfl,fun _ => rfl,fun _ faithful => ⟨faithful.live,faithful.blank⟩⟩

/-- Changing claim rows in place, losing relations or their documents and losing
    retractions keeps the tables consistent. -/
theorem Consistent.rewrite {db next : Database} (consistent : Consistent db) {chosen : ClaimRow → Bool}
    {change : ClaimRow → ClaimRow} (identified : Identified change) (counter : next.txCounter = db.txCounter)
    (claims : next.claims = updateWhere chosen change db.claims)
    (relations : ∀ row ∈ next.relations, ∃ old ∈ db.relations, old.fromClaim = row.fromClaim ∧ old.scope = row.scope ∧
      ∀ relation, row.document = some relation → old.document = some relation)
    (retractions : ∀ row ∈ next.retractions, row ∈ db.retractions) : Consistent next := by
  have origin : ∀ row ∈ next.claims, ∃ old ∈ db.claims, old.scope = row.scope ∧ old.txSeq = row.txSeq ∧
      Faithful row := by
    intro row member
    rw [claims] at member
    rcases mem_updateWhere.mp member with ⟨old,-⟩ | ⟨old,inside,-,rfl⟩
    · exact ⟨row,old,rfl,rfl,consistent.faithful row old⟩
    · exact ⟨old,inside,(identified.scope old).symm,(identified.number old).symm,
        identified.faithful old (consistent.faithful old inside)⟩
  constructor
  · rw [claims]
    exact consistent.ids.update chosen identified.id
  · rw [claims]
    exact consistent.numbers.update chosen (fun row => by rw [identified.scope,identified.number])
  · intro row member
    obtain ⟨old,inside,sameScope,sameNumber,-⟩ := origin row member
    rw [counter,← sameScope,← sameNumber]
    exact consistent.counted old inside
  · rw [counter]
    exact consistent.bounded
  · intro row member
    obtain ⟨-,-,-,-,faithful⟩ := origin row member
    exact faithful
  · intro row member relation document
    obtain ⟨old,inside,sameClaim,-,kept⟩ := relations row member
    rw [← sameClaim]
    exact consistent.related old inside relation (kept relation document)
  · intro row member
    obtain ⟨old,inside,sameClaim,sameScope,-⟩ := relations row member
    obtain ⟨claim,stored,named,inScope⟩ := consistent.owned old inside
    refine ⟨if chosen claim then change claim else claim,?_,?_,?_⟩
    · rw [claims]
      exact List.mem_map_of_mem stored
    · split_ifs
      · rw [identified.id,named,sameClaim]
      · rw [named,sameClaim]
    · split_ifs
      · rw [identified.scope,inScope,sameScope]
      · rw [inScope,sameScope]
  · exact fun row member => consistent.retracted row (retractions row member)

theorem scrubbed_kept (chosen : RelationRow → Bool) (rows : List RelationRow) :
    ∀ row ∈ updateWhere chosen RelationRow.scrubbed rows, ∃ old ∈ rows, old.fromClaim = row.fromClaim ∧
      old.scope = row.scope ∧ ∀ relation, row.document = some relation → old.document = some relation := by
  intro row member
  rcases mem_updateWhere.mp member with ⟨old,-⟩ | ⟨old,inside,-,rfl⟩
  · exact ⟨row,old,rfl,rfl,fun _ document => document⟩
  · exact ⟨old,inside,rfl,rfl,fun _ document => by simp [RelationRow.scrubbed] at document⟩

theorem commit_consistent {db next : Database} (consistent : Consistent db) {txn : ClaimTxn}
    (executed : commit db txn = .ok next) : Consistent next := by
  cases txn with
  | propose proposal =>
    obtain rfl := Database.insertProposal_ok executed
    exact ⟨consistent.ids,consistent.numbers,consistent.counted,consistent.bounded,consistent.faithful,
      consistent.related,consistent.owned,consistent.retracted⟩
  | admissions batch at' => exact recordAdmissions_consistent consistent (admitBatch_ok executed)
  | append existing batch at' =>
    obtain ⟨mid,appended,admitted⟩ := append_ok executed
    have kept := foldlM_invariant Consistent (fun _ _ _ _ held stepped => appendItem_consistent held stepped) consistent
      appended
    exact recordAdmissions_consistent kept admitted
  | retract scope retraction => exact retract_consistent consistent executed
  | erase scope subject id =>
    obtain rfl := Except.ok.inj executed
    exact consistent.rewrite tombstone_identified rfl rfl (scrubbed_kept _ _) (fun _ member => member)
  | markSource scope source =>
    obtain rfl := Except.ok.inj executed
    exact consistent.rewrite marked_identified rfl rfl (fun row member => ⟨row,member,rfl,rfl,fun _ document => document⟩)
      (fun _ member => member)
  | eraseSource scope source =>
    obtain rfl := Except.ok.inj executed
    exact consistent.rewrite tombstone_identified rfl rfl (scrubbed_kept _ _) (fun _ member => member)
  | eraseScope scope =>
    obtain rfl := Except.ok.inj executed
    exact consistent.rewrite tombstone_identified rfl rfl
      (fun row member => ⟨row,(mem_deleteWhere.mp member).1,rfl,rfl,fun _ document => document⟩)
      (fun _ member => (mem_deleteWhere.mp member).1)

/-! ### Every run -/

/-- A store reached from the empty one by committed transactions. -/
def Reachable (db : Database) : Prop := ∃ txns, commitAll .empty txns = .ok db

theorem reachable_consistent {db : Database} (reachable : Reachable db) : Consistent db := by
  obtain ⟨txns,executed⟩ := reachable
  exact foldlM_invariant Consistent (fun _ _ _ _ held stepped => commit_consistent held stepped) empty_consistent executed

end Aicortex.ClaimTables
