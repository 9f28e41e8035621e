import Aicortex.Erasure
import Aicortex.ClaimTables

/-!
Runs of the whole store. Any committed transaction may follow any other: claims,
memories, keys, erasures of one memory prepared at any earlier time, and the batches of
scope erasures. Memories and claims are never removed, and an erased one stays erased.
-/

namespace Aicortex.Store
open Aicortex.Text Aicortex.CivilTime Aicortex.Memories Aicortex.Schema Aicortex.ClaimTables Aicortex.Erasure
open Lib.Tables Lib.Outcome
open Aicortex.Claims hiding Unit
set_option linter.unusedSimpArgs false

inductive Txn where
  | claims (txn : ClaimRepo.ClaimTxn)
  | memories (txn : MemoryRepo.MemoryTxn)
  | erase (prepared : PreparedErasure)
  | startScope (scope : Scope) (decisionId : String)
  | drain (scope : Scope) (operation : String) (shells : List Shell) (now : UnixSeconds)
  | deliver (scope : Scope) (target : Option MemoryId) (decisionId : String)

section
variable (fingerprint : Memory → String)

def commit (db : Database) : Txn → Except StoreError Database
  | .claims txn => ClaimRepo.commit db txn
  | .memories txn => MemoryRepo.commit fingerprint db txn
  | .erase prepared => commitErase prepared db
  | .startScope scope decisionId => Erasure.startScope scope decisionId db
  | .drain scope operation shells now => (Erasure.drain scope operation shells now db).map Prod.fst
  | .deliver scope target decisionId => .ok (Erasure.deliver scope target decisionId db)

def commitAll (db : Database) (txns : List Txn) : Except StoreError Database := txns.foldlM (commit fingerprint) db

/-- A store reached from the empty one by committed transactions. -/
def Reachable (db : Database) : Prop := ∃ txns, commitAll fingerprint .empty txns = .ok db

end

/-! ### What a transaction does to the memories -/

/-- A memory keeps its scope, and one that is erased is not brought back. -/
structure MemoryTurns (old new : MemoryRow) : Prop where
  scope : new.scope = old.scope
  final : old.live = false → new.live = false

theorem MemoryTurns.still (row : MemoryRow) : MemoryTurns row row := ⟨rfl,id⟩

theorem MemoryTurns.onward (first second third : MemoryRow) (one : MemoryTurns first second)
    (two : MemoryTurns second third) : MemoryTurns first third :=
  ⟨two.scope.trans one.scope,fun gone => two.final (one.final gone)⟩

/-- The memory table goes on from one state to the next. -/
abbrev MemoriesEvolve (before after : List MemoryRow) : Prop := Evolves MemoryRow.id MemoryTurns before after

theorem memories_trans {before mid after : List MemoryRow} (first : MemoriesEvolve before mid)
    (second : MemoriesEvolve mid after) : MemoriesEvolve before after :=
  Evolves.trans MemoryTurns.onward first second

/-- A change of live rows in place. -/
theorem memories_update {selected : MemoryRow → Bool} {change : MemoryRow → MemoryRow} {rows : List MemoryRow}
    (named : ∀ row, (change row).id = row.id) (placed : ∀ row, (change row).scope = row.scope)
    (guarded : ∀ row ∈ rows, selected row = true → row.live = false → (change row).live = false) :
    MemoriesEvolve rows (updateWhere selected change rows) :=
  Evolves.update MemoryTurns.still selected
    (fun row member chosen => ⟨named row,placed row,guarded row member chosen⟩)

theorem insertMemory_ok {db next : Database} {row : MemoryRow} (executed : MemoryRepo.insertMemory db row = .ok next) :
    (∀ other ∈ db.memories, other.id ≠ row.id) ∧ next = { db with memories := db.memories ++ [row] } := by
  unfold MemoryRepo.insertMemory at executed
  obtain ⟨memories,inserted,executed⟩ := bind_ok_iff.mp executed
  split_ifs at executed
  obtain ⟨free,rfl⟩ := insertRow_ok.mp inserted
  exact ⟨free,(Except.ok.inj executed).symm⟩

theorem fills_derivations : Fills MemoryRepo.insertDerivation (fun row => (row.memoryId,row.parentId))
    (StoreError.constraint "memory_derivation") Database.derivations (fun db rows => { db with derivations := rows }) :=
  ⟨fun _ _ => rfl,fun _ _ => rfl,fun _ _ _ => rfl,fun _ => rfl⟩

theorem insertDerivations_ok {rows : List DerivationRow} {db next : Database}
    (executed : rows.foldlM MemoryRepo.insertDerivation db = .ok next) :
    next = { db with derivations := db.derivations ++ rows } :=
  (fills_derivations.run_ok_iff.mp executed).2.2

theorem guarded_ok {scope : Scope} {id : MemoryId} {guard : MemoryRow → Bool} {change : MemoryRow → MemoryRow}
    {db next : Database} (executed : MemoryRepo.guarded scope id guard change db = .ok next) :
    (∀ row ∈ db.memories, MemoryRepo.ofScope scope id row = true → guard row = true) ∧
      next = { db with memories := updateWhere (MemoryRepo.ofScope scope id) change db.memories } := by
  unfold MemoryRepo.guarded at executed
  split_ifs at executed with refused
  refine ⟨?_,(Except.ok.inj executed).symm⟩
  intro row member chosen
  by_contra fails
  exact refused (List.any_eq_true.mpr ⟨row,member,by simp [chosen,fails]⟩)

/-! ### What a transaction does to the claims -/

/-- A claim keeps its scope, and one that is erased is not brought back. -/
structure ClaimTurns (old new : ClaimRow) : Prop where
  scope : new.scope = old.scope
  final : old.erased = true → new.erased = true

theorem ClaimTurns.still (row : ClaimRow) : ClaimTurns row row := ⟨rfl,id⟩

theorem ClaimTurns.onward (first second third : ClaimRow) (one : ClaimTurns first second)
    (two : ClaimTurns second third) : ClaimTurns first third :=
  ⟨two.scope.trans one.scope,fun gone => two.final (one.final gone)⟩

/-- The claim table goes on from one state to the next. -/
abbrev ClaimsEvolve (before after : List ClaimRow) : Prop := Evolves ClaimRow.claimId ClaimTurns before after

theorem claims_tombstone (chosen : ClaimRow → Bool) (rows : List ClaimRow) :
    ClaimsEvolve rows (updateWhere chosen ClaimRow.tombstone rows) :=
  Evolves.update ClaimTurns.still chosen (fun _ _ _ => ⟨rfl,rfl,fun _ => rfl⟩)

theorem claims_marked (chosen : ClaimRow → Bool) (rows : List ClaimRow) :
    ClaimsEvolve rows (updateWhere chosen ClaimRow.marked rows) :=
  Evolves.update ClaimTurns.still chosen (fun _ _ _ => ⟨rfl,rfl,fun erased => erased⟩)

/-! ### What a transaction does to the store -/

/-- The memory a derivation row is of. -/
def Derived (db : Database) (row : DerivationRow) : Prop :=
  ∃ memory ∈ db.memories, memory.id = row.memoryId ∧ memory.scope = row.scope

/-- The claim a source row is of. -/
def Cited (db : Database) (row : SourceRow) : Prop :=
  ∃ claim ∈ db.claims, claim.claimId = row.claimId ∧ claim.scope = row.scope

/-- The store goes on from one state to the next: no memory and no claim leaves it or
    comes back from its erasure, and a new derivation or source row is of a row of its
    own scope. -/
structure Advances (before after : Database) : Prop where
  memories : MemoriesEvolve before.memories after.memories
  claims : ClaimsEvolve before.claims after.claims
  consistent : Consistent before → Consistent after
  derivations : ∀ row ∈ after.derivations, row ∈ before.derivations ∨ Derived after row
  sources : ∀ row ∈ after.sources, row ∈ before.sources ∨ Cited after row

theorem Derived.onward {before after : Database} {row : DerivationRow} (derived : Derived before row)
    (memories : MemoriesEvolve before.memories after.memories) : Derived after row := by
  obtain ⟨old,member,named,placed⟩ := derived
  obtain ⟨new,stays,sameId,turned⟩ := memories.stays member
  exact ⟨new,stays,sameId.trans named,turned.scope.trans placed⟩

theorem Cited.onward {before after : Database} {row : SourceRow} (cited : Cited before row)
    (claims : ClaimsEvolve before.claims after.claims) : Cited after row := by
  obtain ⟨old,member,named,placed⟩ := cited
  obtain ⟨new,stays,sameId,turned⟩ := claims.stays member
  exact ⟨new,stays,sameId.trans named,turned.scope.trans placed⟩

theorem Advances.refl (db : Database) : Advances db db :=
  ⟨Evolves.refl MemoryTurns.still _,Evolves.refl ClaimTurns.still _,id,fun _ member => .inl member,
    fun _ member => .inl member⟩

theorem Advances.trans {before mid after : Database} (first : Advances before mid) (second : Advances mid after) :
    Advances before after := by
  refine ⟨memories_trans first.memories second.memories,Evolves.trans ClaimTurns.onward first.claims second.claims,
    fun held => second.consistent (first.consistent held),?_,?_⟩
  · intro row member
    rcases second.derivations row member with old | new
    · exact (first.derivations row old).imp id (fun derived => derived.onward second.memories)
    · exact .inr new
  · intro row member
    rcases second.sources row member with old | new
    · exact (first.sources row old).imp id (fun cited => cited.onward second.claims)
    · exact .inr new

/-- The claim tables as they were, or with other admissions and proposals. -/
theorem consistent_of_same {before after : Database} (counter : after.txCounter = before.txCounter)
    (claims : after.claims = before.claims) (relations : after.relations = before.relations)
    (retractions : after.retractions = before.retractions) (held : Consistent before) : Consistent after := by
  constructor
  · rw [claims]
    exact held.ids
  · rw [claims]
    exact held.numbers
  · rw [claims,counter]
    exact held.counted
  · rw [counter]
    exact held.bounded
  · rw [claims]
    exact held.faithful
  · rw [relations]
    exact held.related
  · rw [relations,claims]
    exact held.owned
  · rw [retractions]
    exact held.retracted

/-- A transaction on memories and what hangs on them leaves the claims alone. -/
theorem advances_of_memories {before after : Database} (memories : MemoriesEvolve before.memories after.memories)
    (derivations : ∀ row ∈ after.derivations, row ∈ before.derivations ∨ Derived after row)
    (counter : after.txCounter = before.txCounter) (claims : after.claims = before.claims)
    (relations : after.relations = before.relations) (retractions : after.retractions = before.retractions)
    (sources : after.sources = before.sources) : Advances before after := by
  refine ⟨memories,?_,consistent_of_same counter claims relations retractions,derivations,?_⟩
  · rw [claims]
    exact Evolves.refl ClaimTurns.still _
  · rw [sources]
    exact fun _ member => .inl member

/-- A transaction on the claim tables leaves the memories alone. -/
theorem advances_of_claims {before after : Database} (claims : ClaimsEvolve before.claims after.claims)
    (consistent : Consistent before → Consistent after)
    (sources : ∀ row ∈ after.sources, row ∈ before.sources ∨ Cited after row)
    (memories : after.memories = before.memories) (derivations : after.derivations = before.derivations) :
    Advances before after := by
  refine ⟨?_,claims,consistent,?_,sources⟩
  · rw [memories]
    exact Evolves.refl MemoryTurns.still _
  · rw [derivations]
    exact fun _ member => .inl member

/-! ### Every transaction -/

theorem appendItem_advances {at' : UnixSeconds} {db next : Database} {item : ClaimRepo.ClaimAppend}
    (executed : ClaimRepo.appendItem at' db item = .ok next) : Advances db next := by
  have kept := fun held => appendItem_consistent held executed
  obtain ⟨-,fresh,-,rfl⟩ := ClaimRepo.appendItem_ok executed
  refine advances_of_claims (Evolves.insert ClaimTurns.still fresh) kept ?_ rfl rfl
  intro row member
  rcases List.mem_append.mp member with old | added
  · exact .inl old
  · obtain ⟨source,-,rfl⟩ := List.mem_map.mp added
    exact .inr ⟨_,List.mem_append_right _ (List.mem_singleton_self _),rfl,rfl⟩

theorem recordAdmissions_advances {at' : UnixSeconds} {batch : List ClaimGate.AdmittedClaim} {db next : Database}
    (executed : batch.foldlM (ClaimRepo.recordAdmission at') db = .ok next) : Advances db next := by
  have kept := fun held => recordAdmissions_consistent held executed
  obtain ⟨-,rfl⟩ := ClaimRepo.recordAdmissions_ok executed
  exact advances_of_claims (Evolves.refl ClaimTurns.still _) kept (fun _ member => .inl member) rfl rfl

theorem claims_advance {db next : Database} {txn : ClaimRepo.ClaimTxn} (executed : ClaimRepo.commit db txn = .ok next) :
    Advances db next := by
  have kept := fun held => commit_consistent held executed
  cases txn with
  | propose proposal =>
    obtain rfl := Database.insertProposal_ok executed
    exact advances_of_claims (Evolves.refl ClaimTurns.still _) kept (fun _ member => .inl member) rfl rfl
  | admissions batch at' => exact recordAdmissions_advances (ClaimRepo.admitBatch_ok executed)
  | append existing batch at' =>
    obtain ⟨mid,appended,admitted⟩ := ClaimRepo.append_ok executed
    have onward := foldlM_invariant (Advances db)
      (fun _ _ _ _ held stepped => held.trans (appendItem_advances stepped)) (Advances.refl db) appended
    exact onward.trans (recordAdmissions_advances admitted)
  | retract scope retraction =>
    obtain ⟨-,rfl⟩ := ClaimRepo.retract_ok executed
    exact advances_of_claims (Evolves.refl ClaimTurns.still _) kept (fun _ member => .inl member) rfl rfl
  | erase scope subject id =>
    obtain rfl := Except.ok.inj executed
    exact advances_of_claims (claims_tombstone _ _) kept (fun _ member => .inl member) rfl rfl
  | markSource scope source =>
    obtain rfl := Except.ok.inj executed
    exact advances_of_claims (claims_marked _ _) kept (fun _ member => .inl member) rfl rfl
  | eraseSource scope source =>
    obtain rfl := Except.ok.inj executed
    exact advances_of_claims (claims_tombstone _ _) kept (fun _ member => .inl member) rfl rfl
  | eraseScope scope =>
    obtain rfl := Except.ok.inj executed
    exact advances_of_claims (claims_tombstone _ _) kept (fun _ member => .inl (mem_deleteWhere.mp member).1) rfl rfl

theorem insert_advances {fingerprint : Memory → String} {maxBodyBytes : Nat} {memory : Memory} {provenance : Provenance}
    {db next : Database} (executed : MemoryRepo.insert fingerprint maxBodyBytes memory provenance db = .ok next) :
    Advances db next := by
  unfold MemoryRepo.insert at executed
  split_ifs at executed
  obtain ⟨mid,inserted,derived⟩ := bind_ok_iff.mp executed
  obtain ⟨free,rfl⟩ := insertMemory_ok inserted
  obtain rfl := insertDerivations_ok derived
  refine advances_of_memories (Evolves.insert MemoryTurns.still free) ?_ rfl rfl rfl rfl rfl
  intro row member
  rcases List.mem_append.mp member with old | added
  · exact .inl old
  · obtain ⟨parent,-,rfl⟩ := List.mem_map.mp added
    exact .inr ⟨_,List.mem_append_right _ (List.mem_singleton_self _),rfl,rfl⟩

/-- A change of memory rows alone. -/
theorem advances_of_rows {db : Database} {rows : List MemoryRow} (evolve : MemoriesEvolve db.memories rows) :
    Advances db { db with memories := rows } :=
  advances_of_memories evolve (fun _ member => .inl member) rfl rfl rfl rfl rfl

theorem guarded_advances {scope : Scope} {id : MemoryId} {guard : MemoryRow → Bool} {change : MemoryRow → MemoryRow}
    {db next : Database} (named : ∀ row, (change row).id = row.id) (placed : ∀ row, (change row).scope = row.scope)
    (alive : ∀ row, guard row = true → row.live = true)
    (executed : MemoryRepo.guarded scope id guard change db = .ok next) : Advances db next := by
  obtain ⟨passed,rfl⟩ := guarded_ok executed
  refine advances_of_rows (memories_update named placed ?_)
  intro row member chosen dead
  rw [alive row (passed row member chosen)] at dead
  cases dead

theorem redigestRow_advances {fingerprint : Memory → String} {scope : Scope} {read : MemoryId × Memory}
    {db next : Database} (executed : MemoryRepo.redigestRow fingerprint scope db read = .ok next) : Advances db next := by
  simp only [MemoryRepo.redigestRow] at executed
  split_ifs at executed
  obtain rfl := Except.ok.inj executed
  exact advances_of_rows (memories_update (fun _ => rfl) (fun _ => rfl) (fun _ _ _ dead => dead))

theorem memories_advance {fingerprint : Memory → String} {db next : Database} {txn : MemoryRepo.MemoryTxn}
    (executed : MemoryRepo.commit fingerprint db txn = .ok next) : Advances db next := by
  cases txn with
  | insert maxBodyBytes memory provenance => exact insert_advances executed
  | merge scope id expected again =>
    simp only [MemoryRepo.commit,MemoryRepo.merge] at executed
    refine guarded_advances ?_ ?_ ?_ executed
    · intro row
      rfl
    · intro row
      rfl
    · intro row passed
      simp only [Bool.and_eq_true] at passed
      exact passed.2
  | supersede scope old new expected at' =>
    simp only [MemoryRepo.commit,MemoryRepo.supersede] at executed
    split_ifs at executed
    refine guarded_advances ?_ ?_ ?_ executed
    · intro row
      rfl
    · intro row
      rfl
    · intro row passed
      simp only [Bool.and_eq_true] at passed
      exact passed.1.2
  | setValidUntil scope id until' =>
    obtain rfl := Except.ok.inj executed
    exact advances_of_rows (memories_update (fun _ => rfl) (fun _ => rfl) (fun _ _ _ dead => dead))
  | expire scope ids now =>
    obtain rfl := Except.ok.inj executed
    refine advances_of_rows (memories_update (fun _ => rfl) (fun _ => rfl) ?_)
    intro row member chosen dead
    simp only [Bool.and_eq_true,beq_iff_eq] at chosen
    simp [MemoryRow.live,chosen.1.2] at dead
  | redigest scope rows =>
    exact foldlM_invariant (Advances db) (fun _ _ _ _ held stepped => held.trans (redigestRow_advances stepped))
      (Advances.refl db) executed
  | issueKey row =>
    unfold MemoryRepo.commit MemoryRepo.issueKey at executed
    obtain ⟨keys,-,executed⟩ := bind_ok_iff.mp executed
    obtain rfl := Except.ok.inj executed
    exact advances_of_memories (Evolves.refl MemoryTurns.still _) (fun _ member => .inl member) rfl rfl rfl rfl rfl

theorem memories_bury (scope : Scope) (shells : List Shell) (now : UnixSeconds) (rows : List MemoryRow) :
    MemoriesEvolve rows (rows.map (bury scope shells now)) := by
  refine ⟨bury scope shells now,[],by simp,?_,by simp,by simp [UniqueBy]⟩
  intro row _
  obtain ⟨sameId,sameScope,-,lives⟩ := bury_spec scope shells now row
  refine ⟨sameId,sameScope,?_⟩
  intro dead
  rw [lives,dead]
  rfl

theorem sourceClaims_advances (prepared : PreparedErasure) (db : Database) :
    Advances db (sourceClaims prepared db) := by
  unfold sourceClaims
  split_ifs
  · exact @claims_advance db _ (.eraseSource prepared.scope prepared.target) rfl
  · exact @claims_advance db _ (.markSource prepared.scope prepared.target) rfl

theorem eraseRows_advances (prepared : PreparedErasure) (db : Database) : Advances db (eraseRows prepared db) := by
  refine (sourceClaims_advances prepared db).trans ?_
  rw [eraseRows_eq]
  refine advances_of_memories ?_ ?_ rfl rfl rfl rfl rfl
  · rw [(sourceClaims_same prepared db).1]
    exact memories_trans (memories_bury _ _ _ _) (memories_update (fun _ => rfl) (fun _ => rfl) (fun _ _ _ dead => dead))
  · rw [(sourceClaims_same prepared db).2.1]
    exact fun row member => .inl (mem_deleteWhere.mp member).1

theorem advances_of_receipts {before after : Database} {receipts : List ReceiptRow}
    (advances : Advances before after) : Advances before { after with receipts := receipts } :=
  advances.trans (advances_of_memories (Evolves.refl MemoryTurns.still _) (fun _ member => .inl member) rfl rfl rfl rfl rfl)

theorem drainRows_advances (scope : Scope) (shells : List Shell) (now : UnixSeconds) (db : Database) :
    Advances db (drainRows scope shells now db) := by
  refine (@claims_advance db _ (.eraseScope scope) rfl).trans ?_
  rw [drainRows_eq]
  refine advances_of_memories (memories_bury _ _ _ _) ?_ rfl rfl rfl rfl rfl
  exact fun row member => .inl (mem_deleteWhere.mp member).1

section
variable {fingerprint : Memory → String}

theorem drain_committed {scope : Scope} {operation : String} {shells : List Shell} {now : UnixSeconds} {db next : Database}
    (executed : commit fingerprint db (.drain scope operation shells now) = .ok next) :
    ∃ last, Erasure.drain scope operation shells now db = .ok (next,last) := by
  simp only [commit] at executed
  cases drained : Erasure.drain scope operation shells now db with
  | error refusal => simp [drained,Except.map] at executed
  | ok result =>
    simp only [drained,Except.map,Except.ok.injEq] at executed
    exact ⟨result.2,by rw [← executed]⟩

/-- No transaction brings an erased memory or claim back, or loses one. -/
theorem commit_advances {db next : Database} {txn : Txn} (executed : commit fingerprint db txn = .ok next) :
    Advances db next := by
  cases txn with
  | claims txn => exact claims_advance executed
  | memories txn => exact memories_advance executed
  | erase prepared =>
    obtain ⟨-,changed,-⟩ := commitErase_ok executed
    rw [changed]
    exact advances_of_receipts (eraseRows_advances prepared db)
  | startScope scope decisionId =>
    obtain ⟨-,rfl⟩ := startScope_ok executed
    exact advances_of_receipts (Advances.refl db)
  | drain scope operation shells now =>
    obtain ⟨last,drained⟩ := drain_committed executed
    obtain ⟨rfl,-⟩ := drain_ok drained
    exact advances_of_receipts (drainRows_advances scope shells now db)
  | deliver scope target decisionId =>
    obtain rfl := Except.ok.inj executed
    exact advances_of_receipts (Advances.refl db)

theorem commitAll_advances {db next : Database} {txns : List Txn} (executed : commitAll fingerprint db txns = .ok next) :
    Advances db next :=
  foldlM_invariant (Advances db) (fun _ _ _ _ held stepped => held.trans (commit_advances stepped)) (Advances.refl db)
    executed

/-! ### What holds of every reachable store -/

structure Sound (db : Database) : Prop where
  consistent : Consistent db
  unique : UniqueBy MemoryRow.id db.memories
  derived : ∀ row ∈ db.derivations, Derived db row
  cited : ∀ row ∈ db.sources, Cited db row

theorem Advances.sound {before after : Database} (advances : Advances before after) (sound : Sound before) :
    Sound after := by
  refine ⟨advances.consistent sound.consistent,advances.memories.unique sound.unique,?_,?_⟩
  · intro row member
    rcases advances.derivations row member with old | new
    · exact (sound.derived row old).onward advances.memories
    · exact new
  · intro row member
    rcases advances.sources row member with old | new
    · exact (sound.cited row old).onward advances.claims
    · exact new

theorem empty_sound : Sound .empty := by
  refine ⟨empty_consistent,?_,?_,?_⟩ <;> simp [Database.empty,UniqueBy]

theorem reachable_sound {db : Database} (reachable : Reachable fingerprint db) : Sound db := by
  obtain ⟨txns,executed⟩ := reachable
  exact (commitAll_advances executed).sound empty_sound

end

namespace Sample
open Claims.Sample Memories.Sample

def noteId : MemoryId := memoryId

def note (id : MemoryId) (text : String) (parents : List MemoryId) : Memory :=
  Memory.new { parts ⟨text,none,[]⟩ with
    id := id
    provenance := { provenance with derivedFrom := parents } }

def capture (memory : Memory) : Txn := .memories (.insert 64 memory memory.provenance)

/-- Notes that differ in their text have different fingerprints. -/
def textOf (memory : Memory) : String := memory.body.text

end Sample

end Aicortex.Store
