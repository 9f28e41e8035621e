import Aicortex.Store
import Aicortex.ClaimAdmission

/-!
Whether what the gates admit can be stored. The gates take lists of parents and of
relations as they come, the tables key them as sets: a memory commits exactly when its
parents differ, and a claim when its sources and its relations do.
-/

namespace Aicortex.Storable
open Aicortex.Text Aicortex.CivilTime Aicortex.History Aicortex.Memories Aicortex.CaptureGate Aicortex.ClaimGate
open Aicortex.ClaimAdmission Aicortex.Schema Aicortex.MemoryRepo Aicortex.ClaimRepo Aicortex.Store
open Lib.Tables Lib.Outcome
open Aicortex.Claims hiding Unit
set_option linter.unusedSimpArgs false

/-! ### Memories -/

section
variable (fingerprint : Memory → String)

/-- No row is of the memory's id, and no live one of its content. -/
structure NewMemory (db : Database) (memory : Memory) : Prop where
  rows : ∀ row ∈ db.memories, row.id ≠ memory.id ∧ clashes (memoryRow fingerprint memory) row = false
  derivations : ∀ row ∈ db.derivations, row.memoryId ≠ memory.id

/-- The rows staged for a memory differ in their keys, and its transaction commits on
    every store it is new to. -/
structure MemoryStores (maxBodyBytes : Nat) (memory : Memory) : Prop where
  apart : UniqueBy (fun row : DerivationRow => (row.memoryId,row.parentId)) (derivationRows memory)
  commits : ∀ db, NewMemory fingerprint db memory →
    ∃ next, MemoryRepo.commit fingerprint db (.insert maxBodyBytes memory memory.provenance) = .ok next

theorem derivationRows_keys (memory : Memory) :
    (derivationRows memory).map (fun row => (row.memoryId,row.parentId)) =
      memory.provenance.derivedFrom.map (fun parent => (memory.id,parent)) := by
  unfold derivationRows
  rw [List.map_map]
  exact (List.map_map (l := memory.provenance.derivedFrom.zipIdx) (f := Prod.fst)
    (g := fun parent => (memory.id,parent))).symm.trans (by rw [List.zipIdx_map_fst])

theorem derivationRows_unique_iff (memory : Memory) :
    UniqueBy (fun row : DerivationRow => (row.memoryId,row.parentId)) (derivationRows memory) ↔
      memory.provenance.derivedFrom.Nodup := by
  rw [UniqueBy,derivationRows_keys]
  exact List.nodup_map_iff (fun _ _ same => (Prod.mk.inj same).2)

theorem memoryStores_iff {maxBodyBytes : Nat} {memory : Memory} (small : byteLen memory.body.text ≤ maxBodyBytes) :
    MemoryStores fingerprint maxBodyBytes memory ↔ memory.provenance.derivedFrom.Nodup := by
  rw [← derivationRows_unique_iff]
  refine ⟨fun stores => stores.apart,fun apart => ⟨apart,fun db new => ?_⟩⟩
  have free : db.memories.any (clashes (memoryRow fingerprint memory)) = false := by
    rw [List.any_eq_false]
    exact fun row member => by simpa using (new.rows row member).2
  have inserted : insertMemory db (memoryRow fingerprint memory) =
      .ok { db with memories := db.memories ++ [memoryRow fingerprint memory] } := by
    rw [insertMemory,insertRow_ok.mpr ⟨fun row member => (new.rows row member).1,rfl⟩,ok_bind,if_neg (by simp [free])]
  show ∃ next, MemoryRepo.insert fingerprint maxBodyBytes memory memory.provenance db = .ok next
  rw [MemoryRepo.insert,if_neg (by simp),if_neg (by omega),inserted,ok_bind]
  refine ⟨_,fills_derivations.run_ok apart ?_⟩
  intro row rowIn other otherIn same
  have ofMemory : row.memoryId = memory.id := by
    obtain ⟨parent,-,rfl⟩ := List.mem_map.mp rowIn
    rfl
  exact new.derivations other otherIn ((Prod.mk.inj same).1.trans ofMemory)

end

/-! ### Claims -/

/-- No row is of the claim's id. -/
structure NewClaim (db : Database) (id : ClaimId) : Prop where
  claims : ∀ row ∈ db.claims, row.claimId ≠ id
  sources : ∀ row ∈ db.sources, row.claimId ≠ id
  relations : ∀ row ∈ db.relations, row.fromClaim ≠ id
  admissions : ∀ row ∈ db.admissions, row.claimId ≠ id

/-- A store whose numbers run below its counters, the counters with room for a batch,
    and none of whose rows is of the batch. -/
structure NewBatch (db : Database) (batch : List ClaimAppend) : Prop where
  new : ∀ item ∈ batch, NewClaim db item.admitted.claim.id
  counted : ∀ row ∈ db.claims, row.txSeq ≤ db.txCounter row.scope
  room : ∀ scope, db.txCounter scope + batch.length ≤ maxInteger

/-- What a batch's relations are keyed by. -/
def relationKey (row : RelationRow) : Scope × ClaimId × RelationKind × RelationTarget :=
  (row.scope,row.fromClaim,row.kind,row.target)

/-- The rows staged for a batch differ in their keys, table by table; the numbers its
    relations are stored under are no part of a key. -/
structure BatchApart (batch : List ClaimAppend) (at' : UnixSeconds) : Prop where
  claims : UniqueBy (fun item : ClaimAppend => item.admitted.claim.id) batch
  sources : (batch.flatMap ClaimAppend.sourceRows).Nodup
  relations : UniqueBy relationKey (batch.flatMap (fun item => item.relationRows at' 0))

/-- Each item repeats neither a source nor a relation. -/
def ItemApart (item : ClaimAppend) : Prop :=
  item.admitted.claim.provenance.derivedFrom.Nodup ∧
    (item.admitted.relations.map (fun relation => (relation.kind,relation.target))).Nodup

theorem sourceRows_nodup_iff (item : ClaimAppend) :
    item.sourceRows.Nodup ↔ item.admitted.claim.provenance.derivedFrom.Nodup :=
  List.nodup_map_iff (fun _ _ same => (SourceRow.mk.inj same).2.2)

theorem relationRows_keys (item : ClaimAppend) (at' : UnixSeconds) (seq : Nat) :
    (item.relationRows at' seq).map relationKey =
      (item.admitted.relations.map (fun relation => (relation.kind,relation.target))).map
        (fun kept => (item.admitted.claim.scope,item.admitted.claim.id,kept)) := by
  unfold ClaimAppend.relationRows
  rw [List.map_map,List.map_map]
  refine List.map_congr_left fun relation carried => ?_
  simp only [Function.comp,relationKey,item.grounded relation carried]

theorem relationRows_unique_iff (item : ClaimAppend) (at' : UnixSeconds) (seq : Nat) :
    UniqueBy relationKey (item.relationRows at' seq) ↔
      (item.admitted.relations.map (fun relation => (relation.kind,relation.target))).Nodup := by
  rw [UniqueBy,relationRows_keys]
  exact List.nodup_map_iff (fun _ _ same => (Prod.mk.inj (Prod.mk.inj same).2).2)

theorem mem_sourceRows {item : ClaimAppend} {row : SourceRow} (member : row ∈ item.sourceRows) :
    row.claimId = item.admitted.claim.id := by
  obtain ⟨source,-,rfl⟩ := List.mem_map.mp member
  rfl

theorem mem_relationRows {item : ClaimAppend} {at' : UnixSeconds} {seq : Nat} {row : RelationRow}
    (member : row ∈ item.relationRows at' seq) : row.fromClaim = item.admitted.claim.id := by
  obtain ⟨relation,carried,rfl⟩ := List.mem_map.mp member
  exact item.grounded relation carried

/-- Rows of items with different ids do not meet, so a batch is apart when its items are. -/
theorem batchApart_iff {batch : List ClaimAppend} {at' : UnixSeconds}
    (fresh : UniqueBy (fun item : ClaimAppend => item.admitted.claim.id) batch) :
    BatchApart batch at' ↔ ∀ item ∈ batch, ItemApart item := by
  have differ : batch.Pairwise (fun left right => left.admitted.claim.id ≠ right.admitted.claim.id) :=
    List.pairwise_map.mp fresh
  constructor
  · intro apart item member
    have relations := apart.relations
    rw [UniqueBy,List.map_flatMap] at relations
    exact ⟨(sourceRows_nodup_iff item).mp ((List.nodup_flatMap.mp apart.sources).1 item member),
      (relationRows_unique_iff item at' 0).mp ((List.nodup_flatMap.mp relations).1 item member)⟩
  · intro apart
    refine ⟨fresh,List.nodup_flatMap.mpr ⟨fun item member => (sourceRows_nodup_iff item).mpr (apart item member).1,?_⟩,?_⟩
    · refine differ.imp fun {left right} other => ?_
      intro row ofLeft ofRight
      exact other ((mem_sourceRows ofLeft).symm.trans (mem_sourceRows ofRight))
    · rw [UniqueBy,List.map_flatMap]
      refine List.nodup_flatMap.mpr ⟨fun item member => (relationRows_unique_iff item at' 0).mpr (apart item member).2,?_⟩
      refine differ.imp fun {left right} other => ?_
      intro key ofLeft ofRight
      obtain ⟨first,firstIn,rfl⟩ := List.mem_map.mp ofLeft
      obtain ⟨second,secondIn,same⟩ := List.mem_map.mp ofRight
      have claims : second.fromClaim = first.fromClaim := (Prod.mk.inj (Prod.mk.inj same).2).1
      exact other ((mem_relationRows firstIn).symm.trans (claims.symm.trans (mem_relationRows secondIn)))

/-- An item that repeats nothing is appended to a store it is new to. -/
theorem appendItem_commits {at' : UnixSeconds} {db : Database} {item : ClaimAppend} {rest : List ClaimAppend}
    (new : NewBatch db (item :: rest)) (apart : ItemApart item) : ∃ next, appendItem at' db item = .ok next := by
  have fresh := new.new item List.mem_cons_self
  have room : db.txCounter item.admitted.claim.scope < maxInteger := by
    have := new.room item.admitted.claim.scope
    rw [List.length_cons] at this
    omega
  unfold appendItem
  rw [Database.nextTx,if_pos room,ok_bind]
  generalize counterIs : Function.update db.txCounter item.admitted.claim.scope
    (db.txCounter item.admitted.claim.scope + 1) = counter
  have number : counter item.admitted.claim.scope = db.txCounter item.admitted.claim.scope + 1 := by
    rw [← counterIs,Function.update_self]
  have unused : ∀ other ∈ db.claims, (other.scope,other.txSeq) ≠
      (item.admitted.claim.scope,counter item.admitted.claim.scope) := by
    intro other member same
    obtain ⟨scope,seq⟩ := Prod.mk.inj same
    have below := new.counted other member
    rw [scope,seq,number] at below
    omega
  have claimed : ({ db with txCounter := counter } : Database).insertClaim
      (item.claimRow at' (counter item.admitted.claim.scope)) =
        .ok { db with
          txCounter := counter
          claims := db.claims ++ [item.claimRow at' (counter item.admitted.claim.scope)] } := by
    rw [Database.insertClaim,insertRow_ok.mpr ⟨fresh.claims,rfl⟩,ok_bind,insertRow_ok.mpr ⟨unused,rfl⟩,ok_bind]
  dsimp only
  rw [claimed,ok_bind]
  have sourcesApart : UniqueBy id item.sourceRows := by simpa [UniqueBy] using (sourceRows_nodup_iff item).mpr apart.1
  refine ⟨_,bind_ok_iff.mpr ⟨_,Database.fills_sources.run_ok sourcesApart ?_,
    Database.fills_relations.run_ok ((relationRows_unique_iff item at' _).mpr apart.2) ?_⟩⟩
  · intro row member other old same
    exact fresh.sources other old ((congrArg SourceRow.claimId same).trans (mem_sourceRows member))
  · intro row member other old same
    exact fresh.relations other old ((Prod.mk.inj (Prod.mk.inj same).2).1.trans (mem_relationRows member))

/-- What is left of the batch is still new after an item. -/
theorem NewBatch.step {at' : UnixSeconds} {db next : Database} {item : ClaimAppend} {rest : List ClaimAppend}
    (new : NewBatch db (item :: rest)) (others : ∀ other ∈ rest, item.admitted.claim.id ≠ other.admitted.claim.id)
    (executed : appendItem at' db item = .ok next) : NewBatch next rest := by
  obtain ⟨-,-,-,rfl⟩ := appendItem_ok executed
  refine ⟨fun other member => ?_,?_,fun scope => ?_⟩
  · have before := new.new other (List.mem_cons_of_mem _ member)
    refine ⟨?_,?_,?_,before.admissions⟩
    · intro row inside
      rcases List.mem_append.mp inside with old | added
      · exact before.claims row old
      · obtain rfl := List.mem_singleton.mp added
        exact others other member
    · intro row inside
      rcases List.mem_append.mp inside with old | added
      · exact before.sources row old
      · exact mem_sourceRows added ▸ others other member
    · intro row inside
      rcases List.mem_append.mp inside with old | added
      · exact before.relations row old
      · exact mem_relationRows added ▸ others other member
  · intro row inside
    rcases List.mem_append.mp inside with old | added
    · have below := new.counted row old
      by_cases same : row.scope = item.admitted.claim.scope
      · rw [same] at below
        simp only [same,Function.update_self]
        omega
      · simpa [Function.update_of_ne same] using below
    · obtain rfl := List.mem_singleton.mp added
      simp [ClaimAppend.claimRow]
  · have room := new.room scope
    rw [List.length_cons] at room
    by_cases same : scope = item.admitted.claim.scope
    · rw [same] at room ⊢
      simp only [Function.update_self]
      omega
    · simp only [Function.update_of_ne same]
      omega

theorem appendItems_commit {at' : UnixSeconds} {db : Database} {batch : List ClaimAppend} (new : NewBatch db batch)
    (fresh : UniqueBy (fun item : ClaimAppend => item.admitted.claim.id) batch) (apart : ∀ item ∈ batch, ItemApart item) :
    ∃ next, batch.foldlM (appendItem at') db = .ok next := by
  induction batch generalizing db with
  | nil => exact ⟨db,rfl⟩
  | cons item rest ih =>
    obtain ⟨others,later⟩ := List.nodup_cons.mp fresh
    obtain ⟨mid,first⟩ : ∃ mid, appendItem at' db item = .ok mid := appendItem_commits new (apart item List.mem_cons_self)
    have apartFrom : ∀ other ∈ rest, item.admitted.claim.id ≠ other.admitted.claim.id :=
      fun other member same => others (List.mem_map.mpr ⟨other,member,same.symm⟩)
    obtain ⟨next,remaining⟩ := ih (new.step apartFrom first) later
      (fun other member => apart other (List.mem_cons_of_mem _ member))
    exact ⟨next,bind_ok_iff.mpr ⟨mid,first,remaining⟩⟩

/-! ### What the claim gate admits -/

/-- An item whose claim some gate admitted, with what it was judged on. -/
structure Accepted {SecretRules : Type} (linked : Linked SecretRules) where
  rules : RuleSet SecretRules
  proposal : ClaimProposal
  registry : Registry.RegistrySnapshot
  policy : AdmissionPolicy
  context : ClaimContext
  item : ClaimAppend
  judged : evaluateClaim linked rules proposal registry policy context = .admitted item.admitted

section
variable {SecretRules : Type} {linked : Linked SecretRules}

/-- The relations are built one by one from the proposed ones. -/
theorem relations_listed {subject : Proposal SecretRules} {grounds : Grounds} {authority : AuthorityLevel}
    {relations : List ProposedRelation} {start next : Related}
    (accepted : relations.foldlM (relateOne subject grounds authority) start = .ok next) :
    next.relations.map (fun relation => (relation.kind,relation.target)) =
      start.relations.map (fun relation => (relation.kind,relation.target)) ++
        relations.map (fun relation => (relation.kind,RelationTarget.claim relation.target)) := by
  induction relations generalizing start with
  | nil =>
    cases accepted
    simp
  | cons relation rest ih =>
    obtain ⟨mid,first,remaining⟩ := bind_ok_iff.mp accepted
    obtain ⟨facts,made,-,kind,target,appended,-⟩ := relateOne_ok first
    rw [ih remaining,appended]
    simp [kind,target]

theorem Accepted.claim_eq (accepted : Accepted linked) : accepted.item.admitted.claim = accepted.proposal.claim ∧
    accepted.item.admitted.relations.map (fun relation => (relation.kind,relation.target)) =
      accepted.proposal.relations.map (fun relation => (relation.kind,RelationTarget.claim relation.target)) := by
  obtain ⟨grounds,authority,related,built,claimIs,relationsIs⟩ := evaluateClaim_related linked accepted.judged
  refine ⟨claimIs,?_⟩
  rw [relationsIs]
  simpa using relations_listed built

theorem Accepted.apart_iff (accepted : Accepted linked) : ItemApart accepted.item ↔
    accepted.proposal.claim.provenance.derivedFrom.Nodup ∧ accepted.proposal.relations.Nodup := by
  obtain ⟨claim,relations⟩ := accepted.claim_eq
  rw [ItemApart,claim,relations]
  refine and_congr_right fun _ => List.nodup_map_iff ?_
  rintro ⟨kind,target⟩ ⟨kind',target'⟩ same
  obtain ⟨rfl,targets⟩ := Prod.mk.inj same
  obtain rfl := RelationTarget.claim.inj targets
  rfl

end

/-- Nothing is refused before the first statement. -/
def Staged (existing : ClaimHistory) (batch : List ClaimAppend) (at' : UnixSeconds) : Prop :=
  batch ≠ [] ∧ forM batch (checkItem existing batch at') = .ok ()

/-- The rows staged for a batch differ in their keys, and its transaction commits on
    every store it is new to. -/
structure BatchStores (existing : ClaimHistory) (batch : List ClaimAppend) (at' : UnixSeconds) : Prop where
  apart : BatchApart batch at'
  commits : ∀ db, NewBatch db batch → ∃ next, ClaimRepo.commit db (.append existing batch at') = .ok next

theorem batchStores_iff {existing : ClaimHistory} {batch : List ClaimAppend} {at' : UnixSeconds}
    (fresh : UniqueBy (fun item : ClaimAppend => item.admitted.claim.id) batch) (staged : Staged existing batch at') :
    BatchStores existing batch at' ↔ ∀ item ∈ batch, ItemApart item := by
  rw [← batchApart_iff fresh]
  refine ⟨fun stores => stores.apart,fun apart => ⟨apart,fun db new => ?_⟩⟩
  obtain ⟨mid,appended⟩ : ∃ mid, batch.foldlM (appendItem at') db = .ok mid :=
    appendItems_commit new fresh ((batchApart_iff fresh).mp apart)
  have admissions : mid.admissions = db.admissions :=
    foldlM_invariant (fun next => next.admissions = db.admissions)
      (fun item _ before after held executed => by obtain ⟨-,-,-,rfl⟩ := appendItem_ok executed; exact held) rfl appended
  show ∃ next, ClaimRepo.append existing batch at' db = .ok next
  rw [ClaimRepo.append,if_neg (by simpa using staged.1)]
  refine ⟨_,bind_ok_iff.mpr ⟨(),staged.2,bind_ok_iff.mpr ⟨mid,appended,recordAdmissions_ok_iff.mpr ⟨?_,?_,rfl⟩⟩⟩⟩
  · rw [UniqueBy,List.map_map]
    exact fresh
  · intro admitted member other otherIn
    obtain ⟨item,itemIn,rfl⟩ := List.mem_map.mp member
    exact (new.new item itemIn).admissions other (admissions ▸ otherIn)

/-! ### Stores that are reached -/

theorem newMemory_of_reachable {fingerprint : Memory → String} {db : Database} (reachable : Store.Reachable fingerprint db)
    {memory : Memory} (rows : ∀ row ∈ db.memories, row.id ≠ memory.id ∧ clashes (memoryRow fingerprint memory) row = false) :
    NewMemory fingerprint db memory := by
  refine ⟨rows,fun row member same => ?_⟩
  obtain ⟨held,heldIn,named,-⟩ := (reachable_sound reachable).derived row member
  exact (rows held heldIn).1 (named.trans same)

theorem newBatch_of_reachable {fingerprint : Memory → String} {db : Database} (reachable : Store.Reachable fingerprint db)
    {batch : List ClaimAppend} (claims : ∀ item ∈ batch, ∀ row ∈ db.claims, row.claimId ≠ item.admitted.claim.id)
    (admissions : ∀ item ∈ batch, ∀ row ∈ db.admissions, row.claimId ≠ item.admitted.claim.id)
    (room : ∀ scope, db.txCounter scope + batch.length ≤ maxInteger) : NewBatch db batch := by
  have sound := reachable_sound reachable
  refine ⟨fun item member => ⟨claims item member,fun row rowIn same => ?_,fun row rowIn same => ?_,admissions item member⟩,
    fun row rowIn => (sound.consistent.counted row rowIn).2,room⟩
  · obtain ⟨held,heldIn,named,-⟩ := sound.cited row rowIn
    exact claims item member held heldIn (named.trans same)
  · obtain ⟨held,heldIn,named,-⟩ := sound.consistent.owned row rowIn
    exact claims item member held heldIn (named.trans same)

theorem admitted_stores_iff (fingerprint : Memory → String) {SecretRules : Type} (linked : Linked SecretRules) :
    (∀ rules candidate memory maxBodyBytes, evaluate linked rules candidate = .admitted memory →
      byteLen memory.body.text ≤ maxBodyBytes →
        (MemoryStores fingerprint maxBodyBytes memory ↔ candidate.parts.provenance.derivedFrom.Nodup)) ∧
    ∀ existing (batch : List (Accepted linked)) at', UniqueBy (fun accepted => accepted.proposal.claim.id) batch →
      Staged existing (batch.map Accepted.item) at' →
        (BatchStores existing (batch.map Accepted.item) at' ↔ ∀ accepted ∈ batch,
          accepted.proposal.claim.provenance.derivedFrom.Nodup ∧ accepted.proposal.relations.Nodup) := by
  constructor
  · intro rules candidate memory maxBodyBytes admitted small
    have provenance : memory.provenance = candidate.parts.provenance := by
      unfold evaluate at admitted
      split at admitted
      · obtain rfl := Verdict.admitted.inj admitted
        rfl
      · cases admitted
      · cases admitted
    rw [memoryStores_iff fingerprint small,provenance]
  · intro existing batch at' fresh staged
    have ids : UniqueBy (fun item : ClaimAppend => item.admitted.claim.id) (batch.map Accepted.item) := by
      rw [UniqueBy,List.map_map]
      refine (congrArg List.Nodup (List.map_congr_left fun accepted _ => ?_)).mpr fresh
      exact congrArg Claim.id accepted.claim_eq.1
    rw [batchStores_iff ids staged,List.forall_mem_map]
    exact forall₂_congr fun accepted _ => accepted.apart_iff

namespace Sample
open Claims.Sample Memories.Sample Registry.Sample CaptureGate.Sample ClaimGate.Sample Store.Sample Lib.Ordered

/-- A note drawn from the given memories. -/
def drawn (parents : List MemoryId) : Candidate :=
  ⟨{ parts ⟨"aisle seat",none,[]⟩ with
    provenance := { Claims.Sample.provenance with derivedFrom := parents } },.authenticated⟩

def drawnNote (parents : List MemoryId) : Memory := Memory.new (drawn parents).parts

/-- A store that holds the parent. -/
def parented : Database := { Database.empty with memories := [memoryRow textOf (note secondMemoryId "travel" [])] }

/-- The second claim is appended. -/
def holding : ClaimTxn := .append .new [ClaimRepo.Sample.item secondId "14C"] 9

/-- The owner's own statement, contradicting the second claim so many times. -/
def contradicting (times : Nat) : ClaimProposal :=
  { ownStatement with relations := List.replicate times ⟨.contradicts,secondId⟩ }

/-- The context knows the claim that is contradicted. -/
def related : ClaimContext := ⟨.empty,OrdMap.empty.insert secondId ⟨scope,.userAsserted,.user⟩⟩

def acceptedOf {proposal : ClaimProposal} {claim : AdmittedClaim}
    (judged : evaluateClaim linked rules proposal registry policy related = .admitted claim) : Accepted linked where
  rules := rules
  proposal := proposal
  registry := registry
  policy := policy
  context := related
  item := ⟨claim,evaluateClaim_grounded linked judged,.timeless,none,none,.timeless,.explicitOnly,false⟩
  judged := judged

/-- A parent named twice and a relation proposed twice are admitted and not stored. -/
theorem repeats_abort :
    (evaluate linked rules (drawn [secondMemoryId,secondMemoryId]) = .admitted (drawnNote [secondMemoryId,secondMemoryId]) ∧
      NewMemory textOf parented (drawnNote [secondMemoryId,secondMemoryId]) ∧
      MemoryRepo.commit textOf parented (.insert 64 (drawnNote [secondMemoryId,secondMemoryId])
        (drawnNote [secondMemoryId,secondMemoryId]).provenance) = .error (.constraint "memory_derivation")) ∧
    ∃ (accepted : Accepted linked) (db : Database), accepted.proposal = contradicting 2 ∧
      Staged .new [accepted.item] 10 ∧ ClaimRepo.commit .empty holding = .ok db ∧ NewBatch db [accepted.item] ∧
      ClaimRepo.commit db (.append .new [accepted.item] 10) = .error (.constraint "claim_relation") := by
  refine ⟨⟨rfl,⟨by decide,by decide⟩,rfl⟩,@acceptedOf (contradicting 2) _ rfl,_,rfl,?_,rfl,?_,?_⟩
  · exact ⟨by simp,rfl⟩
  · refine ⟨fun item member => ?_,by decide,fun other => ?_⟩
    · obtain rfl := List.mem_singleton.mp member
      exact ⟨by decide,by decide,by decide,by decide⟩
    · by_cases same : other = scope
      · rw [same]
        decide
      · simp [ClaimRepo.Sample.item,ClaimRepo.Sample.admitted,claim,Function.update_of_ne same,maxInteger,Database.empty]
  · rfl

/-- One parent and one relation are stored, and neither is when it is repeated. -/
theorem single_stores :
    (MemoryStores textOf 64 (drawnNote [secondMemoryId]) ∧
      ¬ MemoryStores textOf 64 (drawnNote [secondMemoryId,secondMemoryId])) ∧
    (∃ accepted : Accepted linked, accepted.proposal = contradicting 1 ∧ BatchStores .new [accepted.item] 10) ∧
      ∃ accepted : Accepted linked, accepted.proposal = contradicting 2 ∧ ¬ BatchStores .new [accepted.item] 10 := by
  have stores := admitted_stores_iff textOf linked
  have once := stores.1 rules (drawn [secondMemoryId]) _ 64 rfl (by decide)
  have twice := stores.1 rules (drawn [secondMemoryId,secondMemoryId]) _ 64 rfl (by decide)
  have related := stores.2 .new [@acceptedOf (contradicting 1) _ rfl] 10 (List.nodup_singleton _) ⟨by simp,rfl⟩
  have repeated := stores.2 .new [@acceptedOf (contradicting 2) _ rfl] 10 (List.nodup_singleton _) ⟨by simp,rfl⟩
  refine ⟨⟨once.mpr (by decide),fun stored => absurd (twice.mp stored) (by decide)⟩,
    ⟨@acceptedOf (contradicting 1) _ rfl,rfl,related.mpr ?_⟩,@acceptedOf (contradicting 2) _ rfl,rfl,fun stored => ?_⟩
  · intro accepted member
    obtain rfl := List.mem_singleton.mp member
    exact ⟨by decide,by decide⟩
  · exact absurd (repeated.mp stored _ List.mem_cons_self).2 (by decide)

end Sample

end Aicortex.Storable
