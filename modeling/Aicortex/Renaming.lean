import Aicortex.SlotViews
import Aicortex.Lib.Rekeyed

/-!
A history under other claim ids and other stamps, and what becomes of one slot of it.
Every stage asks of two ids only whether they are the same, so each keeps the claims
under their new ids, though it meets them in another order.
-/

namespace Aicortex.Projection
open Aicortex.Text Aicortex.Claims Aicortex.History Aicortex.Windows Lib.Ordered Lib.Outcome
set_option linter.unusedSimpArgs false

/-! ### Renamings -/

/-- Other ids for claims, no two made one, and other stamps for what was recorded. -/
structure Renaming where
  id : ClaimId → ClaimId
  injective : Function.Injective id
  claimTx : ClaimRecord → TxStamp
  relationTx : HistoryRelation → TxStamp
  retractionTx : Retraction → TxStamp

namespace Renaming

/-- Other ids under the stamps there are. -/
def ofIds (id : ClaimId → ClaimId) (injective : Function.Injective id) : Renaming :=
  ⟨id,injective,(·.tx),(·.tx),(·.tx)⟩

variable (names : Renaming)

/-! ### Renamed histories -/

def record (record : ClaimRecord) : ClaimRecord :=
  { record with
    claim := { record.claim with id := names.id record.claim.id }
    tx := names.claimTx record }

def target : RelationTarget → RelationTarget
  | .claim id => .claim (names.id id)
  | .memory id => .memory id

theorem legal_target {source : ClaimId} {kind : RelationKind} {target : RelationTarget}
    (legal : legalRelation source kind target = true) :
    legalRelation (names.id source) kind (names.target target) = true := by
  cases target with
  | memory memory => exact legal
  | claim claim =>
    simp only [legalRelation,bne_iff_ne] at legal
    simpa [legalRelation,Renaming.target] using fun same => legal (names.injective same)

def relation (relation : HistoryRelation) : HistoryRelation where
  relation := ⟨names.id relation.relation.source,relation.relation.kind,names.target relation.relation.target,
    relation.relation.provenance,names.legal_target relation.relation.legal⟩
  authority := relation.authority
  tx := names.relationTx relation

def retraction (retraction : Retraction) : Retraction :=
  { retraction with target := names.id retraction.target, tx := names.retractionTx retraction }

/-- The history with its claims, relations and retractions renamed. -/
def history (history : ClaimHistory) : ClaimHistory where
  claims := history.claims.rekeyed names.id names.record
  relations := history.relations.map names.relation
  retractions := history.retractions.map names.retraction
  usedTx := history.claims.values.foldl (fun used record =>
    used.upsert record.claim.scope.display .empty (·.insert (names.claimTx record).seq)) .empty
  keyed := by
    intro id record found
    obtain ⟨old,original,held,rfl,rfl⟩ := (OrdMap.find?_rekeyed names.injective history.claims id record).mp found
    exact congrArg names.id (history.keyed old original held)

/-- The stamps are known by the bound exactly as they were. -/
structure Keeps (bound : TxBound) : Prop where
  claims : ∀ record, withinTx (names.claimTx record) bound = withinTx record.tx bound
  relations : ∀ relation, withinTx (names.relationTx relation) bound = withinTx relation.tx bound
  retractions : ∀ retraction, withinTx (names.retractionTx retraction) bound = withinTx retraction.tx bound

theorem ofIds_keeps (id : ClaimId → ClaimId) (injective : Function.Injective id) (bound : TxBound) :
    (ofIds id injective).Keeps bound := ⟨fun _ => rfl,fun _ => rfl,fun _ => rfl⟩

/-! ### Renamed views -/

def candidate (candidate : ProjectionCandidate) : ProjectionCandidate :=
  { candidate with
    claimId := names.id candidate.claimId
    superseded := (OrdSet.ofList (candidate.superseded.map names.id)).elements }

/-- The candidates of a slot renamed, in the order of their new ids. -/
def candidates (candidates : List ProjectionCandidate) : List ProjectionCandidate :=
  sortCandidates (candidates.map names.candidate)

def state : SlotState → SlotState
  | .value candidates => .value (names.candidates candidates)
  | .conflicted candidates => .conflicted (names.candidates candidates)
  | .retracted => .retracted
  | .absent => .absent

def slot (view : SlotView) : SlotView := { view with state := names.state view.state }

def proposal (proposal : ConflictProposal) : ConflictProposal :=
  .new (names.id proposal.left) (names.id proposal.right)

/-- The proposals renamed, in the order of their new ids. -/
def proposals (proposals : List ConflictProposal) : List ConflictProposal :=
  (OrdSet.ofList (proposals.map names.proposal)).elements

def counted (item : Counted) : Counted := (names.record item.1,item.2)

/-! ### Who replaced whom -/

/-- A map of replaced claims is another's under the new ids. -/
def CarriesSets (replacing other : OrdMap ClaimId (OrdSet ClaimId)) : Prop :=
  ∀ winner loser, loser ∈ (other.find? (names.id winner)).getD .empty ↔
    ∃ old ∈ (replacing.find? winner).getD .empty, names.id old = loser

structure Carries (found other : Superseded) : Prop where
  removed : ∀ id, names.id id ∈ other.removed ↔ id ∈ found.removed
  replacing : names.CarriesSets found.replacing other.replacing

/-- A pair under the new ids. -/
def pair (pair : ClaimId × ClaimId) : ClaimId × ClaimId := (names.id pair.1,names.id pair.2)

variable {names}

theorem carries_empty : names.Carries .empty .empty := ⟨by simp [Superseded.empty],by simp [CarriesSets,Superseded.empty]⟩

theorem Carries.add {found other : Superseded} (carries : names.Carries found other) (winner loser : ClaimId) :
    names.Carries (found.add winner loser) (other.add (names.id winner) (names.id loser)) := by
  refine ⟨fun id => ?_,fun name lost => ?_⟩
  · simp only [Superseded.add,OrdSet.mem_insert,carries.removed,names.injective.eq_iff]
  · simp only [Superseded.add,OrdMap.find?_upsert,names.injective.eq_iff]
    by_cases same : name = winner
    · subst same
      simp only [if_true,Option.getD_some,OrdSet.mem_insert,carries.replacing name lost]
      constructor
      · rintro (rfl | ⟨old,inside,rfl⟩)
        · exact ⟨loser,.inl rfl,rfl⟩
        · exact ⟨old,.inr inside,rfl⟩
      · rintro ⟨old,rfl | inside,rfl⟩
        · exact .inl rfl
        · exact .inr ⟨old,inside,rfl⟩
    · simp only [same,if_false]
      exact carries.replacing name lost

/-- Pairs that are each other's under the new ids carry on what they are added to. -/
theorem Carries.addAll {pairs others : List (ClaimId × ClaimId)} (same : ∀ pair, pair ∈ others ↔ pair ∈ pairs.map names.pair)
    {found other : Superseded} (carries : names.Carries found other) :
    names.Carries (.addAll pairs found) (.addAll others other) := by
  rw [Superseded.addAll_congr other same]
  clear same
  induction pairs generalizing found other with
  | nil => exact carries
  | cons pair rest ih => exact ih (carries.add pair.1 pair.2)

/-! ### Selection -/

section
variable {build : Build} {policy : ProjectionPolicy} {active others : List Counted}
  {replacing replacing' : OrdMap ClaimId (OrdSet ClaimId)}

theorem userSupplierConflict_perm (perm : others.Perm active) : userSupplierConflict others = userSupplierConflict active := by
  have differs : (others.any (fun left => others.any (fun right =>
        left.1.admission.sourcing != right.1.admission.sourcing && left.1.claim.value != right.1.claim.value))) =
      active.any (fun left => active.any (fun right =>
        left.1.admission.sourcing != right.1.admission.sourcing && left.1.claim.value != right.1.claim.value)) := by
    rw [perm.any_eq]
    congr 1
    funext left
    exact perm.any_eq
  rw [userSupplierConflict,userSupplierConflict,perm.any_eq,perm.any_eq,differs]

theorem maxAuthority_perm (perm : others.Perm active) : maxAuthority others = maxAuthority active :=
  (perm.map _).foldl_eq _

theorem userSupplierConflict_renamed : userSupplierConflict (active.map names.counted) = userSupplierConflict active := by
  simp only [userSupplierConflict,List.any_map]
  rfl

theorem maxAuthority_renamed : maxAuthority (active.map names.counted) = maxAuthority active := by
  rw [maxAuthority,List.map_map]
  rfl

/-- The claims of the greatest authority. -/
def topOf (active : List Counted) : List Counted := active.filter (fun item => item.1.authority = maxAuthority active)

theorem topOf_renamed (perm : others.Perm (active.map names.counted)) : (topOf others).Perm ((topOf active).map names.counted) := by
  have most : maxAuthority others = maxAuthority active := (maxAuthority_perm perm).trans maxAuthority_renamed
  have kept := perm.filter (fun item : Counted => item.1.authority = maxAuthority active)
  rw [List.filter_map] at kept
  rw [topOf,topOf,most]
  exact kept

/-- Claims under one rule ask for source order together or not at all. -/
theorem ordered_renamed (perm : others.Perm (active.map names.counted))
    (uniform : ∀ left ∈ active, ∀ right ∈ active, left.1.supersession = right.1.supersession) :
    others.head?.any (fun item => item.1.supersession = .bySourceOrder) =
      active.head?.any (fun item => item.1.supersession = .bySourceOrder) := by
  cases active with
  | nil =>
    obtain rfl := List.perm_nil.mp perm
    rfl
  | cons first rest =>
    cases others with
    | nil => simp at perm
    | cons other later =>
      obtain ⟨item,itemIn,rfl⟩ := List.mem_map.mp (perm.mem_iff.mp List.mem_cons_self)
      have same := uniform item itemIn first List.mem_cons_self
      simp [counted,record,same]

theorem sourcePairs_renamed (perm : others.Perm (active.map names.counted)) (pair : ClaimId × ClaimId) :
    pair ∈ sourcePairs build policy others ↔ pair ∈ (sourcePairs build policy active).map names.pair := by
  simp only [List.mem_map,mem_sourcePairs,perm.mem_iff]
  constructor
  · rintro ⟨_,⟨left,leftIn,rfl⟩,_,⟨right,rightIn,rfl⟩,ahead,rfl⟩
    exact ⟨_,⟨left,leftIn,right,rightIn,ahead,rfl⟩,rfl⟩
  · rintro ⟨_,⟨left,leftIn,right,rightIn,ahead,rfl⟩,rfl⟩
    exact ⟨_,⟨left,leftIn,rfl⟩,_,⟨right,rightIn,rfl⟩,ahead,rfl⟩

/-- Source order removes the same claims. -/
theorem supersededBySource_renamed (perm : others.Perm (active.map names.counted)) (carries : names.CarriesSets replacing replacing') :
    Agree names.Carries (supersededBySource build policy active replacing) (supersededBySource build policy others replacing') := by
  refine .of_ok ?_ fun found other executed executed' => ?_
  · simp only [supersededBySource_returns,perm.mem_iff,List.forall_mem_map]
    rfl
  · rw [supersededBySource_eq executed,supersededBySource_eq executed']
    exact Carries.addAll (sourcePairs_renamed perm) ⟨by simp,carries⟩

/-- The same claims are left, and the removed ones are among what they replaced. -/
def Selected (names : Renaming) (selected other : List Counted × OrdMap ClaimId (OrdSet ClaimId)) : Prop :=
  other.1.Perm (selected.1.map names.counted) ∧ names.CarriesSets selected.2 other.2

theorem kept_renamed (perm : others.Perm (active.map names.counted)) {removed removed' : OrdSet ClaimId}
    (same : ∀ id, names.id id ∈ removed' ↔ id ∈ removed) :
    (others.filter (fun item => !removed'.contains item.id)).Perm
      ((active.filter (fun item => !removed.contains item.id)).map names.counted) := by
  have kept := perm.filter (fun item => !removed'.contains item.id)
  rw [List.filter_map] at kept
  have agree : (fun item : Counted => !removed'.contains item.id) ∘ names.counted = fun item => !removed.contains item.id := by
    funext item
    have inside : removed'.contains (names.id item.id) = removed.contains item.id := by
      rw [Bool.eq_iff_iff,OrdSet.contains_iff,OrdSet.contains_iff]
      exact same item.id
    exact congrArg not inside
  rwa [agree] at kept

/-- Selection leaves the same claims. -/
theorem selectWinners_renamed (perm : others.Perm (active.map names.counted)) (carries : names.CarriesSets replacing replacing')
    (uniform : ∀ left ∈ active, ∀ right ∈ active, left.1.supersession = right.1.supersession) :
    Agree names.Selected (selectWinners build policy active replacing) (selectWinners build policy others replacing') := by
  have conflict : userSupplierConflict others = userSupplierConflict active :=
    (userSupplierConflict_perm perm).trans userSupplierConflict_renamed
  have top := topOf_renamed perm
  have ordered := ordered_renamed top fun left leftIn right rightIn =>
    uniform left (List.mem_of_mem_filter leftIn) right (List.mem_of_mem_filter rightIn)
  unfold topOf at top ordered
  unfold selectWinners
  rw [conflict]
  split_ifs with contested
  · exact .returned ⟨perm,carries⟩
  · dsimp only
    rw [ordered]
    split_ifs with asked
    · refine (supersededBySource_renamed top carries).bind fun found other _ both => .returned ⟨?_,both.replacing⟩
      exact kept_renamed top both.removed
    · exact .returned ⟨top,carries⟩

end

/-! ### Candidates -/

/-- A winner with the claims it replaced. -/
def described (replacing : OrdMap ClaimId (OrdSet ClaimId)) (item : Counted) : ProjectionCandidate :=
  Projection.candidate item.1 item.2 ((replacing.find? item.id).getD .empty).elements

/-- Winners with distinct ids do not take each other's replaced claims. -/
theorem candidatesOf_eq {winners : List Counted} (distinct : (winners.map Counted.id).Nodup)
    (replacing : OrdMap ClaimId (OrdSet ClaimId)) : candidatesOf winners replacing = winners.map (described replacing) := by
  induction winners generalizing replacing with
  | nil => rfl
  | cons item rest ih =>
    obtain ⟨fresh,distinctRest⟩ := List.nodup_cons.mp distinct
    rw [candidatesOf,List.map_cons,ih distinctRest]
    congr 1
    refine List.map_congr_left fun other inside => ?_
    have apart : other.id ≠ item.id := fun same => fresh (same ▸ List.mem_map_of_mem inside)
    rw [described,described,OrdMap.find?_erase,if_neg apart]

theorem listed_perm {winners : List Counted} (distinct : (winners.map Counted.id).Nodup)
    (replacing : OrdMap ClaimId (OrdSet ClaimId)) : (listed winners replacing).Perm (winners.map (described replacing)) := by
  have sorted : (sortById winners).Perm winners := List.perm_insertionSort _ winners
  have apart : ((sortById winners).map Counted.id).Nodup := (sorted.map Counted.id).nodup_iff.mpr distinct
  rw [listed,candidatesOf_eq apart]
  exact (List.perm_insertionSort _ _).trans (sorted.map _)

section
variable {winners others : List Counted} {replacing replacing' : OrdMap ClaimId (OrdSet ClaimId)}

theorem described_renamed (carries : names.CarriesSets replacing replacing') (item : Counted) :
    described replacing' (names.counted item) = names.candidate (described replacing item) := by
  have lost : (replacing'.find? (names.id item.id)).getD .empty =
      OrdSet.ofList (((replacing.find? item.id).getD .empty).elements.map names.id) := by
    refine OrdSet.ext_mem fun loser => ?_
    rw [carries item.id loser,OrdSet.mem_ofList,List.mem_map]
    rfl
  show Projection.candidate (names.record item.1) item.2 ((replacing'.find? (names.id item.id)).getD .empty).elements = _
  rw [lost]
  rfl

theorem distinct_renamed (perm : others.Perm (winners.map names.counted)) (distinct : (winners.map Counted.id).Nodup) :
    (others.map Counted.id).Nodup := by
  refine (perm.map Counted.id).nodup_iff.mpr ?_
  have ids : (winners.map names.counted).map Counted.id = (winners.map Counted.id).map names.id := by
    rw [List.map_map,List.map_map]
    rfl
  rw [ids]
  exact distinct.map names.injective

theorem candidates_perm (candidates : List ProjectionCandidate) :
    (names.candidates candidates).Perm (candidates.map names.candidate) := List.perm_insertionSort _ _

/-- The candidates of a slot, renamed, in strictly ascending order. -/
theorem candidates_ascending {candidates : List ProjectionCandidate} (distinct : (candidates.map (·.claimId)).Nodup) :
    (names.candidates candidates).Pairwise (fun left right => left.claimId < right.claimId) := by
  have sorted : (names.candidates candidates).Pairwise (fun left right => left.claimId ≤ right.claimId) :=
    List.pairwise_insertionSort _ _
  have ids : (candidates.map names.candidate).map (·.claimId) = (candidates.map (·.claimId)).map names.id := by
    rw [List.map_map,List.map_map]
    rfl
  have apart : ((names.candidates candidates).map (·.claimId)).Nodup := by
    refine ((candidates_perm candidates).map (·.claimId)).nodup_iff.mpr ?_
    rw [ids]
    exact distinct.map names.injective
  exact (sorted.and (List.pairwise_map.mp apart)).imp fun both => lt_of_le_of_ne both.1 both.2

/-- The winners are listed as they were, under the new ids and in their order. -/
theorem listed_renamed (perm : others.Perm (winners.map names.counted)) (carries : names.CarriesSets replacing replacing')
    (distinct : (winners.map Counted.id).Nodup) : listed others replacing' = names.candidates (listed winners replacing) := by
  have ascending := listed_ascending distinct replacing
  have ascending' := listed_ascending (distinct_renamed perm distinct) replacing'
  have ids : ((listed winners replacing).map (·.claimId)).Nodup := List.pairwise_map.mpr (ascending.imp ne_of_lt)
  have same : (listed others replacing').Perm (names.candidates (listed winners replacing)) := by
    refine (listed_perm (distinct_renamed perm distinct) replacing').trans ?_
    refine ((perm.map (described replacing')).trans ?_).trans
      (((listed_perm distinct replacing).map names.candidate).symm.trans (candidates_perm _).symm)
    rw [List.map_map,List.map_map]
    exact List.Perm.of_eq (List.map_congr_left fun item _ => described_renamed carries item)
  refine same.eq_of_pairwise (fun left right _ _ below above => ?_) ascending' (candidates_ascending ids)
  exact absurd (below.trans above) (lt_irrefl _)

theorem mem_candidates {candidates : List ProjectionCandidate} {found : ProjectionCandidate} :
    found ∈ names.candidates candidates ↔ ∃ old ∈ candidates, names.candidate old = found := by
  rw [Renaming.candidates,sortCandidates,List.mem_insertionSort,List.mem_map]

theorem allEqual_renamed {candidates : List ProjectionCandidate} : allEqual (names.candidates candidates) = allEqual candidates := by
  rw [Bool.eq_iff_iff,allEqual_iff,allEqual_iff]
  simp only [mem_candidates]
  constructor
  · intro same left leftIn right rightIn
    exact same (names.candidate left) ⟨left,leftIn,rfl⟩ (names.candidate right) ⟨right,rightIn,rfl⟩
  · rintro same _ ⟨left,leftIn,rfl⟩ _ ⟨right,rightIn,rfl⟩
    exact same left leftIn right rightIn

/-- The same pairs contradict each other. -/
theorem conflictPairs_renamed {candidates : List ProjectionCandidate}
    (ascending : candidates.Pairwise (fun left right => left.claimId < right.claimId)) (proposal : ConflictProposal) :
    proposal ∈ conflictPairs (names.candidates candidates) ↔ ∃ old ∈ conflictPairs candidates, names.proposal old = proposal := by
  have ids : (candidates.map (·.claimId)).Nodup := List.pairwise_map.mpr (ascending.imp ne_of_lt)
  simp only [mem_conflictPairs (candidates_ascending ids),mem_conflictPairs ascending,mem_candidates]
  constructor
  · rintro ⟨below,_,⟨left,leftIn,rfl⟩,_,⟨right,rightIn,rfl⟩,leftNamed,rightNamed,differ⟩
    change names.id left.claimId = proposal.left at leftNamed
    change names.id right.claimId = proposal.right at rightNamed
    have renamed : ConflictProposal.new (names.id left.claimId) (names.id right.claimId) = proposal := by
      rw [leftNamed,rightNamed]
      exact if_pos below.le
    rcases lt_trichotomy left.claimId right.claimId with before | same | after
    · exact ⟨⟨left.claimId,right.claimId⟩,⟨before,left,leftIn,right,rightIn,rfl,rfl,differ⟩,renamed⟩
    · rw [← leftNamed,← rightNamed,same] at below
      exact absurd below (lt_irrefl _)
    · refine ⟨⟨right.claimId,left.claimId⟩,⟨after,right,rightIn,left,leftIn,rfl,rfl,Ne.symm differ⟩,?_⟩
      rw [← leftNamed,← rightNamed] at below
      rw [← renamed]
      show ConflictProposal.new _ _ = _
      rw [ConflictProposal.new,ConflictProposal.new,if_pos below.le,if_neg (not_le.mpr below)]
  · rintro ⟨⟨low,high⟩,⟨below,left,leftIn,right,rightIn,rfl,rfl,differ⟩,rfl⟩
    have apart : names.id left.claimId ≠ names.id right.claimId := fun same => below.ne (names.injective same)
    show (ConflictProposal.new _ _).left < (ConflictProposal.new _ _).right ∧ _
    unfold Renaming.proposal ConflictProposal.new
    split_ifs with ordered
    · exact ⟨lt_of_le_of_ne ordered apart,_,⟨left,leftIn,rfl⟩,_,⟨right,rightIn,rfl⟩,rfl,rfl,differ⟩
    · exact ⟨not_le.mp ordered,_,⟨right,rightIn,rfl⟩,_,⟨left,leftIn,rfl⟩,rfl,rfl,Ne.symm differ⟩

end

end Renaming

end Aicortex.Projection
