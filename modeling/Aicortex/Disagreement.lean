import Aicortex.SlotViews
import Mathlib.Order.Bounds.Basic

/-!
Who decides between the claims of one slot that survive explicit supersession. A
user's and a supplier's claim that differ are both kept; elsewhere the greatest
authority wins. A seed that differs from a user and a supplier who agree is taken
for such a disagreement too, and then nobody's authority counts.
-/

namespace Aicortex.Projection
open Aicortex.Text Aicortex.Claims Aicortex.History Aicortex.Windows Lib.Ordered Lib.Outcome
set_option linter.unusedSimpArgs false

/-- One claim explicitly supersedes another with effect by the knowledge bound. -/
def Supplants (history : ClaimHistory) (asOf : AsOf) (winner loser : ClaimId) : Prop :=
  ∃ relation ∈ history.relations, withinTx relation.tx asOf.knowledge = true ∧ Effective history relation winner loser

/-- A counting claim of the slot that no counting claim of the slot supersedes. -/
def Survives (build : Build) (policy : ProjectionPolicy) (history : ClaimHistory) (asOf : AsOf) (slot : SlotId)
    (record : ClaimRecord) : Prop :=
  Counts build policy history asOf record ∧ record.slotId = slot ∧
    ¬ ∃ winner, Counts build policy history asOf winner ∧ winner.slotId = slot ∧
      Supplants history asOf winner.claim.id record.claim.id

section
variable {build : Build} {policy : ProjectionPolicy} {history : ClaimHistory} {asOf : AsOf} {query : Window} {slot : SlotId}

theorem mem_active (asked : boundWindow build.tz policy asOf.valid = .ok query) (record : ClaimRecord) :
    (∃ item ∈ activeOf (retractedIds history asOf) (groupOf build policy history asOf query slot), item.1 = record) ↔
      Counts build policy history asOf record ∧ record.slotId = slot := by
  constructor
  · rintro ⟨item,inside,rfl⟩
    obtain ⟨inGroup,kept⟩ := List.mem_filter.mp inside
    obtain ⟨record,member,counted⟩ := List.mem_filterMap.mp inGroup
    obtain ⟨rfl,known,slotIs,covers,counts⟩ := countedIn_some build policy counted
    refine ⟨⟨member,known,?_,query,item.2,asked,covers,counts⟩,slotIs⟩
    simpa [Counted.id] using kept
  · rintro ⟨⟨member,known,unretracted,asked',certainty,bounded,covers,counts⟩,slotIs⟩
    obtain rfl := Except.ok.inj (bounded.symm.trans asked)
    refine ⟨(record,certainty),List.mem_filter.mpr ⟨List.mem_filterMap.mpr ⟨record,member,?_⟩,?_⟩,rfl⟩
    · simp [countedIn,known,slotIs,covers,counts]
    · simpa [Counted.id] using unretracted

theorem mem_surviving (asked : boundWindow build.tz policy asOf.valid = .ok query) (record : ClaimRecord) :
    (∃ item ∈ survivingOf (explicitlySuperseded history asOf)
      (activeOf (retractedIds history asOf) (groupOf build policy history asOf query slot)), item.1 = record) ↔
      Survives build policy history asOf slot record := by
  have named : ∀ id, id ∈ OrdSet.ofList
      ((activeOf (retractedIds history asOf) (groupOf build policy history asOf query slot)).map Counted.id) ↔
      ∃ record, (Counts build policy history asOf record ∧ record.slotId = slot) ∧ record.claim.id = id := by
    intro id
    simp only [OrdSet.mem_ofList,List.mem_map,← mem_active asked]
    constructor
    · rintro ⟨item,inside,rfl⟩
      exact ⟨item.1,⟨item,inside,rfl⟩,rfl⟩
    · rintro ⟨record,⟨item,inside,rfl⟩,rfl⟩
      exact ⟨item,inside,rfl⟩
  have removed : ∀ record : ClaimRecord, record.claim.id ∈ (explicitlySuperseded history asOf (.ofList
      ((activeOf (retractedIds history asOf) (groupOf build policy history asOf query slot)).map Counted.id))).removed ↔
      (∃ other, (Counts build policy history asOf other ∧ other.slotId = slot) ∧ other.claim.id = record.claim.id) ∧
        ∃ winner, Counts build policy history asOf winner ∧ winner.slotId = slot ∧
          Supplants history asOf winner.claim.id record.claim.id := by
    intro record
    rw [mem_explicitlySuperseded]
    constructor
    · rintro ⟨id,winnerIn,loserIn,effective⟩
      obtain ⟨winner,⟨counts,slotIs⟩,rfl⟩ := (named id).mp winnerIn
      exact ⟨(named _).mp loserIn,winner,counts,slotIs,effective⟩
    · rintro ⟨loser,winner,counts,slotIs,effective⟩
      exact ⟨_,(named _).mpr ⟨winner,⟨counts,slotIs⟩,rfl⟩,(named _).mpr loser,effective⟩
  constructor
  · rintro ⟨item,inside,rfl⟩
    obtain ⟨active,kept⟩ := List.mem_filter.mp inside
    obtain ⟨counts,slotIs⟩ := (mem_active asked item.1).mp ⟨item,active,rfl⟩
    rw [Bool.not_eq_true',OrdSet.contains_eq_false_iff,Counted.id,removed] at kept
    exact ⟨counts,slotIs,fun beaten => kept ⟨⟨item.1,⟨counts,slotIs⟩,rfl⟩,beaten⟩⟩
  · rintro ⟨counts,slotIs,unbeaten⟩
    obtain ⟨item,active,rfl⟩ := (mem_active asked record).mpr ⟨counts,slotIs⟩
    refine ⟨item,List.mem_filter.mpr ⟨active,?_⟩,rfl⟩
    rw [Bool.not_eq_true',OrdSet.contains_eq_false_iff,Counted.id,removed]
    exact fun beaten => unbeaten beaten.2

/-! ### Selection -/

theorem userSupplierConflict_iff {active : List Counted} : userSupplierConflict active = true ↔
    (∃ user ∈ active, user.1.admission.sourcing = .user) ∧
    (∃ supplier ∈ active, supplier.1.admission.sourcing = .supplier) ∧
    ∃ left ∈ active, ∃ right ∈ active, left.1.admission.sourcing ≠ right.1.admission.sourcing ∧
      left.1.claim.value ≠ right.1.claim.value := by
  simp [userSupplierConflict,and_assoc]

/-- Either nothing is weighed, or every winner has the greatest authority there is. -/
theorem selectWinners_split {active winners : List Counted} {replacing after : OrdMap ClaimId (OrdSet ClaimId)}
    (executed : selectWinners build policy active replacing = .ok (winners,after)) :
    (userSupplierConflict active = true ∧ winners = active) ∨
    (userSupplierConflict active = false ∧ ∀ item ∈ winners, item ∈ active ∧ item.1.authority = maxAuthority active) := by
  have topped : ∀ item ∈ active.filter (fun item => item.1.authority = maxAuthority active),
      item ∈ active ∧ item.1.authority = maxAuthority active := by
    intro item inside
    simpa using inside
  simp only [selectWinners] at executed
  split_ifs at executed with conflict ordered
  · cases executed
    exact .inl ⟨conflict,rfl⟩
  · obtain ⟨found,-,result⟩ := bind_ok_iff.mp executed
    cases result
    exact .inr ⟨by simpa using conflict,fun item inside => topped item (List.mem_filter.mp inside).1⟩
  · cases executed
    exact .inr ⟨by simpa using conflict,topped⟩

/-! ### What disagreement leaves -/

/-- A user's and a supplier's claim differ. -/
def Disputed (survives : ClaimRecord → Prop) : Prop :=
  ∃ user supplier, survives user ∧ survives supplier ∧ user.admission.sourcing = .user ∧
    supplier.admission.sourcing = .supplier ∧ user.claim.value ≠ supplier.claim.value

/-- A user and a supplier who differ are both listed in a conflict, and without such
    a pair every candidate has the greatest authority that survives. -/
structure Settled (survives : ClaimRecord → Prop) (state : SlotState) : Prop where
  disputed : ∀ user supplier, survives user → survives supplier → user.admission.sourcing = .user →
    supplier.admission.sourcing = .supplier → user.claim.value ≠ supplier.claim.value →
    ∃ candidates, state = .conflicted candidates ∧ (∃ first ∈ candidates, first.claimId = user.claim.id) ∧
      ∃ second ∈ candidates, second.claimId = supplier.claim.id
  ranked : ¬ Disputed survives → ∀ candidate ∈ state.candidates,
    IsGreatest { level | ∃ record, survives record ∧ record.authority = level } candidate.authority

/-- Users and suppliers agree, a seed differs from them, and not all have one authority. -/
def SeedDisturbs (survives : ClaimRecord → Prop) : Prop :=
  ¬ Disputed survives ∧ (∃ user, survives user ∧ user.admission.sourcing = .user ∧
    (∃ supplier, survives supplier ∧ supplier.admission.sourcing = .supplier) ∧
    ∃ seed, survives seed ∧ seed.admission.sourcing = .seed ∧ seed.claim.value ≠ user.claim.value) ∧
  ∃ low high, survives low ∧ survives high ∧ low.authority < high.authority

/-- With a user and a supplier there, the conflict test asks for a dispute or a
    seed that differs from them. -/
theorem conflict_iff_disputed_or_seed {active : List Counted} {survives : ClaimRecord → Prop}
    (members : ∀ record, (∃ item ∈ active, item.1 = record) ↔ survives record) :
    userSupplierConflict active = true ↔ Disputed survives ∨ ∃ user, survives user ∧ user.admission.sourcing = .user ∧
      (∃ supplier, survives supplier ∧ supplier.admission.sourcing = .supplier) ∧
      ∃ seed, survives seed ∧ seed.admission.sourcing = .seed ∧ seed.claim.value ≠ user.claim.value := by
  have restated : userSupplierConflict active = true ↔ (∃ user, survives user ∧ user.admission.sourcing = .user) ∧
      (∃ supplier, survives supplier ∧ supplier.admission.sourcing = .supplier) ∧
      ∃ left right, survives left ∧ survives right ∧ left.admission.sourcing ≠ right.admission.sourcing ∧
        left.claim.value ≠ right.claim.value := by
    rw [userSupplierConflict_iff]
    simp only [← members]
    aesop
  rw [restated]
  constructor
  · rintro ⟨⟨user,userIn,isUser⟩,⟨supplier,supplierIn,isSupplier⟩,left,right,leftIn,rightIn,apart,differ⟩
    by_cases disputed : Disputed survives
    · exact .inl disputed
    right
    have among : ∀ one other, survives one → survives other → one.admission.sourcing = .user →
        other.admission.sourcing = .supplier → one.claim.value = other.claim.value := by
      intro one other oneIn otherIn isOne isOther
      by_contra differ
      exact disputed ⟨one,other,oneIn,otherIn,isOne,isOther,differ⟩
    -- Whoever is no seed agrees with the user.
    have agree : ∀ record, survives record → record.admission.sourcing ≠ .seed → record.claim.value = user.claim.value := by
      intro record recordIn noSeed
      have settled := among user supplier userIn supplierIn isUser isSupplier
      cases sourced : record.admission.sourcing with
      | user =>
        rw [settled]
        exact among record supplier recordIn supplierIn sourced isSupplier
      | supplier => exact (among user record userIn recordIn isUser sourced).symm
      | seed => exact absurd sourced noSeed
    refine ⟨user,userIn,isUser,⟨supplier,supplierIn,isSupplier⟩,?_⟩
    by_cases leftSeed : left.admission.sourcing = .seed
    · refine ⟨left,leftIn,leftSeed,?_⟩
      rw [← agree right rightIn (fun rightSeed => apart (leftSeed.trans rightSeed.symm))]
      exact differ
    · rw [agree left leftIn leftSeed] at differ
      refine ⟨right,rightIn,?_,differ.symm⟩
      by_contra noSeed
      exact differ (agree right rightIn noSeed).symm
  · rintro (⟨user,supplier,userIn,supplierIn,isUser,isSupplier,differ⟩ |
      ⟨user,userIn,isUser,⟨supplier,supplierIn,isSupplier⟩,seed,seedIn,isSeed,differ⟩)
    · exact ⟨⟨user,userIn,isUser⟩,⟨supplier,supplierIn,isSupplier⟩,user,supplier,userIn,supplierIn,
        by simp [isUser,isSupplier],differ⟩
    · exact ⟨⟨user,userIn,isUser⟩,⟨supplier,supplierIn,isSupplier⟩,seed,user,seedIn,userIn,
        by simp [isUser,isSeed],differ⟩

/-- A slot is settled by authority, or by a dispute, unless a seed disturbs it. -/
theorem settled_iff (build : Build) (policy : ProjectionPolicy) (history : ClaimHistory) (asOf : AsOf)
    (view : CurrentView) (executed : project build policy history asOf = .ok view) (found : SlotView)
    (foundIn : found ∈ view.slots) :
    Settled (Survives build policy history asOf found.slot) found.state ↔
      ¬ SeedDisturbs (Survives build policy history asOf found.slot) := by
  obtain ⟨query,grouped,asked,counted,agrees,-⟩ := project_views executed
  obtain ⟨entry,entryIn,slotIs,pairs,resolved⟩ := forall₂_left agrees.flip foundIn
  have group := groupClaims_entry build policy counted entryIn
  rw [← slotIs,← groupOf] at group
  have members : ∀ record, (∃ item ∈ survivingOf (explicitlySuperseded history asOf)
      (activeOf (retractedIds history asOf) (groupOf build policy history asOf query found.slot)), item.1 = record) ↔
        Survives build policy history asOf found.slot record := fun record => mem_surviving asked record
  rw [← group] at members
  rcases resolveSlot_cases resolved with ⟨none,empty,-,-⟩ | ⟨winners,replacing,selected,candidatesAre,-,-⟩
  · have nobody : ∀ record, ¬ Survives build policy history asOf found.slot record := by
      intro record survives
      obtain ⟨item,inside,-⟩ := (members record).mpr survives
      simp [none,survivingOf] at inside
    refine iff_of_true ⟨fun user _ survives => absurd survives (nobody user),fun _ candidate inside => ?_⟩ ?_
    · simp [empty] at inside
    · rintro ⟨-,⟨user,survives,-⟩,-⟩
      exact nobody user survives
  have conflicts := conflict_iff_disputed_or_seed members
  have weighed := selectWinners_split selected
  have kept : userSupplierConflict (survivingOf (explicitlySuperseded history asOf)
      (activeOf (retractedIds history asOf) entry.2)) = true →
      ∀ record, Survives build policy history asOf found.slot record →
        ∃ candidate ∈ found.state.candidates, candidate.claimId = record.claim.id ∧
          candidate.value = record.claim.value ∧ candidate.authority = record.authority := by
    intro conflict record survives
    obtain ⟨item,inside,rfl⟩ := (members record).mpr survives
    obtain ⟨-,rfl⟩ := weighed.resolve_right (fun other => by simp [other.1] at conflict)
    obtain ⟨candidate,candidateIn,describes⟩ := describes_listed replacing inside
    exact ⟨candidate,candidatesAre ▸ candidateIn,describes.id,describes.value,describes.authority⟩
  constructor
  · rintro settled ⟨undisputed,seedThere,low,high,lowIn,highIn,below⟩
    obtain ⟨candidate,candidateIn,-,-,authority⟩ := kept (conflicts.mpr (.inr seedThere)) low lowIn
    have atMost := (settled.ranked undisputed candidate candidateIn).2 ⟨high,highIn,rfl⟩
    rw [authority] at atMost
    exact absurd atMost below.not_ge
  · intro undisturbed
    refine ⟨?_,?_⟩
    · intro user supplier userIn supplierIn isUser isSupplier differ
      have conflict := conflicts.mpr (.inl ⟨user,supplier,userIn,supplierIn,isUser,isSupplier,differ⟩)
      obtain ⟨first,firstIn,firstId,firstValue,-⟩ := kept conflict user userIn
      obtain ⟨second,secondIn,secondId,secondValue,-⟩ := kept conflict supplier supplierIn
      have contradict : Contradict found.state.candidates first.claimId second.claimId :=
        ⟨first,firstIn,second,secondIn,rfl,rfl,by rwa [firstValue,secondValue]⟩
      obtain ⟨candidates,stateIs⟩ := isConflicted_iff.mp
        ((resolveSlot_exact counted entryIn resolved).1.mpr ⟨_,_,contradict⟩)
      rw [stateIs] at firstIn secondIn
      exact ⟨candidates,stateIs,⟨first,firstIn,firstId⟩,second,secondIn,secondId⟩
    · intro undisputed candidate candidateIn
      obtain ⟨item,itemIn,describes⟩ := listed_describes (candidatesAre ▸ candidateIn)
      rw [describes.authority]
      rcases weighed with ⟨conflict,rfl⟩ | ⟨-,top⟩
      · have survives := (members item.1).mp ⟨item,itemIn,rfl⟩
        refine ⟨⟨item.1,survives,rfl⟩,?_⟩
        rintro _ ⟨record,recordIn,rfl⟩
        by_contra above
        exact undisturbed ⟨undisputed,(conflicts.mp conflict).resolve_left undisputed,item.1,record,survives,recordIn,
          not_le.mp above⟩
      · obtain ⟨inside,greatest⟩ := top item itemIn
        refine ⟨⟨item.1,(members item.1).mp ⟨item,inside,rfl⟩,rfl⟩,?_⟩
        rintro _ ⟨record,recordIn,rfl⟩
        obtain ⟨other,otherIn,rfl⟩ := (members record).mpr recordIn
        rw [greatest]
        exact le_maxAuthority otherIn

end

namespace Sample
open Claims.Sample History.Sample

/-- A claim of the sample slot from a source, at an authority. -/
def sourced (id : ClaimId) (value : String) (seq : Nat) (sourcing : Sourcing) (authority : AuthorityLevel) : ClaimRecord :=
  { record id value seq with authority := authority, admission := ⟨⟨id.value,id.bound⟩,"default",1,sourcing⟩ }

/-- A user and a supplier who differ. -/
def disputing : List Append :=
  [.claim (sourced firstId "12A" 1 .user .userAsserted),.claim (sourced secondId "14C" 2 .supplier .extracted)]

/-- A user and a supplier who agree, and a seed that differs and that was only inferred. -/
def disturbed : List Append :=
  [.claim (sourced firstId "12A" 1 .user .userAsserted),.claim (sourced secondId "12A" 2 .supplier .extracted),
    .claim (sourced thirdId "16D" 3 .seed .inferred)]

/-- The view of the sample slot. -/
def slotAt (history : ClaimHistory) (seq : Nat) : SlotView :=
  (viewAt history seq).slots.headD ⟨(record firstId "12A" 1).slotId,.absent⟩

end Sample

/-- Without a seed nothing disturbs the two, and both are listed. -/
theorem settled_iff_disputing :
    (Sample.slotAt (Sample.history Sample.disputing) 2).state.candidates.map (·.claimId) =
        [Sample.firstId,Sample.secondId] ∧
      Settled (Survives Sample.build Sample.policy (Sample.history Sample.disputing) (Sample.asOf 2)
        (Sample.slotAt (Sample.history Sample.disputing) 2).slot) (Sample.slotAt (Sample.history Sample.disputing) 2).state := by
  refine ⟨by decide +kernel,(settled_iff Sample.build Sample.policy (Sample.history Sample.disputing) (Sample.asOf 2)
    (Sample.viewAt (Sample.history Sample.disputing) 2) (Sample.viewAt_ok (by decide +kernel)) _ (by decide +kernel)).mpr ?_⟩
  rintro ⟨-,⟨-,-,-,-,seed,⟨⟨seedIn,-⟩,-⟩,isSeed,-⟩,-⟩
  have unseeded : ∀ record ∈ (Sample.history Sample.disputing).claims.values, record.admission.sourcing ≠ .seed := by
    decide +kernel
  exact unseeded seed seedIn isSeed

/-- A seed's differing claim is listed beside a user and a supplier who agree, below
    both in authority. -/
theorem seed_bypasses_authority :
    ¬ ∀ (build : Build) (policy : ProjectionPolicy) (history : ClaimHistory) (asOf : AsOf) (view : CurrentView),
      project build policy history asOf = .ok view → ∀ found ∈ view.slots,
        Settled (Survives build policy history asOf found.slot) found.state := by
  intro always
  have settled := always Sample.build Sample.policy (Sample.history Sample.disturbed) (Sample.asOf 3)
    (Sample.viewAt (Sample.history Sample.disturbed) 3) (Sample.viewAt_ok (by decide +kernel))
    (Sample.slotAt (Sample.history Sample.disturbed) 3) (by decide +kernel)
  have undisputed : ¬ Disputed (Survives Sample.build Sample.policy (Sample.history Sample.disturbed) (Sample.asOf 3)
      (Sample.slotAt (Sample.history Sample.disturbed) 3).slot) := by
    rintro ⟨user,supplier,⟨⟨userIn,-⟩,-⟩,⟨⟨supplierIn,-⟩,-⟩,isUser,isSupplier,differ⟩
    have agree : ∀ user ∈ (Sample.history Sample.disturbed).claims.values,
        ∀ supplier ∈ (Sample.history Sample.disturbed).claims.values, user.admission.sourcing = .user →
          supplier.admission.sourcing = .supplier → user.claim.value = supplier.claim.value := by decide +kernel
    exact differ (agree user userIn supplier supplierIn isUser isSupplier)
  obtain ⟨seed,seedIn,inferred⟩ : ∃ seed ∈ (Sample.slotAt (Sample.history Sample.disturbed) 3).state.candidates,
      seed.authority = .inferred := by decide +kernel
  have asserted : Survives Sample.build Sample.policy (Sample.history Sample.disturbed) (Sample.asOf 3)
      (Sample.slotAt (Sample.history Sample.disturbed) 3).slot (Sample.sourced Sample.firstId "12A" 1 .user .userAsserted) := by
    refine ⟨⟨by decide +kernel,by decide +kernel,by decide +kernel,_,_,rfl,rfl,rfl⟩,by decide +kernel,?_⟩
    rintro ⟨-,-,-,relation,member,-⟩
    exact absurd member (by simp [show (Sample.history Sample.disturbed).relations = [] by decide +kernel])
  have atMost := (settled.ranked undisputed seed seedIn).2 ⟨_,asserted,rfl⟩
  rw [inferred] at atMost
  exact absurd atMost (by decide)

end Aicortex.Projection
