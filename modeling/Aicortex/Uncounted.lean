import Aicortex.Disagreement

/-!
A claim that does not count for a query has no say in it. What a slot resolves to is
a function of its active claims and of the supersessions between them, so a history
without the claim, its relations and its retractions gives the same slots wherever
a claim counts, and the same conflicts.
-/

namespace Aicortex.Projection
open Aicortex.Text Aicortex.Claims Aicortex.History Aicortex.Windows Lib.Ordered Lib.Outcome
set_option linter.unusedSimpArgs false

/-- A history without a claim, its relations and its retractions. -/
def without (history : ClaimHistory) (id : ClaimId) : ClaimHistory where
  claims := history.claims.erase id
  relations := history.relations.filter (fun relation =>
    decide (relation.relation.source ≠ id) && decide (relation.relation.target ≠ .claim id))
  retractions := history.retractions.filter (fun item => decide (item.target ≠ id))
  usedTx := history.usedTx
  keyed := by
    intro other record found
    rw [OrdMap.find?_erase] at found
    split_ifs at found
    exact history.keyed other record found

/-- No record under the id counts for the query. -/
def Uncounted (build : Build) (policy : ProjectionPolicy) (history : ClaimHistory) (asOf : AsOf) (id : ClaimId) : Prop :=
  ∀ record, history.claims.find? id = some record → ¬ Counts build policy history asOf record

section
variable {build : Build} {policy : ProjectionPolicy} {history : ClaimHistory} {asOf : AsOf} {query : Window} {id : ClaimId}

theorem values_without : (without history id).claims.values = history.claims.values.filter (fun record => decide (record.claim.id ≠ id)) :=
  OrdMap.values_erase history.claims (·.claim.id) history.keyed id

theorem mem_retracted_without {other : ClaimId} (apart : other ≠ id) :
    other ∈ retractedIds (without history id) asOf ↔ other ∈ retractedIds history asOf := by
  simp only [retractedIds,without,OrdSet.mem_ofList,List.mem_map,List.mem_filter,decide_eq_true_eq]
  constructor
  · rintro ⟨item,⟨⟨member,-⟩,known⟩,rfl⟩
    exact ⟨item,⟨member,known⟩,rfl⟩
  · rintro ⟨item,⟨member,known⟩,rfl⟩
    exact ⟨item,⟨⟨member,apart⟩,known⟩,rfl⟩

theorem mem_values_iff {record : ClaimRecord} :
    record ∈ history.claims.values ↔ history.claims.find? record.claim.id = some record := by
  rw [OrdMap.mem_values]
  constructor
  · rintro ⟨key,found⟩
    rwa [history.keyed key record found]
  · intro found
    exact ⟨_,found⟩

theorem Counts.apart {record : ClaimRecord} (counts : Counts build policy history asOf record)
    (uncounted : Uncounted build policy history asOf id) : record.claim.id ≠ id := by
  rintro rfl
  exact uncounted record (mem_values_iff.mp counts.1) counts

/-- Nobody else starts or stops counting. -/
theorem counts_without (uncounted : Uncounted build policy history asOf id) (record : ClaimRecord) :
    Counts build policy (without history id) asOf record ↔ Counts build policy history asOf record := by
  have member : record.claim.id ≠ id →
      (record ∈ (without history id).claims.values ↔ record ∈ history.claims.values) := by
    intro apart
    simp [values_without,apart]
  constructor
  · rintro ⟨inside,known,unretracted,reads⟩
    have apart : record.claim.id ≠ id := by
      rw [values_without,List.mem_filter] at inside
      simpa using inside.2
    exact ⟨(member apart).mp inside,known,fun retracted => unretracted ((mem_retracted_without apart).mpr retracted),reads⟩
  · intro counts
    have apart := counts.apart uncounted
    obtain ⟨inside,known,unretracted,reads⟩ := counts
    exact ⟨(member apart).mpr inside,known,fun retracted => unretracted ((mem_retracted_without apart).mp retracted),reads⟩

/-- The active claims, record by record. -/
theorem active_eq (retracted : OrdSet ClaimId) (slot : SlotId) :
    activeOf retracted (groupOf build policy history asOf query slot) =
      history.claims.values.filterMap (fun record => (countedIn build policy asOf query slot record).filter
        (fun item => !retracted.contains item.id)) := by
  rw [activeOf,groupOf,List.filter_filterMap]

/-- The active claims of a slot are the same. -/
theorem active_without (asked : boundWindow build.tz policy asOf.valid = .ok query)
    (uncounted : Uncounted build policy history asOf id) (slot : SlotId) :
    activeOf (retractedIds (without history id) asOf) (groupOf build policy (without history id) asOf query slot) =
      activeOf (retractedIds history asOf) (groupOf build policy history asOf query slot) := by
  rw [active_eq,active_eq,values_without,List.filterMap_filter]
  refine List.filterMap_congr fun record member => ?_
  cases counted : countedIn build policy asOf query slot record with
  | none => simp
  | some item =>
    obtain ⟨sameRecord,known,slotIs,covers,counts⟩ := countedIn_some build policy counted
    have named : item.id = record.claim.id := by rw [Counted.id,sameRecord]
    by_cases apart : record.claim.id = id
    · -- The record left out counts for nothing else than its retraction.
      have retracted : record.claim.id ∈ retractedIds history asOf := by
        by_contra unretracted
        exact uncounted record (apart ▸ mem_values_iff.mp member)
          ⟨member,known,unretracted,query,item.2,asked,covers,counts⟩
      rw [apart] at retracted
      simp [Option.filter_some,named,apart,retracted]
    · simp [apart,named,Option.filter_some,mem_retracted_without apart]

/-- Between other claims the same supersessions take effect. -/
theorem superseded_without {ids : OrdSet ClaimId} (outside : id ∉ ids) :
    explicitlySuperseded (without history id) asOf ids = explicitlySuperseded history asOf ids := by
  rw [explicitlySuperseded_eq,explicitlySuperseded_eq]
  refine Superseded.addAll_congr _ ?_
  rintro ⟨winner,loser⟩
  rw [mem_effectivePairs,mem_effectivePairs]
  refine and_congr_right fun winnerIn => and_congr_right fun loserIn => ?_
  have winnerApart : winner ≠ id := fun same => outside (same ▸ winnerIn)
  have loserApart : loser ≠ id := fun same => outside (same ▸ loserIn)
  have found : (without history id).claims.find? loser = history.claims.find? loser := by
    rw [without,OrdMap.find?_erase,if_neg loserApart]
  constructor
  · rintro ⟨relation,inside,known,kind,sourceIs,targetIs,strong⟩
    rw [found] at strong
    exact ⟨relation,(List.mem_filter.mp inside).1,known,kind,sourceIs,targetIs,strong⟩
  · rintro ⟨relation,inside,known,kind,sourceIs,targetIs,strong⟩
    rw [← found] at strong
    refine ⟨relation,List.mem_filter.mpr ⟨inside,?_⟩,known,kind,sourceIs,targetIs,strong⟩
    simp [sourceIs,targetIs,winnerApart,loserApart]

/-- A slot with an active claim is resolved from its active claims. -/
theorem resolveSlot_congr {retracted retracted' : OrdSet ClaimId} {supersededIn supersededIn' : OrdSet ClaimId → Superseded}
    {all all' : List Counted} (active : activeOf retracted' all' = activeOf retracted all)
    (nonempty : activeOf retracted all ≠ [])
    (superseded : supersededIn' (.ofList ((activeOf retracted all).map Counted.id)) =
      supersededIn (.ofList ((activeOf retracted all).map Counted.id))) :
    resolveSlot build policy retracted' supersededIn' all' = resolveSlot build policy retracted supersededIn all := by
  rw [activeOf,activeOf] at active
  rw [activeOf] at nonempty superseded
  simp only [resolveSlot,active,superseded,List.isEmpty_iff,nonempty,if_false]

/-- The active claims of a slot are those that count. -/
theorem active_nonempty_iff (asked : boundWindow build.tz policy asOf.valid = .ok query) (slot : SlotId) :
    activeOf (retractedIds history asOf) (groupOf build policy history asOf query slot) ≠ [] ↔
      ∃ record, Counts build policy history asOf record ∧ record.slotId = slot := by
  simp only [← mem_active asked,ne_eq,List.eq_nil_iff_forall_not_mem,not_forall,not_not]
  constructor
  · rintro ⟨item,inside⟩
    exact ⟨item.1,item,inside,rfl⟩
  · rintro ⟨-,item,inside,-⟩
    exact ⟨item,inside⟩

/-- A slot resolves alike with and without a claim that does not count. -/
theorem resolveSlot_without (asked : boundWindow build.tz policy asOf.valid = .ok query)
    (uncounted : Uncounted build policy history asOf id) {slot : SlotId}
    (counting : ∃ record, Counts build policy history asOf record ∧ record.slotId = slot) :
    resolveSlot build policy (retractedIds (without history id) asOf) (explicitlySuperseded (without history id) asOf)
        (groupOf build policy (without history id) asOf query slot) =
      resolveSlot build policy (retractedIds history asOf) (explicitlySuperseded history asOf)
        (groupOf build policy history asOf query slot) := by
  refine resolveSlot_congr (active_without asked uncounted slot) ((active_nonempty_iff asked slot).mpr counting) ?_
  refine superseded_without ?_
  rw [OrdSet.mem_ofList,List.mem_map]
  rintro ⟨item,inside,named⟩
  exact ((mem_active asked item.1).mp ⟨item,inside,rfl⟩).1.apart uncounted named

/-! ### Views by slot -/

/-- The slots of a view with a counting claim are resolved from their groups. -/
theorem mem_slots_iff {view : CurrentView} (executed : project build policy history asOf = .ok view)
    (asked : boundWindow build.tz policy asOf.valid = .ok query) {slot : SlotId}
    (counting : ∃ record, Counts build policy history asOf record ∧ record.slotId = slot) {found : SlotView}
    (named : found.slot = slot) : found ∈ view.slots ↔
      ∃ pairs, resolveSlot build policy (retractedIds history asOf) (explicitlySuperseded history asOf)
        (groupOf build policy history asOf query slot) = .ok (found.state,pairs) := by
  obtain ⟨query',grouped,asked',counted,agrees,-⟩ := project_views executed
  obtain rfl : query = query' := Except.ok.inj (asked.symm.trans asked')
  have group : ∀ entry ∈ grouped.entries, entry.2 = groupOf build policy history asOf query entry.1 :=
    fun entry entryIn => groupClaims_entry build policy counted entryIn
  constructor
  · intro foundIn
    obtain ⟨entry,entryIn,slotIs,pairs,resolved⟩ := forall₂_left agrees.flip foundIn
    rw [group entry entryIn,← slotIs,named] at resolved
    exact ⟨pairs,resolved⟩
  · rintro ⟨pairs,resolved⟩
    obtain ⟨record,counts,inSlot⟩ := counting
    obtain ⟨items,held⟩ := (OrdMap.contains_iff _ _).mp
      ((groupClaims_ok build policy counted slot).2.mpr ⟨record,counts.1,counts.2.1,inSlot⟩)
    have entryIn := (OrdMap.find?_iff_mem _ _ _).mp held
    obtain ⟨other,otherIn,slotIs,otherPairs,otherResolved⟩ := forall₂_left agrees entryIn
    rw [group _ entryIn] at otherResolved
    obtain ⟨states,-⟩ := Prod.mk.inj (Except.ok.inj (otherResolved.symm.trans resolved))
    have same : other = found := by
      rw [← named] at slotIs
      cases other
      cases found
      simp_all
    exact same ▸ otherIn

/-- A conflict is proposed by a slot with a counting claim. -/
theorem mem_proposals_iff {view : CurrentView} (executed : project build policy history asOf = .ok view)
    (asked : boundWindow build.tz policy asOf.valid = .ok query) (proposal : ConflictProposal) :
    proposal ∈ view.conflictProposals ↔ ∃ slot, (∃ record, Counts build policy history asOf record ∧ record.slotId = slot) ∧
      ∃ state pairs, resolveSlot build policy (retractedIds history asOf) (explicitlySuperseded history asOf)
        (groupOf build policy history asOf query slot) = .ok (state,pairs) ∧ proposal ∈ pairs := by
  obtain ⟨query',grouped,asked',counted,-,-,-,proposed⟩ := project_views executed
  obtain rfl : query = query' := Except.ok.inj (asked.symm.trans asked')
  have group : ∀ entry ∈ grouped.entries, entry.2 = groupOf build policy history asOf query entry.1 :=
    fun entry entryIn => groupClaims_entry build policy counted entryIn
  rw [proposed]
  constructor
  · rintro ⟨entry,entryIn,state,pairs,resolved,inside⟩
    rw [group entry entryIn] at resolved
    refine ⟨entry.1,(active_nonempty_iff asked entry.1).mp ?_,state,pairs,resolved,inside⟩
    rcases resolveSlot_cases resolved with ⟨-,-,-,rfl⟩ | ⟨winners,replacing,selected,-,-,rfl⟩
    · cases inside
    · intro none
      rw [none,survivingOf,List.filter_nil,selectWinners_nil] at selected
      cases selected
      simp [listed,sortCandidates,sortById,candidatesOf,allEqual] at inside
  · rintro ⟨slot,⟨record,counts,inSlot⟩,state,pairs,resolved,inside⟩
    obtain ⟨items,held⟩ := (OrdMap.contains_iff _ _).mp
      ((groupClaims_ok build policy counted slot).2.mpr ⟨record,counts.1,counts.2.1,inSlot⟩)
    have entryIn := (OrdMap.find?_iff_mem _ _ _).mp held
    refine ⟨(slot,items),entryIn,state,pairs,?_,inside⟩
    rwa [group _ entryIn]

/-! ### Who replaced whom -/

/-- Only claims of a set replace claims, and only claims of the set are replaced. -/
def Among (ids : ClaimId → Prop) (replacing : OrdMap ClaimId (OrdSet ClaimId)) : Prop :=
  ∀ winner losers, replacing.find? winner = some losers → ids winner ∧ ∀ loser ∈ losers, ids loser

variable {ids : ClaimId → Prop}

theorem among_add {found : Superseded} {winner loser : ClaimId} (among : Among ids found.replacing)
    (winnerIn : ids winner) (loserIn : ids loser) : Among ids (found.add winner loser).replacing := by
  intro other losers held
  rw [Superseded.add,OrdMap.find?_upsert] at held
  split_ifs at held with same
  · cases held
    refine ⟨same ▸ winnerIn,fun lost inside => ?_⟩
    rcases (OrdSet.mem_insert _ _ _).mp inside with rfl | old
    · exact loserIn
    · cases known : found.replacing.find? winner with
      | none => simp [known] at old
      | some losers =>
        rw [known,Option.getD_some] at old
        exact (among winner losers known).2 lost old
  · exact among other losers held

theorem among_addAll {pairs : List (ClaimId × ClaimId)} (inside : ∀ pair ∈ pairs, ids pair.1 ∧ ids pair.2)
    {found : Superseded} (among : Among ids found.replacing) : Among ids (Superseded.addAll pairs found).replacing := by
  induction pairs generalizing found with
  | nil => exact among
  | cons pair rest ih =>
    obtain ⟨winnerIn,loserIn⟩ := inside pair List.mem_cons_self
    exact ih (fun other member => inside other (List.mem_cons_of_mem _ member)) (among_add among winnerIn loserIn)

theorem among_bySource {active : List Counted} (inside : ∀ item ∈ active, ids item.id)
    {replacing : OrdMap ClaimId (OrdSet ClaimId)} (among : Among ids replacing) {found : Superseded}
    (executed : supersededBySource build policy active replacing = .ok found) : Among ids found.replacing := by
  rw [supersededBySource_eq executed]
  refine among_addAll (fun pair decided => ?_) among
  obtain ⟨left,leftIn,right,rightIn,-,rfl⟩ := mem_sourcePairs.mp decided
  exact ⟨inside right rightIn,inside left leftIn⟩

theorem among_select {active winners : List Counted} (inside : ∀ item ∈ active, ids item.id)
    {replacing after : OrdMap ClaimId (OrdSet ClaimId)} (among : Among ids replacing)
    (executed : selectWinners build policy active replacing = .ok (winners,after)) : Among ids after := by
  simp only [selectWinners] at executed
  split_ifs at executed
  · cases executed
    exact among
  · obtain ⟨found,looped,result⟩ := bind_ok_iff.mp executed
    cases result
    exact among_bySource (fun item member => inside item (List.mem_filter.mp member).1) among looped
  · cases executed
    exact among

/-- A candidate lists only claims of the set. -/
theorem among_listed {winners : List Counted} {replacing : OrdMap ClaimId (OrdSet ClaimId)} (among : Among ids replacing)
    {candidate : ProjectionCandidate} (inside : candidate ∈ listed winners replacing) :
    ∀ loser ∈ candidate.superseded, ids loser := by
  have general : ∀ (winners : List Counted) (replacing : OrdMap ClaimId (OrdSet ClaimId)), Among ids replacing →
      candidate ∈ candidatesOf winners replacing → ∀ loser ∈ candidate.superseded, ids loser := by
    intro winners
    induction winners with
    | nil => simp [candidatesOf]
    | cons item rest ih =>
      intro replacing among inside loser lost
      rcases List.mem_cons.mp inside with rfl | later
      · cases held : replacing.find? item.id with
        | none => simp [candidate,held,OrdSet.empty] at lost
        | some losers => exact (among item.id losers held).2 loser ((OrdSet.mem_def _ _).mpr (by simpa [candidate,held] using lost))
      · refine ih (replacing.erase item.id) ?_ later loser lost
        intro winner losers held
        rw [OrdMap.find?_erase] at held
        split_ifs at held
        exact among winner losers held
  exact general _ _ among ((List.mem_insertionSort _).mp inside)

/-- Whoever a candidate is listed to have replaced counts too, in the same slot. -/
theorem superseded_counts {view : CurrentView} (executed : project build policy history asOf = .ok view)
    {found : SlotView} (foundIn : found ∈ view.slots) {candidate : ProjectionCandidate}
    (candidateIn : candidate ∈ found.state.candidates) :
    ∀ named ∈ candidate.claimId :: candidate.superseded,
      ∃ record, Counts build policy history asOf record ∧ record.slotId = found.slot ∧ record.claim.id = named := by
  obtain ⟨query,grouped,asked,counted,agrees,-⟩ := project_views executed
  obtain ⟨entry,entryIn,slotIs,pairs,resolved⟩ := forall₂_left agrees.flip foundIn
  rw [groupClaims_entry build policy counted entryIn,← slotIs,← groupOf] at resolved
  rcases resolveSlot_cases resolved with ⟨-,empty,-,-⟩ | ⟨winners,replacing,selected,candidatesAre,-,-⟩
  · simp [empty] at candidateIn
  rw [candidatesAre] at candidateIn
  -- The claims that may be named: the active ones of the slot.
  let ids : ClaimId → Prop := fun named =>
    ∃ record, Counts build policy history asOf record ∧ record.slotId = found.slot ∧ record.claim.id = named
  have counting : ∀ item ∈ activeOf (retractedIds history asOf) (groupOf build policy history asOf query found.slot),
      ids item.id := by
    intro item inside
    obtain ⟨counts,inSlot⟩ := (mem_active asked item.1).mp ⟨item,inside,rfl⟩
    exact ⟨item.1,counts,inSlot,rfl⟩
  have surviving : ∀ item ∈ survivingOf (explicitlySuperseded history asOf)
      (activeOf (retractedIds history asOf) (groupOf build policy history asOf query found.slot)), ids item.id :=
    fun item inside => counting item (List.mem_filter.mp inside).1
  have named : ∀ id ∈ OrdSet.ofList ((activeOf (retractedIds history asOf)
      (groupOf build policy history asOf query found.slot)).map Counted.id), ids id := by
    intro id inside
    rw [OrdSet.mem_ofList,List.mem_map] at inside
    obtain ⟨item,itemIn,rfl⟩ := inside
    exact counting item itemIn
  have explicit : Among ids (explicitlySuperseded history asOf (.ofList ((activeOf (retractedIds history asOf)
      (groupOf build policy history asOf query found.slot)).map Counted.id))).replacing := by
    rw [explicitlySuperseded_eq]
    refine among_addAll ?_ (fun winner losers held => by simp [Superseded.empty] at held)
    rintro ⟨winner,loser⟩ effective
    obtain ⟨winnerIn,loserIn,-⟩ := (mem_effectivePairs _ _ _ _ _).mp effective
    exact ⟨named winner winnerIn,named loser loserIn⟩
  intro claim listedClaim
  rcases List.mem_cons.mp listedClaim with rfl | lost
  · obtain ⟨item,itemIn,describes⟩ := listed_describes candidateIn
    rw [describes.id]
    exact surviving item ((selectWinners_sublist selected).subset itemIn)
  · exact among_listed (among_select surviving explicit selected) candidateIn claim lost

/-! ### Survivors in the view -/

/-- A candidate is a claim that no counting claim supersedes. -/
theorem candidates_survive {view : CurrentView} (executed : project build policy history asOf = .ok view)
    {found : SlotView} (foundIn : found ∈ view.slots) {candidate : ProjectionCandidate}
    (candidateIn : candidate ∈ found.state.candidates) :
    ∃ record, Survives build policy history asOf found.slot record ∧ record.claim.id = candidate.claimId := by
  obtain ⟨query,grouped,asked,counted,agrees,-⟩ := project_views executed
  obtain ⟨entry,entryIn,slotIs,pairs,resolved⟩ := forall₂_left agrees.flip foundIn
  rw [groupClaims_entry build policy counted entryIn,← slotIs,← groupOf] at resolved
  rcases resolveSlot_cases resolved with ⟨-,empty,-,-⟩ | ⟨winners,replacing,selected,candidatesAre,-,-⟩
  · simp [empty] at candidateIn
  rw [candidatesAre] at candidateIn
  obtain ⟨item,itemIn,describes⟩ := listed_describes candidateIn
  exact ⟨item.1,(mem_surviving asked item.1).mp ⟨item,(selectWinners_sublist selected).subset itemIn,rfl⟩,describes.id.symm⟩

/-- Selection keeps the one claim there is. -/
theorem selectWinners_single {item : Counted} {winners : List Counted} {replacing after : OrdMap ClaimId (OrdSet ClaimId)}
    (executed : selectWinners build policy [item] replacing = .ok (winners,after)) : winners = [item] := by
  have highest : item.1.authority = maxAuthority [item] := by
    obtain ⟨best,bestIn,bestIs⟩ := exists_maxAuthority (List.cons_ne_nil item [])
    rw [List.mem_singleton.mp bestIn] at bestIs
    exact bestIs
  rcases selectWinners_ok executed with rfl | ⟨top,rfl,rfl | ⟨-,found,looped,rfl⟩⟩
  · rfl
  · simp [← highest]
  · have kept : item.id ∉ found.removed := by
      intro removed
      have alone : ∀ other ∈ [item].filter (fun item => item.1.authority = maxAuthority [item]), other = item :=
        fun other member => List.mem_singleton.mp (List.mem_filter.mp member).1
      obtain ⟨left,leftIn,-,right,rightIn,ahead⟩ := supersededBySource_removed looped removed
      rw [alone left leftIn,alone right rightIn] at ahead
      exact Lib.Dominance.Beats.irrefl _ (sourceOrder_gt ahead)
    simp [← highest,kept]

/-- A claim that alone survives is what its slot holds. -/
theorem only_survivor {view : CurrentView} (executed : project build policy history asOf = .ok view)
    {found : SlotView} (foundIn : found ∈ view.slots) {record : ClaimRecord}
    (survives : Survives build policy history asOf found.slot record)
    (only : ∀ other, Survives build policy history asOf found.slot other → other = record) :
    found.state.candidates.map (·.claimId) = [record.claim.id] := by
  obtain ⟨query,grouped,asked,counted,agrees,-⟩ := project_views executed
  obtain ⟨entry,entryIn,slotIs,pairs,resolved⟩ := forall₂_left agrees.flip foundIn
  rw [groupClaims_entry build policy counted entryIn,← slotIs,← groupOf] at resolved
  obtain ⟨item,itemIn,itemIs⟩ := (mem_surviving asked record).mpr survives
  have single : survivingOf (explicitlySuperseded history asOf)
      (activeOf (retractedIds history asOf) (groupOf build policy history asOf query found.slot)) = [item] := by
    generalize survivors : survivingOf (explicitlySuperseded history asOf)
      (activeOf (retractedIds history asOf) (groupOf build policy history asOf query found.slot)) = surviving
    rw [survivors] at itemIn
    have part : surviving.Sublist (groupOf build policy history asOf query found.slot) := by
      rw [← survivors]
      exact List.filter_sublist.trans List.filter_sublist
    have distinct : (surviving.map Counted.id).Nodup := (group_distinct history asOf query found.slot).sublist (part.map _)
    have same : surviving.map Counted.id = List.replicate surviving.length item.id := by
      refine List.eq_replicate_iff.mpr ⟨List.length_map _,?_⟩
      intro id member
      obtain ⟨other,otherIn,rfl⟩ := List.mem_map.mp member
      have otherIs := only other.1 ((mem_surviving asked other.1).mp ⟨other,survivors ▸ otherIn,rfl⟩)
      rw [Counted.id,Counted.id,otherIs,itemIs]
    rw [same] at distinct
    have few := List.nodup_replicate.mp distinct
    have some' := List.length_pos_of_mem itemIn
    obtain ⟨other,rfl⟩ := List.length_eq_one_iff.mp (Nat.le_antisymm few some')
    rw [List.mem_singleton.mp itemIn]
  rcases resolveSlot_cases resolved with ⟨nobody,-,-,-⟩ | ⟨winners,replacing,selected,candidatesAre,-,-⟩
  · rw [nobody,survivingOf,List.filter_nil] at single
    cases single
  rw [single] at selected
  obtain rfl := selectWinners_single selected
  have describe := listed_describe [item] replacing
  rw [← candidatesAre,show sortById [item] = [item] from rfl] at describe
  obtain ⟨candidate,rest,describes,none',is⟩ := List.forall₂_cons_right_iff.mp describe
  cases none'
  rw [is,List.map_singleton,describes.id,Counted.id,itemIs]

end

/-- A claim that does not count has no influence: without it, its relations and its
    retractions, every slot with a counting claim and every conflict is the same. A
    claim is a candidate only where no counting claim supersedes it, and is what its slot
    holds where no other claim is left; a claim is removed only by one that counts as it
    does, and replaces only such ones. -/
theorem uncounted_without_influence (build : Build) (policy : ProjectionPolicy) (history : ClaimHistory) (asOf : AsOf)
    (id : ClaimId) (uncounted : Uncounted build policy history asOf id) (before after : CurrentView)
    (projected : project build policy history asOf = .ok before)
    (projectedWithout : project build policy (without history id) asOf = .ok after) :
    (∀ record, Counts build policy history asOf record → (∃ found ∈ before.slots, found.slot = record.slotId) ∧
      ∀ found : SlotView, found.slot = record.slotId → (found ∈ before.slots ↔ found ∈ after.slots)) ∧
    before.conflictProposals = after.conflictProposals ∧
    (∀ query, boundWindow build.tz policy asOf.valid = .ok query → ∀ slot record,
      (∃ item ∈ survivingOf (explicitlySuperseded history asOf)
        (activeOf (retractedIds history asOf) (groupOf build policy history asOf query slot)), item.1 = record) ↔
        Survives build policy history asOf slot record) ∧
    (∀ found ∈ before.slots, ∀ candidate ∈ found.state.candidates,
      ∃ record, Survives build policy history asOf found.slot record ∧ record.claim.id = candidate.claimId) ∧
    (∀ found ∈ before.slots, ∀ record, Survives build policy history asOf found.slot record →
      (∀ other, Survives build policy history asOf found.slot other → other = record) →
        found.state.candidates.map (·.claimId) = [record.claim.id]) ∧
    ∀ found ∈ before.slots, ∀ candidate ∈ found.state.candidates, ∀ named ∈ candidate.claimId :: candidate.superseded,
      ∃ record, Counts build policy history asOf record ∧ record.slotId = found.slot ∧ record.claim.id = named := by
  obtain ⟨query,grouped,asked,counted,agrees,-,sorted,-⟩ := project_views projected
  obtain ⟨-,-,-,-,-,-,sortedWithout,-⟩ := project_views projectedWithout
  have still : ∀ slot, (∃ record, Counts build policy (without history id) asOf record ∧ record.slotId = slot) ↔
      ∃ record, Counts build policy history asOf record ∧ record.slotId = slot :=
    fun slot => exists_congr fun record => and_congr_left fun _ => counts_without uncounted record
  refine ⟨?_,?_,?_,fun found foundIn candidate candidateIn => candidates_survive projected foundIn candidateIn,
    fun found foundIn record survives only => only_survivor projected foundIn survives only,?_⟩
  · intro record counts
    refine ⟨?_,fun found named => ?_⟩
    · obtain ⟨items,held⟩ := (OrdMap.contains_iff _ _).mp
        ((groupClaims_ok build policy counted record.slotId).2.mpr ⟨record,counts.1,counts.2.1,rfl⟩)
      obtain ⟨found,foundIn,slotIs,-⟩ := forall₂_left agrees ((OrdMap.find?_iff_mem _ _ _).mp held)
      exact ⟨found,foundIn,slotIs⟩
    · have counting : ∃ other, Counts build policy history asOf other ∧ other.slotId = record.slotId := ⟨record,counts,rfl⟩
      rw [mem_slots_iff projected asked counting named,
        mem_slots_iff projectedWithout asked ((still _).mpr counting) named,resolveSlot_without asked uncounted counting]
  · have same : ∀ proposal, proposal ∈ before.conflictProposals ↔ proposal ∈ after.conflictProposals := by
      intro proposal
      rw [mem_proposals_iff projected asked,mem_proposals_iff projectedWithout asked]
      refine exists_congr fun slot => ?_
      rw [still]
      exact and_congr_right fun counting => by rw [resolveSlot_without asked uncounted counting]
    exact congrArg OrdSet.elements (@OrdSet.ext_mem _ _ ⟨before.conflictProposals,sorted⟩ ⟨after.conflictProposals,sortedWithout⟩ same)
  · intro query' asked' slot record
    exact mem_surviving asked' record
  · intro found foundIn candidate candidateIn
    exact superseded_counts projected foundIn candidateIn

namespace Sample
open Claims.Sample History.Sample

/-- A claim superseded by another that is then retracted. -/
def withdrawn : List Append :=
  [.claim (record firstId "12A" 1),.claim (record secondId "14C" 2),
    .relation (supersedes secondId firstId second_ne_first.symm 3),.retraction (retraction secondId 4)]

theorem withdrawn_uncounted : Uncounted build policy (history withdrawn) (asOf 4) secondId := by
  rintro record found ⟨-,-,unretracted,-⟩
  rw [(history withdrawn).keyed secondId record found] at unretracted
  exact unretracted (by decide +kernel)

end Sample

theorem uncounted_without_influence_withdrawn :
    (Sample.viewAt (Sample.history Sample.withdrawn) 4).slots.map (fun found => found.state.candidates.map (·.claimId)) =
      [[Sample.firstId]] ∧
    (∃ found ∈ (Sample.viewAt (Sample.history Sample.withdrawn) 4).slots,
      found ∈ (Sample.viewAt (without (Sample.history Sample.withdrawn) Sample.secondId) 4).slots) ∧
    (Sample.viewAt (Sample.history Sample.withdrawn) 4).conflictProposals =
      (Sample.viewAt (without (Sample.history Sample.withdrawn) Sample.secondId) 4).conflictProposals := by
  obtain ⟨slots,conflicts,-⟩ := uncounted_without_influence Sample.build Sample.policy (Sample.history Sample.withdrawn)
    (Sample.asOf 4) Sample.secondId Sample.withdrawn_uncounted (Sample.viewAt (Sample.history Sample.withdrawn) 4)
    (Sample.viewAt (without (Sample.history Sample.withdrawn) Sample.secondId) 4)
    (Sample.viewAt_ok (by decide +kernel)) (Sample.viewAt_ok (by decide +kernel))
  have counts : Counts Sample.build Sample.policy (Sample.history Sample.withdrawn) (Sample.asOf 4)
      (Sample.record Sample.firstId "12A" 1) :=
    ⟨by decide +kernel,by decide +kernel,by decide +kernel,_,_,rfl,rfl,rfl⟩
  obtain ⟨⟨found,foundIn,named⟩,same⟩ := slots _ counts
  exact ⟨by decide +kernel,⟨found,foundIn,(same found named).mp foundIn⟩,conflicts⟩

end Aicortex.Projection
