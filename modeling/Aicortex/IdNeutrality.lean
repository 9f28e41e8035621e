import Aicortex.Renaming

/-!
The view of a history under other claim ids is the view under those ids. Only ids that
are shown are renamed: what counts, who wins and what conflicts stays, unless the claims
of a slot disagree on the rule they supersede each other by, since the first of them in
id order is asked for it.
-/

namespace Aicortex.Projection
open Aicortex.Text Aicortex.Claims Aicortex.History Aicortex.Windows Lib.Ordered Lib.Outcome
set_option linter.unusedSimpArgs false

/-- The claims of a slot share one supersession rule. -/
def OneRule (history : ClaimHistory) : Prop :=
  ∀ left ∈ history.claims.values, ∀ right ∈ history.claims.values, left.slotId = right.slotId →
    left.supersession = right.supersession

/-- A view of slots and proposals under its digest. -/
def stamped (build : Build) (policy : ProjectionPolicy) (asOf : AsOf) (highWater : Nat) (slots : List SlotView)
    (proposals : List ConflictProposal) : Except ProjectionError CurrentView :=
  match build.viewDigest asOf highWater policy.version (build.policyDigest policy) slots proposals with
  | .error reason => .error (.serialization reason)
  | .ok digest => .ok ⟨asOf,highWater,policy.version,build.policyDigest policy,slots,proposals,digest⟩

theorem project_eq (build : Build) (policy : ProjectionPolicy) (history : ClaimHistory) (asOf : AsOf) :
    project build policy history asOf =
      if policy.timeZoneDatabase ≠ build.tz.version then .error (.unsupportedTimeZoneDatabase policy.timeZoneDatabase)
      else projectSlots build policy history asOf >>= fun found => stamped build policy asOf history.highWater
        (found.1.insertionSort (fun a b => a.slot ≤ b.slot)) found.2.elements := rfl

namespace Renaming

section
variable {names : Renaming} {build : Build} {policy : ProjectionPolicy}

/-! ### One slot -/

/-- The state and the proposals of a slot under the new ids. -/
def ResolvedAs (names : Renaming) (found other : SlotState × List ConflictProposal) : Prop :=
  other.1 = names.state found.1 ∧ ∀ proposal, proposal ∈ other.2 ↔ ∃ old ∈ found.2, names.proposal old = proposal

/-- A set of ids under the new ids. -/
def Renames (names : Renaming) (ids others : OrdSet ClaimId) : Prop := ∀ id, id ∈ others ↔ ∃ old ∈ ids, names.id old = id

theorem listed_resolved {winners others : List Counted} {replacing replacing' : OrdMap ClaimId (OrdSet ClaimId)}
    (selected : names.Selected (winners,replacing) (others,replacing')) (distinct : (winners.map Counted.id).Nodup) :
    Agree names.ResolvedAs
      (if allEqual (listed winners replacing) then .ok (.value (listed winners replacing),[])
        else .ok (.conflicted (listed winners replacing),conflictPairs (listed winners replacing)))
      (if allEqual (listed others replacing') then (.ok (.value (listed others replacing'),[]) : Except ProjectionError _)
        else .ok (.conflicted (listed others replacing'),conflictPairs (listed others replacing'))) := by
  rw [listed_renamed selected.1 selected.2 distinct,allEqual_renamed]
  split_ifs with equal
  · exact .returned ⟨rfl,by simp⟩
  · exact .returned ⟨rfl,conflictPairs_renamed (listed_ascending distinct replacing)⟩

/-- A slot of renamed claims is resolved as the slot was. -/
theorem resolveSlot_renamed {all others : List Counted} {retracted retracted' : OrdSet ClaimId}
    {supersededIn supersededIn' : OrdSet ClaimId → Superseded} (perm : others.Perm (all.map names.counted))
    (withdrawn : ∀ id, names.id id ∈ retracted' ↔ id ∈ retracted)
    (superseded : ∀ ids ids', names.Renames ids ids' → names.Carries (supersededIn ids) (supersededIn' ids'))
    (distinct : (all.map Counted.id).Nodup)
    (uniform : ∀ left ∈ all, ∀ right ∈ all, left.1.supersession = right.1.supersession) :
    Agree names.ResolvedAs (resolveSlot build policy retracted supersededIn all)
      (resolveSlot build policy retracted' supersededIn' others) := by
  have active := kept_renamed perm withdrawn
  have ids : names.Renames (.ofList ((all.filter (fun item => !retracted.contains item.id)).map Counted.id))
      (.ofList ((others.filter (fun item => !retracted'.contains item.id)).map Counted.id)) := by
    intro id
    rw [OrdSet.mem_ofList,(active.map Counted.id).mem_iff]
    simp only [OrdSet.mem_ofList,List.mem_map]
    constructor
    · rintro ⟨_,⟨item,itemIn,rfl⟩,rfl⟩
      exact ⟨item.id,⟨item,itemIn,rfl⟩,rfl⟩
    · rintro ⟨_,⟨item,itemIn,rfl⟩,rfl⟩
      exact ⟨_,⟨item,itemIn,rfl⟩,rfl⟩
  have carries := superseded _ _ ids
  have surviving := kept_renamed active carries.removed
  have none' : (others.filter (fun item => !retracted'.contains item.id)).isEmpty =
      (all.filter (fun item => !retracted.contains item.id)).isEmpty := by
    rw [active.isEmpty_eq,List.isEmpty_map]
  have empty : others.isEmpty = all.isEmpty := by rw [perm.isEmpty_eq,List.isEmpty_map]
  unfold resolveSlot
  dsimp only
  rw [none',empty]
  split_ifs with inactive absent
  · exact .returned ⟨rfl,by simp⟩
  · exact .returned ⟨rfl,by simp⟩
  · have within : ∀ item ∈ survivingOf supersededIn (activeOf retracted all), item ∈ all := fun item inside =>
      List.mem_of_mem_filter (List.mem_of_mem_filter inside)
    refine (selectWinners_renamed surviving carries.replacing fun left leftIn right rightIn =>
      uniform left (within left leftIn) right (within right rightIn)).bind ?_
    rintro ⟨winners,replacing⟩ ⟨others,replacing'⟩ executed selected
    refine listed_resolved selected (distinct.sublist (List.Sublist.map Counted.id ?_))
    exact (selectWinners_sublist executed).trans (List.filter_sublist.trans List.filter_sublist)

/-! ### Retractions and supersessions -/

variable {history : ClaimHistory} {asOf : AsOf}

theorem retracted_renamed (keeps : names.Keeps asOf.knowledge) (id : ClaimId) :
    names.id id ∈ retractedIds (names.history history) asOf ↔ id ∈ retractedIds history asOf := by
  simp only [retractedIds,Renaming.history,OrdSet.mem_ofList,List.mem_map,List.mem_filter]
  constructor
  · rintro ⟨_,⟨⟨retraction,retractionIn,rfl⟩,known⟩,same⟩
    obtain rfl := names.injective same
    refine ⟨retraction,⟨retractionIn,?_⟩,rfl⟩
    rwa [← keeps.retractions]
  · rintro ⟨retraction,⟨retractionIn,known⟩,rfl⟩
    refine ⟨names.retraction retraction,⟨⟨retraction,retractionIn,rfl⟩,?_⟩,rfl⟩
    rwa [← keeps.retractions] at known

theorem target_claim_iff {target : RelationTarget} {loser : ClaimId} :
    names.target target = .claim loser ↔ ∃ old, target = .claim old ∧ names.id old = loser := by
  cases target <;> simp [Renaming.target]

/-- The same supersessions take effect. -/
theorem effective_renamed {relation : HistoryRelation} {winner loser : ClaimId} :
    Effective (names.history history) (names.relation relation) winner loser ↔
      ∃ oldWinner oldLoser, Effective history relation oldWinner oldLoser ∧ names.id oldWinner = winner ∧ names.id oldLoser = loser := by
  unfold Effective
  constructor
  · rintro ⟨kind,source,target,record,found,strong⟩
    obtain ⟨old,targetIs,rfl⟩ := target_claim_iff.mp target
    rw [show (names.history history).claims = history.claims.rekeyed names.id names.record from rfl,
      OrdMap.find?_rekeyed_rename names.injective,Option.map_eq_some_iff] at found
    obtain ⟨original,held,rfl⟩ := found
    exact ⟨_,old,⟨kind,rfl,targetIs,original,held,strong⟩,source,rfl⟩
  · rintro ⟨_,old,⟨kind,rfl,targetIs,original,held,strong⟩,rfl,rfl⟩
    refine ⟨kind,rfl,target_claim_iff.mpr ⟨old,targetIs,rfl⟩,names.record original,?_,strong⟩
    rw [show (names.history history).claims = history.claims.rekeyed names.id names.record from rfl,
      OrdMap.find?_rekeyed_rename names.injective,held]
    rfl

theorem effectivePairs_renamed (keeps : names.Keeps asOf.knowledge) {ids ids' : OrdSet ClaimId} (same : names.Renames ids ids')
    (pair : ClaimId × ClaimId) : pair ∈ effectivePairs (names.history history) asOf ids' ↔
      pair ∈ (effectivePairs history asOf ids).map names.pair := by
  have inside : ∀ id, names.id id ∈ ids' ↔ id ∈ ids := by
    intro id
    rw [same]
    constructor
    · rintro ⟨old,oldIn,equal⟩
      exact names.injective equal ▸ oldIn
    · exact fun idIn => ⟨id,idIn,rfl⟩
  obtain ⟨winner,loser⟩ := pair
  simp only [List.mem_map,Prod.exists,mem_effectivePairs]
  constructor
  · rintro ⟨winnerIn,loserIn,_,held,known,took⟩
    obtain ⟨relation,relationIn,rfl⟩ := List.mem_map.mp held
    obtain ⟨oldWinner,oldLoser,effective,rfl,rfl⟩ := effective_renamed.mp took
    refine ⟨oldWinner,oldLoser,⟨(inside _).mp winnerIn,(inside _).mp loserIn,relation,relationIn,?_,effective⟩,rfl⟩
    rwa [← keeps.relations]
  · rintro ⟨oldWinner,oldLoser,⟨winnerIn,loserIn,relation,relationIn,known,effective⟩,equal⟩
    obtain ⟨rfl,rfl⟩ := Prod.mk.inj equal
    refine ⟨(inside _).mpr winnerIn,(inside _).mpr loserIn,names.relation relation,List.mem_map_of_mem relationIn,?_,
      effective_renamed.mpr ⟨_,_,effective,rfl,rfl⟩⟩
    rwa [← keeps.relations] at known

theorem superseded_renamed (keeps : names.Keeps asOf.knowledge) {ids ids' : OrdSet ClaimId} (same : names.Renames ids ids') :
    names.Carries (explicitlySuperseded history asOf ids) (explicitlySuperseded (names.history history) asOf ids') := by
  rw [explicitlySuperseded_eq,explicitlySuperseded_eq]
  exact Carries.addAll (effectivePairs_renamed keeps same) carries_empty

/-! ### Counting -/

variable {query : Window}

theorem validWindow_renamed (record : ClaimRecord) :
    Agree Eq (validWindow build.tz policy record) (validWindow build.tz policy (names.record record)) := by
  have same : ∀ result : Except ProjectionError Window, Agree Eq result result := by
    intro result
    cases result with
    | error refusal => exact .refused refusal refusal
    | ok window => exact .returned rfl
  cases valid : record.valid with
  | explicit interval => simpa only [validWindow,Renaming.record,valid] using same _
  | timeless => simpa only [validWindow,Renaming.record,valid] using same _
  | fromSourceTime =>
    cases source : record.sourceTime with
    | none =>
      simp only [validWindow,Renaming.record,valid,source]
      exact .refused _ _
    | some point => simpa only [validWindow,Renaming.record,valid,source] using same _

/-- A claim covers the query as it did. -/
theorem coverage_renamed (record : ClaimRecord) :
    Agree Eq (coverage build.tz policy record query) (coverage build.tz policy (names.record record) query) := by
  refine (validWindow_renamed record).bind fun window other _ same => ?_
  subst same
  split_ifs <;> exact .returned rfl

theorem countedIn_renamed (keeps : names.Keeps asOf.knowledge) (slot : SlotId) (record : ClaimRecord) :
    countedIn build policy asOf query slot (names.record record) =
      (countedIn build policy asOf query slot record).map names.counted := by
  have known : withinTx (names.record record).tx asOf.knowledge = withinTx record.tx asOf.knowledge := keeps.claims record
  have slotIs : (names.record record).slotId = record.slotId := rfl
  have covers := @coverage_renamed names build policy query record
  unfold countedIn
  rw [known,slotIs]
  split_ifs with belongs
  · revert covers
    generalize coverage build.tz policy record query = covered
    generalize coverage build.tz policy (names.record record) query = covered'
    rintro (⟨refusal,other⟩ | ⟨same⟩)
    · rfl
    · subst same
      rename_i certainty
      cases certainty with
      | none => rfl
      | some certainty =>
        dsimp only
        split_ifs <;> rfl
  · rfl

/-- Grouping returns where the coverage of every known claim does. -/
theorem groupClaims_returns {claims : List ClaimRecord} :
    (∃ grouped, groupClaims build policy asOf query claims = .ok grouped) ↔ ∀ record ∈ claims,
      withinTx record.tx asOf.knowledge = true → ∃ covered, coverage build.tz policy record query = .ok covered := by
  refine foldlM_accepts (fun record _ grouped => ?_) _
  unfold countClaim
  split_ifs with known
  · constructor
    · rintro ⟨next,executed⟩ -
      obtain ⟨covered,covers,-⟩ := bind_ok_iff.mp executed
      exact ⟨covered,covers⟩
    · intro covers
      obtain ⟨covered,covers⟩ := covers known
      rw [covers,ok_bind]
      cases covered with
      | none => exact ⟨_,rfl⟩
      | some certainty =>
        dsimp only
        split_ifs <;> exact ⟨_,rfl⟩
  · exact iff_of_true ⟨_,rfl⟩ fun contrary => absurd contrary known

/-- A slot of the renamed history holds the claims the slot held, which have distinct ids
    and one rule. -/
def Grouped (names : Renaming) (items others : List Counted) : Prop :=
  others.Perm (items.map names.counted) ∧ (items.map Counted.id).Nodup ∧
    ∀ left ∈ items, ∀ right ∈ items, left.1.supersession = right.1.supersession

theorem values_renamed : (names.history history).claims.values.Perm (history.claims.values.map names.record) :=
  OrdMap.values_rekeyed names.injective history.claims

theorem group_renamed (keeps : names.Keeps asOf.knowledge) (rule : OneRule history) (slot : SlotId) :
    names.Grouped (groupOf build policy history asOf query slot) (groupOf build policy (names.history history) asOf query slot) := by
  refine ⟨?_,group_distinct history asOf query slot,?_⟩
  · have perm := (@values_renamed names history).filterMap (countedIn build policy asOf query slot)
    rw [List.filterMap_map] at perm
    have renamed : countedIn build policy asOf query slot ∘ names.record =
        fun record => (countedIn build policy asOf query slot record).map names.counted :=
      funext fun record => countedIn_renamed keeps slot record
    rw [renamed,← List.map_filterMap] at perm
    exact perm
  · intro left leftIn right rightIn
    obtain ⟨first,firstIn,counted⟩ := List.mem_filterMap.mp leftIn
    obtain ⟨second,secondIn,counted'⟩ := List.mem_filterMap.mp rightIn
    obtain ⟨rfl,-,slotIs,-⟩ := countedIn_some build policy counted
    obtain ⟨rfl,-,slotIs',-⟩ := countedIn_some build policy counted'
    exact rule _ firstIn _ secondIn (slotIs.trans slotIs'.symm)

/-- The claims are grouped as they were. -/
theorem groupClaims_renamed (keeps : names.Keeps asOf.knowledge) (rule : OneRule history) :
    Agree (fun grouped other => List.Forall₂ (fun entry entry' => entry'.1 = entry.1 ∧ names.Grouped entry.2 entry'.2)
        grouped.entries other.entries)
      (groupClaims build policy asOf query history.claims.values)
      (groupClaims build policy asOf query (names.history history).claims.values) := by
  have mem := fun record => (@values_renamed names history).mem_iff (a := record)
  refine .of_ok ?_ fun grouped other executed executed' => OrdMap.forall₂_entries (fun slot => ?_) ?_
  · simp only [groupClaims_returns,mem,List.forall_mem_map]
    refine forall₂_congr fun record _ => ?_
    rw [show withinTx (names.record record).tx asOf.knowledge = withinTx record.tx asOf.knowledge from keeps.claims record]
    exact imp_congr_right fun _ => exists_congr fun covered => ((coverage_renamed record).ok_iff covered).symm
  · rw [(groupClaims_ok build policy executed slot).2,(groupClaims_ok build policy executed' slot).2]
    simp only [mem,List.mem_map,exists_exists_and_eq_and]
    refine exists_congr fun record => and_congr_right fun _ => ?_
    rw [show withinTx (names.record record).tx asOf.knowledge = withinTx record.tx asOf.knowledge from keeps.claims record]
    rfl
  · intro slot items others found found'
    have itemsAre := (groupClaims_ok build policy executed slot).1
    have othersAre := (groupClaims_ok build policy executed' slot).1
    rw [found,Option.getD_some] at itemsAre
    rw [found',Option.getD_some] at othersAre
    rw [itemsAre,othersAre]
    exact group_renamed keeps rule slot

/-! ### The view -/

/-- The slots and the proposals under the new ids. -/
def Viewed (names : Renaming) (view other : List SlotView × OrdSet ConflictProposal) : Prop :=
  other.1 = view.1.map names.slot ∧ ∀ proposal, proposal ∈ other.2 ↔ ∃ old ∈ view.2, names.proposal old = proposal

theorem addSlot_renamed (keeps : names.Keeps asOf.knowledge) {entry entry' : SlotId × List Counted}
    (same : entry'.1 = entry.1 ∧ names.Grouped entry.2 entry'.2) {view other : List SlotView × OrdSet ConflictProposal}
    (viewed : names.Viewed view other) :
    Agree names.Viewed
      (addSlot build policy (retractedIds history asOf) (explicitlySuperseded history asOf) view entry)
      (addSlot build policy (retractedIds (names.history history) asOf) (explicitlySuperseded (names.history history) asOf)
        other entry') := by
  obtain ⟨slotIs,perm,distinct,uniform⟩ := same
  refine (resolveSlot_renamed perm (retracted_renamed keeps) (fun _ _ => superseded_renamed keeps) distinct uniform).bind ?_
  rintro ⟨state,pairs⟩ ⟨state',pairs'⟩ - ⟨stateIs,pairsAre⟩
  refine .returned ⟨?_,fun proposal => ?_⟩
  · dsimp only at stateIs ⊢
    rw [viewed.1,stateIs,slotIs,List.map_append]
    rfl
  · dsimp only at pairsAre ⊢
    simp only [OrdSet.mem_foldl_insert,pairsAre,viewed.2]
    constructor
    · rintro (⟨old,oldIn,rfl⟩ | ⟨old,oldIn,rfl⟩)
      · exact ⟨old,.inl oldIn,rfl⟩
      · exact ⟨old,.inr oldIn,rfl⟩
    · rintro ⟨old,oldIn | oldIn,rfl⟩
      · exact .inl ⟨old,oldIn,rfl⟩
      · exact .inr ⟨old,oldIn,rfl⟩

theorem projectSlots_renamed (keeps : names.Keeps asOf.knowledge) (rule : OneRule history) :
    Agree names.Viewed (projectSlots build policy history asOf) (projectSlots build policy (names.history history) asOf) := by
  unfold projectSlots
  cases boundWindow build.tz policy asOf.valid with
  | error refusal => exact .refused refusal refusal
  | ok query =>
    refine (groupClaims_renamed keeps rule).bind fun grouped other _ paired => ?_
    exact Agree.foldlM paired (fun _ _ _ _ same viewed => addSlot_renamed keeps same viewed) ⟨rfl,by simp⟩

/-- The stamps have the sequence numbers they had. -/
structure KeepsSeqs (names : Renaming) : Prop where
  claims : ∀ record, (names.claimTx record).seq = record.tx.seq
  relations : ∀ relation, (names.relationTx relation).seq = relation.tx.seq
  retractions : ∀ retraction, (names.retractionTx retraction).seq = retraction.tx.seq

theorem highWater_renamed (keeps : names.KeepsSeqs) : (names.history history).highWater = history.highWater := by
  have claims : ((names.history history).claims.values.map (·.tx.seq)).Perm (history.claims.values.map (·.tx.seq)) := by
    refine (values_renamed.map (·.tx.seq)).trans (List.Perm.of_eq ?_)
    rw [List.map_map]
    exact List.map_congr_left fun record _ => keeps.claims record
  have relations : (names.history history).relations.map (·.tx.seq) = history.relations.map (·.tx.seq) := by
    rw [Renaming.history,List.map_map]
    exact List.map_congr_left fun relation _ => keeps.relations relation
  have retractions : (names.history history).retractions.map (·.tx.seq) = history.retractions.map (·.tx.seq) := by
    rw [Renaming.history,List.map_map]
    exact List.map_congr_left fun retraction _ => keeps.retractions retraction
  rw [ClaimHistory.highWater,ClaimHistory.highWater,relations,retractions]
  exact ((claims.append_right _).append_right _).foldl_eq 0

theorem slots_renamed (slots : List SlotView) : (slots.map names.slot).insertionSort (fun a b => a.slot ≤ b.slot) =
    (slots.insertionSort (fun a b => a.slot ≤ b.slot)).map names.slot :=
  (List.map_insertionSort _ _ names.slot slots fun _ _ _ _ => Iff.rfl).symm

end

end Renaming

/-- Where the claims of a slot share one rule, other ids for the claims, and other stamps
    that are known by the bound as the old ones were, leave the view what it was under the
    new ids: its slots, candidates, coverage and proposals renamed, and the digest of that.
    Unless the digest fails, a refusal stays a refusal. -/
theorem project_renamed (build : Build) (policy : ProjectionPolicy) (names : Renaming) (history : ClaimHistory) (asOf : AsOf)
    (keeps : names.Keeps asOf.knowledge) (rule : OneRule history) :
    (∀ view, project build policy history asOf = .ok view →
      project build policy (names.history history) asOf = stamped build policy asOf (names.history history).highWater
        (view.slots.map names.slot) (names.proposals view.conflictProposals)) ∧
    (∀ refusal, project build policy history asOf = .error refusal → (∀ reason, refusal ≠ .serialization reason) →
      ∃ other, project build policy (names.history history) asOf = .error other) ∧
    (names.KeepsSeqs → (names.history history).highWater = history.highWater) := by
  have agree := @Renaming.projectSlots_renamed names build policy history asOf keeps rule
  simp only [project_eq]
  refine ⟨fun view executed => ?_,fun refusal refused digested => ?_,Renaming.highWater_renamed⟩
  · split_ifs at executed ⊢
    obtain ⟨found,projected,stampedAs⟩ := bind_ok_iff.mp executed
    rw [projected] at agree
    obtain ⟨other,projected',slotsAre,proposalsAre⟩ := agree.ok_right
    have proposals : other.2 = OrdSet.ofList (found.2.elements.map names.proposal) := by
      refine OrdSet.ext_mem fun proposal => ?_
      rw [proposalsAre,OrdSet.mem_ofList,List.mem_map]
      rfl
    rw [projected',ok_bind,slotsAre,Renaming.slots_renamed,proposals]
    unfold stamped at stampedAs
    split at stampedAs
    · cases stampedAs
    · cases stampedAs
      rfl
  · split_ifs at refused ⊢
    · exact ⟨_,rfl⟩
    · cases projected : projectSlots build policy history asOf with
      | error reason =>
        rw [projected] at agree
        obtain ⟨other,refused'⟩ := agree.error_right
        exact ⟨other,by rw [refused',error_bind]⟩
      | ok found =>
        rw [projected,ok_bind] at refused
        unfold stamped at refused
        split at refused
        · cases refused
          exact absurd rfl (digested _)
        · cases refused

namespace Sample
open Claims.Sample History.Sample

/-- The first two ids, each for the other. -/
def swapped : Renaming := .ofIds (Equiv.swap firstId secondId) (Equiv.injective _)

/-- Two claims of one slot, the second replacing the first by its source revision. -/
def replaced : List Append :=
  [.claim (revised firstId "12A" 1 (some 1) 3 third_legal),.claim (revised secondId "14C" 2 (some 2) 3 third_legal)]

theorem replaced_rule : OneRule (history replaced) := by
  intro left leftIn right rightIn _
  revert left right
  decide +kernel

end Sample

theorem project_renamed_swapped :
    project Sample.build Sample.policy (Sample.swapped.history (Sample.history Sample.replaced)) (Sample.asOf 2) =
      stamped Sample.build Sample.policy (Sample.asOf 2) 2
        ((Sample.viewAt (Sample.history Sample.replaced) 2).slots.map Sample.swapped.slot)
        (Sample.swapped.proposals (Sample.viewAt (Sample.history Sample.replaced) 2).conflictProposals) := by
  have renamed := project_renamed Sample.build Sample.policy Sample.swapped (Sample.history Sample.replaced) (Sample.asOf 2)
    (Renaming.ofIds_keeps _ _ _) Sample.replaced_rule
  have water : (Sample.swapped.history (Sample.history Sample.replaced)).highWater = 2 := by decide +kernel
  rw [← water]
  exact renamed.1 _ (Sample.viewAt_ok (by decide +kernel))

end Aicortex.Projection
