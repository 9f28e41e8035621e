import Aicortex.ProjectionFacts

/-!
Two stability results for the projection. Appends outside the knowledge bound
leave a bounded view as it was, because every read of the history goes through the
bound. And the order in which the same records arrived does not show, because the
view reads the records by id and by membership and below the bound never looks at
a stamp.
-/

namespace Aicortex.Projection
open Aicortex Aicortex.Text Aicortex.Claims Aicortex.History Aicortex.Windows Lib.Ordered Lib.Outcome
set_option linter.unusedSimpArgs false

variable (build : Build) (policy : ProjectionPolicy)

/-- The part of a view that is compared: its slots and its proposed contradictions. -/
def CurrentView.content (view : CurrentView) : List SlotView × List ConflictProposal :=
  (view.slots,view.conflictProposals)

/-- Serialization of a view never fails; every type in it serializes. -/
def Build.Serializes (build : Build) : Prop :=
  ∀ asOf highWater version digest slots proposals,
    ∃ text, build.viewDigest asOf highWater version digest slots proposals = .ok text

/-- Resolution asks about supersession only among the claims of a slot. -/
theorem resolveSlots_congr (retracted : OrdSet ClaimId) {left right : OrdSet ClaimId → Superseded}
    (grouped : OrdMap SlotId (List Counted))
    (same : ∀ entry ∈ grouped.entries, ∀ ids : OrdSet ClaimId,
      (∀ id ∈ ids, ∃ item ∈ entry.2, item.id = id) → left ids = right ids) :
    resolveSlots build policy retracted left grouped = resolveSlots build policy retracted right grouped := by
  refine foldlM_congr _ ?_
  intro entry member view
  have agree : left (.ofList ((entry.2.filter (fun item => !retracted.contains item.id)).map Counted.id)) =
      right (.ofList ((entry.2.filter (fun item => !retracted.contains item.id)).map Counted.id)) := by
    refine same entry member _ ?_
    intro id inside
    rw [OrdSet.mem_ofList,List.mem_map] at inside
    obtain ⟨item,kept,rfl⟩ := inside
    exact ⟨item,(List.mem_filter.mp kept).1,rfl⟩
  simp only [addSlot,resolveSlot,agree]

/-! ### Appends beyond the bound -/

/-- A later history shows the same within the bound and keeps what was found. -/
structure Unchanged (asOf : AsOf) (earlier later : ClaimHistory) : Prop where
  claims : later.claims.values.filter (fun record => withinTx record.tx asOf.knowledge) =
    earlier.claims.values.filter (fun record => withinTx record.tx asOf.knowledge)
  relations : later.relations.filter (fun relation => withinTx relation.tx asOf.knowledge) =
    earlier.relations.filter (fun relation => withinTx relation.tx asOf.knowledge)
  retractions : later.retractions.filter (fun retraction => withinTx retraction.tx asOf.knowledge) =
    earlier.retractions.filter (fun retraction => withinTx retraction.tx asOf.knowledge)
  found : ∀ id record, earlier.claims.find? id = some record → later.claims.find? id = some record

theorem append_unchanged {asOf : AsOf} {history next : ClaimHistory} {call : Append}
    (beyond : withinTx call.tx asOf.knowledge = false) (executed : history.append call = .ok next) :
    Unchanged asOf history next := by
  have kept := fun id record => @ClaimHistory.append_keeps_claims history next call executed id record
  cases call with
  | claim added =>
    obtain ⟨fresh,-,claims,relations,retractions,-⟩ := ClaimHistory.appendClaim_ok executed
    refine ⟨?_,by rw [relations],by rw [retractions],kept⟩
    rw [claims]
    exact OrdMap.filter_values_insert _ _ _ _ fresh beyond
  | relation added =>
    obtain ⟨rfl,-⟩ := ClaimHistory.appendRelation_ok executed
    have dropped : withinTx added.tx asOf.knowledge = false := beyond
    exact ⟨rfl,by simp [dropped],rfl,kept⟩
  | retraction added =>
    obtain ⟨rfl,-⟩ := ClaimHistory.appendRetraction_ok executed
    have dropped : withinTx added.tx asOf.knowledge = false := beyond
    exact ⟨rfl,rfl,by simp [dropped],kept⟩

theorem appendAll_unchanged {asOf : AsOf} {history later : ClaimHistory} {calls : List Append}
    (beyond : ∀ call ∈ calls, withinTx call.tx asOf.knowledge = false)
    (executed : history.appendAll calls = .ok later) : Unchanged asOf history later := by
  induction calls generalizing history with
  | nil =>
    cases executed
    exact ⟨rfl,rfl,rfl,fun _ _ found => found⟩
  | cons call calls ih =>
    obtain ⟨next,stepped,rest⟩ := ClaimHistory.appendAll_cons_ok executed
    have first := append_unchanged (beyond call List.mem_cons_self) stepped
    have second := ih (fun other member => beyond other (List.mem_cons_of_mem _ member)) rest
    exact ⟨second.claims.trans first.claims,second.relations.trans first.relations,
      second.retractions.trans first.retractions,fun id record found => second.found id record (first.found id record found)⟩

private theorem takesEffect_unchanged {asOf : AsOf} {earlier later : ClaimHistory}
    (unchanged : Unchanged asOf earlier later) {ids : OrdSet ClaimId}
    (known : ∀ id ∈ ids, ∃ record, earlier.claims.find? id = some record) (relation : HistoryRelation) :
    takesEffect later ids relation = takesEffect earlier ids relation := by
  refine Option.ext fun pair => ?_
  obtain ⟨winner,loser⟩ := pair
  simp only [takesEffect_iff]
  refine and_congr_right fun _ => and_congr_right fun loserIn => and_congr_right fun _ => and_congr_right fun _ => ?_
  obtain ⟨record,found⟩ := known loser loserIn
  rw [found,unchanged.found loser record found]

private theorem explicitlySuperseded_unchanged {asOf : AsOf} {earlier later : ClaimHistory}
    (unchanged : Unchanged asOf earlier later) {ids : OrdSet ClaimId}
    (known : ∀ id ∈ ids, ∃ record, earlier.claims.find? id = some record) :
    explicitlySuperseded later asOf ids = explicitlySuperseded earlier asOf ids := by
  have filtered : later.relations.filter (fun relation =>
        withinTx relation.tx asOf.knowledge && relation.relation.kind == .supersedes) =
      earlier.relations.filter (fun relation =>
        withinTx relation.tx asOf.knowledge && relation.relation.kind == .supersedes) := by
    have same := congrArg (List.filter (fun relation => relation.relation.kind == .supersedes)) unchanged.relations
    simpa [List.filter_filter,Bool.and_comm] using same
  rw [explicitlySuperseded_eq,explicitlySuperseded_eq,effectivePairs,effectivePairs,filtered]
  congr 2
  funext relation
  exact takesEffect_unchanged unchanged known relation

/-- The slots read from a history depend only on what the bound shows of it. -/
theorem projectSlots_unchanged {asOf : AsOf} {earlier later : ClaimHistory} (unchanged : Unchanged asOf earlier later) :
    projectSlots build policy later asOf = projectSlots build policy earlier asOf := by
  have retracted : retractedIds later asOf = retractedIds earlier asOf := by
    rw [retractedIds,retractedIds,unchanged.retractions]
  refine bind_congr_ok fun query _ => ?_
  have grouping : groupClaims build policy asOf query later.claims.values =
      groupClaims build policy asOf query earlier.claims.values := by
    rw [← groupClaims_filter,unchanged.claims,groupClaims_filter]
  rw [grouping,retracted]
  refine bind_congr_ok fun grouped executed => resolveSlots_congr build policy _ grouped ?_
  intro entry member ids inside
  refine explicitlySuperseded_unchanged unchanged ?_
  intro id idIn
  obtain ⟨item,itemIn,rfl⟩ := inside id idIn
  rw [groupClaims_entry build policy executed member,List.mem_filterMap] at itemIn
  obtain ⟨record,recordIn,counted⟩ := itemIn
  obtain ⟨same,-⟩ := countedIn_some build policy counted
  obtain ⟨key,found⟩ := (OrdMap.mem_values _ _).mp recordIn
  have keyIs : item.id = key := by
    rw [Counted.id,same]
    exact earlier.keyed key record found
  exact ⟨record,keyIs ▸ found⟩

/-- The content of a view when serialization cannot fail. -/
private theorem project_content (serializes : build.Serializes) (history : ClaimHistory) (asOf : AsOf) :
    (project build policy history asOf).map CurrentView.content =
      if policy.timeZoneDatabase ≠ build.tz.version then
        .error (.unsupportedTimeZoneDatabase policy.timeZoneDatabase)
      else (projectSlots build policy history asOf).map (fun found =>
        (found.1.insertionSort (fun a b => a.slot ≤ b.slot),found.2.elements)) := by
  unfold project
  split_ifs with unsupported
  · rfl
  · cases projectSlots build policy history asOf with
    | error refusal => rfl
    | ok found =>
      obtain ⟨unsorted,proposals⟩ := found
      obtain ⟨text,written⟩ := serializes asOf history.highWater policy.version (build.policyDigest policy)
        (unsorted.insertionSort (fun a b => a.slot ≤ b.slot)) proposals.elements
      simp [Except.map,written,CurrentView.content]

/-- Knowledge-bound stability. Whatever is appended to a history under stamps that
    the bound does not admit, the slots and proposals of the view, or its refusal,
    stay what they were. -/
theorem project_stable_beyond_bound (serializes : build.Serializes) (history later : ClaimHistory) (asOf : AsOf)
    (calls : List Append) (executed : history.appendAll calls = .ok later)
    (beyond : ∀ call ∈ calls, withinTx call.tx asOf.knowledge = false) :
    (project build policy later asOf).map CurrentView.content =
      (project build policy history asOf).map CurrentView.content := by
  rw [project_content build policy serializes,project_content build policy serializes,
    projectSlots_unchanged build policy (appendAll_unchanged beyond executed)]

namespace Sample
open Claims.Sample History.Sample

/-- A claim known at sequence one, then a retraction of it and a second claim. -/
def known : List Append := [.claim (record firstId "12A" 1)]
def beyond : List Append := [.retraction (retraction firstId 2),.claim (record secondId "14C" 3)]

end Sample

theorem project_stable_beyond_bound_sample :
    (project Sample.build Sample.policy (Sample.history (Sample.known ++ Sample.beyond)) (Sample.asOf 1)).map
        CurrentView.content =
      (project Sample.build Sample.policy (Sample.history Sample.known) (Sample.asOf 1)).map CurrentView.content :=
  project_stable_beyond_bound Sample.build Sample.policy (fun _ _ _ _ _ _ => ⟨_,rfl⟩) _ _ _ Sample.beyond rfl
    (by decide +kernel)

/-! ### Order of arrival -/

/-- A record without its stamp. -/
def untimed (record : ClaimRecord) : ClaimRecord := { record with tx := ⟨0,0⟩ }

/-- A call without its stamp. -/
def untimedCall : Append → Append
  | .claim record => .claim (untimed record)
  | .relation relation => .relation { relation with tx := ⟨0,0⟩ }
  | .retraction retraction => .retraction { retraction with tx := ⟨0,0⟩ }

def Counted.untimed (item : Counted) : Counted := (Projection.untimed item.1,item.2)

section Untimed
variable {build policy}

private theorem supersededBySource_untimed (active : List Counted) (replacing : OrdMap ClaimId (OrdSet ClaimId)) :
    supersededBySource build policy (active.map Counted.untimed) replacing =
      supersededBySource build policy active replacing := by
  simp only [supersededBySource,List.foldlM_map]
  rfl

private theorem selectWinners_untimed (active : List Counted) (replacing : OrdMap ClaimId (OrdSet ClaimId)) :
    selectWinners build policy (active.map Counted.untimed) replacing =
      (selectWinners build policy active replacing).map (fun found => (found.1.map Counted.untimed,found.2)) := by
  have conflict : userSupplierConflict (active.map Counted.untimed) = userSupplierConflict active := by
    simp only [userSupplierConflict,List.any_map]
    rfl
  have top : maxAuthority (active.map Counted.untimed) = maxAuthority active := by
    simp only [maxAuthority,List.map_map]
    rfl
  have kept : (active.map Counted.untimed).filter (fun item => item.1.authority = maxAuthority active) =
      (active.filter (fun item => item.1.authority = maxAuthority active)).map Counted.untimed := List.filter_map
  have rule (winners : List Counted) : (winners.map Counted.untimed).head?.any (fun item => item.1.supersession = .bySourceOrder) =
      winners.head?.any (fun item => item.1.supersession = .bySourceOrder) := by
    cases winners <;> rfl
  simp only [selectWinners,conflict,top,kept,rule,supersededBySource_untimed]
  split_ifs with conflicting ordered
  · rfl
  · cases supersededBySource build policy (active.filter (fun item => item.1.authority = maxAuthority active)) replacing with
    | error refusal => rfl
    | ok found =>
      simp only [ok_bind,Except.map,List.filter_map]
      rfl
  · rfl

private theorem candidatesOf_untimed (winners : List Counted) (replacing : OrdMap ClaimId (OrdSet ClaimId)) :
    candidatesOf (winners.map Counted.untimed) replacing = candidatesOf winners replacing := by
  induction winners generalizing replacing with
  | nil => rfl
  | cons item rest ih =>
    simp only [List.map_cons,candidatesOf,ih]
    rfl

private theorem sortById_untimed (winners : List Counted) :
    sortById (winners.map Counted.untimed) = (sortById winners).map Counted.untimed :=
  (List.map_insertionSort _ _ Counted.untimed winners (fun _ _ _ _ => Iff.rfl)).symm

theorem resolveSlot_untimed (retracted : OrdSet ClaimId) (supersededIn : OrdSet ClaimId → Superseded)
    (all : List Counted) :
    resolveSlot build policy retracted supersededIn (all.map Counted.untimed) =
      resolveSlot build policy retracted supersededIn all := by
  have active : (all.map Counted.untimed).filter (fun item => !retracted.contains item.id) =
      (all.filter (fun item => !retracted.contains item.id)).map Counted.untimed := List.filter_map
  have ids (items : List Counted) : (items.map Counted.untimed).map Counted.id = items.map Counted.id := by
    simp only [List.map_map]
    rfl
  have surviving (found : Superseded) (items : List Counted) :
      (items.map Counted.untimed).filter (fun item => !found.removed.contains item.id) =
        (items.filter (fun item => !found.removed.contains item.id)).map Counted.untimed := List.filter_map
  simp only [resolveSlot,active,ids,surviving,selectWinners_untimed,List.isEmpty_map]
  split_ifs with noneActive noneAtAll
  · rfl
  · rfl
  · generalize selectWinners build policy _ _ = outcome
    cases outcome with
    | error refusal => rfl
    | ok found => simp only [Except.map,ok_bind,sortById_untimed,candidatesOf_untimed]

theorem resolveSlots_untimed (retracted : OrdSet ClaimId) (supersededIn : OrdSet ClaimId → Superseded)
    (grouped : OrdMap SlotId (List Counted)) :
    resolveSlots build policy retracted supersededIn (grouped.mapValues (List.map Counted.untimed)) =
      resolveSlots build policy retracted supersededIn grouped := by
  simp only [resolveSlots,OrdMap.mapValues,List.foldlM_map]
  refine foldlM_congr _ ?_
  intro entry _ view
  simp only [addSlot,resolveSlot_untimed]

private theorem withinTx_start (bound : TxBound) : withinTx ⟨0,0⟩ bound = true := by
  cases bound <;> simp [withinTx]

private theorem countClaim_untimed {asOf : AsOf} (query : Window) (grouped : OrdMap SlotId (List Counted))
    {record : ClaimRecord} (known : withinTx record.tx asOf.knowledge = true) :
    countClaim build policy asOf query (grouped.mapValues (List.map Counted.untimed)) (untimed record) =
      (countClaim build policy asOf query grouped record).map (OrdMap.mapValues (List.map Counted.untimed)) := by
  have sameCoverage : coverage build.tz policy (untimed record) query = coverage build.tz policy record query := rfl
  have opened : (grouped.mapValues (List.map Counted.untimed)).upsert record.slotId [] id =
      (grouped.upsert record.slotId [] id).mapValues (List.map Counted.untimed) :=
    (OrdMap.mapValues_upsert (List.map Counted.untimed) grouped record.slotId []
      (fun value => (rfl : (id value).map Counted.untimed = id (value.map Counted.untimed)))).symm
  have pushed (certainty : Certainty) :
      (grouped.mapValues (List.map Counted.untimed)).upsert record.slotId [] (· ++ [(untimed record,certainty)]) =
        (grouped.upsert record.slotId [] (· ++ [(record,certainty)])).mapValues (List.map Counted.untimed) :=
    (OrdMap.mapValues_upsert (List.map Counted.untimed) grouped record.slotId []
      (fun value => by simp [Counted.untimed])).symm
  have slot : (untimed record).slotId = record.slotId := rfl
  have stamp : withinTx (untimed record).tx asOf.knowledge = true := withinTx_start _
  simp only [countClaim,known,stamp,if_true,sameCoverage,slot,opened,pushed]
  cases coverage build.tz policy record query with
  | error refusal => rfl
  | ok covered =>
    cases covered with
    | none => rfl
    | some certainty =>
      simp only [ok_bind]
      split_ifs <;> rfl

/-- Grouping commutes with forgetting the stamps when the bound admits them all. -/
theorem groupClaims_untimed {asOf : AsOf} (query : Window) (claims : List ClaimRecord)
    (known : ∀ record ∈ claims, withinTx record.tx asOf.knowledge = true) :
    groupClaims build policy asOf query (claims.map untimed) =
      (groupClaims build policy asOf query claims).map (OrdMap.mapValues (List.map Counted.untimed)) := by
  have general (start : OrdMap SlotId (List Counted)) :
      (claims.map untimed).foldlM (countClaim build policy asOf query) (start.mapValues (List.map Counted.untimed)) =
        (claims.foldlM (countClaim build policy asOf query) start).map
          (OrdMap.mapValues (List.map Counted.untimed)) := by
    induction claims generalizing start with
    | nil => rfl
    | cons record rest ih =>
      simp only [List.map_cons,List.foldlM_cons,countClaim_untimed query start (known record List.mem_cons_self)]
      cases countClaim build policy asOf query start record with
      | error refusal => rfl
      | ok next => exact ih (fun other member => known other (List.mem_cons_of_mem _ member)) next
  exact general .empty

/-- When the bound admits every record, the slots can be read off the unstamped records. -/
theorem projectSlots_untimed (history : ClaimHistory) (asOf : AsOf)
    (known : ∀ record ∈ history.claims.values, withinTx record.tx asOf.knowledge = true) :
    projectSlots build policy history asOf = (do
      let query ← boundWindow build.tz policy asOf.valid
      let grouped ← groupClaims build policy asOf query (history.claims.mapValues untimed).values
      resolveSlots build policy (retractedIds history asOf) (explicitlySuperseded history asOf) grouped) := by
  refine bind_congr_ok fun query _ => ?_
  rw [OrdMap.values_mapValues,groupClaims_untimed query _ known]
  cases groupClaims build policy asOf query history.claims.values with
  | error refusal => rfl
  | ok grouped => exact (resolveSlots_untimed _ _ grouped).symm

end Untimed

/-! ### Two arrivals of the same records -/

/-- The calls of two runs differ in their order and their stamps only, over one
    set of sequence numbers. -/
structure SameRecords (left right : List Append) : Prop where
  records : (left.map untimedCall).Perm (right.map untimedCall)
  sequences : ∀ seq, seq ∈ left.map (·.tx.seq) ↔ seq ∈ right.map (·.tx.seq)

theorem SameRecords.symm {left right : List Append} (same : SameRecords left right) : SameRecords right left :=
  ⟨same.records.symm,fun seq => (same.sequences seq).symm⟩

private theorem counterpart {left right : List Append} {first second : ClaimHistory} (same : SameRecords left right)
    (firstRun : ClaimHistory.new.appendAll left = .ok first) (secondRun : ClaimHistory.new.appendAll right = .ok second)
    (call : Append) (held : first.Holds call) : ∃ other, second.Holds other ∧ untimedCall other = untimedCall call := by
  have member : call ∈ left := ((ClaimHistory.appendAll_holds firstRun call).mp held).resolve_left (ClaimHistory.new_holds call)
  obtain ⟨other,otherIn,otherIs⟩ := List.mem_map.mp (same.records.mem_iff.mp (List.mem_map_of_mem member))
  exact ⟨other,(ClaimHistory.appendAll_holds secondRun other).mpr (.inr otherIn),otherIs⟩

private theorem claims_untimed_le {left right : List Append} {first second : ClaimHistory} (same : SameRecords left right)
    (firstRun : ClaimHistory.new.appendAll left = .ok first) (secondRun : ClaimHistory.new.appendAll right = .ok second)
    {id : ClaimId} {record : ClaimRecord} (found : first.claims.find? id = some record) :
    ∃ other, second.claims.find? id = some other ∧ untimed other = untimed record := by
  have keyed := first.keyed id record found
  have held : first.Holds (.claim record) := by
    rw [ClaimHistory.Holds,keyed]
    exact found
  obtain ⟨other,otherHeld,otherIs⟩ := counterpart same firstRun secondRun (.claim record) held
  cases other with
  | claim otherRecord =>
    have recordIs : untimed otherRecord = untimed record := Append.claim.inj otherIs
    have idIs : otherRecord.claim.id = id := by
      rw [← keyed]
      exact congrArg (·.claim.id) recordIs
    exact ⟨otherRecord,idIs ▸ otherHeld,recordIs⟩
  | relation relation => simp [untimedCall] at otherIs
  | retraction retraction => simp [untimedCall] at otherIs

private theorem claims_untimed {left right : List Append} {first second : ClaimHistory} (same : SameRecords left right)
    (firstRun : ClaimHistory.new.appendAll left = .ok first) (secondRun : ClaimHistory.new.appendAll right = .ok second) :
    first.claims.mapValues untimed = second.claims.mapValues untimed := by
  refine OrdMap.ext_find? fun id => ?_
  rw [OrdMap.find?_mapValues,OrdMap.find?_mapValues]
  cases firstFound : first.claims.find? id with
  | some record =>
    obtain ⟨other,otherFound,otherIs⟩ := claims_untimed_le same firstRun secondRun firstFound
    simp [otherFound,otherIs]
  | none =>
    cases secondFound : second.claims.find? id with
    | none => rfl
    | some record =>
      obtain ⟨other,otherFound,-⟩ := claims_untimed_le same.symm secondRun firstRun secondFound
      simp [firstFound] at otherFound

private theorem retracted_le {left right : List Append} {first second : ClaimHistory} (same : SameRecords left right)
    (firstRun : ClaimHistory.new.appendAll left = .ok first) (secondRun : ClaimHistory.new.appendAll right = .ok second)
    {retraction : Retraction} (held : retraction ∈ first.retractions) :
    ∃ other ∈ second.retractions, other.target = retraction.target := by
  obtain ⟨other,otherHeld,otherIs⟩ := counterpart same firstRun secondRun (.retraction retraction) held
  cases other with
  | claim record => simp [untimedCall] at otherIs
  | relation relation => simp [untimedCall] at otherIs
  | retraction added => exact ⟨added,otherHeld,congrArg (·.target) (Append.retraction.inj otherIs)⟩

private theorem effective_le {left right : List Append} {first second : ClaimHistory} (same : SameRecords left right)
    (firstRun : ClaimHistory.new.appendAll left = .ok first) (secondRun : ClaimHistory.new.appendAll right = .ok second)
    {relation : HistoryRelation} (held : relation ∈ first.relations) {winner loser : ClaimId}
    (effective : Effective first relation winner loser) :
    ∃ other ∈ second.relations, Effective second other winner loser := by
  obtain ⟨other,otherHeld,otherIs⟩ := counterpart same firstRun secondRun (.relation relation) held
  cases other with
  | claim record => simp [untimedCall] at otherIs
  | retraction retraction => simp [untimedCall] at otherIs
  | relation added =>
    have addedIs := Append.relation.inj otherIs
    have relationIs : added.relation = relation.relation := congrArg (·.relation) addedIs
    have authorityIs : added.authority = relation.authority := congrArg (·.authority) addedIs
    obtain ⟨kind,sourceIs,targetIs,record,found,strong⟩ := effective
    obtain ⟨otherRecord,otherFound,recordIs⟩ := claims_untimed_le same firstRun secondRun found
    have levelIs : otherRecord.authority = record.authority := congrArg (·.authority) recordIs
    refine ⟨added,otherHeld,?_⟩
    rw [Effective,relationIs,authorityIs]
    exact ⟨kind,sourceIs,targetIs,otherRecord,otherFound,levelIs ▸ strong⟩

private theorem foldl_max_le (bound : Nat) (values : List Nat) (start : Nat) :
    values.foldl max start ≤ bound ↔ start ≤ bound ∧ ∀ value ∈ values, value ≤ bound := by
  induction values generalizing start with
  | nil => simp
  | cons value rest ih =>
    rw [List.foldl_cons,ih]
    simp only [List.mem_cons,forall_eq_or_imp,max_le_iff,and_assoc]

/-- The high-water mark bounds exactly the sequence numbers of the run. -/
private theorem highWater_le {calls : List Append} {history : ClaimHistory}
    (executed : ClaimHistory.new.appendAll calls = .ok history) (bound : Nat) :
    history.highWater ≤ bound ↔ ∀ call ∈ calls, call.tx.seq ≤ bound := by
  have holds (call : Append) : call ∈ calls ↔ history.Holds call := by
    rw [ClaimHistory.appendAll_holds executed,or_iff_right (ClaimHistory.new_holds call)]
  rw [ClaimHistory.highWater,foldl_max_le]
  simp only [Nat.zero_le,true_and,List.mem_append,List.mem_map,holds]
  constructor
  · intro bounded call held
    cases call with
    | claim record => exact bounded _ (.inl (.inl ⟨record,(OrdMap.mem_values _ _).mpr ⟨_,held⟩,rfl⟩))
    | relation relation => exact bounded _ (.inl (.inr ⟨relation,held,rfl⟩))
    | retraction retraction => exact bounded _ (.inr ⟨retraction,held,rfl⟩)
  · rintro bounded _ ((⟨record,member,rfl⟩ | ⟨relation,member,rfl⟩) | ⟨retraction,member,rfl⟩)
    · obtain ⟨id,found⟩ := (OrdMap.mem_values _ _).mp member
      refine bounded (.claim record) ?_
      rw [ClaimHistory.Holds,history.keyed id record found]
      exact found
    · exact bounded (.relation relation) member
    · exact bounded (.retraction retraction) member

private theorem highWater_same {left right : List Append} {first second : ClaimHistory} (same : SameRecords left right)
    (firstRun : ClaimHistory.new.appendAll left = .ok first) (secondRun : ClaimHistory.new.appendAll right = .ok second) :
    first.highWater = second.highWater := by
  refine eq_of_forall_ge_iff fun bound => ?_
  rw [highWater_le firstRun,highWater_le secondRun]
  have sequences : (∀ seq ∈ left.map (·.tx.seq), seq ≤ bound) ↔ ∀ seq ∈ right.map (·.tx.seq), seq ≤ bound := by
    simp only [same.sequences]
  simpa using sequences

private theorem run_within {calls : List Append} {history : ClaimHistory} {asOf : AsOf}
    (executed : ClaimHistory.new.appendAll calls = .ok history)
    (admitted : ∀ call ∈ calls, withinTx call.tx asOf.knowledge = true) (call : Append) (held : history.Holds call) :
    withinTx call.tx asOf.knowledge = true :=
  admitted call (((ClaimHistory.appendAll_holds executed call).mp held).resolve_left (ClaimHistory.new_holds call))

/-- Delivery-order independence. Two runs from the empty history over the same
    records, whatever their order and stamps, give one view when the bound admits
    them all. -/
theorem project_order_independent (left right : List Append) (first second : ClaimHistory) (asOf : AsOf)
    (same : SameRecords left right)
    (firstRun : ClaimHistory.new.appendAll left = .ok first) (secondRun : ClaimHistory.new.appendAll right = .ok second)
    (leftAdmitted : ∀ call ∈ left, withinTx call.tx asOf.knowledge = true)
    (rightAdmitted : ∀ call ∈ right, withinTx call.tx asOf.knowledge = true) :
    project build policy first asOf = project build policy second asOf := by
  have claimsKnown {calls : List Append} {history : ClaimHistory} (executed : ClaimHistory.new.appendAll calls = .ok history)
      (admitted : ∀ call ∈ calls, withinTx call.tx asOf.knowledge = true) :
      ∀ record ∈ history.claims.values, withinTx record.tx asOf.knowledge = true := by
    intro record member
    obtain ⟨id,found⟩ := (OrdMap.mem_values _ _).mp member
    refine run_within executed admitted (.claim record) ?_
    rw [ClaimHistory.Holds,history.keyed id record found]
    exact found
  have retracted : retractedIds first asOf = retractedIds second asOf := by
    refine OrdSet.ext_mem fun id => ?_
    simp only [retractedIds,OrdSet.mem_ofList,List.mem_map,List.mem_filter]
    constructor
    · rintro ⟨retraction,⟨held,-⟩,rfl⟩
      obtain ⟨other,otherHeld,targetIs⟩ := retracted_le same firstRun secondRun held
      exact ⟨other,⟨otherHeld,run_within secondRun rightAdmitted (.retraction other) otherHeld⟩,targetIs⟩
    · rintro ⟨retraction,⟨held,-⟩,rfl⟩
      obtain ⟨other,otherHeld,targetIs⟩ := retracted_le same.symm secondRun firstRun held
      exact ⟨other,⟨otherHeld,run_within firstRun leftAdmitted (.retraction other) otherHeld⟩,targetIs⟩
  have superseded : explicitlySuperseded first asOf = explicitlySuperseded second asOf := by
    funext ids
    rw [explicitlySuperseded_eq,explicitlySuperseded_eq]
    refine Superseded.addAll_congr _ ?_
    rintro ⟨winner,loser⟩
    rw [mem_effectivePairs,mem_effectivePairs]
    refine and_congr_right fun _ => and_congr_right fun _ => ?_
    constructor
    · rintro ⟨relation,held,-,effective⟩
      obtain ⟨other,otherHeld,otherEffective⟩ := effective_le same firstRun secondRun held effective
      exact ⟨other,otherHeld,run_within secondRun rightAdmitted (.relation other) otherHeld,otherEffective⟩
    · rintro ⟨relation,held,-,effective⟩
      obtain ⟨other,otherHeld,otherEffective⟩ := effective_le same.symm secondRun firstRun held effective
      exact ⟨other,otherHeld,run_within firstRun leftAdmitted (.relation other) otherHeld,otherEffective⟩
  have slots : projectSlots build policy first asOf = projectSlots build policy second asOf := by
    rw [projectSlots_untimed first asOf (claimsKnown firstRun leftAdmitted),
      projectSlots_untimed second asOf (claimsKnown secondRun rightAdmitted),
      claims_untimed same firstRun secondRun,retracted,superseded]
  simp only [project,slots,highWater_same same firstRun secondRun]

namespace Sample
open Claims.Sample History.Sample

/-- Two claims and a supersession, and the same with the claims in the other order. -/
def forwards : List Append :=
  [.claim (record firstId "12A" 1),.claim (record secondId "14C" 2),
    .relation (supersedes firstId secondId second_ne_first 3)]
def backwards : List Append :=
  [.claim (record secondId "14C" 1),.claim (record firstId "12A" 2),
    .relation (supersedes firstId secondId second_ne_first 3)]

end Sample

theorem project_order_independent_sample :
    project Sample.build Sample.policy (Sample.history Sample.forwards) (Sample.asOf 3) =
      project Sample.build Sample.policy (Sample.history Sample.backwards) (Sample.asOf 3) :=
  project_order_independent Sample.build Sample.policy Sample.forwards Sample.backwards _ _ _
    ⟨List.Perm.swap _ _ _,fun _ => Iff.rfl⟩ rfl rfl (by decide +kernel) (by decide +kernel)

end Aicortex.Projection
