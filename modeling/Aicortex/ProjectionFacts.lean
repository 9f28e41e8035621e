import Aicortex.Projection
import Aicortex.Lib.Outcome

/-!
What each stage of the projection computes, stated on the history it reads: which
records a slot counts, which supersessions take effect, and that nothing below the
counting stage looks at a transaction stamp.
-/

namespace Aicortex.Projection
open Aicortex.Text Aicortex.Claims Aicortex.History Aicortex.Windows Lib.Ordered Lib.Outcome
set_option linter.unusedSimpArgs false

variable (build : Build) (policy : ProjectionPolicy)

/-! ### Counting -/

/-- Whether a coverage is eligible under the policy. -/
def eligible : Certainty → Bool
  | .definite => true
  | .possible => policy.possibleCounts

/-- What a record contributes to a slot. -/
def countedIn (asOf : AsOf) (query : Window) (slot : SlotId) (record : ClaimRecord) : Option Counted :=
  if withinTx record.tx asOf.knowledge && record.slotId = slot then
    match coverage build.tz policy record query with
    | .ok (some certainty) => if eligible policy certainty then some (record,certainty) else none
    | _ => none
  else none

theorem countedIn_some {asOf : AsOf} {query : Window} {slot : SlotId} {record : ClaimRecord} {item : Counted}
    (counted : countedIn build policy asOf query slot record = some item) :
    item.1 = record ∧ withinTx record.tx asOf.knowledge = true ∧ record.slotId = slot ∧
      coverage build.tz policy record query = .ok (some item.2) ∧ eligible policy item.2 = true := by
  unfold countedIn at counted
  split_ifs at counted with known
  split at counted
  · rename_i certainty covers
    split_ifs at counted with counts
    cases counted
    simp only [Bool.and_eq_true,decide_eq_true_eq] at known
    exact ⟨rfl,known.1,known.2,covers,counts⟩
  · simp at counted

theorem countedIn_apart {asOf : AsOf} {query : Window} {slot : SlotId} {record : ClaimRecord} (apart : record.slotId ≠ slot) :
    countedIn build policy asOf query slot record = none := by
  simp [countedIn,apart]

/-- A known claim is added to its slot, when it counts. -/
theorem countClaim_known {asOf : AsOf} {query : Window} {grouped next : OrdMap SlotId (List Counted)} {record : ClaimRecord}
    (known : withinTx record.tx asOf.knowledge = true)
    (executed : countClaim build policy asOf query grouped record = .ok next) :
    next = grouped.upsert record.slotId [] (· ++ (countedIn build policy asOf query record.slotId record).toList) := by
  rw [countClaim,if_pos known] at executed
  obtain ⟨covered,covers,updated⟩ := bind_ok_iff.mp executed
  have nothing : (id : List Counted → List Counted) = (· ++ (none : Option Counted).toList) := by
    funext items
    simp
  cases covered with
  | none =>
    have uncounted : countedIn build policy asOf query record.slotId record = none := by simp [countedIn,known,covers]
    rw [uncounted,← nothing]
    exact (Except.ok.inj updated).symm
  | some certainty =>
    dsimp only at updated
    split_ifs at updated with drops
    · have uncounted : countedIn build policy asOf query record.slotId record = none := by
        simp [countedIn,known,covers,eligible,drops.1,drops.2]
      rw [uncounted,← nothing]
      exact (Except.ok.inj updated).symm
    · have counts : eligible policy certainty = true := by
        cases certainty with
        | definite => rfl
        | possible => simpa [eligible] using drops
      have counted : countedIn build policy asOf query record.slotId record = some (record,certainty) := by
        simp [countedIn,known,covers,counts]
      rw [counted]
      exact (Except.ok.inj updated).symm

/-- One record more: its slot is opened, and holds the record when it counts. -/
theorem countClaim_ok {asOf : AsOf} {query : Window} {grouped next : OrdMap SlotId (List Counted)}
    {record : ClaimRecord} (executed : countClaim build policy asOf query grouped record = .ok next) (slot : SlotId) :
    (next.find? slot).getD [] =
        (grouped.find? slot).getD [] ++ (countedIn build policy asOf query slot record).toList ∧
      (next.contains slot = true ↔
        grouped.contains slot = true ∨ withinTx record.tx asOf.knowledge = true ∧ record.slotId = slot) := by
  cases known : withinTx record.tx asOf.knowledge with
  | false =>
    rw [countClaim,known] at executed
    obtain rfl := Except.ok.inj executed
    simp [countedIn,known]
  | true =>
    rw [countClaim_known build policy known executed]
    by_cases same : slot = record.slotId
    · subst same
      simp [OrdMap.contains,OrdMap.find?_upsert]
    · simp [OrdMap.contains,OrdMap.find?_upsert,same,Ne.symm same,countedIn_apart build policy (Ne.symm same)]

private theorem groupClaims_from {asOf : AsOf} {query : Window} {claims : List ClaimRecord}
    {start grouped : OrdMap SlotId (List Counted)}
    (executed : claims.foldlM (countClaim build policy asOf query) start = .ok grouped) (slot : SlotId) :
    (grouped.find? slot).getD [] =
        (start.find? slot).getD [] ++ claims.filterMap (countedIn build policy asOf query slot) ∧
      (grouped.contains slot = true ↔ start.contains slot = true ∨
        ∃ record ∈ claims, withinTx record.tx asOf.knowledge = true ∧ record.slotId = slot) := by
  induction claims generalizing start with
  | nil =>
    cases executed
    simp
  | cons record rest ih =>
    rw [List.foldlM_cons,bind_ok_iff] at executed
    obtain ⟨next,stepped,remaining⟩ := executed
    obtain ⟨content,domain⟩ := countClaim_ok build policy stepped slot
    obtain ⟨restContent,restDomain⟩ := ih remaining
    refine ⟨?_,?_⟩
    · rw [restContent,content,List.filterMap_cons]
      cases countedIn build policy asOf query slot record <;> simp
    · rw [restDomain,domain]
      simp only [List.mem_cons,exists_eq_or_imp]
      exact or_assoc

/-- A slot holds exactly the counting records of the history, in id order, and
    exists exactly when some known record belongs to it. -/
theorem groupClaims_ok {asOf : AsOf} {query : Window} {claims : List ClaimRecord}
    {grouped : OrdMap SlotId (List Counted)} (executed : groupClaims build policy asOf query claims = .ok grouped)
    (slot : SlotId) :
    (grouped.find? slot).getD [] = claims.filterMap (countedIn build policy asOf query slot) ∧
      (grouped.contains slot = true ↔ ∃ record ∈ claims, withinTx record.tx asOf.knowledge = true ∧ record.slotId = slot) := by
  simpa [OrdMap.contains] using groupClaims_from build policy executed slot

/-- Everything a group holds is a counting record of its slot. -/
theorem groupClaims_entry {asOf : AsOf} {query : Window} {claims : List ClaimRecord}
    {grouped : OrdMap SlotId (List Counted)} (executed : groupClaims build policy asOf query claims = .ok grouped)
    {entry : SlotId × List Counted} (member : entry ∈ grouped.entries) :
    entry.2 = claims.filterMap (countedIn build policy asOf query entry.1) := by
  have found : grouped.find? entry.1 = some entry.2 := (grouped.find?_iff_mem entry.1 entry.2).mpr member
  simpa [found] using (groupClaims_ok build policy executed entry.1).1

/-- Only records inside the knowledge bound are read. -/
theorem groupClaims_filter (asOf : AsOf) (query : Window) (claims : List ClaimRecord) :
    groupClaims build policy asOf query (claims.filter (fun record => withinTx record.tx asOf.knowledge)) =
      groupClaims build policy asOf query claims := by
  refine foldlM_filter_of_skip _ claims _ ?_
  intro record _ unknown grouped
  simp [countClaim,unknown]

/-! ### Supersession -/

namespace Superseded

/-- Note a list of pairs, each a winner and its loser. -/
def addAll (pairs : List (ClaimId × ClaimId)) (found : Superseded) : Superseded :=
  pairs.foldl (fun found pair => found.add pair.1 pair.2) found

theorem addAll_append (pairs others : List (ClaimId × ClaimId)) (found : Superseded) :
    addAll (pairs ++ others) found = addAll others (addAll pairs found) := List.foldl_append

theorem mem_removed_addAll (pairs : List (ClaimId × ClaimId)) (found : Superseded) (id : ClaimId) :
    id ∈ (addAll pairs found).removed ↔ id ∈ found.removed ∨ ∃ winner, (winner,id) ∈ pairs := by
  induction pairs generalizing found with
  | nil => simp [addAll]
  | cons pair rest ih =>
    obtain ⟨winner,loser⟩ := pair
    show id ∈ (addAll rest (found.add winner loser)).removed ↔ _
    rw [ih]
    simp only [add,OrdSet.mem_insert,List.mem_cons,Prod.mk.injEq]
    constructor
    · rintro ((rfl | old) | ⟨other,member⟩)
      · exact .inr ⟨winner,.inl ⟨rfl,rfl⟩⟩
      · exact .inl old
      · exact .inr ⟨other,.inr member⟩
    · rintro (old | ⟨other,⟨rfl,rfl⟩ | member⟩)
      · exact .inl (.inr old)
      · exact .inl (.inl rfl)
      · exact .inr ⟨other,member⟩

private theorem replacing_addAll (pairs : List (ClaimId × ClaimId)) (found : Superseded) (winner : ClaimId) :
    ((addAll pairs found).replacing.contains winner = true ↔
        found.replacing.contains winner = true ∨ ∃ loser, (winner,loser) ∈ pairs) ∧
      ∀ loser, loser ∈ ((addAll pairs found).replacing.find? winner).getD .empty ↔
        loser ∈ (found.replacing.find? winner).getD .empty ∨ (winner,loser) ∈ pairs := by
  induction pairs generalizing found with
  | nil => simp [addAll]
  | cons pair rest ih =>
    obtain ⟨first,second⟩ := pair
    have added := ih (found.add first second)
    refine ⟨added.1.trans ?_,fun loser => (added.2 loser).trans ?_⟩
    · by_cases same : winner = first
      · subst same
        have here : ((found.add winner second).replacing.contains winner) = true := by
          simp [add,OrdMap.contains,OrdMap.find?_upsert]
        exact iff_of_true (.inl here) (.inr ⟨second,List.mem_cons_self⟩)
      · simp [add,OrdMap.contains,OrdMap.find?_upsert,same]
    · by_cases same : winner = first
      · subst same
        simp only [add,OrdMap.find?_upsert,if_true,Option.getD_some,OrdSet.mem_insert,List.mem_cons,Prod.mk.injEq,
          true_and]
        rw [or_assoc]
        exact or_left_comm
      · simp [add,OrdMap.find?_upsert,same]

/-- The outcome depends on the set of pairs only, not on their order. -/
theorem addAll_congr {left right : List (ClaimId × ClaimId)} (found : Superseded)
    (same : ∀ pair, pair ∈ left ↔ pair ∈ right) : addAll left found = addAll right found := by
  have removed : (addAll left found).removed = (addAll right found).removed := by
    refine OrdSet.ext_mem fun id => ?_
    simp [mem_removed_addAll,same]
  have replacing : (addAll left found).replacing = (addAll right found).replacing := by
    refine OrdMap.ext_find? fun winner => ?_
    obtain ⟨leftDomain,leftContent⟩ := replacing_addAll left found winner
    obtain ⟨rightDomain,rightContent⟩ := replacing_addAll right found winner
    have domain : (addAll left found).replacing.contains winner = (addAll right found).replacing.contains winner := by
      rw [Bool.eq_iff_iff,leftDomain,rightDomain]
      simp [same]
    have content : ((addAll left found).replacing.find? winner).getD .empty =
        ((addAll right found).replacing.find? winner).getD .empty := by
      refine OrdSet.ext_mem fun loser => ?_
      rw [leftContent,rightContent,same]
    simp only [OrdMap.contains] at domain
    cases leftIs : (addAll left found).replacing.find? winner <;>
      cases rightIs : (addAll right found).replacing.find? winner <;> simp_all
  cases leftIs : addAll left found
  cases rightIs : addAll right found
  simp_all

end Superseded

/-- An explicit supersession at an authority no lower than its target's. -/
def Effective (history : ClaimHistory) (relation : HistoryRelation) (winner loser : ClaimId) : Prop :=
  relation.relation.kind = .supersedes ∧ relation.relation.source = winner ∧
    relation.relation.target = .claim loser ∧
    ∃ record, history.claims.find? loser = some record ∧ record.authority ≤ relation.authority

theorem takesEffect_iff (history : ClaimHistory) (activeIds : OrdSet ClaimId) (relation : HistoryRelation)
    (winner loser : ClaimId) :
    takesEffect history activeIds relation = some (winner,loser) ↔
      winner ∈ activeIds ∧ loser ∈ activeIds ∧ relation.relation.source = winner ∧
        relation.relation.target = .claim loser ∧
        ∃ record, history.claims.find? loser = some record ∧ record.authority ≤ relation.authority := by
  unfold takesEffect
  cases targetIs : relation.relation.target with
  | memory memory => simp
  | claim target =>
    by_cases sourceIn : relation.relation.source ∈ activeIds
    · by_cases targetIn : target ∈ activeIds
      · have sourceBool := (OrdSet.contains_iff activeIds _).mpr sourceIn
        have targetBool := (OrdSet.contains_iff activeIds _).mpr targetIn
        simp only [sourceBool,targetBool,Bool.not_true,Bool.or_self,Bool.false_eq_true,if_false]
        cases recordIs : history.claims.find? target with
        | none =>
          simp only [reduceCtorEq,false_iff]
          rintro ⟨-,-,-,⟨⟩,record,recordFound,-⟩
          simp [recordIs] at recordFound
        | some record =>
          constructor
          · intro effect
            simp only at effect
            split_ifs at effect with strong
            cases effect
            exact ⟨sourceIn,targetIn,rfl,rfl,record,recordIs,strong⟩
          · rintro ⟨-,-,rfl,⟨⟩,other,otherFound,strong⟩
            obtain rfl := Option.some.inj (recordIs.symm.trans otherFound)
            simp [strong]
      · simp only [(OrdSet.contains_iff activeIds target).not.mpr targetIn,Bool.not_false,Bool.or_true,if_true,
          reduceCtorEq,false_iff]
        rintro ⟨-,inside,-,⟨⟩,-⟩
        exact targetIn inside
    · simp only [(OrdSet.contains_iff activeIds _).not.mpr sourceIn,Bool.not_false,Bool.true_or,if_true,
        reduceCtorEq,false_iff]
      rintro ⟨inside,-,rfl,-⟩
      exact sourceIn inside

/-- The pairs that take effect by the bound. -/
def effectivePairs (history : ClaimHistory) (asOf : AsOf) (activeIds : OrdSet ClaimId) : List (ClaimId × ClaimId) :=
  (history.relations.filter (fun relation =>
    withinTx relation.tx asOf.knowledge && relation.relation.kind == .supersedes)).filterMap
      (takesEffect history activeIds)

theorem explicitlySuperseded_eq (history : ClaimHistory) (asOf : AsOf) (activeIds : OrdSet ClaimId) :
    explicitlySuperseded history asOf activeIds = .addAll (effectivePairs history asOf activeIds) .empty := by
  rw [explicitlySuperseded,Superseded.addAll,effectivePairs,List.foldl_filterMap]
  congr 1
  funext found relation
  rw [applyRelation]
  cases takesEffect history activeIds relation <;> rfl

theorem mem_effectivePairs (history : ClaimHistory) (asOf : AsOf) (activeIds : OrdSet ClaimId)
    (winner loser : ClaimId) :
    (winner,loser) ∈ effectivePairs history asOf activeIds ↔
      winner ∈ activeIds ∧ loser ∈ activeIds ∧ ∃ relation ∈ history.relations,
        withinTx relation.tx asOf.knowledge = true ∧ Effective history relation winner loser := by
  simp only [effectivePairs,List.mem_filterMap,takesEffect_iff,List.mem_filter,Bool.and_eq_true,beq_iff_eq,Effective]
  constructor
  · rintro ⟨relation,⟨member,known,kind⟩,winnerIn,loserIn,sourceIs,targetIs,strong⟩
    exact ⟨winnerIn,loserIn,relation,member,known,kind,sourceIs,targetIs,strong⟩
  · rintro ⟨winnerIn,loserIn,relation,member,known,kind,sourceIs,targetIs,strong⟩
    exact ⟨relation,⟨member,known,kind⟩,winnerIn,loserIn,sourceIs,targetIs,strong⟩

/-- The removed claims are the losers of effective supersessions between active claims. -/
theorem mem_explicitlySuperseded (history : ClaimHistory) (asOf : AsOf) (activeIds : OrdSet ClaimId) (id : ClaimId) :
    id ∈ (explicitlySuperseded history asOf activeIds).removed ↔
      ∃ winner, winner ∈ activeIds ∧ id ∈ activeIds ∧ ∃ relation ∈ history.relations,
        withinTx relation.tx asOf.knowledge = true ∧ Effective history relation winner id := by
  simp [explicitlySuperseded_eq,Superseded.mem_removed_addAll,mem_effectivePairs,Superseded.empty]

/-! ### Source order -/

/-- What a comparison notes: the later claim over the other. -/
def sourcePair (left right : Counted) : Option (ClaimId × ClaimId) :=
  match sourceOrder build.tz policy right.1 left.1 with
  | .ok .gt => some (right.id,left.id)
  | _ => none

def sourcePairs (active : List Counted) : List (ClaimId × ClaimId) :=
  active.flatMap fun left => active.filterMap (sourcePair build policy left)

variable {build policy}

theorem sourcePair_iff {left right : Counted} {pair : ClaimId × ClaimId} : sourcePair build policy left right = some pair ↔
    sourceOrder build.tz policy right.1 left.1 = .ok .gt ∧ (right.id,left.id) = pair := by
  unfold sourcePair
  cases sourceOrder build.tz policy right.1 left.1 with
  | error refusal => simp
  | ok order => cases order <;> simp

theorem mem_sourcePairs {active : List Counted} {pair : ClaimId × ClaimId} : pair ∈ sourcePairs build policy active ↔
    ∃ left ∈ active, ∃ right ∈ active, sourceOrder build.tz policy right.1 left.1 = .ok .gt ∧ (right.id,left.id) = pair := by
  simp only [sourcePairs,List.mem_flatMap,List.mem_filterMap,sourcePair_iff]

theorem compareSources_ok {left right : Counted} {found next : Superseded}
    (executed : compareSources build policy left found right = .ok next) :
    next = .addAll (sourcePair build policy left right).toList found := by
  obtain ⟨order,compared,result⟩ := bind_ok_iff.mp executed
  unfold sourcePair
  rw [compared]
  cases order <;> exact (Except.ok.inj result).symm

/-- A loop whose steps note pairs notes them all. -/
theorem foldlM_addAll {α : Type} {step : Superseded → α → Except ProjectionError Superseded}
    {noted : α → List (ClaimId × ClaimId)} {items : List α}
    (each : ∀ item ∈ items, ∀ found next, step found item = .ok next → next = .addAll (noted item) found)
    {found last : Superseded} (executed : items.foldlM step found = .ok last) : last = .addAll (items.flatMap noted) found := by
  induction items generalizing found with
  | nil => exact (Except.ok.inj executed).symm
  | cons item rest ih =>
    obtain ⟨next,stepped,remaining⟩ := bind_ok_iff.mp executed
    rw [List.flatMap_cons,Superseded.addAll_append,← each item List.mem_cons_self found next stepped]
    exact ih (fun other inside => each other (List.mem_cons_of_mem _ inside)) remaining

/-- What source order removes and who replaced whom are the pairs it decides. -/
theorem supersededBySource_eq {active : List Counted} {replacing : OrdMap ClaimId (OrdSet ClaimId)} {found : Superseded}
    (executed : supersededBySource build policy active replacing = .ok found) :
    found = .addAll (sourcePairs build policy active) ⟨.empty,replacing⟩ := by
  refine foldlM_addAll (fun left _ before after looped => ?_) executed
  rw [foldlM_addAll (fun right _ _ _ stepped => compareSources_ok stepped) looped]
  congr 1
  rw [List.filterMap_eq_flatMap_toList]

/-- Source order is decided where every two claims compare. -/
theorem supersededBySource_returns {active : List Counted} {replacing : OrdMap ClaimId (OrdSet ClaimId)} :
    (∃ found, supersededBySource build policy active replacing = .ok found) ↔
      ∀ left ∈ active, ∀ right ∈ active, ∃ order, sourceOrder build.tz policy right.1 left.1 = .ok order := by
  refine foldlM_accepts (fun left _ found => foldlM_accepts (fun right _ state => ?_) found) _
  unfold compareSources
  constructor
  · rintro ⟨next,executed⟩
    obtain ⟨order,compared,-⟩ := bind_ok_iff.mp executed
    exact ⟨order,compared⟩
  · rintro ⟨order,compared⟩
    rw [compared,ok_bind]
    split_ifs <;> exact ⟨_,rfl⟩

end Aicortex.Projection
