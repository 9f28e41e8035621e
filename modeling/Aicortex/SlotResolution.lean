import Aicortex.ProjectionFacts
import Aicortex.Lib.Dominance

/-!
Whether a slot that has something to show shows it. Each filter of the projection
removes what another claim of the slot dominates. Authority always leaves someone,
but explicit supersessions can be appended in a circle, and source order compares
by revision where both claims have one and by time otherwise, which three claims
can turn into a circle. A run that never closes either kind of circle keeps every
slot resolved.
-/

namespace Aicortex.Projection
open Aicortex.Text Aicortex.Claims Aicortex.History Aicortex.Windows Lib.Ordered Lib.Outcome Lib.Dominance Relation
set_option linter.unusedSimpArgs false

/-- A value or a conflict with at least one candidate. -/
def SlotState.Resolved : SlotState → Prop
  | .value candidates => candidates ≠ []
  | .conflicted candidates => candidates ≠ []
  | .retracted => False
  | .absent => False

instance : (state : SlotState) → Decidable state.Resolved
  | .value candidates => inferInstanceAs (Decidable (candidates ≠ []))
  | .conflicted candidates => inferInstanceAs (Decidable (candidates ≠ []))
  | .retracted => inferInstanceAs (Decidable False)
  | .absent => inferInstanceAs (Decidable False)

section
variable (build : Build) (policy : ProjectionPolicy)

/-- A claim of the history that is known by the bound, is not retracted by it, and
    covers the query well enough for the policy. -/
def Counts (history : ClaimHistory) (asOf : AsOf) (record : ClaimRecord) : Prop :=
  record ∈ history.claims.values ∧ withinTx record.tx asOf.knowledge = true ∧
    record.claim.id ∉ retractedIds history asOf ∧
    ∃ query certainty, boundWindow build.tz policy asOf.valid = .ok query ∧
      coverage build.tz policy record query = .ok (some certainty) ∧ eligible policy certainty = true

/-- Every view of a history resolves each slot that has a counting claim. -/
def NeverEmptied (history : ClaimHistory) : Prop :=
  ∀ asOf view, project build policy history asOf = .ok view → ∀ record, Counts build policy history asOf record →
    (∃ found ∈ view.slots, found.slot = record.slotId) ∧
      ∀ found ∈ view.slots, found.slot = record.slotId → found.state.Resolved

/-! ### Dominance in a history -/

/-- One claim explicitly supersedes another with effect. -/
def Supersedes (history : ClaimHistory) (winner loser : ClaimId) : Prop :=
  ∃ relation ∈ history.relations, Effective history relation winner loser

/-- The two keys source order compares by. -/
def sourceRank (record : ClaimRecord) : Rank Nat (Int ×ₗ Int) where
  seq := record.sourceSeq
  time := (record.sourceTime.bind (fun point => (pointWindow build.tz policy point).toOption)).map
    (fun window => toLex window.possible)

/-- Claims of one slot and one authority, some of them ordered by source, of which
    no three contradict each other. -/
def Consistent (records : List ClaimRecord) (slot : SlotId) (authority : AuthorityLevel) : Prop :=
  (∃ ordered ∈ records, ordered.slotId = slot ∧ ordered.authority = authority ∧
      ordered.supersession = .bySourceOrder) →
    ∀ low ∈ records, ∀ high ∈ records, ∀ free ∈ records,
      low.slotId = slot → high.slotId = slot → free.slotId = slot →
      low.authority = authority → high.authority = authority → free.authority = authority →
      ¬ Inversion (sourceRank build policy low) (sourceRank build policy high) (sourceRank build policy free)

/-- An append that closes no circle: a supersession whose loser does not already
    lead back to its winner, or a claim after which its peers are still consistent. -/
def Orderly (history : ClaimHistory) : Append → Prop
  | .claim record => Consistent build policy (record :: history.claims.values) record.slotId record.authority
  | .relation relation => ∀ winner loser, Effective history relation winner loser →
      ¬ ReflTransGen (Supersedes history) loser winner
  | .retraction _ => True

/-- A run of successful appends, each of them orderly where it is made. -/
inductive OrderlyRun : List Append → ClaimHistory → Prop where
  | start : OrderlyRun [] .new
  | step {calls : List Append} {history next : ClaimHistory} {call : Append} (before : OrderlyRun calls history)
      (orderly : Orderly build policy history call) (executed : history.append call = .ok next) :
      OrderlyRun (calls ++ [call]) next

/-- What an orderly run maintains. -/
structure Ordered (history : ClaimHistory) : Prop where
  sound : history.Sound
  acyclic : Acyclic (Supersedes history)
  consistent : ∀ slot authority, Consistent build policy history.claims.values slot authority

end

variable {build : Build} {policy : ProjectionPolicy}

/-- A relation between known claims takes effect after an append if and only if it did before. -/
private theorem effective_append {history next : ClaimHistory} {call : Append} (sound : history.Sound)
    (executed : history.append call = .ok next) {relation : HistoryRelation} (member : relation ∈ history.relations)
    {winner loser : ClaimId} (effective : Effective next relation winner loser) :
    Effective history relation winner loser := by
  obtain ⟨kind,sourceIs,targetIs,record,found,strong⟩ := effective
  obtain ⟨known,knownFound⟩ := sound.targets relation member loser targetIs
  obtain rfl := Option.some.inj (found.symm.trans (ClaimHistory.append_keeps_claims executed knownFound))
  exact ⟨kind,sourceIs,targetIs,record,knownFound,strong⟩

private theorem mem_values_appendClaim {history next : ClaimHistory} {added : ClaimRecord}
    (executed : history.appendClaim added = .ok next) {record : ClaimRecord} (member : record ∈ next.claims.values) :
    record = added ∨ record ∈ history.claims.values := by
  obtain ⟨-,-,claims,-⟩ := ClaimHistory.appendClaim_ok executed
  obtain ⟨id,found⟩ := (OrdMap.mem_values _ _).mp member
  rw [claims,OrdMap.find?_insert] at found
  split_ifs at found
  · exact .inl (Option.some.inj found).symm
  · exact .inr ((OrdMap.mem_values _ _).mpr ⟨id,found⟩)

private theorem consistent_appendClaim {history next : ClaimHistory} {added : ClaimRecord}
    (consistent : ∀ slot authority, Consistent build policy history.claims.values slot authority)
    (orderly : Consistent build policy (added :: history.claims.values) added.slotId added.authority)
    (executed : history.appendClaim added = .ok next) (slot : SlotId) (authority : AuthorityLevel) :
    Consistent build policy next.claims.values slot authority := by
  have split := fun record => @mem_values_appendClaim history next added executed record
  rintro ⟨ordered,orderedIn,orderedSlot,orderedAuthority,rule⟩ low lowIn high highIn free freeIn
    lowSlot highSlot freeSlot lowAuthority highAuthority freeAuthority
  by_cases peers : added.slotId = slot ∧ added.authority = authority
  · obtain ⟨rfl,rfl⟩ := peers
    have listed : ∀ record ∈ next.claims.values, record ∈ added :: history.claims.values := fun record member =>
      List.mem_cons.mpr (split record member)
    exact orderly ⟨ordered,listed ordered orderedIn,orderedSlot,orderedAuthority,rule⟩ low (listed low lowIn)
      high (listed high highIn) free (listed free freeIn) lowSlot highSlot freeSlot lowAuthority highAuthority freeAuthority
  · -- The added claim belongs elsewhere, so the triple was there before.
    have old : ∀ record ∈ next.claims.values, record.slotId = slot → record.authority = authority →
        record ∈ history.claims.values := by
      intro record member sameSlot sameAuthority
      rcases split record member with rfl | inside
      · exact absurd ⟨sameSlot,sameAuthority⟩ peers
      · exact inside
    exact consistent slot authority
      ⟨ordered,old ordered orderedIn orderedSlot orderedAuthority,orderedSlot,orderedAuthority,rule⟩
      low (old low lowIn lowSlot lowAuthority) high (old high highIn highSlot highAuthority)
      free (old free freeIn freeSlot freeAuthority) lowSlot highSlot freeSlot lowAuthority highAuthority freeAuthority

private theorem acyclic_appendRelation {history next : ClaimHistory} {added : HistoryRelation}
    (acyclic : Acyclic (Supersedes history))
    (orderly : ∀ winner loser, Effective history added winner loser → ¬ ReflTransGen (Supersedes history) loser winner)
    (executed : history.appendRelation added = .ok next) : Acyclic (Supersedes next) := by
  obtain ⟨rfl,-⟩ := ClaimHistory.appendRelation_ok executed
  have split : ∀ winner loser, Supersedes { history with relations := history.relations ++ [added] } winner loser →
      Supersedes history winner loser ∨ Effective history added winner loser := by
    rintro winner loser ⟨relation,member,effective⟩
    rcases List.mem_append.mp member with old | last
    · exact .inl ⟨relation,old,effective⟩
    · obtain rfl := List.mem_singleton.mp last
      exact .inr effective
  by_cases takes : ∃ winner loser, Effective history added winner loser
  · obtain ⟨winner,loser,effective⟩ := takes
    refine (acyclic_add_edge acyclic (orderly winner loser effective)).mono ?_
    intro a b edge
    rcases split a b edge with old | new
    · exact .inl old
    · obtain ⟨-,sourceIs,targetIs,-⟩ := effective
      obtain ⟨-,sourceIs',targetIs',-⟩ := new
      exact .inr ⟨sourceIs'.symm.trans sourceIs,RelationTarget.claim.inj (targetIs'.symm.trans targetIs)⟩
  · refine acyclic.mono ?_
    intro a b edge
    exact (split a b edge).resolve_right (fun effective => takes ⟨a,b,effective⟩)

theorem ordered_append {history next : ClaimHistory} {call : Append} (ordered : Ordered build policy history)
    (orderly : Orderly build policy history call) (executed : history.append call = .ok next) :
    Ordered build policy next := by
  refine ⟨ClaimHistory.append_sound ordered.sound executed,?_,?_⟩
  · cases call with
    | claim added =>
      obtain ⟨-,-,-,relations,-⟩ := ClaimHistory.appendClaim_ok executed
      refine ordered.acyclic.mono ?_
      rintro winner loser ⟨relation,member,effective⟩
      rw [relations] at member
      exact ⟨relation,member,effective_append ordered.sound executed member effective⟩
    | relation added => exact acyclic_appendRelation ordered.acyclic orderly executed
    | retraction added =>
      obtain ⟨rfl,-⟩ := ClaimHistory.appendRetraction_ok executed
      exact ordered.acyclic
  · cases call with
    | claim added => exact consistent_appendClaim ordered.consistent orderly executed
    | relation added =>
      obtain ⟨rfl,-⟩ := ClaimHistory.appendRelation_ok executed
      exact ordered.consistent
    | retraction added =>
      obtain ⟨rfl,-⟩ := ClaimHistory.appendRetraction_ok executed
      exact ordered.consistent

theorem orderlyRun_ordered {calls : List Append} {history : ClaimHistory}
    (run : OrderlyRun build policy calls history) : Ordered build policy history := by
  induction run with
  | start =>
    refine ⟨ClaimHistory.new_sound,?_,?_⟩
    · intro node path
      obtain ⟨_,⟨relation,member,-⟩,-⟩ := TransGen.head'_iff.mp path
      simp [ClaimHistory.new] at member
    · rintro slot authority ⟨record,member,-⟩
      simp [ClaimHistory.new,OrdMap.values,OrdMap.empty] at member
  | step _ orderly executed ih => exact ordered_append ih orderly executed

/-! ### What survives each filter -/

private theorem compareRange_gt {left right : Int × Int} (greater : compareRange left right = .gt) :
    toLex right < toLex left := by
  rw [Prod.Lex.toLex_lt_toLex]
  unfold compareRange at greater
  rcases lt_trichotomy left.1 right.1 with below | equal | above
  · rw [compare_lt_iff_lt.mpr below] at greater
    simp at greater
  · rw [equal,compare_eq_iff_eq.mpr rfl] at greater
    exact .inr ⟨equal.symm,compare_gt_iff_gt.mp greater⟩
  · exact .inl above

/-- A claim that source order puts ahead beats the other by rank. -/
theorem sourceOrder_gt {left right : ClaimRecord} (ahead : sourceOrder build.tz policy left right = .ok .gt) :
    Beats (sourceRank build policy left) (sourceRank build policy right) := by
  -- Without a revision only the windows are compared.
  have byTime : sourceOrder build.tz policy { left with sourceSeq := none } right = .ok .gt →
      Later (sourceRank build policy left) (sourceRank build policy right) := by
    intro later
    simp only [sourceOrder] at later
    cases leftTime : left.sourceTime with
    | none => simp [leftTime] at later
    | some leftPoint =>
      cases rightTime : right.sourceTime with
      | none => simp [leftTime,rightTime] at later
      | some rightPoint =>
        simp only [leftTime,rightTime,bind_ok_iff] at later
        obtain ⟨leftWindow,leftIs,rightWindow,rightIs,compared⟩ := later
        refine ⟨toLex leftWindow.possible,toLex rightWindow.possible,?_,?_,compareRange_gt (Except.ok.inj compared)⟩
        · simp [sourceRank,leftTime,leftIs,Except.toOption]
        · simp [sourceRank,rightTime,rightIs,Except.toOption]
  have seqs : (sourceRank build policy left).seq = left.sourceSeq ∧ (sourceRank build policy right).seq = right.sourceSeq :=
    ⟨rfl,rfl⟩
  unfold sourceOrder at ahead
  cases leftSeq : left.sourceSeq with
  | none =>
    simp only [leftSeq] at ahead
    simpa [Beats,seqs.1,seqs.2,leftSeq] using byTime ahead
  | some high =>
    cases rightSeq : right.sourceSeq with
    | none =>
      simp only [leftSeq,rightSeq] at ahead
      simpa [Beats,seqs.1,seqs.2,leftSeq,rightSeq] using byTime ahead
    | some low =>
      simp only [leftSeq,rightSeq] at ahead
      simp only [Beats,seqs.1,seqs.2,leftSeq,rightSeq]
      rcases lt_trichotomy high low with below | equal | above
      · rw [compare_lt_iff_lt.mpr below] at ahead
        simp at ahead
      · rw [equal,compare_eq_iff_eq.mpr rfl] at ahead
        exact .inr ⟨equal,byTime ahead⟩
      · exact .inl above

/-- Source order removes only claims that another active claim is ahead of. -/
theorem supersededBySource_removed {active : List Counted} {replacing : OrdMap ClaimId (OrdSet ClaimId)}
    {found : Superseded} (executed : supersededBySource build policy active replacing = .ok found) {id : ClaimId}
    (removed : id ∈ found.removed) :
    ∃ left ∈ active, left.id = id ∧ ∃ right ∈ active, sourceOrder build.tz policy right.1 left.1 = .ok .gt := by
  rw [supersededBySource_eq executed,Superseded.mem_removed_addAll] at removed
  rcases removed with before | ⟨winner,decided⟩
  · exact absurd before (OrdSet.not_mem_empty id)
  · obtain ⟨left,leftIn,right,rightIn,ahead,pairIs⟩ := mem_sourcePairs.mp decided
    exact ⟨left,leftIn,(Prod.mk.inj pairIs).2,right,rightIn,ahead⟩

private theorem foldl_max_mem (levels : List AuthorityLevel) (start : AuthorityLevel) :
    levels.foldl max start = start ∨ levels.foldl max start ∈ levels := by
  induction levels generalizing start with
  | nil => exact .inl rfl
  | cons level rest ih =>
    rw [List.foldl_cons]
    rcases ih (max start level) with same | inside
    · rcases max_choice start level with startWins | levelWins
      · exact .inl (same.trans startWins)
      · exact .inr (by rw [same,levelWins]; exact List.mem_cons_self)
    · exact .inr (List.mem_cons_of_mem _ inside)

private theorem le_foldl_max (levels : List AuthorityLevel) (start level : AuthorityLevel)
    (inside : level ≤ start ∨ level ∈ levels) : level ≤ levels.foldl max start := by
  induction levels generalizing start with
  | nil => simpa using inside
  | cons head rest ih =>
    rw [List.foldl_cons]
    refine ih (max start head) ?_
    rcases inside with below | member
    · exact .inl (below.trans (le_max_left start head))
    · rcases List.mem_cons.mp member with rfl | later
      · exact .inl (le_max_right start level)
      · exact .inr later

/-- The greatest authority present is somebody's. -/
theorem exists_maxAuthority {active : List Counted} (nonempty : active ≠ []) :
    ∃ item ∈ active, item.1.authority = maxAuthority active := by
  obtain ⟨first,firstIn⟩ := List.exists_mem_of_ne_nil active nonempty
  rcases foldl_max_mem (active.map (fun item => item.1.authority)) .inferred with lowest | member
  · have atMost := le_foldl_max (active.map (fun item => item.1.authority)) .inferred first.1.authority
      (.inr (List.mem_map_of_mem firstIn))
    refine ⟨first,firstIn,le_antisymm atMost ?_⟩
    rw [maxAuthority,lowest]
    cases first.1.authority <;> decide
  · obtain ⟨item,itemIn,itemIs⟩ := List.mem_map.mp member
    exact ⟨item,itemIn,itemIs⟩

theorem le_maxAuthority {active : List Counted} {item : Counted} (inside : item ∈ active) :
    item.1.authority ≤ maxAuthority active :=
  le_foldl_max _ _ _ (.inr (List.mem_map_of_mem inside))

/-- The three ways a selection can go: nothing is weighed, authority decides, or
    source order removes some of those with the greatest authority. -/
theorem selectWinners_ok {active winners : List Counted} {replacing after : OrdMap ClaimId (OrdSet ClaimId)}
    (executed : selectWinners build policy active replacing = .ok (winners,after)) :
    winners = active ∨ ∃ top, top = active.filter (fun item => item.1.authority = maxAuthority active) ∧
      (winners = top ∨
        (∃ first ∈ top, first.1.supersession = .bySourceOrder) ∧
          ∃ found, supersededBySource build policy top replacing = .ok found ∧
            winners = top.filter (fun item => !found.removed.contains item.id)) := by
  simp only [selectWinners] at executed
  split_ifs at executed with conflict ordered
  · cases executed
    exact .inl rfl
  · obtain ⟨found,looped,result⟩ := bind_ok_iff.mp executed
    cases result
    obtain ⟨first,firstIs,rule⟩ := (Option.any_eq_true _ _).mp ordered
    exact .inr ⟨_,rfl,.inr ⟨⟨first,List.mem_of_head? firstIs,by simpa using rule⟩,found,looped,rfl⟩⟩
  · cases executed
    exact .inr ⟨_,rfl,.inl rfl⟩

/-- Selection never empties a list of claims of one slot that are consistent. -/
theorem selectWinners_nonempty {active winners : List Counted} {replacing after : OrdMap ClaimId (OrdSet ClaimId)}
    (executed : selectWinners build policy active replacing = .ok (winners,after)) (nonempty : active ≠ [])
    (distinct : ∀ left ∈ active, ∀ right ∈ active, left.id = right.id → left = right) {slot : SlotId}
    (oneSlot : ∀ item ∈ active, item.1.slotId = slot) {records : List ClaimRecord}
    (listed : ∀ item ∈ active, item.1 ∈ records)
    (consistent : ∀ authority, Consistent build policy records slot authority) : winners ≠ [] := by
  rcases selectWinners_ok executed with rfl | ⟨top,topIs,decided⟩
  · exact nonempty
  have topIn : ∀ item ∈ top, item ∈ active ∧ item.1.authority = maxAuthority active := by
    intro item member
    rw [topIs,List.mem_filter] at member
    exact ⟨member.1,by simpa using member.2⟩
  have topNonempty : top ≠ [] := by
    obtain ⟨item,itemIn,itemIs⟩ := exists_maxAuthority nonempty
    rw [topIs]
    exact List.ne_nil_of_mem (List.mem_filter.mpr ⟨itemIn,by simpa using itemIs⟩)
  rcases decided with rfl | ⟨⟨first,firstIn,rule⟩,found,looped,rfl⟩
  · exact topNonempty
  -- Source order applies, and someone of the greatest authority is unbeaten.
  have noInversion : ∀ low ∈ top, ∀ high ∈ top, ∀ free ∈ top, ¬ Inversion (sourceRank build policy low.1)
      (sourceRank build policy high.1) (sourceRank build policy free.1) := by
    intro low lowIn high highIn free freeIn
    have place := fun item (member : item ∈ top) => topIn item member
    refine consistent (maxAuthority active)
      ⟨first.1,listed first (topIn first firstIn).1,oneSlot first (topIn first firstIn).1,(topIn first firstIn).2,rule⟩
      low.1 (listed low (place low lowIn).1) high.1 (listed high (place high highIn).1)
      free.1 (listed free (place free freeIn).1) ?_ ?_ ?_ ?_ ?_ ?_
    · exact oneSlot low (place low lowIn).1
    · exact oneSlot high (place high highIn).1
    · exact oneSlot free (place free freeIn).1
    · exact (place low lowIn).2
    · exact (place high highIn).2
    · exact (place free freeIn).2
  obtain ⟨best,bestIn,unbeaten⟩ := exists_unbeaten (fun item => sourceRank build policy item.1) top topNonempty noInversion
  refine List.ne_nil_of_mem (List.mem_filter.mpr ⟨bestIn,?_⟩)
  rw [Bool.not_eq_true',OrdSet.contains_eq_false_iff]
  intro removed
  obtain ⟨left,leftIn,sameId,right,rightIn,ahead⟩ := supersededBySource_removed looped removed
  obtain rfl := distinct left (topIn left leftIn).1 best (topIn best bestIn).1 sameId
  exact unbeaten right rightIn (sourceOrder_gt ahead)

/-! ### The view -/

theorem candidatesOf_length (winners : List Counted) (replacing : OrdMap ClaimId (OrdSet ClaimId)) :
    (candidatesOf winners replacing).length = winners.length := by
  induction winners generalizing replacing with
  | nil => rfl
  | cons item rest ih => simp [candidatesOf,ih]

/-- What a resolved slot went through. -/
theorem resolveSlot_ok {retracted : OrdSet ClaimId} {supersededIn : OrdSet ClaimId → Superseded} {all : List Counted}
    {state : SlotState} {pairs : List ConflictProposal}
    (executed : resolveSlot build policy retracted supersededIn all = .ok (state,pairs))
    (active : List Counted) (activeIs : active = all.filter (fun item => !retracted.contains item.id))
    (nonempty : active ≠ []) :
    ∃ winners replacing, selectWinners build policy
        (active.filter (fun item => !(supersededIn (.ofList (active.map Counted.id))).removed.contains item.id))
        (supersededIn (.ofList (active.map Counted.id))).replacing = .ok (winners,replacing) ∧
      (state = .value (sortCandidates (candidatesOf (sortById winners) replacing)) ∨
        state = .conflicted (sortCandidates (candidatesOf (sortById winners) replacing))) := by
  subst activeIs
  simp only [resolveSlot,List.isEmpty_iff,nonempty,if_false] at executed
  obtain ⟨⟨winners,replacing⟩,selected,result⟩ := bind_ok_iff.mp executed
  refine ⟨winners,replacing,selected,?_⟩
  simp only at result
  split_ifs at result
  · cases result
    exact .inl rfl
  · cases result
    exact .inr rfl

theorem sortCandidates_ne_nil {winners : List Counted} (replacing : OrdMap ClaimId (OrdSet ClaimId))
    (nonempty : winners ≠ []) : sortCandidates (candidatesOf (sortById winners) replacing) ≠ [] := by
  intro empty
  have lengths : (sortCandidates (candidatesOf (sortById winners) replacing)).length = winners.length := by
    rw [sortCandidates,List.length_insertionSort,candidatesOf_length,sortById,List.length_insertionSort]
  rw [empty] at lengths
  exact nonempty (List.eq_nil_of_length_eq_zero lengths.symm)

/-- Each slot of the loop is resolved from its own group, in the order of the groups. -/
theorem resolveSlots_ok {retracted : OrdSet ClaimId} {supersededIn : OrdSet ClaimId → Superseded}
    {grouped : OrdMap SlotId (List Counted)} {slots : List SlotView} {proposals : OrdSet ConflictProposal}
    (executed : resolveSlots build policy retracted supersededIn grouped = .ok (slots,proposals)) :
    List.Forall₂ (fun entry found => found.slot = entry.1 ∧
      ∃ pairs, resolveSlot build policy retracted supersededIn entry.2 = .ok (found.state,pairs)) grouped.entries slots := by
  have general (entries : List (SlotId × List Counted)) (start finish : List SlotView × OrdSet ConflictProposal)
      (looped : entries.foldlM (addSlot build policy retracted supersededIn) start = .ok finish) :
      ∃ added, finish.1 = start.1 ++ added ∧ List.Forall₂ (fun entry found => found.slot = entry.1 ∧
        ∃ pairs, resolveSlot build policy retracted supersededIn entry.2 = .ok (found.state,pairs)) entries added := by
    induction entries generalizing start with
    | nil =>
      cases looped
      exact ⟨[],by simp,List.Forall₂.nil⟩
    | cons entry rest ih =>
      rw [List.foldlM_cons,bind_ok_iff] at looped
      obtain ⟨next,stepped,remaining⟩ := looped
      rw [addSlot,bind_ok_iff] at stepped
      obtain ⟨⟨state,pairs⟩,resolved,nextIs⟩ := stepped
      obtain ⟨added,finishIs,agrees⟩ := ih next remaining
      have nextSlots : next.1 = start.1 ++ [⟨entry.1,state⟩] := by rw [← Except.ok.inj nextIs]
      refine ⟨⟨entry.1,state⟩ :: added,?_,List.Forall₂.cons ⟨rfl,pairs,resolved⟩ agrees⟩
      rw [finishIs,nextSlots]
      simp
  obtain ⟨added,slotsIs,agrees⟩ := general grouped.entries ([],.empty) (slots,proposals) executed
  obtain rfl : slots = added := by simpa using slotsIs
  exact agrees

/-- The slots of a view, each with the group it was resolved from. -/
theorem project_ok {history : ClaimHistory} {asOf : AsOf} {view : CurrentView}
    (executed : project build policy history asOf = .ok view) :
    ∃ query grouped slots, boundWindow build.tz policy asOf.valid = .ok query ∧
      groupClaims build policy asOf query history.claims.values = .ok grouped ∧
      view.slots.Perm slots ∧ List.Forall₂ (fun entry found => found.slot = entry.1 ∧
        ∃ pairs, resolveSlot build policy (retractedIds history asOf) (explicitlySuperseded history asOf) entry.2 =
          .ok (found.state,pairs)) grouped.entries slots := by
  unfold project at executed
  split_ifs at executed
  obtain ⟨⟨unsorted,proposals⟩,projected,stamped⟩ := bind_ok_iff.mp executed
  obtain ⟨query,bounded,rest⟩ := bind_ok_iff.mp projected
  obtain ⟨grouped,counted,resolved⟩ := bind_ok_iff.mp rest
  refine ⟨query,grouped,unsorted,bounded,counted,?_,resolveSlots_ok resolved⟩
  simp only at stamped
  split at stamped
  · simp at stamped
  · cases stamped
    exact List.perm_insertionSort _ _

/-- The counted claims of one slot, told apart by their ids. -/
private theorem group_facts {history : ClaimHistory} {asOf : AsOf} {query : Window} {slot : SlotId} {item : Counted}
    (member : item ∈ history.claims.values.filterMap (countedIn build policy asOf query slot)) :
    item.1 ∈ history.claims.values ∧ item.1.slotId = slot ∧ history.claims.find? item.id = some item.1 ∧
      coverage build.tz policy item.1 query = .ok (some item.2) := by
  obtain ⟨record,recordIn,counted⟩ := List.mem_filterMap.mp member
  obtain ⟨rfl,-,slotIs,covers,-⟩ := countedIn_some build policy counted
  obtain ⟨id,found⟩ := (OrdMap.mem_values _ _).mp recordIn
  exact ⟨recordIn,slotIs,by rw [Counted.id,history.keyed id item.1 found]; exact found,covers⟩

/-- Explicit supersession leaves someone active when it has no circle. -/
private theorem surviving_nonempty {history : ClaimHistory} (acyclic : Acyclic (Supersedes history)) (asOf : AsOf)
    {active : List Counted} (nonempty : active ≠ []) :
    active.filter (fun item =>
      !(explicitlySuperseded history asOf (.ofList (active.map Counted.id))).removed.contains item.id) ≠ [] := by
  obtain ⟨top,topIn,undominated⟩ := exists_undominated (Supersedes history) acyclic (active.map Counted.id) (by simpa using nonempty)
  obtain ⟨item,itemIn,rfl⟩ := List.mem_map.mp topIn
  refine List.ne_nil_of_mem (List.mem_filter.mpr ⟨itemIn,?_⟩)
  rw [Bool.not_eq_true',OrdSet.contains_eq_false_iff,mem_explicitlySuperseded]
  rintro ⟨winner,winnerIn,-,relation,relationIn,-,effective⟩
  exact undominated winner ((OrdSet.mem_ofList _ _).mp winnerIn) ⟨relation,relationIn,effective⟩

/-- In every history reached by an orderly run, every view resolves each slot that
    has a counting claim. -/
theorem neverEmptied_of_orderlyRun (build : Build) (policy : ProjectionPolicy) (calls : List Append)
    (history : ClaimHistory) (run : OrderlyRun build policy calls history) : NeverEmptied build policy history := by
  have ordered := orderlyRun_ordered run
  rintro asOf view executed record ⟨member,known,unretracted,query,certainty,asked,covers,counts⟩
  obtain ⟨query',grouped,slots,bounded,counted,perm,agrees⟩ := project_ok executed
  obtain rfl : query' = query := Except.ok.inj (bounded.symm.trans asked)
  refine ⟨?_,?_⟩
  · obtain ⟨items,found⟩ := (OrdMap.contains_iff _ _).mp
      ((groupClaims_ok build policy counted record.slotId).2.mpr ⟨record,member,known,rfl⟩)
    obtain ⟨slotView,slotIn,slotIs,-⟩ := forall₂_left agrees ((grouped.find?_iff_mem _ _).mp found)
    exact ⟨slotView,perm.mem_iff.mpr slotIn,slotIs⟩
  · intro found foundIn foundSlot
    obtain ⟨entry,entryIn,entryIs,pairs,resolved⟩ := forall₂_left agrees.flip (perm.mem_iff.mp foundIn)
    have group : entry.2 = history.claims.values.filterMap (countedIn build policy asOf query' record.slotId) := by
      rw [groupClaims_entry build policy counted entryIn,← entryIs,foundSlot]
    have facts := fun item (itemIn : item ∈ entry.2) => @group_facts build policy history asOf query' record.slotId item (group ▸ itemIn)
    have inGroup : (record,certainty) ∈ entry.2 := by
      rw [group]
      exact List.mem_filterMap.mpr ⟨record,member,by simp [countedIn,known,covers,counts]⟩
    have activeNonempty : entry.2.filter (fun item => !(retractedIds history asOf).contains item.id) ≠ [] :=
      List.ne_nil_of_mem (List.mem_filter.mpr ⟨inGroup,by simpa [Counted.id] using unretracted⟩)
    obtain ⟨winners,replacing,selected,stateIs⟩ := resolveSlot_ok resolved _ rfl activeNonempty
    have fromGroup {kept lasting : Counted → Bool} (item : Counted)
        (itemIn : item ∈ (entry.2.filter kept).filter lasting) : item ∈ entry.2 :=
      (List.mem_filter.mp (List.mem_filter.mp itemIn).1).1
    have winnersNonempty : winners ≠ [] := by
      refine selectWinners_nonempty selected (surviving_nonempty ordered.acyclic asOf activeNonempty) ?_
        (fun item itemIn => (facts item (fromGroup item itemIn)).2.1)
        (fun item itemIn => (facts item (fromGroup item itemIn)).1) (ordered.consistent record.slotId)
      intro left leftIn right rightIn sameId
      obtain ⟨-,-,leftFound,leftCovers⟩ := facts left (fromGroup left leftIn)
      obtain ⟨-,-,rightFound,rightCovers⟩ := facts right (fromGroup right rightIn)
      have recordIs : left.1 = right.1 := Option.some.inj (leftFound.symm.trans (sameId ▸ rightFound))
      rw [recordIs] at leftCovers
      exact Prod.ext recordIs (Option.some.inj (Except.ok.inj (leftCovers.symm.trans rightCovers)))
    rcases stateIs with is | is
    · rw [is]
      exact sortCandidates_ne_nil replacing winnersNonempty
    · rw [is]
      exact sortCandidates_ne_nil replacing winnersNonempty

namespace Sample
open Claims.Sample History.Sample

/-- Two claims of one slot, the first then superseding the second. -/
def orderlyCalls : List Append :=
  [.claim (record firstId "12A" 1),.claim (record secondId "14C" 2),
    .relation (supersedes firstId secondId second_ne_first 3)]

private theorem no_revision_consistent {records : List ClaimRecord} (unrevised : ∀ record ∈ records, record.sourceSeq = none)
    (slot : SlotId) (authority : AuthorityLevel) : Consistent build policy records slot authority := by
  rintro - low lowIn high _ free _ _ _ _ _ _ _ ⟨lowSeq,_,lowHas,-⟩
  have missing : low.sourceSeq = some lowSeq := lowHas
  simp [unrevised low lowIn] at missing

theorem orderlyCalls_run : OrderlyRun build policy orderlyCalls (history orderlyCalls) := by
  refine @OrderlyRun.step _ _ [_,_] _ _ _
    (@OrderlyRun.step _ _ [_] _ _ _ (@OrderlyRun.step _ _ [] _ _ _ .start ?_ rfl) ?_ rfl) ?_ rfl
  · exact no_revision_consistent (by decide +kernel) _ _
  · exact no_revision_consistent (by decide +kernel) _ _
  · rintro winner loser ⟨-,rfl,⟨⟩,-⟩ path
    rcases ReflTransGen.cases_head path with same | ⟨_,⟨relation,member,-⟩,-⟩
    · exact absurd same (by decide)
    · exact absurd member List.not_mem_nil

end Sample

theorem neverEmptied_of_orderlyRun_sample :
    NeverEmptied Sample.build Sample.policy (Sample.history Sample.orderlyCalls) :=
  neverEmptied_of_orderlyRun Sample.build Sample.policy Sample.orderlyCalls _ Sample.orderlyCalls_run

namespace Sample
open Claims.Sample History.Sample

/-- Two claims of one slot, each superseding the other at equal authority. -/
def circle : List Append :=
  [.claim (record firstId "12A" 1),.claim (record secondId "14C" 2),
    .relation (supersedes firstId secondId second_ne_first 3),.relation (supersedes secondId firstId (by decide) 4)]

end Sample

/-- Not every run keeps its slots: a circle of supersessions leaves a value with no
    candidate. -/
theorem circle_empties_slot :
    ¬ ∀ (build : Build) (policy : ProjectionPolicy) (calls : List Append) (history : ClaimHistory),
      ClaimHistory.new.appendAll calls = .ok history → NeverEmptied build policy history := by
  intro kept
  have emptied : (project Sample.build Sample.policy (Sample.history Sample.circle) (Sample.asOf 4)).toOption.map
      (·.slots) = some [⟨(Sample.record Sample.firstId "12A" 1).slotId,.value []⟩] := by decide +kernel
  cases executed : project Sample.build Sample.policy (Sample.history Sample.circle) (Sample.asOf 4) with
  | error refusal => simp [executed,Except.toOption] at emptied
  | ok view =>
    have slots : view.slots = [⟨(Sample.record Sample.firstId "12A" 1).slotId,.value []⟩] := by
      simpa [executed,Except.toOption] using emptied
    have counts : Counts Sample.build Sample.policy (Sample.history Sample.circle) (Sample.asOf 4)
        (Sample.record Sample.firstId "12A" 1) :=
      ⟨by decide +kernel,by decide +kernel,by decide +kernel,_,_,rfl,rfl,rfl⟩
    have resolved := (kept Sample.build Sample.policy Sample.circle _ rfl (Sample.asOf 4) view executed _ counts).2
      ⟨(Sample.record Sample.firstId "12A" 1).slotId,.value []⟩ (by rw [slots]; exact List.mem_singleton_self _) rfl
    exact resolved rfl

namespace Sample
open Claims.Sample History.Sample

/-- A claim with a source revision, when it has one, and a source day. -/
def revised (id : ClaimId) (value : String) (seq : Nat) (revision : Option Nat) (day : Nat)
    (legal : CivilTime.legalDate 2026 (some 10) (some day) = true) : ClaimRecord :=
  { record id value seq with sourceSeq := revision, sourceTime := some ⟨.date ⟨2026,some 10,some day,legal⟩,none⟩ }

/-- The revisions put the second over the first; the days put the first over the
    third and the third over the second. -/
def inversion : List Append :=
  [.claim (revised firstId "12A" 1 (some 1) 3 third_legal),.claim (revised secondId "14C" 2 (some 2) 1 (by decide)),
    .claim (revised thirdId "16D" 3 none 2 (by decide))]

end Sample

example : (project Sample.build Sample.policy (Sample.history Sample.inversion) (Sample.asOf 3)).toOption.map
    (fun view => view.slots.map (·.state)) = some [.value []] := by decide +kernel

end Aicortex.Projection
