import Aicortex.SlotResolution

/-!
What a view says. Each slot with a known claim is listed once, in slot order; its
candidates are the claims that went through every filter, in id order; a slot is
conflicted when two of them differ, and each such pair is proposed once.
-/

namespace Aicortex.Projection
open Aicortex.Text Aicortex.Claims Aicortex.History Aicortex.Windows Lib.Ordered Lib.Outcome
set_option linter.unusedSimpArgs false

/-- The candidates a state lists. -/
def SlotState.candidates : SlotState → List ProjectionCandidate
  | .value candidates => candidates
  | .conflicted candidates => candidates
  | .retracted => []
  | .absent => []

def SlotState.isConflicted : SlotState → Bool
  | .conflicted _ => true
  | .value _ => false
  | .retracted => false
  | .absent => false

theorem isConflicted_iff {state : SlotState} : state.isConflicted = true ↔ ∃ candidates, state = .conflicted candidates := by
  cases state <;> simp [SlotState.isConflicted]

section
variable {build : Build} {policy : ProjectionPolicy}

/-! ### Candidates -/

/-- A candidate says what its record says. -/
structure Describes (candidate : ProjectionCandidate) (item : Counted) : Prop where
  id : candidate.claimId = item.id
  value : candidate.value = item.1.claim.value
  authority : candidate.authority = item.1.authority
  certainty : candidate.certainty = item.2

/-- The candidates of a list of winners, as the view lists them. -/
def listed (winners : List Counted) (replacing : OrdMap ClaimId (OrdSet ClaimId)) : List ProjectionCandidate :=
  sortCandidates (candidatesOf (sortById winners) replacing)

private theorem candidatesOf_describe (winners : List Counted) (replacing : OrdMap ClaimId (OrdSet ClaimId)) :
    List.Forall₂ Describes (candidatesOf winners replacing) winners := by
  induction winners generalizing replacing with
  | nil => exact .nil
  | cons item rest ih => exact .cons ⟨rfl,rfl,rfl,rfl⟩ (ih _)

/-- The listed candidates describe the winners, in id order. -/
theorem listed_describe (winners : List Counted) (replacing : OrdMap ClaimId (OrdSet ClaimId)) :
    List.Forall₂ Describes (listed winners replacing) (sortById winners) := by
  have describe := candidatesOf_describe (sortById winners) replacing
  have inOrder : (sortById winners).Pairwise (fun left right => left.id ≤ right.id) := List.pairwise_insertionSort _ _
  have sorted : (candidatesOf (sortById winners) replacing).Pairwise (fun left right => left.claimId ≤ right.claimId) :=
    pairwise_left describe inOrder (fun named named' below => by rw [named.id,named'.id]; exact below)
  rw [listed,sortCandidates,sorted.insertionSort_eq]
  exact describe

/-- Every listed candidate describes a winner. -/
theorem listed_describes {winners : List Counted} {replacing : OrdMap ClaimId (OrdSet ClaimId)}
    {candidate : ProjectionCandidate} (inside : candidate ∈ listed winners replacing) :
    ∃ item ∈ winners, Describes candidate item := by
  obtain ⟨item,itemIn,describes⟩ := forall₂_left (listed_describe winners replacing) inside
  exact ⟨item,(List.mem_insertionSort _).mp itemIn,describes⟩

/-- Every winner is described by a listed candidate. -/
theorem describes_listed {winners : List Counted} (replacing : OrdMap ClaimId (OrdSet ClaimId)) {item : Counted}
    (inside : item ∈ winners) : ∃ candidate ∈ listed winners replacing, Describes candidate item := by
  have sorted : item ∈ sortById winners := (List.mem_insertionSort _).mpr inside
  exact forall₂_left (listed_describe winners replacing).flip sorted

/-- Winners with distinct ids are listed in strictly ascending id order. -/
theorem listed_ascending {winners : List Counted} (distinct : (winners.map Counted.id).Nodup)
    (replacing : OrdMap ClaimId (OrdSet ClaimId)) :
    (listed winners replacing).Pairwise (fun left right => left.claimId < right.claimId) := by
  have sorted : (sortById winners).Pairwise (fun left right => left.id ≤ right.id) := List.pairwise_insertionSort _ _
  have apart : (sortById winners).Pairwise (fun left right => left.id ≠ right.id) :=
    List.pairwise_map.mp (((List.perm_insertionSort _ winners).map Counted.id).nodup_iff.mpr distinct)
  refine pairwise_left (listed_describe winners replacing) (sorted.and apart) ?_
  intro _ _ _ _ named named' both
  rw [named.id,named'.id]
  exact lt_of_le_of_ne both.1 both.2

/-! ### Contradictions among candidates -/

theorem allEqual_iff {candidates : List ProjectionCandidate} :
    allEqual candidates = true ↔ ∀ left ∈ candidates, ∀ right ∈ candidates, left.value = right.value := by
  cases candidates with
  | nil => simp [allEqual]
  | cons first rest =>
    simp only [allEqual,List.head?_cons,Option.all_some,List.all_eq_true,beq_iff_eq]
    constructor
    · intro same left leftIn right rightIn
      rw [same left leftIn,same right rightIn]
    · intro same item itemIn
      exact same item itemIn first List.mem_cons_self

/-- Of candidates in strict id order, each differing pair is proposed, lesser id first. -/
theorem mem_conflictPairs {candidates : List ProjectionCandidate}
    (ascending : candidates.Pairwise (fun left right => left.claimId < right.claimId)) (proposal : ConflictProposal) :
    proposal ∈ conflictPairs candidates ↔ proposal.left < proposal.right ∧ ∃ left ∈ candidates, ∃ right ∈ candidates,
      left.claimId = proposal.left ∧ right.claimId = proposal.right ∧ left.value ≠ right.value := by
  induction candidates with
  | nil => simp [conflictPairs]
  | cons first rest ih =>
    obtain ⟨above,restAscending⟩ := List.pairwise_cons.mp ascending
    have named : ∀ later ∈ rest, ConflictProposal.new first.claimId later.claimId = ⟨first.claimId,later.claimId⟩ :=
      fun later laterIn => if_pos (above later laterIn).le
    simp only [conflictPairs,List.mem_append,List.mem_map,List.mem_filter,bne_iff_ne,ih restAscending]
    constructor
    · rintro (⟨later,⟨laterIn,differ⟩,rfl⟩ | ⟨below,left,leftIn,right,rightIn,names⟩)
      · rw [named later laterIn]
        exact ⟨above later laterIn,first,List.mem_cons_self,later,List.mem_cons_of_mem _ laterIn,rfl,rfl,differ⟩
      · exact ⟨below,left,List.mem_cons_of_mem _ leftIn,right,List.mem_cons_of_mem _ rightIn,names⟩
    · rintro ⟨below,left,leftIn,right,rightIn,leftNamed,rightNamed,differ⟩
      rcases List.mem_cons.mp leftIn with rfl | leftLater
      · rcases List.mem_cons.mp rightIn with rfl | rightLater
        · exact absurd rfl differ
        · refine .inl ⟨right,⟨rightLater,differ⟩,?_⟩
          rw [named right rightLater,leftNamed,rightNamed]
      · rcases List.mem_cons.mp rightIn with rfl | rightLater
        · -- The first candidate has the least id, so it is never on the right.
          have reversed := above left leftLater
          rw [leftNamed,rightNamed] at reversed
          exact absurd below reversed.not_gt
        · exact .inr ⟨below,left,leftLater,right,rightLater,leftNamed,rightNamed,differ⟩

/-! ### One slot -/

theorem selectWinners_sublist {active winners : List Counted} {replacing after : OrdMap ClaimId (OrdSet ClaimId)}
    (executed : selectWinners build policy active replacing = .ok (winners,after)) : winners.Sublist active := by
  rcases selectWinners_ok executed with rfl | ⟨top,rfl,rfl | ⟨-,found,-,rfl⟩⟩
  · exact List.Sublist.refl _
  · exact List.filter_sublist
  · exact List.filter_sublist.trans List.filter_sublist

/-- The claims of a slot that are not retracted. -/
def activeOf (retracted : OrdSet ClaimId) (all : List Counted) : List Counted :=
  all.filter (fun item => !retracted.contains item.id)

/-- The active claims that no explicit supersession removed. -/
def survivingOf (supersededIn : OrdSet ClaimId → Superseded) (active : List Counted) : List Counted :=
  active.filter (fun item => !(supersededIn (.ofList (active.map Counted.id))).removed.contains item.id)

/-- The counted claims of a slot. -/
def groupOf (build : Build) (policy : ProjectionPolicy) (history : ClaimHistory) (asOf : AsOf) (query : Window)
    (slot : SlotId) : List Counted :=
  history.claims.values.filterMap (countedIn build policy asOf query slot)

/-- The claims of a slot that survive retraction, supersession and selection. -/
def winnersOf (build : Build) (policy : ProjectionPolicy) (history : ClaimHistory) (asOf : AsOf) (query : Window)
    (slot : SlotId) : Except ProjectionError (List Counted) := do
  let active := activeOf (retractedIds history asOf) (groupOf build policy history asOf query slot)
  let superseded := explicitlySuperseded history asOf (.ofList (active.map Counted.id))
  let (winners,_) ← selectWinners build policy (survivingOf (explicitlySuperseded history asOf) active) superseded.replacing
  .ok winners

/-- What a slot resolves to: nothing where no claim is active, else what the winners
    of the surviving claims say. -/
theorem resolveSlot_cases {retracted : OrdSet ClaimId} {supersededIn : OrdSet ClaimId → Superseded}
    {all : List Counted} {state : SlotState} {pairs : List ConflictProposal}
    (executed : resolveSlot build policy retracted supersededIn all = .ok (state,pairs)) :
    (activeOf retracted all = [] ∧ state.candidates = [] ∧ state.isConflicted = false ∧ pairs = []) ∨
    ∃ winners replacing, selectWinners build policy (survivingOf supersededIn (activeOf retracted all))
        (supersededIn (.ofList ((activeOf retracted all).map Counted.id))).replacing = .ok (winners,replacing) ∧
      state.candidates = listed winners replacing ∧ state.isConflicted = !allEqual (listed winners replacing) ∧
      pairs = if allEqual (listed winners replacing) then [] else conflictPairs (listed winners replacing) := by
  unfold resolveSlot at executed
  by_cases none : (activeOf retracted all).isEmpty = true
  · left
    rw [activeOf] at none
    simp only [none,if_true,Except.ok.injEq,Prod.mk.injEq] at executed
    obtain ⟨rfl,rfl⟩ := executed
    refine ⟨List.isEmpty_iff.mp none,?_,?_,rfl⟩ <;> split_ifs <;> rfl
  · right
    rw [activeOf] at none
    simp only [none,Bool.false_eq_true,if_false] at executed
    obtain ⟨⟨winners,replacing⟩,selected,result⟩ := bind_ok_iff.mp executed
    refine ⟨winners,replacing,selected,?_⟩
    simp only at result
    split_ifs at result with equal <;>
      simp only [Except.ok.injEq,Prod.mk.injEq] at result <;> obtain ⟨rfl,rfl⟩ := result <;>
      simp_all [listed,SlotState.candidates,SlotState.isConflicted]

/-- The counted claims of one slot have distinct ids. -/
theorem group_distinct (history : ClaimHistory) (asOf : AsOf) (query : Window) (slot : SlotId) :
    ((groupOf build policy history asOf query slot).map Counted.id).Nodup := by
  have ids := OrdMap.values_nodup history.claims (·.claim.id) history.keyed
  refine List.pairwise_map.mpr ((List.pairwise_map.mp ids).filterMap _ ?_)
  intro left right apart first firstCounted second secondCounted
  rw [Counted.id,Counted.id,(countedIn_some build policy firstCounted).1,(countedIn_some build policy secondCounted).1]
  exact apart

/-! ### The view -/

/-- A proposal is made where some slot resolves with it. -/
theorem resolveSlots_proposals {retracted : OrdSet ClaimId} {supersededIn : OrdSet ClaimId → Superseded}
    {grouped : OrdMap SlotId (List Counted)} {slots : List SlotView} {proposals : OrdSet ConflictProposal}
    (executed : resolveSlots build policy retracted supersededIn grouped = .ok (slots,proposals))
    (proposal : ConflictProposal) : proposal ∈ proposals ↔ ∃ entry ∈ grouped.entries, ∃ state pairs,
      resolveSlot build policy retracted supersededIn entry.2 = .ok (state,pairs) ∧ proposal ∈ pairs := by
  have general (entries : List (SlotId × List Counted)) (start finish : List SlotView × OrdSet ConflictProposal)
      (looped : entries.foldlM (addSlot build policy retracted supersededIn) start = .ok finish) :
      proposal ∈ finish.2 ↔ proposal ∈ start.2 ∨ ∃ entry ∈ entries, ∃ state pairs,
        resolveSlot build policy retracted supersededIn entry.2 = .ok (state,pairs) ∧ proposal ∈ pairs := by
    induction entries generalizing start with
    | nil =>
      cases looped
      simp
    | cons entry rest ih =>
      rw [List.foldlM_cons,bind_ok_iff] at looped
      obtain ⟨next,stepped,remaining⟩ := looped
      rw [addSlot,bind_ok_iff] at stepped
      obtain ⟨⟨state,pairs⟩,resolved,nextIs⟩ := stepped
      have here : (∃ state pairs, resolveSlot build policy retracted supersededIn entry.2 = .ok (state,pairs) ∧
          proposal ∈ pairs) ↔ proposal ∈ pairs := by
        simp [resolved]
      rw [ih next remaining,← Except.ok.inj nextIs,OrdSet.mem_foldl_insert]
      simp only [List.mem_cons,exists_eq_or_imp,here]
      tauto
  simpa using general grouped.entries ([],.empty) (slots,proposals) executed

/-- A view lists its groups in slot order, each resolved on its own, and collects what
    they propose. -/
theorem project_views {history : ClaimHistory} {asOf : AsOf} {view : CurrentView}
    (executed : project build policy history asOf = .ok view) :
    ∃ query grouped, boundWindow build.tz policy asOf.valid = .ok query ∧
      groupClaims build policy asOf query history.claims.values = .ok grouped ∧
      List.Forall₂ (fun entry found => found.slot = entry.1 ∧
        ∃ pairs, resolveSlot build policy (retractedIds history asOf) (explicitlySuperseded history asOf) entry.2 =
          .ok (found.state,pairs)) grouped.entries view.slots ∧
      view.slots.Pairwise (fun left right => left.slot < right.slot) ∧
      view.conflictProposals.Pairwise (· < ·) ∧
      ∀ proposal, proposal ∈ view.conflictProposals ↔ ∃ entry ∈ grouped.entries, ∃ state pairs,
        resolveSlot build policy (retractedIds history asOf) (explicitlySuperseded history asOf) entry.2 =
          .ok (state,pairs) ∧ proposal ∈ pairs := by
  unfold project at executed
  split_ifs at executed
  obtain ⟨⟨unsorted,proposals⟩,projected,stamped⟩ := bind_ok_iff.mp executed
  obtain ⟨query,bounded,rest⟩ := bind_ok_iff.mp projected
  obtain ⟨grouped,counted,resolved⟩ := bind_ok_iff.mp rest
  have agrees := resolveSlots_ok resolved
  have ascending : unsorted.Pairwise (fun left right => left.slot < right.slot) := by
    have slots : unsorted.map (·.slot) = grouped.entries.map Prod.fst := by
      refine List.forall₂_eq_eq_eq ▸ ?_
      exact List.forall₂_map_left_iff.mpr (List.forall₂_map_right_iff.mpr (agrees.flip.imp fun _ _ both => both.1))
    rw [← List.pairwise_map (f := fun view : SlotView => view.slot),slots]
    exact List.pairwise_map.mpr grouped.sorted
  have inOrder : unsorted.insertionSort (fun a b => a.slot ≤ b.slot) = unsorted :=
    (ascending.imp le_of_lt).insertionSort_eq
  simp only [inOrder] at stamped
  split at stamped
  · simp at stamped
  · cases stamped
    exact ⟨query,grouped,bounded,counted,agrees,ascending,proposals.sorted,resolveSlots_proposals resolved⟩

/-- Two listed candidates that contradict each other, named by their ids. -/
def Contradict (candidates : List ProjectionCandidate) (left right : ClaimId) : Prop :=
  ∃ first ∈ candidates, ∃ second ∈ candidates,
    first.claimId = left ∧ second.claimId = right ∧ first.value ≠ second.value

/-- Within one slot: conflicted exactly when two candidates differ, and each differing
    pair proposed. -/
theorem resolveSlot_exact {history : ClaimHistory} {asOf : AsOf} {query : Window} {grouped : OrdMap SlotId (List Counted)}
    (counted : groupClaims build policy asOf query history.claims.values = .ok grouped)
    {entry : SlotId × List Counted} (entryIn : entry ∈ grouped.entries) {supersededIn : OrdSet ClaimId → Superseded}
    {retracted : OrdSet ClaimId} {state : SlotState} {pairs : List ConflictProposal}
    (executed : resolveSlot build policy retracted supersededIn entry.2 = .ok (state,pairs)) :
    (state.isConflicted = true ↔ ∃ left right, Contradict state.candidates left right) ∧
    ∀ proposal, proposal ∈ pairs ↔
      proposal.left < proposal.right ∧ Contradict state.candidates proposal.left proposal.right := by
  rcases resolveSlot_cases executed with ⟨-,none,calm,rfl⟩ | ⟨winners,replacing,selected,candidatesAre,conflicted,rfl⟩
  · simp [none,calm,Contradict]
  have distinct : (winners.map Counted.id).Nodup := by
    have group : ((groupOf build policy history asOf query entry.1).map Counted.id).Nodup :=
      group_distinct history asOf query entry.1
    rw [groupOf,← groupClaims_entry build policy counted entryIn] at group
    exact group.sublist (((selectWinners_sublist selected).trans (List.filter_sublist.trans List.filter_sublist)).map _)
  have ascending := listed_ascending distinct replacing
  rw [candidatesAre,conflicted]
  cases equal : allEqual (listed winners replacing) with
  | true =>
    have same := allEqual_iff.mp equal
    simp only [Bool.not_true,Bool.false_eq_true,false_iff,if_true,List.not_mem_nil]
    refine ⟨?_,?_⟩
    · rintro ⟨left,right,first,firstIn,second,secondIn,-,-,differ⟩
      exact differ (same first firstIn second secondIn)
    · rintro proposal ⟨-,first,firstIn,second,secondIn,-,-,differ⟩
      exact differ (same first firstIn second secondIn)
  | false =>
    simp only [Bool.not_false,Bool.false_eq_true,if_false,true_iff]
    refine ⟨?_,mem_conflictPairs ascending⟩
    by_contra calm
    refine absurd (allEqual_iff.mpr ?_) (by rw [equal]; exact Bool.false_ne_true)
    intro first firstIn second secondIn
    by_contra differ
    exact calm ⟨_,_,first,firstIn,second,secondIn,rfl,rfl,differ⟩

theorem selectWinners_nil (replacing : OrdMap ClaimId (OrdSet ClaimId)) :
    selectWinners build policy [] replacing = .ok ([],replacing) := rfl

/-- The candidates of a slot are its winners, in id order. -/
theorem resolveSlot_winners {history : ClaimHistory} {asOf : AsOf} {query : Window}
    {grouped : OrdMap SlotId (List Counted)}
    (counted : groupClaims build policy asOf query history.claims.values = .ok grouped)
    {entry : SlotId × List Counted} (entryIn : entry ∈ grouped.entries) {state : SlotState} {pairs : List ConflictProposal}
    (executed : resolveSlot build policy (retractedIds history asOf) (explicitlySuperseded history asOf) entry.2 =
      .ok (state,pairs)) :
    ∃ winners, winnersOf build policy history asOf query entry.1 = .ok winners ∧
      List.Forall₂ Describes state.candidates (sortById winners) := by
  rw [winnersOf,groupOf,← groupClaims_entry build policy counted entryIn]
  rcases resolveSlot_cases executed with ⟨none,empty,-,-⟩ | ⟨winners,replacing,selected,candidatesAre,-,-⟩
  · refine ⟨[],?_,?_⟩
    · rw [none,survivingOf,List.filter_nil,selectWinners_nil,ok_bind]
    · rw [empty]
      exact .nil
  · refine ⟨winners,bind_ok_iff.mpr ⟨_,selected,rfl⟩,?_⟩
    rw [candidatesAre]
    exact listed_describe winners replacing

/-- Conflicts are reported exactly: a slot is conflicted when two of its candidates
    differ, the proposals are the differing pairs in order, and every slot with a known
    claim is listed once, in order. -/
theorem conflicts_exact (build : Build) (policy : ProjectionPolicy) (history : ClaimHistory) (asOf : AsOf)
    (view : CurrentView) (executed : project build policy history asOf = .ok view) :
    (∀ found ∈ view.slots, ∃ query winners, boundWindow build.tz policy asOf.valid = .ok query ∧
      winnersOf build policy history asOf query found.slot = .ok winners ∧
      List.Forall₂ Describes found.state.candidates (sortById winners) ∧
      ((∃ candidates, found.state = .conflicted candidates) ↔
        ∃ left ∈ winners, ∃ right ∈ winners, left.1.claim.value ≠ right.1.claim.value)) ∧
    view.conflictProposals.Pairwise (· < ·) ∧
    (∀ proposal, proposal ∈ view.conflictProposals ↔ proposal.left < proposal.right ∧
      ∃ found ∈ view.slots, ∃ candidates, found.state = .conflicted candidates ∧
        Contradict candidates proposal.left proposal.right) ∧
    view.slots.Pairwise (fun left right => left.slot < right.slot) ∧
    ∀ slot, (∃ found ∈ view.slots, found.slot = slot) ↔
      ∃ record ∈ history.claims.values, withinTx record.tx asOf.knowledge = true ∧ record.slotId = slot := by
  obtain ⟨query,grouped,bounded,counted,agrees,ordered,sorted,proposed⟩ := project_views executed
  refine ⟨?_,sorted,?_,ordered,?_⟩
  · intro found foundIn
    obtain ⟨entry,entryIn,slotIs,pairs,resolved⟩ := forall₂_left agrees.flip foundIn
    obtain ⟨winners,selected,describe⟩ := resolveSlot_winners counted entryIn resolved
    refine ⟨query,winners,bounded,slotIs ▸ selected,describe,?_⟩
    rw [← isConflicted_iff,(resolveSlot_exact counted entryIn resolved).1]
    constructor
    · rintro ⟨-,-,left,leftIn,right,rightIn,-,-,differ⟩
      obtain ⟨first,firstIn,described⟩ := forall₂_left describe leftIn
      obtain ⟨second,secondIn,described'⟩ := forall₂_left describe rightIn
      rw [described.value,described'.value] at differ
      exact ⟨first,(List.mem_insertionSort _).mp firstIn,second,(List.mem_insertionSort _).mp secondIn,differ⟩
    · rintro ⟨first,firstIn,second,secondIn,differ⟩
      obtain ⟨left,leftIn,described⟩ := forall₂_left describe.flip ((List.mem_insertionSort _).mpr firstIn)
      obtain ⟨right,rightIn,described'⟩ := forall₂_left describe.flip ((List.mem_insertionSort _).mpr secondIn)
      rw [← described.value,← described'.value] at differ
      exact ⟨_,_,left,leftIn,right,rightIn,rfl,rfl,differ⟩
  · intro proposal
    rw [proposed]
    constructor
    · rintro ⟨entry,entryIn,state,pairs,resolved,inside⟩
      obtain ⟨found,foundIn,-,foundPairs,foundResolved⟩ := forall₂_left agrees entryIn
      obtain ⟨rfl,rfl⟩ := Prod.mk.inj (Except.ok.inj (foundResolved.symm.trans resolved))
      have exactly := resolveSlot_exact counted entryIn resolved
      obtain ⟨below,contradict⟩ := (exactly.2 proposal).mp inside
      obtain ⟨candidates,stateIs⟩ := isConflicted_iff.mp (exactly.1.mpr ⟨_,_,contradict⟩)
      exact ⟨below,found,foundIn,candidates,stateIs,by rwa [stateIs] at contradict⟩
    · rintro ⟨below,found,foundIn,candidates,stateIs,contradict⟩
      obtain ⟨entry,entryIn,-,pairs,resolved⟩ := forall₂_left agrees.flip foundIn
      refine ⟨entry,entryIn,_,pairs,resolved,((resolveSlot_exact counted entryIn resolved).2 proposal).mpr ⟨below,?_⟩⟩
      rwa [stateIs]
  · intro slot
    rw [← (groupClaims_ok build policy counted slot).2,OrdMap.contains_iff]
    constructor
    · rintro ⟨found,foundIn,rfl⟩
      obtain ⟨entry,entryIn,slotIs,-⟩ := forall₂_left agrees.flip foundIn
      exact ⟨entry.2,(OrdMap.find?_iff_mem _ _ _).mpr (slotIs ▸ entryIn)⟩
    · rintro ⟨items,held⟩
      obtain ⟨found,foundIn,slotIs,-⟩ := forall₂_left agrees ((OrdMap.find?_iff_mem _ _ _).mp held)
      exact ⟨found,foundIn,slotIs⟩

end

namespace Sample
open Claims.Sample History.Sample

def emptyView (asOf : AsOf) : CurrentView := ⟨asOf,0,"","",[],[],""⟩

/-- The view of a history about the sample day, or the empty one when it is refused. -/
def viewAt (history : ClaimHistory) (seq : Nat) : CurrentView :=
  (project build policy history (asOf seq)).toOption.getD (emptyView (asOf seq))

theorem viewAt_ok {history : ClaimHistory} {seq : Nat} (succeeds : (project build policy history (asOf seq)).isOk = true) :
    project build policy history (asOf seq) = .ok (viewAt history seq) := by
  unfold viewAt
  cases executed : project build policy history (asOf seq) with
  | error refusal => simp [executed,Except.isOk,Except.toBool] at succeeds
  | ok view => rfl

/-- Two claims of one slot that differ, neither before the other. -/
def differing : List Append := [.claim (record secondId "14C" 1),.claim (record firstId "12A" 2)]

end Sample

theorem conflicts_exact_differing : ∃ found ∈ (Sample.viewAt (Sample.history Sample.differing) 2).slots,
    ∃ candidates, found.state = .conflicted candidates ∧ Contradict candidates Sample.firstId Sample.secondId := by
  have exactly := conflicts_exact Sample.build Sample.policy (Sample.history Sample.differing) (Sample.asOf 2)
    (Sample.viewAt (Sample.history Sample.differing) 2) (Sample.viewAt_ok (by decide +kernel))
  exact ((exactly.2.2.1 ⟨Sample.firstId,Sample.secondId⟩).mp (by decide +kernel)).2

end Aicortex.Projection
