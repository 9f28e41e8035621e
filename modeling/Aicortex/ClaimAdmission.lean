import Aicortex.PlainChains
import Mathlib.Order.Bounds.Basic

/-!
What an admission by the claim gate vouches for. The authority of an admitted claim is
what its best honoured evidence reaches under the policy, its relations are to known
claims of its scope, and it supersedes no claim above it. An operator seed is contained
only as far as nothing but the seed speaks for the claim.
-/

namespace Aicortex.ClaimAdmission
open Aicortex.Text Aicortex.Walk Aicortex.CaptureGate Aicortex.Registry Aicortex.ClaimGate Aicortex.PlainChains
open Lib.Ordered Lib.Outcome
open Aicortex.Claims hiding Unit
set_option linter.unusedSimpArgs false

/-! ### Admissions -/

section
variable {SecretRules : Type} {linked : Linked SecretRules} {rules : RuleSet SecretRules} {proposal : ClaimProposal}
  {registry : RegistrySnapshot} {policy : AdmissionPolicy} {context : ClaimContext} {claim : AdmittedClaim}

/-- A chain passes exactly when each of its steps does. -/
theorem chain_pass_iff {S R : Type} (subject : S) (steps : List (Step S R)) :
    chain subject steps = .pass ↔ ∀ step ∈ steps, step.judge subject = .pass := by
  induction steps with
  | nil => simp
  | cons step rest ih =>
    obtain ⟨id,judge⟩ := step
    rw [chain_cons,List.forall_mem_cons]
    cases judged : judge subject with
    | pass => simp [judged,ih]
    | fault reason => simp [judged]
    | hold reason => cases chain subject rest <;> simp [judged]

/-- What the first seven steps ask of a proposal. -/
structure Clean (linked : Linked SecretRules) (secrets : SecretRules) (proposal : ClaimProposal)
    (registry : RegistrySnapshot) (policy : AdmissionPolicy) (context : ClaimContext) : Prop where
  valid : ∃ valid, validate linked.isNfc proposal.claim registry = .ok valid
  secretFree : claimSecret linked secrets proposal.claim = none
  evidenced : proposal.evidence ≠ []
  available : unavailableSource proposal context = none
  plainSeed : seeds proposal = [] ∨ ∀ evidence ∈ proposal.evidence, evidence.kind ≠ .userStatement
  aboveFloor : policy.doc.scoreFloor.any (fun floor => proposal.evidence.any (belowFloor floor)) = false
  userLevel : ∀ statement ∈ userStatements proposal, statement.asserted.isUser = true

@[simp] theorem faultIf_pass (refused : Bool) (reason : ClaimReason) : faultIf refused reason = .pass ↔ refused = false := by
  cases refused <;> simp [faultIf]

theorem clean_iff (linked : Linked SecretRules) (subject : Proposal SecretRules) :
    (vocabulary linked subject = .pass ∧ ClaimGate.secretsStep linked subject = .pass ∧ provenance subject = .pass ∧
        sources subject = .pass ∧ seed subject = .pass ∧ scoreFloor subject = .pass ∧ userLevel subject = .pass) ↔
      Clean linked subject.secrets subject.proposal subject.registry subject.policy subject.context := by
  have vocabularyIff : vocabulary linked subject = .pass ↔
      ∃ valid, validate linked.isNfc subject.proposal.claim subject.registry = .ok valid := by
    unfold vocabulary
    cases validate linked.isNfc subject.proposal.claim subject.registry <;> simp
  have secretsIff : ClaimGate.secretsStep linked subject = .pass ↔
      claimSecret linked subject.secrets subject.proposal.claim = none := by
    unfold ClaimGate.secretsStep
    cases claimSecret linked subject.secrets subject.proposal.claim <;> simp
  have sourcesIff : sources subject = .pass ↔ unavailableSource subject.proposal subject.context = none := by
    unfold sources
    cases unavailableSource subject.proposal subject.context <;> simp
  have seedIff : seed subject = .pass ↔
      (seeds subject.proposal = [] ∨ ∀ evidence ∈ subject.proposal.evidence, evidence.kind ≠ .userStatement) := by
    simp only [seed,faultIf_pass,Bool.and_eq_false_iff,Bool.not_eq_false',List.isEmpty_iff,List.any_eq_false,beq_iff_eq]
  have levelIff : userLevel subject = .pass ↔
      ∀ statement ∈ userStatements subject.proposal, statement.asserted.isUser = true := by
    simp [userLevel]
  rw [vocabularyIff,secretsIff,sourcesIff,seedIff,levelIff]
  simp only [provenance,scoreFloor,faultIf_pass,List.isEmpty_eq_false_iff]
  constructor
  · rintro ⟨valid,secretFree,evidenced,available,plainSeed,aboveFloor,userLevel⟩
    exact ⟨valid,secretFree,evidenced,available,plainSeed,aboveFloor,userLevel⟩
  · rintro ⟨valid,secretFree,evidenced,available,plainSeed,aboveFloor,userLevel⟩
    exact ⟨valid,secretFree,evidenced,available,plainSeed,aboveFloor,userLevel⟩

/-- The claim as admitted at an authority with its relations. -/
def built (subject : Proposal SecretRules) (authority : AuthorityLevel) (related : Related) : AdmittedClaim where
  claim := subject.proposal.claim
  proposal := subject.proposal.id
  proposer := subject.proposal.proposer
  policy := subject.policy.reference
  authority := authority
  sourcing := (Grounds.of subject).sourcing
  evidence := subject.proposal.evidence
  relations := related.relations
  corrects := if (Grounds.of subject).correcting then corrected subject.proposal else []
  conflicts := related.conflicts

/-- What the last three steps and the rebuilding ask, each of which takes the facts
    afresh. -/
theorem tail_iff (subject : Proposal SecretRules) (claim : AdmittedClaim) :
    (authorityStep subject = .pass ∧ relationsStep subject = .pass ∧ ground subject = .pass ∧
        admitted subject = .admitted claim) ↔
      ∃ authority related, (Grounds.of subject).authority = some authority ∧
        relate subject (Grounds.of subject) authority = .ok related ∧
        (related.outranked = true → reviewed subject.proposal = true) ∧
        grounded subject (Grounds.of subject).ownData authority = true ∧ claim = built subject authority related := by
  simp only [authorityStep,relationsStep,ground,admitted]
  cases authorityIs : (Grounds.of subject).authority with
  | none => simp
  | some authority =>
    cases relatedIs : relate subject (Grounds.of subject) authority with
    | error reason => simp [authorityIs,relatedIs]
    | ok related =>
      simp only [authorityIs,relatedIs,faultIf_pass,Option.isNone_some,true_and,Judgement.admitted.injEq,Option.some.injEq]
      constructor
      · rintro ⟨passes,rfl⟩
        split at passes
        · cases passes
        · next ranked =>
          split at passes
          · next found =>
            refine ⟨authority,related,rfl,relatedIs,?_,found,rfl⟩
            intro outranked
            simpa [outranked] using ranked
          · cases passes
      · rintro ⟨level,other,rfl,same,ranked,found,rfl⟩
        obtain rfl := Except.ok.inj (relatedIs.symm.trans same)
        have kept : (related.outranked && !reviewed subject.proposal) = false := by
          cases outranked : related.outranked with
          | false => rfl
          | true => simp [ranked outranked]
        refine ⟨?_,rfl⟩
        simp [kept,found]

/-- The gate admits a clean proposal that earns an authority, whose relations hold,
    that outranks what it supersedes unless reviewed, and that has a ground. -/
theorem admits_iff (lawful : linked.closed.Lawful) {subject : Proposal SecretRules}
    (subjectIs : subject = ⟨proposal,registry,policy,context,rules.secrets⟩) :
    evaluateClaim linked rules proposal registry policy context = .admitted claim ↔
      Clean linked rules.secrets proposal registry policy context ∧
        ∃ authority related, (Grounds.of subject).authority = some authority ∧
          relate subject (Grounds.of subject) authority = .ok related ∧
          (related.outranked = true → reviewed proposal = true) ∧
          grounded subject (Grounds.of subject).ownData authority = true ∧ claim = built subject authority related := by
  have walked : evaluateClaim linked rules proposal registry policy context = .admitted claim ↔
      (∀ step ∈ claimWalk linked, step.judge subject = .pass) ∧ admitted subject = .admitted claim := by
    rw [← chain_pass_iff,evaluateClaim,judge,walkClaim,walkClaim_eq_chain linked lawful,← subjectIs]
    cases chain subject (claimWalk linked) with
    | fault reason => simp
    | hold reason => simp
    | pass => cases admitted subject <;> simp
  have first := clean_iff linked subject
  subst subjectIs
  rw [walked,← first]
  have last := tail_iff (Proposal.mk proposal registry policy context rules.secrets) claim
  rw [← last]
  simp only [claimWalk,List.forall_mem_cons,List.not_mem_nil,false_implies,implies_true,and_true,and_assoc]

/-! ### Relations -/

/-- What a proposed relation is refused for: a target that is not known, one of another
    scope, a user's supersession of a supplier's claim, and the claim itself. -/
structure Fine (subject : Proposal SecretRules) (sourcing : Sourcing) (relation : ProposedRelation) (facts : TargetFacts) :
    Prop where
  known : subject.context.targets.find? relation.target = some facts
  sameScope : facts.scope = subject.proposal.claim.scope
  contradicts : relation.kind = .supersedes → sourcing = .user → facts.sourcing ≠ .supplier
  other : relation.target ≠ subject.proposal.claim.id

/-- A supersession of a claim of higher authority. -/
def Outranked (subject : Proposal SecretRules) (authority : AuthorityLevel) (relation : ProposedRelation) : Prop :=
  relation.kind = .supersedes ∧
    ∃ facts, subject.context.targets.find? relation.target = some facts ∧ authority < facts.authority

theorem newRelation_ok {asserted : Claim} {relation : ProposedRelation} {made : ClaimRelation}
    (accepted : newRelation asserted relation = .ok made) :
    relation.target ≠ asserted.id ∧ made.kind = relation.kind ∧ made.target = .claim relation.target := by
  unfold newRelation at accepted
  split_ifs at accepted with legal
  obtain rfl := Except.ok.inj accepted
  exact ⟨by simpa [legalRelation] using legal,rfl,rfl⟩

theorem newRelation_of_other {asserted : Claim} {relation : ProposedRelation} (other : relation.target ≠ asserted.id) :
    ∃ made, newRelation asserted relation = .ok made := by
  have legal : legalRelation asserted.id relation.kind (.claim relation.target) = true := by
    simpa [legalRelation] using other
  exact ⟨_,by rw [newRelation,dif_pos legal]⟩

variable {subject : Proposal SecretRules} {grounds : Grounds} {authority : AuthorityLevel}

theorem relateOne_ok {relation : ProposedRelation} {start next : Related}
    (accepted : relateOne subject grounds authority start relation = .ok next) :
    ∃ facts made, Fine subject grounds.sourcing relation facts ∧ made.kind = relation.kind ∧
      made.target = .claim relation.target ∧ next.relations = start.relations ++ [made] ∧
      next.outranked = (start.outranked || (relation.kind == .supersedes && decide (facts.authority > authority))) := by
  simp only [relateOne] at accepted
  split at accepted
  · cases accepted
  · next facts known =>
    split at accepted
    · cases accepted
    · next sameScope =>
      split at accepted
      · cases accepted
      · next allowed =>
        obtain ⟨made,relates,appended⟩ := bind_ok_iff.mp accepted
        obtain rfl := Except.ok.inj appended
        obtain ⟨other,kind,target⟩ := newRelation_ok relates
        refine ⟨facts,made,⟨known,not_not.mp sameScope,?_,other⟩,kind,target,rfl,rfl⟩
        exact fun supersedes user supplier => allowed ⟨supersedes,user,supplier⟩

theorem relateOne_of_fine {relation : ProposedRelation} {facts : TargetFacts}
    (fine : Fine subject grounds.sourcing relation facts) (start : Related) :
    ∃ next, relateOne subject grounds authority start relation = .ok next := by
  obtain ⟨made,relates⟩ := newRelation_of_other fine.other
  have allowed : ¬ (relation.kind = .supersedes ∧ grounds.sourcing = .user ∧ facts.sourcing = .supplier) :=
    fun refused => fine.contradicts refused.1 refused.2.1 refused.2.2
  simp only [relateOne,fine.known,fine.sameScope,allowed,relates,ok_bind,ne_eq,not_true_eq_false,if_false]
  exact ⟨_,rfl⟩

/-- Every relation is fine, the built ones are the proposed ones, and the proposal is
    outranked exactly when one of them is. -/
theorem relations_ok {relations : List ProposedRelation} {start next : Related}
    (accepted : relations.foldlM (relateOne subject grounds authority) start = .ok next) :
    (∀ relation ∈ relations, ∃ facts, Fine subject grounds.sourcing relation facts) ∧
      (∀ made ∈ next.relations, made ∈ start.relations ∨
        ∃ relation ∈ relations, made.kind = relation.kind ∧ made.target = .claim relation.target) ∧
      (next.outranked = true ↔ start.outranked = true ∨ ∃ relation ∈ relations, Outranked subject authority relation) := by
  induction relations generalizing start with
  | nil =>
    cases accepted
    simp
  | cons relation rest ih =>
    obtain ⟨mid,first,remaining⟩ := bind_ok_iff.mp accepted
    obtain ⟨facts,made,fine,kind,target,appended,outranked⟩ := relateOne_ok first
    obtain ⟨others,origin,later⟩ := ih remaining
    refine ⟨?_,?_,?_⟩
    · intro candidate member
      rcases List.mem_cons.mp member with rfl | inside
      · exact ⟨facts,fine⟩
      · exact others candidate inside
    · intro candidate member
      rcases origin candidate member with earlier | ⟨proposed,inside,same⟩
      · rw [appended] at earlier
        rcases List.mem_append.mp earlier with old | added
        · exact .inl old
        · obtain rfl := List.mem_singleton.mp added
          exact .inr ⟨relation,List.mem_cons_self,kind,target⟩
      · exact .inr ⟨proposed,List.mem_cons_of_mem _ inside,same⟩
    · have here : (relation.kind == .supersedes && decide (facts.authority > authority)) = true ↔
          Outranked subject authority relation := by
        simp [Outranked,fine.known]
      rw [later,outranked,Bool.or_eq_true,here,List.exists_mem_cons_iff,or_assoc]

theorem relations_of_fine {relations : List ProposedRelation}
    (fine : ∀ relation ∈ relations, ∃ facts, Fine subject grounds.sourcing relation facts) (start : Related) :
    ∃ next, relations.foldlM (relateOne subject grounds authority) start = .ok next := by
  induction relations generalizing start with
  | nil => exact ⟨start,rfl⟩
  | cons relation rest ih =>
    obtain ⟨facts,here⟩ := fine relation List.mem_cons_self
    obtain ⟨mid,first⟩ := @relateOne_of_fine _ subject grounds authority relation facts here start
    obtain ⟨next,remaining⟩ := ih (fun other inside => fine other (List.mem_cons_of_mem _ inside)) mid
    exact ⟨next,bind_ok_iff.mpr ⟨mid,first,remaining⟩⟩

end

/-! ### Earned authority -/

/-- A user statement is honoured as the word of the human who proposes. -/
def Honoured (proposal : ClaimProposal) : Evidence → Prop
  | .userStatement by' _ => proposal.proposer.kind = .human ∧ proposal.proposer.id.text = by'.text
  | _ => True

/-- What an item earns before the policy's ceiling for its kind. -/
def itemLevel (proposal : ClaimProposal) : EvidenceKind → Option AuthorityLevel
  | .userStatement => some (if corrected proposal = [] then .userAsserted else .userCorrected)
  | kind => ceilingOf kind

/-- The levels the honoured items reach under the policy. -/
def reached (proposal : ClaimProposal) (policy : AdmissionPolicy) : Set AuthorityLevel :=
  {level | ∃ evidence ∈ proposal.evidence, Honoured proposal evidence ∧ ∃ earns ceiling,
    itemLevel proposal evidence.kind = some earns ∧ policy.ceiling evidence.kind = some ceiling ∧ level = min earns ceiling}

theorem honoured_of_kind {proposal : ClaimProposal} {evidence : Evidence} (other : evidence.kind ≠ .userStatement) :
    Honoured proposal evidence := by
  cases evidence with
  | userStatement by' authority => exact absurd rfl other
  | _ => exact trivial

theorem mem_userStatements {proposal : ClaimProposal} {statement : Statement} :
    statement ∈ userStatements proposal ↔
      ∃ by' authority, Evidence.userStatement by' authority ∈ proposal.evidence ∧
        Honoured proposal (.userStatement by' authority) ∧ statement = ⟨by'.text,authority⟩ := by
  simp only [userStatements,List.mem_filterMap,Honoured]
  constructor
  · rintro ⟨evidence,inside,kept⟩
    cases evidence with
    | userStatement by' authority =>
      by_cases own : proposal.proposer.kind = .human ∧ proposal.proposer.id.text = by'.text
      · exact ⟨by',authority,inside,own,by simpa [own.1,own.2,eq_comm] using kept⟩
      · have refused : (proposal.proposer.kind == .human && proposal.proposer.id.text == by'.text) = false := by
          simpa using own
        simp [refused] at kept
    | _ => cases kept
  · rintro ⟨by',authority,inside,⟨human,own⟩,rfl⟩
    exact ⟨_,inside,by simp [human,own]⟩

theorem ceiling_le {policy : AdmissionPolicy} {kind : EvidenceKind} {ceiling : AuthorityLevel}
    (capped : policy.ceiling kind = some ceiling) : ∃ most, ceilingOf kind = some most ∧ ceiling ≤ most := by
  simp only [AdmissionPolicy.ceiling,Option.map_eq_some_iff] at capped
  obtain ⟨most,is,rfl⟩ := capped
  refine ⟨most,is,?_⟩
  split
  · exact min_le_right _ _
  · exact le_rfl

/-- The level an item is given, whether the statement that honours it is its own or
    another's of the same proposal. -/
theorem levelOf_eq {proposal : ClaimProposal} {policy : AdmissionPolicy} {kind : EvidenceKind} {ceiling : AuthorityLevel}
    (capped : policy.ceiling kind = some ceiling) (said : kind = .userStatement → userStatements proposal ≠ []) :
    ∃ earns, itemLevel proposal kind = some earns ∧
      (levelOf kind ceiling (!(userStatements proposal).isEmpty)
        (!(userStatements proposal).isEmpty && !(corrected proposal).isEmpty)).map (min · ceiling) =
        some (min earns ceiling) := by
  by_cases states : kind = .userStatement
  · have spoken : (userStatements proposal).isEmpty = false := by simpa using said states
    subst states
    by_cases correcting : corrected proposal = []
    · exact ⟨.userAsserted,by simp [itemLevel,correcting],by simp [levelOf,spoken,correcting]⟩
    · exact ⟨.userCorrected,by simp [itemLevel,correcting],by simp [levelOf,spoken,correcting]⟩
  · obtain ⟨most,is,below⟩ := ceiling_le capped
    have earns : itemLevel proposal kind = some most := by
      cases kind <;> first | exact is | exact absurd rfl states
    refine ⟨most,earns,?_⟩
    simp [levelOf,states,min_eq_right below]

/-- The earned authority is the highest level an honoured item reaches. A statement that
    is not honoured is given a level only beside one that is, which reaches the same. -/
theorem earned_isGreatest {proposal : ClaimProposal} {policy : AdmissionPolicy} {authority : AuthorityLevel}
    (earns : earned proposal policy (!(userStatements proposal).isEmpty)
      (!(userStatements proposal).isEmpty && !(corrected proposal).isEmpty) = some authority) :
    IsGreatest (reached proposal policy) authority := by
  obtain ⟨member,greatest⟩ := List.max?_eq_some_iff.mp earns
  constructor
  · obtain ⟨evidence,inside,given⟩ := List.mem_filterMap.mp member
    obtain ⟨ceiling,capped,level⟩ := Option.bind_eq_some_iff.mp given
    have said : evidence.kind = .userStatement → userStatements proposal ≠ [] := by
      intro states none
      simp [levelOf,states,none] at level
    obtain ⟨earned,is,mapped⟩ := levelOf_eq capped said
    have exactly : authority = min earned ceiling := by
      rw [← Option.some.injEq,← mapped,← level]
      cases levelOf evidence.kind ceiling (!(userStatements proposal).isEmpty)
        (!(userStatements proposal).isEmpty && !(corrected proposal).isEmpty) <;> rfl
    by_cases states : evidence.kind = .userStatement
    · obtain ⟨statement,made⟩ := List.exists_mem_of_ne_nil _ (said states)
      obtain ⟨by',asserted,cited,honoured,-⟩ := mem_userStatements.mp made
      rw [states] at is capped
      exact ⟨_,cited,honoured,earned,ceiling,is,capped,exactly⟩
    · exact ⟨evidence,inside,honoured_of_kind states,earned,ceiling,is,capped,exactly⟩
  · rintro level ⟨evidence,inside,honoured,earned,ceiling,is,capped,rfl⟩
    have said : evidence.kind = .userStatement → userStatements proposal ≠ [] := by
      intro states
      cases evidence with
      | userStatement by' asserted => exact List.ne_nil_of_mem (mem_userStatements.mpr ⟨by',asserted,inside,honoured,rfl⟩)
      | _ => cases states
    obtain ⟨same,also,mapped⟩ := levelOf_eq capped said
    obtain rfl := Option.some.inj (is.symm.trans also)
    refine greatest _ (List.mem_filterMap.mpr ⟨evidence,inside,?_⟩)
    rw [← mapped]
    simp only [capped,Option.bind_eq_bind,Option.bind_some]
    cases levelOf evidence.kind ceiling (!(userStatements proposal).isEmpty)
      (!(userStatements proposal).isEmpty && !(corrected proposal).isEmpty) <;> rfl

theorem isUser_of_le_verified {level : AuthorityLevel} (low : level ≤ .verified) : level.isUser = false := by
  cases level with
  | userAsserted => exact absurd low (by decide)
  | userCorrected => exact absurd low (by decide)
  | _ => rfl

/-- A user's level is reached by a human proposer's own statement alone. -/
theorem statement_of_reached_user {proposal : ClaimProposal} {policy : AdmissionPolicy} {level : AuthorityLevel}
    (reaches : level ∈ reached proposal policy) (user : level.isUser = true) :
    ∃ by' asserted, Evidence.userStatement by' asserted ∈ proposal.evidence ∧
      Honoured proposal (.userStatement by' asserted) := by
  obtain ⟨evidence,inside,honoured,earned,ceiling,-,capped,rfl⟩ := reaches
  obtain ⟨most,is,below⟩ := ceiling_le capped
  cases evidence with
  | userStatement by' asserted => exact ⟨by',asserted,inside,honoured⟩
  | corroboration claims => cases is
  | reviewApproval by' decision => cases is
  | _ =>
    cases is
    have low : min earned ceiling ≤ .verified := ((min_le_right earned ceiling).trans below).trans (by decide)
    rw [isUser_of_le_verified low] at user
    cases user

/-! ### What an admission vouches for -/

/-- What an admitted claim says about itself holds of the proposal it was made from. -/
structure Vouched (proposal : ClaimProposal) (policy : AdmissionPolicy) (context : ClaimContext) (claim : AdmittedClaim) :
    Prop where
  same : claim.claim = proposal.claim ∧ claim.evidence = proposal.evidence
  highest : IsGreatest (reached proposal policy) claim.authority
  ownWord : claim.authority.isUser = true → proposal.proposer.kind = .human ∧
    ∃ by' asserted, Evidence.userStatement by' asserted ∈ proposal.evidence ∧ proposal.proposer.id.text = by'.text
  related : ∀ relation ∈ claim.relations, ∃ target facts, relation.target = .claim target ∧
    context.targets.find? target = some facts ∧ facts.scope = proposal.claim.scope ∧ target ≠ proposal.claim.id
  ranked : ∀ relation ∈ claim.relations, relation.kind = .supersedes → ∀ target facts, relation.target = .claim target →
    context.targets.find? target = some facts → facts.authority ≤ claim.authority
  suppliers : claim.sourcing = .user → ∀ relation ∈ claim.relations, relation.kind = .supersedes →
    ∀ target facts, relation.target = .claim target → context.targets.find? target = some facts → facts.sourcing ≠ .supplier

/-- A claim the gate admits without a review is vouched for, whatever the evidence, the
    relations, the policy and the context are. -/
theorem admitted_vouched {SecretRules : Type} (linked : Linked SecretRules) (lawful : linked.closed.Lawful)
    (rules : RuleSet SecretRules) (proposal : ClaimProposal) (registry : RegistrySnapshot) (policy : AdmissionPolicy)
    (context : ClaimContext) (claim : AdmittedClaim) (unreviewed : reviewed proposal = false)
    (admits : evaluateClaim linked rules proposal registry policy context = .admitted claim) :
    Vouched proposal policy context claim := by
  obtain ⟨-,authority,related,earns,relates,ranked,-,rfl⟩ := (admits_iff lawful rfl).mp admits
  obtain ⟨fine,origin,outranked⟩ := relations_ok relates
  have highest := earned_isGreatest earns
  -- a built relation comes from a proposed one, whose target was looked up
  have proposed : ∀ made ∈ related.relations, ∃ relation ∈ proposal.relations, made.kind = relation.kind ∧
      made.target = .claim relation.target := by
    intro made member
    rcases origin made member with absent | found
    · cases absent
    · exact found
  have unranked : ∀ relation ∈ proposal.relations,
      ¬ Outranked (Proposal.mk proposal registry policy context rules.secrets) authority relation := by
    intro relation inside higher
    have held := ranked (outranked.mpr (.inr ⟨relation,inside,higher⟩))
    rw [unreviewed] at held
    cases held
  refine ⟨⟨rfl,rfl⟩,highest,?_,?_,?_,?_⟩
  · intro user
    obtain ⟨by',asserted,inside,human,own⟩ := statement_of_reached_user highest.1 user
    exact ⟨human,by',asserted,inside,own⟩
  · intro made member
    obtain ⟨relation,inside,-,target⟩ := proposed made member
    obtain ⟨facts,known,sameScope,-,other⟩ := fine relation inside
    exact ⟨relation.target,facts,target,known,sameScope,other⟩
  · intro made member supersedes target facts targets known
    obtain ⟨relation,inside,kind,aims⟩ := proposed made member
    obtain rfl : target = relation.target := by simpa [targets] using aims
    by_contra higher
    exact unranked relation inside ⟨kind ▸ supersedes,facts,known,not_le.mp higher⟩
  · intro user made member supersedes target facts targets known
    obtain ⟨relation,inside,kind,aims⟩ := proposed made member
    obtain rfl : target = relation.target := by simpa [targets] using aims
    obtain ⟨found,isKnown,-,contradicts,-⟩ := fine relation inside
    obtain rfl := Option.some.inj (isKnown.symm.trans known)
    exact contradicts (kind ▸ supersedes) user

namespace Sample
open Claims.Sample Registry.Sample CaptureGate.Sample ClaimGate.Sample

/-- The owner's own statement with a rule's match and a claim that bears it out, in place
    of what was extracted before. -/
def correction : ClaimProposal := { ownStatement with
  evidence := [.ruleMatch ⟨"seats","1"⟩,.userStatement ⟨"alice"⟩ .userAsserted,.corroboration [thirdId]]
  relations := [⟨.supersedes,secondId⟩] }

def known : ClaimContext :=
  ⟨.empty,(OrdMap.empty.insert secondId ⟨scope,.extracted,.seed⟩).insert thirdId ⟨scope,.verified,.user⟩⟩

/-- It is admitted at the level of a statement that corrects, the highest of its evidence,
    and supersedes the extracted claim. -/
theorem admitted_vouched_ownStatement :
    linked.closed.Lawful ∧ reviewed correction = false ∧
      ∃ claim, evaluateClaim linked rules correction registry policy known = .admitted claim ∧
        claim.authority = .userCorrected ∧ claim.sourcing = .user ∧
        claim.relations.map (fun made => (made.kind,made.target)) = [(.supersedes,.claim secondId)] ∧
        Vouched correction policy known claim := by
  refine ⟨Walk.Sample.closedGate_lawful,by decide,_,rfl,by decide +kernel,by decide +kernel,by decide +kernel,?_⟩
  exact admitted_vouched linked Walk.Sample.closedGate_lawful rules _ registry _ _ _ (by decide) rfl

end Sample

/-! ### Operator seeds -/

/-- What a cited seed is to be held to: it is one the policy accepts, and the claim is
    admitted no higher than an extraction. -/
def SeedsContained {SecretRules : Type} (linked : Linked SecretRules) (rules : RuleSet SecretRules)
    (proposal : ClaimProposal) (registry : RegistrySnapshot) (policy : AdmissionPolicy) (context : ClaimContext) : Prop :=
  ∀ claim, evaluateClaim linked rules proposal registry policy context = .admitted claim →
    ∀ seed ∈ seeds proposal, policy.accepts seed = true ∧ claim.authority ≤ .extracted

/-- The levels the policy allows the kinds of the evidence. -/
def capped (proposal : ClaimProposal) (policy : AdmissionPolicy) : Set AuthorityLevel :=
  {level | ∃ evidence ∈ proposal.evidence, policy.ceiling evidence.kind = some level}

/-- No check but that of the ground stops the seeded proposal. -/
structure Passable {SecretRules : Type} (linked : Linked SecretRules) (rules : RuleSet SecretRules)
    (proposal : ClaimProposal) (registry : RegistrySnapshot) (policy : AdmissionPolicy) (context : ClaimContext) : Prop where
  clean : Clean linked rules.secrets proposal registry policy context
  fine : ∀ relation ∈ proposal.relations, ∃ facts,
    Fine (Proposal.mk proposal registry policy context rules.secrets) .seed relation facts
  ranked : ∀ relation ∈ proposal.relations, relation.kind = .supersedes → ∀ facts,
    context.targets.find? relation.target = some facts → ∃ level ∈ capped proposal policy, facts.authority ≤ level

/-- The evidence beside the seeds carries the claim no further than accepted seeds do:
    accepted seeds stand with nothing above an extraction, and on the evidence of other
    seeds the predicate is qualified at no level. -/
def CarriedBySeedsOnly (proposal : ClaimProposal) (policy : AdmissionPolicy) : Prop :=
  if (seeds proposal).all policy.accepts then ∀ level ∈ capped proposal policy, level ≤ .extracted
  else ∀ level ∈ capped proposal policy, policy.qualifies proposal.claim level = false

theorem reached_eq_capped {proposal : ClaimProposal} {policy : AdmissionPolicy}
    (plain : ∀ evidence ∈ proposal.evidence, evidence.kind ≠ .userStatement) :
    reached proposal policy = capped proposal policy := by
  have itemLevel_eq : ∀ evidence ∈ proposal.evidence, itemLevel proposal evidence.kind = ceilingOf evidence.kind := by
    intro evidence inside
    have other := plain evidence inside
    revert other
    cases evidence.kind <;> simp [itemLevel]
  ext level
  constructor
  · rintro ⟨evidence,inside,-,earned,ceiling,is,cap,rfl⟩
    obtain ⟨most,top,below⟩ := ceiling_le cap
    obtain rfl : most = earned := by simpa [itemLevel_eq evidence inside,top] using is
    exact ⟨evidence,inside,by rw [min_eq_right below]; exact cap⟩
  · rintro ⟨evidence,inside,cap⟩
    obtain ⟨most,top,below⟩ := ceiling_le cap
    refine ⟨evidence,inside,honoured_of_kind (plain evidence inside),most,level,?_,cap,(min_eq_right below).symm⟩
    rw [itemLevel_eq evidence inside,top]

section
variable {SecretRules : Type} {linked : Linked SecretRules} {rules : RuleSet SecretRules} {proposal : ClaimProposal}
  {registry : RegistrySnapshot} {policy : AdmissionPolicy} {context : ClaimContext}

/-- Without a user statement a seeded proposal is nobody's own data. -/
theorem seeded_grounds {subject : Proposal SecretRules} (seeded : seeds subject.proposal ≠ [])
    (plain : ∀ evidence ∈ subject.proposal.evidence, evidence.kind ≠ .userStatement) :
    (Grounds.of subject).ownData = false ∧ (Grounds.of subject).sourcing = .seed := by
  have silent : userStatements subject.proposal = [] := by
    rw [List.eq_nil_iff_forall_not_mem]
    intro statement made
    obtain ⟨by',authority,inside,-⟩ := mem_userStatements.mp made
    exact plain _ inside rfl
  have some : (seeds subject.proposal).isEmpty = false := by simpa using seeded
  simp [Grounds.of,silent,some]

theorem seeded_authority {subject : Proposal SecretRules} (seeded : seeds subject.proposal ≠ []) :
    ∃ authority, (Grounds.of subject).authority = some authority := by
  obtain ⟨seed,named⟩ := List.exists_mem_of_ne_nil _ seeded
  obtain ⟨evidence,inside,cites⟩ := List.mem_filterMap.mp named
  have isSeed : evidence.kind = .operatorSeed := by
    cases evidence <;> first | rfl | cases cites
  obtain ⟨ceiling,cap⟩ : ∃ ceiling, subject.policy.ceiling .operatorSeed = some ceiling := ⟨_,rfl⟩
  rw [← Option.isSome_iff_exists,Option.isSome_iff_ne_none]
  intro absent
  have none := List.max?_eq_none_iff.mp absent
  rw [List.filterMap_eq_nil_iff] at none
  have refused := none evidence inside
  simp [isSeed,cap,levelOf] at refused

theorem qualifies_mono {claim : Claim} {low high : AuthorityLevel} (below : low ≤ high)
    (qualified : policy.qualifies claim low = true) : policy.qualifies claim high = true := by
  simp only [AdmissionPolicy.qualifies,List.any_eq_true,Bool.and_eq_true,decide_eq_true_eq] at qualified ⊢
  obtain ⟨qualification,inside,same,enough⟩ := qualified
  exact ⟨qualification,inside,same,enough.trans below⟩

/-- A seeded proposal is admitted at the highest level its evidence is capped at, when
    its seeds are accepted or its predicate is qualified there. -/
theorem seeded_admission (lawful : linked.closed.Lawful) (unreviewed : reviewed proposal = false)
    (seeded : seeds proposal ≠ []) (authority : AuthorityLevel) :
    (∃ claim, evaluateClaim linked rules proposal registry policy context = .admitted claim ∧ claim.authority = authority) ↔
      Passable linked rules proposal registry policy context ∧ IsGreatest (capped proposal policy) authority ∧
        ((seeds proposal).all policy.accepts = true ∨ policy.qualifies proposal.claim authority = true) := by
  have notEmpty : (seeds proposal).isEmpty = false := by simpa using seeded
  have groundedIff : ∀ level, grounded (Proposal.mk proposal registry policy context rules.secrets) false level = true ↔
      ((seeds proposal).all policy.accepts = true ∨ policy.qualifies proposal.claim level = true) := by
    intro level
    simp [grounded,unreviewed,notEmpty]
  constructor
  · rintro ⟨claim,admits,rfl⟩
    obtain ⟨clean,authority,related,earns,relates,ranked,ground,rfl⟩ := (admits_iff lawful rfl).mp admits
    have plain := clean.plainSeed.resolve_left seeded
    obtain ⟨ownData,sourcing⟩ := @seeded_grounds _ ⟨proposal,registry,policy,context,rules.secrets⟩ seeded plain
    have highest := earned_isGreatest earns
    rw [reached_eq_capped plain] at highest
    obtain ⟨fine,-,outranked⟩ := relations_ok relates
    rw [sourcing] at fine
    rw [ownData] at ground
    refine ⟨⟨clean,fine,?_⟩,highest,(groundedIff authority).mp ground⟩
    intro relation inside supersedes facts known
    refine ⟨authority,highest.1,?_⟩
    by_contra higher
    have held := ranked (outranked.mpr (.inr ⟨relation,inside,supersedes,facts,known,not_le.mp higher⟩))
    rw [unreviewed] at held
    cases held
  · rintro ⟨passable,highest,ground⟩
    have plain := passable.clean.plainSeed.resolve_left seeded
    obtain ⟨ownData,sourcing⟩ := @seeded_grounds _ ⟨proposal,registry,policy,context,rules.secrets⟩ seeded plain
    obtain ⟨level,earns⟩ := @seeded_authority _ ⟨proposal,registry,policy,context,rules.secrets⟩ seeded
    have best := earned_isGreatest earns
    rw [reached_eq_capped plain] at best
    obtain rfl := best.unique highest
    have fine := passable.fine
    rw [← sourcing] at fine
    obtain ⟨related,relates⟩ := @relations_of_fine _ _ _ level _ fine ⟨[],[],false⟩
    refine ⟨_,(admits_iff lawful rfl).mpr ⟨passable.clean,level,related,earns,relates,?_,?_,rfl⟩,rfl⟩
    · intro outranked
      rcases (relations_ok relates).2.2.mp outranked with start | ⟨relation,inside,supersedes,facts,known,higher⟩
      · cases start
      · obtain ⟨reaches,inCapped,below⟩ := passable.ranked relation inside supersedes facts known
        exact absurd (below.trans (best.2 inCapped)) (not_le.mpr higher)
    · rw [ownData]
      exact (groundedIff level).mpr ground

theorem exists_isGreatest_capped (passable : Passable linked rules proposal registry policy context)
    (seeded : seeds proposal ≠ []) : ∃ authority, IsGreatest (capped proposal policy) authority := by
  obtain ⟨level,earns⟩ := @seeded_authority _ ⟨proposal,registry,policy,context,rules.secrets⟩ seeded
  have best := earned_isGreatest earns
  rw [reached_eq_capped (passable.clean.plainSeed.resolve_left seeded)] at best
  exact ⟨level,best⟩

/-- A seed is held to its acceptance exactly when the proposal is stopped for another
    reason or nothing but accepted seeds carries it. -/
theorem seedsContained_iff (lawful : linked.closed.Lawful) (unreviewed : reviewed proposal = false) :
    SeedsContained linked rules proposal registry policy context ↔
      (seeds proposal = [] ∨ ¬ Passable linked rules proposal registry policy context ∨
        CarriedBySeedsOnly proposal policy) := by
  by_cases seeded : seeds proposal = []
  · simp [SeedsContained,seeded]
  by_cases passable : Passable linked rules proposal registry policy context
  swap
  · refine iff_of_true ?_ (.inr (.inl passable))
    intro claim admits
    exact absurd ((seeded_admission lawful unreviewed seeded claim.authority).mp ⟨claim,admits,rfl⟩).1 passable
  obtain ⟨authority,best⟩ := exists_isGreatest_capped passable seeded
  simp only [seeded,passable,not_true_eq_false,false_or,CarriedBySeedsOnly]
  have admission := @seeded_admission _ linked rules proposal registry policy context lawful unreviewed seeded
  constructor
  · intro contained
    split_ifs with accepted
    · intro level inside
      obtain ⟨claim,admits,rfl⟩ := (admission authority).mpr ⟨passable,best,.inl accepted⟩
      obtain ⟨seed,named⟩ := List.exists_mem_of_ne_nil _ seeded
      exact (best.2 inside).trans (contained claim admits seed named).2
    · intro level inside
      by_contra qualified
      have reaches := qualifies_mono (best.2 inside) (Bool.of_not_eq_false qualified)
      obtain ⟨claim,admits,rfl⟩ := (admission authority).mpr ⟨passable,best,.inr reaches⟩
      exact accepted (List.all_eq_true.mpr fun seed named => (contained claim admits seed named).1)
  · intro carried claim admits seed named
    obtain ⟨-,highest,ground⟩ := (admission claim.authority).mp ⟨claim,admits,rfl⟩
    split_ifs at carried with accepted
    · exact ⟨List.all_eq_true.mp accepted seed named,carried _ highest.1⟩
    · rcases ground with all | qualified
      · exact absurd all accepted
      · rw [carried _ highest.1] at qualified
        cases qualified

end

namespace Sample
open Claims.Sample Memories.Sample Registry.Sample CaptureGate.Sample ClaimGate.Sample

def shipped : SeedRef := ⟨⟨"travel-catalog",by decide⟩,1⟩

/-- A seat taken from a seed set, on the given evidence beside it. -/
def seededSeat (others : List Evidence) : ClaimProposal :=
  { ownStatement with evidence := .operatorSeed ⟨"ops"⟩ shipped :: others }

/-- The seat predicate is qualified at an extraction, and no seed is accepted. -/
def qualifying : AdmissionPolicy where
  doc := { policy.doc with qualified := [⟨predicate.namespace,predicate.name,.extracted,⟨"d1",by decide⟩⟩] }
  legal := ⟨by decide,by decide,by simp [policy],by simp⟩

/-- The seed of the shipped set is accepted. -/
def accepting : AdmissionPolicy where
  doc := { policy.doc with seeds := [⟨shipped,⟨"d1",by decide⟩⟩] }
  legal := ⟨by decide,by decide,by simp [policy],by simp [policy]⟩

/-- A verified span of a stored note, and the context that knows the note. -/
def verifiedSpan : Evidence :=
  .spanVerified ⟨memoryId,.body,⟨.chars,0,3,by decide⟩,⟨"hmac",⟨"00",by decide⟩,⟨"aa",by decide⟩⟩⟩ ⟨"matcher","1"⟩

def knowing : ClaimContext := ⟨OrdMap.empty.insert memoryId .available,.empty⟩

/-- On a qualified predicate the claim is admitted under a seed the policy does not
    accept, and beside a verified span an accepted seed is admitted above an extraction. -/
theorem seeds_not_contained :
    ¬ SeedsContained linked rules (seededSeat []) registry qualifying context ∧
      ¬ SeedsContained linked rules (seededSeat [verifiedSpan]) registry accepting knowing := by
  constructor
  · intro contained
    have accepted := (contained _ rfl shipped (by decide)).1
    revert accepted
    decide +kernel
  · intro contained
    have low := (contained _ rfl shipped (by decide)).2
    revert low
    decide +kernel

/-- The accepted seed alone is contained. -/
theorem seedsContained_iff_accepted :
    linked.closed.Lawful ∧ reviewed (seededSeat []) = false ∧
      SeedsContained linked rules (seededSeat []) registry accepting context ∧
      CarriedBySeedsOnly (seededSeat []) accepting := by
  have carried : CarriedBySeedsOnly (seededSeat []) accepting := by
    rw [CarriedBySeedsOnly,if_pos (by decide +kernel)]
    rintro level ⟨evidence,inside,cap⟩
    obtain rfl := List.mem_singleton.mp inside
    obtain rfl := Option.some.inj cap
    decide +kernel
  exact ⟨Walk.Sample.closedGate_lawful,by decide,
    (seedsContained_iff Walk.Sample.closedGate_lawful (by decide)).mpr (.inr (.inr carried)),carried⟩

end Sample

end Aicortex.ClaimAdmission
