import Aicortex.PlainChains

/-!
A score is never authority. The steps of the claim gate read the evidence of a proposal
through its kinds, spans, seeds and statements; the floor alone reads a score. Two
proposals that differ in nothing but the scores, all at the floor or above it, are
judged alike; one below the floor is refused.
-/

namespace Aicortex.Rescoring
open Aicortex.Walk Aicortex.CaptureGate Aicortex.Registry Aicortex.ClaimGate Aicortex.PlainChains
open Aicortex.Claims hiding Unit
set_option linter.unusedSimpArgs false

/-! ### Proposals without their scores -/

/-- The evidence with the score of a model taken out. -/
def unscored : Evidence → Evidence
  | .modelScore model _ label => .modelScore model ⟨0,by decide⟩ label
  | evidence => evidence

def withoutScores (proposal : ClaimProposal) : ClaimProposal :=
  { proposal with evidence := proposal.evidence.map unscored }

/-- No score of a proposal is below the policy's floor. -/
def AtFloor (policy : AdmissionPolicy) (proposal : ClaimProposal) : Prop :=
  ∀ floor, policy.doc.scoreFloor = some floor → ∀ model score label,
    Evidence.modelScore model score label ∈ proposal.evidence → floor.basisPoints ≤ score.basisPoints

theorem atFloor_passes {policy : AdmissionPolicy} {proposal : ClaimProposal} (above : AtFloor policy proposal) :
    policy.doc.scoreFloor.any (fun floor => proposal.evidence.any (belowFloor floor)) = false := by
  cases floorIs : policy.doc.scoreFloor with
  | none => rfl
  | some floor =>
    rw [Option.any_some,List.any_eq_false]
    intro evidence inside below
    cases evidence with
    | modelScore model score label =>
      have reaches := above floor floorIs model score label inside
      simp only [belowFloor,decide_eq_true_eq] at below
      omega
    | _ => cases below

@[simp] theorem unscored_kind (evidence : Evidence) : (unscored evidence).kind = evidence.kind := by
  cases evidence <;> rfl

@[simp] theorem unscored_span (evidence : Evidence) : (unscored evidence).span = evidence.span := by
  cases evidence <;> rfl

/-! ### What the steps read -/

@[simp] theorem withoutScores_claim (proposal : ClaimProposal) : (withoutScores proposal).claim = proposal.claim := rfl

@[simp] theorem corrected_withoutScores (proposal : ClaimProposal) :
    corrected (withoutScores proposal) = corrected proposal := rfl

@[simp] theorem seeds_withoutScores (proposal : ClaimProposal) : seeds (withoutScores proposal) = seeds proposal := by
  rw [seeds,seeds,withoutScores,List.filterMap_map]
  apply List.filterMap_congr
  intro evidence _
  cases evidence <;> rfl

@[simp] theorem userStatements_withoutScores (proposal : ClaimProposal) :
    userStatements (withoutScores proposal) = userStatements proposal := by
  rw [userStatements,userStatements,withoutScores,List.filterMap_map]
  apply List.filterMap_congr
  intro evidence _
  cases evidence <;> rfl

@[simp] theorem earned_withoutScores (proposal : ClaimProposal) (policy : AdmissionPolicy)
    (honouredStatement correcting : Bool) :
    earned (withoutScores proposal) policy honouredStatement correcting =
      earned proposal policy honouredStatement correcting := by
  rw [earned,earned,withoutScores,List.filterMap_map]
  simp only [Function.comp_def,unscored_kind]

@[simp] theorem unavailableSource_withoutScores (proposal : ClaimProposal) (context : ClaimContext) :
    unavailableSource (withoutScores proposal) context = unavailableSource proposal context := by
  have cited : citedSources (withoutScores proposal) = citedSources proposal := by
    simp [citedSources,withoutScores,List.filterMap_map,Function.comp_def]
  rw [unavailableSource,unavailableSource,cited]

@[simp] theorem reviewed_withoutScores (proposal : ClaimProposal) :
    reviewed (withoutScores proposal) = reviewed proposal := by
  simp [reviewed,withoutScores,List.any_map,Function.comp_def]

@[simp] theorem isEmpty_withoutScores (proposal : ClaimProposal) :
    (withoutScores proposal).evidence.isEmpty = proposal.evidence.isEmpty := by
  simp [withoutScores]

@[simp] theorem states_withoutScores (proposal : ClaimProposal) :
    (withoutScores proposal).evidence.any (fun evidence => evidence.kind == .userStatement) =
      proposal.evidence.any (fun evidence => evidence.kind == .userStatement) := by
  simp [withoutScores,List.any_map,Function.comp_def]

/-! ### The walk -/

section
variable {SecretRules : Type} (linked : Linked SecretRules)

/-- The subject of a walk with the scores of its proposal taken out. -/
def blinded (subject : Proposal SecretRules) : Proposal SecretRules :=
  { subject with proposal := withoutScores subject.proposal }

@[simp] theorem grounds_blinded (subject : Proposal SecretRules) : Grounds.of (blinded subject) = Grounds.of subject := by
  simp [Grounds.of,blinded]

@[simp] theorem relate_blinded (subject : Proposal SecretRules) (grounds : Grounds) (authority : AuthorityLevel) :
    relate (blinded subject) grounds authority = relate subject grounds authority := rfl

@[simp] theorem grounded_blinded (subject : Proposal SecretRules) (ownData : Bool) (authority : AuthorityLevel) :
    grounded (blinded subject) ownData authority = grounded subject ownData authority := by
  simp [grounded,blinded]

/-- Every step but the floor judges a proposal as it does without the scores. -/
theorem judge_blinded {step : Step (Proposal SecretRules) ClaimReason} (stepIn : step ∈ claimWalk linked)
    (other : step.judge ≠ scoreFloor) (subject : Proposal SecretRules) :
    step.judge (blinded subject) = step.judge subject := by
  simp only [claimWalk,List.mem_cons,List.not_mem_nil,or_false] at stepIn
  rcases stepIn with rfl | rfl | rfl | rfl | rfl | rfl | rfl | rfl | rfl | rfl
  · rfl
  · rfl
  · simp [provenance,blinded]
  · simp [sources,blinded]
  · simp [seed,blinded]
  · exact absurd rfl other
  · simp [userLevel,blinded]
  · simp [authorityStep]
  · simp [relationsStep]
  · simp only [ground,grounds_blinded,relate_blinded,grounded_blinded]
    simp [blinded]

theorem scoreFloor_passes {subject : Proposal SecretRules} (above : AtFloor subject.policy subject.proposal) :
    scoreFloor subject = .pass := by
  rw [scoreFloor,atFloor_passes above]
  rfl

variable {first second : Proposal SecretRules}

/-- Two subjects at the floor that are the same without their scores are walked alike. -/
theorem walk_rescored (same : blinded first = blinded second) (firstAbove : AtFloor first.policy first.proposal)
    (secondAbove : AtFloor second.policy second.proposal) :
    walk linked.closed first (claimWalk linked) claimSteps ClaimReason.policyDenied =
      walk linked.closed second (claimWalk linked) claimSteps ClaimReason.policyDenied := by
  apply walk_congr
  intro step stepIn
  by_cases floor : step.judge = scoreFloor
  · rw [floor,scoreFloor_passes firstAbove,scoreFloor_passes secondAbove]
  · rw [← judge_blinded linked stepIn floor first,same,judge_blinded linked stepIn floor second]

/-! ### Verdicts -/

/-- What an admission gives the claim. -/
structure SameStanding (first second : AdmittedClaim) : Prop where
  authority : second.authority = first.authority
  sourcing : second.sourcing = first.sourcing
  relations : second.relations = first.relations
  corrects : second.corrects = first.corrects
  conflicts : second.conflicts = first.conflicts

/-- The same kind of verdict for the same reason, and of two admissions the same standing. -/
inductive SameVerdict : ClaimVerdict → ClaimVerdict → Prop where
  | admitted {first second : AdmittedClaim} : SameStanding first second → SameVerdict (.admitted first) (.admitted second)
  | hold {first second : ClaimProposal} {reason : ClaimReason} : SameVerdict (.hold first reason) (.hold second reason)
  | refuse {reason : ClaimReason} : SameVerdict (.refuse reason) (.refuse reason)

/-- A judgement with the scores of the admitted evidence taken out. -/
def unscoredJudgement : Judgement → Judgement
  | .admitted claim => .admitted { claim with evidence := claim.evidence.map unscored }
  | .hold reason => .hold reason
  | .refuse reason => .refuse reason

theorem admitted_blinded (subject : Proposal SecretRules) :
    admitted (blinded subject) = unscoredJudgement (admitted subject) := by
  simp only [admitted,grounds_blinded,relate_blinded]
  cases (Grounds.of subject).authority with
  | none => rfl
  | some authority =>
    dsimp only
    cases relate subject (Grounds.of subject) authority <;> rfl

/-- The verdict a judgement is reported as. -/
theorem evaluateClaim_rescored {rules : RuleSet SecretRules} {registry : RegistrySnapshot} {policy : AdmissionPolicy}
    {context : ClaimContext} {first second : ClaimProposal}
    (same : unscoredJudgement (judge linked rules first registry policy context) =
      unscoredJudgement (judge linked rules second registry policy context)) :
    SameVerdict (evaluateClaim linked rules first registry policy context)
      (evaluateClaim linked rules second registry policy context) := by
  unfold evaluateClaim
  revert same
  cases judge linked rules first registry policy context with
  | admitted earlier =>
    cases judge linked rules second registry policy context with
    | admitted later =>
      intro same
      injection same with standing
      rw [AdmittedClaim.mk.injEq] at standing
      obtain ⟨-,-,-,-,authority,sourcing,-,relations,corrects,conflicts⟩ := standing
      exact .admitted ⟨authority.symm,sourcing.symm,relations.symm,corrects.symm,conflicts.symm⟩
    | _ =>
      intro same
      cases same
  | hold reason =>
    cases judge linked rules second registry policy context with
    | hold other =>
      intro same
      cases same
      exact .hold
    | _ =>
      intro same
      cases same
  | refuse reason =>
    cases judge linked rules second registry policy context with
    | refuse other =>
      intro same
      cases same
      exact .refuse
    | _ =>
      intro same
      cases same

/-- Proposals that differ only in the scores of their evidence, none of them below the
    policy's floor, get the same verdict. -/
theorem scores_buy_nothing (rules : RuleSet SecretRules) (registry : RegistrySnapshot) (policy : AdmissionPolicy)
    (context : ClaimContext) (first second : ClaimProposal) (rescored : withoutScores first = withoutScores second)
    (firstAbove : AtFloor policy first) (secondAbove : AtFloor policy second) :
    SameVerdict (evaluateClaim linked rules first registry policy context)
      (evaluateClaim linked rules second registry policy context) := by
  have same : blinded ⟨first,registry,policy,context,rules.secrets⟩ = blinded ⟨second,registry,policy,context,rules.secrets⟩ :=
    congrArg (Proposal.mk · registry policy context rules.secrets) rescored
  have rebuilt := congrArg admitted same
  rw [admitted_blinded,admitted_blinded] at rebuilt
  apply evaluateClaim_rescored
  rw [judge,judge,walkClaim,walkClaim,walk_rescored linked same firstAbove secondAbove]
  cases walk linked.closed _ (claimWalk linked) claimSteps ClaimReason.policyDenied with
  | fault reason => rfl
  | hold reason => rfl
  | pass => exact rebuilt

end

namespace Sample
open Claims.Sample Memories.Sample Registry.Sample CaptureGate.Sample ClaimGate.Sample

/-- A seat read from a note with a model's score of it. -/
def scoredSeat (basisPoints : Nat) (legal : basisPoints ≤ 10000) : ClaimProposal :=
  { ownStatement with evidence := [.modelScore ⟨"reader","2"⟩ ⟨basisPoints,legal⟩ "seat",.userStatement ⟨"alice"⟩ .userAsserted] }

/-- A floor of a half. -/
def floored : AdmissionPolicy where
  doc := { policy.doc with scoreFloor := some ⟨5000,by decide⟩ }
  legal := ⟨by decide,by decide,by simp [policy],by simp [policy]⟩

theorem atFloor_scoredSeat {basisPoints : Nat} {legal : basisPoints ≤ 10000} (reaches : 5000 ≤ basisPoints) :
    AtFloor floored (scoredSeat basisPoints legal) := by
  intro floor floorIs model score label inside
  obtain rfl := Option.some.inj floorIs
  simp only [scoredSeat,List.mem_cons,reduceCtorEq,List.not_mem_nil,or_false,Evidence.modelScore.injEq] at inside
  obtain ⟨-,rfl,-⟩ := inside
  exact reaches

/-- A score at the floor and a perfect one get the claim admitted alike. -/
theorem scores_buy_nothing_seat :
    scoredSeat 5000 (by decide) ≠ scoredSeat 10000 (by decide) ∧
      (∃ claim, evaluateClaim linked rules (scoredSeat 5000 (by decide)) registry floored context = .admitted claim) ∧
      SameVerdict (evaluateClaim linked rules (scoredSeat 5000 (by decide)) registry floored context)
        (evaluateClaim linked rules (scoredSeat 10000 (by decide)) registry floored context) := by
  refine ⟨by decide +kernel,⟨_,rfl⟩,?_⟩
  exact scores_buy_nothing linked rules registry floored context _ _ rfl (atFloor_scoredSeat (by decide))
    (atFloor_scoredSeat (by decide))

end Sample

end Aicortex.Rescoring
