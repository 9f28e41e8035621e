import Aicortex.ClaimGate
import Aicortex.Lib.Outcome

/-!
The early-return evaluators the walks replaced, kept as the differential tests keep
them, and the equality of the two. The checks themselves are shared; what differs
is how they are sequenced, how a reason is recovered and how the admitted claim is
built.
-/

namespace Aicortex.PlainChains
open Aicortex.Text Aicortex.Memories Aicortex.Walk Aicortex.CaptureGate Aicortex.Registry Aicortex.ClaimGate
open Lib.Ordered Lib.Outcome
open Aicortex.Claims hiding Unit
set_option linter.unusedSimpArgs false

section
variable {SecretRules : Type} (linked : Linked SecretRules)

/-! ### The capture chain -/

def secretFault (rules : RuleSet SecretRules) (body : MemoryBody) : Option Reason :=
  let inText := linked.scan body.text rules.secrets
  let inTitle := body.title.bind (fun title => linked.scan title rules.secrets)
  (inText.or inTitle).map (fun finding => .secretDetected finding.detector finding.offset)

def plainFault (rules : RuleSet SecretRules) (candidate : Candidate) : Option Reason :=
  let body := normalizeBody linked.nfc candidate.parts.body
  if (trimChars body.text.toList).isEmpty then some .emptyAfterNormalization
  else if byteLen body.text > rules.limits.maxBodyBytes then
    some (.tooLarge (byteLen body.text) rules.limits.maxBodyBytes)
  else
    match mediaFault rules.limits body with
    | some fault => some (.unsupportedMedia fault)
    | none =>
      if rules.deniedSources.contains candidate.parts.provenance.source.system then
        some (.policyDenied ("denied-source:" ++ candidate.parts.provenance.source.system.text))
      else secretFault linked rules body

def plainEvaluate (rules : RuleSet SecretRules) (candidate : Candidate) : Verdict :=
  match plainFault linked rules candidate with
  | some reason => .refuse reason
  | none =>
    if candidate.origin.isEstablished then .admitted (normalized linked candidate)
    else if candidate.origin.isAssertable then
      .quarantine { normalized linked candidate with status := .quarantined } (.originUnestablished candidate.origin)
    else .refuse (.originUnestablished candidate.origin)

/-! ### The claim chain -/

/-- An admission as its fields. -/
structure Admission where
  authority : AuthorityLevel
  sourcing : Sourcing
  relations : List ClaimRelation
  corrects : List ClaimId
  conflicts : List ClaimId
  deriving DecidableEq

inductive PlainJudgement where
  | admitted (admission : Admission)
  | hold (reason : ClaimReason)
  | refuse (reason : ClaimReason)
  deriving DecidableEq

/-- The loop over the proposed relations, with its three accumulators. -/
def plainRelations (claim : Claim) (context : ClaimContext) (sourcing : Sourcing) (correcting : Bool)
    (authority : AuthorityLevel) :
    List ProposedRelation → List ClaimRelation → List ClaimId → Bool →
      Except ClaimReason (List ClaimRelation × List ClaimId × Bool)
  | [],relations,conflicts,outranked => .ok (relations,conflicts,outranked)
  | relation :: rest,relations,conflicts,outranked =>
    match context.targets.find? relation.target with
    | none => .error (.policyDenied "unknown_target")
    | some target =>
      if target.scope ≠ claim.scope then .error (.policyDenied "cross_scope_relation")
      else if relation.kind = .supersedes ∧ sourcing = .user ∧ target.sourcing = .supplier then
        .error (.policyDenied "user_supersedes_supplier")
      else
        match newRelation claim relation with
        | .error _ => .error (.policyDenied "self_relation")
        | .ok built =>
          plainRelations claim context sourcing correcting authority rest (relations ++ [built])
            (if relation.kind = .contradicts ∧ correcting = true ∧ target.sourcing = .supplier then
              conflicts ++ [relation.target] else conflicts)
            (outranked || (relation.kind == .supersedes && decide (target.authority > authority)))

/-- What is left once the proposal's own checks have passed. -/
def plainAdmission (proposal : ClaimProposal) (policy : AdmissionPolicy) (context : ClaimContext) : PlainJudgement :=
  let claim := proposal.claim
  let statements := userStatements proposal
  let named := seeds proposal
  let correcting := !statements.isEmpty && !(corrected proposal).isEmpty
  match earned proposal policy (!statements.isEmpty) correcting with
  | none => .refuse .authorityInsufficient
  | some authority =>
    let ownData := statements.any (fun statement => statement.by' == claim.scope.owner.text)
    let sourcing := if ownData then .user else if !named.isEmpty then .seed else .supplier
    match plainRelations claim context sourcing correcting authority proposal.relations [] [] false with
    | .error reason => .refuse reason
    | .ok (relations,conflicts,outranked) =>
      if outranked && !reviewed proposal then .hold .authorityInsufficient
      else if !(reviewed proposal || ownData || (!named.isEmpty && named.all policy.accepts) ||
          policy.qualifies claim authority) then .hold .authorityInsufficient
      else .admitted ⟨authority,sourcing,relations,if correcting then corrected proposal else [],conflicts⟩

def plainJudge (secrets : SecretRules) (proposal : ClaimProposal) (registry : RegistrySnapshot)
    (policy : AdmissionPolicy) (context : ClaimContext) : PlainJudgement :=
  match validate linked.isNfc proposal.claim registry with
  | .error error => .refuse (invalid error)
  | .ok _ =>
    match claimSecret linked secrets proposal.claim with
    | some reason => .refuse reason
    | none =>
      if proposal.evidence.isEmpty then .refuse .noProvenance
      else
        match unavailableSource proposal context with
        | some source => .refuse (.sourceUnavailable source)
        | none =>
          if !(seeds proposal).isEmpty && proposal.evidence.any (fun evidence => evidence.kind == .userStatement) then
            .refuse (.policyDenied "seed_with_user_statement")
          else if policy.doc.scoreFloor.any (fun floor => proposal.evidence.any (belowFloor floor)) then
            .refuse .belowScoreFloor
          else if (userStatements proposal).any (fun statement => !statement.asserted.isUser) then
            .refuse (.policyDenied "user_statement_below_user_level")
          else plainAdmission proposal policy context

/-- The verdict the judgement stands for: an admission carries the proposal's own
    claim, proposer and evidence and names the policy. -/
def plainVerdict (proposal : ClaimProposal) (policy : AdmissionPolicy) : PlainJudgement → ClaimVerdict
  | .refuse reason => .refuse reason
  | .hold reason => .hold proposal reason
  | .admitted admission => .admitted {
      claim := proposal.claim
      proposal := proposal.id
      proposer := proposal.proposer
      policy := policy.reference
      authority := admission.authority
      sourcing := admission.sourcing
      evidence := proposal.evidence
      relations := admission.relations
      corrects := admission.corrects
      conflicts := admission.conflicts }

/-! ### The capture walk is its chain -/

theorem walkCapture_eq_chain (lawful : linked.closed.Lawful) (rules : RuleSet SecretRules) (candidate : Candidate) :
    walkCapture linked rules candidate = chain (captureOf linked rules candidate) (captureWalk linked) :=
  walk_eq_chain lawful _ _ _ (by simp [captureWalk]) (by simp [captureWalk]) (by simp [captureWalk,captureSteps]) _

theorem evaluate_eq_plain (lawful : linked.closed.Lawful) (rules : RuleSet SecretRules)
    (candidate : Candidate) : evaluate linked rules candidate = plainEvaluate linked rules candidate := by
  have walked := walkCapture_eq_chain linked lawful rules candidate
  simp only [captureWalk,chain_cons,chain_nil] at walked
  unfold evaluate plainEvaluate plainFault
  rw [walked]
  generalize bodyIs : normalizeBody linked.nfc candidate.parts.body = body
  have subjectIs : captureOf linked rules candidate =
      ⟨body,candidate.parts.provenance.source.system,candidate.origin,rules⟩ := by simp [captureOf,bodyIs]
  rw [subjectIs]
  by_cases blank : (trimChars body.text.toList).isEmpty = true
  · simp [empty,blank]
  by_cases large : byteLen body.text > rules.limits.maxBodyBytes
  · simp [empty,blank,tooLarge,large]
  cases mediaIs : mediaFault rules.limits body with
  | some fault => simp [empty,blank,tooLarge,large,media,mediaIs]
  | none =>
    by_cases denied : rules.deniedSources.contains candidate.parts.provenance.source.system = true
    · simp [empty,blank,tooLarge,large,media,mediaIs,deniedSource,denied]
    have found : secretFault linked rules body =
        (secretFinding linked rules.secrets body).map (fun finding =>
          .secretDetected finding.detector finding.offset) := by
      cases inText : linked.scan body.text rules.secrets <;> simp [secretFault,secretFinding,inText]
    cases secret : secretFinding linked rules.secrets body with
    | some finding =>
      simp [empty,blank,tooLarge,large,media,mediaIs,deniedSource,denied,CaptureGate.secretsStep,secret,found]
    | none =>
      cases originIs : candidate.origin <;>
        simp [empty,blank,tooLarge,large,media,mediaIs,deniedSource,denied,CaptureGate.secretsStep,secret,found,origin,
          Origin.isEstablished,Origin.isAssertable]

/-! ### The claim walk is its chain -/

private theorem relate_eq_plain (subject : Proposal SecretRules) (grounds : Grounds) (authority : AuthorityLevel)
    (relations : List ProposedRelation) (related : Related) :
    relations.foldlM (relateOne subject grounds authority) related =
      (plainRelations subject.proposal.claim subject.context grounds.sourcing grounds.correcting authority relations
        related.relations related.conflicts related.outranked).map (fun built => ⟨built.1,built.2.1,built.2.2⟩) := by
  induction relations generalizing related with
  | nil => rfl
  | cons relation rest ih =>
    rw [List.foldlM_cons]
    cases known : subject.context.targets.find? relation.target with
    | none => simp [relateOne,plainRelations,known,error_bind,Except.map]
    | some target =>
      by_cases foreign : target.scope = subject.proposal.claim.scope
      · by_cases outvoted : relation.kind = .supersedes ∧ grounds.sourcing = .user ∧ target.sourcing = .supplier
        · simp [relateOne,plainRelations,known,foreign,outvoted,error_bind,Except.map]
        · cases built : newRelation subject.proposal.claim relation with
          | error reason =>
            have selfRelation : reason = .policyDenied "self_relation" := by
              unfold newRelation at built
              split_ifs at built
              exact (Except.error.inj built).symm
            simp [relateOne,plainRelations,known,foreign,outvoted,built,selfRelation,error_bind,Except.map]
          | ok relation' =>
            simp only [relateOne,plainRelations,known,foreign,outvoted,built,ok_bind,ne_eq,not_true_eq_false,if_false]
            exact ih _
      · simp [relateOne,plainRelations,known,foreign,error_bind,Except.map]

/-- The plain tail in terms of the facts the steps share. -/
private theorem plainAdmission_eq (subject : Proposal SecretRules) :
    plainAdmission subject.proposal subject.policy subject.context =
      match (Grounds.of subject).authority with
      | none => .refuse .authorityInsufficient
      | some authority =>
        match plainRelations subject.proposal.claim subject.context (Grounds.of subject).sourcing
            (Grounds.of subject).correcting authority subject.proposal.relations [] [] false with
        | .error reason => .refuse reason
        | .ok (relations,conflicts,outranked) =>
          if outranked && !reviewed subject.proposal then .hold .authorityInsufficient
          else if !grounded subject (Grounds.of subject).ownData authority then .hold .authorityInsufficient
          else .admitted ⟨authority,(Grounds.of subject).sourcing,relations,
            if (Grounds.of subject).correcting then corrected subject.proposal else [],conflicts⟩ :=
  rfl

/-- Once the first seven steps have passed, the last three and the rebuilding of the
    admitted claim are the tail of the plain chain. -/
private theorem admission_eq_plain (subject : Proposal SecretRules) :
    (match chain subject [⟨"claim.authority",authorityStep⟩,⟨"claim.relations",relationsStep⟩,
        ⟨"claim.ground",ground⟩] with
      | .fault reason => ClaimVerdict.refuse reason
      | .hold reason => .hold subject.proposal reason
      | .pass =>
        match admitted subject with
        | .refuse reason => .refuse reason
        | .hold reason => .hold subject.proposal reason
        | .admitted claim => .admitted claim) =
      plainVerdict subject.proposal subject.policy
        (plainAdmission subject.proposal subject.policy subject.context) := by
  simp only [chain_cons,chain_nil,plainAdmission_eq,authorityStep,relationsStep,ground,admitted,faultIf]
  generalize Grounds.of subject = grounds
  cases authorityIs : grounds.authority with
  | none => simp [plainVerdict]
  | some authority =>
    have relatedIs := relate_eq_plain subject grounds authority subject.proposal.relations ⟨[],[],false⟩
    cases plain : plainRelations subject.proposal.claim subject.context grounds.sourcing grounds.correcting authority
        subject.proposal.relations [] [] false with
    | error reason =>
      have refused : relate subject grounds authority = .error reason := by simp [relate,relatedIs,plain,Except.map]
      simp [refused,plain,plainVerdict]
    | ok built =>
      obtain ⟨relations,conflicts,outranked⟩ := built
      have passed : relate subject grounds authority = .ok ⟨relations,conflicts,outranked⟩ := by
        simp [relate,relatedIs,plain,Except.map]
      simp only [passed,plain,Option.isNone_some]
      cases (outranked && !reviewed subject.proposal) <;> cases grounded subject grounds.ownData authority <;>
        simp [plainVerdict]

theorem walkClaim_eq_chain (lawful : linked.closed.Lawful) (subject : Proposal SecretRules) :
    walk linked.closed subject (claimWalk linked) claimSteps .policyDenied = chain subject (claimWalk linked) :=
  walk_eq_chain lawful _ _ _ (by simp [claimWalk]) (by simp [claimWalk]) (by simp [claimWalk,claimSteps]) _

private theorem evaluateClaim_eq_plain (lawful : linked.closed.Lawful) (rules : RuleSet SecretRules)
    (proposal : ClaimProposal) (registry : RegistrySnapshot) (policy : AdmissionPolicy) (context : ClaimContext) :
    evaluateClaim linked rules proposal registry policy context =
      plainVerdict proposal policy (plainJudge linked rules.secrets proposal registry policy context) := by
  have tail := admission_eq_plain ⟨proposal,registry,policy,context,rules.secrets⟩
  unfold evaluateClaim judge walkClaim plainJudge
  rw [walkClaim_eq_chain linked lawful]
  generalize subjectIs : Proposal.mk proposal registry policy context rules.secrets = subject at tail ⊢
  have proposalIs : subject.proposal = proposal := by rw [← subjectIs]
  have registryIs : subject.registry = registry := by rw [← subjectIs]
  have policyIs : subject.policy = policy := by rw [← subjectIs]
  have contextIs : subject.context = context := by rw [← subjectIs]
  have secretsIs : subject.secrets = rules.secrets := by rw [← subjectIs]
  rw [proposalIs,policyIs,contextIs] at tail
  -- each step passes or refuses; the seven together leave the tail
  rw [claimWalk,chain_cons,vocabulary,proposalIs,registryIs]
  cases validate linked.isNfc proposal.claim registry with
  | error error => simp [plainVerdict]
  | ok valid =>
    simp only
    rw [chain_cons,ClaimGate.secretsStep,proposalIs,secretsIs]
    cases claimSecret linked rules.secrets proposal.claim with
    | some reason => simp [plainVerdict]
    | none =>
      simp only
      rw [chain_cons,provenance,proposalIs]
      cases proposal.evidence.isEmpty with
      | true => simp [faultIf,plainVerdict]
      | false =>
        simp only [faultIf,Bool.false_eq_true,if_false]
        rw [chain_cons,sources,proposalIs,contextIs]
        cases unavailableSource proposal context with
        | some source => simp [plainVerdict]
        | none =>
          simp only
          rw [chain_cons,seed,proposalIs]
          cases (!(seeds proposal).isEmpty && proposal.evidence.any (fun evidence => evidence.kind == .userStatement)) with
          | true => simp [faultIf,plainVerdict]
          | false =>
            simp only [faultIf,Bool.false_eq_true,if_false]
            rw [chain_cons,scoreFloor,proposalIs,policyIs]
            cases policy.doc.scoreFloor.any (fun floor => proposal.evidence.any (belowFloor floor)) with
            | true => simp [faultIf,plainVerdict]
            | false =>
              simp only [faultIf,Bool.false_eq_true,if_false]
              rw [chain_cons,userLevel,proposalIs]
              cases (userStatements proposal).any (fun statement => !statement.asserted.isUser) with
              | true => simp [faultIf,plainVerdict]
              | false =>
                simp only [faultIf,Bool.false_eq_true,if_false]
                rw [← tail]
                cases chain subject [⟨"claim.authority",authorityStep⟩,⟨"claim.relations",relationsStep⟩,
                    ⟨"claim.ground",ground⟩] <;> rfl

/-- The gates are the plain chains they replaced. A walk over any nonempty list of
    steps with distinct ids, required exactly, gives the reason of the first step that
    refuses, else of the first that holds, else passes; and so both gates answer what
    the early-return chains over the same checks answer, reason and payload included. -/
theorem gates_eq_plain_chains (lawful : linked.closed.Lawful) :
    (∀ (S R : Type) (subject : S) (steps : List (Step S R)) (required : List String) (walkFault : String → R),
      steps ≠ [] → (steps.map (·.id)).Nodup → (∀ id, id ∈ required ↔ id ∈ steps.map (·.id)) →
      walk linked.closed subject steps required walkFault = chain subject steps) ∧
    (∀ (rules : RuleSet SecretRules) (candidate : Candidate),
      evaluate linked rules candidate = plainEvaluate linked rules candidate) ∧
    ∀ (rules : RuleSet SecretRules) (proposal : ClaimProposal) (registry : RegistrySnapshot)
      (policy : AdmissionPolicy) (context : ClaimContext),
      evaluateClaim linked rules proposal registry policy context =
        plainVerdict proposal policy (plainJudge linked rules.secrets proposal registry policy context) := by
  refine ⟨?_,?_,?_⟩
  · intro S R subject steps required walkFault nonempty distinct exactly
    exact walk_eq_chain lawful subject steps required nonempty distinct exactly walkFault
  · exact evaluate_eq_plain linked lawful
  · exact evaluateClaim_eq_plain linked lawful

end

namespace Sample
open Claims.Sample Registry.Sample CaptureGate.Sample ClaimGate.Sample

/-- On an asserted note the walk holds, and on the owner's own statement both gates admit. -/
theorem gates_eq_plain_chains_sample :
    linked.closed.Lawful ∧
    evaluate linked rules (candidate "aisle seat" .asserted) =
      plainEvaluate linked rules (candidate "aisle seat" .asserted) ∧
    (evaluate linked rules (candidate "aisle seat" .asserted)).reason = some (.originUnestablished .asserted) ∧
    evaluateClaim linked rules ownStatement registry policy context =
      plainVerdict ownStatement policy (plainJudge linked () ownStatement registry policy context) ∧
    (∃ claim, evaluateClaim linked rules ownStatement registry policy context = .admitted claim ∧
      claim.authority = .userAsserted ∧ claim.sourcing = .user) := by
  have equal := gates_eq_plain_chains linked Walk.Sample.closedGate_lawful
  refine ⟨Walk.Sample.closedGate_lawful,equal.2.1 _ _,?_,equal.2.2 _ _ _ _ _,?_⟩
  · rw [equal.2.1]
    decide +kernel
  · rw [equal.2.2]
    exact ⟨_,rfl,by decide +kernel,by decide +kernel⟩

end Sample

end Aicortex.PlainChains
