import Aicortex.Registry
import Aicortex.CaptureGate
import Aicortex.Lib.Outcome

/-!
Claim admission: the gate's verdict on a proposal under a versioned policy. Ten
steps are walked in order; a proposal that passes them all is rebuilt into an
admitted claim. What the store knows arrives in the context, so the gate is a
function of the proposal, the vocabulary, the policy and that context.
-/

namespace Aicortex.ClaimGate
open Aicortex.Text Aicortex.Walk Aicortex.CaptureGate Aicortex.Registry Lib.Ordered Lib.Outcome
open Aicortex.Claims hiding Unit
set_option linter.unusedSimpArgs false

/-! ### Reasons -/

/-- Which string of a claim a detector fired in. -/
inductive ClaimField where
  | value
  | condition
  | slot
  | subject
  deriving Repr, DecidableEq

inductive ClaimReason where
  | unregisteredPredicate
  | invalidValue (rule : String)
  | secretDetected (field : ClaimField) (detector : String) (offset : Nat)
  | sourceUnavailable (source : MemoryId)
  | noProvenance
  | authorityInsufficient
  | belowScoreFloor
  | policyDenied (rule : String)
  deriving Repr, DecidableEq

def ClaimReason.code : ClaimReason → String
  | .unregisteredPredicate => "unregistered_predicate"
  | .invalidValue _ => "invalid_value"
  | .secretDetected _ _ _ => "secret_detected"
  | .sourceUnavailable _ => "source_unavailable"
  | .noProvenance => "no_provenance"
  | .authorityInsufficient => "authority_insufficient"
  | .belowScoreFloor => "below_score_floor"
  | .policyDenied _ => "policy_denied"

/-- The reason a vocabulary refusal is reported under. -/
def invalid : ClaimError → ClaimReason
  | .unknownPredicate _ | .wrongVersion _ | .withdrawn _ => .unregisteredPredicate
  | other => .invalidValue other.code

/-! ### The policy -/

/-- The highest level each kind of evidence can ever earn. -/
def ceilingOf : EvidenceKind → Option AuthorityLevel
  | .modelScore => some .inferred
  | .sourceSpan | .ruleMatch | .operatorSeed => some .extracted
  | .spanVerified => some .verified
  | .userStatement => some .userCorrected
  | .corroboration | .reviewApproval => none

structure Ceiling where
  evidence : EvidenceKind
  level : AuthorityLevel
  deriving Repr, DecidableEq

/-- A predicate qualified for admission without review. -/
structure Qualification where
  «namespace» : Namespace
  predicate : PredicateName
  minAuthority : AuthorityLevel
  decision : DecisionRef
  deriving Repr, DecidableEq

structure SeedAcceptance where
  seed : SeedRef
  decision : DecisionRef
  deriving Repr, DecidableEq

structure PolicyDocument where
  id : String
  version : Nat
  scoreFloor : Option Score
  ceilings : List Ceiling
  qualified : List Qualification
  seeds : List SeedAcceptance
  deriving DecidableEq

/-- What a policy document is checked for: a name, one ceiling a kind and none
    raised, and no qualification on a model's inference. -/
structure PolicyDocument.Legal (doc : PolicyDocument) : Prop where
  named : (trimChars doc.id.toList).isEmpty = false ∧ doc.version ≠ 0
  single : (doc.ceilings.map Ceiling.evidence).Nodup
  lowered : ∀ ceiling ∈ doc.ceilings, ∃ most, ceilingOf ceiling.evidence = some most ∧ ceiling.level ≤ most
  reviewed : ∀ qualification ∈ doc.qualified, AuthorityLevel.extracted ≤ qualification.minAuthority

structure AdmissionPolicy where
  doc : PolicyDocument
  legal : doc.Legal

structure PolicyRef where
  id : String
  version : Nat
  deriving Repr, DecidableEq

namespace AdmissionPolicy

def reference (policy : AdmissionPolicy) : PolicyRef := ⟨policy.doc.id,policy.doc.version⟩

/-- The level a kind of evidence earns under the policy. -/
def ceiling (policy : AdmissionPolicy) (kind : EvidenceKind) : Option AuthorityLevel :=
  (ceilingOf kind).map (fun most =>
    match policy.doc.ceilings.find? (fun ceiling => ceiling.evidence == kind) with
    | some ceiling => min ceiling.level most
    | none => most)

def qualifies (policy : AdmissionPolicy) (claim : Claim) (authority : AuthorityLevel) : Bool :=
  policy.doc.qualified.any (fun qualification =>
    qualification.namespace == claim.predicate.namespace && qualification.predicate == claim.predicate.name &&
      decide (authority ≥ qualification.minAuthority))

def accepts (policy : AdmissionPolicy) (seed : SeedRef) : Bool :=
  policy.doc.seeds.any (fun accepted => accepted.seed == seed)

end AdmissionPolicy

/-! ### Context and verdict -/

inductive SourceState where
  | available
  | quarantined
  | erased
  deriving Repr, DecidableEq

structure TargetFacts where
  scope : Scope
  authority : AuthorityLevel
  sourcing : Sourcing
  deriving DecidableEq

structure ClaimContext where
  sources : OrdMap MemoryId SourceState
  targets : OrdMap ClaimId TargetFacts

structure AdmittedClaim where
  claim : Claim
  proposal : ProposalId
  proposer : Actor
  policy : PolicyRef
  authority : AuthorityLevel
  sourcing : Sourcing
  evidence : List Evidence
  relations : List ClaimRelation
  corrects : List ClaimId
  conflicts : List ClaimId
  deriving DecidableEq

inductive ClaimVerdict where
  | admitted (claim : AdmittedClaim)
  | hold (proposal : ClaimProposal) (reason : ClaimReason)
  | refuse (reason : ClaimReason)
  deriving DecidableEq

inductive Judgement where
  | admitted (claim : AdmittedClaim)
  | hold (reason : ClaimReason)
  | refuse (reason : ClaimReason)
  deriving DecidableEq

/-! ### What the steps share -/

/-- What the claim walk judges. -/
structure Proposal (SecretRules : Type) where
  proposal : ClaimProposal
  registry : RegistrySnapshot
  policy : AdmissionPolicy
  context : ClaimContext
  secrets : SecretRules

/-- The claims a proposal supersedes or contradicts, in its order. -/
def corrected (proposal : ClaimProposal) : List ClaimId :=
  (proposal.relations.filter (fun relation => relation.kind == .supersedes || relation.kind == .contradicts)).map
    (·.target)

def seeds (proposal : ClaimProposal) : List SeedRef :=
  proposal.evidence.filterMap (fun evidence =>
    match evidence with
    | .operatorSeed _ seed => some seed
    | _ => none)

/-- A user statement the gate honours: a human proposer's about themselves. -/
structure Statement where
  by' : String
  asserted : AuthorityLevel
  deriving Repr, DecidableEq

def userStatements (proposal : ClaimProposal) : List Statement :=
  proposal.evidence.filterMap (fun evidence =>
    match evidence with
    | .userStatement by' authority =>
      if proposal.proposer.kind == .human && proposal.proposer.id.text == by'.text then some ⟨by'.text,authority⟩
      else none
    | _ => none)

/-- What one item earns, before its ceiling. -/
def levelOf (kind : EvidenceKind) (ceiling : AuthorityLevel) (honouredStatement correcting : Bool) :
    Option AuthorityLevel :=
  if kind = .userStatement then
    if !honouredStatement then none else if correcting then some .userCorrected else some .userAsserted
  else some ceiling

/-- The highest level any honoured item reaches under the policy's ceilings. -/
def earned (proposal : ClaimProposal) (policy : AdmissionPolicy) (honouredStatement correcting : Bool) :
    Option AuthorityLevel :=
  (proposal.evidence.filterMap (fun evidence => do
    let ceiling ← policy.ceiling evidence.kind
    let level ← levelOf evidence.kind ceiling honouredStatement correcting
    some (min level ceiling))).max?

/-- The stored sources a proposal cites, in the order they are looked up. -/
def citedSources (proposal : ClaimProposal) : List MemoryId :=
  proposal.claim.provenance.derivedFrom ++ proposal.claim.provenance.spans.map (·.source) ++
    (proposal.evidence.filterMap Evidence.span).map (·.source)

def unavailableSource (proposal : ClaimProposal) (context : ClaimContext) : Option MemoryId :=
  (citedSources proposal).find? (fun source => context.sources.find? source != some .available)

def reviewed (proposal : ClaimProposal) : Bool :=
  proposal.evidence.any (fun evidence => evidence.kind == .reviewApproval)

/-- The strings of a claim the detectors read, in order. -/
def scannedFields (claim : Claim) : List (ClaimField × Option String) :=
  [(.value,match claim.value with
      | .text text => some text
      | _ => none),
    (.condition,claim.epistemic.condition),(.slot,claim.slot.map (·.text)),(.subject,some claim.subject.key.text)]

section
variable {SecretRules : Type} (linked : Linked SecretRules)

/-- A detector's finding in the first of those strings that has one. -/
def claimSecret (rules : SecretRules) (claim : Claim) : Option ClaimReason :=
  (scannedFields claim).findSome? (fun field =>
    (field.2.bind (fun text => linked.scan text rules)).map (fun finding =>
      .secretDetected field.1 finding.detector finding.offset))

structure Grounds where
  authority : Option AuthorityLevel
  correcting : Bool
  ownData : Bool
  sourcing : Sourcing
  deriving DecidableEq

def Grounds.of (subject : Proposal SecretRules) : Grounds :=
  let proposal := subject.proposal
  let statements := userStatements proposal
  let correcting := !statements.isEmpty && !(corrected proposal).isEmpty
  let ownData := statements.any (fun statement => statement.by' == proposal.claim.scope.owner.text)
  { authority := earned proposal subject.policy (!statements.isEmpty) correcting
    correcting := correcting
    ownData := ownData
    sourcing := if ownData then .user else if !(seeds proposal).isEmpty then .seed else .supplier }

/-- The relations a proposal would append, and what they say about it. -/
structure Related where
  relations : List ClaimRelation
  conflicts : List ClaimId
  outranked : Bool
  deriving DecidableEq

/-- The relation as it is appended; a claim is not related to itself. -/
def newRelation (claim : Claim) (relation : ProposedRelation) : Except ClaimReason ClaimRelation :=
  if legal : legalRelation claim.id relation.kind (.claim relation.target) = true then
    .ok ⟨claim.id,relation.kind,.claim relation.target,claim.provenance,legal⟩
  else .error (.policyDenied "self_relation")

/-- One relation against the claim it targets. -/
def relateOne (subject : Proposal SecretRules) (grounds : Grounds) (authority : AuthorityLevel) (related : Related)
    (relation : ProposedRelation) : Except ClaimReason Related :=
  let claim := subject.proposal.claim
  match subject.context.targets.find? relation.target with
  | none => .error (.policyDenied "unknown_target")
  | some target =>
    if target.scope ≠ claim.scope then .error (.policyDenied "cross_scope_relation")
    else if relation.kind = .supersedes ∧ grounds.sourcing = .user ∧ target.sourcing = .supplier then
      .error (.policyDenied "user_supersedes_supplier")
    else do
      let outranked := related.outranked || (relation.kind == .supersedes && decide (target.authority > authority))
      let conflicts :=
        if relation.kind = .contradicts ∧ grounds.correcting = true ∧ target.sourcing = .supplier then
          related.conflicts ++ [relation.target]
        else related.conflicts
      let built ← newRelation claim relation
      .ok ⟨related.relations ++ [built],conflicts,outranked⟩

/-- The relations in the proposal's order; the first one that breaks a rule refuses. -/
def relate (subject : Proposal SecretRules) (grounds : Grounds) (authority : AuthorityLevel) :
    Except ClaimReason Related :=
  subject.proposal.relations.foldlM (relateOne subject grounds authority) ⟨[],[],false⟩

/-! ### The steps -/

def faultIf (refused : Bool) (reason : ClaimReason) : Judged ClaimReason := if refused then .fault reason else .pass

def vocabulary (subject : Proposal SecretRules) : Judged ClaimReason :=
  match validate linked.isNfc subject.proposal.claim subject.registry with
  | .ok _ => .pass
  | .error error => .fault (invalid error)

def secretsStep (subject : Proposal SecretRules) : Judged ClaimReason :=
  match claimSecret linked subject.secrets subject.proposal.claim with
  | some reason => .fault reason
  | none => .pass

def provenance (subject : Proposal SecretRules) : Judged ClaimReason :=
  faultIf subject.proposal.evidence.isEmpty .noProvenance

def sources (subject : Proposal SecretRules) : Judged ClaimReason :=
  match unavailableSource subject.proposal subject.context with
  | some source => .fault (.sourceUnavailable source)
  | none => .pass

/-- A seed dressed as the owner's word. -/
def seed (subject : Proposal SecretRules) : Judged ClaimReason :=
  let statesTheOwnersWord := subject.proposal.evidence.any (fun evidence => evidence.kind == .userStatement)
  faultIf (!(seeds subject.proposal).isEmpty && statesTheOwnersWord) (.policyDenied "seed_with_user_statement")

def belowFloor (floor : Score) : Evidence → Bool
  | .modelScore _ score _ => decide (score.basisPoints < floor.basisPoints)
  | _ => false

def scoreFloor (subject : Proposal SecretRules) : Judged ClaimReason :=
  faultIf (subject.policy.doc.scoreFloor.any (fun floor => subject.proposal.evidence.any (belowFloor floor)))
    .belowScoreFloor

/-- A user statement asserted below the user's level. -/
def userLevel (subject : Proposal SecretRules) : Judged ClaimReason :=
  faultIf ((userStatements subject.proposal).any (fun statement => !statement.asserted.isUser))
    (.policyDenied "user_statement_below_user_level")

def authorityStep (subject : Proposal SecretRules) : Judged ClaimReason :=
  faultIf (Grounds.of subject).authority.isNone .authorityInsufficient

def relationsStep (subject : Proposal SecretRules) : Judged ClaimReason :=
  let grounds := Grounds.of subject
  match grounds.authority with
  | some authority =>
    match relate subject grounds authority with
    | .ok _ => .pass
    | .error reason => .fault reason
  | none => .fault .authorityInsufficient

/-- A review, an own-data statement, an accepted seed or a qualified predicate. -/
def grounded (subject : Proposal SecretRules) (ownData : Bool) (authority : AuthorityLevel) : Bool :=
  let named := seeds subject.proposal
  let seeded := !named.isEmpty && named.all subject.policy.accepts
  reviewed subject.proposal || ownData || seeded || subject.policy.qualifies subject.proposal.claim authority

def ground (subject : Proposal SecretRules) : Judged ClaimReason :=
  let grounds := Grounds.of subject
  match grounds.authority with
  | none => .fault .authorityInsufficient
  | some authority =>
    match relate subject grounds authority with
    | .error reason => .fault reason
    | .ok related =>
      if related.outranked && !reviewed subject.proposal then .hold .authorityInsufficient
      else if grounded subject grounds.ownData authority then .pass
      else .hold .authorityInsufficient

def claimWalk : List (Step (Proposal SecretRules) ClaimReason) :=
  [⟨"claim.vocabulary",vocabulary linked⟩,⟨"claim.secrets",secretsStep linked⟩,⟨"claim.provenance",provenance⟩,
    ⟨"claim.sources",sources⟩,⟨"claim.seed",seed⟩,⟨"claim.score_floor",scoreFloor⟩,⟨"claim.user_level",userLevel⟩,
    ⟨"claim.authority",authorityStep⟩,⟨"claim.relations",relationsStep⟩,⟨"claim.ground",ground⟩]

def claimSteps : List String :=
  ["claim.vocabulary","claim.secrets","claim.provenance","claim.sources","claim.seed","claim.score_floor",
    "claim.user_level","claim.authority","claim.relations","claim.ground"]

/-! ### The gate -/

/-- The admitted claim, built after every step passed. -/
def admitted (subject : Proposal SecretRules) : Judgement :=
  let grounds := Grounds.of subject
  match grounds.authority with
  | none => .refuse .authorityInsufficient
  | some authority =>
    match relate subject grounds authority with
    | .error reason => .refuse reason
    | .ok related =>
      .admitted {
        claim := subject.proposal.claim
        proposal := subject.proposal.id
        proposer := subject.proposal.proposer
        policy := subject.policy.reference
        authority := authority
        sourcing := grounds.sourcing
        evidence := subject.proposal.evidence
        relations := related.relations
        corrects := if grounds.correcting then corrected subject.proposal else []
        conflicts := related.conflicts }

def walkClaim (subject : Proposal SecretRules) : Judgement :=
  match walk linked.closed subject (claimWalk linked) claimSteps .policyDenied with
  | .fault reason => .refuse reason
  | .hold reason => .hold reason
  | .pass => admitted subject

def judge (rules : RuleSet SecretRules) (proposal : ClaimProposal) (registry : RegistrySnapshot)
    (policy : AdmissionPolicy) (context : ClaimContext) : Judgement :=
  walkClaim linked ⟨proposal,registry,policy,context,rules.secrets⟩

/-- Judge a claim proposal. -/
def evaluateClaim (rules : RuleSet SecretRules) (proposal : ClaimProposal) (registry : RegistrySnapshot)
    (policy : AdmissionPolicy) (context : ClaimContext) : ClaimVerdict :=
  match judge linked rules proposal registry policy context with
  | .refuse reason => .refuse reason
  | .hold reason => .hold proposal reason
  | .admitted claim => .admitted claim

/-- Every relation an admitted claim carries starts at it. -/
def AdmittedClaim.Grounded (admitted : AdmittedClaim) : Prop :=
  ∀ relation ∈ admitted.relations, relation.source = admitted.claim.id

theorem relate_grounded {subject : Proposal SecretRules} {grounds : Grounds} {authority : AuthorityLevel}
    {related : Related} (executed : relate subject grounds authority = .ok related) :
    ∀ relation ∈ related.relations, relation.source = subject.proposal.claim.id := by
  refine foldlM_invariant
    (fun related : Related => ∀ relation ∈ related.relations, relation.source = subject.proposal.claim.id) ?_
    (by simp) executed
  intro relation _ earlier later held stepped
  simp only [relateOne] at stepped
  split at stepped
  · cases stepped
  · split at stepped
    · cases stepped
    split at stepped
    · cases stepped
    obtain ⟨built,made,appended⟩ := bind_ok_iff.mp stepped
    obtain rfl := Except.ok.inj appended
    unfold newRelation at made
    split_ifs at made
    obtain rfl := Except.ok.inj made
    intro other member
    rcases List.mem_append.mp member with old | added
    · exact held other old
    · rw [List.mem_singleton.mp added]

/-- An admitted claim is the proposal's, with the relations built for it. -/
theorem evaluateClaim_related {rules : RuleSet SecretRules} {proposal : ClaimProposal} {registry : RegistrySnapshot}
    {policy : AdmissionPolicy} {context : ClaimContext} {claim : AdmittedClaim}
    (executed : evaluateClaim linked rules proposal registry policy context = .admitted claim) :
    ∃ grounds authority related, relate ⟨proposal,registry,policy,context,rules.secrets⟩ grounds authority = .ok related ∧
      claim.claim = proposal.claim ∧ claim.relations = related.relations := by
  unfold evaluateClaim judge walkClaim at executed
  split at executed
  · cases executed
  · cases executed
  · rename_i admittedClaim judged
    cases executed
    split at judged
    · cases judged
    · cases judged
    · simp only [admitted] at judged
      split at judged
      · cases judged
      · split at judged
        · cases judged
        · rename_i related executed
          cases judged
          exact ⟨_,_,related,executed,rfl,rfl⟩

/-- The gate admits grounded claims only, and there is no other way to an admitted one. -/
theorem evaluateClaim_grounded {rules : RuleSet SecretRules} {proposal : ClaimProposal} {registry : RegistrySnapshot}
    {policy : AdmissionPolicy} {context : ClaimContext} {claim : AdmittedClaim}
    (executed : evaluateClaim linked rules proposal registry policy context = .admitted claim) : claim.Grounded := by
  obtain ⟨grounds,authority,related,built,claimIs,relationsIs⟩ := evaluateClaim_related linked executed
  intro relation carried
  rw [relationsIs] at carried
  rw [claimIs]
  exact relate_grounded built relation carried

end

namespace Sample
open Claims.Sample

def proposalId : ProposalId := ⟨5,by decide⟩

/-- The shipped ceilings, no floor, nothing qualified and no seed accepted. -/
def policy : AdmissionPolicy where
  doc := ⟨"aicortex.claims.admission",1,none,[],[],[]⟩
  legal := ⟨by decide,by decide,by simp,by simp⟩

def context : ClaimContext := ⟨.empty,.empty⟩

/-- The owner's own statement about a seat. -/
def ownStatement : ClaimProposal where
  id := proposalId
  claim := claim firstId "12A"
  proposer := actor
  evidence := [.userStatement ⟨"alice"⟩ .userAsserted]
  relations := []
  proposedAt := 10

end Sample

end Aicortex.ClaimGate
