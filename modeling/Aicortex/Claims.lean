import Aicortex.CivilTime
import Mathlib.Data.Prod.Lex

/-!
The records a claim is made of: scope, actor, provenance with its spans, typed
value, claim, relation, evidence and proposal. The closed vocabularies are
enumerations in declaration order, which is also their order where they have one.
-/

namespace Aicortex.Claims
open Aicortex.Text Aicortex.CivilTime
set_option linter.unusedSimpArgs false

/-! ### Scope and actor -/

/-- The identity provider's subject, verbatim. -/
structure Sub where
  text : String
  deriving Repr, DecidableEq

abbrev ProjectKey := CheckedString "project" validateKey
abbrev ShareKey := CheckedString "share" validateKey

inductive ScopeKind where
  | personal
  | project (key : ProjectKey)
  | shared (key : ShareKey)
  deriving DecidableEq

namespace ScopeKind

def label : ScopeKind → String
  | .personal => "personal"
  | .project _ => "project"
  | .shared _ => "shared"

def key : ScopeKind → Option String
  | .personal => none
  | .project named => some named.text
  | .shared named => some named.text

end ScopeKind

/-- Who owns a body of memory, and which body it is. -/
structure Scope where
  owner : Sub
  kind : ScopeKind
  deriving DecidableEq

/-- `<sub>/personal`, `<sub>/project/<key>`, `<sub>/shared/<key>`. -/
def Scope.display (scope : Scope) : String :=
  scope.owner.text ++ "/" ++ scope.kind.label ++
    match scope.kind.key with
    | some key => "/" ++ key
    | none => ""

abbrev ActorId := CheckedString "actor.id" validateKey

structure AgentOrigin where
  client : Option String
  model : Option String
  deriving Repr, DecidableEq

inductive ActorKind where
  | human
  | agent (origin : AgentOrigin)
  | system
  | imported
  deriving Repr, DecidableEq

structure Actor where
  kind : ActorKind
  id : ActorId
  label : Option String
  deriving Repr, DecidableEq

/-! ### Provenance -/

abbrev UnixSeconds := Nat
abbrev DecisionRef := CheckedString "decision" validateKey
abbrev SourceSystem := CheckedString "source.system" sourceSystem
abbrev Hex := CheckedString "digest" lowerHex

structure SourceRef where
  system : SourceSystem
  externalId : Option String
  locator : Option String
  deriving Repr, DecidableEq

structure ExtractorVersion where
  name : String
  version : String
  deriving Repr, DecidableEq

/-- The record of an operator admitting a candidate the gate refused. -/
structure AdmissionOverride where
  reasonCode : String
  by' : Sub
  decision : DecisionRef
  deriving Repr, DecidableEq

/-- A MIME path is positive integers joined by `.`. -/
def mimePath (path : String) : Bool :=
  !path.isEmpty && (splitOn '.' path.toList).all (fun segment =>
    !segment.isEmpty && segment.head? != some '0' && segment.all isAsciiDigit)

/-- The part of a source a span points into. The cases are public; `newMime` and
    `newAttachment` are the constructors that check what they are given. -/
inductive PartLocator where
  | body
  | mime (path : String)
  | attachment (name : String)
  deriving Repr, DecidableEq

namespace PartLocator

def newMime (path : String) : Except TypeError PartLocator :=
  if mimePath path then .ok (.mime path)
  else .error (.invalid "part" [.quoted path,.lit " is not a MIME part path"])

def newAttachment (name : String) : Except TypeError PartLocator := do
  validateKey "part" name
  .ok (.attachment name)

end PartLocator

inductive SpanUnit where
  | bytes
  | chars
  deriving Repr, DecidableEq

/-- A nonempty half-open range over a part. -/
structure SpanRange where
  unit : SpanUnit
  start : Nat
  stop : Nat
  nonempty : start < stop
  deriving DecidableEq

structure ContentDigest where
  algorithm : String
  keyId : Hex
  digest : Hex
  deriving Repr, DecidableEq

/-- A reference into a stored source: which memory, which part, which range. -/
structure SourceSpan where
  source : MemoryId
  part : PartLocator
  range : SpanRange
  digest : ContentDigest
  deriving DecidableEq

structure Provenance where
  source : SourceRef
  capturedAt : UnixSeconds
  ingestedAt : UnixSeconds
  derivedFrom : List MemoryId
  extractor : Option ExtractorVersion
  admission : Option AdmissionOverride
  spans : List SourceSpan
  deriving DecidableEq

/-! ### Predicates and values -/

abbrev Namespace := CheckedString "namespace" lowerIdent
abbrev SubjectKind := CheckedString "subject.kind" lowerIdent
abbrev SubjectKey := CheckedString "subject.key" validateKey
abbrev SlotKey := CheckedString "slot" validateKey
abbrev SlotName := CheckedString "slot" lowerIdent
abbrev PredicateName := CheckedString "predicate" dottedIdent
abbrev CurrencyCode := CheckedString "unit" currencyCode
abbrev UnitName := CheckedString "unit" lowerIdent
abbrev EnumVariant := CheckedString "variant" lowerIdent

/-- What a claim is about. -/
structure SubjectRef where
  «namespace» : Namespace
  kind : SubjectKind
  key : SubjectKey
  deriving Repr, DecidableEq

structure PredicateRef where
  «namespace» : Namespace
  name : PredicateName
  version : Nat
  deriving Repr, DecidableEq

namespace PredicateRef

/-- `namespace:name@version`. -/
def display (predicate : PredicateRef) : String :=
  predicate.namespace.text ++ ":" ++ predicate.name.text ++ "@" ++ toString predicate.version

/-- The derived field order. -/
def order (predicate : PredicateRef) : Namespace ×ₗ PredicateName ×ₗ Nat :=
  toLex (predicate.namespace,toLex (predicate.name,predicate.version))

theorem order_injective : Function.Injective order := by
  rintro ⟨_,_,_⟩ ⟨_,_,_⟩ same
  simp only [order,toLex_inj,Prod.mk.injEq] at same
  obtain ⟨rfl,rfl,rfl⟩ := same
  rfl

instance : LinearOrder PredicateRef := LinearOrder.lift' order order_injective

end PredicateRef

inductive Unit where
  | currency (code : CurrencyCode)
  | measure (name : UnitName)
  deriving Repr, DecidableEq

def maxScale : Nat := 38

/-- A fixed-point number `mantissa * 10^-scale` with an optional unit. -/
structure Decimal where
  mantissa : Int
  scale : Nat
  unit : Option Unit
  legal : scale ≤ maxScale
  deriving DecidableEq

inductive ValueKind where
  | text
  | integer
  | decimal
  | date
  | dateTime
  | interval
  | entityRef
  | enum
  deriving Repr, DecidableEq

inductive ClaimValue where
  | text (text : String)
  | integer (value : Int)
  | decimal (value : Decimal)
  | date (date : CivilDate)
  | dateTime (time : ZonedTime)
  | interval (interval : Interval)
  | entityRef (subject : SubjectRef)
  | enum (variant : EnumVariant)
  deriving DecidableEq

def ClaimValue.kind : ClaimValue → ValueKind
  | .text _ => .text
  | .integer _ => .integer
  | .decimal _ => .decimal
  | .date _ => .date
  | .dateTime _ => .dateTime
  | .interval _ => .interval
  | .entityRef _ => .entityRef
  | .enum _ => .enum

/-! ### Claims and relations -/

inductive Stance where
  | asserted
  | denied
  | conditional
  | requested
  | confirmed
  | estimated
  | expected
  | observed
  deriving Repr, DecidableEq

/-- A condition is stated exactly for the conditional stance, and is not blank. -/
def legalEpistemic (stance : Stance) : Option String → Bool
  | none => stance != .conditional
  | some condition => stance == .conditional && !(trimChars condition.toList).isEmpty

structure EpistemicStatus where
  stance : Stance
  condition : Option String
  legal : legalEpistemic stance condition = true
  deriving DecidableEq

structure Claim where
  id : ClaimId
  scope : Scope
  subject : SubjectRef
  predicate : PredicateRef
  value : ClaimValue
  slot : Option SlotKey
  epistemic : EpistemicStatus
  provenance : Provenance
  schemaVersion : Nat
  deriving DecidableEq

inductive RelationKind where
  | supersedes
  | contradicts
  | derivedFrom
  deriving Repr, DecidableEq

inductive RelationTarget where
  | claim (id : ClaimId)
  | memory (id : MemoryId)
  deriving Repr, DecidableEq

/-- A memory is the target of a derivation only, and no claim is related to itself. -/
def legalRelation (source : ClaimId) (kind : RelationKind) : RelationTarget → Bool
  | .memory _ => kind == .derivedFrom
  | .claim target => target != source

structure ClaimRelation where
  source : ClaimId
  kind : RelationKind
  target : RelationTarget
  provenance : Provenance
  legal : legalRelation source kind target = true
  deriving DecidableEq

/-! ### Evidence and proposals -/

/-- How far an admitted claim may be relied on, least first. -/
inductive AuthorityLevel where
  | inferred
  | extracted
  | verified
  | userAsserted
  | userCorrected
  deriving Repr, DecidableEq

namespace AuthorityLevel

def rank : AuthorityLevel → Nat
  | .inferred => 0
  | .extracted => 1
  | .verified => 2
  | .userAsserted => 3
  | .userCorrected => 4

theorem rank_injective : Function.Injective rank := by
  intro left right same
  cases left <;> cases right <;> simp_all [rank]

instance : LinearOrder AuthorityLevel := LinearOrder.lift' rank rank_injective

/-- A level only a human's own statement reaches. -/
def isUser : AuthorityLevel → Bool
  | .userAsserted | .userCorrected => true
  | _ => false

end AuthorityLevel

inductive Sourcing where
  | user
  | seed
  | supplier
  deriving Repr, DecidableEq

/-- A confidence in basis points. -/
structure Score where
  basisPoints : Nat
  legal : basisPoints ≤ 10000
  deriving DecidableEq

abbrev SeedSet := CheckedString "seed_set" validateKey

structure SeedRef where
  set : SeedSet
  version : Nat
  deriving Repr, DecidableEq

inductive EvidenceKind where
  | sourceSpan
  | spanVerified
  | modelScore
  | ruleMatch
  | userStatement
  | corroboration
  | reviewApproval
  | operatorSeed
  deriving Repr, DecidableEq

/-- What supports a proposal. -/
inductive Evidence where
  | sourceSpan (span : SourceSpan)
  | spanVerified (span : SourceSpan) (method : ExtractorVersion)
  | modelScore (model : ExtractorVersion) (score : Score) (label : String)
  | ruleMatch (rule : ExtractorVersion)
  | userStatement (by' : Sub) (authority : AuthorityLevel)
  | corroboration (claims : List ClaimId)
  | reviewApproval (by' : Sub) (decision : DecisionRef)
  | operatorSeed (by' : Sub) (seed : SeedRef)
  deriving DecidableEq

namespace Evidence

def kind : Evidence → EvidenceKind
  | .sourceSpan _ => .sourceSpan
  | .spanVerified _ _ => .spanVerified
  | .modelScore _ _ _ => .modelScore
  | .ruleMatch _ => .ruleMatch
  | .userStatement _ _ => .userStatement
  | .corroboration _ => .corroboration
  | .reviewApproval _ _ => .reviewApproval
  | .operatorSeed _ _ => .operatorSeed

def span : Evidence → Option SourceSpan
  | .sourceSpan span => some span
  | .spanVerified span _ => some span
  | _ => none

end Evidence

/-- A relation a proposal asks for, from its claim to an existing claim. -/
structure ProposedRelation where
  kind : RelationKind
  target : ClaimId
  deriving Repr, DecidableEq

/-- A claim some actor suggests, with its evidence. -/
structure ClaimProposal where
  id : ProposalId
  claim : Claim
  proposer : Actor
  evidence : List Evidence
  relations : List ProposedRelation
  proposedAt : UnixSeconds
  deriving DecidableEq

/-! ### Sample values

The smallest legal records, for evaluating definitions on. -/

namespace Sample

def firstId : ClaimId := ⟨1,by decide⟩
def secondId : ClaimId := ⟨2,by decide⟩
def thirdId : ClaimId := ⟨3,by decide⟩

theorem second_ne_first : secondId ≠ firstId := by decide

def scope : Scope := ⟨⟨"alice"⟩,.personal⟩

def subject : SubjectRef := ⟨⟨"travel",by decide⟩,⟨"segment",by decide⟩,⟨"s1",by decide⟩⟩

def predicate : PredicateRef := ⟨⟨"travel",by decide⟩,⟨"seat",by decide⟩,1⟩

def provenance : Provenance := ⟨⟨⟨"mail",by decide⟩,none,none⟩,10,11,[],none,none,[]⟩

def actor : Actor := ⟨.human,⟨"alice",by decide⟩,none⟩

def claim (id : ClaimId) (value : String) : Claim where
  id := id
  scope := scope
  subject := subject
  predicate := predicate
  value := .text value
  slot := none
  epistemic := ⟨.asserted,none,by decide⟩
  provenance := provenance
  schemaVersion := 1

end Sample

end Aicortex.Claims
