import Aicortex.ClaimAdmission

/-!
Credentials in admitted claims. The detectors read four strings of a claim as they
were written. What they miss is the key of an entity reference, which is not one of
the four, and a credential that only shows once the invisible characters in it are
removed.
-/

namespace Aicortex.HiddenSecrets
open Aicortex.Text Aicortex.CaptureGate Aicortex.ClaimGate Aicortex.ClaimAdmission Aicortex.Registry
open Aicortex.Memories Lib.Ordered
open Aicortex.Claims hiding Unit
set_option linter.unusedSimpArgs false

/-! ### The strings of a claim -/

/-- The strings the detectors read. -/
def scannedTexts (claim : Claim) : List String := (scannedFields claim).filterMap (·.2)

/-- The key of the subject a claim refers to by its value. -/
def referenceKey (claim : Claim) : Option String :=
  match claim.value with
  | .entityRef subject => some subject.key.text
  | _ => none

/-- The free strings of a claim's content. -/
def freeStrings (claim : Claim) : List String := scannedTexts claim ++ (referenceKey claim).toList

section
variable {SecretRules : Type} (linked : Linked SecretRules) (secrets : SecretRules)

/-- A detector finds something in the text. -/
def Found (text : String) : Prop := linked.scan text secrets ≠ none

/-- A detector finds something in the text as a reader sees it. -/
def Shown (text : String) : Prop := Found linked secrets (normalizeText linked.nfc text)

/-- The detectors find nothing where they look, and would find something in the key of
    the entity reference or in a string that is normalized first. -/
def Hides (claim : Claim) : Prop :=
  (∀ text ∈ scannedTexts claim, ¬ Found linked secrets text) ∧
    ((∃ key ∈ referenceKey claim, Shown linked secrets key) ∨ ∃ text ∈ scannedTexts claim, Shown linked secrets text)

variable {linked secrets}

theorem claimSecret_none_iff {claim : Claim} :
    claimSecret linked secrets claim = none ↔ ∀ text ∈ scannedTexts claim, ¬ Found linked secrets text := by
  simp only [claimSecret,List.findSome?_eq_none_iff,scannedTexts,List.mem_filterMap,Found,not_not,Option.map_eq_none_iff,
    Option.bind_eq_none_iff]
  constructor
  · rintro quiet text ⟨field,inside,stated⟩
    exact quiet field inside text stated
  · intro quiet field inside text stated
    exact quiet text ⟨field,inside,stated⟩

theorem hides_iff {claim : Claim} :
    Hides linked secrets claim ↔ claimSecret linked secrets claim = none ∧ ∃ text ∈ freeStrings claim, Shown linked secrets text := by
  rw [claimSecret_none_iff,Hides,freeStrings]
  refine and_congr_right fun _ => ?_
  simp only [List.mem_append,Option.mem_toList,or_and_right,exists_or]
  exact or_comm

end

/-! ### A proposal that is admitted for any valid claim -/

/-- A context in which the given sources are available. -/
def holding (sources : List MemoryId) : ClaimContext :=
  ⟨sources.foldl (fun known source => known.insert source .available) .empty,.empty⟩

theorem holding_available {sources : List MemoryId} : ∀ source ∈ sources, (holding sources).sources.find? source = some .available := by
  have kept : ∀ (sources : List MemoryId) (known : OrdMap MemoryId SourceState) (source : MemoryId),
      source ∈ sources ∨ known.find? source = some .available →
        (sources.foldl (fun known source => known.insert source .available) known).find? source = some .available := by
    intro sources
    induction sources with
    | nil =>
      rintro known source (member | found)
      · cases member
      · exact found
    | cons first rest ih =>
      intro known source member
      refine ih _ source ?_
      rw [OrdMap.find?_insert]
      by_cases same : source = first
      · exact .inr (by simp [same])
      · rcases member with member | found
        · exact .inl ((List.mem_cons.mp member).resolve_left same)
        · exact .inr (by simp [same,found])
  exact fun source member => kept sources _ source (.inl member)

theorem decision_legal : (validateKey "decision" "d1").isOk = true := by decide

/-- A claim that a rule extracted and the operator approved, and that relates to nothing. -/
def approved (claim : Claim) : ClaimProposal where
  id := ClaimGate.Sample.proposalId
  claim := claim
  proposer := Claims.Sample.actor
  evidence := [.ruleMatch ⟨"extractor","1"⟩,.reviewApproval ⟨"alice"⟩ ⟨"d1",decision_legal⟩]
  relations := []
  proposedAt := 10

section
variable {SecretRules : Type} {linked : Linked SecretRules}

theorem approved_admitted (lawful : linked.closed.Lawful) (rules : RuleSet SecretRules) (registry : RegistrySnapshot)
    {claim : Claim} {valid : ValidClaim} (validates : validate linked.isNfc claim registry = .ok valid)
    (unseen : claimSecret linked rules.secrets claim = none) :
    ∃ admitted, evaluateClaim linked rules (approved claim) registry ClaimGate.Sample.policy
      (holding (citedSources (approved claim))) = .admitted admitted := by
  refine ⟨_,(admits_iff lawful rfl).mpr ⟨⟨⟨valid,validates⟩,unseen,by simp [approved],?_,.inl rfl,rfl,?_⟩,
    .extracted,⟨[],[],false⟩,rfl,rfl,by simp,rfl,rfl⟩⟩
  · rw [unavailableSource,List.find?_eq_none]
    intro source cited
    simp [holding_available source cited]
  · intro statement stated
    have none' : userStatements (approved claim) = [] := rfl
    simp [none'] at stated

/-- The claim an admitted proposal is stored as, and that it passed the detectors. -/
theorem admitted_unseen (lawful : linked.closed.Lawful) {rules : RuleSet SecretRules} {proposal : ClaimProposal}
    {registry : RegistrySnapshot} {policy : AdmissionPolicy} {context : ClaimContext} {admitted : AdmittedClaim}
    (accepted : evaluateClaim linked rules proposal registry policy context = .admitted admitted) :
    admitted.claim = proposal.claim ∧ (∃ valid, validate linked.isNfc proposal.claim registry = .ok valid) ∧
      claimSecret linked rules.secrets proposal.claim = none := by
  obtain ⟨clean,authority,related,-,-,-,-,rfl⟩ := (admits_iff lawful rfl).mp accepted
  exact ⟨rfl,clean.valid,clean.secretFree⟩

end

/-- Whatever the proposals of a claim are admitted on, a reader of the claim sees no
    credential in its strings. -/
def NeverShown {SecretRules : Type} (linked : Linked SecretRules) (rules : RuleSet SecretRules) (registry : RegistrySnapshot)
    (claim : Claim) : Prop :=
  ∀ proposal policy context admitted, proposal.claim = claim →
    evaluateClaim linked rules proposal registry policy context = .admitted admitted →
      ∀ text ∈ freeStrings admitted.claim, ¬ Shown linked rules.secrets text

theorem neverShown_iff {SecretRules : Type} (linked : Linked SecretRules) (lawful : linked.closed.Lawful)
    (rules : RuleSet SecretRules) (registry : RegistrySnapshot) (claim : Claim) :
    NeverShown linked rules registry claim ↔
      ¬ ((∃ valid, validate linked.isNfc claim registry = .ok valid) ∧ Hides linked rules.secrets claim) := by
  rw [hides_iff]
  constructor
  · rintro never ⟨⟨valid,validates⟩,unseen,text,inside,shown⟩
    obtain ⟨admitted,accepted⟩ := approved_admitted lawful rules registry validates unseen
    obtain ⟨claimIs,-⟩ := admitted_unseen lawful accepted
    exact never _ _ _ admitted rfl accepted text (claimIs ▸ inside) shown
  · rintro open' proposal policy context admitted rfl accepted text inside shown
    obtain ⟨claimIs,valid,unseen⟩ := admitted_unseen lawful accepted
    exact open' ⟨valid,unseen,text,claimIs ▸ inside,shown⟩

namespace Sample
open Claims.Sample Registry.Sample CaptureGate.Sample ClaimGate.Sample

/-- A token of the shape the detector knows. -/
def token : String := "ghp_" ++ String.ofList (List.replicate 36 'a')

/-- The token with a zero-width space in it. -/
def spacedToken : String := "ghp_" ++ String.ofList [Char.ofNat 0x200B] ++ String.ofList (List.replicate 36 'a')

/-- A predicate whose value is another subject of the vocabulary. -/
def neighbour : PredicateDef := { seat with value := ⟨.entityRef,[],[],by decide⟩ }

theorem neighbour_once : ([neighbour].map PredicateDef.name).Nodup := List.nodup_singleton _

theorem neighbour_declared : ∀ def' ∈ [neighbour], ∀ kind ∈ def'.subjects, kind ∈ travel.subjectKinds := by
  simp [neighbour,seat,travel]

def neighbours : RegistrySnapshot :=
  ⟨OrdMap.empty.insert (toLex (predicate.namespace,1))
    { travel with predicates := [neighbour], namesLegal := neighbour_once, declared := neighbour_declared }⟩

/-- The owner's own statement that the seat is next to the subject of the given key. -/
def nextTo (key : SubjectKey) : ClaimProposal :=
  { ownStatement with claim := { claim firstId "" with value := .entityRef { subject with key := key } } }

theorem spaced_shown : Shown linked rules.secrets spacedToken := by
  unfold Shown Found
  decide +kernel

theorem token_shown : Shown linked rules.secrets token := by
  unfold Shown Found
  decide +kernel

/-- A token with an invisible character in it is admitted as a value, and a plain one as
    the key of a subject that a value refers to. -/
theorem hidden_tokens_admitted :
    (∃ admitted, evaluateClaim linked rules { ownStatement with claim := claim firstId spacedToken } registry policy context =
        .admitted admitted ∧ spacedToken ∈ freeStrings admitted.claim ∧ Shown linked rules.secrets spacedToken) ∧
      ∃ admitted, evaluateClaim linked rules (nextTo ⟨token,by decide +kernel⟩) neighbours policy context = .admitted admitted ∧
        token ∈ freeStrings admitted.claim ∧ Shown linked rules.secrets token := by
  refine ⟨⟨_,rfl,by decide +kernel,spaced_shown⟩,_,rfl,by decide +kernel,token_shown⟩

/-- A seat is no credential however it is read; a token with an invisible character in it
    is a legal value that hides one. -/
theorem neverShown_iff_seat :
    linked.closed.Lawful ∧ NeverShown linked rules registry (claim firstId "12A") ∧
      ¬ NeverShown linked rules registry (claim firstId spacedToken) := by
  have lawful := Walk.Sample.closedGate_lawful
  refine ⟨lawful,(neverShown_iff linked lawful rules registry _).mpr ?_,fun never =>
    (neverShown_iff linked lawful rules registry _).mp never ⟨⟨_,rfl⟩,?_⟩⟩
  · rintro ⟨-,hides⟩
    obtain ⟨-,text,inside,shown⟩ := hides_iff.mp hides
    revert text
    unfold Shown Found
    decide +kernel
  · exact hides_iff.mpr ⟨by decide +kernel,spacedToken,by decide +kernel,spaced_shown⟩

end Sample

end Aicortex.HiddenSecrets
