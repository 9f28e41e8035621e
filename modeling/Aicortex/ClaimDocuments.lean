import Aicortex.ClaimWire
import Aicortex.History

/-!
The documents the claim tables keep beside their columns: a claim's valid time and
admission reference, its relations and the retractions of it. Each is written whole and
checked when it is taken back; only an interval or a span inside one can keep it from
being read.
-/

namespace Aicortex.ClaimDocuments
open Aicortex.Text Aicortex.CivilTime Aicortex.Claims Aicortex.History Aicortex.Wire Aicortex.ClaimWire
open Lib.Outcome Lib.Wire
set_option linter.unusedSimpArgs false

/-! ### Valid times -/

def ValidTimeMode.label : ValidTimeMode → String
  | .explicit => "explicit"
  | .fromSourceTime => "from_source_time"
  | .timeless => "timeless"

def validTimeMode : Form ValidTimeMode :=
  vocabulary "kind" [.explicit,.fromSourceTime,.timeless] ValidTimeMode.label

theorem validTimeMode_keeps (value : ValidTimeMode) : validTimeMode.Keeps value :=
  vocabulary_keeps (by rintro ⟨⟩ <;> simp) (by rintro ⟨⟩ ⟨⟩ same <;> simp_all [ValidTimeMode.label]) value

def modeOf : ValidTime → ValidTimeMode
  | .explicit _ => .explicit
  | .fromSourceTime => .fromSourceTime
  | .timeless => .timeless

def intervalOf : ValidTime → Option Interval
  | .explicit interval => some interval
  | .fromSourceTime | .timeless => none

/-- A case without an interval takes none. -/
def bare (valid : ValidTime) (fields : List (String × Tree)) : Except (Refusal TypeError) ValidTime :=
  match fields.lookup "interval" with
  | none | some .null => .ok valid
  | some _ => .error (.unexpected "no interval")

/-- Tagged with its kind; the interval is the content of the one kind that has one. -/
def validTime : Form ValidTime := openRecord ["kind","interval"]
  (fun valid => [put "kind" validTimeMode (modeOf valid),putSome "interval" interval (intervalOf valid)])
  (fun fields => do
    let mode ← required "kind" validTimeMode fields
    match mode with
    | .explicit => do
      let interval ← required "interval" interval fields
      .ok (.explicit interval)
    | .fromSourceTime => bare .fromSourceTime fields
    | .timeless => bare .timeless fields)

def ValidTimeReadable (valid : ValidTime) : Prop := ∀ interval ∈ intervalOf valid, IntervalReadable interval

theorem validTime_read (valid : ValidTime) : validTime.decode (validTime.encode valid) =
    match valid with
    | .explicit span => interval.decode (interval.encode span) >>= fun read => .ok (.explicit read)
    | .fromSourceTime => .ok .fromSourceTime
    | .timeless => .ok .timeless := by
  have mode := (required_present (by simp)
    (by simp : put "kind" validTimeMode (modeOf valid) ∈ [put "kind" validTimeMode (modeOf valid),
      putSome "interval" interval (intervalOf valid)])).mpr (validTimeMode_keeps (modeOf valid))
  simp only [validTime,openRecord]
  rw [openFields_present (by simp),ok_bind,mode,ok_bind]
  cases valid <;> rfl

/-- What is written of a valid time is read as it, when its interval is kept. -/
theorem validTime_read_iff {valid other : ValidTime} :
    validTime.decode (validTime.encode valid) = .ok other ↔ other = valid ∧ ValidTimeReadable valid := by
  rw [validTime_read]
  cases valid with
  | fromSourceTime => simp [ValidTimeReadable,intervalOf,eq_comm]
  | timeless => simp [ValidTimeReadable,intervalOf,eq_comm]
  | explicit span =>
    simp only [bind_ok_iff,interval_faithful.read_iff,interval_keeps_iff,ValidTimeReadable,intervalOf]
    constructor
    · rintro ⟨read,⟨rfl,kept⟩,taken⟩
      cases taken
      refine ⟨rfl,fun interval stated => ?_⟩
      cases stated
      exact kept
    · rintro ⟨rfl,kept⟩
      exact ⟨span,⟨rfl,kept span rfl⟩,rfl⟩

/-! ### Admission references -/

def Sourcing.label : Sourcing → String
  | .user => "user"
  | .seed => "seed"
  | .supplier => "supplier"

def sourcing : Form Sourcing := vocabulary "sourcing" [.user,.seed,.supplier] Sourcing.label

theorem sourcing_keeps (value : Sourcing) : sourcing.Keeps value :=
  vocabulary_keeps (by rintro ⟨⟩ <;> simp) (by rintro ⟨⟩ ⟨⟩ same <;> simp_all [Sourcing.label]) value

section
variable (foreign : Foreign)

def admissionRef : Form AdmissionRef := strictRecord ["proposal","policy_id","policy_version","sourcing"]
  (fun admission => [put "proposal" (foreign.uuid .proposal) admission.proposal,
    put "policy_id" string admission.policyId,put "policy_version" uint32 admission.policyVersion,
    put "sourcing" sourcing admission.sourcing])
  (fun fields => do
    let proposal ← required "proposal" (foreign.uuid .proposal) fields
    let policyId ← required "policy_id" string fields
    let policyVersion ← required "policy_version" uint32 fields
    let sourcing ← required "sourcing" sourcing fields
    .ok ⟨proposal,policyId,policyVersion,sourcing⟩)

def AdmissionSized (admission : AdmissionRef) : Prop := admission.policyVersion < 2 ^ 32

theorem admissionRef_keeps {admission : AdmissionRef} (sized : AdmissionSized admission) :
    (admissionRef foreign).Keeps admission := by
  have version : uint32.Keeps admission.policyVersion := nat_keeps_iff.mpr (Nat.le_sub_one_of_lt sized)
  obtain ⟨proposal,policyId,policyVersion,sourced⟩ := admission
  refine (strictRecord_keeps_iff (by simp) (by rfl)).mpr ?_
  simp only [bind_ok_iff,Except.ok.injEq,AdmissionRef.mk.injEq,existsAndEq,and_true]
  rw [required_present (by simp) (by simp),required_present (by simp) (by simp),required_present (by simp) (by simp),
    required_present (by simp) (by simp)]
  exact ⟨foreign.uuid_keeps .proposal proposal,text_keeps policyId,version,sourcing_keeps sourced⟩

/-! ### Relations -/

def RelationKind.label : RelationKind → String
  | .supersedes => "supersedes"
  | .contradicts => "contradicts"
  | .derivedFrom => "derived_from"

def relationKind : Form RelationKind := vocabulary "relation" [.supersedes,.contradicts,.derivedFrom] RelationKind.label

theorem relationKind_keeps (value : RelationKind) : relationKind.Keeps value :=
  vocabulary_keeps (by rintro ⟨⟩ <;> simp) (by rintro ⟨⟩ ⟨⟩ same <;> simp_all [RelationKind.label]) value

inductive TargetKind where
  | claim
  | memory
  deriving DecidableEq

def TargetKind.label : TargetKind → String
  | .claim => "claim"
  | .memory => "memory"

def targetKind : Form TargetKind := vocabulary "target" [.claim,.memory] TargetKind.label

theorem targetKind_keeps (value : TargetKind) : targetKind.Keeps value :=
  vocabulary_keeps (by rintro ⟨⟩ <;> simp) (by rintro ⟨⟩ ⟨⟩ same <;> simp_all [TargetKind.label]) value

def targetEntries : RelationTarget → List (String × Option Tree)
  | .claim id => [put "kind" targetKind .claim,put "id" (foreign.uuid .claim) id]
  | .memory id => [put "kind" targetKind .memory,put "id" (foreign.uuid .memory) id]

/-- A kind and an id, which is taken as one of that kind. -/
def relationTarget : Form RelationTarget := strictRecord ["kind","id"] (targetEntries foreign)
  (fun fields => do
    let kind ← required "kind" targetKind fields
    match kind with
    | .claim => do
      let id ← required "id" (foreign.uuid .claim) fields
      .ok (.claim id)
    | .memory => do
      let id ← required "id" (foreign.uuid .memory) fields
      .ok (.memory id))

theorem relationTarget_keeps (target : RelationTarget) : (relationTarget foreign).Keeps target := by
  cases target with
  | claim id =>
    refine (strictRecord_keeps_iff (by simp) (by rfl)).mpr ?_
    refine bind_ok_iff.mpr ⟨.claim,(required_present (by simp [targetEntries]) (by simp [targetEntries])).mpr
      (targetKind_keeps .claim),bind_ok_iff.mpr ⟨id,?_,rfl⟩⟩
    exact (required_present (by simp [targetEntries]) (by simp [targetEntries])).mpr (foreign.uuid_keeps .claim id)
  | memory id =>
    refine (strictRecord_keeps_iff (by simp) (by rfl)).mpr ?_
    refine bind_ok_iff.mpr ⟨.memory,(required_present (by simp [targetEntries]) (by simp [targetEntries])).mpr
      (targetKind_keeps .memory),bind_ok_iff.mpr ⟨id,?_,rfl⟩⟩
    exact (required_present (by simp [targetEntries]) (by simp [targetEntries])).mpr (foreign.uuid_keeps .memory id)

structure RawRelation where
  source : ClaimId
  kind : RelationKind
  target : RelationTarget
  provenance : Provenance

def rawRelation : Form RawRelation := strictRecord ["from","kind","to","provenance"]
  (fun raw => [put "from" (foreign.uuid .claim) raw.source,put "kind" relationKind raw.kind,
    put "to" (relationTarget foreign) raw.target,put "provenance" (provenance foreign) raw.provenance])
  (fun fields => do
    let source ← required "from" (foreign.uuid .claim) fields
    let kind ← required "kind" relationKind fields
    let target ← required "to" (relationTarget foreign) fields
    let provenance ← required "provenance" (provenance foreign) fields
    .ok ⟨source,kind,target,provenance⟩)

def RawRelation.of (relation : ClaimRelation) : RawRelation :=
  ⟨relation.source,relation.kind,relation.target,relation.provenance⟩

/-- Relate a claim to what the kind may point at. -/
def RawRelation.tryInto (raw : RawRelation) : Except TypeError ClaimRelation :=
  if legal : legalRelation raw.source raw.kind raw.target = true then
    .ok ⟨raw.source,raw.kind,raw.target,raw.provenance,legal⟩
  else
    match raw.target with
    | .memory _ =>
      .error (.invalid "target" [.lit s!"a memory can be the target of derived_from only, not {RelationKind.label raw.kind}"])
    | .claim _ => .error (.invalid "target" [.lit "a claim is related to itself"])

def claimRelation : Form ClaimRelation := (rawRelation foreign).via RawRelation.of RawRelation.tryInto

theorem RawRelation.tryInto_of (relation : ClaimRelation) : (RawRelation.of relation).tryInto = .ok relation := by
  unfold RawRelation.tryInto
  exact dif_pos relation.legal

theorem claimRelation_faithful : (claimRelation foreign).Faithful := by
  refine via_faithful (strictRecord_faithful (by simp) (fun _ => rfl) fun raw other taken => ?_) fun relation other taken => ?_
  · obtain ⟨source,readSource,taken⟩ := bind_ok_iff.mp taken
    obtain ⟨kind,readKind,taken⟩ := bind_ok_iff.mp taken
    obtain ⟨target,readTarget,taken⟩ := bind_ok_iff.mp taken
    obtain ⟨origin,readProvenance,taken⟩ := bind_ok_iff.mp taken
    cases taken
    rw [required_own raw.source (by simp) (Codec.faithful_of_keeps (foreign.uuid_keeps .claim)) (by simp) readSource,
      required_own raw.kind (by simp) (Codec.faithful_of_keeps relationKind_keeps) (by simp) readKind,
      required_own raw.target (by simp) (Codec.faithful_of_keeps (relationTarget_keeps foreign)) (by simp) readTarget,
      required_own raw.provenance (by simp) (provenance_faithful foreign) (by simp) readProvenance]
  · rw [RawRelation.tryInto_of] at taken
    exact (Except.ok.inj taken).symm

theorem claimRelation_keeps_iff {relation : ClaimRelation} (sized : ProvenanceSized relation.provenance) :
    (claimRelation foreign).Keeps relation ↔ ProvenanceReadable relation.provenance := by
  have accepted (raw : RawRelation) (value : ClaimRelation) (taken : raw.tryInto = .ok value) :
      RawRelation.of value = raw := by
    unfold RawRelation.tryInto at taken
    split at taken
    · cases taken
      rfl
    · split at taken <;> cases taken
  rw [claimRelation,via_keeps_iff accepted,and_iff_left (RawRelation.tryInto_of relation)]
  refine (strictRecord_keeps_iff (by simp) (by rfl)).trans ?_
  simp only [bind_ok_iff,Except.ok.injEq,existsAndEq,and_true,RawRelation.of,RawRelation.mk.injEq]
  rw [required_present (by simp) (by simp),required_present (by simp) (by simp),required_present (by simp) (by simp),
    required_present (by simp) (by simp)]
  simp only [foreign.uuid_keeps,relationKind_keeps,relationTarget_keeps,provenance_keeps_iff foreign sized,true_and]

/-! ### Retractions -/

def agentOrigin : Form AgentOrigin := openRecord ["client","model"]
  (fun origin => [putSome "client" string origin.client,putSome "model" string origin.model])
  (fun fields => do
    let client ← optional "client" string fields
    let model ← optional "model" string fields
    .ok ⟨client,model⟩)

theorem agentOrigin_written : agentOrigin.Written := openRecord_written

theorem agentOrigin_keeps (origin : AgentOrigin) : agentOrigin.Keeps origin := by
  obtain ⟨client,model⟩ := origin
  refine (openRecord_keeps_iff (by simp) (by rfl)).mpr ?_
  simp only [bind_ok_iff,Except.ok.injEq,AgentOrigin.mk.injEq,existsAndEq,and_true]
  rw [optional_present (by simp) string_written (by simp),optional_present (by simp) string_written (by simp)]
  exact ⟨fun stated _ => text_keeps stated,fun stated _ => text_keeps stated⟩

def ActorKind.label : ActorKind → String
  | .human => "human"
  | .agent _ => "agent"
  | .system => "system"
  | .imported => "import"

/-- Where an agent ran, when anything is known of it. -/
def originOf : ActorKind → Option AgentOrigin
  | .agent origin => if origin.client.isNone && origin.model.isNone then none else some origin
  | .human | .system | .imported => none

def actorKind (kind : String) (origin : Option AgentOrigin) : Except (Refusal TypeError) ActorKind :=
  if kind = "human" then .ok .human
  else if kind = "agent" then .ok (.agent (origin.getD ⟨none,none⟩))
  else if kind = "system" then .ok .system
  else if kind = "import" then .ok .imported
  else .error (.refused (.unknownVariant "actor.kind" kind ["human","agent","system","import"]))

def actor : Form Actor := openRecord ["kind","origin","id","label"]
  (fun actor => [put "kind" string (ActorKind.label actor.kind),putSome "origin" agentOrigin (originOf actor.kind),
    put "id" (checked "actor.id" validateKey) actor.id,putSome "label" string actor.label])
  (fun fields => do
    let kind ← required "kind" string fields
    let origin ← optional "origin" agentOrigin fields
    let id ← required "id" (checked "actor.id" validateKey) fields
    let label ← optional "label" string fields
    let kind ← actorKind kind origin
    .ok ⟨kind,id,label⟩)

theorem actorKind_label (kind : ActorKind) : actorKind (ActorKind.label kind) (originOf kind) = .ok kind := by
  cases kind with
  | agent origin =>
    obtain ⟨client,model⟩ := origin
    cases client <;> cases model <;> rfl
  | human => rfl
  | system => rfl
  | imported => rfl

theorem actor_keeps (value : Actor) : actor.Keeps value := by
  obtain ⟨kind,id,label⟩ := value
  refine (openRecord_keeps_iff (by simp) (by rfl)).mpr ?_
  refine bind_ok_iff.mpr ⟨_,(required_present (by simp) (by simp)).mpr (text_keeps (ActorKind.label kind)),?_⟩
  refine bind_ok_iff.mpr ⟨originOf kind,
    (optional_present (by simp) agentOrigin_written (by simp)).mpr fun origin _ => agentOrigin_keeps origin,?_⟩
  refine bind_ok_iff.mpr ⟨id,(required_present (by simp) (by simp)).mpr (checked_keeps id),?_⟩
  refine bind_ok_iff.mpr ⟨label,(optional_present (by simp) string_written (by simp)).mpr fun stated _ => text_keeps stated,?_⟩
  rw [actorKind_label,ok_bind]

def txStamp : Form TxStamp := strictRecord ["seq","recorded_at"]
  (fun tx => [put "seq" uint64 tx.seq,put "recorded_at" foreign.seconds tx.recordedAt])
  (fun fields => do
    let seq ← required "seq" uint64 fields
    let recordedAt ← required "recorded_at" foreign.seconds fields
    .ok ⟨seq,recordedAt⟩)

theorem txStamp_keeps {tx : TxStamp} (sized : tx.seq < 2 ^ 64) : (txStamp foreign).Keeps tx := by
  have number : uint64.Keeps tx.seq := nat_keeps_iff.mpr (Nat.le_sub_one_of_lt sized)
  obtain ⟨seq,recordedAt⟩ := tx
  refine (strictRecord_keeps_iff (by simp) (by rfl)).mpr ?_
  simp only [bind_ok_iff,Except.ok.injEq,TxStamp.mk.injEq,existsAndEq,and_true]
  rw [required_present (by simp) (by simp),required_present (by simp) (by simp)]
  exact ⟨number,foreign.seconds_keeps recordedAt⟩

def retraction : Form Retraction := strictRecord ["target","reason","by","provenance","tx"]
  (fun retraction => [put "target" (foreign.uuid .claim) retraction.target,put "reason" string retraction.reason,
    put "by" actor retraction.actor,put "provenance" (provenance foreign) retraction.provenance,
    put "tx" (txStamp foreign) retraction.tx])
  (fun fields => do
    let target ← required "target" (foreign.uuid .claim) fields
    let reason ← required "reason" string fields
    let actor ← required "by" actor fields
    let provenance ← required "provenance" (provenance foreign) fields
    let tx ← required "tx" (txStamp foreign) fields
    .ok ⟨target,reason,actor,provenance,tx⟩)

structure RetractionSized (retraction : Retraction) : Prop where
  provenance : ProvenanceSized retraction.provenance
  tx : retraction.tx.seq < 2 ^ 64

theorem txStamp_faithful : (txStamp foreign).Faithful := by
  refine strictRecord_faithful (by simp) (fun _ => rfl) fun tx other taken => ?_
  obtain ⟨seq,readSeq,taken⟩ := bind_ok_iff.mp taken
  obtain ⟨recordedAt,readAt,taken⟩ := bind_ok_iff.mp taken
  cases taken
  rw [required_own tx.seq (by simp) uint64_faithful (by simp) readSeq,
    required_own tx.recordedAt (by simp) (Codec.faithful_of_keeps foreign.seconds_keeps) (by simp) readAt]

theorem retraction_faithful : (retraction foreign).Faithful := by
  refine strictRecord_faithful (by simp) (fun _ => rfl) fun value other taken => ?_
  obtain ⟨target,readTarget,taken⟩ := bind_ok_iff.mp taken
  obtain ⟨reason,readReason,taken⟩ := bind_ok_iff.mp taken
  obtain ⟨who,readActor,taken⟩ := bind_ok_iff.mp taken
  obtain ⟨origin,readProvenance,taken⟩ := bind_ok_iff.mp taken
  obtain ⟨tx,readTx,taken⟩ := bind_ok_iff.mp taken
  cases taken
  rw [required_own value.target (by simp) (Codec.faithful_of_keeps (foreign.uuid_keeps .claim)) (by simp) readTarget,
    required_own value.reason (by simp) string_faithful (by simp) readReason,
    required_own value.actor (by simp) (Codec.faithful_of_keeps actor_keeps) (by simp) readActor,
    required_own value.provenance (by simp) (provenance_faithful foreign) (by simp) readProvenance,
    required_own value.tx (by simp) (txStamp_faithful foreign) (by simp) readTx]

theorem retraction_keeps_iff {value : Retraction} (sized : RetractionSized value) :
    (retraction foreign).Keeps value ↔ ProvenanceReadable value.provenance := by
  have keptOrigin := provenance_keeps_iff foreign sized.provenance
  have keptTx := txStamp_keeps foreign sized.tx
  obtain ⟨target,reason,who,origin,tx⟩ := value
  refine (strictRecord_keeps_iff (by simp) (by rfl)).trans ?_
  simp only [bind_ok_iff,Except.ok.injEq,Retraction.mk.injEq,existsAndEq,and_true]
  rw [required_present (by simp) (by simp),required_present (by simp) (by simp),required_present (by simp) (by simp),
    required_present (by simp) (by simp),required_present (by simp) (by simp)]
  have keptReason : string.Keeps reason := text_keeps reason
  simp only [foreign.uuid_keeps,keptReason,actor_keeps,keptOrigin,keptTx,true_and,and_true]

end

end Aicortex.ClaimDocuments
