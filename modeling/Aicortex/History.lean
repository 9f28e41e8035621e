import Aicortex.Claims
import Mathlib.Order.WithBot

/-!
Append-only claim history for one bounded read. The three appends refuse a
duplicate claim, a reused transaction sequence, an unknown endpoint and a
supersession across slots; nothing already appended is ever rewritten.
-/

namespace Aicortex.History
open Aicortex.Text Aicortex.CivilTime Aicortex.Claims Lib.Ordered
set_option linter.unusedSimpArgs false

/-- Transaction time assigned by the store. -/
structure TxStamp where
  seq : Nat
  recordedAt : UnixSeconds
  deriving Repr, DecidableEq

/-- Where a predicate's claims take their valid time from. -/
inductive ValidTimeMode where
  | explicit
  | fromSourceTime
  | timeless
  deriving Repr, DecidableEq

/-- How claims in one slot supersede each other. -/
inductive SupersessionRule where
  | bySourceOrder
  | explicitOnly
  | accumulate
  deriving Repr, DecidableEq

inductive ValidTime where
  | explicit (interval : Interval)
  | fromSourceTime
  | timeless
  deriving DecidableEq

def ValidTime.agrees : ValidTime → ValidTimeMode → Bool
  | .explicit _, .explicit => true
  | .fromSourceTime, .fromSourceTime => true
  | .timeless, .timeless => true
  | _, _ => false

structure AdmissionRef where
  proposal : ProposalId
  policyId : String
  policyVersion : Nat
  sourcing : Sourcing
  deriving Repr, DecidableEq

/-- One admitted claim and the three time axes needed to project it. -/
structure ClaimRecord where
  claim : Claim
  valid : ValidTime
  sourceTime : Option TimePoint
  sourceSeq : Option Nat
  tx : TxStamp
  authority : AuthorityLevel
  admission : AdmissionRef
  supersession : SupersessionRule
  hostileContent : Bool
  originErased : Bool
  deriving DecidableEq

/-- A stable slot identity; it includes scope and subject. -/
structure SlotId where
  scope : String
  subjectNamespace : String
  subjectKind : String
  subjectKey : String
  predicate : PredicateRef
  slot : Option SlotKey
  deriving DecidableEq

namespace SlotId

def ofClaim (claim : Claim) : SlotId where
  scope := claim.scope.display
  subjectNamespace := claim.subject.namespace.text
  subjectKind := claim.subject.kind.text
  subjectKey := claim.subject.key.text
  predicate := claim.predicate
  slot := claim.slot

/-- The derived field order; an absent slot key is least. -/
def order (slot : SlotId) : String ×ₗ String ×ₗ String ×ₗ String ×ₗ PredicateRef ×ₗ WithBot SlotKey :=
  toLex (slot.scope,toLex (slot.subjectNamespace,toLex (slot.subjectKind,toLex (slot.subjectKey,
    toLex (slot.predicate,(slot.slot : WithBot SlotKey))))))

theorem order_injective : Function.Injective order := by
  rintro ⟨_,_,_,_,_,_⟩ ⟨_,_,_,_,_,_⟩ same
  simp only [order,toLex_inj,Prod.mk.injEq] at same
  obtain ⟨rfl,rfl,rfl,rfl,rfl,rfl⟩ := same
  rfl

instance : LinearOrder SlotId := LinearOrder.lift' order order_injective

end SlotId

def ClaimRecord.slotId (record : ClaimRecord) : SlotId := SlotId.ofClaim record.claim

structure HistoryRelation where
  relation : ClaimRelation
  authority : AuthorityLevel
  tx : TxStamp
  deriving DecidableEq

structure Retraction where
  target : ClaimId
  reason : String
  actor : Actor
  provenance : Provenance
  tx : TxStamp
  deriving DecidableEq

/-- Refusals while building an in-memory history. -/
inductive HistoryError where
  | duplicateClaim (id : ClaimId)
  | unknownClaim (id : ClaimId)
  | crossSlotSupersession
  | duplicateTx (seq : Nat)
  | invalidValidTime (id : ClaimId)
  deriving Repr, DecidableEq

def HistoryError.display : HistoryError → String
  | .duplicateClaim id => s!"claim {id} is already in history"
  | .unknownClaim id => s!"claim {id} is not in history"
  | .crossSlotSupersession => "supersession cannot cross slots"
  | .duplicateTx seq => s!"transaction sequence {seq} is already used"
  | .invalidValidTime id => s!"claim {id} has invalid valid time"

/-- The time representation must match the registered mode, and a source-time mode
    needs a source time. -/
def ClaimRecord.validateTime (record : ClaimRecord) (mode : ValidTimeMode) : Except HistoryError PUnit :=
  if !record.valid.agrees mode || (record.valid == .fromSourceTime && record.sourceTime.isNone) then
    .error (.invalidValidTime record.claim.id)
  else .ok ⟨⟩

/-- The appended records, each claim under its own id. -/
structure ClaimHistory where
  claims : OrdMap ClaimId ClaimRecord
  relations : List HistoryRelation
  retractions : List Retraction
  usedTx : OrdMap String (OrdSet Nat)
  keyed : ∀ id record, claims.find? id = some record → record.claim.id = id
  deriving DecidableEq

namespace ClaimHistory

def new : ClaimHistory := ⟨.empty,[],[],.empty,by simp⟩

private theorem keyed_insert (history : ClaimHistory) (added : ClaimRecord) (id : ClaimId) (record : ClaimRecord)
    (found : (history.claims.insert added.claim.id added).find? id = some record) : record.claim.id = id := by
  rw [OrdMap.find?_insert] at found
  split_ifs at found with same
  · cases found
    exact same.symm
  · exact history.keyed id record found

/-- The sequence numbers a scope has used. -/
def usedIn (history : ClaimHistory) (scope : String) : OrdSet Nat := (history.usedTx.find? scope).getD .empty

def appendClaim (history : ClaimHistory) (record : ClaimRecord) : Except HistoryError ClaimHistory :=
  if history.claims.contains record.claim.id then .error (.duplicateClaim record.claim.id)
  else
    let scope := record.claim.scope.display
    let used := history.usedIn scope
    if used.contains record.tx.seq then .error (.duplicateTx record.tx.seq)
    else .ok { history with
      claims := history.claims.insert record.claim.id record
      usedTx := history.usedTx.insert scope (used.insert record.tx.seq)
      keyed := keyed_insert history record }

def appendRelation (history : ClaimHistory) (relation : HistoryRelation) : Except HistoryError ClaimHistory :=
  let appended := { history with relations := history.relations ++ [relation] }
  match history.claims.find? relation.relation.source with
  | none => .error (.unknownClaim relation.relation.source)
  | some source =>
    match relation.relation.target with
    | .memory _ => .ok appended
    | .claim target =>
      match history.claims.find? target with
      | none => .error (.unknownClaim target)
      | some targetRecord =>
        if relation.relation.kind = .supersedes ∧ source.slotId ≠ targetRecord.slotId then
          .error .crossSlotSupersession
        else .ok appended

def appendRetraction (history : ClaimHistory) (retraction : Retraction) : Except HistoryError ClaimHistory :=
  if history.claims.contains retraction.target then
    .ok { history with retractions := history.retractions ++ [retraction] }
  else .error (.unknownClaim retraction.target)

/-- Highest transaction sequence present, or zero for an empty history. -/
def highWater (history : ClaimHistory) : Nat :=
  (history.claims.values.map (·.tx.seq) ++ history.relations.map (·.tx.seq) ++
    history.retractions.map (·.tx.seq)).foldl max 0

end ClaimHistory

/-! ### Runs -/

/-- One call on a history. -/
inductive Append where
  | claim (record : ClaimRecord)
  | relation (relation : HistoryRelation)
  | retraction (retraction : Retraction)
  deriving DecidableEq

def Append.tx : Append → TxStamp
  | .claim added => added.tx
  | .relation added => added.tx
  | .retraction added => added.tx

namespace ClaimHistory

def append (history : ClaimHistory) : Append → Except HistoryError ClaimHistory
  | .claim record => history.appendClaim record
  | .relation relation => history.appendRelation relation
  | .retraction retraction => history.appendRetraction retraction

/-- A run of calls that all succeed. -/
def appendAll (history : ClaimHistory) (calls : List Append) : Except HistoryError ClaimHistory :=
  calls.foldlM append history

@[simp] theorem appendAll_nil (history : ClaimHistory) : history.appendAll [] = .ok history := rfl

theorem appendAll_cons (history : ClaimHistory) (call : Append) (calls : List Append) :
    history.appendAll (call :: calls) = (history.append call).bind (·.appendAll calls) := rfl

theorem appendAll_cons_ok {history later : ClaimHistory} {call : Append} {calls : List Append}
    (executed : history.appendAll (call :: calls) = .ok later) :
    ∃ next, history.append call = .ok next ∧ next.appendAll calls = .ok later := by
  rw [appendAll_cons] at executed
  cases step : history.append call with
  | error refusal => simp [step,Except.bind] at executed
  | ok next => exact ⟨next,rfl,by simpa [step,Except.bind] using executed⟩

/-! ### What one append does -/

/-- A claim append is of a fresh id under a fresh sequence number, and adds that
    record and nothing else. -/
theorem appendClaim_ok {history next : ClaimHistory} {record : ClaimRecord}
    (executed : history.appendClaim record = .ok next) :
    history.claims.find? record.claim.id = none ∧
      record.tx.seq ∉ history.usedIn record.claim.scope.display ∧
      next.claims = history.claims.insert record.claim.id record ∧
      next.relations = history.relations ∧ next.retractions = history.retractions ∧
      next.usedTx = history.usedTx.insert record.claim.scope.display
        ((history.usedIn record.claim.scope.display).insert record.tx.seq) := by
  simp only [appendClaim] at executed
  split_ifs at executed with known used
  have fresh : history.claims.find? record.claim.id = none := by simpa [OrdMap.contains] using known
  have unused : record.tx.seq ∉ history.usedIn record.claim.scope.display := by simpa using used
  cases executed
  exact ⟨fresh,unused,rfl,rfl,rfl,rfl⟩

/-- A relation append names a known source; a claim target is known, and in the
    same slot when it is superseded. It adds that relation and nothing else. -/
theorem appendRelation_ok {history next : ClaimHistory} {relation : HistoryRelation}
    (executed : history.appendRelation relation = .ok next) :
    next = { history with relations := history.relations ++ [relation] } ∧
      ∃ source, history.claims.find? relation.relation.source = some source ∧
        ∀ target, relation.relation.target = .claim target →
          ∃ targetRecord, history.claims.find? target = some targetRecord ∧
            (relation.relation.kind = .supersedes → source.slotId = targetRecord.slotId) := by
  unfold appendRelation at executed
  cases sourceFound : history.claims.find? relation.relation.source with
  | none => simp [sourceFound] at executed
  | some source =>
    cases targetIs : relation.relation.target with
    | memory memory =>
      simp only [sourceFound,targetIs,Except.ok.injEq] at executed
      exact ⟨executed.symm,source,rfl,by simp⟩
    | claim target =>
      cases targetFound : history.claims.find? target with
      | none => simp [sourceFound,targetIs,targetFound] at executed
      | some targetRecord =>
        simp only [sourceFound,targetIs,targetFound] at executed
        split_ifs at executed with crosses
        cases executed
        refine ⟨rfl,source,rfl,?_⟩
        rintro _ ⟨⟩
        refine ⟨targetRecord,targetFound,fun supersedes => ?_⟩
        by_contra different
        exact crosses ⟨supersedes,different⟩

theorem appendRetraction_ok {history next : ClaimHistory} {retraction : Retraction}
    (executed : history.appendRetraction retraction = .ok next) :
    next = { history with retractions := history.retractions ++ [retraction] } ∧
      ∃ target, history.claims.find? retraction.target = some target := by
  unfold appendRetraction at executed
  split_ifs at executed with known
  exact ⟨(Except.ok.inj executed).symm,(OrdMap.contains_iff _ _).mp known⟩

/-- A record found before an append is found after it, unchanged. -/
theorem append_keeps_claims {history next : ClaimHistory} {call : Append}
    (executed : history.append call = .ok next) {id : ClaimId} {record : ClaimRecord}
    (found : history.claims.find? id = some record) : next.claims.find? id = some record := by
  cases call with
  | claim added =>
    obtain ⟨fresh,-,claims,-⟩ := appendClaim_ok executed
    have different : id ≠ added.claim.id := by
      rintro rfl
      simp [fresh] at found
    rw [claims,OrdMap.find?_insert_other _ _ different]
    exact found
  | relation added =>
    obtain ⟨rfl,-⟩ := appendRelation_ok executed
    exact found
  | retraction added =>
    obtain ⟨rfl,-⟩ := appendRetraction_ok executed
    exact found

/-- The record of a call is in a history. -/
def Holds (history : ClaimHistory) : Append → Prop
  | .claim record => history.claims.find? record.claim.id = some record
  | .relation relation => relation ∈ history.relations
  | .retraction retraction => retraction ∈ history.retractions

/-- An append adds its own record and no other. -/
theorem append_holds {history next : ClaimHistory} {call : Append} (executed : history.append call = .ok next)
    (other : Append) : next.Holds other ↔ history.Holds other ∨ other = call := by
  cases call with
  | claim added =>
    obtain ⟨fresh,-,claims,relations,retractions,-⟩ := appendClaim_ok executed
    cases other with
    | claim record =>
      simp only [Holds,claims,OrdMap.find?_insert,Append.claim.injEq]
      by_cases same : record.claim.id = added.claim.id
      · simp [same,fresh,eq_comm]
      · have different : record ≠ added := fun equal => same (by rw [equal])
        simp [same,different]
    | relation relation => simp [Holds,relations]
    | retraction retraction => simp [Holds,retractions]
  | relation added =>
    obtain ⟨rfl,-⟩ := appendRelation_ok executed
    cases other <;> simp [Holds]
  | retraction added =>
    obtain ⟨rfl,-⟩ := appendRetraction_ok executed
    cases other <;> simp [Holds]

/-- A run holds the records of its calls and what it started from. -/
theorem appendAll_holds {history later : ClaimHistory} {calls : List Append}
    (executed : history.appendAll calls = .ok later) (other : Append) :
    later.Holds other ↔ history.Holds other ∨ other ∈ calls := by
  induction calls generalizing history with
  | nil =>
    cases executed
    simp
  | cons call calls ih =>
    obtain ⟨next,stepped,rest⟩ := appendAll_cons_ok executed
    rw [ih rest,append_holds stepped,List.mem_cons,or_assoc]

theorem new_holds (other : Append) : ¬ new.Holds other := by
  cases other <;> simp [Holds,new]

/-! ### Invariants of every run from the empty history -/

/-- What the appends maintain: relations and retractions name known claims, and a
    supersession stays in its slot. -/
structure Sound (history : ClaimHistory) : Prop where
  sources : ∀ relation ∈ history.relations, ∃ source, history.claims.find? relation.relation.source = some source
  targets : ∀ relation ∈ history.relations, ∀ target, relation.relation.target = .claim target →
    ∃ record, history.claims.find? target = some record
  retracted : ∀ retraction ∈ history.retractions, ∃ record, history.claims.find? retraction.target = some record
  sameSlot : ∀ relation ∈ history.relations, relation.relation.kind = .supersedes →
    ∀ target, relation.relation.target = .claim target → ∀ left right,
      history.claims.find? relation.relation.source = some left →
      history.claims.find? target = some right → left.slotId = right.slotId

theorem new_sound : new.Sound where
  sources := by simp [new]
  targets := by simp [new]
  retracted := by simp [new]
  sameSlot := by simp [new]

theorem append_sound {history next : ClaimHistory} (sound : history.Sound) {call : Append}
    (executed : history.append call = .ok next) : next.Sound := by
  have kept := @append_keeps_claims history next call executed
  cases call with
  | claim added =>
    obtain ⟨fresh,-,claims,relations,retractions,-⟩ := appendClaim_ok executed
    refine ⟨?_,?_,?_,?_⟩
    · intro relation member
      obtain ⟨source,found⟩ := sound.sources relation (relations ▸ member)
      exact ⟨source,kept found⟩
    · intro relation member target is
      obtain ⟨record,found⟩ := sound.targets relation (relations ▸ member) target is
      exact ⟨record,kept found⟩
    · intro retraction member
      obtain ⟨record,found⟩ := sound.retracted retraction (retractions ▸ member)
      exact ⟨record,kept found⟩
    · intro relation member supersedes target is left right leftFound rightFound
      obtain ⟨source,sourceFound⟩ := sound.sources relation (relations ▸ member)
      obtain ⟨record,recordFound⟩ := sound.targets relation (relations ▸ member) target is
      obtain rfl := Option.some.inj (leftFound.symm.trans (kept sourceFound))
      obtain rfl := Option.some.inj (rightFound.symm.trans (kept recordFound))
      exact sound.sameSlot relation (relations ▸ member) supersedes target is _ _ sourceFound recordFound
  | relation added =>
    obtain ⟨rfl,source,sourceFound,checked⟩ := appendRelation_ok executed
    have split : ∀ relation ∈ history.relations ++ [added], relation ∈ history.relations ∨ relation = added := by
      intro relation member
      simpa using member
    refine ⟨?_,?_,sound.retracted,?_⟩
    · intro relation member
      rcases split relation member with old | rfl
      · exact sound.sources relation old
      · exact ⟨source,sourceFound⟩
    · intro relation member target is
      rcases split relation member with old | rfl
      · exact sound.targets relation old target is
      · obtain ⟨record,found,-⟩ := checked target is
        exact ⟨record,found⟩
    · intro relation member supersedes target is left right leftFound rightFound
      rcases split relation member with old | rfl
      · exact sound.sameSlot relation old supersedes target is left right leftFound rightFound
      · obtain ⟨record,found,same⟩ := checked target is
        obtain rfl := Option.some.inj (leftFound.symm.trans sourceFound)
        obtain rfl := Option.some.inj (rightFound.symm.trans found)
        exact same supersedes
  | retraction added =>
    obtain ⟨rfl,target,targetFound⟩ := appendRetraction_ok executed
    refine ⟨sound.sources,sound.targets,?_,sound.sameSlot⟩
    intro retraction member
    rcases List.mem_append.mp member with old | last
    · exact sound.retracted retraction old
    · obtain rfl := List.mem_singleton.mp last
      exact ⟨target,targetFound⟩

end ClaimHistory

namespace Sample
open Claims.Sample

/-- A timeless extracted claim of the sample slot. -/
def record (id : ClaimId) (value : String) (seq : Nat) : ClaimRecord where
  claim := claim id value
  valid := .timeless
  sourceTime := none
  sourceSeq := none
  tx := ⟨seq,seq⟩
  authority := .extracted
  admission := ⟨⟨id.value,id.bound⟩,"default",1,.supplier⟩
  supersession := .bySourceOrder
  hostileContent := false
  originErased := false

def supersedes (winner loser : ClaimId) (different : loser ≠ winner) (seq : Nat) : HistoryRelation where
  relation := ⟨winner,.supersedes,.claim loser,provenance,by simp [legalRelation,different]⟩
  authority := .extracted
  tx := ⟨seq,seq⟩

def retraction (target : ClaimId) (seq : Nat) : Retraction := ⟨target,"withdrawn",actor,provenance,⟨seq,seq⟩⟩

/-- The history a run of calls leaves, or the empty one when a call is refused. -/
def history (calls : List Append) : ClaimHistory := (ClaimHistory.new.appendAll calls).toOption.getD .new

end Sample

end Aicortex.History
