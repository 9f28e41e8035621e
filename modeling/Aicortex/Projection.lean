import Aicortex.Windows
import Mathlib.Data.List.Sort

/-!
The current view of a history, computed on read. Claims inside the knowledge bound
are grouped by slot with their coverage of the asked valid time; each slot then
loses what was retracted, what was explicitly superseded, what has less authority,
and what the source order puts behind, and what is left is a value or a conflict.
-/

namespace Aicortex.Projection
open Aicortex.Text Aicortex.CivilTime Aicortex.Claims Aicortex.History Aicortex.Windows Lib.Ordered
set_option linter.unusedSimpArgs false

/-- Upper bound on what the store knew. -/
inductive TxBound where
  | sequence (seq : Nat)
  | recordedAt (instant : UnixSeconds)
  deriving Repr, DecidableEq

structure AsOf where
  knowledge : TxBound
  valid : ValidBound
  deriving DecidableEq

def withinTx (recorded : TxStamp) : TxBound → Bool
  | .sequence seq => recorded.seq ≤ seq
  | .recordedAt instant => recorded.recordedAt ≤ instant

structure ProjectionCandidate where
  claimId : ClaimId
  value : ClaimValue
  authority : AuthorityLevel
  sourcing : Sourcing
  certainty : Certainty
  superseded : List ClaimId
  provenance : Provenance
  hostileContent : Bool
  originErased : Bool
  deriving DecidableEq

/-- Projected state of one slot. -/
inductive SlotState where
  | value (candidates : List ProjectionCandidate)
  | conflicted (candidates : List ProjectionCandidate)
  | retracted
  | absent
  deriving DecidableEq

structure SlotView where
  slot : SlotId
  state : SlotState
  deriving DecidableEq

/-- A contradiction between two claims, the lesser id on the left. -/
structure ConflictProposal where
  left : ClaimId
  right : ClaimId
  deriving Repr, DecidableEq

namespace ConflictProposal

def new (a b : ClaimId) : ConflictProposal := if a ≤ b then ⟨a,b⟩ else ⟨b,a⟩

def order (proposal : ConflictProposal) : ClaimId ×ₗ ClaimId := toLex (proposal.left,proposal.right)

theorem order_injective : Function.Injective order := by
  rintro ⟨_,_⟩ ⟨_,_⟩ same
  simp only [order,toLex_inj,Prod.mk.injEq] at same
  obtain ⟨rfl,rfl⟩ := same
  rfl

instance : LinearOrder ConflictProposal := LinearOrder.lift' order order_injective

end ConflictProposal

structure CurrentView where
  asOf : AsOf
  historyHighWater : Nat
  policyVersion : String
  policyDigest : String
  slots : List SlotView
  conflictProposals : List ConflictProposal
  digest : String
  deriving DecidableEq

/-- What the build links: the zone database and its calendar, the digest of a policy
    document, and the digest of a serialized view, whose serialization may fail. -/
structure Build where
  tz : TzDatabase
  policyDigest : ProjectionPolicy → String
  viewDigest : AsOf → Nat → String → String → List SlotView → List ConflictProposal → Except String String

/-- A record that counts for the query, with its coverage. -/
abbrev Counted := ClaimRecord × Certainty

def Counted.id (counted : Counted) : ClaimId := counted.1.claim.id

/-! ### Counting -/

section
variable (build : Build) (policy : ProjectionPolicy)

/-- A known claim opens its slot; it counts when it covers the query, and a
    possible coverage counts only when the policy says so. -/
def countClaim (asOf : AsOf) (query : Window) (grouped : OrdMap SlotId (List Counted)) (record : ClaimRecord) :
    Except ProjectionError (OrdMap SlotId (List Counted)) :=
  if withinTx record.tx asOf.knowledge then do
    match ← coverage build.tz policy record query with
    | none => .ok (grouped.upsert record.slotId [] id)
    | some certainty =>
      if certainty = .possible ∧ policy.possibleCounts = false then .ok (grouped.upsert record.slotId [] id)
      else .ok (grouped.upsert record.slotId [] (· ++ [(record,certainty)]))
  else .ok grouped

def groupClaims (asOf : AsOf) (query : Window) (claims : List ClaimRecord) :
    Except ProjectionError (OrdMap SlotId (List Counted)) :=
  claims.foldlM (countClaim build policy asOf query) .empty

end

/-- The claims retracted within the knowledge bound. -/
def retractedIds (history : ClaimHistory) (asOf : AsOf) : OrdSet ClaimId :=
  .ofList ((history.retractions.filter (fun item => withinTx item.tx asOf.knowledge)).map (·.target))

/-! ### Winners of one slot -/

/-- Which claims were removed, and by which claim. -/
structure Superseded where
  removed : OrdSet ClaimId
  replacing : OrdMap ClaimId (OrdSet ClaimId)

namespace Superseded

def empty : Superseded := ⟨.empty,.empty⟩

def add (found : Superseded) (winner loser : ClaimId) : Superseded :=
  ⟨found.removed.insert loser,found.replacing.upsert winner .empty (·.insert loser)⟩

end Superseded

/-- A relation takes effect between two active claims, at an authority no lower
    than its target's. -/
def takesEffect (history : ClaimHistory) (activeIds : OrdSet ClaimId) (relation : HistoryRelation) :
    Option (ClaimId × ClaimId) :=
  match relation.relation.target with
  | .memory _ => none
  | .claim target =>
    if !activeIds.contains relation.relation.source || !activeIds.contains target then none
    else
      match history.claims.find? target with
      | none => none
      | some targetRecord =>
        if targetRecord.authority ≤ relation.authority then some (relation.relation.source,target) else none

def applyRelation (history : ClaimHistory) (activeIds : OrdSet ClaimId) (found : Superseded)
    (relation : HistoryRelation) : Superseded :=
  match takesEffect history activeIds relation with
  | some (winner,loser) => found.add winner loser
  | none => found

def explicitlySuperseded (history : ClaimHistory) (asOf : AsOf) (activeIds : OrdSet ClaimId) : Superseded :=
  (history.relations.filter (fun relation =>
    withinTx relation.tx asOf.knowledge && relation.relation.kind == .supersedes)).foldl
      (applyRelation history activeIds) .empty

/-- A user's value and a supplier's differ: neither authority nor source order may
    decide between them. -/
def userSupplierConflict (active : List Counted) : Bool :=
  active.any (fun item => item.1.admission.sourcing == .user) &&
    active.any (fun item => item.1.admission.sourcing == .supplier) &&
    active.any (fun left => active.any (fun right =>
      left.1.admission.sourcing != right.1.admission.sourcing && left.1.claim.value != right.1.claim.value))

def maxAuthority (active : List Counted) : AuthorityLevel :=
  (active.map (fun item => item.1.authority)).foldl max .inferred

section
variable (build : Build) (policy : ProjectionPolicy)

/-- Compare one claim with another and note it when the other is later. -/
def compareSources (left : Counted) (found : Superseded) (right : Counted) : Except ProjectionError Superseded := do
  let order ← sourceOrder build.tz policy right.1 left.1
  if order = .gt then .ok (found.add right.id left.id) else .ok found

/-- Every pair, the losers on the outside. Only the losers found here are removed;
    who replaced whom is added to what the relations already said. -/
def supersededBySource (active : List Counted) (replacing : OrdMap ClaimId (OrdSet ClaimId)) :
    Except ProjectionError Superseded :=
  active.foldlM (fun found left => active.foldlM (compareSources build policy left) found) ⟨.empty,replacing⟩

/-- Authority first, then source order where the first remaining claim's predicate
    asks for it; a user and supplier in conflict skip both. -/
def selectWinners (active : List Counted) (replacing : OrdMap ClaimId (OrdSet ClaimId)) :
    Except ProjectionError (List Counted × OrdMap ClaimId (OrdSet ClaimId)) :=
  if userSupplierConflict active then .ok (active,replacing)
  else
    let top := active.filter (fun item => item.1.authority = maxAuthority active)
    if top.head?.any (fun item => item.1.supersession = .bySourceOrder) then do
      let found ← supersededBySource build policy top replacing
      .ok (top.filter (fun item => !found.removed.contains item.id),found.replacing)
    else .ok (top,replacing)

def candidate (record : ClaimRecord) (certainty : Certainty) (superseded : List ClaimId) : ProjectionCandidate where
  claimId := record.claim.id
  value := record.claim.value
  authority := record.authority
  sourcing := record.admission.sourcing
  certainty := certainty
  superseded := superseded
  provenance := record.claim.provenance
  hostileContent := record.hostileContent
  originErased := record.originErased

/-- Each winner takes the list of claims it replaced out of the map. -/
def candidatesOf : List Counted → OrdMap ClaimId (OrdSet ClaimId) → List ProjectionCandidate
  | [], _ => []
  | item :: rest, replacing =>
    candidate item.1 item.2 ((replacing.find? item.id).getD .empty).elements ::
      candidatesOf rest (replacing.erase item.id)

def sortById (active : List Counted) : List Counted := active.insertionSort (fun a b => a.id ≤ b.id)

def sortCandidates (candidates : List ProjectionCandidate) : List ProjectionCandidate :=
  candidates.insertionSort (fun a b => a.claimId ≤ b.claimId)

/-- No candidate differs from the first; true also of no candidates at all. -/
def allEqual (candidates : List ProjectionCandidate) : Bool :=
  candidates.head?.all (fun first => candidates.all (fun item => item.value == first.value))

def conflictPairs : List ProjectionCandidate → List ConflictProposal
  | [] => []
  | left :: rest =>
    (rest.filter (fun right => left.value != right.value)).map (fun right => .new left.claimId right.claimId) ++
      conflictPairs rest

/-- The state of one slot and the contradictions it proposes. -/
def resolveSlot (retracted : OrdSet ClaimId) (supersededIn : OrdSet ClaimId → Superseded) (all : List Counted) :
    Except ProjectionError (SlotState × List ConflictProposal) :=
  let active := all.filter (fun item => !retracted.contains item.id)
  if active.isEmpty then .ok (if all.isEmpty then .absent else .retracted,[])
  else do
    let found := supersededIn (.ofList (active.map Counted.id))
    let surviving := active.filter (fun item => !found.removed.contains item.id)
    let (winners,replacing) ← selectWinners build policy surviving found.replacing
    let candidates := sortCandidates (candidatesOf (sortById winners) replacing)
    if allEqual candidates then .ok (.value candidates,[])
    else .ok (.conflicted candidates,conflictPairs candidates)

/-! ### The view -/

def addSlot (retracted : OrdSet ClaimId) (supersededIn : OrdSet ClaimId → Superseded)
    (view : List SlotView × OrdSet ConflictProposal) (entry : SlotId × List Counted) :
    Except ProjectionError (List SlotView × OrdSet ConflictProposal) := do
  let (state,pairs) ← resolveSlot build policy retracted supersededIn entry.2
  .ok (view.1 ++ [⟨entry.1,state⟩],pairs.foldl OrdSet.insert view.2)

def resolveSlots (retracted : OrdSet ClaimId) (supersededIn : OrdSet ClaimId → Superseded)
    (grouped : OrdMap SlotId (List Counted)) : Except ProjectionError (List SlotView × OrdSet ConflictProposal) :=
  grouped.entries.foldlM (addSlot build policy retracted supersededIn) ([],.empty)

/-- The slots and the proposed contradictions, before the view is stamped. -/
def projectSlots (history : ClaimHistory) (asOf : AsOf) :
    Except ProjectionError (List SlotView × OrdSet ConflictProposal) := do
  let query ← boundWindow build.tz policy asOf.valid
  let grouped ← groupClaims build policy asOf query history.claims.values
  resolveSlots build policy (retractedIds history asOf) (explicitlySuperseded history asOf) grouped

/-- Compute the current view from explicit arguments only. -/
def project (history : ClaimHistory) (asOf : AsOf) : Except ProjectionError CurrentView :=
  if policy.timeZoneDatabase ≠ build.tz.version then
    .error (.unsupportedTimeZoneDatabase policy.timeZoneDatabase)
  else do
    let (unsorted,proposals) ← projectSlots build policy history asOf
    let slots := unsorted.insertionSort (fun a b => a.slot ≤ b.slot)
    let highWater := history.highWater
    let policyDigest := build.policyDigest policy
    match build.viewDigest asOf highWater policy.version policyDigest slots proposals.elements with
    | .error reason => .error (.serialization reason)
    | .ok digest => .ok ⟨asOf,highWater,policy.version,policyDigest,slots,proposals.elements,digest⟩

end

namespace Sample

/-- A build without named zones, with digests that only say what they digest. -/
def build : Build where
  tz := Windows.Sample.linked (fun _ => none)
  policyDigest := fun policy => "digest of policy " ++ policy.version
  viewDigest := fun _ _ version _ _ _ => .ok ("digest of view under policy " ++ version)

instance : Gregorian build.tz := inferInstanceAs (Gregorian (Windows.Sample.linked _))

def policy : ProjectionPolicy := ⟨"1",14 * 60 * 60,"2025b",true⟩

theorem third_legal : CivilTime.legalDate 2026 (some 10) (some 3) = true := by decide

/-- Everything known up to a sequence number, about one day. -/
def asOf (seq : Nat) : AsOf := ⟨.sequence seq,.instant ⟨.date ⟨2026,some 10,some 3,third_legal⟩,none⟩⟩

end Sample

end Aicortex.Projection
