import Aicortex.Cursors
import Aicortex.MemoryRepo
import Aicortex.Lib.Framing

/-!
A request to capture: who asks, what the request names, the scope it may reach, and the
record each of its candidates becomes. What refuses a request is answered as a problem
document. Reading JSON and the digest functions are linked code and parameters here; a
detail keeps its quoted operands apart.
-/

namespace Aicortex.CaptureApi
open Aicortex.Text Aicortex.Memories Aicortex.CaptureGate Aicortex.ScopeIdentity Lib.Framing Lib.Outcome
open Aicortex.Cursors (utf8 utf8_injective)
open Aicortex.Claims hiding Unit
set_option linter.unusedSimpArgs false

/-! ### Problems -/

/-- The kinds of failure the chassis tells apart. -/
inductive Failure where
  | validation (detail : String)
  | notFound
  | conflict (detail : String)
  | denied (detail : String)
  | unauthorized (detail : String)
  | stale (detail : String)
  | upstream
  | integrity
  | io
  | config
  deriving Repr, DecidableEq

structure ApiError where
  status : Nat
  code : String
  detail : List Piece
  deriving Repr, DecidableEq

namespace ApiError

def invalid (detail : List Piece) : ApiError := ⟨400,"invalid_request",detail⟩

def notFound : ApiError := ⟨404,"not_found",[.lit "no such resource in a scope this principal can reach"]⟩

/-- A failure by its kind; one of this cell is answered with a fixed sentence. -/
def ofFailure : Failure → ApiError
  | .validation detail => invalid [.lit detail]
  | .notFound => notFound
  | .conflict detail => ⟨409,"conflict",[.lit detail]⟩
  | .denied detail => ⟨403,"denied",[.lit detail]⟩
  | .unauthorized detail => ⟨401,"unauthorized",[.lit detail]⟩
  | .stale detail => ⟨409,"stale",[.lit detail]⟩
  | .upstream => ⟨503,"unavailable",[.lit "a dependency of this cell is unavailable; retry later"]⟩
  | .integrity | .io | .config => ⟨500,"internal",[.lit "this cell could not complete the request"]⟩

end ApiError

def problemType (code : String) : String := "urn:aicortex:problem:" ++ code

/-- The reason phrase of a status. -/
def canonicalReason : Nat → String
  | 400 => "Bad Request"
  | 401 => "Unauthorized"
  | 403 => "Forbidden"
  | 404 => "Not Found"
  | 409 => "Conflict"
  | 422 => "Unprocessable Entity"
  | 500 => "Internal Server Error"
  | 503 => "Service Unavailable"
  | _ => "Error"

structure Problem where
  kind : String
  title : String
  status : Nat
  detail : List Piece
  code : String
  deriving Repr, DecidableEq

def ApiError.problem (error : ApiError) : Problem :=
  ⟨problemType error.code,canonicalReason error.status,error.status,error.detail,error.code⟩

/-- How a refused value is told. -/
def typeErrorDetail : TypeError → List Piece
  | .unknownVariant field value expected =>
    [.lit s!"{field}: ",.quoted value,.lit " is not one of "] ++ (expected.map Piece.quoted).intersperse (.lit ", ")
  | .missingField field context => [.lit s!"{field}: required by {context} and absent"]
  | .invalid field reason => .lit s!"{field}: " :: reason

def invalidType (error : TypeError) : ApiError := .invalid (typeErrorDetail error)

/-! ### Scopes -/

/-- A scope as a request names it. -/
structure ScopeRef where
  kind : String
  project : Option String
  share : Option String
  owner : Option String
  deriving Repr, DecidableEq

namespace ScopeRef

def personal : ScopeRef := ⟨"personal",none,none,none⟩

def stray (named : ScopeRef) (field : String) : ApiError := .invalid [.lit s!"a {named.kind} scope has no {field}"]

def missing (named : ScopeRef) (field : String) : ApiError := .invalid [.lit s!"a {named.kind} scope names its {field}"]

/-- The kind of the scope; what the kind has no use for may not be named. -/
def scopeKind (named : ScopeRef) : Except ApiError ScopeKind :=
  if named.kind = "personal" then
    if named.project.isSome then .error (named.stray "project")
    else if named.share.isSome then .error (named.stray "share")
    else .ok .personal
  else if named.kind = "project" then
    if named.share.isSome then .error (named.stray "share")
    else
      match named.project with
      | none => .error (named.missing "project")
      | some key => ((CheckedString.new "project" validateKey key).mapError invalidType).map .project
  else if named.kind = "shared" then
    if named.project.isSome then .error (named.stray "project")
    else
      match named.share with
      | none => .error (named.missing "share")
      | some key => ((CheckedString.new "share" validateKey key).mapError invalidType).map .shared
  else .error (.invalid [.lit "scope.kind ",.quoted named.kind,.lit " is not one of personal, project, shared"])

/-- The scope this names, if the caller can reach it: only the caller's own are. -/
def resolve (named : ScopeRef) (caller : Sub) : Except ApiError Scope := do
  let kind ← named.scopeKind
  let owner := (named.owner.map (fun owner => ⟨owner⟩)).getD caller
  if owner = caller then .ok ⟨owner,kind⟩ else .error .notFound

end ScopeRef

/-! ### Requests -/

structure SourceIn where
  system : Option String
  externalId : Option String
  locator : Option String
  deriving Repr, DecidableEq

structure CandidateIn where
  kind : MemoryKind
  text : String
  title : Option String
  source : Option SourceIn
  capturedAt : Option Nat
  deriving Repr, DecidableEq

structure CaptureRequest where
  scope : Option ScopeRef
  candidates : List CandidateIn
  deriving Repr, DecidableEq

/-- What the gate and the store did with one candidate. -/
structure CaptureOutcome where
  index : Nat
  verdict : String
  id : Option MemoryId
  merged : Bool
  reasonCode : Option String
  problem : Option String
  decision : Option String
  deriving Repr, DecidableEq

/-- Who is asking: the subject, and the client that presented a token for it. -/
structure Caller where
  sub : Sub
  clientId : Option String
  isService : Bool
  deriving Repr, DecidableEq

/-! ### The record a candidate becomes -/

def toAsciiLowercase (text : String) : String := String.ofList (text.toList.map toAsciiLower)

/-- Who the record says made the claim: a person, or a client acting as itself. -/
def actor (caller : Caller) : Except ApiError Actor :=
  if caller.isService then do
    let client := caller.clientId.getD ""
    let id ← (CheckedString.new "actor.id" validateKey client).mapError invalidType
    .ok ⟨.agent ⟨some client,none⟩,id,none⟩
  else do
    let id ← (CheckedString.new "actor.id" validateKey caller.sub.text).mapError invalidType
    .ok ⟨.human,id,caller.clientId⟩

def defaultSourceSystem : String := "aicortex-api"

/-- The system the candidate names, else the client's own name, else the surface's. -/
def sourceSystemOf (caller : Caller) (named : Option SourceIn) : Except ApiError SourceSystem :=
  match named.bind (·.system) with
  | some system => (CheckedString.new "source.system" sourceSystem system).mapError invalidType
  | none =>
    match caller.clientId.bind (fun client =>
        (CheckedString.new "source.system" sourceSystem (toAsciiLowercase client)).toOption) with
    | some system => .ok system
    | none => (CheckedString.new "source.system" sourceSystem defaultSourceSystem).mapError invalidType

def source (caller : Caller) (candidate : CandidateIn) : Except ApiError SourceRef := do
  let system ← sourceSystemOf caller candidate.source
  .ok ⟨system,candidate.source.bind (·.externalId),candidate.source.bind (·.locator)⟩

/-- The record before the gate judges it. -/
def parts (caller : Caller) (scope : Scope) (candidate : CandidateIn) (at' : UnixSeconds) (id : MemoryId) :
    Except ApiError MemoryParts := do
  let actor ← actor caller
  let source ← source caller candidate
  .ok {
    id := id
    scope := scope
    kind := candidate.kind
    body := ⟨candidate.text,candidate.title,[]⟩
    actor := actor
    provenance := ⟨source,candidate.capturedAt.getD at',at',[],none,none,[]⟩
    trust := .assertion
    importance := ⟨0x3F000000,at',1⟩
    created := at' }

/-! ### What a refusal says -/

def originLabel : Origin → String
  | .authenticated => "authenticated"
  | .registeredAdapter => "registered_adapter"
  | .asserted => "asserted"
  | .unestablished => "unestablished"

def sentence : Reason → String
  | .secretDetected detector offset =>
    s!"the {detector} detector matched at byte {offset}; a credential is refused, not redacted"
  | .tooLarge bytes ceiling => s!"the normalized body is {bytes} bytes, over the {ceiling} byte ceiling"
  | .emptyAfterNormalization => "the body is empty once normalized, so there is nothing to remember"
  | .originUnestablished origin =>
    s!"the origin is {originLabel origin}, which this deployment will not admit as an established source"
  | .unsupportedMedia (.tooMany count ceiling) =>
    s!"the candidate references {count} media objects, over the ceiling of {ceiling}"
  | .unsupportedMedia (.unsupportedType index) =>
    s!"media reference {index} is of a type this deployment does not store"
  | .rateExceeded limit windowSecs => s!"the caller is over {limit} captures per {windowSecs} seconds"
  | .policyDenied policy => s!"deployment policy {policy} refuses this candidate"

def ApiError.refused (reason : Reason) : ApiError := ⟨422,reason.code,[.lit (sentence reason)]⟩

def digestAlgorithm : String := "HMAC-SHA-256"

/-- A digest key, minted for one Decision. -/
structure DecisionKey where
  id : String
  secret : List UInt8
  deriving Repr, DecidableEq

structure DigestRef where
  digest : String
  algorithm : String
  keyId : String
  deriving Repr, DecidableEq

def kindRefuse : String := "memory.gate.refuse"
def kindQuarantine : String := "memory.gate.quarantine"

structure LedgerPayload where
  reasonCode : String
  reason : Reason
  scope : String
  digest : DigestRef
  memoryId : Option String
  deriving Repr, DecidableEq

structure LedgerEntry where
  kind : String
  denied : Bool
  actor : Sub
  reason : String
  payload : LedgerPayload
  deriving Repr, DecidableEq

def ledgerEntry (kind : String) (reason : Reason) (scope : Scope) (actor : Sub) (digest : DigestRef)
    (memory : Option MemoryId) : LedgerEntry where
  kind := kind
  denied := kind == kindRefuse
  actor := actor
  reason := sentence reason
  payload := ⟨reason.code,reason,scope.display,digest,memory.map toString⟩

/-- A Decision as the chain holds it. -/
structure Decision where
  id : String
  kind : String
  actor : Sub
  allowed : Bool
  reason : String
  payload : LedgerPayload
  deriving Repr, DecidableEq

/-- The Decision of an entry, named after the candidate. -/
def decisionOf (entry : LedgerEntry) (candidate : MemoryId) : Decision where
  id := s!"{entry.kind}-{candidate}"
  kind := entry.kind
  actor := entry.actor
  allowed := !entry.denied
  reason := entry.reason
  payload := entry.payload

/-! ### The name of an attempt -/

def maxIdempotencyKeyLen : Nat := 255

def isAsciiGraphic (c : Char) : Bool := 0x21 ≤ c.toNat && c.toNat ≤ 0x7E

/-- The header as text, where it is text. -/
abbrev Header := Option (Option String)

/-- The key a request names, validated. -/
def idempotencyKey : Header → Except ApiError (Option String)
  | none => .ok none
  | some value =>
    match value.filter (fun key => !key.isEmpty && decide (byteLen key ≤ maxIdempotencyKeyLen) &&
        key.toList.all isAsciiGraphic) with
    | some key => .ok (some key)
    | none => .error (.invalid [.lit s!"Idempotency-Key is 1 to {maxIdempotencyKeyLen} visible ASCII characters"])

/-- The digest of parts, each behind its length. -/
def digest (sha256 : List UInt8 → List UInt8) (parts : List (List UInt8)) : String := hex (sha256 (frame 8 parts))

/-- What a slot is named after: the subject, the client and the key. -/
def slotParts (caller : Caller) (key : String) : List (List UInt8) :=
  [utf8 caller.sub.text,utf8 (caller.clientId.getD ""),utf8 key]

def slot (sha256 : List UInt8 → List UInt8) (caller : Caller) (key : String) : String :=
  "aicortex.api.idempotency." ++ digest sha256 (slotParts caller key)

def requestDigest (sha256 : List UInt8 → List UInt8) (body : List UInt8) : String := digest sha256 [body]

/-! ### What a request reaches -/

/-- Different parts under one digest are a collision of the hash. -/
theorem digest_eq {sha256 : List UInt8 → List UInt8} {left right : List (List UInt8)} (leftFits : Fits 8 left)
    (rightFits : Fits 8 right) (free : sha256 (frame 8 left) = sha256 (frame 8 right) → frame 8 left = frame 8 right)
    (same : digest sha256 left = digest sha256 right) : left = right :=
  frame_injective (by decide) leftFits rightFits (free (hex_injective same))

/-- A slot is the slot of one subject, client and key. -/
theorem slot_eq {sha256 : List UInt8 → List UInt8} {left right : Caller} {one two : String}
    (leftFits : Fits 8 (slotParts left one)) (rightFits : Fits 8 (slotParts right two))
    (free : sha256 (frame 8 (slotParts left one)) = sha256 (frame 8 (slotParts right two)) →
      frame 8 (slotParts left one) = frame 8 (slotParts right two)) (same : slot sha256 left one = slot sha256 right two) :
    left.sub = right.sub ∧ left.clientId.getD "" = right.clientId.getD "" ∧ one = two := by
  have parts := digest_eq leftFits rightFits free (String.append_right_inj _ |>.mp same)
  simp only [slotParts,List.cons.injEq,and_true] at parts
  obtain ⟨subs,clients,keys⟩ := parts
  refine ⟨?_,utf8_injective clients,utf8_injective keys⟩
  have texts := utf8_injective subs
  cases one : left.sub
  cases two : right.sub
  simp_all

/-! ### What refuses a request -/

/-- An error of the caller's or of the cell's. -/
def ApiError.Fails (error : ApiError) : Prop := 400 ≤ error.status

theorem ofFailure_fails (failure : Failure) : (ApiError.ofFailure failure).Fails := by
  cases failure <;> simp [ApiError.Fails,ApiError.ofFailure,ApiError.invalid,ApiError.notFound]

theorem checked_fails {field : String} {check : String → String → Except TypeError Unit} {text : String} {error : ApiError}
    (failed : (CheckedString.new field check text).mapError invalidType = .error error) : error.Fails := by
  obtain ⟨told,-,rfl⟩ := mapError_error_iff.mp failed
  exact Nat.le_refl 400

theorem parts_fails {caller : Caller} {scope : Scope} {candidate : CandidateIn} {at' : UnixSeconds} {id : MemoryId}
    {error : ApiError} (failed : parts caller scope candidate at' id = .error error) : error.Fails := by
  rcases bind_error_iff.mp failed with refused | ⟨found,-,rest⟩
  · unfold actor at refused
    split_ifs at refused
    · rcases bind_error_iff.mp refused with checked | ⟨_,-,rest⟩
      · exact checked_fails checked
      · cases rest
    · rcases bind_error_iff.mp refused with checked | ⟨_,-,rest⟩
      · exact checked_fails checked
      · cases rest
  · rcases bind_error_iff.mp rest with refused | ⟨_,-,rest⟩
    · rcases bind_error_iff.mp refused with unnamed | ⟨_,-,rest⟩
      · unfold sourceSystemOf at unnamed
        split at unnamed
        · exact checked_fails unnamed
        · split at unnamed
          · cases unnamed
          · exact checked_fails unnamed
      · cases rest
    · cases rest

theorem scopeKind_fails {named : ScopeRef} {error : ApiError} (failed : named.scopeKind = .error error) : error.Fails := by
  have checked : ∀ {field : String} {check : String → String → Except TypeError Unit} {text : String}
      {make : CheckedString field check → ScopeKind},
      ((CheckedString.new field check text).mapError invalidType).map make = .error error → error.Fails := by
    intro field check text make refused
    cases is : (CheckedString.new field check text).mapError invalidType with
    | ok value => simp [is,Except.map] at refused
    | error other =>
      simp only [is,Except.map,Except.error.injEq] at refused
      exact refused ▸ checked_fails is
  unfold ScopeRef.scopeKind at failed
  split_ifs at failed
  · cases failed
    exact Nat.le_refl 400
  · cases failed
    exact Nat.le_refl 400
  · cases failed
    exact Nat.le_refl 400
  · split at failed
    · cases failed
      exact Nat.le_refl 400
    · exact checked failed
  · cases failed
    exact Nat.le_refl 400
  · split at failed
    · cases failed
      exact Nat.le_refl 400
    · exact checked failed
  · cases failed
    exact Nat.le_refl 400

theorem resolve_fails {named : ScopeRef} {caller : Sub} {error : ApiError} (failed : named.resolve caller = .error error) :
    error.Fails := by
  rcases bind_error_iff.mp failed with kind | ⟨_,-,rest⟩
  · exact scopeKind_fails kind
  · simp only at rest
    split_ifs at rest
    cases rest
    show 400 ≤ 404
    decide

theorem ScopeRef.resolve_ok {named : ScopeRef} {caller : Sub} {scope : Scope} (resolved : named.resolve caller = .ok scope) :
    named.scopeKind = .ok scope.kind ∧ scope.owner = caller := by
  obtain ⟨kind,named,reached⟩ := bind_ok_iff.mp resolved
  simp only at reached
  split_ifs at reached with own
  cases reached
  exact ⟨named,own⟩

end Aicortex.CaptureApi
