import Aicortex.CaptureApi
import Aicortex.Pipeline

/-!
The capture surface of one node. Any number of calls run at once, each a sequence of
steps between which the others, the rest of the store, the expiry of memos, a crash or a
client that goes away may come: the memo of the attempt is looked up, each candidate is
judged and committed in a transaction of its own, a refusal is appended to the ledger, an
event is published, and the answer is remembered and sent. A read may be of any earlier
state, and an error may hide that what was asked for was done.
-/

namespace Aicortex.CaptureCalls
open Aicortex.Text Aicortex.Memories Aicortex.Schema Aicortex.CaptureGate Aicortex.CaptureApi Aicortex.ScopeIdentity
open Aicortex.Lifecycle (Settling Holdings)
open Aicortex.Pipeline (Stock ActiveEmbedding)
open Lib.Tables Lib.Outcome Lib.StaleRuns
open Aicortex.Claims hiding Unit
set_option linter.unusedSimpArgs false

/-! ### Records -/

/-- The linked code and the settings of a surface. -/
structure Api (SecretRules : Type) where
  linked : Linked SecretRules
  rules : RuleSet SecretRules
  maxBatch : Nat
  maxBodyBytes : Nat
  parse : List UInt8 → Except String CaptureRequest
  renderResults : List CaptureOutcome → String
  renderProblem : Problem → String
  sha256 : List UInt8 → List UInt8
  hmac : List UInt8 → ByteArray → List UInt8
  fingerprint : Memory → String
  scopeId : Scope → String
  chunks : Chunking.ChunkConfig

structure Answer where
  status : Nat
  json : String
  deriving Repr, DecidableEq

/-- What an idempotency key remembers: the request it answered and the answer. -/
structure Remembered where
  request : String
  status : Nat
  body : String
  deriving Repr, DecidableEq

structure Response where
  answer : Answer
  contentType : String
  replayed : Bool
  deriving Repr, DecidableEq

def isSuccess (status : Nat) : Bool := decide (200 ≤ status) && decide (status < 300)
def isServerError (status : Nat) : Bool := decide (500 ≤ status) && decide (status < 600)

def respond (answer : Answer) (replayed : Bool) : Response :=
  ⟨answer,if isSuccess answer.status then "application/json" else "application/problem+json",replayed⟩

structure EventData where
  scope : String
  id : Option String
  state : String
  reasonCode : Option String
  deriving Repr, DecidableEq

structure ApiEvent where
  owner : Sub
  name : String
  data : EventData
  deriving Repr, DecidableEq

def scopeLabel (scope : Scope) : String :=
  match scope.kind.key with
  | none => scope.kind.label
  | some key => s!"{scope.kind.label}/{key}"

/-- A candidate whose transaction is in. -/
structure Settled where
  candidate : MemoryId
  verdict : Verdict
  captured : Option Settling
  entry : Option LedgerEntry

namespace Settled

def label (settled : Settled) : String :=
  match settled.verdict with
  | .admitted _ => "admit"
  | .quarantine _ _ => "quarantine"
  | .refuse _ => "refuse"

def refused (settled : Settled) : Option Reason :=
  match settled.verdict with
  | .refuse reason => some reason
  | _ => none

def merged (settled : Settled) : Bool :=
  match settled.captured with
  | some (.merged _ _ _ _) => true
  | _ => false

def outcome (settled : Settled) (index : Nat) (decision : Option String) : CaptureOutcome where
  index := index
  verdict := settled.label
  id := settled.captured.map Settling.id
  merged := settled.merged
  reasonCode := settled.verdict.reason.map Reason.code
  problem := settled.refused.map (fun reason => problemType reason.code)
  decision := decision

def event (settled : Settled) (scope : Scope) : ApiEvent where
  owner := scope.owner
  name := "capture"
  data := ⟨scopeLabel scope,settled.captured.map (fun captured => toString captured.id),settled.label,
    settled.verdict.reason.map Reason.code⟩

end Settled

/-! ### Calls and what they share -/

/-- Where a call stands. -/
inductive Phase where
  | arrived
  | judging (scope : Scope) (candidates : List CandidateIn)
  | owing (scope : Scope) (candidates : List CandidateIn) (settled : Settled) (entry : LedgerEntry)
  | telling (scope : Scope) (candidates : List CandidateIn) (settled : Settled) (decision : Option String)
  | answered
  -- a call that ends without a response was dropped
  | closed (response : Option Response)

/-- A call: the request, the outcomes so far, and the answer it worked out itself. -/
structure Call where
  caller : Caller
  header : Header
  body : List UInt8
  phase : Phase
  results : List CaptureOutcome
  own : Option Answer

def Call.fresh (caller : Caller) (header : Header) (body : List UInt8) : Call := ⟨caller,header,body,.arrived,[],none⟩

/-- What all calls share. -/
structure Cell where
  stock : Stock
  memos : String → Option Remembered
  ledger : List Decision
  events : List ApiEvent

structure Surface where
  cell : Cell
  calls : List Call

def Surface.empty : Surface := ⟨⟨.empty,fun _ => none,[],[]⟩,[]⟩

/-- One try at the next candidate: the clock, the new id and key, what was read for it, and
    the error that may come back although the transaction is in. -/
structure Trial where
  at' : UnixSeconds
  id : MemoryId
  key : DecisionKey
  leader : Database
  replica : Database
  target : Option ActiveEmbedding
  lost : Option Failure

inductive Step where
  | look (found : Option Remembered)
  | judge (trial : Trial)
  | append (lost : Option Failure)
  | publish
  | fail (failure : Failure)
  | finish (kept delivered : Bool)
  | vanish

inductive Action where
  | arrive (caller : Caller) (header : Header) (body : List UInt8)
  | advance (call : Nat) (step : Step)
  -- a memo's time is up
  | forget (slot : String)
  -- anything else the store commits
  | elsewhere (txn : Pipeline.Txn)

inductive Refusal where
  | outOfTurn
  | store (error : StoreError)
  deriving Repr, DecidableEq

/-! ### Steps of a call -/

section
variable {SecretRules : Type} (api : Api SecretRules)

def Call.settle (call : Call) (answer : Answer) : Call := { call with phase := .answered, own := some answer }

def Call.refuse (call : Call) (error : ApiError) : Call := call.settle ⟨error.status,api.renderProblem error.problem⟩

/-- Parse and bound the request, and resolve its scope. -/
def start (caller : Caller) (body : List UInt8) : Except ApiError (Scope × List CandidateIn) := do
  let request ← (api.parse body).mapError
    (fun message => .invalid [.lit s!"the capture request is malformed: {message}"])
  let count := request.candidates.length
  if count = 0 ∨ count > api.maxBatch then
    .error ⟨422,"batch_bounds",[.lit s!"a capture carries 1 to {api.maxBatch} candidates, not {count}"]⟩
  else do
    let scope ← (request.scope.getD .personal).resolve caller.sub
    .ok (scope,request.candidates)

def Call.begin' (call : Call) : Call :=
  match start api call.caller call.body with
  | .error refusal => call.refuse api refusal
  | .ok (scope,candidates) => { call with phase := .judging scope candidates }

def keyReused : ApiError :=
  ⟨422,"idempotency_key_reused",[.lit "this Idempotency-Key already answered a different request"]⟩

def Call.close (call : Call) (response : Response) : Call := { call with phase := .closed (some response) }

def Call.turnAway (call : Call) (error : ApiError) : Call :=
  call.close (respond ⟨error.status,api.renderProblem error.problem⟩ false)

/-- The memo of the attempt, where the request names one. -/
def memoOf (call : Call) (cell : Cell) : Option Remembered :=
  match idempotencyKey call.header with
  | .ok (some key) => cell.memos (slot api.sha256 call.caller key)
  | _ => none

/-- Answer from the memo of the attempt, or begin. -/
def Call.look (call : Call) (found : Option Remembered) : Call :=
  match idempotencyKey call.header with
  | .error refusal => call.turnAway api refusal
  | .ok none => call.begin' api
  | .ok (some _) =>
    match found with
    | none => call.begin' api
    | some memo =>
      if memo.request = requestDigest api.sha256 call.body then call.close (respond ⟨memo.status,memo.body⟩ true)
      else call.turnAway api keyReused

/-- The memory a verdict stores. -/
def stored : Verdict → Option Memory
  | .admitted memory => some memory
  | .quarantine memory _ => some memory
  | .refuse _ => none

def kindOf : Verdict → String
  | .refuse _ => kindRefuse
  | _ => kindQuarantine

def insertKey (row : KeyRow) (stock : Stock) : Except StoreError Stock := do
  let keys ← insertRow KeyRow.keyId (StoreError.constraint "decision_key") row stock.holdings.db.keys
  .ok { stock with holdings := { stock.holdings with db := { stock.holdings.db with keys := keys } } }

/-- The capture a verdict stages, from what was read for it. -/
def stageCapture (trial : Trial) (verdict : Verdict) : Except StoreError (Option Settling) :=
  match stored verdict with
  | none => .ok none
  | some memory => (Lifecycle.capture api.fingerprint trial.leader trial.replica api.maxBodyBytes memory).map some

def commitCapture (captured : Option Settling) (target : Option ActiveEmbedding) (stock : Stock) : Except StoreError Stock :=
  match captured with
  | none => .ok stock
  | some settling => Pipeline.commitLife api.fingerprint (.capture settling) target stock

/-- The Decision owed for a verdict, under a key of its own. -/
def entryOf (caller : Caller) (key : DecisionKey) (candidate : Candidate) (verdict : Verdict) (reason : Reason)
    (stored : Option MemoryId) : LedgerEntry :=
  ledgerEntry (kindOf verdict) reason candidate.parts.scope caller.sub
    ⟨hex (api.hmac key.secret (digestMaterial api.linked.nfc candidate)),digestAlgorithm,key.id⟩ stored

/-- The one transaction a verdict implies: the capture, and the key of the Decision. -/
def commit (caller : Caller) (trial : Trial) (candidate : Candidate) (stock : Stock) : Except StoreError (Settled × Stock) := do
  let verdict := evaluate api.linked api.rules candidate
  let captured ← stageCapture api trial verdict
  let stock ← commitCapture api captured trial.target stock
  match verdict.reason with
  | none => .ok (⟨candidate.parts.id,verdict,captured,none⟩,stock)
  | some reason => do
    let row := captured.map Settling.id
    let stock ← insertKey ⟨trial.key.id,candidate.parts.scope,row⟩ stock
    .ok (⟨candidate.parts.id,verdict,captured,some (entryOf api caller trial.key candidate verdict reason row)⟩,stock)

/-- What comes after the transaction: the Decision, if one is owed, else the event. -/
def owed (scope : Scope) (candidates : List CandidateIn) (settled : Settled) : Phase :=
  match settled.entry with
  | none => .telling scope candidates settled none
  | some entry => .owing scope candidates settled entry

/-- Judge the next candidate and commit what the verdict implies. -/
def Call.judge (call : Call) (trial : Trial) (cell : Cell) : Except Refusal (Call × Cell) :=
  match call.phase with
  | .judging scope candidates =>
    match candidates[call.results.length]? with
    | none => .error .outOfTurn
    | some candidate =>
      match parts call.caller scope candidate trial.at' trial.id with
      | .error refusal => .ok (call.refuse api refusal,cell)
      | .ok parts => do
        let (settled,stock) ← (commit api call.caller trial ⟨parts,.authenticated⟩ cell.stock).mapError .store
        let cell := { cell with stock := stock }
        match trial.lost with
        | some failure => .ok (call.refuse api (.ofFailure failure),cell)
        | none => .ok ({ call with phase := owed scope candidates settled },cell)
  | _ => .error .outOfTurn

/-- Append the Decision that is owed. -/
def Call.append (call : Call) (lost : Option Failure) (cell : Cell) : Except Refusal (Call × Cell) :=
  match call.phase with
  | .owing scope candidates settled entry =>
    let decision := decisionOf entry settled.candidate
    let cell := { cell with ledger := cell.ledger ++ [decision] }
    match lost with
    | some failure => .ok (call.refuse api (.ofFailure failure),cell)
    | none => .ok ({ call with phase := .telling scope candidates settled (some decision.id) },cell)
  | _ => .error .outOfTurn

/-- Where a call goes on once the outcome of a candidate is told; a request of one
    candidate is refused with it. -/
def Call.told (call : Call) (scope : Scope) (candidates : List CandidateIn) (settled : Settled) (results : List CaptureOutcome) :
    Call :=
  let call := { call with results := results }
  match candidates,settled.refused with
  | [_],some reason => call.refuse api (.refused reason)
  | _,_ =>
    if results.length = candidates.length then call.settle ⟨200,api.renderResults results⟩
    else { call with phase := .judging scope candidates }

/-- Publish the event of the candidate, and go on. -/
def Call.publish (call : Call) (cell : Cell) : Except Refusal (Call × Cell) :=
  match call.phase with
  | .telling scope candidates settled decision =>
    .ok (call.told api scope candidates settled (call.results ++ [settled.outcome call.results.length decision]),
      { cell with events := cell.events ++ [settled.event scope] })
  | _ => .error .outOfTurn

/-- A read or a write that answered with an error, and did nothing. -/
def Call.fail (call : Call) (failure : Failure) (cell : Cell) : Except Refusal (Call × Cell) :=
  match call.phase with
  | .arrived =>
    match idempotencyKey call.header with
    | .ok (some _) => .ok (call.turnAway api (.ofFailure failure),cell)
    | _ => .error .outOfTurn
  | .judging _ _ | .owing _ _ _ _ => .ok (call.refuse api (.ofFailure failure),cell)
  | _ => .error .outOfTurn

/-- The memo of an answer: a failure of this cell is not remembered. -/
def remember (call : Call) (answer : Answer) (cell : Cell) : Cell :=
  match idempotencyKey call.header with
  | .ok (some key) =>
    if isServerError answer.status then cell
    else { cell with
      memos := Function.update cell.memos (slot api.sha256 call.caller key)
        (some ⟨requestDigest api.sha256 call.body,answer.status,answer.json⟩) }
  | _ => cell

/-- Remember the answer, if the memo is not lost, and send it, if the client is there. -/
def Call.finish (call : Call) (kept delivered : Bool) (cell : Cell) : Except Refusal (Call × Cell) :=
  match call.phase,call.own with
  | .answered,some answer =>
    .ok ({ call with phase := .closed (if delivered then some (respond answer false) else none) },
      if kept then remember api call answer cell else cell)
  | _,_ => .error .outOfTurn

def Call.vanish (call : Call) (cell : Cell) : Except Refusal (Call × Cell) :=
  match call.phase with
  | .closed _ => .error .outOfTurn
  | _ => .ok ({ call with phase := .closed none },cell)

def Call.advance (call : Call) (step : Step) (cell : Cell) : Except Refusal (Call × Cell) :=
  match step with
  | .look found =>
    match call.phase with
    | .arrived => .ok (call.look api found,cell)
    | _ => .error .outOfTurn
  | .judge trial => call.judge api trial cell
  | .append lost => call.append api lost cell
  | .publish => call.publish api cell
  | .fail failure => call.fail api failure cell
  | .finish kept delivered => call.finish api kept delivered cell
  | .vanish => call.vanish cell

/-! ### Runs -/

def apply (surface : Surface) : Action → Except Refusal Surface
  | .arrive caller header body => .ok { surface with calls := surface.calls ++ [.fresh caller header body] }
  | .advance index step =>
    match surface.calls[index]? with
    | none => .error .outOfTurn
    | some call => do
      let (call,cell) ← call.advance api step surface.cell
      .ok ⟨cell,surface.calls.set index call⟩
  | .forget slot => .ok { surface with cell := { surface.cell with memos := Function.update surface.cell.memos slot none } }
  | .elsewhere txn => do
    let stock ← (Pipeline.commit api.fingerprint api.scopeId surface.cell.stock txn).mapError .store
    .ok { surface with cell := { surface.cell with stock := stock } }

variable (redigests : Bool)

/-- What each action rests on: a memo and the rows a capture reads may be of any state there
    was. -/
inductive Stages (history : List Surface) : Action → Prop
  | arrive (caller : Caller) (header : Header) (body : List UInt8) : Stages history (.arrive caller header body)
  | look {index : Nat} {call : Call} {now seen : Surface} (known : now ∈ history) (is : now.calls[index]? = some call)
      (reads : seen ∈ history) : Stages history (.advance index (.look (memoOf api call seen.cell)))
  | judge (index : Nat) {trial : Trial} (atLeader : ∃ seen ∈ history, seen.cell.stock.holdings.db = trial.leader)
      (atReplica : ∃ seen ∈ history, seen.cell.stock.holdings.db = trial.replica) :
      Stages history (.advance index (.judge trial))
  | append (index : Nat) (lost : Option Failure) : Stages history (.advance index (.append lost))
  | publish (index : Nat) : Stages history (.advance index .publish)
  | fail (index : Nat) (failure : Failure) : Stages history (.advance index (.fail failure))
  | finish (index : Nat) (kept delivered : Bool) : Stages history (.advance index (.finish kept delivered))
  | vanish (index : Nat) : Stages history (.advance index .vanish)
  | forget (slot : String) : Stages history (.forget slot)
  | elsewhere {txn : Pipeline.Txn}
      (staged : Pipeline.Stages api.fingerprint api.chunks redigests (history.map (·.cell.stock)) txn) :
      Stages history (.elsewhere txn)

/-- The surface; the re-digest of an upgrade may run beside it or not. -/
def system : System Surface Action Action Refusal := ⟨.empty,apply api,fun action => [action],Stages api redigests⟩

end

end Aicortex.CaptureCalls
