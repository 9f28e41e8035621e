import Aicortex.PipelineFacts
import Aicortex.Lib.Attempts

/-!
The workers of a deployment at their drains. A drain closes the expired attempts of the
queue and takes one claim after another; it counts what the attempts of the claim have
spent, reads the active model and the memory, has the chunks embedded, and commits what
came of the claim. Any number of drains run at once, and between two accesses of one the
others, the rest of the store, a lost acknowledgement or a crash may come: the lease that
keeps the drains of a revision apart may lapse, and nothing rests on it. Of the queue the
drains rest on what `Lawful` says.
-/

namespace Aicortex.Drains
open Aicortex.Text Aicortex.CivilTime Aicortex.Memories Aicortex.Schema Aicortex.MemoryRepo Aicortex.EmbeddingTables
open Aicortex.ModelRegistry Aicortex.Chunking Aicortex.Provider Aicortex.Pipeline
open Lib.Tables Lib.Outcome Lib.StaleRuns Lib.StaleRuns.System Lib.Attempts
open Aicortex.Claims hiding Unit Claim

/-! ### Settings and reports -/

/-- Durations are in nanoseconds. -/
def second : Nat := 10 ^ 9

structure RetryPolicy where
  maxAttempts : Nat
  base : Nat
  cap : Nat
  deriving Repr, DecidableEq

structure WorkerConfig where
  batchSize : Nat
  holdFor : Nat
  retry : RetryPolicy
  deriving Repr, DecidableEq

def WorkerConfig.validate (config : WorkerConfig) : Except CallError WorkerConfig :=
  if config.batchSize = 0 ∨ config.holdFor < 2 * second ∨ config.retry.maxAttempts = 0 ∨ config.retry.base = 0 ∨
      config.retry.cap = 0 then
    .error (.config "embedding worker bounds must be non-zero and hold_for must be at least two seconds")
  else .ok config

def defaultWorkerConfig : WorkerConfig := ⟨16,60 * second,⟨5,2 * second,300 * second⟩⟩

/-- What one drain observed and committed. -/
structure WorkerReport where
  claimed : Nat
  completed : Nat
  failed : Nat
  dead : Nat
  quarantined : Nat
  deriving Repr, DecidableEq

def WorkerReport.zero : WorkerReport := ⟨0,0,0,0,0⟩

def maxU32 : Nat := 2 ^ 32 - 1
def maxU64 : Nat := 2 ^ 64 - 1

/-- One more, as far as a count goes. -/
def more (count : Nat) : Nat := min (count + 1) maxU64

/-! ### The queue of the chassis -/

/-- Statements of the chassis in a transaction: rows of work are changed in place, and
    attempts recorded. -/
structure Upkeep where
  row : WorkRow → WorkRow
  attempts : List AttemptRow → List AttemptRow

def Upkeep.txn (upkeep : Upkeep) : Txn := .upkeep upkeep.row upkeep.attempts

/-- The store after an upkeep. -/
def Upkeep.on (upkeep : Upkeep) (stock : Stock) : Stock :=
  { stock with work := stock.work.map upkeep.row, attempts := upkeep.attempts stock.attempts }

def Upkeep.andThen (first second : Upkeep) : Upkeep := ⟨second.row ∘ first.row,second.attempts ∘ first.attempts⟩

/-- The queue, and the class the chassis files an error under. -/
structure Chassis where
  sweep : RetryPolicy → UnixSeconds → Nat → Stock → Except StoreError (Upkeep × Nat)
  next : Nat → String → Nat → UnixSeconds → Stock → Except StoreError (Upkeep × Option Claim)
  renew : Claim → Nat → UnixSeconds → Stock → Except StoreError Upkeep
  fail : Claim → String → RetryPolicy → UnixSeconds → Stock → Except StoreError Upkeep
  requeue : WorkKey → UnixSeconds → Upkeep
  kind : CallError → String

/-- The classes that a provider is not charged for. -/
def administrative (errorClass : String) : Bool := errorClass == "model_deactivated" || errorClass == "quarantined"

/-- Only attempts a provider is charged for are recorded. -/
def Charges (upkeep : Upkeep) : Prop :=
  ∀ attempts, ∃ records, upkeep.attempts attempts = attempts ++ records ∧
    ∀ record ∈ records, administrative record.errorClass = false

/-- Claims that expired are closed, and go to the dead letter only at the ceiling. -/
structure Closes (ceiling : Nat) (upkeep : Upkeep) : Prop where
  key : ∀ row, (upkeep.row row).key = row.key
  attempt : ∀ row, (upkeep.row row).attempt = row.attempt
  state : ∀ row, upkeep.row row = row ∨ (row.state = .claimed ∧ ((upkeep.row row).state = .pending ∨
    (upkeep.row row).state = .failed ∨ ((upkeep.row row).state = .dead ∧ ceiling ≤ row.attempt)))
  charges : Charges upkeep

/-- What the worker rests on of the queue. -/
structure Lawful (chassis : Chassis) : Prop where
  sweeps : ∀ policy now limit stock upkeep dead, chassis.sweep policy now limit stock = .ok (upkeep,dead) →
    Closes policy.maxAttempts upkeep
  idles : ∀ revision holder hold now stock upkeep, chassis.next revision holder hold now stock = .ok (upkeep,none) →
    (∀ row, upkeep.row row = row) ∧ Charges upkeep
  -- a claim is the next attempt at work of the revision that is there
  takes : ∀ revision holder hold now stock upkeep claim, chassis.next revision holder hold now stock = .ok (upkeep,some claim) →
    claim.key.revision = revision ∧ Charges upkeep ∧
      (∃ row ∈ stock.work, row.key = claim.key ∧ row.attempt + 1 = claim.attempt ∧
        row.state ≠ .done ∧ row.state ≠ .dead) ∧
      ∀ row, upkeep.row row = if row.key = claim.key then { row with state := .claimed, attempt := row.attempt + 1 } else row
  renews : ∀ claim hold now stock upkeep, chassis.renew claim hold now stock = .ok upkeep →
    Held stock claim ∧ (∀ row, upkeep.row row = row) ∧ ∀ attempts, upkeep.attempts attempts = attempts
  -- only the holder may fail a claim, and the policy says whether it may be tried again
  fails : ∀ claim errorClass policy now stock upkeep, chassis.fail claim errorClass policy now stock = .ok upkeep →
    Held stock claim ∧
      (∀ row, upkeep.row row = if claim.holds row then
        { row with state := if policy.maxAttempts ≤ claim.attempt then .dead else .failed } else row) ∧
      ∀ attempts, upkeep.attempts attempts = attempts ++ [⟨claim.key,claim.attempt,errorClass⟩]
  requeues : ∀ key now,
    (∀ row, (chassis.requeue key now).row row =
      if row.key = key ∧ row.state = .dead then { row with state := .pending } else row) ∧
      ∀ attempts, (chassis.requeue key now).attempts attempts = attempts
  kinds : ∀ error, administrative (chassis.kind error) = false

/-! ### Drains -/

structure Worker where
  model : ModelRow
  holder : String

/-- What is to be done next about the claim in hand. -/
inductive Errand where
  | weighing
  | expiring
  | checking
  | loading
  | renewing (memory : MemoryId) (chunks : List Chunk)
  | embedding (memory : MemoryId) (chunks : List Chunk)
  | awaiting (memory : MemoryId) (chunks : List Chunk)
  | committing (derivative : Derivative)
  | rereading (refusal : StoreError)
  | rechecking (refusal : StoreError)
  | emptying
  | deferring
  | quarantining
  | counting (error : CallError)
  | failing (error : CallError) (ceiling : Nat)

inductive Phase where
  | sweeping
  | opening
  | claiming
  | holding (claim : Claim) (errand : Errand)
  | ended (outcome : Except CallError WorkerReport)
  -- the worker crashed, or was dropped
  | vanished

structure Drain where
  worker : Worker
  report : WorkerReport
  -- how many claims may still be taken
  left : Nat
  phase : Phase

namespace Drain

def start (worker : Worker) : Drain := ⟨worker,.zero,0,.sweeping⟩

def abort (drain : Drain) (error : CallError) : Drain := { drain with phase := .ended (.error error) }

def finish (drain : Drain) : Drain := { drain with phase := .ended (.ok drain.report) }

def hold (drain : Drain) (claim : Claim) (errand : Errand) : Drain := { drain with phase := .holding claim errand }

/-- The claim in hand, and what is next about it. -/
def hand (drain : Drain) : Option (Claim × Errand) :=
  match drain.phase with
  | .holding claim errand => some (claim,errand)
  | _ => none

/-- The next turn of the loop, if there is one. -/
def again (drain : Drain) : Drain := if drain.left = 0 then drain.finish else { drain with phase := .claiming }

/-- A claim that was lost to another is passed over; any other failure ends the drain. -/
def pass (drain : Drain) (error : CallError) : Drain :=
  match error with
  | .store (.conflict _) => drain.again
  | _ => drain.abort error

end Drain

/-! ### What the drains share -/

/-- The linked code and the settings of a deployment. -/
structure Works where
  chassis : Chassis
  config : WorkerConfig
  chunks : ChunkConfig
  fingerprint : Memory → String
  scopeId : Scope → String

def ticket (claim : Claim) : Ticket WorkKey := ⟨claim.key,claim.attempt⟩

/-- What was done so far: the claims that were taken, their ceilings as they were read, the
    claims a provider was asked for, and those that were closed. -/
structure Annals where
  issued : List (Ticket WorkKey)
  weighed : List (Ticket WorkKey × Nat)
  asked : List (Ticket WorkKey)
  settled : List (Ticket WorkKey)
  excused : List (Ticket WorkKey)

namespace Annals

def issue (claim : Option Claim) (annals : Annals) : Annals :=
  { annals with issued := (claim.map ticket).toList ++ annals.issued }

def weigh (claim : Claim) (ceiling : Nat) (annals : Annals) : Annals :=
  { annals with weighed := (ticket claim,ceiling) :: annals.weighed }

def ask (claim : Claim) (annals : Annals) : Annals := { annals with asked := ticket claim :: annals.asked }

def settle (claim : Claim) (annals : Annals) : Annals := { annals with settled := ticket claim :: annals.settled }

def excuse (claim : Claim) (annals : Annals) : Annals :=
  { annals with settled := ticket claim :: annals.settled, excused := ticket claim :: annals.excused }

end Annals

structure Site where
  log : List (Txn × Stock)
  drains : List Drain
  annals : Annals

def Site.empty : Site := ⟨[],[],⟨[],[],[],[],[]⟩⟩

section
variable (works : Works) (redigests : Bool)

def store : System Stock Txn Txn StoreError := Pipeline.system works.fingerprint works.chunks redigests works.scopeId

def Site.stock (site : Site) : Stock := site.log.head?.elim Stock.empty Prod.snd

/-- Commit a transaction, and note what it means. The acknowledgement may be lost. -/
def Site.write (site : Site) (txn : Except StoreError Txn) (note : Annals → Annals) (lost : Option StoreError) :
    Site × Except StoreError Unit :=
  match txn with
  | .error refusal => (site,.error refusal)
  | .ok txn =>
    match Pipeline.commit works.fingerprint works.scopeId site.stock txn with
    | .error refusal => (site,.error refusal)
    | .ok next => (⟨(txn,next) :: site.log,site.drains,note site.annals⟩,lost.elim (.ok ()) .error)

/-- How many attempts at the work a provider was not charged for. -/
def administrativeAttempts (stock : Stock) (key : WorkKey) : Nat :=
  stock.attempts.countP (fun row => row.key == key && administrative row.errorClass)

/-- The attempts the work may have: those of the policy, and those that were not charged. -/
def providerRetryPolicy (stock : Stock) (key : WorkKey) : Except StoreError Nat :=
  let administrative := administrativeAttempts stock key
  if maxU32 < administrative then .error (.integrity "embedding administrative attempt count is invalid")
  else if maxU32 < works.config.retry.maxAttempts + administrative then .error (.integrity "embedding retry ceiling overflowed")
  else .ok (works.config.retry.maxAttempts + administrative)

/-- The policy under which an attempt is its last. -/
def terminal (claim : Claim) : RetryPolicy := { works.config.retry with maxAttempts := claim.attempt }

/-! ### The errands of a claim -/

/-- The active model has to be the one of the worker and of the claim. -/
def checked (model : ModelRow) (claim : Claim) (stock : Stock) : Errand :=
  match active stock.models with
  | none => .deferring
  | some current =>
    if claim.key.revision = model.revision ∧ claim.key.modelId = model.identity.modelId ∧
      sameModelRevision current model = true then .loading else .emptying

/-- The memory is cut into chunks, within what one transaction may carry. -/
def loaded (model : ModelRow) (claim : Claim) (stock : Stock) : Errand :=
  match embeddingMemory stock claim.key.scope claim.key.memoryId with
  | none => .emptying
  | some row =>
    if row.status = .erased then .emptying
    else if row.status = .quarantined then .quarantining
    else
      match split works.chunks row.record.body.text with
      | .error (.config message) => .counting (.config message)
      | .error (.validation message) => .counting (.store (.validation message))
      | .ok chunks =>
        if chunks = [] then .counting (.store (.validation s!"memory {row.record.id} has no text to embed"))
        else if maxDerivativeVectorBytes < chunks.length * model.identity.dims * 4 then
          .counting (.store (.validation
            (s!"embedding derivative payload exceeds the {maxDerivativeVectorBytes}-byte " ++ "worker limit")))
        else .renewing row.record.id chunks

/-- What the provider answered is validated. -/
def answered (model : ModelRow) (claim : Claim) (memory : MemoryId) (chunks : List Chunk) (now : UnixSeconds)
    (answer : Except StoreError (List Vector)) : Errand :=
  match answer with
  | .error refusal => .counting (.store refusal)
  | .ok vectors =>
    match validateBatch model.identity chunks.length vectors with
    | .error refusal => .counting (.store refusal)
    | .ok _ => .committing ⟨claim,memory,model,chunks,vectors,now⟩

/-- After a commit was refused the memory is read again, -/
def reread (claim : Claim) (refusal : StoreError) (stock : Stock) : Errand :=
  match embeddingMemory stock claim.key.scope claim.key.memoryId with
  | none => .emptying
  | some row =>
    if row.status = .quarantined then .quarantining else if row.status = .erased then .emptying else .rechecking refusal

/-- and then the active model. -/
def rechecked (model : ModelRow) (refusal : StoreError) (stock : Stock) : Errand :=
  match active stock.models with
  | none => .deferring
  | some current => if sameModelRevision current model = true then .counting (.store refusal) else .emptying

/-- Where a drain goes on after what it asked of the store. -/
def Drain.after (drain : Drain) (claim : Claim) (errand : Errand) (told : Except StoreError Unit) : Drain :=
  match told,errand with
  | .error refusal,.committing _ => drain.hold claim (.rereading refusal)
  | .error refusal,_ => drain.pass (.store refusal)
  | .ok _,.renewing memory chunks => drain.hold claim (.embedding memory chunks)
  | .ok _,.expiring => { drain with report := { drain.report with dead := more drain.report.dead } }.finish
  | .ok _,.failing _ ceiling =>
    if ceiling ≤ claim.attempt then { drain with report := { drain.report with dead := more drain.report.dead } }.finish
    else { drain with report := { drain.report with failed := more drain.report.failed } }.finish
  | .ok _,.quarantining =>
    { drain with report := { drain.report with quarantined := more drain.report.quarantined } }.again
  | .ok _,.deferring => drain.finish
  | .ok _,_ => { drain with report := { drain.report with completed := more drain.report.completed } }.again

/-- What an errand commits, and what that means; the others only read, or ask. -/
def Errand.writes (errand : Errand) (claim : Claim) (now : UnixSeconds) (stock : Stock) :
    Option (Except StoreError Txn × (Annals → Annals)) :=
  match errand with
  | .expiring => some ((works.chassis.fail claim "claim_expired" (terminal works claim) now stock).map Upkeep.txn,.settle claim)
  | .renewing _ _ => some ((works.chassis.renew claim works.config.holdFor now stock).map Upkeep.txn,id)
  | .committing derivative => some (.ok (.embed derivative),.settle claim)
  | .emptying => some (.ok (.completeEmpty claim),.settle claim)
  | .deferring =>
    some ((works.chassis.fail claim "model_deactivated" (terminal works claim) now stock).map
      (fun upkeep => (upkeep.andThen (works.chassis.requeue claim.key now)).txn),.excuse claim)
  | .quarantining =>
    some ((works.chassis.fail claim "quarantined" (terminal works claim) now stock).map Upkeep.txn,.excuse claim)
  | .failing error ceiling =>
    some ((works.chassis.fail claim (works.chassis.kind error) { works.config.retry with maxAttempts := ceiling } now stock).map
      Upkeep.txn,.settle claim)
  | _ => none

/-- An errand that only reads. -/
def Drain.read (drain : Drain) (claim : Claim) (errand : Errand) (stock : Stock) : Option Drain :=
  match errand with
  | .checking => some (drain.hold claim (checked drain.worker.model claim stock))
  | .loading => some (drain.hold claim (loaded works drain.worker.model claim stock))
  | .rereading refusal => some (drain.hold claim (reread claim refusal stock))
  | .rechecking refusal => some (drain.hold claim (rechecked drain.worker.model refusal stock))
  | _ => none

/-! ### Steps -/

inductive Step where
  -- the next access, at its time; the acknowledgement of a transaction may be lost
  | proceed (now : UnixSeconds) (lost : Option StoreError)
  | answer (now : UnixSeconds) (vectors : Except StoreError (List Vector))
  -- an access that failed, and did nothing
  | trouble (error : StoreError)
  | vanish

inductive Action where
  | drain (worker : Worker)
  | advance (index : Nat) (step : Step)
  -- an operator, or a review, gives dead work another chance
  | requeue (key : WorkKey) (now : UnixSeconds)
  -- anything else the store commits
  | elsewhere (txn : Txn)

inductive Refusal where
  | outOfTurn
  | store (error : StoreError)
  deriving Repr, DecidableEq

/-- Read the ceiling of a claim, and go by it. -/
def Drain.weigh (drain : Drain) (claim : Claim) (site : Site) (refused : CallError → Drain) (go : Nat → Errand) : Drain × Site :=
  match providerRetryPolicy works site.stock claim.key with
  | .error refusal => (refused (.store refusal),site)
  | .ok ceiling => (drain.hold claim (go ceiling),{ site with annals := site.annals.weigh claim ceiling })

def Drain.work (drain : Drain) (claim : Claim) (errand : Errand) (now : UnixSeconds) (lost : Option StoreError) (site : Site) :
    Except Refusal (Drain × Site) :=
  match errand with
  | .weighing =>
    .ok (drain.weigh works claim site drain.abort (fun ceiling => if ceiling < claim.attempt then .expiring else .checking))
  | .counting error => .ok (drain.weigh works claim site drain.pass (.failing error))
  | .embedding memory chunks =>
    .ok (drain.hold claim (.awaiting memory chunks),{ site with annals := site.annals.ask claim })
  | errand =>
    match errand.writes works claim now site.stock with
    | some (txn,note) =>
      let (site,told) := site.write works txn note lost
      .ok (drain.after claim errand told,site)
    | none =>
      match drain.read works claim errand site.stock with
      | some drain => .ok (drain,site)
      | none => .error .outOfTurn

/-- After the sweep: a drain does nothing where no model is active, or another under the
    number of its own. -/
def Drain.open' (drain : Drain) (stock : Stock) : Drain :=
  match active stock.models with
  | none => drain.finish
  | some current =>
    if current.revision = drain.worker.model.revision ∧ sameModelRevision current drain.worker.model = false then drain.finish
    else { drain with left := works.config.batchSize }.again

/-- Close what expired. The chassis's own ceiling is out of the way: the one of the row is
    looked at once it is taken again. -/
def Drain.sweep (drain : Drain) (now : UnixSeconds) (lost : Option StoreError) (site : Site) : Drain × Site :=
  match works.chassis.sweep { works.config.retry with maxAttempts := maxU32 } now works.config.batchSize site.stock with
  | .error refusal => (drain.abort (.store refusal),site)
  | .ok (upkeep,dead) =>
    match site.write works (.ok upkeep.txn) id lost with
    | (site,.error refusal) => (drain.abort (.store refusal),site)
    | (site,.ok _) => ({ drain with report := { WorkerReport.zero with dead := dead }, phase := .opening },site)

def Drain.claim (drain : Drain) (now : UnixSeconds) (lost : Option StoreError) (site : Site) : Drain × Site :=
  match works.chassis.next drain.worker.model.revision drain.worker.holder works.config.holdFor now site.stock with
  | .error refusal => (drain.abort (.store refusal),site)
  | .ok (upkeep,taken) =>
    match site.write works (.ok upkeep.txn) (.issue taken) lost,taken with
    | (site,.error refusal),_ => (drain.abort (.store refusal),site)
    | (site,.ok _),none => (drain.finish,site)
    | (site,.ok _),some claim =>
      ({ drain with
        report := { drain.report with claimed := more drain.report.claimed }
        left := drain.left - 1
        phase := .holding claim .weighing },site)

/-- Where an access that failed leaves a drain. -/
def Drain.trouble (drain : Drain) (error : StoreError) : Except Refusal Drain :=
  match drain.phase with
  | .sweeping | .opening | .claiming | .holding _ .weighing => .ok (drain.abort (.store error))
  | .holding claim (.committing _) => .ok (drain.hold claim (.rereading error))
  | .holding _ (.embedding _ _) | .holding _ (.awaiting _ _) | .ended _ | .vanished => .error .outOfTurn
  | .holding _ _ => .ok (drain.pass (.store error))

def Drain.advance (drain : Drain) (step : Step) (site : Site) : Except Refusal (Drain × Site) :=
  match step with
  | .proceed now lost =>
    match drain.phase with
    | .sweeping => .ok (drain.sweep works now lost site)
    | .opening => .ok (drain.open' works site.stock,site)
    | .claiming => .ok (drain.claim works now lost site)
    | .holding claim errand => drain.work works claim errand now lost site
    | .ended _ | .vanished => .error .outOfTurn
  | .answer now vectors =>
    match drain.phase with
    | .holding claim (.awaiting memory chunks) =>
      .ok (drain.hold claim (answered drain.worker.model claim memory chunks now vectors),site)
    | _ => .error .outOfTurn
  | .trouble error => (drain.trouble error).map (fun drain => (drain,site))
  | .vanish => .ok ({ drain with phase := .vanished },site)

def apply (site : Site) : Action → Except Refusal Site
  | .drain worker => .ok { site with drains := site.drains ++ [.start worker] }
  | .advance index step =>
    match site.drains[index]? with
    | none => .error .outOfTurn
    | some drain => do
      let (drain,site) ← drain.advance works step site
      .ok { site with drains := site.drains.set index drain }
  | .requeue key now =>
    match site.write works (.ok (works.chassis.requeue key now).txn) id none with
    | (site,.ok _) => .ok site
    | (_,.error refusal) => .error (.store refusal)
  | .elsewhere txn =>
    match site.write works (.ok txn) id none with
    | (site,.ok _) => .ok site
    | (_,.error refusal) => .error (.store refusal)

/-- What only drains commit. -/
def drained : Txn → Bool
  | .embed _ | .completeEmpty _ | .upkeep _ _ => true
  | _ => false

/-- What an action rests on: a worker has read its model as the active one, and what else the
    store commits is staged as its calls stage it. -/
inductive Stages (site : Site) : Action → Prop
  | drain {worker : Worker} (valid : works.config.validate = .ok works.config)
      (bound : Bound ((store works redigests).states site.log) worker.model) : Stages site (.drain worker)
  | advance (index : Nat) (step : Step) : Stages site (.advance index step)
  | requeue (key : WorkKey) (now : UnixSeconds) : Stages site (.requeue key now)
  | elsewhere {txn : Txn} (other : drained txn = false)
      (staged : Pipeline.Stages works.fingerprint works.chunks redigests ((store works redigests).states site.log) txn) :
      Stages site (.elsewhere txn)

inductive Reached : Site → Prop
  | start : Reached .empty
  | step {site next : Site} {action : Action} (reached : Reached site) (staged : Stages works redigests site action)
      (applied : apply works site action = .ok next) : Reached next

/-! ### Where the errands end -/

theorem checked_cases (model : ModelRow) (claim : Claim) (stock : Stock) : checked model claim stock = .deferring ∨
    checked model claim stock = .loading ∨ checked model claim stock = .emptying := by
  unfold checked
  split
  · exact .inl rfl
  · split_ifs
    · exact .inr (.inl rfl)
    · exact .inr (.inr rfl)

theorem loaded_cases (model : ModelRow) (claim : Claim) (stock : Stock) :
    loaded works model claim stock = .emptying ∨ loaded works model claim stock = .quarantining ∨
      (∃ error, loaded works model claim stock = .counting error) ∨
        ∃ memory chunks, loaded works model claim stock = .renewing memory chunks := by
  unfold loaded
  split
  · exact .inl rfl
  · split_ifs
    · exact .inl rfl
    · exact .inr (.inl rfl)
    · split
      · exact .inr (.inr (.inl ⟨_,rfl⟩))
      · exact .inr (.inr (.inl ⟨_,rfl⟩))
      · split_ifs
        · exact .inr (.inr (.inl ⟨_,rfl⟩))
        · exact .inr (.inr (.inl ⟨_,rfl⟩))
        · exact .inr (.inr (.inr ⟨_,_,rfl⟩))

theorem answered_cases (model : ModelRow) (claim : Claim) (memory : MemoryId) (chunks : List Chunk) (now : UnixSeconds)
    (answer : Except StoreError (List Vector)) : (∃ error, answered model claim memory chunks now answer = .counting error) ∨
      ∃ derivative, answered model claim memory chunks now answer = .committing derivative := by
  unfold answered
  split
  · exact .inl ⟨_,rfl⟩
  · split
    · exact .inl ⟨_,rfl⟩
    · exact .inr ⟨_,rfl⟩

theorem reread_cases (claim : Claim) (refusal : StoreError) (stock : Stock) : reread claim refusal stock = .emptying ∨
    reread claim refusal stock = .quarantining ∨ reread claim refusal stock = .rechecking refusal := by
  unfold reread
  split
  · exact .inl rfl
  · split_ifs
    · exact .inr (.inl rfl)
    · exact .inl rfl
    · exact .inr (.inr rfl)

theorem rechecked_cases (model : ModelRow) (refusal : StoreError) (stock : Stock) : rechecked model refusal stock = .deferring ∨
    (∃ error, rechecked model refusal stock = .counting error) ∨ rechecked model refusal stock = .emptying := by
  unfold rechecked
  split
  · exact .inl rfl
  · split_ifs
    · exact .inr (.inl ⟨_,rfl⟩)
    · exact .inr (.inr rfl)

/-! ### What an access does -/

/-- Where an errand leads that asks nothing of the store but a read. -/
inductive Leads (model : ModelRow) (claim : Claim) (stock : Stock) : Errand → Errand → Prop
  | checking : Leads model claim stock .checking (checked model claim stock)
  | loading : Leads model claim stock .loading (loaded works model claim stock)
  | awaiting (memory : MemoryId) (chunks : List Chunk) (now : UnixSeconds) (answer : Except StoreError (List Vector)) :
      Leads model claim stock (.awaiting memory chunks) (answered model claim memory chunks now answer)
  | refused (derivative : Derivative) (refusal : StoreError) : Leads model claim stock (.committing derivative) (.rereading refusal)
  | rereading (refusal : StoreError) : Leads model claim stock (.rereading refusal) (reread claim refusal stock)
  | rechecking (refusal : StoreError) : Leads model claim stock (.rechecking refusal) (rechecked model refusal stock)

/-- Where the ceiling of a claim leads. -/
inductive Weighs (claim : Claim) (ceiling : Nat) : Errand → Errand → Prop
  | spent (beyond : ceiling < claim.attempt) : Weighs claim ceiling .weighing .expiring
  | left (within : claim.attempt ≤ ceiling) : Weighs claim ceiling .weighing .checking
  | counted (error : CallError) : Weighs claim ceiling (.counting error) (.failing error ceiling)

/-- The errands that fail a claim: under which class, and at which ceiling. -/
inductive Fails (claim : Claim) : Errand → String → Nat → Prop
  | expiring : Fails claim .expiring "claim_expired" claim.attempt
  | failing (error : CallError) (ceiling : Nat) : Fails claim (.failing error ceiling) (works.chassis.kind error) ceiling

/-- What a drain commits from the claim in hand, what that means, and what is in hand then:
    less where the acknowledgement was lost. -/
inductive Writes (worker : Worker) (stock : Stock) :
    Option (Claim × Errand) → Txn → (Annals → Annals) → Option (Claim × Errand) → Prop
  | sweep {now : UnixSeconds} {upkeep : Upkeep} {dead : Nat}
      (is : works.chassis.sweep { works.config.retry with maxAttempts := maxU32 } now works.config.batchSize stock =
        .ok (upkeep,dead)) :
      Writes worker stock none upkeep.txn id none
  | idle {now : UnixSeconds} {upkeep : Upkeep}
      (is : works.chassis.next worker.model.revision worker.holder works.config.holdFor now stock = .ok (upkeep,none)) :
      Writes worker stock none upkeep.txn (.issue none) none
  | take {now : UnixSeconds} {upkeep : Upkeep} {claim : Claim} {hand : Option (Claim × Errand)}
      (is : works.chassis.next worker.model.revision worker.holder works.config.holdFor now stock = .ok (upkeep,some claim))
      (left : hand = none ∨ hand = some (claim,.weighing)) : Writes worker stock none upkeep.txn (.issue (some claim)) hand
  | renew {now : UnixSeconds} {upkeep : Upkeep} {claim : Claim} {memory : MemoryId} {chunks : List Chunk}
      {hand : Option (Claim × Errand)}
      (is : works.chassis.renew claim works.config.holdFor now stock = .ok upkeep)
      (left : hand = none ∨ hand = some (claim,.embedding memory chunks)) :
      Writes worker stock (some (claim,.renewing memory chunks)) upkeep.txn id hand
  | embed {claim : Claim} {derivative : Derivative} {hand : Option (Claim × Errand)}
      (left : hand = none ∨ ∃ refusal, hand = some (claim,.rereading refusal)) :
      Writes worker stock (some (claim,.committing derivative)) (.embed derivative) (.settle claim) hand
  | empty {claim : Claim} : Writes worker stock (some (claim,.emptying)) (.completeEmpty claim) (.settle claim) none
  | fail {now : UnixSeconds} {upkeep : Upkeep} {claim : Claim} {errand : Errand} {errorClass : String} {ceiling : Nat}
      (fails : Fails works claim errand errorClass ceiling)
      (is : works.chassis.fail claim errorClass { works.config.retry with maxAttempts := ceiling } now stock = .ok upkeep) :
      Writes worker stock (some (claim,errand)) upkeep.txn (.settle claim) none
  | defer {now : UnixSeconds} {upkeep : Upkeep} {claim : Claim}
      (is : works.chassis.fail claim "model_deactivated" (terminal works claim) now stock = .ok upkeep) :
      Writes worker stock (some (claim,.deferring)) (upkeep.andThen (works.chassis.requeue claim.key now)).txn (.excuse claim) none
  | quarantine {now : UnixSeconds} {upkeep : Upkeep} {claim : Claim}
      (is : works.chassis.fail claim "quarantined" (terminal works claim) now stock = .ok upkeep) :
      Writes worker stock (some (claim,.quarantining)) upkeep.txn (.excuse claim) none

/-- All that an access of a drain can do. -/
inductive Turn (drain : Drain) (site : Site) : Drain → Site → Prop
  | leave {next : Drain} (worker : next.worker = drain.worker) (free : next.hand = none) : Turn drain site next site
  | read {claim : Claim} {errand later : Errand} (holds : drain.hand = some (claim,errand))
      (leads : Leads works drain.worker.model claim site.stock errand later) : Turn drain site (drain.hold claim later) site
  | weigh {claim : Claim} {errand later : Errand} {ceiling : Nat} (holds : drain.hand = some (claim,errand))
      (policy : providerRetryPolicy works site.stock claim.key = .ok ceiling) (weighs : Weighs claim ceiling errand later) :
      Turn drain site (drain.hold claim later) { site with annals := site.annals.weigh claim ceiling }
  | ask {claim : Claim} {memory : MemoryId} {chunks : List Chunk} (holds : drain.hand = some (claim,.embedding memory chunks)) :
      Turn drain site (drain.hold claim (.awaiting memory chunks)) { site with annals := site.annals.ask claim }
  | write {next : Drain} {txn : Txn} {after : Stock} {note : Annals → Annals} (worker : next.worker = drain.worker)
      (writes : Writes works drain.worker site.stock drain.hand txn note next.hand)
      (committed : Pipeline.commit works.fingerprint works.scopeId site.stock txn = .ok after) :
      Turn drain site next ⟨(txn,after) :: site.log,site.drains,note site.annals⟩

end

section
variable {works : Works} {drain next : Drain} {site after : Site}

@[simp] theorem Drain.hold_hand (drain : Drain) (claim : Claim) (errand : Errand) :
    (drain.hold claim errand).hand = some (claim,errand) := rfl

@[simp] theorem Drain.again_hand (drain : Drain) : drain.again.hand = none := by
  unfold Drain.again
  split_ifs <;> rfl

@[simp] theorem Drain.again_worker (drain : Drain) : drain.again.worker = drain.worker := by
  unfold Drain.again
  split_ifs <;> rfl

@[simp] theorem Drain.pass_hand (drain : Drain) (error : CallError) : (drain.pass error).hand = none := by
  unfold Drain.pass
  split
  · exact Drain.again_hand drain
  · rfl

@[simp] theorem Drain.pass_worker (drain : Drain) (error : CallError) : (drain.pass error).worker = drain.worker := by
  unfold Drain.pass
  split
  · exact Drain.again_worker drain
  · rfl

theorem hand_of_holding {claim : Claim} {errand : Errand} (is : drain.phase = .holding claim errand) :
    drain.hand = some (claim,errand) := by
  unfold Drain.hand
  rw [is]

/-- A transaction is refused, or it commits, whether or not that is heard of. -/
theorem write_cases {txn : Except StoreError Txn} {note : Annals → Annals} {lost : Option StoreError} {told : Except StoreError Unit}
    (written : site.write works txn note lost = (after,told)) :
    (after = site ∧ ∃ refusal, told = .error refusal) ∨
      ∃ staged stock, txn = .ok staged ∧ Pipeline.commit works.fingerprint works.scopeId site.stock staged = .ok stock ∧
        after = ⟨(staged,stock) :: site.log,site.drains,note site.annals⟩ := by
  unfold Site.write at written
  cases txn with
  | error refusal =>
    cases written
    exact .inl ⟨rfl,refusal,rfl⟩
  | ok staged =>
    dsimp only at written
    cases committed : Pipeline.commit works.fingerprint works.scopeId site.stock staged with
    | error refusal =>
      rw [committed] at written
      cases written
      exact .inl ⟨rfl,refusal,rfl⟩
    | ok stock =>
      rw [committed] at written
      cases written
      exact .inr ⟨staged,stock,rfl,committed,rfl⟩

theorem Drain.after_worker (drain : Drain) (claim : Claim) (errand : Errand) (told : Except StoreError Unit) :
    (drain.after claim errand told).worker = drain.worker := by
  unfold Drain.after
  split
  · rfl
  · exact Drain.pass_worker _ _
  · rfl
  · rfl
  · split_ifs <;> rfl
  · exact Drain.again_worker _
  · rfl
  · exact Drain.again_worker _

/-- Only a claim that was renewed stays in hand, and one whose commit was refused. -/
theorem Drain.after_hand (drain : Drain) (claim : Claim) (errand : Errand) (told : Except StoreError Unit) :
    (drain.after claim errand told).hand = none ∨
      (∃ memory chunks, errand = .renewing memory chunks ∧ told = .ok () ∧
        drain.after claim errand told = drain.hold claim (.embedding memory chunks)) ∨
      ∃ derivative refusal, errand = .committing derivative ∧ told = .error refusal ∧
        drain.after claim errand told = drain.hold claim (.rereading refusal) := by
  unfold Drain.after
  split
  · exact .inr (.inr ⟨_,_,rfl,rfl,rfl⟩)
  · exact .inl (Drain.pass_hand _ _)
  · exact .inr (.inl ⟨_,_,rfl,rfl,rfl⟩)
  · exact .inl rfl
  · split_ifs <;> exact .inl rfl
  · exact .inl (Drain.again_hand _)
  · exact .inl rfl
  · exact .inl (Drain.again_hand _)

theorem open_turn : Turn works drain site (drain.open' works site.stock) site := by
  refine .leave ?_ ?_ <;> unfold Drain.open' <;> split
  · rfl
  · split_ifs
    · rfl
    · exact Drain.again_worker _
  · rfl
  · split_ifs
    · rfl
    · exact Drain.again_hand _

theorem sweep_turn {now : UnixSeconds} {lost : Option StoreError} (idle : drain.hand = none)
    (swept : drain.sweep works now lost site = (next,after)) : Turn works drain site next after := by
  unfold Drain.sweep at swept
  split at swept
  · cases swept
    exact .leave rfl rfl
  · next upkeep dead is =>
    split at swept
    · next refusal written =>
      rcases write_cases written with ⟨rfl,-⟩ | ⟨staged,stock,same,committed,rfl⟩
      · cases swept
        exact .leave rfl rfl
      · cases swept
        cases same
        exact .write rfl (by rw [idle]; exact .sweep is) committed
    · next written =>
      rcases write_cases written with ⟨-,refusal,told⟩ | ⟨staged,stock,same,committed,rfl⟩
      · cases told
      · cases swept
        cases same
        exact .write rfl (by rw [idle]; exact .sweep is) committed

theorem claim_turn {now : UnixSeconds} {lost : Option StoreError} (idle : drain.hand = none)
    (claimed : drain.claim works now lost site = (next,after)) : Turn works drain site next after := by
  unfold Drain.claim at claimed
  split at claimed
  · cases claimed
    exact .leave rfl rfl
  · next upkeep taken is =>
    have writes : ∀ hand, hand = none ∨ (∃ claim, taken = some claim ∧ hand = some (claim,.weighing)) →
        Writes works drain.worker site.stock drain.hand upkeep.txn (.issue taken) hand := by
      intro hand left
      rw [idle]
      cases taken with
      | none =>
        rcases left with rfl | ⟨_,none',-⟩
        · exact .idle is
        · cases none'
      | some claim =>
        rcases left with rfl | ⟨_,same,rfl⟩
        · exact .take is (.inl rfl)
        · cases same
          exact .take is (.inr rfl)
    split at claimed
    · next refusal written =>
      rcases write_cases written with ⟨rfl,-⟩ | ⟨staged,stock,same,committed,rfl⟩
      · cases claimed
        exact .leave rfl rfl
      · cases claimed
        cases same
        exact .write rfl (writes _ (.inl rfl)) committed
    · next written =>
      rcases write_cases written with ⟨-,refusal,told⟩ | ⟨staged,stock,same,committed,rfl⟩
      · cases told
      · cases claimed
        cases same
        exact .write rfl (writes _ (.inl rfl)) committed
    · next claim written =>
      rcases write_cases written with ⟨-,refusal,told⟩ | ⟨staged,stock,same,committed,rfl⟩
      · cases told
      · cases claimed
        cases same
        exact .write rfl (writes _ (.inr ⟨claim,rfl,rfl⟩)) committed

theorem weigh_turn {claim : Claim} {errand : Errand} {refused : CallError → Drain} {go : Nat → Errand}
    (holds : drain.hand = some (claim,errand))
    (leaves : ∀ error, (refused error).worker = drain.worker ∧ (refused error).hand = none)
    (weighs : ∀ ceiling, Weighs claim ceiling errand (go ceiling))
    (weighed : drain.weigh works claim site refused go = (next,after)) : Turn works drain site next after := by
  unfold Drain.weigh at weighed
  split at weighed
  · cases weighed
    exact .leave (leaves _).1 (leaves _).2
  · next ceiling policy =>
    cases weighed
    exact .weigh holds policy (weighs ceiling)

/-- What an errand commits is one of the writes. -/
theorem writes_turn {claim : Claim} {errand : Errand} {now : UnixSeconds} {lost : Option StoreError}
    {txn : Except StoreError Txn} {note : Annals → Annals} {told : Except StoreError Unit}
    (holds : drain.hand = some (claim,errand)) (is : errand.writes works claim now site.stock = some (txn,note))
    (written : site.write works txn note lost = (after,told)) : Turn works drain site (drain.after claim errand told) after := by
  have left := drain.after_hand claim errand told
  rcases write_cases written with ⟨rfl,refusal,rfl⟩ | ⟨staged,stock,rfl,committed,rfl⟩
  · rcases left with free | ⟨_,_,-,heard,-⟩ | ⟨derivative,_,rfl,-,held⟩
    · exact .leave (Drain.after_worker ..) free
    · cases heard
    · rw [held]
      exact .read holds (.refused derivative _)
  · refine .write (Drain.after_worker ..) ?_ committed
    rw [holds]
    have free : (∀ memory chunks, errand ≠ .renewing memory chunks) → (∀ derivative, errand ≠ .committing derivative) →
        (drain.after claim errand told).hand = none := by
      intro one two
      rcases left with free | ⟨_,_,same,-⟩ | ⟨_,_,same,-⟩
      · exact free
      · exact absurd same (one _ _)
      · exact absurd same (two _)
    cases errand with
    | expiring =>
      obtain ⟨made,noted⟩ := Prod.mk.inj (Option.some.inj is)
      subst noted
      obtain ⟨upkeep,failed,rfl⟩ := map_ok_iff.mp made
      rw [free nofun nofun]
      exact .fail .expiring failed
    | renewing memory chunks =>
      obtain ⟨made,noted⟩ := Prod.mk.inj (Option.some.inj is)
      subst noted
      obtain ⟨upkeep,renewed,rfl⟩ := map_ok_iff.mp made
      refine .renew renewed ?_
      rcases left with free | ⟨_,_,same,-,held⟩ | ⟨_,_,same,-⟩
      · exact .inl free
      · cases same
        rw [held]
        exact .inr rfl
      · cases same
    | committing derivative =>
      obtain ⟨made,noted⟩ := Prod.mk.inj (Option.some.inj is)
      subst noted
      cases made
      refine .embed ?_
      rcases left with free | ⟨_,_,same,-⟩ | ⟨_,refusal,-,-,held⟩
      · exact .inl free
      · cases same
      · rw [held]
        exact .inr ⟨refusal,rfl⟩
    | emptying =>
      obtain ⟨made,noted⟩ := Prod.mk.inj (Option.some.inj is)
      subst noted
      cases made
      rw [free nofun nofun]
      exact .empty
    | deferring =>
      obtain ⟨made,noted⟩ := Prod.mk.inj (Option.some.inj is)
      subst noted
      obtain ⟨upkeep,failed,rfl⟩ := map_ok_iff.mp made
      rw [free nofun nofun]
      exact .defer failed
    | quarantining =>
      obtain ⟨made,noted⟩ := Prod.mk.inj (Option.some.inj is)
      subst noted
      obtain ⟨upkeep,failed,rfl⟩ := map_ok_iff.mp made
      rw [free nofun nofun]
      exact .quarantine failed
    | failing error ceiling =>
      obtain ⟨made,noted⟩ := Prod.mk.inj (Option.some.inj is)
      subst noted
      obtain ⟨upkeep,failed,rfl⟩ := map_ok_iff.mp made
      rw [free nofun nofun]
      exact .fail (.failing error ceiling) failed
    | weighing => cases is
    | checking => cases is
    | loading => cases is
    | embedding => cases is
    | awaiting => cases is
    | rereading => cases is
    | rechecking => cases is
    | counting => cases is

theorem read_turn {claim : Claim} {errand : Errand} (holds : drain.hand = some (claim,errand))
    (is : drain.read works claim errand site.stock = some next) : Turn works drain site next site := by
  unfold Drain.read at is
  split at is
  · cases is
    exact .read holds .checking
  · cases is
    exact .read holds .loading
  · cases is
    exact .read holds (.rereading _)
  · cases is
    exact .read holds (.rechecking _)
  · cases is

theorem work_turn {claim : Claim} {errand : Errand} {now : UnixSeconds} {lost : Option StoreError}
    (holds : drain.hand = some (claim,errand)) (worked : drain.work works claim errand now lost site = .ok (next,after)) :
    Turn works drain site next after := by
  unfold Drain.work at worked
  split at worked
  · have weighed := Except.ok.inj worked
    refine @weigh_turn _ _ _ _ _ _ _ drain.abort _ holds (fun _ => ⟨rfl,rfl⟩) (fun ceiling => ?_) weighed
    split_ifs with beyond
    · exact .spent beyond
    · exact .left (Nat.le_of_not_lt beyond)
  · have weighed := Except.ok.inj worked
    exact weigh_turn holds (fun _ => ⟨Drain.pass_worker _ _,Drain.pass_hand _ _⟩) (fun _ => .counted _) weighed
  · cases worked
    exact .ask holds
  · split at worked
    · next txn note is =>
      have written := Except.ok.inj worked
      cases written
      exact writes_turn holds is rfl
    · split at worked
      · next later is =>
        cases worked
        exact read_turn holds is
      · cases worked

theorem trouble_turn {error : StoreError} (troubled : drain.trouble error = .ok next) : Turn works drain site next site := by
  unfold Drain.trouble at troubled
  split at troubled
  · cases troubled
    exact .leave rfl rfl
  · cases troubled
    exact .leave rfl rfl
  · cases troubled
    exact .leave rfl rfl
  · cases troubled
    exact .leave rfl rfl
  · next is =>
    cases troubled
    exact .read (hand_of_holding is) (.refused _ _)
  · cases troubled
  · cases troubled
  · cases troubled
  · cases troubled
  · cases troubled
    exact .leave (Drain.pass_worker _ _) (Drain.pass_hand _ _)

/-- Every access of a drain is one of the turns. -/
theorem advance_turn {step : Step} (advanced : drain.advance works step site = .ok (next,after)) :
    Turn works drain site next after := by
  unfold Drain.advance at advanced
  split at advanced
  · split at advanced
    · next is => exact sweep_turn (by simp only [Drain.hand,is]) (Except.ok.inj advanced)
    · cases advanced
      exact open_turn
    · next is => exact claim_turn (by simp only [Drain.hand,is]) (Except.ok.inj advanced)
    · next is => exact work_turn (hand_of_holding is) advanced
    · cases advanced
    · cases advanced
  · split at advanced
    · next is =>
      cases advanced
      exact .read (hand_of_holding is) (.awaiting _ _ _ _)
    · cases advanced
  · obtain ⟨later,troubled,same⟩ := map_ok_iff.mp advanced
    cases same
    exact trouble_turn troubled
  · cases advanced
    exact .leave rfl rfl

end

end Aicortex.Drains
