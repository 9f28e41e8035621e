import Aicortex.DeploymentFigures
import Aicortex.EmbeddingConfig

/-!
The preflight check of the embedding pipeline. It fails where the configuration would not
start, warns where the deployment needs an operator, and passes otherwise. On a store that
stands still it passes just when everything was read and nothing is left to do: no work is
dead, every live memory of every scope has its vector under the active model, and every
artifact is in place.
-/

namespace Aicortex.Preflight
open Aicortex.Text Aicortex.CivilTime Aicortex.Memories Aicortex.Schema Aicortex.MemoryRepo Aicortex.EmbeddingTables
open Aicortex.ModelRegistry Aicortex.Pipeline Aicortex.EmbeddingReadiness Aicortex.Deployment Aicortex.Endpoints
open Aicortex.EmbeddingConfig
open Lib.Tables Lib.StaleRuns Lib.StaleRuns.System
open Aicortex.Claims hiding Unit

/-! ### The verdict -/

inductive Status where
  | pass
  | warn
  | fail
  deriving Repr, DecidableEq

structure Verdict where
  status : Status
  text : String
  report : List String
  deriving Repr, DecidableEq

/-- How the chassis shows its errors. -/
structure Rendering where
  chassis : ChassisError → String
  store : StoreError → String

def describe : Config → String
  | .disabled => "off (captures stage no embedding work)"
  | .local' config => s!"local {config.shape.id}"
  | .remote config => s!"remote {config.shape.id}"

def absentLine (path : String) : String := s!"artifact absent: {path} (supply it; this build links no fetch transport)"

def activeLine (active : Option ModelRow) : String :=
  match active with
  | some model =>
    s!"active model: {model.identity.modelId}@{model.revision} dims={model.identity.dims} normalized={model.identity.normalized}"
  | none => "active model: none"

def oldestText (queue : QueueHealth) : String :=
  match queue.oldestPendingAgeSeconds with
  | some age => toString age
  | none => if queue.pending = 0 then "none" else "unknown"

def queueLine (queue : QueueHealth) : String :=
  s!"queue: pending={queue.pending} dead={queue.dead} quarantined={queue.quarantined} oldest_pending_seconds={oldestText queue}"

def coverageLine (item : Coverage) : String := s!"coverage revision {item.revision}: {item.embedded}/{item.total}"

def coverageLines (coverage : List Coverage) : List String :=
  (if coverage.isEmpty then ["coverage: no model revision recorded"] else []) ++ coverage.map coverageLine

def scopesLine (health : DeploymentHealth) : String :=
  s!"scopes read: {health.scopesRead}" ++ if health.complete then "" else " (time budget reached; figures are a lower bound)"

/-- Scope-wide state apart from the coverage. -/
def scopeSummary (state : EmbeddingPreflight) : String :=
  let active := state.active.elim "none" (fun model => s!"{model.identity.modelId}@{model.revision}")
  s!"active={active} pending={state.queue.pending} dead={state.queue.dead} quarantined={state.queue.quarantined} " ++
    s!"oldest_pending_seconds={oldestText state.queue}" ++ state.readinessWarning.elim "" (fun warning => s!" warning={warning}")

def report (config : Config) (absent : List String) (health : DeploymentHealth) : List String :=
  s!"provider: {describe config}" :: absent.map absentLine ++
    [activeLine health.report.active,queueLine health.report.queue,s!"live memories: {health.report.liveMemories}"] ++
    coverageLines health.report.coverage ++ [scopesLine health]

/-- What is said of a deployment that was read. -/
def judge (absent : List String) (health : DeploymentHealth) : Status × String :=
  let summary := scopeSummary health.report
  if 0 < health.report.queue.dead then
    (.warn,s!"{health.report.queue.dead} dead embedding work item(s) require operator attention; {summary}")
  else
    match health.report.readinessWarning with
    | some warning => (.warn,s!"{warning}; {summary}")
    | none =>
      if health.complete = false then (.warn,s!"embedding state is partial; {summary}")
      else if absent ≠ [] then (.warn,s!"model artifacts are absent; {summary}")
      else (.pass,summary)

/-- The verdict for an environment, its surroundings and what was read of the store. -/
def verdict (render : Rendering) (around : Surroundings) (env : String → Option String)
    (read : Except StoreError DeploymentHealth) : Verdict :=
  match fromEnv env with
  | .error error => ⟨.fail,s!"embedding configuration: {render.chassis error}",[]⟩
  | .ok config =>
    match check around config with
    | .error error => ⟨.fail,render.chassis error,[]⟩
    | .ok _ =>
      let absent := absentArtifacts around config
      match read with
      | .error error =>
        ⟨.fail,s!"cannot read embedding state: {render.store error}",s!"provider: {describe config}" :: absent.map absentLine⟩
      | .ok health => ⟨(judge absent health).1,(judge absent health).2,report config absent health⟩

/-! ### What each verdict means -/

section
variable {render : Rendering} {around : Surroundings} {env : String → Option String} {health : DeploymentHealth}

end

/-! ### A deployment with nothing left to do -/

/-- No work is dead but for quarantine, every live memory has its vector under the active
    model, and a model that is active has a scope to show for it. -/
structure Ready (state : State) : Prop where
  lives : ∀ row ∈ allQueueRows state.stock, row.work.state = .dead → row.isQuarantined = true
  embeds : ∀ memory ∈ state.stock.memories, embeddable memory = true → ∃ model, active state.stock.models = some model ∧
    embedded state.stock memory.scope memory.id model.revision = true
  listed : active state.stock.models ≠ none → state.scopes ≠ []

section
variable {state : State} {now : UnixSeconds}

end

/-! ### The whole check -/

section
variable {fingerprint : Memory → String} {config : Chunking.ChunkConfig} {scopeId : Scope → String} {state : State}

end

namespace Sample
open Deployment.Sample EmbeddingConfig.Sample

def render : Rendering := ⟨fun _ => "",fun _ => ""⟩

end Sample

end Aicortex.Preflight
