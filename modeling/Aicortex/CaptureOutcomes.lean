import Aicortex.CaptureProgress

/-!
What a told outcome stands for. The gate holds nothing back from an authenticated caller,
so a candidate is stored or refused: stored, its row is in the caller's scope and stays
there; refused, its denial is in the ledger. An answer of success is the outcomes of all
candidates, in the order of the request.
-/

namespace Aicortex.CaptureCalls
open Aicortex.Text Aicortex.Memories Aicortex.Schema Aicortex.CaptureGate Aicortex.CaptureApi Aicortex.ScopeIdentity
open Aicortex.Walk Aicortex.MemoryRepo
open Aicortex.Lifecycle (Settling Holdings)
open Aicortex.Pipeline (Stock ActiveEmbedding)
open Lib.Tables Lib.Outcome Lib.StaleRuns
open Aicortex.Claims hiding Unit
set_option linter.unusedSimpArgs false

/-! ### Verdicts of an authenticated caller -/

/-- What a walk holds back a step holds back. -/
theorem walk_holds {S R : Type} {closed : ClosedGate} {subject : S} {steps : List (Walk.Step S R)} {required : List String}
    {walkFault : String → R} {reason : R} (held : walk closed subject steps required walkFault = .hold reason) :
    ∃ step ∈ steps, step.judge subject = .hold reason := by
  simp only [walk] at held
  split_ifs at held
  split at held
  · next decided =>
    cases held
    obtain ⟨step,found,judged⟩ := Option.map_eq_some_iff.mp decided
    obtain ⟨id,-,located⟩ := Option.bind_eq_some_iff.mp found
    exact ⟨step,List.mem_of_find?_eq_some located,judged⟩
  · cases held
  · cases held

/-- Nothing an authenticated caller offers is quarantined. -/
theorem authenticated_unheld {SecretRules : Type} (linked : Linked SecretRules) (rules : RuleSet SecretRules)
    (parts : MemoryParts) (memory : Memory) (reason : Reason) :
    evaluate linked rules ⟨parts,.authenticated⟩ ≠ .quarantine memory reason := by
  intro held
  unfold evaluate at held
  split at held
  · cases held
  · next other walked =>
    obtain ⟨step,member,judged⟩ := walk_holds walked
    simp only [captureWalk,List.mem_cons,List.not_mem_nil,or_false] at member
    rcases member with rfl | rfl | rfl | rfl | rfl | rfl
    · simp only [CaptureGate.empty] at judged
      split_ifs at judged
    · simp only [tooLarge] at judged
      split_ifs at judged
    · simp only [media] at judged
      split at judged <;> cases judged
    · simp only [deniedSource] at judged
      split_ifs at judged
    · simp only [secretsStep] at judged
      split at judged <;> cases judged
    · simp [origin,captureOf,Origin.isEstablished] at judged
  · cases held

/-! ### What a verdict commits -/

section
variable {SecretRules : Type} {api : Api SecretRules} {call later : Call} {cell after : Cell} {history : List Stock}
variable {now next : Stock}

theorem capture_cases {fingerprint : Memory → String} {leader replica : Database} {maxBodyBytes : Nat} {memory : Memory}
    {settling : Settling} (captures : Lifecycle.capture fingerprint leader replica maxBodyBytes memory = .ok settling) :
    settling = .inserted maxBodyBytes memory ∨ ∃ id existing, settling = .merged memory.scope id existing memory := by
  unfold Lifecycle.capture at captures
  split at captures
  · cases captures
    exact .inl rfl
  · split at captures
    · cases captures
    · split_ifs at captures
      cases captures
      exact .inr ⟨_,_,rfl⟩

/-- A capture writes the memories as its moves do. -/
theorem commitLife_memories {fingerprint : Memory → String} {settling : Settling} {target : Option ActiveEmbedding}
    (committed : Pipeline.commitLife fingerprint (.capture settling) target now = .ok next) :
    ∃ holdings, settling.moves.foldlM (Lifecycle.apply fingerprint) now.holdings = .ok holdings ∧
      next.memories = holdings.db.memories := by
  obtain ⟨holdings,executed,⟨-,staged,-⟩ | ⟨provenance,scope,id,at',-,-,-,work⟩ | ⟨scope,shells,-,-,swept,-⟩⟩ :=
    Pipeline.life_cases committed
  · cases staged
  · refine ⟨holdings,executed,?_⟩
    rcases Pipeline.stageTarget_ok work with ⟨row,-,-,rfl⟩ | ⟨-,rfl⟩
    · rfl
    · rfl
  · cases swept

/-- A capture settles in a live row of the memory's scope; a row of its own holds the memory. -/
theorem captured_row {Inv : Stock → Prop} (trail : System.Trail Inv Pipeline.Since history now) {leader replica : Database}
    {memory : Memory} {settling : Settling} {target : Option ActiveEmbedding} (admitted : Lifecycle.Admitted memory)
    (atLeader : Lifecycle.Read (history.map Stock.holdings) leader)
    (atReplica : Lifecycle.Read (history.map Stock.holdings) replica)
    (captures : Lifecycle.capture api.fingerprint leader replica api.maxBodyBytes memory = .ok settling)
    (committed : Pipeline.commitLife api.fingerprint (.capture settling) target now = .ok next) :
    ∃ row ∈ next.memories, row.id = settling.id ∧ row.scope = memory.scope ∧ row.live = true ∧
      ((∃ maxBodyBytes, settling = .inserted maxBodyBytes memory) → row.record = memory) := by
  have fits := Lifecycle.capture_fits admitted atLeader atReplica captures
  obtain ⟨holdings,executed,memories⟩ := commitLife_memories committed
  rw [memories]
  rcases capture_cases captures with rfl | ⟨id,existing,rfl⟩
  · obtain ⟨mid,settled,rfl⟩ := Lifecycle.sourced_applied executed
    obtain ⟨-,-,-,rfl⟩ := Lifecycle.insert_applied settled
    have fresh : Lifecycle.Fresh memory := fits _ List.mem_cons_self
    refine ⟨memoryRow api.fingerprint memory,List.mem_append_right _ (List.mem_singleton_self _),rfl,rfl,?_,fun _ => rfl⟩
    rcases fresh.status with status | status <;> simp [memoryRow,MemoryRow.live,status,label]
  · obtain ⟨row,inside,here,alive⟩ := Pipeline.settling_live trail fits executed
    simp only [ofScope,Pipeline.settledBy,Bool.and_eq_true,beq_iff_eq] at here
    refine ⟨row,inside,here.2,here.1,alive,?_⟩
    rintro ⟨_,inserted⟩
    cases inserted

/-- A candidate of an authenticated caller is stored in a live row of its scope, or is
    refused and leaves no more than the key of its denial. -/
theorem commit_verdict {Inv : Stock → Prop} (trail : System.Trail Inv Pipeline.Since history now) {caller : Caller}
    {trial : Trial} {record : MemoryParts} {settled : Settled} (atLeader : ∃ seen ∈ history, seen.holdings.db = trial.leader)
    (atReplica : ∃ seen ∈ history, seen.holdings.db = trial.replica)
    (committed : commit api caller trial ⟨record,.authenticated⟩ now = .ok (settled,next)) :
    (∃ memory settling, settled.verdict = .admitted memory ∧ settled.captured = some settling ∧ settled.entry = none ∧
        ∃ row ∈ next.memories, row.id = settling.id ∧ row.scope = record.scope ∧ row.live = true ∧
          (settled.merged = false → row.record.body.text = normalizeText api.linked.nfc record.body.text)) ∨
      ∃ reason, evaluate api.linked api.rules ⟨record,.authenticated⟩ = .refuse reason ∧ settled.candidate = record.id ∧
        settled.verdict = .refuse reason ∧ settled.captured = none ∧
        settled.entry = some (entryOf api caller trial.key ⟨record,.authenticated⟩ (.refuse reason) reason none) ∧
        next = { now with holdings := { now.holdings with db := { now.holdings.db with
          keys := now.holdings.db.keys ++ [⟨trial.key.id,record.scope,none⟩] } } } := by
  obtain ⟨mid,named,verdict,staged,captured,rest⟩ := commit_ok committed
  have reads : ∀ db, (∃ seen ∈ history, seen.holdings.db = db) → Lifecycle.Read (history.map Stock.holdings) db := by
    rintro _ ⟨seen,inside,rfl⟩
    exact ⟨seen.holdings,List.mem_map_of_mem inside,rfl⟩
  cases judged : settled.verdict with
  | admitted memory =>
    rw [judged] at verdict staged
    obtain ⟨none',-⟩ | ⟨stored,settling,is,some',captures⟩ := stageCapture_ok staged
    · cases none'
    cases is
    rw [some'] at captured
    have is : memory = normalized api.linked ⟨record,.authenticated⟩ := by
      unfold evaluate at verdict
      split at verdict <;> cases verdict
      rfl
    have admitted : Lifecycle.Admitted memory := .passed api.linked api.rules _ verdict.symm
    obtain ⟨row,inside,sameId,sameScope,alive,own⟩ :=
      captured_row trail admitted (reads _ atLeader) (reads _ atReplica) captures captured
    rcases rest with ⟨-,unowed,rfl⟩ | ⟨reason,some'',-⟩
    · refine .inl ⟨memory,settling,rfl,some',unowed,row,inside,sameId,by rw [sameScope,is]; rfl,alive,?_⟩
      intro new
      rcases capture_cases captures with rfl | ⟨id,existing,rfl⟩
      · rw [own ⟨_,rfl⟩,is]
        rfl
      · rw [Settled.merged,some'] at new
        cases new
    · rw [judged] at some''
      cases some''
  | quarantine memory reason =>
    rw [judged] at verdict
    exact absurd verdict.symm (authenticated_unheld api.linked api.rules record memory reason)
  | refuse reason =>
    rw [judged] at staged
    obtain ⟨-,none'⟩ | ⟨stored,settling,is,-⟩ := stageCapture_ok staged
    · rw [none'] at captured rest
      cases captured
      rcases rest with ⟨some',-⟩ | ⟨other,some',entry,inserted⟩
      · rw [judged] at some'
        cases some'
      · rw [judged] at some' entry
        cases some'
        rw [judged] at verdict
        exact .inr ⟨reason,verdict.symm,named,rfl,none',entry,insertKey_ok inserted⟩
    · cases is

end

/-! ### Outcomes that were told -/

/-- A candidate that was stored: its row is of the scope, and a row of its own holds the
    normalized text for as long as it is live. -/
structure StoredAs {SecretRules : Type} (api : Api SecretRules) (cell : Cell) (scope : Scope) (candidate : CandidateIn)
    (outcome : CaptureOutcome) : Prop where
  verdict : outcome.verdict = "admit"
  quiet : outcome.reasonCode = none ∧ outcome.problem = none ∧ outcome.decision = none
  row : ∃ row ∈ cell.stock.memories, outcome.id = some row.id ∧ row.scope = scope ∧
    (outcome.merged = false → row.live = true → row.record.body.text = normalizeText api.linked.nfc candidate.text)

/-- A candidate that was refused: the gate refuses the record that was made of it, and its
    denial, named after that record, is in the ledger. -/
structure RefusedAs {SecretRules : Type} (api : Api SecretRules) (cell : Cell) (scope : Scope) (caller : Caller)
    (candidate : CandidateIn) (outcome : CaptureOutcome) : Prop where
  verdict : outcome.verdict = "refuse"
  unstored : outcome.id = none ∧ outcome.merged = false
  denial : ∃ at' id record reason, parts caller scope candidate at' id = .ok record ∧
    evaluate api.linked api.rules ⟨record,.authenticated⟩ = .refuse reason ∧
    outcome.reasonCode = some reason.code ∧ outcome.problem = some (problemType reason.code) ∧
    ∃ decision ∈ cell.ledger, outcome.decision = some decision.id ∧ decision.id = s!"{kindRefuse}-{id}" ∧
      decision.kind = kindRefuse ∧ decision.allowed = false ∧ decision.actor = caller.sub ∧ decision.reason = sentence reason ∧
      decision.payload.reasonCode = reason.code ∧ decision.payload.scope = scope.display ∧ decision.payload.memoryId = none

section
variable {SecretRules : Type} (api : Api SecretRules)

/-- The outcome of a candidate of a call's request, at its place. -/
def Told (cell : Cell) (call : Call) (index : Nat) (outcome : CaptureOutcome) : Prop :=
  ∃ scope candidates candidate, start api call.caller call.body = .ok (scope,candidates) ∧
    candidates[index]? = some candidate ∧ outcome.index = index ∧
    (StoredAs api cell scope candidate outcome ∨ RefusedAs api cell scope call.caller candidate outcome)

/-- What a call owes is the denial of its next candidate. -/
def Owes (call : Call) (scope : Scope) (candidates : List CandidateIn) (settled : Settled) (entry : LedgerEntry) : Prop :=
  ∃ candidate at' record reason digest, candidates[call.results.length]? = some candidate ∧
    parts call.caller scope candidate at' settled.candidate = .ok record ∧
    evaluate api.linked api.rules ⟨record,.authenticated⟩ = .refuse reason ∧ settled.verdict = .refuse reason ∧
    settled.captured = none ∧ entry = ledgerEntry kindRefuse reason scope call.caller.sub digest none

/-- What a call may yet tell, and what it has told. -/
structure Tells (cell : Cell) (call : Call) : Prop where
  work : ∀ scope candidates, call.phase.work = some (scope,candidates) →
    start api call.caller call.body = .ok (scope,candidates)
  owing : ∀ scope candidates settled entry, call.phase = .owing scope candidates settled entry →
    Owes api call scope candidates settled entry
  telling : ∀ scope candidates settled decision, call.phase = .telling scope candidates settled decision →
    Told api cell call call.results.length (settled.outcome call.results.length decision)
  told : ∀ index outcome, call.results[index]? = some outcome → Told api cell call index outcome
  -- success is the outcomes of all candidates
  answer : ∀ answer, call.own = some answer → 400 ≤ answer.status ∨
    ∃ scope candidates, start api call.caller call.body = .ok (scope,candidates) ∧
      call.results.length = candidates.length ∧ answer = ⟨200,api.renderResults call.results⟩

end

section
variable {SecretRules : Type} {api : Api SecretRules} {call later : Call} {cell after : Cell} {seen now : Surface}

/-- What was told stands as the surface goes on. -/
theorem Told.since {index : Nat} {outcome : CaptureOutcome} (told : Told api cell call index outcome)
    (rows : Pipeline.Standing cell.stock.memories after.stock.memories) (ledger : cell.ledger <+: after.ledger)
    (caller : later.caller = call.caller) (body : later.body = call.body) : Told api after later index outcome := by
  obtain ⟨scope,candidates,candidate,started,at',place,stored | refused⟩ := told
  · refine ⟨scope,candidates,candidate,by rw [caller,body,started],at',place,.inl ⟨stored.verdict,stored.quiet,?_⟩⟩
    obtain ⟨row,inside,same,owned,text⟩ := stored.row
    obtain ⟨then',there,sameId,kept⟩ := rows row inside
    refine ⟨then',there,by rw [same,sameId],by rw [kept.scope,owned],fun new alive => ?_⟩
    rw [kept.text alive,text new (kept.alive alive)]
  · refine ⟨scope,candidates,candidate,by rw [caller,body,started],at',place,.inr ⟨refused.verdict,refused.unstored,?_⟩⟩
    rw [caller]
    obtain ⟨at'',id,record,reason,made,denied,code,problem,decision,inside,rest⟩ := refused.denial
    exact ⟨at'',id,record,reason,made,denied,code,problem,decision,ledger.subset inside,rest⟩

theorem Tells.since (tells : Tells api cell call) (rows : Pipeline.Standing cell.stock.memories after.stock.memories)
    (ledger : cell.ledger <+: after.ledger) : Tells api after call :=
  ⟨tells.work,tells.owing,fun _ _ _ _ is => (tells.telling _ _ _ _ is).since rows ledger rfl rfl,
    fun index outcome is => (tells.told index outcome is).since rows ledger rfl rfl,tells.answer⟩

/-- A call that ends its work with an answer. -/
theorem settle_tells {results : List CaptureOutcome} {answer : Answer}
    (told : ∀ index outcome, results[index]? = some outcome → Told api cell call index outcome)
    (is : 400 ≤ answer.status ∨ ∃ scope candidates, start api call.caller call.body = .ok (scope,candidates) ∧
      results.length = candidates.length ∧ answer = ⟨200,api.renderResults results⟩) :
    Tells api cell ({ call with results := results }.settle answer) := by
  refine ⟨by simp [Call.settle,Phase.work],by simp [Call.settle],by simp [Call.settle],?_,?_⟩
  · exact fun index outcome there => (told index outcome there).since (Pipeline.Standing.still _) (List.prefix_refl _) rfl rfl
  · intro other own
    cases own
    exact is

theorem Tells.refuse (tells : Tells api cell call) {error : ApiError} (fails : error.Fails) :
    Tells api cell (call.refuse api error) :=
  settle_tells tells.told (.inl fails)

/-- A call that ends without working its answer out. -/
theorem Tells.close (tells : Tells api cell call) (response : Option Response) :
    Tells api cell { call with phase := .closed response } :=
  ⟨by simp [Phase.work],by simp,by simp,
    fun index outcome is => (tells.told index outcome is).since (Pipeline.Standing.still _) (List.prefix_refl _) rfl rfl,
    tells.answer⟩

theorem start_fails {caller : Caller} {body : List UInt8} {error : ApiError}
    (failed : start api caller body = .error error) : error.Fails := by
  rcases bind_error_iff.mp failed with malformed | ⟨request,-,bounded⟩
  · obtain ⟨message,-,rfl⟩ := mapError_error_iff.mp malformed
    exact Nat.le_refl 400
  · simp only at bounded
    split_ifs at bounded
    · cases bounded
      show 400 ≤ 422
      decide
    · rcases bind_error_iff.mp bounded with unresolved | ⟨_,-,rest⟩
      · exact resolve_fails unresolved
      · cases rest

theorem Tells.begin' (tells : Tells api cell call) (unanswered : call.own = none) : Tells api cell (call.begin' api) := by
  unfold Call.begin'
  split
  · next error failed => exact tells.refuse (start_fails failed)
  · next scope candidates started =>
    refine ⟨?_,by simp,by simp,?_,by simp [unanswered]⟩
    · intro _ _ works
      cases works
      exact started
    · exact fun index outcome is =>
        (tells.told index outcome is).since (Pipeline.Standing.still _) (List.prefix_refl _) rfl rfl

/-- The outcome of a stored candidate. -/
theorem storedAs {scope : Scope} {candidate : CandidateIn} {settled : Settled} {memory : Memory} {settling : Settling}
    (verdict : settled.verdict = .admitted memory) (captured : settled.captured = some settling) {row : MemoryRow}
    (inside : row ∈ cell.stock.memories) (same : row.id = settling.id) (owned : row.scope = scope)
    (text : settled.merged = false → row.record.body.text = normalizeText api.linked.nfc candidate.text) (index : Nat) :
    StoredAs api cell scope candidate (settled.outcome index none) :=
  ⟨by simp [Settled.outcome,Settled.label,verdict],
    by simp [Settled.outcome,Settled.refused,verdict,Verdict.reason],
    row,inside,by simp [Settled.outcome,captured,same],owned,fun new _ => text new⟩

/-- The outcome of a candidate whose denial is in the ledger. -/
theorem refusedAs {scope : Scope} {caller : Caller} {candidate : CandidateIn} {settled : Settled} {at' : UnixSeconds}
    {record : MemoryParts} {reason : Reason} {digest : DigestRef}
    (made : parts caller scope candidate at' settled.candidate = .ok record)
    (denied : evaluate api.linked api.rules ⟨record,.authenticated⟩ = .refuse reason)
    (verdict : settled.verdict = .refuse reason) (captured : settled.captured = none)
    (inside : decisionOf (ledgerEntry kindRefuse reason scope caller.sub digest none) settled.candidate ∈ cell.ledger)
    (index : Nat) :
    RefusedAs api cell scope caller candidate (settled.outcome index
      (some (decisionOf (ledgerEntry kindRefuse reason scope caller.sub digest none) settled.candidate).id)) :=
  ⟨by simp [Settled.outcome,Settled.label,verdict],
    by simp [Settled.outcome,Settled.merged,captured],
    at',settled.candidate,record,reason,made,denied,by simp [Settled.outcome,verdict,Verdict.reason],
    by simp [Settled.outcome,Settled.refused,verdict],_,inside,rfl,rfl,rfl,by simp [decisionOf,ledgerEntry],rfl,rfl,rfl,rfl,rfl⟩

theorem parts_ok {caller : Caller} {scope : Scope} {candidate : CandidateIn} {at' : UnixSeconds} {id : MemoryId}
    {record : MemoryParts} (made : parts caller scope candidate at' id = .ok record) :
    record.scope = scope ∧ record.body.text = candidate.text ∧ record.id = id := by
  obtain ⟨_,-,rest⟩ := bind_ok_iff.mp made
  obtain ⟨_,-,rest⟩ := bind_ok_iff.mp rest
  cases rest
  exact ⟨rfl,rfl,rfl⟩

/-- A step of a call that goes on in its work. -/
theorem Tells.goesOn (tells : Tells api cell call) {scope : Scope} {candidates : List CandidateIn} {phase : Phase}
    (unanswered : call.own = none) (works : call.phase.work = some (scope,candidates))
    (same : phase.work = some (scope,candidates))
    (rows : Pipeline.Standing cell.stock.memories after.stock.memories) (ledger : cell.ledger <+: after.ledger)
    (owing : ∀ settled entry, phase = .owing scope candidates settled entry → Owes api call scope candidates settled entry)
    (telling : ∀ settled decision, phase = .telling scope candidates settled decision →
      Told api after call call.results.length (settled.outcome call.results.length decision)) :
    Tells api after { call with phase := phase } := by
  refine ⟨?_,?_,?_,fun index outcome is => (tells.told index outcome is).since rows ledger rfl rfl,by simp [unanswered]⟩
  · intro owner named is
    rw [same] at is
    cases is
    exact tells.work _ _ works
  · intro owner named settled entry is
    have here : phase = .owing owner named settled entry := is
    rw [here] at same
    cases same
    exact owing settled entry here
  · intro owner named settled decision is
    have here : phase = .telling owner named settled decision := is
    rw [here] at same
    cases same
    exact (telling settled decision here).since (Pipeline.Standing.still _) (List.prefix_refl _) rfl rfl

theorem judge_tells {Inv : Stock → Prop} {history : List Stock} (orderly : Orderly call) (tells : Tells api cell call)
    (trail : System.Trail Inv Pipeline.Since history cell.stock) {trial : Trial}
    (atLeader : ∃ seen ∈ history, seen.holdings.db = trial.leader)
    (atReplica : ∃ seen ∈ history, seen.holdings.db = trial.replica)
    (rows : Pipeline.Standing cell.stock.memories after.stock.memories)
    (stepped : call.judge api trial cell = .ok (later,after)) : Tells api after later := by
  obtain ⟨scope,candidates,phase,rest⟩ := judge_ok stepped
  have works : call.phase.work = some (scope,candidates) := by rw [phase]; rfl
  have unanswered := orderly.unanswered works
  rcases rest with ⟨error,fails,rfl,rfl⟩ | ⟨candidate,record,settled,stock,next',made,committed,rfl,⟨error,fails,rfl⟩ | rfl⟩
  · exact tells.refuse fails
  · exact (tells.since rows (List.prefix_refl _)).refuse fails
  · obtain ⟨sameScope,sameText,sameId'⟩ := parts_ok made
    refine tells.goesOn unanswered works (owed_work scope candidates settled) rows (List.prefix_refl _) ?_ ?_
    · intro settled' entry is
      rcases commit_verdict trail atLeader atReplica committed with
        ⟨memory,settling,-,-,none',-⟩ | ⟨reason,denied,named,verdict,captured,some',-⟩
      · rw [owed,none'] at is
        cases is
      · rw [owed,some'] at is
        cases is
        subst sameScope
        exact ⟨candidate,trial.at',record,reason,_,next',by rw [named,sameId',made],denied,verdict,captured,rfl⟩
    · intro settled' decision is
      rcases commit_verdict trail atLeader atReplica committed with
        ⟨memory,settling,verdict,captured,none',row,inside,sameId,owned,-,text⟩ | ⟨reason,-,-,-,-,some',-⟩
      · rw [owed,none'] at is
        cases is
        refine ⟨scope,candidates,candidate,tells.work _ _ works,next',rfl,.inl ?_⟩
        exact storedAs verdict captured inside sameId (owned.trans sameScope) (fun new => by rw [text new,sameText]) _
      · rw [owed,some'] at is
        cases is

theorem append_tells (orderly : Orderly call) (tells : Tells api cell call) {lost : Option Failure}
    (stepped : call.append api lost cell = .ok (later,after)) : Tells api after later := by
  obtain ⟨scope,candidates,settled,entry,phase,rfl,rest⟩ := append_ok stepped
  have works : call.phase.work = some (scope,candidates) := by rw [phase]; rfl
  have unanswered := orderly.unanswered works
  have longer : cell.ledger <+: cell.ledger ++ [decisionOf entry settled.candidate] := List.prefix_append _ _
  rcases rest with ⟨error,fails,rfl⟩ | rfl
  · have kept : Tells api { cell with ledger := cell.ledger ++ [decisionOf entry settled.candidate] } call :=
      tells.since (Pipeline.Standing.still _) longer
    exact kept.refuse fails
  · refine tells.goesOn unanswered works rfl (Pipeline.Standing.still _) longer (by simp) ?_
    intro settled' decision is
    cases is
    obtain ⟨candidate,at',record,reason,digest,next',made,denied,verdict,captured,rfl⟩ := tells.owing _ _ _ _ phase
    refine ⟨scope,candidates,candidate,tells.work _ _ works,next',rfl,.inr ?_⟩
    exact refusedAs made denied verdict captured (List.mem_append_right _ (List.mem_singleton_self _)) _

theorem publish_tells (orderly : Orderly call) (tells : Tells api cell call)
    (stepped : call.publish api cell = .ok (later,after)) : Tells api after later := by
  obtain ⟨scope,candidates,settled,decision,phase,rfl,rfl⟩ := publish_ok stepped
  have works : call.phase.work = some (scope,candidates) := by rw [phase]; rfl
  have started := tells.work _ _ works
  have told : ∀ index outcome, (call.results ++ [settled.outcome call.results.length decision])[index]? = some outcome →
      Told api { cell with events := cell.events ++ [settled.event scope] } call index outcome := by
    intro index outcome is
    rcases Nat.lt_trichotomy index call.results.length with early | rfl | late
    · rw [List.getElem?_append_left early] at is
      exact (tells.told index outcome is).since (Pipeline.Standing.still _) (List.prefix_refl _) rfl rfl
    · rw [List.getElem?_concat_length] at is
      cases is
      exact (tells.telling _ _ _ _ phase).since (Pipeline.Standing.still _) (List.prefix_refl _) rfl rfl
    · rw [List.getElem?_eq_none (by simp; omega)] at is
      cases is
  rcases told_cases api call scope candidates settled (call.results ++ [settled.outcome call.results.length decision])
    with ⟨answer,status | ⟨is,all⟩,ends⟩ | ⟨more,goes⟩
  · rw [ends]
    exact settle_tells told (.inl status)
  · rw [ends]
    exact settle_tells told (.inr ⟨scope,candidates,started,all,is⟩)
  · rw [goes]
    refine ⟨?_,by simp,by simp,?_,by simp [orderly.unanswered works]⟩
    · intro _ _ same
      cases same
      exact started
    · exact fun index outcome is =>
        (told index outcome is).since (Pipeline.Standing.still _) (List.prefix_refl _) rfl rfl

theorem look_tells (orderly : Orderly call) (tells : Tells api cell call) (arrived : call.phase = .arrived)
    (found : Option Remembered) : Tells api cell (call.look api found) := by
  rcases look_cases api call found with ⟨error,is⟩ | ⟨key,memo,-,-,-,is⟩ | is
  · rw [is]
    exact tells.close _
  · rw [is]
    exact tells.close _
  · rw [is]
    exact tells.begin' (orderly.fresh arrived)

variable {redigests : Bool}

/-- A candidate is judged on reads of states there were. -/
theorem judge_staged {history : List Surface} {index : Nat} {trial : Trial}
    (staged : Stages api redigests history (.advance index (.judge trial))) :
    (∃ stock ∈ history.map (·.cell.stock), stock.holdings.db = trial.leader) ∧
      ∃ stock ∈ history.map (·.cell.stock), stock.holdings.db = trial.replica := by
  cases staged with
  | judge _ atLeader atReplica =>
    obtain ⟨first,firstIn,leader⟩ := atLeader
    obtain ⟨second,secondIn,replica⟩ := atReplica
    exact ⟨⟨_,List.mem_map_of_mem firstIn,leader⟩,_,List.mem_map_of_mem secondIn,replica⟩

theorem advance_tells {history : List Surface} {index : Nat} {step : Step} (orderly : Orderly call)
    (tells : Tells api now.cell call) (trail : System.Trail Settles Since history now)
    (staged : Stages api redigests history (.advance index step))
    (rows : Pipeline.Standing now.cell.stock.memories after.stock.memories)
    (stepped : call.advance api step now.cell = .ok (later,after)) : Tells api after later := by
  cases step with
  | look found =>
    simp only [Call.advance] at stepped
    split at stepped
    · next arrived =>
      cases stepped
      exact look_tells orderly tells arrived found
    · cases stepped
  | judge trial =>
    obtain ⟨atLeader,atReplica⟩ := judge_staged staged
    have stocks : System.Trail Pipeline.Basis Pipeline.Since (history.map (·.cell.stock)) now.cell.stock :=
      trail.map (fun _ held => held.stock) fun _ _ since => since.stock
    exact judge_tells orderly tells stocks atLeader atReplica rows stepped
  | append lost => exact append_tells orderly tells stepped
  | publish => exact publish_tells orderly tells stepped
  | fail failure =>
    obtain ⟨rfl,⟨-,rfl⟩ | ⟨-,rfl⟩⟩ := fail_ok stepped
    · exact tells.close _
    · exact tells.refuse (ofFailure_fails failure)
  | finish kept delivered =>
    obtain ⟨answer,-,-,rfl,rfl⟩ := finish_ok stepped
    refine (tells.close _).since rows ?_
    split_ifs
    · simp [(remember_same api call answer now.cell).2.1]
    · exact List.prefix_refl _
  | vanish =>
    obtain ⟨-,rfl,rfl⟩ := vanish_ok stepped
    exact tells.close _

theorem tells_keeps :
    System.Keeps (system api redigests) (fun _ _ => True) (Stages api redigests)
      (fun surface => Settles surface ∧ ∀ call ∈ surface.calls, Tells api surface.cell call) Since := by
  refine settles_keeps.further (by simp [system,Surface.empty]) ?_
  intro history now action next trail settles tells staged _ applied
  have base := trail.weaken fun _ held => held.1
  obtain ⟨-,since⟩ := settles_keeps.move history now action next base settles staged trivial applied
  have kept : ∀ call ∈ now.calls, Tells api next.cell call :=
    fun call member => (tells call member).since since.stock.rows since.ledger
  cases action with
  | arrive caller header body =>
    cases applied
    intro call member
    rcases List.mem_append.mp member with old | new
    · exact kept call old
    · rw [List.mem_singleton.mp new]
      exact ⟨by simp [Call.fresh,Phase.work],by simp [Call.fresh],by simp [Call.fresh],by simp [Call.fresh],by simp [Call.fresh]⟩
  | forget slot =>
    cases applied
    exact kept
  | elsewhere txn =>
    obtain ⟨stock,-,rest⟩ := bind_ok_iff.mp applied
    cases rest
    exact kept
  | advance index step =>
    obtain ⟨call,later,cell,is,stepped,rfl⟩ := advance_applied applied
    have inside := List.mem_of_getElem? is
    intro other member
    rcases List.mem_or_eq_of_mem_set member with old | rfl
    · exact kept other old
    · exact advance_tells (settles.calls call inside) (tells call inside) base staged since.stock.rows stepped

/-! ### Answers stand -/

end

namespace Sample

/-- A note is captured and a credential is refused. -/
def answered : List (Action × Surface) :=
  let noted := then' (judged (looked (then' [] (.arrive alice none [1])) 0 (.fresh alice none [1])) 0) (.advance 0 .publish)
  let refused := judged (looked (then' noted (.arrive alice none [2])) 1 (.fresh alice none [2])) 1
  then' (then' refused (.advance 1 (.append none))) (.advance 1 .publish)

theorem run_answered : System.Run surface (fun _ _ => True) answered :=
  have noted := run_then (run_judged (run_looked (run_then .start (.arrive _ _ _)) rfl) 0) (.publish 0)
  run_then (run_then (run_judged (run_looked (run_then noted (.arrive _ _ _)) rfl) 1) (.append 1 none)) (.publish 1)

end Sample

end Aicortex.CaptureCalls
