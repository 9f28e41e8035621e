import Aicortex.CaptureOutcomes

/-!
The Decisions of the surface. Each is a denial, under a digest key that was committed in
the scope of the caller before it, and none is appended twice for one key: a call that
owes a Decision has committed its key, and stops owing as it appends.
-/

namespace Aicortex.CaptureCalls
open Aicortex.Text Aicortex.Memories Aicortex.Schema Aicortex.CaptureGate Aicortex.CaptureApi Aicortex.ScopeIdentity
open Aicortex.Pipeline (Stock)
open Lib.Tables Lib.Outcome Lib.StaleRuns
open Aicortex.Claims hiding Unit
set_option linter.unusedSimpArgs false

/-- A key that was committed for a refusal, in a state there was. -/
def KeySeen (states : List Surface) (scope : Scope) (keyId : String) : Prop :=
  ∃ seen ∈ states, ⟨keyId,scope,none⟩ ∈ seen.cell.stock.holdings.db.keys

/-- A try that was made for the call at a place of the list. -/
def Tried (log : List (Action × Surface)) (place : Nat) (trial : Trial) : Prop :=
  .advance place (.judge trial) ∈ log.map Prod.fst

/-- A Decision is the denial of a candidate that a call offered to a scope of its caller's:
    the gate refuses the record a try made of it, and the Decision is named after that
    record, with the digest of what was offered under the key the try was given. -/
structure Denies {SecretRules : Type} (api : Api SecretRules) (states : List Surface) (call : Call) (trial : Trial)
    (decision : Decision) (scope : Scope) (reason : Reason) : Prop where
  offered : ∃ candidates, ∃ index : Nat, ∃ candidate record, start api call.caller call.body = .ok (scope,candidates) ∧
    candidates[index]? = some candidate ∧ parts call.caller scope candidate trial.at' trial.id = .ok record ∧
    evaluate api.linked api.rules ⟨record,.authenticated⟩ = .refuse reason ∧
    decision.payload.digest =
      ⟨hex (api.hmac trial.key.secret (digestMaterial api.linked.nfc ⟨record,.authenticated⟩)),digestAlgorithm,trial.key.id⟩
  owner : scope.owner = call.caller.sub
  actor : decision.actor = call.caller.sub
  named : decision.id = s!"{kindRefuse}-{trial.id}"
  kind : decision.kind = kindRefuse
  denied : decision.allowed = false
  told : decision.reason = sentence reason
  code : decision.payload.reasonCode = reason.code
  shown : decision.payload.scope = scope.display
  unstored : decision.payload.memoryId = none
  key : KeySeen states scope trial.key.id

/-- The key of the Decision a call owes. -/
def owedKey : Phase → Option String
  | .owing _ _ _ entry => some entry.payload.digest.keyId
  | _ => none

def owes (keyId : String) (call : Call) : Bool := owedKey call.phase == some keyId

def carries (keyId : String) (decision : Decision) : Bool := decision.payload.digest.keyId == keyId

/-- A try that was given the key. -/
def mints (keyId : String) : Action → Bool
  | .advance _ (.judge trial) => trial.key.id == keyId
  | _ => false

/-- What the call at a place owes is the denial of a candidate of its own, made in a try of
    its own. -/
def OwesDenial {SecretRules : Type} (api : Api SecretRules) (states : List Surface) (log : List (Action × Surface)) (place : Nat)
    (call : Call) : Prop :=
  ∀ scope candidates settled entry, call.phase = .owing scope candidates settled entry →
    ∃ trial reason, Tried log place trial ∧ Denies api states call trial (decisionOf entry settled.candidate) scope reason

section
variable {SecretRules : Type} {api : Api SecretRules} {call later : Call} {cell after : Cell} {states : List Surface}
variable {log : List (Action × Surface)} {redigests : Bool}

theorem KeySeen.more {scope : Scope} {keyId : String} (seen : KeySeen states scope keyId) (state : Surface) :
    KeySeen (state :: states) scope keyId := by
  obtain ⟨found,inside,there⟩ := seen
  exact ⟨found,List.mem_cons_of_mem _ inside,there⟩

theorem Tried.more {place : Nat} {trial : Trial} (tried : Tried log place trial) (entry : Action × Surface) :
    Tried (entry :: log) place trial := List.mem_cons_of_mem _ tried

theorem Denies.more {trial : Trial} {decision : Decision} {scope : Scope} {reason : Reason}
    (denies : Denies api states call trial decision scope reason) (state : Surface) :
    Denies api (state :: states) call trial decision scope reason :=
  { denies with key := denies.key.more state }

/-- A call offers the same as it goes on. -/
theorem Denies.goesOn {trial : Trial} {decision : Decision} {scope : Scope} {reason : Reason}
    (denies : Denies api states call trial decision scope reason) (caller : later.caller = call.caller)
    (body : later.body = call.body) : Denies api states later trial decision scope reason :=
  { denies with
    offered := by rw [caller,body]; exact denies.offered
    owner := by rw [caller]; exact denies.owner
    actor := by rw [caller]; exact denies.actor }

theorem OwesDenial.more {place : Nat} (owing : OwesDenial api states log place call) (entry : Action × Surface) :
    OwesDenial api (entry.2 :: states) (entry :: log) place call := by
  intro scope candidates settled owed phase
  obtain ⟨trial,reason,tried,denies⟩ := owing scope candidates settled owed phase
  exact ⟨trial,reason,tried.more entry,denies.more entry.2⟩

/-! ### What a step owes and appends -/

/-- A call comes to owe a Decision by committing a candidate. -/
theorem advance_owing {step : Step} (stepped : call.advance api step cell = .ok (later,after)) {scope : Scope}
    {candidates : List CandidateIn} {settled : Settled} {entry : LedgerEntry}
    (phase : later.phase = .owing scope candidates settled entry) :
    ∃ trial candidate record stock, step = .judge trial ∧ call.phase = .judging scope candidates ∧
      candidates[call.results.length]? = some candidate ∧ parts call.caller scope candidate trial.at' trial.id = .ok record ∧
      commit api call.caller trial ⟨record,.authenticated⟩ cell.stock = .ok (settled,stock) ∧ settled.entry = some entry ∧
      after = { cell with stock := stock } := by
  cases step with
  | look found =>
    simp only [Call.advance] at stepped
    split at stepped
    · cases stepped
      rcases look_cases api call found with ⟨error,is⟩ | ⟨key,memo,-,-,-,is⟩ | is
      · rw [is] at phase
        cases phase
      · rw [is] at phase
        cases phase
      · rw [is,Call.begin'] at phase
        split at phase <;> cases phase
    · cases stepped
  | judge trial =>
    obtain ⟨owner,named,works,rest⟩ := judge_ok stepped
    rcases rest with ⟨error,-,rfl,-⟩ | ⟨candidate,record,other,stock,next',made,committed,is,⟨error,-,rfl⟩ | rfl⟩
    · cases phase
    · cases phase
    · cases owed' : other.entry with
      | none => simp [owed,owed'] at phase
      | some first =>
        simp only [owed,owed',Phase.owing.injEq] at phase
        obtain ⟨rfl,rfl,rfl,rfl⟩ := phase
        exact ⟨trial,candidate,record,stock,rfl,works,next',made,committed,owed',is⟩
  | append lost =>
    obtain ⟨_,_,_,_,-,-,⟨error,-,rfl⟩ | rfl⟩ := append_ok stepped <;> cases phase
  | publish =>
    obtain ⟨owner,named,other,decision,-,-,rfl⟩ := publish_ok stepped
    rcases told_cases api call owner named other (call.results ++ [other.outcome call.results.length decision]) with
      ⟨answer,-,is⟩ | ⟨-,is⟩
    · rw [is] at phase
      cases phase
    · rw [is] at phase
      cases phase
  | fail failure =>
    obtain ⟨-,⟨-,rfl⟩ | ⟨-,rfl⟩⟩ := fail_ok stepped <;> cases phase
  | finish kept delivered =>
    obtain ⟨answer,-,-,rfl,-⟩ := finish_ok stepped
    cases phase
  | vanish =>
    obtain ⟨-,rfl,-⟩ := vanish_ok stepped
    cases phase

/-- The ledger grows by a Decision that was owed. -/
theorem advance_ledger {step : Step} (stepped : call.advance api step cell = .ok (later,after)) :
    after.ledger = cell.ledger ∨ ∃ lost scope candidates settled entry, step = .append lost ∧
      call.phase = .owing scope candidates settled entry ∧
      after.ledger = cell.ledger ++ [decisionOf entry settled.candidate] := by
  cases step with
  | look found =>
    simp only [Call.advance] at stepped
    split at stepped
    · cases stepped
      exact .inl rfl
    · cases stepped
  | judge trial =>
    obtain ⟨_,_,-,⟨_,-,-,rfl⟩ | ⟨_,_,_,_,-,-,-,rfl,-⟩⟩ := judge_ok stepped <;> exact .inl rfl
  | append lost =>
    obtain ⟨scope,candidates,settled,entry,phase,rfl,-⟩ := append_ok stepped
    exact .inr ⟨lost,scope,candidates,settled,entry,rfl,phase,rfl⟩
  | publish =>
    obtain ⟨_,_,_,_,-,rfl,-⟩ := publish_ok stepped
    exact .inl rfl
  | fail failure => exact .inl (by rw [(fail_ok stepped).1])
  | finish kept delivered =>
    obtain ⟨answer,-,-,-,rfl⟩ := finish_ok stepped
    split_ifs
    · exact .inl (remember_same api call answer cell).2.1
    · exact .inl rfl
  | vanish => exact .inl (by rw [(vanish_ok stepped).2.2])

theorem owes_iff {keyId : String} : owes keyId call = true ↔
    ∃ scope candidates settled entry, call.phase = .owing scope candidates settled entry ∧
      entry.payload.digest.keyId = keyId := by
  unfold owes owedKey
  split
  · next scope candidates settled entry phase =>
    constructor
    · intro same
      exact ⟨scope,candidates,settled,entry,phase,by simpa using same⟩
    · rintro ⟨_,_,_,_,is,same⟩
      rw [phase] at is
      cases is
      simpa using same
  · next other =>
    constructor
    · simp
    · rintro ⟨scope,candidates,settled,entry,phase,-⟩
      exact absurd phase (other scope candidates settled entry)

/-- What is owed and what was appended under a key grows with the tries that were given it. -/
theorem advance_owes {step : Step} (index : Nat) (keyId : String) (stepped : call.advance api step cell = .ok (later,after)) :
    after.ledger.countP (carries keyId) + (owes keyId later).toNat ≤
      cell.ledger.countP (carries keyId) + (owes keyId call).toNat + (mints keyId (.advance index step)).toNat := by
  cases still : owes keyId later with
  | true =>
    obtain ⟨scope,candidates,settled,entry,phase,same⟩ := owes_iff.mp still
    obtain ⟨trial,candidate,record,stock,rfl,-,-,-,committed,owed',rfl⟩ := advance_owing stepped phase
    have minted : mints keyId (.advance index (.judge trial)) = true := by
      obtain ⟨mid,-,-,-,-,⟨-,none',-⟩ | ⟨reason,-,some',-⟩⟩ := commit_ok committed
      · rw [owed'] at none'
        cases none'
      · rw [owed'] at some'
        cases some'
        simpa [mints,entryOf,ledgerEntry] using same
    rw [minted]
    simp only [Bool.toNat_true]
    omega
  | false =>
    rcases advance_ledger stepped with same | ⟨lost,scope,candidates,settled,entry,-,phase,grown⟩
    · rw [same]
      simp only [Bool.toNat_false]
      omega
    · have appended : [decisionOf entry settled.candidate].countP (carries keyId) = (owes keyId call).toNat := by
        rw [List.countP_singleton]
        simp [owes,owedKey,phase,carries,decisionOf,Bool.toNat,Bool.cond_eq_ite]
      rw [grown,List.countP_append,appended]
      simp only [Bool.toNat_false]
      omega

/-- A step leaves what is owed a denial whose key was seen. -/
theorem advance_denies {next : Surface} {index : Nat} {step : Step}
    (run : System.Run (system api redigests) (fun _ _ => True) log)
    (staged : Stages api redigests ((system api redigests).states log) (.advance index step)) {cell : Cell}
    (inside : call ∈ ((system api redigests).current log).calls)
    (stepped : call.advance api step ((system api redigests).current log).cell = .ok (later,cell)) (is : next.cell = cell)
    (onward : Onward call later) :
    OwesDenial api (next :: (system api redigests).states log) ((.advance index step,next) :: log) index later := by
  intro scope candidates settled entry phase
  obtain ⟨trial,candidate,record,stock,rfl,works,next',made,committed,owed',rfl⟩ := advance_owing stepped phase
  have tells := (run.holds stages_fit tells_keeps).2 call inside
  have stocks : System.Trail Pipeline.Basis Pipeline.Since (((system api redigests).states log).map (·.cell.stock))
      ((system api redigests).current log).cell.stock :=
    (run.trail stages_fit settles_keeps).map (fun _ held => held.stock) fun _ _ since => since.stock
  have started := tells.work scope candidates (by rw [works]; rfl)
  obtain ⟨sameScope,-,sameId⟩ := parts_ok made
  obtain ⟨atLeader,atReplica⟩ := judge_staged staged
  rcases commit_verdict stocks atLeader atReplica committed with ⟨_,_,-,-,none',-⟩ | ⟨reason,denied,named,-,-,some',rfl⟩
  · rw [owed'] at none'
    cases none'
  · rw [owed'] at some'
    cases some'
    have key : KeySeen (next :: (system api redigests).states log) scope trial.key.id := by
      refine ⟨next,List.mem_cons_self,?_⟩
      rw [is,← sameScope]
      exact List.mem_append_right _ (List.mem_singleton_self _)
    have denies : Denies api (next :: (system api redigests).states log) call trial
        (decisionOf (entryOf api call.caller trial.key ⟨record,.authenticated⟩ (.refuse reason) reason none) settled.candidate)
        scope reason := {
      offered := ⟨candidates,_,candidate,record,started,next',made,denied,rfl⟩
      owner := (start_ok started).1
      actor := rfl
      named := by rw [named,sameId]; rfl
      kind := rfl
      denied := by simp [decisionOf,entryOf,ledgerEntry,kindOf]
      told := rfl
      code := rfl
      shown := congrArg Scope.display sameScope
      unstored := rfl
      key := key }
    exact ⟨trial,reason,List.mem_cons_self,denies.goesOn onward.caller onward.body⟩

/-! ### Every Decision -/

/-- Decisions are denials in tries of their calls, and so is what calls owe. -/
structure Accounts {SecretRules : Type} (api : Api SecretRules) (states : List Surface) (log : List (Action × Surface))
    (surface : Surface) : Prop where
  ledger : ∀ decision ∈ surface.cell.ledger, ∃ place call trial scope reason, surface.calls[place]? = some call ∧
    Tried log place trial ∧ Denies api states call trial decision scope reason
  calls : ∀ place call, surface.calls[place]? = some call → OwesDenial api states log place call

/-- What was accounted for stays so where the calls go on. -/
theorem Accounts.onward {surface next : Surface} (accounts : Accounts api states log surface) (action : Action)
    (calls : ∀ (place : Nat) (call : Call), surface.calls[place]? = some call →
      ∃ later, next.calls[place]? = some later ∧ later.caller = call.caller ∧ later.body = call.body) :
    ∀ decision ∈ surface.cell.ledger, ∃ place call trial scope reason, next.calls[place]? = some call ∧
      Tried ((action,next) :: log) place trial ∧ Denies api (next :: states) call trial decision scope reason := by
  intro decision inside
  obtain ⟨place,call,trial,scope,reason,there,tried,denies⟩ := accounts.ledger decision inside
  obtain ⟨later,is,caller,body⟩ := calls place call there
  exact ⟨place,later,trial,scope,reason,is,tried.more _,(denies.more next).goesOn caller body⟩

theorem run_accounts (run : System.Run (system api redigests) (fun _ _ => True) log) :
    Accounts api ((system api redigests).states log) log ((system api redigests).current log) := by
  induction run with
  | start => exact ⟨by simp [System.current,system,Surface.empty],by simp [System.current,system,Surface.empty]⟩
  | @step log action next run staged _ committed ih =>
    have applied : apply api ((system api redigests).current log) action = .ok next :=
      System.commit_single (show (system api redigests).moves action = [action] from rfl) committed
    cases action with
    | arrive caller header body =>
      cases applied
      have kept : ∀ (place : Nat) (call : Call), ((system api redigests).current log).calls[place]? = some call →
          (((system api redigests).current log).calls ++ [.fresh caller header body])[place]? = some call := by
        intro place call is
        rw [List.getElem?_append_left (List.getElem?_eq_some_iff.mp is).1]
        exact is
      refine ⟨ih.onward _ fun place call is => ⟨call,kept place call is,rfl,rfl⟩,fun place call is => ?_⟩
      by_cases early : place < ((system api redigests).current log).calls.length
      · refine (ih.calls place call ?_).more _
        rwa [← List.getElem?_append_left early]
      · have new : ([.fresh caller header body] : List Call)[place - ((system api redigests).current log).calls.length]? =
            some call := by
          rwa [← List.getElem?_append_right (Nat.le_of_not_lt early)]
        rw [List.mem_singleton.mp (List.mem_of_getElem? new)]
        intro _ _ _ _ phase
        cases phase
    | forget slot =>
      cases applied
      exact ⟨ih.onward _ fun place call is => ⟨call,is,rfl,rfl⟩,fun place call is => (ih.calls place call is).more _⟩
    | elsewhere txn =>
      obtain ⟨stock,-,rest⟩ := bind_ok_iff.mp applied
      cases rest
      exact ⟨ih.onward _ fun place call is => ⟨call,is,rfl,rfl⟩,fun place call is => (ih.calls place call is).more _⟩
    | advance index step =>
      obtain ⟨call,later,cell,is,stepped,rfl⟩ := advance_applied applied
      have inside := List.mem_of_getElem? is
      have onward := (advance_keeps ((run.holds stages_fit settles_keeps).calls call inside) stepped).2
      have there := (List.getElem?_eq_some_iff.mp is).1
      have old := @Accounts.onward SecretRules api _ _ _ ⟨cell,((system api redigests).current log).calls.set index later⟩ ih
        (.advance index step) fun place other other' => by
          by_cases same : place = index
          · subst same
            rw [is] at other'
            cases other'
            exact ⟨later,List.getElem?_set_self there,onward.caller,onward.body⟩
          · exact ⟨other,by rw [List.getElem?_set_ne (Ne.symm same)]; exact other',rfl,rfl⟩
      refine ⟨fun decision member => ?_,fun place other other' => ?_⟩
      · rcases advance_ledger stepped with same | ⟨lost,scope,candidates,settled,entry,-,phase,grown⟩
        · exact old decision (same ▸ member)
        · have member : decision ∈ cell.ledger := member
          rw [grown] at member
          rcases List.mem_append.mp member with before | new
          · exact old decision before
          · obtain ⟨trial,reason,tried,denies⟩ := ih.calls index call is scope candidates settled entry phase
            rw [List.mem_singleton.mp new]
            exact ⟨index,later,trial,scope,reason,List.getElem?_set_self there,tried.more _,
              (denies.more _).goesOn onward.caller onward.body⟩
      · have other' : (((system api redigests).current log).calls.set index later)[place]? = some other := other'
        by_cases same : place = index
        · subst same
          rw [List.getElem?_set_self there] at other'
          cases other'
          exact advance_denies run staged inside stepped rfl onward
        · rw [List.getElem?_set_ne (Ne.symm same)] at other'
          exact (ih.calls place other other').more _

/-- Counting over a list with one place changed. -/
theorem countP_set (read : Call → Bool) {calls : List Call} {index : Nat} (is : calls[index]? = some call) (later : Call) :
    (calls.set index later).countP read + (read call).toNat = calls.countP read + (read later).toNat := by
  obtain ⟨inside,rfl⟩ := List.getElem?_eq_some_iff.mp is
  rw [List.countP_set inside]
  have present : read calls[index] = true → 0 < calls.countP read :=
    fun yes => List.countP_pos_iff.mpr ⟨_,List.getElem_mem inside,yes⟩
  cases before : read calls[index] with
  | false => cases read later <;> simp
  | true =>
    have some' := present before
    cases read later <;> simp <;> omega

theorem run_keyed (keyId : String) (run : System.Run (system api redigests) (fun _ _ => True) log) :
    ((system api redigests).current log).cell.ledger.countP (carries keyId) +
        ((system api redigests).current log).calls.countP (owes keyId) ≤ log.countP (fun entry => mints keyId entry.1) := by
  induction run with
  | start => simp [System.current,system,Surface.empty]
  | @step log action next run staged _ committed ih =>
    have applied : apply api ((system api redigests).current log) action = .ok next :=
      System.commit_single (show (system api redigests).moves action = [action] from rfl) committed
    rw [List.countP_cons]
    cases action with
    | arrive caller header body =>
      cases applied
      simpa [System.current,Call.fresh,owes,owedKey,mints] using ih
    | forget slot =>
      cases applied
      exact Nat.le_add_right_of_le ih
    | elsewhere txn =>
      obtain ⟨stock,-,rest⟩ := bind_ok_iff.mp applied
      cases rest
      exact Nat.le_add_right_of_le ih
    | advance index step =>
      obtain ⟨call,later,cell,is,stepped,rfl⟩ := advance_applied applied
      have moved := advance_owes index keyId stepped
      have counted := countP_set (owes keyId) is later
      have given : (mints keyId (.advance index step)).toNat = if mints keyId (.advance index step) = true then 1 else 0 :=
        by cases mints keyId (.advance index step) <;> rfl
      have grown : cell.ledger.countP (carries keyId) +
          (((system api redigests).current log).calls.set index later).countP (owes keyId) ≤
            log.countP (fun entry => mints keyId entry.1) + (mints keyId (.advance index step)).toNat := by omega
      simpa only [System.current,given] using grown

/-- Every Decision of a run is the denial of a candidate that a call offered to a scope of
    its own, named after the record a try of that call made, with its key committed by then;
    and no key carries more Decisions than the tries that were given it, whatever is
    retried, lost or done beside it. -/
theorem decisions_keyed (run : System.Run (system api redigests) (fun _ _ => True) log) :
    (∀ decision ∈ ((system api redigests).current log).cell.ledger, ∃ place call trial scope reason,
        ((system api redigests).current log).calls[place]? = some call ∧ Tried log place trial ∧
        Denies api ((system api redigests).states log) call trial decision scope reason) ∧
      ∀ keyId, ((system api redigests).current log).cell.ledger.countP (carries keyId) ≤
        log.countP (fun entry => mints keyId entry.1) :=
  ⟨(run_accounts run).ledger,fun keyId => Nat.le_of_add_right_le (run_keyed keyId run)⟩

end

namespace Sample
open Memories.Sample

theorem decisions_keyed_answered :
    (now answered).cell.ledger.map (fun decision => (decision.id,decision.kind,decision.payload.digest.keyId)) =
        [(s!"memory.gate.refuse-{memoryId}","memory.gate.refuse","key-1")] ∧
      (∀ decision ∈ (now answered).cell.ledger, ∃ place call trial scope reason, (now answered).calls[place]? = some call ∧
        Tried answered place trial ∧ Denies api (surface.states answered) call trial decision scope reason) ∧
      (now answered).cell.ledger.countP (carries "key-1") ≤ answered.countP (fun entry => mints "key-1" entry.1) :=
  ⟨by decide +kernel,(decisions_keyed run_answered).1,(decisions_keyed run_answered).2 "key-1"⟩

end Sample

end Aicortex.CaptureCalls
