import Aicortex.CaptureProgress

/-!
What an idempotency key gives back. A memo is of a call that worked its answer out, under
the slot and with the request of that call, so a call that answers from a memo repeats the
answer another call worked out to the same request, and does nothing itself.
-/

namespace Aicortex.CaptureCalls
open Aicortex.Text Aicortex.Memories Aicortex.Schema Aicortex.CaptureGate Aicortex.CaptureApi Aicortex.ScopeIdentity
open Aicortex.Pipeline (Stock)
open Lib.Tables Lib.Outcome Lib.StaleRuns Lib.Framing
open Aicortex.Claims hiding Unit
set_option linter.unusedSimpArgs false

/-! ### Memos -/

section
variable {SecretRules : Type} (api : Api SecretRules)

/-- A memo of an answer that some call worked out, and that is no failure of the cell. -/
def Minted (calls : List Call) (slot : String) (memo : Remembered) : Prop :=
  ∃ call ∈ calls, ∃ key, idempotencyKey call.header = .ok (some key) ∧ slot = CaptureApi.slot api.sha256 call.caller key ∧
    memo.request = requestDigest api.sha256 call.body ∧ call.own = some ⟨memo.status,memo.body⟩ ∧
    isServerError memo.status = false

/-- An answer that repeats a memo of the call's own slot and request. -/
def Repeats (calls : List Call) (call : Call) (answer : Answer) : Prop :=
  ∃ key memo, idempotencyKey call.header = .ok (some key) ∧
    Minted api calls (slot api.sha256 call.caller key) memo ∧ memo.request = requestDigest api.sha256 call.body ∧
    answer = ⟨memo.status,memo.body⟩

/-- Memos are minted, and what is replayed repeats one. -/
structure Faithful (surface : Surface) : Prop where
  memos : ∀ slot memo, surface.cell.memos slot = some memo → Minted api surface.calls slot memo
  replays : ∀ call ∈ surface.calls, ∀ answer, call.phase.Replayed answer →
    Repeats api surface.calls call answer ∧ call.own = none ∧ call.results = []

end

section
variable {SecretRules : Type} {api : Api SecretRules} {call later : Call} {cell after : Cell} {seen now : Surface}

/-- What was minted stays so as the calls go on. -/
theorem Minted.since {slot : String} {memo : Remembered} (minted : Minted api seen.calls slot memo) (since : Since seen now) :
    Minted api now.calls slot memo := by
  obtain ⟨call,member,key,named,is,request,own,settled⟩ := minted
  obtain ⟨index,there⟩ := List.mem_iff_getElem?.mp member
  obtain ⟨later,found,onward⟩ := since.calls index call there
  exact ⟨later,List.mem_of_getElem? found,key,by rw [onward.header,named],by rw [onward.caller,is],
    by rw [onward.body,request],onward.own _ own,settled⟩

theorem Repeats.since {answer : Answer} (repeats : Repeats api seen.calls call answer) (since : Since seen now) :
    Repeats api now.calls call answer := by
  obtain ⟨key,memo,named,minted,request,is⟩ := repeats
  exact ⟨key,memo,named,minted.since since,request,is⟩

/-- Only the end of a call writes a memo: the one of its own slot and answer. -/
theorem advance_memos {step : Step} (stepped : call.advance api step cell = .ok (later,after)) :
    after.memos = cell.memos ∨ ∃ key answer, idempotencyKey call.header = .ok (some key) ∧ call.own = some answer ∧
      isServerError answer.status = false ∧
      after.memos = Function.update cell.memos (slot api.sha256 call.caller key)
        (some ⟨requestDigest api.sha256 call.body,answer.status,answer.json⟩) := by
  cases step with
  | look found =>
    simp only [Call.advance] at stepped
    split at stepped
    · cases stepped
      exact .inl rfl
    · cases stepped
  | judge trial =>
    obtain ⟨scope,candidates,-,⟨error,-,-,rfl⟩ | ⟨candidate,record,settled,stock,-,-,-,rfl,-⟩⟩ := judge_ok stepped
    · exact .inl rfl
    · exact .inl rfl
  | append lost =>
    obtain ⟨scope,candidates,settled,entry,-,rfl,-⟩ := append_ok stepped
    exact .inl rfl
  | publish =>
    obtain ⟨scope,candidates,settled,decision,-,rfl,-⟩ := publish_ok stepped
    exact .inl rfl
  | fail failure =>
    obtain ⟨rfl,-⟩ := fail_ok stepped
    exact .inl rfl
  | finish kept delivered =>
    obtain ⟨answer,-,own,-,rfl⟩ := finish_ok stepped
    cases kept with
    | false => exact .inl rfl
    | true =>
      simp only [if_true,remember]
      split
      · next key named =>
        split_ifs with failed
        · exact .inl rfl
        · exact .inr ⟨key,answer,named,own,Bool.eq_false_iff.mpr failed,rfl⟩
      · exact .inl rfl
  | vanish =>
    obtain ⟨-,-,rfl⟩ := vanish_ok stepped
    exact .inl rfl

/-- A call that is replayed after a step looked its memo up in that step. -/
theorem advance_replayed {step : Step} {answer : Answer} (orderly : Orderly call)
    (stepped : call.advance api step cell = .ok (later,after)) (replayed : later.phase.Replayed answer) :
    ∃ key memo, step = .look (some memo) ∧ idempotencyKey call.header = .ok (some key) ∧
      memo.request = requestDigest api.sha256 call.body ∧ answer = ⟨memo.status,memo.body⟩ ∧
      call.own = none ∧ later.own = none ∧ later.results = [] := by
  have unbegun : ¬ call.phase.Begun := fun begun => ((advance_keeps orderly stepped).2.begun begun).2 answer replayed
  have idle : ∀ work, call.phase.work ≠ some work := fun work works => unbegun (Phase.begun_of_work works)
  cases step with
  | look found =>
    simp only [Call.advance] at stepped
    split at stepped
    · next arrived =>
      cases stepped
      rcases look_cases api call found with ⟨error,is⟩ | ⟨key,memo,named,rfl,same,is⟩ | is
      · obtain ⟨response,closed,again,-⟩ := replayed
        rw [is] at closed
        cases closed
        cases again
      · obtain ⟨response,closed,-,rfl⟩ := replayed
        rw [is] at closed ⊢
        cases closed
        exact ⟨key,memo,rfl,named,same,rfl,orderly.fresh arrived,orderly.fresh arrived,orderly.idle arrived⟩
      · rw [is] at replayed
        exact absurd replayed ((begin_request api call).2.2.2.2.2 answer)
    · cases stepped
  | judge trial =>
    obtain ⟨scope,candidates,phase,-⟩ := judge_ok stepped
    exact absurd (by rw [phase]; rfl) (idle (scope,candidates))
  | append lost =>
    obtain ⟨scope,candidates,settled,entry,phase,-⟩ := append_ok stepped
    exact absurd (by rw [phase]; rfl) (idle (scope,candidates))
  | publish =>
    obtain ⟨scope,candidates,settled,decision,phase,-⟩ := publish_ok stepped
    exact absurd (by rw [phase]; rfl) (idle (scope,candidates))
  | fail failure =>
    obtain ⟨-,⟨-,rfl⟩ | ⟨⟨work,works⟩,-⟩⟩ := fail_ok stepped
    · obtain ⟨response,closed,again,-⟩ := replayed
      cases closed
      cases again
    · exact absurd works (idle work)
  | finish kept delivered =>
    obtain ⟨own,phase,-,rfl,-⟩ := finish_ok stepped
    exact absurd (Phase.begun_of (by simp [phase]) (by simp [phase])) unbegun
  | vanish =>
    obtain ⟨-,rfl,-⟩ := vanish_ok stepped
    obtain ⟨response,closed,-⟩ := replayed
    cases closed

variable {redigests : Bool}

/-- A lookup is of a state there was, under the slot of the call. -/
theorem look_staged {history : List Surface} {index : Nat} {found : Option Remembered}
    (staged : Stages api redigests history (.advance index (.look found))) :
    ∃ state ∈ history, ∃ call, state.calls[index]? = some call ∧ ∃ seen ∈ history, found = memoOf api call seen.cell := by
  cases staged with
  | look known is reads => exact ⟨_,known,_,is,_,reads,rfl⟩

theorem faithful_keeps :
    System.Keeps (system api redigests) (fun _ _ => True) (Stages api redigests)
      (fun surface => Settles surface ∧ Faithful api surface) Since := by
  refine settles_keeps.further ⟨by simp [system,Surface.empty],by simp [system,Surface.empty]⟩ ?_
  intro history now action next trail settles faithful staged _ applied
  obtain ⟨-,since⟩ := settles_keeps.move history now action next (trail.weaken fun _ held => held.1) settles staged trivial applied
  have kept : ∀ call ∈ now.calls, ∀ answer, call.phase.Replayed answer →
      Repeats api next.calls call answer ∧ call.own = none ∧ call.results = [] := by
    intro call member answer replayed
    obtain ⟨repeats,quiet⟩ := faithful.replays call member answer replayed
    exact ⟨repeats.since since,quiet⟩
  cases action with
  | arrive caller header body =>
    cases applied
    refine ⟨fun slot memo is => (faithful.memos slot memo is).since since,?_⟩
    intro call member answer replayed
    rcases List.mem_append.mp member with old | new
    · exact kept call old answer replayed
    · rw [List.mem_singleton.mp new] at replayed
      obtain ⟨response,closed,-⟩ := replayed
      cases closed
  | forget slot =>
    cases applied
    refine ⟨fun other memo is => ?_,kept⟩
    simp only [Function.update_apply] at is
    split_ifs at is
    exact (faithful.memos other memo is).since since
  | elsewhere txn =>
    obtain ⟨stock,-,rest⟩ := bind_ok_iff.mp applied
    cases rest
    exact ⟨fun slot memo is => (faithful.memos slot memo is).since since,kept⟩
  | advance index step =>
    obtain ⟨call,later,cell,is,stepped,rfl⟩ := advance_applied applied
    have inside := List.mem_of_getElem? is
    have orderly := settles.calls call inside
    obtain ⟨-,onward⟩ := advance_keeps orderly stepped
    have there : later ∈ now.calls.set index later :=
      List.mem_set (List.getElem?_eq_some_iff.mp is).1 later
    constructor
    · intro slot memo found
      rcases advance_memos stepped with same | ⟨key,answer,named,own,settled,memos⟩
      · exact (faithful.memos slot memo (same ▸ found)).since since
      · simp only [memos,Function.update_apply] at found
        split_ifs at found with own'
        · cases found
          exact ⟨later,there,key,by rw [onward.header,named],by rw [onward.caller,own'],by rw [onward.body],
            onward.own _ own,settled⟩
        · exact (faithful.memos slot memo found).since since
    · intro other member answer replayed
      rcases List.mem_or_eq_of_mem_set member with old | rfl
      · exact kept other old answer replayed
      · obtain ⟨key,memo,rfl,named,request,rfl,-,unanswered,idle⟩ := advance_replayed orderly stepped replayed
        refine ⟨⟨key,memo,by rw [onward.header,named],?_,by rw [onward.body,request],rfl⟩,unanswered,idle⟩
        obtain ⟨state,known,past,asked,seen,reads,hit⟩ := look_staged staged
        obtain ⟨then',here,before⟩ := (trail.since state known).calls index past asked
        rw [is] at here
        cases here
        simp only [memoOf,← before.header,named,← before.caller] at hit
        rw [onward.caller]
        exact (((trail.held seen reads).2.memos _ memo hit.symm).since (trail.since seen reads)).since since

/-- A call that has worked on a candidate is past its memo ever after. -/
theorem worked_begun {log : List (Action × Surface)} (run : System.Run (system api redigests) (fun _ _ => True) log)
    {index : Nat} {step : Step} {next : Surface} (entry : (Action.advance index step,next) ∈ log) (works : step.works = true)
    (is : ((system api redigests).current log).calls[index]? = some call) : call.phase.Begun := by
  obtain ⟨newer,older,rfl⟩ := List.append_of_mem entry
  obtain ⟨before,later,cell,-,orderly,stepped,-,last,found,onward⟩ := entry_stepped run
  rw [is] at found
  cases found
  exact onward.begun (advance_begun works orderly stepped)

end

/-! ### Replays -/

/-- What the surface hashes of a call. -/
def Call.hashed (call : Call) : List (List (List UInt8)) :=
  [call.body] :: match idempotencyKey call.header with
    | .ok (some key) => [slotParts call.caller key]
    | _ => []

/-- The hash keeps apart what the surface hashes of its calls. -/
structure Uncollided {SecretRules : Type} (api : Api SecretRules) (calls : List Call) : Prop where
  fits : ∀ call ∈ calls, ∀ parts ∈ call.hashed, Fits 8 parts
  apart : ∀ one ∈ calls.flatMap Call.hashed, ∀ two ∈ calls.flatMap Call.hashed,
    api.sha256 (frame 8 one) = api.sha256 (frame 8 two) → frame 8 one = frame 8 two

section
variable {SecretRules : Type} {api : Api SecretRules} {redigests : Bool}

/-- The call a memo answers and the one it was minted for ask the same. -/
theorem Uncollided.same {calls : List Call} (free : Uncollided api calls) {left right : Call} (leftIn : left ∈ calls)
    (rightIn : right ∈ calls) {one two : String} (leftKey : idempotencyKey left.header = .ok (some one))
    (rightKey : idempotencyKey right.header = .ok (some two))
    (slots : slot api.sha256 left.caller one = slot api.sha256 right.caller two)
    (requests : requestDigest api.sha256 left.body = requestDigest api.sha256 right.body) :
    (left.caller.sub = right.caller.sub ∧ left.caller.clientId.getD "" = right.caller.clientId.getD "" ∧ one = two) ∧
      left.body = right.body := by
  have body : ∀ call : Call, [call.body] ∈ call.hashed := fun call => List.mem_cons_self
  have named : ∀ (call : Call) (key : String), idempotencyKey call.header = .ok (some key) →
      slotParts call.caller key ∈ call.hashed := by
    intro call key is
    simp [Call.hashed,is]
  have within : ∀ call ∈ calls, ∀ parts ∈ call.hashed, parts ∈ calls.flatMap Call.hashed :=
    fun call member parts inside => List.mem_flatMap.mpr ⟨call,member,inside⟩
  constructor
  · refine slot_eq (free.fits left leftIn _ (named left one leftKey)) (free.fits right rightIn _ (named right two rightKey)) ?_
      slots
    exact free.apart _ (within left leftIn _ (named left one leftKey)) _ (within right rightIn _ (named right two rightKey))
  · have bodies := digest_eq (free.fits left leftIn _ (body left)) (free.fits right rightIn _ (body right))
      (free.apart _ (within left leftIn _ (body left)) _ (within right rightIn _ (body right))) requests
    exact List.singleton_inj.mp bodies

/-- A call that answers from a memo repeats the answer another call of the same subject,
    client and key worked out to the same request. It worked on no candidate itself. -/
theorem replay_repeats {log : List (Action × Surface)} (run : System.Run (system api redigests) (fun _ _ => True) log)
    (free : Uncollided api ((system api redigests).current log).calls) {index : Nat} {call : Call} {answer : Answer}
    (is : ((system api redigests).current log).calls[index]? = some call) (replayed : call.phase.Replayed answer) :
    (∃ other ∈ ((system api redigests).current log).calls, other.caller.sub = call.caller.sub ∧
        other.caller.clientId.getD "" = call.caller.clientId.getD "" ∧
        idempotencyKey other.header = idempotencyKey call.header ∧ other.body = call.body ∧ other.own = some answer) ∧
      isServerError answer.status = false ∧ call.own = none ∧
      ∀ entry ∈ log, ∀ step, entry.1 = .advance index step → step.works = false := by
  have inside := List.mem_of_getElem? is
  obtain ⟨⟨key,memo,named,⟨other,member,key',named',slots,request',own,settled⟩,request,rfl⟩,unanswered,-⟩ :=
    (run.holds stages_fit faithful_keeps).2.replays call inside answer replayed
  obtain ⟨⟨subs,clients,keys⟩,bodies⟩ := free.same member inside named' named slots.symm (request'.symm.trans request)
  refine ⟨⟨other,member,subs,clients,by rw [named,named',keys],bodies,own⟩,settled,unanswered,?_⟩
  rintro ⟨action,next⟩ entry step rfl
  by_contra works
  exact (worked_begun run entry (Bool.of_not_eq_false works) is).2 _ replayed

end

namespace Sample

/-- The first call under a key captures a note. -/
def captured : List (Action × Surface) :=
  let asked := then' [] (.arrive alice (some (some "k")) [1])
  let judged := judged (looked asked 0 (.fresh alice (some (some "k")) [1])) 0
  then' (then' judged (.advance 0 .publish)) (.advance 0 (.finish true true))

/-- The second is answered from the memo. -/
def replayed : List (Action × Surface) :=
  looked (then' captured (.arrive alice (some (some "k")) [1])) 1 (.fresh alice (some (some "k")) [1])

theorem run_captured : System.Run surface (fun _ _ => True) captured :=
  run_then (run_then (run_judged (run_looked (run_then .start (.arrive _ _ _)) rfl) 0) (.publish 0)) (.finish 0 true true)

theorem run_replayed : System.Run surface (fun _ _ => True) replayed :=
  run_looked (run_then run_captured (.arrive _ _ _)) rfl

/-- What a response that was replayed says. -/
def replayOf : Phase → Option Answer
  | .closed (some response) => if response.replayed then some response.answer else none
  | _ => none

theorem replayed_of {phase : Phase} {answer : Answer} (is : replayOf phase = some answer) : phase.Replayed answer := by
  cases phase with
  | closed response =>
    cases response with
    | some response =>
      simp only [replayOf] at is
      split_ifs at is with again
      cases is
      exact ⟨response,rfl,again,rfl⟩
    | none => cases is
  | _ => cases is

theorem replayed_second : ((now replayed).calls[1]?).bind (fun call => replayOf call.phase) = some ⟨200,"1"⟩ := by
  decide +kernel

theorem replayed_uncollided : Uncollided api (now replayed).calls := by
  have short : ∀ call ∈ (now replayed).calls, ∀ parts ∈ call.hashed, ∀ part ∈ parts, part.length < 256 ^ 8 := by
    decide +kernel
  exact ⟨short,by decide +kernel⟩

/-- The second call under the key repeats what the first one answered. -/
theorem replay_repeats_second :
    ∃ call, (now replayed).calls[1]? = some call ∧
      (∃ other ∈ (now replayed).calls, other.caller.sub = call.caller.sub ∧
          other.caller.clientId.getD "" = call.caller.clientId.getD "" ∧
          idempotencyKey other.header = idempotencyKey call.header ∧ other.body = call.body ∧ other.own = some ⟨200,"1"⟩) ∧
        isServerError 200 = false ∧ call.own = none ∧
        ∀ entry ∈ replayed, ∀ step, entry.1 = .advance 1 step → step.works = false := by
  obtain ⟨call,is,again⟩ := Option.bind_eq_some_iff.mp replayed_second
  exact ⟨call,is,replay_repeats run_replayed replayed_uncollided is (replayed_of again)⟩

end Sample

end Aicortex.CaptureCalls
