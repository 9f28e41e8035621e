import Aicortex.Drains

/-!
What drains commit. The accesses of a drain are those of a worker: what it commits for a
claim was made of the active model and the memory as it read them, in order, once the claim
was held. So what the store went through is a run of the pipeline, however many drains
are at it and whatever comes between their accesses.
-/

namespace Aicortex.Drains
open Aicortex.Text Aicortex.CivilTime Aicortex.Memories Aicortex.Schema Aicortex.MemoryRepo Aicortex.EmbeddingTables
open Aicortex.ModelRegistry Aicortex.Chunking Aicortex.Provider Aicortex.Pipeline
open Lib.Tables Lib.Outcome Lib.StaleRuns Lib.StaleRuns.System Lib.Attempts
open Aicortex.Claims hiding Unit Claim

/-! ### One claim -/

section
variable {works : Works} {model : ModelRow} {claim : Claim} {atActive atMemory : Stock} {refusal : StoreError}

theorem checked_loading (is : checked model claim atActive = .loading) : ∃ current, active atActive.models = some current ∧
    claim.key.revision = model.revision ∧ claim.key.modelId = model.identity.modelId ∧ sameModelRevision current model = true := by
  unfold checked at is
  cases found : active atActive.models with
  | none =>
    rw [found] at is
    cases is
  | some current =>
    rw [found] at is
    dsimp only at is
    split_ifs at is with own
    exact ⟨current,rfl,own⟩

theorem process_checked (provider : List Chunk → Except StoreError (List Vector)) (now : UnixSeconds)
    (is : checked model claim atActive = .emptying) :
    process works.chunks model provider claim atActive atMemory now = .ok .completeEmpty := by
  unfold checked at is
  unfold process
  cases found : active atActive.models with
  | none =>
    rw [found] at is
    cases is
  | some current =>
    rw [found] at is
    dsimp only at is ⊢
    split_ifs at is with own
    rw [if_neg own]

theorem process_loaded (provider : List Chunk → Except StoreError (List Vector)) (now : UnixSeconds)
    (ready : checked model claim atActive = .loading) (is : loaded works model claim atMemory = .emptying) :
    process works.chunks model provider claim atActive atMemory now = .ok .completeEmpty := by
  obtain ⟨current,found,own⟩ := checked_loading ready
  unfold process
  rw [found]
  dsimp only
  rw [if_pos own]
  unfold loaded at is
  cases there : embeddingMemory atMemory claim.key.scope claim.key.memoryId with
  | none => rfl
  | some row =>
    rw [there] at is
    dsimp only at is ⊢
    split_ifs at is with erased shelved
    · rw [if_pos erased]
    · cases cut : split works.chunks row.record.body.text with
      | error refusal =>
        rw [cut] at is
        cases refusal <;> cases is
      | ok chunks =>
        rw [cut] at is
        dsimp only at is
        split_ifs at is

theorem process_answered {memory : MemoryId} {chunks : List Chunk} {now : UnixSeconds} {answer : Except StoreError (List Vector)}
    {derivative : Derivative} (ready : checked model claim atActive = .loading)
    (is : loaded works model claim atMemory = .renewing memory chunks)
    (made : answered model claim memory chunks now answer = .committing derivative) :
    process works.chunks model (fun _ => answer) claim atActive atMemory now = .ok (.embed derivative) := by
  obtain ⟨current,found,own⟩ := checked_loading ready
  unfold process
  rw [found]
  dsimp only
  rw [if_pos own]
  unfold loaded at is
  cases there : embeddingMemory atMemory claim.key.scope claim.key.memoryId with
  | none =>
    rw [there] at is
    cases is
  | some row =>
    rw [there] at is
    dsimp only at is ⊢
    split_ifs at is with erased shelved
    rw [if_neg erased,if_neg shelved]
    cases cut : split works.chunks row.record.body.text with
    | error refusal =>
      rw [cut] at is
      cases refusal <;> cases is
    | ok pieces =>
      rw [cut] at is
      dsimp only at is ⊢
      split_ifs at is with none' large
      rw [if_neg none',if_neg large]
      cases is
      unfold answered at made
      cases answer with
      | error refusal => cases made
      | ok vectors =>
        dsimp only at made
        cases valid : validateBatch model.identity chunks.length vectors with
        | error refusal =>
          rw [valid] at made
          cases made
        | ok _ =>
          rw [valid] at made
          cases made
          simp only [Except.mapError,ok_bind,valid]

theorem reconcile_reread (is : reread claim refusal atMemory = .emptying) :
    reconcileCommitFailure model claim refusal atMemory atActive = .ok .completeEmpty := by
  unfold reread at is
  unfold reconcileCommitFailure
  cases there : embeddingMemory atMemory claim.key.scope claim.key.memoryId with
  | none => rfl
  | some row =>
    rw [there] at is
    dsimp only at is ⊢
    split_ifs at is with shelved erased
    rw [if_neg shelved,if_pos erased]

theorem reconcile_rechecked {first : StoreError} (kept : reread claim first atMemory = .rechecking refusal)
    (is : rechecked model refusal atActive = .emptying) :
    reconcileCommitFailure model claim refusal atMemory atActive = .ok .completeEmpty := by
  unfold reread at kept
  unfold rechecked at is
  unfold reconcileCommitFailure
  cases there : embeddingMemory atMemory claim.key.scope claim.key.memoryId with
  | none => rfl
  | some row =>
    rw [there] at kept
    dsimp only at kept ⊢
    split_ifs at kept with shelved erased
    rw [if_neg shelved,if_neg erased]
    cases found : active atActive.models with
    | none =>
      rw [found] at is
      cases is
    | some current =>
      rw [found] at is
      dsimp only at is ⊢
      split_ifs at is with same
      rw [if_neg same]

end

/-! ### What was read for it -/

/-- Two states a worker read in order, after it held the claim. -/
def Reads (history : List Stock) (claim : Claim) (first second : Stock) : Prop :=
  ∃ claimedAt, Held claimedAt claim ∧ InOrder history claimedAt first ∧ InOrder history first second

section
variable (works : Works) (model : ModelRow) (claim : Claim)

/-- What an errand rests on, of what was read first and second. -/
def Rests (first second : Stock) : Errand → Prop
  | .loading => checked model claim first = .loading
  | .renewing memory chunks | .embedding memory chunks | .awaiting memory chunks =>
    checked model claim first = .loading ∧ loaded works model claim second = .renewing memory chunks
  | .committing derivative => ∃ answer now,
    process works.chunks model (fun _ => answer) claim first second now = .ok (.embed derivative)
  | .rechecking refusal => ∃ told, reread claim told first = .rechecking refusal
  | .emptying => (∀ provider now, process works.chunks model provider claim first second now = .ok .completeEmpty) ∨
    ∃ refusal, reconcileCommitFailure model claim refusal first second = .ok .completeEmpty
  | _ => True

def Backed (history : List Stock) (errand : Errand) : Prop :=
  ∃ first second, Reads history claim first second ∧ Rests works model claim first second errand

end

/-- A drain is bound to a model that was active, and rests on what it read of the claim it
    holds. -/
structure Grounded (works : Works) (history : List Stock) (drain : Drain) : Prop where
  bound : Bound history drain.worker.model
  backed : ∀ claim errand, drain.hand = some (claim,errand) →
    claim.key.revision = drain.worker.model.revision ∧ Backed works drain.worker.model claim history errand

section
variable {works : Works} {redigests : Bool} {log : List (Txn × Stock)} {model : ModelRow} {claim : Claim} {first second : Stock}

theorem Backed.later {history : List Stock} {errand : Errand} (backed : Backed works model claim history errand)
    (newer : List Stock) : Backed works model claim (newer ++ history) errand := by
  obtain ⟨first,second,⟨claimedAt,held,one,two⟩,rests⟩ := backed
  exact ⟨first,second,⟨claimedAt,held,one.later newer,two.later newer⟩,rests⟩

theorem Grounded.later {history : List Stock} {drain : Drain} (grounded : Grounded works history drain) (newer : List Stock) :
    Grounded works (newer ++ history) drain := by
  obtain ⟨⟨seen,inside,is⟩,backed⟩ := grounded
  refine ⟨⟨seen,List.mem_append_right _ inside,is⟩,fun claim errand holds => ?_⟩
  exact ⟨(backed claim errand holds).1,(backed claim errand holds).2.later newer⟩

/-- The present state may be read after any other, -/
theorem Reads.again (reads : Reads ((store works redigests).states log) claim first second) :
    Reads ((store works redigests).states log) claim first ((store works redigests).current log) := by
  obtain ⟨claimedAt,held,one,-⟩ := reads
  exact ⟨claimedAt,held,one,inOrder_current one.mem_second⟩

/-- and twice. -/
theorem Reads.anew (reads : Reads ((store works redigests).states log) claim first second) :
    Reads ((store works redigests).states log) claim ((store works redigests).current log) ((store works redigests).current log) := by
  obtain ⟨claimedAt,held,one,-⟩ := reads
  exact ⟨claimedAt,held,inOrder_current one.mem_first,current_inOrder _ _⟩

theorem rests_checked (first second : Stock) : Rests works model claim first second (checked model claim first) := by
  rcases checked_cases model claim first with is | is | is
  · rw [is]
    trivial
  · rw [is]
    exact is
  · rw [is]
    exact .inl fun provider now => process_checked provider now is

theorem rests_loaded (ready : checked model claim first = .loading) (second : Stock) :
    Rests works model claim first second (loaded works model claim second) := by
  rcases loaded_cases works model claim second with is | is | ⟨error,is⟩ | ⟨memory,chunks,is⟩
  · rw [is]
    exact .inl fun provider now => process_loaded provider now ready is
  · rw [is]
    trivial
  · rw [is]
    trivial
  · rw [is]
    exact ⟨ready,is⟩

theorem rests_answered {memory : MemoryId} {chunks : List Chunk} (ready : checked model claim first = .loading)
    (is : loaded works model claim second = .renewing memory chunks) (now : UnixSeconds) (answer : Except StoreError (List Vector)) :
    Rests works model claim first second (answered model claim memory chunks now answer) := by
  rcases answered_cases model claim memory chunks now answer with ⟨error,made⟩ | ⟨derivative,made⟩
  · rw [made]
    trivial
  · rw [made]
    exact ⟨answer,now,process_answered ready is made⟩

theorem rests_reread (refusal : StoreError) (first second : Stock) :
    Rests works model claim first second (reread claim refusal first) := by
  rcases reread_cases claim refusal first with is | is | is
  · rw [is]
    exact .inr ⟨refusal,reconcile_reread is⟩
  · rw [is]
    trivial
  · rw [is]
    exact ⟨refusal,is⟩

theorem rests_rechecked {refusal told : StoreError} (kept : reread claim told first = .rechecking refusal) (second : Stock) :
    Rests works model claim first second (rechecked model refusal second) := by
  rcases rechecked_cases model refusal second with is | ⟨error,is⟩ | is
  · rw [is]
    trivial
  · rw [is]
    trivial
  · rw [is]
    exact .inr ⟨refusal,reconcile_rechecked kept is⟩

/-- What a read of the present state leads to rests on what was read. -/
theorem Leads.backed {errand later : Errand} (leads : Leads works model claim ((store works redigests).current log) errand later)
    (backed : Backed works model claim ((store works redigests).states log) errand) :
    Backed works model claim ((store works redigests).states log) later := by
  obtain ⟨first,second,reads,rests⟩ := backed
  cases leads with
  | checking => exact ⟨_,_,reads.anew,rests_checked _ _⟩
  | loading => exact ⟨_,_,reads.again,rests_loaded rests _⟩
  | awaiting memory chunks now answer => exact ⟨_,_,reads,rests_answered rests.1 rests.2 now answer⟩
  | refused derivative refusal => exact ⟨_,_,reads,trivial⟩
  | rereading refusal => exact ⟨_,_,reads.anew,rests_reread refusal _ _⟩
  | rechecking refusal =>
    obtain ⟨told,kept⟩ := rests
    exact ⟨_,_,reads.again,rests_rechecked kept _⟩

end

/-! ### Turns -/

section
variable {works : Works} {redigests : Bool} {site after : Site} {drain next : Drain}

/-- An upkeep of the queue that keeps the keys and completes nothing. -/
theorem staged_upkeep {history : List Stock} {upkeep : Upkeep} (keyed : ∀ row, (upkeep.row row).key = row.key)
    (unfinished : ∀ row, (upkeep.row row).state = .done → row.state = .done) :
    Pipeline.Stages works.fingerprint works.chunks redigests history upkeep.txn := .upkeep _ keyed unfinished

theorem Lawful.failed (lawful : Lawful works.chassis) {claim : Claim} {errorClass : String} {policy : RetryPolicy}
    {now : UnixSeconds} {stock : Stock} {upkeep : Upkeep} (is : works.chassis.fail claim errorClass policy now stock = .ok upkeep) :
    (∀ row, (upkeep.row row).key = row.key) ∧ ∀ row, (upkeep.row row).state = .done → row.state = .done := by
  obtain ⟨-,rows,-⟩ := lawful.fails _ _ _ _ _ _ is
  refine ⟨fun row => ?_,fun row => ?_⟩
  · rw [rows]
    split_ifs <;> rfl
  · rw [rows]
    split_ifs
    · exact nofun
    · exact nofun
    · exact id

theorem Lawful.returned (lawful : Lawful works.chassis) (key : WorkKey) (now : UnixSeconds) :
    (∀ row, ((works.chassis.requeue key now).row row).key = row.key) ∧
      ∀ row, ((works.chassis.requeue key now).row row).state = .done → row.state = .done := by
  obtain ⟨rows,-⟩ := lawful.requeues key now
  refine ⟨fun row => ?_,fun row => ?_⟩
  · rw [rows]
    split_ifs <;> rfl
  · rw [rows]
    split_ifs
    · exact nofun
    · exact id

/-- What a drain commits is staged from what it read. -/
theorem Writes.staged (lawful : Lawful works.chassis) {stock : Stock} {history : List Stock} (grounded : Grounded works history drain)
    {txn : Txn} {note : Annals → Annals} {hand : Option (Claim × Errand)}
    (writes : Writes works drain.worker stock drain.hand txn note hand) :
    Pipeline.Stages works.fingerprint works.chunks redigests history txn := by
  generalize holds : drain.hand = held at writes
  cases writes with
  | sweep is =>
    obtain ⟨keyed,-,states,-⟩ := lawful.sweeps _ _ _ _ _ _ is
    refine staged_upkeep keyed fun row done => ?_
    rcases states row with same | ⟨-,pending | failed | ⟨dead,-⟩⟩
    · rwa [same] at done
    · rw [pending] at done
      cases done
    · rw [failed] at done
      cases done
    · rw [dead] at done
      cases done
  | idle is =>
    obtain ⟨rows,-⟩ := lawful.idles _ _ _ _ _ _ is
    exact staged_upkeep (fun row => by rw [rows]) (fun row => by rw [rows]; exact id)
  | take is left =>
    obtain ⟨-,-,-,rows⟩ := lawful.takes _ _ _ _ _ _ _ is
    refine staged_upkeep (fun row => ?_) (fun row => ?_)
    · rw [rows]
      split_ifs <;> rfl
    · rw [rows]
      split_ifs
      · exact nofun
      · exact id
  | renew is left =>
    obtain ⟨-,rows,-⟩ := lawful.renews _ _ _ _ _ is
    exact staged_upkeep (fun row => by rw [rows]) (fun row => by rw [rows]; exact id)
  | embed left =>
    obtain ⟨own,first,second,⟨claimedAt,was,one,two⟩,answer,now,processed⟩ := grounded.backed _ _ holds
    exact .embed (fun _ => answer) now grounded.bound own was one two processed
  | empty =>
    obtain ⟨own,first,second,⟨claimedAt,was,one,two⟩,processed | ⟨refusal,reconciled⟩⟩ := grounded.backed _ _ holds
    · exact .completeEmpty (fun _ => .ok []) 0 grounded.bound own was one two (processed _ _)
    · exact .reconciled refusal grounded.bound own was one two reconciled
  | fail fails is =>
    obtain ⟨keyed,unfinished⟩ := lawful.failed is
    exact staged_upkeep keyed unfinished
  | defer is =>
    obtain ⟨keyed,unfinished⟩ := lawful.failed is
    obtain ⟨rekeyed,unreturned⟩ := lawful.returned _ _
    exact staged_upkeep (fun row => (rekeyed _).trans (keyed row)) (fun row done => unfinished row (unreturned _ done))
  | quarantine is =>
    obtain ⟨keyed,unfinished⟩ := lawful.failed is
    exact staged_upkeep keyed unfinished

/-- What is left in hand after a write is of a claim that is held, and rests on what was read. -/
theorem Writes.grounded (lawful : Lawful works.chassis) {stock : Stock} {history : List Stock} (grounded : Grounded works history drain)
    (worker : next.worker = drain.worker) {txn : Txn} {note : Annals → Annals} {later : Stock}
    (writes : Writes works drain.worker stock drain.hand txn note next.hand)
    (committed : Pipeline.commit works.fingerprint works.scopeId stock txn = .ok later) : Grounded works (later :: history) next := by
  obtain ⟨bound,backed⟩ := grounded.later [later]
  refine ⟨by rw [worker]; exact bound,?_⟩
  rw [worker]
  intro claim errand has
  generalize holds : drain.hand = held at writes
  generalize left' : next.hand = hand at writes has
  subst has
  cases writes with
  | @take _ upkeep _ _ is left =>
    rcases left with none' | same
    · cases none'
    cases same
    obtain ⟨revision,-,⟨row,queued,key,attempt,-,-⟩,rows⟩ := lawful.takes _ _ _ _ _ _ _ is
    cases committed
    have held : Held (upkeep.on stock) claim := by
      refine ⟨_,List.mem_map_of_mem queued,?_⟩
      rw [rows,if_pos key]
      simp [Claim.holds,key,attempt]
    have order : InOrder (upkeep.on stock :: history) (upkeep.on stock) (upkeep.on stock) :=
      ⟨[],history,rfl,List.mem_singleton_self _⟩
    exact ⟨revision,_,_,⟨_,held,order,order⟩,trivial⟩
  | renew is left =>
    rcases left with none' | same
    · cases none'
    cases same
    obtain ⟨own,first,second,reads,rests⟩ := backed _ _ holds
    exact ⟨own,first,second,reads,rests⟩
  | embed left =>
    rcases left with none' | ⟨refusal,same⟩
    · cases none'
    cases same
    obtain ⟨own,first,second,reads,-⟩ := backed _ _ holds
    exact ⟨own,first,second,reads,trivial⟩

theorem stock_current (works : Works) (redigests : Bool) (site : Site) : site.stock = (store works redigests).current site.log := by
  rcases site with ⟨_ | ⟨⟨txn,stock⟩,log⟩,drains,annals⟩ <;> rfl

theorem run_longer {log : List (Txn × Stock)} {txn : Txn} {later : Stock} (run : Run (store works redigests) (fun _ _ => True) log)
    (staged : Pipeline.Stages works.fingerprint works.chunks redigests ((store works redigests).states log) txn)
    (committed : Pipeline.commit works.fingerprint works.scopeId ((store works redigests).current log) txn = .ok later) :
    Run (store works redigests) (fun _ _ => True) ((txn,later) :: log) := by
  refine run.step staged (meetAll_of_forall (fun _ _ _ => trivial) _) ?_
  change (do
    let stock ← Pipeline.commit works.fingerprint works.scopeId ((store works redigests).current log) txn
    [].foldlM (store works redigests).apply stock) = .ok later
  rw [committed]
  rfl

/-- What the store of a site went through is a run of the pipeline, and its drains rest on
    what they read of it. -/
structure Runs (works : Works) (redigests : Bool) (site : Site) : Prop where
  run : Run (store works redigests) (fun _ _ => True) site.log
  grounded : ∀ drain ∈ site.drains, Grounded works ((store works redigests).states site.log) drain

/-- Step lemma of a drain. -/
theorem Runs.turn (lawful : Lawful works.chassis) (runs : Runs works redigests site) (member : drain ∈ site.drains)
    (turn : Turn works drain site next after) (index : Nat) :
    Runs works redigests { after with drains := after.drains.set index next } := by
  have grounded := runs.grounded drain member
  -- where the log is as it was
  have still : ∀ other : Drain, other.worker = drain.worker → (∀ claim errand, other.hand = some (claim,errand) →
      claim.key.revision = drain.worker.model.revision ∧
        Backed works drain.worker.model claim ((store works redigests).states site.log) errand) →
      ∀ annals, Runs works redigests ⟨site.log,site.drains.set index other,annals⟩ := by
    intro other worker backed annals
    refine ⟨runs.run,fun one inside => ?_⟩
    rcases List.mem_or_eq_of_mem_set inside with was | rfl
    · exact runs.grounded one was
    · exact ⟨by rw [worker]; exact grounded.bound,by rw [worker]; exact backed⟩
  cases turn with
  | leave worker free => exact still next worker (fun claim errand has => by rw [free] at has; cases has) _
  | read holds leads =>
    refine still (drain.hold _ _) rfl (fun claim errand has => ?_) _
    cases has
    rw [stock_current works redigests] at leads
    obtain ⟨own,backed⟩ := grounded.backed _ _ holds
    exact ⟨own,leads.backed backed⟩
  | weigh holds policy weighs =>
    refine still (drain.hold _ _) rfl (fun claim errand has => ?_) _
    cases has
    obtain ⟨own,first,second,reads,-⟩ := grounded.backed _ _ holds
    cases weighs <;> exact ⟨own,first,second,reads,trivial⟩
  | ask holds =>
    refine still (drain.hold _ _) rfl (fun claim errand has => ?_) _
    cases has
    obtain ⟨own,first,second,reads,rests⟩ := grounded.backed _ _ holds
    exact ⟨own,first,second,reads,rests⟩
  | write worker writes committed =>
    refine ⟨run_longer runs.run (writes.staged lawful grounded) (by rw [← stock_current]; exact committed),fun one inside => ?_⟩
    rcases List.mem_or_eq_of_mem_set inside with was | rfl
    · exact (runs.grounded one was).later [_]
    · exact writes.grounded lawful grounded worker committed

theorem Runs.other (runs : Runs works redigests site) {txn : Txn} {note : Annals → Annals} {lost : Option StoreError}
    (staged : Pipeline.Stages works.fingerprint works.chunks redigests ((store works redigests).states site.log) txn)
    (written : site.write works (.ok txn) note lost = (after,.ok ())) : Runs works redigests after := by
  rcases write_cases written with ⟨-,_,told⟩ | ⟨same,stock,is,committed,rfl⟩
  · cases told
  · cases is
    refine ⟨run_longer runs.run staged (by rw [← stock_current]; exact committed),fun one inside => ?_⟩
    exact (runs.grounded one inside).later [_]

/-- Step lemma. -/
theorem Runs.step (lawful : Lawful works.chassis) (runs : Runs works redigests site) {action : Action}
    (staged : Stages works redigests site action) (applied : apply works site action = .ok after) : Runs works redigests after := by
  cases staged with
  | drain valid bound =>
    cases applied
    refine ⟨runs.run,fun one inside => ?_⟩
    rcases List.mem_append.mp inside with was | new
    · exact runs.grounded one was
    · rw [List.mem_singleton.mp new]
      exact ⟨bound,nofun⟩
  | advance index step =>
    unfold apply at applied
    dsimp only at applied
    split at applied
    · cases applied
    · next drain found =>
      obtain ⟨⟨later,mid⟩,advanced,rest⟩ := bind_ok_iff.mp applied
      cases rest
      exact runs.turn lawful (List.mem_of_getElem? found) (advance_turn advanced) index
  | requeue key now =>
    unfold apply at applied
    dsimp only at applied
    split at applied
    · next written =>
      cases applied
      obtain ⟨keyed,unfinished⟩ := lawful.returned key now
      exact runs.other (staged_upkeep keyed unfinished) written
    · cases applied
  | elsewhere other staged =>
    unfold apply at applied
    dsimp only at applied
    split at applied
    · next written =>
      cases applied
      exact runs.other staged written
    · cases applied

/-- Run lemma: the drains of a site, and all beside them, make a run of the pipeline. -/
theorem Reached.runs (lawful : Lawful works.chassis) (reached : Reached works redigests site) : Runs works redigests site := by
  induction reached with
  | start => exact ⟨.start,nofun⟩
  | step _ staged applied ih => exact ih.step lawful staged applied

end

end Aicortex.Drains
