import Aicortex.Store
import Aicortex.Lib.StaleRuns

/-!
Transaction time. One counter a scope numbers the claims and the retractions written
in it. Whatever is committed in between, in this scope or another, the numbers of a
scope run from one without a gap or a repetition, a later transaction has the larger
numbers, and only an erasure touches a claim that was written.
-/

namespace Aicortex.ClaimSequence
open Lib.Outcome Lib.StaleRuns Lib.StaleRuns.System
open Aicortex.Memories Aicortex.Schema Aicortex.Store
open Aicortex.Claims hiding Unit
set_option linter.unusedSimpArgs false

/-- The numbers given out in a scope that its claims and retractions hold. -/
def numbers (db : Database) (scope : Scope) : List Nat :=
  (db.claims.filter (fun row => row.scope == scope)).map (·.txSeq) ++
    (db.retractions.filter (fun row => row.scope == scope)).map (·.txSeq)

/-- Not an erasure, of a claim, of a memory or of a scope. -/
def Quiet : Store.Txn → Prop
  | .claims (.propose _) => True
  | .claims (.admissions _ _) => True
  | .claims (.append _ _ _) => True
  | .claims (.retract _ _) => True
  | .claims _ => False
  | .memories _ => True
  | .erase _ => False
  | .startScope _ _ => True
  | .drain _ _ _ _ => False
  | .deliver _ _ _ => True

/-- Transactions of any number of staged pieces, each committed whole or not at all. -/
def sequence (fingerprint : Memory → String) : System Database Store.Txn (List Store.Txn) StoreError where
  start := .empty
  apply := Store.commit fingerprint
  moves txn := txn
  Stages _ _ := True

/-- The tables grow, and the numbers added follow on the counter. -/
structure Extends (before after : Database) : Prop where
  claims : before.claims <+: after.claims
  retractions : before.retractions <+: after.retractions
  counter : ∀ scope, before.txCounter scope ≤ after.txCounter scope
  numbered : ∀ scope, (numbers after scope).Perm
    (numbers before scope ++ List.range' (before.txCounter scope + 1) (after.txCounter scope - before.txCounter scope))

theorem Extends.of_same {before after : Database} (counter : after.txCounter = before.txCounter)
    (claims : after.claims = before.claims) (retractions : after.retractions = before.retractions) :
    Extends before after := by
  refine ⟨claims ▸ List.prefix_refl _,retractions ▸ List.prefix_refl _,fun scope => by rw [counter],fun scope => ?_⟩
  rw [numbers,numbers,claims,retractions,counter,Nat.sub_self,List.range'_zero,List.append_nil]

theorem Extends.refl (db : Database) : Extends db db := Extends.of_same rfl rfl rfl

theorem Extends.trans {before mid after : Database} (first : Extends before mid) (second : Extends mid after) :
    Extends before after := by
  refine ⟨first.claims.trans second.claims,first.retractions.trans second.retractions,
    fun scope => (first.counter scope).trans (second.counter scope),fun scope => ?_⟩
  have low := first.counter scope
  have high := second.counter scope
  have joined : List.range' (before.txCounter scope + 1) (mid.txCounter scope - before.txCounter scope) ++
      List.range' (mid.txCounter scope + 1) (after.txCounter scope - mid.txCounter scope) =
        List.range' (before.txCounter scope + 1) (after.txCounter scope - before.txCounter scope) := by
    have next : mid.txCounter scope + 1 =
        before.txCounter scope + 1 + (mid.txCounter scope - before.txCounter scope) := by omega
    have all : after.txCounter scope - before.txCounter scope =
        mid.txCounter scope - before.txCounter scope + (after.txCounter scope - mid.txCounter scope) := by omega
    rw [all,next,List.range'_append_1]
  refine (second.numbered scope).trans (((first.numbered scope).append_right _).trans ?_)
  rw [List.append_assoc,joined]

/-- One more row under the next number of its scope. -/
private theorem range'_update {counter : Scope → Nat} {scope other : Scope} :
    List.range' (counter other + 1) (Function.update counter scope (counter scope + 1) other - counter other) =
      if scope = other then [counter scope + 1] else [] := by
  by_cases same : scope = other
  · subst same
    simp
  · simp [Function.update_of_ne (Ne.symm same),same]

private theorem counter_update_le (counter : Scope → Nat) (scope other : Scope) :
    counter other ≤ Function.update counter scope (counter scope + 1) other := by
  by_cases same : other = scope
  · subst same
    simp
  · rw [Function.update_of_ne same]

theorem appendItem_extends {at' : UnixSeconds} {db next : Database} {item : ClaimRepo.ClaimAppend}
    (executed : ClaimRepo.appendItem at' db item = .ok next) : Extends db next := by
  obtain ⟨-,-,-,rfl⟩ := ClaimRepo.appendItem_ok executed
  refine ⟨List.prefix_append _ _,List.prefix_refl _,counter_update_le _ _,fun scope => ?_⟩
  simp only [numbers,range'_update,List.filter_append,List.map_append]
  by_cases same : item.admitted.claim.scope = scope
  · simp only [List.filter_cons,ClaimRepo.ClaimAppend.claimRow,same,beq_self_eq_true,if_true,List.filter_nil,
      List.map_cons,List.map_nil,List.append_assoc]
    exact List.Perm.append_left _ List.perm_append_comm
  · simp [List.filter_cons,ClaimRepo.ClaimAppend.claimRow,same]

theorem retract_extends {scope : Scope} {retraction : History.Retraction} {db next : Database}
    (executed : ClaimRepo.retract scope retraction db = .ok next) : Extends db next := by
  obtain ⟨-,rfl⟩ := ClaimRepo.retract_ok executed
  refine ⟨List.prefix_refl _,List.prefix_append _ _,counter_update_le _ _,fun other => ?_⟩
  simp only [numbers,range'_update,List.filter_append,List.map_append]
  by_cases same : scope = other
  · simp [List.filter_cons,same]
  · simp [List.filter_cons,same]

theorem recordAdmissions_extends {at' : UnixSeconds} {batch : List ClaimGate.AdmittedClaim} {db next : Database}
    (executed : batch.foldlM (ClaimRepo.recordAdmission at') db = .ok next) : Extends db next := by
  obtain ⟨-,rfl⟩ := ClaimRepo.recordAdmissions_ok executed
  exact Extends.of_same rfl rfl rfl

section
variable {fingerprint : Memory → String} {db next : Database}

theorem guarded_extends {scope : Scope} {id : Text.MemoryId} {guard : MemoryRow → Bool} {change : MemoryRow → MemoryRow}
    (executed : MemoryRepo.guarded scope id guard change db = .ok next) : Extends db next := by
  obtain ⟨-,rfl⟩ := guarded_ok executed
  exact Extends.of_same rfl rfl rfl

/-- What is written of memories writes nothing of claims. -/
theorem memories_extend {txn : MemoryRepo.MemoryTxn} (executed : MemoryRepo.commit fingerprint db txn = .ok next) :
    Extends db next := by
  cases txn with
  | insert maxBodyBytes memory provenance =>
    simp only [MemoryRepo.commit,MemoryRepo.insert] at executed
    split_ifs at executed
    obtain ⟨mid,inserted,derived⟩ := bind_ok_iff.mp executed
    obtain ⟨-,rfl⟩ := insertMemory_ok inserted
    obtain rfl := insertDerivations_ok derived
    exact Extends.of_same rfl rfl rfl
  | merge scope id expected again => exact guarded_extends executed
  | supersede scope old new expected at' =>
    simp only [MemoryRepo.commit,MemoryRepo.supersede] at executed
    split_ifs at executed
    exact guarded_extends executed
  | setValidUntil scope id until' =>
    obtain rfl := Except.ok.inj executed
    exact Extends.of_same rfl rfl rfl
  | expire scope ids now =>
    obtain rfl := Except.ok.inj executed
    exact Extends.of_same rfl rfl rfl
  | redigest scope rows =>
    refine foldlM_invariant (Extends db) (fun read _ before after held stepped => held.trans ?_) (Extends.refl db) executed
    simp only [MemoryRepo.redigestRow] at stepped
    split_ifs at stepped
    obtain rfl := Except.ok.inj stepped
    exact Extends.of_same rfl rfl rfl
  | issueKey row =>
    unfold MemoryRepo.commit MemoryRepo.issueKey at executed
    obtain ⟨keys,-,executed⟩ := bind_ok_iff.mp executed
    obtain rfl := Except.ok.inj executed
    exact Extends.of_same rfl rfl rfl

/-- Every piece that is not an erasure only adds, under the next numbers. -/
theorem quiet_extends {piece : Store.Txn} (quiet : Quiet piece) (executed : Store.commit fingerprint db piece = .ok next) :
    Extends db next := by
  cases piece with
  | claims txn =>
    cases txn with
    | propose proposal =>
      obtain rfl := Database.insertProposal_ok executed
      exact Extends.of_same rfl rfl rfl
    | admissions batch at' => exact recordAdmissions_extends (ClaimRepo.admitBatch_ok executed)
    | append existing batch at' =>
      obtain ⟨mid,appended,admitted⟩ := ClaimRepo.append_ok executed
      have onward := foldlM_invariant (Extends db) (fun _ _ _ _ held stepped => held.trans (appendItem_extends stepped))
        (Extends.refl db) appended
      exact onward.trans (recordAdmissions_extends admitted)
    | retract scope retraction => exact retract_extends executed
    | erase scope subject id => exact quiet.elim
    | markSource scope source => exact quiet.elim
    | eraseSource scope source => exact quiet.elim
    | eraseScope scope => exact quiet.elim
  | memories txn => exact memories_extend executed
  | erase prepared => exact quiet.elim
  | startScope scope decisionId =>
    obtain ⟨-,rfl⟩ := Erasure.startScope_ok executed
    exact Extends.of_same rfl rfl rfl
  | drain scope operation shells now => exact quiet.elim
  | deliver scope target decisionId =>
    obtain rfl := Except.ok.inj executed
    exact Extends.of_same rfl rfl rfl

theorem quiet_transaction {txn : List Store.Txn} (quiet : ∀ piece ∈ txn, Quiet piece)
    (committed : (sequence fingerprint).commit db txn = .ok next) : Extends db next :=
  foldlM_invariant (Extends db) (fun piece within _ _ held stepped => held.trans (quiet_extends (quiet piece within) stepped))
    (Extends.refl db) committed

end

/-! ### Every run -/

theorem extends_keeps (fingerprint : Memory → String) :
    Keeps (sequence fingerprint) (fun _ piece => Quiet piece) (fun _ _ => True) (Extends .empty) Extends where
  still := Extends.refl
  onward _ _ _ := Extends.trans
  initial := Extends.refl _
  move _ _ _ _ _ held _ quiet applied :=
    have onward := quiet_extends quiet applied
    ⟨held.trans onward,onward⟩

/-- The numbers of a scope are one up to the counter. -/
theorem Extends.sequenced {db : Database} (written : Extends .empty db) (scope : Scope) :
    (numbers db scope).Perm (List.range' 1 (db.txCounter scope)) := by
  have numbered := written.numbered scope
  have nothing : numbers .empty scope = [] := rfl
  rw [nothing] at numbered
  simpa [Database.empty] using numbered

/-- A number that was not there before follows all that were. -/
theorem Extends.later {before after : Database} (written : Extends .empty before) (extended : Extends before after)
    {scope : Scope} {number earlier : Nat} (held : number ∈ numbers after scope) (fresh : number ∉ numbers before scope)
    (known : earlier ∈ numbers before scope) : earlier < number := by
  have upTo : earlier ≤ before.txCounter scope := by
    have within := ((written.sequenced scope).mem_iff).mp known
    rw [List.mem_range'_1] at within
    omega
  have added := ((extended.numbered scope).mem_iff).mp held
  rcases List.mem_append.mp added with old | new
  · exact absurd old fresh
  · rw [List.mem_range'_1] at new
    omega

/-- Transaction time is a gap-free total order in each scope: over any run of appends,
    retractions and whatever else erases nothing, the claims and retractions of a scope
    hold the numbers from one up to its counter, each once, and a later transaction has
    larger ones; and in any run at all a transaction that is no erasure leaves every
    claim written before it as it is. -/
theorem transaction_time (fingerprint : Memory → String) (log : List (List Store.Txn × Database)) :
    (Run (sequence fingerprint) (fun _ piece => Quiet piece) log →
      (∀ db ∈ (sequence fingerprint).states log, ∀ scope,
        (numbers db scope).Perm (List.range' 1 (db.txCounter scope))) ∧
      ∀ newer txn next older, log = newer ++ (txn,next) :: older → ∀ scope, ∀ number ∈ numbers next scope,
        number ∉ numbers ((sequence fingerprint).current older) scope →
        ∀ earlier ∈ numbers ((sequence fingerprint).current older) scope, earlier < number) ∧
    (Run (sequence fingerprint) (fun _ _ => True) log →
      ∀ newer txn next older, log = newer ++ (txn,next) :: older → (∀ piece ∈ txn, Quiet piece) →
        ∀ row ∈ ((sequence fingerprint).current older).claims, row ∈ next.claims) := by
  have fits : (sequence fingerprint).Fits (fun _ _ => True) := fun _ _ _ _ _ => trivial
  refine ⟨fun run => ⟨?_,?_⟩,?_⟩
  · have trail := run.trail fits (extends_keeps fingerprint)
    exact fun db held scope => (trail.held db held).sequenced scope
  · rintro newer txn next older rfl scope number held fresh earlier known
    obtain ⟨before,-,meet,committed⟩ := run.before
    have trail := before.trail fits (extends_keeps fingerprint)
    have written := trail.held _ ((sequence fingerprint).current_mem older)
    have extended := ((extends_keeps fingerprint).commit (fun _ _ => trivial) trail written meet committed).2
    exact written.later extended held fresh known
  · rintro run newer txn next older rfl quiet row held
    obtain ⟨-,-,-,committed⟩ := run.before
    exact (quiet_transaction quiet committed).claims.subset held

namespace Sample
open Claims.Sample ClaimRepo.Sample History.Sample

/-- Two claims in one transaction, and the first withdrawn in the next. -/
def appended : List (List Store.Txn × Database) :=
  (sequence Store.Sample.textOf).extend [] [.claims (.append .new [item firstId "12A",item secondId "14C"] 10)]

def withdrawn : List (List Store.Txn × Database) :=
  (sequence Store.Sample.textOf).extend appended [.claims (.retract scope (retraction firstId 12))]

theorem run_withdrawn {Meets : Database → Store.Txn → Prop} (allowed : ∀ now piece, Quiet piece → Meets now piece) :
    Run (sequence Store.Sample.textOf) Meets withdrawn := by
  have first : Run (sequence Store.Sample.textOf) Meets appended := by
    refine Run.extend .start trivial (meetAll_of_forall (fun piece within now => allowed now piece ?_) _)
    rw [List.mem_singleton.mp within]
    exact trivial
  refine Run.extend first trivial (meetAll_of_forall (fun piece within now => allowed now piece ?_) _)
  rw [List.mem_singleton.mp within]
  exact trivial

end Sample

theorem transaction_time_withdrawn :
    (numbers ((sequence Store.Sample.textOf).current Sample.withdrawn) Claims.Sample.scope).Perm [1,2,3] ∧
      ∀ newer txn next older, Sample.withdrawn = newer ++ (txn,next) :: older → (∀ piece ∈ txn, Quiet piece) →
        ∀ row ∈ ((sequence Store.Sample.textOf).current older).claims, row ∈ next.claims := by
  have counted : ((sequence Store.Sample.textOf).current Sample.withdrawn).txCounter Claims.Sample.scope = 3 := by
    decide +kernel
  obtain ⟨quiet,any⟩ := transaction_time Store.Sample.textOf Sample.withdrawn
  have sequenced := (quiet (Sample.run_withdrawn (fun _ _ held => held))).1
    _ ((sequence Store.Sample.textOf).current_mem Sample.withdrawn) Claims.Sample.scope
  rw [counted] at sequenced
  exact ⟨sequenced,any (Sample.run_withdrawn (fun _ _ _ => trivial))⟩

end Aicortex.ClaimSequence
