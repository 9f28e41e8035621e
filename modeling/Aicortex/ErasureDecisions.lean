import Aicortex.ErasureLedger
import Aicortex.PipelineFacts

/-!
A Decision is appended once its operation is over. A receipt that is ready, or that has
made way for a later one, refuses every further batch of its operation, whichever
caller still holds one; so the journal totals a caller reads after it are the last, and
all callers put the same Decision together.
-/

namespace Aicortex.ErasureDecisions
open Aicortex.Text Aicortex.CivilTime Aicortex.Memories Aicortex.Schema Aicortex.MemoryRepo Aicortex.Erasure
open Aicortex.Pipeline hiding Txn Stages commit system
open Aicortex.ErasureAccounts Aicortex.ErasureLedger
open Lib.Tables Lib.Outcome Lib.StaleRuns Lib.StaleRuns.System
open Aicortex.Claims hiding Unit
set_option linter.unusedSimpArgs false

/-! ### Receipts -/

/-- The receipts' keys, and the ids of their two kinds of operation. -/
structure Orderly (receipts : List Receipt) : Prop where
  keyed : UniqueBy (fun receipt => (receipt.scope,receipt.target)) receipts
  identified : UniqueBy (fun receipt => receipt.decision.id) receipts
  ofMemory : ∀ receipt ∈ receipts, ∀ id, receipt.target = some id → receipt.decision.id = eraseId id
  ofScope : ∀ receipt ∈ receipts, receipt.target = none → ∃ id, receipt.decision.id = eraseScopeId id

/-- The same receipt, further on. -/
structure Grows (old new : Receipt) : Prop where
  scope : new.scope = old.scope
  target : new.target = old.target
  decision : new.decision = old.decision
  ready : old.ready = true → new.ready = true

theorem Grows.refl (receipt : Receipt) : Grows receipt receipt := ⟨rfl,rfl,rfl,id⟩

theorem Grows.trans {first second third : Receipt} (one : Grows first second) (two : Grows second third) : Grows first third :=
  ⟨two.scope.trans one.scope,two.target.trans one.target,two.decision.trans one.decision,two.ready ∘ one.ready⟩

section
variable {receipts : List Receipt} {change : Receipt → Receipt} {selected : Receipt → Bool}

theorem grows_update (grows : ∀ receipt, Grows receipt (change receipt)) {receipt : Receipt} (member : receipt ∈ receipts) :
    ∃ later ∈ updateWhere selected change receipts, Grows receipt later := by
  by_cases chosen : selected receipt = true
  · exact ⟨change receipt,mem_updateWhere.mpr (.inr ⟨receipt,member,chosen,rfl⟩),grows receipt⟩
  · exact ⟨receipt,mem_updateWhere.mpr (.inl ⟨member,Bool.eq_false_iff.mpr chosen⟩),.refl receipt⟩

theorem update_origin (grows : ∀ receipt, Grows receipt (change receipt)) {later : Receipt}
    (member : later ∈ updateWhere selected change receipts) : ∃ receipt ∈ receipts, Grows receipt later := by
  rcases mem_updateWhere.mp member with ⟨old,-⟩ | ⟨old,oldIn,-,rfl⟩
  · exact ⟨later,old,.refl later⟩
  · exact ⟨old,oldIn,grows old⟩

theorem Orderly.update (orderly : Orderly receipts) (grows : ∀ receipt, Grows receipt (change receipt)) :
    Orderly (updateWhere selected change receipts) := by
  refine ⟨orderly.keyed.update selected fun receipt => ?_,orderly.identified.update selected fun receipt => ?_,?_,?_⟩
  · rw [(grows receipt).scope,(grows receipt).target]
  · rw [(grows receipt).decision]
  · intro later member id named
    obtain ⟨old,oldIn,grown⟩ := update_origin grows member
    rw [grown.decision]
    exact orderly.ofMemory old oldIn id (grown.target.symm.trans named)
  · intro later member whole
    obtain ⟨old,oldIn,grown⟩ := update_origin grows member
    rw [grown.decision]
    exact orderly.ofScope old oldIn (grown.target.symm.trans whole)

theorem Orderly.delete (orderly : Orderly receipts) : Orderly (deleteWhere selected receipts) := by
  refine ⟨orderly.keyed.delete selected,orderly.identified.delete selected,?_,?_⟩
  · exact fun receipt member => orderly.ofMemory receipt (mem_deleteWhere.mp member).1
  · exact fun receipt member => orderly.ofScope receipt (mem_deleteWhere.mp member).1

theorem Orderly.insert (orderly : Orderly receipts) {receipt : Receipt}
    (free : ∀ other ∈ receipts, (other.scope,other.target) ≠ (receipt.scope,receipt.target))
    (new : ∀ other ∈ receipts, other.decision.id ≠ receipt.decision.id)
    (ofMemory : ∀ id, receipt.target = some id → receipt.decision.id = eraseId id)
    (ofScope : receipt.target = none → ∃ id, receipt.decision.id = eraseScopeId id) : Orderly (receipts ++ [receipt]) := by
  refine ⟨orderly.keyed.insert free,orderly.identified.insert new,?_,?_⟩
  · intro other member
    rcases List.mem_append.mp member with old | same
    · exact orderly.ofMemory other old
    · rw [List.mem_singleton.mp same]
      exact ofMemory
  · intro other member
    rcases List.mem_append.mp member with old | same
    · exact orderly.ofScope other old
    · rw [List.mem_singleton.mp same]
      exact ofScope

end

/-! ### Vaults -/

structure Sound (vault : Vault) : Prop where
  orderly : Orderly vault.receipts
  resident : ∀ receipt ∈ vault.receipts, receipt.delivered = true → ∃ decision ∈ vault.ledger, decision.id = receipt.decision.id
  distinct : (vault.ledger.map Decision.id).Nodup
  filled : ∀ row ∈ vault.journal, row.isEmpty = false

/-- An operation on a scope whose Decision is in the ledger and whose receipt is gone. -/
structure Closed (vault : Vault) (operation : String) : Prop where
  ofScope : ∃ id, operation = eraseScopeId id
  resident : ∃ decision ∈ vault.ledger, decision.id = operation
  gone : ∀ receipt ∈ vault.receipts, receipt.decision.id ≠ operation

/-- An operation that no batch can be added to. -/
def Sealed (vault : Vault) (operation : String) : Prop :=
  (∃ receipt ∈ vault.receipts, receipt.decision.id = operation ∧ receipt.ready = true) ∨ Closed vault operation

/-- A receipt is still there, or another of its scope has taken its place. -/
def Goes (vault : Vault) (receipt : Receipt) : Prop :=
  (∃ later ∈ vault.receipts, Grows receipt later) ∨
    (Closed vault receipt.decision.id ∧ ∃ later ∈ vault.receipts, later.scope = receipt.scope ∧ later.target = none)

/-- What a state that was read has to do with a later one. -/
structure Since (seen now : Vault) : Prop where
  ledger : seen.ledger ⊆ now.ledger
  goes : ∀ receipt ∈ seen.receipts, Goes now receipt
  closed : ∀ operation, Closed seen operation → Closed now operation
  totals : ∀ operation, Sealed seen operation → ∀ scope,
    journalTotals now.journal scope operation = journalTotals seen.journal scope operation

section
variable {first seen now next : Vault} {operation : String}

theorem Since.seals (since : Since seen now) (sealed' : Sealed seen operation) : Sealed now operation := by
  rcases sealed' with ⟨receipt,member,rfl,ready⟩ | closed
  · rcases since.goes receipt member with ⟨later,laterIn,grown⟩ | ⟨closed,-⟩
    · exact .inl ⟨later,laterIn,by rw [grown.decision],grown.ready ready⟩
    · exact .inr closed
  · exact .inr (since.closed operation closed)

theorem Since.refl (vault : Vault) : Since vault vault :=
  ⟨List.Subset.refl _,fun receipt member => .inl ⟨receipt,member,.refl receipt⟩,fun _ => id,fun _ _ _ => rfl⟩

theorem Since.trans (one : Since first seen) (two : Since seen now) : Since first now := by
  refine ⟨List.Subset.trans one.ledger two.ledger,?_,fun operation => two.closed operation ∘ one.closed operation,?_⟩
  · intro receipt member
    rcases one.goes receipt member with ⟨later,laterIn,grown⟩ | ⟨closed,later,laterIn,here,whole⟩
    · rcases two.goes later laterIn with ⟨last,lastIn,further⟩ | ⟨closed,last,lastIn,here,whole⟩
      · exact .inl ⟨last,lastIn,grown.trans further⟩
      · rw [grown.decision] at closed
        exact .inr ⟨closed,last,lastIn,here.trans grown.scope,whole⟩
    · rcases two.goes later laterIn with ⟨last,lastIn,further⟩ | ⟨-,last,lastIn,further,still⟩
      · exact .inr ⟨two.closed _ closed,last,lastIn,further.scope.trans here,further.target.trans whole⟩
      · exact .inr ⟨two.closed _ closed,last,lastIn,further.trans here,still⟩
  · intro operation sealed' scope
    rw [two.totals operation (one.seals sealed') scope]
    exact one.totals operation sealed' scope

end

/-! ### Steps -/

section
variable {history : List Vault} {now next : Vault} {scope : Scope} {operation : String} {txn : Txn}

/-- No caller can commit a batch of a sealed operation, whatever it has read. -/
theorem sealed_blocks (held : Sound now) (goes : ∀ seen ∈ history, ∀ receipt ∈ seen.receipts, Goes now receipt)
    (staged : Stages history txn) (committed : ErasureLedger.commit now txn = .ok next)
    (batch : batchOf txn = some (scope,operation)) : ¬ Sealed now operation := by
  intro sealed'
  cases staged with
  | @erase reads owner id cascade at' prepared authority read prepares =>
    cases batch
    obtain ⟨-,new,-⟩ := erase_ok committed
    rcases sealed' with ⟨receipt,member,same,-⟩ | closed
    · exact new receipt member same
    · obtain ⟨id,clash⟩ := closed.ofScope
      exact eraseId_ne_eraseScopeId _ _ clash
  | @drain atReceipt atBatch owner read batch at' bounded reads found draining =>
    cases batch
    obtain ⟨guard,-⟩ := drain_ok committed
    obtain ⟨readIn,here,whole⟩ := Vault.receipt_some found
    -- the receipt that was read is still the one of the scope, and open, or it is gone
    rcases goes atReceipt reads.mem_first read readIn with ⟨later,laterIn,grown⟩ | ⟨closed,later,laterIn,ofScope,ofWhole⟩
    · obtain ⟨-,isOpen⟩ := guard later laterIn (grown.scope.trans here) (grown.target.trans whole)
      rcases sealed' with ⟨receipt,member,same,ready⟩ | closed
      · have one : receipt = later :=
          held.orderly.identified.eq_of_key member laterIn (same.trans (congrArg Decision.id grown.decision).symm)
        rw [one,isOpen] at ready
        cases ready
      · exact closed.gone later laterIn (congrArg Decision.id grown.decision)
    · exact closed.gone later laterIn (guard later laterIn (ofScope.trans here) ofWhole).1
  | other => cases batch
  | record => cases batch
  | startScope => cases batch
  | append => cases batch
  | deliver => cases batch

/-- A batch adds to the totals of its own operation only. -/
theorem batched_totals (filled : ∀ row ∈ now.journal, row.isEmpty = false) {entries : List Entry}
    (balanced : ∀ entry ∈ entries, entry.Balanced) (at' : UnixSeconds) :
    (∀ row ∈ (now.batched scope operation entries at').journal, row.isEmpty = false) ∧
      journalTotals (now.batched scope operation entries at').journal scope operation =
        (journalTotals now.journal scope operation).add (losses now.stock (now.batched scope operation entries at').stock) ∧
      ∀ owner other, (owner,other) ≠ (scope,operation) →
        journalTotals (now.batched scope operation entries at').journal owner other = journalTotals now.journal owner other :=
  accountedBatch_totals balanced at' now.stock filled

theorem Closed.stays (closed : Closed now operation) (ledger : now.ledger ⊆ next.ledger)
    (origin : ∀ receipt ∈ next.receipts, (∃ old ∈ now.receipts, old.decision.id = receipt.decision.id) ∨
      (∀ id, receipt.decision.id ≠ eraseScopeId id) ∨ ∀ decision ∈ now.ledger, decision.id ≠ receipt.decision.id) :
    Closed next operation := by
  obtain ⟨resident,residentIn,residentId⟩ := closed.resident
  refine ⟨closed.ofScope,⟨resident,ledger residentIn,residentId⟩,?_⟩
  intro receipt member same
  rcases origin receipt member with ⟨old,oldIn,oldId⟩ | apart | fresh
  · exact closed.gone old oldIn (oldId.trans same)
  · obtain ⟨id,is⟩ := closed.ofScope
    exact apart id (same.trans is)
  · exact fresh resident residentIn (residentId.trans same.symm)

/-- A step that changes receipts only by taking them further. -/
theorem Since.update {selected : Receipt → Bool} {change : Receipt → Receipt} (grows : ∀ receipt, Grows receipt (change receipt))
    (receipts : next.receipts = updateWhere selected change now.receipts) (ledger : now.ledger ⊆ next.ledger)
    (totals : ∀ operation, Sealed now operation → ∀ scope,
      journalTotals next.journal scope operation = journalTotals now.journal scope operation) : Since now next := by
  refine ⟨ledger,?_,?_,totals⟩
  · intro receipt member
    rw [Goes,receipts]
    exact .inl (grows_update grows member)
  · intro operation closed
    refine closed.stays ledger fun receipt member => .inl ?_
    rw [receipts] at member
    obtain ⟨old,oldIn,grown⟩ := update_origin grows member
    exact ⟨old,oldIn,congrArg Decision.id grown.decision.symm⟩

theorem Since.same (receipts : next.receipts = now.receipts) (ledger : now.ledger ⊆ next.ledger)
    (journal : next.journal = now.journal) : Since now next := by
  refine @Since.update _ _ (fun _ => false) id Grows.refl ?_ ledger fun _ _ _ => by rw [journal]
  rw [receipts]
  simp [updateWhere]

/-- What every committed transaction keeps, and how it goes on. -/
def Kept (now next : Vault) : Prop := Sound next ∧ Since now next

/-- A transaction adds its losses to the totals of the operation it is a batch of. -/
theorem commit_totals (held : Sound now) (committed : ErasureLedger.commit now txn = .ok next) (scope : Scope)
    (operation : String) :
    journalTotals next.journal scope operation =
      if batchOf txn = some (scope,operation) then
        (journalTotals now.journal scope operation).add (losses now.stock next.stock)
      else journalTotals now.journal scope operation := by
  cases txn with
  | erase prepared decision =>
    obtain ⟨-,-,rfl⟩ := erase_ok committed
    obtain ⟨-,own,others⟩ := @batched_totals now prepared.scope decision.id held.filled _ (eraseBatch_balanced prepared)
      prepared.now
    split_ifs with batch
    · cases batch
      exact own
    · exact others scope operation fun same => batch (congrArg some same.symm)
  | drain owner other shells at' =>
    obtain ⟨-,stock,journal,-⟩ := drain_ok committed
    obtain ⟨-,own,others⟩ := @batched_totals now owner other held.filled _ (drainBatch_balanced owner shells at') at'
    rw [stock,journal]
    split_ifs with batch
    · cases batch
      exact own
    · exact others scope operation fun same => batch (congrArg some same.symm)
  | other change =>
    cases committed
    rfl
  | record decision =>
    obtain ⟨-,rfl⟩ := append_ok committed
    rfl
  | append decision =>
    obtain ⟨-,rfl⟩ := append_ok committed
    rfl
  | startScope owner decision =>
    obtain ⟨kept,-,-,-,rfl⟩ := startScope_ok committed
    rfl
  | deliver owner target decisionId =>
    cases committed
    rfl

/-- No transaction that a caller can commit adds to the totals of a sealed operation. -/
theorem sealed_totals (held : Sound now) (goes : ∀ seen ∈ history, ∀ receipt ∈ seen.receipts, Goes now receipt)
    (staged : Stages history txn) (committed : ErasureLedger.commit now txn = .ok next) (sealed' : Sealed now operation)
    (scope : Scope) : journalTotals next.journal scope operation = journalTotals now.journal scope operation := by
  rw [commit_totals held committed,if_neg]
  exact fun batch => sealed_blocks held goes staged committed batch sealed'

theorem kept_append (held : Sound now) {decision : Decision} (appended : ErasureLedger.append decision now = .ok next) :
    Kept now next := by
  obtain ⟨new,rfl⟩ := append_ok appended
  refine ⟨⟨held.orderly,?_,?_,held.filled⟩,.same rfl (List.subset_append_left _ _) rfl⟩
  · intro receipt member delivered
    obtain ⟨resident,residentIn,same⟩ := held.resident receipt member delivered
    exact ⟨resident,List.mem_append_left _ residentIn,same⟩
  · exact UniqueBy.insert held.distinct new

theorem kept_erase (held : Sound now) {prepared : PreparedErasure} {authority : Authority}
    (totals : ∀ operation, Sealed now operation → ∀ scope,
      journalTotals next.journal scope operation = journalTotals now.journal scope operation)
    (erased : ErasureLedger.erase prepared (eraseDecision authority prepared) now = .ok next) : Kept now next := by
  obtain ⟨free,new,rfl⟩ := erase_ok erased
  obtain ⟨filled,-⟩ := @batched_totals now prepared.scope (eraseDecision authority prepared).id held.filled _
    (eraseBatch_balanced prepared) prepared.now
  refine ⟨⟨held.orderly.insert free new ?_ ?_,?_,held.distinct,filled⟩,List.Subset.refl _,?_,?_,totals⟩
  · intro id named
    cases named
    rfl
  · intro whole
    cases whole
  · intro receipt member delivered
    rcases List.mem_append.mp member with old | same
    · exact held.resident receipt old delivered
    · rw [List.mem_singleton.mp same] at delivered
      cases delivered
  · exact fun receipt member => .inl ⟨receipt,List.mem_append_left _ member,.refl receipt⟩
  · intro operation closed
    refine closed.stays (List.Subset.refl _) fun receipt member => ?_
    rcases List.mem_append.mp member with old | same
    · exact .inl ⟨receipt,old,rfl⟩
    · rw [List.mem_singleton.mp same]
      exact .inr (.inl (eraseId_ne_eraseScopeId prepared.target))

theorem kept_startScope (held : Sound now) {authority : Authority} {id : MemoryId}
    (fresh : Fresh now (.startScope scope (eraseScopeDecision authority scope id)))
    (started : ErasureLedger.startScope scope (eraseScopeDecision authority scope id) now = .ok next) : Kept now next := by
  obtain ⟨kept,is,free,new,rfl⟩ := startScope_ok started
  have within : ∀ receipt ∈ kept, receipt ∈ now.receipts := by
    intro receipt member
    rw [is] at member
    exact (mem_deleteWhere.mp member).1
  have orderly : Orderly kept := by
    rw [is]
    exact held.orderly.delete
  refine ⟨⟨orderly.insert free new ?_ fun _ => ⟨id,rfl⟩,?_,held.distinct,held.filled⟩,List.Subset.refl _,?_,?_,fun _ _ _ => rfl⟩
  · intro id named
    cases named
  · intro receipt member delivered
    rcases List.mem_append.mp member with old | same
    · exact held.resident receipt (within receipt old) delivered
    · rw [List.mem_singleton.mp same] at delivered
      cases delivered
  · intro receipt member
    by_cases gone : (receipt.at' scope none && receipt.delivered) = true
    · simp only [Bool.and_eq_true,Receipt.at'_iff] at gone
      obtain ⟨⟨here,whole⟩,delivered⟩ := gone
      refine .inr ⟨⟨held.orderly.ofScope receipt member whole,held.resident receipt member delivered,?_⟩,_,
        List.mem_append_right _ (List.mem_singleton_self _),here.symm,rfl⟩
      intro other otherIn same
      rcases List.mem_append.mp otherIn with old | added
      · have one := held.orderly.identified.eq_of_key (within other old) member same
        rw [one] at old
        exact free receipt old (by rw [here,whole])
      · rw [List.mem_singleton.mp added] at same
        exact fresh.1 receipt member same.symm
    · refine .inl ⟨receipt,List.mem_append_left _ ?_,.refl receipt⟩
      rw [is]
      exact mem_deleteWhere.mpr ⟨member,Bool.eq_false_iff.mpr gone⟩
  · intro operation closed
    refine closed.stays (List.Subset.refl _) fun receipt member => ?_
    rcases List.mem_append.mp member with old | same
    · exact .inl ⟨receipt,within receipt old,rfl⟩
    · rw [List.mem_singleton.mp same]
      exact .inr (.inr fresh.2)

theorem kept_drain (held : Sound now) {shells : List Shell} {at' : UnixSeconds}
    (totals : ∀ operation, Sealed now operation → ∀ scope,
      journalTotals next.journal scope operation = journalTotals now.journal scope operation)
    (committed : drainOneBatch scope operation shells at' now = .ok next) : Kept now next := by
  obtain ⟨-,-,journal,ledger,receipts⟩ := drain_ok committed
  have grows : ∀ receipt : Receipt, Grows receipt { receipt with ready := true } := fun receipt => ⟨rfl,rfl,rfl,fun _ => rfl⟩
  obtain ⟨filled,-⟩ := @batched_totals now scope operation held.filled _ (drainBatch_balanced scope shells at') at'
  refine ⟨⟨?_,?_,?_,?_⟩,Since.update grows receipts ?_ totals⟩
  · rw [receipts]
    exact held.orderly.update grows
  · intro receipt member delivered
    rw [ledger]
    rw [receipts] at member
    rcases mem_updateWhere.mp member with ⟨old,-⟩ | ⟨old,oldIn,-,rfl⟩
    · exact held.resident receipt old delivered
    · exact held.resident old oldIn delivered
  · rw [ledger]
    exact held.distinct
  · rw [journal]
    exact filled
  · rw [ledger]
    exact List.Subset.refl _

theorem kept_deliver (held : Sound now) {target : Option MemoryId}
    (resident : ∀ receipt ∈ now.receipts, receipt.decision.id = operation → ∃ decision ∈ now.ledger, decision.id = operation) :
    Kept now (ErasureLedger.deliver scope target operation now) := by
  have grows : ∀ receipt : Receipt, Grows receipt { receipt with delivered := true } := fun receipt => ⟨rfl,rfl,rfl,id⟩
  refine ⟨⟨held.orderly.update grows,?_,held.distinct,held.filled⟩,Since.update grows rfl (List.Subset.refl _) fun _ _ _ => rfl⟩
  intro receipt member delivered
  rcases mem_updateWhere.mp member with ⟨old,-⟩ | ⟨old,oldIn,chosen,rfl⟩
  · exact held.resident receipt old delivered
  · have own : old.decision.id = operation := by simpa using (Bool.and_eq_true_iff.mp chosen).2
    obtain ⟨decision,decisionIn,same⟩ := resident old oldIn own
    exact ⟨decision,decisionIn,same.trans own.symm⟩

end

/-! ### Runs -/

@[simp] theorem counted_id (target : Option MemoryId) (decision : Decision) (totals : Totals) :
    (counted target decision totals).id = decision.id := by
  cases target <;> rfl

theorem resident_of_decisionResident {ledger : List Decision} {decision : Decision}
    (resident : decisionResident ledger decision = .ok true) : ∃ found ∈ ledger, found.id = decision.id := by
  unfold decisionResident at resident
  split at resident
  · cases resident
  · next found is => exact ⟨found,List.mem_of_find?_eq_some is,by simpa using List.find?_some is⟩

theorem keeps : Keeps system Fresh Stages Sound Since := by
  refine ⟨.refl,fun _ _ _ => .trans,?_,?_⟩
  · refine ⟨⟨List.nodup_nil,List.nodup_nil,?_,?_⟩,?_,List.nodup_nil,?_⟩
    all_goals
      intro row member
      cases member
  intro history now txn next trail held staged fresh committed
  have goes : ∀ seen ∈ history, ∀ receipt ∈ seen.receipts, Goes now receipt := fun seen member => (trail.since seen member).goes
  have totals := fun operation (sealed' : Sealed now operation) => sealed_totals held goes staged committed sealed'
  cases staged with
  | other change =>
    cases committed
    exact ⟨⟨held.orderly,held.resident,held.distinct,held.filled⟩,.same rfl (List.Subset.refl _) rfl⟩
  | record apart => exact kept_append held committed
  | erase authority read prepares => exact kept_erase held totals committed
  | startScope authority id => exact kept_startScope held fresh committed
  | drain at' bounded reads found draining => exact kept_drain held totals committed
  | append appends => exact kept_append held committed
  | @deliver scope target receipt decision prepares delivered =>
    cases committed
    obtain ⟨atReceipt,atTotals,order,found,-,is⟩ := prepares
    have within : ∃ resident ∈ now.ledger, resident.id = receipt.decision.id := by
      rcases delivered with marked | ⟨seen,seenIn,resident⟩
      · obtain ⟨resident,residentIn,same⟩ :=
          (trail.held atReceipt order.mem_first).resident receipt (Vault.receipt_some found).1 marked
        exact ⟨resident,(trail.since atReceipt order.mem_first).ledger residentIn,same⟩
      · obtain ⟨resident,residentIn,same⟩ := resident_of_decisionResident resident
        rw [is,counted_id] at same
        exact ⟨resident,(trail.since seen seenIn).ledger residentIn,same⟩
    exact kept_deliver held fun _ _ _ => within

theorem fits : system.Fits Stages := by
  intro history txn staged move member
  rw [List.mem_singleton.mp member]
  exact staged

section
variable {log newer older : List (Txn × Vault)} {scope : Scope} {target : Option MemoryId} {operation : String}

/-- The journal of an operation holds what its committed batches took away. -/
theorem totals_destroyed (run : Run system Fresh log) (scope : Scope) (operation : String) :
    journalTotals (system.current log).journal scope operation = destroyed scope operation log := by
  induction run with
  | start => rfl
  | @step log txn next run staged meet committed ih =>
    have added := commit_totals (run.holds fits keeps) (commit_single rfl committed) scope operation
    rw [ih] at added
    exact added

/-- The log has a batch of the operation that sealed it, and for a scope left nothing of it. -/
def Ended (log : List (Txn × Vault)) (scope : Scope) (target : Option MemoryId) (operation : String) : Prop :=
  ∃ newer txn next older, log = newer ++ (txn,next) :: older ∧ batchOf txn = some (scope,operation) ∧ Sealed next operation ∧
    (target = none → drained next.stock.holdings.db scope = true)

theorem Ended.prepend (ended : Ended log scope target operation) (newer : List (Txn × Vault)) :
    Ended (newer ++ log) scope target operation := by
  obtain ⟨recent,txn,next,older,rfl,rest⟩ := ended
  exact ⟨newer ++ recent,txn,next,older,by simp,rest⟩

theorem ready_ended (run : Run system Fresh log) {receipt : Receipt} (member : receipt ∈ (system.current log).receipts)
    (ready : receipt.ready = true) : Ended log receipt.scope receipt.target receipt.decision.id := by
  induction run generalizing receipt with
  | start => cases member
  | @step log txn next run staged meet committed ih =>
    have committed : ErasureLedger.commit (system.current log) txn = .ok next := commit_single rfl committed
    have earlier : receipt ∈ (system.current log).receipts → Ended ((txn,next) :: log) receipt.scope receipt.target
        receipt.decision.id := fun old => (ih old ready).prepend [(txn,next)]
    cases txn with
    | other change =>
      cases committed
      exact earlier member
    | record decision =>
      obtain ⟨-,rfl⟩ := append_ok committed
      exact earlier member
    | append decision =>
      obtain ⟨-,rfl⟩ := append_ok committed
      exact earlier member
    | erase prepared decision =>
      obtain ⟨-,-,rfl⟩ := erase_ok committed
      rcases List.mem_append.mp member with old | new
      · exact earlier old
      · cases List.mem_singleton.mp new
        exact ⟨[],_,_,log,rfl,rfl,.inl ⟨_,member,rfl,rfl⟩,fun whole => by cases whole⟩
    | startScope owner decision =>
      obtain ⟨kept,is,-,-,rfl⟩ := startScope_ok committed
      rcases List.mem_append.mp member with old | new
      · rw [is] at old
        exact earlier (mem_deleteWhere.mp old).1
      · cases List.mem_singleton.mp new
        cases ready
    | drain owner other shells at' =>
      obtain ⟨-,-,-,-,receipts⟩ := drain_ok committed
      have inside : receipt ∈ next.receipts := member
      have turned := inside
      rw [receipts] at turned
      rcases mem_updateWhere.mp turned with ⟨old,-⟩ | ⟨old,oldIn,chosen,rfl⟩
      · exact earlier old
      · simp only [Bool.and_eq_true,Receipt.at'_iff,beq_iff_eq] at chosen
        obtain ⟨⟨⟨rfl,-⟩,rfl⟩,left⟩ := chosen
        exact ⟨[],_,next,log,rfl,rfl,.inl ⟨_,inside,rfl,rfl⟩,fun _ => left⟩
    | deliver owner place decisionId =>
      cases committed
      rcases mem_updateWhere.mp member with ⟨old,-⟩ | ⟨old,oldIn,chosen,rfl⟩
      · exact earlier old
      · exact (ih oldIn ready).prepend [_]

/-- Once an operation is sealed no later batch of it is committed. -/
theorem sealed_last (run : Run system Fresh (newer ++ older)) (sealed' : Sealed (system.current older) operation) :
    ∀ entry ∈ newer, ∀ scope, batchOf entry.1 ≠ some (scope,operation) := by
  intro entry member scope batch
  obtain ⟨recent,middle,rfl⟩ := List.append_of_mem member
  obtain ⟨txn,next⟩ := entry
  rw [List.append_assoc] at run
  obtain ⟨before,staged,-,committed⟩ := Run.before run
  have trail := before.trail fits keeps
  have inside : system.current older ∈ system.states (middle ++ older) := by
    rw [states_append]
    exact List.mem_append_right _ (system.current_mem older)
  exact sealed_blocks (before.holds fits keeps) (fun seen seenIn => (trail.since seen seenIn).goes) staged
    (commit_single rfl committed) batch ((trail.since _ inside).seals sealed')

/-! ### Appends -/

/-- Two callers that read a receipt of one operation read the same Decision for it. -/
theorem receipts_agree {history : List Vault} {now one two : Vault} (trail : Trail Sound Since history now)
    (oneIn : one ∈ history) (twoIn : two ∈ history) {left right : Receipt} (leftIn : left ∈ one.receipts)
    (rightIn : right ∈ two.receipts) (same : left.decision.id = right.decision.id) :
    left.scope = right.scope ∧ left.target = right.target ∧ left.decision = right.decision := by
  have later : ∀ {one two : Vault}, Sound two → Since one two → ∀ {left right : Receipt}, left ∈ one.receipts →
      right ∈ two.receipts → left.decision.id = right.decision.id → Grows left right := by
    intro one two held since left right leftIn rightIn same
    rcases since.goes left leftIn with ⟨grown,grownIn,grows⟩ | ⟨closed,-⟩
    · have own : grown = right :=
        held.orderly.identified.eq_of_key grownIn rightIn ((congrArg Decision.id grows.decision).trans same)
      rw [← own]
      exact grows
    · exact absurd same.symm (closed.gone right rightIn)
  rcases trail.either Since.refl oneIn twoIn with since | since
  · have grows := later (trail.held two twoIn) since leftIn rightIn same
    exact ⟨grows.scope.symm,grows.target.symm,grows.decision.symm⟩
  · have grows := later (trail.held one oneIn) since rightIn leftIn same.symm
    exact ⟨grows.scope,grows.target,grows.decision⟩

/-- A Decision that was put together holds what the whole run has destroyed. -/
theorem prepares_destroyed (run : Run system Fresh log) {receipt : Receipt} {decision : Decision}
    (prepares : Prepares (system.states log) scope target receipt decision) :
    decision = counted target receipt.decision (destroyed scope receipt.decision.id log) := by
  obtain ⟨atReceipt,atTotals,order,found,ready,is⟩ := prepares
  have trail := run.trail fits keeps
  have sealed' : Sealed atReceipt receipt.decision.id := .inl ⟨receipt,(Vault.receipt_some found).1,rfl,ready⟩
  have atRead := (trail.since_in_order Since.refl order).seals sealed'
  rw [is,← totals_destroyed run,(trail.since atTotals order.mem_second).totals _ atRead]

theorem prepares_agree (run : Run system Fresh log) {owner : Scope} {place : Option MemoryId} {left right : Receipt}
    {one two : Decision} (first : Prepares (system.states log) scope target left one)
    (second : Prepares (system.states log) owner place right two) (same : one.id = two.id) : one = two := by
  have oneIs := prepares_destroyed run first
  have twoIs := prepares_destroyed run second
  obtain ⟨atLeft,_,orderLeft,foundLeft,-,-⟩ := first
  obtain ⟨atRight,_,orderRight,foundRight,-,-⟩ := second
  obtain ⟨leftIn,hereLeft,targetLeft⟩ := Vault.receipt_some foundLeft
  obtain ⟨rightIn,hereRight,targetRight⟩ := Vault.receipt_some foundRight
  rw [oneIs,twoIs,counted_id,counted_id] at same
  obtain ⟨sameScope,sameTarget,sameDecision⟩ :=
    receipts_agree (run.trail fits keeps) orderLeft.mem_first orderRight.mem_first leftIn rightIn same
  rw [oneIs,twoIs,← hereLeft,← hereRight,← targetLeft,← targetRight,sameScope,sameTarget,sameDecision]

theorem prepares_later {receipt : Receipt} {decision : Decision}
    (prepares : Prepares (system.states older) scope target receipt decision) (newer : List (Txn × Vault)) :
    Prepares (system.states (newer ++ older)) scope target receipt decision := by
  obtain ⟨atReceipt,atTotals,order,rest⟩ := prepares
  rw [states_append]
  exact ⟨atReceipt,atTotals,order.later _,rest⟩

theorem appends_later {decision : Decision} (appends : Appends (system.states older) scope target decision)
    (newer : List (Txn × Vault)) : Appends (system.states (newer ++ older)) scope target decision := by
  obtain ⟨receipt,prepares,undelivered,seen,seenIn,absent⟩ := appends
  refine ⟨receipt,prepares_later prepares newer,undelivered,seen,?_,absent⟩
  rw [states_append]
  exact List.mem_append_right _ seenIn

theorem prepares_ended (run : Run system Fresh log) {receipt : Receipt} {decision : Decision}
    (prepares : Prepares (system.states log) scope target receipt decision) : Ended log scope target decision.id := by
  obtain ⟨atReceipt,atTotals,order,found,ready,rfl⟩ := prepares
  obtain ⟨newer,older,rfl,rfl⟩ := current_of_mem order.mem_first
  obtain ⟨member,rfl,rfl⟩ := Vault.receipt_some found
  rw [counted_id]
  exact (ready_ended run.earlier member ready).prepend newer

/-- The operations of erasures have ids that no other Decision has. -/
theorem prepares_named (run : Run system Fresh log) {receipt : Receipt} {decision : Decision}
    (prepares : Prepares (system.states log) scope target receipt decision) :
    (∀ id, target = some id → decision.id = eraseId id) ∧ (target = none → ∃ id, decision.id = eraseScopeId id) := by
  obtain ⟨atReceipt,atTotals,order,found,-,rfl⟩ := prepares
  have orderly := ((run.trail fits keeps).held atReceipt order.mem_first).orderly
  obtain ⟨member,-,is⟩ := Vault.receipt_some found
  rw [counted_id]
  exact ⟨fun id named => orderly.ofMemory receipt member id (is.trans named),
    fun whole => orderly.ofScope receipt member (is.trans whole)⟩

/-- What is in the ledger was put there by a caller that delivers, or is no erasure's. -/
theorem ledger_appended (run : Run system Fresh log) {decision : Decision} (member : decision ∈ (system.current log).ledger) :
    (∃ scope target, Appends (system.states log) scope target decision) ∨
      ∀ id, decision.id ≠ eraseId id ∧ decision.id ≠ eraseScopeId id := by
  induction run with
  | start => cases member
  | @step log txn next run staged meet committed ih =>
    have executed : ErasureLedger.commit (system.current log) txn = .ok next := commit_single rfl committed
    have earlier (old : decision ∈ (system.current log).ledger) :
        (∃ scope target, Appends (system.states ((txn,next) :: log)) scope target decision) ∨
          ∀ id, decision.id ≠ eraseId id ∧ decision.id ≠ eraseScopeId id := by
      rcases ih old with ⟨scope,target,appends⟩ | apart
      · exact .inl ⟨scope,target,appends_later appends [(txn,next)]⟩
      · exact .inr apart
    cases staged with
    | other change =>
      cases executed
      exact earlier member
    | record apart =>
      obtain ⟨-,rfl⟩ := append_ok executed
      rcases List.mem_append.mp member with old | new
      · exact earlier old
      · rw [List.mem_singleton.mp new]
        exact .inr apart
    | erase authority read prepares =>
      obtain ⟨-,-,rfl⟩ := erase_ok executed
      exact earlier member
    | startScope authority id =>
      obtain ⟨kept,-,-,-,rfl⟩ := startScope_ok executed
      exact earlier member
    | drain at' bounded reads found draining =>
      obtain ⟨-,-,-,ledger,-⟩ := drain_ok executed
      have inside : decision ∈ next.ledger := member
      rw [ledger] at inside
      exact earlier inside
    | @append scope target other appends =>
      obtain ⟨-,rfl⟩ := append_ok executed
      rcases List.mem_append.mp member with old | new
      · exact earlier old
      · rw [List.mem_singleton.mp new]
        exact .inl ⟨scope,target,appends_later appends [_]⟩
    | deliver prepares delivered =>
      cases executed
      exact earlier member

end

/-! ### The counts -/

/-- The counts of a Decision are those of the totals. -/
structure Counts (decision : Decision) (target : Option MemoryId) (totals : Totals) : Prop where
  derivatives : decision.field "derivatives_removed" = some (.number totals.derivatives)
  keys : decision.field "keys_destroyed" = some (.number totals.keysDestroyed)
  ofScope : target = none →
    decision.field "memories" = some (.number totals.memories) ∧ decision.field "batches" = some (.number totals.batches)
  ofMemory : ∀ id, target = some id → decision.field "derivatives_marked" = some (.number totals.marked)

theorem counts_counted (target : Option MemoryId) (decision : Decision) (totals : Totals) :
    Counts (counted target decision totals) target totals := by
  cases target with
  | none =>
    refine ⟨?_,?_,fun _ => ⟨?_,?_⟩,(fun id named => by cases named)⟩
    · simp [counted,Decision.field_insert_other,Decision.field_insert]
    · simp [counted,Decision.field_insert_other,Decision.field_insert]
    · simp [counted,Decision.field_insert_other,Decision.field_insert]
    · exact Decision.field_insert _ _ _
  | some id =>
    refine ⟨?_,?_,(fun whole => by cases whole),fun _ _ => ?_⟩
    · simp [counted,Decision.field_insert_other,Decision.field_insert]
    · simp [counted,Decision.field_insert_other,Decision.field_insert]
    · exact Decision.field_insert _ _ _

/-- Nothing of a scope is left: no live memory, no claim that is not erased and no key. -/
structure Vacant (db : Database) (scope : Scope) : Prop where
  memories : ∀ row ∈ db.memories, row.scope = scope → row.live = false
  claims : ∀ row ∈ db.claims, row.scope = scope → row.erased = true
  keys : ∀ row ∈ db.keys, row.scope ≠ scope

theorem vacant_of_drained {db : Database} {scope : Scope} (empty : drained db scope = true) : Vacant db scope := by
  simp only [drained,Bool.and_eq_true,Bool.not_eq_true',List.any_eq_false,beq_iff_eq] at empty
  obtain ⟨⟨memories,claims⟩,keys⟩ := empty
  refine ⟨fun row member here => ?_,fun row member here => ?_,keys⟩
  · simpa [here] using memories row member
  · simpa [here] using claims row member

/-- What holds of an append that a caller is about to make after one part of a run. -/
structure Final (newer older : List (Txn × Vault)) (scope : Scope) (target : Option MemoryId) (decision : Decision) : Prop where
  -- the batches of the operation are over, and the last left nothing of a scope
  ended : ∃ later txn next earlier, older = later ++ (txn,next) :: earlier ∧ batchOf txn = some (scope,decision.id) ∧
    (target = none → Vacant next.stock.holdings.db scope) ∧
    ∀ entry ∈ newer ++ later, ∀ owner, batchOf entry.1 ≠ some (owner,decision.id)
  counts : Counts decision target (destroyed scope decision.id (newer ++ older))
  ofMemory : ∀ id, target = some id → decision.id = eraseId id
  -- no caller appends anything else under the id, and the ledger has nothing else there
  same : ∀ owner place other, Appends (system.states (newer ++ older)) owner place other → other.id = decision.id → other = decision
  resident : ∀ other ∈ (system.current (newer ++ older)).ledger, other.id = decision.id → other = decision

/-- Whatever the callers of erasures read and however their steps fall, each Decision that
    one is about to append is final, and the ledger has one for each operation. -/
theorem decisions_final {newer older : List (Txn × Vault)} (run : Run system Fresh (newer ++ older)) :
    ((system.current (newer ++ older)).ledger.map Decision.id).Nodup ∧
      ∀ scope target decision, Appends (system.states older) scope target decision →
        Final newer older scope target decision := by
  refine ⟨(run.holds fits keeps).distinct,?_⟩
  intro scope target decision appends
  obtain ⟨receipt,prepares,-⟩ := appends
  have all := prepares_later prepares newer
  have same : ∀ owner place other, Appends (system.states (newer ++ older)) owner place other → other.id = decision.id →
      other = decision := by
    rintro owner place other ⟨_,others,-⟩ same
    exact prepares_agree run others all same
  obtain ⟨ofMemory,ofScope⟩ := prepares_named run all
  refine ⟨?_,?_,ofMemory,same,?_⟩
  · obtain ⟨later,txn,next,earlier,rfl,batch,sealed',left⟩ := prepares_ended run.earlier prepares
    refine ⟨later,txn,next,earlier,rfl,batch,fun whole => vacant_of_drained (left whole),?_⟩
    rw [← List.append_assoc] at run
    exact sealed_last run sealed'
  · have is := prepares_destroyed run all
    rw [is,counted_id]
    exact counts_counted target receipt.decision _
  · intro other member sameId
    rcases ledger_appended run member with ⟨owner,place,appends⟩ | apart
    · exact same owner place other appends sameId
    · cases target with
      | none =>
        obtain ⟨id,named⟩ := ofScope rfl
        exact absurd (sameId.trans named) (apart id).2
      | some id => exact absurd (sameId.trans (ofMemory id rfl)) (apart id).1

namespace Sample
open Claims.Sample Memories.Sample Store.Sample Lifecycle.Sample

def authority : Authority := ⟨⟨"alice"⟩,"subject_request"⟩

def now (log : List (Txn × Vault)) : Vault := system.current log

def then' (log : List (Txn × Vault)) (txn : Txn) : List (Txn × Vault) := system.extend log txn

/-- A note is captured and embedded. -/
def filled (log : List (Txn × Vault)) : List (Txn × Vault) := then' log (.other fun _ => Pipeline.Sample.now Pipeline.Sample.stored)

/-- The note is erased, from what its erasure read. -/
def erased (log : List (Txn × Vault)) : List (Txn × Vault) :=
  match Lifecycle.prepareErase (fun _ => (now log).db) scope noteId false 20 with
  | .ok prepared => then' log (.erase prepared (eraseDecision authority prepared))
  | .error _ => log

def whole : Decision := eraseScopeDecision authority scope secondId

def started (log : List (Txn × Vault)) : List (Txn × Vault) := then' log (.startScope scope whole)

def drained' (log : List (Txn × Vault)) : List (Txn × Vault) :=
  then' log (.drain scope whole.id (batchShells (now log).db scope 10) 30)

/-- The note is erased and captured again, and the scope is erased with it. -/
def ended : List (Txn × Vault) := drained' (started (filled (erased (filled []))))

/-- The Decision of the scope's erasure, as a caller puts it together. -/
def report : Decision := counted none whole (journalTotals (now ended).journal scope whole.id)

def appended : List (Txn × Vault) := then' ended (.append report)

section
variable {log : List (Txn × Vault)}

theorem run_filled (run : Run system Fresh log) : Run system Fresh (filled log) :=
  run.extend (.other _) ⟨trivial,fun _ _ => trivial⟩

theorem run_erased (run : Run system Fresh log) : Run system Fresh (erased log) := by
  unfold erased
  split
  · next prepared staged =>
    exact run.extend (.erase authority (fun _ => ⟨_,system.current_mem log,rfl⟩) staged) ⟨trivial,fun _ _ => trivial⟩
  · exact run

theorem run_started (run : Run system Fresh log) (none' : (now log).receipt scope none = none)
    (noLegacy : hasLegacy (now log).journal scope = false)
    (fresh : (now log).receipts.all (fun receipt => receipt.decision.id != whole.id) = true)
    (absent : (now log).ledger.all (fun resident => resident.id != whole.id) = true) : Run system Fresh (started log) := by
  have read := system.current_mem log
  refine run.extend (.startScope authority secondId read read read read noLegacy ?_) ⟨⟨?_,?_⟩,fun _ _ => trivial⟩
  · rw [now] at none'
    rw [none']
    rfl
  · rw [now] at fresh
    simpa using fresh
  · rw [now] at absent
    simpa using absent

theorem run_drained (run : Run system Fresh log)
    (found : (now log).receipt scope none = some ⟨scope,none,whole,false,false⟩) : Run system Fresh (drained' log) :=
  run.extend (.drain 30 (by decide) (system.current_inOrder log) found rfl) ⟨trivial,fun _ _ => trivial⟩

theorem run_then' {decision : Decision} (run : Run system Fresh log) (appends : Appends (system.states log) scope none decision) :
    Run system Fresh (then' log (.append decision)) :=
  run.extend (.append appends) ⟨trivial,fun _ _ => trivial⟩

theorem then_eq {txn : Txn} (longer : (then' log txn).length ≠ log.length) :
    then' log txn = [(txn,now (then' log txn))] ++ log :=
  extend_eq longer

theorem appends_ready (found : (now log).receipt scope none = some ⟨scope,none,whole,true,false⟩) (empty : (now log).ledger = []) :
    Appends (system.states log) scope none (counted none whole (journalTotals (now log).journal scope whole.id)) := by
  refine ⟨⟨scope,none,whole,true,false⟩,⟨_,_,system.current_inOrder log,found,rfl,rfl⟩,rfl,now log,system.current_mem log,?_⟩
  simp [decisionResident,empty]

end

theorem run_ended : Run system Fresh ended := by
  have run := run_filled (run_erased (run_filled Run.start))
  exact run_drained (run_started run (by decide +kernel) (by decide +kernel) (by decide +kernel) (by decide +kernel))
    (by decide +kernel)

theorem appends_report : Appends (system.states ended) scope none report :=
  appends_ready (by decide +kernel) (by decide +kernel)

theorem run_appended : Run system Fresh appended := run_then' run_ended appends_report

theorem appended_eq : appended = [(.append report,now appended)] ++ ended := then_eq (by decide +kernel)

end Sample

theorem decisions_final_appended :
    Sample.report.field "memories" = some (.number 1) ∧ (Sample.now Sample.appended).ledger = [Sample.report] ∧
      Final [(.append Sample.report,Sample.now Sample.appended)] Sample.ended Claims.Sample.scope none Sample.report := by
  refine ⟨by decide +kernel,by decide +kernel,?_⟩
  have run := Sample.run_appended
  rw [Sample.appended_eq] at run
  exact (decisions_final run).2 _ _ _ Sample.appends_report

end Aicortex.ErasureDecisions
