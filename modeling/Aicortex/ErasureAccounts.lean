import Aicortex.Pipeline

/-!
What an erasure counts. Its statements are staged in one transaction with the statements
that enter their changes in a journal row, each right after the one it counts. A row that
two statements of the batch name is changed by the first of them and counted once, so
the journal row holds what the transaction took away.
-/

namespace Aicortex.ErasureAccounts
open Aicortex.Text Aicortex.CivilTime Aicortex.Memories Aicortex.Schema Aicortex.ClaimRepo Aicortex.MemoryRepo
open Aicortex.Erasure Aicortex.Lifecycle Aicortex.EmbeddingTables Aicortex.Pipeline
open Lib.Tables
open Aicortex.Claims hiding Unit
set_option linter.unusedSimpArgs false

/-! ### Statements -/

/-- A statement, with the number of rows it changed. -/
abbrev Statement := Stock → Stock × Nat

/-- What the changes of a statement are entered under. -/
inductive Account where
  | derivatives
  | keys
  | tombstones
  | marks
  deriving Repr, DecidableEq

/-- A staged statement; where nothing is counted its changes are not read. -/
structure Entry where
  statement : Statement
  account : Option Account

def silent (change : Stock → Stock) : Entry := ⟨fun stock => (change stock,0),none⟩

def deletes {ρ : Type} (rows : Stock → List ρ) (put : Stock → List ρ → Stock) (chosen : ρ → Bool) : Statement :=
  fun stock => (put stock (deleteWhere chosen (rows stock)),(rows stock).countP chosen)

def putDb (stock : Stock) (db : Database) : Stock := { stock with holdings := { stock.holdings with db := db } }

def updatesMemories (chosen : Database → MemoryRow → Bool) (change : MemoryRow → MemoryRow) : Statement := fun stock =>
  (putDb stock { stock.holdings.db with memories := updateWhere (chosen stock.holdings.db) change stock.memories },
    stock.memories.countP (chosen stock.holdings.db))

section
variable (scope : Scope)

/-! ### What each statement names -/

def deleteEmbeddings (id : MemoryId) : Entry :=
  ⟨deletes Stock.embeddings (fun stock rows => { stock with embeddings := rows })
    (fun row => row.scope == scope && row.memoryId == id),some .derivatives⟩

def deleteChunks (id : MemoryId) : Entry :=
  ⟨deletes Stock.chunks (fun stock rows => { stock with chunks := rows })
    (fun row => row.scope == scope && row.memoryId == id),some .derivatives⟩

def deleteProvenance (id : MemoryId) : Entry :=
  ⟨deletes Stock.provenance (fun stock rows => { stock with provenance := rows })
    (fun row => row.scope == scope && row.memoryId == id),some .derivatives⟩

def deleteDerivations (id : MemoryId) : Entry :=
  ⟨deletes (fun stock => stock.holdings.db.derivations)
    (fun stock rows => putDb stock { stock.holdings.db with derivations := rows })
    (fun row => row.scope == scope && row.memoryId == id),some .derivatives⟩

def deleteSources (id : MemoryId) : Entry :=
  ⟨deletes (fun stock => stock.holdings.captures)
    (fun stock rows => { stock with holdings := { stock.holdings with captures := rows } })
    (fun row => row.scope == scope && row.memoryId == id),some .derivatives⟩

def destroyForMemory (id : MemoryId) : Entry :=
  ⟨deletes (fun stock => stock.holdings.db.keys) (fun stock rows => putDb stock { stock.holdings.db with keys := rows })
    (fun row => row.scope == scope && row.memory == some id),some .keys⟩

def destroyForScope : Entry :=
  ⟨deletes (fun stock => stock.holdings.db.keys) (fun stock rows => putDb stock { stock.holdings.db with keys := rows })
    (fun row => row.scope == scope),some .keys⟩

def deleteAttempts (id : MemoryId) : Entry :=
  ⟨deletes Stock.attempts (fun stock rows => { stock with attempts := rows })
    (fun row => row.key.scope == scope && row.key.memoryId == id),some .derivatives⟩

def deleteWork (id : MemoryId) : Entry :=
  ⟨deletes Stock.work (fun stock rows => { stock with work := rows })
    (fun row => row.key.scope == scope && row.key.memoryId == id),some .derivatives⟩

def moveCounters (shell : Shell) : Entry := silent fun stock =>
  { stock with holdings := { stock.holdings with counters := eraseCounters stock.holdings.db scope [shell] stock.holdings.counters } }

def buries (now : UnixSeconds) (shell : Shell) : Entry :=
  ⟨updatesMemories (fun _ row => ofScope scope shell.id row && row.live) (buryRow scope now shell),some .tombstones⟩

def marks (parent : MemoryId) : Entry :=
  ⟨updatesMemories (fun db row => row.scope == scope && !row.originErased && row.live && derives db scope parent row.id)
    MemoryRow.marked,some .marks⟩

/-! ### Batches -/

/-- One delete for each swept table and each shell, table by table. -/
def stageSweep (shells : List Shell) : List Entry :=
  shells.map (fun shell => deleteEmbeddings scope shell.id) ++ shells.map (fun shell => deleteChunks scope shell.id) ++
    shells.map (fun shell => deleteProvenance scope shell.id) ++ shells.map (fun shell => deleteDerivations scope shell.id) ++
    shells.map (fun shell => deleteSources scope shell.id)

/-- The counters move before any of the shells becomes a tombstone. -/
def stageTombstones (shells : List Shell) (now : UnixSeconds) : List Entry :=
  shells.map (moveCounters scope) ++ shells.map (buries scope now)

def stageEmbeddingQueueErasure (shells : List Shell) : List Entry :=
  shells.flatMap (fun shell => [deleteAttempts scope shell.id,deleteWork scope shell.id])

end

def eraseBatch (prepared : PreparedErasure) : List Entry :=
  stageSweep prepared.scope prepared.shells ++ prepared.shells.map (fun shell => destroyForMemory prepared.scope shell.id) ++
    stageTombstones prepared.scope prepared.shells prepared.now ++ stageEmbeddingQueueErasure prepared.scope prepared.shells ++
    [marks prepared.scope prepared.target,
      silent fun stock => putDb stock (sourceClaims prepared stock.holdings.db)]

def drainBatch (scope : Scope) (shells : List Shell) (now : UnixSeconds) : List Entry :=
  stageSweep scope shells ++ [destroyForScope scope] ++ stageTombstones scope shells now ++
    stageEmbeddingQueueErasure scope shells ++ [silent fun stock => putDb stock (eraseScopeClaims scope stock.holdings.db)]

/-! ### The journal -/

structure JournalRow where
  scope : Scope
  batch : Nat
  memories : Nat
  derivatives : Nat
  keysDestroyed : Nat
  marked : Nat
  at' : Nat
  operation : String
  deriving DecidableEq

/-- Enter the changes of a statement; a destroyed key counts as a derivative too. -/
def JournalRow.post (row : JournalRow) (changes : Nat) : Account → JournalRow
  | .keys => { row with keysDestroyed := row.keysDestroyed + changes, derivatives := row.derivatives + changes }
  | .derivatives => { row with derivatives := row.derivatives + changes }
  | .tombstones => { row with memories := row.memories + changes }
  | .marks => { row with marked := row.marked + changes }

/-- One past the highest batch of the scope. -/
def nextBatch (journal : List JournalRow) (scope : Scope) : Nat :=
  (((journal.filter (fun row => row.scope == scope)).map (·.batch + 1)).max?).getD 0

/-- The rows of an operation in the latest batch of the scope. -/
def isLatest (journal : List JournalRow) (scope : Scope) (operation : String) (row : JournalRow) : Bool :=
  row.scope == scope && row.operation == operation && row.batch + 1 == nextBatch journal scope

def JournalRow.isEmpty (row : JournalRow) : Bool := row.memories == 0 && row.derivatives == 0 && row.marked == 0

section
variable (scope : Scope) (operation : String)

def ofOperation (row : JournalRow) : Bool := row.scope == scope && row.operation == operation

/-- Execute a statement, and count it if it is one that counts. -/
def execute (tables : Stock × List JournalRow) (entry : Entry) : Stock × List JournalRow :=
  let (stock,changes) := entry.statement tables.1
  (stock,match entry.account with
    | none => tables.2
    | some account => updateWhere (isLatest tables.2 scope operation) (fun row => row.post changes account) tables.2)

/-- A batch with its accounting: a journal row is opened, and goes again if it stays empty. -/
def accountedBatch (entries : List Entry) (now : UnixSeconds) (tables : Stock × List JournalRow) : Stock × List JournalRow :=
  let opened := tables.2 ++ [⟨scope,nextBatch tables.2 scope,0,0,0,0,secondsToSql now,operation⟩]
  let (stock,journal) := entries.foldl (execute scope operation) (tables.1,opened)
  (stock,deleteWhere (fun row => ofOperation scope operation row && row.isEmpty) journal)

end

/-! ### The counts are of the rows that went -/

def liveCount (stock : Stock) : Nat := stock.memories.countP MemoryRow.live

def unmarkedCount (stock : Stock) : Nat := stock.memories.countP (fun row => !row.originErased)

def keyCount (stock : Stock) : Nat := stock.holdings.db.keys.length

/-- The rows derived of memories, the keys among them. -/
def derivativeCount (stock : Stock) : Nat :=
  stock.embeddings.length + stock.chunks.length + stock.provenance.length + stock.holdings.db.derivations.length +
    stock.holdings.captures.length + stock.attempts.length + stock.work.length + keyCount stock

/-- A journal row holds what is gone since a state. -/
structure Balance (first now : Stock) (row : JournalRow) : Prop where
  memories : liveCount first = liveCount now + row.memories
  derivatives : derivativeCount first = derivativeCount now + row.derivatives
  keys : keyCount first = keyCount now + row.keysDestroyed
  marked : unmarkedCount first = unmarkedCount now + row.marked
  within : row.keysDestroyed ≤ row.derivatives

def JournalRow.enter (row : JournalRow) (changes : Nat) : Option Account → JournalRow
  | none => row
  | some account => row.post changes account

/-- A statement whose changes, entered where they are, keep the balance. -/
def Entry.Balanced (entry : Entry) : Prop :=
  ∀ first now row, Balance first now row →
    Balance first (entry.statement now).1 (row.enter (entry.statement now).2 entry.account)

theorem silent_balanced {change : Stock → Stock} (live : ∀ stock, liveCount (change stock) = liveCount stock)
    (derivatives : ∀ stock, derivativeCount (change stock) = derivativeCount stock)
    (keys : ∀ stock, keyCount (change stock) = keyCount stock)
    (marked : ∀ stock, unmarkedCount (change stock) = unmarkedCount stock) : (silent change).Balanced := by
  intro first now row balance
  refine ⟨?_,?_,?_,?_,balance.within⟩
  · rw [silent,live]
    exact balance.memories
  · rw [silent,derivatives]
    exact balance.derivatives
  · rw [silent,keys]
    exact balance.keys
  · rw [silent,marked]
    exact balance.marked

/-- A delete that counts as derivatives, in a table that is neither keys nor memories. -/
theorem deletes_balanced {ρ : Type} {rows : Stock → List ρ} {put : Stock → List ρ → Stock} {chosen : ρ → Bool}
    (live : ∀ stock rows, liveCount (put stock rows) = liveCount stock)
    (keys : ∀ stock rows, keyCount (put stock rows) = keyCount stock)
    (marked : ∀ stock rows, unmarkedCount (put stock rows) = unmarkedCount stock)
    (derivatives : ∀ stock others, derivativeCount (put stock others) + (rows stock).length = derivativeCount stock + others.length) :
    Entry.Balanced ⟨deletes rows put chosen,some .derivatives⟩ := by
  intro first now row balance
  refine ⟨?_,?_,?_,?_,le_trans balance.within (Nat.le_add_right _ _)⟩
  · simp only [deletes,live]
    exact balance.memories
  · have gone := length_deleteWhere chosen (rows now)
    have moved := derivatives now (deleteWhere chosen (rows now))
    have was := balance.derivatives
    simp only [deletes,JournalRow.enter,JournalRow.post]
    omega
  · simp only [deletes,keys]
    exact balance.keys
  · simp only [deletes,marked]
    exact balance.marked

theorem keys_balanced (chosen : KeyRow → Bool) :
    Entry.Balanced ⟨deletes (fun stock => stock.holdings.db.keys)
      (fun stock rows => putDb stock { stock.holdings.db with keys := rows }) chosen,some .keys⟩ := by
  intro first now row balance
  have gone := length_deleteWhere chosen now.holdings.db.keys
  have rows := balance.derivatives
  have keys := balance.keys
  refine ⟨balance.memories,?_,?_,balance.marked,Nat.add_le_add_right balance.within _⟩
  · simp only [deletes,JournalRow.enter,JournalRow.post,derivativeCount,keyCount,putDb] at rows ⊢
    omega
  · simp only [deletes,JournalRow.enter,JournalRow.post,keyCount,putDb] at keys ⊢
    omega

/-- An update of the memories that counts the rows it takes out of one part of them. -/
theorem buries_balanced (scope : Scope) (now : UnixSeconds) (shell : Shell) : (buries scope now shell).Balanced := by
  intro first stock row balance
  have out : stock.memories.countP MemoryRow.live = (updateWhere (fun row => ofScope scope shell.id row && row.live)
      (buryRow scope now shell) stock.memories).countP MemoryRow.live +
        stock.memories.countP (fun row => ofScope scope shell.id row && row.live) :=
    countP_updateWhere_out _ fun row chosen => ⟨(Bool.and_eq_true_iff.mp chosen).2,rfl⟩
  have same : (updateWhere (fun row => ofScope scope shell.id row && row.live) (buryRow scope now shell)
      stock.memories).countP (fun row => !row.originErased) = stock.memories.countP (fun row => !row.originErased) :=
    countP_updateWhere_same _ fun _ _ => rfl
  have live := balance.memories
  have marked := balance.marked
  refine ⟨?_,balance.derivatives,balance.keys,?_,balance.within⟩
  · simp only [buries,updatesMemories,JournalRow.enter,JournalRow.post,liveCount,Stock.memories,putDb] at live out ⊢
    omega
  · simp only [buries,updatesMemories,JournalRow.enter,JournalRow.post,unmarkedCount,Stock.memories,putDb] at marked same ⊢
    omega

theorem marks_balanced (scope : Scope) (parent : MemoryId) : (marks scope parent).Balanced := by
  intro first stock row balance
  have out : stock.memories.countP (fun row => !row.originErased) = (updateWhere (fun row => row.scope == scope &&
      !row.originErased && row.live && derives stock.holdings.db scope parent row.id) MemoryRow.marked stock.memories).countP
        (fun row => !row.originErased) + stock.memories.countP (fun row => row.scope == scope && !row.originErased && row.live &&
          derives stock.holdings.db scope parent row.id) := by
    refine countP_updateWhere_out _ fun row chosen => ⟨?_,rfl⟩
    simp only [Bool.and_eq_true] at chosen
    exact chosen.1.1.2
  have same : (updateWhere (fun row => row.scope == scope && !row.originErased && row.live &&
      derives stock.holdings.db scope parent row.id) MemoryRow.marked stock.memories).countP MemoryRow.live =
        stock.memories.countP MemoryRow.live :=
    countP_updateWhere_same _ fun _ _ => rfl
  have live := balance.memories
  have marked := balance.marked
  refine ⟨?_,balance.derivatives,balance.keys,?_,balance.within⟩
  · simp only [marks,updatesMemories,JournalRow.enter,JournalRow.post,liveCount,Stock.memories,putDb] at live same ⊢
    omega
  · simp only [marks,updatesMemories,JournalRow.enter,JournalRow.post,unmarkedCount,Stock.memories,putDb] at marked out ⊢
    omega

theorem stageSweep_balanced (scope : Scope) (shells : List Shell) : ∀ entry ∈ stageSweep scope shells, entry.Balanced := by
  intro entry member
  simp only [stageSweep,List.mem_append,List.mem_map] at member
  rcases member with (((⟨shell,-,rfl⟩ | ⟨shell,-,rfl⟩) | ⟨shell,-,rfl⟩) | ⟨shell,-,rfl⟩) | ⟨shell,-,rfl⟩
  all_goals
    refine deletes_balanced (fun _ _ => rfl) (fun _ _ => rfl) (fun _ _ => rfl) fun stock others => ?_
    simp only [derivativeCount,keyCount,putDb]
    omega

theorem stageTombstones_balanced (scope : Scope) (shells : List Shell) (now : UnixSeconds) :
    ∀ entry ∈ stageTombstones scope shells now, entry.Balanced := by
  intro entry member
  simp only [stageTombstones,List.mem_append,List.mem_map] at member
  rcases member with ⟨shell,-,rfl⟩ | ⟨shell,-,rfl⟩
  · exact silent_balanced (fun _ => rfl) (fun _ => rfl) (fun _ => rfl) fun _ => rfl
  · exact buries_balanced scope now shell

theorem queue_balanced (scope : Scope) (shells : List Shell) :
    ∀ entry ∈ stageEmbeddingQueueErasure scope shells, entry.Balanced := by
  intro entry member
  obtain ⟨shell,-,within⟩ := List.mem_flatMap.mp member
  simp only [List.mem_cons,List.not_mem_nil,or_false] at within
  rcases within with rfl | rfl
  all_goals
    refine deletes_balanced (fun _ _ => rfl) (fun _ _ => rfl) (fun _ _ => rfl) fun stock others => ?_
    simp only [derivativeCount,keyCount]
    omega

theorem eraseBatch_balanced (prepared : PreparedErasure) : ∀ entry ∈ eraseBatch prepared, entry.Balanced := by
  intro entry member
  simp only [eraseBatch,List.mem_append,List.mem_map,List.mem_cons,List.not_mem_nil,or_false] at member
  rcases member with (((swept | ⟨shell,-,rfl⟩) | buried) | queued) | rfl | rfl
  · exact stageSweep_balanced _ _ entry swept
  · exact keys_balanced _
  · exact stageTombstones_balanced _ _ _ entry buried
  · exact queue_balanced _ _ entry queued
  · exact marks_balanced _ _
  · refine silent_balanced ?_ ?_ ?_ ?_
    all_goals
      intro stock
      simp only [sourceClaims]
      split_ifs <;> rfl

theorem drainBatch_balanced (scope : Scope) (shells : List Shell) (now : UnixSeconds) :
    ∀ entry ∈ drainBatch scope shells now, entry.Balanced := by
  intro entry member
  simp only [drainBatch,List.mem_append,List.mem_singleton] at member
  rcases member with (((swept | rfl) | buried) | queued) | rfl
  · exact stageSweep_balanced _ _ entry swept
  · exact keys_balanced _
  · exact stageTombstones_balanced _ _ _ entry buried
  · exact queue_balanced _ _ entry queued
  · exact silent_balanced (fun _ => rfl) (fun _ => rfl) (fun _ => rfl) fun _ => rfl

/-! ### One journal row a batch -/

section
variable {scope : Scope} {operation : String} {journal : List JournalRow} {row : JournalRow}

theorem lt_nextBatch (member : row ∈ journal) (here : row.scope = scope) : row.batch < nextBatch journal scope := by
  have within : row.batch + 1 ∈ (journal.filter (fun row => row.scope == scope)).map (·.batch + 1) :=
    List.mem_map_of_mem (f := fun row : JournalRow => row.batch + 1) (List.mem_filter.mpr ⟨member,by simpa using here⟩)
  unfold nextBatch
  cases top : ((journal.filter (fun row => row.scope == scope)).map (·.batch + 1)).max? with
  | none =>
    rw [List.max?_eq_none_iff] at top
    rw [top] at within
    cases within
  | some highest => exact Nat.lt_of_succ_le ((List.max?_eq_some_iff.mp top).2 _ within)

theorem nextBatch_append (here : row.scope = scope) (batch : row.batch = nextBatch journal scope) :
    nextBatch (journal ++ [row]) scope = row.batch + 1 := by
  have top : (((journal ++ [row]).filter (fun row => row.scope == scope)).map (·.batch + 1)).max? = some (row.batch + 1) := by
    refine List.max?_eq_some_iff.mpr ⟨?_,?_⟩
    · exact List.mem_map_of_mem (f := fun row : JournalRow => row.batch + 1) (List.mem_filter.mpr ⟨by simp,by simpa using here⟩)
    · intro batch member
      obtain ⟨other,inside,rfl⟩ := List.mem_map.mp member
      obtain ⟨inside,own⟩ := List.mem_filter.mp inside
      rcases List.mem_append.mp inside with old | new
      · have below := lt_nextBatch old (by simpa using own)
        omega
      · rw [List.mem_singleton.mp new]
  rw [nextBatch,top]
  rfl

/-- The row a batch has opened, at the end of the journal. -/
structure Opened (scope : Scope) (operation : String) (journal : List JournalRow) (row : JournalRow) : Prop where
  here : row.scope = scope
  under : row.operation = operation
  batch : row.batch = nextBatch journal scope

theorem Opened.enter (opened : Opened scope operation journal row) (changes : Nat) (account : Option Account) :
    Opened scope operation journal (row.enter changes account) := by
  rcases account with _ | account
  · exact opened
  · cases account <;> exact ⟨opened.here,opened.under,opened.batch⟩

/-- Only the open row is counted in. -/
theorem execute_opened (opened : Opened scope operation journal row) (stock : Stock) (entry : Entry) :
    execute scope operation (stock,journal ++ [row]) entry =
      ((entry.statement stock).1,journal ++ [row.enter (entry.statement stock).2 entry.account]) := by
  unfold execute
  cases counted : entry.account with
  | none => rfl
  | some account =>
    have latest := nextBatch_append opened.here opened.batch
    have own : isLatest (journal ++ [row]) scope operation row = true := by
      simp [isLatest,opened.here,opened.under,latest]
    have others : ∀ other ∈ journal, isLatest (journal ++ [row]) scope operation other = false := by
      intro other member
      refine Bool.eq_false_iff.mpr fun chosen => ?_
      simp only [isLatest,Bool.and_eq_true,beq_iff_eq] at chosen
      have below := lt_nextBatch member chosen.1.1
      have same := opened.batch
      omega
    simp only [updateWhere_latest _ others own,JournalRow.enter]

/-- A batch leaves one row, which holds what the batch took away, unless it is empty. -/
theorem accountedBatch_spec {entries : List Entry} (balanced : ∀ entry ∈ entries, entry.Balanced) (now : UnixSeconds)
    (stock : Stock) :
    ∃ row, row.scope = scope ∧ row.operation = operation ∧
      Balance stock (accountedBatch scope operation entries now (stock,journal)).1 row ∧
      (accountedBatch scope operation entries now (stock,journal)).2 =
        deleteWhere (fun row => ofOperation scope operation row && row.isEmpty) (journal ++ [row]) := by
  have through : ∀ (rest : List Entry) (mid : Stock) (row : JournalRow), (∀ entry ∈ rest, entry.Balanced) →
      Opened scope operation journal row → Balance stock mid row →
      ∃ last, Opened scope operation journal last ∧
        Balance stock (rest.foldl (execute scope operation) (mid,journal ++ [row])).1 last ∧
        (rest.foldl (execute scope operation) (mid,journal ++ [row])).2 = journal ++ [last] := by
    intro rest
    induction rest with
    | nil => exact fun mid row _ opened balance => ⟨row,opened,balance,rfl⟩
    | cons entry rest ih =>
      intro mid row each opened balance
      rw [List.foldl_cons,execute_opened opened]
      exact ih _ _ (fun other member => each other (List.mem_cons_of_mem _ member)) (opened.enter _ _)
        (each entry List.mem_cons_self _ _ _ balance)
  obtain ⟨last,opened,balance,is⟩ := through entries stock
    ⟨scope,nextBatch journal scope,0,0,0,0,secondsToSql now,operation⟩ balanced ⟨rfl,rfl,rfl⟩ ⟨rfl,rfl,rfl,rfl,le_refl 0⟩
  refine ⟨last,opened.here,opened.under,balance,?_⟩
  simp only [accountedBatch]
  rw [is]

end

/-! ### Totals -/

/-- What an operation has destroyed, over all its batches. -/
@[ext] structure Totals where
  batches : Nat
  memories : Nat
  derivatives : Nat
  keysDestroyed : Nat
  marked : Nat
  deriving Repr, DecidableEq

def Totals.zero : Totals := ⟨0,0,0,0,0⟩

def Totals.add (left right : Totals) : Totals where
  batches := left.batches + right.batches
  memories := left.memories + right.memories
  derivatives := left.derivatives + right.derivatives
  keysDestroyed := left.keysDestroyed + right.keysDestroyed
  marked := left.marked + right.marked

def JournalRow.totals (row : JournalRow) : Totals := ⟨1,row.memories,row.derivatives,row.keysDestroyed,row.marked⟩

/-- The totals of one durable operation, over all resumed runs. -/
def journalTotals (journal : List JournalRow) (scope : Scope) (operation : String) : Totals :=
  (journal.filter (ofOperation scope operation)).foldl (fun totals row => totals.add row.totals) .zero

/-- The rows that one transaction took away; a batch that took none is not counted as one. -/
def losses (now next : Stock) : Totals :=
  let memories := liveCount now - liveCount next
  let derivatives := derivativeCount now - derivativeCount next
  let marked := unmarkedCount now - unmarkedCount next
  { batches := if memories = 0 ∧ derivatives = 0 ∧ marked = 0 then 0 else 1
    memories := memories
    derivatives := derivatives
    keysDestroyed := keyCount now - keyCount next
    marked := marked }

section
variable {scope owner : Scope} {operation other : String} {journal : List JournalRow} {row : JournalRow}

theorem journalTotals_append (journal : List JournalRow) (row : JournalRow) (scope : Scope) (operation : String) :
    journalTotals (journal ++ [row]) scope operation =
      if ofOperation scope operation row then (journalTotals journal scope operation).add row.totals
      else journalTotals journal scope operation := by
  unfold journalTotals
  rw [List.filter_append,List.foldl_append]
  by_cases here : ofOperation scope operation row = true
  · simp [here]
  · simp [here]

/-- The row of a batch holds its losses. -/
theorem Balance.losses {first now : Stock} (balance : Balance first now row) :
    losses first now = if row.isEmpty then .zero else row.totals := by
  have memories := balance.memories
  have derivatives := balance.derivatives
  have keys := balance.keys
  have marked := balance.marked
  have within := balance.within
  have is : ErasureAccounts.losses first now = ⟨if row.memories = 0 ∧ row.derivatives = 0 ∧ row.marked = 0 then 0 else 1,
      row.memories,row.derivatives,row.keysDestroyed,row.marked⟩ := by
    unfold ErasureAccounts.losses
    rw [memories,derivatives,keys,marked]
    simp
  rw [is]
  by_cases empty : row.isEmpty = true
  · simp only [JournalRow.isEmpty,Bool.and_eq_true,beq_iff_eq] at empty
    have noKeys : row.keysDestroyed = 0 := by omega
    simp [JournalRow.isEmpty,Totals.zero,empty.1.1,empty.1.2,empty.2,noKeys]
  · rw [if_neg empty,if_neg]
    · rfl
    rintro ⟨noMemories,noDerivatives,noMarks⟩
    exact empty (by simp [JournalRow.isEmpty,noMemories,noDerivatives,noMarks])

theorem Totals.add_zero (totals : Totals) : totals.add .zero = totals := rfl

/-- A batch adds its losses to the totals of its operation, and nothing to any other. -/
theorem accountedBatch_totals {entries : List Entry} (balanced : ∀ entry ∈ entries, entry.Balanced) (now : UnixSeconds)
    (stock : Stock) (filled : ∀ row ∈ journal, row.isEmpty = false) :
    (∀ row ∈ (accountedBatch scope operation entries now (stock,journal)).2, row.isEmpty = false) ∧
      journalTotals (accountedBatch scope operation entries now (stock,journal)).2 scope operation =
        (journalTotals journal scope operation).add
          (losses stock (accountedBatch scope operation entries now (stock,journal)).1) ∧
      ∀ owner other, (owner,other) ≠ (scope,operation) →
        journalTotals (accountedBatch scope operation entries now (stock,journal)).2 owner other =
          journalTotals journal owner other := by
  obtain ⟨row,here,under,balance,is⟩ := @accountedBatch_spec scope operation journal _ balanced now stock
  have own : ofOperation scope operation row = true := by simp [ofOperation,here,under]
  have kept : deleteWhere (fun row => ofOperation scope operation row && row.isEmpty) journal = journal := by
    refine List.filter_eq_self.mpr fun row member => ?_
    simp [filled row member]
  rw [balance.losses,is]
  by_cases empty : row.isEmpty = true
  · have all : deleteWhere (fun row => ofOperation scope operation row && row.isEmpty) (journal ++ [row]) = journal := by
      rw [deleteWhere,List.filter_append]
      simp only [deleteWhere] at kept
      rw [kept]
      simp [own,empty]
    rw [all,if_pos empty]
    exact ⟨filled,rfl,fun _ _ _ => rfl⟩
  · have all : deleteWhere (fun row => ofOperation scope operation row && row.isEmpty) (journal ++ [row]) = journal ++ [row] := by
      rw [deleteWhere,List.filter_append]
      simp only [deleteWhere] at kept
      rw [kept]
      simp [own,empty]
    rw [all,if_neg empty]
    refine ⟨?_,?_,?_⟩
    · intro other member
      rcases List.mem_append.mp member with old | new
      · exact filled other old
      · rw [List.mem_singleton.mp new]
        exact Bool.eq_false_iff.mpr empty
    · rw [journalTotals_append,if_pos own]
    · intro owner other apart
      rw [journalTotals_append,if_neg]
      intro same
      simp only [ofOperation,Bool.and_eq_true,beq_iff_eq] at same
      exact apart (by rw [← same.1,← same.2,here,under])

end

end Aicortex.ErasureAccounts
