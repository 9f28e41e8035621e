import Aicortex.Reembedding
import Aicortex.Lib.Capped

/-!
Embedding health of the whole deployment. The scope table lists every scope that was
written to, and the operator's figures are summed over it, a page of scopes at a time,
until there are no more or the time is up. The store goes on meanwhile: no scope is
counted twice, and a walk that was not cut off has counted every scope that was listed
when it began.
-/

namespace Aicortex.Deployment
open Aicortex.Text Aicortex.CivilTime Aicortex.Memories Aicortex.Schema Aicortex.EmbeddingTables Aicortex.ModelRegistry
open Aicortex.Chunking Aicortex.Pipeline Aicortex.EmbeddingReadiness
open Lib.Tables Lib.Outcome Lib.StaleRuns Lib.StaleRuns.System Lib.Ordered
open Aicortex.Claims hiding Unit

/-! ### The scope table -/

/-- A scope as the scope table holds it; its key is the digest of the scope. -/
structure ScopeRow where
  scope : Scope
  created : Nat

/-- The store with its scope table. -/
structure State where
  stock : Stock
  scopes : List ScopeRow

inductive Txn where
  | pipeline (txn : Pipeline.Txn)
  -- a claim is proposed or admitted in a scope
  | claim (scope : Scope) (at' : UnixSeconds)

/-- The memory a transaction of the pipeline inserts. -/
def memoryOf : Pipeline.Txn → Option Memory
  | .life txn _ => insertedBy txn
  | _ => none

section
variable (fingerprint : Memory → String) (config : ChunkConfig) (redigests : Bool) (scopeId : Scope → String)

def ScopeRow.id (row : ScopeRow) : String := scopeId row.scope

/-- Stage the row of a scope; one that is there stays. -/
def ensure (scope : Scope) (created : UnixSeconds) (scopes : List ScopeRow) : List ScopeRow :=
  if scopes.any (fun row => row.id scopeId == scopeId scope) then scopes else scopes ++ [⟨scope,secondsToSql created⟩]

def commit (now : State) : Txn → Except StoreError State
  | .pipeline txn => do
    let stock ← Pipeline.commit fingerprint scopeId now.stock txn
    .ok ⟨stock,(memoryOf txn).elim now.scopes (fun memory => ensure scopeId memory.scope memory.created now.scopes)⟩
  | .claim scope at' => .ok { now with scopes := ensure scopeId scope at' now.scopes }

inductive Stages (history : List State) : Txn → Prop
  | pipeline {txn : Pipeline.Txn} (staged : Pipeline.Stages fingerprint config redigests (history.map State.stock) txn) :
      Stages history (.pipeline txn)
  | claim (scope : Scope) (at' : UnixSeconds) : Stages history (.claim scope at')

def system : System State Txn Txn StoreError :=
  ⟨⟨.empty,[]⟩,commit fingerprint scopeId,fun txn => [txn],Stages fingerprint config redigests⟩

/-- Scope keys in ascending order, strictly after a key, at most a limit. -/
def scopeKeysAfter (scopes : List ScopeRow) (after : Option String) (limit : Nat) : List ScopeRow :=
  Lib.Keyset.page (ScopeRow.id scopeId) limit (after.getD "") scopes

end

/-! ### Figures -/

/-- Scope keys read in one page. -/
def scopePage : Nat := 128

def maxCount : Nat := 2 ^ 64 - 1

def saturatingAdd (left right : Nat) : Nat := Lib.Capped.add maxCount left right

/-- The states that the reads of one scope saw. -/
structure ScopeReads where
  atQueue : Stock
  atLive : Stock
  atTotal : Stock
  atEmbedded : Stock
  atModels : Stock

/-- The figures of one scope. -/
structure Figures where
  queue : QueueHealth
  liveMemories : Nat
  coverage : List Coverage

def figures (reads : ScopeReads) (scope : Scope) (now : UnixSeconds) : Except StoreError Figures := do
  let live ← liveMemoryTotal reads.atLive.holdings scope
  let covered ← Pipeline.coverage reads.atTotal reads.atEmbedded reads.atModels scope
  .ok ⟨queueHealth reads.atQueue scope now,live,covered⟩

/-- The sums so far. -/
structure Sums where
  queue : QueueHealth
  coverage : OrdMap Nat (Nat × Nat)
  liveMemories : Nat
  scopesRead : Nat

namespace Sums

def zero : Sums := ⟨⟨0,0,0,none⟩,.empty,0,0⟩

end Sums

def oldest (left right : Option Nat) : Option Nat :=
  match left,right with
  | some left,some right => some (max left right)
  | left,right => left.or right

def addQueue (queue health : QueueHealth) : QueueHealth where
  pending := saturatingAdd queue.pending health.pending
  dead := saturatingAdd queue.dead health.dead
  quarantined := saturatingAdd queue.quarantined health.quarantined
  oldestPendingAgeSeconds := oldest queue.oldestPendingAgeSeconds health.oldestPendingAgeSeconds

def addCoverage (coverage : OrdMap Nat (Nat × Nat)) (item : Coverage) : OrdMap Nat (Nat × Nat) :=
  coverage.upsert item.revision (0,0) (fun entry => (saturatingAdd entry.1 item.embedded,saturatingAdd entry.2 item.total))

def Sums.add (sums : Sums) (figures : Figures) : Sums where
  queue := addQueue sums.queue figures.queue
  coverage := figures.coverage.foldl addCoverage sums.coverage
  liveMemories := saturatingAdd sums.liveMemories figures.liveMemories
  scopesRead := saturatingAdd sums.scopesRead 1

/-- The deployment-wide report and how much of the deployment it covers. -/
structure DeploymentHealth where
  report : EmbeddingPreflight
  scopesRead : Nat
  complete : Bool

/-- What a walk saw: the active model, the scope table at each page, the states at each
    scope, and at which scopes its time was up. -/
structure Sight where
  atActive : Stock
  page : Nat → State
  scope : Nat → ScopeReads
  late : Nat → Bool

section
variable (scopeId : Scope → String) (sight : Sight) (now : UnixSeconds)

/-- Add up the scopes of a page, as far as the time allows. -/
def readScopes : List ScopeRow → Nat → Sums → Except StoreError (Sums × Bool)
  | [], _, sums => .ok (sums,true)
  | row :: rest, count, sums =>
    if sight.late count then .ok (sums,false)
    else do
      let figures ← figures (sight.scope count) row.scope now
      readScopes rest (count + 1) (sums.add figures)

/-- Page by page, until a page is empty or the time is up. -/
def readPages : Nat → Nat → Option String → Nat → Sums → Option (Except StoreError (Sums × Bool))
  | 0, _, _, _, _ => none
  | fuel + 1, pages, after, count, sums =>
    let page := scopeKeysAfter scopeId (sight.page pages).scopes after scopePage
    match page.getLast? with
    | none => some (.ok (sums,true))
    | some last =>
      match readScopes sight now page count sums with
      | .error refusal => some (.error refusal)
      | .ok (sums,false) => some (.ok (sums,false))
      | .ok (sums,true) => readPages fuel (pages + 1) (some (last.id scopeId)) (count + page.length) sums

def Sums.health (sums : Sums) (active : Option ModelRow) (complete : Bool) : DeploymentHealth where
  report := ⟨active,sums.queue,sums.coverage.entries.map (fun entry => ⟨entry.1,entry.2.1,entry.2.2⟩),sums.liveMemories⟩
  scopesRead := sums.scopesRead
  complete := complete

/-- Sum the scoped observations over every scope, within the time. -/
def readDeployment (fuel : Nat) : Option (Except StoreError DeploymentHealth) :=
  (readPages scopeId sight now fuel 0 none 0 .zero).map
    (fun read => read.map (fun summed => summed.1.health (active sight.atActive.models) summed.2))

end

/-! ### What the store lists -/

section
variable {fingerprint : Memory → String} {config : ChunkConfig} {redigests : Bool} {scopeId : Scope → String}
variable {history : List State} {now next : State}

theorem ensure_prefix (scope : Scope) (created : UnixSeconds) (scopes : List ScopeRow) :
    scopes <+: ensure scopeId scope created scopes := by
  unfold ensure
  split_ifs
  · exact List.prefix_refl _
  · exact List.prefix_append _ _

theorem ensure_there (scope : Scope) (created : UnixSeconds) (scopes : List ScopeRow) :
    ∃ row ∈ ensure scopeId scope created scopes, row.id scopeId = scopeId scope := by
  unfold ensure
  split_ifs with there
  · obtain ⟨row,member,same⟩ := List.any_eq_true.mp there
    exact ⟨row,member,by simpa using same⟩
  · exact ⟨_,List.mem_append_right _ (List.mem_singleton_self _),rfl⟩

theorem ensure_unique (scope : Scope) (created : UnixSeconds) {scopes : List ScopeRow}
    (unique : UniqueBy (ScopeRow.id scopeId) scopes) : UniqueBy (ScopeRow.id scopeId) (ensure scopeId scope created scopes) := by
  unfold ensure
  split_ifs with there
  · exact unique
  · refine unique.insert fun other member same => there ?_
    exact List.any_eq_true.mpr ⟨other,member,beq_iff_eq.mpr same⟩

/-- Every memory is of a scope that is listed, and no scope is listed twice. -/
structure Listed (scopeId : Scope → String) (state : State) : Prop where
  unique : UniqueBy (ScopeRow.id scopeId) state.scopes
  placed : ∀ memory ∈ state.stock.memories, ∃ row ∈ state.scopes, row.id scopeId = scopeId memory.scope

/-- A transaction commits on the stock what its part in the pipeline does, and lists the
    scope of the memory that it writes. -/
theorem commit_cases {txn : Txn} (committed : commit fingerprint scopeId now txn = .ok next) :
    (∃ inner, txn = .pipeline inner ∧ Pipeline.commit fingerprint scopeId now.stock inner = .ok next.stock ∧
        ((memoryOf inner = none ∧ next.scopes = now.scopes) ∨ ∃ memory, memoryOf inner = some memory ∧
          next.scopes = ensure scopeId memory.scope memory.created now.scopes)) ∨
      ∃ scope at', txn = .claim scope at' ∧ next.stock = now.stock ∧ next.scopes = ensure scopeId scope at' now.scopes := by
  cases txn with
  | pipeline inner =>
    obtain ⟨stock,executed,rest⟩ := bind_ok_iff.mp committed
    cases rest
    refine .inl ⟨inner,rfl,executed,?_⟩
    cases written : memoryOf inner with
    | none => exact .inl ⟨rfl,rfl⟩
    | some memory => exact .inr ⟨memory,rfl,rfl⟩
  | claim scope at' =>
    cases committed
    exact .inr ⟨scope,at',rfl,rfl,rfl⟩

theorem commit_scopes {txn : Txn} (committed : commit fingerprint scopeId now txn = .ok next) : now.scopes <+: next.scopes := by
  rcases commit_cases committed with ⟨inner,-,-,⟨-,same⟩ | ⟨memory,-,ensured⟩⟩ | ⟨scope,at',-,-,ensured⟩
  · rw [same]
  · rw [ensured]
    exact ensure_prefix _ _ _
  · rw [ensured]
    exact ensure_prefix _ _ _

theorem listed_next {txn : Txn} (staged : Stages fingerprint config redigests history txn) (listed : Listed scopeId now)
    (committed : commit fingerprint scopeId now txn = .ok next) : Listed scopeId next := by
  have stays := (commit_scopes committed).subset
  rcases commit_cases committed with ⟨inner,rfl,executed,scopes⟩ | ⟨scope,at',-,same,ensured⟩
  · cases staged with
    | pipeline staged =>
      have grown := Reembedding.commit_grown staged executed
      constructor
      · rcases scopes with ⟨-,same⟩ | ⟨memory,-,ensured⟩
        · rw [same]
          exact listed.unique
        · rw [ensured]
          exact ensure_unique _ _ listed.unique
      · intro row member
        rcases grown.origin row member with ⟨old,was,-,kept⟩ | ⟨-,memory,⟨life,target,rfl,inserted⟩,-,kept⟩
        · obtain ⟨there,inside,same⟩ := listed.placed old was
          exact ⟨there,stays inside,by rw [kept.scope,same]⟩
        · have written : memoryOf (.life life target) = some memory := inserted
          rcases scopes with ⟨none',-⟩ | ⟨other,is,ensured⟩
          · rw [written] at none'
            cases none'
          · rw [written] at is
            cases is
            rw [ensured,kept.scope]
            exact ensure_there _ _ _
  · constructor
    · rw [ensured]
      exact ensure_unique _ _ listed.unique
    · rw [same]
      intro row member
      obtain ⟨there,inside,is⟩ := listed.placed row member
      exact ⟨there,stays inside,is⟩

theorem stages_fit : (system fingerprint config redigests scopeId).Fits (Stages fingerprint config redigests) := by
  intro history txn staged move within
  rw [List.mem_singleton.mp within]
  exact staged

theorem listed_keeps :
    Keeps (system fingerprint config redigests scopeId) (fun _ _ => True) (Stages fingerprint config redigests)
      (Listed scopeId) (fun seen now => seen.scopes <+: now.scopes) := by
  refine ⟨fun state => List.prefix_refl _,fun first second third => List.IsPrefix.trans,?_,?_⟩
  · exact ⟨List.nodup_nil,fun memory member => nomatch member⟩
  · intro history now txn next trail listed staged _ committed
    exact ⟨listed_next staged listed committed,commit_scopes committed⟩

/-- No memory derived from itself is erased with its derivatives. -/
def Spares (now : State) : Txn → Prop
  | .pipeline txn => EmbeddingReadiness.Spares now.stock txn
  | .claim _ _ => True

/-- What the pipeline keeps is kept of the stock. -/
theorem stock_keeps {Inv : Stock → Prop} {Since : Stock → Stock → Prop} {Meets : Stock → Pipeline.Txn → Prop}
    {Meets' : State → Txn → Prop} (meets : ∀ now txn, Meets' now (.pipeline txn) → Meets now.stock txn)
    (keeps : Keeps (Pipeline.system fingerprint config redigests scopeId) Meets (Pipeline.Stages fingerprint config redigests)
      Inv Since) :
    Keeps (system fingerprint config redigests scopeId) Meets' (Stages fingerprint config redigests)
      (fun state => Inv state.stock) (fun seen now => Since seen.stock now.stock) := by
  refine keeps.lift Pipeline.stages_fit rfl ?_
  intro history now txn next staged spares committed
  rcases commit_cases committed with ⟨inner,rfl,executed,-⟩ | ⟨scope,at',-,same,-⟩
  · cases staged with
    | pipeline staged =>
      refine .inr ⟨inner,staged,⟨meets now inner spares,fun _ _ => trivial⟩,?_⟩
      simp only [System.commit,Pipeline.system,List.foldlM_cons,List.foldlM_nil,executed]
      rfl
  · exact .inl same

end

/-! ### What a walk counts -/

section
variable {scopeId : Scope → String} {sight : Sight} {now : UnixSeconds}

/-- The figures of scopes read one after the other, from a number of scopes on. -/
inductive Counted (sight : Sight) (now : UnixSeconds) : Nat → List ScopeRow → List Figures → Prop
  | nil (count : Nat) : Counted sight now count [] []
  | cons {count : Nat} {row : ScopeRow} {first : Figures} {rows : List ScopeRow} {rest : List Figures}
      (read : figures (sight.scope count) row.scope now = .ok first) (later : Counted sight now (count + 1) rows rest) :
      Counted sight now count (row :: rows) (first :: rest)

theorem Counted.append {count : Nat} {rows others : List ScopeRow} {counted further : List Figures}
    (first : Counted sight now count rows counted) (second : Counted sight now (count + rows.length) others further) :
    Counted sight now count (rows ++ others) (counted ++ further) := by
  induction first with
  | nil count => simpa using second
  | cons read later ih =>
    refine .cons read (ih ?_)
    rwa [List.length_cons,Nat.add_comm _ 1,← Nat.add_assoc] at second

theorem Counted.length {count : Nat} {rows : List ScopeRow} {counted : List Figures} (read : Counted sight now count rows counted) :
    counted.length = rows.length := by
  induction read with
  | nil count => rfl
  | cons read later ih => rw [List.length_cons,List.length_cons,ih]

theorem Counted.get {count : Nat} {rows : List ScopeRow} {counted : List Figures} (read : Counted sight now count rows counted)
    {figure : Figures} (member : figure ∈ counted) :
    ∃ index, ∃ row ∈ rows, figures (sight.scope index) row.scope now = .ok figure := by
  induction read with
  | nil count => cases member
  | @cons count row first rows rest read later ih =>
    rcases List.mem_cons.mp member with rfl | inside
    · exact ⟨count,row,List.mem_cons_self,read⟩
    · obtain ⟨index,other,there,is⟩ := ih inside
      exact ⟨index,other,List.mem_cons_of_mem _ there,is⟩

/-- What was counted of a page: its front, and all of it unless the time was up. -/
theorem readScopes_ok {page : List ScopeRow} {count : Nat} {sums after : Sums} {whole : Bool}
    (read : readScopes sight now page count sums = .ok (after,whole)) :
    ∃ front counted, front <+: page ∧ Counted sight now count front counted ∧ after = counted.foldl Sums.add sums ∧
      ((whole = true ∧ front = page) ∨ (whole = false ∧ sight.late (count + front.length) = true)) := by
  induction page generalizing count sums with
  | nil =>
    cases read
    exact ⟨[],[],List.prefix_refl _,.nil count,rfl,.inl ⟨rfl,rfl⟩⟩
  | cons row rest ih =>
    unfold readScopes at read
    split_ifs at read with late
    · cases read
      exact ⟨[],[],List.nil_prefix,.nil count,rfl,.inr ⟨rfl,by simpa using late⟩⟩
    · obtain ⟨first,figured,further⟩ := bind_ok_iff.mp read
      obtain ⟨front,counted,part,met,is,how⟩ := ih further
      refine ⟨row :: front,first :: counted,List.cons_prefix_cons.mpr ⟨rfl,part⟩,.cons figured met,is,?_⟩
      rcases how with ⟨all,rfl⟩ | ⟨cut,spent⟩
      · exact .inl ⟨all,rfl⟩
      · refine .inr ⟨cut,?_⟩
        rwa [List.length_cons,Nat.add_comm front.length 1,← Nat.add_assoc]

/-- What a walk met: everything, or what came before the time was up. -/
inductive Met (scopeId : Scope → String) (sight : Sight) : List ScopeRow → Bool → Prop
  | all {last : Nat} {visited : List ScopeRow}
      (walk : Lib.Keyset.Walk (ScopeRow.id scopeId) scopePage (fun read => (sight.page read).scopes) 0 last "" visited) :
      Met scopeId sight visited true
  | cut {index : Nat} {after : String} {visited earlier : List ScopeRow}
      (reading : Lib.Keyset.Reading (ScopeRow.id scopeId) scopePage (fun read => (sight.page read).scopes) "" index after earlier)
      (part : visited <+: earlier) (spent : sight.late visited.length = true) : Met scopeId sight visited false

theorem readPages_ok {fuel pages : Nat} {after : Option String} {earlier : List ScopeRow} {before : List Figures}
    {sums : Sums} {whole : Bool}
    (reading : Lib.Keyset.Reading (ScopeRow.id scopeId) scopePage (fun read => (sight.page read).scopes) "" pages
      (after.getD "") earlier)
    (counted : Counted sight now 0 earlier before)
    (read : readPages scopeId sight now fuel pages after earlier.length (before.foldl Sums.add .zero) = some (.ok (sums,whole))) :
    ∃ visited figures, Counted sight now 0 visited figures ∧ sums = figures.foldl Sums.add .zero ∧
      Met scopeId sight visited whole := by
  induction fuel generalizing pages after earlier before with
  | zero => cases read
  | succ fuel ih =>
    unfold readPages at read
    dsimp only at read
    split at read
    · next ends =>
      cases read
      have nothing : Lib.Keyset.page (ScopeRow.id scopeId) scopePage (after.getD "") (sight.page pages).scopes = [] :=
        List.getLast?_eq_none_iff.mp ends
      have short : (Lib.Keyset.page (ScopeRow.id scopeId) scopePage (after.getD "") (sight.page pages).scopes).length < scopePage := by
        rw [nothing]
        decide
      have walk := reading.walk (.ends short)
      rw [nothing,List.append_nil] at walk
      exact ⟨earlier,before,counted,rfl,.all walk⟩
    · next last ends =>
      have further := reading.turns ends
      split at read
      · cases read
      · next cut summed =>
        cases read
        obtain ⟨front,figures,part,met,rfl,⟨all,-⟩ | ⟨-,late⟩⟩ := readScopes_ok summed
        · cases all
        · refine ⟨earlier ++ front,before ++ figures,counted.append (by rwa [Nat.zero_add]),List.foldl_append.symm,?_⟩
          rw [← List.length_append] at late
          exact .cut further ((List.prefix_append_right_inj earlier).mpr part) late
      · next passed summed =>
        obtain ⟨front,figures,-,met,rfl,⟨-,rfl⟩ | ⟨cut,-⟩⟩ := readScopes_ok summed
        · have joined : Counted sight now 0 _ (before ++ figures) := counted.append (by rwa [Nat.zero_add])
          refine @ih (pages + 1) (some (last.id scopeId)) _ _ further joined ?_
          rw [List.length_append,List.foldl_append]
          exact read
        · cases cut

/-- No scope is met twice. -/
theorem Met.ascending {visited : List ScopeRow} {whole : Bool} (met : Met scopeId sight visited whole)
    (unique : ∀ read, UniqueBy (ScopeRow.id scopeId) (sight.page read).scopes) :
    visited.Pairwise (fun left right => left.id scopeId < right.id scopeId) := by
  cases met with
  | all walk => exact walk.ascending unique
  | cut reading part spent => exact (reading.ascending unique).1.sublist part.sublist

theorem Met.listed {visited : List ScopeRow} {whole : Bool} (met : Met scopeId sight visited whole) {row : ScopeRow}
    (member : row ∈ visited) : ∃ read, row ∈ (sight.page read).scopes := by
  cases met with
  | all walk =>
    obtain ⟨-,read,-,-,within⟩ := walk.mem member
    exact ⟨read,within⟩
  | cut reading part spent =>
    obtain ⟨read,-,within⟩ := reading.mem (part.subset member)
    exact ⟨read,within⟩

/-- A scope that was listed all along is met by a walk that was not cut off. -/
theorem Met.meets {visited : List ScopeRow} (met : Met scopeId sight visited true)
    (unique : ∀ read, UniqueBy (ScopeRow.id scopeId) (sight.page read).scopes) {row : ScopeRow} (named : row.id scopeId ≠ "")
    (present : ∀ read, row ∈ (sight.page read).scopes) : row ∈ visited := by
  cases met with
  | all walk =>
    have least : ¬row.id scopeId < "" := by
      intro below
      rw [String.lt_iff_toList_lt] at below
      exact List.not_lt_nil _ below
    have beyond : "" < row.id scopeId := lt_of_le_of_ne (not_lt.mp least) (Ne.symm named)
    exact walk.complete unique beyond fun read _ _ => present read

end

/-! ### What the sums come to -/

/-- The amounts of one revision over all coverage that was counted. -/
def ofRevision (revision : Nat) (counted : List Figures) : List Coverage :=
  (counted.flatMap Figures.coverage).filter (fun item => decide (item.revision = revision))

def capped (amounts : List Nat) : Nat := min amounts.sum maxCount

/-- The counts of a report are the sums of what was counted, up to the largest count; its
    age is the largest one, and each revision that was met is summed by itself. -/
structure Totals (counted : List Figures) (health : DeploymentHealth) : Prop where
  pending : health.report.queue.pending = capped (counted.map (fun figures => figures.queue.pending))
  dead : health.report.queue.dead = capped (counted.map (fun figures => figures.queue.dead))
  quarantined : health.report.queue.quarantined = capped (counted.map (fun figures => figures.queue.quarantined))
  oldest : health.report.queue.oldestPendingAgeSeconds =
    (counted.filterMap (fun figures => figures.queue.oldestPendingAgeSeconds)).max?
  live : health.report.liveMemories = capped (counted.map Figures.liveMemories)
  covered : ∀ item, item ∈ health.report.coverage ↔ ofRevision item.revision counted ≠ [] ∧
    item.embedded = capped ((ofRevision item.revision counted).map Coverage.embedded) ∧
    item.total = capped ((ofRevision item.revision counted).map Coverage.total)
  ordered : health.report.coverage.Pairwise (fun left right => left.revision < right.revision)
  read : health.scopesRead = min counted.length maxCount

theorem oldest_max (ages : List (Option Nat)) : ages.foldl oldest none = (ages.filterMap id).max? := by
  have from' : ∀ (start : Option Nat), ages.foldl oldest start = (start.toList ++ ages.filterMap id).max? := by
    induction ages with
    | nil =>
      intro start
      cases start with
      | none => rfl
      | some age => rfl
    | cons age rest ih =>
      intro start
      rw [List.foldl_cons,ih]
      cases start with
      | none =>
        cases age with
        | none => rfl
        | some age => rfl
      | some left =>
        cases age with
        | none => rfl
        | some right => rfl
  exact from' none

theorem addCoverage_at (items : List Coverage) (value : Option (Nat × Nat)) (first : (value.getD (0,0)).1 ≤ maxCount)
    (second : (value.getD (0,0)).2 ≤ maxCount) :
    items.foldl (fun value item => some (saturatingAdd (value.getD (0,0)).1 item.embedded,saturatingAdd (value.getD (0,0)).2 item.total))
        value =
      if items = [] then value else some
        (min ((value.getD (0,0)).1 + (items.map Coverage.embedded).sum) maxCount,
          min ((value.getD (0,0)).2 + (items.map Coverage.total).sum) maxCount) := by
  induction items generalizing value with
  | nil => rfl
  | cons item rest ih =>
    rw [List.foldl_cons,ih _ (Lib.Capped.add_le _ _ _) (Lib.Capped.add_le _ _ _)]
    simp only [Option.getD_some,saturatingAdd,Lib.Capped.add,reduceCtorEq,if_false,List.map_cons,List.sum_cons]
    split_ifs with empty
    · subst empty
      simp
    · refine congrArg some (Prod.ext ?_ ?_)
      · dsimp only
        omega
      · dsimp only
        omega

theorem foldl_coverage (counted : List Figures) (sums : Sums) :
    (counted.foldl Sums.add sums).coverage = (counted.flatMap Figures.coverage).foldl addCoverage sums.coverage := by
  induction counted generalizing sums with
  | nil => rfl
  | cons first rest ih =>
    rw [List.foldl_cons,ih,List.flatMap_cons,List.foldl_append]
    rfl

theorem foldl_queue (counted : List Figures) (sums : Sums) :
    (counted.foldl Sums.add sums).queue = counted.foldl (fun queue figures => addQueue queue figures.queue) sums.queue := by
  induction counted generalizing sums with
  | nil => rfl
  | cons first rest ih => exact ih _

theorem foldl_counts (counted : List Figures) (sums : Sums) :
    (counted.foldl Sums.add sums).liveMemories =
        counted.foldl (fun total figures => saturatingAdd total figures.liveMemories) sums.liveMemories ∧
      (counted.foldl Sums.add sums).scopesRead = counted.foldl (fun total _ => saturatingAdd total 1) sums.scopesRead := by
  induction counted generalizing sums with
  | nil => exact ⟨rfl,rfl⟩
  | cons first rest ih => exact ih _

theorem foldl_addQueue (counted : List Figures) (queue : QueueHealth) :
    counted.foldl (fun queue figures => addQueue queue figures.queue) queue =
      ⟨counted.foldl (fun total figures => saturatingAdd total figures.queue.pending) queue.pending,
        counted.foldl (fun total figures => saturatingAdd total figures.queue.dead) queue.dead,
        counted.foldl (fun total figures => saturatingAdd total figures.queue.quarantined) queue.quarantined,
        (counted.map (fun figures => figures.queue.oldestPendingAgeSeconds)).foldl oldest queue.oldestPendingAgeSeconds⟩ := by
  induction counted generalizing queue with
  | nil => rfl
  | cons first rest ih => exact ih _

theorem health_totals (counted : List Figures) (active : Option ModelRow) (complete : Bool) :
    Totals counted ((counted.foldl Sums.add .zero).health active complete) := by
  have sums : ∀ amount : Figures → Nat, counted.foldl (fun total figures => saturatingAdd total (amount figures)) 0 =
      capped (counted.map amount) := by
    intro amount
    rw [capped,← Nat.zero_add (counted.map amount).sum]
    exact Lib.Capped.foldl_add maxCount amount counted (Nat.zero_le _)
  have queue := (foldl_queue counted .zero).trans (foldl_addQueue counted _)
  obtain ⟨live,read⟩ := foldl_counts counted .zero
  have at' : ∀ revision, (counted.foldl Sums.add .zero).coverage.find? revision =
      if ofRevision revision counted = [] then none else some
        (capped ((ofRevision revision counted).map Coverage.embedded),capped ((ofRevision revision counted).map Coverage.total)) := by
    intro revision
    rw [foldl_coverage]
    refine (Lib.Capped.find?_updates Coverage.revision (0,0) (fun item entry =>
      (saturatingAdd entry.1 item.embedded,saturatingAdd entry.2 item.total)) _ _ revision).trans ?_
    refine (addCoverage_at _ _ (Nat.zero_le _) (Nat.zero_le _)).trans ?_
    simp only [ofRevision,capped,Sums.zero,OrdMap.find?_empty,Option.getD_none,Nat.zero_add]
    rfl
  refine ⟨?_,?_,?_,?_,?_,?_,?_,?_⟩
  · exact (congrArg QueueHealth.pending queue).trans (sums fun figures => figures.queue.pending)
  · exact (congrArg QueueHealth.dead queue).trans (sums fun figures => figures.queue.dead)
  · exact (congrArg QueueHealth.quarantined queue).trans (sums fun figures => figures.queue.quarantined)
  · refine (congrArg QueueHealth.oldestPendingAgeSeconds queue).trans ?_
    refine (oldest_max _).trans ?_
    rw [List.filterMap_map]
    rfl
  · exact live.trans (sums Figures.liveMemories)
  · intro item
    have entry := OrdMap.find?_iff_mem (counted.foldl Sums.add .zero).coverage item.revision (item.embedded,item.total)
    rw [at'] at entry
    have listed : item ∈ ((counted.foldl Sums.add .zero).health active complete).report.coverage ↔
        (item.revision,(item.embedded,item.total)) ∈ (counted.foldl Sums.add .zero).coverage.entries := by
      simp only [Sums.health,List.mem_map]
      constructor
      · rintro ⟨entry,member,rfl⟩
        exact member
      · exact fun member => ⟨_,member,rfl⟩
    rw [listed,← entry]
    split_ifs with empty
    · simp [empty]
    · simp only [Option.some.injEq,Prod.mk.injEq,ne_eq,empty,not_false_eq_true,true_and]
      exact and_congr eq_comm eq_comm
  · exact List.pairwise_map.mpr (counted.foldl Sums.add .zero).coverage.sorted
  · refine read.trans ?_
    refine (sums fun _ => 1).trans ?_
    simp [capped]

/-! ### Counted once -/

section
variable {scopeId : Scope → String} {sight : Sight} {now : UnixSeconds}

theorem readScopes_total (readable : ∀ index scope, ∃ figure, figures (sight.scope index) scope now = .ok figure)
    (page : List ScopeRow) (count : Nat) (sums : Sums) : ∃ summed, readScopes sight now page count sums = .ok summed := by
  induction page generalizing count sums with
  | nil => exact ⟨_,rfl⟩
  | cons row rest ih =>
    unfold readScopes
    split_ifs with late
    · exact ⟨_,rfl⟩
    · obtain ⟨figure,read⟩ := readable count row.scope
      obtain ⟨summed,further⟩ := ih (count + 1) (sums.add figure)
      exact ⟨summed,by rw [read]; exact further⟩

/-- Where everything can be read a walk ends well once its time is up. -/
theorem readPages_ends (readable : ∀ index scope, ∃ figure, figures (sight.scope index) scope now = .ok figure) {bound : Nat}
    (ends : ∀ count, bound ≤ count → sight.late count = true) {fuel pages : Nat} {after : Option String} {count : Nat}
    {sums : Sums} (some' : 0 < fuel) (enough : bound < fuel + count) :
    ∃ summed, readPages scopeId sight now fuel pages after count sums = some (.ok summed) := by
  induction fuel generalizing pages after count sums with
  | zero => omega
  | succ fuel ih =>
    unfold readPages
    dsimp only
    split
    · exact ⟨_,rfl⟩
    · next last is =>
      obtain ⟨⟨after',whole⟩,summed⟩ := readScopes_total readable (scopeKeysAfter scopeId (sight.page pages).scopes after scopePage)
        count sums
      rw [summed]
      cases whole with
      | false => exact ⟨_,rfl⟩
      | true =>
        have inside := List.length_pos_of_mem (List.mem_of_getLast? is)
        have early : sight.late count = false := by
          obtain ⟨row,rest,nonempty⟩ := List.exists_cons_of_length_pos inside
          rw [nonempty] at summed
          unfold readScopes at summed
          split_ifs at summed with late
          · cases summed
          · exact Bool.eq_false_iff.mpr late
        have before : count < bound := by
          by_contra past
          rw [ends count (Nat.le_of_not_lt past)] at early
          cases early
        exact ih (by omega) (by omega)

/-- The figures of a scope where the counters are exact. -/
theorem figures_ok {reads : ScopeReads} (live : CounterAccuracy.Accurate reads.atLive.holdings)
    (total : CounterAccuracy.Accurate reads.atTotal.holdings) (scope : Scope) :
    figures reads scope now = .ok ⟨queueHealth reads.atQueue scope now,liveRows reads.atLive scope,
      reads.atModels.models.map (fun model =>
        ⟨model.revision,embeddingCoverage reads.atEmbedded scope model.revision,liveRows reads.atTotal scope⟩)⟩ := by
  unfold figures Pipeline.coverage
  rw [liveMemoryTotal_accurate live,liveMemoryTotal_accurate total]
  rfl

end

/-- What a walk beside a run saw: states of the run, the pages in order. -/
structure Sees (history : List State) (sight : Sight) : Prop where
  pages : ∀ index, InOrder history (sight.page index) (sight.page (index + 1))
  active : sight.atActive ∈ history.map State.stock
  scopes : ∀ index, (sight.scope index).atQueue ∈ history.map State.stock ∧ (sight.scope index).atLive ∈ history.map State.stock ∧
    (sight.scope index).atTotal ∈ history.map State.stock ∧ (sight.scope index).atEmbedded ∈ history.map State.stock ∧
    (sight.scope index).atModels ∈ history.map State.stock

section
variable {fingerprint : Memory → String} {config : ChunkConfig} {scopeId : Scope → String}

theorem run_accurate {log : List (Txn × State)} (run : Run (system fingerprint config false scopeId) Spares log) {stock : Stock}
    (member : stock ∈ ((system fingerprint config false scopeId).states log).map State.stock) :
    CounterAccuracy.Accurate stock.holdings := by
  obtain ⟨state,inside,rfl⟩ := List.mem_map.mp member
  have keeps := @stock_keeps fingerprint config false scopeId _ _ EmbeddingReadiness.Spares Spares (fun _ _ spares => spares)
    accurate_lifted
  exact ((run.trail stages_fit keeps).held state inside).2

/-- Whatever is committed beside it, a walk whose time is limited ends in a report. It has
    counted no scope twice, each by figures that it had at some time, and the report is
    their sums; when it says that it is complete, every scope that was listed when the walk
    began is counted, and when not, the time was up. -/
theorem counted_once {log : List (Txn × State)} (run : Run (system fingerprint config false scopeId) Spares log)
    (named : ∀ scope, scopeId scope ≠ "") {sight : Sight} (sees : Sees ((system fingerprint config false scopeId).states log) sight)
    {bound : Nat} (ends : ∀ count, bound ≤ count → sight.late count = true) (now : UnixSeconds) :
    ∃ health visited counted, readDeployment scopeId sight now (bound + 1) = some (.ok health) ∧
      Counted sight now 0 visited counted ∧ Totals counted health ∧
      visited.Pairwise (fun left right => left.id scopeId < right.id scopeId) ∧
      (∀ row ∈ visited, ∃ read, row ∈ (sight.page read).scopes) ∧
      (health.complete = true → ∀ row ∈ (sight.page 0).scopes, row ∈ visited) ∧
      (health.complete = false → sight.late visited.length = true) := by
  have trail := run.free.trail stages_fit listed_keeps
  have unique : ∀ read, UniqueBy (ScopeRow.id scopeId) (sight.page read).scopes :=
    fun read => (trail.held _ (sees.pages read).mem_first).unique
  have readable : ∀ index scope, ∃ figure, figures (sight.scope index) scope now = .ok figure := by
    intro index scope
    obtain ⟨-,live,total,-,-⟩ := sees.scopes index
    exact ⟨_,figures_ok (run_accurate run live) (run_accurate run total) scope⟩
  have grows : ∀ {row : ScopeRow}, row ∈ (sight.page 0).scopes → ∀ read, row ∈ (sight.page read).scopes := by
    intro row member read
    induction read with
    | zero => exact member
    | succ read ih => exact (trail.since_in_order (fun _ => List.prefix_refl _) (sees.pages read)).subset ih
  obtain ⟨⟨sums,whole⟩,read⟩ := @readPages_ends scopeId sight now readable bound ends (bound + 1) 0 none 0 .zero
    (Nat.succ_pos _) (Nat.lt_succ_self _)
  obtain ⟨visited,counted,figured,rfl,met⟩ := @readPages_ok scopeId sight now _ 0 none [] [] sums whole .start (.nil 0) read
  refine ⟨(counted.foldl Sums.add .zero).health (active sight.atActive.models) whole,visited,counted,?_,figured,
    health_totals counted _ whole,met.ascending unique,fun row member => met.listed member,?_,?_⟩
  · rw [readDeployment,read]
    rfl
  · intro complete row member
    have all : whole = true := complete
    subst all
    exact met.meets unique (named row.scope) (grows member)
  · intro partial'
    have cut : whole = false := partial'
    subst cut
    cases met with
    | cut reading part spent => exact spent

end

/-! ### Beside the pipeline alone -/

section
variable {fingerprint : Memory → String} {config : ChunkConfig} {redigests : Bool} {scopeId : Scope → String}

/-- A log of the pipeline with the scopes it lists. -/
def alongside (scopeId : Scope → String) : List (Pipeline.Txn × Stock) → List (Txn × State)
  | [] => []
  | (txn,stock) :: older =>
    let log := alongside scopeId older
    let scopes := (log.head?.map (fun entry => entry.2.scopes)).getD []
    (.pipeline txn,⟨stock,(memoryOf txn).elim scopes (fun memory => ensure scopeId memory.scope memory.created scopes)⟩) :: log

theorem alongside_current (log : List (Pipeline.Txn × Stock)) :
    (system fingerprint config redigests scopeId).current (alongside scopeId log) =
      ⟨(Pipeline.system fingerprint config redigests scopeId).current log,
        ((alongside scopeId log).head?.map (fun entry => entry.2.scopes)).getD []⟩ := by
  cases log with
  | nil => rfl
  | cons entry older => rfl

theorem alongside_states (log : List (Pipeline.Txn × Stock)) :
    ((system fingerprint config redigests scopeId).states (alongside scopeId log)).map State.stock =
      (Pipeline.system fingerprint config redigests scopeId).states log := by
  induction log with
  | nil => rfl
  | cons entry older ih =>
    obtain ⟨txn,stock⟩ := entry
    exact congrArg (stock :: ·) ih

/-- A run of the pipeline is one of the deployment. -/
theorem run_alongside {log : List (Pipeline.Txn × Stock)}
    (run : Run (Pipeline.system fingerprint config redigests scopeId) EmbeddingReadiness.Spares log) :
    Run (system fingerprint config redigests scopeId) Spares (alongside scopeId log) := by
  induction run with
  | start => exact .start
  | @step log txn next run staged meet committed ih =>
    have executed := commit_single rfl committed
    refine ih.step (.pipeline ?_) ⟨?_,fun _ _ => trivial⟩ ?_
    · rw [alongside_states]
      exact staged
    · rw [alongside_current]
      exact meet.1
    · rw [alongside_current]
      have whole : commit fingerprint scopeId ⟨(Pipeline.system fingerprint config redigests scopeId).current log,
          ((alongside scopeId log).head?.map (fun entry => entry.2.scopes)).getD []⟩ (.pipeline txn) =
            .ok ⟨next,(memoryOf txn).elim (((alongside scopeId log).head?.map (fun entry => entry.2.scopes)).getD [])
              (fun memory => ensure scopeId memory.scope memory.created
                (((alongside scopeId log).head?.map (fun entry => entry.2.scopes)).getD []))⟩ := by
        simp only [commit]
        rw [show Pipeline.commit fingerprint scopeId ((Pipeline.system fingerprint config redigests scopeId).current log) txn =
          .ok next from executed]
        rfl
      simp only [System.commit,system,List.foldlM_cons,List.foldlM_nil,whole]
      rfl

end

namespace Sample
open Claims.Sample hiding secondId
open Store.Sample Lifecycle.Sample Pipeline.Sample

def deployment : System State Txn Txn StoreError := system textOf Pipeline.Sample.config false Scope.display

theorem display_named (scope : Scope) : scope.display ≠ "" := by
  intro same
  have empty := congrArg String.length same
  simp [Scope.display,String.length_append] at empty

/-- A note is captured and embedded. -/
def noted : List (Txn × State) := alongside Scope.display stored

theorem run_noted : Run deployment Spares noted := by
  refine run_alongside ?_
  have captured' : Run (pipeline false) EmbeddingReadiness.Spares prepared :=
    run_claimedWork (run_captured (run_activated .start fun _ => trivial) (noted_admitted aisle_passes _ _ _ _)
      fun _ _ => trivial) fun _ => trivial
  exact run_worked captured' (by decide +kernel) (by decide +kernel) fun _ => trivial

def current : State := deployment.current noted

/-- A walk that has time for one scope. -/
def sight : Sight := ⟨current.stock,fun _ => current,
  fun _ => ⟨current.stock,current.stock,current.stock,current.stock,current.stock⟩,fun count => decide (1 ≤ count)⟩

theorem counted_once_noted : ∃ health visited counted,
    readDeployment Scope.display sight 30 2 = some (.ok health) ∧
      Counted sight 30 0 visited counted ∧ Totals counted health ∧
      visited.Pairwise (fun left right => left.id Scope.display < right.id Scope.display) ∧
      (∀ row ∈ visited, ∃ read, row ∈ (sight.page read).scopes) ∧
      (health.complete = true → ∀ row ∈ (sight.page 0).scopes, row ∈ visited) ∧
      (health.complete = false → sight.late visited.length = true) := by
  have read : current.stock ∈ (deployment.states noted).map State.stock := List.mem_map_of_mem (deployment.current_mem noted)
  have sees : Sees (deployment.states noted) sight :=
    ⟨fun _ => deployment.current_inOrder noted,read,fun _ => ⟨read,read,read,read,read⟩⟩
  exact counted_once run_noted display_named sees (fun count past => decide_eq_true past) 30

end Sample

end Aicortex.Deployment
