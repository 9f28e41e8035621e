import Aicortex.EmbeddingTables
import Aicortex.IdText
import Aicortex.Lib.Keyset
import Aicortex.Lib.Selection
import Mathlib.Data.Prod.Lex
import Mathlib.Order.OrderDual

/-!
The paged scan for the nearest chunks. One statement selects the comparable vectors
of a scope; they are read page by page behind a keyset cursor, scored against the
query, and the best of them kept in a heap of a fixed size. What the scan returns
is the front of the whole order, and a table that changes between two pages neither
hides a standing row nor shows it twice.
-/

namespace Aicortex.Scan
open Lib.Tables Lib.Outcome
open Aicortex.Text Aicortex.IdText Aicortex.Schema Aicortex.EmbeddingTables
open Aicortex.Claims hiding Unit
set_option linter.unusedSimpArgs false

/-! ### Vectors -/

/-- The arithmetic of single-precision vectors. `scaled` gives unit length, and nothing
    for a vector without a direction; scores are compared in a total order. -/
structure Metric (Word Score : Type) where
  fromLeBytes : UInt8 → UInt8 → UInt8 → UInt8 → Word
  isFinite : Word → Bool
  scaled : List Word → Option (List Word)
  dot : List Word → List Word → Score

inductive VectorError where
  | length (dims bytes : Nat)
  | width (expected actual : Nat)
  | nonFinite
  | zeroNorm
  deriving Repr, DecidableEq

def VectorError.message : VectorError → String
  | .length dims bytes => s!"vector records {dims} dimensions but holds {bytes} bytes, not {dims * 4}"
  | .width expected actual => s!"vector has {actual} dimensions where {expected} are compared"
  | .nonFinite => "vector holds a value that is not finite"
  | .zeroNorm => "vector has zero length and no direction"

/-- A bad query is the caller's fault, a bad stored vector the store's. -/
def VectorError.toError (error : VectorError) : StoreError :=
  match error with
  | .width _ _ => .validation error.message
  | .zeroNorm => .validation error.message
  | .length _ _ => .integrity error.message
  | .nonFinite => .integrity error.message

section Vectors
variable {Word Score : Type} (metric : Metric Word Score)

def words : Bytes → List Word
  | a :: b :: c :: d :: rest => metric.fromLeBytes a b c d :: words rest
  | _ => []

def decodeInto (bytes : Bytes) (dims : Nat) : Except VectorError (List Word) :=
  if bytes.length ≠ dims * 4 then .error (.length dims bytes.length)
  else if (words metric bytes).all metric.isFinite then .ok (words metric bytes)
  else .error .nonFinite

def normalize (values : List Word) : Except VectorError (List Word) :=
  if values.any (fun value => !metric.isFinite value) then .error .nonFinite
  else
    match metric.scaled values with
    | none => .error .zeroNorm
    | some unit => .ok unit

end Vectors

/-! ### The bounded heap -/

structure Entry (Score T : Type) where
  score : Score
  chunkId : String
  payload : T
  deriving DecidableEq

section Heap
variable {Score T : Type} [LinearOrder Score]

/-- Greater is better: the higher score, then the smaller chunk id. -/
def rank (score : Score) (chunkId : String) : Lex (Score × Stringᵒᵈ) := toLex (score,OrderDual.toDual chunkId)

def Entry.rank (entry : Entry Score T) : Lex (Score × Stringᵒᵈ) := Scan.rank entry.score entry.chunkId

/-- At most `k` best entries. The heap is kept in order, its root, the worst retained entry, first. -/
structure TopK (Score T : Type) where
  k : Nat
  heap : List (Entry Score T)

def TopK.new (k : Nat) : TopK Score T := ⟨k,[]⟩

def TopK.admits (top : TopK Score T) (score : Score) (chunkId : String) : Bool :=
  if top.k = 0 then false
  else if top.heap.length < top.k then true
  else top.heap.head?.any (fun worst => decide (Scan.rank worst.score worst.chunkId < Scan.rank score chunkId))

def TopK.push (top : TopK Score T) (entry : Entry Score T) : TopK Score T :=
  { top with heap := Lib.Selection.push Entry.rank entry top.heap }

def TopK.pop (top : TopK Score T) : TopK Score T := { top with heap := top.heap.tail }

def TopK.offer (top : TopK Score T) (score : Score) (chunkId : String) (payload : T) : TopK Score T :=
  if !top.admits score chunkId then top
  else (if top.k ≤ top.heap.length then top.pop else top).push ⟨score,chunkId,payload⟩

/-- The retained entries, best first. -/
def TopK.intoSorted (top : TopK Score T) : List (Entry Score T) := top.heap.reverse

/-- An offer is one step of the selection of the best. -/
theorem TopK.offer_eq (top : TopK Score T) (score : Score) (chunkId : String) (payload : T) :
    top.offer score chunkId payload =
      ⟨top.k,Lib.Selection.offer Entry.rank top.k top.heap ⟨score,chunkId,payload⟩⟩ := by
  have same : Lib.Selection.admits Entry.rank top.k top.heap ⟨score,chunkId,payload⟩ = top.admits score chunkId := rfl
  unfold TopK.offer Lib.Selection.offer
  rw [same]
  cases admitted : top.admits score chunkId with
  | false => rfl
  | true =>
    by_cases full : top.k ≤ top.heap.length
    · simp [full,TopK.pop,TopK.push,not_lt.mpr full]
    · simp [full,TopK.push,not_le.mp full]

end Heap

/-! ### The statement -/

/-- What a stored vector must match to be compared with a query. -/
structure ScanQuery (Word : Type) where
  scope : Scope
  revision : Nat
  model : ModelIdentity
  vector : List Word
  k : Nat
  statuses : List StatusLabel

/-- The tables a page is read from. -/
structure Snapshot where
  memories : List MemoryRow
  chunks : List ChunkRow
  embeddings : List EmbeddingRow

structure VectorRow where
  chunkId : String
  memoryId : String
  chunkOrdinal : Int
  dims : Int
  vector : Bytes
  deriving DecidableEq

abbrev RowKey := Lex (String × Int)

def VectorRow.key (row : VectorRow) : RowKey := toLex (row.memoryId,row.chunkOrdinal)

section Statement
variable {Word : Type} (query : ScanQuery Word)

/-- The rows the statement selects: the comparable vectors of the scope, each with its
    chunk, whose memory has an admitted status. -/
def select (tables : Snapshot) : List VectorRow :=
  (tables.embeddings.filter (fun vector => vector.scope == query.scope && vector.revision == query.revision &&
      vector.identity == query.model)).flatMap (fun vector =>
    (tables.chunks.filter (fun chunk => chunk.key == vector.key)).flatMap (fun chunk =>
      (tables.memories.filter (fun memory => memory.id == vector.memoryId && memory.scope == vector.scope &&
        query.statuses.contains memory.status)).map (fun _ =>
          ⟨chunk.chunkId,vector.memoryId.hyphenated,vector.ordinal,vector.identity.dims,vector.vector⟩)))

/-- Where the first page starts: before every row. -/
def beforeAll : RowKey := toLex ("",-1)

/-- One read of the statement behind the cursor. -/
def storeRows (tables : Snapshot) (after : Option RowKey) (size : Nat) : List VectorRow :=
  Lib.Keyset.page VectorRow.key size (after.getD beforeAll) (select query tables)

end Statement

/-! ### The scan -/

structure Candidate (Score : Type) where
  chunkId : String
  memoryId : MemoryId
  ordinal : Nat
  score : Score
  deriving DecidableEq

structure ScanOutcome (Score : Type) where
  candidates : List (Candidate Score)
  truncated : Bool
  scanned : Nat
  pages : Nat
  deriving DecidableEq

abbrev Payload := String × Int

/-- Where the loop stands. The rows taken up and the pages read so far are kept beside
    the source's own counters, which saturate. -/
structure Progress (Score : Type) where
  top : TopK Score Payload
  cursor : Option RowKey
  truncated : Bool
  scanned : Nat
  pages : Nat
  visited : List VectorRow
  reads : Nat

/-- What a scan returns, and what it read on the way. -/
structure Run (Score : Type) where
  outcome : ScanOutcome Score
  visited : List VectorRow
  reads : Nat
  deriving DecidableEq

def maxScanned : Nat := 2 ^ 64 - 1
def maxPages : Nat := 2 ^ 32 - 1

section Scanning
variable {Word Score : Type} [LinearOrder Score] (metric : Metric Word Score) (query : ScanQuery Word)

/-- A row's score; a vector without a direction has none. -/
def scoreRow (needle : List Word) (row : VectorRow) : Except StoreError (Option Score) :=
  if row.dims < 0 ∨ 65535 < row.dims then
    .error (.integrity s!"stored vector width {row.dims} is outside u16")
  else if row.dims ≠ query.model.dims then
    .error (.integrity (s!"stored vector of chunk {row.chunkId} has {row.dims} dimensions where its " ++
      s!"revision records {query.model.dims}"))
  else
    match decodeInto metric row.vector query.model.dims with
    | .error refusal => .error refusal.toError
    | .ok buffer =>
      if query.model.normalized then .ok (some (metric.dot needle buffer))
      else
        match normalize metric buffer with
        | .error _ => .ok none
        | .ok unit => .ok (some (metric.dot needle unit))

def scanRow (needle : List Word) (progress : Progress Score) (row : VectorRow) : Except StoreError (Progress Score) := do
  let scored ← scoreRow metric query needle row
  let counted := { progress with
    scanned := min (progress.scanned + 1) maxScanned
    visited := progress.visited ++ [row] }
  match scored with
  | none => .ok counted
  | some score =>
    if progress.top.admits score row.chunkId then
      .ok { counted with top := progress.top.offer score row.chunkId (row.memoryId,row.chunkOrdinal) }
    else .ok counted

/-- The loop over the pages, with fuel. `versions` are the tables as the successive
    reads find them, and `expired` says after which of them the budget has run out. -/
def scanLoop (versions : Nat → Snapshot) (expired : Nat → Bool) (pageSize : UInt32) (needle : List Word) :
    Nat → Progress Score → Option (Except StoreError (Progress Score))
  | 0,_ => none
  | fuel + 1,progress =>
    let page := storeRows query (versions progress.reads) progress.cursor pageSize.toNat
    let read := { progress with reads := progress.reads + 1 }
    if page.isEmpty then some (.ok read)
    else
      let full := page.length < 2 ^ 32 && pageSize.toNat ≤ page.length
      let turned := { read with
        pages := min (read.pages + 1) maxPages
        cursor := (page.getLast?.map VectorRow.key).or read.cursor }
      match page.foldlM (scanRow metric query needle) turned with
      | .error refusal => some (.error refusal)
      | .ok scanned =>
        if !full then some (.ok scanned)
        else if expired progress.reads then some (.ok { scanned with truncated := true })
        else scanLoop versions expired pageSize needle fuel scanned

def candidate (entry : Entry Score Payload) : Except StoreError (Candidate Score) :=
  match ofHyphenated entry.payload.1 with
  | none => .error (.integrity s!"stored memory id is invalid: {entry.payload.1}")
  | some id =>
    if entry.payload.2 < 0 ∨ (2 ^ 32 - 1 : Int) < entry.payload.2 then
      .error (.integrity s!"chunk ordinal {entry.payload.2} is outside u32")
    else .ok ⟨entry.chunkId,id,entry.payload.2.toNat,entry.score⟩

def Progress.begin (k : Nat) : Progress Score := ⟨TopK.new k,none,false,0,0,[],0⟩

def scanRows (versions : Nat → Snapshot) (expired : Nat → Bool) (pageSize : UInt32) (fuel : Nat) :
    Option (Except StoreError (Run Score)) :=
  if pageSize = 0 then some (.error (.validation "a scan page of zero rows never advances"))
  else if query.vector.length ≠ query.model.dims then
    some (.error (VectorError.width query.model.dims query.vector.length).toError)
  else
    match normalize metric query.vector with
    | .error refusal => some (.error refusal.toError)
    | .ok needle =>
      if query.k = 0 then some (.ok ⟨⟨[],false,0,0⟩,[],0⟩)
      else
        (scanLoop metric query versions expired pageSize needle fuel (Progress.begin query.k)).map (fun ended => do
          let progress ← ended
          let candidates ← progress.top.intoSorted.mapM candidate
          .ok ⟨⟨candidates,progress.truncated,progress.scanned,progress.pages⟩,progress.visited,progress.reads⟩)

end Scanning

/-! ### What the loop keeps -/

section Facts
variable {Word Score : Type} [LinearOrder Score] {metric : Metric Word Score} {query : ScanQuery Word}
variable {needle : List Word} {progress next : Progress Score}

/-- The entry a row can win a place with. -/
def entryOf (metric : Metric Word Score) (query : ScanQuery Word) (needle : List Word) (row : VectorRow) :
    Option (Entry Score Payload) :=
  ((scoreRow metric query needle row).toOption.join).map (fun score => ⟨score,row.chunkId,row.memoryId,row.chunkOrdinal⟩)

/-- The heap holds what a selection from all rows taken up so far keeps. -/
private structure Selecting (metric : Metric Word Score) (query : ScanQuery Word) (needle : List Word)
    (progress : Progress Score) : Prop where
  size : progress.top.k = query.k
  kept : progress.top.heap =
    (progress.visited.filterMap (entryOf metric query needle)).foldl (Lib.Selection.offer Entry.rank query.k) []
  counted : progress.scanned = min progress.visited.length maxScanned

/-- Whether it was admitted or not, a scored row was offered. -/
private theorem offer_admitted (top : TopK Score Payload) (score : Score) (chunkId : String) (payload : Payload) :
    (if top.admits score chunkId then top.offer score chunkId payload else top) = top.offer score chunkId payload := by
  cases admitted : top.admits score chunkId with
  | true => rfl
  | false => simp [TopK.offer,admitted]

theorem scanRow_ok {row : VectorRow} (taken : scanRow metric query needle progress row = .ok next) :
    next.visited = progress.visited ++ [row] ∧ next.scanned = min (progress.scanned + 1) maxScanned ∧
      next.top.k = progress.top.k ∧
      next.top.heap = ((entryOf metric query needle row).toList.foldl
        (Lib.Selection.offer Entry.rank progress.top.k) progress.top.heap) ∧
      next.reads = progress.reads ∧ next.cursor = progress.cursor := by
  unfold scanRow at taken
  obtain ⟨scored,computed,taken⟩ := bind_ok_iff.mp taken
  cases scored with
  | none =>
    obtain rfl := Except.ok.inj taken
    simp [entryOf,computed,Except.toOption]
  | some score =>
    have offered := offer_admitted progress.top score row.chunkId (row.memoryId,row.chunkOrdinal)
    rw [TopK.offer_eq] at offered
    have entry : entryOf metric query needle row = some ⟨score,row.chunkId,row.memoryId,row.chunkOrdinal⟩ := by
      simp [entryOf,computed,Except.toOption]
    rw [entry]
    simp only at taken
    split_ifs at taken with admitted
    · obtain rfl := Except.ok.inj taken
      simp [TopK.offer_eq]
    · obtain rfl := Except.ok.inj taken
      rw [if_neg admitted] at offered
      exact ⟨rfl,rfl,rfl,congrArg TopK.heap offered,rfl,rfl⟩

private theorem scanRow_selecting {row : VectorRow} (selecting : Selecting metric query needle progress)
    (taken : scanRow metric query needle progress row = .ok next) : Selecting metric query needle next := by
  obtain ⟨visited,scanned,size,heap,-,-⟩ := scanRow_ok taken
  refine ⟨size.trans selecting.size,?_,?_⟩
  · rw [heap,visited,List.filterMap_append,List.foldl_append,← selecting.kept,selecting.size]
    simp [List.filterMap_cons]
    cases entryOf metric query needle row <;> rfl
  · rw [scanned,visited,selecting.counted,List.length_append,List.length_singleton]
    omega

private theorem scanPage_ok {page : List VectorRow} (taken : page.foldlM (scanRow metric query needle) progress = .ok next) :
    next.visited = progress.visited ++ page ∧ next.reads = progress.reads ∧ next.cursor = progress.cursor := by
  induction page generalizing progress with
  | nil =>
    cases taken
    simp
  | cons row rest ih =>
    obtain ⟨middle,first,remaining⟩ := bind_ok_iff.mp taken
    obtain ⟨visited,-,-,-,reads,cursor⟩ := scanRow_ok first
    obtain ⟨allVisited,sameReads,sameCursor⟩ := ih remaining
    refine ⟨?_,sameReads.trans reads,sameCursor.trans cursor⟩
    rw [allVisited,visited,List.append_assoc,List.singleton_append]

private theorem scanPage_selecting {page : List VectorRow} (selecting : Selecting metric query needle progress)
    (taken : page.foldlM (scanRow metric query needle) progress = .ok next) : Selecting metric query needle next :=
  foldlM_invariant (Selecting metric query needle) (fun _ _ _ _ => scanRow_selecting) selecting taken

private theorem getLast?_of_filled {page : List VectorRow} (filled : ¬ page.isEmpty = true) :
    ∃ final, page.getLast? = some final := by
  cases ends : page.getLast? with
  | none => exact absurd (List.isEmpty_iff.mpr (List.getLast?_eq_none_iff.mp ends)) filled
  | some final => exact ⟨final,rfl⟩

variable {versions : Nat → Snapshot} {expired : Nat → Bool} {pageSize : UInt32}

/-- A loop that ends of itself has walked the selected rows by keyset. -/
private theorem scanLoop_walk (positive : 0 < pageSize.toNat) {fuel : Nat} (selecting : Selecting metric query needle progress)
    (running : scanLoop metric query versions expired pageSize needle fuel progress = some (.ok next))
    (whole : next.truncated = false) :
    ∃ last met, next.reads = last + 1 ∧ next.visited = progress.visited ++ met ∧ Selecting metric query needle next ∧
      Lib.Keyset.Walk VectorRow.key pageSize.toNat (fun read => select query (versions read)) progress.reads last
        (progress.cursor.getD beforeAll) met := by
  induction fuel generalizing progress with
  | zero => cases running
  | succ fuel ih =>
    unfold scanLoop at running
    simp only at running
    set page := storeRows query (versions progress.reads) progress.cursor pageSize.toNat with pageIs
    have isPage : page = Lib.Keyset.page VectorRow.key pageSize.toNat (progress.cursor.getD beforeAll)
        (select query (versions progress.reads)) := rfl
    have fits : page.length ≤ pageSize.toNat := List.length_take_le _ _
    have narrow : pageSize.toNat < 2 ^ 32 := pageSize.toNat_lt
    by_cases empty : page.isEmpty = true
    · rw [if_pos empty] at running
      obtain rfl := Except.ok.inj (Option.some.inj running)
      have nothing := List.isEmpty_iff.mp empty
      have short : page.length < pageSize.toNat := by simp [nothing,positive]
      refine ⟨progress.reads,page,rfl,by simp [nothing],⟨selecting.size,selecting.kept,selecting.counted⟩,?_⟩
      exact .ends short
    · rw [if_neg empty] at running
      split at running
      · cases Option.some.inj running
      · rename_i scanned taken
        have ready : Selecting metric query needle { progress with
            cursor := (page.getLast?.map VectorRow.key).or progress.cursor
            pages := min (progress.pages + 1) maxPages
            reads := progress.reads + 1 } := ⟨selecting.size,selecting.kept,selecting.counted⟩
        have still := scanPage_selecting ready taken
        obtain ⟨visited,reads,cursor⟩ := scanPage_ok taken
        obtain ⟨final,ends⟩ := getLast?_of_filled empty
        by_cases full : pageSize.toNat ≤ page.length
        · have small : page.length < 2 ^ 32 := by omega
          simp only [small,full,decide_true,Bool.and_self,Bool.not_true,Bool.false_eq_true,if_false] at running
          split_ifs at running with late
          · obtain rfl := Except.ok.inj (Option.some.inj running)
            cases whole
          · obtain ⟨last,met,reached,allVisited,done,walk⟩ := ih still running
            have cursorIs : scanned.cursor.getD beforeAll = final.key := by simp [cursor,ends]
            rw [reads,cursorIs] at walk
            refine ⟨last,page ++ met,reached,?_,done,?_⟩
            · rw [allVisited,visited,List.append_assoc]
            · exact .continues ends walk
        · have short : page.length < pageSize.toNat := by omega
          simp only [full,decide_false,Bool.and_false,Bool.not_false,if_true] at running
          obtain rfl := Except.ok.inj (Option.some.inj running)
          exact ⟨progress.reads,page,reads,visited,still,.ends short⟩

/-- Over tables that stand still the loop needs no more turns than there are rows left. -/
private theorem scanLoop_ends {tables : Snapshot} {fuel : Nat}
    (enough : (Lib.Keyset.following VectorRow.key (progress.cursor.getD beforeAll) (select query tables)).length < fuel) :
    scanLoop metric query (fun _ => tables) expired pageSize needle fuel progress ≠ none := by
  induction fuel generalizing progress with
  | zero => omega
  | succ fuel ih =>
    unfold scanLoop
    simp only
    set page := storeRows query tables progress.cursor pageSize.toNat
    by_cases empty : page.isEmpty = true
    · simp [empty]
    · rw [if_neg empty]
      split
      · simp
      · rename_i scanned taken
        split
        · simp
        · split
          · simp
          · obtain ⟨final,ends⟩ := getLast?_of_filled empty
            have cursor : scanned.cursor.getD beforeAll = final.key := by
              obtain ⟨-,-,same⟩ := scanPage_ok taken
              simp [same,ends]
            have shrinks := Lib.Keyset.following_shrinks (List.mem_of_getLast? ends)
            exact ih (by rw [cursor]; omega)

/-- Every selected row comes after the place the first page starts from. -/
theorem select_beyond {tables : Snapshot} {row : VectorRow} (selected : row ∈ select query tables) : beforeAll < row.key := by
  simp only [select,List.mem_flatMap,List.mem_map] at selected
  obtain ⟨vector,-,chunk,-,memory,-,rfl⟩ := selected
  refine Prod.Lex.toLex_lt_toLex.mpr ?_
  by_cases blank : vector.memoryId.hyphenated = ""
  · exact .inr ⟨blank.symm,by simp only; omega⟩
  · left
    rw [String.lt_iff_toList_lt]
    cases chars : vector.memoryId.hyphenated.toList with
    | nil => exact absurd (String.toList_eq_nil_iff.mp chars) blank
    | cons first rest => exact List.nil_lt_cons first rest

/-- A candidate's place in the heap. -/
def Candidate.entry (found : Candidate Score) : Entry Score Payload :=
  ⟨found.score,found.chunkId,found.memoryId.hyphenated,found.ordinal⟩

omit [LinearOrder Score] in
private theorem candidate_ok {entry : Entry Score Payload} {found : Candidate Score} (made : candidate entry = .ok found) :
    found.entry = entry := by
  obtain ⟨score,chunkId,memory,ordinal⟩ := entry
  unfold candidate at made
  cases parsed : (ofHyphenated memory : Option MemoryId) with
  | none => simp [parsed] at made
  | some id =>
    simp only [parsed] at made
    split_ifs at made with outside
    obtain rfl := Except.ok.inj made
    have rendered := hyphenated_of_ofHyphenated parsed
    have natural : ((ordinal.toNat : Nat) : Int) = ordinal := by omega
    simp [Candidate.entry,rendered,natural]

omit [LinearOrder Score] in
private theorem candidates_ok {entries : List (Entry Score Payload)} {found : List (Candidate Score)}
    (made : entries.mapM candidate = .ok found) : found.map Candidate.entry = entries := by
  induction entries generalizing found with
  | nil =>
    cases made
    rfl
  | cons entry rest ih =>
    rw [List.mapM_cons] at made
    obtain ⟨first,head,made⟩ := bind_ok_iff.mp made
    obtain ⟨others,tail,made⟩ := bind_ok_iff.mp made
    obtain rfl := Except.ok.inj made
    rw [List.map_cons,candidate_ok head,ih tail]

/-- What a scan that asked for something and returned has computed. -/
theorem scanRows_ok {fuel : Nat} {run : Run Score} (asked : 0 < query.k)
    (ran : scanRows metric query versions expired pageSize fuel = some (.ok run)) :
    0 < pageSize.toNat ∧ ∃ needle progress, normalize metric query.vector = .ok needle ∧
      scanLoop metric query versions expired pageSize needle fuel (Progress.begin query.k) = some (.ok progress) ∧
      run.outcome.candidates.map Candidate.entry = progress.top.intoSorted ∧
      run.outcome.truncated = progress.truncated ∧ run.outcome.scanned = progress.scanned ∧
      run.visited = progress.visited ∧ run.reads = progress.reads := by
  unfold scanRows at ran
  by_cases zero : pageSize = 0
  · simp [zero] at ran
  by_cases wide : query.vector.length ≠ query.model.dims
  · simp [zero,wide] at ran
  have positive : 0 < pageSize.toNat :=
    Nat.pos_of_ne_zero (fun none' => zero (UInt32.toNat_inj.mp (none'.trans UInt32.toNat_zero.symm)))
  rw [if_neg zero,if_neg wide] at ran
  cases normalized : normalize metric query.vector with
  | error refusal => simp [normalized] at ran
  | ok needle =>
    simp only [normalized,if_neg asked.ne'] at ran
    obtain ⟨ended,looped,made⟩ := Option.map_eq_some_iff.mp ran
    obtain ⟨progress,finished,finding⟩ := bind_ok_iff.mp made
    obtain ⟨candidates,found,returned⟩ := bind_ok_iff.mp finding
    subst finished
    obtain rfl := Except.ok.inj returned
    exact ⟨positive,needle,progress,rfl,looped,candidates_ok found,rfl,rfl,rfl,rfl⟩

/-- The selected rows have keys and chunk ids of their own. -/
structure Distinct (rows : List VectorRow) : Prop where
  keys : UniqueBy VectorRow.key rows
  chunks : UniqueBy VectorRow.chunkId rows

/-- The scorable rows, from the best to the worst. -/
def ordered (metric : Metric Word Score) (query : ScanQuery Word) (needle : List Word) (rows : List VectorRow) :
    List (Entry Score Payload) :=
  Lib.Selection.descending Entry.rank (rows.filterMap (entryOf metric query needle))

omit [LinearOrder Score] in
private theorem ranks_distinct {rows : List VectorRow} (chunks : UniqueBy VectorRow.chunkId rows) :
    ((rows.filterMap (entryOf metric query needle)).map Entry.rank).Nodup := by
  have apart : (rows.filterMap (entryOf metric query needle)).Pairwise (fun left right => left.rank ≠ right.rank) := by
    refine List.Pairwise.filterMap _ (fun row other distinct entry made entry' made' same => ?_)
      (List.pairwise_map.mp chunks)
    obtain ⟨score,-,rfl⟩ := Option.map_eq_some_iff.mp made
    obtain ⟨score',-,rfl⟩ := Option.map_eq_some_iff.mp made'
    exact distinct (congrArg (fun place : Lex (Score × Stringᵒᵈ) => OrderDual.ofDual (ofLex place).2) same)
  exact List.pairwise_map.mpr apart

private theorem begin_selecting : Selecting metric query needle (Progress.begin query.k) := ⟨rfl,rfl,rfl⟩

/-- The bounded paged scan is the exact one: over tables that stand still, a scan that
    was not cut short returns the front of the order of all scorable rows, having taken
    up every row once, and it does end; over tables that change between two reads it
    still takes up once every row that each read could have seen. -/
theorem scan_exact (metric : Metric Word Score) (query : ScanQuery Word) (asked : 0 < query.k) (expired : Nat → Bool)
    (pageSize : UInt32) (fuel : Nat) (run : Run Score) :
    (∀ tables, Distinct (select query tables) →
      scanRows metric query (fun _ => tables) expired pageSize fuel = some (.ok run) → run.outcome.truncated = false →
        (∃ needle, normalize metric query.vector = .ok needle ∧
          run.outcome.candidates.map Candidate.entry = (ordered metric query needle (select query tables)).take query.k) ∧
        run.visited.Perm (select query tables) ∧
        run.outcome.scanned = min (select query tables).length maxScanned) ∧
    (∀ tables, (select query tables).length < fuel →
      scanRows metric query (fun _ => tables) expired pageSize fuel ≠ none) ∧
    (∀ versions, (∀ read, Distinct (select query (versions read))) →
      scanRows metric query versions expired pageSize fuel = some (.ok run) → run.outcome.truncated = false →
        ∀ row, (∀ read, read < run.reads → row ∈ select query (versions read)) → run.visited.count row = 1) := by
  refine ⟨fun tables distinct ran whole => ?_,fun tables enough => ?_,fun versions distinct ran whole row present => ?_⟩
  · obtain ⟨positive,needle,progress,normalized,looped,entries,truncated,scanned,visited,-⟩ := scanRows_ok asked ran
    obtain ⟨last,met,-,metIs,selecting,walk⟩ :=
      scanLoop_walk positive begin_selecting looped (truncated.symm.trans whole)
    have all : progress.visited.Perm (select query tables) := by
      rw [metIs]
      exact walk.still distinct.keys (fun row within => select_beyond within)
    have distinctEntries := @ranks_distinct _ _ metric query needle _
      ((all.map VectorRow.chunkId).nodup_iff.mpr distinct.chunks)
    refine ⟨⟨needle,normalized,?_⟩,visited ▸ all,?_⟩
    · rw [entries,TopK.intoSorted,selecting.kept,Lib.Selection.kept_best query.k asked distinctEntries,ordered,
        Lib.Selection.descending_congr distinctEntries (all.filterMap _)]
    · rw [scanned,selecting.counted,all.length_eq]
  · unfold scanRows
    split
    · simp
    split
    · simp
    split
    · simp
    split
    · simp
    rw [ne_eq,Option.map_eq_none_iff]
    refine scanLoop_ends ?_
    refine lt_of_le_of_lt ?_ enough
    rw [(Lib.Keyset.following_perm _ _).length_eq]
    exact List.length_filter_le _ _
  · obtain ⟨positive,needle,progress,-,looped,-,truncated,-,visited,reads⟩ := scanRows_ok asked ran
    obtain ⟨last,met,reached,metIs,-,walk⟩ :=
      scanLoop_walk positive begin_selecting looped (truncated.symm.trans whole)
    have unique := fun read => (distinct read).keys
    have here : row ∈ met := by
      refine walk.complete unique (select_beyond (present 0 (by omega))) (fun read _ upTo => present read (by omega))
    rw [visited,metIs]
    exact List.count_eq_one_of_mem ((walk.nodup unique).of_map _) here

end Facts

/-! ### The keys of the tables -/

section Keys
variable {Word : Type} {query : ScanQuery Word} {tables : Snapshot}

/-- The keys of the three tables. -/
structure Keyed (tables : Snapshot) : Prop where
  memories : UniqueBy MemoryRow.id tables.memories
  chunks : UniqueBy ChunkRow.key tables.chunks
  chunkIds : UniqueBy ChunkRow.chunkId tables.chunks
  embeddings : UniqueBy EmbeddingRow.key tables.embeddings

private def joined (vector : EmbeddingRow) (chunk : ChunkRow) : VectorRow :=
  ⟨chunk.chunkId,vector.memoryId.hyphenated,vector.ordinal,vector.identity.dims,vector.vector⟩

/-- A vector has one chunk and one memory, so rows of the statement that are not one
    come from two vectors. -/
private theorem select_pairwise (keyed : Keyed tables) {Apart : VectorRow → VectorRow → Prop}
    (across : ∀ left right : EmbeddingRow, left.scope = query.scope → right.scope = query.scope →
      left.revision = query.revision → right.revision = query.revision → left.key ≠ right.key →
      ∀ chunk ∈ tables.chunks, chunk.key = left.key → ∀ other ∈ tables.chunks, other.key = right.key →
        Apart (joined left chunk) (joined right other)) : (select query tables).Pairwise Apart := by
  have comparable : ∀ vector : EmbeddingRow, (vector.scope == query.scope && vector.revision == query.revision &&
      vector.identity == query.model) = true → vector.scope = query.scope ∧ vector.revision = query.revision := by
    intro vector passes
    simp only [Bool.and_eq_true,beq_iff_eq] at passes
    exact passes.1
  refine List.pairwise_flatMap.mpr ⟨fun vector _ => List.pairwise_flatMap.mpr ⟨fun chunk _ => ?_,?_⟩,?_⟩
  · refine List.pairwise_map.mpr (List.Pairwise.imp_of_mem ?_ ((List.pairwise_map.mp keyed.memories).filter _))
    intro left right inLeft inRight different
    have leftIs := (List.mem_filter.mp inLeft).2
    have rightIs := (List.mem_filter.mp inRight).2
    simp only [Bool.and_eq_true,beq_iff_eq] at leftIs rightIs
    exact absurd (leftIs.1.1.trans rightIs.1.1.symm) different
  · refine List.Pairwise.imp_of_mem ?_ ((List.pairwise_map.mp keyed.chunks).filter _)
    intro left right inLeft inRight different
    have leftIs := (List.mem_filter.mp inLeft).2
    have rightIs := (List.mem_filter.mp inRight).2
    exact absurd ((beq_iff_eq.mp leftIs).trans (beq_iff_eq.mp rightIs).symm) different
  · refine List.Pairwise.imp_of_mem ?_ ((List.pairwise_map.mp keyed.embeddings).filter _)
    intro left right inLeft inRight different row fromLeft other fromRight
    obtain ⟨leftScope,leftRevision⟩ := comparable left (List.mem_filter.mp inLeft).2
    obtain ⟨rightScope,rightRevision⟩ := comparable right (List.mem_filter.mp inRight).2
    obtain ⟨chunk,chunkIn,memory,_,rfl⟩ := by simpa only [List.mem_flatMap,List.mem_map] using fromLeft
    obtain ⟨second,secondIn,owner,_,rfl⟩ := by simpa only [List.mem_flatMap,List.mem_map] using fromRight
    obtain ⟨chunkHeld,chunkKey⟩ := List.mem_filter.mp chunkIn
    obtain ⟨secondHeld,secondKey⟩ := List.mem_filter.mp secondIn
    exact across left right leftScope rightScope leftRevision rightRevision different chunk chunkHeld
      (beq_iff_eq.mp chunkKey) second secondHeld (beq_iff_eq.mp secondKey)

/-- The keys of the tables give the selected rows keys and chunk ids of their own. -/
theorem select_distinct (keyed : Keyed tables) : Distinct (select query tables) where
  keys := by
    refine List.pairwise_map.mpr (select_pairwise keyed ?_)
    intro left right leftScope rightScope leftRevision rightRevision different chunk _ _ other _ _ same
    have parts := Prod.mk.inj (toLex.injective same)
    have memory := hyphenated_injective parts.1
    have ordinal : left.ordinal = right.ordinal := by
      have := parts.2
      simp only [joined] at this
      omega
    refine different ?_
    simp only [EmbeddingRow.key,leftScope,rightScope,leftRevision,rightRevision,ordinal]
    rw [show left.memoryId = right.memoryId from memory]
  chunks := by
    refine List.pairwise_map.mpr (select_pairwise keyed ?_)
    intro left right _ _ _ _ different chunk chunkHeld chunkKey other otherHeld otherKey same
    have one := List.inj_on_of_nodup_map keyed.chunkIds chunkHeld otherHeld same
    exact different (chunkKey.symm.trans ((congrArg ChunkRow.key one).trans otherKey))

end Keys

namespace Sample
open Claims.Sample Memories.Sample

/-- The arithmetic of the numbers -1, 0 and 1, as single precision spells them. -/
def metric : Metric Int Int where
  fromLeBytes _ _ c d := if c = 0 then 0 else if d = 63 then 1 else -1
  isFinite _ := true
  scaled values := if values.all (· == 0) then none else some values
  dot left right := (left.zip right).foldl (fun total pair => total + pair.1 * pair.2) 0

def identity : ModelIdentity := ⟨"model",1,true⟩

def memory : MemoryRow :=
  ⟨memoryId,scope,.active,none,.fact,.evidence,"",1,1,1,10,10,Memories.Memory.new (parts ⟨"a b",none,[]⟩),none,false⟩

/-- A memory of two chunks that point in opposite directions. -/
def tables : Snapshot where
  memories := [memory]
  chunks := [⟨"chunk-0",scope,memoryId,1,0,0,1⟩,⟨"chunk-1",scope,memoryId,1,1,2,3⟩]
  embeddings := [⟨scope,memoryId,1,0,identity,[0,0,128,191],10⟩,⟨scope,memoryId,1,1,identity,[0,0,128,63],10⟩]

def query : ScanQuery Int := ⟨scope,1,identity,[1],1,[.active]⟩

def run : Run Int :=
  ⟨⟨[⟨"chunk-1",memoryId,1,1⟩],false,2,2⟩,select query tables,3⟩

theorem keyed : Keyed tables := by
  constructor <;> unfold UniqueBy <;> decide +kernel

theorem ran : scanRows metric query (fun _ => tables) (fun _ => false) 1 4 = some (.ok run) := by decide +kernel

end Sample

theorem scan_exact_two_chunks :
    (∃ needle, normalize Sample.metric Sample.query.vector = .ok needle ∧
      Sample.run.outcome.candidates.map Candidate.entry =
        (ordered Sample.metric Sample.query needle (select Sample.query Sample.tables)).take 1) ∧
      ∀ row ∈ select Sample.query Sample.tables, Sample.run.visited.count row = 1 := by
  obtain ⟨still,_,moving⟩ := scan_exact Sample.metric Sample.query (by decide) (fun _ => false) 1 4 Sample.run
  have distinct : Distinct (select Sample.query Sample.tables) := select_distinct Sample.keyed
  refine ⟨(still Sample.tables distinct Sample.ran rfl).1,fun row within => ?_⟩
  exact moving (fun _ => Sample.tables) (fun _ => distinct) Sample.ran rfl row (fun _ _ => within)

end Aicortex.Scan
