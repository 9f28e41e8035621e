import Aicortex.DrainRuns

/-!
The queue as numbered attempts. A row of the queue is the latest attempt at its work and
how it stands; what was taken, weighed, asked, settled and excused are its tickets. Each
change of the queue is a step of such attempts: taking and settling claims, upkeep in
place, and what the rest of the store does to work, which is to offer it or withdraw it
with its memory.
-/

namespace Aicortex.Drains
open Aicortex.Text Aicortex.CivilTime Aicortex.Memories Aicortex.Schema Aicortex.MemoryRepo Aicortex.EmbeddingTables
open Aicortex.ModelRegistry Aicortex.Chunking Aicortex.Provider Aicortex.Pipeline
open Lib.Tables Lib.Outcome Lib.StaleRuns Lib.StaleRuns.System Lib.Attempts
open Aicortex.Claims hiding Unit Claim

/-! ### The queue as a book -/

def modeOf : WorkState → Mode
  | .claimed => .held
  | .dead => .shut
  | _ => .idle

def entryOf (row : WorkRow) : Entry := ⟨row.attempt,modeOf row.state⟩

def entryAt (work : List WorkRow) (key : WorkKey) : Option Entry := (work.find? (fun row => row.key == key)).map entryOf

def Annals.book (annals : Annals) (work : List WorkRow) : Book WorkKey :=
  ⟨entryAt work,annals.issued,annals.weighed,annals.asked,annals.settled,annals.excused⟩

section
variable {work : List WorkRow} {row : WorkRow} {key : WorkKey}

theorem find_work (unique : UniqueBy WorkRow.key work) (member : row ∈ work) :
    work.find? (fun other => other.key == row.key) = some row := by
  cases found : work.find? (fun other => other.key == row.key) with
  | none =>
    have missing := List.find?_eq_none.mp found row member
    simp at missing
  | some other =>
    have same : other.key = row.key := by simpa using List.find?_some found
    rw [unique.eq_of_key (List.mem_of_find?_eq_some found) member same]

theorem entryAt_of_mem (unique : UniqueBy WorkRow.key work) (member : row ∈ work) : entryAt work row.key = some (entryOf row) := by
  rw [entryAt,find_work unique member,Option.map_some]

theorem entryAt_isSome : (entryAt work key).isSome = true ↔ ∃ row ∈ work, row.key = key := by
  simp [entryAt]

/-- Whoever holds a claim has the latest ticket of its work. -/
theorem entryAt_held {stock : Stock} {claim : Claim} (unique : UniqueBy WorkRow.key stock.work) (held : Held stock claim) :
    entryAt stock.work claim.key = some ⟨claim.attempt,.held⟩ := by
  obtain ⟨row,queued,holds⟩ := held
  simp only [Claim.holds,Bool.and_eq_true,beq_iff_eq] at holds
  obtain ⟨⟨key,state⟩,attempt⟩ := holds
  rw [← key,entryAt_of_mem unique queued,entryOf,state,attempt]
  rfl

theorem find_map {change : WorkRow → WorkRow} (keyed : ∀ row, (change row).key = row.key) (work : List WorkRow) (key : WorkKey) :
    (work.map change).find? (fun row => row.key == key) = (work.find? (fun row => row.key == key)).map change := by
  rw [List.find?_map]
  congr 2
  funext row
  simp only [Function.comp,keyed]

theorem entryAt_map {change : WorkRow → WorkRow} (keyed : ∀ row, (change row).key = row.key) (work : List WorkRow) (key : WorkKey) :
    entryAt (work.map change) key = (work.find? (fun row => row.key == key)).map (fun row => entryOf (change row)) := by
  rw [entryAt,find_map keyed,Option.map_map]
  rfl

theorem entryAt_map_isSome {change : WorkRow → WorkRow} (keyed : ∀ row, (change row).key = row.key) (work : List WorkRow)
    (key : WorkKey) : (entryAt (work.map change) key).isSome = (entryAt work key).isSome := by
  rw [entryAt_map keyed,entryAt,Option.isSome_map,Option.isSome_map]

/-- A change of one row is one of its entry. -/
theorem entryAt_update (unique : UniqueBy WorkRow.key work) (member : row ∈ work) {change : WorkRow → WorkRow}
    (keyed : ∀ row, (change row).key = row.key) (others : ∀ other ∈ work, other.key ≠ row.key → change other = other) :
    entryAt (work.map change) = Function.update (entryAt work) row.key (some (entryOf (change row))) := by
  funext key
  rw [entryAt_map keyed]
  by_cases mine : key = row.key
  · rw [mine,Function.update_self,find_work unique member,Option.map_some]
  · rw [Function.update_of_ne mine,entryAt]
    cases found : work.find? (fun row => row.key == key) with
    | none => rfl
    | some other =>
      have named : other.key = key := by simpa using List.find?_some found
      rw [Option.map_some,Option.map_some,others other (List.mem_of_find?_eq_some found) (by rw [named]; exact mine)]

theorem unique_map (unique : UniqueBy WorkRow.key work) {change : WorkRow → WorkRow} (keyed : ∀ row, (change row).key = row.key) :
    UniqueBy WorkRow.key (work.map change) := by
  unfold UniqueBy
  rw [List.map_map,show WorkRow.key ∘ change = WorkRow.key from funext keyed]
  exact unique

theorem entryAt_append (work : List WorkRow) (row : WorkRow) (key : WorkKey) :
    entryAt (work ++ [row]) key = (entryAt work key).or (if row.key = key then some (entryOf row) else none) := by
  unfold entryAt
  rw [List.find?_append,Option.map_or,List.find?_singleton]
  simp only [beq_iff_eq]
  split_ifs <;> rfl

/-- Staging adds work that was not there. -/
theorem entryAt_stageWork (staged : WorkKey) (now : UnixSeconds) (work : List WorkRow) (key : WorkKey) :
    entryAt (stageWork staged now work) key = entryAt work key ∨
      (key = staged ∧ entryAt work key = none ∧ entryAt (stageWork staged now work) key = some ⟨0,.idle⟩) := by
  unfold stageWork
  split_ifs with there
  · exact .inl rfl
  · rw [entryAt_append]
    by_cases mine : key = staged
    · have absent : entryAt work key = none := by
        rw [← Option.not_isSome_iff_eq_none,entryAt_isSome]
        rintro ⟨row,member,named⟩
        exact there (List.any_eq_true.mpr ⟨row,member,by rw [named,mine]; exact beq_self_eq_true _⟩)
      refine .inr ⟨mine,absent,?_⟩
      rw [absent,mine]
      simp [entryOf,modeOf]
    · refine .inl ?_
      rw [if_neg (fun same => mine same.symm),Option.or_none]

theorem unique_stageWork (unique : UniqueBy WorkRow.key work) (staged : WorkKey) (now : UnixSeconds) :
    UniqueBy WorkRow.key (stageWork staged now work) := by
  unfold stageWork
  split_ifs with there
  · exact unique
  · refine unique.insert fun other member same => there ?_
    exact List.any_eq_true.mpr ⟨other,member,by rw [same]; exact beq_self_eq_true _⟩

end

/-! ### What is recorded of attempts -/

theorem administrative_append (stock : Stock) (records : List AttemptRow) (key : WorkKey) :
    administrativeAttempts { stock with attempts := stock.attempts ++ records } key =
      administrativeAttempts stock key + records.countP (fun row => row.key == key && administrative row.errorClass) :=
  List.countP_append

/-- Attempts a provider is charged for leave the count of the others. -/
theorem Charges.counts {upkeep : Upkeep} (charges : Charges upkeep) (stock : Stock) (key : WorkKey) :
    administrativeAttempts { stock with attempts := upkeep.attempts stock.attempts } key = administrativeAttempts stock key := by
  obtain ⟨records,same,charged⟩ := charges stock.attempts
  have none' : records.countP (fun row => row.key == key && administrative row.errorClass) = 0 := by
    refine List.countP_eq_zero.mpr fun record member => ?_
    simp [charged record member]
  rw [same,administrative_append,none',Nat.add_zero]

/-! ### The queue and what was done at it -/

/-- The tickets are in step with the queue: what is recorded of its attempts is what was
    excused, and work that was taken is there until its memory is erased. -/
structure Ledger (limit : Nat) (stock : Stock) (annals : Annals) : Prop where
  unique : UniqueBy WorkRow.key stock.work
  sound : Sound limit maxU32 (annals.book stock.work)
  counted : ∀ key, administrativeAttempts stock key ≤ (annals.book stock.work).excuses key
  whole : ∀ key, (entryAt stock.work key).isSome = true → administrativeAttempts stock key = (annals.book stock.work).excuses key
  lasting : ∀ taken ∈ annals.issued, (entryAt stock.work taken.key).isSome = true ∨
    ∃ memory ∈ stock.memories, memory.id = taken.key.memoryId ∧ memory.live = false

section
variable {limit : Nat} {now next : Stock} {annals : Annals} {claim : Claim}

/-- Work that was taken goes only with its memory. -/
theorem lasting_since (since : Since now next) {taken : Ticket WorkKey}
    (lasts : (entryAt now.work taken.key).isSome = true ∨
      ∃ memory ∈ now.memories, memory.id = taken.key.memoryId ∧ memory.live = false) :
    (entryAt next.work taken.key).isSome = true ∨
      ∃ memory ∈ next.memories, memory.id = taken.key.memoryId ∧ memory.live = false := by
  rcases lasts with there | ⟨memory,inside,named,dead⟩
  · obtain ⟨row,member,same⟩ := entryAt_isSome.mp there
    rcases since.work row member with ⟨later,inside,kept⟩ | gone
    · exact .inl (entryAt_isSome.mpr ⟨later,inside,kept.trans same⟩)
    · rw [same] at gone
      exact .inr gone
  · obtain ⟨later,inside,sameId,kept⟩ := since.rows memory inside
    exact .inr ⟨later,inside,sameId.trans named,by rw [kept.erased dead]; exact dead⟩

/-- Nobody takes or settles anything. -/
theorem Ledger.tend (ledger : Ledger limit now annals) (since : Since now next) (unique : UniqueBy WorkRow.key next.work)
    (each : ∀ key, Tends maxU32 (∀ taken ∈ annals.issued, taken.key ≠ key) (entryAt now.work key) (entryAt next.work key))
    (counted : ∀ key, administrativeAttempts next key ≤ (annals.book now.work).excuses key)
    (whole : ∀ key, (entryAt next.work key).isSome = true → administrativeAttempts next key = (annals.book now.work).excuses key) :
    Ledger limit next annals where
  unique := unique
  sound := ledger.sound.step (.tend each)
  counted := counted
  whole := whole
  lasting := fun taken member => lasting_since since (ledger.lasting taken member)

/-- The rows change in place, and no claim is taken or settled. -/
theorem Ledger.upkeep (ledger : Ledger limit now annals) {upkeep : Upkeep}
    (since : Since now (upkeep.on now))
    (keyed : ∀ row, (upkeep.row row).key = row.key)
    (rests : ∀ row, upkeep.row row = row ∨ ((upkeep.row row).attempt = row.attempt ∧ modeOf (upkeep.row row).state ≠ .held ∧
      (modeOf (upkeep.row row).state = .shut → modeOf row.state = .shut ∨ maxU32 ≤ row.attempt)))
    (charges : Charges upkeep) :
    Ledger limit (upkeep.on now) annals := by
  have counts : ∀ key, administrativeAttempts (upkeep.on now) key = administrativeAttempts now key := charges.counts now
  refine ledger.tend since (unique_map ledger.unique keyed) (fun key => ?_) (fun key => ?_) (fun key there => ?_)
  · change Tends _ _ _ (entryAt (now.work.map upkeep.row) key)
    rw [entryAt_map keyed,entryAt]
    cases found : now.work.find? (fun row => row.key == key) with
    | none => exact .same none
    | some row =>
      rw [Option.map_some,Option.map_some]
      rcases rests row with same | ⟨latest,free,closed⟩
      · rw [same]
        exact .same _
      · have turned : entryOf (upkeep.row row) = ⟨(entryOf row).latest,modeOf (upkeep.row row).state⟩ := by
          rw [entryOf,latest]
          rfl
        rw [turned]
        exact .rested free closed
  · rw [counts]
    exact ledger.counted key
  · rw [counts]
    exact ledger.whole key ((entryAt_map_isSome keyed now.work key).symm.trans there)

/-- A claim is the next attempt at its work. -/
theorem Ledger.take (ledger : Ledger limit now annals) {upkeep : Upkeep}
    (since : Since now (upkeep.on now))
    (there : ∃ row ∈ now.work, row.key = claim.key ∧ row.attempt + 1 = claim.attempt)
    (rows : ∀ row, upkeep.row row = if row.key = claim.key then { row with state := .claimed, attempt := row.attempt + 1 } else row)
    (charges : Charges upkeep) :
    Ledger limit (upkeep.on now) (annals.issue (some claim)) := by
  obtain ⟨row,member,named,attempt⟩ := there
  have keyed : ∀ row, (upkeep.row row).key = row.key := by
    intro row
    rw [rows]
    split_ifs <;> rfl
  have counts : ∀ key, administrativeAttempts (upkeep.on now) key = administrativeAttempts now key := charges.counts now
  have entries : entryAt (now.work.map upkeep.row) = Function.update (entryAt now.work) row.key (some ⟨row.attempt + 1,.held⟩) := by
    rw [entryAt_update ledger.unique member keyed (fun other _ apart => by rw [rows,if_neg (fun same => apart (by rw [same,named]))])]
    rw [rows,if_pos named]
    rfl
  have issued : ticket claim = ⟨row.key,(entryOf row).latest + 1⟩ := by
    rw [named]
    exact congrArg (Ticket.mk claim.key) attempt.symm
  constructor
  · exact unique_map ledger.unique keyed
  · have taken := ledger.sound.step (.take (entryAt_of_mem ledger.unique member))
    change Sound limit maxU32 ⟨entryAt (now.work.map upkeep.row),ticket claim :: annals.issued,_,_,_,_⟩
    rw [entries,issued]
    exact taken
  · intro key
    rw [counts]
    exact ledger.counted key
  · intro key there
    rw [counts]
    exact ledger.whole key ((entryAt_map_isSome keyed now.work key).symm.trans there)
  · intro taken inside
    rcases List.mem_cons.mp inside with rfl | earlier
    · exact lasting_since since (.inl (entryAt_isSome.mpr ⟨row,member,named⟩))
    · exact lasting_since since (ledger.lasting taken earlier)

/-- The rows of a claim's work are closed in a state, and the others are as they were. -/
structure Closed (claim : Claim) (state : WorkState) (work : List WorkRow) (change : WorkRow → WorkRow) : Prop where
  keyed : ∀ row, (change row).key = row.key
  held : ∀ row ∈ work, claim.holds row = true → change row = { row with state := state }
  others : ∀ row ∈ work, row.key ≠ claim.key → change row = row

theorem Closed.entries (unique : UniqueBy WorkRow.key now.work) (held : Held now claim) {state : WorkState}
    {change : WorkRow → WorkRow} (closed : Closed claim state now.work change) :
    entryAt (now.work.map change) = Function.update (entryAt now.work) claim.key (some ⟨claim.attempt,modeOf state⟩) := by
  obtain ⟨row,queued,holds⟩ := held
  have named : row.key = claim.key := Claim.holds_key holds
  have attempt : row.attempt = claim.attempt := by
    simp only [Claim.holds,Bool.and_eq_true,beq_iff_eq] at holds
    exact holds.2
  rw [entryAt_update unique queued closed.keyed (fun other inside apart => closed.others other inside (by rw [← named]; exact apart)),
    closed.held row queued holds,named,entryOf,attempt]

/-- The holder of a claim settles it. -/
theorem Ledger.settle (ledger : Ledger limit now annals) (since : Since now next) (held : Held now claim) {state : WorkState}
    {change : WorkRow → WorkRow} (is : next.work = now.work.map change) (closes : Closed claim state now.work change)
    (free : modeOf state ≠ .held)
    (closed : modeOf state = .shut → ∃ ceiling, (ticket claim,ceiling) ∈ annals.weighed ∧ ceiling ≤ claim.attempt)
    (counts : ∀ key, administrativeAttempts next key = administrativeAttempts now key) : Ledger limit next (annals.settle claim) := by
  constructor
  · rw [is]
    exact unique_map ledger.unique closes.keyed
  · have own : (annals.book now.work).entry (ticket claim).key = some ⟨(ticket claim).number,.held⟩ :=
      entryAt_held ledger.unique held
    have settled := ledger.sound.step (.settle own free closed)
    change Sound limit maxU32 ⟨entryAt next.work,_,_,_,ticket claim :: annals.settled,_⟩
    rw [is,closes.entries ledger.unique held]
    exact settled
  · intro key
    rw [counts]
    exact ledger.counted key
  · intro key there
    rw [counts]
    rw [is,entryAt_map_isSome closes.keyed] at there
    exact ledger.whole key there
  · exact fun taken member => lasting_since since (ledger.lasting taken member)

/-- The holder of a claim that was weighed is excused. -/
theorem Ledger.excuse (ledger : Ledger limit now annals) (since : Since now next) (held : Held now claim) {state : WorkState}
    {change : WorkRow → WorkRow} (is : next.work = now.work.map change) (closes : Closed claim state now.work change)
    (free : modeOf state ≠ .held) (cleared : ∃ ceiling, (ticket claim,ceiling) ∈ annals.weighed ∧ claim.attempt ≤ ceiling)
    (counts : ∀ key, administrativeAttempts next key = administrativeAttempts now key + if claim.key = key then 1 else 0) :
    Ledger limit next (annals.excuse claim) := by
  have more : ∀ key, ((annals.excuse claim).book next.work).excuses key =
      (annals.book now.work).excuses key + if claim.key = key then 1 else 0 := by
    intro key
    change (numbers (ticket claim :: annals.excused) key).length = (numbers annals.excused key).length + _
    rw [numbers_cons]
    change (if claim.key = key then _ else _ : List Nat).length = _
    split_ifs <;> rfl
  constructor
  · rw [is]
    exact unique_map ledger.unique closes.keyed
  · have own : (annals.book now.work).entry (ticket claim).key = some ⟨(ticket claim).number,.held⟩ :=
      entryAt_held ledger.unique held
    have settled := ledger.sound.step (.excuse own free cleared)
    change Sound limit maxU32 ⟨entryAt next.work,_,_,_,ticket claim :: annals.settled,ticket claim :: annals.excused⟩
    rw [is,closes.entries ledger.unique held]
    exact settled
  · intro key
    rw [counts,more]
    exact Nat.add_le_add_right (ledger.counted key) _
  · intro key there
    rw [counts,more]
    rw [is,entryAt_map_isSome closes.keyed] at there
    exact congrArg (· + _) (ledger.whole key there)
  · exact fun taken member => lasting_since since (ledger.lasting taken member)

/-! ### What else the store commits -/

/-- What becomes of work while no drain is at it: nothing, or it goes with what is recorded
    of it, or it is offered for a live memory. -/
inductive Befalls (now next : Stock) (key : WorkKey) : Prop
  | same (entry : entryAt next.work key = entryAt now.work key)
      (counts : administrativeAttempts next key = administrativeAttempts now key)
  | gone (entry : entryAt next.work key = none) (counts : administrativeAttempts next key = 0)
  | offered (was : entryAt now.work key = none) (entry : entryAt next.work key = some ⟨0,.idle⟩)
      (counts : administrativeAttempts next key = administrativeAttempts now key)
      (alive : ∃ memory ∈ next.memories, memory.id = key.memoryId ∧ memory.live = true)

/-- Work is offered to nobody who had it. -/
theorem Ledger.fresh (ledger : Ledger limit now annals) (since : Since now next) (ids : UniqueBy MemoryRow.id next.memories)
    {key : WorkKey} (was : entryAt now.work key = none)
    (alive : ∃ memory ∈ next.memories, memory.id = key.memoryId ∧ memory.live = true) :
    ∀ taken ∈ annals.issued, taken.key ≠ key := by
  rintro taken member rfl
  rcases ledger.lasting taken member with there | ⟨memory,inside,named,dead⟩
  · rw [was] at there
    cases there
  · obtain ⟨later,laterIn,sameId,kept⟩ := since.rows memory inside
    obtain ⟨living,livingIn,livingNamed,lives⟩ := alive
    have same := ids.eq_of_key laterIn livingIn (by rw [sameId,named,livingNamed])
    rw [← same,kept.erased dead,dead] at lives
    cases lives

theorem Ledger.unexcused (ledger : Ledger limit now annals) {key : WorkKey} (fresh : ∀ taken ∈ annals.issued, taken.key ≠ key) :
    (annals.book now.work).excuses key = 0 := by
  refine List.length_eq_zero_iff.mpr (List.eq_nil_iff_forall_not_mem.mpr fun number member => ?_)
  have settled := (ledger.sound.excusedSettled _ (mem_numbers.mp member)).1
  exact fresh _ (ledger.sound.settledIssued _ settled) rfl

theorem Ledger.befalls (ledger : Ledger limit now annals) (since : Since now next) (ids : UniqueBy MemoryRow.id next.memories)
    (unique : UniqueBy WorkRow.key next.work) (each : ∀ key, Befalls now next key) : Ledger limit next annals := by
  refine ledger.tend since unique (fun key => ?_) (fun key => ?_) (fun key there => ?_)
  · cases each key with
    | same entry counts =>
      rw [entry]
      exact .same _
    | gone entry counts =>
      rw [entry]
      cases entryAt now.work key with
      | none => exact .same none
      | some entry => exact .withdrawn entry
    | offered was entry counts alive =>
      rw [was,entry]
      exact .offered (ledger.fresh since ids was alive)
  · cases each key with
    | same entry counts =>
      rw [counts]
      exact ledger.counted key
    | gone entry counts =>
      rw [counts]
      exact Nat.zero_le _
    | offered was entry counts alive =>
      rw [counts]
      exact ledger.counted key
  · cases each key with
    | same entry counts =>
      rw [counts]
      exact ledger.whole key (by rw [← entry]; exact there)
    | gone entry counts =>
      rw [entry] at there
      cases there
    | offered was entry counts alive =>
      have least := ledger.counted key
      rw [ledger.unexcused (ledger.fresh since ids was alive)] at least ⊢
      rw [counts]
      exact Nat.le_zero.mp least

theorem entryAt_delete (gone : WorkKey → Bool) (work : List WorkRow) (key : WorkKey) :
    entryAt (deleteWhere (fun row => gone row.key) work) key = if gone key = true then none else entryAt work key := by
  unfold entryAt deleteWhere
  rw [List.find?_filter]
  split_ifs with hit
  · rw [Option.map_eq_none_iff,List.find?_eq_none]
    intro row member chosen
    obtain ⟨kept,named⟩ : gone row.key = false ∧ row.key = key := by simpa using chosen
    rw [named,hit] at kept
    cases kept
  · congr 2
    funext row
    by_cases named : row.key = key
    · simp [named,hit]
    · simp [named]

theorem administrative_delete (gone : WorkKey → Bool) (stock : Stock) (key : WorkKey) :
    administrativeAttempts { stock with attempts := deleteWhere (fun row => gone row.key) stock.attempts } key =
      if gone key = true then 0 else administrativeAttempts stock key := by
  unfold administrativeAttempts deleteWhere
  rw [List.countP_filter]
  split_ifs with hit
  · refine List.countP_eq_zero.mpr fun row member chosen => ?_
    simp only [Bool.and_eq_true,Bool.not_eq_true',beq_iff_eq] at chosen
    rw [chosen.1.1,hit] at chosen
    cases chosen.2
  · refine List.countP_congr fun row _ => ?_
    by_cases named : row.key = key
    · simp [named,hit]
    · simp [named]

section
variable {works : Works} {redigests : Bool} {history : List Stock}

theorem life_befalls (trail : Trail Basis Since history now) (unique : UniqueBy WorkRow.key now.work) {txn : Lifecycle.Txn}
    {target : Option ActiveEmbedding} (staged : Lifecycle.Stages works.fingerprint (history.map Stock.holdings) txn)
    (executed : commitLife works.fingerprint txn target now = .ok next) :
    UniqueBy WorkRow.key next.work ∧ ∀ key, Befalls now next key := by
  obtain ⟨holdings,committed,quiet | settles | sweeps⟩ := life_cases executed
  · obtain ⟨-,-,-,rfl⟩ := quiet
    exact ⟨unique,fun key => .same rfl rfl⟩
  · obtain ⟨provenance,scope,id,at',-,work,-,stagedWork⟩ := settles
    obtain ⟨memory,inside,here,lives⟩ := staged_live trail staged committed work
    simp only [ofScope,Bool.and_eq_true,beq_iff_eq] at here
    rcases stageTarget_ok stagedWork with ⟨model,-,-,rfl⟩ | ⟨-,rfl⟩
    · refine ⟨unique_stageWork unique _ _,fun key => ?_⟩
      rcases entryAt_stageWork ⟨scope,id,model.revision,model.identity.modelId⟩ at' now.work key with same | ⟨rfl,was,entry⟩
      · exact .same same rfl
      · exact .offered was entry rfl ⟨memory,inside,here.2,lives⟩
    · exact ⟨unique,fun key => .same rfl rfl⟩
  · obtain ⟨scope,shells,-,-,-,rfl⟩ := sweeps
    refine ⟨unique.delete _,fun key => ?_⟩
    have entry := entryAt_delete (fun key => ofShells scope shells key.scope key.memoryId) now.work key
    have counts := administrative_delete (fun key => ofShells scope shells key.scope key.memoryId) now key
    split_ifs at entry counts with hit
    · exact .gone entry counts
    · exact .same entry counts

theorem reembed_befalls (unique : UniqueBy WorkRow.key now.work) {scope : Scope} {model : ActiveEmbedding} {ids : List MemoryId}
    {at' : UnixSeconds} (executed : ids.foldlM (stageLiveEmbedding scope model at') now = .ok next) :
    UniqueBy WorkRow.key next.work ∧ ∀ key, Befalls now next key := by
  have staged : ∃ work, next = { now with work := work } ∧ UniqueBy WorkRow.key work ∧
      ∀ key, entryAt work key = entryAt now.work key ∨ (entryAt now.work key = none ∧ entryAt work key = some ⟨0,.idle⟩ ∧
        ∃ memory ∈ now.memories, memory.id = key.memoryId ∧ memory.live = true) := by
    refine foldlM_invariant (fun mid : Stock => ∃ work, mid = { now with work := work } ∧ UniqueBy WorkRow.key work ∧
      ∀ key, entryAt work key = entryAt now.work key ∨ (entryAt now.work key = none ∧ entryAt work key = some ⟨0,.idle⟩ ∧
        ∃ memory ∈ now.memories, memory.id = key.memoryId ∧ memory.live = true)) ?_ ⟨_,rfl,unique,fun _ => .inl rfl⟩ executed
    rintro id - mid after ⟨work,rfl,unique,each⟩ staged
    obtain ⟨_,live,rest⟩ := bind_ok_iff.mp staged
    obtain ⟨memory,inside,here,able⟩ := stageLiveMemoryGuard_ok live
    obtain ⟨-,rfl⟩ := stageActiveEmbedding_ok rest
    simp only [ofScope,Bool.and_eq_true,beq_iff_eq] at here
    have lives : memory.live = true := by
      simp only [embeddable,Bool.and_eq_true] at able
      exact able.1
    refine ⟨_,rfl,unique_stageWork unique _ _,fun key => ?_⟩
    rcases entryAt_stageWork ⟨scope,id,model.revision,model.modelId⟩ at' work key with same | ⟨rfl,was,entry⟩
    · rw [same]
      exact each key
    · rcases each _ with same | ⟨-,there,-⟩
      · exact .inr ⟨by rw [← same]; exact was,entry,memory,inside,here.2,lives⟩
      · rw [was] at there
        cases there
  obtain ⟨work,rfl,unique,each⟩ := staged
  refine ⟨unique,fun key => ?_⟩
  rcases each key with same | ⟨was,entry,alive⟩
  · exact .same same rfl
  · exact .offered was entry rfl alive

/-- What no drain commits takes no claim and settles none. -/
theorem elsewhere_befalls (trail : Trail Basis Since history now) (unique : UniqueBy WorkRow.key now.work) {txn : Txn}
    (other : drained txn = false) (staged : Pipeline.Stages works.fingerprint works.chunks redigests history txn)
    (executed : Pipeline.commit works.fingerprint works.scopeId now txn = .ok next) :
    UniqueBy WorkRow.key next.work ∧ ∀ key, Befalls now next key := by
  cases staged with
  | life target staged => exact life_befalls trail unique staged executed
  | redigest runs scope rows =>
    obtain ⟨change,-,rfl⟩ := redigest_ok executed
    exact ⟨unique,fun key => .same rfl rfl⟩
  | activate staged =>
    obtain ⟨models,-,rest⟩ := bind_ok_iff.mp executed
    cases rest
    exact ⟨unique,fun key => .same rfl rfl⟩
  | embed => cases other
  | completeEmpty => cases other
  | reconciled => cases other
  | reembed time bounded live read => exact reembed_befalls unique executed
  | dropRevision activeRead totalRead embeddedRead modelsRead prepared =>
    obtain ⟨⟨stock,affected⟩,dropped,rest⟩ := bind_ok_iff.mp executed
    cases rest
    obtain ⟨-,-,rfl⟩ := drop_ok dropped
    exact ⟨unique,fun key => .same rfl rfl⟩
  | upkeep => cases other

end

end

end Aicortex.Drains
