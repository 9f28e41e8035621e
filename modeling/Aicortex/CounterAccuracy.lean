import Aicortex.RecordAgreement
import Aicortex.Lib.Tally

/-!
The counters of a scope against the rows they count. Every transaction moves its
counters beside its rows, and the two select the same rows whatever the call read, so
every counter is exact in every state, with one exception: a memory that names itself
among its parents is among its own derivatives, a cascading erasure of it stages the
same counter moves twice, and buries one row.
-/

namespace Aicortex.CounterAccuracy
open Aicortex.Text Aicortex.CivilTime Aicortex.Memories Aicortex.Schema Aicortex.MemoryRepo Aicortex.Erasure
open Aicortex.Lifecycle Aicortex.RecordAgreement
open Lib.Tables Lib.Outcome Lib.StaleRuns Lib.Tally
open Aicortex.Claims hiding Unit
set_option linter.unusedSimpArgs false

/-- Every counter reads the number of the rows of its bucket. -/
def Accurate (store : Holdings) : Prop := store.counters.read = tally bucketOf store.db.memories

/-! ### Counters -/

section
variable {counters : Counters} {bucket : Bucket} {delta : Int}

theorem read_put (counters : Counters) (bucket : Bucket) (delta : Int) :
    Counters.read (Function.update counters bucket (some (counters.read bucket + delta))) =
      counters.read + Pi.single bucket delta := by
  funext other
  by_cases here : other = bucket
  · subst here
    simp [Counters.read]
  · simp [Counters.read,here]

theorem shift_read (counters : Counters) (bucket : Bucket) (delta : Int) :
    (shift counters bucket delta).read = counters.read + Pi.single bucket delta := by
  rw [← read_put,shift]
  congr 3
  cases count : counters bucket <;> simp [Counters.read,count]

/-- The upsert that stops at zero adds what it is given while it does not have to stop. -/
theorem adjust_read (enough : 0 ≤ counters.read bucket + delta) :
    (adjust counters bucket delta).read = counters.read + Pi.single bucket delta := by
  rw [← read_put,adjust]
  congr 3
  cases count : counters bucket with
  | none => simp [Counters.read,count]
  | some held =>
    simp only [Counters.read,count,Option.getD_some] at enough ⊢
    exact max_eq_right enough

theorem updateCounter_read {change : Int → Int} (there : (counters bucket).isSome = true)
    (moves : change (counters.read bucket) = counters.read bucket + delta) :
    (updateCounter counters bucket change).read = counters.read + Pi.single bucket delta := by
  rw [← read_put,updateCounter]
  congr 2
  obtain ⟨held,count⟩ := Option.isSome_iff_exists.mp there
  simp only [Counters.read,count,Option.getD_some] at moves
  simp [Counters.read,count,moves]

theorem foldl_read {β : Type} {step : Counters → β → Counters} {part : β → Bucket → Int}
    (each : ∀ counters item, (step counters item).read = counters.read + part item) (items : List β) (counters : Counters) :
    (items.foldl step counters).read = counters.read + (items.map part).sum := by
  induction items generalizing counters with
  | nil => simp
  | cons item rest ih => rw [List.foldl_cons,ih,each,List.map_cons,List.sum_cons,add_assoc]

end

/-! ### Erasure -/

section
variable {db : Database} {scope : Scope} {shells : List Shell} {at' : UnixSeconds}

theorem buried_bucket {row : MemoryRow} (hit : named scope shells row = true) :
    bucketOf (bury scope shells at' row) = (row.scope,row.kind,.erased) := by
  obtain ⟨-,sameScope,-,lives⟩ := bury_spec scope shells at' row
  have sameKind := (bury_steady scope shells at' row).2.kind
  have dead : (bury scope shells at' row).status = .erased := by
    rw [hit,Bool.not_true,Bool.and_false] at lives
    simpa [MemoryRow.live] using lives
  rw [bucketOf,sameScope,sameKind,dead]

/-- The two statements of a shell move its live row to the bucket of the erased. -/
theorem shell_read (rows : List MemoryRow) (counters : Counters) :
    (rows.foldl (fun counters row => shift counters (row.scope,row.kind,.erased) 1)
      (rows.foldl (fun counters row => shift counters (bucketOf row) (-1)) counters)).read =
      counters.read + moved bucketOf (fun row => { row with status := .erased }) rows := by
  rw [foldl_read (fun counters (row : MemoryRow) => shift_read counters (row.scope,row.kind,.erased) 1),
    foldl_read (fun counters (row : MemoryRow) => shift_read counters (bucketOf row) (-1)),add_assoc,← List.sum_map_add]
  refine congrArg (counters.read + List.sum ·) (List.map_congr_left fun row _ => ?_)
  rw [Pi.single_neg,neg_add_eq_sub]
  rfl

/-- The counter moves of an erasure are those of the rows it buries, if it names no
    memory twice. -/
theorem eraseCounters_read (distinct : (shells.map Shell.id).Nodup) (counters : Counters) :
    (eraseCounters db scope shells counters).read =
      counters.read + moved bucketOf (bury scope shells at') db.memories := by
  have apart : shells.Pairwise (fun left right => ∀ row ∈ db.memories,
      (ofScope scope left.id row && row.live) = true → (ofScope scope right.id row && row.live) = false) := by
    refine (List.pairwise_map.mp distinct).imp fun {left right} different row _ chosen => ?_
    simp only [ofScope,Bool.and_eq_true,beq_iff_eq] at chosen
    have missed : (row.id == right.id) = false := beq_false_of_ne fun same => different (chosen.1.2.symm.trans same)
    simp [ofScope,missed]
  have still : ∀ row ∈ db.memories, shells.any (fun shell => ofScope scope shell.id row && row.live) = false →
      bucketOf (bury scope shells at' row) = bucketOf row := by
    intro row _ missed
    rcases bury_cases scope shells at' row with ⟨-,same⟩ | ⟨alive,shell,listed,here,-⟩
    · rw [same]
    · rw [List.any_eq_false] at missed
      exact absurd (by rw [here,alive]; rfl) (missed shell listed)
  rw [← moved_parts shells apart still]
  refine (foldl_read (fun counters shell => shell_read (liveRows db scope shell) counters) shells counters).trans ?_
  refine congrArg (counters.read + List.sum ·) (List.map_congr_left fun shell listed => moved_congr fun row member => ?_)
  obtain ⟨-,chosen⟩ := List.mem_filter.mp member
  rw [buried_bucket (named_of_shell listed (Bool.and_eq_true_iff.mp chosen).1)]
  rfl

end

/-! ### Expiry -/

section
variable {db : Database} {scope : Scope} {ids : List MemoryId}

/-- The rows of a kind that an expiry pass changes. -/
def claims (scope : Scope) (ids : List MemoryId) (kind : MemoryKind) (row : MemoryRow) : Bool :=
  row.scope == scope && row.kind == kind && row.status == .active && ids.contains row.id

theorem claims_iff {kind : MemoryKind} {row : MemoryRow} :
    claims scope ids kind row = true ↔ bucketOf row = (scope,kind,.active) ∧ row.id ∈ ids := by
  simp only [claims,bucketOf,Bool.and_eq_true,beq_iff_eq,List.contains_iff_mem,Prod.mk.injEq]
  tauto

theorem claimed_eq (kind : MemoryKind) : claimed db scope ids kind = (db.memories.filter (claims scope ids kind)).length :=
  congrArg Nat.cast List.countP_eq_length_filter

/-- No more rows of a kind are claimed than are active. -/
theorem claimed_le (kind : MemoryKind) : claimed db scope ids kind ≤ tally bucketOf db.memories (scope,kind,.active) := by
  rw [tally_apply]
  refine Int.ofNat_le.mpr (List.countP_mono_left fun row _ chosen => decide_eq_true ?_)
  exact (claims_iff.mp chosen).1

/-- The two statements of a kind move what it claims, as far as the counter rows are there. -/
theorem kind_read {counters : Counters} {kind : MemoryKind} (active : (counters (scope,kind,.active)).isSome = true)
    (expired : (counters (scope,kind,.expired)).isSome = true)
    (enough : claimed db scope ids kind ≤ counters.read (scope,kind,.active)) :
    (updateCounter (updateCounter counters (scope,kind,.active) (fun count => max 0 (count - claimed db scope ids kind)))
      (scope,kind,.expired) (fun count => count + claimed db scope ids kind)).read =
      counters.read + (Pi.single (scope,kind,.expired) (claimed db scope ids kind) -
        Pi.single (scope,kind,.active) (claimed db scope ids kind)) := by
  generalize claimed db scope ids kind = number at enough ⊢
  have less : (updateCounter counters (scope,kind,.active) (fun count => max 0 (count - number))).read =
      counters.read + Pi.single (scope,kind,.active) (-number) :=
    updateCounter_read active (by omega)
  have stays := counted_updateCounter counters (scope,kind,.active) (fun count => max 0 (count - number))
    (scope,kind,.expired) expired
  have more : (updateCounter (updateCounter counters (scope,kind,.active) (fun count => max 0 (count - number)))
      (scope,kind,.expired) (fun count => count + number)).read = _ + Pi.single (scope,kind,.expired) number :=
    updateCounter_read stays rfl
  rw [more,less,Pi.single_neg]
  abel

theorem expireCounters_read {kinds : List MemoryKind} (distinct : kinds.Nodup) {counters : Counters}
    (active : ∀ kind ∈ kinds, (counters (scope,kind,.active)).isSome = true)
    (expired : ∀ kind ∈ kinds, (counters (scope,kind,.expired)).isSome = true)
    (enough : ∀ kind ∈ kinds, claimed db scope ids kind ≤ counters.read (scope,kind,.active)) :
    (expireCounters db scope ids kinds counters).read = counters.read + (kinds.map (fun kind =>
      Pi.single (scope,kind,StatusLabel.expired) (claimed db scope ids kind) -
        Pi.single (scope,kind,StatusLabel.active) (claimed db scope ids kind))).sum := by
  induction kinds generalizing counters with
  | nil => simp [expireCounters]
  | cons kind rest ih =>
    obtain ⟨fresh,distinct⟩ := List.nodup_cons.mp distinct
    have first := kind_read (active kind List.mem_cons_self) (expired kind List.mem_cons_self) (enough kind List.mem_cons_self)
    have counted := (counted_updateCounter counters (scope,kind,.active) (fun count => max 0 (count - claimed db scope ids kind))).trans
      (counted_updateCounter _ (scope,kind,.expired) (fun count => count + claimed db scope ids kind))
    rw [List.map_cons,List.sum_cons,← add_assoc,← first]
    refine ih distinct ?_ ?_ ?_
    · exact fun other member => counted _ (active other (List.mem_cons_of_mem _ member))
    · exact fun other member => counted _ (expired other (List.mem_cons_of_mem _ member))
    · intro other member
      have apart : other ≠ kind := fun same => fresh (same ▸ member)
      have untouched : (counters.read + (Pi.single (scope,kind,StatusLabel.expired) (claimed db scope ids kind) -
          Pi.single (scope,kind,StatusLabel.active) (claimed db scope ids kind)) : Bucket → Int) (scope,other,.active) =
          counters.read (scope,other,.active) := by
        simp [Pi.single_apply,apart]
      rw [first,untouched]
      exact enough other (List.mem_cons_of_mem _ member)

/-- An expiry pass moves the counters as it moves the rows, if its kinds cover its rows. -/
theorem expired_read {kinds : List MemoryKind} (distinct : kinds.Nodup) {counters : Counters}
    (active : ∀ kind ∈ kinds, (counters (scope,kind,.active)).isSome = true)
    (expired : ∀ kind ∈ kinds, (counters (scope,kind,.expired)).isSome = true)
    (covers : ∀ row ∈ db.memories, row.scope = scope → row.id ∈ ids → row.kind ∈ kinds) (at' : UnixSeconds)
    (accurate : counters.read = tally bucketOf db.memories) :
    (expireCounters db scope ids kinds counters).read = tally bucketOf (MemoryRepo.expire scope ids at' db).memories := by
  have apart : kinds.Pairwise (fun left right => ∀ row ∈ db.memories,
      claims scope ids left row = true → claims scope ids right row = false) := by
    refine distinct.imp fun {left right} different row _ chosen => ?_
    by_contra again
    have first := (claims_iff.mp chosen).1
    have second := (claims_iff.mp (Bool.of_not_eq_false again)).1
    rw [first] at second
    simp only [Prod.mk.injEq,and_true,true_and] at second
    exact different second
  have enough : ∀ kind ∈ kinds, claimed db scope ids kind ≤ counters.read (scope,kind,.active) := by
    intro kind _
    rw [accurate]
    exact claimed_le kind
  rw [expireCounters_read distinct active expired enough,accurate]
  unfold MemoryRepo.expire updateWhere
  rw [tally_map,← moved_parts kinds apart]
  · refine congrArg (tally bucketOf db.memories + List.sum ·) (List.map_congr_left fun kind _ => ?_)
    rw [claimed_eq]
    refine (moved_constant ?_ ?_).symm
    · exact fun row member => (claims_iff.mp (List.mem_filter.mp member).2).1
    · intro row member
      obtain ⟨bucket,inside⟩ := claims_iff.mp (List.mem_filter.mp member).2
      simp only [bucketOf,Prod.mk.injEq] at bucket
      simp [bucketOf,bucket,inside]
  · intro row member missed
    split_ifs with chosen
    · simp only [Bool.and_eq_true,beq_iff_eq,List.contains_iff_mem] at chosen
      rw [List.any_eq_false] at missed
      refine absurd (claims_iff.mpr ⟨?_,chosen.2⟩) (missed row.kind (covers row member chosen.1.1 chosen.2))
      rw [bucketOf,chosen.1.1,chosen.1.2]
    · rfl

/-- The kinds of a batch are listed once each. -/
theorem kindsOf_spec (db : Database) (scope : Scope) (ids : List MemoryId) :
    (kindsOf db scope ids).Nodup ∧
      ∀ row ∈ db.memories, row.scope = scope → row.id ∈ ids → row.kind ∈ kindsOf db scope ids := by
  obtain ⟨distinct,listed⟩ := foldl_distinct MemoryRow.kind
    (db.memories.filter (fun row => row.scope == scope && ids.contains row.id)) List.nodup_nil
  refine ⟨distinct,fun row member here inside => (listed row.kind).mpr (.inr ⟨row,List.mem_filter.mpr ⟨member,?_⟩,rfl⟩)⟩
  simp [here,inside]

end

/-! ### Runs -/

/-- A cascading erasure is not of a memory that names itself as its parent. -/
def SparesItself (now : Holdings) : Move → Prop
  | .erase prepared => prepared.cascade = true → derives now.db prepared.scope prepared.target prepared.target = false
  | _ => True

theorem captures_spare (settling : Settling) : ∀ move ∈ settling.moves, ∀ now, SparesItself now move := by
  intro move member now
  rcases Settling.mem_moves member with ⟨_,_,_,rfl⟩ | ⟨_,_,_,rfl⟩ | ⟨_,_,_,_,rfl⟩
  all_goals exact trivial

theorem tally_kept {selected : MemoryRow → Bool} {change : MemoryRow → MemoryRow} {rows : List MemoryRow}
    (kept : ∀ row, bucketOf (change row) = bucketOf row) :
    tally bucketOf (updateWhere selected change rows) = tally bucketOf rows := by
  rw [tally_update,moved_still fun row _ => kept row,add_zero]

/-- A supersession moves one row, which is as its caller read it. -/
theorem superseded_read {fingerprint : Memory → String} {now next : Holdings}
    (unique : UniqueBy MemoryRow.id now.db.memories) (aligned : AllAligned now) (accurate : Accurate now) {scope : Scope}
    {old new : MemoryId} {expected : Memory} {at' : UnixSeconds}
    (there : ∃ row ∈ now.db.memories, ofScope scope old row = true)
    (applied : (system fingerprint).apply now (.supersede scope old new expected at') = .ok next) : Accurate next := by
  obtain ⟨row,member,chosen⟩ := there
  obtain ⟨guard,rfl⟩ := supersede_applied applied
  obtain ⟨rfl,-,-⟩ := guard row member chosen
  have here := chosen
  simp only [ofScope,Bool.and_eq_true,beq_iff_eq] at here
  have columns := aligned row member
  have bucket : bucketOf row = (scope,row.record.kind,label row.record.status) := by
    rw [bucketOf,here.1,columns.kind,columns.status]
  have only : now.db.memories.filter (ofScope scope old) = [row] := by
    refine unique.filter_eq member chosen fun other _ otherChosen => ?_
    simp only [ofScope,Bool.and_eq_true,beq_iff_eq] at otherChosen
    exact otherChosen.2.trans here.2.symm
  have counted : 1 ≤ now.counters.read (scope,row.record.kind,label row.record.status) := by
    rw [accurate,← bucket]
    exact tally_pos member
  unfold Accurate
  dsimp only
  generalize (scope,row.record.kind,label row.record.status) = left at bucket counted ⊢
  have less : (adjust now.counters left (-1)).read = now.counters.read + Pi.single left (-1) := adjust_read (by omega)
  have enough : 0 ≤ (adjust now.counters left (-1)).read (scope,row.record.kind,.superseded) + 1 := by
    have counts := tally_nonneg bucketOf now.db.memories (scope,row.record.kind,.superseded)
    rw [less,accurate,Pi.add_apply,Pi.single_apply]
    split_ifs <;> omega
  have changed : bucketOf { row with
      status := .superseded
      supersededBy := some new
      record := { row.record with status := .superseded new, updated := at' }
      updated := secondsToSql at' } = (scope,row.record.kind,.superseded) := by
    rw [← columns.kind,← here.1]
    rfl
  rw [adjust_read enough,less,accurate,tally_update,only,moved_singleton,changed,bucket,Pi.single_neg]
  unfold unit
  abel

theorem batchShells_distinct {db : Database} (unique : UniqueBy MemoryRow.id db.memories) (scope : Scope) (batch : Nat) :
    ((batchShells db scope batch).map Shell.id).Nodup := by
  unfold batchShells
  rw [List.map_map]
  refine List.Nodup.sublist ((List.take_sublist _ _).map _) ?_
  refine ((List.perm_insertionSort _ _).map _).nodup_iff.mpr ?_
  exact List.Nodup.sublist (List.filter_sublist.map _) unique

theorem derivedOf_nodup {db : Database} (unique : UniqueBy derivationKey db.derivations) (scope : Scope) (parent : MemoryId) :
    (derivedOf db scope parent).Nodup := by
  refine List.Nodup.map_on ?_ ((List.Nodup.of_map _ unique).filter _)
  intro left leftIn right rightIn same
  obtain ⟨leftIn,leftChosen⟩ := List.mem_filter.mp leftIn
  obtain ⟨rightIn,rightChosen⟩ := List.mem_filter.mp rightIn
  simp only [Bool.and_eq_true,beq_iff_eq] at leftChosen rightChosen
  exact unique.eq_of_key leftIn rightIn (Prod.ext same (leftChosen.2.trans rightChosen.2.symm))

section
variable {fingerprint : Memory → String} {history : List Holdings} {now : Holdings}

/-- An erasure names its target once and each derivative once. -/
theorem shells_distinct (trail : System.Trail (fun state => (Tidy state ∧ AllAligned state) ∧ Accurate state) Since history now)
    (tidy : Tidy now) {prepared : PreparedErasure} (fit : Fit fingerprint history (.erase prepared))
    (spares : SparesItself now (.erase prepared))
    (there : ∃ row ∈ now.db.memories, ofScope prepared.scope prepared.target row = true ∧ row.live = true) :
    (prepared.shells.map Shell.id).Nodup := by
  obtain ⟨⟨root,derived,shells,rootId,sublist⟩,⟨seen,inside,cascaded⟩,-⟩ := fit
  have distinct : prepared.cascaded.Nodup := by
    rw [cascaded]
    split_ifs
    · exact derivedOf_nodup (trail.held seen inside).1.1.derived _ _
    · exact List.nodup_nil
  rw [shells,List.map_cons,rootId]
  refine List.nodup_cons.mpr ⟨fun listed => ?_,distinct.sublist sublist⟩
  have own := sublist.subset listed
  rw [cascaded] at own
  split_ifs at own with cascade
  · obtain ⟨row,member,here,alive⟩ := there
    simp only [ofScope,Bool.and_eq_true,beq_iff_eq] at here
    obtain ⟨edge,chosen,same⟩ := List.mem_map.mp own
    obtain ⟨edgeIn,ofParent⟩ := List.mem_filter.mp chosen
    have was : derives seen.db prepared.scope prepared.target row.id = true := by
      refine List.any_eq_true.mpr ⟨edge,edgeIn,?_⟩
      rw [ofParent,here.2,same]
      simp
    have still := derives_still trail tidy.unique inside member alive was
    rw [here.2,spares cascade] at still
    cases still
  · cases own

/-- The kinds an expiry pass read are those of its rows. -/
theorem kinds_cover (trail : System.Trail (fun state => (Tidy state ∧ AllAligned state) ∧ Accurate state) Since history now)
    (unique : UniqueBy MemoryRow.id now.db.memories) {scope : Scope} {ids : List MemoryId} {first second : Database}
    (reads : ReadInOrder history first second) (known : ∀ id ∈ ids, ∃ row ∈ first.memories, ofScope scope id row = true) :
    ∀ row ∈ now.db.memories, row.scope = scope → row.id ∈ ids → row.kind ∈ kindsOf second scope ids := by
  intro row member _ inside
  obtain ⟨recent,seen,older,rfl,rfl,again,againIn,rfl⟩ := reads
  obtain ⟨old,oldIn,chosen⟩ := known row.id inside
  simp only [ofScope,Bool.and_eq_true,beq_iff_eq] at chosen
  have seenIn : seen ∈ recent ++ seen :: older := List.mem_append_right _ List.mem_cons_self
  have since : Since seen again := by
    rcases List.mem_append.mp againIn with later | same
    · exact (List.pairwise_append.mp trail.ordered).2.2 again later seen List.mem_cons_self
    · rw [List.mem_singleton.mp same]
      exact Since.still seen
  obtain ⟨mid,midIn,same,steady⟩ := since.rows.stays oldIn
  have listed := (kindsOf_spec again.db scope ids).2 mid midIn (steady.scope.trans chosen.1)
    (by rw [same,chosen.2]; exact inside)
  have current : Steady old row := Seen.current trail unique ⟨seen,seenIn,oldIn⟩ member chosen.2.symm
  rw [current.kind,← steady.kind]
  exact listed

theorem materialize_there (scope : Scope) (kinds : List MemoryKind) (counters : Counters) :
    ∀ kind ∈ kinds, (materialize scope kinds counters (scope,kind,.active)).isSome = true ∧
      (materialize scope kinds counters (scope,kind,.expired)).isSome = true := by
  induction kinds generalizing counters with
  | nil => exact fun kind member => by cases member
  | cons first rest ih =>
    intro kind member
    have unfolded : materialize scope (first :: rest) counters = materialize scope rest
        (adjust (adjust counters (scope,first,.expired) 0) (scope,first,.active) 0) := rfl
    rw [unfolded]
    rcases List.mem_cons.mp member with rfl | later
    · exact ⟨counted_materialize _ _ _ _ (by simp [adjust]),counted_materialize _ _ _ _ (by simp [adjust])⟩
    · exact ih _ kind later

theorem materialize_read {counters : Counters} (held : ∀ bucket, 0 ≤ counters.read bucket) (scope : Scope)
    (kinds : List MemoryKind) : (materialize scope kinds counters).read = counters.read := by
  induction kinds generalizing counters with
  | nil => rfl
  | cons kind rest ih =>
    have expired : (adjust counters (scope,kind,.expired) 0).read = counters.read := by
      rw [adjust_read (by simpa using held _),Pi.single_zero,add_zero]
    have both : (adjust (adjust counters (scope,kind,.expired) 0) (scope,kind,.active) 0).read = counters.read := by
      rw [adjust_read (by rw [expired]; simpa using held _),Pi.single_zero,add_zero,expired]
    have unfolded : materialize scope (kind :: rest) counters = materialize scope rest
        (adjust (adjust counters (scope,kind,.expired) 0) (scope,kind,.active) 0) := rfl
    rw [unfolded,ih (by rw [both]; exact held),both]

theorem Accurate.nonneg (accurate : Accurate now) (bucket : Bucket) : 0 ≤ now.counters.read bucket := by
  rw [accurate]
  exact tally_nonneg _ _ _

/-- Every move keeps the counters exact, if it spares the memories derived from themselves. -/
theorem accurate_keeps :
    System.Keeps (system fingerprint) SparesItself (Fit fingerprint)
      (fun state => (Tidy state ∧ AllAligned state) ∧ Accurate state) Since := by
  refine aligned_keeps.further rfl ?_
  intro history now move next trail ⟨tidy,aligned⟩ accurate fit spares applied
  cases move with
  | insert maxBodyBytes memory provenance =>
    obtain ⟨-,-,-,rfl⟩ := insert_applied applied
    have held := accurate.nonneg (memory.scope,memory.kind,label memory.status)
    show (adjust now.counters _ 1).read = tally bucketOf (now.db.memories ++ _)
    rw [adjust_read (by omega),tally_append,accurate]
    rfl
  | source scope id provenance =>
    cases applied
    exact accurate
  | merge scope id expected again =>
    obtain ⟨-,rfl⟩ := merge_applied applied
    refine accurate.trans (tally_kept ?_).symm
    exact fun _ => rfl
  | supersede scope old new expected at' =>
    obtain ⟨row,seen,here,-⟩ := fit
    obtain ⟨found,inside,same,steady⟩ := seen.stays trail
    refine superseded_read tidy.unique aligned accurate ⟨found,inside,?_⟩ applied
    rw [ofScope,steady.scope,same]
    exact here
  | setValidUntil scope id until' =>
    cases applied
    refine accurate.trans (tally_kept ?_).symm
    exact fun _ => rfl
  | materialize scope kinds =>
    cases applied
    exact (materialize_read accurate.nonneg scope kinds).trans accurate
  | expire scope ids kinds at' =>
    cases applied
    obtain ⟨⟨first,second,reads,rfl,known⟩,before,prepared⟩ := fit
    have there := materialize_there scope (kindsOf second scope ids) before.counters
    have counted := (trail.since _ prepared).counted
    refine expired_read (kindsOf_spec second scope ids).1 ?_ ?_ (kinds_cover trail tidy.unique reads known) at' accurate
    · exact fun kind listed => counted _ (there kind listed).1
    · exact fun kind listed => counted _ (there kind listed).2
  | erase prepared =>
    obtain ⟨alive,-,memories,counters,-⟩ := erase_applied applied
    have distinct := shells_distinct trail tidy fit spares alive
    unfold Accurate
    rw [counters,memories,tally_kept,tally_map,eraseCounters_read distinct,accurate]
    exact fun _ => rfl
  | startScope scope decisionId =>
    obtain ⟨receipts,rfl⟩ := startScope_applied applied
    exact accurate
  | drain scope operation shells at' =>
    obtain ⟨-,memories,counters,-⟩ := drain_applied applied
    obtain ⟨seen,inside,batch,rfl⟩ := fit
    have distinct := batchShells_distinct (trail.held seen inside).1.1.unique scope batch
    unfold Accurate
    rw [counters,memories,tally_map,eraseCounters_read distinct,accurate]
  | deliver scope target decisionId =>
    cases applied
    exact accurate

/-- In every state of a run that erases no self-derived memory with its derivatives, a
    counter reads the number of rows of its scope, kind and status. -/
theorem counters_accurate {log : List (Txn × Holdings)} (run : System.Run (system fingerprint) SparesItself log)
    {state : Holdings} (reached : state ∈ (system fingerprint).states log) (scope : Scope) (kind : MemoryKind)
    (status : StatusLabel) :
    state.counters.read (scope,kind,status) =
        state.db.memories.countP (fun row => row.scope == scope && row.kind == kind && row.status == status) ∧
      0 ≤ state.counters.read (scope,kind,status) := by
  have accurate : Accurate state := ((run.trail fits accurate_keeps).held state reached).2
  refine ⟨?_,accurate.nonneg _⟩
  rw [accurate,tally_apply]
  refine congrArg Nat.cast (List.countP_congr fun row _ => ?_)
  simp [bucketOf,and_assoc]

end

namespace Sample
open Claims.Sample hiding secondId
open Store.Sample Lifecycle.Sample

/-- A note that names itself as its parent. -/
def selfDerived : List (Txn × Holdings) := captured [] (noted noteId "aisle seat" .evidence [noteId] 1)

/-- Its cascading erasure counts it out twice. -/
theorem self_derived_counted_twice :
    System.Run (system textOf) (fun _ _ => True) (erased selfDerived noteId true) ∧
      ((system textOf).current (erased selfDerived noteId true)).counters.read (scope,.fact,.active) = -1 ∧
      ((system textOf).current (erased selfDerived noteId true)).db.memories.countP
        (fun row => row.scope == scope && row.kind == .fact && row.status == .active) = 0 ∧
      ((system textOf).current (erased selfDerived noteId true)).counters.read (scope,.fact,.erased) = 2 ∧
      ((system textOf).current (erased selfDerived noteId true)).db.memories.countP
        (fun row => row.scope == scope && row.kind == .fact && row.status == .erased) = 1 := by
  refine ⟨run_erased (run_captured_free .start (noted_admitted aisle_passes _ _ _ _)) fun _ _ => trivial,?_,?_,?_,?_⟩
  all_goals decide +kernel

/-- A note and one derived from it. -/
def derivedNotes : List (Txn × Holdings) :=
  captured (captured [] (noted noteId "aisle seat" .evidence [] 1)) (noted secondId "window seat" .evidence [noteId] 1)

/-- A cascading erasure of the first takes both, and the counters follow. -/
theorem counters_accurate_cascade :
    System.Run (system textOf) SparesItself (erased derivedNotes noteId true) ∧
      (erased derivedNotes noteId true).length = 3 ∧
      ((system textOf).current (erased derivedNotes noteId true)).counters.read (scope,.fact,.erased) = 2 := by
  have run : System.Run (system textOf) SparesItself (erased derivedNotes noteId true) := by
    refine run_erased (run_captured (run_captured .start (noted_admitted aisle_passes _ _ _ _) ?_)
      (noted_admitted window_passes _ _ _ _) ?_) ?_
    · exact fun settling _ => System.meetAll_of_forall (captures_spare settling) _
    · exact fun settling _ => System.meetAll_of_forall (captures_spare settling) _
    · intro prepared staged _
      obtain ⟨rightScope,rightTarget⟩ := prepareErase_target staged
      rw [rightScope,rightTarget]
      decide +kernel
  refine ⟨run,by decide +kernel,?_⟩
  rw [(counters_accurate run ((system textOf).current_mem _) scope .fact .erased).1]
  decide +kernel

end Sample

end Aicortex.CounterAccuracy
