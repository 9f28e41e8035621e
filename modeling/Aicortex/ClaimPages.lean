import Aicortex.ClaimTables
import Aicortex.Lib.Paging

/-!
When a history page can be read. The page is cut by the bound, the predicate, the
cursor and the limit, while the relations and the retractions are read for the whole
subject. A document that does not parse is refused wherever it is met, and a retraction
whose claim is not on the page is refused by the rebuilt history.
-/

namespace Aicortex.ClaimPages
open Aicortex.Text Aicortex.CivilTime Aicortex.History Aicortex.Projection Aicortex.ClaimGate Aicortex.Schema
open Aicortex.ClaimRepo Aicortex.ClaimTables Aicortex.ClaimDocuments
open Lib.Ordered Lib.Tables Lib.Outcome Lib.Paging Lib.Wire
open Aicortex.Wire (Form PointReadable timePoint_faithful timePoint_keeps_iff)
open Aicortex.ClaimWire (ClaimSized ClaimReadable ProvenanceSized ProvenanceReadable)
open Aicortex.Claims hiding Unit
set_option linter.unusedSimpArgs false

/-! ### What is read of a document -/

/-- The numbers of the stored documents are of the source's machine types. -/
structure Sized (db : Database) : Prop where
  claims : ∀ row ∈ db.claims, ∀ claim ∈ row.claim, ClaimSized claim
  admissions : ∀ row ∈ db.claims, AdmissionSized row.admission
  relations : ∀ row ∈ db.relations, ∀ relation ∈ row.document, ProvenanceSized relation.provenance
  retractions : ∀ row ∈ db.retractions, RetractionSized row.document

/-- Nothing a row was written from is of the kinds that are written but not read back. -/
structure Legible (row : ClaimRow) : Prop where
  claim : ∀ claim ∈ row.claim, ClaimReadable claim
  valid : ValidTimeReadable row.validTime
  sourceTime : ∀ point ∈ row.sourceTime, PointReadable point

def LegibleRelation (row : RelationRow) : Prop := ∀ relation ∈ row.document, ProvenanceReadable relation.provenance

def LegibleRetraction (row : RetractionRow) : Prop := ProvenanceReadable row.document.provenance

theorem parse_ok_iff {α : Type} {serde : Serde} {what : String} {form : Form α} (faithful : form.Faithful)
    {written read : α} : parse serde what form written = .ok read ↔ read = written ∧ form.Keeps written := by
  rw [← faithful.read_iff]
  unfold parse
  cases form.decode (form.encode written) <;> simp [Except.mapError]

/-- The record a row's document is read as. -/
def rowRecord (row : ClaimRow) : Option ClaimRecord := row.claim.map (recordOf row)

/-- A live row is read as the record of its document, when everything in it is. -/
theorem decodeLive_ok_iff {serde : Serde} {row : ClaimRow} {claim : Claim} (document : row.claim = some claim)
    (sourced : row.admission.sourcing = row.sourcing) (sized : ClaimSized claim) (admitted : AdmissionSized row.admission)
    {record : ClaimRecord} : decodeLive serde row = .ok record ↔ record = recordOf row claim ∧ Legible row := by
  have times (written read : Option TimePoint) : written.mapM (parse serde "source time" Wire.timePoint) = .ok read ↔
      read = written ∧ ∀ point ∈ written, PointReadable point := by
    cases written with
    | none => simp [pure,Except.pure,eq_comm]
    | some point =>
      rw [Option.mapM_some,map_ok_iff]
      simp only [parse_ok_iff timePoint_faithful,timePoint_keeps_iff]
      constructor
      · rintro ⟨value,⟨rfl,kept⟩,rfl⟩
        exact ⟨rfl,fun _ stated => Option.some.inj stated ▸ kept⟩
      · rintro ⟨rfl,kept⟩
        exact ⟨point,⟨rfl,kept point rfl⟩,rfl⟩
  have kept := admissionRef_keeps serde.foreign admitted
  have validTimes {valid : ValidTime} : parse serde "valid time" validTime row.validTime = .ok valid ↔
      valid = row.validTime ∧ ValidTimeReadable row.validTime := by
    unfold parse
    rw [← validTime_read_iff]
    cases validTime.decode (validTime.encode row.validTime) <;> simp [Except.mapError]
  have admissions {admission : AdmissionRef} : parse serde "admission reference" (admissionRef serde.foreign) row.admission =
      .ok admission ↔ admission = row.admission := by
    rw [parse,kept]
    simp [Except.mapError,eq_comm]
  simp only [decodeLive,document,bind_ok_iff,parse_ok_iff (ClaimWire.claim_faithful serde.foreign),
    ClaimWire.claim_keeps_iff serde.foreign sized,admissions]
  constructor
  · rintro ⟨_,⟨rfl,claimKept⟩,_,rfl,taken⟩
    rw [if_neg (not_not.mpr sourced)] at taken
    obtain ⟨valid,readValid,taken⟩ := bind_ok_iff.mp taken
    obtain ⟨sourceTime,readTime,taken⟩ := bind_ok_iff.mp taken
    obtain ⟨rfl,validKept⟩ := validTimes.mp readValid
    obtain ⟨rfl,timeKept⟩ := (times _ _).mp readTime
    cases taken
    refine ⟨rfl,fun stated held => ?_,validKept,timeKept⟩
    rw [document] at held
    exact Option.some.inj held ▸ claimKept
  · rintro ⟨rfl,legible⟩
    refine ⟨claim,⟨rfl,legible.claim claim document⟩,row.admission,rfl,?_⟩
    rw [if_neg (not_not.mpr sourced)]
    exact bind_ok_iff.mpr ⟨_,validTimes.mpr ⟨rfl,legible.valid⟩,
      bind_ok_iff.mpr ⟨_,(times _ _).mpr ⟨rfl,legible.sourceTime⟩,rfl⟩⟩

/-! ### The rows of a page -/

private theorem subjectKey_nonempty (key : SubjectKey) : key.text ≠ "" := by
  intro blank
  have legal := key.legal
  rw [blank] at legal
  exact absurd legal (by decide)

/-- A row a query can meet: live, under its own id and scope. -/
structure Readable (scope : Scope) (row : ClaimRow) : Prop where
  live : row.erased = false
  inScope : row.scope = scope
  sourced : row.admission.sourcing = row.sourcing
  document : ∃ claim, row.claim = some claim ∧ claim.id = row.claimId ∧ claim.scope = scope

theorem Readable.recorded {scope : Scope} {row : ClaimRow} (readable : Readable scope row) :
    ∃ record, rowRecord row = some record := by
  obtain ⟨claim,document,-⟩ := readable.document
  exact ⟨recordOf row claim,by rw [rowRecord,document,Option.map_some]⟩

theorem selected_readable {db : Database} (consistent : Consistent db) {query : HistoryQuery} {row : ClaimRow}
    (member : row ∈ db.claims) (selected : ofSubject query.scope query.subject row = true) :
    Readable query.scope row := by
  simp only [ofSubject,Bool.and_eq_true,beq_iff_eq] at selected
  obtain ⟨⟨⟨inScope,-⟩,-⟩,keyed⟩ := selected
  have faithful := consistent.faithful row member
  have live : row.erased = false := by
    by_contra erased
    exact subjectKey_nonempty query.subject.key (keyed ▸ faithful.blank (by simpa using erased))
  obtain ⟨claim,document,named,owned,sourced⟩ := faithful.live live
  exact ⟨live,inScope,sourced,claim,document,named,owned.trans inScope⟩

theorem mem_pageRows {db : Database} {query : HistoryQuery} {after limit : Nat} {row : ClaimRow}
    (member : row ∈ pageRows db query after limit) :
    row ∈ db.claims ∧ query.selects row = true ∧ after < row.txSeq := by
  have sorted := List.mem_of_mem_take member
  rw [List.mem_insertionSort,List.mem_filter] at sorted
  simpa using sorted

theorem selects_ofSubject {query : HistoryQuery} {row : ClaimRow} (selected : query.selects row = true) :
    ofSubject query.scope query.subject row = true := by
  simp only [HistoryQuery.selects,Bool.and_eq_true] at selected
  exact selected.1.1

/-- The rows a query matches, beyond no cursor yet. -/
def matching (db : Database) (query : HistoryQuery) : List ClaimRow := db.claims.filter query.selects

theorem mem_matching {db : Database} {query : HistoryQuery} {row : ClaimRow} :
    row ∈ matching db query ↔ row ∈ db.claims ∧ query.selects row = true := List.mem_filter

theorem matching_ids {db : Database} (consistent : Consistent db) (query : HistoryQuery) :
    UniqueBy ClaimRow.claimId (matching db query) :=
  consistent.ids.sublist (List.filter_sublist.map _)

theorem matching_unique {db : Database} (consistent : Consistent db) (query : HistoryQuery) :
    UniqueBy ClaimRow.txSeq (matching db query) := by
  refine List.Nodup.of_map (fun seq => (query.scope,seq)) ?_
  rw [List.map_map]
  have numbered : ((matching db query).map (fun row => (row.scope,row.txSeq))).Nodup :=
    consistent.numbers.sublist (List.filter_sublist.map _)
  refine (List.map_congr_left fun row member => ?_) ▸ numbered
  obtain ⟨inside,selected⟩ := mem_matching.mp member
  simp [(selected_readable consistent inside (selects_ofSubject selected)).inScope]

theorem pageRows_eq (db : Database) (query : HistoryQuery) (after limit : Nat) :
    pageRows db query after limit = (beyond ClaimRow.txSeq after (matching db query)).take limit := by
  unfold pageRows beyond matching
  rw [List.filter_filter]
  simp only [Bool.and_comm]

/-- Distinct by any key the matching rows are unique by. -/
theorem pageRows_unique {κ : Type} {db : Database} {key : ClaimRow → κ} {query : HistoryQuery}
    (unique : UniqueBy key (matching db query)) (after limit : Nat) : UniqueBy key (pageRows db query after limit) := by
  rw [pageRows_eq]
  have sorted : UniqueBy key (beyond ClaimRow.txSeq after (matching db query)) :=
    ((beyond_perm after _).map key).nodup_iff.mpr (unique.sublist (List.filter_sublist.map key))
  exact sorted.sublist ((List.take_sublist limit _).map key)

/-! ### Loading the claims -/

/-- A history that holds the records of some rows and nothing else. -/
structure Loaded (rows : List ClaimRow) (history : ClaimHistory) : Prop where
  claims : ∀ id record, history.claims.find? id = some record ↔
    ∃ row ∈ rows, row.claimId = id ∧ rowRecord row = some record
  used : ∀ scope seq, seq ∈ history.usedIn scope → ∃ row ∈ rows, row.txSeq = seq
  unrelated : history.relations = []
  unretracted : history.retractions = []

theorem new_loaded : Loaded [] ClaimHistory.new := by
  refine ⟨by simp [ClaimHistory.new],?_,rfl,rfl⟩
  intro scope seq used
  simp [ClaimHistory.usedIn,ClaimHistory.new] at used

/-- The rows a page reads, whose documents are of machine numbers. -/
structure Rows (scope : Scope) (rows : List ClaimRow) : Prop where
  readable : ∀ row ∈ rows, Readable scope row
  claims : ∀ row ∈ rows, ∀ claim ∈ row.claim, ClaimSized claim
  admissions : ∀ row ∈ rows, AdmissionSized row.admission

private theorem Rows.decodes (serde : Serde) {scope : Scope} {rows : List ClaimRow} (held : Rows scope rows) {row : ClaimRow}
    (member : row ∈ rows) : ∃ claim, row.claim = some claim ∧ claim.id = row.claimId ∧ claim.scope = scope ∧
      ∀ record, decodeLive serde row = .ok record ↔ record = recordOf row claim ∧ Legible row := by
  obtain ⟨claim,document,named,owned⟩ := (held.readable row member).document
  exact ⟨claim,document,named,owned,fun record => decodeLive_ok_iff document (held.readable row member).sourced
    (held.claims row member claim document) (held.admissions row member)⟩

private theorem loadClaim_loaded (serde : Serde) {scope : Scope} {done rows : List ClaimRow} {history : ClaimHistory}
    {row : ClaimRow} (loaded : Loaded done history) (held : Rows scope rows) (inRows : row ∈ rows) (legible : Legible row)
    (fresh : ∀ other ∈ done, other.claimId ≠ row.claimId) (unused : ∀ other ∈ done, other.txSeq ≠ row.txSeq) :
    ∃ next, loadClaim serde history row = .ok next ∧ Loaded (done ++ [row]) next := by
  obtain ⟨claim,document,named,owned,decodes⟩ := held.decodes serde inRows
  have decoded := (decodes _).mpr ⟨rfl,legible⟩
  have recorded : rowRecord row = some (recordOf row claim) := by rw [rowRecord,document,Option.map_some]
  have unknown : history.claims.find? claim.id = none := by
    cases found : history.claims.find? claim.id with
    | none => rfl
    | some record =>
      obtain ⟨other,member,same,-⟩ := (loaded.claims _ _).mp found
      exact absurd (same.trans named) (fresh other member)
  have free : row.txSeq ∉ history.usedIn claim.scope.display := by
    intro used
    obtain ⟨other,member,same⟩ := loaded.used _ _ used
    exact unused other member same
  cases executed : history.appendClaim (recordOf row claim) with
  | error refusal => simp [ClaimHistory.appendClaim,recordOf,OrdMap.contains,unknown,free] at executed
  | ok next =>
    obtain ⟨-,-,claims,relations,retractions,usedTx⟩ := ClaimHistory.appendClaim_ok executed
    refine ⟨next,by simp [loadClaim,(held.readable row inRows).live,decoded,executed,corrupt,Except.mapError],?_⟩
    constructor
    · intro id record
      rw [claims,OrdMap.find?_insert]
      by_cases same : id = claim.id
      · subst same
        simp only [recordOf,if_true,Option.some.injEq]
        constructor
        · rintro rfl
          exact ⟨row,by simp,named.symm,recorded⟩
        · rintro ⟨other,member,sameId,reads⟩
          rcases List.mem_append.mp member with old | last
          · exact absurd (sameId.trans named) (fresh other old)
          · obtain rfl := List.mem_singleton.mp last
            exact Option.some.inj (recorded.symm.trans reads)
      · simp only [recordOf,same,if_false,loaded.claims]
        constructor
        · rintro ⟨other,member,sameId,reads⟩
          exact ⟨other,List.mem_append_left _ member,sameId,reads⟩
        · rintro ⟨other,member,sameId,reads⟩
          rcases List.mem_append.mp member with old | last
          · exact ⟨other,old,sameId,reads⟩
          · obtain rfl := List.mem_singleton.mp last
            exact absurd (sameId.symm.trans named.symm) same
    · intro scope' seq used
      rw [ClaimHistory.usedIn,usedTx,OrdMap.find?_insert] at used
      split_ifs at used with same
      · simp only [Option.getD_some,OrdSet.mem_insert] at used
        rcases used with rfl | old
        · exact ⟨row,by simp,rfl⟩
        · obtain ⟨other,member,sameSeq⟩ := loaded.used _ _ old
          exact ⟨other,List.mem_append_left _ member,sameSeq⟩
      · obtain ⟨other,member,sameSeq⟩ := loaded.used scope' seq used
        exact ⟨other,List.mem_append_left _ member,sameSeq⟩
    · rw [relations,loaded.unrelated]
    · rw [retractions,loaded.unretracted]

/-- Legible rows with distinct ids and numbers load. -/
theorem loadClaims_loaded (serde : Serde) {scope : Scope} (rows done : List ClaimRow) (history : ClaimHistory)
    (loaded : Loaded done history) (held : Rows scope rows) (legible : ∀ row ∈ rows, Legible row)
    (ids : UniqueBy ClaimRow.claimId (done ++ rows)) (numbers : UniqueBy ClaimRow.txSeq (done ++ rows)) :
    ∃ next, rows.foldlM (loadClaim serde) history = .ok next ∧ Loaded (done ++ rows) next := by
  induction rows generalizing done history with
  | nil => exact ⟨history,rfl,by simpa using loaded⟩
  | cons row rest ih =>
    have split : done ++ row :: rest = (done ++ [row]) ++ rest := by simp
    have fresh : ∀ other ∈ done, other.claimId ≠ row.claimId := by
      intro other member same
      have apart := (List.nodup_append.mp (by simpa [UniqueBy] using ids)).2.2
      exact apart _ (List.mem_map_of_mem member) _ (by simp) same
    have unused : ∀ other ∈ done, other.txSeq ≠ row.txSeq := by
      intro other member same
      have apart := (List.nodup_append.mp (by simpa [UniqueBy] using numbers)).2.2
      exact apart _ (List.mem_map_of_mem member) _ (by simp) same
    obtain ⟨next,stepped,now⟩ := loadClaim_loaded serde loaded held List.mem_cons_self
      (legible row List.mem_cons_self) fresh unused
    rw [split] at ids numbers ⊢
    obtain ⟨final,remaining,finished⟩ := ih (done ++ [row]) next now
      ⟨fun other member => held.readable other (List.mem_cons_of_mem _ member),
        fun other member => held.claims other (List.mem_cons_of_mem _ member),
        fun other member => held.admissions other (List.mem_cons_of_mem _ member)⟩
      (fun other member => legible other (List.mem_cons_of_mem _ member)) ids numbers
    exact ⟨final,by rw [List.foldlM_cons,stepped]; exact remaining,finished⟩

/-- Rows load only if every one of them is legible. -/
theorem loadClaims_legible {serde : Serde} {scope : Scope} {rows : List ClaimRow} (held : Rows scope rows)
    {history next : ClaimHistory} (executed : rows.foldlM (loadClaim serde) history = .ok next) :
    ∀ row ∈ rows, Legible row := by
  intro row member
  obtain ⟨before,after,loaded⟩ := foldlM_took executed member
  obtain ⟨claim,-,-,-,decodes⟩ := held.decodes serde member
  rw [loadClaim,(held.readable row member).live,if_neg Bool.false_ne_true] at loaded
  obtain ⟨record,decoded,-⟩ := bind_ok_iff.mp loaded
  exact ((decodes record).mp decoded).2

/-! ### Loading the relations and the retractions -/

/-- A supersession between claims of one slot, as far as the history knows them. -/
def InSlot (history : ClaimHistory) (relation : ClaimRelation) : Prop :=
  relation.kind = .supersedes → ∀ target, relation.target = .claim target → ∀ left right,
    history.claims.find? relation.source = some left → history.claims.find? target = some right →
    left.slotId = right.slotId

theorem appendRelation_iff {history next : ClaimHistory} {relation : HistoryRelation}
    (attached : attaches history relation.relation = true) :
    history.appendRelation relation = .ok next ↔
      InSlot history relation.relation ∧ next = { history with relations := history.relations ++ [relation] } := by
  simp only [attaches,Bool.and_eq_true,OrdMap.contains_iff] at attached
  obtain ⟨⟨source,sourceFound⟩,targetKnown⟩ := attached
  unfold ClaimHistory.appendRelation InSlot
  cases targetIs : relation.relation.target with
  | memory memory => simp [sourceFound,targetIs,eq_comm]
  | claim target =>
    rw [targetIs] at targetKnown
    obtain ⟨record,targetFound⟩ := (OrdMap.contains_iff _ _).mp targetKnown
    simp only [sourceFound,targetIs,targetFound]
    by_cases crosses : relation.relation.kind = .supersedes ∧ source.slotId ≠ record.slotId
    · rw [if_pos crosses]
      simp only [reduceCtorEq,false_iff]
      rintro ⟨stays,-⟩
      exact crosses.2 (stays crosses.1 target rfl source record rfl targetFound)
    · rw [if_neg crosses]
      constructor
      · intro executed
        refine ⟨?_,(Except.ok.inj executed).symm⟩
        rintro supersedes _ ⟨⟩ left right ⟨⟩ rightFound
        obtain rfl := Option.some.inj (targetFound.symm.trans rightFound)
        by_contra different
        exact crosses ⟨supersedes,different⟩
      · rintro ⟨-,rfl⟩
        rfl

def storedRelation (row : RelationRow) : Option HistoryRelation := row.document.map (relationRecord row)

/-- The relations of some rows whose claims the history holds. -/
def attached (history : ClaimHistory) (rows : List RelationRow) : List HistoryRelation :=
  (rows.filter (fun row => row.document.any (attaches history))).filterMap storedRelation

private theorem corrupt_ok {α : Type} {result : Except HistoryError α} {value : α} :
    corrupt result = .ok value ↔ result = .ok value := by
  cases result <;> simp [corrupt,Except.mapError]

/-- A relation attached as it was written. -/
def attachRelation (history : ClaimHistory) (row : RelationRow) : Except StoreError ClaimHistory :=
  match row.document with
  | none => .ok history
  | some relation =>
    if attaches history relation then corrupt (history.appendRelation (relationRecord row relation)) else .ok history

theorem attachRelations_iff {rows : List RelationRow} {history next : ClaimHistory} :
    rows.foldlM attachRelation history = .ok next ↔
      (∀ row ∈ rows, ∀ relation, row.document = some relation → attaches history relation = true →
        InSlot history relation) ∧
      next = { history with relations := history.relations ++ attached history rows } := by
  induction rows generalizing history with
  | nil =>
    constructor
    · intro executed
      cases executed
      simp [attached]
    · rintro ⟨-,rfl⟩
      simp [attached,pure,Except.pure]
  | cons row rest ih =>
    rw [List.foldlM_cons,bind_ok_iff]
    cases document : row.document with
    | none =>
      have skipped : attached history (row :: rest) = attached history rest := by simp [attached,storedRelation,document]
      simp only [attachRelation,document,Except.ok.injEq,exists_eq_left',List.forall_mem_cons,reduceCtorEq,
        false_implies,implies_true,true_and,skipped]
      exact ih
    | some relation =>
      cases known : attaches history relation with
      | false =>
        have skipped : attached history (row :: rest) = attached history rest := by simp [attached,storedRelation,document,known]
        simp only [attachRelation,document,known,Bool.false_eq_true,if_false,Except.ok.injEq,exists_eq_left',
          List.forall_mem_cons,Option.some.injEq,forall_eq',false_implies,true_and,skipped]
        exact ih
      | true =>
        have added : attached history (row :: rest) = relationRecord row relation :: attached history rest := by
          simp [attached,storedRelation,document,known]
        have appended := fun mid => @appendRelation_iff history mid (relationRecord row relation) known
        simp only [attachRelation,document,known,if_true,corrupt_ok,appended,List.forall_mem_cons,Option.some.injEq,
          forall_eq',true_implies,added]
        constructor
        · rintro ⟨mid,⟨stays,rfl⟩,remaining⟩
          obtain ⟨others,final⟩ := ih.mp remaining
          refine ⟨⟨stays,others⟩,?_⟩
          rw [final]
          simp only [List.append_assoc,List.singleton_append]
          rfl
        · rintro ⟨⟨stays,others⟩,rfl⟩
          refine ⟨_,⟨stays,rfl⟩,ih.mpr ⟨others,?_⟩⟩
          simp only [List.append_assoc,List.singleton_append]
          rfl

section
variable {serde : Serde} {history next : ClaimHistory}

/-- A relation is loaded only if it is legible, and then as it was written. -/
theorem loadRelation_legible {row : RelationRow} (sized : ∀ relation ∈ row.document, ProvenanceSized relation.provenance)
    (loaded : loadRelation serde history row = .ok next) : LegibleRelation row := by
  intro relation document
  rw [loadRelation,document] at loaded
  obtain ⟨read,parsed,-⟩ := bind_ok_iff.mp loaded
  exact (claimRelation_keeps_iff serde.foreign (sized relation document)).mp
    ((parse_ok_iff (claimRelation_faithful serde.foreign)).mp parsed).2

theorem loadRelation_eq {row : RelationRow} (sized : ∀ relation ∈ row.document, ProvenanceSized relation.provenance)
    (legible : LegibleRelation row) : loadRelation serde history row = attachRelation history row := by
  unfold loadRelation attachRelation
  cases document : row.document with
  | none => rfl
  | some relation =>
    have kept := (claimRelation_keeps_iff serde.foreign (sized relation document)).mpr (legible relation document)
    have parsed : parse serde "claim relation" (claimRelation serde.foreign) relation = .ok relation :=
      (parse_ok_iff (claimRelation_faithful serde.foreign)).mpr ⟨rfl,kept⟩
    simp only [parsed,ok_bind]

theorem loadRelations_iff {rows : List RelationRow}
    (sized : ∀ row ∈ rows, ∀ relation ∈ row.document, ProvenanceSized relation.provenance) :
    rows.foldlM (loadRelation serde) history = .ok next ↔
      (∀ row ∈ rows, LegibleRelation row) ∧
      (∀ row ∈ rows, ∀ relation, row.document = some relation → attaches history relation = true →
        InSlot history relation) ∧
      next = { history with relations := history.relations ++ attached history rows } := by
  have same (legible : ∀ row ∈ rows, LegibleRelation row) :
      rows.foldlM (loadRelation serde) history = rows.foldlM attachRelation history :=
    foldlM_congr history fun row member state => loadRelation_eq (sized row member) (legible row member)
  rw [← attachRelations_iff]
  constructor
  · intro executed
    have legible : ∀ row ∈ rows, LegibleRelation row := by
      intro row member
      obtain ⟨before,after,loaded⟩ := foldlM_took executed member
      exact loadRelation_legible (sized row member) loaded
    exact ⟨legible,same legible ▸ executed⟩
  · rintro ⟨legible,executed⟩
    exact (same legible).trans executed

/-- The retraction of a row, as it was written. -/
def storedRetraction (row : RetractionRow) : Retraction := retractionRecord row row.document

theorem loadRetraction_iff {row : RetractionRow} (sized : RetractionSized row.document) :
    loadRetraction serde history row = .ok next ↔
      LegibleRetraction row ∧ history.claims.contains row.document.target = true ∧
        next = { history with retractions := history.retractions ++ [storedRetraction row] } := by
  simp only [loadRetraction,bind_ok_iff,parse_ok_iff (retraction_faithful serde.foreign),
    retraction_keeps_iff serde.foreign sized,corrupt_ok]
  have appended : history.appendRetraction (storedRetraction row) = .ok next ↔
      history.claims.contains row.document.target = true ∧
        next = { history with retractions := history.retractions ++ [storedRetraction row] } := by
    have target : (storedRetraction row).target = row.document.target := rfl
    unfold ClaimHistory.appendRetraction
    rw [target]
    cases history.claims.contains row.document.target with
    | false => simp
    | true =>
      rw [if_pos rfl,Except.ok.injEq,and_iff_right rfl]
      exact eq_comm
  constructor
  · rintro ⟨read,⟨rfl,legible⟩,loaded⟩
    exact ⟨legible,appended.mp loaded⟩
  · rintro ⟨legible,loaded⟩
    exact ⟨row.document,⟨rfl,legible⟩,appended.mpr loaded⟩

end

theorem loadRetractions_iff {serde : Serde} {rows : List RetractionRow} (sized : ∀ row ∈ rows, RetractionSized row.document)
    {history next : ClaimHistory} : rows.foldlM (loadRetraction serde) history = .ok next ↔
      (∀ row ∈ rows, LegibleRetraction row) ∧
      (∀ row ∈ rows, history.claims.contains row.document.target = true) ∧
      next = { history with retractions := history.retractions ++ rows.map storedRetraction } := by
  induction rows generalizing history with
  | nil =>
    constructor
    · intro executed
      cases executed
      simp
    · rintro ⟨-,-,rfl⟩
      simp [pure,Except.pure]
  | cons row rest ih =>
    rw [List.foldlM_cons,bind_ok_iff]
    simp only [loadRetraction_iff (sized row List.mem_cons_self),
      ih (fun other member => sized other (List.mem_cons_of_mem _ member)),List.forall_mem_cons,List.map_cons]
    constructor
    · rintro ⟨mid,⟨legible,known,rfl⟩,others,rest,rfl⟩
      exact ⟨⟨legible,others⟩,⟨known,rest⟩,by simp⟩
    · rintro ⟨⟨legible,others⟩,⟨known,rest⟩,rfl⟩
      exact ⟨_,⟨legible,known,rfl⟩,others,rest,by simp⟩

/-! ### Reading a page -/

/-- The claims of some rows a relation names are all among them. -/
def within (rows : List ClaimRow) (relation : ClaimRelation) : Bool :=
  rows.any (fun row => row.claimId == relation.source) &&
    match relation.target with
    | .claim target => rows.any (fun row => row.claimId == target)
    | .memory _ => true

def relationsWithin (rows : List ClaimRow) (stored : List RelationRow) : List HistoryRelation :=
  (stored.filter (fun row => row.document.any (within rows))).filterMap storedRelation

/-- What a page reads is legible and attaches to the claims on it: every retraction of
    the subject targets one of them, and a supersession between two of them stays in a
    slot. -/
structure Attachable (db : Database) (query : HistoryQuery) (OnPage : ClaimRow → Prop) : Prop where
  legible : ∀ row, OnPage row → Legible row
  related : ∀ row ∈ db.relations, row.scope = query.scope → row.fromClaim ∈ subjectIds db query.scope query.subject →
    LegibleRelation row
  retracted : ∀ row ∈ db.retractions, row.scope = query.scope → row.target ∈ subjectIds db query.scope query.subject →
    LegibleRetraction row
  retractions : ∀ row ∈ db.retractions, row.scope = query.scope →
    row.target ∈ subjectIds db query.scope query.subject → ∃ claim, OnPage claim ∧ claim.claimId = row.target
  supersessions : ∀ row ∈ db.relations, row.scope = query.scope → ∀ relation, row.document = some relation →
    relation.kind = .supersedes → ∀ left right, OnPage left → OnPage right → left.claimId = relation.source →
    relation.target = .claim right.claimId → left.claim.map SlotId.ofClaim = right.claim.map SlotId.ofClaim

/-- The page of some rows, around the history their claims load to. -/
def pageOf (db : Database) (query : HistoryQuery) (limit : Nat) (rows : List ClaimRow) (loaded : ClaimHistory) :
    ClaimHistoryPage where
  history := { loaded with
    relations := if rows.isEmpty then [] else relationsWithin rows (subjectRelations db query.scope query.subject)
    retractions := if rows.isEmpty then []
      else (subjectRetractions db query.scope query.subject).map storedRetraction }
  nextAfter := if rows.length = limit then rows.getLast?.map (·.txSeq) else none

section
variable {scope : Scope} {rows : List ClaimRow} {loaded : ClaimHistory}

theorem Loaded.contains (held : Loaded rows loaded) (readable : ∀ row ∈ rows, Readable scope row) (id : ClaimId) :
    loaded.claims.contains id = rows.any (fun row => row.claimId == id) := by
  rw [Bool.eq_iff_iff,OrdMap.contains_iff,List.any_eq_true]
  constructor
  · rintro ⟨record,found⟩
    obtain ⟨row,member,named,-⟩ := (held.claims id record).mp found
    exact ⟨row,member,by simp [named]⟩
  · rintro ⟨row,member,named⟩
    obtain ⟨record,recorded⟩ := (readable row member).recorded
    exact ⟨record,(held.claims id _).mpr ⟨row,member,by simpa using named,recorded⟩⟩

theorem Loaded.attaches (held : Loaded rows loaded) (readable : ∀ row ∈ rows, Readable scope row)
    (relation : ClaimRelation) : attaches loaded relation = within rows relation := by
  unfold ClaimRepo.attaches within
  rw [held.contains readable]
  cases relation.target with
  | claim target => simp only [held.contains readable]
  | memory memory => rfl

theorem Loaded.attached (held : Loaded rows loaded) (readable : ∀ row ∈ rows, Readable scope row)
    (stored : List RelationRow) : attached loaded stored = relationsWithin rows stored := by
  unfold ClaimPages.attached relationsWithin
  have same : ClaimRepo.attaches loaded = within rows := funext (held.attaches readable)
  rw [same]

theorem Loaded.isEmpty (held : Loaded rows loaded) (readable : ∀ row ∈ rows, Readable scope row) :
    loaded.claims.entries.isEmpty = rows.isEmpty := by
  rw [Bool.eq_iff_iff,List.isEmpty_iff,List.isEmpty_iff]
  constructor
  · intro nothing
    rw [List.eq_nil_iff_forall_not_mem]
    intro row member
    obtain ⟨record,recorded⟩ := (readable row member).recorded
    have found := (held.claims row.claimId _).mpr ⟨row,member,rfl,recorded⟩
    rw [OrdMap.find?_iff_mem,nothing] at found
    simp at found
  · rintro rfl
    rw [List.eq_nil_iff_forall_not_mem]
    rintro ⟨id,record⟩ member
    obtain ⟨row,inside,-⟩ := (held.claims id record).mp ((OrdMap.find?_iff_mem _ _ _).mpr member)
    simp at inside

/-- The slot a loaded record has is that of its row's document. -/
theorem Loaded.slot (held : Loaded rows loaded) {id : ClaimId}
    {record : ClaimRecord} (found : loaded.claims.find? id = some record) :
    ∃ row ∈ rows, row.claimId = id ∧ row.claim.map SlotId.ofClaim = some record.slotId := by
  obtain ⟨row,member,named,recorded⟩ := (held.claims id record).mp found
  obtain ⟨claim,document,rfl⟩ := Option.map_eq_some_iff.mp recorded
  exact ⟨row,member,named,by simp [document,ClaimRecord.slotId,recordOf]⟩

end

theorem mem_subjectIds {db : Database} {scope : Scope} {subject : SubjectRef} {row : ClaimRow} (member : row ∈ db.claims)
    (selected : ofSubject scope subject row = true) : row.claimId ∈ subjectIds db scope subject :=
  List.mem_map_of_mem (List.mem_filter.mpr ⟨member,selected⟩)

theorem mem_subjectRelations {db : Database} {scope : Scope} {subject : SubjectRef} {row : RelationRow} :
    row ∈ subjectRelations db scope subject ↔
      row ∈ db.relations ∧ row.scope = scope ∧ row.fromClaim ∈ subjectIds db scope subject := by
  simp [subjectRelations]

theorem mem_subjectRetractions {db : Database} {scope : Scope} {subject : SubjectRef} {row : RetractionRow} :
    row ∈ subjectRetractions db scope subject ↔
      row ∈ db.retractions ∧ row.scope = scope ∧ row.target ∈ subjectIds db scope subject := by
  simp [subjectRetractions]

section
variable {db : Database} (consistent : Consistent db) {query : HistoryQuery} {rows : List ClaimRow}
  {loaded : ClaimHistory} (held : Loaded rows loaded) (readable : ∀ row ∈ rows, Readable query.scope row)
include consistent held readable

/-- The relations load when the supersessions among the rows stay in their slots. -/
theorem supersessions_iff (found : ∀ row ∈ rows, row ∈ db.claims ∧ ofSubject query.scope query.subject row = true) :
    (∀ row ∈ subjectRelations db query.scope query.subject, ∀ relation, row.document = some relation →
      attaches loaded relation = true → InSlot loaded relation) ↔
    ∀ row ∈ db.relations, row.scope = query.scope → ∀ relation, row.document = some relation →
      relation.kind = .supersedes → ∀ left right, left ∈ rows → right ∈ rows → left.claimId = relation.source →
      relation.target = .claim right.claimId → left.claim.map SlotId.ofClaim = right.claim.map SlotId.ofClaim := by
  constructor
  · intro stays row member inScope relation document supersedes left right leftIn rightIn leftNamed targetIs
    obtain ⟨leftClaim,leftDocument,-,-⟩ := (readable left leftIn).document
    obtain ⟨rightClaim,rightDocument,-,-⟩ := (readable right rightIn).document
    have leftFound := (held.claims relation.source _).mpr ⟨left,leftIn,leftNamed,congrArg (·.map (recordOf left)) leftDocument⟩
    have rightFound := (held.claims right.claimId _).mpr ⟨right,rightIn,rfl,congrArg (·.map (recordOf right)) rightDocument⟩
    have selected : row ∈ subjectRelations db query.scope query.subject := by
      refine mem_subjectRelations.mpr ⟨member,inScope,?_⟩
      rw [← consistent.related row member relation document,← leftNamed]
      exact mem_subjectIds (found left leftIn).1 (found left leftIn).2
    have joined : attaches loaded relation = true := by
      simp only [ClaimRepo.attaches,targetIs,Bool.and_eq_true,OrdMap.contains_iff]
      exact ⟨⟨_,leftFound⟩,⟨_,rightFound⟩⟩
    have same := stays row selected relation document joined supersedes right.claimId targetIs _ _ leftFound rightFound
    simpa [leftDocument,rightDocument,ClaimRecord.slotId,recordOf] using same
  · intro stays row selected relation document _ supersedes target targetIs left right leftFound rightFound
    obtain ⟨member,inScope,-⟩ := mem_subjectRelations.mp selected
    obtain ⟨leftRow,leftIn,leftNamed,leftSlot⟩ := held.slot leftFound
    obtain ⟨rightRow,rightIn,rfl,rightSlot⟩ := held.slot rightFound
    have same := stays row member inScope relation document supersedes leftRow rightRow leftIn rightIn leftNamed targetIs
    rw [leftSlot,rightSlot] at same
    exact Option.some.inj same

/-- The retractions load when they target claims of the rows. -/
theorem retractions_iff :
    (∀ row ∈ subjectRetractions db query.scope query.subject, loaded.claims.contains row.document.target = true) ↔
    ∀ row ∈ db.retractions, row.scope = query.scope → row.target ∈ subjectIds db query.scope query.subject →
      ∃ claim, claim ∈ rows ∧ claim.claimId = row.target := by
  constructor
  · intro known row member inScope targeted
    have contained := known row (mem_subjectRetractions.mpr ⟨member,inScope,targeted⟩)
    rw [consistent.retracted row member,held.contains readable] at contained
    simpa using contained
  · intro targets row selected
    obtain ⟨member,inScope,targeted⟩ := mem_subjectRetractions.mp selected
    rw [consistent.retracted row member,held.contains readable]
    simpa using targets row member inScope targeted

end

theorem pageRows_held {db : Database} (consistent : Consistent db) (sized : Sized db) (query : HistoryQuery)
    (after limit : Nat) : Rows query.scope (pageRows db query after limit) := by
  constructor
  · intro row member
    exact selected_readable consistent (mem_pageRows member).1 (selects_ofSubject (mem_pageRows member).2.1)
  · intro row member
    exact sized.claims row (mem_pageRows member).1
  · intro row member
    exact sized.admissions row (mem_pageRows member).1

section
variable (serde : Serde) {db : Database} (consistent : Consistent db) (sized : Sized db) (query : HistoryQuery)
  (after limit : Nat)
include consistent sized

/-- Around the history its claims load to, a page reads exactly when it is empty or
    everything read with it is legible and attaches. -/
theorem read_loaded_iff {loaded : ClaimHistory} (held : Loaded (pageRows db query after limit) loaded)
    (executed : (pageRows db query after limit).foldlM (loadClaim serde) ClaimHistory.new = .ok loaded)
    (page : ClaimHistoryPage) :
    history.read serde db query after limit = .ok page ↔
      (pageRows db query after limit = [] ∨ Attachable db query (· ∈ pageRows db query after limit)) ∧
        page = pageOf db query limit (pageRows db query after limit) loaded := by
  have found : ∀ row ∈ pageRows db query after limit,
      row ∈ db.claims ∧ ofSubject query.scope query.subject row = true :=
    fun row member => ⟨(mem_pageRows member).1,selects_ofSubject (mem_pageRows member).2.1⟩
  have rowsHeld := pageRows_held consistent sized query after limit
  have readable := rowsHeld.readable
  have legible := loadClaims_legible rowsHeld executed
  have relating := fun related => @loadRelations_iff serde loaded related (subjectRelations db query.scope query.subject)
    fun row member => sized.relations row (mem_subjectRelations.mp member).1
  have retracting := fun related rebuilt => @loadRetractions_iff serde (subjectRetractions db query.scope query.subject)
    (fun row member => sized.retractions row (mem_subjectRetractions.mp member).1) related rebuilt
  simp only [history.read,executed,ok_bind,held.isEmpty readable]
  cases rows : pageRows db query after limit with
  | nil =>
    rw [rows] at held
    have bare : { loaded with relations := [], retractions := [] } = loaded := by
      rw [← held.unrelated,← held.unretracted]
    simp only [List.isEmpty_nil,if_true,ok_bind,Except.ok.injEq,pageOf,bare,true_or,true_and]
    exact eq_comm
  | cons first rest =>
    rw [← rows]
    have filled : (pageRows db query after limit).isEmpty = false := by simp [rows]
    have nonempty : pageRows db query after limit ≠ [] := by simp [rows]
    simp only [filled,Bool.false_eq_true,if_false,nonempty,false_or]
    rw [bind_ok_iff]
    constructor
    · rintro ⟨related,relates,remaining⟩
      obtain ⟨rebuilt,retracts,paged⟩ := bind_ok_iff.mp remaining
      obtain ⟨relationsLegible,stays,rfl⟩ := (relating related).mp relates
      obtain ⟨retractionsLegible,known,rfl⟩ := (retracting _ rebuilt).mp retracts
      refine ⟨⟨legible,fun row member inScope starts =>
          relationsLegible row (mem_subjectRelations.mpr ⟨member,inScope,starts⟩),
        fun row member inScope targeted => retractionsLegible row (mem_subjectRetractions.mpr ⟨member,inScope,targeted⟩),
        (retractions_iff consistent held readable).mp known,
        (supersessions_iff consistent held readable found).mp stays⟩,?_⟩
      rw [← Except.ok.inj paged]
      simp only [pageOf,filled,Bool.false_eq_true,if_false,held.unrelated,held.unretracted,List.nil_append,
        held.attached readable]
    · rintro ⟨attachable,rfl⟩
      have stays := (supersessions_iff consistent held readable found).mpr attachable.supersessions
      have known := (retractions_iff consistent held readable).mpr attachable.retractions
      have relationsLegible : ∀ row ∈ subjectRelations db query.scope query.subject, LegibleRelation row := by
        intro row selected
        obtain ⟨member,inScope,starts⟩ := mem_subjectRelations.mp selected
        exact attachable.related row member inScope starts
      have retractionsLegible : ∀ row ∈ subjectRetractions db query.scope query.subject, LegibleRetraction row := by
        intro row selected
        obtain ⟨member,inScope,targeted⟩ := mem_subjectRetractions.mp selected
        exact attachable.retracted row member inScope targeted
      refine ⟨_,(relating _).mpr ⟨relationsLegible,stays,rfl⟩,
        bind_ok_iff.mpr ⟨_,(retracting _ _).mpr ⟨retractionsLegible,known,rfl⟩,?_⟩⟩
      simp only [pageOf,filled,Bool.false_eq_true,if_false,held.unrelated,held.unretracted,List.nil_append,
        held.attached readable]

/-- The claims of a page load when they are all legible. -/
theorem pageRows_load (legible : ∀ row ∈ pageRows db query after limit, Legible row) :
    ∃ loaded, (pageRows db query after limit).foldlM (loadClaim serde) ClaimHistory.new = .ok loaded ∧
      Loaded (pageRows db query after limit) loaded := by
  have loads := loadClaims_loaded serde (pageRows db query after limit) [] ClaimHistory.new new_loaded
    (pageRows_held consistent sized query after limit) legible
    (by simpa using pageRows_unique (matching_ids consistent query) after limit)
    (by simpa using pageRows_unique (matching_unique consistent query) after limit)
  simpa only [List.nil_append] using loads

/-- A page that was read is that of the history its claims load to. -/
theorem read_ok {page : ClaimHistoryPage} (read : history.read serde db query after limit = .ok page) :
    (pageRows db query after limit = [] ∨ Attachable db query (· ∈ pageRows db query after limit)) ∧
      ∃ loaded, Loaded (pageRows db query after limit) loaded ∧
        page = pageOf db query limit (pageRows db query after limit) loaded := by
  obtain ⟨loaded,executed,-⟩ := bind_ok_iff.mp read
  have legible := loadClaims_legible (pageRows_held consistent sized query after limit) executed
  obtain ⟨other,again,held⟩ := pageRows_load serde consistent sized query after limit legible
  obtain rfl := Except.ok.inj (executed.symm.trans again)
  obtain ⟨attaches,paged⟩ := (read_loaded_iff serde consistent sized query after limit held executed page).mp read
  exact ⟨attaches,loaded,held,paged⟩

/-- A page is read when it is empty or everything read with it is legible and attaches. -/
theorem read_exists
    (attaches : pageRows db query after limit = [] ∨ Attachable db query (· ∈ pageRows db query after limit)) :
    ∃ loaded, Loaded (pageRows db query after limit) loaded ∧
      history.read serde db query after limit = .ok (pageOf db query limit (pageRows db query after limit) loaded) := by
  have legible : ∀ row ∈ pageRows db query after limit, Legible row := by
    rcases attaches with bare | attachable
    · simp [bare]
    · exact attachable.legible
  obtain ⟨loaded,executed,held⟩ := pageRows_load serde consistent sized query after limit legible
  exact ⟨loaded,held,(read_loaded_iff serde consistent sized query after limit held executed _).mpr ⟨attaches,rfl⟩⟩

end

/-! ### When a page can be read -/

/-- A row lands on the page: the query matches it beyond the cursor, and fewer rows
    than the limit stand in between. -/
def OnPage (db : Database) (query : HistoryQuery) (after limit : Nat) (row : ClaimRow) : Prop :=
  row ∈ matching db query ∧ after < row.txSeq ∧ rank ClaimRow.txSeq after (matching db query) row < limit

theorem mem_pageRows_iff {db : Database} (consistent : Consistent db) (query : HistoryQuery) (after limit : Nat)
    (row : ClaimRow) : row ∈ pageRows db query after limit ↔ OnPage db query after limit row := by
  have segment := @mem_segment _ ClaimRow.txSeq after 0 limit _ (matching_unique consistent query) row
  rw [List.drop_zero,← pageRows_eq] at segment
  rw [segment]
  simp [OnPage]

/-- The bound is one a column can be compared with. -/
def boundFits : TxBound → Prop
  | .sequence seq => seq ≤ maxInteger
  | .recordedAt instant => instant ≤ maxInteger

theorem history_iff_read {serde : Serde} {db : Database} {query : HistoryQuery} {after limit : Nat} (positive : 0 < limit)
    (allowed : limit ≤ maxClaimPageRows) (page : ClaimHistoryPage) :
    history serde db query after limit = .ok page ↔
      after ≤ maxInteger ∧ boundFits query.bound ∧ history.read serde db query after limit = .ok page := by
  have within : ¬ (limit = 0 ∨ limit > maxClaimPageRows) := by omega
  rw [history,if_neg within]
  by_cases far : after > maxInteger
  · rw [if_pos far]
    constructor
    · intro refused
      cases refused
    · rintro ⟨near,-⟩
      omega
  · rw [if_neg far]
    have near : after ≤ maxInteger := by omega
    cases query.bound with
    | sequence seq =>
      by_cases large : seq > maxInteger
      · simp [boundFits,large,near,not_le.mpr large]
      · simp [boundFits,large,near,not_lt.mp large]
    | recordedAt instant =>
      by_cases large : instant > maxInteger
      · simp [boundFits,large,near,not_le.mpr large]
      · simp [boundFits,large,near,not_lt.mp large]

/-- A page is returned exactly when the cursor and the bound fit their columns and
    the page is empty, or the claims on it, and every relation and retraction of the
    subject's claims, are legible, every such retraction targets a claim on the page and
    no stored supersession between two claims on it crosses a slot. -/
theorem history_ok_iff (serde : Serde) {db : Database} (reachable : Reachable db) (sized : Sized db)
    (query : HistoryQuery) (after limit : Nat) (positive : 0 < limit) (allowed : limit ≤ maxClaimPageRows) :
    (∃ page, history serde db query after limit = .ok page) ↔
      after ≤ maxInteger ∧ boundFits query.bound ∧
        ((∀ row, ¬ OnPage db query after limit row) ∨ Attachable db query (OnPage db query after limit)) := by
  have consistent := reachable_consistent reachable
  have placed : (· ∈ pageRows db query after limit) = OnPage db query after limit :=
    funext fun row => propext (mem_pageRows_iff consistent query after limit row)
  have bare : pageRows db query after limit = [] ↔ ∀ row, ¬ OnPage db query after limit row := by
    rw [List.eq_nil_iff_forall_not_mem]
    simp only [mem_pageRows_iff consistent]
  rw [← bare,← placed]
  simp only [history_iff_read positive allowed]
  constructor
  · rintro ⟨page,near,fits,read⟩
    exact ⟨near,fits,(read_ok serde consistent sized query after limit read).1⟩
  · rintro ⟨near,fits,attaches⟩
    obtain ⟨loaded,-,read⟩ := read_exists serde consistent sized query after limit attaches
    exact ⟨_,near,fits,read⟩

namespace Sample
open Claims.Sample ClaimRepo.Sample

/-- Texts that cite no passage, under versions that fit. -/
def plain (db : Database) : Bool :=
  db.claims.all (fun row => decide (row.admission.policyVersion < 2 ^ 32) && row.claim.all (fun claim =>
    claim.value.kind == .text && claim.provenance.spans.isEmpty && decide (claim.predicate.version < 2 ^ 32) &&
      decide (claim.schemaVersion < 2 ^ 16))) &&
  db.relations.all (fun row => row.document.all (fun relation => relation.provenance.spans.isEmpty)) &&
  db.retractions.all (fun row => row.document.provenance.spans.isEmpty && decide (row.document.tx.seq < 2 ^ 64))

theorem plain_sized {db : Database} (texts : plain db = true) : Sized db := by
  simp only [plain,Bool.and_eq_true,List.all_eq_true,Option.all_eq_true,decide_eq_true_eq,List.isEmpty_iff,
    beq_iff_eq] at texts
  obtain ⟨⟨claims,relations⟩,retractions⟩ := texts
  have unspanned {origin : Provenance} (none' : origin.spans = []) : ProvenanceSized origin := by
    simp [ProvenanceSized,none']
  refine ⟨fun row member claim document => ?_,fun row member => (claims row member).1,
    fun row member relation document => unspanned (relations row member relation document),
    fun row member => ⟨unspanned (retractions row member).1,(retractions row member).2⟩⟩
  obtain ⟨⟨⟨text,none'⟩,version⟩,schema⟩ := (claims row member).2 claim document
  refine ⟨?_,version,unspanned none',schema⟩
  cases value : claim.value <;> simp_all [ClaimValue.kind,ValueWire.ValueSized]

/-- The first page of the withdrawn seat holds the claim and its retraction: it is
    returned, and everything read with it attaches. -/
theorem history_ok_iff_withdrawn :
    ∃ db, commitAll .empty withdrawn = .ok db ∧ Sized db ∧
      (∃ page, history serde db query 0 1 = .ok page ∧
        page.history.claims.values.map (·.claim.id) = [firstId] ∧ page.history.retractions.map (·.target) = [firstId]) ∧
      Attachable db query (OnPage db query 0 1) := by
  refine ⟨_,rfl,plain_sized (by decide +kernel),⟨_,rfl,by decide +kernel,by decide +kernel⟩,?_⟩
  have read := (history_ok_iff serde ⟨withdrawn,rfl⟩ (plain_sized (by decide +kernel)) query 0 1 (by decide)
    (by decide)).mp ⟨_,rfl⟩
  refine read.2.2.resolve_left fun bare => ?_
  have empty := List.eq_nil_iff_forall_not_mem.mpr fun row member =>
    bare row ((mem_pageRows_iff (reachable_consistent ⟨withdrawn,rfl⟩) query 0 1 row).mp member)
  revert empty
  decide +kernel

/-- A fare of the least mantissa, which the decimal's constructor takes. -/
def least : Decimal := ⟨DecimalText.minMantissa,0,none,by decide⟩

def priced : ClaimAppend :=
  { item firstId "12A" with
    admitted := { admitted firstId "12A" with claim := { claim firstId "12A" with value := .decimal least } }
    grounded := by simp [AdmittedClaim.Grounded,ClaimRepo.Sample.admitted] }

/-- The second page meets the retraction of a claim that is not on it; and no page is
    read with a claim whose value does not parse. -/
theorem history_refuses_withdrawn :
    (∃ db, commitAll .empty withdrawn = .ok db ∧
      history serde db query 1 10 = .error (.integrity (HistoryError.unknownClaim firstId).display)) ∧
    ∃ db, commitAll .empty [.append .new [priced] 10] = .ok db ∧
      history serde db query 0 10 = .error (.integrity "stored claim does not parse: refused") :=
  ⟨⟨_,rfl,by decide +kernel⟩,⟨_,rfl,by decide +kernel⟩⟩

end Sample

end Aicortex.ClaimPages
