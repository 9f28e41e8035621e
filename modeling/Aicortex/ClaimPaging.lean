import Aicortex.ClaimPages

/-!
Reading a subject's history page by page. The pages cut the matching claims into
blocks of the limit, each read with the relations inside it; a relation across a cut
is on no page, a retraction lets only the page with its claim be read, and a document
that does not parse stops the reading.
-/

namespace Aicortex.ClaimPaging
open Aicortex.Text Aicortex.CivilTime Aicortex.History Aicortex.Projection Aicortex.ClaimGate Aicortex.Schema
open Aicortex.ClaimRepo Aicortex.ClaimTables Aicortex.ClaimPages Lib.Ordered Lib.Tables Lib.Outcome Lib.Paging
open Aicortex.Claims hiding Unit
set_option linter.unusedSimpArgs false

/-! ### Following the cursors -/

/-- The pages met from a cursor on, up to the first that names no further one. -/
inductive Follows (serde : Serde) (db : Database) (query : HistoryQuery) (limit : Nat) : Nat → List ClaimHistoryPage → Prop where
  | last {after : Nat} {page : ClaimHistoryPage} (read : history serde db query after limit = .ok page)
      (ends : page.nextAfter = none) : Follows serde db query limit after [page]
  | more {after next : Nat} {page : ClaimHistoryPage} {rest : List ClaimHistoryPage}
      (read : history serde db query after limit = .ok page) (continues : page.nextAfter = some next)
      (followed : Follows serde db query limit next rest) : Follows serde db query limit after (page :: rest)

/-- The cursors lead to one sequence of pages. -/
theorem Follows.unique {serde : Serde} {db : Database} {query : HistoryQuery} {limit after : Nat} {left right : List ClaimHistoryPage}
    (leftFollowed : Follows serde db query limit after left) (rightFollowed : Follows serde db query limit after right) :
    left = right := by
  induction leftFollowed generalizing right with
  | last read ends =>
    cases rightFollowed with
    | last other _ => rw [Except.ok.inj (read.symm.trans other)]
    | more other continues _ =>
      obtain rfl := Except.ok.inj (read.symm.trans other)
      cases ends.symm.trans continues
  | more read continues _ ih =>
    cases rightFollowed with
    | last other ends =>
      obtain rfl := Except.ok.inj (read.symm.trans other)
      cases ends.symm.trans continues
    | more other further rest =>
      obtain rfl := Except.ok.inj (read.symm.trans other)
      obtain rfl := Option.some.inj (continues.symm.trans further)
      rw [ih rest]

/-- A block and the page it was read as. -/
structure ReadAs (db : Database) (query : HistoryQuery) (limit : Nat) (block : List ClaimRow) (page : ClaimHistoryPage) :
    Prop where
  attaches : block = [] ∨ Attachable db query (· ∈ block)
  page : ∃ loaded, Loaded block loaded ∧ page = pageOf db query limit block loaded

section
variable {serde : Serde} {db : Database} (consistent : Consistent db) (sized : Sized db) {query : HistoryQuery}
  {limit : Nat} (positive : 0 < limit) (allowed : limit ≤ maxClaimPageRows)
include consistent sized positive allowed

theorem history_readAs {after : Nat} {page : ClaimHistoryPage} (read : history serde db query after limit = .ok page) :
    ReadAs db query limit (pageRows db query after limit) page := by
  obtain ⟨attaches,held⟩ := read_ok serde consistent sized query after limit
    ((history_iff_read positive allowed page).mp read).2.2
  exact ⟨attaches,held⟩

/-- Following the cursors reads the blocks of what lies beyond the first. -/
theorem follows_reads {after : Nat} {pages : List ClaimHistoryPage} (followed : Follows serde db query limit after pages) :
    List.Forall₂ (ReadAs db query limit) (blocks limit (beyond ClaimRow.txSeq after (matching db query))) pages := by
  induction followed with
  | @last after page read ends =>
    have readAs := history_readAs consistent sized positive allowed read
    obtain ⟨loaded,-,same⟩ := readAs.page
    rw [pageRows_eq] at readAs same
    simp only [same,pageOf] at ends
    have short : (beyond ClaimRow.txSeq after (matching db query)).length < limit := by
      by_contra full
      have whole : ((beyond ClaimRow.txSeq after (matching db query)).take limit).length = limit := by
        rw [List.length_take]
        omega
      rw [if_pos whole,Option.map_eq_none_iff,List.getLast?_eq_none_iff] at ends
      rw [ends] at whole
      simp at whole
      omega
    rw [List.take_of_length_le short.le] at readAs
    rw [blocks_of_lt short]
    exact .cons readAs .nil
  | @more after next page rest read continues _ ih =>
    have readAs := history_readAs consistent sized positive allowed read
    obtain ⟨loaded,-,same⟩ := readAs.page
    rw [pageRows_eq] at readAs same
    simp only [same,pageOf] at continues
    split_ifs at continues with whole
    obtain ⟨final,ends,rfl⟩ := Option.map_eq_some_iff.mp continues
    have full : limit ≤ (beyond ClaimRow.txSeq after (matching db query)).length := by
      rw [List.length_take] at whole
      omega
    rw [blocks_of_le positive full]
    rw [(beyond_last (matching_unique consistent query) ends).2] at ih
    exact .cons readAs ih

/-- When every block can be read, the cursors can be followed to the end. -/
theorem follows_exists (fits : boundFits query.bound) {after : Nat} (near : after ≤ maxInteger)
    (attaches : ∀ block ∈ blocks limit (beyond ClaimRow.txSeq after (matching db query)),
      block = [] ∨ Attachable db query (· ∈ block)) : ∃ pages, Follows serde db query limit after pages := by
  induction size : (beyond ClaimRow.txSeq after (matching db query)).length using Nat.strong_induction_on
    generalizing after with
  | _ size ih =>
    rcases Nat.lt_or_ge (beyond ClaimRow.txSeq after (matching db query)).length limit with short | full
    · rw [blocks_of_lt short] at attaches
      have whole : pageRows db query after limit = beyond ClaimRow.txSeq after (matching db query) := by
        rw [pageRows_eq,List.take_of_length_le short.le]
      obtain ⟨loaded,-,read⟩ := read_exists serde consistent sized query after limit
        (whole ▸ attaches _ (List.mem_singleton_self _))
      refine ⟨_,.last ((history_iff_read positive allowed _).mpr ⟨near,fits,read⟩) ?_⟩
      simp only [pageOf,whole]
      rw [if_neg (by omega)]
    · rw [blocks_of_le positive full] at attaches
      obtain ⟨loaded,-,read⟩ := read_exists serde consistent sized query after limit
        ((pageRows_eq db query after limit) ▸ attaches _ List.mem_cons_self)
      have count : (pageRows db query after limit).length = limit := by
        rw [pageRows_eq,List.length_take]
        omega
      obtain ⟨final,ends⟩ : ∃ final, (pageRows db query after limit).getLast? = some final := by
        cases ends : (pageRows db query after limit).getLast? with
        | none =>
          rw [List.getLast?_eq_none_iff] at ends
          rw [ends] at count
          simp at count
          omega
        | some final => exact ⟨final,rfl⟩
      have stored := (mem_pageRows (List.mem_of_getLast? ends)).1
      have below : final.txSeq ≤ maxInteger := le_trans (consistent.counted final stored).2 (consistent.bounded _)
      rw [pageRows_eq] at ends
      have rest := (beyond_last (matching_unique consistent query) ends).2
      obtain ⟨pages,followed⟩ := ih _ (by rw [rest,List.length_drop]; omega) below
        (rest ▸ fun block member => attaches block (List.mem_cons_of_mem _ member)) rfl
      refine ⟨_ :: pages,.more ((history_iff_read positive allowed _).mpr ⟨near,fits,read⟩) ?_ followed⟩
      simp only [pageOf]
      rw [if_pos count,pageRows_eq,ends]
      rfl

end

/-! ### What the pages hold together -/

/-- The live claims of the subject that match the bound and the filter. -/
def wanted (db : Database) (query : HistoryQuery) : List ClaimRow := (matching db query).filter (fun row => !row.erased)

/-- The pages hold the wanted claims, the stored relations between them and the
    retractions of them, each exactly once. -/
structure Complete (db : Database) (query : HistoryQuery) (pages : List ClaimHistoryPage) : Prop where
  claims : (pages.flatMap (fun page => page.history.claims.values)).Perm ((wanted db query).filterMap rowRecord)
  relations : (pages.flatMap (fun page => page.history.relations)).Perm (relationsWithin (wanted db query) db.relations)
  retractions : (pages.flatMap (fun page => page.history.retractions)).Perm
    ((db.retractions.filter (fun row => row.scope == query.scope &&
      (wanted db query).any (fun claim => claim.claimId == row.target))).map storedRetraction)

/-- When the pages add up to the history: the matching claims, and the relations and
    retractions of the subject's, are legible, every retraction of the subject is of a
    matching claim, there is none where the claims take more than one page, and a
    relation between two matching claims joins claims of one page and, when it is a
    supersession, of one slot. -/
structure Whole (db : Database) (query : HistoryQuery) (limit : Nat) : Prop where
  legible : ∀ row ∈ matching db query, Legible row
  legibleRelations : ∀ row ∈ db.relations, row.scope = query.scope →
    row.fromClaim ∈ subjectIds db query.scope query.subject → LegibleRelation row
  legibleRetractions : ∀ row ∈ db.retractions, row.scope = query.scope →
    row.target ∈ subjectIds db query.scope query.subject → LegibleRetraction row
  retracted : ∀ row ∈ db.retractions, row.scope = query.scope →
    row.target ∈ subjectIds db query.scope query.subject → ∃ claim ∈ matching db query, claim.claimId = row.target
  single : ∀ row ∈ db.retractions, row.scope = query.scope →
    row.target ∈ subjectIds db query.scope query.subject → (matching db query).length ≤ limit
  joined : ∀ row ∈ db.relations, ∀ relation, row.document = some relation → ∀ left ∈ matching db query,
    ∀ right ∈ matching db query, left.claimId = relation.source → relation.target = .claim right.claimId →
    rank ClaimRow.txSeq 0 (matching db query) left / limit = rank ClaimRow.txSeq 0 (matching db query) right / limit ∧
      (relation.kind = .supersedes → left.claim.map SlotId.ofClaim = right.claim.map SlotId.ofClaim)

/-- Related claims share a page. -/
def Together (db : Database) (query : HistoryQuery) (limit : Nat) : Prop :=
  ∀ row ∈ db.relations, ∀ relation, row.document = some relation → ∀ left ∈ matching db query,
    ∀ right ∈ matching db query, left.claimId = relation.source → relation.target = .claim right.claimId →
    rank ClaimRow.txSeq 0 (matching db query) left / limit = rank ClaimRow.txSeq 0 (matching db query) right / limit

section
variable {db : Database} (consistent : Consistent db) {query : HistoryQuery}
include consistent

theorem matching_readable {row : ClaimRow} (member : row ∈ matching db query) : Readable query.scope row := by
  obtain ⟨inside,selected⟩ := mem_matching.mp member
  exact selected_readable consistent inside (selects_ofSubject selected)

theorem wanted_eq : wanted db query = matching db query := by
  refine List.filter_eq_self.mpr fun row member => ?_
  rw [(matching_readable consistent member).live]
  rfl

/-- Every matching row lies beyond the first cursor. -/
theorem beyond_zero_perm : (beyond ClaimRow.txSeq 0 (matching db query)).Perm (matching db query) := by
  refine (beyond_perm 0 _).trans (.of_eq (List.filter_eq_self.mpr fun row member => ?_))
  simpa using (consistent.counted row (mem_matching.mp member).1).1

/-- A row of the claim table under a matching claim's id is that claim. -/
theorem matching_eq {left right : ClaimRow} (leftIn : left ∈ matching db query) (rightIn : right ∈ matching db query)
    (same : left.claimId = right.claimId) : left = right :=
  consistent.ids.eq_of_key (mem_matching.mp leftIn).1 (mem_matching.mp rightIn).1 same

theorem ReadAs.claims_perm {limit : Nat} {block : List ClaimRow} {page : ClaimHistoryPage}
    (readAs : ReadAs db query limit block page) (inside : ∀ row ∈ block, row ∈ matching db query)
    (distinct : block.Nodup) : page.history.claims.values.Perm (block.filterMap rowRecord) := by
  obtain ⟨loaded,held,rfl⟩ := readAs.page
  have named : (block.filterMap rowRecord).map (fun record => record.claim.id) = block.map ClaimRow.claimId := by
    rw [List.map_filterMap]
    rw [← List.filterMap_eq_map]
    refine List.filterMap_congr fun row member => ?_
    obtain ⟨claim,document,named,-⟩ := (matching_readable consistent (inside row member)).document
    simp [rowRecord,document,recordOf,named]
  have ids : (block.map ClaimRow.claimId).Nodup :=
    List.Nodup.map_on (fun left leftIn right rightIn same =>
      matching_eq consistent (inside left leftIn) (inside right rightIn) same) distinct
  refine (List.perm_ext_iff_of_nodup (List.Nodup.of_map _ (loaded.claims.values_nodup (fun record => record.claim.id)
    loaded.keyed)) (List.Nodup.of_map _ (named ▸ ids))).mpr fun record => ?_
  simp only [pageOf,OrdMap.mem_values,held.claims,List.mem_filterMap]
  constructor
  · rintro ⟨id,row,member,-,recorded⟩
    exact ⟨row,member,recorded⟩
  · rintro ⟨row,member,recorded⟩
    exact ⟨row.claimId,row,member,rfl,recorded⟩

end

theorem ReadAs.relations {db : Database} {query : HistoryQuery} {limit : Nat} {block : List ClaimRow}
    {page : ClaimHistoryPage} (readAs : ReadAs db query limit block page) :
    page.history.relations = relationsWithin block (subjectRelations db query.scope query.subject) := by
  obtain ⟨loaded,-,rfl⟩ := readAs.page
  cases block with
  | nil =>
    have nothing : within [] = fun _ => false := funext fun _ => rfl
    simp [pageOf,relationsWithin,nothing]
  | cons row rest => simp [pageOf]

theorem ReadAs.retractions {db : Database} {query : HistoryQuery} {limit : Nat} {block : List ClaimRow}
    {page : ClaimHistoryPage} (readAs : ReadAs db query limit block page) :
    page.history.retractions =
      if block.isEmpty then [] else (subjectRetractions db query.scope query.subject).map storedRetraction := by
  obtain ⟨loaded,-,rfl⟩ := readAs.page
  rfl

theorem within_iff {rows : List ClaimRow} {relation : ClaimRelation} :
    within rows relation = true ↔ (∃ left ∈ rows, left.claimId = relation.source) ∧
      ∀ target, relation.target = .claim target → ∃ right ∈ rows, right.claimId = target := by
  unfold within
  cases targetIs : relation.target with
  | claim target => simp
  | memory memory => simp

theorem block_matching {db : Database} {query : HistoryQuery} {limit : Nat} (positive : 0 < limit) {block : List ClaimRow}
    (member : block ∈ blocks limit (beyond ClaimRow.txSeq 0 (matching db query))) :
    ∀ row ∈ block, row ∈ matching db query := by
  intro row inside
  exact (mem_beyond.mp (mem_blocks positive member row inside)).1

section
variable {db : Database} (consistent : Consistent db) {query : HistoryQuery} {limit : Nat} (positive : 0 < limit)
include consistent positive

/-- The blocks share no claim. -/
theorem blocks_apart :
    (blocks limit (beyond ClaimRow.txSeq 0 (matching db query))).Pairwise
      (fun left right => ∀ leftRow ∈ left, ∀ rightRow ∈ right, leftRow.claimId ≠ rightRow.claimId) := by
  have distinct : (blocks limit (beyond ClaimRow.txSeq 0 (matching db query))).flatten.Nodup := by
    rw [flatten_blocks positive]
    exact (beyond_ascending 0 (matching_unique consistent query)).nodup
  refine (List.nodup_flatten.mp distinct).2.imp_of_mem fun leftIn rightIn disjoint leftRow inLeft rightRow inRight same => ?_
  have equal := matching_eq consistent (block_matching positive leftIn leftRow inLeft)
    (block_matching positive rightIn rightRow inRight) same
  exact disjoint inLeft (equal ▸ inRight)

/-- The relations of the blocks are those whose claims share one. -/
theorem relations_blocks_perm (stored : List RelationRow) :
    ((blocks limit (beyond ClaimRow.txSeq 0 (matching db query))).flatMap (fun block => relationsWithin block stored)).Perm
      ((stored.filter (fun row => (blocks limit (beyond ClaimRow.txSeq 0 (matching db query))).any
        (fun block => row.document.any (within block)))).filterMap storedRelation) := by
  unfold relationsWithin
  rw [← List.filterMap_flatMap]
  refine (flatMap_filter_perm _ stored ((blocks_apart consistent positive).imp ?_)).filterMap _
  intro left right apart row _ inLeft
  by_contra inRight
  rw [Bool.not_eq_false] at inRight
  obtain ⟨relation,document,joinsLeft⟩ := (Option.any_eq_true _ _).mp inLeft
  obtain ⟨same,sameDocument,joinsRight⟩ := (Option.any_eq_true _ _).mp inRight
  obtain rfl := Option.some.inj (document.symm.trans sameDocument)
  obtain ⟨leftRow,leftIn,leftNamed⟩ := (within_iff.mp joinsLeft).1
  obtain ⟨rightRow,rightIn,rightNamed⟩ := (within_iff.mp joinsRight).1
  exact apart leftRow leftIn rightRow rightIn (leftNamed.trans rightNamed.symm)

omit positive in
/-- A relation that starts at a matching claim is in the query's scope. -/
theorem relation_scope {row : RelationRow} (member : row ∈ db.relations) {relation : ClaimRelation}
    (document : row.document = some relation) {left : ClaimRow} (leftIn : left ∈ matching db query)
    (leftNamed : left.claimId = relation.source) : row.scope = query.scope := by
  have starts : row.fromClaim = left.claimId := by rw [← consistent.related row member relation document,leftNamed]
  rw [consistent.relation_scope member (mem_matching.mp leftIn).1 starts]
  exact (matching_readable consistent leftIn).inScope

omit positive in
/-- A stored relation between matching claims is read with the subject's. -/
theorem relationsWithin_subject :
    (relationsWithin (matching db query) (subjectRelations db query.scope query.subject)).Perm
      (relationsWithin (matching db query) db.relations) := by
  unfold relationsWithin subjectRelations
  refine (((List.perm_insertionSort _ _).filter _).trans (.of_eq ?_)).filterMap _
  rw [List.filter_filter]
  refine List.filter_congr fun row member => ?_
  cases joins : row.document.any (within (matching db query)) with
  | false => rfl
  | true =>
    obtain ⟨relation,document,inside⟩ := (Option.any_eq_true _ _).mp joins
    obtain ⟨left,leftIn,leftNamed⟩ := (within_iff.mp inside).1
    obtain ⟨leftStored,selected⟩ := mem_matching.mp leftIn
    have listed := mem_subjectIds leftStored (selects_ofSubject selected)
    rw [leftNamed,consistent.related row member relation document] at listed
    simp [relation_scope consistent member document leftIn leftNamed,listed]

/-- The pages hold every relation when related claims share a block. -/
theorem relations_complete_iff :
    ((blocks limit (beyond ClaimRow.txSeq 0 (matching db query))).flatMap
      (fun block => relationsWithin block (subjectRelations db query.scope query.subject))).Perm
        (relationsWithin (matching db query) db.relations) ↔
    Together db query limit := by
  have unique := matching_unique consistent query
  have placed : ∀ row ∈ matching db query, row ∈ beyond ClaimRow.txSeq 0 (matching db query) :=
    fun row member => (beyond_zero_perm consistent).mem_iff.mpr member
  constructor
  · intro complete row member relation document left leftIn right rightIn leftNamed targetIs
    have inside : within (matching db query) relation = true := by
      refine within_iff.mpr ⟨⟨left,leftIn,leftNamed⟩,fun target same => ⟨right,rightIn,?_⟩⟩
      rw [targetIs] at same
      exact RelationTarget.claim.inj same
    have expected : relationRecord row relation ∈ relationsWithin (matching db query) db.relations :=
      List.mem_filterMap.mpr ⟨row,List.mem_filter.mpr ⟨member,by simp [document,inside]⟩,by simp [storedRelation,document]⟩
    obtain ⟨block,blockIn,read⟩ := List.mem_flatMap.mp (complete.mem_iff.mpr expected)
    obtain ⟨other,otherIn,sameRecord⟩ := List.mem_filterMap.mp read
    obtain ⟨-,joins⟩ := List.mem_filter.mp otherIn
    obtain ⟨found,otherDocument,joined⟩ := (Option.any_eq_true _ _).mp joins
    have sameRelation : found = relation := by
      simp only [storedRelation,otherDocument,Option.map_some,Option.some.injEq,relationRecord,
        HistoryRelation.mk.injEq] at sameRecord
      exact sameRecord.1
    rw [sameRelation] at joined
    obtain ⟨⟨leftRow,leftBlock,leftSame⟩,target⟩ := within_iff.mp joined
    obtain ⟨rightRow,rightBlock,rightSame⟩ := target right.claimId targetIs
    have leftEq := matching_eq consistent (block_matching positive blockIn leftRow leftBlock) leftIn
      (leftSame.trans leftNamed.symm)
    have rightEq := matching_eq consistent (block_matching positive blockIn rightRow rightBlock) rightIn rightSame
    exact (share_block positive unique (placed left leftIn) (placed right rightIn)).mp
      ⟨block,blockIn,leftEq ▸ leftBlock,rightEq ▸ rightBlock⟩
  · intro joined
    refine (relations_blocks_perm consistent positive _).trans (List.Perm.trans (.of_eq ?_)
      (relationsWithin_subject consistent))
    refine congrArg (List.filterMap storedRelation) (List.filter_congr fun row member => ?_)
    rw [Bool.eq_iff_iff,List.any_eq_true]
    constructor
    · rintro ⟨block,blockIn,joins⟩
      obtain ⟨relation,document,inside⟩ := (Option.any_eq_true _ _).mp joins
      obtain ⟨⟨left,leftIn,leftNamed⟩,target⟩ := within_iff.mp inside
      refine (Option.any_eq_true _ _).mpr ⟨relation,document,within_iff.mpr
        ⟨⟨left,block_matching positive blockIn left leftIn,leftNamed⟩,fun id targetIs => ?_⟩⟩
      obtain ⟨right,rightIn,rightNamed⟩ := target id targetIs
      exact ⟨right,block_matching positive blockIn right rightIn,rightNamed⟩
    · intro joins
      obtain ⟨relation,document,inside⟩ := (Option.any_eq_true _ _).mp joins
      obtain ⟨⟨left,leftIn,leftNamed⟩,target⟩ := within_iff.mp inside
      cases targetIs : relation.target with
      | memory memory =>
        have shared := (share_block positive unique (placed left leftIn) (placed left leftIn)).mpr rfl
        obtain ⟨block,blockIn,leftBlock,-⟩ := shared
        refine ⟨block,blockIn,(Option.any_eq_true _ _).mpr ⟨relation,document,within_iff.mpr
          ⟨⟨left,leftBlock,leftNamed⟩,fun id same => ?_⟩⟩⟩
        rw [targetIs] at same
        cases same
      | claim id =>
        obtain ⟨right,rightIn,rfl⟩ := target id targetIs
        have ranks := joined row (mem_subjectRelations.mp member).1 relation document left leftIn right rightIn leftNamed
          targetIs
        obtain ⟨block,blockIn,leftBlock,rightBlock⟩ :=
          (share_block positive unique (placed left leftIn) (placed right rightIn)).mpr ranks
        refine ⟨block,blockIn,(Option.any_eq_true _ _).mpr ⟨relation,document,within_iff.mpr
          ⟨⟨left,leftBlock,leftNamed⟩,fun other same => ⟨right,rightBlock,?_⟩⟩⟩⟩
        rw [targetIs] at same
        exact RelationTarget.claim.inj same

/-- Where no retraction stands in the way and related claims share a slot, every
    block can be read. -/
theorem attachable_of_whole (whole : Whole db query limit) :
    ∀ block ∈ blocks limit (beyond ClaimRow.txSeq 0 (matching db query)),
      block = [] ∨ Attachable db query (· ∈ block) := by
  intro block blockIn
  by_cases bare : block = []
  · exact .inl bare
  refine .inr ⟨?_,whole.legibleRelations,whole.legibleRetractions,?_,?_⟩
  · intro row inBlock
    exact whole.legible row (block_matching positive blockIn row inBlock)
  · intro row member inScope targeted
    have fits : (beyond ClaimRow.txSeq 0 (matching db query)).length ≤ limit := by
      rw [(beyond_zero_perm consistent).length_eq]
      exact whole.single row member inScope targeted
    have all : block = beyond ClaimRow.txSeq 0 (matching db query) := by
      rcases blocks_of_fits positive fits with one | two
      · rw [one] at blockIn
        exact List.mem_singleton.mp blockIn
      · rw [two] at blockIn
        simpa [bare] using blockIn
    obtain ⟨claim,claimIn,named⟩ := whole.retracted row member inScope targeted
    rw [all]
    exact ⟨claim,(beyond_zero_perm consistent).mem_iff.mpr claimIn,named⟩
  · intro row member _ relation document supersedes left right leftIn rightIn leftNamed targetIs
    exact (whole.joined row member relation document left (block_matching positive blockIn left leftIn) right
      (block_matching positive blockIn right rightIn) leftNamed targetIs).2 supersedes

/-- The retractions are read once where they all lie on the only page. -/
theorem retractions_complete (whole : matching db query = [] ∨ Whole db query limit) :
    ((blocks limit (beyond ClaimRow.txSeq 0 (matching db query))).flatMap (fun block => if block.isEmpty then []
      else (subjectRetractions db query.scope query.subject).map storedRetraction)).Perm
      ((db.retractions.filter (fun row => row.scope == query.scope &&
        (matching db query).any (fun claim => claim.claimId == row.target))).map storedRetraction) := by
  rcases whole with none' | whole
  · have empty : ([] : List ClaimRow).length < limit := positive
    have nothing : beyond ClaimRow.txSeq 0 (matching db query) = [] := by
      rw [none']
      rfl
    rw [nothing,blocks_of_lt empty]
    simp [none']
  have ofSubjects : (subjectRetractions db query.scope query.subject).Perm
      (db.retractions.filter (fun row => row.scope == query.scope &&
        (matching db query).any (fun claim => claim.claimId == row.target))) := by
    refine (List.perm_insertionSort _ _).trans (.of_eq (List.filter_congr fun row member => ?_))
    by_cases inScope : row.scope = query.scope
    · simp only [inScope,beq_self_eq_true,Bool.true_and]
      rw [Bool.eq_iff_iff,List.contains_iff_mem,List.any_eq_true]
      constructor
      · intro targeted
        obtain ⟨claim,claimIn,named⟩ := whole.retracted row member inScope targeted
        exact ⟨claim,claimIn,by simp [named]⟩
      · rintro ⟨claim,claimIn,named⟩
        obtain ⟨stored,selected⟩ := mem_matching.mp claimIn
        exact (beq_iff_eq.mp named) ▸ mem_subjectIds stored (selects_ofSubject selected)
    · have elsewhere : (row.scope == query.scope) = false := by simpa using inScope
      simp only [elsewhere,Bool.false_and]
  refine List.Perm.trans (.of_eq ?_) (ofSubjects.map storedRetraction)
  cases retractions : subjectRetractions db query.scope query.subject with
  | nil => simp
  | cons row rest =>
    have first : row ∈ subjectRetractions db query.scope query.subject := by simp [retractions]
    obtain ⟨member,inScope,targeted⟩ := mem_subjectRetractions.mp first
    obtain ⟨claim,claimIn,-⟩ := whole.retracted row member inScope targeted
    have fits : (beyond ClaimRow.txSeq 0 (matching db query)).length ≤ limit := by
      rw [(beyond_zero_perm consistent).length_eq]
      exact whole.single row member inScope targeted
    have filled : beyond ClaimRow.txSeq 0 (matching db query) ≠ [] :=
      List.ne_nil_of_mem ((beyond_zero_perm consistent).mem_iff.mpr claimIn)
    rcases blocks_of_fits positive fits with one | two
    · simp [one,filled]
    · simp [two,filled]

/-- Conversely, blocks that can be read and hold every relation leave no retraction
    off the page and no supersession across slots. -/
theorem whole_of_attachable (filled : matching db query ≠ [])
    (attaches : ∀ block ∈ blocks limit (beyond ClaimRow.txSeq 0 (matching db query)),
      block = [] ∨ Attachable db query (· ∈ block))
    (joined : Together db query limit) : Whole db query limit := by
  have zero : (beyond ClaimRow.txSeq 0 (matching db query)).Perm (matching db query) := beyond_zero_perm consistent
  have rowsFilled : beyond ClaimRow.txSeq 0 (matching db query) ≠ [] := by
    intro empty
    rw [empty] at zero
    exact filled zero.nil_eq.symm
  obtain ⟨block,blockIn,blockFilled⟩ := exists_filled_block positive rowsFilled
  have attachable := (attaches block blockIn).resolve_left blockFilled
  refine ⟨?_,attachable.related,attachable.retracted,?_,?_,?_⟩
  · intro row member
    have shared := share_block positive (matching_unique consistent query) (zero.mem_iff.mpr member) (zero.mem_iff.mpr member)
    obtain ⟨own,ownIn,inOwn,-⟩ := shared.mpr rfl
    exact ((attaches own ownIn).resolve_left (List.ne_nil_of_mem inOwn)).legible row inOwn
  · intro row member inScope targeted
    obtain ⟨claim,claimIn,named⟩ := attachable.retractions row member inScope targeted
    exact ⟨claim,block_matching positive blockIn claim claimIn,named⟩
  · intro row member inScope targeted
    by_contra many
    have full : limit < (beyond ClaimRow.txSeq 0 (matching db query)).length := by
      rw [zero.length_eq]
      omega
    have apart : (blocks limit (beyond ClaimRow.txSeq 0 (matching db query))).Pairwise _ :=
      blocks_apart consistent positive
    rw [blocks_of_le positive full.le] at apart attaches
    have firstFilled : (beyond ClaimRow.txSeq 0 (matching db query)).take limit ≠ [] := by
      rw [Ne,List.take_eq_nil_iff]
      rintro (none' | empty)
      · omega
      · exact rowsFilled empty
    have restFilled : (beyond ClaimRow.txSeq 0 (matching db query)).drop limit ≠ [] := by
      rw [Ne,List.drop_eq_nil_iff]
      omega
    obtain ⟨block,blockIn,blockFilled⟩ := exists_filled_block positive restFilled
    have onFirst := (attaches _ List.mem_cons_self).resolve_left firstFilled
    have onLater := (attaches block (List.mem_cons_of_mem _ blockIn)).resolve_left blockFilled
    obtain ⟨left,leftIn,leftNamed⟩ := onFirst.retractions row member inScope targeted
    obtain ⟨right,rightIn,rightNamed⟩ := onLater.retractions row member inScope targeted
    exact (List.pairwise_cons.mp apart).1 block blockIn left leftIn right rightIn (leftNamed.trans rightNamed.symm)
  · intro row member relation document left leftIn right rightIn leftNamed targetIs
    have ranks := joined row member relation document left leftIn right rightIn leftNamed targetIs
    refine ⟨ranks,fun supersedes => ?_⟩
    obtain ⟨block,blockIn,leftBlock,rightBlock⟩ := (share_block positive (matching_unique consistent query)
      (zero.mem_iff.mpr leftIn) (zero.mem_iff.mpr rightIn)).mpr ranks
    have attachable := (attaches block blockIn).resolve_left (List.ne_nil_of_mem leftBlock)
    exact attachable.supersessions row member (relation_scope consistent member document leftIn leftNamed) relation
      document supersedes left right leftBlock rightBlock leftNamed targetIs

end

/-! ### When the pages add up -/

section
variable {db : Database} (consistent : Consistent db) {query : HistoryQuery} {limit : Nat} (positive : 0 < limit)
include consistent positive

/-- Pages read from the blocks hold every claim once. -/
theorem claims_complete {pages : List ClaimHistoryPage}
    (paired : List.Forall₂ (ReadAs db query limit) (blocks limit (beyond ClaimRow.txSeq 0 (matching db query))) pages) :
    (pages.flatMap (fun page => page.history.claims.values)).Perm ((matching db query).filterMap rowRecord) := by
  have distinct : (blocks limit (beyond ClaimRow.txSeq 0 (matching db query))).flatten.Nodup := by
    rw [flatten_blocks positive]
    exact (beyond_ascending 0 (matching_unique consistent query)).nodup
  refine (flatMap_perm paired fun block blockIn page readAs => readAs.claims_perm consistent
    (block_matching positive blockIn) ((List.nodup_flatten.mp distinct).1 block blockIn)).trans ?_
  have joined : (blocks limit (beyond ClaimRow.txSeq 0 (matching db query))).flatMap (List.filterMap rowRecord) =
      (beyond ClaimRow.txSeq 0 (matching db query)).filterMap rowRecord := by
    rw [List.flatMap_def,← List.filterMap_flatten,flatten_blocks positive]
  rw [joined]
  exact (beyond_zero_perm consistent).filterMap rowRecord

end

/-- Following the cursors from the first page to the end reads the whole history,
    whatever the limit, exactly when the bound fits its column and nothing matches, or
    everything the pages read is legible, every retraction of the subject is of a matching
    claim and comes with a single page of claims, and related claims share a page and,
    when one supersedes the other, a slot. -/
theorem pages_complete_iff (serde : Serde) {db : Database} (reachable : Reachable db) (sized : Sized db) (query : HistoryQuery) (limit : Nat)
    (positive : 0 < limit) (allowed : limit ≤ maxClaimPageRows) :
    (∃ pages, Follows serde db query limit 0 pages ∧ Complete db query pages) ↔
      boundFits query.bound ∧ (matching db query = [] ∨ Whole db query limit) := by
  have consistent := reachable_consistent reachable
  constructor
  · rintro ⟨pages,followed,complete⟩
    have fits : boundFits query.bound := by
      cases followed with
      | last read _ => exact ((history_iff_read positive allowed _).mp read).2.1
      | more read _ _ => exact ((history_iff_read positive allowed _).mp read).2.1
    refine ⟨fits,?_⟩
    by_cases bare : matching db query = []
    · exact .inl bare
    have paired := follows_reads consistent sized positive allowed followed
    have relations := complete.relations
    rw [wanted_eq consistent] at relations
    have together := (flatMap_perm paired fun _ _ _ readAs => .of_eq readAs.relations).symm.trans relations
    refine .inr (whole_of_attachable consistent positive bare ?_ ((relations_complete_iff consistent positive).mp together))
    intro block blockIn
    obtain ⟨page,-,readAs⟩ := forall₂_left paired blockIn
    exact readAs.attaches
  · rintro ⟨fits,whole⟩
    have attaches : ∀ block ∈ blocks limit (beyond ClaimRow.txSeq 0 (matching db query)),
        block = [] ∨ Attachable db query (· ∈ block) := by
      rcases whole with bare | whole
      · intro block blockIn
        refine .inl (List.eq_nil_iff_forall_not_mem.mpr fun row inside => ?_)
        have member := block_matching positive blockIn row inside
        rw [bare] at member
        cases member
      · exact attachable_of_whole consistent positive whole
    have joined : Together db query limit := by
      rcases whole with bare | whole
      · simp [Together,bare]
      · intro row member relation document left leftIn right rightIn leftNamed targetIs
        exact (whole.joined row member relation document left leftIn right rightIn leftNamed targetIs).1
    obtain ⟨pages,followed⟩ := follows_exists consistent sized positive allowed fits (Nat.zero_le _) attaches
    have paired := follows_reads consistent sized positive allowed followed
    refine ⟨pages,followed,?_,?_,?_⟩
    · rw [wanted_eq consistent]
      exact claims_complete consistent positive paired
    · rw [wanted_eq consistent]
      exact (flatMap_perm paired fun _ _ _ readAs => .of_eq readAs.relations).trans
        ((relations_complete_iff consistent positive).mpr joined)
    · rw [wanted_eq consistent]
      exact (flatMap_perm paired fun _ _ _ readAs => .of_eq readAs.retractions).trans
        (retractions_complete consistent positive whole)

namespace Sample
open Claims.Sample ClaimRepo.Sample ClaimPages.Sample

def contradicts : ClaimRelation := ⟨secondId,.contradicts,.claim firstId,provenance,by decide⟩

/-- A second claim about the seat, which contradicts the first. -/
def contradicting : ClaimAppend :=
  { item secondId "14C" with
    admitted := { admitted secondId "14C" with relations := [contradicts] }
    grounded := by
      intro relation member
      rw [List.mem_singleton.mp member]
      rfl }

def contradicted : List ClaimTxn := [.append .new [item firstId "12A"] 10,.append .new [contradicting] 11]

/-- Two claims a page, the pages hold both and the contradiction between them. -/
theorem pages_complete_iff_contradicted :
    ∃ db, commitAll .empty contradicted = .ok db ∧ Sized db ∧
      (∃ pages, Follows serde db query 2 0 pages ∧ Complete db query pages ∧
        pages.map (·.history.relations.map (·.relation.target)) = [[.claim firstId],[]]) ∧ Whole db query 2 := by
  refine ⟨_,rfl,plain_sized (by decide +kernel),⟨_,.more rfl rfl (.last rfl rfl),
    ⟨by decide +kernel,by decide +kernel,by decide +kernel⟩,by decide +kernel⟩,?_⟩
  have complete := (pages_complete_iff serde ⟨contradicted,rfl⟩ (plain_sized (by decide +kernel)) query 2 (by decide)
    (by decide)).mp ⟨_,.more rfl rfl (.last rfl rfl),⟨by decide +kernel,by decide +kernel,by decide +kernel⟩⟩
  refine complete.2.resolve_left fun bare => ?_
  revert bare
  decide +kernel

/-- One claim a page, the contradiction is on none of them. -/
theorem single_claims_drop_contradiction :
    ∃ db, commitAll .empty contradicted = .ok db ∧
      ¬ ∃ pages, Follows serde db query 1 0 pages ∧ Complete db query pages := by
  refine ⟨_,rfl,?_⟩
  rintro ⟨pages,followed,complete⟩
  obtain rfl := followed.unique (.more rfl rfl (.more rfl rfl (.last rfl rfl)))
  have counted := complete.relations.length_eq
  revert counted
  decide +kernel

end Sample

end Aicortex.ClaimPaging
