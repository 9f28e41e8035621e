import Aicortex.ClaimTables

/-!
What an erased claim leaves behind. Two runs of transactions that differ only in the
content of one claim are compared: with the claim's own rows veiled they leave the
same tables, and once it is erased there is nothing under the veil. A staged proposal
is out of the erasure's reach, and so is an admission recorded again after the scope
was erased.
-/

namespace Aicortex.ClaimResidue
open Aicortex.Text Aicortex.CivilTime Aicortex.History Aicortex.ClaimGate Aicortex.Schema Aicortex.ClaimRepo
open Aicortex.ClaimTables Lib.Tables Lib.Outcome
open Aicortex.Claims hiding Unit
set_option linter.unusedSimpArgs false

/-! ### Runs that differ in one claim's content -/

/-- Claims known by the same identity; their value, subject key, slot, standing and
    the spans of their provenance may differ. -/
structure AlikeClaim (left right : Claim) : Prop where
  id : left.id = right.id
  scope : left.scope = right.scope
  subjectNamespace : left.subject.namespace = right.subject.namespace
  subjectKind : left.subject.kind = right.subject.kind
  predicate : left.predicate = right.predicate
  sources : left.provenance.derivedFrom = right.provenance.derivedFrom

/-- Relations between the same ends; their provenance may differ. -/
structure AlikeRelation (left right : ClaimRelation) : Prop where
  source : left.source = right.source
  kind : left.kind = right.kind
  target : left.target = right.target

/-- The same verdict on alike claims; the evidence may differ. -/
structure AlikeAdmitted (left right : AdmittedClaim) : Prop where
  claim : AlikeClaim left.claim right.claim
  proposal : left.proposal = right.proposal
  policy : left.policy = right.policy
  authority : left.authority = right.authority
  sourcing : left.sourcing = right.sourcing
  relations : List.Forall₂ AlikeRelation left.relations right.relations
  corrects : left.corrects = right.corrects
  conflicts : left.conflicts = right.conflicts

structure AlikeItem (left right : ClaimAppend) : Prop where
  admitted : AlikeAdmitted left.admitted right.admitted
  valid : left.valid = right.valid
  sourceTime : left.sourceTime = right.sourceTime
  sourceSeq : left.sourceSeq = right.sourceSeq
  supersession : left.supersession = right.supersession

structure AlikeProposal (left right : ClaimProposal) : Prop where
  id : left.id = right.id
  claim : AlikeClaim left.claim right.claim
  proposer : left.proposer = right.proposer
  relations : left.relations = right.relations
  proposedAt : left.proposedAt = right.proposedAt

/-- The same transaction up to the content of one claim. An erasure of the claim
    names its subject, whose key is content too; the history an append is checked
    against is not stored. -/
inductive Alike (claim : ClaimId) : ClaimTxn → ClaimTxn → Prop where
  | propose {left right : ClaimProposal} (alike : left = right ∨ left.claim.id = claim ∧ AlikeProposal left right) :
      Alike claim (.propose left) (.propose right)
  | admissions {left right : List AdmittedClaim} (at' : UnixSeconds)
      (alike : List.Forall₂ (fun one other => one = other ∨ one.claim.id = claim ∧ AlikeAdmitted one other) left right) :
      Alike claim (.admissions left at') (.admissions right at')
  | append (existing other : ClaimHistory) {left right : List ClaimAppend} (at' : UnixSeconds)
      (alike : List.Forall₂ (fun one other => one = other ∨ one.admitted.claim.id = claim ∧ AlikeItem one other) left
        right) : Alike claim (.append existing left at') (.append other right at')
  | retract (scope : Scope) (retraction : Retraction) : Alike claim (.retract scope retraction) (.retract scope retraction)
  | erase (scope : Scope) {left right : SubjectRef} (id : ClaimId)
      (alike : left = right ∨ id = claim ∧ left.namespace = right.namespace ∧ left.kind = right.kind) :
      Alike claim (.erase scope left id) (.erase scope right id)
  | markSource (scope : Scope) (source : MemoryId) : Alike claim (.markSource scope source) (.markSource scope source)
  | eraseSource (scope : Scope) (source : MemoryId) : Alike claim (.eraseSource scope source) (.eraseSource scope source)
  | eraseScope (scope : Scope) : Alike claim (.eraseScope scope) (.eraseScope scope)

/-- A step that keeps the claim out of the records no erasure reaches: it stages no
    proposal of it, and records no admission of it apart from its append. -/
def Discreet (claim : ClaimId) (db : Database) : ClaimTxn → Prop
  | .propose proposal => proposal.claim.id ≠ claim
  | .admissions batch _ => (∀ row ∈ db.claims, row.claimId ≠ claim) ∨ ∀ admitted ∈ batch, admitted.claim.id ≠ claim
  | _ => True

/-- A committed run of discreet steps. -/
inductive DiscreetRun (claim : ClaimId) : Database → List ClaimTxn → Database → Prop where
  | nil {db : Database} : DiscreetRun claim db [] db
  | cons {db mid last : Database} {txn : ClaimTxn} {rest : List ClaimTxn} (discreet : Discreet claim db txn)
      (committed : commit db txn = .ok mid) (remaining : DiscreetRun claim mid rest last) :
      DiscreetRun claim db (txn :: rest) last

/-! ### The tables under a veil -/

/-- Stores that agree once the rows of the claim are veiled. -/
structure Veiled (claim : ClaimId) (left right : Database) : Prop where
  counter : left.txCounter = right.txCounter
  claims : veil ClaimRow.claimId claim ClaimRow.tombstone left.claims =
    veil ClaimRow.claimId claim ClaimRow.tombstone right.claims
  relations : veil RelationRow.fromClaim claim RelationRow.scrubbed left.relations =
    veil RelationRow.fromClaim claim RelationRow.scrubbed right.relations
  retractions : left.retractions = right.retractions
  sources : left.sources = right.sources
  admissions : veil AdmissionRow.claimId claim AdmissionRow.scrubbed left.admissions =
    veil AdmissionRow.claimId claim AdmissionRow.scrubbed right.admissions
  proposals : left.proposals = right.proposals

section
variable {claim : ClaimId}

theorem claimRow_veiled {left right : ClaimAppend} (alike : left = right ∨ left.admitted.claim.id = claim ∧ AlikeItem left right)
    (at' : UnixSeconds) (seq : Nat) :
    veil ClaimRow.claimId claim ClaimRow.tombstone [left.claimRow at' seq] =
      veil ClaimRow.claimId claim ClaimRow.tombstone [right.claimRow at' seq] := by
  rcases alike with rfl | ⟨mine,alike⟩
  · rfl
  have same := alike.admitted.claim
  have theirs : right.admitted.claim.id = claim := same.id.symm.trans mine
  simp [veil,updateWhere,ClaimAppend.claimRow,ClaimRow.tombstone,ClaimAppend.admissionRef,mine,theirs,same.scope,
    same.subjectNamespace,same.subjectKind,same.predicate,alike.valid,alike.sourceTime,alike.sourceSeq,
    alike.supersession,alike.admitted.proposal,alike.admitted.policy,alike.admitted.authority,alike.admitted.sourcing]

theorem relationRows_veiled {left right : ClaimAppend}
    (alike : left = right ∨ left.admitted.claim.id = claim ∧ AlikeItem left right) (at' : UnixSeconds) (seq : Nat) :
    veil RelationRow.fromClaim claim RelationRow.scrubbed (left.relationRows at' seq) =
      veil RelationRow.fromClaim claim RelationRow.scrubbed (right.relationRows at' seq) := by
  rcases alike with rfl | ⟨mine,alike⟩
  · rfl
  have starts : ∀ relation ∈ left.admitted.relations, relation.source = claim :=
    fun relation member => (left.grounded relation member).trans mine
  unfold ClaimAppend.relationRows veil updateWhere
  rw [List.map_map,List.map_map,alike.admitted.claim.scope,alike.admitted.authority]
  have paired := alike.admitted.relations
  generalize left.admitted.relations = lefts at paired starts ⊢
  generalize right.admitted.relations = rights at paired ⊢
  induction paired with
  | nil => rfl
  | @cons one other _ _ pair _ ih =>
    rw [List.map_cons,List.map_cons,ih (fun relation member => starts relation (List.mem_cons_of_mem _ member))]
    have first := starts one List.mem_cons_self
    simp [RelationRow.scrubbed,first,← pair.source,← pair.kind,← pair.target]

theorem sourceRows_alike {left right : ClaimAppend}
    (alike : left = right ∨ left.admitted.claim.id = claim ∧ AlikeItem left right) : left.sourceRows = right.sourceRows := by
  rcases alike with rfl | ⟨-,alike⟩
  · rfl
  have same := alike.admitted.claim
  simp [ClaimAppend.sourceRows,same.id,same.scope,same.sources]

theorem admissionRow_veiled {left right : AdmittedClaim} (alike : left = right ∨ left.claim.id = claim ∧ AlikeAdmitted left right)
    (at' : UnixSeconds) :
    veil AdmissionRow.claimId claim AdmissionRow.scrubbed [admissionRow left at'] =
      veil AdmissionRow.claimId claim AdmissionRow.scrubbed [admissionRow right at'] := by
  rcases alike with rfl | ⟨mine,alike⟩
  · rfl
  have theirs : right.claim.id = claim := alike.claim.id.symm.trans mine
  simp [veil,updateWhere,admissionRow,AdmissionRow.scrubbed,mine,theirs,alike.claim.scope,alike.proposal,alike.policy,
    alike.authority,alike.sourcing,alike.corrects,alike.conflicts]

theorem appendItem_veiled {at' : UnixSeconds} {left right : ClaimAppend} {db other next follower : Database}
    (alike : left = right ∨ left.admitted.claim.id = claim ∧ AlikeItem left right) (veiled : Veiled claim db other)
    (stepped : appendItem at' db left = .ok next) (followed : appendItem at' other right = .ok follower) :
    Veiled claim next follower := by
  obtain ⟨-,-,-,rfl⟩ := appendItem_ok stepped
  obtain ⟨-,-,-,rfl⟩ := appendItem_ok followed
  have scope : left.admitted.claim.scope = right.admitted.claim.scope := by
    rcases alike with rfl | ⟨-,alike⟩
    · rfl
    · exact alike.admitted.claim.scope
  rw [veiled.counter,scope]
  exact ⟨rfl,veil_congr veiled.claims (claimRow_veiled alike _ _),veil_congr veiled.relations (relationRows_veiled alike _ _),
    veiled.retractions,by simp only [veiled.sources,sourceRows_alike alike],veiled.admissions,veiled.proposals⟩

theorem recordAdmission_veiled {at' : UnixSeconds} {left right : AdmittedClaim} {db other next follower : Database}
    (alike : left = right ∨ left.claim.id = claim ∧ AlikeAdmitted left right) (veiled : Veiled claim db other)
    (stepped : recordAdmission at' db left = .ok next) (followed : recordAdmission at' other right = .ok follower) :
    Veiled claim next follower := by
  obtain ⟨-,rfl⟩ := Database.fills_admissions.step_ok_iff.mp stepped
  obtain ⟨-,rfl⟩ := Database.fills_admissions.step_ok_iff.mp followed
  exact ⟨veiled.counter,veiled.claims,veiled.relations,veiled.retractions,veiled.sources,
    veil_congr veiled.admissions (admissionRow_veiled alike at'),veiled.proposals⟩

/-- An erasure of some claims acts alike on stores alike. -/
theorem scrubbing_veiled {db other : Database} (veiled : Veiled claim db other) {left right : ClaimRow → Bool}
    (agree : ∀ row, row.claimId ≠ claim → left row = right row) (relations : RelationRow → Bool)
    (admissions : AdmissionRow → Bool) :
    Veiled claim
      { db with
        claims := updateWhere left ClaimRow.tombstone db.claims
        relations := updateWhere relations RelationRow.scrubbed db.relations
        admissions := updateWhere admissions AdmissionRow.scrubbed db.admissions }
      { other with
        claims := updateWhere right ClaimRow.tombstone other.claims
        relations := updateWhere relations RelationRow.scrubbed other.relations
        admissions := updateWhere admissions AdmissionRow.scrubbed other.admissions } where
  counter := veiled.counter
  claims := veil_update (fun _ => rfl) (fun _ => rfl) (fun _ => rfl) agree veiled.claims
  relations := veil_update (fun _ => rfl) (fun _ => rfl) (fun _ => rfl) (fun _ _ => rfl) veiled.relations
  retractions := veiled.retractions
  sources := veiled.sources
  admissions := veil_update (fun _ => rfl) (fun _ => rfl) (fun _ => rfl) (fun _ _ => rfl) veiled.admissions
  proposals := veiled.proposals

theorem cites_alike {db other : Database} (veiled : Veiled claim db other) (scope : Scope) (source : MemoryId) :
    cites db scope source = cites other scope source := by
  funext id
  simp only [cites,veiled.sources]

/-- One step of two alike runs keeps the stores alike. -/
theorem commit_veiled {db other next follower : Database} {txn shadow : ClaimTxn} (alike : Alike claim txn shadow)
    (discreet : Discreet claim db txn) (veiled : Veiled claim db other) (stepped : commit db txn = .ok next)
    (followed : commit other shadow = .ok follower) : Veiled claim next follower := by
  cases alike with
  | propose alike =>
    rcases alike with rfl | ⟨mine,-⟩
    · obtain rfl := Database.insertProposal_ok stepped
      obtain rfl := Database.insertProposal_ok followed
      exact ⟨veiled.counter,veiled.claims,veiled.relations,veiled.retractions,veiled.sources,veiled.admissions,
        by simp only [veiled.proposals]⟩
    · exact absurd mine discreet
  | admissions at' alike =>
    exact foldlM_related (Veiled claim) alike (fun _ _ _ _ _ _ pair held one two => recordAdmission_veiled pair held one two) veiled
      (admitBatch_ok stepped) (admitBatch_ok followed)
  | append existing other' at' alike =>
    obtain ⟨mid,appended,admitted⟩ := append_ok stepped
    obtain ⟨mid',appended',admitted'⟩ := append_ok followed
    have kept := foldlM_related (Veiled claim) alike (fun _ _ _ _ _ _ pair held one two => appendItem_veiled pair held one two) veiled
      appended appended'
    have verdicts : ∀ one other, (one = other ∨ one.admitted.claim.id = claim ∧ AlikeItem one other) →
        one.admitted = other.admitted ∨ one.admitted.claim.id = claim ∧ AlikeAdmitted one.admitted other.admitted := by
      rintro one other (rfl | ⟨mine,alike⟩)
      · exact .inl rfl
      · exact .inr ⟨mine,alike.admitted⟩
    have pairs : List.Forall₂ (fun one other => one = other ∨ one.claim.id = claim ∧ AlikeAdmitted one other) _ _ :=
      List.forall₂_map_left_iff.mpr (List.forall₂_map_right_iff.mpr (alike.imp verdicts))
    exact foldlM_related (Veiled claim) pairs
      (fun _ _ _ _ _ _ pair held one two => recordAdmission_veiled pair held one two) kept admitted admitted'
  | retract scope retraction =>
    obtain ⟨-,rfl⟩ := retract_ok stepped
    obtain ⟨-,rfl⟩ := retract_ok followed
    exact ⟨by simp only [veiled.counter],veiled.claims,veiled.relations,by simp only [veiled.counter,veiled.retractions],
      veiled.sources,veiled.admissions,veiled.proposals⟩
  | erase scope id alike =>
    obtain rfl := Except.ok.inj stepped
    obtain rfl := Except.ok.inj followed
    refine scrubbing_veiled veiled ?_ _ _
    intro row others
    rcases alike with rfl | ⟨rfl,-⟩
    · rfl
    · have elsewhere : (row.claimId == id) = false := beq_false_of_ne others
      simp [elsewhere]
  | markSource scope source =>
    obtain rfl := Except.ok.inj stepped
    obtain rfl := Except.ok.inj followed
    refine ⟨veiled.counter,?_,veiled.relations,veiled.retractions,veiled.sources,veiled.admissions,veiled.proposals⟩
    refine veil_update (fun _ => rfl) (fun _ => rfl) (fun _ => rfl) ?_ veiled.claims
    intro row _
    rw [cites_alike veiled]
  | eraseSource scope source =>
    obtain rfl := Except.ok.inj stepped
    obtain rfl := Except.ok.inj followed
    simp only [eraseSourceClaims,cites_alike veiled]
    exact scrubbing_veiled veiled (fun _ _ => rfl) _ _
  | eraseScope scope =>
    obtain rfl := Except.ok.inj stepped
    obtain rfl := Except.ok.inj followed
    constructor
    · exact veiled.counter
    · exact veil_update (fun _ => rfl) (fun _ => rfl) (fun _ => rfl) (fun _ _ => rfl) veiled.claims
    · refine veil_delete ?_ veiled.relations
      exact fun _ => rfl
    · simp only [eraseScopeClaims,veiled.retractions]
    · simp only [eraseScopeClaims,veiled.sources]
    · refine veil_delete ?_ veiled.admissions
      exact fun _ => rfl
    · simp only [eraseScopeClaims,veiled.proposals]

/-- Alike discreet runs leave stores that agree under the veil. -/
theorem runs_veiled {left right : List ClaimTxn} (alike : List.Forall₂ (Alike claim) left right)
    {db other last final : Database} (veiled : Veiled claim db other) (leftRun : DiscreetRun claim db left last)
    (rightRun : DiscreetRun claim other right final) : Veiled claim last final := by
  induction alike generalizing db other with
  | nil =>
    cases leftRun
    cases rightRun
    exact veiled
  | cons pair _ ih =>
    cases leftRun with
    | cons discreet stepped remaining =>
      cases rightRun with
      | cons _ followed rest => exact ih (commit_veiled pair discreet veiled stepped followed) remaining rest

end

/-! ### Nothing under the veil of an erased claim -/

/-- What erasing the claim leaves of its rows: a tombstone, and relations and an
    admission without their documents. -/
structure Swept (claim : ClaimId) (db : Database) : Prop where
  tombstones : ∀ row ∈ db.claims, row.claimId = claim → row.erased = true → row.tombstone = row
  located : ∀ row ∈ db.claims, row.claimId = claim → ∀ admission ∈ db.admissions, admission.claimId = claim →
    admission.scope = row.scope
  relations : ∀ row ∈ db.claims, row.claimId = claim → row.erased = true → ∀ relation ∈ db.relations,
    relation.fromClaim = claim → relation.scrubbed = relation
  admissions : ∀ row ∈ db.claims, row.claimId = claim → row.erased = true → ∀ admission ∈ db.admissions,
    admission.claimId = claim → admission.scrubbed = admission

theorem appendItems_ok {at' : UnixSeconds} {batch : List ClaimAppend} {db next : Database}
    (executed : batch.foldlM (appendItem at') db = .ok next) :
    (∀ item ∈ batch, ∀ row ∈ db.claims, row.claimId ≠ item.admitted.claim.id) ∧
      (batch.map (fun item => item.admitted.claim.id)).Nodup ∧
      (∀ row ∈ next.claims, row ∈ db.claims ∨ ∃ item ∈ batch, ∃ seq, row = item.claimRow at' seq) ∧
      (∀ row ∈ next.relations, row ∈ db.relations ∨ ∃ item ∈ batch, row.fromClaim = item.admitted.claim.id) ∧
      next.admissions = db.admissions := by
  induction batch generalizing db with
  | nil =>
    cases executed
    exact ⟨by simp,List.nodup_nil,fun _ member => .inl member,fun _ member => .inl member,rfl⟩
  | cons item rest ih =>
    obtain ⟨mid,stepped,remaining⟩ := bind_ok_iff.mp executed
    obtain ⟨-,fresh,-,rfl⟩ := appendItem_ok stepped
    obtain ⟨others,distinct,claims,relations,admissions⟩ := ih remaining
    refine ⟨?_,?_,?_,?_,admissions⟩
    · intro candidate member row old
      rcases List.mem_cons.mp member with rfl | later
      · exact fresh row old
      · exact others candidate later row (List.mem_append_left _ old)
    · refine List.nodup_cons.mpr ⟨?_,distinct⟩
      intro repeated
      obtain ⟨candidate,later,same⟩ := List.mem_map.mp repeated
      exact others candidate later _ (List.mem_append_right _ (List.mem_singleton_self _)) same.symm
    · intro row member
      rcases claims row member with old | ⟨candidate,later,built⟩
      · rcases List.mem_append.mp old with older | added
        · exact .inl older
        · exact .inr ⟨item,List.mem_cons_self,_,List.mem_singleton.mp added⟩
      · exact .inr ⟨candidate,List.mem_cons_of_mem _ later,built⟩
    · intro row member
      rcases relations row member with old | ⟨candidate,later,starts⟩
      · rcases List.mem_append.mp old with older | added
        · exact .inl older
        · obtain ⟨relation,carried,rfl⟩ := List.mem_map.mp added
          exact .inr ⟨item,List.mem_cons_self,item.grounded relation carried⟩
      · exact .inr ⟨candidate,List.mem_cons_of_mem _ later,starts⟩

section
variable {claim : ClaimId} {db next : Database}

theorem append_swept (swept : Swept claim db) {existing : ClaimHistory} {batch : List ClaimAppend} {at' : UnixSeconds}
    (executed : append existing batch at' db = .ok next) : Swept claim next := by
  obtain ⟨mid,appended,admitted⟩ := append_ok executed
  obtain ⟨fresh,distinct,claims,relations,unadmitted⟩ := appendItems_ok appended
  obtain ⟨unrecorded,rfl⟩ := recordAdmissions_ok admitted
  rw [unadmitted] at unrecorded
  simp only [List.map_map,unadmitted]
  by_cases carried : ∃ item ∈ batch, item.admitted.claim.id = claim
  · -- The claim is new: its row is live and its admission is the one of this batch.
    obtain ⟨item,itemIn,named⟩ := carried
    have added : ∀ row ∈ mid.claims, row.claimId = claim → ∃ seq, row = item.claimRow at' seq := by
      intro row member mine
      rcases claims row member with old | ⟨candidate,candidateIn,seq,rfl⟩
      · exact absurd (mine.trans named.symm) (fresh item itemIn row old)
      · have same : candidate = item :=
          List.inj_on_of_nodup_map distinct candidateIn itemIn (mine.trans named.symm)
        exact ⟨seq,by rw [same]⟩
    have live : ∀ row ∈ mid.claims, row.claimId = claim → row.erased = false := by
      intro row member mine
      obtain ⟨seq,rfl⟩ := added row member mine
      rfl
    constructor
    · intro row member mine erased
      rw [live row member mine] at erased
      cases erased
    · intro row member mine admission recorded ofClaim
      obtain ⟨seq,rfl⟩ := added row member mine
      rcases List.mem_append.mp recorded with old | new
      · exact absurd (ofClaim.trans named.symm) (unrecorded _ (List.mem_map_of_mem itemIn) admission old)
      · obtain ⟨candidate,candidateIn,rfl⟩ := List.mem_map.mp new
        have same : candidate = item :=
          List.inj_on_of_nodup_map distinct candidateIn itemIn (ofClaim.trans named.symm)
        rw [same]
        rfl
    · intro row member mine erased
      rw [live row member mine] at erased
      cases erased
    · intro row member mine erased
      rw [live row member mine] at erased
      cases erased
  · have kept : ∀ row ∈ mid.claims, row.claimId = claim → row ∈ db.claims := by
      intro row member mine
      rcases claims row member with old | ⟨candidate,candidateIn,seq,rfl⟩
      · exact old
      · exact absurd ⟨candidate,candidateIn,mine⟩ carried
    have recorded : ∀ admission ∈ db.admissions ++ batch.map ((fun admitted => admissionRow admitted at') ∘ (·.admitted)),
        admission.claimId = claim → admission ∈ db.admissions := by
      intro admission member ofClaim
      rcases List.mem_append.mp member with old | new
      · exact old
      · obtain ⟨candidate,candidateIn,rfl⟩ := List.mem_map.mp new
        exact absurd ⟨candidate,candidateIn,ofClaim⟩ carried
    constructor
    · intro row member mine
      exact swept.tombstones row (kept row member mine) mine
    · intro row member mine admission inside ofClaim
      exact swept.located row (kept row member mine) mine admission (recorded admission inside ofClaim) ofClaim
    · intro row member mine erased relation inside starts
      rcases relations relation inside with old | ⟨candidate,candidateIn,named⟩
      · exact swept.relations row (kept row member mine) mine erased relation old starts
      · exact absurd ⟨candidate,candidateIn,named.symm.trans starts⟩ carried
    · intro row member mine erased admission inside ofClaim
      exact swept.admissions row (kept row member mine) mine erased admission (recorded admission inside ofClaim) ofClaim

theorem Swept.tombstoned (swept : Swept claim db) {chosen : ClaimRow → Bool} {row : ClaimRow}
    (member : row ∈ updateWhere chosen ClaimRow.tombstone db.claims) (mine : row.claimId = claim)
    (erased : row.erased = true) : row.tombstone = row := by
  rcases mem_updateWhere.mp member with ⟨old,-⟩ | ⟨old,inside,-,rfl⟩
  · exact swept.tombstones row old mine erased
  · rfl

/-- A tombstone stays where its claim was. -/
theorem Swept.still_located (swept : Swept claim db) {chosen : ClaimRow → Bool} {row : ClaimRow}
    (member : row ∈ updateWhere chosen ClaimRow.tombstone db.claims) (mine : row.claimId = claim)
    {admission : AdmissionRow} (recorded : admission ∈ db.admissions) (ofClaim : admission.claimId = claim) :
    admission.scope = row.scope := by
  rcases mem_updateWhere.mp member with ⟨old,-⟩ | ⟨old,inside,-,rfl⟩
  · exact swept.located row old mine admission recorded ofClaim
  · exact swept.located old inside mine admission recorded ofClaim

/-- An erasure that reaches the relations and the admission of the claims it turns
    into tombstones. -/
theorem scrub_swept (consistent : Consistent db) (swept : Swept claim db) {chosen : ClaimRow → Bool}
    {relations : RelationRow → Bool} {admissions : AdmissionRow → Bool}
    (reached : ∀ row ∈ db.claims, row.claimId = claim → chosen row = true →
      (∀ relation : RelationRow, relation.fromClaim = claim → relation.scope = row.scope → relations relation = true) ∧
      ∀ admission : AdmissionRow, admission.claimId = claim → admission.scope = row.scope → admissions admission = true) :
    Swept claim { db with
      claims := updateWhere chosen ClaimRow.tombstone db.claims
      relations := updateWhere relations RelationRow.scrubbed db.relations
      admissions := updateWhere admissions AdmissionRow.scrubbed db.admissions } := by
  constructor
  · intro row member mine erased
    exact swept.tombstoned member mine erased
  · intro row member mine admission recorded ofClaim
    rcases mem_updateWhere.mp recorded with ⟨kept,-⟩ | ⟨kept,keptIn,-,rfl⟩
    · exact swept.still_located member mine kept ofClaim
    · show kept.scope = row.scope
      exact swept.still_located member mine keptIn ofClaim
  · intro row member mine erased relation inside starts
    rcases mem_updateWhere.mp inside with ⟨kept,skipped⟩ | ⟨kept,keptIn,-,rfl⟩
    · rcases mem_updateWhere.mp member with ⟨old,-⟩ | ⟨old,oldIn,turned,rfl⟩
      · exact swept.relations row old mine erased relation kept starts
      · have scope := consistent.relation_scope kept oldIn (starts.trans mine.symm)
        rw [(reached old oldIn mine turned).1 relation starts scope] at skipped
        cases skipped
    · rfl
  · intro row member mine erased admission inside ofClaim
    rcases mem_updateWhere.mp inside with ⟨kept,skipped⟩ | ⟨kept,keptIn,-,rfl⟩
    · rcases mem_updateWhere.mp member with ⟨old,-⟩ | ⟨old,oldIn,turned,rfl⟩
      · exact swept.admissions row old mine erased admission kept ofClaim
      · have scope := swept.located old oldIn mine admission kept ofClaim
        rw [(reached old oldIn mine turned).2 admission ofClaim scope] at skipped
        cases skipped
    · rfl

theorem eraseScope_swept (consistent : Consistent db) (swept : Swept claim db) (scope : Scope) :
    Swept claim (eraseScopeClaims scope db) := by
  constructor
  · intro row member mine erased
    exact swept.tombstoned member mine erased
  · intro row member mine admission recorded ofClaim
    exact swept.still_located member mine (mem_deleteWhere.mp recorded).1 ofClaim
  · intro row member mine erased relation inside starts
    obtain ⟨kept,elsewhere⟩ := mem_deleteWhere.mp inside
    rcases mem_updateWhere.mp member with ⟨old,-⟩ | ⟨old,oldIn,turned,rfl⟩
    · exact swept.relations row old mine erased relation kept starts
    · rw [consistent.relation_scope kept oldIn (starts.trans mine.symm)] at elsewhere
      simp [elsewhere] at turned
  · intro row member mine erased admission inside ofClaim
    obtain ⟨kept,elsewhere⟩ := mem_deleteWhere.mp inside
    rcases mem_updateWhere.mp member with ⟨old,-⟩ | ⟨old,oldIn,turned,rfl⟩
    · exact swept.admissions row old mine erased admission kept ofClaim
    · rw [swept.located old oldIn mine admission kept ofClaim] at elsewhere
      simp [elsewhere] at turned

theorem commit_swept {txn : ClaimTxn} (consistent : Consistent db) (swept : Swept claim db)
    (discreet : Discreet claim db txn) (executed : commit db txn = .ok next) : Swept claim next := by
  cases txn with
  | propose proposal =>
    obtain rfl := Database.insertProposal_ok executed
    exact ⟨swept.tombstones,swept.located,swept.relations,swept.admissions⟩
  | admissions batch at' =>
    obtain ⟨-,rfl⟩ := recordAdmissions_ok (admitBatch_ok executed)
    rcases discreet with unknown | others
    · constructor <;> exact fun row member mine => absurd mine (unknown row member)
    · have kept : ∀ admission ∈ db.admissions ++ batch.map (fun admitted => admissionRow admitted at'),
          admission.claimId = claim → admission ∈ db.admissions := by
        intro admission member ofClaim
        rcases List.mem_append.mp member with old | new
        · exact old
        · obtain ⟨admitted,inside,rfl⟩ := List.mem_map.mp new
          exact absurd ofClaim (others admitted inside)
      refine ⟨swept.tombstones,?_,swept.relations,?_⟩
      · intro row member mine admission inside ofClaim
        exact swept.located row member mine admission (kept admission inside ofClaim) ofClaim
      · intro row member mine erased admission inside ofClaim
        exact swept.admissions row member mine erased admission (kept admission inside ofClaim) ofClaim
  | append existing batch at' => exact append_swept swept executed
  | retract scope retraction =>
    obtain ⟨-,rfl⟩ := retract_ok executed
    exact ⟨swept.tombstones,swept.located,swept.relations,swept.admissions⟩
  | erase scope subject id =>
    obtain rfl := Except.ok.inj executed
    refine scrub_swept consistent swept ?_
    intro row _ mine chosen
    simp only [ofSubject,Bool.and_eq_true,beq_iff_eq] at chosen
    obtain ⟨⟨⟨⟨⟨inScope,-⟩,-⟩,-⟩,named⟩,-⟩ := chosen
    rw [← inScope,← named,mine]
    exact ⟨fun relation starts same => by simp [starts,same],fun admission ofClaim same => by simp [ofClaim,same]⟩
  | markSource scope source =>
    obtain rfl := Except.ok.inj executed
    have old : ∀ row ∈ (markSourceClaims scope source db).claims, ∃ before ∈ db.claims, before.claimId = row.claimId ∧
        before.scope = row.scope ∧ (row.erased = true → row = before) := by
      intro row member
      rcases mem_updateWhere.mp member with ⟨inside,-⟩ | ⟨before,inside,chosen,rfl⟩
      · exact ⟨row,inside,rfl,rfl,fun _ => rfl⟩
      · refine ⟨before,inside,rfl,rfl,fun erased => ?_⟩
        simp only [ClaimRow.marked] at erased
        simp [erased] at chosen
    constructor
    · intro row member mine erased
      obtain ⟨before,inside,-,-,same⟩ := old row member
      obtain rfl := same erased
      exact swept.tombstones row inside mine erased
    · intro row member mine
      obtain ⟨before,inside,named,sameScope,-⟩ := old row member
      rw [← sameScope]
      exact swept.located before inside (named.trans mine)
    · intro row member mine erased
      obtain ⟨before,inside,-,-,same⟩ := old row member
      obtain rfl := same erased
      exact swept.relations row inside mine erased
    · intro row member mine erased
      obtain ⟨before,inside,-,-,same⟩ := old row member
      obtain rfl := same erased
      exact swept.admissions row inside mine erased
  | eraseSource scope source =>
    obtain rfl := Except.ok.inj executed
    refine scrub_swept consistent swept ?_
    intro row _ mine chosen
    simp only [Bool.and_eq_true,beq_iff_eq] at chosen
    obtain ⟨⟨inScope,-⟩,cited⟩ := chosen
    rw [mine] at cited
    rw [← inScope]
    exact ⟨fun relation starts same => by simp [starts,same,inScope,cited],
      fun admission ofClaim same => by simp [ofClaim,same,inScope,cited]⟩
  | eraseScope scope =>
    obtain rfl := Except.ok.inj executed
    exact eraseScope_swept consistent swept scope

theorem run_swept {txns : List ClaimTxn} (consistent : Consistent db) (swept : Swept claim db)
    (run : DiscreetRun claim db txns next) : Consistent next ∧ Swept claim next := by
  induction run with
  | nil => exact ⟨consistent,swept⟩
  | cons discreet committed _ ih =>
    exact ih (commit_consistent consistent committed) (commit_swept consistent swept discreet committed)

end

theorem empty_swept (claim : ClaimId) : Swept claim .empty := by
  constructor <;> simp [Database.empty]

/-! ### No residue -/

structure SameTables (left right : Database) : Prop where
  claims : left.claims = right.claims
  relations : left.relations = right.relations
  sources : left.sources = right.sources
  retractions : left.retractions = right.retractions
  proposals : left.proposals = right.proposals
  admissions : left.admissions = right.admissions

def Erased (claim : ClaimId) (db : Database) : Prop := ∃ row ∈ db.claims, row.claimId = claim ∧ row.erased = true

/-- The veil over an erased claim hides nothing. -/
theorem Swept.bare {claim : ClaimId} {db : Database} (consistent : Consistent db) (swept : Swept claim db)
    (erased : Erased claim db) :
    veil ClaimRow.claimId claim ClaimRow.tombstone db.claims = db.claims ∧
      veil RelationRow.fromClaim claim RelationRow.scrubbed db.relations = db.relations ∧
      veil AdmissionRow.claimId claim AdmissionRow.scrubbed db.admissions = db.admissions := by
  obtain ⟨row,member,mine,gone⟩ := erased
  refine ⟨veil_eq_self ?_,veil_eq_self (swept.relations row member mine gone),
    veil_eq_self (swept.admissions row member mine gone)⟩
  intro other otherIn named
  obtain rfl := consistent.ids.eq_of_key otherIn member (named.trans mine.symm)
  exact swept.tombstones other otherIn named gone

/-- In every two runs that differ only in the content of one claim, whose steps stage
    no proposal of it and record no admission of it once it is in the history, the
    claim tables are the same in both whenever the claim is erased in both. -/
theorem erased_claim_leaves_no_residue {claim : ClaimId} {left right : List ClaimTxn} {db other : Database}
    (alike : List.Forall₂ (Alike claim) left right) (leftRun : DiscreetRun claim .empty left db)
    (rightRun : DiscreetRun claim .empty right other) (leftErased : Erased claim db) (rightErased : Erased claim other) :
    SameTables db other := by
  have veiled := runs_veiled alike ⟨rfl,rfl,rfl,rfl,rfl,rfl,rfl⟩ leftRun rightRun
  obtain ⟨leftConsistent,leftSwept⟩ := run_swept empty_consistent (empty_swept claim) leftRun
  obtain ⟨rightConsistent,rightSwept⟩ := run_swept empty_consistent (empty_swept claim) rightRun
  obtain ⟨leftClaims,leftRelations,leftAdmissions⟩ := leftSwept.bare leftConsistent leftErased
  obtain ⟨rightClaims,rightRelations,rightAdmissions⟩ := rightSwept.bare rightConsistent rightErased
  constructor
  · rw [← leftClaims,veiled.claims,rightClaims]
  · rw [← leftRelations,veiled.relations,rightRelations]
  · exact veiled.sources
  · exact veiled.retractions
  · exact veiled.proposals
  · rw [← leftAdmissions,veiled.admissions,rightAdmissions]

namespace Sample
open Claims.Sample ClaimRepo.Sample

/-- A seat is stated and erased. -/
def stated (seat : String) : List ClaimTxn := [.append .new [item firstId seat] 10,.erase scope subject firstId]

theorem stated_alike (seat other : String) : List.Forall₂ (Alike firstId) (stated seat) (stated other) :=
  .cons (.append _ _ _ (.cons (.inr ⟨rfl,⟨⟨⟨rfl,rfl,rfl,rfl,rfl,rfl⟩,rfl,rfl,rfl,rfl,.nil,rfl,rfl⟩,rfl,rfl,rfl,rfl⟩⟩) .nil))
    (.cons (.erase _ _ (.inl rfl)) .nil)

theorem erased_seat_leaves_no_residue :
    ∃ db other, DiscreetRun firstId .empty (stated "12A") db ∧ DiscreetRun firstId .empty (stated "14C") other ∧
      Erased firstId db ∧ Erased firstId other ∧ SameTables db other := by
  have leftRun : DiscreetRun firstId .empty (stated "12A") _ := .cons trivial rfl (.cons trivial rfl .nil)
  have rightRun : DiscreetRun firstId .empty (stated "14C") _ := .cons trivial rfl (.cons trivial rfl .nil)
  exact ⟨_,_,leftRun,rightRun,⟨_,List.mem_singleton_self _,rfl,rfl⟩,⟨_,List.mem_singleton_self _,rfl,rfl⟩,
    erased_claim_leaves_no_residue (stated_alike "12A" "14C") leftRun rightRun ⟨_,List.mem_singleton_self _,rfl,rfl⟩
      ⟨_,List.mem_singleton_self _,rfl,rfl⟩⟩

def proposal (seat : String) : ClaimProposal := { ClaimGate.Sample.ownStatement with claim := claim firstId seat }

/-- The same with the statement proposed first, as it has to be to be admitted. -/
def proposed (seat : String) : List ClaimTxn := .propose (proposal seat) :: stated seat

/-- The proposal table still tells the erased seats apart. -/
theorem erased_seat_stays_proposed :
    ∃ db other, commitAll .empty (proposed "12A") = .ok db ∧ commitAll .empty (proposed "14C") = .ok other ∧
      List.Forall₂ (Alike firstId) (proposed "12A") (proposed "14C") ∧ Erased firstId db ∧ Erased firstId other ∧
      ¬ SameTables db other := by
  refine ⟨_,_,rfl,rfl,.cons (.propose (.inr ⟨rfl,rfl,⟨rfl,rfl,rfl,rfl,rfl,rfl⟩,rfl,rfl,rfl⟩)) (stated_alike _ _),
    ⟨_,List.mem_singleton_self _,rfl,rfl⟩,⟨_,List.mem_singleton_self _,rfl,rfl⟩,?_⟩
  intro same
  have proposals := same.proposals
  revert proposals
  decide +kernel

end Sample

end Aicortex.ClaimResidue
