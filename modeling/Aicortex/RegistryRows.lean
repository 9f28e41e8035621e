import Aicortex.Registration
import Aicortex.Lib.Tables

/-!
The registry's table and its writers. A registrant reads the table through the leader,
validates a set against the registry it read, stages the insert and commits it; the
table's primary key is the only thing looked at when it commits. Two sets that each
follow the version both registrants read need not follow one another, so the rows stay
a registry exactly as long as every commit fits the rows it meets.
-/

namespace Aicortex.RegistryRows
open Aicortex.Text Aicortex.Registry Aicortex.Registration Lib.Ordered Lib.Outcome Lib.Tables
open Aicortex.Claims hiding Unit
set_option linter.unusedSimpArgs false

/-! ### Grants and plans -/

/-- One exact document an operator permits to be registered. -/
structure PredicateRegistrationGrant where
  «namespace» : Namespace
  version : Nat
  documentDigest : String
  deriving Repr, DecidableEq

structure OperatorPredicateConfig where
  operator : Sub
  grants : List PredicateRegistrationGrant
  granting : grants ≠ []

def OperatorPredicateConfig.grant (config : OperatorPredicateConfig) («namespace» : Namespace) (version : Nat) :
    Option PredicateRegistrationGrant :=
  config.grants.find? (fun grant => grant.namespace == «namespace» && grant.version == version)

structure PredicateRegistrationIdentity where
  «namespace» : Namespace
  version : Nat
  documentDigest : String
  deriving Repr, DecidableEq

/-- A validated insertion. -/
structure AuthorizedPredicateRegistration where
  identity : PredicateRegistrationIdentity
  operator : Sub
  document : PredicateSet

inductive PredicateRegistrationPlan where
  | insert (authorized : AuthorizedPredicateRegistration)
  | unchanged (identity : PredicateRegistrationIdentity)

inductive PredicateRegistrationRefusal where
  | notOperatorGranted («namespace» : Namespace) (version : Nat)
  | grantDigestMismatch (granted actual : String)
  | conflictingVersion («namespace» : Namespace) (version : Nat)
  | registry (error : RegistryError)
  deriving Repr, DecidableEq

/-- One registered version of one namespace's vocabulary. -/
structure RegistryRow where
  «namespace» : Namespace
  version : Nat
  digest : String
  document : PredicateSet
  registeredBy : Sub
  registeredAt : UnixSeconds

/-- The table's primary key. -/
def RegistryRow.primaryKey (row : RegistryRow) : Namespace ×ₗ Nat := toLex (row.namespace,row.version)

/-- The registry of the rows, read in the order of the primary key. -/
def snapshot (rows : List RegistryRow) : Except RegistryError RegistrySnapshot :=
  fromSets ((rows.insertionSort (fun left right => left.primaryKey ≤ right.primaryKey)).map RegistryRow.document)

section
variable (documentDigest : PredicateSet → String)

/-- The set against the operator's grants and the registry that was read. -/
def validateRegistration (registry : RegistrySnapshot) (set : PredicateSet) (config : OperatorPredicateConfig) :
    Except PredicateRegistrationRefusal PredicateRegistrationPlan :=
  let digest := documentDigest set
  match config.grant set.namespace set.version with
  | none => .error (.notOperatorGranted set.namespace set.version)
  | some grant =>
    if grant.documentDigest ≠ digest then .error (.grantDigestMismatch grant.documentDigest digest)
    else
      let identity := ⟨set.namespace,set.version,digest⟩
      match check registry set with
      | .ok .unchanged => .ok (.unchanged identity)
      | .ok .new => .ok (.insert ⟨identity,config.operator,set⟩)
      | .error (.conflictingVersion _) => .error (.conflictingVersion set.namespace set.version)
      | .error error => .error (.registry error)

end

/-- The rows a plan inserts. -/
def stageRegistration (plan : PredicateRegistrationPlan) (at' : UnixSeconds) : List RegistryRow :=
  match plan with
  | .unchanged _ => []
  | .insert authorized =>
    [⟨authorized.identity.namespace,authorized.identity.version,authorized.identity.documentDigest,authorized.document,
      authorized.operator,at'⟩]

/-! ### Registrants -/

/-- What a registrant has in hand: the registry it read, the plan it validated and the
    rows it staged. -/
structure Registrant where
  registry : Option RegistrySnapshot
  plan : Option PredicateRegistrationPlan
  txn : List RegistryRow

def Registrant.idle : Registrant := ⟨none,none,[]⟩

/-- The committed rows and the registrants. -/
structure State (ι : Type) where
  rows : List RegistryRow
  registrants : ι → Registrant

inductive Act (ι : Type) where
  | read (registrant : ι)
  | validate (registrant : ι) (set : PredicateSet) (config : OperatorPredicateConfig)
  | stage (registrant : ι) (at' : UnixSeconds)
  | commit (registrant : ι)

/-- A transaction inserts all its rows or none of them. -/
def commitRows (rows txn : List RegistryRow) : Except PUnit (List RegistryRow) :=
  txn.foldlM (fun stored row => insertRow RegistryRow.primaryKey () row stored) rows

section
variable {ι : Type} [DecidableEq ι] (documentDigest : PredicateSet → String) {state : State ι}

def State.turn (state : State ι) (registrant : ι) (next : Registrant) : State ι :=
  { state with registrants := Function.update state.registrants registrant next }

/-- One step of one registrant. A step out of turn changes nothing, a refused one leaves
    the registrant without a plan, and a commit the primary key refuses leaves the rows. -/
def step (state : State ι) : Act ι → State ι
  | .read i =>
    let registrant := state.registrants i
    state.turn i { registrant with registry := (snapshot state.rows).toOption }
  | .validate i set config =>
    let registrant := state.registrants i
    match registrant.registry with
    | none => state
    | some registry =>
      state.turn i { registrant with plan := (validateRegistration documentDigest registry set config).toOption }
  | .stage i at' =>
    let registrant := state.registrants i
    match registrant.plan with
    | none => state
    | some plan => state.turn i { registrant with plan := none, txn := registrant.txn ++ stageRegistration plan at' }
  | .commit i =>
    match commitRows state.rows (state.registrants i).txn with
    | .ok rows => { state.turn i .idle with rows := rows }
    | .error _ => state.turn i .idle

/-- An empty table and nobody at it. -/
def initial : State ι := ⟨[],fun _ => .idle⟩

/-- The rows rebuild to a registry. -/
def Rebuilds (state : State ι) : Prop := ∃ registry, snapshot state.rows = .ok registry

/-- The rows rebuild now and after each of the steps. -/
def AlwaysRebuilds (state : State ι) : List (Act ι) → Prop
  | [] => Rebuilds state
  | act :: rest => Rebuilds state ∧ AlwaysRebuilds (step documentDigest state act) rest

/-- Each staged set follows the committed and staged ones of its namespace below it and
    is followed by those above it. -/
def Fits (rows txn : List RegistryRow) : Prop :=
  ∀ row ∈ txn, ∀ other ∈ rows ++ txn, other.namespace = row.namespace →
    (other.version < row.version → Follows other.document row.document) ∧
      (row.version < other.version → Follows row.document other.document)

/-- A commit the primary key lets through fits the rows it meets. -/
def Orderly (state : State ι) : Act ι → Prop
  | .commit i => (∃ rows, commitRows state.rows (state.registrants i).txn = .ok rows) →
      Fits state.rows (state.registrants i).txn
  | _ => True

def OrderlyRun (state : State ι) : List (Act ι) → Prop
  | [] => True
  | act :: rest => Orderly state act ∧ OrderlyRun (step documentDigest state act) rest

/-! ### Rows as sets -/

/-- A row is kept under its document's key, outside the reserved namespace. -/
structure Filed (row : RegistryRow) : Prop where
  keyed : row.primaryKey = key row.document
  unreserved : isReserved row.document.namespace = false

theorem Filed.fields {row : RegistryRow} (filed : Filed row) :
    row.namespace = row.document.namespace ∧ row.version = row.document.version := by
  simpa [RegistryRow.primaryKey,key] using filed.keyed

/-- The sets of the rows follow one another. -/
def Ordered (rows : List RegistryRow) : Prop :=
  ∀ earlier ∈ rows, ∀ later ∈ rows, earlier.namespace = later.namespace → earlier.version < later.version →
    Follows earlier.document later.document

/-- Filed rows under one primary key each rebuild exactly when they follow one another. -/
theorem snapshot_ok_iff {rows : List RegistryRow} (filed : ∀ row ∈ rows, Filed row)
    (unique : UniqueBy RegistryRow.primaryKey rows) : (∃ registry, snapshot rows = .ok registry) ↔ Ordered rows := by
  have sorts := List.perm_insertionSort (fun left right => left.primaryKey ≤ right.primaryKey) rows
  have mem : ∀ set, set ∈ (rows.insertionSort (fun left right => left.primaryKey ≤ right.primaryKey)).map
      RegistryRow.document ↔ ∃ row ∈ rows, row.document = set := by
    intro set
    simp only [List.mem_map,sorts.mem_iff]
  constructor
  · rintro ⟨registry,built⟩
    obtain ⟨coherent,-⟩ := fromSets_ok.mp built
    intro earlier isEarlier later isLater same before
    obtain ⟨earlierNamespace,earlierVersion⟩ := (filed earlier isEarlier).fields
    obtain ⟨laterNamespace,laterVersion⟩ := (filed later isLater).fields
    refine coherent.follow _ _ ((mem _).mpr ⟨earlier,isEarlier,rfl⟩) ((mem _).mpr ⟨later,isLater,rfl⟩) ?_ ?_
    · rw [← earlierNamespace,← laterNamespace,same]
    · rwa [← earlierVersion,← laterVersion]
  · intro ordered
    have coherent : Coherent (· ∈ (rows.insertionSort (fun left right => left.primaryKey ≤ right.primaryKey)).map
        RegistryRow.document) := by
      refine ⟨?_,?_,?_⟩
      · intro set member
        obtain ⟨row,inside,rfl⟩ := (mem set).mp member
        exact (filed row inside).unreserved
      · intro left right isLeft isRight same
        obtain ⟨row,inside,rfl⟩ := (mem left).mp isLeft
        obtain ⟨other,otherInside,rfl⟩ := (mem right).mp isRight
        rw [← (filed row inside).keyed,← (filed other otherInside).keyed] at same
        rw [unique.eq_of_key inside otherInside same]
      · intro earlier later isEarlier isLater same before
        obtain ⟨row,inside,rfl⟩ := (mem earlier).mp isEarlier
        obtain ⟨other,otherInside,rfl⟩ := (mem later).mp isLater
        obtain ⟨rowNamespace,rowVersion⟩ := (filed row inside).fields
        obtain ⟨otherNamespace,otherVersion⟩ := (filed other otherInside).fields
        exact ordered row inside other otherInside (by rw [rowNamespace,otherNamespace,same])
          (by rwa [rowVersion,otherVersion])
    obtain ⟨registry,built⟩ := fromSets_of_coherent coherent
    exact ⟨registry,built⟩

theorem commitRows_ok {rows txn next : List RegistryRow} (committed : commitRows rows txn = .ok next) :
    next = rows ++ txn ∧ (UniqueBy RegistryRow.primaryKey rows → UniqueBy RegistryRow.primaryKey next) := by
  induction txn generalizing rows with
  | nil =>
    cases committed
    exact ⟨(List.append_nil _).symm,id⟩
  | cons row rest ih =>
    obtain ⟨mid,inserted,remaining⟩ := bind_ok_iff.mp committed
    obtain ⟨free,rfl⟩ := insertRow_ok.mp inserted
    obtain ⟨rfl,kept⟩ := ih remaining
    exact ⟨by simp,fun unique => kept (unique.insert free)⟩

/-- Rows that follow one another still do with the transaction's exactly when it fits. -/
theorem ordered_append_iff {rows txn : List RegistryRow} (ordered : Ordered rows) :
    Ordered (rows ++ txn) ↔ Fits rows txn := by
  constructor
  · intro whole row staged other present same
    have member := List.mem_append_right rows staged
    exact ⟨whole other present row member same,whole row member other present same.symm⟩
  · intro fits earlier isEarlier later isLater same before
    rcases List.mem_append.mp isLater with old | staged
    · rcases List.mem_append.mp isEarlier with both | new
      · exact ordered earlier both later old same before
      · exact (fits earlier new later isLater same.symm).2 before
    · exact (fits later staged earlier isEarlier same).1 before

/-! ### Runs -/

/-- What a registrant would stage and has staged is filed. -/
structure Registrant.Kept (registrant : Registrant) : Prop where
  planned : ∀ plan, registrant.plan = some plan → ∀ at', ∀ row ∈ stageRegistration plan at', Filed row
  staged : ∀ row ∈ registrant.txn, Filed row

/-- What registrants stage is filed, and so is what they commit. -/
structure Kept (state : State ι) : Prop where
  filed : ∀ row ∈ state.rows, Filed row
  unique : UniqueBy RegistryRow.primaryKey state.rows
  registrants : ∀ i, (state.registrants i).Kept

theorem validateRegistration_filed {registry : RegistrySnapshot} {set : PredicateSet} {config : OperatorPredicateConfig}
    {plan : PredicateRegistrationPlan} (validated : validateRegistration documentDigest registry set config = .ok plan)
    (at' : UnixSeconds) : ∀ row ∈ stageRegistration plan at', Filed row := by
  simp only [validateRegistration] at validated
  split at validated
  · cases validated
  split at validated
  · cases validated
  split at validated
  · cases validated
    intro row absent
    cases absent
  · next isNew =>
    cases validated
    have unreserved : isReserved set.namespace = false := by
      cases reserved : isReserved set.namespace with
      | false => rfl
      | true => simp [check,reserved] at isNew
    intro row staged
    obtain rfl := List.mem_singleton.mp staged
    exact ⟨rfl,unreserved⟩
  · cases validated
  · cases validated

theorem Kept.turn (kept : Kept state) (i : ι) {next : Registrant} (nextKept : next.Kept) : Kept (state.turn i next) := by
  refine ⟨kept.filed,kept.unique,?_⟩
  intro other
  by_cases same : other = i
  · subst same
    simpa [State.turn] using nextKept
  · simpa [State.turn,same] using kept.registrants other

theorem idle_kept : Registrant.idle.Kept := by
  constructor
  · intro plan none
    cases none
  · intro row none
    cases none

/-- Every step of every registrant keeps the rows filed under one primary key each. -/
theorem step_kept (kept : Kept state) (act : Act ι) : Kept (step documentDigest state act) := by
  cases act with
  | read i => exact kept.turn i ⟨(kept.registrants i).planned,(kept.registrants i).staged⟩
  | validate i set config =>
    simp only [step]
    split
    · exact kept
    · next registry read =>
      refine kept.turn i ⟨?_,(kept.registrants i).staged⟩
      intro plan is
      cases validated : validateRegistration documentDigest registry set config with
      | error refusal => simp [validated,Except.toOption] at is
      | ok valid =>
        obtain rfl : valid = plan := by simpa [validated,Except.toOption] using is
        exact validateRegistration_filed documentDigest validated
  | stage i at' =>
    simp only [step]
    split
    · exact kept
    · next plan planned =>
      refine kept.turn i ⟨by simp,?_⟩
      intro row member
      rcases List.mem_append.mp member with earlier | staged
      · exact (kept.registrants i).staged row earlier
      · exact (kept.registrants i).planned plan planned at' row staged
  | commit i =>
    have settled := kept.turn i idle_kept
    simp only [step]
    split
    · next rows committed =>
      obtain ⟨rfl,unique⟩ := commitRows_ok committed
      refine ⟨?_,unique kept.unique,settled.registrants⟩
      intro row member
      rcases List.mem_append.mp member with old | staged
      · exact kept.filed row old
      · exact (kept.registrants i).staged row staged
    · exact settled

omit [DecidableEq ι] in
theorem initial_kept : Kept (initial : State ι) :=
  ⟨fun _ none => absurd none List.not_mem_nil,List.nodup_nil,fun _ => idle_kept⟩

/-- A step leaves the rows in order exactly when it is orderly. -/
theorem step_ordered_iff (ordered : Ordered state.rows) (act : Act ι) :
    Ordered (step documentDigest state act).rows ↔ Orderly state act := by
  cases act with
  | read i => exact iff_of_true ordered trivial
  | validate i set config =>
    refine iff_of_true ?_ trivial
    simp only [step]
    split <;> exact ordered
  | stage i at' =>
    refine iff_of_true ?_ trivial
    simp only [step]
    split <;> exact ordered
  | commit i =>
    simp only [step,Orderly]
    cases committed : commitRows state.rows (state.registrants i).txn with
    | error refusal => exact iff_of_true ordered (fun ⟨rows,ok⟩ => by cases ok)
    | ok rows =>
      obtain ⟨rfl,-⟩ := commitRows_ok committed
      rw [ordered_append_iff ordered]
      exact ⟨fun fits _ => fits,fun fits => fits ⟨_,rfl⟩⟩

omit [DecidableEq ι] in
theorem Kept.rebuilds_iff (kept : Kept state) : Rebuilds state ↔ Ordered state.rows :=
  snapshot_ok_iff kept.filed kept.unique

/-- From rows in order a run keeps them so exactly when each of its commits fits. -/
theorem run_rebuilds_iff (kept : Kept state) (ordered : Ordered state.rows) (acts : List (Act ι)) :
    AlwaysRebuilds documentDigest state acts ↔ OrderlyRun documentDigest state acts := by
  induction acts generalizing state with
  | nil => exact iff_of_true (kept.rebuilds_iff.mpr ordered) trivial
  | cons act rest ih =>
    have next := step_kept documentDigest kept act
    have stepped := step_ordered_iff documentDigest ordered act
    constructor
    · rintro ⟨-,later⟩
      have now : Rebuilds (step documentDigest state act) := by
        cases rest with
        | nil => exact later
        | cons _ _ => exact later.1
      have fits := next.rebuilds_iff.mp now
      exact ⟨stepped.mp fits,(ih next fits).mp later⟩
    · rintro ⟨orderly,later⟩
      exact ⟨kept.rebuilds_iff.mpr ordered,(ih next (stepped.mpr orderly)).mpr later⟩

/-- The rows rebuild in every state of a run exactly when every commit of the run fits
    the rows it meets. -/
theorem alwaysRebuilds_iff (acts : List (Act ι)) :
    AlwaysRebuilds documentDigest initial acts ↔ OrderlyRun documentDigest initial acts :=
  run_rebuilds_iff documentDigest initial_kept (fun _ none => absurd none List.not_mem_nil) acts

end

namespace Sample
open Claims.Sample Registry.Sample Registration.Sample

def digest (set : PredicateSet) : String := set.namespace.text ++ toString set.version

/-- The second version without the fare of the first. -/
def seatsOnly : PredicateSet := { travel with version := 2, versioned := euroFares.versioned }

def config : OperatorPredicateConfig :=
  ⟨⟨"ops"⟩,[⟨predicate.namespace,1,digest plainFares⟩,⟨predicate.namespace,2,digest seatsOnly⟩],by simp⟩

/-- Two registrants read the empty table and register a version each. -/
def race : List (Act Bool) :=
  [.read false,.read true,.validate false plainFares config,.validate true seatsOnly config,.stage false 1,.stage true 2,
    .commit false,.commit true]

/-- Both commits go through, and then the table cannot be read: the second version drops
    a predicate of the first. -/
theorem race_bricks_registry :
    snapshot (race.foldl (step digest) initial).rows = .error (.incompatible "fare" .predicateRemoved) ∧
      ¬ AlwaysRebuilds digest initial race := by
  have refused : snapshot (race.foldl (step digest) initial).rows = .error (.incompatible "fare" .predicateRemoved) := by
    rfl
  refine ⟨refused,?_⟩
  rintro ⟨-,-,-,-,-,-,-,-,registry,built⟩
  have clash := refused.symm.trans built
  cases clash

end Sample

end Aicortex.RegistryRows
