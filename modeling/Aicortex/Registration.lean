import Aicortex.Registry
import Aicortex.Lib.Outcome
import Mathlib.Data.List.Sort

/-!
How the registry of vocabularies grows. A set is checked against the latest version of
its namespace only, and the relation checked is transitive, so the registered versions
of a namespace follow one another in pairs and the registry is rebuilt from its sets in
any order. Following a version is less than accepting what it accepted: a decimal
predicate may gain its first unit, and then a number without one is refused.
-/

namespace Aicortex.Registration
open Aicortex.Text Aicortex.Registry Lib.Ordered Lib.Outcome
open Aicortex.Claims hiding Unit
set_option linter.unusedSimpArgs false

deriving instance DecidableEq for ValueType
deriving instance DecidableEq for PredicateDef
deriving instance DecidableEq for PredicateSet

/-! ### Admission to the registry -/

/-- What registering a document would do. -/
inductive Admission where
  | new
  | unchanged
  deriving Repr, DecidableEq

/-- What an incompatible later version changed. -/
inductive Change where
  | valueType
  | cardinality
  | predicateRemoved
  | subjectKindRemoved
  deriving Repr, DecidableEq

def Change.code : Change → String
  | .valueType => "value_type_changed"
  | .cardinality => "cardinality_changed"
  | .predicateRemoved => "predicate_removed"
  | .subjectKindRemoved => "subject_kind_removed"

inductive RegistryError where
  | reservedNamespace
  | conflictingVersion (version : Nat)
  | notAfterLatest (version latest : Nat)
  | incompatible (subject : String) (change : Change)
  deriving Repr, DecidableEq

def RegistryError.code : RegistryError → String
  | .reservedNamespace => "reserved_namespace"
  | .conflictingVersion _ => "conflicting_version"
  | .notAfterLatest _ _ => "not_after_latest"
  | .incompatible _ change => change.code

/-- The namespace of the engine's own vocabulary. -/
def isReserved («namespace» : Namespace) : Bool := «namespace».text == "aicortex"

/-- What a set is registered under, ordered by namespace and then version. -/
def key (set : PredicateSet) : Namespace ×ₗ Nat := toLex (set.namespace,set.version)

/-- One predicate of the earlier version against the later set. -/
def keepsPredicate (later : PredicateSet) (old : PredicateDef) : Except RegistryError PUnit :=
  match later.predicate old.name with
  | none => .error (.incompatible old.name.text .predicateRemoved)
  | some new =>
    if new.cardinality ≠ old.cardinality then .error (.incompatible old.name.text .cardinality)
    else
      let keepsUnits := old.value.units.all (fun unit => new.value.units.contains unit)
      let keepsVariants := old.value.variants.all (fun variant => new.value.variants.contains variant)
      if old.value.kind ≠ new.value.kind ∨ keepsUnits = false ∨ keepsVariants = false then
        .error (.incompatible old.name.text .valueType)
      else .ok ()

def keepsKind (later : PredicateSet) (kind : SubjectKind) : Except RegistryError PUnit :=
  if later.subjectKinds.contains kind then .ok () else .error (.incompatible kind.text .subjectKindRemoved)

/-- Whether a version may follow another of its namespace. -/
def successor (earlier later : PredicateSet) : Except RegistryError PUnit := do
  forM earlier.subjectKinds (keepsKind later)
  forM earlier.predicates (keepsPredicate later)

/-- The highest registered version of a namespace. -/
def latest (registry : RegistrySnapshot) («namespace» : Namespace) : Option PredicateSet :=
  (registry.sets.entries.filter (fun entry => (ofLex entry.1).1 == «namespace»)).getLast?.map Prod.snd

/-- Whether a set may be registered. -/
def check (registry : RegistrySnapshot) (set : PredicateSet) : Except RegistryError Admission :=
  if isReserved set.namespace then .error .reservedNamespace
  else
    match registry.set set.namespace set.version with
    | some existing => if existing = set then .ok .unchanged else .error (.conflictingVersion set.version)
    | none =>
      match latest registry set.namespace with
      | none => .ok .new
      | some latest =>
        if set.version < latest.version then .error (.notAfterLatest set.version latest.version)
        else do
          successor latest set
          .ok .new

/-- The admission of a set, and the registry with the set added when it is new. -/
def admitSet (registry : RegistrySnapshot) (set : PredicateSet) : Except RegistryError (Admission × RegistrySnapshot) := do
  let admission ← check registry set
  match admission with
  | .new => .ok (admission,⟨registry.sets.insert (key set) set⟩)
  | .unchanged => .ok (admission,registry)

def emptyRegistry : RegistrySnapshot := ⟨.empty⟩

/-- A run of admissions, all of which succeed. -/
def admitAll (registry : RegistrySnapshot) (sets : List PredicateSet) : Except RegistryError RegistrySnapshot :=
  sets.foldlM (fun snapshot set => do
    let (_,next) ← admitSet snapshot set
    .ok next) registry

/-- The registry of the given documents, admitted in the order of their keys. -/
def fromSets (sets : List PredicateSet) : Except RegistryError RegistrySnapshot :=
  admitAll emptyRegistry (sets.insertionSort (fun left right => key left ≤ key right))

/-! ### Succession -/

/-- What a later predicate keeps of an earlier one. -/
structure Keeps (old new : PredicateDef) : Prop where
  cardinality : new.cardinality = old.cardinality
  kind : old.value.kind = new.value.kind
  units : old.value.units ⊆ new.value.units
  variants : old.value.variants ⊆ new.value.variants

/-- What a later version keeps of an earlier one. -/
structure Follows (earlier later : PredicateSet) : Prop where
  kinds : earlier.subjectKinds ⊆ later.subjectKinds
  predicates : ∀ old ∈ earlier.predicates, ∃ new, later.predicate old.name = some new ∧ Keeps old new

theorem keepsPredicate_ok {later : PredicateSet} {old : PredicateDef} :
    keepsPredicate later old = .ok () ↔ ∃ new, later.predicate old.name = some new ∧ Keeps old new := by
  unfold keepsPredicate
  cases found : later.predicate old.name with
  | none => simp
  | some new =>
    have keeps : Keeps old new ↔ new.cardinality = old.cardinality ∧ old.value.kind = new.value.kind ∧
        old.value.units ⊆ new.value.units ∧ old.value.variants ⊆ new.value.variants :=
      ⟨fun kept => ⟨kept.1,kept.2,kept.3,kept.4⟩,fun kept => ⟨kept.1,kept.2.1,kept.2.2.1,kept.2.2.2⟩⟩
    simp only [Option.some.injEq,exists_eq_left',keeps]
    by_cases cardinality : new.cardinality = old.cardinality
    · simp [cardinality,List.subset_def]
    · simp [cardinality]

theorem successor_ok {earlier later : PredicateSet} : successor earlier later = .ok () ↔ Follows earlier later := by
  have kinds : ∀ kind, keepsKind later kind = .ok () ↔ kind ∈ later.subjectKinds := by
    intro kind
    unfold keepsKind
    by_cases declared : kind ∈ later.subjectKinds <;> simp [declared]
  rw [successor,bind_ok_iff]
  constructor
  · rintro ⟨_,kept,predicates⟩
    refine ⟨fun kind declared => (kinds kind).mp (forM_ok_iff.mp kept kind declared),?_⟩
    exact fun old member => keepsPredicate_ok.mp (forM_ok_iff.mp predicates old member)
  · rintro ⟨kept,predicates⟩
    refine ⟨(),forM_ok_iff.mpr fun kind declared => (kinds kind).mpr (kept declared),?_⟩
    exact forM_ok_iff.mpr fun old member => keepsPredicate_ok.mpr (predicates old member)

theorem Keeps.trans {first second third : PredicateDef} (left : Keeps first second) (right : Keeps second third) :
    Keeps first third :=
  ⟨right.cardinality.trans left.cardinality,left.kind.trans right.kind,List.Subset.trans left.units right.units,
    List.Subset.trans left.variants right.variants⟩

theorem predicate_name {set : PredicateSet} {name : PredicateName} {found : PredicateDef}
    (is : set.predicate name = some found) : found ∈ set.predicates ∧ found.name = name :=
  ⟨List.mem_of_find?_eq_some is,by simpa using List.find?_some is⟩

theorem Follows.trans {first second third : PredicateSet} (left : Follows first second) (right : Follows second third) :
    Follows first third := by
  refine ⟨List.Subset.trans left.kinds right.kinds,?_⟩
  intro old member
  obtain ⟨middle,found,kept⟩ := left.predicates old member
  obtain ⟨inside,named⟩ := predicate_name found
  obtain ⟨new,is,keeps⟩ := right.predicates middle inside
  exact ⟨new,named ▸ is,kept.trans keeps⟩

/-! ### What a registry holds -/

/-- The registry holds the sets, each under its key. -/
def Holds (registry : RegistrySnapshot) (Registered : PredicateSet → Prop) : Prop :=
  ∀ name set, registry.sets.find? name = some set ↔ Registered set ∧ name = key set

/-- Sets that can be registered together: outside the reserved namespace, one a version,
    and each followed by every later one of its namespace. -/
structure Coherent (Registered : PredicateSet → Prop) : Prop where
  unreserved : ∀ set, Registered set → isReserved set.namespace = false
  single : ∀ left right, Registered left → Registered right → key left = key right → left = right
  follow : ∀ earlier later, Registered earlier → Registered later → earlier.namespace = later.namespace →
    earlier.version < later.version → Follows earlier later

theorem key_eq {left right : PredicateSet} :
    key left = key right ↔ left.namespace = right.namespace ∧ left.version = right.version := by
  simp [key]

theorem key_le {left right : PredicateSet} (same : left.namespace = right.namespace) (below : key left ≤ key right) :
    left.version ≤ right.version := by
  rcases Prod.Lex.le_iff.mp below with before | ⟨-,ordered⟩
  · exact absurd before (by simp [key,same])
  · exact ordered

section
variable {registry next : RegistrySnapshot} {Registered Others : PredicateSet → Prop} {set : PredicateSet}

theorem Holds.unique (left : Holds registry Registered) (right : Holds next Others)
    (same : ∀ set, Registered set ↔ Others set) : registry = next := by
  have sets : registry.sets = next.sets := by
    refine OrdMap.ext_find? fun name => Option.ext fun set => ?_
    rw [left name set,right name set,same]
  cases registry
  cases next
  exact congrArg RegistrySnapshot.mk sets

theorem Holds.set_iff (holds : Holds registry Registered) («namespace» : Namespace) (version : Nat) :
    registry.set «namespace» version = some set ↔
      Registered set ∧ set.namespace = «namespace» ∧ set.version = version := by
  unfold RegistrySnapshot.set
  rw [holds,key]
  simp [eq_comm]

theorem Holds.mem_values (holds : Holds registry Registered) : set ∈ registry.sets.values ↔ Registered set := by
  rw [OrdMap.mem_values]
  constructor
  · rintro ⟨name,found⟩
    exact ((holds name set).mp found).1
  · intro registered
    exact ⟨key set,(holds _ set).mpr ⟨registered,rfl⟩⟩

/-- The latest version is registered and no version of its namespace is above it. -/
theorem Holds.latest_some (holds : Holds registry Registered) {«namespace» : Namespace} {top : PredicateSet}
    (is : latest registry «namespace» = some top) :
    Registered top ∧ top.namespace = «namespace» ∧
      ∀ other, Registered other → other.namespace = «namespace» → other.version ≤ top.version := by
  obtain ⟨⟨name,found⟩,last,rfl⟩ := Option.map_eq_some_iff.mp is
  obtain ⟨front,split⟩ := List.getLast?_eq_some_iff.mp last
  have filtered : ∀ entry, entry ∈ front ++ [(name,found)] ↔
      entry ∈ registry.sets.entries ∧ (ofLex entry.1).1 = «namespace» := by
    intro entry
    rw [← split]
    simp
  have sorted := registry.sets.sorted.filter (fun entry => (ofLex entry.1).1 == «namespace»)
  rw [split] at sorted
  obtain ⟨inside,here⟩ := (filtered (name,found)).mp (by simp)
  obtain ⟨registered,rfl⟩ := (holds name found).mp ((OrdMap.find?_iff_mem _ _ _).mpr inside)
  refine ⟨registered,here,?_⟩
  intro other otherRegistered sameNamespace
  have member := (OrdMap.find?_iff_mem _ _ _).mp ((holds (key other) other).mpr ⟨otherRegistered,rfl⟩)
  rcases List.mem_append.mp ((filtered _).mpr ⟨member,sameNamespace⟩) with earlier | last
  · have below := (List.pairwise_append.mp sorted).2.2 _ earlier _ (List.mem_singleton.mpr rfl)
    exact key_le (sameNamespace.trans here.symm) below.le
  · rw [(Prod.mk.inj (List.mem_singleton.mp last)).2]

theorem Holds.latest_none (holds : Holds registry Registered) {«namespace» : Namespace}
    (is : latest registry «namespace» = none) : ∀ other, Registered other → other.namespace ≠ «namespace» := by
  intro other registered same
  have member := (OrdMap.find?_iff_mem _ _ _).mp ((holds (key other) other).mpr ⟨registered,rfl⟩)
  have empty := List.getLast?_eq_none_iff.mp (Option.map_eq_none_iff.mp is)
  have kept := List.filter_eq_nil_iff.mp empty _ member
  exact kept (by simpa [key] using same)

/-- A set is new to a coherent registry when every version of its namespace is below it
    and is followed by it. The check is against the latest one, and the others are
    followed through it. -/
theorem check_new (holds : Holds registry Registered) (coherent : Coherent Registered) :
    check registry set = .ok .new ↔ isReserved set.namespace = false ∧
      ∀ other, Registered other → other.namespace = set.namespace → other.version < set.version ∧ Follows other set := by
  unfold check
  cases reserved : isReserved set.namespace with
  | true => simp
  | false =>
    simp only [Bool.false_eq_true,if_false,true_and]
    cases existing : registry.set set.namespace set.version with
    | some found =>
      obtain ⟨registered,sameNamespace,sameVersion⟩ := (holds.set_iff _ _).mp existing
      refine iff_of_false ?_ (fun above => (above found registered sameNamespace).1.ne sameVersion)
      by_cases same : found = set <;> simp [same]
    | none =>
      have unregistered : ∀ other, Registered other → other.namespace = set.namespace → other.version ≠ set.version := by
        intro other registered sameNamespace sameVersion
        rw [(holds.set_iff _ _).mpr ⟨registered,sameNamespace,sameVersion⟩] at existing
        cases existing
      cases top : latest registry set.namespace with
      | none =>
        refine iff_of_true rfl ?_
        exact fun other registered same => absurd same (holds.latest_none top other registered)
      | some newest =>
        obtain ⟨newestRegistered,newestNamespace,highest⟩ := holds.latest_some top
        have different := unregistered newest newestRegistered newestNamespace
        constructor
        · intro accepted
          dsimp only at accepted
          split at accepted
          · cases accepted
          next after =>
          obtain ⟨_,followed,-⟩ := bind_ok_iff.mp accepted
          have follows := successor_ok.mp followed
          intro other registered sameNamespace
          have below := highest other registered sameNamespace
          refine ⟨by omega,?_⟩
          rcases below.lt_or_eq with earlier | same
          · exact (coherent.follow other newest registered newestRegistered
              (sameNamespace.trans newestNamespace.symm) earlier).trans follows
          · rwa [coherent.single other newest registered newestRegistered
              (key_eq.mpr ⟨sameNamespace.trans newestNamespace.symm,same⟩)]
        · intro above
          obtain ⟨below,follows⟩ := above newest newestRegistered newestNamespace
          simp only [not_lt.mpr below.le,if_false,successor_ok.mpr follows,ok_bind]

theorem check_unchanged (holds : Holds registry Registered) :
    check registry set = .ok .unchanged ↔ isReserved set.namespace = false ∧ Registered set := by
  unfold check
  cases reserved : isReserved set.namespace with
  | true => simp
  | false =>
    simp only [Bool.false_eq_true,if_false,true_and]
    cases existing : registry.set set.namespace set.version with
    | some found =>
      obtain ⟨registered,sameNamespace,sameVersion⟩ := (holds.set_iff _ _).mp existing
      constructor
      · intro accepted
        dsimp only at accepted
        split_ifs at accepted with same
        exact same ▸ registered
      · intro here
        have again := (holds.set_iff set.namespace set.version).mpr ⟨here,rfl,rfl⟩
        rw [existing] at again
        simp [Option.some.inj again]
    | none =>
      refine iff_of_false ?_ ?_
      · dsimp only
        split
        · simp
        · split_ifs
          · simp
          · intro accepted
            obtain ⟨_,-,wrong⟩ := bind_ok_iff.mp accepted
            cases wrong
      · intro here
        rw [(holds.set_iff set.namespace set.version).mpr ⟨here,rfl,rfl⟩] at existing
        cases existing

/-- What a registry holds after an admission, and that it stays coherent. -/
theorem admitSet_ok (holds : Holds registry Registered) (coherent : Coherent Registered) {admission : Admission}
    (accepted : admitSet registry set = .ok (admission,next)) :
    Holds next (fun other => Registered other ∨ other = set) ∧
      Coherent (fun other => Registered other ∨ other = set) := by
  obtain ⟨verdict,checked,added⟩ := bind_ok_iff.mp accepted
  cases verdict with
  | unchanged =>
    cases added
    obtain ⟨-,here⟩ := (check_unchanged holds).mp checked
    have same : (fun other => Registered other ∨ other = set) = Registered := by
      funext other
      exact propext ⟨fun either => either.elim id (fun is => is ▸ here),.inl⟩
    rw [same]
    exact ⟨holds,coherent⟩
  | new =>
    cases added
    obtain ⟨unreserved,above⟩ := (check_new holds coherent).mp checked
    have fresh : ∀ other, Registered other → key other ≠ key set := by
      intro other registered same
      obtain ⟨sameNamespace,sameVersion⟩ := key_eq.mp same
      exact (above other registered sameNamespace).1.ne sameVersion
    constructor
    · intro name other
      rw [OrdMap.find?_insert]
      split_ifs with same
      · subst same
        constructor
        · intro is
          exact ⟨.inr (Option.some.inj is).symm,by rw [Option.some.inj is]⟩
        · rintro ⟨registered | rfl,named⟩
          · exact absurd named.symm (fresh other registered)
          · rfl
      · rw [holds]
        constructor
        · exact fun ⟨registered,named⟩ => ⟨.inl registered,named⟩
        · rintro ⟨registered | rfl,named⟩
          · exact ⟨registered,named⟩
          · exact absurd named same
    · refine ⟨?_,?_,?_⟩
      · rintro other (registered | rfl)
        · exact coherent.unreserved other registered
        · exact unreserved
      · rintro left right (leftRegistered | rfl) (rightRegistered | rfl) same
        · exact coherent.single left right leftRegistered rightRegistered same
        · exact absurd same (fresh left leftRegistered)
        · exact absurd same.symm (fresh right rightRegistered)
        · rfl
      · rintro earlier later (earlierRegistered | rfl) (laterRegistered | rfl) same before
        · exact coherent.follow earlier later earlierRegistered laterRegistered same before
        · exact (above earlier earlierRegistered same).2
        · have below := (above later laterRegistered same.symm).1
          omega
        · omega

/-- Admission in key order needs no more than coherence. -/
theorem admitSet_of_coherent (holds : Holds registry Registered) (coherent : Coherent Registered)
    (joined : Coherent (fun other => Registered other ∨ other = set)) (below : ∀ other, Registered other → key other ≤ key set) :
    ∃ admission next, admitSet registry set = .ok (admission,next) := by
  have unreserved := joined.unreserved set (.inr rfl)
  by_cases here : Registered set
  · refine ⟨.unchanged,registry,?_⟩
    rw [admitSet,(check_unchanged holds).mpr ⟨unreserved,here⟩,ok_bind]
  · refine ⟨.new,⟨registry.sets.insert (key set) set⟩,?_⟩
    have isNew : check registry set = .ok .new := by
      refine (check_new holds coherent).mpr ⟨unreserved,?_⟩
      intro other registered same
      have before : other.version < set.version := by
        refine lt_of_le_of_ne (key_le same (below other registered)) ?_
        intro sameVersion
        have equal := joined.single other set (.inl registered) (.inr rfl) (key_eq.mpr ⟨same,sameVersion⟩)
        exact here (equal ▸ registered)
      exact ⟨before,joined.follow other set (.inl registered) (.inr rfl) same before⟩
    rw [admitSet,isNew,ok_bind]

/-! ### Runs of admissions -/

theorem admitAll_cons {sets : List PredicateSet} :
    admitAll registry (set :: sets) = .ok next ↔
      ∃ admission mid, admitSet registry set = .ok (admission,mid) ∧ admitAll mid sets = .ok next := by
  unfold admitAll
  rw [List.foldlM_cons,bind_ok_iff]
  constructor
  · rintro ⟨mid,first,remaining⟩
    obtain ⟨⟨admission,grown⟩,accepted,same⟩ := bind_ok_iff.mp first
    obtain rfl := Except.ok.inj same
    exact ⟨admission,grown,accepted,remaining⟩
  · rintro ⟨admission,mid,accepted,remaining⟩
    exact ⟨mid,bind_ok_iff.mpr ⟨_,accepted,rfl⟩,remaining⟩

private theorem member_cons (sets : List PredicateSet) :
    (fun other => (Registered other ∨ other = set) ∨ other ∈ sets) = (fun other => Registered other ∨ other ∈ set :: sets) := by
  funext other
  simp [or_assoc]

/-- A run adds its sets to what the registry holds, and what it holds stays coherent. -/
theorem admitAll_ok {sets : List PredicateSet} (holds : Holds registry Registered) (coherent : Coherent Registered)
    (accepted : admitAll registry sets = .ok next) :
    Holds next (fun other => Registered other ∨ other ∈ sets) ∧ Coherent (fun other => Registered other ∨ other ∈ sets) := by
  induction sets generalizing registry Registered with
  | nil =>
    cases accepted
    simpa using ⟨holds,coherent⟩
  | cons set rest ih =>
    obtain ⟨admission,mid,first,remaining⟩ := admitAll_cons.mp accepted
    obtain ⟨midHolds,midCoherent⟩ := admitSet_ok holds coherent first
    have whole := ih midHolds midCoherent remaining
    rwa [member_cons] at whole

theorem Coherent.mono (coherent : Coherent Registered) (fewer : ∀ set, Others set → Registered set) : Coherent Others :=
  ⟨fun set other => coherent.unreserved set (fewer set other),
    fun left right isLeft isRight => coherent.single left right (fewer left isLeft) (fewer right isRight),
    fun earlier later isEarlier isLater => coherent.follow earlier later (fewer earlier isEarlier) (fewer later isLater)⟩

/-- Coherent sets are admitted in key order. -/
theorem admitAll_of_coherent {sets : List PredicateSet} (holds : Holds registry Registered)
    (coherent : Coherent (fun other => Registered other ∨ other ∈ sets))
    (sorted : sets.Pairwise (fun left right => key left ≤ key right))
    (below : ∀ other, Registered other → ∀ set ∈ sets, key other ≤ key set) : ∃ next, admitAll registry sets = .ok next := by
  induction sets generalizing registry Registered with
  | nil => exact ⟨registry,rfl⟩
  | cons set rest ih =>
    obtain ⟨first,restSorted⟩ := List.pairwise_cons.mp sorted
    rw [← member_cons] at coherent
    have joined : Coherent (fun other => Registered other ∨ other = set) := coherent.mono fun other => .inl
    have earlier : Coherent Registered := joined.mono fun other => .inl
    obtain ⟨admission,mid,accepted⟩ := admitSet_of_coherent holds earlier joined
      (fun other registered => below other registered set List.mem_cons_self)
    obtain ⟨midHolds,-⟩ := admitSet_ok holds earlier accepted
    obtain ⟨next,remaining⟩ := ih midHolds coherent restSorted (by
      rintro other (registered | rfl) later inside
      · exact below other registered later (List.mem_cons_of_mem _ inside)
      · exact first later inside)
    exact ⟨next,admitAll_cons.mpr ⟨admission,mid,accepted,remaining⟩⟩

theorem emptyRegistry_holds : Holds emptyRegistry (fun _ => False) := by
  intro name set
  simp [emptyRegistry]

theorem empty_coherent : Coherent (fun _ => False) :=
  ⟨fun _ none => none.elim,fun _ _ none => none.elim,fun _ _ none => none.elim⟩

/-- A registry reached from the empty one holds the admitted sets, which are coherent. -/
theorem reached_ok {sets : List PredicateSet} (reached : admitAll emptyRegistry sets = .ok registry) :
    Holds registry (· ∈ sets) ∧ Coherent (· ∈ sets) := by
  simpa using admitAll_ok emptyRegistry_holds empty_coherent reached

private theorem mem_sorted (sets : List PredicateSet) :
    (· ∈ sets.insertionSort (fun left right => key left ≤ key right)) = (· ∈ sets) :=
  funext fun _ => propext (List.perm_insertionSort (fun left right => key left ≤ key right) sets).mem_iff

/-- Coherent sets build a registry. -/
theorem fromSets_of_coherent {sets : List PredicateSet} (coherent : Coherent (· ∈ sets)) :
    ∃ registry, fromSets sets = .ok registry := by
  have ordered : (sets.insertionSort (fun left right => key left ≤ key right)).Pairwise
      (fun left right => key left ≤ key right) :=
    @List.pairwise_insertionSort _ (fun left right => key left ≤ key right) _
      ⟨fun left right => le_total (key left) (key right)⟩ ⟨fun _ _ _ => le_trans⟩ sets
  exact admitAll_of_coherent emptyRegistry_holds (by simpa [mem_sorted] using coherent) ordered (fun _ none => none.elim)

/-- The registry is built from coherent sets and from no others. -/
theorem fromSets_ok {sets : List PredicateSet} :
    fromSets sets = .ok registry ↔ Coherent (· ∈ sets) ∧ Holds registry (· ∈ sets) := by
  have built : ∀ {result}, fromSets sets = .ok result → Holds result (· ∈ sets) ∧ Coherent (· ∈ sets) := by
    intro result is
    have reached := reached_ok is
    rwa [mem_sorted] at reached
  constructor
  · exact fun is => (built is).symm
  · rintro ⟨coherent,holds⟩
    obtain ⟨next,is⟩ := fromSets_of_coherent coherent
    rw [is,(built is).1.unique holds fun _ => Iff.rfl]

end

/-- A registry reached by any run holds the sets that were admitted and no others, and is
    rebuilt from them in any order; and what is registered stays registered as it is however
    the run goes on. -/
theorem registry_rebuilds {sets : List PredicateSet} {registry : RegistrySnapshot}
    (reached : admitAll emptyRegistry sets = .ok registry) :
    (∀ set, set ∈ registry.sets.values ↔ set ∈ sets) ∧
      (∀ set ∈ sets, registry.set set.namespace set.version = some set) ∧
      (∀ rows, rows.Perm registry.sets.values → fromSets rows = .ok registry) ∧
      ∀ more later, admitAll registry more = .ok later → ∀ «namespace» version set,
        registry.set «namespace» version = some set → later.set «namespace» version = some set := by
  obtain ⟨holds,coherent⟩ := reached_ok reached
  refine ⟨fun set => holds.mem_values,fun set admitted => (holds.set_iff _ _).mpr ⟨admitted,rfl,rfl⟩,?_,?_⟩
  · intro rows permuted
    have same : ∀ set, set ∈ rows ↔ set ∈ sets := fun set => permuted.mem_iff.trans holds.mem_values
    refine fromSets_ok.mpr ⟨coherent.mono fun set => (same set).mp,?_⟩
    intro name set
    rw [holds]
    exact and_congr_left' (same set).symm
  · intro more later continued «namespace» version set registered
    obtain ⟨inside,sameNamespace,sameVersion⟩ := (holds.set_iff _ _).mp registered
    obtain ⟨laterHolds,-⟩ := admitAll_ok holds coherent continued
    exact (laterHolds.set_iff _ _).mpr ⟨.inl inside,sameNamespace,sameVersion⟩

/-! ### What later versions accept -/

/-- The value and slot rules of validation accept the pair. -/
def Accepts (def' : PredicateDef) (value : ClaimValue) (slot : Option SlotKey) : Prop :=
  checkValue value def' = .ok () ∧ checkSlot def'.cardinality slot = .ok ()

/-- What the earlier definition accepts the later one accepts. -/
def KeepsMeaning (old new : PredicateDef) : Prop := ∀ value slot, Accepts old value slot → Accepts new value slot

/-- A decimal predicate gains its first unit. -/
def GainsFirstUnit (old new : PredicateDef) : Prop :=
  old.value.kind = .decimal ∧ old.value.units = [] ∧ new.value.units ≠ []

theorem checkValue_kind {value : ClaimValue} {def' : PredicateDef} (accepted : checkValue value def' = .ok ()) :
    value.kind = def'.value.kind := by
  by_contra other
  simp [checkValue,other] at accepted

/-- A predicate that keeps what an earlier version declared accepts what that accepted,
    unless it gains its first unit. -/
theorem keepsMeaning_iff {old new : PredicateDef} (keeps : Keeps old new) :
    KeepsMeaning old new ↔ ¬ GainsFirstUnit old new := by
  constructor
  · rintro meaning ⟨decimal,without,gained⟩
    have plain : checkValue (.decimal ⟨0,0,none,by decide⟩) old = .ok () := by
      simp [checkValue,ClaimValue.kind,decimal,unitAdmitted,without]
    obtain ⟨slot,filled⟩ : ∃ slot, checkSlot old.cardinality slot = .ok () := by
      cases old.cardinality with
      | one => exact ⟨none,rfl⟩
      | many name => exact ⟨some ⟨"s",by decide⟩,rfl⟩
    have accepted := (meaning _ slot ⟨plain,filled⟩).1
    simp [checkValue,ClaimValue.kind,← keeps.kind,decimal,unitAdmitted,gained] at accepted
  · rintro kept value slot ⟨accepted,filled⟩
    refine ⟨?_,by rwa [keeps.cardinality]⟩
    have kind := checkValue_kind accepted
    have same : value.kind = new.value.kind := kind.trans keeps.kind
    cases value with
    | decimal number =>
      have wasAdmitted : unitAdmitted old.value number.unit = true := by
        by_contra refused
        simp [checkValue,kind,refused] at accepted
      have isAdmitted : unitAdmitted new.value number.unit = true := by
        cases unit : number.unit with
        | some unit =>
          rw [unit] at wasAdmitted
          simp only [unitAdmitted,List.contains_iff_mem] at wasAdmitted ⊢
          exact keeps.units wasAdmitted
        | none =>
          rw [unit] at wasAdmitted
          simp only [unitAdmitted,List.isEmpty_iff] at wasAdmitted ⊢
          by_contra gained
          exact kept ⟨kind.symm,wasAdmitted,gained⟩
      simp [checkValue,same,isAdmitted]
    | enum variant =>
      have declared : variant ∈ old.value.variants := by
        by_contra absent
        simp [checkValue,kind,absent] at accepted
      simp [checkValue,same,keeps.variants declared]
    | _ => simp [checkValue,same]

/-- In a registry reached by any run, a later version of a predicate accepts every value
    and slot an earlier one accepts exactly when it is not the first of the two to
    declare a unit for a decimal. -/
theorem meaning_kept_iff {sets : List PredicateSet} {registry : RegistrySnapshot}
    (reached : admitAll emptyRegistry sets = .ok registry) {earlier later : PredicateSet} {«namespace» : Namespace}
    (isEarlier : registry.set «namespace» earlier.version = some earlier)
    (isLater : registry.set «namespace» later.version = some later) (before : earlier.version < later.version)
    {old new : PredicateDef} {name : PredicateName} (isOld : earlier.predicate name = some old)
    (isNew : later.predicate name = some new) : KeepsMeaning old new ↔ ¬ GainsFirstUnit old new := by
  obtain ⟨holds,coherent⟩ := reached_ok reached
  obtain ⟨earlierRegistered,earlierNamespace,-⟩ := (holds.set_iff _ _).mp isEarlier
  obtain ⟨laterRegistered,laterNamespace,-⟩ := (holds.set_iff _ _).mp isLater
  have follows := coherent.follow earlier later earlierRegistered laterRegistered
    (earlierNamespace.trans laterNamespace.symm) before
  obtain ⟨declared,rfl⟩ := predicate_name isOld
  obtain ⟨found,is,keeps⟩ := follows.predicates old declared
  obtain rfl := Option.some.inj (is.symm.trans isNew)
  exact keepsMeaning_iff keeps

namespace Sample
open Claims.Sample Registry.Sample

/-- A fare, admitted in the given units. -/
def fare (units : List Claims.Unit) (legal : legalValueType .decimal units []) : PredicateDef :=
  { seat with name := ⟨"fare",by decide⟩, value := ⟨.decimal,units,[],legal⟩ }

def euro : Claims.Unit := .currency ⟨"EUR",by decide⟩

theorem fare_declared (units : List Claims.Unit) (legal : legalValueType .decimal units []) :
    ∀ def' ∈ [seat,fare units legal], ∀ kind ∈ def'.subjects, kind ∈ [subject.kind] := by
  simp [seat,fare]

/-- The travel vocabulary with a fare. -/
def priced (version : Nat) (versioned : version ≠ 0) (units : List Claims.Unit) (legal : legalValueType .decimal units []) :
    PredicateSet where
  «namespace» := predicate.namespace
  version := version
  subjectKinds := [subject.kind]
  predicates := [seat,fare units legal]
  versioned := versioned
  kindsLegal := travel.kindsLegal
  namesLegal := (by decide : [seat.name,⟨"fare",_⟩].Nodup)
  declared := fare_declared units legal

def plainFares : PredicateSet := priced 1 travel.versioned [] (by decide)
def euroFares : PredicateSet := priced 2 (by decide) [euro] (by decide)

/-- Both versions are registered. -/
def fares : RegistrySnapshot := (admitAll emptyRegistry [plainFares,euroFares]).toOption.getD emptyRegistry

/-- The fare without a unit is accepted by the first version and refused by the second. -/
theorem unitless_fare_refused :
    admitAll emptyRegistry [plainFares,euroFares] = .ok fares ∧
      fares.set predicate.namespace 1 = some plainFares ∧ fares.set predicate.namespace 2 = some euroFares ∧
      plainFares.predicate ⟨"fare",by decide⟩ = some (fare [] (by decide)) ∧
      euroFares.predicate ⟨"fare",by decide⟩ = some (fare [euro] (by decide)) ∧
      (fare [euro] (by decide)).deprecated = false ∧
      ¬ KeepsMeaning (fare [] (by decide)) (fare [euro] (by decide)) := by
  refine ⟨rfl,rfl,rfl,rfl,rfl,rfl,?_⟩
  intro meaning
  have refused := (meaning (.decimal ⟨100,0,none,by decide⟩) none ⟨rfl,rfl⟩).1
  cases refused

/-- The seat means in both versions what it meant in the first. -/
theorem meaning_kept_iff_seat :
    KeepsMeaning seat seat ∧ fares.set predicate.namespace 1 = some plainFares ∧
      fares.set predicate.namespace 2 = some euroFares ∧ plainFares.predicate seat.name = some seat ∧
      euroFares.predicate seat.name = some seat := by
  refine ⟨?_,rfl,rfl,rfl,rfl⟩
  refine (@meaning_kept_iff [plainFares,euroFares] fares rfl plainFares euroFares predicate.namespace rfl rfl
    (by decide) seat seat seat.name rfl rfl).mpr ?_
  rintro ⟨decimal,-⟩
  cases decimal

/-- The two versions are held, and rebuild from either order. -/
theorem registry_rebuilds_fares :
    admitAll emptyRegistry [plainFares,euroFares] = .ok fares ∧
      (∀ set, set ∈ fares.sets.values ↔ set ∈ [plainFares,euroFares]) ∧ fromSets [euroFares,plainFares] = .ok fares := by
  have reached : admitAll emptyRegistry [plainFares,euroFares] = .ok fares := rfl
  obtain ⟨held,-,rebuilds,-⟩ := registry_rebuilds reached
  refine ⟨reached,held,rebuilds _ ?_⟩
  exact List.Perm.swap plainFares euroFares []

end Sample

end Aicortex.Registration
