import Aicortex.History

/-!
Registered vocabularies. A predicate set declares the predicates of one namespace
at one version; a claim is validated against the set its predicate names. The
checks run in the source's order and the first one that fails is the refusal.
-/

namespace Aicortex.Registry
open Aicortex.Text Aicortex.History Lib.Ordered
open Aicortex.Claims hiding Unit
set_option linter.unusedSimpArgs false

/-! ### Predicate sets -/

/-- Units belong to decimals and variants to enumerations, which need at least one. -/
def legalValueType (kind : ValueKind) (units : List Claims.Unit) (variants : List EnumVariant) : Prop :=
  (units ≠ [] → kind = .decimal) ∧ (variants ≠ [] ↔ kind = .enum) ∧ units.Nodup ∧ variants.Nodup

instance (kind : ValueKind) (units : List Claims.Unit) (variants : List EnumVariant) :
    Decidable (legalValueType kind units variants) :=
  inferInstanceAs (Decidable (_ ∧ _ ∧ _ ∧ _))

structure ValueType where
  kind : ValueKind
  units : List Claims.Unit
  variants : List EnumVariant
  legal : legalValueType kind units variants

inductive Cardinality where
  | one
  | many (slot : SlotName)
  deriving Repr, DecidableEq

/-- One declared predicate; a predicate that accumulates has cardinality many. -/
structure PredicateDef where
  name : PredicateName
  subjects : List SubjectKind
  value : ValueType
  cardinality : Cardinality
  validTime : ValidTimeMode
  supersession : SupersessionRule
  epistemic : List Stance
  deprecated : Bool
  subjectsLegal : subjects ≠ [] ∧ subjects.Nodup
  epistemicLegal : epistemic ≠ [] ∧ epistemic.Nodup
  accumulates : supersession = .accumulate → cardinality ≠ .one

/-- The predicates of one namespace at one version. Their subject kinds are among
    the kinds the set declares. -/
structure PredicateSet where
  «namespace» : Namespace
  version : Nat
  subjectKinds : List SubjectKind
  predicates : List PredicateDef
  versioned : version ≠ 0
  kindsLegal : subjectKinds.Nodup
  namesLegal : (predicates.map PredicateDef.name).Nodup
  declared : ∀ def' ∈ predicates, ∀ kind ∈ def'.subjects, kind ∈ subjectKinds

def PredicateSet.predicate (set : PredicateSet) (name : PredicateName) : Option PredicateDef :=
  set.predicates.find? (fun def' => def'.name == name)

structure RegistrySnapshot where
  sets : OrdMap (Namespace ×ₗ Nat) PredicateSet

def RegistrySnapshot.set (registry : RegistrySnapshot) («namespace» : Namespace) (version : Nat) :
    Option PredicateSet :=
  registry.sets.find? (toLex («namespace»,version))

def RegistrySnapshot.predicate (registry : RegistrySnapshot) (predicate : PredicateRef) : Option PredicateDef :=
  (registry.set predicate.namespace predicate.version).bind (fun set => set.predicate predicate.name)

/-! ### Validation -/

inductive ClaimError where
  | unknownPredicate (predicate : PredicateRef)
  | wrongVersion (predicate : PredicateRef)
  | withdrawn (predicate : PredicateRef)
  | wrongSubjectKind (subject : String)
  | wrongValueType (expected found : ValueKind)
  | undeclaredUnit (unit : Option String)
  | undeclaredVariant (variant : String)
  | missingSlot
  | unexpectedSlot
  | inadmissibleStatus (stance : Stance)
  | textNotNormalized
  | spanOutsideDerivation
  deriving Repr, DecidableEq

def ClaimError.code : ClaimError → String
  | .unknownPredicate _ => "unknown_predicate"
  | .wrongVersion _ => "wrong_version"
  | .withdrawn _ => "withdrawn_predicate"
  | .wrongSubjectKind _ => "wrong_subject_kind"
  | .wrongValueType _ _ => "wrong_value_type"
  | .undeclaredUnit _ => "undeclared_unit"
  | .undeclaredVariant _ => "undeclared_variant"
  | .missingSlot => "missing_slot"
  | .unexpectedSlot => "unexpected_slot"
  | .inadmissibleStatus _ => "inadmissible_status"
  | .textNotNormalized => "text_not_normalized"
  | .spanOutsideDerivation => "span_outside_derivation"

structure ValidClaim where
  claim : Claim
  predicate : PredicateDef

def unitText : Claims.Unit → String
  | .currency code => code.text
  | .measure name => name.text

/-- `namespace:kind/key`. -/
def subjectText (subject : SubjectRef) : String :=
  subject.namespace.text ++ ":" ++ subject.kind.text ++ "/" ++ subject.key.text

def unitAdmitted (declared : ValueType) : Option Claims.Unit → Bool
  | some unit => declared.units.contains unit
  | none => declared.units.isEmpty

/-- The value against the declared type, its units and its variants. -/
def checkValue (value : ClaimValue) (def' : PredicateDef) : Except ClaimError PUnit :=
  if value.kind ≠ def'.value.kind then .error (.wrongValueType def'.value.kind value.kind)
  else
    match value with
    | .decimal decimal =>
      if unitAdmitted def'.value decimal.unit then .ok () else .error (.undeclaredUnit (decimal.unit.map unitText))
    | .enum variant =>
      if def'.value.variants.contains variant then .ok () else .error (.undeclaredVariant variant.text)
    | _ => .ok ()

def checkSlot : Cardinality → Option SlotKey → Except ClaimError PUnit
  | .many _, none => .error .missingSlot
  | .one, some _ => .error .unexpectedSlot
  | _, _ => .ok ()

/-- The free text of a claim that has to be in normalization form C. -/
def normalizedTexts (claim : Claim) : List String :=
  (match claim.value with
    | .text text => [text]
    | _ => []) ++ claim.epistemic.condition.toList

/-- Validate a claim against the vocabulary its predicate names. -/
def validate (isNfc : String → Bool) (claim : Claim) (registry : RegistrySnapshot) : Except ClaimError ValidClaim :=
  let reference := claim.predicate
  match registry.predicate reference with
  | none =>
    let declaredElsewhere := registry.sets.values.any (fun set =>
      set.namespace == reference.namespace && (set.predicate reference.name).isSome)
    .error (if declaredElsewhere then .wrongVersion reference else .unknownPredicate reference)
  | some def' =>
    if def'.deprecated then .error (.withdrawn reference)
    else if claim.subject.namespace ≠ reference.namespace ∨ def'.subjects.contains claim.subject.kind = false then
      .error (.wrongSubjectKind (subjectText claim.subject))
    else do
      checkValue claim.value def'
      checkSlot def'.cardinality claim.slot
      if !def'.epistemic.contains claim.epistemic.stance then .error (.inadmissibleStatus claim.epistemic.stance)
      else if (normalizedTexts claim).any (fun text => !isNfc text) then .error .textNotNormalized
      else if claim.provenance.spans.any (fun span => !claim.provenance.derivedFrom.contains span.source) then
        .error .spanOutsideDerivation
      else .ok ⟨claim,def'⟩

/-! ### A sample vocabulary -/

namespace Sample
open Claims.Sample

def seat : PredicateDef where
  name := predicate.name
  subjects := [subject.kind]
  value := ⟨.text,[],[],by decide⟩
  cardinality := .one
  validTime := .timeless
  supersession := .explicitOnly
  epistemic := [.asserted]
  deprecated := false
  subjectsLegal := by decide
  epistemicLegal := by decide
  accumulates := by decide

def travel : PredicateSet where
  «namespace» := predicate.namespace
  version := 1
  subjectKinds := [subject.kind]
  predicates := [seat]
  versioned := by decide
  kindsLegal := by decide
  namesLegal := by decide
  declared := by simp [seat]

def registry : RegistrySnapshot := ⟨OrdMap.empty.insert (toLex (predicate.namespace,1)) travel⟩

end Sample

end Aicortex.Registry
