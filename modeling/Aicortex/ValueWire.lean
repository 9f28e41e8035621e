import Aicortex.Wire

/-!
The wire forms of claim values. A value names its type and carries the one field of that
name; a decimal is carried as its exact text.
-/

namespace Aicortex.ValueWire
open Aicortex.Text Aicortex.CivilTime Aicortex.Claims Aicortex.Wire
open Lib.Outcome Lib.Wire
set_option linter.unusedSimpArgs false

/-! ### Units and decimals -/

inductive UnitKind where
  | currency
  | measure
  deriving DecidableEq

def UnitKind.label : UnitKind → String
  | .currency => "currency"
  | .measure => "measure"

def unitKind : Form UnitKind := vocabulary "unit" [.currency,.measure] UnitKind.label

theorem unitKind_keeps (value : UnitKind) : unitKind.Keeps value :=
  vocabulary_keeps (by rintro ⟨⟩ <;> simp) (by rintro ⟨⟩ ⟨⟩ same <;> simp_all [UnitKind.label]) value

structure RawUnit where
  kind : UnitKind
  code : Option CurrencyCode
  name : Option UnitName

def rawUnit : Form RawUnit := strictRecord ["kind","code","name"]
  (fun raw => [put "kind" unitKind raw.kind,putSome "code" (checked "unit" currencyCode) raw.code,
    putSome "name" (checked "unit" lowerIdent) raw.name])
  (fun fields => do
    let kind ← required "kind" unitKind fields
    let code ← optional "code" (checked "unit" currencyCode) fields
    let name ← optional "name" (checked "unit" lowerIdent) fields
    .ok ⟨kind,code,name⟩)

def RawUnit.of : Claims.Unit → RawUnit
  | .currency code => ⟨.currency,some code,none⟩
  | .measure name => ⟨.measure,none,some name⟩

def RawUnit.tryInto (raw : RawUnit) : Except TypeError Claims.Unit :=
  match raw.kind, raw.code, raw.name with
  | .currency, some code, none => .ok (.currency code)
  | .measure, none, some name => .ok (.measure name)
  | kind, _, _ =>
    let carried := if kind = .currency then "code" else "name"
    .error (.invalid "unit" [.lit s!"a {kind.label} unit carries `{carried}` and nothing else"])

def unit : Form Claims.Unit := rawUnit.via RawUnit.of RawUnit.tryInto

theorem unit_written : unit.Written := via_written strictRecord_written

theorem rawUnit_keeps (raw : RawUnit) : rawUnit.Keeps raw := by
  obtain ⟨kind,code,name⟩ := raw
  refine (strictRecord_keeps_iff (by simp) (by rfl)).mpr ?_
  simp only [bind_ok_iff,Except.ok.injEq,RawUnit.mk.injEq,existsAndEq,and_true]
  rw [required_present (by simp) (by simp),optional_present (by simp) checked_written (by simp),
    optional_present (by simp) checked_written (by simp)]
  exact ⟨unitKind_keeps kind,fun code _ => checked_keeps code,fun name _ => checked_keeps name⟩

theorem unit_keeps (value : Claims.Unit) : unit.Keeps value := by
  refine (via_keeps_iff fun raw made taken => ?_).mpr ⟨rawUnit_keeps _,by cases value <;> rfl⟩
  obtain ⟨kind,code,name⟩ := raw
  cases kind <;> cases code <;> cases name <;> cases taken <;> rfl

def rawDecimal : Form (String × Option Claims.Unit) := strictRecord ["amount","unit"]
  (fun raw => [put "amount" string raw.1,putSome "unit" unit raw.2])
  (fun fields => do
    let amount ← required "amount" string fields
    let unit ← optional "unit" unit fields
    .ok (amount,unit))

def decimal : Form Decimal :=
  rawDecimal.via (fun value => (DecimalText.amount value,value.unit)) (fun raw => DecimalText.parse raw.1 raw.2)

theorem decimal_written : decimal.Written := via_written strictRecord_written

theorem rawDecimal_keeps (raw : String × Option Claims.Unit) : rawDecimal.Keeps raw := by
  refine (strictRecord_keeps_iff (by simp) (by rfl)).mpr ?_
  simp only [bind_ok_iff,Except.ok.injEq,existsAndEq,and_true]
  obtain ⟨amount,stated⟩ := raw
  simp only [Prod.mk.injEq,existsAndEq,and_true]
  rw [required_present (by simp) (by simp),optional_present (by simp) unit_written (by simp)]
  exact ⟨text_keeps amount,fun stated _ => unit_keeps stated⟩

theorem decimal_keeps_iff (value : Decimal) : decimal.Keeps value ↔ DecimalText.Readable value := by
  rw [decimal,via_keeps_iff,DecimalText.parse_ok_iff]
  · simp [rawDecimal_keeps]
  · intro raw made taken
    obtain ⟨isAmount,isUnit,_⟩ := DecimalText.parse_ok_iff.mp taken
    exact Prod.ext isAmount isUnit

theorem decimal_faithful : decimal.Faithful := by
  refine via_faithful (Codec.faithful_of_keeps rawDecimal_keeps) fun value other taken => ?_
  obtain ⟨amounts,units,_⟩ := DecimalText.parse_ok_iff.mp taken
  obtain ⟨mantissas,scales⟩ := DecimalText.amount_inj amounts
  cases value
  cases other
  simp_all

/-! ### Subjects -/

def subjectRef : Form SubjectRef := strictRecord ["namespace","kind","key"]
  (fun subject => [put "namespace" (checked "namespace" lowerIdent) subject.namespace,
    put "kind" (checked "subject.kind" lowerIdent) subject.kind,
    put "key" (checked "subject.key" validateKey) subject.key])
  (fun fields => do
    let «namespace» ← required "namespace" (checked "namespace" lowerIdent) fields
    let kind ← required "kind" (checked "subject.kind" lowerIdent) fields
    let key ← required "key" (checked "subject.key" validateKey) fields
    .ok ⟨«namespace»,kind,key⟩)

theorem subjectRef_written : subjectRef.Written := strictRecord_written

theorem subjectRef_keeps (subject : SubjectRef) : subjectRef.Keeps subject := by
  obtain ⟨home,kind,key⟩ := subject
  refine (strictRecord_keeps_iff (by simp) (by rfl)).mpr ?_
  simp only [bind_ok_iff,Except.ok.injEq,SubjectRef.mk.injEq,existsAndEq,and_true]
  rw [required_present (by simp) (by simp),required_present (by simp) (by simp),required_present (by simp) (by simp)]
  exact ⟨checked_keeps home,checked_keeps kind,checked_keeps key⟩

/-! ### Values -/

def ValueKind.label : ValueKind → String
  | .text => "text"
  | .integer => "integer"
  | .decimal => "decimal"
  | .date => "date"
  | .dateTime => "datetime"
  | .interval => "interval"
  | .entityRef => "entity_ref"
  | .enum => "enum"

def valueKind : Form ValueKind :=
  vocabulary "type" [.text,.integer,.decimal,.date,.dateTime,.interval,.entityRef,.enum] ValueKind.label

theorem valueKind_written : valueKind.Written := via_written text_written

theorem valueKind_keeps (value : ValueKind) : valueKind.Keeps value :=
  vocabulary_keeps (by rintro ⟨⟩ <;> simp) (by rintro ⟨⟩ ⟨⟩ same <;> simp_all [ValueKind.label]) value

/-- The type, and a field for each type that may carry the value. -/
structure RawValue where
  kind : Option ValueKind
  text : Option String := none
  integer : Option Int := none
  decimal : Option Decimal := none
  date : Option CivilDate := none
  dateTime : Option ZonedTime := none
  interval : Option Interval := none
  entityRef : Option SubjectRef := none
  variant : Option EnumVariant := none

namespace RawValue

def carried (raw : RawValue) : Nat :=
  raw.text.isSome.toNat + raw.integer.isSome.toNat + raw.decimal.isSome.toNat + raw.date.isSome.toNat +
    raw.dateTime.isSome.toNat + raw.interval.isSome.toNat + raw.entityRef.isSome.toNat + raw.variant.isSome.toNat

def of (value : ClaimValue) : RawValue :=
  match value with
  | .text text => { kind := some value.kind, text := some text }
  | .integer integer => { kind := some value.kind, integer := some integer }
  | .decimal decimal => { kind := some value.kind, decimal := some decimal }
  | .date date => { kind := some value.kind, date := some date }
  | .dateTime time => { kind := some value.kind, dateTime := some time }
  | .interval interval => { kind := some value.kind, interval := some interval }
  | .entityRef subject => { kind := some value.kind, entityRef := some subject }
  | .enum variant => { kind := some value.kind, variant := some variant }

def tryInto (raw : RawValue) : Except TypeError ClaimValue :=
  match raw.kind with
  | none => .error (.missingField "type" "a claim value")
  | some kind =>
    let word := ValueKind.label kind
    let mismatch := TypeError.invalid "type" [.lit s!"a {word} value carries the `{word}` field and no other"]
    if raw.carried ≠ 1 then .error mismatch
    else
      let value := match kind with
        | .text => raw.text.map ClaimValue.text
        | .integer => raw.integer.map ClaimValue.integer
        | .decimal => raw.decimal.map ClaimValue.decimal
        | .date => raw.date.map ClaimValue.date
        | .dateTime => raw.dateTime.map ClaimValue.dateTime
        | .interval => raw.interval.map ClaimValue.interval
        | .entityRef => raw.entityRef.map ClaimValue.entityRef
        | .enum => raw.variant.map ClaimValue.enum
      value.elim (.error mismatch) .ok

end RawValue

def rawValue : Form RawValue := strictRecord
  ["type","text","integer","decimal","date","datetime","interval","entity_ref","enum"]
  (fun raw => [putNull "type" valueKind raw.kind,putSome "text" string raw.text,
    putSome "integer" int64 raw.integer,putSome "decimal" decimal raw.decimal,putSome "date" civilDate raw.date,
    putSome "datetime" zonedTime raw.dateTime,putSome "interval" interval raw.interval,
    putSome "entity_ref" subjectRef raw.entityRef,putSome "enum" (checked "variant" lowerIdent) raw.variant])
  (fun fields => do
    let kind ← optional "type" valueKind fields
    let text ← optional "text" string fields
    let integer ← optional "integer" int64 fields
    let decimal ← optional "decimal" decimal fields
    let date ← optional "date" civilDate fields
    let dateTime ← optional "datetime" zonedTime fields
    let interval ← optional "interval" interval fields
    let entityRef ← optional "entity_ref" subjectRef fields
    let variant ← optional "enum" (checked "variant" lowerIdent) fields
    .ok ⟨kind,text,integer,decimal,date,dateTime,interval,entityRef,variant⟩)

def claimValue : Form ClaimValue := rawValue.via RawValue.of RawValue.tryInto

/-- What a value must not hold to be read back: a mantissa or an offset that its check refuses. -/
def ValueReadable : ClaimValue → Prop
  | .decimal decimal => DecimalText.Readable decimal
  | .dateTime time => TimeReadable time
  | .interval interval => IntervalReadable interval
  | _ => True

theorem rawValue_keeps_iff (raw : RawValue) : rawValue.Keeps raw ↔ (∀ integer ∈ raw.integer, int64.Keeps integer) ∧
    (∀ decimal ∈ raw.decimal, DecimalText.Readable decimal) ∧ (∀ time ∈ raw.dateTime, TimeReadable time) ∧
    ∀ interval ∈ raw.interval, IntervalReadable interval := by
  obtain ⟨kind,words,integer,amount,date,dateTime,window,entityRef,variant⟩ := raw
  refine (strictRecord_keeps_iff (by simp) (by rfl)).trans ?_
  simp only [bind_ok_iff,Except.ok.injEq,RawValue.mk.injEq,existsAndEq,and_true]
  rw [optional_null_present (by simp) valueKind_written (by simp),
    optional_present (by simp) string_written (by simp),optional_present (by simp) int64_written (by simp),
    optional_present (by simp) decimal_written (by simp),optional_present (by simp) civilDate_written (by simp),
    optional_present (by simp) zonedTime_written (by simp),optional_present (by simp) interval_written (by simp),
    optional_present (by simp) subjectRef_written (by simp),optional_present (by simp) checked_written (by simp)]
  have strings (text : String) : string.Keeps text := text_keeps text
  simp only [valueKind_keeps,strings,decimal_keeps_iff,civilDate_keeps,zonedTime_keeps_iff,interval_keeps_iff,
    subjectRef_keeps,checked_keeps,implies_true,true_and,and_true]

private theorem absent {α : Type} {part : Option α} (zero : part.isSome.toNat = 0) : part = none := by
  cases part <;> simp_all

/-- One field is carried, and it is the one the type names. -/
theorem rawValue_faithful (raw : RawValue) (value : ClaimValue) (taken : raw.tryInto = .ok value) :
    RawValue.of value = raw := by
  obtain ⟨kind,words,integer,amount,date,dateTime,window,entityRef,variant⟩ := raw
  cases kind with
  | none => cases taken
  | some kind =>
    simp only [RawValue.tryInto] at taken
    split at taken
    · cases taken
    rename_i one
    have chosen {found : Option ClaimValue} {mismatch : TypeError}
        (elimed : found.elim (Except.error mismatch) .ok = .ok value) : found = some value := by
      cases found <;> cases elimed
      rfl
    have named := chosen taken
    cases kind <;> obtain ⟨content,rfl,rfl⟩ := Option.map_eq_some_iff.mp named <;>
      simp only [RawValue.carried,Option.isSome_some,Bool.toNat_true] at one <;>
      simp only [RawValue.of,ClaimValue.kind,RawValue.mk.injEq,true_and,and_true] <;>
      exact ⟨(absent (by omega)).symm,(absent (by omega)).symm,(absent (by omega)).symm,(absent (by omega)).symm,
        (absent (by omega)).symm,(absent (by omega)).symm,(absent (by omega)).symm⟩

theorem rawValue_read_faithful : rawValue.Faithful := by
  refine strictRecord_faithful (by simp) (fun _ => rfl) fun raw other taken => ?_
  obtain ⟨kind,readKind,taken⟩ := bind_ok_iff.mp taken
  obtain ⟨text,readText,taken⟩ := bind_ok_iff.mp taken
  obtain ⟨integer,readInteger,taken⟩ := bind_ok_iff.mp taken
  obtain ⟨amount,readAmount,taken⟩ := bind_ok_iff.mp taken
  obtain ⟨date,readDate,taken⟩ := bind_ok_iff.mp taken
  obtain ⟨dateTime,readTime,taken⟩ := bind_ok_iff.mp taken
  obtain ⟨window,readWindow,taken⟩ := bind_ok_iff.mp taken
  obtain ⟨entityRef,readEntity,taken⟩ := bind_ok_iff.mp taken
  obtain ⟨variant,readVariant,taken⟩ := bind_ok_iff.mp taken
  cases taken
  rw [optional_null_own raw.kind (by simp) valueKind_written (Codec.faithful_of_keeps valueKind_keeps) (by simp) readKind,
    optional_own raw.text (by simp) string_written string_faithful (by simp) readText,
    optional_own raw.integer (by simp) int64_written int64_faithful (by simp) readInteger,
    optional_own raw.decimal (by simp) decimal_written decimal_faithful (by simp) readAmount,
    optional_own raw.date (by simp) civilDate_written (Codec.faithful_of_keeps civilDate_keeps) (by simp) readDate,
    optional_own raw.dateTime (by simp) zonedTime_written zonedTime_faithful (by simp) readTime,
    optional_own raw.interval (by simp) interval_written interval_faithful (by simp) readWindow,
    optional_own raw.entityRef (by simp) subjectRef_written (Codec.faithful_of_keeps subjectRef_keeps) (by simp) readEntity,
    optional_own raw.variant (by simp) checked_written (Codec.faithful_of_keeps checked_keeps) (by simp) readVariant]

theorem claimValue_faithful : claimValue.Faithful := by
  refine via_faithful rawValue_read_faithful fun value other taken => ?_
  cases value <;> exact (Except.ok.inj taken).symm

/-- A whole number is one of 64 bits and a mantissa one of 128. -/
def ValueSized : ClaimValue → Prop
  | .integer integer => -2 ^ 63 ≤ integer ∧ integer ≤ 2 ^ 63 - 1
  | .decimal decimal => DecimalText.minMantissa ≤ decimal.mantissa ∧ decimal.mantissa ≤ DecimalText.maxMantissa
  | _ => True

theorem claimValue_keeps_iff {value : ClaimValue} (sized : ValueSized value) :
    claimValue.Keeps value ↔ ValueReadable value := by
  have accepted : (RawValue.of value).tryInto = .ok value := by cases value <;> rfl
  rw [claimValue,via_keeps_iff rawValue_faithful,and_iff_left accepted,rawValue_keeps_iff]
  cases value <;> simp_all [RawValue.of,ValueReadable,ValueSized,int64,int_keeps_iff]

end Aicortex.ValueWire
