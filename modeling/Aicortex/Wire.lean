import Aicortex.CivilText
import Aicortex.DecimalText
import Aicortex.Lib.Wire

/-!
The wire forms of times and values. Each record is written through a raw record of its
own and checked when it is taken back from one. A raw record is accepted only as the form
of a value, so a value is kept exactly when its parts are kept and the checks accept it.
-/

namespace Aicortex.Wire
open Aicortex.Text Aicortex.CivilTime Aicortex.Claims
open Lib.Outcome Lib.Wire
set_option linter.unusedSimpArgs false

abbrev Form (α : Type) := Codec TypeError α

def string : Form String := text
def int32 : Form Int := int (-2 ^ 31) (2 ^ 31 - 1)
def int64 : Form Int := int (-2 ^ 63) (2 ^ 63 - 1)
def uint16 : Form Nat := nat (2 ^ 16 - 1)
def uint32 : Form Nat := nat (2 ^ 32 - 1)
def uint64 : Form Nat := nat (2 ^ 64 - 1)

theorem string_written : string.Written := text_written
theorem int32_written : int32.Written := int_written
theorem int64_written : int64.Written := int_written

theorem string_faithful : string.Faithful := Codec.faithful_of_keeps text_keeps
theorem int32_faithful : int32.Faithful := int_faithful
theorem int64_faithful : int64.Faithful := int_faithful
theorem uint16_faithful : uint16.Faithful := nat_faithful
theorem uint64_faithful : uint64.Faithful := nat_faithful

/-! ### Words and checked strings -/

/-- A closed vocabulary: a word for each case, and no other word. -/
def vocabulary {α : Type} (field : String) (all : List α) (label : α → String) : Form α :=
  string.via label (fun word =>
    match all.find? (fun item => label item == word) with
    | some item => .ok item
    | none => .error (.unknownVariant field word (all.map label)))

/-- A vocabulary keeps its cases when they are all listed and no two share a word. -/
theorem vocabulary_keeps {α : Type} {field : String} {all : List α} {label : α → String}
    (listed : ∀ item, item ∈ all) (distinct : Function.Injective label) (item : α) :
    (vocabulary field all label).Keeps item := by
  refine (via_keeps_iff fun word value taken => ?_).mpr ⟨text_keeps _,?_⟩
  · split at taken
    · rename_i found search
      cases taken
      simpa using List.find?_some search
    · cases taken
  · cases search : all.find? (fun other => label other == label item) with
    | none => exact absurd (List.find?_eq_none.mp search item (listed item)) (by simp)
    | some other =>
      have same : label other = label item := by simpa using List.find?_some search
      rw [distinct same]

def checked (field : String) (check : String → String → Except TypeError PUnit) : Form (CheckedString field check) :=
  string.via CheckedString.text (CheckedString.new field check)

theorem checked_written {field : String} {check : String → String → Except TypeError PUnit} :
    (checked field check).Written := via_written text_written

theorem checked_keeps {field : String} {check : String → String → Except TypeError PUnit}
    (value : CheckedString field check) : (checked field check).Keeps value :=
  (via_keeps_iff fun word _ taken => ((CheckedString.new_ok_iff word _).mp taken).2).mpr
    ⟨text_keeps _,(CheckedString.new_ok_iff _ _).mpr ⟨value.legal,rfl⟩⟩

/-! ### Dates -/

def Precision.label : Precision → String
  | .year => "year"
  | .month => "month"
  | .day => "day"
  | .hour => "hour"
  | .minute => "minute"
  | .second => "second"

def precision : Form Precision := vocabulary "precision" [.year,.month,.day,.hour,.minute,.second] Precision.label

theorem precision_keeps (value : Precision) : precision.Keeps value :=
  vocabulary_keeps (by rintro ⟨⟩ <;> simp) (by rintro ⟨⟩ ⟨⟩ same <;> simp_all [Precision.label]) value

def agree (field : String) (stated declared : Precision) : Except TypeError PUnit :=
  if stated = declared then .ok ()
  else .error (.invalid field
    [.lit s!"declared {Precision.label declared} but the value is written at {Precision.label stated}"])

theorem agree_ok_iff {field : String} {stated declared : Precision} :
    agree field stated declared = .ok () ↔ stated = declared := by
  unfold agree
  split <;> simp_all

structure RawDate where
  onText : String
  precision : Precision

def rawDate : Form RawDate := strictRecord ["on","precision"]
  (fun raw => [put "on" string raw.onText,put "precision" precision raw.precision])
  (fun fields => do
    let onText ← required "on" string fields
    let stated ← required "precision" precision fields
    .ok ⟨onText,stated⟩)

def civilDate : Form CivilDate := rawDate.via (fun date => ⟨date.display,date.precision⟩) (fun raw => do
  let date ← CivilText.CivilDate.parse raw.onText
  agree "precision" date.precision raw.precision
  .ok date)

theorem rawDate_keeps (raw : RawDate) : rawDate.Keeps raw := by
  obtain ⟨onText,stated⟩ := raw
  refine (strictRecord_keeps_iff (by simp) (by rfl)).mpr ?_
  simp only [bind_ok_iff,Except.ok.injEq,RawDate.mk.injEq,existsAndEq,and_true]
  exact ⟨(required_present (by simp) (by simp)).mpr (text_keeps _),
    (required_present (by simp) (by simp)).mpr (precision_keeps _)⟩

theorem civilDate_written : civilDate.Written := via_written strictRecord_written

theorem civilDate_keeps (date : CivilDate) : civilDate.Keeps date := by
  refine (via_keeps_iff fun raw value taken => ?_).mpr ⟨rawDate_keeps _,?_⟩
  · obtain ⟨date,parsed,taken⟩ := bind_ok_iff.mp taken
    obtain ⟨_,agreed,taken⟩ := bind_ok_iff.mp taken
    cases taken
    rw [CivilText.CivilDate.parse_ok_iff.mp parsed,agree_ok_iff.mp agreed]
  · rw [CivilText.CivilDate.parse_ok_iff.mpr rfl,ok_bind,agree_ok_iff.mpr rfl,ok_bind]

/-! ### Zones and times -/

inductive ZoneForm where
  | iana
  | offset
  | floating
  deriving DecidableEq

def ZoneForm.label : ZoneForm → String
  | .iana => "iana"
  | .offset => "offset"
  | .floating => "floating"

def zoneForm : Form ZoneForm := vocabulary "zone" [.iana,.offset,.floating] ZoneForm.label

theorem zoneForm_keeps (value : ZoneForm) : zoneForm.Keeps value :=
  vocabulary_keeps (by rintro ⟨⟩ <;> simp) (by rintro ⟨⟩ ⟨⟩ same <;> simp_all [ZoneForm.label]) value

structure RawZone where
  kind : ZoneForm
  name : Option TzName
  seconds : Option Int

def rawZone : Form RawZone := strictRecord ["kind","name","seconds"]
  (fun raw => [put "kind" zoneForm raw.kind,putSome "name" (checked "zone" tzName) raw.name,
    putSome "seconds" int32 raw.seconds])
  (fun fields => do
    let kind ← required "kind" zoneForm fields
    let name ← optional "name" (checked "zone" tzName) fields
    let seconds ← optional "seconds" int32 fields
    .ok ⟨kind,name,seconds⟩)

def RawZone.of : Zone → RawZone
  | .iana name => ⟨.iana,some name,none⟩
  | .offset seconds => ⟨.offset,none,some seconds⟩
  | .floating => ⟨.floating,none,none⟩

def RawZone.tryInto (raw : RawZone) : Except TypeError Zone :=
  match raw.kind, raw.name, raw.seconds with
  | .iana, some name, none => .ok (.iana name)
  | .offset, none, some seconds => Zone.fixed seconds
  | .floating, none, none => .ok .floating
  | kind, _, _ =>
    let carried := match kind with
      | .iana => "`name` and nothing else"
      | .offset => "`seconds` and nothing else"
      | .floating => "no other field"
    .error (.invalid "zone" [.lit s!"a {kind.label} zone carries {carried}"])

def zone : Form Zone := rawZone.via RawZone.of RawZone.tryInto

/-- A zone within the bound its checked constructor sets. -/
def ZoneReadable : Zone → Prop
  | .offset seconds => seconds.natAbs ≤ maxOffsetSeconds
  | _ => True

theorem fixed_ok_iff {seconds : Int} {made : Zone} :
    Zone.fixed seconds = .ok made ↔ made = .offset seconds ∧ seconds.natAbs ≤ maxOffsetSeconds := by
  unfold Zone.fixed
  split
  · simp only [reduceCtorEq,false_iff]
    omega
  · rename_i within
    simp only [Except.ok.injEq]
    exact ⟨fun same => ⟨same.symm,Nat.le_of_not_lt within⟩,fun same => same.1.symm⟩

theorem rawZone_keeps_iff (raw : RawZone) : rawZone.Keeps raw ↔ ∀ seconds ∈ raw.seconds, int32.Keeps seconds := by
  obtain ⟨kind,name,seconds⟩ := raw
  refine (strictRecord_keeps_iff (by simp) (by rfl)).trans ?_
  simp only [bind_ok_iff,Except.ok.injEq,RawZone.mk.injEq,existsAndEq,and_true]
  rw [required_present (by simp) (by simp),optional_present (by simp) checked_written (by simp),
    optional_present (by simp) int32_written (by simp)]
  simp [zoneForm_keeps,checked_keeps]

theorem rawZone_faithful (raw : RawZone) (value : Zone) (taken : raw.tryInto = .ok value) : RawZone.of value = raw := by
  obtain ⟨kind,name,seconds⟩ := raw
  cases kind <;> cases name <;> cases seconds <;> simp only [RawZone.tryInto,reduceCtorEq] at taken
  · cases taken
    rfl
  · rw [(fixed_ok_iff.mp taken).1]
    rfl
  · cases taken
    rfl

theorem zone_keeps_iff (value : Zone) : zone.Keeps value ↔ ZoneReadable value := by
  rw [zone,via_keeps_iff rawZone_faithful,rawZone_keeps_iff]
  cases value with
  | iana name => simp [RawZone.of,RawZone.tryInto,ZoneReadable]
  | floating => simp [RawZone.of,RawZone.tryInto,ZoneReadable]
  | offset seconds =>
    simp only [RawZone.of,RawZone.tryInto,ZoneReadable,fixed_ok_iff,Option.mem_some_iff,forall_eq',int32,int_keeps_iff,
      true_and,and_iff_right_iff_imp,maxOffsetSeconds]
    omega

theorem zone_faithful : zone.Faithful := by
  refine via_faithful (strictRecord_faithful (by simp) (fun _ => rfl) fun raw other taken => ?_) fun value other taken => ?_
  · obtain ⟨kind,readKind,taken⟩ := bind_ok_iff.mp taken
    obtain ⟨name,readName,taken⟩ := bind_ok_iff.mp taken
    obtain ⟨seconds,readSeconds,taken⟩ := bind_ok_iff.mp taken
    cases taken
    rw [required_own raw.kind (by simp) (Codec.faithful_of_keeps zoneForm_keeps) (by simp) readKind,
      optional_own raw.name (by simp) checked_written (Codec.faithful_of_keeps checked_keeps) (by simp) readName,
      optional_own raw.seconds (by simp) int32_written int32_faithful (by simp) readSeconds]
  · cases value with
    | offset seconds => exact (fixed_ok_iff.mp taken).1
    | iana name =>
      cases taken
      rfl
    | floating =>
      cases taken
      rfl

structure RawZonedTime where
  localText : String
  precision : Precision
  zone : Zone

def rawZonedTime : Form RawZonedTime := strictRecord ["local","precision","zone"]
  (fun raw => [put "local" string raw.localText,put "precision" precision raw.precision,put "zone" zone raw.zone])
  (fun fields => do
    let localText ← required "local" string fields
    let stated ← required "precision" precision fields
    let zone ← required "zone" zone fields
    .ok ⟨localText,stated,zone⟩)

def zonedTime : Form ZonedTime :=
  rawZonedTime.via (fun time => ⟨CivilText.ZonedTime.localText time,time.precision,time.zone⟩) (fun raw => do
    let time ← CivilText.ZonedTime.parse raw.localText raw.zone
    agree "precision" time.precision raw.precision
    .ok time)

def TimeReadable (time : ZonedTime) : Prop := ZoneReadable time.zone

theorem rawZonedTime_keeps_iff (raw : RawZonedTime) : rawZonedTime.Keeps raw ↔ zone.Keeps raw.zone := by
  obtain ⟨localText,stated,zone⟩ := raw
  refine (strictRecord_keeps_iff (by simp) (by rfl)).trans ?_
  simp only [bind_ok_iff,Except.ok.injEq,RawZonedTime.mk.injEq,existsAndEq,and_true]
  rw [required_present (by simp) (by simp),required_present (by simp) (by simp),required_present (by simp) (by simp)]
  simp only [precision_keeps,true_and,and_iff_right_iff_imp]
  exact fun _ => text_keeps _

theorem zonedTime_written : zonedTime.Written := via_written strictRecord_written

theorem zonedTime_keeps_iff (time : ZonedTime) : zonedTime.Keeps time ↔ TimeReadable time := by
  rw [zonedTime,via_keeps_iff,rawZonedTime_keeps_iff,zone_keeps_iff]
  · refine and_iff_left ?_
    rw [CivilText.ZonedTime.parse_ok_iff.mpr ⟨rfl,rfl⟩,ok_bind,agree_ok_iff.mpr rfl,ok_bind]
  · intro raw value taken
    obtain ⟨time,parsed,taken⟩ := bind_ok_iff.mp taken
    obtain ⟨_,agreed,taken⟩ := bind_ok_iff.mp taken
    cases taken
    obtain ⟨isText,isZone⟩ := CivilText.ZonedTime.parse_ok_iff.mp parsed
    rw [isText,isZone,agree_ok_iff.mp agreed]

theorem zonedTime_faithful : zonedTime.Faithful := by
  refine via_faithful (strictRecord_faithful (by simp) (fun _ => rfl) fun raw other taken => ?_) fun time other taken => ?_
  · obtain ⟨localText,readLocal,taken⟩ := bind_ok_iff.mp taken
    obtain ⟨stated,readPrecision,taken⟩ := bind_ok_iff.mp taken
    obtain ⟨zone,readZone,taken⟩ := bind_ok_iff.mp taken
    cases taken
    rw [required_own raw.localText (by simp) string_faithful (by simp) readLocal,
      required_own raw.precision (by simp) (Codec.faithful_of_keeps precision_keeps) (by simp) readPrecision,
      required_own raw.zone (by simp) zone_faithful (by simp) readZone]
  · rw [CivilText.ZonedTime.parse_ok_iff.mpr ⟨rfl,rfl⟩,ok_bind,agree_ok_iff.mpr rfl,ok_bind] at taken
    exact (Except.ok.inj taken).symm

/-! ### Points -/

/-- A window whose ends are in order when they can be compared. -/
def newUncertainty (earliest latest : ZonedTime) : Except TypeError Uncertainty :=
  if legal : legalUncertainty earliest latest = true then .ok ⟨earliest,latest,legal⟩
  else .error (.invalid "uncertainty" [.lit "latest is before earliest"])

theorem newUncertainty_ok_iff {earliest latest : ZonedTime} {window : Uncertainty} :
    newUncertainty earliest latest = .ok window ↔ window.earliest = earliest ∧ window.latest = latest := by
  unfold newUncertainty
  split
  · constructor
    · rintro ⟨⟩
      exact ⟨rfl,rfl⟩
    · rintro ⟨rfl,rfl⟩
      rfl
  · rename_i illegal
    simp only [reduceCtorEq,false_iff]
    rintro ⟨rfl,rfl⟩
    exact illegal window.legal

def rawUncertainty : Form (ZonedTime × ZonedTime) := strictRecord ["earliest","latest"]
  (fun raw => [put "earliest" zonedTime raw.1,put "latest" zonedTime raw.2])
  (fun fields => do
    let earliest ← required "earliest" zonedTime fields
    let latest ← required "latest" zonedTime fields
    .ok (earliest,latest))

def uncertainty : Form Uncertainty :=
  rawUncertainty.via (fun window => (window.earliest,window.latest)) (fun raw => newUncertainty raw.1 raw.2)

def WindowReadable (window : Uncertainty) : Prop := TimeReadable window.earliest ∧ TimeReadable window.latest

theorem uncertainty_written : uncertainty.Written := via_written strictRecord_written

theorem uncertainty_keeps_iff (window : Uncertainty) : uncertainty.Keeps window ↔ WindowReadable window := by
  rw [uncertainty,via_keeps_iff (fun raw value taken => Prod.ext_iff.mpr (newUncertainty_ok_iff.mp taken)),
    newUncertainty_ok_iff]
  refine (and_iff_left ⟨rfl,rfl⟩).trans ((strictRecord_keeps_iff (by simp) (by rfl)).trans ?_)
  simp only [bind_ok_iff,Except.ok.injEq,Prod.mk.injEq,existsAndEq,and_true]
  rw [required_present (by simp) (by simp),required_present (by simp) (by simp),zonedTime_keeps_iff,zonedTime_keeps_iff]
  rfl

theorem uncertainty_faithful : uncertainty.Faithful := by
  refine via_faithful (strictRecord_faithful (by simp) (fun _ => rfl) fun raw other taken => ?_) fun window other taken => ?_
  · obtain ⟨earliest,readEarliest,taken⟩ := bind_ok_iff.mp taken
    obtain ⟨latest,readLatest,taken⟩ := bind_ok_iff.mp taken
    cases taken
    rw [required_own raw.1 (by simp) zonedTime_faithful (by simp) readEarliest,
      required_own raw.2 (by simp) zonedTime_faithful (by simp) readLatest]
  · rw [newUncertainty_ok_iff.mpr ⟨rfl,rfl⟩] at taken
    exact (Except.ok.inj taken).symm

def PointKind.label : PointKind → String
  | .date => "date"
  | .dateTime => "datetime"

def pointKind : Form PointKind := vocabulary "point" [.date,.dateTime] PointKind.label

theorem pointKind_keeps (value : PointKind) : pointKind.Keeps value :=
  vocabulary_keeps (by rintro ⟨⟩ <;> simp) (by rintro ⟨⟩ ⟨⟩ same <;> simp_all [PointKind.label]) value

structure RawPoint where
  kind : PointKind
  date : Option CivilDate
  dateTime : Option ZonedTime
  uncertainty : Option Uncertainty

def rawPoint : Form RawPoint := strictRecord ["kind","date","datetime","uncertainty"]
  (fun raw => [put "kind" pointKind raw.kind,putSome "date" civilDate raw.date,
    putSome "datetime" zonedTime raw.dateTime,putSome "uncertainty" uncertainty raw.uncertainty])
  (fun fields => do
    let kind ← required "kind" pointKind fields
    let date ← optional "date" civilDate fields
    let dateTime ← optional "datetime" zonedTime fields
    let uncertainty ← optional "uncertainty" uncertainty fields
    .ok ⟨kind,date,dateTime,uncertainty⟩)

def RawPoint.of (point : TimePoint) : RawPoint :=
  match point.value with
  | .date date => ⟨.date,some date,none,point.uncertainty⟩
  | .dateTime time => ⟨.dateTime,none,some time,point.uncertainty⟩

def RawPoint.tryInto (raw : RawPoint) : Except TypeError TimePoint :=
  match raw.kind, raw.date, raw.dateTime with
  | .date, some date, none => .ok ⟨.date date,raw.uncertainty⟩
  | .dateTime, none, some time => .ok ⟨.dateTime time,raw.uncertainty⟩
  | kind, _, _ => .error (.invalid "point" 
      [.lit s!"a {PointKind.label kind} point carries `{PointKind.label kind}` and not the other"])

def timePoint : Form TimePoint := rawPoint.via RawPoint.of RawPoint.tryInto

def PointReadable (point : TimePoint) : Prop :=
  (match point.value with
    | .date _ => True
    | .dateTime time => TimeReadable time) ∧ ∀ window ∈ point.uncertainty, WindowReadable window

theorem rawPoint_keeps_iff (raw : RawPoint) : rawPoint.Keeps raw ↔
    (∀ time ∈ raw.dateTime, TimeReadable time) ∧ ∀ window ∈ raw.uncertainty, WindowReadable window := by
  obtain ⟨kind,date,dateTime,window⟩ := raw
  refine (strictRecord_keeps_iff (by simp) (by rfl)).trans ?_
  simp only [bind_ok_iff,Except.ok.injEq,RawPoint.mk.injEq,existsAndEq,and_true]
  rw [required_present (by simp) (by simp),optional_present (by simp) civilDate_written (by simp),
    optional_present (by simp) zonedTime_written (by simp),optional_present (by simp) uncertainty_written (by simp)]
  simp only [pointKind_keeps,civilDate_keeps,zonedTime_keeps_iff,uncertainty_keeps_iff,implies_true,true_and]

theorem rawPoint_faithful (raw : RawPoint) (value : TimePoint) (taken : raw.tryInto = .ok value) :
    RawPoint.of value = raw := by
  obtain ⟨kind,date,dateTime,window⟩ := raw
  cases kind <;> cases date <;> cases dateTime <;> cases taken <;> rfl

theorem timePoint_written : timePoint.Written := via_written strictRecord_written

theorem timePoint_keeps_iff (point : TimePoint) : timePoint.Keeps point ↔ PointReadable point := by
  rw [timePoint,via_keeps_iff rawPoint_faithful,rawPoint_keeps_iff]
  obtain ⟨value,window⟩ := point
  cases value <;> simp [RawPoint.of,RawPoint.tryInto,PointReadable]

theorem timePoint_faithful : timePoint.Faithful := by
  refine via_faithful (strictRecord_faithful (by simp) (fun _ => rfl) fun raw other taken => ?_) fun point other taken => ?_
  · obtain ⟨kind,readKind,taken⟩ := bind_ok_iff.mp taken
    obtain ⟨date,readDate,taken⟩ := bind_ok_iff.mp taken
    obtain ⟨dateTime,readTime,taken⟩ := bind_ok_iff.mp taken
    obtain ⟨window,readWindow,taken⟩ := bind_ok_iff.mp taken
    cases taken
    rw [required_own raw.kind (by simp) (Codec.faithful_of_keeps pointKind_keeps) (by simp) readKind,
      optional_own raw.date (by simp) civilDate_written (Codec.faithful_of_keeps civilDate_keeps) (by simp) readDate,
      optional_own raw.dateTime (by simp) zonedTime_written zonedTime_faithful (by simp) readTime,
      optional_own raw.uncertainty (by simp) uncertainty_written uncertainty_faithful (by simp) readWindow]
  · obtain ⟨value,window⟩ := point
    cases value <;> exact (Except.ok.inj taken).symm

/-! ### Bounds and intervals -/

inductive BoundKind where
  | open
  | inclusive
  | exclusive
  deriving DecidableEq

def BoundKind.label : BoundKind → String
  | .open => "open"
  | .inclusive => "inclusive"
  | .exclusive => "exclusive"

def boundKind : Form BoundKind := vocabulary "bound" [.open,.inclusive,.exclusive] BoundKind.label

theorem boundKind_keeps (value : BoundKind) : boundKind.Keeps value :=
  vocabulary_keeps (by rintro ⟨⟩ <;> simp) (by rintro ⟨⟩ ⟨⟩ same <;> simp_all [BoundKind.label]) value

def rawBound : Form (BoundKind × Option TimePoint) := strictRecord ["kind","point"]
  (fun raw => [put "kind" boundKind raw.1,putSome "point" timePoint raw.2])
  (fun fields => do
    let kind ← required "kind" boundKind fields
    let point ← optional "point" timePoint fields
    .ok (kind,point))

def rawOfBound : Bound → BoundKind × Option TimePoint
  | .open => (.open,none)
  | .inclusive point => (.inclusive,some point)
  | .exclusive point => (.exclusive,some point)

def boundOfRaw : BoundKind × Option TimePoint → Except TypeError Bound
  | (.open,none) => .ok .open
  | (.inclusive,some point) => .ok (.inclusive point)
  | (.exclusive,some point) => .ok (.exclusive point)
  | (kind,_) =>
    let asked := if kind = .open then "carries no" else "requires"
    .error (.invalid "bound" [.lit s!"an {kind.label} bound {asked} a `point`"])

def bound : Form Bound := rawBound.via rawOfBound boundOfRaw

def BoundReadable (bound : Bound) : Prop := ∀ point ∈ bound.point, PointReadable point

theorem bound_keeps_iff (value : Bound) : bound.Keeps value ↔ BoundReadable value := by
  have kept (raw : BoundKind × Option TimePoint) : rawBound.Keeps raw ↔ ∀ point ∈ raw.2, PointReadable point := by
    obtain ⟨kind,point⟩ := raw
    refine (strictRecord_keeps_iff (by simp) (by rfl)).trans ?_
    simp only [bind_ok_iff,Except.ok.injEq,Prod.mk.injEq,existsAndEq,and_true]
    rw [required_present (by simp) (by simp),optional_present (by simp) timePoint_written (by simp)]
    simp only [boundKind_keeps,timePoint_keeps_iff,true_and]
  have faithful (raw : BoundKind × Option TimePoint) (made : Bound) (taken : boundOfRaw raw = .ok made) :
      rawOfBound made = raw := by
    obtain ⟨kind,point⟩ := raw
    cases kind <;> cases point <;> cases taken <;> rfl
  rw [bound,via_keeps_iff faithful,kept]
  cases value <;> simp [rawOfBound,boundOfRaw,BoundReadable,Bound.point]

theorem bound_faithful : bound.Faithful := by
  refine via_faithful (strictRecord_faithful (by simp) (fun _ => rfl) fun raw other taken => ?_) fun value other taken => ?_
  · obtain ⟨kind,readKind,taken⟩ := bind_ok_iff.mp taken
    obtain ⟨point,readPoint,taken⟩ := bind_ok_iff.mp taken
    cases taken
    rw [required_own raw.1 (by simp) (Codec.faithful_of_keeps boundKind_keeps) (by simp) readKind,
      optional_own raw.2 (by simp) timePoint_written timePoint_faithful (by simp) readPoint]
  · cases value <;> exact (Except.ok.inj taken).symm

/-- Two bounds of one point kind that are not known to be reversed. -/
def newInterval (start stop : Bound) : Except TypeError Interval :=
  if legal : legalInterval start stop = true then .ok ⟨start,stop,legal⟩
  else if start.point.map (·.value.kind) ≠ stop.point.map (·.value.kind) then
    .error (.invalid "interval" [.lit "the bounds are a date and a date-time"])
  else .error (.invalid "interval" [.lit "the end is before the start"])

theorem newInterval_ok_iff {start stop : Bound} {interval : Interval} :
    newInterval start stop = .ok interval ↔ interval.start = start ∧ interval.stop = stop := by
  unfold newInterval
  split
  · constructor
    · rintro ⟨⟩
      exact ⟨rfl,rfl⟩
    · rintro ⟨rfl,rfl⟩
      rfl
  · rename_i illegal
    constructor
    · intro made
      split at made <;> cases made
    · rintro ⟨rfl,rfl⟩
      exact absurd interval.legal illegal

def rawInterval : Form (Bound × Bound) := strictRecord ["start","end"]
  (fun raw => [put "start" bound raw.1,put "end" bound raw.2])
  (fun fields => do
    let start ← required "start" bound fields
    let stop ← required "end" bound fields
    .ok (start,stop))

def interval : Form Interval :=
  rawInterval.via (fun interval => (interval.start,interval.stop)) (fun raw => newInterval raw.1 raw.2)

def IntervalReadable (interval : Interval) : Prop := BoundReadable interval.start ∧ BoundReadable interval.stop

theorem interval_written : interval.Written := via_written strictRecord_written

theorem interval_keeps_iff (value : Interval) : interval.Keeps value ↔ IntervalReadable value := by
  rw [interval,via_keeps_iff (fun raw value taken => Prod.ext_iff.mpr (newInterval_ok_iff.mp taken)),newInterval_ok_iff]
  refine (and_iff_left ⟨rfl,rfl⟩).trans ((strictRecord_keeps_iff (by simp) (by rfl)).trans ?_)
  simp only [bind_ok_iff,Except.ok.injEq,Prod.mk.injEq,existsAndEq,and_true]
  rw [required_present (by simp) (by simp),required_present (by simp) (by simp),bound_keeps_iff,bound_keeps_iff]
  rfl

theorem interval_faithful : interval.Faithful := by
  refine via_faithful (strictRecord_faithful (by simp) (fun _ => rfl) fun raw other taken => ?_) fun value other taken => ?_
  · obtain ⟨start,readStart,taken⟩ := bind_ok_iff.mp taken
    obtain ⟨stop,readStop,taken⟩ := bind_ok_iff.mp taken
    cases taken
    rw [required_own raw.1 (by simp) bound_faithful (by simp) readStart,
      required_own raw.2 (by simp) bound_faithful (by simp) readStop]
  · rw [newInterval_ok_iff.mpr ⟨rfl,rfl⟩] at taken
    exact (Except.ok.inj taken).symm

end Aicortex.Wire
