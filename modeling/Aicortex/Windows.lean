import Aicortex.History
import Aicortex.Lib.Digits

/-!
From a stated time to a window of instants. A window has a definite part when the
reading admits one interpretation and a possible part that covers them all. The
zone database and the calendar are what the build links, so they are parameters here;
an instant is a count of seconds, and no bound used below comes near the limits of the
source's 64-bit arithmetic.
-/

namespace Aicortex.Windows
open Aicortex.Text Aicortex.CivilTime Aicortex.Claims Aicortex.History
set_option linter.unusedSimpArgs false

/-- What a zone says about a wall-clock reading. -/
inductive LocalResult where
  | none
  | single (instant : Int)
  | ambiguous (first second : Int)
  deriving Repr, DecidableEq

/-- The linked zone database and its calendar: the version, the zones it knows by name,
    the number of a date in days from 1970-01-01, and how it writes a reading. -/
structure TzDatabase where
  version : String
  zone : String → Option (Int → LocalResult)
  fromYmdOpt : Nat → Nat → Nat → Option Int
  display : Int → String

/-- What is relied on of the linked calendar, for the years that are asked about: it has
    the dates of the Gregorian calendar, numbers them in their order, and writes a
    reading with its year first. -/
class Gregorian (tz : TzDatabase) : Prop where
  exists_iff : ∀ year ≤ 10000, ∀ month day, (∃ number, tz.fromYmdOpt year month day = some number) ↔
    1 ≤ month ∧ month ≤ 12 ∧ 1 ≤ day ∧ day ≤ daysIn year month
  ordered : ∀ year month day year' month' day' number number', tz.fromYmdOpt year month day = some number →
    tz.fromYmdOpt year' month' day' = some number' →
    year < year' ∨ (year = year' ∧ (month < month' ∨ (month = month' ∧ day ≤ day'))) → number ≤ number'
  written : ∀ reading, ∃ char rest, (tz.display reading).toList = char :: rest ∧
    (char.isDigit = true ∨ char = '-' ∨ char = '+')

/-- Every input that may change valid-time projection. -/
structure ProjectionPolicy where
  version : String
  floatingWindowSeconds : Nat
  timeZoneDatabase : String
  possibleCounts : Bool
  deriving Repr, DecidableEq

inductive ProjectionError where
  | unsupportedTimeZoneDatabase (found : String)
  | unknownTimeZone (zone : String)
  | invalidTime (reason : String)
  | serialization (reason : String)
  deriving Repr, DecidableEq

/-! ### Readings -/

def secondsPerDay : Int := 86400

section
variable (tz : TzDatabase)

def dateStart (date : CivilDate) : Except ProjectionError Int :=
  match tz.fromYmdOpt date.year (date.month.getD 1) (date.day.getD 1) with
  | some day => .ok day
  | none => .error (.invalidTime s!"invalid civil date {date.display}")

def dateEnd (date : CivilDate) : Except ProjectionError Int := do
  let start ← dateStart tz date
  let stop := match date.precision with
    | .year => tz.fromYmdOpt (date.year + 1) 1 1
    | .month =>
      let month := date.month.getD 1
      if month = 12 then tz.fromYmdOpt (date.year + 1) 1 1 else tz.fromYmdOpt date.year (month + 1) 1
    | .day => some (start + 1)
    | _ => none
  match stop with
  | some day => .ok day
  | none => .error (.invalidTime s!"civil date {date.display} has no end")

/-- The wall-clock reading as seconds from 1970-01-01T00:00:00 on the same wall. -/
def naive (time : ZonedTime) : Except ProjectionError Int := do
  let date ← dateStart tz time.date
  let minute := time.minute.getD 0
  let second := time.second.getD 0
  if time.hour < 24 ∧ minute < 60 ∧ second < 60 then
    .ok (date * secondsPerDay + time.hour * 3600 + minute * 60 + second)
  else .error (.invalidTime "invalid wall-clock time")

end

/-! ### Windows -/

structure Window where
  definite : Option (Int × Int)
  possible : Int × Int
  deriving Repr, DecidableEq

def precisionSeconds : Precision → Int
  | .hour => 3600
  | .minute => 60
  | .second => 1
  | _ => 1

section
variable (tz : TzDatabase) (policy : ProjectionPolicy)

/-- The earliest and latest instants a reading can name in a zone. -/
def resolve (name : String) (zone : Int → LocalResult) (reading : Int) : Except ProjectionError (Int × Int) :=
  match zone reading with
  | .single instant => .ok (instant,instant)
  | .ambiguous first second => .ok (min first second,max first second)
  | .none => .error (.invalidTime s!"{tz.display reading} does not exist in {name}")

def zonedWindow (time : ZonedTime) : Except ProjectionError Window := do
  let reading ← naive tz time
  let width := precisionSeconds time.precision
  match time.zone with
  | .offset seconds =>
    let range := (reading - seconds,reading + width - seconds)
    .ok ⟨some range,range⟩
  | .floating =>
    let widen : Int := policy.floatingWindowSeconds
    .ok ⟨none,(reading - widen,reading + width + widen)⟩
  | .iana name =>
    match tz.zone name.text with
    | none => .error (.unknownTimeZone name.text)
    | some zone =>
      let start ← resolve tz name.text zone reading
      let stop ← resolve tz name.text zone (reading + width)
      let definite := if start.1 = start.2 ∧ stop.1 = stop.2 then some (start.1,stop.1) else none
      .ok ⟨definite,(start.1,stop.2)⟩

def pointWindow (point : TimePoint) : Except ProjectionError Window :=
  match point.uncertainty with
  | some uncertainty => do
    let first ← zonedWindow tz policy uncertainty.earliest
    let last ← zonedWindow tz policy uncertainty.latest
    .ok ⟨none,(min first.possible.1 last.possible.1,max first.possible.2 last.possible.2)⟩
  | none =>
    match point.value with
    | .date date => do
      let start ← dateStart tz date
      let stop ← dateEnd tz date
      let range := (start * secondsPerDay,stop * secondsPerDay)
      .ok ⟨some range,range⟩
    | .dateTime time => zonedWindow tz policy time

/-- A quarter of the source's 64-bit range stands for an open bound. -/
def minInstant : Int := -(2 ^ 61)
def maxInstant : Int := 2 ^ 61 - 1

/-- The definite and the possible start of an interval. -/
def startEdge : Bound → Except ProjectionError (Option Int × Int)
  | .open => .ok (some minInstant,minInstant)
  | .inclusive point => do
    let window ← pointWindow tz policy point
    .ok (window.definite.map (·.1),window.possible.1)
  | .exclusive point => do
    let window ← pointWindow tz policy point
    .ok (window.definite.map (·.2),window.possible.2)

/-- The definite and the possible end of an interval. An exclusive end is definite
    where its point starts, and possible until its point ends. -/
def stopEdge : Bound → Except ProjectionError (Option Int × Int)
  | .open => .ok (some maxInstant,maxInstant)
  | .inclusive point => do
    let window ← pointWindow tz policy point
    .ok (window.definite.map (·.2),window.possible.2)
  | .exclusive point => do
    let window ← pointWindow tz policy point
    .ok (window.definite.map (·.1),window.possible.2)

def intervalWindow (start stop : Bound) : Except ProjectionError Window := do
  let first ← startEdge tz policy start
  let last ← stopEdge tz policy stop
  let definite := match first.1, last.1 with
    | some lower, some upper => some (lower,upper)
    | _, _ => none
  .ok ⟨definite,(first.2,last.2)⟩

inductive ValidBound where
  | instant (point : TimePoint)
  | interval (interval : Interval)
  deriving DecidableEq

def boundWindow : ValidBound → Except ProjectionError Window
  | .instant point => pointWindow tz policy point
  | .interval interval => intervalWindow tz policy interval.start interval.stop

/-- How confidently a claim covers the requested valid-time bound. -/
inductive Certainty where
  | definite
  | possible
  deriving Repr, DecidableEq

def validWindow (record : ClaimRecord) : Except ProjectionError Window :=
  match record.valid with
  | .timeless => .ok ⟨some (minInstant,maxInstant),(minInstant,maxInstant)⟩
  | .fromSourceTime =>
    match record.sourceTime with
    | none => .error (.invalidTime s!"claim {record.claim.id} has no source time")
    | some point => do
      let start ← pointWindow tz policy point
      .ok ⟨start.definite.map (fun range => (range.1,maxInstant)),(start.possible.1,maxInstant)⟩
  | .explicit interval => intervalWindow tz policy interval.start interval.stop

/-- Whether one window contains another on the definite parts. -/
def coversDefinitely (valid query : Window) : Bool :=
  match valid.definite, query.definite with
  | some claim, some asked => claim.1 ≤ asked.1 && asked.2 ≤ claim.2
  | _, _ => false

def coverage (record : ClaimRecord) (query : Window) : Except ProjectionError (Option Certainty) := do
  let valid ← validWindow tz policy record
  if coversDefinitely valid query then .ok (some .definite)
  else if valid.possible.1 ≤ query.possible.1 ∧ query.possible.2 ≤ valid.possible.2 then .ok (some .possible)
  else .ok none

/-- Lexicographic comparison of windows, as tuples compare. -/
def compareRange (left right : Int × Int) : Ordering :=
  match compare left.1 right.1 with
  | .eq => compare left.2 right.2
  | decided => decided

/-- Source revision first, where both have one and they differ; then source time,
    where both have one. Anything else is unordered and reads as equal. -/
def sourceOrder (left right : ClaimRecord) : Except ProjectionError Ordering :=
  let byTime : Except ProjectionError Ordering :=
    match left.sourceTime, right.sourceTime with
    | some leftTime, some rightTime => do
      let leftWindow ← pointWindow tz policy leftTime
      let rightWindow ← pointWindow tz policy rightTime
      .ok (compareRange leftWindow.possible rightWindow.possible)
    | _, _ => .ok .eq
  match left.sourceSeq, right.sourceSeq with
  | some leftSeq, some rightSeq =>
    match compare leftSeq rightSeq with
    | .eq => byTime
    | decided => .ok decided
  | _, _ => byTime

end

namespace Sample
open Lib.Digits

/-- Days from 0001-01-01 to the first day of a year. -/
def daysBeforeYear (year : Nat) : Int :=
  let past : Int := (year : Int) - 1
  365 * past + past / 4 - past / 100 + past / 400

def daysBeforeMonth (year month : Nat) : Nat := ((List.range (month - 1)).map (fun i => daysIn year (i + 1))).sum

/-- Days from 0001-01-01 to 1970-01-01. -/
def epochDays : Int := 719162

def fromYmdOpt (year month day : Nat) : Option Int :=
  if 1 ≤ month ∧ month ≤ 12 ∧ 1 ≤ day ∧ day ≤ daysIn year month then
    some (daysBeforeYear year + daysBeforeMonth year month + day - 1 - epochDays)
  else none

/-- The year, the month and the day of a day number. -/
def civilFromDays (day : Int) : Nat × Nat × Nat :=
  let shifted := (day + 719468).toNat
  let era := shifted / 146097
  let dayOfEra := shifted % 146097
  let yearOfEra := (dayOfEra - dayOfEra / 1460 + dayOfEra / 36524 - dayOfEra / 146096) / 365
  let dayOfYear := dayOfEra - (365 * yearOfEra + yearOfEra / 4 - yearOfEra / 100)
  let monthIndex := (5 * dayOfYear + 2) / 153
  let month := if monthIndex < 10 then monthIndex + 3 else monthIndex - 9
  (yearOfEra + era * 400 + (if month ≤ 2 then 1 else 0),month,dayOfYear - (153 * monthIndex + 2) / 5 + 1)

/-- `YYYY-MM-DD HH:MM:SS`. -/
def display (reading : Int) : String :=
  let (year,month,day) := civilFromDays (reading / secondsPerDay)
  let rest := (reading % secondsPerDay).toNat
  let date := padded 4 year ++ '-' :: (padded 2 month ++ '-' :: padded 2 day)
  let clock := padded 2 (rest / 3600) ++ ':' :: (padded 2 (rest % 3600 / 60) ++ ':' :: padded 2 (rest % 60))
  String.ofList (date ++ ' ' :: clock)

/-- The calendar of a build that knows some zones. -/
def linked (zone : String → Option (Int → LocalResult)) : TzDatabase := ⟨"2025b",zone,fromYmdOpt,display⟩

theorem daysBeforeMonth_step (year month : Nat) (low : 1 ≤ month) :
    daysBeforeMonth year (month + 1) = daysBeforeMonth year month + daysIn year month := by
  obtain ⟨before,rfl⟩ := Nat.exists_eq_add_of_le' low
  simp [daysBeforeMonth,List.range_succ]

theorem daysBeforeMonth_mono (year : Nat) {month later : Nat} (low : 1 ≤ month) (onward : month ≤ later) :
    daysBeforeMonth year month ≤ daysBeforeMonth year later := by
  induction later,onward using Nat.le_induction with
  | base => exact le_refl _
  | succ later onward ih =>
    rw [daysBeforeMonth_step year later (by omega)]
    omega

/-- A year is longer than its first eleven months. -/
theorem daysBeforeMonth_twelve (year : Nat) : daysBeforeMonth year 12 ≤ 335 := by
  have lengths : daysBeforeMonth year 12 = 306 + daysIn year 2 := by
    simp [daysBeforeMonth,List.range_succ,daysIn]
    omega
  rw [lengths,daysIn]
  split_ifs <;> omega

theorem daysIn_le (year month : Nat) : daysIn year month ≤ 31 := by
  unfold daysIn
  split <;> try split_ifs
  all_goals omega

theorem daysBeforeYear_later {year later : Nat} (onward : year < later) :
    daysBeforeYear year + 365 ≤ daysBeforeYear later := by
  have step (year : Nat) : daysBeforeYear year + 365 ≤ daysBeforeYear (year + 1) := by
    simp only [daysBeforeYear]
    push_cast
    omega
  induction later,onward using Nat.le_induction with
  | base => exact step year
  | succ later onward ih =>
    have next := step later
    omega

theorem fromYmdOpt_some {year month day : Nat} {number : Int} (found : fromYmdOpt year month day = some number) :
    (1 ≤ month ∧ month ≤ 12 ∧ 1 ≤ day ∧ day ≤ daysIn year month) ∧
      number = daysBeforeYear year + daysBeforeMonth year month + day - 1 - epochDays := by
  unfold fromYmdOpt at found
  split_ifs at found with legal
  exact ⟨legal,(Option.some.inj found).symm⟩

theorem fromYmdOpt_ordered {year month day year' month' day' : Nat} {number number' : Int}
    (found : fromYmdOpt year month day = some number) (found' : fromYmdOpt year' month' day' = some number')
    (onward : year < year' ∨ (year = year' ∧ (month < month' ∨ (month = month' ∧ day ≤ day')))) : number ≤ number' := by
  obtain ⟨⟨low,high,first,within⟩,rfl⟩ := fromYmdOpt_some found
  obtain ⟨⟨low',high',first',within'⟩,rfl⟩ := fromYmdOpt_some found'
  rcases onward with later | ⟨rfl,later | ⟨rfl,later⟩⟩
  · have years := daysBeforeYear_later later
    have months := (daysBeforeMonth_mono year low high).trans (daysBeforeMonth_twelve year)
    have days := within.trans (daysIn_le year month)
    omega
  · have months := daysBeforeMonth_mono year (Nat.le_add_left 1 month) (Nat.succ_le_of_lt later)
    rw [daysBeforeMonth_step year month low] at months
    omega
  · omega

instance (zone : String → Option (Int → LocalResult)) : Gregorian (linked zone) where
  exists_iff year _ month day := by
    constructor
    · rintro ⟨number,found⟩
      exact (fromYmdOpt_some found).1
    · exact fun legal => ⟨_,if_pos legal⟩
  ordered _ _ _ _ _ _ _ _ found found' onward := fromYmdOpt_ordered found found' onward
  written reading := by
    simp only [linked,display,String.toList_ofList,List.append_assoc]
    cases spelled : padded 4 (civilFromDays (reading / secondsPerDay)).1 with
    | nil => exact absurd spelled (padded_ne_nil 4 _)
    | cons char rest =>
      have digit := padded_digits 4 (civilFromDays (reading / secondsPerDay)).1 char (spelled ▸ List.mem_cons_self)
      exact ⟨char,_,rfl,.inl digit⟩

end Sample

end Aicortex.Windows
