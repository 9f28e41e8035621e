import Aicortex.Text

/-!
Time as a claim states it. A date keeps the precision it was given at and a time
keeps its zone form; nothing here turns either into an instant. Each record
carries the check its constructor makes, so an impossible date, a second without a
minute or a reversed interval is not a value of these types.
-/

namespace Aicortex.CivilTime
open Aicortex.Text
set_option linter.unusedSimpArgs false

/-- How finely a time point was stated. -/
inductive Precision where
  | year
  | month
  | day
  | hour
  | minute
  | second
  deriving Repr, DecidableEq

def isLeap (year : Nat) : Bool := year % 4 == 0 && (year % 100 != 0 || year % 400 == 0)

def daysIn (year month : Nat) : Nat :=
  match month with
  | 2 => if isLeap year then 29 else 28
  | 4 | 6 | 9 | 11 => 30
  | _ => 31

/-- An optional field in derived order: an absent one is least. -/
def optionRank : Option Nat → Nat
  | none => 0
  | some value => value + 1

/-! ### Dates -/

/-- The year lies in 1 to 9999, a stated month exists, and a day is stated only
    within a month that has it. -/
def legalDate (year : Nat) : Option Nat → Option Nat → Bool
  | none, none => 1 ≤ year && year ≤ 9999
  | some month, none => 1 ≤ year && year ≤ 9999 && 1 ≤ month && month ≤ 12
  | some month, some day => 1 ≤ year && year ≤ 9999 && 1 ≤ month && month ≤ 12 && 1 ≤ day && day ≤ daysIn year month
  | none, some _ => false

/-- A calendar date at year, month or day precision. -/
structure CivilDate where
  year : Nat
  month : Option Nat
  day : Option Nat
  legal : legalDate year month day = true

namespace CivilDate

theorem parts_injective {left right : CivilDate}
    (same : (left.year,left.month,left.day) = (right.year,right.month,right.day)) : left = right := by
  cases left
  cases right
  simp only [Prod.mk.injEq] at same
  obtain ⟨rfl,rfl,rfl⟩ := same
  rfl

instance : DecidableEq CivilDate := fun left right =>
  decidable_of_iff ((left.year,left.month,left.day) = (right.year,right.month,right.day))
    ⟨parts_injective,by rintro rfl; rfl⟩

def precision (date : CivilDate) : Precision :=
  match date.month, date.day with
  | _, some _ => .day
  | some _, none => .month
  | none, none => .year

/-- The derived order of the fields, as a list compared from the left. -/
def rank (date : CivilDate) : List Nat := [date.year,optionRank date.month,optionRank date.day]

def padded (width value : Nat) : String :=
  let digits := toString value
  String.ofList (List.replicate (width - digits.length) '0') ++ digits

/-- `YYYY`, `YYYY-MM` or `YYYY-MM-DD`. -/
def display (date : CivilDate) : String :=
  let month := match date.month with
    | some month => "-" ++ padded 2 month
    | none => ""
  let day := match date.day with
    | some day => "-" ++ padded 2 day
    | none => ""
  padded 4 date.year ++ month ++ day

end CivilDate

/-! ### Times -/

abbrev TzName := CheckedString "zone" tzName

def maxOffsetSeconds : Nat := 18 * 3600

/-- The zone a time was given in. The cases are public, so a fixed offset is not held
    to its bound here: `Zone.fixed` is the constructor that checks it. -/
inductive Zone where
  | iana (name : TzName)
  | offset (seconds : Int)
  | floating
  deriving DecidableEq

/-- A fixed offset of at most eighteen hours. -/
def Zone.fixed (seconds : Int) : Except TypeError Zone :=
  if maxOffsetSeconds < seconds.natAbs then
    .error (.invalid "zone" [.lit s!"{seconds} seconds is beyond eighteen hours"])
  else .ok (.offset seconds)

/-- A wall-clock time is on a stated day, its parts are in range, and a second is
    stated only with a minute. -/
def legalTime (date : CivilDate) (hour : Nat) (minute second : Option Nat) : Bool :=
  date.precision == .day && hour ≤ 23 && minute.all (· ≤ 59) && second.all (· ≤ 59) &&
    (second.isNone || minute.isSome)

structure ZonedTime where
  date : CivilDate
  hour : Nat
  minute : Option Nat
  second : Option Nat
  zone : Zone
  legal : legalTime date hour minute second = true
  deriving DecidableEq

namespace ZonedTime

def precision (time : ZonedTime) : Precision :=
  match time.minute, time.second with
  | _, some _ => .second
  | some _, none => .minute
  | none, none => .hour

/-- The wall-clock reading in derived field order. -/
def wall (time : ZonedTime) : List Nat :=
  time.date.rank ++ [time.hour,optionRank time.minute,optionRank time.second]

end ZonedTime

/-- Two readings in one zone are in order; readings in different zones are not compared. -/
def legalUncertainty (earliest latest : ZonedTime) : Bool :=
  !(decide (earliest.zone = latest.zone) && decide (latest.wall < earliest.wall))

/-- The window a source stated for a time. -/
structure Uncertainty where
  earliest : ZonedTime
  latest : ZonedTime
  legal : legalUncertainty earliest latest = true
  deriving DecidableEq

inductive PointKind where
  | date
  | dateTime
  deriving Repr, DecidableEq

inductive TimeValue where
  | date (date : CivilDate)
  | dateTime (time : ZonedTime)
  deriving DecidableEq

def TimeValue.kind : TimeValue → PointKind
  | .date _ => .date
  | .dateTime _ => .dateTime

/-- A time point: a value, and optionally the window the source stated for it. -/
structure TimePoint where
  value : TimeValue
  uncertainty : Option Uncertainty
  deriving DecidableEq

/-- Known to be after, comparing only dates at one precision or times in one zone. -/
def TimePoint.knownAfter (left right : TimePoint) : Bool :=
  match left.value, right.value with
  | .date a, .date b => decide (a.precision = b.precision) && decide (b.rank < a.rank)
  | .dateTime a, .dateTime b => decide (a.zone = b.zone) && decide (b.wall < a.wall)
  | _, _ => false

/-! ### Intervals -/

inductive Bound where
  | open
  | inclusive (point : TimePoint)
  | exclusive (point : TimePoint)
  deriving DecidableEq

def Bound.point : Bound → Option TimePoint
  | .open => none
  | .inclusive point => some point
  | .exclusive point => some point

/-- Closed bounds are of one point kind and are not known to be reversed. -/
def legalInterval (start stop : Bound) : Bool :=
  match start.point, stop.point with
  | some fromPoint, some toPoint =>
    decide (fromPoint.value.kind = toPoint.value.kind) && !fromPoint.knownAfter toPoint
  | _, _ => true

/-- Two bounds, either of which may be open. -/
structure Interval where
  start : Bound
  stop : Bound
  legal : legalInterval start stop = true
  deriving DecidableEq

/-- The point kind of the closed bounds, when there is one. -/
def Interval.pointKind (interval : Interval) : Option PointKind :=
  (interval.start.point.orElse fun _ => interval.stop.point).map (·.value.kind)

end Aicortex.CivilTime
