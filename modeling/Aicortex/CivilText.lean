import Aicortex.CivilTime
import Aicortex.Lib.Digits
import Aicortex.Lib.Outcome

/-!
The written forms of dates and wall-clock readings. Fields have fixed widths and one
separator each, the precision is how many fields there are, and every parsed value is
built by the checked constructors. So a text parses exactly when it is the rendering of
a value, and then it parses to that value.
-/

namespace Aicortex.CivilText
open Aicortex.Text Aicortex.CivilTime
open Lib Lib.Outcome
set_option linter.unusedSimpArgs false

/-! ### Fixed-width fields -/

/-- Parse exactly `width` ascii digits, as a number of sixteen bits. -/
def digits (field : String) (text : List Char) (width : Nat) : Except TypeError Nat :=
  if (text.map Char.utf8Size).sum ≠ width || !text.all isAsciiDigit then
    .error (.invalid field [.quoted (String.ofList text),.lit s!" is not {width} digits"])
  else if Digits.value text < 2 ^ 16 then .ok (Digits.value text)
  else .error (.invalid field [.quoted (String.ofList text),.lit " is not a number"])

/-- A number of sixteen bits as one of eight, the largest when it does not fit. -/
def narrow (value : Nat) : Nat := if value < 2 ^ 8 then value else 2 ^ 8 - 1

theorem isAsciiDigit_eq (c : Char) : isAsciiDigit c = c.isDigit := by
  simp only [isAsciiDigit,Char.isDigit,UInt32.le_iff_toNat_le,ge_iff_le]
  rfl

private theorem digits_bytes {text : List Char} (all : ∀ c ∈ text, c.isDigit = true) :
    (text.map Char.utf8Size).sum = text.length := by
  induction text with
  | nil => rfl
  | cons c rest ih =>
    have one : c.utf8Size = 1 := by
      have digit := all c (by simp)
      simp only [Char.isDigit,Bool.and_eq_true,decide_eq_true_eq] at digit
      exact Char.utf8Size_eq_one_iff.mpr (UInt32.le_trans digit.2 (by decide))
    simp only [List.map_cons,List.sum_cons,one,ih (fun c within => all c (by simp [within])),List.length_cons]
    omega

/-- A field of up to four digits is read exactly from its padded spelling. -/
theorem digits_ok_iff {field : String} {text : List Char} {width number : Nat} (wide : 0 < width) (short : width ≤ 4) :
    digits field text width = .ok number ↔ number < 10 ^ width ∧ text = Digits.padded width number := by
  have room : 10 ^ width ≤ 10 ^ 4 := Nat.pow_le_pow_right (by omega) short
  constructor
  · intro parsed
    unfold digits at parsed
    split at parsed
    · cases parsed
    · rename_i accepted
      simp only [Bool.or_eq_true,decide_eq_true_eq,Bool.not_eq_true',not_or,ne_eq,not_not,Bool.not_eq_false,
        List.all_eq_true,isAsciiDigit_eq] at accepted
      obtain ⟨bytes,all⟩ := accepted
      have length : text.length = width := (digits_bytes all).symm.trans bytes
      have nonempty : text ≠ [] := by
        rintro rfl
        simp only [List.length_nil] at length
        omega
      split at parsed
      · cases parsed
        have spelled := Digits.padded_value all nonempty
        have below := Digits.value_lt all
        rw [length] at spelled below
        exact ⟨below,spelled.symm⟩
      · cases parsed
  · rintro ⟨below,rfl⟩
    have all := Digits.padded_digits width number
    have bytes : ((Digits.padded width number).map Char.utf8Size).sum = width :=
      (digits_bytes all).trans (Digits.padded_length wide below)
    have ascii : (Digits.padded width number).all isAsciiDigit = true := by
      simpa only [List.all_eq_true,isAsciiDigit_eq] using all
    have fits : number < 2 ^ 16 := by omega
    rw [digits,bytes,ascii,Digits.value_padded,if_neg (by simp),if_pos fits]

/-- A field that may be absent is read exactly from the two-digit spelling of a number. -/
theorem optional_ok_iff {field : String} {part : Option (List Char)} {number : Option Nat} :
    part.mapM (fun text => digits field text 2) = .ok number ↔
      part = number.map (Digits.padded 2) ∧ ∀ stated ∈ number, stated < 10 ^ 2 := by
  cases part with
  | none => cases number <;> simp [pure,Except.pure]
  | some text =>
    simp only [Option.mapM_some,map_ok_iff]
    cases number with
    | none => simp
    | some stated => simp [digits_ok_iff,and_comm]

theorem narrow_small {number : Nat} (small : number < 10 ^ 2) : narrow number = number := by
  simp [narrow,show number < 256 from by omega]

theorem narrow_part {part : Option Nat} (small : ∀ stated ∈ part, stated < 10 ^ 2) : part.map narrow = part := by
  cases part with
  | none => rfl
  | some stated => rw [Option.map_some,narrow_small (small stated rfl)]

/-- The fields of a written value: one of a width of its own, then up to two of two digits. -/
def spelled (width first : Nat) (second third : Option Nat) : List (List Char) :=
  Digits.padded width first :: (second.toList ++ third.toList).map (Digits.padded 2)

section
variable {field : String} {parts : List (List Char)} {width first : Nat} {second third : Option Nat}

private theorem eq_spelled_iff (ordered : second = none → third = none) : parts = spelled width first second third ↔
    parts[0]?.getD [] = Digits.padded width first ∧ parts[1]? = second.map (Digits.padded 2) ∧
      parts[2]? = third.map (Digits.padded 2) ∧ parts[3]? = none := by
  have filled := Digits.padded_ne_nil width first
  unfold spelled
  constructor
  · rintro rfl
    cases second with
    | none => simp [ordered rfl]
    | some stated => cases third <;> simp
  · rcases parts with _ | ⟨one,_ | ⟨two,_ | ⟨three,_ | ⟨four,rest⟩⟩⟩⟩ <;> cases second <;> cases third <;> simp_all

/-- What the fields are read as is what they are the spelling of. -/
theorem read_iff (wide : 0 < width) (short : width ≤ 4) :
    (digits field (parts[0]?.getD []) width = .ok first ∧
      parts[1]?.mapM (fun text => digits field text 2) = .ok second ∧
      parts[2]?.mapM (fun text => digits field text 2) = .ok third ∧ parts[3]?.isSome = false) ↔
    parts = spelled width first second third ∧ (second = none → third = none) ∧ first < 10 ^ width ∧
      (∀ stated ∈ second, stated < 10 ^ 2) ∧ ∀ stated ∈ third, stated < 10 ^ 2 := by
  rw [digits_ok_iff wide short,optional_ok_iff,optional_ok_iff,Option.isSome_eq_false_iff,Option.isNone_iff_eq_none]
  constructor
  · rintro ⟨⟨fits,isFirst⟩,⟨isSecond,secondFits⟩,⟨isThird,thirdFits⟩,noMore⟩
    have ordered : second = none → third = none := by
      rintro rfl
      rw [Option.map_none,List.getElem?_eq_none_iff] at isSecond
      rw [List.getElem?_eq_none (by omega)] at isThird
      simpa using isThird.symm
    exact ⟨(eq_spelled_iff ordered).mpr ⟨isFirst,isSecond,isThird,noMore⟩,ordered,fits,secondFits,thirdFits⟩
  · rintro ⟨written,ordered,fits,secondFits,thirdFits⟩
    obtain ⟨isFirst,isSecond,isThird,noMore⟩ := (eq_spelled_iff ordered).mp written
    exact ⟨⟨fits,isFirst⟩,⟨isSecond,secondFits⟩,⟨isThird,thirdFits⟩,noMore⟩

/-- No field holds a separator, so a text splits into the fields exactly when they are joined in it. -/
theorem splits_iff {separator : Char} (apart : separator.isDigit = false) {text : List Char} :
    splitOn separator text = spelled width first second third ↔
      [separator].intercalate (spelled width first second third) = text := by
  rw [splitOn_eq]
  constructor
  · intro split
    rw [← split,List.intercalate_splitOn]
  · rintro rfl
    refine List.splitOn_intercalate separator (fun part within held => ?_) (by simp [spelled])
    have digit : separator.isDigit = true := by
      simp only [spelled,List.mem_cons,List.mem_map] at within
      rcases within with rfl | ⟨number,_,rfl⟩ <;> exact Digits.padded_digits _ _ separator held
    rw [apart] at digit
    cases digit

end

theorem padded_toList (width number : Nat) : (CivilDate.padded width number).toList = Digits.padded width number := by
  rw [CivilDate.padded,Nat.toString_eq_ofList_toDigits,String.toList_append,String.toList_ofList,String.toList_ofList,
    String.length_ofList]
  rfl

/-! ### Dates -/

theorem daysIn_le (year month : Nat) : daysIn year month ≤ 31 := by
  unfold daysIn
  split <;> try split
  all_goals omega

namespace CivilDate

theorem year_legal (date : CivilDate) : 1 ≤ date.year ∧ date.year ≤ 9999 := by
  have legal := date.legal
  cases isMonth : date.month <;> cases isDay : date.day <;>
    simp only [isMonth,isDay,legalDate,Bool.and_eq_true,decide_eq_true_eq,Bool.false_eq_true] at legal <;> omega

/-- A year. -/
def y (year : Nat) : Except TypeError CivilDate :=
  if legal : 1 ≤ year ∧ year ≤ 9999 then .ok ⟨year,none,none,by simp [legalDate,legal]⟩
  else .error (.invalid "date" [.lit s!"{year} is outside 1 to 9999"])

/-- A month. -/
def ym (year month : Nat) : Except TypeError CivilDate := do
  let date ← y year
  if legal : 1 ≤ month ∧ month ≤ 12 then
    .ok ⟨date.year,some month,none,by simp [legalDate,legal,year_legal date]⟩
  else .error (.invalid "date" [.lit s!"{month} is not a month"])

/-- A day. The year and the month are checked by then, so what is left of the record's
    check is that the month has the day. -/
def ymd (year month day : Nat) : Except TypeError CivilDate := do
  let date ← ym year month
  if legal : legalDate date.year date.month (some day) = true then .ok ⟨date.year,date.month,some day,legal⟩
  else .error (.invalid "date"
    [.lit s!"{CivilDate.padded 4 year}-{CivilDate.padded 2 month} has no day {day}"])

def parse (text : String) : Except TypeError CivilDate := do
  let parts := splitOn '-' text.toList
  let year ← digits "date" (parts[0]?.getD []) 4
  let month ← parts[1]?.mapM (fun part => digits "date" part 2)
  let day ← parts[2]?.mapM (fun part => digits "date" part 2)
  if parts[3]?.isSome then .error (.invalid "date" [.quoted text,.lit " is not YYYY, YYYY-MM or YYYY-MM-DD"])
  else
    match month, day with
    | none, _ => y year
    | some month, none => ym year (narrow month)
    | some month, some day => ymd year (narrow month) (narrow day)

variable {year month day : Nat} {date : CivilDate}

theorem y_ok_iff : y year = .ok date ↔ date.year = year ∧ date.month = none ∧ date.day = none := by
  unfold y
  split
  · rename_i legal
    constructor
    · rintro ⟨⟩
      exact ⟨rfl,rfl,rfl⟩
    · rintro ⟨rfl,noMonth,noDay⟩
      exact congrArg _ (CivilTime.CivilDate.parts_injective (by simp [noMonth,noDay]))
  · rename_i illegal
    simp only [reduceCtorEq,false_iff]
    rintro ⟨rfl,_,_⟩
    exact illegal (year_legal date)

theorem ym_ok_iff : ym year month = .ok date ↔ date.year = year ∧ date.month = some month ∧ date.day = none := by
  unfold ym
  rw [bind_ok_iff]
  constructor
  · rintro ⟨start,started,checked⟩
    obtain ⟨rfl,_,_⟩ := y_ok_iff.mp started
    split at checked
    · cases checked
      exact ⟨rfl,rfl,rfl⟩
    · cases checked
  · rintro ⟨rfl,isMonth,noDay⟩
    have inYear : 1 ≤ month ∧ month ≤ 12 := by
      have legal := date.legal
      rw [isMonth,noDay] at legal
      simp only [legalDate,Bool.and_eq_true,decide_eq_true_eq] at legal
      exact ⟨legal.1.2,legal.2⟩
    refine ⟨⟨date.year,none,none,by simp [legalDate,year_legal date]⟩,y_ok_iff.mpr ⟨rfl,rfl,rfl⟩,?_⟩
    rw [dif_pos inYear]
    exact congrArg _ (CivilTime.CivilDate.parts_injective (by simp [isMonth,noDay]))

theorem ymd_ok_iff : ymd year month day = .ok date ↔
    date.year = year ∧ date.month = some month ∧ date.day = some day := by
  unfold ymd
  rw [bind_ok_iff]
  constructor
  · rintro ⟨start,started,checked⟩
    obtain ⟨rfl,isMonth,_⟩ := ym_ok_iff.mp started
    split at checked
    · cases checked
      exact ⟨rfl,isMonth,rfl⟩
    · cases checked
  · rintro ⟨rfl,isMonth,isDay⟩
    have legal := date.legal
    rw [isMonth,isDay] at legal
    have inYear : legalDate date.year (some month) none = true := by
      simp only [legalDate,Bool.and_eq_true] at legal ⊢
      exact legal.1.1
    refine ⟨⟨date.year,some month,none,inYear⟩,ym_ok_iff.mpr ⟨rfl,rfl,rfl⟩,?_⟩
    rw [dif_pos legal]
    exact congrArg _ (CivilTime.CivilDate.parts_injective (by simp [isMonth,isDay]))

/-- The fields of the rendering. -/
def fields (date : CivilDate) : List (List Char) := spelled 4 date.year date.month date.day

theorem display_toList (date : CivilDate) : date.display.toList = ['-'].intercalate (fields date) := by
  have legal := date.legal
  unfold CivilTime.CivilDate.display fields spelled
  cases isMonth : date.month <;> cases isDay : date.day <;> rw [isMonth,isDay] at legal <;>
    simp_all [legalDate,List.intercalate,padded_toList,String.toList_append]

/-- The stated parts of a date, each within its width. -/
theorem parts_fit (date : CivilDate) : date.year < 10 ^ 4 ∧ (∀ month ∈ date.month, month < 10 ^ 2) ∧
    ∀ day ∈ date.day, day < 10 ^ 2 := by
  have legal := date.legal
  have inYear := year_legal date
  refine ⟨by omega,?_,?_⟩ <;> cases isMonth : date.month <;> cases isDay : date.day <;>
    simp only [isMonth,isDay,legalDate,Bool.and_eq_true,decide_eq_true_eq,Bool.false_eq_true] at legal
  · simp
  · rintro number ⟨⟩
    omega
  · rintro number ⟨⟩
    omega
  · simp
  · simp
  · rintro number ⟨⟩
    rename_i month _
    have := daysIn_le date.year month
    omega

/-- The constructor that the stated parts choose builds the date of those parts. -/
theorem chosen_ok_iff {month day : Option Nat} (ordered : month = none → day = none)
    (monthSmall : ∀ stated ∈ month, stated < 10 ^ 2) (daySmall : ∀ stated ∈ day, stated < 10 ^ 2) :
    (match month, day with
      | none, _ => y year
      | some month, none => ym year (narrow month)
      | some month, some day => ymd year (narrow month) (narrow day)) = .ok date ↔
    date.year = year ∧ date.month = month ∧ date.day = day := by
  cases month with
  | none => rw [ordered rfl]; exact y_ok_iff
  | some month =>
    have monthKept := narrow_small (monthSmall month rfl)
    cases day with
    | none => simpa only [monthKept] using ym_ok_iff
    | some day => simpa only [monthKept,narrow_small (daySmall day rfl)] using ymd_ok_iff

/-- A day is stated only with a month. -/
theorem day_needs_month (date : CivilDate) (noMonth : date.month = none) : date.day = none := by
  have legal := date.legal
  cases isDay : date.day with
  | none => rfl
  | some day => simp [noMonth,isDay,legalDate] at legal

/-- A text parses to a date exactly when it is the date's rendering. -/
theorem parse_ok_iff {text : String} : parse text = .ok date ↔ date.display = text := by
  rw [← String.toList_inj,display_toList,fields,← splits_iff (by decide)]
  unfold parse
  generalize splitOn '-' text.toList = parts
  constructor
  · intro parsed
    obtain ⟨year,readYear,parsed⟩ := bind_ok_iff.mp parsed
    obtain ⟨month,readMonth,parsed⟩ := bind_ok_iff.mp parsed
    obtain ⟨day,readDay,parsed⟩ := bind_ok_iff.mp parsed
    split at parsed
    · cases parsed
    · rename_i noMore
      obtain ⟨written,ordered,_,monthFits,dayFits⟩ :=
        (read_iff (by omega) (by omega)).mp ⟨readYear,readMonth,readDay,by simpa using noMore⟩
      obtain ⟨rfl,rfl,rfl⟩ := (chosen_ok_iff ordered monthFits dayFits).mp parsed
      exact written
  · intro written
    obtain ⟨yearFits,monthFits,dayFits⟩ := parts_fit date
    obtain ⟨readYear,readMonth,readDay,noMore⟩ := (@read_iff "date" _ _ _ _ _ (by omega) (by omega)).mpr
      ⟨written,day_needs_month date,yearFits,monthFits,dayFits⟩
    refine bind_ok_iff.mpr ⟨_,readYear,bind_ok_iff.mpr ⟨_,readMonth,bind_ok_iff.mpr ⟨_,readDay,?_⟩⟩⟩
    rw [noMore,if_neg Bool.false_ne_true]
    exact (chosen_ok_iff (day_needs_month date) monthFits dayFits).mpr ⟨rfl,rfl,rfl⟩

end CivilDate

/-! ### Wall-clock readings -/

namespace ZonedTime

theorem legal_checks {date : CivilDate} {hour : Nat} {minute second : Option Nat} :
    legalTime date hour minute second = true ↔ date.precision = .day ∧ hour ≤ 23 ∧
      (minute.any (59 < ·) || second.any (59 < ·)) = false ∧ ¬ (second.isSome = true ∧ minute.isNone = true) := by
  cases minute <;> cases second <;> simp [legalTime,and_assoc]

/-- A time, once its day and its parts are in range. -/
def build (date : CivilDate) (hour : Nat) (minute second : Option Nat) (zone : Zone) : Except TypeError ZonedTime :=
  if onDay : date.precision ≠ .day then .error (.invalid "local" [.lit s!"{date.display} is not a day"])
  else if late : 23 < hour then .error (.invalid "local" [.lit s!"{hour} is not an hour"])
  else if outside : (minute.any (59 < ·) || second.any (59 < ·)) = true then
    .error (.invalid "local" [.lit "a minute or second is outside 0 to 59"])
  else if lone : second.isSome = true ∧ minute.isNone = true then
    .error (.invalid "local" [.lit "a second without a minute"])
  else
    .ok ⟨date,hour,minute,second,zone,
      legal_checks.mpr ⟨Decidable.not_not.mp onDay,Nat.le_of_not_lt late,Bool.eq_false_iff.mpr outside,lone⟩⟩

/-- The wall-clock reading: the day, then the hour and what is stated of it. -/
def localText (time : ZonedTime) : String :=
  let minute := match time.minute with
    | some minute => ":" ++ CivilDate.padded 2 minute
    | none => ""
  let second := match time.second with
    | some second => ":" ++ CivilDate.padded 2 second
    | none => ""
  time.date.display ++ "T" ++ CivilDate.padded 2 time.hour ++ minute ++ second

def parse (text : String) (zone : Zone) : Except TypeError ZonedTime := do
  let invalid := TypeError.invalid "local" [.quoted text,.lit " is not YYYY-MM-DDTHH, THH:MM or THH:MM:SS"]
  let (date,time) ← (splitOnce 'T' text.toList).elim (.error invalid) .ok
  let date ← CivilDate.parse (String.ofList date)
  let parts := splitOn ':' time
  let hour ← digits "local" (parts[0]?.getD []) 2
  let minute ← parts[1]?.mapM (fun part => digits "local" part 2)
  let second ← parts[2]?.mapM (fun part => digits "local" part 2)
  if parts[3]?.isSome then .error invalid
  else build date (narrow hour) (minute.map narrow) (second.map narrow) zone

variable {date : CivilDate} {hour : Nat} {minute second : Option Nat} {zone : Zone} {time : ZonedTime}

theorem build_ok_iff : build date hour minute second zone = .ok time ↔
    time.date = date ∧ time.hour = hour ∧ time.minute = minute ∧ time.second = second ∧ time.zone = zone := by
  constructor
  · intro built
    unfold build at built
    split_ifs at built
    cases built
    exact ⟨rfl,rfl,rfl,rfl,rfl⟩
  · rintro ⟨rfl,rfl,rfl,rfl,rfl⟩
    obtain ⟨onDay,inDay,inHour,whole⟩ := legal_checks.mp time.legal
    rw [build,dif_neg (not_not.mpr onDay),dif_neg (not_lt.mpr inDay),dif_neg (by rw [inHour]; exact Bool.false_ne_true),
      dif_neg whole]

/-- The rendering of a date holds digits and hyphens. -/
theorem display_free (date : CivilDate) : 'T' ∉ date.display.toList := by
  have field (width number : Nat) : 'T' ∉ Digits.padded width number := fun held =>
    absurd (Digits.padded_digits width number 'T' held) (by decide)
  rw [CivilDate.display_toList,CivilDate.fields,spelled]
  cases date.month <;> cases date.day <;> simp [List.intercalate,field]

/-- The stated parts of a reading, each within its width. -/
theorem parts_fit (time : ZonedTime) : (time.minute = none → time.second = none) ∧ time.hour < 10 ^ 2 ∧
    (∀ minute ∈ time.minute, minute < 10 ^ 2) ∧ ∀ second ∈ time.second, second < 10 ^ 2 := by
  obtain ⟨_,inDay,inHour,whole⟩ := legal_checks.mp time.legal
  simp only [Bool.or_eq_false_iff] at inHour
  refine ⟨fun noMinute => ?_,by omega,fun minute stated => ?_,fun second stated => ?_⟩
  · simpa [noMinute] using whole
  · have inMinute := inHour.1
    simp only [Option.mem_def.mp stated,Option.any_some,decide_eq_false_iff_not] at inMinute
    omega
  · have inSecond := inHour.2
    simp only [Option.mem_def.mp stated,Option.any_some,decide_eq_false_iff_not] at inSecond
    omega

theorem localText_toList (time : ZonedTime) : (localText time).toList =
    time.date.display.toList ++ 'T' :: [':'].intercalate (spelled 2 time.hour time.minute time.second) := by
  have ordered := (parts_fit time).1
  unfold localText spelled
  cases isMinute : time.minute <;> cases isSecond : time.second <;>
    simp_all [List.intercalate,padded_toList,String.toList_append]

/-- A text parses to a time in a zone exactly when it is the time's reading and the zone its zone. -/
theorem parse_ok_iff {text : String} : parse text zone = .ok time ↔ localText time = text ∧ time.zone = zone := by
  obtain ⟨ordered,hourFits,minuteFits,secondFits⟩ := parts_fit time
  constructor
  · intro parsed
    obtain ⟨⟨front,back⟩,parted,parsed⟩ := bind_ok_iff.mp parsed
    obtain ⟨date,readDate,parsed⟩ := bind_ok_iff.mp parsed
    obtain ⟨hour,readHour,parsed⟩ := bind_ok_iff.mp parsed
    obtain ⟨minute,readMinute,parsed⟩ := bind_ok_iff.mp parsed
    obtain ⟨second,readSecond,parsed⟩ := bind_ok_iff.mp parsed
    split at parsed
    · cases parsed
    · rename_i noMore
      obtain ⟨written,_,small,minuteSmall,secondSmall⟩ :=
        (read_iff (by omega) (by omega)).mp ⟨readHour,readMinute,readSecond,by simpa using noMore⟩
      rw [narrow_small small,narrow_part minuteSmall,narrow_part secondSmall] at parsed
      obtain ⟨rfl,rfl,rfl,rfl,rfl⟩ := build_ok_iff.mp parsed
      have found : splitOnce 'T' text.toList = some (front,back) := by
        cases once : splitOnce 'T' text.toList with
        | none => simp [once] at parted
        | some sides => simpa [once] using parted
      obtain ⟨_,whole⟩ := splitOnce_eq_some_iff.mp found
      have day : time.date.display.toList = front := by
        rw [CivilDate.parse_ok_iff.mp readDate,String.toList_ofList]
      refine ⟨String.toList_inj.mp ?_,rfl⟩
      rw [localText_toList,whole,day,(splits_iff (by decide)).mp written]
  · rintro ⟨rfl,rfl⟩
    have found : splitOnce 'T' (localText time).toList =
        some (time.date.display.toList,[':'].intercalate (spelled 2 time.hour time.minute time.second)) :=
      splitOnce_eq_some_iff.mpr ⟨display_free time.date,localText_toList time⟩
    have readDate : CivilDate.parse (String.ofList time.date.display.toList) = .ok time.date :=
      CivilDate.parse_ok_iff.mpr (String.ofList_toList).symm
    obtain ⟨readHour,readMinute,readSecond,noMore⟩ := (@read_iff "local" _ _ _ _ _ (by omega) (by omega)).mpr
      ⟨(@splits_iff _ _ _ _ ':' (by decide) _).mpr rfl,ordered,hourFits,minuteFits,secondFits⟩
    unfold parse
    rw [found]
    refine bind_ok_iff.mpr ⟨_,rfl,bind_ok_iff.mpr ⟨_,readDate,bind_ok_iff.mpr ⟨_,readHour,?_⟩⟩⟩
    refine bind_ok_iff.mpr ⟨_,readMinute,bind_ok_iff.mpr ⟨_,readSecond,?_⟩⟩
    rw [noMore,if_neg Bool.false_ne_true,narrow_small hourFits,narrow_part minuteFits,narrow_part secondFits]
    exact build_ok_iff.mpr ⟨rfl,rfl,rfl,rfl,rfl⟩

end ZonedTime

/-! ### The calendar -/

/-- The Gregorian length of a month: the calendar's own rule, in terms of divisibility. -/
def gregorianLength (year month : Nat) : Nat :=
  if month = 2 then (if 4 ∣ year ∧ (100 ∣ year → 400 ∣ year) then 29 else 28)
  else if month = 4 ∨ month = 6 ∨ month = 9 ∨ month = 11 then 30
  else 31

theorem isLeap_iff (year : Nat) : isLeap year = true ↔ 4 ∣ year ∧ (100 ∣ year → 400 ∣ year) := by
  simp only [isLeap,Bool.and_eq_true,Bool.or_eq_true,beq_iff_eq,bne_iff_ne,Nat.dvd_iff_mod_eq_zero]
  omega

theorem daysIn_eq (year month : Nat) : daysIn year month = gregorianLength year month := by
  unfold daysIn gregorianLength
  simp only [isLeap_iff]
  split <;> simp_all

/-- The days there are dates for are the calendar's, in the years 1 to 9999. -/
theorem day_exists_iff (year month day : Nat) :
    (∃ date : CivilDate, date.year = year ∧ date.month = some month ∧ date.day = some day) ↔
      (1 ≤ year ∧ year ≤ 9999) ∧ (1 ≤ month ∧ month ≤ 12) ∧ 1 ≤ day ∧ day ≤ gregorianLength year month := by
  rw [← daysIn_eq]
  constructor
  · rintro ⟨date,rfl,isMonth,isDay⟩
    have legal := date.legal
    simp only [isMonth,isDay,legalDate,Bool.and_eq_true,decide_eq_true_eq] at legal
    tauto
  · rintro ⟨inYears,inYear,inMonth⟩
    exact ⟨⟨year,some month,some day,by simp [legalDate,inYears,inYear,inMonth]⟩,rfl,rfl,rfl⟩

/-- Dates and readings have one written form each: a text parses to a value exactly when
    it is the value's rendering, and the values are those the calendar has. -/
theorem written_form_exact :
    (∀ text date, CivilDate.parse text = .ok date ↔ date.display = text) ∧
    (∀ text zone time, ZonedTime.parse text zone = .ok time ↔ ZonedTime.localText time = text ∧ time.zone = zone) ∧
    ∀ year month day, (∃ date : CivilDate, date.year = year ∧ date.month = some month ∧ date.day = some day) ↔
      (1 ≤ year ∧ year ≤ 9999) ∧ (1 ≤ month ∧ month ≤ 12) ∧ 1 ≤ day ∧ day ≤ gregorianLength year month :=
  ⟨fun _ _ => CivilDate.parse_ok_iff,fun _ _ _ => ZonedTime.parse_ok_iff,day_exists_iff⟩

example : (CivilDate.parse "2024-02-29").isOk = true ∧ (CivilDate.parse "2023-02-29").isOk = false := by decide

end Aicortex.CivilText
