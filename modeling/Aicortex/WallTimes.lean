import Aicortex.ProjectionFacts

/-!
Wall times that exist. A zone skips some readings when its clocks go forward, and a
stated time is refused when its zone skips it. The end of its precision is looked up
as a reading too, so a time that exists may be refused for one that nobody stated,
and with it every view of a history that holds it.
-/

namespace Aicortex.WallTimes
open Aicortex.Text Aicortex.CivilTime Aicortex.Claims Aicortex.History Aicortex.Windows Aicortex.Projection
open Lib.Outcome Lib.Ordered
set_option linter.unusedSimpArgs false

/-! ### Stated dates and wall times have readings -/

section
variable {tz : TzDatabase} [Gregorian tz]

theorem one_le_daysIn (year month : Nat) : 1 ≤ daysIn year month := by
  unfold daysIn
  split <;> try split_ifs
  all_goals omega

theorem dateStart_exists (date : CivilDate) : ∃ day, dateStart tz date = .ok day := by
  obtain ⟨year,month,day,legal⟩ := date
  suffices ∃ number, tz.fromYmdOpt year (month.getD 1) (day.getD 1) = some number by
    obtain ⟨number,found⟩ := this
    exact ⟨number,by rw [dateStart,found]⟩
  cases month with
  | none =>
    cases day with
    | none =>
      simp only [legalDate,Bool.and_eq_true,decide_eq_true_eq] at legal
      exact (Gregorian.exists_iff year (by omega) _ _).mpr (by simp [daysIn])
    | some day => simp [legalDate] at legal
  | some month =>
    cases day with
    | none =>
      simp only [legalDate,Bool.and_eq_true,decide_eq_true_eq] at legal
      exact (Gregorian.exists_iff year (by omega) _ _).mpr ⟨legal.1.2,legal.2,le_refl _,one_le_daysIn _ _⟩
    | some day =>
      simp only [legalDate,Bool.and_eq_true,decide_eq_true_eq] at legal
      refine (Gregorian.exists_iff year (by omega) _ _).mpr ?_
      simp only [Option.getD_some]
      omega

theorem firstDay_exists {year month : Nat} (known : year ≤ 10000) (low : 1 ≤ month) (high : month ≤ 12) :
    ∃ number, tz.fromYmdOpt year month 1 = some number :=
  (Gregorian.exists_iff year known _ _).mpr ⟨low,high,le_refl _,one_le_daysIn _ _⟩

theorem dateEnd_exists (date : CivilDate) : ∃ day, dateEnd tz date = .ok day := by
  obtain ⟨start,starts⟩ := @dateStart_exists tz _ date
  obtain ⟨year,month,day,legal⟩ := date
  rw [dateEnd,starts,ok_bind]
  cases day with
  | some day => cases month <;> exact ⟨start + 1,rfl⟩
  | none =>
    cases month with
    | none =>
      simp only [legalDate,Bool.and_eq_true,decide_eq_true_eq] at legal
      obtain ⟨number,found⟩ : ∃ number, tz.fromYmdOpt (year + 1) 1 1 = some number :=
        firstDay_exists (by omega) (le_refl 1) (by decide)
      exact ⟨number,by simp only [CivilDate.precision,found]⟩
    | some month =>
      simp only [legalDate,Bool.and_eq_true,decide_eq_true_eq] at legal
      simp only [CivilDate.precision,Option.getD_some]
      split_ifs with last
      · obtain ⟨number,found⟩ : ∃ number, tz.fromYmdOpt (year + 1) 1 1 = some number :=
          firstDay_exists (by omega) (le_refl 1) (by decide)
        exact ⟨number,by simp only [found]⟩
      · obtain ⟨number,found⟩ : ∃ number, tz.fromYmdOpt year (month + 1) 1 = some number :=
          firstDay_exists (by omega) (by omega) (by omega)
        exact ⟨number,by simp only [found]⟩

theorem naive_exists (time : ZonedTime) : ∃ reading, naive tz time = .ok reading := by
  obtain ⟨day,starts⟩ := @dateStart_exists tz _ time.date
  have legal := time.legal
  simp only [legalTime,Bool.and_eq_true,decide_eq_true_eq] at legal
  have minutes : time.minute.getD 0 < 60 := by
    cases stated : time.minute with
    | none => simp
    | some minute =>
      have := legal.1.1.2
      simp [stated] at this
      simp
      omega
  have seconds : time.second.getD 0 < 60 := by
    cases stated : time.second with
    | none => simp
    | some second =>
      have := legal.1.2
      simp [stated] at this
      simp
      omega
  refine ⟨_,bind_ok_iff.mpr ⟨day,starts,if_pos ⟨by omega,minutes,seconds⟩⟩⟩

end

/-! ### Times a zone skips -/

/-- The refusal of a reading that its zone skips. -/
def Missing (tz : TzDatabase) (refusal : ProjectionError) : Prop :=
  ∃ (reading : Int) (name : String), refusal = .invalidTime s!"{tz.display reading} does not exist in {name}"

/-- A time given in a named zone has a reading there. -/
def TimeExists (tz : TzDatabase) (time : ZonedTime) : Prop :=
  ∀ name, time.zone = .iana name → ∃ zone reading, tz.zone name.text = some zone ∧ naive tz time = .ok reading ∧
    zone reading ≠ .none

/-- The zone of a time skips the reading at which its precision ends. -/
def EndSkipped (tz : TzDatabase) (time : ZonedTime) : Prop :=
  ∃ name zone reading, time.zone = .iana name ∧ tz.zone name.text = some zone ∧ naive tz time = .ok reading ∧
    zone (reading + precisionSeconds time.precision) = .none

/-- A computation that is refused exactly when some skipped reading is looked up. -/
def Reads {α : Type} (tz : TzDatabase) (skipped : Prop) : Except ProjectionError α → Prop
  | .ok _ => ¬ skipped
  | .error refusal => skipped ∧ Missing tz refusal

/-- Some skipped reading is what a computation is refused for. -/
def Fails {α : Type} (tz : TzDatabase) (result : Except ProjectionError α) : Prop :=
  ∃ refusal, result = .error refusal ∧ Missing tz refusal

section
variable {α β : Type} {tz : TzDatabase} {skipped later : Prop}

theorem Fails.bind_iff {first : Except ProjectionError α} {next : α → Except ProjectionError β} :
    Fails tz (first >>= next) ↔ Fails tz first ∨ ∃ value, first = .ok value ∧ Fails tz (next value) := by
  cases first with
  | error refusal => simp [Fails]
  | ok value => simp [Fails]

theorem Reads.fails_iff {result : Except ProjectionError α} (reads : Reads tz skipped result) : Fails tz result ↔ skipped := by
  cases result with
  | error refusal => exact iff_of_true ⟨refusal,rfl,reads.2⟩ reads.1
  | ok value => exact iff_of_false (by simp [Fails]) reads

theorem Reads.ok (value : α) : Reads tz False (.ok value : Except ProjectionError α) := not_false

theorem Reads.congr {result : Except ProjectionError α} (reads : Reads tz skipped result) (same : skipped ↔ later) :
    Reads tz later result := by
  rwa [propext same] at reads

/-- Two parts look up what either does. -/
theorem Reads.bind {first : Except ProjectionError α} {next : α → Except ProjectionError β} (reads : Reads tz skipped first)
    (rest : ∀ value, first = .ok value → Reads tz later (next value)) : Reads tz (skipped ∨ later) (first >>= next) := by
  cases executed : first with
  | error refusal =>
    rw [executed] at reads
    exact ⟨.inl reads.1,reads.2⟩
  | ok value =>
    rw [executed] at reads
    exact (rest value executed).congr (by simp [Reads] at reads; simp [reads])

theorem Reads.map {first : Except ProjectionError α} {next : α → Except ProjectionError β} (reads : Reads tz skipped first)
    (total : ∀ value, ∃ result, next value = .ok result) : Reads tz skipped (first >>= next) := by
  have quiet : ∀ value, first = .ok value → Reads tz False (next value) := by
    intro value _
    obtain ⟨result,executed⟩ := total value
    rw [executed]
    exact .ok result
  exact (reads.bind quiet).congr (by simp)

/-- A loop looks up what its items do. -/
theorem Reads.foldlM {σ : Type} {step : σ → α → Except ProjectionError σ} {items : List α} {P : α → Prop}
    (each : ∀ item ∈ items, ∀ state, Reads tz (P item) (step state item)) (start : σ) :
    Reads tz (∃ item ∈ items, P item) (items.foldlM step start) := by
  induction items generalizing start with
  | nil => exact (Reads.ok start).congr (by simp)
  | cons item rest ih =>
    rw [List.foldlM_cons]
    refine ((each item List.mem_cons_self start).bind fun next _ =>
      ih (fun other member => each other (List.mem_cons_of_mem _ member)) next).congr ?_
    simp

theorem Reads.ok_iff {result : Except ProjectionError α} (reads : Reads tz skipped result) :
    (∃ value, result = .ok value) ↔ ¬ skipped := by
  cases result with
  | error refusal => simp [reads.1]
  | ok value => exact iff_of_true ⟨value,rfl⟩ reads

end

/-- A claim that lacks its source time is not refused for a skipped reading: that is
    written with its year first. -/
theorem unsourced_not_missing {tz : TzDatabase} [Gregorian tz] (id : ClaimId) :
    ¬ Missing tz (.invalidTime s!"claim {id} has no source time") := by
  rintro ⟨reading,name,same⟩
  have front : s!"claim {id} has no source time" = "claim " ++ (toString id ++ " has no source time") := by
    rw [← String.append_assoc]
    rfl
  have back : s!"{tz.display reading} does not exist in {name}" = tz.display reading ++ (" does not exist in " ++ name) := by
    rw [← String.append_assoc]
    rfl
  obtain ⟨char,rest,spelled,year⟩ := @Gregorian.written tz _ reading
  rw [front,back] at same
  have chars := congrArg String.toList (ProjectionError.invalidTime.inj same)
  rw [String.toList_append,String.toList_append (s := tz.display reading),spelled] at chars
  obtain rfl : 'c' = char := (List.cons.inj chars).1
  revert year
  decide

section
variable {tz : TzDatabase} [Gregorian tz] {policy : ProjectionPolicy}

omit [Gregorian tz] in
theorem resolve_reads (name : String) (zone : Int → LocalResult) (reading : Int) :
    Reads tz (zone reading = .none) (resolve tz name zone reading) := by
  unfold resolve
  cases found : zone reading with
  | none => exact ⟨rfl,reading,name,rfl⟩
  | single instant => simp [Reads]
  | ambiguous first second => simp [Reads]

/-- A time that exists is refused exactly when the end of its precision is skipped. -/
theorem zonedWindow_reads {time : ZonedTime} (exists' : TimeExists tz time) :
    Reads tz (EndSkipped tz time) (zonedWindow tz policy time) := by
  obtain ⟨reading,named⟩ := @naive_exists tz _ time
  unfold zonedWindow
  rw [named,ok_bind]
  cases zoneIs : time.zone with
  | offset seconds => simp [Reads,EndSkipped,zoneIs]
  | floating => simp [Reads,EndSkipped,zoneIs]
  | iana name =>
    obtain ⟨zone,reading',known,named',there⟩ := exists' name zoneIs
    obtain rfl := Except.ok.inj (named.symm.trans named')
    simp only [known]
    refine Reads.congr (Reads.bind (resolve_reads name.text zone reading) fun start _ =>
      Reads.map (resolve_reads name.text zone _) fun stop => ⟨_,rfl⟩) ?_
    simp [EndSkipped,zoneIs,known,named,there]

end

/-! ### Points, intervals and claims -/

/-- The wall time of a value, if it states one. -/
def valueTime : TimeValue → Option ZonedTime
  | .date _ => none
  | .dateTime time => some time

/-- Every wall time a point states. -/
def statedTimes (point : TimePoint) : List ZonedTime :=
  (valueTime point.value).toList ++ (point.uncertainty.map fun stated => [stated.earliest,stated.latest]).getD []

/-- The wall times a point is read by: a stated uncertainty stands for the value. -/
def readTimes (point : TimePoint) : List ZonedTime :=
  match point.uncertainty with
  | some stated => [stated.earliest,stated.latest]
  | none => (valueTime point.value).toList

def PointExists (tz : TzDatabase) (point : TimePoint) : Prop := ∀ time ∈ statedTimes point, TimeExists tz time

def PointSkipped (tz : TzDatabase) (point : TimePoint) : Prop := ∃ time ∈ readTimes point, EndSkipped tz time

def intervalPoints (interval : Interval) : List TimePoint := interval.start.point.toList ++ interval.stop.point.toList

/-- The points a claim's valid time is read from. -/
def validPoints (record : ClaimRecord) : List TimePoint :=
  match record.valid with
  | .timeless => []
  | .fromSourceTime => record.sourceTime.toList
  | .explicit interval => intervalPoints interval

def queryPoints : ValidBound → List TimePoint
  | .instant point => [point]
  | .interval interval => intervalPoints interval

/-- The claim takes its valid time from a source time it does not have. -/
def Unsourced (record : ClaimRecord) : Prop := record.valid = .fromSourceTime ∧ record.sourceTime = none

section
variable {tz : TzDatabase} [Gregorian tz] {policy : ProjectionPolicy}

theorem pointWindow_reads {point : TimePoint} (exists' : PointExists tz point) :
    Reads tz (PointSkipped tz point) (pointWindow tz policy point) := by
  unfold PointExists statedTimes at exists'
  unfold PointSkipped readTimes pointWindow
  cases uncertain : point.uncertainty with
  | some stated =>
    simp only [uncertain,Option.map_some,Option.getD_some] at exists' ⊢
    refine Reads.congr (Reads.bind (zonedWindow_reads (exists' stated.earliest (by simp))) fun first _ =>
      Reads.map (zonedWindow_reads (exists' stated.latest (by simp))) fun last => ⟨_,rfl⟩) ?_
    simp
  | none =>
    cases valueIs : point.value with
    | date date =>
      obtain ⟨start,starts⟩ := @dateStart_exists tz _ date
      obtain ⟨stop,ends⟩ := @dateEnd_exists tz _ date
      simp [Reads,starts,ends,valueTime]
    | dateTime time =>
      simp only [uncertain,valueIs,valueTime,Option.map_none] at exists' ⊢
      exact (zonedWindow_reads (exists' time (by simp))).congr (by simp)

theorem startEdge_reads {bound : Bound} (exists' : ∀ point ∈ bound.point.toList, PointExists tz point) :
    Reads tz (∃ point ∈ bound.point.toList, PointSkipped tz point) (startEdge tz policy bound) := by
  cases bound with
  | «open» => simp [Bound.point,startEdge,Reads]
  | inclusive point | exclusive point =>
    exact Reads.congr (Reads.map (pointWindow_reads (exists' point (by simp [Bound.point]))) fun _ => ⟨_,rfl⟩)
      (by simp [Bound.point])

theorem stopEdge_reads {bound : Bound} (exists' : ∀ point ∈ bound.point.toList, PointExists tz point) :
    Reads tz (∃ point ∈ bound.point.toList, PointSkipped tz point) (stopEdge tz policy bound) := by
  cases bound with
  | «open» => simp [Bound.point,stopEdge,Reads]
  | inclusive point | exclusive point =>
    exact Reads.congr (Reads.map (pointWindow_reads (exists' point (by simp [Bound.point]))) fun _ => ⟨_,rfl⟩)
      (by simp [Bound.point])

theorem intervalWindow_reads {interval : Interval} (exists' : ∀ point ∈ intervalPoints interval, PointExists tz point) :
    Reads tz (∃ point ∈ intervalPoints interval, PointSkipped tz point)
      (intervalWindow tz policy interval.start interval.stop) := by
  refine Reads.congr (Reads.bind (startEdge_reads fun point member => exists' point (List.mem_append_left _ member)) fun _ _ =>
    Reads.map (stopEdge_reads fun point member => exists' point (List.mem_append_right _ member)) fun _ => ⟨_,rfl⟩) ?_
  simp [intervalPoints,or_and_right,exists_or]

theorem boundWindow_reads {bound : ValidBound} (exists' : ∀ point ∈ queryPoints bound, PointExists tz point) :
    Reads tz (∃ point ∈ queryPoints bound, PointSkipped tz point) (boundWindow tz policy bound) := by
  cases bound with
  | instant point => exact (pointWindow_reads (exists' point (by simp [queryPoints]))).congr (by simp [queryPoints])
  | interval interval => exact intervalWindow_reads exists'

theorem validWindow_reads {record : ClaimRecord} (exists' : ∀ point ∈ validPoints record, PointExists tz point)
    (sourced : ¬ Unsourced record) :
    Reads tz (∃ point ∈ validPoints record, PointSkipped tz point) (validWindow tz policy record) := by
  unfold validPoints at exists' ⊢
  unfold validWindow
  cases validIs : record.valid with
  | timeless => simp [Reads]
  | fromSourceTime =>
    cases sourceIs : record.sourceTime with
    | none => exact absurd ⟨validIs,sourceIs⟩ sourced
    | some point =>
      simp only [validIs,sourceIs,Option.toList_some] at exists' ⊢
      exact Reads.congr (Reads.map (pointWindow_reads (exists' point (by simp))) fun _ => ⟨_,rfl⟩) (by simp)
  | explicit interval =>
    simp only [validIs] at exists' ⊢
    exact intervalWindow_reads exists'

omit [Gregorian tz] in
/-- An unsourced claim is refused for what it lacks, which is no reading. -/
theorem coverage_unsourced {record : ClaimRecord} (unsourced : Unsourced record) (query : Window) :
    coverage tz policy record query = .error (.invalidTime s!"claim {record.claim.id} has no source time") := by
  rw [coverage,validWindow,unsourced.1,unsourced.2]
  rfl

theorem coverage_reads {record : ClaimRecord} (exists' : ∀ point ∈ validPoints record, PointExists tz point)
    (sourced : ¬ Unsourced record) (query : Window) :
    Reads tz (∃ point ∈ validPoints record, PointSkipped tz point) (coverage tz policy record query) := by
  refine (validWindow_reads exists' sourced).map fun valid => ?_
  split_ifs <;> exact ⟨_,rfl⟩

/-- The source revisions leave the order to the source times, which both claims have. -/
def Timed (left right : ClaimRecord) (leftTime rightTime : TimePoint) : Prop :=
  (∀ leftSeq rightSeq, left.sourceSeq = some leftSeq → right.sourceSeq = some rightSeq → leftSeq = rightSeq) ∧
    left.sourceTime = some leftTime ∧ right.sourceTime = some rightTime

theorem sourceOrder_reads {left right : ClaimRecord} (leftExists : ∀ point ∈ left.sourceTime, PointExists tz point)
    (rightExists : ∀ point ∈ right.sourceTime, PointExists tz point) :
    Reads tz (∃ leftTime rightTime, Timed left right leftTime rightTime ∧
      (PointSkipped tz leftTime ∨ PointSkipped tz rightTime)) (sourceOrder tz policy left right) := by
  -- Without a revision only the times are compared.
  have byTime : Reads tz (∃ leftTime rightTime, (left.sourceTime = some leftTime ∧ right.sourceTime = some rightTime) ∧
      (PointSkipped tz leftTime ∨ PointSkipped tz rightTime))
      (sourceOrder tz policy { left with sourceSeq := none } right) := by
    unfold sourceOrder
    dsimp only
    cases leftIs : left.sourceTime with
    | none => simp [Reads]
    | some leftTime =>
      cases rightIs : right.sourceTime with
      | none => simp [Reads]
      | some rightTime =>
        exact Reads.congr (Reads.bind (pointWindow_reads (leftExists leftTime leftIs)) fun _ _ =>
          Reads.map (pointWindow_reads (rightExists rightTime rightIs)) fun _ => ⟨_,rfl⟩) (by simp)
  unfold sourceOrder
  cases leftSeqIs : left.sourceSeq with
  | none => exact byTime.congr (by simp [Timed,leftSeqIs])
  | some leftSeq =>
    cases rightSeqIs : right.sourceSeq with
    | none => exact byTime.congr (by simp [Timed,rightSeqIs])
    | some rightSeq =>
      simp only
      rcases lt_trichotomy leftSeq rightSeq with before | rfl | after
      · rw [Std.compare_eq_lt.mpr before]
        simp [Reads,Timed,leftSeqIs,rightSeqIs,before.ne]
      · rw [Std.compare_self]
        exact byTime.congr (by simp [Timed,leftSeqIs,rightSeqIs])
      · rw [Std.compare_eq_gt.mpr after]
        simp [Reads,Timed,leftSeqIs,rightSeqIs,after.ne']

end

/-! ### Views -/

section
variable (build : Build) (policy : ProjectionPolicy)

/-- The claims that authority leaves level, where source order is to decide. -/
def level (surviving : List Counted) : List Counted :=
  let top := surviving.filter (fun item => item.1.authority = maxAuthority surviving)
  if !userSupplierConflict surviving && top.head?.any (fun item => item.1.supersession = .bySourceOrder) then top else []

/-- The claims of a slot whose source times are compared: what is left after retraction
    and explicit supersession, and level. -/
def contendersOf (history : ClaimHistory) (asOf : AsOf) (all : List Counted) : List Counted :=
  let active := all.filter (fun item => !(retractedIds history asOf).contains item.id)
  let found := explicitlySuperseded history asOf (.ofList (active.map Counted.id))
  level (active.filter (fun item => !found.removed.contains item.id))

def contenders (history : ClaimHistory) (asOf : AsOf) (query : Window) (slot : SlotId) : List Counted :=
  contendersOf history asOf (history.claims.values.filterMap (countedIn build policy asOf query slot))

/-- Two of the claims are told apart by source times, one of which ends in a skipped reading. -/
def SourceSkipped (contending : List Counted) : Prop :=
  ∃ left ∈ contending, ∃ right ∈ contending, ∃ leftTime rightTime, Timed left.1 right.1 leftTime rightTime ∧
    (PointSkipped build.tz leftTime ∨ PointSkipped build.tz rightTime)

/-- A time the query is stated by ends in a skipped reading. -/
def QuerySkipped (asOf : AsOf) : Prop := ∃ point ∈ queryPoints asOf.valid, PointSkipped build.tz point

def Known (asOf : AsOf) (record : ClaimRecord) : Prop := withinTx record.tx asOf.knowledge = true

/-- A known claim's valid time ends in a skipped reading, and no known claim before it
    lacks a source time. -/
def ValidSkipped (history : ClaimHistory) (asOf : AsOf) : Prop :=
  ∃ before record after, history.claims.values = before ++ record :: after ∧ Known asOf record ∧
    (∃ point ∈ validPoints record, PointSkipped build.tz point) ∧ ∀ earlier ∈ before, Known asOf earlier → ¬ Unsourced earlier

/-- No known claim lacks a source time, and the claims of some slot are told apart by
    source times that end in skipped readings. -/
def OrderSkipped (history : ClaimHistory) (asOf : AsOf) : Prop :=
  (∀ record ∈ history.claims.values, Known asOf record → ¬ Unsourced record) ∧
    ∃ query slot, boundWindow build.tz policy asOf.valid = .ok query ∧
      SourceSkipped build (contenders build policy history asOf query slot)

/-- Every wall time of the query and of the claims exists. -/
structure AllExist (history : ClaimHistory) (asOf : AsOf) : Prop where
  query : ∀ point ∈ queryPoints asOf.valid, PointExists build.tz point
  valid : ∀ record ∈ history.claims.values, ∀ point ∈ validPoints record, PointExists build.tz point
  source : ∀ record ∈ history.claims.values, ∀ point ∈ record.sourceTime, PointExists build.tz point

end

section
variable {build : Build} [Gregorian build.tz] {policy : ProjectionPolicy} {history : ClaimHistory} {asOf : AsOf}

theorem supersededBySource_reads {active : List Counted}
    (exists' : ∀ item ∈ active, ∀ point ∈ item.1.sourceTime, PointExists build.tz point)
    (replacing : OrdMap ClaimId (OrdSet ClaimId)) :
    Reads build.tz (SourceSkipped build active) (supersededBySource build policy active replacing) := by
  unfold supersededBySource
  refine (Reads.foldlM (P := fun left => ∃ right ∈ active, ∃ rightTime leftTime,
    Timed right.1 left.1 rightTime leftTime ∧ (PointSkipped build.tz rightTime ∨ PointSkipped build.tz leftTime))
    (fun left leftIn found => ?_) _).congr ?_
  · refine Reads.foldlM (fun right rightIn found => ?_) found
    refine (sourceOrder_reads (exists' right rightIn) (exists' left leftIn)).map fun order => ?_
    split_ifs <;> exact ⟨_,rfl⟩
  · unfold SourceSkipped
    constructor
    · rintro ⟨left,leftIn,right,rightIn,found⟩
      exact ⟨right,rightIn,left,leftIn,found⟩
    · rintro ⟨right,rightIn,left,leftIn,found⟩
      exact ⟨left,leftIn,right,rightIn,found⟩

theorem level_sublist (surviving : List Counted) : (level surviving).Sublist surviving := by
  unfold level
  dsimp only
  split_ifs
  · exact List.filter_sublist
  · exact List.nil_sublist _

theorem contendersOf_sublist (all : List Counted) : (contendersOf history asOf all).Sublist all :=
  (level_sublist _).trans (List.filter_sublist.trans List.filter_sublist)

theorem selectWinners_reads {surviving : List Counted}
    (exists' : ∀ item ∈ level surviving, ∀ point ∈ item.1.sourceTime, PointExists build.tz point)
    (replacing : OrdMap ClaimId (OrdSet ClaimId)) :
    Reads build.tz (SourceSkipped build (level surviving)) (selectWinners build policy surviving replacing) := by
  unfold level at exists' ⊢
  unfold selectWinners
  dsimp only at exists' ⊢
  cases clash : userSupplierConflict surviving with
  | true => simp [Reads,SourceSkipped]
  | false =>
    simp only [clash,Bool.not_false,Bool.true_and,Bool.false_eq_true,if_false] at exists' ⊢
    split_ifs at exists' ⊢
    · exact (supersededBySource_reads exists' replacing).map fun found => ⟨_,rfl⟩
    · simp [Reads,SourceSkipped]

theorem resolveSlot_reads {all : List Counted}
    (exists' : ∀ item ∈ all, ∀ point ∈ item.1.sourceTime, PointExists build.tz point) :
    Reads build.tz (SourceSkipped build (contendersOf history asOf all))
      (resolveSlot build policy (retractedIds history asOf) (explicitlySuperseded history asOf) all) := by
  have within : ∀ item ∈ contendersOf history asOf all, ∀ point ∈ item.1.sourceTime, PointExists build.tz point :=
    fun item member => exists' item ((contendersOf_sublist all).subset member)
  unfold contendersOf at within ⊢
  unfold resolveSlot
  dsimp only at within ⊢
  split
  · rename_i none'
    rw [List.isEmpty_iff.mp none']
    simp [Reads,SourceSkipped,level]
  · refine (selectWinners_reads within _).map fun chosen => ?_
    split_ifs <;> exact ⟨_,rfl⟩

theorem resolveSlots_reads {grouped : OrdMap SlotId (List Counted)}
    (exists' : ∀ entry ∈ grouped.entries, ∀ item ∈ entry.2, ∀ point ∈ item.1.sourceTime, PointExists build.tz point) :
    Reads build.tz (∃ entry ∈ grouped.entries, SourceSkipped build (contendersOf history asOf entry.2))
      (resolveSlots build policy (retractedIds history asOf) (explicitlySuperseded history asOf) grouped) :=
  Reads.foldlM (fun entry member _ => (resolveSlot_reads (exists' entry member)).map fun _ => ⟨_,rfl⟩) _

theorem countClaim_reads {record : ClaimRecord} (exists' : ∀ point ∈ validPoints record, PointExists build.tz point)
    (sourced : Known asOf record → ¬ Unsourced record) (query : Window) (grouped : OrdMap SlotId (List Counted)) :
    Reads build.tz (Known asOf record ∧ ∃ point ∈ validPoints record, PointSkipped build.tz point)
      (countClaim build policy asOf query grouped record) := by
  unfold countClaim
  cases known : withinTx record.tx asOf.knowledge with
  | false => simp [Reads,Known,known]
  | true =>
    rw [if_pos rfl]
    refine Reads.congr (Reads.map (coverage_reads exists' (sourced known) query) fun covered => ?_) (by simp [Known,known])
    cases covered with
    | none => exact ⟨_,rfl⟩
    | some certainty =>
      dsimp only
      split_ifs <;> exact ⟨_,rfl⟩

omit [Gregorian build.tz] in
/-- The entries of a grouping are the slots of the known claims, each with what counts of it. -/
theorem skipped_entries_iff {query : Window} {grouped : OrdMap SlotId (List Counted)}
    (executed : groupClaims build policy asOf query history.claims.values = .ok grouped) :
    (∃ entry ∈ grouped.entries, SourceSkipped build (contendersOf history asOf entry.2)) ↔
      ∃ slot, SourceSkipped build (contenders build policy history asOf query slot) := by
  constructor
  · rintro ⟨entry,member,skipped⟩
    rw [groupClaims_entry build policy executed member] at skipped
    exact ⟨entry.1,skipped⟩
  · rintro ⟨slot,skipped⟩
    obtain ⟨left,leftIn,-⟩ := id skipped
    obtain ⟨record,recordIn,counted⟩ := List.mem_filterMap.mp ((contendersOf_sublist _).subset leftIn)
    obtain ⟨-,known,slotIs,-⟩ := countedIn_some build policy counted
    have opened := (groupClaims_ok build policy executed slot).2.mpr ⟨record,recordIn,known,slotIs⟩
    obtain ⟨all,found⟩ := (OrdMap.contains_iff _ _).mp opened
    refine ⟨(slot,all),(grouped.find?_iff_mem _ _).mp found,?_⟩
    rw [groupClaims_entry build policy executed ((grouped.find?_iff_mem _ _).mp found)]
    exact skipped

/-- Where no known claim lacks a source time, only skipped readings are refused. -/
theorem projectSlots_reads (exist : AllExist build history asOf)
    (sourced : ∀ record ∈ history.claims.values, Known asOf record → ¬ Unsourced record) :
    Reads build.tz (QuerySkipped build asOf ∨ ValidSkipped build history asOf ∨ OrderSkipped build policy history asOf)
      (projectSlots build policy history asOf) := by
  refine Reads.bind (boundWindow_reads exist.query) fun query asked => Reads.bind (Reads.congr (Reads.foldlM
    (fun record member grouped => countClaim_reads (exist.valid record member) (sourced record member) query grouped) _) ?_)
    fun grouped executed => (resolveSlots_reads ?_).congr ?_
  · constructor
    · rintro ⟨record,member,known,skipped⟩
      obtain ⟨before,after,split⟩ := List.append_of_mem member
      exact ⟨before,record,after,split,known,skipped,fun earlier inside => sourced earlier (split ▸ List.mem_append_left _ inside)⟩
    · rintro ⟨before,record,after,split,known,skipped,-⟩
      exact ⟨record,split ▸ by simp,known,skipped⟩
  · intro entry member item inside point
    rw [groupClaims_entry build policy executed member] at inside
    obtain ⟨record,recordIn,counted⟩ := List.mem_filterMap.mp inside
    obtain ⟨rfl,-⟩ := countedIn_some build policy counted
    exact exist.source _ recordIn point
  · rw [skipped_entries_iff executed]
    constructor
    · rintro ⟨slot,skipped⟩
      exact ⟨sourced,query,slot,asked,skipped⟩
    · rintro ⟨-,query',slot,asked',skipped⟩
      obtain rfl := Except.ok.inj (asked.symm.trans asked')
      exact ⟨slot,skipped⟩

/-! The first known claim that lacks its source time ends the grouping, so only what is
before it is looked up. -/

section
variable {before after : List ClaimRecord} {record : ClaimRecord}

omit [Gregorian build.tz] in
theorem countClaim_unsourced (known : Known asOf record) (unsourced : Unsourced record) (query : Window)
    (grouped : OrdMap SlotId (List Counted)) : countClaim build policy asOf query grouped record =
      .error (.invalidTime s!"claim {record.claim.id} has no source time") := by
  rw [countClaim,if_pos (by exact known),coverage_unsourced unsourced]
  rfl

omit [Gregorian build.tz] in
/-- A skipped valid time is read only before that claim. -/
theorem validSkipped_before (split : history.claims.values = before ++ record :: after) (known : Known asOf record)
    (unsourced : Unsourced record) (sourced : ∀ earlier ∈ before, Known asOf earlier → ¬ Unsourced earlier) :
    ValidSkipped build history asOf ↔
      ∃ earlier ∈ before, Known asOf earlier ∧ ∃ point ∈ validPoints earlier, PointSkipped build.tz point := by
  have noTime : ∀ point, point ∉ validPoints record := by simp [validPoints,unsourced.1,unsourced.2]
  constructor
  · rintro ⟨before',record',after',split',known',⟨point,pointIn,skipped⟩,sourced'⟩
    refine ⟨record',?_,known',point,pointIn,skipped⟩
    rcases List.append_eq_append_iff.mp (split.symm.trans split') with ⟨between,rfl,rest⟩ | ⟨between,rfl,rest⟩
    · cases between with
      | nil =>
        obtain ⟨rfl,-⟩ := List.cons.inj rest
        exact absurd pointIn (noTime point)
      | cons first between =>
        obtain ⟨rfl,-⟩ := List.cons.inj rest
        exact absurd unsourced (sourced' _ (by simp) known)
    · cases between with
      | nil =>
        obtain ⟨rfl,-⟩ := List.cons.inj rest
        exact absurd pointIn (noTime point)
      | cons first between =>
        obtain ⟨rfl,-⟩ := List.cons.inj rest
        simp
  · rintro ⟨earlier,inside,known',skipped⟩
    obtain ⟨first,rest,rfl⟩ := List.append_of_mem inside
    exact ⟨first,earlier,rest ++ record :: after,by simp [split],known',skipped,
      fun other within => sourced other (List.mem_append_left _ within)⟩

/-- The grouping is refused, for a skipped reading only if there is one before that claim. -/
theorem groupClaims_unsourced (exist : AllExist build history asOf) (split : history.claims.values = before ++ record :: after)
    (known : Known asOf record) (unsourced : Unsourced record)
    (sourced : ∀ earlier ∈ before, Known asOf earlier → ¬ Unsourced earlier) (query : Window) :
    (∀ grouped, groupClaims build policy asOf query history.claims.values ≠ .ok grouped) ∧
      (Fails build.tz (groupClaims build policy asOf query history.claims.values) ↔
        ∃ earlier ∈ before, Known asOf earlier ∧ ∃ point ∈ validPoints earlier, PointSkipped build.tz point) := by
  have earlierIn : ∀ earlier ∈ before, earlier ∈ history.claims.values := fun earlier inside =>
    split ▸ List.mem_append_left _ inside
  have refusal := @countClaim_unsourced build policy asOf record known unsourced query
  rw [groupClaims,split,List.foldlM_append]
  refine ⟨fun grouped executed => ?_,?_⟩
  · obtain ⟨mid,-,rest⟩ := bind_ok_iff.mp executed
    simp [List.foldlM_cons,refusal] at rest
  · have reads : Reads build.tz _ (before.foldlM (countClaim build policy asOf query) .empty) :=
      Reads.foldlM (fun earlier inside grouped => countClaim_reads (exist.valid earlier (earlierIn earlier inside))
        (sourced earlier inside) query grouped) .empty
    rw [Fails.bind_iff,reads.fails_iff,or_iff_left_iff_imp]
    rintro ⟨grouped,-,other,refused,missing⟩
    rw [List.foldlM_cons,refusal] at refused
    obtain rfl := Except.error.inj refused
    exact absurd missing (unsourced_not_missing _)

theorem projectSlots_fails_unsourced (exist : AllExist build history asOf)
    (split : history.claims.values = before ++ record :: after) (known : Known asOf record)
    (unsourced : Unsourced record) (sourced : ∀ earlier ∈ before, Known asOf earlier → ¬ Unsourced earlier) :
    Fails build.tz (projectSlots build policy history asOf) ↔ QuerySkipped build asOf ∨ ValidSkipped build history asOf := by
  have grouping := @groupClaims_unsourced build _ policy history asOf before after record exist split known unsourced sourced
  unfold projectSlots
  rw [Fails.bind_iff,(boundWindow_reads exist.query).fails_iff,validSkipped_before split known unsourced sourced]
  by_cases asked : QuerySkipped build asOf
  · exact iff_of_true (.inl asked) (.inl asked)
  · obtain ⟨query,queryIs⟩ : ∃ query, boundWindow build.tz policy asOf.valid = .ok query :=
      (boundWindow_reads exist.query).ok_iff.mpr asked
    refine or_congr Iff.rfl ⟨?_,fun skipped => ⟨query,queryIs,Fails.bind_iff.mpr (.inl ((grouping query).2.mpr skipped))⟩⟩
    rintro ⟨query,-,failed⟩
    rcases Fails.bind_iff.mp failed with failed | ⟨grouped,executed,-⟩
    · exact (grouping query).2.mp failed
    · exact absurd executed ((grouping query).1 grouped)

end

/-- What a view is refused for in times that exist: the query, a valid time read before
    any claim without its source time, or source times that are compared. -/
theorem projectSlots_fails_iff (exist : AllExist build history asOf) :
    Fails build.tz (projectSlots build policy history asOf) ↔
      QuerySkipped build asOf ∨ ValidSkipped build history asOf ∨ OrderSkipped build policy history asOf := by
  classical
  by_cases sourced : ∀ record ∈ history.claims.values, Known asOf record → ¬ Unsourced record
  · exact (projectSlots_reads exist sourced).fails_iff
  · cases found : history.claims.values.find? (fun record => Known asOf record ∧ Unsourced record) with
    | none =>
      refine absurd ?_ sourced
      intro record member known unsourced
      exact List.find?_eq_none.mp found record member (decide_eq_true ⟨known,unsourced⟩)
    | some record =>
      obtain ⟨first,before,after,split,others⟩ := List.find?_eq_some_iff_append.mp found
      obtain ⟨known,unsourced⟩ := of_decide_eq_true first
      rw [projectSlots_fails_unsourced exist split known unsourced (fun earlier inside knownEarlier lacks => ?_)]
      · have unordered : ¬ OrderSkipped build policy history asOf := fun ordered =>
          ordered.1 record (split ▸ by simp) known unsourced
        simp [unordered]
      · simpa [knownEarlier,lacks] using others earlier inside

end

/-- Every time the code looks up has its end, too. -/
def EndsExist (build : Build) (policy : ProjectionPolicy) (history : ClaimHistory) (asOf : AsOf) : Prop :=
  policy.timeZoneDatabase = build.tz.version →
    ¬ QuerySkipped build asOf ∧ ¬ ValidSkipped build history asOf ∧ ¬ OrderSkipped build policy history asOf

theorem existing_times_read_iff (build : Build) [Gregorian build.tz] (policy : ProjectionPolicy) :
    (∀ time, TimeExists build.tz time →
      ((∃ window, zonedWindow build.tz policy time = .ok window) ↔ ¬ EndSkipped build.tz time)) ∧
    ∀ history asOf, AllExist build history asOf →
      ((∀ refusal, project build policy history asOf = .error refusal → ¬ Missing build.tz refusal) ↔
        EndsExist build policy history asOf) := by
  refine ⟨fun time exists' => (zonedWindow_reads exists').ok_iff,fun history asOf exist => ?_⟩
  have notFails : (∀ refusal, project build policy history asOf = .error refusal → ¬ Missing build.tz refusal) ↔
      ¬ Fails build.tz (project build policy history asOf) := by simp [Fails]
  rw [notFails,EndsExist,← not_or,← not_or,← projectSlots_fails_iff exist,← not_and]
  refine not_congr ?_
  unfold project
  split_ifs with unsupported
  · simp [Fails,Missing,unsupported]
  · rw [not_not] at unsupported
    refine Iff.trans Fails.bind_iff ?_
    rw [or_iff_left,and_iff_right unsupported]
    rintro ⟨⟨unsorted,proposals⟩,-,refusal,refused,missing⟩
    dsimp only at refused
    split at refused
    · cases refused
      obtain ⟨reading,name,same⟩ := missing
      cases same
    · cases refused

namespace Sample
open Claims.Sample History.Sample

/-- The eighth of March 2026 at two in the morning, when clocks in New York go forward. -/
def forward : Int := 20520 * secondsPerDay + 7200

def newYork (reading : Int) : LocalResult :=
  if reading < forward then .single (reading + 5 * 3600)
  else if reading < forward + 3600 then .none
  else .single (reading + 4 * 3600)

def name : TzName := ⟨"America/New_York",by decide⟩

def build : Build :=
  { Projection.Sample.build with tz := Windows.Sample.linked (fun zone => if zone = name.text then some newYork else none) }

instance : Gregorian build.tz := inferInstanceAs (Gregorian (Windows.Sample.linked _))

theorem march_legal : legalDate 2026 (some 3) (some 8) = true := by decide

/-- An hour of that morning. -/
def morning (hour : Nat) (legal : legalTime ⟨2026,some 3,some 8,march_legal⟩ hour none none = true) : ZonedTime :=
  ⟨⟨2026,some 3,some 8,march_legal⟩,hour,none,none,.iana name,legal⟩

/-- One claim, valid from the hour on. -/
def held (time : ZonedTime) : ClaimHistory :=
  history [.claim { record firstId "12A" 1 with valid := .explicit ⟨.inclusive ⟨.dateTime time,none⟩,.open,rfl⟩ }]

theorem one_legal : legalTime ⟨2026,some 3,some 8,march_legal⟩ 1 none none = true := by decide

theorem four_legal : legalTime ⟨2026,some 3,some 8,march_legal⟩ 4 none none = true := by decide

theorem morning_exists {hour : Nat} {legal : legalTime ⟨2026,some 3,some 8,march_legal⟩ hour none none = true}
    (reading : Int) (named : naive build.tz (morning hour legal) = .ok reading) (there : newYork reading ≠ .none) :
    TimeExists build.tz (morning hour legal) := by
  rintro _ ⟨⟩
  exact ⟨newYork,reading,rfl,named,there⟩

theorem held_exist {time : ZonedTime} (exists' : TimeExists build.tz time) :
    AllExist build (held time) (Projection.Sample.asOf 1) := by
  have values : (held time).claims.values =
      [{ record firstId "12A" 1 with valid := .explicit ⟨.inclusive ⟨.dateTime time,none⟩,.open,rfl⟩ }] := rfl
  refine ⟨?_,?_,?_⟩
  · simp [queryPoints,Projection.Sample.asOf,PointExists,statedTimes,valueTime]
  · rw [values]
    simpa [validPoints,intervalPoints,Bound.point,PointExists,statedTimes,valueTime] using exists'
  · rw [values]
    simp [record]

/-- The hour before the gap exists, and is refused with every view of a history that has
    it, for two o'clock. -/
theorem hour_before_gap_refused :
    TimeExists build.tz (morning 1 one_legal) ∧
      zonedWindow build.tz Projection.Sample.policy (morning 1 one_legal) =
        .error (.invalidTime "2026-03-08 02:00:00 does not exist in America/New_York") ∧
      AllExist build (held (morning 1 one_legal)) (Projection.Sample.asOf 1) ∧
      project build Projection.Sample.policy (held (morning 1 one_legal)) (Projection.Sample.asOf 1) =
        .error (.invalidTime "2026-03-08 02:00:00 does not exist in America/New_York") := by
  have exists' : TimeExists build.tz (morning 1 one_legal) :=
    morning_exists (forward - 3600) (by decide +kernel) (by decide +kernel)
  exact ⟨exists',by decide +kernel,held_exist exists',by decide +kernel⟩

/-- Two hours after the gap the time is read and the view computed; the hour before it,
    neither is, for the reading at which the hour ends. -/
theorem existing_times_read_iff_four :
    (∃ view, project build Projection.Sample.policy (held (morning 4 four_legal)) (Projection.Sample.asOf 1) = .ok view) ∧
    ¬ EndSkipped build.tz (morning 4 four_legal) ∧
    EndsExist build Projection.Sample.policy (held (morning 4 four_legal)) (Projection.Sample.asOf 1) ∧
    EndSkipped build.tz (morning 1 one_legal) ∧
    ¬ EndsExist build Projection.Sample.policy (held (morning 1 one_legal)) (Projection.Sample.asOf 1) := by
  have four : TimeExists build.tz (morning 4 four_legal) :=
    morning_exists (forward + 2 * 3600) (by decide +kernel) (by decide +kernel)
  have one : TimeExists build.tz (morning 1 one_legal) :=
    morning_exists (forward - 3600) (by decide +kernel) (by decide +kernel)
  have reads := existing_times_read_iff build Projection.Sample.policy
  have computed : (project build Projection.Sample.policy (held (morning 4 four_legal)) (Projection.Sample.asOf 1)).toOption.isSome = true := by
    decide +kernel
  have unread : zonedWindow build.tz Projection.Sample.policy (morning 1 one_legal) =
      .error (.invalidTime "2026-03-08 02:00:00 does not exist in America/New_York") := by decide +kernel
  have refused : project build Projection.Sample.policy (held (morning 1 one_legal)) (Projection.Sample.asOf 1) =
      .error (.invalidTime s!"{build.tz.display forward} does not exist in {name.text}") := by decide +kernel
  refine ⟨?_,(reads.1 _ four).mp ⟨_,by rfl⟩,(reads.2 _ _ (held_exist four)).mp ?_,?_,?_⟩
  · cases view : project build Projection.Sample.policy (held (morning 4 four_legal)) (Projection.Sample.asOf 1) with
    | ok found => exact ⟨found,rfl⟩
    | error refusal => simp [view,Except.toOption] at computed
  · intro refusal failed
    simp [failed,Except.toOption] at computed
  · by_contra whole
    obtain ⟨window,read⟩ := (reads.1 _ one).mpr whole
    rw [unread] at read
    cases read
  · intro ends
    exact (reads.2 _ _ (held_exist one)).mpr ends _ refused ⟨forward,name.text,rfl⟩

end Sample

end Aicortex.WallTimes
