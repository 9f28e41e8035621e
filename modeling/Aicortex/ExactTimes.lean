import Aicortex.Projection
import Aicortex.Lib.Outcome

/-!
Exact times. A date or a time at a fixed offset has one reading, so its window has
the same definite and possible part, and nothing should be possible without being
definite. One edge is not so: an interval that excludes its end definitely stops
where that point starts, and possibly only where the point ends.
-/

namespace Aicortex.Windows
open Aicortex.Text Aicortex.CivilTime Aicortex.Claims Aicortex.History Lib.Outcome
set_option linter.unusedSimpArgs false

/-! ### Exact points, claims and queries -/

def exactValue : TimeValue → Bool
  | .date _ => true
  | .dateTime ⟨_,_,_,_,.offset _,_⟩ => true
  | .dateTime ⟨_,_,_,_,.iana _,_⟩ => false
  | .dateTime ⟨_,_,_,_,.floating,_⟩ => false

/-- A date or a time at a fixed offset, stated without uncertainty. -/
def exactPoint (point : TimePoint) : Bool := point.uncertainty.isNone && exactValue point.value

def exactBound (bound : Bound) : Bool := bound.point.all exactPoint

/-- The points a claim's valid time is stated by. -/
def exactRecord (record : ClaimRecord) : Bool :=
  match record.valid with
  | .timeless => true
  | .fromSourceTime => record.sourceTime.all exactPoint
  | .explicit interval => exactBound interval.start && exactBound interval.stop

def exactQuery : ValidBound → Bool
  | .instant point => exactPoint point
  | .interval interval => exactBound interval.start && exactBound interval.stop

/-! ### Windows of exact points -/

variable {tz : TzDatabase} {policy : ProjectionPolicy}

theorem dateStart_ok {date : CivilDate} {start : Int} (starts : dateStart tz date = .ok start) :
    tz.fromYmdOpt date.year (date.month.getD 1) (date.day.getD 1) = some start := by
  unfold dateStart at starts
  split at starts
  · rename_i day found
    cases starts
    exact found
  · cases starts

/-- A date does not end before it starts. -/
theorem dateStart_le_dateEnd [Gregorian tz] {date : CivilDate} {start stop : Int} (starts : dateStart tz date = .ok start)
    (ends : dateEnd tz date = .ok stop) : start ≤ stop := by
  have startIs := dateStart_ok starts
  rw [dateEnd,starts,ok_bind] at ends
  rcases date with ⟨year,month,day,legal⟩
  cases day with
  | some day =>
    have same : stop = start + 1 := by cases month <;> simpa [CivilDate.precision,eq_comm] using ends
    omega
  | none =>
    cases month with
    | none =>
      simp only [CivilDate.precision] at ends
      split at ends
      · rename_i last found
        cases ends
        exact Gregorian.ordered _ _ _ _ _ _ _ _ startIs found (.inl (Nat.lt_succ_self year))
      · cases ends
    | some month =>
      simp only [CivilDate.precision,Option.getD_some] at ends
      split_ifs at ends with last
      · split at ends
        · rename_i next found
          cases ends
          exact Gregorian.ordered _ _ _ _ _ _ _ _ startIs found (.inl (Nat.lt_succ_self year))
        · cases ends
      · split at ends
        · rename_i next found
          cases ends
          exact Gregorian.ordered _ _ _ _ _ _ _ _ startIs found (.inr ⟨rfl,.inl (Nat.lt_succ_self month)⟩)
        · cases ends

theorem precisionSeconds_pos (precision : Precision) : 0 < precisionSeconds precision := by
  cases precision <;> decide

/-- An exact point has one window, and it is not reversed. -/
theorem exact_pointWindow [Gregorian tz] {point : TimePoint} (exact' : exactPoint point = true) {window : Window}
    (read : pointWindow tz policy point = .ok window) :
    window.definite = some window.possible ∧ window.possible.1 ≤ window.possible.2 := by
  obtain ⟨value,uncertainty⟩ := point
  cases uncertainty with
  | some stated => simp [exactPoint] at exact'
  | none =>
    cases value with
    | date date =>
      obtain ⟨start,starts,rest⟩ := bind_ok_iff.mp read
      obtain ⟨stop,ends,result⟩ := bind_ok_iff.mp rest
      cases result
      have ordered := dateStart_le_dateEnd starts ends
      refine ⟨rfl,?_⟩
      simp only [secondsPerDay]
      omega
    | dateTime time =>
      obtain ⟨date,hour,minute,second,zone,legal⟩ := time
      cases zone with
      | iana name => simp [exactPoint,exactValue] at exact'
      | floating => simp [exactPoint,exactValue] at exact'
      | offset seconds =>
        obtain ⟨reading,-,result⟩ := bind_ok_iff.mp read
        cases result
        have wide := precisionSeconds_pos (ZonedTime.precision ⟨date,hour,minute,second,.offset seconds,legal⟩)
        refine ⟨rfl,?_⟩
        simp only
        omega

theorem exact_startEdge [Gregorian tz] {bound : Bound} (exact' : exactBound bound = true) {first : Option Int × Int}
    (read : startEdge tz policy bound = .ok first) : first.1 = some first.2 := by
  cases bound with
  | «open» =>
    cases read
    rfl
  | inclusive point =>
    obtain ⟨window,found,result⟩ := bind_ok_iff.mp read
    cases result
    simp [(exact_pointWindow exact' found).1]
  | exclusive point =>
    obtain ⟨window,found,result⟩ := bind_ok_iff.mp read
    cases result
    simp [(exact_pointWindow exact' found).1]

/-- The two ends of an exact bound are the same, but for an excluded point: definite
    where it starts, possible until it ends. -/
theorem exact_stopEdge [Gregorian tz] {bound : Bound} (exact' : exactBound bound = true) {last : Option Int × Int}
    (read : stopEdge tz policy bound = .ok last) :
    ∃ stop, last.1 = some stop ∧ stop ≤ last.2 ∧
      ((stop = last.2 ∧ ∀ point, bound ≠ .exclusive point) ∨ ∃ point window, bound = .exclusive point ∧
        pointWindow tz policy point = .ok window ∧ stop = window.possible.1 ∧ last.2 = window.possible.2) := by
  cases bound with
  | «open» =>
    cases read
    exact ⟨maxInstant,rfl,le_refl _,.inl ⟨rfl,fun _ => Bound.noConfusion⟩⟩
  | inclusive point =>
    obtain ⟨window,found,result⟩ := bind_ok_iff.mp read
    cases result
    exact ⟨window.possible.2,by simp [(exact_pointWindow exact' found).1],le_refl _,.inl ⟨rfl,fun _ => Bound.noConfusion⟩⟩
  | exclusive point =>
    obtain ⟨window,found,result⟩ := bind_ok_iff.mp read
    cases result
    obtain ⟨definite,ordered⟩ := exact_pointWindow exact' found
    exact ⟨window.possible.1,by simp [definite],ordered,.inr ⟨point,window,rfl,found,rfl,rfl⟩⟩

theorem intervalWindow_ok {start stop : Bound} {window : Window}
    (read : intervalWindow tz policy start stop = .ok window) :
    ∃ first last, startEdge tz policy start = .ok first ∧ stopEdge tz policy stop = .ok last ∧
      window.possible = (first.2,last.2) ∧
      ∀ lower upper, first.1 = some lower → last.1 = some upper → window.definite = some (lower,upper) := by
  obtain ⟨first,starts,rest⟩ := bind_ok_iff.mp read
  obtain ⟨last,ends,result⟩ := bind_ok_iff.mp rest
  cases result
  refine ⟨first,last,starts,ends,rfl,?_⟩
  intro lower upper lowerIs upperIs
  simp [lowerIs,upperIs]

/-- What an exact query asks about: one start, and an end no later than its possible end. -/
theorem exact_boundWindow [Gregorian tz] {bound : ValidBound} (exact' : exactQuery bound = true) {query : Window}
    (asked : boundWindow tz policy bound = .ok query) :
    ∃ stop, query.definite = some (query.possible.1,stop) ∧ stop ≤ query.possible.2 := by
  cases bound with
  | instant point =>
    obtain ⟨definite,-⟩ := exact_pointWindow exact' asked
    exact ⟨query.possible.2,definite,le_refl _⟩
  | interval interval =>
    simp only [exactQuery,Bool.and_eq_true] at exact'
    obtain ⟨first,last,starts,ends,possible,definite⟩ := intervalWindow_ok asked
    obtain ⟨stop,stopIs,ordered,-⟩ := exact_stopEdge exact'.2 ends
    refine ⟨stop,?_,?_⟩
    · rw [definite first.2 stop (exact_startEdge exact'.1 starts) stopIs,possible]
    · rw [possible]
      exact ordered

/-- A claim's interval starts at an instant and excludes a point with a window. -/
def EndsBefore (tz : TzDatabase) (policy : ProjectionPolicy) (record : ClaimRecord) (start : Int) (last : Window) : Prop :=
  ∃ interval point first, record.valid = .explicit interval ∧ interval.stop = .exclusive point ∧
    pointWindow tz policy point = .ok last ∧ startEdge tz policy interval.start = .ok first ∧ first.2 = start

theorem EndsBefore.unique {record : ClaimRecord} {start start' : Int} {last last' : Window}
    (ends : EndsBefore tz policy record start last) (ends' : EndsBefore tz policy record start' last') :
    start = start' ∧ last = last' := by
  obtain ⟨interval,point,first,validIs,excluded,found,starts,rfl⟩ := ends
  obtain ⟨interval',point',first',validIs',excluded',found',starts',rfl⟩ := ends'
  obtain rfl := ValidTime.explicit.inj (validIs.symm.trans validIs')
  obtain rfl := Bound.exclusive.inj (excluded.symm.trans excluded')
  rw [Except.ok.inj (starts.symm.trans starts'),Except.ok.inj (found.symm.trans found')]
  exact ⟨rfl,rfl⟩

/-- An exact claim's window: one start, and one end unless its interval excludes its end. -/
theorem exact_validWindow [Gregorian tz] {record : ClaimRecord} (exact' : exactRecord record = true) {valid : Window}
    (read : validWindow tz policy record = .ok valid) :
    ∃ stop, valid.definite = some (valid.possible.1,stop) ∧
      ((stop = valid.possible.2 ∧ ∀ start last, ¬ EndsBefore tz policy record start last) ∨
        ∃ last, EndsBefore tz policy record valid.possible.1 last ∧ stop = last.possible.1 ∧
          valid.possible.2 = last.possible.2) := by
  unfold exactRecord at exact'
  unfold validWindow at read
  cases validIs : record.valid with
  | timeless =>
    rw [validIs] at read
    cases read
    exact ⟨maxInstant,rfl,.inl ⟨rfl,by simp [EndsBefore,validIs]⟩⟩
  | fromSourceTime =>
    simp only [validIs] at read exact'
    cases sourceIs : record.sourceTime with
    | none => simp [sourceIs] at read
    | some point =>
      simp only [sourceIs,Option.all_some] at read exact'
      obtain ⟨window,found,result⟩ := bind_ok_iff.mp read
      cases result
      exact ⟨maxInstant,by simp [(exact_pointWindow exact' found).1],.inl ⟨rfl,by simp [EndsBefore,validIs]⟩⟩
  | explicit interval =>
    simp only [validIs,Bool.and_eq_true] at read exact'
    obtain ⟨first,last,starts,ends,possible,definite⟩ := intervalWindow_ok read
    obtain ⟨stop,stopIs,-,edges⟩ := exact_stopEdge exact'.2 ends
    refine ⟨stop,by rw [definite first.2 stop (exact_startEdge exact'.1 starts) stopIs,possible],?_⟩
    rw [possible]
    rcases edges with ⟨same,included⟩ | ⟨point,window,excluded,found,stopStarts,lastEnds⟩
    · refine .inl ⟨same,?_⟩
      rintro start last ⟨other,point,first,otherIs,excluded,-⟩
      obtain rfl := ValidTime.explicit.inj (validIs.symm.trans otherIs)
      exact included point excluded
    · exact .inr ⟨window,⟨interval,point,first,validIs,excluded,found,starts,rfl⟩,stopStarts,lastEnds⟩

/-! ### Coverage of exact queries by exact claims -/

/-- Never possible, and no candidate once the excluded end has come. -/
structure ExactlyCovered (tz : TzDatabase) (policy : ProjectionPolicy) (record : ClaimRecord) (query : Window) : Prop where
  neverPossible : coverage tz policy record query ≠ .ok (some .possible)
  expired : ∀ start last, EndsBefore tz policy record start last → last.possible.1 ≤ query.possible.1 →
    ∀ certainty, coverage tz policy record query ≠ .ok (some certainty)

/-- The interval excludes its end, starts no later than the query, and the query runs
    into the excluded point without running past it; or it is reversed around the
    point's first instant. -/
def ServedPastEnd (tz : TzDatabase) (policy : ProjectionPolicy) (record : ClaimRecord) (query : Window) : Prop :=
  ∃ start last stop, EndsBefore tz policy record start last ∧ query.definite.map (·.2) = some stop ∧
    start ≤ query.possible.1 ∧
    ((last.possible.1 < stop ∧ query.possible.2 ≤ last.possible.2) ∨
      (stop ≤ last.possible.1 ∧ last.possible.1 ≤ query.possible.1))

/-- Coverage by bounds, where both windows have one start. -/
theorem coverage_ok_iff {record : ClaimRecord} {query valid : Window} {stop asked : Int}
    (read : validWindow tz policy record = .ok valid) (definite : valid.definite = some (valid.possible.1,stop))
    (queried : query.definite = some (query.possible.1,asked)) (outcome : Option Certainty) :
    coverage tz policy record query = .ok outcome ↔ outcome =
      if valid.possible.1 ≤ query.possible.1 ∧ asked ≤ stop then some .definite
      else if valid.possible.1 ≤ query.possible.1 ∧ query.possible.2 ≤ valid.possible.2 then some .possible
      else none := by
  rw [coverage,read,ok_bind,coversDefinitely,definite,queried]
  simp only [Bool.and_eq_true,decide_eq_true_eq]
  split_ifs <;> simp [eq_comm]

theorem exactlyCovered_iff (tz : TzDatabase) [Gregorian tz] (policy : ProjectionPolicy) (record : ClaimRecord) (bound : ValidBound)
    (query : Window) (exactClaim : exactRecord record = true) (exactBound : exactQuery bound = true)
    (asked : boundWindow tz policy bound = .ok query) :
    ExactlyCovered tz policy record query ↔ ¬ ServedPastEnd tz policy record query := by
  obtain ⟨askedStop,queried,ordered⟩ := exact_boundWindow exactBound asked
  cases read : validWindow tz policy record with
  | error refusal =>
    have refused : coverage tz policy record query = .error refusal := by rw [coverage,read,error_bind]
    refine iff_of_true ⟨by simp [refused],by simp [refused]⟩ ?_
    rintro ⟨start,last,stop,⟨interval,point,first,validIs,excluded,found,starts,-⟩,-⟩
    simp [validWindow,validIs,intervalWindow,starts,stopEdge,excluded,found] at read
  | ok valid =>
    obtain ⟨stop,definite,edges⟩ := exact_validWindow exactClaim read
    have covered := coverage_ok_iff read definite queried
    rcases edges with ⟨same,endless⟩ | ⟨last,ends,stopIs,possibleIs⟩
    · refine iff_of_true ⟨?_,fun start last ends => absurd ends (endless start last)⟩ ?_
      · intro possible
        have outcome := (covered _).mp possible
        split_ifs at outcome with definitely possibly
        · cases outcome
        · exact definitely ⟨possibly.1,by omega⟩
      · rintro ⟨start,last,stop,ends,-⟩
        exact endless start last ends
    subst stopIs
    constructor
    · rintro exactly ⟨start,last',stop,ends',stopIs,begins,runs⟩
      obtain ⟨rfl,rfl⟩ := ends.unique ends'
      obtain rfl : askedStop = stop := by simpa [queried] using stopIs
      rcases runs with ⟨past,within⟩ | ⟨reversed,late⟩
      · refine exactly.neverPossible ((covered _).mpr ?_)
        rw [if_neg (fun definitely => absurd definitely.2 past.not_ge),if_pos ⟨begins,possibleIs ▸ within⟩]
      · refine exactly.expired _ _ ends late .definite ((covered _).mpr ?_)
        rw [if_pos ⟨begins,reversed⟩]
    · intro unserved
      have stopIs : query.definite.map (·.2) = some askedStop := by simp [queried]
      have runsPast : ¬ (valid.possible.1 ≤ query.possible.1 ∧ askedStop ≤ last.possible.1) →
          ¬ (valid.possible.1 ≤ query.possible.1 ∧ query.possible.2 ≤ valid.possible.2) := by
        rintro indefinite ⟨begins,within⟩
        refine unserved ⟨_,last,askedStop,ends,stopIs,begins,.inl ⟨?_,possibleIs ▸ within⟩⟩
        by_contra early
        exact indefinite ⟨begins,not_lt.mp early⟩
      refine ⟨?_,?_⟩
      · intro possible
        have outcome := (covered _).mp possible
        split_ifs at outcome with definitely possibly
        · cases outcome
        · exact runsPast definitely possibly
      · intro start last' ends' late certainty counted
        obtain ⟨rfl,rfl⟩ := ends.unique ends'
        have outcome := (covered _).mp counted
        split_ifs at outcome with definitely possibly
        · exact unserved ⟨_,last,askedStop,ends,stopIs,definitely.1,.inr ⟨definitely.2,late⟩⟩
        · exact runsPast definitely possibly

namespace Sample
open Claims.Sample History.Sample

def october (day : Nat) (legal : legalDate 2026 (some 10) (some day) = true) : TimePoint :=
  ⟨.date ⟨2026,some 10,some day,legal⟩,none⟩

theorem first_legal : legalDate 2026 (some 10) (some 1) = true := by decide

/-- From the first of October until, and not on, the third. -/
def untilThird : ClaimRecord :=
  { record firstId "12A" 1 with
    valid := .explicit ⟨.inclusive (october 1 first_legal),.exclusive (october 3 (by decide)),by decide⟩ }

/-- All of a day in October. -/
def octoberWindow (day : Int) : Window :=
  ⟨some ((20726 + day) * secondsPerDay,(20727 + day) * secondsPerDay),
    ((20726 + day) * secondsPerDay,(20727 + day) * secondsPerDay)⟩

theorem untilThird_ends : EndsBefore Projection.Sample.build.tz Projection.Sample.policy untilThird
    (20727 * secondsPerDay) (octoberWindow 3) :=
  ⟨_,october 3 (by decide),_,rfl,rfl,by decide +kernel,by rfl,by rfl⟩

end Sample

/-- On the second the claim covers the day outright. -/
theorem exactlyCovered_iff_second :
    coverage Projection.Sample.build.tz Projection.Sample.policy Sample.untilThird (Sample.octoberWindow 2) =
        .ok (some .definite) ∧
      ExactlyCovered Projection.Sample.build.tz Projection.Sample.policy Sample.untilThird (Sample.octoberWindow 2) := by
  refine ⟨by decide +kernel,(exactlyCovered_iff Projection.Sample.build.tz Projection.Sample.policy Sample.untilThird
    (.instant (Sample.october 2 (by decide))) _ (by decide) (by decide) (by decide +kernel)).mpr ?_⟩
  rintro ⟨start,last,stop,ends,stopIs,-,runs⟩
  obtain ⟨-,rfl⟩ := ends.unique Sample.untilThird_ends
  obtain rfl := Option.some.inj stopIs
  revert runs
  decide

/-- On the day it excludes, the claim is served as possible. -/
theorem excluded_day_possible :
    ¬ ∀ (tz : TzDatabase) [Gregorian tz] (policy : ProjectionPolicy) (record : ClaimRecord) (bound : ValidBound) (query : Window),
      exactRecord record = true → exactQuery bound = true → boundWindow tz policy bound = .ok query →
        ExactlyCovered tz policy record query := by
  intro always
  have covered := always Projection.Sample.build.tz Projection.Sample.policy Sample.untilThird (.instant (Sample.october 3 (by decide)))
    (Sample.octoberWindow 3) (by decide) (by decide) (by decide +kernel)
  exact covered.neverPossible (by decide +kernel)

end Aicortex.Windows
