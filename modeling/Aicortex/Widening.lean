import Aicortex.ExactTimes

/-!
Widening the floating window. A floating time is read within a window either side,
so a larger window should only turn coverage from definite into possible, never end
it. Every edge moves outward but one: an interval that excludes its start possibly
starts only where the excluded point has certainly ended, which a larger window
puts later.
-/

namespace Aicortex.Widening
open Aicortex.CivilTime Aicortex.Claims Aicortex.History Aicortex.Windows Lib.Outcome
set_option linter.unusedSimpArgs false

/-! ### Windows under a larger floating window -/

/-- The policy with another floating window. -/
def floating (policy : ProjectionPolicy) (seconds : Nat) : ProjectionPolicy :=
  { policy with floatingWindowSeconds := seconds }

/-- A window of the same definite part that allows at least as much. -/
structure Widens (window wider : Window) : Prop where
  definite : wider.definite = window.definite
  start : wider.possible.1 ≤ window.possible.1
  stop : window.possible.2 ≤ wider.possible.2

theorem Widens.refl (window : Window) : Widens window window := ⟨rfl,le_refl _,le_refl _⟩

section
variable {tz : TzDatabase} {policy : ProjectionPolicy} {less more : Nat}

theorem zonedWindow_widens (wider : less ≤ more) {time : ZonedTime} {window : Window}
    (read : zonedWindow tz (floating policy less) time = .ok window) :
    ∃ next, zonedWindow tz (floating policy more) time = .ok next ∧ Widens window next := by
  obtain ⟨date,hour,minute,second,zone,legal⟩ := time
  cases zone with
  | offset seconds => exact ⟨window,read,.refl window⟩
  | iana name => exact ⟨window,read,.refl window⟩
  | floating =>
    obtain ⟨reading,named,result⟩ := bind_ok_iff.mp read
    cases result
    refine ⟨_,bind_ok_iff.mpr ⟨reading,named,rfl⟩,rfl,?_,?_⟩ <;>
    · simp only [floating]
      omega

theorem pointWindow_widens (wider : less ≤ more) {point : TimePoint} {window : Window}
    (read : pointWindow tz (floating policy less) point = .ok window) :
    ∃ next, pointWindow tz (floating policy more) point = .ok next ∧ Widens window next := by
  obtain ⟨value,uncertainty⟩ := point
  cases uncertainty with
  | some stated =>
    obtain ⟨first,earliest,rest⟩ := bind_ok_iff.mp read
    obtain ⟨last,latest,result⟩ := bind_ok_iff.mp rest
    cases result
    obtain ⟨first',earliest',firstWidens⟩ := zonedWindow_widens wider earliest
    obtain ⟨last',latest',lastWidens⟩ := zonedWindow_widens wider latest
    refine ⟨_,bind_ok_iff.mpr ⟨first',earliest',bind_ok_iff.mpr ⟨last',latest',rfl⟩⟩,rfl,?_,?_⟩
    · exact min_le_min firstWidens.start lastWidens.start
    · exact max_le_max firstWidens.stop lastWidens.stop
  | none =>
    cases value with
    | date date => exact ⟨window,read,.refl window⟩
    | dateTime time => exact zonedWindow_widens wider read

/-- What is definite of a point does not depend on the floating window. -/
theorem pointWindow_fixed {point : TimePoint} {window : Window} {range : Int × Int}
    (read : pointWindow tz (floating policy more) point = .ok window) (definite : window.definite = some range) :
    pointWindow tz (floating policy less) point = .ok window := by
  obtain ⟨value,uncertainty⟩ := point
  cases uncertainty with
  | some stated =>
    obtain ⟨first,-,rest⟩ := bind_ok_iff.mp read
    obtain ⟨last,-,result⟩ := bind_ok_iff.mp rest
    cases result
    cases definite
  | none =>
    cases value with
    | date date => exact read
    | dateTime time =>
      obtain ⟨date,hour,minute,second,zone,legal⟩ := time
      cases zone with
      | offset seconds => exact read
      | iana name => exact read
      | floating =>
        obtain ⟨reading,-,result⟩ := bind_ok_iff.mp read
        cases result
        cases definite

/-- An interval ends no earlier: both kinds of closed bound possibly end where the
    point's latest reading does. -/
theorem stopEdge_widens (wider : less ≤ more) {bound : Bound} {last : Option Int × Int}
    (read : stopEdge tz (floating policy less) bound = .ok last) :
    ∃ next, stopEdge tz (floating policy more) bound = .ok next ∧ next.1 = last.1 ∧ last.2 ≤ next.2 := by
  cases bound with
  | «open» => exact ⟨last,read,rfl,le_refl _⟩
  | inclusive point | exclusive point =>
    obtain ⟨window,found,result⟩ := bind_ok_iff.mp read
    cases result
    obtain ⟨next,found',widens⟩ := pointWindow_widens wider found
    exact ⟨_,bind_ok_iff.mpr ⟨next,found',rfl⟩,by simp [widens.definite],widens.stop⟩

/-- An interval starts no later, unless it excludes its start. -/
theorem startEdge_widens (wider : less ≤ more) {bound : Bound} {first : Option Int × Int}
    (read : startEdge tz (floating policy less) bound = .ok first) :
    ∃ next, startEdge tz (floating policy more) bound = .ok next ∧ next.1 = first.1 ∧
      (next.2 ≤ first.2 ∨ ∃ point window wide, bound = .exclusive point ∧
        pointWindow tz (floating policy less) point = .ok window ∧
        pointWindow tz (floating policy more) point = .ok wide ∧
        first.2 = window.possible.2 ∧ next.2 = wide.possible.2) := by
  cases bound with
  | «open» => exact ⟨first,read,rfl,.inl (le_refl _)⟩
  | inclusive point =>
    obtain ⟨window,found,result⟩ := bind_ok_iff.mp read
    cases result
    obtain ⟨next,found',widens⟩ := pointWindow_widens wider found
    exact ⟨_,bind_ok_iff.mpr ⟨next,found',rfl⟩,by simp [widens.definite],.inl widens.start⟩
  | exclusive point =>
    obtain ⟨window,found,result⟩ := bind_ok_iff.mp read
    cases result
    obtain ⟨next,found',widens⟩ := pointWindow_widens wider found
    exact ⟨_,bind_ok_iff.mpr ⟨next,found',rfl⟩,by simp [widens.definite],
      .inr ⟨point,window,next,rfl,found,found',rfl,rfl⟩⟩

/-! ### Exact queries -/

theorem exact_pointWindow_same {point : TimePoint} (exact' : exactPoint point = true) :
    pointWindow tz (floating policy less) point = pointWindow tz (floating policy more) point := by
  obtain ⟨value,uncertainty⟩ := point
  cases uncertainty with
  | some stated => simp [exactPoint] at exact'
  | none =>
    cases value with
    | date date => rfl
    | dateTime time =>
      obtain ⟨date,hour,minute,second,zone,legal⟩ := time
      cases zone with
      | iana name => simp [exactPoint,exactValue] at exact'
      | floating => simp [exactPoint,exactValue] at exact'
      | offset seconds => rfl

theorem exact_intervalWindow_same {start stop : Bound} (first : exactBound start = true) (last : exactBound stop = true) :
    intervalWindow tz (floating policy less) start stop = intervalWindow tz (floating policy more) start stop := by
  have starts : startEdge tz (floating policy less) start = startEdge tz (floating policy more) start := by
    cases start with
    | «open» => rfl
    | inclusive point | exclusive point => rw [startEdge,startEdge,exact_pointWindow_same first]
  have stops : stopEdge tz (floating policy less) stop = stopEdge tz (floating policy more) stop := by
    cases stop with
    | «open» => rfl
    | inclusive point | exclusive point => rw [stopEdge,stopEdge,exact_pointWindow_same last]
  rw [intervalWindow,intervalWindow,starts,stops]

/-- An exact query asks the same under every floating window. -/
theorem exact_boundWindow_same {bound : ValidBound} (exact' : exactQuery bound = true) :
    boundWindow tz (floating policy less) bound = boundWindow tz (floating policy more) bound := by
  cases bound with
  | instant point => exact exact_pointWindow_same exact'
  | interval interval =>
    simp only [exactQuery,Bool.and_eq_true] at exact'
    exact exact_intervalWindow_same exact'.1 exact'.2

end

/-! ### Coverage under a larger floating window -/

/-- The claim covers the query, definitely or possibly. -/
def Covers (tz : TzDatabase) (policy : ProjectionPolicy) (record : ClaimRecord) (bound : ValidBound) : Prop :=
  ∃ query certainty, boundWindow tz policy bound = .ok query ∧ coverage tz policy record query = .ok (some certainty)

/-- A window that covers another definitely, or allows all that it allows. -/
def Reaches (valid query : Window) : Prop :=
  coversDefinitely valid query = true ∨ valid.possible.1 ≤ query.possible.1 ∧ query.possible.2 ≤ valid.possible.2

section
variable {tz : TzDatabase} {policy : ProjectionPolicy}

theorem covers_iff {record : ClaimRecord} {bound : ValidBound} : Covers tz policy record bound ↔
    ∃ query valid, boundWindow tz policy bound = .ok query ∧ validWindow tz policy record = .ok valid ∧ Reaches valid query := by
  constructor
  · rintro ⟨query,certainty,asked,covered⟩
    obtain ⟨valid,read,outcome⟩ := bind_ok_iff.mp covered
    refine ⟨query,valid,asked,read,?_⟩
    split_ifs at outcome with definitely possibly
    · exact .inl definitely
    · exact .inr possibly
    · cases outcome
  · rintro ⟨query,valid,asked,read,definitely | possibly⟩
    · exact ⟨query,.definite,asked,bind_ok_iff.mpr ⟨valid,read,by rw [if_pos definitely]⟩⟩
    · by_cases definitely : coversDefinitely valid query = true
      · exact ⟨query,.definite,asked,bind_ok_iff.mpr ⟨valid,read,by rw [if_pos definitely]⟩⟩
      · exact ⟨query,.possible,asked,bind_ok_iff.mpr ⟨valid,read,by rw [if_neg definitely,if_pos possibly]⟩⟩

theorem Reaches.widens {valid wider query : Window} (reaches : Reaches valid query) (widens : Widens valid wider) :
    Reaches wider query := by
  rcases reaches with definitely | ⟨starts,stops⟩
  · exact .inl (by simpa [coversDefinitely,widens.definite] using definitely)
  · exact .inr ⟨widens.start.trans starts,stops.trans widens.stop⟩

end

/-- The claim's interval excludes its start and ends no earlier than the query; the
    excluded point has ended by the query's start as the smaller window reads it, and
    not as the larger one does. -/
def Overtaken (tz : TzDatabase) (policy : ProjectionPolicy) (less more : Nat) (record : ClaimRecord) (bound : ValidBound) :
    Prop :=
  ∃ interval point query narrow wide last, record.valid = .explicit interval ∧ interval.start = .exclusive point ∧
    boundWindow tz (floating policy less) bound = .ok query ∧
    pointWindow tz (floating policy less) point = .ok narrow ∧ pointWindow tz (floating policy more) point = .ok wide ∧
    stopEdge tz (floating policy less) interval.stop = .ok last ∧ query.possible.2 ≤ last.2 ∧
    narrow.possible.2 ≤ query.possible.1 ∧ query.possible.1 < wide.possible.2

section
variable {tz : TzDatabase} {policy : ProjectionPolicy} {less more : Nat}

/-- An overtaken claim covers the query under the smaller window alone. -/
theorem Overtaken.lost (wider : less ≤ more) {record : ClaimRecord} {bound : ValidBound}
    (exact' : exactQuery bound = true) (overtaken : Overtaken tz policy less more record bound) :
    Covers tz (floating policy less) record bound ∧ ¬ Covers tz (floating policy more) record bound := by
  obtain ⟨interval,point,query,narrow,wide,last,validIs,startIs,asked,found,found',ends,within,passed,ahead⟩ := overtaken
  have starts : startEdge tz (floating policy less) interval.start = .ok (narrow.definite.map (·.2),narrow.possible.2) := by
    rw [startIs,startEdge,found,ok_bind]
  have starts' : startEdge tz (floating policy more) interval.start = .ok (wide.definite.map (·.2),wide.possible.2) := by
    rw [startIs,startEdge,found',ok_bind]
  obtain ⟨last',ends',-,-⟩ := stopEdge_widens wider ends
  constructor
  · obtain ⟨definite,read⟩ : ∃ definite,
        validWindow tz (floating policy less) record = .ok ⟨definite,narrow.possible.2,last.2⟩ := by
      rw [validWindow,validIs]
      exact ⟨_,bind_ok_iff.mpr ⟨_,starts,bind_ok_iff.mpr ⟨last,ends,rfl⟩⟩⟩
    exact covers_iff.mpr ⟨query,_,asked,read,.inr ⟨passed,within⟩⟩
  · intro covers
    obtain ⟨query',valid,asked',read,reaches⟩ := covers_iff.mp covers
    obtain rfl := Except.ok.inj (asked.symm.trans ((exact_boundWindow_same exact').trans asked'))
    rw [validWindow,validIs] at read
    obtain ⟨first,starts'',rest⟩ := bind_ok_iff.mp read
    obtain rfl := Except.ok.inj (starts'.symm.trans starts'')
    obtain ⟨last'',-,result⟩ := bind_ok_iff.mp rest
    cases result
    rcases reaches with definitely | possibly
    · -- A definite excluded point has one window, and this one moved.
      cases definite : wide.definite with
      | none => simp [coversDefinitely,definite] at definitely
      | some range =>
        obtain rfl := Except.ok.inj (found.symm.trans (pointWindow_fixed found' definite))
        omega
    · exact absurd possibly.1 (not_le.mpr ahead)

theorem validWindow_widens (wider : less ≤ more) {record : ClaimRecord} {bound : ValidBound} {query valid : Window}
    (asked : boundWindow tz (floating policy less) bound = .ok query)
    (read : validWindow tz (floating policy less) record = .ok valid) (reaches : Reaches valid query)
    (kept : ¬ Overtaken tz policy less more record bound) :
    ∃ next, validWindow tz (floating policy more) record = .ok next ∧ Reaches next query := by
  unfold validWindow at read ⊢
  cases validIs : record.valid with
  | timeless =>
    rw [validIs] at read
    exact ⟨valid,read,reaches⟩
  | fromSourceTime =>
    simp only [validIs] at read ⊢
    cases sourceIs : record.sourceTime with
    | none => simp [sourceIs] at read
    | some point =>
      simp only [sourceIs] at read ⊢
      obtain ⟨window,found,result⟩ := bind_ok_iff.mp read
      cases result
      obtain ⟨next,found',widens⟩ := pointWindow_widens wider found
      refine ⟨_,bind_ok_iff.mpr ⟨next,found',rfl⟩,reaches.widens ⟨by simp [widens.definite],widens.start,le_refl _⟩⟩
  | explicit interval =>
    simp only [validIs] at read ⊢
    obtain ⟨first,starts,rest⟩ := bind_ok_iff.mp read
    obtain ⟨last,ends,result⟩ := bind_ok_iff.mp rest
    cases result
    obtain ⟨first',starts',sameStart,moved⟩ := startEdge_widens wider starts
    obtain ⟨last',ends',sameStop,later⟩ := stopEdge_widens wider ends
    refine ⟨_,bind_ok_iff.mpr ⟨first',starts',bind_ok_iff.mpr ⟨last',ends',rfl⟩⟩,?_⟩
    rw [sameStart,sameStop]
    rcases moved with earlier | ⟨point,narrow,wide,startIs,found,found',firstIs,firstIs'⟩
    · exact reaches.widens ⟨rfl,earlier,later⟩
    · rcases reaches with definitely | ⟨passed,within⟩
      · exact .inl definitely
      · refine .inr ⟨?_,within.trans later⟩
        by_contra ahead
        refine kept ⟨interval,point,query,narrow,wide,last,validIs,startIs,asked,found,found',ends,within,?_,?_⟩
        · exact firstIs ▸ passed
        · exact firstIs' ▸ not_le.mp ahead

end

theorem covers_widened_iff (tz : TzDatabase) (policy : ProjectionPolicy) (less more : Nat) (record : ClaimRecord)
    (bound : ValidBound) (exact' : exactQuery bound = true) (wider : less ≤ more) :
    (Covers tz (floating policy less) record bound → Covers tz (floating policy more) record bound) ↔
      ¬ Overtaken tz policy less more record bound := by
  constructor
  · intro keeps overtaken
    obtain ⟨before,after⟩ := overtaken.lost wider exact'
    exact after (keeps before)
  · intro kept covers
    obtain ⟨query,valid,asked,read,reaches⟩ := covers_iff.mp covers
    obtain ⟨next,read',reaches'⟩ := validWindow_widens wider asked read reaches kept
    exact covers_iff.mpr ⟨query,next,exact_boundWindow_same exact' ▸ asked,read',reaches'⟩

namespace Sample
open Claims.Sample History.Sample Projection.Sample

/-- Noon on the first of October, in no zone. -/
def noon : TimePoint := ⟨.dateTime ⟨⟨2026,some 10,some 1,Windows.Sample.first_legal⟩,12,none,none,.floating,by decide⟩,none⟩

/-- Any time after noon. -/
def afterNoon : ClaimRecord :=
  { record firstId "12A" 1 with valid := .explicit ⟨.exclusive noon,.open,by decide⟩ }

theorem second_legal : CivilTime.legalDate 2026 (some 10) (some 2) = true := by decide

def secondOctober : ValidBound := .instant ⟨.date ⟨2026,some 10,some 2,second_legal⟩,none⟩

/-- The day after is covered when the time is taken as written, and not within fourteen
    hours either side. -/
theorem widening_ends_coverage :
    ¬ ∀ (tz : TzDatabase) [Gregorian tz] (policy : ProjectionPolicy) (record : ClaimRecord) (bound : ValidBound)
      (less more : Nat),
      exactQuery bound = true → less ≤ more → Covers tz (floating policy less) record bound →
        Covers tz (floating policy more) record bound := by
  intro monotone
  have covered : Covers build.tz (floating policy 0) afterNoon secondOctober :=
    ⟨_,.possible,by rfl,by decide +kernel⟩
  obtain ⟨query,certainty,asked,covers⟩ :=
    monotone build.tz policy afterNoon secondOctober 0 (14 * 60 * 60) (by decide) (by decide) covered
  cases asked
  revert covers
  cases certainty <;> decide +kernel

/-- Within an hour either side the excluded noon is over by the day after. -/
theorem covers_widened_iff_hour :
    Covers build.tz (floating policy 0) afterNoon secondOctober ∧
      Covers build.tz (floating policy 3600) afterNoon secondOctober := by
  have covered : Covers build.tz (floating policy 0) afterNoon secondOctober := ⟨_,.possible,by rfl,by decide +kernel⟩
  refine ⟨covered,(covers_widened_iff build.tz policy 0 3600 afterNoon secondOctober (by decide) (by decide)).mpr ?_ covered⟩
  rintro ⟨interval,point,query,narrow,wide,last,validIs,startIs,asked,-,found,-,-,-,ahead⟩
  cases validIs
  cases startIs
  cases asked
  cases found
  revert ahead
  decide +kernel

end Sample

end Aicortex.Widening
