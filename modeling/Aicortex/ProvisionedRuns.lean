import Aicortex.ProvisionedFiles

/-!
Provisioning over whole runs. Calls have their files to themselves, so what holds of a call
a step of another leaves; a power loss ends every call and takes nothing that was made to
last. An artifact that is there is found and not fetched again.
-/

namespace Aicortex.Provisioning
open Aicortex.Text Aicortex.Endpoints
open Aicortex.ScopeIdentity (hex)
open Lib.Disks Lib.StaleRuns Lib.Disks.Disk
set_option linter.unusedSimpArgs false

/-- What holds of a call at any time; where the machine was restarted, of what lasts. -/
structure Upright (machine : Machine) (site : Site) (call : Call) : Prop where
  listed : call.artifact ∈ machine.artifacts
  boot : call.boot ≤ site.boot
  live : call.phase.live = true → call.boot = site.boot
  fact : call.boot = site.boot → Fact machine site.disk call
  lasting : call.phase = .ended (.ok ⟨⟩) → call.asked.isSome = true → Lasting machine site.disk call.artifact
  asked : ∀ endpoint, call.asked = some endpoint →
    parseHttpsEndpoint call.artifact.url = .ok endpoint ∧ machine.granted endpoint.host = true

/-- No two calls hold one name or one file. -/
def Apart (calls : List Call) : Prop :=
  ∀ (i j : Nat) (one two : Call), i ≠ j → calls[i]? = some one → calls[j]? = some two →
    ∀ left ∈ one.phase.holds, ∀ right ∈ two.phase.holds, left.1 ≠ right.1 ∧ left.2 ≠ right.2

/-- What every action keeps. -/
structure Kept (machine : Machine) (initial : Disk String UInt8) (site : Site) : Prop where
  onto : Onto initial site.disk
  stored : ∀ artifact ∈ machine.artifacts, Stored machine initial site.disk artifact
  calls : ∀ call ∈ site.calls, Upright machine site call
  apart : Apart site.calls

section
variable {machine : Machine} {initial disk next : Disk String UInt8} {site after : Site} {call later : Call} {index : Nat}

theorem Phase.live_of_holds {phase : Phase} {hold : String × Nat} (holds : hold ∈ phase.holds) : phase.live = true := by
  cases phase <;> first | rfl | cases holds

/-- What a call holds is there. -/
theorem Fact.held {hold : String × Nat} (fact : Fact machine disk call) (holds : hold ∈ call.phase.holds) :
    (disk.entries hold.1).isSome = true ∧ hold.2 < disk.files.length := by
  obtain ⟨artifact,phase,boot,asked⟩ := call
  cases phase with
  | writing bytes name file written =>
    cases holds
    obtain ⟨-,content,under,-⟩ := fact
    exact ⟨by simp [under],(List.getElem?_eq_some_iff.mp content).1⟩
  | synced name file =>
    cases holds
    obtain ⟨⟨_,content,-,-⟩,under,-⟩ := fact
    exact ⟨by simp [under],(List.getElem?_eq_some_iff.mp content).1⟩
  | _ => cases holds

theorem Upright.held {hold : String × Nat} (upright : Upright machine site call) (holds : hold ∈ call.phase.holds) :
    (site.disk.entries hold.1).isSome = true ∧ hold.2 < site.disk.files.length :=
  (upright.fact (upright.live (Phase.live_of_holds holds))).held holds

/-- A call that starts. -/
theorem arrive_kept {artifact : WeightArtifact} (kept : Kept machine initial site) (listed : artifact ∈ machine.artifacts) :
    Kept machine initial { site with calls := site.calls ++ [⟨artifact,.arrived,site.boot,none⟩] } := by
  refine ⟨kept.onto,kept.stored,?_,?_⟩
  · intro call member
    rcases List.mem_append.mp member with before | arrived
    · exact ⟨(kept.calls call before).listed,(kept.calls call before).boot,(kept.calls call before).live,
        (kept.calls call before).fact,(kept.calls call before).lasting,(kept.calls call before).asked⟩
    · rw [List.mem_singleton.mp arrived]
      exact ⟨listed,Nat.le_refl _,fun _ => rfl,fun _ => rfl,nofun,nofun⟩
  · intro i j one two apart oneIs twoIs left leftHolds right rightHolds
    have earlier : ∀ {i : Nat} {call : Call}, (site.calls ++ [⟨artifact,.arrived,site.boot,none⟩])[i]? = some call →
        ∀ hold ∈ call.phase.holds, site.calls[i]? = some call := by
      intro i call is hold holds
      by_cases inside : i < site.calls.length
      · rwa [List.getElem?_append_left inside] at is
      · rw [List.getElem?_append_right (Nat.le_of_not_lt inside)] at is
        rw [List.mem_singleton.mp (List.mem_of_getElem? is)] at holds
        cases holds
    exact kept.apart i j one two apart (earlier oneIs left leftHolds) (earlier twoIs right rightHolds) left leftHolds right rightHolds

/-- What holds of a call that did not move. -/
theorem other_upright (consistent : Consistent machine) (kept : Kept machine initial site)
    (is : site.calls[index]? = some call) (advanced : Advanced machine site.disk next call later) {j : Nat} {other : Call}
    (apart : j ≠ index) (there : site.calls[j]? = some other) :
    Upright machine { site with disk := next, calls := site.calls.set index later } other := by
  have upright := kept.calls other (List.mem_of_getElem? there)
  have others : ∀ hold ∈ call.phase.holds, ∀ own ∈ other.phase.holds, hold.1 ≠ own.1 ∧ hold.2 ≠ own.2 :=
    fun hold holds own owns => kept.apart index j call other apart.symm is there hold holds own owns
  exact ⟨upright.listed,upright.boot,upright.live,
    fun same => advanced.spares.fact consistent upright.listed others (upright.fact same),
    fun ended asked => advanced.spares.lasting upright.listed (upright.lasting ended asked),upright.asked⟩

theorem Fact.lasting (fact : Fact machine disk call) (ended : call.phase = .ended (.ok ⟨⟩)) (asked : call.asked.isSome = true) :
    Lasting machine disk call.artifact := by
  unfold Fact at fact
  rw [ended] at fact
  exact fact.2 asked

theorem advance_live {step : Step} (advanced : advance machine disk call step = some (next,later)) :
    call.phase.live = true := by
  cases phase : call.phase with
  | ended result => cases step <;> simp [advance,fail,phase,Phase.live] at advanced
  | dead => cases step <;> simp [advance,fail,phase,Phase.live] at advanced
  | _ => rfl

/-- A step of one call. -/
theorem advance_kept {step : Step} (consistent : Consistent machine) (settled : Settled initial)
    (kept : Kept machine initial site) (is : site.calls[index]? = some call)
    (moved : advance machine site.disk call step = some (next,later)) :
    Kept machine initial { site with disk := next, calls := site.calls.set index later } := by
  have upright := kept.calls call (List.mem_of_getElem? is)
  have boot := upright.live (advance_live moved)
  have advanced := advanced_of_advance consistent settled kept.onto upright.listed (kept.stored _ upright.listed)
    (upright.fact boot) moved
  obtain ⟨sameArtifact,sameBoot⟩ := advanced.same
  have inside : index < site.calls.length := (List.getElem?_eq_some_iff.mp is).1
  refine ⟨kept.onto.trans advanced.spares.onto,fun artifact listed => advanced.spares.stored listed (kept.stored artifact listed),?_,?_⟩
  · intro other member
    obtain ⟨j,bound,rfl⟩ := List.mem_iff_getElem.mp member
    have bound : j < site.calls.length := by simpa using bound
    by_cases same : j = index
    · subst same
      rw [List.getElem_set_self]
      refine ⟨sameArtifact ▸ upright.listed,sameBoot ▸ upright.boot,fun _ => sameBoot.trans boot,fun _ => advanced.fact,
        advanced.fact.lasting,?_⟩
      intro endpoint asked
      rcases advanced.asked with before | ⟨endpoint',is',parsed,granted⟩
      · rw [sameArtifact]
        exact upright.asked endpoint (before.symm.trans asked)
      · rw [is'] at asked
        cases asked
        rw [sameArtifact]
        exact ⟨parsed,granted⟩
    · rw [List.getElem_set_ne (Ne.symm same)]
      exact other_upright consistent kept is advanced same (List.getElem?_eq_getElem bound)
  · -- what the call holds now it held before, or has just made
    have fresh : ∀ {j : Nat} {other : Call}, j ≠ index → site.calls[j]? = some other →
        ∀ own ∈ later.phase.holds, ∀ hold ∈ other.phase.holds, own.1 ≠ hold.1 ∧ own.2 ≠ hold.2 := by
      intro j other apart there own owns hold holds
      rcases advanced.holds own owns with before | ⟨free,latest⟩
      · exact kept.apart index j call other apart.symm is there own before hold holds
      · obtain ⟨under,made⟩ := (kept.calls other (List.mem_of_getElem? there)).held holds
        refine ⟨fun same => ?_,fun same => ?_⟩
        · rw [← same,free] at under
          cases under
        · rw [← same,latest] at made
          exact Nat.lt_irrefl _ made
    intro i j one two apart oneIs twoIs left leftHolds right rightHolds
    by_cases first : i = index
    · subst first
      rw [List.getElem?_set_self inside] at oneIs
      rw [List.getElem?_set_ne apart] at twoIs
      cases oneIs
      exact fresh apart.symm twoIs left leftHolds right rightHolds
    · rw [List.getElem?_set_ne (Ne.symm first)] at oneIs
      by_cases second : j = index
      · subst second
        rw [List.getElem?_set_self inside] at twoIs
        cases twoIs
        obtain ⟨names,files⟩ := fresh first oneIs right rightHolds left leftHolds
        exact ⟨names.symm,files.symm⟩
      · rw [List.getElem?_set_ne (Ne.symm second)] at twoIs
        exact kept.apart i j one two apart oneIs twoIs left leftHolds right rightHolds

theorem lose_artifact (call : Call) : call.lose.artifact = call.artifact ∧ call.lose.boot = call.boot ∧ call.lose.asked = call.asked := by
  unfold Call.lose
  split_ifs <;> exact ⟨rfl,rfl,rfl⟩

/-- After a power loss no call is running. -/
theorem lose_live (call : Call) : call.lose.phase.live = false := by
  unfold Call.lose
  split_ifs with live
  · rfl
  · simpa using live

theorem lose_holds (call : Call) : call.lose.phase.holds = none := by
  cases holds : call.lose.phase.holds with
  | none => rfl
  | some hold =>
    have live : call.lose.phase.live = true := Phase.live_of_holds holds
    rw [lose_live] at live
    cases live

theorem lose_ended {result : Except ChassisError PUnit} (ended : call.lose.phase = .ended result) : call.phase = .ended result := by
  unfold Call.lose at ended
  split_ifs at ended
  · cases ended
  · exact ended

theorem powerLoss_lasting {artifact : WeightArtifact} (left : String → Option Nat) (chosen : Nat → List UInt8)
    (lasting : Lasting machine disk artifact) : Lasting machine (disk.powerLoss left chosen) artifact := by
  intro entry member
  rcases lasting entry (powerLoss_possible member) with gone | ⟨file,is,whole⟩
  · exact .inl gone
  · exact .inr ⟨file,is,whole.onto (powerLoss_onto left chosen disk)⟩

theorem powerLoss_kept (left : String → Option Nat) (chosen : Nat → List UInt8) (kept : Kept machine initial site) :
    Kept machine initial
      { disk := site.disk.powerLoss left chosen, calls := site.calls.map Call.lose, boot := site.boot + 1 } := by
  have onto := powerLoss_onto left chosen site.disk
  refine ⟨kept.onto.trans onto,?_,?_,?_⟩
  · intro artifact listed entry member
    rcases kept.stored artifact listed entry (powerLoss_possible member) with old | ⟨file,is,whole⟩
    · exact .inl old
    · exact .inr ⟨file,is,whole.onto onto⟩
  · intro lost member
    obtain ⟨call,before,rfl⟩ := List.mem_map.mp member
    have upright := kept.calls call before
    obtain ⟨artifact,boot,asked⟩ := lose_artifact call
    refine ⟨by rw [artifact]; exact upright.listed,by rw [boot]; exact Nat.le_succ_of_le upright.boot,?_,?_,?_,?_⟩
    · intro live
      rw [lose_live] at live
      cases live
    · -- a call of this start of the machine would be of one to come
      intro same
      rw [boot] at same
      exact absurd upright.boot (by simp only at same; omega)
    · intro ended was
      rw [asked] at was
      rw [artifact]
      exact powerLoss_lasting left chosen (upright.lasting (lose_ended ended) was)
    · intro endpoint was
      rw [asked] at was
      rw [artifact]
      exact upright.asked endpoint was
  · intro i j one two _ oneIs _ hold holds
    obtain ⟨call,-,rfl⟩ := List.mem_map.mp (List.mem_of_getElem? oneIs)
    rw [lose_holds] at holds
    cases holds

/-- What an action does to a call's place in the list. -/
theorem apply_kept {action : Action} (consistent : Consistent machine) (settled : Settled initial)
    (kept : Kept machine initial site) (listed : Listed machine action) (applied : apply machine site action = .ok after) :
    Kept machine initial after := by
  cases action with
  | arrive artifact =>
    cases applied
    exact arrive_kept kept listed
  | advance index step =>
    dsimp only [apply] at applied
    split at applied
    · cases applied
    · next call is =>
      split at applied
      · cases applied
      · next next later moved =>
        cases applied
        exact advance_kept consistent settled kept is moved
  | powerLoss left chosen =>
    cases applied
    exact powerLoss_kept left chosen kept

theorem initial_kept (settled : Settled initial) : Kept machine initial ⟨initial,[],0⟩ := by
  refine ⟨Onto.refl initial,?_,nofun,fun _ _ _ _ _ is => by cases is⟩
  intro artifact _ entry member
  exact .inl (settled.possible member)

theorem keeps (consistent : Consistent machine) (settled : Settled initial) :
    System.Keeps (system machine initial) (fun _ _ => True) (fun _ => Listed machine) (Kept machine initial) (fun _ _ => True) where
  still := fun _ => trivial
  onward := fun _ _ _ _ _ => trivial
  initial := initial_kept settled
  move := fun _ _ _ _ _ kept listed _ applied => ⟨apply_kept consistent settled kept listed applied,trivial⟩

theorem fits (machine : Machine) (initial : Disk String UInt8) : (system machine initial).Fits (fun _ => Listed machine) := by
  intro history action listed move member
  rw [List.mem_singleton.mp member]
  exact listed

/-- The directories a step makes. -/
def Step.made : Step → List String
  | .confine made _ => made
  | .place made _ => made
  | _ => []

end

/-! ### An artifact that is there -/

/-- A call that finds the artifact it is for, as far as it has come. -/
def Found (machine : Machine) (disk : Disk String UInt8) (call : Call) : Prop :=
  call.asked = none ∧ Present machine disk call.artifact ∧
    match call.phase with
    | .arrived => True
    | .opening last => last = false
    | .verifying last file _ => last = false ∧ Whole disk (Pinned machine call.artifact) file
    | .ended _ => True
    | .dead => True
    | _ => False

section
variable {machine : Machine} {initial disk next : Disk String UInt8} {site after : Site} {call later : Call} {index : Nat}

theorem Spares.found {held : Option (String × Nat)} (spares : Spares machine held disk next)
    (listed : call.artifact ∈ machine.artifacts) (found : Found machine disk call) : Found machine next call := by
  obtain ⟨unasked,present,stands⟩ := found
  refine ⟨unasked,spares.present listed present,?_⟩
  obtain ⟨artifact,phase,boot,asked⟩ := call
  cases phase with
  | verifying last file read => exact ⟨stands.1,stands.2.onto spares.onto⟩
  | _ => exact stands

/-- A call that has found the artifact, and what it ends in unless it succeeds. -/
structure Goes (machine : Machine) (disk : Disk String UInt8) (call : Call) (step : Step) (later : Call) : Prop where
  found : Found machine disk later
  same : later.artifact = call.artifact
  ended : ∀ error, later.phase = .ended (.error error) → ∃ made, step = .confine made (some error)

end

namespace Sample

/-- An artifact of two bytes, each its own digest. -/
def artifact : WeightArtifact := ⟨"models/model.bin","https://models.example/model.bin","0102"⟩

def machine : Machine := ⟨id,fun host => host == "models.example",[artifact]⟩

def empty : Disk String UInt8 := ⟨[],fun _ => none,fun _ => [],fun _ => false⟩

/-- A fetch from the first look to the last. -/
def fetch : List Action := .arrive artifact :: [Step.confine [] none,.open,.permit none,.download (.ok [1,2]),.place [] none,
  .reserve 1 0,.write 1,.write 1,.sync,.rename,.syncDirectory,.open,.read 2,.read 1].map (.advance 0)

/-- Another call, which finds what the first has fetched. -/
def find : List Action := .arrive artifact :: [Step.confine [] none,.open,.read 1,.read 1,.read 1].map (.advance 1)

def log (actions : List Action) : List (Action × Site) := actions.foldl (system machine empty).extend []

def site (actions : List Action) : Site := (system machine empty).current (log actions)

theorem consistent : Consistent machine := by
  constructor
  · intro one oneIn two twoIn _
    rw [List.mem_singleton.mp oneIn,List.mem_singleton.mp twoIn]
  · intro one oneIn two twoIn pid sequence same
    rw [List.mem_singleton.mp oneIn,List.mem_singleton.mp twoIn] at same
    have lengths := congrArg String.length same
    have longer : artifact.path.length < artifact.path.length + ".partial-".length := by decide
    simp only [temporaryName,String.length_append] at lengths
    omega

theorem settled : Settled empty := ⟨nofun,fun _ => rfl,fun _ => rfl,nofun⟩

/-- What the second call does once it has started. -/
def newer : List (Action × Site) := (log (fetch ++ find)).take 5

def older : List (Action × Site) := (log (fetch ++ find)).drop 5

end Sample

end Aicortex.Provisioning
