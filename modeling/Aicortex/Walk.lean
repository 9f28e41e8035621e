import Aicortex.Text
import Mathlib.Data.List.Nodup

/-!
The walk both gates are sequenced by. Each rule is a step registered as a required
check of one closed gate; the gate's decision carries no payload, so the deciding
step is found again by its id and judged once more to recover its reason. The
closed gate itself is linked code: it is a parameter here, together with the
behaviour it documents.
-/

namespace Aicortex.Walk
set_option linter.unusedSimpArgs false

/-! ### The closed gate -/

inductive Outcome where
  | allow
  | degrade
  | deny
  deriving Repr, DecidableEq

structure Decision where
  outcome : Outcome
  reason : String
  checkIds : List String
  blocking : Bool
  deriving Repr, DecidableEq

/-- A registered check and what it answers on the evaluated context. -/
structure Check where
  id : String
  answer : Option Decision
  deriving Repr, DecidableEq

/-- Closed evaluation of registered checks against required ids, and the reasons of
    the refusals the gate makes itself. -/
structure ClosedGate where
  evaluate : List Check → List String → Decision
  requiredUnregistered : String
  requiredUndecided : String
  noCheckDecided : String

/-- A check that ends the walk. -/
def Check.Blocks (check : Check) : Prop :=
  ∃ decision, check.answer = some decision ∧ decision.outcome = .deny ∧ decision.blocking = true

def Check.Answers (check : Check) (outcome : Outcome) : Prop :=
  ∃ decision, check.answer = some decision ∧ decision.outcome = outcome

/-- The documented behaviour of closed mode, for an evaluation whose requirements
    are all registered: checks run in registration order, a blocking denial ends
    the walk and outranks any degrade, otherwise the first degrade decides, and the
    decision names the deciding check first. -/
structure ClosedGate.Lawful (closed : ClosedGate) : Prop where
  denies : ∀ (before after : List Check) (check : Check) (required : List String),
    (∀ id ∈ required, ∃ other ∈ before ++ check :: after, other.id = id) →
    (∀ other ∈ before, other.Answers .allow ∨ other.Answers .degrade) → check.Blocks →
    (closed.evaluate (before ++ check :: after) required).outcome = .deny ∧
      (closed.evaluate (before ++ check :: after) required).checkIds.head? = some check.id
  degrades : ∀ (before after : List Check) (check : Check) (required : List String),
    (∀ id ∈ required, ∃ other ∈ before ++ check :: after, other.id = id) →
    (∀ other ∈ before, other.Answers .allow) → check.Answers .degrade →
    (∀ other ∈ after, other.Answers .allow ∨ other.Answers .degrade) →
    (closed.evaluate (before ++ check :: after) required).outcome = .degrade ∧
      (closed.evaluate (before ++ check :: after) required).checkIds.head? = some check.id
  allows : ∀ (checks : List Check) (required : List String), checks ≠ [] →
    (∀ id ∈ required, ∃ other ∈ checks, other.id = id) → (∀ other ∈ checks, other.Answers .allow) →
    (closed.evaluate checks required).outcome = .allow

/-! ### Steps -/

/-- What one step makes of the subject. -/
inductive Judged (R : Type) where
  | pass
  | hold (reason : R)
  | fault (reason : R)
  deriving Repr, DecidableEq

structure Step (S R : Type) where
  id : String
  judge : S → Judged R

/-- The outcome of a walk, with the deciding step's reason. -/
inductive Walked (R : Type) where
  | pass
  | hold (reason : R)
  | fault (reason : R)
  deriving Repr, DecidableEq

section
variable {S R : Type}

/-- A step registered on the closed gate with its share of the subject. -/
def stepCheck (subject : S) (step : Step S R) : Check where
  id := step.id
  answer := some (match step.judge subject with
    | .pass => ⟨.allow,s!"aicortex:allow:{step.id}:clean",[step.id],false⟩
    | .hold _ => ⟨.degrade,s!"aicortex:degrade:{step.id}",[step.id],false⟩
    | .fault _ => ⟨.deny,s!"aicortex:deny:{step.id}",[step.id],true⟩)

/-- The code of a walk whose deciding step judged differently the second time. -/
def walkInconsistent : String := "aicortex:deny:walk:inconsistent"

def walkCode (closed : ClosedGate) (reason : String) : String :=
  ([closed.requiredUnregistered,closed.requiredUndecided,closed.noCheckDecided].find? (· == reason)).getD
    walkInconsistent

/-- Run the steps over the subject as one closed gate. -/
def walk (closed : ClosedGate) (subject : S) (steps : List (Step S R)) (required : List String)
    (walkFault : String → R) : Walked R :=
  let decision := closed.evaluate (steps.map (stepCheck subject)) required
  if decision.outcome = .allow then .pass
  else
    let decided : Option (Judged R) := (decision.checkIds.head?.bind (fun id => steps.find? (·.id == id))).map (·.judge subject)
    match decision.outcome, decided with
    | .degrade, some (.hold reason) => .hold reason
    | .deny, some (.fault reason) => .fault reason
    | _, _ => .fault (walkFault (walkCode closed decision.reason))

/-- Two subjects that every step judges alike are walked alike. -/
theorem walk_congr (closed : ClosedGate) {first second : S} {steps : List (Step S R)}
    (alike : ∀ step ∈ steps, step.judge first = step.judge second) (required : List String) (walkFault : String → R) :
    walk closed first steps required walkFault = walk closed second steps required walkFault := by
  have checks : steps.map (stepCheck first) = steps.map (stepCheck second) := by
    apply List.map_congr_left
    intro step stepIn
    simp only [stepCheck,alike step stepIn]
  have judged : ∀ id, (steps.find? (·.id == id)).map (·.judge first) = (steps.find? (·.id == id)).map (·.judge second) := by
    intro id
    cases found : steps.find? (·.id == id) with
    | none => rfl
    | some step => exact congrArg some (alike step (List.mem_of_find?_eq_some found))
  simp only [walk,checks]
  cases named : (closed.evaluate (steps.map (stepCheck second)) required).checkIds.head? with
  | none => rfl
  | some id => simp only [Option.bind_some,judged]

/-! ### The chain the walk amounts to -/

def Judged.fault? : Judged R → Option R
  | .fault reason => some reason
  | _ => none

def Judged.hold? : Judged R → Option R
  | .hold reason => some reason
  | _ => none

@[simp] theorem Judged.fault?_pass : (Judged.pass : Judged R).fault? = none := rfl
@[simp] theorem Judged.fault?_hold (reason : R) : (Judged.hold reason).fault? = none := rfl
@[simp] theorem Judged.fault?_fault (reason : R) : (Judged.fault reason).fault? = some reason := rfl
@[simp] theorem Judged.hold?_pass : (Judged.pass : Judged R).hold? = none := rfl
@[simp] theorem Judged.hold?_hold (reason : R) : (Judged.hold reason).hold? = some reason := rfl
@[simp] theorem Judged.hold?_fault (reason : R) : (Judged.fault reason).hold? = none := rfl

/-- The first refusal, else the first hold, else a pass. -/
def chain (subject : S) (steps : List (Step S R)) : Walked R :=
  match steps.findSome? (fun step => (step.judge subject).fault?) with
  | some reason => .fault reason
  | none =>
    match steps.findSome? (fun step => (step.judge subject).hold?) with
    | some reason => .hold reason
    | none => .pass

private theorem find_by_id {steps : List (Step S R)} (distinct : (steps.map (·.id)).Nodup) (step : Step S R)
    (member : step ∈ steps) : steps.find? (fun other => other.id == step.id) = some step := by
  induction steps with
  | nil => simp at member
  | cons head rest ih =>
    rw [List.map_cons,List.nodup_cons] at distinct
    rcases List.mem_cons.mp member with rfl | inside
    · simp
    · have different : head.id ≠ step.id := fun same => distinct.1 (same ▸ List.mem_map_of_mem inside)
      simp [different,ih distinct.2 inside]

private theorem stepCheck_answers (subject : S) (step : Step S R) :
    (step.judge subject = .pass ∧ (stepCheck subject step).Answers .allow) ∨
      (∃ reason, step.judge subject = .hold reason ∧ (stepCheck subject step).Answers .degrade) ∨
      ∃ reason, step.judge subject = .fault reason ∧ (stepCheck subject step).Blocks := by
  cases judged : step.judge subject with
  | pass => exact .inl ⟨rfl,_,rfl,by simp [judged]⟩
  | hold reason => exact .inr (.inl ⟨reason,rfl,_,rfl,by simp [judged]⟩)
  | fault reason => exact .inr (.inr ⟨reason,rfl,_,rfl,by simp [judged],by simp [judged]⟩)

private theorem registered (subject : S) (steps : List (Step S R)) :
    ∀ id ∈ steps.map (·.id), ∃ other ∈ steps.map (stepCheck subject), other.id = id := by
  intro id member
  obtain ⟨step,stepIn,rfl⟩ := List.mem_map.mp member
  exact ⟨stepCheck subject step,List.mem_map_of_mem stepIn,rfl⟩

private theorem no_fault_answers {subject : S} {steps : List (Step S R)}
    (clean : ∀ step ∈ steps, (step.judge subject).fault? = none) :
    ∀ other ∈ steps.map (stepCheck subject), other.Answers .allow ∨ other.Answers .degrade := by
  intro other member
  obtain ⟨step,stepIn,rfl⟩ := List.mem_map.mp member
  rcases stepCheck_answers subject step with ⟨-,allows⟩ | ⟨reason,-,degrades⟩ | ⟨reason,judged,-⟩
  · exact .inl allows
  · exact .inr degrades
  · exact absurd (clean step stepIn) (by simp [judged])

private theorem all_pass_answers {subject : S} {steps : List (Step S R)}
    (clean : ∀ step ∈ steps, (step.judge subject).fault? = none) (free : ∀ step ∈ steps, (step.judge subject).hold? = none) :
    ∀ other ∈ steps.map (stepCheck subject), other.Answers .allow := by
  intro other member
  obtain ⟨step,stepIn,rfl⟩ := List.mem_map.mp member
  rcases stepCheck_answers subject step with ⟨-,allows⟩ | ⟨reason,judged,-⟩ | ⟨reason,judged,-⟩
  · exact allows
  · exact absurd (free step stepIn) (by simp [judged])
  · exact absurd (clean step stepIn) (by simp [judged])

/-- A walk that requires exactly its own steps, with distinct ids, is the plain
    chain over them. -/
theorem walk_eq_chain {closed : ClosedGate} (lawful : closed.Lawful) (subject : S) (steps : List (Step S R))
    (required : List String) (nonempty : steps ≠ []) (distinct : (steps.map (·.id)).Nodup)
    (exactly : ∀ id, id ∈ required ↔ id ∈ steps.map (·.id)) (walkFault : String → R) :
    walk closed subject steps required walkFault = chain subject steps := by
  have known : ∀ id ∈ required, ∃ other ∈ steps.map (stepCheck subject), other.id = id := fun id member =>
    registered subject steps id ((exactly id).mp member)
  unfold chain
  cases firstFault : steps.findSome? (fun step => (step.judge subject).fault?) with
  | some reason =>
    obtain ⟨before,step,after,stepsIs,faults,clean⟩ := List.findSome?_eq_some_iff.mp firstFault
    have judged : step.judge subject = .fault reason := by
      cases judgement : step.judge subject <;> simp_all [Judged.fault?]
    have blocks : (stepCheck subject step).Blocks := ⟨_,rfl,by simp [judged],by simp [judged]⟩
    have checks : steps.map (stepCheck subject) =
        before.map (stepCheck subject) ++ stepCheck subject step :: after.map (stepCheck subject) := by
      simp [stepsIs]
    obtain ⟨outcome,first⟩ := lawful.denies (before.map (stepCheck subject)) (after.map (stepCheck subject))
      (stepCheck subject step) required (checks ▸ known) (no_fault_answers clean) blocks
    rw [← checks] at outcome first
    have found := find_by_id distinct step (by simp [stepsIs])
    simp [walk,outcome,first,stepCheck,found,judged]
  | none =>
    have clean := List.findSome?_eq_none_iff.mp firstFault
    cases firstHold : steps.findSome? (fun step => (step.judge subject).hold?) with
    | some reason =>
      obtain ⟨before,step,after,stepsIs,holds,free⟩ := List.findSome?_eq_some_iff.mp firstHold
      have judged : step.judge subject = .hold reason := by
        cases judgement : step.judge subject <;> simp_all [Judged.hold?]
      have degrades : (stepCheck subject step).Answers .degrade := ⟨_,rfl,by simp [judged]⟩
      have checks : steps.map (stepCheck subject) =
          before.map (stepCheck subject) ++ stepCheck subject step :: after.map (stepCheck subject) := by
        simp [stepsIs]
      have part : ∀ other, other ∈ before ∨ other ∈ after → other ∈ steps := by
        intro other inside
        rw [stepsIs]
        rcases inside with early | late
        · exact List.mem_append_left _ early
        · exact List.mem_append_right _ (List.mem_cons_of_mem _ late)
      obtain ⟨outcome,first⟩ := lawful.degrades (before.map (stepCheck subject)) (after.map (stepCheck subject))
        (stepCheck subject step) required (checks ▸ known)
        (all_pass_answers (fun other early => clean other (part other (.inl early))) free) degrades
        (no_fault_answers (fun other late => clean other (part other (.inr late))))
      rw [← checks] at outcome first
      have found := find_by_id distinct step (by simp [stepsIs])
      simp [walk,outcome,first,stepCheck,found,judged]
    | none =>
      have free := List.findSome?_eq_none_iff.mp firstHold
      have outcome := lawful.allows (steps.map (stepCheck subject)) required (by simpa using nonempty) known
        (all_pass_answers clean free)
      simp [walk,outcome]

/-- The chain read one step at a time: a refusal ends it, a hold waits for a refusal
    of a later step. -/
theorem chain_cons (subject : S) (id : String) (judge : S → Judged R) (rest : List (Step S R)) :
    chain subject (⟨id,judge⟩ :: rest) =
      match judge subject with
      | .fault reason => .fault reason
      | .pass => chain subject rest
      | .hold reason =>
        match chain subject rest with
        | .fault later => .fault later
        | _ => .hold reason := by
  cases judged : judge subject with
  | fault reason => simp [chain,judged]
  | pass => simp [chain,judged]
  | hold reason =>
    cases refused : rest.findSome? (fun step => (step.judge subject).fault?) with
    | some later => simp [chain,judged,refused]
    | none =>
      cases held : rest.findSome? (fun step => (step.judge subject).hold?) <;>
        simp [chain,judged,refused,held]

@[simp] theorem chain_nil (subject : S) : chain subject ([] : List (Step S R)) = .pass := rfl

end

/-! ### A closed gate

The smallest gate with the documented behaviour, for evaluating the walks on. -/

namespace Sample

def blocks (check : Check) : Bool := check.answer.any (fun decision => decision.outcome = .deny && decision.blocking)
def degrades (check : Check) : Bool := check.answer.any (fun decision => decision.outcome = .degrade)

def evaluate (checks : List Check) (required : List String) : Decision :=
  if required.any (fun id => !checks.any (fun check => check.id == id)) then
    ⟨.deny,"closed:required_unregistered",[],true⟩
  else
    match checks.find? blocks with
    | some check => ⟨.deny,"closed:denied",[check.id],true⟩
    | none =>
      if checks.any (fun check => check.answer.isNone) then ⟨.deny,"closed:required_undecided",[],true⟩
      else
        match checks.find? degrades with
        | some check => ⟨.degrade,"closed:degraded",[check.id],false⟩
        | none =>
          if checks.isEmpty then ⟨.deny,"closed:no_check_decided",[],true⟩
          else ⟨.allow,"closed:allowed",checks.map (·.id),false⟩

def closedGate : ClosedGate where
  evaluate := evaluate
  requiredUnregistered := "closed:required_unregistered"
  requiredUndecided := "closed:required_undecided"
  noCheckDecided := "closed:no_check_decided"

private theorem not_unregistered {checks : List Check} {required : List String}
    (known : ∀ id ∈ required, ∃ other ∈ checks, other.id = id) :
    required.any (fun id => !checks.any (fun check => check.id == id)) = false := by
  simpa [List.any_eq_false] using known

private theorem answers_facts {check : Check} {outcome : Outcome} (answers : check.Answers outcome) :
    check.answer.isNone = false ∧ degrades check = decide (outcome = .degrade) ∧
      (outcome ≠ .deny → blocks check = false) := by
  obtain ⟨decision,answered,rfl⟩ := answers
  refine ⟨by simp [answered],by simp [degrades,answered],fun allowed => by simp [blocks,answered,allowed]⟩

private theorem passing_facts {checks : List Check}
    (passing : ∀ other ∈ checks, other.Answers .allow ∨ other.Answers .degrade) :
    checks.find? blocks = none ∧ checks.any (fun check => check.answer.isNone) = false := by
  refine ⟨List.find?_eq_none.mpr ?_,List.any_eq_false.mpr ?_⟩
  · intro other member
    rcases passing other member with allows | degrades
    · simp [(answers_facts allows).2.2 (by decide)]
    · simp [(answers_facts degrades).2.2 (by decide)]
  · intro other member
    rcases passing other member with allows | degrades
    · simp [(answers_facts allows).1]
    · simp [(answers_facts degrades).1]

theorem closedGate_lawful : closedGate.Lawful where
  denies := by
    intro before after check required known passing blocked
    have early : before.find? blocks = none := (passing_facts passing).1
    have here : blocks check = true := by
      obtain ⟨decision,answered,denied,blocking⟩ := blocked
      simp [blocks,answered,denied,blocking]
    have found : (before ++ check :: after).find? blocks = some check := by simp [List.find?_append,early,here]
    simp only [closedGate,evaluate,not_unregistered known,found]
    simp
  degrades := by
    intro before after check required known allowing degrading passing
    have all : ∀ other ∈ before ++ check :: after, other.Answers .allow ∨ other.Answers .degrade := by
      intro other member
      rcases List.mem_append.mp member with early | late
      · exact .inl (allowing other early)
      · rcases List.mem_cons.mp late with rfl | later
        · exact .inr degrading
        · exact passing other later
    have early : before.find? degrades = none := by
      refine List.find?_eq_none.mpr fun other member => ?_
      simp [(answers_facts (allowing other member)).2.1]
    have here : degrades check = true := by simp [(answers_facts degrading).2.1]
    have answered := (passing_facts all).2
    simp only [closedGate,evaluate,not_unregistered known,(passing_facts all).1,answered]
    simp [List.find?_append,early,here]
  allows := by
    intro checks required nonempty known allowing
    have all : ∀ other ∈ checks, other.Answers .allow ∨ other.Answers .degrade := fun other member =>
      .inl (allowing other member)
    have none : checks.find? degrades = none := by
      refine List.find?_eq_none.mpr fun other member => ?_
      simp [(answers_facts (allowing other member)).2.1]
    simp [closedGate,evaluate,not_unregistered known,(passing_facts all).1,(passing_facts all).2,none,nonempty]

end Sample

end Aicortex.Walk
