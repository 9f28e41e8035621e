import Aicortex.PlainChains

/-!
A deployment's rules. They are made from others by lowering a ceiling, dropping media
types and denying sources, and by nothing else: every refinement narrows, and what
narrower rules let in, the wider ones let in as the same memory.
-/

namespace Aicortex.Narrowing
open Aicortex.Text Aicortex.Memories Aicortex.CaptureGate Aicortex.PlainChains Lib.Ordered Lib.Outcome
open Aicortex.Claims hiding Unit
set_option linter.unusedSimpArgs false

/-! ### Limits -/

def withMaxBodyBytes (limits : Limits) (bytes : Nat) : Except GateError Limits :=
  if bytes > limits.maxBodyBytes then .error (.ceilingRaised "max_body_bytes" limits.maxBodyBytes bytes)
  else .ok { limits with maxBodyBytes := bytes }

def withMaxMediaRefs (limits : Limits) (refs : Nat) : Except GateError Limits :=
  if refs > limits.maxMediaRefs then .error (.ceilingRaised "max_media_refs" limits.maxMediaRefs refs)
  else .ok { limits with maxMediaRefs := refs }

/-- The other limits, checked to be no wider in any dimension. -/
def limitsNarrowedTo (limits other : Limits) : Except GateError Limits := do
  let narrowed ← withMaxBodyBytes limits other.maxBodyBytes
  let narrowed ← withMaxMediaRefs narrowed other.maxMediaRefs
  match other.mediaTopLevels.elements.find? (fun level => !limits.mediaTopLevels.contains level) with
  | some added => .error (.mediaTypeWidened added)
  | none => .ok { narrowed with mediaTopLevels := other.mediaTopLevels }

/-- No larger in any dimension. -/
structure LimitsNarrow (narrow wide : Limits) : Prop where
  bytes : narrow.maxBodyBytes ≤ wide.maxBodyBytes
  refs : narrow.maxMediaRefs ≤ wide.maxMediaRefs
  levels : ∀ level ∈ narrow.mediaTopLevels, level ∈ wide.mediaTopLevels

theorem LimitsNarrow.refl (limits : Limits) : LimitsNarrow limits limits := ⟨le_refl _,le_refl _,fun _ within => within⟩

theorem LimitsNarrow.trans {first second third : Limits} (outer : LimitsNarrow second third)
    (inner : LimitsNarrow first second) : LimitsNarrow first third :=
  ⟨inner.bytes.trans outer.bytes,inner.refs.trans outer.refs,fun level within => outer.levels level (inner.levels level within)⟩

theorem withMaxBodyBytes_ok {limits narrowed : Limits} {bytes : Nat} (executed : withMaxBodyBytes limits bytes = .ok narrowed) :
    bytes ≤ limits.maxBodyBytes ∧ narrowed = { limits with maxBodyBytes := bytes } := by
  unfold withMaxBodyBytes at executed
  split_ifs at executed with raised
  exact ⟨not_lt.mp raised,(Except.ok.inj executed).symm⟩

theorem withMaxMediaRefs_ok {limits narrowed : Limits} {refs : Nat} (executed : withMaxMediaRefs limits refs = .ok narrowed) :
    refs ≤ limits.maxMediaRefs ∧ narrowed = { limits with maxMediaRefs := refs } := by
  unfold withMaxMediaRefs at executed
  split_ifs at executed with raised
  exact ⟨not_lt.mp raised,(Except.ok.inj executed).symm⟩

/-- What limits are narrowed to is the other limits, which are no larger. -/
theorem limitsNarrowedTo_ok {limits other narrowed : Limits} (executed : limitsNarrowedTo limits other = .ok narrowed) :
    narrowed = other ∧ LimitsNarrow other limits := by
  obtain ⟨first,lowered,rest⟩ := bind_ok_iff.mp executed
  obtain ⟨second,fewer,checked⟩ := bind_ok_iff.mp rest
  obtain ⟨bytes,rfl⟩ := withMaxBodyBytes_ok lowered
  obtain ⟨refs,rfl⟩ := withMaxMediaRefs_ok fewer
  split at checked
  · cases checked
  · rename_i none'
    refine ⟨(Except.ok.inj checked).symm,bytes,refs,fun level within => ?_⟩
    have known := List.find?_eq_none.mp none' level within
    simpa using known

/-! ### Rules -/

section
variable {SecretRules : Type}

/-- The same rules, refusing a source outright. -/
def denying (rules : RuleSet SecretRules) (system : SourceSystem) : RuleSet SecretRules :=
  { rules with deniedSources := rules.deniedSources.insert system }

def narrowedTo (rules : RuleSet SecretRules) (limits : Limits) : Except GateError (RuleSet SecretRules) := do
  let limits ← limitsNarrowedTo rules.limits limits
  .ok { rules with limits := limits }

/-- One refinement of a deployment's rules. -/
inductive Refinement where
  | narrowedTo (limits : Limits)
  | maxBodyBytes (bytes : Nat)
  | maxMediaRefs (refs : Nat)
  | denying (system : SourceSystem)

def refine (rules : RuleSet SecretRules) : Refinement → Except GateError (RuleSet SecretRules)
  | .narrowedTo limits => narrowedTo rules limits
  | .maxBodyBytes bytes => do
    let limits ← withMaxBodyBytes rules.limits bytes
    .ok { rules with limits := limits }
  | .maxMediaRefs refs => do
    let limits ← withMaxMediaRefs rules.limits refs
    .ok { rules with limits := limits }
  | .denying system => .ok (denying rules system)

/-- Refined one after another. -/
def refineAll (rules : RuleSet SecretRules) (chain : List Refinement) : Except GateError (RuleSet SecretRules) :=
  chain.foldlM refine rules

/-- Smaller limits, the same detectors, and no fewer denials. -/
structure Narrows (narrow wide : RuleSet SecretRules) : Prop where
  limits : LimitsNarrow narrow.limits wide.limits
  secrets : narrow.secrets = wide.secrets
  denied : ∀ system ∈ wide.deniedSources, system ∈ narrow.deniedSources

theorem Narrows.refl (rules : RuleSet SecretRules) : Narrows rules rules := ⟨.refl _,rfl,fun _ within => within⟩

theorem Narrows.trans {first second third : RuleSet SecretRules} (outer : Narrows second third)
    (inner : Narrows first second) : Narrows first third :=
  ⟨outer.limits.trans inner.limits,inner.secrets.trans outer.secrets,
    fun system within => inner.denied system (outer.denied system within)⟩

theorem narrows_of_limits {rules : RuleSet SecretRules} {limits : Limits} (narrow : LimitsNarrow limits rules.limits) :
    Narrows { rules with limits := limits } rules := ⟨narrow,rfl,fun _ within => within⟩

theorem refine_narrows {rules refined : RuleSet SecretRules} {step : Refinement}
    (executed : refine rules step = .ok refined) : Narrows refined rules := by
  cases step with
  | narrowedTo limits =>
    obtain ⟨narrowed,checked,is⟩ := bind_ok_iff.mp executed
    obtain rfl := Except.ok.inj is
    obtain ⟨rfl,narrow⟩ := limitsNarrowedTo_ok checked
    exact narrows_of_limits narrow
  | maxBodyBytes bytes =>
    obtain ⟨narrowed,checked,is⟩ := bind_ok_iff.mp executed
    obtain rfl := Except.ok.inj is
    obtain ⟨lowered,rfl⟩ := withMaxBodyBytes_ok checked
    exact narrows_of_limits ⟨lowered,le_refl _,fun _ within => within⟩
  | maxMediaRefs refs =>
    obtain ⟨narrowed,checked,is⟩ := bind_ok_iff.mp executed
    obtain rfl := Except.ok.inj is
    obtain ⟨lowered,rfl⟩ := withMaxMediaRefs_ok checked
    exact narrows_of_limits ⟨le_refl _,lowered,fun _ within => within⟩
  | denying system =>
    obtain rfl := Except.ok.inj executed
    exact ⟨.refl _,rfl,fun other within => (OrdSet.mem_insert _ _ _).mpr (.inr within)⟩

theorem refineAll_narrows {rules refined : RuleSet SecretRules} {chain : List Refinement}
    (executed : refineAll rules chain = .ok refined) : Narrows refined rules :=
  foldlM_invariant (fun refined => Narrows refined rules) (fun _ _ _ _ held stepped => held.trans (refine_narrows stepped))
    (Narrows.refl rules) executed

/-! ### What narrower rules let in -/

theorem mediaFault_none_iff {limits : Limits} {body : MemoryBody} : mediaFault limits body = none ↔
    body.media.length ≤ limits.maxMediaRefs ∧ ∀ media ∈ body.media, limits.admitsMedia media = true := by
  unfold mediaFault
  split_ifs with many
  · exact iff_of_false (by simp) (fun fits => absurd fits.1 (by omega))
  · rw [Option.map_eq_none_iff,List.findIdx?_eq_none_iff]
    exact ⟨fun stored => ⟨by omega,by simpa using stored⟩,fun fits => by simpa using fits.2⟩

theorem LimitsNarrow.admitsMedia {narrow wide : Limits} (narrows : LimitsNarrow narrow wide) {media : MediaRef}
    (stored : narrow.admitsMedia media = true) : wide.admitsMedia media = true := by
  simp only [Limits.admitsMedia,Bool.and_eq_true,OrdSet.contains_iff] at stored ⊢
  exact ⟨stored.1,narrows.levels _ stored.2⟩

variable (linked : Linked SecretRules)

theorem plainFault_none_iff {rules : RuleSet SecretRules} {candidate : Candidate} :
    plainFault linked rules candidate = none ↔
      (trimChars (normalizeBody linked.nfc candidate.parts.body).text.toList).isEmpty = false ∧
      byteLen (normalizeBody linked.nfc candidate.parts.body).text ≤ rules.limits.maxBodyBytes ∧
      mediaFault rules.limits (normalizeBody linked.nfc candidate.parts.body) = none ∧
      candidate.parts.provenance.source.system ∉ rules.deniedSources ∧
      secretFault linked rules (normalizeBody linked.nfc candidate.parts.body) = none := by
  unfold plainFault
  generalize normalizeBody linked.nfc candidate.parts.body = body
  dsimp only
  by_cases blank : (trimChars body.text.toList).isEmpty = true
  · simp [blank]
  by_cases large : byteLen body.text > rules.limits.maxBodyBytes
  · simp [blank,large,not_le.mpr large]
  rw [if_neg blank,if_neg large]
  cases faulty : mediaFault rules.limits body with
  | some fault => simp
  | none =>
    by_cases denied : candidate.parts.provenance.source.system ∈ rules.deniedSources
    · simp [denied]
    · simp [denied,not_lt.mp large,blank]

/-- What passes narrower rules passes wider ones. -/
theorem Narrows.plainFault_none {narrow wide : RuleSet SecretRules} (narrows : Narrows narrow wide) {candidate : Candidate}
    (passes : plainFault linked narrow candidate = none) : plainFault linked wide candidate = none := by
  obtain ⟨visible,fits,stored,allowed,clean⟩ := (plainFault_none_iff linked).mp passes
  obtain ⟨few,typed⟩ := mediaFault_none_iff.mp stored
  refine (plainFault_none_iff linked).mpr ⟨visible,fits.trans narrows.limits.bytes,?_,?_,?_⟩
  · exact mediaFault_none_iff.mpr ⟨few.trans narrows.limits.refs,fun media within => narrows.limits.admitsMedia (typed media within)⟩
  · exact fun denied => allowed (narrows.denied _ denied)
  · rw [secretFault,← narrows.secrets]
    exact clean

/-- Whatever narrower rules do not refuse, wider ones answer alike. -/
theorem Narrows.evaluate_eq (lawful : linked.closed.Lawful) {narrow wide : RuleSet SecretRules}
    (narrows : Narrows narrow wide) {candidate : Candidate}
    (kept : ∀ reason, evaluate linked narrow candidate ≠ .refuse reason) :
    evaluate linked wide candidate = evaluate linked narrow candidate := by
  rw [evaluate_eq_plain linked lawful] at kept
  rw [evaluate_eq_plain linked lawful,evaluate_eq_plain linked lawful]
  cases passes : plainFault linked narrow candidate with
  | some reason => exact absurd (by simp [plainEvaluate,passes]) (kept reason)
  | none => simp [plainEvaluate,passes,narrows.plainFault_none linked passes]

theorem refinements_only_narrow (lawful : linked.closed.Lawful) (rules refined : RuleSet SecretRules)
    (chain : List Refinement) (executed : refineAll rules chain = .ok refined) :
    LimitsNarrow refined.limits rules.limits ∧
    ∀ candidate,
      (∀ memory, evaluate linked refined candidate = .admitted memory → evaluate linked rules candidate = .admitted memory) ∧
      (∀ memory reason, evaluate linked refined candidate = .quarantine memory reason →
        evaluate linked rules candidate = .quarantine memory reason) ∧
      (∀ reason, evaluate linked rules candidate = .refuse reason →
        ∃ first, evaluate linked refined candidate = .refuse first) := by
  have narrows := refineAll_narrows executed
  refine ⟨narrows.limits,fun candidate => ⟨?_,?_,?_⟩⟩
  · intro memory admitted
    rw [narrows.evaluate_eq linked lawful (by simp [admitted]),admitted]
  · intro memory reason held
    rw [narrows.evaluate_eq linked lawful (by simp [held]),held]
  · intro reason refused
    by_contra kept
    have same := narrows.evaluate_eq linked lawful (fun first answered => kept ⟨first,answered⟩)
    exact kept ⟨reason,same.symm.trans refused⟩

end

namespace Sample
open Memories.Sample CaptureGate.Sample

/-- The shipped limits with text only, sixty-four bytes of it, from anywhere but a calendar. -/
def chain : List Refinement :=
  [.maxBodyBytes 64,.narrowedTo ⟨64,0,.ofList ["text"]⟩,.denying ⟨"calendar",by decide⟩]

def shipped : RuleSet PUnit := ⟨Limits.standard,⟨⟩,.empty⟩

def narrowed : RuleSet PUnit := ⟨⟨64,0,.ofList ["text"]⟩,⟨⟩,.ofList [⟨"calendar",by decide⟩]⟩

theorem refinements_only_narrow_shipped :
    refineAll shipped chain = .ok narrowed ∧
    evaluate linked shipped (candidate "aisle seat" .asserted) =
      .quarantine { normalized linked (candidate "aisle seat" .asserted) with status := .quarantined }
        (.originUnestablished .asserted) := by
  have executed : refineAll shipped chain = .ok narrowed := rfl
  have held : evaluate linked narrowed (candidate "aisle seat" .asserted) =
      .quarantine { normalized linked (candidate "aisle seat" .asserted) with status := .quarantined }
        (.originUnestablished .asserted) := by decide +kernel
  have narrow := refinements_only_narrow linked Walk.Sample.closedGate_lawful shipped narrowed chain executed
  exact ⟨executed,(narrow.2 (candidate "aisle seat" .asserted)).2.1 _ _ held⟩

end Sample

end Aicortex.Narrowing
