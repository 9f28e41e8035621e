import Aicortex.ScopeIdentity
import Aicortex.Lib.Lines

/-!
Normalization as a fixed point. The removed characters do not come back, composed text
stays composed when its lines are trimmed, and trimmed lines are trimmed; so what the
gate admits, offered again, is admitted as it is.
-/

namespace Aicortex.Normalization
open Aicortex.Text Aicortex.Memories Aicortex.CaptureGate Aicortex.ScopeIdentity Lib.Lines
set_option linter.unusedSimpArgs false

/-- What is relied on of the linked composition: composed text is composed, blanks cut
    before a newline or at the end leave it composed, and none of the removed
    characters comes out of it. -/
structure Composes (nfc : String → String) : Prop where
  idempotent : ∀ text, nfc (nfc text) = nfc text
  cut : ∀ front blanks back, (∀ c ∈ blanks, isWhitespace c = true) → (back = [] ∨ back.head? = some '\n') →
    nfc (String.ofList (front ++ blanks ++ back)) = String.ofList (front ++ blanks ++ back) →
    nfc (String.ofList (front ++ back)) = String.ofList (front ++ back)
  visible : ∀ text, (∀ c ∈ text.toList, isRemoved c = false) → ∀ c ∈ (nfc text).toList, isRemoved c = false

/-! ### Text -/

theorem joinLines_eq (lines : List (List Char)) : joinLines lines = ['\n'].intercalate lines := by
  induction lines with
  | nil => rfl
  | cons line rest ih =>
    cases rest with
    | nil => simp [joinLines]
    | cons second others =>
      show line ++ '\n' :: joinLines (second :: others) = _
      rw [ih,List.intercalate_cons_cons]
      simp

/-- The two trims are the tidying of the composed text. -/
theorem normalizeText_eq (nfc : String → String) (raw : String) :
    normalizeText nfc raw = String.ofList (tidy isWhitespace '\n'
      (nfc (String.ofList (raw.toList.filter (fun c => !isRemoved c)))).toList) := by
  rw [normalizeText,tidy,← joinLines_eq,splitOn_eq]
  rfl

section
variable {nfc : String → String}

theorem normalizeText_visible (composes : Composes nfc) (raw : String) :
    ∀ c ∈ (normalizeText nfc raw).toList, isRemoved c = false := by
  intro c within
  rw [normalizeText_eq,String.toList_ofList] at within
  refine composes.visible _ ?_ c (mem_tidy within)
  intro c member
  rw [String.toList_ofList] at member
  simpa using (List.mem_filter.mp member).2

theorem normalizeText_composed (composes : Composes nfc) (raw : String) :
    nfc (normalizeText nfc raw) = normalizeText nfc raw := by
  rw [normalizeText_eq]
  refine tidy_keeps (P := fun text => nfc (String.ofList text) = String.ofList text) ?_ ?_
  · intro front blanks back blank ends composed
    exact composes.cut front blanks back blank ends composed
  · rw [String.ofList_toList]
    exact composes.idempotent _

theorem normalizeText_again (composes : Composes nfc) (raw : String) :
    normalizeText nfc (normalizeText nfc raw) = normalizeText nfc raw := by
  have kept : (normalizeText nfc raw).toList.filter (fun c => !isRemoved c) = (normalizeText nfc raw).toList := by
    rw [List.filter_eq_self]
    intro c within
    simpa using normalizeText_visible composes raw c within
  rw [normalizeText_eq nfc (normalizeText nfc raw),kept,String.ofList_toList,normalizeText_composed composes]
  conv_lhs => rw [normalizeText_eq]
  rw [String.toList_ofList,tidy_tidy (by decide),← normalizeText_eq]

theorem normalizeBody_again (composes : Composes nfc) (raw : MemoryBody) :
    normalizeBody nfc (normalizeBody nfc raw) = normalizeBody nfc raw := by
  obtain ⟨text,title,media⟩ := raw
  have titles : (((title.map (normalizeText nfc)).filter (fun title => !title.isEmpty)).map (normalizeText nfc)).filter
      (fun title => !title.isEmpty) = (title.map (normalizeText nfc)).filter (fun title => !title.isEmpty) := by
    cases title with
    | none => rfl
    | some title =>
      by_cases empty : (normalizeText nfc title).isEmpty = true
      · simp [Option.filter,empty]
      · simp [Option.filter,empty,normalizeText_again composes]
  simp only [normalizeBody,normalizeText_again composes,titles]

end

/-! ### Admission -/

/-- What a memory was built from, with the body it holds. -/
def partsOf (memory : Memory) : MemoryParts where
  id := memory.id
  scope := memory.scope
  kind := memory.kind
  body := memory.body
  actor := memory.actor
  provenance := memory.provenance
  trust := memory.trust
  importance := memory.importance
  created := memory.created

section
variable {SecretRules : Type} (linked : Linked SecretRules)

/-- The candidate with its body as the gate reads it. -/
def offeredAgain (candidate : Candidate) : Candidate :=
  { candidate with parts := { candidate.parts with body := normalizeBody linked.nfc candidate.parts.body } }

theorem partsOf_normalized (candidate : Candidate) :
    (⟨partsOf (normalized linked candidate),candidate.origin⟩ : Candidate) = offeredAgain linked candidate := rfl

theorem evaluate_offeredAgain (composes : Composes linked.nfc) (rules : RuleSet SecretRules) (candidate : Candidate) :
    evaluate linked rules (offeredAgain linked candidate) = evaluate linked rules candidate := by
  have again := normalizeBody_again composes candidate.parts.body
  have subject : captureOf linked rules (offeredAgain linked candidate) = captureOf linked rules candidate := by
    simp only [captureOf,offeredAgain,again]
  have memory : normalized linked (offeredAgain linked candidate) = normalized linked candidate := by
    simp only [normalized,offeredAgain,again]
  simp only [evaluate,walkCapture,subject,memory]

theorem admitted_normalized {rules : RuleSet SecretRules} {candidate : Candidate} {memory : Memory}
    (admitted : evaluate linked rules candidate = .admitted memory) : memory = normalized linked candidate := by
  unfold evaluate at admitted
  split at admitted
  · exact (Verdict.admitted.inj admitted).symm
  · cases admitted
  · cases admitted

theorem admission_fixed (composes : Composes linked.nfc) :
    (∀ text, normalizeText linked.nfc (normalizeText linked.nfc text) = normalizeText linked.nfc text) ∧
    ∀ rules candidate memory, evaluate linked rules candidate = .admitted memory →
      memory.body = normalizeBody linked.nfc candidate.parts.body ∧ normalizeBody linked.nfc memory.body = memory.body ∧
      evaluate linked rules ⟨partsOf memory,candidate.origin⟩ = .admitted memory := by
  refine ⟨normalizeText_again composes,?_⟩
  intro rules candidate memory admitted
  obtain rfl := admitted_normalized linked admitted
  refine ⟨rfl,normalizeBody_again composes candidate.parts.body,?_⟩
  rw [partsOf_normalized,evaluate_offeredAgain linked composes]
  exact admitted

end

namespace Sample
open Memories.Sample CaptureGate.Sample

theorem composes : Composes linked.nfc := ⟨fun _ => rfl,fun _ _ _ _ _ _ => rfl,fun _ visible => visible⟩

/-- A note with a hidden character, a padded line and blank lines at its end. -/
def padded : Candidate := candidate "aisle \u200bseat  \nrow 12\n \n" .authenticated

theorem admission_fixed_padded :
    (normalized linked padded).body.text = "aisle seat\nrow 12" ∧
    normalizeBody linked.nfc (normalized linked padded).body = (normalized linked padded).body ∧
    evaluate linked rules ⟨partsOf (normalized linked padded),.authenticated⟩ = .admitted (normalized linked padded) := by
  have text : (normalized linked padded).body.text = "aisle seat\nrow 12" := by decide +kernel
  have admitted : evaluate linked rules padded = .admitted (normalized linked padded) := by decide +kernel
  exact ⟨text,((admission_fixed linked composes).2 rules padded _ admitted).2⟩

end Sample

end Aicortex.Normalization
