import Aicortex.Memories
import Aicortex.Walk

/-!
The write gate for captured memories. A candidate is normalized and walked through
six steps; the verdict admits it, quarantines it or refuses it. An operator may
override one refusal of one candidate. The credential detectors and the Unicode
composition are linked code and are parameters here.
-/

namespace Aicortex.CaptureGate
open Aicortex.Text Aicortex.Memories Aicortex.Walk Lib.Ordered
open Aicortex.Claims hiding Unit
set_option linter.unusedSimpArgs false

/-- Where a detector matched. -/
structure Finding where
  detector : String
  offset : Nat
  deriving Repr, DecidableEq

/-- The linked code both gates call. -/
structure Linked (SecretRules : Type) where
  scan : String → SecretRules → Option Finding
  nfc : String → String
  isNfc : String → Bool
  closed : ClosedGate

/-! ### Normalization -/

/-- Code points of the invisible and direction-changing characters that are removed. -/
def removed : List Nat :=
  [0x00AD,0x180E,0x200B,0x200C,0x200D,0x200E,0x200F,0x202A,0x202B,0x202C,0x202D,0x202E,0x2060,0x2066,0x2067,0x2068]

def isRemoved (c : Char) : Bool := removed.contains c.toNat || c.toNat == 0x2069 || c.toNat == 0xFEFF

def trimEnd (chars : List Char) : List Char := (chars.reverse.dropWhile isWhitespace).reverse

def joinLines : List (List Char) → List Char
  | [] => []
  | [line] => line
  | line :: rest => line ++ '\n' :: joinLines rest

/-- Strip, compose, and trim the end of every line and of the whole. -/
def normalizeText (nfc : String → String) (raw : String) : String :=
  let stripped := String.ofList (raw.toList.filter (fun c => !isRemoved c))
  let lines := (splitOn '\n' (nfc stripped).toList).map trimEnd
  String.ofList (trimEnd (joinLines lines))

def normalizeBody (nfc : String → String) (raw : MemoryBody) : MemoryBody where
  text := normalizeText nfc raw.text
  title := (raw.title.map (normalizeText nfc)).filter (fun title => !title.isEmpty)
  media := raw.media

/-! ### Limits and rules -/

structure Limits where
  maxBodyBytes : Nat
  maxMediaRefs : Nat
  mediaTopLevels : OrdSet String
  deriving DecidableEq

def Limits.standard : Limits :=
  ⟨64 * 1024,16,.ofList ["application","audio","font","image","text","video"]⟩

/-- What stands before the first `/` or `;`, trimmed. -/
def topLevelOf (media : MediaRef) : List Char :=
  trimChars (media.mediaType.toList.takeWhile (fun c => c != '/' && c != ';'))

def toAsciiLower (c : Char) : Char := if isAsciiUpper c then Char.ofNat (c.toNat + 32) else c

def Limits.admitsMedia (limits : Limits) (media : MediaRef) : Bool :=
  let topLevel := String.ofList ((topLevelOf media).map toAsciiLower)
  !topLevel.isEmpty && media.mediaType.toList.contains '/' && limits.mediaTopLevels.contains topLevel

structure RuleSet (SecretRules : Type) where
  limits : Limits
  secrets : SecretRules
  deniedSources : OrdSet SourceSystem

/-! ### Candidates, reasons and verdicts -/

inductive Origin where
  | authenticated
  | registeredAdapter
  | asserted
  | unestablished
  deriving Repr, DecidableEq

def Origin.isEstablished : Origin → Bool
  | .authenticated | .registeredAdapter => true
  | _ => false

def Origin.isAssertable : Origin → Bool
  | .asserted => true
  | _ => false

structure Candidate where
  parts : MemoryParts
  origin : Origin
  deriving DecidableEq

inductive MediaFault where
  | tooMany (count ceiling : Nat)
  | unsupportedType (index : Nat)
  deriving Repr, DecidableEq

inductive Reason where
  | secretDetected (detector : String) (offset : Nat)
  | tooLarge (bytes ceiling : Nat)
  | emptyAfterNormalization
  | originUnestablished (origin : Origin)
  | unsupportedMedia (fault : MediaFault)
  | rateExceeded (limit windowSecs : Nat)
  | policyDenied (policy : String)
  deriving Repr, DecidableEq

def Reason.code : Reason → String
  | .secretDetected _ _ => "secret_detected"
  | .tooLarge _ _ => "too_large"
  | .emptyAfterNormalization => "empty_after_normalization"
  | .originUnestablished _ => "origin_unestablished"
  | .unsupportedMedia _ => "unsupported_media"
  | .rateExceeded _ _ => "rate_exceeded"
  | .policyDenied _ => "policy_denied"

inductive Verdict where
  | admitted (memory : Memory)
  | quarantine (memory : Memory) (reason : Reason)
  | refuse (reason : Reason)
  deriving DecidableEq

def Verdict.reason : Verdict → Option Reason
  | .admitted _ => none
  | .quarantine _ reason => some reason
  | .refuse reason => some reason

inductive GateError where
  | ceilingRaised (ceiling : String) (current asked : Nat)
  | mediaTypeWidened (topLevel : String)
  | overrideDoesNotApply (named : String) (actual : Option String)
  | overrideUnjustified
  deriving Repr, DecidableEq

/-- An operator's decision to admit one refused candidate; it is justified. -/
structure Override where
  memory : MemoryId
  reasonCode : String
  justification : String
  by' : Sub
  decision : DecisionRef
  justified : (trimChars justification.toList).isEmpty = false
  deriving DecidableEq

/-! ### The steps -/

structure Capture (SecretRules : Type) where
  body : MemoryBody
  source : SourceSystem
  origin : Origin
  rules : RuleSet SecretRules

section
variable {SecretRules : Type} (linked : Linked SecretRules)

def empty (capture : Capture SecretRules) : Judged Reason :=
  if (trimChars capture.body.text.toList).isEmpty then .fault .emptyAfterNormalization else .pass

def tooLarge (capture : Capture SecretRules) : Judged Reason :=
  let bytes := byteLen capture.body.text
  let ceiling := capture.rules.limits.maxBodyBytes
  if bytes > ceiling then .fault (.tooLarge bytes ceiling) else .pass

/-- Too many references, or the first one of a type that is not stored. -/
def mediaFault (limits : Limits) (body : MemoryBody) : Option MediaFault :=
  if body.media.length > limits.maxMediaRefs then some (.tooMany body.media.length limits.maxMediaRefs)
  else (body.media.findIdx? (fun media => !limits.admitsMedia media)).map .unsupportedType

def media (capture : Capture SecretRules) : Judged Reason :=
  match mediaFault capture.rules.limits capture.body with
  | some fault => .fault (.unsupportedMedia fault)
  | none => .pass

def deniedSource (capture : Capture SecretRules) : Judged Reason :=
  if capture.rules.deniedSources.contains capture.source then
    .fault (.policyDenied ("denied-source:" ++ capture.source.text))
  else .pass

/-- A match in the text, else one in the title. -/
def secretFinding (rules : SecretRules) (body : MemoryBody) : Option Finding :=
  (linked.scan body.text rules).orElse (fun _ => body.title.bind (fun title => linked.scan title rules))

def secretsStep (capture : Capture SecretRules) : Judged Reason :=
  match secretFinding linked capture.rules.secrets capture.body with
  | some finding => .fault (.secretDetected finding.detector finding.offset)
  | none => .pass

def origin (capture : Capture SecretRules) : Judged Reason :=
  if capture.origin.isEstablished then .pass
  else if capture.origin.isAssertable then .hold (.originUnestablished capture.origin)
  else .fault (.originUnestablished capture.origin)

def captureWalk : List (Step (Capture SecretRules) Reason) :=
  [⟨"capture.empty",empty⟩,⟨"capture.too_large",tooLarge⟩,⟨"capture.media",media⟩,
    ⟨"capture.denied_source",deniedSource⟩,⟨"capture.secrets",secretsStep linked⟩,⟨"capture.origin",origin⟩]

def captureSteps : List String :=
  ["capture.empty","capture.too_large","capture.media","capture.denied_source","capture.secrets","capture.origin"]

/-! ### The gate -/

def captureOf (rules : RuleSet SecretRules) (candidate : Candidate) : Capture SecretRules where
  body := normalizeBody linked.nfc candidate.parts.body
  source := candidate.parts.provenance.source.system
  origin := candidate.origin
  rules := rules

def walkCapture (rules : RuleSet SecretRules) (candidate : Candidate) : Walked Reason :=
  walk linked.closed (captureOf linked rules candidate) (captureWalk linked) captureSteps .policyDenied

def normalized (candidate : Candidate) : Memory :=
  Memory.new { candidate.parts with body := normalizeBody linked.nfc candidate.parts.body }

def evaluate (rules : RuleSet SecretRules) (candidate : Candidate) : Verdict :=
  match walkCapture linked rules candidate with
  | .pass => .admitted (normalized linked candidate)
  | .hold reason => .quarantine { normalized linked candidate with status := .quarantined } reason
  | .fault reason => .refuse reason

/-- Judge a candidate an operator has overridden a refusal on. -/
def evaluateOverridden (rules : RuleSet SecretRules) (candidate : Candidate) (over' : Override) :
    Except GateError Verdict :=
  let verdict := evaluate linked rules candidate
  let actual := verdict.reason.map Reason.code
  let refused := match verdict with
    | .refuse _ => true
    | _ => false
  if over'.memory ≠ candidate.parts.id ∨ refused = false ∨ actual ≠ some over'.reasonCode then
    .error (.overrideDoesNotApply over'.reasonCode actual)
  else
    let memory := normalized linked candidate
    .ok (.admitted { memory with
      trust := .assertion
      provenance := { memory.provenance with
        admission := some ⟨over'.reasonCode,over'.by',over'.decision⟩ } })

end

/-! ### A sample gate

One detector, for the tokens of the corpus, and text that is already composed. -/

namespace Sample
open Memories.Sample Claims.Sample

def isAlphanumeric (c : Char) : Bool := isAsciiLower c || isAsciiUpper c || isAsciiDigit c

/-- `ghp_` and thirty-six letters or digits. -/
def githubToken (chars : List Char) : Bool :=
  chars.take 4 == "ghp_".toList && ((chars.drop 4).take 36).length == 36 && ((chars.drop 4).take 36).all isAlphanumeric

def scanFrom (offset : Nat) : List Char → Option Finding
  | [] => none
  | c :: rest => if githubToken (c :: rest) then some ⟨"github-token",offset⟩ else scanFrom (offset + c.utf8Size) rest

def linked : Linked PUnit where
  scan := fun text _ => scanFrom 0 text.toList
  nfc := id
  isNfc := fun _ => true
  closed := Walk.Sample.closedGate

/-- The shipped rules with the text ceiling narrowed to thirty-two bytes. -/
def rules : RuleSet PUnit := ⟨{ Limits.standard with maxBodyBytes := 32 },⟨⟩,.empty⟩

def candidate (text : String) (origin : Origin) : Candidate := ⟨parts ⟨text,none,[]⟩,origin⟩

/-- An operator's override of one refusal of the sample candidate. -/
def overrideOf (code : String) : Override :=
  ⟨memoryId,code,"reviewed by hand",⟨"alice"⟩,⟨"decision-1",by decide⟩,by decide⟩

end Sample

end Aicortex.CaptureGate
