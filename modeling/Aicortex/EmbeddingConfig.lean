import Aicortex.Provisioning
import Aicortex.Lib.Digits

/-!
Configuration of the embedding provider. It is read from the environment at boot and held
against the manifest before anything is opened: a remote provider needs its host granted, a
local one the hosts of the artifacts that are absent. A local artifact is a path below the
models directory, an `https` address and a digest; what passes the check can be provisioned.
-/

namespace Aicortex.EmbeddingConfig
open Aicortex.Text Aicortex.Endpoints Aicortex.Provisioning
open Aicortex.ScopeIdentity (hex)

/-! ### Paths -/

inductive Component where
  | rootDir
  | curDir
  | parentDir
  | normal (name : List Char)
  deriving Repr, DecidableEq

/-- What a part between separators stands for; an empty one and `.` for nothing. -/
def component (part : List Char) : Option Component :=
  if part = [] ∨ part = ['.'] then none
  else if part = ['.','.'] then some .parentDir
  else some (.normal part)

/-- The components of a path; a `.` counts in front alone. -/
def components (path : String) : List Component :=
  let parts := splitOn '/' path.toList
  let front : List Component :=
    if path.toList.head? = some '/' then [.rootDir] else if parts.head? = some ['.'] then [.curDir] else []
  front ++ parts.filterMap component

/-- A path below another; an absolute one stands for itself. -/
def join (directory path : String) : String :=
  if path.toList.head? = some '/' then path
  else if directory.toList = [] ∨ directory.toList.getLast? = some '/' then directory ++ path
  else directory ++ "/" ++ path

/-- What follows the components of another path. -/
def stripPrefix (path directory : String) : Option (List Component) :=
  if components directory <+: components path then some ((components path).drop (components directory).length) else none

def isNormal : Component → Bool
  | .normal _ => true
  | _ => false

/-! ### Artifacts -/

def isLowerHex (c : Char) : Bool := isAsciiDigit c || ('a' ≤ c && c ≤ 'f')

def outside (artifact : WeightArtifact) (modelsDir : String) : ChassisError :=
  .config [.lit "model artifact ",.lit artifact.path,.lit " is outside configured models directory ",.lit modelsDir]

/-- Validate the configuration before any file or network operation. -/
def validate (artifact : WeightArtifact) (modelsDir : String) : Except ChassisError Unit :=
  if ¬scheme.toList <+: artifact.url.toList then .error (.config [.lit "model weights must be fetched over https"])
  else if artifact.sha256.toList.length ≠ 64 ∨ ¬artifact.sha256.toList.all isLowerHex then
    .error (.config [.lit "model weights need a 64-character lowercase SHA-256"])
  else
    match stripPrefix artifact.path modelsDir with
    | none => .error (outside artifact modelsDir)
    | some [] => .error (outside artifact modelsDir)
    | some relative => if relative.all isNormal then .ok () else .error (outside artifact modelsDir)

/-- What is under a name. -/
inductive Entry where
  | absent
  -- a link to nothing
  | dangling
  -- what cannot be opened
  | sealed' (error : String) (existing : Bool)
  | file (bytes : List UInt8)

/-- Whether the name is definitely missing. -/
def Entry.isAbsent : Entry → Bool
  | .absent => true
  | _ => false

/-- Whether the name leads to something. -/
def Entry.existing : Entry → Bool
  | .absent => false
  | .dangling => false
  | .sealed' _ existing => existing
  | .file _ => true

def Entry.open' : Entry → Except String (List UInt8)
  | .absent => .error notFound
  | .dangling => .error notFound
  | .sealed' error _ => .error error
  | .file bytes => .ok bytes

/-- Verify an existing artifact without an outbound call. -/
def verify (sha256 : List UInt8 → List UInt8) (artifact : WeightArtifact) (entry : Entry) : Except ChassisError Unit :=
  match entry.open' with
  | .error error => .error (unreadable artifact.path error)
  | .ok bytes =>
    if maxWeightBytes < bytes.length then .error (tooLarge artifact.path)
    else if hex (sha256 bytes) = artifact.sha256 then .ok ()
    else .error (mismatch artifact.path (hex (sha256 bytes)) artifact.sha256)

/-! ### The configuration -/

/-- The identity every vector from one provider carries. -/
structure ModelShape where
  id : String
  dims : Nat
  normalized : Bool
  deriving Repr, DecidableEq

structure LocalConfig where
  shape : ModelShape
  modelsDir : String
  weights : WeightArtifact
  tokenizer : WeightArtifact
  maxTokens : Nat
  deriving Repr, DecidableEq

structure RemoteConfig where
  shape : ModelShape
  endpoint : String
  deriving Repr, DecidableEq

/-- The configured provider, before it is booted. -/
inductive Config where
  | disabled
  | local' (config : LocalConfig)
  | remote (config : RemoteConfig)
  deriving Repr, DecidableEq

def envProvider : String := "AICORTEX_EMBED_PROVIDER"
def envModel : String := "AICORTEX_EMBED_MODEL"
def envDims : String := "AICORTEX_EMBED_DIMS"
def envNormalized : String := "AICORTEX_EMBED_NORMALIZED"
def envModelsDir : String := "AICORTEX_EMBED_MODELS_DIR"
def envWeightsFile : String := "AICORTEX_EMBED_WEIGHTS_FILE"
def envWeightsUrl : String := "AICORTEX_EMBED_WEIGHTS_URL"
def envWeightsSha256 : String := "AICORTEX_EMBED_WEIGHTS_SHA256"
def envTokenizerFile : String := "AICORTEX_EMBED_TOKENIZER_FILE"
def envTokenizerUrl : String := "AICORTEX_EMBED_TOKENIZER_URL"
def envTokenizerSha256 : String := "AICORTEX_EMBED_TOKENIZER_SHA256"
def envMaxTokens : String := "AICORTEX_EMBED_MAX_TOKENS"
def envEndpoint : String := "AICORTEX_EMBED_ENDPOINT"

def maxDims : Nat := 2 ^ 16 - 1
def maxUsize : Nat := 2 ^ 64 - 1
def defaultMaxTokens : Nat := 512

/-- An unsigned number in decimal digits, with or without a plus. -/
def parseUnsigned (bound : Nat) (text : String) : Option Nat :=
  let digits := if text.toList.head? = some '+' then text.toList.tail else text.toList
  if digits ≠ [] ∧ digits.all isAsciiDigit ∧ Lib.Digits.value digits ≤ bound then some (Lib.Digits.value digits) else none

section
variable (env : String → Option String)

/-- A variable, trimmed; an empty one is not set. -/
def text (key : String) : Option String := ((env key).map trim).filter (fun value => decide (value ≠ ""))

def required (key : String) : Except ChassisError String :=
  match text env key with
  | some value => .ok value
  | none => .error (.config [.lit key,.lit " is required and not set"])

def newModelId (id : String) : Except ChassisError String :=
  if id = "" ∨ trim id ≠ id then .error (.validation [.lit "an embedding model id must be non-empty and unpadded"]) else .ok id

def readDims : Except ChassisError Nat := do
  let raw ← required env envDims
  match parseUnsigned maxDims raw with
  | some dims => .ok dims
  | none => .error (.config [.lit envDims,.lit " must be an integer in 1..=65535"])

def readNormalized : Except ChassisError Bool :=
  match text env envNormalized with
  | none => .ok true
  | some value =>
    if value = "true" then .ok true else if value = "false" then .ok false
    else .error (.config [.lit envNormalized,.lit " must be true or false"])

def readShape (model : String) : Except ChassisError ModelShape := do
  let id ← newModelId model
  let dims ← readDims env
  let normalized ← readNormalized env
  if dims = 0 then .error (.config [.lit envDims,.lit " must be at least 1"]) else .ok ⟨id,dims,normalized⟩

def readArtifact (modelsDir file url sha256 : String) : Except ChassisError WeightArtifact := do
  let file ← required env file
  let url ← required env url
  let sha256 ← required env sha256
  .ok ⟨join modelsDir file,url,sha256⟩

def readMaxTokens : Except ChassisError Nat :=
  match text env envMaxTokens with
  | none => .ok defaultMaxTokens
  | some raw =>
    match parseUnsigned maxUsize raw with
    | some tokens => .ok tokens
    | none => .error (.config [.lit envMaxTokens,.lit " must be a whole number"])

def readLocal (shape : ModelShape) : Except ChassisError Config := do
  let modelsDir := (text env envModelsDir).getD "models"
  let weights ← readArtifact env modelsDir envWeightsFile envWeightsUrl envWeightsSha256
  let tokenizer ← readArtifact env modelsDir envTokenizerFile envTokenizerUrl envTokenizerSha256
  validate weights modelsDir
  validate tokenizer modelsDir
  let maxTokens ← readMaxTokens env
  .ok (.local' ⟨shape,modelsDir,weights,tokenizer,maxTokens⟩)

def fromEnv : Except ChassisError Config :=
  let provider := text env envProvider
  if provider = some "off" then .ok .disabled
  else if provider ≠ none ∧ provider ≠ some "local" ∧ provider ≠ some "remote" then
    .error (.config [.lit envProvider,.lit " ",.quoted (provider.getD ""),.lit " is not local, remote, or off"])
  else
    match text env envModel with
    | none =>
      if provider.isSome then .error (.config [.lit envProvider,.lit " selects a provider but ",.lit envModel,.lit " is not set"])
      else .ok .disabled
    | some model => do
      let shape ← readShape env model
      if provider = some "remote" then do
        let endpoint ← required env envEndpoint
        .ok (.remote ⟨shape,endpoint⟩)
      else readLocal env shape

end

/-! ### The ceiling -/

def embeddingService : String := "embedding"

/-- A configured provider that the manifest does not admit. -/
structure CapabilityFailure where
  check : String
  service : String
  host : String
  deriving Repr, DecidableEq

/-- The named check of an endpoint, and of its host. -/
structure Checks where
  egress : String
  endpoint : String

def remoteChecks : Checks := ⟨"embedding.remote.egress","embedding.remote.endpoint"⟩
def weightsChecks : Checks := ⟨"embedding.weights.egress","embedding.weights.endpoint"⟩
def tokenizerChecks : Checks := ⟨"embedding.tokenizer.egress","embedding.tokenizer.endpoint"⟩

def CapabilityFailure.message (failure : CapabilityFailure) : List Piece :=
  if ".endpoint".toList <:+ failure.check.toList then
    [.lit failure.check,.lit ": ",.quoted failure.host,.lit (" is not a supported https endpoint (an https URL on the standard " ++
      "port with a lowercase host), so no egress grant can admit it")]
  else [.lit failure.check,.lit ": the manifest ceiling grants service ",.lit failure.service,.lit " no http.egress to ",
    .lit failure.host,.lit "; add the host to resources.egress and grant it to the service to enable this provider"]

def admitHost (granted : String → Bool) (check host : String) : Except CapabilityFailure Unit :=
  if granted host then .ok () else .error ⟨check,embeddingService,host⟩

def admitEndpoint (granted : String → Bool) (checks : Checks) (endpoint : String) : Except CapabilityFailure Unit :=
  match parseHttpsEndpoint endpoint with
  | .ok parsed => admitHost granted checks.egress parsed.host
  | .error _ => .error ⟨checks.endpoint,embeddingService,endpoint⟩

/-- What a boot-time check looks at: the grants of the service, the files and the digest. -/
structure Surroundings where
  granted : String → Bool
  look : String → Entry
  sha256 : List UInt8 → List UInt8

section
variable (around : Surroundings)

def admitArtifact (checks : Checks) (artifact : WeightArtifact) : Except CapabilityFailure Unit :=
  if (around.look artifact.path).isAbsent then admitEndpoint around.granted checks artifact.url else .ok ()

/-- Whether the manifest ceiling admits the configuration. -/
def checkCeiling : Config → Except CapabilityFailure Unit
  | .disabled => .ok ()
  | .remote remote => admitEndpoint around.granted remoteChecks remote.endpoint
  | .local' config => do
    admitArtifact around weightsChecks config.weights
    admitArtifact around tokenizerChecks config.tokenizer

def verifyPresent (artifact : WeightArtifact) : Except ChassisError Unit :=
  if (around.look artifact.path).isAbsent then .ok () else verify around.sha256 artifact (around.look artifact.path)

def checkEndpointShape : Config → Except ChassisError Unit
  | .remote remote => (parseHttpsEndpoint remote.endpoint).map (fun _ => ())
  | _ => .ok ()

def verifyArtifacts : Config → Except ChassisError Unit
  | .local' config => do
    verifyPresent around config.weights
    verifyPresent around config.tokenizer
  | _ => .ok ()

/-- The full check at boot: the shape of the endpoint, the ceiling, and the artifacts that are there. -/
def check (config : Config) : Except ChassisError Unit := do
  checkEndpointShape config
  (checkCeiling around config).mapError (fun failure => .denied failure.message)
  verifyArtifacts around config

/-- Artifact paths of a local configuration that do not exist. -/
def absentArtifacts : Config → List String
  | .local' config => ([config.weights,config.tokenizer].filter (fun artifact =>
      !(around.look artifact.path).existing)).map WeightArtifact.path
  | _ => []

end

/-- The vectors a configuration promises. -/
def Config.shape : Config → Option ModelShape
  | .disabled => none
  | .local' config => some config.shape
  | .remote config => some config.shape

/-! ### What is accepted -/

/-- A path strictly below a directory, by names alone. -/
def Below (directory path : String) : Prop :=
  ∃ names : List (List Char), names ≠ [] ∧ components path = components directory ++ names.map .normal

/-- An artifact as its configuration has to be. -/
structure Sound (modelsDir : String) (artifact : WeightArtifact) : Prop where
  https : scheme.toList <+: artifact.url.toList
  digest : artifact.sha256.toList.length = 64 ∧ artifact.sha256.toList.all isLowerHex = true
  below : Below modelsDir artifact.path

theorem allNormal_iff {parts : List Component} : parts.all isNormal = true ↔ ∃ names : List (List Char), parts = names.map .normal := by
  constructor
  · intro all
    induction parts with
    | nil => exact ⟨[],rfl⟩
    | cons part rest ih =>
      obtain ⟨first,others⟩ := Bool.and_eq_true_iff.mp all
      obtain ⟨names,rfl⟩ := ih others
      cases part with
      | normal name => exact ⟨name :: names,rfl⟩
      | rootDir => cases first
      | curDir => cases first
      | parentDir => cases first
  · rintro ⟨names,rfl⟩
    exact List.all_eq_true.mpr fun part member => by
      obtain ⟨name,-,rfl⟩ := List.mem_map.mp member
      rfl

theorem stripPrefix_eq {path directory : String} {rest : List Component} :
    stripPrefix path directory = some rest ↔ components path = components directory ++ rest := by
  unfold stripPrefix
  constructor
  · intro stripped
    split_ifs at stripped with front
    obtain ⟨tail,is⟩ := front
    cases stripped
    rw [← is,List.drop_left]
  · intro is
    rw [if_pos ⟨rest,is.symm⟩,is,List.drop_left]

/-- An artifact is accepted just when its configuration is sound. -/
theorem validate_iff {artifact : WeightArtifact} {modelsDir : String} :
    validate artifact modelsDir = .ok () ↔ Sound modelsDir artifact := by
  unfold validate
  constructor
  · intro valid
    split_ifs at valid with plain unpinned
    obtain ⟨long,hexed⟩ := not_or.mp unpinned
    refine ⟨plain,⟨not_not.mp long,not_not.mp hexed⟩,?_⟩
    split at valid
    · cases valid
    · cases valid
    · next rest some' stripped =>
      split_ifs at valid with normal
      obtain ⟨names,rfl⟩ := allNormal_iff.mp normal
      refine ⟨names,?_,stripPrefix_eq.mp stripped⟩
      rintro rfl
      exact some' rfl
  · rintro ⟨https,⟨long,hexed⟩,names,some',is⟩
    rw [if_neg (not_not.mpr https),if_neg (by simp [long,hexed]),stripPrefix_eq.mpr is]
    have normal : (names.map Component.normal).all isNormal = true := allNormal_iff.mpr ⟨names,rfl⟩
    cases names with
    | nil => exact absurd rfl some'
    | cons name rest =>
      exact if_pos normal

/-! ### What is read -/

structure ShapeSound (shape : ModelShape) : Prop where
  named : shape.id ≠ "" ∧ trim shape.id = shape.id
  dims : 1 ≤ shape.dims ∧ shape.dims ≤ maxDims

/-- A configuration that names a usable provider. -/
inductive ConfigSound : Config → Prop
  | disabled : ConfigSound .disabled
  | remote {config : RemoteConfig} (shape : ShapeSound config.shape) (addressed : config.endpoint ≠ "") :
      ConfigSound (.remote config)
  | local' {config : LocalConfig} (shape : ShapeSound config.shape) (weights : Sound config.modelsDir config.weights)
      (tokenizer : Sound config.modelsDir config.tokenizer) (tokens : config.maxTokens ≤ maxUsize) :
      ConfigSound (.local' config)

section
variable {env : String → Option String}

theorem text_some {key value : String} (is : text env key = some value) : value ≠ "" :=
  of_decide_eq_true (Option.mem_filter_iff.mp is).2

theorem required_ok {key value : String} (is : required env key = .ok value) : text env key = some value := by
  unfold required at is
  split at is
  · next found =>
    cases is
    exact found
  · cases is

theorem parseUnsigned_le {bound number : Nat} {raw : String} (is : parseUnsigned bound raw = some number) : number ≤ bound := by
  unfold parseUnsigned at is
  generalize (if raw.toList.head? = some '+' then raw.toList.tail else raw.toList) = digits at is
  dsimp only at is
  split_ifs at is with held
  cases is
  exact held.2.2

theorem readShape_ok {model : String} {shape : ModelShape} (read : readShape env model = .ok shape) : ShapeSound shape := by
  obtain ⟨id,named,read⟩ := Lib.Outcome.bind_ok_iff.mp read
  obtain ⟨dims,sized,read⟩ := Lib.Outcome.bind_ok_iff.mp read
  obtain ⟨normalized,-,read⟩ := Lib.Outcome.bind_ok_iff.mp read
  split_ifs at read with zero
  cases read
  refine ⟨?_,Nat.one_le_iff_ne_zero.mpr zero,?_⟩
  · unfold newModelId at named
    split_ifs at named with unnamed
    cases named
    obtain ⟨some',unpadded⟩ := not_or.mp unnamed
    exact ⟨some',not_not.mp unpadded⟩
  · obtain ⟨raw,-,parsed⟩ := Lib.Outcome.bind_ok_iff.mp sized
    split at parsed
    · next number is =>
      cases parsed
      exact parseUnsigned_le is
    · cases parsed

theorem readLocal_ok {shape : ModelShape} {config : Config} (sound : ShapeSound shape) (read : readLocal env shape = .ok config) :
    ConfigSound config := by
  obtain ⟨weights,-,read⟩ := Lib.Outcome.bind_ok_iff.mp read
  obtain ⟨tokenizer,-,read⟩ := Lib.Outcome.bind_ok_iff.mp read
  obtain ⟨_,weighed,read⟩ := Lib.Outcome.bind_ok_iff.mp read
  obtain ⟨_,tokenized,read⟩ := Lib.Outcome.bind_ok_iff.mp read
  obtain ⟨tokens,counted,read⟩ := Lib.Outcome.bind_ok_iff.mp read
  cases read
  refine .local' sound (validate_iff.mp weighed) (validate_iff.mp tokenized) ?_
  unfold readMaxTokens at counted
  split at counted
  · cases counted
    exact (by decide : defaultMaxTokens ≤ maxUsize)
  · split at counted
    · next number is =>
      cases counted
      exact parseUnsigned_le is
    · cases counted

/-- Whatever is read is sound. -/
theorem fromEnv_sound {config : Config} (read : fromEnv env = .ok config) : ConfigSound config := by
  unfold fromEnv at read
  dsimp only at read
  by_cases off : text env envProvider = some "off"
  · rw [if_pos off] at read
    cases read
    exact .disabled
  rw [if_neg off] at read
  by_cases unknown : text env envProvider ≠ none ∧ text env envProvider ≠ some "local" ∧ text env envProvider ≠ some "remote"
  · rw [if_pos unknown] at read
    cases read
  rw [if_neg unknown] at read
  cases named : text env envModel with
  | none =>
    rw [named] at read
    dsimp only at read
    split_ifs at read
    cases read
    exact .disabled
  | some model =>
    rw [named] at read
    obtain ⟨shape,shaped,read⟩ := Lib.Outcome.bind_ok_iff.mp read
    have sound := readShape_ok shaped
    by_cases remote : text env envProvider = some "remote"
    · rw [if_pos remote] at read
      obtain ⟨endpoint,given,read⟩ := Lib.Outcome.bind_ok_iff.mp read
      cases read
      exact .remote sound (text_some (required_ok given))
    · rw [if_neg remote] at read
      exact readLocal_ok sound read

end

/-! ### What is checked -/

/-- An address whose host is granted. -/
def Admitted (around : Surroundings) (url : String) : Prop :=
  ∃ endpoint, parseHttpsEndpoint url = .ok endpoint ∧ around.granted endpoint.host = true

/-- What is there is the pinned file. -/
def Pinned (around : Surroundings) (artifact : WeightArtifact) : Prop :=
  ∃ bytes, around.look artifact.path = .file bytes ∧ bytes.length ≤ maxWeightBytes ∧ hex (around.sha256 bytes) = artifact.sha256

/-- An artifact that is there, or can be fetched. -/
def Obtainable (around : Surroundings) (artifact : WeightArtifact) : Prop :=
  (around.look artifact.path = .absent ∧ Admitted around artifact.url) ∨ Pinned around artifact

def Provisionable (around : Surroundings) : Config → Prop
  | .disabled => True
  | .remote remote => Admitted around remote.endpoint
  | .local' config => Obtainable around config.weights ∧ Obtainable around config.tokenizer

section
variable {around : Surroundings}

theorem admitEndpoint_iff {checks : Checks} {url : String} :
    admitEndpoint around.granted checks url = .ok () ↔ Admitted around url := by
  unfold admitEndpoint Admitted
  constructor
  · intro admitted
    split at admitted
    · next endpoint parsed =>
      unfold admitHost at admitted
      split_ifs at admitted with granted
      exact ⟨endpoint,parsed,granted⟩
    · cases admitted
  · rintro ⟨endpoint,parsed,granted⟩
    rw [parsed]
    exact if_pos granted

theorem isAbsent_iff {entry : Entry} : entry.isAbsent = true ↔ entry = .absent := by
  cases entry with
  | absent => exact ⟨fun _ => rfl,fun _ => rfl⟩
  | dangling => exact ⟨nofun,nofun⟩
  | sealed' => exact ⟨nofun,nofun⟩
  | file => exact ⟨nofun,nofun⟩

theorem verify_iff {artifact : WeightArtifact} : verify around.sha256 artifact (around.look artifact.path) = .ok () ↔
    Pinned around artifact := by
  unfold verify Pinned
  cases around.look artifact.path with
  | absent => exact ⟨nofun,nofun⟩
  | dangling => exact ⟨nofun,nofun⟩
  | sealed' => exact ⟨nofun,nofun⟩
  | file bytes =>
    dsimp only [Entry.open']
    constructor
    · intro verified
      split_ifs at verified with large same
      exact ⟨bytes,rfl,Nat.le_of_not_lt large,same⟩
    · rintro ⟨_,found,small,same⟩
      cases found
      rw [if_neg (Nat.not_lt.mpr small),if_pos same]

theorem ok_bind_iff {ε : Type} {first second : Except ε Unit} :
    (do first; second) = .ok () ↔ first = .ok () ∧ second = .ok () := by
  cases first with
  | error refusal => exact ⟨nofun,nofun⟩
  | ok _ => exact ⟨fun both => ⟨rfl,both⟩,And.right⟩

/-- The ceiling and the files together ask of an artifact that it is there or can be fetched. -/
theorem obtainable_iff {checks : Checks} {artifact : WeightArtifact} :
    (admitArtifact around checks artifact = .ok () ∧ verifyPresent around artifact = .ok ()) ↔ Obtainable around artifact := by
  unfold admitArtifact verifyPresent Obtainable
  by_cases missing : (around.look artifact.path).isAbsent = true
  · have is := isAbsent_iff.mp missing
    have unpinned : ¬Pinned around artifact := by
      rintro ⟨bytes,found,-⟩
      rw [is] at found
      cases found
    rw [if_pos missing,if_pos missing,admitEndpoint_iff]
    simp [is,unpinned]
  · have there : around.look artifact.path ≠ .absent := fun is => missing (isAbsent_iff.mpr is)
    rw [if_neg missing,if_neg missing,verify_iff]
    simp [there]

theorem mapError_ok_iff {ε δ : Type} {change : ε → δ} {outcome : Except ε Unit} :
    outcome.mapError change = .ok () ↔ outcome = .ok () := by
  cases outcome with
  | error refusal => exact ⟨nofun,nofun⟩
  | ok _ => exact ⟨fun _ => rfl,fun _ => rfl⟩

theorem parse_admitted {url : String} (admitted : Admitted around url) :
    (parseHttpsEndpoint url).map (fun _ => ()) = .ok () := by
  obtain ⟨endpoint,parsed,-⟩ := admitted
  rw [parsed]
  rfl

/-- A configuration passes the check just when it can be provisioned. -/
theorem check_iff {config : Config} : check around config = .ok () ↔ Provisionable around config := by
  unfold check
  rw [ok_bind_iff,ok_bind_iff,mapError_ok_iff]
  cases config with
  | disabled => simp [checkEndpointShape,checkCeiling,verifyArtifacts,Provisionable]
  | remote remote =>
    simp only [checkEndpointShape,checkCeiling,verifyArtifacts,Provisionable,admitEndpoint_iff,and_true]
    exact ⟨And.right,fun admitted => ⟨parse_admitted admitted,admitted⟩⟩
  | local' config =>
    simp only [checkEndpointShape,checkCeiling,verifyArtifacts,Provisionable,ok_bind_iff,true_and]
    rw [← @obtainable_iff around weightsChecks config.weights,← @obtainable_iff around tokenizerChecks config.tokenizer]
    tauto

/-- Why the check refuses a configuration. -/
inductive Cause (around : Surroundings) : Config → ChassisError → Prop
  | unparsed {remote : RemoteConfig} {error : ChassisError} (refused : parseHttpsEndpoint remote.endpoint = .error error) :
      Cause around (.remote remote) error
  | ungranted {remote : RemoteConfig} {endpoint : ParsedEndpoint} (parsed : parseHttpsEndpoint remote.endpoint = .ok endpoint)
      (refused : around.granted endpoint.host = false) :
      Cause around (.remote remote) (.denied (CapabilityFailure.message ⟨remoteChecks.egress,embeddingService,endpoint.host⟩))
  | unfetchable {config : LocalConfig} {checks : Checks} {artifact : WeightArtifact} {failure : CapabilityFailure}
      (among : (checks,artifact) ∈ [(weightsChecks,config.weights),(tokenizerChecks,config.tokenizer)])
      (missing : around.look artifact.path = .absent) (refused : admitEndpoint around.granted checks artifact.url = .error failure) :
      Cause around (.local' config) (.denied failure.message)
  | unpinned {config : LocalConfig} {artifact : WeightArtifact} {error : ChassisError}
      (among : artifact ∈ [config.weights,config.tokenizer]) (there : around.look artifact.path ≠ .absent)
      (refused : verify around.sha256 artifact (around.look artifact.path) = .error error) : Cause around (.local' config) error

theorem admitArtifact_error {checks : Checks} {artifact : WeightArtifact} {failure : CapabilityFailure}
    (refused : admitArtifact around checks artifact = .error failure) :
    around.look artifact.path = .absent ∧ admitEndpoint around.granted checks artifact.url = .error failure := by
  unfold admitArtifact at refused
  split_ifs at refused with missing
  exact ⟨isAbsent_iff.mp missing,refused⟩

theorem verifyPresent_error {artifact : WeightArtifact} {error : ChassisError} (refused : verifyPresent around artifact = .error error) :
    around.look artifact.path ≠ .absent ∧ verify around.sha256 artifact (around.look artifact.path) = .error error := by
  unfold verifyPresent at refused
  split_ifs at refused with missing
  exact ⟨fun is => missing (isAbsent_iff.mpr is),refused⟩

theorem error_bind {ε : Type} {first second : Except ε Unit} {error : ε} (failed : (do first; second) = .error error) :
    first = .error error ∨ (first = .ok () ∧ second = .error error) := by
  cases first with
  | error refusal => exact .inl failed
  | ok _ => exact .inr ⟨rfl,failed⟩

theorem mapError_error {ε δ : Type} {change : ε → δ} {outcome : Except ε Unit} {error : δ}
    (failed : outcome.mapError change = .error error) : ∃ refusal, outcome = .error refusal ∧ change refusal = error := by
  cases outcome with
  | error refusal =>
    cases failed
    exact ⟨refusal,rfl,rfl⟩
  | ok _ => cases failed

theorem admitEndpoint_error {checks : Checks} {url : String} {endpoint : ParsedEndpoint} {failure : CapabilityFailure}
    (parsed : parseHttpsEndpoint url = .ok endpoint) (refused : admitEndpoint around.granted checks url = .error failure) :
    around.granted endpoint.host = false ∧ failure = ⟨checks.egress,embeddingService,endpoint.host⟩ := by
  rw [admitEndpoint,parsed] at refused
  dsimp only [admitHost] at refused
  split_ifs at refused with granted
  cases refused
  exact ⟨Bool.eq_false_iff.mpr granted,rfl⟩

/-- A refusal names what is wrong. -/
theorem check_cause {config : Config} {error : ChassisError} (refused : check around config = .error error) :
    Cause around config error := by
  rcases error_bind refused with shape | ⟨shape,later⟩
  · cases config with
    | disabled => cases shape
    | local' config => cases shape
    | remote remote =>
      refine .unparsed ?_
      cases parsed : parseHttpsEndpoint remote.endpoint with
      | error refusal =>
        rw [checkEndpointShape,parsed] at shape
        cases shape
        rfl
      | ok endpoint =>
        rw [checkEndpointShape,parsed] at shape
        cases shape
  rcases error_bind later with ceiling | ⟨-,files⟩
  · obtain ⟨failure,refusal,rfl⟩ := mapError_error ceiling
    cases config with
    | disabled => cases refusal
    | remote remote =>
      cases parsed : parseHttpsEndpoint remote.endpoint with
      | error unparsed =>
        rw [checkEndpointShape,parsed] at shape
        cases shape
      | ok endpoint =>
        obtain ⟨ungranted,rfl⟩ := admitEndpoint_error parsed refusal
        exact .ungranted parsed ungranted
    | local' config =>
      rcases error_bind refusal with first | ⟨-,second⟩
      · obtain ⟨missing,unfetchable⟩ := admitArtifact_error first
        exact .unfetchable (List.mem_cons_self) missing unfetchable
      · obtain ⟨missing,unfetchable⟩ := admitArtifact_error second
        exact .unfetchable (List.mem_cons_of_mem _ List.mem_cons_self) missing unfetchable
  · cases config with
    | disabled => cases files
    | remote remote => cases files
    | local' config =>
      rcases error_bind files with first | ⟨-,second⟩
      · obtain ⟨there,unpinned⟩ := verifyPresent_error first
        exact .unpinned List.mem_cons_self there unpinned
      · obtain ⟨there,unpinned⟩ := verifyPresent_error second
        exact .unpinned (List.mem_cons_of_mem _ List.mem_cons_self) there unpinned

/-- What a provisioning call does with an artifact that the check let pass. -/
theorem obtainable_asks {machine : Machine} {artifact : WeightArtifact} (obtainable : Obtainable around artifact)
    (grants : ∀ host, around.granted host = true → machine.granted host = true) (missing : around.look artifact.path = .absent)
    {call : Call} (own : call.artifact = artifact) :
    ∃ endpoint, ask machine call none = some { call with phase := .fetching endpoint, asked := some endpoint } := by
  rcases obtainable with ⟨-,endpoint,parsed,granted⟩ | ⟨bytes,found,-⟩
  · refine ⟨endpoint,?_⟩
    unfold ask
    rw [own,parsed]
    exact if_pos (grants _ granted)
  · rw [missing] at found
    cases found

/-- A configuration that was read is usable: its artifacts lie below the models directory by
    names alone. It passes the check just when each of them is there as it is pinned or can
    be fetched, and a remote provider's host is granted; a refusal names what is wrong; and
    what passed is not refused where it is provisioned. -/
theorem config_checked {env : String → Option String} {config : Config} (read : fromEnv env = .ok config) (around : Surroundings) :
    ConfigSound config ∧ (check around config = .ok () ↔ Provisionable around config) ∧
      (∀ error, check around config = .error error → Cause around config error) ∧
      ∀ local', config = .local' local' → check around config = .ok () →
        ∀ artifact ∈ [local'.weights,local'.tokenizer], Pinned around artifact ∨ (around.look artifact.path = .absent ∧
          ∀ machine call, (∀ host, around.granted host = true → machine.granted host = true) → call.artifact = artifact →
            ∃ endpoint, ask machine call none = some { call with phase := .fetching endpoint, asked := some endpoint }) := by
  refine ⟨fromEnv_sound read,check_iff,fun error refused => check_cause refused,?_⟩
  rintro local' rfl checked artifact among
  obtain ⟨weights,tokenizer⟩ := check_iff.mp checked
  have obtainable : Obtainable around artifact := by
    rcases List.mem_cons.mp among with rfl | other
    · exact weights
    · rw [List.mem_singleton.mp other]
      exact tokenizer
  rcases obtainable with ⟨missing,admitted⟩ | pinned
  · exact .inr ⟨missing,fun machine call grants own => obtainable_asks (.inl ⟨missing,admitted⟩) grants missing own⟩
  · exact .inl pinned

end

namespace Sample

/-- A local provider whose weights are absent. -/
def settings : List (String × String) :=
  [(envModel,"tiny"),(envDims,"2"),(envModelsDir,"models"),(envWeightsFile,"tiny.safetensors"),
    (envWeightsUrl,"https://models.example/tiny.safetensors"),(envWeightsSha256,String.ofList (List.replicate 64 '0')),
    (envTokenizerFile," tiny.json "),(envTokenizerUrl,"https://models.example/tiny.json"),
    (envTokenizerSha256,String.ofList (List.replicate 64 '0'))]

def env (key : String) : Option String := (settings.find? (fun setting => setting.1 == key)).map Prod.snd

def pin : String := String.ofList (List.replicate 64 '0')

def config : Config :=
  .local' ⟨⟨"tiny",2,true⟩,"models",⟨"models/tiny.safetensors","https://models.example/tiny.safetensors",pin⟩,
    ⟨"models/tiny.json","https://models.example/tiny.json",pin⟩,512⟩

def around : Surroundings :=
  ⟨fun host => host == "models.example",fun path => if path = "models/tiny.json" then .file [1,2] else .absent,
    fun _ => List.replicate 32 0⟩

theorem config_checked_absent : fromEnv env = .ok config ∧ ConfigSound config ∧ Provisionable around config := by
  have read : fromEnv env = .ok config := by decide +kernel
  have checked : check around config = .ok () := by decide +kernel
  obtain ⟨sound,passes,-,-⟩ := config_checked read around
  exact ⟨read,sound,passes.mp checked⟩

end Sample

end Aicortex.EmbeddingConfig
