import Aicortex.Endpoints
import Aicortex.ScopeIdentity
import Aicortex.Lib.Disks
import Aicortex.Lib.StaleRuns

/-!
Provisioning of the model artifacts. A call verifies what is under the artifact's name and,
where that is not the pinned file, fetches it, writes it beside under a name of its own,
flushes it and renames it into place. Calls of any number of processes run beside each other
on one disk; a process may be killed and the machine may lose power between any two steps.
-/

namespace Aicortex.Provisioning
open Aicortex.Text Aicortex.Endpoints
open Aicortex.ScopeIdentity (hex)
open Lib.Disks Lib.StaleRuns
set_option linter.unusedSimpArgs false

def maxWeightBytes : Nat := 1024 * 1024 * 1024

/-- The buffer a file is read through. -/
def bufferBytes : Nat := 64 * 1024

structure WeightArtifact where
  path : String
  url : String
  sha256 : String
  deriving Repr, DecidableEq

/-! ### Errors -/

def unreadable (path error : String) : ChassisError := .io [.lit "cannot read model artifact ",.lit path,.lit ": ",.lit error]

def tooLarge (path : String) : ChassisError :=
  .integrity [.lit "model artifact ",.lit path,.lit " exceeds the ",.lit (toString maxWeightBytes),.lit "-byte limit"]

def mismatch (path actual pin : String) : ChassisError :=
  .integrity [.lit "model artifact ",.lit path,.lit " has SHA-256 ",.lit actual,.lit ", expected ",.lit pin]

def downloadTooLarge : ChassisError :=
  .integrity [.lit "downloaded model artifact exceeds the ",.lit (toString maxWeightBytes),.lit "-byte limit"]

def downloadMismatch (actual pin : String) : ChassisError :=
  .integrity [.lit "downloaded model artifact has SHA-256 ",.lit actual,.lit ", expected ",.lit pin]

/-- What the system calls a name that is not there. -/
def notFound : String := "No such file or directory (os error 2)"

def maxReservations : Nat := 16

def unreserved : ChassisError := .io [.lit "cannot reserve a temporary model artifact"]

/-! ### Calls -/

/-- Where a call to ensure an artifact stands. `last` marks the check of what it installed. -/
inductive Phase where
  | arrived
  | opening (last : Bool)
  | verifying (last : Bool) (file : Nat) (read : List UInt8)
  | asking
  | fetching (endpoint : ParsedEndpoint)
  | placing (bytes : List UInt8)
  | reserving (bytes : List UInt8) (tries : Nat)
  | writing (bytes : List UInt8) (name : String) (file written : Nat)
  | synced (name : String) (file : Nat)
  | installed
  | ended (result : Except ChassisError PUnit)
  | dead

structure Call where
  artifact : WeightArtifact
  phase : Phase
  -- the start of the machine it runs in
  boot : Nat
  -- what it has fetched, or tried to
  asked : Option ParsedEndpoint

/-- A step of a call, with what its surroundings answer. -/
inductive Step where
  | confine (made : List String) (refusal : Option ChassisError)
  | open
  | read (count : Nat)
  | permit (refusal : Option ChassisError)
  | download (fetched : Except ChassisError (List UInt8))
  | place (made : List String) (refusal : Option ChassisError)
  | reserve (pid sequence : Nat)
  | write (count : Nat)
  | sync
  | rename
  | syncDirectory
  -- an operation that fails; what the call had written may be removed
  | fault (error : String) (cleaned : Bool)
  | kill

/-- The digest, which is linked code, and the hosts the manifest grants. -/
structure Machine where
  sha256 : List UInt8 → List UInt8
  granted : String → Bool
  artifacts : List WeightArtifact

def Call.at (call : Call) (phase : Phase) : Call := { call with phase := phase }

def Call.refuse (call : Call) (error : ChassisError) : Call := call.at (.ended (.error error))

/-- A call goes on unless it is refused. -/
def Call.unless (call : Call) (refusal : Option ChassisError) (phase : Phase) : Call :=
  match refusal with
  | some error => call.refuse error
  | none => call.at phase

/-- Names under one of some directories. -/
def below (directories : List String) (name : String) : Bool :=
  directories.any (fun directory => (directory ++ "/").toList.isPrefixOf name.toList)

/-- The directory part of a name, with its separator. -/
def directoryOf (name : String) : List Char := (name.toList.reverse.dropWhile (· != '/')).reverse

def temporaryName (path : String) (pid sequence : Nat) : String :=
  path ++ ".partial-" ++ toString pid ++ "-" ++ toString sequence

section
variable (machine : Machine)

def checkDigest (artifact : WeightArtifact) (bytes : List UInt8) : Except ChassisError PUnit :=
  if hex (machine.sha256 bytes) = artifact.sha256 then .ok ⟨⟩
  else .error (mismatch artifact.path (hex (machine.sha256 bytes)) artifact.sha256)

/-- After a verification: the first one ends the call only where it succeeds. -/
def settle (call : Call) (last : Bool) (verified : Except ChassisError PUnit) : Call :=
  if last then call.at (.ended verified)
  else match verified with
    | .ok _ => call.at (.ended (.ok ⟨⟩))
    | .error _ => call.at .asking

/-- What a call does with what it fetched. -/
def accept (call : Call) : Except ChassisError (List UInt8) → Call
  | .error error => call.refuse error
  | .ok bytes =>
    if maxWeightBytes < bytes.length then call.refuse downloadTooLarge
    else if hex (machine.sha256 bytes) = call.artifact.sha256 then call.at (.placing bytes)
    else call.refuse (downloadMismatch (hex (machine.sha256 bytes)) call.artifact.sha256)

/-- The permit for the host of the artifact's address; only a granted one is given. -/
def ask (call : Call) (refusal : Option ChassisError) : Option Call :=
  match parseHttpsEndpoint call.artifact.url, refusal with
  | .error error, _ => some (call.refuse error)
  | .ok _, some error => some (call.refuse error)
  | .ok endpoint, none =>
    if machine.granted endpoint.host then some { call with phase := .fetching endpoint, asked := some endpoint } else none

/-- An operation fails: the error, and what the call had written is removed if that works. -/
def fail (disk : Disk String UInt8) (call : Call) (error : String) (cleaned : Bool) : Option (Disk String UInt8 × Call) :=
  match call.phase with
  | .opening last => some (disk,settle call last (.error (unreadable call.artifact.path error)))
  | .verifying last _ _ => some (disk,settle call last (.error (unreadable call.artifact.path error)))
  | .reserving _ _ => some (disk,call.refuse (.io [.lit "cannot create temporary model artifact: ",.lit error]))
  | .writing bytes name _ written =>
    let doing := if written = bytes.length then "cannot sync temporary model artifact: " else "cannot write temporary model artifact: "
    some (if cleaned then disk.unlink name else disk,call.refuse (.io [.lit doing,.lit error]))
  | .synced name _ =>
    some (if cleaned then disk.unlink name else disk,
      call.refuse (.io [.lit "cannot install model artifact ",.lit call.artifact.path,.lit ": ",.lit error]))
  | .installed =>
    some (disk,call.refuse (.io [.lit "cannot sync model directory for ",.lit call.artifact.path,.lit ": ",.lit error]))
  | _ => none

/-- A call that is still running. -/
def Phase.live : Phase → Bool
  | .ended _ => false
  | .dead => false
  | _ => true

/-- One step of a call, where the call is ready for it. -/
def advance (disk : Disk String UInt8) (call : Call) : Step → Option (Disk String UInt8 × Call)
  | .confine made refusal =>
    match call.phase with
    | .arrived => some (disk.makeDirectory (below made),call.unless refusal (.opening false))
    | _ => none
  | .open =>
    match call.phase with
    | .opening last =>
      match disk.entries call.artifact.path with
      | none => some (disk,settle call last (.error (unreadable call.artifact.path notFound)))
      | some index => do
        let file ← disk.files[index]?
        if maxWeightBytes < file.bytes.length then some (disk,settle call last (.error (tooLarge call.artifact.path)))
        else some (disk,call.at (.verifying last index []))
    | _ => none
  | .read count =>
    match call.phase with
    | .verifying last index read => do
      let file ← disk.files[index]?
      if file.bytes.length ≤ read.length then some (disk,settle call last (checkDigest machine call.artifact read))
      else if count = 0 ∨ bufferBytes < count then none
      else
        let read := read ++ (file.bytes.drop read.length).take count
        if maxWeightBytes < read.length then some (disk,settle call last (.error (tooLarge call.artifact.path)))
        else some (disk,call.at (.verifying last index read))
    | _ => none
  | .permit refusal =>
    match call.phase with
    | .asking => (ask machine call refusal).map (Prod.mk disk)
    | _ => none
  | .download fetched =>
    match call.phase with
    | .fetching _ => some (disk,accept machine call fetched)
    | _ => none
  | .place made refusal =>
    match call.phase with
    | .placing bytes => some (disk.makeDirectory (below made),call.unless refusal (.reserving bytes 0))
    | _ => none
  | .reserve pid sequence =>
    match call.phase with
    | .reserving bytes tries =>
      let name := temporaryName call.artifact.path pid sequence
      match disk.create name with
      | some (file,created) => some (created,call.at (.writing bytes name file 0))
      | none =>
        if tries + 1 < maxReservations then some (disk,call.at (.reserving bytes (tries + 1)))
        else some (disk,call.refuse unreserved)
    | _ => none
  | .write count =>
    match call.phase with
    | .writing bytes name file written =>
      if count = 0 ∨ bytes.length < written + count then none
      else some (disk.append file ((bytes.drop written).take count),call.at (.writing bytes name file (written + count)))
    | _ => none
  | .sync =>
    match call.phase with
    | .writing bytes name file written =>
      if written = bytes.length then some (disk.flush file,call.at (.synced name file)) else none
    | _ => none
  | .rename =>
    match call.phase with
    | .synced name _ => some (disk.rename name call.artifact.path,call.at .installed)
    | _ => none
  | .syncDirectory =>
    match call.phase with
    | .installed =>
      some (disk.flushEntries (fun name => directoryOf name == directoryOf call.artifact.path),call.at (.opening true))
    | _ => none
  | .fault error cleaned => fail disk call error cleaned
  | .kill => if call.phase.live then some (disk,call.at .dead) else none

/-! ### A machine at work -/

structure Site where
  disk : Disk String UInt8
  calls : List Call
  boot : Nat

inductive Action where
  | arrive (artifact : WeightArtifact)
  | advance (index : Nat) (step : Step)
  -- with what the disk is left with
  | powerLoss (left : String → Option Nat) (chosen : Nat → List UInt8)

/-- A call that is not ready for the step. -/
inductive Unready where
  | unready
  deriving Repr, DecidableEq

/-- A power loss ends every process. -/
def Call.lose (call : Call) : Call := if call.phase.live then call.at .dead else call

def apply (site : Site) : Action → Except Unready Site
  | .arrive artifact => .ok { site with calls := site.calls ++ [⟨artifact,.arrived,site.boot,none⟩] }
  | .advance index step =>
    match site.calls[index]? with
    | none => .error .unready
    | some call =>
      match Provisioning.advance machine site.disk call step with
      | none => .error .unready
      | some (disk,call) => .ok { site with disk := disk, calls := site.calls.set index call }
  | .powerLoss left chosen =>
    .ok { disk := site.disk.powerLoss left chosen, calls := site.calls.map Call.lose, boot := site.boot + 1 }

/-- A call is for one of the deployment's artifacts. -/
def Listed : Action → Prop
  | .arrive artifact => artifact ∈ machine.artifacts
  | _ => True

/-- The machine from a disk on. -/
def system (initial : Disk String UInt8) : System Site Action Action Unready :=
  ⟨⟨initial,[],0⟩,apply machine,fun action => [action],fun _ action => Listed machine action⟩

end

end Aicortex.Provisioning
