import Aicortex.Provisioning

/-!
What stands under an artifact's name. Whatever the calls do and wherever they stop, what the
name may stand for is what was there at first or the pinned file, whole. A call that succeeds
has seen the pinned file under it, and one that fetched it has made it last, as long as the
directories do that had to be made for it.
-/

namespace Aicortex.Provisioning
open Aicortex.Text Aicortex.Endpoints
open Aicortex.ScopeIdentity (hex)
open Lib.Disks Lib.StaleRuns Lib.Disks.Disk
set_option linter.unusedSimpArgs false

def Pinned (machine : Machine) (artifact : WeightArtifact) (bytes : List UInt8) : Prop :=
  hex (machine.sha256 bytes) = artifact.sha256 ∧ bytes.length ≤ maxWeightBytes

/-- The pinned file is under the name. -/
def Present (machine : Machine) (disk : Disk String UInt8) (artifact : WeightArtifact) : Prop :=
  ∃ file, disk.entries artifact.path = some file ∧ Whole disk (Pinned machine artifact) file

/-- A power loss leaves the pinned file under the name, or takes the directory as well. -/
def Lasting (machine : Machine) (disk : Disk String UInt8) (artifact : WeightArtifact) : Prop :=
  ∀ entry ∈ disk.possible artifact.path, (entry = none ∧ disk.loose artifact.path = true) ∨
    ∃ file, entry = some file ∧ Whole disk (Pinned machine artifact) file

/-- What may stand under the name: what was there, or the pinned file. -/
def Stored (machine : Machine) (initial disk : Disk String UInt8) (artifact : WeightArtifact) : Prop :=
  ∀ entry ∈ disk.possible artifact.path, entry = initial.entries artifact.path ∨
    ∃ file, entry = some file ∧ Whole disk (Pinned machine artifact) file

/-- Each path has one pin, and is not what a call writes to on the way to another. -/
structure Consistent (machine : Machine) : Prop where
  pins : ∀ one ∈ machine.artifacts, ∀ two ∈ machine.artifacts, one.path = two.path → one.sha256 = two.sha256
  apart : ∀ one ∈ machine.artifacts, ∀ two ∈ machine.artifacts, ∀ pid sequence,
    temporaryName one.path pid sequence ≠ two.path

/-! ### What a step leaves -/

/-- What a step of a call leaves to the others: flushed files, the files and names of others,
    and under an artifact's name nothing but the pinned file in place of what was there. -/
structure Spares (machine : Machine) (held : Option (String × Nat)) (first second : Disk String UInt8) : Prop where
  onto : Onto first second
  loose : ∀ name, first.loose name = true → second.loose name = true
  files : ∀ index file, first.files[index]? = some file → (∀ hold ∈ held, hold.2 ≠ index) → second.files[index]? = some file
  names : ∀ name file, first.entries name = some file → (∀ hold ∈ held, hold.1 ≠ name) →
    (∀ artifact ∈ machine.artifacts, name ≠ artifact.path) → second.entries name = some file
  paths : ∀ artifact ∈ machine.artifacts, ∀ entry ∈ second.possible artifact.path, entry ∈ first.possible artifact.path ∨
    ∃ file, entry = some file ∧ Whole second (Pinned machine artifact) file
  shown : ∀ artifact ∈ machine.artifacts,
    second.entries artifact.path = first.entries artifact.path ∨ Present machine second artifact

section
variable {machine : Machine} {held : Option (String × Nat)} {initial first second disk : Disk String UInt8}
variable {artifact : WeightArtifact} {name : String} {file : Nat}

theorem Spares.refl (machine : Machine) (held : Option (String × Nat)) (disk : Disk String UInt8) :
    Spares machine held disk disk :=
  ⟨Onto.refl disk,fun _ => id,fun _ _ is _ => is,fun _ _ is _ _ => is,fun _ _ _ member => .inl member,fun _ _ => .inl rfl⟩

theorem Spares.present (spares : Spares machine held first second) (listed : artifact ∈ machine.artifacts)
    (present : Present machine first artifact) : Present machine second artifact := by
  rcases spares.shown artifact listed with same | present
  · obtain ⟨file,is,whole⟩ := present
    exact ⟨file,same.trans is,whole.onto spares.onto⟩
  · exact present

theorem Spares.lasting (spares : Spares machine held first second) (listed : artifact ∈ machine.artifacts)
    (lasting : Lasting machine first artifact) : Lasting machine second artifact := by
  intro entry member
  rcases spares.paths artifact listed entry member with before | after
  · rcases lasting entry before with ⟨gone,loose⟩ | ⟨file,is,whole⟩
    · exact .inl ⟨gone,spares.loose _ loose⟩
    · exact .inr ⟨file,is,whole.onto spares.onto⟩
  · exact .inr after

theorem Spares.stored (spares : Spares machine held first second) (listed : artifact ∈ machine.artifacts)
    (stored : Stored machine initial first artifact) : Stored machine initial second artifact := by
  intro entry member
  rcases spares.paths artifact listed entry member with before | after
  · rcases stored entry before with old | ⟨file,is,whole⟩
    · exact .inl old
    · exact .inr ⟨file,is,whole.onto spares.onto⟩
  · exact .inr after

theorem makeDirectory_spares (disk : Disk String UInt8) (within : String → Bool) :
    Spares machine held disk (disk.makeDirectory within) :=
  ⟨Onto.of_files rfl,fun name loose => by simp [makeDirectory,loose],fun _ _ is _ => is,fun _ _ is _ _ => is,
    fun _ _ _ member => .inl (makeDirectory_possible member),fun _ _ => .inl rfl⟩

theorem flushEntries_spares (disk : Disk String UInt8) (within : String → Bool) :
    Spares machine held disk (disk.flushEntries within) :=
  ⟨Onto.of_files rfl,fun _ => id,fun _ _ is _ => is,fun _ _ is _ _ => is,
    fun _ _ _ member => .inl (flushEntries_possible member).1,fun _ _ => .inl rfl⟩

/-- A name that is no artifact's may be set by the call that holds it. -/
theorem enter_spares (apart : ∀ artifact ∈ machine.artifacts, name ≠ artifact.path) (entry : Option Nat)
    (disk : Disk String UInt8) : Spares machine (some (name,file)) disk (disk.enter name entry) := by
  refine ⟨Onto.of_files rfl,fun _ => id,fun _ _ is _ => is,?_,?_,?_⟩
  · intro other index is others _
    rw [enter_entry_of_ne (fun same => others _ rfl same.symm)]
    exact is
  · intro artifact listed possible member
    rcases enter_possible member with before | ⟨same,-⟩
    · exact .inl before
    · exact absurd same.symm (apart artifact listed)
  · intro artifact listed
    exact .inl (enter_entry_of_ne (apart artifact listed).symm _)

theorem create_spares (apart : ∀ artifact ∈ machine.artifacts, name ≠ artifact.path) (free : disk.entries name = none) :
    Spares machine held disk (enter name (some disk.files.length) { disk with files := disk.files ++ [⟨[],false⟩] }) := by
  refine ⟨create_onto name disk,fun _ => id,?_,?_,?_,?_⟩
  · intro index file is _
    obtain ⟨inside,-⟩ := List.getElem?_eq_some_iff.mp is
    rw [enter_files,List.getElem?_append_left inside]
    exact is
  · intro other index is _ _
    rw [enter_entry_of_ne (fun same => by rw [same,free] at is; cases is)]
    exact is
  · intro artifact listed possible member
    rcases enter_possible member with before | ⟨same,-⟩
    · exact .inl before
    · exact absurd same.symm (apart artifact listed)
  · intro artifact listed
    exact .inl (enter_entry_of_ne (apart artifact listed).symm _)

/-- What is written to a file that was not flushed is for the call that holds it alone. -/
theorem append_spares {content : File UInt8} (is : disk.files[file]? = some content) (unflushed : content.flushed = false)
    (bytes : List UInt8) : Spares machine (some (name,file)) disk (disk.append file bytes) := by
  refine ⟨append_onto is unflushed bytes,fun _ => id,?_,fun _ _ is _ _ => is,fun _ _ _ member => .inl member,fun _ _ => .inl rfl⟩
  intro other content is others
  rw [append_of_ne (fun same => others _ rfl same.symm)]
  exact is

theorem flush_spares (disk : Disk String UInt8) : Spares machine (some (name,file)) disk (disk.flush file) := by
  refine ⟨flush_onto file disk,fun _ => id,?_,fun _ _ is _ _ => is,fun _ _ _ member => .inl member,fun _ _ => .inl rfl⟩
  intro other content is others
  rw [flush_of_ne (fun same => others _ rfl same.symm)]
  exact is

/-- The pinned file comes under the name of the artifact, whichever entry of the list it is. -/
theorem rename_spares (consistent : Consistent machine) (listed : artifact ∈ machine.artifacts)
    (apart : ∀ artifact ∈ machine.artifacts, name ≠ artifact.path) (holds : disk.entries name = some file)
    (whole : Whole disk (Pinned machine artifact) file) :
    Spares machine (some (name,file)) disk (disk.rename name artifact.path) := by
  have onto : Onto disk (disk.rename name artifact.path) := Onto.of_files rfl
  have pinned : ∀ other ∈ machine.artifacts, other.path = artifact.path →
      Whole (disk.rename name artifact.path) (Pinned machine other) file := by
    intro other member same
    obtain ⟨content,is,flushed,digest,size⟩ := whole.onto onto
    exact ⟨content,is,flushed,digest.trans (consistent.pins artifact listed other member same.symm),size⟩
  refine ⟨onto,fun _ => id,fun _ _ is _ => is,?_,?_,?_⟩
  · intro other index is others notListed
    rw [rename_entry_of_ne (fun same => others _ rfl same.symm) (notListed artifact listed)]
    exact is
  · intro other member entry possible
    rcases rename_possible (apart other member).symm possible with before | ⟨same,is⟩
    · exact .inl before
    · exact .inr ⟨file,is.trans holds,pinned other member same⟩
  · intro other member
    by_cases same : other.path = artifact.path
    · refine .inr ⟨file,?_,pinned other member same⟩
      rw [same,rename_entry (apart artifact listed).symm,holds]
    · exact .inl (rename_entry_of_ne (apart other member).symm same)

end

/-! ### Where a call stands -/

/-- The name and the file a call writes to. -/
def Phase.holds : Phase → Option (String × Nat)
  | .writing _ name file _ => some (name,file)
  | .synced name file => some (name,file)
  | _ => none

/-- A file that is being verified: flushed, read so far, and under the name unless the
    pinned one has taken its place. -/
def Reads (machine : Machine) (disk : Disk String UInt8) (artifact : WeightArtifact) (file : Nat) (read : List UInt8) : Prop :=
  (∃ content, disk.files[file]? = some content ∧ content.flushed = true ∧ read <+: content.bytes) ∧
    read.length ≤ maxWeightBytes ∧ (disk.entries artifact.path = some file ∨ Present machine disk artifact)

/-- A call has a file to itself, under a name that no other uses. -/
def Holding (disk : Disk String UInt8) (artifact : WeightArtifact) (name : String) (file : Nat) : Prop :=
  disk.entries name = some file ∧ ∃ pid sequence, name = temporaryName artifact.path pid sequence

/-- What holds at each phase of a call. -/
def Fact (machine : Machine) (disk : Disk String UInt8) (call : Call) : Prop :=
  match call.phase with
  | .arrived => call.asked = none
  | .opening last => if last then Lasting machine disk call.artifact else call.asked = none
  | .verifying last file read =>
    Reads machine disk call.artifact file read ∧ if last then Lasting machine disk call.artifact else call.asked = none
  | .asking => call.asked = none
  | .placing bytes => Pinned machine call.artifact bytes
  | .reserving bytes _ => Pinned machine call.artifact bytes
  | .writing bytes name file written => Pinned machine call.artifact bytes ∧
      disk.files[file]? = some ⟨bytes.take written,false⟩ ∧ Holding disk call.artifact name file
  | .synced name file => Whole disk (Pinned machine call.artifact) file ∧ Holding disk call.artifact name file
  | .installed => Present machine disk call.artifact
  | .ended (.ok _) => Present machine disk call.artifact ∧
      (call.asked.isSome = true → Lasting machine disk call.artifact)
  | _ => True

section
variable {machine : Machine} {first second : Disk String UInt8} {artifact : WeightArtifact} {call : Call} {file : Nat}

theorem Spares.reads {held : Option (String × Nat)} {read : List UInt8} (spares : Spares machine held first second)
    (listed : artifact ∈ machine.artifacts) (reads : Reads machine first artifact file read) :
    Reads machine second artifact file read := by
  obtain ⟨⟨content,is,flushed,sofar⟩,size,stands⟩ := reads
  refine ⟨⟨content,spares.onto file content is flushed,flushed,sofar⟩,size,?_⟩
  rcases stands with under | present
  · rcases spares.shown _ listed with same | present
    · exact .inl (same.trans under)
    · exact .inr present
  · exact .inr (spares.present listed present)

theorem Spares.holding {held : Option (String × Nat)} {name : String} (consistent : Consistent machine)
    (spares : Spares machine held first second) (listed : artifact ∈ machine.artifacts)
    (others : ∀ hold ∈ held, hold.1 ≠ name) (holding : Holding first artifact name file) :
    Holding second artifact name file := by
  obtain ⟨is,pid,sequence,rfl⟩ := holding
  exact ⟨spares.names _ _ is others (fun other member => consistent.apart _ listed other member pid sequence),pid,sequence,rfl⟩

/-- What holds of a call a step of another leaves. -/
theorem Spares.fact {held : Option (String × Nat)} (consistent : Consistent machine) (spares : Spares machine held first second)
    (listed : call.artifact ∈ machine.artifacts)
    (others : ∀ hold ∈ held, ∀ own ∈ call.phase.holds, hold.1 ≠ own.1 ∧ hold.2 ≠ own.2) (fact : Fact machine first call) :
    Fact machine second call := by
  obtain ⟨artifact,phase,boot,asked⟩ := call
  cases phase with
  | arrived => exact fact
  | opening last =>
    cases last with
    | true => exact spares.lasting listed fact
    | false => exact fact
  | verifying last file read =>
    refine ⟨spares.reads listed fact.1,?_⟩
    cases last with
    | true => exact spares.lasting listed fact.2
    | false => exact fact.2
  | asking => exact fact
  | fetching endpoint => exact fact
  | placing bytes => exact fact
  | reserving bytes tries => exact fact
  | writing bytes name file written =>
    obtain ⟨pinned,is,holding⟩ := fact
    exact ⟨pinned,spares.files _ _ is (fun hold member => (others hold member _ rfl).2),
      spares.holding consistent listed (fun hold member => (others hold member _ rfl).1) holding⟩
  | synced name file =>
    obtain ⟨whole,holding⟩ := fact
    exact ⟨whole.onto spares.onto,
      spares.holding consistent listed (fun hold member => (others hold member _ rfl).1) holding⟩
  | installed => exact spares.present listed fact
  | ended result =>
    cases result with
    | ok _ => exact ⟨spares.present listed fact.1,fun asked => spares.lasting listed (fact.2 asked)⟩
    | error _ => exact fact
  | dead => exact fact

end

/-! ### One step of a call -/

/-- What a step of a call does. -/
structure Advanced (machine : Machine) (disk next : Disk String UInt8) (call later : Call) : Prop where
  same : later.artifact = call.artifact ∧ later.boot = call.boot
  spares : Spares machine call.phase.holds disk next
  fact : Fact machine next later
  asked : later.asked = call.asked ∨ ∃ endpoint, later.asked = some endpoint ∧
    parseHttpsEndpoint call.artifact.url = .ok endpoint ∧ machine.granted endpoint.host = true
  holds : ∀ hold ∈ later.phase.holds,
    hold ∈ call.phase.holds ∨ (disk.entries hold.1 = none ∧ hold.2 = disk.files.length)

section
variable {machine : Machine} {initial disk next : Disk String UInt8} {call later : Call} {phase : Phase}

/-- A step that leaves the disk, to a phase with nothing held. -/
theorem Advanced.still (fact : Fact machine disk (call.at phase)) (holds : phase.holds = none) :
    Advanced machine disk disk call (call.at phase) :=
  ⟨⟨rfl,rfl⟩,.refl machine _ disk,fact,.inl rfl,by simp [Call.at,holds]⟩

/-- A step that leaves what is held, or lets go of it. -/
theorem Advanced.onto (spares : Spares machine call.phase.holds disk next) (fact : Fact machine next (call.at phase))
    (holds : ∀ hold ∈ phase.holds, hold ∈ call.phase.holds) : Advanced machine disk next call (call.at phase) :=
  ⟨⟨rfl,rfl⟩,spares,fact,.inl rfl,fun hold member => .inl (holds hold member)⟩

theorem Advanced.refuse (error : ChassisError) : Advanced machine disk disk call (call.refuse error) :=
  .still trivial rfl

theorem settle_advanced {last : Bool} {verified : Except ChassisError PUnit}
    (fact : if last then Lasting machine disk call.artifact else call.asked = none)
    (present : verified = .ok ⟨⟩ → Present machine disk call.artifact) :
    Advanced machine disk disk call (settle call last verified) := by
  cases last with
  | true =>
    refine Advanced.still ?_ rfl
    cases verified with
    | ok _ => exact ⟨present rfl,fun _ => fact⟩
    | error _ => exact trivial
  | false =>
    have unasked : call.asked = none := fact
    cases verified with
    | ok _ => exact Advanced.still ⟨present rfl,fun asked => by simp [Call.at,unasked] at asked⟩ rfl
    | error _ => exact Advanced.still unasked rfl

theorem unless_advanced {refusal : Option ChassisError} (within : String → Bool) (holds : phase.holds = none)
    (fact : Fact machine (disk.makeDirectory within) (call.at phase)) :
    Advanced machine disk (disk.makeDirectory within) call (call.unless refusal phase) := by
  cases refusal with
  | some error => exact .onto (makeDirectory_spares disk within) trivial (fun _ member => by cases member)
  | none => exact .onto (makeDirectory_spares disk within) fact (fun _ member => by rw [holds] at member; cases member)

theorem confine_advanced {made : List String} {refusal : Option ChassisError} (fact : Fact machine disk call)
    (advanced : advance machine disk call (.confine made refusal) = some (next,later)) :
    Advanced machine disk next call later := by
  dsimp only [advance] at advanced
  unfold Fact at fact
  split at advanced
  · next is =>
    cases advanced
    simp only [is] at fact
    exact unless_advanced _ rfl fact
  · cases advanced

/-- The file that is under the name was there at first, or is the pinned one. -/
theorem stored_flushed (settled : Settled initial) (onto : Onto initial disk) (stored : Stored machine initial disk call.artifact)
    {index : Nat} {content : File UInt8} (under : disk.entries call.artifact.path = some index)
    (is : disk.files[index]? = some content) : content.flushed = true := by
  have possible : some index ∈ disk.possible call.artifact.path := under ▸ entry_possible disk call.artifact.path
  rcases stored (some index) possible with old | ⟨file,same,whole⟩
  · have inside := settled.within _ _ old.symm
    have flushed := settled.flushed _ (List.getElem_mem inside)
    have kept := onto index _ (List.getElem?_eq_getElem inside) flushed
    rw [is] at kept
    cases kept
    exact flushed
  · cases same
    obtain ⟨content',is',flushed,-⟩ := whole
    rw [is] at is'
    cases is'
    exact flushed

theorem open_advanced (settled : Settled initial) (onto : Onto initial disk) (stored : Stored machine initial disk call.artifact)
    (fact : Fact machine disk call) (advanced : advance machine disk call .open = some (next,later)) :
    Advanced machine disk next call later := by
  dsimp only [advance] at advanced
  unfold Fact at fact
  split at advanced
  · next last is =>
    simp only [is] at fact
    split at advanced
    · cases advanced
      exact settle_advanced fact (fun ok => by cases ok)
    · next index under =>
      obtain ⟨content,file,rest⟩ := Option.bind_eq_some_iff.mp advanced
      split_ifs at rest with large
      · cases rest
        exact settle_advanced fact (fun ok => by cases ok)
      · cases rest
        have flushed := stored_flushed settled onto stored under file
        refine Advanced.still ⟨⟨⟨content,file,flushed,List.nil_prefix⟩,Nat.zero_le _,.inl under⟩,fact⟩ rfl
  · cases advanced

theorem read_advanced {count : Nat} (fact : Fact machine disk call)
    (advanced : advance machine disk call (.read count) = some (next,later)) : Advanced machine disk next call later := by
  dsimp only [advance] at advanced
  unfold Fact at fact
  split at advanced
  · next last index read is =>
    simp only [is] at fact
    obtain ⟨⟨⟨content,file,flushed,sofar⟩,size,stands⟩,fact⟩ := fact
    obtain ⟨content',file',rest⟩ := Option.bind_eq_some_iff.mp advanced
    rw [file] at file'
    cases file'
    split_ifs at rest with whole much large
    · -- what was read is the whole file
      cases rest
      have same : read = content.bytes := sofar.eq_of_length_le whole
      refine settle_advanced fact (fun ok => ?_)
      unfold checkDigest at ok
      split_ifs at ok with matched
      subst same
      rcases stands with under | present
      · exact ⟨index,under,content,file,flushed,matched,size⟩
      · exact present
    · cases rest
      exact settle_advanced fact (fun ok => by cases ok)
    · cases rest
      refine Advanced.still ⟨⟨⟨content,file,flushed,?_⟩,Nat.le_of_not_lt large,stands⟩,fact⟩ rfl
      obtain ⟨left,joined⟩ := sofar
      rw [← joined,List.drop_left]
      exact (List.prefix_append_right_inj _).mpr (List.take_prefix _ _)
  · cases advanced

theorem permit_advanced {refusal : Option ChassisError}
    (advanced : advance machine disk call (.permit refusal) = some (next,later)) : Advanced machine disk next call later := by
  dsimp only [advance] at advanced
  split at advanced
  · obtain ⟨asked,is,same⟩ := Option.map_eq_some_iff.mp advanced
    cases same
    unfold ask at is
    split at is
    · cases is
      exact .refuse _
    · cases is
      exact .refuse _
    · next endpoint parsed =>
      split_ifs at is with granted
      cases is
      exact ⟨⟨rfl,rfl⟩,.refl machine _ _,trivial,.inr ⟨endpoint,rfl,parsed,granted⟩,fun _ member => by cases member⟩
  · cases advanced

theorem download_advanced {fetched : Except ChassisError (List UInt8)}
    (advanced : advance machine disk call (.download fetched) = some (next,later)) : Advanced machine disk next call later := by
  dsimp only [advance] at advanced
  split at advanced
  · cases advanced
    unfold accept
    split
    · exact .refuse _
    · split_ifs with large pinned
      · exact .refuse _
      · exact Advanced.still ⟨pinned,Nat.le_of_not_lt large⟩ rfl
      · exact .refuse _
  · cases advanced

theorem place_advanced {made : List String} {refusal : Option ChassisError} (fact : Fact machine disk call)
    (advanced : advance machine disk call (.place made refusal) = some (next,later)) :
    Advanced machine disk next call later := by
  dsimp only [advance] at advanced
  unfold Fact at fact
  split at advanced
  · next bytes is =>
    cases advanced
    simp only [is] at fact
    exact unless_advanced _ rfl fact
  · cases advanced

theorem reserve_advanced {pid sequence : Nat} (consistent : Consistent machine) (listed : call.artifact ∈ machine.artifacts)
    (fact : Fact machine disk call) (advanced : advance machine disk call (.reserve pid sequence) = some (next,later)) :
    Advanced machine disk next call later := by
  dsimp only [advance] at advanced
  unfold Fact at fact
  split at advanced
  · next bytes tries is =>
    simp only [is] at fact
    split at advanced
    · next file created made =>
      cases advanced
      obtain ⟨free,rfl,rfl⟩ := create_ok made
      have apart : ∀ artifact ∈ machine.artifacts, temporaryName call.artifact.path pid sequence ≠ artifact.path :=
        fun other member => consistent.apart _ listed other member pid sequence
      refine ⟨⟨rfl,rfl⟩,create_spares apart free,⟨fact,?_,enter_entry _ _ _,pid,sequence,rfl⟩,.inl rfl,?_⟩
      · simp
      · intro hold member
        cases member
        exact .inr ⟨free,rfl⟩
    · split_ifs at advanced with more
      · cases advanced
        exact Advanced.still fact rfl
      · cases advanced
        exact .refuse _
  · cases advanced

theorem write_advanced {count : Nat} (fact : Fact machine disk call)
    (advanced : advance machine disk call (.write count) = some (next,later)) : Advanced machine disk next call later := by
  dsimp only [advance] at advanced
  unfold Fact at fact
  split at advanced
  · next bytes name file written is =>
    simp only [is] at fact
    obtain ⟨pinned,content,holding⟩ := fact
    split_ifs at advanced with beyond
    cases advanced
    refine .onto (by rw [is]; exact append_spares content rfl _) ⟨pinned,?_,holding⟩ (by rw [is]; exact fun _ => id)
    rw [append_at content,List.take_add]
  · cases advanced

theorem sync_advanced (fact : Fact machine disk call) (advanced : advance machine disk call .sync = some (next,later)) :
    Advanced machine disk next call later := by
  dsimp only [advance] at advanced
  unfold Fact at fact
  split at advanced
  · next bytes name file written is =>
    simp only [is] at fact
    obtain ⟨pinned,content,holding⟩ := fact
    split_ifs at advanced with complete
    cases advanced
    subst complete
    rw [List.take_length] at content
    refine .onto (by rw [is]; exact flush_spares disk) ⟨⟨_,flush_at content,rfl,pinned⟩,holding⟩ (by rw [is]; exact fun _ => id)
  · cases advanced

theorem rename_advanced (consistent : Consistent machine) (listed : call.artifact ∈ machine.artifacts)
    (fact : Fact machine disk call) (advanced : advance machine disk call .rename = some (next,later)) :
    Advanced machine disk next call later := by
  dsimp only [advance] at advanced
  unfold Fact at fact
  split at advanced
  · next name file is =>
    simp only [is] at fact
    obtain ⟨whole,holds,pid,sequence,rfl⟩ := fact
    cases advanced
    have apart : ∀ artifact ∈ machine.artifacts, temporaryName call.artifact.path pid sequence ≠ artifact.path :=
      fun other member => consistent.apart _ listed other member pid sequence
    have spares := rename_spares consistent listed apart holds whole
    refine .onto (by rw [is]; exact spares) ⟨file,?_,whole.onto spares.onto⟩ (fun _ member => by cases member)
    exact (rename_entry (apart _ listed).symm).trans holds
  · cases advanced

/-- Once the directory is flushed too, the file is there to stay. -/
theorem syncDirectory_advanced (fact : Fact machine disk call)
    (advanced : advance machine disk call .syncDirectory = some (next,later)) : Advanced machine disk next call later := by
  dsimp only [advance] at advanced
  unfold Fact at fact
  split at advanced
  · next is =>
    simp only [is] at fact
    obtain ⟨file,under,whole⟩ := fact
    cases advanced
    refine .onto (flushEntries_spares disk _) ?_ (fun _ member => by cases member)
    intro entry possible
    rcases (flushEntries_possible possible).2 (by simp [Call.at]) with same | gone
    · exact .inr ⟨file,same.trans under,whole⟩
    · exact .inl gone
  · cases advanced

/-- An operation that fails takes nothing away but what the call itself had written. -/
theorem fault_advanced {error : String} {cleaned : Bool} (consistent : Consistent machine)
    (listed : call.artifact ∈ machine.artifacts) (fact : Fact machine disk call)
    (advanced : advance machine disk call (.fault error cleaned) = some (next,later)) :
    Advanced machine disk next call later := by
  have removed : ∀ {name : String} {file : Nat} (error : ChassisError), Holding disk call.artifact name file →
      call.phase.holds = some (name,file) →
      Advanced machine disk (if cleaned then disk.unlink name else disk) call (call.refuse error) := by
    rintro name file error ⟨-,pid,sequence,rfl⟩ holds
    cases cleaned with
    | true =>
      refine .onto ?_ trivial (fun _ member => by cases member)
      rw [holds]
      exact enter_spares (fun other member => consistent.apart _ listed other member pid sequence) none disk
    | false => exact .refuse error
  dsimp only [advance,fail] at advanced
  unfold Fact at fact
  split at advanced
  · next is =>
    simp only [is] at fact
    cases advanced
    exact settle_advanced fact (fun ok => by cases ok)
  · next is =>
    simp only [is] at fact
    cases advanced
    exact settle_advanced fact.2 (fun ok => by cases ok)
  · cases advanced
    exact .refuse _
  · next is =>
    simp only [is] at fact
    cases advanced
    exact removed _ fact.2.2 (by rw [is]; rfl)
  · next is =>
    simp only [is] at fact
    cases advanced
    exact removed _ fact.2 (by rw [is]; rfl)
  · cases advanced
    exact .refuse _
  · cases advanced

theorem kill_advanced (advanced : advance machine disk call .kill = some (next,later)) :
    Advanced machine disk next call later := by
  dsimp only [advance] at advanced
  split_ifs at advanced with live
  cases advanced
  exact Advanced.still trivial rfl

/-- Every step of a call. -/
theorem advanced_of_advance {step : Step} (consistent : Consistent machine) (settled : Settled initial)
    (onto : Onto initial disk) (listed : call.artifact ∈ machine.artifacts) (stored : Stored machine initial disk call.artifact)
    (fact : Fact machine disk call) (advanced : advance machine disk call step = some (next,later)) :
    Advanced machine disk next call later := by
  cases step with
  | confine made refusal => exact confine_advanced fact advanced
  | «open» => exact open_advanced settled onto stored fact advanced
  | read count => exact read_advanced fact advanced
  | permit refusal => exact permit_advanced advanced
  | download fetched => exact download_advanced advanced
  | place made refusal => exact place_advanced fact advanced
  | reserve pid sequence => exact reserve_advanced consistent listed fact advanced
  | write count => exact write_advanced fact advanced
  | sync => exact sync_advanced fact advanced
  | rename => exact rename_advanced consistent listed fact advanced
  | syncDirectory => exact syncDirectory_advanced fact advanced
  | fault error cleaned => exact fault_advanced consistent listed fact advanced
  | kill => exact kill_advanced advanced

end

end Aicortex.Provisioning
