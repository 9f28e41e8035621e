import Mathlib.Data.List.Basic
import Mathlib.Logic.Function.Basic

/-!
A disk that may lose power. A file has its bytes, and they survive once they are flushed; a
name is an entry in a directory, and until the directory is flushed a power loss may leave
any entry the name has had meanwhile, or none where the directory itself is new. A file
that was flushed before it came under a name is whole under it whatever happens.
-/

namespace Lib.Disks

structure File (β : Type) where
  bytes : List β
  flushed : Bool
  deriving DecidableEq

/-- What processes see, and what a power loss may leave instead. -/
structure Disk (ν β : Type) where
  files : List (File β)
  entries : ν → Option Nat
  stale : ν → List (Option Nat)
  -- names in a directory that was made, and may be lost with it
  loose : ν → Bool

namespace Disk
variable {ν β : Type}

/-- What may stand under a name after a power loss. -/
def possible (disk : Disk ν β) (name : ν) : List (Option Nat) :=
  disk.entries name :: (disk.stale name ++ if disk.loose name then [none] else [])

/-- The bytes of a file; those that were not flushed are for the power loss to choose. -/
def survive (chosen : Nat → List β) (index : Nat) (file : File β) : File β :=
  if file.flushed then file else ⟨chosen index,true⟩

/-- A power loss leaves one of the possible entries of every name. -/
def powerLoss (left : ν → Option Nat) (chosen : Nat → List β) (disk : Disk ν β) : Disk ν β where
  files := disk.files.mapIdx (survive chosen)
  entries := fun name => if left name ∈ disk.possible name then left name else disk.entries name
  stale := fun _ => []
  loose := disk.loose

/-- Make the directory of some names; those that are there were in one that is. -/
def makeDirectory (within : ν → Bool) (disk : Disk ν β) : Disk ν β :=
  { disk with loose := fun name => disk.loose name || within name && (disk.entries name).isNone }

/-- Flush the entries of a directory. -/
def flushEntries (within : ν → Bool) (disk : Disk ν β) : Disk ν β :=
  { disk with stale := fun name => if within name then [] else disk.stale name }

def append (file : Nat) (bytes : List β) (disk : Disk ν β) : Disk ν β :=
  { disk with files := disk.files.modify file (fun file => ⟨file.bytes ++ bytes,false⟩) }

def flush (file : Nat) (disk : Disk ν β) : Disk ν β :=
  { disk with files := disk.files.modify file (fun file => { file with flushed := true }) }

section
variable [DecidableEq ν]

/-- Set an entry; a power loss may still leave the one before it. -/
def enter (name : ν) (file : Option Nat) (disk : Disk ν β) : Disk ν β :=
  { disk with
    entries := Function.update disk.entries name file
    stale := Function.update disk.stale name (disk.entries name :: disk.stale name) }

/-- Make an empty file under a name that is free. -/
def create (name : ν) (disk : Disk ν β) : Option (Nat × Disk ν β) :=
  if (disk.entries name).isSome then none
  else some (disk.files.length,enter name (some disk.files.length) { disk with files := disk.files ++ [⟨[],false⟩] })

def unlink (name : ν) (disk : Disk ν β) : Disk ν β := disk.enter name none

/-- Move what is under a name to another, in one step. -/
def rename (old new : ν) (disk : Disk ν β) : Disk ν β := (disk.enter new (disk.entries old)).enter old none

end

/-! ### What may stand under a name -/

section
variable {disk : Disk ν β} {name other : ν} {entry : Option Nat}

theorem entry_possible (disk : Disk ν β) (name : ν) : disk.entries name ∈ disk.possible name := List.mem_cons_self

theorem powerLoss_possible {left : ν → Option Nat} {chosen : Nat → List β}
    (member : entry ∈ (disk.powerLoss left chosen).possible name) : entry ∈ disk.possible name := by
  have chosen : (disk.powerLoss left chosen).entries name ∈ disk.possible name := by
    show (if left name ∈ disk.possible name then left name else disk.entries name) ∈ disk.possible name
    split_ifs with listed
    · exact listed
    · exact entry_possible disk name
  rcases List.mem_cons.mp member with rfl | loose
  · exact chosen
  · exact List.mem_cons_of_mem _ (List.mem_append_right _ loose)

theorem makeDirectory_loose {within : ν → Bool} (loose : (disk.makeDirectory within).loose name = true) :
    disk.loose name = true ∨ (within name = true ∧ disk.entries name = none) := by
  simpa [makeDirectory] using loose

/-- A directory that is made takes nothing with it that was there. -/
theorem makeDirectory_possible {within : ν → Bool} (member : entry ∈ (disk.makeDirectory within).possible name) :
    entry ∈ disk.possible name := by
  unfold possible at member
  rcases List.mem_cons.mp member with rfl | rest
  · exact entry_possible disk name
  · rcases List.mem_append.mp rest with stale | loose
    · exact List.mem_cons_of_mem _ (List.mem_append_left _ stale)
    · split_ifs at loose with now
      · rw [List.mem_singleton.mp loose]
        rcases makeDirectory_loose now with was | ⟨-,free⟩
        · exact List.mem_cons_of_mem _ (List.mem_append_right _ (by simp [was]))
        · rw [← free]
          exact entry_possible disk name
      · cases loose

theorem flushEntries_possible {within : ν → Bool} (member : entry ∈ (disk.flushEntries within).possible name) :
    entry ∈ disk.possible name ∧ (within name = true → entry = disk.entries name ∨ (entry = none ∧ disk.loose name = true)) := by
  rcases List.mem_cons.mp member with rfl | rest
  · exact ⟨entry_possible disk name,fun _ => .inl rfl⟩
  · rcases List.mem_append.mp rest with stale | loose
    · have stale : entry ∈ if within name then [] else disk.stale name := stale
      split_ifs at stale with inside
      · cases stale
      · exact ⟨List.mem_cons_of_mem _ (List.mem_append_left _ stale),fun within => absurd within inside⟩
    · have loose : entry ∈ if disk.loose name then [none] else [] := loose
      refine ⟨List.mem_cons_of_mem _ (List.mem_append_right _ loose),fun _ => .inr ?_⟩
      split_ifs at loose with was
      · exact ⟨List.mem_singleton.mp loose,was⟩
      · cases loose

section
variable [DecidableEq ν]

@[simp] theorem enter_entry (name : ν) (file : Option Nat) (disk : Disk ν β) : (disk.enter name file).entries name = file := by
  simp [enter]

@[simp] theorem enter_entry_of_ne (apart : other ≠ name) (file : Option Nat) :
    (disk.enter name file).entries other = disk.entries other := by
  simp [enter,apart]

@[simp] theorem enter_files (name : ν) (file : Option Nat) (disk : Disk ν β) : (disk.enter name file).files = disk.files := rfl

theorem enter_possible {file : Option Nat} (member : entry ∈ (disk.enter name file).possible other) :
    entry ∈ disk.possible other ∨ (other = name ∧ entry = file) := by
  by_cases same : other = name
  · subst same
    unfold possible enter at member
    simp only [Function.update_self] at member
    rcases List.mem_cons.mp member with rfl | rest
    · exact .inr ⟨rfl,rfl⟩
    · exact .inl rest
  · unfold possible enter at member
    simp only [Function.update_of_ne same] at member
    exact .inl member

/-- A rename adds to the new name what the old one had, and to the old one nothing. -/
theorem rename_possible {old new : ν} (apart : other ≠ old) (member : entry ∈ (disk.rename old new).possible other) :
    entry ∈ disk.possible other ∨ (other = new ∧ entry = disk.entries old) := by
  rcases enter_possible member with before | ⟨same,-⟩
  · exact enter_possible before
  · exact absurd same apart

theorem rename_entry {old new : ν} (apart : new ≠ old) : (disk.rename old new).entries new = disk.entries old := by
  rw [rename,enter_entry_of_ne apart,enter_entry]

theorem rename_entry_of_ne {old new : ν} (notOld : other ≠ old) (notNew : other ≠ new) :
    (disk.rename old new).entries other = disk.entries other := by
  rw [rename,enter_entry_of_ne notOld,enter_entry_of_ne notNew]

theorem create_ok {file : Nat} {next : Disk ν β} (created : disk.create name = some (file,next)) :
    disk.entries name = none ∧ file = disk.files.length ∧
      next = enter name (some disk.files.length) { disk with files := disk.files ++ [⟨[],false⟩] } := by
  unfold create at created
  split_ifs at created with taken
  cases created
  exact ⟨Option.not_isSome_iff_eq_none.mp taken,rfl,rfl⟩

end

end

/-! ### Flushed files -/

/-- Every flushed file is left as it is. -/
def Onto (before after : Disk ν β) : Prop :=
  ∀ (index : Nat) (file : File β), before.files[index]? = some file → file.flushed = true → after.files[index]? = some file

/-- Nothing is left to flush. -/
structure Settled (disk : Disk ν β) : Prop where
  flushed : ∀ file ∈ disk.files, file.flushed = true
  stale : ∀ name, disk.stale name = []
  loose : ∀ name, disk.loose name = false
  within : ∀ name index, disk.entries name = some index → index < disk.files.length

/-- A flushed file with a property of its bytes. -/
def Whole (disk : Disk ν β) (meets : List β → Prop) (index : Nat) : Prop :=
  ∃ file, disk.files[index]? = some file ∧ file.flushed = true ∧ meets file.bytes

section
variable {disk first second third : Disk ν β} {index : Nat} {meets : List β → Prop}

theorem Onto.refl (disk : Disk ν β) : Onto disk disk := fun _ _ is _ => is

theorem Onto.trans (one : Onto first second) (two : Onto second third) : Onto first third :=
  fun index file is flushed => two index file (one index file is flushed) flushed

theorem Onto.of_files (same : second.files = first.files) : Onto first second := fun index file is _ => by rw [same]; exact is

theorem Settled.possible (settled : Settled disk) {name : ν} {entry : Option Nat} (member : entry ∈ disk.possible name) :
    entry = disk.entries name := by
  simpa [Disk.possible,settled.stale name,settled.loose name] using member

theorem Whole.onto (whole : Whole first meets index) (onto : Onto first second) : Whole second meets index := by
  obtain ⟨file,is,flushed,met⟩ := whole
  exact ⟨file,onto index file is flushed,flushed,met⟩

theorem powerLoss_onto (left : ν → Option Nat) (chosen : Nat → List β) (disk : Disk ν β) :
    Onto disk (disk.powerLoss left chosen) := by
  intro index file is flushed
  simp [powerLoss,is,survive,flushed]

theorem create_onto (name : ν) [DecidableEq ν] (disk : Disk ν β) :
    Onto disk (enter name (some disk.files.length) { disk with files := disk.files ++ [⟨[],false⟩] }) := by
  intro index file is _
  rw [enter_files]
  obtain ⟨inside,-⟩ := List.getElem?_eq_some_iff.mp is
  rw [List.getElem?_append_left inside]
  exact is

theorem append_at {index : Nat} {file : File β} (is : disk.files[index]? = some file) (bytes : List β) :
    (disk.append index bytes).files[index]? = some ⟨file.bytes ++ bytes,false⟩ := by
  simp [append,is]

theorem append_of_ne {index other : Nat} (apart : other ≠ index) (bytes : List β) :
    (disk.append index bytes).files[other]? = disk.files[other]? := by
  simp [append,Ne.symm apart]

/-- What is written to a file that was not flushed leaves the flushed ones. -/
theorem append_onto {file : File β} (is : disk.files[index]? = some file) (unflushed : file.flushed = false) (bytes : List β) :
    Onto disk (disk.append index bytes) := by
  intro other found there flushed
  by_cases same : other = index
  · subst same
    rw [is] at there
    cases there
    rw [unflushed] at flushed
    cases flushed
  · rw [append_of_ne same]
    exact there

theorem flush_at {index : Nat} {file : File β} (is : disk.files[index]? = some file) :
    (disk.flush index).files[index]? = some { file with flushed := true } := by
  simp [flush,is]

theorem flush_of_ne {index other : Nat} (apart : other ≠ index) : (disk.flush index).files[other]? = disk.files[other]? := by
  simp [flush,Ne.symm apart]

theorem flush_onto (index : Nat) (disk : Disk ν β) : Onto disk (disk.flush index) := by
  intro other found there flushed
  by_cases same : other = index
  · subst same
    rw [flush_at there]
    cases found
    simp only at flushed
    rw [flushed]
  · rw [flush_of_ne same]
    exact there

end

end Disk

end Lib.Disks
