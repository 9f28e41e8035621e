import Aicortex.Lib.Outcome
import Mathlib.Data.List.Nodup

/-!
Written forms of records. A tree is what a self-describing format carries: integers,
texts, lists and records of named fields. A codec writes a value as a tree and reads one
back; a value is kept when reading what was written gives it again. A codec is faithful
when nothing else is ever read from what was written. Each way of building a codec from
others comes with the rules that say which values it keeps and that it is faithful.
-/

namespace Lib.Wire
open Lib.Outcome

inductive Tree where
  | null
  | int (value : Int)
  | text (value : String)
  | list (items : List Tree)
  | record (fields : List (String × Tree))

/-- Why a tree was not read. -/
inductive Refusal (ε : Type) where
  | unexpected (wanted : String)
  | unknownField (name : String)
  | duplicateField (name : String)
  | missingField (name : String)
  | refused (reason : ε)

structure Codec (ε α : Type) where
  encode : α → Tree
  decode : Tree → Except (Refusal ε) α

variable {ε α β : Type}

/-- Reading what was written gives the value again. -/
def Codec.Keeps (codec : Codec ε α) (value : α) : Prop := codec.decode (codec.encode value) = .ok value

/-- Nothing is written as null, which stands for an absent value. -/
def Codec.Written (codec : Codec ε α) : Prop := ∀ value, codec.encode value ≠ .null

/-- What was written is read as the value it was written from, or not at all. -/
def Codec.Faithful (codec : Codec ε α) : Prop :=
  ∀ value other, codec.decode (codec.encode value) = .ok other → other = value

theorem Codec.faithful_of_keeps {codec : Codec ε α} (keeps : ∀ value, codec.Keeps value) : codec.Faithful :=
  fun value _ read => Except.ok.inj (read.symm.trans (keeps value))

theorem Codec.Faithful.read_iff {codec : Codec ε α} (faithful : codec.Faithful) {value other : α} :
    codec.decode (codec.encode value) = .ok other ↔ other = value ∧ codec.Keeps value := by
  constructor
  · intro read
    obtain rfl := faithful value other read
    exact ⟨rfl,read⟩
  · rintro ⟨rfl,kept⟩
    exact kept

/-! ### Plain values -/

def text : Codec ε String where
  encode := .text
  decode
    | .text value => .ok value
    | _ => .error (.unexpected "a string")

/-- The integers of a machine type. -/
def int (low high : Int) : Codec ε Int where
  encode := .int
  decode
    | .int value => if low ≤ value ∧ value ≤ high then .ok value else .error (.unexpected "an integer of its width")
    | _ => .error (.unexpected "an integer")

/-- The naturals of a machine type. -/
def nat (high : Nat) : Codec ε Nat where
  encode value := .int value
  decode
    | .int value => if 0 ≤ value ∧ value ≤ high then .ok value.toNat else .error (.unexpected "an integer of its width")
    | _ => .error (.unexpected "an integer")

def list (codec : Codec ε α) : Codec ε (List α) where
  encode values := .list (values.map codec.encode)
  decode
    | .list items => items.mapM codec.decode
    | _ => .error (.unexpected "a sequence")

theorem text_written : (text : Codec ε String).Written := fun value => by simp [text]
theorem int_written {low high : Int} : (int low high : Codec ε Int).Written := fun value => by simp [int]

theorem text_keeps (value : String) : (text : Codec ε String).Keeps value := rfl

theorem int_keeps_iff {low high value : Int} : (int low high : Codec ε Int).Keeps value ↔ low ≤ value ∧ value ≤ high := by
  simp only [Codec.Keeps,int]
  split <;> simp_all

theorem nat_keeps_iff {high value : Nat} : (nat high : Codec ε Nat).Keeps value ↔ value ≤ high := by
  simp only [Codec.Keeps,nat]
  split <;> simp_all

theorem int_faithful {low high : Int} : (int low high : Codec ε Int).Faithful := by
  intro value other read
  simp only [int] at read
  split at read <;> cases read
  rfl

theorem nat_faithful {high : Nat} : (nat high : Codec ε Nat).Faithful := by
  intro value other read
  simp only [nat] at read
  split at read <;> cases read
  rfl

theorem list_faithful {codec : Codec ε α} (faithful : codec.Faithful) : (list codec).Faithful := by
  intro values others read
  simp only [list] at read
  induction values generalizing others with
  | nil =>
    cases read
    rfl
  | cons value rest ih =>
    rw [List.map_cons,List.mapM_cons,bind_ok_iff] at read
    obtain ⟨first,readFirst,remaining⟩ := read
    obtain ⟨more,readRest,joined⟩ := bind_ok_iff.mp remaining
    cases joined
    rw [faithful _ _ readFirst,ih _ readRest]

/-- A list is kept when its items are. -/
theorem list_keeps_iff {codec : Codec ε α} {values : List α} :
    (list codec).Keeps values ↔ ∀ value ∈ values, codec.Keeps value := by
  simp only [Codec.Keeps,list]
  induction values with
  | nil => simp [pure,Except.pure]
  | cons value rest ih =>
    rw [List.map_cons,List.mapM_cons,bind_ok_iff,List.forall_mem_cons,← ih]
    constructor
    · rintro ⟨first,readFirst,others⟩
      obtain ⟨more,readRest,joined⟩ := bind_ok_iff.mp others
      cases joined
      exact ⟨readFirst,readRest⟩
    · rintro ⟨readFirst,readRest⟩
      exact ⟨value,readFirst,bind_ok_iff.mpr ⟨rest,readRest,rfl⟩⟩

/-! ### Values read through another form -/

/-- A value written as a raw form, and checked when it is taken back from one. -/
def Codec.via (codec : Codec ε β) (into : α → β) (tryFrom : β → Except ε α) : Codec ε α where
  encode value := codec.encode (into value)
  decode tree := do
    let raw ← codec.decode tree
    (tryFrom raw).mapError .refused

theorem via_written {codec : Codec ε β} {into : α → β} {tryFrom : β → Except ε α} (written : codec.Written) :
    (codec.via into tryFrom).Written := fun value => written (into value)

/-- Where a raw form is accepted only as the form of a value, a value is kept when its
    raw form is kept and accepted. -/
theorem via_keeps_iff {codec : Codec ε β} {into : α → β} {tryFrom : β → Except ε α}
    (faithful : ∀ raw value, tryFrom raw = .ok value → into value = raw) {value : α} :
    (codec.via into tryFrom).Keeps value ↔ codec.Keeps (into value) ∧ tryFrom (into value) = .ok value := by
  have accepted {raw : β} : (tryFrom raw).mapError (Refusal.refused : ε → Refusal ε) = .ok value ↔
      tryFrom raw = .ok value := by
    cases tryFrom raw <;> simp [Except.mapError]
  simp only [Codec.Keeps,Codec.via,bind_ok_iff,accepted]
  constructor
  · rintro ⟨raw,read,taken⟩
    obtain rfl := faithful raw value taken
    exact ⟨read,taken⟩
  · rintro ⟨read,taken⟩
    exact ⟨into value,read,taken⟩

/-- A raw form that is accepted only as its own value is faithful if its parts are. -/
theorem via_faithful {codec : Codec ε β} {into : α → β} {tryFrom : β → Except ε α} (faithful : codec.Faithful)
    (own : ∀ value other, tryFrom (into value) = .ok other → other = value) : (codec.via into tryFrom).Faithful := by
  intro value other read
  simp only [Codec.via] at read
  obtain ⟨raw,readRaw,taken⟩ := bind_ok_iff.mp read
  obtain rfl := faithful _ _ readRaw
  cases accepted : tryFrom (into value) with
  | error reason =>
    rw [accepted] at taken
    cases taken
  | ok made =>
    rw [accepted] at taken
    cases taken
    exact own value other accepted

/-! ### Records -/

/-- The fields of a record in which no known field is repeated. -/
def openFields (known : List String) : Tree → Except (Refusal ε) (List (String × Tree))
  | .record fields =>
    match known.find? (fun name => 1 < (fields.filter (fun entry => entry.1 == name)).length) with
    | some name => .error (.duplicateField name)
    | none => .ok fields
  | _ => .error (.unexpected "a record")

/-- The fields of a record that has known fields only. -/
def strictFields (known : List String) (tree : Tree) : Except (Refusal ε) (List (String × Tree)) := do
  let fields ← openFields known tree
  match fields.find? (fun entry => !known.contains entry.1) with
  | some entry => .error (.unknownField entry.1)
  | none => .ok fields

def required (name : String) (codec : Codec ε α) (fields : List (String × Tree)) : Except (Refusal ε) α :=
  match fields.lookup name with
  | none => .error (.missingField name)
  | some tree => codec.decode tree

/-- A field that may be absent or null. -/
def optional (name : String) (codec : Codec ε α) (fields : List (String × Tree)) : Except (Refusal ε) (Option α) :=
  match fields.lookup name with
  | none => .ok none
  | some .null => .ok none
  | some tree => some <$> codec.decode tree

/-- A sequence that is empty when it is absent. -/
def listed (name : String) (codec : Codec ε α) (fields : List (String × Tree)) : Except (Refusal ε) (List α) :=
  match fields.lookup name with
  | none => .ok []
  | some tree => (list codec).decode tree

/-- A record of the entries that have a tree. -/
def present (entries : List (String × Option Tree)) : List (String × Tree) :=
  entries.filterMap (fun entry => entry.2.map (fun tree => (entry.1,tree)))

/-- The entry of a field that is always written, of one that is left out when absent, and
    of a sequence that is left out when empty. -/
def put (name : String) (codec : Codec ε α) (value : α) : String × Option Tree := (name,some (codec.encode value))

def putSome (name : String) (codec : Codec ε α) (value : Option α) : String × Option Tree :=
  (name,value.map codec.encode)

/-- The entry of a field that is written as null when absent. -/
def putNull (name : String) (codec : Codec ε α) (value : Option α) : String × Option Tree :=
  (name,some (value.elim .null codec.encode))

def putList (name : String) (codec : Codec ε α) (values : List α) : String × Option Tree :=
  (name,if values.isEmpty then none else some ((list codec).encode values))

@[simp] theorem put_name (name : String) (codec : Codec ε α) (value : α) : (put name codec value).1 = name := rfl
@[simp] theorem putSome_name (name : String) (codec : Codec ε α) (value : Option α) :
    (putSome name codec value).1 = name := rfl
@[simp] theorem putNull_name (name : String) (codec : Codec ε α) (value : Option α) :
    (putNull name codec value).1 = name := rfl
@[simp] theorem putList_name (name : String) (codec : Codec ε α) (values : List α) :
    (putList name codec values).1 = name := rfl

variable {entries : List (String × Option Tree)} {name : String} {known : List String}

theorem lookup_present (distinct : (entries.map Prod.fst).Nodup) {tree : Option Tree} (entry : (name,tree) ∈ entries) :
    (present entries).lookup name = tree := by
  induction entries with
  | nil => cases entry
  | cons first rest ih =>
    rw [List.map_cons,List.nodup_cons] at distinct
    obtain ⟨firstName,firstTree⟩ := first
    have absent : ∀ name, name ∉ rest.map Prod.fst → (present rest).lookup name = none := by
      intro name apart
      rw [List.lookup_eq_none_iff]
      rintro ⟨other,_⟩ within
      obtain ⟨⟨otherName,otherTree⟩,inRest,made⟩ := List.mem_filterMap.mp within
      obtain ⟨_,_,same⟩ := Option.map_eq_some_iff.mp made
      cases same
      have differ : name ≠ otherName := by
        rintro rfl
        exact apart (List.mem_map.mpr ⟨_,inRest,rfl⟩)
      simpa using differ
    rcases List.mem_cons.mp entry with same | inRest
    · cases same
      cases tree with
      | none => simpa [present] using absent name distinct.1
      | some tree => simp [present]
    · have differ : name ≠ firstName := by
        rintro rfl
        exact distinct.1 (List.mem_map.mpr ⟨_,inRest,rfl⟩)
      have later := ih distinct.2 inRest
      cases firstTree with
      | none => simpa [present] using later
      | some other =>
        have apart : (name == firstName) = false := by simpa using differ
        simpa [present,List.lookup_cons,apart] using later

theorem present_names (entries : List (String × Option Tree)) :
    ((present entries).map Prod.fst).Sublist (entries.map Prod.fst) := by
  induction entries with
  | nil => exact .slnil
  | cons first rest ih =>
    obtain ⟨firstName,firstTree⟩ := first
    cases firstTree with
    | none => simpa [present] using ih.cons firstName
    | some tree => simpa [present] using ih.cons_cons firstName

/-- A record written with distinct names repeats none of them. -/
theorem openFields_present (distinct : (entries.map Prod.fst).Nodup) :
    (openFields known (.record (present entries)) : Except (Refusal ε) _) = .ok (present entries) := by
  have once := distinct.sublist (present_names entries)
  have single (name : String) : ¬ 1 < ((present entries).filter (fun entry => entry.1 == name)).length := by
    have counted := List.nodup_iff_count_le_one.mp once name
    rw [List.count_eq_countP,List.countP_map,List.countP_eq_length_filter] at counted
    exact Nat.not_lt.mpr counted
  have none : known.find? (fun name => decide (1 < ((present entries).filter (fun entry => entry.1 == name)).length)) =
      none := List.find?_eq_none.mpr (fun name _ => by simpa using single name)
  simp only [openFields,none]

/-- A record written with known names has no other. -/
theorem strictFields_present (distinct : (entries.map Prod.fst).Nodup) (all : entries.map Prod.fst = known) :
    (strictFields known (.record (present entries)) : Except (Refusal ε) _) = .ok (present entries) := by
  have none : (present entries).find? (fun entry => !known.contains entry.1) = none := by
    refine List.find?_eq_none.mpr (fun entry within => ?_)
    have isKnown := (present_names entries).subset (List.mem_map.mpr ⟨entry,within,rfl⟩)
    rw [all] at isKnown
    simpa using isKnown
  rw [strictFields,openFields_present distinct,ok_bind]
  simp only [none]

/-- A record of the known fields and no other. -/
def strictRecord (known : List String) (entries : α → List (String × Option Tree))
    (read : List (String × Tree) → Except (Refusal ε) α) : Codec ε α where
  encode value := .record (present (entries value))
  decode tree := strictFields known tree >>= read

/-- A record whose unknown fields are ignored. -/
def openRecord (known : List String) (entries : α → List (String × Option Tree))
    (read : List (String × Tree) → Except (Refusal ε) α) : Codec ε α where
  encode value := .record (present (entries value))
  decode tree := openFields known tree >>= read

variable {read : List (String × Tree) → Except (Refusal ε) α} {entriesOf : α → List (String × Option Tree)} {value : α}

theorem strictRecord_keeps_iff (distinct : known.Nodup) (all : (entriesOf value).map Prod.fst = known) :
    (strictRecord known entriesOf read).Keeps value ↔ read (present (entriesOf value)) = .ok value := by
  simp only [Codec.Keeps,strictRecord]
  rw [strictFields_present (all ▸ distinct) all,ok_bind]

theorem openRecord_keeps_iff (distinct : known.Nodup) (all : (entriesOf value).map Prod.fst = known) :
    (openRecord known entriesOf read).Keeps value ↔ read (present (entriesOf value)) = .ok value := by
  simp only [Codec.Keeps,openRecord]
  rw [openFields_present (all ▸ distinct),ok_bind]

theorem strictRecord_faithful (distinct : known.Nodup) (all : ∀ value, (entriesOf value).map Prod.fst = known)
    (own : ∀ value other, read (present (entriesOf value)) = .ok other → other = value) :
    (strictRecord known entriesOf read).Faithful := by
  intro value other taken
  simp only [strictRecord] at taken
  rw [strictFields_present (all value ▸ distinct) (all value),ok_bind] at taken
  exact own value other taken

theorem openRecord_faithful (distinct : known.Nodup) (all : ∀ value, (entriesOf value).map Prod.fst = known)
    (own : ∀ value other, read (present (entriesOf value)) = .ok other → other = value) :
    (openRecord known entriesOf read).Faithful := by
  intro value other taken
  simp only [openRecord] at taken
  rw [openFields_present (all value ▸ distinct),ok_bind] at taken
  exact own value other taken

theorem strictRecord_written : (strictRecord known entriesOf read).Written := fun value => by simp [strictRecord]
theorem openRecord_written : (openRecord known entriesOf read).Written := fun value => by simp [openRecord]

theorem required_present (distinct : (entries.map Prod.fst).Nodup) {codec : Codec ε α} {value : α}
    (entry : put name codec value ∈ entries) :
    required name codec (present entries) = .ok value ↔ codec.Keeps value := by
  rw [required,lookup_present distinct entry]
  rfl

/-- The parts of a record are read as they were written, or not at all. -/
theorem required_own (value : α) (distinct : (entries.map Prod.fst).Nodup) {codec : Codec ε α} {other : α}
    (faithful : codec.Faithful) (entry : put name codec value ∈ entries)
    (taken : required name codec (present entries) = .ok other) : other = value := by
  rw [required,lookup_present distinct entry] at taken
  exact faithful value other taken

theorem optional_own (value : Option α) (distinct : (entries.map Prod.fst).Nodup) {codec : Codec ε α} {other : Option α}
    (written : codec.Written) (faithful : codec.Faithful) (entry : putSome name codec value ∈ entries)
    (taken : optional name codec (present entries) = .ok other) : other = value := by
  rw [optional,lookup_present distinct entry] at taken
  cases value with
  | none =>
    cases taken
    rfl
  | some stated =>
    have notNull := written stated
    simp only [Option.map_some,map_ok_iff] at taken
    obtain ⟨read,readStated,rfl⟩ := taken
    rw [faithful _ _ readStated]

theorem optional_null_own (value : Option α) (distinct : (entries.map Prod.fst).Nodup) {codec : Codec ε α} {other : Option α}
    (written : codec.Written) (faithful : codec.Faithful) (entry : putNull name codec value ∈ entries)
    (taken : optional name codec (present entries) = .ok other) : other = value := by
  rw [optional,lookup_present distinct entry] at taken
  cases value with
  | none =>
    cases taken
    rfl
  | some stated =>
    have notNull := written stated
    simp only [Option.elim_some,map_ok_iff] at taken
    obtain ⟨read,readStated,rfl⟩ := taken
    rw [faithful _ _ readStated]

theorem listed_own (values : List α) (distinct : (entries.map Prod.fst).Nodup) {codec : Codec ε α} {others : List α}
    (faithful : codec.Faithful) (entry : putList name codec values ∈ entries)
    (taken : listed name codec (present entries) = .ok others) : others = values := by
  rw [listed,lookup_present distinct entry] at taken
  cases values with
  | nil =>
    cases taken
    rfl
  | cons first rest => exact list_faithful faithful _ _ taken

theorem optional_present (distinct : (entries.map Prod.fst).Nodup) {codec : Codec ε α} {value : Option α}
    (written : codec.Written) (entry : putSome name codec value ∈ entries) :
    optional name codec (present entries) = .ok value ↔ ∀ stated ∈ value, codec.Keeps stated := by
  rw [optional,lookup_present distinct entry]
  cases value with
  | none => simp
  | some stated =>
    have notNull := written stated
    simp [map_ok_iff,Codec.Keeps]

theorem optional_null_present (distinct : (entries.map Prod.fst).Nodup) {codec : Codec ε α} {value : Option α}
    (written : codec.Written) (entry : putNull name codec value ∈ entries) :
    optional name codec (present entries) = .ok value ↔ ∀ stated ∈ value, codec.Keeps stated := by
  rw [optional,lookup_present distinct entry]
  cases value with
  | none => simp
  | some stated =>
    have notNull := written stated
    simp [map_ok_iff,Codec.Keeps]

theorem listed_present (distinct : (entries.map Prod.fst).Nodup) {codec : Codec ε α} {values : List α}
    (entry : putList name codec values ∈ entries) :
    listed name codec (present entries) = .ok values ↔ ∀ value ∈ values, codec.Keeps value := by
  rw [listed,lookup_present distinct entry]
  cases values with
  | nil => simp
  | cons first rest => exact list_keeps_iff

end Lib.Wire
