import Mathlib.Order.Defs.LinearOrder
import Mathlib.Order.Basic
import Mathlib.Order.Lattice
import Mathlib.Data.List.Basic
import Mathlib.Data.List.Perm.Basic
import Mathlib.Tactic.SplitIfs

/-!
Ordered maps and ordered sets as strictly sorted lists. Iteration visits keys in
ascending order, and two containers with the same contents are the same value, so
a result that reads only one of these cannot depend on the order of insertion.
-/

namespace Lib.Ordered
set_option linter.unusedSimpArgs false

variable {κ ν μ α : Type} [LinearOrder κ] [LinearOrder α]

/-- A map whose entries are kept in strictly ascending key order. -/
structure OrdMap (κ ν : Type) [LinearOrder κ] where
  entries : List (κ × ν)
  sorted : entries.Pairwise (fun left right => left.1 < right.1)

/-- A set whose elements are kept in strictly ascending order. -/
structure OrdSet (α : Type) [LinearOrder α] where
  elements : List α
  sorted : elements.Pairwise (· < ·)

/-! ### Sorted association lists -/

def lookupEntry (key : κ) : List (κ × ν) → Option ν
  | [] => none
  | (other,value) :: rest => if key = other then some value else lookupEntry key rest

/-- Insert in order, replacing the value of a key that is already there. -/
def insertEntry (key : κ) (value : ν) : List (κ × ν) → List (κ × ν)
  | [] => [(key,value)]
  | (other,old) :: rest =>
    if key < other then (key,value) :: (other,old) :: rest
    else if key = other then (key,value) :: rest
    else (other,old) :: insertEntry key value rest

def eraseEntry (key : κ) : List (κ × ν) → List (κ × ν)
  | [] => []
  | (other,old) :: rest => if key = other then rest else (other,old) :: eraseEntry key rest

private theorem mem_insertEntry (key : κ) (value : ν) (entries : List (κ × ν)) (entry : κ × ν) :
    entry ∈ insertEntry key value entries → entry = (key,value) ∨ entry ∈ entries := by
  induction entries with
  | nil => simp [insertEntry]
  | cons head rest ih =>
    obtain ⟨other,old⟩ := head
    simp only [insertEntry]
    split_ifs with below same
    · intro member
      simpa using member
    · intro member
      rcases List.mem_cons.mp member with rfl | inside
      · exact .inl rfl
      · exact .inr (List.mem_cons_of_mem _ inside)
    · intro member
      rcases List.mem_cons.mp member with rfl | inside
      · exact .inr List.mem_cons_self
      · exact (ih inside).imp_right (List.mem_cons_of_mem _)

theorem insertEntry_sorted (key : κ) (value : ν) (entries : List (κ × ν))
    (sorted : entries.Pairwise (fun left right => left.1 < right.1)) :
    (insertEntry key value entries).Pairwise (fun left right => left.1 < right.1) := by
  induction entries with
  | nil => simp [insertEntry]
  | cons head rest ih =>
    obtain ⟨other,old⟩ := head
    obtain ⟨above,restSorted⟩ := List.pairwise_cons.mp sorted
    simp only [insertEntry]
    split_ifs with below same
    · refine List.pairwise_cons.mpr ⟨?_,sorted⟩
      intro entry member
      rcases List.mem_cons.mp member with rfl | inside
      · exact below
      · exact below.trans (above entry inside)
    · subst same
      exact List.pairwise_cons.mpr ⟨above,restSorted⟩
    · refine List.pairwise_cons.mpr ⟨?_,ih restSorted⟩
      intro entry member
      rcases mem_insertEntry key value rest entry member with rfl | inside
      · exact lt_of_le_of_ne (not_lt.mp below) (Ne.symm same)
      · exact above entry inside

private theorem eraseEntry_sublist (key : κ) (entries : List (κ × ν)) :
    (eraseEntry key entries).Sublist entries := by
  induction entries with
  | nil => simp [eraseEntry]
  | cons head rest ih =>
    obtain ⟨other,old⟩ := head
    simp only [eraseEntry]
    split_ifs
    · exact List.sublist_cons_self _ _
    · exact ih.cons_cons _

theorem eraseEntry_eq_filter (key : κ) (entries : List (κ × ν)) (sorted : entries.Pairwise (fun left right => left.1 < right.1)) :
    eraseEntry key entries = entries.filter (fun entry => decide (entry.1 ≠ key)) := by
  induction entries with
  | nil => rfl
  | cons head rest ih =>
    obtain ⟨above,restSorted⟩ := List.pairwise_cons.mp sorted
    by_cases same : key = head.1
    · -- No later entry has the key.
      have others : rest.filter (fun entry => decide (entry.1 ≠ key)) = rest := by
        refine List.filter_eq_self.mpr (fun entry inside => ?_)
        have later := above entry inside
        rw [← same] at later
        simpa using later.ne'
      rw [List.filter_cons_of_neg (by simp [same]),others]
      simp [eraseEntry,same]
    · rw [List.filter_cons_of_pos (by simpa using Ne.symm same),← ih restSorted]
      simp [eraseEntry,same]

theorem lookupEntry_insertEntry (key sought : κ) (value : ν) (entries : List (κ × ν)) :
    lookupEntry sought (insertEntry key value entries) =
      if sought = key then some value else lookupEntry sought entries := by
  induction entries with
  | nil => simp [insertEntry,lookupEntry]
  | cons head rest ih =>
    obtain ⟨other,old⟩ := head
    by_cases below : key < other
    · simp [insertEntry,below,lookupEntry]
    by_cases same : key = other
    · subst same
      by_cases found : sought = key <;> simp [insertEntry,lookupEntry,found]
    · by_cases found : sought = key
      · subst found
        simp [insertEntry,below,same,lookupEntry,ih]
      · simp [insertEntry,below,same,lookupEntry,found,ih]

theorem lookupEntry_iff_mem (key : κ) (value : ν) (entries : List (κ × ν))
    (sorted : entries.Pairwise (fun left right => left.1 < right.1)) :
    lookupEntry key entries = some value ↔ (key,value) ∈ entries := by
  induction entries with
  | nil => simp [lookupEntry]
  | cons head rest ih =>
    obtain ⟨other,old⟩ := head
    obtain ⟨above,restSorted⟩ := List.pairwise_cons.mp sorted
    by_cases same : key = other
    · subst same
      have fresh : (key,value) ∉ rest := fun member => lt_irrefl key (above (key,value) member)
      simp [lookupEntry,fresh,eq_comm]
    · simp [lookupEntry,same,ih restSorted]

/-- Sorted association lists with the same lookups are equal: both start with the
    smallest key that either of them has. -/
theorem entries_ext (left right : List (κ × ν))
    (leftSorted : left.Pairwise (fun a b => a.1 < b.1))
    (rightSorted : right.Pairwise (fun a b => a.1 < b.1))
    (same : ∀ key, lookupEntry key left = lookupEntry key right) : left = right := by
  have leftNodup : left.Nodup := leftSorted.imp (fun below equal => (congrArg Prod.fst equal ▸ below).false)
  have rightNodup : right.Nodup := rightSorted.imp (fun below equal => (congrArg Prod.fst equal ▸ below).false)
  have perm : left.Perm right := by
    refine (List.perm_ext_iff_of_nodup leftNodup rightNodup).mpr ?_
    rintro ⟨key,value⟩
    rw [← lookupEntry_iff_mem key value left leftSorted,← lookupEntry_iff_mem key value right rightSorted,same]
  refine perm.eq_of_pairwise ?_ leftSorted rightSorted
  intro a b _ _ below above
  exact absurd (below.trans above) (lt_irrefl _)

/-- Dropping what a filter rejects anyway commutes with inserting it. -/
theorem filter_insertEntry_of_false (accepts : κ × ν → Bool) (key : κ) (value : ν) (entries : List (κ × ν))
    (fresh : lookupEntry key entries = none) (rejected : accepts (key,value) = false) :
    (insertEntry key value entries).filter accepts = entries.filter accepts := by
  induction entries with
  | nil => simp [insertEntry,rejected]
  | cons head rest ih =>
    obtain ⟨other,old⟩ := head
    by_cases same : key = other
    · simp [lookupEntry,same] at fresh
    · have restFresh : lookupEntry key rest = none := by simpa [lookupEntry,same] using fresh
      simp only [insertEntry,same,if_false]
      split_ifs with below
      · simp [rejected]
      · simp only [List.filter_cons,ih restFresh]

/-! ### Maps -/

namespace OrdMap

@[ext] theorem ext_entries {left right : OrdMap κ ν} (same : left.entries = right.entries) : left = right := by
  cases left
  cases right
  cases same
  rfl

instance [DecidableEq ν] : DecidableEq (OrdMap κ ν) := fun left right =>
  decidable_of_iff (left.entries = right.entries) ⟨ext_entries,fun same => congrArg entries same⟩

def empty : OrdMap κ ν := ⟨[],List.Pairwise.nil⟩

def find? (map : OrdMap κ ν) (key : κ) : Option ν := lookupEntry key map.entries

def contains (map : OrdMap κ ν) (key : κ) : Bool := (map.find? key).isSome

def insert (map : OrdMap κ ν) (key : κ) (value : ν) : OrdMap κ ν :=
  ⟨insertEntry key value map.entries,insertEntry_sorted key value map.entries map.sorted⟩

def erase (map : OrdMap κ ν) (key : κ) : OrdMap κ ν :=
  ⟨eraseEntry key map.entries,map.sorted.sublist (eraseEntry_sublist key map.entries)⟩

/-- Values in ascending key order. -/
def values (map : OrdMap κ ν) : List ν := map.entries.map Prod.snd

def mapValues (f : ν → μ) (map : OrdMap κ ν) : OrdMap κ μ :=
  ⟨map.entries.map (fun entry => (entry.1,f entry.2)),by
    simpa [List.pairwise_map] using map.sorted⟩

/-- Update the value under a key, starting from a default when it is absent. -/
def upsert (map : OrdMap κ ν) (key : κ) (default : ν) (f : ν → ν) : OrdMap κ ν :=
  map.insert key (f ((map.find? key).getD default))

@[simp] theorem find?_empty (key : κ) : (empty : OrdMap κ ν).find? key = none := rfl

theorem find?_insert (map : OrdMap κ ν) (key sought : κ) (value : ν) :
    (map.insert key value).find? sought = if sought = key then some value else map.find? sought :=
  lookupEntry_insertEntry key sought value map.entries

@[simp] theorem find?_insert_self (map : OrdMap κ ν) (key : κ) (value : ν) :
    (map.insert key value).find? key = some value := by simp [find?_insert]

theorem find?_insert_other (map : OrdMap κ ν) {key sought : κ} (value : ν) (different : sought ≠ key) :
    (map.insert key value).find? sought = map.find? sought := by simp [find?_insert,different]

theorem find?_upsert (map : OrdMap κ ν) (key sought : κ) (default : ν) (f : ν → ν) :
    (map.upsert key default f).find? sought =
      if sought = key then some (f ((map.find? key).getD default)) else map.find? sought :=
  find?_insert ..

theorem contains_iff (map : OrdMap κ ν) (key : κ) :
    map.contains key = true ↔ ∃ value, map.find? key = some value := Option.isSome_iff_exists

theorem find?_iff_mem (map : OrdMap κ ν) (key : κ) (value : ν) :
    map.find? key = some value ↔ (key,value) ∈ map.entries :=
  lookupEntry_iff_mem key value map.entries map.sorted

theorem mem_values (map : OrdMap κ ν) (value : ν) :
    value ∈ map.values ↔ ∃ key, map.find? key = some value := by
  simp only [values,List.mem_map,find?_iff_mem,Prod.exists]
  constructor
  · rintro ⟨key,_,member,rfl⟩
    exact ⟨key,member⟩
  · rintro ⟨key,member⟩
    exact ⟨key,value,member,rfl⟩

/-- Values that name the key they are under are distinct. -/
theorem values_nodup (map : OrdMap κ ν) (name : ν → κ) (keyed : ∀ key value, map.find? key = some value → name value = key) :
    (map.values.map name).Nodup := by
  have keys : map.values.map name = map.entries.map Prod.fst := by
    rw [values,List.map_map]
    exact List.map_congr_left fun entry member => keyed entry.1 entry.2 ((map.find?_iff_mem _ _).mpr member)
  rw [keys]
  exact List.pairwise_map.mpr (map.sorted.imp fun below => ne_of_lt below)

theorem entries_erase (map : OrdMap κ ν) (key : κ) :
    (map.erase key).entries = map.entries.filter (fun entry => decide (entry.1 ≠ key)) :=
  eraseEntry_eq_filter key map.entries map.sorted

theorem find?_erase (map : OrdMap κ ν) (key sought : κ) :
    (map.erase key).find? sought = if sought = key then none else map.find? sought := by
  refine Option.ext fun value => ?_
  rw [find?_iff_mem,entries_erase,List.mem_filter,← find?_iff_mem]
  split_ifs with same <;> simp [same]

/-- Values that name the key they are under are left out by name. -/
theorem values_erase (map : OrdMap κ ν) (name : ν → κ) (keyed : ∀ key value, map.find? key = some value → name value = key)
    (key : κ) : (map.erase key).values = map.values.filter (fun value => decide (name value ≠ key)) := by
  rw [values,entries_erase,values,List.filter_map]
  congr 1
  refine List.filter_congr fun entry inside => ?_
  rw [Function.comp_apply,keyed entry.1 entry.2 ((map.find?_iff_mem _ _).mpr inside)]

theorem ext_find? {left right : OrdMap κ ν} (same : ∀ key, left.find? key = right.find? key) : left = right :=
  ext_entries (entries_ext _ _ left.sorted right.sorted same)

theorem find?_mapValues (f : ν → μ) (map : OrdMap κ ν) (key : κ) :
    (map.mapValues f).find? key = (map.find? key).map f := by
  show lookupEntry key (map.entries.map _) = (lookupEntry key map.entries).map f
  induction map.entries with
  | nil => rfl
  | cons head rest ih =>
    by_cases same : key = head.1
    · simp [lookupEntry,same]
    · simp [lookupEntry,same,ih]

@[simp] theorem values_mapValues (f : ν → μ) (map : OrdMap κ ν) :
    (map.mapValues f).values = map.values.map f := by
  simp [values,mapValues,Function.comp_def]

/-- Updating before or after a change of values is the same when the updates agree. -/
theorem mapValues_upsert (g : ν → μ) (map : OrdMap κ ν) (key : κ) (default : ν) {f : ν → ν} {f' : μ → μ}
    (agree : ∀ value, g (f value) = f' (g value)) :
    (map.upsert key default f).mapValues g = (map.mapValues g).upsert key (g default) f' := by
  refine ext_find? fun sought => ?_
  rw [find?_mapValues,find?_upsert,find?_upsert,find?_mapValues,find?_mapValues]
  by_cases same : sought = key
  · simp only [same,if_true,Option.map_some,agree]
    cases map.find? key <;> rfl
  · simp only [same,if_false]

/-- A rejected fresh value changes nothing that a filter over the values shows. -/
theorem filter_values_insert (map : OrdMap κ ν) (accepts : ν → Bool) (key : κ) (value : ν)
    (fresh : map.find? key = none) (rejected : accepts value = false) :
    (map.insert key value).values.filter accepts = map.values.filter accepts := by
  have kept := filter_insertEntry_of_false (fun entry => accepts entry.2) key value map.entries fresh rejected
  simpa [values,List.filter_map,Function.comp_def,insert] using congrArg (List.map Prod.snd) kept

end OrdMap

/-! ### Sets -/

namespace OrdSet

@[ext] theorem ext_elements {left right : OrdSet α} (same : left.elements = right.elements) : left = right := by
  cases left
  cases right
  cases same
  rfl

instance : DecidableEq (OrdSet α) := fun left right =>
  decidable_of_iff (left.elements = right.elements) ⟨ext_elements,fun same => congrArg elements same⟩

def empty : OrdSet α := ⟨[],List.Pairwise.nil⟩

def contains (set : OrdSet α) (element : α) : Bool := decide (element ∈ set.elements)

def insertElement (element : α) : List α → List α
  | [] => [element]
  | other :: rest =>
    if element < other then element :: other :: rest
    else if element = other then other :: rest
    else other :: insertElement element rest

theorem mem_insertElement (element sought : α) (elements : List α) :
    sought ∈ insertElement element elements ↔ sought = element ∨ sought ∈ elements := by
  induction elements with
  | nil => simp [insertElement]
  | cons other rest ih =>
    simp only [insertElement]
    split_ifs with below same
    · simp
    · simp [same]
    · simp only [List.mem_cons,ih]
      tauto

private theorem insertElement_sorted (element : α) (elements : List α) (sorted : elements.Pairwise (· < ·)) :
    (insertElement element elements).Pairwise (· < ·) := by
  induction elements with
  | nil => simp [insertElement]
  | cons other rest ih =>
    obtain ⟨above,restSorted⟩ := List.pairwise_cons.mp sorted
    simp only [insertElement]
    split_ifs with below same
    · refine List.pairwise_cons.mpr ⟨?_,sorted⟩
      intro sought member
      rcases List.mem_cons.mp member with rfl | inside
      · exact below
      · exact below.trans (above sought inside)
    · exact sorted
    · refine List.pairwise_cons.mpr ⟨?_,ih restSorted⟩
      intro sought member
      rcases (mem_insertElement element sought rest).mp member with rfl | inside
      · exact lt_of_le_of_ne (not_lt.mp below) (Ne.symm same)
      · exact above sought inside

def insert (set : OrdSet α) (element : α) : OrdSet α :=
  ⟨insertElement element set.elements,insertElement_sorted element set.elements set.sorted⟩

/-- Collect a list, dropping duplicates. -/
def ofList (items : List α) : OrdSet α := items.foldl insert empty

instance : Membership α (OrdSet α) := ⟨fun set element => element ∈ set.elements⟩

instance (set : OrdSet α) (element : α) : Decidable (element ∈ set) :=
  inferInstanceAs (Decidable (element ∈ set.elements))

theorem mem_def (set : OrdSet α) (element : α) : element ∈ set ↔ element ∈ set.elements := Iff.rfl

@[simp] theorem not_mem_empty (element : α) : ¬ element ∈ (empty : OrdSet α) := List.not_mem_nil

@[simp] theorem mem_insert (set : OrdSet α) (element sought : α) :
    sought ∈ set.insert element ↔ sought = element ∨ sought ∈ set := mem_insertElement ..

@[simp] theorem contains_iff (set : OrdSet α) (element : α) : set.contains element = true ↔ element ∈ set := by
  simp [contains,mem_def]

@[simp] theorem contains_eq_false_iff (set : OrdSet α) (element : α) : set.contains element = false ↔ ¬ element ∈ set := by
  simp [contains,mem_def]

theorem mem_foldl_insert (items : List α) (set : OrdSet α) (sought : α) :
    sought ∈ items.foldl insert set ↔ sought ∈ items ∨ sought ∈ set := by
  induction items generalizing set with
  | nil => simp
  | cons item rest ih =>
    simp only [List.foldl_cons,ih,mem_insert,List.mem_cons]
    tauto

@[simp] theorem mem_ofList (items : List α) (sought : α) : sought ∈ ofList items ↔ sought ∈ items := by
  simp [ofList,mem_foldl_insert]

/-- A set is determined by what it contains. -/
theorem ext_mem {left right : OrdSet α} (same : ∀ element, element ∈ left ↔ element ∈ right) : left = right := by
  refine ext_elements ?_
  have perm : left.elements.Perm right.elements :=
    (List.perm_ext_iff_of_nodup (left.sorted.imp ne_of_lt) (right.sorted.imp ne_of_lt)).mpr same
  exact perm.eq_of_pairwise (fun a b _ _ below above => absurd (below.trans above) (lt_irrefl _)) left.sorted right.sorted

end OrdSet

end Lib.Ordered
