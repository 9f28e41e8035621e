import Aicortex.Lib.Ordered

/-!
Ordered maps under other keys. A map is rekeyed one entry at a time; where no two keys
become one, it holds what it held, and lists it in the order of the new keys.
-/

namespace Lib.Ordered

variable {κ κ' ν ν' : Type} [LinearOrder κ] [LinearOrder κ']

namespace OrdMap

/-- The entries of a map, under other keys and with other values. -/
def rekeyed (rename : κ → κ') (read : ν → ν') (map : OrdMap κ ν) : OrdMap κ' ν' :=
  map.entries.foldl (fun built entry => built.insert (rename entry.1) (read entry.2)) .empty

variable {rename : κ → κ'} {read : ν → ν'}

omit [LinearOrder κ] in
private theorem find?_foldl_insert (injective : Function.Injective rename) {entries : List (κ × ν)}
    (distinct : (entries.map Prod.fst).Nodup) (start : OrdMap κ' ν') (key : κ') (value : ν') :
    (entries.foldl (fun built entry => built.insert (rename entry.1) (read entry.2)) start).find? key = some value ↔
      (∃ entry ∈ entries, rename entry.1 = key ∧ read entry.2 = value) ∨
        (∀ entry ∈ entries, rename entry.1 ≠ key) ∧ start.find? key = some value := by
  induction entries generalizing start with
  | nil => simp
  | cons entry rest ih =>
    obtain ⟨fresh,distinctRest⟩ := List.nodup_cons.mp distinct
    rw [List.foldl_cons,ih distinctRest,find?_insert]
    have later : ∀ other ∈ rest, rename other.1 = rename entry.1 → False := by
      intro other inside same
      exact fresh (List.mem_map.mpr ⟨other,inside,injective same⟩)
    by_cases here : key = rename entry.1
    · subst here
      simp only [if_true,Option.some.injEq,List.mem_cons,exists_eq_or_imp,forall_eq_or_imp,ne_eq,not_true,false_and,
        or_false,true_and]
      constructor
      · rintro (⟨other,inside,same,-⟩ | ⟨-,same⟩)
        · exact (later other inside same).elim
        · exact .inl same
      · rintro (same | ⟨other,inside,renamed,-⟩)
        · exact .inr ⟨fun other inside renamed => later other inside renamed,same⟩
        · exact (later other inside renamed).elim
    · simp only [here,if_false,List.mem_cons,exists_eq_or_imp,forall_eq_or_imp,Ne.symm here,ne_eq,not_false_eq_true,
        true_and,false_and,false_or]

/-- A rekeyed map finds under a key what the map finds under the key it comes from. -/
theorem find?_rekeyed (injective : Function.Injective rename) (map : OrdMap κ ν) (key : κ') (value : ν') :
    (map.rekeyed rename read).find? key = some value ↔
      ∃ old found, map.find? old = some found ∧ rename old = key ∧ read found = value := by
  have distinct : (map.entries.map Prod.fst).Nodup := (List.pairwise_map.mpr map.sorted).imp ne_of_lt
  rw [rekeyed,find?_foldl_insert injective distinct]
  simp only [find?_empty,reduceCtorEq,and_false,or_false,find?_iff_mem,Prod.exists]

theorem find?_rekeyed_rename (injective : Function.Injective rename) (map : OrdMap κ ν) (key : κ) :
    (map.rekeyed rename read).find? (rename key) = (map.find? key).map read := by
  refine Option.ext fun value => ?_
  rw [find?_rekeyed injective,Option.map_eq_some_iff]
  constructor
  · rintro ⟨old,found,held,same,rfl⟩
    obtain rfl := injective same
    exact ⟨found,held,rfl⟩
  · rintro ⟨found,held,rfl⟩
    exact ⟨key,found,held,rfl,rfl⟩

/-- The values of a rekeyed map are those of the map, in another order. -/
theorem values_rekeyed (injective : Function.Injective rename) (map : OrdMap κ ν) :
    (map.rekeyed rename read).values.Perm (map.values.map read) := by
  have keyed : ∀ map : OrdMap κ' ν', map.entries.Nodup := fun map =>
    map.sorted.imp fun below same => absurd (congrArg Prod.fst same) below.ne
  have distinct : (map.entries.map (fun entry => (rename entry.1,read entry.2))).Nodup := by
    refine List.pairwise_map.mpr (map.sorted.imp fun below same => ?_)
    exact below.ne (injective (congrArg Prod.fst same))
  have perm : (map.rekeyed rename read).entries.Perm (map.entries.map (fun entry => (rename entry.1,read entry.2))) := by
    refine (List.perm_ext_iff_of_nodup (keyed _) distinct).mpr ?_
    rintro ⟨key,value⟩
    rw [← find?_iff_mem,find?_rekeyed injective]
    simp only [List.mem_map,Prod.exists,Prod.mk.injEq,find?_iff_mem]
  have listed := perm.map Prod.snd
  rw [List.map_map] at listed
  rw [values,values,List.map_map]
  exact listed

/-- Maps whose values are related key by key list them so. -/
theorem forall₂_entries {Related : ν → ν' → Prop} {left : OrdMap κ ν} {right : OrdMap κ ν'}
    (domain : ∀ key, left.contains key = true ↔ right.contains key = true)
    (related : ∀ key value other, left.find? key = some value → right.find? key = some other → Related value other) :
    List.Forall₂ (fun entry other => other.1 = entry.1 ∧ Related entry.2 other.2) left.entries right.entries := by
  have keys : left.entries.map Prod.fst = right.entries.map Prod.fst := by
    have leftSorted : (left.entries.map Prod.fst).Pairwise (· < ·) := List.pairwise_map.mpr left.sorted
    have rightSorted : (right.entries.map Prod.fst).Pairwise (· < ·) := List.pairwise_map.mpr right.sorted
    have perm : (left.entries.map Prod.fst).Perm (right.entries.map Prod.fst) := by
      refine (List.perm_ext_iff_of_nodup (leftSorted.imp ne_of_lt) (rightSorted.imp ne_of_lt)).mpr fun key => ?_
      have known := domain key
      rw [contains_iff,contains_iff] at known
      simpa only [find?_iff_mem,List.mem_map,Prod.exists,exists_and_right,exists_eq_right] using known
    exact perm.eq_of_pairwise (fun a b _ _ below above => absurd (below.trans above) (lt_irrefl _)) leftSorted rightSorted
  have paired : List.Forall₂ (fun entry other => other.1 = entry.1) left.entries right.entries := by
    have same : List.Forall₂ Eq (left.entries.map Prod.fst) (right.entries.map Prod.fst) := List.forall₂_eq_eq_eq ▸ keys
    rw [List.forall₂_map_left_iff,List.forall₂_map_right_iff] at same
    exact same.imp fun _ _ equal => equal.symm
  obtain ⟨lengths,zipped⟩ := List.forall₂_iff_zip.mp paired
  refine List.forall₂_iff_zip.mpr ⟨lengths,?_⟩
  rintro ⟨key,value⟩ ⟨key',other⟩ member
  obtain rfl : key' = key := zipped member
  obtain ⟨leftIn,rightIn⟩ := List.of_mem_zip member
  exact ⟨rfl,related _ _ _ ((left.find?_iff_mem _ _).mpr leftIn) ((right.find?_iff_mem _ _).mpr rightIn)⟩

end OrdMap

end Lib.Ordered
