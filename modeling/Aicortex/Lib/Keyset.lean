import Aicortex.Lib.Tables
import Mathlib.Data.List.Sort
import Mathlib.Order.Lattice

/-!
Walking a table by keyset while it changes. Every read takes the rows beyond the last
key of the read before it, in the order of a key and up to a size, from the table as
it then is; a read that falls short ends the walk. No key is met twice, and a row
that every read could have seen is met.
-/

namespace Lib.Keyset
open Lib.Tables

variable {ρ κ : Type} [LinearOrder κ] (key : ρ → κ)

/-- The rows beyond a key, in order. -/
def following (after : κ) (rows : List ρ) : List ρ :=
  (rows.filter (fun row => decide (after < key row))).insertionSort (fun left right => key left ≤ key right)

def page (size : Nat) (after : κ) (rows : List ρ) : List ρ := (following key after rows).take size

/-- A walk that reads the tables `first` to `last`, and the rows it meets. -/
inductive Walk (size : Nat) (tables : Nat → List ρ) : Nat → Nat → κ → List ρ → Prop
  | ends {index : Nat} {after : κ} (short : (page key size after (tables index)).length < size) :
      Walk size tables index index after (page key size after (tables index))
  | continues {index last : Nat} {after : κ} {final : ρ} {rest : List ρ}
      (ends : (page key size after (tables index)).getLast? = some final)
      (further : Walk size tables (index + 1) last (key final) rest) :
      Walk size tables index last after (page key size after (tables index) ++ rest)

variable {key}

theorem following_perm (after : κ) (rows : List ρ) :
    (following key after rows).Perm (rows.filter (fun row => decide (after < key row))) :=
  List.perm_insertionSort _ _

theorem mem_following {after : κ} {rows : List ρ} {row : ρ} :
    row ∈ following key after rows ↔ row ∈ rows ∧ after < key row := by
  rw [(following_perm after rows).mem_iff,List.mem_filter]
  simp

theorem following_ascending (after : κ) {rows : List ρ} (unique : UniqueBy key rows) :
    (following key after rows).Pairwise (fun left right => key left < key right) := by
  have distinct : ((following key after rows).map key).Nodup :=
    ((following_perm after rows).map key).nodup_iff.mpr (unique.sublist (List.filter_sublist.map key))
  have sorted : (following key after rows).Pairwise (fun left right => key left ≤ key right) :=
    haveI : Std.Total (fun left right : ρ => key left ≤ key right) := ⟨fun _ _ => le_total _ _⟩
    haveI : IsTrans ρ (fun left right : ρ => key left ≤ key right) := ⟨fun _ _ _ => le_trans⟩
    List.pairwise_insertionSort _ _
  exact sorted.imp₂ (fun _ _ below apart => lt_of_le_of_ne below apart) (List.pairwise_map.mp distinct)

theorem mem_page {size : Nat} {after : κ} {rows : List ρ} {row : ρ} (member : row ∈ page key size after rows) :
    row ∈ rows ∧ after < key row :=
  mem_following.mp (List.mem_of_mem_take member)

/-- A page that falls short holds everything beyond the key. -/
theorem page_short {size : Nat} {after : κ} {rows : List ρ} (short : (page key size after rows).length < size) :
    page key size after rows = following key after rows := by
  unfold page at short ⊢
  rw [List.length_take] at short
  exact List.take_of_length_le (by omega)

/-- The rows of a page come before the rows it leaves. -/
theorem page_before {size : Nat} {after : κ} {rows : List ρ} {final : ρ} (unique : UniqueBy key rows)
    (ends : (page key size after rows).getLast? = some final) {row : ρ} (within : row ∈ rows)
    (beyond : after < key row) (left : row ∉ page key size after rows) : key final < key row := by
  have split := List.take_append_drop size (following key after rows)
  have sorted := following_ascending after unique
  rw [← split] at sorted
  have later : row ∈ (following key after rows).drop size := by
    have inside : row ∈ following key after rows := mem_following.mpr ⟨within,beyond⟩
    rw [← split,List.mem_append] at inside
    exact inside.resolve_left left
  exact (List.pairwise_append.mp sorted).2.2 final (List.mem_of_getLast? ends) row later

/-- Within a page no key comes after its last one. -/
theorem page_upto {size : Nat} {after : κ} {rows : List ρ} {final row : ρ} (unique : UniqueBy key rows)
    (ends : (page key size after rows).getLast? = some final) (within : row ∈ page key size after rows) :
    key row ≤ key final := by
  obtain ⟨front,split⟩ := List.getLast?_eq_some_iff.mp ends
  have sorted : (page key size after rows).Pairwise (fun left right => key left < key right) :=
    (following_ascending after unique).sublist (List.take_sublist _ _)
  rw [split] at sorted within
  rcases List.mem_append.mp within with early | same
  · exact ((List.pairwise_append.mp sorted).2.2 row early final (by simp)).le
  · rw [List.mem_singleton.mp same]

/-- Beyond a row of the page there is less than there was. -/
theorem following_shrinks {size : Nat} {after : κ} {rows : List ρ} {row : ρ} (within : row ∈ page key size after rows) :
    (following key (key row) rows).length < (following key after rows).length := by
  obtain ⟨inside,beyond⟩ := mem_page within
  have again : rows.filter (fun other => decide (key row < key other)) =
      (rows.filter (fun other => decide (after < key other))).filter (fun other => decide (key row < key other)) := by
    rw [List.filter_filter]
    refine List.filter_congr fun other _ => ?_
    by_cases later : key row < key other
    · simp [later,beyond.trans later]
    · simp [later]
  rw [(following_perm _ rows).length_eq,(following_perm _ rows).length_eq,again]
  refine List.length_filter_lt_length_iff_exists.mpr ⟨row,?_,by simp⟩
  exact List.mem_filter.mpr ⟨inside,by simpa using beyond⟩

section Walking
variable {size index last : Nat} {tables : Nat → List ρ} {after : κ} {met : List ρ}

theorem Walk.le (walk : Walk key size tables index last after met) : index ≤ last := by
  induction walk with
  | ends short => exact le_refl _
  | continues ends further ih => omega

theorem Walk.mem (walk : Walk key size tables index last after met) {row : ρ} (member : row ∈ met) :
    after < key row ∧ ∃ read, index ≤ read ∧ read ≤ last ∧ row ∈ tables read := by
  induction walk with
  | @ends index after short => exact ⟨(mem_page member).2,index,le_refl _,le_refl _,(mem_page member).1⟩
  | @continues index last after final rest ends further ih =>
    have reach := further.le
    rcases List.mem_append.mp member with here | later
    · exact ⟨(mem_page here).2,index,le_refl _,by omega,(mem_page here).1⟩
    · obtain ⟨ahead,read,low,high,found⟩ := ih later
      have advanced := (mem_page (List.mem_of_getLast? ends)).2
      exact ⟨advanced.trans ahead,read,by omega,high,found⟩

/-- The keys met rise strictly, whatever happened to the table between reads. -/
theorem Walk.ascending (walk : Walk key size tables index last after met)
    (unique : ∀ read, UniqueBy key (tables read)) : met.Pairwise (fun left right => key left < key right) := by
  induction walk with
  | @ends index after short =>
    exact (following_ascending after (unique index)).sublist (List.take_sublist _ _)
  | @continues index last after final rest ends further ih =>
    refine List.pairwise_append.mpr ⟨?_,ih,fun row here other there => ?_⟩
    · exact (following_ascending after (unique index)).sublist (List.take_sublist _ _)
    · exact lt_of_le_of_lt (page_upto (unique index) ends here) (further.mem there).1

/-- A key that stood in every table read is met. -/
theorem Walk.meets (walk : Walk key size tables index last after met)
    (unique : ∀ read, UniqueBy key (tables read)) {sought : κ} (beyond : after < sought)
    (present : ∀ read, index ≤ read → read ≤ last → ∃ row ∈ tables read, key row = sought) :
    ∃ row ∈ met, key row = sought := by
  induction walk with
  | @ends index after short =>
    obtain ⟨row,within,is⟩ := present index (le_refl _) (le_refl _)
    rw [page_short short]
    exact ⟨row,mem_following.mpr ⟨within,by rwa [is]⟩,is⟩
  | @continues index last after final rest ends further ih =>
    have reach := further.le
    obtain ⟨row,within,is⟩ := present index (le_refl _) (by omega)
    by_cases here : row ∈ page key size after (tables index)
    · exact ⟨row,List.mem_append_left _ here,is⟩
    · have ahead := page_before (unique index) ends within (by rwa [is]) here
      rw [is] at ahead
      obtain ⟨other,later,same⟩ := ih ahead (fun read low high => present read (by omega) high)
      exact ⟨other,List.mem_append_right _ later,same⟩

/-- A row that stood in every table read is met. -/
theorem Walk.complete (walk : Walk key size tables index last after met)
    (unique : ∀ read, UniqueBy key (tables read)) {row : ρ} (beyond : after < key row)
    (present : ∀ read, index ≤ read → read ≤ last → row ∈ tables read) : row ∈ met := by
  obtain ⟨other,member,same⟩ := walk.meets unique beyond (fun read low high => ⟨row,present read low high,rfl⟩)
  obtain ⟨-,read,low,high,within⟩ := walk.mem member
  rwa [← (unique read).eq_of_key within (present read low high) same]

theorem Walk.nodup (walk : Walk key size tables index last after met)
    (unique : ∀ read, UniqueBy key (tables read)) : (met.map key).Nodup :=
  List.pairwise_map.mpr ((walk.ascending unique).imp (fun below => below.ne))

end Walking

/-! ### Reading on -/

/-- The reads made so far: their number, the key the next one starts behind, and the rows
    met. -/
inductive Reading (key : ρ → κ) (size : Nat) (tables : Nat → List ρ) (origin : κ) : Nat → κ → List ρ → Prop
  | start : Reading key size tables origin 0 origin []
  | turns {index : Nat} {after : κ} {final : ρ} {earlier : List ρ}
      (reading : Reading key size tables origin index after earlier)
      (ends : (page key size after (tables index)).getLast? = some final) :
      Reading key size tables origin (index + 1) (key final) (earlier ++ page key size after (tables index))

section Readings
variable {size index : Nat} {tables : Nat → List ρ} {origin after : κ} {earlier : List ρ}

/-- Reads that go on to the end of a walk are its first ones. -/
theorem Reading.walk (reading : Reading key size tables origin index after earlier) {last : Nat} {rest : List ρ}
    (further : Walk key size tables index last after rest) : Walk key size tables 0 last origin (earlier ++ rest) := by
  induction reading generalizing rest with
  | start => exact further
  | turns reading ends ih =>
    rw [List.append_assoc]
    exact ih (further.continues ends)

theorem Reading.mem (reading : Reading key size tables origin index after earlier) {row : ρ} (member : row ∈ earlier) :
    ∃ read, read < index ∧ row ∈ tables read := by
  induction reading with
  | start => cases member
  | @turns index after final earlier reading ends ih =>
    rcases List.mem_append.mp member with before | here
    · obtain ⟨read,low,within⟩ := ih before
      exact ⟨read,by omega,within⟩
    · exact ⟨index,by omega,(mem_page here).1⟩

/-- The keys met so far rise strictly, up to the key the next read starts behind. -/
theorem Reading.ascending (reading : Reading key size tables origin index after earlier)
    (unique : ∀ read, UniqueBy key (tables read)) :
    earlier.Pairwise (fun left right => key left < key right) ∧ ∀ row ∈ earlier, key row ≤ after := by
  induction reading with
  | start => simp
  | @turns index after final earlier reading ends ih =>
    obtain ⟨sorted,upto⟩ := ih
    have advanced := (mem_page (List.mem_of_getLast? ends)).2
    constructor
    · refine List.pairwise_append.mpr ⟨sorted,?_,fun row here other there => ?_⟩
      · exact (following_ascending after (unique index)).sublist (List.take_sublist _ _)
      · exact lt_of_le_of_lt (upto row here) (mem_page there).2
    · intro row member
      rcases List.mem_append.mp member with before | here
      · exact (upto row before).trans advanced.le
      · exact page_upto (unique index) ends here

end Readings

/-- Over a table that does not change, a walk from before its rows meets every row once. -/
theorem Walk.still {size index last : Nat} {rows met : List ρ} {after : κ}
    (walk : Walk key size (fun _ => rows) index last after met) (unique : UniqueBy key rows)
    (beyond : ∀ row ∈ rows, after < key row) : met.Perm rows := by
  have distinct : met.Nodup := (walk.nodup (fun _ => unique)).of_map _
  refine (List.perm_ext_iff_of_nodup distinct (List.Nodup.of_map key unique)).mpr fun row => ?_
  constructor
  · intro member
    obtain ⟨_,_,_,_,within⟩ := walk.mem member
    exact within
  · intro within
    exact walk.complete (fun _ => unique) (beyond row within) (fun _ _ _ => within)

end Lib.Keyset
