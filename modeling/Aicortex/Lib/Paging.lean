import Aicortex.Lib.Tables
import Mathlib.Data.List.Sort
import Mathlib.Data.Nat.Basic

/-!
Reading a table page by page. A page holds the rows beyond a cursor in the order of
a key, up to a limit; the key of a full page's last row is the next cursor. Where the
key is unique, following the cursors cuts the ordered rows into blocks of the limit.
-/

namespace Lib.Paging
open Lib.Tables

variable {ρ : Type} (key : ρ → Nat)

/-- The rows beyond a cursor, in order. -/
def beyond (after : Nat) (rows : List ρ) : List ρ :=
  (rows.filter (fun row => decide (after < key row))).insertionSort (fun left right => key left ≤ key right)

/-- How many rows come before a row, beyond a cursor. -/
def rank (after : Nat) (rows : List ρ) (row : ρ) : Nat :=
  rows.countP (fun other => decide (after < key other) && decide (key other < key row))

def Ascending (rows : List ρ) : Prop := rows.Pairwise (fun left right => key left < key right)

/-- The blocks of a list: full ones, and what is left of it. -/
def blocks (limit : Nat) (rows : List ρ) : List (List ρ) :=
  (List.range (rows.length / limit + 1)).map (fun index => (rows.drop (index * limit)).take limit)

variable {key}

/-! ### Order -/

theorem beyond_perm (after : Nat) (rows : List ρ) :
    (beyond key after rows).Perm (rows.filter (fun row => decide (after < key row))) :=
  List.perm_insertionSort _ _

theorem mem_beyond {after : Nat} {rows : List ρ} {row : ρ} :
    row ∈ beyond key after rows ↔ row ∈ rows ∧ after < key row := by
  rw [(beyond_perm after rows).mem_iff,List.mem_filter]
  simp

theorem beyond_ascending (after : Nat) {rows : List ρ} (unique : UniqueBy key rows) :
    Ascending key (beyond key after rows) := by
  have distinct : ((beyond key after rows).map key).Nodup :=
    ((beyond_perm after rows).map key).nodup_iff.mpr (unique.sublist (List.filter_sublist.map key))
  have sorted : (beyond key after rows).Pairwise (fun left right => key left ≤ key right) :=
    haveI : Std.Total (fun left right : ρ => key left ≤ key right) := ⟨fun left right => Nat.le_total _ _⟩
    haveI : IsTrans ρ (fun left right : ρ => key left ≤ key right) := ⟨fun _ _ _ => Nat.le_trans⟩
    List.pairwise_insertionSort _ _
  exact sorted.imp₂ (fun left right below apart => lt_of_le_of_ne below apart) (List.pairwise_map.mp distinct)

theorem Ascending.nodup {rows : List ρ} (ascending : Ascending key rows) : rows.Nodup :=
  List.Pairwise.imp (fun below same => absurd (congrArg key same) below.ne) ascending

theorem Ascending.eq_of_perm {left right : List ρ} (leftUp : Ascending key left) (rightUp : Ascending key right)
    (same : left.Perm right) : left = right :=
  same.eq_of_pairwise (fun _ _ _ _ up down => absurd up (lt_asymm down)) leftUp rightUp

/-- A later cursor leaves the rows beyond it. -/
theorem filter_beyond {after next : Nat} (later : after ≤ next) {rows : List ρ} (unique : UniqueBy key rows) :
    (beyond key after rows).filter (fun row => decide (next < key row)) = beyond key next rows := by
  refine Ascending.eq_of_perm ((beyond_ascending after unique).sublist List.filter_sublist) (beyond_ascending next unique) ?_
  refine ((beyond_perm after rows).filter _).trans (List.Perm.trans (.of_eq ?_) (beyond_perm next rows).symm)
  rw [List.filter_filter]
  refine List.filter_congr fun row _ => ?_
  by_cases ahead : next < key row
  · simp [ahead,lt_of_le_of_lt later ahead]
  · simp [ahead]

/-- Past the key of a segment's last row lies what follows the segment. -/
theorem filter_past {front back : List ρ} {last : ρ} (ascending : Ascending key (front ++ back))
    (ends : front.getLast? = some last) : (front ++ back).filter (fun row => decide (key last < key row)) = back := by
  obtain ⟨init,rfl⟩ := List.getLast?_eq_some_iff.mp ends
  obtain ⟨inFront,inBack,across⟩ := List.pairwise_append.mp ascending
  have none' : (init ++ [last]).filter (fun row => decide (key last < key row)) = [] := by
    refine List.filter_eq_nil_iff.mpr fun row member => ?_
    rcases List.mem_append.mp member with early | final
    · have below := (List.pairwise_append.mp inFront).2.2 row early last (by simp)
      simpa using below.le
    · simp [List.mem_singleton.mp final]
  have all : back.filter (fun row => decide (key last < key row)) = back := by
    refine List.filter_eq_self.mpr fun row member => ?_
    simpa using across last (by simp) row member
  rw [List.filter_append,none',all,List.nil_append]

/-! ### Positions -/

theorem countP_getElem {rows : List ρ} (ascending : Ascending key rows) (index : Nat) (inside : index < rows.length) :
    rows.countP (fun other => decide (key other < key rows[index])) = index := by
  induction rows generalizing index with
  | nil => simp at inside
  | cons row rest ih =>
    obtain ⟨below,restUp⟩ := List.pairwise_cons.mp ascending
    cases index with
    | zero =>
      rw [List.countP_eq_zero]
      intro other member
      rcases List.mem_cons.mp member with rfl | later
      · simp
      · simpa using (below other later).le
    | succ index =>
      have fits : index < rest.length := by simpa using inside
      have ahead : key row < key rest[index] := below _ (List.getElem_mem fits)
      rw [List.getElem_cons_succ,List.countP_cons,ih restUp]
      simp [ahead]

theorem rank_getElem {after : Nat} {rows : List ρ} (unique : UniqueBy key rows) (index : Nat)
    (inside : index < (beyond key after rows).length) : rank key after rows (beyond key after rows)[index] = index := by
  have counted := countP_getElem (beyond_ascending after unique) index inside
  rw [(beyond_perm after rows).countP_eq,List.countP_filter] at counted
  refine Eq.trans (List.countP_congr fun other _ => ?_) counted
  simp [and_comm]

/-- A segment of the ordered rows holds the rows ranked in it. -/
theorem mem_segment {after start limit : Nat} {rows : List ρ} (unique : UniqueBy key rows) {row : ρ} :
    row ∈ ((beyond key after rows).drop start).take limit ↔
      row ∈ rows ∧ after < key row ∧ start ≤ rank key after rows row ∧ rank key after rows row < start + limit := by
  rw [← and_assoc,← mem_beyond]
  constructor
  · intro member
    obtain ⟨index,inside,rfl⟩ := List.mem_iff_getElem.mp member
    simp only [List.length_take,List.length_drop] at inside
    simp only [List.getElem_take,List.getElem_drop]
    rw [rank_getElem unique]
    exact ⟨List.getElem_mem _,by omega,by omega⟩
  · rintro ⟨member,from',upTo⟩
    obtain ⟨index,inside,rfl⟩ := List.mem_iff_getElem.mp member
    rw [rank_getElem unique] at from' upTo
    refine List.mem_iff_getElem.mpr ⟨index - start,?_,?_⟩
    · simp only [List.length_take,List.length_drop]
      omega
    · simp only [List.getElem_take,List.getElem_drop]
      congr 1
      omega

/-! ### Blocks -/

theorem blocks_of_lt {limit : Nat} {rows : List ρ} (short : rows.length < limit) : blocks limit rows = [rows] := by
  rw [blocks,Nat.div_eq_of_lt short]
  simp [List.take_of_length_le short.le]

theorem blocks_of_le {limit : Nat} {rows : List ρ} (positive : 0 < limit) (full : limit ≤ rows.length) :
    blocks limit rows = rows.take limit :: blocks limit (rows.drop limit) := by
  have one : rows.length / limit = (rows.length - limit) / limit + 1 := by
    rw [Nat.div_eq_sub_div positive full]
  rw [blocks,one,List.range_succ_eq_map,List.map_cons,List.map_map,blocks,List.length_drop]
  simp only [Nat.zero_mul,List.drop_zero,List.cons.injEq,true_and]
  refine List.map_congr_left fun index _ => ?_
  simp only [Function.comp,List.drop_drop,Nat.succ_mul]
  rw [Nat.add_comm]

theorem flatten_blocks {limit : Nat} (positive : 0 < limit) (rows : List ρ) : (blocks limit rows).flatten = rows := by
  induction measured : rows.length using Nat.strong_induction_on generalizing rows with
  | _ size ih =>
    rcases Nat.lt_or_ge rows.length limit with short | full
    · simp [blocks_of_lt short]
    · rw [blocks_of_le positive full,List.flatten_cons,ih (rows.drop limit).length (by simp; omega) _ rfl,
        List.take_append_drop]

theorem mem_blocks {limit : Nat} (positive : 0 < limit) {rows : List ρ} {block : List ρ}
    (member : block ∈ blocks limit rows) : ∀ row ∈ block, row ∈ rows := by
  intro row inside
  rw [← flatten_blocks positive rows]
  exact List.mem_flatten_of_mem member inside

/-- Rows that fit a page make up its only filled block. -/
theorem blocks_of_fits {limit : Nat} (positive : 0 < limit) {rows : List ρ} (fits : rows.length ≤ limit) :
    blocks limit rows = [rows] ∨ blocks limit rows = [rows,[]] := by
  rcases Nat.lt_or_ge rows.length limit with short | full
  · exact .inl (blocks_of_lt short)
  · have empty : ([] : List ρ).length < limit := positive
    rw [blocks_of_le positive full,List.drop_of_length_le fits,List.take_of_length_le fits,blocks_of_lt empty]
    exact .inr rfl

theorem exists_filled_block {limit : Nat} (positive : 0 < limit) {rows : List ρ} (filled : rows ≠ []) :
    ∃ block ∈ blocks limit rows, block ≠ [] := by
  obtain ⟨row,member⟩ := List.exists_mem_of_ne_nil rows filled
  rw [← flatten_blocks positive rows] at member
  obtain ⟨block,blockIn,inside⟩ := List.mem_flatten.mp member
  exact ⟨block,blockIn,List.ne_nil_of_mem inside⟩

/-- Two rows share a block when their ranks agree up to the limit. -/
theorem share_block {limit : Nat} (positive : 0 < limit) {after : Nat} {rows : List ρ} (unique : UniqueBy key rows)
    {left right : ρ} (leftIn : left ∈ beyond key after rows) (rightIn : right ∈ beyond key after rows) :
    (∃ block ∈ blocks limit (beyond key after rows), left ∈ block ∧ right ∈ block) ↔
      rank key after rows left / limit = rank key after rows right / limit := by
  have within : ∀ (rank index : Nat), (index * limit ≤ rank ∧ rank < index * limit + limit) ↔ rank / limit = index := by
    intro rank index
    rw [Nat.div_eq_iff positive]
    constructor
    · rintro ⟨low,high⟩
      omega
    · rintro ⟨low,high⟩
      omega
  constructor
  · rintro ⟨block,member,leftInside,rightInside⟩
    obtain ⟨index,-,rfl⟩ := List.mem_map.mp member
    rw [(within _ index).mp (mem_segment unique |>.mp leftInside).2.2,
      (within _ index).mp (mem_segment unique |>.mp rightInside).2.2]
  · intro same
    have ranked : rank key after rows left < (beyond key after rows).length := by
      obtain ⟨index,inside,rfl⟩ := List.mem_iff_getElem.mp leftIn
      rw [rank_getElem unique]
      exact inside
    refine ⟨_,List.mem_map.mpr ⟨rank key after rows left / limit,?_,rfl⟩,mem_segment unique |>.mpr ?_,
      mem_segment unique |>.mpr ?_⟩
    · exact List.mem_range.mpr (Nat.lt_succ_of_le (Nat.div_le_div_right ranked.le))
    · exact ⟨(mem_beyond.mp leftIn).1,(mem_beyond.mp leftIn).2,(within _ _).mpr rfl⟩
    · exact ⟨(mem_beyond.mp rightIn).1,(mem_beyond.mp rightIn).2,(within _ _).mpr same.symm⟩

/-- Beyond the last row of a full segment lies the rest. -/
theorem beyond_last {limit after : Nat} {rows : List ρ} {last : ρ} (unique : UniqueBy key rows)
    (ends : ((beyond key after rows).take limit).getLast? = some last) :
    after < key last ∧ beyond key (key last) rows = (beyond key after rows).drop limit := by
  have member : last ∈ beyond key after rows := List.mem_of_mem_take (List.mem_of_getLast? ends)
  have ahead := (mem_beyond.mp member).2
  refine ⟨ahead,?_⟩
  have split : Ascending key ((beyond key after rows).take limit ++ (beyond key after rows).drop limit) := by
    rw [List.take_append_drop]
    exact beyond_ascending after unique
  have past := filter_past split ends
  rw [List.take_append_drop] at past
  rw [← filter_beyond ahead.le unique,past]

/-- Two selections that exclude each other add up to their union. -/
theorem filter_union_perm {left right : ρ → Bool} (rows : List ρ)
    (apart : ∀ row ∈ rows, left row = true → right row = false) :
    (rows.filter left ++ rows.filter right).Perm (rows.filter (fun row => left row || right row)) := by
  have inLeft : rows.filter left = (rows.filter (fun row => left row || right row)).filter left := by
    rw [List.filter_filter]
    refine List.filter_congr fun row _ => ?_
    cases left row <;> simp
  have inRight : rows.filter right = (rows.filter (fun row => left row || right row)).filter (fun row => !left row) := by
    rw [List.filter_filter]
    refine List.filter_congr fun row member => ?_
    have excluded := apart row member
    cases chosen : left row with
    | true => simp [excluded chosen]
    | false => simp
  rw [inLeft,inRight]
  exact List.filter_append_perm left _

theorem flatMap_filter_perm {β : Type} {selects : β → ρ → Bool} (parts : List β) (rows : List ρ)
    (apart : parts.Pairwise (fun left right => ∀ row ∈ rows, selects left row = true → selects right row = false)) :
    (parts.flatMap (fun part => rows.filter (selects part))).Perm
      (rows.filter (fun row => parts.any (fun part => selects part row))) := by
  induction parts with
  | nil => simp
  | cons part rest ih =>
    obtain ⟨fromFirst,others⟩ := List.pairwise_cons.mp apart
    rw [List.flatMap_cons]
    refine ((ih others).append_left _).trans ?_
    simp only [List.any_cons]
    refine filter_union_perm rows fun row member chosen => ?_
    rw [List.any_eq_false]
    intro other otherIn
    rw [fromFirst other otherIn row member chosen]
    simp

end Lib.Paging
