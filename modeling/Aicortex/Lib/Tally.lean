import Mathlib.Algebra.Group.Pi.Lemmas
import Mathlib.Algebra.BigOperators.Group.List.Lemmas
import Mathlib.Tactic.Abel
import Aicortex.Lib.Tables
import Aicortex.Lib.Paging

/-!
How many rows of a table there are under each key, as a function of the key, and by how
much a change of the rows moves it. What is moved adds up over the parts of a table.
-/

namespace Lib.Tally
open Lib.Tables Lib.Paging

variable {ρ κ β : Type} [DecidableEq κ] {key : ρ → κ} {change : ρ → ρ} {rows : List ρ}

/-- One under a key and none elsewhere. -/
def unit (at' : κ) : κ → Int := Pi.single at' 1

def tally (key : ρ → κ) (rows : List ρ) : κ → Int := (rows.map (fun row => unit (key row))).sum

/-- What a change of the rows moves from their old keys to their new ones. -/
def moved (key : ρ → κ) (change : ρ → ρ) (rows : List ρ) : κ → Int :=
  (rows.map (fun row => unit (key (change row)) - unit (key row))).sum

theorem unit_apply (at' other : κ) : unit at' other = if other = at' then 1 else 0 := Pi.single_apply at' 1 other

theorem tally_cons (key : ρ → κ) (row : ρ) (rows : List ρ) : tally key (row :: rows) = unit (key row) + tally key rows := by
  simp [tally]

theorem moved_cons (key : ρ → κ) (change : ρ → ρ) (row : ρ) (rows : List ρ) :
    moved key change (row :: rows) = unit (key (change row)) - unit (key row) + moved key change rows := by
  simp [moved]

theorem moved_singleton (key : ρ → κ) (change : ρ → ρ) (row : ρ) :
    moved key change [row] = unit (key (change row)) - unit (key row) := by
  simp [moved]

theorem moved_append (key : ρ → κ) (change : ρ → ρ) (rows others : List ρ) :
    moved key change (rows ++ others) = moved key change rows + moved key change others := by
  simp [moved]

theorem tally_apply (key : ρ → κ) (rows : List ρ) (at' : κ) :
    tally key rows at' = rows.countP (fun row => decide (key row = at')) := by
  induction rows with
  | nil => rfl
  | cons row rest ih =>
    rw [tally_cons,Pi.add_apply,ih,List.countP_cons,unit_apply]
    by_cases here : key row = at'
    · simp [here,add_comm]
    · simp [here,Ne.symm here]

theorem tally_nonneg (key : ρ → κ) (rows : List ρ) (at' : κ) : 0 ≤ tally key rows at' := by
  rw [tally_apply]
  exact Int.natCast_nonneg _

/-- A row counts under its key. -/
theorem tally_pos {row : ρ} (member : row ∈ rows) : 1 ≤ tally key rows (key row) := by
  have counted : 0 < rows.countP (fun other => decide (key other = key row)) :=
    List.countP_pos_iff.mpr ⟨row,member,by simp⟩
  rw [tally_apply]
  omega

theorem tally_append (key : ρ → κ) (rows : List ρ) (row : ρ) : tally key (rows ++ [row]) = tally key rows + unit (key row) := by
  simp [tally]

theorem tally_map (key : ρ → κ) (change : ρ → ρ) (rows : List ρ) :
    tally key (rows.map change) = tally key rows + moved key change rows := by
  induction rows with
  | nil => simp [tally,moved]
  | cons row rest ih =>
    rw [List.map_cons,tally_cons,tally_cons,moved_cons,ih]
    abel

/-- Rows under one of two keys that differ are counted under each. -/
theorem countP_cons_key (key : ρ → κ) (part : ρ → Bool) (rows : List ρ) {first : κ} {keys : List κ} (apart : first ∉ keys) :
    rows.countP (fun row => part row && decide (key row ∈ first :: keys)) =
      rows.countP (fun row => part row && decide (key row = first)) +
        rows.countP (fun row => part row && decide (key row ∈ keys)) := by
  induction rows with
  | nil => rfl
  | cons row rest ih =>
    rw [List.countP_cons,List.countP_cons,List.countP_cons,ih]
    by_cases inside : part row = true
    · by_cases here : key row = first
      · simp [inside,here,apart]
        omega
      · simp [inside,here]
        omega
    · simp [inside]

/-- Adding up the counts under some keys counts the rows under any of them. -/
theorem foldl_countP (key : ρ → κ) (part : ρ → Bool) (rows : List ρ) {keys : List κ} (distinct : keys.Nodup) (total : Int) :
    keys.foldl (fun (total : Int) at' => total + rows.countP (fun row => part row && decide (key row = at'))) total =
      total + rows.countP (fun row => part row && decide (key row ∈ keys)) := by
  induction keys generalizing total with
  | nil => simp
  | cons first rest ih =>
    obtain ⟨apart,remaining⟩ := List.nodup_cons.mp distinct
    rw [List.foldl_cons,ih remaining,countP_cons_key key part rows apart]
    push_cast
    omega

/-- Rows that keep their keys move nothing. -/
theorem moved_still (still : ∀ row ∈ rows, key (change row) = key row) : moved key change rows = 0 := by
  refine List.sum_eq_zero fun part member => ?_
  obtain ⟨row,rowIn,rfl⟩ := List.mem_map.mp member
  rw [still row rowIn,sub_self]

theorem moved_congr {other : ρ → ρ} (same : ∀ row ∈ rows, key (change row) = key (other row)) :
    moved key change rows = moved key other rows := by
  refine congrArg List.sum (List.map_congr_left fun row member => ?_)
  rw [same row member]

theorem moved_perm {others : List ρ} (perm : rows.Perm others) : moved key change rows = moved key change others :=
  (perm.map _).sum_eq

theorem moved_flatMap (parts : List β) (rowsOf : β → List ρ) :
    moved key change (parts.flatMap rowsOf) = (parts.map (fun part => moved key change (rowsOf part))).sum := by
  induction parts with
  | nil => rfl
  | cons part rest ih =>
    rw [List.flatMap_cons,List.map_cons,List.sum_cons,← ih,moved_append]

/-- Only the rows that change their keys move anything. -/
theorem moved_filter (selected : ρ → Bool) (still : ∀ row ∈ rows, selected row = false → key (change row) = key row) :
    moved key change (rows.filter selected) = moved key change rows := by
  have rest : moved key change (rows.filter (fun row => !selected row)) = 0 := by
    refine moved_still fun row member => ?_
    obtain ⟨rowIn,skipped⟩ := List.mem_filter.mp member
    exact still row rowIn (by simpa using skipped)
  rw [← moved_perm (List.filter_append_perm selected rows),moved_append,rest,add_zero]

/-- What is moved, part by part, where the parts do not overlap and hold every row that
    changes its key. -/
theorem moved_parts {selects : β → ρ → Bool} (parts : List β)
    (apart : parts.Pairwise (fun left right => ∀ row ∈ rows, selects left row = true → selects right row = false))
    (still : ∀ row ∈ rows, parts.any (fun part => selects part row) = false → key (change row) = key row) :
    (parts.map (fun part => moved key change (rows.filter (selects part)))).sum = moved key change rows := by
  rw [← moved_flatMap,moved_perm (flatMap_filter_perm parts rows apart)]
  exact moved_filter _ still

theorem tally_update (selected : ρ → Bool) (change : ρ → ρ) (rows : List ρ) :
    tally key (updateWhere selected change rows) = tally key rows + moved key change (rows.filter selected) := by
  unfold updateWhere
  rw [tally_map]
  congr 1
  rw [← moved_filter selected]
  · refine moved_congr fun row member => ?_
    rw [if_pos (List.mem_filter.mp member).2]
  · intro row _ skipped
    rw [skipped,if_neg Bool.false_ne_true]

/-- Rows that all move from one key to another move their number. -/
theorem moved_constant {source target : κ} (from' : ∀ row ∈ rows, key row = source)
    (to' : ∀ row ∈ rows, key (change row) = target) :
    moved key change rows = Pi.single target (rows.length : Int) - Pi.single source (rows.length : Int) := by
  induction rows with
  | nil => simp [moved]
  | cons row rest ih =>
    rw [moved_cons,ih (fun other member => from' other (List.mem_cons_of_mem _ member))
      (fun other member => to' other (List.mem_cons_of_mem _ member)),from' row List.mem_cons_self,
      to' row List.mem_cons_self,List.length_cons,Nat.cast_succ,Pi.single_add,Pi.single_add]
    unfold unit
    abel

end Lib.Tally
