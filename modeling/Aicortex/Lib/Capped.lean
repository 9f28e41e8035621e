import Aicortex.Lib.Tally
import Aicortex.Lib.Ordered

/-!
Sums that stop at a cap, plain and by key, and counts of a table taken key by key.
-/

namespace Lib.Capped
open Lib.Ordered

/-- Addition that stays at the cap. -/
def add (cap left right : Nat) : Nat := min (left + right) cap

theorem add_le (cap left right : Nat) : add cap left right ≤ cap := Nat.min_le_right _ _

section
variable {α κ ν : Type} (cap : Nat)

/-- Adding one amount after the other caps their sum. -/
theorem foldl_add (amount : α → Nat) (items : List α) {start : Nat} (below : start ≤ cap) :
    items.foldl (fun total item => add cap total (amount item)) start = min (start + (items.map amount).sum) cap := by
  induction items generalizing start with
  | nil => simp [below]
  | cons item rest ih =>
    rw [List.foldl_cons,ih (add_le cap _ _),List.map_cons,List.sum_cons]
    unfold add
    omega

/-- Of a map built by updates the value under a key is what the updates of that key make. -/
theorem find?_updates [LinearOrder κ] (key : α → κ) (default : ν) (step : α → ν → ν) (items : List α) (map : OrdMap κ ν)
    (sought : κ) :
    (items.foldl (fun map item => map.upsert (key item) default (step item)) map).find? sought =
      (items.filter (fun item => decide (key item = sought))).foldl
        (fun value item => some (step item (value.getD default))) (map.find? sought) := by
  induction items generalizing map with
  | nil => rfl
  | cons item rest ih =>
    rw [List.foldl_cons,ih,OrdMap.find?_upsert]
    by_cases here : key item = sought
    · subst here
      simp
    · simp [here,Ne.symm here]

end

/-! ### Counting key by key -/

section
variable {ρ κ : Type} [DecidableEq κ] (key : ρ → κ) (part : ρ → Bool)

/-- The counts under keys that differ add up to the count of the rows under any of them. -/
theorem sum_countP (rows : List ρ) {keys : List κ} (distinct : keys.Nodup) :
    (keys.map (fun at' => rows.countP (fun row => part row && decide (key row = at')))).sum =
      rows.countP (fun row => part row && decide (key row ∈ keys)) := by
  induction keys with
  | nil => simp
  | cons first rest ih =>
    obtain ⟨apart,remaining⟩ := List.nodup_cons.mp distinct
    rw [List.map_cons,List.sum_cons,ih remaining,Lib.Tally.countP_cons_key key part rows apart]

theorem sum_countP_le (rows : List ρ) {keys : List κ} (distinct : keys.Nodup) :
    (keys.map (fun at' => rows.countP (fun row => part row && decide (key row = at')))).sum ≤ rows.countP part := by
  rw [sum_countP key part rows distinct]
  exact List.countP_mono_left fun row _ chosen => (Bool.and_eq_true_iff.mp chosen).1

theorem sum_countP_all {rows : List ρ} {keys : List κ} (distinct : keys.Nodup) (covered : ∀ row ∈ rows, key row ∈ keys) :
    (keys.map (fun at' => rows.countP (fun row => part row && decide (key row = at')))).sum = rows.countP part := by
  rw [sum_countP key part rows distinct]
  refine List.countP_congr fun row member => ?_
  simp [covered row member]

end

end Lib.Capped
