import Mathlib.Data.List.Induction
import Mathlib.Data.List.Sort
import Mathlib.Order.Lattice

/-!
Selecting the best items of a list by a rank, with room for a fixed number of them.
The kept items stand in order, the worst first: a new item goes in while there is
room, and takes the place of the worst kept one where it beats it.
-/

namespace Lib.Selection

variable {α κ : Type} [LinearOrder κ] (rank : α → κ)

/-- The items from the worst to the best. -/
def ascending (items : List α) : List α := items.insertionSort (fun left right => rank left ≤ rank right)

/-- The items from the best to the worst. -/
def descending (items : List α) : List α := items.insertionSort (fun left right => rank right ≤ rank left)

def push (item : α) (kept : List α) : List α := kept.orderedInsert (fun left right => rank left ≤ rank right) item

/-- Whether an item goes in. -/
def admits (room : Nat) (kept : List α) (item : α) : Bool :=
  if room = 0 then false
  else if kept.length < room then true
  else kept.head?.any (fun worst => decide (rank worst < rank item))

def offer (room : Nat) (kept : List α) (item : α) : List α :=
  if admits rank room kept item then push rank item (if kept.length < room then kept else kept.tail)
  else kept

variable {rank}

theorem ascending_perm (items : List α) : (ascending rank items).Perm items := List.perm_insertionSort _ _

theorem descending_perm (items : List α) : (descending rank items).Perm items := List.perm_insertionSort _ _

theorem ascending_sorted (items : List α) :
    (ascending rank items).Pairwise (fun left right => rank left ≤ rank right) :=
  haveI : Std.Total (fun left right : α => rank left ≤ rank right) := ⟨fun _ _ => le_total _ _⟩
  haveI : IsTrans α (fun left right : α => rank left ≤ rank right) := ⟨fun _ _ _ => le_trans⟩
  List.pairwise_insertionSort _ _

theorem descending_sorted (items : List α) :
    (descending rank items).Pairwise (fun left right => rank right ≤ rank left) :=
  haveI : Std.Total (fun left right : α => rank right ≤ rank left) := ⟨fun _ _ => le_total _ _⟩
  haveI : IsTrans α (fun left right : α => rank right ≤ rank left) := ⟨fun _ _ _ up down => le_trans down up⟩
  List.pairwise_insertionSort _ _

/-- Two ordered lists of the same items are one where no two items rank alike. -/
theorem sorted_eq {left right : List α} (distinct : (left.map rank).Nodup) (same : left.Perm right)
    (leftUp : left.Pairwise (fun a b => rank a ≤ rank b)) (rightUp : right.Pairwise (fun a b => rank a ≤ rank b)) :
    left = right := by
  refine same.eq_of_pairwise (fun a b inLeft inRight up down => ?_) leftUp rightUp
  exact List.inj_on_of_nodup_map distinct inLeft (same.mem_iff.mpr inRight) (le_antisymm up down)

theorem ascending_reverse {items : List α} (distinct : (items.map rank).Nodup) :
    ascending rank items.reverse = ascending rank items := by
  have same : (ascending rank items.reverse).Perm (ascending rank items) :=
    (ascending_perm _).trans ((List.reverse_perm items).trans (ascending_perm items).symm)
  refine sorted_eq ?_ same (ascending_sorted _) (ascending_sorted _)
  have ranks := ((@ascending_perm _ _ _ rank items.reverse).trans (List.reverse_perm items)).map rank
  exact ranks.nodup_iff.mpr distinct

theorem descending_eq {items : List α} (distinct : (items.map rank).Nodup) :
    descending rank items = (ascending rank items).reverse := by
  rw [← List.reverse_reverse (descending rank items)]
  congr 1
  have same : (descending rank items).reverse.Perm (ascending rank items) :=
    (List.reverse_perm _).trans ((descending_perm items).trans (ascending_perm items).symm)
  refine sorted_eq ?_ same (List.pairwise_reverse.mpr (descending_sorted items)) (ascending_sorted items)
  have ranks := ((List.reverse_perm _).trans (@descending_perm _ _ _ rank items)).map rank
  exact ranks.nodup_iff.mpr distinct

/-- The order does not depend on how the items were listed. -/
theorem descending_congr {left right : List α} (distinct : (left.map rank).Nodup) (same : left.Perm right) :
    descending rank left = descending rank right := by
  have otherDistinct : (right.map rank).Nodup := (same.map rank).nodup_iff.mp distinct
  rw [descending_eq distinct,descending_eq otherDistinct]
  congr 1
  have both : (ascending rank left).Perm (ascending rank right) :=
    (ascending_perm left).trans (same.trans (ascending_perm right).symm)
  refine sorted_eq ?_ both (ascending_sorted left) (ascending_sorted right)
  exact ((@ascending_perm _ _ _ rank left).map rank).nodup_iff.mpr distinct

/-! ### One offer -/

/-- An item no better than the kept ones goes in before them. -/
theorem push_before {item worst : α} (losers kept : List α) (below : rank item ≤ rank worst) :
    push rank item (losers ++ worst :: kept) = push rank item losers ++ worst :: kept := by
  induction losers with
  | nil => simp [push,List.orderedInsert_cons,below]
  | cons loser losers ih =>
    unfold push at ih ⊢
    rw [List.cons_append,List.orderedInsert_cons,List.orderedInsert_cons]
    split
    · rfl
    · rw [ih,List.cons_append]

/-- An item better than the worst kept one goes in after it. -/
theorem push_after {item worst : α} (losers kept : List α) (above : rank worst < rank item)
    (sorted : (losers ++ worst :: kept).Pairwise (fun left right => rank left ≤ rank right)) :
    push rank item (losers ++ worst :: kept) = losers ++ worst :: push rank item kept := by
  induction losers with
  | nil => simp [push,List.orderedInsert_cons,not_le.mpr above]
  | cons loser losers ih =>
    obtain ⟨least,rest⟩ := List.pairwise_cons.mp sorted
    have lower : rank loser < rank item := lt_of_le_of_lt (least worst (by simp)) above
    have tail := ih rest
    unfold push at tail ⊢
    rw [List.cons_append,List.orderedInsert_cons,if_neg (not_le.mpr lower),tail,List.cons_append]

/-- Offering one more item keeps the best of all that was offered. -/
theorem offer_drop (room : Nat) (positive : 0 < room) {all : List α} (item : α)
    (sorted : all.Pairwise (fun left right => rank left ≤ rank right)) :
    offer rank room (all.drop (all.length - room)) item =
      (push rank item all).drop ((push rank item all).length - room) := by
  have grown : (push rank item all).length = all.length + 1 := List.orderedInsert_length _ _ _
  rcases Nat.lt_or_ge all.length room with short | full
  · have nothing : all.length - room = 0 := by omega
    have still : all.length + 1 - room = 0 := by omega
    simp [offer,admits,grown,nothing,still,short,positive.ne']
  · obtain ⟨losers,kept,split,size⟩ : ∃ losers kept, all = losers ++ kept ∧ kept.length = room :=
      ⟨all.take (all.length - room),all.drop (all.length - room),(List.take_append_drop _ _).symm,by
        simp only [List.length_drop]; omega⟩
    obtain ⟨worst,others,rfl⟩ : ∃ worst others, kept = worst :: others := by
      cases kept with
      | nil => simp at size; omega
      | cons worst others => exact ⟨worst,others,rfl⟩
    subst split
    have before : (losers ++ worst :: others).length - room = losers.length := by simp at size ⊢; omega
    have after : (losers ++ worst :: others).length + 1 - room = losers.length + 1 := by simp at size ⊢; omega
    have notShort : ¬ others.length + 1 < room := by simp at size; omega
    rw [grown,before,after,List.drop_left]
    by_cases above : rank worst < rank item
    · rw [push_after losers others above sorted]
      have past : (losers ++ worst :: push rank item others).drop (losers.length + 1) = push rank item others := by
        rw [← List.drop_drop,List.drop_left,List.drop_one,List.tail_cons]
      rw [past]
      simp [offer,admits,positive.ne',notShort,above]
    · have pushed : (push rank item losers).length = losers.length + 1 := List.orderedInsert_length _ _ _
      rw [push_before losers others (not_lt.mp above),← pushed,List.drop_left]
      simp [offer,admits,positive.ne',notShort,above]

/-! ### All offers -/

theorem foldl_offer (room : Nat) (positive : 0 < room) (items : List α) :
    items.foldl (offer rank room) [] =
      (ascending rank items.reverse).drop (items.length - room) := by
  induction items using List.reverseRec with
  | nil => simp [ascending]
  | append_singleton items item ih =>
    have sorted := @ascending_sorted _ _ _ rank items.reverse
    have size : (ascending rank items.reverse).length = items.length := by simp [ascending]
    have grown : (ascending rank (items ++ [item]).reverse).length = (items ++ [item]).length := by
      rw [(ascending_perm _).length_eq,List.length_reverse]
    have step := offer_drop room positive item sorted
    have pushed : push rank item (ascending rank items.reverse) = ascending rank (items ++ [item]).reverse := by
      simp [push,ascending]
    rw [List.foldl_append,ih,List.foldl_cons,List.foldl_nil,← size,step,pushed,grown]

/-- What is kept, best first, is the front of the whole order. -/
theorem kept_best (room : Nat) (positive : 0 < room) {items : List α} (distinct : (items.map rank).Nodup) :
    (items.foldl (offer rank room) []).reverse = (descending rank items).take room := by
  have size : (ascending rank items).length = items.length := by simp [ascending]
  rw [foldl_offer room positive,ascending_reverse distinct,descending_eq distinct,List.take_reverse,size]

end Lib.Selection
