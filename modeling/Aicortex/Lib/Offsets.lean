import Mathlib.Data.List.Basic
import Mathlib.Data.List.Chain
import Mathlib.Order.Bounds.Basic
import Mathlib.Algebra.GroupWithZero.Nat

/-!
Offsets into a list whose items have sizes. A cut is an offset at which an item starts
or the list ends, and a slice is what lies between two cuts. Where every item has a
positive size a cut splits the list in one way, and slices that leave no gap put it
together again.
-/

namespace Lib.Offsets

variable {α β : Type} (size : α → Nat)

/-- The offset at which a list ends. -/
def total (items : List α) : Nat := (items.map size).sum

@[simp] theorem total_nil : total size [] = 0 := rfl

@[simp] theorem total_cons (item : α) (rest : List α) : total size (item :: rest) = size item + total size rest := by
  simp [total]

@[simp] theorem total_append (front back : List α) : total size (front ++ back) = total size front + total size back := by
  simp [total]

/-- An item starts, or the list ends, at the offset. -/
def Cut (items : List α) (offset : Nat) : Prop := ∃ before after, items = before ++ after ∧ total size before = offset

/-- The items from one offset to another. -/
def Slice (items : List α) (start stop : Nat) (part : List α) : Prop :=
  ∃ before after, items = before ++ part ++ after ∧ total size before = start ∧ total size (before ++ part) = stop

section
variable {size} {items part front back : List α} {start mid stop offset : Nat}

theorem Cut.zero (items : List α) : Cut size items 0 := ⟨[],items,rfl,rfl⟩

theorem Cut.end (items : List α) : Cut size items (total size items) := ⟨items,[],by simp,rfl⟩

theorem Cut.le_total (cut : Cut size items offset) : offset ≤ total size items := by
  obtain ⟨before,after,rfl,rfl⟩ := cut
  simp

theorem Slice.front_cut (slice : Slice size items start stop part) : Cut size items start := by
  obtain ⟨before,after,rfl,startIs,-⟩ := slice
  exact ⟨before,part ++ after,by simp,startIs⟩

theorem Slice.back_cut (slice : Slice size items start stop part) : Cut size items stop := by
  obtain ⟨before,after,rfl,-,stopIs⟩ := slice
  exact ⟨before ++ part,after,rfl,stopIs⟩

theorem Slice.total_eq (slice : Slice size items start stop part) : start + total size part = stop := by
  obtain ⟨before,after,rfl,rfl,rfl⟩ := slice
  simp

theorem Slice.whole (items : List α) : Slice size items 0 (total size items) items := ⟨[],[],by simp,rfl,by simp⟩

/-- What a slice is written as is what lies there of what the list is written as. -/
theorem Slice.encoded (slice : Slice size items start stop part) {encode : α → List β}
    (sized : ∀ item, (encode item).length = size item) :
    part.flatMap encode = ((items.flatMap encode).drop start).take (stop - start) := by
  have lengths : ∀ part : List α, (part.flatMap encode).length = total size part := by
    intro part
    rw [List.length_flatMap,total]
    exact congrArg List.sum (List.map_congr_left fun item _ => sized item)
  have parted := slice.total_eq
  obtain ⟨before,after,rfl,startIs,-⟩ := slice
  rw [List.append_assoc,List.flatMap_append,List.flatMap_append,List.drop_left' ((lengths before).trans startIs),
    List.take_left' ((lengths part).trans (by omega))]

end

/-! ### Items of positive size -/

section
variable {size} (positive : ∀ item, 0 < size item) {items part other front back : List α} {start mid stop offset : Nat}
include positive

theorem total_eq_zero : total size part = 0 ↔ part = [] := by
  cases part with
  | nil => simp
  | cons item rest =>
    have := positive item
    simp only [total_cons,reduceCtorEq,iff_false]
    omega

/-- Of two fronts of a list, the one that ends first is a front of the other. -/
theorem front_of_le {front' back' : List α} (same : front ++ back = front' ++ back')
    (before : total size front ≤ total size front') : ∃ between, front' = front ++ between := by
  rcases List.append_eq_append_iff.mp same with ⟨between,later,-⟩ | ⟨between,earlier,-⟩
  · exact ⟨between,later⟩
  · rw [earlier,total_append] at before
    have none' : between = [] := (total_eq_zero positive).mp (by omega)
    exact ⟨[],by simp [earlier,none']⟩

theorem front_unique {front' back' : List α} (same : front ++ back = front' ++ back')
    (sized : total size front = total size front') : front = front' := by
  obtain ⟨between,rfl⟩ := front_of_le positive same sized.le
  rw [total_append] at sized
  have none' : between = [] := (total_eq_zero positive).mp (by omega)
  simp [none']

/-- Between two cuts there is one slice. -/
theorem Cut.slice (first : Cut size items start) (last : Cut size items stop) (ordered : start ≤ stop) :
    ∃ part, Slice size items start stop part := by
  obtain ⟨before,after,rfl,rfl⟩ := first
  obtain ⟨before',after',same,rfl⟩ := last
  obtain ⟨between,rfl⟩ := front_of_le positive same ordered
  exact ⟨between,before,after',same,rfl,rfl⟩

theorem Slice.unique (left : Slice size items start stop part) (right : Slice size items start stop other) :
    part = other := by
  obtain ⟨before,after,rfl,rfl,stopIs⟩ := left
  obtain ⟨before',after',same,startIs,stopIs'⟩ := right
  have whole := front_unique positive same (stopIs.trans stopIs'.symm)
  rw [List.append_assoc,List.append_assoc] at same
  obtain rfl := front_unique positive same startIs.symm
  exact List.append_cancel_left whole

/-- A slice is cut in two at any cut inside it. -/
theorem Slice.split (slice : Slice size items start stop part) (cut : Cut size items mid) (after : start ≤ mid)
    (before : mid ≤ stop) :
    ∃ front back, part = front ++ back ∧ Slice size items start mid front ∧ Slice size items mid stop back := by
  obtain ⟨front,first⟩ := Cut.slice positive slice.front_cut cut after
  obtain ⟨back,last⟩ := Cut.slice positive cut slice.back_cut before
  refine ⟨front,back,?_,first,last⟩
  obtain ⟨head,tail,rfl,rfl,rfl⟩ := first
  obtain ⟨head',tail',same,midIs,rfl⟩ := last
  obtain rfl := front_unique positive (by simpa using same) midIs.symm
  exact Slice.unique positive slice ⟨head,tail',by simpa using same,rfl,by simp⟩

/-- Neighbouring slices are one. -/
theorem Slice.join (first : Slice size items start mid front) (last : Slice size items mid stop back) :
    Slice size items start stop (front ++ back) := by
  obtain ⟨head,tail,rfl,rfl,rfl⟩ := first
  obtain ⟨head',tail',same,midIs,rfl⟩ := last
  obtain rfl := front_unique positive (by simpa using same) midIs.symm
  exact ⟨head,tail',by simpa using same,rfl,by simp⟩

/-- A slice that is not empty starts with an item, and the next cut is where it ends. -/
theorem Slice.next {item : α} {rest : List α} (slice : Slice size items start stop (item :: rest)) :
    IsLeast {cut | Cut size items cut ∧ start < cut} (start + size item) := by
  obtain ⟨before,after,rfl,rfl,-⟩ := slice
  refine ⟨⟨⟨before ++ [item],rest ++ after,by simp,by simp⟩,?_⟩,?_⟩
  · have := positive item
    omega
  · rintro cut ⟨⟨before',after',same,rfl⟩,past⟩
    obtain ⟨between,rfl⟩ := front_of_le positive (by simpa using same) past.le
    cases between with
    | nil => simp at past
    | cons first between =>
      have tails : item :: (rest ++ after) = first :: (between ++ after') := by simpa using same
      simp [(List.cons.inj tails).1]

/-- Before the end there is a next cut. -/
theorem Cut.next (cut : Cut size items start) (inside : start < total size items) :
    ∃ item rest, Slice size items start (total size items) (item :: rest) := by
  obtain ⟨part,slice⟩ := Cut.slice positive cut (Cut.end items) inside.le
  cases part with
  | nil =>
    have := slice.total_eq
    simp at this
    omega
  | cons item rest => exact ⟨item,rest,slice⟩

end

end Lib.Offsets
