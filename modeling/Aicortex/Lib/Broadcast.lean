import Mathlib.Data.List.Basic
import Mathlib.Data.List.Infix

/-!
A bounded broadcast. The bus holds the latest values, as many as its capacity or more; a
receiver takes them one by one, and one that fell behind what is held is told that it did
and goes on with a value that still is. What it was told is what was sent, with a mark in
place of each run of values that were gone.
-/

namespace Lib.Broadcast

variable {α β : Type}

inductive Received (α : Type) where
  | waits
  | lagged
  | value (value : α)

/-- What a receiver gets at its position among the values sent, and where it goes on. -/
abbrev Receiver (α : Type) := List α → Nat → Received α × Nat

/-- What a bus of a capacity promises of its receivers: the value that is next, or, where
    one lags, a skip of values that each have as many after them as the bus holds. -/
structure Receives (capacity : Nat) (recv : Receiver α) : Prop where
  value : ∀ sent position value next, recv sent position = (.value value,next) →
    sent[position]? = some value ∧ next = position + 1
  lagged : ∀ sent position next, recv sent position = (.lagged,next) → position < next ∧ next + capacity ≤ sent.length

/-- What was sent and concerns a receiver, from where it started to where it is. -/
def heard (concerns : α → Option β) (sent : List α) (start position : Nat) : List β :=
  ((sent.take position).drop start).filterMap concerns

/-- What a receiver was told up to a position: the values that concern it, each in its turn,
    and a mark for each run of values that were gone. -/
inductive Reports (concerns : α → Option β) (capacity : Nat) (sent : List α) (start : Nat) : Nat → List (Option β) → Prop
  | start : Reports concerns capacity sent start start []
  | told {position : Nat} {told : List (Option β)} {value : α} {one : β}
      (reports : Reports concerns capacity sent start position told) (is : sent[position]? = some value)
      (concerned : concerns value = some one) : Reports concerns capacity sent start (position + 1) (told ++ [some one])
  | other {position : Nat} {told : List (Option β)} {value : α}
      (reports : Reports concerns capacity sent start position told) (is : sent[position]? = some value)
      (unconcerned : concerns value = none) : Reports concerns capacity sent start (position + 1) told
  | missed {position next : Nat} {told : List (Option β)} (reports : Reports concerns capacity sent start position told)
      (behind : position < next) (gone : next + capacity ≤ sent.length) :
      Reports concerns capacity sent start next (told ++ [none])

section
variable {concerns : α → Option β} {capacity start position : Nat} {sent later : List α} {told : List (Option β)}

theorem Reports.begun (reports : Reports concerns capacity sent start position told) : start ≤ position := by
  induction reports with
  | start => exact Nat.le_refl _
  | told _ _ _ ih => exact Nat.le_succ_of_le ih
  | other _ _ _ ih => exact Nat.le_succ_of_le ih
  | missed _ behind _ ih => exact ih.trans behind.le

/-- What was told stays so as more is sent. -/
theorem Reports.onward (reports : Reports concerns capacity sent start position told) (onward : sent <+: later) :
    Reports concerns capacity later start position told := by
  have still : ∀ {position : Nat} {value : α}, sent[position]? = some value → later[position]? = some value := by
    rintro position value is
    obtain ⟨rest,rfl⟩ := onward
    rw [List.getElem?_append_left (List.getElem?_eq_some_iff.mp is).1]
    exact is
  induction reports with
  | start => exact .start
  | told _ is concerned ih => exact .told ih (still is) concerned
  | other _ is unconcerned ih => exact .other ih (still is) unconcerned
  | missed _ behind gone ih => exact .missed ih behind (gone.trans onward.length_le)

/-- What was told was sent. -/
theorem Reports.mem (reports : Reports concerns capacity sent start position told) {one : β} (member : some one ∈ told) :
    ∃ value ∈ sent, concerns value = some one := by
  induction reports with
  | start => cases member
  | told _ is concerned ih =>
    rcases List.mem_append.mp member with before | last
    · exact ih before
    · cases List.mem_singleton.mp last
      exact ⟨_,List.mem_of_getElem? is,concerned⟩
  | other _ _ _ ih => exact ih member
  | missed _ _ _ ih =>
    rcases List.mem_append.mp member with before | last
    · exact ih before
    · cases List.mem_singleton.mp last

theorem heard_start (concerns : α → Option β) (sent : List α) (start : Nat) : heard concerns sent start start = [] := by
  have nothing : (sent.take start).drop start = [] := List.drop_eq_nil_of_le (List.length_take_le _ _)
  rw [heard,nothing,List.filterMap_nil]

theorem heard_next (begun : start ≤ position) {value : α} (is : sent[position]? = some value) :
    heard concerns sent start (position + 1) = heard concerns sent start position ++ (concerns value).toList := by
  obtain ⟨within,same⟩ := List.getElem?_eq_some_iff.mp is
  have long : start ≤ (sent.take position).length := by rw [List.length_take]; omega
  rw [heard,List.take_succ_eq_append_getElem within,same,List.drop_append_of_le_length long,List.filterMap_append,heard]
  cases concerned : concerns value <;> simp [concerned]

/-- Without a mark everything that was heard was told. -/
theorem Reports.whole (reports : Reports concerns capacity sent start position told) (unmarked : none ∉ told) :
    told = (heard concerns sent start position).map some := by
  induction reports with
  | start => rw [heard_start,List.map_nil]
  | told reports is concerned ih =>
    rw [heard_next reports.begun is,concerned,List.map_append,← ih fun marked => unmarked (List.mem_append_left _ marked)]
    rfl
  | other reports is unconcerned ih =>
    rw [heard_next reports.begun is,unconcerned,List.map_append,← ih unmarked]
    simp
  | missed _ _ _ _ => exact absurd (List.mem_append_right _ (List.mem_singleton_self _)) unmarked

end

end Lib.Broadcast
