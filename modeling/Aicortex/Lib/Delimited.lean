import Mathlib.Data.List.Basic

/-!
Lists joined by a separator. A part without the separator can be read back from the
end it stands at; a part that may hold it can only be read back from the other end.
-/

namespace Lib.Delimited
set_option linter.unusedSimpArgs false

variable {α : Type} {separator : α} {front front' rest rest' : List α}

/-- Two lists with one continuation differ in where they are cut, or not at all. -/
theorem append_eq_append_cases (same : front ++ rest = front' ++ rest') :
    (front = front' ∧ rest = rest') ∨
    (∃ item more, front' = front ++ item :: more ∧ rest = item :: more ++ rest') ∨
    (∃ item more, front = front' ++ item :: more ∧ rest' = item :: more ++ rest) := by
  rcases List.append_eq_append_iff.mp same with ⟨middle,left,right⟩ | ⟨middle,left,right⟩
  · cases middle with
    | nil => exact .inl ⟨by simpa using left.symm,by simpa using right⟩
    | cons item more => exact .inr (.inl ⟨item,more,left,right⟩)
  · cases middle with
    | nil => exact .inl ⟨by simpa using left,by simpa using right.symm⟩
    | cons item more => exact .inr (.inr ⟨item,more,left,right⟩)

/-- The first separator ends a front that holds none. -/
theorem first_eq_iff (apart : separator ∉ front) (apart' : separator ∉ front') :
    front ++ separator :: rest = front' ++ separator :: rest' ↔ front = front' ∧ rest = rest' := by
  constructor
  · intro same
    rcases append_eq_append_cases same with ⟨is,cut⟩ | ⟨item,more,is,cut⟩ | ⟨item,more,is,cut⟩
    · exact ⟨is,(List.cons.inj cut).2⟩
    · obtain rfl : separator = item := (List.cons.inj cut).1
      exact absurd (by simp [is]) apart'
    · obtain rfl : separator = item := (List.cons.inj cut).1
      exact absurd (by simp [is]) apart
  · rintro ⟨rfl,rfl⟩
    rfl

/-- The last separator starts a rest that holds none, whatever stands before it. -/
theorem last_eq_iff (apart : separator ∉ rest) (apart' : separator ∉ rest') :
    front ++ separator :: rest = front' ++ separator :: rest' ↔ front = front' ∧ rest = rest' := by
  rw [← List.reverse_inj]
  simp only [List.reverse_append,List.reverse_cons,List.append_assoc,List.singleton_append]
  rw [first_eq_iff (by simpa using apart) (by simpa using apart'),List.reverse_inj,List.reverse_inj,and_comm]

/-- A part that starts with the separator starts beyond a front that holds none. -/
theorem beyond_front {before : List α} (apart : separator ∉ front) (same : front ++ rest = before ++ separator :: rest') :
    ∃ more, before = front ++ more ∧ rest = more ++ separator :: rest' := by
  rcases append_eq_append_cases same with ⟨is,cut⟩ | ⟨item,more,is,cut⟩ | ⟨item,more,is,cut⟩
  · exact ⟨[],by simp [is],by simpa using cut⟩
  · exact ⟨item :: more,is,cut⟩
  · obtain rfl : separator = item := (List.cons.inj cut).1
    exact absurd (by simp [is]) apart

end Lib.Delimited
