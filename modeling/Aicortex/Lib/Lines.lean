import Mathlib.Data.List.DropRight
import Mathlib.Data.List.Induction

/-!
Lists cut into lines at a separator. Tidying takes the blanks off the end of every
line, and then off the end of what is left; a list that has been tidied is tidy.
-/

namespace Lib.Lines
set_option linter.unusedSimpArgs false

variable {α : Type} {blank : α → Bool} {separator : α}

/-- Every line without the blanks at its end, and none at the end of them all. -/
def tidy [BEq α] (blank : α → Bool) (separator : α) (text : List α) : List α :=
  ([separator].intercalate ((text.splitOn separator).map (List.rdropWhile blank))).rdropWhile blank

/-! ### What holds no separator and ends in no blank -/

/-- A line as tidying leaves it. -/
structure Trimmed (blank : α → Bool) (separator : α) (line : List α) : Prop where
  apart : separator ∉ line
  ended : line.rdropWhile blank = line

theorem Trimmed.of_line {line : List α} (apart : separator ∉ line) : Trimmed blank separator (line.rdropWhile blank) :=
  ⟨fun within => apart ((List.rdropWhile_prefix blank line).subset within),List.rdropWhile_idempotent blank line⟩

theorem intercalate_concat {lines : List (List α)} (some' : lines ≠ []) (line : List α) :
    [separator].intercalate (lines ++ [line]) = [separator].intercalate lines ++ separator :: line := by
  induction lines with
  | nil => exact absurd rfl some'
  | cons first rest ih =>
    cases rest with
    | nil => simp [List.intercalate_cons_cons]
    | cons second others =>
      have later := ih (List.cons_ne_nil _ _)
      rw [List.cons_append,List.cons_append,List.intercalate_cons_cons,← List.cons_append,later,
        List.intercalate_cons_cons]
      simp

/-- Trimming the end of joined trimmed lines leaves off the empty ones at the end. -/
theorem rdropWhile_intercalate (blankSeparator : blank separator = true) {lines : List (List α)} (some' : lines ≠ [])
    (trimmed : ∀ line ∈ lines, Trimmed blank separator line) :
    ∃ kept, kept ≠ [] ∧ (∀ line ∈ kept, Trimmed blank separator line) ∧
      ([separator].intercalate lines).rdropWhile blank = [separator].intercalate kept := by
  induction lines using List.reverseRecOn with
  | nil => exact absurd rfl some'
  | append_singleton front line ih =>
    have lineTrimmed := trimmed line (List.mem_append_right _ (List.mem_singleton_self _))
    by_cases alone : front = []
    · subst alone
      exact ⟨[line],List.cons_ne_nil _ _,by simpa using lineTrimmed,by simpa using lineTrimmed.ended⟩
    · by_cases empty : line = []
      · subst empty
        obtain ⟨kept,keptSome,keptTrimmed,same⟩ := ih alone (fun line member => trimmed line (List.mem_append_left _ member))
        refine ⟨kept,keptSome,keptTrimmed,?_⟩
        rw [intercalate_concat alone,List.rdropWhile_concat_pos _ _ _ blankSeparator,same]
      · refine ⟨front ++ [line],by simp,trimmed,?_⟩
        rw [intercalate_concat alone,List.rdropWhile_eq_self_iff]
        intro nonempty
        have last := List.rdropWhile_eq_self_iff.mp lineTrimmed.ended empty
        simpa [List.getLast_append,List.getLast_cons empty] using last

section
variable [BEq α] [LawfulBEq α]

theorem not_mem_of_mem_splitOn {text line : List α} (isLine : line ∈ text.splitOn separator) : separator ∉ line := by
  induction text generalizing line with
  | nil =>
    obtain rfl : line = [] := by simpa using isLine
    exact List.not_mem_nil
  | cons item rest ih =>
    obtain ⟨first,others,split⟩ := List.exists_cons_of_ne_nil (List.splitOn_ne_nil separator rest)
    rw [List.splitOn_cons_eq_if_modifyHead] at isLine
    rw [split] at ih isLine
    split_ifs at isLine with ends
    · rcases List.mem_cons.mp isLine with rfl | later
      · exact List.not_mem_nil
      · exact ih later
    · rcases List.mem_cons.mp isLine with rfl | later
      · intro within
        rcases List.mem_cons.mp within with rfl | inside
        · exact ends (beq_self_eq_true _)
        · exact ih (List.mem_cons_self) inside
      · exact ih (List.mem_cons_of_mem _ later)

theorem tidy_tidy (blankSeparator : blank separator = true) (text : List α) :
    tidy blank separator (tidy blank separator text) = tidy blank separator text := by
  have trimmed : ∀ line ∈ (text.splitOn separator).map (List.rdropWhile blank), Trimmed blank separator line := by
    intro line member
    obtain ⟨cut,isLine,rfl⟩ := List.mem_map.mp member
    exact Trimmed.of_line (not_mem_of_mem_splitOn isLine)
  obtain ⟨kept,keptSome,keptTrimmed,is⟩ := rdropWhile_intercalate blankSeparator
    (by simp [List.splitOn_ne_nil]) trimmed
  have linesAgain : (([separator].intercalate kept).splitOn separator).map (List.rdropWhile blank) = kept := by
    rw [List.splitOn_intercalate separator (fun line member => (keptTrimmed line member).apart) keptSome]
    exact (List.map_congr_left (fun line member => (keptTrimmed line member).ended)).trans (List.map_id _)
  have ended : ([separator].intercalate kept).rdropWhile blank = [separator].intercalate kept := by
    rw [← is,List.rdropWhile_idempotent]
  unfold tidy
  rw [is,linesAgain,ended]

/-! ### What tidying keeps -/

/-- Tidying only ever cuts blanks that stand before a separator or at the end. -/
theorem tidy_keeps {P : List α → Prop}
    (cut : ∀ front blanks back, (∀ item ∈ blanks, blank item = true) → (back = [] ∨ back.head? = some separator) →
      P (front ++ blanks ++ back) → P (front ++ back))
    {text : List α} (held : P text) : P (tidy blank separator text) := by
  have trimEnd : ∀ {front line back : List α}, (back = [] ∨ back.head? = some separator) →
      P (front ++ line ++ back) → P (front ++ line.rdropWhile blank ++ back) := by
    intro front line back ends before
    rw [← List.rdropWhile_append_rtakeWhile (p := blank) (l := line)] at before
    refine cut _ (line.rtakeWhile blank) _ (fun item member => List.mem_rtakeWhile_imp member) ends ?_
    simpa using before
  have lines : ∀ (lines : List (List α)) (front : List α), P (front ++ [separator].intercalate lines) →
      P (front ++ [separator].intercalate (lines.map (List.rdropWhile blank))) := by
    intro lines
    induction lines with
    | nil => exact fun _ held => held
    | cons line rest ih =>
      intro front before
      cases rest with
      | nil => simpa using trimEnd (.inl rfl) (by simpa using before)
      | cons second others =>
        rw [List.intercalate_cons_cons] at before
        have trimmed := @trimEnd front line (separator :: [separator].intercalate (second :: others)) (.inr rfl)
          (by simpa using before)
        have later := ih (front ++ line.rdropWhile blank ++ [separator]) (by simpa using trimmed)
        rw [List.map_cons,List.map_cons,List.intercalate_cons_cons]
        simpa using later
  have trimmed := lines (text.splitOn separator) [] (by simpa using held)
  simpa [tidy] using @trimEnd [] _ [] (.inl rfl) (by simpa using trimmed)

theorem mem_tidy {text : List α} {item : α} (member : item ∈ tidy blank separator text) : item ∈ text := by
  refine tidy_keeps (P := fun tidied => ∀ item ∈ tidied, item ∈ text) ?_ (fun _ member => member) item member
  intro front blanks back _ _ within item kept
  refine within item ?_
  rcases List.mem_append.mp kept with early | late
  · exact List.mem_append_left _ (List.mem_append_left _ early)
  · exact List.mem_append_right _ late

end

end Lib.Lines
