import Mathlib.Algebra.Order.Group.Nat
import Mathlib.Data.List.Induction

/-!
Decimal digits. A digit list spells a number, and a number has a spelling at every
width it fits: the shortest one, filled with zeros on the left. Read at its own width
a digit list is that spelling of its value, so the two are inverse.
-/

namespace Lib.Digits

/-- The number a digit list spells. -/
def value (chars : List Char) : Nat := Nat.ofDigitChars 10 chars 0

/-- The shortest spelling, filled with zeros on the left to a width. -/
def padded (width number : Nat) : List Char :=
  List.replicate (width - (Nat.toDigits 10 number).length) '0' ++ Nat.toDigits 10 number

variable {c : Char} {chars : List Char} {width number : Nat}

private theorem digit_code (digit : c.isDigit = true) : 48 ≤ c.toNat ∧ c.toNat ≤ 57 := by
  simp only [Char.isDigit,Bool.and_eq_true,decide_eq_true_eq,ge_iff_le,UInt32.le_iff_toNat_le] at digit
  exact digit

/-- A digit is the spelling of its value. -/
theorem digitChar_digit (digit : c.isDigit = true) : Nat.digitChar (c.toNat - 48) = c := by
  obtain ⟨low,high⟩ := digit_code digit
  apply Char.toNat_inj.mp
  rw [Nat.toNat_digitChar_of_lt_ten (by omega)]
  omega

theorem value_nil : value [] = 0 := rfl

theorem value_concat (front : List Char) (last : Char) : value (front ++ [last]) = 10 * value front + (last.toNat - 48) := by
  simp [value,Nat.ofDigitChars_append,Nat.ofDigitChars_cons]

theorem value_zero_cons (rest : List Char) : value ('0' :: rest) = value rest := by
  simp [value,Nat.ofDigitChars_cons]

theorem value_padded (width number : Nat) : value (padded width number) = number := by
  simp [value,padded,Nat.ofDigitChars_append,Nat.ofDigitChars_ten_toDigits]

/-- A digit list spells a number below the power of ten of its length. -/
theorem value_lt (digits : ∀ c ∈ chars, c.isDigit = true) : value chars < 10 ^ chars.length := by
  induction chars using List.reverseRecOn with
  | nil => simp [value_nil]
  | append_singleton front last ih =>
    have before := ih (fun c within => digits c (by simp [within]))
    have := digit_code (digits last (by simp))
    rw [value_concat,List.length_append,List.length_singleton,Nat.pow_succ]
    omega

theorem padded_digits (width number : Nat) : ∀ c ∈ padded width number, c.isDigit = true := by
  intro c within
  rcases List.mem_append.mp within with filled | spelled
  · rw [List.eq_of_mem_replicate filled]
    decide
  · exact Nat.isDigit_of_mem_toDigits (by omega) (by omega) spelled

/-- A number that fits a width is spelled at exactly that width. -/
theorem padded_length (wide : 0 < width) (fits : number < 10 ^ width) : (padded width number).length = width := by
  have short := (Nat.length_toDigits_le_iff (by omega : 1 < 10) wide).mpr fits
  simp only [padded,List.length_append,List.length_replicate]
  omega

theorem padded_ne_nil (width number : Nat) : padded width number ≠ [] := by
  simp [padded,Nat.toDigits_ne_nil]

/-- A number at least as long as the width is spelled without filling. -/
theorem padded_long (long : width ≤ (Nat.toDigits 10 number).length) : padded width number = Nat.toDigits 10 number := by
  simp [padded,Nat.sub_eq_zero_of_le long]

/-- One more place than a number needs is one more zero. -/
theorem padded_succ (fits : (Nat.toDigits 10 number).length ≤ width) :
    padded (width + 1) number = '0' :: padded width number := by
  rw [padded,padded,Nat.succ_sub fits,List.replicate_succ,List.cons_append]

/-- Digits that do not start with a zero are the shortest spelling of their value. -/
theorem toDigits_value (digits : ∀ c ∈ chars, c.isDigit = true) (nonempty : chars ≠ [])
    (leading : chars.head? ≠ some '0') : Nat.toDigits 10 (value chars) = chars := by
  induction chars using List.reverseRecOn with
  | nil => exact absurd rfl nonempty
  | append_singleton front last ih =>
    have isDigit := digits last (by simp)
    have := digit_code isDigit
    rw [value_concat]
    by_cases alone : front = []
    · subst alone
      rw [value_nil,Nat.mul_zero,Nat.zero_add,Nat.toDigits_of_lt_base (by omega),digitChar_digit isDigit]
      rfl
    · have front_spelled := ih (fun c within => digits c (by simp [within])) alone
        (by obtain ⟨head,tail,rfl⟩ := List.exists_cons_of_ne_nil alone; simpa using leading)
      have positive : 0 < value front := by
        refine Nat.pos_of_ne_zero fun zero => ?_
        rw [zero,Nat.toDigits_zero] at front_spelled
        simp [← front_spelled] at leading
      rw [← Nat.toDigits_append_toDigits (by omega) positive (by omega),front_spelled,
        Nat.toDigits_of_lt_base (by omega),digitChar_digit isDigit]

/-- Read at its own width a digit list is the spelling of its value. -/
theorem padded_value (digits : ∀ c ∈ chars, c.isDigit = true) (nonempty : chars ≠ []) :
    padded chars.length (value chars) = chars := by
  induction chars with
  | nil => exact absurd rfl nonempty
  | cons first rest ih =>
    by_cases zero : first = '0'
    · subst zero
      cases rest with
      | nil => decide
      | cons second others =>
        have tail := ih (fun c within => digits c (by simp [within])) (by simp)
        have below : value (second :: others) < 10 ^ (second :: others).length :=
          value_lt (fun c within => digits c (List.mem_cons_of_mem _ within))
        have short := (Nat.length_toDigits_le_iff (by omega : 1 < 10) (by simp)).mpr below
        rw [value_zero_cons,List.length_cons,padded_succ short,tail]
    · have spelled := toDigits_value digits nonempty (by simpa using zero)
      rw [padded_long (spelled.symm ▸ Nat.le_refl _),spelled]

/-- The shortest spelling of a positive number does not start with a zero. -/
theorem toDigits_leading (positive : 0 < number) : (Nat.toDigits 10 number).head? ≠ some '0' := by
  induction number using Nat.strongRecOn with
  | ind number ih =>
    by_cases small : number < 10
    · have nonzero : ∀ digit < 10, 0 < digit → Nat.digitChar digit ≠ '0' := by decide
      rw [Nat.toDigits_of_lt_base small]
      simpa using nonzero number small positive
    · have front := ih (number / 10) (by omega) (by omega)
      obtain ⟨head,tail,spelling⟩ := List.exists_cons_of_ne_nil (@Nat.toDigits_ne_nil (number / 10) 10)
      rw [Nat.toDigits_of_base_le (by omega) (by omega)]
      rw [spelling] at front ⊢
      simpa using front

/-! ### A point among the digits -/

/-- The digits of a number, at least one of them before a point that has `scale` after it. -/
def pointed (scale number : Nat) : List Char × List Char :=
  let chars := padded (scale + 1) number
  (chars.take (chars.length - scale),chars.drop (chars.length - scale))

variable {scale : Nat} {whole fraction : List Char}

theorem pointed_digits (scale number : Nat) :
    (∀ c ∈ (pointed scale number).1, c.isDigit = true) ∧ ∀ c ∈ (pointed scale number).2, c.isDigit = true :=
  ⟨fun c within => padded_digits _ _ c (List.mem_of_mem_take within),
    fun c within => padded_digits _ _ c (List.mem_of_mem_drop within)⟩

theorem pointed_append (scale number : Nat) :
    (pointed scale number).1 ++ (pointed scale number).2 = padded (scale + 1) number :=
  List.take_append_drop _ _

private theorem padded_room (scale number : Nat) : scale + 1 ≤ (padded (scale + 1) number).length := by
  simp only [padded,List.length_append,List.length_replicate]
  omega

theorem pointed_scale (scale number : Nat) : (pointed scale number).2.length = scale := by
  have room := padded_room scale number
  simp only [pointed,List.length_drop]
  omega

theorem pointed_whole (scale number : Nat) : (pointed scale number).1 ≠ [] := by
  have room := padded_room scale number
  refine List.ne_nil_of_length_pos ?_
  simp only [pointed,List.length_take]
  omega

/-- Before the point there is one digit or a number without a leading zero. -/
theorem pointed_leading (long : 1 < (pointed scale number).1.length) : (pointed scale number).1.head? ≠ some '0' := by
  have wide : scale + 1 < (Nat.toDigits 10 number).length := by
    simp only [pointed,List.length_take,padded,List.length_append,List.length_replicate] at long
    omega
  have positive : 0 < number := by
    refine Nat.pos_of_ne_zero fun zero => ?_
    simp [zero,Nat.toDigits_zero] at wide
  have leading := toDigits_leading positive
  rw [← padded_long (Nat.le_of_lt wide),← pointed_append scale number] at leading
  obtain ⟨head,tail,split⟩ := List.exists_cons_of_ne_nil (pointed_whole scale number)
  simpa [split] using leading

/-- Canonical digits around a point are the digits of the number they spell. -/
theorem pointed_value (wholeDigits : ∀ c ∈ whole, c.isDigit = true) (fractionDigits : ∀ c ∈ fraction, c.isDigit = true)
    (nonempty : whole ≠ []) (leading : 1 < whole.length → whole.head? ≠ some '0') :
    pointed fraction.length (value (whole ++ fraction)) = (whole,fraction) := by
  have digits : ∀ c ∈ whole ++ fraction, c.isDigit = true := fun c within =>
    (List.mem_append.mp within).elim (wholeDigits c) (fractionDigits c)
  have positive := List.length_pos_iff.mpr nonempty
  have spelled : padded (fraction.length + 1) (value (whole ++ fraction)) = whole ++ fraction := by
    by_cases one : whole.length = 1
    · have width : (whole ++ fraction).length = fraction.length + 1 := by rw [List.length_append]; omega
      rw [← width]
      exact padded_value digits (by simp [nonempty])
    · have head : (whole ++ fraction).head? ≠ some '0' := by
        obtain ⟨first,rest,rfl⟩ := List.exists_cons_of_ne_nil nonempty
        simpa using leading (by omega)
      have shortest := toDigits_value digits (by simp [nonempty]) head
      rw [padded_long (by rw [shortest,List.length_append]; omega),shortest]
  simp [pointed,spelled]

end Lib.Digits
