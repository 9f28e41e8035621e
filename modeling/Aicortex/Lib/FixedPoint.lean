import Mathlib.Algebra.Order.Floor.Semifield
import Mathlib.Algebra.Order.Field.Power
import Mathlib.Data.Rat.Floor
import Mathlib.Tactic.FieldSimp
import Mathlib.Tactic.Linarith
import Mathlib.Tactic.Positivity
import Mathlib.Tactic.Ring

/-!
Floating-point words as exact numbers, and numbers cut down to fixed point. A word of a
binary format is a sign, an exponent and a fraction; a number cut to some fractional bits
is the floor of its multiple. Squares of cut numbers add up to less than the squares of
the numbers themselves, by an amount that counts only the numbers that were not whole.
-/

namespace Lib.FixedPoint
set_option linter.unusedSectionVars false

/-- The widths of the fraction and exponent fields of a binary format. -/
structure Format where
  fractionBits : Nat
  exponentBits : Nat
  deriving Repr, DecidableEq

namespace Format
variable (format : Format) (word : Nat)

def bias : Nat := 2 ^ (format.exponentBits - 1) - 1

def fraction : Nat := word % 2 ^ format.fractionBits

def exponent : Nat := word / 2 ^ format.fractionBits % 2 ^ format.exponentBits

def negative : Bool := word / 2 ^ (format.fractionBits + format.exponentBits) % 2 == 1

/-- The fraction with the bit that is not written. -/
def significand : Nat :=
  if format.exponent word = 0 then format.fraction word else 2 ^ format.fractionBits + format.fraction word

/-- The power of two the significand is scaled by. The subnormals have that of the least normals. -/
def scale : Int := (max (format.exponent word) 1 : Nat) - (format.bias + format.fractionBits : Nat)

/-- The number without its sign. -/
def magnitude : ℚ := format.significand word * (2 : ℚ) ^ format.scale word

/-- The number a finite word stands for. -/
def value : ℚ := if format.negative word then -format.magnitude word else format.magnitude word

theorem magnitude_nonneg : 0 ≤ format.magnitude word := by
  unfold magnitude
  positivity

theorem value_sq : format.value word ^ 2 = format.magnitude word ^ 2 := by
  unfold value
  split_ifs
  · exact neg_sq _
  · rfl

theorem fraction_lt : format.fraction word < 2 ^ format.fractionBits := Nat.mod_lt _ (Nat.two_pow_pos _)

theorem significand_lt : format.significand word < 2 ^ (format.fractionBits + 1) := by
  have within := format.fraction_lt word
  unfold significand
  rw [pow_succ]
  split_ifs <;> omega

/-- A word whose exponent is no more than a bound stands for less than the next power of two. -/
theorem magnitude_lt {bound : Nat} (low : format.exponent word ≤ bound) (positive : 1 ≤ bound) :
    format.magnitude word < (2 : ℚ) ^ ((bound : Int) + 1 - format.bias) := by
  have narrow : (format.significand word : ℚ) < 2 ^ (format.fractionBits + 1) := by
    exact_mod_cast format.significand_lt word
  have scaled : format.scale word ≤ (bound : Int) - (format.bias + format.fractionBits : Nat) := by
    unfold scale
    omega
  calc
    _ < (2 : ℚ) ^ (format.fractionBits + 1) * (2 : ℚ) ^ format.scale word :=
      mul_lt_mul_of_pos_right narrow (by positivity)
    _ ≤ (2 : ℚ) ^ (format.fractionBits + 1) * (2 : ℚ) ^ ((bound : Int) - (format.bias + format.fractionBits : Nat)) :=
      mul_le_mul_of_nonneg_left (zpow_le_zpow_right₀ one_le_two scaled) (by positivity)
    _ = _ := by
      rw [← zpow_natCast,← zpow_add₀ two_ne_zero]
      congr 1
      push_cast
      ring

/-- A normal word stands for at least the power of two of its exponent. -/
theorem le_magnitude {bound : Nat} (high : bound ≤ format.exponent word) (positive : 1 ≤ bound) :
    (2 : ℚ) ^ ((bound : Int) - format.bias) ≤ format.magnitude word := by
  have normal : (2 : ℚ) ^ format.fractionBits ≤ format.significand word := by
    rw [significand,if_neg (by omega)]
    push_cast
    exact le_add_of_nonneg_right (Nat.cast_nonneg _)
  have scaled : (bound : Int) - (format.bias + format.fractionBits : Nat) ≤ format.scale word := by
    unfold scale
    omega
  calc
    _ = (2 : ℚ) ^ format.fractionBits * (2 : ℚ) ^ ((bound : Int) - (format.bias + format.fractionBits : Nat)) := by
      rw [← zpow_natCast,← zpow_add₀ two_ne_zero]
      congr 1
      push_cast
      ring
    _ ≤ (2 : ℚ) ^ format.fractionBits * (2 : ℚ) ^ format.scale word :=
      mul_le_mul_of_nonneg_left (zpow_le_zpow_right₀ one_le_two scaled) (by positivity)
    _ ≤ _ := mul_le_mul_of_nonneg_right normal (by positivity)

end Format

/-! ### Numbers cut to fixed point -/

section
variable {K : Type*} [Field K] [LinearOrder K] [IsStrictOrderedRing K] [FloorSemiring K] (bits : Nat) {x : K} {xs : List K}

/-- A number as a whole multiple of the last fractional bit, the rest cut off. -/
def cut (x : K) : Nat := ⌊x * 2 ^ bits⌋₊

theorem cut_le (nonneg : 0 ≤ x) : (cut bits x : K) ≤ x * 2 ^ bits := Nat.floor_le (by positivity)

theorem lt_cut_add_one (x : K) : x * 2 ^ bits < cut bits x + 1 := Nat.lt_floor_add_one _

variable {bits} in
theorem cut_whole {n : Nat} (whole : x * 2 ^ bits = n) : cut bits x = n := by rw [cut,whole,Nat.floor_natCast]

variable {bits} in
/-- A ratio to a power of two is cut by a shift. -/
theorem cut_ratio {n shift : Nat} (ratio : x * 2 ^ bits * 2 ^ shift = n) : cut bits x = n / 2 ^ shift := by
  have divided : x * 2 ^ bits = (n : K) / ((2 ^ shift : Nat) : K) := by
    rw [eq_div_iff (by positivity),← ratio]
    push_cast
    rfl
  rw [cut,divided,Nat.floor_div_natCast,Nat.floor_natCast]

def squares (xs : List K) : K := (xs.map (· ^ 2)).sum

def cutSquares (xs : List K) : Nat := (xs.map (fun x => cut bits x ^ 2)).sum

@[simp] theorem squares_nil : squares ([] : List K) = 0 := rfl

@[simp] theorem squares_cons : squares (x :: xs) = x ^ 2 + squares xs := by simp [squares]

@[simp] theorem cutSquares_nil : cutSquares bits ([] : List K) = 0 := rfl

@[simp] theorem cutSquares_cons : cutSquares bits (x :: xs) = cut bits x ^ 2 + cutSquares bits xs := by simp [cutSquares]

theorem scaled_sq (x : K) : (x * 2 ^ bits) ^ 2 = x ^ 2 * 4 ^ bits := by
  rw [mul_pow,← pow_mul,mul_comm bits 2,pow_mul]
  norm_num

theorem cut_sq_le (nonneg : 0 ≤ x) : (cut bits x : K) ^ 2 ≤ x ^ 2 * 4 ^ bits := by
  calc
    (cut bits x : K) ^ 2 ≤ (x * 2 ^ bits) ^ 2 := pow_le_pow_left₀ (Nat.cast_nonneg _) (cut_le bits nonneg) 2
    _ = x ^ 2 * 4 ^ bits := scaled_sq bits x

/-- The square of a number that is not far from zero loses little. -/
theorem sq_le_cut {bound : K} (nonneg : 0 ≤ x) (near : x * 2 ^ bits ≤ bound) :
    x ^ 2 * 4 ^ bits ≤ (cut bits x : K) ^ 2 + 2 * bound := by
  have below := cut_le bits nonneg
  have above := lt_cut_add_one bits x
  have lost : (x * 2 ^ bits - cut bits x) * (x * 2 ^ bits + cut bits x) ≤ 1 * (2 * bound) :=
    mul_le_mul (by linarith) (by linarith) (by positivity) zero_le_one
  rw [← scaled_sq]
  linarith [lost,sq_sub_sq (x * 2 ^ bits) (cut bits x : K),mul_comm (x * 2 ^ bits - cut bits x) (x * 2 ^ bits + cut bits x)]

theorem cutSquares_le (nonneg : ∀ x ∈ xs, 0 ≤ x) : (cutSquares bits xs : K) ≤ squares xs * 4 ^ bits := by
  induction xs with
  | nil => simp
  | cons x xs ih =>
    have rest := ih fun y member => nonneg y (List.mem_cons_of_mem _ member)
    have first := cut_sq_le bits (nonneg x List.mem_cons_self)
    rw [cutSquares_cons,squares_cons,add_mul]
    push_cast
    exact add_le_add first rest

/-- What cutting takes from a sum of squares is at most so much for each number, where
    every number is whole already or small. -/
theorem squares_le (bound : K) (positive : 0 ≤ bound) (nonneg : ∀ x ∈ xs, 0 ≤ x)
    (fine : ∀ x ∈ xs, (∃ n : Nat, x * 2 ^ bits = n) ∨ x * 2 ^ bits ≤ bound) :
    squares xs * 4 ^ bits ≤ cutSquares bits xs + xs.length * (2 * bound) := by
  induction xs with
  | nil => simp
  | cons x xs ih =>
    have rest := ih (fun y member => nonneg y (List.mem_cons_of_mem _ member))
      fun y member => fine y (List.mem_cons_of_mem _ member)
    have first : x ^ 2 * 4 ^ bits ≤ (cut bits x : K) ^ 2 + 2 * bound := by
      rcases fine x List.mem_cons_self with ⟨n,whole⟩ | near
      · have exact' : x ^ 2 * 4 ^ bits = (cut bits x : K) ^ 2 := by
          rw [cut_whole whole,← whole,scaled_sq]
        linarith
      · exact sq_le_cut bits (nonneg x List.mem_cons_self) near
    rw [cutSquares_cons,squares_cons,add_mul,List.length_cons]
    push_cast
    linarith

end

/-! ### Words cut to fixed point -/

namespace Format
variable (format : Format) {word bits : Nat}

/-- Where the scale leaves no fraction beyond the kept bits, the number is whole. -/
theorem magnitude_whole (kept : format.bias + format.fractionBits ≤ max (format.exponent word) 1 + bits) :
    format.magnitude word * 2 ^ bits =
      (format.significand word * 2 ^ (max (format.exponent word) 1 + bits - (format.bias + format.fractionBits)) : Nat) := by
  push_cast
  rw [magnitude,mul_assoc,← zpow_natCast,← zpow_natCast,← zpow_add₀ two_ne_zero]
  congr 2
  unfold scale
  omega

/-- Elsewhere the significand is shifted down. -/
theorem cut_magnitude (beyond : max (format.exponent word) 1 + bits ≤ format.bias + format.fractionBits) :
    cut bits (format.magnitude word) =
      format.significand word / 2 ^ (format.bias + format.fractionBits - (max (format.exponent word) 1 + bits)) := by
  refine cut_ratio ?_
  rw [magnitude,mul_assoc,mul_assoc,← zpow_natCast,← zpow_natCast,← zpow_add₀ two_ne_zero,← zpow_add₀ two_ne_zero]
  have whole : format.scale word + ((bits : Int) +
      (format.bias + format.fractionBits - (max (format.exponent word) 1 + bits) : Nat)) = 0 := by
    unfold scale
    omega
  rw [whole,zpow_zero,mul_one]

end Format

end Lib.FixedPoint
