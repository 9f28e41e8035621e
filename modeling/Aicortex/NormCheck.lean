import Aicortex.Provider
import Aicortex.Lib.FixedPoint

/-!
What the check of a unit length decides. Each value is read exactly as the number its
bits stand for; the check adds up the squares of the values cut to 48 fractional bits,
and nothing it overflows or returns early on is near the bounds.
-/

namespace Aicortex.Provider
open Lib.FixedPoint
set_option linter.unusedSimpArgs false

def binary32 : Format := ⟨23,8⟩

/-- The number a finite float stands for. -/
def valueOf (word : UInt32) : ℚ := binary32.value word.toNat

/-- The exact squared length. -/
def squaredNorm (vector : Vector) : ℚ := squares (vector.values.map valueOf)

/-- The values without their signs. -/
def magnitudes (words : List UInt32) : List ℚ := words.map (fun word => binary32.magnitude word.toNat)

/-! ### One value -/

/-- What the scale of a significand takes from the exponent. -/
theorem offset_eq : binary32.bias + binary32.fractionBits = 150 := rfl

theorem exponent_eq (word : UInt32) : exponent word = binary32.exponent word.toNat := by
  simp only [exponent,magnitude,Format.exponent,binary32]
  omega

theorem significand_eq (word : UInt32) :
    (if exponent word = 0 then magnitude word % 2 ^ fractionBits else 2 ^ fractionBits + magnitude word % 2 ^ fractionBits) =
      binary32.significand word.toNat := by
  have fraction : magnitude word % 2 ^ fractionBits = binary32.fraction word.toNat := by
    simp only [magnitude,fractionBits,Format.fraction,binary32]
    omega
  rw [Format.significand,← exponent_eq,fraction]
  rfl

/-- The fixed-point form is the magnitude with what lies below 48 bits cut off. -/
theorem fixedPoint_eq {word : UInt32} (small : exponent word < 128) :
    fixedPoint word = cut qBits (binary32.magnitude word.toNat) := by
  have narrow : binary32.significand word.toNat < 2 ^ 24 := Format.significand_lt binary32 word.toNat
  simp only [fixedPoint,significand_eq]
  split_ifs with whole
  · have kept : binary32.bias + binary32.fractionBits ≤ max (binary32.exponent word.toNat) 1 + qBits := by
      rw [offset_eq,← exponent_eq,qBits]
      omega
    have shift : max (binary32.exponent word.toNat) 1 + qBits - (binary32.bias + binary32.fractionBits) = exponent word - 102 := by
      rw [offset_eq,← exponent_eq,qBits]
      omega
    rw [cut_whole (Format.magnitude_whole binary32 kept),shift]
    refine Nat.mod_eq_of_lt ?_
    calc
      _ < 2 ^ 24 * 2 ^ (exponent word - 102) := Nat.mul_lt_mul_of_pos_right narrow (Nat.two_pow_pos _)
      _ ≤ 2 ^ 24 * 2 ^ 25 := Nat.mul_le_mul_left _ (Nat.pow_le_pow_right two_pos (by omega))
      _ ≤ 2 ^ 128 := by norm_num
  · have beyond : max (binary32.exponent word.toNat) 1 + qBits ≤ binary32.bias + binary32.fractionBits := by
      rw [offset_eq,← exponent_eq,qBits]
      omega
    rw [Format.cut_magnitude binary32 beyond,offset_eq,← exponent_eq,qBits]
    by_cases subnormal : exponent word = 0
    · -- A subnormal is shifted by one place more than its scale, out of either range.
      rw [subnormal,Nat.div_eq_of_lt,Nat.div_eq_of_lt]
      · exact narrow.trans_le (Nat.pow_le_pow_right two_pos (by omega))
      · exact narrow.trans_le (Nat.pow_le_pow_right two_pos (by omega))
    · congr 2
      omega

/-- A value that ends the sum at once is two or more. -/
theorem large_value {word : UInt32} (large : 128 ≤ exponent word) :
    2 ^ 98 ≤ cut qBits (binary32.magnitude word.toNat) ^ 2 := by
  rw [exponent_eq] at large
  have two := Format.le_magnitude binary32 word.toNat large (by decide)
  have wide : (2 ^ 49 : Nat) ≤ cut qBits (binary32.magnitude word.toNat) := by
    refine Nat.le_floor ?_
    have bias : ((128 : Nat) : Int) - binary32.bias = 1 := rfl
    rw [bias,zpow_one] at two
    push_cast
    rw [qBits]
    linarith
  calc
    2 ^ 98 = (2 ^ 49) ^ 2 := by norm_num
    _ ≤ _ := Nat.pow_le_pow_left wide 2

/-- What is lost of one value: nothing, or less than a bit of a number below a small bound. -/
theorem fine_value (word : UInt32) : (∃ n : Nat, binary32.magnitude word.toNat * 2 ^ qBits = n) ∨
    binary32.magnitude word.toNat * 2 ^ qBits ≤ 2 ^ 23 := by
  by_cases whole : 102 ≤ exponent word
  · refine .inl ⟨_,Format.magnitude_whole binary32 ?_⟩
    rw [offset_eq,← exponent_eq,qBits]
    omega
  · have low : binary32.exponent word.toNat ≤ 101 := by
      rw [← exponent_eq]
      omega
    have below := Format.magnitude_lt binary32 word.toNat low (by decide)
    have bias : ((101 : Nat) : Int) + 1 - binary32.bias = -25 := rfl
    rw [bias] at below
    right
    calc
      _ ≤ (2 : ℚ) ^ (-25 : Int) * 2 ^ qBits := mul_le_mul_of_nonneg_right below.le (by positivity)
      _ = 2 ^ 23 := by norm_num [qBits,zpow_neg]

/-! ### The sum -/

theorem checked_cases (value : Nat) : checked value = some value ∨ (checked value = none ∧ 2 ^ 128 ≤ value) := by
  unfold checked
  split_ifs with fits
  · exact .inl rfl
  · exact .inr ⟨rfl,not_lt.mp fits⟩

/-- One turn adds the square of the cut value, or stops at a sum far past the bounds. -/
theorem addSquare_cases (sum : Nat) (word : UInt32) :
    addSquare sum word = some (sum + cut qBits (binary32.magnitude word.toNat) ^ 2) ∨
      (addSquare sum word = none ∧ 2 ^ 98 ≤ sum + cut qBits (binary32.magnitude word.toNat) ^ 2) := by
  unfold addSquare
  split_ifs with large
  · exact .inr ⟨rfl,(large_value large).trans (Nat.le_add_left _ _)⟩
  · rw [fixedPoint_eq (not_le.mp large),← pow_two]
    rcases checked_cases (cut qBits (binary32.magnitude word.toNat) ^ 2) with square | ⟨square,beyond⟩
    · rw [square,Option.bind_eq_bind,Option.bind_some]
      rcases checked_cases (sum + cut qBits (binary32.magnitude word.toNat) ^ 2) with total | ⟨total,beyond⟩
      · exact .inl total
      · exact .inr ⟨total,le_trans (by norm_num) beyond⟩
    · rw [square]
      exact .inr ⟨rfl,le_trans (by norm_num) (beyond.trans (Nat.le_add_left _ sum))⟩

theorem foldlM_addSquare (words : List UInt32) (sum : Nat) :
    words.foldlM addSquare sum = some (sum + cutSquares qBits (magnitudes words)) ∨
      (words.foldlM addSquare sum = none ∧ 2 ^ 98 ≤ sum + cutSquares qBits (magnitudes words)) := by
  induction words generalizing sum with
  | nil => exact .inl rfl
  | cons word rest ih =>
    have total : sum + cutSquares qBits (magnitudes (word :: rest)) =
        sum + cut qBits (binary32.magnitude word.toNat) ^ 2 + cutSquares qBits (magnitudes rest) := by
      simp only [magnitudes,List.map_cons,cutSquares_cons]
      omega
    rw [total,List.foldlM_cons]
    rcases addSquare_cases sum word with added | ⟨stopped,beyond⟩
    · rw [added,Option.bind_eq_bind,Option.bind_some]
      exact ih _
    · rw [stopped]
      exact .inr ⟨rfl,beyond.trans (Nat.le_add_right _ _)⟩

/-- The end of the check, over any bound of the product: with the source's own bound in
    its place every case would evaluate it. -/
def verdict (bounded : Nat → Option Nat) (sum : Option Nat) : Bool :=
  match sum with
  | none => false
  | some squaredNorm =>
    match bounded (squaredNorm * 1000000) with
    | none => false
    | some scaled => decide (2 ^ (2 * qBits) * 998001 ≤ scaled) && decide (scaled ≤ 2 ^ (2 * qBits) * 1002001)

theorem hasNormalizedNorm_eq (vector : Vector) :
    hasNormalizedNorm vector = verdict checked (vector.values.foldlM addSquare 0) := rfl

theorem verdict_stopped (bounded : Nat → Option Nat) : verdict bounded none = false := rfl

theorem verdict_beyond {bounded : Nat → Option Nat} {sum : Nat} (beyond : bounded (sum * 1000000) = none) :
    verdict bounded (some sum) = false := by
  simp only [verdict,beyond]

theorem verdict_iff {bounded : Nat → Option Nat} {sum : Nat} (within : bounded (sum * 1000000) = some (sum * 1000000)) :
    verdict bounded (some sum) = true ↔ 2 ^ 96 * 998001 ≤ sum * 1000000 ∧ sum * 1000000 ≤ 2 ^ 96 * 1002001 := by
  have twice : 2 * qBits = 96 := rfl
  simp only [verdict,within,twice,Bool.and_eq_true,decide_eq_true_iff]

/-- Neither an early return nor an overflow changes what the check says of the sum of
    the squares of the cut values. -/
theorem hasNormalizedNorm_iff (vector : Vector) : hasNormalizedNorm vector = true ↔
    2 ^ 96 * 998001 ≤ cutSquares qBits (magnitudes vector.values) * 1000000 ∧
      cutSquares qBits (magnitudes vector.values) * 1000000 ≤ 2 ^ 96 * 1002001 := by
  have summed := foldlM_addSquare vector.values 0
  rw [zero_add] at summed
  generalize cutSquares qBits (magnitudes vector.values) = total at summed ⊢
  rw [hasNormalizedNorm_eq]
  rcases summed with sum | ⟨stopped,beyond⟩
  · rw [sum]
    rcases checked_cases (total * 1000000) with scaled | ⟨scaled,beyond⟩
    · exact verdict_iff scaled
    · simp only [verdict_beyond scaled,Bool.false_eq_true,false_iff]
      omega
  · simp only [stopped,verdict_stopped,Bool.false_eq_true,false_iff]
    omega

/-! ### The exact length -/

theorem squaredNorm_eq (vector : Vector) : squaredNorm vector = squares (magnitudes vector.values) := by
  simp only [squaredNorm,magnitudes,squares,List.map_map]
  exact congrArg List.sum (List.map_congr_left fun word _ => Format.value_sq binary32 word.toNat)

theorem magnitudes_nonneg (words : List UInt32) : ∀ x ∈ magnitudes words, 0 ≤ x := by
  intro x member
  obtain ⟨word,-,rfl⟩ := List.mem_map.mp member
  exact Format.magnitude_nonneg binary32 word.toNat

/-- The sum of the cut squares is no more than the exact squared length. -/
theorem cutSquares_le_norm (vector : Vector) :
    (cutSquares qBits (magnitudes vector.values) : ℚ) ≤ squaredNorm vector * 2 ^ 96 := by
  have cut := cutSquares_le qBits (magnitudes_nonneg vector.values)
  rw [squaredNorm_eq]
  norm_num [qBits] at cut ⊢
  exact cut

/-- It falls short by no more than its last bits, for as many values as a vector has. -/
theorem norm_le_cutSquares (vector : Vector) :
    squaredNorm vector * 2 ^ 96 ≤ cutSquares qBits (magnitudes vector.values) + 2 ^ 40 := by
  have fine : ∀ x ∈ magnitudes vector.values, (∃ n : Nat, x * 2 ^ qBits = n) ∨ x * 2 ^ qBits ≤ 2 ^ 23 := by
    intro x member
    obtain ⟨word,-,rfl⟩ := List.mem_map.mp member
    exact fine_value word
  have lost := squares_le qBits (2 ^ 23) (by positivity) (magnitudes_nonneg vector.values) fine
  have many : ((magnitudes vector.values).length : ℚ) ≤ 2 ^ 16 := by
    have bounded := vector.bounded
    simp only [magnitudes,List.length_map,maxDims] at bounded ⊢
    exact_mod_cast (by omega : vector.values.length ≤ 2 ^ 16)
  rw [squaredNorm_eq]
  have widened : ((magnitudes vector.values).length : ℚ) * (2 * 2 ^ 23) ≤ 2 ^ 16 * (2 * 2 ^ 23) :=
    mul_le_mul_of_nonneg_right many (by positivity)
  norm_num [qBits] at lost widened ⊢
  linarith

/-- The check decides the sum of the cut squares, whatever overflows on the way, and so
    accepts every vector whose squared length is within the bounds by the width of what
    is cut off, and refuses every vector whose squared length is as far outside them. -/
theorem norm_check_exact (vector : Vector) :
    (hasNormalizedNorm vector = true ↔
      2 ^ 96 * 998001 ≤ cutSquares qBits (magnitudes vector.values) * 1000000 ∧
        cutSquares qBits (magnitudes vector.values) * 1000000 ≤ 2 ^ 96 * 1002001) ∧
    (998001 / 1000000 + 1 / 2 ^ 54 ≤ squaredNorm vector ∧ squaredNorm vector ≤ 1002001 / 1000000 →
      hasNormalizedNorm vector = true) ∧
    (squaredNorm vector < 998001 / 1000000 ∨ 1002001 / 1000000 + 1 / 2 ^ 54 < squaredNorm vector →
      hasNormalizedNorm vector = false) := by
  have below := cutSquares_le_norm vector
  have above := norm_le_cutSquares vector
  refine ⟨hasNormalizedNorm_iff vector,?_,?_⟩
  · rintro ⟨long,short⟩
    refine (hasNormalizedNorm_iff vector).mpr ⟨?_,?_⟩
    · have low : (2 ^ 96 * 998001 : ℚ) ≤ cutSquares qBits (magnitudes vector.values) * 1000000 := by
        norm_num at long above ⊢
        linarith
      exact_mod_cast low
    · have high : (cutSquares qBits (magnitudes vector.values) * 1000000 : ℚ) ≤ 2 ^ 96 * 1002001 := by
        norm_num at short below ⊢
        linarith
      exact_mod_cast high
  · intro outside
    rw [← Bool.not_eq_true,hasNormalizedNorm_iff]
    rintro ⟨low,high⟩
    have low' : (2 ^ 96 * 998001 : ℚ) ≤ cutSquares qBits (magnitudes vector.values) * 1000000 := by exact_mod_cast low
    have high' : (cutSquares qBits (magnitudes vector.values) * 1000000 : ℚ) ≤ 2 ^ 96 * 1002001 := by exact_mod_cast high
    norm_num at low' high' below above outside
    rcases outside with short | long
    · linarith
    · linarith

namespace Sample

/-- Four halves, one of them negative. -/
def halves : Vector := ⟨[0x3F000000,0xBF000000,0x3F000000,0x3F000000],by decide,by decide,by decide⟩

/-- The least subnormal and the largest finite value. -/
def extremes : Vector := ⟨[0x00000001,0x7F7FFFFF],by decide,by decide,by decide⟩

theorem squaredNorm_halves : squaredNorm halves = 1 := by decide +kernel

theorem four_le_extremes : 4 ≤ squaredNorm extremes := by decide +kernel

theorem norm_check_exact_halves : hasNormalizedNorm halves = true ∧ hasNormalizedNorm extremes = false := by
  refine ⟨(norm_check_exact halves).2.1 ?_,(norm_check_exact extremes).2.2 (.inr ?_)⟩
  · rw [squaredNorm_halves]
    norm_num
  · refine lt_of_lt_of_le ?_ four_le_extremes
    norm_num

end Sample

end Aicortex.Provider
