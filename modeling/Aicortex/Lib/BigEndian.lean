import Mathlib.Algebra.Order.Group.Nat
import Mathlib.Tactic.Ring

/-!
Numbers as bytes of a fixed width, the most significant first. What is written is read
back modulo the width, and every run of bytes is what its number is written as.
-/

namespace Lib.BigEndian

/-- The bytes of a number, the most significant first. -/
def bytesOf : Nat → Nat → List UInt8
  | 0, _ => []
  | width + 1, number => UInt8.ofNat (number / 256 ^ width) :: bytesOf width number

def numberOf : List UInt8 → Nat
  | [] => 0
  | byte :: rest => byte.toNat * 256 ^ rest.length + numberOf rest

@[simp] theorem length_bytesOf (width number : Nat) : (bytesOf width number).length = width := by
  induction width with
  | zero => rfl
  | succ width ih => rw [bytesOf,List.length_cons,ih]

theorem numberOf_lt (bytes : List UInt8) : numberOf bytes < 256 ^ bytes.length := by
  induction bytes with
  | nil => exact Nat.one_pos
  | cons byte rest ih =>
    have digit : byte.toNat + 1 ≤ 256 := byte.toNat_lt
    calc byte.toNat * 256 ^ rest.length + numberOf rest
        < byte.toNat * 256 ^ rest.length + 256 ^ rest.length := by omega
      _ = (byte.toNat + 1) * 256 ^ rest.length := by ring
      _ ≤ 256 * 256 ^ rest.length := Nat.mul_le_mul_right _ digit
      _ = 256 ^ (rest.length + 1) := by ring

theorem numberOf_bytesOf_mod (width number : Nat) : numberOf (bytesOf width number) = number % 256 ^ width := by
  induction width with
  | zero => simp [bytesOf,numberOf,Nat.mod_one]
  | succ width ih =>
    have digit : (UInt8.ofNat (number / 256 ^ width)).toNat = number / 256 ^ width % 256 := by
      simp
    rw [bytesOf,numberOf,ih,length_bytesOf,digit,Nat.mod_pow_succ]
    ring

/-- What fits the width is read back. -/
theorem numberOf_bytesOf {width number : Nat} (fits : number < 256 ^ width) : numberOf (bytesOf width number) = number := by
  rw [numberOf_bytesOf_mod,Nat.mod_eq_of_lt fits]

/-- A multiple of the width's range leaves the bytes as they are. -/
theorem bytesOf_add (width number more : Nat) : bytesOf width (more * 256 ^ width + number) = bytesOf width number := by
  induction width generalizing more with
  | zero => rfl
  | succ width ih =>
    have regroup : more * 256 ^ (width + 1) + number = (more * 256) * 256 ^ width + number := by ring
    have quotient : ((more * 256) * 256 ^ width + number) / 256 ^ width = number / 256 ^ width + 256 * more := by
      rw [Nat.add_comm,Nat.add_mul_div_right _ _ (Nat.pow_pos (by decide))]
      ring
    rw [bytesOf,bytesOf,regroup,ih,quotient]
    congr 1
    apply UInt8.toNat_inj.mp
    simp

/-- Bytes are what their number is written as. -/
theorem bytesOf_numberOf (bytes : List UInt8) : bytesOf bytes.length (numberOf bytes) = bytes := by
  induction bytes with
  | nil => rfl
  | cons byte rest ih =>
    have low := numberOf_lt rest
    have high : (byte.toNat * 256 ^ rest.length + numberOf rest) / 256 ^ rest.length = byte.toNat := by
      rw [Nat.add_comm,Nat.add_mul_div_right _ _ (Nat.pow_pos (by decide)),Nat.div_eq_of_lt low,Nat.zero_add]
    rw [List.length_cons,bytesOf,numberOf,high,bytesOf_add,ih]
    simp

end Lib.BigEndian
