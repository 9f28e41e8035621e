import Aicortex.Lib.BigEndian

/-!
Parts written one after the other, each behind its length in a fixed width. The length
says where a part ends, so no two sequences of parts are written alike.
-/

namespace Lib.Framing
open Lib.BigEndian

/-- The parts, each behind its length. -/
def frame (width : Nat) (parts : List (List UInt8)) : List UInt8 :=
  parts.flatMap (fun part => bytesOf width part.length ++ part)

/-- The lengths of the parts can be written. -/
def Fits (width : Nat) (parts : List (List UInt8)) : Prop := ∀ part ∈ parts, part.length < 256 ^ width

theorem frame_cons (width : Nat) (part : List UInt8) (rest : List (List UInt8)) :
    frame width (part :: rest) = bytesOf width part.length ++ (part ++ frame width rest) := by
  simp [frame]

/-- A first part is read back with what follows it. -/
theorem frame_cons_inj {width : Nat} {part other rest more : List UInt8} (fits : part.length < 256 ^ width)
    (otherFits : other.length < 256 ^ width)
    (same : bytesOf width part.length ++ (part ++ rest) = bytesOf width other.length ++ (other ++ more)) :
    part = other ∧ rest = more := by
  obtain ⟨lengths,contents⟩ := List.append_inj same (by simp)
  have equal : part.length = other.length := by
    rw [← numberOf_bytesOf fits,lengths,numberOf_bytesOf otherFits]
  exact List.append_inj contents equal

theorem frame_injective {width : Nat} (wide : 0 < width) {left right : List (List UInt8)} (leftFits : Fits width left)
    (rightFits : Fits width right) (same : frame width left = frame width right) : left = right := by
  induction left generalizing right with
  | nil =>
    cases right with
    | nil => rfl
    | cons other more =>
      have short := congrArg List.length same
      rw [frame_cons] at short
      simp [frame] at short
      omega
  | cons part rest ih =>
    cases right with
    | nil =>
      have short := congrArg List.length same
      rw [frame_cons] at short
      simp [frame] at short
      omega
    | cons other more =>
      rw [frame_cons,frame_cons] at same
      obtain ⟨rfl,later⟩ := frame_cons_inj (leftFits part List.mem_cons_self) (rightFits other List.mem_cons_self) same
      rw [ih (fun part member => leftFits part (List.mem_cons_of_mem _ member))
        (fun part member => rightFits part (List.mem_cons_of_mem _ member)) later]

end Lib.Framing
