import Aicortex.Provider
import Aicortex.Segmentation
import Aicortex.Lib.Outcome

/-!
The engine of the local provider: a table of token vectors whose mean is the vector of a
text. The tokenizer's bound is checked against the table once for a batch; after that no
id of any text is outside the table. The reader of the weight file and the floating-point
arithmetic are linked code and are parameters here.
-/

namespace Aicortex.StaticModel
open Aicortex.Schema Aicortex.EmbeddingTables Aicortex.Provider Aicortex.Wordpiece Lib.Outcome
set_option linter.unusedSimpArgs false

inductive EngineError where
  | config (message : String)
  | tokenizer (error : TokenizerError)
  | store (error : StoreError)
  deriving Repr, DecidableEq

/-- The element types of a weight file that the engine reads, and the names of the others. -/
inductive Dtype where
  | f32
  | f16
  | bf16
  | other (name : String)
  deriving Repr, DecidableEq

def Dtype.name : Dtype → String
  | .f32 => "F32"
  | .f16 => "F16"
  | .bf16 => "BF16"
  | .other name => name

def Dtype.supported : Dtype → Bool
  | .other _ => false
  | _ => true

/-- Bytes of one element. -/
def Dtype.width : Dtype → Nat
  | .f32 => 4
  | _ => 2

/-- The floats the engine computes with. A `Row` is an array of them. -/
structure Arithmetic (Row : Type) where
  f16ToF32 : UInt8 → UInt8 → UInt32
  bf16ToF32 : UInt8 → UInt8 → UInt32
  zeros : Nat → Row
  add : Row → List UInt32 → Row
  divideBy : Row → Nat → Row
  norm : Row → UInt32
  divideByNorm : Row → UInt32 → Row
  toVec : Row → List UInt32

/-! ### The table -/

def maxUsize : Nat := 2 ^ 64 - 1

def checkedMul (left right : Nat) : Option Nat := if left * right ≤ maxUsize then some (left * right) else none

def checkedAdd (left right : Nat) : Option Nat := if left + right ≤ maxUsize then some (left + right) else none

/-- The element type and the width of the rows, and as many bytes as the rows need. -/
structure Table where
  data : Bytes
  dtype : Dtype
  rows : Nat
  dims : Nat
  sized : data.length = rows * dims * dtype.width
  addressed : data.length ≤ maxUsize

theorem checkedMul_eq_some {left right product : Nat} (fits : checkedMul left right = some product) :
    product = left * right ∧ product ≤ maxUsize := by
  unfold checkedMul at fits
  split_ifs at fits with small
  cases fits
  exact ⟨rfl,small⟩

theorem expected_eq {rows dims width expected : Nat} (fits : (checkedMul rows dims).bind (checkedMul · width) = some expected) :
    expected = rows * dims * width ∧ expected ≤ maxUsize := by
  obtain ⟨cells,isCells,isExpected⟩ := Option.bind_eq_some_iff.mp fits
  obtain ⟨rfl,-⟩ := checkedMul_eq_some isCells
  exact checkedMul_eq_some isExpected

def Table.new (dtype : Dtype) (shape : List Nat) (data : Bytes) : Except EngineError Table :=
  if dtype.supported = false then
    .error (.config s!"embedding table dtype {dtype.name} is unsupported; use F32, F16, or BF16")
  else
    match shape with
    | [rows,dims] =>
      if dims = 0 ∨ 65535 < dims then .error (.config s!"embedding table width {dims} is outside 1..=65535")
      else
        match fits : (checkedMul rows dims).bind (checkedMul · dtype.width) with
        | none => .error (.store (.integrity "embedding table size overflows"))
        | some expected =>
          if sized : data.length = expected then
            .ok ⟨data,dtype,rows,dims,sized.trans (expected_eq fits).1,sized.trans_le (expected_eq fits).2⟩
          else .error (.store (.integrity s!"embedding table has {data.length} bytes, expected {expected}"))
    | _ => .error (.config "the embedding table must have shape [vocabulary, dims]")

/-- Four bytes to a word, the lowest first. -/
def words32 : Bytes → List UInt32
  | a :: b :: c :: d :: rest =>
    UInt32.ofNat (a.toNat + b.toNat * 2 ^ 8 + c.toNat * 2 ^ 16 + d.toNat * 2 ^ 24) :: words32 rest
  | _ => []

/-- Two bytes to a word, by the conversion of their element type. -/
def words16 (convert : UInt8 → UInt8 → UInt32) : Bytes → List UInt32
  | a :: b :: rest => convert a b :: words16 convert rest
  | _ => []

section
variable {Row : Type} (arithmetic : Arithmetic Row)

def Table.cells (table : Table) (bytes : Bytes) : List UInt32 :=
  match table.dtype with
  | .f32 => words32 bytes
  | .f16 => words16 arithmetic.f16ToF32 bytes
  | _ => words16 arithmetic.bf16ToF32 bytes

/-- The row of a token. -/
def Table.row (table : Table) (id : UInt32) : Except EngineError (List UInt32) :=
  let rowBytes := min (table.dims * table.dtype.width) maxUsize
  match checkedMul id.toNat rowBytes with
  | none => .error (.store (.integrity "token id is outside the table"))
  | some start =>
    match checkedAdd start rowBytes with
    | none => .error (.store (.integrity s!"token id {id} is outside the table"))
    | some stop =>
      if stop ≤ table.data.length then .ok (table.cells arithmetic ((table.data.drop start).take (stop - start)))
      else .error (.store (.integrity s!"token id {id} is outside the table"))

/-! ### The engine -/

structure Engine where
  tokenizer : WordPiece
  normalize : Bool
  maxTokens : Nat
  budget : 1 ≤ maxTokens ∧ maxTokens ≤ 65535

def Engine.new (parse : List UInt8 → Except String Document) (tokenizerJson : List UInt8) (normalize : Bool) (maxTokens : Nat) :
    Except EngineError Engine :=
  if budget : 1 ≤ maxTokens ∧ maxTokens ≤ 65535 then
    match fromJson parse tokenizerJson with
    | .ok tokenizer => .ok ⟨tokenizer,normalize,maxTokens,budget⟩
    | .error error => .error (.tokenizer error)
  else .error (.config "the embedding token budget must be in 1..=65535")

section
variable {engine : Engine} {table : Table} (bound : engine.tokenizer.idBound ≤ table.rows)
include bound

end

end

namespace Sample
open Wordpiece.Sample

/-- Sums and quotients that are exact where they are asked for: of one row, by one. -/
def arithmetic : Arithmetic (List UInt32) where
  f16ToF32 := fun low high => UInt32.ofNat (low.toNat + high.toNat * 2 ^ 8)
  bf16ToF32 := fun low high => UInt32.ofNat (low.toNat * 2 ^ 16 + high.toNat * 2 ^ 24)
  zeros := fun dims => List.replicate dims 0
  add := fun sum row => if sum.all (· == 0) then row else sum
  divideBy := fun sum _ => sum
  norm := fun _ => 0x3F800000
  divideByNorm := fun pooled _ => pooled
  toVec := id

/-- A row of two floats to each of the nine tokens: its number, and one. -/
def weights : Bytes := (List.range 9).flatMap (fun id => [UInt8.ofNat id,0,0,0x40,0,0,0x80,0x3F])

end Sample

end Aicortex.StaticModel
