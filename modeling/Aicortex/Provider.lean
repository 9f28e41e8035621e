import Aicortex.EmbeddingTables

/-!
What a provider returns and what is checked of it. A vector is a list of 32-bit words,
each the bits of a finite float; a batch has one vector for each input, of the declared
width, none of them zero, and of unit length within a tolerance where the model declares
it.
-/

namespace Aicortex.Provider
open Aicortex.Schema Aicortex.EmbeddingTables
open Aicortex.Claims hiding Unit
set_option linter.unusedSimpArgs false

/-- The bits of a float without its sign. -/
def magnitude (word : UInt32) : Nat := word.toNat % 2 ^ 31

def exponent (word : UInt32) : Nat := magnitude word / 2 ^ 23 % 256

def isFinite (word : UInt32) : Bool := exponent word != 255

def maxDims : Nat := 2 ^ 16 - 1

/-- A vector the constructor accepts: not empty, not too wide, all values finite. -/
structure Vector where
  values : List UInt32
  nonempty : values ≠ []
  bounded : values.length ≤ maxDims
  finite : values.all isFinite = true

def Vector.new (values : List UInt32) : Except StoreError Vector :=
  if nonempty : values = [] then .error (.validation "an embedding vector must have at least one dimension")
  else if bounded : values.length ≤ maxDims then
    if finite : values.all isFinite = true then .ok ⟨values,nonempty,bounded,finite⟩
    else .error (.validation "an embedding vector must contain only finite values")
  else .error (.validation s!"embedding vector has {values.length} dimensions, above the u16 ceiling")

def Vector.dims (vector : Vector) : Nat := min vector.values.length maxDims

/-- Each scalar as four bytes, the lowest first. -/
def leBytes (word : UInt32) : Bytes :=
  [UInt8.ofNat word.toNat,UInt8.ofNat (word.toNat / 2 ^ 8),UInt8.ofNat (word.toNat / 2 ^ 16),
    UInt8.ofNat (word.toNat / 2 ^ 24)]

def Vector.toLeBytes (vector : Vector) : Bytes := vector.values.flatMap leBytes

/-! ### The checks of a batch -/

def fractionBits : Nat := 23
def qBits : Nat := 48

/-- One value as a fixed-point number of 48 fractional bits. -/
def fixedPoint (word : UInt32) : Nat :=
  let fraction := magnitude word % 2 ^ fractionBits
  let mantissa := if exponent word = 0 then fraction else 2 ^ fractionBits + fraction
  if 102 ≤ exponent word then mantissa * 2 ^ (exponent word - 102) % 2 ^ 128 else mantissa / 2 ^ (102 - exponent word)

/-- A value of 128 bits, if it is one. -/
def checked (value : Nat) : Option Nat := if value < 2 ^ 128 then some value else none

def addSquare (sum : Nat) (word : UInt32) : Option Nat :=
  if 128 ≤ exponent word then none
  else do
    let square ← checked (fixedPoint word * fixedPoint word)
    checked (sum + square)

/-- Whether the squared length is between 0.998001 and 1.002001. -/
def hasNormalizedNorm (vector : Vector) : Bool :=
  match vector.values.foldlM addSquare 0 with
  | none => false
  | some squaredNorm =>
    match checked (squaredNorm * 1000000) with
    | none => false
    | some scaled => decide (2 ^ (2 * qBits) * 998001 ≤ scaled) && decide (scaled ≤ 2 ^ (2 * qBits) * 1002001)

/-- The checks on what a provider returns for its inputs. -/
def validateBatch (provider : ModelIdentity) (inputs : Nat) (vectors : List Vector) : Except StoreError Unit :=
  if vectors.length ≠ inputs then
    .error (.integrity s!"provider {provider.modelId} returned {vectors.length} vectors for {inputs} inputs")
  else
    match vectors.find? (fun vector => vector.dims != provider.dims) with
    | some vector =>
      .error (.integrity s!"provider {provider.modelId} declares {provider.dims} dimensions but returned {vector.dims}")
    | none =>
      vectors.forM (fun vector =>
        if vector.values.all (fun word => magnitude word == 0) then
          .error (.integrity s!"provider {provider.modelId} returned a zero vector")
        else if provider.normalized && !hasNormalizedNorm vector then
          .error (.integrity (s!"provider {provider.modelId} declares normalized vectors but returned a vector outside " ++
            "tolerance"))
        else .ok ())

/-- A batch that passes has a vector for each input, each of the declared width. -/
theorem validateBatch_ok {provider : ModelIdentity} {inputs : Nat} {vectors : List Vector}
    (passed : validateBatch provider inputs vectors = .ok ()) :
    vectors.length = inputs ∧ ∀ vector ∈ vectors, vector.dims = provider.dims := by
  unfold validateBatch at passed
  by_cases count : vectors.length ≠ inputs
  · rw [if_pos count] at passed
    cases passed
  rw [if_neg count] at passed
  refine ⟨not_not.mp count,?_⟩
  cases found : vectors.find? (fun vector => vector.dims != provider.dims) with
  | some vector => simp [found] at passed
  | none =>
    intro vector member
    simpa using List.find?_eq_none.mp found vector member

end Aicortex.Provider
