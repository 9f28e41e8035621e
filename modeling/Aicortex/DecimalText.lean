import Aicortex.Claims
import Aicortex.CivilText

/-!
The exact text of a decimal. The amount is the digits of the mantissa with the point the
scale puts among them; the parser takes that text back, reading the digits as a number
before it looks at the sign. The one mantissa without a positive counterpart is written
but not read.
-/

namespace Aicortex.DecimalText
open Aicortex.Text Aicortex.Claims
open Lib Lib.Outcome
set_option linter.unusedSimpArgs false

/-- The mantissas are the signed integers of 128 bits. -/
def minMantissa : Int := -2 ^ 127
def maxMantissa : Int := 2 ^ 127 - 1

/-- `mantissa * 10^-scale`, in a unit. -/
def new (mantissa : Int) (scale : Nat) (unit : Option Claims.Unit) : Except TypeError Decimal :=
  if legal : scale ≤ maxScale then .ok ⟨mantissa,scale,unit,legal⟩
  else .error (.invalid "amount" [.lit s!"a scale of {scale} is above {maxScale}"])

/-- The decimal of checked digits: their number is the magnitude of the mantissa. -/
def ofDigits (invalid : String → TypeError) (negative : Bool) (whole fraction : List Char)
    (unit : Option Claims.Unit) : Except TypeError Decimal :=
  if 2 ^ 8 ≤ fraction.length then .error (invalid "has too many digits")
  else
    let magnitude := Digits.value (whole ++ fraction)
    if maxMantissa < magnitude then .error (invalid "is beyond an i128 mantissa")
    else if negative = true ∧ magnitude = 0 then .error (invalid "is a negative zero")
    else new (if negative then -magnitude else magnitude) fraction.length unit

/-- An optional `-`, digits with no leading zero, and an optional point with digits after it. -/
def parse (text : String) (unit : Option Claims.Unit) : Except TypeError Decimal :=
  let invalid (reason : String) := TypeError.invalid "amount" [.quoted text,.lit (" " ++ reason)]
  let negative := text.toList.head? == some '-'
  let magnitude := if negative then text.toList.tail else text.toList
  let sides := (splitOnce '.' magnitude).getD (magnitude,[])
  if sides.1.isEmpty || !sides.1.all isAsciiDigit || !sides.2.all isAsciiDigit then
    .error (invalid "is not a decimal number")
  else if magnitude.contains '.' && sides.2.isEmpty then .error (invalid "ends in a point")
  else if 1 < sides.1.length && sides.1.head? == some '0' then .error (invalid "has a leading zero")
  else ofDigits invalid negative sides.1 sides.2 unit

/-- The exact decimal text, without the unit. -/
def amount (decimal : Decimal) : String :=
  let (whole,fraction) := Digits.pointed decimal.scale decimal.mantissa.natAbs
  let sign := if decimal.mantissa < 0 then ['-'] else []
  String.ofList (sign ++ if fraction.isEmpty then whole else whole ++ '.' :: fraction)

/-! ### The parser in terms of its parts -/

/-- A sign, digits before the point and digits after it. -/
structure Parts where
  negative : Bool
  whole : List Char
  fraction : List Char

namespace Parts

/-- The digits, with a point before the fraction when there is one. -/
def unsigned (parts : Parts) : List Char :=
  if parts.fraction.isEmpty then parts.whole else parts.whole ++ '.' :: parts.fraction

def text (parts : Parts) : List Char := (if parts.negative then ['-'] else []) ++ parts.unsigned

/-- What the parser asks of the digits. -/
structure Canonical (parts : Parts) : Prop where
  whole : ∀ c ∈ parts.whole, c.isDigit = true
  fraction : ∀ c ∈ parts.fraction, c.isDigit = true
  nonempty : parts.whole ≠ []
  leading : 1 < parts.whole.length → parts.whole.head? ≠ some '0'

def number (parts : Parts) : Nat := Digits.value (parts.whole ++ parts.fraction)

end Parts

/-- The parts an amount is written from. -/
def partsOf (decimal : Decimal) : Parts :=
  let digits := Digits.pointed decimal.scale decimal.mantissa.natAbs
  ⟨decimal.mantissa < 0,digits.1,digits.2⟩

variable {text : String} {unit : Option Claims.Unit} {decimal : Decimal} {parts : Parts}

theorem amount_toList (decimal : Decimal) : (amount decimal).toList = (partsOf decimal).text := by
  simp [amount,partsOf,Parts.text,Parts.unsigned]

theorem partsOf_canonical (decimal : Decimal) : (partsOf decimal).Canonical :=
  ⟨(Digits.pointed_digits _ _).1,(Digits.pointed_digits _ _).2,Digits.pointed_whole _ _,Digits.pointed_leading⟩

theorem partsOf_number (decimal : Decimal) : (partsOf decimal).number = decimal.mantissa.natAbs := by
  rw [Parts.number,partsOf,Digits.pointed_append,Digits.value_padded]

/-- The whole part has no point, so the unsigned text splits back into the parts. -/
theorem unsigned_split (canonical : parts.Canonical) :
    (splitOnce '.' parts.unsigned).getD (parts.unsigned,[]) = (parts.whole,parts.fraction) ∧
      (parts.unsigned.contains '.' && parts.fraction.isEmpty) = false := by
  have noPoint : '.' ∉ parts.whole := fun held => absurd (canonical.whole '.' held) (by decide)
  cases noFraction : parts.fraction with
  | nil => simp [Parts.unsigned,noFraction,splitOnce_eq_none_iff.mpr noPoint,noPoint]
  | cons first rest =>
    have split : splitOnce '.' parts.unsigned = some (parts.whole,first :: rest) :=
      splitOnce_eq_some_iff.mpr ⟨noPoint,by simp [Parts.unsigned,noFraction]⟩
    simp [split]

/-- The sign is read off the front: no digit is a sign. -/
theorem sign_split (canonical : parts.Canonical) : (parts.text.head? == some '-') = parts.negative ∧
    (if parts.negative then parts.text.tail else parts.text) = parts.unsigned := by
  obtain ⟨first,rest,split⟩ := List.exists_cons_of_ne_nil canonical.nonempty
  have noSign : first ≠ '-' := by
    rintro rfl
    exact absurd (canonical.whole '-' (by simp [split])) (by decide)
  cases negative : parts.negative <;> cases noFraction : parts.fraction.isEmpty <;>
    simp [Parts.text,Parts.unsigned,negative,noFraction,split,noSign]

theorem parse_text (canonical : parts.Canonical) (spelled : text.toList = parts.text) : parse text unit =
    ofDigits (fun reason => .invalid "amount" [.quoted text,.lit (" " ++ reason)]) parts.negative parts.whole
      parts.fraction unit := by
  obtain ⟨signed,unsigned⟩ := sign_split canonical
  obtain ⟨split,pointed⟩ := unsigned_split canonical
  have digits : (parts.whole.isEmpty || !parts.whole.all isAsciiDigit || !parts.fraction.all isAsciiDigit) = false := by
    simp only [Bool.or_eq_false_iff,Bool.not_eq_false',List.all_eq_true,CivilText.isAsciiDigit_eq,
      List.isEmpty_eq_false_iff]
    exact ⟨⟨canonical.nonempty,canonical.whole⟩,canonical.fraction⟩
  have leading : (decide (1 < parts.whole.length) && parts.whole.head? == some '0') = false := by
    simpa using canonical.leading
  unfold parse
  simp only [spelled,signed,unsigned,split,digits,pointed,leading,Bool.false_eq_true,if_false]

/-- An amount says the mantissa and the scale. -/
theorem amount_inj {left right : Decimal} (same : amount left = amount right) :
    left.mantissa = right.mantissa ∧ left.scale = right.scale := by
  have spelled : (partsOf left).text = (partsOf right).text := by rw [← amount_toList,← amount_toList,same]
  obtain ⟨leftSign,leftUnsigned⟩ := sign_split (partsOf_canonical left)
  obtain ⟨rightSign,rightUnsigned⟩ := sign_split (partsOf_canonical right)
  have signs : (partsOf left).negative = (partsOf right).negative := by rw [← leftSign,← rightSign,spelled]
  have unsigned : (partsOf left).unsigned = (partsOf right).unsigned := by
    rw [← leftUnsigned,← rightUnsigned,spelled,signs]
  have sides : ((partsOf left).whole,(partsOf left).fraction) = ((partsOf right).whole,(partsOf right).fraction) := by
    rw [← (unsigned_split (partsOf_canonical left)).1,← (unsigned_split (partsOf_canonical right)).1,unsigned]
  obtain ⟨whole,fraction⟩ := Prod.mk.inj sides
  have magnitude : left.mantissa.natAbs = right.mantissa.natAbs := by
    rw [← partsOf_number,← partsOf_number,Parts.number,Parts.number,whole,fraction]
  have scale : left.scale = right.scale := by
    rw [← Digits.pointed_scale left.scale left.mantissa.natAbs,← Digits.pointed_scale right.scale right.mantissa.natAbs]
    exact congrArg List.length fraction
  have negative : left.mantissa < 0 ↔ right.mantissa < 0 := by simpa [partsOf] using signs
  exact ⟨by omega,scale⟩

/-- Two sides split at a point, with a fraction whenever there is one, are joined by it. -/
theorem sides_join {magnitude : List Char} {sides : List Char × List Char}
    (split : (splitOnce '.' magnitude).getD (magnitude,[]) = sides)
    (pointed : ¬ (magnitude.contains '.' && sides.2.isEmpty) = true) :
    magnitude = if sides.2.isEmpty then sides.1 else sides.1 ++ '.' :: sides.2 := by
  cases once : splitOnce '.' magnitude with
  | none =>
    rw [once] at split
    subst split
    rfl
  | some found =>
    rw [once] at split
    subst split
    obtain ⟨_,rfl⟩ := splitOnce_eq_some_iff.mp once
    cases noFraction : found.2 with
    | nil => simp [noFraction] at pointed
    | cons first rest => simp [noFraction]

/-- Whatever the parser accepts is written from canonical parts. -/
theorem parse_parts (parsed : parse text unit = .ok decimal) :
    ∃ parts : Parts, parts.Canonical ∧ text.toList = parts.text := by
  simp only [parse] at parsed
  generalize isNegative : (text.toList.head? == some '-') = negative at parsed
  generalize isMagnitude : (if negative then text.toList.tail else text.toList) = magnitude at parsed
  generalize isSplit : (splitOnce '.' magnitude).getD (magnitude,[]) = sides at parsed
  split_ifs at parsed with wrong pointless zeroed
  simp only [Bool.or_eq_true,Bool.not_eq_true',not_or,Bool.not_eq_false,List.all_eq_true,CivilText.isAsciiDigit_eq,
    List.isEmpty_iff] at wrong
  simp only [Bool.and_eq_true,decide_eq_true_eq,beq_iff_eq,not_and] at zeroed
  refine ⟨⟨negative,sides.1,sides.2⟩,⟨wrong.1.2,wrong.2,wrong.1.1,zeroed⟩,?_⟩
  rw [Parts.text,Parts.unsigned,← sides_join isSplit pointless,← isMagnitude]
  cases negative with
  | false => simp
  | true =>
    obtain ⟨rest,signed⟩ := List.head?_eq_some_iff.mp (by simpa using isNegative)
    simp [signed]

/-- The decimal of checked digits, when there is one. -/
theorem ofDigits_ok_iff {invalid : String → TypeError} {negative : Bool} {whole fraction : List Char} :
    ofDigits invalid negative whole fraction unit = .ok decimal ↔
      decimal.mantissa = (if negative then -(Digits.value (whole ++ fraction) : Int) else Digits.value (whole ++ fraction)) ∧
      decimal.scale = fraction.length ∧ decimal.unit = unit ∧ Digits.value (whole ++ fraction) ≤ maxMantissa ∧
      (negative = true → Digits.value (whole ++ fraction) ≠ 0) := by
  have made (mantissa : Int) : new mantissa fraction.length unit = .ok decimal ↔
      decimal.mantissa = mantissa ∧ decimal.scale = fraction.length ∧ decimal.unit = unit := by
    unfold new
    constructor
    · intro built
      split at built
      · cases built
        exact ⟨rfl,rfl,rfl⟩
      · cases built
    · rintro ⟨rfl,scaled,rfl⟩
      rw [dif_pos (scaled ▸ decimal.legal)]
      cases decimal
      simp only at scaled
      subst scaled
      rfl
  have short : decimal.scale = fraction.length → ¬ 2 ^ 8 ≤ fraction.length := by
    intro scaled long
    have legal := decimal.legal
    simp only [maxScale] at legal
    omega
  simp only [ofDigits]
  generalize Digits.value (whole ++ fraction) = magnitude
  constructor
  · intro built
    split at built
    · cases built
    split at built
    · cases built
    · rename_i _ fits
      split at built
      · cases built
      · rename_i nonzero
        obtain ⟨isMantissa,scaled,isUnit⟩ := (made _).mp built
        exact ⟨isMantissa,scaled,isUnit,Int.not_lt.mp fits,fun signed zero => nonzero ⟨signed,zero⟩⟩
  · rintro ⟨isMantissa,scaled,isUnit,fits,nonzero⟩
    rw [if_neg (short scaled),if_neg (Int.not_lt.mpr fits),if_neg (fun both => nonzero both.1 both.2)]
    exact (made _).mpr ⟨isMantissa,scaled,isUnit⟩

/-- The mantissas whose magnitude is one too. -/
def Readable (decimal : Decimal) : Prop := -maxMantissa ≤ decimal.mantissa ∧ decimal.mantissa ≤ maxMantissa

/-- A text parses to a decimal exactly when it is the decimal's amount, the unit is its
    unit, and the mantissa is not the one without a positive counterpart. -/
theorem parse_ok_iff : parse text unit = .ok decimal ↔
    amount decimal = text ∧ decimal.unit = unit ∧ Readable decimal := by
  constructor
  · intro parsed
    obtain ⟨parts,canonical,spelled⟩ := parse_parts parsed
    rw [parse_text canonical spelled] at parsed
    obtain ⟨isMantissa,scaled,isUnit,fits,nonzero⟩ := ofDigits_ok_iff.mp parsed
    have sign : decide (decimal.mantissa < 0) = parts.negative := by
      rw [isMantissa]
      cases negative : parts.negative with
      | false => simp
      | true =>
        have := nonzero negative
        simp only [if_true,decide_eq_true_eq]
        omega
    have magnitude : decimal.mantissa.natAbs = Digits.value (parts.whole ++ parts.fraction) := by
      rw [isMantissa]
      split <;> simp
    have same : partsOf decimal = parts := by
      rw [partsOf,magnitude,scaled,Digits.pointed_value canonical.whole canonical.fraction canonical.nonempty
        canonical.leading,sign]
    refine ⟨String.toList_inj.mp ?_,isUnit,?_⟩
    · rw [amount_toList,same,spelled]
    · unfold Readable
      omega
  · rintro ⟨rfl,rfl,low,high⟩
    rw [parse_text (partsOf_canonical decimal) (amount_toList decimal)]
    have number := partsOf_number decimal
    rw [Parts.number] at number
    refine ofDigits_ok_iff.mpr ⟨?_,(Digits.pointed_scale _ _).symm,rfl,?_,?_⟩
    · rw [number]
      by_cases negative : decimal.mantissa < 0
      · simp only [partsOf,negative,decide_true,if_true]
        omega
      · simp only [partsOf,negative,decide_false,Bool.false_eq_true,if_false]
        omega
    · rw [number]
      omega
    · rw [number]
      simp only [partsOf,decide_eq_true_eq]
      omega

end Aicortex.DecimalText
