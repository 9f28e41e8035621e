import Aicortex.Lib.Ordered
import Mathlib.Data.String.Basic
import Mathlib.Order.Nat
import Mathlib.Algebra.GroupWithZero.Nat
import Mathlib.Algebra.Group.Int.Defs

/-!
The text shapes the record types are held to. A checked string carries the proof
that its own check accepted it, so a value outside its shape cannot be built; the
checks are the source's, on characters where the source reads ascii bytes.
-/

namespace Aicortex.Text
set_option linter.unusedSimpArgs false

/-- A message is kept in pieces: literal text, and a quoted operand that the
    source renders with its debug format. -/
inductive Piece where
  | lit (text : String)
  | quoted (text : String)
  deriving Repr, DecidableEq

/-- A value that cannot be turned into one of the record types. -/
inductive TypeError where
  | unknownVariant (field value : String) (expected : List String)
  | missingField (field context : String)
  | invalid (field : String) (reason : List Piece)
  deriving Repr, DecidableEq

/-- Unicode `White_Space`, which the source's `trim` strips. -/
def isWhitespace (c : Char) : Bool :=
  let code := c.toNat
  (9 ≤ code && code ≤ 13) || code == 0x20 || code == 0x85 || code == 0xA0 || code == 0x1680 ||
    (0x2000 ≤ code && code ≤ 0x200A) || code == 0x2028 || code == 0x2029 || code == 0x202F ||
    code == 0x205F || code == 0x3000

/-- Unicode category `Cc`. -/
def isControl (c : Char) : Bool := c.toNat ≤ 0x1F || (0x7F ≤ c.toNat && c.toNat ≤ 0x9F)

def isAsciiLower (c : Char) : Bool := 'a'.toNat ≤ c.toNat && c.toNat ≤ 'z'.toNat
def isAsciiUpper (c : Char) : Bool := 'A'.toNat ≤ c.toNat && c.toNat ≤ 'Z'.toNat
def isAsciiDigit (c : Char) : Bool := '0'.toNat ≤ c.toNat && c.toNat ≤ '9'.toNat
def isLowerHexDigit (c : Char) : Bool := isAsciiDigit c || ('a'.toNat ≤ c.toNat && c.toNat ≤ 'f'.toNat)

/-- Length in bytes of the UTF-8 form. -/
def byteLen (text : String) : Nat := (text.toList.map Char.utf8Size).sum

def trimChars (chars : List Char) : List Char :=
  ((chars.dropWhile isWhitespace).reverse.dropWhile isWhitespace).reverse

def trim (text : String) : String := String.ofList (trimChars text.toList)

/-- Split at every occurrence of a separator; the empty text has one empty part. -/
def splitOn (separator : Char) : List Char → List (List Char)
  | [] => [[]]
  | c :: rest =>
    match splitOn separator rest with
    | [] => [[c]]
    | part :: parts => if c == separator then [] :: part :: parts else (c :: part) :: parts

/-- The two sides of the first occurrence of a separator. -/
def splitOnce (separator : Char) : List Char → Option (List Char × List Char)
  | [] => none
  | c :: rest =>
    if c == separator then some ([],rest)
    else (splitOnce separator rest).map (fun sides => (c :: sides.1,sides.2))

theorem splitOn_eq (separator : Char) (chars : List Char) : splitOn separator chars = chars.splitOn separator := by
  induction chars with
  | nil => rfl
  | cons c rest ih =>
    obtain ⟨part,parts,split⟩ := List.exists_cons_of_ne_nil (List.splitOn_ne_nil separator rest)
    simp only [splitOn,ih,List.splitOn_cons_eq_if_modifyHead,split]
    rfl

/-- Every character but the separator is in one of the parts. -/
theorem mem_splitOn {separator c : Char} {chars : List Char} (within : c ∈ chars) (apart : c ≠ separator) :
    ∃ part ∈ splitOn separator chars, c ∈ part := by
  rw [splitOn_eq]
  induction chars with
  | nil => cases within
  | cons first rest ih =>
    obtain ⟨part,parts,split⟩ := List.exists_cons_of_ne_nil (List.splitOn_ne_nil separator rest)
    rw [List.splitOn_cons_eq_if_modifyHead]
    rw [split] at ih ⊢
    rcases List.mem_cons.mp within with rfl | later
    · simp [apart]
    · obtain ⟨found,isPart,held⟩ := ih later
      split_ifs
      · exact ⟨found,List.mem_cons_of_mem _ isPart,held⟩
      · rcases List.mem_cons.mp isPart with rfl | other
        · exact ⟨first :: found,by simp,List.mem_cons_of_mem _ held⟩
        · exact ⟨found,by simp [other],held⟩

theorem splitOnce_eq_some_iff {separator : Char} {chars front rest : List Char} :
    splitOnce separator chars = some (front,rest) ↔ separator ∉ front ∧ chars = front ++ separator :: rest := by
  induction chars generalizing front with
  | nil => simp [splitOnce]
  | cons c others ih =>
    by_cases here : c = separator
    · subst here
      cases front with
      | nil => simp [splitOnce,eq_comm]
      | cons first more =>
        simp only [splitOnce,beq_self_eq_true,if_true,Option.some.injEq,Prod.mk.injEq,List.cons_append,List.cons.injEq]
        constructor
        · rintro ⟨empty,_⟩
          cases empty
        · rintro ⟨apart,same,_⟩
          exact absurd (List.mem_cons.mpr (.inl same)) apart
    · cases front with
      | nil => simp [splitOnce,here]
      | cons first more =>
        simp only [splitOnce,beq_iff_eq,here,if_false,Option.map_eq_some_iff,Prod.exists,Prod.mk.injEq,
          List.cons_append,List.cons.injEq,List.mem_cons,not_or]
        constructor
        · rintro ⟨_,_,found,⟨rfl,rfl⟩,rfl⟩
          obtain ⟨apart,split⟩ := ih.mp found
          exact ⟨⟨fun same => here same.symm,apart⟩,rfl,split⟩
        · rintro ⟨⟨_,apart⟩,rfl,split⟩
          exact ⟨_,_,ih.mpr ⟨apart,split⟩,⟨rfl,rfl⟩,rfl⟩

theorem splitOnce_eq_none_iff {separator : Char} {chars : List Char} :
    splitOnce separator chars = none ↔ separator ∉ chars := by
  induction chars with
  | nil => simp [splitOnce]
  | cons c rest ih =>
    by_cases here : c = separator
    · simp [splitOnce,here]
    · simp [splitOnce,here,ih,Ne.symm here]

def maxKeyLen : Nat := 128

/-- Refuse an empty, oversized, padded or control-bearing opaque key. -/
def validateKey (field text : String) : Except TypeError Unit :=
  if text.isEmpty then .error (.invalid field [.lit "is empty"])
  else if byteLen text > maxKeyLen then
    .error (.invalid field [.lit s!"is {byteLen text} bytes, over the {maxKeyLen} ceiling"])
  else if trimChars text.toList ≠ text.toList then .error (.invalid field [.lit "is padded with whitespace"])
  else if text.toList.any isControl then .error (.invalid field [.lit "carries a control character"])
  else .ok ()

/-- `a-z` first, then `a-z`, `0-9`, `_`, `-`. -/
def lowerIdent (field text : String) : Except TypeError Unit := do
  validateKey field text
  let legal := match text.toList with
    | [] => false
    | first :: rest => isAsciiLower first &&
        rest.all (fun c => isAsciiLower c || isAsciiDigit c || c == '_' || c == '-')
  if legal then .ok ()
  else .error (.invalid field [.quoted text,
    .lit " is not a lowercase identifier (`a-z` first, then `a-z`, `0-9`, `_`, `-`)"])

/-- Lowercase identifiers joined by `.`. -/
def dottedIdent (field text : String) : Except TypeError Unit := do
  validateKey field text
  if (splitOn '.' text.toList).all (fun part => (lowerIdent field (String.ofList part)).isOk) then .ok ()
  else .error (.invalid field [.quoted text,.lit " is not lowercase identifiers joined by `.`"])

private def doubleSlash : List Char → Bool
  | '/' :: '/' :: _ => true
  | _ :: rest => doubleSlash rest
  | [] => false

/-- The shape of an IANA zone name; whether the zone exists is not asked here. -/
def tzName (field text : String) : Except TypeError Unit := do
  validateKey field text
  let chars := text.toList
  let legal := chars.all (fun c => isAsciiLower c || isAsciiUpper c || isAsciiDigit c || "/_-+".toList.contains c)
  if !legal || chars.head? == some '/' || chars.getLast? == some '/' || doubleSlash chars then
    .error (.invalid field [.quoted text,.lit " is not shaped like an IANA zone name"])
  else .ok ()

def lowerHex (field text : String) : Except TypeError Unit :=
  if !text.isEmpty && byteLen text % 2 == 0 && text.toList.all isLowerHexDigit then .ok ()
  else .error (.invalid field [.quoted text,.lit " is not lowercase hex"])

def currencyCode (field text : String) : Except TypeError Unit :=
  if byteLen text == 3 && text.toList.all isAsciiUpper then .ok ()
  else .error (.invalid field [.quoted text,.lit " is not an ISO 4217 code"])

/-- Lowercase ascii with `-`, `_`, `.` and `:`. -/
def sourceSystem (field text : String) : Except TypeError Unit := do
  validateKey field text
  if text.toList.all (fun c => isAsciiLower c || isAsciiDigit c || "-_.:".toList.contains c) then .ok ()
  else .error (.invalid field [.quoted text,.lit " is not lowercase ascii with `-`, `_`, `.`, and `:`"])

/-- A string that exists only in a legal shape. The field is the one its refusal names. -/
structure CheckedString (field : String) (check : String → String → Except TypeError Unit) where
  text : String
  legal : (check field text).isOk = true

namespace CheckedString
variable {field : String} {check : String → String → Except TypeError Unit}

/-- Validate and wrap. -/
def new (field : String) (check : String → String → Except TypeError Unit) (text : String) :
    Except TypeError (CheckedString field check) :=
  match checked : check field text with
  | .ok () => .ok ⟨text,by simp [checked,Except.isOk,Except.toBool]⟩
  | .error refusal => .error refusal

theorem text_injective : Function.Injective (text : CheckedString field check → String) := by
  rintro ⟨left,_⟩ ⟨right,_⟩ same
  cases same
  rfl

instance : DecidableEq (CheckedString field check) := fun left right =>
  decidable_of_iff (left.text = right.text) text_injective.eq_iff

instance : LinearOrder (CheckedString field check) := LinearOrder.lift' text text_injective

instance : Repr (CheckedString field check) := ⟨fun value precision => reprPrec value.text precision⟩

/-- Wrapping succeeds exactly on the texts the check accepts, and keeps them. -/
theorem new_ok_iff (text : String) (value : CheckedString field check) :
    new field check text = .ok value ↔ (check field text).isOk = true ∧ value.text = text := by
  unfold new
  split
  · rename_i checked
    constructor
    · intro same
      cases same
      exact ⟨by simp [checked,Except.isOk,Except.toBool],rfl⟩
    · rintro ⟨_,rfl⟩
      rfl
  · rename_i refusal checked
    simp [checked,Except.isOk,Except.toBool]

end CheckedString

/-- What a UUID names; two kinds of identifier never mix. -/
inductive IdKind where
  | claim
  | memory
  | proposal
  deriving Repr, DecidableEq

/-- A 128-bit identifier minted by the writer. -/
structure Uuid (kind : IdKind) where
  value : Nat
  bound : value < 2 ^ 128

namespace Uuid
variable {kind : IdKind}

theorem value_injective : Function.Injective (value : Uuid kind → Nat) := by
  rintro ⟨left,_⟩ ⟨right,_⟩ same
  cases same
  rfl

instance : DecidableEq (Uuid kind) := fun left right =>
  decidable_of_iff (left.value = right.value) value_injective.eq_iff

instance : LinearOrder (Uuid kind) := LinearOrder.lift' value value_injective

instance : Repr (Uuid kind) := ⟨fun id precision => reprPrec id.value precision⟩

/-- The hyphenated rendering, 8-4-4-4-12 lowercase hex digits. -/
def hyphenated (id : Uuid kind) : String :=
  let digits := Nat.toDigits 16 id.value
  let padded := List.replicate (32 - digits.length) '0' ++ digits
  let group (start width : Nat) : String := String.ofList ((padded.drop start).take width)
  s!"{group 0 8}-{group 8 4}-{group 12 4}-{group 16 4}-{group 20 12}"

instance : ToString (Uuid kind) := ⟨hyphenated⟩

end Uuid

abbrev ClaimId := Uuid .claim
abbrev MemoryId := Uuid .memory
abbrev ProposalId := Uuid .proposal

end Aicortex.Text
