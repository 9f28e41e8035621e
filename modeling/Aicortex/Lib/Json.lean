import Mathlib.Data.List.Basic
import Mathlib.Data.Nat.Notation

/-!
Reading a JSON text. The scanner takes one character at a time and keeps the tokens
it has finished and the one it is in; the reader assembles the tokens into a value.
A character that JSON allows nowhere but inside a string, and there as itself, may
be spelled as a Unicode escape without changing what is read.
-/

namespace Lib.Json

inductive Mark where
  | openBrace
  | closeBrace
  | openBracket
  | closeBracket
  | comma
  | colon
  deriving Repr, DecidableEq

inductive Token where
  | mark (mark : Mark)
  | text (chars : List Char)
  | word (chars : List Char)
  deriving Repr, DecidableEq

/-- Where the scanner stands. What it has read of a string or a word is kept newest first. -/
inductive Mode where
  | between
  | word (read : List Char)
  | text (read : List Char)
  | escape (read : List Char)
  | unicode (read : List Char) (high : Option Nat) (digits : List Nat)
  | paired (read : List Char) (high : Nat)
  | pairedEscape (read : List Char) (high : Nat)
  deriving Repr, DecidableEq

/-- The finished tokens, newest first, and the one being read. -/
structure Scan where
  done : List Token
  mode : Mode
  deriving Repr, DecidableEq

def mark? (c : Char) : Option Mark :=
  if c = '\x7b' then some .openBrace
  else if c = '\x7d' then some .closeBrace
  else if c = '[' then some .openBracket
  else if c = ']' then some .closeBracket
  else if c = ',' then some .comma
  else if c = ':' then some .colon
  else none

def isBlank (c : Char) : Bool := c == ' ' || c == '\n' || c == '\t' || c == '\r'

/-- The characters of numbers and of the three literal names. -/
def isWordChar (c : Char) : Bool :=
  c.isDigit || ('a'.toNat ≤ c.toNat && c.toNat ≤ 'z'.toNat) || c == 'E' || c == '+' || c == '-' || c == '.'

def hexDigit? (c : Char) : Option Nat :=
  if c.isDigit then some (c.toNat - '0'.toNat)
  else if 'a'.toNat ≤ c.toNat && c.toNat ≤ 'f'.toNat then some (c.toNat - 'a'.toNat + 10)
  else if 'A'.toNat ≤ c.toNat && c.toNat ≤ 'F'.toNat then some (c.toNat - 'A'.toNat + 10)
  else none

/-- What a one-letter escape stands for. -/
def simpleEscape? (c : Char) : Option Char :=
  if c = '"' then some '"'
  else if c = '\\' then some '\\'
  else if c = '/' then some '/'
  else if c = 'b' then some '\x08'
  else if c = 'f' then some '\x0c'
  else if c = 'n' then some '\n'
  else if c = 'r' then some '\r'
  else if c = 't' then some '\t'
  else none

/-- A character outside strings and words. -/
def outside (done : List Token) (c : Char) : Option Scan :=
  if isBlank c then some ⟨done,.between⟩
  else if c = '"' then some ⟨done,.text []⟩
  else if isWordChar c then some ⟨done,.word [c]⟩
  else (mark? c).map (fun mark => ⟨.mark mark :: done,.between⟩)

/-- The value of hex digits kept newest first. -/
def hexValue (digits : List Nat) : Nat := digits.foldr (fun digit value => value * 16 + digit) 0

/-- A whole `\u` escape: a character of its own, or one half of a surrogate pair. -/
def codeUnit (done : List Token) (read : List Char) (high : Option Nat) (value : Nat) : Option Scan :=
  let isHigh := 0xD800 ≤ value && value < 0xDC00
  let isLow := 0xDC00 ≤ value && value < 0xE000
  match high with
  | none =>
    if isHigh then some ⟨done,.paired read value⟩
    else if isLow then none
    else some ⟨done,.text (Char.ofNat value :: read)⟩
  | some high =>
    if isLow then some ⟨done,.text (Char.ofNat (0x10000 + (high - 0xD800) * 0x400 + (value - 0xDC00)) :: read)⟩
    else none

def step (scan : Scan) (c : Char) : Option Scan :=
  match scan.mode with
  | .between => outside scan.done c
  | .word read =>
    if isWordChar c then some ⟨scan.done,.word (c :: read)⟩
    else outside (.word read.reverse :: scan.done) c
  | .text read =>
    if c = '"' then some ⟨.text read.reverse :: scan.done,.between⟩
    else if c = '\\' then some ⟨scan.done,.escape read⟩
    else if c.toNat < 0x20 then none
    else some ⟨scan.done,.text (c :: read)⟩
  | .escape read =>
    if c = 'u' then some ⟨scan.done,.unicode read none []⟩
    else (simpleEscape? c).map (fun meant => ⟨scan.done,.text (meant :: read)⟩)
  | .unicode read high digits =>
    (hexDigit? c).bind (fun digit =>
      if digits.length < 3 then some ⟨scan.done,.unicode read high (digit :: digits)⟩
      else codeUnit scan.done read high (hexValue (digit :: digits)))
  | .paired read high => if c = '\\' then some ⟨scan.done,.pairedEscape read high⟩ else none
  | .pairedEscape read high => if c = 'u' then some ⟨scan.done,.unicode read (some high) []⟩ else none

/-- The tokens of a text that ended between tokens or after a word. -/
def Scan.finish (scan : Scan) : Option (List Token) :=
  match scan.mode with
  | .between => some scan.done.reverse
  | .word read => some (.word read.reverse :: scan.done).reverse
  | _ => none

def tokens (text : List Char) : Option (List Token) :=
  (text.foldlM step ⟨[],.between⟩).bind Scan.finish

/-! ### Values -/

/-- A number is kept as it is spelled. -/
inductive Value where
  | null
  | bool (value : Bool)
  | number (lexeme : List Char)
  | string (text : String)
  | array (items : List Value)
  | object (fields : List (String × Value))

/-- One digit or more. -/
def isDigits (chars : List Char) : Bool := !chars.isEmpty && chars.all Char.isDigit

/-- Digits without a leading zero. -/
def isWhole (chars : List Char) : Bool := isDigits chars && (chars.length == 1 || chars.head? != some '0')

def isExponent (chars : List Char) : Bool :=
  match chars with
  | [] => false
  | c :: rest => if c == '+' || c == '-' then isDigits rest else isDigits (c :: rest)

/-- An optional sign, a whole part, an optional fraction and an optional exponent. -/
def isNumber (chars : List Char) : Bool :=
  let unsigned := if chars.head? = some '-' then chars.tail else chars
  let mantissa := unsigned.takeWhile (fun c => c != 'e' && c != 'E')
  let exponent := unsigned.drop mantissa.length
  let whole := mantissa.takeWhile (· != '.')
  let fraction := mantissa.drop whole.length
  isWhole whole && (fraction.isEmpty || isDigits fraction.tail) &&
    (exponent.isEmpty || isExponent exponent.tail)

def word? (chars : List Char) : Option Value :=
  if chars = ['n','u','l','l'] then some .null
  else if chars = ['t','r','u','e'] then some (.bool true)
  else if chars = ['f','a','l','s','e'] then some (.bool false)
  else if isNumber chars then some (.number chars)
  else none

mutual

/-- The value a token list starts with, and the tokens after it. -/
def value : Nat → List Token → Option (Value × List Token)
  | 0,_ => none
  | _ + 1,[] => none
  | _ + 1,.text chars :: rest => some (.string (String.ofList chars),rest)
  | _ + 1,.word chars :: rest => (word? chars).map (fun found => (found,rest))
  | fuel + 1,.mark mark :: rest =>
    match mark with
    | .openBracket =>
      match rest with
      | .mark .closeBracket :: rest => some (.array [],rest)
      | _ => (items fuel rest).map (fun found => (.array found.1,found.2))
    | .openBrace =>
      match rest with
      | .mark .closeBrace :: rest => some (.object [],rest)
      | _ => (fields fuel rest).map (fun found => (.object found.1,found.2))
    | _ => none

/-- The items of an array up to its closing bracket. -/
def items : Nat → List Token → Option (List Value × List Token)
  | 0,_ => none
  | fuel + 1,rest =>
    (value fuel rest).bind (fun found =>
      match found.2 with
      | .mark .closeBracket :: rest => some ([found.1],rest)
      | .mark .comma :: rest => (items fuel rest).map (fun more => (found.1 :: more.1,more.2))
      | _ => none)

/-- The fields of an object up to its closing brace. -/
def fields : Nat → List Token → Option (List (String × Value) × List Token)
  | 0,_ => none
  | fuel + 1,.text name :: .mark .colon :: rest =>
    (value fuel rest).bind (fun found =>
      match found.2 with
      | .mark .closeBrace :: rest => some ([(String.ofList name,found.1)],rest)
      | .mark .comma :: rest =>
        (fields fuel rest).map (fun more => ((String.ofList name,found.1) :: more.1,more.2))
      | _ => none)
  | _ + 1,_ => none

end

/-- The value a text spells. Each level of the reader consumes a token, so there is
    never more nesting than tokens. -/
def decode (text : List Char) : Option Value :=
  (tokens text).bind (fun found =>
    (value (found.length + 1) found).bind (fun read => if read.2.isEmpty then some read.1 else none))

/-- A field of an object, by name. -/
def Value.field (name : String) : Value → Option Value
  | .object fields => (fields.find? (fun entry => entry.1 == name)).map Prod.snd
  | _ => none

/-! ### Spelling a character as an escape -/

def hexChar (digit : Nat) : Char := if digit < 10 then Char.ofNat (48 + digit) else Char.ofNat (87 + digit)

/-- `\u` and four hex digits. -/
def unicodeEscape (c : Char) : List Char :=
  ['\\','u',hexChar (c.toNat / 4096 % 16),hexChar (c.toNat / 256 % 16),hexChar (c.toNat / 16 % 16),
    hexChar (c.toNat % 16)]

/-- A printable character that means nothing to JSON: legal only inside a string. -/
def Inert (c : Char) : Prop :=
  0x20 ≤ c.toNat ∧ c.toNat < 0xD800 ∧ c ≠ '"' ∧ c ≠ '\\' ∧ isBlank c = false ∧ isWordChar c = false ∧
    mark? c = none ∧ hexDigit? c = none ∧ simpleEscape? c = none

instance (c : Char) : Decidable (Inert c) := by unfold Inert; infer_instance

/-- Spell the chosen characters as escapes. -/
def spellOut (chosen : Char → Bool) (text : List Char) : List Char :=
  text.flatMap (fun c => if chosen c then unicodeEscape c else [c])

private theorem hexDigit_hexChar : ∀ digit < 16, hexDigit? (hexChar digit) = some digit := by decide

private theorem hexValue_digits (code : Nat) (small : code < 65536) :
    hexValue [code % 16,code / 16 % 16,code / 256 % 16,code / 4096 % 16] = code := by
  simp only [hexValue,List.foldr_cons,List.foldr_nil]
  omega

variable {c : Char} {scan next : Scan}

private theorem inert_outside (inert : Inert c) (done : List Token) : outside done c = none := by
  obtain ⟨_,_,quote,_,blank,wordChar,mark,_,_⟩ := inert
  simp [outside,blank,quote,wordChar,mark]

/-- An inert character is read in the middle of a string and nowhere else. -/
theorem step_inert (inert : Inert c) (taken : step scan c = some next) :
    ∃ read, scan.mode = .text read ∧ next = ⟨scan.done,.text (c :: read)⟩ := by
  have nowhere := inert_outside inert
  obtain ⟨visible,_,quote,backslash,_,wordChar,_,hex,simple⟩ := inert
  have notU : c ≠ 'u' := by rintro rfl; exact absurd wordChar (by decide)
  unfold step at taken
  cases mode : scan.mode with
  | between => simp [mode,nowhere] at taken
  | word read => simp [mode,wordChar,nowhere] at taken
  | text read =>
    simp only [mode,quote,backslash,if_false,show ¬ c.toNat < 0x20 from by omega,Option.some.injEq] at taken
    exact ⟨read,rfl,taken.symm⟩
  | escape read => simp [mode,notU,simple] at taken
  | unicode read high digits => simp [mode,hex] at taken
  | paired read high => simp [mode,backslash] at taken
  | pairedEscape read high => simp [mode,notU] at taken

private theorem codeUnit_plain (small : c.toNat < 0xD800) (done : List Token) (read : List Char) :
    codeUnit done read none c.toNat = some ⟨done,.text (c :: read)⟩ := by
  have noHigh : ¬ 0xD800 ≤ c.toNat := by omega
  have noLow : ¬ 0xDC00 ≤ c.toNat := by omega
  simp [codeUnit,noHigh,noLow,Char.ofNat_toNat]

/-- In the middle of a string the escape of a character reads as the character. -/
theorem escape_reads (small : c.toNat < 0xD800) (done : List Token) (read : List Char) :
    (unicodeEscape c).foldlM step ⟨done,.text read⟩ = some ⟨done,.text (c :: read)⟩ := by
  have digit (number : Nat) : hexDigit? (hexChar (number % 16)) = some (number % 16) :=
    hexDigit_hexChar _ (Nat.mod_lt _ (by omega))
  have whole := hexValue_digits c.toNat (by omega)
  rw [← codeUnit_plain small,← whole]
  simp [unicodeEscape,step,digit,whole]

/-- Spelling inert characters out leaves every scan of the text as it was. -/
theorem scan_spellOut {chosen : Char → Bool} (inert : ∀ c, chosen c = true → Inert c) :
    ∀ (text : List Char) (scan final : Scan), text.foldlM step scan = some final →
      (spellOut chosen text).foldlM step scan = some final := by
  intro text
  induction text with
  | nil => intro scan final scanned; exact scanned
  | cons c rest ih =>
    intro scan final scanned
    rw [List.foldlM_cons] at scanned
    obtain ⟨middle,taken,remaining⟩ := Option.bind_eq_some_iff.mp scanned
    have tail := ih middle final remaining
    have unfolded : spellOut chosen (c :: rest) =
        (if chosen c then unicodeEscape c else [c]) ++ spellOut chosen rest := List.flatMap_cons
    rw [unfolded,List.foldlM_append]
    by_cases picked : chosen c = true
    · obtain ⟨read,mode,rfl⟩ := step_inert (inert c picked) taken
      have reads := escape_reads (inert c picked).2.1 scan.done read
      have here : scan = ⟨scan.done,.text read⟩ := by rw [← mode]
      rw [if_pos picked,here,reads]
      exact tail
    · rw [if_neg picked]
      simpa [taken] using tail

/-- What a text decodes to, it decodes to with inert characters spelled out. -/
theorem decode_spellOut {chosen : Char → Bool} (inert : ∀ c, chosen c = true → Inert c) {text : List Char}
    {found : Value} (decoded : decode text = some found) : decode (spellOut chosen text) = some found := by
  obtain ⟨list,scanned,read⟩ := Option.bind_eq_some_iff.mp decoded
  obtain ⟨final,folded,finished⟩ := Option.bind_eq_some_iff.mp scanned
  have same : tokens (spellOut chosen text) = some list := by
    unfold tokens
    rw [scan_spellOut inert text _ final folded]
    exact finished
  unfold decode
  rw [same]
  exact read

end Lib.Json
