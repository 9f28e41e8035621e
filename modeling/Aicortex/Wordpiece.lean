import Aicortex.ChunkSpans
import Aicortex.Lib.LongestMatch

/-!
The WordPiece tokenizer of the local sentence models. A text is normalized, cut into
words, and each word into the longest pieces the vocabulary has; a word that cannot be
cut so is the one unknown token. Offsets into a word count the bytes of its UTF-8 form.
The Unicode tables and the reader of the document are linked code and are parameters here.
-/

namespace Aicortex.Wordpiece
open Aicortex.Text Aicortex.Chunking Lib.Ordered Lib.Offsets Lib.LongestMatch
set_option linter.unusedSimpArgs false

/-! ### The linked tables -/

inductive GeneralCategory where
  | closePunctuation
  | connectorPunctuation
  | control
  | currencySymbol
  | dashPunctuation
  | decimalNumber
  | enclosingMark
  | finalPunctuation
  | format
  | initialPunctuation
  | letterNumber
  | lineSeparator
  | lowercaseLetter
  | mathSymbol
  | modifierLetter
  | modifierSymbol
  | nonspacingMark
  | openPunctuation
  | otherLetter
  | otherNumber
  | otherPunctuation
  | otherSymbol
  | paragraphSeparator
  | privateUse
  | spaceSeparator
  | spacingMark
  | surrogate
  | titlecaseLetter
  | unassigned
  | uppercaseLetter
  deriving Repr, DecidableEq

/-- Canonical decomposition, the categories, and the lower case of what is not ascii. -/
structure UnicodeTables where
  nfd : String → List Char
  generalCategory : Char → GeneralCategory
  lowercase : Char → List Char

section
variable (tables : UnicodeTables)

def toLowercase (c : Char) : List Char := if c.toNat < 0x80 then [c.toLower] else tables.lowercase c

def isCombiningMark (c : Char) : Bool := tables.generalCategory c == .nonspacingMark

def isAsciiPunctuation (c : Char) : Bool :=
  let code := c.toNat
  (0x21 ≤ code && code ≤ 0x2F) || (0x3A ≤ code && code ≤ 0x40) || (0x5B ≤ code && code ≤ 0x60) ||
    (0x7B ≤ code && code ≤ 0x7E)

/-- Every ascii symbol and category `P`. -/
def isPunctuation (c : Char) : Bool :=
  isAsciiPunctuation c ||
    [GeneralCategory.connectorPunctuation,.dashPunctuation,.openPunctuation,.closePunctuation,.initialPunctuation,
      .finalPunctuation,.otherPunctuation].contains (tables.generalCategory c)

/-- Control and format characters; the blank ones among them are kept as separators. -/
def isRemovableControl (c : Char) : Bool :=
  c.toNat == 0 || c.toNat == 0xFFFD ||
    (!isWhitespace c && [GeneralCategory.control,.format].contains (tables.generalCategory c))

def isCjk (c : Char) : Bool :=
  let code := c.toNat
  (0x4E00 ≤ code && code ≤ 0x9FFF) || (0x3400 ≤ code && code ≤ 0x4DBF) || (0x20000 ≤ code && code ≤ 0x2A6DF) ||
    (0x2A700 ≤ code && code ≤ 0x2B73F) || (0x2B740 ≤ code && code ≤ 0x2B81F) || (0x2B820 ≤ code && code ≤ 0x2CEAF) ||
    (0xF900 ≤ code && code ≤ 0xFAFF) || (0x2F800 ≤ code && code ≤ 0x2FA1F)

end

/-! ### The document -/

structure Component where
  kind : String
  lowercase : Option Bool
  stripAccents : Option Bool
  cleanText : Option Bool
  handleChineseChars : Option Bool

structure ModelSection where
  kind : String
  unkToken : Option String
  continuingSubwordPrefix : Option String
  maxInputCharsPerWord : Option Nat
  vocab : OrdMap String UInt32

structure Document where
  normalizer : Option Component
  preTokenizer : Option Component
  model : ModelSection

def defaultPrefix : String := "##"
def defaultMaxWordChars : Nat := 100

inductive TokenizerError where
  | config (message : List Piece)
  deriving Repr, DecidableEq

/-- A tokenizer whose unknown token is one of its vocabulary. -/
structure WordPiece where
  vocab : OrdMap String UInt32
  unkId : UInt32
  subwordPrefix : String
  maxWordChars : Nat
  lowercase : Bool
  stripAccents : Bool
  cleanText : Bool
  splitCjk : Bool
  splitPunctuation : Bool
  known : ∃ token, vocab.find? token = some unkId

/-- Lower case, accents, cleaning and ideographs, as the normalizer has them. -/
def normalizerOf : Option Component → Except TokenizerError (Bool × Bool × Bool × Bool)
  | none => .ok (false,false,false,false)
  | some component =>
    if component.kind = "BertNormalizer" then
      let lowercase := component.lowercase.getD true
      .ok (lowercase,component.stripAccents.getD lowercase,component.cleanText.getD true,component.handleChineseChars.getD true)
    else .error (.config [.lit "tokenizer normalizer ",.quoted component.kind,.lit " is unsupported"])

/-- Whether punctuation is split off. -/
def preTokenizerOf : Option Component → Except TokenizerError Bool
  | none => .ok false
  | some component =>
    if component.kind = "BertPreTokenizer" then .ok true
    else .error (.config [.lit "tokenizer pre-tokenizer ",.quoted component.kind,.lit " is unsupported"])

/-- The supported subset of a parsed document. -/
def fromDocument (document : Document) : Except TokenizerError WordPiece := do
  if document.model.kind ≠ "WordPiece" then
    throw (.config [.lit "tokenizer model ",.quoted document.model.kind,.lit " is unsupported; only WordPiece is"])
  let (lowercase,stripAccents,cleanText,splitCjk) ← normalizerOf document.normalizer
  let splitPunctuation ← preTokenizerOf document.preTokenizer
  let unk := document.model.unkToken.getD "[UNK]"
  match found : document.model.vocab.find? unk with
  | none => throw (.config [.lit "tokenizer vocabulary has no unknown token ",.quoted unk])
  | some unkId =>
    return {
      vocab := document.model.vocab
      unkId := unkId
      subwordPrefix := document.model.continuingSubwordPrefix.getD defaultPrefix
      maxWordChars := document.model.maxInputCharsPerWord.getD defaultMaxWordChars
      lowercase := lowercase
      stripAccents := stripAccents
      cleanText := cleanText
      splitCjk := splitCjk
      splitPunctuation := splitPunctuation
      known := ⟨unk,found⟩
    }

def fromJson (parse : List UInt8 → Except String Document) (bytes : List UInt8) : Except TokenizerError WordPiece :=
  match parse bytes with
  | .error error => .error (.config [.lit s!"tokenizer.json is not valid: {error}"])
  | .ok document => fromDocument document

/-! ### Encoding -/

namespace WordPiece
section
variable (tokenizer : WordPiece)

/-- One more than the largest id of the vocabulary. -/
def idBound : Nat := (tokenizer.vocab.values.map UInt32.toNat).max?.elim 0 (fun max => min (max + 1) (2 ^ 64 - 1))

/-- What one character is normalized to. -/
def normalizeChar (tables : UnicodeTables) (c : Char) : List Char :=
  if tokenizer.cleanText && isRemovableControl tables c then []
  else if tokenizer.splitCjk && isCjk c then [' ',c,' ']
  else if tokenizer.lowercase then toLowercase tables c
  else [c]

def normalize (tables : UnicodeTables) (text : String) : List Char :=
  let chars := if tokenizer.stripAccents then (tables.nfd text).filter (fun c => !isCombiningMark tables c) else text.toList
  chars.flatMap (tokenizer.normalizeChar tables)

/-- The word so far, if there is one, becomes a word. -/
def flush (current : List Char) (words : List String) : List String :=
  if current = [] then words else words ++ [String.ofList current]

/-- One character of the normalized text, against the word so far and the words before it. -/
def splitChar (tables : UnicodeTables) (state : List Char × List String) (c : Char) : List Char × List String :=
  if isWhitespace c then ([],flush state.1 state.2)
  else if tokenizer.splitPunctuation && isPunctuation tables c then ([],flush state.1 state.2 ++ [String.singleton c])
  else (state.1 ++ [c],state.2)

def words (tables : UnicodeTables) (text : String) : List String :=
  let state := (tokenizer.normalize tables text).foldl (tokenizer.splitChar tables) ([],[])
  flush state.1 state.2

/-- The offset after each character. -/
def charEnds : List Char → Nat → List Nat
  | [], _ => []
  | c :: rest, index => (index + c.utf8Size) :: charEnds rest (index + c.utf8Size)

/-- The ends past a start, the last one first. -/
def ends (word : String) (start : Nat) : List Nat :=
  ((charEnds word.toList 0).filter (fun stop => decide (start < stop))).reverse

def slice (word : String) (start stop : Nat) : Option String :=
  if start ≤ stop then ((dropBytes word.toList start).bind (takeBytes · (stop - start))).map String.ofList else none

/-- A piece past the start of the word is looked up behind the continuation mark. -/
def lookup (start : Nat) (slice : String) : Option UInt32 :=
  if start = 0 then tokenizer.vocab.find? slice else tokenizer.vocab.find? (tokenizer.subwordPrefix ++ slice)

/-- The id and the end of the piece at an offset. -/
def findPiece (word : String) (start : Nat) : Option (UInt32 × Nat) :=
  (ends word start).findSome? (fun stop =>
    (slice word start stop).bind (fun piece => (tokenizer.lookup start piece).map (·,stop)))

/-- The loop over the starts. Each is past the one before, so as much fuel as the word
    has bytes left is enough. -/
def piecesFrom (word : String) : Nat → Nat → List UInt32 → Option (List UInt32)
  | 0, _, pieces => some pieces
  | fuel + 1, start, pieces =>
    if start < byteLen word then
      match tokenizer.findPiece word start with
      | some (id,stop) => piecesFrom word fuel stop (pieces ++ [id])
      | none => none
    else some pieces

def pushWord (word : String) (ids : List UInt32) : List UInt32 :=
  if tokenizer.maxWordChars < word.length then ids ++ [tokenizer.unkId]
  else
    match tokenizer.piecesFrom word (byteLen word) 0 [] with
    | some pieces => ids ++ pieces
    | none => ids ++ [tokenizer.unkId]

/-- The loop over the words stops where the limit is reached. -/
def pushWords (limit : Nat) : List String → List UInt32 → List UInt32
  | [], ids => ids
  | word :: rest, ids => if limit ≤ ids.length then ids else pushWords limit rest (tokenizer.pushWord word ids)

/-- Token ids for a text, at most so many. -/
def encode (tables : UnicodeTables) (text : String) (limit : Nat) : List UInt32 :=
  (tokenizer.pushWords limit (tokenizer.words tables text) []).take limit

end
end WordPiece

end Aicortex.Wordpiece
