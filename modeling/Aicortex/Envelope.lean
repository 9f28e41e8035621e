import Aicortex.IdText
import Aicortex.Lifecycle

/-!
The outbound boundary of recall. Every memory leaves inside an envelope: an opening
line with its id, one JSON record, a closing line with the same id. The record is
what `serde_json` writes with three characters spelled as escapes, so stored text
cannot close the envelope it stands in.
-/

namespace Aicortex.Envelope
open Lib.Json
open Aicortex.Text Aicortex.IdText Aicortex.Memories
open Aicortex.Claims hiding Unit
open Aicortex.Lifecycle (actorLabel)
set_option linter.unusedSimpArgs false

/-- A memory and the erasure marker read beside it. -/
structure EnvelopeInput where
  memory : Memory
  originErased : Bool

structure MemoryEnvelope where
  text : String
  deriving Repr, DecidableEq

structure FramedMemories where
  memories : List MemoryEnvelope
  deriving Repr, DecidableEq

structure EnvelopeData where
  id : MemoryId
  trustClass : String
  actorKind : String
  source : SourceRef
  capturedAt : UnixSeconds
  originErased : Option Bool
  derivedFrom : List MemoryId
  body : MemoryBody
  deriving DecidableEq

def trustLabel : TrustClass → String
  | .evidence => "evidence"
  | .assertion => "assertion"
  | .instruction _ => "instruction"

def envelopeData (input : EnvelopeInput) : EnvelopeData where
  id := input.memory.id
  trustClass := trustLabel input.memory.trust
  actorKind := actorLabel input.memory.actor.kind
  source := input.memory.provenance.source
  capturedAt := input.memory.provenance.capturedAt
  originErased := if input.originErased then some true else none
  derivedFrom := input.memory.provenance.derivedFrom
  body := input.memory.body

/-- Put another text in the place of every occurrence of a character. -/
def replace (c : Char) (other : String) (text : String) : String :=
  String.ofList (text.toList.flatMap (fun d => if d = c then other.toList else [d]))

def escaped (record : String) : String :=
  replace '>' "\\u003e" (replace '<' "\\u003c" (replace '&' "\\u0026" record))

def opening (id : MemoryId) : String := s!"<<<AICORTEX_MEMORY {id.hyphenated}>>>"
def closing (id : MemoryId) : String := s!"<<<END_AICORTEX_MEMORY {id.hyphenated}>>>"

section Framing
variable {ε : Type} (serialized : EnvelopeData → Except ε String)

def frame (input : EnvelopeInput) : Except ε MemoryEnvelope := do
  let record ← serialized (envelopeData input)
  .ok ⟨opening input.memory.id ++ "\n" ++ escaped record ++ "\n" ++ closing input.memory.id⟩

/-- Envelope every memory; `serialized` is `serde_json::to_string`. -/
def frameMemories (memories : List EnvelopeInput) : Except ε FramedMemories := do
  let envelopes ← memories.mapM (frame serialized)
  .ok ⟨envelopes⟩

end Framing

/-! ### The records as JSON values -/

def optionalField (name : String) (found : Option Value) : List (String × Value) :=
  (found.map (fun value => (name,value))).toList

def numberValue (number : Nat) : Value := .number (Nat.toDigits 10 number)

def idValue (id : MemoryId) : Value := .string id.hyphenated

def mediaValue (media : MediaRef) : Value :=
  .object ([("digest",.string media.digest.text),("media_type",.string media.mediaType)] ++
    optionalField "bytes" (media.bytes.map numberValue))

/-- No media is left out of the record altogether. -/
def mediaListValue (media : List MediaRef) : Option Value :=
  if media.isEmpty then none else some (.array (media.map mediaValue))

def bodyValue (body : MemoryBody) : Value :=
  .object ([("text",.string body.text)] ++ optionalField "title" (body.title.map .string) ++
    optionalField "media" (mediaListValue body.media))

def sourceValue (source : SourceRef) : Value :=
  .object ([("system",.string source.system.text)] ++ optionalField "external_id" (source.externalId.map .string) ++
    optionalField "locator" (source.locator.map .string))

def dataValue (data : EnvelopeData) : Value :=
  .object ([("id",idValue data.id),("trust_class",.string data.trustClass),("actor_kind",.string data.actorKind),
    ("source",sourceValue data.source),("captured_at",numberValue data.capturedAt)] ++
    optionalField "origin_erased" (data.originErased.map .bool) ++
    [("derived_from",.array (data.derivedFrom.map idValue)),("body",bodyValue data.body)])

/-! ### Reading a record back -/

def readText : Value → Option String
  | .string text => some text
  | _ => none

def readBool : Value → Option Bool
  | .bool found => some found
  | _ => none

def readNumber : Value → Option Nat
  | .number lexeme => if lexeme.all Char.isDigit then some (Nat.ofDigitChars 10 lexeme 0) else none
  | _ => none

def readList {α : Type} (read : Value → Option α) : Value → Option (List α)
  | .array items => items.mapM read
  | _ => none

/-- A field that may be absent. -/
def readOptional {α : Type} (name : String) (read : Value → Option α) (record : Value) : Option (Option α) :=
  match record.field name with
  | none => some none
  | some found => (read found).map some

def readId (record : Value) : Option MemoryId := (readText record).bind ofHyphenated

def readChecked (field : String) (check : String → String → Except TypeError Unit) (record : Value) :
    Option (CheckedString field check) := do
  let text ← readText record
  (CheckedString.new field check text).toOption

def readMedia (record : Value) : Option MediaRef := do
  let digest ← (record.field "digest").bind (readChecked "media.digest" mediaDigest)
  let mediaType ← (record.field "media_type").bind readText
  let bytes ← readOptional "bytes" readNumber record
  some ⟨digest,mediaType,bytes⟩

def readBody (record : Value) : Option MemoryBody := do
  let text ← (record.field "text").bind readText
  let title ← readOptional "title" readText record
  let media ← readOptional "media" (readList readMedia) record
  some ⟨text,title,media.getD []⟩

def readSource (record : Value) : Option SourceRef := do
  let system ← (record.field "system").bind (readChecked "source.system" sourceSystem)
  let externalId ← readOptional "external_id" readText record
  let locator ← readOptional "locator" readText record
  some ⟨system,externalId,locator⟩

def readData (record : Value) : Option EnvelopeData := do
  let id ← (record.field "id").bind readId
  let trustClass ← (record.field "trust_class").bind readText
  let actorKind ← (record.field "actor_kind").bind readText
  let source ← (record.field "source").bind readSource
  let capturedAt ← (record.field "captured_at").bind readNumber
  let originErased ← readOptional "origin_erased" readBool record
  let derivedFrom ← (record.field "derived_from").bind (readList readId)
  let body ← (record.field "body").bind readBody
  some ⟨id,trustClass,actorKind,source,capturedAt,originErased,derivedFrom,body⟩

/-- JSON-decode a record line. -/
def decodeRecord (line : String) : Option EnvelopeData := (decode line.toList).bind readData

theorem readNumber_numberValue (number : Nat) : readNumber (numberValue number) = some number := by
  have digits : (Nat.toDigits 10 number).all Char.isDigit = true :=
    List.all_eq_true.mpr (fun c within => Nat.isDigit_of_mem_toDigits (by omega) (by omega) within)
  simp [readNumber,numberValue,digits,Nat.ofDigitChars_ten_toDigits]

theorem readId_idValue (id : MemoryId) : readId (idValue id) = some id := by
  unfold readId idValue readText
  rw [Option.bind_some,ofHyphenated_hyphenated]

theorem readChecked_text {field : String} {check : String → String → Except TypeError Unit}
    (checked : CheckedString field check) : readChecked field check (.string checked.text) = some checked := by
  have wrapped := (CheckedString.new_ok_iff checked.text checked).mpr
    ⟨checked.legal,rfl⟩
  simp [readChecked,readText,wrapped,Except.toOption]

theorem readList_map {α : Type} {read : Value → Option α} {write : α → Value}
    (back : ∀ item, read (write item) = some item) (items : List α) :
    readList read (.array (items.map write)) = some items := by
  unfold readList
  induction items with
  | nil => rfl
  | cons item rest ih => simp [List.mapM_cons,back,ih]

theorem readMedia_mediaValue (media : MediaRef) : readMedia (mediaValue media) = some media := by
  obtain ⟨digest,mediaType,bytes⟩ := media
  cases bytes <;>
    simp [readMedia,mediaValue,optionalField,Value.field,readOptional,readChecked_text,readNumber_numberValue,readText]

theorem readBody_bodyValue (body : MemoryBody) : readBody (bodyValue body) = some body := by
  obtain ⟨text,title,media⟩ := body
  have listed := readList_map readMedia_mediaValue media
  cases title <;> cases media <;>
    simp_all [readBody,bodyValue,mediaListValue,optionalField,Value.field,readOptional,readText]

theorem readSource_sourceValue (source : SourceRef) : readSource (sourceValue source) = some source := by
  obtain ⟨system,externalId,locator⟩ := source
  cases externalId <;> cases locator <;>
    simp [readSource,sourceValue,optionalField,Value.field,readOptional,readChecked_text,readText]

/-- The record says everything the data says, also where fields are left out of it. -/
theorem readData_dataValue (data : EnvelopeData) : readData (dataValue data) = some data := by
  obtain ⟨id,trustClass,actorKind,source,capturedAt,originErased,derivedFrom,body⟩ := data
  have parents := readList_map readId_idValue derivedFrom
  cases originErased <;>
    simp [readData,dataValue,optionalField,Value.field,readOptional,readText,readBool,readId_idValue,
      readSource_sourceValue,readNumber_numberValue,readBody_bodyValue,parents]

/-! ### The envelope -/

private def special (c : Char) : Bool := c == '&' || c == '<' || c == '>'

private theorem special_inert : ∀ c, special c = true → Inert c := by
  intro c chosen
  simp only [special,Bool.or_eq_true,beq_iff_eq] at chosen
  rcases chosen with (rfl | rfl) | rfl <;> decide

private theorem replace_toList (c : Char) (other text : String) :
    (replace c other text).toList = text.toList.flatMap (fun d => if d = c then other.toList else [d]) := by
  simp [replace]

/-- The three replacements do not meet each other's output: together they spell the
    three characters out at once. -/
theorem escaped_toList (record : String) : (escaped record).toList = spellOut special record.toList := by
  have ampersand : "\\u0026".toList = unicodeEscape '&' := by decide
  have less : "\\u003c".toList = unicodeEscape '<' := by decide
  have greater : "\\u003e".toList = unicodeEscape '>' := by decide
  simp only [escaped,replace_toList,ampersand,less,greater,spellOut,List.flatMap_assoc]
  congr 1
  funext c
  by_cases isAmpersand : c = '&'
  · subst isAmpersand
    decide
  by_cases isLess : c = '<'
  · subst isLess
    decide
  by_cases isGreater : c = '>'
  · subst isGreater
    decide
  · simp [special,isAmpersand,isLess,isGreater]

/-- What the escaped record is free of. -/
def Enclosable (c : Char) : Prop := c ≠ '<' ∧ c ≠ '>' ∧ c ≠ '&' ∧ c ≠ '\n'

instance (c : Char) : Decidable (Enclosable c) := by unfold Enclosable; infer_instance

private theorem unicodeEscape_enclosable {c : Char} (chosen : special c = true) :
    ∀ d ∈ unicodeEscape c, Enclosable d := by
  have three : c = '&' ∨ c = '<' ∨ c = '>' := by simpa [special,or_assoc] using chosen
  have all : (unicodeEscape c).all (fun d => decide (Enclosable d)) = true := by
    rcases three with rfl | rfl | rfl <;> decide
  intro d within
  exact of_decide_eq_true (List.all_eq_true.mp all d within)

theorem escaped_enclosable {record : String} (printable : ∀ c ∈ record.toList, 0x20 ≤ c.toNat) :
    ∀ c ∈ (escaped record).toList, Enclosable c := by
  intro c within
  rw [escaped_toList] at within
  obtain ⟨original,origin,placed⟩ := List.mem_flatMap.mp within
  by_cases chosen : special original = true
  · rw [if_pos chosen] at placed
    exact unicodeEscape_enclosable chosen c placed
  · rw [if_neg chosen,List.mem_singleton] at placed
    subst placed
    have visible := printable c origin
    refine ⟨?_,?_,?_,?_⟩
    · rintro rfl; exact chosen (by decide)
    · rintro rfl; exact chosen (by decide)
    · rintro rfl; exact chosen (by decide)
    · rintro rfl; exact absurd visible (by decide)

/-- At how many places of a text a pattern stands. -/
def occurrences (pattern : List Char) : List Char → Nat
  | [] => if pattern.isEmpty then 1 else 0
  | c :: rest => (if pattern.isPrefixOf (c :: rest) then 1 else 0) + occurrences pattern rest

private theorem occurrences_skip {first : Char} (pattern front rest : List Char) (absent : ∀ c ∈ front, c ≠ first) :
    occurrences (first :: pattern) (front ++ rest) = occurrences (first :: pattern) rest := by
  induction front with
  | nil => rfl
  | cons c front ih =>
    have other : (first == c) = false := by
      have := absent c (List.mem_cons_self ..)
      simp [this.symm]
    have tail := ih (fun d within => absent d (List.mem_cons_of_mem c within))
    simp [occurrences,List.isPrefixOf,other,tail]

section Delimiters
variable {a b : Char} {front middle back : List Char}

/-- Two lines that start with three angle brackets and a letter each, with no opening
    bracket anywhere else: either stands in the text once. -/
private theorem bracketed_once (different : a ≠ b) (plainA : a ≠ '<') (plainB : b ≠ '<')
    (plainFront : ∀ c ∈ front, c ≠ '<') (plainMiddle : ∀ c ∈ middle, c ≠ '<') (plainBack : ∀ c ∈ back, c ≠ '<') :
    let text := '<' :: '<' :: '<' :: a :: front ++ middle ++ '<' :: '<' :: '<' :: b :: back
    occurrences ('<' :: '<' :: '<' :: a :: front) text = 1 ∧ occurrences ('<' :: '<' :: '<' :: b :: back) text = 1 := by
  have notA : ('<' == a) = false := by simp [plainA.symm]
  have notB : ('<' == b) = false := by simp [plainB.symm]
  have forward : (a == b) = false := by simp [different]
  have backward : (b == a) = false := by simp [different.symm]
  have start (pattern rest : List Char) : occurrences ('<' :: pattern) (front ++ (middle ++ rest)) =
      occurrences ('<' :: pattern) rest := by
    rw [occurrences_skip pattern front _ plainFront,occurrences_skip pattern middle _ plainMiddle]
  have finish (pattern : List Char) : occurrences ('<' :: pattern) back = 0 := by
    simpa [occurrences] using occurrences_skip pattern back [] plainBack
  constructor
  · simp [occurrences,List.isPrefixOf,notA,notB,forward,start,finish]
  · simp [occurrences,List.isPrefixOf,notA,notB,backward,start,finish]

end Delimiters

private theorem hyphenated_plain (id : MemoryId) : ∀ c ∈ id.hyphenated.toList, c ≠ '<' := by
  rintro c within rfl
  rcases hyphenated_chars id '<' within with dash | isHex
  · exact absurd dash (by decide)
  · exact absurd isHex (by decide)

private theorem opening_toList (id : MemoryId) :
    (opening id).toList =
      '<' :: '<' :: '<' :: 'A' :: ("ICORTEX_MEMORY ".toList ++ id.hyphenated.toList ++ ">>>".toList) := by
  have start : "<<<AICORTEX_MEMORY ".toList = '<' :: '<' :: '<' :: 'A' :: "ICORTEX_MEMORY ".toList := by decide
  unfold opening
  simp only [toString_text,String.toList_append]
  generalize id.hyphenated.toList = digits
  rw [start]
  simp only [List.cons_append]

private theorem closing_toList (id : MemoryId) :
    (closing id).toList =
      '<' :: '<' :: '<' :: 'E' :: ("ND_AICORTEX_MEMORY ".toList ++ id.hyphenated.toList ++ ">>>".toList) := by
  have start : "<<<END_AICORTEX_MEMORY ".toList = '<' :: '<' :: '<' :: 'E' :: "ND_AICORTEX_MEMORY ".toList := by decide
  unfold closing
  simp only [toString_text,String.toList_append]
  generalize id.hyphenated.toList = digits
  rw [start]
  simp only [List.cons_append]

/-- What a decoded record says of the memory. -/
structure Says (input : EnvelopeInput) (data : EnvelopeData) : Prop where
  id : data.id = input.memory.id
  trust : data.trustClass = trustLabel input.memory.trust
  actor : data.actorKind = actorLabel input.memory.actor.kind
  source : data.source = input.memory.provenance.source
  captured : data.capturedAt = input.memory.provenance.capturedAt
  marker : data.originErased = if input.originErased then some true else none
  parents : data.derivedFrom = input.memory.provenance.derivedFrom
  body : data.body = input.memory.body

/-- An envelope of a memory: two delimiter lines around one record line that holds
    nothing a delimiter is made of and decodes to what the memory says. -/
structure Encloses (input : EnvelopeInput) (envelope : MemoryEnvelope) (record : String) : Prop where
  lines : envelope.text = opening input.memory.id ++ "\n" ++ record ++ "\n" ++ closing input.memory.id
  plain : ∀ c ∈ record.toList, Enclosable c
  opensOnce : occurrences (opening input.memory.id).toList envelope.text.toList = 1
  closesOnce : occurrences (closing input.memory.id).toList envelope.text.toList = 1
  decodes : ∃ data, decodeRecord record = some data ∧ Says input data

theorem delimiters_once {id : MemoryId} {record : String} (plain : ∀ c ∈ record.toList, Enclosable c) :
    occurrences (opening id).toList (opening id ++ "\n" ++ record ++ "\n" ++ closing id).toList = 1 ∧
      occurrences (closing id).toList (opening id ++ "\n" ++ record ++ "\n" ++ closing id).toList = 1 := by
  have plainText (text : String) (absent : text.toList.all (· != '<') = true) : ∀ c ∈ text.toList, c ≠ '<' := by
    intro c within
    simpa using List.all_eq_true.mp absent c within
  have plainLine (front : String) (absent : front.toList.all (· != '<') = true) :
      ∀ c ∈ front.toList ++ id.hyphenated.toList ++ ">>>".toList, c ≠ '<' := by
    intro c within
    simp only [List.mem_append] at within
    rcases within with (early | middle) | late
    · exact plainText front absent c early
    · exact hyphenated_plain id c middle
    · exact plainText ">>>" (by decide) c late
  have plainMiddle : ∀ c ∈ '\n' :: record.toList ++ ['\n'], c ≠ '<' := by
    intro c within
    simp only [List.cons_append,List.mem_append,List.mem_cons,List.not_mem_nil,or_false] at within
    rcases within with rfl | inside | rfl
    · decide
    · exact (plain c inside).1
    · decide
  have newline : "\n".toList = ['\n'] := by decide
  have once := bracketed_once (a := 'A') (b := 'E') (by decide) (by decide) (by decide)
    (plainLine "ICORTEX_MEMORY " (by decide)) plainMiddle (plainLine "ND_AICORTEX_MEMORY " (by decide))
  simp only [String.toList_append,opening_toList,closing_toList,newline]
  simpa only [List.append_assoc,List.cons_append,List.nil_append] using once

/-- What `serde_json` is relied on for: it returns a text, the text is the JSON of the
    data, and control characters are escaped in it. -/
structure Writes {ε : Type} (serialized : EnvelopeData → Except ε String) (data : EnvelopeData) (record : String) :
    Prop where
  returned : serialized data = .ok record
  valid : decode record.toList = some (dataValue data)
  printable : ∀ c ∈ record.toList, 0x20 ≤ c.toNat

variable {ε : Type} {serialized : EnvelopeData → Except ε String}

theorem frame_encloses {input : EnvelopeInput} {record : String}
    (written : Writes serialized (envelopeData input) record) :
    ∃ envelope, frame serialized input = .ok envelope ∧ Encloses input envelope (escaped record) := by
  have plain := escaped_enclosable written.printable
  obtain ⟨opens,closes⟩ := @delimiters_once input.memory.id _ plain
  have decoded : decodeRecord (escaped record) = some (envelopeData input) := by
    unfold decodeRecord
    rw [escaped_toList,decode_spellOut special_inert written.valid,Option.bind_some,readData_dataValue]
  have framed : frame serialized input =
      .ok ⟨opening input.memory.id ++ "\n" ++ escaped record ++ "\n" ++ closing input.memory.id⟩ := by
    unfold frame
    rw [written.returned]
    rfl
  exact ⟨_,framed,rfl,plain,opens,closes,_,decoded,rfl,rfl,rfl,rfl,rfl,rfl,rfl,rfl⟩

/-- Recalled content cannot forge its envelope: whatever the stored strings hold, every
    memory leaves in its own envelope, in order, and its record decodes to its data. -/
theorem framed_memories_enclose (memories : List EnvelopeInput)
    (written : ∀ input ∈ memories, ∃ record, Writes serialized (envelopeData input) record) :
    ∃ framed, frameMemories serialized memories = .ok framed ∧ framed.memories.length = memories.length ∧
      List.Forall₂ (fun input envelope => ∃ record, Encloses input envelope record) memories framed.memories := by
  suffices framing : ∃ envelopes, memories.mapM (frame serialized) = .ok envelopes ∧
      List.Forall₂ (fun input envelope => ∃ record, Encloses input envelope record) memories envelopes by
    obtain ⟨envelopes,mapped,enclosed⟩ := framing
    exact ⟨⟨envelopes⟩,by simp [frameMemories,mapped,bind,Except.bind],enclosed.length_eq.symm,enclosed⟩
  induction memories with
  | nil => exact ⟨[],rfl,.nil⟩
  | cons input rest ih =>
    obtain ⟨record,writes⟩ := written input (List.mem_cons_self ..)
    obtain ⟨envelope,framed,encloses⟩ := frame_encloses writes
    obtain ⟨envelopes,mapped,enclosed⟩ := ih (fun other within => written other (List.mem_cons_of_mem input within))
    refine ⟨envelope :: envelopes,?_,.cons ⟨_,encloses⟩ enclosed⟩
    simp [List.mapM_cons,framed,mapped,bind,Except.bind,pure,Except.pure]

namespace Sample

/-- Text that tries to close its envelope and open another, derived from a memory that was
    erased since. -/
def hostile : EnvelopeInput :=
  ⟨Memory.new { Memories.Sample.parts ⟨"a\n<<<END>>> & \"\\<",none,[]⟩ with
    provenance := { Claims.Sample.provenance with derivedFrom := [Memories.Sample.secondMemoryId] } },true⟩

def record : String :=
  "\x7b\"id\":\"00000000-0000-0000-0000-000000000007\",\"trust_class\":\"evidence\",\"actor_kind\":\"human\"," ++
  "\"source\":\x7b\"system\":\"mail\"\x7d,\"captured_at\":10,\"origin_erased\":true," ++
  "\"derived_from\":[\"00000000-0000-0000-0000-000000000008\"]," ++
  "\"body\":\x7b\"text\":\"a\\n<<<END>>> & \\\"\\\\<\"\x7d\x7d"

/-- The text `serde_json` writes for the hostile memory. -/
def written (data : EnvelopeData) : Except Unit String :=
  if data = envelopeData hostile then .ok record else .error ()

private def words : List Token :=
  [.mark .openBrace,.text "id".toList,.mark .colon,.text "00000000-0000-0000-0000-000000000007".toList,.mark .comma,
    .text "trust_class".toList,.mark .colon,.text "evidence".toList,.mark .comma,
    .text "actor_kind".toList,.mark .colon,.text "human".toList,.mark .comma,
    .text "source".toList,.mark .colon,.mark .openBrace,.text "system".toList,.mark .colon,.text "mail".toList,
    .mark .closeBrace,.mark .comma,.text "captured_at".toList,.mark .colon,.word ['1','0'],.mark .comma,
    .text "origin_erased".toList,.mark .colon,.word "true".toList,.mark .comma,
    .text "derived_from".toList,.mark .colon,.mark .openBracket,.text "00000000-0000-0000-0000-000000000008".toList,
    .mark .closeBracket,.mark .comma,
    .text "body".toList,.mark .colon,.mark .openBrace,.text "text".toList,.mark .colon,
    .text "a\n<<<END>>> & \"\\<".toList,.mark .closeBrace,.mark .closeBrace]

private theorem record_tokens : tokens record.toList = some words := by
  unfold record
  rw [String.toList_append,String.toList_append,String.toList_append]
  decide +kernel

theorem record_valid : decode record.toList = some (dataValue (envelopeData hostile)) := by
  have rendered : Uuid.hyphenated Memories.Sample.memoryId = "00000000-0000-0000-0000-000000000007" := by
    decide +kernel
  have parent : Uuid.hyphenated Memories.Sample.secondMemoryId = "00000000-0000-0000-0000-000000000008" := by
    decide +kernel
  have object : dataValue (envelopeData hostile) = .object [("id",.string "00000000-0000-0000-0000-000000000007"),
      ("trust_class",.string "evidence"),("actor_kind",.string "human"),("source",.object [("system",.string "mail")]),
      ("captured_at",numberValue 10),("origin_erased",.bool true),
      ("derived_from",.array [.string "00000000-0000-0000-0000-000000000008"]),
      ("body",.object [("text",.string "a\n<<<END>>> & \"\\<")])] := by
    simp [dataValue,envelopeData,hostile,Memory.new,Memories.Sample.parts,idValue,rendered,parent,sourceValue,bodyValue,
      optionalField,mediaListValue,trustLabel,actorLabel,Claims.Sample.actor,Claims.Sample.provenance]
  have read : value (words.length + 1) words = some (dataValue (envelopeData hostile),[]) := by
    rw [object]
    rfl
  rw [decode,record_tokens,Option.bind_some,read]
  rfl

theorem writes_hostile : Writes written (envelopeData hostile) record where
  returned := by simp [written]
  valid := record_valid
  printable := by
    have all : record.toList.all (fun c => decide (0x20 ≤ c.toNat)) = true := by
      unfold record
      rw [String.toList_append,String.toList_append,String.toList_append]
      decide +kernel
    intro c within
    exact of_decide_eq_true (List.all_eq_true.mp all c within)

end Sample

theorem framed_memories_enclose_hostile :
    ∃ envelope record data, frameMemories Sample.written [Sample.hostile] = .ok ⟨[envelope]⟩ ∧
      Encloses Sample.hostile envelope record ∧ decodeRecord record = some data ∧
      data.body.text = "a\n<<<END>>> & \"\\<" ∧ data.derivedFrom = [Memories.Sample.secondMemoryId] ∧
      data.originErased = some true := by
  obtain ⟨⟨envelopes⟩,framed,-,enclosed⟩ := framed_memories_enclose [Sample.hostile] (fun _ within => by
    cases List.mem_singleton.mp within
    exact ⟨Sample.record,Sample.writes_hostile⟩)
  obtain ⟨envelope,_,⟨record,encloses⟩,none',rfl⟩ := List.forall₂_cons_left_iff.mp enclosed
  cases none'
  obtain ⟨data,decoded,told⟩ := encloses.decodes
  exact ⟨envelope,record,data,framed,encloses,decoded,by rw [told.body]; rfl,told.parents,told.marker⟩

end Aicortex.Envelope
