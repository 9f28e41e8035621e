import Aicortex.IdText
import Aicortex.ValueWire

/-!
The wire forms of whole claims and of the evidence for them. A claim is kept exactly when
its value, its predicate reference and its spans are.
-/

namespace Aicortex.ClaimWire
open Aicortex.Text Aicortex.CivilTime Aicortex.Claims Aicortex.Wire Aicortex.ValueWire
open Lib Lib.Outcome Lib.Wire
set_option linter.unusedSimpArgs false

/-! ### Predicate references -/

/-- A version: digits without a leading zero, of a number of 32 bits. -/
def parseVersion (invalid : TypeError) (version : List Char) : Except TypeError Nat :=
  let digitsOnly := !version.isEmpty && version.all isAsciiDigit
  if digitsOnly && version.head? != some '0' then
    if Digits.value version < 2 ^ 32 then .ok (Digits.value version) else .error invalid
  else .error invalid

/-- Parse `namespace:name@version`. -/
def parsePredicate (text : String) : Except TypeError PredicateRef := do
  let invalid := TypeError.invalid "predicate" [.quoted text,.lit " is not namespace:name@version"]
  let (home,rest) ← (splitOnce ':' text.toList).elim (.error invalid) .ok
  let (name,version) ← (splitOnce '@' rest).elim (.error invalid) .ok
  let version ← parseVersion invalid version
  let home ← CheckedString.new "namespace" lowerIdent (String.ofList home)
  let name ← CheckedString.new "predicate" dottedIdent (String.ofList name)
  .ok ⟨home,name,version⟩

theorem parseVersion_ok_iff {invalid : TypeError} {text : List Char} {number : Nat} :
    parseVersion invalid text = .ok number ↔ text = Nat.toDigits 10 number ∧ number ≠ 0 ∧ number < 2 ^ 32 := by
  simp only [parseVersion,Bool.and_eq_true,Bool.not_eq_true',List.isEmpty_eq_false_iff,List.all_eq_true,
    CivilText.isAsciiDigit_eq,bne_iff_ne]
  constructor
  · intro parsed
    split at parsed
    · rename_i accepted
      obtain ⟨⟨nonempty,all⟩,leading⟩ := accepted
      have spelled := Digits.toDigits_value all nonempty leading
      split at parsed
      · rename_i fits
        cases parsed
        refine ⟨spelled.symm,fun zero => ?_,fits⟩
        rw [zero,Nat.toDigits_zero] at spelled
        simp [← spelled] at leading
      · cases parsed
    · cases parsed
  · rintro ⟨rfl,nonzero,fits⟩
    have valued : Digits.value (Nat.toDigits 10 number) = number := Nat.ofDigitChars_ten_toDigits
    have all : ∀ c ∈ Nat.toDigits 10 number, c.isDigit = true := fun c within =>
      Nat.isDigit_of_mem_toDigits (by omega) (by omega) within
    rw [valued,if_pos ⟨⟨Nat.toDigits_ne_nil,all⟩,Digits.toDigits_leading (Nat.pos_of_ne_zero nonzero)⟩,if_pos fits]

private theorem isOk_iff {check : Except TypeError PUnit} : check.isOk = true ↔ check = .ok () := by
  cases check <;> simp [Except.isOk,Except.toBool]

/-- A lowercase identifier is made of letters, digits, `_` and `-`. -/
theorem lowerIdent_free {field text : String} (legal : (lowerIdent field text).isOk = true) {c : Char}
    (apart : (isAsciiLower c || isAsciiDigit c || c == '_' || c == '-') = false) : c ∉ text.toList := by
  obtain ⟨_,_,shape⟩ := bind_ok_iff.mp (isOk_iff.mp legal)
  intro within
  cases chars : text.toList with
  | nil => simp [chars] at within
  | cons first rest =>
    rw [chars] at shape within
    simp only [ite_eq_left_iff,reduceCtorEq,imp_false,not_not,Bool.and_eq_true,List.all_eq_true] at shape
    rcases List.mem_cons.mp within with rfl | later
    · simp [shape.1] at apart
    · rw [shape.2 c later] at apart
      cases apart

/-- A dotted identifier is made of lowercase identifiers and dots. -/
theorem dottedIdent_free {field text : String} (legal : (dottedIdent field text).isOk = true) {c : Char}
    (apart : (isAsciiLower c || isAsciiDigit c || c == '_' || c == '-') = false) (notDot : c ≠ '.') :
    c ∉ text.toList := by
  obtain ⟨_,_,shape⟩ := bind_ok_iff.mp (isOk_iff.mp legal)
  simp only [ite_eq_left_iff,reduceCtorEq,imp_false,not_not,List.all_eq_true] at shape
  intro within
  obtain ⟨part,isPart,held⟩ := mem_splitOn within notDot
  exact lowerIdent_free (shape part isPart) apart (by rwa [String.toList_ofList])

theorem display_toList (predicate : PredicateRef) : predicate.display.toList =
    predicate.namespace.text.toList ++ ':' :: (predicate.name.text.toList ++ '@' :: Nat.toDigits 10 predicate.version) := by
  simp [PredicateRef.display,String.toList_append]

/-- A text parses to a reference exactly when it is the reference's rendering and the
    version is one that is written without a leading zero. -/
theorem parsePredicate_ok_iff {text : String} {predicate : PredicateRef} : parsePredicate text = .ok predicate ↔
    predicate.display = text ∧ predicate.version ≠ 0 ∧ predicate.version < 2 ^ 32 := by
  have sides {found : Option (List Char × List Char)} {invalid : TypeError} {pair : List Char × List Char} :
      found.elim (Except.error invalid) .ok = .ok pair ↔ found = some pair := by
    cases found <;> simp
  constructor
  · intro parsed
    obtain ⟨⟨home,rest⟩,colon,parsed⟩ := bind_ok_iff.mp parsed
    obtain ⟨⟨name,digits⟩,at',parsed⟩ := bind_ok_iff.mp parsed
    obtain ⟨version,readVersion,parsed⟩ := bind_ok_iff.mp parsed
    obtain ⟨homeKey,isHome,parsed⟩ := bind_ok_iff.mp parsed
    obtain ⟨nameKey,isName,parsed⟩ := bind_ok_iff.mp parsed
    cases parsed
    obtain ⟨_,whole⟩ := splitOnce_eq_some_iff.mp (sides.mp colon)
    obtain ⟨_,tail⟩ := splitOnce_eq_some_iff.mp (sides.mp at')
    obtain ⟨isVersion,nonzero,fits⟩ := parseVersion_ok_iff.mp readVersion
    refine ⟨String.toList_inj.mp ?_,nonzero,fits⟩
    rw [display_toList,((CheckedString.new_ok_iff _ _).mp isHome).2,((CheckedString.new_ok_iff _ _).mp isName).2,
      whole,tail,isVersion]
    simp
  · rintro ⟨rfl,nonzero,fits⟩
    have colon := splitOnce_eq_some_iff.mpr
      ⟨lowerIdent_free predicate.namespace.legal (by decide : _ = false),display_toList predicate⟩
    have at' : splitOnce '@' (predicate.name.text.toList ++ '@' :: Nat.toDigits 10 predicate.version) = _ :=
      splitOnce_eq_some_iff.mpr ⟨dottedIdent_free predicate.name.legal (by decide) (by decide),rfl⟩
    unfold parsePredicate
    refine bind_ok_iff.mpr ⟨_,sides.mpr colon,bind_ok_iff.mpr ⟨_,sides.mpr at',?_⟩⟩
    refine bind_ok_iff.mpr ⟨_,parseVersion_ok_iff.mpr ⟨rfl,nonzero,fits⟩,?_⟩
    refine bind_ok_iff.mpr ⟨_,(CheckedString.new_ok_iff _ predicate.namespace).mpr ⟨?_,?_⟩,?_⟩
    · simpa using predicate.namespace.legal
    · simp
    · refine bind_ok_iff.mpr ⟨_,(CheckedString.new_ok_iff _ predicate.name).mpr ⟨?_,?_⟩,rfl⟩
      · simpa using predicate.name.legal
      · simp

def predicateRef : Form PredicateRef := string.via PredicateRef.display parsePredicate

theorem predicateRef_keeps_iff {predicate : PredicateRef} (sized : predicate.version < 2 ^ 32) :
    predicateRef.Keeps predicate ↔ predicate.version ≠ 0 := by
  rw [predicateRef,via_keeps_iff (fun raw made taken => (parsePredicate_ok_iff.mp taken).1),parsePredicate_ok_iff]
  have kept : string.Keeps predicate.display := text_keeps _
  exact ⟨fun both => both.2.2.1,fun nonzero => ⟨kept,rfl,nonzero,sized⟩⟩

theorem display_injective : Function.Injective PredicateRef.display := by
  intro left right same
  have spelled := congrArg String.toList same
  rw [display_toList,display_toList] at spelled
  have noColon (predicate : PredicateRef) : ':' ∉ predicate.namespace.text.toList :=
    lowerIdent_free predicate.namespace.legal (by decide)
  have noAt (predicate : PredicateRef) : '@' ∉ predicate.name.text.toList :=
    dottedIdent_free predicate.name.legal (by decide) (by decide)
  have outer := (splitOnce_eq_some_iff.mpr ⟨noColon left,rfl⟩).symm.trans
    (splitOnce_eq_some_iff.mpr ⟨noColon right,spelled⟩)
  obtain ⟨homes,tails⟩ := Prod.mk.inj (Option.some.inj outer)
  have inner := (splitOnce_eq_some_iff.mpr ⟨noAt left,rfl⟩).symm.trans (splitOnce_eq_some_iff.mpr ⟨noAt right,tails⟩)
  obtain ⟨names,versions⟩ := Prod.mk.inj (Option.some.inj inner)
  have valued (number : Nat) : Digits.value (Nat.toDigits 10 number) = number := Nat.ofDigitChars_ten_toDigits
  have numbers : left.version = right.version := by rw [← valued left.version,versions,valued]
  have home : left.namespace = right.namespace := CheckedString.text_injective (String.toList_inj.mp homes)
  have name : left.name = right.name := CheckedString.text_injective (String.toList_inj.mp names)
  cases left
  cases right
  simp_all

theorem predicateRef_faithful : predicateRef.Faithful :=
  via_faithful string_faithful fun _ _ taken => display_injective (parsePredicate_ok_iff.mp taken).1

/-! ### Spans -/

inductive PartKind where
  | body
  | mime
  | attachment
  deriving DecidableEq

def PartKind.label : PartKind → String
  | .body => "body"
  | .mime => "mime"
  | .attachment => "attachment"

def partKind : Form PartKind := vocabulary "part" [.body,.mime,.attachment] PartKind.label

theorem partKind_keeps (value : PartKind) : partKind.Keeps value :=
  vocabulary_keeps (by rintro ⟨⟩ <;> simp) (by rintro ⟨⟩ ⟨⟩ same <;> simp_all [PartKind.label]) value

structure RawPart where
  kind : PartKind
  path : Option String
  name : Option String

def rawPart : Form RawPart := strictRecord ["kind","path","name"]
  (fun raw => [put "kind" partKind raw.kind,putSome "path" string raw.path,putSome "name" string raw.name])
  (fun fields => do
    let kind ← required "kind" partKind fields
    let path ← optional "path" string fields
    let name ← optional "name" string fields
    .ok ⟨kind,path,name⟩)

def RawPart.of : PartLocator → RawPart
  | .body => ⟨.body,none,none⟩
  | .mime path => ⟨.mime,some path,none⟩
  | .attachment name => ⟨.attachment,none,some name⟩

def RawPart.tryInto (raw : RawPart) : Except TypeError PartLocator :=
  match raw.kind, raw.path, raw.name with
  | .body, none, none => .ok .body
  | .mime, some path, none => PartLocator.newMime path
  | .attachment, none, some name => PartLocator.newAttachment name
  | kind, _, _ =>
    let carried := match kind with
      | .body => "no other field"
      | .mime => "`path` and nothing else"
      | .attachment => "`name` and nothing else"
    .error (.invalid "part" [.lit s!"a {kind.label} part carries {carried}"])

def partLocator : Form PartLocator := rawPart.via RawPart.of RawPart.tryInto

/-- A part its checked constructor accepts. -/
def PartReadable : PartLocator → Prop
  | .body => True
  | .mime path => mimePath path = true
  | .attachment name => (validateKey "part" name).isOk = true

theorem newMime_ok_iff {path : String} {part : PartLocator} :
    PartLocator.newMime path = .ok part ↔ part = .mime path ∧ mimePath path = true := by
  unfold PartLocator.newMime
  split
  · rename_i legal
    simp only [Except.ok.injEq,legal,and_true]
    exact eq_comm
  · rename_i illegal
    simp [illegal]

theorem newAttachment_ok_iff {name : String} {part : PartLocator} :
    PartLocator.newAttachment name = .ok part ↔ part = .attachment name ∧ (validateKey "part" name).isOk = true := by
  unfold PartLocator.newAttachment
  cases validateKey "part" name <;> simp [Except.isOk,Except.toBool,eq_comm]

theorem rawPart_keeps (raw : RawPart) : rawPart.Keeps raw := by
  obtain ⟨kind,path,name⟩ := raw
  refine (strictRecord_keeps_iff (by simp) (by rfl)).mpr ?_
  simp only [bind_ok_iff,Except.ok.injEq,RawPart.mk.injEq,existsAndEq,and_true]
  rw [required_present (by simp) (by simp),optional_present (by simp) string_written (by simp),
    optional_present (by simp) string_written (by simp)]
  exact ⟨partKind_keeps kind,fun path _ => text_keeps path,fun name _ => text_keeps name⟩

theorem rawPart_faithful (raw : RawPart) (value : PartLocator) (taken : raw.tryInto = .ok value) :
    RawPart.of value = raw := by
  obtain ⟨kind,path,name⟩ := raw
  cases kind <;> cases path <;> cases name <;> simp only [RawPart.tryInto,reduceCtorEq] at taken
  · cases taken
    rfl
  · rw [(newMime_ok_iff.mp taken).1]
    rfl
  · rw [(newAttachment_ok_iff.mp taken).1]
    rfl

theorem partLocator_keeps_iff (part : PartLocator) : partLocator.Keeps part ↔ PartReadable part := by
  rw [partLocator,via_keeps_iff rawPart_faithful]
  cases part <;> simp [rawPart_keeps,RawPart.of,RawPart.tryInto,PartReadable,newMime_ok_iff,newAttachment_ok_iff]

theorem partLocator_faithful : partLocator.Faithful := by
  refine via_faithful (Codec.faithful_of_keeps rawPart_keeps) fun part other taken => ?_
  cases part with
  | body =>
    cases taken
    rfl
  | mime path => exact (newMime_ok_iff.mp taken).1
  | attachment name => exact (newAttachment_ok_iff.mp taken).1

def SpanUnit.label : SpanUnit → String
  | .bytes => "bytes"
  | .chars => "chars"

def spanUnit : Form SpanUnit := vocabulary "unit" [.bytes,.chars] SpanUnit.label

theorem spanUnit_keeps (value : SpanUnit) : spanUnit.Keeps value :=
  vocabulary_keeps (by rintro ⟨⟩ <;> simp) (by rintro ⟨⟩ ⟨⟩ same <;> simp_all [SpanUnit.label]) value

/-- `[start, stop)` counted in a unit. -/
def newRange (unit : SpanUnit) (start stop : Nat) : Except TypeError SpanRange :=
  if nonempty : start < stop then .ok ⟨unit,start,stop,nonempty⟩
  else .error (.invalid "range" [.lit s!"[{start}, {stop}) is empty"])

theorem newRange_ok_iff {unit : SpanUnit} {start stop : Nat} {range : SpanRange} :
    newRange unit start stop = .ok range ↔ range.unit = unit ∧ range.start = start ∧ range.stop = stop := by
  unfold newRange
  split
  · constructor
    · rintro ⟨⟩
      exact ⟨rfl,rfl,rfl⟩
    · rintro ⟨rfl,rfl,rfl⟩
      rfl
  · rename_i empty
    simp only [reduceCtorEq,false_iff]
    rintro ⟨rfl,rfl,rfl⟩
    exact empty range.nonempty

def rawRange : Form (SpanUnit × Nat × Nat) := strictRecord ["unit","start","end"]
  (fun raw => [put "unit" spanUnit raw.1,put "start" uint64 raw.2.1,put "end" uint64 raw.2.2])
  (fun fields => do
    let unit ← required "unit" spanUnit fields
    let start ← required "start" uint64 fields
    let stop ← required "end" uint64 fields
    .ok (unit,start,stop))

def spanRange : Form SpanRange :=
  rawRange.via (fun range => (range.unit,range.start,range.stop)) (fun raw => newRange raw.1 raw.2.1 raw.2.2)

/-- The offsets are of 64 bits. -/
def RangeSized (range : SpanRange) : Prop := range.stop < 2 ^ 64

theorem spanRange_keeps {range : SpanRange} (sized : RangeSized range) : spanRange.Keeps range := by
  have ordered := range.nonempty
  unfold RangeSized at sized
  refine (via_keeps_iff fun raw made taken => ?_).mpr ⟨?_,newRange_ok_iff.mpr ⟨rfl,rfl,rfl⟩⟩
  · obtain ⟨isUnit,isStart,isStop⟩ := newRange_ok_iff.mp taken
    rw [isUnit,isStart,isStop]
  · refine (strictRecord_keeps_iff (by simp) (by rfl)).mpr ?_
    simp only [bind_ok_iff,Except.ok.injEq,Prod.mk.injEq,existsAndEq,and_true]
    rw [required_present (by simp) (by simp),required_present (by simp) (by simp),required_present (by simp) (by simp)]
    exact ⟨spanUnit_keeps _,nat_keeps_iff.mpr (by omega),nat_keeps_iff.mpr (by omega)⟩

theorem spanRange_faithful : spanRange.Faithful := by
  refine via_faithful (strictRecord_faithful (by simp) (fun _ => rfl) fun raw other taken => ?_) fun range other taken => ?_
  · obtain ⟨unit,readUnit,taken⟩ := bind_ok_iff.mp taken
    obtain ⟨start,readStart,taken⟩ := bind_ok_iff.mp taken
    obtain ⟨stop,readStop,taken⟩ := bind_ok_iff.mp taken
    cases taken
    rw [required_own raw.1 (by simp) (Codec.faithful_of_keeps spanUnit_keeps) (by simp) readUnit,
      required_own raw.2.1 (by simp) uint64_faithful (by simp) readStart,
      required_own raw.2.2 (by simp) uint64_faithful (by simp) readStop]
  · rw [newRange_ok_iff.mpr ⟨rfl,rfl,rfl⟩] at taken
    exact (Except.ok.inj taken).symm

def contentDigest : Form ContentDigest := strictRecord ["algorithm","key_id","digest"]
  (fun digest => [put "algorithm" string digest.algorithm,put "key_id" (checked "digest" lowerHex) digest.keyId,
    put "digest" (checked "digest" lowerHex) digest.digest])
  (fun fields => do
    let algorithm ← required "algorithm" string fields
    let keyId ← required "key_id" (checked "digest" lowerHex) fields
    let digest ← required "digest" (checked "digest" lowerHex) fields
    .ok ⟨algorithm,keyId,digest⟩)

theorem contentDigest_keeps (digest : ContentDigest) : contentDigest.Keeps digest := by
  obtain ⟨algorithm,keyId,digest⟩ := digest
  refine (strictRecord_keeps_iff (by simp) (by rfl)).mpr ?_
  simp only [bind_ok_iff,Except.ok.injEq,ContentDigest.mk.injEq,existsAndEq,and_true]
  rw [required_present (by simp) (by simp),required_present (by simp) (by simp),required_present (by simp) (by simp)]
  exact ⟨text_keeps algorithm,checked_keeps keyId,checked_keeps digest⟩

/-! ### What is written by other packages -/

/-- The written forms of subjects, of times and of identifiers are those of the packages
    that define them. Each reads back what it wrote. -/
structure Foreign where
  subject : Form Sub
  seconds : Form UnixSeconds
  uuid : (kind : IdKind) → Form (Uuid kind)
  subject_keeps : ∀ value, subject.Keeps value
  seconds_keeps : ∀ value, seconds.Keeps value
  uuid_keeps : ∀ (kind : IdKind) (value : Uuid kind), (uuid kind).Keeps value

section
variable (foreign : Foreign)

def sourceSpan : Form SourceSpan := strictRecord ["source","part","range","digest"]
  (fun span => [put "source" (foreign.uuid .memory) span.source,put "part" partLocator span.part,
    put "range" spanRange span.range,put "digest" contentDigest span.digest])
  (fun fields => do
    let source ← required "source" (foreign.uuid .memory) fields
    let part ← required "part" partLocator fields
    let range ← required "range" spanRange fields
    let digest ← required "digest" contentDigest fields
    .ok ⟨source,part,range,digest⟩)

theorem sourceSpan_keeps_iff {span : SourceSpan} (sized : RangeSized span.range) :
    (sourceSpan foreign).Keeps span ↔ PartReadable span.part := by
  obtain ⟨source,part,range,digest⟩ := span
  refine (strictRecord_keeps_iff (by simp) (by rfl)).trans ?_
  simp only [bind_ok_iff,Except.ok.injEq,SourceSpan.mk.injEq,existsAndEq,and_true]
  rw [required_present (by simp) (by simp),required_present (by simp) (by simp),required_present (by simp) (by simp),
    required_present (by simp) (by simp)]
  have kept := spanRange_keeps sized
  simp only [foreign.uuid_keeps,partLocator_keeps_iff,kept,contentDigest_keeps,true_and,and_true]

theorem sourceSpan_faithful : (sourceSpan foreign).Faithful := by
  refine strictRecord_faithful (by simp) (fun _ => rfl) fun span other taken => ?_
  obtain ⟨source,readSource,taken⟩ := bind_ok_iff.mp taken
  obtain ⟨part,readPart,taken⟩ := bind_ok_iff.mp taken
  obtain ⟨range,readRange,taken⟩ := bind_ok_iff.mp taken
  obtain ⟨digest,readDigest,taken⟩ := bind_ok_iff.mp taken
  cases taken
  rw [required_own span.source (by simp) (Codec.faithful_of_keeps (foreign.uuid_keeps .memory)) (by simp) readSource,
    required_own span.part (by simp) partLocator_faithful (by simp) readPart,
    required_own span.range (by simp) spanRange_faithful (by simp) readRange,
    required_own span.digest (by simp) (Codec.faithful_of_keeps contentDigest_keeps) (by simp) readDigest]

/-! ### Provenance -/

def sourceRef : Form SourceRef := openRecord ["system","external_id","locator"]
  (fun source => [put "system" (checked "source.system" sourceSystem) source.system,
    putSome "external_id" string source.externalId,putSome "locator" string source.locator])
  (fun fields => do
    let system ← required "system" (checked "source.system" sourceSystem) fields
    let externalId ← optional "external_id" string fields
    let locator ← optional "locator" string fields
    .ok ⟨system,externalId,locator⟩)

theorem sourceRef_keeps (source : SourceRef) : sourceRef.Keeps source := by
  obtain ⟨system,externalId,locator⟩ := source
  refine (openRecord_keeps_iff (by simp) (by rfl)).mpr ?_
  simp only [bind_ok_iff,Except.ok.injEq,SourceRef.mk.injEq,existsAndEq,and_true]
  rw [required_present (by simp) (by simp),optional_present (by simp) string_written (by simp),
    optional_present (by simp) string_written (by simp)]
  exact ⟨checked_keeps system,fun stated _ => text_keeps stated,fun stated _ => text_keeps stated⟩

def extractorVersion : Form ExtractorVersion := openRecord ["name","version"]
  (fun extractor => [put "name" string extractor.name,put "version" string extractor.version])
  (fun fields => do
    let name ← required "name" string fields
    let version ← required "version" string fields
    .ok ⟨name,version⟩)

theorem extractorVersion_written : extractorVersion.Written := openRecord_written

theorem extractorVersion_keeps (extractor : ExtractorVersion) : extractorVersion.Keeps extractor := by
  obtain ⟨name,version⟩ := extractor
  refine (openRecord_keeps_iff (by simp) (by rfl)).mpr ?_
  simp only [bind_ok_iff,Except.ok.injEq,ExtractorVersion.mk.injEq,existsAndEq,and_true]
  rw [required_present (by simp) (by simp),required_present (by simp) (by simp)]
  exact ⟨text_keeps name,text_keeps version⟩

def admissionOverride : Form AdmissionOverride := openRecord ["reason_code","by","decision"]
  (fun admission => [put "reason_code" string admission.reasonCode,put "by" foreign.subject admission.by',
    put "decision" (checked "decision" validateKey) admission.decision])
  (fun fields => do
    let reasonCode ← required "reason_code" string fields
    let subject ← required "by" foreign.subject fields
    let decision ← required "decision" (checked "decision" validateKey) fields
    .ok ⟨reasonCode,subject,decision⟩)

theorem admissionOverride_written : (admissionOverride foreign).Written := openRecord_written

theorem admissionOverride_keeps (admission : AdmissionOverride) : (admissionOverride foreign).Keeps admission := by
  obtain ⟨reasonCode,subject,decision⟩ := admission
  refine (openRecord_keeps_iff (by simp) (by rfl)).mpr ?_
  simp only [bind_ok_iff,Except.ok.injEq,AdmissionOverride.mk.injEq,existsAndEq,and_true]
  rw [required_present (by simp) (by simp),required_present (by simp) (by simp),required_present (by simp) (by simp)]
  exact ⟨text_keeps reasonCode,foreign.subject_keeps subject,checked_keeps decision⟩

def provenance : Form Provenance := openRecord
  ["source","captured_at","ingested_at","derived_from","extractor","admission","spans"]
  (fun origin => [put "source" sourceRef origin.source,put "captured_at" foreign.seconds origin.capturedAt,
    put "ingested_at" foreign.seconds origin.ingestedAt,putList "derived_from" (foreign.uuid .memory) origin.derivedFrom,
    putSome "extractor" extractorVersion origin.extractor,
    putSome "admission" (admissionOverride foreign) origin.admission,putList "spans" (sourceSpan foreign) origin.spans])
  (fun fields => do
    let source ← required "source" sourceRef fields
    let capturedAt ← required "captured_at" foreign.seconds fields
    let ingestedAt ← required "ingested_at" foreign.seconds fields
    let derivedFrom ← listed "derived_from" (foreign.uuid .memory) fields
    let extractor ← optional "extractor" extractorVersion fields
    let admission ← optional "admission" (admissionOverride foreign) fields
    let spans ← listed "spans" (sourceSpan foreign) fields
    .ok ⟨source,capturedAt,ingestedAt,derivedFrom,extractor,admission,spans⟩)

def ProvenanceSized (origin : Provenance) : Prop := ∀ span ∈ origin.spans, RangeSized span.range

def ProvenanceReadable (origin : Provenance) : Prop := ∀ span ∈ origin.spans, PartReadable span.part

theorem provenance_keeps_iff {origin : Provenance} (sized : ProvenanceSized origin) :
    (provenance foreign).Keeps origin ↔ ProvenanceReadable origin := by
  obtain ⟨source,capturedAt,ingestedAt,derivedFrom,extractor,admission,spans⟩ := origin
  refine (openRecord_keeps_iff (by simp) (by rfl)).trans ?_
  simp only [bind_ok_iff,Except.ok.injEq,Provenance.mk.injEq,existsAndEq,and_true]
  rw [required_present (by simp) (by simp),required_present (by simp) (by simp),required_present (by simp) (by simp),
    listed_present (by simp) (by simp),optional_present (by simp) extractorVersion_written (by simp),
    optional_present (by simp) (admissionOverride_written foreign) (by simp),listed_present (by simp) (by simp)]
  have kept : (∀ span ∈ spans, (sourceSpan foreign).Keeps span) ↔ ∀ span ∈ spans, PartReadable span.part :=
    forall_congr' fun span => forall_congr' fun within => sourceSpan_keeps_iff foreign (sized span within)
  simp only [sourceRef_keeps,foreign.seconds_keeps,foreign.uuid_keeps,extractorVersion_keeps,
    admissionOverride_keeps,implies_true,true_and,kept,ProvenanceReadable]

theorem provenance_faithful : (provenance foreign).Faithful := by
  refine openRecord_faithful (by simp) (fun _ => rfl) fun origin other taken => ?_
  obtain ⟨source,readSource,taken⟩ := bind_ok_iff.mp taken
  obtain ⟨captured,readCaptured,taken⟩ := bind_ok_iff.mp taken
  obtain ⟨ingested,readIngested,taken⟩ := bind_ok_iff.mp taken
  obtain ⟨derived,readDerived,taken⟩ := bind_ok_iff.mp taken
  obtain ⟨extractor,readExtractor,taken⟩ := bind_ok_iff.mp taken
  obtain ⟨admission,readAdmission,taken⟩ := bind_ok_iff.mp taken
  obtain ⟨spans,readSpans,taken⟩ := bind_ok_iff.mp taken
  cases taken
  rw [required_own origin.source (by simp) (Codec.faithful_of_keeps sourceRef_keeps) (by simp) readSource,
    required_own origin.capturedAt (by simp) (Codec.faithful_of_keeps foreign.seconds_keeps) (by simp) readCaptured,
    required_own origin.ingestedAt (by simp) (Codec.faithful_of_keeps foreign.seconds_keeps) (by simp) readIngested,
    listed_own origin.derivedFrom (by simp) (Codec.faithful_of_keeps (foreign.uuid_keeps .memory)) (by simp) readDerived,
    optional_own origin.extractor (by simp) extractorVersion_written (Codec.faithful_of_keeps extractorVersion_keeps)
      (by simp) readExtractor,
    optional_own origin.admission (by simp) (admissionOverride_written foreign)
      (Codec.faithful_of_keeps (admissionOverride_keeps foreign)) (by simp) readAdmission,
    listed_own origin.spans (by simp) (sourceSpan_faithful foreign) (by simp) readSpans]

/-! ### Scopes -/

def projectOf : ScopeKind → Option ProjectKey
  | .personal => none
  | .project key => some key
  | .shared _ => none

def shareOf : ScopeKind → Option ShareKey
  | .personal => none
  | .project _ => none
  | .shared key => some key

/-- The label of the kind, and its key under a name of its own, beside the owner. -/
def scope : Form Scope := openRecord ["owner","kind","project","share"]
  (fun scope => [put "owner" foreign.subject scope.owner,put "kind" string scope.kind.label,
    putSome "project" (checked "project" validateKey) (projectOf scope.kind),
    putSome "share" (checked "share" validateKey) (shareOf scope.kind)])
  (fun fields => do
    let owner ← required "owner" foreign.subject fields
    let kind ← required "kind" string fields
    let project ← optional "project" (checked "project" validateKey) fields
    let share ← optional "share" (checked "share" validateKey) fields
    if kind = "personal" then .ok ⟨owner,.personal⟩
    else if kind = "project" then
      project.elim (.error (.refused (.missingField "scope.project" "a project scope"))) (fun key => .ok ⟨owner,.project key⟩)
    else if kind = "shared" then
      share.elim (.error (.refused (.missingField "scope.share" "a shared scope"))) (fun key => .ok ⟨owner,.shared key⟩)
    else .error (.refused (.unknownVariant "scope.kind" kind ["personal","project","shared"])))

theorem scope_keeps (value : Scope) : (scope foreign).Keeps value := by
  refine (openRecord_keeps_iff (by simp) (by rfl)).mpr ?_
  refine bind_ok_iff.mpr ⟨value.owner,(required_present (by simp) (by simp)).mpr (foreign.subject_keeps _),?_⟩
  refine bind_ok_iff.mpr ⟨value.kind.label,(required_present (by simp) (by simp)).mpr (text_keeps _),?_⟩
  refine bind_ok_iff.mpr ⟨projectOf value.kind,
    (optional_present (by simp) checked_written (by simp)).mpr fun key _ => checked_keeps key,?_⟩
  refine bind_ok_iff.mpr ⟨shareOf value.kind,
    (optional_present (by simp) checked_written (by simp)).mpr fun key _ => checked_keeps key,?_⟩
  obtain ⟨owner,kind⟩ := value
  cases kind <;> simp [ScopeKind.label,projectOf,shareOf]

/-! ### Claims -/

def Stance.label : Stance → String
  | .asserted => "asserted"
  | .denied => "denied"
  | .conditional => "conditional"
  | .requested => "requested"
  | .confirmed => "confirmed"
  | .estimated => "estimated"
  | .expected => "expected"
  | .observed => "observed"

def stance : Form Stance :=
  vocabulary "stance" [.asserted,.denied,.conditional,.requested,.confirmed,.estimated,.expected,.observed] Stance.label

theorem stance_keeps (value : Stance) : stance.Keeps value :=
  vocabulary_keeps (by rintro ⟨⟩ <;> simp) (by rintro ⟨⟩ ⟨⟩ same <;> simp_all [Stance.label]) value

/-- Any stance but the conditional one. -/
def plain (stance : Stance) : Except TypeError EpistemicStatus :=
  if legal : legalEpistemic stance none = true then .ok ⟨stance,none,legal⟩
  else .error (.missingField "condition" "the conditional stance")

/-- Holds if the condition holds. -/
def conditional (condition : String) : Except TypeError EpistemicStatus :=
  if legal : legalEpistemic .conditional (some condition) = true then .ok ⟨.conditional,some condition,legal⟩
  else .error (.invalid "condition" [.lit "is empty"])

def rawEpistemic : Form (Stance × Option String) := strictRecord ["stance","condition"]
  (fun raw => [put "stance" stance raw.1,putSome "condition" string raw.2])
  (fun fields => do
    let stated ← required "stance" stance fields
    let condition ← optional "condition" string fields
    .ok (stated,condition))

def epistemicOfRaw (raw : Stance × Option String) : Except TypeError EpistemicStatus :=
  match raw.2 with
  | some condition =>
    if raw.1 = .conditional then conditional condition
    else .error (.invalid "condition" [.lit s!"the {Stance.label raw.1} stance carries no condition"])
  | none => plain raw.1

def epistemicStatus : Form EpistemicStatus :=
  rawEpistemic.via (fun status => (status.stance,status.condition)) epistemicOfRaw

theorem epistemicOfRaw_ok_iff {raw : Stance × Option String} {status : EpistemicStatus} :
    epistemicOfRaw raw = .ok status ↔ (status.stance,status.condition) = raw := by
  have legal := status.legal
  obtain ⟨stated,condition⟩ := raw
  constructor
  · intro taken
    cases condition with
    | none =>
      simp only [epistemicOfRaw,plain] at taken
      split at taken <;> cases taken
      rfl
    | some condition =>
      simp only [epistemicOfRaw] at taken
      split at taken
      · rename_i isConditional
        unfold conditional at taken
        split at taken <;> cases taken
        rw [isConditional]
      · cases taken
  · rintro ⟨⟩
    obtain ⟨stated,condition,legal⟩ := status
    cases condition with
    | none => simp only [epistemicOfRaw,plain,legal,dif_pos]
    | some condition =>
      have isConditional : stated = .conditional := by
        simp only [legalEpistemic,Bool.and_eq_true,beq_iff_eq] at legal
        exact legal.1
      subst isConditional
      simp only [epistemicOfRaw,conditional,legal,dif_pos,if_pos]

theorem epistemicStatus_keeps (status : EpistemicStatus) : epistemicStatus.Keeps status := by
  refine (via_keeps_iff fun raw made taken => epistemicOfRaw_ok_iff.mp taken).mpr ⟨?_,epistemicOfRaw_ok_iff.mpr rfl⟩
  refine (strictRecord_keeps_iff (by simp) (by rfl)).mpr ?_
  simp only [bind_ok_iff,Except.ok.injEq,Prod.mk.injEq,existsAndEq,and_true]
  rw [required_present (by simp) (by simp),optional_present (by simp) string_written (by simp)]
  exact ⟨stance_keeps status.stance,fun condition _ => text_keeps condition⟩

def claim : Form Claim := strictRecord
  ["id","scope","subject","predicate","value","slot","epistemic","provenance","schema_version"]
  (fun claim => [put "id" (foreign.uuid .claim) claim.id,put "scope" (scope foreign) claim.scope,
    put "subject" subjectRef claim.subject,put "predicate" predicateRef claim.predicate,
    put "value" claimValue claim.value,putSome "slot" (checked "slot" validateKey) claim.slot,
    put "epistemic" epistemicStatus claim.epistemic,put "provenance" (provenance foreign) claim.provenance,
    put "schema_version" uint16 claim.schemaVersion])
  (fun fields => do
    let id ← required "id" (foreign.uuid .claim) fields
    let scope ← required "scope" (scope foreign) fields
    let subject ← required "subject" subjectRef fields
    let predicate ← required "predicate" predicateRef fields
    let value ← required "value" claimValue fields
    let slot ← optional "slot" (checked "slot" validateKey) fields
    let epistemic ← required "epistemic" epistemicStatus fields
    let provenance ← required "provenance" (provenance foreign) fields
    let schemaVersion ← required "schema_version" uint16 fields
    .ok ⟨id,scope,subject,predicate,value,slot,epistemic,provenance,schemaVersion⟩)

/-- The numbers of a claim are of the source's machine types. -/
structure ClaimSized (claim : Claim) : Prop where
  value : ValueSized claim.value
  predicate : claim.predicate.version < 2 ^ 32
  spans : ProvenanceSized claim.provenance
  schema : claim.schemaVersion < 2 ^ 16

/-- Nothing in a claim is of the kinds that are written but not read back. -/
structure ClaimReadable (claim : Claim) : Prop where
  predicate : claim.predicate.version ≠ 0
  value : ValueReadable claim.value
  spans : ProvenanceReadable claim.provenance

theorem claim_keeps_iff {value : Claim} (sized : ClaimSized value) :
    (claim foreign).Keeps value ↔ ClaimReadable value := by
  have keptPredicate := predicateRef_keeps_iff sized.predicate
  have keptValue := claimValue_keeps_iff sized.value
  have keptOrigin := provenance_keeps_iff foreign sized.spans
  have keptVersion : uint16.Keeps value.schemaVersion := nat_keeps_iff.mpr (Nat.le_sub_one_of_lt sized.schema)
  obtain ⟨id,home,subject,predicate,content,slot,epistemic,origin,version⟩ := value
  refine (strictRecord_keeps_iff (by simp) (by rfl)).trans ?_
  simp only [bind_ok_iff,Except.ok.injEq,Claim.mk.injEq,existsAndEq,and_true]
  rw [required_present (by simp) (by simp),required_present (by simp) (by simp),required_present (by simp) (by simp),
    required_present (by simp) (by simp),required_present (by simp) (by simp),
    optional_present (by simp) checked_written (by simp),required_present (by simp) (by simp),
    required_present (by simp) (by simp),required_present (by simp) (by simp)]
  simp only [foreign.uuid_keeps,scope_keeps,subjectRef_keeps,keptPredicate,keptValue,checked_keeps,
    epistemicStatus_keeps,keptOrigin,keptVersion,implies_true,true_and,and_true]
  exact ⟨fun kept => ⟨kept.1,kept.2.1,kept.2.2⟩,fun kept => ⟨kept.predicate,kept.value,kept.spans⟩⟩

theorem claim_faithful : (claim foreign).Faithful := by
  refine strictRecord_faithful (by simp) (fun _ => rfl) fun value other taken => ?_
  obtain ⟨id,readId,taken⟩ := bind_ok_iff.mp taken
  obtain ⟨home,readScope,taken⟩ := bind_ok_iff.mp taken
  obtain ⟨subject,readSubject,taken⟩ := bind_ok_iff.mp taken
  obtain ⟨predicate,readPredicate,taken⟩ := bind_ok_iff.mp taken
  obtain ⟨content,readValue,taken⟩ := bind_ok_iff.mp taken
  obtain ⟨slot,readSlot,taken⟩ := bind_ok_iff.mp taken
  obtain ⟨epistemic,readEpistemic,taken⟩ := bind_ok_iff.mp taken
  obtain ⟨origin,readProvenance,taken⟩ := bind_ok_iff.mp taken
  obtain ⟨version,readVersion,taken⟩ := bind_ok_iff.mp taken
  cases taken
  rw [required_own value.id (by simp) (Codec.faithful_of_keeps (foreign.uuid_keeps .claim)) (by simp) readId,
    required_own value.scope (by simp) (Codec.faithful_of_keeps (scope_keeps foreign)) (by simp) readScope,
    required_own value.subject (by simp) (Codec.faithful_of_keeps subjectRef_keeps) (by simp) readSubject,
    required_own value.predicate (by simp) predicateRef_faithful (by simp) readPredicate,
    required_own value.value (by simp) claimValue_faithful (by simp) readValue,
    optional_own value.slot (by simp) checked_written (Codec.faithful_of_keeps checked_keeps) (by simp) readSlot,
    required_own value.epistemic (by simp) (Codec.faithful_of_keeps epistemicStatus_keeps) (by simp) readEpistemic,
    required_own value.provenance (by simp) (provenance_faithful foreign) (by simp) readProvenance,
    required_own value.schemaVersion (by simp) uint16_faithful (by simp) readVersion]

/-! ### Evidence -/

def EvidenceKind.label : EvidenceKind → String
  | .sourceSpan => "source_span"
  | .spanVerified => "span_verified"
  | .modelScore => "model_score"
  | .ruleMatch => "rule_match"
  | .userStatement => "user_statement"
  | .corroboration => "corroboration"
  | .reviewApproval => "review_approval"
  | .operatorSeed => "operator_seed"

def evidenceKind : Form EvidenceKind := vocabulary "evidence"
  [.sourceSpan,.spanVerified,.modelScore,.ruleMatch,.userStatement,.corroboration,.reviewApproval,.operatorSeed]
  EvidenceKind.label

theorem evidenceKind_keeps (value : EvidenceKind) : evidenceKind.Keeps value :=
  vocabulary_keeps (by rintro ⟨⟩ <;> simp) (by rintro ⟨⟩ ⟨⟩ same <;> simp_all [EvidenceKind.label]) value

def AuthorityLevel.label : AuthorityLevel → String
  | .inferred => "inferred"
  | .extracted => "extracted"
  | .verified => "verified"
  | .userAsserted => "user_asserted"
  | .userCorrected => "user_corrected"

def authorityLevel : Form AuthorityLevel :=
  vocabulary "authority" [.inferred,.extracted,.verified,.userAsserted,.userCorrected] AuthorityLevel.label

theorem authorityLevel_keeps (value : AuthorityLevel) : authorityLevel.Keeps value :=
  vocabulary_keeps (by rintro ⟨⟩ <;> simp) (by rintro ⟨⟩ ⟨⟩ same <;> simp_all [AuthorityLevel.label]) value

/-- A score of `basisPoints / 10000`. -/
def newScore (basisPoints : Nat) : Except TypeError Score :=
  if legal : basisPoints ≤ 10000 then .ok ⟨basisPoints,legal⟩
  else .error (.invalid "score" [.lit s!"{basisPoints} is over 10000"])

def score : Form Score := uint16.via (·.basisPoints) newScore

theorem score_keeps (value : Score) : score.Keeps value := by
  have legal := value.legal
  refine (via_keeps_iff fun raw made taken => ?_).mpr ⟨nat_keeps_iff.mpr (by omega),?_⟩
  · unfold newScore at taken
    split at taken <;> cases taken
    rfl
  · simp only [newScore,legal,dif_pos]

def seedRef : Form SeedRef := strictRecord ["set","version"]
  (fun seed => [put "set" (checked "seed_set" validateKey) seed.set,put "version" uint32 seed.version])
  (fun fields => do
    let set ← required "set" (checked "seed_set" validateKey) fields
    let version ← required "version" uint32 fields
    .ok ⟨set,version⟩)

theorem seedRef_keeps {seed : SeedRef} (sized : seed.version < 2 ^ 32) : seedRef.Keeps seed := by
  have version : uint32.Keeps seed.version := nat_keeps_iff.mpr (Nat.le_sub_one_of_lt sized)
  obtain ⟨set,number⟩ := seed
  refine (strictRecord_keeps_iff (by simp) (by rfl)).mpr ?_
  simp only [bind_ok_iff,Except.ok.injEq,SeedRef.mk.injEq,existsAndEq,and_true]
  rw [required_present (by simp) (by simp),required_present (by simp) (by simp)]
  exact ⟨checked_keeps set,version⟩

/-- The fields of each kind of evidence, beside the kind itself. -/
def evidenceFields : EvidenceKind → List String
  | .sourceSpan => ["kind","span"]
  | .spanVerified => ["kind","span","method"]
  | .modelScore => ["kind","model","score","label"]
  | .ruleMatch => ["kind","rule"]
  | .userStatement => ["kind","by","authority"]
  | .corroboration => ["kind","claims"]
  | .reviewApproval => ["kind","by","decision"]
  | .operatorSeed => ["kind","by","seed"]

def evidenceEntries : Evidence → List (String × Option Tree)
  | .sourceSpan span => [put "kind" evidenceKind .sourceSpan,put "span" (sourceSpan foreign) span]
  | .spanVerified span method => [put "kind" evidenceKind .spanVerified,put "span" (sourceSpan foreign) span,
      put "method" extractorVersion method]
  | .modelScore model points label => [put "kind" evidenceKind .modelScore,put "model" extractorVersion model,
      put "score" score points,put "label" string label]
  | .ruleMatch rule => [put "kind" evidenceKind .ruleMatch,put "rule" extractorVersion rule]
  | .userStatement by' authority => [put "kind" evidenceKind .userStatement,put "by" foreign.subject by',
      put "authority" authorityLevel authority]
  | .corroboration claims => [put "kind" evidenceKind .corroboration,put "claims" (list (foreign.uuid .claim)) claims]
  | .reviewApproval by' decision => [put "kind" evidenceKind .reviewApproval,put "by" foreign.subject by',
      put "decision" (checked "decision" validateKey) decision]
  | .operatorSeed by' seed => [put "kind" evidenceKind .operatorSeed,put "by" foreign.subject by',
      put "seed" seedRef seed]

def readEvidence (fields : List (String × Tree)) : EvidenceKind → Except (Refusal TypeError) Evidence
  | .sourceSpan => do
    let span ← required "span" (sourceSpan foreign) fields
    .ok (.sourceSpan span)
  | .spanVerified => do
    let span ← required "span" (sourceSpan foreign) fields
    let method ← required "method" extractorVersion fields
    .ok (.spanVerified span method)
  | .modelScore => do
    let model ← required "model" extractorVersion fields
    let points ← required "score" score fields
    let label ← required "label" string fields
    .ok (.modelScore model points label)
  | .ruleMatch => do
    let rule ← required "rule" extractorVersion fields
    .ok (.ruleMatch rule)
  | .userStatement => do
    let subject ← required "by" foreign.subject fields
    let authority ← required "authority" authorityLevel fields
    .ok (.userStatement subject authority)
  | .corroboration => do
    let claims ← required "claims" (list (foreign.uuid .claim)) fields
    .ok (.corroboration claims)
  | .reviewApproval => do
    let subject ← required "by" foreign.subject fields
    let decision ← required "decision" (checked "decision" validateKey) fields
    .ok (.reviewApproval subject decision)
  | .operatorSeed => do
    let subject ← required "by" foreign.subject fields
    let seed ← required "seed" seedRef fields
    .ok (.operatorSeed subject seed)

/-- A record tagged with its kind: the kind says which other fields there are. -/
def evidence : Form Evidence where
  encode item := .record (present (evidenceEntries foreign item))
  decode tree := do
    let tagged ← openFields ["kind"] tree
    let kind ← required "kind" evidenceKind tagged
    let fields ← strictFields (evidenceFields kind) tree
    readEvidence foreign fields kind

def EvidenceSized : Evidence → Prop
  | .sourceSpan span | .spanVerified span _ => RangeSized span.range
  | .operatorSeed _ seed => seed.version < 2 ^ 32
  | _ => True

def EvidenceReadable (item : Evidence) : Prop := ∀ span ∈ item.span, PartReadable span.part

theorem evidence_names (item : Evidence) :
    (evidenceEntries foreign item).map Prod.fst = evidenceFields item.kind := by
  cases item <;> rfl

theorem evidence_distinct (item : Evidence) : ((evidenceEntries foreign item).map Prod.fst).Nodup := by
  rw [evidence_names]
  generalize item.kind = kind
  cases kind <;> decide

theorem evidence_keeps_iff {item : Evidence} (sized : EvidenceSized item) :
    (evidence foreign).Keeps item ↔ EvidenceReadable item := by
  have tag : put "kind" evidenceKind item.kind ∈ evidenceEntries foreign item := by cases item <;> exact .head _
  have distinct := evidence_distinct foreign item
  have kind := (required_present distinct tag).mpr (evidenceKind_keeps item.kind)
  simp only [Codec.Keeps,evidence]
  rw [openFields_present distinct,ok_bind,kind,ok_bind,strictFields_present distinct (evidence_names foreign item),ok_bind]
  have keptText (text : String) : string.Keeps text := text_keeps text
  have keptIds (claims : List ClaimId) : (list (foreign.uuid .claim)).Keeps claims :=
    list_keeps_iff.mpr fun id _ => foreign.uuid_keeps .claim id
  have needed {α : Type} {name : String} {form : Form α} {value : α} (entry : put name form value ∈ evidenceEntries foreign item) :=
    required_present distinct entry
  cases item <;> simp only [Evidence.kind,readEvidence,bind_ok_iff,Except.ok.injEq,Evidence.sourceSpan.injEq,
    Evidence.spanVerified.injEq,Evidence.modelScore.injEq,Evidence.ruleMatch.injEq,Evidence.userStatement.injEq,
    Evidence.corroboration.injEq,Evidence.reviewApproval.injEq,Evidence.operatorSeed.injEq,existsAndEq,and_true] <;>
    simp only [EvidenceSized] at sized
  case sourceSpan span =>
    rw [needed (by simp [evidenceEntries]),sourceSpan_keeps_iff foreign sized]
    simp [EvidenceReadable,Evidence.span]
  case spanVerified span method =>
    rw [needed (by simp [evidenceEntries]),needed (by simp [evidenceEntries]),sourceSpan_keeps_iff foreign sized]
    simp [EvidenceReadable,Evidence.span,extractorVersion_keeps]
  case modelScore model points label =>
    rw [needed (by simp [evidenceEntries]),needed (by simp [evidenceEntries]),needed (by simp [evidenceEntries])]
    simp [EvidenceReadable,Evidence.span,extractorVersion_keeps,score_keeps,keptText]
  case ruleMatch rule =>
    rw [needed (by simp [evidenceEntries])]
    simp [EvidenceReadable,Evidence.span,extractorVersion_keeps]
  case userStatement subject authority =>
    rw [needed (by simp [evidenceEntries]),needed (by simp [evidenceEntries])]
    simp [EvidenceReadable,Evidence.span,foreign.subject_keeps,authorityLevel_keeps]
  case corroboration claims =>
    rw [needed (by simp [evidenceEntries])]
    simp [EvidenceReadable,Evidence.span,keptIds]
  case reviewApproval subject decision =>
    rw [needed (by simp [evidenceEntries]),needed (by simp [evidenceEntries])]
    simp [EvidenceReadable,Evidence.span,foreign.subject_keeps,checked_keeps]
  case operatorSeed subject seed =>
    rw [needed (by simp [evidenceEntries]),needed (by simp [evidenceEntries])]
    simp [EvidenceReadable,Evidence.span,foreign.subject_keeps,seedRef_keeps sized]

/-- What is written of a value, a claim or a piece of evidence reads back as it was exactly
    when no check of its own refuses a part that another way in let through: the least
    mantissa, an offset beyond the bound, a part locator of the wrong shape, a predicate at
    version zero. A text that parses to a decimal is always the decimal's amount. -/
theorem written_reads_back :
    (∀ value, ValueSized value → (claimValue.decode (claimValue.encode value) = .ok value ↔ ValueReadable value)) ∧
    (∀ value, ClaimSized value →
      ((claim foreign).decode ((claim foreign).encode value) = .ok value ↔ ClaimReadable value)) ∧
    (∀ item, EvidenceSized item →
      ((evidence foreign).decode ((evidence foreign).encode item) = .ok item ↔ EvidenceReadable item)) ∧
    ∀ text unit decimal, DecimalText.parse text unit = .ok decimal → DecimalText.amount decimal = text :=
  ⟨fun _ => claimValue_keeps_iff,fun _ => claim_keeps_iff foreign,fun _ => evidence_keeps_iff foreign,
    fun _ _ _ parsed => (DecimalText.parse_ok_iff.mp parsed).1⟩

end

namespace Sample

def readSeconds : Tree → Except (Refusal TypeError) UnixSeconds
  | .int value => if 0 ≤ value then .ok value.toNat else .error (.unexpected "a time")
  | _ => .error (.unexpected "a time")

def readUuid {kind : IdKind} (text : String) : Except TypeError (Uuid kind) :=
  (IdText.ofHyphenated text).elim (.error (.invalid "id" [.quoted text,.lit " is not a uuid"])) .ok

theorem readUuid_ok_iff {kind : IdKind} {text : String} {id : Uuid kind} :
    readUuid text = .ok id ↔ IdText.ofHyphenated text = some id := by
  unfold readUuid
  cases IdText.ofHyphenated text <;> simp

/-- Subjects and identifiers as their texts, times as integers. -/
def foreign : Foreign where
  subject := string.via Sub.text (fun text => .ok ⟨text⟩)
  seconds := ⟨fun value => .int value,readSeconds⟩
  uuid kind := string.via Uuid.hyphenated readUuid
  subject_keeps value := rfl
  seconds_keeps value := by simp [Codec.Keeps,readSeconds]
  uuid_keeps kind value := (via_keeps_iff fun raw made taken =>
      IdText.hyphenated_of_ofHyphenated (readUuid_ok_iff.mp taken)).mpr
    ⟨text_keeps _,readUuid_ok_iff.mpr (IdText.ofHyphenated_hyphenated value)⟩

/-- A fare to two places, the morning it was quoted and where the mail says so. -/
def fare : Decimal := ⟨-12050,2,some (.currency ⟨"EUR",rfl⟩),by decide⟩
def quoted : ZonedTime := ⟨⟨2026,some 3,some 8,by decide⟩,9,some 30,none,.offset (-18000),by decide⟩
def passage : SourceSpan :=
  ⟨⟨71,by decide⟩,.mime "1.2",⟨.chars,4,9,by decide⟩,"hmac-sha256",⟨"0a",rfl⟩,⟨"ff",rfl⟩⟩

/-- The fare, read off the passage. -/
def priced : Claim :=
  { Claims.Sample.claim Claims.Sample.firstId "12A" with
    value := .decimal fare
    provenance := { Claims.Sample.provenance with spans := [passage] } }

theorem passage_kept : RangeSized passage.range ∧ PartReadable passage.part :=
  ⟨by simp [RangeSized,passage],show mimePath "1.2" = true by decide +kernel⟩

/-- The time, the claim and the evidence for it are of machine numbers and hold nothing
    that is not read back. -/
theorem claim_reads_back :
    claimValue.decode (claimValue.encode (.dateTime quoted)) = .ok (.dateTime quoted) ∧
      (claim foreign).decode ((claim foreign).encode priced) = .ok priced ∧
      (evidence foreign).decode ((evidence foreign).encode (.sourceSpan passage)) = .ok (.sourceSpan passage) := by
  have spans : ∀ span ∈ priced.provenance.spans, span = passage := fun span within => List.mem_singleton.mp within
  have sized : ClaimSized priced :=
    ⟨by simp [priced,fare,ValueSized,DecimalText.minMantissa,DecimalText.maxMantissa],by decide,
      fun span within => spans span within ▸ passage_kept.1,by decide⟩
  have readable : ClaimReadable priced :=
    ⟨by decide,by simp [priced,fare,ValueReadable,DecimalText.Readable,DecimalText.maxMantissa],
      fun span within => spans span within ▸ passage_kept.2⟩
  obtain ⟨values,claims,proofs,-⟩ := written_reads_back foreign
  refine ⟨(values (.dateTime quoted) trivial).mpr ?_,(claims priced sized).mpr readable,
    (proofs (.sourceSpan passage) passage_kept.1).mpr ?_⟩
  · simp [ValueReadable,TimeReadable,ZoneReadable,quoted,maxOffsetSeconds]
  · rintro span ⟨⟩
    exact passage_kept.2

/-- The constructor takes the least mantissa; what is written of it is not read back. -/
theorem least_mantissa_lost : ∃ decimal, DecimalText.new DecimalText.minMantissa 0 none = .ok decimal ∧
    claimValue.decode (claimValue.encode (.decimal decimal)) ≠ .ok (.decimal decimal) := by
  let least : Decimal := ⟨DecimalText.minMantissa,0,none,by decide⟩
  have sized : ValueSized (.decimal least) :=
    show DecimalText.minMantissa ≤ DecimalText.minMantissa ∧ DecimalText.minMantissa ≤ DecimalText.maxMantissa by decide
  refine ⟨least,rfl,fun kept => ?_⟩
  have readable : DecimalText.Readable least := (claimValue_keeps_iff sized).mp kept
  exact absurd readable.1 (by decide)

end Sample

end Aicortex.ClaimWire
