import Aicortex.CaptureGate
import Aicortex.History
import Aicortex.Lib.Delimited

/-!
The identities built on a scope. A stored scope id is a digest of owner, label and
key; a content fingerprint, a refusal's digest and a slot start from the rendered
scope instead. The digest functions are linked code and a parameter here.
-/

namespace Aicortex.ScopeIdentity
open Aicortex.Text Aicortex.Memories Aicortex.CaptureGate Aicortex.History Lib.Delimited
open Aicortex.Claims hiding Unit
set_option linter.unusedSimpArgs false

/-- The ASCII unit separator. -/
def separator : UInt8 := 0x1f

/-- The key column's value: the kind's key, or the empty string. -/
def keyOf (scope : Scope) : String := scope.kind.key.getD ""

/-- The bytes a scope id is the digest of. -/
def scopeMaterial (scope : Scope) : ByteArray :=
  ((scope.owner.text.toByteArray.push separator) ++ scope.kind.label.toByteArray).push separator ++
    (keyOf scope).toByteArray

/-- Lowercase hex, two digits a byte. -/
def hex (digest : List UInt8) : String :=
  String.ofList (digest.flatMap (fun byte => [Nat.digitChar (byte.toNat / 16),Nat.digitChar (byte.toNat % 16)]))

def scopeId (sha256 : ByteArray → List UInt8) (scope : Scope) : String := hex (sha256 (scopeMaterial scope))

/-- The bytes a content fingerprint is the digest of. -/
def fingerprintMaterial (scope : Scope) (kind : MemoryKind) (normalizedText : String) : ByteArray :=
  ((scope.display.toByteArray.push separator) ++ kind.label.toByteArray).push separator ++
    normalizedText.toByteArray

/-- The fingerprint of a memory, as the column holds it. -/
def ofMemory (blake3 : ByteArray → List UInt8) (nfc : String → String) (memory : Memory) : String :=
  hex (blake3 (fingerprintMaterial memory.scope memory.kind (normalizeText nfc memory.body.text)))

/-- The bytes a decision's keyed digest is taken over. -/
def digestMaterial (nfc : String → String) (candidate : Candidate) : ByteArray :=
  let body := normalizeBody nfc candidate.parts.body
  ((candidate.parts.scope.display.toByteArray.push separator) ++ candidate.parts.kind.label.toByteArray).push separator ++
    body.text.toByteArray

/-! ### Bytes and characters -/

def unitSeparator : Char := Char.ofNat 0x1f

/-- Joining in bytes is joining in characters. -/
theorem joined_bytes (front middle last : String) :
    ((front.toByteArray.push separator) ++ middle.toByteArray).push separator ++ last.toByteArray =
      (front ++ String.singleton unitSeparator ++ middle ++ String.singleton unitSeparator ++ last).toByteArray := by
  have one : (String.singleton unitSeparator).toByteArray = ByteArray.mk #[separator] := by decide
  have pushed : ∀ bytes : ByteArray, bytes.push separator = bytes ++ ByteArray.mk #[separator] := by
    intro bytes
    ext1
    simp
  simp only [pushed,String.toByteArray_append,one]

theorem joined_eq_iff {front middle last front' middle' last' : String} :
    ((front.toByteArray.push separator) ++ middle.toByteArray).push separator ++ last.toByteArray =
        ((front'.toByteArray.push separator) ++ middle'.toByteArray).push separator ++ last'.toByteArray ↔
      front.toList ++ unitSeparator :: (middle.toList ++ unitSeparator :: last.toList) =
        front'.toList ++ unitSeparator :: (middle'.toList ++ unitSeparator :: last'.toList) := by
  rw [joined_bytes,joined_bytes,String.toByteArray_inj,← String.toList_inj]
  simp only [String.toList_append,String.toList_singleton,List.append_assoc,List.cons_append,List.nil_append]

private theorem digitChar_inj : ∀ left < 16, ∀ right < 16, Nat.digitChar left = Nat.digitChar right → left = right := by
  decide

theorem hex_injective : Function.Injective hex := by
  intro left right same
  replace same := String.ofList_injective same
  induction left generalizing right with
  | nil => cases right <;> simp_all
  | cons byte rest ih =>
    cases right with
    | nil => simp at same
    | cons byte' rest' =>
      simp only [List.flatMap_cons,List.cons_append,List.nil_append,List.cons.injEq] at same
      obtain ⟨high,low,rests⟩ := same
      have bytes := byte.toNat_lt
      have bytes' := byte'.toNat_lt
      replace high := digitChar_inj _ (by omega) _ (by omega) high
      replace low := digitChar_inj _ (by omega) _ (by omega) low
      rw [ih rests,UInt8.toNat_inj.mp (by omega : byte.toNat = byte'.toNat)]

/-! ### What the parts cannot hold -/

/-- An accepted key carries no control character. -/
theorem key_printable {field text : String} (legal : (validateKey field text).isOk = true) :
    ∀ c ∈ text.toList, isControl c = false := by
  have clean : text.toList.any isControl = false := by
    unfold validateKey at legal
    split_ifs at legal with empty long padded control
    all_goals simp_all [Except.isOk,Except.toBool]
  simpa using clean

theorem separator_not_mem_key {field text : String} (legal : (validateKey field text).isOk = true) :
    unitSeparator ∉ text.toList := by
  intro within
  have printable := key_printable legal unitSeparator within
  revert printable
  decide

theorem separator_not_mem_keyOf (scope : Scope) : unitSeparator ∉ (keyOf scope).toList := by
  obtain ⟨owner,kind⟩ := scope
  cases kind with
  | personal => simp [keyOf,ScopeKind.key]
  | project key => exact separator_not_mem_key key.legal
  | shared key => exact separator_not_mem_key key.legal

theorem separator_not_mem_label (kind : ScopeKind) : unitSeparator ∉ kind.label.toList := by
  cases kind <;> simp only [ScopeKind.label] <;> decide

theorem slash_not_mem_label (kind : ScopeKind) : '/' ∉ kind.label.toList := by
  cases kind <;> simp only [ScopeKind.label] <;> decide

theorem separator_not_mem_kind (kind : MemoryKind) : unitSeparator ∉ kind.label.toList := by
  cases kind <;> decide

theorem slash_not_mem_kind (kind : MemoryKind) : '/' ∉ kind.label.toList := by
  cases kind <;> decide

theorem kind_label_injective : Function.Injective MemoryKind.label := by
  intro left right same
  cases left <;> cases right <;> first | rfl | exact absurd same (by decide)

/-- The label and the key say which kind it is. -/
theorem kind_eq_of_label_key {left right : ScopeKind} (labels : left.label = right.label)
    (keys : left.key.getD "" = right.key.getD "") : left = right := by
  cases left <;> cases right <;> simp_all [ScopeKind.label,ScopeKind.key,CheckedString.text_injective.eq_iff]

theorem scope_ext {left right : Scope} (owner : left.owner = right.owner) (kind : left.kind = right.kind) :
    left = right := by
  cases left
  cases right
  simp_all

/-! ### The stored scope id -/

theorem scopeMaterial_eq_iff {left right : Scope} : scopeMaterial left = scopeMaterial right ↔ left = right := by
  refine ⟨fun same => ?_,fun same => by rw [same]⟩
  rw [scopeMaterial,scopeMaterial,joined_eq_iff] at same
  -- The owner may hold the separator, the label and the key cannot: read from the right end.
  simp only [← List.cons_append,← List.append_assoc] at same
  obtain ⟨before,keys⟩ := (last_eq_iff (separator_not_mem_keyOf left) (separator_not_mem_keyOf right)).mp same
  obtain ⟨owners,labels⟩ := (last_eq_iff (separator_not_mem_label left.kind) (separator_not_mem_label right.kind)).mp before
  exact scope_ext (congrArg Claims.Sub.mk (String.toList_inj.mp owners))
    (kind_eq_of_label_key (String.toList_inj.mp labels) (String.toList_inj.mp keys))

/-- A scope id separates scopes, and so a stored scope column selects one scope's rows. -/
theorem scope_id_separates (left right : Scope) :
    (scopeMaterial left = scopeMaterial right ↔ left = right) ∧
    ∀ (sha256 : ByteArray → List UInt8), Function.Injective sha256 →
      ∀ {Row : Type} (scopeOf : Row → Scope) (rows : List Row),
        rows.filter (fun row => scopeId sha256 (scopeOf row) == scopeId sha256 left) =
          rows.filter (fun row => scopeOf row == left) := by
  refine ⟨scopeMaterial_eq_iff,fun sha256 injective Row scopeOf rows => ?_⟩
  congr 1
  funext row
  rw [Bool.eq_iff_iff,beq_iff_eq,beq_iff_eq]
  exact (hex_injective.comp injective).eq_iff.trans scopeMaterial_eq_iff

/-! ### Identities on the rendered scope -/

/-- What stands behind the owner in a rendered scope. -/
def rendering (kind : ScopeKind) : String := "/" ++ kind.label ++ (kind.key.map (fun key => "/" ++ key)).getD ""

/-- What a capture is filed under. -/
structure Filed where
  scope : Scope
  kind : MemoryKind
  text : String

def Filed.material (filed : Filed) : ByteArray := fingerprintMaterial filed.scope filed.kind filed.text

def filedAs (nfc : String → String) (candidate : Candidate) : Filed where
  scope := candidate.parts.scope
  kind := candidate.parts.kind
  text := normalizeText nfc candidate.parts.body.text

/-- The key of the outer scope ends as the inner kind renders, and the inner owner
    is what the outer scope renders before that. -/
def Shadows (outer inner : Scope) : Prop :=
  ∃ key within, outer.kind.key = some key ∧ "/" ++ key = within ++ rendering inner.kind ∧
    inner.owner.text = outer.owner.text ++ "/" ++ outer.kind.label ++ within

/-- The outer text ends with all that stands behind the inner owner, and the inner
    owner is everything of the outer before that. -/
def Smuggles (outer inner : Filed) : Prop :=
  let mark := String.singleton unitSeparator
  ∃ words, outer.text = words ++ rendering inner.scope.kind ++ mark ++ inner.kind.label ++ mark ++ inner.text ∧
    inner.scope.owner.text = outer.scope.display ++ mark ++ outer.kind.label ++ mark ++ words

def Confused (outer inner : Filed) : Prop :=
  (Shadows outer.scope inner.scope ∧ outer.kind = inner.kind ∧ outer.text = inner.text) ∨ Smuggles outer inner

theorem display_eq (scope : Scope) : scope.display = scope.owner.text ++ rendering scope.kind := by
  cases scope with
  | mk owner kind => cases kind <;> simp [Scope.display,rendering,ScopeKind.key,String.append_assoc]

/-- The key with its slash, where there is one. -/
def keyTail (kind : ScopeKind) : List Char := (kind.key.map (fun key => '/' :: key.toList)).getD []

theorem rendering_toList (kind : ScopeKind) : (rendering kind).toList = '/' :: (kind.label.toList ++ keyTail kind) := by
  cases kind <;> simp [rendering,keyTail,ScopeKind.key]

theorem rendering_injective : Function.Injective rendering := by
  intro left right same
  rw [← String.toList_inj,rendering_toList,rendering_toList] at same
  cases left <;> cases right <;>
    simp_all [keyTail,ScopeKind.label,ScopeKind.key,String.toList_inj,CheckedString.text_injective.eq_iff]

private theorem separator_ne_slash : unitSeparator ≠ '/' := by decide

theorem separator_not_mem_keyTail (kind : ScopeKind) : unitSeparator ∉ keyTail kind := by
  have slash := separator_ne_slash
  cases kind with
  | personal => simp [keyTail,ScopeKind.key]
  | project key => simpa [keyTail,ScopeKind.key,slash] using separator_not_mem_key key.legal
  | shared key => simpa [keyTail,ScopeKind.key,slash] using separator_not_mem_key key.legal

theorem separator_not_mem_rendering (kind : ScopeKind) : unitSeparator ∉ (rendering kind).toList := by
  rw [rendering_toList]
  simp only [List.mem_cons,List.mem_append,not_or]
  exact ⟨separator_ne_slash,separator_not_mem_label kind,separator_not_mem_keyTail kind⟩

/-- The inner rendering, with what follows it, starts within what follows the outer label. -/
def Overlaps (outer inner : Scope) (after after' : List Char) (within : List Char) : Prop :=
  inner.owner.text.toList = outer.owner.text.toList ++ '/' :: (outer.kind.label.toList ++ within) ∧
    keyTail outer.kind ++ after = within ++ ((rendering inner.kind).toList ++ after')

private theorem overlaps_of_cut {outer inner : Scope} {after after' more : List Char} {item : Char}
    (owner : inner.owner.text.toList = outer.owner.text.toList ++ item :: more)
    (cut : (rendering outer.kind).toList ++ after = item :: more ++ ((rendering inner.kind).toList ++ after')) :
    ∃ within, Overlaps outer inner after after' within := by
  rw [rendering_toList,rendering_toList,List.cons_append,List.cons_append,List.cons_append,List.cons.injEq,
    List.append_assoc] at cut
  obtain ⟨rfl,rests⟩ := cut
  -- No label holds a slash, so the inner rendering starts behind the label.
  obtain ⟨within,rfl,follows⟩ := beyond_front (slash_not_mem_label outer.kind) rests
  exact ⟨within,owner,by rw [follows,rendering_toList,List.cons_append]⟩

/-- Two rendered scopes with what follows them agree only owner by owner, or where
    one starts within the other. -/
theorem rendered_cases {left right : Scope} {after after' : List Char}
    (same : left.display.toList ++ after = right.display.toList ++ after') :
    (left.owner = right.owner ∧ (rendering left.kind).toList ++ after = (rendering right.kind).toList ++ after') ∨
    (∃ within, Overlaps left right after after' within) ∨ ∃ within, Overlaps right left after' after within := by
  rw [display_eq,display_eq,String.toList_append,String.toList_append,List.append_assoc,List.append_assoc] at same
  rcases append_eq_append_cases same with ⟨owners,rests⟩ | ⟨item,more,owner,cut⟩ | ⟨item,more,owner,cut⟩
  · exact .inl ⟨congrArg Claims.Sub.mk (String.toList_inj.mp owners),rests⟩
  · exact .inr (.inl (overlaps_of_cut owner cut))
  · exact .inr (.inr (overlaps_of_cut owner cut))

theorem shadows_iff {outer inner : Scope} : Shadows outer inner ↔ ∃ within, Overlaps outer inner [] [] within := by
  simp only [Shadows,Overlaps,List.append_nil]
  constructor
  · rintro ⟨key,within,keyed,ends,owner⟩
    refine ⟨within.toList,by simp [owner],?_⟩
    rw [keyTail,keyed,← String.toList_append,← ends]
    simp
  · rintro ⟨within,owner,ends⟩
    obtain ⟨key,keyed⟩ : ∃ key, outer.kind.key = some key := by
      refine Option.ne_none_iff_exists'.mp (fun keyless => ?_)
      simp [keyTail,keyless,rendering_toList] at ends
    refine ⟨key,String.ofList within,keyed,?_,?_⟩
    · rw [← String.toList_inj]
      simpa [keyTail,keyed] using ends
    · rw [← String.toList_inj,owner]
      simp

theorem ne_of_overlaps {outer inner : Scope} {after after' within : List Char}
    (overlaps : Overlaps outer inner after after' within) : outer ≠ inner := by
  rintro rfl
  have longer := congrArg List.length overlaps.1
  simp at longer

/-- The rendered scopes of a pair agree exactly where the scopes do or one shadows the other. -/
theorem display_eq_iff {left right : Scope} :
    left.display = right.display ↔ left = right ∨ Shadows left right ∨ Shadows right left := by
  constructor
  · intro same
    rw [shadows_iff,shadows_iff]
    have extended : left.display.toList ++ [] = right.display.toList ++ [] := by rw [same]
    rcases rendered_cases extended with ⟨owner,rests⟩ | within | within
    · rw [List.append_nil,List.append_nil,String.toList_inj] at rests
      exact .inl (scope_ext owner (rendering_injective rests))
    · exact .inr (.inl within)
    · exact .inr (.inr within)
  · have shadowed : ∀ {outer inner : Scope}, Shadows outer inner → outer.display = inner.display := by
      rintro outer inner ⟨key,within,keyed,ends,owner⟩
      rw [display_eq,display_eq,owner,rendering,keyed,Option.map_some,Option.getD_some,ends]
      simp only [String.append_assoc]
    rintro (rfl | shadows | shadows)
    · rfl
    · exact shadowed shadows
    · exact (shadowed shadows).symm

/-- What stands behind the rendered scope in the material. -/
def tail (filed : Filed) : List Char :=
  unitSeparator :: (filed.kind.label.toList ++ unitSeparator :: filed.text.toList)

theorem tail_eq_iff {left right : Filed} : tail left = tail right ↔ left.kind = right.kind ∧ left.text = right.text := by
  rw [tail,tail,List.cons.injEq,first_eq_iff (separator_not_mem_kind left.kind) (separator_not_mem_kind right.kind),
    String.toList_inj,String.toList_inj,kind_label_injective.eq_iff]
  simp

theorem material_eq_iff_chars {left right : Filed} :
    left.material = right.material ↔ left.scope.display.toList ++ tail left = right.scope.display.toList ++ tail right :=
  joined_eq_iff

theorem material_eq_of_smuggles {outer inner : Filed} (smuggles : Smuggles outer inner) : outer.material = inner.material := by
  obtain ⟨words,ends,owner⟩ := smuggles
  rw [material_eq_iff_chars,display_eq inner.scope,tail,tail,ends,owner]
  simp

/-- An overlap either ends within the key or reaches the text. -/
theorem confused_of_overlaps {outer inner : Filed} {within : List Char}
    (overlaps : Overlaps outer.scope inner.scope (tail outer) (tail inner) within) : Confused outer inner := by
  obtain ⟨owner,follows⟩ := overlaps
  rcases List.append_eq_append_iff.mp follows with ⟨middle,rfl,late⟩ | ⟨middle,early,rests⟩
  · -- The owner takes in the whole key: no slash before the text, so it runs into the text.
    right
    rw [tail,rendering_toList] at late
    cases middle with
    | nil => exact absurd (List.cons.inj late).1 separator_ne_slash
    | cons mark beyond =>
      obtain ⟨rfl,labelled⟩ := List.cons.inj late
      obtain ⟨more,rfl,texts⟩ := beyond_front (slash_not_mem_kind outer.kind) labelled
      cases more with
      | nil => exact absurd (List.cons.inj texts).1 separator_ne_slash
      | cons mark words =>
        obtain ⟨rfl,text⟩ := List.cons.inj texts
        refine ⟨String.ofList words,?_,?_⟩
        · rw [← String.toList_inj,text]
          simp [rendering_toList,tail]
        · rw [← String.toList_inj,owner]
          simp [display_eq,rendering_toList]
  · -- The owner ends within the key, and the key holds no separator.
    left
    have apart : unitSeparator ∉ middle := fun held =>
      separator_not_mem_keyTail outer.scope.kind (early ▸ List.mem_append_right within held)
    obtain ⟨rfl,tails⟩ := (first_eq_iff (separator_not_mem_rendering inner.scope.kind) apart).mp rests
    obtain ⟨kinds,texts⟩ := tail_eq_iff.mp (congrArg (List.cons unitSeparator) tails)
    exact ⟨shadows_iff.mpr ⟨within,owner,by simpa using early⟩,kinds.symm,texts.symm⟩

theorem material_eq_iff {left right : Filed} :
    left.material = right.material ↔ left = right ∨ Confused left right ∨ Confused right left := by
  constructor
  · intro same
    rcases rendered_cases (material_eq_iff_chars.mp same) with ⟨owner,rests⟩ | ⟨within,overlaps⟩ | ⟨within,overlaps⟩
    · left
      obtain ⟨kinds,tails⟩ := (first_eq_iff (separator_not_mem_rendering left.scope.kind)
        (separator_not_mem_rendering right.scope.kind)).mp rests
      obtain ⟨memoryKinds,texts⟩ := tail_eq_iff.mp (congrArg (List.cons unitSeparator) tails)
      rcases left with ⟨_,_,_⟩
      rcases right with ⟨_,_,_⟩
      rw [Filed.mk.injEq]
      exact ⟨scope_ext owner (rendering_injective (String.toList_inj.mp kinds)),memoryKinds,texts⟩
    · exact .inr (.inl (confused_of_overlaps overlaps))
    · exact .inr (.inr (confused_of_overlaps overlaps))
  · have confused : ∀ {outer inner : Filed}, Confused outer inner → outer.material = inner.material := by
      rintro outer inner (⟨shadows,kinds,texts⟩ | smuggles)
      · rw [Filed.material,Filed.material,fingerprintMaterial,fingerprintMaterial,
          display_eq_iff.mpr (.inr (.inl shadows)),kinds,texts]
      · exact material_eq_of_smuggles smuggles
    rintro (rfl | toRight | toLeft)
    · rfl
    · exact confused toRight
    · exact (confused toLeft).symm

theorem ne_of_confused {outer inner : Filed} (confused : Confused outer inner) : outer ≠ inner := by
  rintro rfl
  rcases confused with ⟨shadows,-,-⟩ | ⟨words,-,owner⟩
  · obtain ⟨within,overlaps⟩ := shadows_iff.mp shadows
    exact ne_of_overlaps overlaps rfl
  · have longer := congrArg (fun text => text.toList.length) owner
    simp [display_eq,rendering_toList] at longer

/-- Equal bytes come from equal parts exactly where neither side is confused with the other. -/
theorem material_separates_iff (left right : Filed) :
    (left.material = right.material → left = right) ↔ ¬ Confused left right ∧ ¬ Confused right left := by
  rw [material_eq_iff]
  constructor
  · intro separates
    exact ⟨fun confused => ne_of_confused confused (separates (.inr (.inl confused))),
      fun confused => ne_of_confused confused (separates (.inr (.inr confused))).symm⟩
  · rintro ⟨apart,apart'⟩ (same | confused | confused)
    · exact same
    · exact absurd confused apart
    · exact absurd confused apart'

theorem subject_eq_iff {left right : SubjectRef} : left = right ↔
    left.namespace.text = right.namespace.text ∧ left.kind.text = right.kind.text ∧ left.key.text = right.key.text := by
  cases left
  cases right
  simp [CheckedString.text_injective.eq_iff]

theorem slotId_eq_iff {left right : Claim} : SlotId.ofClaim left = SlotId.ofClaim right ↔
    left.scope.display = right.scope.display ∧ left.subject = right.subject ∧
      left.predicate = right.predicate ∧ left.slot = right.slot := by
  rw [SlotId.ofClaim,SlotId.ofClaim,SlotId.mk.injEq,subject_eq_iff]
  tauto

theorem identities_separate_iff (nfc : String → String) :
    (∀ (left right : Scope) (kind kind' : MemoryKind) (raw raw' : String),
      (fingerprintMaterial left kind (normalizeText nfc raw) = fingerprintMaterial right kind' (normalizeText nfc raw') →
          left = right ∧ kind = kind' ∧ normalizeText nfc raw = normalizeText nfc raw') ↔
        ¬ Confused ⟨left,kind,normalizeText nfc raw⟩ ⟨right,kind',normalizeText nfc raw'⟩ ∧
        ¬ Confused ⟨right,kind',normalizeText nfc raw'⟩ ⟨left,kind,normalizeText nfc raw⟩) ∧
    (∀ left right : Candidate,
      (digestMaterial nfc left = digestMaterial nfc right → filedAs nfc left = filedAs nfc right) ↔
        ¬ Confused (filedAs nfc left) (filedAs nfc right) ∧ ¬ Confused (filedAs nfc right) (filedAs nfc left)) ∧
    ∀ left right : Claim,
      (SlotId.ofClaim left = SlotId.ofClaim right → left.scope = right.scope ∧ left.subject = right.subject ∧
          left.predicate = right.predicate ∧ left.slot = right.slot) ↔
        (left.subject = right.subject → left.predicate = right.predicate → left.slot = right.slot →
          ¬ Shadows left.scope right.scope ∧ ¬ Shadows right.scope left.scope) := by
  refine ⟨?_,?_,?_⟩
  · intro left right kind kind' raw raw'
    rw [← material_separates_iff,Filed.mk.injEq]
    rfl
  · intro left right
    exact material_separates_iff (filedAs nfc left) (filedAs nfc right)
  · intro left right
    have apart : ∀ {outer inner : Scope}, Shadows outer inner → outer ≠ inner := by
      intro outer inner shadows
      obtain ⟨within,overlaps⟩ := shadows_iff.mp shadows
      exact ne_of_overlaps overlaps
    rw [slotId_eq_iff,display_eq_iff]
    constructor
    · intro separates subject predicate slot
      exact ⟨fun shadows => apart shadows (separates ⟨.inr (.inl shadows),subject,predicate,slot⟩).1,
        fun shadows => apart shadows (separates ⟨.inr (.inr shadows),subject,predicate,slot⟩).1.symm⟩
    · rintro unshadowed ⟨scopes,subject,predicate,slot⟩
      have ⟨right',left'⟩ := unshadowed subject predicate slot
      exact ⟨by tauto,subject,predicate,slot⟩

namespace Sample
open Claims.Sample Memories.Sample

/-- A project whose key ends as a personal scope renders. -/
def outerScope : Scope := ⟨⟨"a"⟩,.project ⟨"b/personal",by decide⟩⟩

/-- The personal scope of an owner whose subject holds slashes. -/
def innerScope : Scope := ⟨⟨"a/project/b"⟩,.personal⟩

def candidateIn (scope : Scope) : Candidate := ⟨{ Memories.Sample.parts ⟨"note",none,[]⟩ with scope := scope },.authenticated⟩

def claimIn (scope : Scope) : Claim := { claim firstId "12A" with scope := scope }

/-- A digest that keeps every byte. -/
def wholeDigest (bytes : ByteArray) : List UInt8 := bytes.data.toList

theorem wholeDigest_injective : Function.Injective wholeDigest := by
  intro left right same
  exact ByteArray.ext (Array.toList_inj.mp same)

/-- The scopes that render alike have ids apart, and rows apart. -/
theorem scope_id_separates_alike : outerScope.display = innerScope.display ∧
    scopeMaterial outerScope ≠ scopeMaterial innerScope ∧
    [outerScope,innerScope].filter (fun row => scopeId wholeDigest row == scopeId wholeDigest outerScope) = [outerScope] :=
  ⟨by decide,(scope_id_separates outerScope innerScope).1.not.mpr (by decide),
    ((scope_id_separates outerScope innerScope).2 wholeDigest wholeDigest_injective id [outerScope,innerScope]).trans (by decide)⟩

/-- Two scopes share every identity built on the rendering. -/
theorem one_identity_two_scopes : outerScope ≠ innerScope ∧
    fingerprintMaterial outerScope .fact "note" = fingerprintMaterial innerScope .fact "note" ∧
    digestMaterial id (candidateIn outerScope) = digestMaterial id (candidateIn innerScope) ∧
    SlotId.ofClaim (claimIn outerScope) = SlotId.ofClaim (claimIn innerScope) := by
  have rendered : outerScope.display = innerScope.display := by decide
  refine ⟨by decide,?_,?_,?_⟩
  · rw [fingerprintMaterial,fingerprintMaterial,rendered]
  · rw [digestMaterial,digestMaterial,candidateIn,candidateIn,rendered]
  · rw [SlotId.ofClaim,SlotId.ofClaim,claimIn,claimIn,rendered]

end Sample

end Aicortex.ScopeIdentity
