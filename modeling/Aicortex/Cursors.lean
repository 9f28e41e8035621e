import Aicortex.ScopeIdentity
import Aicortex.Schema
import Aicortex.Lib.BigEndian

/-!
The cursor a page of a listing hands out. It carries the position of the last row and a
tag over the position, the scope and the filter; the scope and the filter are covered
and not carried. It is read back where it was signed, and refused anywhere else. The
digest, the keyed tag and the text encoding are linked code and a parameter here.
-/

namespace Aicortex.Cursors
open Aicortex.Text Aicortex.CivilTime Aicortex.Memories Aicortex.Schema Aicortex.ScopeIdentity
open Lib.BigEndian Lib.Delimited
open Aicortex.Claims hiding Unit
set_option linter.unusedSimpArgs false

/-! ### Filters -/

/-- A status as the column holds it. -/
abbrev StatusFilter := StatusLabel

def StatusFilter.label : StatusFilter → String
  | .active => "active"
  | .quarantined => "quarantined"
  | .superseded => "superseded"
  | .expired => "expired"
  | .erased => "erased"

/-- What a listing asks for besides its scope. -/
structure MemoryFilter where
  status : Option StatusFilter
  kind : Option MemoryKind
  deriving Repr, DecidableEq

namespace MemoryFilter

def statusText (filter : MemoryFilter) : String := (filter.status.map StatusFilter.label).getD "*"

def kindText (filter : MemoryFilter) : String := (filter.kind.map MemoryKind.label).getD "*"

def material (filter : MemoryFilter) : String := "status=" ++ filter.statusText ++ "\x1fkind=" ++ filter.kindText

def digest (sha256 : ByteArray → List UInt8) (filter : MemoryFilter) : String := hex (sha256 filter.material.toByteArray)

end MemoryFilter

/-! ### Cursors -/

/-- The secret a cursor is signed with. -/
structure CursorKey where
  secret : List UInt8
  width : secret.length = 32
  deriving DecidableEq

/-- The last row a page ended on. -/
structure Cursor where
  created : UInt64
  id : MemoryId
  deriving DecidableEq

/-- The linked code a cursor is made with. -/
structure Signing where
  sha256 : ByteArray → List UInt8
  hmac : CursorKey → List UInt8 → List UInt8
  encodeText : List UInt8 → String
  decodeText : String → Option (List UInt8)

def macBytes : Nat := 32
def positionBytes : Nat := 1 + 8 + 16
def version : UInt8 := 1
def domain : String := "aicortex:012:keyset-cursor:v1"

/-- Digests and tags have the width of the hash, and an encoded text is read back. -/
structure Signing.Lawful (signing : Signing) : Prop where
  digests : ∀ material, (signing.sha256 material).length = 32
  tags : ∀ key material, (signing.hmac key material).length = macBytes
  texts : ∀ bytes, signing.decodeText (signing.encodeText bytes) = some bytes

def utf8 (text : String) : List UInt8 := text.toByteArray.data.toList

def refused (reason : String) : StoreError := .validation ("cursor is not usable here: " ++ reason)

def unsigned : StoreError := refused "it was not signed for this scope and filter"

/-- The signed position: version, timestamp, id. -/
def Cursor.position (cursor : Cursor) : List UInt8 :=
  version :: (bytesOf 8 cursor.created.toNat ++ bytesOf 16 cursor.id.value)

/-- The id of sixteen bytes. -/
def fromBytes (bytes : List UInt8) : MemoryId := ⟨numberOf bytes % 2 ^ 128,Nat.mod_lt _ (by decide)⟩

section
variable (signing : Signing)

/-- Everything the tag covers. -/
def material (position : List UInt8) (scope : String) (filter : MemoryFilter) : List UInt8 :=
  utf8 domain ++ position ++ utf8 scope ++ utf8 (filter.digest signing.sha256)

def sign (key : CursorKey) (position : List UInt8) (scope : String) (filter : MemoryFilter) : List UInt8 :=
  signing.hmac key (material signing position scope filter)

def Cursor.encode (cursor : Cursor) (key : CursorKey) (scope : String) (filter : MemoryFilter) : String :=
  signing.encodeText (cursor.position ++ sign signing key cursor.position scope filter)

/-- Read a cursor a client presented, under the scope and filter it is presented with. -/
def Cursor.decode (text : String) (key : CursorKey) (scope : String) (filter : MemoryFilter) : Except StoreError Cursor :=
  match signing.decodeText text with
  | none => .error (refused "it is not base64url")
  | some wire =>
    if wire.length ≠ positionBytes + macBytes then .error (refused "it is the wrong length")
    else
      let position := wire.take positionBytes
      let mac := wire.drop positionBytes
      if sign signing key position scope filter ≠ mac then .error unsigned
      else
        let rest := position.drop 1
        if position.head? ≠ some version then .error (refused "it carries a version this build does not read")
        else .ok ⟨UInt64.ofNat (numberOf (rest.take 8)),fromBytes (rest.drop 8)⟩

end

/-! ### Positions -/

@[simp] theorem length_position (cursor : Cursor) : cursor.position.length = positionBytes := by
  simp [Cursor.position,positionBytes]

private theorem sixteen_bytes : (256 : Nat) ^ 16 = 2 ^ 128 := by norm_num

theorem fromBytes_bytesOf (id : MemoryId) : fromBytes (bytesOf 16 id.value) = id := by
  have read : numberOf (bytesOf 16 id.value) = id.value := numberOf_bytesOf (by rw [sixteen_bytes]; exact id.bound)
  apply Uuid.value_injective
  simp only [fromBytes,read,Nat.mod_eq_of_lt id.bound]

theorem ofNat_bytesOf (created : UInt64) : UInt64.ofNat (numberOf (bytesOf 8 created.toNat)) = created := by
  rw [numberOf_bytesOf created.toNat_lt,UInt64.ofNat_toNat]

/-- The bytes of a position with the known version are those of the cursor read from it. -/
theorem position_of_bytes {bytes : List UInt8} (length : bytes.length = positionBytes) (known : bytes.head? = some version) :
    (Cursor.mk (UInt64.ofNat (numberOf ((bytes.drop 1).take 8))) (fromBytes ((bytes.drop 1).drop 8))).position = bytes := by
  obtain ⟨rest,rfl⟩ : ∃ rest, bytes = version :: rest := by
    cases bytes with
    | nil => cases known
    | cons first rest => exact ⟨rest,by rw [Option.some.inj known]⟩
  have width : rest.length = 24 := by simpa [positionBytes] using length
  have front : (rest.take 8).length = 8 := by simp [width]
  have back : (rest.drop 8).length = 16 := by simp [width]
  have low := numberOf_lt (rest.take 8)
  have high := numberOf_lt (rest.drop 8)
  rw [front] at low
  rw [back,sixteen_bytes] at high
  have created : (UInt64.ofNat (numberOf (rest.take 8))).toNat = numberOf (rest.take 8) :=
    UInt64.toNat_ofNat_of_lt' low
  have value : (fromBytes (rest.drop 8)).value = numberOf (rest.drop 8) := Nat.mod_eq_of_lt high
  have first := bytesOf_numberOf (rest.take 8)
  have second := bytesOf_numberOf (rest.drop 8)
  rw [front] at first
  rw [back] at second
  simp only [Cursor.position,List.drop_succ_cons,List.drop_zero,created,value,first,second,List.take_append_drop]

theorem position_injective : Function.Injective Cursor.position := by
  rintro ⟨created,id⟩ ⟨created',id'⟩ same
  simp only [Cursor.position,List.cons.injEq,true_and] at same
  obtain ⟨first,second⟩ := List.append_inj same (by simp)
  rw [← ofNat_bytesOf created,← fromBytes_bytesOf id,first,second,ofNat_bytesOf,fromBytes_bytesOf]

/-! ### Reading back -/

section
variable {signing : Signing}

/-- A text is accepted exactly when it carries the position and the tag of it. -/
theorem decode_ok_iff (lawful : signing.Lawful) {text : String} {key : CursorKey} {scope : String}
    {filter : MemoryFilter} {cursor : Cursor} :
    Cursor.decode signing text key scope filter = .ok cursor ↔
      signing.decodeText text = some (cursor.position ++ sign signing key cursor.position scope filter) := by
  constructor
  · intro accepted
    unfold Cursor.decode at accepted
    split at accepted
    · cases accepted
    next wire read =>
    dsimp only at accepted
    split_ifs at accepted with length signed known
    obtain rfl := Except.ok.inj accepted
    have position := @position_of_bytes (wire.take positionBytes) (by simp [not_not.mp length]) (not_not.mp known)
    rw [position,not_not.mp signed,List.take_append_drop,read]
  · intro read
    have tag : (sign signing key cursor.position scope filter).length = macBytes := lawful.tags _ _
    have front : (cursor.position ++ sign signing key cursor.position scope filter).take positionBytes = cursor.position := by
      rw [← length_position cursor,List.take_left]
    have back : (cursor.position ++ sign signing key cursor.position scope filter).drop positionBytes =
        sign signing key cursor.position scope filter := by
      rw [← length_position cursor,List.drop_left]
    have length : (cursor.position ++ sign signing key cursor.position scope filter).length = positionBytes + macBytes := by
      rw [List.length_append,length_position,tag]
    have known : cursor.position.head? = some version := rfl
    simp only [Cursor.decode,read,length,front,back,known,ne_eq,not_true_eq_false,if_false]
    have read' := @position_of_bytes cursor.position (length_position cursor) known
    rw [position_injective read']

theorem decode_encode (lawful : signing.Lawful) (cursor : Cursor) (key : CursorKey) (scope : String) (filter : MemoryFilter) :
    Cursor.decode signing (cursor.encode signing key scope filter) key scope filter = .ok cursor :=
  (decode_ok_iff lawful).mpr (lawful.texts _)

/-- A text with another tag than the one its position has here is refused. -/
theorem decode_unsigned {text : String} {position mac : List UInt8} {key : CursorKey} {scope : String}
    {filter : MemoryFilter} (carries : signing.decodeText text = some (position ++ mac))
    (length : position.length = positionBytes) (tagged : mac.length = macBytes)
    (other : sign signing key position scope filter ≠ mac) :
    Cursor.decode signing text key scope filter = .error unsigned := by
  have front : (position ++ mac).take positionBytes = position := by rw [← length,List.take_left]
  have back : (position ++ mac).drop positionBytes = mac := by rw [← length,List.drop_left]
  simp [Cursor.decode,carries,length,tagged,front,back,other]

end

/-! ### What a tag is over -/

theorem status_label_injective : Function.Injective StatusFilter.label := by
  intro left right same
  cases left <;> cases right <;> first | rfl | exact absurd same (by decide)

/-- A choice is read back from its label where no label is the star of none. -/
theorem starred_injective {α : Type} {label : α → String} (injective : Function.Injective label)
    (starless : ∀ item, label item ≠ "*") : Function.Injective (fun choice : Option α => (choice.map label).getD "*") := by
  intro left right same
  cases left with
  | none =>
    cases right with
    | none => rfl
    | some item => exact absurd same.symm (starless item)
  | some item =>
    cases right with
    | none => exact absurd same (starless item)
    | some other => exact congrArg some (injective same)

theorem separator_not_mem_statusText (filter : MemoryFilter) : unitSeparator ∉ filter.statusText.toList := by
  obtain ⟨status,kind⟩ := filter
  rcases status with _ | status
  · simp only [MemoryFilter.statusText]
    decide
  · cases status <;> simp only [MemoryFilter.statusText] <;> decide

/-- The separator stands in neither label, so a filter is what its material says. -/
theorem filterMaterial_eq_iff {left right : MemoryFilter} : left.material = right.material ↔ left = right := by
  refine ⟨fun same => ?_,fun same => by rw [same]⟩
  have chars : ∀ filter : MemoryFilter, filter.material.toList =
      "status=".toList ++ (filter.statusText.toList ++ unitSeparator :: ("kind=".toList ++ filter.kindText.toList)) := by
    intro filter
    have middle : "\x1fkind=".toList = unitSeparator :: "kind=".toList := by decide
    simp only [MemoryFilter.material,String.toList_append,middle,List.append_assoc,List.cons_append]
  rw [← String.toList_inj,chars,chars,List.append_cancel_left_eq,
    first_eq_iff (separator_not_mem_statusText left) (separator_not_mem_statusText right),List.append_cancel_left_eq,
    String.toList_inj,String.toList_inj] at same
  have status : left.status = right.status :=
    starred_injective status_label_injective (fun label => by cases label <;> decide) same.1
  have kind : left.kind = right.kind :=
    starred_injective kind_label_injective (fun label => by cases label <;> decide) same.2
  cases left
  cases right
  cases status
  cases kind
  rfl

theorem utf8_injective : Function.Injective utf8 := by
  intro left right same
  apply String.toByteArray_inj.mp
  exact ByteArray.ext (Array.toList_inj.mp same)

theorem length_utf8_hex (digest : List UInt8) : (utf8 (hex digest)).length = 2 * digest.length := by
  have sized : ∀ text : String, (utf8 text).length = text.utf8ByteSize := fun text => rfl
  have single : ∀ digit < 16, (String.singleton (Nat.digitChar digit)).utf8ByteSize = 1 := by decide
  rw [sized]
  induction digest with
  | nil => rfl
  | cons byte rest ih =>
    have split : hex (byte :: rest) = String.singleton (Nat.digitChar (byte.toNat / 16)) ++
        String.singleton (Nat.digitChar (byte.toNat % 16)) ++ hex rest := by
      apply String.toList_inj.mp
      simp [hex]
    have bytes := byte.toNat_lt
    rw [split,String.utf8ByteSize_append,String.utf8ByteSize_append,single _ (by omega),single _ (by omega),ih,
      List.length_cons]
    omega

/-- What a cursor was minted over, or is presented with. -/
structure Minted where
  key : CursorKey
  position : List UInt8
  scope : Scope
  filter : MemoryFilter
  deriving DecidableEq

namespace Minted

def scopeText (minted : Minted) (signing : Signing) : String := scopeId signing.sha256 minted.scope

def covered (minted : Minted) (signing : Signing) : List UInt8 :=
  material signing minted.position (minted.scopeText signing) minted.filter

def tag (minted : Minted) (signing : Signing) : List UInt8 :=
  sign signing minted.key minted.position (minted.scopeText signing) minted.filter

end Minted

/-- The keyed tag, the scope digest and the filter digest do not collide on two cursors. -/
structure Uncollided (signing : Signing) (one two : Minted) : Prop where
  tags : signing.hmac one.key (one.covered signing) = signing.hmac two.key (two.covered signing) →
    one.key = two.key ∧ one.covered signing = two.covered signing
  scopes : signing.sha256 (scopeMaterial one.scope) = signing.sha256 (scopeMaterial two.scope) →
    scopeMaterial one.scope = scopeMaterial two.scope
  filters : signing.sha256 one.filter.material.toByteArray = signing.sha256 two.filter.material.toByteArray →
    one.filter.material.toByteArray = two.filter.material.toByteArray

/-- Without a collision a tag says what it was minted over: the parts it covers have
    fixed widths. -/
theorem minted_of_tag {signing : Signing} (lawful : signing.Lawful) {one two : Minted}
    (uncollided : Uncollided signing one two) (first : one.position.length = positionBytes)
    (second : two.position.length = positionBytes) (same : one.tag signing = two.tag signing) : one = two := by
  obtain ⟨key,covered⟩ := uncollided.tags same
  have widths : ∀ minted : Minted, (utf8 (minted.scopeText signing)).length = 64 := by
    intro minted
    rw [Minted.scopeText,scopeId,length_utf8_hex,lawful.digests]
  simp only [Minted.covered,material,List.append_assoc] at covered
  obtain ⟨-,rest⟩ := List.append_inj covered rfl
  obtain ⟨position,texts⟩ := List.append_inj rest (first.trans second.symm)
  obtain ⟨scopes,filters⟩ := List.append_inj texts ((widths one).trans (widths two).symm)
  have scope : one.scope = two.scope :=
    scopeMaterial_eq_iff.mp (uncollided.scopes (hex_injective (utf8_injective scopes)))
  have filter : one.filter = two.filter :=
    filterMaterial_eq_iff.mp (String.toByteArray_inj.mp (uncollided.filters (hex_injective (utf8_injective filters))))
  cases one
  cases two
  cases key
  cases position
  cases scope
  cases filter
  rfl

/-- A tag is refused with any key, scope, filter or position but its own. -/
theorem decode_elsewhere {signing : Signing} (lawful : signing.Lawful) {minted presented : Minted} {text : String}
    (first : minted.position.length = positionBytes) (second : presented.position.length = positionBytes)
    (uncollided : Uncollided signing presented minted)
    (carries : signing.decodeText text = some (presented.position ++ minted.tag signing)) (other : presented ≠ minted) :
    Cursor.decode signing text presented.key (presented.scopeText signing) presented.filter = .error unsigned := by
  refine decode_unsigned carries second (lawful.tags _ _) fun same => other ?_
  exact minted_of_tag lawful uncollided second first same

end Aicortex.Cursors
