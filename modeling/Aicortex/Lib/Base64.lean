import Mathlib.Data.List.Basic

/-!
Unpadded base64 in the URL alphabet. Three bytes are four groups of six bits, and a
group that ends the text early holds no stray bit; what is encoded is read back.
-/

namespace Lib.Base64

/-- The character of a six-bit group. -/
def charOf (group : Nat) : Char :=
  if group < 26 then Char.ofNat (65 + group)
  else if group < 52 then Char.ofNat (71 + group)
  else if group < 62 then Char.ofNat (group - 4)
  else if group = 62 then '-'
  else '_'

def groupOf (c : Char) : Option Nat :=
  let code := c.toNat
  if 65 ≤ code ∧ code ≤ 90 then some (code - 65)
  else if 97 ≤ code ∧ code ≤ 122 then some (code - 71)
  else if 48 ≤ code ∧ code ≤ 57 then some (code + 4)
  else if c = '-' then some 62
  else if c = '_' then some 63
  else none

/-- The six-bit groups of some bytes. -/
def groups : List Nat → List Nat
  | [] => []
  | [a] => [a / 4,a % 4 * 16]
  | [a,b] => [a / 4,a % 4 * 16 + b / 16,b % 16 * 4]
  | a :: b :: c :: rest => a / 4 :: (a % 4 * 16 + b / 16) :: (b % 16 * 4 + c / 64) :: c % 64 :: groups rest

/-- The bytes of some six-bit groups. -/
def ungroup : List Nat → Option (List Nat)
  | [] => some []
  | [_] => none
  | [w,x] => if x % 16 = 0 then some [w * 4 + x / 16] else none
  | [w,x,y] => if y % 4 = 0 then some [w * 4 + x / 16,x % 16 * 16 + y / 4] else none
  | w :: x :: y :: z :: rest =>
    (ungroup rest).map (fun bytes => (w * 4 + x / 16) :: (x % 16 * 16 + y / 4) :: (y % 4 * 64 + z) :: bytes)

def encode (bytes : List UInt8) : String := String.ofList ((groups (bytes.map UInt8.toNat)).map charOf)

def decode (text : String) : Option (List UInt8) :=
  (text.toList.mapM groupOf).bind (fun groups => (ungroup groups).map (fun bytes => bytes.map UInt8.ofNat))

theorem groupOf_charOf : ∀ group < 64, groupOf (charOf group) = some group := by decide

theorem groups_lt {bytes : List Nat} (small : ∀ byte ∈ bytes, byte < 256) : ∀ group ∈ groups bytes, group < 64 := by
  fun_induction groups bytes with
  | case1 => simp
  | case2 a =>
    have first : a < 256 := small a (by simp)
    simp only [List.mem_cons,List.not_mem_nil,or_false,forall_eq_or_imp,forall_eq]
    omega
  | case3 a b =>
    have first : a < 256 := small a (by simp)
    have second : b < 256 := small b (by simp)
    simp only [List.mem_cons,List.not_mem_nil,or_false,forall_eq_or_imp,forall_eq]
    omega
  | case4 a b c rest ih =>
    have first : a < 256 := small a (by simp)
    have second : b < 256 := small b (by simp)
    have third : c < 256 := small c (by simp)
    have others := ih fun byte member => small byte (by simp [member])
    simp only [List.forall_mem_cons]
    refine ⟨?_,?_,?_,?_,others⟩ <;> omega

theorem ungroup_groups {bytes : List Nat} (small : ∀ byte ∈ bytes, byte < 256) : ungroup (groups bytes) = some bytes := by
  fun_induction groups bytes with
  | case1 => rfl
  | case2 a =>
    rw [ungroup,if_pos (by omega)]
    congr 2
    omega
  | case3 a b =>
    have second : b < 256 := small b (by simp)
    have stray : b % 16 * 4 % 4 = 0 := by omega
    have front : a / 4 * 4 + (a % 4 * 16 + b / 16) / 16 = a := by omega
    have back : (a % 4 * 16 + b / 16) % 16 * 16 + b % 16 * 4 / 4 = b := by omega
    rw [ungroup,if_pos stray,front,back]
  | case4 a b c rest ih =>
    have second : b < 256 := small b (by simp)
    have third : c < 256 := small c (by simp)
    have front : a / 4 * 4 + (a % 4 * 16 + b / 16) / 16 = a := by omega
    have middle : (a % 4 * 16 + b / 16) % 16 * 16 + (b % 16 * 4 + c / 64) / 4 = b := by omega
    have back : (b % 16 * 4 + c / 64) % 4 * 64 + c % 64 = c := by omega
    rw [ungroup,ih fun byte member => small byte (by simp [member]),Option.map_some,front,middle,back]

theorem mapM_groupOf {groups : List Nat} (small : ∀ group ∈ groups, group < 64) :
    (groups.map charOf).mapM groupOf = some groups := by
  induction groups with
  | nil => rfl
  | cons group rest ih =>
    rw [List.forall_mem_cons] at small
    rw [List.map_cons,List.mapM_cons,groupOf_charOf group small.1,ih small.2]
    rfl

theorem decode_encode (bytes : List UInt8) : decode (encode bytes) = some bytes := by
  have small : ∀ byte ∈ bytes.map UInt8.toNat, byte < 256 := by
    intro byte member
    obtain ⟨item,-,rfl⟩ := List.mem_map.mp member
    exact item.toNat_lt
  have back : (bytes.map UInt8.toNat).map UInt8.ofNat = bytes := by
    rw [List.map_map]
    exact List.map_id'' (fun byte => UInt8.ofNat_toNat) bytes
  rw [decode,encode,String.toList_ofList,mapM_groupOf (groups_lt small),Option.bind_some,ungroup_groups small,
    Option.map_some,back]

end Lib.Base64
