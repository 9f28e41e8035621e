import Aicortex.Lib.Json
import Aicortex.Text

/-!
The text of an identifier. The store and the wire hold the hyphenated rendering of a
UUID, thirty-two hex digits in five groups; it names one identifier and is made of
nothing but hex digits and hyphens.
-/

namespace Aicortex.IdText
open Lib.Json
open Aicortex.Text
set_option linter.unusedSimpArgs false

variable {kind : IdKind}

/-- The number hex digits spell. -/
def hexNumber (chars : List Char) : Option Nat :=
  chars.foldlM (fun number c => (hexDigit? c).map (fun digit => number * 16 + digit)) 0

/-- The identifier a hyphenated rendering names. -/
def ofHyphenated (text : String) : Option (Uuid kind) := do
  let number ← hexNumber (text.toList.filter (· != '-'))
  if bound : number < 2 ^ 128 then
    let id : Uuid kind := ⟨number,bound⟩
    if id.hyphenated = text then some id else none
  else none

private theorem hexDigit_digitChar : ∀ digit < 16, hexDigit? (Nat.digitChar digit) = some digit := by decide

theorem hexNumber_toDigits (number : Nat) : hexNumber (Nat.toDigits 16 number) = some number := by
  induction number using Nat.strongRecOn with
  | ind number ih =>
    by_cases small : number < 16
    · simp [hexNumber,Nat.toDigits_of_lt_base small,hexDigit_digitChar number small]
    · have front := ih (number / 16) (by omega)
      have last := hexDigit_digitChar (number % 16) (Nat.mod_lt _ (by omega))
      unfold hexNumber at front ⊢
      rw [Nat.toDigits_of_base_le (by omega) (by omega),List.foldlM_append,front]
      simp only [Option.bind_eq_bind,Option.bind_some,List.foldlM_cons,List.foldlM_nil,last,Option.map_some,
        Option.pure_def]
      congr 1
      omega

theorem hexNumber_zeros (count : Nat) (chars : List Char) :
    hexNumber (List.replicate count '0' ++ chars) = hexNumber chars := by
  induction count with
  | zero => rfl
  | succ count ih =>
    have zero : hexDigit? '0' = some 0 := by decide
    simpa [hexNumber,List.replicate_succ,zero] using ih

/-- Only hex digits spell a number. -/
theorem hexNumber_digits {chars : List Char} {number : Nat} (spelled : hexNumber chars = some number) :
    ∀ c ∈ chars, (hexDigit? c).isSome = true := by
  unfold hexNumber at spelled
  generalize 0 = start at spelled
  induction chars generalizing start with
  | nil => simp
  | cons first rest ih =>
    rw [List.foldlM_cons] at spelled
    obtain ⟨next,taken,remaining⟩ := Option.bind_eq_some_iff.mp spelled
    obtain ⟨digit,isHex,_⟩ := Option.map_eq_some_iff.mp taken
    intro c within
    rcases List.mem_cons.mp within with rfl | later
    · simp [isHex]
    · exact ih next remaining c later

/-- The thirty-two digits of an id. -/
def hexDigits (id : Uuid kind) : List Char :=
  List.replicate (32 - (Nat.toDigits 16 id.value).length) '0' ++ Nat.toDigits 16 id.value

theorem hexNumber_hexDigits (id : Uuid kind) : hexNumber (hexDigits id) = some id.value := by
  rw [hexDigits,hexNumber_zeros,hexNumber_toDigits]

theorem hexDigits_hex (id : Uuid kind) : ∀ c ∈ hexDigits id, (hexDigit? c).isSome = true :=
  hexNumber_digits (hexNumber_hexDigits id)

theorem hexDigits_length (id : Uuid kind) : (hexDigits id).length = 32 := by
  have fits : (Nat.toDigits 16 id.value).length ≤ 32 :=
    (Nat.length_toDigits_le_iff (by omega) (by omega)).mpr (by simpa using id.bound)
  simp only [hexDigits,List.length_append,List.length_replicate]
  omega

theorem toString_text (text : String) : toString text = text := rfl

theorem hyphenated_toList (id : Uuid kind) :
    id.hyphenated.toList = (hexDigits id).take 8 ++ '-' :: ((hexDigits id).drop 8).take 4 ++
      '-' :: ((hexDigits id).drop 12).take 4 ++ '-' :: ((hexDigits id).drop 16).take 4 ++
      '-' :: (hexDigits id).drop 20 := by
  have last : ((hexDigits id).drop 20).take 12 = (hexDigits id).drop 20 :=
    List.take_of_length_le (by simp [hexDigits_length])
  rw [← last]
  simp [Uuid.hyphenated,hexDigits,toString_text]

/-- Hex digits with hyphens among them: what the rendering of an id is made of. -/
theorem hyphenated_chars (id : Uuid kind) : ∀ c ∈ id.hyphenated.toList, c = '-' ∨ (hexDigit? c).isSome = true := by
  have digits := hexDigits_hex id
  intro c within
  rw [hyphenated_toList] at within
  simp only [List.mem_append,List.mem_cons] at within
  rcases within with ((((first | dash | second) | dash | third) | dash | fourth) | dash | fifth)
  · exact .inr (digits c (List.mem_of_mem_take first))
  · exact .inl dash
  · exact .inr (digits c (List.mem_of_mem_drop (List.mem_of_mem_take second)))
  · exact .inl dash
  · exact .inr (digits c (List.mem_of_mem_drop (List.mem_of_mem_take third)))
  · exact .inl dash
  · exact .inr (digits c (List.mem_of_mem_drop (List.mem_of_mem_take fourth)))
  · exact .inl dash
  · exact .inr (digits c (List.mem_of_mem_drop fifth))

private theorem filter_hex {chars : List Char} (digits : ∀ c ∈ chars, (hexDigit? c).isSome = true) :
    chars.filter (· != '-') = chars := by
  rw [List.filter_eq_self]
  intro c within
  have isHex := digits c within
  by_contra dash
  have same : c = '-' := by simpa using dash
  subst same
  exact absurd isHex (by decide)

theorem hyphenated_filter (id : Uuid kind) : id.hyphenated.toList.filter (· != '-') = hexDigits id := by
  have digits := hexDigits_hex id
  have part (count start : Nat) : (((hexDigits id).drop start).take count).filter (· != '-') =
      ((hexDigits id).drop start).take count :=
    filter_hex (fun c within => digits c (List.mem_of_mem_drop (List.mem_of_mem_take within)))
  have front : ((hexDigits id).take 8).filter (· != '-') = (hexDigits id).take 8 :=
    filter_hex (fun c within => digits c (List.mem_of_mem_take within))
  have back : ((hexDigits id).drop 20).filter (· != '-') = (hexDigits id).drop 20 :=
    filter_hex (fun c within => digits c (List.mem_of_mem_drop within))
  have rejoin (start count : Nat) : ((hexDigits id).drop start).take count ++ (hexDigits id).drop (start + count) =
      (hexDigits id).drop start := by
    rw [← List.drop_drop,List.take_append_drop]
  rw [hyphenated_toList]
  simp only [List.filter_append,List.filter_cons,part,front,back,bne_self_eq_false,Bool.false_eq_true,if_false,
    List.append_assoc]
  rw [rejoin 16 4,rejoin 12 4,rejoin 8 4,List.take_append_drop]

theorem ofHyphenated_hyphenated (id : Uuid kind) : ofHyphenated id.hyphenated = some id := by
  simp only [ofHyphenated,hyphenated_filter,hexNumber_hexDigits,Option.bind_eq_bind,Option.bind_some,
    dif_pos id.bound,if_true]

theorem hyphenated_of_ofHyphenated {text : String} {id : Uuid kind} (named : ofHyphenated text = some id) :
    id.hyphenated = text := by
  unfold ofHyphenated at named
  obtain ⟨number,-,named⟩ := Option.bind_eq_some_iff.mp named
  by_cases bound : number < 2 ^ 128
  · rw [dif_pos bound] at named
    by_cases same : Uuid.hyphenated (⟨number,bound⟩ : Uuid kind) = text
    · rw [if_pos same,Option.some.injEq] at named
      rw [← named,same]
    · rw [if_neg same] at named
      cases named
  · rw [dif_neg bound] at named
    cases named

theorem hyphenated_injective : Function.Injective (Uuid.hyphenated : Uuid kind → String) := by
  intro left right same
  have named : ofHyphenated left.hyphenated = some left := ofHyphenated_hyphenated left
  rw [same,ofHyphenated_hyphenated,Option.some.injEq] at named
  exact named.symm

end Aicortex.IdText
