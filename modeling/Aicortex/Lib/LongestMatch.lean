import Mathlib.Data.List.Basic
import Mathlib.Data.List.Infix

/-!
Cutting a text into pieces, the longest known one first. A dictionary knows pieces at the
start of a text and inside it, perhaps not the same ones; each piece is the longest front
of what is left that is known at its place. A text has at most one such segmentation, and
trying the fronts from the longest down finds it, or that there is none.
-/

namespace Lib.LongestMatch

variable {α β : Type} (known : Bool → List α → Option β)

/-- The longest front of the rest of a text that is known at its place. -/
structure Longest (inside : Bool) (rest piece : List α) (id : β) : Prop where
  nonempty : piece ≠ []
  front : piece <+: rest
  isKnown : known inside piece = some id
  noLonger : ∀ longer, longer <+: rest → piece.length < longer.length → known inside longer = none

/-- The pieces of a text with what they are known as, each the longest at its place. -/
inductive Segmented : Bool → List α → List (List α × β) → Prop
  | done {inside : Bool} : Segmented inside [] []
  | piece {inside : Bool} {front rest : List α} {id : β} {pieces : List (List α × β)}
      (longest : Longest known inside (front ++ rest) front id) (tail : Segmented true rest pieces) :
      Segmented inside (front ++ rest) ((front,id) :: pieces)

/-- The fronts of a text that are not empty, the longest first. -/
def fronts : List α → List (List α)
  | [] => []
  | first :: rest => (fronts rest).map (first :: ·) ++ [[first]]

theorem mem_fronts {text front : List α} : front ∈ fronts text ↔ front ≠ [] ∧ front <+: text := by
  induction text generalizing front with
  | nil => simp [fronts,List.prefix_nil]
  | cons first rest ih =>
    rw [fronts,List.mem_append,List.mem_map,List.mem_singleton]
    cases front with
    | nil => simp
    | cons c front =>
      rw [List.cons_prefix_cons]
      constructor
      · rintro (⟨shorter,member,same⟩ | same)
        · obtain ⟨rfl,rfl⟩ := List.cons.inj same
          exact ⟨by simp,rfl,(ih.mp member).2⟩
        · obtain ⟨rfl,rfl⟩ := List.cons.inj same
          exact ⟨by simp,rfl,List.nil_prefix⟩
      · rintro ⟨-,rfl,inFront⟩
        cases front with
        | nil => exact .inr rfl
        | cons second front => exact .inl ⟨second :: front,ih.mpr ⟨by simp,inFront⟩,rfl⟩

theorem fronts_descending (text : List α) : (fronts text).Pairwise (fun longer shorter => shorter.length < longer.length) := by
  induction text with
  | nil => exact List.Pairwise.nil
  | cons first rest ih =>
    rw [fronts,List.pairwise_append,List.pairwise_map]
    refine ⟨ih.imp fun below => by simpa using below,List.pairwise_singleton _ _,?_⟩
    intro longer member shorter single
    obtain ⟨front,isFront,rfl⟩ := List.mem_map.mp member
    rw [List.mem_singleton.mp single]
    have := List.length_pos_iff.mpr (mem_fronts.mp isFront).1
    simpa using this

/-- The first known front, from the longest down. -/
def longest (inside : Bool) (text : List α) : Option (List α × β) :=
  (fronts text).findSome? (fun front => (known inside front).map (front,·))

variable {known} {inside : Bool} {text rest piece other : List α} {id id' : β}

theorem Longest.unique (left : Longest known inside rest piece id) (right : Longest known inside rest other id') :
    piece = other ∧ id = id' := by
  have sameLength : piece.length = other.length := by
    rcases Nat.lt_trichotomy piece.length other.length with shorter | same | longer
    · exact absurd (left.noLonger other right.front shorter) (by simp [right.isKnown])
    · exact same
    · exact absurd (right.noLonger piece left.front longer) (by simp [left.isKnown])
  obtain rfl := (List.prefix_of_prefix_length_le left.front right.front sameLength.le).eq_of_length sameLength
  exact ⟨rfl,Option.some.inj (left.isKnown.symm.trans right.isKnown)⟩

theorem longest_eq_some_iff : longest known inside text = some (piece,id) ↔ Longest known inside text piece id := by
  have sound : ∀ {piece id}, longest known inside text = some (piece,id) → Longest known inside text piece id := by
    intro piece id found
    obtain ⟨before,front,after,split,hit,missed⟩ := List.findSome?_eq_some_iff.mp found
    obtain ⟨id',isKnown,same⟩ := Option.map_eq_some_iff.mp hit
    obtain ⟨rfl,rfl⟩ := Prod.mk.inj same
    have member : front ∈ fronts text := by simp [split]
    refine ⟨(mem_fronts.mp member).1,(mem_fronts.mp member).2,isKnown,fun longer inFront further => ?_⟩
    -- A longer front was tried before this one.
    have full : longer ≠ [] := by
      rintro rfl
      simp at further
    have tried := mem_fronts.mpr ⟨full,inFront⟩
    have descending := fronts_descending text
    rw [split] at tried descending
    rcases List.mem_append.mp tried with earlier | later
    · exact Option.map_eq_none_iff.mp (missed longer earlier)
    · rcases List.mem_cons.mp later with rfl | last
      · exact absurd further (lt_irrefl _)
      · have below := (List.pairwise_cons.mp (List.pairwise_append.mp descending).2.1).1 longer last
        omega
  refine ⟨sound,fun isLongest => ?_⟩
  cases found : longest known inside text with
  | none =>
    have missed := List.findSome?_eq_none_iff.mp found piece (mem_fronts.mpr ⟨isLongest.nonempty,isLongest.front⟩)
    simp [isLongest.isKnown] at missed
  | some result =>
    obtain ⟨rfl,rfl⟩ := (sound found).unique isLongest
    rfl

theorem longest_shorter (found : longest known inside text = some (piece,id)) :
    (text.drop piece.length).length < text.length := by
  have isLongest := longest_eq_some_iff.mp found
  have full := List.length_pos_iff.mpr isLongest.nonempty
  have within := isLongest.front.length_le
  rw [List.length_drop]
  omega

/-! ### Segmentations -/

theorem Segmented.text_eq {pieces : List (List α × β)} (segmented : Segmented known inside text pieces) :
    (pieces.map Prod.fst).flatten = text := by
  induction segmented with
  | done => rfl
  | piece longest tail ih => rw [List.map_cons,List.flatten_cons,ih]

theorem Segmented.unique {left right : List (List α × β)} (first : Segmented known inside text left)
    (second : Segmented known inside text right) : left = right := by
  induction first generalizing right with
  | done =>
    generalize isEmpty : ([] : List α) = text at second
    cases second with
    | done => rfl
    | piece longest tail => exact absurd (List.append_eq_nil_iff.mp isEmpty.symm).1 longest.nonempty
  | @piece inside front rest id pieces longest tail ih =>
    generalize same : front ++ rest = text at second
    cases second with
    | done => exact absurd (List.append_eq_nil_iff.mp same).1 longest.nonempty
    | piece longest' tail' =>
      rw [same] at longest
      obtain ⟨rfl,rfl⟩ := longest.unique longest'
      obtain rfl := List.append_cancel_left same
      rw [ih tail']

/-- Every piece is known at its place. -/
theorem Segmented.pieces_known {pieces : List (List α × β)} (segmented : Segmented known inside text pieces) :
    ∀ piece ∈ pieces, ∃ inside, known inside piece.1 = some piece.2 := by
  induction segmented with
  | done => simp
  | piece longest tail ih =>
    intro piece member
    rcases List.mem_cons.mp member with rfl | later
    · exact ⟨_,longest.isKnown⟩
    · exact ih piece later

/-- The segmentation, if there is one. -/
def segment (known : Bool → List α → Option β) (inside : Bool) (text : List α) : Option (List (List α × β)) :=
  if text = [] then some []
  else
    match _found : longest known inside text with
    | none => none
    | some (piece,id) => (segment known true (text.drop piece.length)).map ((piece,id) :: ·)
  termination_by text.length
  decreasing_by exact longest_shorter _found

@[simp] theorem segment_nil : segment known inside [] = some [] := by
  rw [segment]
  simp

theorem segment_of_none (full : text ≠ []) (missed : longest known inside text = none) : segment known inside text = none := by
  rw [segment,if_neg full]
  split
  · rfl
  · rename_i found
    rw [missed] at found
    cases found

theorem segment_of_some (found : longest known inside text = some (piece,id)) :
    segment known inside text = (segment known true (text.drop piece.length)).map ((piece,id) :: ·) := by
  have full : text ≠ [] := by
    rintro rfl
    cases found
  rw [segment,if_neg full]
  split
  · rename_i missed
    rw [missed] at found
    cases found
  · rename_i piece' id' found'
    rw [found] at found'
    cases found'
    rfl

theorem segment_eq_some_iff {pieces : List (List α × β)} :
    segment known inside text = some pieces ↔ Segmented known inside text pieces := by
  constructor
  · intro found
    induction length : text.length using Nat.strong_induction_on generalizing inside text pieces with
    | h size ih =>
      by_cases empty : text = []
      · subst empty
        rw [segment_nil] at found
        cases found
        exact .done
      cases hit : longest known inside text with
      | none =>
        rw [segment_of_none empty hit] at found
        cases found
      | some result =>
        obtain ⟨piece,id⟩ := result
        rw [segment_of_some hit] at found
        obtain ⟨rest,tail,rfl⟩ := Option.map_eq_some_iff.mp found
        have isLongest := longest_eq_some_iff.mp hit
        have shorter := longest_shorter hit
        obtain ⟨after,split⟩ := isLongest.front
        rw [← split,List.drop_left] at tail
        rw [← split,List.drop_left] at shorter
        rw [← split] at isLongest ⊢
        exact .piece isLongest (ih after.length (by rw [← length,← split]; exact shorter) tail rfl)
  · intro segmented
    induction segmented with
    | done => exact segment_nil
    | piece longest tail ih => rw [segment_of_some (longest_eq_some_iff.mpr longest),List.drop_left,ih,Option.map_some]

end Lib.LongestMatch
