import Aicortex.MemoryRepo
import Mathlib.Data.List.Perm.Basic

/-!
Merging repeated captures. Captures carry their own clocks and arrive in any order;
the time a memory was updated, how often it was used and what media it refers to do
not depend on that order, but the time it was last used is the last merge's.
-/

namespace Aicortex.RepeatMerges
open Aicortex.Text Aicortex.Memories Aicortex.MemoryRepo
open Aicortex.Claims hiding Unit
set_option linter.unusedSimpArgs false

/-- The largest use count the record holds. -/
def maxUses : Nat := 2 ^ 32 - 1

/-- Repeats merged one after another. -/
def mergeAll (memory : Memory) (repeats : List Memory) : Memory := repeats.foldl mergeInto memory

/-- The references held, and then those of a repeat that are not held yet. -/
def addMedia (held added : List MediaRef) : List MediaRef :=
  added.foldl (fun media added => if media.contains added then media else media ++ [added]) held

@[simp] theorem mergeInto_media (memory again : Memory) :
    (mergeInto memory again).body.media = addMedia memory.body.media again.body.media := rfl

@[simp] theorem mergeInto_updated (memory again : Memory) :
    (mergeInto memory again).updated = max memory.updated again.created := rfl

@[simp] theorem mergeInto_lastUsed (memory again : Memory) : (mergeInto memory again).importance.lastUsed = again.created :=
  rfl

@[simp] theorem mergeInto_uses (memory again : Memory) :
    (mergeInto memory again).importance.uses = min (memory.importance.uses + 1) maxUses := rfl

@[simp] theorem mergeAll_nil (memory : Memory) : mergeAll memory [] = memory := rfl

@[simp] theorem mergeAll_cons (memory again : Memory) (rest : List Memory) :
    mergeAll memory (again :: rest) = mergeAll (mergeInto memory again) rest := rfl

@[simp] theorem mergeAll_concat (memory : Memory) (front : List Memory) (again : Memory) :
    mergeAll memory (front ++ [again]) = mergeInto (mergeAll memory front) again := by
  simp [mergeAll]

/-! ### Media -/

/-- A reference that was held stays as often as it was, and one that is added is
    added once. -/
theorem count_addMedia (held added : List MediaRef) (media : MediaRef) :
    (addMedia held added).count media =
      if media ∈ held then held.count media else if media ∈ added then 1 else 0 := by
  induction added generalizing held with
  | nil =>
    by_cases within : media ∈ held
    · simp [addMedia,within]
    · simp [addMedia,within,List.count_eq_zero.mpr within]
  | cons first rest ih =>
    have step : addMedia held (first :: rest) = addMedia (if held.contains first then held else held ++ [first]) rest := rfl
    rw [step,ih]
    by_cases known : first ∈ held
    · have kept : (if held.contains first then held else held ++ [first]) = held := by simp [known]
      rw [kept]
      by_cases within : media ∈ held
      · simp [within]
      · have other : media ≠ first := fun same => within (same ▸ known)
        simp [within,other]
    · have grown : (if held.contains first then held else held ++ [first]) = held ++ [first] := by simp [known]
      rw [grown]
      by_cases same : media = first
      · subst same
        simp [known,List.count_eq_zero.mpr known]
      · by_cases within : media ∈ held
        · simp [within,List.count_eq_zero,same]
        · simp [within,same]

theorem mem_addMedia {held added : List MediaRef} {media : MediaRef} :
    media ∈ addMedia held added ↔ media ∈ held ∨ media ∈ added := by
  rw [← List.count_pos_iff,count_addMedia]
  by_cases within : media ∈ held
  · simp [within]
  · by_cases fresh : media ∈ added <;> simp [within,fresh]

theorem mem_mergeAll {memory : Memory} {repeats : List Memory} {media : MediaRef} :
    media ∈ (mergeAll memory repeats).body.media ↔
      media ∈ memory.body.media ∨ ∃ again ∈ repeats, media ∈ again.body.media := by
  induction repeats generalizing memory with
  | nil => simp
  | cons first rest ih =>
    rw [mergeAll_cons,ih,mergeInto_media,mem_addMedia]
    simp [or_assoc]

/-! ### Times and uses -/

theorem mergeAll_updated (memory : Memory) (repeats : List Memory) :
    (mergeAll memory repeats).updated = (repeats.map Memory.created).foldl max memory.updated := by
  induction repeats generalizing memory with
  | nil => rfl
  | cons first rest ih =>
    rw [mergeAll_cons,ih,mergeInto_updated]
    rfl

theorem mergeAll_uses (memory : Memory) (repeats : List Memory) :
    (mergeAll memory repeats).importance.uses =
      if repeats = [] then memory.importance.uses else min (memory.importance.uses + repeats.length) maxUses := by
  induction repeats generalizing memory with
  | nil => rfl
  | cons first rest ih =>
    rw [mergeAll_cons,ih,mergeInto_uses,if_neg (List.cons_ne_nil _ _),List.length_cons]
    by_cases last : rest = []
    · subst last
      simp
    · rw [if_neg last]
      have longer : 0 < rest.length := List.length_pos_iff.mpr last
      omega

/-- The clock of the last repeat that was merged. -/
theorem mergeAll_lastUsed (memory : Memory) (repeats : List Memory) :
    (mergeAll memory repeats).importance.lastUsed = (repeats.getLast?.map Memory.created).getD memory.importance.lastUsed := by
  rcases List.eq_nil_or_concat repeats with rfl | ⟨front,again,rfl⟩
  · rfl
  · rw [List.concat_eq_append,mergeAll_concat,mergeInto_lastUsed]
    simp

/-! ### Any order -/

/-- Two records agree on what merging decides. -/
structure Agrees (left right : Memory) : Prop where
  updated : left.updated = right.updated
  uses : left.importance.uses = right.importance.uses
  lastUsed : left.importance.lastUsed = right.importance.lastUsed
  media : ∀ media, media ∈ left.body.media ↔ media ∈ right.body.media

/-- What one merge does to a record: no time moves back, one use is counted, and no
    reference is lost or held a second time. -/
structure Onward (old again new : Memory) : Prop where
  updated : old.updated ≤ new.updated
  lastUsed : old.importance.lastUsed ≤ new.importance.lastUsed
  uses : old.importance.uses < maxUses → new.importance.uses = old.importance.uses + 1
  media : ∀ media, new.body.media.count media =
    if media ∈ old.body.media then old.body.media.count media else if media ∈ again.body.media then 1 else 0

/-- Every order of the repeats leads to one result, and every merge on the way goes onward. -/
structure OrderFree (memory : Memory) (repeats : List Memory) : Prop where
  agrees : ∀ other, other.Perm repeats → Agrees (mergeAll memory other) (mergeAll memory repeats)
  onward : ∀ before again after, (before ++ again :: after).Perm repeats →
    Onward (mergeAll memory before) again (mergeInto (mergeAll memory before) again)

/-- The repeats were all captured at one time, no earlier than the memory was last used. -/
def OneTime (memory : Memory) (repeats : List Memory) : Prop :=
  ∀ again ∈ repeats, memory.importance.lastUsed ≤ again.created ∧ ∀ other ∈ repeats, again.created = other.created

/-- What does not depend on the order, whatever the clocks say. -/
theorem agrees_of_lastUsed {memory : Memory} {repeats other : List Memory} (same : other.Perm repeats)
    (lastUsed : (mergeAll memory other).importance.lastUsed = (mergeAll memory repeats).importance.lastUsed) :
    Agrees (mergeAll memory other) (mergeAll memory repeats) := by
  have empty : other = [] ↔ repeats = [] := by rw [← List.length_eq_zero_iff,← List.length_eq_zero_iff,same.length_eq]
  refine ⟨?_,?_,lastUsed,fun media => ?_⟩
  · rw [mergeAll_updated,mergeAll_updated]
    exact (same.map Memory.created).foldl_eq' (fun a _ b _ c => max_right_comm c a b) _
  · rw [mergeAll_uses,mergeAll_uses,same.length_eq]
    simp only [empty]
  · simp only [mem_mergeAll,same.mem_iff]

theorem onward_iff (old again : Memory) : Onward old again (mergeInto old again) ↔ old.importance.lastUsed ≤ again.created := by
  constructor
  · exact fun onward => onward.lastUsed
  · intro later
    refine ⟨le_max_left _ _,later,fun room => ?_,fun media => count_addMedia _ _ media⟩
    rw [mergeInto_uses]
    omega

theorem orderFree_iff (memory : Memory) (repeats : List Memory) : OrderFree memory repeats ↔ OneTime memory repeats := by
  constructor
  · intro free again member
    -- whichever repeat is merged last leaves its own time
    have endsWith : ∀ last ∈ repeats, (mergeAll memory repeats).importance.lastUsed = last.created := by
      intro last lastIn
      obtain ⟨front,back,rfl⟩ := List.append_of_mem lastIn
      have moved : (front ++ back ++ [last]).Perm (front ++ last :: back) := by
        rw [List.append_assoc]
        exact (List.perm_append_singleton last back).append_left front
      rw [← (free.agrees _ moved).lastUsed,mergeAll_concat,mergeInto_lastUsed]
    refine ⟨?_,fun other otherIn => (endsWith again member).symm.trans (endsWith other otherIn)⟩
    obtain ⟨front,back,rfl⟩ := List.append_of_mem member
    exact (free.onward [] again (front ++ back) (List.perm_middle.symm)).lastUsed
  · intro together
    have lastUsed : ∀ (merged : List Memory), (∀ again ∈ merged, again ∈ repeats) → ∀ again ∈ repeats,
        (mergeAll memory merged).importance.lastUsed ≤ again.created := by
      intro merged known again member
      rw [mergeAll_lastUsed]
      cases last : merged.getLast? with
      | none => exact (together again member).1
      | some final => exact ((together final (known final (List.mem_of_getLast? last))).2 again member).le
    refine ⟨fun other same => agrees_of_lastUsed same ?_,fun before again after same => ?_⟩
    · rw [mergeAll_lastUsed,mergeAll_lastUsed]
      cases last : repeats.getLast? with
      | none =>
        obtain rfl := List.getLast?_eq_none_iff.mp last
        simp [same.eq_nil]
      | some final =>
        have otherSome : other ≠ [] := by
          rintro rfl
          rw [List.nil_perm.mp same] at last
          cases last
        obtain ⟨final',finalIs⟩ := Option.ne_none_iff_exists'.mp (fun none' => otherSome (List.getLast?_eq_none_iff.mp none'))
        rw [finalIs]
        exact (together final' (same.mem_iff.mp (List.mem_of_getLast? finalIs))).2 final (List.mem_of_getLast? last)
    · refine (onward_iff _ _).mpr (lastUsed before ?_ again (same.mem_iff.mp (by simp)))
      exact fun again early => same.mem_iff.mp (List.mem_append_left _ early)

namespace Sample
open Memories.Sample

/-- The same note, captured at some time. -/
def seenAt (at' : UnixSeconds) : Memory := Memory.new { parts ⟨"aisle seat",none,[]⟩ with created := at' }

/-- The later capture merged first is forgotten. -/
theorem late_merge_rewinds : ¬ OrderFree (seenAt 10) [seenAt 30,seenAt 20] := by
  intro free
  have same := (free.agrees [seenAt 20,seenAt 30] (List.Perm.swap _ _ _)).lastUsed
  exact absurd same (by decide)

end Sample

end Aicortex.RepeatMerges
