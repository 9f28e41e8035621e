import Mathlib.Logic.Relation
import Mathlib.Order.WellFounded
import Mathlib.Data.Fintype.Card
import Mathlib.Data.Set.Finite.List
import Mathlib.Data.List.Chain

/-!
When every element of a finite list is dominated by another element of the list,
a filter that removes the dominated ones removes everything. This file says when
that cannot happen: for an explicit dominance graph, when it has no cycle; for a
comparison by two optional keys, when no three elements contradict each other.
Where an element has one successor at most, a walk along the successors meets all
that can be reached, if the graph has no cycle and the walk may take long enough.
-/

namespace Lib.Dominance
open Relation
set_option linter.unusedSimpArgs false

variable {α σ τ : Type}

/-! ### Graphs -/

def Acyclic (edge : α → α → Prop) : Prop := ∀ node, ¬ TransGen edge node node

/-- A nonempty list has an element that no element of the list points at. -/
theorem exists_undominated (edge : α → α → Prop) (acyclic : Acyclic edge) (items : List α)
    (nonempty : items ≠ []) : ∃ top ∈ items, ∀ other ∈ items, ¬ edge other top := by
  let below : {item // item ∈ items} → {item // item ∈ items} → Prop := fun a b => TransGen edge a.1 b.1
  have : Finite {item // item ∈ items} := List.finite_toSet items
  have : IsTrans _ below := ⟨fun _ _ _ => TransGen.trans⟩
  have : Std.Irrefl below := ⟨fun a => acyclic a.1⟩
  have founded : WellFounded below := Finite.wellFounded_of_trans_of_irrefl below
  obtain ⟨first,firstMember⟩ := List.exists_mem_of_ne_nil items nonempty
  obtain ⟨top,-,minimal⟩ := founded.has_min Set.univ ⟨⟨first,firstMember⟩,trivial⟩
  exact ⟨top.1,top.2,fun other member step => minimal ⟨other,member⟩ trivial (TransGen.single step)⟩

/-- A path that may use one extra edge either avoids it or passes through it. -/
private theorem path_with_edge {edge : α → α → Prop} {tail head : α}
    (noReturn : ¬ ReflTransGen edge head tail) {source target : α}
    (path : TransGen (fun a b => edge a b ∨ a = tail ∧ b = head) source target) :
    TransGen edge source target ∨ ReflTransGen edge source tail ∧ ReflTransGen edge head target := by
  induction path with
  | single step =>
    rcases step with old | ⟨rfl,rfl⟩
    · exact .inl (.single old)
    · exact .inr ⟨.refl,.refl⟩
  | tail _ step ih =>
    rcases ih with old | ⟨before,after⟩ <;> rcases step with next | ⟨rfl,rfl⟩
    · exact .inl (old.tail next)
    · exact .inr ⟨old.to_reflTransGen,.refl⟩
    · exact .inr ⟨before,after.tail next⟩
    · exact absurd after noReturn

/-- An edge whose head does not reach its tail closes no cycle. -/
theorem acyclic_add_edge {edge : α → α → Prop} (acyclic : Acyclic edge) {tail head : α}
    (noReturn : ¬ ReflTransGen edge head tail) : Acyclic (fun a b => edge a b ∨ a = tail ∧ b = head) := by
  intro node path
  rcases path_with_edge noReturn path with old | ⟨before,after⟩
  · exact acyclic node old
  · exact noReturn (after.trans before)

theorem Acyclic.mono {edge smaller : α → α → Prop} (acyclic : Acyclic edge)
    (contained : ∀ a b, smaller a b → edge a b) : Acyclic smaller :=
  fun node path => acyclic node (TransGen.mono contained node node path)

/-! ### Following one successor -/

section Chains
variable {next : α → Option α}

/-- The elements met by following successors, as far as the fuel reaches. -/
def chainFrom (next : α → Option α) : Nat → α → List α
  | 0, node => [node]
  | fuel + 1, node => node :: (next node).toList.flatMap (chainFrom next fuel)

private theorem mem_chainFrom_of_isChain {path : List α} {fuel : Nat} {node : α}
    (chain : List.IsChain (fun a b => next a = some b) (node :: path)) (short : path.length ≤ fuel) :
    (node :: path).getLast (List.cons_ne_nil _ _) ∈ chainFrom next fuel node := by
  induction path generalizing fuel node with
  | nil => cases fuel <;> exact List.mem_cons_self
  | cons second rest ih =>
    obtain ⟨step,chain⟩ := List.isChain_cons_cons.mp chain
    obtain ⟨fuel,rfl⟩ := Nat.exists_eq_add_of_le' (Nat.one_le_of_lt short)
    rw [List.getLast_cons (List.cons_ne_nil _ _)]
    refine List.mem_cons_of_mem _ (List.mem_flatMap.mpr ⟨second,?_,ih chain (Nat.le_of_succ_le_succ short)⟩)
    rw [step]
    exact List.mem_singleton_self _

/-- No element comes twice on a path of a graph without a cycle. -/
theorem Acyclic.nodup {edge : α → α → Prop} (acyclic : Acyclic edge) {path : List α} (chain : List.IsChain edge path) :
    path.Nodup := by
  have : IsTrans α (TransGen edge) := ⟨fun _ _ _ => TransGen.trans⟩
  have ordered : path.Pairwise (TransGen edge) := List.isChain_iff_pairwise.mp (chain.imp fun _ _ => TransGen.single)
  refine List.nodup_iff_pairwise_ne.mpr (ordered.imp ?_)
  rintro node _ between rfl
  exact acyclic node between

/-- Where successors make no cycle, as much fuel as there are elements with a successor
    reaches whatever can be reached. -/
theorem mem_chainFrom (acyclic : Acyclic (fun a b => next a = some b)) {domain : List α}
    (covers : ∀ node, (next node).isSome = true → node ∈ domain) {source target : α}
    (path : ReflTransGen (fun a b => next a = some b) source target) : target ∈ chainFrom next domain.length source := by
  obtain ⟨rest,chain,rfl⟩ := List.exists_isChain_cons_of_relationReflTransGen path
  refine mem_chainFrom_of_isChain chain ?_
  have distinct : (source :: rest).dropLast.Nodup := (acyclic.nodup chain).sublist (List.dropLast_sublist _)
  -- every element of the path but the last has a successor
  have inside : (source :: rest).dropLast ⊆ domain := by
    intro node member
    obtain ⟨place,below,rfl⟩ := List.mem_iff_getElem.mp member
    rw [List.length_dropLast] at below
    rw [List.getElem_dropLast]
    exact covers _ (Option.isSome_of_eq_some (List.isChain_iff_getElem.mp chain place (Nat.add_lt_of_lt_sub below)))
  simpa using (List.subperm_of_subset distinct inside).length_le

end Chains

/-! ### Two optional keys -/

/-- A primary key and a secondary key, either of which may be missing. -/
structure Rank (σ τ : Type) where
  seq : Option σ
  time : Option τ

section Ranks
variable [LinearOrder τ]

/-- Both secondary keys are known and the left one is greater. -/
def Later (left right : Rank σ τ) : Prop :=
  ∃ late early, left.time = some late ∧ right.time = some early ∧ early < late

private theorem Later.trans {a b c : Rank σ τ} (first : Later a b) (second : Later b c) : Later a c := by
  obtain ⟨late,middle,aHas,bHas,below⟩ := first
  obtain ⟨middle',early,bHas',cHas,below'⟩ := second
  obtain rfl : middle = middle' := Option.some.inj (bHas.symm.trans bHas')
  exact ⟨late,early,aHas,cHas,below'.trans below⟩

/-- Among the elements that have a key, one has the greatest. -/
private theorem exists_greatest {κ : Type} [LinearOrder κ] (key : α → Option κ) (items : List α)
    (known : ∃ item ∈ items, ∃ value, key item = some value) :
    ∃ best ∈ items, ∃ greatest, key best = some greatest ∧
      ∀ other ∈ items, ∀ value, key other = some value → value ≤ greatest := by
  induction items with
  | nil => simp at known
  | cons head rest ih =>
    by_cases restKnown : ∃ item ∈ rest, ∃ value, key item = some value
    · obtain ⟨best,member,greatest,has,bound⟩ := ih restKnown
      by_cases better : ∃ value, key head = some value ∧ greatest < value
      · obtain ⟨value,headHas,above⟩ := better
        refine ⟨head,List.mem_cons_self,value,headHas,?_⟩
        intro other otherMember found otherHas
        rcases List.mem_cons.mp otherMember with rfl | inside
        · exact (Option.some.inj (otherHas.symm.trans headHas)).le
        · exact (bound other inside found otherHas).trans above.le
      · refine ⟨best,List.mem_cons_of_mem _ member,greatest,has,?_⟩
        intro other otherMember found otherHas
        rcases List.mem_cons.mp otherMember with rfl | inside
        · exact not_lt.mp (fun above => better ⟨found,otherHas,above⟩)
        · exact bound other inside found otherHas
    · obtain ⟨item,member,value,has⟩ := known
      rcases List.mem_cons.mp member with rfl | inside
      · refine ⟨item,List.mem_cons_self,value,has,?_⟩
        intro other otherMember found otherHas
        rcases List.mem_cons.mp otherMember with rfl | inside
        · exact (Option.some.inj (otherHas.symm.trans has)).le
        · exact absurd ⟨other,inside,found,otherHas⟩ restKnown
      · exact absurd ⟨item,inside,value,has⟩ restKnown

/-- A nonempty list has an element that nothing in the list is later than. -/
private theorem exists_latest (rank : α → Rank σ τ) (items : List α) (nonempty : items ≠ []) :
    ∃ best ∈ items, ∀ other ∈ items, ¬ Later (rank other) (rank best) := by
  by_cases known : ∃ item ∈ items, ∃ value, (rank item).time = some value
  · obtain ⟨best,member,greatest,has,bound⟩ := exists_greatest (fun item => (rank item).time) items known
    refine ⟨best,member,?_⟩
    rintro other otherMember ⟨late,early,otherHas,bestHas,below⟩
    obtain rfl : early = greatest := Option.some.inj (bestHas.symm.trans has)
    exact absurd (bound other otherMember late otherHas) (not_le.mpr below)
  · obtain ⟨first,firstMember⟩ := List.exists_mem_of_ne_nil items nonempty
    refine ⟨first,firstMember,?_⟩
    rintro other otherMember ⟨late,_,otherHas,_⟩
    exact known ⟨other,otherMember,late,otherHas⟩

variable [LinearOrder σ]

/-- The primary key decides when both have one and they differ; the secondary key
    decides otherwise, and an unknown key decides nothing. -/
def Beats (left right : Rank σ τ) : Prop :=
  match left.seq, right.seq with
  | some high, some low => low < high ∨ high = low ∧ Later left right
  | _, _ => Later left right

theorem Beats.irrefl (rank : Rank σ τ) : ¬ Beats rank rank := by
  have undated : ¬ Later rank rank := by
    rintro ⟨late,early,isLate,isEarly,below⟩
    obtain rfl : late = early := Option.some.inj (isLate.symm.trans isEarly)
    exact lt_irrefl _ below
  unfold Beats
  cases rank.seq with
  | none => exact undated
  | some seq =>
    rintro (below | ⟨-,later⟩)
    · exact lt_irrefl _ below
    · exact undated later

/-- Three ranks that beat each other in a circle: the primary key puts the second
    over the first, and the secondary key puts the third between them the other
    way round. -/
def Inversion (low high free : Rank σ τ) : Prop :=
  ∃ lowSeq highSeq, low.seq = some lowSeq ∧ high.seq = some highSeq ∧ free.seq = none ∧
    lowSeq < highSeq ∧ Later low free ∧ Later free high

theorem Inversion.circle {low high free : Rank σ τ} (inversion : Inversion low high free) :
    Beats high low ∧ Beats low free ∧ Beats free high := by
  obtain ⟨lowSeq,highSeq,lowHas,highHas,freeHas,below,first,second⟩ := inversion
  simp only [Beats,lowHas,highHas,freeHas]
  exact ⟨.inl below,first,second⟩

/-- Without an inversion a nonempty list has an element that none of the list
    beats. The candidates are the latest of those with the greatest primary key
    and the latest of those without one; if both are beaten, whatever beats them
    completes an inversion. -/
theorem exists_unbeaten (rank : α → Rank σ τ) (items : List α) (nonempty : items ≠ [])
    (consistent : ∀ low ∈ items, ∀ high ∈ items, ∀ free ∈ items, ¬ Inversion (rank low) (rank high) (rank free)) :
    ∃ best ∈ items, ∀ other ∈ items, ¬ Beats (rank other) (rank best) := by
  by_cases known : ∃ item ∈ items, ∃ value, (rank item).seq = some value
  swap
  · obtain ⟨best,member,latest⟩ := exists_latest rank items nonempty
    refine ⟨best,member,fun other otherMember beats => latest other otherMember ?_⟩
    cases otherSeq : (rank other).seq with
    | none => simpa [Beats,otherSeq] using beats
    | some value => exact absurd ⟨other,otherMember,value,otherSeq⟩ known
  obtain ⟨top,topMember,greatest,topHas,bound⟩ := exists_greatest (fun item => (rank item).seq) items known
  obtain ⟨high,highMember,highLatest⟩ := exists_latest rank
    (items.filter (fun item => (rank item).seq = some greatest))
    (List.ne_nil_of_mem (List.mem_filter.mpr ⟨topMember,by simpa using topHas⟩))
  obtain ⟨highMember,highHas⟩ := List.mem_filter.mp highMember
  have highHas : (rank high).seq = some greatest := by simpa using highHas
  -- Only an element without a primary key can beat the best of those with one.
  have beatenByFree : ∀ other ∈ items, Beats (rank other) (rank high) →
      (rank other).seq = none ∧ Later (rank other) (rank high) := by
    intro other otherMember beats
    cases otherHas : (rank other).seq with
    | none => exact ⟨rfl,by simpa [Beats,otherHas] using beats⟩
    | some value =>
      have atMost : value ≤ greatest := bound other otherMember value otherHas
      have both : greatest < value ∨ value = greatest ∧ Later (rank other) (rank high) := by
        simpa [Beats,otherHas,highHas] using beats
      rcases both with above | ⟨rfl,later⟩
      · exact absurd atMost (not_le.mpr above)
      · exact absurd later (highLatest other (List.mem_filter.mpr ⟨otherMember,by simpa using otherHas⟩))
  by_cases unbeaten : ∃ other ∈ items, Beats (rank other) (rank high)
  swap
  · exact ⟨high,highMember,fun other member beats => unbeaten ⟨other,member,beats⟩⟩
  obtain ⟨rival,rivalMember,rivalBeats⟩ := unbeaten
  obtain ⟨rivalFree,rivalLater⟩ := beatenByFree rival rivalMember rivalBeats
  have rivalListed : rival ∈ items.filter (fun item => (rank item).seq = none) :=
    List.mem_filter.mpr ⟨rivalMember,by simpa using rivalFree⟩
  obtain ⟨late,early,rivalHas,highTime,below⟩ := rivalLater
  obtain ⟨free,freeMember,latest,freeTime,freeLatest⟩ := exists_greatest (fun item => (rank item).time)
    (items.filter (fun item => (rank item).seq = none)) ⟨rival,rivalListed,late,rivalHas⟩
  have freeOverHigh : Later (rank free) (rank high) :=
    ⟨latest,early,freeTime,highTime,below.trans_le (freeLatest rival rivalListed late rivalHas)⟩
  obtain ⟨freeMember,freeHas⟩ := List.mem_filter.mp freeMember
  have freeHas : (rank free).seq = none := by simpa using freeHas
  refine ⟨free,freeMember,?_⟩
  intro other otherMember beats
  have later : Later (rank other) (rank free) := by
    cases otherHas : (rank other).seq with
    | none => simpa [Beats,otherHas] using beats
    | some value => simpa [Beats,otherHas,freeHas] using beats
  cases otherHas : (rank other).seq with
  | none =>
    obtain ⟨value,_,otherTime,freeTime',above⟩ := later
    obtain rfl := Option.some.inj (freeTime.symm.trans freeTime')
    have listed : other ∈ items.filter (fun item => (rank item).seq = none) :=
      List.mem_filter.mpr ⟨otherMember,by simpa using otherHas⟩
    exact absurd (freeLatest other listed value otherTime) (not_le.mpr above)
  | some value =>
    rcases (bound other otherMember value otherHas).lt_or_eq with less | rfl
    · exact consistent other otherMember high highMember free freeMember
        ⟨value,greatest,otherHas,highHas,freeHas,less,later,freeOverHigh⟩
    · exact highLatest other (List.mem_filter.mpr ⟨otherMember,by simpa using otherHas⟩) (later.trans freeOverHigh)

end Ranks

end Lib.Dominance
