import Mathlib.Data.List.Basic
import Mathlib.Data.List.Forall2

/-!
Rules for computations that may refuse, and for loops over lists that stop at the
first refusal.
-/

namespace Lib.Outcome

variable {ε ε' α β γ σ : Type}

/-- A sequence succeeds when each part does. -/
theorem bind_ok_iff {first : Except ε α} {next : α → Except ε β} {result : β} :
    first >>= next = .ok result ↔ ∃ value, first = .ok value ∧ next value = .ok result := by
  cases first with
  | error refusal => simp [bind,Except.bind]
  | ok value => simp [bind,Except.bind]

theorem map_ok_iff {read : α → β} {first : Except ε α} {result : β} :
    read <$> first = .ok result ↔ ∃ value, first = .ok value ∧ read value = result := by
  cases first with
  | error refusal => simp [Functor.map,Except.map]
  | ok value => simp [Functor.map,Except.map]

@[simp] theorem ok_bind (value : α) (next : α → Except ε β) : (Except.ok value >>= next) = next value := rfl

@[simp] theorem error_bind (refusal : ε) (next : α → Except ε β) :
    ((Except.error refusal : Except ε α) >>= next) = .error refusal := rfl

/-- A sequence is refused by its first part that is. -/
theorem bind_error_iff {first : Except ε α} {next : α → Except ε β} {refusal : ε} :
    first >>= next = .error refusal ↔ first = .error refusal ∨ ∃ value, first = .ok value ∧ next value = .error refusal := by
  cases first with
  | error other => simp [bind,Except.bind]
  | ok value => simp [bind,Except.bind]

theorem mapError_error_iff {tell : ε → ε'} {first : Except ε α} {refusal : ε'} :
    first.mapError tell = .error refusal ↔ ∃ told, first = .error told ∧ tell told = refusal := by
  cases first with
  | error other => simp [Except.mapError]
  | ok value => simp [Except.mapError]

/-- A refusal told another way leaves what succeeds. -/
theorem mapError_ok_iff {tell : ε → ε'} {first : Except ε α} {result : α} :
    first.mapError tell = .ok result ↔ first = .ok result := by
  cases first with
  | error refusal => simp [Except.mapError]
  | ok value => simp [Except.mapError]

/-- Two continuations that agree on what the first part returns give one result. -/
theorem bind_congr_ok {first : Except ε α} {left right : α → Except ε β}
    (same : ∀ value, first = .ok value → left value = right value) : first >>= left = first >>= right := by
  cases first with
  | error refusal => rfl
  | ok value => exact same value rfl

/-- A loop for its refusals alone succeeds when each item does. -/
theorem forM_ok_iff {body : α → Except ε PUnit} {items : List α} :
    forM items body = .ok () ↔ ∀ item ∈ items, body item = .ok () := by
  induction items with
  | nil => simp [pure,Except.pure]
  | cons item rest ih =>
    rw [List.forM_cons,bind_ok_iff,List.forall_mem_cons,← ih]
    constructor
    · rintro ⟨_,first,remaining⟩
      exact ⟨first,remaining⟩
    · rintro ⟨first,remaining⟩
      exact ⟨(),first,remaining⟩

/-- Invariant rule: what every step that succeeds preserves holds at the end. -/
theorem foldlM_invariant (Holds : σ → Prop) {step : σ → α → Except ε σ} {items : List α} {start finish : σ}
    (preserved : ∀ item ∈ items, ∀ before after, Holds before → step before item = .ok after → Holds after)
    (initial : Holds start) (executed : items.foldlM step start = .ok finish) : Holds finish := by
  induction items generalizing start with
  | nil =>
    cases executed
    exact initial
  | cons item rest ih =>
    rw [List.foldlM_cons,bind_ok_iff] at executed
    obtain ⟨next,stepped,remaining⟩ := executed
    exact ih (fun other member => preserved other (List.mem_cons_of_mem _ member))
      (preserved item List.mem_cons_self start next initial stepped) remaining

/-- A loop that finished took every item from some state to some state. -/
theorem foldlM_took {step : σ → α → Except ε σ} {items : List α} {start finish : σ}
    (executed : items.foldlM step start = .ok finish) {item : α} (member : item ∈ items) :
    ∃ before after, step before item = .ok after := by
  induction items generalizing start with
  | nil => cases member
  | cons first rest ih =>
    rw [List.foldlM_cons,bind_ok_iff] at executed
    obtain ⟨mid,stepped,remaining⟩ := executed
    rcases List.mem_cons.mp member with rfl | later
    · exact ⟨start,mid,stepped⟩
    · exact ih remaining later

/-- A loop whose steps succeed by their item alone succeeds when each item does. -/
theorem foldlM_accepts {step : σ → α → Except ε σ} {Accepts : α → Prop} {items : List α}
    (uniform : ∀ item ∈ items, ∀ state, (∃ next, step state item = .ok next) ↔ Accepts item) (start : σ) :
    (∃ finish, items.foldlM step start = .ok finish) ↔ ∀ item ∈ items, Accepts item := by
  induction items generalizing start with
  | nil => simp [pure,Except.pure]
  | cons item rest ih =>
    rw [List.forall_mem_cons,← uniform item List.mem_cons_self start]
    have later := fun next => ih (fun other member => uniform other (List.mem_cons_of_mem _ member)) next
    constructor
    · rintro ⟨finish,executed⟩
      obtain ⟨next,stepped,remaining⟩ := bind_ok_iff.mp executed
      exact ⟨⟨next,stepped⟩,(later next).mp ⟨finish,remaining⟩⟩
    · rintro ⟨⟨next,stepped⟩,others⟩
      obtain ⟨finish,remaining⟩ := (later next).mpr others
      exact ⟨finish,bind_ok_iff.mpr ⟨next,stepped,remaining⟩⟩

/-- Two loops whose steps agree on the items agree. -/
theorem foldlM_congr {left right : σ → α → Except ε σ} {items : List α} (start : σ)
    (same : ∀ item ∈ items, ∀ state, left state item = right state item) :
    items.foldlM left start = items.foldlM right start := by
  induction items generalizing start with
  | nil => rfl
  | cons item rest ih =>
    simp only [List.foldlM_cons,same item List.mem_cons_self]
    cases right start item with
    | error refusal => rfl
    | ok next => exact ih next (fun other member => same other (List.mem_cons_of_mem _ member))

/-- A loop may leave out the items its step ignores. -/
theorem foldlM_filter_of_skip {step : σ → α → Except ε σ} (keep : α → Bool) (items : List α) (start : σ)
    (skipped : ∀ item ∈ items, keep item = false → ∀ state, step state item = .ok state) :
    (items.filter keep).foldlM step start = items.foldlM step start := by
  induction items generalizing start with
  | nil => rfl
  | cons item rest ih =>
    have restSkipped := fun other (member : other ∈ rest) => skipped other (List.mem_cons_of_mem _ member)
    cases kept : keep item with
    | false => simp [kept,skipped item List.mem_cons_self kept,ih _ restSkipped]
    | true =>
      simp only [List.filter_cons,kept,if_true,List.foldlM_cons]
      cases step start item with
      | error refusal => rfl
      | ok next => exact ih next restSkipped

/-- Two loops over paired items keep related states related. -/
theorem foldlM_related {τ : Type} (Related : σ → τ → Prop) {Paired : α → β → Prop} {left : σ → α → Except ε σ}
    {right : τ → β → Except ε τ} {items : List α} {others : List β} (paired : List.Forall₂ Paired items others)
    (kept : ∀ item other state shadow next follower, Paired item other → Related state shadow →
      left state item = .ok next → right shadow other = .ok follower → Related next follower)
    {start finish : σ} {origin final : τ} (initial : Related start origin)
    (leftRun : items.foldlM left start = .ok finish) (rightRun : others.foldlM right origin = .ok final) :
    Related finish final := by
  induction paired generalizing start origin with
  | nil =>
    cases leftRun
    cases rightRun
    exact initial
  | cons pair _ ih =>
    obtain ⟨next,stepped,remaining⟩ := bind_ok_iff.mp leftRun
    obtain ⟨follower,followed,rest⟩ := bind_ok_iff.mp rightRun
    exact ih (kept _ _ _ _ _ _ pair initial stepped followed) remaining rest

/-! ### Computations that agree -/

/-- Both refuse, for whatever reasons, or both return and what they return is related. -/
inductive Agree (Related : α → β → Prop) : Except ε α → Except ε β → Prop
  | refused (refusal other : ε) : Agree Related (.error refusal) (.error other)
  | returned {value : α} {other : β} (related : Related value other) : Agree Related (.ok value) (.ok other)

theorem Agree.of_ok {Related : α → β → Prop} {left : Except ε α} {right : Except ε β}
    (same : (∃ value, left = .ok value) ↔ ∃ value, right = .ok value)
    (related : ∀ value other, left = .ok value → right = .ok other → Related value other) : Agree Related left right := by
  cases left with
  | error refusal =>
    cases right with
    | error other => exact .refused refusal other
    | ok other =>
      obtain ⟨value,returned⟩ := same.mpr ⟨other,rfl⟩
      cases returned
  | ok value =>
    obtain ⟨other,rfl⟩ := same.mp ⟨value,rfl⟩
    exact .returned (related value other rfl rfl)

theorem Agree.ok_right {Related : α → β → Prop} {value : α} {right : Except ε β} (agree : Agree Related (.ok value) right) :
    ∃ other, right = .ok other ∧ Related value other := by
  cases agree with
  | returned related => exact ⟨_,rfl,related⟩

theorem Agree.error_right {Related : α → β → Prop} {refusal : ε} {right : Except ε β}
    (agree : Agree Related (.error refusal) right) : ∃ other, right = .error other := by
  cases agree with
  | refused _ other => exact ⟨other,rfl⟩

theorem Agree.ok_iff {left right : Except ε α} (agree : Agree Eq left right) (value : α) :
    right = .ok value ↔ left = .ok value := by
  cases agree with
  | refused refusal other => simp
  | returned same => rw [same]

/-- Sequences agree whose parts do. -/
theorem Agree.bind {δ : Type} {Related : α → β → Prop} {Later : γ → δ → Prop} {left : Except ε α} {right : Except ε β}
    {next : α → Except ε γ} {follow : β → Except ε δ} (agree : Agree Related left right)
    (rest : ∀ value other, left = .ok value → Related value other → Agree Later (next value) (follow other)) :
    Agree Later (left >>= next) (right >>= follow) := by
  cases agree with
  | refused refusal other => exact .refused refusal other
  | returned related => exact rest _ _ rfl related

/-- Loops over paired items agree whose steps do. -/
theorem Agree.foldlM {τ : Type} {Related : σ → τ → Prop} {Paired : α → β → Prop} {left : σ → α → Except ε σ}
    {right : τ → β → Except ε τ} {items : List α} {others : List β} (paired : List.Forall₂ Paired items others)
    (step : ∀ item other state shadow, Paired item other → Related state shadow →
      Agree Related (left state item) (right shadow other))
    {start : σ} {origin : τ} (initial : Related start origin) :
    Agree Related (items.foldlM left start) (others.foldlM right origin) := by
  induction paired generalizing start origin with
  | nil => exact .returned initial
  | cons pair _ ih =>
    rw [List.foldlM_cons,List.foldlM_cons]
    exact (step _ _ _ _ pair initial).bind fun _ _ _ related => ih related

/-! ### Lists paired one by one -/

theorem forall₂_left {Paired : α → β → Prop} {left : List α} {right : List β} (paired : List.Forall₂ Paired left right)
    {first : α} (member : first ∈ left) : ∃ second ∈ right, Paired first second := by
  induction paired with
  | nil => simp at member
  | cons related _ ih =>
    rcases List.mem_cons.mp member with rfl | inside
    · exact ⟨_,List.mem_cons_self,related⟩
    · obtain ⟨second,secondIn,relatedSecond⟩ := ih inside
      exact ⟨second,List.mem_cons_of_mem _ secondIn,relatedSecond⟩

/-- What relates every later item to an earlier one carries over to a paired list. -/
theorem pairwise_left {Paired : α → β → Prop} {Before : β → β → Prop} {Before' : α → α → Prop} {left : List α}
    {right : List β} (paired : List.Forall₂ Paired left right) (ordered : right.Pairwise Before)
    (carried : ∀ {first second first' second'}, Paired first first' → Paired second second' → Before first' second' →
      Before' first second) : left.Pairwise Before' := by
  induction paired with
  | nil => exact .nil
  | cons related rest ih =>
    obtain ⟨ahead,others⟩ := List.pairwise_cons.mp ordered
    refine List.pairwise_cons.mpr ⟨?_,ih others⟩
    intro second secondIn
    obtain ⟨second',secondIn',related'⟩ := forall₂_left rest secondIn
    exact carried related related' (ahead second' secondIn')

/-- Parts that agree one by one agree together. -/
theorem flatMap_perm {Paired : α → β → Prop} {left : List α} {right : List β} (paired : List.Forall₂ Paired left right)
    {read : β → List γ} {expected : α → List γ}
    (agree : ∀ first ∈ left, ∀ second, Paired first second → (read second).Perm (expected first)) :
    (right.flatMap read).Perm (left.flatMap expected) := by
  induction paired with
  | nil => exact .nil
  | cons related _ ih =>
    rw [List.flatMap_cons,List.flatMap_cons]
    exact (agree _ List.mem_cons_self _ related).append
      (ih fun first member second => agree first (List.mem_cons_of_mem _ member) second)

end Lib.Outcome
