import Aicortex.Lib.Outcome

/-!
Runs of transactions staged from earlier reads. A call reads states that may be gone by
the time its transaction commits; the transaction is a list of moves, applied in order
and all or none. A log keeps what was committed and the state it led to, the latest
first.
-/

namespace Lib.StaleRuns
open Lib.Outcome

variable {σ μ τ ε : Type}

/-- States, moves between them, and transactions a call may stage from the states it
    could have read. -/
structure System (σ μ τ ε : Type) where
  start : σ
  apply : σ → μ → Except ε σ
  moves : τ → List μ
  Stages : List σ → τ → Prop

namespace System

def commit (system : System σ μ τ ε) (now : σ) (txn : τ) : Except ε σ := (system.moves txn).foldlM system.apply now

/-- A transaction of one move. -/
theorem commit_single {system : System σ μ τ ε} {txn : τ} {move : μ} (only : system.moves txn = [move]) {now next : σ}
    (committed : system.commit now txn = .ok next) : system.apply now move = .ok next := by
  rw [commit,only] at committed
  obtain ⟨mid,applied,same⟩ := bind_ok_iff.mp committed
  cases same
  exact applied

/-- The states of a log, the latest first. -/
def states (system : System σ μ τ ε) (log : List (τ × σ)) : List σ := log.map Prod.snd ++ [system.start]

theorem states_append (system : System σ μ τ ε) (newer older : List (τ × σ)) :
    system.states (newer ++ older) = newer.map Prod.snd ++ system.states older := by
  simp [states]

def current (system : System σ μ τ ε) : List (τ × σ) → σ
  | [] => system.start
  | (_,state) :: _ => state

/-- Every move meets the condition in the state it is applied to. -/
def MeetAll (system : System σ μ τ ε) (Meets : σ → μ → Prop) : σ → List μ → Prop
  | _, [] => True
  | now, move :: rest => Meets now move ∧ ∀ next, system.apply now move = .ok next → MeetAll system Meets next rest

theorem meetAll_of_forall {system : System σ μ τ ε} {Meets : σ → μ → Prop} {moves : List μ}
    (all : ∀ move ∈ moves, ∀ now, Meets now move) (now : σ) : system.MeetAll Meets now moves := by
  induction moves generalizing now with
  | nil => exact trivial
  | cons move rest ih =>
    exact ⟨all move List.mem_cons_self now,
      fun next _ => ih (fun other member => all other (List.mem_cons_of_mem _ member)) next⟩

/-- A log of committed transactions, each staged from states before it. -/
inductive Run (system : System σ μ τ ε) (Meets : σ → μ → Prop) : List (τ × σ) → Prop
  | start : Run system Meets []
  | step {log : List (τ × σ)} {txn : τ} {next : σ} (run : Run system Meets log)
      (staged : system.Stages (system.states log) txn)
      (meet : system.MeetAll Meets (system.current log) (system.moves txn))
      (committed : system.commit (system.current log) txn = .ok next) : Run system Meets ((txn,next) :: log)

/-- The log after one more transaction, if it commits. -/
def extend (system : System σ μ τ ε) (log : List (τ × σ)) (txn : τ) : List (τ × σ) :=
  match system.commit (system.current log) txn with
  | .ok next => (txn,next) :: log
  | .error _ => log

/-- A transaction that makes a log longer is its latest entry. -/
theorem extend_eq {system : System σ μ τ ε} {log : List (τ × σ)} {txn : τ}
    (longer : (system.extend log txn).length ≠ log.length) :
    system.extend log txn = (txn,system.current (system.extend log txn)) :: log := by
  unfold System.extend at longer ⊢
  cases committed : system.commit (system.current log) txn with
  | ok next => rfl
  | error refusal => simp [committed] at longer

theorem Run.extend {system : System σ μ τ ε} {Meets : σ → μ → Prop} {log : List (τ × σ)} (run : Run system Meets log)
    {txn : τ} (staged : system.Stages (system.states log) txn)
    (meet : system.MeetAll Meets (system.current log) (system.moves txn)) : Run system Meets (system.extend log txn) := by
  unfold System.extend
  split
  · next committed => exact run.step staged meet committed
  · exact run

/-- The run up to an entry of its log, and what the entry committed. -/
theorem Run.before {system : System σ μ τ ε} {Meets : σ → μ → Prop} {newer older : List (τ × σ)} {txn : τ} {next : σ}
    (run : Run system Meets (newer ++ (txn,next) :: older)) :
    Run system Meets older ∧ system.Stages (system.states older) txn ∧
      system.MeetAll Meets (system.current older) (system.moves txn) ∧
      system.commit (system.current older) txn = .ok next := by
  induction newer with
  | nil =>
    cases run with
    | step run staged meet committed => exact ⟨run,staged,meet,committed⟩
  | cons entry newer ih =>
    cases run with
    | step run staged meet committed => exact ih run

/-- The earlier part of a run is a run. -/
theorem Run.earlier {system : System σ μ τ ε} {Meets : σ → μ → Prop} {newer older : List (τ × σ)}
    (run : Run system Meets (newer ++ older)) : Run system Meets older := by
  induction newer with
  | nil => exact run
  | cons entry newer ih =>
    cases run with
    | step run staged meet committed => exact ih run

/-- A state of a log is the one some earlier part of the log ends in. -/
theorem current_of_mem {system : System σ μ τ ε} {log : List (τ × σ)} {state : σ} (member : state ∈ system.states log) :
    ∃ newer older, log = newer ++ older ∧ system.current older = state := by
  induction log with
  | nil => exact ⟨[],[],rfl,(List.mem_singleton.mp member).symm⟩
  | cons entry log ih =>
    rcases List.mem_cons.mp member with rfl | inside
    · exact ⟨[],entry :: log,rfl,rfl⟩
    · obtain ⟨newer,older,rfl,is⟩ := ih inside
      exact ⟨entry :: newer,older,rfl,is⟩

theorem current_mem (system : System σ μ τ ε) (log : List (τ × σ)) : system.current log ∈ system.states log := by
  cases log with
  | nil => exact List.mem_append_right _ (List.mem_singleton_self _)
  | cons entry rest => exact List.mem_cons_self

/-- What holds of the moves of every transaction, given what its call could have read. -/
def Fits (system : System σ μ τ ε) (Fit : List σ → μ → Prop) : Prop :=
  ∀ history txn, system.Stages history txn → ∀ move ∈ system.moves txn, Fit history move

/-- What is known of the states that could have been read: each holds the invariant and
    goes on to the present one, and an earlier one to every later one. -/
structure Trail (Inv : σ → Prop) (Since : σ → σ → Prop) (history : List σ) (now : σ) : Prop where
  held : ∀ seen ∈ history, Inv seen
  since : ∀ seen ∈ history, Since seen now
  ordered : history.Pairwise (fun later earlier => Since earlier later)

/-- Two states read one after the other: the second is no earlier than the first. -/
def InOrder (history : List σ) (first second : σ) : Prop :=
  ∃ recent older, history = recent ++ first :: older ∧ second ∈ recent ++ [first]

theorem InOrder.mem_first {history : List σ} {first second : σ} (order : InOrder history first second) : first ∈ history := by
  obtain ⟨recent,older,rfl,_⟩ := order
  simp

theorem InOrder.mem_second {history : List σ} {first second : σ} (order : InOrder history first second) :
    second ∈ history := by
  obtain ⟨recent,older,rfl,within⟩ := order
  rcases List.mem_append.mp within with later | same
  · exact List.mem_append_left _ later
  · rw [List.mem_singleton.mp same]
    simp

/-- What was read in order stays so as the history goes on. -/
theorem InOrder.later {history : List σ} {first second : σ} (order : InOrder history first second) (newer : List σ) :
    InOrder (newer ++ history) first second := by
  obtain ⟨recent,older,rfl,within⟩ := order
  refine ⟨newer ++ recent,older,by simp,?_⟩
  rw [List.append_assoc]
  exact List.mem_append_right _ within

/-- The latest state may be read twice. -/
theorem current_inOrder (system : System σ μ τ ε) (log : List (τ × σ)) :
    InOrder (system.states log) (system.current log) (system.current log) := by
  cases log with
  | nil => exact ⟨[],[],rfl,List.mem_singleton_self _⟩
  | cons entry rest => exact ⟨[],_,rfl,List.mem_singleton_self _⟩

/-- The latest state may be read after any other. -/
theorem inOrder_current {system : System σ μ τ ε} {log : List (τ × σ)} {seen : σ} (member : seen ∈ system.states log) :
    InOrder (system.states log) seen (system.current log) := by
  cases log with
  | nil =>
    rw [List.mem_singleton.mp member]
    exact current_inOrder system []
  | cons entry rest =>
    rcases List.mem_cons.mp member with rfl | earlier
    · exact current_inOrder system (entry :: rest)
    · obtain ⟨recent,older,split⟩ := List.append_of_mem earlier
      exact ⟨entry.2 :: recent,older,congrArg (entry.2 :: ·) split,List.mem_cons_self⟩

theorem InOrder.map {ρ : Type} (view : σ → ρ) {history : List σ} {first second : σ} (order : InOrder history first second) :
    InOrder (history.map view) (view first) (view second) := by
  obtain ⟨recent,older,rfl,within⟩ := order
  refine ⟨recent.map view,older.map view,by simp,?_⟩
  have mapped := List.mem_map_of_mem (f := view) within
  simpa using mapped

/-- What was read in order of a part of the states was read in order of the states. -/
theorem InOrder.of_map {ρ : Type} {view : σ → ρ} {history : List σ} {first second : ρ}
    (order : InOrder (history.map view) first second) :
    ∃ one two, InOrder history one two ∧ view one = first ∧ view two = second := by
  obtain ⟨recent,older,is,within⟩ := order
  obtain ⟨left,rest,rfl,rfl,later⟩ := List.map_eq_append_iff.mp is
  obtain ⟨one,right,rfl,rfl,rfl⟩ := List.map_eq_cons_iff.mp later
  rcases List.mem_append.mp within with inside | same
  · obtain ⟨two,member,rfl⟩ := List.mem_map.mp inside
    exact ⟨one,two,⟨left,right,rfl,List.mem_append_left _ member⟩,rfl,rfl⟩
  · rw [List.mem_singleton.mp same]
    exact ⟨one,one,⟨left,right,rfl,List.mem_append_right _ (List.mem_singleton_self _)⟩,rfl,rfl⟩

/-- Less is known of the states as well. -/
theorem Trail.weaken {Inv Less : σ → Prop} {Since : σ → σ → Prop} {history : List σ} {now : σ}
    (trail : Trail Inv Since history now) (held : ∀ state, Inv state → Less state) : Trail Less Since history now :=
  ⟨fun seen member => held seen (trail.held seen member),trail.since,trail.ordered⟩

/-- What is known of the states is known of a part of them. -/
theorem Trail.map {ρ : Type} {view : σ → ρ} {Inv : σ → Prop} {Since : σ → σ → Prop} {Part : ρ → Prop} {Onward : ρ → ρ → Prop}
    {history : List σ} {now : σ} (held : ∀ state, Inv state → Part (view state))
    (since : ∀ first second, Since first second → Onward (view first) (view second)) (trail : Trail Inv Since history now) :
    Trail Part Onward (history.map view) (view now) := by
  refine ⟨?_,?_,List.pairwise_map.mpr (trail.ordered.imp fun later => since _ _ later)⟩
  · intro seen member
    obtain ⟨state,inside,rfl⟩ := List.mem_map.mp member
    exact held state (trail.held state inside)
  · intro seen member
    obtain ⟨state,inside,rfl⟩ := List.mem_map.mp member
    exact since state now (trail.since state inside)

/-- The earlier of two states read in order goes on to the later one. -/
theorem Trail.since_in_order {Inv : σ → Prop} {Since : σ → σ → Prop} {history : List σ} {now first second : σ}
    (trail : Trail Inv Since history now) (still : ∀ state, Since state state) (order : InOrder history first second) :
    Since first second := by
  obtain ⟨recent,older,rfl,within⟩ := order
  rcases List.mem_append.mp within with later | same
  · exact (List.pairwise_append.mp trail.ordered).2.2 second later first List.mem_cons_self
  · rw [List.mem_singleton.mp same]
    exact still first

/-- Of two states that were read, one goes on to the other. -/
theorem Trail.either {Inv : σ → Prop} {Since : σ → σ → Prop} {history : List σ} {now one two : σ}
    (trail : Trail Inv Since history now) (still : ∀ state, Since state state) (oneIn : one ∈ history) (twoIn : two ∈ history) :
    Since one two ∨ Since two one := by
  have ordered : history.Pairwise (fun left right => Since left right ∨ Since right left) := trail.ordered.imp .inr
  exact ordered.forall_of_forall_of_flip (fun state _ => .inl (still state)) (ordered.imp Or.symm) oneIn twoIn

/-- What a rule for runs asks of the moves: each keeps the invariant, and the state it
    leaves goes on to the state it leads to. -/
structure Keeps (system : System σ μ τ ε) (Meets : σ → μ → Prop) (Fit : List σ → μ → Prop) (Inv : σ → Prop)
    (Since : σ → σ → Prop) : Prop where
  still : ∀ state, Since state state
  onward : ∀ first second third, Since first second → Since second third → Since first third
  initial : Inv system.start
  move : ∀ history now move next, Trail Inv Since history now → Inv now → Fit history move → Meets now move →
    system.apply now move = .ok next → Inv next ∧ Since now next

/-- A further invariant may rest on the ones already kept. -/
theorem Keeps.further {system : System σ μ τ ε} {Meets : σ → μ → Prop} {Fit : List σ → μ → Prop} {Inv Extra : σ → Prop}
    {Since : σ → σ → Prop} (keeps : Keeps system (fun _ _ => True) Fit Inv Since) (initial : Extra system.start)
    (kept : ∀ history now move next, Trail (fun state => Inv state ∧ Extra state) Since history now →
      Inv now → Extra now → Fit history move → Meets now move → system.apply now move = .ok next → Extra next) :
    Keeps system Meets Fit (fun state => Inv state ∧ Extra state) Since := by
  refine ⟨keeps.still,keeps.onward,⟨keeps.initial,initial⟩,?_⟩
  intro history now move next trail held fit meets applied
  have base : Trail Inv Since history now := ⟨fun seen member => (trail.held seen member).1,trail.since,trail.ordered⟩
  obtain ⟨nextHeld,since⟩ := keeps.move history now move next base held.1 fit trivial applied
  exact ⟨⟨nextHeld,kept history now move next trail held.1 held.2 fit meets applied⟩,since⟩

/-- What a state has to do with the later ones may rest on what is already kept. -/
theorem Keeps.along {system : System σ μ τ ε} {Meets : σ → μ → Prop} {Fit : List σ → μ → Prop} {Inv : σ → Prop}
    {Since More : σ → σ → Prop} (keeps : Keeps system Meets Fit Inv Since) (still : ∀ state, More state state)
    (onward : ∀ first second third, Since first second → Since second third → More first second → More second third →
      More first third)
    (moved : ∀ history now move next, Trail Inv Since history now → Inv now → Fit history move → Meets now move →
      system.apply now move = .ok next → More now next) :
    Keeps system Meets Fit Inv (fun first second => Since first second ∧ More first second) := by
  refine ⟨fun state => ⟨keeps.still state,still state⟩,?_,keeps.initial,?_⟩
  · intro first second third one two
    exact ⟨keeps.onward _ _ _ one.1 two.1,onward _ _ _ one.1 two.1 one.2 two.2⟩
  intro history now move next trail held fit meets applied
  have base : Trail Inv Since history now :=
    ⟨trail.held,fun seen member => (trail.since seen member).1,trail.ordered.imp And.left⟩
  obtain ⟨nextHeld,since⟩ := keeps.move history now move next base held fit meets applied
  exact ⟨nextHeld,since,moved history now move next base held fit meets applied⟩

/-- Transaction rule: what each move keeps the transaction keeps. -/
theorem Keeps.commit {system : System σ μ τ ε} {Meets : σ → μ → Prop} {Fit : List σ → μ → Prop} {Inv : σ → Prop}
    {Since : σ → σ → Prop} (keeps : Keeps system Meets Fit Inv Since) {history : List σ} {moves : List μ}
    (fits : ∀ move ∈ moves, Fit history move) {now next : σ} (trail : Trail Inv Since history now) (held : Inv now)
    (meet : system.MeetAll Meets now moves) (executed : moves.foldlM system.apply now = .ok next) :
    Inv next ∧ Since now next := by
  induction moves generalizing now with
  | nil =>
    cases executed
    exact ⟨held,keeps.still _⟩
  | cons move rest ih =>
    obtain ⟨mid,applied,remaining⟩ := bind_ok_iff.mp executed
    obtain ⟨meets,later⟩ := meet
    obtain ⟨midHeld,since⟩ := keeps.move history now move mid trail held (fits move List.mem_cons_self) meets applied
    have midTrail : Trail Inv Since history mid :=
      ⟨trail.held,fun seen member => keeps.onward seen now mid (trail.since seen member) since,trail.ordered⟩
    obtain ⟨nextHeld,further⟩ :=
      ih (fun other member => fits other (List.mem_cons_of_mem _ member)) midTrail midHeld (later mid applied) remaining
    exact ⟨nextHeld,keeps.onward now mid next since further⟩

/-- Run rule: an invariant every move keeps holds of every state of a run, and every
    state of the run goes on to the later ones. -/
theorem Run.trail {system : System σ μ τ ε} {Meets : σ → μ → Prop} {Fit : List σ → μ → Prop} {Inv : σ → Prop}
    {Since : σ → σ → Prop} (fits : system.Fits Fit) (keeps : Keeps system Meets Fit Inv Since) {log : List (τ × σ)}
    (run : Run system Meets log) : Trail Inv Since (system.states log) (system.current log) := by
  induction run with
  | start =>
    refine ⟨?_,?_,List.pairwise_singleton _ _⟩
    · intro seen member
      rw [List.mem_singleton.mp member]
      exact keeps.initial
    · intro seen member
      rw [List.mem_singleton.mp member]
      exact keeps.still _
  | @step log txn next run staged meet committed ih =>
    obtain ⟨held,further⟩ := keeps.commit (fits _ _ staged) ih (ih.held _ (system.current_mem log)) meet committed
    have since : ∀ seen ∈ system.states log, Since seen next :=
      fun seen member => keeps.onward _ _ _ (ih.since seen member) further
    refine ⟨?_,?_,List.pairwise_cons.mpr ⟨since,ih.ordered⟩⟩
    · intro seen member
      rcases List.mem_cons.mp member with rfl | earlier
      · exact held
      · exact ih.held seen earlier
    · intro seen member
      rcases List.mem_cons.mp member with rfl | earlier
      · exact keeps.still _
      · exact since seen earlier

theorem Run.holds {system : System σ μ τ ε} {Meets : σ → μ → Prop} {Fit : List σ → μ → Prop} {Inv : σ → Prop}
    {Since : σ → σ → Prop} (fits : system.Fits Fit) (keeps : Keeps system Meets Fit Inv Since) {log : List (τ × σ)}
    (run : Run system Meets log) : Inv (system.current log) :=
  (run.trail fits keeps).held _ (system.current_mem log)

/-- What an entry of a log committed goes on to every state after it. -/
theorem Run.after {system : System σ μ τ ε} {Meets : σ → μ → Prop} {Fit : List σ → μ → Prop} {Inv : σ → Prop}
    {Since : σ → σ → Prop} (fits : system.Fits Fit) (keeps : Keeps system Meets Fit Inv Since) {newer older : List (τ × σ)}
    {txn : τ} {next : σ} (run : Run system Meets (newer ++ (txn,next) :: older)) :
    ∀ state ∈ newer.map Prod.snd, Since next state := by
  intro state member
  have ordered := (run.trail fits keeps).ordered
  rw [states_append] at ordered
  exact (List.pairwise_append.mp ordered).2.2 state member next List.mem_cons_self

/-- A run under a condition is a run. -/
theorem Run.free {system : System σ μ τ ε} {Meets : σ → μ → Prop} {log : List (τ × σ)} (run : Run system Meets log) :
    Run system (fun _ _ => True) log := by
  induction run with
  | start => exact .start
  | step _ staged _ committed ih => exact ih.step staged (meetAll_of_forall (fun _ _ _ => trivial) _) committed

/-- What a system keeps is kept of a part of a larger one whose every move leaves the part
    or commits a transaction of it. -/
theorem Keeps.lift {σ' μ' τ' ε' : Type} {inner : System σ μ τ ε} {outer : System σ' μ' τ' ε'} {view : σ' → σ}
    {Meets : σ → μ → Prop} {Fit : List σ → μ → Prop} {Inv : σ → Prop} {Since : σ → σ → Prop} {Meets' : σ' → μ' → Prop}
    {Fit' : List σ' → μ' → Prop} (keeps : Keeps inner Meets Fit Inv Since) (fits : inner.Fits Fit)
    (start : view outer.start = inner.start)
    (moved : ∀ history now move next, Fit' history move → Meets' now move → outer.apply now move = .ok next →
      view next = view now ∨ ∃ txn, inner.Stages (history.map view) txn ∧ inner.MeetAll Meets (view now) (inner.moves txn) ∧
        inner.commit (view now) txn = .ok (view next)) :
    Keeps outer Meets' Fit' (fun state => Inv (view state)) (fun seen now => Since (view seen) (view now)) := by
  refine ⟨fun state => keeps.still _,fun first second third => keeps.onward _ _ _,by rw [start]; exact keeps.initial,?_⟩
  intro history now move next trail held fit meets applied
  rcases moved history now move next fit meets applied with same | ⟨txn,staged,meet,committed⟩
  · rw [same]
    exact ⟨held,keeps.still _⟩
  · refine keeps.commit (fits _ _ staged) ⟨?_,?_,?_⟩ held meet committed
    · intro seen member
      obtain ⟨state,inside,rfl⟩ := List.mem_map.mp member
      exact trail.held state inside
    · intro seen member
      obtain ⟨state,inside,rfl⟩ := List.mem_map.mp member
      exact trail.since state inside
    · exact List.pairwise_map.mpr trail.ordered

end System

end Lib.StaleRuns
