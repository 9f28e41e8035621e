import Aicortex.CaptureOutcomes
import Aicortex.Lib.Broadcast

/-!
The progress streams. Each capture call publishes an event for each outcome it records, on
a bus that holds the latest of them; a stream forwards those of its own subject. Whatever
calls and streams run beside each other, the bus carries each outcome once, and a stream
sends its subject's in order, each true of the store, with a mark where it fell behind. The bus is
linked code: what a receiver of it is given is a parameter.
-/

namespace Aicortex.EventStreams
open Aicortex.Text Aicortex.Memories Aicortex.CaptureApi Aicortex.CaptureCalls Aicortex.CaptureGate
open Lib.Tables Lib.Outcome Lib.StaleRuns Lib.StaleRuns.System Lib.Broadcast
open Aicortex.Claims hiding Unit
set_option linter.unusedSimpArgs false

/-- How many events the bus holds at least. -/
def busCapacity : Nat := 256

/-- What a stream sends: an event, or that it has missed some. -/
abbrev Message := Option (String × EventData)

structure Stream where
  owner : Sub
  -- where it subscribed, and where it is
  start : Nat
  position : Nat
  sent : List Message
  listening : Bool

/-- A surface with the streams of the node. -/
structure Hub where
  surface : Surface
  streams : List Stream

inductive Step where
  | surface (action : CaptureCalls.Action)
  | subscribe (caller : Caller)
  -- whether the client takes what there is for it
  | forward (index : Nat) (taken : Bool)
  | cancel (index : Nat)

inductive Halt where
  | idle
  | surface (refusal : CaptureCalls.Refusal)

/-- Send a message and go on, or end where the client does not take it. -/
def Stream.emit (stream : Stream) (message : Message) (next : Nat) (taken : Bool) : Stream :=
  if taken then { stream with position := next, sent := stream.sent ++ [message] } else { stream with listening := false }

/-- What an event is to a subject: the events of others are nothing to it. -/
def own (owner : Sub) (event : ApiEvent) : Option (String × EventData) :=
  if event.owner = owner then some (event.name,event.data) else none

/-- One turn of a stream's loop. -/
def Stream.forward (stream : Stream) (recv : Receiver ApiEvent) (events : List ApiEvent) (taken : Bool) : Except Halt Stream :=
  if stream.listening then
    match recv events stream.position with
    | (.waits,_) => .error .idle
    | (.lagged,next) => .ok (stream.emit none next taken)
    | (.value event,next) =>
      match own stream.owner event with
      | some message => .ok (stream.emit (some message) next taken)
      | none => .ok { stream with position := next }
  else .error .idle

section
variable {SecretRules : Type} (api : Api SecretRules) (redigests : Bool) (recv : Receiver ApiEvent)

def apply (hub : Hub) : Step → Except Halt Hub
  | .surface action => do
    let surface ← (CaptureCalls.apply api hub.surface action).mapError .surface
    .ok { hub with surface := surface }
  | .subscribe caller =>
    let here := hub.surface.cell.events.length
    .ok { hub with streams := hub.streams ++ [⟨caller.sub,here,here,[],true⟩] }
  | .forward index taken =>
    match hub.streams[index]? with
    | none => .error .idle
    | some stream => do
      let stream ← stream.forward recv hub.surface.cell.events taken
      .ok { hub with streams := hub.streams.set index stream }
  | .cancel index =>
    match hub.streams[index]? with
    | none => .error .idle
    | some stream => .ok { hub with streams := hub.streams.set index { stream with listening := false } }

/-- What the surface stages it stages from states of the surface. -/
def Stages (history : List Hub) : Step → Prop
  | .surface action => CaptureCalls.Stages api redigests (history.map Hub.surface) action
  | _ => True

def system : System Hub Step Step Halt := ⟨⟨.empty,[]⟩,apply api recv,fun step => [step],Stages api redigests⟩

/-! ### What the bus carries -/

/-- The event of an outcome. -/
def eventOf (scope : Scope) (outcome : CaptureOutcome) : ApiEvent :=
  ⟨scope.owner,"capture",⟨scopeLabel scope,outcome.id.map toString,outcome.verdict,outcome.reasonCode⟩⟩

/-- The events of the outcomes a call has recorded, in order. -/
def eventsOf (call : Call) : List ApiEvent :=
  match start api call.caller call.body with
  | .ok (scope,_) => call.results.map (eventOf scope)
  | .error _ => []

end

section
variable {SecretRules : Type} {api : Api SecretRules} {redigests : Bool} {call later : Call} {cell after : Cell}

theorem event_of_outcome (settled : Settled) (scope : Scope) (index : Nat) (decision : Option String) :
    settled.event scope = eventOf scope (settled.outcome index decision) := by
  simp [Settled.event,eventOf,Settled.outcome,Option.map_map,Function.comp_def]

theorem eventsOf_same (caller : later.caller = call.caller) (body : later.body = call.body)
    (results : later.results = call.results) : eventsOf api later = eventsOf api call := by
  rw [eventsOf,eventsOf,caller,body,results]

theorem told_results (api : Api SecretRules) (call : Call) (scope : Scope) (candidates : List CandidateIn) (settled : Settled)
    (results : List CaptureOutcome) :
    (call.told api scope candidates settled results).results = results ∧
      (call.told api scope candidates settled results).caller = call.caller ∧
      (call.told api scope candidates settled results).body = call.body := by
  rcases told_cases api call scope candidates settled results with ⟨answer,-,is⟩ | ⟨-,is⟩
  · rw [is]
    exact ⟨rfl,rfl,rfl⟩
  · rw [is]
    exact ⟨rfl,rfl,rfl⟩

/-- A step publishes the outcome that it records, or does neither. -/
theorem advance_events {step : CaptureCalls.Step} (tells : Tells api cell call)
    (stepped : call.advance api step cell = .ok (later,after)) :
    (eventsOf api later = eventsOf api call ∧ after.events = cell.events) ∨
      ∃ event, eventsOf api later = eventsOf api call ++ [event] ∧ after.events = cell.events ++ [event] := by
  cases step with
  | look found =>
    simp only [Call.advance] at stepped
    split at stepped
    · cases stepped
      refine .inl ⟨?_,rfl⟩
      rcases look_cases api call found with ⟨error,is⟩ | ⟨key,memo,-,-,-,is⟩ | is
      · rw [is]
        rfl
      · rw [is]
        rfl
      · rw [is,Call.begin']
        split
        · rfl
        · exact eventsOf_same rfl rfl rfl
    · cases stepped
  | judge trial =>
    obtain ⟨scope,candidates,-,⟨error,-,rfl,rfl⟩ | ⟨candidate,record,settled,stock,-,-,-,rfl,⟨error,-,rfl⟩ | rfl⟩⟩ := judge_ok stepped
    · exact .inl ⟨rfl,rfl⟩
    · exact .inl ⟨rfl,rfl⟩
    · exact .inl ⟨eventsOf_same rfl rfl rfl,rfl⟩
  | append lost =>
    obtain ⟨scope,candidates,settled,entry,-,rfl,⟨error,-,rfl⟩ | rfl⟩ := append_ok stepped
    · exact .inl ⟨rfl,rfl⟩
    · exact .inl ⟨eventsOf_same rfl rfl rfl,rfl⟩
  | publish =>
    obtain ⟨scope,candidates,settled,decision,phase,rfl,rfl⟩ := publish_ok stepped
    have started := tells.work scope candidates (by rw [phase]; rfl)
    obtain ⟨results,caller,body⟩ := told_results api call scope candidates settled
      (call.results ++ [settled.outcome call.results.length decision])
    refine .inr ⟨settled.event scope,?_,rfl⟩
    rw [eventsOf,eventsOf,caller,body,started,results]
    simp only [List.map_append,List.map_cons,List.map_nil]
    rw [event_of_outcome settled scope call.results.length decision]
  | fail failure =>
    obtain ⟨rfl,⟨-,rfl⟩ | ⟨-,rfl⟩⟩ := fail_ok stepped
    · exact .inl ⟨rfl,rfl⟩
    · exact .inl ⟨rfl,rfl⟩
  | finish kept delivered =>
    obtain ⟨answer,-,-,rfl,rfl⟩ := finish_ok stepped
    refine .inl ⟨eventsOf_same rfl rfl rfl,?_⟩
    split_ifs
    · exact (remember_same api call answer cell).2.2
    · rfl
  | vanish =>
    obtain ⟨-,rfl,rfl⟩ := vanish_ok stepped
    exact .inl ⟨eventsOf_same rfl rfl rfl,rfl⟩

/-- Each recorded outcome is on the bus once, those of a call in their order. -/
structure Carries (api : Api SecretRules) (surface : Surface) : Prop where
  once : surface.cell.events.Perm (surface.calls.flatMap (eventsOf api))
  ordered : ∀ call ∈ surface.calls, (eventsOf api call).Sublist surface.cell.events

theorem calls_split {calls : List Call} {index : Nat} (is : calls[index]? = some call) :
    ∃ front back, calls = front ++ call :: back ∧ calls.set index later = front ++ later :: back := by
  obtain ⟨inside,same⟩ := List.getElem?_eq_some_iff.mp is
  refine ⟨calls.take index,calls.drop (index + 1),?_,?_⟩
  · rw [← same,List.getElem_cons_drop inside,List.take_append_drop]
  · exact List.set_eq_take_append_cons_drop.trans (if_pos inside)

theorem advance_carries {surface : Surface} {index : Nat} (carries : Carries api surface)
    (is : surface.calls[index]? = some call)
    (moved : (eventsOf api later = eventsOf api call ∧ after.events = surface.cell.events) ∨
      ∃ event, eventsOf api later = eventsOf api call ++ [event] ∧ after.events = surface.cell.events ++ [event]) :
    Carries api ⟨after,surface.calls.set index later⟩ := by
  obtain ⟨front,back,before,next⟩ := @calls_split call later _ _ is
  have mine := carries.ordered call (List.mem_of_getElem? is)
  have once := carries.once
  rw [before] at once
  rcases moved with ⟨same,events⟩ | ⟨event,more,events⟩
  · constructor
    · show after.events.Perm _
      rw [events,next]
      simpa [same] using once
    · intro other member
      show (eventsOf api other).Sublist after.events
      rw [events]
      rcases List.mem_or_eq_of_mem_set member with old | rfl
      · exact carries.ordered other old
      · rw [same]
        exact mine
  · constructor
    · show after.events.Perm _
      rw [events,next]
      refine (once.append_right [event]).trans ?_
      simp only [List.flatMap_append,List.flatMap_cons,more,List.append_assoc]
      exact (List.perm_append_comm.append_left _).append_left _
    · intro other member
      show (eventsOf api other).Sublist after.events
      rw [events]
      rcases List.mem_or_eq_of_mem_set member with old | rfl
      · exact (carries.ordered other old).trans (List.sublist_append_left _ _)
      · rw [more]
        exact mine.append (List.Sublist.refl _)

theorem carries_keeps :
    Keeps (CaptureCalls.system api redigests) (fun _ _ => True) (CaptureCalls.Stages api redigests)
      (fun surface => (Settles surface ∧ ∀ call ∈ surface.calls, Tells api surface.cell call) ∧ Carries api surface)
      CaptureCalls.Since := by
  refine tells_keeps.further ⟨by simp [CaptureCalls.system,Surface.empty],by simp [CaptureCalls.system,Surface.empty]⟩ ?_
  intro history now action next trail held carries staged _ applied
  cases action with
  | arrive caller header body =>
    cases applied
    have fresh : eventsOf api (.fresh caller header body) = [] := by
      unfold eventsOf
      split <;> rfl
    refine ⟨?_,?_⟩
    · simpa [fresh] using carries.once
    · intro call member
      rcases List.mem_append.mp member with old | new
      · exact carries.ordered call old
      · rw [List.mem_singleton.mp new,fresh]
        exact List.nil_sublist _
  | forget slot =>
    cases applied
    exact ⟨carries.once,carries.ordered⟩
  | elsewhere txn =>
    obtain ⟨stock,-,rest⟩ := bind_ok_iff.mp applied
    cases rest
    exact ⟨carries.once,carries.ordered⟩
  | advance index step =>
    obtain ⟨call,later,cell,is,stepped,rfl⟩ := advance_applied applied
    exact advance_carries carries is (advance_events (held.2 call (List.mem_of_getElem? is)) stepped)

/-! ### What a stream sends -/

/-- A stream has told what was published for its subject since it subscribed. -/
def Follows (events : List ApiEvent) (stream : Stream) : Prop :=
  Reports (own stream.owner) busCapacity events stream.start stream.position stream.sent

variable {recv : Receiver ApiEvent}

theorem forward_follows (receives : Receives busCapacity recv) {events : List ApiEvent} {stream next : Stream} {taken : Bool}
    (follows : Follows events stream) (forwarded : stream.forward recv events taken = .ok next) : Follows events next := by
  unfold Stream.forward at forwarded
  split_ifs at forwarded
  split at forwarded
  · cases forwarded
  · next position is =>
    cases forwarded
    obtain ⟨behind,gone⟩ := receives.lagged _ _ _ is
    unfold Stream.emit
    split_ifs
    · exact .missed follows behind gone
    · exact follows
  · next event position is =>
    obtain ⟨there,rfl⟩ := receives.value _ _ _ _ is
    split at forwarded
    · next message mine =>
      cases forwarded
      unfold Stream.emit
      split_ifs
      · exact .told follows there mine
      · exact follows
    · next others =>
      cases forwarded
      exact .other follows there others

theorem hub_fits : (system api redigests recv).Fits (Stages api redigests) := by
  intro history step staged move member
  rw [List.mem_singleton.mp member]
  exact staged

/-- The hub keeps what the surface does, and the streams follow the bus. -/
theorem hub_keeps (receives : Receives busCapacity recv) :
    Keeps (system api redigests recv) (fun _ _ => True) (Stages api redigests)
      (fun hub => ((Settles hub.surface ∧ ∀ call ∈ hub.surface.calls, Tells api hub.surface.cell call) ∧ Carries api hub.surface) ∧
        ∀ stream ∈ hub.streams, Follows hub.surface.cell.events stream)
      (fun seen now => CaptureCalls.Since seen.surface now.surface) := by
  have lifted : Keeps (system api redigests recv) (fun _ _ => True) (Stages api redigests)
      (fun hub => (Settles hub.surface ∧ ∀ call ∈ hub.surface.calls, Tells api hub.surface.cell call) ∧ Carries api hub.surface)
      (fun seen now => CaptureCalls.Since seen.surface now.surface) := by
    refine (@carries_keeps SecretRules api redigests).lift CaptureCalls.stages_fit rfl ?_
    intro history now step next staged _ applied
    cases step with
    | surface action =>
      obtain ⟨surface,moved,rest⟩ := bind_ok_iff.mp applied
      cases rest
      exact .inr ⟨action,staged,⟨trivial,fun _ _ => trivial⟩,bind_ok_iff.mpr ⟨surface,mapError_ok_iff.mp moved,rfl⟩⟩
    | subscribe caller =>
      cases applied
      exact .inl rfl
    | forward index taken =>
      dsimp only [system,apply] at applied
      split at applied
      · cases applied
      · obtain ⟨stream,-,rest⟩ := bind_ok_iff.mp applied
        cases rest
        exact .inl rfl
    | cancel index =>
      dsimp only [system,apply] at applied
      split at applied
      · cases applied
      · cases applied
        exact .inl rfl
  refine lifted.further nofun ?_
  intro history now step next trail held follows staged _ applied
  have base := trail.weaken fun _ held => held.1
  obtain ⟨-,since⟩ := lifted.move history now step next base held staged trivial applied
  cases step with
  | surface action =>
    obtain ⟨surface,moved,rest⟩ := bind_ok_iff.mp applied
    cases rest
    exact fun stream member => Reports.onward (follows stream member) since.events
  | subscribe caller =>
    cases applied
    intro stream member
    rcases List.mem_append.mp member with old | new
    · exact follows stream old
    · rw [List.mem_singleton.mp new]
      exact .start
  | forward index taken =>
    dsimp only [system,apply] at applied
    split at applied
    · cases applied
    · next stream is =>
      obtain ⟨later,forwarded,rest⟩ := bind_ok_iff.mp applied
      cases rest
      intro other member
      rcases List.mem_or_eq_of_mem_set member with old | rfl
      · exact follows other old
      · exact forward_follows receives (follows stream (List.mem_of_getElem? is)) forwarded
  | cancel index =>
    dsimp only [system,apply] at applied
    split at applied
    · cases applied
    · next stream is =>
      cases applied
      intro other member
      rcases List.mem_or_eq_of_mem_set member with old | rfl
      · exact follows other old
      · exact follows stream (List.mem_of_getElem? is)

/-- Each outcome that a call has recorded is on the bus once, and those of a call in order.
    A stream has sent what was published for its subject since it subscribed, in order and
    once each, with a mark only where events had gone by that the bus no longer holds; each
    is an outcome of a call of its own subject, and true of the store. -/
theorem streams_faithful (receives : Receives busCapacity recv) {log : List (Step × Hub)}
    (run : Run (system api redigests recv) (fun _ _ => True) log) {hub : Hub}
    (reached : (system api redigests recv).current log = hub) :
    hub.surface.cell.events.Perm (hub.surface.calls.flatMap (eventsOf api)) ∧
      (∀ call ∈ hub.surface.calls, (eventsOf api call).Sublist hub.surface.cell.events) ∧
      ∀ stream ∈ hub.streams,
        Reports (own stream.owner) busCapacity hub.surface.cell.events stream.start stream.position stream.sent ∧
        (none ∉ stream.sent →
          stream.sent = (heard (own stream.owner) hub.surface.cell.events stream.start stream.position).map some) ∧
        ∀ name data, some (name,data) ∈ stream.sent → ∃ call ∈ hub.surface.calls, call.caller.sub = stream.owner ∧
          ∃ scope candidates index outcome, start api call.caller call.body = .ok (scope,candidates) ∧
            call.results[index]? = some outcome ∧ Told api hub.surface.cell call index outcome ∧
            (eventOf scope outcome).name = name ∧ (eventOf scope outcome).data = data := by
  subst reached
  obtain ⟨⟨⟨-,tells⟩,carries⟩,follows⟩ := run.holds hub_fits (hub_keeps receives)
  refine ⟨carries.once,carries.ordered,fun stream member => ⟨follows stream member,(follows stream member).whole,
    fun name data sent => ?_⟩⟩
  obtain ⟨event,published,mine⟩ := (follows stream member).mem sent
  unfold own at mine
  split_ifs at mine with owner
  cases mine
  obtain ⟨call,inside,of⟩ := List.mem_flatMap.mp (carries.once.mem_iff.mp published)
  unfold eventsOf at of
  split at of
  · next scope candidates started =>
    obtain ⟨outcome,recorded,rfl⟩ := List.mem_map.mp of
    obtain ⟨index,is⟩ := List.getElem?_of_mem recorded
    exact ⟨call,inside,(start_ok started).1.symm.trans owner,scope,candidates,index,outcome,started,is,
      (tells call inside).told index outcome is,rfl,rfl⟩
  · cases of

end

/-! ### A stream beside a capture -/

namespace Sample
open CaptureCalls.Sample Memories.Sample

/-- A bus that holds just its capacity. -/
def recv : Receiver ApiEvent := fun sent position =>
  if position < sent.length - busCapacity then (.lagged,sent.length - busCapacity)
  else match sent[position]? with
    | none => (.waits,position)
    | some event => (.value event,position + 1)

theorem receives : Receives busCapacity recv := by
  constructor
  · intro sent position event next is
    unfold recv at is
    split_ifs at is with behind
    · cases is
    · split at is
      · cases is
      · next found there =>
        cases is
        exact ⟨there,rfl⟩
  · intro sent position next is
    unfold recv at is
    split_ifs at is with behind
    · obtain ⟨-,rfl⟩ := Prod.mk.inj is
      exact ⟨behind,by omega⟩
    · split at is <;> cases is

def hub : System Hub Step Step Halt := system api false recv

def then' (log : List (Step × Hub)) (step : Step) : List (Step × Hub) := hub.extend log step

theorem run_then {log : List (Step × Hub)} {step : Step} (run : Run hub (fun _ _ => True) log)
    (staged : Stages api false (hub.states log) step) : Run hub (fun _ _ => True) (then' log step) :=
  run.extend staged ⟨trivial,fun _ _ => trivial⟩

def asked : List (Step × Hub) := then' (then' [] (.subscribe alice)) (.surface (.arrive alice none [1]))

def looked : List (Step × Hub) :=
  then' asked (.surface (.advance 0 (.look (memoOf api (.fresh alice none [1]) (hub.current asked).surface.cell))))

def trial : Trial := ⟨10,memoryId,⟨"key-1",[7]⟩,(hub.current looked).surface.cell.stock.holdings.db,
  (hub.current looked).surface.cell.stock.holdings.db,none,none⟩

/-- Alice listens, captures a note, and is sent its event. -/
def streamed : List (Step × Hub) :=
  then' (then' (then' looked (.surface (.advance 0 (.judge trial)))) (.surface (.advance 0 .publish))) (.forward 0 true)

theorem run_streamed : Run hub (fun _ _ => True) streamed := by
  have current : ∀ log, (hub.current log).surface ∈ (hub.states log).map Hub.surface :=
    fun log => List.mem_map_of_mem (hub.current_mem log)
  have asks : Run hub (fun _ _ => True) asked := run_then (run_then .start trivial) (.arrive _ _ _)
  have is : (hub.current asked).surface.calls[0]? = some (.fresh alice none [1]) := by
    simp only [asked,then']
    rfl
  have looks : Run hub (fun _ _ => True) looked := run_then asks (.look (current asked) is (current asked))
  exact run_then (run_then (run_then looks (.judge 0 ⟨_,current looked,rfl⟩ ⟨_,current looked,rfl⟩)) (.publish 0)) trivial

theorem streams_faithful_streamed : ∃ stream ∈ (hub.current streamed).streams,
    stream.sent = [some ("capture",⟨"personal",some (toString memoryId),"admit",none⟩)] ∧
    Reports (own stream.owner) busCapacity (hub.current streamed).surface.cell.events stream.start stream.position stream.sent ∧
    stream.sent = (heard (own stream.owner) (hub.current streamed).surface.cell.events stream.start stream.position).map some := by
  have sends : ((hub.current streamed).streams[0]?).map (fun stream => stream.sent) =
      some [some ("capture",⟨"personal",some (toString memoryId),"admit",none⟩)] := by decide +kernel
  obtain ⟨stream,is,sent⟩ := Option.map_eq_some_iff.mp sends
  have inside := List.mem_of_getElem? is
  obtain ⟨reports,whole,-⟩ := (streams_faithful receives run_streamed rfl).2.2 stream inside
  exact ⟨stream,inside,sent,reports,whole (by rw [sent]; simp)⟩

end Sample

end Aicortex.EventStreams
