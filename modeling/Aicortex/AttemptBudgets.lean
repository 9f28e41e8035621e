import Aicortex.AttemptLedger

/-!
The budget of an attempt at embedding work. However many drains are at the queue, and
whatever is lost, crashes or expires between their accesses, the attempts at a piece of
work for which a provider is asked are within the maximum of the policy: those that were
closed as deactivated or quarantined are not counted, and nothing else is given back.
The drains take the steps of numbered attempts under a budget.
-/

namespace Aicortex.Drains
open Aicortex.Text Aicortex.CivilTime Aicortex.Memories Aicortex.Schema Aicortex.MemoryRepo Aicortex.EmbeddingTables
open Aicortex.ModelRegistry Aicortex.Chunking Aicortex.Provider Aicortex.Pipeline
open Lib.Tables Lib.Outcome Lib.StaleRuns Lib.StaleRuns.System Lib.Attempts
open Aicortex.Claims hiding Unit Claim

/-! ### What a drain may do -/

def Cleared (annals : Annals) (claim : Claim) : Prop :=
  ∃ ceiling, (ticket claim,ceiling) ∈ annals.weighed ∧ claim.attempt ≤ ceiling

/-- What was done before an errand: the claim was weighed, and before a provider is asked
    nobody asked for it. -/
def Ready (annals : Annals) (claim : Claim) : Errand → Prop
  | .weighing => ticket claim ∉ annals.asked
  | .expiring => ∃ ceiling, (ticket claim,ceiling) ∈ annals.weighed ∧ ceiling ≤ claim.attempt
  | .checking | .loading | .renewing _ _ | .embedding _ _ => Cleared annals claim ∧ ticket claim ∉ annals.asked
  | .failing _ ceiling => (ticket claim,ceiling) ∈ annals.weighed
  | _ => Cleared annals claim

section
variable {annals further : Annals} {claim : Claim} {errand later : Errand}

theorem Cleared.more (cleared : Cleared annals claim) (weighed : ∀ weight ∈ annals.weighed, weight ∈ further.weighed) :
    Cleared further claim := by
  obtain ⟨ceiling,member,within⟩ := cleared
  exact ⟨ceiling,weighed _ member,within⟩

theorem Ready.more (ready : Ready annals claim errand) (weighed : ∀ weight ∈ annals.weighed, weight ∈ further.weighed)
    (asked : ticket claim ∈ further.asked → ticket claim ∈ annals.asked) : Ready further claim errand := by
  cases errand with
  | weighing => exact fun inside => ready (asked inside)
  | expiring =>
    obtain ⟨ceiling,member,within⟩ := ready
    exact ⟨ceiling,weighed _ member,within⟩
  | checking => exact ⟨ready.1.more weighed,fun inside => ready.2 (asked inside)⟩
  | loading => exact ⟨ready.1.more weighed,fun inside => ready.2 (asked inside)⟩
  | renewing => exact ⟨ready.1.more weighed,fun inside => ready.2 (asked inside)⟩
  | embedding => exact ⟨ready.1.more weighed,fun inside => ready.2 (asked inside)⟩
  | failing => exact weighed _ ready
  | awaiting => exact Cleared.more ready weighed
  | committing => exact Cleared.more ready weighed
  | rereading => exact Cleared.more ready weighed
  | rechecking => exact Cleared.more ready weighed
  | emptying => exact Cleared.more ready weighed
  | deferring => exact Cleared.more ready weighed
  | quarantining => exact Cleared.more ready weighed
  | counting => exact Cleared.more ready weighed

theorem Leads.ready {works : Works} {model : ModelRow} {stock : Stock} (leads : Leads works model claim stock errand later)
    (ready : Ready annals claim errand) : Ready annals claim later := by
  cases leads with
  | checking =>
    rcases checked_cases model claim stock with is | is | is <;> rw [is]
    · exact ready.1
    · exact ready
    · exact ready.1
  | loading =>
    rcases loaded_cases works model claim stock with is | is | ⟨error,is⟩ | ⟨memory,chunks,is⟩ <;> rw [is]
    · exact ready.1
    · exact ready.1
    · exact ready.1
    · exact ready
  | awaiting memory chunks now answer =>
    rcases answered_cases model claim memory chunks now answer with ⟨error,is⟩ | ⟨derivative,is⟩ <;> rw [is]
    · exact ready
    · exact ready
  | refused => exact ready
  | rereading refusal =>
    rcases reread_cases claim refusal stock with is | is | is <;> rw [is] <;> exact ready
  | rechecking refusal =>
    rcases rechecked_cases model refusal stock with is | ⟨error,is⟩ | is <;> rw [is] <;> exact ready

end

/-! ### What a drain commits -/

section
variable {works : Works} {limit : Nat} {history : List Stock} {now next : Stock} {annals : Annals} {drain : Drain} {txn : Txn}
variable {note : Annals → Annals} {hand : Option (Claim × Errand)} {claim : Claim}

/-- A claim that was failed is in the state the policy says. -/
theorem Lawful.closes (lawful : Lawful works.chassis) {errorClass : String} {policy : RetryPolicy} {time : UnixSeconds}
    {upkeep : Upkeep} (is : works.chassis.fail claim errorClass policy time now = .ok upkeep) :
    Closed claim (if policy.maxAttempts ≤ claim.attempt then .dead else .failed) now.work upkeep.row := by
  obtain ⟨-,rows,-⟩ := lawful.fails _ _ _ _ _ _ is
  refine ⟨(lawful.failed is).1,fun row _ holds => by rw [rows,if_pos holds],fun row _ apart => ?_⟩
  rw [rows,if_neg (fun holds => apart (Claim.holds_key holds))]

/-- Under the policy of its last attempt a claim is failed for good. -/
theorem Lawful.ends (lawful : Lawful works.chassis) {errorClass : String} {time : UnixSeconds} {upkeep : Upkeep}
    (is : works.chassis.fail claim errorClass (terminal works claim) time now = .ok upkeep) :
    Closed claim .dead now.work upkeep.row := by
  have last : (terminal works claim).maxAttempts ≤ claim.attempt := Nat.le_refl _
  have closes := lawful.closes is
  rwa [if_pos last] at closes

/-- Put back, such a claim is pending. -/
theorem Lawful.returns (lawful : Lawful works.chassis) {errorClass : String} {time : UnixSeconds} {upkeep : Upkeep}
    (is : works.chassis.fail claim errorClass (terminal works claim) time now = .ok upkeep) :
    Closed claim .pending now.work (upkeep.andThen (works.chassis.requeue claim.key time)).row := by
  have closes := lawful.ends is
  obtain ⟨rows,-⟩ := lawful.requeues claim.key time
  have whole : ∀ row, (upkeep.andThen (works.chassis.requeue claim.key time)).row row =
      (works.chassis.requeue claim.key time).row (upkeep.row row) := fun _ => rfl
  refine ⟨fun row => ?_,fun row inside holds => ?_,fun row inside apart => ?_⟩
  · rw [whole,rows]
    split_ifs <;> exact closes.keyed row
  · have named : row.key = claim.key := Claim.holds_key holds
    rw [whole,closes.held row inside holds,rows,if_pos ⟨named,rfl⟩]
  · rw [whole,closes.others row inside apart,rows,if_neg (fun hit => apart hit.1)]

theorem closed_done (claim : Claim) (work : List WorkRow) :
    Closed claim .done work (fun row => if claim.holds row = true then { row with state := .done } else row) := by
  refine ⟨fun row => ?_,fun row _ holds => if_pos holds,fun row _ apart => if_neg (fun holds => apart (Claim.holds_key holds))⟩
  split_ifs <;> rfl

theorem administrative_recorded (stock : Stock) (claim : Claim) (errorClass : String) (key : WorkKey) :
    administrativeAttempts { stock with attempts := stock.attempts ++ [⟨claim.key,claim.attempt,errorClass⟩] } key =
      administrativeAttempts stock key + if claim.key = key ∧ administrative errorClass = true then 1 else 0 := by
  rw [administrative_append,List.countP_singleton]
  simp only [Bool.and_eq_true,beq_iff_eq]

/-- A write leaves what was weighed and asked for, and forgets no ticket. -/
theorem Writes.notes (writes : Writes works drain.worker now drain.hand txn note hand) : (note annals).weighed = annals.weighed ∧
    (note annals).asked = annals.asked ∧ ∀ taken ∈ annals.issued, taken ∈ (note annals).issued := by
  generalize drain.hand = held at writes
  cases writes with
  | take is left => exact ⟨rfl,rfl,fun _ member => List.mem_cons_of_mem _ member⟩
  | sweep => exact ⟨rfl,rfl,fun _ member => member⟩
  | idle => exact ⟨rfl,rfl,fun _ member => member⟩
  | renew => exact ⟨rfl,rfl,fun _ member => member⟩
  | embed => exact ⟨rfl,rfl,fun _ member => member⟩
  | empty => exact ⟨rfl,rfl,fun _ member => member⟩
  | fail => exact ⟨rfl,rfl,fun _ member => member⟩
  | defer => exact ⟨rfl,rfl,fun _ member => member⟩
  | quarantine => exact ⟨rfl,rfl,fun _ member => member⟩

/-- What a drain commits keeps the tickets in step with the queue. -/
theorem Writes.ledger (lawful : Lawful works.chassis) (ledger : Ledger limit now annals) (since : Since now next)
    (grounded : Grounded works history drain)
    (ready : ∀ claim errand, drain.hand = some (claim,errand) → Ready annals claim errand)
    (writes : Writes works drain.worker now drain.hand txn note hand)
    (committed : Pipeline.commit works.fingerprint works.scopeId now txn = .ok next) : Ledger limit next (note annals) := by
  generalize holds : drain.hand = held at writes
  cases writes with
  | sweep is =>
    obtain ⟨keyed,latest,states,charges⟩ := lawful.sweeps _ _ _ _ _ _ is
    cases committed
    refine ledger.upkeep since keyed (fun row => ?_) charges
    rcases states row with same | ⟨-,pending | failed | ⟨dead,capped⟩⟩
    · exact .inl same
    · exact .inr ⟨latest row,by rw [pending]; exact nofun,by rw [pending]; exact nofun⟩
    · exact .inr ⟨latest row,by rw [failed]; exact nofun,by rw [failed]; exact nofun⟩
    · exact .inr ⟨latest row,by rw [dead]; exact nofun,fun _ => .inr capped⟩
  | idle is =>
    obtain ⟨rows,charges⟩ := lawful.idles _ _ _ _ _ _ is
    cases committed
    exact ledger.upkeep since (fun row => by rw [rows]) (fun row => .inl (rows row)) charges
  | take is left =>
    obtain ⟨-,charges,⟨row,queued,named,attempt,-,-⟩,rows⟩ := lawful.takes _ _ _ _ _ _ _ is
    cases committed
    exact ledger.take since ⟨row,queued,named,attempt⟩ rows charges
  | renew is left =>
    obtain ⟨-,rows,attempts⟩ := lawful.renews _ _ _ _ _ is
    cases committed
    exact ledger.upkeep since (fun row => by rw [rows]) (fun row => .inl (rows row)) fun records =>
      ⟨[],by rw [attempts,List.append_nil],nofun⟩
  | embed left =>
    obtain ⟨-,first,second,-,answer,time,processed⟩ := grounded.backed _ _ holds
    obtain ⟨row,chunks,vectors,-,-,-,-,-,-,rfl⟩ := process_embed processed
    obtain ⟨-,held,rfl,-⟩ := embed_ok committed
    exact ledger.settle since held rfl (closed_done _ _) nofun nofun fun _ => rfl
  | empty =>
    obtain ⟨held,rfl⟩ := complete_ok committed
    exact ledger.settle since held rfl (closed_done _ _) nofun nofun fun _ => rfl
  | @fail time upkeep claim errand errorClass ceiling fails is =>
    obtain ⟨held,-,attempts⟩ := lawful.fails _ _ _ _ _ _ is
    have charged : administrative errorClass = false := by
      cases fails with
      | expiring => rfl
      | failing => exact lawful.kinds _
    have spent : ∃ weight, (ticket claim,weight) ∈ annals.weighed ∧ (ceiling ≤ claim.attempt → weight ≤ claim.attempt) := by
      cases fails with
      | expiring =>
        obtain ⟨weight,member,within⟩ := ready _ _ holds
        exact ⟨weight,member,fun _ => within⟩
      | failing => exact ⟨ceiling,ready _ _ holds,id⟩
    obtain ⟨weight,member,within⟩ := spent
    cases committed
    refine ledger.settle since held rfl (lawful.closes is) ?_ ?_ fun key => ?_
    · split_ifs <;> exact nofun
    · intro shut
      split_ifs at shut with beyond
      · exact ⟨weight,member,within beyond⟩
      · cases shut
    · rw [attempts]
      refine (administrative_recorded now claim errorClass key).trans ?_
      rw [if_neg (fun hit => Bool.false_ne_true (charged.symm.trans hit.2)),Nat.add_zero]
  | @defer time upkeep claim is =>
    obtain ⟨held,-,attempts⟩ := lawful.fails _ _ _ _ _ _ is
    obtain ⟨-,kept⟩ := lawful.requeues claim.key time
    cases committed
    refine ledger.excuse since held rfl (lawful.returns is) nofun (ready _ _ holds) fun key => ?_
    change administrativeAttempts { now with
      attempts := (works.chassis.requeue claim.key time).attempts (upkeep.attempts now.attempts) } key = _
    rw [kept,attempts]
    refine (administrative_recorded now claim "model_deactivated" key).trans ?_
    simp [show administrative "model_deactivated" = true from rfl]
  | @quarantine time upkeep claim is =>
    obtain ⟨held,-,attempts⟩ := lawful.fails _ _ _ _ _ _ is
    cases committed
    refine ledger.excuse since held rfl (lawful.ends is) nofun (ready _ _ holds) fun key => ?_
    change administrativeAttempts { now with attempts := upkeep.attempts now.attempts } key = _
    rw [attempts]
    refine (administrative_recorded now claim "quarantined" key).trans ?_
    simp [show administrative "quarantined" = true from rfl]

theorem Ledger.asked_issued (ledger : Ledger limit now annals) {taken : Ticket WorkKey} (asked : taken ∈ annals.asked) :
    taken ∈ annals.issued := by
  obtain ⟨ceiling,weighed,-⟩ := ledger.sound.actedCleared taken asked
  exact ledger.sound.weighedIssued _ weighed

/-- What is in hand after a write was in hand before, or it is a new ticket. -/
theorem Writes.ready (lawful : Lawful works.chassis) (ledger : Ledger limit now annals)
    (ready : ∀ claim errand, drain.hand = some (claim,errand) → ticket claim ∈ annals.issued ∧ Ready annals claim errand)
    (writes : Writes works drain.worker now drain.hand txn note hand) :
    ∀ claim errand, hand = some (claim,errand) → ticket claim ∈ (note annals).issued ∧ Ready (note annals) claim errand ∧
      ((∃ earlier, drain.hand = some (claim,earlier)) ∨ ticket claim ∉ annals.issued) := by
  intro claim errand has
  generalize holds : drain.hand = held at writes
  cases writes with
  | sweep => cases has
  | idle => cases has
  | take is left =>
    rcases left with rfl | rfl
    · cases has
    cases has
    obtain ⟨-,-,⟨row,queued,named,attempt,-,-⟩,-⟩ := lawful.takes _ _ _ _ _ _ _ is
    have fresh : ticket claim ∉ annals.issued := by
      intro member
      have most := (ledger.sound.numbered _ member).2 (entryOf row) (by
        rw [← entryAt_of_mem ledger.unique queued,named]
        rfl)
      change claim.attempt ≤ row.attempt at most
      omega
    exact ⟨List.mem_cons_self,fun asked => fresh (ledger.asked_issued asked),.inr fresh⟩
  | renew is left =>
    rcases left with rfl | rfl
    · cases has
    cases has
    obtain ⟨issued,was⟩ := ready _ _ holds
    exact ⟨issued,was,.inl ⟨_,rfl⟩⟩
  | embed left =>
    rcases left with rfl | ⟨refusal,rfl⟩
    · cases has
    cases has
    obtain ⟨issued,was⟩ := ready _ _ holds
    exact ⟨issued,was,.inl ⟨_,rfl⟩⟩
  | empty => cases has
  | fail => cases has
  | defer => cases has
  | quarantine => cases has

end

/-! ### Sites -/

/-- The tickets are in step with the queue, each drain may do what it is about to, and no
    two hold one claim. -/
structure Budgeted (works : Works) (site : Site) : Prop where
  ledger : Ledger works.config.retry.maxAttempts site.stock site.annals
  ready : ∀ (index : Nat) (drain : Drain) claim errand, site.drains[index]? = some drain → drain.hand = some (claim,errand) →
    ticket claim ∈ site.annals.issued ∧ Ready site.annals claim errand
  apart : ∀ (one two : Nat) (left right : Drain) claim errand other another, one ≠ two →
    site.drains[one]? = some left → site.drains[two]? = some right →
      left.hand = some (claim,errand) → right.hand = some (other,another) → ticket claim ≠ ticket other

section
variable {works : Works} {redigests : Bool} {site after : Site} {drain next : Drain} {index : Nat}

/-- What is left to show of a turn: the ledger, what is in hand, and that the others may go on. -/
theorem Budgeted.set (budgeted : Budgeted works site) (found : site.drains[index]? = some drain) {log : List (Txn × Stock)}
    {annals : Annals}
    (ledger : Ledger works.config.retry.maxAttempts (Site.stock ⟨log,site.drains,annals⟩) annals)
    (issued : ∀ taken ∈ site.annals.issued, taken ∈ annals.issued)
    (weighed : ∀ weight ∈ site.annals.weighed, weight ∈ annals.weighed)
    (asked : ∀ taken ∈ annals.asked, taken ∈ site.annals.asked ∨
      ∃ claim errand, drain.hand = some (claim,errand) ∧ taken = ticket claim)
    (mine : ∀ claim errand, next.hand = some (claim,errand) → ticket claim ∈ annals.issued ∧ Ready annals claim errand ∧
      ((∃ earlier, drain.hand = some (claim,earlier)) ∨ ticket claim ∉ site.annals.issued)) :
    Budgeted works ⟨log,site.drains.set index next,annals⟩ := by
  have within : index < site.drains.length := (List.getElem?_eq_some_iff.mp found).1
  have here : (site.drains.set index next)[index]? = some next := by
    rw [List.getElem?_set_self within]
  have there : ∀ other, other ≠ index → (site.drains.set index next)[other]? = site.drains[other]? := by
    intro other differs
    rw [List.getElem?_set_ne (Ne.symm differs)]
  -- the ticket of another drain is not the one of this
  have others : ∀ other one claim errand other' another, other ≠ index → site.drains[other]? = some one →
      one.hand = some (claim,errand) → next.hand = some (other',another) → ticket claim ≠ ticket other' := by
    intro other one claim errand other' another differs is holds has
    rcases (mine _ _ has).2.2 with ⟨earlier,was⟩ | fresh
    · exact budgeted.apart other index one drain claim errand other' earlier differs is found holds was
    · intro same
      rw [← same] at fresh
      exact fresh (budgeted.ready other one claim errand is holds).1
  constructor
  · exact ledger
  · intro other one claim errand is holds
    by_cases same : other = index
    · rw [same,here] at is
      cases is
      obtain ⟨member,ready,-⟩ := mine claim errand holds
      exact ⟨member,ready⟩
    · rw [there other same] at is
      obtain ⟨member,ready⟩ := budgeted.ready other one claim errand is holds
      refine ⟨issued _ member,ready.more weighed fun inside => ?_⟩
      rcases asked _ inside with before | ⟨own,earlier,was,equal⟩
      · exact before
      · exact absurd equal (budgeted.apart other index one drain claim errand own earlier same is found holds was)
  · intro one two left right claim errand other another differs isLeft isRight leftHolds rightHolds
    by_cases first : one = index
    · rw [first,here] at isLeft
      cases isLeft
      rw [first] at differs
      rw [there two (Ne.symm differs)] at isRight
      exact fun equal => others two right other another claim errand (Ne.symm differs) isRight rightHolds leftHolds equal.symm
    · rw [there one first] at isLeft
      by_cases second : two = index
      · rw [second,here] at isRight
        cases isRight
        exact others one left claim errand other another first isLeft leftHolds rightHolds
      · rw [there two second] at isRight
        exact budgeted.apart one two left right claim errand other another differs isLeft isRight leftHolds rightHolds

/-- What a commit of a run leads to. -/
theorem since_commit {log : List (Txn × Stock)} {txn : Txn} {later : Stock} (run : Run (store works redigests) (fun _ _ => True) log)
    (staged : Pipeline.Stages works.fingerprint works.chunks redigests ((store works redigests).states log) txn)
    (committed : Pipeline.commit works.fingerprint works.scopeId ((store works redigests).current log) txn = .ok later) :
    Basis later ∧ Since ((store works redigests).current log) later := by
  have trail := (run_longer run staged committed).trail Pipeline.stages_fit basis_keeps
  exact ⟨trail.held _ List.mem_cons_self,trail.since _ (List.mem_cons_of_mem _ (System.current_mem _ _))⟩

/-- Step lemma of a drain. -/
theorem Budgeted.turn (lawful : Lawful works.chassis) (runs : Runs works redigests site) (budgeted : Budgeted works site)
    (found : site.drains[index]? = some drain) (turn : Turn works drain site next after) :
    Budgeted works { after with drains := after.drains.set index next } := by
  have grounded := runs.grounded drain (List.mem_of_getElem? found)
  have ready := fun claim errand => budgeted.ready index drain claim errand found
  have ledger := budgeted.ledger
  cases turn with
  | leave worker free =>
    exact budgeted.set found ledger (fun _ member => member) (fun _ member => member) (fun _ member => .inl member)
      fun claim errand has => by rw [free] at has; cases has
  | @read claim errand later holds leads =>
    refine budgeted.set found ledger (fun _ member => member) (fun _ member => member) (fun _ member => .inl member) ?_
    intro _ _ has
    cases has
    obtain ⟨issued,may⟩ := ready _ _ holds
    exact ⟨issued,leads.ready may,.inl ⟨errand,holds⟩⟩
  | @weigh claim errand later ceiling holds policy weighs =>
    obtain ⟨issued,may⟩ := ready _ _ holds
    have is : ceiling = works.config.retry.maxAttempts + administrativeAttempts site.stock claim.key := by
      unfold providerRetryPolicy at policy
      dsimp only at policy
      split_ifs at policy
      exact (Except.ok.inj policy).symm
    have sound : Sound works.config.retry.maxAttempts maxU32 ((site.annals.weigh claim ceiling).book site.stock.work) := by
      refine ledger.sound.step (.weigh issued ?_ fun there => ?_)
      · rw [is]
        exact Nat.add_le_add_left (ledger.counted claim.key) _
      · rw [is,ledger.whole claim.key there]
        rfl
    refine budgeted.set found ⟨ledger.unique,sound,ledger.counted,ledger.whole,ledger.lasting⟩ (fun _ member => member)
      (fun _ member => List.mem_cons_of_mem _ member) (fun _ member => .inl member) ?_
    intro _ _ has
    cases has
    refine ⟨issued,?_,.inl ⟨errand,holds⟩⟩
    cases weighs with
    | spent beyond => exact ⟨ceiling,List.mem_cons_self,beyond.le⟩
    | left within => exact ⟨⟨ceiling,List.mem_cons_self,within⟩,may⟩
    | counted error => exact List.mem_cons_self
  | @ask claim memory chunks holds =>
    obtain ⟨issued,cleared,first⟩ := ready _ _ holds
    have sound : Sound works.config.retry.maxAttempts maxU32 ((site.annals.ask claim).book site.stock.work) :=
      ledger.sound.step (.act cleared first)
    refine budgeted.set found ⟨ledger.unique,sound,ledger.counted,ledger.whole,ledger.lasting⟩ (fun _ member => member)
      (fun _ member => member) (fun taken member => ?_) ?_
    · rcases List.mem_cons.mp member with same | earlier
      · exact .inr ⟨claim,_,holds,same⟩
      · exact .inl earlier
    · intro _ _ has
      cases has
      exact ⟨issued,cleared,.inl ⟨_,holds⟩⟩
  | @write next txn stock note worker writes committed =>
    have since : Since site.stock stock := by
      have staged : Pipeline.Stages works.fingerprint works.chunks redigests ((store works redigests).states site.log) txn :=
        writes.staged lawful grounded
      rw [stock_current works redigests] at committed ⊢
      exact (since_commit runs.run staged committed).2
    obtain ⟨weighed,asked,issued⟩ : (note site.annals).weighed = site.annals.weighed ∧
      (note site.annals).asked = site.annals.asked ∧ ∀ taken ∈ site.annals.issued, taken ∈ (note site.annals).issued :=
        writes.notes
    have later := writes.ledger lawful ledger since grounded (fun claim errand has => (ready claim errand has).2) committed
    refine budgeted.set found later issued (fun weight member => ?_) (fun taken member => ?_) (writes.ready lawful ledger ready)
    · rw [weighed]
      exact member
    · rw [asked] at member
      exact .inl member

/-- A new drain holds nothing. -/
theorem Budgeted.begin' (budgeted : Budgeted works site) (worker : Worker) :
    Budgeted works { site with drains := site.drains ++ [.start worker] } := by
  have old : ∀ (index : Nat) (drain : Drain) claim errand, (site.drains ++ [.start worker])[index]? = some drain →
      drain.hand = some (claim,errand) → site.drains[index]? = some drain := by
    intro index drain claim errand is holds
    rw [List.getElem?_append] at is
    split_ifs at is with within
    · exact is
    · have new := List.mem_singleton.mp (List.mem_of_getElem? is)
      rw [new] at holds
      cases holds
  constructor
  · exact budgeted.ledger
  · intro index drain claim errand is holds
    exact budgeted.ready index drain claim errand (old _ _ _ _ is holds) holds
  · intro one two left right claim errand other another differs isLeft isRight leftHolds rightHolds
    exact budgeted.apart one two left right claim errand other another differs (old _ _ _ _ isLeft leftHolds)
      (old _ _ _ _ isRight rightHolds) leftHolds rightHolds

/-- Work that is put back is nobody's. -/
theorem Ledger.requeue (lawful : Lawful works.chassis) {limit : Nat} {now next : Stock} {annals : Annals}
    (ledger : Ledger limit now annals) (since : Since now next) {key : WorkKey} {time : UnixSeconds}
    (committed : Pipeline.commit works.fingerprint works.scopeId now (works.chassis.requeue key time).txn = .ok next) :
    Ledger limit next annals := by
  obtain ⟨rows,attempts⟩ := lawful.requeues key time
  cases committed
  refine ledger.upkeep since (fun row => ?_) (fun row => ?_) fun records => ⟨[],by rw [attempts,List.append_nil],nofun⟩
  · rw [rows]
    split_ifs <;> rfl
  · rw [rows]
    split_ifs
    · exact .inr ⟨rfl,nofun,nofun⟩
    · exact .inl rfl

/-- Step lemma. -/
theorem Budgeted.step (lawful : Lawful works.chassis) (runs : Runs works redigests site) (budgeted : Budgeted works site)
    {action : Action} (staged : Stages works redigests site action) (applied : apply works site action = .ok after) :
    Budgeted works after := by
  have beside : ∀ {txn : Txn} {lost : Option StoreError}, site.write works (.ok txn) id lost = (after,.ok ()) →
      (∀ stock, Pipeline.commit works.fingerprint works.scopeId site.stock txn = .ok stock →
        Ledger works.config.retry.maxAttempts stock site.annals) → Budgeted works after := by
    intro txn lost written ledger
    rcases write_cases written with ⟨-,_,told⟩ | ⟨same,stock,is,committed,rfl⟩
    · cases told
    · cases is
      exact ⟨ledger stock committed,budgeted.ready,budgeted.apart⟩
  cases staged with
  | drain valid bound =>
    cases applied
    exact budgeted.begin' _
  | advance index step =>
    unfold apply at applied
    dsimp only at applied
    split at applied
    · cases applied
    · next drain found =>
      obtain ⟨⟨later,mid⟩,advanced,rest⟩ := bind_ok_iff.mp applied
      cases rest
      exact budgeted.turn lawful runs found (advance_turn advanced)
  | requeue key now =>
    unfold apply at applied
    dsimp only at applied
    split at applied
    · next written =>
      cases applied
      refine beside written fun stock committed => budgeted.ledger.requeue lawful ?_ committed
      obtain ⟨keyed,unfinished⟩ := lawful.returned key now
      rw [stock_current works redigests] at committed ⊢
      exact (since_commit runs.run (staged_upkeep keyed unfinished) committed).2
    · cases applied
  | @elsewhere txn other staged =>
    unfold apply at applied
    dsimp only at applied
    split at applied
    · next written =>
      cases applied
      refine beside written fun stock committed => ?_
      have trail := runs.run.trail Pipeline.stages_fit basis_keeps
      rw [stock_current works redigests] at committed
      obtain ⟨basis,since⟩ := since_commit runs.run staged committed
      have ledger := budgeted.ledger
      rw [stock_current works redigests] at ledger
      obtain ⟨unique,each⟩ := elsewhere_befalls trail ledger.unique other staged committed
      exact ledger.befalls since basis.unique unique each
    · cases applied

/-- Run lemma. -/
theorem Reached.budgeted (lawful : Lawful works.chassis) (reached : Reached works redigests site) : Budgeted works site := by
  induction reached with
  | start =>
    have ledger : Ledger works.config.retry.maxAttempts Stock.empty ⟨[],[],[],[],[]⟩ := by
      constructor
      · exact List.nodup_nil
      · exact .empty
      · intro key
        exact Nat.zero_le _
      · intro key there
        cases there
      · intro taken member
        cases member
    refine ⟨ledger,fun index drain claim errand is => ?_,fun one two left right claim errand other another differs is => ?_⟩
    · cases is
    · cases is
  | step reached staged applied ih => exact ih.step lawful (reached.runs lawful) staged applied

/-- No attempt asks a provider twice; of the attempts at a piece of work that asked one, those
    that were not closed as deactivated or quarantined are within the maximum; while the work
    is there, what is recorded under these classes is what was closed so; and work is dead only
    where its last attempt was closed so, or its attempts reached the maximum with these. -/
theorem attempts_budgeted (lawful : Lawful works.chassis) (reached : Reached works redigests site) (key : WorkKey) :
    site.annals.asked.Nodup ∧
      (site.annals.asked.filter (fun asked => asked.key = key ∧ asked ∉ site.annals.excused)).length ≤
        works.config.retry.maxAttempts ∧
      ((∃ row ∈ site.stock.work, row.key = key) → administrativeAttempts site.stock key =
        (site.annals.excused.filter (fun excused => excused.key = key)).length) ∧
      ∀ row ∈ site.stock.work, row.key = key → row.state = .dead → ⟨key,row.attempt⟩ ∈ site.annals.excused ∨
        works.config.retry.maxAttempts + administrativeAttempts site.stock key ≤ row.attempt ∨ maxU32 ≤ row.attempt := by
  have ledger := (reached.budgeted lawful).ledger
  refine ⟨ledger.sound.actedOnce,ledger.sound.acted_le key,fun there => ?_,?_⟩
  · rw [ledger.whole key (entryAt_isSome.mpr there)]
    exact List.length_map _
  · rintro row member rfl dead
    have entry : (site.annals.book site.stock.work).entry row.key = some ⟨row.attempt,.shut⟩ := by
      change entryAt site.stock.work row.key = _
      rw [entryAt_of_mem ledger.unique member,entryOf,dead]
      rfl
    rw [ledger.whole row.key (entryAt_isSome.mpr ⟨row,member,rfl⟩)]
    exact ledger.sound.shut ⟨row.key,row.attempt⟩ entry

end

/-! ### A small queue -/

namespace Sample
open Claims.Sample Memories.Sample Store.Sample Lifecycle.Sample Pipeline.Sample
open CaptureGate Lifecycle

/-- A queue whose claims expire at once, and that hands out the first work it may. -/
def queue : Chassis where
  sweep policy _ _ stock := .ok (⟨fun row => if row.state = .claimed then
      { row with state := if policy.maxAttempts ≤ row.attempt then .dead else .failed } else row,id⟩,
    stock.work.countP (fun row => row.state == .claimed && policy.maxAttempts ≤ row.attempt))
  next revision _ _ _ stock :=
    match stock.work.find? (fun row => row.key.revision == revision && (row.state == .pending || row.state == .failed)) with
    | none => .ok (⟨id,id⟩,none)
    | some row =>
      .ok (⟨fun other => if other.key = row.key then { other with state := .claimed, attempt := other.attempt + 1 } else other,
        id⟩,some ⟨row.key,row.attempt + 1⟩)
  renew claim _ _ stock := if stock.work.any claim.holds then .ok ⟨id,id⟩ else .error (.conflict "the claim is held by another")
  fail claim errorClass policy _ stock :=
    if stock.work.any claim.holds then
      .ok ⟨fun row => if claim.holds row then
          { row with state := if policy.maxAttempts ≤ claim.attempt then .dead else .failed } else row,
        fun attempts => attempts ++ [⟨claim.key,claim.attempt,errorClass⟩]⟩
    else .error (.conflict "the claim is held by another")
  requeue key _ := ⟨fun row => if row.key = key ∧ row.state = .dead then { row with state := .pending } else row,id⟩
  kind _ := "upstream"

theorem queue_charges (row : WorkRow → WorkRow) : Charges ⟨row,id⟩ := fun _ => ⟨[],(List.append_nil _).symm,nofun⟩

theorem queue_lawful : Lawful queue where
  sweeps := by
    intro policy now limit stock upkeep dead is
    cases is
    refine ⟨fun row => ?_,fun row => ?_,fun row => ?_,queue_charges _⟩
    · dsimp only
      split_ifs <;> rfl
    · dsimp only
      split_ifs <;> rfl
    · dsimp only
      split_ifs with claimed spent
      · exact .inr ⟨claimed,.inr (.inr ⟨rfl,spent⟩)⟩
      · exact .inr ⟨claimed,.inr (.inl rfl)⟩
      · exact .inl rfl
  idles := by
    intro revision holder hold now stock upkeep is
    unfold queue at is
    dsimp only at is
    split at is
    · cases is
      exact ⟨fun _ => rfl,queue_charges _⟩
    · cases is
  takes := by
    intro revision holder hold now stock upkeep claim is
    unfold queue at is
    dsimp only at is
    split at is
    · cases is
    · next row found =>
      cases is
      have chosen := List.find?_some found
      simp only [Bool.and_eq_true,Bool.or_eq_true,beq_iff_eq] at chosen
      obtain ⟨same,waits⟩ := chosen
      refine ⟨same,queue_charges _,⟨row,List.mem_of_find?_eq_some found,rfl,rfl,?_,?_⟩,fun _ => rfl⟩
      · rcases waits with state | state <;> rw [state] <;> exact nofun
      · rcases waits with state | state <;> rw [state] <;> exact nofun
  renews := by
    intro claim hold now stock upkeep is
    unfold queue at is
    dsimp only at is
    split at is
    · next held =>
      cases is
      exact ⟨List.any_eq_true.mp held,fun _ => rfl,fun _ => rfl⟩
    · cases is
  fails := by
    intro claim errorClass policy now stock upkeep is
    unfold queue at is
    dsimp only at is
    split at is
    · next held =>
      cases is
      exact ⟨List.any_eq_true.mp held,fun _ => rfl,fun _ => rfl⟩
    · cases is
  requeues := fun _ _ => ⟨fun _ => rfl,fun _ => rfl⟩
  kinds := fun _ => rfl

/-- One attempt is all a provider gets. -/
def works : Works := ⟨queue,{ defaultWorkerConfig with retry := ⟨1,2 * second,300 * second⟩ },config,textOf,Scope.display⟩

/-- A note nobody established the origin of. -/
def asserted : CaptureGate.Candidate := { offered secondId "window seat" .assertion [] 1 with origin := .asserted }

def shelved : Memory := { normalized CaptureGate.Sample.linked asserted with status := .quarantined }

theorem shelved_admitted : Admitted shelved := by
  have held : walkCapture CaptureGate.Sample.linked CaptureGate.Sample.rules asserted = .hold (.originUnestablished .asserted) := by
    decide +kernel
  refine .held CaptureGate.Sample.linked CaptureGate.Sample.rules asserted (.originUnestablished .asserted) ?_
  rw [evaluate,held]
  rfl

def stocked : List (Pipeline.Txn × Stock) :=
  Pipeline.Sample.captured (Pipeline.Sample.captured (activated [] tiny) (noted noteId "aisle seat" .evidence [] 1)) shelved

def drainer : Worker := ⟨tinyRow,"worker"⟩

/-- Four drains are started on the stock. -/
def started : Site := ⟨stocked,List.replicate 4 (.start drainer),⟨[],[],[],[],[]⟩⟩

def noteKey : WorkKey := ⟨scope,noteId,1,"tiny"⟩
def shelvedKey : WorkKey := ⟨scope,secondId,1,"tiny"⟩

def proceed (index : Nat) : Action := .advance index (.proceed 20 none)

/-- The provider fails at the note, and the other memory is quarantined; both are put back,
    and two drains are at them at once. -/
def moves : List Action :=
  List.replicate 8 (proceed 0) ++ [.advance 0 (.answer 21 (.error (.integrity "no answer"))),proceed 0,proceed 0] ++
    List.replicate 8 (proceed 1) ++ [.requeue noteKey 22,.requeue shelvedKey 22] ++
      (List.replicate 5 [proceed 2,proceed 3]).flatten ++ [proceed 3,proceed 3]

def act (site : Site) (action : Action) : Site := (apply works site action).toOption.getD site

def twice : Site := moves.foldl act started

/-- What is not drained is reached with no drain at it. -/
theorem reached_log {log : List (Pipeline.Txn × Stock)} (run : Run (store works false) (fun _ _ => True) log)
    (others : ∀ entry ∈ log, drained entry.1 = false) : Reached works false ⟨log,[],⟨[],[],[],[],[]⟩⟩ := by
  induction run with
  | start => exact .start
  | @step log txn next run staged meet committed ih =>
    refine .step (ih fun entry member => others entry (List.mem_cons_of_mem _ member))
      (.elsewhere (others _ List.mem_cons_self) staged) ?_
    have applied : Pipeline.commit works.fingerprint works.scopeId (Site.stock ⟨log,[],⟨[],[],[],[],[]⟩⟩) txn = .ok next := by
      rw [stock_current works false]
      exact commit_single rfl committed
    simp only [apply,Site.write,applied]
    rfl

theorem reached_started : Reached works false started := by
  have run : Run (store works false) (fun _ _ => True) stocked :=
    Pipeline.Sample.run_captured (Pipeline.Sample.run_captured (run_activated .start fun _ => trivial)
      (noted_admitted aisle_passes _ _ _ _) fun _ _ => trivial) shelved_admitted fun _ _ => trivial
  have bound : Bound ((store works false).states stocked) tinyRow := ⟨_,System.current_mem _ _,by decide +kernel⟩
  have begun := reached_log run (by decide +kernel)
  exact .step (.step (.step (.step begun (.drain rfl bound) rfl) (.drain rfl bound) rfl) (.drain rfl bound) rfl) (.drain rfl bound) rfl

def free : Action → Bool
  | .advance _ _ | .requeue _ _ => true
  | _ => false

theorem reached_moves {actions : List Action} (all : actions.all free = true) {site : Site} (reached : Reached works false site) :
    Reached works false (actions.foldl act site) := by
  induction actions generalizing site with
  | nil => exact reached
  | cons action rest ih =>
    obtain ⟨first,all⟩ := Bool.and_eq_true_iff.mp all
    refine ih all ?_
    have staged : Stages works false site action := by
      cases action with
      | advance index step => exact .advance index step
      | requeue key now => exact .requeue key now
      | drain => cases first
      | elsewhere => cases first
    unfold act
    cases applied : apply works site action with
    | error => exact reached
    | ok next => exact .step reached staged applied

/-- The provider was asked for the note once, and never for the memory in quarantine, whose
    attempts are not counted. -/
theorem attempts_budgeted_twice :
    twice.annals.asked = [⟨noteKey,1⟩] ∧ twice.annals.excused = [⟨shelvedKey,2⟩,⟨shelvedKey,1⟩] ∧
      twice.stock.work.map (fun row => (row.key,row.state,row.attempt)) = [(noteKey,.dead,2),(shelvedKey,.dead,2)] ∧
      (twice.annals.asked.filter (fun asked => asked.key = noteKey ∧ asked ∉ twice.annals.excused)).length ≤ 1 ∧
      administrativeAttempts twice.stock shelvedKey =
        (twice.annals.excused.filter (fun excused => excused.key = shelvedKey)).length := by
  have reached : Reached works false twice := reached_moves rfl reached_started
  have note := attempts_budgeted queue_lawful reached noteKey
  have shelf := attempts_budgeted queue_lawful reached shelvedKey
  exact ⟨by decide +kernel,by decide +kernel,by decide +kernel,note.2.1,shelf.2.2.1 (by decide +kernel)⟩

end Sample

end Aicortex.Drains
