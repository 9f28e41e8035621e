import Mathlib.Data.List.Nodup
import Mathlib.Data.List.Perm.Subperm
import Mathlib.Data.List.Range
import Mathlib.Logic.Function.Basic
import Mathlib.Tactic.SplitIfs

/-!
Work that is handed out in numbered attempts, under a budget. Whoever takes a piece of work
gets a ticket with the number of the attempt, and only the holder of the latest ticket may
settle it. A ticket is weighed before its holder acts: its number may exceed the limit only
by the attempts that were settled as not counting. So of the acts on one piece of work no
more count than the limit, whatever is lost, taken again or done beside it, and work is shut
only when its budget is spent.
-/

namespace Lib.Attempts

/-! ### Numbers -/

section
variable {excused acted : List Nat} {limit number : Nat}

theorem countP_next_le (distinct : excused.Nodup) (number : Nat) :
    excused.countP (· < number + 1) ≤ excused.countP (· < number) + 1 := by
  induction excused with
  | nil => simp
  | cons first rest ih =>
    obtain ⟨apart,distinct⟩ := List.nodup_cons.mp distinct
    have further := ih distinct
    simp only [List.countP_cons,decide_eq_true_eq]
    by_cases equal : first = number
    · have none' : rest.countP (· < number + 1) = rest.countP (· < number) := by
        apply List.countP_congr
        intro other member
        have differs : other ≠ number := fun same => apart (by rw [equal,← same]; exact member)
        simp
        omega
      rw [none']
      split_ifs <;> omega
    · split_ifs <;> omega

/-- What a number may exceed the limit by was excused before it, if that is so of all that
    was excused. -/
theorem afforded (distinct : excused.Nodup) (each : ∀ other ∈ excused, other ≤ limit + excused.countP (· < other))
    (within : number ≤ limit + excused.length) : number ≤ limit + excused.countP (· < number) := by
  by_contra short
  have beyond : ∀ more, limit + excused.countP (· < number + more) < number + more := by
    intro more
    induction more with
    | zero => exact Nat.lt_of_not_le short
    | succ more ih =>
      have next := countP_next_le distinct (number + more)
      rw [← Nat.add_assoc]
      omega
  have below : ∀ other ∈ excused, other < number := by
    intro other member
    by_contra late
    have known := each other member
    have far := beyond (other - number)
    rw [Nat.add_sub_of_le (Nat.le_of_not_lt late)] at far
    omega
  have all : excused.countP (· < number) = excused.length := List.countP_eq_length.mpr (by simpa using below)
  omega

/-- Distinct numbers that exceed the limit only by what was excused before them, and were
    not excused themselves, are no more than the limit. -/
theorem length_le_limit (distinct : excused.Nodup) (positive : ∀ other ∈ excused, 0 < other) (once : acted.Nodup)
    (apart : ∀ number ∈ acted, 0 < number ∧ number ∉ excused ∧ number ≤ limit + excused.countP (· < number)) :
    acted.length ≤ limit := by
  cases latest : acted.max? with
  | none =>
    rw [List.max?_eq_none_iff.mp latest]
    exact Nat.zero_le _
  | some last =>
    obtain ⟨inside,most⟩ := List.max?_eq_some_iff.mp latest
    obtain ⟨-,-,affords⟩ := apart last inside
    have separate : (acted ++ excused.filter (· < last)).Nodup := by
      refine List.nodup_append'.mpr ⟨once,distinct.filter _,?_⟩
      intro number here there
      exact (apart number here).2.1 (List.mem_of_mem_filter there)
    have covered : acted ++ excused.filter (· < last) ⊆ List.range' 1 last := by
      intro number member
      rw [List.mem_range'_1]
      rcases List.mem_append.mp member with here | there
      · have positive := (apart number here).1
        have least := most number here
        omega
      · obtain ⟨member,less⟩ := List.mem_filter.mp there
        have least := positive number member
        have under : number < last := of_decide_eq_true less
        omega
    have fits := (List.subperm_of_subset separate covered).length_le
    rw [List.length_append,List.length_range',← List.countP_eq_length_filter] at fits
    omega

end

/-! ### Books -/

@[ext]
structure Ticket (κ : Type) where
  key : κ
  number : Nat
  deriving DecidableEq

inductive Mode where
  | idle
  | held
  | shut
  deriving DecidableEq

/-- A piece of work: its latest attempt, and how it stands. -/
structure Entry where
  latest : Nat
  mode : Mode

/-- The work there is, and all that was done about it so far. -/
structure Book (κ : Type) where
  entry : κ → Option Entry
  issued : List (Ticket κ)
  weighed : List (Ticket κ × Nat)
  acted : List (Ticket κ)
  settled : List (Ticket κ)
  excused : List (Ticket κ)

variable {κ : Type} [DecidableEq κ]

/-- The numbers of the tickets of one piece of work. -/
def numbers (tickets : List (Ticket κ)) (key : κ) : List Nat := (tickets.filter (fun ticket => ticket.key = key)).map Ticket.number

namespace Book

def empty : Book κ := ⟨fun _ => none,[],[],[],[],[]⟩

def excuses (book : Book κ) (key : κ) : Nat := (numbers book.excused key).length

/-- A ticket whose holder may act. -/
def Cleared (book : Book κ) (ticket : Ticket κ) : Prop :=
  ∃ ceiling, (ticket,ceiling) ∈ book.weighed ∧ ticket.number ≤ ceiling

end Book

/-- What becomes of a piece of work while nobody takes or settles it. -/
inductive Tends (cap : Nat) (unheard : Prop) : Option Entry → Option Entry → Prop
  | same (entry : Option Entry) : Tends cap unheard entry entry
  | withdrawn (entry : Entry) : Tends cap unheard (some entry) none
  | offered (fresh : unheard) : Tends cap unheard none (some ⟨0,.idle⟩)
  | rested {entry : Entry} {mode : Mode} (free : mode ≠ .held)
      (closed : mode = .shut → entry.mode = .shut ∨ cap ≤ entry.latest) :
      Tends cap unheard (some entry) (some ⟨entry.latest,mode⟩)

/-- One step: work that was never taken may be offered, any work withdrawn; a ticket is taken,
    weighed against what was excused by then, acted on once, and settled by its holder. -/
inductive Step (limit cap : Nat) : Book κ → Book κ → Prop
  | tend {book : Book κ} {entry : κ → Option Entry}
      (each : ∀ key, Tends cap (∀ ticket ∈ book.issued, ticket.key ≠ key) (book.entry key) (entry key)) :
      Step limit cap book { book with entry := entry }
  | take {book : Book κ} {key : κ} {entry : Entry} (is : book.entry key = some entry) :
      Step limit cap book { book with
        entry := Function.update book.entry key (some ⟨entry.latest + 1,.held⟩)
        issued := ⟨key,entry.latest + 1⟩ :: book.issued }
  | weigh {book : Book κ} {ticket : Ticket κ} {ceiling : Nat} (issued : ticket ∈ book.issued)
      (most : ceiling ≤ limit + book.excuses ticket.key)
      (whole : (book.entry ticket.key).isSome = true → ceiling = limit + book.excuses ticket.key) :
      Step limit cap book { book with weighed := (ticket,ceiling) :: book.weighed }
  | act {book : Book κ} {ticket : Ticket κ} (cleared : book.Cleared ticket) (first : ticket ∉ book.acted) :
      Step limit cap book { book with acted := ticket :: book.acted }
  | settle {book : Book κ} {ticket : Ticket κ} {mode : Mode} (held : book.entry ticket.key = some ⟨ticket.number,.held⟩)
      (free : mode ≠ .held) (closed : mode = .shut → ∃ ceiling, (ticket,ceiling) ∈ book.weighed ∧ ceiling ≤ ticket.number) :
      Step limit cap book { book with
        entry := Function.update book.entry ticket.key (some ⟨ticket.number,mode⟩)
        settled := ticket :: book.settled }
  | excuse {book : Book κ} {ticket : Ticket κ} {mode : Mode} (held : book.entry ticket.key = some ⟨ticket.number,.held⟩)
      (free : mode ≠ .held) (cleared : book.Cleared ticket) :
      Step limit cap book { book with
        entry := Function.update book.entry ticket.key (some ⟨ticket.number,mode⟩)
        settled := ticket :: book.settled
        excused := ticket :: book.excused }

/-! ### What every step keeps -/

/-- A ticket is issued once and settled once, what was cleared or closed could be, and a
    weight that was taken holds as long as its ticket does. -/
structure Sound (limit cap : Nat) (book : Book κ) : Prop where
  issuedOnce : book.issued.Nodup
  numbered : ∀ ticket ∈ book.issued, 0 < ticket.number ∧
    ∀ entry, book.entry ticket.key = some entry → ticket.number ≤ entry.latest
  holder : ∀ ticket, book.entry ticket.key = some ⟨ticket.number,.held⟩ → ticket ∈ book.issued ∧ ticket ∉ book.settled
  settledOnce : book.settled.Nodup
  settledIssued : ∀ ticket ∈ book.settled, ticket ∈ book.issued
  excusedOnce : book.excused.Nodup
  excusedSettled : ∀ ticket ∈ book.excused, ticket ∈ book.settled ∧ book.Cleared ticket
  actedOnce : book.acted.Nodup
  actedCleared : ∀ ticket ∈ book.acted, book.Cleared ticket
  weighedIssued : ∀ weight ∈ book.weighed, weight.1 ∈ book.issued
  weighedAfforded : ∀ weight ∈ book.weighed, weight.1.number ≤ weight.2 →
    weight.1.number ≤ limit + (numbers book.excused weight.1.key).countP (· < weight.1.number)
  weighedStands : ∀ weight ∈ book.weighed, book.entry weight.1.key = some ⟨weight.1.number,.held⟩ →
    weight.2 = limit + book.excuses weight.1.key
  shut : ∀ ticket, book.entry ticket.key = some ⟨ticket.number,.shut⟩ →
    ticket ∈ book.excused ∨ limit + book.excuses ticket.key ≤ ticket.number ∨ cap ≤ ticket.number

section
variable {limit cap : Nat} {book next : Book κ}

theorem mem_numbers {tickets : List (Ticket κ)} {key : κ} {number : Nat} :
    number ∈ numbers tickets key ↔ ⟨key,number⟩ ∈ tickets := by
  unfold numbers
  rw [List.mem_map]
  constructor
  · rintro ⟨⟨other,_⟩,member,rfl⟩
    obtain ⟨inside,same⟩ := List.mem_filter.mp member
    rw [← of_decide_eq_true same]
    exact inside
  · intro member
    exact ⟨⟨key,number⟩,List.mem_filter.mpr ⟨member,decide_eq_true rfl⟩,rfl⟩

theorem numbers_nodup {tickets : List (Ticket κ)} (distinct : tickets.Nodup) (key : κ) : (numbers tickets key).Nodup := by
  refine List.Nodup.map_on ?_ (distinct.filter _)
  rintro ⟨one,number⟩ first ⟨other,_⟩ second rfl
  have here : one = key := of_decide_eq_true (List.mem_filter.mp first).2
  have there : other = key := of_decide_eq_true (List.mem_filter.mp second).2
  rw [here,there]

theorem numbers_cons (ticket : Ticket κ) (tickets : List (Ticket κ)) (key : κ) :
    numbers (ticket :: tickets) key = if ticket.key = key then ticket.number :: numbers tickets key else numbers tickets key := by
  unfold numbers
  rw [List.filter_cons]
  split_ifs with chosen mine mine
  · rfl
  · exact absurd (of_decide_eq_true chosen) mine
  · exact absurd (decide_eq_true mine) chosen
  · rfl

theorem Sound.empty : Sound limit cap (.empty : Book κ) := by
  constructor <;> simp [Book.empty]

/-- What a change of the entries has to respect. -/
structure Turned (cap : Nat) (book : Book κ) (entry : κ → Option Entry) : Prop where
  latest : ∀ ticket ∈ book.issued, ∀ later, entry ticket.key = some later →
    ∃ earlier, book.entry ticket.key = some earlier ∧ earlier.latest ≤ later.latest
  holder : ∀ ticket : Ticket κ, entry ticket.key = some ⟨ticket.number,.held⟩ →
    book.entry ticket.key = some ⟨ticket.number,.held⟩
  shut : ∀ ticket : Ticket κ, entry ticket.key = some ⟨ticket.number,.shut⟩ →
    book.entry ticket.key = some ⟨ticket.number,.shut⟩ ∨ cap ≤ ticket.number

theorem Sound.turned (sound : Sound limit cap book) {entry : κ → Option Entry} (turned : Turned cap book entry) :
    Sound limit cap { book with entry := entry } where
  issuedOnce := sound.issuedOnce
  numbered := by
    intro ticket member
    obtain ⟨positive,most⟩ := sound.numbered ticket member
    refine ⟨positive,fun later is => ?_⟩
    obtain ⟨earlier,was,onward⟩ := turned.latest ticket member later is
    exact (most earlier was).trans onward
  holder := fun ticket is => sound.holder ticket (turned.holder ticket is)
  settledOnce := sound.settledOnce
  settledIssued := sound.settledIssued
  excusedOnce := sound.excusedOnce
  excusedSettled := sound.excusedSettled
  actedOnce := sound.actedOnce
  actedCleared := sound.actedCleared
  weighedIssued := sound.weighedIssued
  weighedAfforded := sound.weighedAfforded
  weighedStands := fun weight member is => sound.weighedStands weight member (turned.holder weight.1 is)
  shut := by
    intro ticket is
    rcases turned.shut ticket is with was | capped
    · exact sound.shut ticket was
    · exact .inr (.inr capped)

/-- Where an entry comes from that nobody took or settled. -/
theorem Tends.cases_some {unheard : Prop} {before : Option Entry} {after : Entry} (tends : Tends cap unheard before (some after)) :
    before = some after ∨ (unheard ∧ after = ⟨0,.idle⟩) ∨ ∃ entry, before = some entry ∧ after.latest = entry.latest ∧
      after.mode ≠ .held ∧ (after.mode = .shut → entry.mode = .shut ∨ cap ≤ entry.latest) := by
  cases tends with
  | same => exact .inl rfl
  | offered fresh => exact .inr (.inl ⟨fresh,rfl⟩)
  | rested free closed => exact .inr (.inr ⟨_,rfl,rfl,free,closed⟩)

omit [DecidableEq κ] in
theorem turned_of_tends {entry : κ → Option Entry}
    (each : ∀ key, Tends cap (∀ ticket ∈ book.issued, ticket.key ≠ key) (book.entry key) (entry key)) :
    Turned cap book entry := by
  constructor
  · intro ticket member later is
    have tends := each ticket.key
    rw [is] at tends
    rcases tends.cases_some with same | ⟨fresh,-⟩ | ⟨earlier,was,latest,-⟩
    · exact ⟨later,same,Nat.le_refl _⟩
    · exact absurd rfl (fresh ticket member)
    · exact ⟨earlier,was,by rw [latest]⟩
  · intro ticket is
    have tends := each ticket.key
    rw [is] at tends
    rcases tends.cases_some with same | ⟨-,new⟩ | ⟨-,-,-,free,-⟩
    · exact same
    · exact absurd (congrArg Entry.mode new) nofun
    · exact absurd rfl free
  · intro ticket is
    have tends := each ticket.key
    rw [is] at tends
    rcases tends.cases_some with same | ⟨-,new⟩ | ⟨earlier,was,latest,-,closed⟩
    · exact .inl same
    · exact absurd (congrArg Entry.mode new) nofun
    · rcases closed rfl with before | capped
      · have whole : earlier = ⟨ticket.number,.shut⟩ := by
          rcases earlier with ⟨number,mode⟩
          rw [show ticket.number = number from latest,show mode = .shut from before]
        exact .inl (by rw [was,whole])
      · exact .inr (capped.trans_eq latest.symm)

theorem Sound.take (sound : Sound limit cap book) {key : κ} {entry : Entry} (is : book.entry key = some entry) :
    Sound limit cap { book with
      entry := Function.update book.entry key (some ⟨entry.latest + 1,.held⟩)
      issued := ⟨key,entry.latest + 1⟩ :: book.issued } := by
  have fresh : (⟨key,entry.latest + 1⟩ : Ticket κ) ∉ book.issued := by
    intro member
    have most := (sound.numbered _ member).2 entry is
    simp only at most
    omega
  -- of the key the latest attempt is a new one, and of the others nothing is new
  have others : ∀ ticket : Ticket κ, ticket ≠ ⟨key,entry.latest + 1⟩ → ∀ mode,
      Function.update book.entry key (some ⟨entry.latest + 1,.held⟩) ticket.key = some ⟨ticket.number,mode⟩ →
        book.entry ticket.key = some ⟨ticket.number,mode⟩ := by
    intro ticket differs mode is
    by_cases mine : ticket.key = key
    · rw [mine,Function.update_self] at is
      have latest : ticket.number = entry.latest + 1 := (congrArg Entry.latest (Option.some.inj is)).symm
      exact absurd (by rw [← mine,← latest]) differs
    · rwa [Function.update_of_ne mine] at is
  constructor
  · exact List.nodup_cons.mpr ⟨fresh,sound.issuedOnce⟩
  · intro ticket member
    rcases List.mem_cons.mp member with rfl | earlier
    · refine ⟨Nat.succ_pos _,fun later after => ?_⟩
      change Function.update _ key _ key = _ at after
      rw [Function.update_self] at after
      cases after
      exact Nat.le_refl _
    · obtain ⟨positive,most⟩ := sound.numbered ticket earlier
      refine ⟨positive,fun later after => ?_⟩
      change Function.update _ key _ ticket.key = _ at after
      by_cases mine : ticket.key = key
      · rw [mine,Function.update_self] at after
        cases after
        have bound := most entry (by rw [mine]; exact is)
        exact Nat.le_succ_of_le bound
      · rw [Function.update_of_ne mine] at after
        exact most later after
  · intro ticket held
    by_cases new : ticket = ⟨key,entry.latest + 1⟩
    · rw [new]
      exact ⟨List.mem_cons_self,fun settled => fresh (sound.settledIssued _ settled)⟩
    · obtain ⟨issued,open'⟩ := sound.holder ticket (others ticket new _ held)
      exact ⟨List.mem_cons_of_mem _ issued,open'⟩
  · exact sound.settledOnce
  · exact fun ticket member => List.mem_cons_of_mem _ (sound.settledIssued ticket member)
  · exact sound.excusedOnce
  · exact sound.excusedSettled
  · exact sound.actedOnce
  · exact sound.actedCleared
  · exact fun weight member => List.mem_cons_of_mem _ (sound.weighedIssued weight member)
  · exact sound.weighedAfforded
  · intro weight member held
    have old : weight.1 ≠ ⟨key,entry.latest + 1⟩ := by
      intro same
      have issued := sound.weighedIssued weight member
      rw [same] at issued
      exact fresh issued
    exact sound.weighedStands weight member (others weight.1 old _ held)
  · intro ticket is
    refine sound.shut ticket (others ticket ?_ _ is)
    rintro rfl
    change Function.update _ key _ key = _ at is
    rw [Function.update_self] at is
    cases is

/-- What was excused of one piece of work was afforded. -/
theorem Sound.excuses_afforded (sound : Sound limit cap book) (key : κ) :
    ∀ number ∈ numbers book.excused key, 0 < number ∧ number ≤ limit + (numbers book.excused key).countP (· < number) := by
  intro number member
  obtain ⟨settled,ceiling,weighed,within⟩ := sound.excusedSettled _ (mem_numbers.mp member)
  exact ⟨(sound.numbered _ (sound.settledIssued _ settled)).1,sound.weighedAfforded _ weighed within⟩

theorem Sound.weigh (sound : Sound limit cap book) {ticket : Ticket κ} {ceiling : Nat} (issued : ticket ∈ book.issued)
    (most : ceiling ≤ limit + book.excuses ticket.key)
    (whole : (book.entry ticket.key).isSome = true → ceiling = limit + book.excuses ticket.key) :
    Sound limit cap { book with weighed := (ticket,ceiling) :: book.weighed } where
  issuedOnce := sound.issuedOnce
  numbered := sound.numbered
  holder := sound.holder
  settledOnce := sound.settledOnce
  settledIssued := sound.settledIssued
  excusedOnce := sound.excusedOnce
  excusedSettled := fun other member => by
    obtain ⟨settled,bound,weighed,within⟩ := sound.excusedSettled other member
    exact ⟨settled,bound,List.mem_cons_of_mem _ weighed,within⟩
  actedOnce := sound.actedOnce
  actedCleared := fun other member => by
    obtain ⟨bound,weighed,within⟩ := sound.actedCleared other member
    exact ⟨bound,List.mem_cons_of_mem _ weighed,within⟩
  weighedIssued := by
    intro weight member
    rcases List.mem_cons.mp member with rfl | earlier
    · exact issued
    · exact sound.weighedIssued weight earlier
  weighedAfforded := by
    intro weight member within
    rcases List.mem_cons.mp member with rfl | earlier
    · exact afforded (numbers_nodup sound.excusedOnce _) (fun other there => (sound.excuses_afforded _ other there).2)
        (within.trans most)
    · exact sound.weighedAfforded weight earlier within
  weighedStands := by
    intro weight member held
    rcases List.mem_cons.mp member with rfl | earlier
    · exact whole (by rw [held]; rfl)
    · exact sound.weighedStands weight earlier held
  shut := sound.shut

theorem Sound.act (sound : Sound limit cap book) {ticket : Ticket κ} (cleared : book.Cleared ticket)
    (first : ticket ∉ book.acted) : Sound limit cap { book with acted := ticket :: book.acted } :=
  { sound with
    actedOnce := List.nodup_cons.mpr ⟨first,sound.actedOnce⟩
    actedCleared := fun other member => by
      rcases List.mem_cons.mp member with rfl | earlier
      · exact cleared
      · exact sound.actedCleared other earlier }

/-- What is excused once a ticket is let go: what was, or the ticket too. -/
def Excuses (book : Book κ) (ticket : Ticket κ) (excused : List (Ticket κ)) : Prop :=
  excused = book.excused ∨ (excused = ticket :: book.excused ∧ book.Cleared ticket)

section
variable {ticket : Ticket κ} {mode : Mode} {excused : List (Ticket κ)}

omit [DecidableEq κ] in
theorem Excuses.still (excuse : Excuses book ticket excused) {other : Ticket κ} (member : other ∈ book.excused) :
    other ∈ excused := by
  rcases excuse with rfl | ⟨rfl,-⟩
  · exact member
  · exact List.mem_cons_of_mem _ member

/-- Of the other pieces of work nothing more is excused, -/
theorem Excuses.apart (excuse : Excuses book ticket excused) {key : κ} (differs : key ≠ ticket.key) :
    numbers excused key = numbers book.excused key := by
  rcases excuse with rfl | ⟨rfl,-⟩
  · rfl
  · rw [numbers_cons,if_neg (fun same => differs same.symm)]

/-- and of none less. -/
theorem Excuses.countP_le (excuse : Excuses book ticket excused) (key : κ) (number : Nat) :
    (numbers book.excused key).countP (· < number) ≤ (numbers excused key).countP (· < number) := by
  rcases excuse with rfl | ⟨rfl,-⟩
  · exact Nat.le_refl _
  · rw [numbers_cons]
    split_ifs
    · rw [List.countP_cons]
      exact Nat.le_add_right _ _
    · exact Nat.le_refl _

/-- Nobody holds a ticket of the work that was let go. -/
theorem unheld_update {entry : κ → Option Entry} (free : mode ≠ .held) {other : Ticket κ}
    (is : Function.update entry ticket.key (some ⟨ticket.number,mode⟩) other.key = some ⟨other.number,.held⟩) :
    other.key ≠ ticket.key ∧ entry other.key = some ⟨other.number,.held⟩ := by
  by_cases mine : other.key = ticket.key
  · rw [mine,Function.update_self] at is
    exact absurd (congrArg Entry.mode (Option.some.inj is)) free
  · rw [Function.update_of_ne mine] at is
    exact ⟨mine,is⟩

theorem Sound.excused_settled (sound : Sound limit cap book) (excuse : Excuses book ticket excused) {other : Ticket κ}
    (member : other ∈ excused) : other ∈ ticket :: book.settled ∧ book.Cleared other := by
  have known : other ∈ book.excused → other ∈ ticket :: book.settled ∧ book.Cleared other := fun earlier =>
    ⟨List.mem_cons_of_mem _ (sound.excusedSettled other earlier).1,(sound.excusedSettled other earlier).2⟩
  rcases excuse with rfl | ⟨rfl,cleared⟩
  · exact known member
  · rcases List.mem_cons.mp member with rfl | earlier
    · exact ⟨List.mem_cons_self,cleared⟩
    · exact known earlier

/-- Work that is let go is shut for a reason. -/
theorem Sound.shut_settled (sound : Sound limit cap book) (held : book.entry ticket.key = some ⟨ticket.number,.held⟩)
    (excuse : Excuses book ticket excused)
    (closed : mode = .shut → ticket ∈ excused ∨ ∃ ceiling, (ticket,ceiling) ∈ book.weighed ∧ ceiling ≤ ticket.number)
    {other : Ticket κ}
    (is : Function.update book.entry ticket.key (some ⟨ticket.number,mode⟩) other.key = some ⟨other.number,.shut⟩) :
    other ∈ excused ∨ limit + (numbers excused other.key).length ≤ other.number ∨ cap ≤ other.number := by
  by_cases mine : other.key = ticket.key
  · rw [mine,Function.update_self] at is
    have same : other = ticket := Ticket.ext mine (congrArg Entry.latest (Option.some.inj is)).symm
    subst same
    rcases closed (congrArg Entry.mode (Option.some.inj is)) with member | ⟨ceiling,weighed,within⟩
    · exact .inl member
    · have stands : ceiling = limit + (numbers book.excused other.key).length := sound.weighedStands _ weighed held
      rcases excuse with rfl | ⟨rfl,-⟩
      · exact .inr (.inl (stands ▸ within))
      · exact .inl List.mem_cons_self
  · rw [Function.update_of_ne mine] at is
    rcases sound.shut other is with member | spent | capped
    · exact .inl (excuse.still member)
    · rw [excuse.apart mine]
      exact .inr (.inl spent)
    · exact .inr (.inr capped)

/-- The holder of a ticket lets it go; it may be excused for it. -/
theorem Sound.settle (sound : Sound limit cap book) (held : book.entry ticket.key = some ⟨ticket.number,.held⟩)
    (free : mode ≠ .held) (excuse : Excuses book ticket excused)
    (closed : mode = .shut → ticket ∈ excused ∨ ∃ ceiling, (ticket,ceiling) ∈ book.weighed ∧ ceiling ≤ ticket.number) :
    Sound limit cap { book with
      entry := Function.update book.entry ticket.key (some ⟨ticket.number,mode⟩)
      settled := ticket :: book.settled
      excused := excused } := by
  obtain ⟨issued,open'⟩ := sound.holder ticket held
  have unexcused : ticket ∉ book.excused := fun member => open' (sound.excusedSettled ticket member).1
  constructor
  · exact sound.issuedOnce
  · intro other member
    obtain ⟨positive,most⟩ := sound.numbered other member
    refine ⟨positive,fun later after => ?_⟩
    change Function.update _ ticket.key _ other.key = _ at after
    by_cases mine : other.key = ticket.key
    · rw [mine,Function.update_self] at after
      cases after
      exact most ⟨ticket.number,.held⟩ (by rw [mine]; exact held)
    · rw [Function.update_of_ne mine] at after
      exact most later after
  · intro other is
    obtain ⟨differs,was⟩ := unheld_update free is
    obtain ⟨known,unsettled⟩ := sound.holder other was
    refine ⟨known,fun member => ?_⟩
    rcases List.mem_cons.mp member with rfl | earlier
    · exact differs rfl
    · exact unsettled earlier
  · exact List.nodup_cons.mpr ⟨open',sound.settledOnce⟩
  · intro other member
    rcases List.mem_cons.mp member with rfl | earlier
    · exact issued
    · exact sound.settledIssued other earlier
  · rcases excuse with rfl | ⟨rfl,-⟩
    · exact sound.excusedOnce
    · exact List.nodup_cons.mpr ⟨unexcused,sound.excusedOnce⟩
  · exact fun other member => sound.excused_settled excuse member
  · exact sound.actedOnce
  · exact sound.actedCleared
  · exact sound.weighedIssued
  · intro weight member within
    exact (sound.weighedAfforded weight member within).trans (Nat.add_le_add_left (excuse.countP_le _ _) _)
  · intro weight member is
    obtain ⟨differs,was⟩ := unheld_update free is
    have stands := sound.weighedStands weight member was
    unfold Book.excuses at stands ⊢
    rw [stands,excuse.apart differs]
  · exact fun other is => sound.shut_settled held excuse closed is

end

/-- Step rule. -/
theorem Sound.step (sound : Sound limit cap book) (step : Step limit cap book next) : Sound limit cap next := by
  cases step with
  | tend each => exact sound.turned (turned_of_tends each)
  | take is => exact sound.take is
  | weigh issued most whole => exact sound.weigh issued most whole
  | act cleared first => exact sound.act cleared first
  | settle held free closed => exact sound.settle held free (.inl rfl) (fun shut => .inr (closed shut))
  | excuse held free cleared => exact sound.settle held free (.inr ⟨rfl,cleared⟩) (fun _ => .inl List.mem_cons_self)

/-! ### The budget -/

/-- Of the acts on one piece of work no more count than the limit. -/
theorem Sound.acted_le (sound : Sound limit cap book) (key : κ) :
    (book.acted.filter (fun acted => acted.key = key ∧ acted ∉ book.excused)).length ≤ limit := by
  have counted : (numbers (book.acted.filter (fun acted => acted ∉ book.excused)) key).length ≤ limit := by
    refine length_le_limit (numbers_nodup sound.excusedOnce key) (fun number member => (sound.excuses_afforded key number member).1)
      (numbers_nodup (sound.actedOnce.filter _) key) ?_
    intro number member
    obtain ⟨acted,counts⟩ := List.mem_filter.mp (mem_numbers.mp member)
    obtain ⟨ceiling,weighed,within⟩ := sound.actedCleared _ acted
    refine ⟨(sound.numbered _ (sound.weighedIssued _ weighed)).1,fun excused => ?_,sound.weighedAfforded _ weighed within⟩
    exact of_decide_eq_true counts (mem_numbers.mp excused)
  unfold numbers at counted
  rw [List.length_map,List.filter_filter] at counted
  simpa only [Bool.decide_and] using counted

end

end Lib.Attempts
