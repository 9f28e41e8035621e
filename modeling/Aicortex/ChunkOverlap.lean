import Aicortex.ChunkCover
import Mathlib.Logic.Relation

/-!
How far neighbouring chunks overlap and how far each goes past the one before it. Both
are decided at each turn of the loop by the width of one character: the first of the
chunk just cut, and the one at its end. What the sentences and characters of the body
promise of every character holds of those the loop starts at.
-/

namespace Aicortex.Chunking
open Aicortex.Text Lib.Offsets
set_option linter.unusedSimpArgs false

/-! ### Turns of the loop -/

/-- The loop with a chunk behind it: the span of that chunk and the start of the next. -/
structure Turn where
  before : Nat × Nat
  start : Nat

section
variable (config : ChunkConfig) (body : String)
attribute [local irreducible] chunkEnd nextStart

/-- What the loop has cut and where it starts when it has cut from a start, after an end. -/
def turnFrom (start previousEnd : Nat) : Turn :=
  let stop := chunkEnd config body (sentenceBoundaries body) start previousEnd
  ⟨(start,stop),nextStart config body (sentenceBoundaries body) start stop⟩

@[simp] theorem turnFrom_first (start previousEnd : Nat) : (turnFrom config body start previousEnd).before.1 = start := rfl

theorem turnFrom_end (start previousEnd : Nat) : (turnFrom config body start previousEnd).before.2 =
    chunkEnd config body (sentenceBoundaries body) start previousEnd := rfl

theorem turnFrom_start (start previousEnd : Nat) : (turnFrom config body start previousEnd).start =
    nextStart config body (sentenceBoundaries body) start (turnFrom config body start previousEnd).before.2 := rfl

/-- The turn after a turn, whether or not the loop goes on to it. -/
def Turn.next (turn : Turn) : Turn := turnFrom config body turn.start turn.before.2

/-- The loop goes on to a later turn: the chunk in between does not end the body. -/
def Turn.Leads (turn later : Turn) : Prop :=
  (turn.next config body).before.2 < byteLen body ∧ later = turn.next config body

/-- The loop arrives at the turn. -/
def Visited (turn : Turn) : Prop := Relation.ReflTransGen (Turn.Leads config body) (turnFrom config body 0 0) turn

/-- The chunk cut is longer than its first character by the overlap. -/
def Turn.Spare (turn : Turn) : Prop := ∃ next, IsNext body turn.before.1 next ∧ next + config.overlapBytes ≤ turn.before.2

/-- The next chunk starts where the chunk cut ends, or has room for the character there. -/
def Turn.Room (turn : Turn) : Prop :=
  turn.start = turn.before.2 ∨ ∃ beyond, IsNext body turn.before.2 beyond ∧ beyond ≤ turn.start + config.targetBytes

end

/-- Two chunks share so many bytes. -/
def Shares (overlap : Nat) (chunk later : Chunk) : Prop := later.byteStart + overlap ≤ chunk.byteEnd

/-- A chunk goes past the one before it. -/
def Advances (chunk later : Chunk) : Prop := chunk.byteEnd < later.byteEnd

section
variable {config : ChunkConfig} {body : String}
attribute [local irreducible] chunkEnd nextStart

/-- A relation holds along the spans that are laid exactly if it holds at each turn that
    the loop arrives at, between the chunk cut and the one it cuts then. -/
theorem Laid.chain_iff {start previousEnd first : Nat} {spans : List (Nat × Nat)} (laid : Laid config body start previousEnd spans)
    (related : Nat × Nat → Nat × Nat → Prop) :
    ((first,previousEnd) :: spans).IsChain related ↔
      ∀ turn, Relation.ReflTransGen (Turn.Leads config body) ⟨(first,previousEnd),start⟩ turn →
        related turn.before (turn.next config body).before := by
  induction laid generalizing first with
  | @last start previousEnd follows ends =>
    have cut : (Turn.next config body ⟨(first,previousEnd),start⟩).before = (start,byteLen body) := Prod.ext rfl ends
    rw [List.isChain_pair]
    constructor
    · intro here turn reached
      rcases Relation.ReflTransGen.cases_head reached with rfl | ⟨later,⟨more,-⟩,-⟩
      · rwa [cut]
      · rw [cut] at more
        exact absurd more (Nat.lt_irrefl _)
    · intro every
      have here := every _ .refl
      rwa [cut] at here
  | @more start previousEnd stop rest follows stopIs laid ih =>
    have cut : (Turn.next config body ⟨(first,previousEnd),start⟩).before = (start,stop) := Prod.ext rfl stopIs
    have onward : Turn.next config body ⟨(first,previousEnd),start⟩ =
        ⟨(start,stop),nextStart config body (sentenceBoundaries body) start stop⟩ := by
      rw [← stopIs]
      rfl
    rw [List.isChain_cons_cons,ih]
    constructor
    · rintro ⟨here,later⟩ turn reached
      rcases Relation.ReflTransGen.cases_head reached with rfl | ⟨middle,⟨-,rfl⟩,reached⟩
      · rwa [cut]
      · rw [onward] at reached
        exact later turn reached
    · intro every
      refine ⟨?_,fun turn reached => every turn (.head ⟨?_,onward.symm⟩ reached)⟩
      · have here := every _ .refl
        rwa [cut] at here
      · rw [cut]
        exact laid.follows.inside

theorem Follows.turn {start previousEnd : Nat} (follows : Follows config body start previousEnd)
    (more : (turnFrom config body start previousEnd).before.2 < byteLen body) :
    Follows config body (turnFrom config body start previousEnd).start (turnFrom config body start previousEnd).before.2 := by
  rw [turnFrom_end] at more
  rw [turnFrom_start,turnFrom_end]
  exact follows.step more

/-- At every turn the next chunk follows the one cut, which was cut out of the body. -/
theorem Visited.follows {turn : Turn} (visited : Visited config body turn) (more : (turnFrom config body 0 0).before.2 < byteLen body) :
    ∃ earlier, Follows config body turn.before.1 earlier ∧ turn = turnFrom config body turn.before.1 earlier ∧
      Follows config body turn.start turn.before.2 := by
  induction visited with
  | refl =>
    have first : Follows config body 0 0 := .first (Nat.zero_lt_of_lt more)
    refine ⟨0,?_,?_,first.turn more⟩
    · rwa [turnFrom_first]
    · rw [turnFrom_first]
  | @tail turn later visited leads ih =>
    obtain ⟨-,-,-,follows⟩ := ih
    obtain ⟨onward,rfl⟩ := leads
    refine ⟨turn.before.2,?_,?_,follows.turn onward⟩
    · rwa [Turn.next,turnFrom_first]
    · rw [Turn.next,turnFrom_first]

/-- At a turn the chunks share the overlap exactly if there is that much to spare. -/
theorem Visited.shares_iff {turn : Turn} (visited : Visited config body turn)
    (more : (turnFrom config body 0 0).before.2 < byteLen body) :
    turn.start + config.overlapBytes ≤ turn.before.2 ↔ turn.Spare config body := by
  obtain ⟨earlier,follows,turned,-⟩ := visited.follows more
  have inside : turn.before.1 < byteLen body := follows.meets.trans_lt follows.inside
  obtain ⟨next,ahead⟩ := exists_next follows.startCut inside
  obtain ⟨stopCut,past,-⟩ := chunkEnd_spec config earlier follows.startCut inside ahead
  obtain ⟨-,-,spare⟩ := nextStart_spec config follows.startCut stopCut past ahead
  have stopIs : chunkEnd config body (sentenceBoundaries body) turn.before.1 earlier = turn.before.2 :=
    (congrArg (fun turn : Turn => turn.before.2) turned).symm
  have startIs : nextStart config body (sentenceBoundaries body) turn.before.1
      (chunkEnd config body (sentenceBoundaries body) turn.before.1 earlier) = turn.start :=
    (congrArg Turn.start turned).symm
  rw [startIs,stopIs] at spare
  rw [spare]
  constructor
  · exact fun fits => ⟨next,ahead,fits⟩
  · rintro ⟨other,least,fits⟩
    rwa [ahead.unique least]

/-- At a turn the next chunk goes past the one cut exactly if it has room. -/
theorem Visited.advances_iff {turn : Turn} (visited : Visited config body turn)
    (more : (turnFrom config body 0 0).before.2 < byteLen body) :
    turn.before.2 < (turn.next config body).before.2 ↔ turn.Room config body := by
  obtain ⟨-,-,-,follows⟩ := visited.follows more
  obtain ⟨beyond,room⟩ := exists_next follows.endCut follows.inside
  rw [show (turn.next config body).before.2 = chunkEnd config body (sentenceBoundaries body) turn.start turn.before.2 from rfl,
    (follows.chunkEnd_ge room).2,Turn.Room]
  constructor
  · exact Or.imp_right fun fits => ⟨beyond,room,fits⟩
  · rintro (same | ⟨other,least,fits⟩)
    · exact .inl same
    · exact .inr (by rwa [room.unique least])

/-! ### Neighbours in a split -/

/-- A relation holds between the neighbours of a split into several chunks exactly if it
    holds at each turn of the loop, between the chunk cut and the one it cuts then. -/
theorem split_chain_iff {chunks : List Chunk} (executed : split config body = .ok chunks) (several : 1 < chunks.length)
    (related : Nat × Nat → Nat × Nat → Prop) :
    (turnFrom config body 0 0).before.2 < byteLen body ∧
      (chunks.IsChain (fun chunk later => related (chunk.byteStart,chunk.byteEnd) (later.byteStart,later.byteEnd)) ↔
        ∀ turn, Visited config body turn → related turn.before (turn.next config body).before) := by
  by_cases full : body.toList = []
  · rw [split,if_pos full] at executed
    cases executed
    simp at several
  by_cases long : config.thresholdBytes < byteLen body
  · rw [split_eq full long] at executed
    split_ifs at executed
    obtain rfl := Except.ok.inj executed
    have laid := spans_laid config full
    rw [chunksFrom_length] at several
    have chained := (List.isChain_map (R := related) (fun chunk : Chunk => (chunk.byteStart,chunk.byteEnd))
      (l := chunksFrom body 0 (spans config body))).symm
    rw [chunksFrom_spans] at chained
    rw [chained]
    generalize spans config body = list at laid several
    cases laid with
    | last => simp at several
    | more follows stopIs laid =>
      subst stopIs
      exact ⟨laid.follows.inside,laid.chain_iff related⟩
  · rw [split,if_neg full,if_pos (not_lt.mp long)] at executed
    cases executed
    simp at several

/-- Neighbouring chunks share the overlap and each goes past the one before it, exactly
    if at each turn of the loop the chunk cut is longer than its first character by the
    overlap and the next has room for the character at its end. -/
theorem shares_advances_iff {chunks : List Chunk} (executed : split config body = .ok chunks) (several : 1 < chunks.length) :
    chunks.IsChain (Shares config.overlapBytes) ∧ chunks.IsChain Advances ↔
      ∀ turn, Visited config body turn → turn.Spare config body ∧ turn.Room config body := by
  obtain ⟨more,shares⟩ := split_chain_iff executed several fun span later => later.1 + config.overlapBytes ≤ span.2
  obtain ⟨-,advances⟩ := split_chain_iff executed several fun span later => span.2 < later.2
  have spare : chunks.IsChain (Shares config.overlapBytes) ↔ ∀ turn, Visited config body turn → turn.Spare config body :=
    shares.trans (forall₂_congr fun turn visited => visited.shares_iff more)
  have room : chunks.IsChain Advances ↔ ∀ turn, Visited config body turn → turn.Room config body :=
    advances.trans (forall₂_congr fun turn visited => visited.advances_iff more)
  rw [spare,room,← forall₂_and]

end

/-! ### What the body can promise -/

/-- A chunk that starts with this character can end and leave its successor enough,
    whatever came before it. The last sentence boundary within the target, if it is past
    the overlap, leaves the overlap after the character. Where the body goes on past the
    target, so does a character boundary within it; and the character at the last of these
    ends within the target of the sentence boundary that the next chunk would start at, or
    of a character boundary, if there is none that leaves the overlap. -/
structure Fits (config : ChunkConfig) (body : String) (start next : Nat) : Prop where
  sentence : ∀ stop ∈ sentenceBoundaries body, start + config.overlapBytes < stop → stop ≤ start + config.targetBytes →
    (∀ later ∈ sentenceBoundaries body, later ≤ start + config.targetBytes → later ≤ stop) →
    next + config.overlapBytes ≤ stop
  target : start + config.targetBytes < byteLen body →
    ∃ cut, Boundary body cut ∧ cut ≤ start + config.targetBytes ∧ next + config.overlapBytes ≤ cut
  room : start + config.targetBytes < byteLen body → ∀ stop beyond,
    IsGreatest {cut | Boundary body cut ∧ cut ≤ start + config.targetBytes} stop → IsNext body stop beyond →
    (∃ sentence ∈ sentenceBoundaries body, start < sentence ∧ sentence + config.overlapBytes ≤ stop ∧
      beyond ≤ sentence + config.targetBytes) ∨
    (∀ sentence ∈ sentenceBoundaries body, start < sentence → stop < sentence + config.overlapBytes) ∧
      ∃ cut, Boundary body cut ∧ cut + config.overlapBytes ≤ stop ∧ beyond ≤ cut + config.targetBytes

section
variable {config : ChunkConfig} {body : String} {start previousEnd next stop : Nat}

/-- A chunk that does not end the body ends at the last sentence boundary within its
    target, past the overlap, or at the last character boundary there. -/
theorem Fits.chunkEnd_cases (fits : Fits config body start next) (startCut : Boundary body start)
    (ahead : IsNext body start next)
    (stopIs : chunkEnd config body (sentenceBoundaries body) start previousEnd = stop) (more : stop < byteLen body) :
    (stop ∈ sentenceBoundaries body ∧ start + config.overlapBytes < stop ∧ stop ≤ start + config.targetBytes ∧
      ∀ later ∈ sentenceBoundaries body, later ≤ start + config.targetBytes → later ≤ stop) ∨
    start + config.targetBytes < byteLen body ∧
      IsGreatest {cut | Boundary body cut ∧ cut ≤ start + config.targetBytes} stop := by
  have floor := utf8Floor_isGreatest body (aim config body start)
  have sorted := sentenceBoundaries_sorted body
  have inside : start < byteLen body := ahead.1.2.trans_le (Cut.le_total ahead.1.1)
  -- the floor of the aim is past the start, so the chunk ends where it is proposed to
  have floorPast : start < utf8Floor body (aim config body start) := by
    by_cases long : start + config.targetBytes < byteLen body
    · obtain ⟨cut,cutIn,near,leaves⟩ := fits.target long
      have reached := floor.2 ⟨cutIn,le_aim cutIn near⟩
      have past := ahead.1.2
      omega
    · have whole := floor.2 ⟨.whole body,le_aim (.whole body) (not_lt.mp long)⟩
      omega
  have floored : utf8Floor body (aim config body start) = stop → start + config.targetBytes < byteLen body ∧
      IsGreatest {cut | Boundary body cut ∧ cut ≤ start + config.targetBytes} stop := by
    intro same
    have long : start + config.targetBytes < byteLen body := by
      by_contra short
      have whole := floor.2 ⟨.whole body,le_aim (.whole body) (not_lt.mp short)⟩
      omega
    refine ⟨long,⟨same ▸ floor.1.1,same ▸ floor.1.2.trans aim_le⟩,fun cut within => ?_⟩
    exact same ▸ floor.2 ⟨within.1,le_aim within.1 within.2⟩
  rw [chunkEnd_eq_advance,advance_eq startCut ahead (.whole body) inside] at stopIs
  rcases @proposedEnd_cases config body start previousEnd (sentenceBoundaries body) with atFloor | ⟨found,leaves⟩
  · rw [atFloor,if_neg (not_le.mpr floorPast)] at stopIs
    exact .inr (floored stopIs)
  · obtain ⟨member,past,near⟩ := lastBoundary_some found
    rw [if_neg (not_le.mpr past)] at stopIs
    rw [stopIs] at found leaves member near
    refine .inl ⟨member,leaves more,near.trans aim_le,fun later laterIn within => ?_⟩
    exact lastBoundary_greatest sorted found later laterIn (le_aim (sentenceBoundaries_cut laterIn) within)

/-- The next chunk starts at or past any sentence boundary, or else any character
    boundary, of the chunk that leaves the overlap. -/
theorem nextStart_ge (startCut : Boundary body start) (ahead : IsNext body start next) (stopCut : Boundary body stop)
    (past : start < stop) :
    (∀ sentence ∈ sentenceBoundaries body, start < sentence → sentence + config.overlapBytes ≤ stop →
      sentence ≤ nextStart config body (sentenceBoundaries body) start stop) ∧
    ((∀ sentence ∈ sentenceBoundaries body, start < sentence → stop < sentence + config.overlapBytes) →
      ∀ cut, Boundary body cut → cut + config.overlapBytes ≤ stop →
        cut ≤ nextStart config body (sentenceBoundaries body) start stop) := by
  have floor := utf8Floor_isGreatest body (stop - config.overlapBytes)
  rw [nextStart,advance_eq startCut ahead stopCut past]
  cases found : lastBoundary (sentenceBoundaries body) start (stop - config.overlapBytes) with
  | some boundary =>
    obtain ⟨member,boundaryPast,near⟩ := lastBoundary_some found
    rw [Option.getD_some,if_neg (not_le.mpr boundaryPast)]
    constructor
    · intro sentence sentenceIn _ leaves
      exact lastBoundary_greatest (sentenceBoundaries_sorted body) found sentence sentenceIn (by omega)
    · intro none' cut _ leaves
      have := none' boundary member boundaryPast
      omega
  | none =>
    have beyond := lastBoundary_none found
    rw [Option.getD_none]
    constructor
    · intro sentence sentenceIn sentencePast leaves
      have := beyond sentence sentenceIn sentencePast
      omega
    · intro _ cut cutIn leaves
      have reached := floor.2 ⟨cutIn,by omega⟩
      have := ahead.1.2
      split_ifs <;> omega

/-- A chunk that starts with such a character shares the overlap with the next, which has
    room for the character at its end. -/
theorem Fits.turn (fits : Fits config body start next) (startCut : Boundary body start) (ahead : IsNext body start next)
    (stopIs : chunkEnd config body (sentenceBoundaries body) start previousEnd = stop) (more : stop < byteLen body) :
    next + config.overlapBytes ≤ stop ∧ ∀ beyond, IsNext body stop beyond →
      beyond ≤ nextStart config body (sentenceBoundaries body) start stop + config.targetBytes := by
  have inside : start < byteLen body := ahead.1.2.trans_le (Cut.le_total ahead.1.1)
  obtain ⟨stopCut,past,-⟩ := chunkEnd_spec config previousEnd startCut inside ahead
  rw [stopIs] at stopCut past
  have ends := fits.chunkEnd_cases startCut ahead stopIs more
  have spare : next + config.overlapBytes ≤ stop := by
    rcases ends with ⟨member,leaves,near,last⟩ | ⟨long,greatest⟩
    · exact fits.sentence stop member leaves near last
    · obtain ⟨cut,cutIn,near,leaves⟩ := fits.target long
      exact leaves.trans (greatest.2 ⟨cutIn,near⟩)
  refine ⟨spare,fun beyond room => ?_⟩
  have later := @lt_nextStart config body (sentenceBoundaries body) _ _ past
  by_cases within : beyond ≤ start + config.targetBytes
  · omega
  -- the character at the end is the one the target cuts or leaves out
  have near : stop ≤ start + config.targetBytes := by
    rcases ends with ⟨-,-,near,-⟩ | ⟨-,greatest⟩
    · exact near
    · exact greatest.1.2
  have long : start + config.targetBytes < byteLen body := (not_le.mp within).trans_le (Cut.le_total room.1.1)
  have greatest : IsGreatest {cut | Boundary body cut ∧ cut ≤ start + config.targetBytes} stop := by
    refine ⟨⟨stopCut,near⟩,fun cut below => ?_⟩
    by_contra further
    have := room.2 ⟨below.1,not_le.mp further⟩
    have := below.2
    omega
  obtain ⟨sentences,characters⟩ := @nextStart_ge config _ _ _ _ startCut ahead stopCut past
  rcases fits.room long stop beyond greatest room with ⟨sentence,member,sentencePast,leaves,reaches⟩ | ⟨none',cut,cutIn,leaves,reaches⟩
  · have := sentences sentence member sentencePast leaves
    omega
  · have := characters none' cut cutIn leaves
    omega

end

section
attribute [local irreducible] chunkEnd nextStart
variable {config : ChunkConfig} {body : String}

/-- Where every character fits there is at each turn the overlap to spare, and room. -/
theorem Visited.roomy {turn : Turn} (visited : Visited config body turn) (more : (turnFrom config body 0 0).before.2 < byteLen body)
    (fits : ∀ start next, Boundary body start → IsNext body start next → Fits config body start next) :
    turn.Spare config body ∧ turn.Room config body := by
  obtain ⟨earlier,follows,turned,onward⟩ := visited.follows more
  obtain ⟨next,ahead⟩ := exists_next follows.startCut (follows.meets.trans_lt follows.inside)
  have stopIs : chunkEnd config body (sentenceBoundaries body) turn.before.1 earlier = turn.before.2 :=
    (congrArg (fun turn : Turn => turn.before.2) turned).symm
  have startIs : nextStart config body (sentenceBoundaries body) turn.before.1 turn.before.2 = turn.start := by
    rw [← stopIs]
    exact (congrArg Turn.start turned).symm
  obtain ⟨spare,room⟩ := (fits _ _ follows.startCut ahead).turn follows.startCut ahead stopIs onward.inside
  obtain ⟨beyond,least⟩ := exists_next onward.endCut onward.inside
  rw [startIs] at room
  exact ⟨⟨next,ahead,spare⟩,.inr ⟨beyond,least,room beyond least⟩⟩

end

/-! ### Bodies of one-byte characters -/

section
attribute [local irreducible] chunkEnd nextStart
variable {config : ChunkConfig} {body : String} (narrow : ∀ c ∈ body.toList, c.utf8Size = 1)
include narrow

theorem narrow_boundary {offset : Nat} (inside : offset ≤ byteLen body) : Boundary body offset := by
  have lengths : ∀ part : List Char, (∀ c ∈ part, c.utf8Size = 1) → total Char.utf8Size part = part.length := by
    intro part each
    rw [total,List.map_congr_left each]
    simp
  have counted : byteLen body = body.toList.length := lengths _ narrow
  refine ⟨body.toList.take offset,body.toList.drop offset,(List.take_append_drop _ _).symm,?_⟩
  rw [lengths _ fun c member => narrow c (List.mem_of_mem_take member),List.length_take]
  omega

theorem narrow_next {start : Nat} (inside : start < byteLen body) : IsNext body start (start + 1) :=
  ⟨⟨narrow_boundary narrow inside,Nat.lt_succ_self start⟩,fun _ past => past.2⟩

omit narrow in
theorem overlap_lt_target (valid : config.validate = .ok config) : config.overlapBytes < config.targetBytes := by
  unfold ChunkConfig.validate at valid
  split_ifs at valid
  omega

/-- One-byte characters fit. -/
theorem narrow_fits (valid : config.validate = .ok config) {start next : Nat} (ahead : IsNext body start next) :
    Fits config body start next := by
  have inside : start < byteLen body := ahead.1.2.trans_le (Cut.le_total ahead.1.1)
  have wide := overlap_lt_target valid
  obtain rfl := ahead.unique (narrow_next narrow inside)
  constructor
  · intro stop _ leaves _ _
    omega
  · intro long
    exact ⟨start + config.targetBytes,narrow_boundary narrow long.le,le_refl _,by omega⟩
  · intro long stop beyond greatest room
    have stopIs := le_antisymm greatest.1.2 (greatest.2 ⟨narrow_boundary narrow long.le,le_refl _⟩)
    rw [stopIs] at room ⊢
    obtain rfl := room.unique (narrow_next narrow long)
    -- a sentence boundary that leaves the overlap is past the start, which is room enough
    by_cases some' : ∃ sentence ∈ sentenceBoundaries body, start < sentence ∧
        sentence + config.overlapBytes ≤ start + config.targetBytes
    · obtain ⟨sentence,member,past,leaves⟩ := some'
      exact .inl ⟨sentence,member,past,leaves,by omega⟩
    · refine .inr ⟨fun sentence member past => ?_,start + config.targetBytes - config.overlapBytes,
        narrow_boundary narrow (by omega),by omega,by omega⟩
      by_contra leaves
      exact some' ⟨sentence,member,past,not_lt.mp leaves⟩

/-- A body of one-byte characters is split into chunks that share the overlap and go past
    each other. -/
theorem narrow_shares_advances (valid : config.validate = .ok config) {chunks : List Chunk} (executed : split config body = .ok chunks)
    (several : 1 < chunks.length) : chunks.IsChain (Shares config.overlapBytes) ∧ chunks.IsChain Advances := by
  obtain ⟨more,-⟩ := split_chain_iff executed several fun _ _ => True
  exact (shares_advances_iff executed several).mpr fun turn visited =>
    visited.roomy more fun _ _ _ ahead => narrow_fits narrow valid ahead

end

namespace Sample

end Sample

end Aicortex.Chunking
