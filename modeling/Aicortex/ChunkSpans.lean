import Aicortex.Chunking
import Aicortex.Lib.Offsets

/-!
What a split is made of. The loop over the starts is a list of spans, which the split
numbers and caps; each span starts where the one before it has not ended, so the
spans cover the body without a gap.
-/

namespace Aicortex.Chunking
open Aicortex.Text Lib.Offsets
set_option linter.unusedSimpArgs false

/-! ### Character boundaries -/

/-- A character of the text starts, or the text ends, at the byte offset. -/
def Boundary (body : String) (offset : Nat) : Prop := Cut Char.utf8Size body.toList offset

/-- The characters of the text between two byte offsets. -/
def Between (body : String) (start stop : Nat) (chars : List Char) : Prop :=
  Slice Char.utf8Size body.toList start stop chars

theorem Boundary.whole (body : String) : Boundary body (byteLen body) := Cut.end _

theorem dropBytes_iff {chars rest : List Char} {offset : Nat} :
    dropBytes chars offset = some rest ↔ ∃ before, chars = before ++ rest ∧ total Char.utf8Size before = offset := by
  induction chars generalizing offset with
  | nil =>
    cases offset with
    | zero => simp [dropBytes]
    | succ offset => simp [dropBytes]
  | cons c chars ih =>
    have wide := utf8Size_pos c
    cases offset with
    | zero => simp [dropBytes,total_eq_zero utf8Size_pos]
    | succ offset =>
      rw [dropBytes]
      · split_ifs with fits
        · rw [ih]
          constructor
          · rintro ⟨before,rfl,sized⟩
            exact ⟨c :: before,rfl,by rw [total_cons]; omega⟩
          · rintro ⟨before,same,sized⟩
            cases before with
            | nil => simp at sized
            | cons first before =>
              obtain ⟨rfl,rfl⟩ := List.cons.inj same
              rw [total_cons] at sized
              exact ⟨before,rfl,by omega⟩
        · simp only [reduceCtorEq,false_iff]
          rintro ⟨before,same,sized⟩
          cases before with
          | nil => simp at sized
          | cons first before =>
            obtain ⟨rfl,rfl⟩ := List.cons.inj same
            rw [total_cons] at sized
            omega
      · simp

theorem takeBytes_iff {chars taken : List Char} {offset : Nat} :
    takeBytes chars offset = some taken ↔ ∃ rest, chars = taken ++ rest ∧ total Char.utf8Size taken = offset := by
  induction chars generalizing offset taken with
  | nil =>
    cases offset with
    | zero => cases taken <;> simp [takeBytes]
    | succ offset =>
      simp only [takeBytes,reduceCtorEq,false_iff]
      rintro ⟨rest,same,sized⟩
      obtain ⟨rfl,-⟩ := List.append_eq_nil_iff.mp same.symm
      simp at sized
  | cons c chars ih =>
    have wide := utf8Size_pos c
    cases offset with
    | zero =>
      cases taken with
      | nil => simp [takeBytes]
      | cons first taken => simp [takeBytes,(utf8Size_pos first).ne']
    | succ offset =>
      rw [takeBytes]
      · cases taken with
        | nil => split_ifs <;> simp
        | cons first taken =>
          split_ifs with fits
          · rw [Option.map_eq_some_iff]
            constructor
            · rintro ⟨inner,found,same⟩
              obtain ⟨rfl,rfl⟩ := List.cons.inj same
              obtain ⟨rest,rfl,sized⟩ := ih.mp found
              exact ⟨rest,rfl,by rw [total_cons]; omega⟩
            · rintro ⟨rest,same,sized⟩
              obtain ⟨rfl,rfl⟩ := List.cons.inj same
              rw [total_cons] at sized
              exact ⟨taken,ih.mpr ⟨rest,rfl,by omega⟩,rfl⟩
          · simp only [reduceCtorEq,false_iff]
            rintro ⟨rest,same,sized⟩
            obtain ⟨rfl,rfl⟩ := List.cons.inj same
            rw [total_cons] at sized
            omega
      · simp

theorem isCharBoundary_iff {body : String} {offset : Nat} : isCharBoundary body offset = true ↔ Boundary body offset := by
  rw [isCharBoundary,Option.isSome_iff_exists]
  constructor
  · rintro ⟨rest,found⟩
    obtain ⟨before,same,sized⟩ := dropBytes_iff.mp found
    exact ⟨before,rest,same,sized⟩
  · rintro ⟨before,rest,same,sized⟩
    exact ⟨rest,dropBytes_iff.mpr ⟨before,same,sized⟩⟩

/-- The text of a chunk is what lies between its offsets. -/
theorem chunk_text {body : String} {start stop : Nat} {chars : List Char} (between : Between body start stop chars)
    (ordinal : Nat) : (chunk body ordinal start stop).text = String.ofList chars := by
  have sized := Slice.total_eq between
  obtain ⟨before,after,same,startIs,-⟩ := between
  have dropped : dropBytes body.toList start = some (chars ++ after) :=
    dropBytes_iff.mpr ⟨before,by rw [same,List.append_assoc],startIs⟩
  have taken : takeBytes (chars ++ after) (stop - start) = some chars := takeBytes_iff.mpr ⟨after,rfl,by omega⟩
  simp [chunk,dropped,taken]

/-- The floor of an offset is the last boundary up to it. -/
theorem utf8Floor_isGreatest (body : String) (offset : Nat) :
    IsGreatest {cut | Boundary body cut ∧ cut ≤ offset} (utf8Floor body offset) := by
  have floor : ∀ offset, IsGreatest {cut | Boundary body cut ∧ cut ≤ offset} (floorFrom body offset) := by
    intro offset
    induction offset with
    | zero => exact ⟨⟨Cut.zero _,le_refl 0⟩,fun cut below => below.2⟩
    | succ offset ih =>
      rw [floorFrom]
      split_ifs with cut
      · exact ⟨⟨isCharBoundary_iff.mp cut,le_refl _⟩,fun cut below => below.2⟩
      · refine ⟨⟨ih.1.1,ih.1.2.trans (Nat.le_succ _)⟩,fun other below => ih.2 ⟨below.1,?_⟩⟩
        refine Nat.lt_succ_iff.mp (lt_of_le_of_ne below.2 ?_)
        rintro rfl
        exact cut (isCharBoundary_iff.mpr below.1)
  obtain ⟨⟨cut,below⟩,greatest⟩ := floor (min offset (byteLen body))
  refine ⟨⟨cut,below.trans (Nat.min_le_left _ _)⟩,fun other within => greatest ⟨within.1,?_⟩⟩
  exact Nat.le_min.mpr ⟨within.2,Cut.le_total within.1⟩

/-- The least boundary past an offset. -/
def IsNext (body : String) (start next : Nat) : Prop := IsLeast {cut | Boundary body cut ∧ start < cut} next

theorem exists_next {body : String} {start : Nat} (cut : Boundary body start) (inside : start < byteLen body) :
    ∃ next, IsNext body start next := by
  obtain ⟨item,rest,slice⟩ := Cut.next utf8Size_pos cut inside
  exact ⟨_,Slice.next utf8Size_pos slice⟩

/-- Where nothing is proposed past the start, the next boundary is taken. -/
theorem advance_eq {body : String} {start fallback next : Nat} (cut : Boundary body start) (ahead : IsNext body start next)
    (last : Boundary body fallback) (past : start < fallback) (proposed : Nat) :
    advance body start fallback proposed = if proposed ≤ start then next else proposed := by
  unfold advance
  split_ifs with short
  · obtain ⟨first,rest,slice⟩ := Cut.next utf8Size_pos cut (past.trans_le (Cut.le_total last))
    obtain rfl := ahead.unique (Slice.next utf8Size_pos slice)
    obtain ⟨before,after,same,startIs,stopIs⟩ := slice
    have dropped : dropBytes body.toList start = some (first :: (rest ++ after)) :=
      dropBytes_iff.mpr ⟨before,by simpa using same,startIs⟩
    cases remaining : rest ++ after with
    | cons second others => simp [secondChar,dropped,remaining]
    | nil =>
      obtain ⟨rfl,rfl⟩ := List.append_eq_nil_iff.mp remaining
      simp only [secondChar,dropped,remaining,Option.elim_none]
      have atLeast := ahead.2 ⟨last,past⟩
      have atMost := Cut.le_total last
      rw [total_append,total_cons,total_nil] at stopIs
      omega
  · rfl

theorem boundariesFrom_cut {chars : List Char} {offset found : Nat} {sentenceEnd : Bool}
    (member : found ∈ boundariesFrom chars offset sentenceEnd) :
    ∃ before after, chars = before ++ after ∧ found = offset + total Char.utf8Size before := by
  induction chars generalizing offset sentenceEnd with
  | nil => simp [boundariesFrom] at member
  | cons c rest ih =>
    have here : ∃ before after, c :: rest = before ++ after ∧ offset + c.utf8Size = offset + total Char.utf8Size before :=
      ⟨[c],rest,rfl,by simp⟩
    have later : ∀ flag, found ∈ boundariesFrom rest (offset + c.utf8Size) flag →
        ∃ before after, c :: rest = before ++ after ∧ found = offset + total Char.utf8Size before := by
      intro flag inside
      obtain ⟨before,after,rfl,sized⟩ := ih inside
      exact ⟨c :: before,after,rfl,by rw [sized,total_cons]; omega⟩
    rw [boundariesFrom] at member
    split_ifs at member
    · rcases List.mem_cons.mp member with rfl | inside
      · exact here
      · exact later _ inside
    · exact later _ member
    · rcases List.mem_cons.mp member with rfl | inside
      · exact here
      · exact later _ inside
    · exact later _ member
    · exact later _ member

theorem sentenceBoundaries_cut {body : String} {found : Nat} (member : found ∈ sentenceBoundaries body) :
    Boundary body found := by
  have listed : found ∈ (0 :: boundariesFrom body.toList 0 false) ++ [byteLen body] := by
    unfold sentenceBoundaries at member
    rw [List.mem_dedup,List.mem_insertionSort] at member
    split_ifs at member
    · exact List.mem_append_left _ member
    · exact member
  rcases List.mem_append.mp listed with inside | last
  · rcases List.mem_cons.mp inside with rfl | found
    · exact Cut.zero _
    · obtain ⟨before,after,same,sized⟩ := boundariesFrom_cut found
      exact ⟨before,after,same,by omega⟩
  · obtain rfl := List.mem_singleton.mp last
    exact Cut.end _

theorem lastBoundary_some {boundaries : List Nat} {start limit found : Nat}
    (last : lastBoundary boundaries start limit = some found) : found ∈ boundaries ∧ start < found ∧ found ≤ limit := by
  have kept := List.find?_some last
  have member := List.mem_of_find?_eq_some last
  simp only [Bool.and_eq_true,decide_eq_true_eq] at kept
  exact ⟨List.mem_reverse.mp member,kept⟩

theorem sentenceBoundaries_sorted (body : String) : (sentenceBoundaries body).Pairwise (· ≤ ·) := by
  unfold sentenceBoundaries
  exact (List.pairwise_insertionSort _ _).sublist (List.dedup_sublist _)

/-- The last boundary past a start and up to a limit is the greatest there. -/
theorem lastBoundary_greatest {boundaries : List Nat} (sorted : boundaries.Pairwise (· ≤ ·)) {start limit found : Nat}
    (last : lastBoundary boundaries start limit = some found) :
    ∀ boundary ∈ boundaries, boundary ≤ limit → boundary ≤ found := by
  obtain ⟨-,later,earlier,split,skipped⟩ := List.find?_eq_some_iff_append.mp last
  obtain ⟨-,past,-⟩ := lastBoundary_some last
  have parts : boundaries = earlier.reverse ++ found :: later.reverse := by
    rw [← List.reverse_reverse boundaries,split]
    simp
  intro boundary member near
  rw [parts,List.mem_append,List.mem_cons] at member
  rcases member with before | rfl | after
  · rw [parts] at sorted
    exact (List.pairwise_append.mp sorted).2.2 boundary before found List.mem_cons_self
  · exact le_refl _
  · have beyond := skipped boundary (List.mem_reverse.mp after)
    simp only [Bool.not_eq_true',Bool.and_eq_false_iff,decide_eq_false_iff_not] at beyond
    omega

theorem lastBoundary_none {boundaries : List Nat} {start limit : Nat} (none' : lastBoundary boundaries start limit = none) :
    ∀ boundary ∈ boundaries, start < boundary → limit < boundary := by
  intro boundary member past
  have skipped := List.find?_eq_none.mp none' boundary (List.mem_reverse.mpr member)
  simp only [Bool.and_eq_true,decide_eq_true_eq] at skipped
  omega

/-! ### Where a chunk ends -/

section
variable {config : ChunkConfig} {body : String} {start previousEnd stop next : Nat}

/-- Where the chunk from an offset is aimed to end. -/
def aim (config : ChunkConfig) (body : String) (start : Nat) : Nat := min (start + config.targetBytes) (byteLen body)

theorem aim_le : aim config body start ≤ start + config.targetBytes := Nat.min_le_left _ _

theorem le_aim {cut : Nat} (inside : Boundary body cut) (near : cut ≤ start + config.targetBytes) :
    cut ≤ aim config body start := Nat.le_min.mpr ⟨near,Cut.le_total inside⟩

/-- The end before it is made to be past the start: a boundary no further than the aim,
    and the floor of the aim unless it is past the previous end. -/
def proposedEnd (config : ChunkConfig) (body : String) (boundaries : List Nat) (start previousEnd : Nat) : Nat :=
  let stop := (lastBoundary boundaries start (aim config body start)).getD (utf8Floor body (aim config body start))
  let stop := if stop < byteLen body ∧ stop - start ≤ config.overlapBytes then utf8Floor body (aim config body start) else stop
  if stop ≤ previousEnd then utf8Floor body (aim config body start) else stop

theorem chunkEnd_eq_advance (boundaries : List Nat) : chunkEnd config body boundaries start previousEnd =
    advance body start (byteLen body) (proposedEnd config body boundaries start previousEnd) := rfl

theorem proposedEnd_spec : Boundary body (proposedEnd config body (sentenceBoundaries body) start previousEnd) ∧
    proposedEnd config body (sentenceBoundaries body) start previousEnd ≤ utf8Floor body (aim config body start) ∧
    (proposedEnd config body (sentenceBoundaries body) start previousEnd ≤ previousEnd →
      proposedEnd config body (sentenceBoundaries body) start previousEnd = utf8Floor body (aim config body start)) := by
  obtain ⟨⟨floorCut,-⟩,greatest⟩ := utf8Floor_isGreatest body (aim config body start)
  have first : Boundary body ((lastBoundary (sentenceBoundaries body) start (aim config body start)).getD
        (utf8Floor body (aim config body start))) ∧
      (lastBoundary (sentenceBoundaries body) start (aim config body start)).getD
        (utf8Floor body (aim config body start)) ≤ utf8Floor body (aim config body start) := by
    cases found : lastBoundary (sentenceBoundaries body) start (aim config body start) with
    | none => exact ⟨floorCut,le_refl _⟩
    | some boundary =>
      obtain ⟨member,-,near⟩ := lastBoundary_some found
      exact ⟨sentenceBoundaries_cut member,greatest ⟨sentenceBoundaries_cut member,near⟩⟩
  unfold proposedEnd
  dsimp only
  generalize (lastBoundary (sentenceBoundaries body) start (aim config body start)).getD
    (utf8Floor body (aim config body start)) = proposed at first ⊢
  split_ifs with short early early
  · exact ⟨floorCut,le_refl _,fun _ => rfl⟩
  · exact ⟨floorCut,le_refl _,fun _ => rfl⟩
  · exact ⟨floorCut,le_refl _,fun _ => rfl⟩
  · exact ⟨first.1,first.2,fun below => absurd below early⟩

/-- What is proposed is the floor of the aim, or a sentence boundary past the overlap. -/
theorem proposedEnd_cases (boundaries : List Nat) :
    proposedEnd config body boundaries start previousEnd = utf8Floor body (aim config body start) ∨
      lastBoundary boundaries start (aim config body start) = some (proposedEnd config body boundaries start previousEnd) ∧
        (proposedEnd config body boundaries start previousEnd < byteLen body →
          start + config.overlapBytes < proposedEnd config body boundaries start previousEnd) := by
  unfold proposedEnd
  dsimp only
  cases found : lastBoundary boundaries start (aim config body start) with
  | none => simp only [Option.getD_none,ite_self,true_or]
  | some boundary =>
    rw [Option.getD_some]
    split_ifs with short early early
    · exact .inl rfl
    · exact .inl rfl
    · exact .inl rfl
    · exact .inr ⟨rfl,fun inside => by omega⟩

/-- The end of a chunk from a boundary inside the body: a boundary past its start, no
    further than the target unless it is the next boundary. -/
theorem chunkEnd_spec (config : ChunkConfig) (previousEnd : Nat) (cut : Boundary body start) (inside : start < byteLen body) (ahead : IsNext body start next) :
    Boundary body (chunkEnd config body (sentenceBoundaries body) start previousEnd) ∧
      start < chunkEnd config body (sentenceBoundaries body) start previousEnd ∧
      (chunkEnd config body (sentenceBoundaries body) start previousEnd ≤ start + config.targetBytes ∨
        chunkEnd config body (sentenceBoundaries body) start previousEnd = next) := by
  obtain ⟨proposedCut,proposedLe,-⟩ := @proposedEnd_spec config body start previousEnd
  have floorLe := (utf8Floor_isGreatest body (aim config body start)).1.2
  rw [chunkEnd_eq_advance,advance_eq cut ahead (.whole body) inside]
  split_ifs with short
  · exact ⟨ahead.1.1,ahead.1.2,.inr rfl⟩
  · exact ⟨proposedCut,not_le.mp short,.inl (proposedLe.trans (floorLe.trans aim_le))⟩

/-- What holds between the start of a chunk and the end of the one before it: the end is
    not passed, and unless the chunk starts there it is within the target. -/
structure Follows (config : ChunkConfig) (body : String) (start previousEnd : Nat) : Prop where
  startCut : Boundary body start
  endCut : Boundary body previousEnd
  inside : previousEnd < byteLen body
  meets : start ≤ previousEnd
  near : start = previousEnd ∨ previousEnd ≤ start + config.targetBytes

/-- A chunk ends no earlier than the one before it, and later exactly when it starts there
    or the target has room for the character at that end. -/
theorem Follows.chunkEnd_ge {beyond : Nat} (follows : Follows config body start previousEnd)
    (room : IsNext body previousEnd beyond) :
    previousEnd ≤ chunkEnd config body (sentenceBoundaries body) start previousEnd ∧
      (previousEnd < chunkEnd config body (sentenceBoundaries body) start previousEnd ↔
        start = previousEnd ∨ beyond ≤ start + config.targetBytes) := by
  have startInside : start < byteLen body := follows.meets.trans_lt follows.inside
  obtain ⟨next,ahead⟩ := exists_next follows.startCut startInside
  rcases follows.near with rfl | near
  · have past := @lt_chunkEnd config body (sentenceBoundaries body) start startInside start
    exact ⟨past.le,by simp [past]⟩
  · obtain ⟨-,proposedLe,floored⟩ :=
      @proposedEnd_spec config body start previousEnd
    obtain ⟨⟨floorCut,floorLe⟩,greatest⟩ := utf8Floor_isGreatest body (aim config body start)
    have reached : previousEnd ≤ utf8Floor body (aim config body start) := greatest ⟨follows.endCut,le_aim follows.endCut near⟩
    have further : previousEnd < utf8Floor body (aim config body start) ↔ beyond ≤ start + config.targetBytes := by
      constructor
      · intro past
        exact (room.2 ⟨floorCut,past⟩).trans (floorLe.trans aim_le)
      · intro fits
        exact room.1.2.trans_le (greatest ⟨room.1.1,le_aim room.1.1 fits⟩)
    rw [chunkEnd_eq_advance,advance_eq follows.startCut ahead (.whole body) startInside]
    have later := ahead.1.2
    have meets := follows.meets
    by_cases fits : beyond ≤ start + config.targetBytes
    · have past := further.mpr fits
      split_ifs with short
      · have := floored (short.trans meets)
        omega
      · have reaches : previousEnd < proposedEnd config body (sentenceBoundaries body) start previousEnd := by
          by_contra early
          have := floored (not_lt.mp early)
          omega
        exact ⟨reaches.le,by simp [reaches,fits]⟩
    · have exact' : utf8Floor body (aim config body start) = previousEnd :=
        le_antisymm (not_lt.mp (further.not.mpr fits)) reached
      rw [exact'] at floored proposedLe
      split_ifs with short
      · have := floored (short.trans meets)
        omega
      · have := floored proposedLe
        omega

/-! ### Where the next chunk starts -/

/-- The next start is a boundary in the chunk or at its end, and it leaves the overlap
    exactly when the chunk is that much longer than its first character. -/
theorem nextStart_spec (config : ChunkConfig) (cut : Boundary body start) (last : Boundary body stop) (past : start < stop)
    (ahead : IsNext body start next) :
    Boundary body (nextStart config body (sentenceBoundaries body) start stop) ∧
      nextStart config body (sentenceBoundaries body) start stop ≤ stop ∧
      (nextStart config body (sentenceBoundaries body) start stop + config.overlapBytes ≤ stop ↔
        next + config.overlapBytes ≤ stop) := by
  have proposed : ∃ proposed, nextStart config body (sentenceBoundaries body) start stop = advance body start stop proposed ∧
      Boundary body proposed ∧ proposed ≤ stop - config.overlapBytes := by
    refine ⟨_,rfl,?_⟩
    obtain ⟨⟨floorCut,floorLe⟩,-⟩ := utf8Floor_isGreatest body (stop - config.overlapBytes)
    cases found : lastBoundary (sentenceBoundaries body) start (stop - config.overlapBytes) with
    | none => exact ⟨floorCut,floorLe⟩
    | some boundary =>
      obtain ⟨member,-,near⟩ := lastBoundary_some found
      exact ⟨sentenceBoundaries_cut member,near⟩
  obtain ⟨proposed,startIs,proposedCut,proposedLe⟩ := proposed
  have nextLe := ahead.2 ⟨last,past⟩
  rw [startIs,advance_eq cut ahead last past]
  split_ifs with short
  · exact ⟨ahead.1.1,nextLe,Iff.rfl⟩
  · have least := ahead.2 ⟨proposedCut,not_le.mp short⟩
    exact ⟨proposedCut,by omega,by omega⟩

theorem Follows.first (full : 0 < byteLen body) : Follows config body 0 0 :=
  ⟨Cut.zero _,Cut.zero _,full,le_refl 0,.inl rfl⟩

/-- The next chunk follows a chunk that does not end the body. -/
theorem Follows.step (follows : Follows config body start previousEnd)
    (more : chunkEnd config body (sentenceBoundaries body) start previousEnd < byteLen body) :
    Follows config body (nextStart config body (sentenceBoundaries body) start
        (chunkEnd config body (sentenceBoundaries body) start previousEnd))
      (chunkEnd config body (sentenceBoundaries body) start previousEnd) := by
  have inside : start < byteLen body := follows.meets.trans_lt follows.inside
  obtain ⟨next,ahead⟩ := exists_next follows.startCut inside
  obtain ⟨stopCut,past,sized⟩ := chunkEnd_spec config previousEnd follows.startCut inside ahead
  obtain ⟨nextCut,meets,-⟩ := nextStart_spec config follows.startCut stopCut past ahead
  have later := @lt_nextStart config body (sentenceBoundaries body) _ _ past
  refine ⟨nextCut,stopCut,more,meets,?_⟩
  rcases sized with near | single
  · exact .inr (by omega)
  · have least := ahead.2 ⟨nextCut,later⟩
    exact .inl (by omega)

end

/-! ### Spans -/

section
variable (config : ChunkConfig) (body : String) (boundaries : List Nat)

/-- The spans the loop cuts, from a start and the end before it. -/
def spansFrom : Nat → Nat → Nat → List (Nat × Nat)
  | 0, _, _ => []
  | fuel + 1, start, previousEnd =>
    if start < byteLen body then
      let stop := chunkEnd config body boundaries start previousEnd
      (start,stop) ::
        if stop = byteLen body then [] else spansFrom fuel (nextStart config body boundaries start stop) stop
    else []

/-- The chunks of the spans, numbered on from a count. -/
def chunksFrom (body : String) : Nat → List (Nat × Nat) → List Chunk
  | _, [] => []
  | count, span :: rest => chunk body (min count maxOrdinal) span.1 span.2 :: chunksFrom body (count + 1) rest

/-- The loop cuts the spans until there are too many. -/
theorem splitFrom_eq {fuel start : Nat} {chunks : List Chunk} (fits : chunks.length ≤ config.maxChunksPerMemory) :
    splitFrom config body boundaries fuel start chunks =
      if config.maxChunksPerMemory < chunks.length +
          (spansFrom config body boundaries fuel start ((chunks.getLast?.map Chunk.byteEnd).getD 0)).length then
        .error (.validation s!"memory requires more than {config.maxChunksPerMemory} chunks")
      else .ok (chunks ++ chunksFrom body chunks.length
        (spansFrom config body boundaries fuel start ((chunks.getLast?.map Chunk.byteEnd).getD 0))) := by
  induction fuel generalizing start chunks with
  | zero => simp [splitFrom,spansFrom,chunksFrom,fits]
  | succ fuel ih =>
    by_cases inside : start < byteLen body
    · obtain ⟨stop,stopIs⟩ : ∃ stop, chunkEnd config body boundaries start ((chunks.getLast?.map Chunk.byteEnd).getD 0) = stop :=
        ⟨_,rfl⟩
      have spans : spansFrom config body boundaries (fuel + 1) start ((chunks.getLast?.map Chunk.byteEnd).getD 0) =
          (start,stop) :: if stop = byteLen body then []
            else spansFrom config body boundaries fuel (nextStart config body boundaries start stop) stop := by
        rw [spansFrom,if_pos inside,stopIs]
      have counted : (chunks ++ [chunk body (min chunks.length maxOrdinal) start stop]).length = chunks.length + 1 := by simp
      rw [spans,splitFrom,if_pos inside,stopIs]
      dsimp only
      rw [counted]
      by_cases full : config.maxChunksPerMemory < chunks.length + 1
      · rw [if_pos full,if_pos (by rw [List.length_cons]; omega)]
      · rw [if_neg full]
        by_cases last : stop = byteLen body
        · rw [if_pos last,if_pos last,if_neg (by simpa using full)]
          simp [chunksFrom]
        · have ended : (((chunks ++ [chunk body (min chunks.length maxOrdinal) start stop]).getLast?.map Chunk.byteEnd).getD 0) =
              stop := by simp [chunk]
          rw [if_neg last,if_neg last,ih (by omega),ended,counted,List.length_cons,chunksFrom,List.append_assoc,
            List.singleton_append,Nat.add_assoc,Nat.add_comm 1]
    · rw [splitFrom,spansFrom,if_neg inside,if_neg inside]
      simp [chunksFrom,fits]

end

/-- Spans as the loop cuts them: each after the one before, to the end of the body. -/
inductive Laid (config : ChunkConfig) (body : String) : Nat → Nat → List (Nat × Nat) → Prop
  | last {start previousEnd : Nat} (follows : Follows config body start previousEnd)
      (ends : chunkEnd config body (sentenceBoundaries body) start previousEnd = byteLen body) :
      Laid config body start previousEnd [(start,byteLen body)]
  | more {start previousEnd stop : Nat} {rest : List (Nat × Nat)} (follows : Follows config body start previousEnd)
      (stopIs : chunkEnd config body (sentenceBoundaries body) start previousEnd = stop)
      (laid : Laid config body (nextStart config body (sentenceBoundaries body) start stop) stop rest) :
      Laid config body start previousEnd ((start,stop) :: rest)

section
variable {config : ChunkConfig} {body : String} {start previousEnd : Nat} {spans : List (Nat × Nat)}
-- Only what is stated of the ends and the starts is used from here on.
attribute [local irreducible] chunkEnd nextStart

theorem Laid.follows (laid : Laid config body start previousEnd spans) : Follows config body start previousEnd := by
  cases laid <;> assumption

theorem spansFrom_laid {fuel : Nat} (follows : Follows config body start previousEnd) (enough : byteLen body - start ≤ fuel) :
    Laid config body start previousEnd (spansFrom config body (sentenceBoundaries body) fuel start previousEnd) := by
  have inside : start < byteLen body := follows.meets.trans_lt follows.inside
  induction fuel generalizing start previousEnd with
  | zero => omega
  | succ fuel ih =>
    obtain ⟨next,ahead⟩ := exists_next follows.startCut inside
    obtain ⟨stopCut,past,-⟩ := chunkEnd_spec config previousEnd follows.startCut inside ahead
    rw [spansFrom,if_pos inside]
    dsimp only
    split_ifs with last
    · rw [last]
      exact .last follows last
    · have more := lt_of_le_of_ne (Cut.le_total stopCut) last
      have later := @lt_nextStart config body (sentenceBoundaries body) _ _ past
      have after := follows.step more
      exact .more follows rfl (ih after (by omega) (after.meets.trans_lt more))

/-- A span of its own: boundaries in order, no longer than the target unless it is one
    character. -/
def Cutout (config : ChunkConfig) (body : String) (span : Nat × Nat) : Prop :=
  Boundary body span.1 ∧ Boundary body span.2 ∧ span.1 < span.2 ∧
    (span.2 ≤ span.1 + config.targetBytes ∨ IsNext body span.1 span.2)

/-- A span after another: it starts later, in it or at its end, and ends no earlier. -/
def Succeeds (span later : Nat × Nat) : Prop := span.1 < later.1 ∧ later.1 ≤ span.2 ∧ span.2 ≤ later.2

/-- The chunk that follows is a cutout, and ends no earlier than the one before it. -/
theorem Follows.cutout (follows : Follows config body start previousEnd) {stop : Nat}
    (stopIs : chunkEnd config body (sentenceBoundaries body) start previousEnd = stop) :
    Cutout config body (start,stop) ∧ previousEnd ≤ stop := by
  subst stopIs
  have inside : start < byteLen body := follows.meets.trans_lt follows.inside
  obtain ⟨next,ahead⟩ := exists_next follows.startCut inside
  obtain ⟨beyond,room⟩ := exists_next follows.endCut follows.inside
  obtain ⟨stopCut,past,sized⟩ := chunkEnd_spec config previousEnd follows.startCut inside ahead
  refine ⟨⟨follows.startCut,stopCut,past,?_⟩,(follows.chunkEnd_ge room).1⟩
  rcases sized with near | single
  · exact .inl near
  · exact .inr (single ▸ ahead)

theorem Laid.head (laid : Laid config body start previousEnd spans) :
    ∃ stop rest, spans = (start,stop) :: rest ∧ previousEnd ≤ stop := by
  cases laid with
  | last follows ends => exact ⟨_,_,rfl,(follows.cutout ends).2⟩
  | more follows stopIs _ => exact ⟨_,_,rfl,(follows.cutout stopIs).2⟩

theorem Laid.cutout (laid : Laid config body start previousEnd spans) : ∀ span ∈ spans, Cutout config body span := by
  induction laid with
  | last follows ends =>
    obtain ⟨whole,-⟩ := follows.cutout ends
    simpa using whole
  | more follows stopIs laid ih =>
    obtain ⟨whole,-⟩ := follows.cutout stopIs
    exact List.forall_mem_cons.mpr ⟨whole,ih⟩

theorem Laid.succeeds (laid : Laid config body start previousEnd spans) : spans.IsChain Succeeds := by
  induction laid with
  | last => exact List.isChain_singleton _
  | @more start previousEnd stop rest follows stopIs laid ih =>
    obtain ⟨⟨-,-,past,-⟩,-⟩ := follows.cutout stopIs
    obtain ⟨later,others,rfl,onward⟩ := laid.head
    exact List.isChain_cons_cons.mpr ⟨⟨lt_nextStart past,laid.follows.meets,onward⟩,ih⟩

theorem Laid.reaches (laid : Laid config body start previousEnd spans) : ∀ span ∈ spans.getLast?, span.2 = byteLen body := by
  induction laid with
  | last => simp
  | more follows stopIs laid ih =>
    obtain ⟨later,others,rfl,-⟩ := laid.head
    simpa using ih

end

end Aicortex.Chunking
