import Aicortex.ChunkSpans

/-!
What the chunks of a body are: slices of it, in order and without a gap, so that the
body comes back when the overlaps are dropped. A split is refused only for too many of
them.
-/

namespace Aicortex.Chunking
open Aicortex.Text Lib.Offsets
set_option linter.unusedSimpArgs false

/-! ### Chunks of spans -/

section
variable {body : String}

theorem chunksFrom_spans (body : String) (count : Nat) (spans : List (Nat × Nat)) :
    (chunksFrom body count spans).map (fun chunk => (chunk.byteStart,chunk.byteEnd)) = spans := by
  induction spans generalizing count with
  | nil => rfl
  | cons span rest ih =>
    rw [chunksFrom,List.map_cons,ih]
    rfl

theorem chunksFrom_length (count : Nat) (spans : List (Nat × Nat)) : (chunksFrom body count spans).length = spans.length := by
  rw [← List.length_map (f := fun chunk : Chunk => (chunk.byteStart,chunk.byteEnd)),chunksFrom_spans body count]

theorem mem_chunksFrom {count : Nat} {spans : List (Nat × Nat)} {found : Chunk} (member : found ∈ chunksFrom body count spans) :
    ∃ span ∈ spans, ∃ ordinal, found = chunk body ordinal span.1 span.2 := by
  induction spans generalizing count with
  | nil => simp [chunksFrom] at member
  | cons span rest ih =>
    rcases List.mem_cons.mp member with rfl | later
    · exact ⟨span,by simp,_,rfl⟩
    · obtain ⟨other,inside,ordinal,same⟩ := ih later
      exact ⟨other,List.mem_cons_of_mem _ inside,ordinal,same⟩

end

/-- What the chunks add to what has been reached, each past the end of the one before. -/
def reassembleFrom : Nat → List Chunk → List Char
  | _, [] => []
  | reached, chunk :: rest =>
    ((dropBytes chunk.text.toList (reached - chunk.byteStart)).getD []) ++ reassembleFrom chunk.byteEnd rest

/-- The chunks with their overlaps dropped. -/
def reassemble (chunks : List Chunk) : String := String.ofList (reassembleFrom 0 chunks)

section
variable {config : ChunkConfig} {body : String} {start previousEnd : Nat} {spans : List (Nat × Nat)}

theorem chunk_between {span : Nat × Nat} (cutout : Cutout config body span) (ordinal : Nat) :
    Between body span.1 span.2 (chunk body ordinal span.1 span.2).text.toList := by
  obtain ⟨first,last,past,-⟩ := cutout
  obtain ⟨chars,between⟩ := Cut.slice utf8Size_pos first last past.le
  rw [chunk_text between,String.toList_ofList]
  exact between

/-- Past the end before it, a chunk adds what lies between the two ends. -/
theorem reassembleFrom_chunk {stop : Nat} (follows : Follows config body start previousEnd)
    (cutout : Cutout config body (start,stop)) (reached : previousEnd ≤ stop) (ordinal : Nat) (rest : List Chunk) :
    ∃ back, Between body previousEnd stop back ∧
      reassembleFrom previousEnd (chunk body ordinal start stop :: rest) = back ++ reassembleFrom stop rest := by
  obtain ⟨front,back,same,first,last⟩ :=
    Slice.split utf8Size_pos (chunk_between cutout ordinal) follows.endCut follows.meets reached
  have sized := Slice.total_eq first
  have dropped : dropBytes (chunk body ordinal start stop).text.toList (previousEnd - start) = some back := by
    refine dropBytes_iff.mpr ⟨front,same,?_⟩
    dsimp only at sized
    omega
  refine ⟨back,last,?_⟩
  rw [reassembleFrom,show (chunk body ordinal start stop).byteStart = start from rfl,dropped]
  rfl

/-- From the end before them on, the chunks add up to the rest of the body. -/
theorem Laid.reassembles (laid : Laid config body start previousEnd spans) (count : Nat) :
    Between body previousEnd (byteLen body) (reassembleFrom previousEnd (chunksFrom body count spans)) := by
  induction laid generalizing count with
  | last follows ends =>
    obtain ⟨cutout,reached⟩ := follows.cutout ends
    obtain ⟨back,between,added⟩ := reassembleFrom_chunk follows cutout reached (min count maxOrdinal) []
    rw [chunksFrom,chunksFrom,added,reassembleFrom,List.append_nil]
    exact between
  | more follows stopIs laid ih =>
    obtain ⟨cutout,reached⟩ := follows.cutout stopIs
    obtain ⟨back,between,added⟩ := reassembleFrom_chunk follows cutout reached (min count maxOrdinal) (chunksFrom body (count + 1) _)
    rw [chunksFrom,added]
    exact Slice.join utf8Size_pos between (ih (count + 1))

theorem Laid.length_le (laid : Laid config body start previousEnd spans) : spans.length ≤ byteLen body - start := by
  induction laid with
  | last follows ends =>
    have inside := follows.meets.trans_lt follows.inside
    simp only [List.length_singleton]
    omega
  | more follows stopIs laid ih =>
    obtain ⟨⟨-,-,past,-⟩,-⟩ := follows.cutout stopIs
    have later := @lt_nextStart config body (sentenceBoundaries body) _ _ past
    have inside := laid.follows.meets.trans_lt laid.follows.inside
    rw [List.length_cons]
    dsimp only at later past
    omega

/-- Spans of a bounded width are at least as many as the width goes into the body. -/
theorem Laid.le_length {width : Nat} (laid : Laid config body start previousEnd spans)
    (narrow : ∀ span ∈ spans, span.2 ≤ span.1 + width) : byteLen body ≤ previousEnd + width * spans.length := by
  induction laid with
  | last follows ends =>
    have := narrow _ List.mem_cons_self
    have := follows.meets
    simp only [List.length_singleton,Nat.mul_one]
    omega
  | more follows stopIs laid ih =>
    have first := narrow _ List.mem_cons_self
    have others := ih (fun span member => narrow span (List.mem_cons_of_mem _ member))
    have := follows.meets
    rw [List.length_cons,Nat.mul_succ]
    omega

/-- A cutout that is one character by its offsets is one by its text. -/
theorem single_of_next {span : Nat × Nat} {chars : List Char} (between : Between body span.1 span.2 chars)
    (past : span.1 < span.2) (ahead : IsNext body span.1 span.2) : chars.length = 1 := by
  cases chars with
  | nil =>
    have := Slice.total_eq between
    rw [total_nil] at this
    omega
  | cons first rest =>
    have same := ahead.unique (Slice.next utf8Size_pos between)
    have sized := Slice.total_eq between
    rw [total_cons] at sized
    have none' : rest = [] := (total_eq_zero utf8Size_pos).mp (by omega)
    simp [none']

end

/-! ### The split -/

/-- The spans of a body. -/
def spans (config : ChunkConfig) (body : String) : List (Nat × Nat) :=
  spansFrom config body (sentenceBoundaries body) (byteLen body) 0 0

theorem spans_laid (config : ChunkConfig) {body : String} (full : body.toList ≠ []) :
    Laid config body 0 0 (spans config body) := by
  have positive : 0 < byteLen body := by
    refine Nat.pos_of_ne_zero fun none' => full ((total_eq_zero utf8Size_pos).mp none')
  exact spansFrom_laid (.first positive) (by omega)

/-- A body over the threshold is split into its spans, unless they are too many. -/
theorem split_eq {config : ChunkConfig} {body : String} (full : body.toList ≠ []) (long : config.thresholdBytes < byteLen body) :
    split config body = if config.maxChunksPerMemory < (spans config body).length then
        .error (.validation s!"memory requires more than {config.maxChunksPerMemory} chunks")
      else .ok (chunksFrom body 0 (spans config body)) := by
  rw [split,if_neg full,if_neg (not_le.mpr long),splitFrom_eq config body _ (by simp)]
  simp [spans]

/-- The spans do not depend on the ceiling. -/
theorem spans_uncapped (config : ChunkConfig) (body : String) (ceiling : Nat) :
    spans { config with maxChunksPerMemory := ceiling } body = spans config body := by
  have same : ∀ fuel start previousEnd,
      spansFrom { config with maxChunksPerMemory := ceiling } body (sentenceBoundaries body) fuel start previousEnd =
        spansFrom config body (sentenceBoundaries body) fuel start previousEnd := by
    intro fuel
    induction fuel with
    | zero => exact fun _ _ => rfl
    | succ fuel ih =>
      intro start previousEnd
      simp only [spansFrom,ih]
      rfl
  exact same _ _ _

/-- What the bytes of a text are. -/
def bytesOf (chars : List Char) : List UInt8 := chars.flatMap String.utf8EncodeChar

/-- Chunks that are numbered in order, are slices of the body without a gap between them,
    and are no longer than the target unless they are a single character. -/
structure Sound (config : ChunkConfig) (body : String) (chunks : List Chunk) : Prop where
  ordinals : chunks.map Chunk.ordinal = numbered chunks.length
  sliced : ∀ chunk ∈ chunks, Between body chunk.byteStart chunk.byteEnd chunk.text.toList ∧
    bytesOf chunk.text.toList = ((bytesOf body.toList).drop chunk.byteStart).take (chunk.byteEnd - chunk.byteStart)
  boundaries : ∀ chunk ∈ chunks, Boundary body chunk.byteStart ∧ Boundary body chunk.byteEnd
  nonempty : ∀ chunk ∈ chunks, chunk.byteStart < chunk.byteEnd ∧ chunk.text.toList ≠ []
  first : body.toList ≠ [] → ∃ chunk ∈ chunks.head?, chunk.byteStart = 0
  last : body.toList ≠ [] → ∃ chunk ∈ chunks.getLast?, chunk.byteEnd = byteLen body
  starts : (chunks.map Chunk.byteStart).Pairwise (· < ·)
  ends : (chunks.map Chunk.byteEnd).Pairwise (· ≤ ·)
  meets : chunks.IsChain (fun chunk later => later.byteStart ≤ chunk.byteEnd)
  sized : 1 < chunks.length → ∀ chunk ∈ chunks,
    chunk.byteEnd ≤ chunk.byteStart + config.targetBytes ∨ chunk.text.toList.length = 1
  reassembled : reassemble chunks = body

section
variable {config : ChunkConfig} {body : String}

theorem between_bytes {start stop : Nat} {chars : List Char} (between : Between body start stop chars) :
    bytesOf chars = ((bytesOf body.toList).drop start).take (stop - start) :=
  Slice.encoded between String.length_utf8EncodeChar

theorem chunksFrom_ordinals (count : Nat) (list : List (Nat × Nat)) :
    (chunksFrom body count list).map Chunk.ordinal = (List.range' count list.length).map (min · maxOrdinal) := by
  induction list generalizing count with
  | nil => rfl
  | cons span rest ih =>
    rw [chunksFrom,List.map_cons,ih,List.length_cons,List.range'_succ,List.map_cons]
    rfl

/-- Each chunk of a cutout is a slice of the body. -/
theorem cutout_sliced {span : Nat × Nat} (cutout : Cutout config body span) (ordinal : Nat) :
    Between body span.1 span.2 (chunk body ordinal span.1 span.2).text.toList ∧
      (chunk body ordinal span.1 span.2).text.toList ≠ [] ∧
      (span.2 ≤ span.1 + config.targetBytes ∨ (chunk body ordinal span.1 span.2).text.toList.length = 1) := by
  have between := chunk_between cutout ordinal
  obtain ⟨-,-,past,sized⟩ := cutout
  refine ⟨between,?_,sized.imp_right (single_of_next between past)⟩
  intro none'
  rw [none'] at between
  have := Slice.total_eq between
  rw [total_nil] at this
  omega

/-- The chunks that the spans of a body are numbered as are sound. -/
theorem Laid.sound {list : List (Nat × Nat)} (laid : Laid config body 0 0 list) : Sound config body (chunksFrom body 0 list) := by
  have spansAre := chunksFrom_spans body 0 list
  have each : ∀ chunk ∈ chunksFrom body 0 list, ∃ span ordinal, Cutout config body span ∧
      chunk = Chunking.chunk body ordinal span.1 span.2 := by
    intro chunk member
    obtain ⟨span,inside,ordinal,same⟩ := mem_chunksFrom member
    exact ⟨span,ordinal,laid.cutout span inside,same⟩
  have order : (chunksFrom body 0 list).IsChain (fun chunk later =>
      chunk.byteStart < later.byteStart ∧ later.byteStart ≤ chunk.byteEnd ∧ chunk.byteEnd ≤ later.byteEnd) := by
    have chained := laid.succeeds
    rw [← spansAre,List.isChain_map] at chained
    exact chained
  refine ⟨?_,?_,?_,?_,?_,?_,?_,?_,?_,?_,?_⟩
  · rw [chunksFrom_ordinals,chunksFrom_length,numbered,List.range_eq_range']
  · intro chunk member
    obtain ⟨span,ordinal,cutout,rfl⟩ := each chunk member
    exact ⟨(cutout_sliced cutout ordinal).1,between_bytes (cutout_sliced cutout ordinal).1⟩
  · intro chunk member
    obtain ⟨span,ordinal,cutout,rfl⟩ := each chunk member
    exact ⟨cutout.1,cutout.2.1⟩
  · intro chunk member
    obtain ⟨span,ordinal,cutout,rfl⟩ := each chunk member
    exact ⟨cutout.2.2.1,(cutout_sliced cutout ordinal).2.1⟩
  · intro _
    obtain ⟨stop,rest,rfl,-⟩ := laid.head
    exact ⟨_,rfl,rfl⟩
  · intro _
    obtain ⟨stop,rest,rfl,-⟩ := laid.head
    obtain ⟨chunk,found⟩ : ∃ chunk, (chunksFrom body 0 ((0,stop) :: rest)).getLast? = some chunk :=
      Option.isSome_iff_exists.mp (by simp [chunksFrom])
    refine ⟨chunk,found,laid.reaches (chunk.byteStart,chunk.byteEnd) ?_⟩
    rw [← spansAre,List.getLast?_map,found]
    rfl
  · exact List.isChain_iff_pairwise.mp ((List.isChain_map _).mpr (order.imp fun _ _ step => step.1))
  · exact List.isChain_iff_pairwise.mp ((List.isChain_map _).mpr (order.imp fun _ _ step => step.2.2))
  · exact order.imp fun _ _ step => step.2.1
  · intro _ chunk member
    obtain ⟨span,ordinal,cutout,rfl⟩ := each chunk member
    exact (cutout_sliced cutout ordinal).2.2
  · have whole := Slice.unique utf8Size_pos (laid.reassembles 0) (Slice.whole body.toList)
    rw [reassemble,whole,String.ofList_toList]

/-- A short body is one chunk, of whatever size. -/
theorem whole_sound (full : body.toList ≠ []) : Sound config body [chunk body 0 0 (byteLen body)] := by
  have between : Between body 0 (byteLen body) body.toList := Slice.whole _
  have text : (chunk body 0 0 (byteLen body)).text.toList = body.toList := by
    rw [chunk_text between,String.toList_ofList]
  have positive : 0 < byteLen body := Nat.pos_of_ne_zero fun none' => full ((total_eq_zero utf8Size_pos).mp none')
  refine ⟨rfl,?_,?_,?_,?_,?_,?_,?_,?_,?_,?_⟩
  · simp only [List.forall_mem_singleton]
    rw [text]
    exact ⟨between,between_bytes between⟩
  · simp only [List.forall_mem_singleton]
    exact ⟨Cut.zero _,.whole body⟩
  · simp only [List.forall_mem_singleton]
    rw [text]
    exact ⟨positive,full⟩
  · exact fun _ => ⟨_,rfl,rfl⟩
  · exact fun _ => ⟨_,rfl,rfl⟩
  · simp
  · simp
  · simp
  · simp
  · have added : dropBytes body.toList 0 = some body.toList := dropBytes_iff.mpr ⟨[],rfl,rfl⟩
    rw [reassemble,reassembleFrom,reassembleFrom,text,Nat.zero_sub,added,Option.getD_some,List.append_nil,String.ofList_toList]

theorem empty_sound (empty : body.toList = []) : Sound config body [] := by
  have blank : body = "" := String.toList_inj.mp (by simpa using empty)
  subst blank
  refine ⟨rfl,?_,?_,?_,?_,?_,?_,?_,?_,?_,rfl⟩ <;> simp

end

/-- The split ends, by its fuel or any more; what it returns is sound; and it is refused
    only where the uncapped split has more chunks than the ceiling. -/
theorem split_sound (config : ChunkConfig) (body : String) :
    (∀ more, splitFrom config body (sentenceBoundaries body) (byteLen body + more) 0 [] =
      splitFrom config body (sentenceBoundaries body) (byteLen body) 0 []) ∧
    (∀ chunks, split config body = .ok chunks → Sound config body chunks) ∧
    ∀ refusal, split config body = .error refusal → ∃ ceiling chunks,
      split { config with maxChunksPerMemory := ceiling } body = .ok chunks ∧ config.maxChunksPerMemory < chunks.length := by
  refine ⟨fun more => splitFrom_fuel (by omega) more,?_,?_⟩
  · intro chunks executed
    by_cases full : body.toList = []
    · rw [split,if_pos full] at executed
      cases executed
      exact empty_sound full
    by_cases long : config.thresholdBytes < byteLen body
    · rw [split_eq full long] at executed
      split_ifs at executed
      cases executed
      exact (spans_laid config full).sound
    · rw [split,if_neg full,if_pos (not_lt.mp long)] at executed
      cases executed
      exact whole_sound full
  · intro refusal refused
    by_cases full : body.toList = []
    · simp [split,full] at refused
    by_cases long : config.thresholdBytes < byteLen body
    · rw [split_eq full long] at refused
      split_ifs at refused with many
      refine ⟨(spans config body).length,chunksFrom body 0 (spans config body),?_,by rwa [chunksFrom_length]⟩
      refine (@split_eq { config with maxChunksPerMemory := (spans config body).length } body full long).trans ?_
      rw [spans_uncapped config body (spans config body).length]
      exact if_neg (Nat.lt_irrefl (spans config body).length)
    · simp [split,full,not_lt.mp long] at refused

namespace Sample

/-- One letter, again and again. -/
def repeated (count : Nat) : String := String.ofList (List.replicate count 'a')

theorem byteLen_repeated (count : Nat) : byteLen (repeated count) = count := by
  have wide : 'a'.utf8Size = 1 := by decide
  rw [byteLen,repeated,String.toList_ofList]
  induction count with
  | zero => rfl
  | succ count ih =>
    rw [List.replicate_succ,List.map_cons,List.sum_cons,ih,wide,Nat.add_comm]

/-- Chunks of one byte, as many as the ceiling allows. -/
def bytewise (count : Nat) : ChunkConfig := ⟨1,1,0,count⟩

theorem split_repeated {count : Nat} (several : 1 < count) :
    ∃ chunks, split (bytewise count) (repeated count) = .ok chunks ∧ chunks.length = count := by
  have full : (repeated count).toList ≠ [] := by
    rw [repeated,String.toList_ofList]
    simp
    omega
  have laid := spans_laid (bytewise count) full
  have narrow : ∀ span ∈ spans (bytewise count) (repeated count), span.2 ≤ span.1 + 1 := by
    intro span member
    obtain ⟨first,-,past,near | single⟩ := laid.cutout span member
    · exact near
    · obtain ⟨item,rest,slice⟩ := Cut.next utf8Size_pos first (past.trans_le (Cut.le_total single.1.1))
      rw [single.unique (Slice.next utf8Size_pos slice)]
      obtain ⟨before,after,same,-⟩ := slice
      have letter : item ∈ (repeated count).toList := same ▸ by simp
      rw [repeated,String.toList_ofList] at letter
      have wide : 'a'.utf8Size = 1 := by decide
      rw [(List.mem_replicate.mp letter).2,wide]
  have most := laid.length_le
  have least := laid.le_length narrow
  rw [byteLen_repeated] at most least
  have counted : (spans (bytewise count) (repeated count)).length = count := by omega
  have long : (bytewise count).thresholdBytes < byteLen (repeated count) := by rwa [byteLen_repeated]
  refine ⟨_,(split_eq full long).trans (if_neg ?_),by rw [chunksFrom_length,counted]⟩
  rw [counted]
  exact Nat.lt_irrefl count

/-- Past four gigabytes in chunks of one, the last two ordinals are alike. -/
theorem ordinals_saturate : (bytewise (2 ^ 32 + 1)).validate = .ok (bytewise (2 ^ 32 + 1)) ∧
    ∃ chunks, split (bytewise (2 ^ 32 + 1)) (repeated (2 ^ 32 + 1)) = .ok chunks ∧
      chunks.map Chunk.ordinal ≠ List.range chunks.length := by
  refine ⟨rfl,?_⟩
  obtain ⟨chunks,executed,counted⟩ := @split_repeated (2 ^ 32 + 1) (by decide)
  refine ⟨chunks,executed,fun ordinals => ?_⟩
  have last : 2 ^ 32 ∈ List.range chunks.length := by
    rw [counted,List.mem_range]
    exact Nat.lt_succ_self _
  rw [← ordinals,split_numbered executed] at last
  obtain ⟨place,-,same⟩ := List.mem_map.mp last
  have := Nat.min_le_right place maxOrdinal
  rw [same] at this
  exact absurd this (by decide)

theorem split_sound_sentences : ∃ chunks, split ⟨4,8,2,9⟩ "One. Two. Three four" = .ok chunks ∧
    Sound ⟨4,8,2,9⟩ "One. Two. Three four" chunks :=
  ⟨_,rfl,(split_sound ⟨4,8,2,9⟩ "One. Two. Three four").2.1 _ rfl⟩

end Sample

end Aicortex.Chunking
