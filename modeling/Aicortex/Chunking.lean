import Aicortex.Text
import Mathlib.Data.List.Sort
import Mathlib.Data.List.Dedup
import Mathlib.Data.List.Range

/-!
Cutting a body into chunks. Sentence boundaries are preferred, a sentence longer than
the target is cut at the nearest character boundary, and neighbours overlap. Offsets
count the bytes of the UTF-8 form; nothing of the body is changed.
-/

namespace Aicortex.Chunking
open Aicortex.Text
set_option linter.unusedSimpArgs false

inductive ChunkError where
  | config (message : String)
  | validation (message : String)
  deriving Repr, DecidableEq

/-- Chunking thresholds, in bytes. -/
structure ChunkConfig where
  thresholdBytes : Nat
  targetBytes : Nat
  overlapBytes : Nat
  maxChunksPerMemory : Nat
  deriving Repr, DecidableEq

def ChunkConfig.validate (config : ChunkConfig) : Except ChunkError ChunkConfig :=
  if config.thresholdBytes = 0 ∨ config.targetBytes = 0 ∨ config.maxChunksPerMemory = 0 then
    .error (.config "chunk threshold, target, and chunk ceiling must be non-zero")
  else if config.targetBytes / 2 < config.overlapBytes then
    .error (.config s!"chunk overlap {config.overlapBytes} must not exceed half the target {config.targetBytes}")
  else .ok config

/-- One slice of the original body. -/
structure Chunk where
  ordinal : Nat
  byteStart : Nat
  byteEnd : Nat
  text : String
  deriving Repr, DecidableEq

/-! ### Characters and their offsets -/

/-- The text from a byte offset on, if a character starts or the text ends there. -/
def dropBytes : List Char → Nat → Option (List Char)
  | chars, 0 => some chars
  | [], _ + 1 => none
  | c :: rest, offset => if c.utf8Size ≤ offset then dropBytes rest (offset - c.utf8Size) else none

/-- The text up to a byte offset, if a character starts or the text ends there. -/
def takeBytes : List Char → Nat → Option (List Char)
  | _, 0 => some []
  | [], _ + 1 => none
  | c :: rest, offset => if c.utf8Size ≤ offset then (takeBytes rest (offset - c.utf8Size)).map (c :: ·) else none

def isCharBoundary (body : String) (offset : Nat) : Bool := (dropBytes body.toList offset).isSome

def floorFrom (body : String) : Nat → Nat
  | 0 => 0
  | offset + 1 => if isCharBoundary body (offset + 1) then offset + 1 else floorFrom body offset

/-- The nearest character boundary at or below an offset. -/
def utf8Floor (body : String) (offset : Nat) : Nat := floorFrom body (min offset (byteLen body))

/-- Where the character after the one at an offset starts, relative to it. -/
def secondChar (body : String) (start : Nat) : Option Nat :=
  match dropBytes body.toList start with
  | some (first :: _ :: _) => some first.utf8Size
  | _ => none

/-- The boundaries after newlines and after the space that follows a sentence's end. -/
def boundariesFrom : List Char → Nat → Bool → List Nat
  | [], _, _ => []
  | c :: rest, offset, sentenceEnd =>
    let after := offset + c.utf8Size
    if c = '\n' then after :: boundariesFrom rest after false
    else if c = '.' ∨ c = '!' ∨ c = '?' then boundariesFrom rest after true
    else if sentenceEnd && isWhitespace c then after :: boundariesFrom rest after false
    else boundariesFrom rest after (if !isWhitespace c then false else sentenceEnd)

def sentenceBoundaries (body : String) : List Nat :=
  let boundaries := 0 :: boundariesFrom body.toList 0 false
  let boundaries := if boundaries.getLast? = some (byteLen body) then boundaries else boundaries ++ [byteLen body]
  (boundaries.insertionSort (· ≤ ·)).dedup

/-! ### The split -/

def maxOrdinal : Nat := 2 ^ 32 - 1

def chunk (body : String) (ordinal start stop : Nat) : Chunk :=
  ⟨ordinal,start,stop,String.ofList (((dropBytes body.toList start).bind (takeBytes · (stop - start))).getD [])⟩

/-- An offset past the start: the one proposed, or else the start of the next character,
    or, where there is no further character, the fallback. -/
def advance (body : String) (start fallback proposed : Nat) : Nat :=
  if proposed ≤ start then (secondChar body start).elim fallback (start + ·) else proposed

section
variable (config : ChunkConfig) (body : String) (boundaries : List Nat)

/-- The last boundary past the start and up to a limit. -/
def lastBoundary (start limit : Nat) : Option Nat :=
  boundaries.reverse.find? (fun boundary => decide (start < boundary) && decide (boundary ≤ limit))

/-- Where the chunk that starts at an offset ends. -/
def chunkEnd (start previousEnd : Nat) : Nat :=
  let target := min (start + config.targetBytes) (byteLen body)
  let stop := (lastBoundary boundaries start target).getD (utf8Floor body target)
  let stop := if stop < byteLen body ∧ stop - start ≤ config.overlapBytes then utf8Floor body target else stop
  advance body start (byteLen body) (if stop ≤ previousEnd then utf8Floor body target else stop)

/-- Where the chunk after the one from start to stop starts. -/
def nextStart (start stop : Nat) : Nat :=
  let desired := stop - config.overlapBytes
  advance body start stop ((lastBoundary boundaries start desired).getD (utf8Floor body desired))

/-- The loop over the starts. Each is past the one before, so as much fuel as the body
    has bytes left is enough. -/
def splitFrom : Nat → Nat → List Chunk → Except ChunkError (List Chunk)
  | 0, _, chunks => .ok chunks
  | fuel + 1, start, chunks =>
    if start < byteLen body then
      let stop := chunkEnd config body boundaries start ((chunks.getLast?.map Chunk.byteEnd).getD 0)
      let chunks := chunks ++ [chunk body (min chunks.length maxOrdinal) start stop]
      if config.maxChunksPerMemory < chunks.length then
        .error (.validation s!"memory requires more than {config.maxChunksPerMemory} chunks")
      else if stop = byteLen body then .ok chunks
      else splitFrom fuel (nextStart config body boundaries start stop) chunks
    else .ok chunks

end

/-- Split a body without changing a byte. -/
def split (config : ChunkConfig) (body : String) : Except ChunkError (List Chunk) :=
  if body.toList = [] then .ok []
  else if byteLen body ≤ config.thresholdBytes then .ok [chunk body 0 0 (byteLen body)]
  else splitFrom config body (sentenceBoundaries body) (byteLen body) 0 []

/-! ### Progress -/

theorem utf8Size_pos (c : Char) : 0 < c.utf8Size := Char.utf8Size_pos c

theorem secondChar_pos {body : String} {start offset : Nat} (found : secondChar body start = some offset) : 0 < offset := by
  unfold secondChar at found
  split at found
  · next first _ _ _ =>
    rw [← Option.some.inj found]
    exact utf8Size_pos first
  · cases found

theorem lt_advance {body : String} {start fallback : Nat} (past : start < fallback) (proposed : Nat) :
    start < advance body start fallback proposed := by
  unfold advance
  split_ifs with short
  · cases found : secondChar body start with
    | none => exact past
    | some offset =>
      have := secondChar_pos found
      show start < start + offset
      omega
  · omega

section
variable {config : ChunkConfig} {body : String} {boundaries : List Nat}

theorem lt_chunkEnd {start : Nat} (inside : start < byteLen body) (previousEnd : Nat) :
    start < chunkEnd config body boundaries start previousEnd :=
  lt_advance inside _

theorem lt_nextStart {start stop : Nat} (past : start < stop) : start < nextStart config body boundaries start stop :=
  lt_advance past _

/-- Fuel for the bytes that are left is enough: more does not change the result. -/
theorem splitFrom_fuel {fuel start : Nat} {chunks : List Chunk} (enough : byteLen body - start ≤ fuel) (more : Nat) :
    splitFrom config body boundaries (fuel + more) start chunks = splitFrom config body boundaries fuel start chunks := by
  induction fuel generalizing start chunks with
  | zero =>
    have past : ¬ start < byteLen body := by omega
    cases more with
    | zero => rfl
    | succ more =>
      show splitFrom config body boundaries (0 + more + 1) start chunks = .ok chunks
      rw [splitFrom,if_neg past]
  | succ fuel ih =>
    rw [show fuel + 1 + more = fuel + more + 1 by omega,splitFrom,splitFrom]
    by_cases inside : start < byteLen body
    · rw [if_pos inside,if_pos inside]
      dsimp only
      rw [ih]
      have past := @lt_nextStart config body boundaries _ _
        (@lt_chunkEnd config body boundaries _ inside ((chunks.getLast?.map Chunk.byteEnd).getD 0))
      omega
    · rw [if_neg inside,if_neg inside]

/-! ### Ordinals -/

/-- The ordinals a list of chunks is numbered with. -/
def numbered (count : Nat) : List Nat := (List.range count).map (min · maxOrdinal)

theorem splitFrom_numbered {fuel start : Nat} {chunks result : List Chunk}
    (before : chunks.map Chunk.ordinal = numbered chunks.length)
    (executed : splitFrom config body boundaries fuel start chunks = .ok result) :
    result.map Chunk.ordinal = numbered result.length := by
  induction fuel generalizing start chunks with
  | zero =>
    cases executed
    exact before
  | succ fuel ih =>
    rw [splitFrom] at executed
    by_cases inside : start < byteLen body
    · rw [if_pos inside] at executed
      dsimp only at executed
      have longer : ∀ stop, (chunks ++ [chunk body (min chunks.length maxOrdinal) start stop]).map Chunk.ordinal =
          numbered (chunks ++ [chunk body (min chunks.length maxOrdinal) start stop]).length := by
        intro stop
        rw [List.map_append,before,List.length_append,List.length_singleton]
        unfold numbered
        rw [List.range_succ,List.map_append]
        rfl
      split_ifs at executed
      · cases executed
        exact longer _
      · exact ih (longer _) executed
    · rw [if_neg inside] at executed
      cases executed
      exact before

end

/-- The chunks of a body are numbered from zero on. -/
theorem split_numbered {config : ChunkConfig} {body : String} {chunks : List Chunk}
    (executed : split config body = .ok chunks) : chunks.map Chunk.ordinal = numbered chunks.length := by
  unfold split at executed
  split_ifs at executed
  · cases executed
    rfl
  · cases executed
    rfl
  · exact splitFrom_numbered rfl executed

/-- Chunks that differ in their ordinals are numbered by their places. -/
theorem split_range {config : ChunkConfig} {body : String} {chunks : List Chunk}
    (executed : split config body = .ok chunks) (distinct : (chunks.map Chunk.ordinal).Nodup) :
    chunks.map Chunk.ordinal = List.range chunks.length := by
  have is := split_numbered executed
  rw [is] at distinct ⊢
  -- past the largest ordinal the last two would be alike
  have short : chunks.length ≤ maxOrdinal + 1 := by
    by_contra long
    have inside : ∀ place ≤ maxOrdinal + 1, place < (List.range chunks.length).length := by
      intro place upTo
      rw [List.length_range]
      omega
    have same := List.nodup_iff_injective_get.mp distinct
    have alike := @same ⟨maxOrdinal,by rw [numbered,List.length_map]; exact inside _ (by omega)⟩
      ⟨maxOrdinal + 1,by rw [numbered,List.length_map]; exact inside _ (by omega)⟩ (by simp [numbered])
    simp at alike
  refine (List.map_congr_left fun place member => ?_).trans (List.map_id _)
  have upTo : place ≤ maxOrdinal := by
    have := List.mem_range.mp member
    omega
  exact Nat.min_eq_left upTo

example : (split ⟨4,8,2,9⟩ "One. Two. Three four").toOption.map (List.map fun chunk => (chunk.byteStart,chunk.byteEnd)) =
    some [(0,5),(3,10),(5,13),(10,18),(16,20)] := by decide +kernel

end Aicortex.Chunking
