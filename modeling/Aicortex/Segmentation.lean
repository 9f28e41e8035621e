import Aicortex.Wordpiece

/-!
What encoding a text gives. The search over byte offsets is the search over the fronts of
what is left of a word, so a word becomes its greedy segmentation or the unknown token;
the words go by one after the other, and the limit only cuts the end.
-/

namespace Aicortex.Wordpiece
open Aicortex.Text Aicortex.Chunking Lib.Ordered Lib.Offsets Lib.LongestMatch
set_option linter.unusedSimpArgs false

/-- What is relied on of the linked tables: a space is decomposed by itself, and is a
    space. -/
structure SpaceApart (tables : UnicodeTables) : Prop where
  nfd : ∀ front back, tables.nfd (front ++ " " ++ back) = tables.nfd front ++ ' ' :: tables.nfd back
  category : tables.generalCategory ' ' = .spaceSeparator

namespace WordPiece
section
variable (tokenizer : WordPiece)

/-- What the vocabulary has for a piece at the start of a word or inside it. -/
def pieceId (inside : Bool) (piece : List Char) : Option UInt32 :=
  tokenizer.vocab.find? (if inside then tokenizer.subwordPrefix ++ String.ofList piece else String.ofList piece)

/-- The ids of a word by the definition of the encoding. -/
def wordIds (word : String) : List UInt32 :=
  if tokenizer.maxWordChars < word.length then [tokenizer.unkId]
  else ((segment tokenizer.pieceId false word.toList).map (fun pieces => pieces.map Prod.snd)).getD [tokenizer.unkId]

/-- The ids of a text without a limit. -/
def tokenIds (tables : UnicodeTables) (text : String) : List UInt32 := (tokenizer.words tables text).flatMap tokenizer.wordIds

end

/-! ### One piece -/

theorem charEnds_append (front back : List Char) (index : Nat) :
    charEnds (front ++ back) index = charEnds front index ++ charEnds back (index + total Char.utf8Size front) := by
  induction front generalizing index with
  | nil => rfl
  | cons c front ih => rw [List.cons_append,charEnds,charEnds,ih,List.cons_append,total_cons,Nat.add_assoc]

theorem charEnds_within {chars : List Char} {index stop : Nat} (member : stop ∈ charEnds chars index) :
    index < stop ∧ stop ≤ index + total Char.utf8Size chars := by
  induction chars generalizing index with
  | nil => cases member
  | cons c rest ih =>
    have wide := utf8Size_pos c
    rw [total_cons]
    rcases List.mem_cons.mp member with rfl | later
    · omega
    · have := ih later
      omega

/-- The ends of the characters are the ends of the fronts, the shortest first. -/
theorem charEnds_eq (chars : List Char) (index : Nat) :
    charEnds chars index = ((fronts chars).map (fun front => index + total Char.utf8Size front)).reverse := by
  induction chars generalizing index with
  | nil => rfl
  | cons c rest ih =>
    rw [charEnds,ih,fronts,List.map_append,List.reverse_append,List.map_map]
    simp only [List.map_cons,List.map_nil,List.reverse_singleton,List.singleton_append,total_cons,total_nil,Nat.add_zero,
      Function.comp_def,Nat.add_assoc]

theorem lookup_eq (tokenizer : WordPiece) (before front : List Char) :
    tokenizer.lookup (total Char.utf8Size before) (String.ofList front) = tokenizer.pieceId (!before.isEmpty) front := by
  cases before with
  | nil => rfl
  | cons c before =>
    have past : total Char.utf8Size (c :: before) ≠ 0 := fun none' => by cases (total_eq_zero utf8Size_pos).mp none'
    rw [lookup,if_neg past]
    rfl

section
variable {word : String} {before rest : List Char} (split : word.toList = before ++ rest)
include split

theorem ends_eq : ends word (total Char.utf8Size before) =
    (fronts rest).map (fun front => total Char.utf8Size before + total Char.utf8Size front) := by
  have passed : (charEnds before 0).filter (fun stop => decide (total Char.utf8Size before < stop)) = [] := by
    rw [List.filter_eq_nil_iff]
    intro stop member
    have := charEnds_within member
    simp only [decide_eq_true_eq]
    omega
  have kept : (charEnds rest (total Char.utf8Size before)).filter (fun stop => decide (total Char.utf8Size before < stop)) =
      charEnds rest (total Char.utf8Size before) := by
    rw [List.filter_eq_self]
    intro stop member
    exact decide_eq_true (charEnds_within member).1
  rw [ends,split,charEnds_append,Nat.zero_add,List.filter_append,passed,kept,List.nil_append,charEnds_eq,List.reverse_reverse]

theorem slice_eq {front : List Char} (isFront : front <+: rest) :
    slice word (total Char.utf8Size before) (total Char.utf8Size before + total Char.utf8Size front) =
      some (String.ofList front) := by
  obtain ⟨after,rfl⟩ := isFront
  have dropped : dropBytes word.toList (total Char.utf8Size before) = some (front ++ after) :=
    dropBytes_iff.mpr ⟨before,split,rfl⟩
  have taken : takeBytes (front ++ after) (total Char.utf8Size front) = some front := takeBytes_iff.mpr ⟨after,rfl,rfl⟩
  rw [slice,if_pos (Nat.le_add_right _ _),dropped,Option.bind_some,Nat.add_sub_cancel_left,taken,Option.map_some]

/-- The search from the last end down is the search from the longest front down. -/
theorem findPiece_eq (tokenizer : WordPiece) : tokenizer.findPiece word (total Char.utf8Size before) =
    (longest tokenizer.pieceId (!before.isEmpty) rest).map
      (fun found => (found.2,total Char.utf8Size before + total Char.utf8Size found.1)) := by
  rw [findPiece,ends_eq split,List.findSome?_map,longest,List.map_findSome?,← List.head?_filterMap,← List.head?_filterMap]
  refine congrArg List.head? (List.filterMap_congr fun front member => ?_)
  rw [Function.comp_apply,slice_eq split (mem_fronts.mp member).2,Option.bind_some,lookup_eq,Function.comp_apply,
    Option.map_map]
  rfl

end

/-! ### One word -/

/-- From any offset where a piece starts the loop finds the segmentation of the rest. -/
theorem piecesFrom_eq (tokenizer : WordPiece) {word : String} {before rest : List Char} {fuel : Nat}
    (split : word.toList = before ++ rest) (enough : total Char.utf8Size rest ≤ fuel) (pieces : List UInt32) :
    tokenizer.piecesFrom word fuel (total Char.utf8Size before) pieces =
      (segment tokenizer.pieceId (!before.isEmpty) rest).map (fun found => pieces ++ found.map Prod.snd) := by
  have whole : byteLen word = total Char.utf8Size before + total Char.utf8Size rest := by
    rw [← total_append,← split]
    rfl
  induction fuel generalizing before rest pieces with
  | zero =>
    obtain rfl := (total_eq_zero utf8Size_pos).mp (Nat.le_zero.mp enough)
    simp [piecesFrom]
  | succ fuel ih =>
    rw [piecesFrom]
    by_cases empty : rest = []
    · subst empty
      rw [if_neg (by simp [whole])]
      simp
    have more : total Char.utf8Size rest ≠ 0 := fun none' => empty ((total_eq_zero utf8Size_pos).mp none')
    rw [if_pos (by omega),findPiece_eq split]
    cases found : longest tokenizer.pieceId (!before.isEmpty) rest with
    | none => rw [segment_of_none empty found,Option.map_none]; rfl
    | some result =>
      obtain ⟨front,id⟩ := result
      have isLongest := longest_eq_some_iff.mp found
      obtain ⟨after,rfl⟩ := isLongest.front
      have wide : total Char.utf8Size front ≠ 0 := fun none' => isLongest.nonempty ((total_eq_zero utf8Size_pos).mp none')
      rw [total_append] at enough whole
      have inside : (!(before ++ front).isEmpty) = true := by simp [isLongest.nonempty]
      have further : word.toList = (before ++ front) ++ after := by rw [split,List.append_assoc]
      have step := ih further (by omega) (pieces ++ [id]) (by rw [total_append]; omega)
      rw [total_append,inside] at step
      rw [segment_of_some found,List.drop_left,Option.map_some,Option.map_map]
      refine step.trans (congrArg (Option.map · _) (funext fun found => ?_))
      simp

theorem pushWord_eq (tokenizer : WordPiece) (word : String) (ids : List UInt32) :
    tokenizer.pushWord word ids = ids ++ tokenizer.wordIds word := by
  have whole : word.toList = [] ++ word.toList := rfl
  have pieces := tokenizer.piecesFrom_eq whole (Nat.le_refl (byteLen word)) []
  rw [pushWord,wordIds]
  split_ifs with long
  · rfl
  · rw [total_nil,List.isEmpty_nil,Bool.not_true] at pieces
    rw [pieces]
    cases segment tokenizer.pieceId false word.toList <;> rfl

/-- A word becomes the ids of its segmentation, or where it has none, or is too long to
    be tried, the unknown token. -/
theorem wordIds_cases (tokenizer : WordPiece) (word : String) :
    (∃ pieces, word.length ≤ tokenizer.maxWordChars ∧ Segmented tokenizer.pieceId false word.toList pieces ∧
      tokenizer.wordIds word = pieces.map Prod.snd) ∨
    ((tokenizer.maxWordChars < word.length ∨ ∀ pieces, ¬ Segmented tokenizer.pieceId false word.toList pieces) ∧
      tokenizer.wordIds word = [tokenizer.unkId]) := by
  rw [wordIds]
  split_ifs with long
  · exact .inr ⟨.inl long,rfl⟩
  · cases found : segment tokenizer.pieceId false word.toList with
    | none =>
      refine .inr ⟨.inr fun pieces segmented => ?_,rfl⟩
      rw [segment_eq_some_iff.mpr segmented] at found
      cases found
    | some pieces => exact .inl ⟨pieces,not_lt.mp long,segment_eq_some_iff.mp found,rfl⟩

/-! ### All words -/

/-- Stopping at the limit loses nothing the limit would have kept. -/
theorem pushWords_take (tokenizer : WordPiece) (limit : Nat) (words : List String) (ids : List UInt32) :
    (tokenizer.pushWords limit words ids).take limit = (ids ++ words.flatMap tokenizer.wordIds).take limit := by
  induction words generalizing ids with
  | nil => simp [pushWords]
  | cons word rest ih =>
    rw [pushWords]
    split_ifs with full
    · exact (List.take_append_of_le_length full).symm
    · rw [ih,pushWord_eq,List.flatMap_cons,List.append_assoc]

theorem encode_eq (tokenizer : WordPiece) (tables : UnicodeTables) (text : String) (limit : Nat) :
    tokenizer.encode tables text limit = (tokenizer.tokenIds tables text).take limit := by
  rw [encode,pushWords_take,List.nil_append]
  rfl

/-! ### The words of a text -/

section
variable (tokenizer : WordPiece) (tables : UnicodeTables)

/-- A character that is a word by itself. -/
def isMark (c : Char) : Bool := tokenizer.splitPunctuation && isPunctuation tables c

def inWord (c : Char) : Bool := !isWhitespace c && !tokenizer.isMark tables c

/-- The words of a normalized text by their definition: its longest runs without blanks
    and marks, and its marks. -/
def wordRuns : List Char → List (List Char)
  | [] => []
  | c :: rest =>
    if isWhitespace c then wordRuns rest
    else if tokenizer.isMark tables c then [c] :: wordRuns rest
    else (c :: rest.takeWhile (tokenizer.inWord tables)) :: wordRuns (rest.dropWhile (tokenizer.inWord tables))
  termination_by chars => chars.length
  decreasing_by
    · simp
    · simp
    · exact Nat.lt_succ_of_le (List.dropWhile_sublist _).length_le

end

section
variable (tokenizer : WordPiece) (tables : UnicodeTables) (current : List Char)

theorem flush_append (words more : List String) : flush current (words ++ more) = words ++ flush current more := by
  unfold flush
  split_ifs <;> simp

theorem splitChar_append (words : List String) (more : List String) (c : Char) :
    tokenizer.splitChar tables (current,words ++ more) c =
      ((tokenizer.splitChar tables (current,more) c).1,words ++ (tokenizer.splitChar tables (current,more) c).2) := by
  unfold splitChar
  split_ifs <;> simp [flush_append]

/-- The words there were before stand before those the loop adds. -/
theorem foldl_splitChar (chars : List Char) (words : List String) :
    chars.foldl (tokenizer.splitChar tables) (current,words) =
      ((chars.foldl (tokenizer.splitChar tables) (current,[])).1,
        words ++ (chars.foldl (tokenizer.splitChar tables) (current,[])).2) := by
  induction chars generalizing current words with
  | nil => simp
  | cons c rest ih =>
    have first := tokenizer.splitChar_append tables current words [] c
    rw [List.append_nil] at first
    rw [List.foldl_cons,List.foldl_cons,first]
    generalize tokenizer.splitChar tables (current,[]) c = state
    rw [ih state.1 (words ++ state.2),ih state.1 state.2,List.append_assoc]

/-- What the loop makes of the rest of a text with a word begun. -/
def wordsFrom (chars : List Char) : List String :=
  flush (chars.foldl (tokenizer.splitChar tables) (current,[])).1 (chars.foldl (tokenizer.splitChar tables) (current,[])).2

theorem flush_foldl (chars : List Char) (words : List String) :
    flush (chars.foldl (tokenizer.splitChar tables) (current,words)).1 (chars.foldl (tokenizer.splitChar tables) (current,words)).2 =
      words ++ tokenizer.wordsFrom tables current chars := by
  rw [foldl_splitChar,flush_append]
  rfl

theorem wordsFrom_cons (c : Char) (rest : List Char) : tokenizer.wordsFrom tables current (c :: rest) =
    if isWhitespace c then flush current [] ++ tokenizer.wordsFrom tables [] rest
    else if tokenizer.isMark tables c then flush current [] ++ [String.singleton c] ++ tokenizer.wordsFrom tables [] rest
    else tokenizer.wordsFrom tables (current ++ [c]) rest := by
  rw [wordsFrom,List.foldl_cons,splitChar,isMark]
  split_ifs
  · exact tokenizer.flush_foldl tables [] rest _
  · exact tokenizer.flush_foldl tables [] rest _
  · rfl

@[simp] theorem wordRuns_nil : tokenizer.wordRuns tables [] = [] := by rw [wordRuns.eq_def]

theorem wordRuns_cons (c : Char) (rest : List Char) : tokenizer.wordRuns tables (c :: rest) =
    if isWhitespace c then tokenizer.wordRuns tables rest
    else if tokenizer.isMark tables c then [c] :: tokenizer.wordRuns tables rest
    else (c :: rest.takeWhile (tokenizer.inWord tables)) ::
      tokenizer.wordRuns tables (rest.dropWhile (tokenizer.inWord tables)) := by rw [wordRuns.eq_def]

/-- A word begun goes on to the end of its run. -/
theorem wordsFrom_eq (chars : List Char) : tokenizer.wordsFrom tables current chars =
    (if current = [] then tokenizer.wordRuns tables chars
      else (current ++ chars.takeWhile (tokenizer.inWord tables)) ::
        tokenizer.wordRuns tables (chars.dropWhile (tokenizer.inWord tables))).map String.ofList := by
  induction chars generalizing current with
  | nil => by_cases empty : current = [] <;> simp [wordsFrom,flush,empty]
  | cons c rest ih =>
    rw [wordsFrom_cons,ih [],ih (current ++ [c]),wordRuns_cons]
    by_cases blank : isWhitespace c = true
    · by_cases empty : current = [] <;> simp [blank,flush,empty,inWord,wordRuns_cons]
    · by_cases mark : tokenizer.isMark tables c = true
      · by_cases empty : current = [] <;> simp [blank,mark,flush,empty,inWord,wordRuns_cons]
      · by_cases empty : current = [] <;> simp [blank,mark,empty,inWord]

/-- The loop over the characters finds the words of the normalized text. -/
theorem words_eq (text : String) :
    tokenizer.words tables text = (tokenizer.wordRuns tables (tokenizer.normalize tables text)).map String.ofList :=
  tokenizer.wordsFrom_eq tables [] _

theorem wordsFrom_blank {c : Char} (blank : isWhitespace c = true) (front back : List Char) :
    tokenizer.wordsFrom tables current (front ++ c :: back) =
      tokenizer.wordsFrom tables current front ++ tokenizer.wordsFrom tables [] back := by
  induction front generalizing current with
  | nil =>
    rw [List.nil_append,wordsFrom_cons,if_pos blank]
    rfl
  | cons first front ih =>
    rw [List.cons_append,wordsFrom_cons,wordsFrom_cons]
    split_ifs
    · rw [ih,List.append_assoc]
    · rw [ih,List.append_assoc,List.append_assoc,List.append_assoc]
    · exact ih _

end

section
variable (tokenizer : WordPiece) {tables : UnicodeTables} (apart : SpaceApart tables) (front back : String)
include apart

theorem normalizeChar_space : tokenizer.normalizeChar tables ' ' = [' '] := by
  have kept : isRemovableControl tables ' ' = false := by
    simp only [isRemovableControl,apart.category]
    decide
  have narrow : isCjk ' ' = false := by decide
  have lower : toLowercase tables ' ' = [' '] := rfl
  rw [normalizeChar,kept,narrow,lower]
  simp

theorem normalize_space : tokenizer.normalize tables (front ++ " " ++ back) =
    tokenizer.normalize tables front ++ ' ' :: tokenizer.normalize tables back := by
  have unmarked : isCombiningMark tables ' ' = false := by
    rw [isCombiningMark,apart.category]
    rfl
  have spaced : (front ++ " " ++ back).toList = front.toList ++ ' ' :: back.toList := by simp
  unfold normalize
  split_ifs
  · simp [apart.nfd,unmarked,tokenizer.normalizeChar_space apart]
  · simp [spaced,tokenizer.normalizeChar_space apart]

theorem words_space : tokenizer.words tables (front ++ " " ++ back) =
    tokenizer.words tables front ++ tokenizer.words tables back := by
  have split := tokenizer.wordsFrom_blank tables [] (c := ' ') (by decide) (tokenizer.normalize tables front)
    (tokenizer.normalize tables back)
  rw [← tokenizer.normalize_space apart] at split
  exact split

theorem tokenIds_space : tokenizer.tokenIds tables (front ++ " " ++ back) =
    tokenizer.tokenIds tables front ++ tokenizer.tokenIds tables back := by
  rw [tokenIds,words_space tokenizer apart,List.flatMap_append]
  rfl

end

/-! ### The ids -/

theorem wordIds_known (tokenizer : WordPiece) {word : String} {id : UInt32} (member : id ∈ tokenizer.wordIds word) :
    ∃ token, tokenizer.vocab.find? token = some id := by
  rcases tokenizer.wordIds_cases word with ⟨pieces,-,segmented,ids⟩ | ⟨-,unknown⟩
  · rw [ids] at member
    obtain ⟨piece,isPiece,rfl⟩ := List.mem_map.mp member
    obtain ⟨inside,found⟩ := segmented.pieces_known piece isPiece
    exact ⟨_,found⟩
  · rw [unknown,List.mem_singleton] at member
    rw [member]
    exact tokenizer.known

theorem lt_idBound (tokenizer : WordPiece) {token : String} {id : UInt32} (found : tokenizer.vocab.find? token = some id) :
    id.toNat < tokenizer.idBound := by
  have member : id.toNat ∈ tokenizer.vocab.values.map UInt32.toNat :=
    List.mem_map_of_mem ((OrdMap.mem_values _ _).mpr ⟨token,found⟩)
  have narrow := id.toNat_lt
  rw [idBound]
  cases largest : (tokenizer.vocab.values.map UInt32.toNat).max? with
  | none => simp [List.max?_eq_none_iff.mp largest] at member
  | some most =>
    have below := (List.max?_eq_some_iff.mp largest).2 id.toNat member
    simp only [Option.elim_some]
    omega

theorem encode_ids (tokenizer : WordPiece) {tables : UnicodeTables} {text : String} {limit : Nat} {id : UInt32}
    (member : id ∈ tokenizer.encode tables text limit) :
    (∃ token, tokenizer.vocab.find? token = some id) ∧ id.toNat < tokenizer.idBound := by
  rw [encode_eq] at member
  obtain ⟨word,-,inWord⟩ := List.mem_flatMap.mp (List.mem_of_mem_take member)
  obtain ⟨token,found⟩ := tokenizer.wordIds_known inWord
  exact ⟨⟨token,found⟩,tokenizer.lt_idBound found⟩

/-- A limit that is not reached leaves nothing out. -/
theorem uncut (tokenizer : WordPiece) {tables : UnicodeTables} {text : String} {limit : Nat}
    (below : (tokenizer.encode tables text limit).length < limit) : (tokenizer.tokenIds tables text).length ≤ limit := by
  rw [encode_eq,List.length_take] at below
  omega

/-- What one character becomes in the normalized text. -/
inductive Normalized (tokenizer : WordPiece) (tables : UnicodeTables) (c : Char) : List Char → Prop
  | dropped (clean : tokenizer.cleanText = true) (control : isRemovableControl tables c = true) :
      Normalized tokenizer tables c []
  | isolated (kept : ¬ (tokenizer.cleanText = true ∧ isRemovableControl tables c = true)) (split : tokenizer.splitCjk = true)
      (cjk : isCjk c = true) : Normalized tokenizer tables c [' ',c,' ']
  | lowered (kept : ¬ (tokenizer.cleanText = true ∧ isRemovableControl tables c = true))
      (joined : ¬ (tokenizer.splitCjk = true ∧ isCjk c = true)) (lowers : tokenizer.lowercase = true) :
      Normalized tokenizer tables c (toLowercase tables c)
  | same (kept : ¬ (tokenizer.cleanText = true ∧ isRemovableControl tables c = true))
      (joined : ¬ (tokenizer.splitCjk = true ∧ isCjk c = true)) (cased : tokenizer.lowercase = false) :
      Normalized tokenizer tables c [c]

theorem normalizeChar_normalized (tokenizer : WordPiece) (tables : UnicodeTables) (c : Char) :
    Normalized tokenizer tables c (tokenizer.normalizeChar tables c) := by
  unfold normalizeChar
  split_ifs with removed isolated lowers
  · obtain ⟨clean,control⟩ := Bool.and_eq_true_iff.mp removed
    exact .dropped clean control
  · obtain ⟨split,cjk⟩ := Bool.and_eq_true_iff.mp isolated
    exact .isolated (fun both => removed (Bool.and_eq_true_iff.mpr both)) split cjk
  · exact .lowered (fun both => removed (Bool.and_eq_true_iff.mpr both)) (fun both => isolated (Bool.and_eq_true_iff.mpr both)) lowers
  · exact .same (fun both => removed (Bool.and_eq_true_iff.mpr both)) (fun both => isolated (Bool.and_eq_true_iff.mpr both))
      (Bool.eq_false_iff.mpr lowers)

/-- The characters of a text, decomposed and without their accents where these are stripped. -/
def Stripped (tokenizer : WordPiece) (tables : UnicodeTables) (text : String) (chars : List Char) : Prop :=
  (tokenizer.stripAccents = true ∧ chars = (tables.nfd text).filter (fun c => !isCombiningMark tables c)) ∨
    (tokenizer.stripAccents = false ∧ chars = text.toList)

theorem normalize_parts (tokenizer : WordPiece) (tables : UnicodeTables) (text : String) :
    ∃ chars parts, Stripped tokenizer tables text chars ∧ List.Forall₂ (Normalized tokenizer tables) chars parts ∧
      tokenizer.normalize tables text = parts.flatten := by
  have each : ∀ chars : List Char, List.Forall₂ (Normalized tokenizer tables) chars (chars.map (tokenizer.normalizeChar tables)) :=
    fun chars => List.forall₂_map_right_iff.mpr (List.forall₂_same.mpr fun c _ => tokenizer.normalizeChar_normalized tables c)
  unfold normalize
  cases strips : tokenizer.stripAccents with
  | true => exact ⟨_,_,.inl ⟨strips,rfl⟩,each _,by simp [List.flatMap_def]⟩
  | false => exact ⟨_,_,.inr ⟨strips,rfl⟩,each _,by simp [List.flatMap_def]⟩

/-- Encoding by its definition. The normalized text is the characters of the text without
    their accents, each dropped, put apart, lowered or as it is; the words are its runs; the
    ids of a text are those of its words, up to the limit; a word becomes the ids of the only
    pieces it is made of that are each the longest the vocabulary has at their place, or
    the unknown token. Every id is one of the vocabulary and below its bound, a smaller
    limit gives less of the same, and a space between two texts keeps them apart. -/
theorem encode_meets_definition (tokenizer : WordPiece) (tables : UnicodeTables) :
    (∀ text, ∃ chars parts, Stripped tokenizer tables text chars ∧
      List.Forall₂ (Normalized tokenizer tables) chars parts ∧ tokenizer.normalize tables text = parts.flatten) ∧
    (∀ text, tokenizer.words tables text =
      (tokenizer.wordRuns tables (tokenizer.normalize tables text)).map String.ofList) ∧
    (∀ text limit, tokenizer.encode tables text limit = ((tokenizer.words tables text).flatMap tokenizer.wordIds).take limit) ∧
    (∀ word, (∃ pieces, word.length ≤ tokenizer.maxWordChars ∧ Segmented tokenizer.pieceId false word.toList pieces ∧
        (∀ others, Segmented tokenizer.pieceId false word.toList others → others = pieces) ∧
        (pieces.map Prod.fst).flatten = word.toList ∧ tokenizer.wordIds word = pieces.map Prod.snd) ∨
      ((tokenizer.maxWordChars < word.length ∨ ∀ pieces, ¬ Segmented tokenizer.pieceId false word.toList pieces) ∧
        tokenizer.wordIds word = [tokenizer.unkId])) ∧
    (∀ text limit, ∀ id ∈ tokenizer.encode tables text limit,
      (∃ token, tokenizer.vocab.find? token = some id) ∧ id.toNat < tokenizer.idBound) ∧
    (∀ text less more, less ≤ more → tokenizer.encode tables text less <+: tokenizer.encode tables text more) ∧
    (SpaceApart tables → ∀ front back limit first second,
      (tokenizer.tokenIds tables (front ++ " " ++ back)).length ≤ limit → (tokenizer.tokenIds tables front).length ≤ first →
      (tokenizer.tokenIds tables back).length ≤ second →
      tokenizer.encode tables (front ++ " " ++ back) limit =
        tokenizer.encode tables front first ++ tokenizer.encode tables back second) := by
  refine ⟨tokenizer.normalize_parts tables,tokenizer.words_eq tables,tokenizer.encode_eq tables,?_,?_,?_,?_⟩
  · intro word
    rcases tokenizer.wordIds_cases word with ⟨pieces,short,segmented,ids⟩ | unknown
    · exact .inl ⟨pieces,short,segmented,fun others also => also.unique segmented,segmented.text_eq,ids⟩
    · exact .inr unknown
  · exact fun text limit id member => tokenizer.encode_ids member
  · intro text less more ordered
    rw [encode_eq,encode_eq]
    have shorter := List.take_prefix less ((tokenizer.tokenIds tables text).take more)
    rwa [List.take_take,Nat.min_eq_left ordered] at shorter
  · intro apart front back limit first second whole left right
    rw [encode_eq,encode_eq,encode_eq,List.take_of_length_le whole,List.take_of_length_le left,List.take_of_length_le right]
    exact tokenizer.tokenIds_space apart front back

end WordPiece

namespace Sample

/-- The accented letter that is decomposed, and the accent it leaves. -/
def latin : UnicodeTables where
  nfd := fun text => text.toList.flatMap (fun c => if c.toNat = 0xE9 then ['e',Char.ofNat 0x301] else [c])
  generalCategory := fun c =>
    if c.toNat = 0x301 then .nonspacingMark
    else if c = ' ' then .spaceSeparator
    else if isAsciiPunctuation c then .otherPunctuation
    else .lowercaseLetter
  lowercase := fun c => [c]

theorem latin_spaceApart : SpaceApart latin := by
  refine ⟨fun front back => ?_,by decide⟩
  simp [latin]

def vocab : OrdMap String UInt32 :=
  [("[UNK]",0),("hello",1),("world",2),("un",3),("##aff",4),("##able",5),("!",6),(",",7),("cafe",8)].foldl
    (fun vocab entry => vocab.insert entry.1 entry.2) .empty

def bert : WordPiece where
  vocab := vocab
  unkId := 0
  subwordPrefix := defaultPrefix
  maxWordChars := defaultMaxWordChars
  lowercase := true
  stripAccents := true
  cleanText := true
  splitCjk := true
  splitPunctuation := true
  known := ⟨"[UNK]",by decide +kernel⟩

example : bert.encode latin "Hello, unaffable caf\u00e9!" 16 = [1,7,3,4,5,8,6] := by decide +kernel

theorem encode_meets_definition_bert :
    bert.normalize latin "Caf\u00e9" = "cafe".toList ∧ bert.encode latin "Caf\u00e9" 8 = [8] ∧
      bert.encode latin "unaffable!" 8 = [3,4,5,6] ∧
      bert.encode latin ("Caf\u00e9" ++ " " ++ "unaffable!") 9 = [8] ++ [3,4,5,6] := by
  have front : bert.encode latin "Caf\u00e9" 8 = [8] := by decide +kernel
  have back : bert.encode latin "unaffable!" 8 = [3,4,5,6] := by decide +kernel
  have joined := (bert.encode_meets_definition latin).2.2.2.2.2.2 latin_spaceApart "Caf\u00e9" "unaffable!" 9 8 8
    (bert.uncut (by decide +kernel)) (bert.uncut (by decide +kernel)) (bert.uncut (by decide +kernel))
  exact ⟨by decide +kernel,front,back,by rw [joined,front,back]⟩

end Sample

end Aicortex.Wordpiece
