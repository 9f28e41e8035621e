import Aicortex.Text
import Aicortex.Lib.Delimited
import Mathlib.Tactic.SplitIfs

/-!
Endpoints of the embedding pipeline. An endpoint is an `https` host and a path; what the
transports put together of the two names the same host and path again, so what is asked for
is what the manifest was asked about.
-/

namespace Aicortex.Endpoints
open Aicortex.Text
set_option linter.unusedSimpArgs false

/-- The errors of the chassis that configuring and provisioning end in. -/
inductive ChassisError where
  | validation (message : List Piece)
  | config (message : List Piece)
  | denied (message : List Piece)
  | io (message : List Piece)
  | integrity (message : List Piece)
  deriving Repr, DecidableEq

structure ParsedEndpoint where
  host : String
  path : String
  deriving Repr, DecidableEq

def scheme : String := "https://"

def refuseEndpoint (endpoint why : String) : ChassisError :=
  .config [.lit "remote embedding endpoint ",.quoted endpoint,.lit why]

def isHostChar (c : Char) : Bool := isAsciiLower c || isAsciiDigit c || c == '.' || c == '-'

def isAsciiControl (c : Char) : Bool := c.toNat ≤ 0x1F || c.toNat == 0x7F

def isAsciiWhitespace (c : Char) : Bool := c == ' ' || c == '\t' || c == '\n' || c == '\x0C' || c == '\r'

/-- The checks of a host and a path, in their order. -/
def checkEndpoint (endpoint : String) (host path : List Char) : Except ChassisError ParsedEndpoint :=
  if host.isEmpty || host.contains '@' || host.head? == some '[' then
    .error (refuseEndpoint endpoint " does not name a supported host")
  else if host.contains ':' then .error (refuseEndpoint endpoint " must use the standard HTTPS port")
  else if host.isEmpty || !host.all isHostChar || host.head? == some '.' || host.getLast? == some '.' ||
      (splitOn '.' host).any List.isEmpty then
    .error (refuseEndpoint endpoint " has an invalid lowercase host")
  else if path.contains '#' || ['/','/'].isPrefixOf path || path.any (fun c => isAsciiControl c || isAsciiWhitespace c) then
    .error (refuseEndpoint endpoint " has an invalid path")
  else .ok ⟨String.ofList host,String.ofList path⟩

/-- The path of what follows the host. -/
def pathOf (rest : List Char) : List Char := if rest = [] then ['/'] else rest

def parseHttpsEndpoint (endpoint : String) : Except ChassisError ParsedEndpoint :=
  if scheme.toList.isPrefixOf endpoint.toList then
    let authority := endpoint.toList.drop scheme.toList.length
    checkEndpoint endpoint (authority.takeWhile (· != '/')) (pathOf (authority.dropWhile (· != '/')))
  else .error (refuseEndpoint endpoint " must use https")

/-- Where a transport sends a request for a host and a path. -/
def destination (host path : String) : String := scheme ++ host ++ path

/-! ### What is accepted -/

/-- Labels of lowercase letters, digits and hyphens, parted by dots. -/
structure Host (host : List Char) : Prop where
  chars : ∀ c ∈ host, isHostChar c = true
  labels : ∀ label ∈ splitOn '.' host, label ≠ []

/-- A path from the root: no second authority, no fragment, nothing that ends a header line. -/
structure Path (path : List Char) : Prop where
  root : ∃ rest, path = '/' :: rest ∧ rest.head? ≠ some '/'
  chars : ∀ c ∈ path, c ≠ '#' ∧ isAsciiControl c = false ∧ isAsciiWhitespace c = false

section
variable {host path rest : List Char}

theorem Host.nonempty (valid : Host host) : host ≠ [] := by
  rintro rfl
  exact valid.labels [] (by simp [splitOn]) rfl

/-- A host has no character that would end it or start another part of the authority. -/
theorem Host.apart (valid : Host host) {c : Char} (special : isHostChar c = false) : c ∉ host := by
  intro within
  rw [valid.chars c within] at special
  cases special

/-- Where a host starts or ends with a dot, a label is empty. -/
theorem Host.head (valid : Host host) : host.head? ≠ some '.' := by
  intro first
  obtain ⟨tail,rfl⟩ := List.head?_eq_some_iff.mp first
  refine valid.labels [] ?_ rfl
  rw [splitOn_eq,List.splitOn_cons_eq_if_modifyHead]
  simp

/-- A text that ends with the separator has an empty part after it. -/
theorem splitOn_final (separator : Char) (front : List Char) : [] ∈ (splitOn separator (front ++ [separator])).tail := by
  induction front with
  | nil => simp [splitOn]
  | cons c rest ih =>
    obtain ⟨part,parts,split⟩ : ∃ part parts, splitOn separator (rest ++ [separator]) = part :: parts := by
      rw [splitOn_eq]
      exact List.exists_cons_of_ne_nil (List.splitOn_ne_nil _ _)
    rw [split] at ih
    rw [List.cons_append,splitOn,split]
    dsimp only
    split_ifs
    · exact List.mem_cons_of_mem _ ih
    · exact ih

theorem Host.last (valid : Host host) : host.getLast? ≠ some '.' := by
  intro final
  obtain ⟨front,rfl⟩ := List.getLast?_eq_some_iff.mp final
  exact valid.labels [] (List.mem_of_mem_tail (splitOn_final '.' front)) rfl

theorem cut (apart : '/' ∉ host) (rooted : path = [] ∨ path.head? = some '/') :
    (host ++ path).takeWhile (· != '/') = host ∧ (host ++ path).dropWhile (· != '/') = path := by
  have through : ∀ c ∈ host, (c != '/') = true := fun c within => bne_iff_ne.mpr fun same => apart (same ▸ within)
  rw [List.takeWhile_append_of_pos through,List.dropWhile_append_of_pos through]
  rcases rooted with rfl | first
  · simp
  · obtain ⟨rest,rfl⟩ := List.head?_eq_some_iff.mp first
    simp

theorem checkEndpoint_ok_iff (endpoint : String) (parsed : ParsedEndpoint) (rooted : path.head? = some '/') :
    checkEndpoint endpoint host path = .ok parsed ↔
      Host host ∧ Path path ∧ parsed = ⟨String.ofList host,String.ofList path⟩ := by
  obtain ⟨rest,rfl⟩ := List.head?_eq_some_iff.mp rooted
  constructor
  · intro accepted
    unfold checkEndpoint at accepted
    split_ifs at accepted with supported port lowercase clean
    simp only [Bool.or_eq_true,not_or,Bool.not_eq_true,Bool.not_eq_false',List.all_eq_true,List.any_eq_false,
      List.isEmpty_iff,List.contains_iff_mem] at lowercase clean
    refine ⟨⟨lowercase.1.1.1.2,fun label within => by simpa using lowercase.2 label within⟩,⟨⟨rest,rfl,?_⟩,?_⟩,
      (Except.ok.inj accepted).symm⟩
    · intro second
      obtain ⟨tail,rfl⟩ := List.head?_eq_some_iff.mp second
      simp at clean
    · intro c within
      have clear := clean.2 c within
      refine ⟨fun same => ?_,?_,?_⟩
      · subst same
        simp [within] at clean
      · simpa using clear.1
      · simpa using clear.2
  · rintro ⟨named,clean,rfl⟩
    obtain ⟨_,same,single⟩ := clean.root
    cases same
    have colon : ':' ∉ host := named.apart (by decide)
    have at' : '@' ∉ host := named.apart (by decide)
    have bracket : host.head? ≠ some '[' := by
      intro first
      obtain ⟨tail,rfl⟩ := List.head?_eq_some_iff.mp first
      exact named.apart (c := '[') (by decide) List.mem_cons_self
    have fragment : '#' ∉ '/' :: rest := fun within => (clean.chars _ within).1 rfl
    have second : (['/','/'].isPrefixOf ('/' :: rest)) = false := by
      cases rest with
      | nil => rfl
      | cons c tail =>
        have other : c ≠ '/' := fun same => single (by rw [same]; rfl)
        simp [List.isPrefixOf,Ne.symm other]
    have printable : ('/' :: rest).any (fun c => isAsciiControl c || isAsciiWhitespace c) = false :=
      List.any_eq_false.mpr fun c within => by simp [(clean.chars c within).2.1,(clean.chars c within).2.2]
    have labels : (splitOn '.' host).any List.isEmpty = false :=
      List.any_eq_false.mpr fun label within => by simpa using named.labels label within
    have chars : host.all isHostChar = true := List.all_eq_true.mpr named.chars
    unfold checkEndpoint
    rw [if_neg (by simp [named.nonempty,at',bracket]),if_neg (by simp [colon]),
      if_neg (by simp [named.nonempty,chars,named.head,named.last,labels]),if_neg (by simp [fragment,second,printable])]

theorem pathOf_rooted {rest : List Char} (rooted : rest = [] ∨ rest.head? = some '/') : (pathOf rest).head? = some '/' := by
  unfold pathOf
  split_ifs with empty
  · rfl
  · exact rooted.resolve_left empty

/-- What the reader reads of a host and what follows it. -/
theorem parse_parts {endpoint : String} (apart : '/' ∉ host) (rooted : rest = [] ∨ rest.head? = some '/')
    (is : endpoint.toList = scheme.toList ++ (host ++ rest)) :
    parseHttpsEndpoint endpoint = checkEndpoint endpoint host (pathOf rest) := by
  obtain ⟨front,back⟩ := cut apart rooted
  have secure : scheme.toList.isPrefixOf endpoint.toList = true := by
    rw [List.isPrefixOf_iff_prefix,is]
    exact List.prefix_append _ _
  unfold parseHttpsEndpoint
  rw [if_pos secure]
  simp only [is,List.drop_left,front,back]

/-- The reader accepts what is a scheme, a host and a path, where the root may be left out. -/
theorem parse_ok_iff (endpoint : String) (parsed : ParsedEndpoint) :
    parseHttpsEndpoint endpoint = .ok parsed ↔ Host parsed.host.toList ∧ Path parsed.path.toList ∧
      (endpoint = destination parsed.host parsed.path ∨ (parsed.path = "/" ∧ endpoint = scheme ++ parsed.host)) := by
  constructor
  · intro parses
    by_cases secure : scheme.toList.isPrefixOf endpoint.toList = true
    · obtain ⟨authority,is⟩ := List.isPrefixOf_iff_prefix.mp secure
      have whole := List.takeWhile_append_dropWhile (p := (· != '/')) (l := authority)
      generalize front : authority.takeWhile (· != '/') = host at whole
      generalize back : authority.dropWhile (· != '/') = rest at whole
      have apart : '/' ∉ host := by
        intro within
        rw [← front] at within
        simpa using List.all_eq_true.mp List.all_takeWhile _ within
      have rooted : rest = [] ∨ rest.head? = some '/' := by
        cases rest with
        | nil => exact .inl rfl
        | cons c tail =>
          have stops := List.head?_dropWhile_not (· != '/') authority
          rw [back] at stops
          simp only [List.head?_cons,bne_eq_false_iff_eq] at stops
          exact .inr (by rw [stops]; rfl)
      rw [parse_parts apart rooted (is.symm.trans (by rw [whole]))] at parses
      obtain ⟨named,clean,rfl⟩ := (checkEndpoint_ok_iff endpoint parsed (pathOf_rooted rooted)).mp parses
      refine ⟨by rwa [String.toList_ofList],by rwa [String.toList_ofList],?_⟩
      rw [← whole] at is
      by_cases empty : rest = []
      · subst empty
        refine .inr ⟨rfl,String.toList_inj.mp ?_⟩
        simp [← is]
      · refine .inl (String.toList_inj.mp ?_)
        simp [destination,pathOf,empty,← is]
    · unfold parseHttpsEndpoint at parses
      rw [if_neg secure] at parses
      cases parses
  · rintro ⟨named,clean,whole | ⟨root,bare⟩⟩
    · obtain ⟨rest,path,single⟩ := clean.root
      have rooted : parsed.path.toList.head? = some '/' := by rw [path]; rfl
      rw [parse_parts (named.apart (by decide)) (.inr rooted) (by simp [whole,destination])]
      have same : pathOf parsed.path.toList = parsed.path.toList := by simp [pathOf,path]
      rw [same]
      exact (checkEndpoint_ok_iff endpoint parsed rooted).mpr ⟨named,clean,by simp⟩
    · rw [@parse_parts parsed.host.toList [] endpoint (named.apart (by decide)) (.inl rfl) (by simp [bare])]
      have same : pathOf [] = parsed.path.toList := by rw [root]; rfl
      rw [same]
      refine (checkEndpoint_ok_iff endpoint parsed ?_).mpr ⟨named,clean,by simp⟩
      rw [root]
      rfl

end

end Aicortex.Endpoints
