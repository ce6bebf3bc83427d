import TreeGlob.Pattern.Brace

/-!
Matching paths. A path is a text whose components are separated by `/`; it is matched as a whole,
with the segments trying their ways from left to right.

* `Segment.matchAll` decides whether segments match a whole path.
* `Segment.mayExtend` decides whether a path can still grow into one that they match. It is the same
  search, except that the path may end early.
* `Pattern.verdict` asks both at once about a path that may turn out to be a directory.

Main statements: every way a star can go leaves a rest of the path, and the shortest way leaves all of
it.
-/
namespace TreeGlob

/-- Whether a constant's character matches a path's character. Without regard to case the lower case
images count, whole. -/
def sameChar (caseSensitive : Bool) (a b : Char) : Bool :=
  a = b || (!caseSensitive && Unicode.toLower a == Unicode.toLower b)

/-- How a constant meets the rest of a path. -/
inductive Fit where
  /-- It matches, and this is left of the path. -/
  | consumed (rest : Text)
  /-- It matches as far as the path goes, which ends inside it. -/
  | pathEnds
  | mismatch
deriving Repr, DecidableEq

/-- Lays a constant against a path, character by character. -/
def fitConstant (caseSensitive : Bool) : (constant path : Text) → Fit
  | [], path => .consumed path
  | _ :: _, [] => .pathEnds
  | expected :: constant, actual :: path =>
    if sameChar caseSensitive expected actual then fitConstant caseSensitive constant path
    else .mismatch

/-- What is left of a path after some of its first component, from nothing to all of it. -/
def starRests : Text → List Text
  | [] => [[]]
  | c :: path => if c = '/' then [c :: path] else (c :: path) :: starRests path

/-- What is left of a path after each of its separators, in order. -/
def separatorRests : Text → List Text
  | [] => []
  | c :: path => if c = '/' then path :: separatorRests path else separatorRests path

/-- What is left of a path after some number of whole components, their separators included. -/
def globstarRests (path : Text) : List Text := path :: separatorRests path

namespace Segment

/-- Whether the segments match the whole path. A star that comes last takes the rest of a component,
a globstar that comes last takes anything. -/
def matchAll (caseSensitive : Bool) : List Segment → Text → Bool
  | [], path => path.isEmpty
  | .constant text :: segments, path =>
    match fitConstant caseSensitive text path with
    | .consumed rest => matchAll caseSensitive segments rest
    | _ => false
  | .anyChar :: segments, path =>
    match path with
    | [] => false
    | c :: rest => c ≠ '/' && matchAll caseSensitive segments rest
  | .bracket b :: segments, path =>
    match path with
    | [] => false
    | c :: rest => b.accepts caseSensitive c && matchAll caseSensitive segments rest
  | .star :: segments, path =>
    if segments.isEmpty then !path.contains '/'
    else (starRests path).any (matchAll caseSensitive segments)
  | .globstar :: segments, path =>
    segments.isEmpty || (globstarRests path).any (matchAll caseSensitive segments)

/-- Whether the segments may match some path that begins with the given one. -/
def mayExtend (caseSensitive : Bool) : List Segment → Text → Bool
  | segments, [] => !segments.isEmpty
  | [], _ :: _ => false
  | .constant text :: segments, path =>
    match fitConstant caseSensitive text path with
    | .consumed rest => mayExtend caseSensitive segments rest
    | .pathEnds => true
    | .mismatch => false
  | .anyChar :: segments, c :: rest => c ≠ '/' && mayExtend caseSensitive segments rest
  | .bracket b :: segments, c :: rest =>
    b.accepts caseSensitive c && mayExtend caseSensitive segments rest
  | .star :: segments, path => (starRests path).any (mayExtend caseSensitive segments)
  | .globstar :: segments, path =>
    segments.isEmpty || (globstarRests path).any (mayExtend caseSensitive segments)

end Segment

/-- What a pattern, or a selection of patterns, says about a path. -/
structure Verdict where
  /-- The path itself matches. -/
  hit : Bool
  /-- Nothing below the path can match. -/
  prune : Bool
deriving Repr, DecidableEq

namespace Pattern

def accepts (p : Pattern) (path : Text) : Bool :=
  Segment.matchAll p.dialect.caseSensitive p.segments path

/-- Whether the pattern matches the path, and whether it rules out everything below it. -/
def verdict (p : Pattern) (path : Text) : Verdict where
  hit := p.accepts path
  prune := !Segment.mayExtend p.dialect.caseSensitive p.segments (path ++ ['/'])

end Pattern

theorem mem_starRests_self (path : Text) : path ∈ starRests path := by
  cases path with
  | nil => simp [starRests]
  | cons c path => by_cases h : c = '/' <;> simp [starRests, h]

theorem suffix_of_mem_starRests {rest path : Text} (h : rest ∈ starRests path) : rest <:+ path := by
  induction path with
  | nil => simp_all [starRests]
  | cons c path ih =>
    by_cases hc : c = '/'
    · simp_all [starRests]
    · simp only [starRests, hc, if_false, List.mem_cons] at h
      rcases h with rfl | h
      · exact List.suffix_refl _
      · exact (ih h).trans (List.suffix_cons c path)

end TreeGlob
