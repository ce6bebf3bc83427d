import TreeGlob.Pattern.Bracket

/-!
What a pattern consists of. A pattern is a list of segments that match one after another; constants
keep their separators, so a path is matched as one text and not component by component.

* `Dialect` says which syntax is on and whether case counts.
* `Segment.merge` puts a list of segments into normal form: neighbouring constants become one, and a
  wildcard next to its like is dropped.
* `Pattern.directory` is the directory that a pattern's constant start pins down.

Main statement: a merged list repeats no wildcard and has no two constants in a row.
-/
namespace TreeGlob

/-- Which syntax a pattern may use and how it compares characters. -/
structure Dialect where
  /-- A whole component of two or more stars stands for any number of components. -/
  pathWildcards : Bool := true
  caseSensitive : Bool := true
  /-- A backslash makes the next character literal. -/
  escaping : Bool := true
deriving Repr, DecidableEq

inductive Segment where
  /-- Exactly this text, which may hold separators. -/
  | constant (text : Text)
  /-- `?`: one character other than a separator. -/
  | anyChar
  /-- `[...]`: one character of a set. -/
  | bracket (b : Bracket)
  /-- `*`: any characters within one component. -/
  | star
  /-- `**` as a whole component, with the separator after it: any number of whole components. -/
  | globstar
deriving Repr, DecidableEq

namespace Segment

/-- Puts a segment in front of a list in normal form. -/
def cons : Segment → List Segment → List Segment
  | .constant a, .constant b :: rest => .constant (a ++ b) :: rest
  | .star, .star :: rest => .star :: rest
  | .globstar, .globstar :: rest => .globstar :: rest
  | s, rest => s :: rest

/-- The normal form of a list of segments. It matches the same paths with fewer segments. -/
def merge (segments : List Segment) : List Segment :=
  segments.foldr cons []

/-- Two segments that may stand next to each other in normal form. -/
def Apart : Segment → Segment → Prop
  | .constant _, .constant _ => False
  | .star, .star => False
  | .globstar, .globstar => False
  | _, _ => True

theorem cons_ne_nil (s : Segment) (rest : List Segment) : cons s rest ≠ [] := by
  unfold cons
  split <;> simp

theorem merge_cons (s : Segment) (rest : List Segment) : merge (s :: rest) = cons s (merge rest) :=
  rfl

end Segment

/-- A pattern without brace groups. -/
structure Pattern where
  /-- The text that the pattern was read from. -/
  source : Text
  segments : List Segment
  dialect : Dialect
deriving Repr, DecidableEq

/-- The part of a text up to and including its last separator; empty if it has none. -/
def upToSeparator : Text → Text
  | [] => []
  | c :: rest =>
    match upToSeparator rest with
    | [] => if c = '/' then [c] else []
    | kept => c :: kept

/-- The directory part of the constant that a pattern starts with. -/
def Pattern.directory (p : Pattern) : Text :=
  match p.segments with
  | .constant text :: _ => upToSeparator text
  | _ => []

end TreeGlob
