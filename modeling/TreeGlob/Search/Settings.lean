import TreeGlob.Pattern.Segment

/-!
How a search is done, as far as callers can choose.
-/
namespace TreeGlob

inductive Strategy where
  /-- One after the other, each with all it holds. -/
  | sequential
  /-- All at once. -/
  | parallel
deriving Repr, DecidableEq

structure Settings where
  skipHidden : Bool := true
  caseSensitive : Bool := true
  strategy : Strategy := .sequential
  /-- How many directories may be read at a time; left to the machine if not set. -/
  maxReads : Option Nat := none
deriving Repr, DecidableEq

namespace Settings

def withMaxReads (s : Settings) (count : Nat) : Settings := { s with maxReads := some (max 1 count) }

/-- The dialect of a search's patterns: all syntax is on, and case counts as set. -/
def dialect (s : Settings) : Dialect := { caseSensitive := s.caseSensitive }

end Settings

end TreeGlob
