/-!
Tables over code points. A property of characters is a list of runs; a case mapping is a list of
shifted runs together with the few characters whose image is longer than one character.
-/
namespace TreeGlob.Unicode

/-- Every `step`-th code point from `first` to `last`. -/
structure Run where
  first : Nat
  last : Nat
  step : Nat
deriving Repr, DecidableEq

namespace Run

def covers (r : Run) (n : Nat) : Bool :=
  r.first ≤ n && n ≤ r.last && (n - r.first) % r.step == 0

end Run

def inTable (table : List Run) (c : Char) : Bool :=
  table.any (·.covers c.toNat)

/-- A run of code points whose images lie `distance` further on. -/
structure Shift where
  run : Run
  distance : Int
deriving Repr, DecidableEq

/-- The image of a character under a case mapping. The few characters whose image is longer come
first, then the shifted runs; every other character is its own image. -/
def image (expansions : List (Nat × List Nat)) (shifts : List Shift) (c : Char) : List Char :=
  match expansions.lookup c.toNat with
  | some codes => codes.map Char.ofNat
  | none =>
    match shifts.find? (·.run.covers c.toNat) with
    | some s => [Char.ofNat (c.toNat + s.distance).toNat]
    | none => [c]

end TreeGlob.Unicode
