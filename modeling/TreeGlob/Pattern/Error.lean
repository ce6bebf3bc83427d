import TreeGlob.Text.Utf8

/-!
Why a text is not a pattern. Positions count characters from zero in the text that was being read.
-/
namespace TreeGlob

inductive PatternError where
  /-- The text has no characters. -/
  | empty
  /-- A `[` without its `]`, or a `]` that closes nothing. -/
  | unmatchedBracket (position : Nat)
  /-- A `{` without its `}`, or a `}` that closes nothing. -/
  | unmatchedBrace (position : Nat)
  /-- `[:name:]` with a name that is no character class. -/
  | unknownClass (name : Text)
  /-- A whole component of two or more stars where the dialect has no such wildcard. -/
  | pathWildcardNotAllowed (position : Nat)
  /-- A range `low-high` that runs backwards. -/
  | invalidRange (low high : Char)
  /-- A backslash with nothing after it. -/
  | trailingEscape
  /-- A brace in a text that is read as a single pattern. -/
  | unexpandedGroup (position : Nat)
deriving Repr, DecidableEq

def PatternError.message : PatternError → String
  | .empty => "empty pattern"
  | .unmatchedBracket position => s!"unmatched bracket at position {position}"
  | .unmatchedBrace position => s!"unmatched brace at position {position}"
  | .unknownClass name => "unknown character class [:" ++ String.ofList name ++ ":]"
  | .pathWildcardNotAllowed position =>
    s!"path wildcard '**' at position {position} is not supported by these options"
  | .invalidRange low high => "invalid character range " ++ String.ofList [low, '-', high]
  | .trailingEscape => "pattern ends with an unfinished escape"
  | .unexpandedGroup position =>
    s!"brace group at position {position} must be expanded with compile()"

/-! What is done in steps succeeds if every step does, and fails by the first step that fails. -/

theorem bind_eq_error_iff {α β ε : Type} {x : Except ε α} {f : α → Except ε β} {e : ε} :
    (x >>= f) = .error e ↔ x = .error e ∨ ∃ a, x = .ok a ∧ f a = .error e := by
  cases x with
  | error why => simp [bind, Except.bind]
  | ok a => simp [bind, Except.bind]

theorem bind_eq_ok_iff {α β ε : Type} {x : Except ε α} {f : α → Except ε β} {b : β} :
    (x >>= f) = .ok b ↔ ∃ a, x = .ok a ∧ f a = .ok b := by
  cases x with
  | error why => simp [bind, Except.bind]
  | ok a => simp [bind, Except.bind]

end TreeGlob
