import TreeGlob.Pattern.Reader

/-!
Brace groups. `{a,b}` stands for either text; a text with groups is expanded into the list of
brace-free texts it stands for, the first group varying slowest, and each of those is read as a
pattern.

* `Brace.firstGroup` finds the first group that is inside no other group, and checks the balance of
  all braces on the way.
* `Brace.alternatives` splits the inside of a group at its own commas.
* `Brace.expand` replaces groups until none is left. Every replacement takes away an opening brace,
  so as many rounds as there are opening braces suffice.
* `Pattern.compile` reads every expansion.

Main statement: splitting a group never yields an empty list of alternatives.
-/
namespace TreeGlob

namespace Brace

/-- What the search for a group knows after part of a text. -/
structure Scan where
  /-- How many groups are open. -/
  depth : Nat
  /-- Inside a bracket expression, where braces mean themselves. -/
  inBracket : Bool
  /-- Where the first group opened. -/
  opened : Option Nat
  /-- Where the first group opened and closed. -/
  group : Option (Nat × Nat)
deriving Repr, DecidableEq

namespace Scan

def start : Scan := ⟨0, false, none, none⟩

def step (s : Scan) (pos : Nat) (c : Char) : Except PatternError Scan :=
  if s.inBracket then .ok { s with inBracket := c ≠ ']' }
  else if c = '[' then .ok { s with inBracket := true }
  else if c = '{' then
    .ok { s with
      depth := s.depth + 1
      opened := if s.depth = 0 ∧ s.group = none then some pos else s.opened }
  else if c = '}' then
    if s.depth = 0 then .error (.unmatchedBrace pos)
    else .ok { s with
      depth := s.depth - 1
      group := if s.depth = 1 ∧ s.group = none then s.opened.map (·, pos) else s.group }
  else .ok s

/-- Reads a text from position `pos` on; `escaped` says that its first character follows a backslash
and so means itself. -/
def run (escaping : Bool) : Scan → (pos : Nat) → (escaped : Bool) → Text → Except PatternError Scan
  | s, _, _, [] => .ok s
  | s, pos, true, _ :: rest => run escaping s (pos + 1) false rest
  | s, pos, false, c :: rest =>
    if escaping && c = '\\' then run escaping s (pos + 1) true rest
    else do
      let s ← s.step pos c
      run escaping s (pos + 1) false rest

end Scan

/-- The positions of the braces of the first group, or `none` if the text has no group. -/
def firstGroup (escaping : Bool) (text : Text) : Except PatternError (Option (Nat × Nat)) := do
  let s ← Scan.start.run escaping 0 false text
  if 0 < s.depth then
    let position := if s.group = none then s.opened.getD text.length else text.length
    .error (.unmatchedBrace position)
  else .ok s.group

def pushFront (c : Char) : List Text → List Text
  | [] => [[c]]
  | t :: ts => (c :: t) :: ts

/-- Splits the inside of a group at the commas that lie in no inner group. `depth` inner groups are
open, and `escaped` says that the first character follows a backslash. -/
def splitFrom (escaping : Bool) : (depth : Nat) → (escaped : Bool) → Text → List Text
  | _, _, [] => [[]]
  | depth, true, c :: rest => pushFront c (splitFrom escaping depth false rest)
  | depth, false, c :: rest =>
    if escaping && c = '\\' then pushFront c (splitFrom escaping depth true rest)
    else if c = '{' then pushFront c (splitFrom escaping (depth + 1) false rest)
    else if c = '}' then pushFront c (splitFrom escaping (depth - 1) false rest)
    else if c = ',' ∧ depth = 0 then [] :: splitFrom escaping 0 false rest
    else pushFront c (splitFrom escaping depth false rest)

def alternatives (escaping : Bool) (inside : Text) : List Text := splitFrom escaping 0 false inside

/-- The texts that arise from replacing the group between the positions `opened` and `closed` by each
of its alternatives. -/
def replacements (escaping : Bool) (text : Text) (opened closed : Nat) : List Text :=
  (alternatives escaping ((text.take closed).drop (opened + 1))).map fun chosen =>
    text.take opened ++ chosen ++ text.drop (closed + 1)

/-- Expands groups for at most `rounds` rounds of replacement. -/
def expandRounds (escaping : Bool) : (rounds : Nat) → Text → Except PatternError (List Text)
  | rounds, text => do
    match ← firstGroup escaping text with
    | none => .ok [text]
    | some (opened, closed) =>
      match rounds with
      | 0 => .ok [text]
      | rounds + 1 =>
        let expanded ← (replacements escaping text opened closed).mapM (expandRounds escaping rounds)
        .ok expanded.flatten

def expand (escaping : Bool) (text : Text) : Except PatternError (List Text) :=
  expandRounds escaping (text.count '{') text

theorem pushFront_ne_nil (c : Char) (ts : List Text) : pushFront c ts ≠ [] := by
  cases ts <;> simp [pushFront]

theorem splitFrom_ne_nil (escaping : Bool) (depth : Nat) (escaped : Bool) (text : Text) :
    splitFrom escaping depth escaped text ≠ [] := by
  unfold splitFrom
  split
  · simp
  · exact pushFront_ne_nil _ _
  · (repeat' split) <;> first | exact pushFront_ne_nil _ _ | exact List.cons_ne_nil _ _

end Brace

/-- Reads a text that may hold brace groups: one pattern for each text it stands for. A path matches
the text if it matches one of the patterns. -/
def Pattern.compile (d : Dialect) (raw : Text) : Except PatternError (List Pattern) := do
  let expanded ← Brace.expand d.escaping raw
  expanded.mapM (Pattern.read d)

end TreeGlob
