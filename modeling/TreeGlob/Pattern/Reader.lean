import TreeGlob.Pattern.Error
import TreeGlob.Pattern.Segment

/-!
Reading one brace-free text as a pattern.

Each reader looks at one character and what follows it, and says which segment (or bracket item)
starts there and how many of the following characters belong to it. The loops then pass over those
characters one by one, so they recurse on the text itself.

* `Bracket.read` reads the inside of `[...]`.
* `Segment.read` reads the segment that starts at a character.
* `Pattern.read` reads a whole text; its segments are those of `Segment.readAll`, merged.

The first thing from the left that cannot be read is the error.
-/
namespace TreeGlob

/-- A character as written: with escaping on, a backslash and the next character mean the latter.
Gives the character meant and how many characters after `c` it took. -/
def readEscaped (escaping : Bool) (c : Char) (rest : Text) : Except PatternError (Char × Nat) :=
  if escaping && c = '\\' then
    match rest with
    | [] => .error .trailingEscape
    | e :: _ => .ok (e, 1)
  else .ok (c, 0)

namespace Bracket

inductive Item where
  | range (low high : Char)
  | named (name : ClassName)
deriving Repr, DecidableEq

def ofItems (negated : Bool) (items : List Item) : Bracket where
  ranges := items.filterMap fun
    | .range low high => some (low, high)
    | .named _ => none
  classes := items.filterMap fun
    | .range _ _ => none
    | .named name => some name
  negated := negated

def untilClose : Text → Option Text
  | [] => none
  | c :: rest => if c = ':' ∧ rest.head? = some ']' then some [] else (untilClose rest).map (c :: ·)

/-- Reads the entry that starts with `c` in the bracket opened at `start`: a named class, a range, or
a single character. A dash is a range only if something other than the closing bracket follows it. -/
def readItem (escaping : Bool) (start : Nat) (c : Char) (rest : Text) :
    Except PatternError (Item × Nat) :=
  if c = '[' ∧ rest.head? = some ':' then
    match untilClose rest.tail with
    | none => .error (.unmatchedBracket start)
    | some name =>
      match ClassName.ofText? name with
      | none => .error (.unknownClass name)
      | some found => .ok (.named found, name.length + 3)
  else do
    let (low, taken) ← readEscaped escaping c rest
    match rest.drop taken with
    | '-' :: h :: more =>
      if h = ']' then .ok (.range low low, taken)
      else
        let (high, extra) ← readEscaped escaping h more
        if high < low then .error (.invalidRange low high)
        else .ok (.range low high, taken + 2 + extra)
    | _ => .ok (.range low low, taken)

/-- Reads entries up to the closing bracket. A `]` that comes first is an entry. Gives the entries and
how many characters they and the closing bracket take; the first `skip` characters belong to an
entry already read. -/
def readItems (escaping : Bool) (start : Nat) :
    (skip : Nat) → (first : Bool) → Text → Except PatternError (List Item × Nat)
  | _, _, [] => .error (.unmatchedBracket start)
  | skip + 1, _, _ :: rest => do
    let (items, taken) ← readItems escaping start skip false rest
    .ok (items, taken + 1)
  | 0, first, c :: rest =>
    if c = ']' ∧ first = false then .ok ([], 1)
    else do
      let (item, extra) ← readItem escaping start c rest
      let (items, taken) ← readItems escaping start extra false rest
      .ok (item :: items, taken + 1)

/-- Reads what follows the `[` at position `start`. Gives the bracket and how many characters after
the `[` it takes, the closing bracket included. -/
def read (escaping : Bool) (start : Nat) (text : Text) : Except PatternError (Bracket × Nat) :=
  let negated := text.head? = some '!' || text.head? = some '^'
  let marks := if negated then 1 else 0
  do
    let (items, taken) ← readItems escaping start 0 true (text.drop marks)
    .ok (ofItems negated items, marks + taken)

end Bracket

namespace Segment

/-- Reads a run of stars: `extra` stars follow the first one at position `pos`, `previous` is the
character before the run and `after` is the text behind it. A run of at least two stars that is a
whole component stands for components and takes the separator behind it; any other run stands for
characters of one component. -/
def readStars (d : Dialect) (pos : Nat) (previous : Option Char) (extra : Nat) (after : Text) :
    Except PatternError (Segment × Nat) :=
  let whole := (previous = none || previous = some '/') && (after = [] || after.head? = some '/')
  if 1 ≤ extra && whole then
    if d.pathWildcards then .ok (.globstar, if after = [] then extra else extra + 1)
    else .error (.pathWildcardNotAllowed pos)
  else .ok (.star, extra)

/-- Reads the segment that starts with `c` at position `pos`, where `previous` is the character
before it. Gives the segment and how many characters after `c` belong to it. -/
def read (d : Dialect) (pos : Nat) (previous : Option Char) (c : Char) (rest : Text) :
    Except PatternError (Segment × Nat) :=
  if c = '*' then
    readStars d pos previous (rest.takeWhile (· = '*')).length (rest.dropWhile (· = '*'))
  else if c = '?' then .ok (.anyChar, 0)
  else if c = '[' then do
    let (b, taken) ← Bracket.read d.escaping pos rest
    .ok (.bracket b, taken)
  else if c = ']' then .error (.unmatchedBracket pos)
  else if c = '{' ∨ c = '}' then .error (.unexpandedGroup pos)
  else do
    let (meant, taken) ← readEscaped d.escaping c rest
    .ok (.constant [meant], taken)

/-- The segments of a text as they are written, one for each character, wildcard or bracket. The
first `skip` characters belong to a segment already read. -/
def readAll (d : Dialect) :
    (pos : Nat) → (previous : Option Char) → (skip : Nat) → Text → Except PatternError (List Segment)
  | _, _, _, [] => .ok []
  | pos, _, skip + 1, c :: rest => readAll d (pos + 1) (some c) skip rest
  | pos, previous, 0, c :: rest => do
    let (segment, extra) ← read d pos previous c rest
    let segments ← readAll d (pos + 1) (some c) extra rest
    .ok (segment :: segments)

theorem readAll_cons_eq_ok_iff {d : Dialect} {pos : Nat} {previous : Option Char} {c : Char}
    {rest : Text} {segments : List Segment} :
    readAll d pos previous 0 (c :: rest) = .ok segments ↔
      ∃ s extra others, read d pos previous c rest = .ok (s, extra) ∧
        readAll d (pos + 1) (some c) extra rest = .ok others ∧ segments = s :: others := by
  simp only [readAll, bind_eq_ok_iff, Prod.exists, Except.ok.injEq, exists_and_left,
    @eq_comm _ _ segments]

end Segment

def Pattern.read (d : Dialect) (source : Text) : Except PatternError Pattern :=
  if source = [] then .error .empty
  else do
    let segments ← Segment.readAll d 0 none 0 source
    .ok { source, segments := Segment.merge segments, dialect := d }

/-- A text reads as a pattern just if it is not empty and all of it reads as segments. -/
theorem Pattern.read_eq_ok_iff {d : Dialect} {source : Text} {p : Pattern} :
    Pattern.read d source = .ok p ↔ source ≠ [] ∧ ∃ segments,
      Segment.readAll d 0 none 0 source = .ok segments ∧
        p = { source, segments := Segment.merge segments, dialect := d } := by
  unfold Pattern.read
  split
  · next hsource => simp [hsource]
  · next hsource => simp [bind_eq_ok_iff, hsource, @eq_comm _ _ p]

theorem Pattern.source_of_read {d : Dialect} {source : Text} {p : Pattern}
    (h : Pattern.read d source = .ok p) : p.source = source := by
  obtain ⟨-, segments, -, rfl⟩ := read_eq_ok_iff.mp h
  rfl

theorem Pattern.dialect_of_read {d : Dialect} {source : Text} {p : Pattern}
    (h : Pattern.read d source = .ok p) : p.dialect = d := by
  obtain ⟨-, segments, -, rfl⟩ := read_eq_ok_iff.mp h
  rfl

end TreeGlob
