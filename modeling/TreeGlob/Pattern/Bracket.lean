import TreeGlob.Text.Utf8
import TreeGlob.Unicode.Letter

/-!
Bracket expressions such as `[a-z_]`, `[!x]` or `[[:alpha:]]`: a set of characters given by ranges
and named classes, possibly negated.

Main statements: no bracket matches a separator, and without regard to case a bracket that is not
negated matches at least what it matches with regard to case.
-/
namespace TreeGlob

inductive ClassName where
  | alpha | digit | alnum | upper | lower | space | blank | punct | xdigit | word | cntrl | graph
  | print
deriving Repr, DecidableEq

namespace ClassName

def all : List ClassName :=
  [alpha, digit, alnum, upper, lower, space, blank, punct, xdigit, word, cntrl, graph, print]

def text : ClassName → Text
  | alpha => "alpha".toList
  | digit => "digit".toList
  | alnum => "alnum".toList
  | upper => "upper".toList
  | lower => "lower".toList
  | space => "space".toList
  | blank => "blank".toList
  | punct => "punct".toList
  | xdigit => "xdigit".toList
  | word => "word".toList
  | cntrl => "cntrl".toList
  | graph => "graph".toList
  | print => "print".toList

/-- The class of that name, if there is one. Case counts. -/
def ofText? (t : Text) : Option ClassName := all.find? (·.text = t)

/-- ASCII punctuation: the printable ASCII characters that are no letter, digit or space. -/
def isPunctuation (c : Char) : Bool :=
  ('!' ≤ c && c ≤ '/') || (':' ≤ c && c ≤ '@') || ('[' ≤ c && c ≤ '\x60') || ('\x7b' ≤ c && c ≤ '~')

def isHexDigit (c : Char) : Bool :=
  ('0' ≤ c && c ≤ '9') || ('a' ≤ c && c ≤ 'f') || ('A' ≤ c && c ≤ 'F')

/-- Membership. Letters, numbers, case and white space are Unicode's; digits, hexadecimal digits,
blanks and punctuation are ASCII's. -/
def contains : ClassName → Char → Bool
  | alpha, c => Unicode.isAlphabetic c
  | digit, c => '0' ≤ c && c ≤ '9'
  | alnum, c => Unicode.isAlphanumeric c
  | upper, c => Unicode.isUppercase c
  | lower, c => Unicode.isLowercase c
  | space, c => Unicode.isWhiteSpace c
  | blank, c => c = ' ' || c = '\t'
  | punct, c => isPunctuation c
  | xdigit, c => isHexDigit c
  | word, c => Unicode.isAlphanumeric c || c = '_'
  | cntrl, c => Unicode.isControl c
  | graph, c => !Unicode.isControl c && !Unicode.isWhiteSpace c
  | print, c => !Unicode.isControl c

end ClassName

/-- A bracket expression; it matches exactly one character. A single character `c` is the range from
`c` to `c`. -/
structure Bracket where
  ranges : List (Char × Char)
  classes : List ClassName
  negated : Bool
deriving Repr, DecidableEq

namespace Bracket

/-- The character lies in a range or a class of the bracket, negation aside. -/
def contains (b : Bracket) (c : Char) : Bool :=
  b.ranges.any (fun r => r.1 ≤ c && c ≤ r.2) || b.classes.any (·.contains c)

/-- The character or, where case does not count, one of its case images lies in the bracket. -/
def hit (b : Bracket) (caseSensitive : Bool) (c : Char) : Bool :=
  b.contains c
    || (!caseSensitive && ((Unicode.toLower c).any b.contains || (Unicode.toUpper c).any b.contains))

/-- Whether the bracket matches the character. A separator is never matched, not even by a negated
bracket, so that a bracket stays within one component. -/
def accepts (b : Bracket) (caseSensitive : Bool) (c : Char) : Bool :=
  c ≠ '/' && (b.hit caseSensitive c != b.negated)

@[simp] theorem accepts_separator (b : Bracket) (caseSensitive : Bool) :
    b.accepts caseSensitive '/' = false := by
  simp [accepts]

theorem hit_of_hit_sensitive {b : Bracket} {c : Char} (h : b.hit true c = true) :
    b.hit false c = true := by
  simp_all [hit]

theorem accepts_insensitive {b : Bracket} {c : Char} (hb : b.negated = false)
    (h : b.accepts true c = true) : b.accepts false c = true := by
  simp only [accepts, hb, Bool.bne_false, Bool.and_eq_true] at h ⊢
  exact ⟨h.1, hit_of_hit_sensitive h.2⟩

end Bracket

end TreeGlob
