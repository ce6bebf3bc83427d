import TreeGlob.Proofs.Pattern.Language

/-!
The paths that a pattern matches, told without the matcher: those that can be cut into consecutive
pieces, one for each segment, such that each piece suits its segment.

* `Segment.Cut` says which pieces suit which segments, a constructor for each kind of segment and
  two for the globstar, for which it matters whether it comes last.
* `Segment.cut_cons_iff` reads it off the pieces that `Segment.Takes` allows, one segment at a time.
* **`Pattern.accepts_iff_cut`**: a pattern matches a path exactly if the path has such a cut. The
  search of the matcher, which tries ways for stars and globstars and goes back where one fails,
  neither misses a cut nor invents one.
-/
namespace TreeGlob

/-- A character of a constant and one of a path are the same letter: they are equal, or case does
not count and their lower case images are. -/
def SameLetter (caseSensitive : Bool) (a b : Char) : Prop :=
  a = b ∨ caseSensitive = false ∧ Unicode.toLower a = Unicode.toLower b

theorem sameChar_iff_sameLetter {caseSensitive : Bool} {a b : Char} :
    sameChar caseSensitive a b = true ↔ SameLetter caseSensitive a b := by
  simp [sameChar, SameLetter]

namespace Segment

/-- The pieces of a path suit the segments, one for each in order. -/
inductive Cut (caseSensitive : Bool) : List Segment → List Text → Prop
  | nil : Cut caseSensitive [] []
  /-- A constant's piece has its length, and the two agree character by character. -/
  | constant {text piece : Text} {segments : List Segment} {pieces : List Text}
      (length : piece.length = text.length)
      (agree : ∀ (i : Nat) a b, text[i]? = some a → piece[i]? = some b →
        SameLetter caseSensitive a b)
      (others : Cut caseSensitive segments pieces) :
      Cut caseSensitive (.constant text :: segments) (piece :: pieces)
  | anyChar {c : Char} {segments : List Segment} {pieces : List Text} (char : c ≠ '/')
      (others : Cut caseSensitive segments pieces) :
      Cut caseSensitive (.anyChar :: segments) ([c] :: pieces)
  | bracket {b : Bracket} {c : Char} {segments : List Segment} {pieces : List Text}
      (char : b.accepts caseSensitive c = true) (others : Cut caseSensitive segments pieces) :
      Cut caseSensitive (.bracket b :: segments) ([c] :: pieces)
  /-- A star's piece stays within a component. -/
  | star {piece : Text} {segments : List Segment} {pieces : List Text} (within : '/' ∉ piece)
      (others : Cut caseSensitive segments pieces) :
      Cut caseSensitive (.star :: segments) (piece :: pieces)
  /-- A globstar with segments behind it takes whole components, their separators included. -/
  | globstar {piece : Text} {segments : List Segment} {pieces : List Text} (more : segments ≠ [])
      (whole : piece = [] ∨ piece.getLast? = some '/')
      (others : Cut caseSensitive segments pieces) :
      Cut caseSensitive (.globstar :: segments) (piece :: pieces)
  /-- A globstar that comes last takes anything. -/
  | globstarLast (piece : Text) : Cut caseSensitive [.globstar] [piece]

variable {caseSensitive : Bool} {s : Segment} {segments : List Segment} {path : Text}
  {pieces : List Text}

/-- A constant takes the pieces of its length that agree with it at each place. -/
theorem takes_constant_iff_sameLetter {last : Bool} {text piece : Text} :
    (constant text).Takes caseSensitive last piece ↔ piece.length = text.length ∧
      ∀ (i : Nat) a b, text[i]? = some a → piece[i]? = some b → SameLetter caseSensitive a b := by
  rw [Takes, List.forall₂_iff_get]
  simp only [sameChar_iff_sameLetter, List.getElem?_eq_some_iff]
  constructor
  · intro h
    obtain ⟨hlength, hagree⟩ := h
    refine ⟨hlength.symm, fun i a b ha hb => ?_⟩
    obtain ⟨hi, rfl⟩ := ha
    obtain ⟨hj, rfl⟩ := hb
    exact hagree i hi hj
  · intro h
    obtain ⟨hlength, hagree⟩ := h
    exact ⟨hlength.symm, fun i hi hj => hagree i _ _ ⟨hi, rfl⟩ ⟨hj, rfl⟩⟩

theorem cut_nil_iff : Cut caseSensitive [] pieces ↔ pieces = [] := by
  constructor
  · intro h
    cases h
    rfl
  · intro h
    rw [h]
    exact .nil

theorem cut_cons_iff : Cut caseSensitive (s :: segments) pieces ↔
    ∃ piece rest, pieces = piece :: rest ∧ s.Takes caseSensitive segments.isEmpty piece ∧
      Cut caseSensitive segments rest := by
  constructor
  · intro h
    cases h with
    | constant hlength hagree hothers =>
      exact ⟨_, _, rfl, takes_constant_iff_sameLetter.mpr ⟨hlength, hagree⟩, hothers⟩
    | anyChar hc hothers => exact ⟨_, _, rfl, ⟨_, rfl, hc⟩, hothers⟩
    | bracket hc hothers => exact ⟨_, _, rfl, ⟨_, rfl, hc⟩, hothers⟩
    | star hwithin hothers => exact ⟨_, _, rfl, hwithin, hothers⟩
    | globstar _ hwhole hothers => exact ⟨_, _, rfl, .inr hwhole, hothers⟩
    | globstarLast piece => exact ⟨piece, [], rfl, .inl rfl, .nil⟩
  · intro h
    obtain ⟨piece, rest, hpieces, htakes, hothers⟩ := h
    subst hpieces
    cases s with
    | constant text =>
      obtain ⟨hlength, hagree⟩ := takes_constant_iff_sameLetter.mp htakes
      exact .constant hlength hagree hothers
    | anyChar =>
      obtain ⟨c, rfl, hc⟩ := htakes
      exact .anyChar hc hothers
    | bracket b =>
      obtain ⟨c, rfl, hc⟩ := htakes
      exact .bracket hc hothers
    | star => exact .star htakes hothers
    | globstar =>
      cases segments with
      | nil =>
        rw [cut_nil_iff.mp hothers]
        exact .globstarLast piece
      | cons t segments =>
        have hwhole : Closed piece := htakes.resolve_left Bool.false_ne_true
        exact .globstar (List.cons_ne_nil t segments) hwhole hothers

/-- The segments match a path just if some pieces of it suit them. -/
theorem matchAll_iff_cut : matchAll caseSensitive segments path = true ↔
    ∃ pieces, path = pieces.flatten ∧ Cut caseSensitive segments pieces := by
  induction segments generalizing path with
  | nil => simp [matchAll_nil, cut_nil_iff]
  | cons s segments ih =>
    rw [matchAll_cons_iff]
    simp only [ih, cut_cons_iff]
    constructor
    · intro h
      obtain ⟨piece, rest, hpath, htakes, pieces, hrest, hothers⟩ := h
      refine ⟨piece :: pieces, ?_, piece, pieces, rfl, htakes, hothers⟩
      rw [hpath, hrest, List.flatten_cons]
    · intro h
      obtain ⟨_, hpath, piece, pieces, hpieces, htakes, hothers⟩ := h
      rw [hpieces, List.flatten_cons] at hpath
      exact ⟨piece, pieces.flatten, hpath, htakes, pieces, rfl, hothers⟩

end Segment

/-- **A pattern matches a path exactly if the path can be cut into consecutive pieces that suit the
pattern's segments, one for each.** -/
theorem Pattern.accepts_iff_cut (p : Pattern) (path : Text) : p.accepts path = true ↔
    ∃ pieces, path = pieces.flatten ∧ Segment.Cut p.dialect.caseSensitive p.segments pieces :=
  Segment.matchAll_iff_cut

end TreeGlob
