import TreeGlob.Proofs.Pattern.Grammar
import TreeGlob.Proofs.Pattern.Language

/-!
The normal form of a pattern means what the pattern as written means. The tokens of a text are
segments one by one; in the normal form neighbouring constants are one, and a wildcard stands for any
number of its like.

* `Segment.build` puts a list of segments into normal form as a reader meets them, from the left;
  `Segment.build_eq_merge` says that this is the normal form of the pattern.
* `Segment.mayExtend_cons` says that a merged segment keeps alive what the two segments did, and
  `Segment.mayExtend_merge` says it of a whole list. What matches is told by `Segment.matchAll_merge`.
* `Pattern.verdict_eq_unmerged` is the main result.

Merging changes which segment comes last, and the question whether a path can still grow depends on
that: two stars can grow behind a path that the first one uses up, one star cannot. A path that a
separator ends is never used up by a star, so the answers agree on the paths that pruning asks about.
-/
namespace TreeGlob

namespace Segment

variable {caseSensitive : Bool} {s t : Segment} {segments : List Segment} {path : Text}

/-! ## From the left -/

/-- Puts a segment behind a list in normal form: it goes into the last segment, or stands behind it. -/
def push : List Segment → Segment → List Segment
  | [], s => [s]
  | [last], s => cons last [s]
  | first :: next :: rest, s => first :: push (next :: rest) s

def build (segments : List Segment) : List Segment := segments.foldl push []

theorem cons_nil (s : Segment) : cons s [] = [s] := by
  cases s <;> rfl

theorem cons_push (s t : Segment) (built : List Segment) :
    cons s (push built t) = push (cons s built) t := by
  match built with
  | [] => rw [push, cons_nil, push]
  | [u] =>
    -- Three segments in a row: all three may be one, which takes that texts can be put together
    -- in either order.
    cases s <;> cases u <;> cases t <;> simp [cons, push]
  | u :: v :: rest => cases s <;> cases u <;> rfl

theorem merge_concat (segments : List Segment) (t : Segment) :
    merge (segments ++ [t]) = push (merge segments) t := by
  induction segments with
  | nil => exact cons_nil t
  | cons s segments ih => rw [List.cons_append, merge_cons, merge_cons, ih, cons_push]

theorem build_eq_merge (segments : List Segment) : build segments = merge segments := by
  induction segments using List.reverseRecOn with
  | nil => rfl
  | append_singleton segments t ih =>
    calc build (segments ++ [t]) = push (build segments) t := by
          rw [build, List.foldl_append]
          rfl
      _ = push (merge segments) t := by rw [ih]
      _ = merge (segments ++ [t]) := (merge_concat segments t).symm

/-! ## Pairs of segments that are merged -/

/-- A star keeps a path alive just if the segments behind it keep a rest of it alive. -/
theorem mayExtend_star_iff (hpath : path ≠ []) :
    mayExtend caseSensitive (.star :: segments) path = true ↔ ∃ piece rest, path = piece ++ rest ∧
      '/' ∉ piece ∧ mayExtend caseSensitive segments rest = true := by
  obtain ⟨c, tail, rfl⟩ := List.exists_cons_of_ne_nil hpath
  simp only [mayExtend, List.any_eq_true, mem_starRests]
  constructor
  · intro h
    obtain ⟨rest, ⟨piece, hp, hpiece⟩, h⟩ := h
    exact ⟨piece, rest, hp, hpiece, h⟩
  · intro h
    obtain ⟨piece, rest, hp, hpiece, h⟩ := h
    exact ⟨rest, ⟨piece, hp, hpiece⟩, h⟩

/-- A globstar with segments behind it keeps a path alive just if these keep alive what is left of it
behind some whole components. -/
theorem mayExtend_globstar_iff (hsegments : segments ≠ []) :
    mayExtend caseSensitive (.globstar :: segments) path = true ↔ ∃ piece rest, path = piece ++ rest ∧
      Closed piece ∧ mayExtend caseSensitive segments rest = true := by
  cases path with
  | nil =>
    have hnil : mayExtend caseSensitive segments [] = true := by simpa [mayExtend] using hsegments
    exact iff_of_true rfl ⟨[], [], rfl, closed_nil, hnil⟩
  | cons c tail =>
    simp only [mayExtend, List.isEmpty_eq_false_iff.mpr hsegments, Bool.false_or, List.any_eq_true,
      mem_globstarRests]
    constructor
    · intro h
      obtain ⟨rest, ⟨piece, hp, hpiece⟩, h⟩ := h
      exact ⟨piece, rest, hp, hpiece, h⟩
    · intro h
      obtain ⟨piece, rest, hp, hpiece, h⟩ := h
      exact ⟨rest, ⟨piece, hp, hpiece⟩, h⟩

/-- A path that ends inside a constant may end inside either part of it. The second part has to have
characters, or a path that ends with the first part would be taken to end inside the constant. -/
theorem mayExtend_constants {a b : Text} (hb : b ≠ []) :
    mayExtend caseSensitive (.constant (a ++ b) :: segments) path =
      mayExtend caseSensitive (.constant a :: .constant b :: segments) path := by
  cases path with
  | nil => rfl
  | cons c tail =>
    simp only [mayExtend, fitConstant_append]
    cases fitConstant caseSensitive a (c :: tail) with
    | consumed rest =>
      cases rest with
      | nil =>
        obtain ⟨x, b, rfl⟩ := List.exists_cons_of_ne_nil hb
        rfl
      | cons y rest => rfl
    | pathEnds | mismatch => rfl

/-- What a star leaves of a path that a separator ends is not empty, so a second star goes on in the
same component. -/
theorem mayExtend_stars (hpath : Closed path) :
    mayExtend caseSensitive (.star :: segments) path =
      mayExtend caseSensitive (.star :: .star :: segments) path := by
  by_cases hne : path = []
  · subst hne
    rfl
  rw [Bool.eq_iff_iff]
  constructor
  · intro h
    exact (mayExtend_star_iff hne).mpr ⟨[], path, rfl, by simp, h⟩
  · intro h
    obtain ⟨piece, left, rfl, hpiece, h⟩ := (mayExtend_star_iff hne).mp h
    have hleft : left ≠ [] := by
      intro hnil
      subst hnil
      rw [List.append_nil] at hpath hne
      exact hpiece (hpath.mem hne)
    obtain ⟨more, rest, rfl, hmore, h⟩ := (mayExtend_star_iff hleft).mp h
    exact (mayExtend_star_iff hne).mpr ⟨piece ++ more, rest, by simp, by simp [hpiece, hmore], h⟩

/-- Behind a path that no separator ends, the second star makes a difference. -/
example : mayExtend true [.star] ['a'] = false ∧ mayExtend true [.star, .star] ['a'] = true := by
  decide

theorem mayExtend_globstars :
    mayExtend caseSensitive (.globstar :: segments) path =
      mayExtend caseSensitive (.globstar :: .globstar :: segments) path := by
  by_cases hsegments : segments = []
  · -- A globstar that comes last lets every path grow, and so does one in front of it.
    subst hsegments
    cases path <;> simp [mayExtend, globstarRests]
  rw [Bool.eq_iff_iff, mayExtend_globstar_iff (List.cons_ne_nil _ _)]
  constructor
  · intro h
    exact ⟨[], path, rfl, closed_nil, h⟩
  · intro h
    obtain ⟨piece, left, rfl, hpiece, h⟩ := h
    obtain ⟨more, rest, rfl, hmore, h⟩ := (mayExtend_globstar_iff hsegments).mp h
    exact (mayExtend_globstar_iff hsegments).mpr
      ⟨piece ++ more, rest, by simp, hpiece.append hmore, h⟩

/-! ## The normal form -/

/-- A segment that goes in front of a normal form keeps a path alive that it would keep alive there. -/
theorem mayExtend_cons (hne : ∀ text, .constant text ∈ segments → text ≠ []) (hpath : Closed path) :
    mayExtend caseSensitive (cons s segments) path = mayExtend caseSensitive (s :: segments) path := by
  unfold cons
  split
  · exact mayExtend_constants (hne _ List.mem_cons_self)
  · exact mayExtend_stars hpath
  · exact mayExtend_globstars
  · rfl

theorem mayExtend_merge (hne : ∀ text, .constant text ∈ segments → text ≠ []) (hpath : Closed path) :
    mayExtend caseSensitive (merge segments) path = mayExtend caseSensitive segments path := by
  induction segments generalizing path with
  | nil => rfl
  | cons s segments ih =>
    have hne : ∀ text, .constant text ∈ segments → text ≠ [] := by
      intro text ht
      exact hne text (List.mem_cons_of_mem s ht)
    rw [merge_cons, mayExtend_cons (constant_ne_nil_of_merge hne) hpath]
    apply mayExtend_cons_congr merge_eq_nil_iff
    intro rest hrest
    exact ih hne (hpath.of_suffix hrest)

end Segment

namespace Pattern

/-- **The normal form of a pattern means what the pattern as written means.** The text is a sequence
of tokens in one way only. The pattern has the normal form of their segments, and says about every path
what the segments as they are would say: whether the path matches, and whether to go below it. -/
theorem verdict_eq_unmerged {d : Dialect} {raw : Text} {p : Pattern} (h : read d raw = .ok p) :
    ∃ segments, (∀ others, Spelled d true raw others ↔ others = segments) ∧
      p.segments = Segment.build segments ∧ ∀ path, p.verdict path = verdict { p with segments } path := by
  obtain ⟨-, segments, hsegments, rfl⟩ := read_eq_ok_iff.mp h
  have hunique : ∀ others, Spelled d true raw others ↔ others = segments := by
    intro others
    have hspelled : Segment.readAll d 0 none 0 raw = .ok others ↔ Spelled d true raw others :=
      Segment.readAll_iff_spelled
    rw [← hspelled, hsegments, Except.ok.injEq, eq_comm]
  refine ⟨segments, hunique, (Segment.build_eq_merge segments).symm, fun path => ?_⟩
  have hgrows : Segment.mayExtend d.caseSensitive (Segment.merge segments) (path ++ ['/']) =
      Segment.mayExtend d.caseSensitive segments (path ++ ['/']) :=
    Segment.mayExtend_merge (Segment.constant_ne_nil_of_readAll hsegments) (closed_append_separator path)
  simp only [verdict, accepts, Segment.matchAll_merge, hgrows]

/-- Two globstars in a row, an escaped star between letters, and a run of stars inside a component. -/
theorem verdict_eq_unmerged_of_repeated_wildcards :
    ∃ p, read {} "**/**/a\\*b***/?".toList = .ok p ∧
      p.segments = Segment.build [.globstar, .globstar, .constant ['a'], .constant ['*'],
        .constant ['b'], .star, .constant ['/'], .anyChar] ∧
      ∀ path, p.verdict path = verdict { p with segments := [.globstar, .globstar, .constant ['a'],
        .constant ['*'], .constant ['b'], .star, .constant ['/'], .anyChar] } path := by
  have hread : read {} "**/**/a\\*b***/?".toList = .ok {
      source := "**/**/a\\*b***/?".toList
      segments := [.globstar, .constant "a*b".toList, .star, .constant ['/'], .anyChar]
      dialect := {} } := by rfl
  have hspelled : Spelled {} (atStart none) "**/**/a\\*b***/?".toList [.globstar, .globstar,
      .constant ['a'], .constant ['*'], .constant ['b'], .star, .constant ['/'], .anyChar] :=
    (@Segment.readAll_iff_spelled {} 0 none _ _).mp (by rfl)
  obtain ⟨segments, hunique, hbuilt, hverdict⟩ := verdict_eq_unmerged hread
  obtain rfl := (hunique _).mp hspelled
  exact ⟨_, hread, hbuilt, hverdict⟩

end Pattern

end TreeGlob
