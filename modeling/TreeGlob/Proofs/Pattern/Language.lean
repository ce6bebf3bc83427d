import Mathlib.Data.List.Forall2
import TreeGlob.Proofs.Pattern.Pruning

/-!
The texts that segments match, told without the matcher: such a text is cut into pieces, one for each
segment in order.

* `Segment.Takes` says which pieces a segment takes.
* `matchAll_cons_iff` says that the matcher finds a piece for the first segment just if there is one
  that leaves a text which the other segments match.
* `matchAll_append_iff` says the same for several segments at the front, and `matchAll_merge` that the
  normal form of a list of segments matches what the list does.
-/
namespace TreeGlob

/-! ## What is left of a path -/

theorem closed_nil : Closed [] := .inl rfl

theorem Closed.append {piece more : Text} (hp : Closed piece) (hm : Closed more) :
    Closed (piece ++ more) := by
  rcases hm with rfl | hm
  · rwa [List.append_nil]
  · right
    rw [List.getLast?_append, hm]
    rfl

theorem mem_starRests {rest path : Text} :
    rest ∈ starRests path ↔ ∃ piece, path = piece ++ rest ∧ '/' ∉ piece := by
  induction path with
  | nil =>
    simp only [starRests, List.mem_singleton]
    refine ⟨fun h => ⟨[], by simp [h], by simp⟩, ?_⟩
    rintro ⟨piece, h, -⟩
    exact (List.append_eq_nil_iff.mp h.symm).2
  | cons c path ih =>
    by_cases hc : c = '/'
    · simp only [starRests, hc, if_true, List.mem_singleton]
      refine ⟨fun h => ⟨[], by simp [h], by simp⟩, ?_⟩
      rintro ⟨piece, h, hp⟩
      cases piece with
      | nil => exact h.symm
      | cons x piece => exact (hp ((List.cons.inj h).1 ▸ List.mem_cons_self)).elim
    · simp only [starRests, hc, if_false, List.mem_cons, ih]
      refine ⟨?_, ?_⟩
      · rintro (rfl | ⟨piece, rfl, hp⟩)
        · exact ⟨[], rfl, by simp⟩
        · exact ⟨c :: piece, rfl, by simp [Ne.symm hc, hp]⟩
      · rintro ⟨piece, h, hp⟩
        cases piece with
        | nil => exact .inl h.symm
        | cons x piece =>
          exact .inr ⟨piece, (List.cons.inj h).2, fun hm => hp (List.mem_cons_of_mem x hm)⟩

theorem mem_separatorRests {rest path : Text} :
    rest ∈ separatorRests path ↔ ∃ before, path = before ++ '/' :: rest := by
  induction path with
  | nil => simp [separatorRests]
  | cons c path ih =>
    by_cases hc : c = '/'
    · subst hc
      simp only [separatorRests, if_true, List.mem_cons, ih]
      refine ⟨?_, ?_⟩
      · rintro (rfl | ⟨before, rfl⟩)
        · exact ⟨[], rfl⟩
        · exact ⟨'/' :: before, rfl⟩
      · rintro ⟨before, h⟩
        cases before with
        | nil => exact .inl (List.cons.inj h).2.symm
        | cons x before => exact .inr ⟨before, (List.cons.inj h).2⟩
    · simp only [separatorRests, hc, if_false, ih]
      refine ⟨?_, ?_⟩
      · rintro ⟨before, rfl⟩
        exact ⟨c :: before, rfl⟩
      · rintro ⟨before, h⟩
        cases before with
        | nil => exact (hc (List.cons.inj h).1).elim
        | cons x before => exact ⟨before, (List.cons.inj h).2⟩

theorem mem_globstarRests {rest path : Text} :
    rest ∈ globstarRests path ↔ ∃ piece, path = piece ++ rest ∧ Closed piece := by
  rw [globstarRests, List.mem_cons, mem_separatorRests]
  refine ⟨?_, ?_⟩
  · rintro (rfl | ⟨before, rfl⟩)
    · exact ⟨[], rfl, closed_nil⟩
    · exact ⟨before ++ ['/'], by simp, closed_append_separator before⟩
  · rintro ⟨piece, rfl, rfl | hl⟩
    · exact .inl rfl
    · obtain ⟨before, rfl⟩ := List.getLast?_eq_some_iff.mp hl
      exact .inr ⟨before, by simp⟩

theorem fitConstant_eq_consumed {caseSensitive : Bool} {text path rest : Text} :
    fitConstant caseSensitive text path = .consumed rest ↔ ∃ piece, path = piece ++ rest ∧
      List.Forall₂ (fun a b => sameChar caseSensitive a b = true) text piece := by
  induction text generalizing path with
  | nil => simp [fitConstant]
  | cons a text ih =>
    cases path with
    | nil =>
      refine iff_of_false (by simp [fitConstant]) ?_
      rintro ⟨piece, h, hp⟩
      rw [(List.append_eq_nil_iff.mp h.symm).1] at hp
      cases hp
    | cons b path =>
      rw [fitConstant]
      split
      · next hab =>
        rw [ih]
        refine ⟨?_, ?_⟩
        · rintro ⟨piece, rfl, hp⟩
          exact ⟨b :: piece, rfl, .cons hab hp⟩
        · rintro ⟨piece, h, hp⟩
          cases hp with
          | cons _ hp => exact ⟨_, (List.cons.inj h).2, hp⟩
      · next hab =>
        refine iff_of_false (by simp) ?_
        rintro ⟨piece, h, hp⟩
        cases hp with
        | cons hac _ => exact hab ((List.cons.inj h).1 ▸ hac)

theorem fitConstant_append (caseSensitive : Bool) (text more path : Text) :
    fitConstant caseSensitive (text ++ more) path =
      match fitConstant caseSensitive text path with
      | .consumed rest => fitConstant caseSensitive more rest
      | fit => fit := by
  induction text generalizing path with
  | nil => rfl
  | cons a text ih =>
    cases path with
    | nil => rfl
    | cons b path =>
      rw [List.cons_append, fitConstant, fitConstant]
      split
      · exact ih path
      · rfl

theorem forall₂_sameChar_iff {text piece : Text} :
    List.Forall₂ (fun a b => sameChar true a b = true) text piece ↔ text = piece := by
  have hsame : (fun a b => sameChar true a b = true) = Eq := by simp [sameChar]
  rw [hsame, List.forall₂_eq_eq_eq]

/-- A path ends inside a constant just if the constant goes on where the path ends. -/
theorem fitConstant_eq_pathEnds {caseSensitive : Bool} {text path : Text} :
    fitConstant caseSensitive text path = .pathEnds ↔ ∃ start rest, text = start ++ rest ∧ rest ≠ [] ∧
      List.Forall₂ (fun a b => sameChar caseSensitive a b = true) start path := by
  constructor
  · intro h
    fun_induction fitConstant caseSensitive text path with
    | case1 | case4 => cases h
    | case2 a text => exact ⟨[], a :: text, rfl, List.cons_ne_nil a text, .nil⟩
    | case3 a text b path hab ih =>
      obtain ⟨start, rest, rfl, hrest, hstart⟩ := ih h
      exact ⟨a :: start, rest, rfl, hrest, .cons hab hstart⟩
  · intro h
    obtain ⟨start, rest, rfl, hrest, hstart⟩ := h
    have hconsumed : fitConstant caseSensitive start path = .consumed [] :=
      fitConstant_eq_consumed.mpr ⟨path, (List.append_nil path).symm, hstart⟩
    obtain ⟨c, rest, rfl⟩ := List.exists_cons_of_ne_nil hrest
    rw [fitConstant_append, hconsumed]
    rfl

namespace Segment

variable {caseSensitive : Bool} {s : Segment} {segments : List Segment} {path : Text}

/-! ## Pieces -/

/-- The pieces of a text that a segment takes: a constant takes its own characters, a star what is
within a component, a globstar whole components with their separators, or all that is left if it comes
`last`. -/
def Takes (caseSensitive last : Bool) : Segment → Text → Prop
  | .constant text, piece =>
    List.Forall₂ (fun a b => sameChar caseSensitive a b = true) text piece
  | .anyChar, piece => ∃ c, piece = [c] ∧ c ≠ '/'
  | .bracket b, piece => ∃ c, piece = [c] ∧ b.accepts caseSensitive c = true
  | .star, piece => '/' ∉ piece
  | .globstar, piece => last = true ∨ Closed piece

theorem takes_constant_iff {last : Bool} {text piece : Text} :
    (constant text).Takes true last piece ↔ piece = text := by
  rw [Takes, forall₂_sameChar_iff]
  exact eq_comm

theorem matchAll_nil : matchAll caseSensitive [] path = true ↔ path = [] := by
  simp [matchAll]

/-- The segments match a text just if the first one takes a piece at its front, and the others match
what it leaves. -/
theorem matchAll_cons_iff : matchAll caseSensitive (s :: segments) path = true ↔
    ∃ piece rest, path = piece ++ rest ∧ s.Takes caseSensitive segments.isEmpty piece ∧
      matchAll caseSensitive segments rest = true := by
  cases s with
  | constant text =>
    have hfit := @fitConstant_eq_consumed caseSensitive text path
    rw [matchAll]
    refine ⟨fun h => ?_, ?_⟩
    · split at h
      · next rest hf =>
        obtain ⟨piece, hp, ht⟩ := hfit.mp hf
        exact ⟨piece, rest, hp, ht, h⟩
      · cases h
    · rintro ⟨piece, rest, hp, ht, h⟩
      rw [hfit.mpr ⟨piece, hp, ht⟩]
      exact h
  | anyChar =>
    cases path with
    | nil => simp [matchAll, Takes]
    | cons c path => simp [matchAll, Takes]
  | bracket b =>
    cases path with
    | nil => simp [matchAll, Takes]
    | cons c path => simp [matchAll, Takes]
  | star =>
    rw [matchAll]
    by_cases hs : segments = []
    · subst hs
      simp [Takes, matchAll]
    · simp only [List.isEmpty_iff, hs, if_false, List.any_eq_true, mem_starRests, Takes]
      refine ⟨?_, ?_⟩
      · rintro ⟨rest, ⟨piece, hp, hpiece⟩, h⟩
        exact ⟨piece, rest, hp, hpiece, h⟩
      · rintro ⟨piece, rest, hp, hpiece, h⟩
        exact ⟨rest, ⟨piece, hp, hpiece⟩, h⟩
  | globstar =>
    rw [matchAll]
    by_cases hs : segments = []
    · subst hs
      simp [Takes, matchAll]
    · simp only [List.isEmpty_eq_false_iff.mpr hs, Bool.false_or, List.any_eq_true,
        mem_globstarRests, Takes, Bool.false_eq_true, false_or]
      refine ⟨?_, ?_⟩
      · rintro ⟨rest, ⟨piece, hp, hpiece⟩, h⟩
        exact ⟨piece, rest, hp, hpiece, h⟩
      · rintro ⟨piece, rest, hp, hpiece, h⟩
        exact ⟨rest, ⟨piece, hp, hpiece⟩, h⟩

theorem takes_congr (hs : s ≠ .globstar) (last other : Bool) {piece : Text} :
    s.Takes caseSensitive last piece ↔ s.Takes caseSensitive other piece := by
  cases s with
  | globstar => exact (hs rfl).elim
  | constant | anyChar | bracket | star => exact Iff.rfl

theorem matchAll_append_iff {front back : List Segment} (hf : ∀ s ∈ front, s ≠ .globstar) :
    matchAll caseSensitive (front ++ back) path = true ↔ ∃ start rest, path = start ++ rest ∧
      matchAll caseSensitive front start = true ∧ matchAll caseSensitive back rest = true := by
  induction front generalizing path with
  | nil => simp [matchAll_nil]
  | cons s front ih =>
    obtain ⟨hs, hf⟩ := List.forall_mem_cons.mp hf
    rw [List.cons_append, matchAll_cons_iff]
    simp only [matchAll_cons_iff, ih hf, takes_congr hs (front ++ back).isEmpty front.isEmpty]
    refine ⟨?_, ?_⟩
    · rintro ⟨piece, _, rfl, ht, start, rest, rfl, hstart, hrest⟩
      exact ⟨piece ++ start, rest, by simp, ⟨piece, start, rfl, ht, hstart⟩, hrest⟩
    · rintro ⟨_, rest, rfl, ⟨piece, start, rfl, ht, hstart⟩, hrest⟩
      exact ⟨piece, start ++ rest, by simp, ht, start, rest, rfl, hstart, hrest⟩

/-! ## The normal form -/

theorem isEmpty_congr {others : List Segment} (h : segments = [] ↔ others = []) :
    segments.isEmpty = others.isEmpty := by
  rw [Bool.eq_iff_iff, List.isEmpty_iff, List.isEmpty_iff]
  exact h

/-- What segments match depends on the segments behind the first only by what those match. -/
theorem matchAll_cons_congr {others : List Segment} (hnil : segments = [] ↔ others = [])
    (h : ∀ path, matchAll caseSensitive segments path = matchAll caseSensitive others path) :
    matchAll caseSensitive (s :: segments) path = matchAll caseSensitive (s :: others) path := by
  rw [Bool.eq_iff_iff, matchAll_cons_iff, matchAll_cons_iff]
  simp only [h, isEmpty_congr hnil]

/-- Whether a path may be extended depends on the segments behind the first only by what they say about
what is left of it. -/
theorem mayExtend_cons_congr {others : List Segment} (hnil : segments = [] ↔ others = [])
    (h : ∀ rest, rest <:+ path →
      mayExtend caseSensitive segments rest = mayExtend caseSensitive others rest) :
    mayExtend caseSensitive (s :: segments) path = mayExtend caseSensitive (s :: others) path := by
  have hany : ∀ {rests : List Text}, (∀ rest ∈ rests, rest <:+ path) →
      rests.any (mayExtend caseSensitive segments) = rests.any (mayExtend caseSensitive others) := by
    intro rests hrests
    rw [Bool.eq_iff_iff, List.any_eq_true, List.any_eq_true]
    apply exists_congr
    intro rest
    apply and_congr_right
    intro hmem
    rw [h rest (hrests rest hmem)]
  cases path with
  | nil => rfl
  | cons c tail =>
    have htail := h tail (List.suffix_cons c tail)
    cases s with
    | constant text =>
      simp only [mayExtend]
      split
      · next rest hfit => exact h rest (suffix_of_fitConstant hfit)
      · rfl
      · rfl
    | anyChar => rw [mayExtend, mayExtend, htail]
    | bracket b => rw [mayExtend, mayExtend, htail]
    | star => exact hany fun rest => suffix_of_mem_starRests
    | globstar =>
      simp only [mayExtend, isEmpty_congr hnil]
      rw [hany fun rest => suffix_of_mem_globstarRests]

theorem matchAll_cons (s : Segment) (segments : List Segment) (path : Text) :
    matchAll caseSensitive (cons s segments) path = matchAll caseSensitive (s :: segments) path := by
  unfold cons
  split
  · next a b rest =>
    -- Two constants are one that is laid against the path in two parts.
    simp only [matchAll, fitConstant_append]
    cases fitConstant caseSensitive a path with
    | consumed | pathEnds | mismatch => rfl
  · next rest =>
    rw [Bool.eq_iff_iff, matchAll_cons_iff, matchAll_cons_iff]
    simp only [matchAll_cons_iff, Takes]
    refine ⟨?_, ?_⟩
    · rintro ⟨piece, left, rfl, hp, h⟩
      exact ⟨[], piece ++ left, rfl, by simp, piece, left, rfl, hp, h⟩
    · rintro ⟨piece, _, rfl, hp, more, left, rfl, hm, h⟩
      exact ⟨piece ++ more, left, by simp, by simp [hp, hm], h⟩
  · next rest =>
    rw [Bool.eq_iff_iff, matchAll_cons_iff, matchAll_cons_iff]
    simp only [matchAll_cons_iff, Takes, List.isEmpty_cons, Bool.false_eq_true, false_or]
    refine ⟨?_, ?_⟩
    · rintro ⟨piece, left, rfl, hp, h⟩
      exact ⟨[], piece ++ left, rfl, closed_nil, piece, left, rfl, hp, h⟩
    · rintro ⟨piece, _, rfl, hp, more, left, rfl, hm, h⟩
      exact ⟨piece ++ more, left, by simp, hm.imp_right hp.append, h⟩
  · rfl

theorem merge_eq_nil_iff : merge segments = [] ↔ segments = [] := by
  cases segments with
  | nil => simp [merge]
  | cons s segments => simp [merge_cons, cons_ne_nil]

/-- The normal form of a list of segments matches what the list matches. -/
theorem matchAll_merge (segments : List Segment) (path : Text) :
    matchAll caseSensitive (merge segments) path = matchAll caseSensitive segments path := by
  induction segments generalizing path with
  | nil => rfl
  | cons s segments ih =>
    rw [merge_cons, matchAll_cons]
    exact matchAll_cons_congr merge_eq_nil_iff ih

end Segment

end TreeGlob
