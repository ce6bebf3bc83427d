import TreeGlob.Proofs.Pattern.Alternation
import TreeGlob.Proofs.Pattern.Grammar
import TreeGlob.Proofs.Pattern.Language
import TreeGlob.Proofs.Selection.Start

/-!
A pattern is matched component by component. Its segments are laid against a path as one text, with
separators inside constants and behind globstars; this module tells what they match without segments.

* `Pattern.components` cuts the text of a pattern at its separators, and `Pattern.Divides` says how the
  components of a path are divided among those of a pattern.
* `Component` and `Composed` say how the segments of a text are composed of those of its components;
  `composed_of_spelled` goes along the tokens of the text.
* `Composed.matchAll_iff` goes along the components, and `Pattern.accepts_iff_divides` is the main
  result.
-/
namespace TreeGlob

/-- The characters that directly follow an escaping backslash; `escaped` says that the first one
does. -/
def escapedFrom (escaping : Bool) : (escaped : Bool) → Text → Text
  | _, [] => []
  | true, c :: rest => c :: escapedFrom escaping false rest
  | false, c :: rest => escapedFrom escaping (escaping && c = '\\') rest

/-- The characters of a text that directly follow an escaping backslash. -/
def escaped (escaping : Bool) (t : Text) : Text := escapedFrom escaping false t

namespace Pattern

/-! ## Components -/

/-- How many of the characters behind `c` it takes with it: a backslash the next one, an opening
bracket those up to its closing bracket. -/
def held (escaping : Bool) (c : Char) (rest : Text) : Nat :=
  if escaping && c = '\\' then 1
  else if c = '[' then
    match Bracket.read escaping 0 rest with
    | .ok (_, taken) => taken
    | .error _ => 0
  else 0

/-- Cuts a text at its separators, except for those in bracket expressions. The first `skip`
characters are kept with the one before. -/
def componentsFrom (escaping : Bool) : (skip : Nat) → Text → List Text
  | _, [] => [[]]
  | skip + 1, c :: rest => Brace.pushFront c (componentsFrom escaping skip rest)
  | 0, c :: rest =>
    if c = '/' then [] :: componentsFrom escaping 0 rest
    else Brace.pushFront c (componentsFrom escaping (held escaping c rest) rest)

/-- The components of a pattern's text. -/
def components (escaping : Bool) (text : Text) : List Text := componentsFrom escaping 0 text

def Wild (c : Text) : Prop := 2 ≤ c.length ∧ ∀ x ∈ c, x = '*'

instance (c : Text) : Decidable (Wild c) :=
  @instDecidableAnd _ _ (Nat.decLe 2 c.length) (List.decidableBAll (· = '*') c)

/-- Components without an empty last one behind one of two or more stars. -/
def trimmed : List Text → List Text
  | [] => []
  | c :: more => if Wild c ∧ more = [[]] then [c] else c :: trimmed more

/-- The components of a path are divided, in order, among those of a pattern. One of two or more stars
takes any number of them, but at least one if it comes last. Any other takes one, which it matches when
it is read as a pattern by itself; so an empty one takes none. -/
inductive Divides (d : Dialect) : List Text → List Text → Prop
  | nil : Divides d [] []
  | take {c x : Text} {more xs : List Text} (hc : ¬Wild c)
    (hx : ∃ q, read d c = .ok q ∧ q.accepts x = true) (h : Divides d more xs) :
    Divides d (c :: more) (x :: xs)
  | takeAny {c : Text} {more ys xs : List Text} (hc : Wild c) (hlast : more = [] → ys ≠ [])
    (h : Divides d more xs) : Divides d (c :: more) (ys ++ xs)

variable {escaping : Bool} {d : Dialect} {c text : Text} {comps xs : List Text}

theorem componentsFrom_append (word text : Text) :
    componentsFrom escaping word.length (word ++ text) =
      word.foldr Brace.pushFront (components escaping text) := by
  induction word with
  | nil => rfl
  | cons x word ih => rw [List.cons_append, List.length_cons, componentsFrom, ih, List.foldr_cons]

theorem components_separator (text : Text) :
    components escaping ('/' :: text) = [] :: components escaping text := by
  rw [components, componentsFrom, if_pos rfl]
  rfl

/-- The first component begins as the text does, and ends with it or at its separator. -/
theorem components_head {first : Text} {others : List Text}
    (h : components escaping text = first :: others) :
    first = [] ∧ (text = [] ∨ text.head? = some '/') ∨
      first ≠ [] ∧ first.head? = text.head? ∧ text.head? ≠ some '/' := by
  cases text with
  | nil => exact .inl ⟨(List.cons.inj h).1.symm, .inl rfl⟩
  | cons c text =>
    rw [components, componentsFrom] at h
    split at h
    · next hc => exact .inl ⟨(List.cons.inj h).1.symm, .inr (by rw [hc]; rfl)⟩
    · next hc =>
      right
      generalize componentsFrom escaping (held escaping c text) text = behind at h
      cases behind <;> obtain ⟨rfl, -⟩ := List.cons.inj h <;> exact ⟨by simp, rfl, by simpa using hc⟩

theorem components_stars (escaping : Bool) (after : Text) (n : Nat) :
    components escaping (List.replicate n '*' ++ after) =
      (List.replicate n '*').foldr Brace.pushFront (components escaping after) := by
  induction n with
  | zero => rfl
  | succ n ih =>
    rw [List.replicate_succ, List.cons_append, List.foldr_cons, ← ih, components, componentsFrom,
      if_neg (by decide)]
    simp [held, components]

theorem components_held {x : Char} {word : Text} (hx : x ≠ '/')
    (hword : held escaping x (word ++ text) = word.length) :
    components escaping (x :: word ++ text) =
      (x :: word).foldr Brace.pushFront (components escaping text) := by
  rw [List.cons_append, components, componentsFrom, if_neg hx, hword, componentsFrom_append]
  rfl

theorem wild_replicate (n : Nat) : Wild (List.replicate (n + 2) '*') :=
  ⟨by simp, fun _ hx => List.eq_of_mem_replicate hx⟩

theorem not_wild_cons {x : Char} (hx : x ≠ '*') (rest : Text) : ¬Wild (x :: rest) :=
  fun h => hx (h.2 x List.mem_cons_self)

theorem not_wild_nil : ¬Wild [] := fun h => by simp [Wild] at h

theorem trimmed_of_not_wild (hc : ¬Wild c) : trimmed (c :: comps) = c :: trimmed comps := by
  rw [trimmed, if_neg fun h => hc h.1]

theorem trimmed_ne_nil (h : comps ≠ []) : trimmed comps ≠ [] := by
  obtain ⟨c, comps, rfl⟩ := List.exists_cons_of_ne_nil h
  rw [trimmed]
  split <;> simp

/-! ## Division -/

theorem divides_nil_iff : Divides d comps [] ↔ comps = [] := by
  refine ⟨fun h => ?_, ?_⟩
  · generalize hxs : ([] : List Text) = xs at h
    induction h with
    | nil => rfl
    | take => cases hxs
    | takeAny hc hlast _ ih =>
      obtain ⟨rfl, rfl⟩ := List.append_eq_nil_iff.mp hxs.symm
      exact (hlast (ih rfl) rfl).elim
  · rintro rfl
    exact .nil

theorem divides_nil_left_iff : Divides d [] xs ↔ xs = [] := by
  refine ⟨fun h => ?_, ?_⟩
  · cases h
    rfl
  · rintro rfl
    exact .nil

theorem divides_cons_iff (hc : ¬Wild c) : Divides d (c :: comps) xs ↔
    ∃ x rest, xs = x :: rest ∧ (∃ q, read d c = .ok q ∧ q.accepts x = true) ∧
      Divides d comps rest := by
  refine ⟨fun h => ?_, ?_⟩
  · cases h with
    | take _ hx h => exact ⟨_, _, rfl, hx, h⟩
    | takeAny hw => exact (hc hw).elim
  · rintro ⟨x, rest, rfl, hx, h⟩
    exact .take hc hx h

theorem divides_wild_iff (hc : Wild c) (hne : comps ≠ []) : Divides d (c :: comps) xs ↔
    ∃ ys zs, xs = ys ++ zs ∧ Divides d comps zs := by
  refine ⟨fun h => ?_, ?_⟩
  · cases h with
    | take hw => exact (hw hc).elim
    | takeAny _ _ h => exact ⟨_, _, rfl, h⟩
  · rintro ⟨ys, zs, rfl, h⟩
    exact .takeAny hc (fun e => (hne e).elim) h

theorem divides_wild_last (hc : Wild c) (hne : xs ≠ []) : Divides d [c] xs := by
  rw [← List.append_nil xs]
  exact .takeAny hc (fun _ => hne) .nil

theorem Divides.nil_not_mem (h : Divides d comps xs) : [] ∉ comps := by
  induction h with
  | nil => simp
  | take _ hx _ ih =>
    obtain ⟨q, hq, -⟩ := hx
    rintro (_ | ⟨_, hm⟩)
    · simp [read] at hq
    · exact ih hm
  | takeAny hc _ _ ih =>
    rintro (_ | ⟨_, hm⟩)
    · exact not_wild_nil hc
    · exact ih hm

end Pattern

/-! ## Escaped characters -/

theorem escapedFrom_append {escaping : Bool} (e : Bool) (t u : Text) :
    escapedFrom escaping e (t ++ u) =
      escapedFrom escaping e t ++ escapedFrom escaping (escapesNext escaping e t) u := by
  induction t generalizing e with
  | nil => cases e <;> rfl
  | cons c t ih => cases e <;> simp [escapedFrom, escapesNext, ih]

theorem escaped_append {escaping : Bool} {t : Text} (h : Whole escaping t) (u : Text) :
    escaped escaping (t ++ u) = escaped escaping t ++ escaped escaping u := by
  rw [escaped, escapedFrom_append, h]
  rfl

theorem Token.whole {d : Dialect} {fresh : Bool} {word text : Text} {s : Segment}
    (h : Token d fresh word s text) : Whole d.escaping word := by
  cases h with
  | char hc => exact whole_singleton hc.2
  | escape he => exact whole_escape (by simp [he])
  | bracket hb =>
    exact (whole_of_not_mem (t := ['[']) (by decide)).append
      (hb.whole.append (whole_of_not_mem (by decide)))
  | anyChar | star | lastGlobstar | globstar => exact whole_of_not_mem (by simp [List.mem_replicate])

/-! ## How segments are composed -/

def Segment.Within : Segment → Prop
  | .constant text => '/' ∉ text
  | .globstar => False
  | .anyChar | .bracket _ | .star => True

/-- A text that is a component of a pattern, or the rest of one, and no component of two or more stars;
with its segments. -/
structure Component (d : Dialect) (fresh : Bool) (c : Text) (segments : List Segment) : Prop where
  spelled : Spelled d fresh c segments
  within : ∀ s ∈ segments, s.Within
  tame : fresh = true → ¬Pattern.Wild c

/-- Components and what the text made of them reads as. The first one may be the rest of one. -/
inductive Composed (d : Dialect) : (fresh : Bool) → List Text → List Segment → Prop
  | last {fresh c segments} (hc : Component d fresh c segments) : Composed d fresh [c] segments
  | lastWild {c} (hc : Pattern.Wild c) : Composed d true [c] [.globstar]
  | cons {fresh c segments comps more} (hc : Component d fresh c segments)
    (h : Composed d true comps more) :
    Composed d fresh (c :: comps) (segments ++ .constant ['/'] :: more)
  | wild {c comps more} (hc : Pattern.Wild c) (h : Composed d true comps more) :
    Composed d true (c :: comps) (.globstar :: more)

section Composition

variable {d : Dialect} {fresh : Bool} {c word text : Text} {s : Segment} {segments : List Segment}
  {comps : List Text}

theorem Component.nil : Component d fresh [] [] where
  spelled := .nil
  within := by simp
  tame _ := Pattern.not_wild_nil

theorem Component.prepend (ht : Token d fresh word s c) (hlast : word.getLast? ≠ some '/')
    (hs : s.Within) (htame : fresh = true → ¬Pattern.Wild (word ++ c))
    (h : Component d false c segments) : Component d fresh (word ++ c) (s :: segments) where
  spelled := .cons ht (by simpa [hlast] using h.spelled)
  within := List.forall_mem_cons.mpr ⟨hs, h.within⟩
  tame := htame

/-- A token that takes no separator goes in front of the first component. -/
theorem Composed.prepend (hlast : word.getLast? ≠ some '/') (hs : s.Within)
    (ht : ∀ first others, comps = first :: others →
      Token d fresh word s first ∧ (fresh = true → ¬Pattern.Wild (word ++ first)))
    (h : Composed d false comps segments) :
    Composed d fresh (word.foldr Brace.pushFront comps) (s :: segments) := by
  cases h with
  | last hc =>
    obtain ⟨htoken, htame⟩ := ht _ _ rfl
    rw [Brace.foldr_pushFront]
    exact .last (hc.prepend htoken hlast hs htame)
  | cons hc h =>
    obtain ⟨htoken, htame⟩ := ht _ _ rfl
    rw [Brace.foldr_pushFront, ← List.cons_append]
    exact .cons (hc.prepend htoken hlast hs htame) h

/-- A run of stars that is no component by itself goes in front of the first component, in which
something stands behind it. -/
theorem Composed.prependStars {n : Nat} (hrun : text.head? ≠ some '*')
    (hpart : fresh = true → 1 ≤ n → text ≠ [] ∧ text.head? ≠ some '/')
    (h : Composed d false (Pattern.components d.escaping text) segments) :
    Composed d fresh (Pattern.components d.escaping ('*' :: List.replicate n '*' ++ text))
      (.star :: segments) := by
  have hlast : ('*' :: List.replicate n '*').getLast? = some '*' := by
    rw [← List.replicate_succ, List.getLast?_replicate, if_neg (Nat.succ_ne_zero n)]
  rw [← List.replicate_succ, Pattern.components_stars, List.replicate_succ]
  refine h.prepend (by simp [hlast]) trivial fun first others hfirst => ?_
  have hhead : first.head? ≠ some '*' := by
    rcases Pattern.components_head hfirst with ⟨rfl, -⟩ | ⟨-, hh, -⟩
    · simp
    · rwa [hh]
  have hmore : fresh = true → 1 ≤ n → first ≠ [] ∧ first.head? ≠ some '/' := by
    intro hf hn
    obtain ⟨hne, hsep⟩ := hpart hf hn
    rcases Pattern.components_head hfirst with ⟨-, hend⟩ | ⟨hfirst, hh, -⟩
    · exact (hend.elim hne hsep).elim
    · exact ⟨hfirst, hh ▸ hsep⟩
  refine ⟨.star hhead hmore, fun hf hwild => ?_⟩
  cases first with
  | nil => exact (hmore hf (by simpa [Pattern.Wild] using hwild.1)).1 rfl
  | cons x first => exact hhead (congrArg some (hwild.2 x (by simp)))

/-- The segments of a text are composed of those of its components. -/
theorem composed_of_spelled (h : Spelled d fresh text segments)
    (he : '/' ∉ escaped d.escaping text) :
    Composed d fresh (Pattern.components d.escaping text) segments := by
  induction h with
  | nil => exact .last .nil
  | @cons fresh word s text segments htoken hmore ih =>
    rw [escaped_append htoken.whole, List.mem_append, not_or] at he
    have ih := ih he.2
    cases htoken with
    | @char _ c _ hc =>
      by_cases hsep : c = '/'
      · subst hsep
        exact (Pattern.components_separator text).symm ▸ .cons .nil (by simpa using ih)
      · have hstar : c ≠ '*' := fun e => by simp [Plain, e] at hc
        have hopen : c ≠ '[' := fun e => by simp [Plain, e] at hc
        have hheld : Pattern.held d.escaping c ([] ++ text) = 0 := by
          simp [Pattern.held, hc.2, hopen]
        rw [Pattern.components_held hsep hheld]
        exact Composed.prepend (by simpa using hsep) (by simpa [Segment.Within, eq_comm] using hsep)
          (fun first _ _ => ⟨.char hc, fun _ => Pattern.not_wild_cons hstar first⟩)
          (by simpa [hsep] using ih)
    | @escape _ c _ hd =>
      have hsep : c ≠ '/' := by
        rintro rfl
        simp [escaped, escapedFrom, hd] at he
      have hheld : Pattern.held d.escaping '\\' ([c] ++ text) = 1 := by simp [Pattern.held, hd]
      rw [show ['\\', c] ++ text = '\\' :: [c] ++ text from rfl,
        Pattern.components_held (by decide) hheld]
      exact Composed.prepend (by simpa using hsep) (by simpa [Segment.Within, eq_comm] using hsep)
        (fun first _ _ => ⟨.escape hd, fun _ => Pattern.not_wild_cons (by decide) _⟩)
        (by simpa [hsep] using ih)
    | anyChar =>
      have hheld : Pattern.held d.escaping '?' ([] ++ text) = 0 := by simp [Pattern.held]
      rw [Pattern.components_held (by decide) hheld]
      exact Composed.prepend (by decide) trivial
        (fun first _ _ => ⟨.anyChar, fun _ => Pattern.not_wild_cons (by decide) _⟩) (by simpa using ih)
    | @bracket _ inside b _ hb =>
      have hread : Bracket.read d.escaping 0 (inside ++ ']' :: text) = .ok (b, inside.length + 1) :=
        Bracket.read_iff.mpr ⟨inside, text, rfl, rfl, hb⟩
      have hheld : Pattern.held d.escaping '[' (inside ++ [']'] ++ text) = (inside ++ [']']).length := by
        simp [Pattern.held, hread]
      rw [Pattern.components_held (by decide) hheld]
      exact Composed.prepend (by simp [List.getLast?_cons]) trivial
        (fun first _ _ => ⟨.bracket hb, fun _ => Pattern.not_wild_cons (by decide) _⟩)
        (by simpa [List.getLast?_cons] using ih)
    | @star _ n _ hrun hpart =>
      have hlast : ('*' :: List.replicate n '*').getLast? = some '*' := by
        rw [← List.replicate_succ, List.getLast?_replicate, if_neg (Nat.succ_ne_zero n)]
      exact Composed.prependStars hrun hpart (by simpa [hlast] using ih)
    | @lastGlobstar n hd =>
      rw [Segment.eq_nil_of_spelled hmore]
      rw [List.append_nil, ← List.replicate_succ, ← List.replicate_succ, ← List.append_nil
        (List.replicate _ _), Pattern.components_stars]
      exact (Brace.foldr_pushFront _ _ _).symm ▸ .lastWild (by simpa using Pattern.wild_replicate n)
    | @globstar n _ hd =>
      have hcomps := Pattern.components_stars d.escaping ('/' :: text) (n + 2)
      rw [Pattern.components_separator, Brace.foldr_pushFront, List.append_nil] at hcomps
      have htext : '*' :: '*' :: (List.replicate n '*' ++ ['/']) ++ text =
          List.replicate (n + 2) '*' ++ '/' :: text := by simp [List.replicate_succ]
      rw [htext, hcomps]
      exact .wild (Pattern.wild_replicate n) (by simpa [List.getLast?_cons] using ih)

end Composition

/-! ## Paths -/

theorem closed_slashed (way : List Text) : Closed (slashed way) := by
  induction way with
  | nil => exact closed_nil
  | cons c way ih =>
    rw [slashed_cons, List.append_cons]
    exact (closed_append_separator c).append ih

theorem joined_append (way : List Text) {more : List Text} (h : more ≠ []) :
    joined (way ++ more) = slashed way ++ joined more := by
  induction way with
  | nil => rfl
  | cons c way ih =>
    rw [List.cons_append, joined_cons c (List.append_ne_nil_of_right_ne_nil way h), ih, slashed_cons]
    simp

section Paths

variable {xs : List Text} {start piece rest : Text}

theorem eq_cons_of_joined (hp : Pieces xs) (h : joined xs = start ++ '/' :: rest)
    (hstart : '/' ∉ start) : ∃ others, others ≠ [] ∧ xs = start :: others ∧ rest = joined others := by
  cases xs with
  | nil => simp [joined] at h
  | cons x xs =>
    obtain ⟨⟨-, hx⟩, -⟩ := List.forall_mem_cons.mp hp
    by_cases hxs : xs = []
    · rw [hxs, joined_singleton] at h
      exact (hx (by simp [h])).elim
    · rw [joined_cons x hxs] at h
      have hagree : Agree (x ++ '/' :: joined xs) (start ++ '/' :: rest) := h ▸ .inl List.prefix_rfl
      obtain ⟨rfl, -⟩ := hagree.word hx hstart
      have hrest := (List.cons.inj (List.append_cancel_left h)).2
      exact ⟨xs, hxs, rfl, hrest.symm⟩

theorem eq_append_of_joined (hp : Pieces xs) (hne : xs ≠ []) (h : joined xs = piece ++ rest)
    (hpiece : Closed piece) : ∃ ys zs, xs = ys ++ zs ∧ zs ≠ [] ∧ rest = joined zs := by
  induction xs generalizing piece with
  | nil => exact (hne rfl).elim
  | cons x xs ih =>
    by_cases hnil : piece = []
    · subst hnil
      exact ⟨[], x :: xs, rfl, hne, h.symm⟩
    obtain ⟨start, piece', rfl, hstart⟩ := List.eq_append_cons_of_mem (hpiece.mem hnil)
    rw [List.append_assoc, List.cons_append] at h
    obtain ⟨others, hothers, hxs, hrest⟩ := eq_cons_of_joined hp h hstart
    obtain ⟨rfl, rfl⟩ := List.cons.inj hxs
    have hclosed : Closed piece' := hpiece.of_suffix ⟨x ++ ['/'], by simp⟩
    obtain ⟨ys, zs, rfl, hzs, hjoin⟩ := ih (List.forall_mem_cons.mp hp).2 hothers hrest.symm hclosed
    exact ⟨x :: ys, zs, rfl, hzs, hjoin⟩

end Paths

/-! ## Matching -/

section Matching

variable {d : Dialect} {fresh : Bool} {c path : Text} {segments more : List Segment}
  {comps xs : List Text}

theorem Segment.separator_not_mem (hw : ∀ s ∈ segments, s.Within)
    (h : matchAll true segments path = true) : '/' ∉ path := by
  induction segments generalizing path with
  | nil => simp [matchAll_nil.mp h]
  | cons s segments ih =>
    obtain ⟨hs, hw⟩ := List.forall_mem_cons.mp hw
    obtain ⟨piece, rest, rfl, htakes, hrest⟩ := matchAll_cons_iff.mp h
    have hpiece : '/' ∉ piece := by
      cases s with
      | constant text => exact takes_constant_iff.mp htakes ▸ hs
      | anyChar =>
        obtain ⟨x, rfl, hx⟩ := htakes
        simpa using Ne.symm hx
      | bracket b =>
        obtain ⟨x, rfl, hx⟩ := htakes
        rw [List.mem_singleton]
        rintro rfl
        simp at hx
      | star => exact htakes
      | globstar => exact hs.elim
    simpa [hpiece] using ih hw hrest

/-- What a component's segments match is what its text matches as a pattern by itself. -/
theorem Component.matchAll_iff (hd : d.caseSensitive = true) (hc : Component d true c segments)
    (hpath : path ≠ []) : Segment.matchAll true segments path = true ↔
      ∃ q, Pattern.read d c = .ok q ∧ q.accepts path = true := by
  by_cases hnil : c = []
  · subst hnil
    rw [Segment.eq_nil_of_spelled hc.spelled, Segment.matchAll_nil]
    simp [hpath, Pattern.read]
  · have hread := Pattern.read_iff_spelled.mpr ⟨hnil, segments, hc.spelled, rfl⟩
    rw [hread]
    simp [Pattern.accepts, Segment.matchAll_merge, hd]

theorem Composed.ne_nil (h : Composed d fresh comps segments) : comps ≠ [] := by
  cases h <;> simp

theorem Composed.eq_nil (h : Composed d fresh [[]] segments) : segments = [] := by
  generalize hcomps : [[]] = comps at h
  cases h with
  | last hc =>
    obtain ⟨rfl, -⟩ := List.cons.inj hcomps
    exact Segment.eq_nil_of_spelled hc.spelled
  | lastWild hc | wild hc =>
    obtain ⟨rfl, -⟩ := List.cons.inj hcomps
    exact (Pattern.not_wild_nil hc).elim
  | cons hc h => exact (h.ne_nil (List.cons.inj hcomps).2.symm).elim

theorem Composed.eq_of_nil (h : Composed d fresh comps []) : comps = [[]] := by
  generalize hsegments : ([] : List Segment) = segments at h
  cases h with
  | last hc =>
    subst hsegments
    cases hc.spelled
    rfl
  | lastWild | wild => cases hsegments
  | cons => simp at hsegments

/-- The segments of a component with a separator behind them take the first component of a path. -/
theorem Component.matchAll_append_iff (hd : d.caseSensitive = true)
    (hc : Component d true c segments) (hp : Pieces xs) :
    Segment.matchAll true (segments ++ .constant ['/'] :: more) (joined xs) = true ↔
      ∃ x rest, xs = x :: rest ∧ rest ≠ [] ∧ (∃ q, Pattern.read d c = .ok q ∧ q.accepts x = true) ∧
        Segment.matchAll true more (joined rest) = true := by
  rw [Segment.matchAll_append_iff fun s hs e => by simpa [e, Segment.Within] using hc.within s hs]
  refine ⟨?_, ?_⟩
  · rintro ⟨start, _, hjoin, hstart, hm⟩
    -- The separator between the components is the first one of the path.
    obtain ⟨piece, rest, rfl, hsep, hm⟩ := Segment.matchAll_cons_iff.mp hm
    obtain rfl := Segment.takes_constant_iff.mp hsep
    obtain ⟨others, hothers, rfl, rfl⟩ :=
      eq_cons_of_joined hp hjoin (Segment.separator_not_mem hc.within hstart)
    have hx := (hp start List.mem_cons_self).1
    exact ⟨start, others, rfl, hothers, (hc.matchAll_iff hd hx).mp hstart, hm⟩
  · rintro ⟨x, rest, rfl, hrest, hx, hm⟩
    have hx := (hc.matchAll_iff hd (hp x List.mem_cons_self).1).mpr hx
    refine ⟨x, '/' :: joined rest, joined_cons x hrest, hx, ?_⟩
    exact Segment.matchAll_cons_iff.mpr ⟨['/'], joined rest, rfl, Segment.takes_constant_iff.mpr rfl, hm⟩

theorem Component.matchAll_joined_iff (hd : d.caseSensitive = true)
    (hc : Component d true c segments) (hp : Pieces xs) (hne : xs ≠ []) :
    Segment.matchAll true segments (joined xs) = true ↔
      ∃ x, xs = [x] ∧ ∃ q, Pattern.read d c = .ok q ∧ q.accepts x = true := by
  refine ⟨fun hm => ?_, ?_⟩
  · obtain ⟨x, rest, rfl⟩ := List.exists_cons_of_ne_nil hne
    have hrest : rest = [] := by
      by_contra hrest
      have hsep := Segment.separator_not_mem hc.within hm
      simp [joined_cons x hrest] at hsep
    subst hrest
    rw [joined_singleton] at hm
    exact ⟨x, rfl, (hc.matchAll_iff hd (hp x List.mem_cons_self).1).mp hm⟩
  · rintro ⟨x, rfl, hx⟩
    rw [joined_singleton]
    exact (hc.matchAll_iff hd (hp x List.mem_cons_self).1).mpr hx

/-- A globstar takes any number of components, if other segments are left to match the rest. -/
theorem Segment.matchAll_globstar_iff (hmore : more ≠ []) (hp : Pieces xs) (hne : xs ≠ []) :
    matchAll true (.globstar :: more) (joined xs) = true ↔
      ∃ ys zs, xs = ys ++ zs ∧ zs ≠ [] ∧ matchAll true more (joined zs) = true := by
  rw [matchAll_cons_iff]
  refine ⟨?_, ?_⟩
  · rintro ⟨piece, rest, hjoin, htakes, hm⟩
    have hclosed : Closed piece := htakes.resolve_left (by simpa using hmore)
    obtain ⟨ys, zs, rfl, hzs, rfl⟩ := eq_append_of_joined hp hne hjoin hclosed
    exact ⟨ys, zs, rfl, hzs, hm⟩
  · rintro ⟨ys, zs, rfl, hzs, hm⟩
    exact ⟨slashed ys, joined zs, joined_append ys hzs, .inr (closed_slashed ys), hm⟩

/-- The segments of a text match a path just if the path's components are divided among the text's. -/
theorem Composed.matchAll_iff (hd : d.caseSensitive = true) (h : Composed d true comps segments)
    (hp : Pieces xs) (hne : xs ≠ []) : Segment.matchAll true segments (joined xs) = true ↔
      Pattern.Divides d (Pattern.trimmed comps) xs := by
  generalize hfresh : true = fresh at h
  -- What is left to divide among components is not nothing.
  have hleft : ∀ {fresh : Bool} {comps rest : List Text} {more : List Segment},
      Composed d fresh comps more → Pattern.Divides d (Pattern.trimmed comps) rest → rest ≠ [] := by
    rintro _ _ _ _ h hdiv rfl
    exact Pattern.trimmed_ne_nil h.ne_nil (Pattern.divides_nil_iff.mp hdiv)
  induction h generalizing xs with
  | @last _ c segments hc =>
    subst hfresh
    rw [hc.matchAll_joined_iff hd hp hne, Pattern.trimmed_of_not_wild (hc.tame rfl),
      Pattern.divides_cons_iff (hc.tame rfl)]
    simp only [Pattern.trimmed, Pattern.divides_nil_left_iff]
    refine ⟨?_, ?_⟩
    · rintro ⟨x, rfl, hx⟩
      exact ⟨x, [], rfl, hx, rfl⟩
    · rintro ⟨x, _, rfl, hx, rfl⟩
      exact ⟨x, rfl, hx⟩
  | @lastWild c hc =>
    rw [Pattern.trimmed, if_neg fun hyp => by simp at hyp]
    exact iff_of_true (by simp [Segment.matchAll]) (Pattern.divides_wild_last hc hne)
  | @cons _ c segments comps more hc h ih =>
    subst hfresh
    rw [hc.matchAll_append_iff hd hp, Pattern.trimmed_of_not_wild (hc.tame rfl),
      Pattern.divides_cons_iff (hc.tame rfl)]
    refine ⟨?_, ?_⟩
    · rintro ⟨x, rest, rfl, hrest, hx, hm⟩
      exact ⟨x, rest, rfl, hx, (ih (List.forall_mem_cons.mp hp).2 hrest rfl).mp hm⟩
    · rintro ⟨x, rest, rfl, hx, hdiv⟩
      have hrest := hleft h hdiv
      exact ⟨x, rest, rfl, hrest, hx, (ih (List.forall_mem_cons.mp hp).2 hrest rfl).mpr hdiv⟩
  | @wild c comps more hc h ih =>
    by_cases hcomps : comps = [[]]
    · -- The separator behind the stars is the last character of the text.
      subst hcomps
      rw [Pattern.trimmed, if_pos ⟨hc, rfl⟩, h.eq_nil]
      exact iff_of_true (by simp [Segment.matchAll]) (Pattern.divides_wild_last hc hne)
    · have hmore : more ≠ [] := fun e => hcomps (e ▸ h).eq_of_nil
      rw [Segment.matchAll_globstar_iff hmore hp hne, Pattern.trimmed, if_neg fun hyp => hcomps hyp.2,
        Pattern.divides_wild_iff hc (Pattern.trimmed_ne_nil h.ne_nil)]
      refine ⟨?_, ?_⟩
      · rintro ⟨ys, zs, rfl, hzs, hm⟩
        exact ⟨ys, zs, rfl, (ih (fun x hx => hp x (List.mem_append_right ys hx)) hzs rfl).mp hm⟩
      · rintro ⟨ys, zs, rfl, hdiv⟩
        have hzs := hleft h hdiv
        exact ⟨ys, zs, rfl, hzs, (ih (fun x hx => hp x (List.mem_append_right ys hx)) hzs rfl).mpr hdiv⟩

end Matching

namespace Pattern

/-- **Matching goes component by component.** A pattern matches a path just if the components of the
path can be divided among those of the pattern's text, and nothing at all if one of these is empty. -/
theorem accepts_iff_divides {d : Dialect} (hcase : d.caseSensitive = true) {raw : Text} {p : Pattern}
    (h : read d raw = .ok p) (hescaped : '/' ∉ escaped d.escaping raw) {xs : List Text}
    (hne : xs ≠ []) (hp : Pieces xs) :
    (p.accepts (joined xs) = true ↔ Divides d (trimmed (components d.escaping raw)) xs) ∧
      ([] ∈ trimmed (components d.escaping raw) → p.accepts (joined xs) = false) := by
  have hiff : p.accepts (joined xs) = true ↔ Divides d (trimmed (components d.escaping raw)) xs := by
    obtain ⟨-, segments, hspelled, rfl⟩ := read_iff_spelled.mp h
    rw [accepts, Segment.matchAll_merge, hcase]
    exact (composed_of_spelled hspelled hescaped).matchAll_iff hcase hp hne
  refine ⟨hiff, fun hnil => ?_⟩
  rw [← Bool.not_eq_true, hiff]
  exact fun hdiv => hdiv.nil_not_mem hnil

theorem accepts_iff_divides_around_globstars :
    ∃ p, read {} "a[/x]/**/*.rs/**/".toList = .ok p ∧ ({} : Dialect).caseSensitive = true ∧
      '/' ∉ escaped true "a[/x]/**/*.rs/**/".toList ∧
      ["ax".toList, "b.rs".toList, "c".toList] ≠ [] ∧
      Pieces ["ax".toList, "b.rs".toList, "c".toList] ∧
      trimmed (components true "a[/x]/**/*.rs/**/".toList) =
        ["a[/x]".toList, "**".toList, "*.rs".toList, "**".toList] ∧
      p.accepts (joined ["ax".toList, "b.rs".toList, "c".toList]) = true ∧
      Divides {} (trimmed (components true "a[/x]/**/*.rs/**/".toList))
        ["ax".toList, "b.rs".toList, "c".toList] := by
  have hr : read {} "a[/x]/**/*.rs/**/".toList = .ok {
      source := "a[/x]/**/*.rs/**/".toList
      segments := [.constant "a".toList, .bracket ⟨[('/', '/'), ('x', 'x')], [], false⟩,
        .constant "/".toList, .globstar, .star, .constant ".rs/".toList, .globstar]
      dialect := {} } := by
    rfl
  have hescaped : '/' ∉ escaped true "a[/x]/**/*.rs/**/".toList := by decide
  have hp : Pieces ["ax".toList, "b.rs".toList, "c".toList] := by
    simp [Pieces]
  have hiff := (accepts_iff_divides rfl hr hescaped (by simp) hp).1
  refine ⟨_, hr, rfl, hescaped, by simp, hp, by decide +kernel, by decide +kernel, ?_⟩
  exact hiff.mp (by decide +kernel)

end Pattern

end TreeGlob
