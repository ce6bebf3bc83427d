import TreeGlob.Proofs.Pattern.Leftovers

/-!
What is a pattern and what is not, told by the text alone.

A word is a token by itself, except for a run of stars: it has to be as long as the stars go, and where
the dialect has no wildcard for whole components it must not be one. What stands before and behind the
word decides that.

* `Lexeme` says which words are tokens, and `Lexemes` are the texts that are sequences of them. Unlike a
  `Token`, a run of stars never takes the separator behind it, which is a word of its own.
* `Passed.lexemes` and `Lexemes.passed` say that both ways of cutting a text come to the same places.
* `Stuck` says where no token can be read and why. `Segment.read_eq_error_iff_stuck` says that these are
  the errors of the reader, and `Stuck.not_lexeme` that there is no token indeed.
* `PatternError.PointsInto` says which character an error is about.
* `Pattern.accepts_exactly_its_grammar` is the main result.
-/
namespace TreeGlob

/-! ## Tokens -/

/-- A run of stars with something before and behind it is a component of two or more stars. -/
def WholeRun (before : Text) (stars : Nat) (after : Text) : Prop :=
  2 ≤ stars ∧ (before = [] ∨ before.getLast? = some '/') ∧ (after = [] ∨ after.head? = some '/')

/-- A word that is a token behind one text and in front of another. -/
inductive Lexeme (d : Dialect) (before : Text) : (word after : Text) → Prop
  | char {c after} (hc : Plain d.escaping c) : Lexeme d before [c] after
  | escape {c after} (he : d.escaping = true) : Lexeme d before ['\\', c] after
  | anyChar {after} : Lexeme d before ['?'] after
  | stars {n after} (hrun : after.head? ≠ some '*')
    (hpart : d.pathWildcards = false → ¬WholeRun before (n + 1) after) :
    Lexeme d before (List.replicate (n + 1) '*') after
  | bracket {inside b after}
    (hb : Bracket.read d.escaping before.length (inside ++ after) = .ok (b, inside.length)) :
    Lexeme d before ('[' :: inside) after

/-- A sequence of tokens behind one text and in front of another. -/
inductive Lexemes (d : Dialect) : (before text after : Text) → Prop
  | nil {before after} : Lexemes d before [] after
  | cons {before word text after} (hw : Lexeme d before word (text ++ after))
    (h : Lexemes d (before ++ word) text after) : Lexemes d before (word ++ text) after

section Lexemes

variable {d : Dialect} {fresh : Bool} {before word text rest after : Text} {s : Segment}

theorem atStart_iff : atStart before.getLast? = true ↔ before = [] ∨ before.getLast? = some '/' := by
  simp [atStart]

theorem atStart_append (hne : word ≠ []) :
    atStart (before ++ word).getLast? = decide (word.getLast? = some '/') := by
  rw [List.getLast?_append_of_ne_nil before hne, atStart]
  simp [hne]

theorem Lexemes.append (ht : Lexemes d before text (rest ++ after))
    (hr : Lexemes d (before ++ text) rest after) : Lexemes d before (text ++ rest) after := by
  generalize hbehind : rest ++ after = behind at ht
  induction ht with
  | nil => simpa using hr
  | @cons before word text behind hw _ ih =>
    subst hbehind
    rw [List.append_assoc]
    apply Lexemes.cons
    · rwa [List.append_assoc]
    · apply ih _ rfl
      rwa [List.append_assoc]

theorem Lexeme.lexemes (h : Lexeme d before word after) : Lexemes d before word after := by
  have hw : Lexeme d before word ([] ++ after) := h
  simpa using Lexemes.cons hw .nil

theorem separator_plain (escaping : Bool) : Plain escaping '/' := ⟨by decide, by simp⟩

/-- A component that is a wildcard for components is a run of stars, and a separator behind it. -/
theorem Token.lexemes (h : Token d (atStart before.getLast?) word s after) :
    Lexemes d before word after := by
  generalize hfresh : atStart before.getLast? = fresh at h
  cases h with
  | char hc => exact (Lexeme.char hc).lexemes
  | escape he => exact (Lexeme.escape he).lexemes
  | anyChar => exact Lexeme.anyChar.lexemes
  | @bracket _ inside b _ hb =>
    have hread := (@Bracket.read_iff d.escaping before.length (inside.length + 1) _ b).mpr
      ⟨inside, after, rfl, rfl, hb⟩
    apply Lexeme.lexemes
    apply Lexeme.bracket
    rw [← List.append_cons, hread, List.length_append]
    rfl
  | @star _ n _ hrun hpart =>
    apply Lexeme.lexemes
    rw [← List.replicate_succ]
    apply Lexeme.stars hrun
    intro _ hwhole
    obtain ⟨hn, hstart, hend⟩ := hwhole
    obtain ⟨hne, hhead⟩ := hpart (hfresh ▸ atStart_iff.mpr hstart) (by omega)
    exact hend.elim hne hhead
  | @lastGlobstar n hd =>
    apply Lexeme.lexemes
    rw [← List.replicate_succ, ← List.replicate_succ]
    apply Lexeme.stars (by simp)
    simp [hd]
  | @globstar n _ hd =>
    have hword : '*' :: '*' :: (List.replicate n '*' ++ ['/']) =
        List.replicate (n + 2) '*' ++ ['/'] := by simp [List.replicate_succ]
    rw [hword]
    refine Lexemes.append (Lexeme.lexemes ?_) (Lexeme.char (separator_plain _)).lexemes
    apply Lexeme.stars (by simp)
    simp [hd]

theorem Passed.lexemes (h : Passed d (atStart before.getLast?) text after) :
    Lexemes d before text after := by
  generalize hfresh : atStart before.getLast? = fresh at h
  induction h generalizing before with
  | nil => exact .nil
  | cons ht _ ih =>
    subst hfresh
    apply ht.lexemes.append
    apply ih
    exact atStart_append (Segment.token_ne_nil ht)

theorem Lexeme.token (h : Lexeme d before word after) :
    (∃ s, Token d (atStart before.getLast?) word s after) ∨
      ∃ rest, after = '/' :: rest ∧
        ∃ s, Token d (atStart before.getLast?) (word ++ ['/']) s rest := by
  cases h with
  | char hc => exact .inl ⟨_, .char hc⟩
  | escape he => exact .inl ⟨_, .escape he⟩
  | anyChar => exact .inl ⟨_, .anyChar⟩
  | @bracket inside b _ hb =>
    obtain ⟨inner, rest, htext, hlen, henc⟩ := Bracket.read_iff.mp hb
    rw [List.append_cons] at htext
    obtain ⟨rfl, rfl⟩ := List.append_inj htext (by simpa using hlen)
    exact .inl ⟨_, .bracket henc⟩
  | @stars n _ hrun hpart =>
    by_cases hwhole : WholeRun before (n + 1) after
    · have hd : d.pathWildcards = true := by
        by_contra hd
        exact hpart (by simpa using hd) hwhole
      obtain ⟨hn, hstart, hend⟩ := hwhole
      obtain ⟨n, rfl⟩ : ∃ m, n = m + 1 := ⟨n - 1, by omega⟩
      rw [atStart_iff.mpr hstart]
      rcases hend with rfl | hend
      · exact .inl ⟨_, .lastGlobstar hd⟩
      · obtain ⟨rest, rfl⟩ := List.head?_eq_some_iff.mp hend
        exact .inr ⟨rest, rfl, _, .globstar hd⟩
    · refine .inl ⟨_, .star hrun ?_⟩
      intro hstart hn
      rw [← not_or]
      intro hend
      exact hwhole ⟨by omega, atStart_iff.mp hstart, hend⟩

theorem Lexeme.ne_nil (h : Lexeme d before word after) : word ≠ [] := by
  cases h <;> simp

theorem Passed.separator (h : Passed d fresh ('/' :: text) after) : Passed d true text after := by
  generalize htext : '/' :: text = whole at h
  cases h with
  | nil => cases htext
  | @cons _ word s before _ ht h =>
    generalize before ++ after = behind at ht
    cases ht with
    | char hc =>
      obtain ⟨rfl, rfl⟩ := List.cons.inj htext
      exact h
    | _ => simp at htext

/-- The reader comes to all that stands behind a sequence of tokens, unless a separator is next. -/
theorem Lexemes.passed (h : Lexemes d before text after) (hafter : after.head? ≠ some '/') :
    Passed d (atStart before.getLast?) text after := by
  induction h with
  | nil => exact .nil
  | @cons before word text after hw _ ih =>
    have hrest := ih hafter
    obtain ⟨s, ht⟩ | ⟨rest, hsep, s, ht⟩ := hw.token
    · rw [atStart_append (Segment.token_ne_nil ht)] at hrest
      exact .cons ht hrest
    · cases text with
      | nil => exact (hafter (by rw [← List.nil_append after, hsep]; rfl)).elim
      | cons c text =>
        obtain ⟨rfl, rfl⟩ := List.cons.inj hsep
        rw [List.append_cons]
        refine .cons ht ?_
        simpa using hrest.separator

theorem passed_iff_spelled : Passed d fresh text [] ↔ ∃ segments, Spelled d fresh text segments := by
  constructor
  · intro h
    generalize hend : ([] : Text) = rest at h
    induction h with
    | nil => exact ⟨[], .nil⟩
    | cons ht _ ih =>
      obtain ⟨segments, hspelled⟩ := ih hend
      rw [← hend, List.append_nil] at ht
      exact ⟨_, .cons ht hspelled⟩
  · intro h
    obtain ⟨segments, h⟩ := h
    induction h with
    | nil => exact .nil
    | cons ht _ ih => exact .cons (by rwa [List.append_nil]) ih

end Lexemes

/-! ## Where no token can be read -/

/-- Why no token can be read behind a text, at a character and what follows it. -/
inductive Stuck (d : Dialect) (before : Text) : (c : Char) → (rest : Text) → PatternError → Prop
  | close {rest} : Stuck d before ']' rest (.unmatchedBracket before.length)
  | brace {c rest} (hc : c = '{' ∨ c = '}') : Stuck d before c rest (.unexpandedGroup before.length)
  | stars {n after} (hrun : after.head? ≠ some '*') (hd : d.pathWildcards = false)
    (hwhole : WholeRun before (n + 1) after) :
    Stuck d before '*' (List.replicate n '*' ++ after) (.pathWildcardNotAllowed before.length)
  | escape (he : d.escaping = true) : Stuck d before '\\' [] .trailingEscape
  | bracket {rest e} (hb : Bracket.read d.escaping before.length rest = .error e) :
    Stuck d before '[' rest e

section Stuck

variable {d : Dialect} {before word rest after : Text} {c : Char} {e : PatternError}

theorem wholeRun_iff {n : Nat} : WholeRun before (n + 1) after ↔
    (decide (1 ≤ n) && ((before.getLast? = none || before.getLast? = some '/') &&
      (after = [] || after.head? = some '/'))) = true := by
  simp [WholeRun]

theorem readStars_eq_error_iff {n : Nat} :
    Segment.readStars d before.length before.getLast? n after = .error e ↔
      d.pathWildcards = false ∧ WholeRun before (n + 1) after ∧
        e = .pathWildcardNotAllowed before.length := by
  rw [wholeRun_iff]
  unfold Segment.readStars
  dsimp only
  split
  · next hwhole =>
    cases hd : d.pathWildcards
    · simp only [hwhole, true_and]
      simp [eq_comm]
    · simp
  · next hwhole => exact iff_of_false (by simp) fun h => hwhole h.2.1

theorem Segment.read_eq_error_iff_stuck :
    read d before.length before.getLast? c rest = .error e ↔ Stuck d before c rest e := by
  constructor
  · intro h
    unfold read at h
    split at h
    · next hc =>
      subst hc
      obtain ⟨n, after, rfl, hrun⟩ := exists_stars rest
      rw [(stars_append hrun n).1, (stars_append hrun n).2, List.length_replicate] at h
      obtain ⟨hd, hwhole, rfl⟩ := readStars_eq_error_iff.mp h
      exact .stars hrun hd hwhole
    split at h
    · cases h
    split at h
    · next hc =>
      subst hc
      obtain h | ⟨_, _, h⟩ := bind_eq_error_iff.mp h
      · exact .bracket h
      · cases h
    split at h
    · next hc =>
      subst hc
      cases h
      exact .close
    split at h
    · next hc =>
      cases h
      exact .brace hc
    · obtain h | ⟨_, _, h⟩ := bind_eq_error_iff.mp h
      · obtain ⟨hc, rfl, rfl⟩ := readEscaped_eq_error_iff.mp h
        obtain ⟨he, hb⟩ := Bool.and_eq_true_iff.mp hc
        obtain rfl := of_decide_eq_true hb
        exact .escape he
      · cases h
  · intro h
    cases h with
    | close => rfl
    | brace hc => exact read_eq_unexpandedGroup_iff.mpr ⟨hc, rfl⟩
    | @stars n after hrun hd hwhole =>
      unfold read
      rw [if_pos rfl, (stars_append hrun n).1, (stars_append hrun n).2, List.length_replicate]
      exact readStars_eq_error_iff.mpr ⟨hd, hwhole, rfl⟩
    | escape he =>
      exact bind_eq_error_iff.mpr (.inl (readEscaped_eq_error_iff.mpr ⟨by simp [he], rfl, rfl⟩))
    | bracket hb => exact bind_eq_error_iff.mpr (.inl hb)

theorem Stuck.not_lexeme (h : Stuck d before c rest e) (hrest : c :: rest = word ++ after) :
    ¬Lexeme d before word after := by
  intro hword
  obtain ⟨x, tail, rfl⟩ := List.exists_cons_of_ne_nil hword.ne_nil
  obtain ⟨rfl, rfl⟩ := List.cons.inj hrest
  have herror := Segment.read_eq_error_iff_stuck.mpr h
  obtain ⟨s, ht⟩ | ⟨rest, rfl, s, ht⟩ := hword.token
  · have hread := @Segment.read_of_token d before.length _ c s _ _ ht
    cases herror.symm.trans hread
  · have hread : Segment.read d before.length before.getLast? c (tail ++ ['/'] ++ rest) = _ :=
      Segment.read_of_token ht
    rw [← List.append_cons] at hread
    cases herror.symm.trans hread

theorem Stuck.ne_separator (h : Stuck d before c rest e) : c ≠ '/' := by
  intro hc
  subst hc
  exact h.not_lexeme List.singleton_append.symm (.char (separator_plain _))

end Stuck

/-! ## What an error is about -/

/-- The position that an error gives is that of the character that it is about: a bracket, a brace that
is no group of a single pattern, or the first star of a run. -/
def PatternError.PointsInto (raw : Text) : PatternError → Prop
  | .unmatchedBracket p => raw[p]? = some '[' ∨ raw[p]? = some ']'
  | .unexpandedGroup p => raw[p]? = some '{' ∨ raw[p]? = some '}'
  | .pathWildcardNotAllowed p => ∃ before stars after,
      raw = before ++ (List.replicate (stars + 1) '*' ++ after) ∧ before.length = p ∧
        before.getLast? ≠ some '*' ∧ after.head? ≠ some '*'
  | .unmatchedBrace _ => False
  | .empty | .unknownClass _ | .invalidRange _ _ | .trailingEscape => True

theorem Stuck.pointsInto {d : Dialect} {before rest : Text} {c : Char} {e : PatternError}
    (h : Stuck d before c rest e) : e.PointsInto (before ++ c :: rest) := by
  have hhere : (before ++ c :: rest)[before.length]? = some c := by simp
  cases h with
  | close => exact .inr hhere
  | brace hc =>
    obtain rfl | rfl := hc
    · exact .inl hhere
    · exact .inr hhere
  | @stars n after hrun _ hwhole =>
    refine ⟨before, n, after, rfl, rfl, ?_, hrun⟩
    obtain ⟨-, rfl | hlast, -⟩ := hwhole
    · simp
    · simp [hlast]
  | escape => trivial
  | bracket hb =>
    cases Bracket.Fault.of_read hb with
    | unmatched => exact .inl hhere
    | escape => trivial
    | unknown => trivial
    | backwards => trivial

/-! ## Patterns -/

namespace Pattern

variable {d : Dialect} {raw : Text} {e : PatternError}

theorem read_ok_iff_lexemes : (∃ p, read d raw = .ok p) ↔ raw ≠ [] ∧ Lexemes d [] raw [] := by
  constructor
  · intro h
    obtain ⟨p, hp⟩ := h
    obtain ⟨hne, segments, hspelled, -⟩ := read_iff_spelled.mp hp
    have hpassed : Passed d (atStart ([] : Text).getLast?) raw [] :=
      passed_iff_spelled.mpr ⟨segments, hspelled⟩
    exact ⟨hne, hpassed.lexemes⟩
  · intro h
    obtain ⟨hne, hlexemes⟩ := h
    obtain ⟨segments, hspelled⟩ := passed_iff_spelled.mp (hlexemes.passed (by simp))
    exact ⟨_, read_iff_spelled.mpr ⟨hne, segments, hspelled, rfl⟩⟩

/-- A text that is not empty is refused at the first place where no token can be read. -/
theorem read_error_iff_stuck (hne : raw ≠ []) : read d raw = .error e ↔
    ∃ before c rest, raw = before ++ c :: rest ∧ Lexemes d [] before (c :: rest) ∧
      Stuck d before c rest e := by
  have hread : read d raw = .error e ↔ Segment.readAll d 0 none 0 raw = .error e := by
    unfold read
    rw [if_neg hne, bind_eq_error_iff]
    simp
  rw [hread, Segment.readAll_eq_error_iff]
  constructor
  · intro h
    obtain ⟨before, c, rest, hraw, hpassed, herror⟩ := h
    have hpassed : Passed d (atStart ([] : Text).getLast?) before (c :: rest) := hpassed
    rw [Nat.zero_add, Option.or_none] at herror
    exact ⟨before, c, rest, hraw, hpassed.lexemes, Segment.read_eq_error_iff_stuck.mp herror⟩
  · intro h
    obtain ⟨before, c, rest, hraw, hlexemes, hstuck⟩ := h
    refine ⟨before, c, rest, hraw, hlexemes.passed (by simp [hstuck.ne_separator]), ?_⟩
    rw [Nat.zero_add, Option.or_none]
    exact Segment.read_eq_error_iff_stuck.mpr hstuck

/-- **The reader accepts exactly the grammar.** A text is a pattern just if it is a sequence of tokens
that is not empty. Any other text is refused with what is wrong at the first place where no token can be
read, and the position that is reported is that of the character that is wrong. -/
theorem accepts_exactly_its_grammar (d : Dialect) (raw : Text) :
    ((∃ p, read d raw = .ok p) ↔ raw ≠ [] ∧ Lexemes d [] raw []) ∧
    (∀ e, read d raw = .error e ↔ raw = [] ∧ e = .empty ∨
      ∃ before c rest, raw = before ++ c :: rest ∧ Lexemes d [] before (c :: rest) ∧
        (∀ word after, c :: rest = word ++ after → ¬Lexeme d before word after) ∧
        Stuck d before c rest e) ∧
    ∀ e, read d raw = .error e → e.PointsInto raw := by
  have hempty : read d [] = .error .empty := rfl
  refine ⟨read_ok_iff_lexemes, ?_, ?_⟩
  · intro e
    by_cases hne : raw = []
    · subst hne
      simp [hempty, eq_comm]
    · rw [read_error_iff_stuck hne]
      constructor
      · intro h
        obtain ⟨before, c, rest, hraw, hlexemes, hstuck⟩ := h
        exact .inr ⟨before, c, rest, hraw, hlexemes, fun _ _ => hstuck.not_lexeme, hstuck⟩
      · intro h
        obtain ⟨hnil, -⟩ | ⟨before, c, rest, hraw, hlexemes, -, hstuck⟩ := h
        · exact (hne hnil).elim
        · exact ⟨before, c, rest, hraw, hlexemes, hstuck⟩
  · intro e h
    by_cases hne : raw = []
    · subst hne
      cases hempty.symm.trans h
      trivial
    · obtain ⟨before, c, rest, rfl, -, hstuck⟩ := (read_error_iff_stuck hne).mp h
      exact hstuck.pointsInto

/-- Without wildcards for components, `a**/b` and `\**` are patterns, as their runs of stars are no
components. `a/**` is refused at the first star of its run, and `[]a` at its opening bracket. -/
theorem accepts_exactly_its_grammar_without_globstars :
    Lexemes { pathWildcards := false } [] "a**/b".toList [] ∧
      Lexemes { pathWildcards := false } [] "\\**".toList [] ∧
      (read { pathWildcards := false } "a/**".toList = .error (.pathWildcardNotAllowed 2) ∧
        (PatternError.pathWildcardNotAllowed 2).PointsInto "a/**".toList) ∧
      (read {} "[]a".toList = .error (.unmatchedBracket 0) ∧
        (PatternError.unmatchedBracket 0).PointsInto "[]a".toList) := by
  obtain ⟨hword, -, -⟩ :=
    accepts_exactly_its_grammar { pathWildcards := false } "a**/b".toList
  obtain ⟨hescape, -, -⟩ :=
    accepts_exactly_its_grammar { pathWildcards := false } "\\**".toList
  obtain ⟨-, -, hstars⟩ :=
    accepts_exactly_its_grammar { pathWildcards := false } "a/**".toList
  obtain ⟨-, -, hbracket⟩ := accepts_exactly_its_grammar {} "[]a".toList
  have hstar : read { pathWildcards := false } "a/**".toList =
      .error (.pathWildcardNotAllowed 2) := by rfl
  have hopen : read {} "[]a".toList = .error (.unmatchedBracket 0) := by rfl
  exact ⟨(hword.mp ⟨_, rfl⟩).2, (hescape.mp ⟨_, rfl⟩).2, ⟨hstar, hstars _ hstar⟩,
    ⟨hopen, hbracket _ hopen⟩⟩

end Pattern

end TreeGlob
