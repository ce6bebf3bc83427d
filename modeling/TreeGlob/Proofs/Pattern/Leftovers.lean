import TreeGlob.Proofs.Pattern.Grammar
import TreeGlob.Proofs.Pattern.Groups
import TreeGlob.Proofs.Selection.Compile

/-!
Why expansion leaves no brace group to the reader of patterns. The search for groups and the reader
delimit bracket expressions differently, so this is not seen from either of them alone.

* `Passed` texts are those that the reader has read when it comes to what stands behind them.
  `Segment.readAll_eq_error_iff` says that it fails where it comes to something it cannot read.
* `Segment.read_eq_unexpandedGroup_iff` says that a brace it comes to is the one thing it takes for a
  group.
* `Passed.outside` says that the search, too, is outside of bracket expressions wherever the reader
  comes to, so that it would have seen the brace.
* `Pattern.no_group_left` is the main result.
-/
namespace TreeGlob

/-! ## Where the reader comes to -/

/-- A sequence of tokens in front of a text, at the start of a component or not: the reader passes
over the tokens and comes to the text. -/
inductive Passed (d : Dialect) : (fresh : Bool) → (before rest : Text) → Prop
  | nil {fresh rest} : Passed d fresh [] rest
  | cons {fresh word s before rest} (ht : Token d fresh word s (before ++ rest))
      (h : Passed d (word.getLast? = some '/') before rest) : Passed d fresh (word ++ before) rest

namespace Segment

variable {d : Dialect} {pos p : Nat} {previous : Option Char} {text : Text} {e : PatternError}

theorem last_append (c : Char) (word before : Text) : (c :: word ++ before).getLast?.or previous =
    before.getLast?.or (word.getLast?.or (some c)) := by
  rw [List.getLast?_append, List.getLast?_cons]
  cases before.getLast? <;> cases word.getLast? <;> rfl

/-- The reader fails at the first place it comes to where it cannot read a token. -/
theorem readAll_eq_error_iff : readAll d pos previous 0 text = .error e ↔
    ∃ before c rest, text = before ++ c :: rest ∧ Passed d (atStart previous) before (c :: rest) ∧
      read d (pos + before.length) (before.getLast?.or previous) c rest = .error e := by
  constructor
  · intro h
    -- The reader goes on behind a token, so the induction is on how much is left.
    induction hn : text.length using Nat.strong_induction_on generalizing text pos previous
    next n ih =>
    cases text with
    | nil => cases h
    | cons c rest =>
      rw [readAll, bind_eq_error_iff] at h
      obtain h | ⟨⟨s, extra⟩, hread, h⟩ := h
      · exact ⟨[], c, rest, rfl, .nil, h⟩
      · obtain ⟨word, text, rfl, rfl, htoken⟩ := token_of_read hread
        have h : readAll d (pos + 1) (some c) word.length (word ++ text) = .error e := by
          obtain h | ⟨_, _, h⟩ := bind_eq_error_iff.mp h
          · exact h
          · cases h
        rw [readAll_append] at h
        have hlen : text.length < n := by
          rw [← hn, List.length_cons, List.length_append]
          omega
        obtain ⟨before, x, rest, rfl, hpassed, hx⟩ := ih _ hlen h rfl
        rw [atStart_getLast] at hpassed
        refine ⟨c :: word ++ before, x, rest, by simp, .cons htoken hpassed, ?_⟩
        have hpos : pos + (c :: word ++ before).length =
            pos + 1 + word.length + before.length := by
          rw [List.length_append, List.length_cons]
          omega
        rw [hpos, last_append]
        exact hx
  · intro h
    obtain ⟨before, c, rest, rfl, hpassed, h⟩ := h
    generalize hrest : c :: rest = behind at hpassed
    generalize hfresh : atStart previous = fresh at hpassed
    induction hpassed generalizing pos previous with
    | nil =>
      rw [List.nil_append, ← hrest, readAll]
      exact bind_eq_error_iff.mpr (.inl h)
    | @cons fresh word s before behind htoken _ ih =>
      obtain ⟨x, word, rfl⟩ := List.exists_cons_of_ne_nil (token_ne_nil htoken)
      have hread := @read_of_token d pos previous x s word _ (hfresh ▸ htoken)
      rw [List.append_assoc, List.cons_append, readAll, hread]
      refine bind_eq_error_iff.mpr (.inr ⟨_, rfl, bind_eq_error_iff.mpr (.inl ?_)⟩)
      rw [readAll_append]
      have hpos : pos + 1 + word.length + before.length =
          pos + (x :: word ++ before).length := by
        rw [List.length_append, List.length_cons]
        omega
      refine ih ?_ hrest (atStart_getLast word)
      rw [hpos, ← last_append]
      exact h

end Segment

/-! ## What can be wrong with a token -/

theorem readEscaped_eq_error_iff {escaping : Bool} {c : Char} {rest : Text} {e : PatternError} :
    readEscaped escaping c rest = .error e ↔
      (escaping && c = '\\') = true ∧ rest = [] ∧ e = .trailingEscape := by
  unfold readEscaped
  split
  · next hc =>
    cases rest with
    | nil => simp [hc, eq_comm]
    | cons x rest => simp
  · next hc => simp [hc]

namespace Bracket

/-- What can be wrong with a bracket expression that is opened at a position. -/
inductive Fault (start : Nat) : PatternError → Prop
  | unmatched : Fault start (.unmatchedBracket start)
  | escape : Fault start .trailingEscape
  | unknown {name} (h : ClassName.ofText? name = none) : Fault start (.unknownClass name)
  | backwards {low high} (h : high < low) : Fault start (.invalidRange low high)

variable {escaping : Bool} {start skip : Nat} {first : Bool} {c : Char} {text : Text}
  {e : PatternError}

theorem Fault.of_readEscaped (h : readEscaped escaping c text = .error e) : Fault start e := by
  obtain ⟨-, -, rfl⟩ := readEscaped_eq_error_iff.mp h
  exact .escape

theorem Fault.of_readItem (h : readItem escaping start c text = .error e) : Fault start e := by
  unfold readItem at h
  split at h
  · split at h
    · cases h
      exact .unmatched
    · split at h
      · next hname =>
        cases h
        exact .unknown hname
      · cases h
  · obtain h | ⟨low, -, h⟩ := bind_eq_error_iff.mp h
    · exact .of_readEscaped h
    · dsimp only at h
      split at h
      · split at h
        · cases h
        · obtain h | ⟨high, -, h⟩ := bind_eq_error_iff.mp h
          · exact .of_readEscaped h
          · split at h
            · next hlt =>
              cases h
              exact .backwards hlt
            · cases h
      · cases h

theorem Fault.of_readItems (h : readItems escaping start skip first text = .error e) :
    Fault start e := by
  induction text generalizing skip first with
  | nil =>
    have hopen : readItems escaping start skip first [] = .error (.unmatchedBracket start) := by
      cases skip <;> rfl
    obtain rfl := Except.error.inj (hopen.symm.trans h)
    exact .unmatched
  | cons c rest ih =>
    cases skip with
    | succ skip =>
      obtain h | ⟨_, _, h⟩ := bind_eq_error_iff.mp h
      · exact ih h
      · cases h
    | zero =>
      rw [readItems] at h
      split at h
      · cases h
      · obtain h | ⟨_, _, h⟩ := bind_eq_error_iff.mp h
        · exact .of_readItem h
        · obtain h | ⟨_, _, h⟩ := bind_eq_error_iff.mp h
          · exact ih h
          · cases h

/-- A bracket expression that cannot be read has one of the faults, and no other position than that of
its opening bracket is reported. -/
theorem Fault.of_read (h : read escaping start text = .error e) : Fault start e := by
  obtain h | ⟨_, _, h⟩ := bind_eq_error_iff.mp h
  · exact .of_readItems h
  · cases h

end Bracket

/-- What the reader takes for a group is a brace that it comes to. -/
theorem Segment.read_eq_unexpandedGroup_iff {d : Dialect} {pos p : Nat} {previous : Option Char}
    {c : Char} {rest : Text} : read d pos previous c rest = .error (.unexpandedGroup p) ↔
      (c = '{' ∨ c = '}') ∧ p = pos := by
  constructor
  · intro h
    unfold read at h
    split at h
    · unfold readStars at h
      dsimp only at h
      split at h
      · split at h <;> cases h
      · cases h
    split at h
    · cases h
    split at h
    · obtain h | ⟨_, _, h⟩ := bind_eq_error_iff.mp h
      · cases Bracket.Fault.of_read h
      · cases h
    split at h
    · cases h
    split at h
    · next hc =>
      cases h
      exact ⟨hc, rfl⟩
    · obtain h | ⟨_, _, h⟩ := bind_eq_error_iff.mp h
      · cases (readEscaped_eq_error_iff.mp h).2.2
      · cases h
  · intro h
    obtain ⟨rfl | rfl, rfl⟩ := h <;> rfl

/-! ## What the search for groups has seen there -/

/-- The search for groups is outside of bracket expressions behind every token. -/
theorem Token.outside {d : Dialect} {fresh : Bool} {word text : Text} {s : Segment}
    (h : Token d fresh word s text) :
    Whole d.escaping word ∧ Brace.bracketed false (unescaped d.escaping word) = false := by
  obtain ⟨c, word, rfl⟩ := List.exists_cons_of_ne_nil (Segment.token_ne_nil h)
  obtain ⟨previous, hprevious⟩ : ∃ previous, atStart previous = fresh := by
    cases fresh with
    | true => exact ⟨none, rfl⟩
    | false => exact ⟨some 'a', rfl⟩
  have hread := @Segment.read_of_token d 0 previous c s word text (hprevious ▸ h)
  obtain ⟨-, hwhole, -⟩ := Segment.read_cases hread
  obtain ⟨hout, -⟩ := Segment.seen_of_read hread
  rw [List.take_left] at hwhole hout
  exact ⟨hwhole, hout⟩

/-- Wherever the reader comes to, the search for groups is outside of bracket expressions too. -/
theorem Passed.outside {d : Dialect} {fresh : Bool} {before rest : Text}
    (h : Passed d fresh before rest) :
    Whole d.escaping before ∧ Brace.bracketed false (unescaped d.escaping before) = false := by
  induction h with
  | nil => exact ⟨whole_nil, rfl⟩
  | cons ht _ ih =>
    obtain ⟨hword, hout⟩ := ht.outside
    refine ⟨hword.append ih.1, ?_⟩
    rw [unescaped_append hword, Brace.bracketed_append, hout]
    exact ih.2

/-- The reader comes to no brace of a text in which the search for groups finds none. -/
theorem Passed.ne_brace {d : Dialect} {fresh : Bool} {before rest : Text} {c : Char}
    (h : Passed d fresh before (c :: rest))
    (hg : Brace.firstGroup d.escaping (before ++ c :: rest) = .ok none) : c ≠ '{' ∧ c ≠ '}' := by
  obtain ⟨hwhole, hout⟩ := h.outside
  have hseen := Brace.firstGroup_eq_none_iff.mp hg
  rw [unescaped_append hwhole, Brace.sheltered_append, hout, Bool.and_eq_true] at hseen
  rw [← not_or]
  intro hc
  have hplain : (d.escaping && c = '\\') = false := by
    obtain rfl | rfl := hc <;> simp
  have hsees : unescaped d.escaping (c :: rest) = c :: unescaped d.escaping rest := by
    simp [unescaped, unescapedFrom, hplain]
  have hsheltered := hseen.2
  rw [hsees] at hsheltered
  obtain rfl | rfl := hc <;> simp [Brace.sheltered] at hsheltered

/-! ## Expansion -/

namespace Brace

variable {escaping : Bool} {t : Text} {e : PatternError}

theorem Scan.step_error {s : Scan} {pos : Nat} {c : Char} (h : s.step pos c = .error e) :
    e = .unmatchedBrace pos := by
  unfold step at h
  repeat' split at h
  all_goals cases h
  rfl

theorem Scan.run_error {s : Scan} {pos : Nat} {escaped : Bool}
    (h : s.run escaping pos escaped t = .error e) : ∃ p, e = .unmatchedBrace p := by
  induction t generalizing s pos escaped with
  | nil => cases escaped <;> cases h
  | cons c t ih =>
    cases escaped with
    | true => exact ih h
    | false =>
      rw [run] at h
      split at h
      · exact ih h
      · obtain h | ⟨next, -, h⟩ := bind_eq_error_iff.mp h
        · exact ⟨pos, step_error h⟩
        · exact ih h

theorem firstGroup_error (h : firstGroup escaping t = .error e) : ∃ p, e = .unmatchedBrace p := by
  obtain h | ⟨s, -, h⟩ := bind_eq_error_iff.mp h
  · exact Scan.run_error h
  · split at h
    · cases h
      exact ⟨_, rfl⟩
    · cases h

theorem expandRounds_error {rounds : Nat} (h : expandRounds escaping rounds t = .error e) :
    ∃ p, e = .unmatchedBrace p := by
  induction rounds generalizing t with
  | zero =>
    unfold expandRounds at h
    obtain h | ⟨found, -, h⟩ := bind_eq_error_iff.mp h
    · exact firstGroup_error h
    · split at h <;> cases h
  | succ rounds ih =>
    unfold expandRounds at h
    obtain h | ⟨found, -, h⟩ := bind_eq_error_iff.mp h
    · exact firstGroup_error h
    · split at h
      · cases h
      · obtain h | ⟨expanded, -, h⟩ := bind_eq_error_iff.mp h
        · obtain ⟨_, r, _, _, _, hr⟩ := mapM_eq_error.mp h
          exact ih hr
        · cases h

theorem expand_error (h : expand escaping t = .error e) : ∃ p, e = .unmatchedBrace p :=
  expandRounds_error h

end Brace

/-! ## Compiling -/

theorem Pattern.read_ne_unexpandedGroup {d : Dialect} {t : Text} {p : Nat}
    (hg : Brace.firstGroup d.escaping t = .ok none) : read d t ≠ .error (.unexpandedGroup p) := by
  unfold read
  split
  · simp
  · intro h
    obtain h | ⟨_, _, h⟩ := bind_eq_error_iff.mp h
    · obtain ⟨before, c, rest, rfl, hpassed, hc⟩ := Segment.readAll_eq_error_iff.mp h
      obtain ⟨hopen, hclose⟩ := hpassed.ne_brace hg
      obtain ⟨hbrace, -⟩ := Segment.read_eq_unexpandedGroup_iff.mp hc
      exact hbrace.elim hopen hclose
    · cases h

/-- **Compiling leaves no group behind.** It never fails by a group that was not expanded, and in no
text of an expansion does the reader of patterns, token after token, come to a brace. -/
theorem Pattern.no_group_left (d : Dialect) (raw : Text) :
    (∀ pos, compile d raw ≠ .error (.unexpandedGroup pos)) ∧
      ∀ ts, Brace.expand d.escaping raw = .ok ts → ∀ t ∈ ts, ∀ before c rest,
        t = before ++ c :: rest → Passed d true before (c :: rest) → c ≠ '{' ∧ c ≠ '}' := by
  constructor
  · intro pos h
    obtain h | ⟨ts, hts, h⟩ := bind_eq_error_iff.mp h
    · obtain ⟨p, hp⟩ := Brace.expand_error h
      cases hp
    · obtain ⟨before, t, after, rfl, -, ht⟩ := mapM_eq_error.mp h
      exact read_ne_unexpandedGroup (Brace.firstGroup_of_mem_expand hts t (by simp)) ht
  · intro ts hts t ht before c rest hsplit hpassed
    exact hpassed.ne_brace (hsplit ▸ Brace.firstGroup_of_mem_expand hts t ht)

/-- The reader passes over the brace in `[{]a`, which comes out of an expansion, and comes to `a`. -/
theorem Pattern.no_group_left_behind_bracket :
    (∀ pos, compile {} "[\x7b]\x7ba,b\x7d".toList ≠ .error (.unexpandedGroup pos)) ∧
      Brace.expand true "[\x7b]\x7ba,b\x7d".toList =
        .ok ["[\x7b]a".toList, "[\x7b]b".toList] ∧
      Passed {} true "[\x7b]".toList "a".toList ∧ 'a' ≠ '{' ∧ 'a' ≠ '}' := by
  have hexpand : Brace.expand true "[\x7b]\x7ba,b\x7d".toList =
      .ok ["[\x7b]a".toList, "[\x7b]b".toList] := by decide +kernel
  have hencloses : Bracket.Encloses true "\x7b".toList ⟨[('{', '{')], [], false⟩ := by rfl
  have hpassed : Passed {} true "[\x7b]".toList "a".toList :=
    @Passed.cons _ _ ('[' :: ("\x7b".toList ++ [']'])) _ [] _ (.bracket hencloses) .nil
  obtain ⟨hcompile, hreader⟩ := no_group_left {} "[\x7b]\x7ba,b\x7d".toList
  exact ⟨hcompile, hexpand, hpassed,
    hreader _ hexpand "[\x7b]a".toList List.mem_cons_self "[\x7b]".toList 'a' [] rfl hpassed⟩

end TreeGlob
