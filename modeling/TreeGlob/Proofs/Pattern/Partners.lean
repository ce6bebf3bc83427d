import TreeGlob.Proofs.Pattern.Braces

/-!
Which brace an unmatched brace is. The search for groups reports a position when it is stopped by a
closing brace, and another one when a group is still open behind the text.

* `Alone` says that the brace at a position has no partner, and `First` that it is the first one.
* `not_alone_of_run`, `first_of_run` and `alone_of_run_error` say what the search makes of a text.
* `Blamed` is the position that is reported: `blamed_of_firstGroup` says so for a search, and
  `blamed_of_expandRounds` puts one round of expansion after the other.
* `Skim.clear_iff` compares the search with the reader of bracket expressions.
* `expand_unmatchedBrace` is the main result: not every position is one of a brace without a partner.
-/
namespace TreeGlob

namespace Brace

/-! ## Braces without a partner -/

/-- What stands between an opening brace and its partner: the braces in it are each other's
partners. -/
structure Enclosed (escaping : Bool) (inside : Text) : Prop where
  clear : Clear escaping inside
  balanced : closes 0 (braces escaping inside) = true

/-- At the position stands an unescaped brace, outside of bracket expressions, that has no partner. -/
inductive Alone (escaping : Bool) (raw : Text) : (pos : Nat) → Prop
  | opening {before after} (htext : raw = before ++ '{' :: after) (hclear : Clear escaping before)
    (hnone : ∀ inside back, after = inside ++ '}' :: back → ¬Enclosed escaping inside) :
    Alone escaping raw before.length
  | closing {before after} (htext : raw = before ++ '}' :: after) (hclear : Clear escaping before)
    (hnone : ∀ front inside, before = front ++ '{' :: inside → Clear escaping front →
      ¬Enclosed escaping inside) :
    Alone escaping raw before.length

/-- At the position stands the first brace that is unescaped and outside of bracket expressions. -/
inductive First (escaping : Bool) (raw : Text) : (pos : Nat) → Prop
  | intro {front c back} (htext : raw = front ++ c :: back) (hbrace : c = '{' ∨ c = '}')
    (hclear : Clear escaping front) (hnone : braces escaping front = []) :
    First escaping raw front.length

/-- The position that expansion reports. The last case is a text whose braces all have partners, while
those of a text that a group of it is replaced by have not. -/
inductive Blamed (escaping : Bool) : (raw : Text) → (pos : Nat) → Prop
  | closing {raw pos} (hbrace : raw[pos]? = some '}') (halone : Alone escaping raw pos)
    (hfirst : ∀ q < pos, raw[q]? = some '}' → ¬Alone escaping raw q) : Blamed escaping raw pos
  | opening {raw pos} (hclosing : ∀ q, raw[q]? = some '}' → ¬Alone escaping raw q)
    (hfirst : First escaping raw pos) (halone : Alone escaping raw pos) : Blamed escaping raw pos
  | beyond {raw} (hclosing : ∀ q, raw[q]? = some '}' → ¬Alone escaping raw q)
    (hfirst : ∀ p, First escaping raw p → ¬Alone escaping raw p)
    (halone : ∃ p, Alone escaping raw p) : Blamed escaping raw raw.length
  | replacement {raw pos o c r} (hnone : ∀ p, ¬Alone escaping raw p)
    (hgroup : firstGroup escaping raw = .ok (some (o, c)))
    (hmem : r ∈ replacements escaping raw o c) (h : Blamed escaping r pos) : Blamed escaping raw pos

section Alone

variable {escaping : Bool} {raw before after front back : Text} {c : Char} {pos : Nat} {s : Scan}

theorem getElem?_append_cons (before after : Text) (c : Char) :
    (before ++ c :: after)[before.length]? = some c := by
  simp

theorem Alone.getElem? (h : Alone escaping raw pos) :
    raw[pos]? = some '{' ∨ raw[pos]? = some '}' := by
  cases h with
  | opening htext => exact .inl (htext ▸ getElem?_append_cons _ _ _)
  | closing htext => exact .inr (htext ▸ getElem?_append_cons _ _ _)

theorem Alone.lt_length (h : Alone escaping raw pos) : pos < raw.length := by
  obtain h | h := h.getElem?
  · exact (List.getElem?_eq_some_iff.mp h).1
  · exact (List.getElem?_eq_some_iff.mp h).1

theorem Alone.clear (h : Alone escaping (before ++ c :: after) before.length) :
    Clear escaping before := by
  generalize htext : before ++ c :: after = raw at h
  generalize hpos : before.length = pos at h
  cases h with
  | opening htext' hclear =>
    obtain ⟨rfl, -⟩ := List.append_inj (htext.trans htext') hpos
    exact hclear
  | closing htext' hclear =>
    obtain ⟨rfl, -⟩ := List.append_inj (htext.trans htext') hpos
    exact hclear

/-- An opening brace has no partner just if no closing brace that is seen behind it is one. -/
theorem alone_opening_iff (hclear : Clear escaping before) :
    Alone escaping (before ++ '{' :: after) before.length ↔
      ∀ inside back, braces escaping after = inside ++ '}' :: back → closes 0 inside = false := by
  constructor
  · intro h inside back hseen
    rw [← Bool.not_eq_true]
    intro hclosed
    obtain ⟨inside, back, rfl, hinside, rfl, -⟩ := exists_of_braces hseen
    generalize htext : before ++ '{' :: (inside ++ '}' :: back) = raw at h
    generalize hpos : before.length = pos at h
    cases h with
    | opening htext' _ hnone =>
      obtain ⟨-, htail⟩ := List.append_inj (htext.trans htext') hpos
      exact hnone inside back (List.cons.inj htail).2.symm ⟨hinside, hclosed⟩
    | closing htext' =>
      obtain ⟨-, htail⟩ := List.append_inj (htext.trans htext') hpos
      cases htail
  · intro h
    refine .opening rfl hclear ?_
    intro inside back htext henclosed
    have hseen : braces escaping after =
        braces escaping inside ++ '}' :: braces escaping back := by
      rw [htext, braces_append henclosed.clear, braces_cons (.inr rfl)]
    have hopen := h _ _ hseen
    rw [henclosed.balanced] at hopen
    cases hopen

/-- A closing brace has no partner just if no opening brace that is seen before it is one. -/
theorem alone_closing_iff (hclear : Clear escaping before) :
    Alone escaping (before ++ '}' :: after) before.length ↔
      ∀ front inside, braces escaping before = front ++ '{' :: inside → closes 0 inside = false := by
  constructor
  · intro h front inside hseen
    rw [← Bool.not_eq_true]
    intro hclosed
    obtain ⟨front, inside, rfl, hfront, -, rfl⟩ := exists_of_braces hseen
    have hinside : Clear escaping inside := by
      refine (hfront.append (clear_brace (.inl rfl))).of_append (u := inside) ?_
      rwa [List.append_assoc]
    generalize htext : front ++ '{' :: inside ++ '}' :: after = raw at h
    generalize hpos : (front ++ '{' :: inside).length = pos at h
    cases h with
    | opening htext' =>
      obtain ⟨-, htail⟩ := List.append_inj (htext.trans htext') hpos
      cases htail
    | closing htext' _ hnone =>
      obtain ⟨rfl, -⟩ := List.append_inj (htext.trans htext') hpos
      exact hnone front inside rfl hfront ⟨hinside, hclosed⟩
  · intro h
    refine .closing rfl hclear ?_
    intro front inside htext hfront henclosed
    have hseen : braces escaping before =
        braces escaping front ++ '{' :: braces escaping inside := by
      rw [htext, braces_append hfront, braces_cons (.inl rfl)]
    have hopen := h _ _ hseen
    rw [henclosed.balanced] at hopen
    cases hopen

/-! ## What the search makes of a text -/

/-- A closing brace that does not stop the search has a partner. -/
theorem exists_partner_of_run (h : Scan.start.run escaping 0 false (before ++ '}' :: after) = .ok s)
    (hclear : Clear escaping before) : ∃ front inside,
      braces escaping before = front ++ '{' :: inside ∧ closes 0 inside = true := by
  obtain ⟨next, hbefore, hrest⟩ := Scan.run_append_ok.mp h
  obtain ⟨hbracket, hdepth⟩ := Scan.run_start_seen hbefore
  rw [hclear.outside] at hbracket
  have hopen : next.depth ≠ 0 := by
    intro hzero
    rw [hclear.whole, Scan.run, if_neg (by simp)] at hrest
    obtain ⟨_, hstep, -⟩ := bind_eq_ok_iff.mp hrest
    simp [Scan.step, hbracket, hzero] at hstep
  apply exists_opening
  omega

theorem not_alone_closing_of_run
    (h : Scan.start.run escaping 0 false (before ++ '}' :: after) = .ok s) (rest : Text) :
    ¬Alone escaping (before ++ '}' :: (after ++ rest)) before.length := by
  intro halone
  obtain ⟨front, inside, hseen, hclosed⟩ := exists_partner_of_run h halone.clear
  have hopen := (alone_closing_iff halone.clear).mp halone front inside hseen
  rw [hclosed] at hopen
  cases hopen

/-- The closing brace that stops the search has no partner. -/
theorem alone_of_run_error (h : Scan.start.run escaping 0 false raw = .error (.unmatchedBrace pos)) :
    raw[pos]? = some '}' ∧ Alone escaping raw pos ∧
      ∀ q < pos, raw[q]? = some '}' → ¬Alone escaping raw q := by
  obtain ⟨before, after, next, rfl, rfl, hwhole, hrun, hout, hdepth⟩ := Scan.exists_of_run_error h
  obtain ⟨hbracket, htotal⟩ := Scan.run_start_seen hrun
  have hclear : Clear escaping before := ⟨hwhole, hbracket.symm.trans hout⟩
  rw [Nat.zero_add]
  refine ⟨getElem?_append_cons before after '}', ?_, ?_⟩
  · rw [alone_closing_iff hclear]
    intro x y hseen
    rw [← Bool.not_eq_true]
    intro hclosed
    obtain ⟨front, inside, rfl, hfront, rfl, rfl⟩ := exists_of_braces hseen
    obtain ⟨_, hrunfront, -⟩ := Scan.run_append_ok.mp hrun
    have hcount := (Scan.run_start_seen hrunfront).2
    have hinside := count_of_closes hclosed
    rw [hseen, hdepth] at htotal
    simp only [List.count_append, List.count_cons] at htotal
    simp at htotal
    omega
  · intro q hq hget halone
    have hget' : before[q]? = some '}' := by
      rw [← hget, List.getElem?_append_left hq]
    obtain ⟨hlt, hchar⟩ := List.getElem?_eq_some_iff.mp hget'
    have hsplit : before = before.take q ++ '}' :: before.drop (q + 1) := by
      rw [← hchar, List.getElem_cons_drop, List.take_append_drop]
    have hlen : (before.take q).length = q := List.length_take_of_le hq.le
    have hnot := not_alone_closing_of_run (hsplit ▸ hrun) ('}' :: after)
    rw [hlen, ← List.cons_append, ← List.append_assoc, ← hsplit] at hnot
    exact hnot halone

/-- A closing brace has a partner in every text that the search gets through. -/
theorem not_alone_of_run (h : Scan.start.run escaping 0 false raw = .ok s)
    (hget : raw[pos]? = some '}') : ¬Alone escaping raw pos := by
  obtain ⟨hlt, hchar⟩ := List.getElem?_eq_some_iff.mp hget
  have hsplit : raw = raw.take pos ++ '}' :: raw.drop (pos + 1) := by
    rw [← hchar, List.getElem_cons_drop, List.take_append_drop]
  have hlen : (raw.take pos).length = pos := List.length_take_of_le hlt.le
  have hnot := not_alone_closing_of_run (hsplit ▸ h) []
  rwa [hlen, List.append_nil, ← hsplit] at hnot

/-- What the search remembers of the first brace: its place if it has no partner, and a group if it has
one. -/
theorem first_of_run (h : Scan.start.run escaping 0 false raw = .ok s)
    (hfirst : First escaping raw pos) :
    (s.group = none ∧ s.opened = some pos ∧ Alone escaping raw pos) ∨
      (s.group ≠ none ∧ ¬Alone escaping raw pos) := by
  cases hfirst with
  | @intro front c back htext hbrace hclear hnone =>
    subst htext
    obtain ⟨next, hfront, hrest⟩ := Scan.run_append_ok.mp h
    have hquiet : sheltered Scan.start.inBracket (unescapedFrom escaping false front) = true :=
      standing_eq_nil_iff.mp hnone
    rw [Scan.run_of_sheltered hquiet] at hfront
    have hnext : next = Scan.start := by
      rw [← Except.ok.inj hfront]
      exact congrArg (Scan.mk 0 · none none) hclear.outside
    rw [hclear.whole, hnext] at hrest
    obtain rfl | rfl := hbrace
    · -- The first brace opens a group.
      rw [Scan.run, if_neg (by simp), Nat.zero_add] at hrest
      have hopened : Scan.start.step front.length '{' = .ok ⟨1, false, some front.length, none⟩ := rfl
      rw [hopened] at hrest
      rw [alone_opening_iff hclear]
      obtain ⟨hgroup, hkept, hnever⟩ | ⟨hgroup, inside, back, hseen, hclosed⟩ :=
        Scan.pending_of_run (d := 0) rfl rfl (by simp) hrest
      · exact .inl ⟨hgroup, hkept, hnever⟩
      · refine .inr ⟨hgroup, ?_⟩
        intro hnever
        have hopen := hnever inside back hseen
        rw [hclosed] at hopen
        cases hopen
    · rw [Scan.run, if_neg (by simp)] at hrest
      cases hrest

theorem exists_first (h : braces escaping raw ≠ []) : ∃ pos, First escaping raw pos := by
  obtain ⟨c, w, hseen⟩ := List.exists_cons_of_ne_nil h
  have hmem : c ∈ braces escaping raw := by simp [hseen]
  obtain ⟨front, back, htext, hclear, hnone, -⟩ := exists_of_braces (x := []) hseen
  exact ⟨front.length, .intro htext (brace_of_mem_standing hmem) hclear hnone⟩

theorem not_alone_of_firstGroup {found : Option (Nat × Nat)}
    (h : firstGroup escaping raw = .ok found) : ¬Alone escaping raw pos := by
  obtain ⟨s, hrun, h⟩ := bind_eq_ok_iff.mp h
  have hzero : s.depth = 0 := by
    by_contra hdepth
    rw [if_pos (Nat.pos_of_ne_zero hdepth)] at h
    cases h
  intro halone
  cases halone with
  | closing htext hclear hnone =>
    exact not_alone_of_run hrun (htext ▸ getElem?_append_cons _ _ _) (.closing htext hclear hnone)
  | @opening before after htext hclear hnone =>
    have halone := Alone.opening htext hclear hnone
    -- Behind the brace one more closing brace is to come than opening ones.
    subst htext
    obtain ⟨next, hbefore, -⟩ := Scan.run_append_ok.mp hrun
    have htotal := (Scan.run_start_seen hrun).2
    have hcount := (Scan.run_start_seen hbefore).2
    rw [braces_append hclear, braces_cons (.inl rfl)] at htotal
    simp only [List.count_append, List.count_cons] at htotal
    simp at htotal
    have hmore : 0 + (braces escaping after).count '{' < (braces escaping after).count '}' := by
      omega
    obtain ⟨inside, back, hseen, hclosed⟩ := exists_closing (List.prefix_refl _) hmore
    have hopen := (alone_opening_iff hclear).mp halone inside back hseen
    rw [hclosed] at hopen
    cases hopen

/-! ## What expansion reports -/

theorem blamed_of_firstGroup (h : firstGroup escaping raw = .error (.unmatchedBrace pos)) :
    Blamed escaping raw pos := by
  obtain h | ⟨s, hrun, h⟩ := bind_eq_error_iff.mp h
  · obtain ⟨hbrace, halone, hfirst⟩ := alone_of_run_error h
    exact .closing hbrace halone hfirst
  have hclosing : ∀ q, raw[q]? = some '}' → ¬Alone escaping raw q := fun q => not_alone_of_run hrun
  have hopen : 0 < s.depth := by
    by_contra hdepth
    rw [if_neg hdepth] at h
    cases h
  rw [if_pos hopen] at h
  obtain rfl := PatternError.unmatchedBrace.inj (Except.error.inj h)
  have hcount := (Scan.run_start_seen hrun).2
  have hmore : (braces escaping raw).count '}' < (braces escaping raw).count '{' := by omega
  obtain ⟨front, behind, hseen, hnever⟩ := exists_unclosed hmore
  have hnonempty : braces escaping raw ≠ [] := by
    rw [hseen]
    simp
  obtain ⟨p, hp⟩ := exists_first hnonempty
  obtain ⟨hgroup, hopened, halone⟩ | ⟨hgroup, -⟩ := first_of_run hrun hp
  · rw [if_pos hgroup, hopened, Option.getD_some]
    exact .opening hclosing hp halone
  · rw [if_neg hgroup]
    refine .beyond hclosing ?_ ?_
    · intro q hq
      obtain ⟨hnone, -⟩ | ⟨-, hnot⟩ := first_of_run hrun hq
      · exact (hgroup hnone).elim
      · exact hnot
    · obtain ⟨front, behind, rfl, hclear, -, rfl⟩ := exists_of_braces hseen
      exact ⟨front.length, (alone_opening_iff hclear).mpr hnever⟩

theorem blamed_of_expandRounds {rounds : Nat}
    (h : expandRounds escaping rounds raw = .error (.unmatchedBrace pos)) :
    Blamed escaping raw pos := by
  induction rounds generalizing raw with
  | zero =>
    unfold expandRounds at h
    obtain h | ⟨found, -, h⟩ := bind_eq_error_iff.mp h
    · exact blamed_of_firstGroup h
    · split at h <;> cases h
  | succ rounds ih =>
    unfold expandRounds at h
    obtain h | ⟨found, hfound, h⟩ := bind_eq_error_iff.mp h
    · exact blamed_of_firstGroup h
    · split at h
      · cases h
      · next o c =>
        obtain h | ⟨expanded, -, h⟩ := bind_eq_error_iff.mp h
        · obtain ⟨before, r, after, hsplit, -, hr⟩ := mapM_eq_error.mp h
          refine .replacement (fun p => not_alone_of_firstGroup hfound) hfound ?_ (ih hr)
          rw [hsplit]
          exact List.mem_append_right _ List.mem_cons_self
        · cases h

end Alone

/-! ## Bracket expressions as the reader of patterns delimits them -/

/-- A text in pieces, with what its bracket expressions hold: a bracket expression ends where the reader
of patterns takes it to end, and every other unescaped character is a piece by itself. -/
inductive Skim (escaping : Bool) : (text : Text) → (insides : List Text) → Prop
  | nil : Skim escaping [] []
  | char {c text insides} (hc : c ≠ '[') (he : (escaping && c = '\\') = false)
    (h : Skim escaping text insides) : Skim escaping (c :: text) insides
  | escape {c text insides} (he : escaping = true) (h : Skim escaping text insides) :
    Skim escaping ('\\' :: c :: text) insides
  | bracket {inside b text insides} (hb : Bracket.Encloses escaping inside b)
    (h : Skim escaping text insides) :
    Skim escaping ('[' :: inside ++ [']'] ++ text) (inside :: insides)

section Skim

variable {escaping : Bool} {text before after inside : Text} {insides : List Text} {b : Bracket}
  {c : Char}

theorem clear_char (hc : c ≠ '[') (he : (escaping && c = '\\') = false) : Clear escaping [c] where
  whole := whole_singleton he
  outside := by rw [unescaped_singleton he, bracketed]; simp [bracketed, hc]

theorem clear_escape (he : escaping = true) : Clear escaping ['\\', c] where
  whole := whole_escape (by simp [he])
  outside := by rw [unescaped_escape (by simp [he])]; rfl

theorem clear_bracket (hb : Bracket.Encloses escaping inside b) :
    Clear escaping ('[' :: inside ++ [']']) where
  whole := by
    have hopen : Whole escaping ['['] := whole_of_not_mem (by decide)
    have hclose : Whole escaping [']'] := whole_of_not_mem (by decide)
    exact (hopen.append hb.whole).append hclose
  outside := by
    rw [Segment.unescaped_bracketed hb.whole, bracketed_concat, if_neg (by decide), if_pos rfl]

theorem Skim.clear (h : Skim escaping text insides) : Clear escaping text := by
  induction h with
  | nil => exact clear_nil
  | char hc he _ ih => exact (clear_char hc he).append ih
  | escape he _ ih => exact (clear_escape he).append ih
  | bracket hb _ ih => exact (clear_bracket hb).append ih

/-- The search is inside of a bracket expression at every brace of it that is sheltered. -/
theorem not_clear_of_shelters (hs : Bracket.Shelters escaping inside) (hc : c = '{' ∨ c = '}')
    (hinside : inside = before ++ c :: after) : ¬Clear escaping ('[' :: before) := by
  intro hclear
  have hopen : Whole escaping ['['] := whole_of_not_mem (by decide)
  have hwhole : Whole escaping before := by
    have hboth := hclear.whole
    rwa [← List.singleton_append, Whole, escapesNext_append, hopen] at hboth
  have hout := hclear.outside
  rw [← List.singleton_append, unescaped_append hopen, unescaped_singleton (by simp)] at hout
  have hseen : unescaped escaping inside =
      unescaped escaping before ++ c :: unescaped escaping after := by
    rw [hinside, unescaped_append hwhole, unescaped_brace hc]
  have hin := (sheltered_iff _ _).mp (Bracket.shelters_iff.mp hs) _ _ _ hseen hc
  have hout : bracketed true (unescaped escaping before) = false := hout
  rw [hin] at hout
  cases hout

/-- Where all braces in bracket expressions are sheltered, the search sees the braces between the
pieces, and no others. -/
theorem Skim.clear_iff (h : Skim escaping text insides)
    (hs : ∀ inside ∈ insides, Bracket.Shelters escaping inside) (hc : c = '{' ∨ c = '}')
    (htext : text = before ++ c :: after) :
    Clear escaping before ↔ ∃ xs ys, Skim escaping before xs ∧ Skim escaping (c :: after) ys := by
  constructor
  · intro hclear
    induction h generalizing before with
    | nil => simp at htext
    | @char x text insides hx he h ih =>
      cases before with
      | nil =>
        rw [List.nil_append] at htext
        exact ⟨[], insides, .nil, htext ▸ .char hx he h⟩
      | cons y before =>
        obtain ⟨rfl, htail⟩ := List.cons.inj htext
        obtain ⟨xs, ys, hbefore, hafter⟩ :=
          ih hs htail ((clear_char hx he).of_append (u := before) hclear)
        exact ⟨xs, ys, .char hx he hbefore, hafter⟩
    | @escape x text insides he h ih =>
      match before with
      | [] =>
        obtain ⟨rfl, -⟩ := List.cons.inj htext
        simp at hc
      | [y] =>
        obtain ⟨rfl, -⟩ := List.cons.inj htext
        have hwhole := hclear.whole
        simp [Whole, escapesNext, he] at hwhole
      | y :: z :: before =>
        obtain ⟨rfl, hrest⟩ := List.cons.inj htext
        obtain ⟨rfl, htail⟩ := List.cons.inj hrest
        obtain ⟨xs, ys, hbefore, hafter⟩ :=
          ih hs htail ((clear_escape he).of_append (u := before) hclear)
        exact ⟨xs, ys, .escape he hbefore, hafter⟩
    | @bracket inside b text insides hb h ih =>
      obtain ⟨hinside, hs⟩ := List.forall_mem_cons.mp hs
      obtain ⟨more, rfl, htail⟩ | ⟨more, hpiece, hrest⟩ := List.append_eq_append_iff.mp htext
      · obtain ⟨xs, ys, hbefore, hafter⟩ :=
          ih hs htail ((clear_bracket hb).of_append hclear)
        exact ⟨inside :: xs, ys, .bracket hb hbefore, hafter⟩
      · cases more with
        | nil =>
          rw [List.append_nil] at hpiece
          subst hpiece
          have hpiece := Skim.bracket hb .nil
          rw [List.append_nil] at hpiece
          exact ⟨[inside], insides, hpiece, hrest ▸ h⟩
        | cons y more =>
          -- The brace is one of the bracket expression.
          obtain ⟨rfl, -⟩ := List.cons.inj hrest
          cases before with
          | nil =>
            obtain ⟨rfl, -⟩ := List.cons.inj hpiece
            simp at hc
          | cons z before =>
            obtain ⟨rfl, hpiece⟩ := List.cons.inj hpiece
            obtain rfl | ⟨more, z, rfl⟩ := List.eq_nil_or_concat more
            · obtain ⟨-, hlast⟩ := List.append_inj' hpiece rfl
              obtain ⟨rfl, -⟩ := List.cons.inj hlast
              simp at hc
            · rw [List.concat_eq_append, ← List.cons_append, ← List.append_assoc] at hpiece
              obtain ⟨hsplit, -⟩ := List.append_inj' hpiece rfl
              exact (not_clear_of_shelters hinside hc (List.cons.inj hsplit).2 hclear).elim
  · intro hskim
    obtain ⟨xs, ys, hbefore, -⟩ := hskim
    exact hbefore.clear

end Skim

/-- **The position of an unmatched brace is that of a brace without a partner just if some closing brace
has no partner, or the first brace has none.** Of the closing braces without a partner it is the first.
If only opening braces have none, and the first brace has one, it is the length of the text; and if all
braces have partners, it is a position in a text that a group was replaced by. Braces are those that are
unescaped and outside of bracket expressions. Where the braces in bracket expressions are sheltered,
these are the braces between the pieces that the reader of patterns delimits. -/
theorem expand_unmatchedBrace {escaping : Bool} {raw : Text} {pos : Nat}
    (h : expand escaping raw = .error (.unmatchedBrace pos)) :
    Blamed escaping raw pos ∧
      (Alone escaping raw pos ↔ (∃ p, raw[p]? = some '}' ∧ Alone escaping raw p) ∨
        ∃ p, First escaping raw p ∧ Alone escaping raw p) ∧
      ∀ insides, Skim escaping raw insides →
        (∀ inside ∈ insides, Bracket.Shelters escaping inside) →
        ∀ before c after, raw = before ++ c :: after → c = '{' ∨ c = '}' →
          (Clear escaping before ↔
            ∃ xs ys, Skim escaping before xs ∧ Skim escaping (c :: after) ys) := by
  have hblamed := blamed_of_expandRounds h
  refine ⟨hblamed, ?_, ?_⟩
  · cases hblamed with
    | closing hbrace halone hfirst =>
      exact iff_of_true halone (.inl ⟨pos, hbrace, halone⟩)
    | opening hclosing hfirst halone =>
      exact iff_of_true halone (.inr ⟨pos, hfirst, halone⟩)
    | beyond hclosing hfirst halone =>
      refine iff_of_false (fun hend => Nat.lt_irrefl _ hend.lt_length) ?_
      intro hsome
      obtain ⟨p, hbrace, hp⟩ | ⟨p, hp, hpalone⟩ := hsome
      · exact hclosing p hbrace hp
      · exact hfirst p hp hpalone
    | replacement hnone hgroup hmem hr =>
      refine iff_of_false (hnone pos) ?_
      intro hsome
      obtain ⟨p, -, hp⟩ | ⟨p, -, hp⟩ := hsome
      · exact hnone p hp
      · exact hnone p hp
  · intro insides hskim hs before c after htext hc
    exact hskim.clear_iff hs hc htext

/-- The second group is open to the end, and the position is behind that: no brace stands there. -/
theorem expand_unmatchedBrace_behind_the_text :
    expand true "\x7ba,b\x7d\x7bc".toList = .error (.unmatchedBrace 7) ∧
      Blamed true "\x7ba,b\x7d\x7bc".toList 7 ∧
      ¬Alone true "\x7ba,b\x7d\x7bc".toList 7 ∧
      ¬∃ p, First true "\x7ba,b\x7d\x7bc".toList p ∧ Alone true "\x7ba,b\x7d\x7bc".toList p := by
  have herror : expand true "\x7ba,b\x7d\x7bc".toList = .error (.unmatchedBrace 7) := by cbv
  have hmain := expand_unmatchedBrace herror
  have hend : ¬Alone true "\x7ba,b\x7d\x7bc".toList 7 := fun h => absurd h.lt_length (by decide)
  exact ⟨herror, hmain.1, hend, fun hfirst => hend (hmain.2.1.mpr (.inr hfirst))⟩

end Brace

end TreeGlob
