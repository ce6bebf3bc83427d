import TreeGlob.Proofs.Pattern.Tokens

/-!
The grammar of pattern texts: which texts read as which segments, told without positions and without
the characters that the reader has passed over.

* `Bracket.read_iff` says that a bracket expression is read the same whatever stands behind it.
* `Token` is the text of one segment. `Segment.token_of_read` and `Segment.read_of_token` say that the
  reader reads tokens, and any token.
* `Spelled` is a sequence of tokens. `Segment.readAll_iff_spelled` says that a text reads as some
  segments just if it is spelled that way.
-/
namespace TreeGlob

/-! ## Bracket expressions -/

theorem readEscaped_append {escaping : Bool} {c meant : Char} {near far : Text} {taken : Nat}
    (h : readEscaped escaping c (near ++ far) = .ok (meant, taken)) (hlen : taken ≤ near.length)
    (far' : Text) : readEscaped escaping c (near ++ far') = .ok (meant, taken) := by
  unfold readEscaped at h ⊢
  obtain ⟨rfl, rfl, hc⟩ | ⟨rfl, hc, more, hmore⟩ := readEscaped_cases h
  · simp [hc]
  · obtain ⟨x, near, rfl⟩ := List.exists_cons_of_length_pos hlen
    obtain rfl := (List.cons.inj hmore).1
    simp [hc]

namespace Bracket

variable {escaping : Bool} {start start' taken extra : Nat} {first : Bool} {c : Char}
  {near far name inside text : Text} {item : Item} {items : List Item} {b : Bracket}

theorem untilClose_append (h : untilClose (near ++ far) = some name)
    (hlen : name.length + 2 ≤ near.length) (far' : Text) :
    untilClose (near ++ far') = some name := by
  induction near generalizing name with
  | nil => simp at hlen
  | cons x near ih =>
    have hne : near ≠ [] := by
      rintro rfl
      simp at hlen
    rw [List.cons_append, untilClose, List.head?_append_of_ne_nil near hne] at h ⊢
    split at h
    · next hx => rw [if_pos hx, h]
    · next hx =>
      obtain ⟨name, hname, rfl⟩ := Option.map_eq_some_iff.mp h
      rw [if_neg hx, ih hname (Nat.le_of_succ_le_succ hlen)]
      rfl

theorem readNamed_append (hc : c = '[' ∧ near.head? = some ':')
    (h : readItem escaping start c (near ++ far) = .ok (item, extra)) (hlen : extra < near.length)
    (far' : Text) : readItem escaping start' c (near ++ far') = .ok (item, extra) := by
  have hne : near ≠ [] := List.ne_nil_of_length_pos (by omega)
  unfold readItem at h ⊢
  rw [List.head?_append_of_ne_nil near hne, if_pos hc, List.tail_append_of_ne_nil hne] at h ⊢
  split at h
  · cases h
  next name hname =>
  split at h
  · cases h
  next found hfound =>
  cases h
  have hname' := untilClose_append hname (by rw [List.length_tail]; omega) far'
  simp only [hname', hfound]

/-- A range or a single character is read from what belongs to it and one character more, or two if
that is a dash. -/
theorem readRange_append (hc : ¬(c = '[' ∧ near.head? = some ':'))
    (h : readItem escaping start c (near ++ far) = .ok (item, extra)) (hlen : extra < near.length)
    (hdash : near.drop extra ≠ ['-']) (far' : Text) :
    readItem escaping start' c (near ++ far') = .ok (item, extra) := by
  have hne : near ≠ [] := List.ne_nil_of_length_pos (by omega)
  unfold readItem at h ⊢
  rw [List.head?_append_of_ne_nil near hne, if_neg hc] at h ⊢
  obtain ⟨⟨low, taken⟩, hlow, h⟩ := bind_eq_ok_iff.mp h
  dsimp only at h
  have htaken : taken ≤ extra := by
    split at h
    · split at h
      · cases h
        exact le_rfl
      · obtain ⟨high, -, h⟩ := bind_eq_ok_iff.mp h
        split at h <;> cases h
        omega
    · cases h
      exact le_rfl
  refine bind_eq_ok_iff.mpr ⟨(low, taken), readEscaped_append hlow (by omega) far', ?_⟩
  dsimp only
  rw [List.drop_append_of_le_length (by omega)] at h ⊢
  -- What stands behind the low end, as far as the entry can reach.
  obtain ⟨x, more, hmore⟩ : ∃ x more, near.drop taken = x :: more :=
    List.exists_cons_of_ne_nil (by simp; omega)
  have hmorelen : more.length + 1 = near.length - taken := by
    simpa using (congrArg List.length hmore).symm
  rw [hmore] at h ⊢
  by_cases hx : x = '-'
  · subst hx
    cases more with
    | nil =>
      obtain rfl : taken = extra := by
        simp only [List.length_nil] at hmorelen
        omega
      exact (hdash hmore).elim
    | cons y more =>
      simp only [List.cons_append] at h ⊢
      split at h
      · next hy => rw [if_pos hy]; exact h
      · next hy =>
        rw [if_neg hy]
        obtain ⟨⟨high, further⟩, hhigh, h⟩ := bind_eq_ok_iff.mp h
        have hfurther : further ≤ more.length := by
          simp only [List.length_cons] at hmorelen
          dsimp only at h
          split at h
          · cases h
          · cases h; omega
        exact bind_eq_ok_iff.mpr ⟨_, readEscaped_append hhigh hfurther far', h⟩
  · simp only [List.cons_append] at h ⊢
    split at h
    · next heq => exact (hx (List.cons.inj heq).1).elim
    · split
      · next heq => exact (hx (List.cons.inj heq).1).elim
      · exact h

theorem readItem_append (h : readItem escaping start c (near ++ far) = .ok (item, extra))
    (hlen : extra < near.length) (hdash : near.drop extra ≠ ['-']) (far' : Text) :
    readItem escaping start' c (near ++ far') = .ok (item, extra) := by
  by_cases hc : c = '[' ∧ near.head? = some ':'
  · exact readNamed_append hc h hlen far'
  · exact readRange_append hc h hlen hdash far'

/-- Entries are read the same whatever stands behind the closing bracket. -/
theorem readItems_append {skip : Nat}
    (h : readItems escaping start skip first (near ++ far) = .ok (items, near.length)) (far' : Text) :
    readItems escaping start' skip first (near ++ far') = .ok (items, near.length) := by
  induction near generalizing skip first items with
  | nil =>
    obtain ⟨inside, -, hlen, -⟩ := text_of_readItems h
    simp at hlen
  | cons x near ih =>
    rw [List.cons_append] at h ⊢
    cases skip with
    | succ skip =>
      obtain ⟨⟨items, taken⟩, hread, h⟩ := bind_eq_ok_iff.mp h
      obtain ⟨rfl, htaken⟩ := Prod.mk.inj (Except.ok.inj h)
      obtain rfl : taken = near.length := by simpa using htaken
      exact bind_eq_ok_iff.mpr ⟨_, ih hread, rfl⟩
    | zero =>
      rw [readItems] at h ⊢
      split at h
      · next hx => rw [if_pos hx]; exact h
      · next hx =>
        rw [if_neg hx]
        obtain ⟨⟨item, extra⟩, hentry, h⟩ := bind_eq_ok_iff.mp h
        obtain ⟨⟨others, taken⟩, hread, h⟩ := bind_eq_ok_iff.mp h
        obtain ⟨rfl, htaken⟩ := Prod.mk.inj (Except.ok.inj h)
        obtain rfl : taken = near.length := by simpa using htaken
        -- The closing bracket stands behind the entry, so the entry does not look beyond it.
        obtain ⟨inside, htext, hlen, -⟩ := text_of_readItems hread
        rw [List.drop_append_of_le_length (by omega), List.drop_left] at htext
        have hclose : near.drop extra = inside ++ [']'] := by
          rw [List.append_cons] at htext
          exact List.append_cancel_right htext
        have hdash : near.drop extra ≠ ['-'] := by
          rw [hclose]
          intro e
          have hlast := congrArg List.getLast? e
          simp at hlast
        refine bind_eq_ok_iff.mpr ⟨_, readItem_append hentry (by omega) hdash far', ?_⟩
        exact bind_eq_ok_iff.mpr ⟨_, ih hread, rfl⟩

/-- The text between the brackets of a bracket expression, and what it reads as. -/
def Encloses (escaping : Bool) (inside : Text) (b : Bracket) : Prop :=
  read escaping 0 (inside ++ [']']) = .ok (b, inside.length + 1)

theorem read_append (h : read escaping start (near ++ far) = .ok (b, near.length)) (far' : Text) :
    read escaping start' (near ++ far') = .ok (b, near.length) := by
  have hne : near ≠ [] := by
    rintro rfl
    obtain ⟨inside, -, hlen, -⟩ := text_of_read h
    simp at hlen
  unfold read at h ⊢
  rw [List.head?_append_of_ne_nil near hne] at h ⊢
  generalize (decide (near.head? = some '!') || decide (near.head? = some '^')) = negated at h ⊢
  have hmarks : (if negated then 1 else 0) ≤ near.length := by
    have := List.length_pos_iff.mpr hne
    split <;> omega
  dsimp only at h ⊢
  rw [List.drop_append_of_le_length hmarks] at h ⊢
  obtain ⟨⟨items, taken⟩, hfound, h⟩ := bind_eq_ok_iff.mp h
  obtain ⟨rfl, htaken⟩ := Prod.mk.inj (Except.ok.inj h)
  obtain rfl : taken = (near.drop (if negated then 1 else 0)).length := by
    rw [List.length_drop]
    exact Nat.eq_sub_of_add_eq' htaken
  refine bind_eq_ok_iff.mpr ⟨_, readItems_append hfound far', ?_⟩
  exact congrArg (fun n => Except.ok (_, n)) htaken

/-- A bracket expression is what it holds and the closing bracket, whatever stands behind. -/
theorem read_iff : read escaping start text = .ok (b, taken) ↔
    ∃ inside rest, text = inside ++ ']' :: rest ∧ taken = inside.length + 1 ∧
      Encloses escaping inside b := by
  refine ⟨fun h => ?_, ?_⟩
  · obtain ⟨inside, htext, htaken, -⟩ := text_of_read h
    refine ⟨inside, _, htext, htaken, ?_⟩
    have hlen : (inside ++ [']']).length = taken := by simp [htaken]
    rw [htext, List.append_cons, ← hlen] at h
    have hread : read escaping 0 (inside ++ [']'] ++ []) = _ := read_append h []
    rwa [List.append_nil, hlen, htaken] at hread
  · rintro ⟨inside, rest, rfl, rfl, h⟩
    rw [Encloses, ← List.append_nil (inside ++ [']'])] at h
    have hlen : (inside ++ [']']).length = inside.length + 1 := by simp
    rw [← hlen] at h ⊢
    rw [List.append_cons]
    exact read_append h rest

theorem Encloses.whole (h : Encloses escaping inside b) : Whole escaping inside := by
  obtain ⟨inside', htext, htaken, hwhole⟩ := text_of_read h
  obtain ⟨rfl, -⟩ := List.append_inj htext (by omega)
  exact hwhole

end Bracket

/-! ## Tokens -/

/-- A character that means itself outside bracket expressions. -/
def Plain (escaping : Bool) (c : Char) : Prop :=
  c ∉ ['*', '?', '[', ']', '{', '}'] ∧ (escaping && c = '\\') = false

/-- Whether a component starts behind the character, or there is none. -/
def atStart (previous : Option Char) : Bool := previous = none || previous = some '/'

/-- The text of a segment that stands at the start of a component, or does not, and in front of a
text. -/
inductive Token (d : Dialect) : (fresh : Bool) → Text → Segment → Text → Prop
  | char {fresh c text} (hc : Plain d.escaping c) : Token d fresh [c] (.constant [c]) text
  | escape {fresh c text} (he : d.escaping = true) : Token d fresh ['\\', c] (.constant [c]) text
  | anyChar {fresh text} : Token d fresh ['?'] .anyChar text
  | bracket {fresh inside b text} (hb : Bracket.Encloses d.escaping inside b) :
    Token d fresh ('[' :: (inside ++ [']'])) (.bracket b) text
  | star {fresh n text} (hrun : text.head? ≠ some '*')
    (hpart : fresh = true → 1 ≤ n → text ≠ [] ∧ text.head? ≠ some '/') :
    Token d fresh ('*' :: List.replicate n '*') .star text
  | lastGlobstar {n} (hd : d.pathWildcards = true) :
    Token d true ('*' :: '*' :: List.replicate n '*') .globstar []
  | globstar {n text} (hd : d.pathWildcards = true) :
    Token d true ('*' :: '*' :: (List.replicate n '*' ++ ['/'])) .globstar text

theorem exists_stars (text : Text) :
    ∃ n after, text = List.replicate n '*' ++ after ∧ after.head? ≠ some '*' := by
  induction text with
  | nil => exact ⟨0, [], rfl, by simp⟩
  | cons c text ih =>
    by_cases hc : c = '*'
    · obtain ⟨n, after, rfl, h⟩ := ih
      exact ⟨n + 1, after, by rw [hc]; rfl, h⟩
    · exact ⟨0, c :: text, rfl, by simpa using hc⟩

theorem stars_append {after : Text} (h : after.head? ≠ some '*') (n : Nat) :
    (List.replicate n '*' ++ after).takeWhile (· = '*') = List.replicate n '*' ∧
      (List.replicate n '*' ++ after).dropWhile (· = '*') = after := by
  induction n with
  | zero =>
    cases after with
    | nil => simp
    | cons c after =>
      have hc : c ≠ '*' := by simpa using h
      simp [hc]
  | succ n ih => simpa [List.replicate_succ] using ih

namespace Segment

variable {d : Dialect} {pos : Nat} {previous : Option Char} {c : Char} {rest : Text} {s : Segment}
  {extra : Nat}

theorem token_of_readStars {n : Nat} {after : Text} (hrun : after.head? ≠ some '*')
    (h : readStars d pos previous n after = .ok (s, extra)) :
    ∃ word text, List.replicate n '*' ++ after = word ++ text ∧ word.length = extra ∧
      Token d (atStart previous) ('*' :: word) s text := by
  rw [readStars] at h
  split at h
  · next hwhole =>
    rw [Bool.and_eq_true, decide_eq_true_eq] at hwhole
    obtain ⟨hn, hwhole⟩ := hwhole
    obtain ⟨hfresh, hafter⟩ := Bool.and_eq_true_iff.mp hwhole
    have hfresh : atStart previous = true := hfresh
    obtain ⟨n, rfl⟩ := Nat.exists_eq_add_of_le' hn
    split at h
    · next hd =>
      cases h
      rw [hfresh]
      cases after with
      | nil => exact ⟨_, [], rfl, by simp, .lastGlobstar hd⟩
      | cons x text =>
        obtain rfl : x = '/' := by simpa using hafter
        exact ⟨List.replicate (n + 1) '*' ++ ['/'], text, by simp, by simp, .globstar hd⟩
    · cases h
  · next hwhole =>
    cases h
    refine ⟨_, after, rfl, by simp, .star hrun fun hfresh hn => ?_⟩
    have hfresh : (decide (previous = none) || decide (previous = some '/')) = true := hfresh
    simpa [hn, hfresh] using hwhole

theorem token_of_read (h : read d pos previous c rest = .ok (s, extra)) :
    ∃ word text, rest = word ++ text ∧ word.length = extra ∧
      Token d (atStart previous) (c :: word) s text := by
  unfold read at h
  split at h
  · next hc =>
    subst hc
    obtain ⟨n, after, rfl, hrun⟩ := exists_stars rest
    rw [(stars_append hrun n).1, (stars_append hrun n).2, List.length_replicate] at h
    exact token_of_readStars hrun h
  next hstar =>
  split at h
  · next hc =>
    cases h
    subst hc
    exact ⟨[], rest, rfl, rfl, .anyChar⟩
  next hany =>
  split at h
  · next hc =>
    subst hc
    obtain ⟨b, hb, h⟩ := bind_eq_ok_iff.mp h
    cases h
    obtain ⟨inside, text, rfl, htaken, henc⟩ := Bracket.read_iff.mp hb
    exact ⟨inside ++ [']'], text, by simp, by simp [htaken], .bracket henc⟩
  next hopen =>
  split at h
  · cases h
  next hclose =>
  split at h
  · cases h
  next hbrace =>
  obtain ⟨meant, hmeant, h⟩ := bind_eq_ok_iff.mp h
  cases h
  obtain ⟨htaken, hm, hc⟩ | ⟨htaken, hc, more, hrest⟩ := readEscaped_cases hmeant
  · rw [hm, htaken]
    exact ⟨[], rest, rfl, rfl, .char ⟨by simp [not_or.mp hbrace, *], hc⟩⟩
  · obtain ⟨he, hb⟩ := Bool.and_eq_true_iff.mp hc
    obtain rfl := of_decide_eq_true hb
    exact ⟨[_], more, hrest, htaken.symm, .escape he⟩

theorem read_of_token {word text : Text} (h : Token d (atStart previous) (c :: word) s text) :
    read d pos previous c (word ++ text) = .ok (s, word.length) := by
  unfold read
  generalize hfresh : atStart previous = fresh at h
  cases h with
  | char hc =>
    obtain ⟨hc, hb⟩ := hc
    simp only [List.mem_cons, not_or] at hc
    simp [readEscaped, hc, hb, bind, Except.bind]
  | escape he => simp [readEscaped, he, bind, Except.bind]
  | anyChar => rfl
  | @bracket _ inside b _ hb =>
    have hread := (@Bracket.read_iff d.escaping pos (inside.length + 1) _ b).mpr
      ⟨inside, text, rfl, rfl, hb⟩
    simp [hread, bind, Except.bind]
  | @star _ n _ hrun hpart =>
    rw [if_pos rfl, (stars_append hrun n).1, (stars_append hrun n).2, readStars, if_neg]
    intro hwhole
    simp only [List.length_replicate, Bool.and_eq_true, decide_eq_true_eq] at hwhole
    obtain ⟨hn, hstart, hafter⟩ := hwhole
    obtain ⟨hne, hhead⟩ := hpart (hfresh ▸ hstart) hn
    simp [hne, hhead] at hafter
  | @lastGlobstar n hd =>
    have hstart : (decide (previous = none) || decide (previous = some '/')) = true := hfresh
    have hrun : ([] : Text).head? ≠ some '*' := by simp
    rw [if_pos rfl, ← List.replicate_succ, (stars_append hrun _).1, (stars_append hrun _).2,
      readStars]
    simp [hstart, hd]
  | @globstar n _ hd =>
    have hstart : (decide (previous = none) || decide (previous = some '/')) = true := hfresh
    have hrun : ('/' :: text).head? ≠ some '*' := by simp
    have hrest : '*' :: (List.replicate n '*' ++ ['/']) ++ text =
        List.replicate (n + 1) '*' ++ '/' :: text := by simp [List.replicate_succ]
    rw [if_pos rfl, hrest, (stars_append hrun _).1, (stars_append hrun _).2, readStars]
    simp [hstart, hd]

end Segment

/-! ## Texts -/

/-- A text that is a sequence of tokens, and their segments; it stands at the start of a component or
does not. -/
inductive Spelled (d : Dialect) : (fresh : Bool) → Text → List Segment → Prop
  | nil {fresh} : Spelled d fresh [] []
  | cons {fresh word s text segments} (ht : Token d fresh word s text)
    (h : Spelled d (word.getLast? = some '/') text segments) :
    Spelled d fresh (word ++ text) (s :: segments)

namespace Segment

variable {d : Dialect} {pos : Nat} {previous : Option Char} {text word : Text}
  {segments : List Segment}

theorem readAll_append (word text : Text) :
    readAll d pos previous word.length (word ++ text) =
      readAll d (pos + word.length) (word.getLast?.or previous) 0 text := by
  induction word generalizing pos previous with
  | nil => rfl
  | cons c word ih =>
    rw [List.cons_append, List.length_cons, readAll, ih, List.getLast?_cons]
    congr 1
    · omega
    · cases word.getLast? <;> rfl

theorem token_ne_nil {fresh : Bool} {s : Segment} (h : Token d fresh word s text) : word ≠ [] := by
  cases h <;> simp

theorem eq_nil_of_spelled {fresh : Bool} (h : Spelled d fresh [] segments) : segments = [] := by
  generalize htext : ([] : Text) = text at h
  cases h with
  | nil => rfl
  | cons ht _ => exact (token_ne_nil ht (List.append_eq_nil_iff.mp htext.symm).1).elim

theorem atStart_getLast {c : Char} (word : Text) :
    atStart (word.getLast?.or (some c)) = decide ((c :: word).getLast? = some '/') := by
  rw [List.getLast?_cons]
  cases word.getLast? <;> simp [atStart]

/-- **The grammar of patterns.** A text reads as some segments just if it is spelled that way. -/
theorem readAll_iff_spelled : readAll d pos previous 0 text = .ok segments ↔
    Spelled d (atStart previous) text segments := by
  refine ⟨fun h => ?_, fun h => ?_⟩
  · -- The reader goes on behind a token, so the induction is on how much is left.
    induction hn : text.length using Nat.strong_induction_on generalizing text pos previous segments
    next n ih =>
    cases text with
    | nil =>
      cases h
      exact .nil
    | cons c rest =>
      obtain ⟨s, extra, more, hfound, hmore, rfl⟩ := readAll_cons_eq_ok_iff.mp h
      obtain ⟨word, text, rfl, rfl, htoken⟩ := token_of_read hfound
      rw [readAll_append] at hmore
      have hlen : text.length < n := by
        rw [← hn, List.length_cons, List.length_append]
        omega
      have hrest := ih _ hlen hmore rfl
      rw [atStart_getLast] at hrest
      exact .cons htoken hrest
  · generalize hfresh : atStart previous = fresh at h
    induction h generalizing pos previous with
    | nil => rfl
    | @cons fresh word s text segments htoken _ ih =>
      obtain ⟨c, word, rfl⟩ := List.exists_cons_of_ne_nil (token_ne_nil htoken)
      have hread := @read_of_token d pos previous c s word text (hfresh ▸ htoken)
      rw [List.cons_append, readAll_cons_eq_ok_iff]
      refine ⟨s, word.length, segments, hread, ?_, rfl⟩
      rw [readAll_append, ih (atStart_getLast word)]

end Segment

theorem Pattern.read_iff_spelled {d : Dialect} {raw : Text} {p : Pattern} :
    read d raw = .ok p ↔ raw ≠ [] ∧ ∃ segments, Spelled d true raw segments ∧
      p = { source := raw, segments := Segment.merge segments, dialect := d } := by
  rw [read_eq_ok_iff]
  simp only [Segment.readAll_iff_spelled]
  rfl

end TreeGlob
