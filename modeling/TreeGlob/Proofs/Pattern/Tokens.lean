import Mathlib.Data.List.Basic
import Mathlib.Data.List.Infix
import TreeGlob.Pattern.Brace

/-!
Escapes and bracket expressions in the text of a pattern. Three readers pass over such a text: one
reads segments, one looks for brace groups, one splits groups. They agree on which characters are
escaped, so what they make of a text is told of the characters that are left when the escapes are
taken out.

* `unescaped` are these characters; a text is `Whole` if what follows it is not escaped by it.
* `Bracket.text_of_read` and `Segment.read_cases` say what the text of a bracket expression and of any
  other segment looks like.
* `Segment.tokens` cuts a text into the texts of its segments, and `Pattern.brackets` are the insides
  of the bracket expressions among them.
-/
namespace TreeGlob

/-! ## Escapes -/

/-- The characters of a text that are neither escaped nor escape another; `escaped` says that the
first one follows an escaping backslash. -/
def unescapedFrom (escaping : Bool) : (escaped : Bool) → Text → Text
  | _, [] => []
  | true, _ :: rest => unescapedFrom escaping false rest
  | false, c :: rest =>
    if escaping && c = '\\' then unescapedFrom escaping true rest
    else c :: unescapedFrom escaping false rest

def unescaped (escaping : Bool) (t : Text) : Text := unescapedFrom escaping false t

/-- Whether what follows a text is escaped by its last character. -/
def escapesNext (escaping : Bool) : (escaped : Bool) → Text → Bool
  | escaped, [] => escaped
  | true, _ :: rest => escapesNext escaping false rest
  | false, c :: rest => escapesNext escaping (escaping && c = '\\') rest

/-- The text does not end in the middle of an escape. -/
def Whole (escaping : Bool) (t : Text) : Prop := escapesNext escaping false t = false

section Escapes

variable {escaping : Bool}

theorem unescapedFrom_append (escaped : Bool) (t u : Text) :
    unescapedFrom escaping escaped (t ++ u) =
      unescapedFrom escaping escaped t ++
        unescapedFrom escaping (escapesNext escaping escaped t) u := by
  induction t generalizing escaped with
  | nil => cases escaped <;> rfl
  | cons c t ih =>
    cases escaped with
    | true => exact ih false
    | false =>
      rw [List.cons_append, unescapedFrom, unescapedFrom, escapesNext]
      split
      · next h => rw [h, ih]
      · next h => rw [Bool.not_eq_true] at h; rw [h, ih, List.cons_append]

theorem escapesNext_append (escaped : Bool) (t u : Text) :
    escapesNext escaping escaped (t ++ u) =
      escapesNext escaping (escapesNext escaping escaped t) u := by
  induction t generalizing escaped with
  | nil => cases escaped <;> rfl
  | cons c t ih => cases escaped <;> exact ih _

theorem whole_nil : Whole escaping [] := rfl

theorem Whole.append {t u : Text} (ht : Whole escaping t) (hu : Whole escaping u) :
    Whole escaping (t ++ u) := by
  rw [Whole, escapesNext_append, ht]
  exact hu

theorem whole_singleton {c : Char} (h : (escaping && c = '\\') = false) : Whole escaping [c] := h

theorem whole_escape {c e : Char} (h : (escaping && c = '\\') = true) : Whole escaping [c, e] := by
  rw [Whole, escapesNext, h]
  rfl

theorem whole_of_not_mem {t : Text} (h : '\\' ∉ t) : Whole escaping t := by
  induction t with
  | nil => exact whole_nil
  | cons c t ih =>
    obtain ⟨hc, ht⟩ := not_or.mp (mt List.mem_cons.mpr h)
    exact (whole_singleton (by simp [Ne.symm hc])).append (ih ht)

theorem unescaped_append {t u : Text} (h : Whole escaping t) :
    unescaped escaping (t ++ u) = unescaped escaping t ++ unescaped escaping u := by
  rw [unescaped, unescapedFrom_append, h]
  rfl

theorem unescaped_singleton {c : Char} (h : (escaping && c = '\\') = false) :
    unescaped escaping [c] = [c] := by
  simp [unescaped, unescapedFrom, h]

theorem unescaped_escape {c e : Char} (h : (escaping && c = '\\') = true) :
    unescaped escaping [c, e] = [] := by
  simp [unescaped, unescapedFrom, h]

theorem mem_of_mem_unescapedFrom {escaped : Bool} {t : Text} {c : Char}
    (h : c ∈ unescapedFrom escaping escaped t) : c ∈ t := by
  induction t generalizing escaped with
  | nil => cases escaped <;> exact absurd h List.not_mem_nil
  | cons x t ih =>
    cases escaped with
    | true => exact List.mem_cons_of_mem x (ih h)
    | false =>
      rw [unescapedFrom] at h
      split at h
      · exact List.mem_cons_of_mem x (ih h)
      · rcases List.mem_cons.mp h with rfl | h
        · exact List.mem_cons_self
        · exact List.mem_cons_of_mem x (ih h)

theorem unescaped_isPrefix {t u : Text} (h : t <+: u) :
    unescaped escaping t <+: unescaped escaping u := by
  obtain ⟨rest, rfl⟩ := h
  exact ⟨_, (unescapedFrom_append false t rest).symm⟩

/-- A character as written is one character, or an escape with the character after it. -/
theorem readEscaped_cases {c meant : Char} {rest : Text} {taken : Nat}
    (h : readEscaped escaping c rest = .ok (meant, taken)) :
    (taken = 0 ∧ meant = c ∧ (escaping && c = '\\') = false) ∨
      (taken = 1 ∧ (escaping && c = '\\') = true ∧ ∃ more, rest = meant :: more) := by
  unfold readEscaped at h
  split at h
  · next hc =>
    split at h
    · cases h
    · cases h
      exact .inr ⟨rfl, hc, _, rfl⟩
  · next hc =>
    cases h
    exact .inl ⟨rfl, rfl, by simpa using hc⟩

theorem whole_of_readEscaped {c meant : Char} {rest : Text} {taken : Nat}
    (h : readEscaped escaping c rest = .ok (meant, taken)) :
    taken ≤ rest.length ∧ Whole escaping (c :: rest.take taken) := by
  obtain ⟨rfl, -, hc⟩ | ⟨rfl, hc, more, rfl⟩ := readEscaped_cases h
  · exact ⟨Nat.zero_le _, whole_singleton hc⟩
  · exact ⟨Nat.succ_le_succ (Nat.zero_le _), whole_escape hc⟩

end Escapes

/-! ## Bracket expressions -/

namespace Bracket

variable {escaping : Bool}

theorem eq_append_of_untilClose {t name : Text} (h : untilClose t = some name) :
    ∃ more, t = name ++ ':' :: ']' :: more := by
  induction t generalizing name with
  | nil => cases h
  | cons c t ih =>
    unfold untilClose at h
    split at h
    · next hc =>
      obtain ⟨rfl, ht⟩ := hc
      obtain ⟨more, rfl⟩ := List.head?_eq_some_iff.mp ht
      cases h
      exact ⟨more, rfl⟩
    · obtain ⟨name, hn, rfl⟩ := Option.map_eq_some_iff.mp h
      obtain ⟨more, rfl⟩ := ih hn
      exact ⟨more, rfl⟩

theorem backslash_not_mem_of_ofText {name : Text} {found : ClassName}
    (h : ClassName.ofText? name = some found) : '\\' ∉ name := by
  have hname : found.text = name := by simpa using List.find?_some h
  rw [← hname]
  cases found <;> decide

/-- An entry of a bracket expression does not end in the middle of an escape. -/
theorem whole_of_readItem {start : Nat} {c : Char} {rest : Text} {item : Item} {extra : Nat}
    (h : readItem escaping start c rest = .ok (item, extra)) :
    extra ≤ rest.length ∧ Whole escaping (c :: rest.take extra) := by
  unfold readItem at h
  split at h
  · next hc =>
    -- A named class: no name of a class has a backslash in it.
    obtain ⟨rfl, hhead⟩ := hc
    obtain ⟨rest, rfl⟩ := List.head?_eq_some_iff.mp hhead
    split at h
    · cases h
    next name hname =>
    split at h
    · cases h
    next found hfound =>
    cases h
    obtain ⟨more, hmore⟩ := eq_append_of_untilClose hname
    rw [List.tail_cons] at hmore
    have htake : (':' :: rest).take (name.length + 3) = ':' :: (name ++ [':', ']']) := by
      rw [hmore]
      simp [List.take_append, List.take_of_length_le]
    refine ⟨by simp [hmore], ?_⟩
    rw [htake]
    exact whole_of_not_mem (by simp [backslash_not_mem_of_ofText hfound])
  · obtain ⟨⟨low, taken⟩, hlow, h⟩ := bind_eq_ok_iff.mp h
    obtain ⟨htaken, hwhole⟩ := whole_of_readEscaped hlow
    dsimp only at h
    split at h
    · next b more hdash =>
      split at h
      · cases h
        exact ⟨htaken, hwhole⟩
      · obtain ⟨⟨high, extra'⟩, hhigh, h⟩ := bind_eq_ok_iff.mp h
        dsimp only at h
        split at h
        · cases h
        · cases h
          -- A range: the low end, a dash and the high end, all of them whole.
          obtain ⟨hextra, hwhole'⟩ := whole_of_readEscaped hhigh
          have hrest : rest = rest.take taken ++ '-' :: b :: more := by
            rw [← hdash, List.take_append_drop]
          have htake : rest.take (taken + 2 + extra') =
              rest.take taken ++ ['-'] ++ b :: more.take extra' := by
            conv_lhs => rw [hrest]
            have hlen : (rest.take taken).length = taken := List.length_take_of_le htaken
            rw [Nat.add_assoc, List.take_append, hlen]
            simp [List.take_of_length_le, hlen, Nat.add_comm 2 extra']
          have hlen := congrArg List.length hdash
          simp only [List.length_drop, List.length_cons] at hlen
          refine ⟨by omega, ?_⟩
          rw [htake, ← List.cons_append, ← List.cons_append]
          exact (hwhole.append (whole_of_not_mem (by decide))).append hwhole'
    · cases h
      exact ⟨htaken, hwhole⟩

/-- The entries of a bracket expression end right before its closing bracket. -/
theorem text_of_readItems {start skip : Nat} {first : Bool} {text : Text} {items : List Item}
    {taken : Nat} (h : readItems escaping start skip first text = .ok (items, taken)) :
    ∃ inside, text.drop skip = inside ++ ']' :: text.drop taken ∧
      taken = skip + inside.length + 1 ∧ Whole escaping inside := by
  induction text generalizing skip first items taken with
  | nil => cases skip <;> cases h
  | cons c rest ih =>
    cases skip with
    | succ skip =>
      obtain ⟨read, hread, h⟩ := bind_eq_ok_iff.mp h
      cases h
      obtain ⟨inside, htext, htaken, hwhole⟩ := ih hread
      exact ⟨inside, htext, by omega, hwhole⟩
    | zero =>
      rw [readItems] at h
      split at h
      · next hc =>
        cases h
        exact ⟨[], by simp [hc.1], rfl, whole_nil⟩
      · obtain ⟨item, hitem, h⟩ := bind_eq_ok_iff.mp h
        obtain ⟨read, hread, h⟩ := bind_eq_ok_iff.mp h
        cases h
        obtain ⟨hextra, hentry⟩ := whole_of_readItem hitem
        obtain ⟨inside, htext, htaken, hwhole⟩ := ih hread
        refine ⟨c :: rest.take item.2 ++ inside, ?_, ?_, hentry.append hwhole⟩
        · rw [List.append_assoc, List.drop_succ_cons, ← htext]
          simp
        · simp only [List.length_append, List.length_cons, List.length_take_of_le hextra]
          omega

theorem text_of_read {start : Nat} {text : Text} {b : Bracket} {taken : Nat}
    (h : read escaping start text = .ok (b, taken)) :
    ∃ inside, text = inside ++ ']' :: text.drop taken ∧ taken = inside.length + 1 ∧
      Whole escaping inside := by
  obtain ⟨read, hread, h⟩ := bind_eq_ok_iff.mp h
  cases h
  obtain ⟨inside, htext, htaken, hwhole⟩ := text_of_readItems hread
  rw [List.drop_zero] at htext
  by_cases hneg : (text.head? = some '!' || text.head? = some '^') = true
  · rw [if_pos hneg] at htext ⊢
    obtain ⟨m, text, rfl⟩ : ∃ m more, text = m :: more := by
      cases text with
      | nil => simp at hneg
      | cons m more => exact ⟨m, more, rfl⟩
    have hm : m ≠ '\\' := by
      rintro rfl
      simp at hneg
    refine ⟨m :: inside, ?_, ?_, (whole_singleton (by simp [hm])).append hwhole⟩
    · simpa [Nat.add_comm 1 read.2] using htext
    · rw [List.length_cons, htaken]
      omega
  · rw [if_neg hneg] at htext ⊢
    refine ⟨inside, ?_, ?_, hwhole⟩
    · simpa using htext
    · omega

end Bracket

/-! ## Segments -/

namespace Segment

variable {d : Dialect} {pos : Nat} {previous : Option Char} {c : Char} {rest : Text} {s : Segment}
  {extra : Nat}

/-- The text of a run of stars: more stars, and the separator behind them if the run is a component of
its own. -/
theorem text_of_readStars
    (h : readStars d pos previous (rest.takeWhile (· = '*')).length (rest.dropWhile (· = '*')) =
      .ok (s, extra)) :
    extra ≤ rest.length ∧ (∀ x ∈ rest.take extra, x = '*' ∨ x = '/') ∧ ∀ b, s ≠ .bracket b := by
  have hrest : rest = rest.takeWhile (· = '*') ++ rest.dropWhile (· = '*') :=
    List.takeWhile_append_dropWhile.symm
  have hstars : ∀ x ∈ rest.takeWhile (· = '*'), x = '*' := by
    simpa using List.all_eq_true.mp (List.all_takeWhile (p := (· = '*')) (l := rest))
  generalize rest.takeWhile (· = '*') = stars at *
  generalize rest.dropWhile (· = '*') = after at *
  have hrun : (stars ++ after).take stars.length = stars := by simp
  subst hrest
  unfold readStars at h
  dsimp only at h
  split at h
  · next hwhole =>
    split at h
    · cases h
      refine ⟨?_, ?_, by simp⟩
      · split
        · simp
        · next hne => simp [List.length_pos_iff.mpr hne, Nat.succ_le_iff]
      · split
        · rw [hrun]
          exact fun x hx => .inl (hstars x hx)
        · next hne =>
          obtain ⟨a, after, rfl⟩ := List.exists_cons_of_ne_nil hne
          have ha : a = '/' := by
            simp only [Bool.and_eq_true] at hwhole
            simpa using hwhole.2.2
          intro x hx
          rw [List.take_append] at hx
          simp only [List.take_of_length_le (Nat.le_succ stars.length), Nat.add_sub_cancel_left,
            List.take_succ_cons, List.take_zero, List.mem_append, List.mem_singleton] at hx
          rcases hx with hx | rfl
          · exact .inl (hstars x hx)
          · exact .inr ha
    · cases h
  · cases h
    refine ⟨by simp, ?_, by simp⟩
    rw [hrun]
    exact fun x hx => .inl (hstars x hx)

/-- What the text of a segment looks like: a bracket expression is whole between its brackets, and no
other segment has a bracket or a brace in it that is not escaped, or a comma unless it is that comma. -/
theorem read_cases (h : read d pos previous c rest = .ok (s, extra)) :
    extra ≤ rest.length ∧ Whole d.escaping (c :: rest.take extra) ∧
      ((∃ b inside, s = .bracket b ∧ c :: rest.take extra = '[' :: inside ++ [']'] ∧
          Whole d.escaping inside) ∨
        (∀ b, s ≠ .bracket b) ∧ ∀ x ∈ unescaped d.escaping (c :: rest.take extra),
          x ≠ '[' ∧ x ≠ ']' ∧ x ≠ '{' ∧ x ≠ '}' ∧ (x = ',' → c :: rest.take extra = [','])) := by
  unfold read at h
  split at h
  · next hc =>
    obtain ⟨hextra, htext, hs⟩ := text_of_readStars h
    have hall : ∀ x ∈ c :: rest.take extra, x = '*' ∨ x = '/' := by
      intro x hx
      rcases List.mem_cons.mp hx with rfl | hx
      · exact .inl hc
      · exact htext x hx
    refine ⟨hextra, whole_of_not_mem fun hb => ?_, .inr ⟨hs, ?_⟩⟩
    · rcases hall _ hb with hb | hb <;> cases hb
    · intro x hx
      rcases hall x (mem_of_mem_unescapedFrom hx) with rfl | rfl <;> simp
  split at h
  · next hc =>
    cases h
    subst hc
    refine ⟨Nat.zero_le _, whole_of_not_mem (by simp), .inr ⟨by simp, ?_⟩⟩
    intro x hx
    obtain rfl : x = '?' := by simpa using mem_of_mem_unescapedFrom hx
    simp
  split at h
  · next hc =>
    obtain ⟨b, hb, h⟩ := bind_eq_ok_iff.mp h
    cases h
    obtain ⟨inside, htext, htaken, hwhole⟩ := Bracket.text_of_read hb
    have htake : rest.take b.2 = inside ++ [']'] := by
      conv_lhs => rw [htext, htaken]
      simp [List.take_append, List.take_of_length_le]
    have hbracket : c :: rest.take b.2 = '[' :: inside ++ [']'] := by rw [htake, hc]; rfl
    have hopen : Whole d.escaping ['['] := whole_of_not_mem (by decide)
    have hclose : Whole d.escaping [']'] := whole_of_not_mem (by decide)
    refine ⟨?_, ?_, .inl ⟨b.1, inside, rfl, hbracket, hwhole⟩⟩
    · rw [htaken, htext]
      simp
    · rw [hbracket]
      exact (hopen.append hwhole).append hclose
  split at h
  · cases h
  next hclose =>
  split at h
  · cases h
  next hbrace =>
  obtain ⟨meant, hmeant, h⟩ := bind_eq_ok_iff.mp h
  cases h
  obtain ⟨htaken, hwhole⟩ := whole_of_readEscaped hmeant
  refine ⟨htaken, hwhole, .inr ⟨by simp, ?_⟩⟩
  intro x hx
  obtain ⟨htaken, -, hc⟩ | ⟨htaken, hc, more, hrest⟩ := readEscaped_cases hmeant
  · rw [htaken, List.take_zero, unescaped_singleton hc] at hx
    obtain rfl := List.mem_singleton.mp hx
    have hbrace := not_or.mp hbrace
    refine ⟨by assumption, hclose, hbrace.1, hbrace.2, ?_⟩
    rintro rfl
    rw [htaken, List.take_zero]
  · rw [htaken, hrest, List.take_succ_cons, List.take_zero, unescaped_escape hc] at hx
    cases hx

/-- The segments of a text, each with its own text; the first `skip` characters belong to a segment
that was read before. It ends where nothing can be read. -/
def tokens (d : Dialect) :
    (pos : Nat) → (previous : Option Char) → (skip : Nat) → Text → List (Text × Segment)
  | _, _, _, [] => []
  | pos, _, skip + 1, c :: rest => tokens d (pos + 1) (some c) skip rest
  | pos, previous, 0, c :: rest =>
    match read d pos previous c rest with
    | .error _ => []
    | .ok (s, extra) => (c :: rest.take extra, s) :: tokens d (pos + 1) (some c) extra rest

/-- What a token holds between its brackets, if it is a bracket expression. -/
def inside? (token : Text × Segment) : Option Text :=
  match token.2 with
  | .bracket _ => some token.1.tail.dropLast
  | _ => none

end Segment

def Pattern.brackets (d : Dialect) (raw : Text) : List Text :=
  (Segment.tokens d 0 none 0 raw).filterMap Segment.inside?

end TreeGlob
