import Mathlib.Data.List.Chain
import TreeGlob.Proofs.Pattern.Pruning
import TreeGlob.Proofs.Pattern.Writing

/-!
What every pattern that was read looks like.

* `Bracket.Normal` says that a bracket expression holds something, and no range that runs backwards.
* `Segment.Precedes` says what a globstar may stand behind as it is written: the reader takes a run of
  stars for one only where a component starts, and that is behind a separator. The separator is a
  constant, or a globstar in front has taken it. `Segment.Abuts` says the same of the normal form.
* `Segment.isChain_of_spelled` and `Segment.isChain_merge` are the two steps from a text to that form.
* `Pattern.Normal` puts all of it together, and `Pattern.normal_of_read_and_compile` is the main
  result.

A globstar that begins a list of segments is taken to stand at the start of a component when a path is
matched. The shape of the list is what makes that right everywhere else.
-/
namespace TreeGlob

/-! ## Bracket expressions -/

/-- A bracket expression that holds something, and no range that runs backwards. -/
structure Bracket.Normal (b : Bracket) : Prop where
  inhabited : b.ranges ≠ [] ∨ b.classes ≠ []
  ordered : ∀ range ∈ b.ranges, range.1 ≤ range.2

namespace Bracket

variable {escaping negated first : Bool} {start skip extra taken : Nat} {c : Char} {rest text : Text}
  {item : Item} {items : List Item} {b : Bracket}

theorem ordered_of_readItem (h : readItem escaping start c rest = .ok (item, extra)) :
    item.Ordered := by
  unfold readItem at h
  split at h
  · split at h
    · cases h
    split at h
    · cases h
    · cases h
      trivial
  · obtain ⟨⟨low, taken⟩, -, h⟩ := bind_eq_ok_iff.mp h
    dsimp only at h
    split at h
    · split at h
      · cases h
        exact Char.le_refl low
      · obtain ⟨⟨high, further⟩, -, h⟩ := bind_eq_ok_iff.mp h
        dsimp only at h
        split at h
        · cases h
        · next hforward =>
          cases h
          exact Char.not_lt.mp hforward
    · cases h
      exact Char.le_refl low

theorem ordered_of_readItems (h : readItems escaping start skip first text = .ok (items, taken)) :
    ∀ item ∈ items, item.Ordered := by
  fun_induction readItems escaping start skip first text generalizing items taken with
  | case1 => cases h
  | case2 _ _ _ _ ih =>
    obtain ⟨⟨others, more⟩, hothers, h⟩ := bind_eq_ok_iff.mp h
    cases h
    exact ih hothers
  | case3 =>
    cases h
    simp
  | case4 _ _ _ _ ih =>
    obtain ⟨⟨item, extra⟩, hitem, h⟩ := bind_eq_ok_iff.mp h
    obtain ⟨⟨others, more⟩, hothers, h⟩ := bind_eq_ok_iff.mp h
    cases h
    exact List.forall_mem_cons.mpr ⟨ordered_of_readItem hitem, ih extra hothers⟩

/-- A closing bracket that comes first is an entry, so there is one. -/
theorem ne_nil_of_readItems (h : readItems escaping start 0 true text = .ok (items, taken)) :
    items ≠ [] := by
  cases text with
  | nil => cases h
  | cons c rest =>
    rw [readItems, if_neg (by simp)] at h
    obtain ⟨⟨item, extra⟩, -, h⟩ := bind_eq_ok_iff.mp h
    obtain ⟨⟨others, more⟩, -, h⟩ := bind_eq_ok_iff.mp h
    cases h
    exact List.cons_ne_nil item others

theorem normal_ofItems (hne : items ≠ []) (hitems : ∀ item ∈ items, item.Ordered) :
    (ofItems negated items).Normal where
  inhabited := by
    obtain ⟨item, items, rfl⟩ := List.exists_cons_of_ne_nil hne
    cases item with
    | range low high => exact .inl (by simp [ofItems])
    | named name => exact .inr (by simp [ofItems])
  ordered := by
    intro range hrange
    obtain ⟨item, hitem, hrange⟩ := List.mem_filterMap.mp hrange
    cases item with
    | range low high =>
      cases hrange
      exact hitems _ hitem
    | named name => cases hrange

theorem normal_of_read (h : read escaping start text = .ok (b, taken)) : b.Normal := by
  obtain ⟨⟨items, more⟩, hitems, h⟩ := bind_eq_ok_iff.mp h
  cases h
  exact normal_ofItems (ne_nil_of_readItems hitems) (ordered_of_readItems hitems)

end Bracket

namespace Segment

/-- A constant that ends in a separator. A component starts behind it. -/
def Closes : Segment → Prop
  | .constant text => text.getLast? = some '/'
  | _ => False

/-- What a globstar stands behind as it is written: a separator, or a globstar that has taken it. -/
def Precedes (s t : Segment) : Prop := t = .globstar → s = .globstar ∨ s.Closes

/-- What may stand behind a segment in normal form. -/
def Abuts (s t : Segment) : Prop := Apart s t ∧ (t = .globstar → s.Closes)

variable {d : Dialect} {fresh : Bool} {word text : Text} {s : Segment} {segments rest : List Segment}

/-! ## As written -/

theorem fresh_of_globstar (h : Token d fresh word .globstar text) :
    fresh = true ∧ d.pathWildcards = true := by
  cases h with
  | lastGlobstar hd | globstar hd => exact ⟨rfl, hd⟩

/-- Of all tokens, only a constant and a globstar can end in a separator. -/
theorem closes_of_token (h : Token d fresh word s text) (hlast : word.getLast? = some '/') :
    s = .globstar ∨ s.Closes := by
  cases h with
  | char | escape => exact .inr (by simpa [Closes] using hlast)
  | anyChar => simp at hlast
  | bracket =>
    rw [← List.cons_append, List.getLast?_concat] at hlast
    cases hlast
  | star =>
    rw [← List.replicate_succ] at hlast
    cases List.eq_of_mem_replicate (List.mem_of_getLast? hlast)
  | lastGlobstar | globstar => exact .inl rfl

theorem isChain_of_spelled (h : Spelled d fresh text segments) : segments.IsChain Precedes := by
  induction h with
  | nil => exact .nil
  | @cons fresh word s text segments ht h ih =>
    refine List.isChain_cons.mpr ⟨?_, ih⟩
    intro t hhead hglobstar
    subst hglobstar
    cases h with
    | nil => cases hhead
    | cons hnext _ =>
      obtain rfl := Option.some.inj hhead
      exact closes_of_token ht (of_decide_eq_true (fresh_of_globstar hnext).1)

theorem token_of_mem_spelled (h : Spelled d fresh text segments) (hs : s ∈ segments) :
    ∃ fresh word text, Token d fresh word s text := by
  induction h with
  | nil => cases hs
  | cons ht _ ih =>
    obtain rfl | hs := List.mem_cons.mp hs
    · exact ⟨_, _, _, ht⟩
    · exact ih hs

/-! ## In normal form -/

theorem Abuts.append {a b : Text} {t : Segment} (h : Abuts (.constant b) t) :
    Abuts (.constant (a ++ b)) t := by
  obtain ⟨hapart, hcloses⟩ := h
  refine ⟨?_, fun hglobstar => ?_⟩
  · cases t with
    | constant => exact hapart
    | anyChar | bracket | star | globstar => trivial
  · have hlast : b.getLast? = some '/' := hcloses hglobstar
    simp [Closes, List.getLast?_append, hlast]

theorem isChain_cons (hrest : rest.IsChain Abuts) (hs : ∀ t ∈ rest.head?, Precedes s t) :
    (cons s rest).IsChain Abuts := by
  unfold cons
  split
  · obtain ⟨hhead, htail⟩ := List.isChain_cons.mp hrest
    exact List.isChain_cons.mpr ⟨fun t ht => (hhead t ht).append, htail⟩
  · exact hrest
  · exact hrest
  · next hconstants hstars hglobstars =>
    refine List.isChain_cons.mpr ⟨fun t ht => ?_, hrest⟩
    obtain ⟨behind, rfl⟩ := List.head?_eq_some_iff.mp ht
    refine ⟨?_, fun hglobstar => ?_⟩
    · cases s with
      | anyChar | bracket => trivial
      | constant a =>
        cases t with
        | constant b => exact hconstants a b behind rfl rfl
        | anyChar | bracket | star | globstar => trivial
      | star =>
        cases t with
        | star => exact hstars behind rfl rfl
        | constant | anyChar | bracket | globstar => trivial
      | globstar =>
        cases t with
        | globstar => exact hglobstars behind rfl rfl
        | constant | anyChar | bracket | star => trivial
    · subst hglobstar
      obtain rfl | hcloses := hs .globstar ht rfl
      · exact (hglobstars behind rfl rfl).elim
      · exact hcloses

theorem head?_of_merge (h : (merge segments).head? = some .globstar) :
    segments.head? = some .globstar := by
  cases segments with
  | nil => cases h
  | cons s segments =>
    rw [merge_cons] at h
    unfold cons at h
    split at h <;> simp_all

theorem isChain_merge (h : segments.IsChain Precedes) : (merge segments).IsChain Abuts := by
  induction segments with
  | nil => exact .nil
  | cons s segments ih =>
    obtain ⟨hhead, htail⟩ := List.isChain_cons.mp h
    rw [merge_cons]
    apply isChain_cons (ih htail)
    intro t ht hglobstar
    subst hglobstar
    exact hhead .globstar (head?_of_merge ht) rfl

theorem mem_of_mem_merge (hs : ∀ text, s ≠ .constant text) (h : s ∈ merge segments) :
    s ∈ segments := by
  induction segments with
  | nil => exact h
  | cons t segments ih =>
    rw [merge_cons] at h
    unfold cons at h
    split at h <;> grind

end Segment

namespace Pattern

/-- The shape of a pattern: how its segments follow each other, and what they hold. -/
structure Normal (p : Pattern) : Prop where
  segments_ne_nil : p.segments ≠ []
  constant_ne_nil : ∀ text, .constant text ∈ p.segments → text ≠ []
  /-- No two constants, no two stars and no two globstars stand side by side. -/
  apart : p.segments.IsChain Segment.Apart
  /-- A globstar comes first, or right behind a constant that ends in a separator. -/
  anchored : ∀ front back, p.segments = front ++ .globstar :: back →
    front = [] ∨ ∃ text, front.getLast? = some (.constant text) ∧ text.getLast? = some '/'
  globstar_not_mem : p.dialect.pathWildcards = false → .globstar ∉ p.segments
  brackets : ∀ b, .bracket b ∈ p.segments → b.Normal

variable {d : Dialect} {raw : Text} {p : Pattern}

theorem anchored_of_isChain {segments front back : List Segment} (h : segments.IsChain Segment.Abuts)
    (hsplit : segments = front ++ .globstar :: back) :
    front = [] ∨ ∃ text, front.getLast? = some (.constant text) ∧ text.getLast? = some '/' := by
  subst hsplit
  obtain ⟨-, -, hlink⟩ := List.isChain_append.mp h
  rcases List.eq_nil_or_concat front with rfl | ⟨front, s, rfl⟩
  · exact .inl rfl
  · obtain ⟨-, hcloses⟩ := hlink s (by simp) .globstar (by simp)
    cases s with
    | constant text => exact .inr ⟨text, by simp, hcloses rfl⟩
    | anyChar | bracket | star | globstar => exact (hcloses rfl).elim

theorem normal_of_read (h : read d raw = .ok p) : p.Normal := by
  have hconstants : ∀ text, .constant text ∈ p.segments → text ≠ [] := fun _ => constant_ne_nil h
  obtain ⟨hne, segments, hspelled, rfl⟩ := read_iff_spelled.mp h
  have hchain := Segment.isChain_merge (Segment.isChain_of_spelled hspelled)
  refine ⟨?_, hconstants, hchain.imp fun _ _ => And.left, fun front back => anchored_of_isChain hchain,
    ?_, ?_⟩
  · have hsegments : segments ≠ [] := by
      rintro rfl
      exact hne (by cases hspelled; rfl)
    exact mt Segment.merge_eq_nil_iff.mp hsegments
  · intro hd hmem
    have hwritten := Segment.mem_of_mem_merge (by simp) hmem
    obtain ⟨fresh, word, text, ht⟩ := Segment.token_of_mem_spelled hspelled hwritten
    exact Bool.false_ne_true (hd.symm.trans (Segment.fresh_of_globstar ht).2)
  · intro b hmem
    have hwritten := Segment.mem_of_mem_merge (by simp) hmem
    obtain ⟨fresh, word, text, ht⟩ := Segment.token_of_mem_spelled hspelled hwritten
    cases ht with
    | bracket hb => exact Bracket.normal_of_read hb

/-- **Every pattern is in normal form**, whether it was read from a text without groups or is one of
those that a text with groups stands for. -/
theorem normal_of_read_and_compile (d : Dialect) (raw : Text) :
    (∀ p, read d raw = .ok p → p.dialect = d ∧ p.Normal) ∧
      ∀ ps, compile d raw = .ok ps → ∀ p ∈ ps, p.dialect = d ∧ p.Normal := by
  have hread : ∀ raw p, read d raw = .ok p → p.dialect = d ∧ p.Normal :=
    fun raw p h => ⟨dialect_of_read h, normal_of_read h⟩
  refine ⟨hread raw, ?_⟩
  intro ps h p hp
  obtain ⟨texts, -, htexts⟩ := bind_eq_ok_iff.mp h
  obtain ⟨t, -, ht⟩ := exists_of_mem_right (mapM_eq_ok.mp htexts) hp
  exact hread t p ht

/-- A separator that is escaped and one that a globstar takes, each with a globstar behind it, and a
bracket expression that begins with a closing bracket. Then a group, whose patterns begin with a globstar
and with a constant. -/
theorem normal_of_read_and_compile_around_globstars :
    (∃ p, read {} "a\\/**/***/[]x-z]**".toList = .ok p ∧ p.segments =
        [.constant "a/".toList, .globstar, .bracket ⟨[(']', ']'), ('x', 'z')], [], false⟩, .star] ∧
      p.Normal) ∧
      ∃ p q, compile {} "\x7b**,b\x7d/**".toList = .ok [p, q] ∧ p.segments = [.globstar] ∧
        q.segments = [.constant "b/".toList, .globstar] ∧ p.Normal ∧ q.Normal := by
  obtain ⟨hread, -⟩ := normal_of_read_and_compile {} "a\\/**/***/[]x-z]**".toList
  obtain ⟨-, hcompile⟩ := normal_of_read_and_compile {} "\x7b**,b\x7d/**".toList
  have hp : read {} "a\\/**/***/[]x-z]**".toList = .ok {
      source := "a\\/**/***/[]x-z]**".toList
      segments :=
        [.constant "a/".toList, .globstar, .bracket ⟨[(']', ']'), ('x', 'z')], [], false⟩, .star]
      dialect := {} } := by rfl
  have hps : compile {} "\x7b**,b\x7d/**".toList = .ok [
      { source := "**/**".toList, segments := [.globstar], dialect := {} },
      { source := "b/**".toList, segments := [.constant "b/".toList, .globstar], dialect := {} }] := by
    decide +kernel
  have hnormal := hcompile _ hps
  exact ⟨⟨_, hp, rfl, (hread _ hp).2⟩, _, _, hps, rfl, rfl, (hnormal _ (by simp)).2,
    (hnormal _ (by simp)).2⟩

end Pattern

end TreeGlob
