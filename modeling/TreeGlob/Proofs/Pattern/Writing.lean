import TreeGlob.Proofs.Pattern.Grammar
import TreeGlob.Proofs.Pattern.Groups
import TreeGlob.Proofs.Pattern.Language

/-!
Writing patterns that are read back as they were meant. With escaping on, a backslash takes every
meaning but its own from the character behind it, so whatever is to stand in a pattern can be written.

* `Bracket.inside` writes what a bracket expression holds: its ranges with both ends escaped, and then
  its named classes. `Bracket.readItem_written` says that an entry is read back and takes nothing of
  what stands behind it, `Bracket.readItems_written` says so of a row of entries, and
  `Bracket.read_inside` of the whole expression.
* `quoted` escapes every character of a text. The search for groups sees none of its characters, the
  reader of segments makes a constant of each, and the normal form makes one constant of these.
  `Pattern.quoted_means_itself` says what the pattern of a quoted text matches and where a search for
  it has to go.
-/
namespace TreeGlob

/-! ## Bracket expressions -/

theorem ClassName.ofText?_text (name : ClassName) : ofText? name.text = some name := by
  cases name <;> rfl

theorem ClassName.colon_not_mem_text (name : ClassName) : ':' ∉ name.text := by
  cases name <;> decide

namespace Bracket

variable {start taken : Nat} {first : Bool} {c : Char} {word after : Text} {item : Item}
  {items : List Item} {b : Bracket}

/-- What a range or a named class looks like in a bracket expression. Both ends of a range are escaped,
and a range that holds a single character is that character. -/
def Item.written : Item → Text
  | .range low high => if low = high then ['\\', low] else ['\\', low, '-', '\\', high]
  | .named name => '[' :: ':' :: (name.text ++ [':', ']'])

def Item.Ordered : Item → Prop
  | .range low high => low ≤ high
  | .named _ => True

/-- The entries of a bracket expression, its ranges before its named classes. -/
def entries (b : Bracket) : List Item :=
  b.ranges.map (fun range => .range range.1 range.2) ++ b.classes.map .named

def inside (b : Bracket) : Text :=
  (if b.negated then ['!'] else []) ++ b.entries.flatMap Item.written

/-- An entry starts with a backslash or an opening bracket, so it is never taken for the end of the
expression, for its negation, or for the dash of a range. -/
theorem Item.written_cases (item : Item) :
    ∃ c word, item.written = c :: word ∧ (c = '\\' ∨ c = '[') := by
  cases item with
  | range low high =>
    by_cases h : low = high
    · exact ⟨'\\', [low], if_pos h, .inl rfl⟩
    · exact ⟨'\\', [low, '-', '\\', high], if_neg h, .inl rfl⟩
  | named name => exact ⟨'[', ':' :: (name.text ++ [':', ']']), rfl, .inr rfl⟩

theorem untilClose_name {name : Text} (h : ':' ∉ name) (more : Text) :
    untilClose (name ++ ':' :: ']' :: more) = some name := by
  induction name with
  | nil => rfl
  | cons c name ih =>
    obtain ⟨hc, hname⟩ := not_or.mp (mt List.mem_cons.mpr h)
    rw [List.cons_append, untilClose, if_neg fun hclose => hc hclose.1.symm, ih hname]
    rfl

theorem readItem_written (h : item.Ordered) (hitem : item.written = c :: word)
    (hafter : after.head? ≠ some '-') :
    readItem true start c (word ++ after) = .ok (item, word.length) := by
  cases item with
  | range low high =>
    by_cases hsame : low = high
    · -- A single character: the reader looks for a dash behind it and finds none.
      subst hsame
      obtain ⟨rfl, rfl⟩ := List.cons.inj ((if_pos rfl).symm.trans hitem)
      cases after with
      | nil => rfl
      | cons x after =>
        have hx : x ≠ '-' := by simpa using hafter
        simp [readItem, readEscaped, bind, Except.bind, hx]
    · obtain ⟨rfl, rfl⟩ := List.cons.inj ((if_neg hsame).symm.trans hitem)
      have hordered : ¬high < low := Char.not_lt.mpr h
      simp [readItem, readEscaped, bind, Except.bind, hordered]
  | named name =>
    obtain ⟨rfl, rfl⟩ := List.cons.inj hitem
    have hname : (':' :: (name.text ++ [':', ']']) ++ after).tail =
        name.text ++ ':' :: ']' :: after := by simp
    rw [readItem, if_pos ⟨rfl, rfl⟩, hname, untilClose_name name.colon_not_mem_text]
    simp [ClassName.ofText?_text]

/-- The loop over the entries passes over what belongs to an entry that it has read. -/
theorem readItems_skip (word : Text)
    (h : readItems true start 0 false after = .ok (items, taken)) :
    readItems true start word.length false (word ++ after) = .ok (items, word.length + taken) := by
  induction word with
  | nil => simpa using h
  | cons c word ih =>
    rw [List.cons_append, List.length_cons, readItems, ih, Nat.add_right_comm]
    rfl

/-- Entries in a row are read back one by one, up to the closing bracket behind the last of them. -/
theorem readItems_written (h : ∀ item ∈ items, item.Ordered) (hfirst : first = true → items ≠ []) :
    readItems true start 0 first (items.flatMap Item.written ++ ']' :: after) =
      .ok (items, (items.flatMap Item.written).length + 1) := by
  induction items generalizing first with
  | nil =>
    have hlater : first = false := by simpa using hfirst
    rw [hlater]
    rfl
  | cons item items ih =>
    obtain ⟨hitem, hitems⟩ := List.forall_mem_cons.mp h
    obtain ⟨c, word, hwritten, hc⟩ := item.written_cases
    have hopen : ¬(c = ']' ∧ first = false) := by
      obtain rfl | rfl := hc <;> simp
    -- Behind the entry comes another one or the closing bracket, and so no dash.
    have hdash : (items.flatMap Item.written ++ ']' :: after).head? ≠ some '-' := by
      cases items with
      | nil => simp
      | cons next items =>
        obtain ⟨x, more, hnext, hx⟩ := next.written_cases
        rw [List.flatMap_cons, hnext]
        obtain rfl | rfl := hx <;> simp
    have hlater : false = true → items ≠ [] := by simp
    have hothers := readItems_skip word (ih hitems hlater)
    rw [List.flatMap_cons, hwritten, List.append_assoc, List.cons_append, readItems, if_neg hopen,
      readItem_written hitem hwritten hdash]
    simp only [bind, Except.bind, hothers, List.length_cons, List.length_append]
    congr 2
    omega

theorem ofItems_entries (b : Bracket) : ofItems b.negated b.entries = b := by
  simp [ofItems, entries, List.filterMap_append, List.filterMap_map]

theorem ordered_of_mem_entries (h : ∀ range ∈ b.ranges, range.1 ≤ range.2) :
    ∀ item ∈ b.entries, item.Ordered := by
  intro item hitem
  obtain hrange | hnamed := List.mem_append.mp hitem
  · obtain ⟨range, hmem, rfl⟩ := List.mem_map.mp hrange
    exact h range hmem
  · obtain ⟨name, -, rfl⟩ := List.mem_map.mp hnamed
    trivial

/-- A negated expression starts with its mark, and no entry starts with one. -/
theorem mark_inside (hentries : b.entries ≠ []) :
    (decide ((b.inside ++ after).head? = some '!') || decide ((b.inside ++ after).head? = some '^')) =
      b.negated := by
  cases hb : b.negated with
  | true => simp [inside, hb]
  | false =>
    obtain ⟨item, items, hsplit⟩ := List.exists_cons_of_ne_nil hentries
    obtain ⟨c, word, hwritten, hc⟩ := item.written_cases
    obtain rfl | rfl := hc <;> simp [inside, hb, hsplit, hwritten]

theorem drop_mark_inside : (b.inside ++ after).drop (if b.negated then 1 else 0) =
    b.entries.flatMap Item.written ++ after := by
  cases hb : b.negated <;> simp [inside, hb]

theorem length_inside : b.inside.length =
    (if b.negated then 1 else 0) + (b.entries.flatMap Item.written).length := by
  cases hb : b.negated <;> simp [inside, hb, Nat.add_comm]

/-- **A bracket expression is read back.** What is read from between the brackets are the same ranges and
the same classes, in the same order, and the same negation, and the expression ends with the bracket
that closes it, whatever text follows. An expression that holds nothing cannot be written: in `[]` the
bracket that should close it would be its first entry. -/
theorem read_inside (h : ∀ range ∈ b.ranges, range.1 ≤ range.2)
    (hsome : b.ranges ≠ [] ∨ b.classes ≠ []) (start : Nat) (after : Text) :
    read true start (b.inside ++ ']' :: after) = .ok (b, b.inside.length + 1) := by
  have hentries : b.entries ≠ [] := by
    simpa [entries, or_iff_not_imp_left] using hsome
  have hread : readItems true start 0 true (b.entries.flatMap Item.written ++ ']' :: after) =
      .ok (b.entries, (b.entries.flatMap Item.written).length + 1) :=
    readItems_written (ordered_of_mem_entries h) fun _ => hentries
  simp only [read, mark_inside hentries, drop_mark_inside, hread, bind, Except.bind, ofItems_entries,
    length_inside, Nat.add_assoc]

/-- Every character that means something in a bracket expression is an entry or an end of a range, and
what follows the expression looks like the rest of a range and another closing bracket. -/
theorem read_inside_of_special_characters :
    inside ⟨[(']', ']'), ('!', '-'), ('[', '^'), ('\\', '\\')], [.alpha], true⟩ =
        "!\\]\\!-\\-\\[-\\^\\\\[:alpha:]".toList ∧
      (∀ range ∈ [(']', ']'), ('!', '-'), ('[', '^'), ('\\', '\\')], range.1 ≤ range.2) ∧
      read true 3 ("!\\]\\!-\\-\\[-\\^\\\\[:alpha:]".toList ++ ']' :: "-x]".toList) =
        .ok (⟨[(']', ']'), ('!', '-'), ('[', '^'), ('\\', '\\')], [.alpha], true⟩, 25) := by
  have hinside : inside ⟨[(']', ']'), ('!', '-'), ('[', '^'), ('\\', '\\')], [.alpha], true⟩ =
      "!\\]\\!-\\-\\[-\\^\\\\[:alpha:]".toList := by decide
  have hordered : ∀ range ∈ [(']', ']'), ('!', '-'), ('[', '^'), ('\\', '\\')], range.1 ≤ range.2 := by
    decide
  refine ⟨hinside, hordered, ?_⟩
  rw [← hinside]
  exact read_inside hordered (.inl (by simp)) 3 "-x]".toList

end Bracket

/-! ## Quoted texts -/

def quoted (s : Text) : Text := s.flatMap fun c => ['\\', c]

theorem quoted_cons (c : Char) (s : Text) : quoted (c :: s) = ['\\', c] ++ quoted s := rfl

theorem quoted_ne_nil {s : Text} (hs : s ≠ []) : quoted s ≠ [] := by
  obtain ⟨c, s, rfl⟩ := List.exists_cons_of_ne_nil hs
  rw [quoted_cons]
  exact List.cons_ne_nil _ _

theorem unescaped_quoted (s : Text) : unescaped true (quoted s) = [] := by
  induction s with
  | nil => rfl
  | cons c s ih =>
    rw [quoted_cons, unescaped_append (whole_escape rfl), unescaped_escape rfl, ih]
    rfl

namespace Segment

theorem spelled_quoted {d : Dialect} (hd : d.escaping = true) (fresh : Bool) (s : Text) :
    Spelled d fresh (quoted s) (s.map fun c => .constant [c]) := by
  induction s generalizing fresh with
  | nil => exact .nil
  | cons c s ih => exact .cons (.escape hd) (ih _)

theorem merge_characters (c : Char) (s : Text) :
    merge ((c :: s).map fun c => .constant [c]) = [.constant (c :: s)] := by
  induction s generalizing c with
  | nil => rfl
  | cons x s ih =>
    rw [List.map_cons, merge_cons, ih]
    rfl

variable {caseSensitive : Bool} {s : Text}

theorem matchAll_constant_iff {path : Text} :
    matchAll true [.constant s] path = true ↔ path = s := by
  rw [matchAll_cons_iff]
  simp only [takes_constant_iff, matchAll_nil]
  constructor
  · intro h
    obtain ⟨piece, rest, rfl, rfl, rfl⟩ := h
    exact List.append_nil piece
  · intro h
    exact ⟨s, [], by rw [h, List.append_nil], rfl, rfl⟩

theorem mayExtend_constant_iff {dir : Text} :
    mayExtend true [.constant s] (dir ++ ['/']) = true ↔ ∃ rest, rest ≠ [] ∧ s = dir ++ '/' :: rest := by
  have hends : mayExtend true [.constant s] (dir ++ ['/']) = true ↔
      fitConstant true s (dir ++ ['/']) = .pathEnds := by
    obtain ⟨c, tail, hpath⟩ := List.exists_cons_of_ne_nil
      (List.append_ne_nil_of_right_ne_nil dir (List.cons_ne_nil '/' []))
    rw [hpath]
    simp only [mayExtend]
    cases fitConstant true s (c :: tail) with
    | consumed rest => cases rest <;> simp [mayExtend]
    | pathEnds | mismatch => simp
  rw [hends, fitConstant_eq_pathEnds]
  simp only [forall₂_sameChar_iff]
  constructor
  · intro h
    obtain ⟨_, rest, rfl, hrest, rfl⟩ := h
    exact ⟨rest, hrest, by simp⟩
  · intro h
    obtain ⟨rest, hrest, rfl⟩ := h
    exact ⟨dir ++ ['/'], rest, by simp, hrest, rfl⟩

end Segment

namespace Pattern

theorem compile_quoted {d : Dialect} (hd : d.escaping = true) {s : Text} (hs : s ≠ []) :
    compile d (quoted s) = .ok [{ source := quoted s, segments := [.constant s], dialect := d }] := by
  obtain ⟨c, s, rfl⟩ := List.exists_cons_of_ne_nil hs
  have hread : read d (quoted (c :: s)) =
      .ok { source := quoted (c :: s), segments := [.constant (c :: s)], dialect := d } := by
    rw [read_iff_spelled]
    exact ⟨quoted_ne_nil hs, _, Segment.spelled_quoted hd true (c :: s), by
      rw [Segment.merge_characters]⟩
  have hgroup : Brace.firstGroup d.escaping (quoted (c :: s)) = .ok none := by
    rw [Brace.firstGroup_eq_none_iff, hd, unescaped_quoted]
    rfl
  rw [compile_eq_ok_iff (by simpa using hread)]
  exact Brace.expand_of_firstGroup hgroup

/-- **A quoted text means itself.** It compiles to a single pattern, which is the text as one constant.
Where case counts, that pattern matches the text and nothing else, and a search for it goes below just
the directories that the text leads through. -/
theorem quoted_means_itself {d : Dialect} (hd : d.escaping = true) {s : Text} (hs : s ≠ []) :
    ∃ p, compile d (quoted s) = .ok [p] ∧ p.segments = [.constant s] ∧
      (d.caseSensitive = true → (∀ path, p.accepts path = true ↔ path = s) ∧
        ∀ dir, (p.verdict dir).prune = false ↔ ∃ rest, rest ≠ [] ∧ s = dir ++ '/' :: rest) := by
  refine ⟨_, compile_quoted hd hs, rfl, fun hcase => ⟨fun path => ?_, fun dir => ?_⟩⟩
  · simp only [accepts, hcase]
    exact Segment.matchAll_constant_iff
  · simp only [verdict, hcase, Bool.not_eq_false']
    exact Segment.mayExtend_constant_iff

/-- A name that looks like a group, a bracket expression and wildcards that the dialect does not have. -/
theorem quoted_means_itself_of_wildcards :
    ({ pathWildcards := false } : Dialect).escaping = true ∧ "\x7ba,[*]\x7d/**".toList ≠ [] ∧
      ∃ p, compile { pathWildcards := false } (quoted "\x7ba,[*]\x7d/**".toList) = .ok [p] ∧
        p.accepts "\x7ba,[*]\x7d/**".toList = true ∧ p.accepts "a/b".toList = false ∧
        (p.verdict "\x7ba,[*]\x7d".toList).prune = false ∧ (p.verdict "a".toList).prune = true := by
  have hne : "\x7ba,[*]\x7d/**".toList ≠ [] := by decide
  obtain ⟨p, hp, -, hcase⟩ := quoted_means_itself (d := { pathWildcards := false }) rfl hne
  obtain ⟨haccepts, hprune⟩ := hcase rfl
  refine ⟨rfl, hne, p, hp, (haccepts _).mpr rfl, ?_, (hprune _).mpr ⟨"**".toList, by decide, rfl⟩, ?_⟩
  · rw [← Bool.not_eq_true, haccepts]
    decide
  · rw [← Bool.not_eq_false, hprune]
    simp

end Pattern

end TreeGlob
