import TreeGlob.Proofs.Pattern.Alternation
import TreeGlob.Proofs.Pattern.Leftovers

/-!
What a text with brace groups stands for, told without the rounds of replacement: the text is read as
a tree of literal texts and groups, and stands for all choices of one alternative for each group.

* `Reading` and `Alternatives` are such trees, `written` their texts and `choices` what they stand for.
* `closes` counts braces; `exists_reading` says that a text whose braces are balanced can be read.
* `Reading.run_written` says that the search for groups passes over what stands in a group, so that
  `firstGroup_written` finds the first group from its brace to its brace. `splitFrom_written` says that
  it is split into its alternatives.
* `expandRounds_written` puts one round after the other: a replacement is again the text of a reading,
  with the alternative in the place of the group.
* `expand_eq_choices` is the main result. It is about texts without bracket expressions, in which a
  brace is a brace wherever it stands.
-/
namespace TreeGlob

namespace Brace

/-! ## Readings -/

mutual

/-- A text read from left to right, as literal texts and groups. -/
inductive Reading where
  | done
  | literal (t : Text) (rest : Reading)
  | group (alternatives : Alternatives) (rest : Reading)

/-- The alternatives of a group, from left to right. There is at least one. -/
inductive Alternatives where
  | last (a : Reading)
  | next (a : Reading) (others : Alternatives)

end

mutual

def Reading.written : Reading → Text
  | .done => []
  | .literal t rest => t ++ rest.written
  | .group as rest => '{' :: as.written ++ '}' :: rest.written

/-- What stands between the braces of a group. -/
def Alternatives.written : Alternatives → Text
  | .last a => a.written
  | .next a others => a.written ++ ',' :: others.written

end

mutual

/-- The texts that arise from choosing one alternative of each group, the leftmost group varying
slowest. Literal texts stay as they are written. -/
def Reading.choices : Reading → List Text
  | .done => [[]]
  | .literal t rest => rest.choices.map (t ++ ·)
  | .group as rest => as.choices.flatMap fun chosen => rest.choices.map (chosen ++ ·)

def Alternatives.choices : Alternatives → List Text
  | .last a => a.choices
  | .next a others => a.choices ++ others.choices

end

/-- A text without unescaped braces. In a group, a comma would end the alternative. -/
def Literal (escaping inner : Bool) (t : Text) : Prop :=
  ∀ c ∈ unescaped escaping t, c ≠ '{' ∧ c ≠ '}' ∧ (inner = true → c ≠ ',')

instance (escaping inner : Bool) (t : Text) : Decidable (Literal escaping inner t) :=
  List.decidableBAll _ _

mutual

/-- Every text that the reading takes for literal is literal where it stands. It does not escape what
comes behind it, so only the end of the whole text may be an unfinished escape. -/
def Reading.Proper (escaping inner : Bool) : Reading → Prop
  | .done => True
  | .literal t rest => Literal escaping inner t ∧
      (Whole escaping t ∨ inner = false ∧ rest = .done) ∧ rest.Proper escaping inner
  | .group as rest => as.Proper escaping ∧ rest.Proper escaping inner

def Alternatives.Proper (escaping : Bool) : Alternatives → Prop
  | .last a => a.Proper escaping true
  | .next a others => a.Proper escaping true ∧ others.Proper escaping

end

variable {escaping inner : Bool}

def Reading.append : Reading → Reading → Reading
  | .done, w => w
  | .literal t rest, w => .literal t (rest.append w)
  | .group as rest, w => .group as (rest.append w)

theorem Reading.written_append : ∀ v w : Reading, (v.append w).written = v.written ++ w.written
  | .done, _ => rfl
  | .literal t rest, w => by
    rw [append, written, written, written_append rest w, List.append_assoc]
  | .group as rest, w => by
    rw [append, written, written, written_append rest w]
    simp

theorem Reading.choices_append : ∀ v w : Reading,
    (v.append w).choices = v.choices.flatMap fun x => w.choices.map (x ++ ·)
  | .done, w => by simp [append, choices]
  | .literal t rest, w => by
    rw [append, choices, choices, choices_append rest w]
    simp [List.map_flatMap, List.flatMap_map, Function.comp_def]
  | .group as rest, w => by
    rw [append, choices, choices, choices_append rest w]
    simp [List.map_flatMap, List.flatMap_map, List.flatMap_assoc, Function.comp_def]

theorem Reading.Proper.append : ∀ {v w : Reading}, v.Proper escaping true →
    w.Proper escaping false → (v.append w).Proper escaping false
  | .done, _, _, hw => hw
  | .literal t rest, w, hv, hw => by
    obtain ⟨hliteral, hwhole, hrest⟩ := hv
    have hwhole : Whole escaping t := by simpa using hwhole
    refine ⟨fun c hc => ?_, .inl hwhole, hrest.append hw⟩
    obtain ⟨hopen, hclose, -⟩ := hliteral c hc
    exact ⟨hopen, hclose, fun h => nomatch h⟩
  | .group as rest, w, hv, hw => ⟨hv.1, hv.2.append hw⟩

def Alternatives.toList : Alternatives → List Reading
  | .last a => [a]
  | .next a others => a :: others.toList

theorem Alternatives.choices_eq_flatMap : ∀ as : Alternatives,
    as.choices = as.toList.flatMap Reading.choices
  | .last a => by simp [choices, toList]
  | .next a others => by
    rw [choices, choices_eq_flatMap others, toList, List.flatMap_cons]

theorem Alternatives.Proper.of_mem : ∀ {as : Alternatives}, as.Proper escaping →
    ∀ a ∈ as.toList, a.Proper escaping true
  | .last a, h, b, hb => by
    rw [toList, List.mem_singleton] at hb
    exact hb ▸ h
  | .next a others, h, b, hb => by
    rw [toList, List.mem_cons] at hb
    obtain rfl | hb := hb
    · exact h.1
    · exact Proper.of_mem h.2 b hb

theorem Alternatives.mem_written : ∀ {as : Alternatives} {a : Reading} {c : Char},
    a ∈ as.toList → c ∈ a.written → c ∈ as.written
  | .last a, b, c, hb, hc => by
    rw [toList, List.mem_singleton] at hb
    rw [written, ← hb]
    exact hc
  | .next a others, b, c, hb, hc => by
    rw [toList, List.mem_cons] at hb
    rw [written, List.mem_append]
    obtain rfl | hb := hb
    · exact .inl hc
    · exact .inr (List.mem_cons_of_mem _ (mem_written hb hc))

/-! ## Balanced braces -/

theorem unescaped_cons {c : Char} {t : Text} (h : (escaping && c = '\\') = false) :
    unescaped escaping (c :: t) = c :: unescaped escaping t := by
  simp [unescaped, unescapedFrom, h]

theorem unescaped_cons_escape {c e : Char} {t : Text} (h : (escaping && c = '\\') = true) :
    unescaped escaping (c :: e :: t) = unescaped escaping t := by
  simp [unescaped, unescapedFrom, h]

/-- Whether the closing braces among such characters are partners of the opening ones and of `depth`
earlier ones, and no opening brace lacks a partner. -/
def closes : (depth : Nat) → Text → Bool
  | depth, [] => depth = 0
  | depth, c :: rest =>
    if c = '{' then closes (depth + 1) rest
    else if c = '}' then 0 < depth && closes (depth - 1) rest
    else closes depth rest

theorem closes_iff {depth : Nat} {t : Text} : closes depth t = true ↔
    (∀ u, u <+: t → u.count '}' ≤ depth + u.count '{') ∧
      t.count '}' = depth + t.count '{' := by
  induction t generalizing depth with
  | nil => simp [closes, eq_comm]
  | cons c t ih =>
    have hstep : (∀ u, u <+: c :: t → u.count '}' ≤ depth + u.count '{') ↔
        ∀ u, u <+: t → (c :: u).count '}' ≤ depth + (c :: u).count '{' := by
      constructor
      · intro h u hu
        exact h (c :: u) (List.cons_prefix_cons.mpr ⟨rfl, hu⟩)
      · intro h u hu
        cases u with
        | nil => simp
        | cons x u =>
          obtain ⟨rfl, hx⟩ := List.cons_prefix_cons.mp hu
          exact h u hx
    rw [hstep, closes]
    simp only [List.count_cons]
    by_cases hopen : c = '{'
    · subst hopen
      simp [ih, Nat.add_assoc, Nat.add_comm 1]
    by_cases hclose : c = '}'
    · subst hclose
      simp only [if_neg hopen, if_true, Bool.and_eq_true, decide_eq_true_eq, ih]
      constructor
      · intro h
        obtain ⟨hpos, hbelow, htotal⟩ := h
        refine ⟨fun u hu => ?_, ?_⟩
        · have hle := hbelow u hu
          simp
          omega
        · simp
          omega
      · intro h
        obtain ⟨hbelow, htotal⟩ := h
        have hpos := hbelow [] List.nil_prefix
        simp at hpos htotal
        refine ⟨by omega, fun u hu => ?_, by omega⟩
        have hle := hbelow u hu
        simp at hle
        omega
    · simp [hopen, hclose, ih]

/-- The unescaped braces of a text are balanced: each closing brace has an opening one before it, and
there are as many of the one as of the other. -/
structure Balanced (escaping : Bool) (t : Text) : Prop where
  never_below : ∀ u, u <+: unescaped escaping t → u.count '}' ≤ u.count '{'
  total : (unescaped escaping t).count '}' = (unescaped escaping t).count '{'

theorem balanced_iff {t : Text} : Balanced escaping t ↔ closes 0 (unescaped escaping t) = true := by
  simp only [closes_iff, Nat.zero_add]
  exact ⟨fun h => ⟨h.never_below, h.total⟩, fun h => ⟨h.1, h.2⟩⟩

instance (escaping : Bool) (t : Text) : Decidable (Balanced escaping t) :=
  decidable_of_iff' _ balanced_iff

/-- A search that gets through a text without bracket expressions, and ends outside of all groups, has
seen a partner for every brace. -/
theorem closes_of_run {s s' : Scan} {pos : Nat} {escaped : Bool} {t : Text} (ht : '[' ∉ t)
    (hs : s.inBracket = false) (hr : s.run escaping pos escaped t = .ok s') (hend : s'.depth = 0) :
    closes s.depth (unescapedFrom escaping escaped t) = true := by
  induction t generalizing s pos escaped with
  | nil => cases escaped <;> cases hr <;> simp [unescapedFrom, closes, hend]
  | cons c t ih =>
    obtain ⟨hc, ht⟩ := not_or.mp (mt List.mem_cons.mpr ht)
    cases escaped with
    | true => exact ih ht hs hr
    | false =>
      rw [Scan.run] at hr
      rw [unescapedFrom]
      split at hr
      · next he =>
        rw [if_pos he]
        exact ih ht hs hr
      next he =>
      rw [if_neg he, closes]
      obtain ⟨next, hstep, hr⟩ := bind_eq_ok_iff.mp hr
      unfold Scan.step at hstep
      rw [if_neg (by simp [hs]), if_neg (Ne.symm hc)] at hstep
      split at hstep
      · next hopen =>
        cases hstep
        rw [if_pos hopen]
        have hrest := ih ht (by exact hs) hr
        exact hrest
      next hopen =>
      rw [if_neg hopen]
      split at hstep
      · next hclose =>
        split at hstep
        · cases hstep
        next hdepth =>
        cases hstep
        rw [if_pos hclose, Bool.and_eq_true, decide_eq_true_eq]
        have hrest := ih ht (by exact hs) hr
        exact ⟨Nat.pos_of_ne_zero hdepth, hrest⟩
      · next hclose =>
        cases hstep
        rw [if_neg hclose]
        exact ih ht hs hr

theorem balanced_of_firstGroup {t : Text} {found : Option (Nat × Nat)} (ht : '[' ∉ t)
    (h : firstGroup escaping t = .ok found) : Balanced escaping t := by
  obtain ⟨s, hs, h⟩ := bind_eq_ok_iff.mp h
  split at h
  · cases h
  · next hdepth => exact balanced_iff.mpr (closes_of_run ht rfl hs (by omega))

/-! ## Balanced texts can be read -/

/-- A text that continues one in which `depth` groups are open can be read: it goes on with the
alternatives of each open group, from the innermost one outwards. -/
def Readable (escaping : Bool) : (depth : Nat) → Text → Prop
  | 0, t => ∃ w : Reading, w.Proper escaping false ∧ w.written = t
  | depth + 1, t => ∃ (as : Alternatives) (rest : Text), as.Proper escaping ∧
      t = as.written ++ '}' :: rest ∧ Readable escaping depth rest

theorem Alternatives.exists_front {front : Text} {f : Reading → Reading}
    (hproper : ∀ w : Reading, w.Proper escaping true → (f w).Proper escaping true)
    (hwritten : ∀ w : Reading, (f w).written = front ++ w.written) :
    ∀ as : Alternatives, as.Proper escaping →
      ∃ as' : Alternatives, as'.Proper escaping ∧ as'.written = front ++ as.written
  | .last a, h => ⟨.last (f a), hproper a h, hwritten a⟩
  | .next a others, h => by
    refine ⟨.next (f a) others, ⟨hproper a h.1, h.2⟩, ?_⟩
    rw [written, written, hwritten, List.append_assoc]

theorem Readable.front {depth : Nat} {front t : Text} (f : Reading → Reading)
    (hproper : ∀ inner, inner = decide (0 < depth) → ∀ w : Reading, w.Proper escaping inner →
      (f w).Proper escaping inner)
    (hwritten : ∀ w : Reading, (f w).written = front ++ w.written)
    (h : Readable escaping depth t) : Readable escaping depth (front ++ t) := by
  cases depth with
  | zero =>
    obtain ⟨w, hw, rfl⟩ := h
    exact ⟨f w, hproper false rfl w hw, hwritten w⟩
  | succ depth =>
    obtain ⟨as, rest, has, rfl, hrest⟩ := h
    obtain ⟨as', has', hfront⟩ := as.exists_front (hproper true (by simp)) hwritten has
    exact ⟨as', rest, has', by rw [hfront, List.append_assoc], hrest⟩

theorem Readable.literal {depth : Nat} {front t : Text} (hwhole : Whole escaping front)
    (hliteral : Literal escaping (decide (0 < depth)) front) (h : Readable escaping depth t) :
    Readable escaping depth (front ++ t) :=
  h.front (.literal front) (fun _ hinner _ hw => ⟨hinner ▸ hliteral, .inl hwhole, hw⟩)
    fun _ => rfl

theorem Readable.close {depth : Nat} {t : Text} (h : Readable escaping depth t) :
    Readable escaping (depth + 1) ('}' :: t) :=
  ⟨.last .done, t, trivial, rfl, h⟩

theorem Readable.comma {depth : Nat} {t : Text} (h : Readable escaping (depth + 1) t) :
    Readable escaping (depth + 1) (',' :: t) := by
  obtain ⟨as, rest, has, rfl, hrest⟩ := h
  exact ⟨.next .done as, rest, ⟨trivial, has⟩, rfl, hrest⟩

theorem Readable.open {depth : Nat} {t : Text} (h : Readable escaping (depth + 1) t) :
    Readable escaping depth ('{' :: t) := by
  obtain ⟨as, rest, has, rfl, hrest⟩ := h
  have hgroup := @Readable.front escaping depth ('{' :: as.written ++ ['}']) rest (.group as)
    (fun _ _ _ hw => ⟨has, hw⟩) (fun w => by simp [Reading.written]) hrest
  simpa using hgroup

theorem readable_of_closes {depth : Nat} {t : Text}
    (h : closes depth (unescaped escaping t) = true) : Readable escaping depth t := by
  -- An escape is two characters, so the induction is on how much is left.
  induction hn : t.length using Nat.strong_induction_on generalizing depth t
  next n ih =>
  cases t with
  | nil =>
    obtain rfl : depth = 0 := by simpa [unescaped, unescapedFrom, closes] using h
    exact ⟨.done, trivial, rfl⟩
  | cons c t =>
    rw [List.length_cons] at hn
    by_cases hc : (escaping && c = '\\') = true
    · cases t with
      | nil =>
        have hnone : unescaped escaping [c] = [] := by simp [unescaped, unescapedFrom, hc]
        rw [hnone] at h
        obtain rfl : depth = 0 := by simpa [closes] using h
        refine ⟨.literal [c] .done, ⟨?_, .inr ⟨rfl, rfl⟩, trivial⟩, rfl⟩
        intro x hx
        rw [hnone] at hx
        cases hx
      | cons e t =>
        rw [unescaped_cons_escape hc] at h
        rw [List.length_cons] at hn
        have hrest := ih t.length (by omega) h rfl
        refine hrest.literal (whole_escape (e := e) hc) ?_
        intro x hx
        rw [unescaped_escape hc] at hx
        cases hx
    · rw [Bool.not_eq_true] at hc
      rw [unescaped_cons hc, closes] at h
      have hless : t.length < n := by omega
      split at h
      · next hopen =>
        rw [hopen]
        exact (ih t.length hless h rfl).open
      next hopen =>
      split at h
      · next hclose =>
        obtain ⟨hdepth, h⟩ := Bool.and_eq_true_iff.mp h
        obtain ⟨depth, rfl⟩ := Nat.exists_eq_add_of_le' (of_decide_eq_true hdepth)
        rw [hclose]
        exact (ih t.length hless h rfl).close
      next hclose =>
      have hrest := ih t.length hless h rfl
      by_cases hcomma : c = ',' ∧ 0 < depth
      · obtain ⟨rfl, hdepth⟩ := hcomma
        obtain ⟨depth, rfl⟩ := Nat.exists_eq_add_of_le' hdepth
        exact hrest.comma
      · refine hrest.literal (whole_singleton hc) ?_
        intro x hx
        rw [unescaped_singleton hc, List.mem_singleton] at hx
        subst hx
        refine ⟨hopen, hclose, fun hdepth hx => hcomma ⟨hx, of_decide_eq_true hdepth⟩⟩

theorem exists_reading {t : Text} (h : Balanced escaping t) :
    ∃ w : Reading, w.Proper escaping false ∧ w.written = t :=
  readable_of_closes (balanced_iff.mp h)

/-! ## The search passes over groups -/

namespace Scan

variable {s s' : Scan} {pos : Nat} {c : Char} {t : Text}

theorem run_cons (hc : (escaping && c = '\\') = false) (hs : s.step pos c = .ok s') (t : Text) :
    s.run escaping pos false (c :: t) = s'.run escaping (pos + 1) false t := by
  rw [run, hc, if_neg (by simp), hs]
  rfl

theorem run_whole (ht : Whole escaping t) (hs : s.run escaping pos false t = .ok s') (u : Text) :
    s.run escaping pos false (t ++ u) = s'.run escaping (pos + t.length) false u := by
  rw [run_append, hs, ht]
  rfl

/-- A group is open, or the first one was found: from then on the search only counts braces. -/
structure Settled (s : Scan) : Prop where
  outside : s.inBracket = false
  marked : 0 < s.depth ∨ s.group ≠ none

theorem run_literal (ht : Literal escaping inner t) (hno : '[' ∉ t) (hs : s.inBracket = false) :
    s.run escaping pos false t = .ok s := by
  have hsees : sheltered s.inBracket (unescapedFrom escaping false t) = true := by
    apply sheltered_of_forall
    intro c hc
    obtain ⟨hopen, hclose, -⟩ := ht c hc
    exact ⟨hopen, hclose⟩
  have hout : bracketed s.inBracket (unescapedFrom escaping false t) = s.inBracket := by
    rw [hs]
    apply bracketed_of_forall
    intro c hc h
    exact hno (h ▸ mem_of_mem_unescapedFrom hc)
  rw [run_of_sheltered hsees, hout]

theorem Settled.opens (hs : s.Settled) : s.step pos '{' = .ok { s with depth := s.depth + 1 } := by
  have hopened : (if s.depth = 0 ∧ s.group = none then some pos else s.opened) = s.opened := by
    rw [if_neg]
    intro h
    cases hs.marked with
    | inl hdepth => exact hdepth.ne' h.1
    | inr hgroup => exact hgroup h.2
  simp [step, hs.outside, hopened]

theorem Settled.closes (hs : s.Settled) : step { s with depth := s.depth + 1 } pos '}' = .ok s := by
  have hgroup : (if s.depth = 0 ∧ s.group = none then s.opened.map (·, pos) else s.group) =
      s.group := by
    rw [if_neg]
    intro h
    cases hs.marked with
    | inl hdepth => exact hdepth.ne' h.1
    | inr hgroup => exact hgroup h.2
  have houtside := hs.outside
  obtain ⟨depth, inBracket, opened, group⟩ := s
  simp_all [step]

theorem Settled.deeper (hs : s.Settled) : Settled { s with depth := s.depth + 1 } where
  outside := hs.outside
  marked := .inl (Nat.succ_pos _)

end Scan

/-- A text that splitting a group keeps together, where `depth` inner groups are open: no comma of it
is one between alternatives, and as many groups are open behind it. -/
structure Kept (escaping : Bool) (depth : Nat) (t : Text) : Prop where
  whole : Whole escaping t
  uncut_eq : uncut depth (unescaped escaping t) = true
  openAfter_eq : openAfter depth (unescaped escaping t) = depth

theorem uncut_append (depth : Nat) (u v : Text) :
    uncut depth (u ++ v) = (uncut depth u && uncut (openAfter depth u) v) := by
  induction u generalizing depth with
  | nil => rfl
  | cons c u ih => simp [uncut, openAfter, ih, Bool.and_assoc]

section Kept

variable {depth : Nat} {t u : Text}

theorem kept_nil : Kept escaping depth [] := ⟨whole_nil, rfl, rfl⟩

theorem kept_comma : Kept escaping (depth + 1) [','] := by
  refine ⟨whole_of_not_mem (by decide), ?_, ?_⟩
  · rw [unescaped_singleton (by simp)]
    simp [uncut]
  · rw [unescaped_singleton (by simp)]
    simp [openAfter, nest]

theorem Kept.append (ht : Kept escaping depth t) (hu : Kept escaping depth u) :
    Kept escaping depth (t ++ u) where
  whole := ht.whole.append hu.whole
  uncut_eq := by
    rw [unescaped_append ht.whole, uncut_append, ht.uncut_eq, ht.openAfter_eq, hu.uncut_eq]
    rfl
  openAfter_eq := by
    rw [unescaped_append ht.whole, openAfter, List.foldl_append]
    show openAfter (openAfter depth (unescaped escaping t)) (unescaped escaping u) = depth
    rw [ht.openAfter_eq, hu.openAfter_eq]

theorem Kept.braces (ht : Kept escaping (depth + 1) t) :
    Kept escaping depth ('{' :: t ++ ['}']) := by
  have hwhole : Whole escaping ('{' :: t) := (whole_singleton (by simp)).append ht.whole
  have hsees : unescaped escaping ('{' :: t ++ ['}']) = '{' :: unescaped escaping t ++ ['}'] := by
    rw [unescaped_append hwhole, unescaped_cons (by simp), unescaped_singleton (by simp)]
  refine ⟨hwhole.append (whole_of_not_mem (by decide)), ?_, ?_⟩
  · rw [hsees, List.cons_append, uncut, nest, if_pos rfl, uncut_append, ht.uncut_eq]
    simp [uncut]
  · rw [hsees, openAfter, List.cons_append, List.foldl_cons, nest, if_pos rfl, List.foldl_append]
    show nest (openAfter (depth + 1) (unescaped escaping t)) '}' = depth
    rw [ht.openAfter_eq]
    simp [nest]

theorem Kept.of_literal (hwhole : Whole escaping t) (ht : Literal escaping true t) :
    Kept escaping depth t := by
  have hplain : ∀ u : Text, (∀ c ∈ u, c ≠ '{' ∧ c ≠ '}' ∧ c ≠ ',') →
      uncut depth u = true ∧ openAfter depth u = depth := by
    intro u hu
    induction u with
    | nil => exact ⟨rfl, rfl⟩
    | cons c u ih =>
      obtain ⟨⟨hopen, hclose, hcomma⟩, hu⟩ := List.forall_mem_cons.mp hu
      have hnest : nest depth c = depth := by simp [nest, hopen, hclose]
      obtain ⟨huncut, hopen⟩ := ih hu
      rw [uncut, openAfter, List.foldl_cons, hnest, huncut]
      exact ⟨by simp [hcomma], hopen⟩
  obtain ⟨huncut, hopen⟩ := hplain (unescaped escaping t) fun c hc =>
    ⟨(ht c hc).1, (ht c hc).2.1, (ht c hc).2.2 rfl⟩
  exact ⟨hwhole, huncut, hopen⟩

end Kept

mutual

/-- What stands in a group is kept together, apart from the commas between its alternatives. -/
theorem Reading.kept_written : ∀ {w : Reading}, w.Proper escaping true →
    ∀ depth, Kept escaping depth w.written
  | .done, _, _ => kept_nil
  | .literal t rest, h, depth => by
    have hwhole : Whole escaping t := by simpa using h.2.1
    exact (Kept.of_literal hwhole h.1).append (Reading.kept_written h.2.2 depth)
  | .group as rest, h, depth => by
    rw [Reading.written, List.append_cons]
    exact (Alternatives.kept_written h.1 depth).braces.append (Reading.kept_written h.2 depth)

theorem Alternatives.kept_written : ∀ {as : Alternatives}, as.Proper escaping →
    ∀ depth, Kept escaping (depth + 1) as.written
  | .last a, h, depth => Reading.kept_written (w := a) h (depth + 1)
  | .next a others, h, depth => by
    rw [Alternatives.written, List.append_cons]
    apply Kept.append _ (Alternatives.kept_written h.2 depth)
    exact (Reading.kept_written h.1 (depth + 1)).append kept_comma

end

mutual

/-- Once a group is open or was found, the search passes over the text of a reading. -/
theorem Reading.run_written : ∀ {w : Reading} {inner : Bool}, w.Proper escaping inner →
    '[' ∉ w.written → ∀ {s : Scan} {pos : Nat}, s.Settled →
      s.run escaping pos false w.written = .ok s
  | .done, _, _, _, _, _, _ => rfl
  | .literal t rest, _, h, hno, s, pos, hs => by
    rw [Reading.written] at hno ⊢
    obtain ⟨ht, hrest⟩ := not_or.mp (mt List.mem_append.mpr hno)
    have hliteral := @Scan.run_literal escaping _ s pos t h.1 ht hs.outside
    cases h.2.1 with
    | inl hwhole =>
      rw [Scan.run_whole hwhole hliteral]
      exact Reading.run_written h.2.2 hrest hs
    | inr hlast =>
      rw [hlast.2, Reading.written, List.append_nil]
      exact hliteral
  | .group as rest, _, h, hno, s, pos, hs => by
    rw [Reading.written, List.cons_append] at hno ⊢
    simp only [List.mem_cons, List.mem_append, not_or] at hno
    have hinside : Scan.run escaping { s with depth := s.depth + 1 } (pos + 1) false as.written =
        .ok { s with depth := s.depth + 1 } := Alternatives.run_written h.1 hno.2.1 hs.deeper
    rw [Scan.run_cons (by simp) hs.opens,
      Scan.run_whole (Alternatives.kept_written h.1 0).whole hinside,
      Scan.run_cons (by simp) hs.closes]
    exact Reading.run_written h.2 hno.2.2.2 hs

theorem Alternatives.run_written : ∀ {as : Alternatives}, as.Proper escaping →
    '[' ∉ as.written → ∀ {s : Scan} {pos : Nat}, s.Settled →
      s.run escaping pos false as.written = .ok s
  | .last a, h, hno, _, _, hs => Reading.run_written (w := a) h hno hs
  | .next a others, h, hno, s, pos, hs => by
    rw [Alternatives.written] at hno ⊢
    simp only [List.mem_cons, List.mem_append, not_or] at hno
    have hfirst : s.run escaping pos false a.written = .ok s := Reading.run_written h.1 hno.1 hs
    have hcomma : ∀ p, s.step p ',' = .ok s := fun p => by simp [Scan.step, hs.outside]
    rw [Scan.run_whole (Reading.kept_written h.1 0).whole hfirst, Scan.run_cons (by simp) (hcomma _)]
    exact Alternatives.run_written h.2 hno.2.2 hs

end

/-! ## The first group and its alternatives -/

/-- The first group of a reading goes from its opening brace to its closing brace. -/
theorem firstGroup_written {t : Text} {as : Alternatives} {rest : Reading}
    (ht : Literal escaping false t) (hwhole : Whole escaping t) (has : as.Proper escaping)
    (hrest : rest.Proper escaping false)
    (hno : '[' ∉ (Reading.literal t (.group as rest)).written) :
    firstGroup escaping (Reading.literal t (.group as rest)).written =
      .ok (some (t.length, t.length + 1 + as.written.length)) := by
  rw [Reading.written, Reading.written, List.cons_append] at hno ⊢
  simp only [List.mem_cons, List.mem_append, not_or] at hno
  obtain ⟨hnot, -, hnoas, -, hnorest⟩ := hno
  have hopen : Scan.start.step t.length '{' = .ok ⟨1, false, some t.length, none⟩ := rfl
  have hinside : (Scan.mk 1 false (some t.length) none).run escaping (t.length + 1) false as.written =
      .ok ⟨1, false, some t.length, none⟩ :=
    Alternatives.run_written has hnoas ⟨rfl, .inl Nat.one_pos⟩
  have hclose : (Scan.mk 1 false (some t.length) none).step (t.length + 1 + as.written.length) '}' =
      .ok ⟨0, false, some t.length, some (t.length, t.length + 1 + as.written.length)⟩ := rfl
  have hbehind : (Scan.mk 0 false (some t.length)
      (some (t.length, t.length + 1 + as.written.length))).run escaping
        (t.length + 1 + as.written.length + 1) false rest.written =
      .ok ⟨0, false, some t.length, some (t.length, t.length + 1 + as.written.length)⟩ :=
    Reading.run_written hrest hnorest ⟨rfl, .inr (by simp)⟩
  have hrun : Scan.start.run escaping 0 false (t ++ '{' :: (as.written ++ '}' :: rest.written)) =
      .ok ⟨0, false, some t.length, some (t.length, t.length + 1 + as.written.length)⟩ := by
    rw [Scan.run_whole hwhole (Scan.run_literal ht hnot rfl), Nat.zero_add,
      Scan.run_cons (by simp) hopen,
      Scan.run_whole (Alternatives.kept_written has 0).whole hinside,
      Scan.run_cons (by simp) hclose, hbehind]
  unfold firstGroup
  rw [hrun]
  rfl

theorem Kept.splitFrom_append {t : Text} (h : Kept escaping 0 t) (rest : Text) :
    splitFrom escaping 0 false (t ++ rest) = t.foldr pushFront (splitFrom escaping 0 false rest) := by
  have hopen : openAfter 0 (unescapedFrom escaping false t) = 0 := h.openAfter_eq
  have hescapes : escapesNext escaping false t = false := h.whole
  rw [Brace.splitFrom_append rest h.uncut_eq, hopen, hescapes]

/-- The inside of a group is split into its alternatives. -/
theorem splitFrom_written : ∀ {as : Alternatives}, as.Proper escaping →
    splitFrom escaping 0 false as.written = as.toList.map Reading.written
  | .last a, h => by
    have hsplit := (Reading.kept_written (w := a) h 0).splitFrom_append []
    rw [List.append_nil] at hsplit
    rw [Alternatives.written, hsplit, splitFrom, foldr_pushFront, List.append_nil]
    rfl
  | .next a others, h => by
    rw [Alternatives.written, (Reading.kept_written h.1 0).splitFrom_append,
      splitFrom_cons (by simp), if_pos ⟨rfl, rfl⟩, foldr_pushFront, List.append_nil,
      splitFrom_written h.2]
    rfl

theorem replacements_written {t : Text} {as : Alternatives} {rest : Reading}
    (has : as.Proper escaping) :
    replacements escaping (Reading.literal t (.group as rest)).written t.length
        (t.length + 1 + as.written.length) =
      as.toList.map fun a => (Reading.literal t (a.append rest)).written := by
  have hsplit : (Reading.literal t (.group as rest)).written =
      t ++ '{' :: as.written ++ '}' :: rest.written := by simp [Reading.written]
  rw [hsplit, replacements_of_braces, alternatives, splitFrom_written has, List.map_map]
  apply List.map_congr_left
  intro a _
  simp [Reading.written, Reading.written_append]

/-- The choices of a text with a group are those of its replacements. -/
theorem choices_literal_group (t : Text) (as : Alternatives) (rest : Reading) :
    (Reading.literal t (.group as rest)).choices =
      (as.toList.map fun a => (Reading.literal t (a.append rest)).choices).flatten := by
  simp only [Reading.choices, Alternatives.choices_eq_flatMap, Reading.choices_append,
    List.map_flatMap, List.flatMap_assoc, List.flatten_eq_flatMap, List.flatMap_map, id_eq]

/-- A text that is read has no group, or is literal up to its first one. -/
theorem Reading.leading : ∀ {w : Reading}, w.Proper escaping false →
    (Literal escaping false w.written ∧ w.choices = [w.written]) ∨
      ∃ t as rest, Literal escaping false t ∧ Whole escaping t ∧ as.Proper escaping ∧
        rest.Proper escaping false ∧ w.written = (literal t (group as rest)).written ∧
        w.choices = (literal t (group as rest)).choices
  | .done, _ => .inl ⟨fun _ hc => absurd hc List.not_mem_nil, rfl⟩
  | .literal t rest, h => by
    obtain ⟨ht, hwhole | ⟨-, rfl⟩, hrest⟩ := h
    · -- Two literal texts are one, if the first does not escape the second.
      have hjoin : ∀ u, Literal escaping false u → Literal escaping false (t ++ u) := by
        intro u hu c hc
        rw [unescaped_append hwhole, List.mem_append] at hc
        exact hc.elim (ht c) (hu c)
      obtain ⟨hliteral, hchoices⟩ | ⟨u, as, more, hu, hwhole', has, hmore, hwritten, hchoices⟩ :=
        leading hrest
      · refine .inl ⟨hjoin _ hliteral, ?_⟩
        rw [choices, hchoices]
        rfl
      · refine .inr ⟨t ++ u, as, more, hjoin u hu, hwhole.append hwhole', has, hmore, ?_, ?_⟩
        · rw [written, hwritten]
          simp [written]
        · rw [choices, hchoices]
          simp [choices, Function.comp_def]
    · rw [written, written, List.append_nil]
      exact .inl ⟨ht, by simp [choices]⟩
  | .group as rest, h => by
    refine .inr ⟨[], as, rest, ?_, whole_nil, h.1, h.2, rfl, ?_⟩
    · intro c hc
      exact absurd hc List.not_mem_nil
    · simp [choices]

/-! ## Expansion -/

theorem expandRounds_literal {t : Text} (rounds : Nat) (h : Literal escaping inner t) :
    expandRounds escaping rounds t = .ok [t] := by
  apply expandRounds_of_sheltered
  exact sheltered_of_forall _ fun c hc => ⟨(h c hc).1, (h c hc).2.1⟩

/-- With a round for every opening brace, the text of a reading is expanded to its choices. -/
theorem expandRounds_written {rounds : Nat} {w : Reading} (hw : w.Proper escaping false)
    (hno : '[' ∉ w.written) (hrounds : w.written.count '{' ≤ rounds) :
    expandRounds escaping rounds w.written = .ok w.choices := by
  induction rounds generalizing w with
  | zero =>
    obtain ⟨hliteral, hchoices⟩ | ⟨t, as, rest, -, -, -, -, hwritten, -⟩ := Reading.leading hw
    · rw [hchoices]
      exact expandRounds_literal 0 hliteral
    · rw [hwritten, Reading.written, Reading.written] at hrounds
      simp at hrounds
  | succ rounds ih =>
    obtain ⟨hliteral, hchoices⟩ | ⟨t, as, rest, ht, hwhole, has, hrest, hwritten, hchoices⟩ :=
      Reading.leading hw
    · rw [hchoices]
      exact expandRounds_literal (rounds + 1) hliteral
    · rw [hwritten] at hno hrounds ⊢
      have hfound := firstGroup_written ht hwhole has hrest hno
      have hparts : List.Forall₂ (fun r e => expandRounds escaping rounds r = .ok e)
          (replacements escaping (Reading.literal t (.group as rest)).written t.length
            (t.length + 1 + as.written.length))
          (as.toList.map fun a => (Reading.literal t (a.append rest)).choices) := by
        rw [replacements_written has, List.forall₂_map_left_iff, List.forall₂_map_right_iff]
        apply List.forall₂_same.mpr
        intro a ha
        have hmem : (Reading.literal t (a.append rest)).written ∈
            replacements escaping (Reading.literal t (.group as rest)).written t.length
              (t.length + 1 + as.written.length) := by
          rw [replacements_written has]
          exact List.mem_map_of_mem ha
        have hless := (shrinks_of_mem_replacements hfound hmem).2
        have hproper : (Reading.literal t (a.append rest)).Proper escaping false :=
          ⟨ht, .inl hwhole, (has.of_mem a ha).append hrest⟩
        apply ih hproper
        · intro hc
          rw [Reading.written, Reading.written_append] at hc
          simp only [List.mem_append] at hc
          apply hno
          simp only [Reading.written, List.mem_append, List.mem_cons]
          obtain hc | hc | hc := hc
          · exact .inl hc
          · exact .inr (.inl (.inr (Alternatives.mem_written ha hc)))
          · exact .inr (.inr (.inr hc))
        · omega
      rw [expandRounds, hfound, hchoices, choices_literal_group]
      simp only [bind, Except.bind, mapM_eq_ok.mpr hparts]

/-- **Expanding a text is choosing an alternative for each of its groups.** In a text without bracket
expressions, expansion fails by a brace without a partner just if the unescaped braces are not
balanced. If they are, the text can be read as literal texts and groups, and its expansion is the list
of all choices, the leftmost group varying slowest. -/
theorem expand_eq_choices (escaping : Bool) {raw : Text} (hno : '[' ∉ raw) :
    ((∃ pos, expand escaping raw = .error (.unmatchedBrace pos)) ↔ ¬Balanced escaping raw) ∧
      (Balanced escaping raw → ∃ w : Reading, w.Proper escaping false ∧ w.written = raw) ∧
      ∀ w : Reading, w.Proper escaping false → w.written = raw →
        expand escaping raw = .ok w.choices := by
  have hchoices : ∀ w : Reading, w.Proper escaping false → w.written = raw →
      expand escaping raw = .ok w.choices := by
    intro w hw hwritten
    subst hwritten
    exact expandRounds_written hw hno (Nat.le_refl _)
  refine ⟨⟨?_, ?_⟩, exists_reading, hchoices⟩
  · intro hfails hbalanced
    obtain ⟨pos, hfails⟩ := hfails
    obtain ⟨w, hw, hwritten⟩ := exists_reading hbalanced
    rw [hchoices w hw hwritten] at hfails
    cases hfails
  · intro hbalanced
    cases hfound : firstGroup escaping raw with
    | ok found => exact (hbalanced (balanced_of_firstGroup hno hfound)).elim
    | error e =>
      obtain ⟨pos, rfl⟩ := firstGroup_error hfound
      refine ⟨pos, ?_⟩
      unfold expand expandRounds
      rw [hfound]
      rfl

/-- How `{a{1,\,},b},{x,}` is read. -/
def nestedGroups : Reading :=
  .group
    (.next (.literal ['a'] (.group
        (.next (.literal ['1'] .done) (.last (.literal ['\\', ','] .done))) .done))
      (.last (.literal ['b'] .done)))
    (.literal [','] (.group (.next (.literal ['x'] .done) (.last .done)) .done))

theorem nestedGroups_proper : nestedGroups.Proper true false := by
  simp only [nestedGroups, Reading.Proper, Alternatives.Proper]
  refine ⟨⟨⟨?_, .inl rfl, ⟨⟨?_, .inl rfl, trivial⟩, ?_, .inl rfl, trivial⟩, trivial⟩,
    ?_, .inl rfl, trivial⟩, ?_, .inl rfl, ⟨⟨?_, .inl rfl, trivial⟩, trivial⟩, trivial⟩
  all_goals decide

/-- The comma between the groups and the escaped one are literal, and the last alternative is empty.
The braces of `}{` are as many, but not balanced. -/
theorem expand_eq_choices_of_nested_groups :
    '[' ∉ nestedGroups.written ∧ Balanced true nestedGroups.written ∧
      nestedGroups.written = "\x7ba\x7b1,\\,\x7d,b\x7d,\x7bx,\x7d".toList ∧
      expand true nestedGroups.written = .ok
        ["a1,x".toList, "a1,".toList, "a\\,,x".toList, "a\\,,".toList, "b,x".toList, "b,".toList] ∧
      ∃ pos, expand true "\x7d\x7b".toList = .error (.unmatchedBrace pos) := by
  have hno : '[' ∉ nestedGroups.written := by decide
  exact ⟨hno, by decide, rfl, (expand_eq_choices true hno).2.2 nestedGroups nestedGroups_proper rfl,
    (expand_eq_choices true (by decide)).1.mpr (by decide)⟩

end Brace

end TreeGlob
