import TreeGlob.Proofs.Pattern.Groups

/-!
When `{a,b}` stands for `a` or `b`. The texts `a` and `b` are read as patterns on their own, and their
group is compiled; the two agree as long as the brace groups are delimited alike.

* `Brace.Quiet` texts are those that the search for groups passes over; `Brace.firstGroup_group` says
  that a group of such texts is found as a whole.
* Splitting a group counts braces and knows of no bracket expression. `Brace.Uncut` says that none of
  the commas of a text is taken for one between alternatives, `Brace.splitFrom_append` that the text is
  then kept together and `Brace.splitFrom_of_cut` that it is not otherwise.
* `Pattern.compile_group_iff` is the main result.
-/
namespace TreeGlob

namespace Brace

variable {escaping : Bool}

def group (ts : List Text) : Text := '{' :: [','].intercalate ts ++ ['}']

/-! ## Splitting at commas -/

/-- How many inner groups are open behind a character, as the splitting of a group counts them. -/
def nest (depth : Nat) (c : Char) : Nat :=
  if c = '{' then depth + 1 else if c = '}' then depth - 1 else depth

/-- How many inner groups are open behind such characters. -/
def openAfter (depth : Nat) (t : Text) : Nat := t.foldl nest depth

/-- Whether no comma among such characters is one between alternatives. -/
def uncut : (depth : Nat) → Text → Bool
  | _, [] => true
  | depth, c :: rest => decide (c = ',' → depth ≠ 0) && uncut (nest depth c) rest

/-- No comma of the text is taken for one between alternatives: before each of them, there are more
opening braces than closing ones. -/
def Uncut (escaping : Bool) (t : Text) : Prop :=
  ∀ u v, unescaped escaping t = u ++ ',' :: v → openAfter 0 u ≠ 0

theorem uncut_iff {depth : Nat} {t : Text} :
    uncut depth t = true ↔ ∀ u v, t = u ++ ',' :: v → openAfter depth u ≠ 0 := by
  induction t generalizing depth with
  | nil => simp [uncut]
  | cons c t ih =>
    have hstep : (∀ u v, c :: t = u ++ ',' :: v → openAfter depth u ≠ 0) ↔
        (c = ',' → depth ≠ 0) ∧
          ∀ u v, t = u ++ ',' :: v → openAfter (nest depth c) u ≠ 0 := by
      refine ⟨fun h => ⟨?_, fun u v ht => h (c :: u) v (by rw [ht]; rfl)⟩, ?_⟩
      · rintro rfl
        exact h [] t rfl
      · intro h u v ht
        cases u with
        | nil =>
          obtain ⟨hc, -⟩ := List.cons.inj ht
          exact h.1 hc
        | cons x u =>
          obtain ⟨rfl, hu⟩ := List.cons.inj ht
          exact h.2 u v hu
    rw [hstep, uncut, Bool.and_eq_true, decide_eq_true_iff, ih]

instance (escaping : Bool) (t : Text) : Decidable (Uncut escaping t) :=
  decidable_of_iff (uncut 0 (unescaped escaping t) = true) uncut_iff

theorem splitFrom_cons {depth : Nat} {c : Char} {rest : Text}
    (h : (escaping && c = '\\') = false) :
    splitFrom escaping depth false (c :: rest) =
      if c = ',' ∧ depth = 0 then [] :: splitFrom escaping 0 false rest
      else pushFront c (splitFrom escaping (nest depth c) false rest) := by
  rw [splitFrom, if_neg (by simp [h])]
  by_cases hopen : c = '{'
  · simp [hopen, nest]
  by_cases hclose : c = '}'
  · simp [hclose, nest]
  · simp [hopen, hclose, nest]

theorem foldr_pushFront (t x : Text) (xs : List Text) :
    t.foldr pushFront (x :: xs) = (t ++ x) :: xs := by
  induction t with
  | nil => rfl
  | cons c t ih => rw [List.foldr_cons, ih]; rfl

theorem splitFrom_append {depth : Nat} {escaped : Bool} {t : Text} (rest : Text)
    (h : uncut depth (unescapedFrom escaping escaped t) = true) :
    splitFrom escaping depth escaped (t ++ rest) =
      t.foldr pushFront (splitFrom escaping
        (openAfter depth (unescapedFrom escaping escaped t)) (escapesNext escaping escaped t) rest) := by
  induction t generalizing depth escaped with
  | nil => cases escaped <;> rfl
  | cons c t ih =>
    cases escaped with
    | true => exact congrArg (pushFront c) (ih h)
    | false =>
      rw [unescapedFrom] at h ⊢
      rw [List.cons_append, escapesNext, List.foldr_cons]
      cases hc : (escaping && c = '\\') with
      | true =>
        rw [hc, if_pos rfl] at h
        rw [splitFrom, if_pos hc, if_pos rfl, ih h]
      | false =>
        rw [hc, if_neg (by simp)] at h
        obtain ⟨hcomma, h⟩ := Bool.and_eq_true_iff.mp h
        have hcomma : ¬(c = ',' ∧ depth = 0) := fun hyp => of_decide_eq_true hcomma hyp.1 hyp.2
        rw [splitFrom_cons hc, if_neg hcomma, if_neg (by simp), ih h]
        rfl

theorem splitFrom_of_cut {depth : Nat} {escaped : Bool} {t : Text} (rest : Text)
    (h : uncut depth (unescapedFrom escaping escaped t) = false) :
    ∃ first others, splitFrom escaping depth escaped (t ++ rest) = first :: others ∧
      first.length < t.length := by
  induction t generalizing depth escaped with
  | nil => cases escaped <;> cases h
  | cons c t ih =>
    cases escaped with
    | true =>
      obtain ⟨first, others, hsplit, hlt⟩ := ih h
      refine ⟨c :: first, others, ?_, Nat.succ_lt_succ hlt⟩
      rw [List.cons_append, splitFrom, hsplit]
      rfl
    | false =>
      rw [unescapedFrom] at h
      rw [List.cons_append]
      cases hc : (escaping && c = '\\') with
      | true =>
        rw [hc, if_pos rfl] at h
        obtain ⟨first, others, hsplit, hlt⟩ := ih h
        refine ⟨c :: first, others, ?_, Nat.succ_lt_succ hlt⟩
        rw [splitFrom, if_pos hc, hsplit]
        rfl
      | false =>
        rw [hc, if_neg (by simp), uncut] at h
        rw [splitFrom_cons hc]
        split
        · exact ⟨[], _, rfl, Nat.succ_pos _⟩
        · next hcomma =>
          have hstep : decide (c = ',' → depth ≠ 0) = true :=
            decide_eq_true fun hc hdepth => hcomma ⟨hc, hdepth⟩
          rw [hstep, Bool.true_and] at h
          obtain ⟨first, others, hsplit, hlt⟩ := ih h
          exact ⟨c :: first, others, by rw [hsplit]; rfl, Nat.succ_lt_succ hlt⟩

theorem isPrefix_of_splitFrom {depth : Nat} {escaped : Bool} {t first : Text} {others : List Text}
    (h : splitFrom escaping depth escaped t = first :: others) : first <+: t := by
  induction t generalizing depth escaped first others with
  | nil =>
    cases escaped <;>
    · obtain ⟨rfl, -⟩ := List.cons.inj h
      exact List.nil_prefix
  | cons c t ih =>
    have hpush : ∀ depth escaped, pushFront c (splitFrom escaping depth escaped t) = first :: others →
        first <+: c :: t := by
      intro depth escaped hp
      obtain ⟨x, xs, hx⟩ := List.exists_cons_of_ne_nil (splitFrom_ne_nil escaping depth escaped t)
      rw [hx] at hp
      obtain ⟨rfl, -⟩ := List.cons.inj hp
      exact List.cons_prefix_cons.mpr ⟨rfl, ih hx⟩
    cases escaped with
    | true => exact hpush depth false h
    | false =>
      cases hc : (escaping && c = '\\') with
      | true =>
        rw [splitFrom, if_pos hc] at h
        exact hpush depth true h
      | false =>
        rw [splitFrom_cons hc] at h
        split at h
        · obtain ⟨rfl, -⟩ := List.cons.inj h
          exact List.nil_prefix
        · exact hpush _ false h

/-! ## A group of quiet texts -/

/-- The search for groups passes over the text: it sees no brace in it, is in no bracket expression
behind it, and takes what follows as it is written. -/
structure Quiet (escaping : Bool) (t : Text) : Prop where
  whole : Whole escaping t
  bracketed_eq : bracketed false (unescaped escaping t) = false
  sheltered_eq : sheltered false (unescaped escaping t) = true

theorem sheltered_of_isPrefix {within : Bool} {t u : Text} (h : t <+: u)
    (hu : sheltered within u = true) : sheltered within t = true := by
  obtain ⟨rest, rfl⟩ := h
  rw [sheltered_append, Bool.and_eq_true] at hu
  exact hu.1

theorem quiet_comma : Quiet escaping [','] where
  whole := whole_of_not_mem (by decide)
  bracketed_eq := by rw [unescaped_singleton (by simp)]; rfl
  sheltered_eq := by rw [unescaped_singleton (by simp)]; rfl

theorem Quiet.append {t u : Text} (ht : Quiet escaping t) (hu : Quiet escaping u) :
    Quiet escaping (t ++ u) where
  whole := ht.whole.append hu.whole
  bracketed_eq := by
    rw [unescaped_append ht.whole, bracketed_append, ht.bracketed_eq, hu.bracketed_eq]
  sheltered_eq := by
    rw [unescaped_append ht.whole, sheltered_append, ht.bracketed_eq, ht.sheltered_eq,
      hu.sheltered_eq]
    rfl

theorem quiet_intercalate {ts : List Text} (h : ∀ t ∈ ts, Quiet escaping t) :
    Quiet escaping ([','].intercalate ts) := by
  induction ts with
  | nil => exact ⟨whole_nil, rfl, rfl⟩
  | cons t ts ih =>
    obtain ⟨ht, hts⟩ := List.forall_mem_cons.mp h
    by_cases hne : ts = []
    · rwa [hne, List.intercalate_singleton]
    · rw [List.intercalate_cons_of_ne_nil hne]
      exact (ht.append quiet_comma).append (ih hts)

theorem firstGroup_group {ts : List Text} (h : ∀ t ∈ ts, Quiet escaping t) :
    firstGroup escaping (group ts) = .ok (some (0, ([','].intercalate ts).length + 1)) := by
  have hq := quiet_intercalate h
  have hopen : Scan.start.step 0 '{' = .ok ⟨1, false, some 0, none⟩ := rfl
  have hinside : (Scan.mk 1 false (some 0) none).run escaping 1 false ([','].intercalate ts) =
      .ok ⟨1, false, some 0, none⟩ := by
    rw [Scan.run_of_sheltered hq.sheltered_eq]
    exact congrArg (fun b => Except.ok (Scan.mk 1 b (some 0) none)) hq.bracketed_eq
  have hrun : Scan.start.run escaping 0 false (group ts) =
      .ok ⟨0, false, some 0, some (0, ([','].intercalate ts).length + 1)⟩ := by
    rw [group, List.cons_append, Scan.run, if_neg (by simp), hopen]
    change (Scan.mk 1 false (some 0) none).run escaping 1 false _ = _
    rw [Scan.run_append, hinside, hq.whole]
    simp [Except.bind, Scan.run, Scan.step, bind, Nat.add_comm 1]
  unfold firstGroup
  rw [hrun]
  rfl

theorem replacements_group (ts : List Text) :
    replacements escaping (group ts) 0 (([','].intercalate ts).length + 1) =
      splitFrom escaping 0 false ([','].intercalate ts) := by
  have hinside : ((group ts).take (([','].intercalate ts).length + 1)).drop 1 =
      [','].intercalate ts := by
    simp [group]
  have hback : (group ts).drop (([','].intercalate ts).length + 1 + 1) = [] := by
    simp [group]
  rw [replacements, Nat.zero_add, hinside, hback]
  simp [alternatives]

/-- The parts of a split group are expanded to these texts, one part after the other. -/
def ExpandsTo (escaping : Bool) (rounds : Nat) (parts es : List Text) : Prop :=
  ∃ expanded, List.Forall₂ (fun r e => expandRounds escaping rounds r = .ok e) parts expanded ∧
    expanded.flatten = es

theorem expand_group {ts : List Text} (h : ∀ t ∈ ts, Quiet escaping t) :
    ∃ rounds, ∀ es, expand escaping (group ts) = .ok es ↔
      ExpandsTo escaping rounds (splitFrom escaping 0 false ([','].intercalate ts)) es := by
  obtain ⟨rounds, hrounds⟩ : ∃ rounds, (group ts).count '{' = rounds + 1 :=
    ⟨_, List.count_cons_self⟩
  refine ⟨rounds, fun es => ?_⟩
  rw [expand, hrounds, expandRounds, firstGroup_group h]
  simp only [ExpandsTo, ← mapM_eq_ok, ← replacements_group, bind, Except.bind]
  cases (replacements escaping (group ts) 0 (([','].intercalate ts).length + 1)).mapM
    (expandRounds escaping rounds) with
  | error e => simp
  | ok expanded => simp

theorem expandRounds_of_sheltered {t : Text} (rounds : Nat)
    (h : sheltered false (unescaped escaping t) = true) :
    expandRounds escaping rounds t = .ok [t] := by
  unfold expandRounds
  rw [firstGroup_eq_none_iff.mpr h]
  rfl

theorem head_of_expandRounds {rounds : Nat} {t : Text} {es : List Text}
    (h : expandRounds escaping rounds t = .ok es) : ∃ e rest, es = e :: rest ∧ e.length ≤ t.length := by
  induction rounds generalizing t es with
  | zero =>
    obtain ⟨rfl, -⟩ | ⟨_, _, _, _, hleft, -⟩ := expandRounds_cases h
    · exact ⟨t, [], rfl, Nat.le_refl _⟩
    · cases hleft
  | succ rounds ih =>
    obtain ⟨rfl, -⟩ | ⟨left, o, c, expanded, hleft, hg, hall, rfl⟩ := expandRounds_cases h
    · exact ⟨t, [], rfl, Nat.le_refl _⟩
    · cases hleft
      obtain ⟨r, rs, hr⟩ := List.exists_cons_of_ne_nil (replacements_ne_nil escaping t o c)
      rw [hr] at hall
      obtain ⟨first, others, hfirst, -, rfl⟩ := List.forall₂_cons_left_iff.mp hall
      obtain ⟨e, rest, rfl, hle⟩ := ih hfirst
      have hless := (shrinks_of_mem_replacements hg (hr ▸ List.mem_cons_self)).1
      exact ⟨e, rest ++ others.flatten, rfl, by omega⟩

section ExpandsTo

variable {rounds : Nat} {r t : Text} {parts es others : List Text}

theorem length_le_of_expandsTo (h : ExpandsTo escaping rounds (r :: parts) (t :: others)) :
    t.length ≤ r.length := by
  obtain ⟨expanded, hall, hflat⟩ := h
  obtain ⟨es, ess, hes, -, rfl⟩ := List.forall₂_cons_left_iff.mp hall
  obtain ⟨e, _, rfl, hle⟩ := head_of_expandRounds hes
  obtain rfl : e = t := (List.cons.inj hflat).1
  exact hle

theorem expandsTo_cons_iff (hr : sheltered false (unescaped escaping r) = true) :
    ExpandsTo escaping rounds (r :: parts) es ↔
      ∃ rest, es = r :: rest ∧ ExpandsTo escaping rounds parts rest := by
  have hlone := expandRounds_of_sheltered rounds hr
  refine ⟨?_, ?_⟩
  · rintro ⟨expanded, hall, rfl⟩
    obtain ⟨first, more, hfirst, hmore, rfl⟩ := List.forall₂_cons_left_iff.mp hall
    rw [hlone] at hfirst
    cases hfirst
    exact ⟨more.flatten, rfl, more, hmore, rfl⟩
  · rintro ⟨rest, rfl, expanded, hall, rfl⟩
    exact ⟨[r] :: expanded, .cons hlone hall, rfl⟩

theorem expandsTo_nil : ExpandsTo escaping rounds [] [] := ⟨[], .nil, rfl⟩

/-- A text that is cut leaves only something shorter to come first. -/
theorem not_expandsTo_of_cut (rest : Text) (hu : uncut 0 (unescaped escaping t) = false) :
    ¬ExpandsTo escaping rounds (splitFrom escaping 0 false (t ++ rest)) (t :: others) := by
  obtain ⟨first, more, hsplit, hlt⟩ := splitFrom_of_cut rest hu
  rw [hsplit]
  exact fun h => Nat.not_le.mpr hlt (length_le_of_expandsTo h)

end ExpandsTo

/-- What a text and the texts behind it are split into, if no comma of the text is one between
alternatives: the comma behind the text is such a comma just if no inner group is open there. -/
theorem splitFrom_text {t rest : Text} (ht : Quiet escaping t)
    (hu : uncut 0 (unescaped escaping t) = true) :
    splitFrom escaping 0 false (t ++ ',' :: rest) =
      if openAfter 0 (unescaped escaping t) = 0 then t :: splitFrom escaping 0 false rest
      else t.foldr pushFront (pushFront ','
        (splitFrom escaping (nest (openAfter 0 (unescaped escaping t)) ',') false rest)) := by
  rw [splitFrom_append (',' :: rest) hu, ht.whole, splitFrom_cons (by simp), ← unescaped]
  by_cases hdepth : openAfter 0 (unescaped escaping t) = 0
  · rw [if_pos ⟨rfl, hdepth⟩, if_pos hdepth, foldr_pushFront, List.append_nil]
  · rw [if_neg fun hyp => hdepth hyp.2, if_neg hdepth]

/-- When the expansions of the split group are the texts that it was made of: none of their commas is
taken for one between alternatives, and all of those are. -/
theorem expandsTo_split_iff {rounds : Nat} {ts : List Text} (hne : ts ≠ [])
    (h : ∀ t ∈ ts, Quiet escaping t) :
    ExpandsTo escaping rounds (splitFrom escaping 0 false ([','].intercalate ts)) ts ↔
      (∀ t ∈ ts, Uncut escaping t) ∧ ∀ t ∈ ts.dropLast, openAfter 0 (unescaped escaping t) = 0 := by
  induction ts with
  | nil => exact (hne rfl).elim
  | cons t ts ih =>
    obtain ⟨ht, hts⟩ := List.forall_mem_cons.mp h
    obtain ⟨rest, hrest⟩ : ∃ rest, [','].intercalate (t :: ts) = t ++ rest := by
      by_cases hnil : ts = []
      · exact ⟨[], by rw [hnil, List.intercalate_singleton, List.append_nil]⟩
      · exact ⟨_, by rw [List.intercalate_cons_of_ne_nil hnil, List.append_assoc]⟩
    cases hu : uncut 0 (unescaped escaping t) with
    | false =>
      have hn : ¬Uncut escaping t := by
        intro hyp
        rw [Uncut, ← uncut_iff, hu] at hyp
        cases hyp
      rw [hrest]
      exact iff_of_false (not_expandsTo_of_cut rest hu) fun hyp => hn (hyp.1 t List.mem_cons_self)
    | true =>
      have hcommas : Uncut escaping t := uncut_iff.mp hu
      by_cases hnil : ts = []
      · have hsplit : splitFrom escaping 0 false t = [t] := by
          have happ := splitFrom_append [] hu
          rwa [List.append_nil, ht.whole, splitFrom, foldr_pushFront, List.append_nil] at happ
        rw [hnil, List.intercalate_singleton, hsplit, expandsTo_cons_iff ht.sheltered_eq]
        exact iff_of_true ⟨[], rfl, expandsTo_nil⟩ (by simpa using hcommas)
      rw [List.intercalate_cons_of_ne_nil hnil, List.append_assoc, List.singleton_append,
        splitFrom_text ht hu, List.dropLast_cons_of_ne_nil hnil, List.forall_mem_cons,
        List.forall_mem_cons]
      by_cases hdepth : openAfter 0 (unescaped escaping t) = 0
      · rw [if_pos hdepth, expandsTo_cons_iff ht.sheltered_eq]
        simp [hcommas, hdepth, ← ih hnil hts]
      · -- The comma is kept, so what comes first is longer than the text, and no group is in it.
        rw [if_neg hdepth]
        obtain ⟨x, xs, hx⟩ := List.exists_cons_of_ne_nil (splitFrom_ne_nil escaping
          (nest (openAfter 0 (unescaped escaping t)) ',') false ([','].intercalate ts))
        have hlong : t ++ ',' :: x <+: t ++ [','] ++ [','].intercalate ts := by
          rw [List.append_assoc, List.prefix_append_right_inj]
          exact List.cons_prefix_cons.mpr ⟨rfl, isPrefix_of_splitFrom hx⟩
        have hquiet := (ht.append quiet_comma).append (quiet_intercalate hts)
        have hfirst := sheltered_of_isPrefix (unescaped_isPrefix hlong) hquiet.sheltered_eq
        rw [hx, pushFront, foldr_pushFront, expandsTo_cons_iff hfirst]
        refine iff_of_false ?_ (fun hyp => hdepth hyp.2.1)
        rintro ⟨more, heq, -⟩
        have hlen := congrArg List.length (List.cons.inj heq).1
        simp at hlen

theorem openAfter_of_forall {t : Text} (h : ∀ c ∈ t, c ≠ '{' ∧ c ≠ '}') : openAfter 0 t = 0 := by
  induction t with
  | nil => rfl
  | cons c t ih =>
    obtain ⟨⟨hopen, hclose⟩, ht⟩ := List.forall_mem_cons.mp h
    rw [openAfter, List.foldl_cons, nest, if_neg hopen, if_neg hclose]
    exact ih ht

end Brace

namespace Segment

variable {d : Dialect} {pos : Nat} {previous : Option Char} {text : Text} {skip : Nat}
  {segments : List Segment}

/-- A brace or comma that is not escaped is a comma on its own or in a bracket expression. -/
theorem separator_of_readAll (h : readAll d pos previous skip text = .ok segments) {c : Char}
    (hc : c = ',' ∨ c = '{' ∨ c = '}') (hmem : c ∈ unescaped d.escaping (text.drop skip)) :
    (∃ s, ([','], s) ∈ tokens d pos previous skip text) ∨
      ∃ inside ∈ (tokens d pos previous skip text).filterMap inside?,
        c ∈ unescaped d.escaping inside := by
  induction text generalizing pos previous skip segments with
  | nil => simp [unescaped, unescapedFrom] at hmem
  | cons x rest ih =>
    cases skip with
    | succ skip => exact ih h hmem
    | zero =>
      obtain ⟨s, extra, more, htoken, hmore, -⟩ := readAll_cons_eq_ok_iff.mp h
      obtain ⟨-, hwhole, hkind⟩ := read_cases htoken
      have hsplit : (x :: rest).drop 0 = (x :: rest.take extra) ++ rest.drop extra := by simp
      rw [hsplit, unescaped_append hwhole, List.mem_append] at hmem
      have htokens : tokens d pos previous 0 (x :: rest) =
          (x :: rest.take extra, s) :: tokens d (pos + 1) (some x) extra rest := by rw [tokens, htoken]
      rw [htokens]
      rcases hmem with hmem | hmem
      · obtain ⟨b, inside, rfl, htext, hinside⟩ | ⟨-, hplain⟩ := hkind
        · rw [htext, unescaped_bracketed hinside] at hmem
          have hmem : c ∈ unescaped d.escaping inside := by
            rcases hc with rfl | rfl | rfl <;> simpa using hmem
          exact .inr ⟨inside, List.mem_filterMap.mpr ⟨_, List.mem_cons_self, by simp [inside?, htext]⟩,
            hmem⟩
        · obtain ⟨-, -, hopen, hclose, hcomma⟩ := hplain c hmem
          have hone := hcomma (hc.resolve_right (not_or.mpr ⟨hopen, hclose⟩))
          exact .inl ⟨s, by rw [hone]; exact List.mem_cons_self⟩
      · refine (ih hmore hmem).imp (Exists.imp fun _ => List.mem_cons_of_mem _) ?_
        rintro ⟨inside, hinside, hmem⟩
        obtain ⟨token, htoken, hinside⟩ := List.mem_filterMap.mp hinside
        exact ⟨inside, List.mem_filterMap.mpr ⟨token, List.mem_cons_of_mem _ htoken, hinside⟩, hmem⟩

end Segment

namespace Pattern

variable {d : Dialect} {t : Text} {p : Pattern}

/-- A text that reads as a pattern is quiet just if its bracket expressions shelter their braces. -/
theorem quiet_iff_of_read (h : read d t = .ok p) :
    Brace.Quiet d.escaping t ↔ ∀ inside ∈ brackets d t, Bracket.Shelters d.escaping inside := by
  obtain ⟨hwhole, hout, hsees⟩ := seen_of_read h
  exact ⟨fun hq => hsees.mp hq.sheltered_eq, fun hs => ⟨hwhole, hout, hsees.mpr hs⟩⟩

/-- Where neither the bracket expressions nor the text around them holds a separator, no search or
split sees one. -/
theorem unseen_of_read (h : read d t = .ok p)
    (hcommas : ∀ token ∈ Segment.tokens d 0 none 0 t, token.1 ≠ [','])
    (hbrackets : ∀ inside ∈ brackets d t, ∀ c ∈ unescaped d.escaping inside,
      c ≠ ',' ∧ c ≠ '{' ∧ c ≠ '}') :
    Brace.Quiet d.escaping t ∧ Brace.Uncut d.escaping t ∧
      Brace.openAfter 0 (unescaped d.escaping t) = 0 := by
  have hunseen : ∀ c ∈ unescaped d.escaping t, c ≠ ',' ∧ c ≠ '{' ∧ c ≠ '}' := by
    intro c hmem
    by_contra hc
    have hc : c = ',' ∨ c = '{' ∨ c = '}' := by simpa only [← not_or, not_not] using hc
    obtain ⟨-, segments, hsegments, -⟩ := read_eq_ok_iff.mp h
    obtain ⟨s, hs⟩ | ⟨inside, hinside, hmem⟩ := Segment.separator_of_readAll hsegments hc hmem
    · exact hcommas _ hs rfl
    · obtain ⟨hcomma, hopen, hclose⟩ := hbrackets inside hinside c hmem
      exact hc.elim hcomma fun hc => hc.elim hopen hclose
  refine ⟨(quiet_iff_of_read h).mpr fun inside hinside u v c w hbare hc => ?_, fun u v hbare => ?_,
    Brace.openAfter_of_forall fun c hc => (hunseen c hc).2⟩
  · have hno := (hbrackets inside hinside c (by simp [hbare])).2
    exact (hc.elim hno.1 hno.2).elim
  · exact ((hunseen ',' (by simp [hbare])).1 rfl).elim

/-- **A group of texts that read as patterns is compiled to those patterns just if their bracket
expressions shelter their braces, none of their commas is cut at, and only the last one may leave an
inner group open.** Splitting a group counts the braces and the commas in bracket expressions too. Where
no bracket expression holds one, and no comma stands outside of them, the group is compiled to the
patterns. -/
theorem compile_group_iff {ts : List Text} {ps : List Pattern} (hne : ts ≠ [])
    (h : List.Forall₂ (fun t p => read d t = .ok p) ts ps) :
    (compile d (Brace.group ts) = .ok ps ↔
      (∀ t ∈ ts, ∀ inside ∈ brackets d t, Bracket.Shelters d.escaping inside) ∧
        (∀ t ∈ ts, Brace.Uncut d.escaping t) ∧
        ∀ t ∈ ts.dropLast, Brace.openAfter 0 (unescaped d.escaping t) = 0) ∧
      ((∀ t ∈ ts, (∀ token ∈ Segment.tokens d 0 none 0 t, token.1 ≠ [',']) ∧
          ∀ inside ∈ brackets d t, ∀ c ∈ unescaped d.escaping inside,
            c ≠ ',' ∧ c ≠ '{' ∧ c ≠ '}') →
        compile d (Brace.group ts) = .ok ps) := by
  have hsources : ps.map source = ts := by
    rw [← List.forall₂_eq_eq_eq, List.forall₂_map_left_iff]
    exact (h.imp fun _ _ ht => source_of_read ht).flip
  have hps : ∀ p ∈ ps, read d p.source = .ok p := by
    intro p hp
    obtain ⟨t, -, ht⟩ := exists_of_mem_right h hp
    rwa [source_of_read ht]
  have hts : ∀ t ∈ ts, ∃ p, read d t = .ok p := by
    rw [← hsources]
    intro t ht
    obtain ⟨p, hp, rfl⟩ := List.mem_map.mp ht
    exact ⟨p, hps p hp⟩
  have hquiet : ∀ t ∈ ts, (Brace.Quiet d.escaping t ↔
      ∀ inside ∈ brackets d t, Bracket.Shelters d.escaping inside) := fun t ht =>
    quiet_iff_of_read (hts t ht).choose_spec
  have hcompile : (∀ t ∈ ts, Brace.Quiet d.escaping t) → (compile d (Brace.group ts) = .ok ps ↔
      (∀ t ∈ ts, Brace.Uncut d.escaping t) ∧
        ∀ t ∈ ts.dropLast, Brace.openAfter 0 (unescaped d.escaping t) = 0) := by
    intro hq
    obtain ⟨rounds, hexpand⟩ := Brace.expand_group hq
    rw [compile_eq_ok_iff hps, hsources, hexpand, Brace.expandsTo_split_iff hne hq]
  refine ⟨⟨fun hok => ?_, fun ⟨hshelters, hcuts⟩ => ?_⟩, fun hfree => ?_⟩
  · -- What comes out of an expansion has no group, so that its braces are sheltered.
    have hexpand := (compile_eq_ok_iff hps).mp hok
    rw [hsources] at hexpand
    have hshelters : ∀ t ∈ ts, ∀ inside ∈ brackets d t, Bracket.Shelters d.escaping inside :=
      fun t ht => (firstGroup_eq_none_iff_of_read (hts t ht).choose_spec).mp
        (Brace.firstGroup_of_mem_expand hexpand t ht)
    exact ⟨hshelters, (hcompile fun t ht => (hquiet t ht).mpr (hshelters t ht)).mp hok⟩
  · exact (hcompile fun t ht => (hquiet t ht).mpr (hshelters t ht)).mpr hcuts
  · have hunseen := fun t ht =>
      unseen_of_read (hts t ht).choose_spec (hfree t ht).1 (hfree t ht).2
    exact (hcompile fun t ht => (hunseen t ht).1).mpr ⟨fun t ht => (hunseen t ht).2.1,
      fun t ht => (hunseen t (List.mem_of_mem_dropLast ht)).2.2⟩

/-- Behind `b`, the brace of `[{]` leaves an inner group open where nothing follows. In front of it, it
keeps the comma from being one between alternatives. The comma of `[,]` is cut at, that of `a\,` is
not. -/
theorem compile_group_iff_of_separators_in_brackets :
    (∃ p q, read {} "b".toList = .ok p ∧ read {} "[\x7b]".toList = .ok q ∧
        compile {} (Brace.group ["b".toList, "[\x7b]".toList]) = .ok [p, q] ∧
        compile {} (Brace.group ["[\x7b]".toList, "b".toList]) ≠ .ok [q, p]) ∧
      (∃ p q, read {} "[,]".toList = .ok p ∧ read {} "b".toList = .ok q ∧
        compile {} (Brace.group ["[,]".toList, "b".toList]) ≠ .ok [p, q]) ∧
      ∃ p q, read {} "a\\,".toList = .ok p ∧ read {} "b".toList = .ok q ∧
        compile {} (Brace.group ["a\\,".toList, "b".toList]) = .ok [p, q] := by
  have hname : read {} "b".toList = .ok {
      source := "b".toList
      segments := [.constant "b".toList]
      dialect := {} } := by rfl
  have hbrace : read {} "[\x7b]".toList = .ok {
      source := "[\x7b]".toList
      segments := [.bracket ⟨[('{', '{')], [], false⟩]
      dialect := {} } := by rfl
  have hcomma : read {} "[,]".toList = .ok {
      source := "[,]".toList
      segments := [.bracket ⟨[(',', ',')], [], false⟩]
      dialect := {} } := by rfl
  have hescaped : read {} "a\\,".toList = .ok {
      source := "a\\,".toList
      segments := [.constant "a,".toList]
      dialect := {} } := by rfl
  refine ⟨⟨_, _, hname, hbrace, ?_, ?_⟩, ⟨_, _, hcomma, hname, ?_⟩, _, _, hescaped, hname, ?_⟩
  · exact (compile_group_iff (by simp) (.cons hname (.cons hbrace .nil))).1.mpr (by decide)
  · exact mt (compile_group_iff (by simp) (.cons hbrace (.cons hname .nil))).1.mp (by decide)
  · exact mt (compile_group_iff (by simp) (.cons hcomma (.cons hname .nil))).1.mp (by decide)
  · exact (compile_group_iff (by simp) (.cons hescaped (.cons hname .nil))).2 (by decide)

end Pattern

end TreeGlob
