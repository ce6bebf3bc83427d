import TreeGlob.Proofs.Pattern.Language

/-!
One path in the place of another. A matcher looks at the characters of a path one by one, and so two
paths may be compared character by character, even by matchers that treat case differently.

* `Segment.StandsIn` says when a character may take the place of another.
* `Segment.matchAll_of_standsIn` and `Segment.mayExtend_of_standsIn` carry this to paths, by induction
  on the segments: each way in which a segment leaves a rest of the one path leaves a like rest of the
  other.
* `Segment.standsIn_of_toLower_eq` applies it to the two cases of an ASCII letter.
* `Pattern.verdict_eq_of_toLower_eq` says that a pattern that disregards case does so in the path too.
* `Segment.standsIn_self` puts a path in its own place and lets the two matchers differ in their regard
  for case; `Pattern.widened_by_disregarding_case` says what becomes of a pattern.
-/
namespace TreeGlob

namespace Segment

/-- Where the segments compare characters as `k` says, `x` is the separator just if `y` is, and they
take `y`, compared as `k'` says, wherever they take `x`. -/
structure StandsIn (k k' : Bool) (segments : List Segment) (x y : Char) : Prop where
  separator : x = '/' ↔ y = '/'
  constant : ∀ a, sameChar k a x = true → sameChar k' a y = true
  bracket : ∀ b, .bracket b ∈ segments → b.accepts k x = true → b.accepts k' y = true

section Paths

variable {k k' : Bool} {segments : List Segment} {x y : Text}

/-! ## The rests of two paths -/

/-- A constant that is used up by the one path leaves a like rest of the other, and one that outlasts
the one outlasts the other. -/
theorem fitConstant_of_standsIn {text : Text} (h : List.Forall₂ (StandsIn k k' segments) x y) :
    (∀ rest, fitConstant k text x = .consumed rest → ∃ rest',
      fitConstant k' text y = .consumed rest' ∧
        List.Forall₂ (StandsIn k k' segments) rest rest') ∧
    (fitConstant k text x = .pathEnds → fitConstant k' text y = .pathEnds) := by
  induction text generalizing x y with
  | nil =>
    simp only [fitConstant, Fit.consumed.injEq, reduceCtorEq, false_implies, and_true]
    intro rest hrest
    exact ⟨y, rfl, hrest ▸ h⟩
  | cons a text ih =>
    cases h with
    | nil =>
      refine ⟨?_, fun _ => rfl⟩
      intro rest hrest
      cases hrest
    | @cons c d _ _ hcd hrests =>
      by_cases hac : sameChar k a c = true
      · simp only [fitConstant, hac, hcd.constant a hac, if_true]
        exact ih hrests
      · simp [fitConstant, hac]

theorem exists_mem_starRests (h : List.Forall₂ (StandsIn k k' segments) x y) :
    ∀ rest ∈ starRests x, ∃ rest' ∈ starRests y,
      List.Forall₂ (StandsIn k k' segments) rest rest' := by
  induction h with
  | nil =>
    intro rest hrest
    rw [List.mem_singleton.mp hrest]
    exact ⟨[], List.mem_singleton_self _, .nil⟩
  | @cons c d x y hcd hxy ih =>
    intro rest hrest
    by_cases hc : c = '/'
    · have hd := hcd.separator.mp hc
      rw [starRests, if_pos hc, List.mem_singleton] at hrest
      rw [starRests, if_pos hd]
      exact ⟨d :: y, List.mem_singleton_self _, hrest ▸ .cons hcd hxy⟩
    · have hd := mt hcd.separator.mpr hc
      rw [starRests, if_neg hc, List.mem_cons] at hrest
      rw [starRests, if_neg hd]
      obtain rfl | hrest := hrest
      · exact ⟨d :: y, List.mem_cons_self, .cons hcd hxy⟩
      · obtain ⟨rest', hmem, hrests⟩ := ih rest hrest
        exact ⟨rest', List.mem_cons_of_mem _ hmem, hrests⟩

theorem exists_mem_separatorRests (h : List.Forall₂ (StandsIn k k' segments) x y) :
    ∀ rest ∈ separatorRests x, ∃ rest' ∈ separatorRests y,
      List.Forall₂ (StandsIn k k' segments) rest rest' := by
  induction h with
  | nil =>
    intro rest hrest
    cases hrest
  | @cons c d x y hcd hxy ih =>
    intro rest hrest
    by_cases hc : c = '/'
    · have hd := hcd.separator.mp hc
      rw [separatorRests, if_pos hc, List.mem_cons] at hrest
      rw [separatorRests, if_pos hd]
      obtain rfl | hrest := hrest
      · exact ⟨y, List.mem_cons_self, hxy⟩
      · obtain ⟨rest', hmem, hrests⟩ := ih rest hrest
        exact ⟨rest', List.mem_cons_of_mem _ hmem, hrests⟩
    · have hd := mt hcd.separator.mpr hc
      rw [separatorRests, if_neg hc] at hrest
      rw [separatorRests, if_neg hd]
      exact ih rest hrest

theorem exists_mem_globstarRests (h : List.Forall₂ (StandsIn k k' segments) x y) :
    ∀ rest ∈ globstarRests x, ∃ rest' ∈ globstarRests y,
      List.Forall₂ (StandsIn k k' segments) rest rest' := by
  intro rest hrest
  obtain rfl | hrest := List.mem_cons.mp hrest
  · exact ⟨y, List.mem_cons_self, h⟩
  · obtain ⟨rest', hmem, hrests⟩ := exists_mem_separatorRests h rest hrest
    exact ⟨rest', List.mem_cons_of_mem _ hmem, hrests⟩

/-- What holds of some rest of the one path holds of some rest of the other. -/
theorem any_of_standsIn {f g : Text → Bool} {rests rests' : List Text}
    (hrests : ∀ rest ∈ rests, ∃ rest' ∈ rests', List.Forall₂ (StandsIn k k' segments) rest rest')
    (hfg : ∀ {rest rest'}, List.Forall₂ (StandsIn k k' segments) rest rest' →
      f rest = true → g rest' = true)
    (h : rests.any f = true) : rests'.any g = true := by
  rw [List.any_eq_true] at h ⊢
  obtain ⟨rest, hmem, hf⟩ := h
  obtain ⟨rest', hmem', hlike⟩ := hrests rest hmem
  exact ⟨rest', hmem', hfg hlike hf⟩

theorem isEmpty_of_standsIn (h : List.Forall₂ (StandsIn k k' segments) x y) :
    x.isEmpty = y.isEmpty := by
  cases h <;> rfl

theorem contains_separator_of_standsIn (h : List.Forall₂ (StandsIn k k' segments) x y) :
    x.contains '/' = y.contains '/' := by
  induction h with
  | nil => rfl
  | @cons c d x y hcd hxy ih =>
    have hsame : ('/' == c) = ('/' == d) := by
      rw [Bool.eq_iff_iff, beq_iff_eq, beq_iff_eq, eq_comm, hcd.separator, eq_comm]
    rw [List.contains_cons, List.contains_cons, hsame, ih]

/-! ## Two paths under one list of segments -/

theorem matchAll_of_standsIn (h : List.Forall₂ (StandsIn k k' all) x y) (hs : segments ⊆ all)
    (hx : matchAll k segments x = true) : matchAll k' segments y = true := by
  induction segments generalizing x y with
  | nil =>
    rw [matchAll] at hx ⊢
    rwa [← isEmpty_of_standsIn h]
  | cons s segments ih =>
    obtain ⟨hmem, htail⟩ := List.cons_subset.mp hs
    cases s with
    | constant text =>
      rw [matchAll] at hx
      split at hx
      · next rest hrest =>
        obtain ⟨rest', hrest', hrests⟩ := (fitConstant_of_standsIn h).1 rest hrest
        rw [matchAll, hrest']
        exact ih hrests htail hx
      · cases hx
    | anyChar =>
      cases h with
      | nil => cases hx
      | @cons c d x y hcd hxy =>
        rw [matchAll, Bool.and_eq_true, decide_eq_true_eq] at hx ⊢
        exact ⟨mt hcd.separator.mpr hx.1, ih hxy htail hx.2⟩
    | bracket b =>
      cases h with
      | nil => cases hx
      | @cons c d x y hcd hxy =>
        rw [matchAll, Bool.and_eq_true] at hx ⊢
        exact ⟨hcd.bracket b hmem hx.1, ih hxy htail hx.2⟩
    | star =>
      by_cases hlast : segments.isEmpty = true
      · rw [matchAll, if_pos hlast] at hx ⊢
        rwa [← contains_separator_of_standsIn h]
      · rw [matchAll, if_neg hlast] at hx ⊢
        exact any_of_standsIn (exists_mem_starRests h) (fun hrests => ih hrests htail) hx
    | globstar =>
      rw [matchAll, Bool.or_eq_true] at hx ⊢
      apply hx.imp_right
      exact any_of_standsIn (exists_mem_globstarRests h) (fun hrests => ih hrests htail)

theorem mayExtend_of_standsIn (h : List.Forall₂ (StandsIn k k' all) x y) (hs : segments ⊆ all)
    (hx : mayExtend k segments x = true) : mayExtend k' segments y = true := by
  induction segments generalizing x y with
  | nil =>
    cases h with
    | nil => exact hx
    | cons => cases hx
  | cons s segments ih =>
    obtain ⟨hmem, htail⟩ := List.cons_subset.mp hs
    cases h with
    | nil => rfl
    | @cons c d x y hcd hxy =>
      have hcons := List.Forall₂.cons hcd hxy
      cases s with
      | constant text =>
        simp only [mayExtend] at hx ⊢
        split at hx
        · next rest hrest =>
          obtain ⟨rest', hrest', hrests⟩ := (fitConstant_of_standsIn hcons).1 rest hrest
          rw [hrest']
          exact ih hrests htail hx
        · next hends =>
          rw [(fitConstant_of_standsIn hcons).2 hends]
        · cases hx
      | anyChar =>
        rw [mayExtend, Bool.and_eq_true, decide_eq_true_eq] at hx ⊢
        exact ⟨mt hcd.separator.mpr hx.1, ih hxy htail hx.2⟩
      | bracket b =>
        rw [mayExtend, Bool.and_eq_true] at hx ⊢
        exact ⟨hcd.bracket b hmem hx.1, ih hxy htail hx.2⟩
      | star =>
        simp only [mayExtend] at hx ⊢
        exact any_of_standsIn (exists_mem_starRests hcons) (fun hrests => ih hrests htail) hx
      | globstar =>
        simp only [mayExtend, Bool.or_eq_true] at hx ⊢
        apply hx.imp_right
        exact any_of_standsIn (exists_mem_globstarRests hcons) (fun hrests => ih hrests htail)

end Paths

end Segment

/-! ## The two cases of an ASCII letter -/

theorem Unicode.forall_ascii {P : Char → Prop} (h : ∀ n < 128, P (Char.ofNat n)) (c : Char)
    (hc : c.toNat < 128) : P c := by
  have hcode := h c.toNat hc
  rwa [Char.ofNat_toNat] at hcode

theorem Unicode.toLower_of_ascii (c : Char) (hc : c.toNat < 128) : toLower c = [c.toLower] :=
  forall_ascii (P := fun c => toLower c = [c.toLower]) (by decide +kernel) c hc

theorem Unicode.toUpper_of_ascii (c : Char) (hc : c.toNat < 128) : toUpper c = [c.toUpper] :=
  forall_ascii (P := fun c => toUpper c = [c.toUpper]) (by decide +kernel) c hc

theorem Unicode.toUpper_toLower_of_ascii (c : Char) (hc : c.toNat < 128) :
    c.toLower.toUpper = c.toUpper :=
  forall_ascii (P := fun c => c.toLower.toUpper = c.toUpper) (by decide +kernel) c hc

theorem Unicode.toLower_eq_separator_iff (c : Char) (hc : c.toNat < 128) :
    c.toLower = '/' ↔ c = '/' :=
  forall_ascii (P := fun c => c.toLower = '/' ↔ c = '/') (by decide +kernel) c hc

theorem Unicode.ascii_of_toLower_ne {c : Char} (h : c.toLower ≠ c) : c.toNat < 128 := by
  have hupper : 'A'.val ≤ c.val ∧ c.val ≤ 'Z'.val := by
    by_contra hc
    exact h (dif_neg hc)
  calc c.toNat ≤ 'Z'.toNat := hupper.2
    _ < 128 := by decide

theorem Unicode.ascii_of_toLower_eq {c d : Char} (h : c.toLower = d.toLower) (hne : c ≠ d) :
    c.toNat < 128 ∧ d.toNat < 128 := by
  have hlower : ∀ c : Char, c.toNat < 128 → c.toLower.toNat < 128 :=
    forall_ascii (P := fun c => c.toLower.toNat < 128) (by decide +kernel)
  by_cases hc : c.toLower = c
  · have hd : d.toLower ≠ d := fun hd => hne (hc.symm.trans (h.trans hd))
    have hascii := ascii_of_toLower_ne hd
    exact ⟨hc ▸ h ▸ hlower d hascii, hascii⟩
  · have hascii := ascii_of_toLower_ne hc
    refine ⟨hascii, ?_⟩
    by_cases hd : d.toLower = d
    · exact hd ▸ h ▸ hlower c hascii
    · exact ascii_of_toLower_ne hd

theorem Bracket.hit_of_ascii (b : Bracket) {c : Char} (hc : c.toNat < 128) :
    b.hit false c = (b.contains c.toLower || b.contains c.toUpper) := by
  have himage : c = c.toLower ∨ c = c.toUpper :=
    Unicode.forall_ascii (P := fun c => c = c.toLower ∨ c = c.toUpper) (by decide +kernel) c hc
  simp only [hit, Unicode.toLower_of_ascii c hc, Unicode.toUpper_of_ascii c hc, List.any_cons,
    List.any_nil, Bool.or_false, Bool.not_false, Bool.true_and]
  obtain h | h := himage
  · rw [← h, ← Bool.or_assoc, Bool.or_self]
  · rw [← h, Bool.or_comm, Bool.or_assoc, Bool.or_self]

theorem Segment.standsIn_of_toLower_eq {segments : List Segment} {c d : Char}
    (h : c.toLower = d.toLower) : StandsIn false false segments c d := by
  by_cases hne : c = d
  · subst hne
    exact ⟨Iff.rfl, fun _ => id, fun _ _ => id⟩
  obtain ⟨hc, hd⟩ := Unicode.ascii_of_toLower_eq h hne
  have hseparator : c = '/' ↔ d = '/' := by
    rw [← Unicode.toLower_eq_separator_iff c hc, h, Unicode.toLower_eq_separator_iff d hd]
  have hlower : Unicode.toLower c = Unicode.toLower d := by
    rw [Unicode.toLower_of_ascii c hc, h, Unicode.toLower_of_ascii d hd]
  have hupper : c.toUpper = d.toUpper := by
    rw [← Unicode.toUpper_toLower_of_ascii c hc, h, Unicode.toUpper_toLower_of_ascii d hd]
  refine ⟨hseparator, ?_, ?_⟩
  · intro a hac
    rw [sameChar, Bool.or_eq_true, decide_eq_true_eq] at hac ⊢
    right
    obtain rfl | hac := hac
    · simp [hlower]
    · simpa [hlower] using hac
  · intro b _ hb
    rw [Bracket.accepts, Bool.and_eq_true, decide_eq_true_eq] at hb ⊢
    refine ⟨mt hseparator.mpr hb.1, ?_⟩
    rw [b.hit_of_ascii hd, ← h, ← hupper, ← b.hit_of_ascii hc]
    exact hb.2

namespace Pattern

/-- **A pattern for which case does not count says the same about two paths that differ only in the
case of ASCII letters**: both match or neither does, and it rules out what is below both or below
neither. Ranges may split the alphabet, and classes may tell the cases apart or be negated. -/
theorem verdict_eq_of_toLower_eq {p : Pattern} (hp : p.dialect.caseSensitive = false) {x y : Text}
    (h : x.map Char.toLower = y.map Char.toLower) : p.verdict x = p.verdict y := by
  have hstands : ∀ {x y : Text}, x.map Char.toLower = y.map Char.toLower →
      List.Forall₂ (Segment.StandsIn false false p.segments) x y := by
    intro x y hxy
    rw [← List.forall₂_eq_eq_eq, List.forall₂_map_left_iff, List.forall₂_map_right_iff] at hxy
    exact hxy.imp fun _ _ => Segment.standsIn_of_toLower_eq
  have hdirectory : ∀ {x y : Text}, x.map Char.toLower = y.map Char.toLower →
      (x ++ ['/']).map Char.toLower = (y ++ ['/']).map Char.toLower := by
    intro x y hxy
    rw [List.map_append, List.map_append, hxy]
  have hsubset := List.Subset.refl p.segments
  have hhit : p.accepts x = p.accepts y := by
    rw [accepts, accepts, hp, Bool.eq_iff_iff]
    exact ⟨Segment.matchAll_of_standsIn (hstands h) hsubset,
      Segment.matchAll_of_standsIn (hstands h.symm) hsubset⟩
  have hextend : Segment.mayExtend false p.segments (x ++ ['/']) =
      Segment.mayExtend false p.segments (y ++ ['/']) := by
    rw [Bool.eq_iff_iff]
    exact ⟨Segment.mayExtend_of_standsIn (hstands (hdirectory h)) hsubset,
      Segment.mayExtend_of_standsIn (hstands (hdirectory h.symm)) hsubset⟩
  rw [verdict, verdict, hhit, hp, hextend]

/-- The range from `Z` to `a` holds one letter of either case, and `[!A-Y]` no capital but `Z`; both
disregard the case of the path all the same. -/
theorem verdict_eq_of_toLower_eq_in_range :
    "zÄZ/k".toList.map Char.toLower = "ZÄz/K".toList.map Char.toLower ∧
      verdict ⟨"[Z-a]ä[!A-Y]/[[:upper:]]".toList, [.bracket ⟨[('Z', 'a')], [], false⟩,
          .constant ['ä'], .bracket ⟨[('A', 'Y')], [], true⟩, .constant ['/'],
          .bracket ⟨[], [.upper], false⟩], { caseSensitive := false }⟩ "zÄZ/k".toList =
        verdict ⟨"[Z-a]ä[!A-Y]/[[:upper:]]".toList, [.bracket ⟨[('Z', 'a')], [], false⟩,
          .constant ['ä'], .bracket ⟨[('A', 'Y')], [], true⟩, .constant ['/'],
          .bracket ⟨[], [.upper], false⟩], { caseSensitive := false }⟩ "ZÄz/K".toList :=
  ⟨by decide, verdict_eq_of_toLower_eq rfl (by decide)⟩

end Pattern

/-! ## With and without regard to case -/

/-- Every character stands in for itself where case no longer counts, if no bracket expression is
narrowed by that. -/
theorem Segment.standsIn_self {segments : List Segment}
    (h : ∀ b, .bracket b ∈ segments → ∀ c, b.accepts true c = true → b.accepts false c = true)
    (c : Char) : StandsIn true false segments c c := by
  refine ⟨Iff.rfl, ?_, fun b hb => h b hb c⟩
  intro a hac
  rw [sameChar, Bool.or_eq_true, decide_eq_true_eq] at hac ⊢
  left
  simpa using hac

/-- The reader of segments has no regard to case, so it reads the same whether case counts or not. -/
theorem Segment.readAll_caseSensitive (d : Dialect) (caseSensitive : Bool) (pos : Nat)
    (previous : Option Char) (skip : Nat) (text : Text) :
    readAll { d with caseSensitive } pos previous skip text = readAll d pos previous skip text := by
  induction text generalizing pos previous skip with
  | nil => cases skip <;> rfl
  | cons c rest ih =>
    cases skip with
    | succ skip => exact ih _ _ _
    | zero =>
      have hread : read { d with caseSensitive } pos previous c rest = read d pos previous c rest := rfl
      rw [readAll, readAll, hread]
      simp only [ih]

namespace Pattern

theorem read_caseSensitive {d : Dialect} {raw : Text} {p : Pattern} (h : read d raw = .ok p)
    (caseSensitive : Bool) :
    read { d with caseSensitive } raw = .ok { p with dialect := { d with caseSensitive } } := by
  obtain ⟨hraw, segments, hsegments, rfl⟩ := read_eq_ok_iff.mp h
  rw [← Segment.readAll_caseSensitive d caseSensitive] at hsegments
  exact read_eq_ok_iff.mpr ⟨hraw, segments, hsegments, rfl⟩

/-- **Disregarding case only widens a pattern.** If none of its bracket expressions is negated, a
text that is read with regard to case is also read without: the loose pattern has the same segments,
it matches whatever the strict one matches, and what it rules out below a directory the strict one
rules out as well. -/
theorem widened_by_disregarding_case {d : Dialect} {raw : Text} {strict : Pattern}
    (h : read { d with caseSensitive := true } raw = .ok strict)
    (hplain : ∀ b, .bracket b ∈ strict.segments → b.negated = false) :
    ∃ loose, read { d with caseSensitive := false } raw = .ok loose ∧
      loose.segments = strict.segments ∧
      ∀ path, (strict.accepts path = true → loose.accepts path = true) ∧
        ((strict.verdict path).hit = true → (loose.verdict path).hit = true) ∧
        ((loose.verdict path).prune = true → (strict.verdict path).prune = true) := by
  have hdialect : strict.dialect = { d with caseSensitive := true } := dialect_of_read h
  have hstands : ∀ path : Text,
      List.Forall₂ (Segment.StandsIn true false strict.segments) path path := by
    intro path
    apply List.forall₂_same.mpr
    intro c _
    apply Segment.standsIn_self
    intro b hb x
    exact Bracket.accepts_insensitive (hplain b hb)
  have hsubset := List.Subset.refl strict.segments
  have haccepts : ∀ path, strict.accepts path = true →
      Segment.matchAll false strict.segments path = true := by
    intro path haccepts
    rw [accepts, hdialect] at haccepts
    exact Segment.matchAll_of_standsIn (hstands path) hsubset haccepts
  refine ⟨_, read_caseSensitive h false, rfl, fun path => ⟨haccepts path, haccepts path, ?_⟩⟩
  intro hprune
  have halive : Segment.mayExtend true strict.segments (path ++ ['/']) = true →
      Segment.mayExtend false strict.segments (path ++ ['/']) = true :=
    Segment.mayExtend_of_standsIn (hstands _) hsubset
  simp only [verdict, hdialect, Bool.not_eq_true'] at hprune ⊢
  rw [← Bool.not_eq_true] at hprune ⊢
  exact mt halive hprune

/-- A range and a named class reach over a `**`. Both patterns match the one path, and both rule out
what is below the other. -/
theorem widened_by_disregarding_case_over_components :
    ∃ strict loose, read {} "[k-m]/**/[[:upper:]]*.Rs".toList = .ok strict ∧
      read { caseSensitive := false } "[k-m]/**/[[:upper:]]*.Rs".toList = .ok loose ∧
      (∀ b, .bracket b ∈ strict.segments → b.negated = false) ∧
      (strict.accepts "l/q/Ab.Rs".toList = true ∧ loose.accepts "l/q/Ab.Rs".toList = true) ∧
      (loose.verdict "n".toList).prune = true ∧ (strict.verdict "n".toList).prune = true := by
  have hstrict : read {} "[k-m]/**/[[:upper:]]*.Rs".toList = .ok {
      source := "[k-m]/**/[[:upper:]]*.Rs".toList
      segments := [.bracket ⟨[('k', 'm')], [], false⟩, .constant ['/'], .globstar,
        .bracket ⟨[], [.upper], false⟩, .star, .constant ".Rs".toList]
      dialect := {} } := by rfl
  have hplain : ∀ b, Segment.bracket b ∈ [.bracket ⟨[('k', 'm')], [], false⟩, .constant ['/'],
      .globstar, .bracket ⟨[], [.upper], false⟩, .star, .constant ".Rs".toList] →
      b.negated = false := by
    intro b hb
    simp only [List.mem_cons, Segment.bracket.injEq, reduceCtorEq, false_or, or_false,
      List.not_mem_nil] at hb
    obtain rfl | rfl := hb <;> rfl
  obtain ⟨loose, hloose, hsegments, hwider⟩ := widened_by_disregarding_case (d := {}) hstrict hplain
  have hdialect := dialect_of_read hloose
  have hmatches := (hwider "l/q/Ab.Rs".toList).1
  have hprunes := (hwider "n".toList).2.2
  have hprune : (loose.verdict "n".toList).prune = true := by
    simp only [verdict, hsegments, hdialect]
    decide
  exact ⟨_, loose, hstrict, hloose, hplain, ⟨by decide, hmatches (by decide)⟩, hprune,
    hprunes hprune⟩

/-- A negated bracket expression is narrowed where case does not count. -/
example : Bracket.accepts ⟨[('a', 'a')], [], true⟩ true 'A' = true ∧
    Bracket.accepts ⟨[('a', 'a')], [], true⟩ false 'A' = false := by decide

end Pattern

end TreeGlob
