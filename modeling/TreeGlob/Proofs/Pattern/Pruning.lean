import TreeGlob.Pattern.Match

/-!
Pruning is exact. A search asks about a directory whether anything below it can still match; this
module compares that question, which `Segment.mayExtend` answers by a search of its own, with what
`Segment.matchAll` says about all the paths below the directory.

* A path with a separator at its end is `Closed`; both searches are compared on closed paths, since
  no star reaches beyond such a path and a globstar can always resume at its end.
* `mayExtend_of_matchAll` says that nothing is lost: what matches a longer path keeps the shorter one
  alive. `mayExtend_of_append` is the same for a directory further down.
* `exists_matchAll_of_mayExtend` says that nothing is entered in vain, provided each segment can be
  filled at all: a bracket may be empty, and a constant of a pattern that was read never is.
-/
namespace TreeGlob

/-- The path is empty or a separator ends it. -/
def Closed (path : Text) : Prop := path = [] ∨ path.getLast? = some '/'

theorem closed_append_separator (path : Text) : Closed (path ++ ['/']) := by
  right
  simp

theorem Closed.of_suffix {rest path : Text} (h : Closed path) (hs : rest <:+ path) :
    Closed rest := by
  obtain ⟨used, rfl⟩ := hs
  rcases h with he | hl
  · exact .inl (List.append_eq_nil_iff.mp he).2
  · by_cases hr : rest = []
    · exact .inl hr
    · right
      obtain ⟨c, hc⟩ := Option.ne_none_iff_exists'.mp (mt List.getLast?_eq_none_iff.mp hr)
      simpa [hc] using hl

theorem Closed.mem {path : Text} (h : Closed path) (hne : path ≠ []) : '/' ∈ path :=
  List.mem_of_getLast? (h.resolve_left hne)

/-! ## The ways of a longer path -/

theorem suffix_of_mem_separatorRests {rest path : Text} (h : rest ∈ separatorRests path) :
    rest <:+ path := by
  induction path with
  | nil => simp [separatorRests] at h
  | cons c path ih =>
    by_cases hc : c = '/'
    · simp only [separatorRests, hc, if_true, List.mem_cons] at h
      rcases h with rfl | h
      · exact List.suffix_cons c rest
      · exact (ih h).trans (List.suffix_cons c path)
    · simp only [separatorRests, hc, if_false] at h
      exact (ih h).trans (List.suffix_cons c path)

theorem suffix_of_mem_globstarRests {rest path : Text} (h : rest ∈ globstarRests path) :
    rest <:+ path := by
  rcases List.mem_cons.mp h with rfl | h
  · exact List.suffix_refl rest
  · exact suffix_of_mem_separatorRests h

theorem starRests_append {path : Text} (h : '/' ∈ path) (more : Text) :
    starRests (path ++ more) = (starRests path).map (· ++ more) := by
  induction path with
  | nil => simp at h
  | cons c path ih =>
    by_cases hc : c = '/'
    · simp [starRests, hc]
    · have hp : '/' ∈ path := (List.mem_cons.mp h).resolve_left (Ne.symm hc)
      simp [starRests, hc, ih hp]

theorem mem_of_mem_starRests {rest path : Text} (h : '/' ∈ path) (hr : rest ∈ starRests path) :
    '/' ∈ rest := by
  induction path with
  | nil => simp at h
  | cons c path ih =>
    by_cases hc : c = '/'
    · simp only [starRests, hc, if_true, List.mem_singleton] at hr
      simp [hr]
    · have hp : '/' ∈ path := (List.mem_cons.mp h).resolve_left (Ne.symm hc)
      simp only [starRests, hc, if_false, List.mem_cons] at hr
      rcases hr with rfl | hr
      · exact h
      · exact ih hp hr

theorem separatorRests_append (path more : Text) :
    separatorRests (path ++ more) = (separatorRests path).map (· ++ more) ++ separatorRests more := by
  induction path with
  | nil => simp [separatorRests]
  | cons c path ih => by_cases hc : c = '/' <;> simp [separatorRests, hc, ih]

theorem globstarRests_append (path more : Text) :
    globstarRests (path ++ more) = (globstarRests path).map (· ++ more) ++ separatorRests more := by
  simp [globstarRests, separatorRests_append]

theorem nil_mem_globstarRests {path : Text} (h : Closed path) : [] ∈ globstarRests path := by
  rcases h with rfl | hl
  · simp [globstarRests]
  · obtain ⟨front, rfl⟩ := List.getLast?_eq_some_iff.mp hl
    simp [globstarRests, separatorRests_append, separatorRests]

/-! ## Constants on a longer path -/

theorem sameChar_self (caseSensitive : Bool) (c : Char) : sameChar caseSensitive c c = true := by
  simp [sameChar]

theorem fitConstant_append_self (caseSensitive : Bool) (text more : Text) :
    fitConstant caseSensitive text (text ++ more) = .consumed more := by
  induction text with
  | nil => rfl
  | cons c text ih => simpa [fitConstant, sameChar_self] using ih

theorem fitConstant_consumed_append {caseSensitive : Bool} {text path rest : Text}
    (h : fitConstant caseSensitive text path = .consumed rest) (more : Text) :
    fitConstant caseSensitive text (path ++ more) = .consumed (rest ++ more) := by
  fun_induction fitConstant caseSensitive text path with
  | case1 path =>
    obtain rfl : path = rest := by simpa using h
    rfl
  | case2 | case4 => simp at h
  | case3 e text c path hs ih => simpa [fitConstant, hs] using ih h

theorem fitConstant_mismatch_append {caseSensitive : Bool} {text path : Text}
    (h : fitConstant caseSensitive text path = .mismatch) (more : Text) :
    fitConstant caseSensitive text (path ++ more) = .mismatch := by
  fun_induction fitConstant caseSensitive text path with
  | case1 | case2 => simp at h
  | case3 e text c path hs ih => simpa [fitConstant, hs] using ih h
  | case4 e text c path hs => simp [fitConstant, hs]

/-- A constant that the path ends in is met by what is left of the constant. -/
theorem fitConstant_pathEnds_append {caseSensitive : Bool} {text path : Text}
    (h : fitConstant caseSensitive text path = .pathEnds) :
    ∃ left, left ≠ [] ∧
      ∀ more, fitConstant caseSensitive text (path ++ (left ++ more)) = .consumed more := by
  fun_induction fitConstant caseSensitive text path with
  | case1 | case4 => simp at h
  | case2 e text => exact ⟨e :: text, by simp, fitConstant_append_self caseSensitive (e :: text)⟩
  | case3 e text c path hs ih =>
    obtain ⟨left, hne, hleft⟩ := ih h
    exact ⟨left, hne, fun more => by simpa [fitConstant, hs] using hleft more⟩

theorem suffix_of_fitConstant {caseSensitive : Bool} {text path rest : Text}
    (h : fitConstant caseSensitive text path = .consumed rest) : rest <:+ path := by
  fun_induction fitConstant caseSensitive text path with
  | case1 path =>
    obtain rfl : path = rest := by simpa using h
    exact List.suffix_refl path
  | case2 | case4 => simp at h
  | case3 e text c path hs ih => exact (ih h).trans (List.suffix_cons c path)

namespace Segment

variable {caseSensitive : Bool}

/-! ## Nothing is lost -/

/-- What matches a longer path keeps the closed path it begins with alive. -/
theorem mayExtend_of_matchAll {segments : List Segment} {path rest : Text} (hc : Closed path)
    (hr : rest ≠ []) (h : matchAll caseSensitive segments (path ++ rest) = true) :
    mayExtend caseSensitive segments path = true := by
  -- What is left of a closed path is closed, whatever a segment takes; a path used up is alive.
  induction segments generalizing path with
  | nil => simp [matchAll, hr] at h
  | cons segment segments ih =>
    by_cases hp : path = []
    · simp [hp, mayExtend]
    obtain ⟨c, tail, rfl⟩ := List.exists_cons_of_ne_nil hp
    have htail : Closed tail := hc.of_suffix (List.suffix_cons c tail)
    cases segment with
    | constant text =>
      simp only [mayExtend]
      cases hf : fitConstant caseSensitive text (c :: tail) with
      | consumed left =>
        simp only [matchAll, fitConstant_consumed_append hf rest] at h
        exact ih (hc.of_suffix (suffix_of_fitConstant hf)) h
      | pathEnds => rfl
      | mismatch =>
        simp only [matchAll, fitConstant_mismatch_append hf rest] at h
        exact h
    | anyChar =>
      simp only [List.cons_append, matchAll, Bool.and_eq_true] at h
      simp only [mayExtend, Bool.and_eq_true]
      exact ⟨h.1, ih htail h.2⟩
    | bracket b =>
      simp only [List.cons_append, matchAll, Bool.and_eq_true] at h
      simp only [mayExtend, Bool.and_eq_true]
      exact ⟨h.1, ih htail h.2⟩
    | star =>
      have hs : '/' ∈ c :: tail := hc.mem hp
      simp only [matchAll] at h
      split at h
      · -- a last star would have to reach over the separator
        have hm : '/' ∈ (c :: tail) ++ rest := List.mem_append_left rest hs
        rw [List.contains_iff_mem.mpr hm] at h
        simp at h
      · rw [starRests_append hs, List.any_map, List.any_eq_true] at h
        obtain ⟨left, hl, hm⟩ := h
        simp only [mayExtend]
        exact List.any_eq_true.mpr ⟨left, hl, ih (hc.of_suffix (suffix_of_mem_starRests hl)) hm⟩
    | globstar =>
      simp only [mayExtend, Bool.or_eq_true]
      by_cases hsegs : segments = []
      · simp [hsegs]
      right
      simp only [matchAll, Bool.or_eq_true] at h
      have h := h.resolve_left (by simpa using hsegs)
      rw [globstarRests_append, List.any_append, List.any_map, Bool.or_eq_true] at h
      rcases h with h | _
      · obtain ⟨left, hl, hm⟩ := List.any_eq_true.mp h
        exact List.any_eq_true.mpr ⟨left, hl, ih (hc.of_suffix (suffix_of_mem_globstarRests hl)) hm⟩
      · -- the globstar takes all of the path and goes on beyond it
        exact List.any_eq_true.mpr ⟨[], nil_mem_globstarRests hc, by simpa [mayExtend] using hsegs⟩

theorem mayExtend_of_append {segments : List Segment} {path rest : Text} (hc : Closed path)
    (hr : rest ≠ []) (h : mayExtend caseSensitive segments (path ++ rest) = true) :
    mayExtend caseSensitive segments path = true := by
  induction segments generalizing path with
  | nil =>
    obtain ⟨c, tail, hct⟩ := List.exists_cons_of_ne_nil (List.append_ne_nil_of_right_ne_nil path hr)
    simp [hct, mayExtend] at h
  | cons segment segments ih =>
    by_cases hp : path = []
    · simp [hp, mayExtend]
    obtain ⟨c, tail, rfl⟩ := List.exists_cons_of_ne_nil hp
    have htail : Closed tail := hc.of_suffix (List.suffix_cons c tail)
    cases segment with
    | constant text =>
      simp only [mayExtend]
      cases hf : fitConstant caseSensitive text (c :: tail) with
      | consumed left =>
        simp only [List.cons_append, mayExtend] at h
        rw [← List.cons_append, fitConstant_consumed_append hf rest] at h
        exact ih (hc.of_suffix (suffix_of_fitConstant hf)) h
      | pathEnds => rfl
      | mismatch =>
        simp only [List.cons_append, mayExtend] at h
        rw [← List.cons_append, fitConstant_mismatch_append hf rest] at h
        exact h
    | anyChar =>
      simp only [List.cons_append, mayExtend, Bool.and_eq_true] at h ⊢
      exact ⟨h.1, ih htail h.2⟩
    | bracket b =>
      simp only [List.cons_append, mayExtend, Bool.and_eq_true] at h ⊢
      exact ⟨h.1, ih htail h.2⟩
    | star =>
      simp only [List.cons_append, mayExtend] at h ⊢
      rw [← List.cons_append, starRests_append (hc.mem hp), List.any_map, List.any_eq_true] at h
      obtain ⟨left, hl, hm⟩ := h
      exact List.any_eq_true.mpr ⟨left, hl, ih (hc.of_suffix (suffix_of_mem_starRests hl)) hm⟩
    | globstar =>
      simp only [List.cons_append, mayExtend, Bool.or_eq_true] at h ⊢
      by_cases hsegs : segments = []
      · simp [hsegs]
      right
      have h := h.resolve_left (by simpa using hsegs)
      rw [← List.cons_append, globstarRests_append, List.any_append, List.any_map,
        Bool.or_eq_true] at h
      rcases h with h | _
      · obtain ⟨left, hl, hm⟩ := List.any_eq_true.mp h
        exact List.any_eq_true.mpr ⟨left, hl, ih (hc.of_suffix (suffix_of_mem_globstarRests hl)) hm⟩
      · -- The globstar reaches beyond the path: then it is alive with nothing left of it.
        exact List.any_eq_true.mpr ⟨[], nil_mem_globstarRests hc, by simpa [mayExtend] using hsegs⟩

/-! ## Nothing is entered in vain -/

/-- The segment matches some text that is not empty. -/
def Fillable (caseSensitive : Bool) : Segment → Prop
  | .constant text => text ≠ []
  | .bracket b => ∃ c, b.accepts caseSensitive c = true
  | .anyChar | .star | .globstar => True

theorem exists_matchAll {segments : List Segment} (hf : ∀ s ∈ segments, Fillable caseSensitive s) :
    ∃ text, (segments ≠ [] → text ≠ []) ∧ matchAll caseSensitive segments text = true := by
  induction segments with
  | nil => exact ⟨[], by simp, rfl⟩
  | cons segment segments ih =>
    obtain ⟨text, hne, hm⟩ := ih fun s hs => hf s (List.mem_cons_of_mem segment hs)
    have hfill := hf segment List.mem_cons_self
    cases segment with
    | constant start =>
      exact ⟨start ++ text, fun _ => List.append_ne_nil_of_left_ne_nil hfill text,
        by simpa [matchAll, fitConstant_append_self] using hm⟩
    | anyChar => exact ⟨'a' :: text, by simp, by simpa [matchAll] using hm⟩
    | bracket b =>
      obtain ⟨c, hc⟩ := hfill
      exact ⟨c :: text, by simp, by simpa [matchAll, hc] using hm⟩
    | star =>
      by_cases hsegs : segments = []
      · exact ⟨['a'], by simp, by simp [matchAll, hsegs]⟩
      · refine ⟨text, fun _ => hne hsegs, ?_⟩
        simp only [matchAll, List.isEmpty_iff, hsegs, if_false]
        exact List.any_eq_true.mpr ⟨text, mem_starRests_self text, hm⟩
    | globstar =>
      by_cases hsegs : segments = []
      · exact ⟨['a'], by simp, by simp [matchAll, hsegs]⟩
      · refine ⟨text, fun _ => hne hsegs, ?_⟩
        simp only [matchAll, Bool.or_eq_true]
        exact .inr (List.any_eq_true.mpr ⟨text, List.mem_cons_self, hm⟩)

/-- A closed path that is kept alive begins a longer path that matches. -/
theorem exists_matchAll_of_mayExtend {segments : List Segment} {path : Text}
    (hf : ∀ s ∈ segments, Fillable caseSensitive s) (hc : Closed path)
    (h : mayExtend caseSensitive segments path = true) :
    ∃ rest, rest ≠ [] ∧ matchAll caseSensitive segments (path ++ rest) = true := by
  induction segments generalizing path with
  | nil => cases path <;> simp [mayExtend] at h
  | cons segment segments ih =>
    by_cases hp : path = []
    · obtain ⟨text, hne, hm⟩ := exists_matchAll hf
      exact ⟨text, hne (by simp), by simpa [hp] using hm⟩
    have ih := fun {left : Text} => @ih left fun s hs => hf s (List.mem_cons_of_mem segment hs)
    obtain ⟨c, tail, rfl⟩ := List.exists_cons_of_ne_nil hp
    have htail : Closed tail := hc.of_suffix (List.suffix_cons c tail)
    cases segment with
    | constant text =>
      simp only [mayExtend] at h
      cases hfit : fitConstant caseSensitive text (c :: tail) with
      | consumed left =>
        simp only [hfit] at h
        obtain ⟨rest, hr, hm⟩ := ih (hc.of_suffix (suffix_of_fitConstant hfit)) h
        exact ⟨rest, hr, by simpa only [matchAll, fitConstant_consumed_append hfit rest] using hm⟩
      | pathEnds =>
        -- The path ends within the constant: the rest of it is what the longer path goes on with.
        obtain ⟨left, hl, hleft⟩ := fitConstant_pathEnds_append hfit
        obtain ⟨text', -, hm⟩ := exists_matchAll fun s hs => hf s (List.mem_cons_of_mem _ hs)
        exact ⟨left ++ text', List.append_ne_nil_of_left_ne_nil hl text',
          by simpa only [matchAll, hleft text'] using hm⟩
      | mismatch => simp [hfit] at h
    | anyChar =>
      simp only [mayExtend, Bool.and_eq_true] at h
      obtain ⟨rest, hr, hm⟩ := ih htail h.2
      refine ⟨rest, hr, ?_⟩
      simp only [List.cons_append, matchAll, Bool.and_eq_true]
      exact ⟨h.1, hm⟩
    | bracket b =>
      simp only [mayExtend, Bool.and_eq_true] at h
      obtain ⟨rest, hr, hm⟩ := ih htail h.2
      refine ⟨rest, hr, ?_⟩
      simp only [List.cons_append, matchAll, Bool.and_eq_true]
      exact ⟨h.1, hm⟩
    | star =>
      have hs : '/' ∈ c :: tail := hc.mem hp
      obtain ⟨left, hl, hm⟩ := List.any_eq_true.mp (by simpa only [mayExtend] using h)
      -- A star cannot have taken the separator at the end.
      have hleft : left ≠ [] := List.ne_nil_of_mem (mem_of_mem_starRests hs hl)
      have hsegs : segments ≠ [] := by
        rintro rfl
        obtain ⟨a, as, rfl⟩ := List.exists_cons_of_ne_nil hleft
        simp [mayExtend] at hm
      obtain ⟨rest, hr, hm⟩ := ih (hc.of_suffix (suffix_of_mem_starRests hl)) hm
      refine ⟨rest, hr, ?_⟩
      simp only [matchAll, List.isEmpty_iff, hsegs, if_false]
      rw [starRests_append hs, List.any_map]
      exact List.any_eq_true.mpr ⟨left, hl, hm⟩
    | globstar =>
      by_cases hsegs : segments = []
      · exact ⟨['a'], by simp, by simp [matchAll, hsegs]⟩
      simp only [mayExtend, Bool.or_eq_true] at h
      obtain ⟨left, hl, hm⟩ := List.any_eq_true.mp (h.resolve_left (by simpa using hsegs))
      obtain ⟨rest, hr, hm⟩ := ih (hc.of_suffix (suffix_of_mem_globstarRests hl)) hm
      refine ⟨rest, hr, ?_⟩
      simp only [matchAll, Bool.or_eq_true]
      right
      rw [globstarRests_append, List.any_append, List.any_map, Bool.or_eq_true]
      exact .inl (List.any_eq_true.mpr ⟨left, hl, hm⟩)

/-! ## Constants that were read -/

theorem constant_ne_nil_of_readStars {d : Dialect} {pos : Nat} {previous : Option Char}
    {extra taken : Nat} {after text : Text}
    (h : readStars d pos previous extra after = .ok (.constant text, taken)) : text ≠ [] := by
  grind [readStars]

theorem constant_ne_nil_of_read {d : Dialect} {pos : Nat} {previous : Option Char} {c : Char}
    {rest text : Text} {taken : Nat}
    (h : read d pos previous c rest = .ok (.constant text, taken)) : text ≠ [] := by
  unfold read at h
  repeat' split at h
  · exact constant_ne_nil_of_readStars h
  · simp at h
  · obtain ⟨b, -, h⟩ := bind_eq_ok_iff.mp h
    simp at h
  · simp at h
  · simp at h
  · obtain ⟨meant, -, h⟩ := bind_eq_ok_iff.mp h
    cases h
    simp

theorem constant_ne_nil_of_readAll {d : Dialect} {pos : Nat} {previous : Option Char} {skip : Nat}
    {source : Text} {segments : List Segment} (h : readAll d pos previous skip source = .ok segments) :
    ∀ text, .constant text ∈ segments → text ≠ [] := by
  fun_induction readAll d pos previous skip source generalizing segments with
  | case1 => simp_all
  | case2 pos _ skip c rest ih => exact ih h
  | case3 pos previous c rest ih =>
    obtain ⟨s, extra, others, hread, hothers, rfl⟩ := readAll_cons_eq_ok_iff.mp h
    intro text hm
    obtain rfl | hm := List.mem_cons.mp hm
    · exact constant_ne_nil_of_read hread
    · exact ih extra hothers text hm

theorem constant_ne_nil_of_merge {segments : List Segment}
    (h : ∀ text, .constant text ∈ segments → text ≠ []) :
    ∀ text, .constant text ∈ merge segments → text ≠ [] := by
  induction segments with
  | nil => simp [merge]
  | cons segment segments ih =>
    have ih := ih fun text ht => h text (List.mem_cons_of_mem segment ht)
    have hfirst := fun text (e : segment = .constant text) => h text (e ▸ List.mem_cons_self)
    intro text hm
    rw [merge_cons] at hm
    unfold cons at hm
    split at hm
    · next a b rest hrest =>
      rcases List.mem_cons.mp hm with e | hm
      · rw [constant.inj e]
        exact List.append_ne_nil_of_left_ne_nil (hfirst a rfl) b
      · exact ih text (hrest ▸ List.mem_cons_of_mem _ hm)
    · next rest hrest => exact ih text (hrest ▸ hm)
    · next rest hrest => exact ih text (hrest ▸ hm)
    · rcases List.mem_cons.mp hm with e | hm
      · exact hfirst text e.symm
      · exact ih text hm

end Segment

namespace Pattern

theorem constant_ne_nil {d : Dialect} {raw : Text} {p : Pattern} (h : read d raw = .ok p) {text : Text}
    (ht : .constant text ∈ p.segments) : text ≠ [] := by
  obtain ⟨-, segments, hs, rfl⟩ := read_eq_ok_iff.mp h
  exact Segment.constant_ne_nil_of_merge (Segment.constant_ne_nil_of_readAll hs) text ht

/-- A pattern that rules out what is below a directory matches nothing below it. -/
theorem accepts_eq_false_of_prune {p : Pattern} {dir : Text} (h : (p.verdict dir).prune = true)
    {rest : Text} (hr : rest ≠ []) : p.accepts (dir ++ '/' :: rest) = false := by
  rw [← Bool.not_eq_true]
  intro ha
  rw [accepts, List.append_cons] at ha
  have hm := Segment.mayExtend_of_matchAll (closed_append_separator dir) hr ha
  simp [verdict, hm] at h

/-- **Pruning is exact.** What is below a directory is ruled out only if nothing there matches; and if
no bracket of the pattern is empty, it is ruled out whenever nothing there matches. -/
theorem prune_exact {d : Dialect} {raw : Text} {p : Pattern} (h : read d raw = .ok p) (dir : Text) :
    ((p.verdict dir).prune = true → ∀ rest, rest ≠ [] → p.accepts (dir ++ '/' :: rest) = false) ∧
    ((∀ b, .bracket b ∈ p.segments → ∃ c, b.accepts p.dialect.caseSensitive c = true) →
      (p.verdict dir).prune = false →
        ∃ rest, rest ≠ [] ∧ p.accepts (dir ++ '/' :: rest) = true) := by
  refine ⟨fun hprune rest hr => accepts_eq_false_of_prune hprune hr, ?_⟩
  intro hb hprune
  have hfill : ∀ s ∈ p.segments, Segment.Fillable p.dialect.caseSensitive s := by
    intro s hs
    cases s with
    | constant text => exact constant_ne_nil h hs
    | bracket b => exact hb b hs
    | anyChar | star | globstar => trivial
  have halive : Segment.mayExtend p.dialect.caseSensitive p.segments (dir ++ ['/']) = true := by
    simpa [verdict] using hprune
  obtain ⟨rest, hr, hm⟩ :=
    Segment.exists_matchAll_of_mayExtend hfill (closed_append_separator dir) halive
  exact ⟨rest, hr, by rwa [accepts, List.append_cons]⟩

theorem prune_exact_around_bracket :
    ∃ p, read {} "src/[ab]*/**/x?".toList = .ok p ∧
      (p.verdict "lib".toList).prune = true ∧
      (∀ rest, rest ≠ [] → p.accepts ("lib".toList ++ '/' :: rest) = false) ∧
      (∀ b, .bracket b ∈ p.segments → ∃ c, b.accepts p.dialect.caseSensitive c = true) ∧
      (p.verdict "src/a1".toList).prune = false ∧
      ∃ rest, rest ≠ [] ∧ p.accepts ("src/a1".toList ++ '/' :: rest) = true := by
  have hr : read {} "src/[ab]*/**/x?".toList = .ok {
      source := "src/[ab]*/**/x?".toList
      segments := [.constant "src/".toList, .bracket ⟨[('a', 'a'), ('b', 'b')], [], false⟩, .star,
        .constant "/".toList, .globstar, .constant "x".toList, .anyChar]
      dialect := {} } := by
    rfl
  have hlib := prune_exact hr "lib".toList
  have hsrc := prune_exact hr "src/a1".toList
  refine ⟨_, hr, by decide, hlib.1 (by decide), ?_, by decide, hsrc.2 ?_ (by decide)⟩ <;>
  · intro b hb
    refine ⟨'a', ?_⟩
    simp only [List.mem_cons, reduceCtorEq, false_or, or_false, List.not_mem_nil] at hb
    rw [Segment.bracket.inj hb]
    decide

end Pattern

end TreeGlob
