import TreeGlob.Proofs.Pattern.Groups
import TreeGlob.Selection

/-!
When a selection can be made of globs, and what is told where it cannot.

* `mapM_eq_error` says that reading one text after another fails by the first that cannot be read.
* `Selection.compileAll_standingExcludes` is what the standing excludes read as. They are read in
  the caller's dialect, so they cannot be read if that has no globstars.
* **`Selection.compile_outcome`**: a selection fails by the first of the caller's globs that cannot
  be read, included ones first; if all can be read it still fails, by the standing excludes, in a
  dialect without globstars.
-/
namespace TreeGlob

/-- The first of several that is unlike the others is the very first, or comes after that. -/
theorem exists_split_cons {α : Type} {alike unlike : α → Prop} {x : α} {xs : List α} :
    (∃ before y after, x :: xs = before ++ y :: after ∧ (∀ z ∈ before, alike z) ∧ unlike y) ↔
      unlike x ∨ alike x ∧
        ∃ before y after, xs = before ++ y :: after ∧ (∀ z ∈ before, alike z) ∧ unlike y := by
  constructor
  · intro h
    obtain ⟨before, y, after, hxs, hbefore, hy⟩ := h
    cases before with
    | nil => exact .inl ((List.cons.inj hxs).1 ▸ hy)
    | cons z before =>
      obtain ⟨rfl, hrest⟩ := List.cons.inj hxs
      obtain ⟨hx, hbefore⟩ := List.forall_mem_cons.mp hbefore
      exact .inr ⟨hx, before, y, after, hrest, hbefore, hy⟩
  · intro h
    cases h with
    | inl hx => exact ⟨[], x, xs, rfl, List.forall_mem_nil _, hx⟩
    | inr h =>
      obtain ⟨hx, before, y, after, hxs, hbefore, hy⟩ := h
      refine ⟨x :: before, y, after, by rw [hxs, List.cons_append], ?_, hy⟩
      exact List.forall_mem_cons.mpr ⟨hx, hbefore⟩

theorem mapM_eq_error {α β ε : Type} {f : α → Except ε β} {xs : List α} {e : ε} :
    xs.mapM f = .error e ↔ ∃ before x after, xs = before ++ x :: after ∧
      (∀ y ∈ before, ∃ z, f y = .ok z) ∧ f x = .error e := by
  induction xs with
  | nil => simp [pure, Except.pure]
  | cons x xs ih =>
    rw [exists_split_cons, ← ih, List.mapM_cons, bind_eq_error_iff]
    refine or_congr_right ?_
    simp only [bind_eq_error_iff, pure, Except.pure, reduceCtorEq, and_false, exists_false,
      or_false]
    exact exists_and_right

namespace Pattern

variable {d : Dialect} {raws : List Text} {e : PatternError}

/-- The text can be read, as a number of patterns. -/
def Readable (d : Dialect) (raw : Text) : Prop := ∃ patterns, Pattern.compile d raw = .ok patterns

/-- Not all the texts can be read, and this is what the first of those that cannot fails with. -/
def FirstError (d : Dialect) (raws : List Text) (e : PatternError) : Prop :=
  ∃ before raw after, raws = before ++ raw :: after ∧ (∀ other ∈ before, Readable d other) ∧
    Pattern.compile d raw = .error e

theorem compileAll_eq_error : compileAll d raws = .error e ↔ FirstError d raws e := by
  rw [compileAll, bind_eq_error_iff, mapM_eq_error]
  simp only [reduceCtorEq, and_false, exists_false, or_false]
  exact Iff.rfl

theorem exists_compileAll_eq_ok :
    (∃ patterns, compileAll d raws = .ok patterns) ↔ ∀ raw ∈ raws, Readable d raw := by
  induction raws with
  | nil => exact iff_of_true ⟨[], rfl⟩ (List.forall_mem_nil _)
  | cons raw raws ih =>
    rw [List.forall_mem_cons, ← ih]
    simp only [Readable, compileAll, List.mapM_cons, bind_eq_ok_iff, pure, Except.pure]
    simp

theorem compileAll_append (d : Dialect) (raws more : List Text) :
    compileAll d (raws ++ more) =
      compileAll d raws >>= fun patterns => compileAll d more >>= fun others =>
        .ok (patterns ++ others) := by
  simp only [compileAll, List.mapM_append]
  cases raws.mapM (Pattern.compile d) with
  | error why => rfl
  | ok compiled =>
    cases more.mapM (Pattern.compile d) with
    | error why => rfl
    | ok others => exact congrArg Except.ok List.flatten_append

end Pattern

namespace Selection

/-! ## The standing excludes -/

theorem compile_of_mem_standingExcludes {d : Dialect} {raw : Text} (h : raw ∈ standingExcludes) :
    Pattern.compile d raw = [raw].mapM (Pattern.read d) := by
  have hgroup : Brace.firstGroup d.escaping raw = .ok none := by
    generalize d.escaping = escaping
    rcases List.mem_pair.mp h with rfl | rfl <;> cases escaping <;> rfl
  rw [Pattern.compile, Brace.expand_of_firstGroup hgroup]
  rfl

theorem compileAll_standingExcludes (d : Dialect) : Pattern.compileAll d standingExcludes =
    if d.pathWildcards then .ok [
      ⟨"**/.DS_Store".toList, [.globstar, .constant ".DS_Store".toList], d⟩,
      ⟨"**/.gitkeep".toList, [.globstar, .constant ".gitkeep".toList], d⟩]
    else .error (.pathWildcardNotAllowed 0) := by
  simp only [Pattern.compileAll, standingExcludes, List.mapM_cons, List.mapM_nil,
    compile_of_mem_standingExcludes (List.mem_cons_self ..),
    compile_of_mem_standingExcludes (.tail _ (List.mem_cons_self ..))]
  rcases d with ⟨_ | _, _ | _, _ | _⟩ <;> rfl

/-! ## What a selection is made of -/

variable (d : Dialect) (included excluded : List Text) (skipHidden : Bool)

theorem exists_ofPatterns_eq_ok (wanted unwanted : List Pattern) :
    (∃ s, ofPatterns d wanted unwanted skipHidden = .ok s) ↔ d.pathWildcards = true := by
  rw [ofPatterns, compileAll_standingExcludes]
  cases d.pathWildcards with
  | false => simp [bind, Except.bind]
  | true => simp [bind, Except.bind]

theorem ofPatterns_eq_error {wanted unwanted : List Pattern} {e : PatternError} :
    ofPatterns d wanted unwanted skipHidden = .error e ↔
      d.pathWildcards = false ∧ e = .pathWildcardNotAllowed 0 := by
  rw [ofPatterns, compileAll_standingExcludes]
  cases d.pathWildcards with
  | false => simp [bind, Except.bind, eq_comm]
  | true => simp [bind, Except.bind]

theorem exists_compile_eq_ok : (∃ s, compile d included excluded skipHidden = .ok s) ↔
    (∀ raw ∈ included ++ excluded, Pattern.Readable d raw) ∧ d.pathWildcards = true := by
  rw [← Pattern.exists_compileAll_eq_ok, Pattern.compileAll_append, compile]
  cases Pattern.compileAll d included with
  | error why => simp [bind, Except.bind]
  | ok wanted =>
    cases Pattern.compileAll d excluded with
    | error why => simp [bind, Except.bind]
    | ok unwanted =>
      simpa [bind, Except.bind] using exists_ofPatterns_eq_ok d skipHidden wanted unwanted

theorem compile_eq_error {e : PatternError} : compile d included excluded skipHidden = .error e ↔
    Pattern.FirstError d (included ++ excluded) e ∨
      (∀ raw ∈ included ++ excluded, Pattern.Readable d raw) ∧ d.pathWildcards = false ∧
        e = .pathWildcardNotAllowed 0 := by
  rw [← Pattern.compileAll_eq_error, ← Pattern.exists_compileAll_eq_ok, Pattern.compileAll_append,
    compile]
  cases Pattern.compileAll d included with
  | error why => simp [bind, Except.bind]
  | ok wanted =>
    cases Pattern.compileAll d excluded with
    | error why => simp [bind, Except.bind]
    | ok unwanted => simpa [bind, Except.bind] using ofPatterns_eq_error d skipHidden

/-- **A selection fails by the first of the caller's globs that cannot be read. If all of them can
be read it still fails, by the standing excludes, in a dialect without globstars; otherwise it
succeeds. One of patterns that are read already fails in just these dialects.** -/
theorem compile_outcome :
    ((∃ s, compile d included excluded skipHidden = .ok s) ↔
      (∀ raw ∈ included ++ excluded, Pattern.Readable d raw) ∧ d.pathWildcards = true) ∧
    (∀ e, compile d included excluded skipHidden = .error e ↔
      Pattern.FirstError d (included ++ excluded) e ∨
        (∀ raw ∈ included ++ excluded, Pattern.Readable d raw) ∧ d.pathWildcards = false ∧
          e = .pathWildcardNotAllowed 0) ∧
    ∀ wanted unwanted, (∃ s, ofPatterns d wanted unwanted skipHidden = .ok s) ↔
      d.pathWildcards = true :=
  ⟨exists_compile_eq_ok d included excluded skipHidden,
    fun _ => compile_eq_error d included excluded skipHidden,
    exists_ofPatterns_eq_ok d skipHidden⟩

/-- The caller's one glob can be read in a dialect without globstars, and the selection fails. -/
theorem compile_outcome_without_globstars :
    (∀ raw ∈ ["a".toList] ++ [], Pattern.Readable { pathWildcards := false } raw) ∧
      ¬ ∃ s, compile { pathWildcards := false } ["a".toList] [] true = .ok s := by
  refine ⟨?_, ?_⟩
  · intro raw hraw
    rw [List.mem_singleton.mp hraw]
    exact ⟨[⟨"a".toList, [.constant "a".toList], { pathWildcards := false }⟩], by decide +kernel⟩
  · intro h
    exact Bool.false_ne_true ((compile_outcome _ _ _ _).1.mp h).2

end Selection

end TreeGlob
