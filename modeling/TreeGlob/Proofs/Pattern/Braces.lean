import TreeGlob.Proofs.Pattern.Choices

/-!
The braces that the search for groups sees, and how it counts them.

* `braces` are the unescaped braces of a text outside of bracket expressions, in order. A text that is
  `Clear` lets what comes behind it be seen, and `exists_of_braces` says that what is seen stands
  somewhere in the text.
* `exists_opening`, `exists_closing` and `exists_unclosed` find partners among braces by counting. What
  may stand between partners is told by `closes`.
* `Scan.step_cases` is all that the search does at a character. `Scan.run_seen` says that the search
  counts the groups that are open, `Scan.exists_of_run_error` what stops it, and `Scan.pending_of_run`
  what it remembers of the first brace.
-/
namespace TreeGlob

namespace Brace

/-! ## Braces that are seen -/

/-- The braces among such characters that stand where the search takes itself to be outside of bracket
expressions. -/
def standing : (within : Bool) → Text → Text
  | _, [] => []
  | true, c :: rest => standing (c ≠ ']') rest
  | false, c :: rest =>
    if c = '{' ∨ c = '}' then c :: standing false rest else standing (c = '[') rest

/-- The unescaped braces of a text that stand outside of bracket expressions. -/
def braces (escaping : Bool) (t : Text) : Text := standing false (unescaped escaping t)

/-- The text ends neither in an escape nor in a bracket expression: what comes behind it is seen. -/
structure Clear (escaping : Bool) (t : Text) : Prop where
  whole : Whole escaping t
  outside : bracketed false (unescaped escaping t) = false

section Seen

variable {escaping within escaped : Bool} {c : Char} {t u x y : Text}

theorem standing_append (within : Bool) (t u : Text) :
    standing within (t ++ u) = standing within t ++ standing (bracketed within t) u := by
  induction t generalizing within with
  | nil => cases within <;> rfl
  | cons c t ih =>
    cases within with
    | true => exact ih _
    | false =>
      by_cases hc : c = '{' ∨ c = '}'
      · have hout : (c = '[') = False := by
          rw [eq_iff_iff, iff_false]
          rintro rfl
          simp at hc
        simp [standing, bracketed, hc, hout, ih]
      · simp [standing, bracketed, hc, ih]

theorem standing_eq_nil_iff : standing within t = [] ↔ sheltered within t = true := by
  induction t generalizing within with
  | nil => simp [standing, sheltered]
  | cons c t ih =>
    cases within with
    | true => exact ih
    | false =>
      rw [standing, sheltered]
      split
      · next hc =>
        refine iff_of_false (by simp) ?_
        obtain rfl | rfl := hc <;> simp
      · next hc =>
        obtain ⟨hopen, hclose⟩ := not_or.mp hc
        simp [hopen, hclose, ih]

theorem brace_of_mem_standing (h : c ∈ standing within t) : c = '{' ∨ c = '}' := by
  induction t generalizing within with
  | nil => simp [standing] at h
  | cons b t ih =>
    cases within with
    | true => exact ih h
    | false =>
      rw [standing] at h
      split at h
      · next hb =>
        obtain rfl | h := List.mem_cons.mp h
        · exact hb
        · exact ih h
      · exact ih h

theorem clear_nil : Clear escaping [] := ⟨whole_nil, rfl⟩

theorem Clear.append (ht : Clear escaping t) (hu : Clear escaping u) : Clear escaping (t ++ u) where
  whole := ht.whole.append hu.whole
  outside := by rw [unescaped_append ht.whole, bracketed_append, ht.outside, hu.outside]

theorem Clear.of_append (ht : Clear escaping t) (h : Clear escaping (t ++ u)) : Clear escaping u where
  whole := by
    have hwhole := h.whole
    rwa [Whole, escapesNext_append, ht.whole] at hwhole
  outside := by
    have hout := h.outside
    rwa [unescaped_append ht.whole, bracketed_append, ht.outside] at hout

theorem braces_append (ht : Clear escaping t) (u : Text) :
    braces escaping (t ++ u) = braces escaping t ++ braces escaping u := by
  rw [braces, unescaped_append ht.whole, standing_append, ht.outside]
  rfl

theorem unescaped_brace (hc : c = '{' ∨ c = '}') (t : Text) :
    unescaped escaping (c :: t) = c :: unescaped escaping t := by
  apply unescaped_cons
  obtain rfl | rfl := hc <;> simp

theorem braces_cons (hc : c = '{' ∨ c = '}') (t : Text) :
    braces escaping (c :: t) = c :: braces escaping t := by
  rw [braces, unescaped_brace hc, standing, if_pos hc]
  rfl

theorem clear_brace (hc : c = '{' ∨ c = '}') : Clear escaping [c] := by
  obtain rfl | rfl := hc
  · exact ⟨whole_singleton (by simp), by rw [unescaped_brace (.inl rfl)]; rfl⟩
  · exact ⟨whole_singleton (by simp), by rw [unescaped_brace (.inr rfl)]; rfl⟩

theorem exists_of_standing (h : standing within (unescapedFrom escaping escaped t) = x ++ c :: y) :
    ∃ front back, t = front ++ c :: back ∧ escapesNext escaping escaped front = false ∧
      bracketed within (unescapedFrom escaping escaped front) = false ∧
      standing within (unescapedFrom escaping escaped front) = x ∧ braces escaping back = y := by
  induction t generalizing within escaped x with
  | nil => cases escaped <;> simp [unescapedFrom, standing] at h
  | cons b t ih =>
    cases escaped with
    | true =>
      obtain ⟨front, back, rfl, hwhole, hout, hx, hy⟩ := ih h
      exact ⟨b :: front, back, rfl, hwhole, hout, hx, hy⟩
    | false =>
      rw [unescapedFrom] at h
      split at h
      · next hb =>
        obtain ⟨front, back, rfl, hwhole, hout, hx, hy⟩ := ih h
        refine ⟨b :: front, back, rfl, ?_, ?_, ?_, hy⟩
        · rwa [escapesNext, hb]
        · rwa [unescapedFrom, if_pos hb]
        · rwa [unescapedFrom, if_pos hb]
      · next hb =>
        -- The character is seen; it is the brace, or it is passed over.
        have hpass : ∀ {x'}, standing (bracketed within [b]) (unescapedFrom escaping false t) =
            x' ++ c :: y → x = standing within [b] ++ x' → ∃ front back, b :: t = front ++ c :: back ∧
              escapesNext escaping false front = false ∧
              bracketed within (unescapedFrom escaping false front) = false ∧
              standing within (unescapedFrom escaping false front) = x ∧
              braces escaping back = y := by
          intro x' htail hx
          obtain ⟨front, back, rfl, hwhole, hout, rfl, hy⟩ := ih htail
          have hplain : (escaping && b = '\\') = false := by simpa using hb
          refine ⟨b :: front, back, rfl, ?_, ?_, ?_, hy⟩
          · rwa [escapesNext, hplain]
          · rw [unescapedFrom, if_neg hb, ← List.singleton_append, bracketed_append, hout]
          · rw [unescapedFrom, if_neg hb, ← List.singleton_append, standing_append, hx]
        rw [← List.singleton_append, standing_append] at h
        by_cases hseen : within = false ∧ (b = '{' ∨ b = '}')
        · obtain ⟨rfl, hbrace⟩ := hseen
          have hone : standing false [b] = [b] := by rw [standing, if_pos hbrace]; rfl
          have hout : bracketed false [b] = false := by
            obtain rfl | rfl := hbrace <;> rfl
          cases x with
          | nil =>
            rw [hone, hout] at h
            obtain ⟨rfl, hy⟩ := List.cons.inj h
            exact ⟨[], t, rfl, rfl, rfl, rfl, hy⟩
          | cons a x =>
            rw [hone] at h
            obtain ⟨rfl, htail⟩ := List.cons.inj h
            exact hpass htail (by rw [hone]; rfl)
        · have hnone : standing within [b] = [] := by
            cases within with
            | true => rfl
            | false =>
              rw [standing, if_neg fun hbrace => hseen ⟨rfl, hbrace⟩]
              rfl
          rw [hnone] at h
          exact hpass h (by rw [hnone]; rfl)

theorem exists_of_braces (h : braces escaping t = x ++ c :: y) :
    ∃ front back, t = front ++ c :: back ∧ Clear escaping front ∧ braces escaping front = x ∧
      braces escaping back = y := by
  obtain ⟨front, back, ht, hwhole, hout, hx, hy⟩ := exists_of_standing h
  exact ⟨front, back, ht, ⟨hwhole, hout⟩, hx, hy⟩

end Seen

/-! ## Partners among braces -/

section Partners

variable {w x y : Text} {k : Nat}

/-- Reading from the right, an opening brace that closing braces do not account for has none behind
it. -/
theorem exists_opening_append (hy : closes k y = true) (h : w.count '}' + k < w.count '{') :
    ∃ front inside, w ++ y = front ++ '{' :: inside ∧ closes 0 inside = true := by
  induction w using List.reverseRecOn generalizing k y with
  | nil => simp at h
  | append_singleton w c ih =>
    rw [List.append_assoc, List.singleton_append]
    simp only [List.count_append, List.count_cons, List.count_nil] at h
    by_cases hopen : c = '{'
    · subst hopen
      cases k with
      | zero => exact ⟨w, y, rfl, hy⟩
      | succ k =>
        apply ih (k := k)
        · rwa [closes, if_pos rfl]
        · simp at h
          omega
    by_cases hclose : c = '}'
    · subst hclose
      apply ih (k := k + 1)
      · rw [closes, if_neg hopen, if_pos rfl]
        simpa using hy
      · simp at h
        omega
    · apply ih (k := k)
      · rwa [closes, if_neg hopen, if_neg hclose]
      · simpa [hopen, hclose] using h

theorem exists_opening (h : w.count '}' < w.count '{') :
    ∃ front inside, w = front ++ '{' :: inside ∧ closes 0 inside = true := by
  have hnil : closes 0 [] = true := rfl
  obtain ⟨front, inside, hw, hclosed⟩ := exists_opening_append (k := 0) hnil h
  exact ⟨front, inside, by rwa [List.append_nil] at hw, hclosed⟩

/-- If there are more closing braces than opening ones, and `k` earlier ones, at some place, then
everything in front of some closing brace closes those. -/
theorem exists_closing (hx : x <+: w) (h : k + x.count '{' < x.count '}') :
    ∃ inside back, w = inside ++ '}' :: back ∧ closes k inside = true := by
  induction w generalizing k x with
  | nil =>
    rw [List.prefix_nil.mp hx] at h
    simp at h
  | cons c w ih =>
    cases x with
    | nil => simp at h
    | cons b x =>
      obtain ⟨rfl, htail⟩ := List.cons_prefix_cons.mp hx
      simp only [List.count_cons] at h
      by_cases hopen : b = '{'
      · subst hopen
        obtain ⟨inside, back, rfl, hclosed⟩ := ih (k := k + 1) htail (by simp at h; omega)
        refine ⟨'{' :: inside, back, rfl, ?_⟩
        rwa [closes, if_pos rfl]
      by_cases hclose : b = '}'
      · subst hclose
        cases k with
        | zero => exact ⟨[], w, rfl, rfl⟩
        | succ k =>
          obtain ⟨inside, back, rfl, hclosed⟩ := ih (k := k) htail (by simp at h; omega)
          refine ⟨'}' :: inside, back, rfl, ?_⟩
          rw [closes, if_neg hopen, if_pos rfl]
          simpa using hclosed
      · obtain ⟨inside, back, rfl, hclosed⟩ := ih htail (by simpa [hopen, hclose] using h)
        refine ⟨b :: inside, back, rfl, ?_⟩
        rwa [closes, if_neg hopen, if_neg hclose]

theorem exists_unclosed (h : w.count '}' < w.count '{') : ∃ front behind, w = front ++ '{' :: behind ∧
    ∀ inside back, behind = inside ++ '}' :: back → closes 0 inside = false := by
  induction hn : w.length using Nat.strong_induction_on generalizing w
  next n ih =>
  cases w with
  | nil => simp at h
  | cons c w =>
    simp only [List.count_cons] at h
    by_cases hopen : c = '{'
    · subst hopen
      by_cases hnever : ∀ inside back, w = inside ++ '}' :: back → closes 0 inside = false
      · exact ⟨[], w, rfl, hnever⟩
      · -- The brace and its partner account for each other; the search goes on behind them.
        push Not at hnever
        obtain ⟨inside, back, rfl, hclosed⟩ := hnever
        rw [Bool.ne_false_iff] at hclosed
        have hcount := (closes_iff.mp hclosed).2
        simp only [List.count_append, List.count_cons] at h
        simp at h
        obtain ⟨front, behind, rfl, hbehind⟩ := ih back.length (by simp at hn; omega) (by omega) rfl
        exact ⟨'{' :: inside ++ '}' :: front, behind, by simp, hbehind⟩
    · have hrest : w.count '}' < w.count '{' := by
        by_cases hclose : c = '}'
        · simp [hclose] at h
          omega
        · simpa [hopen, hclose] using h
      obtain ⟨front, behind, rfl, hbehind⟩ := ih w.length (by simp at hn; omega) hrest rfl
      exact ⟨c :: front, behind, rfl, hbehind⟩

theorem count_of_closes (h : closes k w = true) : w.count '}' = k + w.count '{' := (closes_iff.mp h).2

end Partners

/-! ## What the search knows -/

namespace Scan

variable {escaping escaped : Bool} {s s' : Scan} {pos p : Nat} {c : Char} {t u : Text}

/-- What the search does at a character that does not stop it: it passes over the character, or opens a
group, or closes one. -/
theorem step_cases (h : s.step pos c = .ok s') :
    (standing s.inBracket [c] = [] ∧ s' = { s with inBracket := bracketed s.inBracket [c] }) ∨
    (s.inBracket = false ∧ c = '{' ∧ s' = { s with
      depth := s.depth + 1
      opened := if s.depth = 0 ∧ s.group = none then some pos else s.opened }) ∨
    (s.inBracket = false ∧ c = '}' ∧ 0 < s.depth ∧ s' = { s with
      depth := s.depth - 1
      group := if s.depth = 1 ∧ s.group = none then s.opened.map (·, pos) else s.group }) := by
  by_cases hseen : sheltered s.inBracket [c] = true
  · left
    refine ⟨standing_eq_nil_iff.mpr hseen, ?_⟩
    exact Except.ok.inj (h.symm.trans (step_of_sheltered hseen))
  · right
    have hout : s.inBracket = false := by
      by_contra hin
      rw [Bool.not_eq_false] at hin
      rw [hin] at hseen
      exact hseen rfl
    have hbrace : c = '{' ∨ c = '}' := by
      rw [hout] at hseen
      simpa [sheltered, or_iff_not_imp_left] using hseen
    unfold step at h
    obtain rfl | rfl := hbrace
    · left
      refine ⟨hout, rfl, ?_⟩
      simpa [hout] using h.symm
    · right
      by_cases hdepth : s.depth = 0
      · simp [hout, hdepth] at h
      · refine ⟨hout, rfl, Nat.pos_of_ne_zero hdepth, ?_⟩
        simpa [hout, hdepth] using h.symm

theorem step_seen (h : s.step pos c = .ok s') : s'.inBracket = bracketed s.inBracket [c] ∧
    s'.depth + (standing s.inBracket [c]).count '}' =
      s.depth + (standing s.inBracket [c]).count '{' := by
  obtain ⟨hnone, rfl⟩ | ⟨hout, rfl, rfl⟩ | ⟨hout, rfl, hdepth, rfl⟩ := step_cases h
  · simp [hnone]
  · simp [hout, standing, bracketed]
  · simp [hout, standing, bracketed]
    omega

/-- The search counts the open groups. -/
theorem run_seen (h : s.run escaping pos escaped t = .ok s') :
    s'.inBracket = bracketed s.inBracket (unescapedFrom escaping escaped t) ∧
    s'.depth + (standing s.inBracket (unescapedFrom escaping escaped t)).count '}' =
      s.depth + (standing s.inBracket (unescapedFrom escaping escaped t)).count '{' := by
  induction t generalizing s pos escaped with
  | nil =>
    cases escaped <;>
    · cases h
      cases s'.inBracket <;> exact ⟨rfl, rfl⟩
  | cons c t ih =>
    cases escaped with
    | true => exact ih h
    | false =>
      rw [run] at h
      rw [unescapedFrom]
      split at h
      · next hc =>
        rw [if_pos hc]
        exact ih h
      · next hc =>
        rw [if_neg hc, ← List.singleton_append, bracketed_append, standing_append, List.count_append,
          List.count_append]
        obtain ⟨next, hstep, h⟩ := bind_eq_ok_iff.mp h
        obtain ⟨hbracket, hdepth⟩ := step_seen hstep
        rw [← hbracket]
        obtain ⟨hinside, htotal⟩ := ih h
        exact ⟨hinside, by omega⟩

theorem run_start_seen (h : Scan.start.run escaping 0 false t = .ok s) :
    s.inBracket = bracketed false (unescaped escaping t) ∧
      s.depth + (braces escaping t).count '}' = (braces escaping t).count '{' := by
  obtain ⟨hbracket, hdepth⟩ := run_seen h
  refine ⟨hbracket, ?_⟩
  rw [braces, unescaped]
  exact hdepth.trans (Nat.zero_add _)

theorem run_append_ok : s.run escaping pos escaped (t ++ u) = .ok s' ↔
    ∃ next, s.run escaping pos escaped t = .ok next ∧
      next.run escaping (pos + t.length) (escapesNext escaping escaped t) u = .ok s' := by
  rw [run_append]
  exact bind_eq_ok_iff

/-- The search is stopped by a closing brace that it sees while no group is open. -/
theorem exists_of_run_error (h : s.run escaping pos escaped t = .error (.unmatchedBrace p)) :
    ∃ before after next, t = before ++ '}' :: after ∧ p = pos + before.length ∧
      escapesNext escaping escaped before = false ∧
      s.run escaping pos escaped before = .ok next ∧ next.inBracket = false ∧ next.depth = 0 := by
  induction t generalizing s pos escaped with
  | nil => cases escaped <;> cases h
  | cons c t ih =>
    have hpos : ∀ before : Text, pos + 1 + before.length = pos + (c :: before).length := by
      intro before
      rw [List.length_cons]
      omega
    cases escaped with
    | true =>
      obtain ⟨before, after, next, rfl, rfl, hwhole, hrun, hout, hdepth⟩ := ih h
      exact ⟨c :: before, after, next, rfl, hpos before, hwhole, hrun, hout, hdepth⟩
    | false =>
      rw [run] at h
      split at h
      · next hc =>
        obtain ⟨before, after, next, rfl, rfl, hwhole, hrun, hout, hdepth⟩ := ih h
        refine ⟨c :: before, after, next, rfl, hpos before, ?_, ?_, hout, hdepth⟩
        · rwa [escapesNext, hc]
        · rwa [run, if_pos hc]
      · next hc =>
        obtain h | ⟨mid, hstep, h⟩ := bind_eq_error_iff.mp h
        · obtain rfl := PatternError.unmatchedBrace.inj (step_error h)
          unfold step at h
          split at h
          · cases h
          next hbracket =>
          split at h
          · cases h
          split at h
          · cases h
          split at h
          · next hclose =>
            split at h
            · next hdepth =>
              subst hclose
              exact ⟨[], t, s, rfl, rfl, rfl, rfl, by simpa using hbracket, hdepth⟩
            · cases h
          · cases h
        · obtain ⟨before, after, next, rfl, rfl, hwhole, hrun, hout, hdepth⟩ := ih h
          have hplain : (escaping && c = '\\') = false := by simpa using hc
          refine ⟨c :: before, after, next, rfl, hpos before, ?_, ?_, hout, hdepth⟩
          · rwa [escapesNext, hplain]
          · rw [run, if_neg hc]
            exact bind_eq_ok_iff.mpr ⟨mid, hstep, hrun⟩

theorem group_of_step {g : Nat × Nat} (hg : s.group = some g) (h : s.step pos c = .ok s') :
    s'.group = some g := by
  obtain ⟨-, rfl⟩ | ⟨-, -, rfl⟩ | ⟨-, -, -, rfl⟩ := step_cases h
  · exact hg
  · exact hg
  · simp [hg]

theorem group_of_run {g : Nat × Nat} (hg : s.group = some g)
    (h : s.run escaping pos escaped t = .ok s') : s'.group = some g := by
  induction t generalizing s pos escaped with
  | nil =>
    cases escaped <;>
    · cases h
      exact hg
  | cons c t ih =>
    cases escaped with
    | true => exact ih hg h
    | false =>
      rw [run] at h
      split at h
      · exact ih hg h
      · obtain ⟨next, hstep, h⟩ := bind_eq_ok_iff.mp h
        exact ih (group_of_step hg hstep) h

/-- Behind the first opening brace, either no closing brace is its partner and the search remembers the
place, or one is and the search has found a group. -/
theorem pending_of_run {d : Nat} (hdepth : s.depth = d + 1) (hgroup : s.group = none)
    (hopened : s.opened ≠ none) (h : s.run escaping pos escaped t = .ok s') :
    (s'.group = none ∧ s'.opened = s.opened ∧
      ∀ inside back, standing s.inBracket (unescapedFrom escaping escaped t) = inside ++ '}' :: back →
        closes d inside = false) ∨
    (s'.group ≠ none ∧ ∃ inside back,
      standing s.inBracket (unescapedFrom escaping escaped t) = inside ++ '}' :: back ∧
        closes d inside = true) := by
  induction t generalizing s pos escaped d with
  | nil =>
    left
    cases escaped <;>
    · cases h
      refine ⟨hgroup, rfl, ?_⟩
      intro inside back hnil
      simp [unescapedFrom, standing] at hnil
  | cons c t ih =>
    cases escaped with
    | true => exact ih hdepth hgroup hopened h
    | false =>
      rw [run] at h
      rw [unescapedFrom]
      split at h
      · next hc =>
        rw [if_pos hc]
        exact ih hdepth hgroup hopened h
      next hc =>
      rw [if_neg hc, ← List.singleton_append, standing_append]
      obtain ⟨next, hstep, hrun⟩ := bind_eq_ok_iff.mp h
      rw [← (step_seen hstep).1]
      obtain ⟨hnone, hnext⟩ | ⟨hout, rfl, hnext⟩ | ⟨hout, rfl, hpos, hnext⟩ := step_cases hstep
      · rw [hnone, List.nil_append]
        have hrest := ih (s := next) (by rw [hnext, hdepth]) (by rw [hnext, hgroup]) (by rwa [hnext])
          hrun
        rwa [show next.opened = s.opened by rw [hnext]] at hrest
      · -- One more group is to be closed.
        rw [if_neg fun hzero => by omega] at hnext
        have hone : standing s.inBracket ['{'] = ['{'] := by rw [hout]; rfl
        rw [hone, List.singleton_append]
        have hrest := ih (s := next) (d := d + 1) (by rw [hnext, hdepth]) (by rw [hnext, hgroup])
          (by rwa [hnext]) hrun
        rw [show next.opened = s.opened by rw [hnext]] at hrest
        obtain ⟨hstill, hkept, hnever⟩ | ⟨hfound, inside, back, hw, hclosed⟩ := hrest
        · refine .inl ⟨hstill, hkept, ?_⟩
          intro inside back hw
          cases inside with
          | nil => cases hw
          | cons b inside =>
            obtain ⟨rfl, htail⟩ := List.cons.inj hw
            rw [closes, if_pos rfl]
            exact hnever inside back htail
        · refine .inr ⟨hfound, '{' :: inside, back, by rw [hw]; rfl, ?_⟩
          rwa [closes, if_pos rfl]
      · have hone : standing s.inBracket ['}'] = ['}'] := by rw [hout]; rfl
        rw [hone, List.singleton_append]
        cases d with
        | zero =>
          -- It closes the first group.
          obtain ⟨o, ho⟩ := Option.ne_none_iff_exists'.mp hopened
          rw [if_pos ⟨hdepth, hgroup⟩, ho, Option.map_some] at hnext
          have hfound := group_of_run (g := (o, pos)) (by rw [hnext]) hrun
          exact .inr ⟨by simp [hfound], [], _, rfl, rfl⟩
        | succ d =>
          rw [if_neg fun hone => by omega] at hnext
          have hrest := ih (s := next) (d := d) (by rw [hnext, hdepth]; rfl) (by rw [hnext, hgroup])
            (by rwa [hnext]) hrun
          rw [show next.opened = s.opened by rw [hnext]] at hrest
          obtain ⟨hstill, hkept, hnever⟩ | ⟨hfound, inside, back, hw, hclosed⟩ := hrest
          · refine .inl ⟨hstill, hkept, ?_⟩
            intro inside back hw
            cases inside with
            | nil => rfl
            | cons b inside =>
              obtain ⟨rfl, htail⟩ := List.cons.inj hw
              simpa [closes] using hnever inside back htail
          · refine .inr ⟨hfound, '}' :: inside, back, by rw [hw]; rfl, ?_⟩
            simpa [closes] using hclosed

end Scan

end Brace

end TreeGlob
