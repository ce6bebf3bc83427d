import Mathlib.Data.List.Forall2
import TreeGlob.Proofs.Pattern.Tokens

/-!
What the search for brace groups sees, and when it agrees with the reader of patterns.

* `Brace.sheltered` says that all braces stand where the search takes itself to be in a bracket
  expression; `Brace.firstGroup_eq_none_iff` says that it then finds no group, and only then.
* `Brace.text_of_firstGroup` says that a group that is found is a group of the text, and
  `Brace.firstGroup_of_mem_expand` that expansion leaves none behind.
* `Pattern.seen_of_read` turns this into a condition on the bracket expressions of a text that reads
  as a pattern: a search leaves a bracket expression at the first `]`, which may be one of its entries
  or end a named class in it.
* `Pattern.compile_eq_read_iff` is the main result.
-/
namespace TreeGlob

theorem exists_of_mem_right {α β : Type} {R : α → β → Prop} {xs : List α} {ys : List β}
    (h : List.Forall₂ R xs ys) {y : β} (hy : y ∈ ys) : ∃ x ∈ xs, R x y := by
  induction h with
  | nil => cases hy
  | cons hxy _ ih =>
    rcases List.mem_cons.mp hy with rfl | hy
    · exact ⟨_, List.mem_cons_self, hxy⟩
    · obtain ⟨x, hx, hxy⟩ := ih hy
      exact ⟨x, List.mem_cons_of_mem _ hx, hxy⟩

theorem mapM_eq_ok {α β ε : Type} {f : α → Except ε β} {xs : List α} {ys : List β} :
    xs.mapM f = .ok ys ↔ List.Forall₂ (fun x y => f x = .ok y) xs ys := by
  induction xs generalizing ys with
  | nil => simp [pure, Except.pure, eq_comm]
  | cons x xs ih =>
    rw [List.mapM_cons, List.forall₂_cons_left_iff]
    cases hx : f x with
    | error e => simp [bind, Except.bind]
    | ok y =>
      simp only [← ih]
      cases hxs : xs.mapM f with
      | error e => simp [bind, Except.bind]
      | ok rest => simp [bind, Except.bind, pure, Except.pure, eq_comm]

namespace Brace

/-! ## What the search sees -/

/-- Whether the search takes itself to be in a bracket expression after such characters: from a `[` on
to the next `]`. -/
def bracketed : (within : Bool) → Text → Bool
  | within, [] => within
  | true, c :: rest => bracketed (c ≠ ']') rest
  | false, c :: rest => bracketed (c = '[') rest

/-- Whether all braces among such characters stand where the search takes itself to be in a bracket
expression. -/
def sheltered : (within : Bool) → Text → Bool
  | _, [] => true
  | true, c :: rest => sheltered (c ≠ ']') rest
  | false, c :: rest => c ≠ '{' && c ≠ '}' && sheltered (c = '[') rest

theorem bracketed_append (within : Bool) (u v : Text) :
    bracketed within (u ++ v) = bracketed (bracketed within u) v := by
  induction u generalizing within with
  | nil => cases within <;> rfl
  | cons c u ih => cases within <;> exact ih _

theorem sheltered_append (within : Bool) (u v : Text) :
    sheltered within (u ++ v) = (sheltered within u && sheltered (bracketed within u) v) := by
  induction u generalizing within with
  | nil => cases within <;> rfl
  | cons c u ih => cases within <;> simp [sheltered, bracketed, ih, Bool.and_assoc]

theorem bracketed_concat (within : Bool) (u : Text) (c : Char) :
    bracketed within (u ++ [c]) =
      if c = '[' then true else if c = ']' then false else bracketed within u := by
  rw [bracketed_append]
  cases bracketed within u
  · by_cases hc : c = '[' <;> simp [bracketed, hc]
  · by_cases hc : c = '['
    · simp [bracketed, hc]
    · by_cases hc' : c = ']' <;> simp [bracketed, hc, hc']

/-- A search that starts in a bracket expression is in one if a `[` follows every `]`. -/
theorem bracketed_iff (u : Text) :
    bracketed true u = true ↔ ∀ v w, u = v ++ ']' :: w → '[' ∈ w := by
  induction u using List.reverseRecOn with
  | nil => simp [bracketed]
  | append_singleton u c ih =>
    -- Only the last character is new: either it is the `]`, or it comes behind it.
    have hlast : (∀ v w, u ++ [c] = v ++ ']' :: w → '[' ∈ w) ↔
        c ≠ ']' ∧ ∀ v w, u = v ++ ']' :: w → c = '[' ∨ '[' ∈ w := by
      refine ⟨fun h => ⟨?_, ?_⟩, fun h v w hw => ?_⟩
      · rintro rfl
        exact List.not_mem_nil (h u [] rfl)
      · intro v w hw
        have hmem := h v (w ++ [c]) (by simp [hw])
        simpa [eq_comm, or_comm] using hmem
      · rcases List.eq_nil_or_concat w with rfl | ⟨w, x, rfl⟩
        · obtain ⟨-, hc⟩ := List.append_inj' hw rfl
          exact (h.1 (List.head_eq_of_cons_eq hc)).elim
        · rw [List.concat_eq_append, ← List.cons_append, ← List.append_assoc] at hw
          obtain ⟨hu, hx⟩ := List.append_inj' hw rfl
          obtain rfl := List.head_eq_of_cons_eq hx
          simpa [eq_comm, or_comm] using h.2 v w hu
    rw [hlast, bracketed_concat]
    by_cases hopen : c = '['
    · simp [hopen]
    · by_cases hclose : c = ']'
      · simp [hclose]
      · simp [hopen, hclose, ih]

theorem sheltered_iff (within : Bool) (t : Text) : sheltered within t = true ↔
    ∀ u c v, t = u ++ c :: v → c = '{' ∨ c = '}' → bracketed within u = true := by
  induction t generalizing within with
  | nil => simp [sheltered]
  | cons c t ih =>
    have hstep : (∀ u x v, c :: t = u ++ x :: v → x = '{' ∨ x = '}' → bracketed within u = true) ↔
        (c = '{' ∨ c = '}' → within = true) ∧
          ∀ u x v, t = u ++ x :: v → x = '{' ∨ x = '}' → bracketed within (c :: u) = true := by
      refine ⟨fun h => ⟨fun hc => ?_, fun u x v hu => h (c :: u) x v (by rw [hu]; rfl)⟩, ?_⟩
      · cases within <;> exact h [] c t rfl hc
      · intro h u x v hu hx
        cases u with
        | nil =>
          obtain ⟨rfl, -⟩ := List.cons.inj hu
          cases within <;> exact h.1 hx
        | cons y u =>
          obtain ⟨rfl, ht⟩ := List.cons.inj hu
          exact h.2 u x v ht hx
    rw [hstep]
    cases within with
    | true => simp [sheltered, bracketed, ih]
    | false => simp [sheltered, bracketed, ih, and_assoc]

theorem Scan.step_of_sheltered {s : Scan} {pos : Nat} {c : Char}
    (h : sheltered s.inBracket [c] = true) :
    s.step pos c = .ok { s with inBracket := bracketed s.inBracket [c] } := by
  obtain ⟨depth, inBracket, opened, group⟩ := s
  cases inBracket with
  | true => simp [Scan.step, bracketed]
  | false =>
    obtain ⟨hopen, hclose⟩ : c ≠ '{' ∧ c ≠ '}' := by simpa [sheltered] using h
    by_cases hc : c = '[' <;> simp [Scan.step, bracketed, hopen, hclose, hc]

theorem Scan.run_of_sheltered {escaping : Bool} {s : Scan} {pos : Nat} {escaped : Bool} {t : Text}
    (h : sheltered s.inBracket (unescapedFrom escaping escaped t) = true) :
    s.run escaping pos escaped t =
      .ok { s with inBracket := bracketed s.inBracket (unescapedFrom escaping escaped t) } := by
  induction t generalizing s pos escaped with
  | nil => cases escaped <;> cases hb : s.inBracket <;> simp [run, unescapedFrom, bracketed, ← hb]
  | cons c t ih =>
    cases escaped with
    | true => exact ih h
    | false =>
      rw [unescapedFrom] at h ⊢
      rw [run]
      split
      · next hc =>
        rw [if_pos hc] at h
        exact ih h
      · next hc =>
        rw [if_neg hc] at h
        obtain ⟨h1, h2⟩ : sheltered s.inBracket [c] = true ∧
            sheltered (bracketed s.inBracket [c]) (unescapedFrom escaping false t) = true := by
          rw [← Bool.and_eq_true, ← sheltered_append]
          exact h
        rw [step_of_sheltered h1]
        exact (ih h2).trans (by rw [← bracketed_append]; rfl)

/-! ## Groups that are found -/

namespace Scan

variable {escaping : Bool} {s s' : Scan} {pos : Nat} {escaped : Bool} {c : Char} {t : Text}

theorem run_append (s : Scan) (pos : Nat) (escaped : Bool) (t u : Text) :
    s.run escaping pos escaped (t ++ u) =
      (s.run escaping pos escaped t).bind fun s =>
        s.run escaping (pos + t.length) (escapesNext escaping escaped t) u := by
  induction t generalizing s pos escaped with
  | nil => cases escaped <;> rfl
  | cons c t ih =>
    have hpos : pos + (c :: t).length = pos + 1 + t.length := by rw [List.length_cons]; omega
    rw [hpos]
    cases escaped with
    | true => exact ih s (pos + 1) false
    | false =>
      rw [List.cons_append, run, run, escapesNext]
      split
      · next hc => rw [hc]; exact ih s (pos + 1) true
      · next hc =>
        rw [Bool.not_eq_true] at hc
        rw [hc]
        cases hs : s.step pos c with
        | error e => rfl
        | ok s => exact ih s (pos + 1) false

/-- A group is open or was found. -/
def Busy (s : Scan) : Prop := (0 < s.depth ∧ s.opened ≠ none) ∨ s.group ≠ none

theorem Busy.step (h : s.Busy) (hs : s.step pos c = .ok s') : s'.Busy := by
  unfold Scan.step at hs
  split at hs
  · cases hs; exact h
  split at hs
  · cases hs; exact h
  split at hs
  · cases hs
    rcases h with h | h
    · exact .inl ⟨Nat.succ_pos _, by simp [h.1.ne', h.2]⟩
    · exact .inr h
  split at hs
  · split at hs
    · cases hs
    · cases hs
      by_cases hg : s.group = none
      · obtain ⟨hdepth, hopened⟩ := h.resolve_right (· hg)
        by_cases hone : s.depth = 1
        · exact .inr (by simp [hone, hg, hopened])
        · exact .inl ⟨by simp only; omega, hopened⟩
      · exact .inr (by simp [hg])
  · cases hs; exact h

theorem Busy.run (h : s.Busy) (hr : s.run escaping pos escaped t = .ok s') : s'.Busy := by
  induction t generalizing s pos escaped with
  | nil => cases escaped <;> cases hr <;> exact h
  | cons c t ih =>
    cases escaped with
    | true => exact ih h hr
    | false =>
      rw [Scan.run] at hr
      split at hr
      · exact ih h hr
      · obtain ⟨next, hs, hr⟩ := bind_eq_ok_iff.mp hr
        exact ih (h.step hs) hr

/-- A search that sees a brace is stopped by it, or is busy from then on. -/
theorem busy_of_step (hc : sheltered s.inBracket [c] = false) (hs : s.step pos c = .ok s')
    (hg : s.group = none) (hd : s.depth = 0) : s'.Busy := by
  obtain ⟨depth, inBracket, opened, group⟩ := s
  obtain rfl := hg
  obtain rfl := hd
  cases inBracket with
  | true => simp [sheltered] at hc
  | false =>
    have hbrace : c = '{' ∨ c = '}' := or_iff_not_imp_left.mpr (by simpa [sheltered] using hc)
    rcases hbrace with rfl | rfl
    · cases hs
      exact .inl (by simp)
    · cases hs

theorem busy_of_run (ht : sheltered s.inBracket (unescapedFrom escaping escaped t) = false)
    (hr : s.run escaping pos escaped t = .ok s') (hg : s.group = none) (hd : s.depth = 0) :
    s'.Busy := by
  induction t generalizing s pos escaped with
  | nil => cases escaped <;> simp [unescapedFrom, sheltered] at ht
  | cons c t ih =>
    cases escaped with
    | true => exact ih ht hr hg hd
    | false =>
      rw [unescapedFrom] at ht
      rw [Scan.run] at hr
      split at hr
      · next hc =>
        rw [if_pos hc] at ht
        exact ih ht hr hg hd
      · next hc =>
        rw [if_neg hc] at ht
        obtain ⟨next, hs, hr⟩ := bind_eq_ok_iff.mp hr
        by_cases hc : sheltered s.inBracket [c] = true
        · obtain rfl : _ = next := Except.ok.inj ((step_of_sheltered hc).symm.trans hs)
          refine ih ?_ hr hg hd
          have happ := sheltered_append s.inBracket [c] (unescapedFrom escaping false t)
          rw [hc, Bool.true_and] at happ
          exact happ ▸ ht
        · exact (busy_of_step (by simpa using hc) hs hg hd).run hr

end Scan

theorem firstGroup_eq_none_iff {escaping : Bool} {t : Text} :
    firstGroup escaping t = .ok none ↔ sheltered false (unescaped escaping t) = true := by
  refine ⟨fun h => ?_, fun h => ?_⟩
  · by_contra ht
    obtain ⟨s, hr, h⟩ := bind_eq_ok_iff.mp h
    have hbusy : s.Busy := Scan.busy_of_run (eq_false_of_ne_true ht) hr rfl rfl
    split at h
    · cases h
    · next hdepth =>
      rcases hbusy with hb | hb
      · exact hdepth hb.1
      · exact hb (Except.ok.inj h)
  · unfold firstGroup
    rw [Scan.run_of_sheltered h]
    rfl

namespace Scan

/-- What the search remembers are places of braces in what it has passed over. -/
structure Marks (s : Scan) (before : Text) : Prop where
  opened : ∀ o, s.opened = some o → before[o]? = some '{'
  group : ∀ o c, s.group = some (o, c) →
    o < c ∧ before[o]? = some '{' ∧ before[c]? = some '}'

variable {escaping : Bool} {s s' : Scan} {escaped : Bool} {c : Char} {before t : Text}

theorem Marks.append (h : s.Marks before) (t : Text) : s.Marks (before ++ t) where
  opened o ho := by
    obtain ⟨hlt, -⟩ := List.getElem?_eq_some_iff.mp (h.opened o ho)
    rw [List.getElem?_append_left hlt, h.opened o ho]
  group o c hg := by
    obtain ⟨hoc, ho, hc⟩ := h.group o c hg
    obtain ⟨hlt, -⟩ := List.getElem?_eq_some_iff.mp hc
    exact ⟨hoc, by rw [List.getElem?_append_left (hoc.trans hlt), ho],
      by rw [List.getElem?_append_left hlt, hc]⟩

theorem Marks.step (h : s.Marks before) (hs : s.step before.length c = .ok s') :
    s'.Marks (before ++ [c]) := by
  have happ := h.append [c]
  have hlast : (before ++ [c])[before.length]? = some c := by simp
  unfold Scan.step at hs
  split at hs
  · cases hs; exact ⟨happ.opened, happ.group⟩
  split at hs
  · cases hs; exact ⟨happ.opened, happ.group⟩
  split at hs
  · next hc =>
    cases hs
    refine ⟨fun o ho => ?_, happ.group⟩
    dsimp only at ho
    split at ho
    · cases ho
      rw [hlast, hc]
    · exact happ.opened o ho
  split at hs
  · next hc =>
    split at hs
    · cases hs
    · cases hs
      refine ⟨happ.opened, fun o k hg => ?_⟩
      dsimp only at hg
      split at hg
      · obtain ⟨o, ho, hg⟩ := Option.map_eq_some_iff.mp hg
        cases hg
        obtain ⟨hlt, -⟩ := List.getElem?_eq_some_iff.mp (h.opened o ho)
        exact ⟨hlt, happ.opened o ho, by rw [hlast, hc]⟩
      · exact happ.group o k hg
  · cases hs; exact happ

theorem Marks.run (h : s.Marks before)
    (hr : s.run escaping before.length escaped t = .ok s') : s'.Marks (before ++ t) := by
  induction t generalizing s before escaped with
  | nil =>
    rw [List.append_nil]
    cases escaped <;> cases hr <;> exact h
  | cons c t ih =>
    have hlen : before.length + 1 = (before ++ [c]).length := by simp
    rw [List.append_cons]
    cases escaped with
    | true =>
      rw [Scan.run, hlen] at hr
      exact ih (h.append [c]) hr
    | false =>
      rw [Scan.run, hlen] at hr
      split at hr
      · exact ih (h.append [c]) hr
      · obtain ⟨next, hs, hr⟩ := bind_eq_ok_iff.mp hr
        exact ih (h.step hs) hr

end Scan

theorem text_of_firstGroup {escaping : Bool} {t : Text} {o c : Nat}
    (h : firstGroup escaping t = .ok (some (o, c))) :
    ∃ front inside back, t = front ++ '{' :: inside ++ '}' :: back ∧ o = front.length ∧
      c = front.length + 1 + inside.length := by
  obtain ⟨s, hr, h⟩ := bind_eq_ok_iff.mp h
  split at h
  · cases h
  · have hstart : Scan.start.Marks [] := ⟨by simp [Scan.start], by simp [Scan.start]⟩
    have hmarks : s.Marks t := hstart.run hr
    obtain ⟨hoc, ho, hc⟩ := hmarks.group o c (Except.ok.inj h)
    obtain ⟨holt, ho⟩ := List.getElem?_eq_some_iff.mp ho
    obtain ⟨hclt, hc⟩ := List.getElem?_eq_some_iff.mp hc
    refine ⟨t.take o, (t.take c).drop (o + 1), t.drop (c + 1), ?_, ?_, ?_⟩
    · have hopen : t.take c = t.take o ++ '{' :: (t.take c).drop (o + 1) := by
        have hlt : o < (t.take c).length := by rw [List.length_take_of_le hclt.le]; exact hoc
        have hget : (t.take c)[o] = '{' := by rw [List.getElem_take, ho]
        conv_lhs => rw [← List.take_append_drop o (t.take c), List.drop_eq_getElem_cons hlt, hget,
          List.take_take, Nat.min_eq_left hoc.le]
      rw [← hopen]
      conv_lhs => rw [← List.take_append_drop c t, List.drop_eq_getElem_cons hclt, hc]
    · rw [List.length_take_of_le holt.le]
    · rw [List.length_drop, List.length_take_of_le hclt.le, List.length_take_of_le holt.le]
      omega

/-! ## Expansion -/

theorem pushFront_sublist {c : Char} {ts : List Text} {t rest : Text}
    (h : ∀ x ∈ ts, x.Sublist rest) (ht : t ∈ pushFront c ts) : t.Sublist (c :: rest) := by
  cases ts with
  | nil =>
    obtain rfl := List.mem_singleton.mp ht
    exact (List.nil_sublist rest).cons_cons c
  | cons x ts =>
    rcases List.mem_cons.mp ht with rfl | ht
    · exact (h x List.mem_cons_self).cons_cons c
    · exact (h t (List.mem_cons_of_mem x ht)).cons c

theorem sublist_of_mem_splitFrom {escaping : Bool} {depth : Nat} {escaped : Bool} {inside t : Text}
    (h : t ∈ splitFrom escaping depth escaped inside) : t.Sublist inside := by
  induction inside generalizing depth escaped t with
  | nil => cases escaped <;> simpa [splitFrom] using h
  | cons c rest ih =>
    cases escaped with
    | true => exact pushFront_sublist (fun _ hx => ih hx) h
    | false =>
      rw [splitFrom] at h
      split at h
      · exact pushFront_sublist (fun _ hx => ih hx) h
      split at h
      · exact pushFront_sublist (fun _ hx => ih hx) h
      split at h
      · exact pushFront_sublist (fun _ hx => ih hx) h
      split at h
      · rcases List.mem_cons.mp h with rfl | h
        · exact List.nil_sublist _
        · exact (ih h).cons c
      · exact pushFront_sublist (fun _ hx => ih hx) h

/-- The replacements of a group are its alternatives, between what stands around it. -/
theorem replacements_of_braces (escaping : Bool) (front inside back : Text) :
    replacements escaping (front ++ '{' :: inside ++ '}' :: back) front.length
        (front.length + 1 + inside.length) =
      (alternatives escaping inside).map fun chosen => front ++ chosen ++ back := by
  have hfront : (front ++ '{' :: inside ++ '}' :: back).take front.length = front := by simp
  have hinside : ((front ++ '{' :: inside ++ '}' :: back).take
      (front.length + 1 + inside.length)).drop (front.length + 1) = inside := by
    simp [List.take_append, List.drop_append, Nat.add_assoc, Nat.add_comm 1,
      List.take_of_length_le]
  have hback : (front ++ '{' :: inside ++ '}' :: back).drop
      (front.length + 1 + inside.length + 1) = back := by
    have hlen : front.length + 1 + inside.length + 1 = (front ++ '{' :: inside).length + 1 := by
      rw [List.length_append, List.length_cons]; omega
    rw [hlen, List.drop_append]
    simp
  rw [replacements, hinside, hfront, hback]

theorem sublist_of_mem_replacements {escaping : Bool} {front inside back t : Text}
    (h : t ∈ replacements escaping (front ++ '{' :: inside ++ '}' :: back) front.length
      (front.length + 1 + inside.length)) :
    t.Sublist (front ++ inside ++ back) := by
  rw [replacements_of_braces] at h
  obtain ⟨chosen, hchosen, rfl⟩ := List.mem_map.mp h
  exact ((List.Sublist.refl front).append (sublist_of_mem_splitFrom hchosen)).append
    (List.Sublist.refl back)

variable {escaping : Bool} {rounds : Nat} {t : Text} {es : List Text}

/-- A round of expansion finds no group, or replaces the first one by its alternatives and goes on
with each of them. -/
theorem expandRounds_cases (h : expandRounds escaping rounds t = .ok es) :
    (es = [t] ∧ (firstGroup escaping t = .ok none ∨ rounds = 0 ∧ '{' ∈ t)) ∨
      ∃ left o c expanded, rounds = left + 1 ∧ firstGroup escaping t = .ok (some (o, c)) ∧
        List.Forall₂ (fun r e => expandRounds escaping left r = .ok e)
          (replacements escaping t o c) expanded ∧ es = expanded.flatten := by
  unfold expandRounds at h
  obtain ⟨found, hfound, h⟩ := bind_eq_ok_iff.mp h
  split at h
  · cases h
    exact .inl ⟨rfl, .inl hfound⟩
  next o c =>
  cases rounds with
  | zero =>
    cases h
    obtain ⟨front, inside, back, rfl, -, -⟩ := text_of_firstGroup hfound
    exact .inl ⟨rfl, .inr ⟨rfl, by simp⟩⟩
  | succ left =>
    obtain ⟨expanded, hexpanded, h⟩ := bind_eq_ok_iff.mp h
    cases h
    exact .inr ⟨left, o, c, expanded, rfl, hfound, mapM_eq_ok.mp hexpanded, rfl⟩

theorem replacements_ne_nil (escaping : Bool) (t : Text) (o c : Nat) :
    replacements escaping t o c ≠ [] := by
  simp [replacements, alternatives, splitFrom_ne_nil]

theorem shrinks_of_mem_replacements {o c : Nat} {r : Text}
    (hg : firstGroup escaping t = .ok (some (o, c))) (hr : r ∈ replacements escaping t o c) :
    r.length < t.length ∧ r.count '{' < t.count '{' := by
  obtain ⟨front, inside, back, rfl, rfl, rfl⟩ := text_of_firstGroup hg
  have hsub := sublist_of_mem_replacements hr
  have hlen := hsub.length_le
  have hcount := hsub.count_le '{'
  simp only [List.length_append, List.length_cons, List.count_append, List.count_cons_self] at *
  have hclose : List.count '{' ('}' :: back) = List.count '{' back := List.count_cons_of_ne (by decide)
  omega

/-- With a round for every opening brace, expansion leaves no group behind. -/
theorem firstGroup_of_mem_expandRounds (hrounds : t.count '{' ≤ rounds)
    (h : expandRounds escaping rounds t = .ok es) :
    ∀ e ∈ es, firstGroup escaping e = .ok none := by
  induction rounds generalizing t es with
  | zero =>
    obtain ⟨rfl, hg | ⟨-, hmem⟩⟩ | ⟨left, _, _, _, hleft, -⟩ := expandRounds_cases h
    · simpa using hg
    · exact absurd (List.count_pos_iff.mpr hmem) (by omega)
    · cases hleft
  | succ rounds ih =>
    obtain ⟨rfl, hg | ⟨hzero, -⟩⟩ | ⟨left, o, c, expanded, hleft, hg, hall, rfl⟩ :=
      expandRounds_cases h
    · simpa using hg
    · cases hzero
    · cases hleft
      intro e he
      obtain ⟨part, hpart, he⟩ := List.mem_flatten.mp he
      obtain ⟨r, hr, hexp⟩ := exists_of_mem_right hall hpart
      have hless := (shrinks_of_mem_replacements hg hr).2
      exact ih (by omega) hexp e he

theorem firstGroup_of_mem_expand (h : expand escaping t = .ok es) :
    ∀ e ∈ es, firstGroup escaping e = .ok none :=
  firstGroup_of_mem_expandRounds (Nat.le_refl _) h

theorem expand_of_firstGroup (h : firstGroup escaping t = .ok none) :
    expand escaping t = .ok [t] := by
  unfold expand expandRounds
  rw [h]
  rfl

theorem bracketed_of_forall {t : Text} (h : ∀ c ∈ t, c ≠ '[') : bracketed false t = false := by
  induction t with
  | nil => rfl
  | cons c t ih =>
    obtain ⟨hc, ht⟩ := List.forall_mem_cons.mp h
    simpa [bracketed, hc] using ih ht

theorem sheltered_of_forall {t : Text} (within : Bool) (h : ∀ c ∈ t, c ≠ '{' ∧ c ≠ '}') :
    sheltered within t = true := by
  rw [sheltered_iff]
  rintro u c v rfl hc
  obtain ⟨hopen, hclose⟩ := h c (by simp)
  exact (hc.elim hopen hclose).elim

end Brace

/-! ## What the reader of patterns makes of the same braces -/

/-- Every unescaped brace between the brackets is taken for one in a bracket expression: if a `]`
comes before it, then so does a `[` behind that. -/
def Bracket.Shelters (escaping : Bool) (inside : Text) : Prop :=
  ∀ u v c w, unescaped escaping inside = u ++ ']' :: v ++ c :: w → c = '{' ∨ c = '}' → '[' ∈ v

theorem Bracket.shelters_iff {escaping : Bool} {inside : Text} :
    Shelters escaping inside ↔ Brace.sheltered true (unescaped escaping inside) = true := by
  rw [Brace.sheltered_iff]
  refine ⟨fun h u c v ht hc => ?_, fun h u v c w ht hc => ?_⟩
  · rw [Brace.bracketed_iff]
    rintro x y rfl
    exact h x y c v ht hc
  · exact (Brace.bracketed_iff _).mp (h _ c w ht hc) u v rfl

instance (escaping : Bool) (inside : Text) : Decidable (Bracket.Shelters escaping inside) :=
  decidable_of_iff' _ Bracket.shelters_iff

namespace Segment

variable {d : Dialect} {pos : Nat} {previous : Option Char} {c : Char} {rest text : Text} {s : Segment}
  {extra skip : Nat} {segments : List Segment}

theorem unescaped_bracketed {escaping : Bool} {inside : Text} (h : Whole escaping inside) :
    unescaped escaping ('[' :: inside ++ [']']) = '[' :: unescaped escaping inside ++ [']'] := by
  have hopen : unescaped escaping ['['] = ['['] := unescaped_singleton (by simp)
  have hclose : unescaped escaping [']'] = [']'] := unescaped_singleton (by simp)
  have hwhole : Whole escaping ['['] := whole_of_not_mem (by decide)
  rw [← List.singleton_append, unescaped_append (hwhole.append h), unescaped_append hwhole, hopen,
    hclose]
  rfl

/-- The search for groups leaves every token outside of brackets, and sees no brace in it unless it is
a bracket expression that does not shelter its braces. -/
theorem seen_of_read (h : read d pos previous c rest = .ok (s, extra)) :
    Brace.bracketed false (unescaped d.escaping (c :: rest.take extra)) = false ∧
      (Brace.sheltered false (unescaped d.escaping (c :: rest.take extra)) = true ↔
        ∀ inside, inside? (c :: rest.take extra, s) = some inside →
          Bracket.Shelters d.escaping inside) := by
  obtain ⟨-, -, ⟨b, inside, rfl, htext, hwhole⟩ | ⟨hs, hplain⟩⟩ := read_cases h
  · have hbare : unescaped d.escaping (c :: rest.take extra) =
        ['['] ++ unescaped d.escaping inside ++ [']'] := by
      rw [htext, unescaped_bracketed hwhole]
      rfl
    have hinside : inside? (c :: rest.take extra, .bracket b) = some inside := by
      simp [inside?, htext]
    rw [hbare, Brace.bracketed_concat, Brace.sheltered_append, Brace.sheltered_append, hinside]
    refine ⟨by simp, ?_⟩
    rw [Brace.sheltered_of_forall _ (by simp : ∀ c ∈ [']'], c ≠ '{' ∧ c ≠ '}'), Bool.and_true]
    simp [Bracket.shelters_iff, Brace.sheltered, Brace.bracketed]
  · refine ⟨Brace.bracketed_of_forall fun x hx => (hplain x hx).1, iff_of_true ?_ ?_⟩
    · exact Brace.sheltered_of_forall _ fun x hx => ⟨(hplain x hx).2.2.1, (hplain x hx).2.2.2.1⟩
    · intro inside hinside
      cases s with
      | bracket b => exact (hs b rfl).elim
      | constant | anyChar | star | globstar => cases hinside

theorem seen_of_readAll (h : readAll d pos previous skip text = .ok segments) :
    Whole d.escaping (text.drop skip) ∧
      Brace.bracketed false (unescaped d.escaping (text.drop skip)) = false ∧
      (Brace.sheltered false (unescaped d.escaping (text.drop skip)) = true ↔
        ∀ inside ∈ (tokens d pos previous skip text).filterMap inside?,
          Bracket.Shelters d.escaping inside) := by
  induction text generalizing pos previous skip segments with
  | nil => simp [tokens, whole_nil, unescaped, unescapedFrom, Brace.bracketed, Brace.sheltered]
  | cons c rest ih =>
    cases skip with
    | succ skip => exact ih h
    | zero =>
      obtain ⟨s, extra, more, htoken, hmore, -⟩ := readAll_cons_eq_ok_iff.mp h
      obtain ⟨hwhole, hout, hsees⟩ := ih hmore
      obtain ⟨hextra, htext, -⟩ := read_cases htoken
      obtain ⟨hout', hsees'⟩ := seen_of_read htoken
      have hsplit : (c :: rest).drop 0 = (c :: rest.take extra) ++ rest.drop extra := by simp
      rw [hsplit, unescaped_append htext, Brace.bracketed_append, Brace.sheltered_append, hout',
        Bool.and_eq_true, hsees, hsees', tokens, htoken]
      refine ⟨htext.append hwhole, hout, ?_⟩
      simp only [List.mem_filterMap, List.mem_cons]
      grind

end Segment

namespace Pattern

variable {d : Dialect} {raw : Text} {p : Pattern}

theorem seen_of_read (h : read d raw = .ok p) :
    Whole d.escaping raw ∧ Brace.bracketed false (unescaped d.escaping raw) = false ∧
      (Brace.sheltered false (unescaped d.escaping raw) = true ↔
        ∀ inside ∈ brackets d raw, Bracket.Shelters d.escaping inside) := by
  obtain ⟨-, segments, hsegments, -⟩ := read_eq_ok_iff.mp h
  exact Segment.seen_of_readAll hsegments

theorem firstGroup_eq_none_iff_of_read (h : read d raw = .ok p) :
    Brace.firstGroup d.escaping raw = .ok none ↔
      ∀ inside ∈ brackets d raw, Bracket.Shelters d.escaping inside := by
  rw [Brace.firstGroup_eq_none_iff, (seen_of_read h).2.2]

/-- Compiling gives patterns just if the expansions are the texts they were read from. -/
theorem compile_eq_ok_iff {ps : List Pattern} (h : ∀ p ∈ ps, read d p.source = .ok p) :
    compile d raw = .ok ps ↔ Brace.expand d.escaping raw = .ok (ps.map source) := by
  have hread : List.Forall₂ (fun t p => read d t = .ok p) (ps.map source) ps := by
    rw [List.forall₂_map_left_iff]
    exact List.forall₂_same.mpr h
  unfold compile
  cases hexpand : Brace.expand d.escaping raw with
  | error e => simp [bind, Except.bind]
  | ok es =>
    simp only [bind, Except.bind, mapM_eq_ok, Except.ok.injEq]
    refine ⟨fun hes => ?_, fun hes => hes ▸ hread⟩
    have hsources : List.Forall₂ (fun t (p : Pattern) => t = p.source) es ps :=
      hes.imp fun _ _ ht => (source_of_read ht).symm
    rw [← List.forall₂_eq_eq_eq, List.forall₂_map_right_iff]
    exact hsources

/-- **A text that reads as a pattern is compiled to that pattern alone just if its bracket expressions
shelter their braces.** Reading takes a bracket expression to end at the `]` that closes it; the search
for groups takes it to end at the first `]`, and sees the braces behind that. -/
theorem compile_eq_read_iff (h : read d raw = .ok p) :
    compile d raw = .ok [p] ↔ ∀ inside ∈ brackets d raw, Bracket.Shelters d.escaping inside := by
  have hsource := source_of_read h
  have hps : ∀ q ∈ [p], read d q.source = .ok q := by simp [hsource, h]
  rw [compile_eq_ok_iff hps, List.map_singleton, hsource, ← firstGroup_eq_none_iff_of_read h]
  refine ⟨fun hexpand => ?_, Brace.expand_of_firstGroup⟩
  exact Brace.firstGroup_of_mem_expand hexpand raw (List.mem_singleton_self raw)

/-- The brace in `[{]x` is sheltered; the one in `[]{]` stands behind a `]` that is an entry, the one
in `[[:alpha:]{]` behind one that ends a named class. -/
theorem compile_eq_read_iff_of_braces_in_brackets :
    (∃ p, read {} "[\x7b]x".toList = .ok p ∧ compile {} "[\x7b]x".toList = .ok [p]) ∧
      (∃ p, read {} "[]\x7b]".toList = .ok p ∧ compile {} "[]\x7b]".toList ≠ .ok [p]) ∧
      ∃ p, read {} "[[:alpha:]\x7b]".toList = .ok p ∧ compile {} "[[:alpha:]\x7b]".toList ≠ .ok [p] := by
  have hsheltered : read {} "[\x7b]x".toList = .ok {
      source := "[\x7b]x".toList
      segments := [.bracket ⟨[('{', '{')], [], false⟩, .constant "x".toList]
      dialect := {} } := by rfl
  have hentry : read {} "[]\x7b]".toList = .ok {
      source := "[]\x7b]".toList
      segments := [.bracket ⟨[(']', ']'), ('{', '{')], [], false⟩]
      dialect := {} } := by rfl
  have hclass : read {} "[[:alpha:]\x7b]".toList = .ok {
      source := "[[:alpha:]\x7b]".toList
      segments := [.bracket ⟨[('{', '{')], [.alpha], false⟩]
      dialect := {} } := by rfl
  refine ⟨⟨_, hsheltered, ?_⟩, ⟨_, hentry, ?_⟩, ⟨_, hclass, ?_⟩⟩
  · exact (compile_eq_read_iff hsheltered).mpr (by decide)
  · exact mt (compile_eq_read_iff hentry).mp (by decide)
  · exact mt (compile_eq_read_iff hclass).mp (by decide)

end Pattern

end TreeGlob
