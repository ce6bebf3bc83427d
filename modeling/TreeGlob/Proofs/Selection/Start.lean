import Mathlib.Data.List.Infix
import TreeGlob.Search.Task
import TreeGlob.Proofs.Disk.Spelling
import TreeGlob.Proofs.Pattern.Pruning

/-!
What a selection says along a way down, and the directory that every wanted path lies below.

* `joined` is the path of a way, as patterns see it, and `slashed` the same with a separator behind
  every piece.
* `prune_eq_false_of_accepts` says that nothing above a wanted path is pruned, `prune_of_prune` that
  nothing below a pruned path is worth looking at.
* `start_of_hit` and `start_of_alive` say that the pieces of the start directory are the only way to
  wanted paths, though a start directory with an empty piece in it leads to none.
-/
namespace TreeGlob

/-! ## Ways as texts -/

/-- The pieces of a way down, each with a separator behind it. -/
def slashed (way : List Text) : Text := way.flatMap (· ++ ['/'])

/-- The path of a way down, as patterns see it. -/
def joined (way : List Text) : Text := ['/'].intercalate way

@[simp] theorem slashed_nil : slashed [] = [] := rfl

theorem slashed_cons (c : Text) (way : List Text) :
    slashed (c :: way) = c ++ '/' :: slashed way := by
  simp [slashed]

theorem slashed_append (way more : List Text) : slashed (way ++ more) = slashed way ++ slashed more :=
  List.flatMap_append

theorem joined_singleton (c : Text) : joined [c] = c := by
  simp [joined, List.intercalate]

theorem joined_cons (c : Text) {way : List Text} (h : way ≠ []) :
    joined (c :: way) = c ++ '/' :: joined way := by
  obtain ⟨x, way, rfl⟩ := List.exists_cons_of_ne_nil h
  simp [joined, List.intercalate]

theorem joined_append_singleton (way : List Text) (c : Text) :
    joined (way ++ [c]) = slashed way ++ c := by
  induction way with
  | nil => exact joined_singleton c
  | cons x way ih => rw [List.cons_append, joined_cons x (by simp), ih, slashed_cons]; simp

theorem joined_ne_nil {way : List Text} (hp : Pieces way) (h : way ≠ []) : joined way ≠ [] := by
  obtain ⟨x, way, rfl⟩ := List.exists_cons_of_ne_nil h
  have hx := (hp x List.mem_cons_self).1
  by_cases hw : way = []
  · rw [hw, joined_singleton]
    exact hx
  · rw [joined_cons x hw]
    simp

/-! ## The pieces of a text -/

namespace Selection.startComponents

theorem pieces_separator (text : Text) : pieces ('/' :: text) = pieces text := by
  rw [pieces, if_pos rfl]

theorem pieces_word {word : Text} (hne : word ≠ []) (hw : '/' ∉ word) (text : Text) :
    pieces (word ++ '/' :: text) = word :: pieces text := by
  induction word with
  | nil => exact (hne rfl).elim
  | cons c word ih =>
    have hc : c ≠ '/' := fun e => hw (e ▸ List.mem_cons_self)
    rw [List.cons_append, pieces, if_neg hc]
    by_cases hword : word = []
    · subst hword
      rw [List.nil_append, if_pos (.inl rfl), pieces_separator]
    · have hhead : ¬((word ++ '/' :: text).head? = some '/' ∨ word ++ '/' :: text = []) := by
        obtain ⟨x, rest, rfl⟩ := List.exists_cons_of_ne_nil hword
        have hx : x ≠ '/' := fun e => hw (by simp [e])
        simp [hx]
      rw [if_neg hhead, ih hword (fun h => hw (List.mem_cons_of_mem c h))]

theorem pieces_pieces (text : Text) : Pieces (pieces text) := by
  fun_induction pieces text with
  | case1 => exact fun _ h => by cases h
  | case2 _ ih => exact ih
  | case3 c rest hc _ ih =>
    intro x hx
    rcases List.mem_cons.mp hx with rfl | hx
    · exact ⟨by simp, by simpa using Ne.symm hc⟩
    · exact ih x hx
  | case4 c rest hc _ h ih =>
    intro x hx
    rw [List.mem_singleton.mp hx]
    exact ⟨by simp, by simpa using Ne.symm hc⟩
  | case5 c rest hc _ piece others h ih =>
    rw [h] at ih
    intro x hx
    rcases List.mem_cons.mp hx with rfl | hx
    · have hpiece := ih piece List.mem_cons_self
      exact ⟨by simp, by simpa [Ne.symm hc] using hpiece.2⟩
    · exact ih x (List.mem_cons_of_mem piece hx)

end Selection.startComponents

/-! ## Texts that agree as far as both go -/

/-- One of the texts is a beginning of the other. -/
def Agree (s t : Text) : Prop := s <+: t ∨ t <+: s

theorem agree_cons {a b : Char} {s t : Text} : Agree (a :: s) (b :: t) ↔ a = b ∧ Agree s t := by
  unfold Agree
  rw [List.cons_prefix_cons, List.cons_prefix_cons, eq_comm (a := b)]
  tauto

theorem Agree.of_isPrefix {s t u : Text} (h : Agree t u) (hs : s <+: t) : Agree s u := by
  rcases h with h | h
  · exact .inl (hs.trans h)
  · exact List.prefix_or_prefix_of_prefix hs h

theorem Agree.word {v w s t : Text} (hv : '/' ∉ v) (hw : '/' ∉ w)
    (h : Agree (v ++ '/' :: s) (w ++ '/' :: t)) : v = w ∧ Agree s t := by
  induction v generalizing w with
  | nil =>
    cases w with
    | nil => exact ⟨rfl, (agree_cons.mp h).2⟩
    | cons b w => exact (hw ((agree_cons.mp h).1 ▸ List.mem_cons_self)).elim
  | cons a v ih =>
    cases w with
    | nil => exact (hv ((agree_cons.mp h).1 ▸ List.mem_cons_self)).elim
    | cons b w =>
      obtain ⟨rfl, htail⟩ := agree_cons.mp h
      obtain ⟨rfl, hrest⟩ := ih (fun e => hv (List.mem_cons_of_mem a e))
        (fun e => hw (List.mem_cons_of_mem a e)) htail
      exact ⟨rfl, hrest⟩

/-- A closed text that agrees with one that begins with a piece begins with that piece. -/
theorem Agree.exists_rest {text word t : Text} (hc : Closed text) (hne : text ≠ [])
    (hword : word ≠ []) (hw : '/' ∉ word) (h : Agree text (word ++ '/' :: t)) :
    ∃ rest, text = word ++ '/' :: rest ∧ Closed rest ∧ Agree rest t := by
  obtain ⟨first, rest, rfl, hfirst⟩ := List.eq_append_cons_of_mem (hc.mem hne)
  obtain ⟨rfl, hrest⟩ := h.word hfirst hw
  exact ⟨rest, rfl, hc.of_suffix ⟨first ++ ['/'], by simp⟩, hrest⟩

namespace Selection.startComponents

/-- A way that begins with a closed text begins with the pieces of that text, and goes on. -/
theorem pieces_of_isPrefix {text : Text} (hc : Closed text) {way : List Text} (hp : Pieces way)
    (hne : way ≠ []) (h : text <+: joined way) :
    ∃ rest, rest ≠ [] ∧ way = pieces text ++ rest := by
  induction way generalizing text with
  | nil => exact (hne rfl).elim
  | cons x way ih =>
    obtain ⟨hx, hxs⟩ := hp x List.mem_cons_self
    have hway : Pieces way := fun y hy => hp y (List.mem_cons_of_mem x hy)
    by_cases htext : text = []
    · exact ⟨x :: way, hne, by simp [htext, pieces]⟩
    by_cases hw : way = []
    · -- A single piece has no separator in it.
      subst hw
      rw [joined_singleton] at h
      exact (hxs (h.subset (hc.mem htext))).elim
    · rw [joined_cons x hw] at h
      obtain ⟨rest, rfl, hrest, -⟩ := Agree.exists_rest hc htext hx hxs (.inl h)
      have htail : rest <+: joined way := by simpa using h
      obtain ⟨more, hmore, hsplit⟩ := ih hrest hway hw htail
      refine ⟨more, hmore, ?_⟩
      rw [pieces_word hx hxs, List.cons_append, ← hsplit]

/-- A way that agrees with a closed text goes along the pieces of that text as long as there are
any. -/
theorem eq_of_agree {text : Text} (hc : Closed text) {way more : List Text} {c x : Text}
    (hpieces : pieces text = way ++ c :: more) (hx : x ≠ []) (hxs : '/' ∉ x)
    (h : Agree text (slashed way ++ (x ++ ['/']))) : x = c := by
  have hway : Pieces (way ++ c :: more) := hpieces ▸ pieces_pieces text
  have hne : text ≠ [] := by
    rintro rfl
    simp [pieces] at hpieces
  induction way generalizing text with
  | nil =>
    obtain ⟨rest, rfl, -, -⟩ := Agree.exists_rest hc hne hx hxs h
    rw [pieces_word hx hxs] at hpieces
    exact (List.cons.inj hpieces).1
  | cons y way ih =>
    obtain ⟨hy, hys⟩ := hway y (by simp)
    rw [slashed_cons, List.append_assoc, List.cons_append] at h
    obtain ⟨rest, rfl, hrest, hagree⟩ := Agree.exists_rest hc hne hy hys h
    rw [pieces_word hy hys, List.cons_append] at hpieces
    have hpieces := (List.cons.inj hpieces).2
    refine ih hrest hpieces hagree (fun z hz => hway z (by simp_all)) ?_
    rintro rfl
    simp [pieces] at hpieces

end Selection.startComponents

/-! ## The verdict on a way -/

theorem fitConstant_agrees {text path : Text} (h : fitConstant true text path ≠ .mismatch) :
    Agree text path := by
  induction text generalizing path with
  | nil => exact .inl List.nil_prefix
  | cons a text ih =>
    cases path with
    | nil => exact .inr List.nil_prefix
    | cons b path =>
      rw [fitConstant] at h
      split at h
      · next hab => exact agree_cons.mpr ⟨by simpa [sameChar] using hab, ih h⟩
      · exact (h rfl).elim

theorem fitConstant_consumes {text path rest : Text} (h : fitConstant true text path = .consumed rest) :
    text <+: path := by
  induction text generalizing path with
  | nil => exact List.nil_prefix
  | cons a text ih =>
    cases path with
    | nil => cases h
    | cons b path =>
      rw [fitConstant] at h
      split at h
      · next hab => exact List.cons_prefix_cons.mpr ⟨by simpa [sameChar] using hab, ih h⟩
      · cases h

theorem upToSeparator_isPrefix (text : Text) : upToSeparator text <+: text := by
  induction text with
  | nil => exact List.prefix_refl _
  | cons c rest ih =>
    rw [upToSeparator]
    cases hk : upToSeparator rest with
    | nil =>
      dsimp only
      split
      · exact ⟨rest, rfl⟩
      · exact List.nil_prefix
    | cons b kept => exact List.cons_prefix_cons.mpr ⟨rfl, hk ▸ ih⟩

theorem closed_upToSeparator (text : Text) : Closed (upToSeparator text) := by
  induction text with
  | nil => exact .inl rfl
  | cons c rest ih =>
    rw [upToSeparator]
    cases hk : upToSeparator rest with
    | nil =>
      dsimp only
      split
      · next hc => exact .inr (by simp [hc])
      · exact .inl rfl
    | cons b kept =>
      rw [hk] at ih
      exact .inr (by simpa [List.getLast?_cons_cons] using ih.resolve_left (by simp))

namespace Pattern

variable {p : Pattern} {path : Text}

theorem directory_isPrefix (hc : p.dialect.caseSensitive = true) (h : p.accepts path = true) :
    p.directory <+: path := by
  unfold directory
  rw [accepts, hc] at h
  split
  · next text segments hs =>
    rw [hs, Segment.matchAll] at h
    split at h
    · next rest hf => exact (upToSeparator_isPrefix text).trans (fitConstant_consumes hf)
    · cases h
  · exact List.nil_prefix

/-- A path that a pattern keeps alive agrees with the pattern's directory. -/
theorem directory_agrees (hc : p.dialect.caseSensitive = true) (h : (p.verdict path).prune = false) :
    Agree p.directory (path ++ ['/']) := by
  unfold directory
  have halive : Segment.mayExtend true p.segments (path ++ ['/']) = true := by
    simpa [verdict, hc] using h
  split
  · next text segments hs =>
    refine (fitConstant_agrees ?_).of_isPrefix (upToSeparator_isPrefix text)
    intro hf
    obtain ⟨b, rest, hb⟩ := List.exists_cons_of_ne_nil (List.concat_ne_nil '/' path)
    rw [hs, hb] at halive
    simp only [Segment.mayExtend] at halive
    rw [← hb, hf] at halive
    cases halive
  · exact .inl List.nil_prefix

end Pattern

namespace Selection

variable {s : Selection} {path : Text}

theorem hit_iff : (s.verdict path).hit = true ↔
    s.excludes path = false ∧ ∃ p ∈ s.included, p.accepts path = true := by
  unfold verdict
  cases s.excludes path <;> simp [Pattern.verdict]

theorem prune_eq_false_iff : (s.verdict path).prune = false ↔
    s.excludes path = false ∧ ∃ p ∈ s.included, (p.verdict path).prune = false := by
  unfold verdict
  cases s.excludes path <;> simp

/-- What is above a path that an included pattern matches is not pruned, unless it is excluded. -/
theorem prune_eq_false_of_accepts {rest : Text} (hr : rest ≠ []) (he : s.excludes path = false)
    (h : ∃ p ∈ s.included, p.accepts (path ++ '/' :: rest) = true) :
    (s.verdict path).prune = false := by
  obtain ⟨p, hp, ha⟩ := h
  refine prune_eq_false_iff.mpr ⟨he, p, hp, ?_⟩
  cases hprune : (p.verdict path).prune with
  | false => rfl
  | true => simp [Pattern.accepts_eq_false_of_prune hprune hr] at ha

theorem prune_of_prune {rest : Text} (he : s.excludes path = false)
    (h : (s.verdict path).prune = true) : (s.verdict (path ++ '/' :: rest)).prune = true := by
  by_contra halive
  obtain ⟨-, p, hp, hmore⟩ := prune_eq_false_iff.mp (by simpa using halive)
  have hpath : (p.verdict path).prune = false := by
    simp only [Pattern.verdict, Bool.not_eq_false'] at hmore ⊢
    have hsplit : path ++ '/' :: rest ++ ['/'] = path ++ ['/'] ++ (rest ++ ['/']) := by simp
    rw [hsplit] at hmore
    exact Segment.mayExtend_of_append (closed_append_separator path) (by simp) hmore
  rw [prune_eq_false_iff.mpr ⟨he, p, hp, hpath⟩] at h
  cases h

theorem hit_of_prune {rest : Text} (hr : rest ≠ []) (he : s.excludes path = false)
    (h : (s.verdict path).prune = true) : (s.verdict (path ++ '/' :: rest)).hit = false := by
  by_contra hhit
  have hwanted := (hit_iff.mp (by simpa using hhit)).2
  rw [prune_eq_false_of_accepts hr he hwanted] at h
  cases h

/-! ## The start directory -/

theorem closed_startDirectory (s : Selection) : Closed s.startDirectory := by
  unfold startDirectory
  split
  · exact .inl rfl
  · split
    · exact .inl rfl
    · exact closed_upToSeparator _

theorem foldl_commonStart_isPrefix (first : Text) (others : List Text) :
    others.foldl commonStart first <+: first ∧
      ∀ text ∈ others, others.foldl commonStart first <+: text := by
  induction others generalizing first with
  | nil => exact ⟨List.prefix_refl _, fun _ h => by cases h⟩
  | cons text others ih =>
    obtain ⟨hfirst, hothers⟩ := ih (commonStart first text)
    refine ⟨hfirst.trans (commonStart_prefix_left first text), ?_⟩
    intro other hother
    rcases List.mem_cons.mp hother with rfl | hother
    · exact hfirst.trans (commonStart_prefix_right first other)
    · exact hothers other hother

/-- A start directory that is not empty is one of patterns for which case counts, and the directory of
each of them begins with it. -/
theorem startDirectory_isPrefix {p : Pattern} (hp : p ∈ s.included) (h : s.startDirectory ≠ []) :
    p.dialect.caseSensitive = true ∧ s.startDirectory <+: p.directory := by
  unfold startDirectory at h ⊢
  split at h
  · exact (h rfl).elim
  · next hcase =>
    rw [if_neg hcase]
    have hsens : p.dialect.caseSensitive = true := by
      by_contra hp'
      exact hcase (List.any_eq_true.mpr ⟨p, hp, by simpa using hp'⟩)
    refine ⟨hsens, ?_⟩
    have hmem : p.directory ∈ s.included.map (·.directory) := List.mem_map_of_mem hp
    cases hd : s.included.map (·.directory) with
    | nil => exact List.nil_prefix
    | cons first others =>
      rw [hd] at hmem
      obtain ⟨hfirst, hothers⟩ := foldl_commonStart_isPrefix first others
      refine (upToSeparator_isPrefix _).trans ?_
      rcases List.mem_cons.mp hmem with he | hmem
      · exact he ▸ hfirst
      · exact hothers _ hmem

theorem start_of_hit {way : List Text} (hp : Pieces way) (hne : way ≠ [])
    (h : (s.verdict (joined way)).hit = true) :
    ∃ rest, rest ≠ [] ∧ way = s.startComponents ++ rest := by
  apply startComponents.pieces_of_isPrefix (closed_startDirectory s) hp hne
  by_cases hnil : s.startDirectory = []
  · exact hnil ▸ List.nil_prefix
  · obtain ⟨-, p, hmem, ha⟩ := hit_iff.mp h
    obtain ⟨hcase, hstart⟩ := startDirectory_isPrefix hmem hnil
    exact hstart.trans (Pattern.directory_isPrefix hcase ha)

theorem start_of_alive {way more : List Text} {c x : Text}
    (hc : s.startComponents = way ++ c :: more) (hx : x ≠ []) (hxs : '/' ∉ x)
    (h : (s.verdict (slashed way ++ x)).prune = false) : x = c := by
  have hnil : s.startDirectory ≠ [] := by
    intro hnil
    simp [startComponents, hnil, startComponents.pieces] at hc
  obtain ⟨-, p, hmem, hp⟩ := prune_eq_false_iff.mp h
  obtain ⟨hcase, hstart⟩ := startDirectory_isPrefix hmem hnil
  have hagree := (Pattern.directory_agrees hcase hp).of_isPrefix hstart
  rw [List.append_assoc] at hagree
  exact startComponents.eq_of_agree (closed_startDirectory s) hc hx hxs hagree

theorem hit_above_start {way more : List Text} {c x : Text}
    (hc : s.startComponents = way ++ c :: more) (hx : x ≠ []) (hxs : '/' ∉ x) :
    (s.verdict (slashed way ++ x)).hit = false := by
  by_contra hhit
  have hway : Pieces (way ++ [x]) := by
    have hpieces : Pieces s.startComponents := startComponents.pieces_pieces _
    rw [hc] at hpieces
    intro y hy
    rcases List.mem_append.mp hy with hy | hy
    · exact hpieces y (List.mem_append_left _ hy)
    · rw [List.mem_singleton.mp hy]
      exact ⟨hx, hxs⟩
  rw [← joined_append_singleton] at hhit
  obtain ⟨rest, hrest, hsplit⟩ := start_of_hit hway (by simp) (by simpa using hhit)
  have hlen := congrArg List.length hsplit
  have hpos := List.length_pos_iff.mpr hrest
  simp only [hc, List.length_append, List.length_cons, List.length_nil] at hlen
  omega

end Selection

end TreeGlob
