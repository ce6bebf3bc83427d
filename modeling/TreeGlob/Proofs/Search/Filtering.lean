import TreeGlob.Proofs.Pattern.Componentwise
import TreeGlob.Proofs.Search.Completeness
import TreeGlob.Proofs.Search.Crew
import TreeGlob.Proofs.Selection.Compile
import TreeGlob.Search.Fault

/-!
Nothing that the selection filters out is ever reported, whatever the file system answers.

* `Query.Honest` is all that is assumed of an answer: listed names could be names.
* `Dialogue.Obeys` says what a dialogue reports, and what it ends with, under all such answers;
  `obeys_bind` puts dialogues together.
* `Task.Open` is what holds of every task of a search: all the way down to it has passed the filters.
  `obeys_visit` and `obeys_begin` say that a search keeps it.
* `Crew.Obeys` is the same for the workers of a parallel search. `Selection.never_leaks` is the main
  result.
-/
namespace TreeGlob

/-! ## Answers -/

/-- Listed names are not empty and have no separator in them. Anything else may be answered. -/
def Query.Honest : (q : Query) → q.Reply → Prop
  | .list _, reply => ∀ children, reply = .ok children →
      ∀ c ∈ children, c.name ≠ [] ∧ separator ∉ c.name
  | .resolve _, _ | .canonicalize _, _ | .leads _, _ | .isDirectory _, _ => True

def Answers.Honest (answers : Answers) : Prop := ∀ before (q : Query), q.Honest (answers before q)

namespace Dialogue

variable {α β : Type}

/-- Whatever honest answers the dialogue gets, it reports only such paths, and ends only with such a
value. -/
def Obeys (reports : Path → Prop) (ends : α → Prop) : Dialogue α → Prop
  | .done a => ends a
  | .stop _ => True
  | .report p rest => reports p ∧ rest.Obeys reports ends
  | .ask q next => ∀ reply, q.Honest reply → (next reply).Obeys reports ends

variable {reports : Path → Prop} {ends : α → Prop} {then_ : β → Prop}

theorem obeys_bind {d : Dialogue α} {f : α → Dialogue β} (h : d.Obeys reports ends)
    (hf : ∀ a, ends a → (f a).Obeys reports then_) : (d >>= f).Obeys reports then_ := by
  induction d with
  | done a => exact hf a h
  | stop why => trivial
  | report p rest ih => exact ⟨h.1, ih h.2⟩
  | ask q next ih => exact fun reply hreply => ih reply (h reply hreply)

theorem obeys_query (q : Query) : (query q).Obeys reports (fun reply => q.Honest reply) :=
  fun _ hreply => hreply

theorem runOn_of_obeys {answers : Answers} (ha : answers.Honest) {d : Dialogue α}
    (h : d.Obeys reports ends) (before : List Query) :
    (∀ p ∈ (d.runOn answers before).found, reports p) ∧
      ∀ a, (d.runOn answers before).ending = .ok a → ends a := by
  induction d generalizing before with
  | done a =>
    refine ⟨by simp [runOn], fun b hb => ?_⟩
    cases hb
    exact h
  | stop why => exact ⟨by simp [runOn], fun b hb => by cases hb⟩
  | report p rest ih =>
    obtain ⟨hfound, hending⟩ := ih h.2 before
    refine ⟨?_, hending⟩
    rw [runOn]
    exact List.forall_mem_cons.mpr ⟨h.1, hfound⟩
  | ask q next ih => exact ih _ (h _ (ha before q)) _

end Dialogue

/-! ## Ways -/

namespace Path

theorem isAbsolute_ofText {word : Text} (h : '/' ∉ word) (hne : word ≠ []) (rest : Text) :
    (ofText (word ++ rest)).isAbsolute = false := by
  have hbytes : (ofText (word ++ rest)).bytes = Utf8.encode word ++ Utf8.encode rest :=
    List.flatMap_append
  unfold isAbsolute
  rw [hbytes, List.head?_append_of_ne_nil _ (encode_ne_nil hne), decide_eq_false_iff_not]
  exact fun e => separator_not_mem_encode h (List.mem_of_head? e)

theorem join_ofText_cons (p : Path) {word other : Text} (hword : '/' ∉ word ∧ word ≠ [])
    (hother : '/' ∉ other ∧ other ≠ []) (rest : Text) :
    p.join (ofText (word ++ '/' :: (other ++ rest))) =
      (p.child (Utf8.encode word)).join (ofText (other ++ rest)) := by
  have hbytes : (ofText (word ++ '/' :: (other ++ rest))).bytes =
      Utf8.encode word ++ separator :: (ofText (other ++ rest)).bytes := List.flatMap_append
  have hword' := separator_not_mem_encode hword.1
  have hne := bytes_child_ne_nil p (encode_ne_nil hword.2) hword'
  have hlast : (p.child (Utf8.encode word)).bytes.getLast? ≠ some separator := by
    obtain ⟨b, hb⟩ :=
      Option.ne_none_iff_exists'.mp (mt List.getLast?_eq_none_iff.mp (encode_ne_nil hword.2))
    have hb' : b ≠ separator := fun e => hword' (e ▸ List.mem_of_getLast? hb)
    rw [bytes_child p hword']
    split
    · simpa [hb] using hb'
    · split <;> simpa [List.getLast?_append, List.getLast?_cons, hb] using hb'
  refine eq_of_bytes ?_
  unfold join
  rw [isAbsolute_ofText hword.1 hword.2, isAbsolute_ofText hother.1 hother.2, Bool.false_or,
    Bool.false_or, if_neg (c := (p.child (Utf8.encode word)).bytes.isEmpty = true) (by simpa using hne),
    if_neg hlast, bytes_child p hword']
  simp only [List.isEmpty_iff]
  split
  · exact hbytes
  · split
    · simp [hbytes]
    · simp [hbytes]

theorem join_joined {way : List Text} (hp : Pieces way) (hne : way ≠ []) (p : Path) :
    p.join (ofText (joined way)) = p.descend way := by
  induction way generalizing p with
  | nil => exact (hne rfl).elim
  | cons word way ih =>
    obtain ⟨hword, hway⟩ := List.forall_mem_cons.mp hp
    cases way with
    | nil => rw [joined_singleton]; rfl
    | cons other way =>
      have hother := (List.forall_mem_cons.mp hway).1
      obtain ⟨rest, hrest⟩ : ∃ rest, joined (other :: way) = other ++ rest := by
        by_cases h : way = []
        · exact ⟨[], by rw [h, joined_singleton, List.append_nil]⟩
        · exact ⟨_, joined_cons other h⟩
      rw [joined_cons word (by simp), descend_cons, ← ih hway (by simp), hrest]
      exact join_ofText_cons p hword.symm hother.symm rest

end Path

/-! ## What passes the filters -/

namespace Selection

/-- No name on the way is hidden, and nothing on the way is excluded. -/
structure Passes (s : Selection) (way : List Text) : Prop where
  shown : ∀ c ∈ way, s.hides c = false
  kept : ∀ above, above ≠ [] → above <+: way → s.excludes (joined above) = false

/-- The path is one below `base` that the selection wants. -/
def MayReport (s : Selection) (base p : Path) : Prop :=
  ∃ way, way ≠ [] ∧ Pieces way ∧ s.Wants [] way ∧ p = base.join (.ofText (joined way))

variable {s : Selection} {base : Path} {way : List Text} {c : Text}

theorem passes_nil : s.Passes [] where
  shown := by simp
  kept above hne hpre := (hne (List.prefix_nil.mp hpre)).elim

theorem Passes.append (h : s.Passes way) (hh : s.hides c = false)
    (he : s.excludes (slashed way ++ c) = false) : s.Passes (way ++ [c]) where
  shown := by simpa [or_imp, forall_and] using ⟨h.shown, hh⟩
  kept above hne hpre := by
    rcases List.prefix_concat_iff.mp hpre with rfl | hpre
    · rwa [joined_append_singleton]
    · exact h.kept above hne hpre

end Selection

namespace Task

variable {s : Selection} {base : Path} {t : Task} {c : Text}

/-- The task is for a directory below `base`, and the way to it has passed the filters. -/
def Open (s : Selection) (base : Path) (t : Task) : Prop :=
  ∃ way, Pieces way ∧ s.Passes way ∧ t.path = base.descend way ∧ t.relative = slashed way

theorem Open.relative_eq_nil_iff (h : t.Open s base) : t.relative = [] ↔ t.path = base := by
  obtain ⟨way, hpieces, -, hpath, hrelative⟩ := h
  refine ⟨fun hnil => ?_, fun hbase => ?_⟩
  · cases way with
    | nil => exact hpath
    | cons c way =>
      rw [hnil, slashed_cons] at hrelative
      simp at hrelative
  · have hnil : [] = way :=
      Path.descend_injective (List.forall_mem_nil _) hpieces (hbase.symm.trans hpath)
    rw [hrelative, ← hnil]
    rfl

theorem Open.append (h : t.Open s base) (hc : c ≠ [] ∧ '/' ∉ c) (hh : s.hides c = false)
    (he : s.excludes (t.relative ++ c) = false) :
    ∃ way, Pieces (way ++ [c]) ∧ s.Passes (way ++ [c]) ∧
      t.path.child (Utf8.encode c) = base.descend (way ++ [c]) ∧ t.relative = slashed way := by
  obtain ⟨way, hp, hpass, hpath, hrel⟩ := h
  refine ⟨way, ?_, hpass.append hh (hrel ▸ he), ?_, hrel⟩
  · intro x hx
    rcases List.mem_append.mp hx with hx | hx
    · exact hp x hx
    · exact List.mem_singleton.mp hx ▸ hc
  · rw [hpath, Path.descend_append]
    rfl

theorem open_enter (h : t.Open s base) (hc : c ≠ [] ∧ '/' ∉ c) (hh : s.hides c = false)
    (he : s.excludes (t.relative ++ c) = false) (real : Path) :
    (t.enter (Utf8.encode c) c real).Open s base := by
  obtain ⟨way, hp, hpass, hpath, hrel⟩ := h.append hc hh he
  refine ⟨way ++ [c], hp, hpass, hpath, ?_⟩
  rw [slashed_append, slashed_cons, slashed_nil, ← hrel]
  exact List.append_assoc _ _ _

theorem Open.mayReport (h : t.Open s base) (hc : c ≠ [] ∧ '/' ∉ c) (hh : s.hides c = false)
    (hhit : (s.verdict (t.relative ++ c)).hit = true) :
    s.MayReport base (t.path.child (Utf8.encode c)) := by
  obtain ⟨he, hmatch⟩ := Selection.hit_iff.mp hhit
  obtain ⟨way, hp, hpass, hpath, hrel⟩ := h.append hc hh he
  have hne : way ++ [c] ≠ [] := by simp
  refine ⟨way ++ [c], hne, hp, ⟨hpass.shown, hpass.kept, ?_⟩, ?_⟩
  · rwa [List.nil_append, joined_append_singleton, ← hrel]
  · rw [Path.join_joined hp hne, hpath]

end Task

/-! ## Searches -/

namespace Task

variable {s : Selection} {base : Path} {t : Task} {c : Child} {reports : Path → Prop}

theorem obeys_classify : (t.classify c).Obeys reports fun _ => True := by
  unfold classify
  split
  · trivial
  · refine Dialogue.obeys_bind (Dialogue.obeys_query _) fun reply _ => ?_
    cases reply with
    | ok destination =>
      refine Dialogue.obeys_bind (Dialogue.obeys_query _) fun isDirectory _ => ?_
      cases isDirectory <;> trivial
    | error e => trivial
    | crash => trivial

theorem conclude_eq (t : Task) (v : Verdict) (name : Name) (text : Text) (kind : Kind) :
    t.conclude v name text kind =
      if v.hit then .report (t.path.child name) (.done (t.conclusion v name text kind))
      else .done (t.conclusion v name text kind) := by
  unfold conclude conclusion
  cases v.hit <;> cases kind <;> cases v.prune <;> simp [Dialogue.announce]
  all_goals split <;> rfl

theorem obeys_conclude {name : Text} (h : t.Open s base) (hn : name ≠ [] ∧ '/' ∉ name)
    (hh : s.hides name = false) (kind : Kind) :
    (t.conclude (s.verdict (t.relative ++ name)) (Utf8.encode name) name kind).Obeys
      (s.MayReport base) fun tasks => ∀ u ∈ tasks, u.Open s base := by
  have hopen : ∀ u ∈ t.conclusion (s.verdict (t.relative ++ name)) (Utf8.encode name) name kind,
      u.Open s base := by
    cases kind with
    | other => simp [conclusion]
    | directory real viaLink =>
      simp only [conclusion]
      split
      · simp
      · next hgo =>
        rw [List.forall_mem_singleton]
        have hprune : (s.verdict (t.relative ++ name)).prune = false := by
          simp only [Bool.or_eq_true, not_or, Bool.not_eq_true] at hgo
          exact hgo.1
        exact open_enter h hn hh (Selection.prune_eq_false_iff.mp hprune).1 real
  rw [conclude_eq]
  split
  · next hhit => exact ⟨h.mayReport hn hh hhit, hopen⟩
  · exact hopen

theorem obeys_visitChild (h : t.Open s base) (hc : c.name ≠ [] ∧ separator ∉ c.name) :
    (t.visitChild s c).Obeys (s.MayReport base) fun tasks => ∀ u ∈ tasks, u.Open s base := by
  unfold visitChild
  cases hn : Utf8.decode? c.name with
  | none => simp [Dialogue.Obeys]
  | some name =>
    have hname := Disk.decode?_eq_some.mp hn
    rw [hname] at hc ⊢
    have hpiece := piece_of_encode hc
    dsimp only
    split
    · simp [Dialogue.Obeys]
    next hh =>
    split
    · simp [Dialogue.Obeys]
    refine Dialogue.obeys_bind obeys_classify fun kind _ => ?_
    cases kind with
    | none => simp [Dialogue.Obeys]
    | some kind => exact obeys_conclude h hpiece (by simpa using hh) kind

theorem obeys_visitChildren (h : t.Open s base) {children : List Child}
    (hc : ∀ c ∈ children, c.name ≠ [] ∧ separator ∉ c.name) :
    (t.visitChildren s children).Obeys (s.MayReport base) fun tasks => ∀ u ∈ tasks, u.Open s base := by
  induction children with
  | nil => simp [visitChildren, Dialogue.Obeys]
  | cons c children ih =>
    obtain ⟨hfirst, hothers⟩ := List.forall_mem_cons.mp hc
    refine Dialogue.obeys_bind (obeys_visitChild h hfirst) fun first hfirst => ?_
    refine Dialogue.obeys_bind (ih hothers) fun others hothers => ?_
    exact List.forall_mem_append.mpr ⟨hfirst, hothers⟩

/-- A visit reports only what passes the filters, and gives only tasks that do. -/
theorem obeys_visit (h : t.Open s base) :
    (t.visit s).Obeys (s.MayReport base) fun tasks => ∀ u ∈ tasks, u.Open s base := by
  refine Dialogue.obeys_bind (Dialogue.obeys_query _) fun reply hreply => ?_
  cases reply with
  | ok children => exact obeys_visitChildren h (hreply children rfl)
  | crash => trivial
  | error e =>
    dsimp only
    split
    · simp [Dialogue.Obeys]
    · trivial

end Task

namespace Selection

variable {s : Selection} {base : Path} {t : Task} {reports : Path → Prop}

theorem obeys_stepDown (h : t.Open s base) {c : Text} (hc : c ≠ [] ∧ '/' ∉ c) :
    (s.stepDown t c).Obeys reports fun next => ∀ u, next = some u → u.Open s base := by
  unfold stepDown
  split
  · simp [Dialogue.Obeys]
  next hgo =>
  obtain ⟨hh, he⟩ : s.hides c = false ∧ s.excludes (t.relative ++ c) = false := by simpa using hgo
  refine Dialogue.obeys_bind (Dialogue.obeys_query _) fun reply _ => ?_
  cases reply with
  | crash => trivial
  | error e =>
    dsimp only
    split
    · simp [Dialogue.Obeys]
    · trivial
  | ok real =>
    refine Dialogue.obeys_bind (Dialogue.obeys_query _) fun isDirectory _ => ?_
    split
    · simp [Dialogue.Obeys]
    · split
      · simp [Dialogue.Obeys]
      · rintro u ⟨⟩
        exact Task.open_enter h hc hh he real

theorem obeys_descend {components : List Text} (h : t.Open s base) (hp : Pieces components) :
    (s.descend components t).Obeys reports fun next => ∀ u, next = some u → u.Open s base := by
  induction components generalizing t with
  | nil =>
    rintro u ⟨⟩
    exact h
  | cons c components ih =>
    obtain ⟨hc, hp⟩ := List.forall_mem_cons.mp hp
    refine Dialogue.obeys_bind (obeys_stepDown h hc) fun next hnext => ?_
    cases next with
    | none => simp [Dialogue.Obeys]
    | some next => exact ih (hnext next rfl) hp

theorem obeys_begin (s : Selection) (base : Path) :
    (s.begin base).Obeys reports fun first => ∀ t, first = some t → t.Open s base := by
  refine Dialogue.obeys_bind (?_ : (baseTask base).Obeys _ fun t => t.Open s base) fun t ht => ?_
  · unfold baseTask
    refine Dialogue.obeys_bind (Dialogue.obeys_query _) fun reply _ => ?_
    refine Dialogue.obeys_bind (?_ : Dialogue.Obeys _ (fun _ => True) _) fun real _ => ?_
    · cases reply <;> trivial
    · refine Dialogue.obeys_bind (Dialogue.obeys_query _) fun isDirectory _ => ?_
      split
      · exact ⟨[], by simp [Pieces], passes_nil, rfl, rfl⟩
      · trivial
  · exact obeys_descend ht (startComponents.pieces_pieces _)

theorem open_of_begin {fs : FileSystem} (hfs : ∀ q : Query, q.Honest (fs q))
    (ht : ((s.begin base).run fs).ending = .ok (some t)) : t.Open s base := by
  have ha : Answers.Honest fun _ => fs := fun _ q => hfs q
  have hbegin : (s.begin base).Obeys (fun _ => True) _ := obeys_begin s base
  have hopen := (Dialogue.runOn_of_obeys ha hbegin []).2
  rw [Dialogue.runOn_const] at hopen
  exact hopen _ ht t rfl

theorem obeys_visitAll (depth : Nat) (h : t.Open s base) :
    (s.visitAll depth t).Obeys (s.MayReport base) fun _ => True := by
  induction depth generalizing t with
  | zero => trivial
  | succ depth ih =>
    refine Dialogue.obeys_bind (Task.obeys_visit h) fun tasks htasks => ?_
    induction tasks with
    | nil => trivial
    | cons u tasks ihTasks =>
      obtain ⟨hu, htasks⟩ := List.forall_mem_cons.mp htasks
      exact Dialogue.obeys_bind (ih hu) fun _ _ => ihTasks htasks

theorem obeys_sequential (s : Selection) (depth : Nat) (base : Path) :
    (s.sequential depth base).Obeys (s.MayReport base) fun _ => True := by
  refine Dialogue.obeys_bind (obeys_begin s base) fun first hfirst => ?_
  cases first with
  | none => trivial
  | some t => exact obeys_visitAll depth (hfirst t rfl)

end Selection

/-- What the workers have reported passes the filters, and so does what they may still report. -/
structure Crew.Obeys (s : Selection) (base : Path) (c : Crew) : Prop where
  found : ∀ p ∈ c.found, s.MayReport base p
  jobs : ∀ job ∈ jobsOf c.workers,
    job.Obeys (s.MayReport base) fun tasks => ∀ u ∈ tasks, u.Open s base

namespace Crew

variable {answers : Answers} {s : Selection} {base : Path} {c next : Crew}

/-- Every step keeps what is reported within the filters, whatever is answered. -/
theorem Obeys.step (ha : answers.Honest) (h : c.Obeys s base) (hs : Step answers s c next) :
    next.Obeys s base := by
  cases hs with
  | @report before after parent path rest =>
    obtain ⟨hpath, hrest⟩ := h.jobs (.report path rest) (mem_jobsOf_visiting _ _ _ _)
    refine ⟨List.forall_mem_append.mpr ⟨h.found, List.forall_mem_singleton.mpr hpath⟩, ?_⟩
    exact forall_jobsOf_visiting h.jobs hrest
  | @ask before after parent q rest found asked =>
    have hrest := h.jobs (.ask q rest) (mem_jobsOf_visiting _ _ _ _) _ (ha asked q)
    exact ⟨h.found, forall_jobsOf_visiting h.jobs hrest⟩
  | @spawn before after parent tasks =>
    have htasks := h.jobs (.done tasks) (mem_jobsOf_visiting _ _ _ _)
    refine ⟨h.found, forall_jobsOf h.jobs ?_ (jobsOf_spawn before after parent s tasks)⟩
    rw [List.forall_mem_map]
    exact fun t ht => Task.obeys_visit (htasks t ht)
  | breakOff | finish | fail | abort =>
    exact ⟨h.found, forall_jobsOf_quiet h.jobs rfl⟩

theorem Obeys.after (ha : answers.Honest) {first : Crew} (h : first.Obeys s base) {steps : Nat}
    (hafter : first.After answers s steps c) : c.Obeys s base := by
  induction hafter with
  | start => exact h
  | step _ hs ih => exact ih.step ha hs

theorem obeys_start {t : Task} (h : t.Open s base) (asked : List Query) :
    (start s asked t).Obeys s base where
  found _ hp := by cases hp
  jobs := by
    intro job hjob
    obtain rfl := List.mem_singleton.mp hjob
    exact Task.obeys_visit h

end Crew

/-! ## The standing excludes -/

namespace Selection

variable {s : Selection} {base : Path}

theorem exists_standing {d : Dialect} {standing : List Pattern}
    (h : Pattern.compileAll d standingExcludes = .ok standing) {name : Text}
    (hname : name = ".DS_Store".toList ∨ name = ".gitkeep".toList) :
    ∃ p ∈ standing, p.segments = [.globstar, .constant name] := by
  rw [compileAll_standingExcludes] at h
  split at h
  · cases h
    rcases hname with rfl | rfl <;> simp
  · cases h

/-- A name that every search leaves out is excluded wherever it stands. -/
theorem excludes_standing {d : Dialect} {included excluded : List Pattern} {skipHidden : Bool}
    (hs : ofPatterns d included excluded skipHidden = .ok s) {name : Text}
    (hname : name = ".DS_Store".toList ∨ name = ".gitkeep".toList) (way : List Text) :
    s.excludes (joined (way ++ [name])) = true := by
  unfold ofPatterns at hs
  cases hstanding : Pattern.compileAll d standingExcludes with
  | error e => simp [hstanding, bind, Except.bind] at hs
  | ok standing =>
    simp only [hstanding, bind, Except.bind, Except.ok.injEq] at hs
    subst hs
    obtain ⟨p, hp, hsegments⟩ := exists_standing hstanding hname
    refine List.any_eq_true.mpr ⟨p, List.mem_append_right _ hp, ?_⟩
    rw [Pattern.accepts, hsegments, joined_append_singleton]
    refine Segment.matchAll_cons_iff.mpr ⟨_, name, rfl, .inr (closed_slashed way), ?_⟩
    refine Segment.matchAll_cons_iff.mpr ⟨name, [], (List.append_nil _).symm, ?_, rfl⟩
    exact List.forall₂_same.mpr fun c _ => sameChar_self _ c

theorem Wants.not_standing {d : Dialect} {included excluded : List Pattern} {skipHidden : Bool}
    (hs : ofPatterns d included excluded skipHidden = .ok s) {way : List Text} (h : s.Wants [] way) :
    ∀ c ∈ way, c ≠ ".DS_Store".toList ∧ c ≠ ".gitkeep".toList := by
  intro c hc
  rw [← not_or]
  intro hname
  obtain ⟨above, below, rfl⟩ := List.append_of_mem hc
  have hkept := h.kept (above ++ [c]) (by simp) ⟨below, by simp⟩
  rw [List.nil_append, excludes_standing hs hname above] at hkept
  cases hkept

/-! ## The result -/

/-- The reports of a search pass the filters, on any file system that does not change. -/
theorem mayReport_of_search {fs : FileSystem} (hfs : ∀ q : Query, q.Honest (fs q)) (s : Selection)
    (strategy : Strategy) (extent : Extent) (base : Path) :
    ∀ p ∈ (s.search strategy fs extent base).found, s.MayReport base p := by
  have ha : Answers.Honest fun _ => fs := fun _ q => hfs q
  cases strategy with
  | sequential =>
    have h := (Dialogue.runOn_of_obeys ha (obeys_sequential s extent.depth base) []).1
    rwa [Dialogue.runOn_const] at h
  | parallel =>
    obtain ⟨hfound, hfirst⟩ := Dialogue.runOn_of_obeys ha (obeys_begin s base) []
    rw [Dialogue.runOn_const] at hfound hfirst
    show ∀ p ∈ (s.parallelFrom (s.begin base) fs id extent.steps).found, _
    cases hs : ((s.begin base).run fs).ending with
    | error why =>
      rw [parallelFrom_of_error hs]
      exact hfound
    | ok first =>
      cases first with
      | none =>
        rw [parallelFrom_of_none hs]
        exact hfound
      | some t =>
        obtain ⟨steps, c, hafter, hmirrors⟩ := Crew.exists_crew fs s [] t id extent.steps
        rw [parallelFrom_of_some hs, ← hmirrors.found_eq]
        exact ((Crew.obeys_start (hfirst _ hs t rfl) []).after ha hafter).found

/-- **Nothing that is filtered out leaks.** Whatever the file system answers, and even if it answers
differently each time, as long as listed names could be names: every path that a search reports, be it
sequential or parallel, whichever workers take their steps and wherever it ends, is joined from the base
and names none of which is hidden; nothing on the way is excluded, so none of the names is one that
every search leaves out; and an included pattern matches the whole. The same holds of what a reader of
the results gets. -/
theorem never_leaks {d : Dialect} {included excluded : List Pattern} {skipHidden : Bool}
    (hs : ofPatterns d included excluded skipHidden = .ok s) {answers : Answers} (ha : answers.Honest)
    (base : Path) :
    (∀ depth, ∀ p ∈ ((s.sequential depth base).runOn answers []).found, s.MayReport base p) ∧
    (∀ steps c, s.CrewAfter answers base steps c → ∀ p ∈ c.found, s.MayReport base p) ∧
    (∀ before strategy extent polls,
      ∀ p ∈ ((Feed.ofReport (s.search strategy (answers before) extent base)).readWithin polls).paths,
        s.MayReport base p) ∧
    ∀ way, s.Wants [] way → ∀ c ∈ way, c ≠ ".DS_Store".toList ∧ c ≠ ".gitkeep".toList := by
  refine ⟨fun depth => ?_, ?_, ?_, fun way h => h.not_standing hs⟩
  · exact (Dialogue.runOn_of_obeys ha (obeys_sequential s depth base) []).1
  · rintro steps c ⟨t, ht, hafter⟩
    have hbegin : (s.begin base).Obeys (fun _ => True) _ := obeys_begin s base
    have hopen := (Dialogue.runOn_of_obeys ha hbegin []).2
    exact ((Crew.obeys_start (hopen _ ht t rfl) _).after ha hafter).found
  · intro before strategy extent polls p hp
    exact mayReport_of_search (fun q => ha before q) s strategy extent base p
      (Feed.mem_of_ofReport (Feed.mem_of_readWithin hp))

end Selection

/-! ## Disks that change -/

theorem Disk.honest {d : Disk} (hd : d.Lawful) (q : Query) : q.Honest (d.fileSystem q) := by
  cases q with
  | list path =>
    exact fun children hl c hc => (Disk.tidy hd).named path c (FileSystem.entries_of_list hl ▸ hc)
  | resolve | canonicalize | leads | isDirectory => trivial

theorem FileSystem.honest_withFaults {fs : FileSystem} (h : ∀ q : Query, q.Honest (fs q))
    (faults : List Fault) (q : Query) : q.Honest (fs.withFaults faults q) := by
  cases q with
  | list path =>
    intro children hl
    change orFault faults .list path (fs (.list path)) = .ok children at hl
    rcases orFault_cases faults .list path (fs (.list path)) with hsame | ⟨f, -, -, -, hanswer⟩
    · exact h (.list path) children (hsame ▸ hl)
    · rw [hanswer, Fault.answer] at hl
      cases hk : f.kind <;> simp [hk] at hl
  | resolve | canonicalize | leads | isDirectory => trivial

/-- A disk that dies after six questions, which is when the search has just found what it can. -/
theorem Selection.never_leaks_in_circular :
    ∃ (s : Selection) (answers : Answers),
      Selection.ofPatterns {} Selection.belowB.included [] true = .ok s ∧ answers.Honest ∧
      (∀ q : Query, answers [] q = Disk.circular.fileSystem q) ∧
      (∃ q, answers (List.replicate 6 q) q ≠ Disk.circular.fileSystem q) ∧
      ((s.sequential 5 (.ofText "/home".toList)).runOn answers []).found =
        [.ofText "/home/b/up".toList] ∧
      s.MayReport (.ofText "/home".toList) (.ofText "/home/b/up".toList) := by
  have hs : Selection.ofPatterns {} Selection.belowB.included [] true =
      .ok { Selection.belowB with excluded := [
        ⟨"**/.DS_Store".toList, [.globstar, .constant ".DS_Store".toList], {}⟩,
        ⟨"**/.gitkeep".toList, [.globstar, .constant ".gitkeep".toList], {}⟩] } := by
    rw [Selection.ofPatterns, Selection.compileAll_standingExcludes]
    rfl
  have ha : Answers.Honest fun before => Disk.circular.fileSystem.withFaults
      (if before.length < 6 then [] else [⟨.list, .root, .crash⟩]) :=
    fun before q => FileSystem.honest_withFaults (Disk.honest (by decide)) _ q
  refine ⟨_, _, hs, ha, fun q => ?_, ⟨.list .root, by decide +kernel⟩, by decide +kernel, ?_⟩
  · exact congrFun (FileSystem.withFaults_nil Disk.circular.fileSystem) q
  · exact (Selection.never_leaks hs ha (.ofText "/home".toList)).1 5 _ (by decide +kernel)

end TreeGlob
