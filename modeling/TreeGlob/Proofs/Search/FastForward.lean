import TreeGlob.Proofs.Search.Outcome

/-!
A search begins in the directory that all included patterns start with, and goes straight down to it.
This is compared to a full search, which begins at its base and visits every directory on the way.

* `run_visit_above_start` says what a full search does on the way: it takes the steps down, or fewer.
* `Compared` are the three ways in which it can go on, and `compared` says that it goes on in one of
  them, by induction along the way.
* `RefusedVisiting` and `RefusedDescending` are what can go wrong on either way.
* `sameOutcome_iff_unblocked` is the usual case: both come to the same just if the system refuses no
  real path on the way down. A full search asks for no real path of a name that is not listed, so what
  is refused then is nothing to it.
* `fast_forward_agrees_iff` is the main result, with the exact condition for paths of any length.
-/
namespace TreeGlob

def Task.Listed (d : Disk) (t : Task) : Prop := ∃ children, d.list t.path = .ok children

instance (d : Disk) (t : Task) : Decidable (t.Listed d) :=
  decidable_of_iff ((d.list t.path).toBool = true) (by
    unfold Task.Listed
    cases d.list t.path <;> simp [Except.toBool])

/-- Below a directory that has a real path, only the length of its path keeps it from being listed. -/
theorem Disk.DirectoryAt.listed_iff {d : Disk} (hd : d.Lawful) {t : Task} {place : Place}
    (hat : d.DirectoryAt t.path place) : t.Listed d ↔ t.path.bytes.length < maxPathLength := by
  refine ⟨?_, ?_⟩
  · intro h
    obtain ⟨children, hl⟩ := h
    obtain ⟨-, -, -, -, hlen⟩ := Disk.list_cases hl
    exact hlen
  · exact fun hlen => ⟨_, hat.list hd hlen⟩

namespace Selection

variable {d : Disk} {s : Selection} {t u : Task} {place : Place} {above : List Place}
  {components way : List Text}

/-! ## On the way to the start -/

theorem nodup_subtasks (hd : d.Lawful) {children : List Child} (hl : d.list t.path = .ok children) :
    (children.flatMap (t.subtasks s d.fileSystem)).Nodup := by
  have h := nodup_next (Disk.tidy hd) s t
  rwa [Task.next, FileSystem.entries_of_list (Disk.answer_eq_ok.mpr hl)] at h

theorem reports_above_start (hd : d.Lawful) (hplaced : t.Placed d place above) {children : List Child}
    (hl : d.list t.path = .ok children) {c : Text} (hc : s.startComponents = way ++ c :: components)
    (hrelative : t.relative = slashed way) :
    children.flatMap (t.reports s d.fileSystem) = [] := by
  apply List.eq_nil_iff_forall_not_mem.mpr
  intro p hp
  obtain ⟨x, hr, -, hhit, -⟩ := (Disk.mem_reports_iff hplaced hl).mp hp
  have hx := hr.pieces hd x (by simp)
  rw [hrelative, hit_above_start hc hx.1 hx.2] at hhit
  cases hhit

/-- The system finds no real path of a directory too long that is asked for. -/
def Bounded (d : Disk) (asked : List Query) : Prop := Unblocked d asked ∨ d.Fits

/-- Above the start, the only directory worth entering is the one that a step down enters. -/
theorem stepDown_of_subtasks (hd : d.Lawful) (hplaced : t.Placed d place above)
    (hat : d.DirectoryAt t.path place) {children : List Child} (hl : d.list t.path = .ok children)
    {c : Text} (hc : s.startComponents = way ++ c :: components) (hrelative : t.relative = slashed way)
    (hb : Bounded d ((s.stepDown t c).run d.fileSystem).asked)
    (hu : u ∈ children.flatMap (t.subtasks s d.fileSystem)) :
    ((s.stepDown t c).run d.fileSystem).ending = .ok (some u) := by
  obtain ⟨x, q, hq, hh, hprune, rfl⟩ := (Disk.mem_subtasks_iff hd hplaced hl).mp hu
  -- Only the next piece of the start directory can be alive here.
  have hx := hq.piece hd
  obtain rfl : x = c := start_of_alive hc hx.1 hx.2 (hrelative ▸ hprune)
  have he := (prune_eq_false_iff.mp hprune).1
  refine (stepDown_of_enters hd hplaced hat hq hh he fun hn => ?_).1
  rcases hb with hb | hshort
  · exact hb.ne_nameTooLong (canonicalize_mem_stepDown d.fileSystem hh he)
  · rw [hat.realPath_child hd hn (by simp) (hshort _ (by simp [hn]))]
    simp

/-- What a step down enters is worth entering, if its name is not pruned and its path is short enough
for a link to be looked up. -/
theorem subtasks_of_stepDown (hd : d.Lawful) (hplaced : t.Placed d place above)
    (hat : d.DirectoryAt t.path place) {children : List Child} (hl : d.list t.path = .ok children)
    {c : Text} (hc : c ≠ [] ∧ '/' ∉ c)
    (hlen : (t.path.child (Utf8.encode c)).bytes.length < maxPathLength)
    (hstep : ((s.stepDown t c).run d.fileSystem).ending = .ok (some u))
    (hprune : (s.verdict (t.relative ++ c)).prune = false) :
    u ∈ children.flatMap (t.subtasks s d.fileSystem) := by
  obtain ⟨q, hq, -, rfl⟩ := enters_of_stepDown hd hplaced hat hc hlen hstep
  obtain ⟨hh, -, -⟩ := stepDown_eq_some hstep
  exact (Disk.mem_subtasks_iff hd hplaced hl).mpr ⟨c, q, hq, hh, hprune, rfl⟩

/-- What a visit above the start comes to. -/
theorem run_visit_above_start (hd : d.Lawful) (hplaced : t.Placed d place above)
    (hat : d.DirectoryAt t.path place) {children : List Child} (hl : d.list t.path = .ok children)
    {c : Text} (hc : s.startComponents = way ++ c :: components) (hrelative : t.relative = slashed way)
    (hb : Bounded d ((s.stepDown t c).run d.fileSystem).asked) :
    ((t.visit s).run d.fileSystem).found = [] ∧
      ∃ next : Option Task, ((t.visit s).run d.fileSystem).ending = tasksOf (.ok next) ∧
        (∀ u, next = some u → ((s.stepDown t c).run d.fileSystem).ending = .ok (some u)) ∧
        ∀ u, ((s.stepDown t c).run d.fileSystem).ending = .ok (some u) →
          (s.verdict (t.relative ++ c)).prune = false →
          (t.path.child (Utf8.encode c)).bytes.length < maxPathLength → next = some u := by
  have hpieces : Pieces s.startComponents := startComponents.pieces_pieces _
  obtain ⟨asked, hrun, -, -⟩ := Disk.run_visit (s := s) hl
  have hsub := fun u => stepDown_of_subtasks (u := u) hd hplaced hat hl hc hrelative hb
  have hstep := fun u =>
    subtasks_of_stepDown (s := s) (u := u) hd hplaced hat hl (hpieces c (by simp [hc]))
  have hnodup := nodup_subtasks (s := s) hd hl
  rw [hrun]
  refine ⟨reports_above_start hd hplaced hl hc hrelative, ?_⟩
  dsimp only
  -- There is one task or none, since two would be for the same entry.
  match htasks : children.flatMap (t.subtasks s d.fileSystem) with
  | [] =>
    refine ⟨none, rfl, by simp, ?_⟩
    intro u hu hprune hlen
    have hmem := hstep u hlen hu hprune
    simp [htasks] at hmem
  | [v] =>
    refine ⟨some v, rfl, fun u hu => ?_, fun u hu hprune hlen => ?_⟩
    · obtain rfl := Option.some.inj hu
      exact hsub v (by simp [htasks])
    · have hmem := hstep u hlen hu hprune
      rw [htasks, List.mem_singleton] at hmem
      rw [hmem]
  | v :: v' :: others =>
    have hv := hsub v (by simp [htasks])
    rw [hsub v' (by simp [htasks])] at hv
    cases hv
    simp [htasks] at hnodup

theorem run_visit_below_pruned (hd : d.Lawful) (hplaced : t.Placed d place above)
    {children : List Child} (hl : d.list t.path = .ok children) {path rest : Text}
    (hrelative : t.relative = path ++ '/' :: rest) (he : s.excludes path = false)
    (hprune : (s.verdict path).prune = true) :
    ((t.visit s).run d.fileSystem).found = [] ∧ ((t.visit s).run d.fileSystem).ending = .ok [] := by
  obtain ⟨asked, hrun, -, -⟩ := Disk.run_visit (s := s) hl
  have hbelow : ∀ x, t.relative ++ x = path ++ '/' :: (rest ++ x) := by simp [hrelative]
  rw [hrun]
  refine ⟨?_, ?_⟩
  · apply List.eq_nil_iff_forall_not_mem.mpr
    intro p hp
    obtain ⟨x, hr, -, hhit, -⟩ := (Disk.mem_reports_iff hplaced hl).mp hp
    have hx := (hr.pieces hd x (by simp)).1
    rw [hbelow, hit_of_prune (by simp [hx]) he hprune] at hhit
    cases hhit
  · refine congrArg _ (List.eq_nil_iff_forall_not_mem.mpr fun u hu => ?_)
    obtain ⟨x, q, -, -, halive, -⟩ := (Disk.mem_subtasks_iff hd hplaced hl).mp hu
    rw [hbelow, prune_of_prune he hprune] at halive
    cases halive

theorem relative_of_descend
    (h : ((s.descend components t).run d.fileSystem).ending = .ok (some u)) :
    u.relative = t.relative ++ slashed components := by
  induction components generalizing t with
  | nil =>
    cases h
    simp
  | cons c components ih =>
    obtain ⟨next, hstep, h⟩ := descend_cons_eq_some.mp h
    obtain ⟨-, -, real, -, -, -, rfl⟩ := stepDown_eq_some hstep
    rw [ih h]
    simp [Task.enter, slashed_cons]

/-! ## Both searches -/

theorem Bounded.of_isPrefix {asked more : List Query} (hpre : asked <+: more) (h : Bounded d more) :
    Bounded d asked :=
  h.imp_left (·.of_isPrefix hpre)

theorem ending_descend_cons (d : Disk) (s : Selection) (t : Task) (c : Text) (components : List Text) :
    ((s.descend (c :: components) t).run d.fileSystem).ending =
      match ((s.stepDown t c).run d.fileSystem).ending with
      | .error why => .error why
      | .ok none => .ok none
      | .ok (some v) => ((s.descend components v).run d.fileSystem).ending := by
  rw [descend, Dialogue.run_bind, Transcript.andThen]
  cases ((s.stepDown t c).run d.fileSystem).ending with
  | error why => rfl
  | ok first => cases first <;> rfl

/-- The tasks of a search that visits every directory, so many levels down. -/
def within (s : Selection) (fs : FileSystem) : (levels : Nat) → Task → List Task
  | 0, t => [t]
  | levels + 1, t =>
    t :: match ((t.visit s).run fs).ending with
      | .ok tasks => tasks.flatMap (within s fs levels)
      | .error _ => []

/-- A search that cannot list its first directory breaks off. -/
theorem sameOutcome_of_not_listed (hd : d.Lawful) (hplaced : t.Placed d place above)
    (hat : d.DirectoryAt t.path place) (hl : ¬t.Listed d) :
    ∃ why, s.SameOutcome d.fileSystem d.extent (resume (.ok (some t))) (resume (.error why)) := by
  have hlong := Nat.le_of_not_lt (mt (hat.listed_iff hd).mpr hl)
  have hrun := Disk.run_visit_error (s := s) (hat.list_refused hlong)
  exact ⟨_, sameOutcome_of_visit hd hplaced (by rw [hrun]) (by rw [hrun]; rfl)⟩

/-- What a search from the task comes to that visits every directory, compared to one that takes the
steps down first. -/
inductive Compared (d : Disk) (s : Selection) (components : List Text) (t : Task) : Prop where
  /-- It breaks off on the way, and then the path of the start is too long as well. -/
  | refused {u : Task} {why : Failure} (hu : u ∈ s.within d.fileSystem components.length t)
      (hl : ¬u.Listed d)
      (hsame : s.SameOutcome d.fileSystem d.extent (resume (.ok (some t))) (resume (.error why)))
      (hlen : maxPathLength ≤ (t.path.descend components).bytes.length)
  /-- It comes to the start of the other. -/
  | joined {u : Task} (hl : ∀ v ∈ s.within d.fileSystem components.length t, v.Listed d)
      (hu : u ∈ s.within d.fileSystem components.length t)
      (hstart : ((s.descend components t).run d.fileSystem).ending = .ok (some u))
      (hsame : s.SameOutcome d.fileSystem d.extent (resume (.ok (some t))) (resume (.ok (some u))))
  /-- It comes to nothing, and so does the other wherever it begins, unless it breaks off. -/
  | left (hl : ∀ v ∈ s.within d.fileSystem components.length t, v.Listed d)
      (hsame : s.SameOutcome d.fileSystem d.extent (resume (.ok (some t))) (resume (.ok none)))
      (hstart : ∀ v, ((s.descend components t).run d.fileSystem).ending = .ok (some v) → v.Listed d →
        s.SameOutcome d.fileSystem d.extent (resume (.ok (some v))) (resume (.ok none)))

theorem mem_within_self (s : Selection) (fs : FileSystem) (levels : Nat) (t : Task) :
    t ∈ s.within fs levels t := by
  cases levels <;> simp [within]

theorem mem_within_succ {fs : FileSystem} {levels : Nat} {next : Option Task}
    (h : ((t.visit s).run fs).ending = tasksOf (.ok next)) :
    u ∈ s.within fs (levels + 1) t ↔ u = t ∨ ∃ v, next = some v ∧ u ∈ s.within fs levels v := by
  rw [within, h, tasksOf, List.mem_cons]
  cases next <;> simp

theorem Compared.of_not_listed (hd : d.Lawful) (hplaced : t.Placed d place above)
    (hat : d.DirectoryAt t.path place) (hp : Pieces components) (hl : ¬t.Listed d) :
    Compared d s components t := by
  obtain ⟨why, hsame⟩ := sameOutcome_of_not_listed (s := s) hd hplaced hat hl
  have hlong := Nat.le_of_not_lt (mt (hat.listed_iff hd).mpr hl)
  refine .refused (mem_within_self s d.fileSystem components.length t) hl hsame ?_
  calc maxPathLength ≤ t.path.bytes.length := hlong
    _ ≤ (t.path.descend components).bytes.length := Path.length_le_descend hp t.path

/-- A directory that leads to one other only, the same as a step down, comes to what that comes to. -/
theorem Compared.of_next {c : Text} {v : Task} (hl : t.Listed d)
    (hnext : ((t.visit s).run d.fileSystem).ending = tasksOf (.ok (some v)))
    (hvisit : s.SameOutcome d.fileSystem d.extent (resume (.ok (some t))) (resume (.ok (some v))))
    (hstep : ((s.stepDown t c).run d.fileSystem).ending = .ok (some v))
    (hpath : v.path = t.path.child (Utf8.encode c)) (h : Compared d s components v) :
    Compared d s (c :: components) t := by
  have hend : ((s.descend (c :: components) t).run d.fileSystem).ending =
      ((s.descend components v).run d.fileSystem).ending := by
    rw [ending_descend_cons, hstep]
  have hbelow : ∀ u ∈ s.within d.fileSystem components.length v,
      u ∈ s.within d.fileSystem (c :: components).length t :=
    fun u hu => (mem_within_succ hnext).mpr (.inr ⟨v, rfl, hu⟩)
  have hlisted : (∀ u ∈ s.within d.fileSystem components.length v, u.Listed d) →
      ∀ u ∈ s.within d.fileSystem (c :: components).length t, u.Listed d := by
    intro h u hu
    rcases (mem_within_succ hnext).mp hu with rfl | ⟨w, hw, hu⟩
    · exact hl
    · obtain rfl := Option.some.inj hw
      exact h u hu
  cases h with
  | refused hu hl hsame hlen =>
    exact .refused (hbelow _ hu) hl (hvisit.trans hsame) (by rwa [Path.descend_cons, ← hpath])
  | joined hl hu hstart hsame =>
    exact .joined (hlisted hl) (hbelow _ hu) (by rwa [hend]) (hvisit.trans hsame)
  | left hl hsame hstart =>
    exact .left (hlisted hl) (hvisit.trans hsame) (by rwa [hend])

/-- Where the step down is not worth entering for a search that visits every directory, nothing is
found further down. -/
theorem sameOutcome_of_passed (hd : d.Lawful) (hplaced : t.Placed d place above)
    (hat : d.DirectoryAt t.path place) {c : Text} (hp : Pieces components)
    (hstep : ∀ u, ((s.stepDown t c).run d.fileSystem).ending = .ok (some u) →
      (s.verdict (t.relative ++ c)).prune = false →
      ¬(t.path.child (Utf8.encode c)).bytes.length < maxPathLength)
    (hstart : ((s.descend (c :: components) t).run d.fileSystem).ending = .ok (some u))
    (hl : u.Listed d) :
    s.SameOutcome d.fileSystem d.extent (resume (.ok (some u))) (resume (.ok none)) := by
  obtain ⟨children, hlist⟩ := hl
  obtain ⟨-, -, -, -, hlen⟩ := Disk.list_cases hlist
  have hpath := path_of_descend hstart
  have hrelative := relative_of_descend hstart
  obtain ⟨q, above', hu, -⟩ := hplaced.of_descend hd hat hstart
  obtain ⟨next, hnext, -⟩ := descend_cons_eq_some.mp hstart
  obtain ⟨-, he, -⟩ := stepDown_eq_some hnext
  -- A path that can be listed leads through paths that are short enough as well.
  have hprune : (s.verdict (t.relative ++ c)).prune = true := by
    by_contra halive
    apply hstep next hnext (by simpa using halive)
    exact Path.length_child_lt_of_descend hp (hpath ▸ hlen)
  have hbelow : u.relative = t.relative ++ c ++ '/' :: slashed components := by
    simp [hrelative, slashed_cons]
  obtain ⟨hfound, hend⟩ := run_visit_below_pruned hd hu hlist hbelow he hprune
  exact sameOutcome_of_visit hd hu hfound hend

/-- A search that visits every directory, compared step by step. -/
theorem compared (hd : d.Lawful) (way : List Text) (hplaced : t.Placed d place above)
    (hat : d.DirectoryAt t.path place) (hc : s.startComponents = way ++ components)
    (hrelative : t.relative = slashed way)
    (hb : Bounded d ((s.descend components t).run d.fileSystem).asked) :
    Compared d s components t := by
  induction components generalizing t place above way with
  | nil =>
    by_cases hl : t.Listed d
    · exact .joined (by simpa [within] using hl) (mem_within_self _ _ _ _) rfl (.refl _ _ _ _)
    · exact .of_not_listed hd hplaced hat (by simp [Pieces]) hl
  | cons c components ih =>
    have hpieces : Pieces s.startComponents := startComponents.pieces_pieces _
    have hmore : Pieces (c :: components) := by
      intro x hx
      apply hpieces
      rw [hc]
      exact List.mem_append_right way hx
    by_cases hl : t.Listed d
    · obtain ⟨children, hlist⟩ := hl
      obtain ⟨hfound, next, hnext, hdown, honly⟩ := run_visit_above_start hd hplaced hat hlist hc
        hrelative (hb.of_isPrefix Dialogue.asked_bind_isPrefix)
      have hvisit := sameOutcome_of_visit hd hplaced hfound hnext
      cases next with
      | none =>
        refine .left ?_ hvisit fun v hv => ?_
        · intro v hv
          rcases (mem_within_succ hnext).mp hv with rfl | ⟨u, hu, -⟩
          · exact ⟨children, hlist⟩
          · cases hu
        · refine sameOutcome_of_passed hd hplaced hat (fun x hx => hmore x (by simp [hx])) ?_ hv
          intro u hu hprune hlen
          cases honly u hu hprune hlen
      | some v =>
        -- One directory of the full search is left out, and the rest is compared by induction.
        have hstep := hdown v rfl
        obtain ⟨q, hq, hat'⟩ := hplaced.of_stepDown hd hstep
        obtain ⟨-, -, real, -, -, -, rfl⟩ := stepDown_eq_some hstep
        have hrelative' : (t.enter (Utf8.encode c) c real).relative = slashed (way ++ [c]) := by
          simp [Task.enter, hrelative, slashed_append, slashed_cons]
        exact .of_next ⟨children, hlist⟩ hnext hvisit hstep rfl
          (ih (way ++ [c]) hq hat' (by simp [hc]) hrelative' (hb.imp_left (·.descend hstep)))
    · exact .of_not_listed hd hplaced hat hmore hl

/-! ## Refusals -/

/-- A step down asks for no other real path than that of its entry. -/
theorem eq_of_canonicalize_mem {fs : FileSystem} {c : Text} {path : Path}
    (hp : .canonicalize path ∈ ((s.stepDown t c).run fs).asked) :
    path = t.path.child (Utf8.encode c) ∧ s.hides c = false ∧
      s.excludes (t.relative ++ c) = false := by
  unfold stepDown at hp
  split at hp
  · cases hp
  · next hgo =>
    refine ⟨?_, by simpa using hgo⟩
    simp only [Dialogue.query, Dialogue.ask_bind, Dialogue.done_bind, Dialogue.run, List.mem_cons,
      Query.canonicalize.injEq] at hp
    refine hp.resolve_right fun hp => ?_
    cases hreal : fs (.canonicalize (t.path.child (Utf8.encode c))) with
    | crash => simp [hreal, Dialogue.run] at hp
    | error err =>
      simp only [hreal] at hp
      split at hp <;> cases hp
    | ok real =>
      simp only [hreal, Dialogue.run, List.mem_cons, reduceCtorEq, false_or] at hp
      split at hp
      · cases hp
      · split at hp <;> cases hp

theorem unblocked_of_stepDown {c : Text} {next : Option Task}
    (h : ((s.stepDown t c).run d.fileSystem).ending = .ok next) :
    Unblocked d ((s.stepDown t c).run d.fileSystem).asked := by
  intro path err hp hr
  obtain ⟨rfl, hh, he⟩ := eq_of_canonicalize_mem hp
  by_contra hkind
  rw [(Disk.run_stepDown d s t c).2, hr] at h
  simp [hh, he, hkind] at h

theorem unblocked_of_descend {start : Option Task}
    (h : ((s.descend components t).run d.fileSystem).ending = .ok start) :
    Unblocked d ((s.descend components t).run d.fileSystem).asked := by
  induction components generalizing t with
  | nil => exact fun _ _ hp => by cases hp
  | cons c components ih =>
    obtain ⟨next, hstep, hrest⟩ := Dialogue.ending_bind_eq_ok.mp h
    have hu := unblocked_of_stepDown hstep
    rw [descend, Dialogue.run_bind, Transcript.andThen, hstep]
    cases next with
    | none => simpa [Dialogue.run] using hu
    | some next =>
      intro path err hp
      rcases List.mem_append.mp hp with hp | hp
      · exact hu path err hp
      · exact ih hrest path err hp

/-- A search that visits every directory cannot list one of them, down to where the other begins. -/
def RefusedVisiting (d : Disk) (s : Selection) (t : Task) : Prop :=
  ∃ u ∈ s.within d.fileSystem s.startComponents.length t, ¬u.Listed d

/-- A search that goes straight down is refused a real path on the way, or cannot list its start. -/
def RefusedDescending (d : Disk) (way : Transcript (Option Task)) : Prop :=
  ¬Unblocked d way.asked ∨ ∃ u, way.ending = .ok (some u) ∧ ¬u.Listed d

instance (d : Disk) (s : Selection) (t : Task) : Decidable (RefusedVisiting d s t) :=
  inferInstanceAs (Decidable (∃ u ∈ s.within d.fileSystem s.startComponents.length t, ¬u.Listed d))

instance (d : Disk) (way : Transcript (Option Task)) : Decidable (RefusedDescending d way) :=
  decidable_of_iff (¬Unblocked d way.asked ∨ ∃ u ∈ way.ending.toOption.join, ¬u.Listed d) (by
    unfold RefusedDescending
    cases way.ending <;> simp [Except.toOption])

/-- Once it is down, a search breaks off if it is refused something, and otherwise begins with a
directory that can be listed, or with none. -/
theorem refusedDescending_cases (hd : d.Lawful) (hplaced : t.Placed d place above)
    (hat : d.DirectoryAt t.path place) (components : List Text) :
    (RefusedDescending d ((s.descend components t).run d.fileSystem) ∧
      ∃ why, s.SameOutcome d.fileSystem d.extent
        (resume ((s.descend components t).run d.fileSystem).ending) (resume (.error why))) ∨
    ¬RefusedDescending d ((s.descend components t).run d.fileSystem) ∧
      (((s.descend components t).run d.fileSystem).ending = .ok none ∨
        ∃ u, ((s.descend components t).run d.fileSystem).ending = .ok (some u) ∧ u.Listed d) := by
  cases hend : ((s.descend components t).run d.fileSystem).ending with
  | error why =>
    refine .inl ⟨.inl fun hu => ?_, why, .refl _ _ _ _⟩
    obtain ⟨start, hstart⟩ := descend_of_unblocked hu
    rw [hend] at hstart
    cases hstart
  | ok start =>
    have hu := unblocked_of_descend hend
    cases start with
    | none =>
      refine .inr ⟨?_, .inl rfl⟩
      rintro (hblocked | ⟨u, hstart, -⟩)
      · exact hblocked hu
      · rw [hend] at hstart
        cases hstart
    | some u =>
      by_cases hl : u.Listed d
      · refine .inr ⟨?_, .inr ⟨u, rfl, hl⟩⟩
        rintro (hblocked | ⟨v, hstart, hv⟩)
        · exact hblocked hu
        · rw [hend] at hstart
          cases hstart
          exact hv hl
      · obtain ⟨q, others, hq, hat'⟩ := hplaced.of_descend hd hat hend
        exact .inl ⟨.inr ⟨u, hend, hl⟩, sameOutcome_of_not_listed hd hq hat' hl⟩

/-! ## The comparison -/

/-- Going straight down makes no difference just if both ways are refused something, or neither. -/
theorem sameOutcome_descend_iff (hd : d.Lawful) (hplaced : t.Placed d place above)
    (hat : d.DirectoryAt t.path place) (hrelative : t.relative = [])
    (hb : Bounded d ((s.descend s.startComponents t).run d.fileSystem).asked) :
    s.SameOutcome d.fileSystem d.extent
        (resume ((s.descend s.startComponents t).run d.fileSystem).ending) (resume (.ok (some t))) ↔
      (RefusedVisiting d s t ↔
        RefusedDescending d ((s.descend s.startComponents t).run d.fileSystem)) := by
  have hdown := refusedDescending_cases (s := s) hd hplaced hat s.startComponents
  have hfull : Compared d s s.startComponents t := compared hd [] hplaced hat rfl hrelative hb
  cases hfull with
  | refused hu hl hsame hlen =>
    have hvisiting : RefusedVisiting d s t := ⟨_, hu, hl⟩
    rcases hdown with ⟨hrefused, why, hdown⟩ | ⟨hrefused, hend⟩
    · have hbroken := sameOutcome_broken s d.fileSystem d.extent
      exact iff_of_true (hdown.trans ((hbroken _ _).trans hsame.symm)) (iff_of_true hvisiting hrefused)
    · refine iff_of_false (fun h => ?_) fun h => hrefused (h.mp hvisiting)
      rcases hend with hend | ⟨v, hend, children, hv⟩
      · rw [hend] at h
        exact not_sameOutcome_broken (h.trans hsame).symm
      · obtain ⟨-, -, -, -, hshort⟩ := Disk.list_cases hv
        rw [path_of_descend hend] at hshort
        omega
  | joined hl hu hstart hsame =>
    have hvisiting : ¬RefusedVisiting d s t := fun ⟨v, hv, hn⟩ => hn (hl v hv)
    rw [hstart]
    refine iff_of_true hsame.symm (iff_of_false hvisiting ?_)
    intro hrefused
    rcases hrefused with hblocked | ⟨v, hv, hn⟩
    · exact hblocked (unblocked_of_descend hstart)
    · rw [hstart] at hv
      cases hv
      exact hn (hl _ hu)
  | left hl hsame hstart =>
    have hvisiting : ¬RefusedVisiting d s t := fun ⟨v, hv, hn⟩ => hn (hl v hv)
    rcases hdown with ⟨hrefused, why, hdown⟩ | ⟨hrefused, hend⟩
    · refine iff_of_false (fun h => ?_) fun h => hvisiting (h.mpr hrefused)
      exact not_sameOutcome_broken (hdown.symm.trans (h.trans hsame))
    · refine iff_of_true ?_ (iff_of_false hvisiting hrefused)
      rcases hend with hend | ⟨v, hend, hv⟩
      · rw [hend]
        exact hsame.symm
      · rw [hend]
        exact (hstart v hend hv).trans hsame.symm

theorem sameOutcome_begin (hd : d.Lawful) {base : Path} {b : Place} (hb : d.DirectoryAt base b)
    (components : List Text) :
    s.SameOutcome d.fileSystem d.extent (s.beginAlong components base)
      (resume ((s.descend components (firstTask base b)).run d.fileSystem).ending) := by
  obtain ⟨asked, -, hrun⟩ := run_beginAlong (s := s) hd hb components
  exact sameOutcome_resume (by rw [hrun]) (by rw [hrun])

theorem refusedDescending_begin (hd : d.Lawful) {base : Path} {b : Place}
    (hb : d.DirectoryAt base b) :
    RefusedDescending d ((s.begin base).run d.fileSystem) ↔
      RefusedDescending d ((s.descend s.startComponents (firstTask base b)).run d.fileSystem) := by
  rw [RefusedDescending, RefusedDescending, ending_begin hd hb, begin, unblocked_beginAlong hd hb]

theorem sameOutcome_begin_iff (hd : d.Lawful) {base : Path} {b : Place} (hb : d.DirectoryAt base b)
    (hbound : Bounded d ((s.begin base).run d.fileSystem).asked) :
    s.SameOutcome d.fileSystem d.extent (s.begin base) (s.beginAlong [] base) ↔
      (RefusedVisiting d s (firstTask base b) ↔
        RefusedDescending d ((s.begin base).run d.fileSystem)) := by
  have hdown := sameOutcome_begin (s := s) hd hb s.startComponents
  have hfull := sameOutcome_begin (s := s) hd hb []
  have hbound : Bounded d _ := hbound.imp_left (unblocked_beginAlong hd hb).mp
  rw [refusedDescending_begin hd hb,
    ← sameOutcome_descend_iff hd (placed_firstTask hd hb) hb rfl hbound]
  refine ⟨?_, ?_⟩
  · intro h
    exact hdown.symm.trans (h.trans hfull)
  · intro h
    exact hdown.trans (h.trans hfull.symm)

/-- Up to a start directory whose path is not too long to be listed, the only thing to be refused is a
real path. -/
theorem sameOutcome_iff_unblocked (hd : d.Lawful) (s : Selection) {base : Path} {b : Place}
    (hb : d.DirectoryAt base b)
    (hbound : Unblocked d ((s.begin base).run d.fileSystem).asked ∨ d.Fits)
    (hlen : (base.descend s.startComponents).bytes.length < maxPathLength) :
    s.SameOutcome d.fileSystem d.extent (s.begin base) (s.beginAlong [] base) ↔
      Unblocked d ((s.begin base).run d.fileSystem).asked := by
  have hplaced := placed_firstTask hd hb
  have hvisiting : ¬RefusedVisiting d s (firstTask base b) := by
    have hfull : Compared d s s.startComponents (firstTask base b) :=
      compared hd [] hplaced hb rfl rfl (hbound.imp_left (unblocked_beginAlong hd hb).mp)
    cases hfull with
    | refused _ _ _ hlong => exact fun _ => Nat.not_le_of_lt hlen hlong
    | joined hl | left hl => exact fun ⟨v, hv, hn⟩ => hn (hl v hv)
  have hstart : RefusedDescending d ((s.begin base).run d.fileSystem) ↔
      ¬Unblocked d ((s.begin base).run d.fileSystem).asked := by
    refine ⟨fun h hu => ?_, .inl⟩
    rcases (refusedDescending_begin hd hb).mp h with hblocked | ⟨u, hu', hn⟩
    · exact hblocked ((unblocked_beginAlong hd hb).mp hu)
    · obtain ⟨q, others, -, hat⟩ := hplaced.of_descend hd hb hu'
      refine hn ((hat.listed_iff hd).mpr ?_)
      rwa [path_of_descend hu']
  rw [sameOutcome_begin_iff hd hb hbound, hstart]
  simp [hvisiting]

/-- **Going straight down changes nothing, unless one way is refused what the other is not.** On a disk
that does not change, the search below a directory is compared to a full search below it. Both report
the same if they name the same paths, and both fail or neither.

* If no real path is refused on the way down for any other reason than that nothing is there, or if no
  absolute path on the disk is too long for the system, then they report the same just if both are
  refused something on the way to the start, or neither: a real path or the listing of the start on the
  way straight down, the listing of a directory as far down as the start in a full search.
* If a real path is refused, then they report the same just if a full search cannot but fail, and finds
  nothing. -/
theorem fast_forward_agrees_iff (hd : d.Lawful) (s : Selection) {base : Path} {b : Place}
    (hb : d.DirectoryAt base b) :
    (Unblocked d ((s.begin base).run d.fileSystem).asked ∨ d.Fits →
      (s.SameOutcome d.fileSystem d.extent (s.begin base) (s.beginAlong [] base) ↔
        (RefusedVisiting d s (firstTask base b) ↔
          RefusedDescending d ((s.begin base).run d.fileSystem)))) ∧
    (¬Unblocked d ((s.begin base).run d.fileSystem).asked →
      (s.SameOutcome d.fileSystem d.extent (s.begin base) (s.beginAlong [] base) ↔
        ∀ strategy r, s.CanReport (s.beginAlong [] base) d.fileSystem d.extent strategy r →
          r.found = [] ∧ r.failure ≠ none)) := by
  refine ⟨sameOutcome_begin_iff hd hb, ?_⟩
  intro hblocked
  have hbegin := sameOutcome_begin (s := s) hd hb s.startComponents
  cases hend : ((s.descend s.startComponents (firstTask base b)).run d.fileSystem).ending with
  | ok start => exact (hblocked ((unblocked_beginAlong hd hb).mpr (unblocked_of_descend hend))).elim
  | error why =>
    rw [hend] at hbegin
    rw [← sameOutcome_broken_iff]
    exact ⟨hbegin.symm.trans, hbegin.trans⟩

def belowLoop : Selection where
  included := [{ source := "loop/x".toList, segments := [.constant "loop/x".toList], dialect := {} }]
  excluded := []
  skipHidden := true

/-- The link `/loop`, which leads to itself, blocks the way down: a search that goes straight down
fails, one that lists every directory finds nothing. Nothing is refused from `/home` to `b`. -/
theorem fast_forward_agrees_iff_in_circular :
    ¬belowLoop.SameOutcome Disk.circular.fileSystem Disk.circular.extent
        (belowLoop.begin (.ofText "/".toList)) (belowLoop.beginAlong [] (.ofText "/".toList)) ∧
      (¬∀ strategy r, belowLoop.CanReport (belowLoop.beginAlong [] (.ofText "/".toList))
        Disk.circular.fileSystem Disk.circular.extent strategy r → r.found = [] ∧ r.failure ≠ none) ∧
      belowB.SameOutcome Disk.circular.fileSystem Disk.circular.extent
        (belowB.begin (.ofText "/home".toList)) (belowB.beginAlong [] (.ofText "/home".toList)) := by
  have hd : Disk.circular.Lawful := by decide
  have hroot : Disk.circular.DirectoryAt (.ofText "/".toList) [] :=
    ⟨(Disk.answer_eq_ok (p := ⟨[]⟩)).mp (by decide +kernel), by decide⟩
  have hfails : ¬belowLoop.SameOutcome Disk.circular.fileSystem Disk.circular.extent
      (belowLoop.begin (.ofText "/".toList)) (belowLoop.beginAlong [] (.ofText "/".toList)) := by
    rw [(fast_forward_agrees_iff hd belowLoop hroot).1 (.inr (by decide))]
    decide +kernel
  refine ⟨hfails, ?_, ?_⟩
  · have hblocked : ¬Unblocked Disk.circular
        ((belowLoop.begin (.ofText "/".toList)).run Disk.circular.fileSystem).asked := by
      decide +kernel
    exact mt ((fast_forward_agrees_iff hd belowLoop hroot).2 hblocked).mpr hfails
  · have hb : Disk.circular.DirectoryAt (.ofText "/home".toList) [Utf8.encode "a".toList] :=
      ⟨(Disk.answer_eq_ok (p := ⟨[]⟩)).mp (by decide +kernel), by decide⟩
    rw [(fast_forward_agrees_iff hd belowB hb).1 (.inr (by decide))]
    decide +kernel

end Selection

end TreeGlob
