import TreeGlob.Proofs.Search.Termination

/-!
A parallel search does what a sequential one does, in some other order.

* `Selection.finish` is a job with all it leads to, one after the other.
* `Pool.allFound` and `Pool.allAsked` are what a pool has done together with what its jobs still have to
  do. One step keeps them (`due_step`), so a whole run does what was due at its start (`due_run`).
* `Dialogue.OnlyLooks` says that a dialogue neither lists nor resolves nor reports anything. The way to
  the first task is such a dialogue (`onlyLooks_begin`).
* `parallelFrom_agrees` compares a parallel search to the sequential one.
-/
namespace TreeGlob

namespace Selection

variable {fs : FileSystem} {s : Selection} {job : Dialogue (List Task)}

/-- A job with all it leads to, one after the other. -/
def finish (s : Selection) (depth : Nat) (job : Dialogue (List Task)) : Dialogue Unit :=
  job >>= fun tasks => tasks.forM (s.visitAll depth)

/-! ## Several tasks in order -/

section

variable {visit other : Task → Dialogue Unit} {tasks : List Task}

theorem forM_cons (visit : Task → Dialogue Unit) (t : Task) (tasks : List Task) :
    (t :: tasks).forM visit = visit t >>= fun _ => tasks.forM visit := rfl

theorem run_forM_congr (h : ∀ t ∈ tasks, (visit t).run fs = (other t).run fs) :
    (tasks.forM visit).run fs = (tasks.forM other).run fs := by
  induction tasks with
  | nil => rfl
  | cons t tasks ih =>
    rw [forM_cons, forM_cons, Dialogue.run_bind, Dialogue.run_bind, h t List.mem_cons_self,
      ih fun u hu => h u (List.mem_cons_of_mem t hu)]

theorem forM_eq_ok : ((tasks.forM visit).run fs).ending = .ok () ↔
    ∀ t ∈ tasks, ((visit t).run fs).ending = .ok () := by
  induction tasks with
  | nil => exact iff_of_true rfl (by simp)
  | cons t tasks ih =>
    rw [forM_cons, Dialogue.ending_bind_eq_ok, List.forall_mem_cons]
    refine ⟨?_, ?_⟩
    · intro hyp
      obtain ⟨⟨⟩, ht, hrest⟩ := hyp
      exact ⟨ht, ih.mp hrest⟩
    · intro hyp
      obtain ⟨ht, hrest⟩ := hyp
      exact ⟨(), ht, ih.mpr hrest⟩

theorem run_forM (h : ∀ t ∈ tasks, ((visit t).run fs).ending = .ok ()) :
    (tasks.forM visit).run fs = ⟨tasks.flatMap fun t => ((visit t).run fs).found,
      tasks.flatMap fun t => ((visit t).run fs).asked, .ok ()⟩ := by
  induction tasks with
  | nil => rfl
  | cons t tasks ih =>
    have ht := h t List.mem_cons_self
    have hrest := ih fun u hu => h u (List.mem_cons_of_mem t hu)
    rw [forM_cons, Dialogue.run_bind, Transcript.andThen, ht, hrest]
    simp

end

/-! ## What a job has to do -/

theorem run_visitAll_succ {depth : Nat} {t : Task} (h : s.Ends fs depth (t.visit s)) :
    (s.visitAll (depth + 1) t).run fs = (s.visitAll depth t).run fs := by
  induction depth generalizing t with
  | zero => exact h.elim
  | succ depth ih =>
    rw [visitAll, Dialogue.run_bind, visitAll, Dialogue.run_bind]
    unfold Transcript.andThen
    cases hv : ((t.visit s).run fs).ending with
    | error why => rfl
    | ok tasks =>
      have hcongr := run_forM_congr fun u hu => ih (h tasks hv u hu)
      simp only [hcongr]

/-- A job comes to an end, with all it leads to. -/
def Concludes (s : Selection) (fs : FileSystem) (depth : Nat) (job : Dialogue (List Task)) : Prop :=
  ((s.finish depth job).run fs).ending = .ok ()

/-- The jobs that take the place of one that ends do what it still had to do. -/
theorem finish_done {depth : Nat} {tasks : List Task}
    (h : s.Ends fs (depth + 1) (.done tasks)) :
    ((∀ t ∈ tasks, s.Concludes fs depth (t.visit s)) ↔ s.Concludes fs depth (.done tasks)) ∧
      (s.Concludes fs depth (.done tasks) →
        (s.finish depth (.done tasks)).run fs =
          ⟨tasks.flatMap fun t => ((s.finish depth (t.visit s)).run fs).found,
            tasks.flatMap fun t => ((s.finish depth (t.visit s)).run fs).asked, .ok ()⟩) := by
  have hdeep : ∀ t ∈ tasks, (s.finish depth (t.visit s)).run fs = (s.visitAll depth t).run fs :=
    fun t ht => run_visitAll_succ (h tasks rfl t ht)
  have hiff : (∀ t ∈ tasks, s.Concludes fs depth (t.visit s)) ↔
      s.Concludes fs depth (.done tasks) := by
    refine Iff.trans ?_ forM_eq_ok.symm
    exact forall₂_congr fun t ht => by rw [Concludes, hdeep t ht]
  refine ⟨hiff, ?_⟩
  intro hdone
  have hall := hiff.mpr hdone
  show (tasks.forM (s.visitAll depth)).run fs = _
  rw [← run_forM_congr hdeep]
  exact run_forM hall

end Selection

/-! ## What a pool has to do -/

/-- Where others take the place of one, and do with what was done in its turn what was due of it, what
was done with what is due stays the same. -/
theorem perm_flatMap_replace {α β : Type} {f : α → List β} {before news after jobs : List α} {job : α}
    {done more : List β} (hjobs : jobs.Perm (before ++ (news ++ after)))
    (h : more ++ news.flatMap f = f job) :
    (done ++ more ++ jobs.flatMap f).Perm (done ++ (before ++ job :: after).flatMap f) := by
  refine ((hjobs.flatMap_right f).append_left (done ++ more)).trans ?_
  simp only [List.flatMap_append, List.flatMap_cons, ← h, List.append_assoc]
  exact (List.perm_append_left_iff _).mpr (List.perm_append_comm_assoc _ _ _)

namespace Pool

variable {fs : FileSystem} {s : Selection} {p : Pool} {depth : Nat}

/-- Every job of the pool comes to an end. -/
def Concludes (s : Selection) (fs : FileSystem) (depth : Nat) (p : Pool) : Prop :=
  ∀ job ∈ p.jobs, s.Concludes fs depth job

def allFound (s : Selection) (fs : FileSystem) (depth : Nat) (p : Pool) : List Path :=
  p.found ++ p.jobs.flatMap fun job => ((s.finish depth job).run fs).found

def allAsked (s : Selection) (fs : FileSystem) (depth : Nat) (p : Pool) : List Query :=
  p.asked ++ p.jobs.flatMap fun job => ((s.finish depth job).run fs).asked

theorem allFound_start (job : Dialogue (List Task)) :
    (start job).allFound s fs depth = ((s.finish depth job).run fs).found := by
  simp [allFound, start]

theorem allAsked_start (job : Dialogue (List Task)) :
    (start job).allAsked s fs depth = ((s.finish depth job).run fs).asked := by
  simp [allAsked, start]

/-- What takes the place of a job does what was due of it, with what the job did in its turn. -/
theorem Turn.due {job : Dialogue (List Task)} {news : List (Dialogue (List Task))}
    {found : List Path} {asked : List Query} (ht : Turn fs s job news found asked)
    (h : s.Ends fs (depth + 1) job) :
    ((∀ new ∈ news, s.Concludes fs depth new) ↔ s.Concludes fs depth job) ∧
      (s.Concludes fs depth job →
        found ++ news.flatMap (fun new => ((s.finish depth new).run fs).found) =
            ((s.finish depth job).run fs).found ∧
          asked ++ news.flatMap (fun new => ((s.finish depth new).run fs).asked) =
            ((s.finish depth job).run fs).asked) := by
  cases ht with
  | done tasks =>
    obtain ⟨hiff, hrun⟩ := Selection.finish_done h
    refine ⟨?_, ?_⟩
    · rw [List.forall_mem_map]
      exact hiff
    · intro hdone
      rw [hrun hdone]
      exact ⟨by simp [List.flatMap_map], by simp [List.flatMap_map]⟩
  | report path rest =>
    refine ⟨?_, ?_⟩
    · rw [List.forall_mem_singleton]
      exact Iff.rfl
    · intro _
      exact ⟨by simp [Selection.finish, Dialogue.run], by simp [Selection.finish, Dialogue.run]⟩
  | ask q next =>
    refine ⟨?_, ?_⟩
    · rw [List.forall_mem_singleton]
      exact Iff.rfl
    · intro _
      exact ⟨by simp [Selection.finish, Dialogue.run], by simp [Selection.finish, Dialogue.run]⟩

/-- A step does something that was due, or it breaks the search off, which a sequential search would
have done as well. -/
theorem due_step (h : p.isOver = false) (hends : ∀ job ∈ p.jobs, s.Ends fs (depth + 1) job) (i : Nat) :
    ((p.step fs s i).failure ≠ none ∧ ¬p.Concludes s fs depth) ∨
      ((p.step fs s i).failure = none ∧
        ((p.step fs s i).Concludes s fs depth ↔ p.Concludes s fs depth) ∧
        (p.Concludes s fs depth →
          ((p.step fs s i).allFound s fs depth).Perm (p.allFound s fs depth) ∧
          ((p.step fs s i).allAsked s fs depth).Perm (p.allAsked s fs depth))) := by
  have hf : p.failure = none := by
    cases hf : p.failure with
    | none => rfl
    | some why => simp [isOver, hf] at h
  obtain ⟨before, job, after, hp, hstep⟩ := step_cases fs s h i
  have hjob : job ∈ p.jobs := by simp [hp]
  rcases hstep with ⟨news, found, asked, ht, hs⟩ | ⟨why, rfl, hs⟩
  · right
    obtain ⟨hiff, hdue⟩ := ht.due (hends job hjob)
    rw [hs]
    refine ⟨hf, ?_, ?_⟩
    · unfold Concludes
      simp only [hp, List.forall_mem_append, List.forall_mem_cons]
      tauto
    · intro hall
      obtain ⟨hfound, hasked⟩ := hdue (hall job hjob)
      unfold allFound allAsked
      rw [hp]
      exact ⟨perm_flatMap_replace (.refl _) hfound, perm_flatMap_replace (.refl _) hasked⟩
  · left
    rw [hs]
    refine ⟨by simp, ?_⟩
    intro hall
    cases hall _ hjob

/-- A pool that is over has failed, or it has done what was due when it began. -/
theorem due_run (depth : Nat) (hf : p.failure = none)
    (hends : ∀ job ∈ p.jobs, s.Ends fs (depth + 1) job) {pick : Nat → Nat} {count : Nat}
    (hover : (p.run fs s pick count).isOver = true) :
    ((p.run fs s pick count).failure = none ↔ p.Concludes s fs depth) ∧
      (p.Concludes s fs depth →
        ((p.run fs s pick count).found).Perm (p.allFound s fs depth) ∧
        ((p.run fs s pick count).asked).Perm (p.allAsked s fs depth)) := by
  -- A pool without jobs has nothing due.
  have hbase : ∀ {p : Pool}, p.failure = none → p.isOver = true →
      (p.failure = none ↔ p.Concludes s fs depth) ∧
        (p.Concludes s fs depth → p.found.Perm (p.allFound s fs depth) ∧
          p.asked.Perm (p.allAsked s fs depth)) := by
    intro p hf hover
    have hnil : p.jobs = [] := by simpa [isOver, hf] using hover
    refine ⟨iff_of_true hf (by simp [Concludes, hnil]), ?_⟩
    intro _
    exact ⟨by simp [allFound, hnil], by simp [allAsked, hnil]⟩
  induction count generalizing p with
  | zero => exact hbase hf hover
  | succ count ih =>
    rw [run] at hover ⊢
    split
    · next h => exact hbase hf h
    · next h =>
      rw [if_neg h] at hover
      have h : p.isOver = false := by simpa using h
      rcases due_step h hends (pick count) with ⟨hfail, hnot⟩ | ⟨hnone, hiff, hdue⟩
      · -- The job that broke off was due to break off, and the run is over with it.
        have hstop : (p.step fs s (pick count)).isOver = true := by
          cases hw : (p.step fs s (pick count)).failure with
          | none => exact (hfail hw).elim
          | some why => simp [isOver, hw]
        rw [run_of_isOver hstop]
        exact ⟨iff_of_false hfail hnot, fun hall => (hnot hall).elim⟩
      · rcases cost_step h hends (pick count) with hstop | ⟨hends', -⟩
        · rw [run_of_isOver hstop]
          obtain ⟨hiff', hdone⟩ := hbase hnone hstop
          refine ⟨hiff'.trans hiff, ?_⟩
          intro hall
          obtain ⟨hfound, hasked⟩ := hdone (hiff.mpr hall)
          exact ⟨hfound.trans (hdue hall).1, hasked.trans (hdue hall).2⟩
        · obtain ⟨hiff', hdone⟩ := ih hnone hends' hover
          refine ⟨hiff'.trans hiff, ?_⟩
          intro hall
          obtain ⟨hfound, hasked⟩ := hdone (hiff.mpr hall)
          exact ⟨hfound.trans (hdue hall).1, hasked.trans (hdue hall).2⟩

end Pool

/-! ## The way to the first task -/

def Query.isLook : Query → Bool
  | .canonicalize _ | .isDirectory _ => true
  | .list _ | .resolve _ | .leads _ => false

namespace Dialogue

variable {α β : Type} {d : Dialogue α}

/-- The dialogue reports nothing and only looks at what is there. -/
def OnlyLooks : Dialogue α → Prop
  | .done _ | .stop _ => True
  | .report _ _ => False
  | .ask q next => q.isLook = true ∧ ∀ reply, (next reply).OnlyLooks

theorem onlyLooks_bind {f : α → Dialogue β} (h : d.OnlyLooks) (hf : ∀ a, (f a).OnlyLooks) :
    (d >>= f).OnlyLooks := by
  induction d with
  | done a => exact hf a
  | stop why => trivial
  | report p rest => exact h.elim
  | ask q next ih => exact ⟨h.1, fun reply => ih reply (h.2 reply)⟩

theorem onlyLooks_query {q : Query} (h : q.isLook = true) : (query q).OnlyLooks :=
  ⟨h, fun _ => trivial⟩

theorem OnlyLooks.run_congr (h : d.OnlyLooks) {fs fs' : FileSystem}
    (hsame : ∀ q, q.isLook = true → fs' q = fs q) : d.run fs' = d.run fs := by
  induction d with
  | done a => rfl
  | stop why => rfl
  | report p rest => exact h.elim
  | ask q next ih =>
    rw [run, run, hsame q h.1, ih (fs q) (h.2 _)]

theorem OnlyLooks.found_eq_nil (h : d.OnlyLooks) (fs : FileSystem) : (d.run fs).found = [] := by
  induction d with
  | done a => rfl
  | stop why => rfl
  | report p rest => exact h.elim
  | ask q next ih => exact ih (fs q) (h.2 _)

theorem OnlyLooks.isLook (h : d.OnlyLooks) (fs : FileSystem) :
    ∀ q ∈ (d.run fs).asked, q.isLook = true := by
  induction d with
  | done a => simp [run]
  | stop why => simp [run]
  | report p rest => exact h.elim
  | ask q next ih => exact List.forall_mem_cons.mpr ⟨h.1, ih (fs q) (h.2 _)⟩

theorem OnlyLooks.listedIn_eq_nil (h : d.OnlyLooks) (fs : FileSystem) :
    listedIn (d.run fs).asked = [] := by
  refine List.filterMap_eq_nil_iff.mpr fun q hq => ?_
  have hlook := h.isLook fs q hq
  cases q with
  | list => cases hlook
  | resolve | canonicalize | leads | isDirectory => rfl

end Dialogue

namespace Selection

theorem onlyLooks_stepDown (s : Selection) (t : Task) (c : Text) : (s.stepDown t c).OnlyLooks := by
  unfold stepDown
  split
  · trivial
  refine Dialogue.onlyLooks_bind (Dialogue.onlyLooks_query rfl) fun reply => ?_
  cases reply with
  | crash => trivial
  | error e =>
    dsimp only
    split <;> trivial
  | ok real =>
    refine Dialogue.onlyLooks_bind (Dialogue.onlyLooks_query rfl) fun isDirectory => ?_
    (repeat' split) <;> trivial

theorem onlyLooks_descend (s : Selection) (components : List Text) (t : Task) :
    (s.descend components t).OnlyLooks := by
  induction components generalizing t with
  | nil => trivial
  | cons c components ih =>
    refine Dialogue.onlyLooks_bind (onlyLooks_stepDown s t c) fun next => ?_
    cases next with
    | none => trivial
    | some next => exact ih next

theorem onlyLooks_beginAlong (s : Selection) (components : List Text) (base : Path) :
    (s.beginAlong components base).OnlyLooks := by
  refine Dialogue.onlyLooks_bind ?_ fun t => onlyLooks_descend s _ t
  refine Dialogue.onlyLooks_bind (Dialogue.onlyLooks_query rfl) fun reply => ?_
  refine Dialogue.onlyLooks_bind (by cases reply <;> trivial) fun real => ?_
  refine Dialogue.onlyLooks_bind (Dialogue.onlyLooks_query rfl) fun isDirectory => ?_
  split <;> trivial

theorem onlyLooks_begin (s : Selection) (base : Path) : (s.begin base).OnlyLooks :=
  onlyLooks_beginAlong s s.startComponents base

end Selection

/-! ## Whole searches -/

namespace Selection

section

variable {fs : FileSystem} {s : Selection} {start : Dialogue (Option Task)} {depth : Nat}

theorem sequentialFrom_of_error {why : Failure} (h : (start.run fs).ending = .error why) :
    ((s.sequentialFrom start depth).run fs).report = (start.run fs).report := by
  unfold sequentialFrom
  simp [Dialogue.run_bind, Transcript.andThen, Transcript.report, h]

theorem sequentialFrom_of_none (h : (start.run fs).ending = .ok none) :
    ((s.sequentialFrom start depth).run fs).report = (start.run fs).report := by
  unfold sequentialFrom
  simp [Dialogue.run_bind, Transcript.andThen, Transcript.report, h, Dialogue.run]

theorem sequentialFrom_of_some {t : Task} (h : (start.run fs).ending = .ok (some t)) :
    (s.sequentialFrom start depth).run fs =
      ⟨(start.run fs).found ++ ((s.visitAll depth t).run fs).found,
        (start.run fs).asked ++ ((s.visitAll depth t).run fs).asked,
        ((s.visitAll depth t).run fs).ending⟩ := by
  unfold sequentialFrom
  simp [Dialogue.run_bind, Transcript.andThen, h]

end

variable {d : Disk} {s : Selection} {base : Path} {components : List Text}

theorem listedIn_append (asked more : List Query) :
    listedIn (asked ++ more) = listedIn asked ++ listedIn more := List.filterMap_append

theorem mem_listedIn {asked : List Query} {p : Path} : p ∈ listedIn asked ↔ .list p ∈ asked := by
  rw [listedIn, List.mem_filterMap]
  refine ⟨fun h => ?_, fun h => ⟨_, h, rfl⟩⟩
  obtain ⟨q, hq, hp⟩ := h
  cases q with
  | list path => exact Option.some.inj hp ▸ hq
  | resolve | canonicalize | leads | isDirectory => cases hp

/-- However its jobs take turns, a parallel search fails if the sequential one does, and otherwise it
finds and lists the same. -/
theorem parallelFrom_agrees (hd : d.Lawful) (s : Selection) (components : List Text) (base : Path)
    (pick : Nat → Nat) :
    let r := s.parallelFrom (s.beginAlong components base) d.fileSystem pick d.extent.steps
    let q := ((s.sequentialFrom (s.beginAlong components base) d.extent.depth).run
      d.fileSystem).report
    (r.failure = none ↔ q.failure = none) ∧
      (q.failure = none → r.found.Perm q.found ∧ r.listed.Perm q.listed) := by
  intro r q
  cases hs : ((s.beginAlong components base).run d.fileSystem).ending with
  | error why =>
    have hrq : r = q := (parallelFrom_of_error hs).trans (sequentialFrom_of_error hs).symm
    rw [hrq]
    exact ⟨Iff.rfl, fun _ => ⟨.refl _, .refl _⟩⟩
  | ok start =>
    cases start with
    | none =>
      have hrq : r = q := (parallelFrom_of_none hs).trans (sequentialFrom_of_none hs).symm
      rw [hrq]
      exact ⟨Iff.rfl, fun _ => ⟨.refl _, .refl _⟩⟩
    | some t =>
      have hcreated : s.Created d.fileSystem base t := .start hs
      have hnothing := (onlyLooks_beginAlong s components base).found_eq_nil d.fileSystem
      have hover := hcreated.isOver_run hd pick
      have hends : ∀ job ∈ (Pool.start (t.visit s)).jobs, s.Ends d.fileSystem d.extent.depth job :=
        fun job hjob => List.mem_singleton.mp hjob ▸ hcreated.ends hd
      obtain ⟨hiff, hdue⟩ := Pool.due_run (d.entries.length + 1) rfl hends hover
      -- Both begin with the same task, and what its visit leads to is due in either.
      have hr : r = ⟨((Pool.start (t.visit s)).run d.fileSystem s pick d.extent.steps).found,
          listedIn (((s.beginAlong components base).run d.fileSystem).asked ++
            ((Pool.start (t.visit s)).run d.fileSystem s pick d.extent.steps).asked),
          ((Pool.start (t.visit s)).run d.fileSystem s pick d.extent.steps).failure⟩ := by
        show s.parallelFrom _ _ _ _ = _
        rw [parallelFrom_of_some hs, if_pos hover]
      have hq : q = (Transcript.mk ((s.visitAll d.extent.depth t).run d.fileSystem).found
          (((s.beginAlong components base).run d.fileSystem).asked ++
            ((s.visitAll d.extent.depth t).run d.fileSystem).asked)
          ((s.visitAll d.extent.depth t).run d.fileSystem).ending).report := by
        show Transcript.report _ = _
        rw [sequentialFrom_of_some hs, hnothing, List.nil_append]
      have hconcludes : (Pool.start (t.visit s)).Concludes s d.fileSystem (d.entries.length + 1) ↔
          ((s.visitAll d.extent.depth t).run d.fileSystem).ending = .ok () := List.forall_mem_singleton
      have hfailure : q.failure = none ↔
          ((s.visitAll d.extent.depth t).run d.fileSystem).ending = .ok () := by
        rw [hq]
        unfold Transcript.report
        cases ((s.visitAll d.extent.depth t).run d.fileSystem).ending <;> simp
      refine ⟨by rw [hr, hfailure, ← hconcludes, ← hiff], ?_⟩
      intro hnone
      obtain ⟨hfound, hasked⟩ := hdue (hconcludes.mpr (hfailure.mp hnone))
      rw [hr, hq]
      refine ⟨?_, ?_⟩
      · rwa [Pool.allFound_start] at hfound
      · show (listedIn _).Perm (listedIn _)
        rw [listedIn_append, listedIn_append]
        rw [Pool.allAsked_start] at hasked
        exact (List.perm_append_left_iff _).mpr (hasked.filterMap _)

end Selection

end TreeGlob
