import Mathlib.Data.List.Flatten
import Mathlib.Data.List.Perm.Subperm
import TreeGlob.Proofs.Search.Refusals

/-!
What a search may list, whichever way it runs and wherever it breaks off. This is told for any file
system that is tidy and that the search does not lead too deep in.

* `Selection.leftToList` are the directories that a job has yet to list, with all it leads to.
  `Pool.Turn.leftToList` says that a turn lists some of them and leaves the others.
* `Crew.Within` says that the workers have listed no more than some given paths, together with what is
  left to list. Every step keeps it (`Within.step`), also one with which a worker gives up: it drops what
  was left to it.
* `listed_visitAll_isPrefix` says that a sequential search lists the directories in order, as many of
  them as it comes to.
* `listed_subperm_of_crew` and `CanReport.listed_subperm` say that no search lists more than it would
  visit in order.
-/
namespace TreeGlob

namespace Task

variable {fs : FileSystem} {s : Selection} {t : Task}

theorem listedIn_visit (s : Selection) (fs : FileSystem) (t : Task) :
    listedIn ((t.visit s).run fs).asked = [t.path] := by
  simpa using s.listedIn_visits fs [t]

theorem next_eq_nil_of_visit (hfs : fs.Tidy) {why : Failure}
    (h : ((t.visit s).run fs).ending = .error why) : t.next s fs = [] := by
  cases hl : fs (.list t.path) with
  | ok children =>
    rw [run_visit_of_visitable hfs (.inl ⟨children, hl⟩)] at h
    cases h
  | error | crash => simp [next, FileSystem.entries, hl]

end Task

namespace Selection

variable {fs : FileSystem} {s : Selection} {t : Task} {depth : Nat}

theorem order_succ (hfs : fs.Tidy) (h : s.Ends fs depth (t.visit s)) :
    s.order fs (depth + 1) t = s.order fs depth t := by
  induction depth generalizing t with
  | zero => exact h.elim
  | succ depth ih =>
    have hnext := List.flatMap_congr fun u hu => ih (Task.ends_next hfs h u hu)
    rw [order, hnext, order]

/-! ## What is left to list -/

/-- The tasks that a job gives in the end; none if it breaks off. -/
def given (fs : FileSystem) (job : Dialogue (List Task)) : List Task :=
  match (job.run fs).ending with
  | .ok tasks => tasks
  | .error _ => []

theorem given_visit (hfs : fs.Tidy) (s : Selection) (t : Task) :
    given fs (t.visit s) = t.next s fs := by
  unfold given
  cases hv : ((t.visit s).run fs).ending with
  | ok tasks => exact Task.eq_next_of_visit hfs hv
  | error why => exact (Task.next_eq_nil_of_visit hfs hv).symm

/-- The directories that a job has yet to list, with all that it leads to. -/
def leftToList (s : Selection) (fs : FileSystem) (depth : Nat) (job : Dialogue (List Task)) :
    List Path :=
  listedIn (job.run fs).asked ++ (given fs job).flatMap fun u => (s.order fs depth u).map (·.path)

theorem leftToList_visit (hfs : fs.Tidy) (s : Selection) (depth : Nat) (t : Task) :
    s.leftToList fs depth (t.visit s) = (s.order fs (depth + 1) t).map (·.path) := by
  rw [leftToList, Task.listedIn_visit, given_visit hfs, order, List.map_cons, List.map_flatMap]
  rfl

end Selection

/-- What a job lists in its turn, and what is left then, is what was left before. -/
theorem Pool.Turn.leftToList {fs : FileSystem} {s : Selection} {depth : Nat} (hfs : fs.Tidy)
    {job : Dialogue (List Task)} {news : List (Dialogue (List Task))} {found : List Path}
    {asked : List Query} (ht : Turn fs s job news found asked) (h : s.Ends fs (depth + 1) job) :
    listedIn asked ++ news.flatMap (s.leftToList fs depth) = s.leftToList fs depth job := by
  cases ht with
  | done tasks =>
    have hdeep : ∀ u ∈ tasks, s.Ends fs depth (u.visit s) := h tasks rfl
    rw [List.flatMap_map]
    refine List.flatMap_congr fun u hu => ?_
    rw [Selection.leftToList_visit hfs, Selection.order_succ hfs (hdeep u hu)]
  | report path rest => exact List.flatMap_singleton _ _
  | ask q next =>
    rw [List.flatMap_singleton, Selection.leftToList, ← List.append_assoc, ← Selection.listedIn_append]
    rfl

/-! ## Workers -/

/-- The workers have listed no more than the given paths, together with what is left to list, each no
more often than it is given. -/
structure Crew.Within (s : Selection) (fs : FileSystem) (depth : Nat) (paths : List Path) (c : Crew) :
    Prop where
  ends : ∀ job ∈ jobsOf c.workers, s.Ends fs (depth + 1) job
  subperm : (listedIn c.asked ++ (jobsOf c.workers).flatMap (s.leftToList fs depth)).Subperm paths

namespace Crew

variable {fs : FileSystem} {s : Selection} {depth : Nat} {paths : List Path} {c next : Crew}

theorem within_start (hfs : fs.Tidy) {t : Task} (h : s.Ends fs (depth + 1) (t.visit s))
    (asked : List Query) :
    (start s asked t).Within s fs depth (listedIn asked ++ (s.order fs (depth + 1) t).map (·.path)) where
  ends := List.forall_mem_singleton.mpr h
  subperm := by
    show (_ ++ [t.visit s].flatMap _).Subperm _
    rw [List.flatMap_singleton, Selection.leftToList_visit hfs]
    exact .refl _

/-- Where the visit of a worker goes on in other visits, what it lists is no longer left to list. -/
theorem Within.turn (hfs : fs.Tidy) {before after workers : List Worker} {parent : Option Nat}
    {job : Dialogue (List Task)} {news : List (Dialogue (List Task))} {found more : List Path}
    {asked questions : List Query}
    (h : Within s fs depth paths ⟨before ++ ⟨parent, .visiting job⟩ :: after, found, asked⟩)
    (ht : Pool.Turn fs s job news more questions)
    (hjobs : (jobsOf workers).Perm (jobsOf before ++ (news ++ jobsOf after))) :
    Within s fs depth paths ⟨workers, found ++ more, asked ++ questions⟩ where
  ends := (ends_turn h.ends ht hjobs).1
  subperm := by
    have hleft := ht.leftToList hfs (h.ends job (mem_jobsOf_visiting before after parent job))
    have hold := h.subperm
    rw [jobsOf_visiting] at hold
    rw [Selection.listedIn_append]
    exact (perm_flatMap_replace hjobs hleft).subperm.trans hold

/-- A worker that visits nothing any more leaves the others what is left to them. -/
theorem Within.quiet {before after : List Worker} {w w' : Worker} {found : List Path}
    {asked : List Query} (h : Within s fs depth paths ⟨before ++ w :: after, found, asked⟩)
    (hw : w'.stage.job? = none) : Within s fs depth paths ⟨before ++ w' :: after, found, asked⟩ where
  ends := forall_jobsOf_quiet h.ends hw
  subperm := by
    have hjobs : (jobsOf (before ++ w' :: after)).Sublist (jobsOf (before ++ w :: after)) := by
      rw [jobsOf_quiet hw, jobsOf_append, jobsOf_cons]
      exact (List.sublist_append_right _ _).append_left _
    exact ((hjobs.flatMap _).append_left _).subperm.trans h.subperm

/-- Every step lists something that was left to list, or nothing. -/
theorem Within.step (hfs : fs.Tidy) (h : c.Within s fs depth paths) (hs : Step (fun _ => fs) s c next) :
    next.Within s fs depth paths := by
  cases hs with
  | @report before after parent path rest found asked =>
    have hturn := h.turn hfs (.report path rest) (.of_eq (jobsOf_visiting before after parent rest))
    rwa [List.append_nil] at hturn
  | @ask before after parent q rest found asked =>
    have hturn := h.turn hfs (.ask q rest) (.of_eq (jobsOf_visiting before after parent (rest (fs q))))
    rwa [List.append_nil] at hturn
  | @spawn before after parent tasks found asked =>
    have hturn := h.turn hfs (.done tasks) (jobsOf_spawn before after parent s tasks)
    rwa [List.append_nil, List.append_nil] at hturn
  | breakOff | finish | fail | abort => exact h.quiet rfl

theorem Within.after (hfs : fs.Tidy) {first : Crew} (h : first.Within s fs depth paths) {steps : Nat}
    (hafter : first.After (fun _ => fs) s steps c) : c.Within s fs depth paths := by
  induction hafter with
  | start => exact h
  | step _ hs ih => exact ih.step hfs hs

end Crew

namespace Selection

variable {fs : FileSystem} {s : Selection} {base : Path} {t : Task} {depth steps : Nat}

/-- Whatever the workers have listed by now, it is no more than would be visited in order. -/
theorem listed_subperm_of_crew (hfs : fs.Tidy) (hends : s.Ends fs (depth + 1) (t.visit s))
    (asked : List Query) {c : Crew} (hafter : (Crew.start s asked t).After (fun _ => fs) s steps c) :
    (listedIn c.asked).Subperm (listedIn asked ++ (s.order fs (depth + 1) t).map (·.path)) :=
  ((List.sublist_append_left _ _).subperm).trans
    ((Crew.within_start hfs hends asked).after hfs hafter).subperm

/-! ## Sequential searches -/

/-- Visits of several directories with all they hold list those in order, as far as they come. -/
theorem listed_forM_isPrefix (hfs : fs.Tidy) {tasks : List Task}
    (h : ∀ u ∈ tasks, listedIn ((s.visitAll depth u).run fs).asked <+:
      (s.order fs depth u).map (·.path)) :
    listedIn ((tasks.forM (s.visitAll depth)).run fs).asked <+:
      tasks.flatMap fun u => (s.order fs depth u).map (·.path) := by
  induction tasks with
  | nil => exact List.nil_prefix
  | cons u tasks ih =>
    obtain ⟨hu, htasks⟩ := List.forall_mem_cons.mp h
    rw [forM_cons, Dialogue.run_bind, Transcript.andThen, List.flatMap_cons]
    cases hend : ((s.visitAll depth u).run fs).ending with
    | error why => exact hu.trans (List.prefix_append _ _)
    | ok _ =>
      -- A visit that comes to its end has listed all that it was to.
      have hall : listedIn ((s.visitAll depth u).run fs).asked = (s.order fs depth u).map (·.path) := by
        rw [run_visitAll_of_ok hfs hend, listedIn_order]
      rw [listedIn_append, hall]
      exact (List.prefix_append_right_inj _).mpr (ih htasks)

/-- A visit of a directory with all it holds lists the directories in order, as far as it comes. -/
theorem listed_visitAll_isPrefix (hfs : fs.Tidy) (s : Selection) (depth : Nat) (t : Task) :
    listedIn ((s.visitAll depth t).run fs).asked <+: (s.order fs depth t).map (·.path) := by
  induction depth generalizing t with
  | zero => exact List.nil_prefix
  | succ depth ih =>
    rw [visitAll, Dialogue.run_bind, Transcript.andThen, order, List.map_cons, List.map_flatMap]
    cases hv : ((t.visit s).run fs).ending with
    | error why =>
      rw [Task.listedIn_visit]
      exact List.prefix_append [t.path] _
    | ok tasks =>
      obtain rfl := Task.eq_next_of_visit hfs hv
      rw [listedIn_append, Task.listedIn_visit]
      exact List.cons_prefix_cons.mpr ⟨rfl, listed_forM_isPrefix hfs fun u _ => ih u⟩

/-! ## All searches -/

/-- Whatever a search lists, it is no more than it would visit in order; and it lists nothing if it does
not come to a first task. -/
theorem CanReport.listed_subperm (hfs : fs.Tidy)
    (hends : ∀ t, ((s.begin base).run fs).ending = .ok (some t) → s.Ends fs (depth + 1) (t.visit s))
    {strategy : Strategy} {r : Report}
    (hr : s.CanReport (s.begin base) fs ⟨depth + 1, steps⟩ strategy r) :
    r.listed = [] ∨ ∃ t, ((s.begin base).run fs).ending = .ok (some t) ∧
      r.listed.Subperm ((s.order fs (depth + 1) t).map (·.path)) := by
  have hlooks := (onlyLooks_begin s base).listedIn_eq_nil fs
  have hnothing : ∀ r' : Report, r' = ((s.begin base).run fs).report → r'.listed = [] := by
    rintro r' rfl
    exact hlooks
  cases hs : ((s.begin base).run fs).ending with
  | error why =>
    left
    cases strategy with
    | sequential => exact hnothing r (hr.trans (sequentialFrom_of_error hs))
    | parallel =>
      obtain ⟨pick, hr⟩ := hr
      exact hnothing r (hr.trans (parallelFrom_of_error hs))
  | ok start =>
    cases start with
    | none =>
      left
      cases strategy with
      | sequential => exact hnothing r (hr.trans (sequentialFrom_of_none hs))
      | parallel =>
        obtain ⟨pick, hr⟩ := hr
        exact hnothing r (hr.trans (parallelFrom_of_none hs))
    | some t =>
      refine .inr ⟨t, rfl, ?_⟩
      cases strategy with
      | sequential =>
        have hprefix := listed_visitAll_isPrefix hfs s (depth + 1) t
        rw [show r = _ from hr, sequentialFrom_of_some hs, Transcript.report, listedIn_append, hlooks]
        exact hprefix.sublist.subperm
      | parallel =>
        obtain ⟨pick, rfl⟩ := hr
        obtain ⟨count, c, hafter, hmirrors⟩ :=
          Crew.exists_crew fs s ((s.begin base).run fs).asked t pick steps
        have hlisted := listed_subperm_of_crew hfs (hends t hs) _ hafter
        rw [parallelFrom_of_some hs]
        rwa [hlooks, List.nil_append, hmirrors.asked_eq] at hlisted

end Selection

end TreeGlob
