import Mathlib.Data.List.Nodup
import Mathlib.Data.List.Perm.Subperm
import Mathlib.Algebra.Order.BigOperators.Group.List
import Mathlib.Tactic.Ring
import Mathlib.Algebra.Module.NatInt
import TreeGlob.Proofs.Search.Ancestry
import TreeGlob.Proofs.Search.Pool

/-!
A search comes to an end, however its jobs take turns.

* `Disk.directories` are the directories of a disk. The chain of a task is a list of some of them
  without repetition, which is what bounds how deep a search goes.
* `Selection.Ends` says that the tasks a job leads to are no deeper than some bound.
* `Selection.cost` is the number of steps a job takes with all it leads to. One step of a pool lowers
  the cost of its jobs by one (`cost_step`), so a pool is over when its cost is used up
  (`isOver_run`).
* `Disk.cost_visit_le` bounds the cost of a visit by the size of the disk.
* `Failure.OfListing` is a failure for a listing; a pool breaks off for no other reason
  (`kept_stopsAtListings`).
-/
namespace TreeGlob

namespace Disk

def directories (d : Disk) : List Place :=
  [] :: (d.entries.filter (·.2 = .dir)).map (·.1)

variable {d : Disk}

theorem mem_directories {p : Place} : p ∈ d.directories ↔ d.get? p = some .dir := by
  unfold directories
  simp only [List.mem_cons, List.mem_map, List.mem_filter, Prod.exists, decide_eq_true_eq]
  refine ⟨?_, ?_⟩
  · intro hyp
    rcases hyp with rfl | ⟨q, e, ⟨hmem, rfl⟩, rfl⟩
    · exact d.get?_root
    · exact (mem_entries.mp hmem).2
  · intro h
    by_cases hp : p = []
    · exact .inl hp
    · exact .inr ⟨p, .dir, ⟨mem_entries.mpr ⟨hp, h⟩, rfl⟩, rfl⟩

theorem length_directories_le (d : Disk) : d.directories.length ≤ d.entries.length + 1 := by
  unfold directories
  rw [List.length_cons, List.length_map]
  exact Nat.succ_le_succ (List.length_filter_le _ _)

theorem length_children_le (d : Disk) (p : Place) : (d.children p).length ≤ d.entries.length := by
  have hsub : ((d.children p).map fun c => p ++ [c.1]) ⊆ d.entries.map (·.1) := by
    intro q hq
    obtain ⟨⟨n, e⟩, hc, rfl⟩ := List.mem_map.mp hq
    exact List.mem_map_of_mem (mem_entries.mpr ⟨by simp, mem_children.mp hc⟩)
  have hnodup : ((d.children p).map fun c => p ++ [c.1]).Nodup := by
    refine List.pairwise_map.mpr ((List.pairwise_map.mp (d.nodup_children p)).imp ?_)
    intro c c' hne he
    exact hne (List.cons.inj (List.append_cancel_left he)).1
  simpa using (hnodup.subperm hsub).length_le

end Disk

namespace Task.Placed

variable {d : Disk} {t : Task} {place : Place} {above : List Place}

theorem nodup (h : Placed d t place above) : (place :: above).Nodup := by
  refine h.apart.imp ?_
  rintro inner _ hapart rfl
  exact hapart (List.prefix_refl inner)

theorem length_le (h : Placed d t place above) : above.length + 1 ≤ d.directories.length := by
  have hsub : place :: above ⊆ d.directories := fun p hp => Disk.mem_directories.mpr (h.get?_eq p hp)
  exact (h.nodup.subperm hsub).length_le

/-- The invariant as it is told by real paths. -/
theorem apart_paths (hd : d.Lawful) (h : Placed d t place above) :
    ((place :: above).map Disk.pathTo).Pairwise fun inner outer => outer.startsWith inner = false := by
  refine List.pairwise_map.mpr (h.apart.imp_of_mem ?_)
  intro inner outer hinner houter hapart
  rw [← Bool.not_eq_true, Disk.startsWith_pathTo (h.names hd houter) (h.names hd hinner)]
  exact hapart

end Task.Placed

/-! ## What a job leads to -/

namespace Selection

variable {fs : FileSystem} {s : Selection} {job : Dialogue (List Task)}

/-- The visits that a job leads to, directly or by way of others, are less than `depth` within each
other. -/
def Ends (s : Selection) (fs : FileSystem) : (depth : Nat) → Dialogue (List Task) → Prop
  | 0, _ => False
  | depth + 1, job =>
    ∀ tasks, (job.run fs).ending = .ok tasks → ∀ t ∈ tasks, Ends s fs depth (t.visit s)

theorem Ends.succ {depth : Nat} (h : s.Ends fs depth job) : s.Ends fs (depth + 1) job := by
  induction depth generalizing job with
  | zero => exact h.elim
  | succ depth ih => exact fun tasks hjob t ht => ih (h tasks hjob t ht)

theorem Ends.of_ending {other : Dialogue (List Task)} {depth : Nat}
    (he : (other.run fs).ending = (job.run fs).ending) (h : s.Ends fs depth job) :
    s.Ends fs depth other := by
  cases depth with
  | zero => exact h
  | succ depth =>
    intro tasks hother
    exact h tasks (he ▸ hother)

/-- How many steps a job takes, with all the jobs it leads to: one for each report and each question,
and one for its end. -/
def cost (s : Selection) (fs : FileSystem) : (depth : Nat) → Dialogue (List Task) → Nat
  | 0, _ => 0
  | depth + 1, job =>
    (job.run fs).found.length + (job.run fs).asked.length + 1 +
      match (job.run fs).ending with
      | .ok tasks => (tasks.map fun t => cost s fs depth (t.visit s)).sum
      | .error _ => 0

theorem cost_succ {depth : Nat} (h : s.Ends fs depth job) :
    s.cost fs (depth + 1) job = s.cost fs depth job := by
  induction depth generalizing job with
  | zero => exact h.elim
  | succ depth ih =>
    rw [cost, cost]
    cases hj : (job.run fs).ending with
    | error why => rfl
    | ok tasks =>
      have hsum : (tasks.map fun t => s.cost fs (depth + 1) (t.visit s)) =
          tasks.map fun t => s.cost fs depth (t.visit s) :=
        List.map_congr_left fun t ht => ih (h tasks hj t ht)
      simp only [hsum]

theorem cost_pos (s : Selection) (fs : FileSystem) (depth : Nat) (job : Dialogue (List Task)) :
    0 < s.cost fs (depth + 1) job := by
  rw [cost]
  omega

end Selection

/-! ## One step of a pool -/

namespace Pool

variable {fs : FileSystem} {s : Selection} {p : Pool} {depth : Nat}

/-- Whatever takes the place of a job costs one less than the job did. -/
theorem Turn.cost {job : Dialogue (List Task)} {news : List (Dialogue (List Task))}
    {found : List Path} {asked : List Query} (ht : Turn fs s job news found asked)
    (h : s.Ends fs (depth + 1) job) :
    (∀ new ∈ news, s.Ends fs (depth + 1) new) ∧
      (news.map (s.cost fs (depth + 1))).sum + 1 = s.cost fs (depth + 1) job := by
  cases ht with
  | done tasks =>
    -- The tasks are less deep, and a bound on depth that is enough does not change their cost.
    have hdeep : ∀ t ∈ tasks, s.Ends fs depth (t.visit s) := h tasks rfl
    refine ⟨?_, ?_⟩
    · intro new hnew
      obtain ⟨t, ht, rfl⟩ := List.mem_map.mp hnew
      exact (hdeep t ht).succ
    · have hsum : tasks.map (fun t => s.cost fs (depth + 1) (t.visit s)) =
          tasks.map fun t => s.cost fs depth (t.visit s) :=
        List.map_congr_left fun t ht => Selection.cost_succ (hdeep t ht)
      rw [List.map_map]
      show (tasks.map fun t => s.cost fs (depth + 1) (t.visit s)).sum + 1 = _
      rw [hsum, Selection.cost]
      simp only [Dialogue.run, List.length_nil]
      omega
  | report path rest =>
    refine ⟨?_, ?_⟩
    · intro new hnew
      rw [List.mem_singleton.mp hnew]
      exact h.of_ending rfl
    · simp only [List.map_cons, List.map_nil, List.sum_cons, List.sum_nil, Selection.cost,
        Dialogue.run, List.length_cons]
      omega
  | ask q next =>
    refine ⟨?_, ?_⟩
    · intro new hnew
      rw [List.mem_singleton.mp hnew]
      exact h.of_ending rfl
    · simp only [List.map_cons, List.map_nil, List.sum_cons, List.sum_nil, Selection.cost,
        Dialogue.run, List.length_cons]
      omega

/-- A step lowers the cost by one, unless it breaks the search off. -/
theorem cost_step (h : p.isOver = false) (hjobs : ∀ job ∈ p.jobs, s.Ends fs (depth + 1) job) (i : Nat) :
    (p.step fs s i).isOver = true ∨
      ((∀ job ∈ (p.step fs s i).jobs, s.Ends fs (depth + 1) job) ∧
        ((p.step fs s i).jobs.map (s.cost fs (depth + 1))).sum + 1 =
          (p.jobs.map (s.cost fs (depth + 1))).sum) := by
  obtain ⟨before, job, after, hp, hstep⟩ := step_cases fs s h i
  rcases hstep with ⟨news, found, asked, ht, hs⟩ | ⟨why, rfl, hs⟩
  · right
    obtain ⟨hends, hcost⟩ := ht.cost (hjobs job (by simp [hp]))
    rw [hs, hp]
    refine ⟨?_, ?_⟩
    · intro x hx
      simp only [List.mem_append] at hx
      rcases hx with hx | hx | hx
      · exact hjobs x (by simp [hp, hx])
      · exact hends x hx
      · exact hjobs x (by simp [hp, hx])
    · simp only [List.map_append, List.map_cons, List.sum_append, List.sum_cons]
      omega
  · left
    rw [hs]
    rfl

theorem isOver_run (depth : Nat) (hjobs : ∀ job ∈ p.jobs, s.Ends fs (depth + 1) job) {count : Nat}
    (hcost : (p.jobs.map (s.cost fs (depth + 1))).sum ≤ count) (pick : Nat → Nat) :
    (p.run fs s pick count).isOver = true := by
  induction count generalizing p with
  | zero =>
    have hnil : p.jobs = [] := by
      cases hj : p.jobs with
      | nil => rfl
      | cons job jobs =>
        have hpos := Selection.cost_pos s fs depth job
        rw [hj, List.map_cons, List.sum_cons] at hcost
        omega
    rw [run, isOver, hnil]
    rfl
  | succ count ih =>
    rw [run]
    split
    · next h => exact h
    · next h =>
      rcases cost_step (by simpa using h) hjobs (pick count) with hover | ⟨hends, hless⟩
      · rwa [run_of_isOver hover]
      · exact ih hends (by omega)

end Pool

/-! ## On a disk -/

namespace Disk

variable {d : Disk} {s : Selection} {t : Task}

theorem length_list_le {path : Path} {children : List Child} (h : d.list path = .ok children) :
    children.length ≤ d.entries.length := by
  obtain ⟨place, -, -, rfl, -⟩ := list_cases h
  rw [List.length_map]
  exact d.length_children_le place

theorem cost_visit_le (d : Disk) (s : Selection) (depth : Nat) (t : Task) :
    s.cost d.fileSystem depth (t.visit s) ≤
      (3 * d.entries.length + 3) * (d.entries.length + 1) ^ depth := by
  generalize hn : d.entries.length = n
  induction depth generalizing t with
  | zero => exact Nat.zero_le _
  | succ depth ih =>
    have hone : 1 ≤ (n + 1) ^ depth := Nat.one_le_pow _ _ (Nat.succ_pos n)
    -- What is left to show is that an entry costs three steps and leads to one visit.
    suffices hstep : s.cost d.fileSystem (depth + 1) (t.visit s) ≤
        3 * n + 2 + n * ((3 * n + 3) * (n + 1) ^ depth) by
      calc s.cost d.fileSystem (depth + 1) (t.visit s)
        _ ≤ 3 * n + 2 + n * ((3 * n + 3) * (n + 1) ^ depth) := hstep
        _ ≤ (3 * n + 3) * (n + 1) ^ depth + n * ((3 * n + 3) * (n + 1) ^ depth) := by
          have := Nat.mul_le_mul_left (3 * n + 3) hone
          omega
        _ = (3 * n + 3) * (n + 1) ^ (depth + 1) := by ring
    rw [Selection.cost]
    cases hl : d.list t.path with
    | error err =>
      rw [run_visit_error hl]
      split <;> simp <;> omega
    | ok children =>
      obtain ⟨asked, hrun, hasked, -⟩ := run_visit (s := s) hl
      have hlen := length_list_le hl
      have hfound := length_flatMap_le (t.length_reports_le s d.fileSystem) children
      have htasks := length_flatMap_le (t.length_subtasks_le s d.fileSystem) children
      have hsum : ((children.flatMap (t.subtasks s d.fileSystem)).map fun u =>
          s.cost d.fileSystem depth (u.visit s)).sum ≤ n * ((3 * n + 3) * (n + 1) ^ depth) := by
        have hvisit : ∀ cost ∈ (children.flatMap (t.subtasks s d.fileSystem)).map fun u =>
            s.cost d.fileSystem depth (u.visit s), cost ≤ (3 * n + 3) * (n + 1) ^ depth := by
          intro cost hcost
          obtain ⟨u, -, rfl⟩ := List.mem_map.mp hcost
          exact ih u
        apply Nat.le_trans (List.sum_le_card_nsmul _ _ hvisit)
        rw [List.length_map, smul_eq_mul]
        exact Nat.mul_le_mul_right _ (by omega)
      rw [hrun]
      dsimp only
      omega

end Disk

namespace Task.Placed

variable {d : Disk} {s : Selection} {t : Task} {place : Place} {above : List Place}

/-- The more directories have been entered, the fewer are left. -/
theorem ends (hd : d.Lawful) {depth : Nat} (h : Placed d t place above)
    (hdepth : d.directories.length ≤ above.length + depth) : s.Ends d.fileSystem depth (t.visit s) := by
  induction depth generalizing t place above with
  | zero =>
    -- No directory is left, though one was entered.
    have hle := h.length_le
    omega
  | succ depth ih =>
    intro tasks hv u hu
    obtain ⟨q, hq⟩ := h.of_visit hd hv hu
    apply ih hq
    rw [List.length_cons]
    omega

end Task.Placed

/-! ## Whole searches -/

/-- The failure is the answer to one of the questions for a listing. -/
def Failure.OfListing (d : Disk) (asked : List Query) (why : Failure) : Prop :=
  ∃ path err, .list path ∈ asked ∧ d.list path = .error err ∧ why = .error (.ofIo err path)

namespace Failure.OfListing

variable {d : Disk} {asked more : List Query} {why : Failure}

theorem mono (h : why.OfListing d asked) (hmore : asked ⊆ more) : why.OfListing d more := by
  obtain ⟨path, err, hp, hrest⟩ := h
  exact ⟨path, err, hmore hp, hrest⟩

theorem ne_tooDeep (h : why.OfListing d asked) : why ≠ .tooDeep := by
  obtain ⟨path, err, -, -, rfl⟩ := h
  simp

end Failure.OfListing

namespace Disk

variable {d : Disk} {s : Selection}

theorem visit_breaks_off {t : Task} {why : Failure}
    (h : ((t.visit s).run d.fileSystem).ending = .error why) :
    why.OfListing d ((t.visit s).run d.fileSystem).asked := by
  cases hl : d.list t.path with
  | error err =>
    rw [run_visit_error hl] at h ⊢
    dsimp only at h
    split at h <;> cases h
    exact ⟨t.path, err, List.mem_singleton.mpr rfl, hl, rfl⟩
  | ok children =>
    obtain ⟨asked, hrun, -, -⟩ := run_visit (s := s) hl
    rw [hrun] at h
    cases h

theorem stepDown_breaks_off {t : Task} {component : Text} {why : Failure}
    (h : ((s.stepDown t component).run d.fileSystem).ending = .error why) : why ≠ .tooDeep := by
  rw [(run_stepDown d s t component).2] at h
  split at h
  · cases h
  · split at h
    · split at h <;> cases h
      simp
    · cases h

theorem descend_breaks_off {t : Task} {components : List Text} {why : Failure}
    (h : ((s.descend components t).run d.fileSystem).ending = .error why) : why ≠ .tooDeep := by
  induction components generalizing t with
  | nil => cases h
  | cons component components ih =>
    rcases Dialogue.ending_bind_eq_error.mp h with h | ⟨next, -, h⟩
    · exact stepDown_breaks_off h
    · cases next with
      | none => cases h
      | some next => exact ih h

theorem begin_breaks_off {base : Path} {components : List Text} {why : Failure}
    (h : ((s.beginAlong components base).run d.fileSystem).ending = .error why) : why ≠ .tooDeep := by
  rcases Dialogue.ending_bind_eq_error.mp h with h | ⟨t, -, h⟩
  · rw [(run_baseTask d base).2] at h
    split at h
    · cases h
      simp
    · split at h <;> cases h
      simp
  · exact descend_breaks_off h

end Disk

namespace Selection

variable {d : Disk} {s : Selection} {base : Path} {components : List Text}

theorem forM_breaks_off {fs : FileSystem} {tasks : List Task} {visit : Task → Dialogue Unit}
    {why : Failure} (h : ((tasks.forM visit).run fs).ending = .error why) :
    ∃ t ∈ tasks, ((visit t).run fs).ending = .error why := by
  induction tasks with
  | nil => cases h
  | cons t tasks ih =>
    change ((visit t >>= fun _ => tasks.forM visit).run fs).ending = .error why at h
    rcases Dialogue.ending_bind_eq_error.mp h with h | ⟨_, -, h⟩
    · exact ⟨t, List.mem_cons_self, h⟩
    · obtain ⟨u, hu, h⟩ := ih h
      exact ⟨u, List.mem_cons_of_mem t hu, h⟩

theorem visitAll_breaks_off {depth : Nat} {t : Task} (h : s.Ends d.fileSystem depth (t.visit s))
    {why : Failure} (hw : ((s.visitAll depth t).run d.fileSystem).ending = .error why) :
    why ≠ .tooDeep := by
  induction depth generalizing t with
  | zero => exact h.elim
  | succ depth ih =>
    rcases Dialogue.ending_bind_eq_error.mp hw with hw | ⟨tasks, hv, hw⟩
    · exact (Disk.visit_breaks_off hw).ne_tooDeep
    · obtain ⟨u, hu, hw⟩ := forM_breaks_off hw
      exact ih (h tasks hv u hu) hw

theorem ends_of_placed (hd : d.Lawful) {t : Task} {place : Place} {above : List Place}
    (h : t.Placed d place above) : s.Ends d.fileSystem d.extent.depth (t.visit s) := by
  apply h.ends hd
  calc d.directories.length
    _ ≤ d.entries.length + 1 := d.length_directories_le
    _ ≤ above.length + d.extent.depth := by
      show d.entries.length + 1 ≤ above.length + (d.entries.length + 2)
      omega

theorem Created.ends (hd : d.Lawful) {t : Task} (h : s.Created d.fileSystem base t) :
    s.Ends d.fileSystem d.extent.depth (t.visit s) := by
  obtain ⟨place, above, hplaced⟩ := h.placed hd
  exact ends_of_placed hd hplaced

theorem sequentialFrom_breaks_off (hd : d.Lawful) {why : Failure}
    (h : ((s.sequentialFrom (s.beginAlong components base) d.extent.depth).run
      d.fileSystem).ending = .error why) : why ≠ .tooDeep := by
  rcases Dialogue.ending_bind_eq_error.mp h with h | ⟨start, hs, h⟩
  · exact Disk.begin_breaks_off h
  · cases start with
    | none => cases h
    | some t => exact visitAll_breaks_off (Created.ends hd (.start hs)) h

/-- The pool of a search is over before its steps run out. -/
theorem isOver_run_of_placed (hd : d.Lawful) {t : Task} {place : Place} {above : List Place}
    (h : t.Placed d place above) (pick : Nat → Nat) :
    ((Pool.start (t.visit s)).run d.fileSystem s pick d.extent.steps).isOver = true := by
  refine Pool.isOver_run (d.entries.length + 1) ?_ ?_ pick
  · intro job hjob
    rw [List.mem_singleton.mp hjob]
    exact ends_of_placed hd h
  · show (([t.visit s].map _).sum : Nat) ≤ _
    rw [List.map_singleton, List.sum_singleton]
    exact Disk.cost_visit_le d s (d.entries.length + 2) t

theorem Created.isOver_run (hd : d.Lawful) {t : Task} (h : s.Created d.fileSystem base t)
    (pick : Nat → Nat) :
    ((Pool.start (t.visit s)).run d.fileSystem s pick d.extent.steps).isOver = true := by
  obtain ⟨place, above, hplaced⟩ := h.placed hd
  exact isOver_run_of_placed hd hplaced pick

end Selection

namespace Pool

/-- A pool breaks off only for a listing that was asked for. -/
theorem kept_stopsAtListings (d : Disk) (s : Selection) :
    Kept d.fileSystem s
      (fun asked job => ∀ why, (job.run d.fileSystem).ending = .error why →
        why.OfListing d (asked ++ (job.run d.fileSystem).asked))
      (fun asked why => why.OfListing d asked) where
  visit := fun _ _ _ h => (Disk.visit_breaks_off h).mono (List.subset_append_right _ _)
  report := fun _ _ _ h => h
  ask := by
    intro asked q next h why hwhy
    have hlisting := h why hwhy
    rwa [List.append_assoc]
  stop := by
    intro asked why h
    simpa [Dialogue.run] using h why rfl
  jobs_mono := by
    intro asked q job h why hwhy
    refine (h why hwhy).mono (List.append_subset.mpr ⟨?_, List.subset_append_right _ _⟩)
    exact List.subset_append_of_subset_left _ (List.subset_append_left _ _)
  failure_mono := fun _ _ _ h => h.mono (List.subset_append_left _ _)

end Pool

namespace Selection

variable {d : Disk}

section

variable {fs : FileSystem} {s : Selection} {start : Dialogue (Option Task)} {pick : Nat → Nat}
  {steps : Nat}

theorem parallelFrom_of_error {why : Failure} (h : (start.run fs).ending = .error why) :
    s.parallelFrom start fs pick steps = (start.run fs).report := by
  simp [parallelFrom, h]

theorem parallelFrom_of_none (h : (start.run fs).ending = .ok none) :
    s.parallelFrom start fs pick steps = (start.run fs).report := by
  simp [parallelFrom, h]

theorem parallelFrom_of_some {t : Task} (h : (start.run fs).ending = .ok (some t)) :
    s.parallelFrom start fs pick steps = {
      found := ((Pool.start (t.visit s)).run fs s pick steps).found
      listed := listedIn ((start.run fs).asked ++ ((Pool.start (t.visit s)).run fs s pick steps).asked)
      failure :=
        if ((Pool.start (t.visit s)).run fs s pick steps).isOver then
          ((Pool.start (t.visit s)).run fs s pick steps).failure
        else some .tooDeep } := by
  simp [parallelFrom, h]

end

theorem parallelFrom_failure (hd : d.Lawful) (s : Selection) (base : Path) (components : List Text)
    (pick : Nat → Nat) :
    (s.parallelFrom (s.beginAlong components base) d.fileSystem pick d.extent.steps).failure ≠
      some .tooDeep := by
  cases hs : ((s.beginAlong components base).run d.fileSystem).ending with
  | error why =>
    rw [parallelFrom_of_error hs]
    simp only [Transcript.report, hs]
    exact fun he => Disk.begin_breaks_off hs (Option.some.inj he)
  | ok start =>
    cases start with
    | none =>
      rw [parallelFrom_of_none hs]
      simp [Transcript.report, hs]
    | some t =>
      rw [parallelFrom_of_some hs, if_pos (Created.isOver_run hd (.start hs) pick)]
      exact fun he => (((Pool.kept_stopsAtListings d s).run_start t pick _).2 _ he).ne_tooDeep rfl

/-- **No search goes in circles, and every search ends.** The chain of a task, which are the real
paths of the directories entered on the way to it, is made of directories of the disk; none of them is
or contains one that was entered before it. So no directory is repeated, and a chain is no longer than
there are directories. A search ends within the extent of the disk, be it sequential or parallel with
its jobs taking turns in any way. -/
theorem enters_anew_and_ends (hd : d.Lawful) (s : Selection) (base : Path) :
    (∀ t, s.Created d.fileSystem base t →
      (∀ real ∈ t.real :: t.above, ∃ place ∈ d.directories, real = Disk.pathTo place) ∧
      (t.real :: t.above).Pairwise (fun inner outer => outer.startsWith inner = false) ∧
      (t.real :: t.above).Nodup ∧ (t.real :: t.above).length ≤ d.directories.length) ∧
    ((s.sequential d.extent.depth base).run d.fileSystem).report.failure ≠ some .tooDeep ∧
    ∀ pick, (s.parallel d.fileSystem pick d.extent.steps base).failure ≠ some .tooDeep := by
  refine ⟨fun t ht => ?_, ?_, parallelFrom_failure hd s base s.startComponents⟩
  · -- All that is claimed of a chain is read off the places that it is made of.
    obtain ⟨place, above, h⟩ := ht.placed hd
    rw [h.chain_eq]
    refine ⟨?_, ?_, ?_, ?_⟩
    · intro real hreal
      obtain ⟨p, hp, rfl⟩ := List.mem_map.mp hreal
      exact ⟨p, Disk.mem_directories.mpr (h.get?_eq p hp), rfl⟩
    · exact h.apart_paths hd
    · refine (h.apart_paths hd).imp ?_
      rintro inner _ hapart rfl
      rw [Path.startsWith, ← Bool.not_eq_true, List.isPrefixOf_iff_prefix] at hapart
      exact hapart (List.prefix_refl _)
    · rw [List.length_map]
      exact h.length_le
  · unfold Transcript.report
    cases hw : ((s.sequential d.extent.depth base).run d.fileSystem).ending with
    | ok _ => simp
    | error why => exact fun he => sequentialFrom_breaks_off hd hw (Option.some.inj he)

end Selection

/-- A directory with a link to itself and one to what is above it, a link to that directory, and a link
that goes in a circle. -/
def Disk.circular : Disk where
  top :=
    .dir (Utf8.encode "a".toList)
      (.dir (Utf8.encode "b".toList) (.link (Utf8.encode "up".toList) (.ofText "..".toList) .empty) <|
        .link (Utf8.encode "self".toList) (.ofText ".".toList) .empty) <|
    .link (Utf8.encode "home".toList) (.ofText "/a".toList) <|
    .link (Utf8.encode "loop".toList) (.ofText "loop".toList) .empty

def Selection.belowB : Selection where
  included := [{ source := "b/*".toList, segments := [.constant "b/".toList, .star], dialect := {} }]
  excluded := []
  skipHidden := true

theorem Selection.enters_anew_and_ends_in_circular :
    Disk.circular.Lawful ∧
      (∃ t, Selection.belowB.Created Disk.circular.fileSystem (.ofText "/home".toList) t ∧
        t.above ≠ [] ∧ (t.real :: t.above).Nodup) ∧
      ((Selection.belowB.sequential Disk.circular.extent.depth (.ofText "/home".toList)).run
        Disk.circular.fileSystem).report.failure ≠ some .tooDeep := by
  have hd : Disk.circular.Lawful := by decide
  have h := Selection.enters_anew_and_ends hd Selection.belowB (.ofText "/home".toList)
  obtain ⟨t, ht, habove⟩ : ∃ t, Selection.belowB.Created Disk.circular.fileSystem
      (.ofText "/home".toList) t ∧ t.above ≠ [] :=
    ⟨_, @Selection.Created.start _ _ _ ["b".toList] _ (by rfl), by decide⟩
  exact ⟨hd, ⟨t, ht, habove, (h.1 t ht).2.2.1⟩, h.2.1⟩

end TreeGlob
