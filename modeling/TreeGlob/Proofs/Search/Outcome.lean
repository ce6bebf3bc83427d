import TreeGlob.Proofs.Search.Completeness

/-!
When two searches come to the same, though one of them asks more.

* `Selection.SameOutcome` compares what searches can report: the set of paths found, and whether there
  was a failure. It does not look at the questions.
* `Pool.forwards_lone` says that a job that is alone goes on in one way only.
* `resume` goes on as a way down has ended: with a task, with nothing, or by breaking off.
* `sameOutcome_of_visit` says that a search may as well begin one directory further down, if the first
  directory reports nothing and has only one that is worth entering, or none; and that it may as well
  break off at once if the first directory does.
-/
namespace TreeGlob

namespace Pool

variable {fs : FileSystem} {s : Selection} {p q : Pool}

theorem run_asked (fs : FileSystem) (s : Selection) (p : Pool) (asked : List Query)
    (pick : Nat → Nat) (count : Nat) :
    ∃ more, ({ p with asked := asked } : Pool).run fs s pick count =
      { p.run fs s pick count with asked := more } := by
  induction count generalizing p asked with
  | zero => exact ⟨asked, rfl⟩
  | succ count ih =>
    have hsame : ({ p with asked := asked } : Pool).isOver = p.isOver := rfl
    cases hover : p.isOver with
    | true =>
      rw [run_of_isOver hover, run_of_isOver (hsame.trans hover)]
      exact ⟨asked, rfl⟩
    | false =>
      obtain ⟨more, hmore⟩ : ∃ more, ({ p with asked := asked } : Pool).step fs s (pick count) =
          { p.step fs s (pick count) with asked := more } := by
        unfold step stepAt
        rw [hsame, hover]
        dsimp only
        cases p.jobs[pick count % p.jobs.length]? with
        | none => exact ⟨asked, rfl⟩
        | some job => cases job <;> exact ⟨_, rfl⟩
      rw [run, run, hsame, hover, hmore]
      exact ih _ more

/-- More steps than it takes make no difference, if the turns before the end are the same. -/
theorem run_of_isOver_run {pick other : Nat → Nat} {more : Nat}
    (hpick : ∀ count, other (count + more) = pick count) {count : Nat}
    (h : (p.run fs s pick count).isOver = true) :
    p.run fs s other (count + more) = p.run fs s pick count := by
  induction count generalizing p with
  | zero => exact run_of_isOver h other _
  | succ count ih =>
    cases hover : p.isOver with
    | true => rw [run_of_isOver hover, run_of_isOver hover]
    | false =>
      rw [run, hover] at h ⊢
      rw [Nat.succ_add, run, hover, hpick]
      exact ih h

/-- After some steps the one pool is the other, whichever jobs take the turns. -/
def Forwards (fs : FileSystem) (s : Selection) (p q : Pool) : Prop :=
  ∃ steps, ∀ pick count, p.run fs s pick (steps + count) = q.run fs s pick count

theorem Forwards.of_step (next : Pool) (hp : p.isOver = false) (hstep : ∀ i, p.step fs s i = next)
    (h : next.Forwards fs s q) : p.Forwards fs s q := by
  obtain ⟨steps, hsteps⟩ := h
  refine ⟨steps + 1, ?_⟩
  intro pick count
  rw [Nat.add_right_comm, run, hp, hstep]
  exact hsteps pick count

/-- The pool whose only job has ended: it goes on with tasks, or has broken off. -/
def ofEnding (s : Selection) (ending : Except Failure (List Task)) (found : List Path)
    (asked : List Query) : Pool :=
  match ending with
  | .ok tasks => ⟨tasks.map (·.visit s), found, asked, none⟩
  | .error why => ⟨[], found, asked, some why⟩

/-- A job that is alone goes on in one way only, to its end. -/
theorem forwards_lone (fs : FileSystem) (s : Selection) (job : Dialogue (List Task))
    (found : List Path) (asked : List Query) :
    Forwards fs s ⟨[job], found, asked, none⟩
      (ofEnding s (job.run fs).ending (found ++ (job.run fs).found) (asked ++ (job.run fs).asked)) := by
  induction job generalizing found asked with
  | done tasks =>
    refine .of_step ⟨tasks.map (·.visit s), found, asked, none⟩ rfl (fun i => ?_) ?_
    · simp [step, stepAt, isOver, Nat.mod_one]
    · simp only [Dialogue.run, List.append_nil]
      exact ⟨0, fun pick count => by rw [Nat.zero_add]; rfl⟩
  | stop why =>
    refine .of_step ⟨[], found, asked, some why⟩ rfl (fun i => ?_) ?_
    · simp [step, stepAt, isOver, Nat.mod_one]
    · simp only [Dialogue.run, List.append_nil]
      exact ⟨0, fun pick count => by rw [Nat.zero_add]; rfl⟩
  | report path rest ih =>
    refine .of_step ⟨[rest], found ++ [path], asked, none⟩ rfl (fun i => ?_) ?_
    · simp [step, stepAt, isOver, Nat.mod_one]
    · simpa [Dialogue.run] using ih (found ++ [path]) asked
  | ask question next ih =>
    refine .of_step ⟨[next (fs question)], found, asked ++ [question], none⟩ rfl
      (fun i => ?_) ?_
    · simp [step, stepAt, isOver, Nat.mod_one]
    · simpa [Dialogue.run] using ih (fs question) found (asked ++ [question])

/-- A pool that always comes to an end comes to the same ends if it is forwarded. -/
theorem Forwards.same_ends (h : p.Forwards fs s q) {count : Nat}
    (hover : ∀ pick, (p.run fs s pick count).isOver = true) (pick : Nat → Nat) :
    (∃ other, p.run fs s pick count = q.run fs s other count) ∧
      ∃ other, q.run fs s pick count = p.run fs s other count := by
  obtain ⟨steps, hsteps⟩ := h
  refine ⟨?_, ?_⟩
  · -- Turns are counted by the steps left, so the same turns come later or earlier by as many steps.
    refine ⟨fun left => pick (left - steps), ?_⟩
    rw [← hsteps, Nat.add_comm]
    exact (run_of_isOver_run (fun left => by rw [Nat.add_sub_cancel]) (hover pick)).symm
  · refine ⟨fun left => pick (left + steps), ?_⟩
    rw [← hsteps, Nat.add_comm]
    exact run_of_isOver_run (fun _ => rfl) (hover _)

end Pool

/-- The reports name the same paths, and both tell of a failure or neither. -/
def Report.Agrees (r q : Report) : Prop :=
  (∀ p, p ∈ r.found ↔ p ∈ q.found) ∧ (r.failure = none ↔ q.failure = none)

theorem Report.Agrees.symm {r q : Report} (h : r.Agrees q) : q.Agrees r :=
  ⟨fun p => (h.1 p).symm, h.2.symm⟩

theorem Report.Agrees.trans {r q u : Report} (h : r.Agrees q) (h' : q.Agrees u) : r.Agrees u :=
  ⟨fun p => (h.1 p).trans (h'.1 p), h.2.trans h'.2⟩

theorem Transcript.report_agrees {α : Type} {t u : Transcript α} (hf : t.found = u.found)
    (he : t.ending = u.ending) : t.report.Agrees u.report := by
  unfold report Report.Agrees
  rw [hf, he]
  exact ⟨fun _ => Iff.rfl, Iff.rfl⟩

namespace Pool

/-- What a pool has come to, without the questions. -/
def outcome (p : Pool) : Report where
  found := p.found
  listed := []
  failure := if p.isOver then p.failure else some .tooDeep

end Pool

namespace Selection

/-- Whatever one of two searches can report, the other can report as well. -/
def SameOutcome (s : Selection) (fs : FileSystem) (extent : Extent)
    (start other : Dialogue (Option Task)) : Prop :=
  ∀ strategy,
    (∀ r, s.CanReport start fs extent strategy r →
      ∃ q, s.CanReport other fs extent strategy q ∧ r.Agrees q) ∧
    ∀ q, s.CanReport other fs extent strategy q →
      ∃ r, s.CanReport start fs extent strategy r ∧ r.Agrees q

namespace SameOutcome

variable {s : Selection} {fs : FileSystem} {extent : Extent} {a b c : Dialogue (Option Task)}

theorem refl (s : Selection) (fs : FileSystem) (extent : Extent) (a : Dialogue (Option Task)) :
    s.SameOutcome fs extent a a := by
  intro strategy
  refine ⟨?_, ?_⟩
  · intro r hr
    exact ⟨r, hr, fun _ => Iff.rfl, Iff.rfl⟩
  · intro r hr
    exact ⟨r, hr, fun _ => Iff.rfl, Iff.rfl⟩

theorem symm (h : s.SameOutcome fs extent a b) : s.SameOutcome fs extent b a := by
  refine fun strategy => ⟨fun q hq => ?_, fun r hr => ?_⟩
  · obtain ⟨r, hr, hrq⟩ := (h strategy).2 q hq
    exact ⟨r, hr, hrq.symm⟩
  · obtain ⟨q, hq, hrq⟩ := (h strategy).1 r hr
    exact ⟨q, hq, hrq.symm⟩

theorem trans (h : s.SameOutcome fs extent a b) (h' : s.SameOutcome fs extent b c) :
    s.SameOutcome fs extent a c := by
  refine fun strategy => ⟨fun r hr => ?_, fun u hu => ?_⟩
  · obtain ⟨q, hq, hrq⟩ := (h strategy).1 r hr
    obtain ⟨u, hu, hqu⟩ := (h' strategy).1 q hq
    exact ⟨u, hu, hrq.trans hqu⟩
  · obtain ⟨q, hq, hqu⟩ := (h' strategy).2 u hu
    obtain ⟨r, hr, hrq⟩ := (h strategy).2 q hq
    exact ⟨r, hr, hrq.trans hqu⟩

theorem of_reports
    (hsequential : ((s.sequentialFrom a extent.depth).run fs).report.Agrees
      ((s.sequentialFrom b extent.depth).run fs).report)
    (hparallel : ∀ pick,
      (∃ other, (s.parallelFrom a fs pick extent.steps).Agrees
        (s.parallelFrom b fs other extent.steps)) ∧
      ∃ other, (s.parallelFrom a fs other extent.steps).Agrees
        (s.parallelFrom b fs pick extent.steps)) : s.SameOutcome fs extent a b := by
  intro hyp
  rcases hyp with _ | _
  · exact ⟨fun r hr => ⟨_, rfl, hr ▸ hsequential⟩, fun q hq => ⟨_, rfl, hq ▸ hsequential⟩⟩
  · refine ⟨?_, ?_⟩
    · rintro _ ⟨pick, rfl⟩
      obtain ⟨other, hother⟩ := (hparallel pick).1
      exact ⟨_, ⟨other, rfl⟩, hother⟩
    · rintro _ ⟨pick, rfl⟩
      obtain ⟨other, hother⟩ := (hparallel pick).2
      exact ⟨_, ⟨other, rfl⟩, hother⟩

end SameOutcome

variable {d : Disk} {s : Selection} {t : Task}

/-- Goes on as a way down has ended. -/
def resume : Except Failure (Option Task) → Dialogue (Option Task)
  | .ok first => .done first
  | .error why => .stop why

def tasksOf : Except Failure (Option Task) → Except Failure (List Task)
  | .ok first => .ok first.toList
  | .error why => .error why

section

variable {fs : FileSystem} {ending : Except Failure (Option Task)}

theorem run_resume (fs : FileSystem) (ending : Except Failure (Option Task)) :
    (resume ending).run fs = ⟨[], [], ending⟩ := by
  cases ending <;> rfl

/-- How a search came to its first task makes no difference, if nothing was reported on the way. -/
theorem sameOutcome_resume {extent : Extent} {start : Dialogue (Option Task)}
    (he : (start.run fs).ending = ending) (hf : (start.run fs).found = []) :
    s.SameOutcome fs extent start (resume ending) := by
  have hsequential : ((s.sequentialFrom start extent.depth).run fs).report.Agrees
      ((s.sequentialFrom (resume ending) extent.depth).run fs).report := by
    apply Transcript.report_agrees
    · unfold sequentialFrom
      rw [Dialogue.run_bind, Dialogue.run_bind, run_resume]
      cases ending <;> simp [Transcript.andThen, he, hf]
    · unfold sequentialFrom
      rw [Dialogue.run_bind, Dialogue.run_bind, run_resume]
      cases ending <;> simp [Transcript.andThen, he]
  have hparallel : ∀ pick, (s.parallelFrom start fs pick extent.steps).Agrees
      (s.parallelFrom (resume ending) fs pick extent.steps) := by
    intro pick
    rcases ending with why | _ | t
    · rw [parallelFrom_of_error he, parallelFrom_of_error rfl]
      exact Transcript.report_agrees hf he
    · rw [parallelFrom_of_none he, parallelFrom_of_none rfl]
      exact Transcript.report_agrees hf he
    · rw [parallelFrom_of_some he, parallelFrom_of_some rfl]
      exact ⟨fun _ => Iff.rfl, Iff.rfl⟩
  exact .of_reports hsequential fun pick => ⟨⟨pick, hparallel pick⟩, ⟨pick, hparallel pick⟩⟩

theorem canReport_broken {extent : Extent} {why : Failure} {strategy : Strategy} {r : Report} :
    s.CanReport (resume (.error why)) fs extent strategy r ↔ r = ⟨[], [], some why⟩ := by
  cases strategy with
  | sequential => exact Iff.rfl
  | parallel =>
    refine ⟨?_, ?_⟩
    · intro h
      obtain ⟨pick, hr⟩ := h
      exact hr
    · exact fun hr => ⟨id, hr⟩

/-- A search comes to the same as one that has broken off if it cannot but fail, and finds nothing. -/
theorem sameOutcome_broken_iff {extent : Extent} {why : Failure} {other : Dialogue (Option Task)} :
    s.SameOutcome fs extent (resume (.error why)) other ↔
      ∀ strategy r, s.CanReport other fs extent strategy r → r.found = [] ∧ r.failure ≠ none := by
  refine ⟨?_, ?_⟩
  · intro h strategy r hr
    obtain ⟨q, hq, hfound, hfailure⟩ := (h strategy).2 r hr
    obtain rfl := canReport_broken.mp hq
    refine ⟨List.eq_nil_iff_forall_not_mem.mpr fun p hp => ?_, fun hr => ?_⟩
    · cases (hfound p).mpr hp
    · cases hfailure.mpr hr
  · intro h strategy
    have hagree : ∀ r, s.CanReport other fs extent strategy r →
        Report.Agrees ⟨[], [], some why⟩ r := by
      intro r hr
      obtain ⟨hfound, hfailure⟩ := h strategy r hr
      exact ⟨fun p => by rw [hfound], by simp [hfailure]⟩
    refine ⟨?_, ?_⟩
    · intro q hq
      obtain rfl := canReport_broken.mp hq
      obtain ⟨r, hr⟩ : ∃ r, s.CanReport other fs extent strategy r := by
        cases strategy with
        | sequential => exact ⟨_, rfl⟩
        | parallel => exact ⟨_, id, rfl⟩
      exact ⟨r, hr, hagree r hr⟩
    · exact fun r hr => ⟨_, canReport_broken.mpr rfl, hagree r hr⟩

theorem sameOutcome_broken (s : Selection) (fs : FileSystem) (extent : Extent) (why other : Failure) :
    s.SameOutcome fs extent (resume (.error why)) (resume (.error other)) := by
  apply sameOutcome_broken_iff.mpr
  intro strategy r hr
  rw [canReport_broken.mp hr]
  simp

theorem not_sameOutcome_broken {extent : Extent} {why : Failure} :
    ¬s.SameOutcome fs extent (resume (.error why)) (resume (.ok none)) := by
  intro hsame
  exact (sameOutcome_broken_iff.mp hsame .sequential _ rfl).2 rfl

/-- A directory that reports nothing, visited with all it leads to, comes to what its only task does. -/
theorem run_visitAll_of_visit {depth : Nat} (hends : s.Ends fs (depth + 1) (t.visit s))
    (hf : ((t.visit s).run fs).found = []) (he : ((t.visit s).run fs).ending = tasksOf ending) :
    ((s.visitAll (depth + 1) t).run fs).found =
        ((s.sequentialFrom (resume ending) (depth + 1)).run fs).found ∧
      ((s.visitAll (depth + 1) t).run fs).ending =
        ((s.sequentialFrom (resume ending) (depth + 1)).run fs).ending := by
  rw [visitAll, Dialogue.run_bind, Transcript.andThen, he]
  rcases ending with why | _ | u
  · exact ⟨hf, rfl⟩
  · dsimp only [tasksOf]
    rw [hf, List.nil_append]
    exact ⟨rfl, rfl⟩
  · dsimp only [tasksOf]
    rw [hf, List.nil_append]
    -- The task is one less deep than what led to it, which makes no difference to what it does.
    have hdeep := run_visitAll_succ (hends _ he u (by simp))
    have hrest : (s.sequentialFrom (resume (.ok (some u))) (depth + 1)).run fs =
      (s.visitAll depth u).run fs := hdeep
    rw [hrest, Option.toList_some, forM_cons, Dialogue.run_bind, Transcript.andThen]
    cases hw : ((s.visitAll depth u).run fs).ending with
    | error why => exact ⟨rfl, rfl⟩
    | ok _ => exact ⟨List.append_nil _, rfl⟩

/-- A parallel search reports what its pool comes to, whatever was asked before. -/
theorem parallelFrom_resume (asked : List Query) (pick : Nat → Nat) (steps : Nat) :
    (s.parallelFrom (resume ending) fs pick steps).Agrees
      ((Pool.ofEnding s (tasksOf ending) [] asked).run fs s pick steps).outcome := by
  rcases ending with why | _ | u
  · have hover : (Pool.ofEnding s (.error why) [] asked).isOver = true := rfl
    rw [tasksOf, Pool.run_of_isOver hover, parallelFrom_of_error rfl]
    exact ⟨fun _ => Iff.rfl, Iff.rfl⟩
  · have hover : (Pool.ofEnding s (.ok []) [] asked).isOver = true := rfl
    rw [tasksOf, Option.toList_none, Pool.run_of_isOver hover, parallelFrom_of_none rfl]
    exact ⟨fun _ => Iff.rfl, Iff.rfl⟩
  · obtain ⟨more, hmore⟩ := Pool.run_asked fs s (.start (u.visit s)) asked pick steps
    have hpool : (Pool.ofEnding s (.ok [u]) [] asked).run fs s pick steps =
      { (Pool.start (u.visit s)).run fs s pick steps with asked := more } := hmore
    rw [tasksOf, Option.toList_some, hpool, parallelFrom_of_some rfl]
    exact ⟨fun _ => Iff.rfl, Iff.rfl⟩

end

/-- A directory that reports nothing and gives one task, or none, might as well be left out. One that
cannot be visited might as well be where the search breaks off. -/
theorem sameOutcome_of_visit (hd : d.Lawful) {place : Place} {above : List Place}
    (ht : t.Placed d place above) {ending : Except Failure (Option Task)}
    (hf : ((t.visit s).run d.fileSystem).found = [])
    (he : ((t.visit s).run d.fileSystem).ending = tasksOf ending) :
    s.SameOutcome d.fileSystem d.extent (resume (.ok (some t))) (resume ending) := by
  obtain ⟨asked, hforwards⟩ : ∃ asked,
      (Pool.ofEnding s (.ok [t]) [] []).Forwards d.fileSystem s
        (Pool.ofEnding s (tasksOf ending) [] asked) := by
    have hlone := Pool.forwards_lone d.fileSystem s (t.visit s) [] []
    rw [hf, he] at hlone
    exact ⟨_, hlone⟩
  have hsequential : ((s.sequentialFrom (resume (.ok (some t))) d.extent.depth).run
      d.fileSystem).report.Agrees
        ((s.sequentialFrom (resume ending) d.extent.depth).run d.fileSystem).report := by
    obtain ⟨hfound, hending⟩ := run_visitAll_of_visit (ends_of_placed hd ht) hf he
    exact Transcript.report_agrees hfound hending
  have hends := hforwards.same_ends (isOver_run_of_placed hd ht)
  refine .of_reports hsequential fun pick => ⟨?_, ?_⟩
  · obtain ⟨other, hother⟩ := (hends pick).1
    refine ⟨other, (parallelFrom_resume [] pick _).trans ?_⟩
    rw [tasksOf, Option.toList_some, hother]
    exact (parallelFrom_resume asked other _).symm
  · obtain ⟨other, hother⟩ := (hends pick).2
    refine ⟨other, (parallelFrom_resume [] other _).trans ?_⟩
    rw [tasksOf, Option.toList_some, ← hother]
    exact (parallelFrom_resume asked pick _).symm

end Selection

end TreeGlob
