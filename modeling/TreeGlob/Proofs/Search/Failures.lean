import TreeGlob.Proofs.Search.Breakdown

/-!
What comes of a search when listings are refused.

* `Feed.Fails` says that a reader gets some paths, then an error, and then nothing.
* `Selection.FailsFor` is what a parallel search comes to that was refused a listing.
  `failsFor_of_failed` reads it off the workers.
* `Selection.refusals_end_the_search` is the main result, for all searches.
-/
namespace TreeGlob

/-- A reader gets the paths, then the error, and then nothing, however often it polls. -/
def Feed.Fails (f : Feed) (paths : List Path) (e : FsError) : Prop :=
  ∃ rest, f.readAll = ⟨paths, some e, rest⟩ ∧ rest.poll = (.atEnd, rest)

theorem Feed.fails_ofReport {r : Report} {e : FsError} (h : r.failure = some (.error e)) :
    (ofReport r).Fails r.found e := ⟨_, readAll_ofReport_of_error h, rfl⟩

namespace Selection

/-- What a parallel search comes to that failed for a listing that was refused. It has found nothing
twice, and only what one can find without the refusals, where a sequential search comes to `whole`; and
its reader is told of one listing that was refused. -/
structure FailsFor (s : Selection) (fs fs' : FileSystem) (base : Path) (struck : Path → Prop)
    (whole part : Report) : Prop where
  nodup : part.found.Nodup
  found : ∃ steps c, s.CrewAfter (fun _ => fs) base steps c ∧ c.found = part.found
  subset : whole.failure = none → part.found ⊆ whole.found
  /-- A listing that fails of itself is one that the sequential search may fail for as well. -/
  fails : ∃ p e, p ∈ part.listed ∧ fs' (.list p) = .error e ∧
    (struck p ∨ fs (.list p) = .error e ∧ whole.failure ≠ none) ∧
    part.failure = some (.error e) ∧ (Feed.ofReport part).Fails part.found e

variable {fs fs' : FileSystem} {s : Selection} {base : Path} {struck : Path → Prop} {t : Task}
  {depth steps : Nat} {c : Crew}

theorem run_begin_of_refuses (hr : fs.Refuses fs' base struck) (s : Selection) (base : Path) :
    (s.begin base).run fs' = (s.begin base).run fs :=
  (onlyLooks_begin s base).run_congr hr.isLook_eq

theorem not_refused_of_ok (hhonest : ∀ q : Query, q.Honest (fs q))
    (hok : ((s.sequential depth base).run fs).ending = .ok ()) {p : Path}
    (hp : .list p ∈ ((s.sequential depth base).run fs).asked) (e : FsError) :
    ¬(Query.list p).Refused base (fs (.list p)) e := by
  intro he
  cases (givesUp_sequential s depth base).run_cases hhonest (fs.refuses_forgiving base) with
  | inl hspared => exact hspared.1 p hp ⟨e, he⟩
  | inr hcuts =>
    obtain ⟨earlier, q, other, hcut⟩ := hcuts
    rw [hcut.ending] at hok
    cases hok

theorem nodup_of_crew (hfs : fs.Tidy) (hlives : fs.Lives) (hhonest : ∀ q : Query, q.Honest (fs q))
    (hopen : t.Open s base) (hends : s.Ends fs (depth + 1) (t.visit s)) {asked : List Query}
    (hafter : (Crew.start s asked t).After (fun _ => fs) s steps c) : c.found.Nodup := by
  have hwithholds := fs.withholds_forgiving base
  have hends' := hends.withholds hwithholds
  -- Where all is forgiven, what has been found is part of what a whole search finds.
  obtain ⟨count, c', hc', hshadows⟩ := Crew.exists_shadow (fs.refuses_forgiving base) hlives hhonest
    (Crew.accountable_start hlives hopen asked) hafter
  obtain ⟨hok, hnodup⟩ := run_visitAll_forgiving (hwithholds.tidy hfs) hlives.list hends'
    hopen.relative_eq_nil_iff.mp
  have hdue := (Crew.due_start hends' hok asked).after hc'
  rw [← hshadows.found]
  exact (List.nodup_append.mp (hdue.found_perm.nodup_iff.mpr hnodup)).1

/-- A crew in which a worker has failed was refused a listing. -/
theorem failsFor_of_failed (hfs : fs.Tidy) (hlives : fs.Lives) (hhonest : ∀ q : Query, q.Honest (fs q))
    (hr : fs.Refuses fs' base struck) (ht : ((s.begin base).run fs).ending = .ok (some t))
    (hends : s.Ends fs (depth + 1) (t.visit s))
    (hafter : (Crew.start s ((s.begin base).run fs).asked t).After (fun _ => fs') s steps c)
    {w : Worker} {why : Failure} (hw : w ∈ c.workers) (hfailed : w.stage = .failed why) :
    s.FailsFor fs fs' base struck ((s.sequential (depth + 1) base).run fs).report
      ⟨c.found, listedIn c.asked, some why⟩ := by
  have hopen := open_of_begin hhonest ht
  have hlives' := hr.lives hlives
  have hhonest' := hr.honest hhonest
  have haccountable := Crew.accountable_start hlives' hopen ((s.begin base).run fs).asked
  obtain ⟨count, c', hc', hshadows⟩ := Crew.exists_shadow hr hlives' hhonest' haccountable hafter
  have hcrew : s.CrewAfter (fun _ => fs) base count c' := by
    refine ⟨t, ?_⟩
    rw [Dialogue.runOn_const]
    exact ⟨ht, hc'⟩
  obtain ⟨p, e, rfl, hp, he⟩ :=
    (haccountable.after hlives' hhonest' hafter).failed w hw why hfailed
  -- What is due of a search that does not fail tells what the crew can have found and asked.
  have hwhole : ((s.sequential (depth + 1) base).run fs).report.failure = none →
      c.found ⊆ ((s.sequential (depth + 1) base).run fs).found ∧
        c'.asked ⊆ ((s.sequential (depth + 1) base).run fs).asked := by
    intro hnone
    have hok := failure_eq_none.mp hnone
    rw [run_sequential_of_some ht] at hok ⊢
    obtain ⟨-, hdue, -⟩ := crewAfter_due ht hends hok hcrew
    refine ⟨?_, ?_⟩
    · rw [← hshadows.found]
      exact fun x hx => hdue.found_perm.subset (List.mem_append_left _ hx)
    · exact fun q hq => hdue.asked_perm.subset (List.mem_append_left _ hq)
  refine ⟨?_, ⟨count, c', hcrew, hshadows.found⟩, fun hnone => (hwhole hnone).1,
    p, e, mem_listedIn.mpr hp, he.1, ?_, rfl, Feed.fails_ofReport rfl⟩
  · exact nodup_of_crew (hr.withholds.tidy hfs) hlives' hhonest' hopen (hends.withholds hr.withholds)
      hafter
  · by_cases hstruck : struck p
    · exact .inl hstruck
    · have hspared : ∀ q, Query.list p = .list q → ¬struck q := fun q hq => Query.list.inj hq ▸ hstruck
      rw [hr.same _ hspared] at he
      refine .inr ⟨he.1, fun hnone => ?_⟩
      have hasked := (hwhole hnone).2 (hshadows.asked _ hp hspared)
      exact not_refused_of_ok hhonest (failure_eq_none.mp hnone) hasked e he

theorem parallel_unchanged (hr : fs.Refuses fs' base struck) (pick : Nat → Nat)
    (h : ∀ q ∈ (s.parallel fs' pick steps base).listed, ¬struck q) :
    s.parallel fs' pick steps base = s.parallel fs pick steps base := by
  have hbegin := run_begin_of_refuses hr s base
  rw [parallel] at h
  rw [parallel, parallel]
  cases hs : ((s.begin base).run fs).ending with
  | error why => rw [parallelFrom_of_error (hbegin ▸ hs), parallelFrom_of_error hs, hbegin]
  | ok start =>
    cases start with
    | none => rw [parallelFrom_of_none (hbegin ▸ hs), parallelFrom_of_none hs, hbegin]
    | some t =>
      rw [parallelFrom_of_some (hbegin ▸ hs)] at h
      rw [parallelFrom_of_some (hbegin ▸ hs), parallelFrom_of_some hs, hbegin]
      have hsame : (Pool.start (t.visit s)).run fs' s pick steps =
          (Pool.start (t.visit s)).run fs s pick steps := by
        refine Pool.run_congr fun q hq => hr.same q fun p hp => h p ?_
        exact mem_listedIn.mpr (List.mem_append_right _ (hp ▸ hq))
      rw [hsame]

/-- If the jobs come to their end and none fails, then neither does the sequential search, and they have
asked nothing that it does not. -/
theorem sequential_of_pool (ht : ((s.begin base).run fs).ending = .ok (some t))
    (hends : s.Ends fs (depth + 1) (t.visit s)) {pick : Nat → Nat}
    (hover : ((Pool.start (t.visit s)).run fs s pick steps).isOver = true)
    (hfailure : ((Pool.start (t.visit s)).run fs s pick steps).failure = none) :
    ((s.sequential (depth + 1) base).run fs).ending = .ok () ∧
      ((s.begin base).run fs).asked ++ ((Pool.start (t.visit s)).run fs s pick steps).asked ⊆
        ((s.sequential (depth + 1) base).run fs).asked := by
  have hjobs : ∀ job ∈ (Pool.start (t.visit s)).jobs, s.Ends fs (depth + 1) job :=
    List.forall_mem_singleton.mpr hends
  obtain ⟨hiff, hdone⟩ := Pool.due_run depth rfl hjobs hover
  have hconcludes := hiff.mp hfailure
  obtain ⟨-, hasked⟩ := hdone hconcludes
  rw [Pool.allAsked_start] at hasked
  rw [run_sequential_of_some ht]
  exact ⟨hconcludes _ (List.mem_singleton.mpr rfl), (hasked.append_left _).subset⟩

/-- If the first worker finishes, then the sequential search does not fail either, and the workers have
asked what it asks. -/
theorem sequential_of_crew (hfs : fs.Tidy) (hlives : fs.Lives) (hhonest : ∀ q : Query, q.Honest (fs q))
    (hends : ∀ t, ((s.begin base).run fs).ending = .ok (some t) → s.Ends fs (depth + 1) (t.visit s))
    (hc : s.CrewAfter (fun _ => fs) base steps c) {first : Worker}
    (hfirst : c.workers.head? = some first) (hfinished : first.stage = .finished) :
    ((s.sequential (depth + 1) base).run fs).ending = .ok () ∧
      c.asked.Perm ((s.sequential (depth + 1) base).run fs).asked := by
  obtain ⟨t, ht, hafter⟩ := hc
  rw [Dialogue.runOn_const] at ht hafter
  have hopen := open_of_begin hhonest ht
  have hall := ((Crew.orderly_start s _ t).after hafter).all_finished hfirst hfinished
  have hrefuses := fs.refuses_forgiving base
  have hspared : ∀ p, .list p ∈ c.asked → ¬∃ e, (Query.list p).Refused base (fs (.list p)) e := by
    intro p hp hstruck
    have hlooks := (onlyLooks_begin s base).listsNothing.not_mem_asked fs
    obtain ⟨w, hw, hdoomed⟩ := Crew.exists_doomed hrefuses hlives hhonest
      (Crew.accountable_start hlives hopen _) hlooks hafter hstruck hp
    rw [hall w hw] at hdoomed
    exact hdoomed
  -- So all would be the same if every refusal were forgiven, and then no search fails.
  have hsame : ∀ q ∈ c.asked, fs q = fs.forgiving base q := fun q hq =>
    hrefuses.same q fun p hp => hspared p (hp ▸ hq)
  have hwithholds := fs.withholds_forgiving base
  have hends' := (hends t ht).withholds hwithholds
  obtain ⟨hok, -⟩ := run_visitAll_forgiving (hwithholds.tidy hfs) hlives.list hends'
    hopen.relative_eq_nil_iff.mp
  obtain ⟨-, hasked⟩ := ((Crew.due_start hends' hok _).after (hafter.congr hsame)).done hall
  have hrun : (s.visitAll (depth + 1) t).run (fs.forgiving base) = (s.visitAll (depth + 1) t).run fs := by
    refine Dialogue.run_congr fun q hq => (hsame q ?_).symm
    exact hasked.mem_iff.mpr (List.mem_append_right _ hq)
  rw [run_sequential_of_some ht, ← hrun]
  exact ⟨hok, hasked⟩

/-- Jobs that are refused a listing fail for one, in whatever order they take turns. -/
theorem parallel_fails (hfs : fs.Tidy) (hlives : fs.Lives) (hhonest : ∀ q : Query, q.Honest (fs q))
    (hr : fs.Refuses fs' base struck)
    (hends : ∀ t, ((s.begin base).run fs).ending = .ok (some t) →
      s.Ends fs (depth + 1) (t.visit s) ∧ s.cost fs (depth + 1) (t.visit s) ≤ steps)
    (pick : Nat → Nat) {q : Path} (hq : q ∈ (s.parallel fs' pick steps base).listed)
    (hstruck : struck q) :
    s.FailsFor fs fs' base struck ((s.sequential (depth + 1) base).run fs).report
      (s.parallel fs' pick steps base) := by
  have hbegin := run_begin_of_refuses hr s base
  have hlooks := (onlyLooks_begin s base).listedIn_eq_nil fs'
  rw [parallel] at hq ⊢
  cases hs' : ((s.begin base).run fs').ending with
  | error why =>
    rw [parallelFrom_of_error hs', Transcript.report, hlooks] at hq
    cases hq
  | ok start =>
    cases start with
    | none =>
      rw [parallelFrom_of_none hs', Transcript.report, hlooks] at hq
      cases hq
    | some t =>
      have hs := hbegin ▸ hs'
      obtain ⟨hdeep, hcost⟩ := hends t hs
      have hdeep' := hdeep.withholds hr.withholds
      have hover : ((Pool.start (t.visit s)).run fs' s pick steps).isOver = true := by
        refine Pool.isOver_run depth (List.forall_mem_singleton.mpr hdeep') ?_ pick
        simpa [Pool.start] using (cost_withholds_le hr.withholds s (depth + 1) t).trans hcost
      rw [parallelFrom_of_some hs', if_pos hover] at hq ⊢
      cases hfailure : ((Pool.start (t.visit s)).run fs' s pick steps).failure with
      | none =>
        -- The sequential search was refused the same listing, and yet did not fail.
        obtain ⟨hok, hasked⟩ := sequential_of_pool hs' hdeep' hover hfailure
        obtain ⟨e, he⟩ := hr.refused q hstruck
        have hnot := not_refused_of_ok (hr.honest hhonest) hok (hasked (mem_listedIn.mp hq))
        exact absurd he (hnot e)
      | some why =>
        obtain ⟨count, c, hafter, hmirrors⟩ :=
          Crew.exists_crew fs' s ((s.begin base).run fs').asked t pick steps
        obtain ⟨w, hw, hfailed⟩ := hmirrors.failed why hfailure
        rw [hbegin] at hafter
        rw [← hmirrors.found_eq, ← hmirrors.asked_eq]
        exact failsFor_of_failed hfs hlives hhonest hr hs hdeep hafter hw hfailed

/-! ## All searches -/

/-- What becomes of the searches below `base` when listings are refused. -/
structure EndsAtRefusals (s : Selection) (fs fs' : FileSystem) (extent : Extent) (base : Path)
    (struck : Path → Prop) : Prop where
  /-- A sequential search that comes to no refused listing goes on as it would. -/
  unchanged : (∀ p ∈ (s.search .sequential fs' extent base).listed, ¬struck p) →
    s.search .sequential fs' extent base = s.search .sequential fs extent base
  /-- One that comes to a refused listing stops at the first one, and its reader is told so. -/
  stops : ∀ q ∈ (s.search .sequential fs' extent base).listed, struck q → ∃ earlier p e,
    s.StopsAt fs fs' struck (s.search .sequential fs extent base)
        (s.search .sequential fs' extent base) earlier p e ∧
      (Feed.ofReport (s.search .sequential fs' extent base)).Fails
        (s.search .sequential fs' extent base).found e
  pools_unchanged : ∀ pick, (∀ p ∈ (s.parallel fs' pick extent.steps base).listed, ¬struck p) →
    s.parallel fs' pick extent.steps base = s.parallel fs pick extent.steps base
  pools_fail : ∀ pick, ∀ q ∈ (s.parallel fs' pick extent.steps base).listed, struck q →
    s.FailsFor fs fs' base struck (s.search .sequential fs extent base)
      (s.parallel fs' pick extent.steps base)
  crews_bounded : ∀ n c, s.CrewAfter (fun _ => fs') base n c → n ≤ 2 * extent.steps
  /-- Until the first worker has come to its last stage, some worker can take a step. -/
  crews_progress : ∀ n c, s.CrewAfter (fun _ => fs') base n c → ∃ first,
    c.workers.head? = some first ∧
      (first.stage.isLast = false → ∃ next, Crew.Step (fun _ => fs') s c next)
  crews_unchanged : ∀ n c, s.CrewAfter (fun _ => fs') base n c →
    (∀ p ∈ listedIn c.asked, ¬struck p) → s.CrewAfter (fun _ => fs) base n c
  crews_fail : ∀ n c, s.CrewAfter (fun _ => fs') base n c → ∀ q ∈ listedIn c.asked, struck q →
    ∀ first, c.workers.head? = some first → first.stage.isLast = true →
      ∃ why, first.stage = .failed why ∧
        s.FailsFor fs fs' base struck (s.search .sequential fs extent base)
          ⟨c.found, listedIn c.asked, some why⟩

/-- Searches end at refusals if what they begin with leads neither too deep nor too far. -/
theorem endsAtRefusals_of_ends (hfs : fs.Tidy) (hlives : fs.Lives)
    (hhonest : ∀ q : Query, q.Honest (fs q)) (hr : fs.Refuses fs' base struck)
    (hends : ∀ t, ((s.begin base).run fs).ending = .ok (some t) →
      s.Ends fs (depth + 1) (t.visit s) ∧ s.cost fs (depth + 1) (t.visit s) ≤ steps) :
    s.EndsAtRefusals fs fs' ⟨depth + 1, steps⟩ base struck := by
  have hsequential := stopsAt_sequential (hr.honest hhonest) hr s (depth + 1)
  -- A crew comes from a first task, whichever of the file systems it is given by.
  have hcrew : ∀ n c, s.CrewAfter (fun _ => fs') base n c → ∃ t,
      ((s.begin base).run fs).ending = .ok (some t) ∧
        (Crew.start s ((s.begin base).run fs).asked t).After (fun _ => fs') s n c := by
    intro n c hc
    obtain ⟨t, ht, hafter⟩ := hc
    rw [Dialogue.runOn_const, run_begin_of_refuses hr] at ht hafter
    exact ⟨t, ht, hafter⟩
  refine {
    unchanged := fun hspared => ?_
    stops := fun q hq hstruck => ?_
    pools_unchanged := fun pick => parallel_unchanged hr pick
    pools_fail := fun pick q => parallel_fails hfs hlives hhonest hr hends pick
    crews_bounded := fun n c hc => ?_
    crews_progress := fun n c hc => ?_
    crews_unchanged := fun n c hc hspared => ?_
    crews_fail := fun n c hc q hq hstruck first hfirst hlast => ?_ }
  · cases hsequential with
    | inl hsame => exact congrArg Transcript.report hsame.2
    | inr hstops =>
      obtain ⟨earlier, p, e, hstop⟩ := hstops
      have hp : p ∈ (s.search .sequential fs' ⟨depth + 1, steps⟩ base).listed := by
        refine hstop.listed.symm ▸ List.mem_append_right _ (List.mem_singleton.mpr rfl)
      exact absurd hstop.last (hspared p hp)
  · cases hsequential with
    | inl hsame => exact absurd hstruck (hsame.1 q (mem_listedIn.mp hq))
    | inr hstops =>
      obtain ⟨earlier, p, e, hstop⟩ := hstops
      exact ⟨earlier, p, e, hstop, Feed.fails_ofReport hstop.failure⟩
  · obtain ⟨t, ht, hafter⟩ := hcrew n c hc
    obtain ⟨hdeep, hcost⟩ := hends t ht
    have hjobs : ∀ job ∈ jobsOf (Crew.start s ((s.begin base).run fs).asked t).workers,
        s.Ends fs' (depth + 1) job := List.forall_mem_singleton.mpr (hdeep.withholds hr.withholds)
    obtain ⟨-, hweight⟩ := Crew.weight_after hjobs hafter
    rw [Crew.weight_start] at hweight
    have hcost' := cost_withholds_le hr.withholds s (depth + 1) t
    show n ≤ 2 * steps
    omega
  · obtain ⟨t, ht, hafter⟩ := hcrew n c hc
    obtain ⟨first, hfirst⟩ := Crew.exists_first (List.cons_ne_nil _ _) hafter
    refine ⟨first, hfirst, Crew.exists_step ?_ ?_ (List.mem_of_mem_head? hfirst)⟩
    · exact (Crew.orderly_start s _ t).after hafter
    · exact (Crew.abandons_start s _ t).after hafter
  · obtain ⟨t, ht, hafter⟩ := hcrew n c hc
    refine ⟨t, ?_⟩
    rw [Dialogue.runOn_const]
    refine ⟨ht, hafter.congr fun q hq => hr.same q fun p hp => hspared p ?_⟩
    exact mem_listedIn.mpr (hp ▸ hq)
  · obtain ⟨t, ht, hafter⟩ := hcrew n c hc
    have hlooks := (onlyLooks_begin s base).listsNothing.not_mem_asked fs
    have hdoomed := Crew.exists_doomed hr (hr.lives hlives) (hr.honest hhonest)
      (Crew.accountable_start (hr.lives hlives) (open_of_begin hhonest ht) _) hlooks hafter hstruck
      (mem_listedIn.mp hq)
    obtain ⟨why, hfailed⟩ := Crew.first_failed ((Crew.orderly_start s _ t).after hafter)
      ((Crew.abandons_start s _ t).after hafter) hdoomed hfirst hlast
    exact ⟨why, hfailed, failsFor_of_failed hfs hlives hhonest hr ht (hends t ht).1 hafter
      (List.mem_of_mem_head? hfirst) hfailed⟩

/-- **A refused listing ends the search, and spoils nothing before it.** On a disk that does not change,
below any base, let any listings be refused: they fail, though not because the directory has gone, unless
it is the base. A search that comes to none of them goes on as it would. A sequential search that does
stops at the first one: it has found what the directories listed before it have, and its reader is told
of that error and then of nothing. A parallel search, in whatever order its jobs or workers take their
steps, comes to its end as well; it has then found nothing twice and nothing but what one finds without
the refusals, and its reader is told of one listing that was refused, and then of nothing. -/
theorem refusals_end_the_search {d : Disk} (hd : d.Lawful) (s : Selection) (base : Path)
    {fs' : FileSystem} {struck : Path → Prop} (hr : d.fileSystem.Refuses fs' base struck) :
    s.EndsAtRefusals d.fileSystem fs' d.extent base struck := by
  have hlives : d.fileSystem.Lives := ⟨fun p => Disk.answer_ne_crash p _, (Disk.tidy hd).survives⟩
  refine endsAtRefusals_of_ends (Disk.tidy hd) hlives (Disk.honest hd) hr fun t ht => ⟨?_, ?_⟩
  · exact Created.ends hd (.start ht)
  · exact Disk.cost_visit_le d s (d.entries.length + 2) t

/-- Both `/a/b` and `/home` are refused. A sequential search comes to `/a/b` first. -/
theorem refusals_end_the_search_in_circular :
    ∃ faults : List Fault,
      Disk.circular.fileSystem.Refuses (Disk.circular.fileSystem.withFaults faults) .root
        (fun p => ∃ f ∈ faults, f.strikes .list p = true) ∧
      everything.search .sequential (Disk.circular.fileSystem.withFaults faults) Disk.circular.extent
          .root =
        ⟨["/a", "/home", "/a/b", "/a/self"].map (Path.ofText ·.toList),
          ["/", "/a", "/a/b"].map (Path.ofText ·.toList),
          some (.error (.permissionDenied (.ofText "/a/b".toList)))⟩ ∧
      everything.EndsAtRefusals Disk.circular.fileSystem
        (Disk.circular.fileSystem.withFaults faults) Disk.circular.extent .root
        (fun p => ∃ f ∈ faults, f.strikes .list p = true) := by
  obtain ⟨faults, hfaults⟩ : ∃ faults : List Fault, faults =
    [⟨.list, .ofText "/a/b".toList, .permissionDenied⟩,
      ⟨.list, .ofText "/home".toList, .io "no answer"⟩] := ⟨_, rfl⟩
  have hr : Disk.circular.fileSystem.Refuses (Disk.circular.fileSystem.withFaults faults) .root
      fun p => ∃ f ∈ faults, f.strikes .list p = true :=
    Disk.circular.fileSystem.refuses_withFaults .root (by subst hfaults; decide)
  refine ⟨faults, hr, ?_, refusals_end_the_search (by decide) everything .root hr⟩
  subst hfaults
  decide +kernel

end Selection

end TreeGlob
