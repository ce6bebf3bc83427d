import TreeGlob.Proofs.Search.Crew
import TreeGlob.Proofs.Search.Order

/-!
The strategy of a search does not change what comes of it.

* `Selection.ComesTo` says that a parallel search comes to a given transcript, up to the order,
  whichever of its jobs or workers take their turns, and that it comes to its end.
* `comesTo_of_ends` says that it comes to what the sequential search does, with any file system that the
  sequential one does not fail on.
* `Selection.strategies_agree` is the main result.
-/
namespace TreeGlob

namespace Selection

/-! ## What a parallel search comes to -/

/-- Whichever jobs of a pool and workers of a crew take their turns, they come to the end of the search,
and have then found and asked what the transcript says, in some order. -/
structure ComesTo (s : Selection) (fs : FileSystem) (extent : Extent) (base : Path)
    (t : Transcript Unit) : Prop where
  pools : ∀ pick, (s.parallel fs pick extent.steps base).failure = none ∧
    (s.parallel fs pick extent.steps base).found.Perm t.found ∧
    (s.parallel fs pick extent.steps base).listed.Perm (listedIn t.asked)
  /-- No worker fails or is aborted. -/
  healthy : ∀ steps c, s.CrewAfter (fun _ => fs) base steps c → ∀ w ∈ c.workers, w.stage.gaveUp = false
  bounded : ∀ steps c, s.CrewAfter (fun _ => fs) base steps c → steps ≤ 2 * extent.steps
  /-- Until all workers have finished, one of them can take a step. -/
  progress : ∀ steps c, s.CrewAfter (fun _ => fs) base steps c →
    (∃ w ∈ c.workers, w.stage ≠ .finished) → ∃ next, Crew.Step (fun _ => fs) s c next
  /-- When the first worker has finished, so have all others, and nothing is left to do. -/
  completes : ∀ steps c, s.CrewAfter (fun _ => fs) base steps c →
    ∀ first, c.workers.head? = some first → first.stage = .finished →
      (∀ w ∈ c.workers, w.stage = .finished) ∧ c.found.Perm t.found ∧ c.asked.Perm t.asked

variable {fs : FileSystem} {s : Selection} {base : Path} {depth steps : Nat}

theorem run_sequential_of_none (hs : ((s.begin base).run fs).ending = .ok none) :
    (s.sequential depth base).run fs = ⟨[], ((s.begin base).run fs).asked, .ok ()⟩ := by
  rw [sequential, sequentialFrom, Dialogue.run_bind, Transcript.andThen, hs]
  simp [Dialogue.run, (onlyLooks_begin s base).found_eq_nil fs]

theorem run_sequential_of_some {t : Task} (hs : ((s.begin base).run fs).ending = .ok (some t)) :
    (s.sequential depth base).run fs =
      ⟨((s.visitAll depth t).run fs).found,
        ((s.begin base).run fs).asked ++ ((s.visitAll depth t).run fs).asked,
        ((s.visitAll depth t).run fs).ending⟩ := by
  rw [sequential, sequentialFrom_of_some hs, (onlyLooks_begin s base).found_eq_nil fs,
    List.nil_append]

/-- What is due in a parallel search when it comes to its first task is what the sequential search has
yet to do. -/
theorem crewAfter_due {t : Task} (hs : ((s.begin base).run fs).ending = .ok (some t))
    (hends : s.Ends fs (depth + 1) (t.visit s))
    (h : ((s.visitAll (depth + 1) t).run fs).ending = .ok ()) {n : Nat} {c : Crew}
    (hafter : s.CrewAfter (fun _ => fs) base n c) :
    c.Orderly ∧ c.Due s fs depth ((s.visitAll (depth + 1) t).run fs).found
        (((s.begin base).run fs).asked ++ ((s.visitAll (depth + 1) t).run fs).asked) ∧
      n ≤ 2 * s.cost fs (depth + 1) (t.visit s) := by
  obtain ⟨u, hu, hafter⟩ := hafter
  rw [Dialogue.runOn_const] at hu hafter
  obtain rfl : t = u := Option.some.inj (Except.ok.inj (hs.symm.trans hu))
  have hdue := Crew.due_start hends h ((s.begin base).run fs).asked
  obtain ⟨-, hweight⟩ := Crew.weight_after hdue.ends hafter
  rw [Crew.weight_start] at hweight
  exact ⟨(Crew.orderly_start s _ t).after hafter, hdue.after hafter, by omega⟩

/-- Jobs that take turns in any order come to the end of the search. -/
theorem parallel_of_ends {t : Task} (hs : ((s.begin base).run fs).ending = .ok (some t))
    (hends : s.Ends fs (depth + 1) (t.visit s))
    (h : ((s.visitAll (depth + 1) t).run fs).ending = .ok ())
    (hcost : s.cost fs (depth + 1) (t.visit s) ≤ steps) (pick : Nat → Nat) :
    (s.parallel fs pick steps base).failure = none ∧
      (s.parallel fs pick steps base).found.Perm ((s.visitAll (depth + 1) t).run fs).found ∧
      (s.parallel fs pick steps base).listed.Perm
        (listedIn (((s.begin base).run fs).asked ++ ((s.visitAll (depth + 1) t).run fs).asked)) := by
  have hjobs : ∀ job ∈ (Pool.start (t.visit s)).jobs, s.Ends fs (depth + 1) job :=
    fun job hjob => List.mem_singleton.mp hjob ▸ hends
  have hsum : ((Pool.start (t.visit s)).jobs.map (s.cost fs (depth + 1))).sum ≤ steps := by
    simpa [Pool.start] using hcost
  have hover := Pool.isOver_run depth hjobs hsum pick
  obtain ⟨hiff, hdone⟩ := Pool.due_run depth rfl hjobs hover
  have hconcludes : (Pool.start (t.visit s)).Concludes s fs depth := List.forall_mem_singleton.mpr h
  obtain ⟨hfound, hasked⟩ := hdone hconcludes
  rw [parallel, parallelFrom_of_some hs, if_pos hover]
  refine ⟨hiff.mpr hconcludes, ?_, ?_⟩
  · rwa [Pool.allFound_start] at hfound
  · rw [Pool.allAsked_start] at hasked
    exact (hasked.append_left _).filterMap _

/-- A parallel search comes to what the sequential one does, if that does not fail and what it begins
with leads neither too deep nor too far. -/
theorem comesTo_of_ends
    (h : ((s.sequential (depth + 1) base).run fs).ending = .ok ())
    (hends : ∀ t, ((s.begin base).run fs).ending = .ok (some t) →
      s.Ends fs (depth + 1) (t.visit s) ∧ s.cost fs (depth + 1) (t.visit s) ≤ steps) :
    s.ComesTo fs ⟨depth + 1, steps⟩ base ((s.sequential (depth + 1) base).run fs) := by
  obtain ⟨start, hs, hrest⟩ := Dialogue.ending_bind_eq_ok.mp h
  cases start with
  | none =>
    -- Nothing is begun, so there are no workers.
    have hnone : ∀ n c, ¬s.CrewAfter (fun _ => fs) base n c := by
      rintro n c ⟨t, ht, -⟩
      rw [Dialogue.runOn_const, hs] at ht
      cases ht
    have hreport : ∀ pick, s.parallel fs pick steps base =
        ((s.sequential (depth + 1) base).run fs).report :=
      fun pick => (parallelFrom_of_none hs).trans (sequentialFrom_of_none hs).symm
    refine ⟨fun pick => ?_, fun n c hc => (hnone n c hc).elim, fun n c hc => (hnone n c hc).elim,
      fun n c hc => (hnone n c hc).elim, fun n c hc => (hnone n c hc).elim⟩
    rw [hreport pick]
    exact ⟨by simp [Transcript.report, h], .refl _, .refl _⟩
  | some t =>
    obtain ⟨hdeep, hcost⟩ := hends t hs
    rw [run_sequential_of_some hs]
    refine ⟨parallel_of_ends hs hdeep hrest hcost, fun n c hc => ?_, fun n c hc => ?_,
      fun n c hc => ?_, fun n c hc first hfirst hfin => ?_⟩
    all_goals obtain ⟨horder, hdue, hn⟩ := crewAfter_due hs hdeep hrest hc
    · exact hdue.healthy
    · exact hn.trans (Nat.mul_le_mul_left 2 hcost)
    · rintro ⟨w, hw, hstage⟩
      exact hdue.progress horder hw hstage
    · have hall := horder.all_finished hfirst hfin
      exact ⟨hall, hdue.done hall⟩

/-! ## Results -/

theorem failure_eq_none {t : Transcript Unit} : t.report.failure = none ↔ t.ending = .ok () := by
  unfold Transcript.report
  cases t.ending <;> simp

/-- A sequential search that does not fail finds nothing twice and lists nothing twice. -/
theorem nodup_sequential (hfs : fs.Tidy) (h : ((s.sequential depth base).run fs).ending = .ok ()) :
    ((s.sequential depth base).run fs).found.Nodup ∧
      (listedIn ((s.sequential depth base).run fs).asked).Nodup := by
  have hbegin := (onlyLooks_begin s base).listedIn_eq_nil fs
  obtain ⟨start, hs, hrest⟩ := Dialogue.ending_bind_eq_ok.mp h
  cases start with
  | none =>
    rw [run_sequential_of_none hs]
    exact ⟨List.nodup_nil, hbegin ▸ List.nodup_nil⟩
  | some t =>
    rw [run_sequential_of_some hs, run_visitAll_of_ok hfs hrest]
    refine ⟨nodup_found hfs s depth t, ?_⟩
    rw [listedIn_append, hbegin, listedIn_order]
    exact nodup_order hfs s depth t

/-- **The strategy does not change the answer.** On a disk that does not change, where a sequential
search does not fail, it finds nothing twice and lists no directory twice; and a parallel search comes
to its end, having found the same paths and listed the same directories, in whatever order its workers
take their steps. Its first worker finishes only after all others. -/
theorem strategies_agree {d : Disk} (hd : d.Lawful) (s : Selection) (base : Path)
    (h : ((s.sequential d.extent.depth base).run d.fileSystem).report.failure = none) :
    ((s.sequential d.extent.depth base).run d.fileSystem).found.Nodup ∧
      (listedIn ((s.sequential d.extent.depth base).run d.fileSystem).asked).Nodup ∧
      s.ComesTo d.fileSystem d.extent base ((s.sequential d.extent.depth base).run d.fileSystem) := by
  have hok := failure_eq_none.mp h
  obtain ⟨hfound, hlisted⟩ := nodup_sequential (Disk.tidy hd) hok
  refine ⟨hfound, hlisted, ?_⟩
  refine comesTo_of_ends hok fun t ht => ⟨?_, ?_⟩
  · exact Created.ends hd (.start ht)
  · exact Disk.cost_visit_le d s (d.entries.length + 2) t

def everything : Selection where
  included := [{ source := "**".toList, segments := [.globstar], dialect := {} }]
  excluded := []
  skipHidden := true

/-- The directory `/a` is come to twice, once through the link `/home`; the link `/loop` does not
resolve, which is no failure. -/
theorem strategies_agree_in_circular :
    Disk.circular.Lawful ∧
      ((everything.sequential Disk.circular.extent.depth .root).run
        Disk.circular.fileSystem).report.failure = none ∧
      listedIn ((everything.sequential Disk.circular.extent.depth .root).run
        Disk.circular.fileSystem).asked =
          ["/", "/a", "/a/b", "/home", "/home/b"].map (Path.ofText ·.toList) ∧
      ((everything.sequential Disk.circular.extent.depth .root).run
        Disk.circular.fileSystem).found.Nodup ∧
      everything.ComesTo Disk.circular.fileSystem Disk.circular.extent .root
        ((everything.sequential Disk.circular.extent.depth .root).run Disk.circular.fileSystem) := by
  have hd : Disk.circular.Lawful := by decide
  have hnone : ((everything.sequential Disk.circular.extent.depth .root).run
      Disk.circular.fileSystem).report.failure = none := by decide +kernel
  obtain ⟨hfound, -, hcomes⟩ := strategies_agree hd everything .root hnone
  exact ⟨hd, hnone, by decide +kernel, hfound, hcomes⟩

end Selection

end TreeGlob
