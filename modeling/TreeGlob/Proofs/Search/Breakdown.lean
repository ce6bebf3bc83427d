import TreeGlob.Proofs.Search.Withholding

/-!
What the workers of a parallel search do when listings are refused.

* `Failure.Blames` says that a search broke off at a refused listing that it had asked for.
  `Crew.Accountable` says that whoever has failed, or is going to, can blame one.
* `Crew.Shadows` compares a crew to one that meets with no refusals. Each worker of the one is where
  that of the other is, unless the other is doomed: it has failed, or is about to, or is aborted.
  Whatever a crew finds in spite of refusals, one finds without them (`exists_shadow`).
* `exists_doomed` says that a refused listing dooms a worker, so that the first worker fails in the end
  (`first_failed`). `After.congr` says that without any the crew does what it would do.
-/
namespace TreeGlob

/-! ## Whom to blame -/

/-- A listing that was asked for is refused, and that is the error. -/
def Failure.Blames (fs : FileSystem) (base : Path) (asked : List Query) (why : Failure) : Prop :=
  ∃ p e, why = .error e ∧ .list p ∈ asked ∧ (Query.list p).Refused base (fs (.list p)) e

theorem Failure.Blames.mono {fs : FileSystem} {base : Path} {asked more : List Query} {why : Failure}
    (h : why.Blames fs base asked) (hmore : asked ⊆ more) : why.Blames fs base more := by
  obtain ⟨p, e, hwhy, hp, he⟩ := h
  exact ⟨p, e, hwhy, hmore hp, he⟩

/-- No listing and no link makes the file system die. -/
structure FileSystem.Lives (fs : FileSystem) : Prop where
  list : ∀ p, fs (.list p) ≠ .crash
  resolve : ∀ p, fs (.resolve p) ≠ .crash

theorem FileSystem.Refuses.lives {fs fs' : FileSystem} {base : Path} {struck : Path → Prop}
    (h : fs.Refuses fs' base struck) (hfs : fs.Lives) : fs'.Lives where
  list p := by
    by_cases hp : struck p
    · obtain ⟨e, he, -⟩ := h.refused p hp
      simp [he]
    · rw [h.same _ fun q hq => Query.list.inj hq ▸ hp]
      exact hfs.list p
  resolve p := by
    rw [h.same _ fun _ => Query.noConfusion]
    exact hfs.resolve p

/-- A visit breaks off only where its directory is refused. -/
theorem Task.blames_visit {fs : FileSystem} {s : Selection} {base : Path} {t : Task} {why : Failure}
    (hfs : fs.Lives) (h : t.Open s base) (hwhy : ((t.visit s).run fs).ending = .error why) :
    why.Blames fs base ((t.visit s).run fs).asked := by
  obtain ⟨rest, hasked, -⟩ := t.asked_visit s fs
  cases hl : fs (.list t.path) with
  | crash => exact absurd hl (hfs.list t.path)
  | ok children =>
    rw [run_visit hl fun c _ _ => hfs.resolve _] at hwhy
    cases hwhy
  | error e =>
    rw [visit, Dialogue.query, Dialogue.ask_bind, Dialogue.run, Dialogue.done_bind, hl] at hwhy
    dsimp only at hwhy
    split at hwhy
    · cases hwhy
    next hborne =>
    cases hwhy
    refine ⟨t.path, e, rfl, hasked ▸ List.mem_cons_self, hl, fun hgone => ?_⟩
    refine h.relative_eq_nil_iff.mp ?_
    simpa [hgone] using hborne

namespace Crew

variable {fs fs' : FileSystem} {s : Selection} {base : Path} {struck : Path → Prop}
  {c c' next : Crew}

/-- Every visit gives up at a refusal, and blames one if it breaks off; and so does every worker that
has failed. -/
structure Accountable (fs : FileSystem) (s : Selection) (base : Path) (c : Crew) : Prop where
  obeys : c.Obeys s base
  givesUp : ∀ job ∈ jobsOf c.workers, job.GivesUp base
  jobs : ∀ job ∈ jobsOf c.workers, ∀ why, (job.run fs).ending = .error why →
    why.Blames fs base (c.asked ++ (job.run fs).asked)
  failed : ∀ w ∈ c.workers, ∀ why, w.stage = .failed why → why.Blames fs base c.asked

theorem accountable_start {t : Task} (hfs : fs.Lives) (h : t.Open s base) (asked : List Query) :
    (start s asked t).Accountable fs s base where
  obeys := obeys_start h asked
  givesUp := List.forall_mem_singleton.mpr (Task.givesUp_visit h)
  jobs := by
    refine List.forall_mem_singleton.mpr fun why hwhy => ?_
    exact (Task.blames_visit hfs h hwhy).mono (List.subset_append_right _ _)
  failed := List.forall_mem_singleton.mpr fun why hwhy => Stage.noConfusion hwhy

theorem Accountable.step (hfs : fs.Lives) (hhonest : ∀ q : Query, q.Honest (fs q))
    (h : c.Accountable fs s base) (hs : Step (fun _ => fs) s c next) :
    next.Accountable fs s base := by
  have hobeys := h.obeys.step (fun _ q => hhonest q) hs
  cases hs with
  | @report before after parent path rest =>
    have hmem := mem_jobsOf_visiting before after parent (.report path rest)
    exact {
      obeys := hobeys
      givesUp := forall_jobsOf_visiting h.givesUp (h.givesUp (.report path rest) hmem)
      jobs := forall_jobsOf_visiting h.jobs (h.jobs (.report path rest) hmem)
      failed := forall_mem_replace h.failed fun why hwhy => Stage.noConfusion hwhy }
  | @ask before after parent q rest found asked =>
    have hmem := mem_jobsOf_visiting before after parent (.ask q rest)
    have hjobs : ∀ job ∈ jobsOf (before ++ ⟨parent, .visiting (.ask q rest)⟩ :: after), ∀ why,
        (job.run fs).ending = .error why → why.Blames fs base (asked ++ [q] ++ (job.run fs).asked) := by
      intro job hjob why hwhy
      refine (h.jobs job hjob why hwhy).mono ?_
      rw [List.append_assoc]
      exact List.append_subset.mpr ⟨List.subset_append_left _ _,
        List.subset_append_of_subset_right _ (List.subset_append_right _ _)⟩
    have hrest : ∀ why, ((rest (fs q)).run fs).ending = .error why →
        why.Blames fs base (asked ++ [q] ++ ((rest (fs q)).run fs).asked) := by
      -- The question is no longer to be asked, but has been.
      intro why hwhy
      have hblames := h.jobs _ hmem why hwhy
      rwa [List.append_assoc]
    have hfailed : ∀ w ∈ before ++ ⟨parent, .visiting (.ask q rest)⟩ :: after, ∀ why,
        w.stage = .failed why → why.Blames fs base (asked ++ [q]) :=
      fun w hw why hwhy => (h.failed w hw why hwhy).mono (List.subset_append_left _ _)
    exact {
      obeys := hobeys
      givesUp := forall_jobsOf_visiting h.givesUp ((h.givesUp _ hmem).1 (fs q) (hhonest q))
      jobs := forall_jobsOf_visiting hjobs hrest
      failed := forall_mem_replace hfailed fun why hwhy => Stage.noConfusion hwhy }
  | @spawn before after parent tasks found asked =>
    have hmem := mem_jobsOf_visiting before after parent (.done tasks)
    have hopen : ∀ t ∈ tasks, t.Open s base := h.obeys.jobs _ hmem
    have hjobs := jobsOf_spawn before after parent s tasks
    refine {
      obeys := hobeys
      givesUp := forall_jobsOf h.givesUp (List.forall_mem_map.mpr ?_) hjobs
      jobs := forall_jobsOf h.jobs (List.forall_mem_map.mpr ?_) hjobs
      failed := List.forall_mem_append.mpr ⟨?_, ?_⟩ }
    · exact fun t ht => Task.givesUp_visit (hopen t ht)
    · intro t ht why hwhy
      exact (Task.blames_visit hfs (hopen t ht) hwhy).mono (List.subset_append_right _ _)
    · exact forall_mem_replace h.failed fun why hwhy => Stage.noConfusion hwhy
    · exact List.forall_mem_map.mpr fun t ht why hwhy => Stage.noConfusion hwhy
  | @breakOff before after parent why found asked =>
    have hblames := h.jobs _ (mem_jobsOf_visiting before after parent (.stop why)) why rfl
    rw [Dialogue.run, List.append_nil] at hblames
    exact {
      obeys := hobeys
      givesUp := forall_jobsOf_quiet h.givesUp rfl
      jobs := forall_jobsOf_quiet h.jobs rfl
      failed := forall_mem_replace h.failed fun other hother => Stage.failed.inj hother ▸ hblames }
  | @fail before after parent why found asked hfailed =>
    have hblames := h.failed _ (mem_of_mem_others hfailed) why rfl
    exact {
      obeys := hobeys
      givesUp := forall_jobsOf_quiet h.givesUp rfl
      jobs := forall_jobsOf_quiet h.jobs rfl
      failed := forall_mem_replace h.failed fun other hother => Stage.failed.inj hother ▸ hblames }
  | finish | abort =>
    exact {
      obeys := hobeys
      givesUp := forall_jobsOf_quiet h.givesUp rfl
      jobs := forall_jobsOf_quiet h.jobs rfl
      failed := forall_mem_replace h.failed fun why hwhy => Stage.noConfusion hwhy }

theorem Accountable.after (hfs : fs.Lives) (hhonest : ∀ q : Query, q.Honest (fs q)) {first : Crew}
    (h : first.Accountable fs s base) {steps : Nat} (hafter : first.After (fun _ => fs) s steps c) :
    c.Accountable fs s base := by
  induction hafter with
  | start => exact h
  | step _ hs ih => exact ih.step hfs hhonest hs

end Crew

/-! ## A crew without refusals -/

/-- The worker has failed, is about to, or is aborted. -/
def Stage.Doomed : Stage → Prop
  | .visiting (.stop _) | .failed _ | .aborted => True
  | .visiting (.done _) | .visiting (.report _ _) | .visiting (.ask _ _) | .joining | .finished => False

/-- The worker is where the other one is, unless that is doomed. -/
def Worker.Shadows (w w' : Worker) : Prop :=
  w.parent = w'.parent ∧ (w.stage = w'.stage ∨ w'.stage.Doomed)

theorem Worker.Shadows.eq {w w' : Worker} (h : w.Shadows w') (hsound : ¬w'.stage.Doomed) : w = w' := by
  obtain ⟨parent, stage⟩ := w
  obtain ⟨rfl, hstage⟩ := h
  obtain rfl := hstage.resolve_right hsound
  rfl

theorem forall₂_split {α β : Type} {R : α → β → Prop} {l : List α} {before after : List β} {b : β}
    (h : List.Forall₂ R l (before ++ b :: after)) : ∃ front a back, l = front ++ a :: back ∧
      List.Forall₂ R front before ∧ R a b ∧ List.Forall₂ R back after := by
  induction before generalizing l with
  | nil =>
    obtain ⟨a, back, ha, hback, rfl⟩ := List.forall₂_cons_right_iff.mp h
    exact ⟨[], a, back, rfl, .nil, ha, hback⟩
  | cons x before ih =>
    obtain ⟨y, rest, hy, hrest, rfl⟩ := List.forall₂_cons_right_iff.mp h
    obtain ⟨front, a, back, rfl, hfront, ha, hback⟩ := ih hrest
    exact ⟨y :: front, a, back, rfl, .cons hy hfront, ha, hback⟩

theorem exists_of_forall₂ {α β : Type} {R : α → β → Prop} {l : List α} {l' : List β}
    (h : List.Forall₂ R l l') {a : α} (ha : a ∈ l) : ∃ b ∈ l', R a b := by
  obtain ⟨before, after, rfl⟩ := List.append_of_mem ha
  obtain ⟨front, b, back, rfl, -, hb, -⟩ := forall₂_split h.flip
  exact ⟨b, List.mem_append_right _ List.mem_cons_self, hb⟩

namespace Crew

variable {fs fs' : FileSystem} {s : Selection} {base : Path} {struck : Path → Prop}
  {c c' next next' : Crew}

/-- The crew `c` has found what `c'` has, asked all it has but for listings that are refused, and its
workers are where those are, but for the doomed. -/
structure Shadows (struck : Path → Prop) (c c' : Crew) : Prop where
  found : c.found = c'.found
  asked : ∀ q ∈ c'.asked, (∀ p, q = .list p → ¬struck p) → q ∈ c.asked
  workers : List.Forall₂ Worker.Shadows c.workers c'.workers

theorem Shadows.refl (struck : Path → Prop) (c : Crew) : c.Shadows struck c where
  found := rfl
  asked _ hq _ := hq
  workers := List.forall₂_same.mpr fun _ _ => ⟨rfl, .inl rfl⟩

/-- A crew that takes no step shadows one in which a worker is doomed. -/
theorem Shadows.doom {before after : List Worker} {parent : Option Nat} {stage stage' : Stage}
    {found : List Path} {asked asked' : List Query}
    (h : c.Shadows struck ⟨before ++ ⟨parent, stage⟩ :: after, found, asked⟩)
    (hdoomed : stage'.Doomed)
    (hasked : ∀ q ∈ asked', (∀ p, q = .list p → ¬struck p) → q ∈ asked) :
    c.Shadows struck ⟨before ++ ⟨parent, stage'⟩ :: after, found, asked'⟩ where
  found := h.found
  asked q hq hspared := h.asked q (hasked q hq hspared) hspared
  workers := by
    obtain ⟨front, w, back, hworkers, hfront, hw, hback⟩ := forall₂_split h.workers
    rw [hworkers]
    exact List.rel_append hfront (.cons ⟨hw.1, .inr hdoomed⟩ hback)

/-- Whatever a crew does in spite of refusals, one without them does as well, or need not do. -/
theorem Shadows.step (hr : fs.Refuses fs' base struck)
    (hjobs : ∀ job ∈ jobsOf c'.workers, job.GivesUp base) (h : c.Shadows struck c')
    (hs : Step (fun _ => fs') s c' next') :
    c.Shadows struck next' ∨ ∃ next, Step (fun _ => fs) s c next ∧ next.Shadows struck next' := by
  -- Whoever takes the step is the same in both crews, unless it is doomed.
  have hsame : ∀ {before after : List Worker} {w : Worker},
      c'.workers = before ++ w :: after → ¬w.stage.Doomed → ∃ front back,
        c = ⟨front ++ w :: back, c'.found, c.asked⟩ ∧ List.Forall₂ Worker.Shadows front before ∧
          List.Forall₂ Worker.Shadows back after := by
    intro before after w hworkers hsound
    have hall := h.workers
    rw [hworkers] at hall
    obtain ⟨front, u, back, hsplit, hfront, hu, hback⟩ := forall₂_split hall
    refine ⟨front, back, ?_, hfront, hback⟩
    rw [← h.found, ← hu.eq hsound, ← hsplit]
  cases hs with
  | @report before after parent path rest found' asked' =>
    obtain ⟨front, back, hc, hfront, hback⟩ := hsame rfl id
    have hasked := h.asked
    rw [hc]
    exact .inr ⟨_, .report, rfl, hasked, List.rel_append hfront (.cons ⟨rfl, .inl rfl⟩ hback)⟩
  | @ask before after parent q rest found' asked' =>
    by_cases hq : ∃ p, q = .list p ∧ struck p
    · -- The refusal dooms the worker.
      obtain ⟨p, rfl, hp⟩ := hq
      obtain ⟨e, he⟩ := hr.refused p hp
      have hgoes := hjobs _ (mem_jobsOf_visiting before after parent (.ask (.list p) rest))
      left
      rw [hgoes.2 _ e he]
      refine h.doom trivial fun q hq hspared => ?_
      cases List.mem_append.mp hq with
      | inl hq => exact hq
      | inr hq => exact absurd hp (hspared p (List.mem_singleton.mp hq))
    · have hspared : ∀ p, q = .list p → ¬struck p := fun p hp hstruck => hq ⟨p, hp, hstruck⟩
      obtain ⟨front, back, hc, hfront, hback⟩ := hsame rfl id
      have hasked := h.asked
      rw [hc, hr.same q hspared]
      refine .inr ⟨_, .ask, rfl, fun r hr hspared => ?_,
        List.rel_append hfront (.cons ⟨rfl, .inl rfl⟩ hback)⟩
      cases List.mem_append.mp hr with
      | inl hr => exact List.mem_append_left _ (hasked r hr hspared)
      | inr hr => exact List.mem_append_right _ hr
  | @spawn before after parent tasks found' asked' =>
    obtain ⟨front, back, hc, hfront, hback⟩ := hsame rfl id
    have hasked := h.asked
    rw [hc, ← hfront.length_eq]
    refine .inr ⟨_, .spawn, rfl, hasked, ?_⟩
    refine List.rel_append (List.rel_append hfront (.cons ⟨rfl, .inl rfl⟩ hback)) ?_
    exact List.forall₂_same.mpr fun _ _ => ⟨rfl, .inl rfl⟩
  | @finish before after parent found' asked' hall =>
    obtain ⟨front, back, hc, hfront, hback⟩ := hsame rfl id
    have hasked := h.asked
    rw [hc]
    refine .inr ⟨_, .finish fun w hw hparent => ?_, rfl, hasked,
      List.rel_append hfront (.cons ⟨rfl, .inl rfl⟩ hback)⟩
    -- A worker that has finished is not doomed.
    obtain ⟨w', hw', hshadow⟩ : ∃ w' ∈ before ++ after, w.Shadows w' :=
      exists_of_forall₂ (List.rel_append hfront hback) hw
    have hfinished := hall w' hw' (by rw [← hshadow.1, hparent, hfront.length_eq])
    rw [hshadow.eq (by rw [hfinished]; exact id), hfinished]
  | breakOff => exact .inl (h.doom trivial fun _ hq _ => hq)
  | fail => exact .inl (h.doom trivial fun _ hq _ => hq)
  | abort => exact .inl (h.doom trivial fun _ hq _ => hq)

/-- Whatever a crew finds in spite of refusals, one without them finds as well. -/
theorem exists_shadow (hr : fs.Refuses fs' base struck) (hlives : fs'.Lives)
    (hhonest : ∀ q : Query, q.Honest (fs' q)) {first : Crew} (h : first.Accountable fs' s base)
    {steps : Nat} (hafter : first.After (fun _ => fs') s steps c') :
    ∃ count c, first.After (fun _ => fs) s count c ∧ c.Shadows struck c' := by
  induction hafter with
  | start => exact ⟨0, first, .start, .refl struck first⟩
  | @step steps c' next' hafter hs ih =>
    obtain ⟨count, c, hc, hshadows⟩ := ih
    have hjobs := (h.after hlives hhonest hafter).givesUp
    cases hshadows.step hr hjobs hs with
    | inl hsame => exact ⟨count, c, hc, hsame⟩
    | inr hstep =>
      obtain ⟨next, hnext, hshadows⟩ := hstep
      exact ⟨count + 1, next, hc.step hnext, hshadows⟩

/-! ## Where listings are refused, and where none are -/

theorem exists_mem_replace {P : Worker → Prop} {before after : List Worker} {w w' : Worker}
    (h : ∃ u ∈ before ++ w :: after, P u) (hw : P w → P w') : ∃ u ∈ before ++ w' :: after, P u := by
  obtain ⟨u, hu, hP⟩ := h
  rcases List.mem_append.mp hu with hu | hu
  · exact ⟨u, List.mem_append_left _ hu, hP⟩
  · cases List.mem_cons.mp hu with
    | inl hu =>
      subst hu
      exact ⟨w', List.mem_append_right _ List.mem_cons_self, hw hP⟩
    | inr hu => exact ⟨u, List.mem_append_right _ (List.mem_cons_of_mem _ hu), hP⟩

theorem doomed_step {answers : Answers} (h : ∃ w ∈ c.workers, w.stage.Doomed)
    (hs : Step answers s c next) : ∃ w ∈ next.workers, w.stage.Doomed := by
  cases hs with
  | report | ask | finish => exact exists_mem_replace h False.elim
  | breakOff | fail | abort => exact exists_mem_replace h fun _ => trivial
  | spawn =>
    obtain ⟨w, hw, hdoomed⟩ := exists_mem_replace h False.elim
    exact ⟨w, List.mem_append_left _ hw, hdoomed⟩

/-- A refused listing dooms a worker. -/
theorem exists_doomed (hr : fs.Refuses fs' base struck) (hlives : fs'.Lives)
    (hhonest : ∀ q : Query, q.Honest (fs' q)) {first : Crew} (h : first.Accountable fs' s base)
    (hnone : ∀ p, .list p ∉ first.asked) {steps : Nat}
    (hafter : first.After (fun _ => fs') s steps c) {p : Path} (hp : struck p)
    (hasked : .list p ∈ c.asked) : ∃ w ∈ c.workers, w.stage.Doomed := by
  induction hafter with
  | start => exact absurd hasked (hnone p)
  | @step steps c next hafter hs ih =>
    by_cases hbefore : .list p ∈ c.asked
    · exact doomed_step (ih hbefore) hs
    · -- The listing is what has just been asked for.
      have hjobs := (h.after hlives hhonest hafter).givesUp
      cases hs with
      | @ask before after parent q rest found asked =>
        obtain rfl : .list p = q :=
          List.mem_singleton.mp ((List.mem_append.mp hasked).resolve_left hbefore)
        obtain ⟨e, he⟩ := hr.refused p hp
        have hgoes := hjobs _ (mem_jobsOf_visiting before after parent (.ask (.list p) rest))
        rw [hgoes.2 _ e he]
        exact ⟨_, List.mem_append_right _ List.mem_cons_self, trivial⟩
      | report | spawn | breakOff | finish | fail | abort => exact absurd hasked hbefore

theorem asked_step {answers : Answers} (hs : Step answers s c next) : c.asked ⊆ next.asked := by
  cases hs with
  | ask => exact List.subset_append_left _ _
  | report | spawn | breakOff | finish | fail | abort => exact List.Subset.refl _

theorem After.congr {first : Crew} {steps : Nat} (hafter : first.After (fun _ => fs') s steps c)
    (h : ∀ q ∈ c.asked, fs' q = fs q) : first.After (fun _ => fs) s steps c := by
  induction hafter with
  | start => exact .start
  | @step steps c next hafter hs ih =>
    refine (ih fun q hq => h q (asked_step hs hq)).step ?_
    cases hs with
    | @ask before after parent q rest found asked =>
      have hsame := h q (List.mem_append_right _ (List.mem_singleton.mpr rfl))
      rw [hsame]
      exact .ask
    | report => exact .report
    | spawn => exact .spawn
    | breakOff => exact .breakOff
    | finish hall => exact .finish hall
    | fail hfailed => exact .fail hfailed
    | abort hlast hw hgave => exact .abort hlast hw hgave

theorem exists_first {answers : Answers} {first : Crew} (hfirst : first.workers ≠ []) {steps : Nat}
    (hafter : first.After answers s steps c) : ∃ w, c.workers.head? = some w := by
  refine Option.ne_none_iff_exists'.mp (mt List.head?_eq_none_iff.mp ?_)
  cases hafter with
  | start => exact hfirst
  | step _ hs => cases hs <;> simp

/-- If a listing is refused, the first worker does not finish; if it comes to its last stage, it has
failed. -/
theorem first_failed (ho : c.Orderly) (ha : c.Abandons) (h : ∃ w ∈ c.workers, w.stage.Doomed)
    {first : Worker} (hfirst : c.workers.head? = some first) (hlast : first.stage.isLast = true) :
    ∃ why, first.stage = .failed why := by
  cases hstage : first.stage with
  | failed why => exact ⟨why, rfl⟩
  | finished =>
    obtain ⟨w, hw, hdoomed⟩ := h
    rw [ho.all_finished hfirst hstage w hw] at hdoomed
    exact hdoomed.elim
  | aborted =>
    -- Nobody spawned the first worker.
    obtain ⟨j, u, hparent, -⟩ := ha first (List.mem_of_mem_head? hfirst) hstage
    rw [List.head?_eq_getElem?] at hfirst
    exact absurd (ho.parent_lt 0 first j hfirst hparent) (Nat.not_lt_zero j)
  | visiting | joining =>
    rw [hstage] at hlast
    cases hlast

end Crew

end TreeGlob
