import TreeGlob.Proofs.Search.Interleaving
import TreeGlob.Search.History

/-!
What the workers of a parallel search do together, whichever of them takes the next step.

* `Crew.Orderly` says that a worker was spawned by an earlier one, and that what a finished worker
  spawned has finished. So all workers have finished when the first one has
  (`Orderly.all_finished`).
* `exists_step` says that some worker can take a step until all have come to their last stage.
* `Crew.weight` bounds how many steps a crew can still take. Every step lowers it (`weight_step`).
* `Crew.Due` says that what the workers have done, with what they still have to do, is what a
  sequential search does. Every step keeps it (`Due.step`).
* `exists_crew` says that a pool does what a crew does.
-/
namespace TreeGlob

/-- What is left of a visit that is going on. -/
def Stage.job? : Stage → Option (Dialogue (List Task))
  | .visiting job => some job
  | .joining | .finished | .failed _ | .aborted => none

def jobsOf (workers : List Worker) : List (Dialogue (List Task)) := workers.filterMap (·.stage.job?)

def Stage.isJoining : Stage → Bool
  | .joining => true
  | .visiting _ | .finished | .failed _ | .aborted => false

section

variable {before after : List Worker} {w w' : Worker}

theorem jobsOf_append (before after : List Worker) :
    jobsOf (before ++ after) = jobsOf before ++ jobsOf after := List.filterMap_append

theorem jobsOf_cons (w : Worker) (after : List Worker) :
    jobsOf (w :: after) = w.stage.job?.toList ++ jobsOf after := by
  rw [jobsOf, List.filterMap_cons]
  cases w.stage.job? <;> rfl

theorem jobsOf_visiting (before after : List Worker) (parent : Option Nat)
    (job : Dialogue (List Task)) : jobsOf (before ++ ⟨parent, .visiting job⟩ :: after) =
      jobsOf before ++ job :: jobsOf after := by
  rw [jobsOf_append, jobsOf_cons]
  rfl

/-- The workers that were spawned come last, not where the visit was that gave them. -/
theorem jobsOf_spawn (before after : List Worker) (parent : Option Nat) (s : Selection)
    (tasks : List Task) :
    (jobsOf (before ++ ⟨parent, .joining⟩ :: after ++
      tasks.map fun t => ⟨some before.length, .visiting (t.visit s)⟩)).Perm
      (jobsOf before ++ (tasks.map (·.visit s) ++ jobsOf after)) := by
  have hspawned : jobsOf (tasks.map fun t => ⟨some before.length, .visiting (t.visit s)⟩) =
      tasks.map (·.visit s) := by
    rw [jobsOf, List.filterMap_map]
    exact congrFun (List.filterMap_eq_map (f := fun t : Task => t.visit s)) tasks
  rw [jobsOf_append, hspawned, jobsOf_append, jobsOf_cons, List.append_assoc]
  exact (List.perm_append_left_iff _).mpr List.perm_append_comm

theorem jobsOf_quiet {w : Worker} (h : w.stage.job? = none) (before after : List Worker) :
    jobsOf (before ++ w :: after) = jobsOf before ++ jobsOf after := by
  rw [jobsOf_append, jobsOf_cons, h]
  rfl

theorem forall_jobsOf {P : Dialogue (List Task) → Prop} {before after workers : List Worker}
    {w : Worker} {news : List (Dialogue (List Task))}
    (h : ∀ job ∈ jobsOf (before ++ w :: after), P job) (hnews : ∀ new ∈ news, P new)
    (hjobs : (jobsOf workers).Perm (jobsOf before ++ (news ++ jobsOf after))) :
    ∀ job ∈ jobsOf workers, P job := by
  simp only [jobsOf_append, jobsOf_cons, List.forall_mem_append] at h
  intro job hjob
  rcases List.mem_append.mp (hjobs.mem_iff.mp hjob) with hjob | hjob
  · exact h.1 job hjob
  · rcases List.mem_append.mp hjob with hjob | hjob
    · exact hnews job hjob
    · exact h.2.2 job hjob

theorem forall_jobsOf_visiting {P : Dialogue (List Task) → Prop} {before after : List Worker}
    {w : Worker} {parent : Option Nat} {job : Dialogue (List Task)}
    (h : ∀ old ∈ jobsOf (before ++ w :: after), P old) (hjob : P job) :
    ∀ old ∈ jobsOf (before ++ ⟨parent, .visiting job⟩ :: after), P old :=
  forall_jobsOf h (List.forall_mem_singleton.mpr hjob)
    (.of_eq (jobsOf_visiting before after parent job))

theorem forall_jobsOf_quiet {P : Dialogue (List Task) → Prop} {before after : List Worker}
    {w w' : Worker} (h : ∀ job ∈ jobsOf (before ++ w :: after), P job) (hw : w'.stage.job? = none) :
    ∀ job ∈ jobsOf (before ++ w' :: after), P job :=
  forall_jobsOf h (List.forall_mem_nil P) (.of_eq (jobsOf_quiet hw before after))

theorem mem_of_mem_others {before after : List Worker} {w u : Worker} (h : u ∈ before ++ after) :
    u ∈ before ++ w :: after := by
  rw [List.mem_append, List.mem_cons]
  exact (List.mem_append.mp h).imp_right .inr

theorem mem_jobsOf {job : Dialogue (List Task)} {workers : List Worker} :
    job ∈ jobsOf workers ↔ ∃ before parent after,
      workers = before ++ ⟨parent, .visiting job⟩ :: after := by
  refine ⟨fun h => ?_, ?_⟩
  · obtain ⟨⟨parent, stage⟩, hw, hjob⟩ := List.mem_filterMap.mp h
    cases stage with
    | visiting other =>
      obtain rfl := Option.some.inj hjob
      obtain ⟨before, after, hsplit⟩ := List.append_of_mem hw
      exact ⟨before, parent, after, hsplit⟩
    | joining | finished | failed | aborted => cases hjob
  · rintro ⟨before, parent, after, rfl⟩
    simp [jobsOf_visiting]

theorem mem_jobsOf_visiting (before after : List Worker) (parent : Option Nat)
    (job : Dialogue (List Task)) : job ∈ jobsOf (before ++ ⟨parent, .visiting job⟩ :: after) :=
  mem_jobsOf.mpr ⟨before, parent, after, rfl⟩

theorem getElem?_replace (before after : List Worker) (w w' : Worker) (i : Nat) :
    (before ++ w' :: after)[i]? =
      if i = before.length then some w' else (before ++ w :: after)[i]? := by
  have hset : before ++ w' :: after = (before ++ w :: after).set before.length w' := by simp
  rw [hset, List.getElem?_set]
  split
  · next h => rw [if_pos h.symm, if_pos (by simp)]
  · next h => rw [if_neg (Ne.symm h)]

theorem countP_joining (before after : List Worker) (w : Worker) :
    (before ++ w :: after).countP (·.stage.isJoining) =
      before.countP (·.stage.isJoining) + after.countP (·.stage.isJoining) +
        w.stage.isJoining.toNat := by
  rw [List.countP_append, List.countP_cons]
  cases w.stage.isJoining with
  | false => simp
  | true =>
    simp only [if_true, Bool.toNat_true]
    omega

theorem forall_mem_replace {P : Worker → Prop} (h : ∀ u ∈ before ++ w :: after, P u) (hw : P w') :
    ∀ u ∈ before ++ w' :: after, P u := by
  rw [List.forall_mem_append, List.forall_mem_cons] at h ⊢
  exact ⟨h.1, hw, h.2.2⟩

theorem mem_of_getElem? {i : Nat} (h : (before ++ w' :: after)[i]? = some w)
    (hi : i ≠ before.length) : w ∈ before ++ after := by
  rcases Nat.lt_or_gt_of_ne hi with hlt | hgt
  · rw [List.getElem?_append_left hlt] at h
    exact List.mem_append_left after (List.mem_of_getElem? h)
  · obtain ⟨k, rfl⟩ := Nat.exists_eq_add_of_lt hgt
    rw [List.getElem?_append_right (by omega), Nat.add_assoc, Nat.add_sub_cancel_left,
      List.getElem?_cons_succ] at h
    exact List.mem_append_right before (List.mem_of_getElem? h)

end

namespace Crew

variable {answers : Answers} {fs : FileSystem} {s : Selection} {c next : Crew} {depth : Nat}

/-! ## The order of the workers -/

/-- Every worker but the first was spawned by an earlier one, and all that a finished worker spawned
have finished. -/
structure Orderly (c : Crew) : Prop where
  first : ∀ (i : Nat) (w : Worker), c.workers[i]? = some w → w.parent = none → i = 0
  parent_lt : ∀ (i : Nat) (w : Worker) (j : Nat), c.workers[i]? = some w → w.parent = some j → j < i
  joined : ∀ (i : Nat) (w : Worker) (j : Nat) (u : Worker), c.workers[i]? = some w →
    w.parent = some j → c.workers[j]? = some u → u.stage = .finished → w.stage = .finished

theorem orderly_start (s : Selection) (asked : List Query) (t : Task) :
    (start s asked t).Orderly := by
  have hone : ∀ (i : Nat) w, (start s asked t).workers[i]? = some w → i = 0 ∧ w.parent = none := by
    intro i w h
    cases i with
    | zero => exact ⟨rfl, by cases h; rfl⟩
    | succ i => cases h
  exact {
    first := fun i w h _ => (hone i w h).1
    parent_lt := fun i w j h hj => by simp [(hone i w h).2] at hj
    joined := fun i w j u h hj => by simp [(hone i w h).2] at hj }

/-- One worker that has not come to its last stage goes on to another stage. If it finishes, all that
it spawned have finished. -/
theorem Orderly.replace {before after : List Worker} {parent : Option Nat} {stage stage' : Stage}
    {found found' : List Path} {asked asked' : List Query}
    (h : (Crew.mk (before ++ ⟨parent, stage⟩ :: after) found asked).Orderly)
    (hstage : stage ≠ .finished)
    (hfinish : stage' = .finished →
      ∀ w ∈ before ++ after, w.parent = some before.length → w.stage = .finished) :
    (Crew.mk (before ++ ⟨parent, stage'⟩ :: after) found' asked').Orderly := by
  -- Whoever is looked up now was there before, with the same parent.
  have hold : ∀ (i : Nat) w, (before ++ ⟨parent, stage'⟩ :: after)[i]? = some w →
      ∃ old, (before ++ ⟨parent, stage⟩ :: after)[i]? = some old ∧ old.parent = w.parent ∧
        (i ≠ before.length → old = w) := by
    intro i w hw
    rw [getElem?_replace before after ⟨parent, stage⟩] at hw
    split at hw
    · next hi =>
      cases hw
      exact ⟨⟨parent, stage⟩, by simp [hi], rfl, fun hne => (hne hi).elim⟩
    · exact ⟨w, hw, rfl, fun _ => rfl⟩
  refine ⟨fun i w hw hp => ?_, fun i w j hw hp => ?_, fun i w j u hw hp hu hfin => ?_⟩
  · obtain ⟨old, hold, hparent, -⟩ := hold i w hw
    exact h.first i old hold (hparent.trans hp)
  · obtain ⟨old, hold, hparent, -⟩ := hold i w hw
    exact h.parent_lt i old j hold (hparent.trans hp)
  · obtain ⟨oldw, holdw, hparent, hsamew⟩ := hold i w hw
    obtain ⟨oldu, holdu, -, hsameu⟩ := hold j u hu
    have hlt := h.parent_lt i oldw j holdw (hparent.trans hp)
    by_cases hj : j = before.length
    · -- The parent is the one that went on, to its end.
      subst hj
      obtain rfl : u = ⟨parent, stage'⟩ := by simpa using hu.symm
      refine hfinish hfin w ?_ hp
      exact mem_of_getElem? hw (by omega)
    · have hfin' : oldu.stage = .finished := hsameu hj ▸ hfin
      have hdone := h.joined i oldw j oldu holdw (hparent.trans hp) holdu hfin'
      by_cases hi : i = before.length
      · subst hi
        obtain rfl : oldw = ⟨parent, stage⟩ := by simpa using holdw.symm
        exact (hstage hdone).elim
      · exact hsamew hi ▸ hdone

/-- A worker that has not finished spawns others. -/
theorem Orderly.spawn {workers news : List Worker} {found : List Path} {asked : List Query} {k : Nat}
    {w : Worker} (h : (Crew.mk workers found asked).Orderly) (hk : workers[k]? = some w)
    (hstage : w.stage ≠ .finished) (hnews : ∀ new ∈ news, new.parent = some k) :
    (Crew.mk (workers ++ news) found asked).Orderly := by
  have hlt : k < workers.length := (List.getElem?_eq_some_iff.mp hk).1
  -- Whoever is looked up was there before, or is one of those that were spawned.
  have hcases : ∀ (i : Nat) u, (workers ++ news)[i]? = some u →
      workers[i]? = some u ∨ workers.length ≤ i ∧ u.parent = some k := by
    intro i u hu
    rcases Nat.lt_or_ge i workers.length with hi | hi
    · rw [List.getElem?_append_left hi] at hu
      exact .inl hu
    · rw [List.getElem?_append_right hi] at hu
      exact .inr ⟨hi, hnews u (List.mem_of_getElem? hu)⟩
  refine ⟨fun i u hu hp => ?_, fun i u j hu hp => ?_, fun i u j v hu hp hv hfin => ?_⟩
  · rcases hcases i u hu with hu | ⟨-, hpar⟩
    · exact h.first i u hu hp
    · rw [hpar] at hp
      cases hp
  · rcases hcases i u hu with hu | ⟨hi, hpar⟩
    · exact h.parent_lt i u j hu hp
    · rw [hpar] at hp
      cases hp
      omega
  · have hj : j < workers.length := by
      rcases hcases i u hu with hu | ⟨-, hpar⟩
      · have := h.parent_lt i u j hu hp
        have := (List.getElem?_eq_some_iff.mp hu).1
        omega
      · rw [hpar] at hp
        cases hp
        exact hlt
    change (workers ++ news)[j]? = some v at hv
    rw [List.getElem?_append_left hj] at hv
    rcases hcases i u hu with hu | ⟨-, hpar⟩
    · exact h.joined i u j v hu hp hv hfin
    · rw [hpar] at hp
      cases hp
      obtain rfl := Option.some.inj (hk.symm.trans hv)
      exact (hstage hfin).elim

theorem Orderly.step (h : c.Orderly) (hs : Step answers s c next) : next.Orderly := by
  cases hs with
  | report => exact h.replace (by simp) (by simp)
  | ask => exact h.replace (by simp) (by simp)
  | @spawn before after parent tasks found asked =>
    have hjoining : (Crew.mk (before ++ ⟨parent, .joining⟩ :: after) found asked).Orderly :=
      h.replace (by simp) (by simp)
    refine hjoining.spawn (k := before.length) (w := ⟨parent, .joining⟩) (by simp) (by simp) ?_
    intro new hnew
    obtain ⟨t, -, rfl⟩ := List.mem_map.mp hnew
    rfl
  | breakOff => exact h.replace (by simp) (by simp)
  | finish hall => exact h.replace (by simp) fun _ => hall
  | fail => exact h.replace (by simp) (by simp)
  | abort hlast =>
    refine h.replace ?_ (by simp)
    rintro rfl
    cases hlast

theorem Orderly.after {first : Crew} (h : first.Orderly) {steps : Nat}
    (hafter : first.After answers s steps c) : c.Orderly := by
  induction hafter with
  | start => exact h
  | step _ hs ih => exact ih.step hs

/-- When the first worker has finished, all have: a worker is joined before the one that spawned it
finishes. -/
theorem Orderly.all_finished (h : c.Orderly) {w : Worker} (hw : c.workers.head? = some w)
    (hfin : w.stage = .finished) : ∀ u ∈ c.workers, u.stage = .finished := by
  have hall : ∀ (i : Nat) (u : Worker), c.workers[i]? = some u → u.stage = .finished := by
    intro i
    induction i using Nat.strong_induction_on with
    | _ i ih =>
      intro u hu
      cases hp : u.parent with
      | none =>
        obtain rfl := h.first i u hu hp
        rw [← List.head?_eq_getElem?, hw] at hu
        exact Option.some.inj hu ▸ hfin
      | some j =>
        have hlt := h.parent_lt i u j hu hp
        have hj : j < c.workers.length := by
          have := (List.getElem?_eq_some_iff.mp hu).1
          omega
        have hparent := List.getElem?_eq_getElem hj
        exact h.joined i u j _ hu hp hparent (ih j hlt _ hparent)
  intro u hu
  obtain ⟨i, hi⟩ := List.getElem?_of_mem hu
  exact hall i u hi

/-! ## Aborted workers -/

/-- Whoever has been aborted was so by the one that spawned it, which has given up. -/
def Abandons (c : Crew) : Prop :=
  ∀ w ∈ c.workers, w.stage = .aborted →
    ∃ j u, w.parent = some j ∧ c.workers[j]? = some u ∧ u.stage.gaveUp = true

theorem abandons_start (s : Selection) (asked : List Query) (t : Task) :
    (start s asked t).Abandons := by
  intro w hw haborted
  rw [List.mem_singleton.mp hw] at haborted
  cases haborted

/-- One worker that has not come to its last stage goes on to another stage. If that is the end of it,
then the one that spawned it has given up. -/
theorem Abandons.replace {before after : List Worker} {parent : Option Nat} {stage stage' : Stage}
    {found found' : List Path} {asked asked' : List Query}
    (h : (Crew.mk (before ++ ⟨parent, stage⟩ :: after) found asked).Abandons)
    (hlast : stage.isLast = false)
    (haborts : stage' = .aborted → ∃ j u, parent = some j ∧
      (before ++ ⟨parent, stage⟩ :: after)[j]? = some u ∧ u.stage.gaveUp = true) :
    (Crew.mk (before ++ ⟨parent, stage'⟩ :: after) found' asked').Abandons := by
  -- Whoever has given up stays where it is.
  have hold : ∀ (j : Nat) (u : Worker), (before ++ ⟨parent, stage⟩ :: after)[j]? = some u →
      u.stage.gaveUp = true → (before ++ ⟨parent, stage'⟩ :: after)[j]? = some u := by
    intro j u hu hgave
    rw [getElem?_replace before after ⟨parent, stage⟩, if_neg, hu]
    intro hj
    obtain rfl : u = ⟨parent, stage⟩ := by simpa [hj] using hu.symm
    revert hlast hgave
    cases stage <;> simp [Stage.isLast, Stage.gaveUp]
  intro w hw haborted
  obtain ⟨j, u, hparent, hu, hgave⟩ : ∃ j u, w.parent = some j ∧
      (before ++ ⟨parent, stage⟩ :: after)[j]? = some u ∧ u.stage.gaveUp = true := by
    rcases List.mem_append.mp hw with hw | hw
    · exact h w (List.mem_append_left _ hw) haborted
    · cases List.mem_cons.mp hw with
      | inl hw =>
        subst hw
        exact haborts haborted
      | inr hw => exact h w (List.mem_append_right _ (List.mem_cons_of_mem _ hw)) haborted
  exact ⟨j, u, hparent, hold j u hu hgave, hgave⟩

theorem Abandons.step (h : c.Abandons) (hs : Step answers s c next) : next.Abandons := by
  cases hs with
  | report | ask | breakOff | finish | fail => exact h.replace rfl fun haborted => Stage.noConfusion haborted
  | @spawn before after parent tasks found asked =>
    have hjoining : (Crew.mk (before ++ ⟨parent, .joining⟩ :: after) found asked).Abandons :=
      h.replace rfl fun haborted => Stage.noConfusion haborted
    intro w hw haborted
    rcases List.mem_append.mp hw with hw | hw
    · obtain ⟨j, u, hparent, hu, hgave⟩ := hjoining w hw haborted
      have hj := (List.getElem?_eq_some_iff.mp hu).1
      exact ⟨j, u, hparent, (List.getElem?_append_left hj).trans hu, hgave⟩
    · obtain ⟨t, -, rfl⟩ := List.mem_map.mp hw
      cases haborted
  | abort hlast hu hgave => exact h.replace hlast fun _ => ⟨_, _, rfl, hu, hgave⟩

theorem Abandons.after {first : Crew} (h : first.Abandons) {steps : Nat}
    (hafter : first.After answers s steps c) : c.Abandons := by
  induction hafter with
  | start => exact h
  | step _ hs ih => exact ih.step hs

/-! ## Progress -/

theorem exists_step_of_visiting {before after : List Worker} {parent : Option Nat}
    {job : Dialogue (List Task)}
    (h : c.workers = before ++ ⟨parent, .visiting job⟩ :: after) : ∃ next, Step answers s c next := by
  obtain ⟨workers, found, asked⟩ := c
  obtain rfl : workers = _ := h
  cases job with
  | done tasks => exact ⟨_, .spawn⟩
  | stop why => exact ⟨_, .breakOff⟩
  | report p rest => exact ⟨_, .report⟩
  | ask q next => exact ⟨_, .ask⟩

theorem exists_last {α : Type} {p : α → Bool} {l : List α} {a : α} (ha : a ∈ l) (h : p a = true) :
    ∃ before last after, l = before ++ last :: after ∧ p last = true ∧ ∀ x ∈ after, p x = false := by
  induction l using List.reverseRecOn with
  | nil => cases ha
  | append_singleton l x ih =>
    cases hx : p x with
    | true => exact ⟨l, x, [], rfl, hx, by simp⟩
    | false =>
      have hal : a ∈ l := by
        rcases List.mem_append.mp ha with ha | ha
        · exact ha
        · rw [List.mem_singleton.mp ha, hx] at h
          cases h
      obtain ⟨before, last, after, rfl, hlast, hafter⟩ := ih hal
      refine ⟨before, last, after ++ [x], by simp, hlast, ?_⟩
      intro y hy
      rcases List.mem_append.mp hy with hy | hy
      · exact hafter y hy
      · rw [List.mem_singleton.mp hy, hx]

/-- As long as a worker has not come to its last stage, some worker can take a step: one that visits, or
the last one that joins others, since those have finished or failed. -/
theorem exists_step (ho : c.Orderly) (ha : c.Abandons) {w : Worker} (hw : w ∈ c.workers)
    (hlast : w.stage.isLast = false) : ∃ next, Step answers s c next := by
  by_cases hvisit : jobsOf c.workers = []
  · have hidle : ∀ u ∈ c.workers, ∀ job, u.stage ≠ .visiting job := by
      intro u hu job hjob
      have hnone := List.filterMap_eq_nil_iff.mp hvisit u hu
      rw [hjob] at hnone
      cases hnone
    have hjoining : w.stage.isJoining = true := by
      cases hstage : w.stage with
      | joining => rfl
      | visiting job => exact absurd hstage (hidle w hw job)
      | finished | failed | aborted =>
        rw [hstage] at hlast
        cases hlast
    obtain ⟨before, ⟨parent, stage⟩, after, hsplit, hjoins, hafter⟩ :=
      exists_last (p := fun u : Worker => u.stage.isJoining) hw hjoining
    obtain ⟨workers, found, asked⟩ := c
    obtain rfl : workers = _ := hsplit
    obtain rfl : stage = .joining := by
      revert hjoins
      cases stage <;> simp [Stage.isJoining]
    by_cases hall : ∀ u ∈ before ++ after, u.parent = some before.length → u.stage = .finished
    · exact ⟨_, .finish hall⟩
    · push Not at hall
      obtain ⟨⟨above, stage⟩, hu, hparent, hstage⟩ := hall
      obtain rfl : above = some before.length := hparent
      have hmem : (⟨some before.length, stage⟩ : Worker) ∈ before ++ ⟨parent, .joining⟩ :: after :=
        mem_of_mem_others hu
      cases stage with
      | finished => exact absurd rfl hstage
      | visiting job => exact absurd rfl (hidle _ hmem job)
      | failed why => exact ⟨_, .fail hu⟩
      | joining =>
        -- It is not among those that come later, and those before were not spawned by this one.
        rcases List.mem_append.mp hu with hu | hu
        · obtain ⟨i, hi, hget⟩ := List.getElem_of_mem hu
          have hlt := ho.parent_lt i ⟨some before.length, .joining⟩ before.length (by
            rw [List.getElem?_append_left hi, List.getElem?_eq_getElem hi, hget]) rfl
          omega
        · cases hafter _ hu
      | aborted =>
        obtain ⟨j, u, hj, hget, hgave⟩ := ha _ hmem rfl
        obtain rfl := Option.some.inj hj
        obtain rfl : u = ⟨parent, .joining⟩ := by simpa using hget.symm
        cases hgave
  · obtain ⟨job, hjob⟩ := List.exists_mem_of_ne_nil _ hvisit
    obtain ⟨before, parent, after, hsplit⟩ := mem_jobsOf.mp hjob
    exact exists_step_of_visiting hsplit

/-! ## How many steps are left -/

/-- How many steps the crew can still take: a visit costs a step for each of its own and one to finish,
and a worker that joins others one to finish. -/
def weight (s : Selection) (fs : FileSystem) (depth : Nat) (c : Crew) : Nat :=
  2 * ((jobsOf c.workers).map (s.cost fs (depth + 1))).sum + c.workers.countP (·.stage.isJoining)

/-- Where the visit of a worker goes on in other visits, they lead no deeper and cost a step less. -/
theorem ends_turn {before after workers : List Worker} {parent : Option Nat}
    {job : Dialogue (List Task)} {news : List (Dialogue (List Task))} {more : List Path}
    {questions : List Query}
    (h : ∀ old ∈ jobsOf (before ++ ⟨parent, .visiting job⟩ :: after), s.Ends fs (depth + 1) old)
    (ht : Pool.Turn fs s job news more questions)
    (hjobs : (jobsOf workers).Perm (jobsOf before ++ (news ++ jobsOf after))) :
    (∀ job ∈ jobsOf workers, s.Ends fs (depth + 1) job) ∧
      ((jobsOf workers).map (s.cost fs (depth + 1))).sum + 1 =
        ((jobsOf (before ++ ⟨parent, .visiting job⟩ :: after)).map (s.cost fs (depth + 1))).sum := by
  have hold := jobsOf_visiting before after parent job
  obtain ⟨hends, hcost⟩ := ht.cost (h job (mem_jobsOf_visiting before after parent job))
  refine ⟨forall_jobsOf h hends hjobs, ?_⟩
  rw [(hjobs.map _).sum_eq, hold]
  simp only [List.map_append, List.map_cons, List.sum_append, List.sum_cons]
  omega

theorem weight_retire {before after : List Worker} {w w' : Worker} {found found' : List Path}
    {asked asked' : List Query} (h : w.stage.isLast = false) (h' : w'.stage.isLast = true) :
    weight s fs depth ⟨before ++ w' :: after, found', asked'⟩ <
      weight s fs depth ⟨before ++ w :: after, found, asked⟩ := by
  have hjob : w'.stage.job? = none := by
    revert h'
    cases w'.stage <;> simp [Stage.isLast, Stage.job?]
  have hjoining : w'.stage.isJoining = false := by
    revert h'
    cases w'.stage <;> simp [Stage.isLast, Stage.isJoining]
  simp only [weight, jobsOf_quiet hjob, countP_joining, hjoining, jobsOf_append, jobsOf_cons,
    List.map_append, List.sum_append, Bool.toNat_false]
  cases hstage : w.stage with
  | visiting job =>
    have hpos := s.cost_pos fs depth job
    simp only [Stage.job?, Stage.isJoining, Option.toList_some, List.map_singleton,
      List.sum_singleton, Bool.toNat_false]
    omega
  | joining =>
    simp only [Stage.job?, Stage.isJoining, Option.toList_none, List.map_nil, List.sum_nil,
      Bool.toNat_true]
    omega
  | finished | failed | aborted =>
    rw [hstage] at h
    cases h

theorem weight_goesOn {before after : List Worker} {parent : Option Nat}
    {job rest : Dialogue (List Task)} {found found' more : List Path}
    {asked asked' questions : List Query}
    (h : ∀ old ∈ jobsOf (before ++ ⟨parent, .visiting job⟩ :: after), s.Ends fs (depth + 1) old)
    (ht : Pool.Turn fs s job [rest] more questions) :
    (∀ job ∈ jobsOf (before ++ ⟨parent, .visiting rest⟩ :: after), s.Ends fs (depth + 1) job) ∧
      weight s fs depth ⟨before ++ ⟨parent, .visiting rest⟩ :: after, found', asked'⟩ <
        weight s fs depth ⟨before ++ ⟨parent, .visiting job⟩ :: after, found, asked⟩ := by
  obtain ⟨hends, hcost⟩ := ends_turn h ht (.of_eq (jobsOf_visiting before after parent rest))
  refine ⟨hends, ?_⟩
  simp only [weight, countP_joining]
  show 2 * _ + (_ + 0) < 2 * _ + (_ + 0)
  omega

/-- A step leads no deeper, and fewer are left after it. -/
theorem weight_step (h : ∀ job ∈ jobsOf c.workers, s.Ends fs (depth + 1) job)
    (hs : Step (fun _ => fs) s c next) :
    (∀ job ∈ jobsOf next.workers, s.Ends fs (depth + 1) job) ∧
      next.weight s fs depth < c.weight s fs depth := by
  cases hs with
  | report => exact weight_goesOn h (.report _ _)
  | ask => exact weight_goesOn h (.ask _ _)
  | @spawn before after parent tasks =>
    obtain ⟨hends, hcost⟩ := ends_turn h (.done tasks) (jobsOf_spawn before after parent s tasks)
    refine ⟨hends, ?_⟩
    have hnone : (tasks.map fun t => (⟨some before.length, .visiting (t.visit s)⟩ : Worker)).countP
        (·.stage.isJoining) = 0 := by
      rw [List.countP_eq_zero]
      simp [Stage.isJoining]
    simp only [weight, countP_joining]
    rw [List.countP_append, hnone, countP_joining]
    show 2 * _ + (_ + 1 + 0) < 2 * _ + (_ + 0)
    omega
  | breakOff | finish | fail => exact ⟨forall_jobsOf_quiet h rfl, weight_retire rfl rfl⟩
  | abort hlast => exact ⟨forall_jobsOf_quiet h rfl, weight_retire hlast rfl⟩

theorem weight_after {first : Crew} (h : ∀ job ∈ jobsOf first.workers, s.Ends fs (depth + 1) job)
    {steps : Nat} (hafter : first.After (fun _ => fs) s steps c) :
    (∀ job ∈ jobsOf c.workers, s.Ends fs (depth + 1) job) ∧
      steps + c.weight s fs depth ≤ first.weight s fs depth := by
  induction hafter with
  | start => exact ⟨h, by omega⟩
  | step _ hs ih =>
    obtain ⟨hends, hweight⟩ := weight_step ih.1 hs
    exact ⟨hends, by have := ih.2; omega⟩

theorem weight_start (s : Selection) (fs : FileSystem) (depth : Nat) (asked : List Query) (t : Task) :
    (start s asked t).weight s fs depth = 2 * s.cost fs (depth + 1) (t.visit s) := by
  show 2 * (s.cost fs (depth + 1) (t.visit s) + 0) + 0 = _
  rfl

/-! ## What is due -/

/-- No worker has given up, every visit that is going on comes to an end with all that it leads to, and
what was done, with what is due, is `found` and `asked` in some order. -/
structure Due (s : Selection) (fs : FileSystem) (depth : Nat) (found : List Path)
    (asked : List Query) (c : Crew) : Prop where
  healthy : ∀ w ∈ c.workers, w.stage.gaveUp = false
  ends : ∀ job ∈ jobsOf c.workers, s.Ends fs (depth + 1) job
  concludes : ∀ job ∈ jobsOf c.workers, s.Concludes fs depth job
  found_perm : (c.found ++ (jobsOf c.workers).flatMap fun job =>
    ((s.finish depth job).run fs).found).Perm found
  asked_perm : (c.asked ++ (jobsOf c.workers).flatMap fun job =>
    ((s.finish depth job).run fs).asked).Perm asked

variable {found : List Path} {asked : List Query}

theorem due_start {t : Task} (hends : s.Ends fs (depth + 1) (t.visit s))
    (hconcludes : s.Concludes fs depth (t.visit s)) (before : List Query) :
    (start s before t).Due s fs depth ((s.finish depth (t.visit s)).run fs).found
      (before ++ ((s.finish depth (t.visit s)).run fs).asked) := by
  have hjobs : jobsOf (start s before t).workers = [t.visit s] := rfl
  refine ⟨?_, ?_, ?_, ?_, ?_⟩
  · intro w hw
    rw [List.mem_singleton.mp hw]
    rfl
  · rwa [hjobs, List.forall_mem_singleton]
  · rwa [hjobs, List.forall_mem_singleton]
  · rw [hjobs, List.flatMap_singleton]
    exact .refl _
  · rw [hjobs, List.flatMap_singleton]
    exact .refl _

/-- Where the visit of a worker goes on in other visits, what is due stays the same. -/
theorem Due.turn {before after workers : List Worker} {parent : Option Nat}
    {job : Dialogue (List Task)} {news : List (Dialogue (List Task))} {found' more : List Path}
    {asked' questions : List Query}
    (h : Due s fs depth found asked ⟨before ++ ⟨parent, .visiting job⟩ :: after, found', asked'⟩)
    (ht : Pool.Turn fs s job news more questions)
    (hjobs : (jobsOf workers).Perm (jobsOf before ++ (news ++ jobsOf after)))
    (hhealthy : ∀ w ∈ workers, w.stage.gaveUp = false) :
    Due s fs depth found asked ⟨workers, found' ++ more, asked' ++ questions⟩ := by
  have hold := jobsOf_visiting before after parent job
  have hjob := mem_jobsOf_visiting before after parent job
  obtain ⟨hiff, hdue⟩ := ht.due (h.ends job hjob)
  obtain ⟨hfound, hasked⟩ := hdue (h.concludes job hjob)
  have hconcludes := hiff.mpr (h.concludes job hjob)
  refine ⟨hhealthy, (ends_turn h.ends ht hjobs).1, forall_jobsOf h.concludes hconcludes hjobs, ?_, ?_⟩
  · exact .trans (perm_flatMap_replace hjobs hfound) (hold ▸ h.found_perm)
  · exact .trans (perm_flatMap_replace hjobs hasked) (hold ▸ h.asked_perm)

theorem Due.goesOn {before after : List Worker} {parent : Option Nat} {job rest : Dialogue (List Task)}
    {found' more : List Path} {asked' questions : List Query}
    (h : Due s fs depth found asked ⟨before ++ ⟨parent, .visiting job⟩ :: after, found', asked'⟩)
    (ht : Pool.Turn fs s job [rest] more questions) :
    Due s fs depth found asked
      ⟨before ++ ⟨parent, .visiting rest⟩ :: after, found' ++ more, asked' ++ questions⟩ :=
  h.turn ht (.of_eq (jobsOf_visiting before after parent rest)) (forall_mem_replace h.healthy rfl)

/-- A step does something that was due. -/
theorem Due.step (h : c.Due s fs depth found asked) (hs : Step (fun _ => fs) s c next) :
    next.Due s fs depth found asked := by
  cases hs with
  | report =>
    have hgoes := h.goesOn (.report _ _)
    rwa [List.append_nil] at hgoes
  | ask =>
    have hgoes := h.goesOn (.ask _ _)
    rwa [List.append_nil] at hgoes
  | @spawn before after parent tasks found' asked' =>
    have hhealthy : ∀ w ∈ before ++ ⟨parent, .joining⟩ :: after ++
        tasks.map (fun t => (⟨some before.length, .visiting (t.visit s)⟩ : Worker)),
        w.stage.gaveUp = false := by
      rw [List.forall_mem_append, List.forall_mem_map]
      exact ⟨forall_mem_replace h.healthy rfl, fun t _ => rfl⟩
    have hdue := h.turn (.done tasks) (jobsOf_spawn before after parent s tasks) hhealthy
    rwa [List.append_nil, List.append_nil] at hdue
  | breakOff => cases h.concludes _ (mem_jobsOf_visiting _ _ _ _)
  | @finish before after parent found' asked' hall =>
    have hjobs : jobsOf (before ++ ⟨parent, .finished⟩ :: after) =
        jobsOf (before ++ ⟨parent, .joining⟩ :: after) := by
      rw [jobsOf_quiet rfl, jobsOf_quiet rfl]
    exact ⟨forall_mem_replace h.healthy rfl, hjobs ▸ h.ends, hjobs ▸ h.concludes, hjobs ▸ h.found_perm,
      hjobs ▸ h.asked_perm⟩
  | @fail before after parent why found' asked' hfailed =>
    have hhealthy := h.healthy ⟨some before.length, .failed why⟩ (mem_of_mem_others hfailed)
    cases hhealthy
  | abort _ hw hgave =>
    rw [h.healthy _ (List.mem_of_getElem? hw)] at hgave
    cases hgave

theorem Due.after {first : Crew} (h : first.Due s fs depth found asked) {steps : Nat}
    (hafter : first.After (fun _ => fs) s steps c) : c.Due s fs depth found asked := by
  induction hafter with
  | start => exact h
  | step _ hs ih => exact ih.step hs

theorem Due.done (h : c.Due s fs depth found asked) (hall : ∀ w ∈ c.workers, w.stage = .finished) :
    c.found.Perm found ∧ c.asked.Perm asked := by
  have hjobs : jobsOf c.workers = [] := by
    refine List.filterMap_eq_nil_iff.mpr fun w hw => ?_
    rw [hall w hw]
    rfl
  have hfound := h.found_perm
  have hasked := h.asked_perm
  rw [hjobs, List.flatMap_nil, List.append_nil] at hfound hasked
  exact ⟨hfound, hasked⟩

theorem Due.progress (h : c.Due s fs depth found asked) (ho : c.Orderly) {w : Worker}
    (hw : w ∈ c.workers) (hstage : w.stage ≠ .finished) : ∃ next, Step answers s c next := by
  have hhealthy := h.healthy w hw
  refine exists_step ho (fun u hu haborted => ?_) hw ?_
  · have hgave := h.healthy u hu
    rw [haborted] at hgave
    cases hgave
  · revert hhealthy hstage
    cases w.stage <;> simp [Stage.isLast, Stage.gaveUp]

/-! ## Pools -/

/-- What a job of a pool does in its turn, the worker that has the job can do in a step. -/
theorem exists_step_of_turn {before after : List Worker} {parent : Option Nat}
    {job : Dialogue (List Task)} {news : List (Dialogue (List Task))} {more : List Path}
    {questions : List Query} (ht : Pool.Turn fs s job news more questions)
    (h : c.workers = before ++ ⟨parent, .visiting job⟩ :: after) :
    ∃ next, Step (fun _ => fs) s c next ∧ next.found = c.found ++ more ∧
      next.asked = c.asked ++ questions ∧
      (jobsOf next.workers).Perm (jobsOf before ++ (news ++ jobsOf after)) := by
  obtain ⟨workers, found, asked⟩ := c
  obtain rfl : workers = _ := h
  cases ht with
  | done tasks =>
    exact ⟨_, .spawn, (List.append_nil _).symm, (List.append_nil _).symm,
      jobsOf_spawn before after parent s tasks⟩
  | report path rest =>
    exact ⟨_, .report, rfl, (List.append_nil _).symm, .of_eq (jobsOf_visiting before after parent rest)⟩
  | ask q rest =>
    exact ⟨_, .ask, (List.append_nil _).symm, rfl,
      .of_eq (jobsOf_visiting before after parent (rest (fs q)))⟩

/-- The crew has done what the pool has, and is left with the same visits; and if the pool broke off,
then a worker has failed for the same reason. -/
structure Mirrors (before : List Query) (c : Crew) (p : Pool) : Prop where
  found_eq : c.found = p.found
  asked_eq : c.asked = before ++ p.asked
  jobs_perm : p.failure = none → (jobsOf c.workers).Perm p.jobs
  failed : ∀ why, p.failure = some why → ∃ w ∈ c.workers, w.stage = .failed why

theorem Mirrors.step {before : List Query} {p : Pool} (fs : FileSystem) (s : Selection)
    (h : c.Mirrors before p) (hover : p.isOver = false) (i : Nat) :
    ∃ next, Step (fun _ => fs) s c next ∧ next.Mirrors before (p.step fs s i) := by
  have hnone : p.failure = none := by
    cases hf : p.failure with
    | none => rfl
    | some why => simp [Pool.isOver, hf] at hover
  have hperm := h.jobs_perm hnone
  obtain ⟨front, job, back, hjobs, hstep⟩ := Pool.step_cases fs s hover i
  rw [hjobs] at hperm
  have hmem : job ∈ jobsOf c.workers := hperm.mem_iff.mpr (by simp)
  obtain ⟨ahead, parent, behind, hsplit⟩ := mem_jobsOf.mp hmem
  -- The other visits are the same in both.
  have hothers : (jobsOf ahead ++ jobsOf behind).Perm (front ++ back) := by
    rw [hsplit, jobsOf_visiting] at hperm
    exact (List.perm_middle.symm.trans (hperm.trans List.perm_middle)).cons_inv
  rcases hstep with ⟨news, more, questions, ht, hs⟩ | ⟨why, rfl, hs⟩
  · obtain ⟨next, hnext, hfound, hasked, hnews⟩ := exists_step_of_turn ht hsplit
    refine ⟨next, hnext, ?_⟩
    rw [hs]
    refine ⟨by rw [hfound, h.found_eq], by rw [hasked, h.asked_eq, List.append_assoc], fun _ => ?_,
      fun why hw => by simp [hnone] at hw⟩
    refine hnews.trans ((List.perm_append_comm_assoc _ _ _).trans ?_)
    exact ((hothers.append_left news)).trans (List.perm_append_comm_assoc _ _ _)
  · obtain ⟨workers, found, asked⟩ := c
    obtain rfl : workers = _ := hsplit
    refine ⟨_, .breakOff, ?_⟩
    rw [hs]
    refine ⟨h.found_eq, h.asked_eq, fun hno => by simp at hno, fun other hw => ?_⟩
    cases hw
    exact ⟨⟨parent, .failed why⟩, by simp, rfl⟩

/-- What a pool does, a crew does. -/
theorem exists_crew (fs : FileSystem) (s : Selection) (before : List Query) (t : Task)
    (pick : Nat → Nat) (count : Nat) :
    ∃ steps c, (start s before t).After (fun _ => fs) s steps c ∧
      c.Mirrors before ((Pool.start (t.visit s)).run fs s pick count) := by
  have hrun : ∀ (p : Pool) (steps : Nat) (c : Crew), (start s before t).After (fun _ => fs) s steps c →
      c.Mirrors before p → ∃ steps c, (start s before t).After (fun _ => fs) s steps c ∧
        c.Mirrors before (p.run fs s pick count) := by
    induction count with
    | zero => exact fun p steps c hafter h => ⟨steps, c, hafter, h⟩
    | succ count ih =>
      intro p steps c hafter h
      rw [Pool.run]
      split
      · exact ⟨steps, c, hafter, h⟩
      · next hover =>
        obtain ⟨next, hnext, hmirrors⟩ := h.step fs s (by simpa using hover) (pick count)
        exact ih _ _ _ (hafter.step hnext) hmirrors
  refine hrun _ 0 _ .start ⟨rfl, by simp [start, Pool.start], fun _ => .refl _, fun why hw => ?_⟩
  cases hw

end Crew

end TreeGlob
