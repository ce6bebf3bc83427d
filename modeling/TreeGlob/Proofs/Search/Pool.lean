import TreeGlob.Search.Pool

/-!
What a pool can do, whichever of its jobs takes the turn.

* `Pool.Turn` is what one job does in its turn, unless it breaks off.
* `step_cases` says that a step is a turn of one job, or that one job breaks the whole pool off.
* `run_congr` says that a pool does the same where the answers to all that is asked are the same.
* `Pool.Kept` is what every turn keeps, and `Kept.run` says that a whole run keeps it then.
-/
namespace TreeGlob

namespace Pool

variable {fs : FileSystem} {s : Selection} {p : Pool}

/-- What a job does in its turn, unless it breaks off: other jobs take its place, and it has reported
and asked something, or nothing. -/
inductive Turn (fs : FileSystem) (s : Selection) : Dialogue (List Task) →
    List (Dialogue (List Task)) → List Path → List Query → Prop where
  | done (tasks : List Task) : Turn fs s (.done tasks) (tasks.map (·.visit s)) [] []
  | report (path : Path) (rest : Dialogue (List Task)) : Turn fs s (.report path rest) [rest] [path] []
  | ask (q : Query) (next : q.Reply → Dialogue (List Task)) :
      Turn fs s (.ask q next) [next (fs q)] [] [q]

/-- All that one step of a pool can do. -/
theorem step_cases (fs : FileSystem) (s : Selection) (h : p.isOver = false) (i : Nat) :
    ∃ before job after, p.jobs = before ++ job :: after ∧
      ((∃ news found asked, Turn fs s job news found asked ∧ p.step fs s i =
          ⟨before ++ (news ++ after), p.found ++ found, p.asked ++ asked, p.failure⟩) ∨
        ∃ why, job = .stop why ∧ p.step fs s i = { p with jobs := [], failure := some why }) := by
  have hne : p.jobs ≠ [] := fun he => by simp [isOver, he] at h
  have hi : i % p.jobs.length < p.jobs.length := Nat.mod_lt i (List.length_pos_iff.mpr hne)
  have hsplit : p.jobs = p.jobs.take (i % p.jobs.length) ++
      p.jobs[i % p.jobs.length] :: p.jobs.drop (i % p.jobs.length + 1) := by simp
  refine ⟨_, _, _, hsplit, ?_⟩
  rw [step, if_neg (by simp [h]), stepAt, List.getElem?_eq_getElem hi]
  cases p.jobs[i % p.jobs.length] with
  | done tasks => exact .inl ⟨_, _, _, .done tasks, by simp⟩
  | stop why => exact .inr ⟨why, rfl, rfl⟩
  | report path rest =>
    exact .inl ⟨_, _, _, .report path rest, by simp [List.set_eq_take_append_cons_drop, hi]⟩
  | ask q next =>
    exact .inl ⟨_, _, _, .ask q next, by simp [List.set_eq_take_append_cons_drop, hi]⟩

theorem asked_run (fs : FileSystem) (s : Selection) (p : Pool) (pick : Nat → Nat) (count : Nat) :
    p.asked ⊆ (p.run fs s pick count).asked := by
  induction count generalizing p with
  | zero => exact List.Subset.refl _
  | succ count ih =>
    cases hover : p.isOver with
    | true =>
      rw [run_of_isOver hover]
      exact List.Subset.refl _
    | false =>
      rw [run, hover]
      refine List.Subset.trans ?_ (ih (p.step fs s (pick count)))
      obtain ⟨before, job, after, -, hstep⟩ := step_cases fs s hover (pick count)
      rcases hstep with ⟨news, found, asked, -, hs⟩ | ⟨why, -, hs⟩
      · rw [hs]
        exact List.subset_append_left _ _
      · rw [hs]
        exact List.Subset.refl _

theorem step_congr {fs' : FileSystem} {i : Nat}
    (h : ∀ q ∈ (p.step fs' s i).asked, fs' q = fs q) : p.step fs' s i = p.step fs s i := by
  unfold step stepAt at *
  split
  · rfl
  next hover =>
  rw [if_neg hover] at h
  cases hjob : p.jobs[i % p.jobs.length]? with
  | none => rfl
  | some job =>
    rw [hjob] at h
    cases job with
    | done | stop | report => rfl
    | ask q next =>
      have hsame : fs' q = fs q := h q (List.mem_append_right _ (List.mem_singleton.mpr rfl))
      simp only [hsame]

theorem run_congr {fs' : FileSystem} {pick : Nat → Nat} {count : Nat}
    (h : ∀ q ∈ (p.run fs' s pick count).asked, fs' q = fs q) :
    p.run fs' s pick count = p.run fs s pick count := by
  induction count generalizing p with
  | zero => rfl
  | succ count ih =>
    cases hover : p.isOver with
    | true => rw [run_of_isOver hover, run_of_isOver hover]
    | false =>
      rw [run, hover] at h ⊢
      have hstep : p.step fs' s (pick count) = p.step fs s (pick count) :=
        step_congr fun q hq => h q (asked_run fs' s _ pick count hq)
      rw [run, hover, ← hstep]
      exact ih h

/-- What holds of every job, and of why the pool broke off if it did. Both may depend on what was
asked. -/
def Keeps (jobs : List Query → Dialogue (List Task) → Prop) (failure : List Query → Failure → Prop)
    (p : Pool) : Prop :=
  (∀ job ∈ p.jobs, jobs p.asked job) ∧ ∀ why, p.failure = some why → failure p.asked why

/-- What every visit begins with, every turn of a job keeps, and no other question takes away. -/
structure Kept (fs : FileSystem) (s : Selection) (jobs : List Query → Dialogue (List Task) → Prop)
    (failure : List Query → Failure → Prop) : Prop where
  visit : ∀ asked, ∀ t : Task, jobs asked (t.visit s)
  report : ∀ asked path rest, jobs asked (.report path rest) → jobs asked rest
  ask : ∀ asked q next, jobs asked (.ask q next) → jobs (asked ++ [q]) (next (fs q))
  stop : ∀ asked why, jobs asked (.stop why) → failure asked why
  jobs_mono : ∀ asked q job, jobs asked job → jobs (asked ++ [q]) job
  failure_mono : ∀ asked q why, failure asked why → failure (asked ++ [q]) why

namespace Kept

variable {jobs : List Query → Dialogue (List Task) → Prop} {failure : List Query → Failure → Prop}

/-- A turn keeps it of the job, and of all that is there beside it. -/
theorem turn (h : Kept fs s jobs failure) {asked more : List Query} {job : Dialogue (List Task)}
    {news : List (Dialogue (List Task))} {found : List Path} (ht : Turn fs s job news found more)
    (hjob : jobs asked job) :
    (∀ new ∈ news, jobs (asked ++ more) new) ∧
      (∀ other, jobs asked other → jobs (asked ++ more) other) ∧
      ∀ why, failure asked why → failure (asked ++ more) why := by
  cases ht with
  | done tasks =>
    rw [List.append_nil]
    refine ⟨?_, fun _ h => h, fun _ h => h⟩
    intro new hnew
    obtain ⟨t, -, rfl⟩ := List.mem_map.mp hnew
    exact h.visit asked t
  | report path rest =>
    rw [List.append_nil]
    refine ⟨?_, fun _ h => h, fun _ h => h⟩
    intro new hnew
    rw [List.mem_singleton.mp hnew]
    exact h.report asked path rest hjob
  | ask q next =>
    refine ⟨?_, h.jobs_mono asked q, h.failure_mono asked q⟩
    intro new hnew
    rw [List.mem_singleton.mp hnew]
    exact h.ask asked q next hjob

theorem step (h : Kept fs s jobs failure) (hp : p.Keeps jobs failure) (i : Nat) :
    (p.step fs s i).Keeps jobs failure := by
  cases hover : p.isOver with
  | true => rwa [step_of_isOver hover]
  | false =>
    obtain ⟨before, job, after, hsplit, hstep⟩ := step_cases fs s hover i
    have hjob := hp.1 job (by simp [hsplit])
    rcases hstep with ⟨news, found, asked, ht, hs⟩ | ⟨why, rfl, hs⟩
    · obtain ⟨hnews, hothers, hfailure⟩ := h.turn ht hjob
      rw [hs]
      refine ⟨?_, fun why hw => hfailure why (hp.2 why hw)⟩
      intro x hx
      rcases List.mem_append.mp hx with hx | hx
      · exact hothers x (hp.1 x (by simp [hsplit, hx]))
      · rcases List.mem_append.mp hx with hx | hx
        · exact hnews x hx
        · exact hothers x (hp.1 x (by simp [hsplit, hx]))
    · -- Nothing is left but the failure, which is that of the job.
      rw [hs]
      refine ⟨by simp, ?_⟩
      intro last hlast
      cases hlast
      exact h.stop p.asked why hjob

theorem run (h : Kept fs s jobs failure) (hp : p.Keeps jobs failure) (pick : Nat → Nat) (count : Nat) :
    (p.run fs s pick count).Keeps jobs failure := by
  induction count generalizing p with
  | zero => exact hp
  | succ count ih =>
    rw [Pool.run]
    split
    · exact hp
    · exact ih (h.step hp (pick count))

theorem run_start (h : Kept fs s jobs failure) (t : Task) (pick : Nat → Nat) (count : Nat) :
    ((start (t.visit s)).run fs s pick count).Keeps jobs failure := by
  apply h.run
  refine ⟨?_, by simp [start]⟩
  intro job hjob
  rw [List.mem_singleton.mp hjob]
  exact h.visit [] t

end Kept

end Pool

end TreeGlob
