import TreeGlob.Proofs.Search.Refusals

/-!
What becomes of a search when directories are found empty that are not.

* `FileSystem.Withholds` says that a file system answers as another does, but has no entries for some
  directories. Refusing to list them is one way to do so (`Refuses.withholds`). A search then leads no
  deeper (`Ends.withholds`) and costs no more (`cost_withholds_le`).
* `FileSystem.forgiving` has no entries where a file system refuses them, in place of an error. So no
  search fails that leads to an end (`run_visitAll_forgiving`), and the one file system refuses what the
  other does not (`refuses_forgiving`).
-/
namespace TreeGlob

namespace FileSystem

variable {fs fs' fs'' : FileSystem} {base p : Path} {struck : Path → Prop} {e : FsError}

/-- `fs'` answers as `fs` does, but has no entries for some directories. -/
structure Withholds (fs fs' : FileSystem) : Prop where
  list : ∀ p, fs' (.list p) = fs (.list p) ∨ fs'.entries p = []
  same : ∀ q : Query, (∀ p, q ≠ .list p) → fs' q = fs q

theorem Withholds.trans (h : fs.Withholds fs') (h' : fs'.Withholds fs'') : fs.Withholds fs'' where
  list p := by
    cases h'.list p with
    | inr hnone => exact .inr hnone
    | inl hsame =>
      refine (h.list p).imp hsame.trans fun hnone => ?_
      rwa [entries, hsame]
  same q hq := (h'.same q hq).trans (h.same q hq)

theorem Withholds.tidy (h : fs.Withholds fs') (hfs : fs.Tidy) : fs'.Tidy := by
  have hentries : ∀ p, fs'.entries p = fs.entries p ∨ fs'.entries p = [] := fun p =>
    (h.list p).imp_left fun hsame => by rw [entries, entries, hsame]
  refine ⟨fun p => ?_, fun p => ?_, fun p => ?_⟩
  · cases hentries p with
    | inl hsame => exact hsame ▸ hfs.named p
    | inr hnone => exact hnone ▸ List.forall_mem_nil _
  · cases hentries p with
    | inl hsame => exact hsame ▸ hfs.apart p
    | inr hnone => exact hnone ▸ List.nodup_nil
  · rw [h.same _ fun _ => Query.noConfusion]
    exact hfs.survives p

theorem Refuses.withholds (h : fs.Refuses fs' base struck) : fs.Withholds fs' where
  list p := by
    by_cases hp : struck p
    · obtain ⟨e, he, -⟩ := h.refused p hp
      exact .inr (by rw [entries, he])
    · exact .inl (h.same _ fun q hq => Query.list.inj hq ▸ hp)
  same q hq := h.same q fun p hp => absurd hp (hq p)

/-- Gives no entries for a directory that `fs` refuses to list, and otherwise answers as `fs` does. -/
def forgiving (fs : FileSystem) (base : Path) : FileSystem
  | .list p =>
    match fs (.list p) with
    | .ok children => .ok children
    | .error e => if e.isNotFound = true ∧ p ≠ base then .error e else .ok []
    | .crash => .crash
  | .resolve p => fs (.resolve p)
  | .canonicalize p => fs (.canonicalize p)
  | .leads p => fs (.leads p)
  | .isDirectory p => fs (.isDirectory p)

theorem forgiving_of_refused (h : (Query.list p).Refused base (fs (.list p)) e) :
    fs.forgiving base (.list p) = .ok [] := by
  obtain ⟨he, hgone⟩ := h
  have hnot : ¬(e.isNotFound = true ∧ p ≠ base) := fun hyp => hyp.2 (hgone hyp.1)
  simp only [forgiving, he, if_neg hnot]

theorem forgiving_of_not_refused (h : ∀ e, ¬(Query.list p).Refused base (fs (.list p)) e) :
    fs.forgiving base (.list p) = fs (.list p) := by
  cases hp : fs (.list p) with
  | ok | crash => simp only [forgiving, hp]
  | error e =>
    have hgone : e.isNotFound = true ∧ p ≠ base := by
      simpa [Query.Refused, hp] using h e
    simp only [forgiving, hp, if_pos hgone]

theorem withholds_forgiving (fs : FileSystem) (base : Path) : fs.Withholds (fs.forgiving base) where
  list p := by
    by_cases hp : ∃ e, (Query.list p).Refused base (fs (.list p)) e
    · obtain ⟨e, he⟩ := hp
      exact .inr (entries_of_list (forgiving_of_refused he))
    · exact .inl (forgiving_of_not_refused fun e he => hp ⟨e, he⟩)
  same q hq := by
    cases q with
    | list p => exact absurd rfl (hq p)
    | resolve | canonicalize | leads | isDirectory => rfl

theorem refuses_forgiving (fs : FileSystem) (base : Path) :
    (fs.forgiving base).Refuses fs base fun p => ∃ e, (Query.list p).Refused base (fs (.list p)) e where
  refused _ hp := hp
  same q hq := by
    cases q with
    | list p => exact (forgiving_of_not_refused fun e he => hq p rfl ⟨e, he⟩).symm
    | resolve | canonicalize | leads | isDirectory => rfl

end FileSystem

/-! ## Visits -/

namespace Task

variable {fs fs' : FileSystem} {s : Selection} {base : Path} {t : Task}

/-- A visit goes as it would, or it finds nothing and gives nothing. -/
theorem run_visit_withholds (h : fs.Withholds fs') (s : Selection) (t : Task) :
    (t.visit s).run fs' = (t.visit s).run fs ∨
      ((t.visit s).run fs').found = [] ∧ ((t.visit s).run fs').asked = [.list t.path] ∧
        ∀ tasks, ((t.visit s).run fs').ending = .ok tasks → tasks = [] := by
  refine (h.list t.path).imp (fun hsame => ?_) fun hnone => ?_
  · obtain ⟨rest, hasked, hrest⟩ := t.asked_visit s fs'
    refine Dialogue.run_congr fun q hq => ?_
    rw [hasked] at hq
    cases List.mem_cons.mp hq with
    | inl hq => exact hq ▸ hsame
    | inr hq => exact h.same q fun p hp => hrest p (hp ▸ hq)
  · obtain ⟨ending, hrun, hending⟩ : ∃ ending, (t.visit s).run fs' = ⟨[], [.list t.path], ending⟩ ∧
        ∀ tasks, ending = .ok tasks → tasks = [] := by
      rw [visit, Dialogue.query, Dialogue.ask_bind, Dialogue.run, Dialogue.done_bind]
      cases hl : fs' (.list t.path) with
      | ok children =>
        obtain rfl : children = [] := (FileSystem.entries_of_list hl).symm.trans hnone
        exact ⟨_, rfl, fun tasks htasks => (Except.ok.inj htasks).symm⟩
      | crash => exact ⟨_, rfl, fun tasks htasks => by cases htasks⟩
      | error e =>
        dsimp only
        split
        · exact ⟨_, rfl, fun tasks htasks => (Except.ok.inj htasks).symm⟩
        · exact ⟨_, rfl, fun tasks htasks => by cases htasks⟩
    rw [hrun]
    exact ⟨rfl, rfl, hending⟩

theorem visitable_forgiving (hcrash : fs (.list t.path) ≠ .crash)
    (hbase : t.relative = [] → t.path = base) : t.Visitable (fs.forgiving base) := by
  by_cases hrefused : ∃ e, (Query.list t.path).Refused base (fs (.list t.path)) e
  · obtain ⟨e, he⟩ := hrefused
    exact .inl ⟨[], FileSystem.forgiving_of_refused he⟩
  · have hnot : ∀ e, ¬(Query.list t.path).Refused base (fs (.list t.path)) e :=
      fun e he => hrefused ⟨e, he⟩
    rw [Visitable, FileSystem.forgiving_of_not_refused hnot]
    cases hl : fs (.list t.path) with
    | ok children => exact .inl ⟨children, rfl⟩
    | crash => exact absurd hl hcrash
    | error e =>
      have hgone : e.isNotFound = true ∧ t.path ≠ base := by
        simpa [Query.Refused, hl] using hnot e
      exact .inr ⟨fun hnil => hgone.2 (hbase hnil), e, rfl, hgone.1⟩

end Task

/-! ## Searches -/

namespace Selection

variable {fs fs' : FileSystem} {s : Selection} {base : Path} {t : Task} {depth : Nat}

theorem Ends.withholds (h : fs.Withholds fs') (hends : s.Ends fs depth (t.visit s)) :
    s.Ends fs' depth (t.visit s) := by
  induction depth generalizing t with
  | zero => exact hends.elim
  | succ depth ih =>
    intro tasks hv u hu
    cases t.run_visit_withholds h s with
    | inl hsame => exact ih (hends tasks (hsame ▸ hv) u hu)
    | inr hnothing =>
      rw [hnothing.2.2 tasks hv] at hu
      cases hu

theorem cost_withholds_le (h : fs.Withholds fs') (s : Selection) (depth : Nat) (t : Task) :
    s.cost fs' depth (t.visit s) ≤ s.cost fs depth (t.visit s) := by
  induction depth generalizing t with
  | zero => exact Nat.le_refl _
  | succ depth ih =>
    rw [cost, cost]
    cases t.run_visit_withholds h s with
    | inl hsame =>
      rw [hsame]
      refine Nat.add_le_add_left ?_ _
      cases ((t.visit s).run fs).ending with
      | error why => exact Nat.le_refl _
      | ok tasks => exact List.sum_le_sum fun u _ => ih u
    | inr hnothing =>
      obtain ⟨hfound, hasked, hending⟩ := hnothing
      obtain ⟨rest, hwhole, -⟩ := t.asked_visit s fs
      rw [hfound, hasked, hwhole]
      cases htasks : ((t.visit s).run fs').ending with
      | error why =>
        simp only [List.length_nil, List.length_cons]
        omega
      | ok tasks =>
        obtain rfl := hending tasks htasks
        simp only [List.length_nil, List.length_cons, List.map_nil, List.sum_nil]
        omega

/-- No search fails where all is forgiven, and it finds nothing twice. -/
theorem run_visitAll_forgiving (hfs : (fs.forgiving base).Tidy) (hcrash : ∀ p, fs (.list p) ≠ .crash)
    (hends : s.Ends (fs.forgiving base) depth (t.visit s)) (hbase : t.relative = [] → t.path = base) :
    ((s.visitAll depth t).run (fs.forgiving base)).ending = .ok () ∧
      ((s.visitAll depth t).run (fs.forgiving base)).found.Nodup := by
  have hall : ∀ u ∈ s.order (fs.forgiving base) depth t, u.Visitable (fs.forgiving base) := fun u hu =>
    Task.visitable_forgiving (hcrash u.path) (path_of_order hfs hends hbase hu)
  rw [run_visitAll_of_visitable hfs hends hall]
  exact ⟨rfl, nodup_found hfs s _ _⟩

end Selection

end TreeGlob
