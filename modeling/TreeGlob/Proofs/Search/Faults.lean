import Mathlib.Data.List.Flatten
import TreeGlob.Proofs.Search.Filtering
import TreeGlob.Proofs.Search.Strategies

/-!
A search bears it that directories have gone when they are to be listed, and that links do not resolve.

* `FileSystem.Falters` says that a file system answers as another does, but for such faults.
* `order_sublist` says that a search then visits no other directories, and in the same order.
* `Selection.Lost` says of a path that a listing or a link failed on the way to it.
  `comes_of_not_lost` says that the way to a path that is not lost is still there, and
  `not_lost_of_finds` that a path that is lost is not found.
* `Selection.faults_are_contained` is the main result.
-/
namespace TreeGlob

/-! ## Faults -/

/-- The answer is a fault that a search bears: a directory other than the base has gone, or a link is
not resolved, for whatever reason. -/
def Query.Bearable (base : Path) : (q : Query) → q.Reply → Prop
  | .list p, reply => p ≠ base ∧ ∃ e, reply = .error e ∧ e.isNotFound = true
  | .resolve _, reply => ∃ e, reply = .error e
  | .canonicalize _, _ | .leads _, _ | .isDirectory _, _ => False

namespace FileSystem

variable {fs fs' : FileSystem} {base : Path}

/-- `fs'` answers as `fs` does, but for faults that a search bears. -/
def Falters (fs fs' : FileSystem) (base : Path) : Prop :=
  ∀ q : Query, fs' q = fs q ∨ q.Bearable base (fs' q)

theorem Falters.isDirectory_eq (h : fs.Falters fs' base) (p : Path) :
    fs' (.isDirectory p) = fs (.isDirectory p) := (h (.isDirectory p)).resolve_right id

theorem Falters.isLook_eq (h : fs.Falters fs' base) (q : Query) (hq : q.isLook = true) :
    fs' q = fs q := by
  cases q with
  | canonicalize p => exact (h (.canonicalize p)).resolve_right id
  | isDirectory p => exact h.isDirectory_eq p
  | list | resolve | leads => cases hq

theorem Falters.entries_cases (h : fs.Falters fs' base) (p : Path) :
    fs'.entries p = fs.entries p ∨ (fs'.entries p = [] ∧ ∃ e, fs' (.list p) = .error e) := by
  rcases h (.list p) with hsame | ⟨-, e, he, -⟩
  · exact .inl (by rw [entries, entries, hsame])
  · exact .inr ⟨by rw [entries, he], e, he⟩

theorem Falters.tidy (h : fs.Falters fs' base) (hfs : fs.Tidy) : fs'.Tidy where
  named p := by
    rcases h.entries_cases p with hp | ⟨hp, -⟩
    · exact hp ▸ hfs.named p
    · simp [hp]
  apart p := by
    rcases h.entries_cases p with hp | ⟨hp, -⟩
    · exact hp ▸ hfs.apart p
    · simp [hp]
  survives p := by
    rcases h (.resolve p) with hsame | ⟨e, he⟩
    · exact hsame ▸ hfs.survives p
    · simp [he]

/-- Faults that are injected make the file system falter, if each of them is one that a search bears. -/
theorem falters_withFaults (fs : FileSystem) {faults : List Fault}
    (h : ∀ f ∈ faults,
      f.call = .list ∧ f.kind = .notFound ∧ f.path.components ≠ base.components ∨
        f.call = .resolve ∧ f.kind ≠ .crash) : fs.Falters (fs.withFaults faults) base := by
  intro q
  cases q with
  | list p =>
    rcases orFault_cases faults .list p (fs (.list p)) with hsame | ⟨f, hf, hcall, hpath, hanswer⟩
    · exact .inl hsame
    · rcases h f hf with ⟨-, hkind, hbase⟩ | ⟨hresolve, -⟩
      · refine .inr ⟨fun hp => hbase (hp ▸ hpath), .notFound p, ?_, rfl⟩
        exact hanswer.trans (by simp [Fault.answer, hkind])
      · cases hcall.symm.trans hresolve
  | resolve p =>
    rcases orFault_cases faults .resolve p (fs (.resolve p)) with hsame | ⟨f, hf, hcall, -, hanswer⟩
    · exact .inl hsame
    · rcases h f hf with ⟨hlist, -⟩ | ⟨-, hkind⟩
      · cases hcall.symm.trans hlist
      · refine .inr ?_
        show ∃ e, orFault faults .resolve p (fs (.resolve p)) = .error e
        rw [hanswer, Fault.answer]
        cases hk : f.kind with
        | crash => exact (hkind hk).elim
        | permissionDenied | notFound | io => exact ⟨_, rfl⟩
  | canonicalize p =>
    rcases orFault_cases faults .canonicalize p (fs (.canonicalize p)) with hsame | ⟨f, hf, hcall, -⟩
    · exact .inl hsame
    · rcases h f hf with ⟨hother, -⟩ | ⟨hother, -⟩ <;> cases hcall.symm.trans hother
  | leads | isDirectory => exact .inl rfl

end FileSystem

/-! ## One visit -/

theorem sublist_flatMap {α β : Type} {l l' : List α} {f g : α → List β} (hl : l.Sublist l')
    (h : ∀ a ∈ l, (f a).Sublist (g a)) : (l.flatMap f).Sublist (l'.flatMap g) :=
  (List.Sublist.flatMap_right l h).trans (hl.flatMap g)

namespace Task

variable {fs fs' : FileSystem} {base : Path} {s : Selection} {t u v : Task} {c : Child}

/-- An entry is what it was, or it is a link that does not resolve. -/
theorem kind?_cases (h : fs.Falters fs' base) (t : Task) (c : Child) :
    t.kind? fs' c = t.kind? fs c ∨ (t.kind? fs' c = none ∧ c.isLink = true ∧
      ∃ e, fs' (.resolve (t.path.child c.name)) = .error e) := by
  unfold kind?
  cases hl : c.isLink with
  | false => exact .inl rfl
  | true =>
    rcases h (.resolve (t.path.child c.name)) with hsame | ⟨e, he⟩
    · simp [hsame, h.isDirectory_eq]
    · exact .inr ⟨by simp [he], rfl, e, he⟩

theorem reports_of_kind? (h : t.kind? fs' c = t.kind? fs c) :
    t.reports s fs' c = t.reports s fs c := by
  unfold reports
  rw [h]

theorem subtasks_of_kind? (h : t.kind? fs' c = t.kind? fs c) :
    t.subtasks s fs' c = t.subtasks s fs c := by
  unfold subtasks
  rw [h]

theorem reports_of_none (h : t.kind? fs c = none) : t.reports s fs c = [] := by
  unfold reports
  rw [h]
  split <;> simp

theorem subtasks_of_none (h : t.kind? fs c = none) : t.subtasks s fs c = [] := by
  unfold subtasks
  rw [h]
  split <;> simp

theorem reports_sublist (h : fs.Falters fs' base) (s : Selection) (t : Task) (c : Child) :
    (t.reports s fs' c).Sublist (t.reports s fs c) := by
  rcases t.kind?_cases h c with hsame | ⟨hnone, -⟩
  · rw [reports_of_kind? hsame]
  · rw [reports_of_none hnone]
    exact List.nil_sublist _

theorem subtasks_sublist (h : fs.Falters fs' base) (s : Selection) (t : Task) (c : Child) :
    (t.subtasks s fs' c).Sublist (t.subtasks s fs c) := by
  rcases t.kind?_cases h c with hsame | ⟨hnone, -⟩
  · rw [subtasks_of_kind? hsame]
  · rw [subtasks_of_none hnone]
    exact List.nil_sublist _

theorem entries_sublist (h : fs.Falters fs' base) (p : Path) :
    (fs'.entries p).Sublist (fs.entries p) := by
  rcases h.entries_cases p with hsame | ⟨hnil, -⟩
  · rw [hsame]
  · rw [hnil]
    exact List.nil_sublist _

theorem finds_sublist (h : fs.Falters fs' base) (s : Selection) (t : Task) :
    (t.finds s fs').Sublist (t.finds s fs) :=
  sublist_flatMap (entries_sublist h t.path) fun c _ => reports_sublist h s t c

theorem next_sublist (h : fs.Falters fs' base) (s : Selection) (t : Task) :
    (t.next s fs').Sublist (t.next s fs) :=
  sublist_flatMap (entries_sublist h t.path) fun c _ => subtasks_sublist h s t c

theorem length_lookups_le (h : fs.Falters fs' base) (t : Task) (c : Child) :
    (t.lookups fs' c).length ≤ (t.lookups fs c).length := by
  unfold lookups
  split
  · rcases h (.resolve (t.path.child c.name)) with hsame | ⟨e, he⟩
    · rw [hsame]
    · simp [he]
  · exact Nat.le_refl _

theorem length_asks_le (h : fs.Falters fs' base) (s : Selection) (t : Task) :
    (t.asks s fs').length ≤ (t.asks s fs).length := by
  have hone : ∀ c, (t.questions s fs' c).length ≤ (t.questions s fs c).length := by
    intro c
    unfold questions
    repeat' split
    all_goals first | exact Nat.le_refl _ | exact length_lookups_le h t c
  have hall : ∀ children : List Child, (children.flatMap (t.questions s fs')).length ≤
      (children.flatMap (t.questions s fs)).length := by
    intro children
    rw [List.length_flatMap, List.length_flatMap]
    exact List.sum_le_sum fun c _ => hone c
  rw [asks, asks, List.length_cons, List.length_cons]
  exact Nat.succ_le_succ
    ((hall _).trans ((entries_sublist h t.path).flatMap (t.questions s fs)).length_le)

theorem Visitable.falters (h : fs.Falters fs' base) (hbase : t.relative = [] → t.path = base)
    (ht : t.Visitable fs) : t.Visitable fs' := by
  rcases h (.list t.path) with hsame | ⟨hne, e, he, hgone⟩
  · unfold Visitable
    rwa [hsame]
  · exact .inr ⟨fun hnil => hne (hbase hnil), e, he, hgone⟩

end Task

/-! ## What is asked -/

namespace Task

variable {fs : FileSystem} {s : Selection} {t : Task} {p : Path}

/-- The hidden filter and the patterns leave it open whether an entry or something below it is wanted. -/
def Considers (s : Selection) (t : Task) (c : Text) : Prop :=
  s.hides c = false ∧
    ((s.verdict (t.relative ++ c)).hit = true ∨ (s.verdict (t.relative ++ c)).prune = false)

theorem considers_of_subtasks {u : Task} {child : Child} {c : Text}
    (hname : child.name = Utf8.encode c) (h : u ∈ t.subtasks s fs child) : t.Considers s c := by
  obtain ⟨x, real, viaLink, hx, hh, -, hprune, -⟩ := mem_subtasks.mp h
  obtain rfl := Utf8.encode_injective (hname.symm.trans (Disk.decode?_eq_some.mp hx))
  exact ⟨hh, .inr hprune⟩

theorem considers_of_reports {child : Child} {c : Text} (hname : child.name = Utf8.encode c)
    (h : p ∈ t.reports s fs child) : t.Considers s c := by
  obtain ⟨x, hx, hh, -, hhit, -⟩ := mem_reports.mp h
  obtain rfl := Utf8.encode_injective (hname.symm.trans (Disk.decode?_eq_some.mp hx))
  exact ⟨hh, .inl hhit⟩

theorem list_mem_asks : .list p ∈ t.asks s fs ↔ p = t.path := by
  rw [← Selection.mem_listedIn, listedIn_asks, List.mem_singleton]

theorem resolve_mem_questions {child : Child} : .resolve p ∈ t.questions s fs child ↔ ∃ c,
    child.name = Utf8.encode c ∧ child.isLink = true ∧ t.Considers s c ∧
      p = t.path.child (Utf8.encode c) := by
  unfold questions lookups Considers
  cases hn : Utf8.decode? child.name with
  | none =>
    refine iff_of_false (by simp) ?_
    rintro ⟨c, hc, -⟩
    rw [Disk.decode?_eq_some.mpr hc] at hn
    cases hn
  | some name =>
    have hname := Disk.decode?_eq_some.mp hn
    dsimp only
    refine ⟨fun h => ?_, ?_⟩
    · split at h
      · cases h
      next hh =>
      split at h
      · cases h
      next hv =>
      split at h
      · next hl =>
        refine ⟨name, hname, hl, ⟨by simpa using hh, by simpa [or_iff_not_imp_left] using hv⟩, ?_⟩
        rcases List.mem_cons.mp h with h | h
        · cases h
          rw [hname]
        · split at h <;> simp at h
      · cases h
    · rintro ⟨c, hc, hl, ⟨hh, hv⟩, rfl⟩
      obtain rfl := Utf8.encode_injective (hname.symm.trans hc)
      have hv : ¬((!(s.verdict (t.relative ++ name)).hit &&
          (s.verdict (t.relative ++ name)).prune) = true) := by
        rcases hv with hv | hv <;> simp [hv]
      rw [if_neg (by simp [hh]), if_neg hv, if_pos hl, hc]
      exact List.mem_cons_self

theorem resolve_mem_asks : .resolve p ∈ t.asks s fs ↔ ∃ c, ∃ child ∈ fs.entries t.path,
    child.name = Utf8.encode c ∧ child.isLink = true ∧ t.Considers s c ∧
      p = t.path.child (Utf8.encode c) := by
  rw [asks, List.mem_cons, List.mem_flatMap]
  simp only [resolve_mem_questions, reduceCtorEq, false_or]
  grind

end Task

/-! ## All visits -/

namespace Selection

variable {fs fs' : FileSystem} {base p : Path} {s : Selection} {t u v : Task} {depth : Nat}
  {asked : List Query} {way : List Text} {c : Text}

/-- Faults leave out some visits, and leave the others in their order. -/
theorem order_sublist (h : fs.Falters fs' base) (s : Selection) (depth : Nat) (t : Task) :
    (s.order fs' depth t).Sublist (s.order fs depth t) := by
  induction depth generalizing t with
  | zero => exact List.Sublist.refl _
  | succ depth ih => exact (sublist_flatMap (Task.next_sublist h s t) fun u _ => ih u).cons_cons t

theorem Ends.falters (hfs : fs.Tidy) (h : fs.Falters fs' base) (hends : s.Ends fs depth (t.visit s)) :
    s.Ends fs' depth (t.visit s) := by
  induction depth generalizing t with
  | zero => exact hends.elim
  | succ depth ih =>
    intro tasks hv u hu
    rw [Task.run_visit_of_visitable (h.tidy hfs) (Task.visitable_of_visit hv)] at hv
    obtain rfl := Except.ok.inj hv
    exact ih (Task.ends_next hfs hends u ((Task.next_sublist h s t).subset hu))

theorem visitable_falters (hfs : fs.Tidy) (h : fs.Falters fs' base)
    (hbase : t.relative = [] → t.path = base) (hends : s.Ends fs depth (t.visit s))
    (hall : ∀ u ∈ s.order fs depth t, u.Visitable fs) :
    ∀ u ∈ s.order fs depth t, u.Visitable fs' := by
  intro u hu
  exact (hall u hu).falters h (path_of_order hfs hends hbase hu)

theorem cost_falters_le (hfs : fs.Tidy) (h : fs.Falters fs' base)
    (hall : ∀ u ∈ s.order fs depth t, u.Visitable fs ∧ u.Visitable fs') :
    s.cost fs' depth (t.visit s) ≤ s.cost fs depth (t.visit s) := by
  induction depth generalizing t with
  | zero => exact Nat.le_refl _
  | succ depth ih =>
    obtain ⟨⟨ht, ht'⟩, hnext⟩ := List.forall_mem_cons.mp hall
    have hfound := (Task.finds_sublist h s t).length_le
    have hasked := Task.length_asks_le h s t
    have hsum : ((t.next s fs').map fun u => s.cost fs' depth (u.visit s)).sum ≤
        ((t.next s fs).map fun u => s.cost fs depth (u.visit s)).sum := by
      have hsub := Task.next_sublist h s t
      calc ((t.next s fs').map fun u => s.cost fs' depth (u.visit s)).sum
        _ ≤ ((t.next s fs').map fun u => s.cost fs depth (u.visit s)).sum := by
          refine List.sum_le_sum fun u hu => ih fun w hw => ?_
          exact hnext w (List.mem_flatMap.mpr ⟨u, hsub.subset hu, hw⟩)
        _ ≤ ((t.next s fs).map fun u => s.cost fs depth (u.visit s)).sum :=
          (hsub.map _).sum_le_sum fun _ _ => Nat.zero_le _
    rw [cost, cost, Task.run_visit_of_visitable hfs ht, Task.run_visit_of_visitable (h.tidy hfs) ht']
    dsimp only
    omega

/-! ## What is lost -/

/-- On the way to the path was a directory that could not be listed, or a link that did not resolve;
the path may be that link, but not that directory. -/
def Lost (fs : FileSystem) (asked : List Query) (p : Path) : Prop :=
  (∃ directory e way, .list directory ∈ asked ∧ fs (.list directory) = .error e ∧ way ≠ [] ∧
      Pieces way ∧ p = directory.descend way) ∨
    ∃ link e way, .resolve link ∈ asked ∧ fs (.resolve link) = .error e ∧ Pieces way ∧
      p = link.descend way

/-- An entry on the way to a path that is not lost is listed, and is what it was. -/
theorem entry_of_not_lost (h : fs.Falters fs' base) (hp : ¬Lost fs' asked p)
    (hasked : t.asks s fs' ⊆ asked) {child : Child} (hchild : child ∈ fs.entries t.path)
    (hname : child.name = Utf8.encode c) (hc : t.Considers s c) (hpieces : Pieces (c :: way))
    (hpath : p = t.path.descend (c :: way)) :
    child ∈ fs'.entries t.path ∧ t.kind? fs' child = t.kind? fs child := by
  have hchild' : child ∈ fs'.entries t.path := by
    rcases h.entries_cases t.path with hsame | ⟨-, e, he⟩
    · rwa [hsame]
    · have hlist := hasked (Task.list_mem_asks.mpr rfl)
      exact (hp (.inl ⟨_, e, _, hlist, he, by simp, hpieces, hpath⟩)).elim
  refine ⟨hchild', ?_⟩
  rcases t.kind?_cases h child with hsame | ⟨-, hl, e, he⟩
  · exact hsame
  · have hresolve := hasked (Task.resolve_mem_asks.mpr ⟨c, child, hchild', hname, hl, hc, rfl⟩)
    exact (hp (.inr ⟨_, e, way, hresolve, hname ▸ he,
      fun x hx => hpieces x (List.mem_cons_of_mem c hx), hpath⟩)).elim

/-- The way to a path that is not lost is still there. -/
theorem comes_of_not_lost (h : fs.Falters fs' base) (hp : ¬Lost fs' asked p)
    (hasked : ∀ more v, t.Comes s fs' more v → v.asks s fs' ⊆ asked)
    (hpieces : Pieces (way ++ [c])) (hpath : p = t.path.descend (way ++ [c]))
    (hu : t.Comes s fs way u) : t.Comes s fs' way u := by
  induction way generalizing t with
  | nil => exact hu
  | cons x way ih =>
    obtain ⟨next, hnext, hu⟩ := hu
    obtain ⟨child, hchild, hname, hsub⟩ := id hnext
    have hsame := entry_of_not_lost h hp (hasked [] t rfl) hchild hname
      (Task.considers_of_subtasks hname hsub) hpieces hpath
    have hnext' : t.Gives s fs' x next :=
      ⟨child, hsame.1, hname, by rwa [Task.subtasks_of_kind? hsame.2]⟩
    refine ⟨next, hnext', ih (fun more v hv => hasked (x :: more) v ⟨next, hnext', hv⟩) ?_ ?_ hu⟩
    · exact fun y hy => hpieces y (List.mem_cons_of_mem x hy)
    · obtain ⟨real, rfl⟩ := hnext.eq_enter
      exact hpath

theorem finds_of_not_lost (hfs : fs.Tidy) (h : fs.Falters fs' base) (hp : ¬Lost fs' asked p)
    (hasked : ∀ more v, t.Comes s fs' more v → v.asks s fs' ⊆ asked) (hu : t.Comes s fs way u)
    (hfinds : p ∈ u.finds s fs) : t.Comes s fs' way u ∧ p ∈ u.finds s fs' := by
  obtain ⟨c, child, hchild, hname, hreport, hpath⟩ := mem_finds.mp hfinds
  have hpiece := Task.piece_of_entries hfs hchild hname
  have hpieces : Pieces (way ++ [c]) :=
    List.forall_mem_append.mpr ⟨hu.pieces hfs, List.forall_mem_singleton.mpr hpiece⟩
  have hu' := comes_of_not_lost h hp hasked hpieces
    (by rw [Path.descend_append, ← hu.path_eq]; exact hpath) hu
  refine ⟨hu', ?_⟩
  have hone : Pieces [c] := List.forall_mem_singleton.mpr hpiece
  have hsame := entry_of_not_lost h hp (hasked way u hu') hchild hname
    (Task.considers_of_reports hname hreport) hone hpath
  exact mem_finds.mpr
    ⟨c, child, hsame.1, hname, by rwa [Task.reports_of_kind? hsame.2], hpath⟩

/-- Every entry on the way to a path that is found is something. -/
theorem kind?_of_finds (hfs : fs.Tidy) (hu : t.Comes s fs way u) {child : Child}
    (hchild : child ∈ fs.entries u.path) (hname : child.name = Utf8.encode c)
    (hreport : p ∈ u.reports s fs child) {above below : List Text} {x : Text}
    (hv : t.Comes s fs above v) (he : way ++ [c] = above ++ x :: below) :
    ∃ k ∈ fs.entries v.path, k.name = Utf8.encode x ∧ v.kind? fs k ≠ none := by
  rcases List.eq_nil_or_concat below with rfl | ⟨between, last, rfl⟩
  · -- The entry is the last one, so it is the one that is reported.
    obtain ⟨rfl, hx⟩ := List.append_inj' he rfl
    obtain rfl := (List.cons.inj hx).1
    obtain rfl := hu.unique hfs hv
    refine ⟨child, hchild, hname, fun hnone => ?_⟩
    rw [Task.reports_of_none hnone] at hreport
    cases hreport
  · -- The entry is further up, so a visit gave a task for it.
    rw [List.concat_eq_append, ← List.cons_append, ← List.append_assoc] at he
    obtain ⟨rfl, -⟩ := List.append_inj' he rfl
    obtain ⟨v', hv', next, ⟨k, hk, hkname, hsub⟩, -⟩ := Task.comes_append.mp hu
    obtain rfl := hv.unique hfs hv'
    refine ⟨k, hk, hkname, fun hnone => ?_⟩
    rw [Task.subtasks_of_none hnone] at hsub
    cases hsub

theorem not_lost_of_finds (hfs : fs.Tidy)
    (hasked : ∀ q ∈ asked, q.isLook = true ∨ ∃ way v, t.Comes s fs way v ∧ q ∈ v.asks s fs)
    (hu : t.Comes s fs way u) (hfinds : p ∈ u.finds s fs) : ¬Lost fs asked p := by
  obtain ⟨c, child, hchild, hname, hreport, rfl⟩ := mem_finds.mp hfinds
  have hpieces : Pieces (way ++ [c]) := List.forall_mem_append.mpr
    ⟨hu.pieces hfs, List.forall_mem_singleton.mpr (Task.piece_of_entries hfs hchild hname)⟩
  -- A path below another visit has the way to that one in it.
  have hway : ∀ {above below : List Text} {x : Text} {v : Task}, t.Comes s fs above v →
      Pieces (x :: below) → u.path.child (Utf8.encode c) = v.path.descend (x :: below) →
      ∃ k ∈ fs.entries v.path, k.name = Utf8.encode x ∧ v.kind? fs k ≠ none := by
    intro above below x v hv hbelow he
    have he : t.path.descend (way ++ [c]) = t.path.descend (above ++ x :: below) := by
      rw [Path.descend_append, Path.descend_append, ← hu.path_eq, ← hv.path_eq]
      exact he
    have hsplit := Path.descend_injective hpieces
      (List.forall_mem_append.mpr ⟨hv.pieces hfs, hbelow⟩) he
    exact kind?_of_finds hfs hu hchild hname hreport hv hsplit
  rintro (⟨directory, e, below, hlist, herror, hne, hbelow, he⟩ | ⟨link, e, below, hresolve, herror,
    hbelow, he⟩)
  · obtain ⟨above, v, hv, hq⟩ := (hasked _ hlist).resolve_left (by simp [Query.isLook])
    obtain rfl := Task.list_mem_asks.mp hq
    obtain ⟨x, below, rfl⟩ := List.exists_cons_of_ne_nil hne
    obtain ⟨k, hk, -⟩ := hway hv hbelow he
    simp [FileSystem.entries, herror] at hk
  · obtain ⟨above, v, hv, hq⟩ := (hasked _ hresolve).resolve_left (by simp [Query.isLook])
    obtain ⟨x, k, hk, hkname, hl, -, rfl⟩ := Task.resolve_mem_asks.mp hq
    have hx := Task.piece_of_entries hfs hk hkname
    obtain ⟨k', hk', hkname', hsome⟩ := hway hv (List.forall_mem_cons.mpr ⟨hx, hbelow⟩) he
    obtain rfl := hfs.unique hk hk' (hkname.trans hkname'.symm)
    rw [← hkname] at herror
    exact hsome (by simp [Task.kind?, hl, herror])

/-! ## Results -/

variable {steps : Nat}

theorem run_begin_of_falters (h : fs.Falters fs' base) (s : Selection) (base : Path) :
    (s.begin base).run fs' = (s.begin base).run fs :=
  (onlyLooks_begin s base).run_congr h.isLook_eq

/-- A visit that comes to an end with all that it leads to does so with faults as well, and what is
found is what is not lost. -/
theorem visitAll_of_falters (hfs : fs.Tidy) (h : fs.Falters fs' base)
    (hbase : t.relative = [] → t.path = base) (hok : ((s.visitAll depth t).run fs).ending = .ok ()) :
    ((s.visitAll depth t).run fs').ending = .ok () ∧
      ((s.visitAll depth t).run fs').found.Sublist ((s.visitAll depth t).run fs).found ∧
      ∀ looks : List Query, (∀ q ∈ looks, q.isLook = true) →
        ∀ p, p ∈ ((s.visitAll depth t).run fs').found ↔
          p ∈ ((s.visitAll depth t).run fs).found ∧
            ¬Lost fs' (looks ++ ((s.visitAll depth t).run fs').asked) p := by
  obtain ⟨hends, hall⟩ := visitable_of_visitAll hfs hok
  have hfs' := h.tidy hfs
  have hends' := hends.falters hfs h
  have hall' := visitable_falters hfs h hbase hends hall
  have hsub := order_sublist h s depth t
  have hfinds := sublist_flatMap hsub fun u _ => Task.finds_sublist h s u
  rw [run_visitAll_of_ok hfs hok,
    run_visitAll_of_visitable hfs' hends' fun u hu => hall' u (hsub.subset hu)]
  refine ⟨rfl, hfinds, fun looks hlooks p => ⟨fun hp => ⟨hfinds.subset hp, ?_⟩, ?_⟩⟩
  · obtain ⟨u, hu, hp⟩ := List.mem_flatMap.mp hp
    obtain ⟨way, hway⟩ := (mem_order hfs' hends').mp hu
    refine not_lost_of_finds hfs' (fun q hq => ?_) hway hp
    rcases List.mem_append.mp hq with hq | hq
    · exact .inl (hlooks q hq)
    · obtain ⟨v, hv, hq⟩ := List.mem_flatMap.mp hq
      obtain ⟨above, habove⟩ := (mem_order hfs' hends').mp hv
      exact .inr ⟨above, v, habove, hq⟩
  · rintro ⟨hp, hlost⟩
    obtain ⟨u, hu, hp⟩ := List.mem_flatMap.mp hp
    obtain ⟨way, hway⟩ := (mem_order hfs hends).mp hu
    have hasked : ∀ more v, t.Comes s fs' more v →
        v.asks s fs' ⊆ looks ++ (s.order fs' depth t).flatMap (·.asks s fs') :=
      fun more v hv q hq => List.mem_append_right _
        (List.mem_flatMap.mpr ⟨v, (mem_order hfs' hends').mpr ⟨more, hv⟩, hq⟩)
    obtain ⟨hway', hp'⟩ := finds_of_not_lost hfs h hlost hasked hway hp
    exact List.mem_flatMap.mpr ⟨u, (mem_order hfs' hends').mpr ⟨way, hway'⟩, hp'⟩

/-- A search that does not fail does not do so with faults either, and finds what is not lost. -/
theorem sequential_of_falters (hfs : fs.Tidy) (h : fs.Falters fs' base)
    (hbase : ∀ t, ((s.begin base).run fs).ending = .ok (some t) → t.relative = [] → t.path = base)
    (hok : ((s.sequential depth base).run fs).ending = .ok ()) :
    ((s.sequential depth base).run fs').ending = .ok () ∧
      ((s.sequential depth base).run fs').found.Sublist ((s.sequential depth base).run fs).found ∧
      ∀ p, p ∈ ((s.sequential depth base).run fs').found ↔
        p ∈ ((s.sequential depth base).run fs).found ∧
          ¬Lost fs' ((s.sequential depth base).run fs').asked p := by
  obtain ⟨start, hs, hrest⟩ := Dialogue.ending_bind_eq_ok.mp hok
  have hs' := run_begin_of_falters h s base ▸ hs
  cases start with
  | none =>
    rw [run_sequential_of_none hs, run_sequential_of_none hs']
    exact ⟨rfl, .refl _, by simp⟩
  | some t =>
    obtain ⟨hok', hsub, hmem⟩ := visitAll_of_falters hfs h (hbase t hs) hrest
    rw [run_sequential_of_some hs, run_sequential_of_some hs']
    exact ⟨hok', hsub, hmem _ ((onlyLooks_begin s base).isLook fs')⟩

/-- A parallel search with faults comes to what the sequential one does. -/
theorem comesTo_of_falters (hfs : fs.Tidy) (h : fs.Falters fs' base)
    (hbase : ∀ t, ((s.begin base).run fs).ending = .ok (some t) → t.relative = [] → t.path = base)
    (hok : ((s.sequential (depth + 1) base).run fs).ending = .ok ())
    (hcost : ∀ t : Task, s.cost fs (depth + 1) (t.visit s) ≤ steps) :
    s.ComesTo fs' ⟨depth + 1, steps⟩ base ((s.sequential (depth + 1) base).run fs') := by
  refine comesTo_of_ends (sequential_of_falters hfs h hbase hok).1 fun t ht => ?_
  rw [run_begin_of_falters h s base] at ht
  obtain ⟨start, hs, hrest⟩ := Dialogue.ending_bind_eq_ok.mp hok
  obtain rfl := Except.ok.inj (hs.symm.trans ht)
  obtain ⟨hends, hall⟩ := visitable_of_visitAll hfs hrest
  have hall' := visitable_falters hfs h (hbase t ht) hends hall
  refine ⟨hends.falters hfs h, le_trans (cost_falters_le hfs h fun u hu => ?_) (hcost t)⟩
  exact ⟨hall u hu, hall' u hu⟩

theorem path_of_begin {d : Disk} (hd : d.Lawful) {t : Task}
    (ht : ((s.begin base).run d.fileSystem).ending = .ok (some t)) (hnil : t.relative = []) :
    t.path = base :=
  (open_of_begin (Disk.honest hd) ht).relative_eq_nil_iff.mp hnil

/-- A search that does not fail finds and lists what the sequential one does, which does not fail
either. -/
theorem CanReport.agrees_sequential {d : Disk} (hd : d.Lawful) {strategy : Strategy} {r : Report}
    (hr : s.CanReport (s.begin base) d.fileSystem d.extent strategy r) (h : r.failure = none) :
    ((s.sequential d.extent.depth base).run d.fileSystem).ending = .ok () ∧
      r.found.Perm ((s.sequential d.extent.depth base).run d.fileSystem).found ∧
      r.listed.Perm (listedIn ((s.sequential d.extent.depth base).run d.fileSystem).asked) := by
  cases strategy with
  | sequential =>
    obtain rfl := hr
    exact ⟨failure_eq_none.mp h, .refl _, .refl _⟩
  | parallel =>
    obtain ⟨pick, rfl⟩ := hr
    obtain ⟨hiff, hagree⟩ := parallelFrom_agrees hd s s.startComponents base pick
    exact ⟨failure_eq_none.mp (hiff.mp h), hagree (hiff.mp h)⟩

theorem CanReport.perm_sequential {d : Disk} (hd : d.Lawful) {strategy : Strategy} {r : Report}
    (hr : s.CanReport (s.begin base) d.fileSystem d.extent strategy r) (h : r.failure = none) :
    ((s.sequential d.extent.depth base).run d.fileSystem).ending = .ok () ∧
      r.found.Perm ((s.sequential d.extent.depth base).run d.fileSystem).found :=
  have ⟨hok, hfound, _⟩ := hr.agrees_sequential hd h
  ⟨hok, hfound⟩

/-- Where a parallel search comes to what the sequential one does, no search fails. -/
theorem ComesTo.perm_of_canReport {extent : Extent} {strategy : Strategy} {r : Report}
    (h : s.ComesTo fs extent base ((s.sequential extent.depth base).run fs))
    (hok : ((s.sequential extent.depth base).run fs).ending = .ok ())
    (hr : s.CanReport (s.begin base) fs extent strategy r) :
    r.failure = none ∧ r.found.Perm ((s.sequential extent.depth base).run fs).found := by
  cases strategy with
  | sequential =>
    obtain rfl := hr
    exact ⟨failure_eq_none.mpr hok, .refl _⟩
  | parallel =>
    obtain ⟨pick, rfl⟩ := hr
    obtain ⟨hnone, hfound, -⟩ := h.pools pick
    exact ⟨hnone, hfound⟩

/-- **Faults are contained.** On a disk that does not change, below any base, a search that does not
fail does not do so either when directories other than the base have gone by the time they are to be
listed, and links do not resolve, for whatever reason. It finds just what it finds without the faults,
except what is strictly below a directory whose listing failed, and what is at or below a link that did
not resolve. None of it is found twice, and a sequential search finds it in the same order. A parallel
search comes to its end in whatever order its workers take their steps. -/
theorem faults_are_contained {d : Disk} (hd : d.Lawful) (s : Selection) (base : Path)
    {fs' : FileSystem} (hf : d.fileSystem.Falters fs' base) {strategy : Strategy} {r r' : Report}
    (hr : s.CanReport (s.begin base) d.fileSystem d.extent strategy r)
    (hr' : s.CanReport (s.begin base) fs' d.extent strategy r') (h : r.failure = none) :
    r'.failure = none ∧
      (∀ p, p ∈ r'.found ↔ p ∈ r.found ∧
        ¬Lost fs' ((s.sequential d.extent.depth base).run fs').asked p) ∧
      r'.found.Nodup ∧ (strategy = .sequential → r'.found.Sublist r.found) ∧
      s.ComesTo fs' d.extent base ((s.sequential d.extent.depth base).run fs') := by
  have hfs := Disk.tidy hd
  have hbase : ∀ t, ((s.begin base).run d.fileSystem).ending = .ok (some t) → t.relative = [] →
      t.path = base := fun t ht => path_of_begin hd ht
  obtain ⟨hok, hperm⟩ := CanReport.perm_sequential hd hr h
  obtain ⟨hok', hsub, hmem⟩ := sequential_of_falters hfs hf hbase hok
  have hcomes : s.ComesTo fs' d.extent base ((s.sequential d.extent.depth base).run fs') :=
    comesTo_of_falters hfs hf hbase hok fun t => Disk.cost_visit_le d s _ t
  obtain ⟨hnone', hperm'⟩ := hcomes.perm_of_canReport hok' hr'
  refine ⟨hnone', fun p => ?_, ?_, ?_, hcomes⟩
  · rw [hperm'.mem_iff, hperm.mem_iff, hmem]
  · exact hperm'.nodup_iff.mpr (nodup_sequential (hf.tidy hfs) hok').1
  · rintro rfl
    obtain rfl := hr
    obtain rfl := hr'
    exact hsub

/-- The directory `/a` has gone, and `/home/self` is refused. What is in `/a` is still found through the
link `/home`. -/
theorem faults_are_contained_in_circular :
    ∃ (faults : List Fault) (r r' : Report),
      Disk.circular.fileSystem.Falters (Disk.circular.fileSystem.withFaults faults) .root ∧
      r = everything.search .sequential Disk.circular.fileSystem Disk.circular.extent .root ∧
      r' = everything.search .sequential (Disk.circular.fileSystem.withFaults faults)
        Disk.circular.extent .root ∧
      r.failure = none ∧ r'.failure = none ∧
      r.found = ["/a", "/home", "/a/b", "/a/self", "/a/b/up", "/home/b", "/home/self",
        "/home/b/up"].map (Path.ofText ·.toList) ∧
      r'.found = ["/a", "/home", "/home/b", "/home/b/up"].map (Path.ofText ·.toList) ∧
      ∀ p, p ∈ r'.found ↔ p ∈ r.found ∧ ¬Lost (Disk.circular.fileSystem.withFaults faults)
        ((everything.sequential Disk.circular.extent.depth .root).run
          (Disk.circular.fileSystem.withFaults faults)).asked p := by
  have hd : Disk.circular.Lawful := by decide
  obtain ⟨faults, hfaults⟩ : ∃ faults : List Fault, faults =
    [⟨.list, .ofText "/a".toList, .notFound⟩,
      ⟨.resolve, .ofText "/home/self".toList, .permissionDenied⟩] := ⟨_, rfl⟩
  have hf : Disk.circular.fileSystem.Falters (Disk.circular.fileSystem.withFaults faults) .root :=
    FileSystem.falters_withFaults _ (by subst hfaults; decide)
  have hnone : (everything.search .sequential Disk.circular.fileSystem Disk.circular.extent
      .root).failure = none := by decide +kernel
  obtain ⟨hnone', hmem, -⟩ := faults_are_contained hd everything .root hf
    (canReport_search everything _ _ .sequential .root)
    (canReport_search everything _ _ .sequential .root) hnone
  refine ⟨faults, _, _, hf, rfl, rfl, hnone, hnone', by decide +kernel, ?_, hmem⟩
  subst hfaults
  decide +kernel

end Selection

end TreeGlob
