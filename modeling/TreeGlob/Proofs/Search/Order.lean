import TreeGlob.Proofs.Search.Descent

/-!
Which directories a sequential search visits, and in which order. This is told for any file system
that is tidy, so that it holds of a disk and of one with faults.

* `FileSystem.Tidy` asks for little: no name is listed twice in a directory, and a link that cannot be
  resolved is an error.
* `Task.next`, `Task.finds` and `Task.asks` are what a visit that comes to an end gives, reports and
  asks.
* `Selection.order` are the tasks that are visited, in order. `run_visitAll_of_ok` reads a whole search
  off them.
* `Task.Comes` names a task by the way to it, and there is only one at the end of a way
  (`Comes.unique`). `mem_order` says that the tasks visited are those that a way comes to.
* `nodup_order` and `nodup_found` say that nothing is listed or found twice.
-/
namespace TreeGlob

/-! ## Tidy file systems -/

namespace FileSystem

/-- The entries of a directory; none if it cannot be listed. -/
def entries (fs : FileSystem) (p : Path) : List Child :=
  match fs (.list p) with
  | .ok children => children
  | .error _ | .crash => []

/-- Visitable names could be names, no name is listed twice, and no link makes the file system die. -/
structure Tidy (fs : FileSystem) : Prop where
  named : ∀ p, ∀ c ∈ fs.entries p, c.name ≠ [] ∧ separator ∉ c.name
  apart : ∀ p, ((fs.entries p).map (·.name)).Nodup
  survives : ∀ p, fs (.resolve p) ≠ .crash

theorem entries_of_list {fs : FileSystem} {p : Path} {children : List Child}
    (h : fs (.list p) = .ok children) : fs.entries p = children := by
  simp [entries, h]

theorem Tidy.unique {fs : FileSystem} (hfs : fs.Tidy) {p : Path} {c c' : Child}
    (hc : c ∈ fs.entries p) (hc' : c' ∈ fs.entries p) (h : c.name = c'.name) : c = c' :=
  List.inj_on_of_nodup_map (hfs.apart p) hc hc' h

/-- Nothing is twice among what different entries have, if it tells by the name whose it is. -/
theorem Tidy.nodup_flatMap {fs : FileSystem} (hfs : fs.Tidy) {α : Type} {f : Child → List α} (p : Path)
    (hf : ∀ c, (f c).length ≤ 1)
    (hname : ∀ c ∈ fs.entries p, ∀ c' ∈ fs.entries p, ∀ a ∈ f c, a ∈ f c' → c.name = c'.name) :
    ((fs.entries p).flatMap f).Nodup := by
  refine List.nodup_flatMap.mpr ⟨fun c _ => ?_, (List.pairwise_map.mp (hfs.apart p)).imp_of_mem ?_⟩
  · match f c, hf c with
    | [], _ => exact List.nodup_nil
    | [a], _ => exact List.nodup_singleton a
  · exact fun hc hc' hne a ha ha' => hne (hname _ hc _ hc' a ha ha')

end FileSystem

theorem Disk.tidy {d : Disk} (hd : d.Lawful) : d.fileSystem.Tidy := by
  have hentries : ∀ p, d.fileSystem.entries p = [] ∨
      ∃ place, d.fileSystem.entries p = (d.children place).map fun c => Child.ofEntry c.1 c.2 := by
    intro p
    cases hl : d.fileSystem (.list p) with
    | ok children =>
      obtain ⟨place, -, -, rfl, -⟩ := Disk.list_cases (Disk.answer_eq_ok.mp hl)
      exact .inr ⟨place, FileSystem.entries_of_list hl⟩
    | error | crash => exact .inl (by simp [FileSystem.entries, hl])
  refine ⟨fun p => ?_, fun p => ?_, fun p => ?_⟩
  · rcases hentries p with h | ⟨place, h⟩
    · simp [h]
    · rw [h, List.forall_mem_map]
      rintro ⟨n, e⟩ hn
      have hname := hd (place ++ [n]) (by simp [Disk.mem_children.mp hn]) n (by simp)
      exact ⟨hname.ne_nil, hname.separator_not_mem⟩
  · rcases hentries p with h | ⟨place, h⟩
    · simp [h]
    · rw [h, List.map_map]
      exact d.nodup_children place
  · show d.resolve p ≠ .crash
    unfold Disk.resolve
    split
    · simp
    · exact Disk.answer_ne_crash _ _
    · simp

/-! ## One visit -/

namespace Task

variable {fs : FileSystem} {s : Selection} {t u v : Task} {c : Text} {way more : List Text}

def next (s : Selection) (fs : FileSystem) (t : Task) : List Task :=
  (fs.entries t.path).flatMap (t.subtasks s fs)

def finds (s : Selection) (fs : FileSystem) (t : Task) : List Path :=
  (fs.entries t.path).flatMap (t.reports s fs)

def asks (s : Selection) (fs : FileSystem) (t : Task) : List Query :=
  .list t.path :: (fs.entries t.path).flatMap (t.questions s fs)

theorem listedIn_asks (s : Selection) (fs : FileSystem) (t : Task) :
    listedIn (t.asks s fs) = [t.path] := by
  show t.path :: listedIn _ = _
  rw [t.listedIn_questions]

/-- The directory can be listed, or it has gone, and is not the one that the search began with. -/
def Visitable (fs : FileSystem) (t : Task) : Prop :=
  (∃ children, fs (.list t.path) = .ok children) ∨
    t.relative ≠ [] ∧ ∃ e, fs (.list t.path) = .error e ∧ e.isNotFound = true

theorem run_visit_of_visitable (hfs : fs.Tidy) (h : t.Visitable fs) :
    (t.visit s).run fs = ⟨t.finds s fs, t.asks s fs, .ok (t.next s fs)⟩ := by
  rcases h with ⟨children, hl⟩ | ⟨hne, e, hl, he⟩
  · rw [finds, asks, next, FileSystem.entries_of_list hl]
    exact run_visit hl fun c _ _ => hfs.survives _
  · have hnil : fs.entries t.path = [] := by simp [FileSystem.entries, hl]
    rw [finds, asks, next, hnil]
    simp [visit, Dialogue.query, Dialogue.run, hl, he, hne]

theorem visitable_of_visit {tasks : List Task} (h : ((t.visit s).run fs).ending = .ok tasks) :
    t.Visitable fs := by
  cases hl : fs (.list t.path) with
  | ok children => exact .inl ⟨children, hl⟩
  | crash => simp [visit, Dialogue.query, Dialogue.run, hl] at h
  | error e =>
    by_cases hgone : e.isNotFound = true ∧ ¬t.relative = []
    · exact .inr ⟨hgone.2, e, hl, hgone.1⟩
    · simp [visit, Dialogue.query, Dialogue.run, hl, hgone] at h

theorem eq_next_of_visit (hfs : fs.Tidy) {tasks : List Task}
    (h : ((t.visit s).run fs).ending = .ok tasks) : tasks = t.next s fs := by
  rw [run_visit_of_visitable hfs (visitable_of_visit h)] at h
  exact (Except.ok.inj h).symm

theorem ends_next (hfs : fs.Tidy) {depth : Nat} (h : s.Ends fs (depth + 1) (t.visit s)) :
    ∀ u ∈ t.next s fs, s.Ends fs depth (u.visit s) := by
  intro u hu
  cases hl : fs (.list t.path) with
  | ok children =>
    have hrun := run_visit_of_visitable (s := s) hfs (t := t) (.inl ⟨children, hl⟩)
    exact h _ (congrArg Transcript.ending hrun) u hu
  | error | crash => simp [next, FileSystem.entries, hl] at hu

/-! ## Ways -/

/-- The visit gives `u` for the entry named `c`. -/
def Gives (s : Selection) (fs : FileSystem) (t : Task) (c : Text) (u : Task) : Prop :=
  ∃ child ∈ fs.entries t.path, child.name = Utf8.encode c ∧ u ∈ t.subtasks s fs child

theorem mem_next : u ∈ t.next s fs ↔ ∃ c, t.Gives s fs c u := by
  rw [next, List.mem_flatMap]
  refine ⟨?_, ?_⟩
  · rintro ⟨child, hchild, hu⟩
    obtain ⟨c, real, -, hname, -⟩ := mem_subtasks.mp hu
    exact ⟨c, child, hchild, Disk.decode?_eq_some.mp hname, hu⟩
  · rintro ⟨c, child, hchild, -, hu⟩
    exact ⟨child, hchild, hu⟩

theorem piece_of_entries (hfs : fs.Tidy) {p : Path} {child : Child} (h : child ∈ fs.entries p)
    (hname : child.name = Utf8.encode c) : c ≠ [] ∧ '/' ∉ c :=
  piece_of_encode (hname ▸ hfs.named p child h)

theorem Gives.piece (hfs : fs.Tidy) (h : t.Gives s fs c u) : c ≠ [] ∧ '/' ∉ c := by
  obtain ⟨child, hchild, hname, -⟩ := h
  exact piece_of_entries hfs hchild hname

theorem Gives.entered (h : t.Gives s fs c u) :
    s.hides c = false ∧ (s.verdict (t.relative ++ c)).prune = false ∧
      ∃ real, u = t.enter (Utf8.encode c) c real := by
  obtain ⟨child, -, hname, hu⟩ := h
  obtain ⟨name, real, -, hdecode, hh, -, hprune, -, rfl⟩ := mem_subtasks.mp hu
  obtain rfl := Utf8.encode_injective (hname.symm.trans (Disk.decode?_eq_some.mp hdecode))
  exact ⟨hh, hprune, real, by rw [hname]⟩

theorem Gives.eq_enter (h : t.Gives s fs c u) : ∃ real, u = t.enter (Utf8.encode c) c real :=
  h.entered.2.2

theorem Gives.unique (hfs : fs.Tidy) (hu : t.Gives s fs c u) (hv : t.Gives s fs c v) : u = v := by
  obtain ⟨child, hchild, hname, hu⟩ := hu
  obtain ⟨child', hchild', hname', hv⟩ := hv
  obtain rfl := hfs.unique hchild hchild' (hname.trans hname'.symm)
  match t.subtasks s fs child, t.length_subtasks_le s fs child, hu, hv with
  | [w], _, hu, hv => exact (List.mem_singleton.mp hu).trans (List.mem_singleton.mp hv).symm

/-- A search that visits `t` comes to `u` by the names on the way. -/
def Comes (s : Selection) (fs : FileSystem) : Task → List Text → Task → Prop
  | t, [], u => u = t
  | t, c :: way, u => ∃ next, t.Gives s fs c next ∧ next.Comes s fs way u

theorem comes_append :
    t.Comes s fs (way ++ more) u ↔ ∃ v, t.Comes s fs way v ∧ v.Comes s fs more u := by
  induction way generalizing t with
  | nil =>
    refine ⟨fun h => ⟨t, rfl, h⟩, ?_⟩
    rintro ⟨v, rfl, h⟩
    exact h
  | cons c way ih =>
    refine ⟨?_, ?_⟩
    · rintro ⟨next, hnext, h⟩
      obtain ⟨v, hv, h⟩ := ih.mp h
      exact ⟨v, ⟨next, hnext, hv⟩, h⟩
    · rintro ⟨v, ⟨next, hnext, hv⟩, h⟩
      exact ⟨next, hnext, ih.mpr ⟨v, hv, h⟩⟩

theorem Comes.pieces (hfs : fs.Tidy) (h : t.Comes s fs way u) : Pieces way := by
  induction way generalizing t with
  | nil => exact fun _ hc => by cases hc
  | cons c way ih =>
    obtain ⟨next, hnext, h⟩ := h
    exact List.forall_mem_cons.mpr ⟨hnext.piece hfs, ih h⟩

theorem Comes.path_eq (h : t.Comes s fs way u) : u.path = t.path.descend way := by
  induction way generalizing t with
  | nil => exact congrArg Task.path h
  | cons c way ih =>
    obtain ⟨next, hnext, h⟩ := h
    obtain ⟨real, rfl⟩ := hnext.eq_enter
    exact ih h

theorem Comes.unique (hfs : fs.Tidy) (hu : t.Comes s fs way u) (hv : t.Comes s fs way v) : u = v := by
  induction way generalizing t with
  | nil => exact Eq.trans hu (Eq.symm hv)
  | cons c way ih =>
    obtain ⟨next, hnext, hu⟩ := hu
    obtain ⟨next', hnext', hv⟩ := hv
    obtain rfl := hnext.unique hfs hnext'
    exact ih hu hv

end Task

/-! ## All visits -/

namespace Selection

variable {fs : FileSystem} {s : Selection} {t u : Task} {depth : Nat}

/-- The tasks that are visited when `t` is visited with all it leads to, in order. -/
def order (s : Selection) (fs : FileSystem) : (depth : Nat) → Task → List Task
  | 0, _ => []
  | depth + 1, t => t :: (t.next s fs).flatMap (s.order fs depth)

/-- A visit with all that it leads to comes to an end if it does not lead too deep and every directory
can be listed or has gone. It does what the visits do, one after the other. -/
theorem run_visitAll_of_visitable (hfs : fs.Tidy) (hends : s.Ends fs depth (t.visit s))
    (h : ∀ u ∈ s.order fs depth t, u.Visitable fs) : (s.visitAll depth t).run fs =
      ⟨(s.order fs depth t).flatMap (·.finds s fs), (s.order fs depth t).flatMap (·.asks s fs),
        .ok ()⟩ := by
  induction depth generalizing t with
  | zero => exact hends.elim
  | succ depth ih =>
    obtain ⟨ht, hnext⟩ := List.forall_mem_cons.mp h
    have hsub : ∀ u ∈ t.next s fs, (s.visitAll depth u).run fs =
        ⟨(s.order fs depth u).flatMap (·.finds s fs), (s.order fs depth u).flatMap (·.asks s fs),
          .ok ()⟩ := fun u hu =>
      ih (Task.ends_next hfs hends u hu) fun v hv => hnext v (List.mem_flatMap.mpr ⟨u, hu, hv⟩)
    have hall := run_forM fun u hu => congrArg Transcript.ending (hsub u hu)
    rw [visitAll, Dialogue.run_bind, Task.run_visit_of_visitable hfs ht, Transcript.andThen_ok, hall,
      order, List.flatMap_cons, List.flatMap_cons, List.flatMap_assoc, List.flatMap_assoc]
    congr 2
    · exact List.flatMap_congr fun u hu => by rw [hsub u hu]
    · exact List.flatMap_congr fun u hu => by rw [hsub u hu]

/-- A visit that comes to an end with all that it leads to does not lead too deep, and every directory
could be listed or had gone. -/
theorem visitable_of_visitAll (hfs : fs.Tidy) (h : ((s.visitAll depth t).run fs).ending = .ok ()) :
    s.Ends fs depth (t.visit s) ∧ ∀ u ∈ s.order fs depth t, u.Visitable fs := by
  induction depth generalizing t with
  | zero => cases h
  | succ depth ih =>
    obtain ⟨tasks, hv, h⟩ := Dialogue.ending_bind_eq_ok.mp h
    obtain rfl := Task.eq_next_of_visit hfs hv
    have hall := fun u hu => ih (forM_eq_ok.mp h u hu)
    refine ⟨fun tasks' hv' u hu => ?_,
      List.forall_mem_cons.mpr ⟨Task.visitable_of_visit hv, fun v hv => ?_⟩⟩
    · exact (hall u (Task.eq_next_of_visit hfs hv' ▸ hu)).1
    · obtain ⟨u, hu, hv⟩ := List.mem_flatMap.mp hv
      exact (hall u hu).2 v hv

theorem run_visitAll_of_ok (hfs : fs.Tidy) (h : ((s.visitAll depth t).run fs).ending = .ok ()) :
    (s.visitAll depth t).run fs = ⟨(s.order fs depth t).flatMap (·.finds s fs),
      (s.order fs depth t).flatMap (·.asks s fs), .ok ()⟩ := by
  obtain ⟨hends, hvisitable⟩ := visitable_of_visitAll hfs h
  exact run_visitAll_of_visitable hfs hends hvisitable

theorem comes_of_order (h : u ∈ s.order fs depth t) : ∃ way, t.Comes s fs way u := by
  induction depth generalizing t with
  | zero => cases h
  | succ depth ih =>
    rw [order, List.mem_cons, List.mem_flatMap] at h
    rcases h with rfl | ⟨v, hv, hu⟩
    · exact ⟨[], rfl⟩
    · obtain ⟨way, hway⟩ := ih hu
      obtain ⟨c, hc⟩ := Task.mem_next.mp hv
      exact ⟨c :: way, v, hc, hway⟩

/-- The tasks that are visited are those that some way comes to. -/
theorem mem_order (hfs : fs.Tidy) (hends : s.Ends fs depth (t.visit s)) :
    u ∈ s.order fs depth t ↔ ∃ way, t.Comes s fs way u := by
  refine ⟨comes_of_order, ?_⟩
  induction depth generalizing t with
  | zero => exact hends.elim
  | succ depth ih =>
    have hnext := Task.ends_next hfs hends
    rw [order, List.mem_cons, List.mem_flatMap]
    rintro ⟨way, hway⟩
    cases way with
    | nil => exact .inl hway
    | cons c way =>
      obtain ⟨v, hv, hway⟩ := hway
      have hmem := Task.mem_next.mpr ⟨c, hv⟩
      exact .inr ⟨v, hmem, ih (hnext v hmem) ⟨way, hway⟩⟩

theorem relative_ne_nil_of_comes {way : List Text} (h : t.Comes s fs way u) :
    u = t ∨ u.relative ≠ [] := by
  induction way generalizing t with
  | nil => exact .inl h
  | cons c way ih =>
    obtain ⟨next, hnext, h⟩ := h
    obtain ⟨real, rfl⟩ := hnext.eq_enter
    rcases ih h with rfl | hne
    · exact .inr (by simp [Task.enter])
    · exact .inr hne

theorem path_of_order {base : Path} (hfs : fs.Tidy) (hends : s.Ends fs depth (t.visit s))
    (hbase : t.relative = [] → t.path = base) (hu : u ∈ s.order fs depth t) (hnil : u.relative = []) :
    u.path = base := by
  obtain ⟨way, hway⟩ := (mem_order hfs hends).mp hu
  cases relative_ne_nil_of_comes hway with
  | inl hfirst => exact hfirst ▸ hbase (hfirst ▸ hnil)
  | inr hne => exact absurd hnil hne

/-! ## Nothing comes twice -/

theorem nodup_next (hfs : fs.Tidy) (s : Selection) (t : Task) : (t.next s fs).Nodup := by
  refine hfs.nodup_flatMap _ (t.length_subtasks_le s fs) fun c hc c' hc' u hu hu' => ?_
  obtain ⟨x, real, -, hx, -, -, -, -, rfl⟩ := Task.mem_subtasks.mp hu
  obtain ⟨y, real', -, hy, -, -, -, -, he⟩ := Task.mem_subtasks.mp hu'
  rw [Disk.decode?_eq_some.mp hx, Disk.decode?_eq_some.mp hy]
  have hxy : x = y := by simpa [Task.enter] using congrArg Task.relative he
  rw [hxy]

theorem nodup_order (hfs : fs.Tidy) (s : Selection) (depth : Nat) (t : Task) :
    ((s.order fs depth t).map (·.path)).Nodup := by
  induction depth generalizing t with
  | zero => exact List.nodup_nil
  | succ depth ih =>
    -- Whatever is visited after the first is at the end of a way that begins with its name.
    have hway : ∀ u ∈ t.next s fs, ∀ p ∈ (s.order fs depth u).map (·.path), ∃ c way,
        t.Gives s fs c u ∧ Pieces (c :: way) ∧ p = t.path.descend (c :: way) := by
      intro u hu p hp
      obtain ⟨v, hv, rfl⟩ := List.mem_map.mp hp
      obtain ⟨c, hc⟩ := Task.mem_next.mp hu
      obtain ⟨way, hway⟩ := comes_of_order hv
      have hcomes : t.Comes s fs (c :: way) v := ⟨u, hc, hway⟩
      exact ⟨c, way, hc, hcomes.pieces hfs, hcomes.path_eq⟩
    rw [order, List.map_cons, List.map_flatMap, List.nodup_cons]
    refine ⟨fun hp => ?_, List.nodup_flatMap.mpr ⟨fun u _ => ih u, ?_⟩⟩
    · obtain ⟨u, hu, hp⟩ := List.mem_flatMap.mp hp
      obtain ⟨c, way, -, hpieces, he⟩ := hway u hu _ hp
      have hnil : Pieces [] := by simp [Pieces]
      cases Path.descend_injective hnil hpieces he
    · refine (nodup_next hfs s t).imp_of_mem fun hu hv hne p hp hp' => ?_
      obtain ⟨c, way, hc, hpieces, rfl⟩ := hway _ hu p hp
      obtain ⟨c', way', hc', hpieces', he⟩ := hway _ hv _ hp'
      obtain ⟨rfl, -⟩ := List.cons.inj (Path.descend_injective hpieces hpieces' he)
      exact hne (hc.unique hfs hc')

theorem listedIn_order (s : Selection) (fs : FileSystem) (tasks : List Task) :
    listedIn (tasks.flatMap (·.asks s fs)) = tasks.map (·.path) := by
  induction tasks with
  | nil => rfl
  | cons t tasks ih =>
    rw [List.flatMap_cons, listedIn_append, ih, Task.listedIn_asks]
    rfl

theorem mem_finds {p : Path} : p ∈ t.finds s fs ↔ ∃ c child, child ∈ fs.entries t.path ∧
    child.name = Utf8.encode c ∧ p ∈ t.reports s fs child ∧ p = t.path.child (Utf8.encode c) := by
  rw [Task.finds, List.mem_flatMap]
  refine ⟨?_, ?_⟩
  · rintro ⟨child, hchild, hp⟩
    obtain ⟨c, hname, -, -, -, hpath⟩ := Task.mem_reports.mp hp
    have hname := Disk.decode?_eq_some.mp hname
    exact ⟨c, child, hchild, hname, hp, hname ▸ hpath⟩
  · rintro ⟨c, child, hchild, -, hp, -⟩
    exact ⟨child, hchild, hp⟩

theorem nodup_finds (hfs : fs.Tidy) (s : Selection) (t : Task) : (t.finds s fs).Nodup := by
  refine hfs.nodup_flatMap _ (t.length_reports_le s fs) fun c hc c' hc' p hp hp' => ?_
  obtain ⟨x, hx, -, -, -, rfl⟩ := Task.mem_reports.mp hp
  obtain ⟨y, hy, -, -, -, he⟩ := Task.mem_reports.mp hp'
  rw [Disk.decode?_eq_some.mp hx] at he ⊢
  rw [Disk.decode?_eq_some.mp hy] at he ⊢
  have hpx := Task.piece_of_entries hfs hc (Disk.decode?_eq_some.mp hx)
  have hpy := Task.piece_of_entries hfs hc' (Disk.decode?_eq_some.mp hy)
  have he : t.path.descend [x] = t.path.descend [y] := he
  rw [(List.cons.inj (Path.descend_injective (by simpa [Pieces] using hpx)
    (by simpa [Pieces] using hpy) he)).1]

theorem nodup_found (hfs : fs.Tidy) (s : Selection) (depth : Nat) (t : Task) :
    ((s.order fs depth t).flatMap (·.finds s fs)).Nodup := by
  refine List.nodup_flatMap.mpr ⟨fun u _ => nodup_finds hfs s u, ?_⟩
  have hapart := List.pairwise_map.mp (nodup_order hfs s depth t)
  refine hapart.imp_of_mem fun {u v} hu hv hne p hp hp' => ?_
  obtain ⟨way, hway⟩ := comes_of_order hu
  obtain ⟨way', hway'⟩ := comes_of_order hv
  obtain ⟨c, child, hchild, hname, -, rfl⟩ := mem_finds.mp hp
  obtain ⟨c', child', hchild', hname', -, he⟩ := mem_finds.mp hp'
  have hpieces : Pieces (way ++ [c]) := List.forall_mem_append.mpr ⟨hway.pieces hfs,
    List.forall_mem_singleton.mpr (Task.piece_of_entries hfs hchild hname)⟩
  have hpieces' : Pieces (way' ++ [c']) := List.forall_mem_append.mpr ⟨hway'.pieces hfs,
    List.forall_mem_singleton.mpr (Task.piece_of_entries hfs hchild' hname')⟩
  -- The same path is at the end of both ways, so they come to the same directory.
  have he : t.path.descend (way ++ [c]) = t.path.descend (way' ++ [c']) := by
    rw [Path.descend_append, Path.descend_append, ← hway.path_eq, ← hway'.path_eq]
    exact he
  obtain ⟨rfl, -⟩ := List.append_inj' (Path.descend_injective hpieces hpieces' he) rfl
  exact hne (by rw [hway.path_eq, hway'.path_eq])

end Selection

end TreeGlob
