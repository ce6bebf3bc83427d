import Mathlib.Data.List.Flatten
import TreeGlob.Proofs.Search.Filtering
import TreeGlob.Proofs.Search.Strategies

/-!
Sorting what a search found.

* `Path.key_descend_injective` says that different ways down from a path are sorted apart.
* `Path.sort_ascending` says that distinct paths are strictly ascending once they are sorted.
* `FileSystem.Named` says that listed names are such as entries have. A disk is named so, also with faults.
* `Selection.found_visitAll_sublist` says that a search finds what its visits find, in order, up to where
  it breaks off, if it does.
* `Selection.distinct_found` says that no two paths that a search finds count as equal, also when it
  breaks off.
-/
namespace TreeGlob

/-! ## The order of paths -/

namespace Path

variable {p : Path} {way other : List Text} {ps : List Path}

theorem Component.key_injective : Function.Injective Component.key := by
  intro c c' h
  cases c <;> cases c' <;> simp_all [Component.key]

theorem components_eq_of_key {q : Path} (h : p.key = q.key) : p.components = q.components :=
  List.map_injective_iff.mpr Component.key_injective h

theorem isAbsolute_descend (hp : p.isAbsolute = true) (h : Pieces way) :
    (p.descend way).isAbsolute = true := by
  induction way generalizing p with
  | nil => exact hp
  | cons c way ih =>
    have hc := separator_not_mem_encode (h c List.mem_cons_self).2
    exact ih (isAbsolute_child hp hc) fun x hx => h x (List.mem_cons_of_mem c hx)

theorem components_descend (hp : p.isAbsolute = true) (h : ∀ c ∈ way, ProperName (Utf8.encode c)) :
    (p.descend way).components = p.components ++ way.map fun c => .name (Utf8.encode c) := by
  induction way generalizing p with
  | nil => simp
  | cons c way ih =>
    have hc := h c List.mem_cons_self
    rw [descend_cons, ih (isAbsolute_child hp hc.separator_not_mem)
      (fun x hx => h x (List.mem_cons_of_mem c hx)), components_child hp hc]
    simp

theorem key_descend_injective (hp : p.isAbsolute = true) (h : ∀ c ∈ way, ProperName (Utf8.encode c))
    (h' : ∀ c ∈ other, ProperName (Utf8.encode c))
    (hkey : (p.descend way).key = (p.descend other).key) : way = other := by
  have hcomponents := components_eq_of_key hkey
  rw [components_descend hp h, components_descend hp h', List.append_cancel_left_eq] at hcomponents
  refine List.map_injective_iff.mpr (fun x y hxy => ?_) hcomponents
  exact Utf8.encode_injective (Component.name.inj hxy)

theorem sort_perm (ps : List Path) : (sort ps).Perm ps := List.mergeSort_perm _ _

theorem sort_pairwise_le (ps : List Path) : (sort ps).Pairwise fun p q => p.key ≤ q.key := by
  have htrans : ∀ p q r : Path, decide (p.key ≤ q.key) = true → decide (q.key ≤ r.key) = true →
      decide (p.key ≤ r.key) = true := by
    intro p q r hpq hqr
    simp only [decide_eq_true_eq] at hpq hqr ⊢
    exact Std.le_trans hpq hqr
  have htotal : ∀ p q : Path, (decide (p.key ≤ q.key) || decide (q.key ≤ p.key)) = true := by
    intro p q
    simp only [Bool.or_eq_true, decide_eq_true_eq]
    exact Std.le_total
  have hsorted := List.pairwise_mergeSort htrans htotal ps
  simpa [sort] using hsorted

theorem sort_ascending (h : (ps.map key).Nodup) : (sort ps).Pairwise fun p q => p.key < q.key := by
  have hdistinct : (sort ps).Pairwise fun p q => p.key ≠ q.key :=
    List.pairwise_map.mp (((sort_perm ps).map key).nodup_iff.mpr h)
  exact (sort_pairwise_le ps).imp₂ (fun p q hle hne => Std.lt_of_le_of_ne hle hne) hdistinct

theorem sort_eq_of_ascending {qs : List Path} (h : qs.Pairwise fun p q => p.key < q.key)
    (hperm : qs.Perm ps) : sort ps = qs := by
  have hapart : qs.Pairwise fun p q => p.key ≠ q.key := by
    refine h.imp ?_
    intro p q hlt heq
    rw [heq] at hlt
    exact Std.lt_irrefl hlt
  have hdistinct : (ps.map key).Nodup := (hperm.map key).nodup_iff.mp (List.pairwise_map.mpr hapart)
  refine List.Perm.eq_of_pairwise ?_ (sort_ascending hdistinct) h ((sort_perm ps).trans hperm.symm)
  intro p q _ _ hpq hqp
  exact (List.lt_asymm hpq hqp).elim

end Path

/-! ## Names that are listed -/

namespace FileSystem

variable {fs : FileSystem} {faults : List Fault}

/-- Listed names are such as entries have. -/
def Named (fs : FileSystem) : Prop := ∀ p, ∀ c ∈ fs.entries p, ProperName c.name

theorem Tidy.honest (hfs : fs.Tidy) (q : Query) : q.Honest (fs q) := by
  cases q with
  | list p => exact fun children hl c hc => hfs.named p c (entries_of_list hl ▸ hc)
  | resolve | canonicalize | leads | isDirectory => trivial

theorem entries_withFaults (fs : FileSystem) (faults : List Fault) (p : Path) :
    (fs.withFaults faults).entries p = fs.entries p ∨ (fs.withFaults faults).entries p = [] := by
  rcases orFault_cases faults .list p (fs (.list p)) with hsame | ⟨f, -, -, -, hanswer⟩
  · left
    have hlist : fs.withFaults faults (.list p) = fs (.list p) := hsame
    rw [entries, entries, hlist]
  · right
    have hlist : fs.withFaults faults (.list p) = f.answer p := hanswer
    rw [entries, hlist, Fault.answer]
    cases f.kind <;> rfl

theorem Tidy.withFaults (hfs : fs.Tidy) (h : ∀ f ∈ faults, f.kind ≠ .crash) :
    (fs.withFaults faults).Tidy where
  named p := by
    rcases fs.entries_withFaults faults p with hsame | hnone
    · exact hsame ▸ hfs.named p
    · simp [hnone]
  apart p := by
    rcases fs.entries_withFaults faults p with hsame | hnone
    · exact hsame ▸ hfs.apart p
    · simp [hnone]
  survives p := by
    show orFault faults .resolve p (fs (.resolve p)) ≠ .crash
    rcases orFault_cases faults .resolve p (fs (.resolve p)) with hsame | ⟨f, hf, -, -, hanswer⟩
    · rw [hsame]
      exact hfs.survives p
    · rw [hanswer, Fault.answer]
      cases hk : f.kind with
      | crash => exact (h f hf hk).elim
      | permissionDenied | notFound | io => simp

theorem Named.withFaults (hfs : fs.Named) (faults : List Fault) : (fs.withFaults faults).Named := by
  intro p
  rcases fs.entries_withFaults faults p with hsame | hnone
  · exact hsame ▸ hfs p
  · simp [hnone]

end FileSystem

theorem Disk.named {d : Disk} (hd : d.Lawful) : d.fileSystem.Named := by
  intro p c hc
  cases hl : d.fileSystem (.list p) with
  | ok children =>
    rw [FileSystem.entries_of_list hl] at hc
    obtain ⟨place, -, -, rfl, -⟩ := Disk.list_cases (Disk.answer_eq_ok.mp hl)
    obtain ⟨row, hrow, rfl⟩ := List.mem_map.mp hc
    exact DirectoryAt.properName hd (mem_children.mp hrow)
  | error | crash => simp [FileSystem.entries, hl] at hc

/-! ## What a search has found when it breaks off -/

namespace Selection

variable {fs : FileSystem} {s : Selection} {t : Task} {depth : Nat} {base : Path}

theorem found_visit_sublist (hfs : fs.Tidy) : ((t.visit s).run fs).found.Sublist (t.finds s fs) := by
  by_cases h : t.Visitable fs
  · rw [Task.run_visit_of_visitable hfs h]
  · have hnone : ((t.visit s).run fs).found = [] := by
      cases hl : fs (.list t.path) with
      | ok children => exact (h (.inl ⟨children, hl⟩)).elim
      | crash => simp [Task.visit, Dialogue.query, Dialogue.run, hl]
      | error e =>
        have hstays : ¬(e.isNotFound = true ∧ ¬t.relative = []) :=
          fun hgone => h (.inr ⟨hgone.2, e, hl, hgone.1⟩)
        simp [Task.visit, Dialogue.query, Dialogue.run, hl, hstays]
    rw [hnone]
    exact List.nil_sublist _

theorem found_forM_sublist {tasks : List Task} {visit : Task → Dialogue Unit} :
    ((tasks.forM visit).run fs).found.Sublist (tasks.flatMap fun u => ((visit u).run fs).found) := by
  induction tasks with
  | nil => exact List.Sublist.refl _
  | cons u tasks ih =>
    rw [List.flatMap_cons, forM_cons, Dialogue.run_bind, Transcript.andThen]
    cases ((visit u).run fs).ending with
    | error why => exact List.sublist_append_left _ _
    | ok _ => exact ih.append_left _

/-- A search finds what its visits find, in order, as far as it comes. -/
theorem found_visitAll_sublist (hfs : fs.Tidy) (s : Selection) (depth : Nat) (t : Task) :
    ((s.visitAll depth t).run fs).found.Sublist ((s.order fs depth t).flatMap (·.finds s fs)) := by
  induction depth generalizing t with
  | zero => exact List.Sublist.refl _
  | succ depth ih =>
    rw [visitAll, order, List.flatMap_cons, List.flatMap_assoc, Dialogue.run_bind, Transcript.andThen]
    have hfirst := found_visit_sublist (s := s) (t := t) hfs
    cases hv : ((t.visit s).run fs).ending with
    | error why => exact hfirst.trans (List.sublist_append_left _ _)
    | ok tasks =>
      obtain rfl := Task.eq_next_of_visit hfs hv
      exact hfirst.append (found_forM_sublist.trans (List.Sublist.flatMap_right _ fun u _ => ih u))

theorem properName_of_comes (hnamed : fs.Named) {u : Task} {way : List Text}
    (h : t.Comes s fs way u) : ∀ c ∈ way, ProperName (Utf8.encode c) := by
  induction way generalizing t with
  | nil => exact fun c hc => by cases hc
  | cons c way ih =>
    obtain ⟨next, hnext, h⟩ := h
    obtain ⟨child, hchild, hname, -⟩ := hnext
    exact List.forall_mem_cons.mpr ⟨hname ▸ hnamed t.path child hchild, ih h⟩

/-- What is found lies below the first directory, at the end of a way through names of entries. -/
theorem descend_of_found (hnamed : fs.Named) {p : Path}
    (h : p ∈ (s.order fs depth t).flatMap (·.finds s fs)) :
    ∃ way, (∀ c ∈ way, ProperName (Utf8.encode c)) ∧ p = t.path.descend way := by
  obtain ⟨u, hu, hp⟩ := List.mem_flatMap.mp h
  obtain ⟨way, hway⟩ := comes_of_order hu
  obtain ⟨c, child, hchild, hname, -, rfl⟩ := mem_finds.mp hp
  refine ⟨way ++ [c], ?_, ?_⟩
  · exact List.forall_mem_append.mpr ⟨properName_of_comes hnamed hway,
      List.forall_mem_singleton.mpr (hname ▸ hnamed u.path child hchild)⟩
  · rw [Path.descend_append, ← hway.path_eq]
    rfl

theorem distinct_found (hfs : fs.Tidy) (hnamed : fs.Named) (hbase : base.isAbsolute = true) :
    (((s.sequential depth base).run fs).found.map Path.key).Nodup := by
  have hnothing := (onlyLooks_begin s base).found_eq_nil fs
  cases hs : ((s.begin base).run fs).ending with
  | error why =>
    rw [sequential, sequentialFrom, Dialogue.run_bind, Transcript.andThen, hs, hnothing]
    exact List.nodup_nil
  | ok start =>
    cases start with
    | none =>
      rw [run_sequential_of_none hs]
      exact List.nodup_nil
    | some t =>
      obtain ⟨down, hpieces, -, hpath, -⟩ := open_of_begin hfs.honest hs
      have habsolute : t.path.isAbsolute = true := by
        rw [hpath]
        exact Path.isAbsolute_descend hbase hpieces
      have hsublist := found_visitAll_sublist hfs s depth t
      rw [run_sequential_of_some hs]
      refine ((nodup_found hfs s depth t).sublist hsublist).map_on fun p hp q hq hkey => ?_
      obtain ⟨way, hway, rfl⟩ := descend_of_found hnamed (hsublist.subset hp)
      obtain ⟨way', hway', rfl⟩ := descend_of_found hnamed (hsublist.subset hq)
      rw [Path.key_descend_injective habsolute hway hway' hkey]

end Selection

end TreeGlob
