import TreeGlob.Proofs.Disk.Copying

/-!
Where an entry comes to be that is made at a path.

A path that leads nowhere still means a place, if nothing but its last names are missing: the directory
that the steps before them lead to, and the missing names below it. Links on the way are followed, but
the last name is not looked up.

* `Disk.Aims` is that place, and `Aims.unique` says that there is only one.
* `approaches_makeDirectories` says that all directories that are made for a path are on the way to that
  place, whatever comes out of it, and `aims_of_makeDirectories` that the path leads there in the end.
* `aims_of_copyFile` says that a file is copied to that place.
-/
namespace TreeGlob

namespace Disk

variable {d between made : Disk} {steps way more : List Step} {names rest : List Name} {n : Name}
  {m p q place : Place} {path source target : Path}

/-- The steps before the last name lead to the directory that the place is in. As soon as a name is
missing there, the names after it are below that one. -/
def Aims (d : Disk) (steps : List Step) (place : Place) : Prop :=
  ∃ way m n rest, steps = way ++ (n :: rest).map .name ∧ d.Leads [] way m ∧ d.get? m = some .dir ∧
    place = m ++ n :: rest ∧ (rest = [] ∨ d.get? (m ++ [n]) = none)

theorem get?_of_leads_past (h : d.Leads [] way m) (hq : d.Leads [] (way ++ .name n :: more) q) :
    d.get? (m ++ [n]) ≠ none := by
  obtain ⟨m', hfirst, hrest⟩ := hq.split
  obtain rfl := hfirst.unique h
  exact get?_of_leads_name hrest

theorem name_injective : Function.Injective Step.name := fun _ _ h => Step.name.inj h

theorem exists_names (hhere : .here ∉ steps) (hup : .up ∉ steps) :
    ∃ names : List Name, steps = names.map .name := by
  induction steps with
  | nil => exact ⟨[], rfl⟩
  | cons x steps ih =>
    rw [List.mem_cons, not_or] at hhere hup
    obtain ⟨names, rfl⟩ := ih hhere.2 hup.2
    cases x with
    | here => exact (hhere.1 rfl).elim
    | up => exact (hup.1 rfl).elim
    | name n => exact ⟨n :: names, rfl⟩

theorem names_cases {way' : List Step} {n' : Name} {rest' : List Name}
    (h : way ++ (n :: rest).map .name = way' ++ (n' :: rest').map .name) :
    (way = way' ∧ n = n' ∧ rest = rest') ∨
      (∃ more, way' = way ++ (n :: more).map .name ∧ rest = more ++ n' :: rest') ∨
      ∃ more, way = way' ++ (n' :: more).map .name ∧ rest' = more ++ n :: rest := by
  have hcut : ∀ {n n' : Name} {rest rest' : List Name} {more : List Step},
      (n :: rest).map .name = more ++ (n' :: rest').map .name →
        (more = [] ∧ n = n' ∧ rest = rest') ∨
          ∃ first, more = (n :: first).map .name ∧ rest = first ++ n' :: rest' := by
    intro n n' rest rest' more hnames
    obtain ⟨first, last, hsplit, rfl, hlast⟩ := List.map_eq_append_iff.mp hnames
    obtain rfl := List.map_injective_iff.mpr name_injective hlast
    obtain ⟨rfl, hcons⟩ | ⟨first, rfl, hrest⟩ := List.cons_eq_append_iff.mp hsplit
    · obtain ⟨rfl, rfl⟩ := List.cons.inj hcons
      exact .inl ⟨rfl, rfl, rfl⟩
    · exact .inr ⟨first, rfl, hrest⟩
  obtain ⟨more, rfl, hnames⟩ | ⟨more, rfl, hnames⟩ := List.append_eq_append_iff.mp h
  · obtain ⟨rfl, rfl, rfl⟩ | ⟨first, rfl, hrest⟩ := hcut hnames
    · exact .inl ⟨(List.append_nil way).symm, rfl, rfl⟩
    · exact .inr (.inl ⟨first, rfl, hrest⟩)
  · obtain ⟨rfl, rfl, rfl⟩ | ⟨first, rfl, hrest⟩ := hcut hnames
    · exact .inl ⟨List.append_nil way', rfl, rfl⟩
    · exact .inr (.inr ⟨first, rfl, hrest⟩)

theorem Aims.unique (h : d.Aims steps p) (h' : d.Aims steps q) : p = q := by
  obtain ⟨way, m, n, rest, rfl, hl, -, rfl, hfree⟩ := h
  obtain ⟨way', m', n', rest', hsteps, hl', -, rfl, hfree'⟩ := h'
  obtain ⟨rfl, rfl, rfl⟩ | ⟨more, rfl, rfl⟩ | ⟨more, rfl, rfl⟩ := names_cases hsteps
  · rw [hl.unique hl']
  · exact (get?_of_leads_past hl hl' (hfree.resolve_left (by simp))).elim
  · exact (get?_of_leads_past hl' hl (hfree'.resolve_left (by simp))).elim

/-- Once there are directories, the path leads to the place that it aimed at before. -/
theorem Aims.eq_of_leads (h : d.Aims steps place) (hnone : d.get? place = none)
    (hadds : d.AddsDirectories made) (hq : made.Leads [] steps q) : q = place := by
  obtain ⟨way, m, n, rest, rfl, hl, -, rfl, hfree⟩ := h
  have hn : d.get? (m ++ [n]) = none := by
    obtain rfl | hn := hfree
    · exact hnone
    · exact hn
  obtain ⟨m', hfirst, hlast⟩ := hq.split
  obtain rfl := hfirst.unique (hl.mono hadds.keeps.retains)
  exact (hadds.hollow_of_none hn).leads_names hlast

/-! ## Making directories -/

/-- Nothing changed, but there are directories on the way to where the steps aim. -/
structure Approaches (d : Disk) (steps : List Step) (made : Disk) : Prop where
  adds : d.AddsDirectories made
  on_way : ∀ q, made.get? q ≠ d.get? q → ∃ place, d.Aims steps place ∧ q <+: place

theorem Approaches.refl (d : Disk) (steps : List Step) : d.Approaches steps d :=
  ⟨.refl d, fun _ hq => (hq rfl).elim⟩

theorem Approaches.get?_cases (h : d.Approaches steps made) (hq : made.get? q ≠ d.get? q) :
    ∃ place, d.Aims steps place ∧ q <+: place ∧ d.get? q = none ∧ made.get? q = some .dir := by
  obtain ⟨place, haims, habove⟩ := h.on_way q hq
  exact ⟨place, haims, habove, (h.adds.get?_cases q).resolve_left hq⟩

theorem Approaches.get?_below (h : d.Approaches steps made) (haims : d.Aims steps place)
    (hnone : d.get? place = none) (n : Name) : made.get? (place ++ [n]) = none := by
  by_contra hthere
  have hfree : d.get? (place ++ [n]) = none := get?_of_under hnone (List.prefix_append _ _)
  obtain ⟨place', haims', habove⟩ := h.on_way _ (by rwa [hfree])
  rw [← haims.unique haims'] at habove
  exact (below_of_under habove).2 rfl

/-- A directory that is made at a name on the way is on the way to the place. -/
theorem Approaches.aims (h : d.Approaches (way ++ (n :: rest).map .name) between)
    (hl : between.Leads [] way m) (hm : between.get? m = some .dir)
    (hnone : between.get? (m ++ [n]) = none) :
    ∃ place, d.Aims (way ++ (n :: rest).map .name) place ∧ m ++ [n] <+: place := by
  by_cases haims : ∃ place, d.Aims (way ++ (n :: rest).map .name) place
  · obtain ⟨place, haims⟩ := haims
    refine ⟨place, haims, ?_⟩
    obtain ⟨way', m', n', rest', hsteps, hl', -, rfl, hfree⟩ := haims
    have hl' := hl'.mono h.adds.keeps.retains
    obtain ⟨rfl, rfl, rfl⟩ | ⟨more, rfl, -⟩ | ⟨more, rfl, rfl⟩ := names_cases hsteps
    · rw [hl.unique hl']
      exact ⟨rest, by simp⟩
    · exact (get?_of_leads_past hl hl' hnone).elim
    · -- The name is below one that was missing, where there are only new directories.
      obtain ⟨m'', hfirst, hlast⟩ := hl.split
      obtain rfl := hfirst.unique hl'
      have hhollow := h.adds.hollow_of_none (hfree.resolve_left (by simp))
      rw [hhollow.leads_names hlast]
      exact ⟨rest, by simp⟩
  · -- Nothing has changed so far, so that the path aims there from the beginning.
    have hsame : ∀ q, between.get? q = d.get? q := by
      intro q
      by_contra hq
      obtain ⟨place, hplace, -⟩ := h.on_way q hq
      exact haims ⟨place, hplace⟩
    have hkeeps : between.Keeps d := fun q e he => by rw [← hsame q, he]
    refine (haims ⟨m ++ n :: rest, way, m, n, rest, rfl, hl.mono hkeeps.retains, ?_, rfl, .inr ?_⟩).elim
    · rw [← hsame, hm]
    · rw [← hsame, hnone]

/-- One more directory at some of the names is on the way, as are those that were made before. -/
theorem Approaches.makeDir (h : d.Approaches (names.map .name) between)
    (hpath : path.route.steps <+: names.map .name) (hmade : between.makeDir path = .ok made) :
    d.Approaches (names.map .name) made := by
  refine ⟨h.adds.trans (addsDirectories_of_makeDir hmade), fun q hq => ?_⟩
  obtain ⟨way, n, m, hsteps, hl, hw, hnone, -⟩ := makeDir_ok hmade
  by_cases hnew : q = m ++ [n]
  · subst hnew
    obtain ⟨after, hafter⟩ := hpath
    obtain ⟨first, rest, -, -, rfl⟩ := List.map_eq_append_iff.mp hafter.symm
    have hcut : names.map .name = way ++ (n :: rest).map .name := by
      rw [← hafter, hsteps, List.append_assoc]
      rfl
    rw [hcut] at h ⊢
    exact h.aims hl hw.get?_dir hnone
  · rw [hw.get?_of_ne hnew] at hq
    exact h.on_way q hq

theorem approaches_of_ensures (h : d.Ensures made path) (hpath : path.route.steps <+: names.map .name) :
    d.Approaches (names.map .name) made := by
  obtain hmade | ⟨rfl, -⟩ := h
  · exact (Approaches.refl d _).makeDir hpath hmade
  · exact .refl _ _

/-- **Whatever comes out of making a directory and those above it, the new directories are on the way
to where the path aims.** -/
theorem approaches_makeDirectories (hnames : path.route.steps = names.map .name) :
    d.Approaches path.route.steps ((Action.makeDirectories path).runOn d).2 := by
  unfold Action.makeDirectories
  rw [Action.runOn_get_bind, hnames]
  cases hclimb : Action.climb d path.ancestors [] with
  | error e => exact .refl d _
  | ok reached =>
    obtain ⟨stopped, left⟩ := reached
    obtain ⟨passed, rest, hsplit, rfl, -, hrest⟩ := climb_cases hclimb
    have hpath : ∀ dir ∈ passed ++ rest, dir.route.steps <+: names.map .name := by
      intro dir hdir
      rw [← hnames]
      exact Path.steps_of_mem_ancestors (hsplit ▸ hdir)
    have hstopped : d.Approaches (names.map .name) stopped := by
      obtain ⟨-, rfl⟩ | ⟨r, rs, rfl, hr⟩ := hrest
      · exact .refl _ _
      · exact approaches_of_ensures hr (hpath r (by simp))
    rw [Action.runOn_bind_ok (Action.runOn_set stopped d), List.append_nil]
    refine Action.maintains_forM (R := fun between made =>
      d.Approaches (names.map .name) between → d.Approaches (names.map .name) made)
      (fun _ => id) (fun _ _ _ h h' => h' ∘ h) (fun dir hdir => ?_) stopped hstopped
    have habove := hpath dir (List.mem_append_left rest (List.mem_reverse.mp hdir))
    exact Action.maintains_ensureDirectory (fun _ => id)
      (fun between made hmade h => h.makeDir habove hmade) path

/-- The directory of a path that was free is made where the path aimed, and the path leads there. -/
theorem aims_of_makeDirectories (hnames : path.route.steps = names.map .name)
    (hfree : d.present path = false)
    (h : (Action.makeDirectories path).runOn d = (.ok (), made)) :
    ∃ place, d.Aims path.route.steps place ∧ d.get? place = none ∧
      made.Leads [] path.route.steps place ∧ made.get? place = some .dir := by
  have happroaches : d.Approaches path.route.steps made := by
    simpa only [h] using approaches_makeDirectories (d := d) hnames
  obtain ⟨q, hl, hdir, hnew⟩ := leads_of_makeDirectories h
  have hnone : d.get? q = none := hnew (by simp [hnames]) hfree
  obtain ⟨place, haims, habove⟩ := happroaches.on_way q (by rw [hdir, hnone]; simp)
  have hplace := get?_of_under hnone habove
  obtain rfl := haims.eq_of_leads hplace happroaches.adds hl
  exact ⟨q, haims, hnone, hl, hdir⟩

/-! ## Copying a file -/

theorem free_of_create {s : Spot} (hs : d.spot .create path = .ok s) (hn : s.last = some (.name n))
    (hslash : s.slash = false) (hfree : d.present path = false) :
    ∃ way, path.route.steps = way ++ [.name n] ∧ d.Leads [] way s.dir ∧
      d.get? (s.dir ++ [n]) = none := by
  obtain hnil | ⟨way, last, hsteps⟩ := List.eq_nil_or_concat path.route.steps
  · rw [spot_of_steps_nil hnil .create .unseen] at hs
    obtain ⟨way, hsteps, hl, -⟩ := spot_unseen_name hs hn
    simp [hnil] at hsteps
  rw [List.concat_eq_append] at hsteps
  obtain ⟨m, left, -, hl, -, hwalk⟩ | ⟨e, -, -, he⟩ := spot_cases (d := d) hsteps
  · have hcreate := (hwalk .create (by decide)).symm.trans hs
    cases last with
    | here =>
      rw [walk_here_last] at hcreate
      cases hcreate
      cases hn
    | up =>
      rw [walk_up_last] at hcreate
      cases hcreate
      cases hn
    | name k =>
      have hroute : path.route.slash = false := by
        by_contra htrue
        rw [Bool.not_eq_false] at htrue
        rw [htrue, walk_skipped_last rfl] at hcreate
        cases hcreate
        cases hslash
      rw [hroute] at hcreate
      have hlen : k.length ≤ maxNameLength := by
        by_contra hlong
        rw [walk_name_long (Nat.not_le.mp hlong) rfl] at hcreate
        cases hcreate
      have hnone : d.get? (m ++ [k]) = none := by
        by_contra hthere
        obtain ⟨e, he⟩ := Option.ne_none_iff_exists'.mp hthere
        have hkeep : d.locate .keep path = .ok (m ++ [k], e) := by
          unfold locate
          rw [hwalk .keep (by decide), hroute, walk_last hlen rfl rfl (.inl rfl)]
          exact arrive_name he
        simp [present, lstat, hkeep, Except.map, Except.toBool] at hfree
      rw [walk_last hlen rfl rfl (.inr (by simp [hnone]))] at hcreate
      cases hcreate
      cases hn
      exact ⟨way, hsteps, hl, hnone⟩
  · rw [he .create (by decide)] at hs
    cases hs

/-- A file is copied to where a path aimed that was free, and the path leads there. -/
theorem aims_of_copyFile (hfree : d.present target = false) (h : d.copyFile source target = .ok made) :
    ∃ from_ contents m n, d.locate .follow source = .ok (from_, .file contents) ∧
      d.Aims target.route.steps (m ++ [n]) ∧ made.Leads [] target.route.steps (m ++ [n]) ∧
      d.Writes made m n (.file contents) := by
  obtain ⟨from_, contents, s, n, hfrom, hs, hn, hslash, -, hw⟩ := writes_of_copyFile h
  obtain ⟨way, hsteps, hl, hnone⟩ := free_of_create hs hn hslash hfree
  have hother : from_ ≠ s.dir ++ [n] := by
    rintro rfl
    simp [get?_of_locate hfrom] at hnone
  rw [if_neg hother] at hw
  refine ⟨from_, contents, s.dir, n, hfrom, ⟨way, s.dir, n, [], hsteps, hl, hw.get?_dir, rfl, .inl rfl⟩,
    ?_, hw⟩
  have hretains := (hw.keeps hnone).retains
  rw [hsteps]
  exact (hl.mono hretains).append (hretains.get?_dir hw.get?_dir) (.file hw.get?_self)

end Disk

end TreeGlob
