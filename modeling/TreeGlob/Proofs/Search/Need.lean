import TreeGlob.Proofs.Disk.Fidelity
import TreeGlob.Proofs.Disk.Presence
import TreeGlob.Proofs.Search.Failures
import TreeGlob.Proofs.Search.FastForward
import TreeGlob.Proofs.Search.Faults
import TreeGlob.Proofs.Search.Listing

/-!
A search lists no directory without need, and all that it needs to.

* `Selection.LetsIn` is what the selection says about a directory below the one that a search starts in.
  It says the same about every directory on the way (`LetsIn.of_isPrefix`), so it can be told one step
  at a time: that is `Selection.Alive`, and `letsIn_iff` says so.
* `Disk.WayTo` says that a path leads to a directory. So the directory can be found again when it is to
  be listed (`WayTo.list_found`).
* `descent_of_comes` and `comes_of_descent` say that visits take the steps of a descent along which the
  selection is alive, `descent_of_descend` and `descend_of_descent` that going straight down takes those
  that have passed the filters.
* `Selection.SparesListings` and `Selection.ListsAll` are what is said about a run: that it listed
  nothing without need, and that it listed all it needed to.
* `Selection.no_needless_listing` is the main result.
-/
namespace TreeGlob

/-! ## What the selection says about a way -/

namespace Selection

variable {s : Selection} {near way above : List Text} {relative c : Text}

theorem Passes.of_isPrefix (h : s.Passes way) (hpre : above <+: way) : s.Passes above where
  shown c hc := h.shown c (hpre.subset hc)
  kept first hne hfirst := h.kept first hne (hfirst.trans hpre)

/-- The selection lets a search list the directory that is reached by a way from the one that it starts
in: no name from the base on is hidden, nothing is excluded, and some included pattern leaves open
whether it matches anything below. The last is not asked of the directory that the search starts in. -/
structure LetsIn (s : Selection) (way : List Text) : Prop where
  passes : s.Passes (s.startComponents ++ way)
  mayMatch : way ≠ [] → ∃ p ∈ s.included, (p.verdict (joined (s.startComponents ++ way))).prune = false

/-- No name on the way is hidden, and the selection prunes nothing on it. -/
def Alive (s : Selection) (relative : Text) : List Text → Prop
  | [] => True
  | c :: way => s.hides c = false ∧ (s.verdict (relative ++ c)).prune = false ∧
      s.Alive (relative ++ c ++ ['/']) way

theorem prune_of_append (h : s.Passes (near ++ way)) (hnear : near ≠ []) (hway : way ≠ [])
    (halive : (s.verdict (joined (near ++ way))).prune = false) :
    (s.verdict (joined near)).prune = false := by
  have he := h.kept near hnear (List.prefix_append near way)
  have hjoined : joined (near ++ way) = joined near ++ '/' :: joined way := by
    obtain ⟨first, c, rfl⟩ := List.eq_nil_or_concat near |>.resolve_left hnear
    rw [List.concat_eq_append, joined_append _ hway, joined_append_singleton, slashed_append,
      slashed_cons, slashed_nil]
    simp
  by_contra hprune
  rw [hjoined, prune_of_prune he (by simpa using hprune)] at halive
  cases halive

/-- What passes the filters and is not pruned at its end is alive all along. -/
theorem alive_iff : s.Passes near ∧ s.Alive (slashed near) way ↔
    s.Passes (near ++ way) ∧ (way ≠ [] → (s.verdict (joined (near ++ way))).prune = false) := by
  induction way generalizing near with
  | nil => simp [Alive]
  | cons c way ih =>
    have hnext : slashed near ++ c ++ ['/'] = slashed (near ++ [c]) := by
      simp [slashed_append, slashed_cons]
    have hsplit : near ++ c :: way = near ++ [c] ++ way := List.append_cons near c way
    rw [Alive, hnext, ← joined_append_singleton, hsplit]
    refine ⟨?_, ?_⟩
    · rintro ⟨hpass, hh, hprune, halive⟩
      have he := (prune_eq_false_iff.mp hprune).1
      rw [joined_append_singleton] at he
      obtain ⟨hpass, hmore⟩ := ih.mp ⟨hpass.append hh he, halive⟩
      refine ⟨hpass, fun _ => ?_⟩
      by_cases hway : way = []
      · rwa [hway, List.append_nil]
      · exact hmore hway
    · rintro ⟨hpass, hprune⟩
      have hprune := hprune (by simp)
      have hfirst := hpass.of_isPrefix (List.prefix_append (near ++ [c]) way)
      obtain ⟨-, halive⟩ := ih.mpr ⟨hpass, fun _ => hprune⟩
      refine ⟨hfirst.of_isPrefix (List.prefix_append near [c]), hfirst.shown c (by simp), ?_, halive⟩
      by_cases hway : way = []
      · rwa [hway, List.append_nil] at hprune
      · exact prune_of_append hpass (by simp) hway hprune

theorem letsIn_iff : s.LetsIn way ↔
    s.Passes s.startComponents ∧ s.Alive (slashed s.startComponents) way := by
  rw [alive_iff]
  refine ⟨fun h => ⟨h.passes, fun hway => ?_⟩, fun h => ⟨h.1, fun hway => ?_⟩⟩
  · have he := h.passes.kept _ (List.append_ne_nil_of_right_ne_nil _ hway) (List.prefix_refl _)
    exact prune_eq_false_iff.mpr ⟨he, h.mayMatch hway⟩
  · exact (prune_eq_false_iff.mp (h.2 hway)).2

theorem Alive.of_append (h : s.Alive relative (above ++ way)) : s.Alive relative above := by
  induction above generalizing relative with
  | nil => trivial
  | cons c above ih => exact ⟨h.1, h.2.1, ih h.2.2⟩

theorem LetsIn.of_isPrefix (h : s.LetsIn way) (hpre : above <+: way) : s.LetsIn above := by
  obtain ⟨rest, rfl⟩ := hpre
  obtain ⟨hpass, halive⟩ := letsIn_iff.mp h
  exact letsIn_iff.mpr ⟨hpass, halive.of_append⟩

end Selection

theorem Task.Comes.alive {fs : FileSystem} {s : Selection} {t u : Task} {way : List Text}
    (h : t.Comes s fs way u) : s.Alive t.relative way := by
  induction way generalizing t with
  | nil => trivial
  | cons c way ih =>
    obtain ⟨next, hnext, h⟩ := h
    obtain ⟨hh, hprune, real, rfl⟩ := hnext.entered
    exact ⟨hh, hprune, ih h⟩

/-! ## Steps on a disk -/

namespace Disk

variable {d : Disk} {path : Path} {place last : Place} {above others : List Place} {c : Text}
  {way more : List Text}

/-- The path is one that the system takes, and it leads to the directory at the place. -/
structure WayTo (d : Disk) (path : Path) (place : Place) : Prop where
  bytes_ne_nil : path.bytes ≠ []
  leads : d.Leads [] path.route.steps place
  get?_eq : d.get? place = some .dir

theorem DirectoryAt.wayTo (hd : d.Lawful) (h : d.DirectoryAt path place) : d.WayTo path place where
  bytes_ne_nil := (spelled_eq_ok.mp (spelled_of_realPath h.realPath_eq)).2
  leads := h.leads hd
  get?_eq := h.get?_eq

theorem Enters.wayTo (hd : d.Lawful) (hpath : d.WayTo path place) {q : Place}
    (h : d.Enters path place above c q) : d.WayTo (path.child (Utf8.encode c)) q := by
  cases h with
  | directory hn =>
    have hname := DirectoryAt.properName hd hn
    exact ⟨Path.bytes_child_ne_nil path hname.ne_nil hname.separator_not_mem,
      leads_child hname hpath.leads hpath.get?_eq hn (by simp), hn⟩
  | link hn hr hq _ => exact DirectoryAt.wayTo hd ⟨realPath_of_resolve hr, hq⟩

theorem WayTo.list_found (h : d.WayTo path place) : ¬NotFound (d.list path) := by
  intro hno
  unfold list at hno
  rw [notFound_bind] at hno
  rcases hno with hno | ⟨⟨q, e⟩, hq, hno⟩
  · exact locate_follow_found h.bytes_ne_nil h.leads hno
  · -- What is found is the directory.
    obtain rfl := (leads_of_locate hq).unique h.leads
    obtain rfl := Option.some.inj ((get?_of_locate hq).symm.trans h.get?_eq)
    exact not_notFound_ok _ hno

theorem descent_append : d.Descent path place above (way ++ more) last others ↔
    ∃ m ms, d.Descent path place above way m ms ∧
      d.Descent (path.descend way) m ms more last others := by
  induction way generalizing path place above with
  | nil =>
    refine ⟨fun h => ⟨place, above, .stay, h⟩, ?_⟩
    rintro ⟨m, ms, hway, hmore⟩
    cases hway
    exact hmore
  | cons c way ih =>
    refine ⟨fun h => ?_, ?_⟩
    · cases h with
      | step hq hrest =>
        obtain ⟨m, ms, hway, hmore⟩ := ih.mp hrest
        exact ⟨m, ms, .step hq hway, hmore⟩
    · rintro ⟨m, ms, hway, hmore⟩
      cases hway with
      | step hq hrest => exact .step hq (ih.mpr ⟨m, ms, hrest, hmore⟩)

end Disk

namespace Task

variable {d : Disk} {s : Selection} {t u : Task} {place last : Place} {above others : List Place}
  {c : Text} {way : List Text}

theorem Visitable.list_eq_ok (h : t.Visitable d.fileSystem) (hpath : d.WayTo t.path place) :
    ∃ children, d.list t.path = .ok children := by
  rcases h with ⟨children, hl⟩ | ⟨-, e, he, hgone⟩
  · exact ⟨children, Disk.answer_eq_ok.mp hl⟩
  · cases hl : d.list t.path with
    | ok children => exact ⟨children, rfl⟩
    | error err =>
      obtain rfl : FsError.ofIo err t.path = e := by
        change Disk.answer t.path (d.list t.path) = .error e at he
        rw [hl] at he
        exact Answer.error.inj he
      exact absurd ⟨err, hl, (FsError.isNotFound_ofIo err t.path).mp hgone⟩ hpath.list_found

theorem list_of_gives (h : t.Gives s d.fileSystem c u) :
    ∃ children, d.list t.path = .ok children := by
  obtain ⟨child, hchild, -⟩ := h
  cases hl : d.fileSystem (.list t.path) with
  | ok children => exact ⟨children, Disk.answer_eq_ok.mp hl⟩
  | error | crash => simp [FileSystem.entries, hl] at hchild

/-- What a visit gives for a name is a step of a descent that is not pruned. -/
theorem gives_iff (hd : d.Lawful) (ht : t.Placed d place above) {children : List Child}
    (hl : d.list t.path = .ok children) :
    t.Gives s d.fileSystem c u ↔ ∃ q, d.Enters t.path place above c q ∧
      s.hides c = false ∧ (s.verdict (t.relative ++ c)).prune = false ∧
      u = t.enter (Utf8.encode c) c (Disk.pathTo q) := by
  have hnext : t.next s d.fileSystem = children.flatMap (t.subtasks s d.fileSystem) := by
    rw [next, FileSystem.entries_of_list (Disk.answer_eq_ok.mpr hl)]
  -- The name can be told from the task.
  have hname : ∀ x y real, t.Gives s d.fileSystem x u → u = t.enter (Utf8.encode y) y real → x = y := by
    intro x y real hgives hu
    obtain ⟨-, -, real', hu'⟩ := hgives.entered
    simpa [enter] using congrArg Task.relative (hu'.symm.trans hu)
  refine ⟨fun h => ?_, ?_⟩
  · have hu := mem_next.mpr ⟨c, h⟩
    rw [hnext] at hu
    obtain ⟨y, q, hq, hh, hprune, hu⟩ := (Disk.mem_subtasks_iff hd ht hl).mp hu
    obtain rfl := hname c y _ h hu
    exact ⟨q, hq, hh, hprune, hu⟩
  · rintro ⟨q, hq, hh, hprune, hu⟩
    have hmem := (Disk.mem_subtasks_iff hd ht hl).mpr ⟨c, q, hq, hh, hprune, hu⟩
    rw [← hnext] at hmem
    obtain ⟨x, h⟩ := mem_next.mp hmem
    obtain rfl := hname x c _ h hu
    exact h

theorem descent_of_comes (hd : d.Lawful) (ht : t.Placed d place above)
    (h : t.Comes s d.fileSystem way u) :
    ∃ last others, d.Descent t.path place above way last others := by
  induction way generalizing t place above with
  | nil => exact ⟨place, above, .stay⟩
  | cons c way ih =>
    obtain ⟨next, hnext, h⟩ := h
    obtain ⟨children, hl⟩ := list_of_gives hnext
    obtain ⟨q, hq, -, -, rfl⟩ := (gives_iff hd ht hl).mp hnext
    obtain ⟨last, others, hrest⟩ := ih (hq.placed hd ht) h
    exact ⟨last, others, .step hq hrest⟩

/-- Visits take all steps of a descent along which the selection is alive, if every directory that they
come to can be visited. -/
theorem comes_of_descent (hd : d.Lawful) (ht : t.Placed d place above) (hpath : d.WayTo t.path place)
    (hv : ∀ more v, t.Comes s d.fileSystem more v → v.Visitable d.fileSystem)
    (h : d.Descent t.path place above way last others) (ha : s.Alive t.relative way) :
    ∃ u, t.Comes s d.fileSystem way u := by
  induction way generalizing t place above with
  | nil => exact ⟨t, rfl⟩
  | cons c way ih =>
    obtain ⟨hh, hprune, ha⟩ := ha
    cases h with
    | step hq hrest =>
      obtain ⟨children, hl⟩ := (hv [] t rfl).list_eq_ok hpath
      have hgives := (gives_iff hd ht hl).mpr ⟨_, hq, hh, hprune, rfl⟩
      obtain ⟨u, hu⟩ := ih (hq.placed hd ht) (hq.wayTo hd hpath)
        (fun more v hmore => hv (c :: more) v ⟨_, hgives, hmore⟩) hrest ha
      exact ⟨u, _, hgives, hu⟩

end Task

/-! ## The way to the start -/

namespace Selection

variable {d : Disk} {s : Selection} {t u : Task} {base p : Path} {place last : Place}
  {above others : List Place} {near components way : List Text}

/-- Going straight down takes the steps of a descent, if the path is short enough to be looked up. -/
theorem descent_of_descend (hd : d.Lawful) (hp : Pieces components) (ht : t.Placed d place above)
    (hat : d.DirectoryAt t.path place) (hs : u.path.bytes.length < maxPathLength)
    (h : ((s.descend components t).run d.fileSystem).ending = .ok (some u)) :
    ∃ last others, d.Descent t.path place above components last others ∧ u.Placed d last others ∧
      d.DirectoryAt u.path last := by
  induction components generalizing t place above with
  | nil =>
    cases h
    exact ⟨place, above, .stay, ht, hat⟩
  | cons c components ih =>
    obtain ⟨hc, hmore⟩ := List.forall_mem_cons.mp hp
    have hpath := path_of_descend h
    obtain ⟨next, hstep, h⟩ := descend_cons_eq_some.mp h
    have hlen := Path.length_child_lt_of_descend hmore (hpath ▸ hs)
    obtain ⟨q, hq, hat', rfl⟩ := enters_of_stepDown hd ht hat hc hlen hstep
    obtain ⟨last, others, hrest, hu, hlast⟩ := ih hmore (hq.placed hd ht) hat' h
    exact ⟨last, others, .step hq hrest, hu, hlast⟩

/-- Going straight down takes all steps of a descent that passes the filters, unless the system refuses a
real path. -/
theorem descend_of_descent (hd : d.Lawful) (ht : t.Placed d place above)
    (hat : d.DirectoryAt t.path place) (hrelative : t.relative = slashed near)
    (hb : Unblocked d ((s.descend components t).run d.fileSystem).asked)
    (h : d.Descent t.path place above components last others) (hpass : s.Passes (near ++ components)) :
    ∃ u, ((s.descend components t).run d.fileSystem).ending = .ok (some u) ∧ u.Placed d last others ∧
      d.DirectoryAt u.path last := by
  induction components generalizing t place above near with
  | nil =>
    cases h
    exact ⟨t, rfl, ht, hat⟩
  | cons c components ih =>
    cases h with
    | step hq hrest =>
      rw [List.append_cons] at hpass
      have hfirst := hpass.of_isPrefix (List.prefix_append (near ++ [c]) components)
      have hh := hfirst.shown c (by simp)
      have he : s.excludes (t.relative ++ c) = false := by
        rw [hrelative, ← joined_append_singleton]
        exact hfirst.kept _ (by simp) (List.prefix_refl _)
      have hasked := canonicalize_mem_stepDown d.fileSystem hh he
      have hshort := hb.ne_nameTooLong (Dialogue.asked_bind_isPrefix.subset hasked)
      obtain ⟨hstep, hat'⟩ := stepDown_of_enters hd ht hat hq hh he fun _ => hshort
      obtain ⟨u, hu, hplaced⟩ := ih (hq.placed hd ht) hat'
        (by simp [Task.enter, hrelative, slashed_append, slashed_cons]) (hb.descend hstep) hrest hpass
      exact ⟨u, descend_cons_eq_some.mpr ⟨_, hstep, hu⟩, hplaced⟩

theorem exists_base (hd : d.Lawful) {first : Option Task}
    (h : ((s.begin base).run d.fileSystem).ending = .ok first) : ∃ b, d.DirectoryAt base b := by
  obtain ⟨t, ht, -⟩ := Dialogue.ending_bind_eq_ok.mp h
  obtain ⟨b, -, hb⟩ := Disk.placed_baseTask hd ht
  rw [(Disk.run_baseTask d base).2] at ht
  split at ht
  · cases ht
  · split at ht <;> cases ht
    exact ⟨b, hb⟩

theorem start_of_begin (hd : d.Lawful) (h : ((s.begin base).run d.fileSystem).ending = .ok (some t)) :
    t.path = base.descend s.startComponents ∧ t.relative = slashed s.startComponents ∧
      s.Passes s.startComponents := by
  obtain ⟨b, hb⟩ := exists_base hd h
  obtain ⟨way, hpieces, hpass, hway, -⟩ := open_of_begin (Disk.honest hd) h
  rw [ending_begin hd hb] at h
  have hpath : t.path = base.descend s.startComponents := path_of_descend h
  obtain rfl : way = s.startComponents :=
    Path.descend_injective hpieces (startComponents.pieces_pieces _) (hway.symm.trans hpath)
  exact ⟨hpath, relative_of_descend h, hpass⟩

/-! ## What is listed -/

/-- Nothing was listed without need: no path twice, and no directory that the selection does not let the
search in to. -/
structure SparesListings (s : Selection) (base : Path) (listed : List Path) : Prop where
  nodup : listed.Nodup
  letsIn : ∀ p ∈ listed, ∃ way, Pieces way ∧ s.LetsIn way ∧
    p = base.descend (s.startComponents ++ way)

/-- All that needs to be was listed, and nothing else: the directories that can be reached from the base,
at or below the one that the search starts in, and that the selection lets it in to. -/
def ListsAll (s : Selection) (d : Disk) (base : Path) (listed : List Path) : Prop :=
  ∀ p, p ∈ listed ↔ ∃ b way last others, d.DirectoryAt base b ∧
    d.Descent base b [] (s.startComponents ++ way) last others ∧ s.LetsIn way ∧
    p = base.descend (s.startComponents ++ way)

theorem SparesListings.of_subperm {listed visited : List Path} (h : s.SparesListings base visited)
    (hsub : listed.Subperm visited) : s.SparesListings base listed where
  nodup := by
    obtain ⟨some, hperm, hsome⟩ := hsub
    exact hperm.nodup_iff.mp (h.nodup.sublist hsome)
  letsIn p hp := h.letsIn p (hsub.subset hp)

theorem sparesListings_nil (s : Selection) (base : Path) : s.SparesListings base [] :=
  ⟨List.nodup_nil, by simp⟩

theorem mem_map_order {fs : FileSystem} {depth : Nat} (hfs : fs.Tidy)
    (hends : s.Ends fs depth (t.visit s)) : p ∈ (s.order fs depth t).map (·.path) ↔
      ∃ way u, t.Comes s fs way u ∧ p = t.path.descend way := by
  rw [List.mem_map]
  refine ⟨?_, ?_⟩
  · rintro ⟨u, hu, rfl⟩
    obtain ⟨way, hway⟩ := (mem_order hfs hends).mp hu
    exact ⟨way, u, hway, hway.path_eq⟩
  · rintro ⟨way, u, hway, rfl⟩
    exact ⟨u, (mem_order hfs hends).mpr ⟨way, hway⟩, hway.path_eq⟩

/-- What is visited in order is listed with need. -/
theorem sparesListings_order {fs : FileSystem} {depth : Nat} (hd : d.Lawful) (hfs : fs.Tidy)
    (h : ((s.begin base).run d.fileSystem).ending = .ok (some t)) (hends : s.Ends fs depth (t.visit s)) :
    s.SparesListings base ((s.order fs depth t).map (·.path)) where
  nodup := nodup_order hfs s _ _
  letsIn := by
    obtain ⟨hpath, hrelative, hpass⟩ := start_of_begin hd h
    intro p hp
    obtain ⟨way, u, hway, rfl⟩ := (mem_map_order hfs hends).mp hp
    refine ⟨way, hway.pieces hfs, letsIn_iff.mpr ⟨hpass, hrelative ▸ hway.alive⟩, ?_⟩
    rw [hpath, Path.descend_append]

/-- Where the search starts is reached from the base, and can be found again. -/
theorem descent_of_begin (hd : d.Lawful) (h : ((s.begin base).run d.fileSystem).ending = .ok (some t))
    (hv : t.Visitable d.fileSystem) :
    ∃ b place above, d.DirectoryAt base b ∧ d.Descent base b [] s.startComponents place above ∧
      t.Placed d place above := by
  obtain ⟨b, hb⟩ := exists_base hd h
  have hplaced := placed_firstTask hd hb
  rw [ending_begin hd hb] at h
  obtain ⟨q, -, -, hat⟩ := hplaced.of_descend hd hb h
  obtain ⟨children, hl⟩ := hv.list_eq_ok (hat.wayTo hd)
  obtain ⟨-, -, -, -, hshort⟩ := Disk.list_cases hl
  obtain ⟨place, above, hdescent, ht, -⟩ :=
    descent_of_descend hd (startComponents.pieces_pieces _) hplaced hb hshort h
  exact ⟨b, place, above, hb, hdescent, ht⟩

/-- A search that begins, and is let in to where it starts, starts there. -/
theorem begin_of_descent (hd : d.Lawful) {first : Option Task}
    (h : ((s.begin base).run d.fileSystem).ending = .ok first) {b : Place} (hb : d.DirectoryAt base b)
    (hdescent : d.Descent base b [] s.startComponents place above) (hpass : s.Passes s.startComponents) :
    ∃ t, first = some t ∧ t.Placed d place above ∧ d.DirectoryAt t.path place := by
  rw [ending_begin hd hb] at h
  have hrelative : (firstTask base b).relative = slashed [] := rfl
  obtain ⟨t, ht, hplaced⟩ := descend_of_descent hd (placed_firstTask hd hb) hb hrelative
    (unblocked_of_descend h) hdescent hpass
  exact ⟨t, Except.ok.inj (h.symm.trans ht), hplaced⟩

/-- A sequential search that does not fail lists all that it needs to. -/
theorem listsAll_sequential (hd : d.Lawful)
    (h : ((s.sequential d.extent.depth base).run d.fileSystem).ending = .ok ()) :
    s.ListsAll d base (listedIn ((s.sequential d.extent.depth base).run d.fileSystem).asked) := by
  have hlooks := (onlyLooks_begin s base).listedIn_eq_nil d.fileSystem
  obtain ⟨first, hs, hrest⟩ := Dialogue.ending_bind_eq_ok.mp h
  intro p
  cases first with
  | none =>
    rw [run_sequential_of_none hs, hlooks]
    refine iff_of_false List.not_mem_nil ?_
    rintro ⟨b, way, last, others, hb, hdescent, hlets, -⟩
    obtain ⟨place, above, hdescent, -⟩ := Disk.descent_append.mp hdescent
    obtain ⟨t, ht, -⟩ := begin_of_descent hd hs hb hdescent (letsIn_iff.mp hlets).1
    cases ht
  | some t =>
    have hfs := Disk.tidy hd
    obtain ⟨hends, hv⟩ := visitable_of_visitAll hfs hrest
    obtain ⟨hpath, hrelative, hpass⟩ := start_of_begin hd hs
    rw [run_sequential_of_some hs, listedIn_append, hlooks, run_visitAll_of_ok hfs hrest, listedIn_order,
      List.nil_append, mem_map_order hfs hends, hpath]
    refine ⟨?_, ?_⟩
    · rintro ⟨way, u, hway, rfl⟩
      have ht := hv t ((mem_order hfs hends).mpr ⟨[], rfl⟩)
      obtain ⟨b, place, above, hb, hstart, hplaced⟩ := descent_of_begin hd hs ht
      obtain ⟨last, others, hbelow⟩ := Task.descent_of_comes hd hplaced hway
      rw [hpath] at hbelow
      refine ⟨b, way, last, others, hb, Disk.descent_append.mpr ⟨place, above, hstart, hbelow⟩,
        letsIn_iff.mpr ⟨hpass, hrelative ▸ hway.alive⟩, ?_⟩
      rw [Path.descend_append]
    · rintro ⟨b, way, last, others, hb, hdescent, hlets, rfl⟩
      obtain ⟨place, above, hstart, hbelow⟩ := Disk.descent_append.mp hdescent
      obtain ⟨-, halive⟩ := letsIn_iff.mp hlets
      obtain ⟨u, hu, ht, hat⟩ := begin_of_descent hd hs hb hstart hpass
      obtain rfl := Option.some.inj hu
      rw [← hpath] at hbelow
      obtain ⟨u, hu⟩ := Task.comes_of_descent hd ht (hat.wayTo hd)
        (fun more v hmore => hv v ((mem_order hfs hends).mpr ⟨more, hmore⟩)) hbelow (hrelative ▸ halive)
      exact ⟨way, u, hu, Path.descend_append base s.startComponents way⟩

theorem ListsAll.of_perm {listed visited : List Path} (h : s.ListsAll d base visited)
    (hperm : listed.Perm visited) : s.ListsAll d base listed :=
  fun p => hperm.mem_iff.trans (h p)

/-- **No directory is listed without need, and all are that need to be.** On a disk that does not change,
below any base, be the search sequential or parallel, whichever jobs or workers take their turns, and
wherever it breaks off or is broken off, also because directories refuse to be listed:

* no path is listed twice, and a path that is listed is that of the directory which the search starts
  in, once it has gone straight down, or lies below it by a way on which no name is hidden, nothing is
  excluded, and some included pattern leaves open whether it matches something below;
* if the search does not fail, it lists the directories that can be reached from the base in this way,
  through directories and through links that resolve and do not lead back, and no others. -/
theorem no_needless_listing (hd : d.Lawful) (s : Selection) (base : Path) {fs : FileSystem}
    (hfs : d.fileSystem.Withholds fs) :
    (∀ strategy r, s.CanReport (s.begin base) fs d.extent strategy r →
      ∀ listed, listed <+: r.listed → s.SparesListings base listed) ∧
    (∀ steps c, s.CrewAfter (fun _ => fs) base steps c → s.SparesListings base (listedIn c.asked)) ∧
    (∀ strategy r, s.CanReport (s.begin base) d.fileSystem d.extent strategy r → r.failure = none →
      s.ListsAll d base r.listed) ∧
    ∀ steps c, s.CrewAfter (fun _ => d.fileSystem) base steps c →
      ∀ first, c.workers.head? = some first → first.stage = .finished →
        s.ListsAll d base (listedIn c.asked) := by
  have htidy := hfs.tidy (Disk.tidy hd)
  have hbegin : (s.begin base).run fs = (s.begin base).run d.fileSystem := by
    refine (onlyLooks_begin s base).run_congr fun q hq => hfs.same q ?_
    rintro p rfl
    cases hq
  have hends : ∀ t, ((s.begin base).run fs).ending = .ok (some t) →
      s.Ends fs d.extent.depth (t.visit s) := by
    intro t ht
    rw [hbegin] at ht
    exact (Created.ends hd (.start ht)).withholds hfs
  have hspares : ∀ t, ((s.begin base).run fs).ending = .ok (some t) →
      s.SparesListings base ((s.order fs d.extent.depth t).map (·.path)) :=
    fun t ht => sparesListings_order hd htidy (hbegin ▸ ht) (hends t ht)
  refine ⟨fun strategy r hr listed hlisted => ?_, fun steps c hc => ?_, fun strategy r hr hnone => ?_,
    fun steps c hc first hfirst hfinished => ?_⟩
  · cases hr.listed_subperm htidy hends with
    | inl hnil =>
      rw [hnil, List.prefix_nil] at hlisted
      exact hlisted ▸ sparesListings_nil s base
    | inr hsome =>
      obtain ⟨t, ht, hsub⟩ := hsome
      exact (hspares t ht).of_subperm (hlisted.sublist.subperm.trans hsub)
  · obtain ⟨t, ht, hafter⟩ := hc
    rw [Dialogue.runOn_const] at ht hafter
    have hsub := listed_subperm_of_crew htidy (hends t ht) _ hafter
    rw [(onlyLooks_begin s base).listedIn_eq_nil, List.nil_append] at hsub
    exact (hspares t ht).of_subperm hsub
  · obtain ⟨hok, -, hperm⟩ := hr.agrees_sequential hd hnone
    exact (listsAll_sequential hd hok).of_perm hperm
  · have hlives : d.fileSystem.Lives := ⟨fun p => Disk.answer_ne_crash p _, (Disk.tidy hd).survives⟩
    obtain ⟨hok, hperm⟩ := sequential_of_crew (Disk.tidy hd) hlives (Disk.honest hd)
      (fun t ht => Created.ends hd (.start ht)) hc hfirst hfinished
    exact (listsAll_sequential hd hok).of_perm (hperm.filterMap _)

/-- Where `/a/b` refuses to be listed, a search ends with that. Where it does not, all directories are
listed, those below `/a` also through the link `/home`. -/
theorem no_needless_listing_in_circular :
    ∃ (fs : FileSystem) (cut whole : Report), Disk.circular.fileSystem.Withholds fs ∧
      cut.listed = ["/", "/a", "/a/b"].map (Path.ofText ·.toList) ∧
      cut.failure = some (.error (.permissionDenied (.ofText "/a/b".toList))) ∧
      everything.SparesListings .root cut.listed ∧
      whole.listed = ["/", "/a", "/a/b", "/home", "/home/b"].map (Path.ofText ·.toList) ∧
      whole.failure = none ∧ everything.ListsAll Disk.circular .root whole.listed := by
  obtain ⟨fs, hfs⟩ : ∃ fs, fs = Disk.circular.fileSystem.withFaults
    [⟨.list, .ofText "/a/b".toList, .permissionDenied⟩] := ⟨_, rfl⟩
  obtain ⟨cut, hcut⟩ : ∃ r, r = everything.search .sequential fs Disk.circular.extent .root := ⟨_, rfl⟩
  obtain ⟨whole, hwhole⟩ : ∃ r, r = everything.search .sequential Disk.circular.fileSystem
    Disk.circular.extent .root := ⟨_, rfl⟩
  have hwithholds : Disk.circular.fileSystem.Withholds fs := by
    subst hfs
    exact (Disk.circular.fileSystem.refuses_withFaults .root (by decide)).withholds
  have hnone : whole.failure = none := by subst hwhole; decide +kernel
  obtain ⟨hcuts, -, hwholes, -⟩ := no_needless_listing (by decide) everything .root hwithholds
  refine ⟨fs, cut, whole, hwithholds, ?_, ?_, ?_, ?_, hnone, ?_⟩
  · subst hcut hfs
    decide +kernel
  · subst hcut hfs
    decide +kernel
  · refine hcuts .sequential cut ?_ cut.listed (List.prefix_refl _)
    exact hcut ▸ canReport_search everything fs Disk.circular.extent .sequential .root
  · subst hwhole
    decide +kernel
  · refine hwholes .sequential whole ?_ hnone
    exact hwhole ▸ canReport_search everything Disk.circular.fileSystem Disk.circular.extent
      .sequential .root

end Selection

end TreeGlob
