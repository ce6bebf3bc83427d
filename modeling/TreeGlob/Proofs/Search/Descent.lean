import TreeGlob.Proofs.Search.Interleaving
import TreeGlob.Proofs.Selection.Start

/-!
What a search is to find, told without the search: the entries that can be reached from its base
through directories and links to directories, as long as the selection wants them.

* `Disk.Enters` is one step of a descent into a directory, `Disk.Descent` several.
* `Disk.Reaches` ends a descent at an entry of any kind, and `Selection.Wants` is what the selection
  says about the way there.
* `mem_subtasks_iff` and `mem_reports_iff` say that a visit takes exactly these steps.
* `Dialogue.StopsAtListings` says that a dialogue breaks off for a listing only, as every visit does.
* `mem_found_visitAll` says that a visit of a directory with all it holds finds exactly what is
  reached from there and wanted.
-/
namespace TreeGlob

namespace Disk

/-- From the directory at `place`, which was come to by `path` through the directories in `above`, the
entry named `c` goes on into the directory at `q`: it is that directory, or it is a link that resolves
to it, and `q` neither is nor contains any of the directories on the way. -/
inductive Enters (d : Disk) (path : Path) (place : Place) (above : List Place) (c : Text) :
    Place → Prop where
  | directory : d.get? (place ++ [Utf8.encode c]) = some .dir →
      Enters d path place above c (place ++ [Utf8.encode c])
  | link {target : Path} {q : Place} : d.get? (place ++ [Utf8.encode c]) = some (.link target) →
      d.resolve (path.child (Utf8.encode c)) = .ok (pathTo q) → d.get? q = some .dir →
      (∀ p ∈ place :: above, ¬q <+: p) → Enters d path place above c q

/-- A descent through several entries. It ends in the directory at `q`, with those in `others` on the
way. -/
inductive Descent (d : Disk) : Path → Place → List Place → List Text → Place → List Place → Prop where
  | stay {path : Path} {place : Place} {above : List Place} : Descent d path place above [] place above
  | step {path : Path} {place q last : Place} {above others : List Place} {c : Text}
      {way : List Text} : d.Enters path place above c q →
      Descent d (path.child (Utf8.encode c)) q (place :: above) way last others →
      Descent d path place above (c :: way) last others

/-- A descent along all but the last name of a way, which ends in a directory with an entry of that
name; and if the entry is a link, it resolves. -/
def Reaches (d : Disk) (path : Path) (place : Place) (above : List Place) (way : List Text)
    (c : Text) : Prop :=
  ∃ last others, d.Descent path place above way last others ∧
    ∃ e, d.get? (last ++ [Utf8.encode c]) = some e ∧
      ∀ target, e = .link target →
        ∃ real, d.resolve ((path.descend way).child (Utf8.encode c)) = .ok real

end Disk

/-- The selection wants what is reached along a way from `relative`: no name on the way is hidden,
nothing on the way is excluded, and some included pattern matches the whole. -/
structure Selection.Wants (s : Selection) (relative : Text) (way : List Text) : Prop where
  shown : ∀ c ∈ way, s.hides c = false
  kept : ∀ above, above ≠ [] → above <+: way → s.excludes (relative ++ joined above) = false
  matched : ∃ p ∈ s.included, p.accepts (relative ++ joined way) = true

namespace Disk

variable {d : Disk} {s : Selection} {t u : Task} {place : Place} {above : List Place}

theorem decode?_eq_some {n : Name} {c : Text} : Utf8.decode? n = some c ↔ n = Utf8.encode c :=
  ⟨fun h => (Utf8.encode_of_decode? h).symm, fun h => h ▸ Utf8.decode?_encode c⟩

theorem real_child (hd : d.Lawful) (h : t.Placed d place above) {n : Name} {e : Entry}
    (hn : d.get? (place ++ [n]) = some e) : t.real.child n = pathTo (place ++ [n]) := by
  have hname := hd (place ++ [n]) (by simp [hn])
  rw [h.real_eq, pathTo_append (h.names hd List.mem_cons_self) (hname n (by simp))]

/-- What a search takes for the real path of an entry that it may enter is that of a step of a
descent. -/
theorem enters_iff (hd : d.Lawful) (h : t.Placed d place above) {c : Text} {real : Path} :
    (∃ e viaLink, d.get? (place ++ [Utf8.encode c]) = some e ∧
        t.kind? d.fileSystem (.ofEntry (Utf8.encode c) e) = some (.directory real viaLink) ∧
        (viaLink = true → t.leadsBack real = false)) ↔
      ∃ q, d.Enters t.path place above c q ∧ real = pathTo q := by
  -- A link is told apart from a directory by the guard, which holds of a plain directory anyway.
  refine ⟨?_, ?_⟩
  · intro hyp
    obtain ⟨e, viaLink, hn, hkind, hback⟩ := hyp
    rcases kind?_eq_directory.mp hkind with ⟨rfl, rfl, -⟩ | ⟨⟨target, rfl⟩, hr, hdir, rfl⟩
    · exact ⟨_, .directory hn, real_child hd h hn⟩
    · obtain ⟨q, rfl, hat⟩ := (isDirectory_of_realPath hd (realPath_of_resolve hr)).mp hdir
      have hapart := (h.leadsBack_iff hd hat.get?_eq).mp (hback rfl)
      exact ⟨q, .link hn hr hat.get?_eq hapart, rfl⟩
  · intro hyp
    obtain ⟨q, hq, rfl⟩ := hyp
    cases hq with
    | directory hn =>
      exact ⟨.dir, false, hn, kind?_eq_directory.mpr (.inl ⟨rfl, (real_child hd h hn).symm, rfl⟩),
        by simp⟩
    | @link target q hn hr hq hapart =>
      have hdir : d.isDirectory (pathTo q) = true :=
        (isDirectory_of_realPath hd (realPath_of_resolve hr)).mpr ⟨q, rfl, realPath_of_resolve hr, hq⟩
      exact ⟨.link target, true, hn, kind?_eq_directory.mpr (.inr ⟨⟨target, rfl⟩, hr, hdir, rfl⟩),
        fun _ => (h.leadsBack_iff hd hq).mpr hapart⟩

/-- The invariant of the directories entered holds along a descent. -/
theorem Enters.placed (hd : d.Lawful) (h : t.Placed d place above) {c : Text} {q : Place}
    (hq : d.Enters t.path place above c q) :
    (t.enter (Utf8.encode c) c (pathTo q)).Placed d q (place :: above) := by
  cases hq with
  | directory hn => exact real_child hd h hn ▸ h.enter_child hd c hn
  | link hn hr hq hapart =>
    have hat : d.DirectoryAt (t.path.child (Utf8.encode c)) q := ⟨realPath_of_resolve hr, hq⟩
    exact h.enter rfl hq (fun m hm => hm.unique (hat.leads hd)) hapart

/-- The tasks that a visit gives are the steps of a descent along which the selection is alive. -/
theorem mem_subtasks_iff (hd : d.Lawful) (h : t.Placed d place above) {children : List Child}
    (hl : d.list t.path = .ok children) :
    u ∈ children.flatMap (t.subtasks s d.fileSystem) ↔ ∃ c q, d.Enters t.path place above c q ∧
      s.hides c = false ∧ (s.verdict (t.relative ++ c)).prune = false ∧
      u = t.enter (Utf8.encode c) c (pathTo q) := by
  rw [list_placed h hl, List.mem_flatMap]
  refine ⟨?_, ?_⟩
  · intro hyp
    obtain ⟨_, hc, hu⟩ := hyp
    obtain ⟨⟨n, e⟩, hn, rfl⟩ := List.mem_map.mp hc
    obtain ⟨c, real, viaLink, hname, hh, hkind, hprune, hback, rfl⟩ := Task.mem_subtasks.mp hu
    obtain rfl : n = Utf8.encode c := decode?_eq_some.mp hname
    obtain ⟨q, hq, rfl⟩ := (enters_iff hd h).mp ⟨e, viaLink, mem_children.mp hn, hkind, hback⟩
    exact ⟨c, q, hq, hh, hprune, rfl⟩
  · intro hyp
    obtain ⟨c, q, hq, hh, hprune, rfl⟩ := hyp
    obtain ⟨e, viaLink, hn, hkind, hback⟩ := (enters_iff hd h).mpr ⟨q, hq, rfl⟩
    refine ⟨.ofEntry (Utf8.encode c) e, List.mem_map_of_mem (mem_children.mpr hn), ?_⟩
    exact Task.mem_subtasks.mpr
      ⟨c, _, viaLink, Utf8.decode?_encode c, hh, hkind, hprune, hback, rfl⟩

/-- The paths that a visit reports are those of the entries that the selection wants; a link that does
not resolve is none. -/
theorem mem_reports_iff (h : t.Placed d place above) {children : List Child}
    (hl : d.list t.path = .ok children) {p : Path} :
    p ∈ children.flatMap (t.reports s d.fileSystem) ↔ ∃ c, d.Reaches t.path place above [] c ∧
      s.hides c = false ∧ (s.verdict (t.relative ++ c)).hit = true ∧
      p = t.path.child (Utf8.encode c) := by
  rw [list_placed h hl, List.mem_flatMap]
  refine ⟨?_, ?_⟩
  · intro hyp
    obtain ⟨_, hc, hp⟩ := hyp
    obtain ⟨⟨n, e⟩, hn, rfl⟩ := List.mem_map.mp hc
    obtain ⟨c, hname, hh, hkind, hhit, rfl⟩ := Task.mem_reports.mp hp
    obtain rfl : n = Utf8.encode c := decode?_eq_some.mp hname
    exact ⟨c, ⟨place, above, .stay, e, mem_children.mp hn, kind?_isSome.mp hkind⟩, hh, hhit, rfl⟩
  · intro hyp
    obtain ⟨c, ⟨last, others, hdescent, e, hn, hresolves⟩, hh, hhit, rfl⟩ := hyp
    cases hdescent
    refine ⟨.ofEntry (Utf8.encode c) e, List.mem_map_of_mem (mem_children.mpr hn), ?_⟩
    exact Task.mem_reports.mpr
      ⟨c, Utf8.decode?_encode c, hh, kind?_isSome.mpr hresolves, hhit, rfl⟩

/-! ## Ways, one step at a time -/

variable {path : Path} {way : List Text} {c x : Text}

theorem reaches_cons : d.Reaches path place above (x :: way) c ↔ ∃ q, d.Enters path place above x q ∧
    d.Reaches (path.child (Utf8.encode x)) q (place :: above) way c := by
  refine ⟨?_, ?_⟩
  · intro hyp
    obtain ⟨last, others, hdescent, hend⟩ := hyp
    cases hdescent with
    | step hq hrest => exact ⟨_, hq, last, others, hrest, hend⟩
  · intro hyp
    obtain ⟨q, hq, last, others, hrest, hend⟩ := hyp
    exact ⟨last, others, .step hq hrest, hend⟩

theorem piece_of_entry (hd : d.Lawful) {e : Entry} (h : d.get? (place ++ [Utf8.encode c]) = some e) :
    c ≠ [] ∧ '/' ∉ c := by
  have hname := hd (place ++ [Utf8.encode c]) (by simp [h]) (Utf8.encode c) (by simp)
  exact piece_of_encode ⟨hname.ne_nil, hname.separator_not_mem⟩

theorem Enters.piece (hd : d.Lawful) {q : Place} (h : d.Enters path place above c q) :
    c ≠ [] ∧ '/' ∉ c := by
  cases h with
  | directory hn => exact piece_of_entry hd hn
  | link hn => exact piece_of_entry hd hn

theorem Reaches.pieces (hd : d.Lawful) (h : d.Reaches path place above way c) :
    Pieces (way ++ [c]) := by
  induction way generalizing path place above with
  | nil =>
    obtain ⟨last, others, -, e, hn, -⟩ := h
    intro y hy
    rw [List.mem_singleton.mp hy]
    exact piece_of_entry hd hn
  | cons x way ih =>
    obtain ⟨q, hq, hrest⟩ := reaches_cons.mp h
    intro y hy
    rcases List.mem_cons.mp hy with rfl | hy
    · exact hq.piece hd
    · exact ih hrest y hy

end Disk

namespace Selection

variable {s : Selection} {relative c : Text} {way : List Text}

theorem wants_singleton : s.Wants relative [c] ↔
    s.hides c = false ∧ (s.verdict (relative ++ c)).hit = true := by
  rw [hit_iff]
  refine ⟨?_, ?_⟩
  · intro h
    refine ⟨h.shown c (by simp), ?_, ?_⟩
    · simpa [joined_singleton] using h.kept [c] (by simp) (List.prefix_refl _)
    · simpa [joined_singleton] using h.matched
  · intro hyp
    obtain ⟨hh, he, hm⟩ := hyp
    refine ⟨by simpa using hh, fun above hne hpre => ?_, by simpa [joined_singleton] using hm⟩
    rcases List.prefix_cons_iff.mp hpre with rfl | ⟨more, rfl, hmore⟩
    · exact (hne rfl).elim
    · rw [List.prefix_nil.mp hmore, joined_singleton]
      exact he

theorem wants_cons (hne : way ≠ []) : s.Wants relative (c :: way) ↔
    s.hides c = false ∧ s.excludes (relative ++ c) = false ∧
      s.Wants (relative ++ c ++ ['/']) way := by
  have hjoined : ∀ {above : List Text}, above ≠ [] →
      relative ++ joined (c :: above) = relative ++ c ++ ['/'] ++ joined above := by
    intro above habove
    rw [joined_cons c habove]
    simp
  refine ⟨?_, ?_⟩
  · intro h
    refine ⟨h.shown c (by simp), ?_, fun x hx => h.shown x (List.mem_cons_of_mem c hx), ?_, ?_⟩
    · simpa [joined_singleton] using h.kept [c] (by simp) (by simp)
    · intro above habove hpre
      rw [← hjoined habove]
      exact h.kept (c :: above) (by simp) (List.cons_prefix_cons.mpr ⟨rfl, hpre⟩)
    · rw [← hjoined hne]
      exact h.matched
  · intro hyp
    obtain ⟨hh, he, h⟩ := hyp
    refine ⟨?_, ?_, ?_⟩
    · intro x hx
      rcases List.mem_cons.mp hx with rfl | hx
      · exact hh
      · exact h.shown x hx
    · intro above habove hpre
      rcases List.prefix_cons_iff.mp hpre with rfl | ⟨more, rfl, hmore⟩
      · exact (habove rfl).elim
      · by_cases hnil : more = []
        · rw [hnil, joined_singleton]
          exact he
        · rw [hjoined hnil]
          exact h.kept more hnil hmore
    · rw [hjoined hne]
      exact h.matched

theorem Wants.prune_eq_false (hp : Pieces way) (hne : way ≠ []) (h : s.Wants relative (c :: way)) :
    (s.verdict (relative ++ c)).prune = false := by
  obtain ⟨-, he, hrest⟩ := (wants_cons hne).mp h
  refine prune_eq_false_of_accepts (joined_ne_nil hp hne) he ?_
  simpa using hrest.matched

end Selection

/-! ## A visit with all that it leads to -/

namespace Dialogue

variable {α β : Type} {fs : FileSystem} {dialogue : Dialogue α} {next : α → Dialogue β}

theorem asked_bind_isPrefix : (dialogue.run fs).asked <+: ((dialogue >>= next).run fs).asked := by
  rw [run_bind, Transcript.andThen]
  cases (dialogue.run fs).ending with
  | error why => exact List.prefix_refl _
  | ok a => exact List.prefix_append _ _

end Dialogue

namespace Selection

variable {d : Disk} {s : Selection} {t : Task} {place : Place} {above : List Place} {depth : Nat}

/-- Every directory that was to be listed can be. -/
def Listable (d : Disk) (asked : List Query) : Prop :=
  ∀ path ∈ listedIn asked, ∃ children, d.list path = .ok children

theorem Listable.of_isPrefix {asked more : List Query} (hpre : asked <+: more)
    (h : Listable d more) : Listable d asked :=
  fun path hp => h path ((hpre.filterMap _).subset hp)

theorem listable_append {asked more : List Query} :
    Listable d (asked ++ more) ↔ Listable d asked ∧ Listable d more := by
  unfold Listable
  simp only [listedIn_append, List.forall_mem_append]

end Selection

theorem Failure.OfListing.not_listable {d : Disk} {asked : List Query} {why : Failure}
    (h : why.OfListing d asked) : ¬Selection.Listable d asked := by
  obtain ⟨path, err, hp, hl, -⟩ := h
  intro hall
  obtain ⟨children, hc⟩ := hall path (Selection.mem_listedIn.mpr hp)
  rw [hl] at hc
  cases hc

/-- If the dialogue breaks off, that is for a listing that it asked for, or for going too deep. -/
def Dialogue.StopsAtListings {α : Type} (d : Disk) (dialogue : Dialogue α) : Prop :=
  ∀ why, (dialogue.run d.fileSystem).ending = .error why →
    why = .tooDeep ∨ why.OfListing d (dialogue.run d.fileSystem).asked

namespace Dialogue.StopsAtListings

variable {α β : Type} {d : Disk} {dialogue : Dialogue α} {next : α → Dialogue β}

theorem done (a : α) : (Dialogue.done a).StopsAtListings d := fun _ h => by cases h

theorem tooDeep : (Dialogue.stop .tooDeep : Dialogue α).StopsAtListings d := by
  intro why h
  cases h
  exact .inl rfl

theorem bind (h : dialogue.StopsAtListings d) (hnext : ∀ a, (next a).StopsAtListings d) :
    (dialogue >>= next).StopsAtListings d := by
  intro why hwhy
  rcases ending_bind_eq_error.mp hwhy with hwhy | ⟨a, ha, hwhy⟩
  · exact (h why hwhy).imp_right (·.mono asked_bind_isPrefix.subset)
  · refine (hnext a why hwhy).imp_right (·.mono ?_)
    rw [run_bind, Transcript.andThen, ha]
    exact List.subset_append_right _ _

theorem forM {tasks : List α} {visit : α → Dialogue Unit} (h : ∀ t, (visit t).StopsAtListings d) :
    (tasks.forM visit).StopsAtListings d := by
  induction tasks with
  | nil => exact done ()
  | cons t tasks ih => exact (h t).bind fun _ => ih

theorem visitAll (s : Selection) (depth : Nat) (t : Task) : (s.visitAll depth t).StopsAtListings d := by
  induction depth generalizing t with
  | zero => exact tooDeep
  | succ depth ih =>
    have hvisit : (t.visit s).StopsAtListings d := fun _ h => .inr (Disk.visit_breaks_off h)
    exact hvisit.bind fun _ => forM ih

end Dialogue.StopsAtListings

namespace Selection

variable {d : Disk} {s : Selection} {t : Task} {place : Place} {above : List Place} {depth : Nat}

theorem listable_forM {visit : Task → Dialogue Unit} {tasks : List Task}
    (hv : ∀ t ∈ tasks, Listable d ((visit t).run d.fileSystem).asked →
      ((visit t).run d.fileSystem).ending = .ok ())
    (h : Listable d ((tasks.forM visit).run d.fileSystem).asked) :
    ∀ t ∈ tasks, Listable d ((visit t).run d.fileSystem).asked ∧
      ((visit t).run d.fileSystem).ending = .ok () := by
  induction tasks with
  | nil => exact fun _ ht => by cases ht
  | cons t tasks ih =>
    rw [forM_cons] at h
    have ht := h.of_isPrefix Dialogue.asked_bind_isPrefix
    have hdone := hv t List.mem_cons_self ht
    rw [Dialogue.run_bind, Transcript.andThen, hdone] at h
    have hrest := ih (fun u hu => hv u (List.mem_cons_of_mem t hu)) (listable_append.mp h).2
    intro u hu
    rcases List.mem_cons.mp hu with rfl | hu
    · exact ⟨ht, hdone⟩
    · exact hrest u hu

theorem run_visit_of_listable (h : Listable d ((t.visit s).run d.fileSystem).asked) :
    ∃ children asked, d.list t.path = .ok children ∧ (t.visit s).run d.fileSystem =
      ⟨children.flatMap (t.reports s d.fileSystem), asked,
        .ok (children.flatMap (t.subtasks s d.fileSystem))⟩ := by
  cases hl : d.list t.path with
  | error err =>
    rw [Disk.run_visit_error hl] at h
    obtain ⟨children, hc⟩ := h t.path (by simp [listedIn])
    rw [hl] at hc
    cases hc
  | ok children =>
    obtain ⟨asked, hrun, -, -⟩ := Disk.run_visit (s := s) hl
    exact ⟨children, asked, rfl, hrun⟩

theorem ending_visitAll (hends : s.Ends d.fileSystem depth (t.visit s))
    (h : Listable d ((s.visitAll depth t).run d.fileSystem).asked) :
    ((s.visitAll depth t).run d.fileSystem).ending = .ok () := by
  cases hend : ((s.visitAll depth t).run d.fileSystem).ending with
  | ok _ => rfl
  | error why =>
    rcases Dialogue.StopsAtListings.visitAll s depth t why hend with rfl | hlisting
    · exact (visitAll_breaks_off hends hend rfl).elim
    · exact (hlisting.not_listable h).elim

/-- If every listing succeeds, a visit with all that it leads to reports what its entries are worth and
what the visits that it leads to report. -/
theorem run_visitAll (hends : s.Ends d.fileSystem (depth + 1) (t.visit s))
    (h : Listable d ((s.visitAll (depth + 1) t).run d.fileSystem).asked) :
    ∃ children, d.list t.path = .ok children ∧
      (∀ u ∈ children.flatMap (t.subtasks s d.fileSystem), s.Ends d.fileSystem depth (u.visit s) ∧
        Listable d ((s.visitAll depth u).run d.fileSystem).asked) ∧
      ((s.visitAll (depth + 1) t).run d.fileSystem).found =
        children.flatMap (t.reports s d.fileSystem) ++
          (children.flatMap (t.subtasks s d.fileSystem)).flatMap fun u =>
            ((s.visitAll depth u).run d.fileSystem).found := by
  obtain ⟨children, asked, hl, hrun⟩ :=
    run_visit_of_listable (h.of_isPrefix Dialogue.asked_bind_isPrefix)
  have hdeep := hends _ (by rw [hrun])
  rw [visitAll, Dialogue.run_bind, hrun] at h ⊢
  have hall := listable_forM (fun u hu => ending_visitAll (hdeep u hu)) (listable_append.mp h).2
  refine ⟨children, hl, fun u hu => ⟨hdeep u hu, (hall u hu).1⟩, ?_⟩
  rw [Transcript.andThen_ok, run_forM fun u hu => (hall u hu).2]

/-- A visit of a directory with all that it leads to finds exactly what is reached from there and
wanted. -/
theorem mem_found_visitAll (hd : d.Lawful) (hplaced : t.Placed d place above)
    (hends : s.Ends d.fileSystem depth (t.visit s))
    (h : Listable d ((s.visitAll depth t).run d.fileSystem).asked) {p : Path} :
    p ∈ ((s.visitAll depth t).run d.fileSystem).found ↔
      ∃ way c, d.Reaches t.path place above way c ∧ s.Wants t.relative (way ++ [c]) ∧
        p = t.path.descend (way ++ [c]) := by
  -- Induction on the depth: what a visit reports is one name away, what its tasks find is further.
  induction depth generalizing t place above with
  | zero => exact hends.elim
  | succ depth ih =>
    obtain ⟨children, hl, hsub, hfound⟩ := run_visitAll hends h
    rw [hfound, List.mem_append, Disk.mem_reports_iff hplaced hl, List.mem_flatMap]
    refine ⟨?_, ?_⟩
    · intro hyp
      rcases hyp with ⟨c, hc, hh, hhit, rfl⟩ | ⟨u, hu, hp⟩
      · exact ⟨[], c, hc, wants_singleton.mpr ⟨hh, hhit⟩, rfl⟩
      · obtain ⟨hdeep, hlist⟩ := hsub u hu
        obtain ⟨x, q, hq, hh, hprune, rfl⟩ := (Disk.mem_subtasks_iff hd hplaced hl).mp hu
        obtain ⟨way, c, hc, hwants, rfl⟩ := (ih (hq.placed hd hplaced) hdeep hlist).mp hp
        have he := (prune_eq_false_iff.mp hprune).1
        exact ⟨x :: way, c, Disk.reaches_cons.mpr ⟨q, hq, hc⟩,
          (wants_cons (by simp)).mpr ⟨hh, he, hwants⟩, rfl⟩
    · intro hyp
      obtain ⟨way, c, hc, hwants, rfl⟩ := hyp
      cases way with
      | nil =>
        obtain ⟨hh, hhit⟩ := wants_singleton.mp hwants
        exact .inl ⟨c, hc, hh, hhit, rfl⟩
      | cons x way =>
        right
        obtain ⟨q, hq, hrest⟩ := Disk.reaches_cons.mp hc
        -- What is wanted further down keeps the name alive, so the visit gives a task for it.
        have hprune := hwants.prune_eq_false (hrest.pieces hd) (by simp)
        obtain ⟨hh, -, hwants⟩ := (wants_cons (by simp)).mp hwants
        have hu := (Disk.mem_subtasks_iff hd hplaced hl).mpr ⟨x, q, hq, hh, hprune, rfl⟩
        obtain ⟨hdeep, hlist⟩ := hsub _ hu
        exact ⟨_, hu, (ih (hq.placed hd hplaced) hdeep hlist).mpr ⟨way, c, hrest, hwants, rfl⟩⟩

end Selection

end TreeGlob
