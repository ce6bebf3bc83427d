import TreeGlob.Proofs.Search.Feed
import TreeGlob.Proofs.Search.Order

/-!
A search finds exactly what is reached from its base and wanted, each once.

* `nodup_found_visitAll` says that a visit with all it leads to finds nothing twice.
* `stepDown_of_enters` and `enters_of_stepDown` say that going straight down takes the steps of a
  descent, `descend_sound` and `descend_complete` that it leaves nothing out.
* `Selection.CanReport` are the reports that a search can come to, with its jobs taking turns in any
  way; `report_of_listable` says that a search that begins fails only if some listing does.
* `Selection.finds_exactly_what_is_wanted` is the main result.
-/
namespace TreeGlob

namespace Selection

variable {d : Disk} {s : Selection} {t u : Task} {place : Place} {above : List Place} {depth : Nat}

/-! ## Nothing is found twice -/

theorem nodup_found_visitAll (hd : d.Lawful) (hends : s.Ends d.fileSystem depth (t.visit s))
    (h : Listable d ((s.visitAll depth t).run d.fileSystem).asked) :
    ((s.visitAll depth t).run d.fileSystem).found.Nodup := by
  rw [run_visitAll_of_ok (Disk.tidy hd) (ending_visitAll hends h)]
  exact nodup_found (Disk.tidy hd) s depth t

/-! ## Going straight down -/

theorem stepDown_eq_some {c : Text}
    (h : ((s.stepDown t c).run d.fileSystem).ending = .ok (some u)) :
    s.hides c = false ∧ s.excludes (t.relative ++ c) = false ∧
      ∃ real, d.realPath (t.path.child (Utf8.encode c)) = .ok real ∧ d.isDirectory real = true ∧
        t.leadsBack real = false ∧ u = t.enter (Utf8.encode c) c real := by
  rw [(Disk.run_stepDown d s t c).2] at h
  split at h
  · cases h
  · next hgo =>
    obtain ⟨hh, he⟩ : s.hides c = false ∧ s.excludes (t.relative ++ c) = false := by
      simpa using hgo
    refine ⟨hh, he, ?_⟩
    split at h
    · split at h <;> cases h
    · next real hr =>
      split at h
      · next hdir =>
        obtain ⟨hdir, hback⟩ : d.isDirectory real = true ∧ t.leadsBack real = false := by
          simpa using hdir
        cases h
        exact ⟨real, hr, hdir, hback, rfl⟩
      · cases h

/-- A step down takes a step of a descent, if the path is short enough to be looked up. -/
theorem enters_of_stepDown (hd : d.Lawful) (hplaced : t.Placed d place above)
    (hat : d.DirectoryAt t.path place) {c : Text} (hc : c ≠ [] ∧ '/' ∉ c)
    (hs : (t.path.child (Utf8.encode c)).bytes.length < maxPathLength)
    (h : ((s.stepDown t c).run d.fileSystem).ending = .ok (some u)) :
    ∃ q, d.Enters t.path place above c q ∧ d.DirectoryAt u.path q ∧
      u = t.enter (Utf8.encode c) c (Disk.pathTo q) := by
  obtain ⟨-, -, real, hr, hdir, hback, rfl⟩ := stepDown_eq_some h
  obtain ⟨q, rfl, hq⟩ := (Disk.isDirectory_of_realPath hd hr).mp hdir
  have hapart := (hplaced.leadsBack_iff hd hq.get?_eq).mp hback
  refine ⟨q, ?_, hq, rfl⟩
  have hl := hq.leads hd
  rw [Path.steps_child t.path (encode_ne_nil hc.1) (separator_not_mem_encode hc.2)] at hl
  obtain ⟨m, hm, hl⟩ := hl.split
  obtain rfl := hplaced.leads m hm
  unfold Step.ofPiece at hl
  -- A dot leads back to where it is, two dots lead to what contains it.
  split at hl
  · cases hl with
    | here hl =>
      cases hl
      exact (hapart _ List.mem_cons_self (List.prefix_refl _)).elim
  · split at hl
    · cases hl with
      | up hl =>
        cases hl
        exact (hapart _ List.mem_cons_self ( List.dropLast_prefix _)).elim
    · cases hl with
      | enter hn hl =>
        cases hl
        exact .directory hn
      | file hn =>
        have hdir := hq.get?_eq
        rw [hn] at hdir
        cases hdir
      | follow hn _ =>
        refine .link hn ?_ hq.get?_eq hapart
        rw [hat.resolve_child hd hn hs, hr]
        rfl

/-- A step of a descent is one that a step down takes, unless the system finds the real path of a
directory too long. -/
theorem stepDown_of_enters (hd : d.Lawful) (hplaced : t.Placed d place above)
    (hat : d.DirectoryAt t.path place) {c : Text} {q : Place} (hq : d.Enters t.path place above c q)
    (hh : s.hides c = false) (he : s.excludes (t.relative ++ c) = false)
    (hb : d.get? (place ++ [Utf8.encode c]) = some .dir →
      d.realPath (t.path.child (Utf8.encode c)) ≠ .error (.os Errno.nameTooLong)) :
    ((s.stepDown t c).run d.fileSystem).ending =
        .ok (some (t.enter (Utf8.encode c) c (Disk.pathTo q))) ∧
      d.DirectoryAt (t.path.child (Utf8.encode c)) q := by
  obtain ⟨hr, hdir, hapart⟩ : d.realPath (t.path.child (Utf8.encode c)) = .ok (Disk.pathTo q) ∧
      d.get? q = some .dir ∧ ∀ p ∈ place :: above, ¬q <+: p := by
    cases hq with
    | directory hn =>
      refine ⟨?_, hn, hplaced.child_apart _⟩
      rcases hat.realPath_child_cases hd hn (by simp) with hr | hr
      · exact hr
      · exact (hb hn hr).elim
    | link hn hr hdir hapart => exact ⟨Disk.realPath_of_resolve hr, hdir, hapart⟩
  have hat' : d.DirectoryAt (t.path.child (Utf8.encode c)) q := ⟨hr, hdir⟩
  refine ⟨?_, hat'⟩
  have hisdir := (Disk.isDirectory_of_realPath hd hr).mpr ⟨q, rfl, hat'⟩
  have hback := (hplaced.leadsBack_iff hd hdir).mpr hapart
  rw [(Disk.run_stepDown d s t c).2]
  simp [hh, he, hr, hisdir, hback]

variable {components : List Text}

theorem descend_cons_eq_some {c : Text} :
    ((s.descend (c :: components) t).run d.fileSystem).ending = .ok (some u) ↔
      ∃ next, ((s.stepDown t c).run d.fileSystem).ending = .ok (some next) ∧
        ((s.descend components next).run d.fileSystem).ending = .ok (some u) := by
  rw [descend, Dialogue.ending_bind_eq_ok]
  refine ⟨?_, ?_⟩
  · intro hyp
    obtain ⟨next, hstep, h⟩ := hyp
    cases next with
    | none => cases h
    | some next => exact ⟨next, hstep, h⟩
  · intro hyp
    obtain ⟨next, hstep, h⟩ := hyp
    exact ⟨some next, hstep, h⟩

theorem path_of_descend
    (h : ((s.descend components t).run d.fileSystem).ending = .ok (some u)) :
    u.path = t.path.descend components := by
  induction components generalizing t with
  | nil =>
    cases h
    rfl
  | cons c components ih =>
    obtain ⟨next, hstep, h⟩ := descend_cons_eq_some.mp h
    obtain ⟨-, -, real, -, -, -, rfl⟩ := stepDown_eq_some hstep
    exact ih h

/-- Whatever is reached and wanted from where a search begins is so from its base. -/
theorem descend_sound (hd : d.Lawful) (hp : Pieces components) (hplaced : t.Placed d place above)
    (hat : d.DirectoryAt t.path place) (hs : u.path.bytes.length < maxPathLength)
    (h : ((s.descend components t).run d.fileSystem).ending = .ok (some u)) :
    ∃ q others, u.Placed d q others ∧ d.DirectoryAt u.path q ∧
      ∀ way c, d.Reaches u.path q others way c → s.Wants u.relative (way ++ [c]) →
        d.Reaches t.path place above (components ++ way) c ∧
          s.Wants t.relative (components ++ (way ++ [c])) := by
  induction components generalizing t place above with
  | nil =>
    cases h
    exact ⟨place, above, hplaced, hat, fun way c hr hw => ⟨hr, hw⟩⟩
  | cons c components ih =>
    have hmore : Pieces components := fun x hx => hp x (List.mem_cons_of_mem c hx)
    have hpath := path_of_descend h
    obtain ⟨next, hstep, h⟩ := descend_cons_eq_some.mp h
    have hlen := Path.length_child_lt_of_descend hmore (hpath ▸ hs)
    obtain ⟨hh, he, -⟩ := stepDown_eq_some hstep
    obtain ⟨q, hq, hat', rfl⟩ :=
      enters_of_stepDown hd hplaced hat (hp c List.mem_cons_self) hlen hstep
    obtain ⟨last, others, hu, hlast, hback⟩ := ih hmore (hq.placed hd hplaced) hat' h
    refine ⟨last, others, hu, hlast, ?_⟩
    intro way x hr hw
    obtain ⟨hr, hw⟩ := hback way x hr hw
    exact ⟨Disk.reaches_cons.mpr ⟨q, hq, hr⟩, (wants_cons (by simp)).mpr ⟨hh, he, hw⟩⟩

/-- No real path that was asked for is refused for any other reason than that nothing is there. -/
def Unblocked (d : Disk) (asked : List Query) : Prop :=
  ∀ path err, .canonicalize path ∈ asked → d.realPath path = .error err → err.kind = .notFound

def refuses (d : Disk) : Query → Bool
  | .canonicalize path =>
    match d.realPath path with
    | .ok _ => false
    | .error err => err.kind ≠ .notFound
  | _ => false

theorem unblocked_iff {asked : List Query} :
    Unblocked d asked ↔ ∀ q ∈ asked, refuses d q = false := by
  refine ⟨?_, ?_⟩
  · intro h q hq
    cases q with
    | canonicalize path =>
      rw [refuses]
      cases hr : d.realPath path with
      | ok real => simp
      | error err => simp [h path err hq hr]
    | list | resolve | leads | isDirectory => rfl
  · intro h path err hp hr
    have hq := h _ hp
    rw [refuses, hr] at hq
    simpa using hq

instance (d : Disk) (asked : List Query) : Decidable (Unblocked d asked) :=
  decidable_of_iff' _ unblocked_iff

theorem Unblocked.ne_nameTooLong {asked : List Query} (h : Unblocked d asked) {path : Path}
    (hp : .canonicalize path ∈ asked) : d.realPath path ≠ .error (.os Errno.nameTooLong) :=
  fun he => by cases h path _ hp he

theorem canonicalize_mem_stepDown (fs : FileSystem) {c : Text} (hh : s.hides c = false)
    (he : s.excludes (t.relative ++ c) = false) :
    .canonicalize (t.path.child (Utf8.encode c)) ∈ ((s.stepDown t c).run fs).asked := by
  unfold stepDown
  simp [hh, he, Dialogue.query, Dialogue.run]

theorem Unblocked.of_isPrefix {asked more : List Query} (hpre : asked <+: more)
    (h : Unblocked d more) : Unblocked d asked :=
  fun path err hp => h path err (hpre.subset hp)

theorem Unblocked.descend {c : Text} {next : Task}
    (h : Unblocked d ((s.descend (c :: components) t).run d.fileSystem).asked)
    (hstep : ((s.stepDown t c).run d.fileSystem).ending = .ok (some next)) :
    Unblocked d ((s.descend components next).run d.fileSystem).asked := by
  intro path err hp
  refine h path err ?_
  rw [Selection.descend, Dialogue.run_bind, Transcript.andThen, hstep]
  exact List.mem_append_right _ hp

/-- Whatever is reached and wanted from the base of a search, by a way that begins with the given
components, is so from where the search begins. -/
theorem descend_complete (hd : d.Lawful) (hplaced : t.Placed d place above)
    (hat : d.DirectoryAt t.path place)
    (hb : Unblocked d ((s.descend components t).run d.fileSystem).asked) {way : List Text} {c : Text}
    (hr : d.Reaches t.path place above (components ++ way) c)
    (hw : s.Wants t.relative (components ++ (way ++ [c]))) :
    ∃ u q others, ((s.descend components t).run d.fileSystem).ending = .ok (some u) ∧
      u.Placed d q others ∧ d.Reaches u.path q others way c ∧ s.Wants u.relative (way ++ [c]) := by
  induction components generalizing t place above with
  | nil => exact ⟨t, place, above, rfl, hplaced, hr, hw⟩
  | cons x components ih =>
    obtain ⟨q, hq, hr⟩ := Disk.reaches_cons.mp hr
    obtain ⟨hh, he, hw⟩ := (wants_cons (by simp)).mp hw
    have hasked := canonicalize_mem_stepDown d.fileSystem hh he
    have hshort := hb.ne_nameTooLong (Dialogue.asked_bind_isPrefix.subset hasked)
    obtain ⟨hstep, hat'⟩ := stepDown_of_enters hd hplaced hat hq hh he fun _ => hshort
    obtain ⟨u, last, others, hu, hrest⟩ := ih (hq.placed hd hplaced) hat' (hb.descend hstep) hr hw
    exact ⟨u, last, others, descend_cons_eq_some.mpr ⟨_, hstep, hu⟩, hrest⟩

/-- A step down breaks off only if the system refuses the real path, and for that reason. -/
theorem stepDown_eq_error {c : Text} {why : Failure}
    (h : ((s.stepDown t c).run d.fileSystem).ending = .error why) :
    s.hides c = false ∧ s.excludes (t.relative ++ c) = false ∧
      ∃ err, d.realPath (t.path.child (Utf8.encode c)) = .error err ∧ err.kind ≠ .notFound ∧
        why = .error (.ofIo err (t.path.child (Utf8.encode c))) := by
  rw [(Disk.run_stepDown d s t c).2] at h
  split at h
  · cases h
  · next hgo =>
    obtain ⟨hh, he⟩ : s.hides c = false ∧ s.excludes (t.relative ++ c) = false := by
      simpa using hgo
    split at h
    · next err hr =>
      split at h
      · cases h
      · next hkind =>
        cases h
        exact ⟨hh, he, err, hr, hkind, rfl⟩
    · cases h

/-- Going straight down breaks off only for the real path of a directory on the way. -/
theorem descend_eq_error {why : Failure}
    (h : ((s.descend components t).run d.fileSystem).ending = .error why) :
    ∃ way err, way ≠ [] ∧ way <+: components ∧ d.realPath (t.path.descend way) = .error err ∧
      err.kind ≠ .notFound ∧ why = .error (.ofIo err (t.path.descend way)) := by
  induction components generalizing t with
  | nil => cases h
  | cons c components ih =>
    rcases Dialogue.ending_bind_eq_error.mp h with h | ⟨next, hstep, h⟩
    · obtain ⟨-, -, err, hr, hkind, hwhy⟩ := stepDown_eq_error h
      exact ⟨[c], err, by simp, by simp, hr, hkind, hwhy⟩
    · cases next with
      | none => cases h
      | some next =>
        obtain ⟨-, -, real, -, -, -, rfl⟩ := stepDown_eq_some hstep
        obtain ⟨way, err, -, hpre, hrest⟩ := ih h
        exact ⟨c :: way, err, by simp, List.cons_prefix_cons.mpr ⟨rfl, hpre⟩, hrest⟩

theorem descend_of_unblocked (hb : Unblocked d ((s.descend components t).run d.fileSystem).asked) :
    ∃ start, ((s.descend components t).run d.fileSystem).ending = .ok start := by
  induction components generalizing t with
  | nil => exact ⟨some t, rfl⟩
  | cons c components ih =>
    cases hstep : ((s.stepDown t c).run d.fileSystem).ending with
    | error why =>
      obtain ⟨hh, he, err, hr, hkind, -⟩ := stepDown_eq_error hstep
      have hasked := canonicalize_mem_stepDown d.fileSystem hh he
      exact (hkind (hb _ err (Dialogue.asked_bind_isPrefix.subset hasked) hr)).elim
    | ok next =>
      cases next with
      | none => exact ⟨none, Dialogue.ending_bind_eq_ok.mpr ⟨none, hstep, rfl⟩⟩
      | some next =>
        obtain ⟨start, hstart⟩ := ih (hb.descend hstep)
        exact ⟨start, Dialogue.ending_bind_eq_ok.mpr ⟨some next, hstep, hstart⟩⟩

end Selection

/-! ## Reports -/

namespace Selection

variable {d : Disk} {s : Selection} {base : Path} {r : Report}

/-- The reports that a search can come to: a parallel one takes its jobs in any order. -/
def CanReport (s : Selection) (start : Dialogue (Option Task)) (fs : FileSystem) (extent : Extent) :
    Strategy → Report → Prop
  | .sequential, r => r = ((s.sequentialFrom start extent.depth).run fs).report
  | .parallel, r => ∃ pick, r = s.parallelFrom start fs pick extent.steps

theorem canReport_search (s : Selection) (fs : FileSystem) (extent : Extent) (strategy : Strategy)
    (base : Path) :
    s.CanReport (s.begin base) fs extent strategy (s.search strategy fs extent base) := by
  cases strategy with
  | sequential => rfl
  | parallel => exact ⟨id, rfl⟩

variable {components : List Text} {strategy : Strategy} {b : Place}

def firstTask (base : Path) (b : Place) : Task := ⟨base, [], Disk.pathTo b, []⟩

theorem placed_firstTask (hd : d.Lawful) (hb : d.DirectoryAt base b) :
    (firstTask base b).Placed d b [] where
  real_eq := rfl
  above_eq := rfl
  get?_eq := by simp [hb.get?_eq]
  leads := fun q hq => hq.unique (hb.leads hd)
  apart := List.pairwise_singleton _ _

/-- A search below a directory goes down from there, once it has asked for its real path. -/
theorem run_beginAlong (hd : d.Lawful) (hb : d.DirectoryAt base b) (components : List Text) :
    ∃ asked, (∀ path, .canonicalize path ∈ asked → path = base) ∧
      (s.beginAlong components base).run d.fileSystem =
        ⟨[], asked ++ ((s.descend components (firstTask base b)).run d.fileSystem).asked,
          ((s.descend components (firstTask base b)).run d.fileSystem).ending⟩ := by
  have hdir := (Disk.isDirectory_of_realPath hd hb.realPath_eq).mpr ⟨b, rfl, hb⟩
  have hq : d.fileSystem (.canonicalize base) = .ok (Disk.pathTo b) :=
    Disk.answer_eq_ok.mpr hb.realPath_eq
  have hbase : (baseTask base).run d.fileSystem =
      ⟨[], [.canonicalize base, .isDirectory (Disk.pathTo b)], .ok (firstTask base b)⟩ := by
    unfold baseTask
    simp only [Dialogue.query, Dialogue.ask_bind, Dialogue.done_bind, Dialogue.run, hq,
      Dialogue.demand]
    simp [Disk.fileSystem, hdir, Dialogue.run, firstTask]
  refine ⟨[.canonicalize base, .isDirectory (Disk.pathTo b)], fun path hp => by simpa using hp, ?_⟩
  rw [beginAlong, Dialogue.run_bind, hbase, Transcript.andThen_ok,
    (onlyLooks_descend s components _).found_eq_nil]
  rfl

/-- The way down from the base of a search is blocked just if the search is. -/
theorem unblocked_beginAlong (hd : d.Lawful) (hb : d.DirectoryAt base b) :
    Unblocked d ((s.beginAlong components base).run d.fileSystem).asked ↔
      Unblocked d ((s.descend components (firstTask base b)).run d.fileSystem).asked := by
  obtain ⟨asked, hasked, hrun⟩ := run_beginAlong (s := s) hd hb components
  rw [hrun]
  refine ⟨fun hu path err hp => hu path err (List.mem_append_right _ hp), ?_⟩
  intro hu path err hp he
  rcases List.mem_append.mp hp with hp | hp
  · -- The base has a real path.
    rw [hasked path hp, hb.realPath_eq] at he
    cases he
  · exact hu path err hp he

/-- A search ends its way down as going straight down from the base does. -/
theorem ending_begin (hd : d.Lawful) (hb : d.DirectoryAt base b) :
    ((s.begin base).run d.fileSystem).ending =
      ((s.descend s.startComponents (firstTask base b)).run d.fileSystem).ending := by
  obtain ⟨asked, -, hrun⟩ := run_beginAlong (s := s) hd hb s.startComponents
  rw [begin, hrun]

theorem parallelFrom_of_listable (hd : d.Lawful) {start : Option Task}
    (hs : ((s.beginAlong components base).run d.fileSystem).ending = .ok start) {pick : Nat → Nat}
    (hl : ∀ path ∈ (s.parallelFrom (s.beginAlong components base) d.fileSystem pick
      d.extent.steps).listed, ∃ children, d.list path = .ok children) :
    (s.parallelFrom (s.beginAlong components base) d.fileSystem pick d.extent.steps).failure =
      none := by
  cases start with
  | none =>
    rw [parallelFrom_of_none hs]
    simp [Transcript.report, hs]
  | some t =>
    have hover := Created.isOver_run hd (.start hs) pick
    rw [parallelFrom_of_some hs, if_pos hover] at hl ⊢
    cases hf : ((Pool.start (t.visit s)).run d.fileSystem s pick d.extent.steps).failure with
    | none => rfl
    | some why =>
      have hlisting := ((Pool.kept_stopsAtListings d s).run_start t pick d.extent.steps).2 why hf
      exact (hlisting.not_listable (listable_append.mp hl).2).elim

/-- A search that begins, and whose every listing succeeds, does not fail. It finds nothing if there is
nothing to begin with, and otherwise what a visit finds with all that it leads to. -/
theorem report_of_listable (hd : d.Lawful) {start : Option Task}
    (hs : ((s.beginAlong components base).run d.fileSystem).ending = .ok start)
    (hr : s.CanReport (s.beginAlong components base) d.fileSystem d.extent strategy r)
    (hl : ∀ path ∈ r.listed, ∃ children, d.list path = .ok children) :
    r.failure = none ∧
      match start with
      | none => r.found = []
      | some t => Listable d ((s.visitAll d.extent.depth t).run d.fileSystem).asked ∧
          r.found.Perm ((s.visitAll d.extent.depth t).run d.fileSystem).found := by
  have hsequential : ∀ q : Report,
      q = ((s.sequentialFrom (s.beginAlong components base) d.extent.depth).run d.fileSystem).report →
      (∀ path ∈ q.listed, ∃ children, d.list path = .ok children) →
      q.failure = none ∧
        match start with
        | none => q.found = []
        | some t => Listable d ((s.visitAll d.extent.depth t).run d.fileSystem).asked ∧
            q.found.Perm ((s.visitAll d.extent.depth t).run d.fileSystem).found := by
    rintro q rfl hl
    have hnothing := (onlyLooks_beginAlong s components base).found_eq_nil d.fileSystem
    cases start with
    | none =>
      rw [sequentialFrom_of_none hs]
      simp [Transcript.report, hs, hnothing]
    | some t =>
      rw [sequentialFrom_of_some hs] at hl ⊢
      have hlist : Listable d ((s.visitAll d.extent.depth t).run d.fileSystem).asked :=
        (listable_append.mp hl).2
      have hdone := ending_visitAll (Created.ends hd (.start hs)) hlist
      refine ⟨by simp [Transcript.report, hdone], hlist, ?_⟩
      simp [Transcript.report, hnothing]
  cases strategy with
  | sequential => exact hsequential r hr hl
  | parallel =>
    obtain ⟨pick, rfl⟩ := hr
    have hf := parallelFrom_of_listable hd hs hl
    -- A parallel search that does not fail is compared to the sequential one.
    obtain ⟨hiff, hagree⟩ := parallelFrom_agrees hd s components base pick
    obtain ⟨hfound, hlisted⟩ := hagree (hiff.mp hf)
    obtain ⟨-, hq⟩ := hsequential _ rfl fun path hp => hl path (hlisted.mem_iff.mpr hp)
    refine ⟨hf, ?_⟩
    cases start with
    | none => exact List.Perm.eq_nil (hq ▸ hfound)
    | some t => exact ⟨hq.1, hfound.trans hq.2⟩

/-- Whatever is wanted lies below where a search begins. -/
theorem start_of_wanted (hd : d.Lawful) (hb : d.DirectoryAt base b)
    (hu : Unblocked d ((s.descend s.startComponents (firstTask base b)).run d.fileSystem).asked)
    {way : List Text} {c : Text} (hr : d.Reaches base b [] way c) (hw : s.Wants [] (way ++ [c])) :
    ∃ rest u q others, way = s.startComponents ++ rest ∧
      ((s.descend s.startComponents (firstTask base b)).run d.fileSystem).ending = .ok (some u) ∧
      u.Placed d q others ∧ d.Reaches u.path q others rest c ∧ s.Wants u.relative (rest ++ [c]) := by
  have hhit : (s.verdict (joined (way ++ [c]))).hit = true :=
    hit_iff.mpr ⟨hw.kept _ (by simp) (List.prefix_refl _), hw.matched⟩
  obtain ⟨rest, hrest, hsplit⟩ := start_of_hit (hr.pieces hd) (by simp) hhit
  -- The last name is not one of the start directory, so all of that is on the way.
  rcases List.eq_nil_or_concat rest with rfl | ⟨rest, last, rfl⟩
  · exact (hrest rfl).elim
  · rw [List.concat_eq_append, ← List.append_assoc] at hsplit
    obtain ⟨rfl, hlast⟩ := List.append_inj' hsplit rfl
    obtain rfl := (List.cons.inj hlast).1
    rw [List.append_assoc] at hw
    obtain ⟨u, q, others, hu, hrest⟩ := descend_complete hd (placed_firstTask hd hb) hb hu hr hw
    exact ⟨rest, u, q, others, rfl, hu, hrest⟩

/-- **A search finds exactly what is wanted, each once.** On a disk that does not change, below a base
that is a directory, a search in which every listing succeeds and no real path is refused on the way to
where it begins ends without an error. Its feed gives exactly the paths of the entries that are reached
from the base and wanted, none of them twice, be the search sequential or parallel. -/
theorem finds_exactly_what_is_wanted (hd : d.Lawful) (s : Selection)
    (hb : d.DirectoryAt base b)
    (hr : s.CanReport (s.begin base) d.fileSystem d.extent strategy r)
    (hl : ∀ path ∈ r.listed, ∃ children, d.list path = .ok children)
    (hu : Unblocked d ((s.begin base).run d.fileSystem).asked) :
    (Feed.ofReport r).readAll.failure = none ∧ (Feed.ofReport r).readAll.rest.ended = true ∧
      (Feed.ofReport r).readAll.paths.Nodup ∧
      ∀ p, p ∈ (Feed.ofReport r).readAll.paths ↔ ∃ way c, d.Reaches base b [] way c ∧
        s.Wants [] (way ++ [c]) ∧ p = base.descend (way ++ [c]) := by
  have hplaced := placed_firstTask hd hb
  have hu := (unblocked_beginAlong hd hb).mp hu
  obtain ⟨start, hstart⟩ := descend_of_unblocked hu
  obtain ⟨asked, -, hrun⟩ := run_beginAlong (s := s) hd hb s.startComponents
  have hs : ((s.begin base).run d.fileSystem).ending = .ok start := by
    rw [begin, hrun]
    exact hstart
  obtain ⟨hf, hfound⟩ := report_of_listable hd hs hr hl
  rw [Feed.readAll_ofReport hf]
  refine ⟨rfl, rfl, ?_⟩
  have hpieces : Pieces s.startComponents := startComponents.pieces_pieces _
  cases start with
  | none =>
    rw [show r.found = [] from hfound]
    refine ⟨List.nodup_nil, fun p => iff_of_false (by simp) ?_⟩
    intro hyp
    obtain ⟨way, c, hr, hw, -⟩ := hyp
    obtain ⟨_, _, _, _, _, hsome, _⟩ := start_of_wanted hd hb hu hr hw
    rw [hstart] at hsome
    cases hsome
  | some t =>
    obtain ⟨hlist, hperm⟩ := hfound
    have hends := Created.ends hd (.start hs)
    -- The start was listed, so its path is short enough for everything above it to be looked up.
    obtain ⟨children, -, hlt, -⟩ :=
      run_visit_of_listable (hlist.of_isPrefix Dialogue.asked_bind_isPrefix)
    obtain ⟨-, -, -, -, hshort⟩ := Disk.list_cases hlt
    obtain ⟨q, others, ht, -, hsound⟩ := descend_sound hd hpieces hplaced hb hshort hstart
    have hpath : t.path = base.descend s.startComponents := path_of_descend hstart
    refine ⟨hperm.nodup_iff.mpr (nodup_found_visitAll hd hends hlist), ?_⟩
    intro p
    rw [hperm.mem_iff]
    refine ⟨?_, ?_⟩
    · intro hp
      obtain ⟨rest, c, hr, hw, rfl⟩ := (mem_found_visitAll hd ht hends hlist).mp hp
      obtain ⟨hr, hw⟩ := hsound rest c hr hw
      refine ⟨_, c, hr, by rwa [List.append_assoc], ?_⟩
      rw [hpath, List.append_assoc, Path.descend_append base s.startComponents]
    · intro hyp
      obtain ⟨way, c, hr, hw, rfl⟩ := hyp
      obtain ⟨rest, u, last, outer, rfl, htu, hu, hr, hw⟩ := start_of_wanted hd hb hu hr hw
      rw [hstart] at htu
      cases htu
      refine (mem_found_visitAll hd hu hends hlist).mpr ⟨rest, c, hr, hw, ?_⟩
      rw [hpath, List.append_assoc, Path.descend_append base s.startComponents]

/-- Below the link `/home`, all that is in a directory `b` is the link `up`. -/
theorem finds_exactly_what_is_wanted_in_circular :
    ∃ r, belowB.CanReport (belowB.begin (.ofText "/home".toList)) Disk.circular.fileSystem
        Disk.circular.extent .sequential r ∧
      (Feed.ofReport r).readAll.failure = none ∧
      (Feed.ofReport r).readAll.paths = [.ofText "/home/b/up".toList] ∧
      ∃ way c, Disk.circular.Reaches (.ofText "/home".toList) [Utf8.encode "a".toList] [] way c ∧
        belowB.Wants [] (way ++ [c]) ∧
        Path.ofText "/home/b/up".toList = (Path.ofText "/home".toList).descend (way ++ [c]) := by
  have hd : Disk.circular.Lawful := by decide
  have hb : Disk.circular.DirectoryAt (.ofText "/home".toList) [Utf8.encode "a".toList] :=
    ⟨(Disk.answer_eq_ok (p := ⟨[]⟩)).mp (by decide +kernel), by decide⟩
  obtain ⟨r, hr⟩ : ∃ r, r = belowB.search .sequential Disk.circular.fileSystem
    Disk.circular.extent (.ofText "/home".toList) := ⟨_, rfl⟩
  have hlisted : r.listed = [.ofText "/home/b".toList] := by subst hr; decide +kernel
  have hpaths : (Feed.ofReport r).readAll.paths = [.ofText "/home/b/up".toList] := by
    subst hr; decide +kernel
  have hlist : Disk.circular.list (.ofText "/home/b".toList) =
      .ok [⟨Utf8.encode "up".toList, false, true⟩] :=
    (Disk.answer_eq_ok (p := ⟨[]⟩)).mp (by decide +kernel)
  have hl : ∀ path ∈ r.listed, ∃ children, Disk.circular.list path = .ok children := by
    intro path hp
    rw [hlisted, List.mem_singleton] at hp
    exact ⟨_, hp ▸ hlist⟩
  have hu : Unblocked Disk.circular
      ((belowB.begin (.ofText "/home".toList)).run Disk.circular.fileSystem).asked := by decide +kernel
  have hcan := hr ▸ canReport_search belowB Disk.circular.fileSystem Disk.circular.extent .sequential
    (.ofText "/home".toList)
  obtain ⟨hf, -, -, hiff⟩ :=
    finds_exactly_what_is_wanted hd belowB hb hcan hl hu
  exact ⟨r, hcan, hf, hpaths, (hiff _).mp (by simp [hpaths])⟩

end Selection

end TreeGlob
