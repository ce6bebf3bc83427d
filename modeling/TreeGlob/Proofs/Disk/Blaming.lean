import TreeGlob.Proofs.Disk.Moving
import TreeGlob.Proofs.Disk.Presence

/-!
Which path is called not found.

An operation on two paths gets one error number from the system and has to say which of the paths it is
about. Moving an entry, and copying a file, always name the source, also where the way to the target is
missing; and a link that leads nowhere is called not found when it is to be copied, although it is there.

* `Action.NotFoundIn` says that whatever an action calls not found is one of some paths. It is put together
  along the way actions are.
* `Action.blamesIn` says so of what is in a directory that is copied into a hollow one: nothing but paths
  below the target are called not found.
* `Disk.rename_notFound_iff` and `Disk.copyFile_notFound_iff` say when the single steps fail so.
* `Action.notFound_present_iff` is the main result: when a path is called not found that has an entry.
-/
namespace TreeGlob

namespace Disk

variable {d : Disk} {path source target : Path} {e : Entry}

/-! ## Single steps -/

theorem notFound_of_readLink (h : NotFound (d.readLink path)) : NotFound (d.lstat path) := by
  obtain hl | ⟨e, -, h⟩ := notFound_bind.mp h
  · exact hl
  · cases e <;> exact absurd h (by simp [IoError.kind, Errno.invalid])

theorem notFound_of_list (h : NotFound (d.list path)) : NotFound (d.locate .follow path) := by
  obtain hl | ⟨⟨q, e⟩, -, h⟩ := notFound_bind.mp h
  · exact hl
  · cases e <;> exact absurd h (by simp [IoError.kind, Errno.notDirectory])

theorem notFound_of_openFile (h : NotFound (d.openFile target)) : NotFound (d.spot .create target) := by
  obtain hs | ⟨s, -, h⟩ := notFound_bind.mp h
  · exact hs
  have hno : ¬NotFound (.error (.os Errno.isDirectory) : Except IoError (Disk × Place)) :=
    not_notFound_error (by decide)
  split at h
  · split at h
    · exact absurd h hno
    · split at h
      · exact absurd h (not_notFound_ok _)
      · exact absurd h (not_notFound_ok _)
      · exact absurd h hno
  · exact absurd h hno

theorem notFound_of_copyFile (h : NotFound (d.copyFile source target)) :
    NotFound (d.locate .follow source) ∨ NotFound (d.spot .create target) := by
  obtain hl | ⟨⟨q, e⟩, -, h⟩ := notFound_bind.mp h
  · exact .inl hl
  right
  cases e with
  | dir => simp [IoError.kind] at h
  | link held => simp [IoError.kind] at h
  | file contents =>
    obtain ho | ⟨⟨opened, to_⟩, -, h⟩ := notFound_bind.mp h
    · exact notFound_of_openFile ho
    · dsimp only at h
      split at h <;> exact absurd h (not_notFound_ok _)

theorem not_notFound_replaceable (place : Place) (there : Option Entry) :
    ¬NotFound (d.replaceable e place there) := by
  unfold replaceable
  split
  · exact not_notFound_ok _
  · split
    · exact not_notFound_ok _
    · exact not_notFound_error (by decide)
  · exact not_notFound_error (by decide)
  · exact not_notFound_error (by decide)
  · exact not_notFound_ok _

theorem not_notFound_requireNoZero : ¬NotFound path.requireNoZero := by
  unfold Path.requireNoZero
  split
  · exact not_notFound_error (by decide)
  · exact not_notFound_ok _

theorem not_notFound_lookUp (s : Spot) (n : Name) : ¬NotFound (d.lookUp s n) := by
  unfold lookUp
  split
  · exact not_notFound_error (by decide)
  · exact not_notFound_ok _

/-- Once both paths are resolved, an entry that is there is moved or refused for another reason. -/
theorem not_notFound_renameAt {s t : Spot}
    (hfound : ∀ n, s.last = some (.name n) → ∃ e, d.lookUp s n = .ok (some e)) :
    ¬NotFound (d.renameAt s t) := by
  intro h
  unfold renameAt at h
  split at h
  · next m n hm hn =>
    obtain ⟨e, hu⟩ := hfound m hm
    obtain hno | ⟨found, hu', h⟩ := notFound_bind.mp h
    · exact not_notFound_lookUp s m hno
    obtain rfl : some e = found := Except.ok.inj (hu.symm.trans hu')
    obtain hno | ⟨there, -, h⟩ := notFound_bind.mp h
    · exact not_notFound_lookUp t n hno
    split at h
    · exact not_notFound_error (by decide) h
    split at h
    · exact not_notFound_error (by decide) h
    split at h
    · exact not_notFound_error (by decide) h
    split at h
    · exact not_notFound_ok _ h
    obtain hno | ⟨_, -, h⟩ := notFound_bind.mp h
    · exact not_notFound_replaceable _ _ hno
    · exact not_notFound_ok _ h
  · exact not_notFound_error (by decide) h

theorem rename_notFound_iff (hs : d.present source = true) (hne : target.bytes ≠ []) :
    NotFound (d.rename source target) ↔ d.WayMissing target := by
  obtain ⟨s, hs, hfound⟩ := spot_unseen_of_present hs
  have hzero := requireNoZero_eq_ok (admit_of_spot hs)
  rw [← spot_notFound_iff hne]
  cases ht : d.spot .unseen target with
  | ok t =>
    rw [rename_of_spots hs ht]
    exact iff_of_false (not_notFound_renameAt hfound) (not_notFound_ok t)
  | error err =>
    cases hno : target.requireNoZero with
    | ok u =>
      have hrename : d.rename source target = .error err := by
        unfold rename
        rw [hzero, hno, hs, ht]
        rfl
      rw [hrename, notFound_error, notFound_error]
    | error err' =>
      have hrename : d.rename source target = .error err' := by
        unfold rename
        rw [hzero, hno]
        rfl
      have hother : ¬NotFound target.requireNoZero := not_notFound_requireNoZero
      rw [hno, notFound_error] at hother
      rw [hrename, notFound_error, ← ht]
      refine iff_of_false hother fun hmissing => ?_
      have hadmit := ((spot_notFound_iff hne).mp hmissing).1
      rw [requireNoZero_eq_ok hadmit] at hno
      cases hno

theorem copyFile_notFound_iff {contents : Bytes} (hsource : d.lstat source = .ok (.file contents))
    (hne : target.bytes ≠ []) (hfree : d.present target = false) :
    NotFound (d.copyFile source target) ↔ d.WayMissing target := by
  obtain ⟨q, hq⟩ := locate_of_lstat hsource
  have hfollow := locate_follow_of_keep hq (by simp)
  rw [← spot_create_notFound_iff hne hfree]
  constructor
  · intro h
    refine (notFound_of_copyFile h).resolve_left ?_
    rw [hfollow]
    exact not_notFound_ok _
  · intro h
    obtain ⟨err, herr, hkind⟩ := h
    refine ⟨err, ?_, hkind⟩
    unfold copyFile openFile
    rw [hfollow, herr]
    rfl

end Disk

namespace Action

open Disk

variable {α β : Type} {P : Path → Prop} {d : Disk} {path source target p : Path} {from_ place : Place}
  {n : Name} {e : Entry} {depth : Nat}

/-! ## What actions call not found -/

theorem ofIo_eq_notFound_iff {err : IoError} :
    FsError.ofIo err path = .notFound p ↔ p = path ∧ err.kind = .notFound := by
  unfold FsError.ofIo
  cases err.kind <;> simp [eq_comm]

theorem reading_notFound_iff {step : Disk → Except IoError α} :
    ((reading path step).runOn d).1 = .error (.notFound p) ↔ p = path ∧ NotFound (step d) := by
  rw [runOn_reading]
  cases step d with
  | ok a => simp [Except.mapError]
  | error err => simp [Except.mapError, ofIo_eq_notFound_iff]

theorem changing_notFound_iff {step : Disk → Except IoError Disk} :
    ((changing path step).runOn d).1 = .error (.notFound p) ↔ p = path ∧ NotFound (step d) := by
  rw [runOn_changing]
  cases step d with
  | ok made => simp
  | error err => simp [ofIo_eq_notFound_iff]

/-- If the action reports on the disk that something is not found, then it says so of one of the paths. -/
def NotFoundIn (P : Path → Prop) (a : Action α) (d : Disk) : Prop :=
  ∀ p, (a.runOn d).1 = .error (.notFound p) → P p

namespace NotFoundIn

theorem bind {a : Action α} {f : α → Action β} (ha : NotFoundIn P a d)
    (hf : ∀ x d', a.runOn d = (.ok x, d') → NotFoundIn P (f x) d') : NotFoundIn P (a >>= f) d := by
  intro p hp
  rcases hrun : a.runOn d with ⟨r, d'⟩
  cases r with
  | error err =>
    rw [runOn_bind_error hrun] at hp
    apply ha p
    rw [hrun]
    exact congrArg Except.error (Except.error.inj hp)
  | ok x =>
    rw [runOn_bind_ok hrun] at hp
    exact hf x d' hrun p hp

theorem reading {step : Disk → Except IoError α} (h : NotFound (step d) → P path) :
    NotFoundIn P (Action.reading path step) d := by
  intro p hp
  obtain ⟨rfl, hno⟩ := reading_notFound_iff.mp hp
  exact h hno

theorem changing {step : Disk → Except IoError Disk} (h : NotFound (step d) → P path) :
    NotFoundIn P (Action.changing path step) d := by
  intro p hp
  obtain ⟨rfl, hno⟩ := changing_notFound_iff.mp hp
  exact h hno

theorem fail {err : IoError} (h : P path) : NotFoundIn P (throw (.ofIo err path) : Action α) d := by
  intro p hp
  obtain ⟨rfl, -⟩ := ofIo_eq_notFound_iff.mp (Except.error.inj hp)
  exact h

theorem succeed (a : α) : NotFoundIn P (pure a : Action α) d := by
  intro p hp
  cases hp

/-- A loop keeps what is known of the disk and of the items to come, as long as each round does. -/
theorem forM {f : α → Action Unit} {I : List α → Disk → Prop}
    (hstep : ∀ a as d, I (a :: as) d → NotFoundIn P (f a) d ∧
      ∀ d', (f a).runOn d = (.ok (), d') → I as d') {as : List α} (h : I as d) :
    NotFoundIn P (as.forM f) d := by
  induction as generalizing d with
  | nil => exact succeed ()
  | cons a as ih =>
    obtain ⟨ha, hnext⟩ := hstep a as d h
    rw [List.forM_eq_forM, List.forM_cons]
    refine bind ha ?_
    intro u d' hrun
    exact ih (hnext d' hrun)

theorem ensureDirectory {dir : Path} (h : P path) :
    NotFoundIn P (Action.ensureDirectory path dir) d := by
  intro p hp
  unfold Action.ensureDirectory at hp
  rw [runOn_get_bind] at hp
  split at hp
  · cases hp
  · split at hp
    · cases hp
    · exact fail h p hp

theorem makeDirectories (h : P path) : NotFoundIn P (Action.makeDirectories path) d := by
  intro p hp
  unfold Action.makeDirectories at hp
  rw [runOn_get_bind] at hp
  split at hp
  · exact fail h p hp
  · next made missing _ =>
    rw [runOn_bind_ok (runOn_set made d)] at hp
    refine forM (I := fun _ _ => True) (fun dir _ d _ => ⟨ensureDirectory h, fun _ _ => trivial⟩)
      trivial p hp

theorem copyLink (hsource : NotFound (d.readLink source) → P source) (htarget : P target) :
    NotFoundIn P (Action.copyLink source target) d := by
  unfold Action.copyLink
  refine bind (reading hsource) ?_
  intro held d' _
  exact changing fun _ => htarget

end NotFoundIn

/-! ## What is in a directory -/

/-- What copying into a hollow directory calls not found is one of the paths, for one depth. -/
def BlamesIn (P : Path → Prop) (depth : Nat) : Prop :=
  ∀ (d : Disk) (source target : Path) (from_ place : Place), Filling d source target from_ place →
    source.bytes ≠ [] → d.Hollow place → P target →
      NotFoundIn P (copyContents depth source target) d

/-- A file is copied to a hollow name, or it fails otherwise than as "not found". -/
theorem copyFile_child_found (h : Filling d source target from_ place) {contents : Bytes}
    (hentry : d.get? (from_ ++ [n]) = some (.file contents)) (hhollow : d.Hollow (place ++ [n])) :
    ¬NotFound (d.copyFile (source.child n) (target.child n)) := by
  have hn : ProperName n := DirectoryAt.properName h.lawful hentry
  have hsteps : (target.child n).route.steps = target.route.steps ++ [.name n] := steps_child_name hn
  have hne := fun p : Path => Path.bytes_child_ne_nil p hn.ne_nil hn.separator_not_mem
  intro hno
  obtain hfrom | hto := notFound_of_copyFile hno
  · have hleads := leads_child hn h.leads_source h.get?_source hentry (by simp)
    exact locate_follow_found (hne source) hleads hfrom
  · refine not_wayMissing hsteps h.leads_target ((spot_notFound_iff_of_last (by decide) (hne target)
      ?_).mp hto)
    intro way last left m hlast hl _
    obtain ⟨rfl, heq⟩ := List.append_inj' (hsteps.symm.trans hlast) rfl
    cases heq
    obtain rfl := hl.unique h.leads_target
    apply walk_last_found (by decide)
    intro k hk _
    cases hk
    right
    right
    intro held hlink
    cases hhollow _ _ hlink List.prefix_rfl

section Blame

variable (hP : ∀ p n, P p → ProperName n → P (p.child n)) (htarget : P target)

include hP htarget

/-- One entry is copied, or another path than its own is called not found. -/
theorem notFoundIn_copyChild (hinside : BlamesIn P depth) (h : Filling d source target from_ place)
    (hentry : d.get? (from_ ++ [n]) = some e) (hhollow : d.Hollow (place ++ [n])) :
    NotFoundIn P (copyChild depth source target (.ofEntry n e)) d := by
  have hn : ProperName n := DirectoryAt.properName h.lawful hentry
  cases e with
  | dir =>
    rw [copyChild_dir]
    refine NotFoundIn.bind (.makeDirectories (hP target n htarget hn)) ?_
    intro u made hmade
    obtain ⟨hfilling, hinner⟩ := filling_child h hentry hhollow hmade
    exact hinside made _ _ (from_ ++ [n]) (place ++ [n]) hfilling
      (Path.bytes_child_ne_nil source hn.ne_nil hn.separator_not_mem) hinner (hP target n htarget hn)
  | link held =>
    rw [copyChild_link]
    refine NotFoundIn.copyLink (fun hno => ?_) (hP target n htarget hn)
    exact absurd (notFound_of_readLink hno) (lstat_child_found hn h.leads_source hentry)
  | file contents =>
    rw [copyChild_file]
    refine NotFoundIn.changing fun hno => ?_
    exact absurd hno (copyFile_child_found h hentry hhollow)

omit htarget in
/-- Copying what is in a directory into a hollow one calls nothing not found but what is at or below the
target: the source is there all along. -/
theorem blamesIn (depth : Nat) : BlamesIn P depth := by
  induction depth with
  | zero =>
    intro d source target from_ place h hne hhollow htarget p hp
    obtain ⟨-, hkind⟩ := ofIo_eq_notFound_iff.mp (Except.error.inj hp)
    cases hkind
  | succ depth ih =>
    intro d source target from_ place h hne hhollow htarget
    rw [copyContents_succ]
    refine NotFoundIn.bind (.reading fun hno => ?_) ?_
    · exact absurd (notFound_of_list hno) (locate_follow_found hne h.leads_source)
    · intro children d' hread
      obtain ⟨hlist, rfl⟩ := reading_ok hread
      obtain ⟨from', hl, -, rfl, -⟩ := list_cases hlist
      obtain rfl := hl.unique h.leads_source
      refine NotFoundIn.forM (I := fun children d => Filling d source target from' place ∧
        Ahead d from' place children) ?_ ⟨h, ahead_children hhollow⟩
      intro c children d hknown
      obtain ⟨h, hahead⟩ := hknown
      obtain ⟨⟨e, hentry, hc⟩, -⟩ := List.forall_mem_cons.mp hahead.entries
      refine ⟨?_, fun d' hrun => ahead_copyChild depth h hahead hrun⟩
      rw [hc]
      exact notFoundIn_copyChild hP htarget ih h hentry (hahead.hollow c List.mem_cons_self)

end Blame

/-! ## Moves and copies -/

/-- Only once two paths are ready, something that is there can be called not found. -/
theorem guarded_notFound_iff {a : Action Unit} :
    ((requireFree source target >>= fun _ => a).runOn d).1 = .error (.notFound p) ∧
        d.present p = true ↔
      Ready d source target ∧ (a.runOn d).1 = .error (.notFound p) ∧ d.present p = true := by
  by_cases hready : Ready d source target
  · rw [runOn_bind_ok hready.runOn_requireFree, and_iff_right hready]
  · refine iff_of_false ?_ fun h => hready h.1
    intro h
    obtain ⟨hrun, hpresent⟩ := h
    have hfree := runOn_requireFree source target d
    split at hfree
    · rw [runOn_bind_error hfree] at hrun
      cases hrun
    split at hfree
    · rw [runOn_bind_error hfree] at hrun
      cases hrun
    split at hfree
    · next habsent =>
      rw [runOn_bind_error hfree] at hrun
      cases hrun
      simp [habsent] at hpresent
    split at hfree
    · rw [runOn_bind_error hfree] at hrun
      cases hrun
    · next hs ht hp hn =>
      exact hready ⟨by simpa using hs, by simpa using ht, by simpa using hp, by simpa using hn⟩

theorem move_notFound_iff :
    ((move source target).runOn d).1 = .error (.notFound p) ∧ d.present p = true ↔
      p = source ∧ Ready d source target ∧ d.WayMissing target := by
  unfold move
  rw [guarded_notFound_iff, changing_notFound_iff]
  constructor
  · intro h
    obtain ⟨hready, ⟨rfl, hno⟩, -⟩ := h
    have hne := bytes_ne_nil_of_isAbsolute hready.target_absolute
    exact ⟨rfl, hready, (rename_notFound_iff hready.present hne).mp hno⟩
  · intro h
    obtain ⟨rfl, hready, hmissing⟩ := h
    have hne := bytes_ne_nil_of_isAbsolute hready.target_absolute
    exact ⟨hready, ⟨rfl, (rename_notFound_iff hready.present hne).mpr hmissing⟩, hready.present⟩

theorem notFoundIn_copy_dir (hd : d.Lawful) (hne : source.bytes ≠ [] ∧ target.bytes ≠ [])
    (hsource : d.lstat source = .ok .dir) (hfree : d.present target = false)
    (hover : ¬d.Overlays source target) :
    NotFoundIn (fun p => p.bytes ≠ [] ∧ d.present p = false) (copyTree source target) d := by
  obtain ⟨from_, hfrom⟩ := locate_of_lstat hsource
  have hfollow := locate_follow_of_keep hfrom (by simp)
  have hread : (reading source (·.lstat source)).runOn d = (.ok .dir, d) :=
    runOn_reading_ok source hsource
  unfold copyTree
  refine NotFoundIn.bind (.reading fun hno => ?_) ?_
  · rw [hsource] at hno
    exact absurd hno (not_notFound_ok _)
  · intro x d' hx
    rw [hread] at hx
    cases hx
    dsimp only
    refine NotFoundIn.bind (.makeDirectories ⟨hne.2, hfree⟩) ?_
    intro u made hmade
    have hadds : d.AddsDirectories made := by
      simpa [hmade] using addsDirectories_makeDirectories d target
    obtain ⟨place, hl, hdir, -⟩ := leads_of_makeDirectories hmade
    have hnone : d.get? place = none := by
      obtain hsame | ⟨hnone, -⟩ := hadds.get?_cases place
      · exact absurd (.dir hsource hmade hl (hsame ▸ hdir)) hover
      · exact hnone
    have hretains := hadds.keeps.retains
    have hfilling : Filling made source target from_ place :=
      { lawful := hadds.lawful hd
        leads_source := (leads_of_locate hfollow).mono hretains
        get?_source := hretains.get?_dir (get?_of_locate hfollow)
        leads_target := hl
        get?_target := hdir }
    refine blamesIn ?_ maxPathLength made source target from_ place hfilling hne.1
      (hadds.hollow_of_none hnone) ⟨hne.2, hfree⟩
    intro p n hp hn
    exact ⟨Path.bytes_child_ne_nil p hn.ne_nil hn.separator_not_mem, absent_child hp.1 hn hp.2⟩

theorem copyTree_link_notFound_iff {held : Path} (hready : Ready d source target)
    (hsource : d.lstat source = .ok (.link held)) (hover : ¬d.Overlays source target) :
    ((copyTree source target).runOn d).1 = .error (.notFound p) ∧ d.present p = true ↔
      p = source ∧ d.Misses (fun _ => True) maxLinks [] source.route.steps := by
  have hread : (reading source (·.lstat source)).runOn d = (.ok (.link held), d) :=
    runOn_reading_ok source hsource
  rw [← stat_notFound_iff hready.present]
  unfold copyTree
  rw [runOn_bind_ok hread]
  dsimp only
  cases hstat : d.stat source with
  | error err =>
    have hfollow : (reading source (·.stat source)).runOn d = (.error (.ofIo err source), d) := by
      rw [runOn_reading, hstat]
      rfl
    rw [runOn_bind_error hfollow, Except.error.injEq, ofIo_eq_notFound_iff, notFound_error]
    refine and_iff_left_of_imp fun h => ?_
    obtain ⟨rfl, -⟩ := h
    exact hready.present
  | ok destination =>
    have hother : destination ≠ .dir := fun heq => hover (.link hsource (heq ▸ hstat))
    have hfollow : (reading source (·.stat source)).runOn d = (.ok destination, d) :=
      runOn_reading_ok source hstat
    have hlink : NotFoundIn (fun p => p = target) (copyLink source target) d := by
      refine .copyLink (fun hno => ?_) rfl
      have hfound := notFound_of_readLink hno
      rw [hsource] at hfound
      exact absurd hfound (not_notFound_ok _)
    rw [runOn_bind_ok hfollow, if_neg hother, bind_pure_unit]
    refine iff_of_false (fun h => ?_) fun h => not_notFound_ok _ h.2
    obtain rfl := hlink p h.1
    simp [hready.absent] at h

theorem copyTree_notFound_iff (hd : d.Lawful) (hready : Ready d source target)
    (hover : ¬d.Overlays source target) :
    ((copyTree source target).runOn d).1 = .error (.notFound p) ∧ d.present p = true ↔
      p = source ∧ ((∃ contents, d.lstat source = .ok (.file contents)) ∧ d.WayMissing target ∨
        (∃ held, d.lstat source = .ok (.link held)) ∧
          d.Misses (fun _ => True) maxLinks [] source.route.steps) := by
  have hs := bytes_ne_nil_of_isAbsolute hready.source_absolute
  have ht := bytes_ne_nil_of_isAbsolute hready.target_absolute
  cases hsource : d.lstat source with
  | error err =>
    have hpresent := hready.present
    simp [Disk.present, hsource, Except.toBool] at hpresent
  | ok e =>
    cases e with
    | dir =>
      refine iff_of_false (fun h => ?_) (by simp)
      have habsent := (notFoundIn_copy_dir hd ⟨hs, ht⟩ hsource hready.absent hover p h.1).2
      simp [habsent] at h
    | link held => simpa using copyTree_link_notFound_iff hready hsource hover
    | file contents =>
      have hread : (reading source (·.lstat source)).runOn d = (.ok (.file contents), d) :=
        runOn_reading_ok source hsource
      unfold copyTree
      rw [runOn_bind_ok hread]
      dsimp only
      rw [changing_notFound_iff, copyFile_notFound_iff hsource ht hready.absent]
      constructor
      · intro h
        obtain ⟨⟨rfl, hmissing⟩, -⟩ := h
        exact ⟨rfl, .inl ⟨⟨contents, rfl⟩, hmissing⟩⟩
      · intro h
        obtain ⟨rfl, ⟨-, hmissing⟩ | ⟨⟨held, hheld⟩, -⟩⟩ := h
        · exact ⟨⟨rfl, hmissing⟩, hready.present⟩
        · cases hheld

/-- **What is called not found although it is there.** A move calls its source so just if the way to the
target is missing. A copy that is not made over a directory calls its source so if that is a file and the
way to the target is missing, or if it is a link that leads to a missing name. No other path is called not
found that has an entry. This is so on one device: from one to another, a move is a copy. -/
theorem notFound_present_iff (hd : d.Lawful) (source target p : Path) :
    (((move source target).runOn d).1 = .error (.notFound p) ∧ d.present p = true ↔
      p = source ∧ Ready d source target ∧ d.WayMissing target) ∧
    (¬d.Overlays source target →
      (((copy source target).runOn d).1 = .error (.notFound p) ∧ d.present p = true ↔
        p = source ∧ Ready d source target ∧
          ((∃ contents, d.lstat source = .ok (.file contents)) ∧ d.WayMissing target ∨
            (∃ held, d.lstat source = .ok (.link held)) ∧
              d.Misses (fun _ => True) maxLinks [] source.route.steps))) := by
  refine ⟨move_notFound_iff, ?_⟩
  intro hover
  unfold copy
  rw [guarded_notFound_iff]
  constructor
  · intro h
    obtain ⟨hready, hrun⟩ := h
    obtain ⟨rfl, hwhy⟩ := (copyTree_notFound_iff hd hready hover).mp hrun
    exact ⟨rfl, hready, hwhy⟩
  · intro h
    obtain ⟨rfl, hready, hwhy⟩ := h
    exact ⟨hready, (copyTree_notFound_iff hd hready hover).mpr ⟨rfl, hwhy⟩⟩

end Action

/-- A disk with a file, and a link to where nothing is. -/
def Disk.dangling : Disk where
  top :=
    .file (Utf8.encode "a".toList) (Utf8.encode "x".toList) <|
    .link (Utf8.encode "l".toList) (.ofText "n".toList) .empty

namespace Action

open Disk

/-- There is no `/n`, so that moving or copying `/a` to `/n/b` calls `/a` not found, and copying the link
`/l` to `/n` calls the link not found. Both are there. -/
theorem notFound_present_iff_in_dangling :
    (((move (.ofText "/a".toList) (.ofText "/n/b".toList)).runOn Disk.dangling).1 =
        .error (.notFound (.ofText "/a".toList)) ∧
      ((copy (.ofText "/a".toList) (.ofText "/n/b".toList)).runOn Disk.dangling).1 =
        .error (.notFound (.ofText "/a".toList)) ∧
      Disk.dangling.present (.ofText "/a".toList) = true) ∧
    ((copy (.ofText "/l".toList) (.ofText "/b".toList)).runOn Disk.dangling).1 =
        .error (.notFound (.ofText "/l".toList)) ∧
      Disk.dangling.present (.ofText "/l".toList) = true := by
  have hd : Disk.dangling.Lawful := by decide
  have hfile : Disk.dangling.lstat (.ofText "/a".toList) =
      .ok (.file (Utf8.encode "x".toList)) := by decide +kernel
  have hlink : Disk.dangling.lstat (.ofText "/l".toList) = .ok (.link (.ofText "n".toList)) := by
    decide +kernel
  have hleads : Disk.dangling.stat (.ofText "/l".toList) ≠ .ok .dir := by decide +kernel
  have hready : Ready Disk.dangling (.ofText "/a".toList) (.ofText "/n/b".toList) :=
    ⟨by decide +kernel, by decide +kernel, by decide +kernel, by decide +kernel⟩
  have hready' : Ready Disk.dangling (.ofText "/l".toList) (.ofText "/b".toList) :=
    ⟨by decide +kernel, by decide +kernel, by decide +kernel, by decide +kernel⟩
  have hmissing : Disk.dangling.WayMissing (.ofText "/n/b".toList) := by
    refine ⟨by decide +kernel, [.name (Utf8.encode "n".toList)], .name (Utf8.encode "b".toList),
      by decide +kernel, ?_⟩
    exact .missing (by decide +kernel) trivial (by decide +kernel)
  have hdangles : Disk.dangling.Misses (fun _ => True) maxLinks []
      (Path.ofText "/l".toList).route.steps := by
    have hsteps : (Path.ofText "/l".toList).route.steps = [.name (Utf8.encode "l".toList)] := by
      decide +kernel
    rw [hsteps]
    have hentry : Disk.dangling.get? [Utf8.encode "l".toList] = some (.link (.ofText "n".toList)) := by
      decide +kernel
    refine .follow (by decide +kernel) trivial hentry ?_
    have hrest : (Path.ofText "n".toList).route.steps ++ [] = [.name (Utf8.encode "n".toList)] := by
      decide +kernel
    rw [hrest]
    exact .missing (by decide +kernel) trivial (by decide +kernel)
  obtain ⟨hmove, hcopy⟩ := notFound_present_iff hd (.ofText "/a".toList) (.ofText "/n/b".toList)
    (.ofText "/a".toList)
  obtain ⟨-, hcopy'⟩ := notFound_present_iff hd (.ofText "/l".toList) (.ofText "/b".toList)
    (.ofText "/l".toList)
  have hover : ¬Disk.dangling.Overlays (.ofText "/a".toList) (.ofText "/n/b".toList) := by
    intro hover
    cases hover with
    | link hheld _ => cases hfile.symm.trans hheld
    | dir hdir _ _ _ => cases hfile.symm.trans hdir
  have hover' : ¬Disk.dangling.Overlays (.ofText "/l".toList) (.ofText "/b".toList) := by
    intro hover
    cases hover with
    | link _ hdir => exact hleads hdir
    | dir hdir _ _ _ => cases hlink.symm.trans hdir
  exact ⟨⟨(hmove.mpr ⟨rfl, hready, hmissing⟩).1,
      hcopy hover |>.mpr ⟨rfl, hready, .inl ⟨⟨_, hfile⟩, hmissing⟩⟩⟩,
    hcopy' hover' |>.mpr ⟨rfl, hready', .inr ⟨⟨_, hlink⟩, hdangles⟩⟩⟩

end Action
end TreeGlob
