import TreeGlob.Disk.Operation
import TreeGlob.Proofs.Disk.Leads

/-!
What runs of actions do to a disk.

* `Action.runOn_bind`, `Action.runOn_reading` and `Action.runOn_changing` take runs apart;
  `Action.bind_ok`, `Action.reading_ok` and `Action.changing_ok` do so with runs that come out well.
* `Action.Maintains R` says that a relation holds between the disk before a run and the one after it,
  whatever comes out of the run. Such relations are put together along the way actions are.
* `Disk.Writes` is the change of a single entry. Making a directory, making a link and copying a file
  are such changes, and they write over nothing but a file.
* `Disk.Keeps` and `Disk.Retains` say what is left of the entries that were there, and `Disk.Within` in
  which part of the disk anything changed.
-/
namespace TreeGlob

namespace Action

variable {α β : Type}

@[simp] theorem runOn_pure (a : α) (d : Disk) : (pure a : Action α).runOn d = (.ok a, d) := rfl

@[simp] theorem runOn_get (d : Disk) : (get : Action Disk).runOn d = (.ok d, d) := rfl

@[simp] theorem runOn_set (made d : Disk) : (set made : Action Unit).runOn d = (.ok (), made) := rfl

theorem runOn_bind (a : Action α) (f : α → Action β) (d : Disk) :
    (a >>= f).runOn d =
      match a.runOn d with
      | (.ok x, d') => (f x).runOn d'
      | (.error e, d') => (.error e, d') := by
  simp only [runOn, ExceptT.run_bind, StateT.run_bind]
  obtain ⟨r, d'⟩ := StateT.run a.run d
  cases r <;> rfl

theorem runOn_bind_ok {a : Action α} {f : α → Action β} {d d' : Disk} {x : α}
    (h : a.runOn d = (.ok x, d')) : (a >>= f).runOn d = (f x).runOn d' := by
  rw [runOn_bind, h]

theorem runOn_bind_error {a : Action α} {f : α → Action β} {d d' : Disk} {e : FsError}
    (h : a.runOn d = (.error e, d')) : (a >>= f).runOn d = (.error e, d') := by
  rw [runOn_bind, h]

@[simp] theorem runOn_get_bind (f : Disk → Action β) (d : Disk) :
    (get >>= f).runOn d = (f d).runOn d := runOn_bind_ok (runOn_get d)

theorem requireAbsolute_of_absolute {p : Path} (h : p.isAbsolute = true) (d : Disk) :
    (requireAbsolute p).runOn d = (.ok (), d) := by
  rw [requireAbsolute, if_pos h, runOn_pure]

theorem runOn_reading (p : Path) (step : Disk → Except IoError α) (d : Disk) :
    (reading p step).runOn d = ((step d).mapError (FsError.ofIo · p), d) := by
  unfold reading
  rw [runOn_get_bind]
  cases step d <;> rfl

theorem runOn_reading_ok (p : Path) {step : Disk → Except IoError α} {d : Disk} {a : α}
    (h : step d = .ok a) : (reading p step).runOn d = (.ok a, d) := by
  rw [runOn_reading, h]
  rfl

theorem runOn_changing (p : Path) (step : Disk → Except IoError Disk) (d : Disk) :
    (changing p step).runOn d =
      match step d with
      | .ok made => (.ok (), made)
      | .error e => (.error (.ofIo e p), d) := by
  unfold changing
  rw [runOn_get_bind]
  cases step d <;> rfl

/-- Whether an entry can be put at `target` from `source`: both are absolute, and there is an entry at
`source` and none at `target`. -/
theorem runOn_requireFree (source target : Path) (d : Disk) :
    (requireFree source target).runOn d =
      (if source.isAbsolute = false then .error (.invalidPath source)
        else if target.isAbsolute = false then .error (.invalidPath target)
        else if d.present source = false then .error (.notFound source)
        else if d.present target = true then .error (.alreadyExists target)
        else .ok (), d) := by
  unfold requireFree
  cases hs : source.isAbsolute with
  | false => rw [runOn_bind_error (requireAbsolute_of_relative hs d)]; rfl
  | true =>
    rw [runOn_bind_ok (requireAbsolute_of_absolute hs d)]
    cases ht : target.isAbsolute with
    | false => rw [runOn_bind_error (requireAbsolute_of_relative ht d)]; rfl
    | true =>
      rw [runOn_bind_ok (requireAbsolute_of_absolute ht d), runOn_get_bind]
      cases d.present source <;> cases d.present target <;> rfl

/-! ## Runs that come out well -/

theorem bind_ok {a : Action α} {f : α → Action β} {d made : Disk} {y : β}
    (h : (a >>= f).runOn d = (.ok y, made)) :
    ∃ x between, a.runOn d = (.ok x, between) ∧ (f x).runOn between = (.ok y, made) := by
  rcases hrun : a.runOn d with ⟨r, between⟩
  cases r with
  | error e =>
    rw [runOn_bind_error hrun] at h
    cases h
  | ok x =>
    rw [runOn_bind_ok hrun] at h
    exact ⟨x, between, rfl, h⟩

theorem reading_ok {p : Path} {step : Disk → Except IoError α} {d made : Disk} {x : α}
    (h : (reading p step).runOn d = (.ok x, made)) : step d = .ok x ∧ made = d := by
  rw [runOn_reading] at h
  cases hstep : step d with
  | error e =>
    rw [hstep] at h
    cases h
  | ok y =>
    rw [hstep] at h
    cases h
    exact ⟨rfl, rfl⟩

theorem changing_ok {p : Path} {step : Disk → Except IoError Disk} {d made : Disk}
    (h : (changing p step).runOn d = (.ok (), made)) : step d = .ok made := by
  rw [runOn_changing] at h
  cases hstep : step d with
  | error e =>
    rw [hstep] at h
    cases h
  | ok d' =>
    rw [hstep] at h
    cases h
    rfl

theorem copyLink_ok {source target : Path} {d made : Disk}
    (h : (copyLink source target).runOn d = (.ok (), made)) :
    ∃ held, d.readLink source = .ok held ∧ d.makeLink held target = .ok made := by
  obtain ⟨held, between, hread, hmade⟩ := bind_ok h
  obtain ⟨hheld, rfl⟩ := reading_ok hread
  exact ⟨held, hheld, changing_ok hmade⟩

/-! ## Copies of entries -/

def copyChild (depth : Nat) (source target : Path) (c : Child) : Action Unit :=
  if c.isDirectory then do
    makeDirectories (target.child c.name)
    copyContents depth (source.child c.name) (target.child c.name)
  else if c.isLink then copyLink (source.child c.name) (target.child c.name)
  else changing (source.child c.name) (·.copyFile (source.child c.name) (target.child c.name))

section Kinds

variable (depth : Nat) (source target : Path) (n : Name)

theorem copyChild_dir : copyChild depth source target (.ofEntry n .dir) =
    (makeDirectories (target.child n) >>= fun _ =>
      copyContents depth (source.child n) (target.child n)) := rfl

theorem copyChild_link (held : Path) : copyChild depth source target (.ofEntry n (.link held)) =
    copyLink (source.child n) (target.child n) := rfl

theorem copyChild_file (contents : Bytes) : copyChild depth source target (.ofEntry n (.file contents)) =
    changing (source.child n) (·.copyFile (source.child n) (target.child n)) := rfl

end Kinds

theorem copyContents_succ (depth : Nat) (source target : Path) :
    copyContents (depth + 1) source target =
      reading source (·.list source) >>= fun children => children.forM (copyChild depth source target) :=
  rfl

/-! ## Relations that runs maintain -/

/-- Whatever comes out of a run, the disk after it is related to the one before. -/
def Maintains (R : Disk → Disk → Prop) (a : Action α) : Prop := ∀ d, R d (a.runOn d).2

section Maintains

variable {R : Disk → Disk → Prop} (hrefl : ∀ d, R d d) (htrans : ∀ d e f, R d e → R e f → R d f)

include hrefl

theorem maintains_pure (a : α) : Maintains R (pure a : Action α) := fun d => hrefl d

theorem maintains_throw (e : FsError) : Maintains R (throw e : Action α) := fun d => hrefl d

theorem maintains_reading (p : Path) (step : Disk → Except IoError α) :
    Maintains R (reading p step) := by
  intro d
  rw [runOn_reading]
  exact hrefl d

theorem maintains_changing (p : Path) {step : Disk → Except IoError Disk}
    (h : ∀ d made, step d = .ok made → R d made) : Maintains R (changing p step) := by
  intro d
  rw [runOn_changing]
  cases hs : step d with
  | error e => exact hrefl d
  | ok made => exact h d made hs

omit hrefl in
include htrans in
theorem maintains_bind {a : Action α} {f : α → Action β} (ha : Maintains R a)
    (hf : ∀ x, Maintains R (f x)) : Maintains R (a >>= f) := by
  intro d
  have hfirst := ha d
  rcases hrun : a.runOn d with ⟨r, d'⟩
  rw [hrun] at hfirst
  cases r with
  | error e =>
    rw [runOn_bind_error hrun]
    exact hfirst
  | ok x =>
    rw [runOn_bind_ok hrun]
    exact htrans _ _ _ hfirst (hf x d')

include htrans in
theorem maintains_forM {as : List α} {f : α → Action Unit} (hf : ∀ a ∈ as, Maintains R (f a)) :
    Maintains R (as.forM f) := by
  induction as with
  | nil => exact maintains_pure hrefl ()
  | cons a as ih =>
    obtain ⟨ha, has⟩ := List.forall_mem_cons.mp hf
    exact maintains_bind htrans ha fun _ => ih has

theorem maintains_ensureDirectory {dir : Path} (h : ∀ d made, d.makeDir dir = .ok made → R d made)
    (p : Path) : Maintains R (ensureDirectory p dir) := by
  intro d
  unfold ensureDirectory
  rw [runOn_get_bind]
  split
  · next made hm => exact h d made hm
  · split <;> exact hrefl d

theorem maintains_climb (h : ∀ d p made, d.makeDir p = .ok made → R d made) {d made : Disk}
    {ps missing left : List Path} (hc : climb d ps missing = .ok (made, left)) : R d made := by
  induction ps generalizing missing with
  | nil =>
    cases hc
    exact hrefl d
  | cons p above ih =>
    rw [climb] at hc
    split at hc
    · next made hm =>
      cases hc
      exact h d p made hm
    · split at hc
      · exact ih hc
      · split at hc
        · cases hc
          exact hrefl d
        · cases hc
      · cases hc

include htrans in
theorem maintains_makeDirectories (h : ∀ d p made, d.makeDir p = .ok made → R d made) (p : Path) :
    Maintains R (makeDirectories p) := by
  intro d
  unfold makeDirectories
  rw [runOn_get_bind]
  split
  · exact hrefl d
  · next made left hc =>
    have hrest : Maintains R (left.forM (ensureDirectory p)) :=
      maintains_forM hrefl htrans fun dir _ =>
        maintains_ensureDirectory hrefl (fun d made => h d dir made) p
    rw [runOn_bind_ok (runOn_set made d)]
    exact htrans _ _ _ (maintains_climb hrefl h hc) (hrest made)

include htrans in
theorem maintains_copyLink (h : ∀ d held p made, d.makeLink held p = .ok made → R d made)
    (source target : Path) : Maintains R (copyLink source target) :=
  maintains_bind htrans (maintains_reading hrefl source _) fun held =>
    maintains_changing hrefl target fun d made => h d held target made

end Maintains

/-- A relation that holds along the steps of a copy. -/
structure FollowsSteps (R : Disk → Disk → Prop) : Prop where
  refl : ∀ d, R d d
  trans : ∀ d e f, R d e → R e f → R d f
  makeDir : ∀ d p made, d.makeDir p = .ok made → R d made
  makeLink : ∀ d held p made, d.makeLink held p = .ok made → R d made
  copyFile : ∀ d p q made, d.copyFile p q = .ok made → R d made

section Copies

variable {R : Disk → Disk → Prop} (h : FollowsSteps R)

include h

theorem maintains_copyChild {depth : Nat} {source target : Path} {c : Child}
    (hinside : Maintains R (copyContents depth (source.child c.name) (target.child c.name))) :
    Maintains R (copyChild depth source target c) := by
  unfold copyChild
  split
  · exact maintains_bind h.trans (maintains_makeDirectories h.refl h.trans h.makeDir _) fun _ => hinside
  · split
    · exact maintains_copyLink h.refl h.trans h.makeLink _ _
    · exact maintains_changing h.refl _ fun d made => h.copyFile d _ _ made

theorem maintains_copyContents (depth : Nat) (source target : Path) :
    Maintains R (copyContents depth source target) := by
  induction depth generalizing source target with
  | zero => exact maintains_throw h.refl _
  | succ depth ih =>
    rw [copyContents_succ]
    exact maintains_bind h.trans (maintains_reading h.refl source _) fun children =>
      maintains_forM h.refl h.trans fun c _ => maintains_copyChild h (ih _ _)

theorem maintains_copy (source target : Path) : Maintains R (copy source target) := by
  have hinside := maintains_copyContents h maxPathLength source target
  have hfree : Maintains R (requireFree source target) := fun d => by
    rw [runOn_requireFree]
    exact h.refl d
  refine maintains_bind h.trans hfree fun _ =>
    maintains_bind h.trans (maintains_reading h.refl source _) fun e => ?_
  split
  · exact maintains_bind h.trans (maintains_makeDirectories h.refl h.trans h.makeDir target)
      fun _ => hinside
  · refine maintains_bind h.trans (maintains_reading h.refl source _) fun destination =>
      maintains_bind h.trans (maintains_copyLink h.refl h.trans h.makeLink source target) fun _ => ?_
    split
    · exact hinside
    · exact maintains_pure h.refl ()
  · exact maintains_changing h.refl source fun d made => h.copyFile d source target made

end Copies

end Action

/-! ## The change of one entry -/

/-- The same entry, but for the contents of a file. -/
def Entry.Alike : Entry → Entry → Prop
  | .file _, .file _ => True
  | e, e' => e = e'

namespace Entry.Alike

@[refl] theorem refl (e : Entry) : e.Alike e := by cases e <;> simp [Alike]

theorem trans {e f g : Entry} (h : e.Alike f) (h' : f.Alike g) : e.Alike g := by
  cases e <;> cases f <;> cases g <;> simp_all [Alike]

theorem eq_of_dir {e : Entry} (h : Alike .dir e) : e = .dir := h.symm

theorem eq_of_link {target : Path} {e : Entry} (h : Alike (.link target) e) : e = .link target := h.symm

theorem eq_of_file {contents : Bytes} {e : Entry} (h : Alike (.file contents) e) :
    ∃ contents', e = .file contents' := by
  cases e with
  | file contents' => exact ⟨contents', rfl⟩
  | dir | link => cases h

end Entry.Alike

namespace Disk

/-- One entry was written, at a place in a directory where no directory was. Nothing else changed. -/
structure Writes (d d' : Disk) (dir : Place) (n : Name) (e : Entry) : Prop where
  get?_dir : d.get? dir = some .dir
  ne_dir : d.get? (dir ++ [n]) ≠ some .dir
  get?_eq : ∀ q, d'.get? q = if q = dir ++ [n] then some e else d.get? q

/-- Every entry is still there, a file maybe with other contents. -/
def Retains (d d' : Disk) : Prop := ∀ q e, d.get? q = some e → ∃ e', d'.get? q = some e' ∧ e.Alike e'

/-- Every entry is still there as it was. -/
def Keeps (d d' : Disk) : Prop := ∀ q e, d.get? q = some e → d'.get? q = some e

variable {d d' d'' : Disk} {dir : Place} {n : Name} {e : Entry}

theorem Retains.refl (d : Disk) : d.Retains d := fun _ e h => ⟨e, h, .refl e⟩

theorem Retains.trans (h : d.Retains d') (h' : d'.Retains d'') : d.Retains d'' := by
  intro q e he
  obtain ⟨f, hf, hef⟩ := h q e he
  obtain ⟨g, hg, hfg⟩ := h' q f hf
  exact ⟨g, hg, hef.trans hfg⟩

theorem Keeps.refl (d : Disk) : d.Keeps d := fun _ _ h => h

theorem Keeps.trans (h : d.Keeps d') (h' : d'.Keeps d'') : d.Keeps d'' :=
  fun q e he => h' q e (h q e he)

theorem Keeps.retains (h : d.Keeps d') : d.Retains d' := fun q e he => ⟨e, h q e he, .refl e⟩

theorem Retains.get?_dir (h : d.Retains d') {q : Place} (hq : d.get? q = some .dir) :
    d'.get? q = some .dir := by
  obtain ⟨e, he, halike⟩ := h q .dir hq
  rw [he, halike.eq_of_dir]

theorem Leads.mono {p q : Place} {steps : List Step} (h : d.Leads p steps q) (hr : d.Retains d') :
    d'.Leads p steps q := by
  induction h with
  | stay p => exact .stay p
  | here _ ih => exact ih.here
  | up _ ih => exact ih.up
  | enter hd _ ih => exact ih.enter (hr.get?_dir hd)
  | follow hl _ ih =>
    obtain ⟨e, he, halike⟩ := hr _ _ hl
    rw [halike.eq_of_link] at he
    exact ih.follow he
  | file hf =>
    obtain ⟨e, he, halike⟩ := hr _ _ hf
    obtain ⟨contents, rfl⟩ := halike.eq_of_file
    exact .file he

theorem writes_put (e : Entry) (hdir : d.get? dir = some .dir) (hn : d.get? (dir ++ [n]) ≠ some .dir) :
    d.Writes (d.put (dir ++ [n]) e) dir n e where
  get?_dir := hdir
  ne_dir := hn
  get?_eq q := by
    by_cases h : dir ++ [n] <+: q
    · obtain ⟨r, rfl⟩ := h
      have hp : dir ++ [n] ≠ [] := by simp
      have hparent : d.get? (dir ++ [n]).dropLast = some .dir := by rwa [List.dropLast_concat]
      by_cases hr : r = []
      · rw [hr, List.append_nil, if_pos rfl]
        exact get?_put_self e hp hparent
      · -- Nothing was below the place, and nothing is below what is put there.
        have hnone : d.get? (dir ++ [n] ++ r) = none :=
          Classical.byContradiction fun hne => hn (get?_above hne hr)
        have hput : (d.put (dir ++ [n]) e).get? (dir ++ [n] ++ r) = none := by
          obtain ⟨m, r, rfl⟩ := List.exists_cons_of_ne_nil hr
          rw [get?, put, node?_alter_append _ _ hp hparent]
          cases e <;> rfl
        rw [if_neg (by simp [hr]), hput, hnone]
    · rw [if_neg (by rintro rfl; exact h (List.prefix_refl _))]
      exact get?_put_of_not_prefix d e h

theorem Writes.get?_self (h : d.Writes d' dir n e) : d'.get? (dir ++ [n]) = some e := by
  rw [h.get?_eq, if_pos rfl]

theorem Writes.get?_of_ne (h : d.Writes d' dir n e) {q : Place} (hq : q ≠ dir ++ [n]) :
    d'.get? q = d.get? q := by
  rw [h.get?_eq, if_neg hq]

theorem Writes.keeps (h : d.Writes d' dir n e) (hn : d.get? (dir ++ [n]) = none) : d.Keeps d' := by
  intro q e' he
  rw [h.get?_of_ne, he]
  rintro rfl
  simp [hn] at he

theorem writes_of_makeDir {d made : Disk} {p : Path} (h : d.makeDir p = .ok made) :
    ∃ dir n, d.Writes made dir n .dir ∧ d.get? (dir ++ [n]) = none := by
  obtain ⟨dir, n, hdir, hn, rfl⟩ := makeDir_eq_put h
  exact ⟨dir, n, writes_put .dir hdir (by simp [hn]), hn⟩

theorem writes_of_makeLink {d made : Disk} {held p : Path} (h : d.makeLink held p = .ok made) :
    ∃ dir n, d.Writes made dir n (.link held) ∧ d.get? (dir ++ [n]) = none := by
  obtain ⟨dir, n, hdir, hn, rfl⟩ := makeLink_eq_put h
  exact ⟨dir, n, writes_put _ hdir (by simp [hn]), hn⟩

theorem Writes.put {d d' : Disk} {dir : Place} {n : Name} {e : Entry} (h : d.Writes d' dir n e)
    (he : e ≠ .dir) (e' : Entry) : d.Writes (d'.put (dir ++ [n]) e') dir n e' where
  get?_dir := h.get?_dir
  ne_dir := h.ne_dir
  get?_eq q := by
    have hdir : d'.get? dir = some .dir := by rw [h.get?_of_ne (by simp), h.get?_dir]
    have hput := writes_put (d := d') (n := n) e' hdir (by simp [h.get?_self, he])
    rw [hput.get?_eq]
    split
    · rfl
    · next hq => exact h.get?_of_ne hq

theorem openFile_cases {d opened : Disk} {p : Path} {place : Place}
    (h : d.openFile p = .ok (opened, place)) :
    ∃ s n, d.spot .create p = .ok s ∧ s.last = some (.name n) ∧ s.slash = false ∧
      place = s.dir ++ [n] ∧ d.get? s.dir = some .dir ∧
      ((d.get? place = none ∧ opened = d.put place (.file [])) ∨
        ∃ contents, d.get? place = some (.file contents) ∧ opened = d) := by
  obtain ⟨s, hs, h⟩ := bind_eq_ok_iff.mp h
  split at h
  · next n hn =>
    have hplace := Spot.place_of_name hn
    split at h
    · cases h
    next hslash =>
    split at h
    · next hnone =>
      cases h
      exact ⟨s, n, hs, hn, by simpa using hslash, hplace, get?_dir_of_spot hs, .inl ⟨hnone, rfl⟩⟩
    · next contents hfile =>
      cases h
      exact ⟨s, n, hs, hn, by simpa using hslash, hplace, get?_dir_of_spot hs,
        .inr ⟨contents, hfile, rfl⟩⟩
    · cases h
  · cases h

/-- Copying a file writes it where nothing or a file was. Copied onto itself it is emptied. -/
theorem writes_of_copyFile {d made : Disk} {source target : Path}
    (h : d.copyFile source target = .ok made) :
    ∃ from_ contents s n, d.locate .follow source = .ok (from_, .file contents) ∧
      d.spot .create target = .ok s ∧ s.last = some (.name n) ∧ s.slash = false ∧
      (d.get? (s.dir ++ [n]) = none ∨ ∃ old, d.get? (s.dir ++ [n]) = some (.file old)) ∧
      d.Writes made s.dir n (.file (if from_ = s.dir ++ [n] then [] else contents)) := by
  obtain ⟨⟨from_, e⟩, hfound, h⟩ := bind_eq_ok_iff.mp h
  dsimp only at h
  split at h
  · next contents =>
    obtain ⟨⟨opened, place⟩, hopen, h⟩ := bind_eq_ok_iff.mp h
    obtain ⟨s, n, hs, hn, hslash, rfl, hdir, hwhere⟩ := openFile_cases hopen
    have hfree : d.get? (s.dir ++ [n]) = none ∨ ∃ old, d.get? (s.dir ++ [n]) = some (.file old) := by
      rcases hwhere with ⟨hnone, -⟩ | ⟨old, hold, -⟩
      · exact .inl hnone
      · exact .inr ⟨old, hold⟩
    have hemptied : d.Writes (opened.put (s.dir ++ [n]) (.file [])) s.dir n (.file []) := by
      rcases hwhere with ⟨hnone, rfl⟩ | ⟨old, hold, rfl⟩
      · exact (writes_put _ hdir (by simp [hnone])).put (by simp) _
      · exact writes_put _ hdir (by simp [hold])
    refine ⟨from_, contents, s, n, hfound, hs, hn, hslash, hfree, ?_⟩
    have hsource := get?_of_locate hfound
    dsimp only at h
    by_cases hself : from_ = s.dir ++ [n]
    · rw [hself, hemptied.get?_self] at h
      cases h
      rw [if_pos hself]
      exact hemptied.put (by simp) _
    · rw [hemptied.get?_of_ne hself, hsource] at h
      cases h
      rw [if_neg hself]
      exact hemptied.put (by simp) _
  · cases h

theorem Writes.retains_of_file {d d' : Disk} {dir : Place} {n : Name} {contents : Bytes}
    (h : d.Writes d' dir n (.file contents))
    (hn : d.get? (dir ++ [n]) = none ∨ ∃ old, d.get? (dir ++ [n]) = some (.file old)) :
    d.Retains d' := by
  rcases hn with hn | ⟨old, hold⟩
  · exact (h.keeps hn).retains
  · intro q e he
    by_cases hq : q = dir ++ [n]
    · subst hq
      rw [hold] at he
      cases he
      exact ⟨_, h.get?_self, trivial⟩
    · exact ⟨e, by rw [h.get?_of_ne hq, he], .refl e⟩

theorem retains_of_makeDir {d made : Disk} {p : Path} (h : d.makeDir p = .ok made) :
    d.Retains made := by
  obtain ⟨dir, n, hw, hn⟩ := writes_of_makeDir h
  exact (hw.keeps hn).retains

theorem keeps_of_makeLink {d made : Disk} {held p : Path} (h : d.makeLink held p = .ok made) :
    d.Keeps made := by
  obtain ⟨dir, n, hw, hn⟩ := writes_of_makeLink h
  exact hw.keeps hn

theorem retains_of_makeLink {d made : Disk} {held p : Path} (h : d.makeLink held p = .ok made) :
    d.Retains made := (keeps_of_makeLink h).retains

theorem retains_of_copyFile {d made : Disk} {p q : Path} (h : d.copyFile p q = .ok made) :
    d.Retains made := by
  obtain ⟨_, _, _, _, -, -, -, -, hn, hw⟩ := writes_of_copyFile h
  exact hw.retains_of_file hn

theorem retains_followsSteps : Action.FollowsSteps Retains where
  refl := Retains.refl
  trans _ _ _ := Retains.trans
  makeDir _ _ _ := retains_of_makeDir
  makeLink _ _ _ _ := retains_of_makeLink
  copyFile _ _ _ _ := retains_of_copyFile

theorem retains_copyChild (depth : Nat) (source target : Path) (c : Child) :
    (Action.copyChild depth source target c).Maintains Retains :=
  Action.maintains_copyChild retains_followsSteps
    (Action.maintains_copyContents retains_followsSteps depth _ _)

/-- Copying takes nothing away, and leaves everything but the contents of files as it was. -/
theorem retains_copy (source target : Path) : (Action.copy source target).Maintains Retains :=
  Action.maintains_copy retains_followsSteps source target

/-! ## Changes in a part of the disk -/

section Areas

variable {place : Place} {area area' : Place → Prop}

/-- Nothing changed but in an area, and names are still names that entries can have. -/
structure Within (area : Place → Prop) (d d' : Disk) : Prop where
  get?_eq : ∀ q, ¬area q → d'.get? q = d.get? q
  lawful : d.Lawful → d'.Lawful

theorem Within.refl (area : Place → Prop) (d : Disk) : Within area d d := ⟨fun _ _ => rfl, id⟩

theorem Within.trans (h : Within area d d') (h' : Within area d' d'') : Within area d d'' :=
  ⟨fun q hq => (h'.get?_eq q hq).trans (h.get?_eq q hq), h'.lawful ∘ h.lawful⟩

theorem Within.mono (h : Within area d d') (ha : ∀ q, area q → area' q) : Within area' d d' :=
  ⟨fun q hq => h.get?_eq q (mt (ha q) hq), h.lawful⟩

/-- The place and what is below it. -/
def Under (place q : Place) : Prop := place <+: q

/-- What is below the place. -/
def Below (place q : Place) : Prop := place <+: q ∧ q ≠ place

theorem Writes.lawful {dir : Place} {n : Name} {e : Entry} (h : d.Writes d' dir n e)
    (hn : ProperName n) (hd : d.Lawful) : d'.Lawful := by
  intro q hq m hm
  by_cases hself : q = dir ++ [n]
  · subst hself
    rcases List.mem_append.mp hm with hm | hm
    · exact hd dir (by simp [h.get?_dir]) m hm
    · rwa [List.mem_singleton.mp hm]
  · exact hd q (by rwa [← h.get?_of_ne hself]) m hm

theorem Writes.within {n : Name} {e : Entry} (h : d.Writes d' place n e) (hn : ProperName n) :
    Within (Under (place ++ [n])) d d' :=
  ⟨fun _ hq => h.get?_of_ne fun he => hq (he ▸ List.prefix_refl _), h.lawful hn⟩

theorem get?_of_under (hnone : d.get? place = none) {q : Place} (hq : Under place q) :
    d.get? q = none := by
  by_contra hne
  obtain ⟨r, rfl⟩ := hq
  by_cases hr : r = []
  · rw [hr, List.append_nil] at hne
    exact hne hnone
  · have habove := get?_above hne hr
    simp [hnone] at habove

theorem get?_dir_of_under {q : Place} (hdir : d.get? q = some .dir) (hq : Under place q) :
    d.get? place = some .dir := by
  obtain ⟨r, rfl⟩ := hq
  by_cases hr : r = []
  · rwa [hr, List.append_nil] at hdir
  · exact get?_above (by rw [hdir]; simp) hr

theorem below_of_under {n : Name} {q : Place} (h : Under (place ++ [n]) q) : Below place q := by
  have hlen := h.length_le
  refine ⟨(List.prefix_append place [n]).trans h, ?_⟩
  rintro rfl
  rw [List.length_append] at hlen
  exact Nat.not_succ_le_self _ hlen

theorem eq_of_under {n m : Name} {q : Place} (h : Under (place ++ [n]) q)
    (h' : Under (place ++ [m]) q) : n = m := by
  have heq := List.prefix_of_prefix_length_le h h' (by simp)
  have hlist := heq.eq_of_length (by simp)
  simpa using hlist

end Areas

end Disk

end TreeGlob
