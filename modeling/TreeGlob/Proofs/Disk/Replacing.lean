import TreeGlob.Proofs.Disk.Completing

/-!
When a replacement fails, and what it loses then.

A replacement looks at the new entry, removes the old one and copies, and does not take back what it
has removed (`Action.runOn_replace`).

* `Action.StandsApart` says that the target is found without the entry to be replaced. So is the file or
  the directory that replaces it, by `Action.FileApart` and `Action.DirectoryApart`.
* `Action.replace_of_fileApart` and `Action.replace_of_directoryApart` say that such a replacement does
  not fail, unless a path gets too long, and `Action.replace_inside` that a directory does not take the
  place of an entry in it.
* `Action.replace_retains` says what is still there after any replacement.
* `Action.replace_spares` is the main result, and `Action.replace_loses` shows what it leaves out.
-/
namespace TreeGlob

namespace Action

open Disk

variable {d : Disk} {target source : Path} {place : Place} {e : Entry}

/-- Nothing changes before the paths and the new entry were looked at; then the old entry is removed,
and the new one is copied. -/
theorem runOn_replace (target source : Path) (d : Disk) :
    (replace target source).runOn d =
      if target.isAbsolute = false then (.error (.invalidPath target), d)
      else if source.isAbsolute = false then (.error (.invalidPath source), d)
      else if d.present source = false then (.error (.notFound source), d)
      else (remove target >>= fun _ => copy source target).runOn d := by
  unfold replace
  cases ht : target.isAbsolute with
  | false => rw [runOn_bind_error (requireAbsolute_of_relative ht d)]; rfl
  | true =>
    rw [runOn_bind_ok (requireAbsolute_of_absolute ht d)]
    cases hs : source.isAbsolute with
    | false => rw [runOn_bind_error (requireAbsolute_of_relative hs d)]; rfl
    | true =>
      rw [runOn_bind_ok (requireAbsolute_of_absolute hs d), runOn_get_bind]
      cases d.present source <;> rfl

/-- A replacement is refused before anything changes, or it is a removal and a copy. -/
theorem replace_cases (target source : Path) (d : Disk) :
    (∃ err, (replace target source).runOn d = (.error err, d)) ∨
      (replace target source).runOn d = (remove target >>= fun _ => copy source target).runOn d := by
  rw [runOn_replace]
  split
  · exact .inl ⟨_, rfl⟩
  split
  · exact .inl ⟨_, rfl⟩
  split
  · exact .inl ⟨_, rfl⟩
  · exact .inr rfl

theorem replace_refused (h : target.isAbsolute = false ∨ source.isAbsolute = false ∨
      d.present source = false ∨ ∃ err, d.lstat target = .error err ∧ err.kind ≠ .notFound) :
    ∃ err, (replace target source).runOn d = (.error err, d) := by
  rw [runOn_replace]
  split
  · exact ⟨_, rfl⟩
  next ht =>
  split
  · exact ⟨_, rfl⟩
  next hs =>
  split
  · exact ⟨_, rfl⟩
  next hp =>
  obtain ⟨err, hl, hkind⟩ : ∃ err, d.lstat target = .error err ∧ err.kind ≠ .notFound := by
    simpa [ht, hs, hp] using h
  have hremove := runOn_remove (by simpa using ht) d
  rw [hl] at hremove
  dsimp only at hremove
  rw [if_neg hkind] at hremove
  exact ⟨_, runOn_bind_error hremove⟩

/-- Whatever comes out of a replacement, what is not at the path or below it is still there. -/
theorem replace_retains (hd : d.Lawful) (target source : Path) {q : Place} (hq : d.get? q = some e)
    (hout : ∀ place found, d.locate .keep target = .ok (place, found) → ¬Under place q) :
    ∃ e', ((replace target source).runOn d).2.get? q = some e' ∧ e.Alike e' ∧
      (e' ≠ e → ((remove target).runOn d).2.Overlays source target ∧
        ((∃ held, d.lstat source = .ok (.link held)) ∨ .up ∈ target.route.steps)) := by
  obtain ⟨_, hrefused⟩ | hgo := replace_cases target source d
  · rw [hrefused]
    exact ⟨e, hq, .refl e, fun hne => (hne rfl).elim⟩
  rw [hgo]
  obtain ⟨hkeeps, hlawful, hothers⟩ := remove_spares d target
  rcases hrun : (remove target).runOn d with ⟨r, removed⟩
  rw [hrun] at hkeeps hlawful hothers
  have hthere : removed.get? q = some e := by rw [hothers q hout, hq]
  cases r with
  | error err =>
    rw [runOn_bind_error hrun]
    exact ⟨e, hthere, .refl e, fun hne => (hne rfl).elim⟩
  | ok u =>
    rw [runOn_bind_ok hrun]
    obtain ⟨e', he', halike, hchanged⟩ := copy_retains (hlawful hd) source target hthere
    refine ⟨e', he', halike, fun hne => ?_⟩
    obtain ⟨hover, hlink | hup⟩ := hchanged hne
    · exact ⟨hover, .inl (hlink.imp fun _ => lstat_keeps hkeeps)⟩
    · exact ⟨hover, .inr hup⟩

section

variable {α β : Type} {p : Path} {d' : Disk} {err : FsError}

theorem undone_reading {step : Disk → Except IoError α} {f : α → Action β}
    (hf : ∀ a, step d = .ok a → (f a).runOn d = (.error err, d') → d' = d)
    (h : (reading p step >>= f).runOn d = (.error err, d')) : d' = d := by
  rw [runOn_bind, runOn_reading] at h
  cases hstep : step d with
  | error e =>
    rw [hstep] at h
    cases h
    rfl
  | ok a =>
    rw [hstep] at h
    exact hf a hstep h

theorem undone_changing {step : Disk → Except IoError Disk}
    (h : (changing p step).runOn d = (.error err, d')) : d' = d := by
  rw [runOn_changing] at h
  split at h
  · cases h
  · cases h
    rfl

/-- A copy of what leads to no directory happens as a whole or not at all. -/
theorem copy_undone (hsource : d.stat source ≠ .ok .dir)
    (h : (copy source target).runOn d = (.error err, d')) : d' = d := by
  obtain ⟨_, hrun⟩ | ⟨-, hrun⟩ := copy_cases d source target
  · rw [hrun] at h
    cases h
    rfl
  rw [hrun] at h
  unfold copyTree at h
  refine undone_reading (fun entry hl h => ?_) h
  cases entry with
  | dir => exact (hsource (stat_of_lstat hl (by simp))).elim
  | file contents => exact undone_changing h
  | link held =>
    refine undone_reading (fun destination hstat h => ?_) h
    have hother : destination ≠ .dir := fun heq => hsource (heq ▸ hstat)
    rw [if_neg hother, bind_pure_unit] at h
    exact undone_reading (fun _ _ => undone_changing) h

end

theorem replace_undone {d' : Disk} {err : FsError} (htarget : ∀ e, d.lstat target ≠ .ok e)
    (hsource : d.stat source ≠ .ok .dir)
    (h : (replace target source).runOn d = (.error err, d')) : d' = d := by
  obtain ⟨_, hrefused⟩ | hgo := replace_cases target source d
  · rw [hrefused] at h
    cases h
    rfl
  rw [hgo] at h
  cases hl : d.lstat target with
  | ok e => exact (htarget e hl).elim
  | error e =>
    have hremove := remove_of_absent hl
    rcases hrun : (remove target).runOn d with ⟨r, removed⟩
    rw [hrun] at hremove
    obtain rfl : removed = d := hremove
    cases r with
    | error err =>
      rw [runOn_bind_error hrun] at h
      cases h
      rfl
    | ok u =>
      rw [runOn_bind_ok hrun] at h
      exact copy_undone hsource h

/-! ## Replacements that do not fail -/

/-- The paths are absolute, and `target` means the place and comes to it without what is there. If the
path ends in a separator, only a directory may be there. -/
structure StandsApart (d : Disk) (source target : Path) (place : Place) : Prop where
  source_absolute : source.isAbsolute = true
  target_absolute : target.isAbsolute = true
  target_vacant : (d.erase place).Vacant target place
  target_slash : target.route.slash = true → ∀ e, d.get? place = some e → e = .dir

/-- Without what is at `target`, there is a directory for it, and `source` is a file or a link to one. -/
structure FileApart (d : Disk) (source target : Path) (place : Place) (copied : Entry) : Prop
    extends StandsApart d source target place where
  source_leads : (d.erase place).LeadsToFile source copied
  get?_above : d.get? place.dropLast = some .dir
  no_slash : target.route.slash = false

/-- Without what is at `target`, there is a directory at `source`, and the target is not in it. -/
structure DirectoryApart (d : Disk) (source target : Path) (place from_ : Place) : Prop
    extends StandsApart d source target place where
  source_at : (d.erase place).locate .keep source = .ok (from_, .dir)
  outside : ¬from_ <+: place

section

variable {from_ : Place} {copied : Entry}

theorem StandsApart.ne_nil (h : StandsApart d source target place) : place ≠ [] := by
  obtain ⟨above, s, names, hgap, rfl⟩ := h.target_vacant
  obtain ⟨n, hlast, -⟩ := hgap.last_eq
  simp [Spot.place_of_name hlast]

theorem StandsApart.spot (h : StandsApart d source target place)
    (hdir : d.get? place.dropLast = some .dir) :
    ∃ s n, (d.erase place).spot .unseen target = .ok s ∧ s.last = some (.name n) ∧
      n.length ≤ maxNameLength ∧ s.place = place ∧ s.slash = target.route.slash := by
  obtain ⟨above, s, names, hgap, hplace⟩ := h.target_vacant
  obtain ⟨n, hlast, hlen⟩ := hgap.last_eq
  have hnames : names = [] := by
    by_contra hne
    have habove : place.dropLast = s.place ++ names.dropLast := by
      rw [hplace, List.dropLast_append_of_ne_nil hne]
    have hsame : (d.erase place).get? place.dropLast = some .dir := by
      rw [get?_erase d _ h.ne_nil, if_neg, hdir]
      intro hpre
      have hshorter := hpre.length_le
      rw [List.length_dropLast] at hshorter
      have hpos := List.length_pos_iff.mpr h.ne_nil
      omega
    rw [get?_of_under hgap.get?_eq (habove ▸ List.prefix_append _ _)] at hsame
    cases hsame
  subst hnames
  refine ⟨_, n, hgap.spot_unseen, hlast, hlen, ?_, rfl⟩
  rw [hplace, List.append_nil]
  rfl

theorem remove_of_standsApart (h : StandsApart d source target place) :
    ∃ removed, (remove target).runOn d = (.ok (), removed) ∧
      ∀ q, removed.get? q = (d.erase place).get? q := by
  cases he : d.get? place with
  | none =>
    have hsame : ∀ q, d.get? q = (d.erase place).get? q := by
      intro q
      rw [get?_erase d q h.ne_nil]
      split
      · next hq => exact get?_of_under he hq
      · rfl
    obtain ⟨above, s, names, hgap, -⟩ := h.target_vacant.congr hsame
    refine ⟨d, ?_, hsame⟩
    rw [runOn_remove h.target_absolute, hgap.lstat_eq]
    rfl
  | some e =>
    obtain ⟨s, n, hs, hn, hlen, rfl, hslash⟩ := h.spot (get?_dropLast (by simp [he]))
    refine remove_of_erased h.target_absolute hs hn hlen he ?_
    cases htarget : target.route.slash with
    | false => exact .inl (hslash.trans htarget)
    | true => exact .inr (h.target_slash htarget e he)

theorem replace_of_removed {removed : Disk} (h : StandsApart d source target place)
    (hpresent : d.present source = true) (hremove : (remove target).runOn d = (.ok (), removed)) :
    (replace target source).runOn d = (copy source target).runOn removed := by
  rw [runOn_replace]
  simp only [h.target_absolute, h.source_absolute, hpresent, Bool.true_eq_false, if_false]
  rw [runOn_bind_ok hremove]

theorem keeps_of_erased {removed : Disk} (hget : ∀ q, removed.get? q = (d.erase place).get? q) :
    (d.erase place).Keeps removed := fun q e he => by rw [hget, he]

theorem lawful_of_erased {removed : Disk} (hd : d.Lawful)
    (hget : ∀ q, removed.get? q = (d.erase place).get? q) : removed.Lawful :=
  .of_keeps (fun q e he => keeps_erase d place q e (hget q ▸ he)) hd

theorem present_of_erased (hat : (d.erase place).locate .keep source = .ok (from_, e)) :
    d.present source = true := by
  simp [present, lstat, locate_keeps (keeps_erase d place) hat, Except.map, Except.toBool]

theorem replace_of_fileApart (h : FileApart d source target place copied) :
    ∃ made, (replace target source).runOn d = (.ok (), made) ∧ ∀ q, made.get? q =
      if q = place then some copied else if place <+: q then none else d.get? q := by
  obtain ⟨removed, hremove, hget⟩ := remove_of_standsApart h.toStandsApart
  obtain ⟨s, n, hs, hn, hlen, hplace, hslash⟩ := h.toStandsApart.spot h.get?_above
  have hkeeps := keeps_of_erased hget
  have hpresent : d.present source = true := by
    simp [present, lstat_keeps (keeps_erase d place) h.source_leads.lstat_eq, Except.toBool]
  have hfree : removed.lookUp s n = .ok none := by
    rw [lookUp, if_neg (Nat.not_lt.mpr hlen), hplace, hget, get?_erase d _ h.ne_nil,
      if_pos List.prefix_rfl]
  obtain ⟨made, hcopy, hw⟩ := copy_of_leadsToFile h.source_absolute h.target_absolute
    (h.source_leads.keeps hkeeps) (spot_keeps hkeeps hs (.inl rfl)) hn (hslash.trans h.no_slash) hfree
  refine ⟨made, (replace_of_removed h.toStandsApart hpresent hremove).trans hcopy, fun q => ?_⟩
  rw [hw.get?_eq, ← Spot.place_of_name hn, hplace, hget, get?_erase d q h.ne_nil]

theorem replace_of_directoryApart (hd : d.Lawful) (h : DirectoryApart d source target place from_) :
    ((∃ made, (replace target source).runOn d = (.ok (), made)) ↔ d.Copyable source target from_) ∧
    ∀ made, (replace target source).runOn d = (.ok (), made) → d.SameTree from_ made place ∧
      ∀ q, ¬place <+: q → made.get? q = if q <+: place then some .dir else d.get? q := by
  obtain ⟨removed, hremove, hget⟩ := remove_of_standsApart h.toStandsApart
  have hkeeps := keeps_of_erased hget
  have hbeside : ∀ q, ¬place <+: q → removed.get? q = d.get? q := by
    intro q hq
    rw [hget, get?_erase d q h.ne_nil, if_neg hq]
  have hsource : ∀ q, removed.get? (from_ ++ q) = d.get? (from_ ++ q) := by
    intro q
    apply hbeside
    intro hq
    obtain hbelow | habove := List.prefix_or_prefix_of_prefix hq (List.prefix_append from_ q)
    · have hentry := get?_of_locate h.source_at
      rw [get?_erase d _ h.ne_nil, if_pos hbelow] at hentry
      cases hentry
    · exact h.outside habove
  obtain ⟨hiff, hfaithful⟩ := copy_beside (lawful_of_erased hd hget) h.source_absolute
    h.target_absolute (locate_keeps hkeeps h.source_at) (h.target_vacant.congr hget) h.outside
  rw [replace_of_removed h.toStandsApart (present_of_erased h.source_at) hremove]
  refine ⟨hiff.trans ⟨fun hc => hc.congr fun q => (hsource q).symm, fun hc => hc.congr hsource⟩, ?_⟩
  intro made hmade
  obtain ⟨hsame, helse⟩ := hfaithful made hmade
  refine ⟨fun q => ?_, fun q hq => ?_⟩
  · rw [hsame q, hsource]
  · rw [helse q hq, hbeside q hq]

/-- A directory does not take the place of an entry in it: it is copied into itself until that fails. -/
theorem replace_inside (hd : d.Lawful) (h : StandsApart d source target place)
    (hat : (d.erase place).locate .keep source = .ok (from_, .dir)) (hinside : from_ <+: place) :
    ∃ err left, (replace target source).runOn d = (.error err, left) ∧ left.get? place = some .dir := by
  obtain ⟨removed, hremove, hget⟩ := remove_of_standsApart h
  have hkeeps := keeps_of_erased hget
  rw [replace_of_removed h (present_of_erased hat) hremove]
  exact copy_into_itself (lawful_of_erased hd hget) h.source_absolute h.target_absolute
    (locate_keeps hkeeps hat) (h.target_vacant.congr hget) hinside

end

/-- **A failing replacement loses nothing but what was at the target: everything else is still there,
and changed only where a copy is made over a directory. Nothing changes if the replacement is refused
before it removes anything, or if there was nothing at the target and the source leads to no directory.
And it does not fail where a file, a link to one, or a directory stands apart from the target, unless a
path of the copy is too long: all of it is copied there.** -/
theorem replace_spares (hd : d.Lawful) (target source : Path) :
    (target.isAbsolute = false ∨ source.isAbsolute = false ∨ d.present source = false ∨
        (∃ err, d.lstat target = .error err ∧ err.kind ≠ .notFound) →
      ∃ err, (replace target source).runOn d = (.error err, d)) ∧
    ((∀ e, d.lstat target ≠ .ok e) → d.stat source ≠ .ok .dir → ∀ err d',
      (replace target source).runOn d = (.error err, d') → d' = d) ∧
    (∀ place copied, FileApart d source target place copied →
      ∃ made, (replace target source).runOn d = (.ok (), made) ∧ ∀ q, made.get? q =
        if q = place then some copied else if place <+: q then none else d.get? q) ∧
    (∀ place from_, DirectoryApart d source target place from_ →
      ((∃ made, (replace target source).runOn d = (.ok (), made)) ↔ d.Copyable source target from_) ∧
      ∀ made, (replace target source).runOn d = (.ok (), made) → d.SameTree from_ made place ∧
        ∀ q, ¬place <+: q → made.get? q = if q <+: place then some .dir else d.get? q) ∧
    ∀ q e, d.get? q = some e →
      (∀ place found, d.locate .keep target = .ok (place, found) → ¬Under place q) →
      ∃ e', ((replace target source).runOn d).2.get? q = some e' ∧ e.Alike e' ∧
        (e' ≠ e → ((remove target).runOn d).2.Overlays source target ∧
          ((∃ held, d.lstat source = .ok (.link held)) ∨ .up ∈ target.route.steps)) :=
  ⟨replace_refused, fun htarget hsource _ _ => replace_undone htarget hsource,
    fun _ _ => replace_of_fileApart, fun _ _ => replace_of_directoryApart hd,
    fun _ _ => replace_retains hd target source⟩

/-- The link `/l` is replaced by the file `/s/f`, and the directory `/d` by the directory `/s`. Replacing
`/d` by the file in it fails, and takes `/d` away, but not `/s/f`. -/
theorem replace_spares_in_linked :
    (∃ made, (replace (.ofText "/l".toList) (.ofText "/s/f".toList)).runOn Disk.linked =
        (.ok (), made) ∧
        made.get? [Utf8.encode "l".toList] = some (.file (Utf8.encode "new".toList)) ∧
        made.get? [Utf8.encode "d".toList] = some .dir) ∧
      (∃ made, (replace (.ofText "/d".toList) (.ofText "/s".toList)).runOn Disk.linked =
        (.ok (), made) ∧
        made.get? [Utf8.encode "d".toList, Utf8.encode "f".toList] =
          some (.file (Utf8.encode "new".toList)) ∧
        made.get? [Utf8.encode "l".toList] = some (.link (.ofText "d".toList))) ∧
      ∃ left, (replace (.ofText "/d".toList) (.ofText "/d/f".toList)).runOn Disk.linked =
        (.error (.notFound (.ofText "/d/f".toList)), left) ∧
        left.get? [Utf8.encode "d".toList] = none ∧
        left.get? [Utf8.encode "s".toList, Utf8.encode "f".toList] =
          some (.file (Utf8.encode "new".toList)) := by
  have hd : Disk.linked.Lawful := by decide
  refine ⟨?_, ?_, ?_⟩
  · obtain ⟨-, -, hmade, -⟩ := replace_spares hd (.ofText "/l".toList) (.ofText "/s/f".toList)
    have hspot : (Disk.linked.erase [Utf8.encode "l".toList]).spot .unseen (.ofText "/l".toList) =
        .ok ⟨[], some (.name (Utf8.encode "l".toList)), false⟩ := by decide +kernel
    obtain ⟨made, hrun, hget⟩ := hmade [Utf8.encode "l".toList] (.file (Utf8.encode "new".toList))
      { source_absolute := by decide +kernel
        target_absolute := by decide +kernel
        target_vacant := vacant_of_spot hspot rfl (by decide +kernel) (by decide +kernel)
        target_slash := fun hslash => absurd hslash (by decide +kernel)
        source_leads := ⟨by decide +kernel, ⟨Utf8.encode "new".toList, by decide +kernel⟩, trivial⟩
        get?_above := by decide +kernel
        no_slash := by decide +kernel }
    refine ⟨made, hrun, ?_, ?_⟩
    · rw [hget, if_pos rfl]
    · rw [hget, if_neg (by decide +kernel), if_neg (by decide +kernel)]
      decide +kernel
  · obtain ⟨-, -, -, hmade, -⟩ := replace_spares hd (.ofText "/d".toList) (.ofText "/s".toList)
    have hspot : (Disk.linked.erase [Utf8.encode "d".toList]).spot .unseen (.ofText "/d".toList) =
        .ok ⟨[], some (.name (Utf8.encode "d".toList)), false⟩ := by decide +kernel
    have hapart : DirectoryApart Disk.linked (.ofText "/s".toList) (.ofText "/d".toList)
        [Utf8.encode "d".toList] [Utf8.encode "s".toList] :=
      { source_absolute := by decide +kernel
        target_absolute := by decide +kernel
        target_vacant := vacant_of_spot hspot rfl (by decide +kernel) (by decide +kernel)
        target_slash := fun hslash => absurd hslash (by decide +kernel)
        source_at := by decide +kernel
        outside := by decide +kernel }
    obtain ⟨hiff, hfaithful⟩ := hmade _ _ hapart
    obtain ⟨made, hrun⟩ := hiff.mpr (by decide +kernel)
    obtain ⟨hsame, helse⟩ := hfaithful made hrun
    refine ⟨made, hrun, (hsame [Utf8.encode "f".toList]).trans (by decide +kernel), ?_⟩
    rw [helse _ (by decide +kernel), if_neg (by decide +kernel)]
    decide +kernel
  · obtain ⟨-, -, -, -, hothers⟩ := replace_spares hd (.ofText "/d".toList) (.ofText "/d/f".toList)
    obtain ⟨e', he', -, hchanged⟩ := hothers [Utf8.encode "s".toList, Utf8.encode "f".toList]
      (.file (Utf8.encode "new".toList)) (by decide +kernel) fun place found hat => by
        have hplace : Disk.linked.locate .keep (.ofText "/d".toList) =
            .ok ([Utf8.encode "d".toList], .dir) := by decide +kernel
        rw [hplace] at hat
        cases hat
        unfold Under
        decide +kernel
    have hsource : Disk.linked.lstat (.ofText "/d/f".toList) =
        .ok (.file (Utf8.encode "old".toList)) := by decide +kernel
    have hsame : e' = .file (Utf8.encode "new".toList) := by
      by_contra hne
      rcases (hchanged hne).2 with ⟨held, hlink⟩ | hup
      · rw [hsource] at hlink
        cases hlink
      · revert hup
        decide +kernel
    exact ⟨_, rfl, by decide +kernel, hsame ▸ he'⟩

end Action

/-- A disk with a file and two directories, a link to one of them, and a link that leads nowhere. -/
def Disk.entangled : Disk where
  top :=
    .file (Utf8.encode "a".toList) (Utf8.encode "x".toList) <|
    .dir (Utf8.encode "d".toList)
      (.file (Utf8.encode "f".toList) (Utf8.encode "y".toList) .empty) <|
    .link (Utf8.encode "k".toList) (.ofText "n".toList) <|
    .link (Utf8.encode "l".toList) (.ofText "s".toList) <|
    .dir (Utf8.encode "s".toList)
      (.file (Utf8.encode "f".toList) (Utf8.encode "z".toList) .empty) .empty

namespace Action

open Disk

/-- The replacement fails, and afterwards the place does not hold what it held before. -/
def Loses (d : Disk) (target source : Path) (q : Place) : Prop :=
  (∃ err, ((replace target source).runOn d).1 = .error err) ∧
    ((replace target source).runOn d).2.get? q ≠ d.get? q

/-- Whatever other than a directory was at a place in a directory, or nothing, a directory is there after
that directory was to replace it. -/
theorem loses_of_inside {from_ : Place} {s : Spot} {n : Name} (hd : d.Lawful)
    (hs : source.isAbsolute = true) (ht : target.isAbsolute = true)
    (hspot : (d.erase s.place).spot .unseen target = .ok s) (hn : s.last = some (.name n))
    (hlen : n.length ≤ maxNameLength) (hslash : target.route.slash = false)
    (hat : (d.erase s.place).locate .keep source = .ok (from_, .dir)) (hinside : from_ <+: s.place)
    (hother : d.get? s.place ≠ some .dir) : Loses d target source s.place := by
  have hnone : (d.erase s.place).get? s.place = none := by
    rw [get?_erase d _ (by simp [Spot.place_of_name hn]), if_pos List.prefix_rfl]
  have hapart : StandsApart d source target s.place :=
    { source_absolute := hs
      target_absolute := ht
      target_vacant := vacant_of_spot hspot hn hlen hnone
      target_slash := fun hslash' => by simp [hslash] at hslash' }
  obtain ⟨err, left, hrun, hdir⟩ := replace_inside hd hapart hat hinside
  refine ⟨⟨err, by rw [hrun]⟩, ?_⟩
  rw [hrun, hdir]
  exact hother.symm

/-- Some replacements fail and lose what was at the target: a file replaced by itself, a directory by a file
in it, a file by a directory it is in (which also ends up in itself where nothing was), a link by a file
found through it, a file by a link that leads nowhere, and a directory by a file where its path ends in a
separator, in a dot, or passes through it. -/
theorem replace_loses :
    (¬∀ (d : Disk) (target source : Path), d.Lawful → target.isAbsolute = true →
      source.isAbsolute = true → (∃ err, ((replace target source).runOn d).1 = .error err) →
      ∀ q, ((replace target source).runOn d).2.get? q = d.get? q) ∧
    Loses Disk.entangled (.ofText "/a".toList) (.ofText "/a".toList) [Utf8.encode "a".toList] ∧
    Loses Disk.entangled (.ofText "/d".toList) (.ofText "/d/f".toList) [Utf8.encode "d".toList] ∧
    Loses Disk.entangled (.ofText "/s/f".toList) (.ofText "/s".toList)
      [Utf8.encode "s".toList, Utf8.encode "f".toList] ∧
    Loses Disk.entangled (.ofText "/s/n".toList) (.ofText "/s".toList)
      [Utf8.encode "s".toList, Utf8.encode "n".toList] ∧
    Loses Disk.entangled (.ofText "/l".toList) (.ofText "/l/f".toList) [Utf8.encode "l".toList] ∧
    Loses Disk.entangled (.ofText "/a".toList) (.ofText "/k".toList) [Utf8.encode "a".toList] ∧
    Loses Disk.entangled (.ofText "/d/".toList) (.ofText "/a".toList) [Utf8.encode "d".toList] ∧
    Loses Disk.entangled (.ofText "/d/.".toList) (.ofText "/a".toList)
      [Utf8.encode "d".toList, Utf8.encode "f".toList] ∧
    Loses Disk.entangled (.ofText "/d/../d".toList) (.ofText "/a".toList) [Utf8.encode "d".toList] := by
  have hself : Loses Disk.entangled (.ofText "/a".toList) (.ofText "/a".toList)
      [Utf8.encode "a".toList] := ⟨⟨_, rfl⟩, by decide +kernel⟩
  have hd : Disk.entangled.Lawful := by decide
  have hatf : (Disk.entangled.erase [Utf8.encode "s".toList, Utf8.encode "f".toList]).locate .keep
      (.ofText "/s".toList) = .ok ([Utf8.encode "s".toList], .dir) := by decide +kernel
  have hatn : (Disk.entangled.erase [Utf8.encode "s".toList, Utf8.encode "n".toList]).locate .keep
      (.ofText "/s".toList) = .ok ([Utf8.encode "s".toList], .dir) := by decide +kernel
  refine ⟨fun h => ?_, hself, ⟨⟨_, rfl⟩, by decide +kernel⟩, ?_, ?_,
    ⟨⟨_, rfl⟩, by decide +kernel⟩, ⟨⟨_, rfl⟩, by decide +kernel⟩, ⟨⟨_, rfl⟩, by decide +kernel⟩,
    ⟨⟨_, rfl⟩, by decide +kernel⟩, ⟨⟨_, rfl⟩, by decide +kernel⟩⟩
  · exact hself.2 (h _ _ _ hd (by decide +kernel) (by decide +kernel) hself.1 _)
  · exact loses_of_inside (s := ⟨[Utf8.encode "s".toList], some (.name (Utf8.encode "f".toList)), false⟩)
      hd (by decide +kernel) (by decide +kernel) (by decide +kernel) rfl (by decide +kernel)
      (by decide +kernel) hatf (by decide +kernel) (by decide +kernel)
  · exact loses_of_inside (s := ⟨[Utf8.encode "s".toList], some (.name (Utf8.encode "n".toList)), false⟩)
      hd (by decide +kernel) (by decide +kernel) (by decide +kernel) rfl (by decide +kernel)
      (by decide +kernel) hatn (by decide +kernel) (by decide +kernel)

end Action

end TreeGlob
