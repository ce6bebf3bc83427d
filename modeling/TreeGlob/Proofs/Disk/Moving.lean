import TreeGlob.Proofs.Disk.Fidelity

/-!
What a move does.

Both paths are resolved up to their last names, through links and dots, and then one step of the system
moves the entry, with everything below it, from the one name to the other.

* `Disk.renameAt` is that step; `renameAt_ok` says what it needs to succeed, and what it does then.
* `Disk.Relocated` says what is where after a move. `Leads.eq_of_moved` and `Relocated.absent` say that
  nothing is left at the path of the source, wherever that leads now.
* `Action.Movable` is what a move needs; `Action.move_ok` and `Action.move_of_movable` say that it needs
  that and no more.
* `Action.move_all_or_nothing` is the main result.
-/
namespace TreeGlob

namespace Disk

variable {d made : Disk} {source target path : Path} {p q x place : Place} {n : Name} {e : Entry}
  {s t : Spot} {steps : List Step}

/-! ## Renaming -/

/-- Moves the entry at one spot to another one, once both paths are resolved. -/
def renameAt (d : Disk) (s t : Spot) : Except IoError Disk := do
  match s.last, t.last with
  | some (.name m), some (.name n) =>
    match ← d.lookUp s m with
    | none => .error (.os Errno.noEntry)
    | some e =>
      let there ← d.lookUp t n
      if e ≠ .dir ∧ (s.slash || t.slash) then .error (.os Errno.notDirectory)
      else if s.place.isPrefixOf t.dir then .error (.os Errno.invalid)
      else if t.place.isPrefixOf s.dir then .error (.os Errno.notEmpty)
      else if s.place = t.place then .ok d
      else do
        d.replaceable e t.place there
        .ok (d.relocate s.place t.place)
  | _, _ => .error (.os Errno.busy)

theorem rename_of_spots (hs : d.spot .unseen source = .ok s) (ht : d.spot .unseen target = .ok t) :
    d.rename source target = d.renameAt s t := by
  unfold rename
  rw [requireNoZero_eq_ok (admit_of_spot hs), requireNoZero_eq_ok (admit_of_spot ht), hs, ht]
  rfl

theorem spots_of_rename (h : d.rename source target = .ok made) :
    ∃ s t, d.spot .unseen source = .ok s ∧ d.spot .unseen target = .ok t := by
  obtain ⟨-, -, h⟩ := bind_eq_ok_iff.mp h
  obtain ⟨-, -, h⟩ := bind_eq_ok_iff.mp h
  obtain ⟨s, hs, h⟩ := bind_eq_ok_iff.mp h
  obtain ⟨t, ht, -⟩ := bind_eq_ok_iff.mp h
  exact ⟨s, t, hs, ht⟩

/-- All that renaming needs to succeed, and what it does then. -/
theorem renameAt_ok (h : d.renameAt s t = .ok made) :
    ∃ m n e there, s.last = some (.name m) ∧ t.last = some (.name n) ∧
      d.lookUp s m = .ok (some e) ∧ d.lookUp t n = .ok there ∧
      (e = .dir ∨ s.slash = false ∧ t.slash = false) ∧ ¬s.place <+: t.dir ∧
      (s.place = t.place ∧ made = d ∨
        d.replaceable e t.place there = .ok () ∧ made = d.relocate s.place t.place) := by
  simp only [renameAt, bind, Except.bind] at h
  split at h
  · next m n hm hn =>
    split at h
    · cases h
    next found hu =>
    split at h
    · cases h
    next e =>
    split at h
    · cases h
    next there hv =>
    split at h
    · cases h
    next hslash =>
    split at h
    · cases h
    next hinside =>
    split at h
    · cases h
    refine ⟨m, n, e, there, hm, hn, hu, hv, ?_, by simpa using hinside, ?_⟩
    · by_cases hdir : e = .dir
      · exact .inl hdir
      · exact .inr (by simpa [hdir] using hslash)
    · split at h
      · next hsame =>
        cases h
        exact .inl ⟨hsame, rfl⟩
      · split at h
        · cases h
        next hreplace =>
        cases h
        exact .inr ⟨hreplace, rfl⟩
  · cases h

/-- The place that a path resolves to when its last name is not looked up: it is that name, in the
directory that the steps before it lead to. -/
def Names (d : Disk) (path : Path) (place : Place) : Prop :=
  ∃ s n, d.spot .unseen path = .ok s ∧ s.last = some (.name n) ∧ n.length ≤ maxNameLength ∧
    place = s.dir ++ [n]

/-- The entry at `p` was moved to `q`, with everything below it, and nothing else changed. -/
structure Relocated (d made : Disk) (p q : Place) : Prop where
  there : d.get? p ≠ none
  free : d.get? q = none
  /-- All that was at `p` and below it is at `q` and below. -/
  moved : d.SameTree p made q
  gone : ∀ r, made.get? (p ++ r) = none
  others : ∀ x, ¬p <+: x → ¬q <+: x → made.get? x = d.get? x

/-- What is moved to a free name outside of it is moved as a whole. -/
theorem relocated (hp : d.get? p ≠ none) (hdir : d.get? place = some .dir)
    (hfree : d.get? (place ++ [n]) = none) (hinside : ¬p <+: place) (hroot : p ≠ []) :
    d.Relocated (d.relocate p (place ++ [n])) p (place ++ [n]) where
  there := hp
  free := hfree
  moved r := get?_relocate_append r hroot (by simp) (by simpa using hdir) (by simpa using hinside)
  gone r := by
    have hnew : ¬place ++ [n] <+: p ++ r := by
      intro hq
      obtain hpq | hqp := List.prefix_or_prefix_of_prefix (List.prefix_append p r) hq
      · obtain rfl | hpq := List.prefix_concat_iff.mp hpq
        · exact hp hfree
        · exact hinside hpq
      · exact hp (get?_of_under hfree hqp)
    rw [ get?_relocate_of_not_prefix d hroot hnew, if_pos (List.prefix_append p r)]
  others x hx hnew := by rw [ get?_relocate_of_not_prefix d hroot hnew, if_neg hx]

/-- With entries gone, and others where nothing was, steps do not lead elsewhere. -/
theorem Leads.eq_of_moved {q' : Place} (h : d.Leads p steps q) (h' : made.Leads p steps q')
    (hmoved : ∀ x e, d.get? x = some e → made.get? x = some e ∨ made.get? x = none) : q' = q := by
  -- At each name, the other disk has the same entry, since it has one.
  have hsame : ∀ {p n steps q e}, made.Leads p (.name n :: steps) q → d.get? (p ++ [n]) = some e →
      made.get? (p ++ [n]) = some e := by
    intro p n steps q e hl he
    exact (hmoved _ e he).resolve_right (get?_of_leads_name hl)
  induction h with
  | stay =>
    cases h'
    rfl
  | here _ ih => exact ih (leads_here_iff.mp h')
  | up _ ih => exact ih (leads_up_iff.mp h')
  | enter hd _ ih => exact ih ((leads_dir_iff (hsame h' hd)).mp h')
  | follow hl _ ih => exact ih ((leads_link_iff (hsame h' hl)).mp h')
  | file hf =>
    have hstill := hsame h' hf
    exact h'.unique (.file hstill)

theorem Relocated.same_or_gone (h : d.Relocated made p q) (x : Place) (he : d.get? x = some e) :
    made.get? x = some e ∨ made.get? x = none := by
  by_cases hp : p <+: x
  · obtain ⟨r, rfl⟩ := hp
    exact .inr (h.gone r)
  · have hq : ¬q <+: x := by
      intro hq
      simp [get?_of_under h.free hq] at he
    rw [h.others x hp hq]
    exact .inl he

theorem Relocated.absent (h : d.Relocated made p q) (hp : d.Names source p) :
    made.present source = false := by
  obtain ⟨s, n, hs, hn, hlen, rfl⟩ := hp
  obtain ⟨way, hsteps, hl, -, -⟩ := spot_unseen_name hs hn
  have hnone : made.get? (s.dir ++ [n]) = none := by simpa using h.gone []
  by_contra hpresent
  obtain ⟨s', hkeep, ⟨x, e⟩, ha⟩ := present_iff.mp (by simpa using hpresent)
  obtain ⟨m, left, -, hl', -, hw⟩ | ⟨err, -, -, herr⟩ := spot_cases (d := made) hsteps
  · obtain rfl := hl.eq_of_moved hl' fun x e => h.same_or_gone x
    rw [hw .keep (by decide), walk_last hlen rfl rfl (.inr (by simp [hnone]))] at hkeep
    cases hkeep
    have hthere := get?_of_arrive ha
    rw [place_of_arrive ha] at hthere
    exact absurd (hthere.symm.trans hnone) (Option.some_ne_none _)
  · rw [herr .keep (by decide)] at hkeep
    cases hkeep

theorem get?_of_lookUp {found : Option Entry} (h : d.lookUp s n = .ok found) :
    d.get? s.place = found := by
  have hlen := length_le_of_lookUp h
  simpa [lookUp, Nat.not_lt.mpr hlen] using h

theorem present_of_dir (hs : d.spot .unseen path = .ok s) (hn : s.last = some (.name n))
    (hu : d.lookUp s n = .ok (some .dir)) : d.present path = true := by
  obtain ⟨way, hsteps, hl, -, -⟩ := spot_unseen_name hs hn
  have hlen := length_le_of_lookUp hu
  have hdir : d.get? (s.dir ++ [n]) = some .dir := by
    simpa [lookUp, Nat.not_lt.mpr hlen, Spot.place_of_name hn] using hu
  obtain ⟨m, left, -, hl', -, hw⟩ | ⟨err, -, -, herr⟩ := spot_cases (d := d) hsteps
  · obtain rfl := hl.unique hl'
    have hkeep := hw .keep (by decide)
    rw [walk_last hlen rfl rfl (.inr (by simp [hdir]))] at hkeep
    exact present_iff.mpr ⟨_, hkeep, (s.dir ++ [n], .dir), by simp [arrive, Spot.place, hdir]⟩
  · rw [herr .unseen (by decide)] at hs
    cases hs

/-- What stands at the last name of a path that nothing is at is no directory, and a separator follows
the name. -/
theorem slash_of_absent (habsent : d.present path = false) (hs : d.spot .unseen path = .ok s)
    (hn : s.last = some (.name n)) (hu : d.lookUp s n = .ok (some e)) : s.slash = true ∧ e ≠ .dir := by
  constructor
  · by_contra hslash
    have hkeep := locate_keep_of_unseen hs hn (by simpa using hslash)
    rw [hu] at hkeep
    simp [present, lstat, hkeep, Except.map, Except.toBool] at habsent
  · rintro rfl
    rw [present_of_dir hs hn hu] at habsent
    cases habsent

end Disk

namespace Action

open Disk

variable {d made : Disk} {source target : Path} {p q : Place} {e : Entry}

/-- An entry can be put at `target` from `source`: both are absolute, and there is an entry at `source`
and none at `target`. -/
structure Ready (d : Disk) (source target : Path) : Prop where
  source_absolute : source.isAbsolute = true
  target_absolute : target.isAbsolute = true
  present : d.present source = true
  absent : d.present target = false

theorem Ready.runOn_requireFree (h : Ready d source target) :
    (requireFree source target).runOn d = (.ok (), d) := by
  rw [Action.runOn_requireFree]
  simp [h.source_absolute, h.target_absolute, h.present, h.absent]

theorem requireFree_ok (h : (requireFree source target).runOn d = (.ok (), made)) :
    Ready d source target ∧ made = d := by
  rw [runOn_requireFree] at h
  obtain ⟨hok, rfl⟩ := Prod.mk.inj h
  refine ⟨?_, rfl⟩
  split at hok
  · cases hok
  split at hok
  · cases hok
  split at hok
  · cases hok
  split at hok
  · cases hok
  · next hs ht hp hn =>
    exact ⟨by simpa using hs, by simpa using ht, by simpa using hp, by simpa using hn⟩

/-- What moving needs to succeed: there is an entry at the last name of the source and none at that of
the target, where that is not inside the entry; and only a directory may have a separator behind its
name. -/
structure Movable (d : Disk) (source target : Path) (p q : Place) : Prop where
  ready : Ready d source target
  source_names : d.Names source p
  target_names : d.Names target q
  there : d.get? p ≠ none
  free : d.get? q = none
  slash : d.get? p = some .dir ∨ source.route.slash = false ∧ target.route.slash = false
  outside : ¬p <+: q

theorem move_ok (h : (move source target).runOn d = (.ok (), made)) :
    ∃ p q, Movable d source target p q ∧ d.Relocated made p q := by
  obtain ⟨_, d', hfree, hmove⟩ := bind_ok h
  obtain ⟨hready, rfl⟩ := requireFree_ok hfree
  have hrename := changing_ok hmove
  obtain ⟨s, t, hs, ht⟩ := spots_of_rename hrename
  rw [rename_of_spots hs ht] at hrename
  obtain ⟨m, n, e, there, hm, hn, hu, hv, hslash, hinside, hmade⟩ := renameAt_ok hrename
  obtain ⟨-, -, -, hsource, -⟩ := spot_unseen_name hs hm
  obtain ⟨-, -, -, htarget, -⟩ := spot_unseen_name ht hn
  have hentry : d'.get? s.place = some e := get?_of_lookUp hu
  have hplace : t.place = t.dir ++ [n] := Spot.place_of_name hn
  -- What might be at the target's name is passed over by the check, but not by the renaming.
  obtain rfl : there = none := by
    cases there with
    | none => rfl
    | some f =>
      obtain ⟨hts, hf⟩ := slash_of_absent hready.absent ht hn hv
      obtain rfl : e = .dir := by simpa [hts] using hslash
      have hthere : d'.get? t.place = some f := get?_of_lookUp hv
      obtain ⟨hsame, -⟩ | ⟨hreplace, -⟩ := hmade
      · rw [← hsame, hentry, Option.some_inj] at hthere
        exact absurd hthere.symm hf
      · cases f with
        | dir => exact absurd rfl hf
        | file contents => cases hreplace
        | link held => cases hreplace
  have hnone : d'.get? t.place = none := get?_of_lookUp hv
  have hne : s.place ≠ t.place := by
    intro hsame
    rw [hsame, hnone] at hentry
    cases hentry
  obtain ⟨hsame, -⟩ | ⟨-, rfl⟩ := hmade
  · exact absurd hsame hne
  refine ⟨s.place, t.place, ?_, ?_⟩
  · exact
      { ready := hready
        source_names := ⟨s, m, hs, hm, length_le_of_lookUp hu, Spot.place_of_name hm⟩
        target_names := ⟨t, n, ht, hn, length_le_of_lookUp hv, hplace⟩
        there := by simp [hentry]
        free := hnone
        slash := by simpa [hentry, hsource, htarget] using hslash
        outside := by
          rw [hplace]
          intro hpre
          obtain heq | hpre := List.prefix_concat_iff.mp hpre
          · exact hne (heq.trans hplace.symm)
          · exact hinside hpre }
  · rw [hplace] at hnone ⊢
    have hroot : s.place ≠ [] := by simp [Spot.place_of_name hm]
    exact relocated (by simp [hentry]) (get?_dir_of_spot ht) hnone hinside hroot

theorem move_of_movable (h : Movable d source target p q) :
    ∃ made, (move source target).runOn d = (.ok (), made) := by
  obtain ⟨s, m, hs, hm, hmlen, rfl⟩ := h.source_names
  obtain ⟨t, n, ht, hn, hnlen, rfl⟩ := h.target_names
  obtain ⟨-, -, -, hsource, -⟩ := spot_unseen_name hs hm
  obtain ⟨-, -, -, htarget, -⟩ := spot_unseen_name ht hn
  obtain ⟨e, hentry⟩ := Option.ne_none_iff_exists'.mp h.there
  have hsplace : s.place = s.dir ++ [m] := Spot.place_of_name hm
  have htplace : t.place = t.dir ++ [n] := Spot.place_of_name hn
  have hu : d.lookUp s m = .ok (some e) := by
    rw [lookUp, if_neg (Nat.not_lt.mpr hmlen), hsplace, hentry]
  have hv : d.lookUp t n = .ok none := by
    rw [lookUp, if_neg (Nat.not_lt.mpr hnlen), htplace, h.free]
  have hslash : ¬(e ≠ .dir ∧ (s.slash || t.slash) = true) := by
    intro hyp
    have hslash := h.slash
    rw [hentry, Option.some_inj, ← hsource, ← htarget] at hslash
    obtain rfl | ⟨hs, ht⟩ := hslash
    · exact hyp.1 rfl
    · simp [hs, ht] at hyp
  have hinside : ¬s.place <+: t.dir := by
    intro hpre
    rw [hsplace] at hpre
    exact h.outside (hpre.trans (List.prefix_append t.dir [n]))
  have habove : ¬t.place <+: s.dir := by
    intro hpre
    have hdir := get?_dir_of_spot hs
    rw [get?_of_under h.free (htplace ▸ hpre)] at hdir
    cases hdir
  have hne : s.place ≠ t.place := by
    intro hsame
    rw [hsplace, htplace] at hsame
    rw [hsame, h.free] at hentry
    cases hentry
  have hrename : d.rename source target = .ok (d.relocate s.place t.place) := by
    rw [rename_of_spots hs ht]
    unfold renameAt
    simp only [hm, hn, hu, hv, bind, Except.bind, if_neg hslash, List.isPrefixOf_iff_prefix,
      if_neg hinside, if_neg habove, if_neg hne]
    rfl
  refine ⟨d.relocate s.place t.place, ?_⟩
  unfold move
  rw [runOn_bind_ok h.ready.runOn_requireFree, runOn_changing, hrename]

theorem move_error {err : FsError} {d' : Disk} (h : (move source target).runOn d = (.error err, d')) :
    d' = d := by
  have hsame : ((requireFree source target).runOn d).2 = d := by rw [runOn_requireFree]
  unfold move at h
  rcases hrun : (requireFree source target).runOn d with ⟨r, d₁⟩
  rw [hrun] at hsame
  obtain rfl : d₁ = d := hsame
  cases r with
  | error e =>
    rw [runOn_bind_error hrun] at h
    exact (Prod.mk.inj h).2.symm
  | ok u =>
    rw [runOn_bind_ok hrun, runOn_changing] at h
    split at h
    · cases h
    · exact (Prod.mk.inj h).2.symm

/-- **Moving is all or nothing.** If it fails, nothing has changed. If it succeeds, all that was at the
place of the source, and below it, is at the place that the target resolved to, where nothing was before;
nothing is left at the source, and everything else is as it was. It succeeds just if both paths are
absolute, there is an entry at the last name of the source and none at that of the target, and the target
is not inside the source. -/
theorem move_all_or_nothing (d : Disk) (source target : Path) :
    (∀ err d', (move source target).runOn d = (.error err, d') → d' = d) ∧
    (∀ made, (move source target).runOn d = (.ok (), made) →
      ∃ p q, d.Names source p ∧ d.Names target q ∧ d.Relocated made p q ∧
        made.present source = false) ∧
    ((∃ made, (move source target).runOn d = (.ok (), made)) ↔ ∃ p q, Movable d source target p q) := by
  refine ⟨fun _ _ => move_error, ?_, ?_⟩
  · intro made h
    obtain ⟨p, q, hmovable, hrelocated⟩ := move_ok h
    exact ⟨p, q, hmovable.source_names, hmovable.target_names, hrelocated,
      hrelocated.absent hmovable.source_names⟩
  · constructor
    · intro h
      obtain ⟨made, h⟩ := h
      obtain ⟨p, q, hmovable, -⟩ := move_ok h
      exact ⟨p, q, hmovable⟩
    · intro h
      obtain ⟨p, q, hmovable⟩ := h
      exact move_of_movable hmovable

/-- The directory `/s` is moved through the link `/l` to `/d/t`, next to the file that was there. Moved
into itself it stays where it is. -/
theorem move_all_or_nothing_in_linked :
    (∃ made, (move (.ofText "/s".toList) (.ofText "/l/t".toList)).runOn Disk.linked = (.ok (), made) ∧
      made.get? [Utf8.encode "d".toList, Utf8.encode "t".toList, Utf8.encode "f".toList] =
        some (.file (Utf8.encode "new".toList)) ∧
      made.get? [Utf8.encode "s".toList] = none ∧
      made.get? [Utf8.encode "d".toList, Utf8.encode "f".toList] =
        some (.file (Utf8.encode "old".toList))) ∧
    ∃ err, (move (.ofText "/s".toList) (.ofText "/s/t".toList)).runOn Disk.linked =
      (.error err, Disk.linked) := by
  obtain ⟨-, hok, -⟩ := move_all_or_nothing Disk.linked (.ofText "/s".toList) (.ofText "/l/t".toList)
  obtain ⟨herror, -, -⟩ := move_all_or_nothing Disk.linked (.ofText "/s".toList) (.ofText "/s/t".toList)
  constructor
  · obtain ⟨made, hrun⟩ : ∃ made,
        (move (.ofText "/s".toList) (.ofText "/l/t".toList)).runOn Disk.linked = (.ok (), made) :=
      ⟨_, rfl⟩
    obtain ⟨p, q, ⟨s, m, hs, hm, -, rfl⟩, ⟨t, n, ht, hn, -, rfl⟩, hrelocated, -⟩ := hok made hrun
    have hsource : Disk.linked.spot .unseen (.ofText "/s".toList) =
        .ok ⟨[], some (.name (Utf8.encode "s".toList)), false⟩ := by decide +kernel
    have htarget : Disk.linked.spot .unseen (.ofText "/l/t".toList) =
        .ok ⟨[Utf8.encode "d".toList], some (.name (Utf8.encode "t".toList)), false⟩ := by
      decide +kernel
    rw [hsource] at hs
    cases hs
    cases hm
    rw [htarget] at ht
    cases ht
    cases hn
    refine ⟨made, hrun, ?_, hrelocated.gone [], ?_⟩
    · exact (hrelocated.moved [Utf8.encode "f".toList]).trans (by decide +kernel)
    · rw [hrelocated.others _ (by decide +kernel) (by decide +kernel)]
      decide +kernel
  · obtain ⟨err, d', hrun⟩ : ∃ err d',
        (move (.ofText "/s".toList) (.ofText "/s/t".toList)).runOn Disk.linked = (.error err, d') :=
      ⟨_, _, rfl⟩
    obtain rfl := herror err d' hrun
    exact ⟨err, hrun⟩

end Action
end TreeGlob
