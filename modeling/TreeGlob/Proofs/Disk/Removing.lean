import TreeGlob.Proofs.Disk.Arrival

/-!
What removing takes away.

* `unlink_ok` and `removeDir_ok` say what the single steps do.
* `Action.remove_spares` says that nothing is lost but what is at the path or below it.
* `Action.remove_of_erased` says when removing does not fail, and what it takes away then.
* `Action.free_of_remove` says that the path then names a free place, if it ends in a name.
-/
namespace TreeGlob

namespace Disk

variable {d d' made : Disk} {path : Path} {place : Place} {n : Name}

/-! ## Single steps -/

theorem unlink_ok (h : d.unlink path = .ok made) :
    ∃ s n e, d.spot .unseen path = .ok s ∧ s.last = some (.name n) ∧ n.length ≤ maxNameLength ∧
      d.get? s.place = some e ∧ s.slash = false ∧ made = d.erase s.place := by
  obtain ⟨s, hs, h⟩ := bind_eq_ok_iff.mp h
  split at h
  · next n hn =>
    obtain ⟨found, hu, h⟩ := bind_eq_ok_iff.mp h
    have hlen := length_le_of_lookUp hu
    have hfound : d.get? s.place = found := by
      simpa [lookUp, Nat.not_lt.mpr hlen] using hu
    split at h
    · cases h
    · cases h
    · split at h
      · cases h
      · next hslash =>
        cases h
        exact ⟨s, n, _, hs, hn, hlen, hfound, by simpa using hslash, rfl⟩
  · cases h

theorem removeDir_ok (h : d.removeDir path = .ok made) :
    ∃ s n, d.spot .unseen path = .ok s ∧ s.last = some (.name n) ∧ n.length ≤ maxNameLength ∧
      d.get? s.place = some .dir ∧ made = d.erase s.place := by
  obtain ⟨s, hs, h⟩ := bind_eq_ok_iff.mp h
  split at h
  · cases h
  · cases h
  · cases h
  · next n hn =>
    obtain ⟨found, hu, h⟩ := bind_eq_ok_iff.mp h
    have hlen := length_le_of_lookUp hu
    have hfound : d.get? s.place = found := by
      simpa [lookUp, Nat.not_lt.mpr hlen] using hu
    split at h
    · cases h
    · split at h
      · cases h
        exact ⟨s, n, hs, hn, hlen, hfound, rfl⟩
      · cases h
    · cases h

theorem Lawful.of_keeps (h : d.Keeps d') (hd : d'.Lawful) : d.Lawful := by
  intro q hq
  obtain ⟨e, he⟩ := Option.ne_none_iff_exists'.mp hq
  exact hd q (by simp [h q e he])

theorem keeps_erase (d : Disk) (place : Place) : (d.erase place).Keeps d := by
  intro q e he
  by_cases hp : place = []
  · subst hp
    exact he
  · rw [get?_erase d q hp] at he
    split at he
    · cases he
    · exact he

theorem keeps_clear (d : Disk) (place : Place) : (d.clear place).Keeps d := by
  intro q e he
  rw [get?_clear] at he
  split at he
  · cases he
  · exact he

theorem within_erase (d : Disk) (place : Place) : Within (Under place) d (d.erase place) :=
  ⟨fun _ hq => get?_alter_of_not_prefix d _ hq, .of_keeps (keeps_erase d place)⟩

theorem within_clear (d : Disk) (place : Place) : Within (Under place) d (d.clear place) :=
  ⟨fun q hq => by rw [get?_clear, if_neg fun h => hq h.1], .of_keeps (keeps_clear d place)⟩

/-! ## The entry at a path -/

variable {cleared : Disk} {e : Entry} {s : Spot}

/-- The last name of a path is at the place that the path means, also once other entries are gone. -/
theorem place_of_spot (h : d.locate .keep path = .ok (place, e)) (hkeeps : cleared.Keeps d)
    (hs : cleared.spot .unseen path = .ok s) (hn : s.last = some (.name n))
    (hlen : n.length ≤ maxNameLength) {e' : Entry} (he : cleared.get? s.place = some e')
    (hlink : s.slash = false ∨ e' = .dir) : place = s.dir ++ [n] ∧ s.place = place := by
  obtain ⟨steps, hsteps, hl, hslash, -⟩ := spot_unseen_name hs hn
  have hplace := Spot.place_of_name hn
  rw [hplace] at he
  have heq := locate_keep_eq h hsteps (hl.mono hkeeps.retains) hlen (hkeeps _ _ he) (hslash ▸ hlink)
  obtain ⟨rfl, -⟩ := Prod.mk.inj heq
  exact ⟨rfl, hplace⟩

/-- The entry at its last name is the one that a path means. A separator behind the name is for
directories only. -/
theorem locate_keep_of_name (hs : d.spot .unseen path = .ok s) (hn : s.last = some (.name n))
    (hlen : n.length ≤ maxNameLength) (he : d.get? s.place = some e)
    (hslash : s.slash = false ∨ e = .dir) : d.locate .keep path = .ok (s.place, e) := by
  have hplace := Spot.place_of_name hn
  obtain ⟨steps, hsteps, hl, hroute, -⟩ := spot_unseen_name hs hn
  obtain ⟨m, left, -, hl', -, hw⟩ | ⟨err, -, -, herr⟩ := spot_cases (d := d) hsteps
  · obtain rfl := hl.unique hl'
    rw [hplace] at he ⊢
    have hkeep : LastName.keep.keeps path.route.slash = true ∨
        ∀ target, d.get? (s.dir ++ [n]) ≠ some (.link target) := by
      obtain hslash | rfl := hslash
      · exact .inl (by simp [LastName.keeps, ← hroute, hslash])
      · exact .inr (by simp [he])
    unfold locate
    rw [hw .keep (by decide), walk_last hlen rfl rfl hkeep, ← hroute]
    obtain hslash | rfl := hslash
    · rw [hslash]
      exact arrive_name he
    · simp [bind, Except.bind, arrive, Spot.place, he]
  · rw [herr .unseen (by decide)] at hs
    cases hs

theorem keeps_clear_of_erase (d : Disk) (hne : place ≠ []) : (d.erase place).Keeps (d.clear place) := by
  intro q e he
  rw [get?_erase d q hne] at he
  split at he
  · cases he
  · next hout => rwa [get?_clear, if_neg fun hyp => hout hyp.1]

theorem removeDir_clear (hs : (d.clear s.place).spot .unseen path = .ok s)
    (hn : s.last = some (.name n)) (hlen : n.length ≤ maxNameLength)
    (hdir : d.get? s.place = some .dir) :
    (d.clear s.place).removeDir path = .ok ((d.clear s.place).erase s.place) := by
  have hstill : (d.clear s.place).get? s.place = some .dir := by
    rw [get?_clear, if_neg fun hyp => hyp.2 rfl, hdir]
  have hempty : (d.clear s.place).children s.place = [] := by
    refine List.eq_nil_iff_forall_not_mem.mpr fun row hrow => ?_
    have hrow := mem_children.mp hrow
    rw [get?_clear, if_pos ⟨List.prefix_append _ _, by simp⟩] at hrow
    cases hrow
  unfold removeDir
  simp [hs, bind, Except.bind, hn, lookUp, Nat.not_lt.mpr hlen, hstill, hempty]

end Disk

namespace Action

open Disk

variable {d : Disk} {path : Path} {place : Place} {e : Entry} {s : Spot} {n : Name}

/-- A directory is emptied first; then it is removed, if there still is a way to it. -/
theorem runOn_removeTree (h : d.locate .keep path = .ok (place, e)) :
    (removeTree path).runOn d =
      match (d.clear place).removeDir path with
      | .ok removed => (.ok (), removed)
      | .error e => (if e.kind = .notFound then .ok () else .error (.ofIo e path), d.clear place) := by
  unfold removeTree
  rw [runOn_get_bind, h]
  dsimp only
  rw [runOn_bind_ok (runOn_set _ d)]
  cases (d.clear place).removeDir path with
  | ok removed => rfl
  | error e =>
    dsimp only
    split <;> rfl

theorem removeTree_cases (h : d.locate .keep path = .ok (place, e)) :
    ((removeTree path).runOn d).2 = d.clear place ∨
      ((removeTree path).runOn d).2 = (d.clear place).erase place := by
  rw [runOn_removeTree h]
  cases hr : (d.clear place).removeDir path with
  | error err => exact .inl rfl
  | ok removed =>
    obtain ⟨s, n, hs, hn, hlen, hdir, rfl⟩ := removeDir_ok hr
    obtain ⟨rfl, hplace⟩ := place_of_spot h (keeps_clear d place) hs hn hlen hdir (.inr rfl)
    exact .inr (by rw [hplace])

/-- Removing looks at the entry first: a directory is emptied, anything else is unlinked. -/
theorem runOn_remove (ha : path.isAbsolute = true) (d : Disk) :
    (remove path).runOn d =
      match d.lstat path with
      | .error e => (if e.kind = .notFound then .ok () else .error (.ofIo e path), d)
      | .ok .dir => (removeTree path).runOn d
      | .ok _ => (changing path (·.unlink path)).runOn d := by
  unfold remove
  rw [runOn_bind_ok (requireAbsolute_of_absolute ha d), runOn_get_bind]
  cases d.lstat path with
  | error e =>
    dsimp only
    split <;> rfl
  | ok e => cases e <;> rfl

/-- Nothing is lost but what is at the path and below it, whatever comes out of removing it, and
nothing new is there. -/
theorem remove_within (h : d.locate .keep path = .ok (place, e)) :
    Within (Under place) d ((remove path).runOn d).2 ∧ ((remove path).runOn d).2.Keeps d := by
  have hlstat : d.lstat path = .ok e := by simp [lstat, h, Except.map]
  cases ha : path.isAbsolute with
  | false =>
    unfold remove
    rw [runOn_bind_error (requireAbsolute_of_relative ha d)]
    exact ⟨.refl _ d, .refl d⟩
  | true =>
    rw [runOn_remove ha, hlstat]
    cases e with
    | dir =>
      dsimp only
      rcases removeTree_cases h with hrun | hrun
      · rw [hrun]
        exact ⟨within_clear d place, keeps_clear d place⟩
      · rw [hrun]
        exact ⟨(within_clear d place).trans (within_erase _ place),
          (keeps_erase _ place).trans (keeps_clear d place)⟩
    | file | link =>
      dsimp only
      rw [runOn_changing]
      cases hu : d.unlink path with
      | error err => exact ⟨.refl _ d, .refl d⟩
      | ok made =>
        obtain ⟨s, n, e', hs, hn, hlen, he, hslash, rfl⟩ := unlink_ok hu
        obtain ⟨rfl, hplace⟩ := place_of_spot h (.refl d) hs hn hlen he (.inl hslash)
        rw [hplace]
        exact ⟨within_erase d _, keeps_erase d _⟩

theorem remove_of_absent {err : IoError} (h : d.lstat path = .error err) :
    ((remove path).runOn d).2 = d := by
  cases ha : path.isAbsolute with
  | false =>
    unfold remove
    rw [runOn_bind_error (requireAbsolute_of_relative ha d)]
  | true => rw [runOn_remove ha, h]

/-- Removing leaves what is not at the path or below it, and adds nothing. -/
theorem remove_spares (d : Disk) (path : Path) :
    ((remove path).runOn d).2.Keeps d ∧ (d.Lawful → ((remove path).runOn d).2.Lawful) ∧
      ∀ q, (∀ place found, d.locate .keep path = .ok (place, found) → ¬Under place q) →
        ((remove path).runOn d).2.get? q = d.get? q := by
  cases hl : d.lstat path with
  | error err =>
    rw [remove_of_absent hl]
    exact ⟨.refl d, id, fun _ _ => rfl⟩
  | ok e =>
    obtain ⟨place, hplace⟩ := locate_of_lstat hl
    obtain ⟨hwithin, hkeeps⟩ := remove_within hplace
    exact ⟨hkeeps, hwithin.lawful, fun q hq => hwithin.get?_eq q (hq place e hplace)⟩

/-- An entry is removed for good if its directory is found without it and its path ends in its name. -/
theorem remove_of_erased (ha : path.isAbsolute = true)
    (hs : (d.erase s.place).spot .unseen path = .ok s) (hn : s.last = some (.name n))
    (hlen : n.length ≤ maxNameLength) (he : d.get? s.place = some e)
    (hslash : s.slash = false ∨ e = .dir) :
    ∃ removed, (remove path).runOn d = (.ok (), removed) ∧
      ∀ q, removed.get? q = (d.erase s.place).get? q := by
  have hwhere := spot_keeps (keeps_erase d s.place) hs (.inl rfl)
  have hne : s.place ≠ [] := by simp [Spot.place_of_name hn]
  have hlocate := locate_keep_of_name hwhere hn hlen he hslash
  have hlstat : d.lstat path = .ok e := by simp [lstat, hlocate, Except.map]
  rw [runOn_remove ha, hlstat]
  have hunlink : e ≠ .dir → d.unlink path = .ok (d.erase s.place) := by
    intro hother
    unfold unlink
    simp [hwhere, bind, Except.bind, hn, lookUp, Nat.not_lt.mpr hlen, he,
      hslash.resolve_right hother]
  cases e with
  | dir =>
    have hcleared := spot_keeps (keeps_clear_of_erase d hne) hs (.inl rfl)
    dsimp only
    rw [runOn_removeTree hlocate, removeDir_clear hcleared hn hlen he]
    refine ⟨_, rfl, fun q => ?_⟩
    rw [get?_erase _ q hne, get?_erase d q hne, get?_clear]
    split
    · rfl
    · next hout => rw [if_neg fun hyp => hout hyp.1]
  | file | link =>
    dsimp only
    rw [runOn_changing, hunlink (by simp)]
    exact ⟨_, rfl, fun _ => rfl⟩

/-- The place of an entry that was erased is free, if its path still ends there. -/
theorem lookUp_erase {s' : Spot} {n' : Name} (hs : d.spot .unseen path = .ok s)
    (hn : s.last = some (.name n)) (hlen : n.length ≤ maxNameLength)
    (hs' : (d.erase s.place).spot .unseen path = .ok s') (hn' : s'.last = some (.name n')) :
    (d.erase s.place).lookUp s' n' = .ok none := by
  have hne : s.place ≠ [] := by simp [Spot.place_of_name hn]
  obtain ⟨rfl, rfl⟩ := spot_unseen_unique hs hn hs' hn' (keeps_erase d _)
  rw [lookUp, if_neg (Nat.not_lt.mpr hlen), get?_erase _ _ hne, if_pos (List.prefix_refl _)]

theorem lookUp_of_removeDir {e : IoError} (hs : d.spot .unseen path = .ok s)
    (hn : s.last = some (.name n)) (h : d.removeDir path = .error e) (he : e.kind = .notFound) :
    d.lookUp s n = .ok none := by
  unfold removeDir at h
  simp only [hs, hn, bind, Except.bind] at h
  unfold lookUp at h ⊢
  split at h
  · next hu =>
    split at hu <;> cases hu
    cases h
    cases he
  · next found hu =>
    rw [hu]
    split at h
    · rfl
    · split at h
      · cases h
      · cases h
        cases he
    · cases h
      cases he

theorem free_of_remove {d' : Disk}
    (hrun : (remove path).runOn d = (.ok (), d')) (hs : d'.spot .unseen path = .ok s)
    (hn : s.last = some (.name n)) (hslash : s.slash = false) : d'.lookUp s n = .ok none := by
  have ha : path.isAbsolute = true := by
    by_contra ha
    unfold remove at hrun
    rw [runOn_bind_error (requireAbsolute_of_relative (by simpa using ha) d)] at hrun
    cases hrun
  rw [runOn_remove ha] at hrun
  cases hl : d.lstat path with
  | error e =>
    simp only [hl, Prod.mk.injEq] at hrun
    obtain ⟨hok, rfl⟩ := hrun
    split at hok
    · next hkind =>
      -- Nothing was there to begin with, and nothing changed.
      have hkeep := locate_keep_of_unseen hs hn hslash
      unfold lstat at hl
      rw [hkeep] at hl
      unfold lookUp at hl ⊢
      split at hl
      · next hu =>
        split at hu <;> cases hu
        cases hl
        cases hkind
      · next hu => exact hu
      · cases hl
    · cases hok
  | ok e =>
    rw [hl] at hrun
    cases e with
    | dir =>
      obtain ⟨place, hplace⟩ := locate_of_lstat hl
      dsimp only at hrun
      rw [runOn_removeTree hplace] at hrun
      cases hr : (d.clear place).removeDir path with
      | error err =>
        simp only [hr, Prod.mk.injEq] at hrun
        obtain ⟨hok, rfl⟩ := hrun
        split at hok
        · next hkind => exact lookUp_of_removeDir hs hn hr hkind
        · cases hok
      | ok removed =>
        rw [hr] at hrun
        cases hrun
        obtain ⟨s0, n0, hs0, hn0, hlen, -, rfl⟩ := removeDir_ok hr
        exact lookUp_erase hs0 hn0 hlen hs hn
    | file | link =>
      dsimp only at hrun
      rw [runOn_changing] at hrun
      cases hu : d.unlink path with
      | error err =>
        rw [hu] at hrun
        cases hrun
      | ok made =>
        rw [hu] at hrun
        cases hrun
        obtain ⟨s0, n0, e', hs0, hn0, hlen, -, -, rfl⟩ := unlink_ok hu
        exact lookUp_erase hs0 hn0 hlen hs hn

end Action

end TreeGlob
