import TreeGlob.Proofs.Disk.Moving
import TreeGlob.Proofs.Disk.Presence
import TreeGlob.Proofs.Disk.Removing

/-!
What is gone after a removal, and what is not.

A directory is emptied before it is removed. Emptying it may take away the way to it: a link on the way
may lead into the directory and out of it again. Then the directory cannot be found any more, which
counts as removed, and it stays, empty.

* `Disk.spot_unseen_of_fewer` says that with fewer entries a path leads to the same last name or is not
  found.
* `Action.runOn_remove_of_present` says what removing an entry leaves.
* `Action.removes_exactly` is the main result.
-/
namespace TreeGlob

namespace Disk

variable {d fewer : Disk} {links : Nat} {p place : Place} {n : Name} {steps way : List Step}
  {slash : Bool} {path : Path} {s : Spot} {e : Entry}

/-! ## Fewer entries -/

/-- With fewer entries on the disk, a walk up to the last name ends there as well, or something on the
way is missing. -/
theorem walk_unseen_of_fewer (hk : fewer.Keeps d)
    (h : d.walk .unseen links p steps slash = .ok s) :
    fewer.walk .unseen links p steps slash = .ok s ∨
      NotFound (fewer.walk .unseen links p steps slash) := by
  -- A link may bring in more steps than are left, but there is one link less to follow then.
  induction links using Nat.strongRecOn generalizing p steps slash with
  | ind links ihl =>
    induction steps generalizing p with
    | nil =>
      rw [walk_nil] at h ⊢
      exact .inl h
    | cons x steps ih =>
      by_cases hne : steps = []
      · -- The last step is not looked up, so that no entry matters.
        subst hne
        cases x with
        | here =>
          rw [walk_here_last] at h ⊢
          exact .inl h
        | up =>
          rw [walk_up_last] at h ⊢
          exact .inl h
        | name n =>
          rw [walk_unseen_last] at h ⊢
          exact .inl h
      cases x with
      | here =>
        rw [walk_here hne] at h ⊢
        exact ih h
      | up =>
        rw [walk_up hne] at h ⊢
        exact ih h
      | name n =>
        have hlen : n.length ≤ maxNameLength := by
          by_contra hlong
          rw [walk_name_unfit (fun hfits => hlong hfits.1) fun hs => (hne hs).elim] at h
          cases h
        cases hg : fewer.get? (p ++ [n]) with
        | none =>
          rw [walk_missing hlen rfl hg hne]
          exact .inr (notFound_error.mpr rfl)
        | some entry =>
          have hg' := hk _ _ hg
          cases entry with
          | file contents =>
            rw [walk_file hlen rfl hg' hne] at h
            cases h
          | dir =>
            rw [walk_dir hlen rfl hg' hne] at h
            rw [walk_dir hlen rfl hg hne]
            exact ih h
          | link target =>
            cases links with
            | zero =>
              rw [walk_link_zero hlen rfl hg' fun hs => (hne hs).elim] at h
              cases h
            | succ links =>
              rw [walk_link hlen rfl hg' fun hs => (hne hs).elim] at h
              rw [walk_link hlen rfl hg fun hs => (hne hs).elim]
              exact ihl links (Nat.lt_succ_self links) h

theorem spot_unseen_of_fewer (hk : fewer.Keeps d) (h : d.spot .unseen path = .ok s) :
    fewer.spot .unseen path = .ok s ∨ NotFound (fewer.spot .unseen path) := by
  have hadmit := admit_of_spot h
  rw [spot_of_admitted hadmit] at h ⊢
  exact walk_unseen_of_fewer hk h

/-! ## A path that ends in a name -/

theorem last_of_spot_unseen (hsteps : path.route.steps = way ++ [.name n])
    (hs : d.spot .unseen path = .ok s) : s.last = some (.name n) ∧ s.slash = path.route.slash := by
  obtain ⟨m, left, -, -, -, hw⟩ | ⟨err, -, -, herr⟩ := spot_cases (d := d) hsteps
  · rw [hw .unseen (by decide), walk_unseen_last] at hs
    cases hs
    exact ⟨rfl, rfl⟩
  · rw [herr .unseen (by decide)] at hs
    cases hs

theorem absent_of_free (hsteps : path.route.steps = way ++ [.name n])
    (h : ∀ s, d.spot .unseen path = .ok s → d.lookUp s n = .ok none) : d.present path = false := by
  by_contra hpresent
  obtain ⟨s, hs, hthere⟩ := spot_unseen_of_present (by simpa using hpresent)
  obtain ⟨e, he⟩ := hthere n (last_of_spot_unseen hsteps hs).1
  rw [h s hs] at he
  cases he

theorem present_of_lookUp (hs : d.spot .unseen path = .ok s) (hn : s.last = some (.name n))
    (hslash : s.slash = false) (hu : d.lookUp s n = .ok (some e)) : d.present path = true := by
  have hkeep := locate_keep_of_unseen hs hn hslash
  rw [hu] at hkeep
  simp [present, lstat, hkeep, Except.map, Except.toBool]

/-! ## A directory that was emptied -/

/-- A directory that was emptied is removed, if it is still found, and not found otherwise. -/
theorem removeDir_clear_cases (hs : d.spot .unseen path = .ok s) (hn : s.last = some (.name n))
    (hslash : s.slash = false) (hlen : n.length ≤ maxNameLength) (hdir : d.get? s.place = some .dir) :
    (d.clear s.place).present path = true ∧
        (d.clear s.place).removeDir path = .ok ((d.clear s.place).erase s.place) ∨
      (d.clear s.place).present path = false ∧ NotFound ((d.clear s.place).removeDir path) := by
  obtain ⟨way, hsteps, -, -, -⟩ := spot_unseen_name hs hn
  rcases spot_unseen_of_fewer (keeps_clear d s.place) hs with hstill | hlost
  · have hu : (d.clear s.place).lookUp s n = .ok (some .dir) := by
      rw [lookUp, if_neg (Nat.not_lt.mpr hlen), get?_clear, if_neg fun hyp => hyp.2 rfl, hdir]
    exact .inl ⟨present_of_lookUp hstill hn hslash hu, removeDir_clear hstill hn hlen hdir⟩
  · refine .inr ⟨absent_of_free hsteps ?_, notFound_bind.mpr (.inl hlost)⟩
    intro s' hs'
    rw [hs'] at hlost
    exact (not_notFound_ok _ hlost).elim

/-- What was below the place is gone, and what was elsewhere is as it was. -/
structure Hollowed (d d' : Disk) (place : Place) : Prop where
  inside : ∀ q, Below place q → d'.get? q = none
  others : ∀ q, ¬Under place q → d'.get? q = d.get? q

theorem hollowed_clear (d : Disk) (place : Place) : d.Hollowed (d.clear place) place where
  inside q hq := by rw [get?_clear, if_pos ⟨hq.1, hq.2.symm⟩]
  others q hq := by rw [get?_clear, if_neg fun hyp => hq hyp.1]

theorem hollowed_erase {d' : Disk} (h : d.Hollowed d' place) (hne : place ≠ []) :
    d.Hollowed (d'.erase place) place where
  inside q hq := by rw [get?_erase d' q hne, if_pos hq.1]
  others q hq := by rw [get?_erase d' q hne, if_neg (show ¬place <+: q from hq), h.others q hq]

theorem Hollowed.refl_of_ne_dir (he : d.get? place = some e) (hdir : e ≠ .dir) :
    d.Hollowed d place where
  inside q hq := by
    obtain ⟨⟨r, rfl⟩, hr⟩ := hq
    by_contra hthere
    have habove := get?_above hthere fun hnil => hr (by rw [hnil, List.append_nil])
    rw [he] at habove
    exact hdir (Option.some.inj habove)
  others _ _ := rfl

end Disk

namespace Action

open Disk

variable {d d' : Disk} {path : Path} {s : Spot} {n : Name} {e : Entry} {way : List Step}

/-- Removing the entry at the last name of a path does not fail. What is below the entry is gone
afterwards, and the entry with it, unless it is a directory that was not found any more. -/
theorem runOn_remove_of_present (ha : path.isAbsolute = true) (hs : d.spot .unseen path = .ok s)
    (hn : s.last = some (.name n)) (hslash : s.slash = false) (hu : d.lookUp s n = .ok (some e)) :
    ∃ d', (remove path).runOn d = (.ok (), d') ∧ d.Hollowed d' s.place ∧
      d'.get? s.place =
        if e = .dir ∧ (d.clear s.place).present path = false then some .dir else none := by
  have hlen := length_le_of_lookUp hu
  have hentry : d.get? s.place = some e := get?_of_lookUp hu
  have hne : s.place ≠ [] := by simp [Spot.place_of_name hn]
  have hplace : d.locate .keep path = .ok (s.place, e) := by
    rw [locate_keep_of_unseen hs hn hslash, hu]
  have hlstat : d.lstat path = .ok e := by simp [lstat, hplace, Except.map]
  rw [runOn_remove ha, hlstat]
  have herased : ∀ d' : Disk, (d'.erase s.place).get? s.place = none := by
    intro d'
    rw [get?_erase d' _ hne, if_pos (List.prefix_refl _)]
  cases e with
  | dir =>
    dsimp only
    rw [runOn_removeTree hplace]
    rcases removeDir_clear_cases hs hn hslash hlen hentry with ⟨hpresent, hremoved⟩ | ⟨habsent, hlost⟩
    · rw [hremoved]
      refine ⟨_, rfl, hollowed_erase (hollowed_clear d s.place) hne, ?_⟩
      rw [herased, hpresent, if_neg (by simp)]
    · obtain ⟨err, herr, hkind⟩ := hlost
      rw [herr]
      dsimp only
      rw [if_pos hkind]
      refine ⟨_, rfl, hollowed_clear d s.place, ?_⟩
      rw [habsent, if_pos ⟨rfl, rfl⟩, get?_clear, if_neg fun hyp => hyp.2 rfl, hentry]
  | file | link =>
    have hunlink : d.unlink path = .ok (d.erase s.place) := by
      unfold unlink
      simp [hs, bind, Except.bind, hn, hu, hslash]
    dsimp only
    rw [runOn_changing, hunlink]
    refine ⟨_, rfl, hollowed_erase (.refl_of_ne_dir hentry (by simp)) hne, ?_⟩
    rw [herased, if_neg (by simp)]

theorem remove_of_not_present (h : d.present path = false) : ((remove path).runOn d).2 = d := by
  obtain ⟨err, herr⟩ := lstat_of_absent h
  exact remove_of_absent herr

/-- **Removing takes away what the path names, and nothing else.** The path ends in a name. If there is
an entry at it, at some place that the steps before the name lead to, then removing succeeds and the
entry is gone with everything below it, while all else is as it was, also what links in there lead to;
only a directory that is not found any more once it is empty stays, empty. Afterwards nothing is at the
path. If removing fails, or nothing was at the path, nothing has changed. -/
theorem removes_exactly (hsteps : path.route.steps = way ++ [.name n])
    (hslash : path.route.slash = false) :
    (∀ err d', (remove path).runOn d = (.error err, d') → d' = d) ∧
    (∀ d', (remove path).runOn d = (.ok (), d') → d'.present path = false ∧
      (d.present path = false ∧ d' = d ∨
        ∃ place e, d.Names path place ∧ d.get? place = some e ∧ d.Hollowed d' place ∧
          d'.get? place =
            if e = .dir ∧ (d.clear place).present path = false then some .dir else none)) ∧
    (path.isAbsolute = true → d.present path = true →
      ∃ d', (remove path).runOn d = (.ok (), d')) := by
  -- An entry at the path is the one at its last name.
  have hthere : d.present path = true → ∃ s e, d.spot .unseen path = .ok s ∧
      s.last = some (.name n) ∧ s.slash = false ∧ d.lookUp s n = .ok (some e) := by
    intro hpresent
    obtain ⟨s, hs, hfound⟩ := spot_unseen_of_present hpresent
    obtain ⟨hn, hend⟩ := last_of_spot_unseen hsteps hs
    obtain ⟨e, he⟩ := hfound n hn
    exact ⟨s, e, hs, hn, hend.trans hslash, he⟩
  have hrelative : path.isAbsolute = false →
      (remove path).runOn d = (.error (.invalidPath path), d) := by
    intro ha
    unfold remove
    rw [runOn_bind_error (requireAbsolute_of_relative ha d)]
  refine ⟨?_, ?_, ?_⟩
  · intro err d' hrun
    cases ha : path.isAbsolute with
    | false =>
      rw [hrelative ha] at hrun
      exact (Prod.mk.inj hrun).2.symm
    | true =>
      cases hpresent : d.present path with
      | false => simpa [hrun] using remove_of_not_present hpresent
      | true =>
        obtain ⟨s, e, hs, hn, hend, hu⟩ := hthere hpresent
        obtain ⟨made, hok, -⟩ := runOn_remove_of_present ha hs hn hend hu
        rw [hrun] at hok
        cases hok
  · intro d' hrun
    refine ⟨absent_of_free hsteps ?_, ?_⟩
    · intro s hs
      obtain ⟨hn, hend⟩ := last_of_spot_unseen hsteps hs
      exact free_of_remove hrun hs hn (hend.trans hslash)
    · cases hpresent : d.present path with
      | false => exact .inl ⟨rfl, by simpa [hrun] using remove_of_not_present hpresent⟩
      | true =>
        have ha : path.isAbsolute = true := by
          by_contra ha
          rw [hrelative (by simpa using ha)] at hrun
          cases hrun
        obtain ⟨s, e, hs, hn, hend, hu⟩ := hthere hpresent
        obtain ⟨made, hok, hhollowed, hleft⟩ := runOn_remove_of_present ha hs hn hend hu
        obtain rfl : d' = made := (Prod.mk.inj (hrun.symm.trans hok)).2
        have hnames : d.Names path s.place :=
          ⟨s, n, hs, hn, length_le_of_lookUp hu, Spot.place_of_name hn⟩
        exact .inr ⟨s.place, e, hnames, get?_of_lookUp hu, hhollowed, hleft⟩
  · intro ha hpresent
    obtain ⟨s, e, hs, hn, hend, hu⟩ := hthere hpresent
    obtain ⟨made, hok, -⟩ := runOn_remove_of_present ha hs hn hend hu
    exact ⟨made, hok⟩

end Action

/-- A disk with a link to `/d` whose way passes `/d/sub`. -/
def Disk.winding : Disk where
  top :=
    .dir (Utf8.encode "d".toList)
      (.dir (Utf8.encode "sub".toList) (.dir (Utf8.encode "inner".toList) .empty .empty) .empty) <|
    .link (Utf8.encode "l".toList) (.ofText "d/sub/inner/../..".toList) .empty

namespace Action

/-- Through the link `/l` to `/d`, the file `/d/f` is removed and the link stays. Where the way of the
link passes the directory `/d/sub`, that one is emptied through the link and then not found any more. -/
theorem removes_exactly_through_links :
    (∃ d', (remove (.ofText "/l/f".toList)).runOn Disk.linked = (.ok (), d') ∧
      d'.get? [Utf8.encode "d".toList, Utf8.encode "f".toList] = none ∧
      d'.get? [Utf8.encode "l".toList] = some (.link (.ofText "d".toList)) ∧
      d'.present (.ofText "/l/f".toList) = false) ∧
    ∃ d', (remove (.ofText "/l/sub".toList)).runOn Disk.winding = (.ok (), d') ∧
      d'.get? [Utf8.encode "d".toList, Utf8.encode "sub".toList] = some .dir ∧
      d'.get? [Utf8.encode "d".toList, Utf8.encode "sub".toList, Utf8.encode "inner".toList] = none ∧
      d'.present (.ofText "/l/sub".toList) = false := by
  have hsteps : (Path.ofText "/l/f".toList).route.steps =
      [.name (Utf8.encode "l".toList)] ++ [.name (Utf8.encode "f".toList)] := by decide +kernel
  have hsteps' : (Path.ofText "/l/sub".toList).route.steps =
      [.name (Utf8.encode "l".toList)] ++ [.name (Utf8.encode "sub".toList)] := by decide +kernel
  obtain ⟨-, hremoved, htotal⟩ := @removes_exactly Disk.linked _ _ _ hsteps (by decide +kernel)
  obtain ⟨-, hremoved', htotal'⟩ := @removes_exactly Disk.winding _ _ _ hsteps' (by decide +kernel)
  have hthere : Disk.linked.present (.ofText "/l/f".toList) = true := by decide +kernel
  have hthere' : Disk.winding.present (.ofText "/l/sub".toList) = true := by decide +kernel
  constructor
  · obtain ⟨d', hrun⟩ := htotal (by decide +kernel) hthere
    obtain ⟨habsent, ⟨hnone, -⟩ | ⟨place, e, ⟨s, n, hs, hn, -, rfl⟩, he, hhollowed, hleft⟩⟩ :=
      hremoved d' hrun
    · rw [hthere] at hnone
      cases hnone
    have hspot : Disk.linked.spot .unseen (.ofText "/l/f".toList) =
        .ok ⟨[Utf8.encode "d".toList], some (.name (Utf8.encode "f".toList)), false⟩ := by decide +kernel
    obtain rfl := Except.ok.inj (hspot.symm.trans hs)
    cases hn
    refine ⟨d', hrun, ?_, ?_, habsent⟩
    · have hfile : e = .file (Utf8.encode "old".toList) := (Option.some.inj he).symm
      rw [hfile, if_neg (by simp)] at hleft
      exact hleft
    · have hapart : ¬[Utf8.encode "d".toList, Utf8.encode "f".toList] <+: [Utf8.encode "l".toList] := by
        decide +kernel
      rw [hhollowed.others _ hapart]
      rfl
  · obtain ⟨d', hrun⟩ := htotal' (by decide +kernel) hthere'
    obtain ⟨habsent, ⟨hnone, -⟩ | ⟨place, e, ⟨s, n, hs, hn, -, rfl⟩, he, hhollowed, hleft⟩⟩ :=
      hremoved' d' hrun
    · rw [hthere'] at hnone
      cases hnone
    have hspot : Disk.winding.spot .unseen (.ofText "/l/sub".toList) =
        .ok ⟨[Utf8.encode "d".toList], some (.name (Utf8.encode "sub".toList)), false⟩ := by
      decide +kernel
    obtain rfl := Except.ok.inj (hspot.symm.trans hs)
    cases hn
    refine ⟨d', hrun, ?_, ?_, habsent⟩
    · rw [if_pos ⟨(Option.some.inj he).symm, by decide +kernel⟩] at hleft
      exact hleft
    · exact hhollowed.inside _ ⟨by decide +kernel, by decide +kernel⟩

end Action

end TreeGlob
