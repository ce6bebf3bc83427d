import TreeGlob.Proofs.Disk.Making
import TreeGlob.Proofs.Disk.Missing

/-!
What is there is not reported as "not found".

* `Leads.not_misses` says that steps which lead to an entry come to no missing name.
* `spot_notFound_iff_of_last` says that a path is not found just if the way to its last step is missing,
  whatever is wanted of that step, as long as the step itself does not fail so.
* `absent_child` says that there is nothing below a path that nothing is at.
* `spot_unseen_of_present` says that the last name of a path is the name of an entry, if there is one at
  the path; `stat_notFound_iff` says when such an entry leads nowhere.
-/
namespace TreeGlob

namespace Disk

variable {d : Disk} {mode : LastName} {limit : Place → Prop} {links : Nat} {p q m from_ : Place}
  {n : Name} {steps way more : List Step} {slash slash' : Bool} {path source : Path} {e : Entry}

/-! ## Steps that lead somewhere -/

theorem Leads.not_misses (h : d.Leads p steps q) : ¬d.Misses limit links p steps := by
  intro hmiss
  induction hmiss generalizing q with
  | here _ ih => exact ih (leads_here_iff.mp h)
  | up _ ih => exact ih (leads_up_iff.mp h)
  | enter _ _ hd _ ih => exact ih ((leads_dir_iff hd).mp h)
  | follow _ _ hl _ ih => exact ih ((leads_link_iff hl).mp h)
  | missing _ _ hnone => exact get?_of_leads_name h hnone

theorem locate_follow_found (hne : path.bytes ≠ []) (h : d.Leads [] path.route.steps q) :
    ¬NotFound (d.locate .follow path) := by
  intro hno
  exact h.not_misses ((locate_follow_notFound_iff hne).mp hno).2

theorem not_wayMissing (hsteps : path.route.steps = way ++ [.name n]) (h : d.Leads [] way m) :
    ¬d.WayMissing path := by
  intro hmissing
  obtain ⟨-, way', last, hsteps', hmiss⟩ := hmissing
  obtain ⟨rfl, -⟩ := List.append_inj' (hsteps.symm.trans hsteps') rfl
  exact h.not_misses hmiss

/-- Whatever is wanted of the last step, a path is not found just if the way to that step is missing, as
long as the step itself does not fail so. -/
theorem spot_notFound_iff_of_last (hmode : mode ≠ .spell) (hne : path.bytes ≠ [])
    (hlast : ∀ way last left m, path.route.steps = way ++ [last] → d.Leads [] way m →
      (∀ mode ≠ .spell, d.spot mode path = d.walk mode left m [last] path.route.slash) →
      ¬NotFound (d.walk mode left m [last] path.route.slash)) :
    NotFound (d.spot mode path) ↔ d.WayMissing path := by
  rw [← spot_notFound_iff hne]
  obtain hnil | ⟨way, last, hsteps⟩ := List.eq_nil_or_concat path.route.steps
  · rw [spot_of_steps_nil hnil mode .unseen]
  rw [List.concat_eq_append] at hsteps
  obtain ⟨m, left, -, hl, -, hw⟩ | ⟨e, -, -, he⟩ := spot_cases (d := d) hsteps
  · rw [hw mode hmode, hw .unseen (by decide)]
    exact iff_of_false (hlast way last left m hsteps hl hw)
      (walk_last_found (by decide) fun _ _ _ => .inr (.inl rfl))
  · rw [he mode hmode, he .unseen (by decide)]

theorem lstat_child_found (hn : ProperName n) (hl : d.Leads [] source.route.steps from_)
    (hentry : d.get? (from_ ++ [n]) = some e) : ¬NotFound (d.lstat (source.child n)) := by
  have hsteps : (source.child n).route.steps = source.route.steps ++ [.name n] := steps_child_name hn
  have hslash := Path.slash_child source hn.ne_nil hn.separator_not_mem
  have hne := Path.bytes_child_ne_nil source hn.ne_nil hn.separator_not_mem
  rw [lstat, notFound_map]
  obtain ⟨m, left, -, hl', -, hw⟩ | ⟨err, -, -, herr⟩ := spot_cases (d := d) hsteps
  · obtain rfl := hl.unique hl'
    unfold locate
    rw [hw .keep (by decide), hslash, walk_last hn.length_le rfl rfl (.inl rfl)]
    intro hno
    have hnone : d.get? (from_ ++ [n]) = none := notFound_arrive.mp hno
    rw [hentry] at hnone
    cases hnone
  · have hmissing : ¬NotFound (d.spot .unseen (source.child n)) := by
      rw [spot_notFound_iff hne]
      exact not_wayMissing hsteps hl
    rw [herr .unseen (by decide), notFound_error] at hmissing
    unfold locate
    rw [herr .keep (by decide)]
    exact mt notFound_error.mp hmissing

/-! ## Below a path -/

/-- A walk that is not refused has passed directories only: the steps it began with lead to one. -/
theorem walk_follow_of_more (hmode : mode ≠ .spell) (hmore : more ≠ []) (hp : d.get? p = some .dir)
    {s : Spot} (h : d.walk mode links p (steps ++ more) slash = .ok s) :
    ∃ s', d.walk .follow links p steps slash' = .ok s' ∧ d.get? s'.place = some .dir := by
  induction links using Nat.strongRecOn generalizing p steps slash slash' with
  | ind links ihl =>
    induction steps generalizing p with
    | nil => exact ⟨_, walk_nil, hp⟩
    | cons x steps ih =>
      have hne : steps ++ more ≠ [] := by simp [hmore]
      rw [List.cons_append] at h
      cases x with
      | here =>
        rw [walk_here hne] at h
        by_cases hs : steps = []
        · subst hs
          exact ⟨_, walk_here_last, hp⟩
        · rw [walk_here hs]
          exact ih hp h
      | up =>
        have hup := get?_dropLast_of_dir hp
        rw [walk_up hne] at h
        by_cases hs : steps = []
        · subst hs
          exact ⟨_, walk_up_last, hup⟩
        · rw [walk_up hs]
          exact ih hup h
      | name n =>
        have hr := refuses_of_ne_spell hmode (p ++ [n])
        have hlen : n.length ≤ maxNameLength := by
          by_contra hlong
          rw [walk_name_unfit (fun hfits => hlong hfits.1) fun hs => (hne hs).elim] at h
          cases h
        cases hg : d.get? (p ++ [n]) with
        | none =>
          rw [walk_missing hlen hr hg hne] at h
          cases h
        | some entry =>
          cases entry with
          | file contents =>
            rw [walk_file hlen hr hg hne] at h
            cases h
          | dir =>
            rw [walk_dir hlen hr hg hne] at h
            by_cases hs : steps = []
            · subst hs
              exact ⟨_, walk_last hlen rfl rfl (.inr (by simp [hg])), hg⟩
            · rw [walk_dir hlen rfl hg hs]
              exact ih hg h
          | link target =>
            cases links with
            | zero =>
              rw [walk_link_zero hlen hr hg fun hs => (hne hs).elim] at h
              cases h
            | succ links =>
              have hfrom : d.get? (if target.route.absolute then [] else p) = some .dir := by
                split <;> simp [hp]
              rw [walk_link hlen hr hg fun hs => (hne hs).elim, ← List.append_assoc] at h
              rw [walk_link hlen rfl hg fun _ => ⟨rfl, rfl⟩]
              exact ihl links (Nat.lt_succ_self links) hfrom h

theorem admit_of_child (hne : path.bytes ≠ []) (hn : ProperName n)
    (h : Path.admit (path.child n) = .ok (path.child n).route) : path.admit = .ok path.route := by
  obtain ⟨hzero, -, hlen⟩ := admit_eq_ok_iff.mp h
  have hspelled := Path.bytes_prefix_child hne hn.separator_not_mem
  refine admit_eq_ok_iff.mpr ⟨fun hmem => hzero (hspelled.subset hmem), hne, ?_⟩
  exact (Path.length_lt_child path hn.ne_nil hn.separator_not_mem).trans hlen

theorem spot_of_admitted (h : path.admit = .ok path.route) :
    d.spot mode path = d.walk mode maxLinks [] path.route.steps path.route.slash := by
  unfold spot
  rw [h]
  rfl

theorem absent_child (hne : path.bytes ≠ []) (hn : ProperName n) (h : d.present path = false) :
    d.present (path.child n) = false := by
  by_contra hchild
  obtain ⟨s, hs, -⟩ := present_iff.mp (by simpa using hchild)
  have hadmit := admit_of_spot hs
  have hsteps : (path.child n).route.steps = path.route.steps ++ [.name n] := steps_child_name hn
  rw [spot_of_admitted hadmit, hsteps] at hs
  obtain ⟨s', hfollow, hdir⟩ :=
    walk_follow_of_more (by decide) (by simp) d.get?_root hs
  rw [← spot_of_admitted (admit_of_child hne hn hadmit)] at hfollow
  have harrives : d.Arrives s' := ⟨(s'.place, .dir), by simp [arrive, hdir]⟩
  have hthere := present_of_spot hfollow harrives (.inl rfl)
  rw [h] at hthere
  cases hthere

/-! ## The last name -/

/-- The last name of a path is that of an entry, if there is one at the path. -/
theorem spot_unseen_of_present (h : d.present path = true) :
    ∃ s, d.spot .unseen path = .ok s ∧
      ∀ n, s.last = some (.name n) → ∃ e, d.lookUp s n = .ok (some e) := by
  obtain ⟨s, hs, ⟨q, e⟩, ha⟩ := present_iff.mp h
  obtain hnil | ⟨way, last, hsteps⟩ := List.eq_nil_or_concat path.route.steps
  · have hunseen := (spot_of_steps_nil hnil .unseen .keep).trans hs
    refine ⟨s, hunseen, fun n hn => ?_⟩
    obtain ⟨way, hsteps, -⟩ := spot_unseen_name hunseen hn
    simp [hnil] at hsteps
  rw [List.concat_eq_append] at hsteps
  obtain ⟨m, left, -, -, -, hw⟩ | ⟨err, -, -, herr⟩ := spot_cases (d := d) hsteps
  · have hkeep := (hw .keep (by decide)).symm.trans hs
    have hunseen := hw .unseen (by decide)
    cases last with
    | here => exact ⟨_, hunseen.trans walk_here_last, nofun⟩
    | up => exact ⟨_, hunseen.trans walk_up_last, nofun⟩
    | name n =>
      refine ⟨_, hunseen.trans walk_unseen_last, fun k hk => ?_⟩
      obtain rfl : n = k := by simpa using hk
      have hlen : n.length ≤ maxNameLength := by
        by_contra hlong
        rw [walk_name_long (Nat.not_le.mp hlong) rfl] at hkeep
        cases hkeep
      cases hg : d.get? (m ++ [n]) with
      | some e => exact ⟨e, by simp [lookUp, Spot.place, Nat.not_lt.mpr hlen, hg]⟩
      | none =>
        rw [walk_last hlen rfl rfl (.inr (by simp [hg]))] at hkeep
        cases hkeep
        have hthere := get?_of_arrive ha
        rw [place_of_arrive ha] at hthere
        exact absurd (hthere.symm.trans hg) (Option.some_ne_none _)
  · rw [herr .keep (by decide)] at hs
    cases hs

/-- Where nothing is at a path, a file that is to be created there is not found just if the way to it is
missing. -/
theorem spot_create_notFound_iff (hne : path.bytes ≠ []) (h : d.present path = false) :
    NotFound (d.spot .create path) ↔ d.WayMissing path := by
  refine spot_notFound_iff_of_last (by decide) hne ?_
  intro way last left m hsteps hl hw
  apply walk_last_found (by decide)
  intro n hn hlen
  right
  cases hslash : path.route.slash with
  | true => exact .inl rfl
  | false =>
    right
    intro held hlink
    have hkeep := hw .keep (by decide)
    rw [hn, hslash, walk_last hlen rfl rfl (.inl rfl)] at hkeep
    have hpresent := present_iff.mpr ⟨_, hkeep, _, arrive_name hlink⟩
    rw [h] at hpresent
    cases hpresent

theorem stat_notFound_iff (h : d.present path = true) :
    NotFound (d.stat path) ↔ d.Misses (fun _ => True) maxLinks [] path.route.steps := by
  obtain ⟨s, hs, -⟩ := spot_unseen_of_present h
  have hadmit := admit_of_spot hs
  have hne := (admit_eq_ok_iff.mp hadmit).2.1
  rw [stat, notFound_map, locate_follow_notFound_iff hne, and_iff_right hadmit]

end Disk

end TreeGlob
