import TreeGlob.Proofs.Disk.Aiming

/-!
What a copy holds.

* `Disk.SameTree` says that all that is at a place, and below it, is at another place on another disk.
* `Disk.Filling` is where a copy of what is in a directory starts from, the paths of two directories, and
  `Disk.Facing` says that neither of them is in the other one.
* `Action.copyChild_sameTree` and `Action.forM_copyChild_sameTree` are the steps of such a copy,
  `Action.copyContents_sameTree` is the whole.
* `Action.copy_faithful` is the main result.
-/
namespace TreeGlob

namespace Disk

variable {d d' made : Disk} {source target : Path} {from_ place p q : Place} {n : Name} {e : Entry}

/-- What is at `place` on the disk `made`, and below it, is what is at `from_` on `d`. -/
def SameTree (d : Disk) (from_ : Place) (made : Disk) (place : Place) : Prop :=
  ∀ q, made.get? (place ++ q) = d.get? (from_ ++ q)

/-- No place is under both. -/
def Separate (p q : Place) : Prop := ∀ x, Under p x → ¬Under q x

theorem separate_of_not_prefix (h : ¬p <+: q) (h' : ¬q <+: p) : Separate p q := by
  intro x hp hq
  obtain hpq | hqp := List.prefix_or_prefix_of_prefix hp hq
  · exact h hpq
  · exact h' hqp

theorem Separate.append (h : Separate p q) (r s : Place) : Separate (p ++ r) (q ++ s) := fun x hp hq =>
  h x ((List.prefix_append p r).trans hp) ((List.prefix_append q s).trans hq)

theorem Writes.sameTree (hw : d.Writes made place n e) (hfrom : d.get? from_ = some e) (he : e ≠ .dir) :
    d.SameTree from_ made (place ++ [n]) := by
  intro q
  by_cases hq : q = []
  · rw [hq, List.append_nil, List.append_nil, hw.get?_self, hfrom]
  · have hplace : d.get? (place ++ [n] ++ q) = none := by
      by_contra hne
      exact hw.ne_dir (get?_above hne hq)
    have hbelow : d.get? (from_ ++ q) = none := by
      by_contra hne
      have habove := get?_above hne hq
      rw [hfrom, Option.some_inj] at habove
      exact he habove
    rw [hw.get?_of_ne (by simpa using hq), hplace, hbelow]

/-- Two paths lead to directories, what is in the one being copied into the other. -/
structure Filling (d : Disk) (source target : Path) (from_ place : Place) : Prop where
  lawful : d.Lawful
  leads_source : d.Leads [] source.route.steps from_
  get?_source : d.get? from_ = some .dir
  leads_target : d.Leads [] target.route.steps place
  get?_target : d.get? place = some .dir

theorem Filling.mono (h : d.Filling source target from_ place) (hr : d.Retains d') (hl : d'.Lawful) :
    d'.Filling source target from_ place where
  lawful := hl
  leads_source := h.leads_source.mono hr
  get?_source := hr.get?_dir h.get?_source
  leads_target := h.leads_target.mono hr
  get?_target := hr.get?_dir h.get?_target

theorem leads_child (hn : ProperName n) (hl : d.Leads [] source.route.steps from_)
    (hdir : d.get? from_ = some .dir) (hentry : d.get? (from_ ++ [n]) = some e)
    (he : ∀ held, e ≠ .link held) : d.Leads [] (source.child n).route.steps (from_ ++ [n]) := by
  rw [steps_child_name hn]
  exact hl.append hdir (leads_names hentry he)

/-- The directories are such that neither is in the other. -/
structure Facing (d : Disk) (source target : Path) (from_ place : Place) : Prop
    extends Filling d source target from_ place where
  separate : Separate from_ place

theorem Facing.mono (h : d.Facing source target from_ place) (hr : d.Retains d') (hl : d'.Lawful) :
    d'.Facing source target from_ place where
  toFilling := h.toFilling.mono hr hl
  separate := h.separate

theorem Facing.child (h : d.Facing source target from_ place) (hn : ProperName n)
    (hsource : d.get? (from_ ++ [n]) = some .dir) (htarget : d.get? (place ++ [n]) = some .dir) :
    d.Facing (source.child n) (target.child n) (from_ ++ [n]) (place ++ [n]) where
  lawful := h.lawful
  leads_source := leads_child hn h.leads_source h.get?_source hsource (by simp)
  get?_source := hsource
  leads_target := leads_child hn h.leads_target h.get?_target htarget (by simp)
  get?_target := htarget
  separate := h.separate.append [n] [n]

/-- What changes in the target leaves the source alone. -/
theorem Facing.get?_eq (h : d.Facing source target from_ place) {area : Place → Prop}
    (hw : Within area d d') (harea : ∀ q, area q → Under place q) (q : Place) :
    d'.get? (from_ ++ q) = d.get? (from_ ++ q) := by
  apply hw.get?_eq
  intro hq
  exact h.separate _ (List.prefix_append from_ q) (harea _ hq)

/-- The entries that are still to be copied are in the one directory, and their names are hollow in the
other. -/
structure Ahead (d : Disk) (from_ place : Place) (children : List Child) : Prop where
  entries : ∀ c ∈ children, ∃ e, d.get? (from_ ++ [c.name]) = some e ∧ c = .ofEntry c.name e
  hollow : ∀ c ∈ children, d.Hollow (place ++ [c.name])
  nodup : (children.map Child.name).Nodup

theorem ahead_children (hhollow : d.Hollow place) :
    d.Ahead from_ place ((d.children from_).map fun c => Child.ofEntry c.1 c.2) where
  entries c hc := by
    obtain ⟨row, hrow, rfl⟩ := List.mem_map.mp hc
    exact ⟨row.2, mem_children.mp hrow, rfl⟩
  hollow c _ q e he hq := hhollow q e he (below_of_under hq).1
  nodup := by
    rw [List.map_map]
    exact nodup_children d from_

theorem ofEntry_of_alike {e' : Entry} (h : e.Alike e') : Child.ofEntry n e = Child.ofEntry n e' := by
  cases e with
  | dir => rw [h.eq_of_dir]
  | link held => rw [h.eq_of_link]
  | file contents =>
    obtain ⟨contents', rfl⟩ := h.eq_of_file
    rfl

/-- Copying an entry leaves those that come after it as they were. -/
theorem Ahead.next {c : Child} {children : List Child}
    (h : d.Ahead from_ place (c :: children)) (hr : d.Retains d')
    (hw : Within (Under (place ++ [c.name])) d d') : d'.Ahead from_ place children where
  entries c' hc' := by
    obtain ⟨e, he, hkind⟩ := h.entries c' (List.mem_cons_of_mem c hc')
    obtain ⟨e', he', halike⟩ := hr _ _ he
    exact ⟨e', he', hkind.trans (ofEntry_of_alike halike)⟩
  hollow c' hc' q e he hq := by
    refine h.hollow c' (List.mem_cons_of_mem c hc') q e ?_ hq
    rw [← hw.get?_eq q]
    · exact he
    · intro hqc
      exact (List.nodup_cons.mp h.nodup).1 (eq_of_under hqc hq ▸ List.mem_map_of_mem hc')
  nodup := (List.nodup_cons.mp h.nodup).2

/-- Entries of the one directory that wait to be copied, each to a free name of the other. -/
structure Waiting (d : Disk) (from_ place : Place) (rows : List (Name × Entry)) : Prop where
  entries : ∀ row ∈ rows, d.get? (from_ ++ [row.1]) = some row.2
  nodup : (rows.map Prod.fst).Nodup
  free : ∀ row ∈ rows, d.get? (place ++ [row.1]) = none

theorem waiting_children (hempty : ∀ n, d.get? (place ++ [n]) = none) :
    d.Waiting from_ place (d.children from_) where
  entries _ hrow := mem_children.mp hrow
  nodup := nodup_children d from_
  free row _ := hempty row.1

/-- What happens under the first name leaves the others waiting. -/
theorem Waiting.next {rows : List (Name × Entry)} (hwait : d.Waiting from_ place ((n, e) :: rows))
    (h : d.Facing source target from_ place) (hw : Within (Under (place ++ [n])) d d') :
    d'.Waiting from_ place rows where
  entries row hrow := by
    rw [h.get?_eq hw fun q hq => (below_of_under hq).1]
    exact hwait.entries row (List.mem_cons_of_mem _ hrow)
  nodup := (List.nodup_cons.mp hwait.nodup).2
  free row hrow := by
    rw [hw.get?_eq]
    · exact hwait.free row (List.mem_cons_of_mem _ hrow)
    · intro hq
      obtain rfl := eq_of_under hq List.prefix_rfl
      exact (List.nodup_cons.mp hwait.nodup).1 (List.mem_map.mpr ⟨row, hrow, rfl⟩)

end Disk

namespace Action

open Disk

variable {d made : Disk} {source target : Path} {from_ place : Place} {n : Name} {e : Entry}
  {depth : Nat}

/-- Copying what is in a directory into an empty one, for one depth. -/
def CopiesAll (depth : Nat) : Prop := ∀ (d made : Disk) (source target : Path) (from_ place : Place),
  d.Facing source target from_ place → (∀ n, d.get? (place ++ [n]) = none) →
    (copyContents depth source target).runOn d = (.ok (), made) → d.SameTree from_ made place

theorem readLink_child (h : d.Facing source target from_ place) {held held' : Path}
    (hentry : d.get? (from_ ++ [n]) = some (.link held))
    (hread : d.readLink (source.child n) = .ok held') : held' = held := by
  have hn : ProperName n := DirectoryAt.properName h.lawful hentry
  unfold readLink at hread
  cases hstat : d.lstat (source.child n) with
  | error e =>
    rw [hstat] at hread
    cases hread
  | ok entry =>
    obtain ⟨q, hq⟩ := locate_of_lstat hstat
    have hfound := locate_keep_eq hq (steps_child_name hn) h.leads_source hn.length_le hentry
      (.inl (Path.slash_child source hn.ne_nil hn.separator_not_mem))
    cases hfound
    rw [hstat] at hread
    cases hread
    rfl

/-- An empty directory was made for one of the source, and what is in the source is as it was. -/
theorem facing_child (h : d.Facing source target from_ place)
    (hentry : d.get? (from_ ++ [n]) = some .dir) (hfree : d.get? (place ++ [n]) = none)
    (hmade : (makeDirectories (target.child n)).runOn d = (.ok (), made)) :
    made.Facing (source.child n) (target.child n) (from_ ++ [n]) (place ++ [n]) ∧
      (∀ m, made.get? (place ++ [n] ++ [m]) = none) ∧
      ∀ q, made.get? (from_ ++ q) = d.get? (from_ ++ q) := by
  have hn : ProperName n := DirectoryAt.properName h.lawful hentry
  have hw : d.Writes made place n .dir := by
    obtain ⟨made', hmade', hmade''⟩ | ⟨e, herror⟩ :=
      makeDirectories_child h.leads_target h.get?_target hn
    · obtain ⟨-, rfl⟩ := Prod.mk.inj (hmade'.symm.trans hmade)
      obtain hmade | ⟨-, hthere⟩ := hmade''
      · exact (MakesAt.child h.leads_target hn (makeDir_ok hmade)).1
      · -- There would have been a directory at the name already.
        obtain ⟨q, hq⟩ := locate_of_isDirectory hthere
        have hl := leads_of_locate hq
        rw [steps_child_name hn] at hl
        exact (get?_of_leads_past h.leads_target hl hfree).elim
    · cases herror.symm.trans hmade
  have hsource : ∀ q, made.get? (from_ ++ q) = d.get? (from_ ++ q) :=
    h.get?_eq (hw.within hn) fun q hq => (below_of_under hq).1
  have hfacing := h.mono (hw.keeps hfree).retains (hw.lawful hn h.lawful)
  refine ⟨hfacing.child hn ((hsource [n]).trans hentry) hw.get?_self, fun m => ?_, hsource⟩
  rw [hw.get?_of_ne (by simp)]
  exact get?_of_under hfree (List.prefix_append _ _)

/-- A copied entry is as it was, with all that is below it. -/
theorem copyChild_sameTree (hinside : CopiesAll depth) (h : d.Facing source target from_ place)
    (hentry : d.get? (from_ ++ [n]) = some e) (hfree : d.get? (place ++ [n]) = none)
    (hrun : (copyChild depth source target (.ofEntry n e)).runOn d = (.ok (), made)) :
    d.SameTree (from_ ++ [n]) made (place ++ [n]) := by
  have hn : ProperName n := DirectoryAt.properName h.lawful hentry
  cases e with
  | dir =>
    rw [copyChild_dir] at hrun
    obtain ⟨_, between, hmade, hrun⟩ := bind_ok hrun
    obtain ⟨hchild, hempty, hsource⟩ := facing_child h hentry hfree hmade
    intro q
    rw [hinside between made _ _ _ _ hchild hempty hrun q, List.append_assoc, hsource]
  | link held =>
    rw [copyChild_link] at hrun
    obtain ⟨held', hread, hmade⟩ := copyLink_ok hrun
    obtain rfl := readLink_child h hentry hread
    exact (MakesAt.child h.leads_target hn (makeLink_ok hmade)).1.sameTree hentry (by simp)
  | file contents =>
    rw [copyChild_file] at hrun
    obtain ⟨q, contents', hq, hw⟩ :=
      copyFile_child h.leads_target hn (by simp [hfree]) (changing_ok hrun)
    obtain rfl := (leads_of_locate hq).unique
      (leads_child hn h.leads_source h.get?_source hentry (by simp))
    obtain rfl : contents = contents' := by simpa [hentry] using get?_of_locate hq
    have hother : from_ ++ [n] ≠ place ++ [n] := by
      intro heq
      rw [heq, hfree] at hentry
      cases hentry
    rw [if_neg hother] at hw
    exact hw.sameTree hentry (by simp)

theorem copyChild_within_of_free (depth : Nat) (h : d.Facing source target from_ place)
    (hentry : d.get? (from_ ++ [n]) = some e) (hfree : d.get? (place ++ [n]) = none) :
    Within (Under (place ++ [n])) d ((copyChild depth source target (.ofEntry n e)).runOn d).2 := by
  have hn : ProperName n := DirectoryAt.properName h.lawful hentry
  have hhollow : d.Hollow (place ++ [n]) := fun q e he hq => by
    simp [get?_of_under hfree hq] at he
  exact copyChild_within (copyContents_within depth) h.lawful h.leads_target h.get?_target
    (c := .ofEntry n e) hn hhollow

/-- Where a directory was made for one of the source, it can be filled as well. -/
theorem filling_child (h : d.Filling source target from_ place)
    (hentry : d.get? (from_ ++ [n]) = some .dir) (hhollow : d.Hollow (place ++ [n]))
    (hmade : (makeDirectories (target.child n)).runOn d = (.ok (), made)) :
    made.Filling (source.child n) (target.child n) (from_ ++ [n]) (place ++ [n]) ∧
      made.Hollow (place ++ [n]) := by
  have hn : ProperName n := DirectoryAt.properName h.lawful hentry
  obtain ⟨hadds, hinner, hinnerdir⟩ := leads_of_makeDirectories_child h.leads_target hn hhollow hmade
  have hretains := hadds.keeps.retains
  refine ⟨?_, hadds.hollow hhollow⟩
  exact
    { lawful := hadds.lawful h.lawful
      leads_source := (leads_child hn h.leads_source h.get?_source hentry (by simp)).mono hretains
      get?_source := hretains.get?_dir hentry
      leads_target := hinner
      get?_target := hinnerdir }

/-- Where an entry was copied to a hollow name, the next one can be copied. -/
theorem ahead_copyChild {c : Child} {children : List Child} (depth : Nat)
    (h : d.Filling source target from_ place) (hahead : d.Ahead from_ place (c :: children))
    (hrun : (copyChild depth source target c).runOn d = (.ok (), made)) :
    made.Filling source target from_ place ∧ made.Ahead from_ place children := by
  obtain ⟨⟨e, hentry, -⟩, -⟩ := List.forall_mem_cons.mp hahead.entries
  have hretains := retains_copyChild depth source target c d
  have hwithin : Within (Under (place ++ [c.name])) d
      ((copyChild depth source target c).runOn d).2 :=
    copyChild_within (copyContents_within depth) h.lawful h.leads_target h.get?_target
      (DirectoryAt.properName h.lawful hentry) (hahead.hollow c List.mem_cons_self)
  rw [hrun] at hretains hwithin
  exact ⟨h.mono hretains (hwithin.lawful h.lawful), hahead.next hretains hwithin⟩

/-- Where an entry was copied to a free name, the others wait as before. -/
theorem waiting_copyChild {rows : List (Name × Entry)} (depth : Nat)
    (h : d.Facing source target from_ place) (hwait : d.Waiting from_ place ((n, e) :: rows))
    (hrun : (copyChild depth source target (.ofEntry n e)).runOn d = (.ok (), made)) :
    Within (Under (place ++ [n])) d made ∧ made.Facing source target from_ place ∧
      made.Waiting from_ place rows := by
  have hwithin := copyChild_within_of_free depth h (hwait.entries _ List.mem_cons_self)
    (hwait.free _ List.mem_cons_self)
  have hretains := retains_copyChild depth source target (.ofEntry n e) d
  rw [hrun] at hwithin hretains
  exact ⟨hwithin, h.mono hretains (hwithin.lawful h.lawful), hwait.next h hwithin⟩

section Rows

variable {rows : List (Name × Entry)} (h : d.Facing source target from_ place)
  (hwait : d.Waiting from_ place rows)

include h hwait

theorem forM_rows_within (depth : Nat) : Within (fun q => ∃ row ∈ rows, Under (place ++ [row.1]) q) d
    (((rows.map fun c => Child.ofEntry c.1 c.2).forM (copyChild depth source target)).runOn d).2 := by
  have hnames : ∀ c ∈ rows.map fun c => Child.ofEntry c.1 c.2, ProperName c.name := by
    intro c hc
    obtain ⟨row, hrow, rfl⟩ := List.mem_map.mp hc
    exact DirectoryAt.properName h.lawful (hwait.entries row hrow)
  have hdistinct : ((rows.map fun c => Child.ofEntry c.1 c.2).map Child.name).Nodup := by
    rw [List.map_map]
    exact hwait.nodup
  have hhollow : ∀ c ∈ rows.map fun c => Child.ofEntry c.1 c.2, d.Hollow (place ++ [c.name]) := by
    intro c hc q e he hq
    obtain ⟨row, hrow, rfl⟩ := List.mem_map.mp hc
    rw [get?_of_under (hwait.free row hrow) hq] at he
    cases he
  refine (forM_copyChild_within (copyContents_within depth) h.lawful h.leads_target h.get?_target
    hnames hdistinct hhollow).mono ?_
  intro q hq
  obtain ⟨c, hc, hq⟩ := hq
  obtain ⟨row, hrow, rfl⟩ := List.mem_map.mp hc
  exact ⟨row, hrow, hq⟩

/-- Copied one after another, all entries are as they were: each is copied to a name of its own. -/
theorem forM_copyChild_sameTree (hinside : CopiesAll depth)
    (hrun : ((rows.map fun c => Child.ofEntry c.1 c.2).forM
      (copyChild depth source target)).runOn d = (.ok (), made)) :
    ∀ row ∈ rows, d.SameTree (from_ ++ [row.1]) made (place ++ [row.1]) := by
  induction rows generalizing d with
  | nil => simp
  | cons row rows ih =>
    obtain ⟨n, e⟩ := row
    have hentry := hwait.entries _ List.mem_cons_self
    have hnone := hwait.free _ List.mem_cons_self
    rw [List.map_cons, List.forM_eq_forM, List.forM_cons] at hrun
    obtain ⟨_, between, hfirst, hrun⟩ := bind_ok hrun
    have hsame : d.SameTree (from_ ++ [n]) between (place ++ [n]) :=
      copyChild_sameTree hinside h hentry hnone hfirst
    obtain ⟨hwithin, hfacing, hnext⟩ := waiting_copyChild depth h hwait hfirst
    have hlater := forM_rows_within hfacing hnext depth
    rw [List.forM_eq_forM, hrun] at hlater
    refine List.forall_mem_cons.mpr ⟨fun q => ?_, fun row hrow q => ?_⟩
    · rw [hlater.get?_eq, hsame q]
      intro hq
      obtain ⟨row, hrow, hq⟩ := hq
      obtain rfl := eq_of_under (List.prefix_append (place ++ [n]) q) hq
      exact (List.nodup_cons.mp hwait.nodup).1 (List.mem_map.mpr ⟨row, hrow, rfl⟩)
    · rw [ih hfacing hnext hrun row hrow q, List.append_assoc,
        h.get?_eq hwithin fun q hq => (below_of_under hq).1]

end Rows

/-- **What is in a directory is copied into an empty one as it is**, unless the copy fails. -/
theorem copyContents_sameTree (depth : Nat) : CopiesAll depth := by
  induction depth with
  | zero =>
    intro d made source target from_ place h hempty hrun
    cases hrun
  | succ depth ih =>
    intro d made source target from_ place h hempty hrun
    rw [copyContents_succ] at hrun
    obtain ⟨children, d', hread, hrun⟩ := bind_ok hrun
    obtain ⟨hlist, rfl⟩ := reading_ok hread
    obtain ⟨from', hl, -, rfl, -⟩ := list_cases hlist
    obtain rfl := hl.unique h.leads_source
    have hwait : d'.Waiting from' place (d'.children from') := waiting_children hempty
    have hsame := forM_copyChild_sameTree h hwait ih hrun
    have hwithin := forM_rows_within h hwait depth
    rw [hrun] at hwithin
    intro q
    cases q with
    | nil =>
      rw [List.append_nil, List.append_nil, h.get?_source, hwithin.get?_eq, h.get?_target]
      intro hq
      obtain ⟨row, -, hq⟩ := hq
      exact (below_of_under hq).2 rfl
    | cons n q =>
      rw [List.append_cons place, List.append_cons from']
      cases hentry : d'.get? (from' ++ [n]) with
      | some e => exact hsame (n, e) (mem_children.mpr hentry) q
      | none =>
        rw [get?_of_under hentry (List.prefix_append _ q), hwithin.get?_eq]
        · exact get?_of_under (hempty n) (List.prefix_append _ q)
        · intro hq
          obtain ⟨row, hrow, hq⟩ := hq
          obtain rfl := eq_of_under (List.prefix_append (place ++ [n]) q) hq
          rw [hwait.entries row hrow] at hentry
          cases hentry

end Action

namespace Disk

/-- What comes out of a copy of the entry at `from_` that is faithful. -/
structure Faithful (d : Disk) (from_ : Place) (steps : List Step)
    (out : Except FsError Unit × Disk) : Prop where
  /-- Unless it fails, all that is at `from_` is where the steps aimed, and there they lead. -/
  copied : out.1 = .ok () → ∃ place, d.Aims steps place ∧ out.2.Leads [] steps place ∧
    d.SameTree from_ out.2 place
  /-- Even if it fails, nothing changed elsewhere, but that there are directories on the way. -/
  elsewhere : ∀ q, out.2.get? q ≠ d.get? q → ∃ place, d.Aims steps place ∧
    (place <+: q ∨ d.get? from_ = some .dir ∧ q <+: place ∧ d.get? q = none ∧
      out.2.get? q = some .dir)

theorem Faithful.of_error {d : Disk} {e : FsError} (from_ : Place) (steps : List Step) :
    d.Faithful from_ steps (.error e, d) where
  copied := nofun
  elsewhere _ hq := (hq rfl).elim

end Disk

namespace Action

open Disk

variable {d made : Disk} {source target : Path} {from_ place : Place} {e : Entry}

theorem get?_of_lstat (hsource : d.Leads [] source.route.steps from_) (h : d.lstat source = .ok e)
    (he : ∀ held, e ≠ .link held) : d.get? from_ = some e := by
  obtain ⟨q, hq⟩ := locate_of_lstat h
  have hfollow := locate_follow_of_keep hq he
  obtain rfl := (leads_of_locate hfollow).unique hsource
  exact get?_of_locate hfollow

theorem faithful_of_file {contents : Bytes} (hsource : d.Leads [] source.route.steps from_)
    (hentry : d.get? from_ = some (.file contents)) (hfree : d.present target = false) :
    d.Faithful from_ target.route.steps
      ((changing source (·.copyFile source target)).runOn d) := by
  rw [runOn_changing]
  cases hmade : d.copyFile source target with
  | error e => exact .of_error from_ _
  | ok made =>
    obtain ⟨q, contents', m, n, hq, haims, hl, hw⟩ := aims_of_copyFile hfree hmade
    obtain rfl := (leads_of_locate hq).unique hsource
    rw [get?_of_locate hq] at hentry
    cases hentry
    refine ⟨fun _ => ⟨m ++ [n], haims, hl, hw.sameTree (get?_of_locate hq) (by simp)⟩, fun q hq => ?_⟩
    by_cases hself : q = m ++ [n]
    · exact ⟨m ++ [n], haims, .inl (hself ▸ List.prefix_rfl)⟩
    · exact (hq (hw.get?_of_ne hself)).elim

theorem faithful_of_dir {names : List Name} (hd : d.Lawful)
    (hsource : d.Leads [] source.route.steps from_) (hentry : d.get? from_ = some .dir)
    (hnames : target.route.steps = names.map .name) (hfree : d.present target = false)
    (houtside : ∀ place, d.Aims target.route.steps place → ¬Below from_ place) (depth : Nat) :
    d.Faithful from_ target.route.steps
      ((makeDirectories target >>= fun _ => copyContents depth source target).runOn d) := by
  have hon := approaches_makeDirectories (d := d) hnames
  rcases hmade : (makeDirectories target).runOn d with ⟨r, between⟩
  rw [hmade] at hon
  cases r with
  | error e =>
    rw [runOn_bind_error hmade]
    refine ⟨nofun, fun q hq => ?_⟩
    obtain ⟨place, haims, hnew⟩ := hon.get?_cases hq
    exact ⟨place, haims, .inr ⟨hentry, hnew⟩⟩
  | ok u =>
    obtain ⟨place, haims, hnone, hl, hdir⟩ := aims_of_makeDirectories hnames hfree hmade
    have hnew : ∀ q, between.get? q ≠ d.get? q →
        q <+: place ∧ d.get? q = none ∧ between.get? q = some .dir := by
      intro q hq
      obtain ⟨place', haims', hnew⟩ := hon.get?_cases hq
      rwa [haims.unique haims']
    have hnot : ¬from_ <+: place := by
      intro habove
      apply houtside place haims
      refine ⟨habove, ?_⟩
      rintro rfl
      rw [hnone] at hentry
      cases hentry
    have hnot' : ¬place <+: from_ := by
      intro habove
      rw [get?_of_under hnone habove] at hentry
      cases hentry
    have hfacing : between.Facing source target from_ place :=
      ⟨⟨hon.adds.lawful hd, hsource.mono hon.adds.keeps.retains, hon.adds.keeps from_ .dir hentry, hl,
        hdir⟩, separate_of_not_prefix hnot hnot'⟩
    rw [runOn_bind_ok hmade]
    have hwithin := copyContents_within depth between source target place hfacing.lawful hl hdir
      (hon.adds.hollow_of_none hnone)
    have hretains := maintains_copyContents retains_followsSteps depth source target between
    refine ⟨fun hok => ⟨place, haims, hl.mono hretains, fun q => ?_⟩, fun q hq => ?_⟩
    · rw [copyContents_sameTree depth between _ source target from_ place hfacing
        (hon.get?_below haims hnone) (Prod.ext hok rfl) q]
      by_contra hq
      exact hnot ((List.prefix_append from_ q).trans (hnew _ hq).1)
    · refine ⟨place, haims, ?_⟩
      by_cases hbelow : Below place q
      · exact .inl hbelow.1
      · rw [hwithin.get?_eq q hbelow] at hq ⊢
        exact .inr ⟨hentry, hnew q hq⟩

/-- **A copy of a file or of a directory is faithful.** If it succeeds, the target leads to a copy of
the whole: the same names below, the same contents of files, and links that hold the same paths. Whatever
comes out of it, nothing else changed, but that directories were made above the copy of a directory. The
source must not be a link itself, the target has no dots in it, and it does not aim into the source. -/
theorem copy_faithful (hd : d.Lawful) (hsource : d.Leads [] source.route.steps from_)
    (hlink : ∀ held, d.lstat source ≠ .ok (.link held))
    (hhere : .here ∉ target.route.steps) (hup : .up ∉ target.route.steps)
    (houtside : ∀ place, d.Aims target.route.steps place → ¬Below from_ place) :
    d.Faithful from_ target.route.steps ((copy source target).runOn d) := by
  obtain ⟨names, hnames⟩ := exists_names hhere hup
  obtain ⟨e, hrun⟩ | ⟨hfree, hrun⟩ := copy_cases d source target
  · rw [hrun]
    exact .of_error from_ _
  rw [hrun]
  unfold copyTree
  rw [runOn_bind, runOn_reading]
  cases hentry : d.lstat source with
  | error e => exact .of_error from_ _
  | ok entry =>
    cases entry with
    | dir =>
      exact faithful_of_dir hd hsource (get?_of_lstat hsource hentry (by simp)) hnames hfree houtside _
    | file contents =>
      exact faithful_of_file hsource (get?_of_lstat hsource hentry (by simp)) hfree
    | link held => exact (hlink held hentry).elim

end Action

/-- A directory that holds a file, a link to it, and a directory with another file. -/
def Disk.nested : Disk where
  top :=
    .dir (Utf8.encode "s".toList)
      (.file (Utf8.encode "f".toList) (Utf8.encode "x".toList) <|
        .link (Utf8.encode "l".toList) (.ofText "f".toList) <|
        .dir (Utf8.encode "n".toList)
          (.file (Utf8.encode "g".toList) (Utf8.encode "y".toList) .empty) .empty)
      .empty

namespace Action

/-- The directory `/s` is copied to `/t/c` as it is, and only `/t` is made as well. -/
theorem copy_faithful_in_nested :
    ∃ made, (copy (.ofText "/s".toList) (.ofText "/t/c".toList)).runOn Disk.nested = (.ok (), made) ∧
      Disk.nested.SameTree [Utf8.encode "s".toList] made
        [Utf8.encode "t".toList, Utf8.encode "c".toList] ∧
      ∀ q, made.get? q ≠ Disk.nested.get? q →
        q = [Utf8.encode "t".toList] ∨ [Utf8.encode "t".toList, Utf8.encode "c".toList] <+: q := by
  have haims : Disk.nested.Aims (Path.ofText "/t/c".toList).route.steps
      [Utf8.encode "t".toList, Utf8.encode "c".toList] :=
    ⟨[], [], Utf8.encode "t".toList, [Utf8.encode "c".toList], by decide +kernel, .stay [], rfl, rfl,
      .inr (by decide +kernel)⟩
  have hsource : Disk.nested.Leads [] (Path.ofText "/s".toList).route.steps
      [Utf8.encode "s".toList] := by
    have hsteps : (Path.ofText "/s".toList).route.steps = [.name (Utf8.encode "s".toList)] := by
      decide +kernel
    rw [hsteps]
    exact .enter (by decide +kernel) (.stay _)
  have hlink : ∀ held, Disk.nested.lstat (.ofText "/s".toList) ≠ .ok (.link held) := by
    intro held hheld
    have hdir : Disk.nested.lstat (.ofText "/s".toList) = .ok .dir := by decide +kernel
    rw [hdir] at hheld
    cases hheld
  have houtside : ∀ place, Disk.nested.Aims (Path.ofText "/t/c".toList).route.steps place →
      ¬Disk.Below [Utf8.encode "s".toList] place := by
    intro place hplace hbelow
    rw [← haims.unique hplace] at hbelow
    exact absurd hbelow.1 (by decide +kernel)
  have hfaithful : Disk.nested.Faithful [Utf8.encode "s".toList]
      (Path.ofText "/t/c".toList).route.steps
      ((copy (.ofText "/s".toList) (.ofText "/t/c".toList)).runOn Disk.nested) :=
    copy_faithful (by decide) hsource hlink (by decide +kernel) (by decide +kernel) houtside
  obtain ⟨made, hrun⟩ : ∃ made,
      (copy (.ofText "/s".toList) (.ofText "/t/c".toList)).runOn Disk.nested = (.ok (), made) :=
    ⟨_, rfl⟩
  rw [hrun] at hfaithful
  refine ⟨made, hrun, ?_, fun q hq => ?_⟩
  · obtain ⟨place, hplace, -, hsame⟩ := hfaithful.copied rfl
    rwa [haims.unique hplace]
  · obtain ⟨place, hplace, hwhere⟩ := hfaithful.elsewhere q hq
    rw [← haims.unique hplace] at hwhere
    obtain hbelow | ⟨-, hway, hnone, -⟩ := hwhere
    · exact .inr hbelow
    obtain rfl | ⟨rest, rfl, hrest⟩ := List.prefix_cons_iff.mp hway
    · cases hnone
    obtain rfl | ⟨rest, rfl, hrest⟩ := List.prefix_cons_iff.mp hrest
    · exact .inl rfl
    · exact .inr (List.prefix_append _ rest)

end Action

end TreeGlob
