import TreeGlob.Proofs.Disk.Making

/-!
What copying leaves of the entries that were there.

* `Action.copyContents_within` says that what is copied into a hollow directory, one with nothing but
  directories below it, stays in that directory.
* `Disk.Overlays` are the copies that are made over what was there: a link to a directory is made first
  and then written through, and making the directories to a path with `..` in it may end at one that
  was there.
* `Action.copy_spares` is the main result.
-/
namespace TreeGlob

/-- The entry can be made anew: what a link holds is a path that the system takes. -/
def Entry.Admits : Entry → Prop
  | .link held => held.admit = .ok held.route
  | .dir | .file _ => True

instance : DecidablePred Entry.Admits
  | .link held => inferInstanceAs <| Decidable <| held.admit = .ok held.route
  | .dir | .file _ => .isTrue trivial

namespace Disk

variable {d d' : Disk} {place : Place}

/-- At the place and below it, there is nothing but directories. -/
def Hollow (d : Disk) (place : Place) : Prop := ∀ q e, d.get? q = some e → Under place q → e = .dir

theorem AddsDirectories.hollow (h : d.AddsDirectories d') (hd : d.Hollow place) :
    d'.Hollow place := by
  intro q e he hq
  rcases h.get?_cases q with hsame | ⟨-, hdir⟩
  · exact hd q e (hsame ▸ he) hq
  · rw [hdir] at he
    cases he
    rfl

theorem AddsDirectories.hollow_of_none (h : d.AddsDirectories d') (hnone : d.get? place = none) :
    d'.Hollow place :=
  h.hollow fun q e he hq => by simp [get?_of_under hnone hq] at he

theorem Hollow.leads_names {p q : Place} {n : Name} {rest : List Name} (h : d.Hollow (p ++ [n]))
    (hl : d.Leads p ((n :: rest).map .name) q) : q = p ++ n :: rest := by
  induction rest generalizing p n with
  | nil =>
    obtain ⟨e, he⟩ := Option.ne_none_iff_exists'.mp (get?_of_leads_name hl)
    obtain rfl := h _ e he List.prefix_rfl
    exact leads_name_dir he hl
  | cons m rest ih =>
    obtain ⟨e, he⟩ := Option.ne_none_iff_exists'.mp (get?_of_leads_name hl)
    obtain rfl := h _ e he List.prefix_rfl
    rw [List.map_cons, leads_dir_iff he] at hl
    have hinner : d.Hollow (p ++ [n] ++ [m]) := fun q e he hq => h q e he (below_of_under hq).1
    rw [ih hinner hl, List.append_assoc, List.singleton_append]

/-! ## Copies to a free name -/

variable {source target : Path} {e : Entry}

theorem copyFile_of_free {s : Spot} {n : Name} {contents : Bytes}
    (hsource : d.lstat source = .ok (.file contents)) (hspot : d.spot .unseen target = .ok s)
    (hn : s.last = some (.name n)) (hslash : s.slash = false) (hfree : d.lookUp s n = .ok none) :
    ∃ made, d.copyFile source target = .ok made ∧ d.Writes made s.dir n (.file contents) := by
  obtain ⟨from_, hfrom⟩ := locate_of_lstat hsource
  have hfollow := locate_follow_of_keep hfrom (by simp)
  have hplace := Spot.place_of_name hn
  have hnone := lookUp_eq_none hfree
  have hcreate := spot_create_of_unseen hspot hn hslash hfree
  have hopen : d.openFile target = .ok (d.put s.place (.file []), s.place) := by
    unfold openFile
    simp [hcreate, bind, Except.bind, hn, hslash, hnone]
  have hcopy : ∃ made, d.copyFile source target = .ok made := by
    unfold copyFile
    simp only [hfollow, hopen, bind, Except.bind]
    split <;> exact ⟨_, rfl⟩
  obtain ⟨made, hmade⟩ := hcopy
  obtain ⟨from', contents', s', n', hfrom', hs', hn', -, -, hw⟩ := writes_of_copyFile hmade
  rw [hfollow] at hfrom'
  cases hfrom'
  rw [hcreate] at hs'
  cases hs'
  rw [hn] at hn'
  cases hn'
  have hne : from_ ≠ s.dir ++ [n] := by
    rintro rfl
    have hentry := get?_of_locate hfrom
    rw [← hplace, hnone] at hentry
    cases hentry
  rw [if_neg hne] at hw
  exact ⟨made, hmade, hw⟩

theorem makeLink_of_free {s : Spot} {n : Name} {held : Path} {route : Route}
    (hheld : held.admit = .ok route) (hspot : d.spot .unseen target = .ok s)
    (hn : s.last = some (.name n)) (hslash : s.slash = false) (hfree : d.lookUp s n = .ok none) :
    ∃ made, d.makeLink held target = .ok made ∧ d.Writes made s.dir n (.link held) := by
  obtain ⟨hplace, hdir, hnone⟩ := free_of_lookUp hspot hn hfree
  refine ⟨d.put s.place (.link held), ?_, hplace ▸ writes_put _ hdir (by simp [hnone])⟩
  unfold makeLink
  simp [requireNoZero_eq_ok hheld, requireNoZero_eq_ok (admit_of_spot hspot), hheld, hspot,
    bind, Except.bind, hn, hslash, hfree]

/-- What is at a path is a file, or a link to one that can be made anew. -/
structure LeadsToFile (d : Disk) (path : Path) (e : Entry) : Prop where
  lstat_eq : d.lstat path = .ok e
  stat_eq : ∃ contents, d.stat path = .ok (.file contents)
  admits : e.Admits

theorem LeadsToFile.keeps (h : d.LeadsToFile source e) (hk : d.Keeps d') : d'.LeadsToFile source e where
  lstat_eq := lstat_keeps hk h.lstat_eq
  stat_eq := h.stat_eq.imp fun _ => stat_keeps hk
  admits := h.admits

end Disk

namespace Action

open Disk

variable {d : Disk} {source target : Path} {place : Place} {e : Entry}

/-- Where a name is hollow, the path of a directory that is made there leads to the name, since there is
no link. -/
theorem leads_of_makeDirectories_child {n : Name} {made : Disk}
    (hl : d.Leads [] target.route.steps place) (hn : ProperName n)
    (hhollow : d.Hollow (place ++ [n]))
    (h : (makeDirectories (target.child n)).runOn d = (.ok (), made)) :
    d.AddsDirectories made ∧ made.Leads [] (target.child n).route.steps (place ++ [n]) ∧
      made.get? (place ++ [n]) = some .dir := by
  have hadds : d.AddsDirectories made := by
    simpa [h] using addsDirectories_makeDirectories d (target.child n)
  obtain ⟨inner, hinner, hdir, -⟩ := leads_of_makeDirectories h
  have hsteps := hinner
  rw [steps_child_name hn] at hsteps
  obtain ⟨m, hfirst, hlast⟩ := hsteps.split
  obtain rfl := hfirst.unique (hl.mono hadds.keeps.retains)
  obtain rfl : inner = m ++ [n] := (hadds.hollow hhollow).leads_names hlast
  exact ⟨hadds, hinner, hdir⟩

/-- What copying into a hollow directory does, for one depth. -/
def CopiesBelow (depth : Nat) : Prop := ∀ (d : Disk) (source target : Path) (place : Place),
  d.Lawful → d.Leads [] target.route.steps place → d.get? place = some .dir → d.Hollow place →
    Within (Below place) d ((copyContents depth source target).runOn d).2

/-- Copying one entry changes nothing but what is under its name in the target. -/
theorem copyChild_within {depth : Nat} (hinside : CopiesBelow depth) (hd : d.Lawful)
    (hl : d.Leads [] target.route.steps place) (hdir : d.get? place = some .dir) {c : Child}
    (hn : ProperName c.name) (hhollow : d.Hollow (place ++ [c.name])) :
    Within (Under (place ++ [c.name])) d ((copyChild depth source target c).runOn d).2 := by
  unfold copyChild
  split
  · obtain ⟨made, hrun, hmade⟩ | ⟨e, hrun⟩ := makeDirectories_child hl hdir hn
    · have hwithin : Within (Under (place ++ [c.name])) d made := by
        rcases hmade with hmade | ⟨rfl, -⟩
        · exact (MakesAt.child hl hn (makeDir_ok hmade)).1.within hn
        · exact .refl _ _
      obtain ⟨hadds, hinner, hinnerdir⟩ := leads_of_makeDirectories_child hl hn hhollow hrun
      rw [runOn_bind_ok hrun]
      exact hwithin.trans ((hinside made _ _ _ (hadds.lawful hd) hinner hinnerdir
        (hadds.hollow hhollow)).mono fun q hq => hq.1)
    · rw [runOn_bind_error hrun]
      exact .refl _ d
  · split
    · unfold copyLink
      rw [runOn_bind, runOn_reading]
      cases hheld : d.readLink (source.child c.name) with
      | error e => exact .refl _ d
      | ok held =>
        simp only [Except.mapError, runOn_changing]
        cases hmade : d.makeLink held (target.child c.name) with
        | error e => exact .refl _ d
        | ok made => exact (MakesAt.child hl hn (makeLink_ok hmade)).1.within hn
    · rw [runOn_changing]
      cases hmade : d.copyFile (source.child c.name) (target.child c.name) with
      | error e => exact .refl _ d
      | ok made =>
        have hlink : ∀ held, d.get? (place ++ [c.name]) ≠ some (.link held) := fun held hg => by
          cases hhollow _ _ hg (List.prefix_refl _)
        obtain ⟨from_, contents, -, hw⟩ := copyFile_child hl hn hlink hmade
        exact hw.within hn

/-- Copying entries one after another changes nothing but what is under their names. The names differ,
so that what is under one is left alone by the others. -/
theorem forM_copyChild_within {depth : Nat} (hinside : CopiesBelow depth) {children : List Child}
    (hd : d.Lawful) (hl : d.Leads [] target.route.steps place) (hdir : d.get? place = some .dir)
    (hnames : ∀ c ∈ children, ProperName c.name) (hnodup : (children.map Child.name).Nodup)
    (hhollow : ∀ c ∈ children, d.Hollow (place ++ [c.name])) :
    Within (fun q => ∃ c ∈ children, Under (place ++ [c.name]) q) d
      ((children.forM (copyChild depth source target)).runOn d).2 := by
  induction children generalizing d with
  | nil => exact .refl _ d
  | cons c children ih =>
    obtain ⟨hc, hnames⟩ := List.forall_mem_cons.mp hnames
    obtain ⟨hcnew, hnodup⟩ := List.nodup_cons.mp hnodup
    obtain ⟨hchollow, hhollow⟩ := List.forall_mem_cons.mp hhollow
    have hstep : Within (Under (place ++ [c.name])) d ((copyChild depth source target c).runOn d).2 :=
      copyChild_within hinside hd hl hdir hc hchollow
    have hretains := retains_copyChild depth source target c d
    have hfirst : ∀ q, Under (place ++ [c.name]) q →
        ∃ c' ∈ c :: children, Under (place ++ [c'.name]) q :=
      fun q hq => ⟨c, List.mem_cons_self, hq⟩
    rw [List.forM_eq_forM, List.forM_cons]
    rcases hrun : (copyChild depth source target c).runOn d with ⟨r, d'⟩
    rw [hrun] at hstep hretains
    cases r with
    | error e =>
      rw [runOn_bind_error hrun]
      exact hstep.mono hfirst
    | ok u =>
      rw [runOn_bind_ok hrun]
      have hrest := ih (hstep.lawful hd) (hl.mono hretains) (hretains.get?_dir hdir) hnames hnodup
        fun c' hc' q e he hq => by
          refine hhollow c' hc' q e ?_ hq
          rw [← hstep.get?_eq q fun hqc => ?_]
          · exact he
          · exact hcnew (eq_of_under hqc hq ▸ List.mem_map_of_mem hc')
      exact (hstep.mono hfirst).trans (hrest.mono fun q ⟨c', hc', hq⟩ =>
        ⟨c', List.mem_cons_of_mem c hc', hq⟩)

theorem properName_of_mem_children (hd : d.Lawful) {c : Child}
    (hc : c ∈ (d.children place).map fun c => Child.ofEntry c.1 c.2) : ProperName c.name := by
  obtain ⟨row, hrow, rfl⟩ := List.mem_map.mp hc
  exact DirectoryAt.properName hd (mem_children.mp hrow)

theorem copyContents_within (depth : Nat) : CopiesBelow depth := by
  induction depth with
  | zero => exact fun d _ _ _ _ _ _ _ => .refl _ d
  | succ depth ih =>
    intro d source target place hd hl hdir hhollow
    rw [copyContents_succ, runOn_bind, runOn_reading]
    cases hlist : d.list source with
    | error e => exact .refl _ d
    | ok children =>
      obtain ⟨from_, -, -, rfl, -⟩ := list_cases hlist
      have hnodup : (((d.children from_).map fun c => Child.ofEntry c.1 c.2).map Child.name).Nodup := by
        rw [List.map_map]
        exact nodup_children d from_
      refine (forM_copyChild_within ih hd hl hdir (fun c hc => properName_of_mem_children hd hc) hnodup
        fun c _ q e he hq => ?_).mono fun q ⟨c, _, hq⟩ => below_of_under hq
      exact hhollow q e he (below_of_under hq).1

/-- A copy is refused before anything changes, or it is a copy of what is there to where nothing is. -/
theorem copy_cases (d : Disk) (source target : Path) :
    (∃ e, (copy source target).runOn d = (.error e, d)) ∨
      (d.present target = false ∧
        (copy source target).runOn d = (copyTree source target).runOn d) := by
  have hfree := runOn_requireFree source target d
  unfold copy
  split at hfree
  · exact .inl ⟨_, runOn_bind_error hfree⟩
  split at hfree
  · exact .inl ⟨_, runOn_bind_error hfree⟩
  split at hfree
  · exact .inl ⟨_, runOn_bind_error hfree⟩
  split at hfree
  · exact .inl ⟨_, runOn_bind_error hfree⟩
  · next hpresent => exact .inr ⟨by simpa using hpresent, runOn_bind_ok hfree⟩

theorem copy_of_leadsToFile {s : Spot} {n : Name} (hs : source.isAbsolute = true)
    (ht : target.isAbsolute = true) (hsource : d.LeadsToFile source e)
    (hspot : d.spot .unseen target = .ok s) (hn : s.last = some (.name n)) (hslash : s.slash = false)
    (hfree : d.lookUp s n = .ok none) :
    ∃ made, (copy source target).runOn d = (.ok (), made) ∧ d.Writes made s.dir n e := by
  have hlstat := hsource.lstat_eq
  obtain ⟨contents, hstat⟩ := hsource.stat_eq
  have habsent : d.present target = false := by
    simp [present, lstat, locate_keep_of_unseen hspot hn hslash, hfree, Except.map, Except.toBool]
  have hpresent : d.present source = true := by simp [present, hlstat, Except.toBool]
  have hrequire : (requireFree source target).runOn d = (.ok (), d) := by
    rw [runOn_requireFree]
    simp [hs, ht, hpresent, habsent]
  have hread : (reading source (·.lstat source)).runOn d = (.ok e, d) := runOn_reading_ok source hlstat
  unfold copy copyTree
  rw [runOn_bind_ok hrequire, runOn_bind_ok hread]
  cases e with
  | dir =>
    rw [stat_of_lstat hlstat (by simp)] at hstat
    cases hstat
  | file old =>
    obtain ⟨made, hmade, hw⟩ := copyFile_of_free hlstat hspot hn hslash hfree
    dsimp only
    rw [runOn_changing, hmade]
    exact ⟨made, rfl, hw⟩
  | link held =>
    obtain ⟨made, hmade, hw⟩ := makeLink_of_free hsource.admits hspot hn hslash hfree
    have hdestination : (reading source (·.stat source)).runOn d = (.ok (.file contents), d) :=
      runOn_reading_ok source hstat
    have hlink : (copyLink source target).runOn d = (.ok (), made) := by
      have hheld : (reading source (·.readLink source)).runOn d = (.ok held, d) :=
        runOn_reading_ok source (by simp [readLink, hlstat, bind, Except.bind])
      unfold copyLink
      rw [runOn_bind_ok hheld, runOn_changing, hmade]
    dsimp only
    rw [runOn_bind_ok hdestination, runOn_bind_ok hlink]
    exact ⟨made, rfl, hw⟩

end Action

namespace Disk

/-- The copy is made over a directory that is there already. -/
inductive Overlays (d : Disk) (source target : Path) : Prop where
  /-- A link to a directory is made again, and what is in the directory is copied through the link. -/
  | link {held : Path} : d.lstat source = .ok (.link held) → d.stat source = .ok .dir →
      Overlays d source target
  /-- Making the directories to the target ends at one that was there. -/
  | dir {made : Disk} {place : Place} : d.lstat source = .ok .dir →
      (Action.makeDirectories target).runOn d = (.ok (), made) →
      made.Leads [] target.route.steps place → d.get? place = some .dir → Overlays d source target

end Disk

namespace Action

open Disk

variable {d : Disk} {source target : Path} {q : Place} {e : Entry}

theorem keeps_copyTree (hd : d.Lawful) (hfree : d.present target = false)
    (h : ¬d.Overlays source target) : d.Keeps ((copyTree source target).runOn d).2 := by
  unfold copyTree
  rw [runOn_bind, runOn_reading]
  cases hsource : d.lstat source with
  | error e => exact .refl d
  | ok entry =>
    simp only [Except.mapError]
    cases entry with
    | dir =>
      have hadds := addsDirectories_makeDirectories d target
      dsimp only
      rcases hrun : (makeDirectories target).runOn d with ⟨r, made⟩
      rw [hrun] at hadds
      cases r with
      | error e =>
        rw [runOn_bind_error hrun]
        exact hadds.keeps
      | ok u =>
        obtain ⟨place, hl, hdir, -⟩ := leads_of_makeDirectories hrun
        have hnone : d.get? place = none := by
          rcases hadds.get?_cases place with hsame | ⟨hnone, -⟩
          · exact (h (.dir hsource hrun hl (hsame ▸ hdir))).elim
          · exact hnone
        rw [runOn_bind_ok hrun]
        have hwithin := copyContents_within maxPathLength made source target place
          (hadds.lawful hd) hl hdir (hadds.hollow_of_none hnone)
        intro q e he
        rw [hwithin.get?_eq q fun hbelow => ?_]
        · exact hadds.keeps q e he
        · simp [get?_of_under hnone hbelow.1] at he
    | link held =>
      dsimp only
      rw [runOn_bind, runOn_reading]
      cases hstat : d.stat source with
      | error e => exact .refl d
      | ok destination =>
        have hother : destination ≠ .dir := fun he => h (.link hsource (he ▸ hstat))
        simp only [Except.mapError]
        have hlinks : (copyLink source target).Maintains Keeps :=
          maintains_copyLink Keeps.refl (fun _ _ _ => Keeps.trans)
            (fun _ _ _ _ => keeps_of_makeLink) source target
        rw [if_neg hother]
        exact maintains_bind (R := Keeps) (fun _ _ _ => Keeps.trans) hlinks
          (fun _ => maintains_pure Keeps.refl ()) d
    | file contents =>
      dsimp only
      rw [runOn_changing]
      cases hmade : d.copyFile source target with
      | error e => exact .refl d
      | ok made =>
        obtain ⟨_, _, s, n, -, hs, hn, hslash, hwhere, hw⟩ := writes_of_copyFile hmade
        rcases hwhere with hnone | ⟨old, hold⟩
        · exact hw.keeps hnone
        · -- A file at the place would be one that the target leads to.
          have harrives : d.Arrives s := by
            obtain ⟨dir, last, slash⟩ := s
            obtain rfl : last = some (.name n) := hn
            obtain rfl : slash = false := hslash
            exact ⟨_, arrive_name hold⟩
          have hpresent := present_of_spot hs harrives (.inr ⟨rfl, hslash⟩)
          rw [hfree] at hpresent
          cases hpresent

theorem keeps_copy (hd : d.Lawful) (h : ¬d.Overlays source target) :
    d.Keeps ((copy source target).runOn d).2 := by
  obtain ⟨e, hrun⟩ | ⟨hfree, hrun⟩ := copy_cases d source target
  · rw [hrun]
    exact .refl d
  · rw [hrun]
    exact keeps_copyTree hd hfree h

/-- Only a link to a directory, or a `..` in the target, makes a copy over what was there. -/
theorem link_or_up_of_overlays (hfree : d.present target = false) (h : d.Overlays source target) :
    (∃ held, d.lstat source = .ok (.link held)) ∨ .up ∈ target.route.steps := by
  cases h with
  | link hlink _ => exact .inl ⟨_, hlink⟩
  | dir _ hrun hl hdir =>
    refine or_iff_not_imp_right.mpr fun hup => ?_
    obtain ⟨place, hl', -, hnew⟩ := leads_of_makeDirectories hrun
    rw [hl.unique hl', hnew hup hfree] at hdir
    cases hdir

theorem copy_retains (hd : d.Lawful) (source target : Path) (hq : d.get? q = some e) :
    ∃ e', ((copy source target).runOn d).2.get? q = some e' ∧ e.Alike e' ∧
      (e' ≠ e → d.Overlays source target ∧
        ((∃ held, d.lstat source = .ok (.link held)) ∨ .up ∈ target.route.steps)) := by
  obtain ⟨_, hrun⟩ | ⟨hfree, -⟩ := copy_cases d source target
  · rw [hrun]
    exact ⟨e, hq, .refl e, fun hne => (hne rfl).elim⟩
  · obtain ⟨e', he', halike⟩ := retains_copy source target d q e hq
    refine ⟨e', he', halike, fun hne => ?_⟩
    have hover : d.Overlays source target := by
      by_contra hover
      rw [keeps_copy hd hover q e hq] at he'
      exact hne (Option.some.inj he').symm
    exact ⟨hover, link_or_up_of_overlays hfree hover⟩

/-- **Copying takes no entry away, whatever comes out of it, and it changes none but a file. It changes
no file either, unless the copy is made over a directory that was there.** That happens to links to
directories, which are followed once they are made again, and to targets with `..` in them. -/
theorem copy_spares (hd : d.Lawful) (source target : Path) :
    d.Retains ((copy source target).runOn d).2 ∧
      (¬d.Overlays source target → d.Keeps ((copy source target).runOn d).2) ∧
      (d.present target = false → d.Overlays source target →
        (∃ held, d.lstat source = .ok (.link held)) ∨ .up ∈ target.route.steps) :=
  ⟨retains_copy source target d, keeps_copy hd, link_or_up_of_overlays⟩

end Action

/-- Two directories with a file of the same name, and a link to one of them. -/
def Disk.linked : Disk where
  top :=
    .dir (Utf8.encode "d".toList) (.file (Utf8.encode "f".toList) (Utf8.encode "old".toList) .empty) <|
    .dir (Utf8.encode "s".toList) (.file (Utf8.encode "f".toList) (Utf8.encode "new".toList) .empty) <|
    .link (Utf8.encode "l".toList) (.ofText "d".toList) .empty

namespace Action

/-- Copying a directory to where nothing is spares all. Copying the link `/l` empties `/d/f`, which is
copied through the new link onto itself, and a copy to `/n/../d` writes `/d/f` over. -/
theorem copy_spares_in_linked :
    Disk.linked.Keeps ((copy (.ofText "/d".toList) (.ofText "/n/c".toList)).runOn Disk.linked).2 ∧
      (∃ emptied, (copy (.ofText "/l".toList) (.ofText "/c".toList)).runOn Disk.linked =
        (.ok (), emptied) ∧
        emptied.get? [Utf8.encode "d".toList, Utf8.encode "f".toList] = some (.file [])) ∧
      ∃ written, (copy (.ofText "/s".toList) (.ofText "/n/../d".toList)).runOn Disk.linked =
        (.ok (), written) ∧
        written.get? [Utf8.encode "d".toList, Utf8.encode "f".toList] =
          some (.file (Utf8.encode "new".toList)) := by
  have hd : Disk.linked.Lawful := by decide
  obtain ⟨-, hkeeps, hover⟩ := copy_spares hd (.ofText "/d".toList) (.ofText "/n/c".toList)
  refine ⟨hkeeps fun h => ?_, ⟨_, rfl, by decide +kernel⟩, ⟨_, rfl, by decide +kernel⟩⟩
  have hsource : Disk.linked.lstat (.ofText "/d".toList) = .ok .dir := by decide +kernel
  rcases hover (by decide +kernel) h with ⟨held, hlink⟩ | hup
  · rw [hsource] at hlink
    cases hlink
  · revert hup
    decide +kernel

end Action

end TreeGlob
