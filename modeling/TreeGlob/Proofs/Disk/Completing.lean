import TreeGlob.Proofs.Disk.Fidelity
import TreeGlob.Proofs.Disk.Gaps

/-!
When a directory is copied without a failure.

* `Disk.Copyable` are the directories whose copy no limit stands in the way of.
  `Action.copyContents_completes` says that what is in one is copied into an empty one, and
  `Action.copyContents_copyable` that nothing else is.
* `Disk.Prepared` is a disk on which the directories down to the target were made.
* `Action.copy_beside` is the main result.
* `Action.copyContents_neverEnds` says that a copy of a directory into one below it does not succeed.
-/
namespace TreeGlob

/-- The path of what is reached from `p` through entries with the given names. -/
def Path.along (p : Path) (names : List Name) : Path := names.foldl child p

namespace Disk

variable {d d' : Disk} {source target path : Path} {from_ place : Place} {n : Name} {e : Entry}

/-! ## What no limit stands in the way of -/

/-- The copy of one entry is not refused for the length of a path, nor because a link cannot be made
anew. -/
def Fitting (source target : Path) (e : Entry) : Prop :=
  source.bytes.length < maxPathLength ∧ target.bytes.length < maxPathLength ∧ e.Admits

instance : Decidable (Fitting source target e) := inferInstanceAs (Decidable (_ ∧ _ ∧ _))

/-- No limit stands in the way of a copy of all that is at `from_`, from `source` to `target`. -/
def Copyable (d : Disk) (source target : Path) (from_ : Place) : Prop :=
  ∀ q e, d.get? (from_ ++ q) = some e → Fitting (source.along q) (target.along q) e

theorem Copyable.child (h : d.Copyable source target from_) (n : Name) :
    d.Copyable (source.child n) (target.child n) (from_ ++ [n]) := fun q e hq =>
  h (n :: q) e (by rwa [List.append_cons])

theorem Copyable.congr (h : d.Copyable source target from_)
    (hsame : ∀ q, d'.get? (from_ ++ q) = d.get? (from_ ++ q)) : d'.Copyable source target from_ :=
  fun q e hq => h q e (by rwa [← hsame])

theorem copyable_iff : d.Copyable source target from_ ↔ ∀ row ∈ ([], .dir) :: d.entries,
    from_ <+: row.1 →
      Fitting (source.along (row.1.drop from_.length)) (target.along (row.1.drop from_.length)) row.2 := by
  constructor
  · intro h row hrow hbelow
    obtain ⟨q, hq⟩ := hbelow
    have hentry : d.get? (from_ ++ q) = some row.2 := by
      obtain rfl | hrow := List.mem_cons.mp hrow
      · rw [hq, get?_root]
      · rw [hq, (mem_entries.mp hrow).2]
    rw [← hq, List.drop_left]
    exact h q row.2 hentry
  · intro h q e hq
    have hrow : (from_ ++ q, e) ∈ ([], .dir) :: d.entries := by
      by_cases hnil : from_ ++ q = []
      · rw [hnil, get?_root, Option.some_inj] at hq
        simp [hnil, hq]
      · exact List.mem_cons_of_mem _ (mem_entries.mpr ⟨hnil, hq⟩)
    simpa using h _ hrow (List.prefix_append from_ q)

instance : Decidable (d.Copyable source target from_) := decidable_of_iff' _ copyable_iff

theorem copyable_of_ne_dir (hentry : d.get? from_ = some e) (he : e ≠ .dir)
    (hfit : Fitting source target e) : d.Copyable source target from_ := by
  intro q e' hq
  by_cases hnil : q = []
  · rw [hnil, List.append_nil, hentry] at hq
    cases hq
    rwa [hnil]
  · have habove := get?_above (by rw [hq]; simp) hnil
    exact absurd (Option.some.inj (hentry.symm.trans habove)) he

theorem copyable_of_children (hdir : d.get? from_ = some .dir)
    (hs : source.bytes.length < maxPathLength) (ht : target.bytes.length < maxPathLength)
    (h : ∀ n e, d.get? (from_ ++ [n]) = some e →
      d.Copyable (source.child n) (target.child n) (from_ ++ [n])) :
    d.Copyable source target from_ := by
  intro q e hq
  cases q with
  | nil =>
    rw [List.append_nil, hdir] at hq
    cases hq
    exact ⟨hs, ht, trivial⟩
  | cons n q =>
    rw [List.append_cons] at hq
    cases hentry : d.get? (from_ ++ [n]) with
    | none =>
      rw [get?_of_under hentry (List.prefix_append _ q)] at hq
      cases hq
    | some e' => exact h n e' hentry q e hq

theorem length_lt_of_spot {mode : LastName} {s : Spot} (h : d.spot mode path = .ok s) :
    path.bytes.length < maxPathLength :=
  (admit_eq_ok_iff.mp (admit_of_spot h)).2.2

theorem length_lt_of_locate {mode : LastName} {found : Place × Entry}
    (h : d.locate mode path = .ok found) : path.bytes.length < maxPathLength := by
  obtain ⟨s, hs, -⟩ := bind_eq_ok_iff.mp h
  exact length_lt_of_spot hs

theorem Ensures.length_lt {made : Disk} (h : d.Ensures made path) :
    path.bytes.length < maxPathLength := by
  obtain hmade | ⟨-, hthere⟩ := h
  · obtain ⟨s, hs, -⟩ := bind_eq_ok_iff.mp hmade
    exact length_lt_of_spot hs
  · obtain ⟨q, hq⟩ := locate_of_isDirectory hthere
    exact length_lt_of_locate hq

theorem fitting_of_makeLink {held : Path} (hread : d.readLink source = .ok held)
    (hmade : d.makeLink held target = .ok d') : Fitting source target (.link held) := by
  obtain ⟨e, hl, -⟩ := bind_eq_ok_iff.mp hread
  obtain ⟨q, hq⟩ := locate_of_lstat hl
  obtain ⟨-, -, hmade⟩ := bind_eq_ok_iff.mp hmade
  obtain ⟨-, -, hmade⟩ := bind_eq_ok_iff.mp hmade
  obtain ⟨route, hheld, hmade⟩ := bind_eq_ok_iff.mp hmade
  obtain ⟨s, hs, -⟩ := bind_eq_ok_iff.mp hmade
  obtain ⟨rfl, -, -⟩ := route_of_admit hheld
  exact ⟨length_lt_of_locate hq, length_lt_of_spot hs, hheld⟩

theorem fitting_of_copyFile {contents : Bytes} (h : d.copyFile source target = .ok d') :
    Fitting source target (.file contents) := by
  obtain ⟨⟨q, e⟩, hq, h⟩ := bind_eq_ok_iff.mp h
  cases e with
  | dir => cases h
  | link held => cases h
  | file held =>
    obtain ⟨⟨opened, to_⟩, hopened, -⟩ := bind_eq_ok_iff.mp h
    obtain ⟨s, n, hs, -⟩ := openFile_cases hopened
    exact ⟨length_lt_of_locate hq, length_lt_of_spot hs, trivial⟩

/-- Two paths lead to directories neither of which is in the other, and what is in the first can be copied
into the second. -/
structure Poised (d : Disk) (source target : Path) (from_ place : Place) : Prop where
  lawful : d.Lawful
  source_at : d.locate .follow source = .ok (from_, .dir)
  target_at : d.locate .follow target = .ok (place, .dir)
  separate : Separate from_ place
  copyable : d.Copyable source target from_

namespace Poised

variable (h : d.Poised source target from_ place)

include h

theorem facing : d.Facing source target from_ place where
  lawful := h.lawful
  leads_source := leads_of_locate h.source_at
  get?_source := get?_of_locate h.source_at
  leads_target := leads_of_locate h.target_at
  get?_target := get?_of_locate h.target_at
  separate := h.separate

theorem keeps (hk : d.Keeps d') {area : Place → Prop} (hw : Within area d d')
    (harea : ∀ q, area q → Under place q) : d'.Poised source target from_ place where
  lawful := hw.lawful h.lawful
  source_at := locate_keeps hk h.source_at
  target_at := locate_keeps hk h.target_at
  separate := h.separate
  copyable := h.copyable.congr (h.facing.get?_eq hw harea)

end Poised

theorem comesTo_child (hat : d.locate .follow path = .ok (place, .dir)) (hn : ProperName n)
    (hshort : (path.child n).bytes.length < maxPathLength) : d.ComesTo (path.child n) place n := by
  obtain ⟨s, hs, -⟩ := bind_eq_ok_iff.mp hat
  obtain ⟨hzero, -, -⟩ := admit_eq_ok_iff.mp (admit_of_spot hs)
  have htaken : Path.admit (path.child n) = .ok (path.child n).route := admit_eq_ok_iff.mpr
    ⟨zero_not_mem_child hzero hn.separator_not_mem hn.zero_not_mem,
      Path.bytes_child_ne_nil path hn.ne_nil hn.separator_not_mem, hshort⟩
  exact fun d' hkeeps =>
    spot_beyond (locate_keeps hkeeps hat) htaken (steps_child_name hn) (by simp)

theorem list_of_locate (h : d.locate .follow path = .ok (place, .dir)) :
    d.list path = .ok ((d.children place).map fun c => Child.ofEntry c.1 c.2) := by
  unfold list
  rw [h]
  rfl

theorem lstat_of_comesTo (h : d.ComesTo path place n) (hn : n.length ≤ maxNameLength)
    (hslash : path.route.slash = false) (he : d.get? (place ++ [n]) = some e) :
    d.lstat path = .ok e := by
  obtain ⟨left, hw⟩ := h d (.refl d)
  unfold lstat locate
  rw [hw .keep (by decide), hslash, walk_last hn rfl rfl (.inl rfl)]
  simp [bind, Except.bind, Except.map, arrive_name he]

end Disk

namespace Action

open Disk

variable {d made : Disk} {source target : Path} {from_ place : Place} {n : Name} {e : Entry}
  {depth : Nat}

theorem makeDirectories_of_makeDir {path : Path} (h : d.makeDir path = .ok made) :
    (makeDirectories path).runOn d = (.ok (), made) := by
  obtain ⟨above, habove⟩ := Path.ancestors_eq_cons path
  unfold makeDirectories
  rw [runOn_get_bind, habove, climb, h]
  rfl

/-- What is in a directory is copied into an empty one, for one depth, if no path gets too long below. -/
def Completes (depth : Nat) : Prop := ∀ (d : Disk) (source target : Path) (from_ place : Place),
  d.Poised source target from_ place → (∀ n, d.get? (place ++ [n]) = none) →
    maxPathLength ≤ source.bytes.length + depth →
    ∃ made, (copyContents depth source target).runOn d = (.ok (), made)

theorem copyChild_completes (hinside : Completes depth) (h : d.Poised source target from_ place)
    (hentry : d.get? (from_ ++ [n]) = some e) (hfree : d.get? (place ++ [n]) = none)
    (hdepth : maxPathLength ≤ source.bytes.length + (depth + 1)) :
    ∃ made, (copyChild depth source target (.ofEntry n e)).runOn d = (.ok (), made) := by
  have hn : ProperName n := DirectoryAt.properName h.lawful hentry
  have hslash := fun p : Path => Path.slash_child p hn.ne_nil hn.separator_not_mem
  have hsource : d.ComesTo (source.child n) from_ n :=
    comesTo_child h.source_at hn (h.copyable [n] e hentry).1
  have htarget : d.ComesTo (target.child n) place n :=
    comesTo_child h.target_at hn (h.copyable [n] e hentry).2.1
  have hlstat := lstat_of_comesTo hsource hn.length_le (hslash source) hentry
  obtain ⟨hspot, hlook⟩ := spot_of_comesTo htarget hn.length_le hfree
  cases e with
  | dir =>
    obtain ⟨between, hmade, hat, hw⟩ := makeDir_of_comesTo htarget hn.length_le h.facing.get?_target hfree
    have hmade := makeDirectories_of_makeDir hmade
    obtain ⟨hfacing, hempty, hsame⟩ := facing_child h.facing hentry hfree hmade
    obtain ⟨left, hwalk⟩ := hsource between (hw.keeps hfree)
    have hposed : between.Poised (source.child n) (target.child n) (from_ ++ [n]) (place ++ [n]) :=
      { lawful := hfacing.lawful
        source_at := locate_of_name (hwalk .follow (by decide)) hn.length_le hfacing.get?_source
        target_at := hat
        separate := hfacing.separate
        copyable := (h.copyable.congr hsame).child n }
    have hlonger := Path.length_lt_child source hn.ne_nil hn.separator_not_mem
    obtain ⟨made, hrun⟩ := hinside between _ _ _ _ hposed hempty (by omega)
    exact ⟨made, by rw [copyChild_dir, runOn_bind_ok hmade, hrun]⟩
  | link held =>
    have hheld : Entry.Admits (.link held) := (h.copyable [n] _ hentry).2.2
    obtain ⟨made, hmade, -⟩ := makeLink_of_free hheld hspot rfl (hslash target) hlook
    have hread : d.readLink (source.child n) = .ok held := by
      simp [readLink, hlstat, bind, Except.bind]
    refine ⟨made, ?_⟩
    rw [copyChild_link, copyLink, runOn_bind_ok (runOn_reading_ok _ hread), runOn_changing, hmade]
  | file contents =>
    obtain ⟨made, hmade, -⟩ := copyFile_of_free hlstat hspot rfl (hslash target) hlook
    refine ⟨made, ?_⟩
    rw [copyChild_file, runOn_changing, hmade]

theorem forM_copyChild_completes (hinside : Completes depth) {rows : List (Name × Entry)}
    (h : d.Poised source target from_ place) (hwait : d.Waiting from_ place rows)
    (hdepth : maxPathLength ≤ source.bytes.length + (depth + 1)) :
    ∃ made, ((rows.map fun c => Child.ofEntry c.1 c.2).forM (copyChild depth source target)).runOn d =
      (.ok (), made) := by
  induction rows generalizing d with
  | nil => exact ⟨d, rfl⟩
  | cons row rows ih =>
    obtain ⟨n, e⟩ := row
    have hentry := hwait.entries _ List.mem_cons_self
    have hfree := hwait.free _ List.mem_cons_self
    obtain ⟨between, hfirst⟩ := copyChild_completes hinside h hentry hfree hdepth
    obtain ⟨hwithin, -, hnext⟩ := waiting_copyChild depth h.facing hwait hfirst
    have hkeeps : d.Keeps between := fun q e' he' => by
      rw [hwithin.get?_eq, he']
      intro hq
      simp [get?_of_under hfree hq] at he'
    have hposed := h.keeps hkeeps hwithin fun q hq => (below_of_under hq).1
    obtain ⟨made, hrest⟩ := ih hposed hnext
    refine ⟨made, ?_⟩
    rw [List.map_cons, List.forM_eq_forM, List.forM_cons, runOn_bind_ok hfirst]
    exact hrest

/-- What is in a directory is copied into an empty one if no path gets too long: each level below has a
longer path, so that the depth is not used up either. -/
theorem copyContents_completes (depth : Nat) : Completes depth := by
  induction depth with
  | zero =>
    intro d source target from_ place h hempty hdepth
    have hshort := (h.copyable [] .dir (by simp [h.facing.get?_source])).1
    exact absurd hdepth (Nat.not_le.mpr hshort)
  | succ depth ih =>
    intro d source target from_ place h hempty hdepth
    obtain ⟨made, hrun⟩ := forM_copyChild_completes ih h (waiting_children hempty) hdepth
    refine ⟨made, ?_⟩
    rw [copyContents_succ, runOn_bind_ok (runOn_reading_ok source (list_of_locate h.source_at)), hrun]

/-- What was copied into an empty directory had no limit in its way, for one depth. -/
def NeedsCopyable (depth : Nat) : Prop :=
  ∀ (d made : Disk) (source target : Path) (from_ place : Place),
    d.Facing source target from_ place → (∀ n, d.get? (place ++ [n]) = none) →
    target.bytes.length < maxPathLength →
    (copyContents depth source target).runOn d = (.ok (), made) → d.Copyable source target from_

theorem copyChild_copyable (hinside : NeedsCopyable depth) (h : d.Facing source target from_ place)
    (hentry : d.get? (from_ ++ [n]) = some e) (hfree : d.get? (place ++ [n]) = none)
    (hrun : (copyChild depth source target (.ofEntry n e)).runOn d = (.ok (), made)) :
    d.Copyable (source.child n) (target.child n) (from_ ++ [n]) := by
  cases e with
  | dir =>
    rw [copyChild_dir] at hrun
    obtain ⟨_, between, hmade, hrun⟩ := bind_ok hrun
    obtain ⟨hfacing, hempty, hsame⟩ := facing_child h hentry hfree hmade
    have hn : ProperName n := DirectoryAt.properName h.lawful hentry
    have hshort : (target.child n).bytes.length < maxPathLength := by
      obtain ⟨made', hmade', hensures⟩ | ⟨e, herror⟩ :=
        makeDirectories_child h.leads_target h.get?_target hn
      · exact hensures.length_lt
      · cases herror.symm.trans hmade
    refine (hinside between made _ _ _ _ hfacing hempty hshort hrun).congr fun q => ?_
    rw [List.append_assoc, hsame]
  | link held =>
    rw [copyChild_link] at hrun
    obtain ⟨held', hread, hmade⟩ := copyLink_ok hrun
    obtain rfl := readLink_child h hentry hread
    exact copyable_of_ne_dir hentry (by simp) (fitting_of_makeLink hread hmade)
  | file contents =>
    rw [copyChild_file] at hrun
    exact copyable_of_ne_dir hentry (by simp) (fitting_of_copyFile (changing_ok hrun))

theorem forM_copyChild_copyable (hinside : NeedsCopyable depth) {rows : List (Name × Entry)}
    (h : d.Facing source target from_ place) (hwait : d.Waiting from_ place rows)
    (hrun : ((rows.map fun c => Child.ofEntry c.1 c.2).forM
      (copyChild depth source target)).runOn d = (.ok (), made)) :
    ∀ row ∈ rows, d.Copyable (source.child row.1) (target.child row.1) (from_ ++ [row.1]) := by
  induction rows generalizing d with
  | nil => simp
  | cons row rows ih =>
    obtain ⟨n, e⟩ := row
    have hentry := hwait.entries _ List.mem_cons_self
    have hfree := hwait.free _ List.mem_cons_self
    rw [List.map_cons, List.forM_eq_forM, List.forM_cons] at hrun
    obtain ⟨_, between, hfirst, hrun⟩ := bind_ok hrun
    obtain ⟨hwithin, hfacing, hnext⟩ := waiting_copyChild depth h hwait hfirst
    have hlater := ih hfacing hnext hrun
    refine List.forall_mem_cons.mpr ⟨copyChild_copyable hinside h hentry hfree hfirst, ?_⟩
    intro row hrow
    refine (hlater row hrow).congr fun q => ?_
    rw [List.append_assoc, h.get?_eq hwithin fun q hq => (below_of_under hq).1]

theorem copyContents_copyable (depth : Nat) : NeedsCopyable depth := by
  induction depth with
  | zero =>
    intro d made source target from_ place h hempty hshort hrun
    cases hrun
  | succ depth ih =>
    intro d made source target from_ place h hempty hshort hrun
    rw [copyContents_succ] at hrun
    obtain ⟨children, d', hread, hrun⟩ := bind_ok hrun
    obtain ⟨hlist, rfl⟩ := reading_ok hread
    obtain ⟨found, hat, -⟩ := bind_eq_ok_iff.mp hlist
    obtain ⟨from', hl, -, rfl, -⟩ := list_cases hlist
    obtain rfl := hl.unique h.leads_source
    have hchildren := forM_copyChild_copyable ih h (waiting_children hempty) hrun
    refine copyable_of_children h.get?_source (length_lt_of_locate hat) hshort fun n e hentry => ?_
    exact hchildren (n, e) (mem_children.mpr hentry)

end Action

namespace Disk

variable {d between : Disk} {source target : Path} {from_ place : Place}

/-- The directories down to the place were made, and the target leads there. -/
structure Prepared (d between : Disk) (target : Path) (place : Place) : Prop where
  adds : d.AddsDirectories between
  target_at : between.locate .follow target = .ok (place, .dir)
  get?_place : d.get? place = none
  get?_cases : ∀ q, between.get? q = d.get? q ∨
    d.get? q = none ∧ q <+: place ∧ between.get? q = some .dir

namespace Prepared

variable (h : d.Prepared between target place) (hd : d.Lawful)
  (hat : d.locate .keep source = .ok (from_, .dir))

include h

theorem hollow : between.Hollow place := h.adds.hollow_of_none h.get?_place

theorem get?_child (n : Name) : between.get? (place ++ [n]) = none := by
  obtain hsame | ⟨-, habove, -⟩ := h.get?_cases (place ++ [n])
  · rw [hsame, get?_of_under h.get?_place (List.prefix_append _ _)]
  · exact absurd rfl (below_of_under habove).2

theorem get?_source (houtside : ¬from_ <+: place) (q : Place) :
    between.get? (from_ ++ q) = d.get? (from_ ++ q) :=
  (h.get?_cases _).resolve_right fun hnew =>
    houtside ((List.prefix_append from_ q).trans hnew.2.1)

include hat

theorem source_at : between.locate .follow source = .ok (from_, .dir) :=
  locate_keeps h.adds.keeps (locate_follow_of_keep hat (by simp))

include hd

theorem filling : between.Filling source target from_ place where
  lawful := h.adds.lawful hd
  leads_source := leads_of_locate (h.source_at hat)
  get?_source := get?_of_locate (h.source_at hat)
  leads_target := leads_of_locate h.target_at
  get?_target := get?_of_locate h.target_at

theorem facing (houtside : ¬from_ <+: place) : between.Facing source target from_ place where
  toFilling := h.filling hd hat
  separate := by
    refine separate_of_not_prefix houtside fun hbelow => ?_
    have hentry := get?_of_locate hat
    rw [get?_of_under h.get?_place hbelow] at hentry
    cases hentry

theorem poised (houtside : ¬from_ <+: place) (hcopyable : d.Copyable source target from_) :
    between.Poised source target from_ place where
  lawful := h.adds.lawful hd
  source_at := h.source_at hat
  target_at := h.target_at
  separate := (h.facing hd hat houtside).separate
  copyable := hcopyable.congr (h.get?_source houtside)

end Prepared

end Disk

namespace Action

open Disk

variable {d made : Disk} {source target : Path} {from_ place : Place} {n : Name} {depth : Nat}

/-- Where nothing is at the target, the directories down to it are made, and then what is in the source is
copied. -/
theorem runOn_copy_of_vacant (hs : source.isAbsolute = true) (ht : target.isAbsolute = true)
    (hat : d.locate .keep source = .ok (from_, .dir)) (hvacant : d.Vacant target place) :
    ∃ between, d.Prepared between target place ∧
      (copy source target).runOn d = (copyContents maxPathLength source target).runOn between := by
  obtain ⟨above, s, names, hgap, rfl⟩ := hvacant
  obtain ⟨between, hmade, htarget, hget⟩ := makeDirectories_of_gap hgap
  have hnone : ∀ q, s.place <+: q → d.get? q = none := fun q hq => get?_of_under hgap.get?_eq hq
  refine ⟨between, ⟨?_, htarget, hnone _ (List.prefix_append _ _), fun q => ?_⟩, ?_⟩
  · simpa [hmade] using addsDirectories_makeDirectories d target
  · rw [hget]
    split
    · next hon => exact .inr ⟨hnone q hon.1, hon.2, rfl⟩
    · exact .inl rfl
  · have hlstat : d.lstat source = .ok .dir := by simp [lstat, hat, Except.map]
    have hpresent : d.present source = true := by simp [present, hlstat, Except.toBool]
    have habsent : d.present target = false := by simp [present, hgap.lstat_eq, Except.toBool]
    have hfree : (requireFree source target).runOn d = (.ok (), d) := by
      rw [runOn_requireFree]
      simp [hs, ht, hpresent, habsent]
    unfold copy copyTree
    rw [runOn_bind_ok hfree, runOn_bind_ok (runOn_reading_ok source hlstat)]
    dsimp only
    rw [runOn_bind_ok hmade]

/-- **A directory is copied, as a whole, to where nothing is, just if no limit stands in the way**: the
directories above the copy are made if they are missing, and nothing else changes. The target must not be
in the directory. -/
theorem copy_beside (hd : d.Lawful) (hs : source.isAbsolute = true) (ht : target.isAbsolute = true)
    (hat : d.locate .keep source = .ok (from_, .dir)) (hvacant : d.Vacant target place)
    (houtside : ¬from_ <+: place) :
    ((∃ made, (copy source target).runOn d = (.ok (), made)) ↔ d.Copyable source target from_) ∧
    ∀ made, (copy source target).runOn d = (.ok (), made) → d.SameTree from_ made place ∧
      ∀ q, ¬place <+: q → made.get? q = if q <+: place then some .dir else d.get? q := by
  obtain ⟨between, h, hrun⟩ := runOn_copy_of_vacant hs ht hat hvacant
  have hfacing := h.facing hd hat houtside
  rw [hrun]
  refine ⟨⟨fun hmade => ?_, fun hcopyable => ?_⟩, fun made hcopied => ⟨fun q => ?_, fun q hq => ?_⟩⟩
  · obtain ⟨made, hcopied⟩ := hmade
    exact (copyContents_copyable maxPathLength between made source target from_ place hfacing
      h.get?_child (length_lt_of_locate h.target_at) hcopied).congr fun q =>
        (h.get?_source houtside q).symm
  · exact copyContents_completes maxPathLength between source target from_ place
      (h.poised hd hat houtside hcopyable) h.get?_child (Nat.le_add_left _ _)
  · rw [copyContents_sameTree maxPathLength between made source target from_ place hfacing
      h.get?_child hcopied q, h.get?_source houtside]
  · have hwithin := copyContents_within maxPathLength between source target place hfacing.lawful
      hfacing.leads_target hfacing.get?_target h.hollow
    rw [hcopied] at hwithin
    rw [hwithin.get?_eq q fun hbelow => hq hbelow.1]
    split
    · next habove => exact get?_dir_of_under hfacing.get?_target habove
    · next hbeside => exact (h.get?_cases q).resolve_right fun hnew => hbeside hnew.2.1

/-! ## A copy into itself -/

/-- Copying what is in a directory into one below it does not succeed, for one depth. -/
def NeverEnds (depth : Nat) : Prop := ∀ (d made : Disk) (source target : Path) (from_ place : Place),
  d.Filling source target from_ place → d.Hollow place → Below from_ place →
    (copyContents depth source target).runOn d ≠ (.ok (), made)

/-- The entry on the way to the target is copied into a directory below itself again. -/
theorem copyChild_neverEnds (hinside : NeverEnds depth) (h : d.Filling source target from_ place)
    (hentry : d.get? (from_ ++ [n]) = some .dir) (hhollow : d.Hollow (place ++ [n]))
    (hway : from_ ++ [n] <+: place) :
    (copyChild depth source target (.ofEntry n .dir)).runOn d ≠ (.ok (), made) := by
  intro hrun
  rw [copyChild_dir] at hrun
  obtain ⟨_, between, hmade, hrun⟩ := bind_ok hrun
  obtain ⟨hfilling, hinner⟩ := filling_child h hentry hhollow hmade
  have hbelow : Below (from_ ++ [n]) (place ++ [n]) := by
    refine ⟨hway.trans (List.prefix_append place [n]), fun heq => ?_⟩
    exact (below_of_under (heq ▸ hway)).2 rfl
  exact hinside between made _ _ _ _ hfilling hinner hbelow hrun

/-- One of the entries is on the way to the target, so that not all of them can be copied. -/
theorem forM_copyChild_neverEnds (hinside : NeverEnds depth) {children : List Child}
    (h : d.Filling source target from_ place) (hahead : d.Ahead from_ place children)
    (hway : ∃ c ∈ children, from_ ++ [c.name] <+: place) :
    (children.forM (copyChild depth source target)).runOn d ≠ (.ok (), made) := by
  induction children generalizing d with
  | nil => simp at hway
  | cons c children ih =>
    intro hrun
    rw [List.forM_eq_forM, List.forM_cons] at hrun
    obtain ⟨_, between, hfirst, hrun⟩ := bind_ok hrun
    obtain ⟨hfilling, hnext⟩ := ahead_copyChild depth h hahead hfirst
    obtain ⟨c', hmem, hpre⟩ := hway
    obtain rfl | hmem := List.mem_cons.mp hmem
    · obtain ⟨⟨e, hentry, hc⟩, -⟩ := List.forall_mem_cons.mp hahead.entries
      have hdir := get?_dir_of_under h.get?_target hpre
      obtain rfl : e = .dir := Option.some.inj (hentry.symm.trans hdir)
      rw [hc] at hfirst
      exact copyChild_neverEnds hinside h hentry (hahead.hollow c' List.mem_cons_self) hpre hfirst
    · exact ih hfilling hnext ⟨c', hmem, hpre⟩ hrun

/-- **A directory is never copied into one below it**: with each level there is one more to copy. -/
theorem copyContents_neverEnds (depth : Nat) : NeverEnds depth := by
  induction depth with
  | zero =>
    intro d made source target from_ place h hhollow hbelow hrun
    cases hrun
  | succ depth ih =>
    intro d made source target from_ place h hhollow hbelow hrun
    rw [copyContents_succ] at hrun
    obtain ⟨children, d', hread, hrun⟩ := bind_ok hrun
    obtain ⟨hlist, rfl⟩ := reading_ok hread
    obtain ⟨from', hl, -, rfl, -⟩ := list_cases hlist
    obtain rfl := hl.unique h.leads_source
    obtain ⟨⟨way, rfl⟩, hne⟩ := hbelow
    cases way with
    | nil => simp at hne
    | cons n way =>
      have hpre : from' ++ [n] <+: from' ++ n :: way := ⟨way, List.append_cons .. ▸ rfl⟩
      have hdir := get?_dir_of_under h.get?_target hpre
      refine forM_copyChild_neverEnds ih h (ahead_children hhollow) ?_ hrun
      exact ⟨.ofEntry n .dir, List.mem_map.mpr ⟨(n, .dir), mem_children.mpr hdir, rfl⟩, hpre⟩

/-- Copied to where nothing is in it, a directory is left with a copy that failed halfway. -/
theorem copy_into_itself (hd : d.Lawful) (hs : source.isAbsolute = true)
    (ht : target.isAbsolute = true) (hat : d.locate .keep source = .ok (from_, .dir))
    (hvacant : d.Vacant target place) (hinside : from_ <+: place) :
    ∃ err left, (copy source target).runOn d = (.error err, left) ∧ left.get? place = some .dir := by
  obtain ⟨between, h, hrun⟩ := runOn_copy_of_vacant hs ht hat hvacant
  have hfilling := h.filling hd hat
  have hbelow : Below from_ place := by
    refine ⟨hinside, fun heq => ?_⟩
    have hentry := get?_of_locate hat
    rw [← heq, h.get?_place] at hentry
    cases hentry
  have hretains := maintains_copyContents retains_followsSteps maxPathLength source target between
  rw [hrun]
  rcases hcopied : (copyContents maxPathLength source target).runOn between with ⟨result, left⟩
  rw [hcopied] at hretains
  cases result with
  | ok u =>
    exact (copyContents_neverEnds maxPathLength between left source target from_ place hfilling
      h.hollow hbelow hcopied).elim
  | error err => exact ⟨err, left, rfl, hretains.get?_dir hfilling.get?_target⟩

end Action

end TreeGlob
