import TreeGlob.Proofs.Disk.Presence

/-!
Making the directories that a path lacks.

* `Disk.walk_goes_on` says that walks go on from a directory that a path leads to, whatever comes next.
* `Disk.Gap` is a path with nothing but names missing at its end, and `Disk.Vacant` a place that some such
  path means.
* `Disk.Fills` is what going up to the gap and down again comes to. `fills_self` and `Fills.cons` are the
  steps, and `fills_ancestors` is the whole way.
* `Action.makeDirectories_of_gap` is the main result: what is missing is made, and nothing else changes.
-/
namespace TreeGlob

namespace Path

/-! ## The ancestors of a path -/

theorem dropTrailing_suffix (bs : Bytes) : dropTrailing bs <:+ bs := by
  induction bs with
  | nil => exact List.suffix_rfl
  | cons b rest ih =>
    rw [dropTrailing]
    split
    · exact ih.trans (List.suffix_cons b rest)
    · split
      · exact ih.trans (List.suffix_cons b rest)
      · exact List.suffix_rfl

theorem bytes_parent {p q : Path} (h : p.parent? = some q) :
    q = root ∨ q.bytes ≠ [] ∧ q.bytes <+: p.bytes := by
  unfold parent? at h
  split at h
  · cases h
  split at h
  · exact .inl (Option.some.inj h).symm
  · next hne =>
    cases h
    refine .inr ⟨by simpa using hne, ?_⟩
    have hsuffix := (dropTrailing_suffix _).trans
      ((List.dropWhile_suffix (· ≠ separator)).trans (dropTrailing_suffix p.bytes.reverse))
    simpa using List.reverse_prefix.mpr hsuffix

theorem admit_parent {p q : Path} (h : p.parent? = some q) (hp : p.admit = .ok p.route) :
    q.admit = .ok q.route := by
  obtain rfl | ⟨hne, hpre⟩ := bytes_parent h
  · decide +kernel
  · obtain ⟨hzero, -, hlen⟩ := Disk.admit_eq_ok_iff.mp hp
    exact Disk.admit_eq_ok_iff.mpr ⟨fun h0 => hzero (hpre.mem h0), hne, hpre.length_le.trans_lt hlen⟩

/-- Where a path goes on with names from one of its ancestors, its parent does so with one name less. -/
theorem steps_of_parent {p q above : Path} {names : List Name} (h : p.parent? = some q)
    (hp : p.route.steps = above.route.steps ++ names.map .name)
    (hq : above.route.steps <+: q.route.steps) :
    ∃ upper m, names = upper ++ [m] ∧ q.route.steps = above.route.steps ++ upper.map .name ∧
      p.route.steps = q.route.steps ++ [.name m] := by
  obtain ⟨j, last, k, hsteps⟩ := steps_parent h
  obtain ⟨way, hway⟩ := hq
  have hnames : names.map .name =
      way ++ (List.replicate j .here ++ last :: List.replicate k .here) := by
    rw [hp, ← hway] at hsteps
    simpa using hsteps
  have hhere : Step.here ∉ names.map Step.name := by simp
  obtain rfl : j = 0 := by
    by_contra hj
    exact hhere (by simp [hnames, hj])
  obtain rfl : k = 0 := by
    by_contra hk
    exact hhere (by simp [hnames, hk])
  obtain ⟨upper, rest, rfl, rfl, hrest⟩ := List.map_eq_append_iff.mp hnames
  obtain ⟨m, rfl, rfl⟩ := List.map_eq_singleton_iff.mp hrest
  exact ⟨upper, m, rfl, hway.symm, by simpa using hsteps⟩

end Path

namespace Action

theorem ensureDirectory_of_makeDir {d made : Disk} {dir : Path} (p : Path)
    (h : d.makeDir dir = .ok made) : (ensureDirectory p dir).runOn d = (.ok (), made) := by
  unfold ensureDirectory
  rw [runOn_get_bind, h]
  rfl

end Action

namespace Disk

variable {d made : Disk} {mode : LastName} {links : Nat} {p place : Place} {n : Name}
  {steps more : List Step} {slash : Bool} {s : Spot} {path above : Path}

/-! ## Walks that go on -/

/-- Once a walk has come to a directory, any walk goes on from there: what the first steps leave of the
links is what the next ones may use. -/
theorem walk_goes_on (h : d.walk .follow links p steps slash = .ok s)
    (hdir : d.get? s.place = some .dir) : ∃ left, ∀ mode ≠ .spell, ∀ more ≠ [], ∀ slash',
      d.walk mode links p (steps ++ more) slash' = d.walk mode left s.place more slash' := by
  -- A link may bring in more steps than are left, but there is one link less to follow then.
  induction links using Nat.strongRecOn generalizing p steps slash s with
  | ind links ihl =>
    induction steps generalizing p s with
    | nil =>
      rw [walk_nil] at h
      cases h
      exact ⟨links, fun _ _ _ _ _ => rfl⟩
    | cons x steps ih =>
      have hne : ∀ {more : List Step}, more ≠ [] → steps ++ more ≠ [] := fun hmore => by simp [hmore]
      -- Once the first step is taken, the others are walked from where it leads.
      have hstep : ∀ {p' : Place}, (∀ mode ≠ .spell, ∀ rest ≠ [], ∀ slash',
          d.walk mode links p (x :: rest) slash' = d.walk mode links p' rest slash') →
          (steps = [] → s.place = p') →
          ∃ left, ∀ mode ≠ .spell, ∀ more ≠ [], ∀ slash',
            d.walk mode links p (x :: steps ++ more) slash' =
              d.walk mode left s.place more slash' := by
        intro p' hw hlast
        obtain ⟨s', hs', hplace⟩ : ∃ s', d.walk .follow links p' steps slash = .ok s' ∧
            s'.place = s.place := by
          by_cases hs : steps = []
          · exact ⟨⟨p', none, slash⟩, by rw [hs, walk_nil], (hlast hs).symm⟩
          · exact ⟨s, by rwa [hw .follow (by decide) steps hs] at h, rfl⟩
        obtain ⟨left, hleft⟩ := ih hs' (hplace ▸ hdir)
        refine ⟨left, fun mode hmode more hmore slash' => ?_⟩
        rw [List.cons_append, hw mode hmode _ (hne hmore), hleft mode hmode more hmore, hplace]
      cases x with
      | here =>
        refine hstep (fun _ _ _ hrest _ => walk_here hrest) fun hs => ?_
        rw [hs, walk_here_last] at h
        cases h
        rfl
      | up =>
        refine hstep (fun _ _ _ hrest _ => walk_up hrest) fun hs => ?_
        rw [hs, walk_up_last] at h
        cases h
        rfl
      | name n =>
        have hlen : n.length ≤ maxNameLength := by
          by_contra hlong
          rw [walk_name_unfit (fun hfits => hlong hfits.1) fun _ => rfl] at h
          cases h
        have hlast : (∀ target, d.get? (p ++ [n]) ≠ some (.link target)) → steps = [] →
            s.place = p ++ [n] := by
          intro hl hs
          rw [hs, walk_last hlen rfl rfl (.inr hl)] at h
          cases h
          rfl
        cases hg : d.get? (p ++ [n]) with
        | none =>
          have hs : steps = [] := by
            by_contra hs
            rw [walk_missing hlen rfl hg hs] at h
            cases h
          rw [hlast (by simp [hg]) hs, hg] at hdir
          cases hdir
        | some entry =>
          cases entry with
          | dir =>
            exact hstep (fun _ hmode _ hrest _ => walk_dir hlen (refuses_of_ne_spell hmode _) hg hrest)
              (hlast (by simp [hg]))
          | file contents =>
            have hs : steps = [] := by
              by_contra hs
              rw [walk_file hlen rfl hg hs] at h
              cases h
            rw [hlast (by simp [hg]) hs, hg] at hdir
            cases hdir
          | link target =>
            cases links with
            | zero =>
              rw [walk_link_zero hlen rfl hg fun _ => ⟨rfl, rfl⟩] at h
              cases h
            | succ links =>
              rw [walk_link hlen rfl hg fun _ => ⟨rfl, rfl⟩] at h
              obtain ⟨left, hleft⟩ := ihl links (Nat.lt_succ_self links) h hdir
              refine ⟨left, fun mode hmode more hmore slash' => ?_⟩
              rw [List.cons_append, walk_link hlen (refuses_of_ne_spell hmode _) hg
                (fun he => (hne hmore he).elim), if_neg (hne hmore), ← List.append_assoc,
                hleft mode hmode more hmore]

theorem spot_beyond (h : d.locate .follow above = .ok (place, .dir))
    (htaken : path.admit = .ok path.route) (hsteps : path.route.steps = above.route.steps ++ more)
    (hmore : more ≠ []) :
    ∃ left, ∀ mode ≠ .spell, d.spot mode path = d.walk mode left place more path.route.slash := by
  obtain ⟨s, -, hwalk, harrive⟩ := walk_of_locate h
  obtain rfl := place_of_arrive harrive
  obtain ⟨left, hleft⟩ := walk_goes_on hwalk (get?_of_arrive harrive)
  refine ⟨left, fun mode hmode => ?_⟩
  rw [spot_of_admitted htaken, hsteps, hleft mode hmode more hmore]

theorem locate_of_name (hspot : d.spot .follow path = d.walk .follow links p [.name n] slash)
    (hn : n.length ≤ maxNameLength) (hdir : d.get? (p ++ [n]) = some .dir) :
    d.locate .follow path = .ok (p ++ [n], .dir) := by
  unfold locate
  rw [hspot, walk_last hn rfl rfl (.inr (by simp [hdir]))]
  simp [bind, Except.bind, arrive, Spot.place, hdir]

/-! ## Making what is missing -/

/-- The walks along the path come to the name in the directory at the place, also with more entries. -/
def ComesTo (d : Disk) (path : Path) (p : Place) (n : Name) : Prop :=
  ∀ d', d.Keeps d' → ∃ left, ∀ mode ≠ .spell,
    d'.spot mode path = d'.walk mode left p [.name n] path.route.slash

theorem spot_of_comesTo (h : d.ComesTo path p n) (hn : n.length ≤ maxNameLength)
    (hfree : d.get? (p ++ [n]) = none) :
    d.spot .unseen path = .ok ⟨p, some (.name n), path.route.slash⟩ ∧
      d.lookUp ⟨p, some (.name n), path.route.slash⟩ n = .ok none := by
  obtain ⟨left, hw⟩ := h d (.refl d)
  refine ⟨(hw .unseen (by decide)).trans walk_unseen_last, ?_⟩
  rw [lookUp, if_neg (Nat.not_lt.mpr hn), Spot.place_of_name rfl, hfree]

theorem makeDir_of_comesTo (h : d.ComesTo path p n) (hn : n.length ≤ maxNameLength)
    (hdir : d.get? p = some .dir) (hfree : d.get? (p ++ [n]) = none) :
    ∃ made, d.makeDir path = .ok made ∧ made.locate .follow path = .ok (p ++ [n], .dir) ∧
      d.Writes made p n .dir := by
  have hw : d.Writes (d.put (p ++ [n]) .dir) p n .dir := writes_put .dir hdir (by simp [hfree])
  obtain ⟨hspot, hlook⟩ := spot_of_comesTo h hn hfree
  obtain ⟨left, hwalk⟩ := h _ (hw.keeps hfree)
  refine ⟨_, ?_, locate_of_name (hwalk .follow (by decide)) hn hw.get?_self, hw⟩
  unfold makeDir
  simp [hspot, bind, Except.bind, hlook, Spot.place]

/-- The path leads down to the place `s.place ++ names`: the directory of the spot `s` is found by its
ancestor `above`, and in it the names are missing. No limit forbids to make them. -/
structure Gap (d : Disk) (path above : Path) (s : Spot) (names : List Name) : Prop where
  admitted : path.admit = .ok path.route
  mem_ancestors : above ∈ path.ancestors
  spot_eq : d.spot .unseen above = .ok s
  last_eq : ∃ n, s.last = some (.name n) ∧ n.length ≤ maxNameLength
  get?_eq : d.get? s.place = none
  steps_eq : path.route.steps = above.route.steps ++ names.map .name
  length_le : ∀ n ∈ names, n.length ≤ maxNameLength

/-- Nothing is at the place, but a directory can be made there by the path. -/
def Vacant (d : Disk) (path : Path) (place : Place) : Prop :=
  ∃ above s names, d.Gap path above s names ∧ place = s.place ++ names

theorem Vacant.congr {d' : Disk} (h : d.Vacant path p) (hsame : ∀ q, d'.get? q = d.get? q) :
    d'.Vacant path p := by
  obtain ⟨above, s, names, hgap, hplace⟩ := h
  have hkeeps : d.Keeps d' := fun q e he => by rw [hsame, he]
  exact ⟨above, s, names,
    { hgap with
      spot_eq := spot_keeps hkeeps hgap.spot_eq (.inl rfl)
      get?_eq := (hsame s.place).trans hgap.get?_eq }, hplace⟩

/-- Going up along the paths stops at the spot, where a directory can be made. Then those that were passed
are made, up to the path that leads to `s.place ++ names`, and nothing else changes. -/
def Fills (d : Disk) (whole : Path) (s : Spot) (ps : List Path) (path : Path) (names : List Name) :
    Prop :=
  ∃ stopped left made, (∀ missing, Action.climb d ps missing = .ok (stopped, left ++ missing)) ∧
    (left.forM (Action.ensureDirectory whole)).runOn stopped = (.ok (), made) ∧
    made.locate .follow path = .ok (s.place ++ names, .dir) ∧
    ∀ q, made.get? q = if s.place <+: q ∧ q <+: s.place ++ names then some .dir else d.get? q

section Gap

variable {names : List Name} (hs : d.spot .unseen above = .ok s) (hlast : s.last = some (.name n))

include hs hlast

/-- The walks along a path that begins as another one come to where that one ends. -/
theorem walk_to_spot : ∃ way left, above.route.steps = way ++ [.name n] ∧
    ∀ path more, path.admit = .ok path.route → path.route.steps = way ++ more → more ≠ [] →
      ∀ mode ≠ .spell, d.spot mode path = d.walk mode left s.dir more path.route.slash := by
  obtain ⟨way, hway, hl, -⟩ := spot_unseen_name hs hlast
  have hpasses : d.Passes maxLinks [] way := passes d.get?_root
  obtain ⟨m, left, hl', -, hw⟩ | ⟨e, -, -, he⟩ := hpasses
  · obtain rfl := hl.unique hl'
    refine ⟨way, left, hway, fun path more htaken hsteps hmore mode hmode => ?_⟩
    rw [spot_of_admitted htaken, hsteps, hw mode hmode more hmore]
  · rw [spot_of_admitted (admit_of_spot hs), hway, he .unseen (by decide) _ (by simp)] at hs
    cases hs

theorem comesTo_spot : d.ComesTo above s.dir n := by
  intro d' hkeeps
  obtain ⟨way, left, hway, hw⟩ := walk_to_spot (spot_keeps hkeeps hs (.inl rfl)) hlast
  exact ⟨left, hw above _ (admit_of_spot hs) hway (by simp)⟩

variable (hlen : n.length ≤ maxNameLength) (hnone : d.get? s.place = none)

include hlen hnone

theorem makeDir_missing (htaken : path.admit = .ok path.route)
    (hsteps : path.route.steps = above.route.steps ++ names.map .name) (hnames : names ≠ []) :
    d.makeDir path = .error (.os Errno.noEntry) := by
  obtain ⟨way, left, hway, hw⟩ := walk_to_spot hs hlast
  have hsteps' : path.route.steps = way ++ (n :: names).map .name := by
    rw [hsteps, hway, List.append_assoc]
    rfl
  have hspot : d.spot .unseen path = .error (.os Errno.noEntry) := by
    rw [hw path _ htaken hsteps' (by simp) .unseen (by decide)]
    exact walk_missing hlen rfl (Spot.place_of_name hlast ▸ hnone) (by simpa using hnames)
  unfold makeDir
  rw [hspot]
  rfl

theorem fills_self (whole : Path) (rest : List Path) : d.Fills whole s (above :: rest) above [] := by
  have hplace := Spot.place_of_name hlast
  obtain ⟨made, hmade, hat, hw⟩ := makeDir_of_comesTo (comesTo_spot hs hlast) hlen
    (get?_dir_of_spot hs) (hplace ▸ hnone)
  refine ⟨made, [], made, fun missing => ?_, rfl, ?_, fun q => ?_⟩
  · rw [Action.climb, hmade]
    rfl
  · rw [hat, hplace, List.append_nil]
  · rw [hw.get?_eq, hplace, List.append_nil]
    refine if_congr ⟨fun hq => ?_, fun hq => ?_⟩ rfl rfl
    · rw [hq]
      exact ⟨List.prefix_rfl, List.prefix_rfl⟩
    · exact hq.2.eq_of_length_le hq.1.length_le

theorem Fills.cons {whole parent : Path} {ps : List Path} {upper : List Name} {m : Name}
    (h : d.Fills whole s ps parent upper) (htaken : path.admit = .ok path.route)
    (hparent : parent.route.steps = above.route.steps ++ upper.map .name)
    (hpath : path.route.steps = parent.route.steps ++ [.name m]) (hm : m.length ≤ maxNameLength) :
    d.Fills whole s (path :: ps) path (upper ++ [m]) := by
  obtain ⟨stopped, left, between, hclimb, hrun, hat, hget⟩ := h
  have hbelow : path.route.steps = above.route.steps ++ (upper ++ [m]).map .name := by
    simp [hpath, hparent]
  have hmissing : d.makeDir path = .error (.os Errno.noEntry) :=
    makeDir_missing hs hlast hlen hnone htaken hbelow (by simp)
  have hfree : between.get? (s.place ++ upper ++ [m]) = none := by
    rw [hget, if_neg, get?_of_under hnone]
    · rw [List.append_assoc]
      exact List.prefix_append _ _
    · intro hpre
      exact (below_of_under hpre.2).2 rfl
  have hcomes : between.ComesTo path (s.place ++ upper) m := fun d' hkeeps =>
    spot_beyond (locate_keeps hkeeps hat) htaken hpath (by simp)
  obtain ⟨made, hmade, hlocate, hw⟩ := makeDir_of_comesTo hcomes hm (get?_of_locate hat) hfree
  refine ⟨stopped, left ++ [path], made, fun missing => ?_, ?_, ?_, fun q => ?_⟩
  · rw [Action.climb, hmissing, List.append_assoc]
    exact hclimb (path :: missing)
  · rw [List.forM_eq_forM] at hrun ⊢
    rw [List.forM_append, Action.runOn_bind_ok hrun, List.forM_cons,
      Action.runOn_bind_ok (Action.ensureDirectory_of_makeDir whole hmade)]
    rfl
  · rw [← List.append_assoc]
    exact hlocate
  · have hend : s.place <+: s.place ++ upper ++ [m] := by
      rw [List.append_assoc]
      exact List.prefix_append _ _
    rw [hw.get?_eq, hget, ← List.append_assoc]
    by_cases hq : q = s.place ++ upper ++ [m]
    · subst hq
      rw [if_pos rfl, if_pos ⟨hend, List.prefix_rfl⟩]
    · have hbelow : q <+: s.place ++ upper ++ [m] ↔ q <+: s.place ++ upper := by
        rw [List.prefix_concat_iff, or_iff_right hq]
      rw [if_neg hq]
      simp only [hbelow]

/-- Going up from a path stops at the missing name, and then those below it are made one by one. -/
theorem fills_ancestors {count : Nat} (hmem : above ∈ path.ancestorsWithin count)
    (htaken : path.admit = .ok path.route)
    (hsteps : path.route.steps = above.route.steps ++ names.map .name)
    (hnames : ∀ m ∈ names, m.length ≤ maxNameLength) (whole : Path) :
    d.Fills whole s (path.ancestorsWithin count) path names := by
  have hself : ∀ {path : Path} {names : List Name} {rest : List Path},
      path.route.steps = above.route.steps ++ names.map .name → above = path →
      d.Fills whole s (path :: rest) path names := by
    rintro path names rest hsteps rfl
    obtain rfl : names = [] := by simpa using hsteps
    exact fills_self hs hlast hlen hnone whole rest
  induction count generalizing path names with
  | zero => exact hself hsteps (List.mem_singleton.mp hmem)
  | succ count ih =>
    rw [Path.ancestorsWithin] at hmem ⊢
    split at hmem
    · exact hself hsteps (List.mem_singleton.mp hmem)
    next parent hparent =>
    obtain heq | hmem := List.mem_cons.mp hmem
    · exact hself hsteps heq
    · obtain ⟨upper, m, rfl, hupper, hpath⟩ := Path.steps_of_parent hparent hsteps
        (Path.steps_of_mem_ancestorsWithin hmem)
      obtain ⟨hshort, hm⟩ := List.forall_mem_append.mp hnames
      have habove := ih hmem (Path.admit_parent hparent htaken) hupper hshort
      exact habove.cons hs hlast hlen hnone htaken hupper hpath (hm m (List.mem_singleton_self m))

end Gap

variable {names : List Name}

theorem Gap.spot_unseen (h : d.Gap path above s []) :
    d.spot .unseen path = .ok ⟨s.dir, s.last, path.route.slash⟩ := by
  obtain ⟨n, hlast, -⟩ := h.last_eq
  obtain ⟨way, left, hway, hw⟩ := walk_to_spot h.spot_eq hlast
  have hsteps : path.route.steps = way ++ [.name n] := by simpa [hway] using h.steps_eq
  rw [hw path _ h.admitted hsteps (by simp) .unseen (by decide), walk_unseen_last, hlast]

/-- A path that comes to a free name is vacant, as it is itself where the gap is. -/
theorem vacant_of_spot {n : Name} (hs : d.spot .unseen path = .ok s)
    (hlast : s.last = some (.name n)) (hlen : n.length ≤ maxNameLength)
    (hnone : d.get? s.place = none) : d.Vacant path s.place := by
  obtain ⟨rest, hrest⟩ := Path.ancestors_eq_cons path
  have hgap : d.Gap path path s [] :=
    { admitted := admit_of_spot hs
      mem_ancestors := hrest ▸ List.mem_cons_self
      spot_eq := hs
      last_eq := ⟨n, hlast, hlen⟩
      get?_eq := hnone
      steps_eq := (List.append_nil _).symm
      length_le := by simp }
  exact ⟨path, s, [], hgap, (List.append_nil _).symm⟩

theorem Gap.lstat_eq (h : d.Gap path above s names) : d.lstat path = .error (.os Errno.noEntry) := by
  obtain ⟨n, hlast, hlen⟩ := h.last_eq
  obtain ⟨way, left, hway, hw⟩ := walk_to_spot h.spot_eq hlast
  have hsteps : path.route.steps = way ++ .name n :: names.map .name := by
    rw [h.steps_eq, hway, List.append_assoc]
    rfl
  have hspot := hw path _ h.admitted hsteps (by simp) .keep (by decide)
  have hnone : d.get? (s.dir ++ [n]) = none := Spot.place_of_name hlast ▸ h.get?_eq
  have hlocate : d.locate .keep path = .error (.os Errno.noEntry) := by
    unfold locate
    rw [hspot]
    cases names with
    | nil =>
      rw [List.map_nil, walk_last hlen rfl rfl (.inr (by simp [hnone]))]
      simp [bind, Except.bind, arrive, Spot.place, hnone]
    | cons m names =>
      rw [walk_missing hlen rfl hnone (by simp)]
      rfl
  unfold lstat
  rw [hlocate]
  rfl

end Disk

namespace Action

open Disk

variable {d : Disk} {path above : Path} {s : Spot} {names : List Name}

/-- The directories that a path lacks are made, and nothing else changes. -/
theorem makeDirectories_of_gap (h : d.Gap path above s names) :
    ∃ made, (makeDirectories path).runOn d = (.ok (), made) ∧
      made.locate .follow path = .ok (s.place ++ names, .dir) ∧
      ∀ q, made.get? q = if s.place <+: q ∧ q <+: s.place ++ names then some .dir else d.get? q := by
  obtain ⟨n, hlast, hlen⟩ := h.last_eq
  obtain ⟨stopped, left, made, hclimb, hrun, hat, hget⟩ := fills_ancestors h.spot_eq hlast hlen
    h.get?_eq h.mem_ancestors h.admitted h.steps_eq h.length_le path
  refine ⟨made, ?_, hat, hget⟩
  have hall : climb d path.ancestors [] = .ok (stopped, left) := by
    rw [← List.append_nil left]
    exact hclimb []
  unfold makeDirectories
  rw [runOn_get_bind, hall]
  dsimp only
  rw [runOn_bind_ok (runOn_set stopped d), hrun]

end Action

end TreeGlob
