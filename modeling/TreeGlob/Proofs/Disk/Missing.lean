import TreeGlob.Proofs.Disk.Removing

/-!
How it shows that nothing is at a path.

The system says "not found" of one kind of absence only: the walk came to a directory, and the next name
is not in it. A file on the way, a loop of links, a name or a path that is too long are reported as other
failures, although nothing is at such a path either.

* `Disk.Misses` are the steps that come to a missing name, and `notFound_iff_misses` says that these are
  the ones that a walk reports as "not found".
* `lstat_notFound_iff` and `realPath_notFound_iff` say so of a path, which has to be one that the system
  takes.
* `Action.absent_accepted_iff` is the main result: which absent paths are accepted by the operations that
  are fine with them.
-/
namespace TreeGlob

/-- The system reported that something is not there. -/
def NotFound {α : Type} (r : Except IoError α) : Prop := ∃ e, r = .error e ∧ e.kind = .notFound

section NotFound

variable {α β : Type}

@[simp] theorem not_notFound_ok (a : α) : ¬NotFound (.ok a) := by
  intro h
  obtain ⟨e, he, -⟩ := h
  cases he

@[simp] theorem notFound_error {e : IoError} :
    NotFound (.error e : Except IoError α) ↔ e.kind = .notFound := by
  constructor
  · intro h
    obtain ⟨e', he, hkind⟩ := h
    cases he
    exact hkind
  · intro hkind
    exact ⟨e, rfl, hkind⟩

theorem not_notFound_error {e : IoError} (h : e.kind ≠ .notFound) :
    ¬NotFound (.error e : Except IoError α) := mt notFound_error.mp h

theorem notFound_bind {r : Except IoError α} {f : α → Except IoError β} :
    NotFound (r >>= f) ↔ NotFound r ∨ ∃ a, r = .ok a ∧ NotFound (f a) := by
  cases r with
  | error e => simp [bind, Except.bind]
  | ok a => simp [bind, Except.bind]

theorem notFound_map {f : α → β} {r : Except IoError α} : NotFound (r.map f) ↔ NotFound r := by
  cases r <;> simp [Except.map]

end NotFound

namespace Disk

/-- From the directory at a place, the steps come to a name that is missing there: before it they enter
directories and follow links, no more of them than the number says. Every name on the way can be looked
up: it is not too long, and its place is within the limit. -/
inductive Misses (d : Disk) (limit : Place → Prop) : Nat → Place → List Step → Prop where
  | here {links : Nat} {p : Place} {steps : List Step} :
      Misses d limit links p steps → Misses d limit links p (.here :: steps)
  | up {links : Nat} {p : Place} {steps : List Step} :
      Misses d limit links p.dropLast steps → Misses d limit links p (.up :: steps)
  | enter {links : Nat} {p : Place} {n : Name} {steps : List Step} : n.length ≤ maxNameLength →
      limit (p ++ [n]) → d.get? (p ++ [n]) = some .dir → Misses d limit links (p ++ [n]) steps →
      Misses d limit links p (.name n :: steps)
  | follow {links : Nat} {p : Place} {n : Name} {steps : List Step} {target : Path} :
      n.length ≤ maxNameLength → limit (p ++ [n]) → d.get? (p ++ [n]) = some (.link target) →
      Misses d limit links (if target.route.absolute then [] else p) (target.route.steps ++ steps) →
      Misses d limit (links + 1) p (.name n :: steps)
  | missing {links : Nat} {p : Place} {n : Name} {steps : List Step} : n.length ≤ maxNameLength →
      limit (p ++ [n]) → d.get? (p ++ [n]) = none → Misses d limit links p (.name n :: steps)

variable {d : Disk} {mode : LastName} {limit : Place → Prop} {links : Nat} {p : Place} {n : Name}
  {steps more : List Step} {slash : Bool}

/-! ## The first step -/

theorem misses_here_iff :
    d.Misses limit links p (.here :: steps) ↔ d.Misses limit links p steps :=
  ⟨fun h => by cases h with | here h => exact h, .here⟩

theorem misses_up_iff :
    d.Misses limit links p (.up :: steps) ↔ d.Misses limit links p.dropLast steps :=
  ⟨fun h => by cases h with | up h => exact h, .up⟩

theorem Misses.name_fits (h : d.Misses limit links p (.name n :: steps)) :
    n.length ≤ maxNameLength ∧ limit (p ++ [n]) := by
  cases h with
  | enter hn hl => exact ⟨hn, hl⟩
  | follow hn hl => exact ⟨hn, hl⟩
  | missing hn hl => exact ⟨hn, hl⟩

theorem misses_dir_iff (hn : n.length ≤ maxNameLength) (hl : limit (p ++ [n]))
    (hd : d.get? (p ++ [n]) = some .dir) :
    d.Misses limit links p (.name n :: steps) ↔ d.Misses limit links (p ++ [n]) steps := by
  refine ⟨fun h => ?_, .enter hn hl hd⟩
  cases h with
  | enter _ _ _ h => exact h
  | follow _ _ hlink _ => simp [hd] at hlink
  | missing _ _ hnone => simp [hd] at hnone

theorem misses_link_iff {target : Path} (hn : n.length ≤ maxNameLength) (hl : limit (p ++ [n]))
    (hlink : d.get? (p ++ [n]) = some (.link target)) :
    d.Misses limit (links + 1) p (.name n :: steps) ↔
      d.Misses limit links (if target.route.absolute then [] else p)
        (target.route.steps ++ steps) := by
  refine ⟨fun h => ?_, .follow hn hl hlink⟩
  cases h with
  | enter _ _ hd _ => simp [hlink] at hd
  | follow _ _ hlink' h =>
    obtain rfl : _ = _ := Entry.link.inj (Option.some.inj (hlink.symm.trans hlink'))
    exact h
  | missing _ _ hnone => simp [hlink] at hnone

theorem not_misses_of_file {contents : Bytes} (hf : d.get? (p ++ [n]) = some (.file contents)) :
    ¬d.Misses limit links p (.name n :: steps) := by
  intro h
  cases h with
  | enter _ _ hd _ => simp [hf] at hd
  | follow _ _ hl _ => simp [hf] at hl
  | missing _ _ hnone => simp [hf] at hnone

theorem not_misses_of_link {target : Path} (hl : d.get? (p ++ [n]) = some (.link target)) :
    ¬d.Misses limit 0 p (.name n :: steps) := by
  intro h
  cases h with
  | enter _ _ hd _ => simp [hl] at hd
  | missing _ _ hnone => simp [hl] at hnone

/-! ## Where a walk is refused -/

section Refusals

variable (hlen : n.length ≤ maxNameLength) (hr : mode.refuses (p ++ [n]) = false)

include hlen hr

theorem walk_missing (hnone : d.get? (p ++ [n]) = none) (h : steps ≠ []) :
    d.walk mode links p (.name n :: steps) slash = .error (.os Errno.noEntry) := by
  cases links <;> simp [walk, walkSteps, h, Nat.not_lt.mpr hlen, hr, hnone]

theorem walk_file {contents : Bytes} (hf : d.get? (p ++ [n]) = some (.file contents))
    (h : steps ≠ []) :
    d.walk mode links p (.name n :: steps) slash = .error (.os Errno.notDirectory) := by
  cases links <;> simp [walk, walkSteps, h, Nat.not_lt.mpr hlen, hr, hf]

theorem walk_link_zero {target : Path} (hl : d.get? (p ++ [n]) = some (.link target))
    (h : steps = [] → mode.skips slash = false ∧ mode.keeps slash = false) :
    d.walk mode 0 p (.name n :: steps) slash = .error (.os Errno.tooManyLinks) := by
  have hs : ¬(steps = [] ∧ mode.skips slash = true) := fun ⟨he, ht⟩ => by simp [(h he).1] at ht
  have hk : ¬(steps = [] ∧ mode.keeps slash = true) := fun ⟨he, ht⟩ => by simp [(h he).2] at ht
  rw [walk, walkSteps, if_neg hs, if_neg (by simp [Nat.not_lt.mpr hlen, hr]), hl]
  simp only [if_neg hk]

end Refusals

theorem walk_name_unfit (hn : ¬(n.length ≤ maxNameLength ∧ mode.refuses (p ++ [n]) = false))
    (h : steps = [] → mode.skips slash = false) :
    d.walk mode links p (.name n :: steps) slash = .error (.os Errno.nameTooLong) := by
  by_cases hr : mode.refuses (p ++ [n]) = true
  · refine walk_name_refused ?_ hr
    by_cases hs : steps = []
    · exact .inr (h hs)
    · exact .inl hs
  · have hlong : maxNameLength < n.length := by
      by_contra hlen
      exact hn ⟨Nat.not_lt.mp hlen, by simpa using hr⟩
    have hskip : ¬(steps = [] ∧ mode.skips slash = true) := fun ⟨he, ht⟩ => by simp [h he] at ht
    cases links <;>
    · rw [walk, walkSteps, if_neg hskip, if_pos (.inl hlong)]

/-! ## What is reported as "not found" -/

/-- A last step that is no link to be followed does not fail as "not found". -/
theorem walk_last_found (hmode : mode ≠ .spell) {last : Step}
    (hl : ∀ n, last = .name n → n.length ≤ maxNameLength → mode.keeps slash = true ∨
      mode.skips slash = true ∨ ∀ target, d.get? (p ++ [n]) ≠ some (.link target)) :
    ¬NotFound (d.walk mode links p [last] slash) := by
  cases last with
  | here => rw [walk_here_last]; exact not_notFound_ok _
  | up => rw [walk_up_last]; exact not_notFound_ok _
  | name n =>
    by_cases hskip : mode.skips slash = true
    · rw [walk_skipped_last hskip]
      exact not_notFound_ok _
    have hskip : mode.skips slash = false := by simpa using hskip
    have hr := refuses_of_ne_spell hmode (p ++ [n])
    by_cases hlen : n.length ≤ maxNameLength
    · have hlink : mode.keeps slash = true ∨ ∀ target, d.get? (p ++ [n]) ≠ some (.link target) := by
        simpa [hskip] using hl n rfl hlen
      rw [walk_last hlen hr hskip hlink]
      exact not_notFound_ok _
    · rw [walk_name_unfit (fun h => hlen h.1) fun _ => hskip]
      exact not_notFound_error (by decide)

/-- A walk that follows a last link ends at a spot, and then it counts whether an entry is there. -/
def LooksUp {α : Type} (d : Disk) (mode : LastName) (f : Spot → Except IoError α) : Prop :=
  (∀ slash, mode.skips slash = false ∧ mode.keeps slash = false) ∧
    ∀ s, NotFound (f s) ↔ d.get? s.place = none

/-- At a last name that is no link, a walk ends, and the name is looked up. -/
theorem notFound_last_iff {α : Type} {f : Spot → Except IoError α} (hf : d.LooksUp mode f)
    (hlen : n.length ≤ maxNameLength) (hr : mode.refuses (p ++ [n]) = false)
    (hl : ∀ target, d.get? (p ++ [n]) ≠ some (.link target)) :
    NotFound (d.walk mode links p [.name n] slash >>= f) ↔ d.get? (p ++ [n]) = none := by
  rw [walk_last hlen hr (hf.1 slash).1 (.inr hl)]
  exact hf.2 _

/-- **A walk is reported as "not found" just if its steps come to a missing name.** There may be `more`
steps to come behind them, as long as these do not fail in that way themselves. -/
theorem notFound_iff_misses {α : Type} {f : Spot → Except IoError α}
    (hlimit : ∀ p, mode.refuses p = false ↔ limit p)
    (hend : ∀ links slash m, d.get? m = some .dir → ¬NotFound (d.walk mode links m more slash >>= f))
    (hlast : more = [] → d.LooksUp mode f) (hp : d.get? p = some .dir) :
    NotFound (d.walk mode links p (steps ++ more) slash >>= f) ↔ d.Misses limit links p steps := by
  -- A link may bring in more steps than are left, but there is one link less to follow then.
  induction links using Nat.strongRecOn generalizing p steps slash with
  | ind links ihl =>
    induction steps generalizing p with
    | nil =>
      refine iff_of_false (hend _ _ _ hp) fun h => ?_
      cases h
    | cons x steps ih =>
      rw [List.cons_append]
      cases x with
      | here =>
        rw [misses_here_iff, ← ih hp]
        by_cases hs : steps ++ more = []
        · obtain ⟨rfl, rfl⟩ := List.append_eq_nil_iff.mp hs
          have hdir := (hlast rfl).2
          simp [bind, Except.bind, hdir, Spot.place, hp]
        · rw [walk_here hs]
      | up =>
        have hup := get?_dropLast_of_dir hp
        rw [misses_up_iff, ← ih hup]
        by_cases hs : steps ++ more = []
        · obtain ⟨rfl, rfl⟩ := List.append_eq_nil_iff.mp hs
          have hdir := (hlast rfl).2
          simp [bind, Except.bind, hdir, Spot.place, hup]
        · rw [walk_up hs]
      | name n =>
        have hgo : steps ++ more = [] → mode.skips slash = false ∧ mode.keeps slash = false :=
          fun hs => (hlast (List.append_eq_nil_iff.mp hs).2).1 slash
        by_cases hpass : n.length ≤ maxNameLength ∧ mode.refuses (p ++ [n]) = false
        · obtain ⟨hlen, hr⟩ := hpass
          have hfits := (hlimit _).mp hr
          cases hg : d.get? (p ++ [n]) with
          | none =>
            refine iff_of_true ?_ (.missing hlen hfits hg)
            by_cases hs : steps ++ more = []
            · obtain ⟨rfl, rfl⟩ := List.append_eq_nil_iff.mp hs
              exact (notFound_last_iff (hlast rfl) hlen hr (by simp [hg])).mpr hg
            · rw [walk_missing hlen hr hg hs]
              exact notFound_error.mpr rfl
          | some entry =>
            cases entry with
            | dir =>
              rw [misses_dir_iff hlen hfits hg, ← ih hg]
              by_cases hs : steps ++ more = []
              · obtain ⟨rfl, rfl⟩ := List.append_eq_nil_iff.mp hs
                rw [List.nil_append, notFound_last_iff (hlast rfl) hlen hr (by simp [hg]), hg]
                exact iff_of_false (Option.some_ne_none _) (hend _ _ _ hg)
              · rw [walk_dir hlen hr hg hs]
            | file contents =>
              refine iff_of_false ?_ (not_misses_of_file hg)
              by_cases hs : steps ++ more = []
              · obtain ⟨rfl, rfl⟩ := List.append_eq_nil_iff.mp hs
                rw [List.nil_append, notFound_last_iff (hlast rfl) hlen hr (by simp [hg]), hg]
                exact Option.some_ne_none _
              · rw [walk_file hlen hr hg hs]
                exact not_notFound_error (by decide)
            | link target =>
              cases links with
              | zero =>
                rw [walk_link_zero hlen hr hg hgo]
                exact iff_of_false (not_notFound_error (by decide)) (not_misses_of_link hg)
              | succ links =>
                have hfrom : d.get? (if target.route.absolute then [] else p) = some .dir := by
                  split <;> simp [hp]
                rw [misses_link_iff hlen hfits hg, ← ihl links (Nat.lt_succ_self links) hfrom,
                  walk_link hlen hr hg hgo, List.append_assoc]
        · rw [walk_name_unfit hpass fun hs => (hgo hs).1]
          exact iff_of_false (not_notFound_error (by decide)) fun h =>
            hpass ⟨h.name_fits.1, (hlimit _).mpr h.name_fits.2⟩

/-! ## Paths that name nothing -/

variable {path real : Path}

theorem notFound_arrive {s : Spot} : NotFound (d.arrive s) ↔ d.get? s.place = none := by
  unfold arrive
  split
  · next hnone => exact iff_of_true (notFound_error.mpr rfl) hnone
  · next hdir => simp [hdir]
  · next e _ he =>
    rw [he]
    refine iff_of_false ?_ (Option.some_ne_none _)
    split
    · exact not_notFound_error (by decide)
    · exact not_notFound_ok _

theorem looksUp_arrive (hmode : mode = .follow ∨ mode = .spell) : d.LooksUp mode d.arrive := by
  refine ⟨fun slash => ?_, fun s => notFound_arrive⟩
  rcases hmode with rfl | rfl <;> exact ⟨rfl, rfl⟩

theorem notFound_walk_arrive (hmode : mode = .follow ∨ mode = .spell)
    (hlimit : ∀ p, mode.refuses p = false ↔ limit p) (hp : d.get? p = some .dir) :
    NotFound (d.walk mode links p steps slash >>= d.arrive) ↔ d.Misses limit links p steps := by
  have hend : ∀ links slash m, d.get? m = some .dir →
      ¬NotFound (d.walk mode links m [] slash >>= d.arrive) := by
    intro links slash m hm
    rw [walk_nil]
    exact mt notFound_arrive.mp (by simp [Spot.place, hm])
  have hiff : NotFound (d.walk mode links p (steps ++ []) slash >>= d.arrive) ↔
      d.Misses limit links p steps :=
    notFound_iff_misses hlimit hend (fun _ => looksUp_arrive hmode) hp
  rwa [List.append_nil] at hiff

theorem locate_follow_of_absent (h : d.present path = false) :
    d.locate .follow path = d.locate .keep path := by
  suffices hspot : d.spot .follow path = d.spot .keep path by
    unfold locate
    rw [hspot]
  cases hslash : path.route.slash with
  | true => exact (spot_keep_slash hslash).symm
  | false =>
    rcases List.eq_nil_or_concat path.route.steps with hnil | ⟨way, last, hsteps⟩
    · exact spot_of_steps_nil hnil .follow .keep
    rw [List.concat_eq_append] at hsteps
    obtain ⟨m, left, -, -, -, hw⟩ | ⟨e, -, -, he⟩ := spot_cases (d := d) hsteps
    · have hkeep := hw .keep (by decide)
      rw [hw .follow (by decide), hkeep, hslash]
      cases last with
      | here => rw [walk_here_last, walk_here_last]
      | up => rw [walk_up_last, walk_up_last]
      | name n =>
        by_cases hlen : maxNameLength < n.length
        · rw [walk_name_long hlen rfl, walk_name_long hlen rfl]
        have hlen := Nat.not_lt.mp hlen
        rw [hslash, walk_last hlen rfl rfl (.inl rfl)] at hkeep
        have hnone : d.get? (m ++ [n]) = none := by
          by_contra hthere
          obtain ⟨e, he⟩ := Option.ne_none_iff_exists'.mp hthere
          have hpresent := present_iff.mpr ⟨_, hkeep, _, arrive_name he⟩
          rw [h] at hpresent
          cases hpresent
        rw [walk_last hlen rfl rfl (.inr (by simp [hnone])), walk_last hlen rfl rfl (.inl rfl)]
    · rw [he .follow (by decide), he .keep (by decide)]

theorem admit_eq_ok_iff :
    path.admit = .ok path.route ↔
      (0 : UInt8) ∉ path.bytes ∧ path.bytes ≠ [] ∧ path.bytes.length < maxPathLength := by
  constructor
  · intro h
    obtain ⟨-, hspelled, hlen⟩ := route_of_admit h
    obtain ⟨hzero, hne⟩ := spelled_eq_ok.mp hspelled
    exact ⟨hzero, hne, hlen⟩
  · intro h
    obtain ⟨hzero, hne, hlen⟩ := h
    exact admit_eq_ok (spelled_eq_ok.mpr ⟨hzero, hne⟩) hlen

theorem notFound_admit_bind {α : Type} {f : Route → Except IoError α} (hne : path.bytes ≠ []) :
    NotFound (do f (← path.admit)) ↔ path.admit = .ok path.route ∧ NotFound (f path.route) := by
  cases ha : path.admit with
  | error e =>
    have hother : ¬NotFound (.error e : Except IoError α) := by
      rw [notFound_error, kind_of_admit hne ha]
      decide
    exact iff_of_false hother fun h => by cases h.1
  | ok route =>
    obtain ⟨rfl, -, -⟩ := route_of_admit ha
    exact (and_iff_right rfl).symm

theorem locate_follow_notFound_iff (hne : path.bytes ≠ []) :
    NotFound (d.locate .follow path) ↔
      path.admit = .ok path.route ∧ d.Misses (fun _ => True) maxLinks [] path.route.steps := by
  have hwalk : NotFound (d.walk .follow maxLinks [] path.route.steps path.route.slash >>= d.arrive) ↔
      d.Misses (fun _ => True) maxLinks [] path.route.steps :=
    notFound_walk_arrive (.inl rfl) (fun p => by simp [LastName.refuses]) d.get?_root
  have hlocate : d.locate .follow path = path.admit >>= fun route =>
      d.walk .follow maxLinks [] route.steps route.slash >>= d.arrive := by
    unfold locate spot
    cases path.admit <;> rfl
  rw [hlocate, notFound_admit_bind hne, hwalk]

/-- The system takes the path, but on the way to its last step a name is missing. -/
def WayMissing (d : Disk) (path : Path) : Prop :=
  path.admit = .ok path.route ∧ ∃ way last, path.route.steps = way ++ [last] ∧
    d.Misses (fun _ => True) maxLinks [] way

/-- A path whose last step nobody asks for is not found if the way to that step is missing. -/
theorem spot_notFound_iff (hne : path.bytes ≠ []) :
    NotFound (d.spot .unseen path) ↔ d.WayMissing path := by
  unfold spot WayMissing
  rw [notFound_admit_bind hne]
  refine and_congr_right fun _ => ?_
  obtain hnil | ⟨way, last, hsteps⟩ := List.eq_nil_or_concat path.route.steps
  · rw [hnil, walk_nil]
    refine iff_of_false (not_notFound_ok _) fun h => ?_
    obtain ⟨way, last, hsteps, -⟩ := h
    simp at hsteps
  rw [List.concat_eq_append] at hsteps
  have hend : ∀ links slash m, d.get? m = some .dir →
      ¬NotFound (d.walk .unseen links m [last] slash >>= pure) := by
    intro links slash m _
    rw [bind_pure]
    exact walk_last_found (by decide) fun _ _ _ => .inr (.inl rfl)
  have hwalk : NotFound (d.walk .unseen maxLinks [] (way ++ [last]) path.route.slash >>= pure) ↔
      d.Misses (fun _ => True) maxLinks [] way :=
    notFound_iff_misses (fun p => by simp [LastName.refuses]) hend (by simp) d.get?_root
  rw [hsteps, ← bind_pure (d.walk .unseen maxLinks [] (way ++ [last]) path.route.slash)]
  refine hwalk.trans ⟨fun h => ⟨way, last, rfl, h⟩, fun h => ?_⟩
  obtain ⟨way', last', heq, h⟩ := h
  obtain ⟨rfl, -⟩ := List.append_inj' heq rfl
  exact h

theorem lstat_notFound_iff (hne : path.bytes ≠ []) (h : d.present path = false) :
    NotFound (d.lstat path) ↔
      path.admit = .ok path.route ∧ d.Misses (fun _ => True) maxLinks [] path.route.steps := by
  rw [lstat, notFound_map, ← locate_follow_of_absent h, locate_follow_notFound_iff hne]

theorem realPath_eq_map (h : path.spelled = .ok path.route) :
    d.realPath path = (d.walk .spell maxLinks [] path.route.steps path.route.slash >>=
      d.arrive).map fun found => pathTo found.1 := by
  unfold realPath
  rw [h]
  cases hw : d.walk .spell maxLinks [] path.route.steps path.route.slash with
  | error e => simp [bind, Except.bind, Except.map, hw]
  | ok s => cases ha : d.arrive s <;> simp [bind, Except.bind, Except.map, hw, ha]

theorem realPath_notFound_iff (hne : path.bytes ≠ []) :
    NotFound (d.realPath path) ↔
      (0 : UInt8) ∉ path.bytes ∧ d.Misses Place.Short maxLinks [] path.route.steps := by
  by_cases hzero : (0 : UInt8) ∈ path.bytes
  · have hrefused : d.realPath path = .error .zeroByte := by
      simp [realPath, Path.spelled, Path.requireNoZero, hzero, bind, Except.bind]
    rw [hrefused]
    exact iff_of_false (not_notFound_error (by decide)) fun hyp => hyp.1 hzero
  · rw [realPath_eq_map (spelled_eq_ok.mpr ⟨hzero, hne⟩), notFound_map,
      notFound_walk_arrive (.inr rfl) (fun p => LastName.refuses_spell_eq_false) d.get?_root,
      and_iff_right hzero]

theorem length_lt_of_realPath (h : d.realPath path = .ok real) : real.bytes.length < maxPathLength := by
  obtain ⟨s, e, hw, -, rfl⟩ := walk_of_realPath h
  exact short_of_spells (spells_of_walk hw) Place.short_nil

theorem present_of_realPath (h : d.realPath path = .ok real)
    (hlen : path.bytes.length < maxPathLength) : d.present path = true := by
  obtain ⟨s, e, hw, ha, -⟩ := walk_of_realPath h
  have hfollow := walk_follow_of_spells (spells_of_walk hw)
  have hspot : d.spot .follow path = .ok s := by
    unfold spot
    simp [admit_eq_ok (spelled_of_realPath h) hlen, bind, Except.bind, hfollow]
  exact present_of_spot hspot ⟨_, ha⟩ (.inl rfl)

end Disk

namespace Action

open Disk

variable {d : Disk} {path : Path}

theorem runOn_resolveLinks (ha : path.isAbsolute = true) (d : Disk) :
    (resolveLinks path).runOn d =
      match d.realPath path with
      | .ok real => (.ok real, d)
      | .error e => (if e.kind = .notFound then .ok path else .error (.ofIo e path), d) := by
  unfold resolveLinks
  rw [runOn_bind_ok (requireAbsolute_of_absolute ha d), runOn_get_bind]
  cases d.realPath path with
  | ok real => rfl
  | error e =>
    dsimp only
    split <;> rfl

theorem bytes_ne_nil_of_isAbsolute (ha : path.isAbsolute = true) : path.bytes ≠ [] := by
  rintro hnil
  simp [Path.isAbsolute, hnil] at ha

theorem lstat_of_absent (h : d.present path = false) : ∃ e, d.lstat path = .error e := by
  cases hl : d.lstat path with
  | error e => exact ⟨e, rfl⟩
  | ok e => simp [present, hl, Except.toBool] at h

theorem remove_absent_iff (ha : path.isAbsolute = true) (h : d.present path = false) :
    ((remove path).runOn d).1 = .ok () ↔ NotFound (d.lstat path) := by
  obtain ⟨e, he⟩ := lstat_of_absent h
  rw [runOn_remove ha, he, notFound_error]
  dsimp only
  split
  · next hkind => exact iff_of_true rfl hkind
  · next hkind => exact iff_of_false nofun hkind

theorem resolveLinks_absent_iff (ha : path.isAbsolute = true) (h : d.present path = false) :
    ((resolveLinks path).runOn d).1 = .ok path ↔ NotFound (d.realPath path) := by
  rw [runOn_resolveLinks ha]
  cases hr : d.realPath path with
  | ok real =>
    refine iff_of_false (fun heq => ?_) (not_notFound_ok real)
    obtain rfl : real = path := by simpa using heq
    have hpresent := present_of_realPath hr (length_lt_of_realPath hr)
    rw [h] at hpresent
    cases hpresent
  | error e =>
    rw [notFound_error]
    dsimp only
    split
    · next hkind => exact iff_of_true rfl hkind
    · next hkind => exact iff_of_false nofun hkind

/-- **An absent path is accepted just if it is absent because a name is missing.** Removing what is not
there and resolving it never change anything. Either succeeds if the way along the path comes to a name
that is missing in its directory, and fails if the path is absent for another reason. For resolving,
every place on the way must have a short path, while for removing the path itself must be short. -/
theorem absent_accepted_iff (ha : path.isAbsolute = true) (h : d.present path = false) :
    (((remove path).runOn d).2 = d ∧ ((resolveLinks path).runOn d).2 = d) ∧
    (((remove path).runOn d).1 = .ok () ↔
      (0 : UInt8) ∉ path.bytes ∧ path.bytes.length < maxPathLength ∧
        d.Misses (fun _ => True) maxLinks [] path.route.steps) ∧
    (((resolveLinks path).runOn d).1 = .ok path ↔
      (0 : UInt8) ∉ path.bytes ∧ d.Misses Place.Short maxLinks [] path.route.steps) := by
  have hne := bytes_ne_nil_of_isAbsolute ha
  obtain ⟨e, he⟩ := lstat_of_absent h
  refine ⟨⟨remove_of_absent he, ?_⟩, ?_, ?_⟩
  · rw [runOn_resolveLinks ha]
    cases d.realPath path <;> rfl
  · rw [remove_absent_iff ha h, lstat_notFound_iff hne h, admit_eq_ok_iff, and_iff_right hne, and_assoc]
  · rw [resolveLinks_absent_iff ha h, realPath_notFound_iff hne]

end Action

/-- A disk with a file and a link to itself. -/
def Disk.obstructed : Disk where
  top :=
    .file (Utf8.encode "f".toList) (Utf8.encode "x".toList) <|
    .link (Utf8.encode "l".toList) (.ofText "l".toList) .empty

namespace Action

/-- There is no `/n`, so that `/n/x` is accepted. Below the file `/f` and behind the loop `/l` there is
nothing either, but `/f/x` and `/l/x` are not accepted. -/
theorem absent_accepted_iff_in_obstructed :
    ((remove (.ofText "/n/x".toList)).runOn Disk.obstructed = (.ok (), Disk.obstructed) ∧
        (resolveLinks (.ofText "/n/x".toList)).runOn Disk.obstructed =
          (.ok (.ofText "/n/x".toList), Disk.obstructed)) ∧
      (((remove (.ofText "/f/x".toList)).runOn Disk.obstructed).1 ≠ .ok () ∧
        ((resolveLinks (.ofText "/f/x".toList)).runOn Disk.obstructed).1 ≠
          .ok (.ofText "/f/x".toList)) ∧
      (Disk.obstructed.present (.ofText "/l/x".toList) = false ∧
        ((remove (.ofText "/l/x".toList)).runOn Disk.obstructed).1 ≠ .ok ()) := by
  obtain ⟨⟨hremoved, hresolved⟩, hremove, hresolve⟩ :=
    @absent_accepted_iff Disk.obstructed (.ofText "/n/x".toList) (by decide +kernel)
      (by decide +kernel)
  obtain ⟨-, hremove', hresolve'⟩ :=
    @absent_accepted_iff Disk.obstructed (.ofText "/f/x".toList) (by decide +kernel)
      (by decide +kernel)
  have hmissing : ∀ limit : Place → Prop, limit [Utf8.encode "n".toList] →
      Disk.obstructed.Misses limit maxLinks [] (Path.ofText "/n/x".toList).route.steps := by
    intro limit hlimit
    have hsteps : (Path.ofText "/n/x".toList).route.steps =
        [.name (Utf8.encode "n".toList), .name (Utf8.encode "x".toList)] := by decide +kernel
    rw [hsteps]
    exact .missing (by decide +kernel) hlimit (by decide +kernel)
  have hfile : ∀ limit : Place → Prop,
      ¬Disk.obstructed.Misses limit maxLinks [] (Path.ofText "/f/x".toList).route.steps := by
    intro limit
    have hsteps : (Path.ofText "/f/x".toList).route.steps =
        [.name (Utf8.encode "f".toList), .name (Utf8.encode "x".toList)] := by decide +kernel
    rw [hsteps]
    have hthere : Disk.obstructed.get? [Utf8.encode "f".toList] =
        some (.file (Utf8.encode "x".toList)) := by decide +kernel
    exact Disk.not_misses_of_file hthere
  refine ⟨⟨?_, ?_⟩, ⟨?_, ?_⟩, by decide +kernel, by decide +kernel⟩
  · exact Prod.ext (hremove.mpr ⟨by decide +kernel, by decide +kernel, hmissing _ trivial⟩) hremoved
  · exact Prod.ext (hresolve.mpr ⟨by decide +kernel, hmissing _ (by decide +kernel)⟩) hresolved
  · intro hok
    exact hfile _ (hremove'.mp hok).2.2
  · intro hok
    exact hfile _ (hresolve'.mp hok).2

end Action

end TreeGlob
