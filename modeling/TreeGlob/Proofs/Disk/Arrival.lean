import TreeGlob.Proofs.Disk.Directory
import TreeGlob.Proofs.Disk.Effects

/-!
How a walk comes to its last step, whatever is there.

* `passes` says that walks pass through the directory that their first steps lead to, or are refused; a
  refusal as "not found" means that those steps lead to no directory.
* `makeDir_ok`, `makeLink_ok` and `makeDir_not_notFound` say what that means for making an entry.
* `locate_follow_of_keep` and `present_of_spot` compare walks that follow a last link with those that do
  not.
* `locate_keeps` says that a path keeps its meaning when entries are added.
-/
namespace TreeGlob

namespace Path

theorem of_mem_split {bs : Bytes} {n : Name} (h : n ∈ split bs) :
    separator ∉ n ∧ ∀ b ∈ n, b ∈ bs := by
  induction bs generalizing n with
  | nil =>
    obtain rfl := List.mem_singleton.mp h
    simp
  | cons c bs ih =>
    have hlift : ∀ {n}, n ∈ split bs → separator ∉ n ∧ ∀ b ∈ n, b ∈ c :: bs := fun hn =>
      (ih hn).imp_right fun hb b hm => List.mem_cons_of_mem c (hb b hm)
    rw [split] at h
    split at h
    · rcases List.mem_cons.mp h with rfl | h
      · simp
      · exact hlift h
    · next hc =>
      obtain ⟨piece, pieces, hs⟩ := List.exists_cons_of_ne_nil (split_ne_nil bs)
      rw [hs] at h hlift
      rcases List.mem_cons.mp h with rfl | h
      · obtain ⟨hsep, hmem⟩ := hlift List.mem_cons_self
        refine ⟨?_, List.forall_mem_cons.mpr ⟨List.mem_cons_self, hmem⟩⟩
        rw [List.mem_cons, not_or]
        exact ⟨Ne.symm hc, hsep⟩
      · exact hlift (List.mem_cons_of_mem piece h)

/-- A name on the way of a path is one that an entry can have, if the system takes the path and does
not complain about the name's length. -/
theorem properName_of_mem_steps {p : Path} {n : Name} (h : Step.name n ∈ p.route.steps)
    (hzero : (0 : UInt8) ∉ p.bytes) (hlen : n.length ≤ maxNameLength) : ProperName n := by
  obtain ⟨piece, hpiece, hof⟩ := List.mem_map.mp h
  obtain ⟨hmem, hne⟩ := List.mem_filter.mp hpiece
  obtain ⟨hsep, hbytes⟩ := of_mem_split hmem
  unfold Step.ofPiece at hof
  split at hof
  · cases hof
  next hhere =>
  split at hof
  · cases hof
  next hup =>
  cases hof
  exact ⟨by simpa using hne, hsep, fun h0 => hzero (hbytes 0 h0), hhere, hup, hlen⟩

end Path

namespace Disk

variable {d : Disk} {mode : LastName} {links : Nat} {p q : Place} {n : Name} {steps more : List Step}
  {slash : Bool}

/-! ## Where the first step leads -/

theorem leads_here_iff : d.Leads p (.here :: steps) q ↔ d.Leads p steps q :=
  ⟨fun h => by cases h with | here h => exact h, .here⟩

theorem leads_up_iff : d.Leads p (.up :: steps) q ↔ d.Leads p.dropLast steps q :=
  ⟨fun h => by cases h with | up h => exact h, .up⟩

theorem leads_dir_iff (hd : d.get? (p ++ [n]) = some .dir) :
    d.Leads p (.name n :: steps) q ↔ d.Leads (p ++ [n]) steps q := by
  refine ⟨fun h => ?_, .enter hd⟩
  cases h with
  | enter _ h => exact h
  | follow hl _ => simp [hd] at hl
  | file hf => simp [hd] at hf

theorem leads_link_iff {target : Path} (hl : d.get? (p ++ [n]) = some (.link target)) :
    d.Leads p (.name n :: steps) q ↔
      d.Leads (if target.route.absolute then [] else p) (target.route.steps ++ steps) q := by
  refine ⟨fun h => ?_, .follow hl⟩
  cases h with
  | enter hd _ => simp [hl] at hd
  | follow hl' h =>
    obtain rfl : _ = _ := Entry.link.inj (Option.some.inj (hl.symm.trans hl'))
    exact h
  | file hf => simp [hl] at hf

theorem get?_of_leads_name (h : d.Leads p (.name n :: steps) q) : d.get? (p ++ [n]) ≠ none := by
  cases h with
  | enter hd _ => simp [hd]
  | follow hl _ => simp [hl]
  | file hf => simp [hf]

theorem Leads.append {m : Place} (h : d.Leads p steps m) (hm : d.get? m = some .dir)
    (h' : d.Leads m more q) : d.Leads p (steps ++ more) q := by
  induction h with
  | stay => exact h'
  | here _ ih => exact (ih hm h').here
  | up _ ih => exact (ih hm h').up
  | enter hd _ ih => exact (ih hm h').enter hd
  | follow hl _ ih =>
    have hrest := ih hm h'
    rw [List.append_assoc] at hrest
    exact hrest.follow hl
  | file hf => simp [hf] at hm

/-! ## Walks with more to come -/

/-- Walks pass through the directory that their first steps lead to, or they are refused, whatever is to
come. They are refused as "not found" only if those steps lead to no directory. Only a walk for a real
path may be refused for more. -/
def Passes (d : Disk) (links : Nat) (p : Place) (steps : List Step) : Prop :=
  (∃ m left, d.Leads p steps m ∧ d.get? m = some .dir ∧ ∀ mode ≠ .spell, ∀ more ≠ [], ∀ slash,
    d.walk mode links p (steps ++ more) slash = d.walk mode left m more slash) ∨
  ∃ e : IoError, e.kind ≠ .alreadyExists ∧
    (e.kind = .notFound → ∀ m, d.Leads p steps m → d.get? m ≠ some .dir) ∧
    ∀ mode ≠ .spell, ∀ more ≠ [], ∀ slash, d.walk mode links p (steps ++ more) slash = .error e

theorem passes_of_other {e : IoError} (he : e.kind = .other)
    (h : ∀ mode ≠ .spell, ∀ more ≠ [], ∀ slash,
      d.walk mode links p (steps ++ more) slash = .error e) : d.Passes links p steps :=
  .inr ⟨e, by simp [he], by simp [he], h⟩

theorem Passes.step {links' : Nat} {p' : Place} {steps' : List Step} (h : d.Passes links' p' steps')
    (hw : ∀ mode ≠ .spell, ∀ more ≠ [], ∀ slash,
      d.walk mode links p (steps ++ more) slash = d.walk mode links' p' (steps' ++ more) slash)
    (hl : ∀ {m}, d.Leads p steps m ↔ d.Leads p' steps' m) : d.Passes links p steps := by
  rcases h with ⟨m, left, hm, hdir, h⟩ | ⟨e, he, hno, h⟩
  · exact .inl ⟨m, left, hl.mpr hm, hdir, fun mode hmode more hmore slash =>
      (hw mode hmode more hmore slash).trans (h mode hmode more hmore slash)⟩
  · exact .inr ⟨e, he, fun hk m hm => hno hk m (hl.mp hm), fun mode hmode more hmore slash =>
      (hw mode hmode more hmore slash).trans (h mode hmode more hmore slash)⟩

theorem refuses_of_ne_spell {mode : LastName} (h : mode ≠ .spell) (p : Place) :
    mode.refuses p = false := by
  cases mode with
  | spell => exact (h rfl).elim
  | unseen | keep | follow | create => rfl

theorem passes (hp : d.get? p = some .dir) : d.Passes links p steps := by
  -- A link may bring in more steps than are left, but there is one link less to follow then.
  induction links using Nat.strongRecOn generalizing p steps with
  | ind links ihl =>
    induction steps generalizing p with
    | nil => exact .inl ⟨p, links, .stay p, hp, fun _ _ _ _ _ => rfl⟩
    | cons x steps ih =>
      have hne : ∀ {more : List Step}, more ≠ [] → steps ++ more ≠ [] := fun hmore => by simp [hmore]
      cases x with
      | here => exact (ih hp).step (fun _ _ _ hmore _ => walk_here (hne hmore)) leads_here_iff
      | up =>
        exact (ih (get?_dropLast_of_dir hp)).step (fun _ _ _ hmore _ => walk_up (hne hmore))
          leads_up_iff
      | name n =>
        by_cases hlong : maxNameLength < n.length
        · refine passes_of_other (e := .os Errno.nameTooLong) rfl fun mode hmode more hmore slash => ?_
          cases links <;> simp [walk, walkSteps, hne hmore, hlong]
        have hlen := Nat.not_lt.mp hlong
        have hpass := fun {mode : LastName} (hmode : mode ≠ .spell) =>
          refuses_of_ne_spell hmode (p ++ [n])
        cases hg : d.get? (p ++ [n]) with
        | none =>
          refine .inr ⟨.os Errno.noEntry, by decide, fun _ m hl => ?_,
            fun mode hmode more hmore slash => ?_⟩
          · exact (get?_of_leads_name hl hg).elim
          · cases links <;> simp [walk, walkSteps, hne hmore, hlong, hpass hmode, hg]
        | some entry =>
          cases entry with
          | dir =>
            exact (ih hg).step (fun _ hmode _ hmore _ => walk_dir hlen (hpass hmode) hg (hne hmore))
              (leads_dir_iff hg)
          | file contents =>
            refine passes_of_other (e := .os Errno.notDirectory) rfl
              fun mode hmode more hmore slash => ?_
            cases links <;> simp [walk, walkSteps, hne hmore, hlong, hpass hmode, hg]
          | link target =>
            cases links with
            | zero =>
              refine passes_of_other (e := .os Errno.tooManyLinks) rfl
                fun mode hmode more hmore slash => ?_
              simp [walk, walkSteps, hne hmore, hlong, hpass hmode, hg]
            | succ links =>
              have hfrom : d.get? (if target.route.absolute then [] else p) = some .dir := by
                split <;> simp [hp]
              refine (ihl links (Nat.lt_succ_self links) hfrom).step
                (fun mode hmode more hmore slash => ?_) (leads_link_iff hg)
              rw [List.cons_append, walk_link hlen (hpass hmode) hg (fun he => (hne hmore he).elim),
                if_neg (hne hmore), List.append_assoc]

theorem bytes_ne_nil_of_steps {path : Path} (h : path.route.steps ≠ []) : path.bytes ≠ [] := by
  intro hnil
  simp [Path.route, Path.pieces, hnil, Path.split] at h

theorem kind_of_admit {path : Path} {e : IoError} (hne : path.bytes ≠ [])
    (h : path.admit = .error e) : e.kind = .other := by
  by_cases hzero : (0 : UInt8) ∈ path.bytes
  · have hrefused : path.admit = .error .zeroByte := by
      simp [bind, Except.bind, Path.admit, Path.spelled, Path.requireNoZero, hzero]
    rw [hrefused] at h
    cases h
    rfl
  · have hspelled := spelled_eq_ok.mpr ⟨hzero, hne⟩
    by_cases hlen : maxPathLength ≤ path.bytes.length
    · simp only [bind, Except.bind, Path.admit, hspelled, if_pos hlen] at h
      cases h
      rfl
    · rw [admit_eq_ok hspelled (Nat.not_le.mp hlen)] at h
      cases h

theorem requireNoZero_eq_ok {path : Path} {route : Route} (h : path.admit = .ok route) :
    path.requireNoZero = .ok () := by
  obtain ⟨-, hspelled, -⟩ := route_of_admit h
  have hzero := (spelled_eq_ok.mp hspelled).1
  simp [Path.requireNoZero, hzero]

theorem admit_of_spot {path : Path} {s : Spot} (h : d.spot mode path = .ok s) :
    path.admit = .ok path.route := by
  obtain ⟨route, hr, -⟩ := bind_eq_ok_iff.mp h
  obtain ⟨rfl, -, -⟩ := route_of_admit hr
  exact hr

/-- The walks along a path with a last step come to that step, or are refused, as in `passes`. -/
theorem spot_cases {path : Path} {last : Step} (hsteps : path.route.steps = steps ++ [last]) :
    (∃ m left, path.admit = .ok path.route ∧ d.Leads [] steps m ∧ d.get? m = some .dir ∧
      ∀ mode ≠ .spell, d.spot mode path = d.walk mode left m [last] path.route.slash) ∨
    ∃ e : IoError, e.kind ≠ .alreadyExists ∧
      (e.kind = .notFound → ∀ m, d.Leads [] steps m → d.get? m ≠ some .dir) ∧
      ∀ mode ≠ .spell, d.spot mode path = .error e := by
  cases ha : path.admit with
  | error e =>
    have hother := kind_of_admit (bytes_ne_nil_of_steps (by simp [hsteps])) ha
    refine .inr ⟨e, by simp [hother], by simp [hother], fun mode _ => ?_⟩
    unfold spot
    simp [ha, bind, Except.bind]
  | ok route =>
    obtain ⟨rfl, -, -⟩ := route_of_admit ha
    have hspot : ∀ mode,
        d.spot mode path = d.walk mode maxLinks [] (steps ++ [last]) path.route.slash := by
      intro mode
      unfold spot
      simp [ha, bind, Except.bind, hsteps]
    have hmore : [last] ≠ [] := List.cons_ne_nil last []
    have hpasses : d.Passes maxLinks [] steps := passes d.get?_root
    rcases hpasses with ⟨m, left, hl, hm, hw⟩ | ⟨e, he, hno, hw⟩
    · exact .inl ⟨m, left, rfl, hl, hm, fun mode hmode =>
        (hspot mode).trans (hw mode hmode _ hmore _)⟩
    · exact .inr ⟨e, he, hno, fun mode hmode => (hspot mode).trans (hw mode hmode _ hmore _)⟩

/-! ## Making an entry -/

theorem walk_skipped_last (hs : mode.skips slash = true) :
    d.walk mode links p [.name n] slash = .ok ⟨p, some (.name n), slash⟩ := by
  cases links <;> simp [walk, walkSteps, hs]

@[simp] theorem walk_unseen_last :
    d.walk .unseen links p [.name n] slash = .ok ⟨p, some (.name n), slash⟩ :=
  walk_skipped_last rfl

/-- How a path comes to the place where something is made or taken away: its last step is a name, in
the directory that the steps before it lead to. -/
theorem spot_unseen_name {path : Path} {s : Spot} (hs : d.spot .unseen path = .ok s)
    (hn : s.last = some (.name n)) :
    ∃ steps, path.route.steps = steps ++ [.name n] ∧ d.Leads [] steps s.dir ∧
      s.slash = path.route.slash ∧ (n.length ≤ maxNameLength → ProperName n) := by
  rcases List.eq_nil_or_concat path.route.steps with hnil | ⟨steps, last, hsteps⟩
  · obtain ⟨route, ha, hs⟩ := bind_eq_ok_iff.mp hs
    obtain ⟨rfl, -, -⟩ := route_of_admit ha
    rw [hnil, walk_nil] at hs
    cases hs
    cases hn
  · rw [List.concat_eq_append] at hsteps
    obtain ⟨m, left, hroute, hl, -, hw⟩ | ⟨e, -, -, he⟩ := spot_cases (d := d) hsteps
    · obtain ⟨-, hspelled, -⟩ := route_of_admit hroute
      have hzero := (spelled_eq_ok.mp hspelled).1
      have hw := (hw .unseen (by decide)).symm.trans hs
      cases last with
      | here =>
        rw [walk_here_last] at hw
        cases hw
        cases hn
      | up =>
        rw [walk_up_last] at hw
        cases hw
        cases hn
      | name n =>
        rw [walk_unseen_last] at hw
        cases hw
        cases hn
        exact ⟨steps, hsteps, hl, rfl, Path.properName_of_mem_steps (by simp [hsteps]) hzero⟩
    · rw [he .unseen (by decide)] at hs
      cases hs

theorem length_le_of_lookUp {s : Spot} {found : Option Entry} (h : d.lookUp s n = .ok found) :
    n.length ≤ maxNameLength := by
  unfold lookUp at h
  split at h
  · cases h
  · next hlen => exact Nat.not_lt.mp hlen

/-- An entry is made at the last name of a path, in the directory that the path leads to before, and
nothing was there. -/
def MakesAt (d made : Disk) (path : Path) (e : Entry) : Prop :=
  ∃ steps n m, path.route.steps = steps ++ [.name n] ∧ d.Leads [] steps m ∧
    d.Writes made m n e ∧ d.get? (m ++ [n]) = none ∧ ProperName n

theorem makesAt_put {path : Path} {s : Spot} (hs : d.spot .unseen path = .ok s)
    (hn : s.last = some (.name n)) (hu : d.lookUp s n = .ok none) (e : Entry) :
    d.MakesAt (d.put s.place e) path e := by
  obtain ⟨steps, hsteps, hl, -, hname⟩ := spot_unseen_name hs hn
  obtain ⟨hp, hdir, hfree⟩ := free_of_lookUp hs hn hu
  exact ⟨steps, n, s.dir, hsteps, hl, hp ▸ writes_put e hdir (by simp [hfree]), hfree,
    hname (length_le_of_lookUp hu)⟩

theorem makeDir_ok {path : Path} {made : Disk} (h : d.makeDir path = .ok made) :
    d.MakesAt made path .dir := by
  obtain ⟨s, hs, h⟩ := bind_eq_ok_iff.mp h
  split at h
  · next n hn =>
    obtain ⟨found, hu, h⟩ := bind_eq_ok_iff.mp h
    split at h
    · cases h
      exact makesAt_put hs hn hu .dir
    · cases h
  · cases h

theorem makeLink_ok {held path : Path} {made : Disk} (h : d.makeLink held path = .ok made) :
    d.MakesAt made path (.link held) := by
  obtain ⟨-, -, h⟩ := bind_eq_ok_iff.mp h
  obtain ⟨-, -, h⟩ := bind_eq_ok_iff.mp h
  obtain ⟨-, -, h⟩ := bind_eq_ok_iff.mp h
  obtain ⟨s, hs, h⟩ := bind_eq_ok_iff.mp h
  split at h
  · next n hn =>
    obtain ⟨found, hu, h⟩ := bind_eq_ok_iff.mp h
    split at h
    · split at h
      · cases h
      · cases h
        exact makesAt_put hs hn hu _
    · cases h
  · cases h

theorem makeDir_not_notFound {path : Path} {last : Step} {m : Place} {e : IoError}
    (hsteps : path.route.steps = steps ++ [last]) (hl : d.Leads [] steps m)
    (hm : d.get? m = some .dir) (h : d.makeDir path = .error e) : e.kind ≠ .notFound := by
  have hother : ∀ {code : Int}, Except.error (IoError.os code) = (.error e : Except IoError Disk) →
      code ≠ 2 → e.kind ≠ .notFound := by
    rintro code he hcode
    cases he
    simp only [IoError.kind, if_neg hcode]
    split <;> [simp; split <;> simp]
  unfold makeDir at h
  obtain ⟨m', left, -, -, -, hw⟩ | ⟨e', -, hno, he'⟩ := spot_cases (d := d) hsteps
  · rw [hw .unseen (by decide)] at h
    cases last with
    | here =>
      rw [walk_here_last] at h
      exact hother h (by decide)
    | up =>
      rw [walk_up_last] at h
      exact hother h (by decide)
    | name n =>
      simp only [walk_unseen_last, bind, Except.bind, lookUp] at h
      split at h
      · next hu =>
        split at hu <;> cases hu
        exact hother h (by decide)
      · split at h
        · cases h
        · exact hother h (by decide)
  · simp only [he' .unseen (by decide), bind, Except.bind] at h
    cases h
    exact fun hk => hno hk m hl hm

/-! ## The entry at a last name -/

theorem locate_of_entry {path : Path} {e : Entry} (h : (d.locate mode path).map (·.2) = .ok e) :
    ∃ place, d.locate mode path = .ok (place, e) := by
  cases hp : d.locate mode path with
  | error err => simp [hp, Except.map] at h
  | ok found =>
    simp only [hp, Except.map, Except.ok.injEq] at h
    exact ⟨found.1, by rw [← h]⟩

theorem locate_of_lstat {path : Path} {e : Entry} (h : d.lstat path = .ok e) :
    ∃ place, d.locate .keep path = .ok (place, e) :=
  locate_of_entry h

theorem locate_of_stat {path : Path} {e : Entry} (h : d.stat path = .ok e) :
    ∃ place, d.locate .follow path = .ok (place, e) :=
  locate_of_entry h

/-- What a path means whose last step is a name, unless that is a link to be followed. -/
theorem locate_keep_eq {path : Path} {found : Place × Entry} {e : Entry}
    (h : d.locate .keep path = .ok found) (hsteps : path.route.steps = steps ++ [.name n])
    (hl : d.Leads [] steps p) (hlen : n.length ≤ maxNameLength) (he : d.get? (p ++ [n]) = some e)
    (hlink : path.route.slash = false ∨ e = .dir) : found = (p ++ [n], e) := by
  have hend : ∃ left, d.spot .keep path = d.walk .keep left p [.name n] path.route.slash := by
    obtain ⟨m, left, -, hl', -, hw⟩ | ⟨err, -, -, herr⟩ := spot_cases (d := d) hsteps
    · obtain rfl := hl.unique hl'
      exact ⟨left, hw .keep (by decide)⟩
    · unfold locate at h
      simp [herr .keep (by decide), bind, Except.bind] at h
  obtain ⟨left, hspot⟩ := hend
  have hkeep : LastName.keep.keeps path.route.slash = true ∨
      ∀ target, d.get? (p ++ [n]) ≠ some (.link target) := by
    rcases hlink with hslash | rfl
    · exact .inl (by simp [LastName.keeps, hslash])
    · exact .inr (by simp [he])
  rw [walk_last hlen rfl rfl hkeep] at hspot
  obtain ⟨q, e'⟩ := found
  unfold locate at h
  simp only [hspot, bind, Except.bind] at h
  obtain rfl : q = p ++ [n] := place_of_arrive h
  have he' := get?_of_arrive h
  rw [he] at he'
  cases he'
  rfl

theorem walk_keep_slash : d.walk .keep links p steps true = d.walk .follow links p steps true := by
  have hsteps : ∀ {onLink onLink' : Place → List Step → Bool → Except IoError Spot},
      (∀ place steps, onLink place steps true = onLink' place steps true) → ∀ {p steps},
      d.walkSteps .keep onLink p steps true = d.walkSteps .follow onLink' p steps true := by
    intro onLink onLink' h p steps
    induction steps generalizing p with
    | nil => rfl
    | cons x steps ih =>
      cases x <;>
        simp [walkSteps, ih, h, LastName.skips, LastName.keeps, LastName.refuses]
  induction links generalizing p steps with
  | zero => exact hsteps fun _ _ => rfl
  | succ links ih => exact hsteps fun _ _ => ih

theorem spot_keep_slash {path : Path} (h : path.route.slash = true) :
    d.spot .keep path = d.spot .follow path := by
  unfold spot
  cases ha : path.admit with
  | error e => simp [bind, Except.bind]
  | ok route =>
    obtain ⟨rfl, -, -⟩ := route_of_admit ha
    simp [bind, Except.bind, h, walk_keep_slash]

theorem spot_of_steps_nil {path : Path} (h : path.route.steps = []) (mode mode' : LastName) :
    d.spot mode path = d.spot mode' path := by
  unfold spot
  cases ha : path.admit with
  | error e => simp [bind, Except.bind]
  | ok route =>
    obtain ⟨rfl, -, -⟩ := route_of_admit ha
    simp [bind, Except.bind, h]

theorem walk_name_long (hlen : maxNameLength < n.length) (hs : mode.skips slash = false) :
    d.walk mode links p [.name n] slash = .error (.os Errno.nameTooLong) := by
  cases links <;> simp [walk, walkSteps, hlen, hs]

theorem spot_follow_of_keep {path : Path} {s : Spot} (h : d.spot .keep path = .ok s)
    (hlink : ∀ target, d.get? s.place ≠ some (.link target)) : d.spot .follow path = .ok s := by
  cases hslash : path.route.slash with
  | true => rwa [← spot_keep_slash hslash]
  | false =>
    rcases List.eq_nil_or_concat path.route.steps with hnil | ⟨steps, last, hsteps⟩
    · rwa [spot_of_steps_nil hnil .follow .keep]
    rw [List.concat_eq_append] at hsteps
    obtain ⟨m, left, -, -, -, hw⟩ | ⟨e, -, -, he⟩ := spot_cases (d := d) hsteps
    · rw [hw .keep (by decide), hslash] at h
      rw [hw .follow (by decide), hslash]
      cases last with
      | here => simpa using h
      | up => simpa using h
      | name n =>
        by_cases hlen : maxNameLength < n.length
        · rw [walk_name_long hlen rfl] at h
          cases h
        · have hlen := Nat.not_lt.mp hlen
          rw [walk_last hlen rfl rfl (.inl rfl)] at h
          cases h
          exact walk_last hlen rfl rfl (.inr hlink)
    · rw [he .keep (by decide)] at h
      cases h

theorem locate_follow_of_keep {path : Path} {q : Place} {e : Entry}
    (h : d.locate .keep path = .ok (q, e)) (he : ∀ target, e ≠ .link target) :
    d.locate .follow path = .ok (q, e) := by
  obtain ⟨s, hs, harrive⟩ := bind_eq_ok_iff.mp h
  have hplace := place_of_arrive harrive
  have hentry := get?_of_arrive harrive
  have hfollow := spot_follow_of_keep hs fun target hl => by
    rw [← hplace, hentry] at hl
    exact he target (Option.some.inj hl)
  exact bind_eq_ok_iff.mpr ⟨s, hfollow, harrive⟩

theorem stat_of_lstat {path : Path} {e : Entry} (h : d.lstat path = .ok e)
    (he : ∀ target, e ≠ .link target) : d.stat path = .ok e := by
  obtain ⟨place, hplace⟩ := locate_of_lstat h
  simp [stat, locate_follow_of_keep hplace he, Except.map]

/-- There is an entry at the spot that the path may mean. -/
def Arrives (d : Disk) (s : Spot) : Prop := ∃ found, d.arrive s = .ok found

/-- A walk that follows a last link ends at an entry; the one that does not follow it does as well, be
it at the link. -/
theorem arrives_keep {path : Path} {s : Spot} (h : d.spot mode path = .ok s) (ha : d.Arrives s)
    (hm : mode = .follow ∨ mode = .create ∧ s.slash = false) :
    ∃ s', d.spot .keep path = .ok s' ∧ d.Arrives s' := by
  have hmode : mode ≠ .spell := by rcases hm with rfl | ⟨rfl, -⟩ <;> decide
  rcases List.eq_nil_or_concat path.route.steps with hnil | ⟨steps, last, hsteps⟩
  · exact ⟨s, (spot_of_steps_nil hnil .keep mode).trans h, ha⟩
  rw [List.concat_eq_append] at hsteps
  obtain ⟨m, left, -, -, -, hw⟩ | ⟨e, -, -, he⟩ := spot_cases (d := d) hsteps
  · have hwalk := (hw mode hmode).symm.trans h
    have hkeep := hw .keep (by decide)
    cases last with
    | here =>
      rw [walk_here_last] at hwalk hkeep
      exact ⟨s, hkeep.trans hwalk, ha⟩
    | up =>
      rw [walk_up_last] at hwalk hkeep
      exact ⟨s, hkeep.trans hwalk, ha⟩
    | name n =>
      cases hslash : path.route.slash with
      | true =>
        rcases hm with rfl | ⟨rfl, hcreate⟩
        · exact ⟨s, (spot_keep_slash hslash).trans h, ha⟩
        · -- A name with a separator behind it is not looked up when a file is to be created.
          rw [hslash, walk_skipped_last rfl] at hwalk
          cases hwalk
          cases hcreate
      | false =>
        have hskip : mode.skips false = false := by rcases hm with rfl | ⟨rfl, -⟩ <;> rfl
        rw [hslash] at hwalk hkeep
        by_cases hlen : maxNameLength < n.length
        · rw [walk_name_long hlen hskip] at hwalk
          cases hwalk
        · have hlen := Nat.not_lt.mp hlen
          rw [walk_last hlen rfl rfl (.inl rfl)] at hkeep
          refine ⟨_, hkeep, ?_⟩
          cases hg : d.get? (m ++ [n]) with
          | some e => exact ⟨_, arrive_name hg⟩
          | none =>
            rw [walk_last hlen (refuses_of_ne_spell hmode _) hskip (.inr (by simp [hg]))] at hwalk
            cases hwalk
            exact ha
  · rw [he mode hmode] at h
    cases h

theorem present_iff {path : Path} :
    d.present path = true ↔ ∃ s, d.spot .keep path = .ok s ∧ d.Arrives s := by
  unfold present lstat locate
  cases hs : d.spot .keep path with
  | error err => simp [bind, Except.bind, Except.map, Except.toBool]
  | ok s =>
    have harrives : d.Arrives s ↔ (d.arrive s).toBool = true := by
      unfold Arrives
      cases d.arrive s <;> simp [Except.toBool]
    cases ha : d.arrive s <;> simp [bind, Except.bind, Except.map, Except.toBool, harrives, ha]

theorem present_of_spot {path : Path} {s : Spot} (h : d.spot mode path = .ok s) (ha : d.Arrives s)
    (hm : mode = .follow ∨ mode = .create ∧ s.slash = false) : d.present path = true := by
  exact present_iff.mpr (arrives_keep h ha hm)

theorem present_of_stat {path : Path} {e : Entry} (h : d.stat path = .ok e) :
    d.present path = true := by
  obtain ⟨place, hlocate⟩ := locate_of_stat h
  obtain ⟨s, hs, harrive⟩ := bind_eq_ok_iff.mp hlocate
  exact present_of_spot hs ⟨_, harrive⟩ (.inl rfl)

/-- Looking at an entry is looking up the last name of its path, where no separator follows that. -/
theorem locate_keep_of_unseen {path : Path} {s : Spot} (hs : d.spot .unseen path = .ok s)
    (hn : s.last = some (.name n)) (hslash : s.slash = false) :
    d.locate .keep path =
      match d.lookUp s n with
      | .error e => .error e
      | .ok none => .error (.os Errno.noEntry)
      | .ok (some e) => .ok (s.place, e) := by
  obtain ⟨steps, hsteps, hl, hroute, -⟩ := spot_unseen_name hs hn
  obtain ⟨m, left, -, hl', -, hw⟩ | ⟨e, -, -, he⟩ := spot_cases (d := d) hsteps
  · obtain rfl := hl.unique hl'
    have hkeep := hw .keep (by decide)
    rw [← hroute, hslash] at hkeep
    have hplace := Spot.place_of_name hn
    unfold locate lookUp
    by_cases hlen : maxNameLength < n.length
    · rw [hkeep, walk_name_long hlen rfl, if_pos hlen]
      rfl
    · rw [hkeep, walk_last (Nat.not_lt.mp hlen) rfl rfl (.inl rfl), if_neg hlen, hplace]
      cases hg : d.get? (s.dir ++ [n]) with
      | none => simp [bind, Except.bind, arrive, Spot.place, hg]
      | some e => simp [bind, Except.bind, arrive_name hg]
  · rw [he .unseen (by decide)] at hs
    cases hs

/-- Where a name is free, a file is created at the name itself. -/
theorem spot_create_of_unseen {path : Path} {s : Spot} (hs : d.spot .unseen path = .ok s)
    (hn : s.last = some (.name n)) (hslash : s.slash = false) (hu : d.lookUp s n = .ok none) :
    d.spot .create path = .ok s := by
  obtain ⟨steps, hsteps, hl, hroute, -⟩ := spot_unseen_name hs hn
  obtain ⟨m, left, -, hl', -, hw⟩ | ⟨e, -, -, he⟩ := spot_cases (d := d) hsteps
  · obtain rfl := hl.unique hl'
    have hunseen := (hw .unseen (by decide)).symm.trans hs
    have hfree : d.get? (s.dir ++ [n]) = none := Spot.place_of_name hn ▸ lookUp_eq_none hu
    rw [walk_unseen_last] at hunseen
    rw [hw .create (by decide), ← hroute, hslash,
      walk_last (length_le_of_lookUp hu) rfl rfl (.inr (by simp [hfree]))]
    rwa [← hroute, hslash] at hunseen
  · rw [he .unseen (by decide)] at hs
    cases hs

theorem spot_unseen_unique {d' : Disk} {path : Path} {s s' : Spot} {n' : Name}
    (hs : d.spot .unseen path = .ok s) (hn : s.last = some (.name n))
    (hs' : d'.spot .unseen path = .ok s') (hn' : s'.last = some (.name n')) (hkeeps : d'.Keeps d) :
    s' = s ∧ n' = n := by
  obtain ⟨steps, hsteps, hl, hslash, -⟩ := spot_unseen_name hs hn
  obtain ⟨steps', hsteps', hl', hslash', -⟩ := spot_unseen_name hs' hn'
  obtain ⟨rfl, hlast⟩ := List.append_inj' (hsteps.symm.trans hsteps') rfl
  cases hlast
  have hdir := hl.unique (hl'.mono hkeeps.retains)
  obtain ⟨dir, last, slash⟩ := s
  obtain ⟨dir', last', slash'⟩ := s'
  simp_all

/-! ## More entries -/

/-- What a walk passes and ends at, it passes and ends at with more entries on the disk as well. -/
theorem walkSteps_keeps {d' : Disk} (hk : d.Keeps d')
    {onLink onLink' : Place → List Step → Bool → Except IoError Spot}
    (hl : ∀ place steps slash s, onLink place steps slash = .ok s →
      (mode = .unseen ∨ d.Arrives s) → onLink' place steps slash = .ok s)
    {s : Spot} (h : d.walkSteps mode onLink p steps slash = .ok s)
    (ha : mode = .unseen ∨ d.Arrives s) : d'.walkSteps mode onLink' p steps slash = .ok s := by
  induction steps generalizing p with
  | nil => exact h
  | cons x steps ih =>
    cases x with
    | here =>
      rw [walkSteps] at h ⊢
      split at h
      · next hnil => rwa [if_pos hnil]
      · next hne =>
        rw [if_neg hne]
        exact ih h
    | up =>
      rw [walkSteps] at h ⊢
      split at h
      · next hnil => rwa [if_pos hnil]
      · next hne =>
        rw [if_neg hne]
        exact ih h
    | name n =>
      rw [walkSteps] at h ⊢
      split at h
      · next hskip => rwa [if_pos hskip]
      next hskip =>
      rw [if_neg hskip]
      split at h
      · cases h
      next hlimit =>
      rw [if_neg hlimit]
      split at h
      · next target hlink =>
        rw [hk _ _ hlink]
        dsimp only
        split at h
        · next hkeep => rwa [if_pos hkeep]
        · next hgo =>
          rw [if_neg hgo]
          exact hl _ _ _ _ h ha
      · next hother =>
        split at h
        · next hnil =>
          -- The walk ends at an entry, as it would not have been looked up otherwise.
          rcases ha with rfl | ⟨found, ha⟩
          · exact (hskip ⟨hnil, rfl⟩).elim
          · cases h
            obtain ⟨q, e⟩ := found
            have he := get?_of_arrive ha
            rw [place_of_arrive ha] at he
            change d.get? (p ++ [n]) = some e at he
            rw [hk _ _ he]
            cases e with
            | link target => exact (hother target he).elim
            | dir | file => simp only [if_pos hnil]
        · next hne =>
          split at h
          · next hdir =>
            rw [hk _ _ hdir]
            dsimp only
            rw [if_neg hne]
            exact ih h
          · cases h
          · cases h

theorem walk_keeps {d' : Disk} (hk : d.Keeps d') {s : Spot}
    (h : d.walk mode links p steps slash = .ok s) (ha : mode = .unseen ∨ d.Arrives s) :
    d'.walk mode links p steps slash = .ok s := by
  induction links generalizing p steps slash s with
  | zero => exact walkSteps_keeps hk (fun _ _ _ _ h => by cases h) h ha
  | succ links ih => exact walkSteps_keeps hk (fun _ _ _ _ h ha => ih h ha) h ha

theorem spot_keeps {d' : Disk} (hk : d.Keeps d') {path : Path} {s : Spot}
    (h : d.spot mode path = .ok s) (ha : mode = .unseen ∨ d.Arrives s) :
    d'.spot mode path = .ok s := by
  obtain ⟨route, hroute, hwalk⟩ := bind_eq_ok_iff.mp h
  exact bind_eq_ok_iff.mpr ⟨route, hroute, walk_keeps hk hwalk ha⟩

theorem locate_keeps {d' : Disk} (hk : d.Keeps d') {path : Path} {q : Place} {e : Entry}
    (h : d.locate mode path = .ok (q, e)) : d'.locate mode path = .ok (q, e) := by
  obtain ⟨s, hs, harrive⟩ := bind_eq_ok_iff.mp h
  have hmore : d'.arrive s = .ok (q, e) := by
    have he := get?_of_arrive harrive
    rw [place_of_arrive harrive] at he
    unfold arrive at harrive ⊢
    rwa [hk _ _ he, ← he]
  exact bind_eq_ok_iff.mpr ⟨s, spot_keeps hk hs (.inr ⟨_, harrive⟩), hmore⟩

theorem lstat_keeps {d' : Disk} (hk : d.Keeps d') {path : Path} {e : Entry}
    (h : d.lstat path = .ok e) : d'.lstat path = .ok e := by
  obtain ⟨place, hplace⟩ := locate_of_lstat h
  simp [lstat, locate_keeps hk hplace, Except.map]

theorem stat_keeps {d' : Disk} (hk : d.Keeps d') {path : Path} {e : Entry}
    (h : d.stat path = .ok e) : d'.stat path = .ok e := by
  obtain ⟨place, hplace⟩ := locate_of_stat h
  simp [stat, locate_keeps hk hplace, Except.map]

end Disk

end TreeGlob
