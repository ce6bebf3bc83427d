import Mathlib.Data.List.TakeWhile
import TreeGlob.Proofs.Disk.Arrival

/-!
Making a directory together with those above it.

* `Path.pieces_parent` says what a path and its parent have in common.
* `AddsDirectories` is all that can happen to a disk: there are directories where nothing was.
* `leads_of_makeDirectories` says where the path leads afterwards. Without `..` in it, that is a new
  directory, unless the path named an entry before.
* `makeDirectories_child` is the case of one more name below a directory.
-/
namespace TreeGlob

namespace Path

/-! ## The parent of a path -/

theorem pieces_append_separator (bs : Bytes) : pieces ⟨bs ++ [separator]⟩ = pieces ⟨bs⟩ := by
  simp [pieces, split_append, split]

theorem pieces_append_piece (bs : Bytes) {n : Name} (hne : n ≠ []) (hn : separator ∉ n) :
    pieces ⟨bs ++ separator :: n⟩ = pieces ⟨bs⟩ ++ [n] := by
  simp [pieces, split_append, split_of_not_mem hn, hne]

theorem pieces_of_not_mem {n : Name} (hne : n ≠ []) (hn : separator ∉ n) : pieces ⟨n⟩ = [n] := by
  simp [pieces, split_of_not_mem hn, hne]

theorem pieces_dropTrailing (reversed : Bytes) : ∃ k, pieces ⟨reversed.reverse⟩ =
    pieces ⟨(dropTrailing reversed).reverse⟩ ++ List.replicate k [dot] := by
  induction reversed with
  | nil => exact ⟨0, by simp [dropTrailing]⟩
  | cons b rest ih =>
    obtain ⟨k, hk⟩ := ih
    rw [dropTrailing]
    split
    · next hb =>
      subst hb
      exact ⟨k, by rw [List.reverse_cons, pieces_append_separator, hk]⟩
    · split
      · next hdot =>
        obtain ⟨rfl, hhead⟩ := hdot
        obtain ⟨rest, rfl⟩ := List.head?_eq_some_iff.mp hhead
        refine ⟨k + 1, ?_⟩
        have hdots : separator ∉ [dot] := by decide
        rw [List.reverse_cons, pieces_append_separator] at hk
        rw [List.reverse_cons, List.reverse_cons, List.append_assoc, List.singleton_append,
          pieces_append_piece _ (by simp) hdots, hk, List.append_assoc, List.replicate_succ']
      · exact ⟨0, by simp⟩

theorem head_dropTrailing {reversed rest : Bytes} {b : UInt8} (h : dropTrailing reversed = b :: rest) :
    b ≠ separator := by
  induction reversed with
  | nil => cases h
  | cons c reversed ih =>
    rw [dropTrailing] at h
    split at h
    · exact ih h
    · next hc =>
      split at h
      · exact ih h
      · cases h
        exact hc

theorem pieces_dropWhile {reversed : Bytes} (h : ∀ b rest, reversed = b :: rest → b ≠ separator)
    (hne : reversed ≠ []) : ∃ n, pieces ⟨reversed.reverse⟩ =
      pieces ⟨(reversed.dropWhile (· ≠ separator)).reverse⟩ ++ [n] := by
  have hcut := List.takeWhile_append_dropWhile (p := (· ≠ separator)) (l := reversed)
  have hsep : separator ∉ (reversed.takeWhile (· ≠ separator)).reverse := by
    rw [List.mem_reverse]
    intro hmem
    simpa using List.mem_takeWhile_imp hmem
  have hpiece : (reversed.takeWhile (· ≠ separator)).reverse ≠ [] := by
    obtain ⟨b, rest, rfl⟩ := List.exists_cons_of_ne_nil hne
    simp [h b rest rfl]
  refine ⟨(reversed.takeWhile (· ≠ separator)).reverse, ?_⟩
  conv_lhs => rw [← hcut]
  rw [List.reverse_append]
  cases hback : reversed.dropWhile (· ≠ separator) with
  | nil => simpa [pieces, split] using pieces_of_not_mem hpiece hsep
  | cons b back =>
    have hb : b = separator := by
      have hnot := List.head_dropWhile_not (l := reversed) (fun b => decide (b ≠ separator))
        (by simp only [hback]; exact List.cons_ne_nil b back)
      simp only [hback, List.head_cons] at hnot
      simpa using hnot
    subst hb
    rw [List.reverse_cons, List.append_assoc, List.singleton_append, pieces_append_piece _ hpiece hsep,
      pieces_append_separator]

/-- A path has one more piece than its parent, and perhaps dots around it. -/
theorem pieces_parent {p q : Path} (h : p.parent? = some q) : ∃ j n k,
    p.pieces = q.pieces ++ List.replicate j [dot] ++ n :: List.replicate k [dot] := by
  obtain ⟨k, hk⟩ := pieces_dropTrailing p.bytes.reverse
  unfold parent? at h
  split at h
  · cases h
  next hne =>
  obtain ⟨n, hn⟩ := pieces_dropWhile (fun b rest => head_dropTrailing) hne
  obtain ⟨j, hj⟩ := pieces_dropTrailing
    ((dropTrailing p.bytes.reverse).dropWhile (· ≠ separator))
  refine ⟨j, n, k, ?_⟩
  have hq : q.pieces = pieces ⟨(dropTrailing ((dropTrailing p.bytes.reverse).dropWhile
      (· ≠ separator))).reverse⟩ := by
    split at h
    · next hnil =>
      cases h
      rw [hnil]
      rfl
    · cases h
      rfl
  rw [List.reverse_reverse] at hk
  rw [hq, ← hj]
  exact hk.trans (by rw [hn, List.append_assoc]; rfl)

theorem isChain_ancestorsWithin (count : Nat) (p : Path) :
    (ancestorsWithin count p).IsChain fun x y => x.parent? = some y := by
  induction count generalizing p with
  | zero => exact .singleton p
  | succ count ih =>
    rw [ancestorsWithin]
    split
    · exact .singleton p
    · next q hq =>
      cases count with
      | zero => exact .cons_cons hq (.singleton q)
      | succ count =>
        have hrest := ih q
        rw [ancestorsWithin] at hrest ⊢
        split at hrest <;> exact .cons_cons hq hrest

theorem ancestors_eq_cons (p : Path) : ∃ above, p.ancestors = p :: above := by
  unfold ancestors
  cases p.bytes.length with
  | zero => exact ⟨[], rfl⟩
  | succ count =>
    rw [ancestorsWithin]
    split
    · exact ⟨[], rfl⟩
    · exact ⟨_, rfl⟩

theorem steps_parent {p q : Path} (h : p.parent? = some q) : ∃ j x k, p.route.steps =
    q.route.steps ++ List.replicate j .here ++ x :: List.replicate k .here := by
  obtain ⟨j, n, k, hpieces⟩ := pieces_parent h
  have hdot : Step.ofPiece [dot] = .here := rfl
  exact ⟨j, Step.ofPiece n, k, by simp [route, hpieces, hdot]⟩

theorem steps_of_mem_ancestorsWithin {count : Nat} {p q : Path} (h : q ∈ p.ancestorsWithin count) :
    q.route.steps <+: p.route.steps := by
  induction count generalizing p with
  | zero =>
    obtain rfl := List.mem_singleton.mp h
    exact List.prefix_rfl
  | succ count ih =>
    rw [ancestorsWithin] at h
    split at h
    · obtain rfl := List.mem_singleton.mp h
      exact List.prefix_rfl
    · next above habove =>
      obtain rfl | h := List.mem_cons.mp h
      · exact List.prefix_rfl
      · obtain ⟨j, x, k, hsteps⟩ := steps_parent habove
        rw [hsteps, List.append_assoc]
        exact (ih h).trans (List.prefix_append _ _)

theorem steps_of_mem_ancestors {p q : Path} (h : q ∈ p.ancestors) : q.route.steps <+: p.route.steps :=
  steps_of_mem_ancestorsWithin h

end Path

namespace Disk

/-! ## What making directories does -/

/-- Nothing changed, but there are directories where nothing was. -/
structure AddsDirectories (d d' : Disk) : Prop where
  get?_cases : ∀ q, d'.get? q = d.get? q ∨ d.get? q = none ∧ d'.get? q = some .dir
  lawful : d.Lawful → d'.Lawful

variable {d d' d'' made : Disk} {p path : Path} {place : Place}

theorem AddsDirectories.refl (d : Disk) : d.AddsDirectories d := ⟨fun _ => .inl rfl, id⟩

theorem AddsDirectories.trans (h : d.AddsDirectories d') (h' : d'.AddsDirectories d'') :
    d.AddsDirectories d'' where
  get?_cases q := by
    rcases h.get?_cases q with hq | ⟨hnone, hdir⟩
    · exact hq ▸ h'.get?_cases q
    · rcases h'.get?_cases q with hq' | ⟨hnone', -⟩
      · exact .inr ⟨hnone, hq'.trans hdir⟩
      · simp [hdir] at hnone'
  lawful := h'.lawful ∘ h.lawful

theorem AddsDirectories.keeps (h : d.AddsDirectories d') : d.Keeps d' := by
  intro q e he
  rcases h.get?_cases q with hq | ⟨hnone, -⟩
  · rw [hq, he]
  · simp [hnone] at he

theorem addsDirectories_of_makeDir (h : d.makeDir path = .ok made) : d.AddsDirectories made := by
  obtain ⟨_, n, m, -, -, hw, hn, hname⟩ := makeDir_ok h
  refine ⟨fun q => ?_, hw.lawful hname⟩
  by_cases hq : q = m ++ [n]
  · exact .inr (hq ▸ ⟨hn, hw.get?_self⟩)
  · exact .inl (hw.get?_of_ne hq)

theorem addsDirectories_makeDirectories (d : Disk) (path : Path) :
    d.AddsDirectories ((Action.makeDirectories path).runOn d).2 :=
  Action.maintains_makeDirectories .refl (fun _ _ _ h h' => h.trans h')
    (fun _ _ _ h => addsDirectories_of_makeDir h) path d

/-- A directory was made at the path, or the path led to one. -/
def Ensures (d made : Disk) (path : Path) : Prop :=
  d.makeDir path = .ok made ∨ made = d ∧ d.isDirectory path = true

theorem Ensures.adds (h : d.Ensures made path) : d.AddsDirectories made := by
  rcases h with h | ⟨rfl, -⟩
  · exact addsDirectories_of_makeDir h
  · exact .refl _

theorem Ensures.leads (h : d.Ensures made path) :
    ∃ place, made.Leads [] path.route.steps place ∧ made.get? place = some .dir ∧
      (d.get? place = none ∨ made = d ∧ d.isDirectory path = true) := by
  rcases h with h | ⟨rfl, h⟩
  · obtain ⟨steps, n, m, hsteps, hl, hw, hn, -⟩ := makeDir_ok h
    have hr := (hw.keeps hn).retains
    refine ⟨m ++ [n], ?_, hw.get?_self, .inl hn⟩
    rw [hsteps]
    exact (hl.mono hr).append (hr.get?_dir hw.get?_dir) ((Leads.stay _).enter hw.get?_self)
  · obtain ⟨q, hq⟩ := locate_of_isDirectory h
    exact ⟨q, leads_of_locate hq, get?_of_locate hq, .inr ⟨rfl, h⟩⟩

theorem ensures_of_ensureDirectory {dir : Path}
    (h : (Action.ensureDirectory path dir).runOn d = (.ok (), made)) :
    d.Ensures made dir ∧ ∀ e, d.makeDir dir = .error e → e.kind = .alreadyExists := by
  unfold Action.ensureDirectory at h
  rw [Action.runOn_get_bind] at h
  split at h
  · next hm =>
    cases h
    exact ⟨.inl hm, fun e he => by simp [hm] at he⟩
  · next e hm =>
    split at h
    · next hthere =>
      cases h
      refine ⟨.inr ⟨rfl, hthere.2⟩, fun e' he => ?_⟩
      rw [hm] at he
      cases he
      exact hthere.1
    · cases h

/-- Going up stops at a directory that is made or there; those that were passed are missing. -/
theorem climb_cases {ps missing left : List Path}
    (h : Action.climb d ps missing = .ok (made, left)) : ∃ passed rest,
      ps = passed ++ rest ∧ left = passed.reverse ++ missing ∧
      (∀ x ∈ passed, ∃ e, d.makeDir x = .error e ∧ e.kind = .notFound) ∧
      (rest = [] ∧ made = d ∨ ∃ r rs, rest = r :: rs ∧ d.Ensures made r) := by
  induction ps generalizing missing with
  | nil =>
    cases h
    exact ⟨[], [], rfl, rfl, by simp, .inl ⟨rfl, rfl⟩⟩
  | cons x above ih =>
    rw [Action.climb] at h
    split at h
    · next hm =>
      cases h
      exact ⟨[], x :: above, rfl, rfl, by simp, .inr ⟨x, above, rfl, .inl hm⟩⟩
    · next e hm =>
      split at h
      · next hkind =>
        obtain ⟨passed, rest, rfl, rfl, hpassed, hrest⟩ := ih h
        exact ⟨x :: passed, rest, rfl, by simp,
          List.forall_mem_cons.mpr ⟨⟨e, hm, hkind⟩, hpassed⟩, hrest⟩
      · split at h
        · next hdir =>
          cases h
          exact ⟨[], x :: above, rfl, rfl, by simp, .inr ⟨x, above, rfl, .inr ⟨rfl, hdir⟩⟩⟩
        · cases h
      · cases h

theorem leads_replicate_here_iff {m q : Place} {j : Nat} {steps : List Step} :
    d.Leads m (List.replicate j .here ++ steps) q ↔ d.Leads m steps q := by
  induction j with
  | zero => rfl
  | succ j ih => rw [List.replicate_succ, List.cons_append, leads_here_iff, ih]

/-- Below a new directory there is nothing but new directories, and only `..` leads out of it. -/
theorem new_of_parent {x y : Path} {m : Place} (h : d.AddsDirectories made)
    (hparent : x.parent? = some y) (hup : .up ∉ x.route.steps) (hy : made.Leads [] y.route.steps m)
    (hm : d.get? m = none) (hx : made.Leads [] x.route.steps place) : d.get? place = none := by
  obtain ⟨j, step, k, hsteps⟩ := Path.steps_parent hparent
  rw [hsteps, List.append_assoc] at hx
  obtain ⟨m', hfirst, hrest⟩ := hx.split
  obtain rfl := hfirst.unique hy
  rw [leads_replicate_here_iff] at hrest
  have hend : ∀ {q}, made.Leads q (List.replicate k .here) place → place = q := by
    intro q hq
    rw [← List.append_nil (List.replicate k _), leads_replicate_here_iff] at hq
    exact hq.unique (.stay q)
  cases step with
  | up => simp [hsteps] at hup
  | here =>
    rw [leads_here_iff] at hrest
    rwa [hend hrest]
  | name n =>
    have hnone : d.get? (m' ++ [n]) = none := by
      by_contra hne
      have habove := get?_above hne (by simp)
      simp [hm] at habove
    rcases h.get?_cases (m' ++ [n]) with hsame | ⟨-, hdir⟩
    · rw [hnone] at hsame
      exact (get?_of_leads_name hrest hsame).elim
    · rw [leads_dir_iff hdir] at hrest
      rwa [hend hrest]

theorem leads_of_passed {passed rs : List Path} {r : Path} {stopped : Disk}
    (hchain : (passed ++ r :: rs).IsChain fun x y => x.parent? = some y)
    (hpassed : ∀ x ∈ passed, ∃ e, d.makeDir x = .error e ∧ e.kind = .notFound)
    (hr : d.Ensures stopped r)
    (hrun : (passed.reverse.forM (Action.ensureDirectory path)).runOn stopped = (.ok (), made)) :
    ∃ x above place, passed ++ r :: rs = x :: above ∧ made.Leads [] x.route.steps place ∧
      made.get? place = some .dir ∧ d.AddsDirectories made ∧
      (.up ∉ x.route.steps →
        d.get? place = none ∨ passed = [] ∧ made = d ∧ d.isDirectory x = true) := by
  induction passed generalizing made with
  | nil =>
    cases hrun
    obtain ⟨place, hl, hdir, hnew⟩ := hr.leads
    exact ⟨r, rs, place, rfl, hl, hdir, hr.adds, fun _ => hnew.imp_right fun h => ⟨rfl, h⟩⟩
  | cons x passed ih =>
    obtain ⟨⟨e, he, hkind⟩, hpassed⟩ := List.forall_mem_cons.mp hpassed
    rw [List.reverse_cons, List.forM_eq_forM, List.forM_append, List.forM_cons, List.forM_nil] at hrun
    rcases hback : (forM passed.reverse (Action.ensureDirectory path)).runOn stopped with ⟨r', between⟩
    cases r' with
    | error err =>
      rw [Action.runOn_bind_error hback] at hrun
      cases hrun
    | ok u =>
      rw [Action.runOn_bind_ok hback, bind_pure] at hrun
      obtain ⟨y, above, hy⟩ : ∃ y above, passed ++ r :: rs = y :: above :=
        List.exists_cons_of_ne_nil (by simp)
      rw [List.cons_append, hy, List.isChain_cons_cons, ← hy] at hchain
      obtain ⟨hparent, hchain⟩ := hchain
      obtain ⟨y', above', m, hy', hl, hdir, hadds, hnew⟩ := ih hchain hpassed hback
      obtain ⟨rfl, -⟩ := List.cons.inj (hy'.symm.trans hy)
      obtain ⟨hensures, hthere⟩ := ensures_of_ensureDirectory hrun
      obtain ⟨place, hlx, hdirx, -⟩ := hensures.leads
      have hmade := hensures.adds
      refine ⟨x, passed ++ r :: rs, place, rfl, hlx, hdirx, hadds.trans hmade, fun hup => .inl ?_⟩
      have hupy : .up ∉ y'.route.steps := by
        obtain ⟨j, step, k, hsteps⟩ := Path.steps_parent hparent
        rw [hsteps] at hup
        simp only [List.mem_append, not_or] at hup
        exact hup.1.1
      rcases hnew hupy with hm | ⟨-, rfl, -⟩
      · exact new_of_parent (hadds.trans hmade) hparent hup (hl.mono hmade.keeps.retains) hm hlx
      · -- Nothing had changed, so that making the directory would have failed again.
        have hagain := hthere e he
        rw [hkind] at hagain
        cases hagain

/-- **Where the path of a directory leads once it is made.** Without a `..` in the path, that is a
directory that was not there before. With one, the way down may end at a directory that was. -/
theorem leads_of_makeDirectories (h : (Action.makeDirectories path).runOn d = (.ok (), made)) :
    ∃ place, made.Leads [] path.route.steps place ∧ made.get? place = some .dir ∧
      (.up ∉ path.route.steps → d.present path = false → d.get? place = none) := by
  unfold Action.makeDirectories at h
  rw [Action.runOn_get_bind] at h
  split at h
  · cases h
  next stopped missing hclimb =>
  rw [Action.runOn_bind_ok (Action.runOn_set stopped d)] at h
  obtain ⟨passed, rest, hsplit, rfl, hpassed, hrest⟩ := climb_cases hclimb
  have hchain : path.ancestors.IsChain fun x y => x.parent? = some y :=
    Path.isChain_ancestorsWithin path.bytes.length path
  obtain ⟨above, hpath⟩ := Path.ancestors_eq_cons path
  rw [List.append_nil] at h
  rcases hrest with ⟨rfl, rfl⟩ | ⟨r, rs, rfl, hr⟩
  · -- The outermost directory was missing, and is so when it is to be made.
    rw [List.append_nil] at hsplit
    rcases List.eq_nil_or_concat passed with rfl | ⟨inner, z, rfl⟩
    · rw [hsplit] at hpath
      cases hpath
    · obtain ⟨e, he, hkind⟩ := hpassed z (by simp)
      rw [List.concat_eq_append, List.reverse_append, List.reverse_singleton, List.singleton_append,
        List.forM_eq_forM, List.forM_cons] at h
      rcases hz : (Action.ensureDirectory path z).runOn stopped with ⟨r', between⟩
      cases r' with
      | error err =>
        rw [Action.runOn_bind_error hz] at h
        cases h
      | ok u =>
        have hthere := (ensures_of_ensureDirectory hz).2 e he
        rw [hkind] at hthere
        cases hthere
  · rw [hsplit] at hchain hpath
    obtain ⟨x, above', place, hx, hl, hdir, -, hnew⟩ := leads_of_passed hchain hpassed hr h
    obtain ⟨rfl, -⟩ := List.cons.inj (hx.symm.trans hpath)
    refine ⟨place, hl, hdir, fun hup hfree => ?_⟩
    rcases hnew hup with hnone | ⟨-, -, hthere⟩
    · exact hnone
    · obtain ⟨q, hq⟩ := locate_of_isDirectory hthere
      have hpresent : d.present x = true := present_of_stat (e := .dir) (by simp [stat, hq, Except.map])
      rw [hfree] at hpresent
      cases hpresent

/-! ## One more name below a directory -/

section Child

variable {n : Name} (hl : d.Leads [] path.route.steps place) (hdir : d.get? place = some .dir)
  (hn : ProperName n)

include hn

theorem steps_child_name : (path.child n).route.steps = path.route.steps ++ [.name n] := by
  rw [Path.steps_child path hn.ne_nil hn.separator_not_mem, hn.ofPiece]

include hl

theorem MakesAt.child {e : Entry} (h : d.MakesAt made (path.child n) e) :
    d.Writes made place n e ∧ d.get? (place ++ [n]) = none := by
  obtain ⟨steps, n', m, hsteps, hl', hw, hfree, -⟩ := h
  rw [steps_child_name hn] at hsteps
  obtain ⟨rfl, hlast⟩ := List.append_inj' hsteps rfl
  cases hlast
  obtain rfl := hl.unique hl'
  exact ⟨hw, hfree⟩

theorem copyFile_child {source : Path} (hlink : ∀ target, d.get? (place ++ [n]) ≠ some (.link target))
    (h : d.copyFile source (path.child n) = .ok made) :
    ∃ from_ contents, d.locate .follow source = .ok (from_, .file contents) ∧
      d.Writes made place n (.file (if from_ = place ++ [n] then [] else contents)) := by
  obtain ⟨from_, contents, s, n', hfrom, hs, hlast, hslash, -, hw⟩ := writes_of_copyFile h
  obtain ⟨m, left, -, hl', -, hwalk⟩ | ⟨e, -, -, he⟩ :=
    spot_cases (d := d) (steps_child_name hn : (path.child n).route.steps = _)
  · obtain rfl := hl.unique hl'
    have hwalk := hwalk .create (by decide)
    rw [Path.slash_child path hn.ne_nil hn.separator_not_mem,
      walk_last hn.length_le rfl rfl (.inr hlink), hs] at hwalk
    cases hwalk
    cases hlast
    exact ⟨from_, contents, hfrom, hw⟩
  · rw [he .create (by decide)] at hs
    cases hs

include hdir

/-- With the directory above it there, nothing else is made, and a failure leaves everything as it
was. -/
theorem makeDirectories_child :
    (∃ made, (Action.makeDirectories (path.child n)).runOn d = (.ok (), made) ∧
      d.Ensures made (path.child n)) ∨
    ∃ e, (Action.makeDirectories (path.child n)).runOn d = (.error e, d) := by
  obtain ⟨above, habove⟩ := Path.ancestors_eq_cons (path.child n)
  unfold Action.makeDirectories
  rw [Action.runOn_get_bind, habove, Action.climb]
  cases hm : d.makeDir (path.child n) with
  | ok made => exact .inl ⟨made, rfl, .inl hm⟩
  | error e =>
    cases hkind : e.kind with
    | notFound =>
      exact (makeDir_not_notFound (steps_child_name hn) hl hdir hm hkind).elim
    | alreadyExists =>
      cases hthere : d.isDirectory (path.child n) with
      | true => exact .inl ⟨d, by simp [hkind], .inr ⟨rfl, hthere⟩⟩
      | false => exact .inr ⟨_, by simp [hkind]; rfl⟩
    | permissionDenied | other => exact .inr ⟨_, by simp [hkind]; rfl⟩

end Child

end Disk

end TreeGlob
