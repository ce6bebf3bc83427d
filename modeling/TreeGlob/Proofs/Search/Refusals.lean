import TreeGlob.Proofs.Search.Filtering
import TreeGlob.Proofs.Search.Strategies

/-!
What becomes of a search when listings are refused, that is, fail in a way that it does not bear.

* `FileSystem.Refuses` says that a file system answers as another does, but refuses the listings of
  some directories. `refuses_withFaults` says so of injected faults.
* `Dialogue.GivesUp` says that a refused listing is the end of a dialogue. `givesUp_visit` and
  `givesUp_sequential` say it of searches.
* `Transcript.CutShort` compares a dialogue to what it would have been without the refusals. It is the
  same up to the first of them (`GivesUp.run_cases`).
* `Selection.exists_visits` reads off a sequential search which directories it has visited.
* `Selection.StopsAt` is what all this says of a sequential search (`stopsAt_sequential`).
-/
namespace TreeGlob

/-! ## Refused listings -/

/-- The answer is an error that ends a search: one to the question for the entries of a directory, but
not that a directory other than the base has gone. -/
def Query.Refused (base : Path) : (q : Query) → q.Reply → FsError → Prop
  | .list p, reply, e => reply = .error e ∧ (e.isNotFound = true → p = base)
  | .resolve _, _, _ | .canonicalize _, _, _ | .leads _, _, _ | .isDirectory _, _, _ => False

/-- `fs'` refuses to list the directories that are struck, and answers as `fs` does otherwise. -/
structure FileSystem.Refuses (fs fs' : FileSystem) (base : Path) (struck : Path → Prop) : Prop where
  refused : ∀ p, struck p → ∃ e, (Query.list p).Refused base (fs' (.list p)) e
  same : ∀ q : Query, (∀ p, q = .list p → ¬struck p) → fs' q = fs q

namespace FileSystem.Refuses

variable {fs fs' : FileSystem} {base : Path} {struck : Path → Prop}

theorem honest (h : fs.Refuses fs' base struck) (hfs : ∀ q : Query, q.Honest (fs q)) (q : Query) :
    q.Honest (fs' q) := by
  by_cases hq : ∃ p, q = .list p ∧ struck p
  · obtain ⟨p, rfl, hp⟩ := hq
    obtain ⟨e, he, -⟩ := h.refused p hp
    intro children hchildren
    rw [he] at hchildren
    cases hchildren
  · rw [h.same q fun p hp hstruck => hq ⟨p, hp, hstruck⟩]
    exact hfs q

theorem isLook_eq (h : fs.Refuses fs' base struck) (q : Query) (hq : q.isLook = true) :
    fs' q = fs q := by
  refine h.same q fun p hp _ => ?_
  subst hp
  cases hq

end FileSystem.Refuses

/-- Injected faults refuse listings, if none of them says that a directory has gone. -/
theorem FileSystem.refuses_withFaults (fs : FileSystem) (base : Path) {faults : List Fault}
    (h : ∀ f ∈ faults, f.call = .list ∧ f.kind ≠ .notFound ∧ f.kind ≠ .crash) :
    fs.Refuses (fs.withFaults faults) base fun p => ∃ f ∈ faults, f.strikes .list p = true where
  refused p := by
    intro hp
    obtain ⟨f, hf, hstrikes⟩ := hp
    show ∃ e, orFault faults .list p (fs (.list p)) = .error e ∧ _
    unfold orFault
    cases hfind : faults.find? (·.strikes .list p) with
    | none => exact absurd hstrikes (List.find?_eq_none.mp hfind f hf)
    | some g =>
      obtain ⟨-, hgone, hcrash⟩ := h g (List.mem_of_find?_eq_some hfind)
      dsimp only
      rw [Fault.answer]
      cases hkind : g.kind with
      | notFound => exact absurd hkind hgone
      | crash => exact absurd hkind hcrash
      | permissionDenied => exact ⟨_, rfl, fun hno => by cases hno⟩
      | io text => exact ⟨_, rfl, fun hno => by cases hno⟩
  same q := by
    intro hq
    have hother {α : Type} {call : FaultyCall} (hcall : call ≠ .list) (p : Path) (right : Answer α) :
        orFault faults call p right = right := by
      refine (orFault_cases faults call p right).resolve_right ?_
      intro hfault
      obtain ⟨f, hf, hstrikes, -⟩ := hfault
      exact hcall (hstrikes.symm.trans (h f hf).1)
    cases q with
    | list p =>
      show orFault faults .list p (fs (.list p)) = fs (.list p)
      unfold orFault
      cases hfind : faults.find? (·.strikes .list p) with
      | none => rfl
      | some g =>
        have hstrikes : g.strikes .list p = true := by simpa using List.find?_some hfind
        exact absurd ⟨g, List.mem_of_find?_eq_some hfind, hstrikes⟩ (hq p rfl)
    | resolve p => exact hother FaultyCall.noConfusion p _
    | canonicalize p => exact hother FaultyCall.noConfusion p _
    | leads | isDirectory => rfl

/-! ## Dialogues that give up -/

namespace Dialogue

variable {α β : Type} {base : Path} {fs fs' : FileSystem} {struck : Path → Prop} {d : Dialogue α}

/-- A refused listing is the end of the dialogue, with that error. -/
def GivesUp (base : Path) : Dialogue α → Prop
  | .done _ | .stop _ => True
  | .report _ rest => rest.GivesUp base
  | .ask q next => (∀ reply, q.Honest reply → (next reply).GivesUp base) ∧
      ∀ reply e, q.Refused base reply e → next reply = .stop (.error e)

theorem givesUp_bind {reports : Path → Prop} {ends : α → Prop} {f : α → Dialogue β}
    (h : d.GivesUp base) (hd : d.Obeys reports ends) (hf : ∀ a, ends a → (f a).GivesUp base) :
    (d >>= f).GivesUp base := by
  induction d with
  | done a => exact hf a hd
  | stop why => trivial
  | report p rest ih => exact ih h hd.2
  | ask q next ih =>
    refine ⟨fun reply hreply => ih reply (h.1 reply hreply) (hd reply hreply), ?_⟩
    intro reply e he
    show (next reply >>= f) = _
    rw [h.2 reply e he]
    rfl

theorem obeys_trivial (d : Dialogue α) : d.Obeys (fun _ => True) (fun _ => True) := by
  induction d with
  | done | stop => trivial
  | report p rest ih => exact ⟨trivial, ih⟩
  | ask q next ih => exact fun reply _ => ih reply

/-- The dialogue never asks for the entries of a directory. -/
def ListsNothing : Dialogue α → Prop
  | .done _ | .stop _ => True
  | .report _ rest => rest.ListsNothing
  | .ask q next => (∀ p, q ≠ .list p) ∧ ∀ reply, (next reply).ListsNothing

theorem listsNothing_bind {f : α → Dialogue β} (h : d.ListsNothing) (hf : ∀ a, (f a).ListsNothing) :
    (d >>= f).ListsNothing := by
  induction d with
  | done a => exact hf a
  | stop why => trivial
  | report p rest ih => exact ih h
  | ask q next ih => exact ⟨h.1, fun reply => ih reply (h.2 reply)⟩

theorem listsNothing_query {q : Query} (hq : ∀ p, q ≠ .list p) : (query q).ListsNothing :=
  ⟨hq, fun _ => trivial⟩

theorem ListsNothing.givesUp (h : d.ListsNothing) (base : Path) : d.GivesUp base := by
  induction d with
  | done | stop => trivial
  | report p rest ih => exact ih h
  | ask q next ih =>
    refine ⟨fun reply _ => ih reply (h.2 reply), fun reply e he => ?_⟩
    cases q with
    | list p => exact absurd rfl (h.1 p)
    | resolve | canonicalize | leads | isDirectory => exact he.elim

theorem ListsNothing.not_mem_asked (h : d.ListsNothing) (fs : FileSystem) (p : Path) :
    .list p ∉ (d.run fs).asked := by
  induction d with
  | done | stop => exact List.not_mem_nil
  | report q rest ih => exact ih h
  | ask q next ih =>
    intro hp
    cases List.mem_cons.mp hp with
    | inl hp => exact h.1 p hp.symm
    | inr hp => exact ih (fs q) (h.2 _) hp

theorem OnlyLooks.listsNothing (h : d.OnlyLooks) : d.ListsNothing := by
  induction d with
  | done | stop => trivial
  | report p rest => exact h.elim
  | ask q next ih =>
    refine ⟨fun p hp => ?_, fun reply => ih reply (h.2 reply)⟩
    subst hp
    cases h.1

theorem run_congr (h : ∀ q ∈ (d.run fs').asked, fs' q = fs q) : d.run fs' = d.run fs := by
  induction d with
  | done | stop => rfl
  | report p rest ih => rw [run, run, ih h]
  | ask q next ih =>
    obtain ⟨hq, hrest⟩ := List.forall_mem_cons.mp h
    rw [run, run, ← hq, ih (fs' q) hrest]

end Dialogue

/-- The dialogue `part` went as `whole` did up to a refused listing, and ended with it. -/
structure Transcript.CutShort {α : Type} (fs' : FileSystem) (struck : Path → Prop)
    (whole part : Transcript α) (earlier : List Query) (p : Path) (e : FsError) : Prop where
  last : struck p
  refused : fs' (.list p) = .error e
  asked : part.asked = earlier ++ [.list p]
  spared : ∀ q, .list q ∈ earlier → ¬struck q
  ending : part.ending = .error (.error e)
  found : part.found <+: whole.found
  asked_isPrefix : part.asked <+: whole.asked

/-- A dialogue that gives up goes as it would without refusals, or up to the first of them. -/
theorem Dialogue.GivesUp.run_cases {α : Type} {d : Dialogue α} {base : Path} {fs fs' : FileSystem}
    {struck : Path → Prop} (h : d.GivesUp base) (hfs' : ∀ q : Query, q.Honest (fs' q))
    (hr : fs.Refuses fs' base struck) :
    ((∀ p, .list p ∈ (d.run fs').asked → ¬struck p) ∧ d.run fs' = d.run fs) ∨
      ∃ earlier p e, (d.run fs).CutShort fs' struck (d.run fs') earlier p e := by
  induction d with
  | done | stop => exact .inl ⟨fun p => List.not_mem_nil.elim, rfl⟩
  | report q rest ih =>
    refine (ih h).imp ?_ ?_
    · intro hspares
      obtain ⟨hspared, hsame⟩ := hspares
      exact ⟨hspared, by rw [run, run, hsame]⟩
    · intro hcuts
      obtain ⟨earlier, p, e, hcut⟩ := hcuts
      exact ⟨earlier, p, e, { hcut with found := (List.prefix_cons_inj q).mpr hcut.found }⟩
  | ask q next ih =>
    by_cases hq : ∃ p, q = .list p ∧ struck p
    · -- The question is the listing that is refused.
      obtain ⟨p, rfl, hp⟩ := hq
      obtain ⟨e, he⟩ := hr.refused p hp
      have hrun : (Dialogue.ask (.list p) next).run fs' =
          ⟨[], [.list p], .error (.error e)⟩ := by
        rw [run, h.2 _ e he]
        rfl
      right
      refine ⟨[], p, e, ?_⟩
      rw [hrun]
      exact {
        last := hp
        refused := he.1
        asked := rfl
        spared := fun q hq => by cases hq
        ending := rfl
        found := List.nil_prefix
        asked_isPrefix := (List.prefix_cons_inj _).mpr List.nil_prefix }
    · have hspared : ∀ p, q = .list p → ¬struck p := fun p hp hstruck => hq ⟨p, hp, hstruck⟩
      have hsame := hr.same q hspared
      have hrun : (Dialogue.ask q next).run fs =
          { (next (fs' q)).run fs with asked := q :: ((next (fs' q)).run fs).asked } := by
        rw [run, ← hsame]
      rw [hrun, run]
      refine (ih (fs' q) (h.1 _ (hfs' q))).imp ?_ ?_
      · intro hspares
        obtain ⟨hrest, heq⟩ := hspares
        refine ⟨fun p hp => ?_, by rw [heq]⟩
        cases List.mem_cons.mp hp with
        | inl hp => exact hspared p hp.symm
        | inr hp => exact hrest p hp
      · intro hcuts
        obtain ⟨earlier, p, e, hcut⟩ := hcuts
        refine ⟨q :: earlier, p, e, { hcut with
          asked := congrArg (q :: ·) hcut.asked
          spared := fun r hr => ?_
          asked_isPrefix := (List.prefix_cons_inj q).mpr hcut.asked_isPrefix }⟩
        cases List.mem_cons.mp hr with
        | inl hr => exact hspared r hr.symm
        | inr hr => exact hcut.spared r hr

/-! ## Searches -/

namespace Task

variable {s : Selection} {base : Path} {t : Task}

theorem listsNothing_classify (t : Task) (c : Child) : (t.classify c).ListsNothing := by
  unfold classify
  split
  · trivial
  · refine Dialogue.listsNothing_bind (Dialogue.listsNothing_query fun _ => Query.noConfusion)
      fun reply => ?_
    cases reply with
    | crash | error => trivial
    | ok destination =>
      refine Dialogue.listsNothing_bind (Dialogue.listsNothing_query fun _ => Query.noConfusion)
        fun isDirectory => ?_
      cases isDirectory <;> trivial

theorem listsNothing_visitChild (s : Selection) (t : Task) (c : Child) :
    (t.visitChild s c).ListsNothing := by
  unfold visitChild
  cases Utf8.decode? c.name with
  | none => trivial
  | some name =>
    dsimp only
    split
    · trivial
    split
    · trivial
    refine Dialogue.listsNothing_bind (listsNothing_classify t c) fun kind => ?_
    cases kind with
    | none => trivial
    | some kind =>
      show (t.conclude _ _ _ _).ListsNothing
      rw [conclude_eq]
      split <;> trivial

theorem listsNothing_visitChildren (s : Selection) (t : Task) (children : List Child) :
    (t.visitChildren s children).ListsNothing := by
  induction children with
  | nil => trivial
  | cons c children ih =>
    refine Dialogue.listsNothing_bind (listsNothing_visitChild s t c) fun _ => ?_
    exact Dialogue.listsNothing_bind ih fun _ => trivial

/-- A visit asks for the entries of its directory first, and lists nothing else. -/
theorem asked_visit (s : Selection) (fs : FileSystem) (t : Task) :
    ∃ rest, ((t.visit s).run fs).asked = .list t.path :: rest ∧ ∀ p, .list p ∉ rest := by
  refine ⟨_, rfl, fun p => ?_⟩
  cases fs (.list t.path) with
  | ok children => exact (listsNothing_visitChildren s t children).not_mem_asked fs p
  | crash => exact List.not_mem_nil
  | error e =>
    show .list p ∉ (Dialogue.run fs (if _ then _ else _)).asked
    split <;> exact List.not_mem_nil

theorem givesUp_visit (h : t.Open s base) : (t.visit s).GivesUp base := by
  refine ⟨fun reply _ => ?_, fun reply e he => ?_⟩
  · cases reply with
    | ok children => exact (listsNothing_visitChildren s t children).givesUp base
    | crash => trivial
    | error e =>
      show Dialogue.GivesUp base (if _ then _ else _)
      split <;> trivial
  · obtain ⟨rfl, hgone⟩ := he
    have hborne : (e.isNotFound && !t.relative.isEmpty) = false := by
      cases hfound : e.isNotFound with
      | false => rfl
      | true =>
        rw [h.relative_eq_nil_iff.mpr (hgone hfound)]
        rfl
    show (if _ then _ else _) = _
    rw [hborne]
    rfl

end Task

namespace Selection

variable {s : Selection} {base : Path} {t : Task} {fs fs' : FileSystem} {struck : Path → Prop}

theorem givesUp_visitAll (depth : Nat) (h : t.Open s base) :
    (s.visitAll depth t).GivesUp base := by
  induction depth generalizing t with
  | zero => trivial
  | succ depth ih =>
    refine Dialogue.givesUp_bind (Task.givesUp_visit h) (Task.obeys_visit h) fun tasks htasks => ?_
    induction tasks with
    | nil => trivial
    | cons u tasks ihTasks =>
      obtain ⟨hu, htasks⟩ := List.forall_mem_cons.mp htasks
      exact Dialogue.givesUp_bind (ih hu) (Dialogue.obeys_trivial _) fun _ _ => ihTasks htasks

theorem givesUp_sequential (s : Selection) (depth : Nat) (base : Path) :
    (s.sequential depth base).GivesUp base := by
  have hbegin : (s.begin base).Obeys (fun _ => True) _ := obeys_begin s base
  have hlooks := (onlyLooks_begin s base).listsNothing.givesUp base
  refine Dialogue.givesUp_bind hlooks hbegin fun first hfirst => ?_
  cases first with
  | none => trivial
  | some t => exact givesUp_visitAll depth (hfirst t rfl)

/-- A sequential search is a number of visits, one after the other. -/
theorem exists_visits (s : Selection) (fs : FileSystem) (depth : Nat) (t : Task) :
    ∃ visits : List Task,
      ((s.visitAll depth t).run fs).found =
        visits.flatMap (fun u => ((u.visit s).run fs).found) ∧
      ((s.visitAll depth t).run fs).asked =
        visits.flatMap (fun u => ((u.visit s).run fs).asked) := by
  induction depth generalizing t with
  | zero => exact ⟨[], rfl, rfl⟩
  | succ depth ih =>
    have hall (tasks : List Task) : ∃ visits : List Task,
        ((tasks.forM (s.visitAll depth)).run fs).found =
          visits.flatMap (fun u => ((u.visit s).run fs).found) ∧
        ((tasks.forM (s.visitAll depth)).run fs).asked =
          visits.flatMap (fun u => ((u.visit s).run fs).asked) := by
      induction tasks with
      | nil => exact ⟨[], rfl, rfl⟩
      | cons u tasks ihTasks =>
        obtain ⟨first, hfound, hasked⟩ := ih u
        obtain ⟨others, hfounds, haskeds⟩ := ihTasks
        rw [forM_cons, Dialogue.run_bind, Transcript.andThen]
        cases ((s.visitAll depth u).run fs).ending with
        | error why => exact ⟨first, hfound, hasked⟩
        | ok _ =>
          refine ⟨first ++ others, ?_, ?_⟩
          · rw [List.flatMap_append, ← hfound, ← hfounds]
          · rw [List.flatMap_append, ← hasked, ← haskeds]
    rw [visitAll, Dialogue.run_bind, Transcript.andThen]
    cases ((t.visit s).run fs).ending with
    | error why =>
      exact ⟨[t], (List.append_nil _).symm, (List.append_nil _).symm⟩
    | ok tasks =>
      obtain ⟨visits, hfound, hasked⟩ := hall tasks
      refine ⟨t :: visits, ?_, ?_⟩
      · rw [List.flatMap_cons, ← hfound]
      · rw [List.flatMap_cons, ← hasked]

theorem listedIn_visits (s : Selection) (fs : FileSystem) (visits : List Task) :
    listedIn (visits.flatMap fun u => ((u.visit s).run fs).asked) = visits.map (·.path) := by
  induction visits with
  | nil => rfl
  | cons u visits ih =>
    obtain ⟨rest, hasked, hrest⟩ := u.asked_visit s fs
    have hnone : listedIn rest = [] := by
      refine List.filterMap_eq_nil_iff.mpr fun q hq => ?_
      cases q with
      | list p => exact absurd hq (hrest p)
      | resolve | canonicalize | leads | isDirectory => rfl
    rw [List.flatMap_cons, listedIn_append, ih, hasked]
    show u.path :: listedIn rest ++ _ = _
    rw [hnone]
    rfl

/-- The search `part` went as `whole` did up to the listing of `p`, which was refused, and ended with
it. What it found is what the directories listed `earlier` have. -/
structure StopsAt (s : Selection) (fs fs' : FileSystem) (struck : Path → Prop) (whole part : Report)
    (earlier : List Task) (p : Path) (e : FsError) : Prop where
  last : struck p
  refused : fs' (.list p) = .error e
  spared : ∀ u ∈ earlier, ¬struck u.path
  listed : part.listed = earlier.map (·.path) ++ [p]
  found : part.found = earlier.flatMap fun u => ((u.visit s).run fs).found
  listed_isPrefix : part.listed <+: whole.listed
  found_isPrefix : part.found <+: whole.found
  failure : part.failure = some (.error e)

theorem found_visit_of_error {e : FsError} (he : fs (.list t.path) = .error e) :
    ((t.visit s).run fs).found = [] := by
  rw [Task.visit, Dialogue.query, Dialogue.ask_bind, Dialogue.run, Dialogue.done_bind, he]
  dsimp only
  split <;> rfl

/-- Visits whose last question is a listing end with the visit of that directory. -/
theorem exists_last_visit {visits : List Task} {before earlier : List Query} {p : Path}
    (hbefore : .list p ∉ before)
    (h : before ++ visits.flatMap (fun u => ((u.visit s).run fs).asked) = earlier ++ [.list p]) :
    ∃ first last, visits = first ++ [last] ∧ last.path = p ∧
      earlier = before ++ first.flatMap fun u => ((u.visit s).run fs).asked := by
  cases List.eq_nil_or_concat visits with
  | inl hnil =>
    rw [hnil, List.flatMap_nil, List.append_nil] at h
    exact absurd (h ▸ List.mem_append_right _ List.mem_cons_self) hbefore
  | inr hconcat =>
    obtain ⟨first, last, rfl⟩ := hconcat
    obtain ⟨rest, hasked, hrest⟩ := last.asked_visit s fs
    rw [List.concat_eq_append, List.flatMap_append, List.flatMap_singleton, hasked,
      ← List.append_assoc] at h
    -- The listing is the last question, and a visit lists nothing after its first one.
    cases List.eq_nil_or_concat rest with
    | inl hnil =>
      rw [hnil] at h
      obtain ⟨hearlier, hlast⟩ := List.append_inj' h rfl
      exact ⟨first, last, List.concat_eq_append .., Query.list.inj (List.cons.inj hlast).1,
        hearlier.symm⟩
    | inr hconcat =>
      obtain ⟨others, q, rfl⟩ := hconcat
      rw [List.concat_eq_append, ← List.cons_append, ← List.append_assoc] at h
      obtain ⟨-, hlast⟩ := List.append_inj' h rfl
      refine absurd ?_ (hrest p)
      rw [List.concat_eq_append, (List.cons.inj hlast).1]
      exact List.mem_append_right _ List.mem_cons_self

/-- A sequential search goes as it would without refusals, or up to the first of them. -/
theorem stopsAt_sequential (hfs' : ∀ q : Query, q.Honest (fs' q))
    (hr : fs.Refuses fs' base struck) (s : Selection) (depth : Nat) :
    ((∀ p, .list p ∈ ((s.sequential depth base).run fs').asked → ¬struck p) ∧
      (s.sequential depth base).run fs' = (s.sequential depth base).run fs) ∨
    ∃ earlier p e, s.StopsAt fs fs' struck ((s.sequential depth base).run fs).report
      ((s.sequential depth base).run fs').report earlier p e := by
  refine ((givesUp_sequential s depth base).run_cases hfs' hr).imp_right ?_
  intro hcuts
  obtain ⟨earlier, p, e, hcut⟩ := hcuts
  have hlooks := (onlyLooks_begin s base).listsNothing.not_mem_asked fs' p
  -- What is found and asked is that of some visits, after the way to the first task.
  obtain ⟨visits, hfound, hasked⟩ : ∃ visits : List Task,
      ((s.sequential depth base).run fs').found =
        visits.flatMap (fun u => ((u.visit s).run fs').found) ∧
      ((s.sequential depth base).run fs').asked = ((s.begin base).run fs').asked ++
        visits.flatMap (fun u => ((u.visit s).run fs').asked) := by
    have hnothing := (onlyLooks_begin s base).found_eq_nil fs'
    cases hbegin : ((s.begin base).run fs').ending with
    | error why =>
      refine ⟨[], ?_, ?_⟩
      all_goals rw [sequential, sequentialFrom, Dialogue.run_bind, Transcript.andThen, hbegin]
      · exact hnothing
      · exact (List.append_nil _).symm
    | ok start =>
      cases start with
      | none =>
        rw [run_sequential_of_none hbegin]
        exact ⟨[], rfl, (List.append_nil _).symm⟩
      | some t =>
        obtain ⟨visits, hfound, hasked⟩ := exists_visits s fs' depth t
        rw [run_sequential_of_some hbegin]
        exact ⟨visits, hfound, congrArg (((s.begin base).run fs').asked ++ ·) hasked⟩
  obtain ⟨first, last, rfl, rfl, rfl⟩ := exists_last_visit hlooks (hasked.symm.trans hcut.asked)
  have hspared : ∀ u ∈ first, ∀ q, .list q ∈ ((u.visit s).run fs').asked → ¬struck q :=
    fun u hu q hq => hcut.spared q (List.mem_append_right _ (List.mem_flatMap.mpr ⟨u, hu, hq⟩))
  refine ⟨first, last.path, e, {
    last := hcut.last
    refused := hcut.refused
    spared := fun u hu => ?_
    listed := ?_
    found := ?_
    listed_isPrefix := ?_
    found_isPrefix := hcut.found
    failure := ?_ }⟩
  · obtain ⟨rest, hvisit, -⟩ := u.asked_visit s fs'
    exact hspared u hu u.path (hvisit ▸ List.mem_cons_self)
  · show listedIn _ = _
    rw [hasked, listedIn_append, (onlyLooks_begin s base).listedIn_eq_nil, listedIn_visits,
      List.map_append]
    rfl
  · show ((s.sequential depth base).run fs').found = _
    rw [hfound, List.flatMap_append, List.flatMap_singleton, found_visit_of_error hcut.refused,
      List.append_nil]
    refine List.flatMap_congr fun u hu => ?_
    rw [Dialogue.run_congr fun q hq => hr.same q ?_]
    intro p hp
    exact hspared u hu p (hp ▸ hq)
  · show listedIn _ <+: listedIn _
    exact hcut.asked_isPrefix.filterMap _
  · unfold Transcript.report
    rw [hcut.ending]

end Selection

end TreeGlob
