import TreeGlob.Search.Report

/-!
What the visit of one directory reports, asks and gives, for any answers.

* `mem_reports` and `mem_subtasks` say which entry is reported and which is entered.
* `run_visit` puts a visit together from its entries, as long as the file system does not die.
* `length_questions_le` bounds what one entry asks.
-/
namespace TreeGlob

theorem length_flatMap_le {α β : Type} {f : α → List β} {k : Nat} (hf : ∀ a, (f a).length ≤ k)
    (l : List α) : (l.flatMap f).length ≤ k * l.length := by
  induction l with
  | nil => simp
  | cons a l ih =>
    have ha := hf a
    rw [List.flatMap_cons, List.length_append, List.length_cons, Nat.mul_succ]
    omega

theorem Transcript.andThen_ok {α β : Type} (found : List Path) (asked : List Query) (a : α)
    (next : α → Transcript β) : (Transcript.mk found asked (.ok a)).andThen next =
      ⟨found ++ (next a).found, asked ++ (next a).asked, (next a).ending⟩ := rfl

namespace Dialogue

variable {α β : Type} {fs : FileSystem} {dialogue : Dialogue α} {next : α → Dialogue β}

theorem ending_bind_eq_ok {b : β} : ((dialogue >>= next).run fs).ending = .ok b ↔
    ∃ a, (dialogue.run fs).ending = .ok a ∧ ((next a).run fs).ending = .ok b := by
  rw [run_bind, Transcript.andThen]
  cases (dialogue.run fs).ending <;> simp

theorem ending_bind_eq_error {why : Failure} : ((dialogue >>= next).run fs).ending = .error why ↔
    (dialogue.run fs).ending = .error why ∨
      ∃ a, (dialogue.run fs).ending = .ok a ∧ ((next a).run fs).ending = .error why := by
  rw [run_bind, Transcript.andThen]
  cases (dialogue.run fs).ending <;> simp

end Dialogue

namespace Task

variable {fs : FileSystem} {s : Selection} {t : Task} {c : Child}

/-- What an entry is, as far as the file system tells. -/
def kind? (fs : FileSystem) (t : Task) (c : Child) : Option Kind :=
  if c.isLink then
    match fs (.resolve (t.path.child c.name)) with
    | .ok destination =>
      some (if fs (.isDirectory destination) then .directory destination true else .other)
    | _ => none
  else some (if c.isDirectory then .directory (t.real.child c.name) false else .other)

def conclusion (t : Task) (v : Verdict) (name : Name) (text : Text) : Kind → List Task
  | .other => []
  | .directory real viaLink =>
    if v.prune || viaLink && t.leadsBack real then [] else [t.enter name text real]

theorem run_conclude (fs : FileSystem) (t : Task) (v : Verdict) (name : Name) (text : Text)
    (kind : Kind) : (t.conclude v name text kind).run fs =
      ⟨if v.hit then [t.path.child name] else [], [], .ok (t.conclusion v name text kind)⟩ := by
  unfold conclude conclusion
  cases v.hit <;> cases kind <;> cases v.prune <;> simp [Dialogue.announce, Dialogue.run]
  all_goals split <;> simp [Dialogue.run]

/-- The file system does not die over an entry. -/
def Survives (fs : FileSystem) (t : Task) (c : Child) : Prop :=
  c.isLink = true → fs (.resolve (t.path.child c.name)) ≠ .crash

def lookups (fs : FileSystem) (t : Task) (c : Child) : List Query :=
  if c.isLink then
    .resolve (t.path.child c.name) ::
      match fs (.resolve (t.path.child c.name)) with
      | .ok destination => [.isDirectory destination]
      | _ => []
  else []

theorem run_classify (hc : t.Survives fs c) :
    (t.classify c).run fs = ⟨[], t.lookups fs c, .ok (t.kind? fs c)⟩ := by
  unfold classify lookups kind?
  cases hl : c.isLink with
  | false => simp [Dialogue.run]
  | true =>
    have hc := hc hl
    cases hr : fs (.resolve (t.path.child c.name)) with
    | crash => exact (hc hr).elim
    | error e => simp [Dialogue.query, Dialogue.run, hr]
    | ok destination =>
      cases hdir : fs (.isDirectory destination) <;> simp [Dialogue.query, Dialogue.run, hr, hdir]

def reports (s : Selection) (fs : FileSystem) (t : Task) (c : Child) : List Path :=
  match Utf8.decode? c.name with
  | none => []
  | some name =>
    if s.hides name then []
    else if (t.kind? fs c).isSome && (s.verdict (t.relative ++ name)).hit then [t.path.child c.name]
    else []

def subtasks (s : Selection) (fs : FileSystem) (t : Task) (c : Child) : List Task :=
  match Utf8.decode? c.name with
  | none => []
  | some name =>
    if s.hides name then []
    else
      match t.kind? fs c with
      | none => []
      | some kind => t.conclusion (s.verdict (t.relative ++ name)) c.name name kind

/-- What is asked about an entry: nothing, unless it or something below it may be wanted. -/
def questions (s : Selection) (fs : FileSystem) (t : Task) (c : Child) : List Query :=
  match Utf8.decode? c.name with
  | none => []
  | some name =>
    if s.hides name then []
    else if !(s.verdict (t.relative ++ name)).hit && (s.verdict (t.relative ++ name)).prune then []
    else t.lookups fs c

theorem run_visitChild (hc : t.Survives fs c) : (t.visitChild s c).run fs =
    ⟨t.reports s fs c, t.questions s fs c, .ok (t.subtasks s fs c)⟩ := by
  unfold visitChild reports questions subtasks
  cases hn : Utf8.decode? c.name with
  | none => simp [Dialogue.run]
  | some name =>
    dsimp only
    -- The hidden filter comes first, then the verdict, and only then is anything asked.
    cases hh : s.hides name with
    | true => simp [Dialogue.run]
    | false =>
      by_cases hv : (!(s.verdict (t.relative ++ name)).hit &&
          (s.verdict (t.relative ++ name)).prune) = true
      · -- Neither the entry nor anything below it is wanted, whatever it is.
        obtain ⟨hhit, hprune⟩ : (s.verdict (t.relative ++ name)).hit = false ∧
            (s.verdict (t.relative ++ name)).prune = true := by simpa using hv
        rw [if_neg (by simp), if_pos hv]
        cases hk : t.kind? fs c with
        | none => simp [Dialogue.run, hhit, hprune]
        | some kind => cases kind <;> simp [Dialogue.run, hhit, hprune, conclusion]
      · simp only [Bool.false_eq_true, if_false, if_neg hv, Dialogue.run_bind, run_classify hc,
          Transcript.andThen]
        cases t.kind? fs c with
        | none => simp [Dialogue.run]
        | some kind => simp [run_conclude]

theorem run_visitChildren {children : List Child} (hc : ∀ c ∈ children, t.Survives fs c) :
    (t.visitChildren s children).run fs = ⟨children.flatMap (t.reports s fs),
      children.flatMap (t.questions s fs), .ok (children.flatMap (t.subtasks s fs))⟩ := by
  induction children with
  | nil => rfl
  | cons c children ih =>
    have hfirst := run_visitChild (s := s) (hc c List.mem_cons_self)
    have hothers := ih fun x hx => hc x (List.mem_cons_of_mem c hx)
    simp [visitChildren, Dialogue.run_bind, hfirst, hothers, Transcript.andThen, Dialogue.run]

/-- A visit reports what its entries are worth, and gives the tasks to enter them. -/
theorem run_visit {children : List Child} (hl : fs (.list t.path) = .ok children)
    (hc : ∀ c ∈ children, t.Survives fs c) : (t.visit s).run fs =
      ⟨children.flatMap (t.reports s fs), .list t.path :: children.flatMap (t.questions s fs),
        .ok (children.flatMap (t.subtasks s fs))⟩ := by
  simp [visit, Dialogue.query, Dialogue.run, hl, run_visitChildren hc]

theorem length_questions_le (s : Selection) (fs : FileSystem) (t : Task) (c : Child) :
    (t.questions s fs c).length ≤ 2 := by
  unfold questions lookups
  repeat' split
  all_goals simp

theorem listedIn_questions (s : Selection) (fs : FileSystem) (t : Task) (children : List Child) :
    listedIn (children.flatMap (t.questions s fs)) = [] := by
  refine List.filterMap_eq_nil_iff.mpr fun q hq => ?_
  obtain ⟨c, -, hq⟩ := List.mem_flatMap.mp hq
  unfold questions lookups at hq
  repeat' split at hq
  all_goals simp at hq
  all_goals grind

/-! ## What is reported and entered -/

theorem mem_reports {p : Path} : p ∈ t.reports s fs c ↔ ∃ name, Utf8.decode? c.name = some name ∧
    s.hides name = false ∧ (t.kind? fs c).isSome = true ∧
      (s.verdict (t.relative ++ name)).hit = true ∧ p = t.path.child c.name := by
  unfold reports
  cases Utf8.decode? c.name with
  | none => simp
  | some name => cases s.hides name <;> simp [and_assoc]

theorem mem_subtasks {u : Task} : u ∈ t.subtasks s fs c ↔ ∃ name real viaLink,
    Utf8.decode? c.name = some name ∧ s.hides name = false ∧
      t.kind? fs c = some (.directory real viaLink) ∧
      (s.verdict (t.relative ++ name)).prune = false ∧
      (viaLink = true → t.leadsBack real = false) ∧ u = t.enter c.name name real := by
  unfold subtasks
  cases Utf8.decode? c.name with
  | none => simp
  | some name =>
    dsimp only
    cases hh : s.hides name with
    | true => simp [hh]
    | false =>
      cases t.kind? fs c with
      | none => simp
      | some kind =>
        cases kind with
        | other => simp [conclusion]
        | directory real viaLink =>
          cases (s.verdict (t.relative ++ name)).prune <;> cases viaLink <;>
            cases hl : t.leadsBack real <;> simp [conclusion, hl, hh]

theorem length_reports_le (s : Selection) (fs : FileSystem) (t : Task) (c : Child) :
    (t.reports s fs c).length ≤ 1 := by
  unfold reports
  split
  · simp
  · split
    · simp
    · split <;> simp

theorem length_subtasks_le (s : Selection) (fs : FileSystem) (t : Task) (c : Child) :
    (t.subtasks s fs c).length ≤ 1 := by
  unfold subtasks conclusion
  split
  · simp
  · split
    · simp
    · split
      · simp
      · split
        · simp
        · split <;> simp

end Task

/-! ## On a disk -/

namespace Disk

variable {d : Disk} {s : Selection} {t : Task} {n : Name} {e : Entry}

theorem answer_ne_crash {α : Type} (p : Path) (r : Except IoError α) : answer p r ≠ .crash := by
  cases r with
  | ok a =>
    show Answer.ok a ≠ .crash
    simp
  | error err =>
    show Answer.error (FsError.ofIo err p) ≠ .crash
    simp

theorem answer_eq_ok {α : Type} {p : Path} {r : Except IoError α} {a : α} :
    answer p r = .ok a ↔ r = .ok a := by
  cases r with
  | ok b =>
    show Answer.ok b = .ok a ↔ Except.ok b = .ok a
    simp
  | error err =>
    show Answer.error (FsError.ofIo err p) = .ok a ↔ Except.error err = .ok a
    simp

theorem survives (d : Disk) (t : Task) (c : Child) : t.Survives d.fileSystem c := by
  intro _
  show d.resolve _ ≠ .crash
  unfold resolve
  split
  · simp
  · exact answer_ne_crash _ _
  · simp

theorem kind?_dir :
    t.kind? d.fileSystem (.ofEntry n .dir) = some (.directory (t.real.child n) false) := rfl

theorem kind?_link (target : Path) : t.kind? d.fileSystem (.ofEntry n (.link target)) =
    match d.resolve (t.path.child n) with
    | .ok destination =>
      some (if d.isDirectory destination then .directory destination true else .other)
    | _ => none := by
  unfold Task.kind? Child.ofEntry
  dsimp only [fileSystem]
  cases d.resolve (t.path.child n) <;> rfl

theorem kind?_isSome : (t.kind? d.fileSystem (.ofEntry n e)).isSome = true ↔
    ∀ target, e = .link target → ∃ destination, d.resolve (t.path.child n) = .ok destination := by
  cases e with
  | dir => simp [Task.kind?, Child.ofEntry]
  | file contents => simp [Task.kind?, Child.ofEntry]
  | link target =>
    rw [kind?_link]
    cases d.resolve (t.path.child n) <;> simp

theorem kind?_eq_directory {real : Path} {viaLink : Bool} :
    t.kind? d.fileSystem (.ofEntry n e) = some (.directory real viaLink) ↔
      (e = .dir ∧ real = t.real.child n ∧ viaLink = false) ∨
      ((∃ target, e = .link target) ∧ d.resolve (t.path.child n) = .ok real ∧
        d.isDirectory real = true ∧ viaLink = true) := by
  cases e with
  | dir =>
    rw [kind?_dir]
    simp only [Option.some.injEq, Task.Kind.directory.injEq, reduceCtorEq, exists_false, false_and,
      or_false, true_and]
    exact and_congr eq_comm eq_comm
  | file contents => simp [Task.kind?, Child.ofEntry]
  | link target =>
    rw [kind?_link]
    cases hr : d.resolve (t.path.child n) with
    | ok destination =>
      cases hdir : d.isDirectory destination <;> grind
    | error err => simp
    | crash => simp

/-- A visit to what can be listed on a disk. -/
theorem run_visit {children : List Child} (hl : d.list t.path = .ok children) :
    ∃ asked, (t.visit s).run d.fileSystem =
        ⟨children.flatMap (t.reports s d.fileSystem), asked,
          .ok (children.flatMap (t.subtasks s d.fileSystem))⟩ ∧
      asked.length ≤ 2 * children.length + 1 ∧ listedIn asked = [t.path] := by
  have hl : d.fileSystem (.list t.path) = .ok children := by
    show answer t.path (d.list t.path) = .ok children
    rw [hl]
    rfl
  refine ⟨_, Task.run_visit hl fun c _ => d.survives t c, ?_, ?_⟩
  · have hlen := length_flatMap_le (t.length_questions_le s d.fileSystem) children
    simpa using hlen
  · show t.path :: listedIn _ = [t.path]
    rw [t.listedIn_questions]

theorem run_visit_error {err : IoError} (hl : d.list t.path = .error err) :
    (t.visit s).run d.fileSystem = ⟨[], [.list t.path],
      if err.kind = .notFound ∧ t.relative ≠ [] then .ok []
      else .error (.error (.ofIo err t.path))⟩ := by
  have hl : d.fileSystem (.list t.path) = .error (.ofIo err t.path) := by
    show answer t.path (d.list t.path) = _
    rw [hl]
    rfl
  have hcond : ((FsError.ofIo err t.path).isNotFound && !t.relative.isEmpty) = true ↔
      err.kind = .notFound ∧ t.relative ≠ [] := by
    simp [FsError.isNotFound_ofIo]
  unfold Task.visit
  simp only [Dialogue.query, Dialogue.ask_bind, Dialogue.done_bind, Dialogue.run, hl]
  by_cases hc : err.kind = .notFound ∧ t.relative ≠ []
  · rw [if_pos (hcond.mpr hc), if_pos hc]
    rfl
  · rw [if_neg (mt hcond.mp hc), if_neg hc]
    rfl

theorem mem_tasks_of_visit {tasks : List Task} {u : Task}
    (h : ((t.visit s).run d.fileSystem).ending = .ok tasks) (hu : u ∈ tasks) :
    ∃ children, d.list t.path = .ok children ∧
      ∃ c ∈ children, u ∈ t.subtasks s d.fileSystem c := by
  cases hl : d.list t.path with
  | error err =>
    rw [run_visit_error hl] at h
    split at h
    · cases h
      cases hu
    · cases h
  | ok children =>
    obtain ⟨asked, hrun, -, -⟩ := run_visit (s := s) hl
    rw [hrun] at h
    cases h
    exact ⟨children, rfl, List.mem_flatMap.mp hu⟩

theorem run_stepDown (d : Disk) (s : Selection) (t : Task) (component : Text) :
    ((s.stepDown t component).run d.fileSystem).found = [] ∧
    ((s.stepDown t component).run d.fileSystem).ending =
      if s.hides component || s.excludes (t.relative ++ component) then .ok none
      else
        match d.realPath (t.path.child (Utf8.encode component)) with
        | .error err =>
          if err.kind = .notFound then .ok none
          else .error (.error (.ofIo err (t.path.child (Utf8.encode component))))
        | .ok real =>
          .ok (if d.isDirectory real && !t.leadsBack real then
            some (t.enter (Utf8.encode component) component real) else none) := by
  unfold Selection.stepDown
  split
  · exact ⟨rfl, rfl⟩
  · cases hr : d.realPath (t.path.child (Utf8.encode component)) with
    | error err =>
      have hq : d.fileSystem (.canonicalize (t.path.child (Utf8.encode component))) =
          .error (.ofIo err (t.path.child (Utf8.encode component))) := by
        show answer _ (d.realPath _) = _
        rw [hr]
        rfl
      have hcond := FsError.isNotFound_ofIo err (t.path.child (Utf8.encode component))
      simp only [Dialogue.query, Dialogue.ask_bind, Dialogue.done_bind, Dialogue.run, hq]
      by_cases hk : err.kind = .notFound
      · rw [if_pos (hcond.mpr hk), if_pos hk]
        exact ⟨rfl, rfl⟩
      · rw [if_neg (mt hcond.mp hk), if_neg hk]
        exact ⟨rfl, rfl⟩
    | ok real =>
      have hq : d.fileSystem (.canonicalize (t.path.child (Utf8.encode component))) = .ok real := by
        show answer _ (d.realPath _) = _
        rw [hr]
        rfl
      simp only [Dialogue.query, Dialogue.ask_bind, Dialogue.done_bind, Dialogue.run, hq]
      cases hdir : d.isDirectory real <;> cases hl : t.leadsBack real <;>
        simp [fileSystem, hdir, Dialogue.run]

end Disk

end TreeGlob
