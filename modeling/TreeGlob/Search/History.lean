import TreeGlob.Search.Report

/-!
What may happen while a search goes on, step by step, and with a file system that may change in
between.

* `Answers` is a file system that changes: what it answers depends on all that was asked before.
  `Dialogue.runOn` holds a dialogue with it.
* `Crew` is a parallel search with a worker for every directory. A worker visits its directory, spawns
  a worker for each directory worth entering, and then joins them: it finishes when all of them have
  finished, and fails when one of them has failed. Those that a failed worker has not joined are
  aborted.
* `Crew.Step` is one step of any worker, and `Crew.After` are the crews that several steps lead to.

Main statement: with a file system that does not change, `runOn` is `run`.
-/
namespace TreeGlob

/-- A file system that may answer a question in another way each time. It knows what was asked
before. -/
abbrev Answers := List Query → FileSystem

/-- Holds a dialogue with a file system that may change, given what was asked before. -/
def Dialogue.runOn {α : Type} (answers : Answers) : (before : List Query) → Dialogue α → Transcript α
  | _, .done a => ⟨[], [], .ok a⟩
  | _, .stop why => ⟨[], [], .error why⟩
  | before, .report p rest =>
    let t := rest.runOn answers before
    { t with found := p :: t.found }
  | before, .ask q next =>
    let t := (next (answers before q)).runOn answers (before ++ [q])
    { t with asked := q :: t.asked }

inductive Stage where
  /-- It visits its directory, and this is left of the visit. -/
  | visiting (job : Dialogue (List Task))
  /-- It waits for the workers that it spawned. -/
  | joining
  | finished
  | failed (why : Failure)
  | aborted

def Stage.isLast : Stage → Bool
  | .visiting _ | .joining => false
  | .finished | .failed _ | .aborted => true

/-- The worker has given up those that it spawned. -/
def Stage.gaveUp : Stage → Bool
  | .failed _ | .aborted => true
  | .visiting _ | .joining | .finished => false

structure Worker where
  /-- The position of the worker that spawned it, if any did. -/
  parent : Option Nat
  stage : Stage

/-- A parallel search: the workers in the order in which they were spawned, and what they have done
together. -/
structure Crew where
  workers : List Worker
  /-- The paths reported so far, in order. -/
  found : List Path
  /-- The questions asked so far, in order. -/
  asked : List Query

namespace Crew

def start (s : Selection) (asked : List Query) (t : Task) : Crew :=
  ⟨[⟨none, .visiting (t.visit s)⟩], [], asked⟩

inductive Step (answers : Answers) (s : Selection) : Crew → Crew → Prop where
  | report {before after : List Worker} {parent path rest found asked} :
    Step answers s ⟨before ++ ⟨parent, .visiting (.report path rest)⟩ :: after, found, asked⟩
      ⟨before ++ ⟨parent, .visiting rest⟩ :: after, found ++ [path], asked⟩
  | ask {before after : List Worker} {parent q next found asked} :
    Step answers s ⟨before ++ ⟨parent, .visiting (.ask q next)⟩ :: after, found, asked⟩
      ⟨before ++ ⟨parent, .visiting (next (answers asked q))⟩ :: after, found, asked ++ [q]⟩
  | spawn {before after : List Worker} {parent tasks found asked} :
    Step answers s ⟨before ++ ⟨parent, .visiting (.done tasks)⟩ :: after, found, asked⟩
      ⟨before ++ ⟨parent, .joining⟩ :: after ++
        tasks.map (fun t => ⟨some before.length, .visiting (t.visit s)⟩), found, asked⟩
  | breakOff {before after : List Worker} {parent why found asked} :
    Step answers s ⟨before ++ ⟨parent, .visiting (.stop why)⟩ :: after, found, asked⟩
      ⟨before ++ ⟨parent, .failed why⟩ :: after, found, asked⟩
  /-- A worker has joined all that it spawned. -/
  | finish {before after : List Worker} {parent found asked}
    (h : ∀ w ∈ before ++ after, w.parent = some before.length → w.stage = .finished) :
    Step answers s ⟨before ++ ⟨parent, .joining⟩ :: after, found, asked⟩
      ⟨before ++ ⟨parent, .finished⟩ :: after, found, asked⟩
  /-- A worker has joined one that failed. -/
  | fail {before after : List Worker} {parent why found asked}
    (h : ⟨some before.length, .failed why⟩ ∈ before ++ after) :
    Step answers s ⟨before ++ ⟨parent, .joining⟩ :: after, found, asked⟩
      ⟨before ++ ⟨parent, .failed why⟩ :: after, found, asked⟩
  /-- A worker is aborted by the one that spawned it. -/
  | abort {before after : List Worker} {above stage found asked} {w : Worker}
    (h : stage.isLast = false) (hw : (before ++ ⟨some above, stage⟩ :: after)[above]? = some w)
    (hgave : w.stage.gaveUp = true) :
    Step answers s ⟨before ++ ⟨some above, stage⟩ :: after, found, asked⟩
      ⟨before ++ ⟨some above, .aborted⟩ :: after, found, asked⟩

inductive After (answers : Answers) (s : Selection) (first : Crew) : (steps : Nat) → Crew → Prop where
  | start : After answers s first 0 first
  | step {steps : Nat} {c next : Crew} (h : After answers s first steps c)
    (hs : Step answers s c next) : After answers s first (steps + 1) next

end Crew

/-- The crews that a parallel search below `base` comes to in a number of steps, once it has begun. -/
def Selection.CrewAfter (s : Selection) (answers : Answers) (base : Path) (steps : Nat) (c : Crew) :
    Prop :=
  let opening := (s.begin base).runOn answers []
  ∃ t, opening.ending = .ok (some t) ∧ (Crew.start s opening.asked t).After answers s steps c

theorem Dialogue.runOn_const {α : Type} (fs : FileSystem) (before : List Query) (d : Dialogue α) :
    d.runOn (fun _ => fs) before = d.run fs := by
  induction d generalizing before with
  | done | stop => rfl
  | report p rest ih => rw [runOn, run, ih]
  | ask q next ih => rw [runOn, run, ih]

end TreeGlob
