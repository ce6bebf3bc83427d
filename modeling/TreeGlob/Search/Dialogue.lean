import TreeGlob.Disk.Primitive

/-!
A search is a dialogue with a file system: it asks questions, and what it asks next depends on the
answers. The questions are read only. Nothing is assumed about the answers; a file system may be a
disk, a disk with faults, or anything that answers.

* `Query` and `Query.Reply` are the questions and what may be answered to each.
* `FileSystem` answers every question in one fixed way.
* `Dialogue` is a finite tree of questions, which also reports paths on the way.
* `Dialogue.run` holds the dialogue with a file system and writes down what happened.

Main statements: dialogues compose, and what a composed dialogue reports is what its parts report.
-/
namespace TreeGlob

inductive Failure where
  | error (e : FsError)
  /-- The file system died in the middle of an answer. -/
  | crash
  /-- The search went deeper than it was allowed to. -/
  | tooDeep
deriving Repr, DecidableEq

inductive Answer (α : Type) where
  | ok (a : α)
  | error (e : FsError)
  | crash
deriving Repr, DecidableEq

def Answer.ofExcept {α : Type} : Except FsError α → Answer α
  | .ok a => .ok a
  | .error e => .error e

inductive Query where
  /-- The entries of a directory. -/
  | list (p : Path)
  /-- Where a link leads. -/
  | resolve (p : Path)
  /-- The real path. -/
  | canonicalize (p : Path)
  /-- Whether a path leads to anything. -/
  | leads (p : Path)
  /-- Whether a path leads to a directory. -/
  | isDirectory (p : Path)
deriving Repr, DecidableEq

abbrev Query.Reply : Query → Type
  | .list _ => Answer (List Child)
  | .resolve _ => Answer Path
  | .canonicalize _ => Answer Path
  | .leads _ => Bool
  | .isDirectory _ => Bool

/-- A file system that answers the same question always in the same way. -/
abbrev FileSystem := (q : Query) → q.Reply

/-- A search, up to the answers: it ends, breaks off, reports a path, or asks. -/
inductive Dialogue (α : Type) : Type where
  | done (a : α)
  | stop (why : Failure)
  | report (p : Path) (rest : Dialogue α)
  | ask (q : Query) (next : q.Reply → Dialogue α)

structure Transcript (α : Type) where
  /-- The reported paths, in order. -/
  found : List Path
  /-- The questions, in order. -/
  asked : List Query
  ending : Except Failure α

namespace Dialogue

variable {α β : Type}

def bind : Dialogue α → (α → Dialogue β) → Dialogue β
  | .done a, f => f a
  | .stop why, _ => .stop why
  | .report p rest, f => .report p (rest.bind f)
  | .ask q next, f => .ask q fun reply => (next reply).bind f

instance : Monad Dialogue where
  pure := .done
  bind := bind

@[simp] theorem done_bind (a : α) (f : α → Dialogue β) : (Dialogue.done a >>= f) = f a := rfl

@[simp] theorem stop_bind (why : Failure) (f : α → Dialogue β) :
    (Dialogue.stop why >>= f) = .stop why := rfl

@[simp] theorem report_bind (p : Path) (rest : Dialogue α) (f : α → Dialogue β) :
    (Dialogue.report p rest >>= f) = .report p (rest >>= f) := rfl

@[simp] theorem ask_bind (q : Query) (next : q.Reply → Dialogue α) (f : α → Dialogue β) :
    (Dialogue.ask q next >>= f) = .ask q fun reply => next reply >>= f := rfl

@[simp] theorem pure_eq_done (a : α) : (pure a : Dialogue α) = .done a := rfl

def query (q : Query) : Dialogue q.Reply := .ask q .done

def announce (p : Path) : Dialogue Unit := .report p (.done ())

/-- Goes on with an answer, or breaks off if there is none. -/
def demand : Answer α → Dialogue α
  | .ok a => .done a
  | .error e => .stop (.error e)
  | .crash => .stop .crash

def run (fs : FileSystem) : Dialogue α → Transcript α
  | .done a => ⟨[], [], .ok a⟩
  | .stop why => ⟨[], [], .error why⟩
  | .report p rest =>
    let t := rest.run fs
    { t with found := p :: t.found }
  | .ask q next =>
    let t := (next (fs q)).run fs
    { t with asked := q :: t.asked }

end Dialogue

/-- The transcript of a dialogue that goes on, given how it goes on after the first part. -/
def Transcript.andThen {α β : Type} (t : Transcript α) (next : α → Transcript β) : Transcript β :=
  match t.ending with
  | .error why => ⟨t.found, t.asked, .error why⟩
  | .ok a => ⟨t.found ++ (next a).found, t.asked ++ (next a).asked, (next a).ending⟩

theorem Dialogue.run_bind {α β : Type} (fs : FileSystem) (d : Dialogue α) (f : α → Dialogue β) :
    (d >>= f).run fs = (d.run fs).andThen fun a => (f a).run fs := by
  induction d with
  | done a => simp [run, Transcript.andThen]
  | stop why => simp [run, Transcript.andThen]
  | report p rest ih =>
    rw [report_bind, run, ih, run]
    unfold Transcript.andThen
    cases (rest.run fs).ending <;> rfl
  | ask q next ih =>
    rw [ask_bind, run, ih, run]
    unfold Transcript.andThen
    cases ((next (fs q)).run fs).ending <;> rfl

/-! ## A disk as a file system -/

namespace Disk

def answer {α : Type} (p : Path) (r : Except IoError α) : Answer α :=
  .ofExcept (r.mapError (FsError.ofIo · p))

/-- Where a link leads. It is a failure if the path is no link or its end is absent. -/
def resolve (d : Disk) (p : Path) : Answer Path :=
  match d.lstat p with
  | .error e => .error (.ofIo e p)
  | .ok (.link _) => answer p (d.realPath p)
  | .ok _ => .error (.notASymlink p)

def fileSystem (d : Disk) : FileSystem
  | .list p => answer p (d.list p)
  | .resolve p => d.resolve p
  | .canonicalize p => answer p (d.realPath p)
  | .leads p => d.exists? p
  | .isDirectory p => d.isDirectory p

end Disk

end TreeGlob
