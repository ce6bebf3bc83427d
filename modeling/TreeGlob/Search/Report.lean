import TreeGlob.Search.Pool
import TreeGlob.Search.Settings

/-!
Whole searches, and what comes of them.

* `Selection.sequential` visits one directory after the other, each with all it holds before the next.
* `Selection.search` searches as the settings say.

A search through links that change while it runs need not end, so both take a bound. On a disk that
stays as it is, `Disk.extent` is bound enough: no directory is entered within itself, so a descent is
no longer than there are directories.
-/
namespace TreeGlob

structure Report where
  /-- The paths found, in the order in which they were. -/
  found : List Path
  /-- The directories that were to be listed, in order. -/
  listed : List Path
  failure : Option Failure
deriving Repr, DecidableEq

def listedIn (asked : List Query) : List Path :=
  asked.filterMap fun
    | .list p => some p
    | _ => none

def Transcript.report {α : Type} (t : Transcript α) : Report where
  found := t.found
  listed := listedIn t.asked
  failure :=
    match t.ending with
    | .ok _ => none
    | .error why => some why

structure Extent where
  /-- How many directories may lie within each other on the way to an entry. -/
  depth : Nat
  /-- How many steps the jobs of a parallel search may take altogether. -/
  steps : Nat
deriving Repr, DecidableEq

/-- Bound enough for a tree of `n` entries. Each directory visited asks and reports a few times for
each of its entries, and each is reached by a sequence of entries that does not repeat a directory. -/
def Extent.ofSize (n : Nat) : Extent where
  depth := n + 2
  steps := (3 * n + 3) * Nat.pow (n + 1) (n + 2)

def Disk.extent (d : Disk) : Extent := .ofSize d.entries.length

namespace Selection

/-- Visits a directory and then, one after the other, those within it that are worth entering. -/
def visitAll (s : Selection) : (depth : Nat) → Task → Dialogue Unit
  | 0, _ => .stop .tooDeep
  | depth + 1, t => do
    let tasks ← t.visit s
    tasks.forM (visitAll s depth)

/-- A sequential search that begins with the task that `start` gives. -/
def sequentialFrom (s : Selection) (start : Dialogue (Option Task)) (depth : Nat) :
    Dialogue Unit := do
  match ← start with
  | none => return
  | some t => s.visitAll depth t

/-- A parallel search that begins with the task that `start` gives, with the jobs taking turns as
`pick` chooses. -/
def parallelFrom (s : Selection) (start : Dialogue (Option Task)) (fs : FileSystem)
    (pick : Nat → Nat) (steps : Nat) : Report :=
  let opening := start.run fs
  match opening.ending with
  | .error _ | .ok none => opening.report
  | .ok (some t) =>
    let p := (Pool.start (t.visit s)).run fs s pick steps
    { found := p.found
      listed := listedIn (opening.asked ++ p.asked)
      failure := if p.isOver then p.failure else some .tooDeep }

def sequential (s : Selection) (depth : Nat) (base : Path) : Dialogue Unit :=
  s.sequentialFrom (s.begin base) depth

/-- A parallel search below `base`. -/
def parallel (s : Selection) (fs : FileSystem) (pick : Nat → Nat) (steps : Nat) (base : Path) :
    Report :=
  s.parallelFrom (s.begin base) fs pick steps

/-- A search below `base`. In a parallel one the jobs take turns, round and round. -/
def search (s : Selection) (strategy : Strategy) (fs : FileSystem) (extent : Extent) (base : Path) :
    Report :=
  match strategy with
  | .sequential => ((s.sequential extent.depth base).run fs).report
  | .parallel => s.parallel fs id extent.steps base

def ofGlobs (settings : Settings) (included excluded : List Text) : Except FsError Selection :=
  (compile settings.dialect included excluded settings.skipHidden).mapError .pattern

end Selection

/-- A search for globs below an absolute path: what has to hold before it starts. -/
def prepare (settings : Settings) (base : Path) (included excluded : List Text) :
    Except FsError Selection :=
  if base.isAbsolute then Selection.ofGlobs settings included excluded
  else .error (.invalidPath base)

end TreeGlob
