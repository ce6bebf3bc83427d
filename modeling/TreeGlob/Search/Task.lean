import TreeGlob.Search.Dialogue
import TreeGlob.Selection

/-!
The steps of a search. A task is one directory to list. Visiting it lists it, reports the entries that
the selection wants, and gives the tasks for the directories that are worth entering.

* `Task.leadsBack` is the guard against going in circles through links.
* `Task.visit` visits one directory.
* `Selection.begin` finds the first task: it goes straight down the directory that all included
  patterns start with, by the same rules that visiting would apply on the way.
-/
namespace TreeGlob

structure Task where
  path : Path
  /-- The way from the base of the search; empty, or with a separator at the end. -/
  relative : Text
  /-- The real path of the directory. -/
  real : Path
  /-- The real paths of the directories entered before it, innermost first. -/
  above : List Path
deriving Repr, DecidableEq

namespace Task

/-- Whether a link to `destination` leads back to the directories entered so far: to one of them or
to something that contains one of them. -/
def leadsBack (t : Task) (destination : Path) : Bool :=
  (t.real :: t.above).any (·.startsWith destination)

/-- The task for the directory `name` within `t`, where `text` is the name as text. -/
def enter (t : Task) (name : Name) (text : Text) (real : Path) : Task where
  path := t.path.child name
  relative := t.relative ++ text ++ ['/']
  real := real
  above := t.real :: t.above

/-- What an entry is, once links are followed. -/
inductive Kind where
  | other
  | directory (real : Path) (viaLink : Bool)
deriving Repr, DecidableEq

open Dialogue in
/-- Finds out what an entry of the directory is. A link that cannot be resolved is nothing at all. -/
def classify (t : Task) (c : Child) : Dialogue (Option Kind) := do
  if !c.isLink then
    return some (if c.isDirectory then .directory (t.real.child c.name) false else .other)
  match ← query (.resolve (t.path.child c.name)) with
  | .crash => .stop .crash
  | .error _ => return none
  | .ok destination =>
    if ← query (.isDirectory destination) then return some (.directory destination true)
    else return some .other

open Dialogue in
/-- What is done about an entry once it is known what it is: it is reported if it is wanted, and it is
entered if that is worth while. -/
def conclude (t : Task) (v : Verdict) (name : Name) (text : Text) (kind : Kind) :
    Dialogue (List Task) := do
  if v.hit then announce (t.path.child name)
  match kind with
  | .other => return []
  | .directory real viaLink =>
    if v.prune then return []
    if viaLink && t.leadsBack real then return []
    return [t.enter name text real]

/-- Looks at one entry, and gives the task to enter it if there is one. -/
def visitChild (s : Selection) (t : Task) (c : Child) : Dialogue (List Task) := do
  match Utf8.decode? c.name with
  | none => return []
  | some name =>
    if s.hides name then return []
    let v := s.verdict (t.relative ++ name)
    if !v.hit && v.prune then return []
    match ← t.classify c with
    | none => return []
    | some kind => t.conclude v c.name name kind

/-- Looks at several entries in order. -/
def visitChildren (s : Selection) (t : Task) : List Child → Dialogue (List Task)
  | [] => return []
  | c :: rest => do
    let first ← visitChild s t c
    let others ← visitChildren s t rest
    return first ++ others

open Dialogue in
/-- Lists the directory and looks at its entries. A directory other than the base may have gone in
the meantime; then there is nothing to look at. -/
def visit (s : Selection) (t : Task) : Dialogue (List Task) := do
  match ← query (.list t.path) with
  | .ok children => t.visitChildren s children
  | .crash => .stop .crash
  | .error e => if e.isNotFound && !t.relative.isEmpty then return [] else .stop (.error e)

end Task

namespace Selection

/-- The components of the directory that all included patterns start with. -/
def startComponents (s : Selection) : List Text := pieces s.startDirectory
where
  /-- The non-empty pieces of a text between its separators. -/
  pieces : Text → List Text
    | [] => []
    | c :: rest =>
      if c = '/' then pieces rest
      else if rest.head? = some '/' ∨ rest = [] then [c] :: pieces rest
      else
        match pieces rest with
        | [] => [[c]]
        | piece :: others => (c :: piece) :: others

open Dialogue in
/-- Goes from a directory into one of its entries, by name. Gives `none` if nothing below the entry
can be wanted: it is hidden, excluded, absent, no directory, or leads back. -/
def stepDown (s : Selection) (t : Task) (component : Text) : Dialogue (Option Task) := do
  if s.hides component || s.excludes (t.relative ++ component) then return none
  let name := Utf8.encode component
  match ← query (.canonicalize (t.path.child name)) with
  | .crash => .stop .crash
  | .error e => if e.isNotFound then return none else .stop (.error e)
  | .ok real =>
    if !(← query (.isDirectory real)) then return none
    if t.leadsBack real then return none
    return some (t.enter name component real)

/-- Goes down several components, or as far as anything can be wanted. -/
def descend (s : Selection) : List Text → Task → Dialogue (Option Task)
  | [], t => return some t
  | component :: rest, t => do
    match ← s.stepDown t component with
    | none => return none
    | some next => descend s rest next

open Dialogue in
def baseTask (base : Path) : Dialogue Task := do
  let real ← demand (← query (.canonicalize base))
  if ← query (.isDirectory real) then return ⟨base, [], real, []⟩
  else .stop (.error (.notADirectory base))

/-- The task that is reached from `base` through the given components, if there is one. -/
def beginAlong (s : Selection) (components : List Text) (base : Path) : Dialogue (Option Task) := do
  let t ← baseTask base
  s.descend components t

def begin (s : Selection) (base : Path) : Dialogue (Option Task) :=
  s.beginAlong s.startComponents base

end Selection

end TreeGlob
