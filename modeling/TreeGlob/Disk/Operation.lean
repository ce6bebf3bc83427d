import TreeGlob.Disk.Primitive

/-!
The file operations that callers use. They take absolute paths, say which path a failure concerns, and
may change the disk before they fail: an `Action` gives a result or a failure, and the disk as it is
afterwards in either case.

* `Action.reading` and `Action.changing` lift the single steps of a disk.
* `Action.remove`, `Action.move`, `Action.copy` and `Action.replace` work on whole subtrees.

Main statement: an operation on a relative path fails and leaves the disk as it was.
-/
namespace TreeGlob

/-- An operation on a disk. -/
abbrev Action (α : Type) := ExceptT FsError (StateM Disk) α

namespace Action

/-- What an action gives on a disk, and the disk afterwards. -/
def runOn (a : Action α) (d : Disk) : Except FsError α × Disk := (ExceptT.run a).run d

/-- A step that only reads, on behalf of the path `p`. -/
def reading (p : Path) (step : Disk → Except IoError α) : Action α := do
  match step (← get) with
  | .ok a => return a
  | .error e => throw (.ofIo e p)

/-- A step that changes the disk, on behalf of the path `p`. -/
def changing (p : Path) (step : Disk → Except IoError Disk) : Action Unit := do
  match step (← get) with
  | .ok d => set d
  | .error e => throw (.ofIo e p)

def requireAbsolute (p : Path) : Action Unit :=
  if p.isAbsolute then pure () else throw (.invalidPath p)

/-! ## Files -/

def touch (p : Path) : Action Unit := do
  requireAbsolute p
  changing p fun d => (d.openFile p).map (·.1)

def readBytes (p : Path) : Action Bytes := do
  requireAbsolute p
  reading p (·.read p)

def readText (p : Path) : Action Text := do
  let contents ← readBytes p
  match Utf8.decode? contents with
  | some t => return t
  | none => throw (.ofIo .notText p)

def writeBytes (p : Path) (contents : Bytes) : Action Unit := do
  requireAbsolute p
  changing p (·.write p contents)

def directorySize : Nat := 4096

def fileSize (p : Path) : Action Nat := do
  requireAbsolute p
  match ← reading p (·.stat p) with
  | .file contents => return contents.length
  | _ => return directorySize

/-! ## Directories -/

/-- From a path upwards, the directories that have to be made, outermost first, so that all exist.
The first of `paths` is wanted, each of the others is the parent of the one before. Making stops at
the first that can be made or is there; it is made already in the disk that is given back. -/
def climb (d : Disk) : (paths : List Path) → (missing : List Path) → Except IoError (Disk × List Path)
  | [], missing => .ok (d, missing)
  | p :: above, missing =>
    match d.makeDir p with
    | .ok made => .ok (made, missing)
    | .error e =>
      match e.kind with
      | .notFound => climb d above (p :: missing)
      | .alreadyExists => if d.isDirectory p then .ok (d, missing) else .error e
      | _ => .error e

/-- Makes a directory unless it is there, on behalf of the path `p`. -/
def ensureDirectory (p dir : Path) : Action Unit := do
  let d ← get
  match d.makeDir dir with
  | .ok made => set made
  | .error e =>
    if e.kind = .alreadyExists ∧ d.isDirectory dir then pure () else throw (.ofIo e p)

/-- Makes a directory and the directories above it that are missing. -/
def makeDirectories (p : Path) : Action Unit := do
  match climb (← get) p.ancestors [] with
  | .error e => throw (.ofIo e p)
  | .ok (d, missing) =>
    set d
    missing.forM (ensureDirectory p)

def makeDirectory (p : Path) (recursive : Bool) : Action Unit := do
  requireAbsolute p
  if recursive then makeDirectories p else changing p (·.makeDir p)

/-! ## Links -/

def makeSymlink (p target : Path) : Action Unit := do
  requireAbsolute p
  changing p (·.makeLink target p)

/-- The real path of what a path leads to, or the path itself if that is nothing. -/
def resolveLinks (p : Path) : Action Path := do
  requireAbsolute p
  match (← get).realPath p with
  | .ok real => return real
  | .error e => if e.kind = .notFound then return p else throw (.ofIo e p)

/-- The first of `dir/relative`, `parent of dir/relative` and so on that exists. -/
def locateUpwards (dir relative : Path) : Action (Option Path) := do
  requireAbsolute dir
  let d ← get
  return (dir.ancestors.map (·.join relative)).find? d.exists?

/-! ## Subtrees -/

/-- Empties a directory, whatever is in it, and removes it. If emptying it took away the path that led
to it, it counts as removed. -/
def removeTree (p : Path) : Action Unit := do
  let d ← get
  match d.locate .keep p with
  | .error e => throw (.ofIo e p)
  | .ok (place, _) =>
    let cleared := d.clear place
    set cleared
    match cleared.removeDir p with
    | .ok removed => set removed
    | .error e => if e.kind = .notFound then pure () else throw (.ofIo e p)

/-- Removes the entry at a path: a file, a link as such, or a directory with all it holds. A path
with no entry is fine. -/
def remove (p : Path) : Action Unit := do
  requireAbsolute p
  match (← get).lstat p with
  | .error e => if e.kind = .notFound then pure () else throw (.ofIo e p)
  | .ok .dir => removeTree p
  | .ok _ => changing p (·.unlink p)

/-- Requires an entry at `source` and none at `target`. -/
def requireFree (source target : Path) : Action Unit := do
  requireAbsolute source
  requireAbsolute target
  let d ← get
  if !d.present source then throw (.notFound source)
  if d.present target then throw (.alreadyExists target)

/-- Moves an entry to a path where there is none. On the one device of a disk that takes a renaming and
no copy. -/
def move (source target : Path) : Action Unit := do
  requireFree source target
  changing source (·.rename source target)

def copyLink (source target : Path) : Action Unit := do
  let held ← reading source (·.readLink source)
  changing target (·.makeLink held target)

/-- Copies what is in the directory at `source` into the one at `target`, links as links. The bound
`depth` on the levels below is never met, since a path that deep is too long. -/
def copyContents : (depth : Nat) → (source target : Path) → Action Unit
  | 0, source, _ => throw (.ofIo (.os Errno.nameTooLong) source)
  | depth + 1, source, target => do
    let children ← reading source (·.list source)
    children.forM fun c => do
      let from_ := source.child c.name
      let to_ := target.child c.name
      if c.isDirectory then
        makeDirectories to_
        copyContents depth from_ to_
      else if c.isLink then copyLink from_ to_
      else changing from_ (·.copyFile from_ to_)

/-- Copies a file, or a directory with all it holds. A source that is a link to a directory is made
again as a link, and then what is in the directory is copied through the new link. -/
def copyTree (source target : Path) : Action Unit := do
  match ← reading source (·.lstat source) with
  | .dir =>
    makeDirectories target
    copyContents maxPathLength source target
  | .link _ =>
    let destination ← reading source (·.stat source)
    copyLink source target
    if destination = .dir then copyContents maxPathLength source target
  | .file _ => changing source (·.copyFile source target)

def copy (source target : Path) : Action Unit := do
  requireFree source target
  copyTree source target

/-- Puts a copy of `source` at `target` instead of what is there. -/
def replace (target source : Path) : Action Unit := do
  requireAbsolute target
  requireAbsolute source
  if !(← get).present source then throw (.notFound source)
  remove target
  copy source target

theorem requireAbsolute_of_relative {p : Path} (h : p.isAbsolute = false) (d : Disk) :
    (requireAbsolute p).runOn d = (.error (.invalidPath p), d) := by
  simp [requireAbsolute, h, runOn]
  rfl

end Action

end TreeGlob
