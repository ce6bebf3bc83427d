import TreeGlob.Disk.Resolve

/-!
The single steps that a disk can take. Each of them happens as a whole or, with an error of the
system, not at all. Reading steps leave the disk alone; changing steps give the disk after the change.

Main statements: a directory or a link is made where nothing was, in a directory that is there, and
nothing else changes.
-/
namespace TreeGlob

/-- What a directory listing says about an entry, links not followed. -/
structure Child where
  name : Name
  isDirectory : Bool
  isLink : Bool
deriving Repr, DecidableEq

def Child.ofEntry (name : Name) (e : Entry) : Child where
  name := name
  isDirectory := e = .dir
  isLink := match e with
    | .link _ => true
    | _ => false

namespace Disk

/-! ## Reading -/

/-- The entries of a directory, in the order in which they stand there. -/
def list (d : Disk) (p : Path) : Except IoError (List Child) := do
  let (place, e) ← d.locate .follow p
  match e with
  | .dir => .ok ((d.children place).map fun c => Child.ofEntry c.1 c.2)
  | _ => .error (.os Errno.notDirectory)

def read (d : Disk) (p : Path) : Except IoError Bytes := do
  match ← d.stat p with
  | .file contents => .ok contents
  | _ => .error (.os Errno.isDirectory)

def readLink (d : Disk) (p : Path) : Except IoError Path := do
  match ← d.lstat p with
  | .link target => .ok target
  | _ => .error (.os Errno.invalid)

/-! ## Making entries -/

def makeDir (d : Disk) (p : Path) : Except IoError Disk := do
  let s ← d.spot .unseen p
  match s.last with
  | some (.name n) =>
    match ← d.lookUp s n with
    | none => .ok (d.put s.place .dir)
    | some _ => .error (.os Errno.alreadyThere)
  | _ => .error (.os Errno.alreadyThere)

/-- Makes a link at `p` that holds `target`. The target need not exist, but it must be a path. -/
def makeLink (d : Disk) (target p : Path) : Except IoError Disk := do
  target.requireNoZero
  p.requireNoZero
  let _ ← target.admit
  let s ← d.spot .unseen p
  match s.last with
  | some (.name n) =>
    match ← d.lookUp s n with
    | none => if s.slash then .error (.os Errno.noEntry) else .ok (d.put s.place (.link target))
    | some _ => .error (.os Errno.alreadyThere)
  | _ => .error (.os Errno.alreadyThere)

/-- Opens a file for writing and makes it, empty, if it is not there. A link at the end is followed,
also to where nothing is yet. Gives the place of the file. -/
def openFile (d : Disk) (p : Path) : Except IoError (Disk × Place) := do
  let s ← d.spot .create p
  match s.last with
  | some (.name _) =>
    if s.slash then .error (.os Errno.isDirectory)
    else
      match d.get? s.place with
      | none => .ok (d.put s.place (.file []), s.place)
      | some (.file _) => .ok (d, s.place)
      | some _ => .error (.os Errno.isDirectory)
  | _ => .error (.os Errno.isDirectory)

/-- Gives a file new contents, and makes it if it is not there. -/
def write (d : Disk) (p : Path) (contents : Bytes) : Except IoError Disk := do
  let (opened, place) ← d.openFile p
  .ok (opened.put place (.file contents))

/-! ## Taking entries away -/

def unlink (d : Disk) (p : Path) : Except IoError Disk := do
  let s ← d.spot .unseen p
  match s.last with
  | some (.name n) =>
    match ← d.lookUp s n with
    | none => .error (.os Errno.noEntry)
    | some .dir => .error (.os Errno.isDirectory)
    | some _ => if s.slash then .error (.os Errno.notDirectory) else .ok (d.erase s.place)
  | _ => .error (.os Errno.isDirectory)

def removeDir (d : Disk) (p : Path) : Except IoError Disk := do
  let s ← d.spot .unseen p
  match s.last with
  | none => .error (.os Errno.busy)
  | some .here => .error (.os Errno.invalid)
  | some .up => .error (.os Errno.notEmpty)
  | some (.name n) =>
    match ← d.lookUp s n with
    | none => .error (.os Errno.noEntry)
    | some .dir =>
      if (d.children s.place).isEmpty then .ok (d.erase s.place) else .error (.os Errno.notEmpty)
    | some _ => .error (.os Errno.notDirectory)

/-! ## Moving and copying one entry -/

/-- Whether the entry `source` may take the place of what is `there` at a place. A directory only takes
the place of an empty directory, anything else only that of something that is no directory. -/
def replaceable (d : Disk) (source : Entry) (place : Place) (there : Option Entry) :
    Except IoError Unit :=
  match source, there with
  | _, none => .ok ()
  | .dir, some .dir =>
    if (d.children place).isEmpty then .ok () else .error (.os Errno.notEmpty)
  | .dir, some _ => .error (.os Errno.notDirectory)
  | _, some .dir => .error (.os Errno.isDirectory)
  | _, some _ => .ok ()

/-- Moves an entry, with everything below it, to another place in one step. Neither path's last link
is followed. A directory cannot move into itself. -/
def rename (d : Disk) (source target : Path) : Except IoError Disk := do
  source.requireNoZero
  target.requireNoZero
  let s ← d.spot .unseen source
  let t ← d.spot .unseen target
  match s.last, t.last with
  | some (.name m), some (.name n) =>
    match ← d.lookUp s m with
    | none => .error (.os Errno.noEntry)
    | some e =>
      let there ← d.lookUp t n
      if e ≠ .dir ∧ (s.slash || t.slash) then .error (.os Errno.notDirectory)
      else if s.place.isPrefixOf t.dir then .error (.os Errno.invalid)
      else if t.place.isPrefixOf s.dir then .error (.os Errno.notEmpty)
      else if s.place = t.place then .ok d
      else do
        d.replaceable e t.place there
        .ok (d.relocate s.place t.place)
  | _, _ => .error (.os Errno.busy)

/-- Copies the contents of a file into the file at `target`. The target is emptied before the source
is read, so a file that is copied onto itself ends up empty. -/
def copyFile (d : Disk) (source target : Path) : Except IoError Disk := do
  let (from_, e) ← d.locate .follow source
  match e with
  | .file _ =>
    let (opened, to_) ← d.openFile target
    let emptied := opened.put to_ (.file [])
    match emptied.get? from_ with
    | some (.file contents) => .ok (emptied.put to_ (.file contents))
    | _ => .ok emptied
  | _ => .error (.stated .other
      "the source path is neither a regular file nor a symlink to a regular file")

/-! ## What making changes -/

theorem lookUp_eq_none {d : Disk} {s : Spot} {n : Name} (h : d.lookUp s n = .ok none) :
    d.get? s.place = none := by
  unfold lookUp at h
  split at h
  · cases h
  · exact Except.ok.inj h

theorem free_of_lookUp {d : Disk} {mode : LastName} {p : Path} {s : Spot} {n : Name}
    (hs : d.spot mode p = .ok s) (hn : s.last = some (.name n)) (hu : d.lookUp s n = .ok none) :
    s.place = s.dir ++ [n] ∧ d.get? s.dir = some .dir ∧ d.get? (s.dir ++ [n]) = none := by
  have hp := Spot.place_of_name hn
  exact ⟨hp, get?_dir_of_spot hs, hp ▸ lookUp_eq_none hu⟩

theorem makeDir_eq_put {d made : Disk} {p : Path} (h : d.makeDir p = .ok made) :
    ∃ dir n, d.get? dir = some .dir ∧ d.get? (dir ++ [n]) = none ∧
      made = d.put (dir ++ [n]) .dir := by
  simp only [makeDir, bind, Except.bind] at h
  split at h
  · cases h
  next s hs =>
  split at h
  · next n hn =>
    split at h
    · cases h
    next found hu =>
    split at h
    · obtain ⟨hp, hd, hf⟩ := free_of_lookUp hs hn hu
      exact ⟨s.dir, n, hd, hf, hp ▸ (Except.ok.inj h).symm⟩
    · cases h
  · cases h

theorem makeLink_eq_put {d made : Disk} {target p : Path} (h : d.makeLink target p = .ok made) :
    ∃ dir n, d.get? dir = some .dir ∧ d.get? (dir ++ [n]) = none ∧
      made = d.put (dir ++ [n]) (.link target) := by
  simp only [makeLink, bind, Except.bind] at h
  split at h
  · cases h
  split at h
  · cases h
  split at h
  · cases h
  split at h
  · cases h
  next s hs =>
  split at h
  · next n hn =>
    split at h
    · cases h
    next found hu =>
    split at h
    · split at h
      · cases h
      · obtain ⟨hp, hd, hf⟩ := free_of_lookUp hs hn hu
        exact ⟨s.dir, n, hd, hf, hp ▸ (Except.ok.inj h).symm⟩
    · cases h
  · cases h

end Disk

end TreeGlob
