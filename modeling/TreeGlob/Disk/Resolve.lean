import TreeGlob.Disk.Basic
import TreeGlob.Failure

/-!
Path resolution: which place on a disk a path means.

A path is split into steps. They are walked from the root (or from the current directory, which is the
root) through directories; a link on the way is replaced by the steps of its target, at most
`maxLinks` times. The walk stops before the last step, at a `Spot`: creating, renaming and removing
need to know the directory and the name, also when nothing is there yet.

* `Disk.walkSteps` walks until it has to follow a link, `Disk.walk` follows links as well.
* `Disk.spot` resolves a path up to its last step, `Disk.locate` resolves it to an existing entry.
* `Disk.realPath` is the path without links, dots and repeated separators.

Main statements: a path that is located has an entry at its place, and the directory of a spot is
there.
-/
namespace TreeGlob

inductive Step where
  | here
  | up
  | name (n : Name)
deriving Repr, DecidableEq

/-- A path as the walk takes it. -/
structure Route where
  /-- It starts at the root. -/
  absolute : Bool
  steps : List Step
  /-- A separator follows the last step, so that it has to be a directory. -/
  slash : Bool
deriving Repr, DecidableEq

def Step.ofPiece (piece : Name) : Step :=
  if piece = [dot] then .here else if piece = [dot, dot] then .up else .name piece

def Path.route (p : Path) : Route where
  absolute := p.isAbsolute
  steps := p.pieces.map Step.ofPiece
  slash := p.bytes.getLast? = some separator

/-- How many links one resolution may follow. -/
def maxLinks : Nat := 40

def maxNameLength : Nat := 255

/-- A path must be shorter than this, in bytes. -/
def maxPathLength : Nat := 4096

/-- What to do at the last step, if it is a name. -/
inductive LastName where
  /-- It is not looked up; whoever wants the entry does that. -/
  | unseen
  /-- If it is a link, the link itself is meant, unless a separator follows it. -/
  | keep
  /-- If it is a link, it is followed. -/
  | follow
  /-- It is followed, so as to create a file at its end; but a name with a separator behind it is
  not even looked up, since no file can be created there. -/
  | create
  /-- It is followed, and every place on the way is looked up by its own absolute path. -/
  | spell
deriving Repr, DecidableEq

namespace LastName

/-- Whether the walk ends before the last name is looked up. -/
def skips : LastName → (slash : Bool) → Bool
  | .unseen, _ => true
  | .create, slash => slash
  | _, _ => false

/-- Whether the walk ends at a link in the last step. -/
def keeps : LastName → (slash : Bool) → Bool
  | .keep, slash => !slash
  | _, _ => false

/-- Whether a place cannot be looked up since its absolute path would be too long. -/
def refuses : LastName → Place → Bool
  | .spell, place => maxPathLength ≤ (Disk.pathTo place).bytes.length
  | _, _ => false

end LastName

/-- Where a path points: the directory before its last step, and that step. -/
structure Spot where
  /-- An existing directory. -/
  dir : Place
  /-- The last step; a path of separators only has none and means `dir` itself. -/
  last : Option Step
  slash : Bool
deriving Repr, DecidableEq

/-- The place that a spot means, whether or not there is an entry. -/
def Spot.place (s : Spot) : Place :=
  match s.last with
  | none | some .here => s.dir
  | some .up => s.dir.dropLast
  | some (.name n) => s.dir ++ [n]

namespace Disk

/-- Walks steps from the directory at `at_`. `onLink` goes on where a link is to be followed: it is
given the directory to go on from, the steps to take there, and whether a separator ends them. -/
def walkSteps (d : Disk) (mode : LastName)
    (onLink : Place → List Step → Bool → Except IoError Spot) :
    (at_ : Place) → (steps : List Step) → (slash : Bool) → Except IoError Spot
  | at_, [], slash => .ok ⟨at_, none, slash⟩
  | at_, .here :: rest, slash =>
    if rest = [] then .ok ⟨at_, some .here, slash⟩ else walkSteps d mode onLink at_ rest slash
  | at_, .up :: rest, slash =>
    if rest = [] then .ok ⟨at_, some .up, slash⟩
    else walkSteps d mode onLink at_.dropLast rest slash
  | at_, .name n :: rest, slash =>
    if rest = [] ∧ mode.skips slash then .ok ⟨at_, some (.name n), slash⟩
    else if maxNameLength < n.length ∨ mode.refuses (at_ ++ [n]) then
      .error (.os Errno.nameTooLong)
    else
      match d.get? (at_ ++ [n]) with
      | some (.link target) =>
        if rest = [] ∧ mode.keeps slash then .ok ⟨at_, some (.name n), slash⟩
        else
          let route := target.route
          onLink (if route.absolute then [] else at_) (route.steps ++ rest)
            (if rest = [] then slash || route.slash else slash)
      | found =>
        if rest = [] then .ok ⟨at_, some (.name n), slash⟩
        else
          match found with
          | some .dir => walkSteps d mode onLink (at_ ++ [n]) rest slash
          | some _ => .error (.os Errno.notDirectory)
          | none => .error (.os Errno.noEntry)

/-- Walks steps and follows at most `links` links. -/
def walk (d : Disk) (mode : LastName) :
    (links : Nat) → Place → List Step → Bool → Except IoError Spot
  | 0 => d.walkSteps mode fun _ _ _ => .error (.os Errno.tooManyLinks)
  | links + 1 => d.walkSteps mode (walk d mode links)

end Disk

/-- Refuses a path with a zero byte in it. A step that takes two paths refuses either of them before
the system sees any. -/
def Path.requireNoZero (p : Path) : Except IoError Unit :=
  if p.bytes.contains 0 then .error .zeroByte else .ok ()

/-- The route of a path that names anything. -/
def Path.spelled (p : Path) : Except IoError Route := do
  p.requireNoZero
  if p.bytes.isEmpty then .error (.os Errno.noEntry) else .ok p.route

/-- The route of a path that can be handed to the system, which does not take long ones. -/
def Path.admit (p : Path) : Except IoError Route := do
  let route ← p.spelled
  if maxPathLength ≤ p.bytes.length then .error (.os Errno.nameTooLong) else .ok route

namespace Disk

def spot (d : Disk) (mode : LastName) (p : Path) : Except IoError Spot := do
  let route ← p.admit
  d.walk mode maxLinks [] route.steps route.slash

/-- Looks up a name that was left unseen at the end of a walk: the entry at its place, or `none`. -/
def lookUp (d : Disk) (s : Spot) (n : Name) : Except IoError (Option Entry) :=
  if maxNameLength < n.length then .error (.os Errno.nameTooLong) else .ok (d.get? s.place)

def arrive (d : Disk) (s : Spot) : Except IoError (Place × Entry) :=
  match d.get? s.place with
  | none => .error (.os Errno.noEntry)
  | some .dir => .ok (s.place, .dir)
  | some e => if s.slash then .error (.os Errno.notDirectory) else .ok (s.place, e)

def locate (d : Disk) (mode : LastName) (p : Path) : Except IoError (Place × Entry) := do
  d.arrive (← d.spot mode p)

/-- The entry a path leads to, through links. -/
def stat (d : Disk) (p : Path) : Except IoError Entry := (d.locate .follow p).map (·.2)

/-- The entry a path names, itself a link or not. -/
def lstat (d : Disk) (p : Path) : Except IoError Entry := (d.locate .keep p).map (·.2)

/-- Whether a path leads to an entry. A path that cannot be resolved leads to none. -/
def exists? (d : Disk) (p : Path) : Bool := (d.stat p).toBool

/-- Whether there is an entry at a path, be it a link that leads nowhere. -/
def present (d : Disk) (p : Path) : Bool := (d.lstat p).toBool

def isDirectory (d : Disk) (p : Path) : Bool :=
  match d.stat p with
  | .ok .dir => true
  | _ => false

/-- The path of the same entry without links, dots or repeated separators. It is found step by step,
so the length of `p` does not matter, but that of every path on the way does. The limit is the
documented one: the GNU C library also refuses a path of one byte less on the way if a separator or a
dot comes behind it. -/
def realPath (d : Disk) (p : Path) : Except IoError Path := do
  let route ← p.spelled
  let found ← d.arrive (← d.walk .spell maxLinks [] route.steps route.slash)
  .ok (pathTo found.1)

theorem get?_of_arrive {d : Disk} {s : Spot} {place : Place} {e : Entry}
    (h : d.arrive s = .ok (place, e)) : d.get? place = some e := by
  unfold arrive at h
  split at h
  · simp at h
  · next he =>
    simp only [Except.ok.injEq, Prod.mk.injEq] at h
    obtain ⟨rfl, rfl⟩ := h
    exact he
  · next found _ he =>
    split at h
    · simp at h
    · simp only [Except.ok.injEq, Prod.mk.injEq] at h
      obtain ⟨rfl, rfl⟩ := h
      exact he

theorem get?_of_locate {d : Disk} {mode : LastName} {p : Path} {place : Place} {e : Entry}
    (h : d.locate mode p = .ok (place, e)) : d.get? place = some e := by
  unfold locate at h
  cases hs : d.spot mode p with
  | error err => simp [hs, bind, Except.bind] at h
  | ok s => exact get?_of_arrive (by simpa [hs, bind, Except.bind] using h)

theorem isAbsolute_pathTo (place : Place) : (pathTo place).isAbsolute = true := by
  cases place <;> simp [pathTo, Path.isAbsolute, Path.root]

/-! ## A spot is in a directory -/

theorem get?_dropLast_of_dir {d : Disk} {p : Place} (h : d.get? p = some .dir) :
    d.get? p.dropLast = some .dir := get?_dropLast (by simp [h])

/-- A walk from a directory ends in a directory, if it does so wherever a link leads. -/
theorem get?_dir_of_walkSteps {d : Disk} {mode : LastName}
    {onLink : Place → List Step → Bool → Except IoError Spot}
    (hl : ∀ place steps slash s, d.get? place = some .dir → onLink place steps slash = .ok s →
      d.get? s.dir = some .dir)
    {place : Place} {steps : List Step} {slash : Bool} {s : Spot} (hp : d.get? place = some .dir)
    (h : d.walkSteps mode onLink place steps slash = .ok s) : d.get? s.dir = some .dir := by
  fun_induction walkSteps d mode onLink place steps slash with
  | case1 | case2 | case4 | case6 | case8 | case10 => cases h; exact hp
  | case3 _ _ _ _ ih => exact ih hp h
  | case5 _ _ _ _ ih => exact ih (get?_dropLast_of_dir hp) h
  | case11 _ _ _ _ _ _ _ _ hd ih => exact ih hd h
  | case9 => exact hl _ _ _ _ (by split <;> simp [hp]) h
  | case7 | case12 | case13 => cases h

theorem get?_dir_of_walk {d : Disk} {mode : LastName} {links : Nat} {place : Place}
    {steps : List Step} {slash : Bool} {s : Spot} (hp : d.get? place = some .dir)
    (h : d.walk mode links place steps slash = .ok s) : d.get? s.dir = some .dir := by
  induction links generalizing place steps slash s with
  | zero => exact get?_dir_of_walkSteps (fun _ _ _ _ _ h => by cases h) hp h
  | succ links ih => exact get?_dir_of_walkSteps (fun _ _ _ _ hd h => ih hd h) hp h

theorem get?_dir_of_spot {d : Disk} {mode : LastName} {p : Path} {s : Spot}
    (h : d.spot mode p = .ok s) : d.get? s.dir = some .dir := by
  unfold spot at h
  cases hr : p.admit with
  | error e => simp [hr, bind, Except.bind] at h
  | ok route => exact get?_dir_of_walk d.get?_root (by simpa [hr, bind, Except.bind] using h)

end Disk

theorem Spot.place_of_name {s : Spot} {n : Name} (h : s.last = some (.name n)) :
    s.place = s.dir ++ [n] := by simp [place, h]

end TreeGlob
