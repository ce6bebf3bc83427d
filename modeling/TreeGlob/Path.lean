import TreeGlob.Text.Utf8

/-!
Paths as they are written. A path is a byte string; it is kept as it was given, so `//`, `.` and `..`
stay where they are, and only comparing and splitting look through them.

* `Path.join` goes from a directory to what a relative path names below it.
* `Path.components` is the sequence that two paths are compared by.
* `Path.parent?` and `Path.ancestors` cut components off the end of an absolute path.
* `Path.sort` puts paths into the order of their components.

Main statements: joining keeps the directory as a beginning, and splitting a name that holds no
separator gives back that name.
-/
namespace TreeGlob

abbrev Name := Bytes

def separator : UInt8 := 47

def dot : UInt8 := 46

structure Path where
  bytes : Bytes
deriving Repr, DecidableEq

namespace Path

def ofText (t : Text) : Path := ⟨Utf8.encode t⟩

def display (p : Path) : String := String.ofList (Utf8.decodeLossy p.bytes)

def root : Path := ⟨[separator]⟩

def isAbsolute (p : Path) : Bool := p.bytes.head? = some separator

/-- The path reached from the directory `p` by `q`. An absolute `q` stands for itself; otherwise one
separator goes in between, unless `p` is empty or already ends in one. -/
def join (p q : Path) : Path :=
  if q.isAbsolute || p.bytes.isEmpty then q
  else if p.bytes.getLast? = some separator then ⟨p.bytes ++ q.bytes⟩
  else ⟨p.bytes ++ separator :: q.bytes⟩

/-- The path of the entry `name` in the directory `p`. -/
def child (p : Path) (name : Name) : Path := p.join ⟨name⟩

/-- The pieces of a byte string between its separators, empty ones included. -/
def split : Bytes → List Name
  | [] => [[]]
  | b :: rest =>
    if b = separator then [] :: split rest
    else
      match split rest with
      | [] => [[b]]
      | piece :: pieces => (b :: piece) :: pieces

def pieces (p : Path) : List Name := (split p.bytes).filter (!·.isEmpty)

/-- One step of a path, as far as comparing goes. -/
inductive Component where
  | root
  /-- A dot at the very start; dots further on do not count. -/
  | here
  | up
  | name (n : Name)
deriving Repr, DecidableEq

/-- The components of a path: repeated separators, a separator at the end and dots within the path do
not count. -/
def components (p : Path) : List Component :=
  let named := (p.pieces.filter (· ≠ [dot])).map fun n =>
    if n = [dot, dot] then Component.up else .name n
  if p.isAbsolute then .root :: named
  else if p.pieces.head? = some [dot] then .here :: named
  else named

/-- Whether `q` is `p` or an ancestor of `p`, compared by components. -/
def startsWith (p q : Path) : Bool := q.components.isPrefixOf p.components

/-- Drops separators, and dots that stand alone between separators, from the front of a reversed
absolute path. -/
def dropTrailing : Bytes → Bytes
  | [] => []
  | b :: rest =>
    if b = separator then dropTrailing rest
    else if b = dot ∧ rest.head? = some separator then dropTrailing rest
    else b :: rest

/-- The absolute path without its last component, or `none` for the root. -/
def parent? (p : Path) : Option Path :=
  match dropTrailing p.bytes.reverse with
  | [] => none
  | reversed =>
    match dropTrailing (reversed.dropWhile (· ≠ separator)) with
    | [] => some root
    | remaining => some ⟨remaining.reverse⟩

def ancestorsWithin : (count : Nat) → Path → List Path
  | 0, p => [p]
  | count + 1, p =>
    match p.parent? with
    | none => [p]
    | some q => p :: ancestorsWithin count q

/-- An absolute path, its parent, and so on up to the root. A parent is shorter, so there are no more
ancestors than bytes. -/
def ancestors (p : Path) : List Path := ancestorsWithin p.bytes.length p

/-- What a component is sorted by: the root before a dot, a dot before `..`, and names last, by their
bytes. -/
def Component.key : Component → Bytes
  | .root => [0]
  | .here => [1]
  | .up => [2]
  | .name n => 3 :: n

def key (p : Path) : List Bytes := p.components.map Component.key

/-- Sorts paths by their components, which differs from the order of their bytes: `a/b` comes before
`a-b`. -/
def sort (ps : List Path) : List Path := ps.mergeSort fun p q => decide (p.key ≤ q.key)

theorem split_ne_nil (bs : Bytes) : split bs ≠ [] := by
  unfold split
  split
  · simp
  · split
    · simp
    · split <;> simp

theorem split_of_not_mem {n : Bytes} (h : separator ∉ n) : split n = [n] := by
  induction n with
  | nil => rfl
  | cons b rest ih =>
    have hb : b ≠ separator := fun e => h (e ▸ List.mem_cons_self)
    have hr : separator ∉ rest := fun e => h (List.mem_cons_of_mem _ e)
    simp [split, hb, ih hr]

theorem bytes_prefix_child {p : Path} {name : Name} (hp : p.bytes ≠ [])
    (hn : separator ∉ name) : p.bytes <+: (p.child name).bytes := by
  have ha : (Path.mk name).isAbsolute = false := by
    cases name with
    | nil => rfl
    | cons b rest =>
      have hb : b ≠ separator := fun e => hn (e ▸ List.mem_cons_self)
      simp [isAbsolute, hb]
  unfold child join
  simp only [ha, Bool.false_or, List.isEmpty_iff, hp, if_false]
  split <;> exact List.prefix_append _ _

end Path

end TreeGlob
