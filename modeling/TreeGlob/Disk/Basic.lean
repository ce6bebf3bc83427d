import TreeGlob.Disk.Folder

/-!
A disk: a finite tree of directories, files and symbolic links on one device, where nobody lacks a
permission. An entry is known by its place, the list of names that lead to it from the root without
passing a link. The root itself is a directory.

* `Disk.get?` is the view that everything else is told through.
* `Disk.alter` changes what is at a place; `Disk.put`, `Disk.erase`, `Disk.clear` and `Disk.relocate`
  change one entry, a subtree, what is in a directory, and where a subtree hangs.
* `Disk.children` lists a directory, in whatever order its entries stand there, and `Disk.entries` the
  whole disk.

Main statements: what `get?` gives after each change, that whatever lies above an entry is a
directory, and that the two lists hold what `get?` finds, a directory's no name twice.
-/
namespace TreeGlob

/-- Where an entry is: the names from the root down to it. -/
abbrev Place := List Name

inductive Entry where
  | dir
  | file (contents : Bytes)
  /-- A symbolic link, with the path it holds as it was written. -/
  | link (target : Path)
deriving Repr, DecidableEq

/-- A node without what is below it. -/
def Node.entry : Node → Entry
  | .dir _ => .dir
  | .file contents => .file contents
  | .link target => .link target

def Entry.node : Entry → Node
  | .dir => .dir .empty
  | .file contents => .file contents
  | .link target => .link target

@[simp] theorem Entry.entry_node (e : Entry) : e.node.entry = e := by cases e <;> rfl

namespace Node

def below? : Node → Place → Option Node
  | node, [] => some node
  | .dir inside, n :: p => (inside.find? n).bind (·.below? p)
  | _, _ :: _ => none

def cleared (node : Node) : Node := node.entry.node

end Node

namespace Folder

/-- Changes what is at the place `n :: p`, if the place before it is a directory. -/
def alter (change : Option Node → Option Node) : (n : Name) → (p : Place) → Folder → Folder
  | n, [], f => f.store n (change (f.find? n))
  | n, m :: p, f =>
    match f.find? n with
    | some (.dir inside) => f.store n (some (.dir (inside.alter change m p)))
    | _ => f

def rows : Folder → List (Place × Entry)
  | .empty => []
  | .dir n inside rest =>
    ([n], .dir) :: inside.rows.map (fun row => (n :: row.1, row.2)) ++
      rest.rows.filter (·.1.head? ≠ some n)
  | .file n contents rest => ([n], .file contents) :: rest.rows.filter (·.1.head? ≠ some n)
  | .link n target rest => ([n], .link target) :: rest.rows.filter (·.1.head? ≠ some n)

end Folder

structure Disk where
  /-- What is in the root directory. -/
  top : Folder
deriving Repr, DecidableEq

namespace Disk

def empty : Disk := ⟨.empty⟩

def root (d : Disk) : Node := .dir d.top

def node? (d : Disk) (p : Place) : Option Node := d.root.below? p

/-- The entry at a place. -/
def get? (d : Disk) (p : Place) : Option Entry := (d.node? p).map Node.entry

/-- Changes what is at a place other than the root. -/
def alter (d : Disk) (change : Option Node → Option Node) : Place → Disk
  | [] => d
  | n :: p => ⟨d.top.alter change n p⟩

/-- Puts an entry at a place in a directory, instead of what may be there. -/
def put (d : Disk) (p : Place) (e : Entry) : Disk := d.alter (fun _ => some e.node) p

/-- Takes away the entry at a place other than the root, and everything below it. -/
def erase (d : Disk) (p : Place) : Disk := d.alter (fun _ => none) p

/-- Takes away everything below a place, but not the entry at it. -/
def clear (d : Disk) : Place → Disk
  | [] => empty
  | n :: p => d.alter (·.map Node.cleared) (n :: p)

/-- Hangs what is at `p`, with everything below it, at `q`, instead of what may be there. -/
def relocate (d : Disk) (p q : Place) : Disk := (d.erase p).alter (fun _ => d.node? p) q

/-- The entries directly in the directory at `p`, in the order of its row. -/
def children (d : Disk) (p : Place) : List (Name × Entry) :=
  match d.node? p with
  | some (.dir inside) => inside.toList.map fun c => (c.1, c.2.entry)
  | _ => []

/-- All entries but the root with their places, in no particular order. -/
def entries (d : Disk) : List (Place × Entry) := d.top.rows

def pathTo : Place → Path
  | [] => Path.root
  | n :: p => ⟨(n :: p).flatMap (separator :: ·)⟩

/-- All entries but the root with their paths, sorted by the bytes of the paths. -/
def listing (d : Disk) : List (Path × Entry) :=
  (d.entries.map fun row => (pathTo row.1, row.2)).mergeSort
    fun a b => decide (a.1.bytes ≤ b.1.bytes)

end Disk

/-! ## What is reached from a node -/

namespace Node

@[simp] theorem below?_nil (node : Node) : node.below? [] = some node := by
  cases node <;> rfl

theorem below?_dir_cons (inside : Folder) (n : Name) (p : Place) :
    (dir inside).below? (n :: p) = (inside.find? n).bind (·.below? p) := rfl

theorem below?_append (node : Node) (p q : Place) :
    node.below? (p ++ q) = (node.below? p).bind (·.below? q) := by
  induction p generalizing node with
  | nil => simp
  | cons n p ih =>
    cases node with
    | dir inside => cases h : inside.find? n <;> simp [below?, h, ih]
    | file contents => rfl
    | link target => rfl

@[simp] theorem entry_cleared (node : Node) : node.cleared.entry = node.entry := by simp [cleared]

theorem below?_cleared_cons (node : Node) (n : Name) (p : Place) :
    node.cleared.below? (n :: p) = none := by cases node <;> rfl

theorem entry_below?_dropLast {node reached : Node} {p : Place} (hp : p ≠ [])
    (h : node.below? p = some reached) : ∃ inside, node.below? p.dropLast = some (dir inside) := by
  rw [← List.dropLast_concat_getLast hp, below?_append] at h
  obtain ⟨above, ha, hr⟩ := Option.bind_eq_some_iff.mp h
  cases above with
  | dir inside => exact ⟨inside, ha⟩
  | file contents => simp [below?] at hr
  | link target => simp [below?] at hr

end Node

namespace Folder

theorem below?_alter_append (change : Option Node → Option Node) (f : Folder) (n : Name)
    (p q : Place) : (Node.dir (f.alter change n p)).below? (n :: p ++ q) =
      match (Node.dir f).below? (n :: p).dropLast with
      | some (.dir _) => (change ((Node.dir f).below? (n :: p))).bind (·.below? q)
      | _ => none := by
  induction p generalizing f n with
  | nil => simp [alter, Node.below?]
  | cons m p ih =>
    rw [List.dropLast_cons_of_ne_nil (by simp), List.cons_append]
    simp only [Node.below?_dir_cons, alter]
    cases h : f.find? n with
    | none => simp [h]
    | some node =>
      cases node with
      | dir inside => simpa using ih inside m
      | file contents => cases p <;> simp [h, Node.below?]
      | link target => cases p <;> simp [h, Node.below?]

theorem entry_below?_alter (change : Option Node → Option Node) (f : Folder) {n : Name}
    {p q : Place} (h : ¬n :: p <+: q) :
    ((Node.dir (f.alter change n p)).below? q).map Node.entry =
      ((Node.dir f).below? q).map Node.entry := by
  induction p generalizing f n q with
  | nil =>
    cases q with
    | nil => simp [Node.entry]
    | cons k q =>
      have hne : n ≠ k := by rintro rfl; simp at h
      simp [alter, Node.below?_dir_cons, find?_store_of_ne _ _ hne]
  | cons m p ih =>
    cases q with
    | nil => simp [Node.entry]
    | cons k q =>
      simp only [alter]
      split
      · next inside hf =>
        by_cases hne : n = k
        · subst hne
          have hq : ¬m :: p <+: q := by simpa [List.cons_prefix_cons] using h
          simpa [Node.below?_dir_cons, hf] using ih inside hq
        · simp [Node.below?_dir_cons, find?_store_of_ne _ _ hne]
      · rfl

theorem mem_rows {f : Folder} {p : Place} {e : Entry} :
    (p, e) ∈ f.rows ↔ p ≠ [] ∧ ((Node.dir f).below? p).map Node.entry = some e := by
  induction f generalizing p with
  | empty => cases p <;> simp [rows, Node.below?]
  | dir n inside rest ihi ihr =>
    cases p with
    | nil => simp [rows, ihr]
    | cons m p =>
      rw [Node.below?_dir_cons, find?]
      by_cases h : n = m
      · subst h
        cases p with
        | nil => simp [rows, ihi, Node.entry, eq_comm]
        | cons k p => simp [rows, ihi]
      · simp [rows, ihr, Node.below?_dir_cons, h, Ne.symm h]
  | file n contents rest ih =>
    cases p with
    | nil => simp [rows, ih]
    | cons m p =>
      rw [Node.below?_dir_cons, find?]
      by_cases h : n = m
      · subst h
        cases p with
        | nil => simp [rows, Node.entry, eq_comm]
        | cons k p => simp [rows, Node.below?]
      · simp [rows, ih, Node.below?_dir_cons, h, Ne.symm h]
  | link n target rest ih =>
    cases p with
    | nil => simp [rows, ih]
    | cons m p =>
      rw [Node.below?_dir_cons, find?]
      by_cases h : n = m
      · subst h
        cases p with
        | nil => simp [rows, Node.entry, eq_comm]
        | cons k p => simp [rows, Node.below?]
      · simp [rows, ih, Node.below?_dir_cons, h, Ne.symm h]

end Folder

namespace Disk

/-! ## The disk after a change -/

@[simp] theorem get?_root (d : Disk) : d.get? [] = some .dir := rfl

theorem node?_append (d : Disk) (p q : Place) :
    d.node? (p ++ q) = (d.node? p).bind (·.below? q) := Node.below?_append _ p q

theorem get?_dropLast {d : Disk} {p : Place} (h : d.get? p ≠ none) : d.get? p.dropLast = some .dir := by
  by_cases hp : p = []
  · simp [hp]
  · obtain ⟨reached, hr⟩ := Option.ne_none_iff_exists'.mp (by simpa [get?] using h)
    obtain ⟨inside, hi⟩ := Node.entry_below?_dropLast hp hr
    simp [get?, node?, hi, Node.entry]

theorem get?_above {d : Disk} {p q : Place} (h : d.get? (p ++ q) ≠ none) (hq : q ≠ []) :
    d.get? p = some .dir := by
  have hd : d.root.below? (p ++ q) ≠ none := by simpa [get?, node?] using h
  rw [Node.below?_append] at hd
  cases hp : d.root.below? p with
  | none => simp [hp] at hd
  | some node =>
    cases node with
    | dir inside => simp [get?, node?, hp, Node.entry]
    | file contents => cases q <;> simp_all [Node.below?]
    | link target => cases q <;> simp_all [Node.below?]

/-- A change of what is at a place is seen there and below, if the place is in a directory. -/
theorem node?_alter_append {d : Disk} (change : Option Node → Option Node) {p : Place} (q : Place)
    (hp : p ≠ []) (h : d.get? p.dropLast = some .dir) :
    (d.alter change p).node? (p ++ q) = (change (d.node? p)).bind (·.below? q) := by
  obtain ⟨n, p, rfl⟩ := List.exists_cons_of_ne_nil hp
  obtain ⟨node, hn, he⟩ := Option.map_eq_some_iff.mp h
  have hb := Folder.below?_alter_append change d.top n p q
  change (Node.dir d.top).below? (n :: p).dropLast = some node at hn
  cases node with
  | dir inside =>
    rw [hn] at hb
    exact hb
  | file contents => simp [Node.entry] at he
  | link target => simp [Node.entry] at he

/-- Where there is no directory to hold it, nothing comes to be. -/
theorem node?_alter_append_eq_none {d : Disk} (change : Option Node → Option Node) {p : Place}
    (q : Place) (hp : p ≠ []) (h : d.get? p.dropLast ≠ some .dir) :
    (d.alter change p).node? (p ++ q) = none := by
  obtain ⟨n, p, rfl⟩ := List.exists_cons_of_ne_nil hp
  refine (Folder.below?_alter_append change d.top n p q).trans ?_
  split
  · next hn => exact (h (by simp [get?, node?, root, hn, Node.entry])).elim
  · rfl

theorem get?_alter_of_not_prefix (d : Disk) (change : Option Node → Option Node) {p q : Place}
    (h : ¬p <+: q) : (d.alter change p).get? q = d.get? q := by
  cases p with
  | nil => rfl
  | cons n p => exact Folder.entry_below?_alter change d.top h

theorem get?_put_self {d : Disk} {p : Place} (e : Entry) (hp : p ≠ [])
    (h : d.get? p.dropLast = some .dir) : (d.put p e).get? p = some e := by
  have hn := node?_alter_append (fun _ => some e.node) [] hp h
  simp only [List.append_nil] at hn
  simp [get?, put, hn]

theorem get?_put_of_not_prefix (d : Disk) {p q : Place} (e : Entry) (h : ¬p <+: q) :
    (d.put p e).get? q = d.get? q := get?_alter_of_not_prefix d _ h

theorem get?_erase (d : Disk) {p : Place} (q : Place) (hp : p ≠ []) :
    (d.erase p).get? q = if p <+: q then none else d.get? q := by
  split
  · next h =>
    obtain ⟨r, rfl⟩ := h
    by_cases hd : d.get? p.dropLast = some .dir
    · simp [get?, erase, node?_alter_append _ r hp hd]
    · simp [get?, erase, node?_alter_append_eq_none _ r hp hd]
  · next h => exact get?_alter_of_not_prefix d _ h

theorem get?_clear (d : Disk) (p q : Place) :
    (d.clear p).get? q = if p <+: q ∧ p ≠ q then none else d.get? q := by
  cases p with
  | nil =>
    cases q with
    | nil => rfl
    | cons k q => simp [clear, empty, get?, node?, root, Node.below?]
  | cons n p =>
    by_cases h : n :: p <+: q
    · obtain ⟨r, rfl⟩ := h
      have hp : n :: p ≠ [] := by simp
      cases r with
      | nil =>
        by_cases hd : d.get? (n :: p).dropLast = some .dir
        · have hn := node?_alter_append (·.map Node.cleared) [] hp hd
          cases hx : d.node? (n :: p) <;> simp_all [clear, get?]
        · have hn := node?_alter_append_eq_none (·.map Node.cleared) [] hp hd
          have hx : d.get? (n :: p) = none := Classical.byContradiction fun e => hd (get?_dropLast e)
          simp_all [clear, get?]
      | cons k r =>
        by_cases hd : d.get? (n :: p).dropLast = some .dir
        · have hn := node?_alter_append (·.map Node.cleared) (k :: r) hp hd
          cases hx : d.node? (n :: p) <;> simp_all [clear, get?, Node.below?_cleared_cons]
        · have hn := node?_alter_append_eq_none (·.map Node.cleared) (k :: r) hp hd
          simp_all [clear, get?]
    · rw [if_neg fun e => h e.1]
      exact get?_alter_of_not_prefix d _ h

theorem get?_relocate_append {d : Disk} {p q : Place} (r : Place) (hp : p ≠ []) (hq : q ≠ [])
    (hd : d.get? q.dropLast = some .dir) (h : ¬p <+: q.dropLast) :
    (d.relocate p q).get? (q ++ r) = d.get? (p ++ r) := by
  have hr : (d.erase p).get? q.dropLast = some .dir := by rw [get?_erase d _ hp, if_neg h, hd]
  have hn := node?_alter_append (fun _ => d.node? p) r hq hr
  simp [get?, relocate, hn, node?_append]

theorem get?_relocate_of_not_prefix (d : Disk) {p q x : Place} (hp : p ≠ []) (h : ¬q <+: x) :
    (d.relocate p q).get? x = if p <+: x then none else d.get? x := by
  rw [relocate, get?_alter_of_not_prefix _ _ h, get?_erase d x hp]

/-! ## Lists of entries -/

theorem mem_children {d : Disk} {p : Place} {n : Name} {e : Entry} :
    (n, e) ∈ d.children p ↔ d.get? (p ++ [n]) = some e := by
  simp only [children, get?, node?_append]
  cases d.node? p with
  | none => simp
  | some node =>
    cases node with
    | dir inside =>
      simp only [List.mem_map, Prod.exists, Prod.mk.injEq, Folder.mem_toList, Node.below?_dir_cons,
        Node.below?_nil, Option.bind_some, Option.map_eq_some_iff, Option.bind_eq_some_iff]
      grind
    | file contents => simp [Node.below?]
    | link target => simp [Node.below?]

theorem nodup_children (d : Disk) (p : Place) : ((d.children p).map Prod.fst).Nodup := by
  unfold children
  split
  · next inside _ =>
    rw [List.map_map]
    exact inside.nodup_toList
  · exact List.nodup_nil

theorem mem_entries {d : Disk} {p : Place} {e : Entry} :
    (p, e) ∈ d.entries ↔ p ≠ [] ∧ d.get? p = some e := Folder.mem_rows

end Disk

end TreeGlob
