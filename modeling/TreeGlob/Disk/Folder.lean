import TreeGlob.Path

/-!
Folders: what a directory holds, all the way down. A folder is a row of named nodes, and a node is a
file, a symbolic link or a directory with a folder of its own. Should a name stand twice in a row, the
one that comes first counts.

* `Folder.find?` is the view that everything else is told through.
* `Folder.store` changes what a name stands for.
* `Folder.toList` gives the nodes of a folder. Nobody promises an order of the entries of a directory, so
  they come in that of the row, whatever that is.

Main statements: what `find?` gives after `store`, and that `toList` holds what `find?` finds, with
no name twice.
-/
namespace TreeGlob

inductive Folder where
  | empty
  | dir (name : Name) (inside rest : Folder)
  | file (name : Name) (contents : Bytes) (rest : Folder)
  /-- A symbolic link, with the path it holds as it was written. -/
  | link (name : Name) (target : Path) (rest : Folder)
deriving Repr, DecidableEq

/-- What a name stands for in a folder, with all that is below it. -/
inductive Node where
  | dir (inside : Folder)
  | file (contents : Bytes)
  | link (target : Path)
deriving Repr, DecidableEq

namespace Folder

def add (n : Name) : Node → Folder → Folder
  | .dir inside, f => .dir n inside f
  | .file contents, f => .file n contents f
  | .link target, f => .link n target f

def find? (n : Name) : Folder → Option Node
  | .empty => none
  | .dir m inside rest => if m = n then some (.dir inside) else rest.find? n
  | .file m contents rest => if m = n then some (.file contents) else rest.find? n
  | .link m target rest => if m = n then some (.link target) else rest.find? n

def drop (n : Name) : Folder → Folder
  | .empty => .empty
  | .dir m inside rest => if m = n then rest.drop n else .dir m inside (rest.drop n)
  | .file m contents rest => if m = n then rest.drop n else .file m contents (rest.drop n)
  | .link m target rest => if m = n then rest.drop n else .link m target (rest.drop n)

/-- Puts a node in front of the first name that its own comes before. -/
def insert (n : Name) (node : Node) : Folder → Folder
  | .empty => Folder.empty.add n node
  | .dir m inside rest =>
    if n < m then (Folder.dir m inside rest).add n node else .dir m inside (rest.insert n node)
  | .file m contents rest =>
    if n < m then (Folder.file m contents rest).add n node
    else .file m contents (rest.insert n node)
  | .link m target rest =>
    if n < m then (Folder.link m target rest).add n node
    else .link m target (rest.insert n node)

/-- Lets a name stand for a node, or for nothing. A row that was sorted by the names stays so. -/
def store (n : Name) : Option Node → Folder → Folder
  | none, f => f.drop n
  | some node, f => (f.drop n).insert n node

/-- The nodes with their names, each name once. -/
def toList : Folder → List (Name × Node)
  | .empty => []
  | .dir n inside rest => (n, .dir inside) :: rest.toList.filter (·.1 ≠ n)
  | .file n contents rest => (n, .file contents) :: rest.toList.filter (·.1 ≠ n)
  | .link n target rest => (n, .link target) :: rest.toList.filter (·.1 ≠ n)

/-! ## Look-up after a change -/

@[simp] theorem find?_empty (n : Name) : empty.find? n = none := rfl

theorem find?_add (f : Folder) (n m : Name) (node : Node) :
    (f.add n node).find? m = if n = m then some node else f.find? m := by
  cases node <;> rfl

theorem find?_drop (f : Folder) (n m : Name) :
    (f.drop n).find? m = if n = m then none else f.find? m := by
  induction f with
  | empty => simp [drop]
  | dir k inside rest _ ih => grind [drop, find?]
  | file k contents rest ih => grind [drop, find?]
  | link k target rest ih => grind [drop, find?]

theorem find?_insert {f : Folder} {n : Name} (h : f.find? n = none) (m : Name) (node : Node) :
    (f.insert n node).find? m = if n = m then some node else f.find? m := by
  induction f with
  | empty => exact find?_add .empty n m node
  | dir k inside rest _ ih => grind [insert, find?, find?_add]
  | file k contents rest ih => grind [insert, find?, find?_add]
  | link k target rest ih => grind [insert, find?, find?_add]

theorem find?_store (f : Folder) (n m : Name) (a : Option Node) :
    (f.store n a).find? m = if n = m then a else f.find? m := by
  cases a with
  | none => exact find?_drop f n m
  | some node =>
    rw [store, find?_insert (by simp [find?_drop])]
    by_cases h : n = m <;> simp [find?_drop, h]

@[simp] theorem find?_store_self (f : Folder) (n : Name) (a : Option Node) :
    (f.store n a).find? n = a := by
  simp [find?_store]

theorem find?_store_of_ne (f : Folder) {n m : Name} (a : Option Node) (h : n ≠ m) :
    (f.store n a).find? m = f.find? m := by
  simp [find?_store, h]

/-! ## The nodes of a folder -/

theorem nodup_toList (f : Folder) : (f.toList.map Prod.fst).Nodup := by
  have hcons : ∀ {n : Name} {node : Node} {row : List (Name × Node)}, (row.map Prod.fst).Nodup →
      (((n, node) :: row.filter (·.1 ≠ n)).map Prod.fst).Nodup := by
    intro n node row hrow
    rw [List.map_cons, List.nodup_cons]
    exact ⟨by simp, hrow.sublist (List.filter_sublist.map Prod.fst)⟩
  induction f with
  | empty => exact List.nodup_nil
  | dir n inside rest _ ih => exact hcons ih
  | file n contents rest ih => exact hcons ih
  | link n target rest ih => exact hcons ih

theorem mem_toList {f : Folder} {n : Name} {node : Node} :
    (n, node) ∈ f.toList ↔ f.find? n = some node := by
  induction f with
  | empty => simp [toList]
  | dir m inside rest _ ih => grind [toList, find?]
  | file m contents rest ih => grind [toList, find?]
  | link m target rest ih => grind [toList, find?]

end Folder

end TreeGlob
