import TreeGlob.Disk.Operation

/-!
Disks from lists of entries. Entries are made in the order of the list, each with the directories above
it that are missing.

* `Action.plant` makes one entry.
* `Disk.ofEntries` makes a disk.
* `Disk.ofLines` reads a listing with one entry a line: a letter for the kind, a blank, the absolute
  path, a tab, and the target if it is a link. That is what `find / -printf '%y %p\t%l\n'` writes.
-/
namespace TreeGlob

namespace Action

def makeAbove (p : Path) : Action Unit :=
  match p.parent? with
  | some above => makeDirectories above
  | none => pure ()

/-- Makes an entry and the directories above it that are missing. -/
def plant (p : Path) : Entry → Action Unit
  | .dir => makeDirectories p
  | .file contents => do
    makeAbove p
    changing p (·.write p contents)
  | .link target => do
    makeAbove p
    changing p (·.makeLink target p)

end Action

namespace Disk

/-- The disk with these entries. One that cannot be made is left out. -/
def ofEntries (rows : List (Path × Entry)) : Disk :=
  rows.foldl (fun d row => ((Action.plant row.1 row.2).runOn d).2) empty

/-- An entry from its line. Whatever is neither a directory nor a link counts as a file. -/
def entryOfLine? : Text → Option (Path × Entry)
  | kind :: ' ' :: rest =>
    let path := Path.ofText (rest.takeWhile (· ≠ '\t'))
    let target := Path.ofText ((rest.dropWhile (· ≠ '\t')).drop 1)
    if kind = 'd' then some (path, .dir)
    else if kind = 'l' then some (path, .link target)
    else some (path, .file [])
  | _ => none

def ofLines (lines : List Text) : Disk := ofEntries (lines.filterMap entryOfLine?)

end Disk

end TreeGlob
