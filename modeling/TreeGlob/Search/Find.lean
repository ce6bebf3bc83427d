import TreeGlob.Search.Feed

/-!
Finding paths by globs, from the globs to the feed of results.

* `FileSystem.find` starts a search and gives the feed of its results.
* `FileSystem.findSorted` gives all results at once, sorted.
* `Disk.glob` searches a disk with the usual settings.

Main statement: a search that was prepared fails only by way of its feed.
-/
namespace TreeGlob

namespace FileSystem

/-- Searches below `base` and gives the feed of the results, nothing read yet. -/
def find (fs : FileSystem) (extent : Extent) (settings : Settings) (base : Path)
    (included excluded : List Text) : Except FsError Feed := do
  let s ← prepare settings base included excluded
  return .ofReport (s.search settings.strategy fs extent base)

def findSorted (fs : FileSystem) (extent : Extent) (settings : Settings) (base : Path)
    (included excluded : List Text) : Except FsError (List Path) := do
  (← fs.find extent settings base included excluded).collectSorted

theorem find_of_prepare {fs : FileSystem} {extent : Extent} {settings : Settings} {base : Path}
    {included excluded : List Text} {s : Selection}
    (h : prepare settings base included excluded = .ok s) :
    fs.find extent settings base included excluded =
      .ok (.ofReport (s.search settings.strategy fs extent base)) := by
  simp [find, h, bind, Except.bind, pure, Except.pure]

end FileSystem

/-- All paths on a disk that the globs select, sorted. -/
def Disk.glob (d : Disk) (base : Path) (included excluded : List Text) (skipHidden : Bool) :
    Except FsError (List Path) :=
  d.fileSystem.findSorted d.extent { skipHidden } base included excluded

end TreeGlob
