import TreeGlob.CommandLine.Arguments
import TreeGlob.CommandLine.Complaint
import TreeGlob.Search.Find

/-!
A run of the program: from its arguments to what it prints and how it exits.

* `Arguments.base` is the directory to search, and `Arguments.validate` checks the arguments against
  the file system.
* `Program.search` does the search and prints the results: as they come, or sorted at the end. If the
  search fails, what it has found is printed nevertheless.
* `Program.run` is the whole program.
-/
namespace TreeGlob

namespace Arguments

/-- The directory to search, as it is named below the current directory. -/
def base (a : Arguments) (current : Path) : Path := current.join (.ofText a.directory)

def validate (a : Arguments) (fs : FileSystem) (current : Path) : Except FsError Unit := do
  let base := a.base current
  if !fs (.leads base) then .error (.notFound base)
  else if !fs (.isDirectory base) then .error (.notADirectory base)
  else
    let _ ← Selection.ofGlobs a.settings a.includedGlobs a.excluded
    .ok ()

end Arguments

/-- What a run of the program leaves, apart from what it logs. -/
structure Outcome where
  exit : Nat
  /-- What was printed, an item a line. -/
  printed : List String
  /-- The report of the error that ended the run, if one did. The lines that the program logs on the
  same channel, such as how many paths there were and how long it took, are not part of it. -/
  complaint : String
deriving Repr, DecidableEq

namespace Outcome

def success (printed : List String) : Outcome := ⟨0, printed, ""⟩

def failure (printed : List String) (headline : String) (e : FsError) : Outcome :=
  ⟨1, printed, (Complaint.ofFailure headline e).text⟩

end Outcome

namespace Program

def versionLine : String := "rust-fsglob 0.1.0"

/-- What the options mean. The wording is not that of the program, whose help is put together by the
library that reads its arguments. -/
def helpLines : List String := [
  "Usage: rust-fsglob [OPTIONS] [DIRECTORY]",
  "",
  "Options:",
  "  -i, --include <PATTERN>  report only paths that match (default: **)",
  "  -e, --exclude <PATTERN>  leave out paths that match, and all below them",
  "      --hidden             do not leave out names that begin with a dot",
  "      --ignore-case        disregard case",
  "      --sequential         visit one directory after the other",
  "      --parallel           visit directories side by side",
  "      --sort               sort what is printed",
  "  -d, --debug              log more",
  "  -h, --help               print this text",
  "  -V, --version            print the version"]

/-- The run that ends where the reading of the arguments stopped. The code is the library's, the wording
of the error is not. -/
def stopped : ArgumentStop → Outcome
  | .help => .success helpLines
  | .version => .success [versionLine]
  | .unknownArgument => ⟨2, [], "error: unexpected argument\n"⟩
  | .missingValue => ⟨2, [], "error: a value is required\n"⟩
  | .conflict => ⟨2, [], "error: arguments cannot be used together\n"⟩
  | .unwantedValue => ⟨2, [], "error: unexpected value\n"⟩

def order (a : Arguments) (found : List Path) : List Path :=
  if a.has .sort then Path.sort found else found

/-- Searches and prints, for arguments that passed the check. -/
def search (a : Arguments) (fs : FileSystem) (extent : Extent) (current : Path) : Outcome :=
  let base := a.base current
  match fs.find extent a.settings base a.includedGlobs a.excluded with
  | .error e => .failure [] ("无法在 " ++ base.display ++ " 中搜索") e
  | .ok feed =>
    let reading := feed.readAll
    let printed := (order a reading.paths).map Path.display
    match reading.failure with
    | none => .success printed
    | some e => .failure printed ("搜索 " ++ base.display ++ " 失败") e

def run (fs : FileSystem) (extent : Extent) (current : Path) (words : List Text) : Outcome :=
  match Arguments.read words with
  | .error stop => stopped stop
  | .ok a =>
    match a.validate fs current with
    | .error e => .failure [] "命令行参数无效" e
    | .ok () => search a fs extent current

end Program

end TreeGlob
