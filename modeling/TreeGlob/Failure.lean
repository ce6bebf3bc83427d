import TreeGlob.Errno
import TreeGlob.Path
import TreeGlob.Pattern.Error

/-!
How operations on files and searches fail.

* `IoError` is what the operating system reports, without saying about which path.
* `FsError` is what callers see: the kind of failure and the path it concerns.
* `FsError.ofIo` turns one into the other.

Main statement: a failure counts as "not found" exactly when the system reported that kind.
-/
namespace TreeGlob

/-- The kinds of system error that callers can tell apart. -/
inductive IoKind where
  | notFound
  | permissionDenied
  | alreadyExists
  | other
deriving Repr, DecidableEq

inductive IoError where
  /-- An error number of the system. -/
  | os (code : Int)
  /-- An error that has no number, with its own text. -/
  | stated (kind : IoKind) (text : String)
deriving Repr, DecidableEq

namespace IoError

def kind : IoError → IoKind
  | .stated kind _ => kind
  | .os code =>
    if code = 2 then .notFound
    else if code = 1 ∨ code = 13 then .permissionDenied
    else if code = 17 then .alreadyExists
    else .other

def message : IoError → String
  | .stated _ text => text
  | .os code => Errno.describe code ++ s!" (os error {code})"

/-- A path or link target with a zero byte in it cannot be handed to the system. -/
def zeroByte : IoError := .stated .other "file name contained an unexpected NUL byte"

/-- Bytes that were to be read as text are not UTF-8. -/
def notText : IoError := .stated .other "stream did not contain valid UTF-8"

end IoError

inductive FsError where
  | notFound (path : Path)
  | permissionDenied (path : Path)
  | alreadyExists (path : Path)
  | notADirectory (path : Path)
  | notASymlink (path : Path)
  /-- A relative path where an absolute one is required. -/
  | invalidPath (path : Path)
  /-- Any other error of the system. -/
  | io (path : Path) (cause : IoError)
  | pattern (cause : PatternError)
  /-- A search died without saying why. -/
  | taskFailed
deriving Repr, DecidableEq

namespace FsError

/-- The failure of an operation on `path` that the system refused with `e`. -/
def ofIo (e : IoError) (path : Path) : FsError :=
  match e.kind with
  | .notFound => .notFound path
  | .permissionDenied => .permissionDenied path
  | .alreadyExists => .alreadyExists path
  | .other => .io path e

def isNotFound : FsError → Bool
  | .notFound _ => true
  | _ => false

def message : FsError → String
  | .notFound path => "not found: " ++ path.display
  | .permissionDenied path => "permission denied: " ++ path.display
  | .alreadyExists path => "already exists: " ++ path.display
  | .notADirectory path => "not a directory: " ++ path.display
  | .notASymlink path => "not a symbolic link: " ++ path.display
  | .invalidPath path => "invalid path (expected an absolute path): " ++ path.display
  | .io path cause => "filesystem error at " ++ path.display ++ ": " ++ cause.message
  | .pattern cause => "pattern error: " ++ cause.message
  | .taskFailed => "traversal task failed"

/-- The text of the failure behind this one, where there is one. -/
def cause? : FsError → Option String
  | .io _ cause => some cause.message
  | .pattern cause => some cause.message
  | _ => none

theorem isNotFound_ofIo (e : IoError) (path : Path) :
    (ofIo e path).isNotFound = true ↔ e.kind = .notFound := by
  unfold ofIo
  cases e.kind <;> simp [isNotFound]

end FsError

end TreeGlob
