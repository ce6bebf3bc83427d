import TreeGlob.Failure

/-!
What the program writes when it fails: a headline, and below it the causes, each behind the next.
Several causes are numbered; the further lines of a cause are indented as far as its first.
-/
namespace TreeGlob

structure Complaint where
  headline : String
  /-- The causes, the nearest first. -/
  causes : List String
deriving Repr, DecidableEq

namespace Complaint

/-- Puts `margin` before every line but the first. -/
def indent (margin : Text) : Text → Text
  | [] => []
  | c :: rest => if c = '\n' then c :: margin ++ indent margin rest else c :: indent margin rest

def indented (width : Nat) (cause : String) : String :=
  String.ofList (indent (List.replicate width ' ') cause.toList)

def only (cause : String) : String := "\n    " ++ indented 4 cause

/-- One of several causes. The number is set flush right in five columns. -/
def numbered (cause : String × Nat) : String :=
  let number := toString cause.2
  let margin := String.ofList (List.replicate (5 - number.length) ' ')
  "\n" ++ margin ++ number ++ ": " ++ indented 7 cause.1

def text (c : Complaint) : String :=
  "Error: " ++ c.headline ++
    (match c.causes with
    | [] => ""
    | [cause] => "\n\nCaused by:" ++ only cause
    | causes => "\n\nCaused by:" ++ String.join (causes.zipIdx.map numbered)) ++ "\n"

def ofFailure (headline : String) (e : FsError) : Complaint :=
  ⟨headline, e.message :: e.cause?.toList⟩

end Complaint

end TreeGlob
