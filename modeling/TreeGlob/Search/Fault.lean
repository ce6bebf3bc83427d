import TreeGlob.Search.Dialogue

/-!
File systems with faults. A fault makes one kind of question about one path fail; all other questions
are answered as before.

* `orFault_cases` says what can be answered.
* `withFaults_nil` says that without faults nothing changes.
-/
namespace TreeGlob

inductive FaultyCall where
  | list
  | resolve
  | canonicalize
deriving Repr, DecidableEq

inductive FaultKind where
  | permissionDenied
  | notFound
  /-- The file system dies. -/
  | crash
  /-- Some other error, with its text. -/
  | io (text : String)
deriving Repr, DecidableEq

structure Fault where
  call : FaultyCall
  path : Path
  kind : FaultKind
deriving Repr, DecidableEq

namespace Fault

/-- The fault strikes this call on this path. Paths are compared by components. -/
def strikes (f : Fault) (call : FaultyCall) (p : Path) : Bool :=
  f.call = call && f.path.components = p.components

def answer {α : Type} (f : Fault) (p : Path) : Answer α :=
  match f.kind with
  | .permissionDenied => .error (.permissionDenied p)
  | .notFound => .error (.notFound p)
  | .crash => .crash
  | .io text => .error (.io p (.stated .other text))

end Fault

namespace FileSystem

/-- The answer of the first fault that strikes, or else the given one. -/
def orFault {α : Type} (faults : List Fault) (call : FaultyCall) (p : Path) (right : Answer α) :
    Answer α :=
  match faults.find? (·.strikes call p) with
  | some f => f.answer p
  | none => right

/-- An answer is the right one, or that of a fault which strikes the call. -/
theorem orFault_cases {α : Type} (faults : List Fault) (call : FaultyCall) (p : Path)
    (right : Answer α) : orFault faults call p right = right ∨
      ∃ f ∈ faults, f.call = call ∧ f.path.components = p.components ∧
        orFault faults call p right = f.answer p := by
  unfold orFault
  cases hf : faults.find? (·.strikes call p) with
  | none => exact .inl rfl
  | some f =>
    obtain ⟨hcall, hpath⟩ : f.call = call ∧ f.path.components = p.components := by
      simpa [Fault.strikes] using List.find?_some hf
    exact .inr ⟨f, List.mem_of_find?_eq_some hf, hcall, hpath, rfl⟩

def withFaults (fs : FileSystem) (faults : List Fault) : FileSystem
  | .list p => orFault faults .list p (fs (.list p))
  | .resolve p => orFault faults .resolve p (fs (.resolve p))
  | .canonicalize p => orFault faults .canonicalize p (fs (.canonicalize p))
  | .leads p => fs (.leads p)
  | .isDirectory p => fs (.isDirectory p)

theorem withFaults_nil (fs : FileSystem) : fs.withFaults [] = fs := by
  funext q
  cases q <;> rfl

end FileSystem

end TreeGlob
