import TreeGlob.Pattern.Match

/-!
Which relative paths a search wants: those that some included pattern matches, unless an excluded
pattern matches them or something above them, or a name on the way is hidden.

* `Selection.compile` reads the globs of both sides; a few excludes are always added.
* `Selection.verdict` decides about one path, and whether its descendants can be left out.
* `Selection.startDirectory` is a directory that every wanted path lies below, so a search can begin
  there.

Main statement: the common beginning of two texts is a beginning of both.
-/
namespace TreeGlob

/-- Globs that every search leaves out. -/
def standingExcludes : List Text := ["**/.DS_Store".toList, "**/.gitkeep".toList]

/-- Reads several globs in order; the first that cannot be read is the error. -/
def Pattern.compileAll (d : Dialect) (raws : List Text) : Except PatternError (List Pattern) := do
  let compiled ← raws.mapM (Pattern.compile d)
  .ok compiled.flatten

def commonStart : Text → Text → Text
  | a :: s, b :: t => if a = b then a :: commonStart s t else []
  | _, _ => []

structure Selection where
  included : List Pattern
  /-- The caller's excludes, then the standing ones. -/
  excluded : List Pattern
  /-- Names that begin with a dot are left out, with everything below them. -/
  skipHidden : Bool
deriving Repr, DecidableEq

namespace Selection

/-- The selection made of patterns that are already read. The dialect is for the standing excludes. -/
def ofPatterns (d : Dialect) (included excluded : List Pattern) (skipHidden : Bool) :
    Except PatternError Selection := do
  let standing ← Pattern.compileAll d standingExcludes
  .ok { included, excluded := excluded ++ standing, skipHidden }

def compile (d : Dialect) (included excluded : List Text) (skipHidden : Bool) :
    Except PatternError Selection := do
  let included ← Pattern.compileAll d included
  let excluded ← Pattern.compileAll d excluded
  ofPatterns d included excluded skipHidden

/-- Whether the hidden filter drops an entry of this name. -/
def hides (s : Selection) (name : Text) : Bool := s.skipHidden && name.head? = some '.'

def excludes (s : Selection) (path : Text) : Bool := s.excluded.any (·.accepts path)

/-- Whether a path is wanted, and whether nothing below it can be. An excluded path closes the whole
subtree; otherwise one included pattern is enough to want a path or to go on below it. -/
def verdict (s : Selection) (path : Text) : Verdict :=
  if s.excludes path then ⟨false, true⟩
  else
    let verdicts := s.included.map (·.verdict path)
    ⟨verdicts.any (·.hit), verdicts.all (·.prune)⟩

/-- The directory, ending in a separator, that all included patterns begin with. Empty if there is
none, and whenever a pattern disregards case, since the spelling on disk is not known then. -/
def startDirectory (s : Selection) : Text :=
  if s.included.any (!·.dialect.caseSensitive) then []
  else
    match s.included.map (·.directory) with
    | [] => []
    | first :: others => upToSeparator (others.foldl commonStart first)

def description (s : Selection) : String :=
  let texts (ps : List Pattern) := ", ".intercalate (ps.map fun p => String.ofList p.source)
  "include any of [" ++ texts s.included ++ "], exclude any of [" ++ texts s.excluded ++ "]"
    ++ (if s.skipHidden then ", skipping hidden files" else "")

end Selection

theorem commonStart_prefix_left (s t : Text) : commonStart s t <+: s := by
  fun_induction commonStart s t with
  | case1 _ _ _ ih => exact (List.prefix_cons_inj _).2 ih
  | case2 | case3 => exact List.nil_prefix

theorem commonStart_prefix_right (s t : Text) : commonStart s t <+: t := by
  fun_induction commonStart s t with
  | case1 _ _ _ ih => exact (List.prefix_cons_inj _).2 ih
  | case2 | case3 => exact List.nil_prefix

end TreeGlob
