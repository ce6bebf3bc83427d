import TreeGlob.Search.Settings

/-!
The arguments of the program. Words are read from left to right. A word after `--` is the directory to
search; before it, a word that begins with a dash names options, unless it is a dash alone, and any
other word is the value of the option before it if that still needs one, or else the directory.

* `Word.ofText` says what kind of word a text is.
* `ArgumentReader.read` takes one word into account.
* `Arguments.read` reads all words, and says why if they make no sense.
-/
namespace TreeGlob

inductive Flag where
  | hidden
  | ignoreCase
  | sequential
  | parallel
  | sort
  | debug
deriving Repr, DecidableEq

inductive GlobOption where
  | included
  | excluded
deriving Repr, DecidableEq

inductive Meaning where
  | flag (f : Flag)
  | glob (o : GlobOption)
  | help
  | version
deriving Repr, DecidableEq

namespace Meaning

def longNames : List (Text × Meaning) := [
  ("include".toList, .glob .included),
  ("exclude".toList, .glob .excluded),
  ("hidden".toList, .flag .hidden),
  ("ignore-case".toList, .flag .ignoreCase),
  ("sequential".toList, .flag .sequential),
  ("parallel".toList, .flag .parallel),
  ("sort".toList, .flag .sort),
  ("debug".toList, .flag .debug),
  ("help".toList, .help),
  ("version".toList, .version)]

def shortNames : List (Char × Meaning) := [
  ('i', .glob .included),
  ('e', .glob .excluded),
  ('d', .flag .debug),
  ('h', .help),
  ('V', .version)]

def ofLong? (name : Text) : Option Meaning := longNames.lookup name

def ofShort? (name : Char) : Option Meaning := shortNames.lookup name

end Meaning

inductive ArgumentStop where
  /-- An option that there is not, or one word too many. -/
  | unknownArgument
  /-- An option lacks its value. -/
  | missingValue
  /-- A flag was given twice, or two flags exclude each other. -/
  | conflict
  /-- A value was given to an option that takes none. -/
  | unwantedValue
  /-- The user asked for help. -/
  | help
  /-- The user asked for the version. -/
  | version
deriving Repr, DecidableEq

structure Arguments where
  directory : Text := ['.']
  included : List Text := []
  excluded : List Text := []
  flags : List Flag := []
deriving Repr, DecidableEq

inductive Word where
  /-- Two dashes alone: no options after this. -/
  | endOfOptions
  /-- Two dashes and a name, with the value that follows a `=`. -/
  | long (name : Text) (value : Option Text)
  /-- One dash and the short names of one or more options. -/
  | cluster (names : Text)
  | plain (t : Text)
deriving Repr, DecidableEq

namespace Word

/-- A long option's name and value, as they are written. -/
def splitValue : Text → Text × Option Text
  | [] => ([], none)
  | c :: rest =>
    if c = '=' then ([], some rest)
    else
      let r := splitValue rest
      (c :: r.1, r.2)

def ofText : Text → Word
  | ['-', '-'] => .endOfOptions
  | '-' :: '-' :: rest => .long (splitValue rest).1 (splitValue rest).2
  | ['-'] => .plain ['-']
  | '-' :: names => .cluster names
  | t => .plain t

end Word

structure ArgumentReader where
  arguments : Arguments := {}
  directoryGiven : Bool := false
  /-- The option that still needs its value. -/
  awaiting : Option GlobOption := none
  /-- A `--` has been read. -/
  optionsEnded : Bool := false
deriving Repr, DecidableEq

namespace ArgumentReader

/-- No option may still need its value. -/
def settle (r : ArgumentReader) : Except ArgumentStop Unit :=
  if r.awaiting.isSome then .error .missingValue else .ok ()

def setGlob (r : ArgumentReader) (o : GlobOption) (value : Text) : ArgumentReader :=
  let a := r.arguments
  match o with
  | .included => { r with arguments := { a with included := a.included ++ [value] }, awaiting := none }
  | .excluded => { r with arguments := { a with excluded := a.excluded ++ [value] }, awaiting := none }

/-- Takes a flag, which must be the first of its name. -/
def setFlag (r : ArgumentReader) (f : Flag) : Except ArgumentStop ArgumentReader :=
  if f ∈ r.arguments.flags then .error .conflict
  else .ok { r with arguments := { r.arguments with flags := r.arguments.flags ++ [f] } }

def enter (r : ArgumentReader) (m : Meaning) : Except ArgumentStop ArgumentReader := do
  r.settle
  match m with
  | .flag f => r.setFlag f
  | .glob o => .ok { r with awaiting := some o }
  | .help => .error .help
  | .version => .error .version

/-- Takes an option with the value attached to it. A value that is not wanted is an error even before
one that is missing. -/
def enterWith (r : ArgumentReader) (m : Meaning) (value : Text) :
    Except ArgumentStop ArgumentReader :=
  match m with
  | .glob o => do
    r.settle
    .ok (r.setGlob o value)
  | _ => .error .unwantedValue

def readLong (r : ArgumentReader) (name : Text) (value : Option Text) :
    Except ArgumentStop ArgumentReader :=
  match Meaning.ofLong? name, value with
  | none, _ => .error .unknownArgument
  | some m, none => r.enter m
  | some m, some value => r.enterWith m value

/-- Takes short names in turn. What follows the name of an option that needs a value is its value,
with or without a `=` in front. -/
def readCluster (r : ArgumentReader) : Text → Except ArgumentStop ArgumentReader
  | [] => .ok r
  | name :: rest =>
    match Meaning.ofShort? name with
    | none => .error .unknownArgument
    | some (.glob o) =>
      match rest with
      | [] => r.enter (.glob o)
      | '=' :: value => r.enterWith (.glob o) value
      | value => r.enterWith (.glob o) value
    | some m => do readCluster (← r.enter m) rest

/-- Takes the directory; there can be only one. -/
def setDirectory (r : ArgumentReader) (t : Text) : Except ArgumentStop ArgumentReader :=
  if r.directoryGiven then .error .unknownArgument
  else do
    r.settle
    .ok { r with arguments := { r.arguments with directory := t }, directoryGiven := true }

def read (r : ArgumentReader) (t : Text) : Except ArgumentStop ArgumentReader :=
  if r.optionsEnded then r.setDirectory t
  else
    match Word.ofText t with
    | .endOfOptions => .ok { r with optionsEnded := true }
    | .long name value => r.readLong name value
    | .cluster names => r.readCluster names
    | .plain t =>
      match r.awaiting with
      | some o => .ok (r.setGlob o t)
      | none => r.setDirectory t

def finish (r : ArgumentReader) : Except ArgumentStop Arguments := do
  r.settle
  if .sequential ∈ r.arguments.flags ∧ .parallel ∈ r.arguments.flags then .error .conflict
  else .ok r.arguments

end ArgumentReader

namespace Arguments

def read (words : List Text) : Except ArgumentStop Arguments := do
  (← words.foldlM ArgumentReader.read {}).finish

def has (a : Arguments) (f : Flag) : Bool := f ∈ a.flags

def strategy? (a : Arguments) : Option Strategy :=
  if a.has .sequential then some .sequential
  else if a.has .parallel then some .parallel
  else none

/-- The globs to include; everything if none was given. -/
def includedGlobs (a : Arguments) : List Text :=
  if a.included.isEmpty then ["**".toList] else a.included

def settings (a : Arguments) : Settings where
  skipHidden := !a.has .hidden
  caseSensitive := !a.has .ignoreCase
  strategy := a.strategy?.getD .sequential

end Arguments

end TreeGlob
