import TreeGlob.CommandLine.Program
import TreeGlob.Disk.Listing

/-!
The command line. The tree to search is read from standard input as a listing, such as
`find / -printf '%y %p\t%l\n'` writes; the root of the tree is the current directory. The listing is
not asked for when the arguments stop the program anyway.
-/
namespace TreeGlob.Program

/-- All lines of a stream, without their line breaks. -/
partial def readLines (input : IO.FS.Stream) (lines : Array Text) : IO (List Text) := do
  let line ← input.getLine
  if line.isEmpty then return lines.toList
  readLines input (lines.push (line.toList.filter (· ≠ '\n')))

/-- The disk that standard input lists. -/
def readDisk : IO Disk := return Disk.ofLines (← readLines (← IO.getStdin) #[])

end TreeGlob.Program

open TreeGlob in
def main (args : List String) : IO UInt32 := do
  let words := args.map String.toList
  let disk ← match Arguments.read words with
    | .ok _ => Program.readDisk
    | .error _ => pure Disk.empty
  let outcome := Program.run disk.fileSystem disk.extent Path.root words
  outcome.printed.forM (← IO.getStdout).putStrLn
  (← IO.getStderr).putStr outcome.complaint
  return UInt32.ofNat outcome.exit
