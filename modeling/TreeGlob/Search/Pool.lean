import TreeGlob.Search.Task

/-!
Searching in parallel. A pool holds one job for every directory that is being visited; a job is what
is left of the dialogue for it. In each step one job, any of them, goes on by one report or one
question, so jobs interleave in every way. A job that ends is replaced by the jobs for the directories
it found worth entering. The first job that breaks off ends the whole search.

* `Pool.step` lets one job go on.
* `Pool.run` takes many steps, in the order that `pick` chooses.

Main statement: a pool that is over stays as it is.
-/
namespace TreeGlob

structure Pool where
  jobs : List (Dialogue (List Task))
  /-- The paths reported so far, in order. -/
  found : List Path
  /-- The questions asked so far, in order. -/
  asked : List Query
  failure : Option Failure

namespace Pool

def start (job : Dialogue (List Task)) : Pool := ⟨[job], [], [], none⟩

def isOver (p : Pool) : Bool := p.jobs.isEmpty || p.failure.isSome

/-- Lets the job at `i` go on by one step. -/
def stepAt (fs : FileSystem) (s : Selection) (p : Pool) (i : Nat) : Pool :=
  match p.jobs[i]? with
  | none => p
  | some (.done tasks) => { p with jobs := p.jobs.take i ++ tasks.map (·.visit s) ++ p.jobs.drop (i + 1) }
  | some (.stop why) => { p with jobs := [], failure := some why }
  | some (.report path rest) => { p with jobs := p.jobs.set i rest, found := p.found ++ [path] }
  | some (.ask q next) => { p with jobs := p.jobs.set i (next (fs q)), asked := p.asked ++ [q] }

/-- Lets one job go on: the `i`-th, counted round and round. -/
def step (fs : FileSystem) (s : Selection) (p : Pool) (i : Nat) : Pool :=
  if p.isOver then p else p.stepAt fs s (i % p.jobs.length)

/-- Takes up to `count` steps; before each, `pick` chooses a job by the number of steps left. -/
def run (fs : FileSystem) (s : Selection) (pick : Nat → Nat) : (count : Nat) → Pool → Pool
  | 0, p => p
  | count + 1, p => if p.isOver then p else run fs s pick count (p.step fs s (pick count))

theorem step_of_isOver {fs : FileSystem} {s : Selection} {p : Pool} (h : p.isOver = true) (i : Nat) :
    p.step fs s i = p := by
  simp [step, h]

theorem run_of_isOver {fs : FileSystem} {s : Selection} {p : Pool} (h : p.isOver = true)
    (pick : Nat → Nat) (count : Nat) : p.run fs s pick count = p := by
  cases count <;> simp [run, h]

end Pool

end TreeGlob
