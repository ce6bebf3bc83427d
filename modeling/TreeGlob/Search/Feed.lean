import TreeGlob.Search.Report

/-!
The feed of a search's results. The search sends paths, and at most one error, into a channel; its
reader polls them one at a time. The first error ends the feed; so does cancelling it. When the
channel is empty and nothing more can come, the way the search ended decides what the reader sees.

The channel closes when its last sender is gone. That may be before or after the task that runs the
search has come to its end, since the search may have further tasks that send.

* `Feed.send`, `Feed.close` and `Feed.settle` are the search's side, `Feed.poll` and `Feed.cancel` the
  reader's.
* `Feed.ofReport` is the feed of a search that has run to its end.
* `Feed.take` reads up to a number of paths, `Feed.collectSorted` reads all.

Main statement: a feed that has ended yields nothing ever after.
-/
namespace TreeGlob

inductive TaskState where
  | running
  | finished
  | panicked
  | cancelled
deriving Repr, DecidableEq

structure Feed where
  /-- What was sent and not yet read, oldest first. -/
  queue : List (Except FsError Path)
  /-- The channel takes what is sent: it has senders left, and the reader has not closed it. -/
  isOpen : Bool
  task : TaskState
  /-- The reader has been told that the feed is at its end, or has ended it. -/
  ended : Bool

inductive Polled where
  | item (i : Except FsError Path)
  | atEnd
  /-- Nothing yet, but something may come. -/
  | pending

namespace Feed

def start : Feed := ⟨[], true, .running, false⟩

def send (f : Feed) (i : Except FsError Path) : Feed :=
  if f.isOpen then { f with queue := f.queue ++ [i] } else f

def close (f : Feed) : Feed := { f with isOpen := false }

def settle (f : Feed) (state : TaskState) : Feed :=
  if f.task = .running then { f with task := state } else f

def cancel (f : Feed) : Feed := { (f.settle .cancelled).close with ended := true }

/-- Reads one item. An error is the last item; a search that died without sending one counts as one
that failed. -/
def poll (f : Feed) : Polled × Feed :=
  if f.ended then (.atEnd, f)
  else
    match f.queue with
    | .error e :: queue =>
      (.item (.error e), { f.settle .cancelled with queue := queue, ended := true })
    | .ok p :: queue => (.item (.ok p), { f with queue := queue })
    | [] =>
      if f.isOpen then (.pending, f)
      else
        match f.task with
        | .running => (.pending, f)
        | .panicked => (.item (.error .taskFailed), { f with ended := true })
        | _ => (.atEnd, { f with ended := true })

/-- The feed of a search that has run to its end, nothing read yet. -/
def ofReport (r : Report) : Feed :=
  let sent := r.found.foldl (fun f p => f.send (.ok p)) start
  match r.failure with
  | none => sent.close.settle .finished
  | some (.error e) => (sent.send (.error e)).close.settle .finished
  | some .crash | some .tooDeep => sent.close.settle .panicked

structure Reading where
  paths : List Path
  failure : Option FsError
  rest : Feed

/-- Polls up to `polls` times, and stops at the end or at an error. -/
def readWithin : (polls : Nat) → Feed → Reading
  | 0, f => ⟨[], none, f⟩
  | polls + 1, f =>
    match f.poll with
    | (.item (.ok p), rest) =>
      let r := readWithin polls rest
      { r with paths := p :: r.paths }
    | (.item (.error e), rest) => ⟨[], some e, rest⟩
    | (_, rest) => ⟨[], none, rest⟩

/-- Reads to the end or the first error. Each poll takes an item out of the queue, and one more finds
out how the search ended. -/
def readAll (f : Feed) : Reading := readWithin (f.queue.length + 1) f

/-- Reads up to `count` paths and then cancels the feed; an end or an error that comes before is left
as it is. -/
def take (f : Feed) (count : Nat) : Reading :=
  let r := readWithin count f
  if r.paths.length = count then { r with rest := r.rest.cancel } else r

/-- Reads to the end and sorts what came; an error takes the place of the whole. -/
def collectSorted (f : Feed) : Except FsError (List Path) :=
  let r := f.readAll
  match r.failure with
  | none => .ok (Path.sort r.paths)
  | some e => .error e

@[simp] theorem queue_settle (f : Feed) (state : TaskState) : (f.settle state).queue = f.queue := by
  unfold settle
  split <;> rfl

@[simp] theorem isOpen_settle (f : Feed) (state : TaskState) :
    (f.settle state).isOpen = f.isOpen := by
  unfold settle
  split <;> rfl

@[simp] theorem ended_settle (f : Feed) (state : TaskState) : (f.settle state).ended = f.ended := by
  unfold settle
  split <;> rfl

theorem poll_of_ended {f : Feed} (h : f.ended = true) : f.poll = (.atEnd, f) := by
  simp [poll, h]

end Feed

end TreeGlob
