import TreeGlob.Search.Feed

/-!
What a reader gets from the feed of a search that has run to its end.

* `readWithin_of_queue` says that a feed whose search has finished gives what was sent, in order, and
  then its end.
* `readAll_ofReport` says that the feed of a search that did not fail gives what the search found, and
  `readAll_ofReport_of_error` that one that failed gives the error after it;
  `paths_readAll_ofReport` says that nothing that was found is lost.
* `Polls` is all that a poll can do.
* `mem_of_readWithin` and `mem_of_ofReport` say that a reader gets nothing but what was found, however
  the search ended and however often it polls.
-/
namespace TreeGlob

namespace Feed

theorem foldl_send (found : List Path) (queue : List (Except FsError Path)) :
    found.foldl (fun f p => f.send (.ok p)) (Feed.mk queue true .running false) =
      Feed.mk (queue ++ found.map .ok) true .running false := by
  induction found generalizing queue with
  | nil => simp
  | cons p found ih =>
    have hsend : (Feed.mk queue true .running false).send (.ok p) =
      ⟨queue ++ [.ok p], true, .running, false⟩ := rfl
    rw [List.foldl_cons, hsend, ih]
    simp

theorem readWithin_of_queue (paths : List Path) :
    readWithin (paths.length + 1) ⟨paths.map .ok, false, .finished, false⟩ =
      ⟨paths, none, ⟨[], false, .finished, true⟩⟩ := by
  induction paths with
  | nil => rfl
  | cons p paths ih =>
    rw [List.length_cons, readWithin, poll]
    simp [ih]

theorem readWithin_of_error (paths : List Path) (e : FsError) :
    readWithin (paths.length + 2) ⟨paths.map .ok ++ [.error e], false, .finished, false⟩ =
      ⟨paths, some e, ⟨[], false, .finished, true⟩⟩ := by
  induction paths with
  | nil => rfl
  | cons p paths ih =>
    rw [List.length_cons, Nat.succ_add, readWithin, poll]
    simp [ih]

theorem readAll_ofReport {r : Report} (h : r.failure = none) :
    (ofReport r).readAll = ⟨r.found, none, ⟨[], false, .finished, true⟩⟩ := by
  have hfeed : ofReport r = ⟨r.found.map .ok, false, .finished, false⟩ := by
    unfold ofReport
    rw [h, start, foldl_send]
    rfl
  rw [hfeed, readAll, List.length_map]
  exact readWithin_of_queue r.found

theorem readAll_ofReport_of_error {r : Report} {e : FsError} (h : r.failure = some (.error e)) :
    (ofReport r).readAll = ⟨r.found, some e, ⟨[], false, .finished, true⟩⟩ := by
  have hfeed : ofReport r = ⟨r.found.map .ok ++ [.error e], false, .finished, false⟩ := by
    unfold ofReport
    rw [h, start, foldl_send]
    rfl
  rw [hfeed, readAll, List.length_append, List.length_map]
  exact readWithin_of_error r.found e

theorem readWithin_of_death (paths : List Path) :
    readWithin (paths.length + 1) ⟨paths.map .ok, false, .panicked, false⟩ =
      ⟨paths, some .taskFailed, ⟨[], false, .panicked, true⟩⟩ := by
  induction paths with
  | nil => rfl
  | cons p paths ih =>
    rw [List.length_cons, readWithin, poll]
    simp [ih]

/-- However a search ends, its feed gives what the search found. -/
theorem paths_readAll_ofReport (r : Report) : (ofReport r).readAll.paths = r.found := by
  have hdied : r.failure = some .crash ∨ r.failure = some .tooDeep →
      (ofReport r).readAll.paths = r.found := by
    intro h
    have hfeed : ofReport r = ⟨r.found.map .ok, false, .panicked, false⟩ := by
      unfold ofReport
      rcases h with h | h <;> rw [h, start, foldl_send] <;> rfl
    rw [hfeed, readAll, List.length_map, readWithin_of_death]
  cases h : r.failure with
  | none => rw [readAll_ofReport h]
  | some why =>
    cases why with
    | error e => rw [readAll_ofReport_of_error h]
    | crash => exact hdied (.inl h)
    | tooDeep => exact hdied (.inr h)

/-- All that a poll can do. -/
inductive Polls (f : Feed) : Polled → Feed → Prop
  | after (ended : f.ended = true) : Polls f .atEnd f
  | path {p : Path} {queue : List (Except FsError Path)} (ended : f.ended = false)
      (next : f.queue = .ok p :: queue) : Polls f (.item (.ok p)) { f with queue := queue }
  | error {e : FsError} {queue : List (Except FsError Path)} (ended : f.ended = false)
      (next : f.queue = .error e :: queue) :
      Polls f (.item (.error e)) { f.settle .cancelled with queue := queue, ended := true }
  | wait (ended : f.ended = false) (empty : f.queue = [])
      (due : f.isOpen = true ∨ f.task = .running) : Polls f .pending f
  /-- The search died without an error of its own. -/
  | died (ended : f.ended = false) (empty : f.queue = []) (closed : f.isOpen = false)
      (task : f.task = .panicked) : Polls f (.item (.error .taskFailed)) { f with ended := true }
  | finish (ended : f.ended = false) (empty : f.queue = []) (closed : f.isOpen = false)
      (running : f.task ≠ .running) (panicked : f.task ≠ .panicked) :
      Polls f .atEnd { f with ended := true }

theorem polls (f : Feed) : Polls f f.poll.1 f.poll.2 := by
  cases hended : f.ended with
  | true =>
    rw [poll_of_ended hended]
    exact .after hended
  | false =>
    rw [poll, if_neg (by rw [hended]; exact Bool.false_ne_true)]
    split
    · next e queue hqueue => exact .error hended hqueue
    · next p queue hqueue => exact .path hended hqueue
    · next hqueue =>
      split
      · next hopen => exact .wait hended hqueue (.inl hopen)
      · next hopen =>
        have hclosed : f.isOpen = false := Bool.eq_false_iff.mpr hopen
        split
        · next htask => exact .wait hended hqueue (.inr htask)
        · next htask => exact .died hended hqueue hclosed htask
        · next hrunning hpanicked => exact .finish hended hqueue hclosed hrunning hpanicked

theorem mem_of_readWithin {polls : Nat} {f : Feed} {p : Path} (h : p ∈ (readWithin polls f).paths) :
    .ok p ∈ f.queue := by
  induction polls generalizing f with
  | zero => cases h
  | succ n ih =>
    rw [readWithin] at h
    split at h
    · next q rest hpoll =>
      -- Only a poll that takes a path out of the queue gives one.
      have hpolls := f.polls
      rw [hpoll] at hpolls
      cases hpolls with
      | path hended hqueue =>
        rw [hqueue]
        cases List.mem_cons.mp h with
        | inl hp => exact hp ▸ List.mem_cons_self
        | inr hp => exact List.mem_cons_of_mem _ (ih hp)
    · cases h
    · cases h

theorem mem_of_ofReport {r : Report} {p : Path} (h : .ok p ∈ (ofReport r).queue) : p ∈ r.found := by
  unfold ofReport at h
  rw [start, foldl_send] at h
  dsimp only at h
  split at h <;> simpa [close, send] using h

end Feed

end TreeGlob
