import TreeGlob.Proofs.Search.Feed

/-!
What a feed and its reader may rely on, whatever happens in whatever order: items are sent, the last
sender goes, the task that runs the search ends, dies or is stopped, the reader polls and cancels.

* `Feed.Log` is a feed together with its past: what was sent, what each poll gave and whether the
  reader has cancelled. `Log.step` is one event, `Log.after` a history of them.
* `Log.Phase` is the invariant: a feed is being read, or it has ended in one of four ways. Its cases
  say what was yielded then. `Phase.step` says that every event keeps it.
* `Log.Drains` is a feed that gets nothing more and whose task is over. It keeps its past, and every
  poll that does not end it takes an item (`drains_after`).
* **`Feed.proper_after`**: paths come in the order in which they were sent and then at most one
  error; nothing comes after an error, an end or a cancelling; an end without an error means that
  all was yielded and nobody failed; and a task that died is told of, after all that it sent.
* `Feed.after_eventsOf` says that the feed of a search that has run to its end is such a feed.
-/
namespace TreeGlob

def Polled.item? : Polled → Option (Except FsError Path)
  | .item i => some i
  | .atEnd | .pending => none

namespace Feed

inductive Event where
  | send (i : Except FsError Path)
  /-- The last sender goes. -/
  | close
  /-- The task that runs the search comes to an end. -/
  | settle (state : TaskState)
  | poll
  | cancel

def Event.isPoll : Event → Bool
  | .poll => true
  | .send _ | .close | .settle _ | .cancel => false

structure Log where
  feed : Feed
  /-- What the channel took, oldest first. -/
  sent : List (Except FsError Path)
  /-- What each poll gave, oldest first. -/
  told : List Polled
  /-- The reader has cancelled the feed. -/
  cancelled : Bool

namespace Log

def start : Log := ⟨Feed.start, [], [], false⟩

def step (log : Log) : Event → Log
  | .send i =>
    { log with
      feed := log.feed.send i
      sent := if log.feed.isOpen then log.sent ++ [i] else log.sent }
  | .close => { log with feed := log.feed.close }
  | .settle state => { log with feed := log.feed.settle state }
  | .poll => { log with feed := log.feed.poll.2, told := log.told ++ [log.feed.poll.1] }
  | .cancel => { log with feed := log.feed.cancel, cancelled := true }

def after (log : Log) (events : List Event) : Log := events.foldl step log

def yielded (log : Log) : List (Except FsError Path) := log.told.filterMap Polled.item?

/-- The reader got an error or the end, or has cancelled the feed. -/
def IsOver (log : Log) : Prop :=
  log.cancelled = true ∨ Polled.atEnd ∈ log.told ∨ ∃ e, .error e ∈ log.yielded

variable {log : Log}

theorem yielded_told (log : Log) (feed : Feed) (polled : Polled) :
    { log with feed := feed, told := log.told ++ [polled] }.yielded =
      log.yielded ++ polled.item?.toList := by
  unfold yielded
  rw [List.filterMap_append]
  cases polled <;> rfl

theorem step_poll_of_ended (h : log.feed.ended = true) :
    log.step .poll = { log with told := log.told ++ [.atEnd] } := by
  rw [step, poll_of_ended h]

/-! ## How far a feed is -/

/-- A feed is being read, or it has ended by an error that was sent, by the death of its task, at
its end, or because it was cancelled. -/
inductive Phase (log : Log) : Prop
  | reading (paths : List Path) (ended : log.feed.ended = false) (kept : log.cancelled = false)
      (silent : Polled.atEnd ∉ log.told) (yielded : log.yielded = paths.map .ok)
      (sent : log.sent = paths.map .ok ++ log.feed.queue)
  | failed (paths : List Path) (e : FsError) (ended : log.feed.ended = true)
      (yielded : log.yielded = paths.map .ok ++ [.error e])
      (sent : paths.map .ok ++ [.error e] <+: log.sent)
  | died (paths : List Path) (ended : log.feed.ended = true) (closed : log.feed.isOpen = false)
      (task : log.feed.task = .panicked)
      (yielded : log.yielded = paths.map .ok ++ [.error .taskFailed])
      (sent : log.sent = paths.map .ok)
  | finished (paths : List Path) (ended : log.feed.ended = true) (closed : log.feed.isOpen = false)
      (running : log.feed.task ≠ .running) (panicked : log.feed.task ≠ .panicked)
      (yielded : log.yielded = paths.map .ok) (sent : log.sent = paths.map .ok)
  | cancelled (paths : List Path) (ended : log.feed.ended = true)
      (closed : log.feed.isOpen = false) (cancelled : log.cancelled = true)
      (yielded : log.yielded = paths.map .ok) (sent : paths.map .ok <+: log.sent)

end Log

theorem settle_of_ne_running {f : Feed} (h : f.task ≠ .running) (state : TaskState) :
    f.settle state = f := if_neg h

theorem send_of_closed {f : Feed} (h : f.isOpen = false) (i : Except FsError Path) :
    f.send i = f := by
  rw [send, h]
  rfl

namespace Log

variable {log : Log}

theorem phase_start : start.Phase :=
  .reading [] rfl rfl List.not_mem_nil rfl rfl

theorem step_send_of_closed (h : log.feed.isOpen = false) (i : Except FsError Path) :
    log.step (.send i) = log := by
  rw [step, send_of_closed h, h]
  rfl

theorem Phase.send (h : log.Phase) (i : Except FsError Path) : (log.step (.send i)).Phase := by
  cases hopen : log.feed.isOpen with
  | false =>
    rw [step_send_of_closed hopen]
    exact h
  | true =>
    have hstep : log.step (.send i) = { log with
        feed := { log.feed with queue := log.feed.queue ++ [i] }, sent := log.sent ++ [i] } := by
      simp only [step, Feed.send, hopen, if_true]
    rw [hstep]
    cases h with
    | reading paths hended hkept hsilent hyielded hsent =>
      refine .reading paths hended hkept hsilent hyielded ?_
      show log.sent ++ [i] = _
      rw [hsent, List.append_assoc]
    | failed paths e hended hyielded hsent =>
      exact .failed paths e hended hyielded (hsent.trans (List.prefix_append log.sent [i]))
    | died _ _ hclosed | finished _ _ hclosed | cancelled _ _ hclosed =>
      rw [hopen] at hclosed
      cases hclosed

theorem Phase.close (h : log.Phase) : (log.step .close).Phase := by
  cases h with
  | reading paths hended hkept hsilent hyielded hsent =>
    exact .reading paths hended hkept hsilent hyielded hsent
  | failed paths e hended hyielded hsent => exact .failed paths e hended hyielded hsent
  | died paths hended _ htask hyielded hsent => exact .died paths hended rfl htask hyielded hsent
  | finished paths hended _ hrunning hpanicked hyielded hsent =>
    exact .finished paths hended rfl hrunning hpanicked hyielded hsent
  | cancelled paths hended _ hcancelled hyielded hsent =>
    exact .cancelled paths hended rfl hcancelled hyielded hsent

theorem Phase.settle (h : log.Phase) (state : TaskState) : (log.step (.settle state)).Phase := by
  cases h with
  | reading paths hended hkept hsilent hyielded hsent =>
    refine .reading paths ((ended_settle ..).trans hended) hkept hsilent hyielded ?_
    exact hsent.trans (congrArg _ (queue_settle ..).symm)
  | failed paths e hended hyielded hsent =>
    exact .failed paths e ((ended_settle ..).trans hended) hyielded hsent
  | died paths hended hclosed htask hyielded hsent =>
    have hsettle : log.step (.settle state) = log := by
      rw [step, settle_of_ne_running (by rw [htask]; exact TaskState.noConfusion)]
    rw [hsettle]
    exact .died paths hended hclosed htask hyielded hsent
  | finished paths hended hclosed hrunning hpanicked hyielded hsent =>
    have hsettle : log.step (.settle state) = log := by
      rw [step, settle_of_ne_running hrunning]
    rw [hsettle]
    exact .finished paths hended hclosed hrunning hpanicked hyielded hsent
  | cancelled paths hended hclosed hcancelled hyielded hsent =>
    exact .cancelled paths ((ended_settle ..).trans hended) ((isOpen_settle ..).trans hclosed)
      hcancelled hyielded hsent

theorem Phase.poll (h : log.Phase) : (log.step .poll).Phase := by
  have hsame : { log with told := log.told ++ [Polled.atEnd] }.yielded = log.yielded :=
    (yielded_told log log.feed .atEnd).trans (List.append_nil _)
  cases h with
  | reading paths hended hkept hsilent hyielded hsent =>
    have hpolls := log.feed.polls
    rw [step]
    generalize log.feed.poll.1 = polled, log.feed.poll.2 = feed at hpolls ⊢
    have hyields := yielded_told log feed polled
    rw [hyielded] at hyields
    have hnext : polled ≠ .atEnd → Polled.atEnd ∉ log.told ++ [polled] := by
      intro hpolled hmem
      cases List.mem_append.mp hmem with
      | inl hmem => exact hsilent hmem
      | inr hmem => exact hpolled (List.mem_singleton.mp hmem).symm
    cases hpolls with
    | after hover => exact absurd (hended.symm.trans hover) Bool.false_ne_true
    | @path p queue _ hqueue =>
      refine .reading (paths ++ [p]) hended hkept (hnext Polled.noConfusion) ?_ ?_
      · rw [hyields, List.map_append]
        rfl
      · show log.sent = _
        rw [hsent, hqueue, List.map_append, List.append_assoc]
        rfl
    | @error e queue _ hqueue =>
      refine .failed paths e rfl hyields ?_
      show _ <+: log.sent
      rw [hsent, hqueue]
      exact ⟨queue, List.append_assoc ..⟩
    | wait =>
      exact .reading paths hended hkept (hnext Polled.noConfusion)
        (hyields.trans (List.append_nil _)) hsent
    | died _ hempty hclosed htask =>
      rw [hempty, List.append_nil] at hsent
      exact .died paths rfl hclosed htask hyields hsent
    | finish _ hempty hclosed hrunning hpanicked =>
      rw [hempty, List.append_nil] at hsent
      exact .finished paths rfl hclosed hrunning hpanicked (hyields.trans (List.append_nil _)) hsent
  | failed paths e hended hyielded hsent =>
    rw [step_poll_of_ended hended]
    exact .failed paths e hended (hsame.trans hyielded) hsent
  | died paths hended hclosed htask hyielded hsent =>
    rw [step_poll_of_ended hended]
    exact .died paths hended hclosed htask (hsame.trans hyielded) hsent
  | finished paths hended hclosed hrunning hpanicked hyielded hsent =>
    rw [step_poll_of_ended hended]
    exact .finished paths hended hclosed hrunning hpanicked (hsame.trans hyielded) hsent
  | cancelled paths hended hclosed hcancelled hyielded hsent =>
    rw [step_poll_of_ended hended]
    exact .cancelled paths hended hclosed hcancelled (hsame.trans hyielded) hsent

theorem Phase.cancel (h : log.Phase) : (log.step .cancel).Phase := by
  have hcancel (hrunning : log.feed.task ≠ .running) : log.step .cancel =
      { log with feed := { log.feed with isOpen := false, ended := true }, cancelled := true } := by
    rw [step, Feed.cancel, settle_of_ne_running hrunning]
    rfl
  cases h with
  | reading paths _ _ _ hyielded hsent =>
    exact .cancelled paths rfl rfl rfl hyielded ⟨log.feed.queue, hsent.symm⟩
  | failed paths e _ hyielded hsent => exact .failed paths e rfl hyielded hsent
  | died paths _ _ htask hyielded hsent =>
    rw [hcancel (by rw [htask]; exact TaskState.noConfusion)]
    exact .died paths rfl rfl htask hyielded hsent
  | finished paths _ _ hrunning hpanicked hyielded hsent =>
    rw [hcancel hrunning]
    exact .finished paths rfl rfl hrunning hpanicked hyielded hsent
  | cancelled paths _ _ _ hyielded hsent => exact .cancelled paths rfl rfl rfl hyielded hsent

theorem Phase.step (h : log.Phase) (event : Event) : (log.step event).Phase := by
  cases event with
  | send i => exact h.send i
  | close => exact h.close
  | settle state => exact h.settle state
  | poll => exact h.poll
  | cancel => exact h.cancel

theorem Phase.after (h : log.Phase) (events : List Event) : (log.after events).Phase := by
  induction events generalizing log with
  | nil => exact h
  | cons event events ih => exact ih (h.step event)

/-! ## After the end -/

theorem error_not_mem (paths : List Path) (e : FsError) : .error e ∉ paths.map Except.ok := by
  intro he
  obtain ⟨p, -, hp⟩ := List.mem_map.mp he
  cases hp

theorem Phase.ended_of_isOver (h : log.Phase) (hover : log.IsOver) : log.feed.ended = true := by
  cases h with
  | reading paths _ hkept hsilent hyielded _ =>
    rcases hover with hcancelled | htold | ⟨e, he⟩
    · rw [hkept] at hcancelled
      cases hcancelled
    · exact absurd htold hsilent
    · rw [hyielded] at he
      exact absurd he (error_not_mem paths e)
  | failed _ _ hended | died _ hended | finished _ hended | cancelled _ hended => exact hended

theorem ended_step (h : log.feed.ended = true) (event : Event) :
    (log.step event).feed.ended = true := by
  cases event with
  | send i =>
    show (log.feed.send i).ended = true
    unfold Feed.send
    split <;> exact h
  | close => exact h
  | settle state => exact (ended_settle log.feed state).trans h
  | poll =>
    rw [step_poll_of_ended h]
    exact h
  | cancel => rfl

theorem ended_after (h : log.feed.ended = true) (events : List Event) :
    (log.after events).feed.ended = true := by
  induction events generalizing log with
  | nil => exact h
  | cons event events ih => exact ih (ended_step h event)

theorem told_after_of_ended (h : log.feed.ended = true) (events : List Event) :
    ∃ n, (log.after events).told = log.told ++ List.replicate n Polled.atEnd := by
  induction events generalizing log with
  | nil => exact ⟨0, (List.append_nil _).symm⟩
  | cons event events ih =>
    obtain ⟨n, hn⟩ := ih (ended_step h event)
    cases event with
    | send | close | settle | cancel => exact ⟨n, hn⟩
    | poll =>
      refine ⟨n + 1, ?_⟩
      calc (log.after (.poll :: events)).told
          = (log.step .poll).told ++ List.replicate n Polled.atEnd := hn
        _ = (log.told ++ [.atEnd]) ++ List.replicate n .atEnd := by rw [step_poll_of_ended h]
        _ = log.told ++ List.replicate (n + 1) .atEnd := by
          rw [List.append_assoc]
          rfl

/-! ## What is left when nothing more comes -/

/-- What happens to a feed that gets nothing more and whose task is over, while its reader does not
cancel it: its past stays, and each of so many polls has taken an item, if it has not ended. -/
structure Drains (log next : Log) (polls : Nat) : Prop where
  closed : next.feed.isOpen = false
  task : next.feed.task = log.feed.task
  sent : next.sent = log.sent
  kept : next.cancelled = log.cancelled
  progress : next.feed.ended = true ∨ next.feed.queue.length + polls ≤ log.feed.queue.length

theorem Drains.refl (h : log.feed.isOpen = false) : log.Drains log 0 :=
  ⟨h, rfl, rfl, rfl, .inr (Nat.le_refl _)⟩

theorem drains_poll (hclosed : log.feed.isOpen = false) (hover : log.feed.task ≠ .running) :
    log.Drains (log.step .poll) 1 := by
  have hpolls := log.feed.polls
  rw [step]
  generalize log.feed.poll.1 = polled, log.feed.poll.2 = feed at hpolls ⊢
  cases hpolls with
  | after hended => exact ⟨hclosed, rfl, rfl, rfl, .inl hended⟩
  | @path p queue _ hqueue =>
    refine ⟨hclosed, rfl, rfl, rfl, .inr ?_⟩
    show queue.length + 1 ≤ log.feed.queue.length
    exact Nat.le_of_eq (congrArg List.length hqueue).symm
  | error =>
    rw [settle_of_ne_running hover]
    exact ⟨hclosed, rfl, rfl, rfl, .inl rfl⟩
  | wait _ _ hdue =>
    cases hdue with
    | inl hopen => exact absurd (hclosed.symm.trans hopen) Bool.false_ne_true
    | inr hrunning => exact absurd hrunning hover
  | died | finish => exact ⟨hclosed, rfl, rfl, rfl, .inl rfl⟩

theorem drains_step (hclosed : log.feed.isOpen = false) (hover : log.feed.task ≠ .running)
    {event : Event} (hcancel : event ≠ .cancel) :
    log.Drains (log.step event) (if event.isPoll then 1 else 0) := by
  cases event with
  | send i =>
    rw [step_send_of_closed hclosed]
    exact .refl hclosed
  | close => exact ⟨rfl, rfl, rfl, rfl, .inr (Nat.le_refl _)⟩
  | settle state =>
    rw [step, settle_of_ne_running hover]
    exact .refl hclosed
  | poll => exact drains_poll hclosed hover
  | cancel => exact absurd rfl hcancel

theorem drains_after (hclosed : log.feed.isOpen = false) (hover : log.feed.task ≠ .running)
    {events : List Event} (hcancel : .cancel ∉ events) :
    log.Drains (log.after events) (events.countP Event.isPoll) := by
  induction events generalizing log with
  | nil => exact .refl hclosed
  | cons event events ih =>
    obtain ⟨hevent, hevents⟩ := not_or.mp (mt List.mem_cons.mpr hcancel)
    have first := drains_step hclosed hover (Ne.symm hevent)
    have others := ih first.closed (first.task ▸ hover) hevents
    refine ⟨others.closed, others.task.trans first.task, others.sent.trans first.sent,
      others.kept.trans first.kept, ?_⟩
    rw [List.countP_cons]
    cases first.progress with
    | inl hended => exact .inl (ended_after hended events)
    | inr hfirst =>
      show ((log.step event).after events).feed.ended = true ∨
        ((log.step event).after events).feed.queue.length + _ ≤ _
      refine others.progress.imp_right fun hothers => ?_
      omega

/-! ## The protocol -/

/-- What a feed and its reader may rely on. -/
structure Proper (log : Log) : Prop where
  /-- Paths in the order in which they were sent, and then at most one error: the one that was sent
  next, or that the task died after it had sent these paths. -/
  yields : ∃ (paths : List Path) (failure : Option FsError),
    log.yielded = paths.map .ok ++ failure.toList.map .error ∧ paths.map .ok <+: log.sent ∧
      ∀ e, failure = some e → paths.map .ok ++ [.error e] <+: log.sent ∨
        e = .taskFailed ∧ log.feed.task = .panicked ∧ log.sent = paths.map .ok
  /-- After an error, an end or a cancelling every poll gives the end. -/
  settled : log.IsOver → ∀ events, ∃ n,
    (log.after events).told = log.told ++ List.replicate n Polled.atEnd
  /-- The end comes without an error only after a cancelling, or if all that was sent was yielded,
  nothing of it an error, and the task did not die. -/
  ends : Polled.atEnd ∈ log.told → (∀ e, .error e ∉ log.yielded) → log.cancelled = true ∨
    log.yielded = log.sent ∧ (∀ e, .error e ∉ log.sent) ∧ log.feed.task ≠ .panicked
  /-- If the task has died, none of its senders is left and it sent no error, then enough polls
  yield all that was sent and then that the task died, once. -/
  dies : log.feed.task = .panicked → log.feed.isOpen = false → log.cancelled = false →
    (∀ e, .error e ∉ log.sent) → ∀ events, .cancel ∉ events →
      log.sent.length < events.countP Event.isPoll →
        (log.after events).yielded = log.sent ++ [.error .taskFailed]

theorem Phase.yields (h : log.Phase) : ∃ (paths : List Path) (failure : Option FsError),
    log.yielded = paths.map .ok ++ failure.toList.map .error ∧ paths.map .ok <+: log.sent ∧
      ∀ e, failure = some e → paths.map .ok ++ [.error e] <+: log.sent ∨
        e = .taskFailed ∧ log.feed.task = .panicked ∧ log.sent = paths.map .ok := by
  cases h with
  | reading paths _ _ _ hyielded hsent =>
    refine ⟨paths, none, ?_, ⟨log.feed.queue, hsent.symm⟩, fun e he => by cases he⟩
    rw [hyielded]
    exact (List.append_nil _).symm
  | failed paths e _ hyielded hsent =>
    refine ⟨paths, some e, hyielded, (List.prefix_append ..).trans hsent, fun e' he => ?_⟩
    cases he
    exact .inl hsent
  | died paths _ _ htask hyielded hsent =>
    refine ⟨paths, some .taskFailed, hyielded, hsent ▸ List.prefix_refl _, fun e he => ?_⟩
    cases he
    exact .inr ⟨rfl, htask, hsent⟩
  | finished paths _ _ _ _ hyielded hsent =>
    refine ⟨paths, none, ?_, hsent ▸ List.prefix_refl _, fun e he => by cases he⟩
    rw [hyielded]
    exact (List.append_nil _).symm
  | cancelled paths _ _ _ hyielded hsent =>
    refine ⟨paths, none, ?_, hsent, fun e he => by cases he⟩
    rw [hyielded]
    exact (List.append_nil _).symm

theorem Phase.ends (h : log.Phase) (htold : Polled.atEnd ∈ log.told)
    (herror : ∀ e, .error e ∉ log.yielded) : log.cancelled = true ∨
      log.yielded = log.sent ∧ (∀ e, .error e ∉ log.sent) ∧ log.feed.task ≠ .panicked := by
  cases h with
  | reading _ _ _ hsilent => exact absurd htold hsilent
  | failed paths e _ hyielded =>
    refine absurd ?_ (herror e)
    rw [hyielded]
    exact List.mem_append_right _ List.mem_cons_self
  | died paths _ _ _ hyielded =>
    refine absurd ?_ (herror .taskFailed)
    rw [hyielded]
    exact List.mem_append_right _ List.mem_cons_self
  | finished paths _ _ _ hpanicked hyielded hsent =>
    refine .inr ⟨hyielded.trans hsent.symm, fun e => ?_, hpanicked⟩
    rw [hsent]
    exact error_not_mem paths e
  | cancelled _ _ _ hcancelled => exact .inl hcancelled

/-- A feed that has ended, whose task died without an error of its own and whose reader did not
cancel it, has yielded all that was sent and that the task died. -/
theorem Phase.yielded_of_panicked (h : log.Phase) (hended : log.feed.ended = true)
    (htask : log.feed.task = .panicked) (hkept : log.cancelled = false)
    (herror : ∀ e, .error e ∉ log.sent) : log.yielded = log.sent ++ [.error .taskFailed] := by
  cases h with
  | reading _ hreading => exact absurd (hreading.symm.trans hended) Bool.false_ne_true
  | failed paths e _ _ hsent =>
    exact absurd (hsent.subset (List.mem_append_right _ List.mem_cons_self)) (herror e)
  | died paths _ _ _ hyielded hsent => rw [hyielded, hsent]
  | finished _ _ _ _ hpanicked => exact absurd htask hpanicked
  | cancelled _ _ _ hcancelled => exact absurd (hkept.symm.trans hcancelled) Bool.false_ne_true

theorem Phase.queue_length_le (h : log.Phase) (hended : log.feed.ended = false) :
    log.feed.queue.length ≤ log.sent.length := by
  cases h with
  | reading _ _ _ _ _ hsent =>
    rw [hsent, List.length_append]
    omega
  | failed _ _ hover | died _ hover | finished _ hover | cancelled _ hover =>
    exact absurd (hended.symm.trans hover) Bool.false_ne_true

theorem Phase.dies (h : log.Phase) (htask : log.feed.task = .panicked)
    (hclosed : log.feed.isOpen = false) (hkept : log.cancelled = false)
    (herror : ∀ e, .error e ∉ log.sent) {events : List Event} (hcancel : .cancel ∉ events)
    (hpolls : log.sent.length < events.countP Event.isPoll) :
    (log.after events).yielded = log.sent ++ [.error .taskFailed] := by
  have hrunning : log.feed.task ≠ .running := by
    rw [htask]
    exact TaskState.noConfusion
  have hdrains := drains_after hclosed hrunning hcancel
  have hended : (log.after events).feed.ended = true := by
    cases hreading : log.feed.ended with
    | true => exact ended_after hreading events
    | false =>
      have hqueue := h.queue_length_le hreading
      refine hdrains.progress.resolve_right ?_
      omega
  have hyielded := (h.after events).yielded_of_panicked hended (hdrains.task.trans htask)
    (hdrains.kept.trans hkept) (hdrains.sent ▸ herror)
  rw [hyielded, hdrains.sent]

theorem Phase.proper (h : log.Phase) : log.Proper where
  yields := h.yields
  settled hover events := told_after_of_ended (h.ended_of_isOver hover) events
  ends := h.ends
  dies htask hclosed hkept herror _ := h.dies htask hclosed hkept herror

end Log

/-- **Whatever happens to a feed in whatever order, it keeps to the protocol.** -/
theorem proper_after (events : List Event) : (Log.start.after events).Proper :=
  (Log.phase_start.after events).proper

/-- The task dies while a path is unread, and the last sender goes after that. -/
example (p : Path) (e : FsError) :
    (Log.start.after [.send (.ok p), .settle .panicked, .close, .poll, .poll, .poll]).yielded =
      [.ok p, .error .taskFailed] ∧
    (Log.start.after [.send (.ok p), .send (.error e), .poll, .poll, .send (.ok p), .poll]).told =
      [.item (.ok p), .item (.error e), .atEnd] :=
  ⟨rfl, rfl⟩

/-! ## The feed of a search that has run to its end -/

/-- What a search that has run to its end has done to its feed. -/
def eventsOf (r : Report) : List Event :=
  (r.found.map fun p => .send (.ok p)) ++
    match r.failure with
    | none => [.close, .settle .finished]
    | some (.error e) => [.send (.error e), .close, .settle .finished]
    | some .crash | some .tooDeep => [.close, .settle .panicked]

theorem after_sends (log : Log) (found : List Path) :
    (log.after (found.map fun p => .send (.ok p))).feed =
      found.foldl (fun f p => f.send (.ok p)) log.feed := by
  induction found generalizing log with
  | nil => rfl
  | cons p found ih => exact ih (log.step (.send (.ok p)))

/-- The feed of a report is one to which just that has happened. -/
theorem after_eventsOf (r : Report) : (Log.start.after (eventsOf r)).feed = ofReport r := by
  have hsends := after_sends Log.start r.found
  unfold eventsOf ofReport Log.after at *
  rw [List.foldl_append]
  cases r.failure with
  | none => exact congrArg (fun f => f.close.settle .finished) hsends
  | some why =>
    cases why with
    | error e => exact congrArg (fun f => (f.send (.error e)).close.settle .finished) hsends
    | crash | tooDeep => exact congrArg (fun f => f.close.settle .panicked) hsends

end Feed

end TreeGlob
