import CacheLab.System.Base

/-!
# The job queue along a run

A queued job stays queued, behind the jobs that came before it, until a worker takes it or the last step of `close`
drains the queue (`QueueMove`). A worker that took a job handles it in its next step. So a job that was accepted is
pending until it is handled or the cache is closed: `System.Pending.step` is the step lemma, and `pending_or_handled`
the run rule for what the handler of the job brings about.

Puts come from calls, from preload jobs and from the leaders of flights. `puts` counts those that are still to come;
a step makes no new ones.

Flush jobs are lost where enqueuing raises `ValueError` (`enqueueRaises`), and nowhere else.
-/

set_option linter.unusedSectionVars false

namespace CacheLab

variable {α V T : Type} [DecidableEq α] [LinearOrder T] [Zero T] [Add T] [Sub T]

variable {cfg : AcceptedConfig T} {hash : Key α → ℕ}

/-! ### The puts to come -/

/-- How many puts a call makes, or asks a worker to make. -/
def Op.puts : Op α V T → ℕ
  | put _ _ _ => 1
  | getOrCompute _ _ => 1
  | preload _ _ => 1
  | _ => 0

/-- How many puts a job makes. -/
def Job.puts : Job α V T → ℕ
  | preloadKey _ _ _ => 1
  | _ => 0

/-- How many puts the thread is still going to make, or to ask for. -/
def Thread.puts : Thread α V T → ℕ
  | .entering op _ => op.puts
  | .running op _ => op.puts
  | .leading _ _ _ => 1
  | .loading _ _ _ => 1
  | .handling job => job.puts
  | _ => 0

/-- How many puts the queued jobs make. -/
def CacheJobQueue.puts (q : CacheJobQueue α V T) : ℕ := (q.items.map Job.puts).sum

/-! ### The queue in one step -/

/-- What a step of a thread can do to the queued jobs; puts only come from puts that were to come. -/
inductive QueueMove (s s' : Shared α V cfg) (th th' : Thread α V T) : Prop
  | grows (new : List (Job α V T)) (h : s'.queue.items = s.queue.items ++ new)
      (hputs : (new.map Job.puts).sum + th'.puts ≤ th.puts)
  | takes (job : Job α V T) (hth : th = .idle) (hth' : th' = .handling job)
      (h : s.queue.items = job :: s'.queue.items)
  | drains (h : s'.lifecycle = .closed)

section Moves

variable {s s' s₁ : Shared α V cfg} {c : Choice α V} {th th' : Thread α V T}

/-- A step that leaves the queue alone. -/
theorem QueueMove.of_eq (h : s'.queue.items = s.queue.items) (hputs : th'.puts ≤ th.puts) : QueueMove s s' th th' :=
  .grows [] (by rw [h, List.append_nil]) (by simpa using hputs)

/-- A job is appended or dropped. -/
theorem QueueMove.of_putNowait {job : Job α V T}
    (h : s'.queue.items = (s.queue.putNowait cfg.queueSize job).items) (hputs : job.puts + th'.puts ≤ th.puts) :
    QueueMove s s' th th' := by
  unfold CacheJobQueue.putNowait at h
  split_ifs at h
  · exact .of_eq h ((Nat.le_add_left _ _).trans hputs)
  · exact .grows [job] h (by simpa using hputs)

/-- A flush job is appended. -/
theorem QueueMove.of_push {t : Ticket α V} (h : s'.queue.items = (s.queue.push (.flushWriteBack t)).items)
    (hputs : th'.puts = 0) : QueueMove s s' th th' := by
  refine .grows [.flushWriteBack t] h ?_
  rw [hputs]
  exact Nat.zero_le _

/-- The stop messages come last, and no put comes from them. -/
theorem CacheJobQueue.items_offers (n : ℕ) (l : List Unit) (q : CacheJobQueue α V T) :
    ∃ new : List (Job α V T), (l.foldl (fun q _ => q.offer n .stopWorker) q).items = q.items ++ new ∧
      (new.map Job.puts).sum = 0 := by
  induction l generalizing q with
  | nil => exact ⟨[], (List.append_nil _).symm, rfl⟩
  | cons u l ih =>
      obtain ⟨new, hnew, hputs⟩ := ih (q.offer n .stopWorker)
      have hoffer : (q.offer n .stopWorker).items = q.items ∨
          (q.offer n .stopWorker).items = q.items ++ [Job.stopWorker] := by
        unfold CacheJobQueue.offer
        split_ifs
        · exact .inl rfl
        · exact .inr rfl
      rcases hoffer with heq | heq
      · exact ⟨new, by rw [List.foldl_cons, hnew, heq], hputs⟩
      · refine ⟨.stopWorker :: new, by rw [List.foldl_cons, hnew, heq, List.append_assoc]; rfl, ?_⟩
        simpa [Job.puts] using hputs

/-- A caller that is told that its put is over makes no further put. -/
theorem Caller.puts_raised (caller : Caller α V T) (exn : Exn) : (caller.raised exn : Thread α V T).puts = 0 := by
  cases caller with
  | client result => rfl
  | preloader => rfl
  | leader key flight value => cases exn <;> rfl

/-- See `Caller.puts_raised`. -/
theorem Caller.puts_returned (caller : Caller α V T) : (caller.returned : Thread α V T).puts = 0 := by
  cases caller <;> rfl

/-- Counting leaves the queue alone. -/
theorem Caller.queue_of_count (caller : Caller α V T) (s : Shared α V cfg) (completed : Bool) :
    (caller.count s completed).queue = s.queue := by
  cases caller <;> rfl

/-- Starting to enqueue leaves the queue alone. -/
theorem queue_enqueueOr {ts : List (Ticket α V)} {caller : Caller α V T} (h : enqueueOr s ts caller = (s', th')) :
    s'.queue = s.queue ∧ th'.puts = 0 := by
  cases ts with
  | nil =>
      cases h
      exact ⟨caller.queue_of_count s true, caller.puts_returned⟩
  | cons t ts =>
      cases h
      exact ⟨rfl, rfl⟩

/-- Nothing is to come. -/
theorem puts_le_of_eq_zero (h : th'.puts = 0) : th'.puts ≤ th.puts := h ▸ Nat.zero_le _

/-- A section on a shard leaves the queue alone. -/
theorem queue_onShard {i : ℕ} {f : CacheShard α V T → CacheShard α V T} (h : s.onShard i f = some s') :
    s'.queue = s.queue := by
  obtain ⟨hi, rfl⟩ := Shared.onShard_eq_some.mp h
  rfl

/-- A step inside a public operation. -/
theorem clientStep_queue (h : clientStep hash s c th = some (s', th')) : QueueMove s s' th th' := by
  cases th with
  | entering op caller =>
      rcases entering_cases h with ⟨rfl, ⟨exn, rfl⟩, -⟩ | ⟨rfl, rfl, -⟩ | ⟨rfl, rfl, -⟩ | ⟨rfl, -, -, flush, -, rfl⟩
      · exact .of_eq (by rw [caller.queue_of_count]) (puts_le_of_eq_zero (caller.puts_raised exn))
      · exact .of_eq rfl le_rfl
      · exact .of_eq rfl (Nat.zero_le _)
      · refine .of_eq rfl (puts_le_of_eq_zero ?_)
        split_ifs <;> rfl
  | running op caller =>
      cases op with
      | put key value ttl =>
          simp only [clientStep] at h
          split_ifs at h
          · cases h
            exact .of_eq (by rw [caller.queue_of_count]; rfl) (puts_le_of_eq_zero (caller.puts_raised _))
          · obtain ⟨hqueue, hputs⟩ := queue_enqueueOr (Option.some.inj h)
            exact .of_eq (by rw [hqueue]; rfl) (puts_le_of_eq_zero hputs)
      | delete key =>
          simp only [clientStep] at h
          split_ifs at h
          · cases h
            exact .of_eq rfl (Nat.zero_le _)
          · obtain ⟨hqueue, hputs⟩ := queue_enqueueOr (Option.some.inj h)
            exact .of_eq (by rw [hqueue]; rfl) (puts_le_of_eq_zero hputs)
      | getOrCompute key ttl =>
          simp only [clientStep] at h
          split at h <;> cases h
          · exact .of_eq rfl (Nat.zero_le _)
          · exact .of_eq rfl (Nat.zero_le _)
          · exact .of_eq rfl le_rfl
      | preload key ttl =>
          cases h
          exact .of_putNowait rfl le_rfl
      | requestSnapshot id =>
          cases h
          exact .of_putNowait rfl le_rfl
      | close flush => cases h
      | _ =>
          cases h
          exact .of_eq rfl (Nat.zero_le _)
  | clearing i ts =>
      simp only [clientStep] at h
      split_ifs at h
      · cases h
        exact .of_eq rfl (Nat.zero_le _)
      · cases h
        exact .of_eq rfl (Nat.zero_le _)
      · obtain ⟨hqueue, hputs⟩ := queue_enqueueOr (Option.some.inj h)
        exact .of_eq (by rw [hqueue]) (puts_le_of_eq_zero hputs)
  | sizing i total =>
      simp only [clientStep] at h
      split_ifs at h <;> cases h <;> exact .of_eq rfl (Nat.zero_le _)
  | dumping i taken limit =>
      simp only [clientStep] at h
      split_ifs at h <;> cases h <;> exact .of_eq rfl (Nat.zero_le _)
  | expiring i removed =>
      simp only [clientStep] at h
      split_ifs at h <;> cases h <;> exact .of_eq rfl (Nat.zero_le _)
  | enqueuing ts caller =>
      cases ts with
      | nil =>
          cases h
          exact .of_eq (by rw [caller.queue_of_count]) (puts_le_of_eq_zero caller.puts_returned)
      | cons t ts =>
          simp only [clientStep] at h
          split_ifs at h
          · cases h
            refine .of_eq ?_ (puts_le_of_eq_zero (caller.puts_raised _))
            rw [caller.queue_of_count, Shared.items_lose]
          · cases h
            exact .of_eq rfl (Nat.zero_le _)
          · obtain ⟨hqueue, hputs⟩ := queue_enqueueOr (Option.some.inj h)
            exact .of_push (by rw [hqueue]) hputs
  | releasing ts caller =>
      cases ts with
      | nil =>
          cases h
          exact .of_eq (by rw [caller.queue_of_count]) (puts_le_of_eq_zero (caller.puts_raised _))
      | cons t ts =>
          obtain ⟨s₁, hs₁, heq⟩ := Option.map_eq_some_iff.mp h
          cases heq
          exact .of_eq (by rw [queue_onShard hs₁]) (Nat.zero_le _)
  | leading key ttl flight =>
      cases h
      exact .of_eq rfl le_rfl
  | loading key ttl flight =>
      simp only [clientStep] at h
      split at h <;> cases h
      · exact .of_eq rfl (Nat.zero_le _)
      · exact .of_eq rfl le_rfl
  | publishing key flight value =>
      cases h
      exact .of_eq rfl (Nat.zero_le _)
  | failing key flight exn =>
      cases h
      exact .of_eq rfl (Nat.zero_le _)
  | waiting flight =>
      simp only [clientStep] at h
      split at h
      · cases h
      · split_ifs at h
        cases h
        exact .of_eq rfl (Nat.zero_le _)
  | _ => cases h

/-- A step of a worker. -/
theorem workerStep_queue (h : workerStep s c th = some (s', th')) : QueueMove s s' th th' := by
  cases th with
  | idle =>
      simp only [workerStep] at h
      split at h
      · next job rest hitems =>
          cases h
          exact .takes job rfl rfl hitems
      · split_ifs at h
        cases h
        exact .of_eq rfl (Nat.zero_le _)
  | handling job =>
      cases job with
      | expireShard i =>
          obtain ⟨s₁, hs₁, heq⟩ := Option.map_eq_some_iff.mp h
          cases heq
          have hqueue := congrArg CacheJobQueue.items (queue_onShard hs₁)
          exact .of_eq hqueue (Nat.zero_le _)
      | flushWriteBack t =>
          simp only [workerStep] at h
          split_ifs at h <;> cases h <;> exact .of_eq rfl (Nat.zero_le _)
      | preloadKey i key ttl =>
          simp only [workerStep] at h
          split at h <;> cases h
          · exact .of_eq rfl (Nat.zero_le _)
          · exact .of_eq rfl le_rfl
      | snapshotStats id =>
          cases h
          exact .of_eq rfl (Nat.zero_le _)
      | stopWorker =>
          cases h
          exact .of_eq rfl (Nat.zero_le _)
  | checked t =>
      simp only [workerStep] at h
      split_ifs at h <;> cases h <;> exact .of_eq rfl (Nat.zero_le _)
  | failed t =>
      simp only [workerStep] at h
      split_ifs at h
      · cases h
        exact .of_eq (s.items_lose [t.retry]) (Nat.zero_le _)
      · cases h
        exact .of_eq rfl (Nat.zero_le _)
      · cases h
        exact .of_push rfl rfl
      · cases h
        exact .of_eq rfl (Nat.zero_le _)
  | dropped t =>
      obtain ⟨s₁, hs₁, heq⟩ := Option.map_eq_some_iff.mp h
      cases heq
      have hqueue := congrArg CacheJobQueue.items (queue_onShard hs₁)
      exact .of_eq hqueue (Nat.zero_le _)
  | landed t =>
      obtain ⟨s₁, hs₁, heq⟩ := Option.map_eq_some_iff.mp h
      cases heq
      have hqueue := congrArg CacheJobQueue.items (queue_onShard hs₁)
      exact .of_eq hqueue (Nat.zero_le _)
  | finishing =>
      cases h
      exact .of_eq rfl (Nat.zero_le _)
  | _ => cases h

/-- `close` makes no put. -/
theorem puts_closeNext (i : ℕ) : (closeNext cfg i : Thread α V T).puts = 0 := by
  unfold closeNext
  split_ifs <;> rfl

/-- A step of `close`. -/
theorem closeStep_queue (h : closeStep s c th = some (s', th')) : QueueMove s s' th th' := by
  cases th with
  | closeCollect i =>
      simp only [closeStep] at h
      split_ifs at h
      cases h
      exact .of_eq rfl (Nat.zero_le _)
  | closeEnqueue i ts =>
      cases ts with
      | nil =>
          cases h
          exact .of_eq rfl (puts_le_of_eq_zero (puts_closeNext i))
      | cons t ts =>
          simp only [closeStep] at h
          split_ifs at h
          · cases h
            exact .of_eq (s.items_lose (t :: ts)) (Nat.zero_le _)
          · cases h
            exact .of_eq rfl (Nat.zero_le _)
          · cases h
            exact .of_push rfl rfl
  | closeRelease i ts =>
      cases ts with
      | nil =>
          cases h
          exact .of_eq rfl (puts_le_of_eq_zero (puts_closeNext i))
      | cons t ts =>
          obtain ⟨s₁, hs₁, heq⟩ := Option.map_eq_some_iff.mp h
          cases heq
          exact .of_eq (congrArg CacheJobQueue.items (queue_onShard hs₁)) (Nat.zero_le _)
  | closeJoin =>
      simp only [closeStep] at h
      split_ifs at h <;> cases h <;> exact .of_eq rfl (Nat.zero_le _)
  | syncCollect i failed =>
      simp only [closeStep] at h
      split_ifs at h <;> cases h <;> exact .of_eq rfl (Nat.zero_le _)
  | syncNext i ts failed =>
      cases ts with
      | nil =>
          cases h
          exact .of_eq rfl (Nat.zero_le _)
      | cons t ts =>
          simp only [closeStep] at h
          split_ifs at h <;> cases h <;> exact .of_eq rfl (Nat.zero_le _)
  | syncTry i t left ts failed =>
      simp only [closeStep] at h
      split_ifs at h
      · cases h
        refine .of_eq rfl (puts_le_of_eq_zero ?_)
        split <;> rfl
      · cases left <;> cases h <;> exact .of_eq rfl (Nat.zero_le _)
  | syncClean i t ts failed =>
      obtain ⟨s₁, hs₁, heq⟩ := Option.map_eq_some_iff.mp h
      cases heq
      exact .of_eq (congrArg CacheJobQueue.items (queue_onShard hs₁)) (Nat.zero_le _)
  | syncSettle i t success ts failed =>
      obtain ⟨s₁, hs₁, heq⟩ := Option.map_eq_some_iff.mp h
      have hqueue := congrArg CacheJobQueue.items (queue_onShard hs₁)
      cases success <;> cases heq <;> exact .of_eq hqueue (Nat.zero_le _)
  | closeStop failed =>
      simp only [closeStep] at h
      split_ifs at h
      · cases h
        obtain ⟨new, hnew, hputs⟩ := CacheJobQueue.items_offers cfg.queueSize (List.replicate cfg.workerCount ()) s.queue
        exact .grows new hnew (by rw [hputs]; exact Nat.zero_le _)
      · cases h
        exact .of_eq rfl (Nat.zero_le _)
  | closeDrain failed =>
      cases h
      exact .drains rfl
  | _ => cases h

/-- **What a step of a thread does to the queued jobs.** -/
theorem threadStep_queue (h : threadStep hash s c th = some (s', th')) : QueueMove s s' th th' := by
  rcases threadStep_cases h with h | h | h
  · exact clientStep_queue h
  · exact workerStep_queue h
  · exact closeStep_queue h

/-- The section of a put leaves the queue alone, and no other put follows. -/
theorem queue_put {key : Key α} {value : V} {ttl : Ttl T} {caller : Caller α V T}
    (h : threadStep hash s c (.running (.put key value ttl) caller) = some (s', th')) :
    s'.queue = s.queue ∧ th'.puts = 0 := by
  have hclient : clientStep hash s c (.running (.put key value ttl) caller) = some (s', th') := by
    rcases threadStep_cases h with h | h | h
    · exact h
    · cases h
    · cases h
  simp only [clientStep] at hclient
  split_ifs at hclient
  · cases hclient
    exact ⟨caller.queue_of_count _ false, caller.puts_raised _⟩
  · obtain ⟨hqueue, hputs⟩ := queue_enqueueOr (Option.some.inj hclient)
    exact ⟨hqueue, hputs⟩

end Moves

/-! ### Lost jobs -/

/-- Enqueuing a flush job raises `ValueError` in the step of the thread. -/
def Thread.enqueueRaises (s : Shared α V cfg) (c : Choice α V) : Thread α V T → Bool
  | .enqueuing (t :: _) _ => s.rejects c t
  | .closeEnqueue _ (t :: _) => s.rejects c t
  | .failed t => decide (0 < t.job.retriesLeft) && s.rejects c t.retry
  | _ => false

/-- Enqueuing a flush job raises `ValueError` in the step. -/
def enqueueRaises (s : System α V cfg) : Label α V T → Bool
  | .run i c => s.threads[i]?.any fun th => th.enqueueRaises s.shared c
  | _ => false

/-- The thread is in `close`, and enqueuing its next job raises `ValueError`. -/
def Thread.breaksOff (s : Shared α V cfg) (c : Choice α V) : Thread α V T → Bool
  | .closeEnqueue _ (t :: _) => s.rejects c t
  | _ => false

/-- Enqueuing a job of `close` raises `ValueError` in the step, and `close` ends. -/
def breaksOff (s : System α V cfg) : Label α V T → Bool
  | .run i c => s.threads[i]?.any fun th => th.breaksOff s.shared c
  | _ => false

section Lost

variable {s s' : Shared α V cfg} {c : Choice α V} {th th' : Thread α V T}

/-- A section on a shard loses no job. -/
theorem lost_onShard {i : ℕ} {f : CacheShard α V T → CacheShard α V T} (h : s.onShard i f = some s') :
    s'.queue.lost = s.queue.lost := by
  rw [queue_onShard h]

/-- Offers lose no job. -/
theorem CacheJobQueue.lost_offers (n : ℕ) (l : List Unit) (q : CacheJobQueue α V T) :
    (l.foldl (fun q _ => q.offer n .stopWorker) q).lost = q.lost := by
  induction l generalizing q with
  | nil => rfl
  | cons u l ih =>
      rw [List.foldl_cons, ih]
      unfold CacheJobQueue.offer
      split_ifs <;> rfl

/-- A best-effort put loses no job. -/
theorem CacheJobQueue.lost_putNowait (n : ℕ) (q : CacheJobQueue α V T) (job : Job α V T) :
    (q.putNowait n job).lost = q.lost := by
  unfold CacheJobQueue.putNowait
  split_ifs <;> rfl

/-- An operation loses jobs only where enqueuing raises. -/
theorem clientStep_lost (h : clientStep hash s c th = some (s', th')) (hno : th.enqueueRaises s c = false) :
    s'.queue.lost = s.queue.lost := by
  cases th with
  | entering op caller =>
      rcases entering_cases h with ⟨rfl, -⟩ | ⟨rfl, -⟩ | ⟨rfl, -⟩ | ⟨rfl, -⟩
      · rw [caller.queue_of_count]
      · rfl
      · rfl
      · rfl
  | running op caller =>
      cases op with
      | put key value ttl =>
          have hstep : threadStep hash s c (.running (.put key value ttl) caller) = some (s', th') := by
            rw [threadStep, h]
            rfl
          rw [(queue_put hstep).1]
      | delete key =>
          simp only [clientStep] at h
          split_ifs at h
          · cases h
            rfl
          · rw [(queue_enqueueOr (Option.some.inj h)).1]
            rfl
      | getOrCompute key ttl =>
          simp only [clientStep] at h
          split at h <;> cases h <;> rfl
      | preload key ttl =>
          cases h
          exact CacheJobQueue.lost_putNowait _ _ _
      | requestSnapshot id =>
          cases h
          exact CacheJobQueue.lost_putNowait _ _ _
      | _ => cases h <;> rfl
  | clearing i ts =>
      simp only [clientStep] at h
      split_ifs at h
      · cases h
        rfl
      · cases h
        rfl
      · rw [(queue_enqueueOr (Option.some.inj h)).1]
  | enqueuing ts caller =>
      cases ts with
      | nil =>
          cases h
          rw [caller.queue_of_count]
      | cons t ts =>
          simp only [clientStep, show s.rejects c t = false from hno, Bool.false_eq_true, if_false] at h
          split_ifs at h
          · cases h
            rfl
          · rw [(queue_enqueueOr (Option.some.inj h)).1]
            rfl
  | releasing ts caller =>
      cases ts with
      | nil =>
          cases h
          rw [caller.queue_of_count]
      | cons t ts =>
          obtain ⟨s₁, hs₁, heq⟩ := Option.map_eq_some_iff.mp h
          cases heq
          exact lost_onShard hs₁
  | loading key ttl flight =>
      simp only [clientStep] at h
      split at h <;> cases h <;> rfl
  | waiting flight =>
      simp only [clientStep] at h
      split at h
      · cases h
      · split_ifs at h
        cases h
        rfl
  | sizing i total => simp only [clientStep] at h; split_ifs at h <;> cases h <;> rfl
  | dumping i taken limit => simp only [clientStep] at h; split_ifs at h <;> cases h <;> rfl
  | expiring i removed => simp only [clientStep] at h; split_ifs at h <;> cases h <;> rfl
  | _ => cases h <;> rfl

/-- A worker loses jobs only where enqueuing raises. -/
theorem workerStep_lost (h : workerStep s c th = some (s', th')) (hno : th.enqueueRaises s c = false) :
    s'.queue.lost = s.queue.lost := by
  cases th with
  | idle =>
      simp only [workerStep] at h
      split at h
      · cases h
        rfl
      · split_ifs at h
        cases h
        rfl
  | handling job =>
      cases job with
      | expireShard i =>
          obtain ⟨s₁, hs₁, heq⟩ := Option.map_eq_some_iff.mp h
          cases heq
          exact (lost_onShard hs₁ :)
      | flushWriteBack t =>
          simp only [workerStep] at h
          split_ifs at h <;> cases h <;> rfl
      | preloadKey i key ttl =>
          simp only [workerStep] at h
          split at h <;> cases h <;> rfl
      | _ => cases h; rfl
  | checked t =>
      simp only [workerStep] at h
      split_ifs at h <;> cases h <;> rfl
  | failed t =>
      by_cases hleft : 0 < t.job.retriesLeft
      · have hrej : s.rejects c t.retry = false := by simpa [Thread.enqueueRaises, hleft] using hno
        simp only [workerStep, hleft, hrej, if_true, Bool.false_eq_true, if_false] at h
        split_ifs at h <;> cases h <;> rfl
      · simp only [workerStep, hleft, if_false] at h
        cases h
        rfl
  | dropped t =>
      obtain ⟨s₁, hs₁, heq⟩ := Option.map_eq_some_iff.mp h
      cases heq
      exact (lost_onShard hs₁ :)
  | landed t =>
      obtain ⟨s₁, hs₁, heq⟩ := Option.map_eq_some_iff.mp h
      cases heq
      exact (lost_onShard hs₁ :)
  | _ => cases h <;> rfl

/-- `close` loses jobs only where enqueuing raises. -/
theorem closeStep_lost (h : closeStep s c th = some (s', th')) (hno : th.enqueueRaises s c = false) :
    s'.queue.lost = s.queue.lost := by
  cases th with
  | closeCollect i =>
      simp only [closeStep] at h
      split_ifs at h
      cases h
      rfl
  | closeEnqueue i ts =>
      cases ts with
      | nil => cases h; rfl
      | cons t ts =>
          simp only [closeStep, show s.rejects c t = false from hno, Bool.false_eq_true, if_false] at h
          split_ifs at h <;> cases h <;> rfl
  | closeRelease i ts =>
      cases ts with
      | nil => cases h; rfl
      | cons t ts =>
          obtain ⟨s₁, hs₁, heq⟩ := Option.map_eq_some_iff.mp h
          cases heq
          exact lost_onShard hs₁
  | closeJoin =>
      simp only [closeStep] at h
      split_ifs at h <;> cases h <;> rfl
  | syncCollect i failed =>
      simp only [closeStep] at h
      split_ifs at h <;> cases h <;> rfl
  | syncNext i ts failed =>
      cases ts with
      | nil => cases h; rfl
      | cons t ts =>
          simp only [closeStep] at h
          split_ifs at h <;> cases h <;> rfl
  | syncTry i t left ts failed =>
      simp only [closeStep] at h
      split_ifs at h
      · cases h
        rfl
      · cases left <;> cases h <;> rfl
  | syncClean i t ts failed =>
      obtain ⟨s₁, hs₁, heq⟩ := Option.map_eq_some_iff.mp h
      cases heq
      exact lost_onShard hs₁
  | syncSettle i t success ts failed =>
      obtain ⟨s₁, hs₁, heq⟩ := Option.map_eq_some_iff.mp h
      cases success <;> cases heq <;> exact (lost_onShard hs₁ :)
  | closeStop failed =>
      simp only [closeStep] at h
      split_ifs at h <;> cases h
      · exact CacheJobQueue.lost_offers _ _ _
      · rfl
  | closeDrain failed => cases h; rfl
  | _ => cases h

/-- **A flush job is lost only where enqueuing raises.** -/
theorem threadStep_lost (h : threadStep hash s c th = some (s', th')) (hno : th.enqueueRaises s c = false) :
    s'.queue.lost = s.queue.lost := by
  rcases threadStep_cases h with h | h | h
  · exact clientStep_lost h hno
  · exact workerStep_lost h hno
  · exact closeStep_lost h hno

end Lost

/-- **Where no enqueue raises, no flush job is lost.** -/
theorem step_lost {s s' : System α V cfg} {l : Label α V T} (hno : enqueueRaises s l = false)
    (h : step cfg hash s l = some s') : s'.shared.queue.lost = s.shared.queue.lost := by
  cases l with
  | tick now =>
      simp only [step] at h
      split_ifs at h
      cases h
      rfl
  | start =>
      simp only [step] at h
      split at h <;> cases h <;> rfl
  | call op =>
      cases h
      rfl
  | schedule i =>
      simp only [step] at h
      split_ifs at h
      cases h
      exact CacheJobQueue.lost_putNowait _ _ _
  | run i c =>
      simp only [step, Option.bind_eq_some_iff, Option.map_eq_some_iff] at h
      obtain ⟨th, hi, ⟨sh, th'⟩, hr, rfl⟩ := h
      exact threadStep_lost hr (by simpa [enqueueRaises, hi] using hno)

/-- With an unbounded queue no enqueue raises. -/
theorem enqueueRaises_of_unbounded (hsize : cfg.queueSize = 0) (s : System α V cfg) (l : Label α V T) :
    enqueueRaises s l = false := by
  cases l with
  | run i c =>
      refine (Option.any_eq_false _ _).mpr fun th hi => ?_
      unfold Thread.enqueueRaises
      split <;> simp [Shared.rejects_of_unbounded hsize]
  | _ => rfl

/-- In a run along which no enqueue raises no flush job is lost. -/
theorem lost_exec {now : T} {src : Source α V} {ls : List (Label α V T)} {s : System α V cfg}
    (hno : Transition.Along (step cfg hash) (fun s l => enqueueRaises s l = false) (initial cfg now src) ls)
    (h : exec cfg hash (initial cfg now src) ls = some s) : s.shared.queue.lost = [] := by
  have hstep : ∀ (s : System α V cfg) l s', enqueueRaises s l = false → step cfg hash s l = some s' →
      s.shared.queue.lost = [] → s'.shared.queue.lost = [] :=
    fun s l s' hno hs hlost => (step_lost hno hs).trans hlost
  exact Transition.run_invariant hstep h hno rfl

/-- With an unbounded queue no `close` ends that way. -/
theorem breaksOff_of_unbounded (hsize : cfg.queueSize = 0) (s : System α V cfg) (l : Label α V T) :
    breaksOff s l = false := by
  cases l with
  | run i c =>
      refine (Option.any_eq_false _ _).mpr fun th hi => ?_
      unfold Thread.breaksOff
      split <;> simp [Shared.rejects_of_unbounded hsize]
  | _ => rfl

/-- **A cache is abandoned only where enqueuing a job of `close` raised.** -/
theorem step_ne_abandoned {s s' : System α V cfg} {l : Label α V T} (hno : breaksOff s l = false)
    (h : step cfg hash s l = some s') (hlife : s.shared.lifecycle ≠ .abandoned) :
    s'.shared.lifecycle ≠ .abandoned := by
  cases l with
  | tick now =>
      simp only [step] at h
      split_ifs at h
      cases h
      exact hlife
  | start =>
      simp only [step] at h
      split at h <;> cases h
      · exact fun habandoned => by cases habandoned
      · exact hlife
  | call op =>
      cases h
      exact hlife
  | schedule i =>
      simp only [step] at h
      split_ifs at h
      cases h
      exact hlife
  | run i c =>
      simp only [step, Option.bind_eq_some_iff, Option.map_eq_some_iff] at h
      obtain ⟨th, hi, ⟨sh, th'⟩, hr, rfl⟩ := h
      intro habandoned
      rcases threadStep_phase hr with
        hphase | ⟨flush, caller, -, hphase⟩ | ⟨failed, -, hclosed⟩ | ⟨m, t, ts, rfl, hrej, -⟩
      · exact hlife ((congrArg Prod.fst hphase).symm.trans habandoned)
      · cases (congrArg Prod.fst hphase).symm.trans habandoned
      · cases hclosed.symm.trans habandoned
      · have hnot : s.shared.rejects c t = false := by
          simpa [breaksOff, hi, Thread.breaksOff] using hno
        rw [hnot] at hrej
        cases hrej

/-- In a run along which no `close` ends that way the cache is not abandoned. -/
theorem ne_abandoned_exec {now : T} {src : Source α V} {ls : List (Label α V T)} {s : System α V cfg}
    (hno : Transition.Along (step cfg hash) (fun s l => breaksOff s l = false) (initial cfg now src) ls)
    (h : exec cfg hash (initial cfg now src) ls = some s) : s.shared.lifecycle ≠ .abandoned := by
  have hstep : ∀ (s : System α V cfg) l s', breaksOff s l = false → step cfg hash s l = some s' →
      s.shared.lifecycle ≠ .abandoned → s'.shared.lifecycle ≠ .abandoned :=
    fun s l s' hno hs hlife => step_ne_abandoned hno hs hlife
  exact Transition.run_invariant hstep h hno fun habandoned => by cases habandoned

/-! ### Closed caches -/

/-- A closed cache stays closed. -/
theorem step_closed {s s' : System α V cfg} {l : Label α V T} (h : step cfg hash s l = some s')
    (hclosed : s.shared.lifecycle = .closed) : s'.shared.lifecycle = .closed := by
  cases l with
  | tick now =>
      simp only [step] at h
      split_ifs at h
      cases h
      exact hclosed
  | start =>
      simp only [step, hclosed] at h
      cases h
  | call op =>
      cases h
      exact hclosed
  | schedule i =>
      simp only [step] at h
      split_ifs at h
      cases h
      exact hclosed
  | run i c =>
      obtain ⟨th, -, hrun⟩ := Option.bind_eq_some_iff.mp h
      obtain ⟨r, hr, rfl⟩ := Option.map_eq_some_iff.mp hrun
      exact lifecycle_eq_closed hr hclosed

/-! ### Pending jobs -/

/-- The job is queued, or a worker has taken it and not begun. -/
def System.Pending (s : System α V cfg) (job : Job α V T) : Prop :=
  job ∈ s.shared.queue.items ∨ ∃ i : ℕ, s.threads[i]? = some (Thread.handling job)

/-- Other threads come in, and the queue loses nothing. -/
theorem System.Pending.grow {s s' : System α V cfg} {job : Job α V T} (h : s.Pending job)
    {new : List (Thread α V T)} (hthreads : s'.threads = s.threads ++ new)
    (hitems : s.shared.queue.items ⊆ s'.shared.queue.items) : s'.Pending job := by
  rcases h with hqueued | ⟨i, hi⟩
  · exact .inl (hitems hqueued)
  · refine .inr ⟨i, ?_⟩
    rw [hthreads, List.getElem?_append_left (List.getElem?_eq_some_iff.mp hi).1, hi]

/-- **A pending job stays pending** until it is handled or the cache is closed. -/
theorem System.Pending.step {s s' : System α V cfg} {l : Label α V T} {job : Job α V T} (h : s.Pending job)
    (hstep : CacheLab.step cfg hash s l = some s') :
    s'.Pending job ∨ s'.shared.lifecycle = .closed ∨
      ∃ c th', threadStep hash s.shared c (.handling job) = some (s'.shared, th') := by
  cases l with
  | tick now =>
      simp only [CacheLab.step] at hstep
      split_ifs at hstep
      cases hstep
      exact .inl h
  | start =>
      simp only [CacheLab.step] at hstep
      split at hstep <;> cases hstep
      · exact .inl (h.grow rfl (List.Subset.refl _))
      · exact .inl h
  | call op =>
      cases hstep
      exact .inl (h.grow rfl (List.Subset.refl _))
  | schedule i =>
      simp only [CacheLab.step] at hstep
      split_ifs at hstep
      cases hstep
      refine .inl (h.grow (List.append_nil _).symm ?_)
      unfold CacheJobQueue.putNowait
      split_ifs
      · exact List.Subset.refl _
      · exact List.subset_append_left _ _
  | run i c =>
      obtain ⟨th, hth, hrun⟩ := Option.bind_eq_some_iff.mp hstep
      obtain ⟨⟨u, th'⟩, hr, rfl⟩ := Option.map_eq_some_iff.mp hrun
      obtain ⟨hi, -⟩ := List.getElem?_eq_some_iff.mp hth
      rcases h with hqueued | ⟨j, hj⟩
      · rcases threadStep_queue hr with ⟨new, hitems, -⟩ | ⟨job', -, rfl, hitems⟩ | hclosed
        · exact .inl (.inl (hitems ▸ List.mem_append_left new hqueued))
        · rw [hitems, List.mem_cons] at hqueued
          rcases hqueued with rfl | hqueued
          · exact .inl (.inr ⟨i, List.getElem?_set_self hi⟩)
          · exact .inl (.inl hqueued)
        · exact .inr (.inl hclosed)
      · by_cases hij : i = j
        · subst hij
          obtain rfl : th = .handling job := Option.some.inj (hth.symm.trans hj)
          exact .inr (.inr ⟨c, th', hr⟩)
        · refine .inl (.inr ⟨j, ?_⟩)
          show (s.threads.set i th')[j]? = _
          rw [List.getElem?_set_ne hij, hj]

/-- **An accepted job is pending, its effect is there, or the cache was closed**, for every effect that the handler
of the job brings about and that lasts. -/
theorem pending_or_handled {s t : System α V cfg} {ls : List (Label α V T)} {job : Job α V T}
    (Inv Done : System α V cfg → Prop) (h : exec cfg hash s ls = some t) (hs : Inv s) (hpending : s.Pending job)
    (hinv : ∀ {u l u'}, Inv u → CacheLab.step cfg hash u l = some u' → Inv u')
    (hkeep : ∀ u l u', Inv u → CacheLab.step cfg hash u l = some u' → Done u → Done u')
    (hhandle : ∀ u u' c th', Inv u → threadStep hash u.shared c (.handling job) = some (u'.shared, th') → Done u') :
    Inv t ∧ (t.Pending job ∨ Done t ∨ t.shared.lifecycle = .closed) := by
  have hstep : ∀ (u : System α V cfg) l u', CacheLab.step cfg hash u l = some u' →
      Inv u ∧ (u.Pending job ∨ Done u ∨ u.shared.lifecycle = .closed) →
      Inv u' ∧ (u'.Pending job ∨ Done u' ∨ u'.shared.lifecycle = .closed) := by
    rintro u l u' hu ⟨hinvu, hwhere⟩
    refine ⟨hinv hinvu hu, ?_⟩
    rcases hwhere with hpending | hdone | hclosed
    · rcases hpending.step hu with hpending' | hclosed | ⟨c, th', hhandled⟩
      · exact .inl hpending'
      · exact .inr (.inr hclosed)
      · exact .inr (.inl (hhandle u u' c th' hinvu hhandled))
    · exact .inr (.inl (hkeep u l u' hinvu hu hdone))
    · exact .inr (.inr (step_closed hu hclosed))
  exact Transition.run_invariant_of_step hstep h ⟨hs, .inl hpending⟩

/-- Without unfinished tasks no job is pending. -/
theorem Base.not_pending {s : System α V cfg} (hb : Base hash s) (hdrained : s.shared.queue.unfinishedTasks = 0)
    (job : Job α V T) : ¬ s.Pending job := by
  have htally := hb.tally
  rw [hdrained] at htally
  rintro (hqueued | ⟨i, hi⟩)
  · have hpos := List.length_pos_of_mem hqueued
    omega
  · have hle : (Thread.handling job : Thread α V T).busy ≤ (s.threads.map Thread.busy).sum :=
      List.single_le_sum (fun _ _ => Nat.zero_le _) _ (List.mem_map_of_mem (List.mem_of_getElem? hi))
    have hbusy : (Thread.handling job : Thread α V T).busy = 1 := rfl
    omega

end CacheLab
