import CacheLab.Storage.SlowDict
import CacheLab.System.Counters
import CacheLab.System.FlushBooks
import CacheLab.System.Queue

/-!
# The books on failed writes

A write on the source that a worker or `close` makes for a flush job either succeeds or fails, and a failure is
paid for: with a retry, or with the loss of the job. `Draws` says what one step enters:

* `source`: the source changes by the writes of the step;
* `entered`, `covered`: `write_back_retries` and `flush_failures` together count the failed writes, and one more
  for each retry that a full queue refused;
* `paid`: a job that is given up has used up all its tries, unless a full queue refused its retry.

A failure is entered one step after it happened (`Thread.owed`), and the tries that an outstanding job has used so
far (`Thread.used`, `CacheJobQueue.used`) are not lost.
-/

set_option linter.unusedSectionVars false

namespace CacheLab

variable {α V T : Type} [DecidableEq α] [LinearOrder T] [Zero T] [Add T] [Sub T]

variable {cfg : AcceptedConfig T} {hash : Key α → ℕ}

/-! ### What jobs have used -/

/-- The tries that a job has used. -/
def Ticket.used (cfg : AcceptedConfig T) (t : Ticket α V) : ℕ := cfg.writeBackRetryCount - t.job.retriesLeft

/-- The tries that some jobs have used. -/
def triesUsed (cfg : AcceptedConfig T) (ts : List (Ticket α V)) : ℕ := (ts.map (Ticket.used cfg)).sum

/-- The tries that the queued jobs have used. -/
def CacheJobQueue.used (cfg : AcceptedConfig T) (q : CacheJobQueue α V T) : ℕ := triesUsed cfg q.tickets

/-- The tries that the jobs of a thread have used, those whose outcome is entered left out. -/
def Thread.used (cfg : AcceptedConfig T) : Thread α V T → ℕ
  | .clearing _ ts => triesUsed cfg ts
  | .enqueuing ts _ => triesUsed cfg ts
  | .handling (.flushWriteBack t) => t.used cfg
  | .checked t => t.used cfg
  | .failed t => t.used cfg + 1
  | .closeEnqueue _ ts => triesUsed cfg ts
  | .syncNext _ ts _ => triesUsed cfg ts
  | .syncTry _ _ left rest _ => cfg.writeBackRetryCount - left + triesUsed cfg rest
  | .syncClean _ _ rest _ => triesUsed cfg rest
  | .syncSettle _ _ success rest _ => (if success then 0 else cfg.writeBackRetryCount + 1) + triesUsed cfg rest
  | _ => 0

/-- The failed writes of a thread that it has not entered yet. -/
def Thread.owed : Thread α V T → ℕ
  | .failed _ => 1
  | .syncSettle _ _ success _ _ => if success then 0 else 1
  | _ => 0

/-- The retries that a full queue refuses in the next step of a thread. -/
def Thread.refused (s : Shared α V cfg) : Thread α V T → ℕ
  | .failed t => if 0 < t.job.retriesLeft ∧ s.queue.full cfg.queueSize = true then 1 else 0
  | _ => 0

/-- The failed writes of flush jobs in the next step of a thread. -/
def Thread.flushFails (c : Choice α V) : Thread α V T → ℕ
  | .checked t => if c.ok t.job.key then 0 else 1
  | .syncTry _ t _ _ _ => if c.ok t.job.key then 0 else 1
  | _ => 0

section Used

variable {ts us : List (Ticket α V)}

@[simp] theorem triesUsed_nil : triesUsed cfg ([] : List (Ticket α V)) = 0 := rfl

@[simp] theorem triesUsed_cons (t : Ticket α V) : triesUsed cfg (t :: ts) = t.used cfg + triesUsed cfg ts := by
  simp [triesUsed]

@[simp] theorem triesUsed_append : triesUsed cfg (ts ++ us) = triesUsed cfg ts + triesUsed cfg us := by
  simp [triesUsed]

/-- A new job has used no try. -/
theorem triesUsed_eq_zero (h : ∀ t ∈ ts, t.job.retriesLeft = cfg.writeBackRetryCount) : triesUsed cfg ts = 0 := by
  unfold triesUsed
  apply List.sum_eq_zero
  intro n hn
  obtain ⟨t, ht, rfl⟩ := List.mem_map.mp hn
  unfold Ticket.used
  rw [h t ht, Nat.sub_self]

/-- The jobs of a section have used no try. -/
theorem triesUsed_ticketsFrom {base : ℕ} {jobs : List (FlushWriteBack α V)}
    (h : ∀ job ∈ jobs, job.retriesLeft = cfg.writeBackRetryCount) : triesUsed cfg (ticketsFrom base jobs) = 0 := by
  apply triesUsed_eq_zero
  intro t ht
  exact h t.job (mem_ticketsFrom ht)

/-- The jobs that `close` makes have used no try. -/
theorem triesUsed_dirtyJobs (sh : CacheShard α V T) (log : List (Event α V T)) :
    triesUsed cfg ((sh.dirtyJobs cfg.toCacheConfig).map (closeTicket log)) = 0 := by
  apply triesUsed_eq_zero
  intro t ht
  obtain ⟨job, hjob, rfl⟩ := List.mem_map.mp ht
  unfold CacheShard.dirtyJobs at hjob
  rcases List.mem_append.mp hjob with hput | hdelete
  · obtain ⟨e, -, rfl⟩ := List.mem_map.mp hput
    rfl
  · obtain ⟨p, -, rfl⟩ := List.mem_map.mp hdelete
    rfl

theorem CacheJobQueue.used_push (q : CacheJobQueue α V T) (job : Job α V T) :
    (q.push job).used cfg = q.used cfg + triesUsed cfg job.tickets := by
  unfold CacheJobQueue.used
  rw [CacheJobQueue.tickets_push, triesUsed_append]

end Used

/-! ### One step -/

/-- What a step enters into the books. -/
structure Draws (s : Shared α V cfg) (c : Choice α V) (th : Thread α V T) (s' : Shared α V cfg)
    (th' : Thread α V T) : Prop where
  source : s'.source = s.source.performAll c.ok (th.sourceCalls s)
  entered : s'.runtime.writeBackRetries + s'.runtime.flushFailures + th'.owed ≤
    s.runtime.writeBackRetries + s.runtime.flushFailures + th.owed + th.flushFails c + th.refused s
  covered : s.runtime.writeBackRetries + s.runtime.flushFailures + th.owed + th.flushFails c ≤
    s'.runtime.writeBackRetries + s'.runtime.flushFailures + th'.owed
  paid : s'.queue.used cfg + th'.used cfg + (cfg.writeBackRetryCount + 1) * s'.runtime.flushFailures ≤
    s.queue.used cfg + th.used cfg + (cfg.writeBackRetryCount + 1) * s.runtime.flushFailures + th.flushFails c +
      cfg.writeBackRetryCount * th.refused s

/-- Neither the counters nor the source change. -/
structure Shared.Calm (s s' : Shared α V cfg) : Prop where
  source_eq : s'.source = s.source
  retries_eq : s'.runtime.writeBackRetries = s.runtime.writeBackRetries
  failures_eq : s'.runtime.flushFailures = s.runtime.flushFailures

section Steps

variable {s s₁ s' : Shared α V cfg} {c : Choice α V} {th th' : Thread α V T}

theorem Shared.Calm.refl (s : Shared α V cfg) : s.Calm s := ⟨rfl, rfl, rfl⟩

theorem Shared.Calm.trans (h : s.Calm s₁) (h' : s₁.Calm s') : s.Calm s' :=
  ⟨h'.source_eq.trans h.source_eq, h'.retries_eq.trans h.retries_eq, h'.failures_eq.trans h.failures_eq⟩

/-- An unbounded queue refuses no retry. -/
theorem Thread.refused_eq_zero (s : Shared α V cfg) (hsize : cfg.queueSize = 0) (th : Thread α V T) :
    th.refused s = 0 := by
  cases th with
  | failed t =>
      apply if_neg
      rintro ⟨-, hfull⟩
      simp [CacheJobQueue.full, hsize] at hfull
  | _ => rfl

/-- Counting the jobs of the workers is calm. -/
theorem Caller.calm_count (caller : Caller α V T) (s : Shared α V cfg) (completed : Bool) :
    s.Calm (caller.count s completed) := by
  cases caller with
  | preloader =>
      cases completed
      · exact ⟨rfl, rfl, rfl⟩
      · exact ⟨rfl, rfl, rfl⟩
  | _ => exact .refl s

/-- A step that writes nothing on the source and gives up nothing. -/
theorem Draws.of_calm (h : s.Calm s') (hcalls : th.sourceCalls s = []) (hfails : th.flushFails c = 0)
    (howed : th.owed = 0) (howed' : th'.owed = 0)
    (hused : s'.queue.used cfg + th'.used cfg ≤ s.queue.used cfg + th.used cfg) : Draws s c th s' th' where
  source := by
    rw [hcalls, h.source_eq]
    rfl
  entered := by
    rw [h.retries_eq, h.failures_eq, howed, howed']
    omega
  covered := by rw [h.retries_eq, h.failures_eq, howed, howed', hfails]
  paid := by
    rw [h.failures_eq]
    omega

/-- A caller that is told that its put is over. -/
theorem Caller.used_raised (cfg : AcceptedConfig T) (caller : Caller α V T) (exn : Exn) :
    (caller.raised exn : Thread α V T).used cfg = 0 ∧ (caller.raised exn : Thread α V T).owed = 0 := by
  cases caller with
  | leader key flight value => cases exn <;> exact ⟨rfl, rfl⟩
  | _ => exact ⟨rfl, rfl⟩

/-- See `Caller.used_raised`. -/
theorem Caller.used_returned (cfg : AcceptedConfig T) (caller : Caller α V T) :
    (caller.returned : Thread α V T).used cfg = 0 ∧ (caller.returned : Thread α V T).owed = 0 := by
  cases caller <;> exact ⟨rfl, rfl⟩

/-- A caller whose put raised. -/
theorem Draws.of_raised (h : s.Calm s₁) (hcalls : th.sourceCalls s = []) (hfails : th.flushFails c = 0)
    (howed : th.owed = 0) (hqueue : s₁.queue = s.queue) (caller : Caller α V T) (exn : Exn) :
    Draws s c th (caller.count s₁ false) (caller.raised exn) := by
  obtain ⟨hused', howed'⟩ := caller.used_raised cfg exn
  refine .of_calm (h.trans (caller.calm_count s₁ false)) hcalls hfails howed howed' ?_
  rw [caller.queue_of_count, hqueue, hused']
  exact Nat.add_le_add_left (Nat.zero_le _) _

/-- Starting to enqueue. -/
theorem calm_enqueueOr {ts : List (Ticket α V)} {caller : Caller α V T} (h : enqueueOr s ts caller = (s', th')) :
    s.Calm s' ∧ s'.queue = s.queue ∧ th'.used cfg = triesUsed cfg ts ∧ th'.owed = 0 := by
  cases ts with
  | nil =>
      cases h
      obtain ⟨hused', howed'⟩ := caller.used_returned cfg
      exact ⟨caller.calm_count s true, caller.queue_of_count s true, hused', howed'⟩
  | cons t ts =>
      cases h
      exact ⟨.refl s, rfl, rfl, rfl⟩

/-- A section with new jobs, which are then enqueued. -/
theorem Draws.of_section {ts : List (Ticket α V)} {caller : Caller α V T} (h : enqueueOr s₁ ts caller = (s', th'))
    (hsource : s₁.source = s.source.performAll c.ok (th.sourceCalls s)) (hruntime : s₁.runtime = s.runtime)
    (hqueue : s₁.queue = s.queue) (hnew : triesUsed cfg ts = 0) (hfails : th.flushFails c = 0) (howed : th.owed = 0) :
    Draws s c th s' th' := by
  obtain ⟨hcalm, hqueue', hused', howed'⟩ := calm_enqueueOr h
  refine ⟨hcalm.source_eq.trans hsource, ?_, ?_, ?_⟩
  · rw [hcalm.retries_eq, hcalm.failures_eq, hruntime, howed, howed']
    omega
  · rw [hcalm.retries_eq, hcalm.failures_eq, hruntime, howed, howed', hfails]
  · rw [hcalm.failures_eq, hqueue', hqueue, hruntime, hused', hnew, hfails]
    omega

/-- The section of a put. -/
theorem draws_put (hs : ∀ i, ShardOk cfg hash i (s.shards i)) {key : Key α} {value : V} {ttl : Ttl T}
    {caller : Caller α V T} (h : clientStep hash s c (.running (.put key value ttl) caller) = some (s', th')) :
    Draws s c (.running (.put key value ttl) caller) s' th' := by
  simp only [clientStep] at h
  by_cases hraise : cfg.writeMode = .writeThrough ∧ c.ok key = false
  · rw [putSection_of_raised hash s key value ttl hraise] at h
    cases h
    obtain ⟨hused', howed'⟩ := caller.used_raised cfg .sourceFailure
    have hcalm := caller.calm_count
      (s.setShard (shardFor cfg hash key) ((s.home hash key).dropExpired key s.now)) false
    refine ⟨?_, ?_, ?_, ?_⟩
    · rw [hcalm.source_eq]
      simp [Thread.sourceCalls, hraise.1, hraise.2, Source.performAll, Shared.setShard]
    · rw [hcalm.retries_eq, hcalm.failures_eq, howed']
      rfl
    · rw [hcalm.retries_eq, hcalm.failures_eq, howed']
      rfl
    · rw [hcalm.failures_eq, hused', caller.queue_of_count]
      rfl
  · obtain ⟨hret, gone, hdone⟩ := putSection_of_returned hs key value ttl hraise
    simp only [hret, Bool.false_eq_true, if_false] at h
    refine .of_section (Option.some.inj h) ?_ rfl hdone.queue_eq ?_ rfl rfl
    · rw [hdone.source_eq]
      unfold CacheShard.putSource Thread.sourceCalls
      by_cases hmode : cfg.writeMode = .writeThrough
      · have hok : c.ok key = true := by
          by_contra hne
          exact hraise ⟨hmode, by simpa using hne⟩
        simp [hmode, Source.performAll, hok]
      · simp [hmode, Source.performAll]
    · rw [hdone.tickets_eq]
      apply triesUsed_ticketsFrom
      intro job hjob
      unfold CacheShard.putJobs at hjob
      split_ifs at hjob
      · rw [List.mem_singleton.mp hjob]
      · cases hjob

/-- The section of a delete. -/
theorem draws_delete {key : Key α} {caller : Caller α V T}
    (h : clientStep hash s c (.running (.delete key) caller) = some (s', th')) :
    Draws s c (.running (.delete key) caller) s' th' := by
  simp only [clientStep] at h
  by_cases hraise : cfg.writeMode = .writeThrough ∧ c.ok key = false
  · rw [deleteSection_of_raised hash s key hraise] at h
    cases h
    refine ⟨?_, le_rfl, le_rfl, le_rfl⟩
    simp [Thread.sourceCalls, hraise.1, hraise.2, Source.performAll]
  · obtain ⟨hret, hdone⟩ := deleteSection_of_returned hash s key hraise
    simp only [hret, Bool.false_eq_true, if_false] at h
    refine .of_section (Option.some.inj h) ?_ rfl hdone.queue_eq ?_ rfl rfl
    · simp only [Shared.deleteSection, CacheShard.deleteLocked_of_returned _ _ _ _ hraise, Thread.sourceCalls]
      by_cases hmode : cfg.writeMode = .writeThrough
      · have hok : c.ok key = true := by
          by_contra hne
          exact hraise ⟨hmode, by simpa using hne⟩
        simp [hmode, Source.performAll, hok, Shared.emit, Shared.setShard, CacheShard.eraseLocked]
      · simp [hmode, Source.performAll, Shared.emit, Shared.setShard, CacheShard.eraseLocked]
    · rw [hdone.tickets_eq]
      apply triesUsed_ticketsFrom
      intro job hjob
      split_ifs at hjob
      · rw [List.mem_singleton.mp hjob]
        rfl
      · cases hjob

/-- The sections of a clear. -/
theorem draws_clearing (hs : ∀ i, ShardOk cfg hash i (s.shards i)) {i : ℕ} {ts : List (Ticket α V)}
    (h : clientStep hash s c (.clearing i ts) = some (s', th')) : Draws s c (.clearing i ts) s' th' := by
  simp only [clientStep] at h
  split_ifs at h with hi hraise
  · obtain ⟨done, rest, hdone⟩ := clearSection_spec hs ⟨i, hi⟩ c.ok
    cases h
    refine ⟨?_, le_rfl, le_rfl, ?_⟩
    · rw [Thread.sourceCalls, dif_pos hi]
      exact source_clearKeysLocked c.ok _ _ _ _
    · rw [hdone.queue_eq]
      show s.queue.used cfg + 0 + _ ≤ s.queue.used cfg + triesUsed cfg ts + _ + 0 + _
      exact Nat.add_le_add_right (Nat.add_le_add_left (Nat.zero_le _) _) _
  · obtain ⟨done, rest, hdone⟩ := clearSection_spec hs ⟨i, hi⟩ c.ok
    cases h
    have hnew : triesUsed cfg (s.clearSection ⟨i, hi⟩ c.ok).2.1 = 0 := by
      rw [hdone.tickets_eq]
      apply triesUsed_ticketsFrom
      intro job hjob
      split_ifs at hjob
      · obtain ⟨k, -, rfl⟩ := List.mem_map.mp hjob
        rfl
      · cases hjob
    refine ⟨?_, le_rfl, le_rfl, ?_⟩
    · rw [Thread.sourceCalls, dif_pos hi]
      exact source_clearKeysLocked c.ok _ _ _ _
    · rw [hdone.queue_eq]
      show s.queue.used cfg + triesUsed cfg (ts ++ _) + _ ≤ s.queue.used cfg + triesUsed cfg ts + _ + 0 + _
      rw [triesUsed_append, hnew]
      exact le_rfl
  · obtain ⟨hcalm, hqueue', hused', howed'⟩ := calm_enqueueOr (Option.some.inj h)
    refine .of_calm hcalm ?_ rfl rfl howed' ?_
    · rw [Thread.sourceCalls, dif_neg hi]
    · rw [hqueue', hused']
      exact le_rfl

/-- The tries that lost jobs have used are not forgotten. -/
theorem Shared.used_lose (s : Shared α V cfg) (ts : List (Ticket α V)) :
    (s.lose ts).queue.used cfg = s.queue.used cfg + triesUsed cfg ts := by
  unfold CacheJobQueue.used triesUsed
  rw [((s.lose_spec ts).2.2.2.2.map _).sum_eq, List.map_append, List.sum_append]

/-- An enqueue. -/
theorem draws_enqueuing {ts : List (Ticket α V)} {caller : Caller α V T}
    (h : clientStep hash s c (.enqueuing ts caller) = some (s', th')) :
    Draws s c (.enqueuing ts caller) s' th' := by
  cases ts with
  | nil =>
      cases h
      obtain ⟨hused', howed'⟩ := caller.used_returned cfg
      refine .of_calm (caller.calm_count s true) rfl rfl rfl howed' ?_
      rw [caller.queue_of_count, hused']
      exact Nat.add_le_add_left (Nat.zero_le _) _
  | cons t ts =>
      simp only [clientStep] at h
      split_ifs at h
      · cases h
        have hlost : s.Calm (s.lose (t :: ts)) := ⟨rfl, rfl, rfl⟩
        obtain ⟨hused', howed'⟩ := caller.used_raised cfg .valueError
        refine .of_calm (hlost.trans (caller.calm_count _ false)) rfl rfl rfl howed' ?_
        rw [caller.queue_of_count, s.used_lose, hused']
        exact le_rfl
      · cases h
        refine .of_calm ⟨rfl, rfl, rfl⟩ rfl rfl rfl rfl ?_
        exact Nat.add_le_add_left (Nat.zero_le _) _
      · obtain ⟨hcalm, hqueue', hused', howed'⟩ := calm_enqueueOr (Option.some.inj h)
        have hpush : s.Calm { s with queue := s.queue.push (.flushWriteBack t) } := ⟨rfl, rfl, rfl⟩
        refine .of_calm (hpush.trans hcalm) rfl rfl rfl howed' ?_
        rw [hqueue', hused']
        show (s.queue.push (.flushWriteBack t)).used cfg + _ ≤ s.queue.used cfg + triesUsed cfg (t :: ts)
        rw [CacheJobQueue.used_push, triesUsed_cons]
        simp [Job.tickets, Nat.add_assoc]

/-- Offering a job that is no flush job. -/
theorem calm_putNowait (s : Shared α V cfg) {job : Job α V T} (hjob : job.tickets = []) :
    s.Calm { s with queue := s.queue.putNowait cfg.queueSize job } ∧
      (s.queue.putNowait cfg.queueSize job).used cfg = s.queue.used cfg := by
  unfold CacheJobQueue.putNowait
  split_ifs with hfull
  · exact ⟨⟨rfl, rfl, rfl⟩, rfl⟩
  · rw [CacheJobQueue.used_push, hjob]
    exact ⟨⟨rfl, rfl, rfl⟩, rfl⟩

/-- **The books of a step of a call.** -/
theorem clientStep_draws (hs : ∀ i, ShardOk cfg hash i (s.shards i))
    (h : clientStep hash s c th = some (s', th')) : Draws s c th s' th' := by
  cases th with
  | entering op caller =>
      rcases entering_cases h with ⟨rfl, ⟨exn, rfl⟩, -⟩ | ⟨rfl, rfl, -⟩ | ⟨rfl, rfl, -⟩ |
        ⟨rfl, -, -, flush, -, rfl⟩
      · exact .of_raised (.refl _) rfl rfl rfl rfl caller exn
      · exact .of_calm (.refl _) rfl rfl rfl rfl le_rfl
      · exact .of_calm (.refl _) rfl rfl rfl rfl le_rfl
      · split_ifs
        · exact .of_calm ⟨rfl, rfl, rfl⟩ rfl rfl rfl rfl le_rfl
        · exact .of_calm ⟨rfl, rfl, rfl⟩ rfl rfl rfl rfl le_rfl
  | running op caller =>
      cases op with
      | put key value ttl => exact draws_put hs h
      | delete key => exact draws_delete h
      | preload key ttl =>
          obtain ⟨hcalm, hused⟩ := calm_putNowait s (rfl : (Job.preloadKey (shardFor cfg hash key) key ttl :
            Job α V T).tickets = [])
          cases h
          exact .of_calm hcalm rfl rfl rfl rfl hused.le
      | requestSnapshot id =>
          obtain ⟨hcalm, hused⟩ := calm_putNowait s (rfl : (Job.snapshotStats id : Job α V T).tickets = [])
          cases h
          exact .of_calm hcalm rfl rfl rfl rfl hused.le
      | getOrCompute key ttl =>
          simp only [clientStep] at h
          split at h <;> cases h <;> exact .of_calm ⟨rfl, rfl, rfl⟩ rfl rfl rfl rfl le_rfl
      | _ =>
          cases h <;> exact .of_calm ⟨rfl, rfl, rfl⟩ rfl rfl rfl rfl le_rfl
  | clearing i ts => exact draws_clearing hs h
  | sizing i total =>
      simp only [clientStep] at h
      split_ifs at h <;> cases h <;> exact .of_calm (.refl s) rfl rfl rfl rfl le_rfl
  | dumping i taken limit =>
      simp only [clientStep] at h
      split_ifs at h <;> cases h <;> exact .of_calm ⟨rfl, rfl, rfl⟩ rfl rfl rfl rfl le_rfl
  | expiring i removed =>
      simp only [clientStep] at h
      split_ifs at h <;> cases h <;> exact .of_calm ⟨rfl, rfl, rfl⟩ rfl rfl rfl rfl le_rfl
  | enqueuing ts caller => exact draws_enqueuing h
  | releasing ts caller =>
      cases ts with
      | nil =>
          cases h
          exact .of_raised (.refl s) rfl rfl rfl rfl caller _
      | cons t ts =>
          obtain ⟨s₁, hs₁, heq⟩ := Option.map_eq_some_iff.mp h
          obtain ⟨hlt, rfl⟩ := Shared.onShard_eq_some.mp hs₁
          cases heq
          exact .of_calm ⟨rfl, rfl, rfl⟩ rfl rfl rfl rfl le_rfl
  | leading key ttl flight =>
      cases h
      exact .of_calm (.refl s) rfl rfl rfl rfl le_rfl
  | loading key ttl flight =>
      simp only [clientStep] at h
      split at h <;> cases h <;> exact .of_calm (.refl s) rfl rfl rfl rfl le_rfl
  | publishing key flight value =>
      cases h
      exact .of_calm ⟨rfl, rfl, rfl⟩ rfl rfl rfl rfl le_rfl
  | failing key flight exn =>
      cases h
      exact .of_calm ⟨rfl, rfl, rfl⟩ rfl rfl rfl rfl le_rfl
  | waiting flight =>
      simp only [clientStep] at h
      split at h
      · cases h
      · split_ifs at h
        cases h
        exact .of_calm (.refl s) rfl rfl rfl rfl le_rfl
  | _ => cases h

/-- **The books of a step of a worker.** -/
theorem workerStep_draws (h : workerStep s c th = some (s', th')) : Draws s c th s' th' := by
  cases th with
  | idle =>
      simp only [workerStep] at h
      split at h
      · next job rest hq =>
          cases h
          refine .of_calm ⟨rfl, rfl, rfl⟩ rfl rfl rfl rfl ?_
          unfold CacheJobQueue.used CacheJobQueue.tickets CacheJobQueue.queued
          rw [hq, List.flatMap_cons, triesUsed_append, triesUsed_append, triesUsed_append, Nat.add_assoc]
          refine Nat.add_le_add_left ?_ _
          cases job with
          | flushWriteBack t => simp [Job.tickets, Thread.used, Nat.add_comm]
          | _ => exact Nat.le_add_left _ _
      · split_ifs at h
        cases h
        exact .of_calm (.refl s) rfl rfl rfl rfl le_rfl
  | handling job =>
      cases job with
      | stopWorker =>
          cases h
          exact .of_calm ⟨rfl, rfl, rfl⟩ rfl rfl rfl rfl le_rfl
      | expireShard i =>
          obtain ⟨s₁, hs₁, heq⟩ := Option.map_eq_some_iff.mp h
          obtain ⟨hlt, rfl⟩ := Shared.onShard_eq_some.mp hs₁
          cases heq
          exact .of_calm ⟨rfl, rfl, rfl⟩ rfl rfl rfl rfl le_rfl
      | snapshotStats id =>
          cases h
          exact .of_calm ⟨rfl, rfl, rfl⟩ rfl rfl rfl rfl le_rfl
      | preloadKey i key ttl =>
          simp only [workerStep] at h
          split at h <;> cases h <;> exact .of_calm ⟨rfl, rfl, rfl⟩ rfl rfl rfl rfl le_rfl
      | flushWriteBack t =>
          simp only [workerStep] at h
          split_ifs at h <;> cases h
          · exact .of_calm ⟨rfl, rfl, rfl⟩ rfl rfl rfl rfl (Nat.add_le_add_left (Nat.zero_le _) _)
          · exact .of_calm (.refl s) rfl rfl rfl rfl le_rfl
  | checked t =>
      simp only [workerStep] at h
      split_ifs at h with hok <;> cases h
      · refine ⟨?_, ?_, ?_, ?_⟩
        · simp [Thread.sourceCalls, Source.performAll, hok, applyWriteBack, Shared.emit]
        · simp [Thread.flushFails, Thread.owed, Thread.refused, hok, Shared.emit]
        · simp [Thread.flushFails, Thread.owed, hok, Shared.emit]
        · simp [Thread.flushFails, Thread.used, Thread.refused, hok, Shared.emit]
      · refine ⟨?_, ?_, ?_, ?_⟩
        · simp [Thread.sourceCalls, Source.performAll, hok]
        · simp [Thread.flushFails, Thread.owed, Thread.refused, hok]
        · simp [Thread.flushFails, Thread.owed, hok]
        · show s.queue.used cfg + (t.used cfg + 1) + _ ≤
            s.queue.used cfg + t.used cfg + _ + (if c.ok t.job.key then 0 else 1) + _
          rw [if_neg hok]
          omega
  | failed t =>
      simp only [workerStep] at h
      have hretry : t.retry.used cfg ≤ t.used cfg + 1 := by
        simp only [Ticket.used, Ticket.retry]
        omega
      split_ifs at h with hleft hrej hfull <;> cases h
      · -- the job is lost, and its failure is counted as a retry
        refine ⟨rfl, ?_, ?_, ?_⟩
        · simp only [Shared.count, Shared.lose, Thread.owed, Thread.flushFails]
          omega
        · simp only [Shared.count, Shared.lose, Thread.owed, Thread.flushFails]
          omega
        · show (s.lose [t.retry]).queue.used cfg + 0 + (cfg.writeBackRetryCount + 1) * s.runtime.flushFailures ≤
            s.queue.used cfg + (t.used cfg + 1) + _ + 0 + _
          rw [s.used_lose]
          simp only [triesUsed_cons, triesUsed_nil]
          omega
      · -- the queue refuses the retry: the job is given up after one try at least
        have hone : (Thread.failed t).refused s = 1 := if_pos ⟨hleft, hfull⟩
        refine ⟨rfl, ?_, ?_, ?_⟩
        · rw [hone]
          simp only [Shared.count, Thread.owed, Thread.flushFails]
          omega
        · simp only [Shared.count, Thread.owed, Thread.flushFails]
          omega
        · rw [hone]
          show s.queue.used cfg + 0 + (cfg.writeBackRetryCount + 1) * (s.runtime.flushFailures + 1) ≤
            s.queue.used cfg + (t.used cfg + 1) + (cfg.writeBackRetryCount + 1) * s.runtime.flushFailures + 0 +
              cfg.writeBackRetryCount * 1
          rw [Nat.mul_succ]
          omega
      · -- the job goes back with one try less
        refine ⟨rfl, ?_, ?_, ?_⟩
        · simp only [Shared.count, Thread.owed, Thread.flushFails]
          omega
        · simp only [Shared.count, Thread.owed, Thread.flushFails]
          omega
        · show (s.queue.push (.flushWriteBack t.retry)).used cfg + 0 +
              (cfg.writeBackRetryCount + 1) * s.runtime.flushFailures ≤
            s.queue.used cfg + (t.used cfg + 1) + _ + 0 + _
          rw [CacheJobQueue.used_push]
          simp only [Job.tickets, triesUsed_cons, triesUsed_nil]
          omega
      · -- no try is left
        have hused : t.used cfg = cfg.writeBackRetryCount := by
          simp only [Ticket.used]
          omega
        refine ⟨rfl, ?_, ?_, ?_⟩
        · simp only [Shared.count, Thread.owed, Thread.flushFails]
          omega
        · simp only [Shared.count, Thread.owed, Thread.flushFails]
          omega
        · show s.queue.used cfg + 0 + (cfg.writeBackRetryCount + 1) * (s.runtime.flushFailures + 1) ≤
            s.queue.used cfg + (t.used cfg + 1) + (cfg.writeBackRetryCount + 1) * s.runtime.flushFailures + 0 + _
          rw [Nat.mul_succ, hused]
          omega
  | dropped t =>
      obtain ⟨s₁, hs₁, heq⟩ := Option.map_eq_some_iff.mp h
      obtain ⟨hlt, rfl⟩ := Shared.onShard_eq_some.mp hs₁
      cases heq
      exact .of_calm ⟨rfl, rfl, rfl⟩ rfl rfl rfl rfl le_rfl
  | landed t =>
      obtain ⟨s₁, hs₁, heq⟩ := Option.map_eq_some_iff.mp h
      obtain ⟨hlt, rfl⟩ := Shared.onShard_eq_some.mp hs₁
      cases heq
      exact .of_calm ⟨rfl, rfl, rfl⟩ rfl rfl rfl rfl le_rfl
  | finishing =>
      cases h
      exact .of_calm ⟨rfl, rfl, rfl⟩ rfl rfl rfl rfl le_rfl
  | _ => cases h

/-- **The books of a step of `close`.** -/
theorem closeStep_draws (h : closeStep s c th = some (s', th')) : Draws s c th s' th' := by
  cases th with
  | closeCollect i =>
      simp only [closeStep] at h
      split_ifs at h
      cases h
      refine .of_calm ⟨rfl, rfl, rfl⟩ rfl rfl rfl rfl ?_
      show s.queue.used cfg + triesUsed cfg (List.map _ _) ≤ _
      rw [triesUsed_dirtyJobs]
      exact le_rfl
  | closeEnqueue i ts =>
      cases ts with
      | nil =>
          cases h
          unfold closeNext
          split_ifs <;> exact .of_calm (.refl s) rfl rfl rfl rfl le_rfl
      | cons t ts =>
          simp only [closeStep] at h
          split_ifs at h <;> cases h
          · refine .of_calm ⟨rfl, rfl, rfl⟩ rfl rfl rfl rfl ?_
            show (s.lose (t :: ts)).queue.used cfg + 0 ≤ _
            rw [s.used_lose]
            exact le_rfl
          · exact .of_calm ⟨rfl, rfl, rfl⟩ rfl rfl rfl rfl (Nat.add_le_add_left (Nat.zero_le _) _)
          · refine .of_calm ⟨rfl, rfl, rfl⟩ rfl rfl rfl rfl ?_
            show (s.queue.push (.flushWriteBack t)).used cfg + triesUsed cfg ts ≤
              s.queue.used cfg + triesUsed cfg (t :: ts)
            rw [CacheJobQueue.used_push, triesUsed_cons]
            simp [Job.tickets, Nat.add_assoc]
  | closeRelease i ts =>
      cases ts with
      | nil =>
          cases h
          unfold closeNext
          split_ifs <;> exact .of_calm (.refl s) rfl rfl rfl rfl le_rfl
      | cons t ts =>
          obtain ⟨s₁, hs₁, heq⟩ := Option.map_eq_some_iff.mp h
          obtain ⟨hlt, rfl⟩ := Shared.onShard_eq_some.mp hs₁
          cases heq
          exact .of_calm ⟨rfl, rfl, rfl⟩ rfl rfl rfl rfl le_rfl
  | closeJoin =>
      simp only [closeStep] at h
      split_ifs at h <;> cases h <;> exact .of_calm (.refl s) rfl rfl rfl rfl le_rfl
  | syncCollect i failed =>
      simp only [closeStep] at h
      split_ifs at h with hi <;> cases h
      · refine .of_calm (.refl s) rfl rfl rfl rfl ?_
        show s.queue.used cfg + triesUsed cfg (List.map _ _) ≤ _
        rw [triesUsed_dirtyJobs]
        exact le_rfl
      · exact .of_calm ⟨rfl, rfl, rfl⟩ rfl rfl rfl rfl le_rfl
      · exact .of_calm (.refl s) rfl rfl rfl rfl le_rfl
  | syncNext i ts failed =>
      cases ts with
      | nil =>
          cases h
          exact .of_calm (.refl s) rfl rfl rfl rfl le_rfl
      | cons t ts =>
          simp only [closeStep] at h
          split_ifs at h <;> cases h
          · refine .of_calm ⟨rfl, rfl, rfl⟩ rfl rfl rfl rfl ?_
            show s.queue.used cfg + triesUsed cfg ts ≤ s.queue.used cfg + triesUsed cfg (t :: ts)
            rw [triesUsed_cons]
            omega
          · refine .of_calm (.refl s) rfl rfl rfl rfl ?_
            show s.queue.used cfg + (t.used cfg + triesUsed cfg ts) ≤ s.queue.used cfg + triesUsed cfg (t :: ts)
            rw [triesUsed_cons]
  | syncTry i t left ts failed =>
      simp only [closeStep] at h
      split_ifs at h with hok
      · have happlied : ∀ th' : Thread α V T, th'.owed = 0 → th'.used cfg = triesUsed cfg ts →
            Draws s c (.syncTry i t left ts failed)
              (({ s with source := applyWriteBack s.source t.job } : Shared α V cfg).emit [.applied t]) th' := by
          intro th' howed' hused'
          refine ⟨?_, ?_, ?_, ?_⟩
          · simp [Thread.sourceCalls, Source.performAll, hok, applyWriteBack, Shared.emit]
          · rw [howed']
            simp [Thread.flushFails, Thread.owed, Thread.refused, hok, Shared.emit]
          · rw [howed']
            simp [Thread.flushFails, Thread.owed, hok, Shared.emit]
          · rw [hused']
            simp [Thread.flushFails, Thread.used, Thread.refused, hok, Shared.emit]
        cases hop : t.job.operation with
        | put v =>
            rw [hop] at h
            cases h
            exact happlied _ rfl rfl
        | delete =>
            rw [hop] at h
            cases h
            exact happlied _ rfl (Nat.zero_add _)
      · cases left with
        | zero =>
            cases h
            refine ⟨?_, ?_, ?_, ?_⟩
            · simp [Thread.sourceCalls, Source.performAll, hok]
            · simp [Thread.flushFails, Thread.owed, Thread.refused, hok]
            · simp [Thread.flushFails, Thread.owed, hok]
            · show s.queue.used cfg + (cfg.writeBackRetryCount + 1 + triesUsed cfg ts) + _ ≤
                s.queue.used cfg + (cfg.writeBackRetryCount - 0 + triesUsed cfg ts) + _ +
                  (if c.ok t.job.key then 0 else 1) + _
              rw [if_neg hok]
              omega
        | succ left =>
            cases h
            refine ⟨?_, ?_, ?_, ?_⟩
            · simp [Thread.sourceCalls, Source.performAll, hok, Shared.count]
            · show s.runtime.writeBackRetries + 1 + s.runtime.flushFailures + 0 ≤
                s.runtime.writeBackRetries + s.runtime.flushFailures + 0 + (if c.ok t.job.key then 0 else 1) + 0
              rw [if_neg hok]
              omega
            · show s.runtime.writeBackRetries + s.runtime.flushFailures + 0 + (if c.ok t.job.key then 0 else 1) ≤
                s.runtime.writeBackRetries + 1 + s.runtime.flushFailures + 0
              rw [if_neg hok]
              omega
            · show s.queue.used cfg + (cfg.writeBackRetryCount - left + triesUsed cfg ts) +
                  (cfg.writeBackRetryCount + 1) * s.runtime.flushFailures ≤
                s.queue.used cfg + (cfg.writeBackRetryCount - (left + 1) + triesUsed cfg ts) +
                  (cfg.writeBackRetryCount + 1) * s.runtime.flushFailures + (if c.ok t.job.key then 0 else 1) + _
              rw [if_neg hok]
              omega
  | syncClean i t ts failed =>
      obtain ⟨s₁, hs₁, heq⟩ := Option.map_eq_some_iff.mp h
      obtain ⟨hlt, rfl⟩ := Shared.onShard_eq_some.mp hs₁
      cases heq
      refine .of_calm ⟨rfl, rfl, rfl⟩ rfl rfl rfl rfl ?_
      show s.queue.used cfg + (0 + triesUsed cfg ts) ≤ s.queue.used cfg + triesUsed cfg ts
      omega
  | syncSettle i t success ts failed =>
      obtain ⟨s₁, hs₁, heq⟩ := Option.map_eq_some_iff.mp h
      obtain ⟨hlt, rfl⟩ := Shared.onShard_eq_some.mp hs₁
      cases success with
      | true =>
          cases heq
          refine .of_calm ⟨rfl, rfl, rfl⟩ rfl rfl rfl rfl ?_
          show s.queue.used cfg + triesUsed cfg ts ≤ s.queue.used cfg + (0 + triesUsed cfg ts)
          omega
      | false =>
          cases heq
          refine ⟨rfl, le_rfl, le_rfl, ?_⟩
          show s.queue.used cfg + triesUsed cfg ts + (cfg.writeBackRetryCount + 1) * (s.runtime.flushFailures + 1) ≤
            s.queue.used cfg + (cfg.writeBackRetryCount + 1 + triesUsed cfg ts) +
              (cfg.writeBackRetryCount + 1) * s.runtime.flushFailures + 0 + _
          rw [Nat.mul_succ]
          omega
  | closeStop failed =>
      simp only [closeStep] at h
      split_ifs at h <;> cases h
      · refine .of_calm ⟨rfl, rfl, rfl⟩ rfl rfl rfl rfl ?_
        unfold CacheJobQueue.used
        rw [CacheJobQueue.tickets_stop]
        exact le_rfl
      · exact .of_calm (.refl s) rfl rfl rfl rfl le_rfl
  | closeDrain failed =>
      cases h
      refine .of_calm ⟨rfl, rfl, rfl⟩ rfl rfl rfl ?_ ?_
      · split_ifs <;> rfl
      · -- what is lost is not in the queue that is drained
        unfold CacheJobQueue.used CacheJobQueue.tickets
        rw [triesUsed_append, triesUsed_append]
        exact Nat.add_le_add_right (Nat.le_add_right _ _) _
  | _ => cases h

/-- **The books of a step.** -/
theorem threadStep_draws (hs : ∀ i, ShardOk cfg hash i (s.shards i))
    (h : threadStep hash s c th = some (s', th')) : Draws s c th s' th' := by
  rcases threadStep_cases h with hstep | hstep | hstep
  · exact clientStep_draws hs hstep
  · exact workerStep_draws hstep
  · exact closeStep_draws hstep

end Steps

end CacheLab
