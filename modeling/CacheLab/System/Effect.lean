import CacheLab.System.Step
import CacheLab.Core.Writes

/-!
# What one step can do

A step of a thread touches at most one shard, and what it does to shards, source, log and flush jobs
is one of a dozen effects (`Effect`). Everything later is derived from `threadStep_effect`; the
control flow of the operations is not looked at again, except in the shutdown.

* `Thread.flushes` are the flush jobs that a thread holds, each at its stage; together with the queue
  they are the outstanding jobs;
* `Shared.Same` ignores what no property here speaks of: lifecycle, counters and flights;
* `Thread.winding` is the synchronous flush and the final drain of `close`, which take jobs and
  counts out of the protocol.
-/

set_option linter.unusedSectionVars false

namespace CacheLab

variable {α V T : Type} [DecidableEq α] [LinearOrder T] [Zero T] [Add T] [Sub T]

open WriteBehind

/-! ### The jobs a thread holds -/

/-- The tickets of a list, all at one stage. -/
def staged (st : Stage) (ts : List (Ticket α V)) : List (Stage × Ticket α V) := ts.map (Prod.mk st)

/-- The flush jobs that a thread holds. -/
def Thread.flushes : Thread α V T → List (Stage × Ticket α V)
  | .clearing _ ts => staged .waiting ts
  | .enqueuing ts _ => staged .waiting ts
  | .releasing ts _ => staged .doomed ts
  | .handling (.flushWriteBack t) => [(.waiting, t)]
  | .checked t => [(.checked, t)]
  | .landed t => [(.landed, t)]
  | .failed t => [(.waiting, t)]
  | .dropped t => [(.doomed, t)]
  | .closeEnqueue _ ts => staged .waiting ts
  | .closeRelease _ ts => staged .doomed ts
  | _ => []

/-- The thread is in the synchronous flush of `close`, or about to drain the queue. -/
def Thread.winding : Thread α V T → Bool
  | .syncCollect _ _ => true
  | .syncNext _ _ _ => true
  | .syncTry _ _ _ _ _ => true
  | .syncClean _ _ _ _ => true
  | .syncSettle _ _ _ _ _ => true
  | .closeDrain _ => true
  | _ => false

/-- The thread is in the part of `close` that flushes. -/
def Thread.flushing : Thread α V T → Bool
  | .closeCollect _ => true
  | .closeEnqueue _ _ => true
  | .closeRelease _ _ => true
  | .closeJoin => true
  | .syncCollect _ _ => true
  | .syncNext _ _ _ => true
  | .syncTry _ _ _ _ _ => true
  | .syncClean _ _ _ _ => true
  | .syncSettle _ _ _ _ _ => true
  | _ => false

/-- The jobs that `close` collected from a shard belong to that shard. -/
def Thread.Placed : Thread α V T → Prop
  | .closeEnqueue i ts => ∀ t ∈ ts, t.job.shardIndex = i
  | .closeRelease i ts => ∀ t ∈ ts, t.job.shardIndex = i
  | _ => True

/-- The job of a key among staged tickets, without its place in the queue and its retries. -/
def jobOf (k : Key α) (x : Stage × Ticket α V) : Option (Stage × Flush V) :=
  if x.2.job.key = k then some (x.1, ⟨x.2.job.version, x.2.job.operation, x.2.origin⟩) else none

/-- The jobs of a key among staged tickets. -/
def jobsOf (k : Key α) (l : List (Stage × Ticket α V)) : Multiset (Stage × Flush V) :=
  ↑(l.filterMap (jobOf k))

variable {cfg : AcceptedConfig T}

/-- The states agree on everything but lifecycle, counters, flights and the non-flush part of the
queue. -/
structure Shared.Same (s s' : Shared α V cfg) : Prop where
  now_eq : s'.now = s.now
  shards_eq : s'.shards = s.shards
  source_eq : s'.source = s.source
  log_eq : s'.log = s.log
  tickets_eq : s'.queue.tickets = s.queue.tickets

/-- Tickets move between a thread and the queue without a change of stage; a ticket that fails goes
back as its retry. -/
structure Shifts (q q' : List (Ticket α V)) (before after : List (Stage × Ticket α V)) : Prop where
  jobs_eq : ∀ k, jobsOf k (staged .waiting q') + jobsOf k after =
    jobsOf k (staged .waiting q) + jobsOf k before
  stems : ∀ t, t ∈ q' ∨ t ∈ after.map Prod.snd →
    ∃ t', (t' ∈ q ∨ t' ∈ before.map Prod.snd) ∧ (t = t' ∨ t = t'.retry)

/-- The job whose count the thread releases in its next step (a worker that handles a job: if the job
is stale). -/
def Thread.releases : Thread α V T → Option (Ticket α V)
  | .handling (.flushWriteBack t) => some t
  | .releasing (t :: _) _ => some t
  | .dropped t => some t
  | .landed t => some t
  | .closeRelease _ (t :: _) => some t
  | _ => none

/-- The thread gives up flush jobs in its next step: the queue refuses them, or a job that failed has
no retries left. -/
def Thread.givesUp (s : Shared α V cfg) : Thread α V T → Bool
  | .enqueuing (_ :: _) _ => s.queue.full cfg.queueSize
  | .closeEnqueue _ (_ :: _) => s.queue.full cfg.queueSize
  | .failed t => decide (t.job.retriesLeft = 0) || s.queue.full cfg.queueSize
  | _ => false

/-- What a step of a thread can do, with the jobs the thread holds after it. -/
inductive Effect (hash : Key α → ℕ) (c : Choice α V) (s : Shared α V cfg) (th : Thread α V T) :
    Shared α V cfg → List (Stage × Ticket α V) → Prop
  /-- A section that is no write, or a move of tickets. -/
  | tend (i : Fin cfg.shardCount) {sh' : CacheShard α V T} {s' : Shared α V cfg}
      {after : List (Stage × Ticket α V)} (ht : (s.shards i).Tended s.now sh')
      (hnow : s'.now = s.now) (hshards : s'.shards = Function.update s.shards i sh')
      (hsource : s'.source = s.source) (hlog : s'.log = s.log)
      (hshift : Shifts s.queue.tickets s'.queue.tickets th.flushes after) : Effect hash c s th s' after
  /-- The section of a put. -/
  | put (key : Key α) (value : V) (ttl : Ttl T) (caller : Caller α V T)
      (hth : th = .running (.put key value ttl) caller) {s' : Shared α V cfg}
      (hs : (s.putSection hash key value ttl (c.ok key)).1.Same s') :
      Effect hash c s th s' (staged .waiting (s.putSection hash key value ttl (c.ok key)).2.1)
  /-- The section of a delete. -/
  | delete (key : Key α) (ok : Bool) (hth : th.flushes = []) {s' : Shared α V cfg}
      (hs : (s.deleteSection hash key ok).1.Same s') :
      Effect hash c s th s' (staged .waiting (s.deleteSection hash key ok).2.1)
  /-- The section of a clear on one shard. -/
  | clear (i : Fin cfg.shardCount) (ok : Key α → Bool) (ts : List (Ticket α V))
      (hth : th.flushes = staged .waiting ts) {s' : Shared α V cfg}
      (hs : (s.clearSection i ok).1.Same s') :
      Effect hash c s th s'
        (if (s.clearSection i ok).2.2 then []
          else staged .waiting (ts ++ (s.clearSection i ok).2.1))
  /-- A job passes the staleness test. -/
  | check (t : Ticket α V) (hth : th.flushes = [(.waiting, t)]) (i : Fin cfg.shardCount)
      (hi : t.job.shardIndex = i) {s' : Shared α V cfg} (hst : (s.shards i).isStale t.job = false)
      (hs : s.Same s') : Effect hash c s th s' [(.checked, t)]
  /-- A stale job is skipped. -/
  | skip (t : Ticket α V) (hth : th.flushes = [(.waiting, t)]) (hrel : th.releases = some t)
      (i : Fin cfg.shardCount) (hi : t.job.shardIndex = i) {s' : Shared α V cfg}
      (hst : (s.shards i).isStale t.job = true)
      (hs : (s.setShard i ((s.shards i).resolvePendingLocked t.job.key)).Same s') :
      Effect hash c s th s' []
  /-- A job is applied. -/
  | apply (t : Ticket α V) (hth : th = .checked t) (hok : c.ok t.job.key = true) {s' : Shared α V cfg}
      (hs : ({ s with source := applyWriteBack s.source t.job }.emit [.applied t]).Same s') :
      Effect hash c s th s' [(.landed, t)]
  /-- A source call fails. -/
  | fail (t : Ticket α V) (hth : th = .checked t) {s' : Shared α V cfg} (hs : s.Same s') :
      Effect hash c s th s' [(.waiting, t)]
  /-- Jobs are given up. -/
  | giveUp (ts : List (Ticket α V)) (hth : th.flushes = staged .waiting ts)
      (hgive : th.givesUp s = true) {s' : Shared α V cfg} (hs : s.Same s') :
      Effect hash c s th s' (staged .doomed ts)
  /-- The count of a job that was given up is released. -/
  | release (t : Ticket α V) (ts : List (Ticket α V)) (hth : th.flushes = staged .doomed (t :: ts))
      (hrel : th.releases = some t) (i : Fin cfg.shardCount) (hi : t.job.shardIndex = i)
      {s' : Shared α V cfg}
      (hs : (s.setShard i ((s.shards i).resolvePendingLocked t.job.key)).Same s') :
      Effect hash c s th s' (staged .doomed ts)
  /-- The count of an applied job is released. -/
  | settle (t : Ticket α V) (hth : th.flushes = [(.landed, t)]) (hrel : th.releases = some t)
      (i : Fin cfg.shardCount) (hi : t.job.shardIndex = i) {s' : Shared α V cfg}
      (hs : (s.setShard i ((s.shards i).finalizeLocked t.job)).Same s') :
      Effect hash c s th s' []
  /-- `close` collects the dirty entries and the tombstones of a shard. -/
  | collect (i : Fin cfg.shardCount) (hth : th.flushes = []) (hwb : cfg.writeMode = .writeBack)
      {s' : Shared α V cfg}
      (hs : (s.setShard i
        ((s.shards i).registerAll ((s.shards i).dirtyJobs cfg.toCacheConfig))).Same s') :
      Effect hash c s th s'
        (staged .waiting (((s.shards i).dirtyJobs cfg.toCacheConfig).map (closeTicket s.log)))

/-- What a step of a winding thread can do: bookkeeping in one shard, one more call on the source
while it is flushing, and dropping queued jobs. -/
structure Wound (s s' : Shared α V cfg) (flushing : Bool) : Prop where
  now_eq : s'.now = s.now
  shards : ∃ i sh', s'.shards = Function.update s.shards i sh' ∧ (s.shards i).SameData sh' ∧
    ∀ k, (s.shards i).slot k = ⟨none, none, none, none⟩ → sh'.slot k = ⟨none, none, none, none⟩
  source : (s'.source = s.source ∧ s'.log = s.log) ∨
    flushing = true ∧ ∃ t, s'.source = applyWriteBack s.source t.job ∧ s'.log = .applied t :: s.log
  tickets : ∀ t ∈ s'.queue.tickets, t ∈ s.queue.tickets

/-! ### Small facts -/

section Facts

variable {s s' : Shared α V cfg} {hash : Key α → ℕ} {c : Choice α V} {th : Thread α V T}

/-- Nothing changed. -/
theorem Shared.Same.refl (s : Shared α V cfg) : s.Same s := ⟨rfl, rfl, rfl, rfl, rfl⟩

/-- Counting changes nothing that matters. -/
theorem Shared.Same.count {s s' : Shared α V cfg} (h : s.Same s') (f : RuntimeStats → RuntimeStats) :
    s.Same (s'.count f) :=
  ⟨h.now_eq, h.shards_eq, h.source_eq, h.log_eq, h.tickets_eq⟩

/-- See `Shared.Same.count`. -/
theorem Shared.Same.callerCount {s s' : Shared α V cfg} (h : s.Same s') (caller : Caller α V T)
    (completed : Bool) : s.Same (caller.count s' completed) := by
  cases caller with
  | client result => exact h
  | preloader => exact ⟨h.now_eq, h.shards_eq, h.source_eq, h.log_eq, h.tickets_eq⟩
  | leader key flight value => exact h

/-- No ticket moved. -/
theorem Shifts.refl (q : List (Ticket α V)) (before : List (Stage × Ticket α V)) :
    Shifts q q before before :=
  ⟨fun _ => rfl, fun t ht => ⟨t, ht, .inl rfl⟩⟩

/-- A section that is no write, in a thread whose jobs stay where they are. -/
theorem Effect.of_tended {i : Fin cfg.shardCount} {sh' : CacheShard α V T}
    (ht : (s.shards i).Tended s.now sh') (hs : (s.setShard i sh').Same s') :
    Effect hash c s th s' th.flushes :=
  .tend i ht hs.now_eq hs.shards_eq hs.source_eq hs.log_eq (hs.tickets_eq ▸ .refl _ _)

/-- A step that moves tickets only. -/
theorem Effect.of_shifts {after : List (Stage × Ticket α V)} (hnow : s'.now = s.now)
    (hshards : s'.shards = s.shards) (hsource : s'.source = s.source) (hlog : s'.log = s.log)
    (hshift : Shifts s.queue.tickets s'.queue.tickets th.flushes after) :
    Effect hash c s th s' after :=
  .tend ⟨0, cfg.shardCount_pos⟩ (.refl _ _) hnow (by rw [hshards, Function.update_eq_self]) hsource hlog
    hshift

/-- A step that does nothing. -/
theorem Effect.of_same (hs : s.Same s') : Effect hash c s th s' th.flushes :=
  .of_shifts hs.now_eq hs.shards_eq hs.source_eq hs.log_eq (hs.tickets_eq ▸ .refl _ _)

/-- A section on a shard given by its index. -/
theorem Shared.onShard_eq_some {i : ℕ} {f : CacheShard α V T → CacheShard α V T} :
    s.onShard i f = some s' ↔
      ∃ h : i < cfg.shardCount, s' = s.setShard ⟨i, h⟩ (f (s.shards ⟨i, h⟩)) := by
  unfold Shared.onShard
  split_ifs with h
  · exact ⟨fun e => ⟨h, (Option.some.inj e).symm⟩, fun ⟨_, e⟩ => by rw [e]⟩
  · exact ⟨fun e => (by cases e), fun ⟨h', _⟩ => absurd h' h⟩

/-- A refused job that is no flush job, or an accepted one, changes no ticket of the queue. -/
theorem CacheJobQueue.queued_putNowait (q : CacheJobQueue α V T) (n : ℕ) {job : Job α V T}
    (hjob : job.tickets = []) : (q.putNowait n job).queued = q.queued := by
  unfold CacheJobQueue.putNowait
  split_ifs
  · rfl
  · rw [CacheJobQueue.queued_push, hjob, List.append_nil]

theorem CacheJobQueue.tickets_putNowait (q : CacheJobQueue α V T) (n : ℕ) {job : Job α V T}
    (hjob : job.tickets = []) : (q.putNowait n job).tickets = q.tickets := by
  have hlost : (q.putNowait n job).lost = q.lost := by
    unfold CacheJobQueue.putNowait
    split_ifs <;> rfl
  rw [CacheJobQueue.tickets, q.queued_putNowait n hjob, hlost]
  rfl

theorem CacheJobQueue.tickets_offer (q : CacheJobQueue α V T) (n : ℕ) {job : Job α V T}
    (hjob : job.tickets = []) : (q.offer n job).tickets = q.tickets := by
  unfold CacheJobQueue.offer
  split_ifs
  · rfl
  · rw [CacheJobQueue.tickets_push, hjob, List.append_nil]

/-- Stop messages change no ticket of the queue. -/
theorem CacheJobQueue.tickets_stop (q : CacheJobQueue α V T) (n : ℕ) (l : List Unit) :
    (l.foldl (fun q _ => q.offer n .stopWorker) q).tickets = q.tickets := by
  induction l generalizing q with
  | nil => rfl
  | cons u l ih => rw [List.foldl_cons, ih, CacheJobQueue.tickets_offer q n rfl]

@[simp] theorem staged_nil (st : Stage) : staged st ([] : List (Ticket α V)) = [] := rfl

@[simp] theorem staged_cons (st : Stage) (t : Ticket α V) (ts : List (Ticket α V)) :
    staged st (t :: ts) = (st, t) :: staged st ts := rfl

@[simp] theorem staged_append (st : Stage) (ts ts' : List (Ticket α V)) :
    staged st (ts ++ ts') = staged st ts ++ staged st ts' := List.map_append

@[simp] theorem map_snd_staged (st : Stage) (ts : List (Ticket α V)) :
    (staged st ts).map Prod.snd = ts := by
  simp [staged]

@[simp] theorem jobsOf_nil (k : Key α) : jobsOf k ([] : List (Stage × Ticket α V)) = 0 := rfl

/-- The jobs of a concatenation. -/
@[simp] theorem jobsOf_append (k : Key α) (l l' : List (Stage × Ticket α V)) :
    jobsOf k (l ++ l') = jobsOf k l + jobsOf k l' := by
  simp [jobsOf, List.filterMap_append]

/-- The jobs of a list with one more ticket. -/
theorem jobsOf_cons (k : Key α) (x : Stage × Ticket α V) (l : List (Stage × Ticket α V)) :
    jobsOf k (x :: l) = jobsOf k [x] + jobsOf k l := jobsOf_append k [x] l

/-- A thread puts its first tickets into the queue. -/
theorem Shifts.push (q ts ts' : List (Ticket α V)) :
    Shifts q (q ++ ts) (staged .waiting (ts ++ ts')) (staged .waiting ts') where
  jobs_eq k := by rw [staged_append, staged_append, jobsOf_append, jobsOf_append, add_assoc]
  stems t' ht' := by
    refine ⟨t', ?_, .inl rfl⟩
    simp only [List.mem_append, map_snd_staged] at ht' ⊢
    tauto

/-- A worker puts the retry of its ticket into the queue. -/
theorem Shifts.retry (q : List (Ticket α V)) (t : Ticket α V) :
    Shifts q (q ++ [t.retry]) [(.waiting, t)] [] where
  jobs_eq k := by
    rw [staged_append, jobsOf_append, jobsOf_nil, add_zero]
    rfl
  stems t' ht' := by
    simp only [List.mem_append, List.mem_singleton, List.map_nil, List.not_mem_nil, or_false] at ht'
    rcases ht' with ht' | rfl
    · exact ⟨t', .inl ht', .inl rfl⟩
    · exact ⟨t, .inr (by simp), .inr rfl⟩

/-- A worker takes a job from the queue. -/
theorem Shifts.take (lost : List (Ticket α V)) (job : Job α V T) (rest : List (Job α V T)) :
    Shifts (lost ++ (job :: rest).flatMap Job.tickets) (lost ++ rest.flatMap Job.tickets) []
      (Thread.handling job).flushes where
  jobs_eq k := by
    have hjob : jobsOf k (Thread.handling job).flushes = jobsOf k (staged .waiting job.tickets) := by cases job <;> rfl
    rw [hjob, List.flatMap_cons, staged_append, staged_append, staged_append, jobsOf_append, jobsOf_append,
      jobsOf_append, jobsOf_nil, add_zero, add_assoc, add_comm (jobsOf k (staged .waiting job.tickets))]
  stems t ht := by
    refine ⟨t, .inl ?_, .inl rfl⟩
    rw [List.flatMap_cons, List.mem_append, List.mem_append]
    rcases ht with ht | ht
    · exact (List.mem_append.mp ht).imp_right .inr
    · right
      left
      cases job <;> simp_all [Thread.flushes, Job.tickets]

/-- The order of the tickets in the queue does not matter. -/
theorem Shifts.of_perm {q q' q'' : List (Ticket α V)} {before after : List (Stage × Ticket α V)}
    (h : Shifts q q' before after) (hperm : q''.Perm q') : Shifts q q'' before after where
  jobs_eq k := by
    rw [← h.jobs_eq k]
    have hmap : (staged .waiting q'').Perm (staged .waiting q') := hperm.map _
    rw [show jobsOf k (staged .waiting q'') = jobsOf k (staged .waiting q') from
      Multiset.coe_eq_coe.mpr (hmap.filterMap _)]
  stems t ht := h.stems t (ht.imp_left hperm.mem_iff.mp)

/-- Losing jobs leaves the rest of the state alone, and the jobs stay outstanding. -/
theorem Shared.lose_spec (s : Shared α V cfg) (ts : List (Ticket α V)) :
    (s.lose ts).now = s.now ∧ (s.lose ts).shards = s.shards ∧ (s.lose ts).source = s.source ∧
      (s.lose ts).log = s.log ∧ (s.lose ts).queue.tickets.Perm (s.queue.tickets ++ ts) := by
  refine ⟨rfl, rfl, rfl, rfl, ?_⟩
  unfold Shared.lose
  split_ifs
  · exact CacheJobQueue.tickets_lose _ ts
  · exact CacheJobQueue.tickets_lose _ ts

/-- An unbounded queue takes every job. -/
theorem Shared.rejects_of_unbounded (hsize : cfg.queueSize = 0) (s : Shared α V cfg)
    (c : Choice α V) (t : Ticket α V) :
    s.rejects c t = false := by
  simp [Shared.rejects, CacheConfig.rejectsPuts, CacheJobQueue.full, hsize]

/-- Losing jobs leaves what is in the queue alone. -/
@[simp] theorem Shared.items_lose (s : Shared α V cfg) (ts : List (Ticket α V)) :
    (s.lose ts).queue.items = s.queue.items := by
  unfold Shared.lose
  split_ifs <;> rfl

@[simp] theorem Shared.queued_lose (s : Shared α V cfg) (ts : List (Ticket α V)) :
    (s.lose ts).queue.queued = s.queue.queued :=
  congrArg (fun items => items.flatMap Job.tickets) (s.items_lose ts)

@[simp] theorem Shared.unfinishedTasks_lose (s : Shared α V cfg) (ts : List (Ticket α V)) :
    (s.lose ts).queue.unfinishedTasks = s.queue.unfinishedTasks := by
  unfold Shared.lose
  split_ifs <;> rfl

theorem Shared.dropped_lose (s : Shared α V cfg) (ts : List (Ticket α V)) :
    s.queue.dropped ≤ (s.lose ts).queue.dropped := by
  unfold Shared.lose
  split_ifs
  · exact le_rfl
  · exact Nat.le_succ _

/-- A thread loses all its jobs. -/
theorem Effect.of_lost {ts : List (Ticket α V)} (hth : th.flushes = staged .waiting ts)
    (hs : (s.lose ts).Same s') : Effect hash c s th s' [] := by
  refine .of_shifts hs.now_eq hs.shards_eq hs.source_eq hs.log_eq ?_
  rw [hs.tickets_eq, hth]
  have hpush := Shifts.push s.queue.tickets ts []
  rw [List.append_nil] at hpush
  exact hpush.of_perm (s.lose_spec ts).2.2.2.2

end Facts

/-! ### The effect of a step -/

section Inversion

variable {s s' : Shared α V cfg} {hash : Key α → ℕ} {c : Choice α V} {th th' : Thread α V T}

/-- A caller that got an answer holds no jobs. -/
@[simp] theorem Caller.flushes_returned (caller : Caller α V T) :
    (caller.returned : Thread α V T).flushes = [] := by
  cases caller <;> rfl

@[simp] theorem Caller.flushes_raised (caller : Caller α V T) (exn : Exn) :
    (caller.raised exn : Thread α V T).flushes = [] := by
  cases caller with
  | client result => rfl
  | preloader => rfl
  | leader key flight value => cases exn <;> rfl

/-- Enqueuing starts with the jobs it is given. -/
theorem enqueueOr_spec {ts : List (Ticket α V)} {caller : Caller α V T}
    (h : enqueueOr s ts caller = (s', th')) : s.Same s' ∧ th'.flushes = staged .waiting ts := by
  cases ts with
  | nil =>
      cases h
      exact ⟨(Shared.Same.refl s).callerCount caller true, caller.flushes_returned⟩
  | cons t ts =>
      cases h
      exact ⟨.refl s, rfl⟩

/-- A put that raises leaves no jobs. -/
theorem putSection_raised {key : Key α} {value : V} {ttl : Ttl T} {ok : Bool}
    (h : (s.putSection hash key value ttl ok).2.2 = true) :
    (s.putSection hash key value ttl ok).2.1 = [] := by
  simp only [Shared.putSection, CacheShard.putLocked] at h ⊢
  split_ifs at h ⊢
  rfl

/-- A delete that raises leaves no jobs. -/
theorem deleteSection_raised {key : Key α} {ok : Bool}
    (h : (s.deleteSection hash key ok).2.2 = true) : (s.deleteSection hash key ok).2.1 = [] := by
  simp only [Shared.deleteSection, CacheShard.deleteLocked] at h ⊢
  split_ifs at h ⊢
  · rfl
  · cases h

/-- A waiter goes on with what it finds in its flight once the event is set. -/
theorem waiting_cases {flight : ℕ} (h : clientStep hash s c (.waiting flight) = some (s', th')) :
    s' = s ∧ ∃ result, th' = .finished result ∧
      ∃ f, s.flights[flight]? = some f ∧ f.event = true ∧ result = f.outcome := by
  simp only [clientStep] at h
  split at h
  · cases h
  · next f hf =>
      split_ifs at h with he
      cases h
      exact ⟨rfl, f.outcome, rfl, f, hf, he, rfl⟩

/-- A call that is about to start: it raises, goes on, or starts to close. -/
theorem entering_cases {op : Op α V T} {caller : Caller α V T}
    (h : clientStep hash s c (.entering op caller) = some (s', th')) :
    (s' = caller.count s false ∧ (∃ exn, th' = caller.raised exn) ∧ ∀ flush, op ≠ .close flush) ∨
      (s' = s ∧ th' = .running op caller ∧ s.lifecycle ≠ .closing ∧ s.lifecycle ≠ .closed ∧
        s.lifecycle ≠ .abandoned ∧ ∀ flush, op ≠ .close flush) ∨
      (s' = s ∧ th' = .finished .done ∧ ∃ flush, op = .close flush) ∨
      (s' = { s with lifecycle := .closing } ∧ s.lifecycle ≠ .closing ∧ s.lifecycle ≠ .closed ∧
        ∃ flush, op = .close flush ∧
          th' = if flush.getD cfg.shutdownFlush ∧ cfg.writeMode = .writeBack then .closeCollect 0
            else .closeStop false) := by
  by_cases hop : ∃ flush, op = .close flush
  · obtain ⟨flush, rfl⟩ := hop
    simp only [clientStep] at h
    cases hl : s.lifecycle <;> simp only [hl, Option.some.injEq, Prod.mk.injEq, reduceCtorEq] at h
    · exact .inr (.inr (.inr ⟨h.1.symm, by simp, by simp, flush, rfl, h.2.symm⟩))
    · exact .inr (.inr (.inr ⟨h.1.symm, by simp, by simp, flush, rfl, h.2.symm⟩))
    · exact .inr (.inr (.inr ⟨h.1.symm, by simp, by simp, flush, rfl, h.2.symm⟩))
    · exact .inr (.inr (.inl ⟨h.1.symm, h.2.symm, flush, rfl⟩))
  · have hne : ∀ flush, op ≠ .close flush := fun flush e => hop ⟨flush, e⟩
    rw [clientStep_entering hne] at h
    cases hl : s.lifecycle <;> simp only [hl, reduceCtorEq] at h
    · cases hp : op.precheck cfg <;> simp only [hp, Option.some.injEq, Prod.mk.injEq] at h
      · exact .inr (.inl ⟨h.1.symm, h.2.symm, by simp, by simp, by simp, hne⟩)
      · exact .inl ⟨h.1.symm, ⟨_, h.2.symm⟩, hne⟩
    · cases hp : op.precheck cfg <;> simp only [hp, Option.some.injEq, Prod.mk.injEq] at h
      · exact .inr (.inl ⟨h.1.symm, h.2.symm, by simp, by simp, by simp, hne⟩)
      · exact .inl ⟨h.1.symm, ⟨_, h.2.symm⟩, hne⟩
    · simp only [Option.some.injEq, Prod.mk.injEq] at h
      exact .inl ⟨h.1.symm, ⟨_, h.2.symm⟩, hne⟩
    · simp only [Option.some.injEq, Prod.mk.injEq] at h
      exact .inl ⟨h.1.symm, ⟨_, h.2.symm⟩, hne⟩

/-- The section of a put and the jobs it leaves. -/
theorem clientStep_put {key : Key α} {value : V} {ttl : Ttl T} {caller : Caller α V T}
    (h : clientStep hash s c (.running (.put key value ttl) caller) = some (s', th')) :
    (s.putSection hash key value ttl (c.ok key)).1.Same s' ∧
      th'.flushes = staged .waiting (s.putSection hash key value ttl (c.ok key)).2.1 := by
  simp only [clientStep] at h
  split_ifs at h with hr
  · cases h
    rw [putSection_raised hr, Caller.flushes_raised]
    exact ⟨(Shared.Same.refl _).callerCount caller false, rfl⟩
  · exact enqueueOr_spec (Option.some.inj h)

/-- What a step inside a public operation does. -/
theorem clientStep_effect (h : clientStep hash s c th = some (s', th')) :
    Effect hash c s th s' th'.flushes := by
  have hsame := Shared.Same.refl s
  cases th with
  | entering op caller =>
      rcases entering_cases h with ⟨rfl, ⟨exn, rfl⟩, -⟩ | ⟨rfl, rfl, -⟩ | ⟨rfl, rfl, -⟩ |
        ⟨rfl, -, -, flush, -, rfl⟩
      · rw [Caller.flushes_raised]
        exact .of_same (hsame.callerCount caller false)
      · exact .of_same hsame
      · exact .of_same hsame
      · split_ifs <;> exact .of_same ⟨rfl, rfl, rfl, rfl, rfl⟩
  | running op caller =>
      cases op with
      | get key =>
          cases h
          exact .of_tended (CacheShard.tended_readValueLocked _ key true true s.now) (.refl _)
      | contains key =>
          cases h
          exact .of_tended (CacheShard.tended_readValueLocked _ key false true s.now) (.refl _)
      | inspect key =>
          cases h
          exact .of_tended (CacheShard.tended_inspectLocked _ key s.now) (.refl _)
      | put key value ttl =>
          obtain ⟨hs, hf⟩ := clientStep_put h
          rw [hf]
          exact .put key value ttl caller rfl hs
      | delete key =>
          simp only [clientStep] at h
          split_ifs at h with hr
          · cases h
            have heff : Effect hash c s (.running (.delete key) caller) _ _ :=
              .delete key (c.ok key) rfl (.refl _)
            rw [deleteSection_raised hr] at heff
            exact heff
          · obtain ⟨hs, hf⟩ := enqueueOr_spec (Option.some.inj h)
            rw [hf]
            exact .delete key (c.ok key) rfl hs
      | clear => cases h; exact .of_same hsame
      | size => cases h; exact .of_same hsame
      | dump limit => cases h; exact .of_same hsame
      | expireAll => cases h; exact .of_same hsame
      | getOrCompute key ttl =>
          have ht := CacheShard.tended_getOrComputeLocked (s.shards (shardFor cfg hash key)) key s.now
            s.flights.length
          simp only [clientStep] at h
          split at h <;> cases h <;> exact .of_tended ht ⟨rfl, rfl, rfl, rfl, rfl⟩
      | preload key ttl =>
          cases h
          exact .of_same ⟨rfl, rfl, rfl, rfl, CacheJobQueue.tickets_putNowait _ _ rfl⟩
      | requestSnapshot id =>
          cases h
          exact .of_same ⟨rfl, rfl, rfl, rfl, CacheJobQueue.tickets_putNowait _ _ rfl⟩
      | restoreEntryMetadata key n =>
          cases h
          exact .of_tended (CacheShard.tended_restoreEntryMetadata _ key n s.now) (.refl _)
      | close flush => cases h
  | clearing i ts =>
      simp only [clientStep] at h
      split_ifs at h with hi hr
      · cases h
        have heff : Effect hash c s (.clearing i ts) _ _ := .clear ⟨i, hi⟩ c.ok ts rfl (.refl _)
        rwa [if_pos hr] at heff
      · cases h
        have heff : Effect hash c s (.clearing i ts) _ _ := .clear ⟨i, hi⟩ c.ok ts rfl (.refl _)
        rwa [if_neg hr] at heff
      · obtain ⟨hs, hf⟩ := enqueueOr_spec (Option.some.inj h)
        rw [hf]
        exact .of_same hs
  | sizing i total =>
      simp only [clientStep] at h
      split_ifs at h <;> cases h <;> exact .of_same hsame
  | dumping i taken limit =>
      simp only [clientStep] at h
      split_ifs at h with hi
      · cases h
        exact .of_tended (CacheShard.tended_dumpLocked _ s.now) (.refl _)
      · cases h
        exact .of_same hsame
  | expiring i removed =>
      simp only [clientStep] at h
      split_ifs at h with hi
      · cases h
        exact .of_tended (CacheShard.tended_expireShard _ s.now) (.refl _)
      · cases h
        exact .of_same hsame
  | enqueuing ts caller =>
      cases ts with
      | nil =>
          cases h
          rw [Caller.flushes_returned]
          exact .of_same (hsame.callerCount caller true)
      | cons t ts =>
          simp only [clientStep] at h
          split_ifs at h with hrej hfull
          · cases h
            rw [Caller.flushes_raised]
            exact .of_lost rfl ((Shared.Same.refl _).callerCount caller false)
          · cases h
            refine .giveUp (t :: ts) rfl ?_ ⟨rfl, rfl, rfl, rfl, rfl⟩
            exact hfull
          · obtain ⟨hs, hf⟩ := enqueueOr_spec (Option.some.inj h)
            rw [hf]
            refine .of_shifts hs.now_eq hs.shards_eq hs.source_eq hs.log_eq ?_
            rw [hs.tickets_eq, CacheJobQueue.tickets_push]
            exact .push _ [t] ts
  | releasing ts caller =>
      cases ts with
      | nil =>
          cases h
          rw [Caller.flushes_raised]
          exact .of_same (hsame.callerCount caller false)
      | cons t ts =>
          obtain ⟨s₁, hs₁, heq⟩ := Option.map_eq_some_iff.mp h
          obtain ⟨hlt, rfl⟩ := Shared.onShard_eq_some.mp hs₁
          cases heq
          exact .release t ts rfl rfl ⟨_, hlt⟩ rfl (.refl _)
  | leading key ttl flight =>
      cases h
      exact .of_same hsame
  | loading key ttl flight =>
      simp only [clientStep] at h
      split at h <;> cases h <;> exact .of_same hsame
  | publishing key flight value =>
      cases h
      exact .of_tended (CacheShard.tended_unregisterFlight _ key s.now) ⟨rfl, rfl, rfl, rfl, rfl⟩
  | failing key flight exn =>
      cases h
      exact .of_tended (CacheShard.tended_unregisterFlight _ key s.now) ⟨rfl, rfl, rfl, rfl, rfl⟩
  | waiting flight =>
      obtain ⟨rfl, result, rfl, -⟩ := waiting_cases h
      exact .of_same hsame
  | _ => cases h

/-- What a step of a worker does. -/
theorem workerStep_effect (h : workerStep s c th = some (s', th')) :
    Effect hash c s th s' th'.flushes := by
  have hsame := Shared.Same.refl s
  cases th with
  | idle =>
      simp only [workerStep] at h
      split at h
      · next job rest hq =>
          cases h
          refine .of_shifts rfl rfl rfl rfl ?_
          rw [CacheJobQueue.tickets, CacheJobQueue.queued, hq]
          exact .take _ job rest
      · split_ifs at h
        cases h
        exact .of_same hsame
  | handling job =>
      cases job with
      | stopWorker =>
          cases h
          exact .of_same ⟨rfl, rfl, rfl, rfl, rfl⟩
      | expireShard i =>
          obtain ⟨s₁, hs₁, heq⟩ := Option.map_eq_some_iff.mp h
          obtain ⟨hlt, rfl⟩ := Shared.onShard_eq_some.mp hs₁
          cases heq
          exact .of_tended (CacheShard.tended_expireShard _ s.now) ((Shared.Same.refl _).count _)
      | snapshotStats id =>
          cases h
          exact .of_same (hsame.count _)
      | preloadKey i key ttl =>
          simp only [workerStep] at h
          split at h <;> cases h
          · exact .of_same (hsame.count _)
          · exact .of_same hsame
      | flushWriteBack t =>
          simp only [workerStep] at h
          split_ifs at h with hlt hst
          · cases h
            exact .skip t rfl rfl ⟨_, hlt⟩ rfl hst ((Shared.Same.refl _).count _)
          · cases h
            exact .check t rfl ⟨_, hlt⟩ rfl (by simpa using hst) hsame
  | checked t =>
      simp only [workerStep] at h
      split_ifs at h with hok
      · cases h
        exact .apply t rfl hok (.refl _)
      · cases h
        exact .fail t rfl hsame
  | failed t =>
      simp only [workerStep] at h
      split_ifs at h with hleft hrej hfull
      · cases h
        refine .of_shifts rfl rfl rfl rfl ?_
        exact (Shifts.retry _ t).of_perm (s.lose_spec [t.retry]).2.2.2.2
      · cases h
        exact .giveUp [t] rfl (by simp [Thread.givesUp, hfull]) ⟨rfl, rfl, rfl, rfl, rfl⟩
      · cases h
        refine .of_shifts rfl rfl rfl rfl ?_
        show Shifts _ (s.queue.push (.flushWriteBack t.retry)).tickets _ _
        rw [CacheJobQueue.tickets_push]
        exact .retry _ t
      · cases h
        exact .giveUp [t] rfl (by simp [Thread.givesUp, Nat.eq_zero_of_not_pos hleft]) (hsame.count _)
  | dropped t =>
      obtain ⟨s₁, hs₁, heq⟩ := Option.map_eq_some_iff.mp h
      obtain ⟨hlt, rfl⟩ := Shared.onShard_eq_some.mp hs₁
      cases heq
      exact .release t [] rfl rfl ⟨_, hlt⟩ rfl ((Shared.Same.refl _).count _)
  | landed t =>
      obtain ⟨s₁, hs₁, heq⟩ := Option.map_eq_some_iff.mp h
      obtain ⟨hlt, rfl⟩ := Shared.onShard_eq_some.mp hs₁
      cases heq
      exact .settle t rfl rfl ⟨_, hlt⟩ rfl ((Shared.Same.refl _).count _)
  | finishing =>
      cases h
      exact .of_same ⟨rfl, rfl, rfl, rfl, rfl⟩
  | _ => cases h

/-- After the last job of a shard no jobs are held. -/
@[simp] theorem flushes_closeNext (cfg : AcceptedConfig T) (i : ℕ) :
    (closeNext cfg i : Thread α V T).flushes = [] := by
  unfold closeNext
  split_ifs <;> rfl

/-- What a step of `close` does before it flushes synchronously. -/
theorem closeStep_effect (h : closeStep s c th = some (s', th')) (hw : th.winding = false)
    (hp : th.Placed) (hd : th.flushing = true → cfg.writeMode = .writeBack) :
    Effect hash c s th s' th'.flushes := by
  have hsame := Shared.Same.refl s
  cases th with
  | closeCollect i =>
      simp only [closeStep] at h
      split_ifs at h with hlt
      cases h
      exact .collect ⟨i, hlt⟩ rfl (hd rfl) (.refl _)
  | closeEnqueue i ts =>
      cases ts with
      | nil =>
          cases h
          rw [flushes_closeNext]
          exact .of_same hsame
      | cons t ts =>
          simp only [closeStep] at h
          split_ifs at h with hrej hfull
          · cases h
            exact .of_lost rfl ⟨rfl, rfl, rfl, rfl, rfl⟩
          · cases h
            refine .giveUp (t :: ts) rfl ?_ ⟨rfl, rfl, rfl, rfl, rfl⟩
            exact hfull
          · cases h
            refine .of_shifts rfl rfl rfl rfl ?_
            show Shifts _ (s.queue.push (.flushWriteBack t)).tickets _ _
            rw [CacheJobQueue.tickets_push]
            exact .push _ [t] ts
  | closeRelease i ts =>
      cases ts with
      | nil =>
          cases h
          rw [flushes_closeNext]
          exact .of_same hsame
      | cons t ts =>
          obtain ⟨s₁, hs₁, heq⟩ := Option.map_eq_some_iff.mp h
          obtain ⟨hlt, rfl⟩ := Shared.onShard_eq_some.mp hs₁
          cases heq
          exact .release t ts rfl rfl ⟨i, hlt⟩ (hp t List.mem_cons_self) (.refl _)
  | closeJoin =>
      simp only [closeStep] at h
      split_ifs at h <;> cases h <;> exact .of_same hsame
  | closeStop failed =>
      simp only [closeStep] at h
      split_ifs at h
      · cases h
        exact .of_same ⟨rfl, rfl, rfl, rfl, CacheJobQueue.tickets_stop _ _ _⟩
      · cases h
        exact .of_same hsame
  | syncCollect i failed => cases hw
  | syncNext i ts failed => cases hw
  | syncTry i t left ts failed => cases hw
  | syncClean i t ts failed => cases hw
  | syncSettle i t success ts failed => cases hw
  | closeDrain failed => cases hw
  | _ => cases h

/-- Bookkeeping in one shard, nothing else. -/
theorem Wound.of_sameData (i : Fin cfg.shardCount) {sh' : CacheShard α V T} {flushing : Bool}
    (hd : (s.shards i).SameData sh')
    (he : ∀ k, (s.shards i).slot k = ⟨none, none, none, none⟩ → sh'.slot k = ⟨none, none, none, none⟩)
    (hs : (s.setShard i sh').Same s') : Wound s s' flushing :=
  ⟨hs.now_eq, ⟨i, sh', hs.shards_eq, hd, he⟩, .inl ⟨hs.source_eq, hs.log_eq⟩,
    fun _ ht => hs.tickets_eq ▸ ht⟩

/-- A winding step that touches no shard and no source. -/
theorem Wound.of_frame {flushing : Bool} (hnow : s'.now = s.now) (hshards : s'.shards = s.shards)
    (hsource : s'.source = s.source) (hlog : s'.log = s.log)
    (ht : ∀ t ∈ s'.queue.tickets, t ∈ s.queue.tickets) : Wound s s' flushing :=
  ⟨hnow, ⟨⟨0, cfg.shardCount_pos⟩, _, by rw [hshards, Function.update_eq_self], .refl _, fun _ h => h⟩,
    .inl ⟨hsource, hlog⟩, ht⟩

/-- Clearing the pending count of a key leaves empty slots empty. -/
theorem CacheShard.slot_clearPendingFlushesLocked_of_empty (sh : CacheShard α V T) (key k : Key α)
    (h : sh.slot k = ⟨none, none, none, none⟩) :
    (sh.clearPendingFlushesLocked key).slot k = ⟨none, none, none, none⟩ := by
  rw [CacheShard.slot_clearPendingFlushesLocked]
  by_cases hk : k = key
  · subst hk
    rw [Function.update_self, h]
    rfl
  · rw [Function.update_of_ne hk, h]

/-- Marking an entry clean leaves empty slots empty. -/
theorem CacheShard.slot_markCleanLocked_of_empty (sh : CacheShard α V T) (job : FlushWriteBack α V)
    (k : Key α) (h : sh.slot k = ⟨none, none, none, none⟩) :
    (sh.markCleanLocked job).slot k = ⟨none, none, none, none⟩ := by
  rw [CacheShard.slot_markCleanLocked]
  by_cases hk : k = job.key
  · subst hk
    rw [Function.update_self, h]
    cases job.operation <;> rfl
  · rw [Function.update_of_ne hk, h]

/-- What a winding step does. -/
theorem closeStep_wound (h : closeStep s c th = some (s', th')) (hw : th.winding = true) :
    Wound s s' th.flushing ∧ th.flushes = [] ∧ th'.flushes = [] := by
  cases th with
  | syncCollect i failed =>
      simp only [closeStep] at h
      split_ifs at h <;> cases h <;>
        exact ⟨.of_frame rfl rfl rfl rfl fun t ht => ht, rfl, rfl⟩
  | syncNext i ts failed =>
      cases ts with
      | nil =>
          cases h
          exact ⟨.of_frame rfl rfl rfl rfl fun t ht => ht, rfl, rfl⟩
      | cons t ts =>
          simp only [closeStep] at h
          split_ifs at h with hlt hst <;> cases h
          · exact ⟨.of_sameData ⟨i, hlt⟩ (CacheShard.sameData_clearPendingFlushesLocked _ t.job.key)
              (fun k => CacheShard.slot_clearPendingFlushesLocked_of_empty _ t.job.key k)
              ((Shared.Same.refl _).count _), rfl, rfl⟩
          · exact ⟨.of_frame rfl rfl rfl rfl fun t ht => ht, rfl, rfl⟩
  | syncTry i t left ts failed =>
      simp only [closeStep] at h
      split_ifs at h
      · cases h
        refine ⟨⟨rfl, ⟨⟨0, cfg.shardCount_pos⟩, _, (Function.update_eq_self _ _).symm, .refl _, fun _ h => h⟩,
          .inr ⟨rfl, t, rfl, rfl⟩, fun t ht => ht⟩, rfl, ?_⟩
        cases t.job.operation <;> rfl
      · cases left with
        | zero =>
            cases h
            exact ⟨.of_frame rfl rfl rfl rfl fun t ht => ht, rfl, rfl⟩
        | succ left =>
            cases h
            exact ⟨.of_frame rfl rfl rfl rfl fun t ht => ht, rfl, rfl⟩
  | syncClean i t ts failed =>
      obtain ⟨s₁, hs₁, heq⟩ := Option.map_eq_some_iff.mp h
      obtain ⟨hlt, rfl⟩ := Shared.onShard_eq_some.mp hs₁
      cases heq
      exact ⟨.of_sameData ⟨i, hlt⟩ (CacheShard.sameData_markCleanLocked _ t.job)
        (CacheShard.slot_markCleanLocked_of_empty _ t.job) (.refl _), rfl, rfl⟩
  | syncSettle i t success ts failed =>
      obtain ⟨s₁, hs₁, heq⟩ := Option.map_eq_some_iff.mp h
      obtain ⟨hlt, rfl⟩ := Shared.onShard_eq_some.mp hs₁
      cases heq
      refine ⟨.of_sameData ⟨i, hlt⟩ (CacheShard.sameData_clearPendingFlushesLocked _ t.job.key)
        (fun k => CacheShard.slot_clearPendingFlushesLocked_of_empty _ t.job.key k) ?_, rfl, rfl⟩
      split_ifs
      · exact .refl _
      · exact (Shared.Same.refl _).count _
  | closeDrain failed =>
      cases h
      refine ⟨.of_frame rfl rfl rfl rfl fun t ht => ?_, rfl, rfl⟩
      simp only [CacheJobQueue.tickets, CacheJobQueue.queued, CacheJobQueue.drain, List.flatMap_nil,
        List.append_nil] at ht
      exact List.mem_append_left _ ht
  | _ => cases hw

/-- A step of a thread is a step of one of its three kinds. -/
theorem threadStep_cases (h : threadStep hash s c th = some (s', th')) :
    clientStep hash s c th = some (s', th') ∨ workerStep s c th = some (s', th') ∨
      closeStep s c th = some (s', th') := by
  unfold threadStep at h
  cases hc : clientStep hash s c th with
  | some r =>
      rw [hc] at h
      exact .inl h
  | none =>
      rw [hc] at h
      cases hw : workerStep s c th with
      | some r =>
          rw [hw] at h
          exact .inr (.inl h)
      | none =>
          rw [hw] at h
          exact .inr (.inr h)

/-- A step of a thread that is no worker's and not inside `close` is one of a public call. -/
theorem clientStep_of_threadStep (h : threadStep hash s c th = some (s', th')) (hworker : workerStep s c th = none)
    (hclose : closeStep s c th = none) : clientStep hash s c th = some (s', th') := by
  rcases threadStep_cases h with h | h | h
  · exact h
  · rw [hworker] at h
    cases h
  · rw [hclose] at h
    cases h

/-- A thread that runs a put takes the section of that put. -/
theorem threadStep_put {key : Key α} {value : V} {ttl : Ttl T} {caller : Caller α V T}
    (h : threadStep hash s c (.running (.put key value ttl) caller) = some (s', th')) :
    (s.putSection hash key value ttl (c.ok key)).1.Same s' ∧
      th'.flushes = staged .waiting (s.putSection hash key value ttl (c.ok key)).2.1 :=
  clientStep_put (clientStep_of_threadStep h rfl rfl)

/-- **What one step of a thread does**: an effect of the protocol, or a winding step. -/
theorem threadStep_effect (h : threadStep hash s c th = some (s', th')) (hp : th.Placed)
    (hd : th.flushing = true → cfg.writeMode = .writeBack) :
    (th.winding = false ∧ Effect hash c s th s' th'.flushes) ∨
      (th.winding = true ∧ Wound s s' th.flushing ∧ th.flushes = [] ∧ th'.flushes = []) := by
  cases hw : th.winding with
  | false =>
      refine .inl ⟨rfl, ?_⟩
      rcases threadStep_cases h with h | h | h
      · exact clientStep_effect h
      · exact workerStep_effect h
      · exact closeStep_effect h hw hp hd
  | true =>
      refine .inr ⟨rfl, ?_⟩
      rcases threadStep_cases h with h | h | h
      · cases th <;> first | (cases hw; done) | cases h
      · cases th <;> first | (cases hw; done) | cases h
      · exact closeStep_wound h hw

end Inversion

end CacheLab
