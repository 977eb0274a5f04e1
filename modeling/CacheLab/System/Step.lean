import CacheLab.System.State
import CacheLab.Lib.Transition

/-!
# The steps of a running cache

`step cfg hash s l` is the state after the label `l`, `none` when `l` is not enabled in `s`. A label
advances the clock, calls an operation, starts the cache, lets the scheduler queue a sweep, or lets
one thread take its next atomic step; a `Choice` fixes what the environment decides in that step
(which source calls succeed, what a loader returns, whether a timed wait gives up).

The functions below follow the source operation by operation: `clientStep` the public calls,
`workerStep` the loop of a worker and its job handlers, `closeStep` the shutdown.
-/

set_option linter.unusedSectionVars false

namespace CacheLab

variable {α V T : Type} [DecidableEq α] [LinearOrder T] [Zero T] [Add T] [Sub T]

/-- The decisions of the environment in one step of a thread. -/
structure Choice (α V : Type) where
  /-- Which calls on the source backend succeed. -/
  ok : Key α → Bool := fun _ => true
  /-- What a loader returns; `none` is an exception. The loader itself is one step: what it calls on the cache are
  calls of other threads, and that it waits for them comes in `Concurrency.LoaderCalls`. -/
  loaded : Option V := none
  /-- The exception of a loader that raises. -/
  exception : ℕ := 0
  /-- Whether `join_until` gives up with unfinished tasks. -/
  timeout : Bool := false
  /-- Which values can be written as text: `repr` of the others raises. -/
  prints : V → Bool := fun _ => true

/-- A step of the system. -/
inductive Label (α V T : Type)
  | tick (now : T)
  | start
  | call (op : Op α V T)
  | schedule (shard : ℕ)
  | run (thread : ℕ) (choice : Choice α V)

variable {cfg : AcceptedConfig T}

namespace Shared

/-- Replace one shard. -/
def setShard (s : Shared α V cfg) (i : Fin cfg.shardCount) (sh : CacheShard α V T) : Shared α V cfg :=
  { s with shards := Function.update s.shards i sh }

/-- Run a section on the shard with the given index. -/
def onShard (s : Shared α V cfg) (i : ℕ) (f : CacheShard α V T → CacheShard α V T) :
    Option (Shared α V cfg) :=
  if h : i < cfg.shardCount then some (s.setShard ⟨i, h⟩ (f (s.shards ⟨i, h⟩))) else none

/-- Note events, the first one first. -/
def emit (s : Shared α V cfg) (events : List (Event α V T)) : Shared α V cfg :=
  { s with log := events.reverse ++ s.log }

/-- Count in the runtime statistics.
Source: `core/cache.py` `Cache._inc_runtime` -/
def count (s : Shared α V cfg) (f : RuntimeStats → RuntimeStats) : Shared α V cfg :=
  { s with runtime := f s.runtime }

/-- Write into a flight what its leader got and set the event.
Source: `core/cache.py` `Cache.get_or_compute`, `Cache._fail_flight_locked` -/
def land (s : Shared α V cfg) (flight : ℕ) (outcome : Flight V → Flight V) : Shared α V cfg :=
  { s with flights := s.flights.modify flight fun f => { outcome f with event := true } }

/-- Enqueuing a flush job raises `ValueError`: the queue rejects the timeout, or it is full and there is no text for the
`QueueBackpressureError`, because `repr` of the value of the job raises.
Source: `core/cache.py` `Cache._enqueue_job` -/
def rejects (s : Shared α V cfg) (c : Choice α V) (t : Ticket α V) : Bool :=
  cfg.rejectsPuts || (s.queue.full cfg.queueSize &&
    match t.job.operation with
    | .put v => !c.prints v
    | .delete => false)

/-- The jobs are lost when enqueuing the first one raised. A full queue has counted the refusal.
Source: `core/cache.py` `Cache._enqueue_flush_jobs` -/
def lose (s : Shared α V cfg) (ts : List (Ticket α V)) : Shared α V cfg :=
  { s with queue := (if cfg.rejectsPuts then s.queue else s.queue.drop).lose ts }

/-- The keys of `before` that are gone in `after`. -/
def gone (before after : CacheShard α V T) : List (Key α) :=
  before.backend.keys.filter fun k => k ∉ after.backend.keys

/-- The lock section of a put, with its events and its flush jobs. -/
def putSection (hash : Key α → ℕ) (s : Shared α V cfg) (key : Key α) (value : V) (ttl : Ttl T)
    (ok : Bool) : Shared α V cfg × List (Ticket α V) × Bool :=
  let i := shardFor cfg hash key
  let sh := s.shards i
  let r := sh.putLocked cfg.toCacheConfig s.source key value ttl s.now ok
  let evicted := gone ((sh.dropExpired key s.now).storeLocked cfg.toCacheConfig key value ttl s.now)
    r.shard
  let events := if r.raised then [] else Event.stored key value ttl s.now :: evicted.map .evicted
  (({ s with source := r.source }.setShard i r.shard).emit events, ticketsFrom s.log.length r.jobs,
    r.raised)

/-- The lock section of a delete, with its event and its flush job. -/
def deleteSection (hash : Key α → ℕ) (s : Shared α V cfg) (key : Key α) (ok : Bool) :
    Shared α V cfg × List (Ticket α V) × Bool :=
  let i := shardFor cfg hash key
  let r := (s.shards i).deleteLocked cfg.toCacheConfig s.source key ok
  let events := if r.raised then [] else [Event.erased key]
  (({ s with source := r.source }.setShard i r.shard).emit events, ticketsFrom s.log.length r.jobs,
    r.raised)

/-- The lock section of a clear on one shard, with its events and its flush jobs. -/
def clearSection (s : Shared α V cfg) (i : Fin cfg.shardCount) (ok : Key α → Bool) :
    Shared α V cfg × List (Ticket α V) × Bool :=
  let r := (s.shards i).clearLocked cfg.toCacheConfig s.source ok
  let events := (gone (s.shards i) r.shard).map .erased ++ if r.raised then [] else [Event.cleared i]
  (({ s with source := r.source }.setShard i r.shard).emit events, ticketsFrom s.log.length r.jobs,
    r.raised)

end Shared

/-- Where a put continues when it returned. -/
def Caller.returned : Caller α V T → Thread α V T
  | client result => .finished result
  | preloader => .finishing
  | leader key flight value => .publishing key flight value

/-- Where a put continues when it raised. The leader of a flight swallows backpressure.
Source: `core/cache.py` `Cache.get_or_compute` -/
def Caller.raised : Caller α V T → Exn → Thread α V T
  | client _, exn => .finished (.raised exn)
  | preloader, _ => .finishing
  | leader key flight value, .queueBackpressure => .publishing key flight value
  | leader key flight _, exn => .failing key flight exn

/-- A worker whose handler is over counts its job as completed or failed. -/
def Caller.count (s : Shared α V cfg) (completed : Bool) : Caller α V T → Shared α V cfg
  | preloader =>
      s.count fun r =>
        if completed then { r with workerJobsCompleted := r.workerJobsCompleted + 1 }
        else { r with workerJobsFailed := r.workerJobsFailed + 1 }
  | _ => s

/-- Whether an operation passes its argument checks, and the exception when it does not.
Source: `Cache._validate_explicit_ttl`, `Cache._require_workers` in `core/cache.py` -/
def Op.precheck (cfg : AcceptedConfig T) : Op α V T → Option Exn
  | put _ _ ttl => if validExplicitTtl ttl then none else some .validation
  | getOrCompute _ ttl => if validExplicitTtl ttl then none else some .validation
  | preload _ ttl =>
      if validExplicitTtl ttl = false then some .validation
      else if cfg.workerCount = 0 then some .requiresWorkers else none
  | requestSnapshot _ => if cfg.workerCount = 0 then some .requiresWorkers else none
  | _ => none

/-- The slice `xs[:limit]`; a negative limit counts from the end.
Source: `core/cache.py` `Cache.dump` -/
def upTo {β : Type} (limit : Option ℤ) (xs : List β) : List β :=
  match limit with
  | none => xs
  | some n => xs.take (if 0 ≤ n then n else xs.length + n).toNat

/-- Start enqueuing flush jobs; an operation without jobs returns at once. -/
def enqueueOr (s : Shared α V cfg) (tickets : List (Ticket α V)) (caller : Caller α V T) :
    Shared α V cfg × Thread α V T :=
  match tickets with
  | [] => (caller.count s true, caller.returned)
  | _ => (s, .enqueuing tickets caller)

/-- The next step of a thread inside a public operation.
Source: the public methods of `Cache` in `core/cache.py` -/
def clientStep (hash : Key α → ℕ) (s : Shared α V cfg) (c : Choice α V) :
    Thread α V T → Option (Shared α V cfg × Thread α V T)
  | .entering (.close flush) _ =>
      match s.lifecycle with
      | .closing => none
      | .closed => some (s, .finished .done)
      | _ =>
          some ({ s with lifecycle := .closing },
            if flush.getD cfg.shutdownFlush ∧ cfg.writeMode = .writeBack then .closeCollect 0
            else .closeStop false)
  | .entering op caller =>
      match s.lifecycle with
      | .closing => none
      | .closed => some (caller.count s false, caller.raised .closedCache)
      | .abandoned => some (caller.count s false, caller.raised .closedCache)
      | _ =>
          match op.precheck cfg with
          | some exn => some (caller.count s false, caller.raised exn)
          | none => some (s, .running op caller)
  | .running (.get key) _ =>
      let i := shardFor cfg hash key
      let r := (s.shards i).readValueLocked key true true s.now
      some (s.setShard i r.2, .finished (.value r.1))
  | .running (.contains key) _ =>
      let i := shardFor cfg hash key
      let r := (s.shards i).readValueLocked key false true s.now
      some (s.setShard i r.2, .finished (.flag r.1.isSome))
  | .running (.inspect key) _ =>
      let i := shardFor cfg hash key
      let r := (s.shards i).inspectLocked key s.now
      some (s.setShard i r.2, .finished (.snapshot r.1))
  | .running (.put key value ttl) caller =>
      let r := s.putSection hash key value ttl (c.ok key)
      if r.2.2 then some (caller.count r.1 false, caller.raised .sourceFailure)
      else some (enqueueOr r.1 r.2.1 caller)
  | .running (.delete key) _ =>
      let existed := ((s.shards (shardFor cfg hash key)).backend.getEntry key).isSome
      let r := s.deleteSection hash key (c.ok key)
      if r.2.2 then some (r.1, .finished (.raised .sourceFailure))
      else some (enqueueOr r.1 r.2.1 (.client (.flag existed)))
  | .running .clear _ => some (s, .clearing 0 [])
  | .running .size _ => some (s, .sizing 0 0)
  | .running (.dump limit) _ => some (s, .dumping 0 [] limit)
  | .running .expireAll _ => some (s, .expiring 0 0)
  | .running (.getOrCompute key ttl) _ =>
      let i := shardFor cfg hash key
      let r := (s.shards i).getOrComputeLocked key s.now s.flights.length
      match r.1 with
      | .cached v => some (s.setShard i r.2, .finished (.value (some v)))
      | .joins flight => some (s.setShard i r.2, .waiting flight)
      | .leads flight =>
          some ({ s.setShard i r.2 with flights := s.flights ++ [{}] }, .leading key ttl flight)
  | .running (.preload key ttl) _ =>
      some ({ s with
        queue := s.queue.putNowait cfg.queueSize (.preloadKey (shardFor cfg hash key) key ttl) },
        .finished (.flag (!s.queue.full cfg.queueSize)))
  | .running (.requestSnapshot id) _ =>
      some ({ s with queue := s.queue.putNowait cfg.queueSize (.snapshotStats id) },
        .finished (.flag (!s.queue.full cfg.queueSize)))
  | .running (.restoreEntryMetadata key n) _ =>
      let i := shardFor cfg hash key
      some (s.setShard i ((s.shards i).restoreEntryMetadata key n), .finished .done)
  | .running (.close _) _ => none
  | .clearing i tickets =>
      if h : i < cfg.shardCount then
        let r := s.clearSection ⟨i, h⟩ c.ok
        if r.2.2 then some (r.1, .finished (.raised .sourceFailure))
        else some (r.1, .clearing (i + 1) (tickets ++ r.2.1))
      else some (enqueueOr s tickets (.client .done))
  | .sizing i total =>
      if h : i < cfg.shardCount then some (s, .sizing (i + 1) (total + (s.shards ⟨i, h⟩).backend.size))
      else some (s, .finished (.number total))
  | .dumping i taken limit =>
      if h : i < cfg.shardCount then
        let r := (s.shards ⟨i, h⟩).dumpLocked s.now
        some (s.setShard ⟨i, h⟩ r.2, .dumping (i + 1) (taken ++ r.1) limit)
      else some (s, .finished (.snapshots (upTo limit taken)))
  | .expiring i removed =>
      if h : i < cfg.shardCount then
        let r := (s.shards ⟨i, h⟩).expireShard s.now
        some (s.setShard ⟨i, h⟩ r.2, .expiring (i + 1) (removed + r.1))
      else some (s, .finished (.number removed))
  | .enqueuing [] caller => some (caller.count s true, caller.returned)
  | .enqueuing (t :: ts) caller =>
      if s.rejects c t then some (caller.count (s.lose (t :: ts)) false, caller.raised .valueError)
      else if s.queue.full cfg.queueSize then
        some ({ s with queue := s.queue.drop }, .releasing (t :: ts) caller)
      else some (enqueueOr { s with queue := s.queue.push (.flushWriteBack t) } ts caller)
  | .releasing [] caller => some (caller.count s false, caller.raised .queueBackpressure)
  | .releasing (t :: ts) caller =>
      (s.onShard t.job.shardIndex fun sh => sh.resolvePendingLocked t.job.key).map fun s' =>
        (s', .releasing ts caller)
  | .leading key ttl flight => some (s, .loading key ttl flight)
  | .loading key ttl flight =>
      match c.loaded with
      | none => some (s, .failing key flight (.loaderFailure c.exception))
      | some v => some (s, .entering (.put key v ttl) (.leader key flight v))
  | .publishing key flight value =>
      let i := shardFor cfg hash key
      some ((s.setShard i ((s.shards i).unregisterFlight key)).land flight
          fun f => { f with result := some value },
        .finished (.value (some value)))
  | .failing key flight exn =>
      let i := shardFor cfg hash key
      some ((s.setShard i ((s.shards i).unregisterFlight key)).land flight
          fun f => { f with exception := some exn },
        .finished (.raised exn))
  | .waiting flight =>
      match s.flights[flight]? with
      | none => none
      | some f => if f.event then some (s, .finished f.outcome) else none
  | _ => none

/-- The next step of a worker.
Source: `workers/worker_pool.py` `WorkerPool._run`; `core/cache.py` `Cache._handle_job`,
`Cache._flush_write_back_job` -/
def workerStep (s : Shared α V cfg) (c : Choice α V) :
    Thread α V T → Option (Shared α V cfg × Thread α V T)
  | .idle =>
      match s.queue.items with
      | job :: rest => some ({ s with queue := { s.queue with items := rest } }, .handling job)
      | [] => if s.stopEvent then some (s, .stopped) else none
  | .handling .stopWorker => some ({ s with queue := s.queue.taskDone }, .stopped)
  | .handling (.expireShard i) =>
      (s.onShard i fun sh => (sh.expireShard s.now).2).map fun s' =>
        (s'.count fun r => { r with workerJobsCompleted := r.workerJobsCompleted + 1 }, .finishing)
  | .handling (.snapshotStats _) =>
      some (s.count fun r => { r with workerJobsCompleted := r.workerJobsCompleted + 1 }, .finishing)
  | .handling (.preloadKey _ key ttl) =>
      match c.loaded with
      | none =>
          some (s.count fun r => { r with workerJobsFailed := r.workerJobsFailed + 1 }, .finishing)
      | some v => some (s, .entering (.put key v ttl) .preloader)
  | .handling (.flushWriteBack t) =>
      if h : t.job.shardIndex < cfg.shardCount then
        let sh := s.shards ⟨t.job.shardIndex, h⟩
        if sh.isStale t.job then
          some ((s.setShard ⟨t.job.shardIndex, h⟩ (sh.resolvePendingLocked t.job.key)).count fun r =>
            { r with
              staleWriteBackJobsSkipped := r.staleWriteBackJobsSkipped + 1
              workerJobsCompleted := r.workerJobsCompleted + 1 }, .finishing)
        else some (s, .checked t)
      else none
  | .checked t =>
      if c.ok t.job.key then
        some ({ s with source := applyWriteBack s.source t.job }.emit [.applied t], .landed t)
      else some (s, .failed t)
  | .failed t =>
      if 0 < t.job.retriesLeft then
        let s' := s.count fun r => { r with writeBackRetries := r.writeBackRetries + 1 }
        if s.rejects c t.retry then
          some ((s'.lose [t.retry]).count fun r => { r with workerJobsFailed := r.workerJobsFailed + 1 }, .finishing)
        else if s.queue.full cfg.queueSize then
          some ({ s' with queue := s'.queue.drop }.count fun r =>
            { r with flushFailures := r.flushFailures + 1 }, .dropped t)
        else
          some ({ s' with queue := s'.queue.push (.flushWriteBack t.retry) }.count fun r =>
            { r with workerJobsCompleted := r.workerJobsCompleted + 1 }, .finishing)
      else some (s.count fun r => { r with flushFailures := r.flushFailures + 1 }, .dropped t)
  | .dropped t =>
      (s.onShard t.job.shardIndex fun sh => sh.resolvePendingLocked t.job.key).map fun s' =>
        (s'.count fun r => { r with workerJobsFailed := r.workerJobsFailed + 1 }, .finishing)
  | .landed t =>
      (s.onShard t.job.shardIndex fun sh => sh.finalizeLocked t.job).map fun s' =>
        (s'.count fun r => { r with workerJobsCompleted := r.workerJobsCompleted + 1 }, .finishing)
  | .finishing => some ({ s with queue := s.queue.taskDone }, .idle)
  | _ => none

/-- The point after the last job of a shard in the first phase of `close`. -/
def closeNext (cfg : AcceptedConfig T) (i : ℕ) : Thread α V T :=
  if i + 1 < cfg.shardCount then .closeCollect (i + 1) else .closeJoin

/-- The next step of a thread inside `close`, after it took the lifecycle lock.
Source: `core/cache.py` `Cache.close`, `Cache._enqueue_dirty_write_back_jobs`,
`Cache._flush_dirty_entries_sync`; `workers/worker_pool.py` `WorkerPool.stop` -/
def closeStep (s : Shared α V cfg) (c : Choice α V) :
    Thread α V T → Option (Shared α V cfg × Thread α V T)
  | .closeCollect i =>
      if h : i < cfg.shardCount then
        let sh := s.shards ⟨i, h⟩
        let jobs := sh.dirtyJobs cfg.toCacheConfig
        some (s.setShard ⟨i, h⟩ (sh.registerAll jobs), .closeEnqueue i (jobs.map (closeTicket s.log)))
      else none
  | .closeEnqueue i [] => some (s, closeNext cfg i)
  | .closeEnqueue i (t :: ts) =>
      if s.rejects c t then
        some ({ s.lose (t :: ts) with lifecycle := s.lifecycle.released }, .finished (.raised .valueError))
      else if s.queue.full cfg.queueSize then
        some ({ s with queue := s.queue.drop }, .closeRelease i (t :: ts))
      else some ({ s with queue := s.queue.push (.flushWriteBack t) }, .closeEnqueue i ts)
  | .closeRelease i [] => some (s, closeNext cfg i)
  | .closeRelease i (t :: ts) =>
      (s.onShard i fun sh => sh.resolvePendingLocked t.job.key).map fun s' => (s', .closeRelease i ts)
  | .closeJoin =>
      if s.poolStarted ∧ 0 < cfg.workerCount then
        if s.queue.unfinishedTasks = 0 then some (s, .syncCollect 0 false)
        else if c.timeout then some (s, .syncCollect 0 true) else none
      else some (s, .syncCollect 0 false)
  | .syncCollect i failed =>
      if h : i < cfg.shardCount then
        let jobs := (s.shards ⟨i, h⟩).dirtyJobs cfg.toCacheConfig
        some (s, .syncNext i (jobs.map (closeTicket s.log)) failed)
      else
        some (if failed then
            s.count fun r => { r with shutdownFlushFailures := r.shutdownFlushFailures + 1 }
          else s, .closeStop failed)
  | .syncNext i [] failed => some (s, .syncCollect (i + 1) failed)
  | .syncNext i (t :: ts) failed =>
      if h : i < cfg.shardCount then
        let sh := s.shards ⟨i, h⟩
        if sh.isStale t.job then
          some ((s.setShard ⟨i, h⟩ (sh.clearPendingFlushesLocked t.job.key)).count fun r =>
            { r with staleWriteBackJobsSkipped := r.staleWriteBackJobsSkipped + 1 },
            .syncNext i ts failed)
        else some (s, .syncTry i t t.job.retriesLeft ts failed)
      else none
  | .syncTry i t left ts failed =>
      if c.ok t.job.key then
        some ({ s with source := applyWriteBack s.source t.job }.emit [.applied t],
          match t.job.operation with
          | .put _ => .syncClean i t ts failed
          | .delete => .syncSettle i t true ts failed)
      else
        match left with
        | 0 => some (s, .syncSettle i t false ts failed)
        | left + 1 =>
            some (s.count fun r => { r with writeBackRetries := r.writeBackRetries + 1 },
              .syncTry i t left ts failed)
  | .syncClean i t ts failed =>
      (s.onShard i fun sh => sh.markCleanLocked t.job).map fun s' => (s', .syncSettle i t true ts failed)
  | .syncSettle i t success ts failed =>
      (s.onShard i fun sh => sh.clearPendingFlushesLocked t.job.key).map fun s' =>
        (if success then s' else s'.count fun r => { r with flushFailures := r.flushFailures + 1 },
          .syncNext i ts (failed || !success))
  | .closeStop failed =>
      if s.poolStarted then
        some ({ s with
          stopEvent := true
          queue := (List.replicate cfg.workerCount ()).foldl
            (fun q _ => q.offer cfg.queueSize .stopWorker) s.queue }, .closeDrain failed)
      else some (s, .closeDrain failed)
  | .closeDrain failed =>
      some ({ s with queue := s.queue.drain, poolStarted := false, lifecycle := .closed },
        .finished (if failed then .raised .shutdownFlush else .done))
  | _ => none

/-- The next step of a thread. -/
def threadStep (hash : Key α → ℕ) (s : Shared α V cfg) (c : Choice α V) (th : Thread α V T) :
    Option (Shared α V cfg × Thread α V T) :=
  (clientStep hash s c th).orElse fun _ => (workerStep s c th).orElse fun _ => closeStep s c th

/-- A call other than `close` looks at the lifecycle first and at its arguments then. -/
theorem clientStep_entering {hash : Key α → ℕ} {s : Shared α V cfg} {c : Choice α V} {op : Op α V T}
    (hop : ∀ flush, op ≠ .close flush) (caller : Caller α V T) :
    clientStep hash s c (.entering op caller) =
      match s.lifecycle with
      | .closing => none
      | .closed => some (caller.count s false, caller.raised .closedCache)
      | .abandoned => some (caller.count s false, caller.raised .closedCache)
      | _ =>
          match op.precheck cfg with
          | some exn => some (caller.count s false, caller.raised exn)
          | none => some (s, .running op caller) := by
  cases op with
  | close flush => exact absurd rfl (hop flush)
  | _ => rfl

/-- One step of the system.
Source: `core/cache.py` `Cache.start`; `workers/scheduler.py` `ExpirationScheduler.tick_once` -/
def step (cfg : AcceptedConfig T) (hash : Key α → ℕ) (s : System α V cfg) :
    Label α V T → Option (System α V cfg)
  | .tick now =>
      if s.shared.now ≤ now then some { s with shared := { s.shared with now := now } } else none
  | .start =>
      match s.shared.lifecycle with
      | .created =>
          some
            { shared :=
                { s.shared with
                  lifecycle := .started
                  poolStarted := decide (0 < cfg.workerCount) }
              threads := s.threads ++ List.replicate cfg.workerCount Thread.idle }
      | .started => some s
      | _ => none
  | .call op => some { s with threads := s.threads ++ [Thread.entering op (.client .done)] }
  | .schedule i =>
      if i < cfg.shardCount ∧ s.shared.lifecycle ≠ .closed then
        some { s with
          shared := { s.shared with queue := s.shared.queue.putNowait cfg.queueSize (.expireShard i) } }
      else none
  | .run i c =>
      (s.threads[i]?).bind fun th =>
        (threadStep hash s.shared c th).map fun r =>
          { shared := r.1, threads := s.threads.set i r.2 }

/-- A run of the system. -/
def exec (cfg : AcceptedConfig T) (hash : Key α → ℕ) (s : System α V cfg) (ls : List (Label α V T)) :
    Option (System α V cfg) :=
  Transition.run (step cfg hash) s ls

end CacheLab
