import CacheLab.Core.Sections

/-!
# The state of a running cache

A cache with its client threads, workers and closing thread is a shared state and a list of threads.
Every thread is at a point between two atomic steps, and the constructors of `Thread` name these
points; an atomic step is a shard-lock section, an enqueue or dequeue, or a call on the source.

* The lifecycle lock is held by `close` from `CLOSING` to `CLOSED` and otherwise only for an instant,
  so "the lock is free" is `lifecycle ≠ closing`.
* `log` is a ghost, newest event first: what the lock sections did to the entries and which flush
  jobs reached the source. No step reads it except to number the write that a new flush job stems
  from (`Ticket.origin`), and nothing depends on that number.
-/

set_option linter.unusedSectionVars false

namespace CacheLab

/-- The lifecycle. `closing` and `abandoned` are both the `CLOSING` of the source: the first while `close` holds the
lifecycle lock, the second after a `close` that ended with a `ValueError` gave it back.
Source: `core/lifecycle.py` `LifecycleState` -/
inductive LifecycleState
  | created
  | started
  | closing
  | abandoned
  | closed
  deriving DecidableEq

/-- The lifecycle when `close` gives the lifecycle lock back before it is done. -/
def LifecycleState.released : LifecycleState → LifecycleState
  | closing => abandoned
  | l => l

/-- Source: `core/cache.py` `_RuntimeStats` -/
structure RuntimeStats where
  workerJobsCompleted : ℕ := 0
  workerJobsFailed : ℕ := 0
  writeBackRetries : ℕ := 0
  staleWriteBackJobsSkipped : ℕ := 0
  flushFailures : ℕ := 0
  shutdownFlushFailures : ℕ := 0

/-- What happened to the entries and to the source, as far as the properties speak of it. -/
inductive Event (α V T : Type)
  /-- A put stored an entry. -/
  | stored (key : Key α) (value : V) (ttl : Ttl T) (now : T)
  /-- A delete, or a clear for one of its keys, went through. -/
  | erased (key : Key α)
  /-- A clear finished with a shard. -/
  | cleared (shard : ℕ)
  /-- Capacity enforcement removed an entry. -/
  | evicted (key : Key α)
  /-- A flush job was applied to the source. -/
  | applied (ticket : Ticket α V)
  deriving DecidableEq

/-- The exceptions a call can end with. -/
inductive Exn
  | closedCache
  | validation
  | queueBackpressure
  | sourceFailure
  /-- What a loader raised; the number tells one exception from another. -/
  | loaderFailure (n : ℕ)
  | requiresWorkers
  | shutdownFlush
  /-- What `queue.Queue.put` or `repr` raised. -/
  | valueError
  deriving DecidableEq

/-- What a finished call gave back. -/
inductive Result (α V T : Type)
  | done
  | value (found : Option V)
  | flag (answer : Bool)
  | number (n : ℕ)
  | snapshot (found : Option (EntrySnapshot α V T))
  | snapshots (entries : List (EntrySnapshot α V T))
  | raised (exn : Exn)
  deriving DecidableEq

/-- A load that one caller leads and others may wait for.
Source: `concurrency/singleflight.py` `Flight` -/
structure Flight (V : Type) where
  event : Bool := false
  result : Option V := none
  exception : Option Exn := none
  deriving DecidableEq

/-- What a waiter that saw the event gets: the exception if there is one, else the result.
Source: `core/cache.py` `Cache.get_or_compute` -/
def Flight.outcome {α V T : Type} (f : Flight V) : Result α V T :=
  match f.exception with
  | some exn => .raised exn
  | none => .value f.result

/-- The public operations that take a lock section or touch the queue. -/
inductive Op (α V T : Type)
  | get (key : Key α)
  | contains (key : Key α)
  | inspect (key : Key α)
  | put (key : Key α) (value : V) (ttl : Ttl T)
  | delete (key : Key α)
  | clear
  | size
  | dump (limit : Option ℤ)
  | expireAll
  | getOrCompute (key : Key α) (ttl : Ttl T)
  | preload (key : Key α) (ttl : Ttl T)
  | requestSnapshot (requestId : String)
  | restoreEntryMetadata (key : Key α) (hitCount : ℤ)
  | close (flush : Option Bool)
  deriving DecidableEq

/-- Who enqueues flush jobs: a client call that will give back a result, a worker that runs a
`PreloadKey`, or the leader of a flight. -/
inductive Caller (α V T : Type)
  | client (result : Result α V T)
  | preloader
  | leader (key : Key α) (flight : ℕ) (value : V)
  deriving DecidableEq

/-- The points at which a thread can stand between two atomic steps. -/
inductive Thread (α V T : Type)
  /-- About to take the lifecycle lock in `_require_not_closed` (or in `close`). -/
  | entering (op : Op α V T) (caller : Caller α V T)
  /-- Past the checks, about to run the first section of `op`. -/
  | running (op : Op α V T) (caller : Caller α V T)
  /-- In `clear`, about to run the section of the given shard, with the jobs collected so far. -/
  | clearing (shard : ℕ) (tickets : List (Ticket α V))
  /-- In `size`, about to read the given shard, with the sizes added up so far. -/
  | sizing (shard total : ℕ)
  /-- In `dump`, about to run the section of the given shard, with the snapshots taken so far. -/
  | dumping (shard : ℕ) (taken : List (EntrySnapshot α V T)) (limit : Option ℤ)
  /-- In `expire_all`, about to run the section of the given shard, with the removals so far. -/
  | expiring (shard removed : ℕ)
  /-- In `_enqueue_flush_jobs`, with the jobs still to enqueue. -/
  | enqueuing (tickets : List (Ticket α V)) (caller : Caller α V T)
  /-- In `_enqueue_flush_jobs` after a refusal, with the jobs whose counts are still to be released. -/
  | releasing (tickets : List (Ticket α V)) (caller : Caller α V T)
  /-- The leader of a flight, about to call the loader. -/
  | leading (key : Key α) (ttl : Ttl T) (flight : ℕ)
  /-- The leader of a flight, inside the loader. -/
  | loading (key : Key α) (ttl : Ttl T) (flight : ℕ)
  /-- The leader of a flight, about to publish its result. -/
  | publishing (key : Key α) (flight : ℕ) (value : V)
  /-- The leader of a flight, about to publish its exception. -/
  | failing (key : Key α) (flight : ℕ) (exn : Exn)
  /-- Waiting for the leader of a flight. -/
  | waiting (flight : ℕ)
  /-- The call is over. -/
  | finished (result : Result α V T)
  /-- A worker about to take a job. -/
  | idle
  /-- A worker that took a job. -/
  | handling (job : Job α V T)
  /-- A worker whose flush job passed the staleness test. -/
  | checked (ticket : Ticket α V)
  /-- A worker whose flush job was applied to the source. -/
  | landed (ticket : Ticket α V)
  /-- A worker whose source call raised. -/
  | failed (ticket : Ticket α V)
  /-- A worker that gave a flush job up and has to release its pending count. -/
  | dropped (ticket : Ticket α V)
  /-- A worker about to call `task_done`. -/
  | finishing
  /-- A worker that left its loop. -/
  | stopped
  /-- `close`, about to collect the dirty entries of a shard for the queue. -/
  | closeCollect (shard : ℕ)
  /-- `close`, with the collected jobs of a shard still to enqueue. -/
  | closeEnqueue (shard : ℕ) (tickets : List (Ticket α V))
  /-- `close` after a refusal, with the counts still to be released. -/
  | closeRelease (shard : ℕ) (tickets : List (Ticket α V))
  /-- `close`, in `join_until`. -/
  | closeJoin
  /-- `close`, about to collect the dirty entries of a shard for the synchronous flush. -/
  | syncCollect (shard : ℕ) (failed : Bool)
  /-- `close`, with the remaining jobs of a shard for the synchronous flush. -/
  | syncNext (shard : ℕ) (tickets : List (Ticket α V)) (failed : Bool)
  /-- `close`, about to try the first job on the source, with the tries left after this one. -/
  | syncTry (shard : ℕ) (ticket : Ticket α V) (left : ℕ) (rest : List (Ticket α V)) (failed : Bool)
  /-- `close`, about to mark the entry of a flushed put clean. -/
  | syncClean (shard : ℕ) (ticket : Ticket α V) (rest : List (Ticket α V)) (failed : Bool)
  /-- `close`, about to clear the pending count of a job that is over. -/
  | syncSettle (shard : ℕ) (ticket : Ticket α V) (success : Bool) (rest : List (Ticket α V))
      (failed : Bool)
  /-- `close`, about to stop the workers. -/
  | closeStop (failed : Bool)
  /-- `close`, about to drain the queue. -/
  | closeDrain (failed : Bool)
  deriving DecidableEq

variable {α V T : Type} [DecidableEq α] [LinearOrder T] [Zero T]

/-- The state that the threads share. -/
structure Shared (α V : Type) {T : Type} [DecidableEq α] [LinearOrder T] [Zero T]
    (cfg : AcceptedConfig T) where
  now : T
  lifecycle : LifecycleState
  poolStarted : Bool
  stopEvent : Bool
  shards : Fin cfg.shardCount → CacheShard α V T
  queue : CacheJobQueue α V T
  source : Source α V
  runtime : RuntimeStats
  /-- The flights so far; a flight is known by its position. -/
  flights : List (Flight V)
  log : List (Event α V T)

/-- A cache and its threads. -/
structure System (α V : Type) {T : Type} [DecidableEq α] [LinearOrder T] [Zero T]
    (cfg : AcceptedConfig T) where
  shared : Shared α V cfg
  threads : List (Thread α V T)

/-- The shard of a key.
Source: `core/cache.py` `Cache._shard_for` -/
def shardFor (cfg : AcceptedConfig T) (hash : Key α → ℕ) (key : Key α) : Fin cfg.shardCount :=
  ⟨hash key % cfg.shardCount, Nat.mod_lt _ cfg.shardCount_pos⟩

/-- The shard that holds a key. -/
abbrev Shared.home {cfg : AcceptedConfig T} (hash : Key α → ℕ) (s : Shared α V cfg) (key : Key α) :
    CacheShard α V T :=
  s.shards (shardFor cfg hash key)

/-- A fresh shard.
Source: `core/cache.py` `Cache.__init__` -/
def newShard (cfg : AcceptedConfig T) (i : Fin cfg.shardCount) : CacheShard α V T where
  index := i
  capacity := (shardCapacities cfg.capacity cfg.shardCount).getD i 0
  backend := .new
  policy := makePolicy cfg.policy

/-- A fresh cache over a source with the given content.
Source: `core/cache.py` `Cache.__init__` -/
def initial (cfg : AcceptedConfig T) (now : T) (src : Source α V) : System α V cfg where
  shared :=
    { now := now
      lifecycle := .created
      poolStarted := false
      stopEvent := false
      shards := newShard cfg
      queue := {}
      source := src
      runtime := {}
      flights := []
      log := [] }
  threads := []

/-! ### Reading the ghost log -/

/-- The effect of an event as a write of `k`. -/
def Event.writeOf (k : Key α) : Event α V T → Option (WriteOp V)
  | stored key value _ _ => if key = k then some (.put value) else none
  | erased key => if key = k then some .delete else none
  | _ => none

/-- The last write of `k` in a log: its position, counted from the oldest event, and its effect. -/
def lastWrite (k : Key α) : List (Event α V T) → Option (ℕ × WriteOp V)
  | [] => none
  | e :: log =>
      match e.writeOf k with
      | some op => some (log.length, op)
      | none => lastWrite k log

/-- The flush jobs of a section, each with the position of the write it stems from. -/
def ticketsFrom (base : ℕ) (jobs : List (FlushWriteBack α V)) : List (Ticket α V) :=
  jobs.mapIdx fun i job => ⟨job, base + i⟩

/-- A flush job that `close` makes for a key, with the position of the key's last write. -/
def closeTicket (log : List (Event α V T)) (job : FlushWriteBack α V) : Ticket α V :=
  ⟨job, ((lastWrite job.key log).map Prod.fst).getD 0⟩

end CacheLab
