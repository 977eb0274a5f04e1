import CacheLab.Core.Shard
import CacheLab.Lib.WriteBehind

/-!
# Jobs, the job queue and the source backend

The messages that workers consume, the bounded queue that carries them, the source-of-truth backend
and the two functions of the write-back worker: the staleness test and the application of a job.

A `FlushWriteBack` of the source has an `operation` string and a `value` that only puts use; here the
two are one `WriteOp`. The loader of a `PreloadKey` is code of the caller, so the job keeps no trace
of it: what it returns is a choice of the environment when the job runs. The same holds for the
failures of the source backend, whose calls take effect either fully or not at all.
-/

set_option linter.unusedSectionVars false

namespace CacheLab

variable {α V T : Type} [DecidableEq α] [LinearOrder T]

/-- Persist one write.
Source: `workers/messages.py` `FlushWriteBack` -/
structure FlushWriteBack (α V : Type) where
  shardIndex : ℕ
  key : Key α
  operation : WriteOp V
  version : ℕ
  retriesLeft : ℕ
  attempt : ℕ := 0
  deriving DecidableEq

/-- What the source backend holds for each key of the cache. Keys of different shards that are equal in Python are
one key of its dictionary; that comes in `System.SourceDict`.
Source: `storage/slow_dict.py` `SlowDictBackend` -/
abbrev Source (α V : Type) : Type := OrderedDict (Key α) V

/-- A successful call on the source backend.
Source: `storage/slow_dict.py` `SlowDictBackend.put_value`, `SlowDictBackend.delete_value` -/
def Source.apply (src : Source α V) (key : Key α) : WriteOp V → Source α V
  | .put v => src.set key v
  | .delete => src.erase key

/-- What the source holds after a successful call. -/
theorem Source.get?_apply (src : Source α V) (key k : Key α) (op : WriteOp V) :
    (src.apply key op).get? k = if k = key then op.outcome else src.get? k := by
  cases op with
  | put v => exact OrderedDict.get?_set _ _ _ _
  | delete => exact OrderedDict.get?_erase _ _ _

/-- A job must not be applied once a newer write or a tombstone superseded it.
Source: `workers/write_back_worker.py` `is_stale_write_back` -/
def isStaleWriteBack (versionMarks tombstones : OrderedDict (Key α) ℕ) (job : FlushWriteBack α V) :
    Bool :=
  let currentVersion := (versionMarks.get? job.key).getD 0
  match job.operation with
  | .put _ =>
      decide (currentVersion ≠ job.version) ||
        (tombstones.get? job.key).any fun t => decide (job.version ≤ t)
  | .delete =>
      decide (currentVersion ≠ job.version) || decide (tombstones.get? job.key ≠ some job.version)

/-- Apply a job to the source.
Source: `workers/write_back_worker.py` `apply_write_back` -/
def applyWriteBack (src : Source α V) (job : FlushWriteBack α V) : Source α V :=
  src.apply job.key job.operation

/-- A flush job together with the position of the write it stems from in the log of all writes. The
position is a ghost: no modelled function reads it. -/
structure Ticket (α V : Type) where
  job : FlushWriteBack α V
  origin : ℕ
  deriving DecidableEq

/-- The retry of a failed job.
Source: `core/cache.py` `Cache._flush_write_back_job` -/
def Ticket.retry (t : Ticket α V) : Ticket α V :=
  { t with job := { t.job with retriesLeft := t.job.retriesLeft - 1, attempt := t.job.attempt + 1 } }

/-- The messages that workers consume.
Source: `workers/messages.py` `Job` -/
inductive Job (α V T : Type)
  | expireShard (shardIndex : ℕ)
  | flushWriteBack (ticket : Ticket α V)
  | preloadKey (shardIndex : ℕ) (key : Key α) (ttl : Ttl T)
  | snapshotStats (requestId : String)
  | stopWorker
  deriving DecidableEq

/-- The flush job in a message, if it is one. -/
def Job.tickets : Job α V T → List (Ticket α V)
  | flushWriteBack t => [t]
  | _ => []

/-- The job queue: its items, the number of jobs put and not yet marked done, and the number of jobs
refused. `lost` is a ghost: the flush jobs that an enqueue left behind when it raised; no modelled function reads it.
Source: `workers/queue.py` `CacheJobQueue` -/
structure CacheJobQueue (α V T : Type) where
  items : List (Job α V T) := []
  unfinishedTasks : ℕ := 0
  dropped : ℕ := 0
  lost : List (Ticket α V) := []

namespace CacheJobQueue

/-- Whether a queue bounded by `maxsize` is full; `0` is no bound. -/
def full (q : CacheJobQueue α V T) (maxsize : ℕ) : Bool :=
  decide (0 < maxsize) && decide (maxsize ≤ q.items.length)

/-- Append a job.
Source: `workers/queue.py` `CacheJobQueue.put`, `CacheJobQueue.offer` (the queue accepts) -/
def push (q : CacheJobQueue α V T) (job : Job α V T) : CacheJobQueue α V T :=
  { q with items := q.items ++ [job], unfinishedTasks := q.unfinishedTasks + 1 }

/-- Count a refused job.
Source: `workers/queue.py` `CacheJobQueue.put` (the queue is full) -/
def drop (q : CacheJobQueue α V T) : CacheJobQueue α V T := { q with dropped := q.dropped + 1 }

/-- Note jobs that are lost. -/
def lose (q : CacheJobQueue α V T) (ts : List (Ticket α V)) : CacheJobQueue α V T := { q with lost := q.lost ++ ts }

/-- Best-effort enqueue: `put_nowait`, dropped and counted when the queue is full. -/
def putNowait (q : CacheJobQueue α V T) (maxsize : ℕ) (job : Job α V T) : CacheJobQueue α V T :=
  if q.full maxsize then q.drop else q.push job

/-- Best-effort enqueue that is not counted when it fails.
Source: `workers/queue.py` `CacheJobQueue.offer` -/
def offer (q : CacheJobQueue α V T) (maxsize : ℕ) (job : Job α V T) : CacheJobQueue α V T :=
  if q.full maxsize then q else q.push job

/-- Source: `workers/queue.py` `CacheJobQueue.task_done` -/
def taskDone (q : CacheJobQueue α V T) : CacheJobQueue α V T :=
  { q with unfinishedTasks := q.unfinishedTasks - 1 }

/-- Discard all items, each marked done.
Source: `workers/queue.py` `CacheJobQueue.drain` -/
def drain (q : CacheJobQueue α V T) : CacheJobQueue α V T :=
  { q with items := [], unfinishedTasks := q.unfinishedTasks - q.items.length }

/-- The flush jobs in the queue. -/
def queued (q : CacheJobQueue α V T) : List (Ticket α V) := q.items.flatMap Job.tickets

/-- The flush jobs that are lost or in the queue. -/
def tickets (q : CacheJobQueue α V T) : List (Ticket α V) := q.lost ++ q.queued

@[simp] theorem queued_push (q : CacheJobQueue α V T) (job : Job α V T) :
    (q.push job).queued = q.queued ++ job.tickets := by
  simp [queued, push]

@[simp] theorem tickets_push (q : CacheJobQueue α V T) (job : Job α V T) :
    (q.push job).tickets = q.tickets ++ job.tickets := by
  rw [tickets, queued_push, ← List.append_assoc]
  rfl

/-- Lost jobs stay outstanding. -/
theorem tickets_lose (q : CacheJobQueue α V T) (ts : List (Ticket α V)) : (q.lose ts).tickets.Perm
    (q.tickets ++ ts) := by
  simp only [tickets, lose, queued, List.append_assoc]
  exact List.Perm.append_left q.lost List.perm_append_comm

end CacheJobQueue

end CacheLab
