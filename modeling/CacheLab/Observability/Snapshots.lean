import CacheLab.Core.Stamps
import CacheLab.Lib.Transition
import CacheLab.System.Step

/-!
# The statistics of a running cache

`stats` reads the shards one after the other, each inside its lock, then the runtime counters inside theirs, then the
queue, and adds the shards up. It checks no lifecycle and changes nothing, so its calls are no threads of `System`:
`Watched` is a cache with any number of them, and a step is one of the cache or one read of a call.

The hit ratio (a quotient of two fields) and the lock contention of the shards are left out.
-/

set_option linter.unusedSectionVars false

namespace CacheLab

variable {α V T : Type} [DecidableEq α] [LinearOrder T] [Zero T] [Add T] [Sub T]

variable {cfg : AcceptedConfig T} {hash : Key α → ℕ}

/-! ### Snapshots -/

/-- Source: `core/stats.py` `PolicyStatsSnapshot` -/
structure PolicyStatsSnapshot where
  name : PolicyName
  evictions : ℕ
  trackedKeys : ℕ
  metadataSize : ℕ
  deriving DecidableEq

/-- Source: `core/stats.py` `ShardStatsSnapshot` -/
structure ShardStatsSnapshot where
  index : ℕ
  size : ℕ
  capacity : ℕ
  hits : ℕ
  misses : ℕ
  puts : ℕ
  deletes : ℕ
  evictions : ℕ
  expirations : ℕ
  policy : PolicyStatsSnapshot
  deriving DecidableEq

/-- Source: `core/stats.py` `CacheStatsSnapshot` -/
structure CacheStatsSnapshot where
  hits : ℕ
  misses : ℕ
  puts : ℕ
  deletes : ℕ
  evictions : ℕ
  expirations : ℕ
  size : ℕ
  capacity : ℕ
  queueDepth : ℕ
  queueDropped : ℕ
  workerJobsCompleted : ℕ
  workerJobsFailed : ℕ
  writeBackRetries : ℕ
  staleWriteBackJobsSkipped : ℕ
  flushFailures : ℕ
  shutdownFlushFailures : ℕ
  shards : List ShardStatsSnapshot
  deriving DecidableEq

/-- The row of a shard.
Source: `core/cache.py` `Cache.stats`, the loop over the shards -/
def CacheShard.statsLocked (sh : CacheShard α V T) : ShardStatsSnapshot where
  index := sh.index
  size := sh.backend.size
  capacity := sh.capacity
  hits := sh.stats.hits
  misses := sh.stats.misses
  puts := sh.stats.puts
  deletes := sh.stats.deletes
  evictions := sh.stats.evictions
  expirations := sh.stats.expirations
  policy :=
    { name := sh.policy.name
      evictions := sh.stats.evictions
      trackedKeys := sh.policy.len
      metadataSize := sh.policy.metadataSize }

/-- Source: `core/cache.py` `Cache.stats`, the value that it returns -/
def makeSnapshot (rows : List ShardStatsSnapshot) (runtime : RuntimeStats) (depth dropped : ℕ) :
    CacheStatsSnapshot where
  hits := (rows.map ShardStatsSnapshot.hits).sum
  misses := (rows.map ShardStatsSnapshot.misses).sum
  puts := (rows.map ShardStatsSnapshot.puts).sum
  deletes := (rows.map ShardStatsSnapshot.deletes).sum
  evictions := (rows.map ShardStatsSnapshot.evictions).sum
  expirations := (rows.map ShardStatsSnapshot.expirations).sum
  size := (rows.map ShardStatsSnapshot.size).sum
  capacity := (rows.map ShardStatsSnapshot.capacity).sum
  queueDepth := depth
  queueDropped := dropped
  workerJobsCompleted := runtime.workerJobsCompleted
  workerJobsFailed := runtime.workerJobsFailed
  writeBackRetries := runtime.writeBackRetries
  staleWriteBackJobsSkipped := runtime.staleWriteBackJobsSkipped
  flushFailures := runtime.flushFailures
  shutdownFlushFailures := runtime.shutdownFlushFailures
  shards := rows

/-! ### Calls of `stats` -/

/-- Where a call of `stats` is.
Source: `core/cache.py` `Cache.stats` -/
inductive StatsCall
  /-- In the loop over the shards, with the rows so far. -/
  | collecting (rows : List ShardStatsSnapshot)
  /-- Before `job_queue.depth`. -/
  | collected (rows : List ShardStatsSnapshot) (runtime : RuntimeStats)
  /-- Before `job_queue.dropped`. -/
  | measured (rows : List ShardStatsSnapshot) (runtime : RuntimeStats) (depth : ℕ)
  | returned (snapshot : CacheStatsSnapshot)

/-- The next read of a call.
Source: `core/cache.py` `Cache.stats` -/
def StatsCall.look (s : Shared α V cfg) : StatsCall → Option StatsCall
  | collecting rows =>
      if h : rows.length < cfg.shardCount then
        some (collecting (rows ++ [(s.shards ⟨rows.length, h⟩).statsLocked]))
      else some (collected rows s.runtime)
  | collected rows runtime => some (measured rows runtime s.queue.items.length)
  | measured rows runtime depth => some (returned (makeSnapshot rows runtime depth s.queue.dropped))
  | returned _ => none

/-- A cache with the calls of `stats` so far. -/
structure Watched (α V : Type) {T : Type} [DecidableEq α] [LinearOrder T] [Zero T] (cfg : AcceptedConfig T) where
  cache : System α V cfg
  calls : List StatsCall

/-- A step of a cache with its calls of `stats`. -/
inductive WatchedLabel (α V T : Type)
  | cache (label : Label α V T)
  /-- Somebody calls `stats`. -/
  | stats
  /-- A call makes its next read. -/
  | look (call : ℕ)

/-- One step of a watched cache. -/
def watchedStep (cfg : AcceptedConfig T) (hash : Key α → ℕ) (w : Watched α V cfg) :
    WatchedLabel α V T → Option (Watched α V cfg)
  | .cache l => (step cfg hash w.cache l).map fun s => { w with cache := s }
  | .stats => some { w with calls := w.calls ++ [StatsCall.collecting []] }
  | .look j =>
      (w.calls[j]?).bind fun call => (call.look w.cache.shared).map fun call' =>
        { w with calls := w.calls.set j call' }

/-- A run of a watched cache. -/
def watchedExec (cfg : AcceptedConfig T) (hash : Key α → ℕ) (w : Watched α V cfg) (ls : List (WatchedLabel α V T)) :
    Option (Watched α V cfg) :=
  Transition.run (watchedStep cfg hash) w ls

/-- A fresh cache that nobody has looked at. -/
def watchedInitial (cfg : AcceptedConfig T) (now : T) (src : Source α V) : Watched α V cfg :=
  ⟨initial cfg now src, []⟩

end CacheLab
