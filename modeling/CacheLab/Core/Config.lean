import Mathlib.Order.Basic
import Mathlib.Tactic

/-!
# Keys, entries and configuration

The plain data of the cache: keys, entries, the time-to-live argument of a write and the accepted
configurations.

* **Keys.** The source takes any `Hashable`, `None` included, and its policies answer "no victim"
  with `None` too. A key is therefore an `Option α`: `none` is Python's `None`, `some a` any other
  hashable value. Nothing below identifies the two uses by construction; where the code confuses
  them the model does as well.
* **Times.** Clock readings and lifetimes live in an arbitrary linear order with an addition and a
  zero. No law of the addition is assumed, so the rounding of a floating-point sum is covered.
* **Configuration.** `CacheConfig.postInit` is the validation of the source, and an
  `AcceptedConfig` carries the proof that it passed. The integers of the source that it rejects
  when negative are natural numbers here, and its policy, write-mode and backend strings are
  enumerations (there is one backend), so the checks on those are made by the types.
-/

namespace CacheLab

/-- A Python `Hashable`: `none` is `None`, `some a` any other hashable value. -/
abbrev Key (α : Type) : Type := Option α

/-- Keys are compared by `==`, which is equality. -/
instance lawfulBEq_key {α : Type} [DecidableEq α] : LawfulBEq (Key α) := inferInstance

/-- How writes reach the source backend.
Source: `storage/write_modes.py` `WriteMode` -/
inductive WriteMode
  | cacheOnly
  | writeThrough
  | writeBack
  deriving DecidableEq

/-- The eviction policies a configuration can name.
Source: `core/config.py` `_SUPPORTED_POLICIES` -/
inductive PolicyName
  | lru
  | lfu
  | fifo
  deriving DecidableEq

/-- The `ttl` argument of a write: omitted, `None`, or a number.
Source: `core/cache.py` `_Missing` -/
inductive Ttl (T : Type)
  | unset
  | never
  | seconds (t : T)
  deriving DecidableEq

/-- A stored entry.
Source: `core/entry.py` `CacheEntry` -/
structure CacheEntry (α V T : Type) where
  key : Key α
  value : V
  createdAt : T
  lastAccessedAt : T
  hitCount : ℤ
  expiresAt : Option T
  ttl : Option T
  version : ℕ
  dirty : Bool

/-- What `inspect` and `dump` show of an entry.
Source: `core/entry.py` `EntrySnapshot` -/
structure EntrySnapshot (α V T : Type) where
  key : Key α
  value : V
  createdAt : T
  lastAccessedAt : T
  hitCount : ℤ
  expiresAt : Option T
  ttl : Option T
  ttlRemaining : Option T
  version : ℕ
  dirty : Bool
  deriving DecidableEq

namespace CacheEntry

variable {α V T : Type} [LinearOrder T]

/-- An entry is expired from its deadline on, the deadline included.
Source: `core/entry.py` `CacheEntry.is_expired` -/
def isExpired (e : CacheEntry α V T) (now : T) : Bool :=
  match e.expiresAt with
  | none => false
  | some t => decide (t ≤ now)

/-- A counted read.
Source: `core/entry.py` `CacheEntry.touch` -/
def touch (e : CacheEntry α V T) (now : T) : CacheEntry α V T :=
  { e with lastAccessedAt := now, hitCount := e.hitCount + 1 }

/-- The snapshot of an entry.
Source: `core/entry.py` `CacheEntry.snapshot` -/
def snapshot [Zero T] [Sub T] (e : CacheEntry α V T) (now : T) : EntrySnapshot α V T where
  key := e.key
  value := e.value
  createdAt := e.createdAt
  lastAccessedAt := e.lastAccessedAt
  hitCount := e.hitCount
  expiresAt := e.expiresAt
  ttl := e.ttl
  ttlRemaining := e.expiresAt.map fun t => max 0 (t - now)
  version := e.version
  dirty := e.dirty

end CacheEntry

/-- The fields of a configuration that the modelled code reads. The two that are left out bound real-time waits:
`write_back_retry_delay` and `shutdown_timeout` are taken to be lengths of time that one can wait for, neither negative
nor nan nor infinite. So is `queue_put_timeout`, except that it may be negative.
Source: `core/config.py` `CacheConfig` -/
structure CacheConfig (T : Type) where
  capacity : ℕ := 128
  defaultTtl : Option T := none
  policy : PolicyName := .lru
  shardCount : ℕ := 1
  workerCount : ℕ := 0
  writeMode : WriteMode := .cacheOnly
  schedulerInterval : T
  queueSize : ℕ := 0
  writeBackRetryCount : ℕ := 2
  shutdownFlush : Bool := true
  activeExpiration : Bool := true
  queuePutTimeout : T

variable {T : Type} [LinearOrder T] [Zero T]

/-- Validation of a configuration; the error is the text of the `ConfigurationError`.
Source: `core/config.py` `CacheConfig.__post_init__` -/
def CacheConfig.postInit (c : CacheConfig T) : Except String Unit :=
  if c.capacity < 1 then .error "capacity must be >= 1"
  else if c.shardCount ≤ 0 then .error "shard_count must be > 0"
  else if c.capacity < c.shardCount then
    .error ("capacity (" ++ toString c.capacity ++ ") must be >= shard_count (" ++
      toString c.shardCount ++ ") so every shard can hold at least one entry")
  else if c.defaultTtl.any (fun t => decide (t < 0)) then
    .error "default_ttl must be >= 0 (0 or None disables expiry)"
  else if c.schedulerInterval < 0 then .error "scheduler_interval must be >= 0"
  else if c.activeExpiration && decide (c.schedulerInterval ≤ 0) then
    .error "scheduler_interval must be > 0 when active_expiration is enabled"
  else .ok ()

/-- The queue takes no job with a timeout: `queue.Queue.put` raises `ValueError` for a negative one, if the queue is
bounded, whether there is room or not. -/
def CacheConfig.rejectsPuts (c : CacheConfig T) : Bool := decide (c.queueSize ≠ 0) && decide (c.queuePutTimeout < 0)

/-- A configuration that passed its validation. -/
structure AcceptedConfig (T : Type) [LinearOrder T] [Zero T] extends CacheConfig T where
  accepted : toCacheConfig.postInit = .ok ()

/-- What the validation establishes about the sizes. -/
theorem CacheConfig.sizes_of_postInit {c : CacheConfig T} (h : c.postInit = .ok ()) :
    0 < c.shardCount ∧ c.shardCount ≤ c.capacity := by
  unfold CacheConfig.postInit at h
  split_ifs at h with h₁ h₂ h₃
  omega

/-- An accepted configuration has at least one shard. -/
theorem AcceptedConfig.shardCount_pos (c : AcceptedConfig T) : 0 < c.shardCount :=
  (CacheConfig.sizes_of_postInit c.accepted).1

/-- An accepted configuration has at least as much capacity as shards. -/
theorem AcceptedConfig.shardCount_le_capacity (c : AcceptedConfig T) : c.shardCount ≤ c.capacity :=
  (CacheConfig.sizes_of_postInit c.accepted).2

/-- The smallest cache: one shard with one entry. The concrete runs below use it. -/
def oneEntry (policy : PolicyName) (mode : WriteMode) (workers queueSize retries : ℕ) :
    AcceptedConfig ℕ :=
  ⟨{ capacity := 1
     policy := policy
     workerCount := workers
     writeMode := mode
     schedulerInterval := 1
     queueSize := queueSize
     writeBackRetryCount := retries
     queuePutTimeout := 1 }, rfl⟩

end CacheLab
