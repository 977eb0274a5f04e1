import CacheLab.Workers.Jobs

/-!
# The lock sections of the cache operations

What each operation of `Cache` does while it holds the lock of one shard, as a pure function of the
shard, the clock reading and the outcome of its calls on the source backend. The operations
themselves are sequences of these sections (`System/Step.lean`).

A section that may call the source returns a `SectionResult`: the shard and the source after it, the
flush jobs it leaves to be enqueued and whether it raised. A section that raises keeps what it did
before the failing call, as the source does.
-/

set_option linter.unusedSectionVars false

namespace CacheLab

variable {α V T : Type} [DecidableEq α] [LinearOrder T] [Zero T] [Add T]

/-- The state after a section that may call the source backend. -/
structure SectionResult (α V T : Type) [DecidableEq α] where
  shard : CacheShard α V T
  source : Source α V
  jobs : List (FlushWriteBack α V) := []
  raised : Bool := false

/-- The lifetime and the deadline of the entry a put stores.
Source: `core/cache.py` `Cache._resolve_ttl` -/
def resolveTtl (cfg : CacheConfig T) (existing : Option (CacheEntry α V T)) (ttl : Ttl T) (now : T) :
    Option T × Option T :=
  let fromValue (ttlValue : Option T) : Option T × Option T :=
    match ttlValue with
    | none => (none, none)
    | some t => if t ≤ 0 then (none, none) else (some t, some (now + t))
  match ttl with
  | .unset =>
      match existing with
      | some e => (e.ttl, e.expiresAt)
      | none => fromValue cfg.defaultTtl
  | .never => fromValue none
  | .seconds t => fromValue (some t)

/-- Source: `core/cache.py` `Cache._validate_explicit_ttl` -/
def validExplicitTtl : Ttl T → Bool
  | .unset => true
  | .never => true
  | .seconds t => decide (0 < t)

namespace CacheShard

/-- Lazy expiration of one key: remove its entry if it is expired.
Source: the first lines of `Cache.put` and of `Cache.inspect` in `core/cache.py` -/
def dropExpired (sh : CacheShard α V T) (key : Key α) (now : T) : CacheShard α V T :=
  match sh.backend.getEntry key with
  | none => sh
  | some e => if e.isExpired now then (sh.removeEntryLocked key .expire).2 else sh

/-- The entry that a put stores over `existing`.
Source: `core/cache.py` `Cache.put` -/
def freshEntry (cfg : CacheConfig T) (existing : Option (CacheEntry α V T)) (version : ℕ)
    (key : Key α) (value : V) (ttl : Ttl T) (now : T) : CacheEntry α V T where
  key := key
  value := value
  createdAt := (existing.map CacheEntry.createdAt).getD now
  lastAccessedAt := now
  hitCount := (existing.map CacheEntry.hitCount).getD 0
  expiresAt := (resolveTtl cfg existing ttl now).2
  ttl := (resolveTtl cfg existing ttl now).1
  version := version
  dirty := decide (cfg.writeMode = .writeBack)

/-- The part of a put between the source call and the capacity enforcement: take a version, drop the
tombstone, store the entry and tell the policy.
Source: `core/cache.py` `Cache.put` -/
def storeLocked (cfg : CacheConfig T) (sh : CacheShard α V T) (key : Key α) (value : V) (ttl : Ttl T)
    (now : T) : CacheShard α V T :=
  let entry := freshEntry cfg (sh.backend.getEntry key) (sh.nextVersion key) key value ttl now
  { sh.bumpVersion key with
    tombstones := sh.tombstones.erase key
    backend := sh.backend.putEntry entry
    policy := sh.policy.onPut key
    stats := { sh.stats with puts := sh.stats.puts + 1 } }

/-- The lock section of a put.
Source: `core/cache.py` `Cache.put` -/
def putLocked (cfg : CacheConfig T) (sh : CacheShard α V T) (src : Source α V) (key : Key α)
    (value : V) (ttl : Ttl T) (now : T) (ok : Bool) : SectionResult α V T :=
  let sh := sh.dropExpired key now
  if cfg.writeMode = .writeThrough ∧ ok = false then { shard := sh, source := src, raised := true }
  else
    let src := if cfg.writeMode = .writeThrough then src.apply key (.put value) else src
    let version := sh.nextVersion key
    let sh := (sh.storeLocked cfg key value ttl now).enforceCapacityLocked
    if cfg.writeMode = .writeBack then
      { shard := sh.registerPendingLocked key
        source := src
        jobs := [
          { shardIndex := sh.index
            key := key
            operation := .put value
            version := version
            retriesLeft := cfg.writeBackRetryCount }] }
    else { shard := sh, source := src }

/-- The write-back bookkeeping of a delete: a version, a tombstone and a pending flush.
Source: `core/cache.py` `Cache.delete`, `Cache.clear` -/
def buryLocked (sh : CacheShard α V T) (key : Key α) : CacheShard α V T :=
  { sh.bumpVersion key with
    tombstones := sh.tombstones.set key (sh.nextVersion key) }.registerPendingLocked key

/-- The flush job of a delete.
Source: `core/cache.py` `Cache.delete`, `Cache.clear` -/
def deleteJob (cfg : CacheConfig T) (sh : CacheShard α V T) (key : Key α) : FlushWriteBack α V where
  shardIndex := sh.index
  key := key
  operation := .delete
  version := sh.nextVersion key
  retriesLeft := cfg.writeBackRetryCount

/-- Remove a key and count the delete when it was there.
Source: `core/cache.py` `Cache.delete`, `Cache.clear` -/
def removeCounted (sh : CacheShard α V T) (key : Key α) : CacheShard α V T :=
  let r := sh.removeEntryLocked key .delete
  if r.1 then { r.2 with stats := { r.2.stats with deletes := r.2.stats.deletes + 1 } } else r.2

/-- The part of a delete that `delete` and `clear` share, for one key whose source call succeeded.
Source: `core/cache.py` `Cache.delete`, `Cache.clear` -/
def eraseLocked (cfg : CacheConfig T) (sh : CacheShard α V T) (src : Source α V) (key : Key α) :
    SectionResult α V T :=
  { shard := (if cfg.writeMode = .writeBack then sh.buryLocked key else sh).removeCounted key
    source := if cfg.writeMode = .writeThrough then src.apply key .delete else src
    jobs := if cfg.writeMode = .writeBack then [sh.deleteJob cfg key] else [] }

/-- The lock section of a delete. That the key was there is `(sh.backend.getEntry key).isSome`.
Source: `core/cache.py` `Cache.delete` -/
def deleteLocked (cfg : CacheConfig T) (sh : CacheShard α V T) (src : Source α V) (key : Key α)
    (ok : Bool) : SectionResult α V T :=
  if cfg.writeMode = .writeThrough ∧ ok = false then { shard := sh, source := src, raised := true }
  else
    let r := eraseLocked cfg sh src key
    { r with shard := { r.shard with singleflight := r.shard.singleflight.erase key } }

/-- The loop of a clear over the keys of one shard. It stops at the first source call that fails,
before the policy and the single-flight registry are cleared.
Source: `core/cache.py` `Cache.clear` -/
def clearKeysLocked (cfg : CacheConfig T) (ok : Key α → Bool) :
    List (Key α) → CacheShard α V T → Source α V → List (FlushWriteBack α V) → SectionResult α V T
  | [], sh, src, jobs =>
      { shard := { sh with policy := sh.policy.clear, singleflight := .empty }
        source := src
        jobs := jobs }
  | key :: keys, sh, src, jobs =>
      if cfg.writeMode = .writeThrough ∧ ok key = false then
        { shard := sh, source := src, jobs := jobs, raised := true }
      else
        let r := eraseLocked cfg sh src key
        clearKeysLocked cfg ok keys r.shard r.source (jobs ++ r.jobs)

/-- The lock section of a clear on one shard.
Source: `core/cache.py` `Cache.clear` -/
def clearLocked (cfg : CacheConfig T) (sh : CacheShard α V T) (src : Source α V)
    (ok : Key α → Bool) : SectionResult α V T :=
  clearKeysLocked cfg ok sh.backend.keys sh src []

/-- Source: `core/cache.py` `Cache.inspect` -/
def inspectLocked [Sub T] (sh : CacheShard α V T) (key : Key α) (now : T) :
    Option (EntrySnapshot α V T) × CacheShard α V T :=
  let sh := sh.dropExpired key now
  ((sh.backend.getEntry key).map fun e => e.snapshot now, sh)

/-- The lock section of a dump on one shard: snapshots of the live entries, expired ones removed.
Source: `core/cache.py` `Cache.dump` -/
def dumpLocked [Sub T] (sh : CacheShard α V T) (now : T) :
    List (EntrySnapshot α V T) × CacheShard α V T :=
  sh.backend.entryList.foldl
    (fun acc e =>
      if e.isExpired now then (acc.1, (acc.2.removeEntryLocked e.key .expire).2)
      else (acc.1 ++ [e.snapshot now], acc.2))
    ([], sh)

/-- Source: `core/cache.py` `Cache.restore_entry_metadata` -/
def restoreEntryMetadata (sh : CacheShard α V T) (key : Key α) (hitCount : ℤ) : CacheShard α V T :=
  match sh.backend.getEntry key with
  | none => sh
  | some e => { sh with backend := sh.backend.putEntry { e with hitCount := hitCount } }

/-- How a `get_or_compute` goes on after its first section. -/
inductive FlightRole (V : Type)
  | cached (value : V)
  | joins (flight : ℕ)
  | leads (flight : ℕ)

/-- The first section of `get_or_compute`; `fresh` is the identity of the flight it may register.
Source: `core/cache.py` `Cache.get_or_compute` -/
def getOrComputeLocked (sh : CacheShard α V T) (key : Key α) (now : T) (fresh : ℕ) :
    FlightRole V × CacheShard α V T :=
  let r := sh.readValueLocked key true true now
  match r.1 with
  | some v => (.cached v, r.2)
  | none =>
      match r.2.singleflight.get? key with
      | some flight => (.joins flight, r.2)
      | none => (.leads fresh, { r.2 with singleflight := r.2.singleflight.set key fresh })

/-- Unregister whatever flight is registered under the key.
Source: `core/cache.py` `Cache.get_or_compute`, `Cache._fail_flight_locked` -/
def unregisterFlight (sh : CacheShard α V T) (key : Key α) : CacheShard α V T :=
  { sh with singleflight := sh.singleflight.erase key }

/-- Whether a flush job is stale for the shard. -/
def isStale (sh : CacheShard α V T) (job : FlushWriteBack α V) : Bool :=
  isStaleWriteBack sh.versionMarks sh.tombstones job

/-- Mark the entry clean if it is still the one that was written.
Source: `core/cache.py` `Cache._flush_write_back_job`, `Cache._flush_dirty_entries_sync` -/
def markCleanLocked (sh : CacheShard α V T) (job : FlushWriteBack α V) : CacheShard α V T :=
  match job.operation with
  | .delete => sh
  | .put _ =>
      match sh.backend.getEntry job.key with
      | none => sh
      | some e =>
          if e.version = job.version then
            { sh with backend := sh.backend.putEntry { e with dirty := false } }
          else sh

/-- The section after a successful flush.
Source: `core/cache.py` `Cache._flush_write_back_job` -/
def finalizeLocked (sh : CacheShard α V T) (job : FlushWriteBack α V) : CacheShard α V T :=
  (sh.markCleanLocked job).resolvePendingLocked job.key

/-- The jobs that persist the dirty entries and the tombstones of a shard.
Source: `core/cache.py` `Cache._enqueue_dirty_write_back_jobs`, `Cache._flush_dirty_entries_sync` -/
def dirtyJobs (cfg : CacheConfig T) (sh : CacheShard α V T) : List (FlushWriteBack α V) :=
  ((sh.backend.entryList.filter fun e => e.dirty).map fun e =>
    { shardIndex := sh.index
      key := e.key
      operation := .put e.value
      version := e.version
      retriesLeft := cfg.writeBackRetryCount }) ++
  sh.tombstones.items.map fun p =>
    { shardIndex := sh.index
      key := p.1
      operation := .delete
      version := p.2
      retriesLeft := cfg.writeBackRetryCount }

/-- Register a pending flush for each job of a list.
Source: `core/cache.py` `Cache._enqueue_dirty_write_back_jobs` -/
def registerAll (sh : CacheShard α V T) (jobs : List (FlushWriteBack α V)) : CacheShard α V T :=
  jobs.foldl (fun s job => s.registerPendingLocked job.key) sh

end CacheShard

end CacheLab
