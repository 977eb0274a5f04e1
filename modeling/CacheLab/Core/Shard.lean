import CacheLab.Policies.Base

/-!
# Shards

A `CacheShard` and the helpers of the cache that run under its lock. Each helper is a pure function
on the shard; the lock itself is the granularity at which the later modules take steps.

The backend stores every entry under its own key. That is a field of `InMemoryBackend`, so the
helpers that work through `entry.key` (the sweeps, the shutdown flush) need no side condition. The
in-place mutations of the source (`entry.touch`, `entry.dirty = False`, `entry.hit_count = n`) are
`putEntry` of the changed entry: the key is present, so it keeps its position.
-/

set_option linter.unusedSectionVars false

namespace CacheLab

variable {α V T : Type} [DecidableEq α] [LinearOrder T]

/-- The in-memory store of a shard.
Source: `storage/memory.py` `InMemoryBackend` -/
structure InMemoryBackend (α V T : Type) [DecidableEq α] where
  entries : OrderedDict (Key α) (CacheEntry α V T)
  /-- Every entry is stored under its own key. -/
  keyed : ∀ k e, entries.get? k = some e → e.key = k

namespace InMemoryBackend

/-- Source: `storage/memory.py` `InMemoryBackend.__init__` -/
def new : InMemoryBackend α V T := ⟨.empty, by simp⟩

/-- Source: `storage/memory.py` `InMemoryBackend.get_entry` -/
def getEntry (b : InMemoryBackend α V T) (k : Key α) : Option (CacheEntry α V T) := b.entries.get? k

/-- Source: `storage/memory.py` `InMemoryBackend.put_entry` -/
def putEntry (b : InMemoryBackend α V T) (e : CacheEntry α V T) : InMemoryBackend α V T where
  entries := b.entries.set e.key e
  keyed k e' h := by
    rw [OrderedDict.get?_set] at h
    split_ifs at h with hk
    · rw [← Option.some.inj h, hk]
    · exact b.keyed k e' h

/-- Source: `storage/memory.py` `InMemoryBackend.delete_entry` (the store after it) -/
def deleteEntry (b : InMemoryBackend α V T) (k : Key α) : InMemoryBackend α V T where
  entries := b.entries.erase k
  keyed k' e h := by
    rw [OrderedDict.get?_erase] at h
    split_ifs at h
    exact b.keyed k' e h

/-- Source: `storage/memory.py` `InMemoryBackend.size` -/
def size (b : InMemoryBackend α V T) : ℕ := b.entries.size

/-- Source: `storage/memory.py` `InMemoryBackend.keys` -/
def keys (b : InMemoryBackend α V T) : List (Key α) := b.entries.keys

/-- Source: `storage/memory.py` `InMemoryBackend.entries` -/
def entryList (b : InMemoryBackend α V T) : List (CacheEntry α V T) := b.entries.values

@[simp] theorem getEntry_new (k : Key α) : (new : InMemoryBackend α V T).getEntry k = none := rfl

@[simp] theorem keys_new : (new : InMemoryBackend α V T).keys = [] := rfl

/-- Lookup after `put_entry`. -/
theorem getEntry_putEntry (b : InMemoryBackend α V T) (e : CacheEntry α V T) (k : Key α) :
    (b.putEntry e).getEntry k = if k = e.key then some e else b.getEntry k :=
  OrderedDict.get?_set _ _ _ _

/-- Lookup after `delete_entry`. -/
theorem getEntry_deleteEntry (b : InMemoryBackend α V T) (k k' : Key α) :
    (b.deleteEntry k).getEntry k' = if k' = k then none else b.getEntry k' :=
  OrderedDict.get?_erase _ _ _

/-- A key is resident exactly when a lookup finds an entry. -/
theorem mem_keys_iff {b : InMemoryBackend α V T} {k : Key α} :
    k ∈ b.keys ↔ ∃ e, b.getEntry k = some e :=
  OrderedDict.mem_keys_iff

/-- A key is resident exactly when its lookup is not `none`. -/
theorem mem_keys_iff_isSome {b : InMemoryBackend α V T} {k : Key α} :
    k ∈ b.keys ↔ (b.getEntry k).isSome :=
  OrderedDict.mem_keys_iff_isSome

/-- The listed entries are the stored ones. -/
theorem mem_entryList {b : InMemoryBackend α V T} {e : CacheEntry α V T} :
    e ∈ b.entryList ↔ b.getEntry e.key = some e := by
  unfold entryList OrderedDict.values getEntry
  rw [OrderedDict.get?_eq_some_iff, List.mem_map]
  constructor
  · rintro ⟨⟨k, e'⟩, hmem, rfl⟩
    rwa [b.keyed k e' (OrderedDict.get?_eq_some_iff.mpr hmem)]
  · intro hmem
    exact ⟨(e.key, e), hmem, rfl⟩

/-- The keys of the listed entries are the resident keys, in the same order. -/
theorem map_key_entryList (b : InMemoryBackend α V T) : b.entryList.map CacheEntry.key = b.keys := by
  unfold entryList keys OrderedDict.values OrderedDict.keys
  rw [List.map_map]
  refine List.map_congr_left fun p hp => ?_
  exact b.keyed p.1 p.2 (OrderedDict.get?_eq_some_iff.mpr hp)

/-- The listed entries after `delete_entry`. -/
theorem entryList_deleteEntry (b : InMemoryBackend α V T) (k : Key α) :
    (b.deleteEntry k).entryList = b.entryList.filter fun e => e.key ≠ k := by
  unfold entryList OrderedDict.values deleteEntry OrderedDict.erase
  rw [List.filter_map]
  congr 1
  apply List.filter_congr
  intro p hp
  have hkey := b.keyed p.1 p.2 (OrderedDict.get?_eq_some_iff.mpr hp)
  simp [hkey]

/-- The size is the number of resident keys. -/
theorem size_eq_length_keys (b : InMemoryBackend α V T) : b.size = b.keys.length :=
  OrderedDict.size_eq_length_keys _

end InMemoryBackend

/-- The counters of a shard.
Source: `core/stats.py` `MutableStats` -/
structure MutableStats where
  hits : ℕ := 0
  misses : ℕ := 0
  puts : ℕ := 0
  deletes : ℕ := 0
  evictions : ℕ := 0
  expirations : ℕ := 0

/-- One shard. The single-flight registry maps a key to the identity of its running flight.
Source: `concurrency/shards.py` `CacheShard` -/
structure CacheShard (α V T : Type) [DecidableEq α] where
  index : ℕ
  capacity : ℕ
  backend : InMemoryBackend α V T
  policy : EvictionPolicy α
  stats : MutableStats := {}
  singleflight : OrderedDict (Key α) ℕ := .empty
  versionMarks : OrderedDict (Key α) ℕ := .empty
  tombstones : OrderedDict (Key α) ℕ := .empty
  pendingFlushes : OrderedDict (Key α) ℕ := .empty

/-- The capacities of the shards.
Source: `concurrency/shards.py` `shard_capacities` -/
def shardCapacities (totalCapacity shardCount : ℕ) : List ℕ :=
  (List.range shardCount).map fun index =>
    totalCapacity / shardCount + (if index < totalCapacity % shardCount then 1 else 0)

/-- The capacity of one shard. -/
theorem getD_shardCapacities (total n : ℕ) (i : Fin n) :
    (shardCapacities total n).getD i 0 = total / n + if (i : ℕ) < total % n then 1 else 0 := by
  simp [shardCapacities, List.getD]

/-- Why an entry is removed. -/
inductive RemoveReason
  | evict
  | expire
  | delete
  deriving DecidableEq

namespace CacheShard

/-- The version of the next write of `key`.
Source: `concurrency/shards.py` `CacheShard.next_version` (the returned number) -/
def nextVersion (sh : CacheShard α V T) (key : Key α) : ℕ := (sh.versionMarks.get? key).getD 0 + 1

/-- The shard after `next_version`.
Source: `concurrency/shards.py` `CacheShard.next_version` -/
def bumpVersion (sh : CacheShard α V T) (key : Key α) : CacheShard α V T :=
  { sh with versionMarks := sh.versionMarks.set key (sh.nextVersion key) }

/-- Source: `core/cache.py` `Cache._maybe_prune_marks_locked` -/
def maybePruneMarksLocked (sh : CacheShard α V T) (key : Key α) : CacheShard α V T :=
  if 0 < (sh.pendingFlushes.get? key).getD 0 then sh
  else if (sh.backend.getEntry key).isSome then sh
  else
    { sh with
      versionMarks := sh.versionMarks.erase key
      tombstones := sh.tombstones.erase key }

/-- Source: `core/cache.py` `Cache._register_pending_locked` -/
def registerPendingLocked (sh : CacheShard α V T) (key : Key α) : CacheShard α V T :=
  { sh with pendingFlushes := sh.pendingFlushes.set key ((sh.pendingFlushes.get? key).getD 0 + 1) }

/-- Source: `core/cache.py` `Cache._resolve_pending_locked` -/
def resolvePendingLocked (sh : CacheShard α V T) (key : Key α) : CacheShard α V T :=
  let remaining := (sh.pendingFlushes.get? key).getD 0 - 1
  let pending :=
    if 0 < remaining then sh.pendingFlushes.set key remaining else sh.pendingFlushes.erase key
  { sh with pendingFlushes := pending }.maybePruneMarksLocked key

/-- Source: `core/cache.py` `Cache._clear_pending_flushes_locked` -/
def clearPendingFlushesLocked (sh : CacheShard α V T) (key : Key α) : CacheShard α V T :=
  { sh with pendingFlushes := sh.pendingFlushes.erase key }.maybePruneMarksLocked key

/-- The counters after a removal that found an entry. -/
def countRemoval (st : MutableStats) : RemoveReason → MutableStats
  | .evict => { st with evictions := st.evictions + 1 }
  | .expire => { st with expirations := st.expirations + 1 }
  | .delete => st

/-- Remove an entry from store and policy; the answer says whether there was one.
Source: `core/cache.py` `Cache._remove_entry_locked` -/
def removeEntryLocked (sh : CacheShard α V T) (key : Key α) (reason : RemoveReason) :
    Bool × CacheShard α V T :=
  let removed := (sh.backend.getEntry key).isSome
  (removed,
    { sh with
      backend := sh.backend.deleteEntry key
      policy := sh.policy.onDelete key
      stats := if removed then countRemoval sh.stats reason else sh.stats }.maybePruneMarksLocked
        key)

/-- The eviction loop with a bound on its rounds. -/
def enforceLoop : ℕ → CacheShard α V T → CacheShard α V T
  | 0, sh => sh
  | n + 1, sh =>
      if sh.capacity < sh.backend.size then
        match sh.policy.evictCandidate with
        | none => sh
        | some a => enforceLoop n (sh.removeEntryLocked (some a) .evict).2
      else sh

/-- Evict until the shard fits or the policy offers no victim. A round that goes on removes a tracked
key from the policy, so `len(policy)` rounds are all there can be.
Source: `core/cache.py` `Cache._enforce_capacity_locked` -/
def enforceCapacityLocked (sh : CacheShard α V T) : CacheShard α V T := enforceLoop sh.policy.len sh

/-- A read of `key`: the value if it is live.
Source: `core/cache.py` `Cache._read_value_locked` -/
def readValueLocked (sh : CacheShard α V T) (key : Key α) (touch countStats : Bool) (now : T) :
    Option V × CacheShard α V T :=
  match sh.backend.getEntry key with
  | none =>
      (none,
        if countStats then { sh with stats := { sh.stats with misses := sh.stats.misses + 1 } }
        else sh)
  | some e =>
      if e.isExpired now then
        let sh' := (sh.removeEntryLocked key .expire).2
        (none,
          if countStats then { sh' with stats := { sh'.stats with misses := sh'.stats.misses + 1 } }
          else sh')
      else
        let sh' :=
          if touch then
            { sh with backend := sh.backend.putEntry (e.touch now), policy := sh.policy.onGet key }
          else sh
        (some e.value,
          if countStats then { sh' with stats := { sh'.stats with hits := sh'.stats.hits + 1 } }
          else sh')

/-- Remove a list of keys one after another; the answer counts the entries that were there. -/
def removeEntriesLocked (sh : CacheShard α V T) (keys : List (Key α)) (reason : RemoveReason) :
    ℕ × CacheShard α V T :=
  keys.foldl
    (fun acc key =>
      let r := acc.2.removeEntryLocked key reason
      (if r.1 then acc.1 + 1 else acc.1, r.2))
    (0, sh)

/-- The keys of the entries that are expired at `now`.
Source: `workers/expiration_worker.py` `expired_keys` -/
def expiredKeys (entries : List (CacheEntry α V T)) (now : T) : List (Key α) :=
  (entries.filter fun e => e.isExpired now).map CacheEntry.key

/-- Source: `core/cache.py` `Cache._expire_shard` -/
def expireShard (sh : CacheShard α V T) (now : T) : ℕ × CacheShard α V T :=
  sh.removeEntriesLocked (expiredKeys sh.backend.entryList now) .expire

end CacheShard

end CacheLab
