import CacheLab.Core.Writes

/-!
# The rows of a shard

What a shard stores, as the list of its entries in store order, without the version and the times of the accesses
(`CacheEntry.row`). A put of a new key into a shard with room appends a row and tells the policy
(`putLocked_of_room`), whatever the policy and the key; restoring the hit count of the row that was just appended
leaves the other rows alone (`rows_restoreEntryMetadata_append`).
-/

set_option linter.unusedSectionVars false

namespace CacheLab

variable {α V T : Type} [DecidableEq α] [LinearOrder T] [Zero T] [Add T]

/-- A stored entry as far as it can be seen and saved. -/
structure EntryRow (α V T : Type) where
  key : Key α
  value : V
  hitCount : ℤ
  deadline : Option T

/-- The row of an entry. -/
def CacheEntry.row (e : CacheEntry α V T) : EntryRow α V T := ⟨e.key, e.value, e.hitCount, e.expiresAt⟩

/-- A row whose deadline is over. -/
def EntryRow.isExpired (r : EntryRow α V T) (time : T) : Bool := r.deadline.any fun t => decide (t ≤ time)

/-- Whether an entry is expired can be seen from its row. -/
theorem CacheEntry.isExpired_row (e : CacheEntry α V T) (time : T) : e.row.isExpired time = e.isExpired time := by
  rw [EntryRow.isExpired, CacheEntry.isExpired, CacheEntry.row]
  cases e.expiresAt <;> rfl

namespace InMemoryBackend

variable (b : InMemoryBackend α V T) {e : CacheEntry α V T}

/-- The listed entries after storing under a new key. -/
theorem entryList_putEntry_of_notMem (h : e.key ∉ b.keys) : (b.putEntry e).entryList = b.entryList ++ [e] := by
  show (b.entries.set e.key e).items.map Prod.snd = b.entries.items.map Prod.snd ++ [e]
  rw [OrderedDict.items_set_of_notMem h, List.map_append]
  rfl

/-- The listed entries after storing under a key that is there: the entry is replaced in its place. -/
theorem entryList_putEntry_of_mem (h : e.key ∈ b.keys) :
    (b.putEntry e).entryList = b.entryList.map fun x => if x.key = e.key then e else x := by
  show (b.entries.set e.key e).items.map Prod.snd = (b.entries.items.map Prod.snd).map _
  rw [OrderedDict.items_set_of_mem h, List.map_map, List.map_map]
  refine List.map_congr_left fun p hp => ?_
  have hkey : p.2.key = p.1 := b.keyed p.1 p.2 (OrderedDict.get?_eq_some_iff.mpr hp)
  by_cases hp' : p.1 = e.key
  · simp [hp', hkey]
  · simp [hp', hkey]

/-- The size is the number of listed entries. -/
theorem size_eq_length_entryList : b.size = b.entryList.length := by
  rw [size_eq_length_keys, ← map_key_entryList, List.length_map]

end InMemoryBackend

namespace CacheShard

variable (sh : CacheShard α V T)

/-- The rows of a shard, in store order. -/
def rows : List (EntryRow α V T) := sh.backend.entryList.map CacheEntry.row

/-- The keys of the rows are the resident keys. -/
theorem map_key_rows : sh.rows.map EntryRow.key = sh.backend.keys := by
  rw [rows, List.map_map, ← InMemoryBackend.map_key_entryList]
  rfl

theorem length_rows : sh.rows.length = sh.backend.size := by
  rw [rows, List.length_map, InMemoryBackend.size_eq_length_entryList]

variable {sh}

/-- A shard that fits loses nothing. -/
theorem enforceCapacityLocked_of_fits (h : sh.backend.size ≤ sh.capacity) : sh.enforceCapacityLocked = sh := by
  unfold enforceCapacityLocked
  cases sh.policy.len with
  | zero => rfl
  | succ n => rw [enforceLoop, if_neg (not_lt.mpr h)]

/-- **A put of a new key with room** appends its row and tells the policy. -/
theorem putLocked_of_room {cfg : CacheConfig T} (hmode : cfg.writeMode = .cacheOnly) (src : Source α V) {key : Key α}
    (hnew : key ∉ sh.backend.keys) (hroom : sh.backend.size < sh.capacity) (value : V) (ttl : Ttl T) (now : T)
    (ok : Bool) :
    (sh.putLocked cfg src key value ttl now ok).shard.rows =
        sh.rows ++ [⟨key, value, 0, (resolveTtl cfg (none : Option (CacheEntry α V T)) ttl now).2⟩] ∧
      (sh.putLocked cfg src key value ttl now ok).shard.policy = sh.policy.onPut key ∧
      (sh.putLocked cfg src key value ttl now ok).shard.capacity = sh.capacity := by
  have hnone : sh.backend.getEntry key = none := OrderedDict.get?_eq_none_iff.mpr hnew
  have hdrop : sh.dropExpired key now = sh := by
    unfold dropExpired
    rw [hnone]
  have hsize := size_storeLocked cfg sh key value ttl now
  rw [if_neg hnew] at hsize
  have hfits : (sh.storeLocked cfg key value ttl now).backend.size ≤ (sh.storeLocked cfg key value ttl now).capacity := by
    rw [hsize]
    exact hroom
  have hput : (sh.putLocked cfg src key value ttl now ok).shard = sh.storeLocked cfg key value ttl now := by
    unfold putLocked
    simp only [hmode, reduceCtorEq, false_and, if_false, hdrop, enforceCapacityLocked_of_fits hfits]
  rw [hput]
  refine ⟨?_, rfl, rfl⟩
  rw [rows, rows]
  show List.map _ (sh.backend.putEntry _).entryList = _
  rw [InMemoryBackend.entryList_putEntry_of_notMem sh.backend hnew, List.map_append, hnone]
  rfl

/-- Restoring the hit count of the row that was appended last. -/
theorem rows_restoreEntryMetadata_append {rows : List (EntryRow α V T)} {key : Key α} {value : V} {m : ℤ}
    {deadline : Option T} (h : sh.rows = rows ++ [⟨key, value, m, deadline⟩]) (n : ℤ) :
    (sh.restoreEntryMetadata key n).rows = rows ++ [⟨key, value, n, deadline⟩] := by
  have hmem : key ∈ sh.backend.keys := by
    rw [← map_key_rows, h]
    simp
  obtain ⟨e, he⟩ := InMemoryBackend.mem_keys_iff.mp hmem
  have hkey : e.key = key := sh.backend.keyed key e he
  have hnodup : (sh.rows.map EntryRow.key).Nodup := by
    rw [map_key_rows]
    exact sh.backend.entries.keys_nodup
  -- the other rows have other keys
  have hother : ∀ r ∈ rows, r.key ≠ key := by
    intro r hr heq
    rw [h, List.map_append] at hnodup
    exact (List.nodup_append.mp hnodup).2.2 r.key (List.mem_map_of_mem hr) key (by simp) heq
  have hrow : e.row = ⟨key, value, m, deadline⟩ := by
    have hlisted : e.row ∈ sh.rows :=
      List.mem_map_of_mem (InMemoryBackend.mem_entryList.mpr (hkey.symm ▸ he))
    rw [h] at hlisted
    rcases List.mem_append.mp hlisted with hr | hr
    · exact absurd hkey (hother _ hr)
    · exact List.mem_singleton.mp hr
  have hset : (sh.restoreEntryMetadata key n).rows =
      sh.rows.map fun r => if r.key = key then { e with hitCount := n : CacheEntry α V T }.row else r := by
    unfold restoreEntryMetadata
    rw [he]
    show List.map _ (sh.backend.putEntry _).entryList = _
    rw [InMemoryBackend.entryList_putEntry_of_mem sh.backend (hkey.symm ▸ hmem), CacheShard.rows, List.map_map,
      List.map_map]
    refine List.map_congr_left fun x _ => ?_
    simp only [Function.comp_apply, hkey]
    show CacheEntry.row (if x.key = key then _ else x) = if x.key = key then _ else x.row
    split_ifs <;> rfl
  have hnew : { e with hitCount := n : CacheEntry α V T }.row = ⟨key, value, n, deadline⟩ := by
    rw [CacheEntry.row, EntryRow.mk.injEq] at hrow
    obtain ⟨h₁, h₂, -, h₄⟩ := hrow
    rw [CacheEntry.row, EntryRow.mk.injEq]
    exact ⟨h₁, h₂, rfl, h₄⟩
  rw [hset, h, List.map_append, hnew]
  congr 1
  · refine (List.map_congr_left fun r hr => ?_).trans (List.map_id rows)
    exact if_neg (hother r hr)
  · simp

end CacheShard

end CacheLab
