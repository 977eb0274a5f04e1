import CacheLab.Cli.Load
import CacheLab.Properties.Victims

/-!
# Saving and loading a cache

The file that is written for a reachable cache, and the cache that is loaded from it, by a process with a clock of its
own. Times are exact here: they form an ordered group.

* Every live row of the cache is written as an item, and the item is loaded as the row with its deadline moved to the
  other clock (`EntryRow.moved`). The loader restores a hit count only if it is positive, so a negative one, which
  `restore_entry_metadata` stores like any other integer, comes back as zero (`negative_hit_count_is_not_loaded`).
* The rows of one shard go to one shard again, and have room there, so nothing is evicted on the way
  (`fits_movedRows`).
* `state_round_trip`: the loaded cache shows the same entries in the same order, under FIFO it evicts in the same
  order, and saving it writes the same file, up to negative hit counts.
-/

set_option linter.unusedSectionVars false

namespace CacheLab

/-! ### Lists over all shards -/

section Lists

variable {β : Type}

/-- Of the parts of a list, one is left. -/
theorem flatMap_ite_eq {ι : Type} [DecidableEq ι] {l : List ι} (hnd : l.Nodup) {i : ι} (hi : i ∈ l) (f : ι → List β) :
    (l.flatMap fun j => if j = i then f j else []) = f i := by
  induction l with
  | nil => cases hi
  | cons j l ih =>
      obtain ⟨hj, hnd⟩ := List.nodup_cons.mp hnd
      rw [List.flatMap_cons]
      rcases List.mem_cons.mp hi with rfl | hi
      · have hnone : (l.flatMap fun j => if j = i then f j else []) = [] := by
          refine List.flatMap_eq_nil_iff.mpr fun k hk => ?_
          have hne : k ≠ i := fun heq => hj (heq ▸ hk)
          rw [if_neg hne]
        rw [if_pos rfl, hnone, List.append_nil]
      · have hne : j ≠ i := fun heq => hj (heq ▸ hi)
        rw [if_neg hne, List.nil_append, ih hnd hi]

/-- A list over all indices, with the indices counted in another way. -/
theorem map_finRange_cast {n m : ℕ} (h : m = n) (f : Fin n → β) :
    (List.finRange n).map f = (List.finRange m).map fun i => f (i.cast h) := by
  subst h
  rfl

/-- See `map_finRange_cast`. -/
theorem flatMap_finRange_cast {n m : ℕ} (h : m = n) (f : Fin n → List β) :
    (List.finRange n).flatMap f = (List.finRange m).flatMap fun i => f (i.cast h) := by
  rw [List.flatMap_def, List.flatMap_def, map_finRange_cast h]

/-- Lists that look alike in one way look alike in a way that depends on it. -/
theorem map_eq_of_map_eq {γ δ : Type} {f f' : β → γ} {g g' : β → δ} (hfg : ∀ x y, f' x = f y → g' x = g y)
    {l l' : List β} (h : l'.map f' = l.map f) : l'.map g' = l.map g := by
  induction l generalizing l' with
  | nil =>
      obtain rfl := List.map_eq_nil_iff.mp h
      rfl
  | cons x l ih =>
      cases l' with
      | nil => cases h
      | cons y l' =>
          obtain ⟨hhead, htail⟩ := List.cons.inj h
          rw [List.map_cons, List.map_cons, hfg y x hhead, ih htail]

end Lists

variable {α V T : Type} [DecidableEq α] [AddCommGroup T] [LinearOrder T] [IsOrderedAddMonoid T]

variable {cfg cfg' : AcceptedConfig T} {hash : Key α → ℕ}

/-! ### Rows on another clock -/

/-- The row with its deadline moved from one clock to another, and its hit count if that is not negative. -/
def EntryRow.moved (time time' : T) (r : EntryRow α V T) : EntryRow α V T :=
  { r with hitCount := max 0 r.hitCount, deadline := r.deadline.map fun t => time' + (t - time) }

/-- The item with its hit count if that is not negative. -/
def StateItem.counted (item : StateItem α V T) : StateItem α V T := { item with hitCount := max 0 item.hitCount }

/-- The live rows of a shard, moved to another clock. -/
def CacheShard.movedRows (time time' : T) (sh : CacheShard α V T) : List (EntryRow α V T) :=
  (sh.rows.filter fun r => !r.isExpired time).map (EntryRow.moved time time')

variable {time time' : T} {r : EntryRow α V T}

/-- A live row stays live on another clock. -/
theorem EntryRow.isExpired_moved (h : r.isExpired time = false) : (r.moved time time').isExpired time' = false := by
  unfold EntryRow.isExpired EntryRow.moved at *
  cases hd : r.deadline with
  | none => rfl
  | some t =>
      simp only [hd, Option.any_some, Option.map_some, decide_eq_false_iff_not, not_le] at h ⊢
      exact lt_add_of_pos_right time' (sub_pos.mpr h)

/-- What is written for a row does not depend on the clock. -/
theorem EntryRow.item_moved : (r.moved time time').item time' = (r.item time).counted := by
  unfold EntryRow.item EntryRow.moved StateItem.counted
  cases r.deadline with
  | none => rfl
  | some t =>
      simp only [Option.map_some]
      rw [add_sub_cancel_left]

/-- What is written for a live row is loaded as that row on the clock of the loader. -/
theorem EntryRow.row_item (h : r.isExpired time = false) (config : CacheConfig T) (wallNow : T) :
    (r.item time).row config time' wallNow = some (r.moved time time') := by
  obtain ⟨key, value, hitCount, deadline⟩ := r
  cases deadline with
  | none => rfl
  | some t =>
      have hlive : time < t := by
        simpa [EntryRow.isExpired] using h
      have hpos : 0 < t - time := sub_pos.mpr hlive
      have httl : ttlFromStateItem (EntryRow.item time ⟨key, value, hitCount, some t⟩) wallNow =
          .store (.seconds (t - time)) := by
        simp only [ttlFromStateItem, EntryRow.item, ItemTtl.ofRemaining, max_eq_right hpos.le, if_neg (not_le.mpr hpos)]
      rw [StateItem.row, httl]
      simp only [EntryRow.item, resolveTtl, if_neg (not_le.mpr hpos), EntryRow.moved, Option.map_some]

/-- Saving the moved rows writes the same items. -/
theorem items_of_movedRows {sh sh' : CacheShard α V T} (h : sh'.rows = sh.movedRows time time') :
    sh'.items time' = (sh.items time).map StateItem.counted := by
  have hall : (sh.movedRows time time').filter (fun r => !r.isExpired time') = sh.movedRows time time' := by
    refine List.filter_eq_self.mpr fun r hr => ?_
    obtain ⟨r₀, hr₀, rfl⟩ := List.mem_map.mp hr
    have hlive : r₀.isExpired time = false := by simpa using (List.mem_filter.mp hr₀).2
    rw [EntryRow.isExpired_moved hlive]
    rfl
  rw [CacheShard.items, h, hall, CacheShard.movedRows, List.map_map, CacheShard.items, List.map_map]
  exact List.map_congr_left fun r _ => EntryRow.item_moved

/-- The keys of the moved rows. -/
theorem map_key_movedRows (sh : CacheShard α V T) :
    (sh.movedRows time time').map EntryRow.key = (sh.rows.filter fun r => !r.isExpired time).map EntryRow.key := by
  rw [CacheShard.movedRows, List.map_map]
  rfl

/-! ### The two caches -/

/-- Two configurations with the same capacity, the same number of shards and the same policy. -/
structure SameShape (cfg cfg' : AcceptedConfig T) : Prop where
  capacity_eq : cfg'.capacity = cfg.capacity
  shardCount_eq : cfg'.shardCount = cfg.shardCount
  policy_eq : cfg'.policy = cfg.policy

/-- The same key goes to the same shard. -/
theorem SameShape.shardFor_eq (h : SameShape cfg cfg') (hash : Key α → ℕ) (key : Key α) :
    (shardFor cfg' hash key).cast h.shardCount_eq = shardFor cfg hash key := by
  ext
  simp only [Fin.val_cast, shardFor, h.shardCount_eq]

/-- The rows that are loaded, in file order. -/
def Shared.movedRows (time' : T) (s : Shared α V cfg) : List (EntryRow α V T) :=
  (List.finRange cfg.shardCount).flatMap fun i => (s.shards i).movedRows s.now time'

section Load

variable {s : System α V cfg} (hbase : Base hash s) (hshape : SameShape cfg cfg') (time' : T)

include hbase hshape

/-- The moved rows of a shard go to the same shard again. -/
theorem rowsOf_movedRows (i : Fin cfg'.shardCount) :
    rowsOf hash i (s.shared.movedRows time') =
      (s.shared.shards (i.cast hshape.shardCount_eq)).movedRows s.shared.now time' := by
  have hpart : ∀ j : Fin cfg'.shardCount, rowsOf hash i
      ((s.shared.shards (j.cast hshape.shardCount_eq)).movedRows s.shared.now time') =
      if j = i then (s.shared.shards (j.cast hshape.shardCount_eq)).movedRows s.shared.now time' else [] := by
    intro j
    have hroute : ∀ r ∈ (s.shared.shards (j.cast hshape.shardCount_eq)).movedRows s.shared.now time',
        shardFor cfg' hash r.key = j := by
      intro r hr
      obtain ⟨r₀, hr₀, rfl⟩ := List.mem_map.mp hr
      obtain ⟨e, he, rfl⟩ := List.mem_map.mp (List.mem_filter.mp hr₀).1
      have hhome := (hbase.shards _).shardFor_eq (InMemoryBackend.mem_entryList.mp he)
      exact Fin.cast_injective hshape.shardCount_eq ((hshape.shardFor_eq hash e.key).trans hhome)
    split_ifs with hji
    · exact List.filter_eq_self.mpr fun r hr => decide_eq_true ((hroute r hr).trans hji)
    · refine List.filter_eq_nil_iff.mpr fun r hr hkey => hji ?_
      exact (hroute r hr).symm.trans (of_decide_eq_true hkey)
  rw [Shared.movedRows, flatMap_finRange_cast hshape.shardCount_eq, rowsOf, List.filter_flatMap]
  refine (List.flatMap_congr fun j _ => hpart j).trans ?_
  exact flatMap_ite_eq (List.nodup_finRange _) (List.mem_finRange i)
    fun j => (s.shared.shards (j.cast hshape.shardCount_eq)).movedRows s.shared.now time'

/-- **The rows of a cache that keeps its capacities fit** into a fresh cache. -/
theorem fits_movedRows (hcap : ∀ i, (s.shared.shards i).backend.size ≤ (s.shared.shards i).capacity) :
    Fits cfg' hash (s.shared.movedRows time') where
  nodup := by
    rw [Shared.movedRows, List.map_flatMap, List.nodup_flatMap]
    have hkeys : ∀ i k, k ∈ ((s.shared.shards i).movedRows s.shared.now time').map EntryRow.key →
        shardFor cfg hash k = i := by
      intro i k hk
      obtain ⟨r, hr, rfl⟩ := List.mem_map.mp hk
      obtain ⟨r₀, hr₀, rfl⟩ := List.mem_map.mp hr
      obtain ⟨e, he, rfl⟩ := List.mem_map.mp (List.mem_filter.mp hr₀).1
      exact (hbase.shards i).shardFor_eq (InMemoryBackend.mem_entryList.mp he)
    refine ⟨fun i _ => ?_, ?_⟩
    · rw [map_key_movedRows]
      refine List.Nodup.sublist (List.filter_sublist.map _) ?_
      rw [CacheShard.map_key_rows]
      exact (s.shared.shards i).backend.entries.keys_nodup
    · refine (List.nodup_finRange _).imp fun {i j} hij => ?_
      exact fun k hi hj => hij ((hkeys i k hi).symm.trans (hkeys j k hj))
  room i := by
    rw [rowsOf_movedRows hbase hshape, CacheShard.movedRows, List.length_map]
    refine (List.length_filter_le _ _).trans ?_
    rw [CacheShard.length_rows]
    have hlist : shardCapacities cfg'.capacity cfg'.shardCount = shardCapacities cfg.capacity cfg.shardCount := by
      rw [hshape.capacity_eq, hshape.shardCount_eq]
    refine (hcap _).trans_eq ?_
    rw [(hbase.shards _).capacity_eq, hlist]
    rfl

end Load

/-- Loading the file that was written for a cache. -/
theorem loadCacheState_saved {s : System α V cfg} (hbase : Base hash s) (hshape : SameShape cfg cfg')
    (hmode : cfg'.writeMode = .cacheOnly)
    (hcap : ∀ i, (s.shared.shards i).backend.size ≤ (s.shared.shards i).capacity) (time' wallNow : T) :
    ∃ s', loadCacheState cfg' hash (fun _ => time') wallNow
        (some ((s.shared.shardList.flatMap (CacheShard.items s.shared.now)).map some)) = some s' ∧
      Filled hash s' (s.shared.movedRows time') := by
  have hfits : Fits cfg' hash ([] ++ s.shared.movedRows time') := fits_movedRows hbase hshape time' hcap
  -- the items of the file and the rows to be loaded, from the live rows
  have hitems : s.shared.shardList.flatMap (CacheShard.items s.shared.now) =
      ((List.finRange cfg.shardCount).flatMap fun i => (s.shared.shards i).rows.filter fun r =>
        !r.isExpired s.shared.now).map (EntryRow.item s.shared.now) := by
    rw [Shared.shardList, List.flatMap_map, List.map_flatMap]
    rfl
  have hrows : s.shared.movedRows time' =
      ((List.finRange cfg.shardCount).flatMap fun i => (s.shared.shards i).rows.filter fun r =>
        !r.isExpired s.shared.now).map (EntryRow.moved s.shared.now time') := by
    rw [Shared.movedRows, List.map_flatMap]
    rfl
  have hload : ∀ (m : ℕ) (item : StateItem α V T),
      (s.shared.shardList.flatMap (CacheShard.items s.shared.now))[m]? = some item →
        item.row cfg'.toCacheConfig time' wallNow = (s.shared.movedRows time')[m]? := by
    intro m item hm
    rw [hitems, List.getElem?_map, Option.map_eq_some_iff] at hm
    obtain ⟨r, hr, rfl⟩ := hm
    rw [hrows, List.getElem?_map, hr]
    obtain ⟨i, -, hmem⟩ := List.mem_flatMap.mp (List.mem_of_getElem? hr)
    exact EntryRow.row_item (by simpa using (List.mem_filter.mp hmem).2) _ _
  have hlength : (s.shared.shardList.flatMap (CacheShard.items s.shared.now)).length =
      (s.shared.movedRows time').length := by
    rw [hitems, hrows, List.length_map, List.length_map]
  have hrun : ∃ s', loadItems hash (fun _ => time') wallNow 0 _ _ = some s' ∧ Filled hash s' _ :=
    (filled_initial cfg' hash time').loadItems hmode hfits hlength hload
  obtain ⟨s', hs', hfilled⟩ := hrun
  refine ⟨s', ?_, hfilled⟩
  rw [loadCacheState, Option.bind_some]
  rw [itemsOf_map_some]
  exact hs'

/-! ### The round trip -/

/-- What a dump shows of an entry, as far as it is saved: key, value, hit count and remaining lifetime. -/
def EntrySnapshot.kept (snapshot : EntrySnapshot α V T) : Key α × V × ℤ × Option T :=
  (snapshot.key, snapshot.value, snapshot.hitCount, snapshot.ttlRemaining)

/-- What is left of it when it is loaded: a negative hit count is not restored. -/
def EntrySnapshot.restored (snapshot : EntrySnapshot α V T) : Key α × V × ℤ × Option T :=
  (snapshot.key, snapshot.value, max 0 snapshot.hitCount, snapshot.ttlRemaining)

/-- An entry for which the item of another one is written, but with a counted hit count, is what is left of that. -/
theorem EntrySnapshot.kept_of_item {snapshot snapshot' : EntrySnapshot α V T}
    (h : snapshot.item = snapshot'.item.counted) : snapshot.kept = snapshot'.restored := by
  obtain ⟨hkey, hvalue, httl, -, hhits⟩ := StateItem.mk.inj h
  have hremaining : snapshot.ttlRemaining = snapshot'.ttlRemaining := by
    cases h₁ : snapshot.ttlRemaining <;> cases h₂ : snapshot'.ttlRemaining <;>
      simp [EntrySnapshot.item, h₁, h₂] at httl ⊢
    exact httl
  unfold kept restored
  rw [Option.some.inj hkey, hvalue, hhits, hremaining]
  rfl

/-- The cache `s'` at the time `time'` of its clock is the cache `s`, as a dump had shown it, up to negative hit
counts: the dump shows the same entries in the same order, and there are no others; under FIFO the next victims are the
same; and saving `s'` writes the same items. -/
structure Restored (hash : Key α → ℕ) (s : Shared α V cfg) (shown : List (EntrySnapshot α V T)) (time' : T)
    (s' : Shared α V cfg') : Prop where
  dump : ∃ s'' shown', callAt hash time' s' (.dump none) = some (s'', Result.snapshots shown') ∧
    shown'.map EntrySnapshot.kept = shown.map EntrySnapshot.restored ∧ s'.total = shown'.length
  order : cfg.policy = .fifo →
    s'.shardList.map (fun sh => sh.policy.order) = s.shardList.map fun sh => sh.policy.order
  save : ∃ s'', saveCacheState hash time' s' =
    some (s'', some ((shown.map fun snapshot => snapshot.item.counted).map some))

section Filled

variable {s : Shared α V cfg} {s' : Shared α V cfg'} (hshape : SameShape cfg cfg')
  (hrows : ∀ i, (s'.shards i).rows = (s.shards (i.cast hshape.shardCount_eq)).movedRows s.now time')

include hrows

/-- A cache that holds the moved rows of another one: the same items are written for it. -/
theorem items_filled : s'.shardList.flatMap (CacheShard.items time') =
    (s.shardList.flatMap (CacheShard.items s.now)).map StateItem.counted := by
  rw [Shared.shardList, Shared.shardList, List.flatMap_map, List.flatMap_map, List.map_flatMap,
    flatMap_finRange_cast hshape.shardCount_eq]
  exact List.flatMap_congr fun i _ => items_of_movedRows (hrows i)

/-- A cache that holds the moved rows of another one holds nothing that is expired. -/
theorem total_filled : s'.total = (s'.shardList.flatMap (CacheShard.items time')).length := by
  rw [Shared.total, Shared.shardList, List.flatMap_map, List.length_flatMap]
  refine congrArg List.sum (List.map_congr_left fun i _ => ?_)
  have hall : (s'.shards i).items time' = (s'.shards i).rows.map (EntryRow.item time') := by
    have hkept : (s'.shards i).rows.filter (fun r => !r.isExpired time') = (s'.shards i).rows := by
      refine List.filter_eq_self.mpr fun r hr => ?_
      rw [hrows] at hr
      obtain ⟨r₀, hr₀, rfl⟩ := List.mem_map.mp hr
      have hlive : r₀.isExpired s.now = false := by simpa using (List.mem_filter.mp hr₀).2
      rw [EntryRow.isExpired_moved hlive]
      rfl
    rw [CacheShard.items, hkept]
  rw [hall, List.length_map, CacheShard.length_rows]

end Filled

/-- The keys of a shard after a dump. -/
theorem keys_dumpLocked (sh : CacheShard α V T) (time : T) :
    (sh.dumpLocked time).2.backend.keys = (sh.rows.filter fun r => !r.isExpired time).map EntryRow.key := by
  rw [CacheShard.dumpLocked_snd, CacheShard.expireShard, ← InMemoryBackend.map_key_entryList,
    CacheShard.entryList_removeEntriesLocked, CacheShard.rows, List.filter_map, List.map_map]
  refine congrArg (List.map CacheEntry.key) (List.filter_congr fun e he => ?_)
  rw [Function.comp_apply, CacheEntry.isExpired_row]
  have hget := InMemoryBackend.mem_entryList.mp he
  by_cases hx : e.isExpired time
  · have hmem : e.key ∈ CacheShard.expiredKeys sh.backend.entryList time :=
      List.mem_map_of_mem (List.mem_filter.mpr ⟨he, hx⟩)
    simp [hx, hmem]
  · have hmem : e.key ∉ CacheShard.expiredKeys sh.backend.entryList time := by
      intro hin
      obtain ⟨e', he', hkey⟩ := List.mem_map.mp hin
      obtain ⟨hlisted, hx'⟩ := List.mem_filter.mp he'
      have hget' := InMemoryBackend.mem_entryList.mp hlisted
      rw [hkey, hget] at hget'
      exact hx (Option.some.inj hget' ▸ hx')
    simp [hx, hmem]

/-- **The round trip.** A reachable cache that is open and keeps its capacities is saved, and the file is loaded by a
process with the same capacity, shard count and policy, in cache-only mode: the loaded cache is the cache that was
saved, with the remaining lifetimes counted on its own clock and with zero for a negative hit count. The default
lifetime of the loader does not matter. -/
theorem state_round_trip {now : T} {src : Source α V} {ls : List (Label α V T)} {s : System α V cfg}
    (hreach : exec cfg hash (initial cfg now src) ls = some s) (hopen : s.shared.Open)
    (hcap : ∀ i, (s.shared.shards i).backend.size ≤ (s.shared.shards i).capacity) (hshape : SameShape cfg cfg')
    (hmode : cfg'.writeMode = .cacheOnly) (time' wallNow : T) :
    ∃ s₁ shown s', callAt hash s.shared.now s.shared (.dump none) = some (s₁, Result.snapshots shown) ∧
      saveCacheState hash s.shared.now s.shared = some (s₁, some ((shown.map EntrySnapshot.item).map some)) ∧
      loadCacheState cfg' hash (fun _ => time') wallNow (some ((shown.map EntrySnapshot.item).map some)) = some s' ∧
      Restored hash s₁ shown time' s' := by
  have hbase := base_exec hreach
  obtain ⟨s₁, shown, hdump, hsave, hitems, -, hshards⟩ := saveCacheState_dump hash hopen s.shared.now
  obtain ⟨s', hload, hfilled⟩ := loadCacheState_saved hbase hshape hmode hcap time' wallNow
  have hrows : ∀ i, (s'.shards i).rows =
      (s.shared.shards (i.cast hshape.shardCount_eq)).movedRows s.shared.now time' := fun i =>
    (hfilled.rows_eq i).trans (rowsOf_movedRows hbase hshape time' i)
  obtain ⟨s₂, shown', hdump', hsave', hitems', -, -⟩ := saveCacheState_dump hash (Or.inl hfilled.created) time'
  have hsame : shown'.map EntrySnapshot.item = shown.map fun snapshot => snapshot.item.counted := by
    rw [hitems', items_filled hshape hrows, ← hitems, List.map_map]
    rfl
  rw [← hitems] at hload
  refine ⟨s₁, shown, s', hdump, hsave, hload, ⟨s₂, shown', hdump', ?_, ?_⟩, fun hfifo => ?_, s₂, ?_⟩
  · exact map_eq_of_map_eq (fun _ _ => EntrySnapshot.kept_of_item) hsame
  · rw [total_filled hshape hrows, ← hitems', List.length_map]
  · have horder : ∀ i, (s'.shards i).policy.order = (s₁.shards (i.cast hshape.shardCount_eq)).policy.order := by
      intro i
      have hkeys : ((rowsOf hash i (s.shared.movedRows time')).map EntryRow.key) =
          ((s.shared.shards (i.cast hshape.shardCount_eq)).dumpLocked s.shared.now).2.backend.keys := by
        rw [rowsOf_movedRows hbase hshape, map_key_movedRows, keys_dumpLocked]
      have hsaved : (s₁.shards (i.cast hshape.shardCount_eq)).policy.order =
          ((s.shared.shards (i.cast hshape.shardCount_eq)).dumpLocked s.shared.now).2.backend.keys := by
        rw [hshards, CacheShard.dumpLocked_snd]
        exact (((timely_exec hreach (i.cast hshape.shardCount_eq)).expireShard).fifo hfifo).1
      have hname : (makePolicy cfg'.policy : EvictionPolicy α).name = .fifo := by
        rw [EvictionPolicy.name_makePolicy, hshape.policy_eq, hfifo]
      rw [hsaved, hfilled.policy_eq, hkeys]
      refine (EvictionPolicy.order_foldl_onPut (.inr hname) ?_).2.trans ?_
      · rw [EvictionPolicy.order_makePolicy, List.nil_append]
        exact OrderedDict.keys_nodup _
      · rw [EvictionPolicy.order_makePolicy, List.nil_append]
    rw [Shared.shardList, Shared.shardList, List.map_map, List.map_map, map_finRange_cast hshape.shardCount_eq]
    exact List.map_congr_left fun i _ => horder i
  · rw [hsave', hsame]

/-- A FIFO cache for two entries. -/
def fifoEntries : AcceptedConfig ℤ :=
    ⟨{ capacity := 2, policy := .fifo, schedulerInterval := 1, queuePutTimeout := 1 }, rfl⟩

/-- The same cache with a default lifetime. -/
def fifoEntriesTtl : AcceptedConfig ℤ :=
  ⟨{ capacity := 2, policy := .fifo, schedulerInterval := 1, queuePutTimeout := 1, defaultTtl := some 7 }, rfl⟩

/-- Two entries, one of them with a lifetime and the other one with the key `None`, saved at the time 3 and loaded at
the time 100 by a process with a default lifetime. -/
theorem state_round_trip_two :
    ∃ s : System ℕ ℕ fifoEntries,
      exec _ (fun _ => 0) (initial _ 0 .empty)
        [.call (.put (some 1) 10 (.seconds 5)), .run 0 {}, .run 0 {},
          .call (.put none 20 .unset), .run 1 {}, .run 1 {}, .tick 3] = some s ∧
      ∃ s₁ shown s', callAt (fun _ => 0) s.shared.now s.shared (.dump none) = some (s₁, Result.snapshots shown) ∧
        saveCacheState (fun _ => 0) s.shared.now s.shared =
          some (s₁, some ((shown.map EntrySnapshot.item).map some)) ∧
        loadCacheState fifoEntriesTtl (fun _ => 0) (fun _ => 100) 0 (some ((shown.map EntrySnapshot.item).map some)) =
          some s' ∧
        Restored (fun _ => 0) s₁ shown 100 s' := by
  have heval : ((exec fifoEntries (fun _ => 0) (initial _ 0 .empty)
      [.call (.put (some 1) 10 (.seconds 5)), .run 0 {}, .run 0 {},
        .call (.put none 20 .unset), .run 1 {}, .run 1 {}, .tick 3]).map fun s : System ℕ ℕ fifoEntries =>
        decide (s.shared.lifecycle = .created ∧
          ∀ i, (s.shared.shards i).backend.size ≤ (s.shared.shards i).capacity)) = some true := by
    decide +kernel
  obtain ⟨s, hs, hgood⟩ := Option.map_eq_some_iff.mp heval
  obtain ⟨hcreated, hcap⟩ := of_decide_eq_true hgood
  have hshape : SameShape fifoEntries fifoEntriesTtl := ⟨rfl, rfl, rfl⟩
  exact ⟨s, hs, state_round_trip hs (.inl hcreated) hcap hshape rfl 100 0⟩

/-- The item of a key without a lifetime. -/
def plainItem (key value : ℕ) (hitCount : ℤ) : StateItem ℕ ℕ ℤ :=
  { key := some (some key), value := value, ttlRemaining := .null, hitCount := hitCount }

/-- `restore_entry_metadata` stores the hit count −3. It is saved, the file is loaded with zero, and zero is what the
loaded cache saves. -/
theorem negative_hit_count_is_not_loaded :
    ∃ (s : System ℕ ℕ fifoEntries) (s' : Shared ℕ ℕ fifoEntries),
      exec _ (fun _ => 0) (initial _ 0 .empty)
        [.call (.put (some 1) 10 .never), .run 0 {}, .run 0 {}, .call (.restoreEntryMetadata (some 1) (-3)),
          .run 1 {}, .run 1 {}] = some s ∧
      (saveCacheState (fun _ => 0) 0 s.shared).map Prod.snd = some (some [some (plainItem 1 10 (-3))]) ∧
      loadCacheState fifoEntries (fun _ => 0) (fun _ => 0) 0 (some [some (plainItem 1 10 (-3))]) = some s' ∧
      (saveCacheState (fun _ => 0) 0 s').map Prod.snd = some (some [some (plainItem 1 10 0)]) := by
  have heval : ((exec fifoEntries (fun _ => 0) (initial _ 0 .empty)
      [.call (.put (some 1) 10 .never), .run 0 {}, .run 0 {}, .call (.restoreEntryMetadata (some 1) (-3)),
        .run 1 {}, .run 1 {}]).bind fun s : System ℕ ℕ fifoEntries =>
        (loadCacheState fifoEntries (fun _ => 0) (fun _ => 0) 0 (some [some (plainItem 1 10 (-3))])).map
          fun s' : Shared ℕ ℕ fifoEntries =>
            decide ((saveCacheState (fun _ => 0) 0 s.shared).map Prod.snd = some (some [some (plainItem 1 10 (-3))]) ∧
              (saveCacheState (fun _ => 0) 0 s').map Prod.snd = some (some [some (plainItem 1 10 0)]))) = some true := by
    decide +kernel
  obtain ⟨s, hs, heval⟩ := Option.bind_eq_some_iff.mp heval
  obtain ⟨s', hs', hsaved⟩ := Option.map_eq_some_iff.mp heval
  obtain ⟨hfirst, hsecond⟩ := of_decide_eq_true hsaved
  exact ⟨s, s', hs, hfirst, hs', hsecond⟩

end CacheLab
