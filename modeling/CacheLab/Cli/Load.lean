import CacheLab.Cli.Basic
import CacheLab.Core.Rows
import CacheLab.System.Base

/-!
# Loading and saving

Between a cache and a state file stand the rows of the shards (`Core/Rows.lean`).

* **Load.** Loading items with different keys into shards that have room for all of them: each item becomes a row of
  its shard, in file order, and the policies are told of the keys in the same order (`Filled`). No entry is evicted on
  the way, so this holds for every policy, and for the key `None` as well.
* **Save.** The file gets the rows of the shards that are not expired, shard after shard (`saveCacheState_eq`).
-/

set_option linter.unusedSectionVars false

namespace CacheLab

variable {α V T : Type} [DecidableEq α] [LinearOrder T] [Zero T] [Add T] [Sub T]

variable {cfg : AcceptedConfig T} {hash : Key α → ℕ}

/-- The row that an item is loaded as, at a time: a hit count that is not positive is not restored. `none` is an item
that is skipped or raises. -/
def StateItem.row (cfg : CacheConfig T) (time wallNow : T) (item : StateItem α V T) : Option (EntryRow α V T) :=
  match ttlFromStateItem item wallNow, item.key with
  | .store ttl, some key =>
      some ⟨key, item.value, max 0 item.hitCount, (resolveTtl cfg (none : Option (CacheEntry α V T)) ttl time).2⟩
  | _, _ => none

/-- The rows of a shard. -/
def rowsOf (hash : Key α → ℕ) (i : Fin cfg.shardCount) (rows : List (EntryRow α V T)) : List (EntryRow α V T) :=
  rows.filter fun r => shardFor cfg hash r.key = i

/-- The state of a fresh cache into which rows were put one after another. -/
structure Filled (hash : Key α → ℕ) (s : Shared α V cfg) (rows : List (EntryRow α V T)) : Prop where
  created : s.lifecycle = .created
  capacity_eq : ∀ i, (s.shards i).capacity = (shardCapacities cfg.capacity cfg.shardCount).getD i 0
  rows_eq : ∀ i, (s.shards i).rows = rowsOf hash i rows
  policy_eq : ∀ i, (s.shards i).policy =
    ((rowsOf hash i rows).map EntryRow.key).foldl EvictionPolicy.onPut (makePolicy cfg.policy)

/-- The rows fit: their keys are different, and each shard has room for those of its keys. -/
structure Fits (cfg : AcceptedConfig T) (hash : Key α → ℕ) (rows : List (EntryRow α V T)) : Prop where
  nodup : (rows.map EntryRow.key).Nodup
  room : ∀ i : Fin cfg.shardCount,
    (rowsOf hash i rows).length ≤ (shardCapacities cfg.capacity cfg.shardCount).getD i 0

/-- The first rows of rows that fit. -/
theorem Fits.left {rows rest : List (EntryRow α V T)} (h : Fits cfg hash (rows ++ rest)) : Fits cfg hash rows where
  nodup := (List.nodup_append.mp (List.map_append ▸ h.nodup)).1
  room i := by
    have hroom := h.room i
    rw [rowsOf, List.filter_append, List.length_append] at hroom
    exact (Nat.le_add_right _ _).trans hroom

/-- An empty cache is filled with nothing. -/
theorem filled_initial (cfg : AcceptedConfig T) (hash : Key α → ℕ) (now : T) :
    Filled hash (initial cfg now (.empty : Source α V)).shared [] :=
  ⟨rfl, fun _ => rfl, fun _ => rfl, fun _ => rfl⟩

/-- An item that is stored has a lifetime that a put accepts. -/
theorem validExplicitTtl_of_store {item : StateItem α V T} {wallNow : T} {ttl : Ttl T}
    (h : ttlFromStateItem item wallNow = .store ttl) : validExplicitTtl ttl = true := by
  have hremaining : ∀ t : T, ItemTtl.ofRemaining t = .store ttl → validExplicitTtl ttl = true := by
    intro t ht
    unfold ItemTtl.ofRemaining at ht
    split_ifs at ht with hle
    cases ht
    exact decide_eq_true (not_le.mp hle)
  unfold ttlFromStateItem at h
  split at h
  · cases h
    rfl
  · exact hremaining _ h
  · cases h
  · cases h
  · split at h
    · cases h
      rfl
    · cases h
      rfl
    · exact hremaining _ h
    · cases h
    · cases h

/-- A put of a new key with room. -/
theorem Filled.put {s : Shared α V cfg} {rows : List (EntryRow α V T)} (h : Filled hash s rows)
    (hmode : cfg.writeMode = .cacheOnly) {key : Key α} {value : V} {ttl : Ttl T} (time : T)
    (hfits : Fits cfg hash (rows ++ [⟨key, value, 0, (resolveTtl cfg.toCacheConfig
      (none : Option (CacheEntry α V T)) ttl time).2⟩])) :
    Filled hash (({ s with now := time }).putSection hash key value ttl true).1
      (rows ++ [⟨key, value, 0, (resolveTtl cfg.toCacheConfig (none : Option (CacheEntry α V T)) ttl time).2⟩]) := by
  set i := shardFor cfg hash key with hi
  have hnew : key ∉ (s.shards i).backend.keys := by
    rw [← CacheShard.map_key_rows, h.rows_eq]
    intro hmem
    obtain ⟨r, hr, hkey⟩ := List.mem_map.mp hmem
    have hnodup := hfits.nodup
    rw [List.map_append] at hnodup
    exact (List.nodup_append.mp hnodup).2.2 r.key (List.mem_map_of_mem (List.mem_filter.mp hr).1) key (by simp) hkey
  have hroom : (s.shards i).backend.size < (s.shards i).capacity := by
    have hlen := hfits.room i
    rw [rowsOf, List.filter_append, List.length_append] at hlen
    rw [← CacheShard.length_rows, h.rows_eq, h.capacity_eq, rowsOf]
    simp only [List.filter_cons, hi.symm, decide_true, if_true, List.length_singleton, List.filter_nil] at hlen
    omega
  obtain ⟨hrows, hpolicy, hcap⟩ := CacheShard.putLocked_of_room hmode s.source hnew hroom value ttl time true
  have hshards : (({ s with now := time }).putSection hash key value ttl true).1.shards =
      Function.update s.shards i
        ((s.shards i).putLocked cfg.toCacheConfig s.source key value ttl time true).shard := rfl
  refine ⟨h.created, fun j => ?_, fun j => ?_, fun j => ?_⟩
  · rw [hshards]
    by_cases hj : j = i
    · subst hj
      rw [Function.update_self, hcap, h.capacity_eq]
    · rw [Function.update_of_ne hj, h.capacity_eq]
  · rw [hshards, rowsOf, List.filter_append]
    by_cases hj : j = i
    · subst hj
      rw [Function.update_self, hrows, h.rows_eq]
      simp [rowsOf, ← hi]
    · have hne : ¬ i = j := fun heq => hj heq.symm
      rw [Function.update_of_ne hj, h.rows_eq]
      simp [rowsOf, ← hi, hne]
  · rw [hshards, rowsOf, List.filter_append, List.map_append, List.foldl_append]
    by_cases hj : j = i
    · subst hj
      rw [Function.update_self, hpolicy, h.policy_eq]
      simp [rowsOf, ← hi]
    · have hne : ¬ i = j := fun heq => hj heq.symm
      rw [Function.update_of_ne hj, h.policy_eq]
      simp [rowsOf, ← hi, hne]

/-- The hit count of the last row is restored. -/
theorem Filled.restore {s : Shared α V cfg} {rows : List (EntryRow α V T)} {key : Key α} {value : V} {m : ℤ}
    {deadline : Option T} (h : Filled hash s (rows ++ [⟨key, value, m, deadline⟩])) (n : ℤ) :
    Filled hash (s.setShard (shardFor cfg hash key) ((s.home hash key).restoreEntryMetadata key n))
      (rows ++ [⟨key, value, n, deadline⟩]) := by
  set i := shardFor cfg hash key with hi
  have hkeep : ((s.home hash key).restoreEntryMetadata key n).policy = (s.shards i).policy ∧
      ((s.home hash key).restoreEntryMetadata key n).capacity = (s.shards i).capacity := by
    rw [Shared.home, ← hi]
    unfold CacheShard.restoreEntryMetadata
    cases (s.shards i).backend.getEntry key <;> exact ⟨rfl, rfl⟩
  have hrows : ((s.home hash key).restoreEntryMetadata key n).rows =
      rowsOf hash i rows ++ [⟨key, value, n, deadline⟩] := by
    refine CacheShard.rows_restoreEntryMetadata_append (m := m) ?_ n
    rw [Shared.home, ← hi, h.rows_eq, rowsOf, List.filter_append]
    simp [rowsOf, ← hi]
  have hkeys : ∀ j : Fin cfg.shardCount, ((rowsOf hash j (rows ++ [⟨key, value, n, deadline⟩])).map EntryRow.key) =
      (rowsOf hash j (rows ++ [(⟨key, value, m, deadline⟩ : EntryRow α V T)])).map EntryRow.key := by
    intro j
    simp only [rowsOf, List.filter_append, List.map_append]
    congr 1
    by_cases hj : shardFor cfg hash key = j <;> simp [hj]
  refine ⟨h.created, fun j => ?_, fun j => ?_, fun j => ?_⟩
  · show (Function.update s.shards i _ j).capacity = _
    by_cases hj : j = i
    · subst hj
      rw [Function.update_self, hkeep.2, h.capacity_eq]
    · rw [Function.update_of_ne hj, h.capacity_eq]
  · show (Function.update s.shards i _ j).rows = _
    rw [rowsOf, List.filter_append]
    by_cases hj : j = i
    · subst hj
      rw [Function.update_self, hrows]
      simp [rowsOf, ← hi]
    · have hne : ¬ i = j := fun heq => hj heq.symm
      rw [Function.update_of_ne hj, h.rows_eq]
      simp [rowsOf, ← hi, hne]
  · show (Function.update s.shards i _ j).policy = _
    rw [hkeys]
    by_cases hj : j = i
    · subst hj
      rw [Function.update_self, hkeep.1, h.policy_eq]
    · rw [Function.update_of_ne hj, h.policy_eq]

/-- **Loading one item** with room appends its row. -/
theorem Filled.loadItem {s : Shared α V cfg} {rows : List (EntryRow α V T)} (h : Filled hash s rows)
    (hmode : cfg.writeMode = .cacheOnly) {item : StateItem α V T} {time wallNow : T} {r : EntryRow α V T}
    (hrow : item.row cfg.toCacheConfig time wallNow = some r) (hfits : Fits cfg hash (rows ++ [r])) :
    ∃ s', loadItem hash time wallNow s item = some s' ∧ Filled hash s' (rows ++ [r]) := by
  unfold StateItem.row at hrow
  split at hrow
  case h_2 => cases hrow
  case h_1 ttl key httl hkey =>
    obtain rfl := (Option.some.inj hrow).symm
    have hfits' : Fits cfg hash (rows ++ [⟨key, item.value, 0, (resolveTtl cfg.toCacheConfig
        (none : Option (CacheEntry α V T)) ttl time).2⟩]) := by
      refine ⟨?_, fun i => ?_⟩
      · have hnodup := hfits.nodup
        rw [List.map_append] at hnodup ⊢
        exact hnodup
      · refine le_of_eq_of_le ?_ (hfits.room i)
        simp only [rowsOf, List.filter_append, List.length_append]
        congr 1
        by_cases hi : shardFor cfg hash key = i <;> simp [hi]
    have hopen : Shared.Open { s with now := time } := .inl h.created
    have hput := h.put hmode time hfits'
    unfold CacheLab.loadItem
    simp only [httl, hkey, callAt]
    rw [call_put hmode hopen key item.value (validExplicitTtl_of_store httl)]
    by_cases hhits : 0 < item.hitCount
    · have hopen' : Shared.Open { (({ s with now := time }).putSection hash key item.value ttl true).1 with
          now := time } := .inl h.created
      simp only [hhits, if_true]
      rw [call_restoreEntryMetadata hopen' key item.hitCount, max_eq_right hhits.le]
      exact ⟨_, rfl, hput.restore item.hitCount⟩
    · simp only [hhits, if_false]
      rw [max_eq_left (not_lt.mp hhits)]
      exact ⟨_, rfl, hput⟩

/-- **Loading items** with room appends their rows. -/
theorem Filled.loadItems (hmode : cfg.writeMode = .cacheOnly) {clock : ℕ → T} {wallNow : T}
    {items : List (StateItem α V T)} {s : Shared α V cfg} {rows new : List (EntryRow α V T)} {n : ℕ}
    (h : Filled hash s rows) (hfits : Fits cfg hash (rows ++ new)) (hlength : items.length = new.length)
    (hnew : ∀ (m : ℕ) (item : StateItem α V T), items[m]? = some item →
      item.row cfg.toCacheConfig (clock (n + m)) wallNow = new[m]?) :
    ∃ s', loadItems hash clock wallNow n items s = some s' ∧ Filled hash s' (rows ++ new) := by
  induction items generalizing s rows new n with
  | nil =>
      obtain rfl := List.eq_nil_of_length_eq_zero hlength.symm
      exact ⟨s, rfl, (List.append_nil rows).symm ▸ h⟩
  | cons item items ih =>
      cases new with
      | nil => cases hlength
      | cons r new =>
          have hsplit : rows ++ r :: new = (rows ++ [r]) ++ new := (List.append_cons rows r new)
          rw [hsplit] at hfits
          obtain ⟨s₁, hitem, hfilled⟩ := h.loadItem hmode (hnew 0 item rfl) hfits.left
          obtain ⟨s', hrest, hfilled'⟩ := ih (n := n + 1) hfilled hfits (Nat.succ.inj hlength) fun m it hm => by
            have hlater := hnew (m + 1) it hm
            rw [show n + 1 + m = n + (m + 1) by omega]
            exact hlater
          refine ⟨s', ?_, hsplit ▸ hfilled'⟩
          rw [CacheLab.loadItems]
          have hfirst : CacheLab.loadItem hash (clock n) wallNow s item = some s₁ := hitem
          rw [hfirst]
          exact hrest

/-! ### Save -/

/-- The item that is written for a row. -/
def EntryRow.item (time : T) (r : EntryRow α V T) : StateItem α V T where
  key := some r.key
  value := r.value
  ttlRemaining :=
    match r.deadline with
    | none => .null
    | some t => .number (max 0 (t - time))
  hitCount := r.hitCount

/-- The items that are written for a shard. -/
def CacheShard.items (time : T) (sh : CacheShard α V T) : List (StateItem α V T) :=
  (sh.rows.filter fun r => !r.isExpired time).map (EntryRow.item time)

/-- What a dump shows of a shard, as items. -/
theorem map_item_dumpLocked (sh : CacheShard α V T) (time : T) :
    (sh.dumpLocked time).1.map EntrySnapshot.item = sh.items time := by
  have hitem : ∀ e : CacheEntry α V T, (e.snapshot time).item = e.row.item time := by
    intro e
    simp only [EntrySnapshot.item, CacheEntry.snapshot, EntryRow.item, CacheEntry.row]
    cases e.expiresAt <;> rfl
  rw [CacheShard.dumpLocked_fst, CacheShard.items, CacheShard.rows, List.filter_map, List.map_map, List.map_map]
  have hfilter : (fun e : CacheEntry α V T => !e.isExpired time) =
      (fun r : EntryRow α V T => !r.isExpired time) ∘ CacheEntry.row := by
    funext e
    simp only [Function.comp_apply, CacheEntry.isExpired_row]
  rw [← hfilter]
  exact List.map_congr_left fun e _ => hitem e

/-- What a dump shows, and the file that is written from it. -/
theorem saveCacheState_dump (hash : Key α → ℕ) {s : Shared α V cfg} (hopen : s.Open) (time : T) :
    ∃ s' shown, callAt hash time s (.dump none) = some (s', Result.snapshots shown) ∧
      saveCacheState hash time s = some (s', some ((shown.map EntrySnapshot.item).map some)) ∧
      shown.map EntrySnapshot.item = s.shardList.flatMap (CacheShard.items time) ∧
      s'.lifecycle = s.lifecycle ∧ ∀ j, s'.shards j = ((s.shards j).dumpLocked time).2 := by
  have hopen' : Shared.Open { s with now := time } := hopen
  obtain ⟨s', hcall, hbeside, hshards⟩ := call_dump hash {} hopen' none
  refine ⟨s', _, hcall, ?_, ?_, hbeside.lifecycle_eq, hshards⟩
  · rw [saveCacheState, callAt, hcall, List.map_map]
    rfl
  · rw [upTo, List.map_flatMap]
    exact congrArg (fun f => s.shardList.flatMap f) (funext fun sh => map_item_dumpLocked sh time)

/-- **Saving** writes the rows that are not expired, shard after shard, and drops the others. -/
theorem saveCacheState_eq (hash : Key α → ℕ) {s : Shared α V cfg} (hopen : s.Open) (time : T) :
    ∃ s', saveCacheState hash time s = some (s', some ((s.shardList.flatMap (CacheShard.items time)).map some)) ∧
      s'.lifecycle = s.lifecycle ∧ ∀ j, s'.shards j = ((s.shards j).dumpLocked time).2 := by
  obtain ⟨s', shown, -, hsave, hitems, hrest⟩ := saveCacheState_dump hash hopen time
  exact ⟨s', hitems ▸ hsave, hrest⟩

/-- The loader goes through every item that was written. -/
theorem itemsOf_map_some (items : List (StateItem α V T)) : itemsOf (items.map some) = items := by
  unfold itemsOf List.reduceOption
  rw [List.filterMap_map]
  exact List.filterMap_some

end CacheLab
