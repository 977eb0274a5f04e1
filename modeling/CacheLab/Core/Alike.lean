import CacheLab.Core.Rows

/-!
# Shards that look alike

Two shards are alike when they have the same rows, the same policy and the same capacity (`CacheShard.Alike`). What
write-back mode adds to a shard is not part of it: dirty marks, versions, tombstones and pending counts.

* Alike shards answer reads alike, and a sweep shows the same of them.
* Every section of an operation keeps shards alike, also when the two run it with different write modes, as long as
  the source backend takes the write (`Alike.putLocked`, `Alike.deleteLocked`, `Alike.clearLocked`).
-/

set_option linter.unusedSectionVars false

namespace CacheLab

variable {α V T : Type} [DecidableEq α] [LinearOrder T] [Zero T] [Add T]

/-! ### Rows after a change of the store -/

/-- Put a row in the place of the row with its key, or at the end. -/
def setRow (rows : List (EntryRow α V T)) (r : EntryRow α V T) : List (EntryRow α V T) :=
  if r.key ∈ rows.map EntryRow.key then rows.map fun x => if x.key = r.key then r else x else rows ++ [r]

/-- The rows after storing an entry. -/
theorem InMemoryBackend.map_row_putEntry (b : InMemoryBackend α V T) (e : CacheEntry α V T) :
    (b.putEntry e).entryList.map CacheEntry.row = setRow (b.entryList.map CacheEntry.row) e.row := by
  have hkeys : (b.entryList.map CacheEntry.row).map EntryRow.key = b.keys := by
    rw [List.map_map, ← InMemoryBackend.map_key_entryList]
    rfl
  unfold setRow
  rw [hkeys]
  by_cases hmem : e.key ∈ b.keys
  · rw [if_pos (show e.row.key ∈ b.keys from hmem), b.entryList_putEntry_of_mem hmem, List.map_map, List.map_map]
    refine List.map_congr_left fun x _ => ?_
    show CacheEntry.row (if x.key = e.key then e else x) = if x.key = e.key then e.row else x.row
    split_ifs <;> rfl
  · rw [if_neg (show e.row.key ∉ b.keys from hmem), b.entryList_putEntry_of_notMem hmem, List.map_append]
    rfl

/-- The rows after removing a key. -/
theorem InMemoryBackend.map_row_deleteEntry (b : InMemoryBackend α V T) (key : Key α) :
    (b.deleteEntry key).entryList.map CacheEntry.row =
      (b.entryList.map CacheEntry.row).filter fun r => r.key ≠ key := by
  rw [InMemoryBackend.entryList_deleteEntry, List.filter_map]
  rfl

namespace CacheShard

/-- Two shards that look the same from outside. -/
structure Alike (sh sh' : CacheShard α V T) : Prop where
  capacity_eq : sh'.capacity = sh.capacity
  policy_eq : sh'.policy = sh.policy
  rows_eq : sh'.rows = sh.rows

variable {sh sh' : CacheShard α V T}

theorem Alike.refl (sh : CacheShard α V T) : Alike sh sh := ⟨rfl, rfl, rfl⟩

theorem Alike.symm (h : Alike sh sh') : Alike sh' sh := ⟨h.capacity_eq.symm, h.policy_eq.symm, h.rows_eq.symm⟩

theorem Alike.trans {sh'' : CacheShard α V T} (h : Alike sh sh') (h' : Alike sh' sh'') : Alike sh sh'' :=
  ⟨h'.capacity_eq.trans h.capacity_eq, h'.policy_eq.trans h.policy_eq, h'.rows_eq.trans h.rows_eq⟩

/-- Alike shards hold the same number of entries. -/
theorem Alike.size_eq (h : Alike sh sh') : sh'.backend.size = sh.backend.size := by
  rw [← length_rows, ← length_rows, h.rows_eq]

/-- The listed rows determine what is stored under a key. -/
theorem row_of_mem_rows {r : EntryRow α V T} (h : r ∈ sh.rows) :
    ∃ e, sh.backend.getEntry r.key = some e ∧ e.row = r := by
  obtain ⟨e, he, rfl⟩ := List.mem_map.mp h
  exact ⟨e, InMemoryBackend.mem_entryList.mp he, rfl⟩

/-- **A lookup** in alike shards finds nothing in either, or the same row in both. -/
theorem Alike.getEntry_cases (h : Alike sh sh') (key : Key α) :
    (sh.backend.getEntry key = none ∧ sh'.backend.getEntry key = none) ∨
      ∃ e e', sh.backend.getEntry key = some e ∧ sh'.backend.getEntry key = some e' ∧ e'.row = e.row := by
  cases he : sh.backend.getEntry key with
  | none =>
      refine .inl ⟨rfl, OrderedDict.get?_eq_none_iff.mpr ?_⟩
      show key ∉ sh'.backend.keys
      rw [← map_key_rows, h.rows_eq, map_key_rows]
      exact OrderedDict.get?_eq_none_iff.mp he
  | some e =>
      have hkey : e.key = key := sh.backend.keyed key e he
      have hrow : e.row ∈ sh'.rows := by
        rw [h.rows_eq]
        exact List.mem_map_of_mem (InMemoryBackend.mem_entryList.mpr (hkey.symm ▸ he))
      obtain ⟨e', he', hsame⟩ := row_of_mem_rows hrow
      exact .inr ⟨e, e', rfl, hkey ▸ he', hsame⟩

/-! ### Sections -/

/-- Entries with the same row expire together. -/
theorem isExpired_of_row {e e' : CacheEntry α V T} (h : e'.row = e.row) (now : T) :
    e'.isExpired now = e.isExpired now := by
  rw [← CacheEntry.isExpired_row, h, CacheEntry.isExpired_row]

/-- A removal. -/
theorem Alike.removeEntryLocked (h : Alike sh sh') (key : Key α) (reason reason' : RemoveReason) :
    Alike (sh.removeEntryLocked key reason).2 (sh'.removeEntryLocked key reason').2 where
  capacity_eq := by rw [removeEntryLocked_capacity, removeEntryLocked_capacity, h.capacity_eq]
  policy_eq := by rw [removeEntryLocked_policy, removeEntryLocked_policy, h.policy_eq]
  rows_eq := by
    rw [rows, rows, removeEntryLocked_backend, removeEntryLocked_backend, InMemoryBackend.map_row_deleteEntry,
      InMemoryBackend.map_row_deleteEntry]
    exact congrArg _ h.rows_eq

/-- Lazy expiration. -/
theorem Alike.dropExpired (h : Alike sh sh') (key : Key α) (now : T) :
    Alike (sh.dropExpired key now) (sh'.dropExpired key now) := by
  unfold CacheShard.dropExpired
  rcases h.getEntry_cases key with ⟨he, he'⟩ | ⟨e, e', he, he', hrow⟩
  · rw [he, he']
    exact h
  · rw [he, he']
    simp only [isExpired_of_row hrow]
    split_ifs
    · exact h.removeEntryLocked key .expire .expire
    · exact h

/-- Storing an entry. -/
theorem Alike.putEntry (h : Alike sh sh') {e e' : CacheEntry α V T} (hrow : e'.row = e.row) {p p' : EvictionPolicy α}
    (hp : p' = p) :
    Alike { sh with backend := sh.backend.putEntry e, policy := p }
      { sh' with backend := sh'.backend.putEntry e', policy := p' } where
  capacity_eq := h.capacity_eq
  policy_eq := hp
  rows_eq := by
    rw [rows, rows, InMemoryBackend.map_row_putEntry, InMemoryBackend.map_row_putEntry, hrow]
    exact congrArg (fun l => setRow l e.row) h.rows_eq

/-- Storing the entry of a put. -/
theorem Alike.storeLocked (h : Alike sh sh') {cfg cfg' : CacheConfig T} (hdefault : cfg'.defaultTtl = cfg.defaultTtl)
    (key : Key α) (value : V) (ttl : Ttl T) (now : T) :
    Alike (sh.storeLocked cfg key value ttl now) (sh'.storeLocked cfg' key value ttl now) := by
  have hrow : (freshEntry cfg' (sh'.backend.getEntry key) (sh'.nextVersion key) key value ttl now).row =
      (freshEntry cfg (sh.backend.getEntry key) (sh.nextVersion key) key value ttl now).row := by
    rcases h.getEntry_cases key with ⟨he, he'⟩ | ⟨e, e', he, he', hrow⟩
    · rw [he, he']
      simp only [CacheEntry.row, freshEntry, resolveTtl, hdefault]
    · rw [he, he']
      rw [CacheEntry.row, CacheEntry.row, EntryRow.mk.injEq] at hrow
      obtain ⟨-, -, hhits, hdeadline⟩ := hrow
      cases ttl <;> simp [CacheEntry.row, freshEntry, resolveTtl, hhits, hdeadline]
  have hput := h.putEntry hrow (congrArg (fun p => p.onPut key) h.policy_eq)
  exact ⟨hput.capacity_eq, hput.policy_eq, hput.rows_eq⟩

/-- The eviction loop. -/
theorem Alike.enforceLoop (h : Alike sh sh') (n : ℕ) : Alike (enforceLoop n sh) (enforceLoop n sh') := by
  induction n generalizing sh sh' with
  | zero => exact h
  | succ n ih =>
      rw [CacheShard.enforceLoop, CacheShard.enforceLoop, h.capacity_eq, h.size_eq, h.policy_eq]
      split_ifs with hover
      · cases sh.policy.evictCandidate with
        | none => exact h
        | some a => exact ih (h.removeEntryLocked (some a) .evict .evict)
      · exact h

/-- **The section of a put.** -/
theorem Alike.putLocked (h : Alike sh sh') {cfg cfg' : CacheConfig T} (hdefault : cfg'.defaultTtl = cfg.defaultTtl)
    (src src' : Source α V) (key : Key α) (value : V) (ttl : Ttl T) (now : T) :
    Alike (sh.putLocked cfg src key value ttl now true).shard (sh'.putLocked cfg' src' key value ttl now true).shard := by
  -- registering a flush job is nothing that can be seen
  have hshard : ∀ (config : CacheConfig T) (s : CacheShard α V T) (source : Source α V),
      Alike ((s.dropExpired key now).storeLocked config key value ttl now).enforceCapacityLocked
        (s.putLocked config source key value ttl now true).shard := by
    intro config s source
    unfold CacheShard.putLocked
    simp only [Bool.true_eq_false, and_false, if_false]
    split_ifs <;> exact ⟨rfl, rfl, rfl⟩
  have hstored := (h.dropExpired key now).storeLocked hdefault key value ttl now
  have hfitted : Alike ((sh.dropExpired key now).storeLocked cfg key value ttl now).enforceCapacityLocked
      ((sh'.dropExpired key now).storeLocked cfg' key value ttl now).enforceCapacityLocked := by
    unfold CacheShard.enforceCapacityLocked
    rw [hstored.policy_eq]
    exact hstored.enforceLoop _
  exact ((hshard cfg sh src).symm.trans hfitted).trans (hshard cfg' sh' src')

/-- Restoring a hit count. -/
theorem Alike.restoreEntryMetadata (h : Alike sh sh') (key : Key α) (n : ℤ) :
    Alike (sh.restoreEntryMetadata key n) (sh'.restoreEntryMetadata key n) := by
  unfold CacheShard.restoreEntryMetadata
  rcases h.getEntry_cases key with ⟨he, he'⟩ | ⟨e, e', he, he', hrow⟩
  · rw [he, he']
    exact h
  · rw [he, he']
    rw [CacheEntry.row, CacheEntry.row, EntryRow.mk.injEq] at hrow
    refine h.putEntry ?_ h.policy_eq
    rw [CacheEntry.row, CacheEntry.row, EntryRow.mk.injEq]
    exact ⟨hrow.1, hrow.2.1, rfl, hrow.2.2.2⟩

/-- **A read** gives the same value, and keeps shards alike. -/
theorem Alike.readValueLocked (h : Alike sh sh') (key : Key α) (touch countStats : Bool) (now : T) :
    (sh'.readValueLocked key touch countStats now).1 = (sh.readValueLocked key touch countStats now).1 ∧
      Alike (sh.readValueLocked key touch countStats now).2 (sh'.readValueLocked key touch countStats now).2 := by
  unfold CacheShard.readValueLocked
  rcases h.getEntry_cases key with ⟨he, he'⟩ | ⟨e, e', he, he', hrow⟩
  · rw [he, he']
    refine ⟨rfl, ?_⟩
    cases countStats <;> exact ⟨h.capacity_eq, h.policy_eq, h.rows_eq⟩
  · rw [he, he']
    simp only [isExpired_of_row hrow]
    have hremoved := h.removeEntryLocked key .expire .expire
    rw [CacheEntry.row, CacheEntry.row, EntryRow.mk.injEq] at hrow
    have htouch : (e'.touch now).row = (e.touch now).row := by simp [CacheEntry.row, CacheEntry.touch, hrow]
    have htouched := h.putEntry htouch (congrArg (fun p => p.onGet key) h.policy_eq)
    split_ifs
    · exact ⟨rfl, hremoved.capacity_eq, hremoved.policy_eq, hremoved.rows_eq⟩
    · exact ⟨rfl, hremoved⟩
    · exact ⟨congrArg some hrow.2.1, htouched.capacity_eq, htouched.policy_eq, htouched.rows_eq⟩
    · exact ⟨congrArg some hrow.2.1, h.capacity_eq, h.policy_eq, h.rows_eq⟩
    · exact ⟨congrArg some hrow.2.1, htouched⟩
    · exact ⟨congrArg some hrow.2.1, h⟩

/-- What a delete leaves: the other rows. -/
theorem alike_removeCounted (sh : CacheShard α V T) (key : Key α) :
    Alike (sh.removeEntryLocked key .delete).2 (sh.removeCounted key) := by
  unfold removeCounted
  simp only
  split_ifs <;> exact ⟨rfl, rfl, rfl⟩

/-- **The section of a delete.** -/
theorem Alike.deleteLocked (h : Alike sh sh') (cfg cfg' : CacheConfig T) (src src' : Source α V) (key : Key α) :
    Alike (sh.deleteLocked cfg src key true).shard (sh'.deleteLocked cfg' src' key true).shard := by
  -- burying a key is nothing that can be seen
  have hshard : ∀ (config : CacheConfig T) (s : CacheShard α V T) (source : Source α V),
      Alike (s.removeEntryLocked key .delete).2 (s.deleteLocked config source key true).shard := by
    intro config s source
    have hburied : Alike s (if config.writeMode = .writeBack then s.buryLocked key else s) := by
      split_ifs <;> exact ⟨rfl, rfl, rfl⟩
    have hcounted := (hburied.removeEntryLocked key .delete .delete).trans (alike_removeCounted _ key)
    rw [deleteLocked_of_returned config s source key (by simp)]
    exact ⟨hcounted.capacity_eq, hcounted.policy_eq, hcounted.rows_eq⟩
  exact ((hshard cfg sh src).symm.trans (h.removeEntryLocked key .delete .delete)).trans (hshard cfg' sh' src')

/-- What a clear leaves, and how many flush jobs it makes. -/
theorem clearLocked_of_ok (cfg : CacheConfig T) (sh : CacheShard α V T) (src : Source α V) :
    (sh.clearLocked cfg src fun _ => true).raised = false ∧
      (sh.clearLocked cfg src fun _ => true).shard.rows = [] ∧
      (sh.clearLocked cfg src fun _ => true).shard.policy = sh.policy.clear ∧
      (sh.clearLocked cfg src fun _ => true).shard.capacity = sh.capacity ∧
      (sh.clearLocked cfg src fun _ => true).jobs.length = if cfg.writeMode = .writeBack then sh.backend.size else 0 := by
  obtain ⟨done, rest, hsplit, hcleared, hjobs, hret, hraise⟩ := clearLocked_spec cfg sh src fun _ => true
  have hreturned : (sh.clearLocked cfg src fun _ => true).raised = false := by
    rw [← Bool.not_eq_true]
    intro hraised
    obtain ⟨-, k, rest', -, hok⟩ := hraise hraised
    cases hok
  have hall : done = sh.backend.keys := by
    rw [hsplit, hret hreturned, List.append_nil]
  refine ⟨hreturned, ?_, hcleared.policy hreturned, hcleared.capacity_eq, ?_⟩
  · rw [List.eq_nil_iff_forall_not_mem]
    intro r hr
    obtain ⟨e, he, -⟩ := row_of_mem_rows hr
    have hnone := hcleared.getEntry r.key
    rw [he] at hnone
    split_ifs at hnone with hdone
    exact hdone (hall ▸ InMemoryBackend.mem_keys_iff.mpr ⟨e, hnone.symm⟩)
  · rw [hjobs, hall]
    split_ifs
    · rw [List.length_map, InMemoryBackend.size_eq_length_keys]
    · rfl

/-- **The section of a clear.** -/
theorem Alike.clearLocked (h : Alike sh sh') (cfg cfg' : CacheConfig T) (src src' : Source α V) :
    Alike (sh.clearLocked cfg src fun _ => true).shard (sh'.clearLocked cfg' src' fun _ => true).shard := by
  obtain ⟨-, hrows, hpolicy, hcapacity, -⟩ := clearLocked_of_ok cfg sh src
  obtain ⟨-, hrows', hpolicy', hcapacity', -⟩ := clearLocked_of_ok cfg' sh' src'
  refine ⟨?_, ?_, hrows'.trans hrows.symm⟩
  · rw [hcapacity, hcapacity', h.capacity_eq]
  · rw [hpolicy, hpolicy', h.policy_eq]

end CacheShard

end CacheLab
