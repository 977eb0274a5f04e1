import CacheLab.System.Queue
import CacheLab.System.Quiet
import CacheLab.System.ShardSteps
import CacheLab.System.Writes

/-!
# Tombstones along a run

A tombstone stands for a delete that the source has not seen. `close` makes a flush job of each of them, as of each
dirty entry, so their number bounds what it has to do. Only a delete puts up a tombstone, one at most, and a `clear`
one for each key that it removes (`threadStep_mem_tombstones`). `deletes` counts the deletes that are still to come.
-/

set_option linter.unusedSectionVars false

namespace CacheLab

variable {α V T : Type} [DecidableEq α] [LinearOrder T] [Zero T] [Add T] [Sub T]

open WriteBehind

variable {cfg : AcceptedConfig T} {hash : Key α → ℕ}

/-- The number of tombstones of all shards. -/
def Shared.buried (s : Shared α V cfg) : ℕ := ∑ i, (s.shards i).tombstones.size

/-- How many deletes a call makes. -/
def Op.deletes : Op α V T → ℕ
  | delete _ => 1
  | _ => 0

/-- How many deletes the thread is still going to make. -/
def Thread.deletes : Thread α V T → ℕ
  | .entering op _ => op.deletes
  | .running op _ => op.deletes
  | _ => 0

/-! ### Where tombstones come from -/

/-- A tombstone is there when the slot of its key has one. -/
theorem CacheShard.mem_tombstones_iff {sh : CacheShard α V T} {k : Key α} :
    k ∈ sh.tombstones.keys ↔ ∃ t, (sh.slot k).tomb = some t :=
  OrderedDict.mem_keys_iff

/-- What is no write puts up no tombstone. -/
theorem CacheShard.mem_tombstones_of_eases {sh sh' : CacheShard α V T} {k : Key α}
    (h : (sh.slot k).Eases (sh'.slot k)) (hk : k ∈ sh'.tombstones.keys) : k ∈ sh.tombstones.keys := by
  obtain ⟨t, ht⟩ := CacheShard.mem_tombstones_iff.mp hk
  exact CacheShard.mem_tombstones_iff.mpr ⟨t, h.tomb ht⟩

/-- A bookkeeping section is no write. -/
theorem Bookkeeping.eases {sh sh' : CacheShard α V T} (h : Bookkeeping sh sh') (k : Key α) :
    (sh.slot k).Eases (sh'.slot k) := by
  cases h with
  | resolve key => exact CacheShard.eases_of_update (CacheShard.slot_resolvePendingLocked sh key) (.resolve _) k
  | clearPending key =>
      exact CacheShard.eases_of_update (CacheShard.slot_clearPendingFlushesLocked sh key) (.clearPend _) k
  | markClean job => exact CacheShard.eases_of_update (CacheShard.slot_markCleanLocked sh job) (.clean _ _ _) k
  | finalize job =>
      exact CacheShard.eases_of_update (CacheShard.slot_finalizeLocked sh job)
        ((Slot.Eases.clean _ _ _).trans (.resolve _)) k
  | register jobs => exact CacheShard.eases_registerAll sh jobs k
  | unregister key => exact .refl _

/-- A put that returns puts up no tombstone. -/
theorem CacheShard.tomb_committed {cfg : CacheConfig T} {sh : CacheShard α V T} {key k : Key α} {value : V}
    {ttl : Ttl T} {now : T} {t : ℕ} (h : ((sh.committed cfg key value ttl now).slot k).tomb = some t) :
    (sh.slot k).tomb = some t := by
  by_cases hk : k = key
  · subst hk
    rw [CacheShard.slot_committed_self] at h
    have hnone : ∀ y, (((sh.dropExpired k now).slot k).store value (decide (cfg.writeMode = .writeBack))).Eases y →
        y.tomb ≠ some t := by
      intro y hy ht
      have htomb := hy.tomb ht
      cases htomb
    simp only at h
    split_ifs at h
    · exact absurd h (hnone _ ((Slot.Eases.remove _).trans (.register _)))
    · exact absurd h (hnone _ (.register _))
    · exact absurd h (hnone _ (.remove _))
    · exact absurd h (hnone _ (.refl _))
  · rw [CacheShard.slot_committed_of_ne _ _ _ _ _ _ _ hk] at h
    split_ifs at h
    · exact (Slot.Eases.remove _).tomb h
    · exact h

section Steps

variable {s s' : Shared α V cfg} {c : Choice α V} {th th' : Thread α V T}

/-- **Only a delete or a `clear` puts up a tombstone.** -/
theorem ShardStep.mem_tombstones {i : Fin cfg.shardCount} {sh' : CacheShard α V T} (h : ShardStep hash c s th i sh')
    (ha : (s.shards i).Agrees) {k : Key α} (hk : k ∈ sh'.tombstones.keys) :
    k ∈ (s.shards i).tombstones.keys ∨ (∃ caller, th = .running (.delete k) caller) ∨
      ∃ (j : ℕ) (ts : List (Ticket α V)), th = .clearing j ts := by
  have htended : ∀ {sh' : CacheShard α V T}, (s.shards i).Tended s.now sh' → k ∈ sh'.tombstones.keys →
      k ∈ (s.shards i).tombstones.keys :=
    fun ht => CacheShard.mem_tombstones_of_eases (ht.eases k)
  cases h with
  | get key caller hth => exact .inl (htended (CacheShard.tended_readValueLocked _ key _ _ _) hk)
  | contains key caller hth => exact .inl (htended (CacheShard.tended_readValueLocked _ key _ _ _) hk)
  | inspect key caller hth => exact .inl (htended (CacheShard.tended_inspectLocked _ key _) hk)
  | put key value ttl caller hth =>
      refine .inl ?_
      by_cases hok : cfg.writeMode = .writeThrough ∧ c.ok key = false
      · rw [CacheShard.putLocked_of_raised _ _ _ _ _ _ hok] at hk
        exact htended (CacheShard.tended_dropExpired _ key _) hk
      · rw [ha.putLocked_eq _ _ _ _ _ hok] at hk
        obtain ⟨t, ht⟩ := CacheShard.mem_tombstones_iff.mp hk
        exact CacheShard.mem_tombstones_iff.mpr ⟨t, CacheShard.tomb_committed ht⟩
  | delete key caller hth =>
      by_cases hok : cfg.writeMode = .writeThrough ∧ c.ok key = false
      · rw [CacheShard.deleteLocked_of_raised _ _ _ _ hok] at hk
        exact .inl hk
      · obtain ⟨t, ht⟩ := CacheShard.mem_tombstones_iff.mp hk
        rw [CacheShard.slot_deleteLocked _ _ _ _ hok] at ht
        by_cases hkey : k = key
        · subst hkey
          exact .inr (.inl ⟨caller, hth⟩)
        · rw [Function.update_of_ne hkey] at ht
          exact .inl (CacheShard.mem_tombstones_iff.mpr ⟨t, ht⟩)
  | getOrCompute key ttl caller hth => exact .inl (htended (CacheShard.tended_getOrComputeLocked _ key _ _) hk)
  | restore key n caller hth => exact .inl (htended (CacheShard.tended_restoreEntryMetadata _ key n s.now) hk)
  | clear i ts hth => exact .inr (.inr ⟨i, ts, hth⟩)
  | dump i taken limit hth => exact .inl (htended (CacheShard.tended_dumpLocked _ _) hk)
  | expire i hth => exact .inl (htended (CacheShard.tended_expireShard _ _) hk)
  | book i sh' hbook => exact .inl (CacheShard.mem_tombstones_of_eases (hbook.eases k) hk)

/-- See `ShardStep.mem_tombstones`. -/
theorem threadStep_mem_tombstones (h : threadStep hash s c th = some (s', th')) (ha : ∀ i, (s.shards i).Agrees)
    {j : Fin cfg.shardCount} {k : Key α} (hk : k ∈ (s'.shards j).tombstones.keys) :
    k ∈ (s.shards j).tombstones.keys ∨ (∃ caller, th = .running (.delete k) caller) ∨
      ∃ (i : ℕ) (ts : List (Ticket α V)), th = .clearing i ts := by
  rcases threadStep_shards h with heq | ⟨i, sh', heq, hsection⟩
  · rw [heq] at hk
    exact .inl hk
  · rw [heq] at hk
    by_cases hj : j = i
    · subst hj
      rw [Function.update_self] at hk
      exact hsection.mem_tombstones (ha j) hk
    · rw [Function.update_of_ne hj] at hk
      exact .inl hk

/-! ### How many there are -/

/-- A dictionary whose keys are among others is no longer than these. -/
theorem OrderedDict.size_le_of_subset {β : Type} {d : OrderedDict (Key α) β} {ks : List (Key α)} (h : d.keys ⊆ ks) :
    d.size ≤ ks.length := by
  rw [OrderedDict.size_eq_length_keys]
  exact (List.subperm_of_subset d.keys_nodup h).length_le

/-- A step that is neither a delete nor a `clear` puts up no tombstone. -/
theorem buried_le_of_threadStep (h : threadStep hash s c th = some (s', th')) (ha : ∀ i, (s.shards i).Agrees)
    (hdelete : ∀ key caller, th ≠ .running (.delete key) caller) (hclear : ∀ i ts, th ≠ .clearing i ts) :
    s'.buried ≤ s.buried := by
  refine Finset.sum_le_sum fun j _ => ?_
  rw [OrderedDict.size_eq_length_keys (s.shards j).tombstones]
  apply OrderedDict.size_le_of_subset
  intro k hk
  rcases threadStep_mem_tombstones h ha hk with hold | ⟨caller, hth⟩ | ⟨i, ts, hth⟩
  · exact hold
  · exact absurd hth (hdelete k caller)
  · exact absurd hth (hclear i ts)

/-- New tombstones for keys of one shard. -/
theorem buried_le_add (i : Fin cfg.shardCount) (new : List (Key α))
    (h : ∀ j, ∀ k ∈ (s'.shards j).tombstones.keys, k ∈ (s.shards j).tombstones.keys ∨ j = i ∧ k ∈ new) :
    s'.buried ≤ s.buried + new.length := by
  have hone : ∀ j, (s'.shards j).tombstones.size ≤
      (s.shards j).tombstones.size + if j = i then new.length else 0 := by
    intro j
    rw [OrderedDict.size_eq_length_keys (s.shards j).tombstones]
    split_ifs with hj
    · rw [← List.length_append]
      apply OrderedDict.size_le_of_subset
      intro k hk
      rcases h j k hk with hold | ⟨-, hnew⟩
      · exact List.mem_append_left _ hold
      · exact List.mem_append_right _ hnew
    · apply OrderedDict.size_le_of_subset
      intro k hk
      exact (h j k hk).resolve_right fun hnew => hj hnew.1
  calc s'.buried
      ≤ ∑ j, ((s.shards j).tombstones.size + if j = i then new.length else 0) := Finset.sum_le_sum fun j _ => hone j
    _ = s.buried + new.length := by
        rw [Finset.sum_add_distrib, Finset.sum_ite_eq' Finset.univ, if_pos (Finset.mem_univ _)]
        rfl

/-- A tombstone lies in the shard of its key. -/
theorem ShardOk.shardFor_of_tombstone {i : Fin cfg.shardCount} {sh : CacheShard α V T} (h : ShardOk cfg hash i sh)
    {k : Key α} (hk : k ∈ sh.tombstones.keys) : shardFor cfg hash k = i := by
  by_contra hne
  obtain ⟨t, ht⟩ := CacheShard.mem_tombstones_iff.mp hk
  rw [h.routed k hne] at ht
  cases ht

/-- **A delete puts up one tombstone at most.** -/
theorem buried_delete_le {key : Key α} {caller : Caller α V T}
    (h : threadStep hash s c (.running (.delete key) caller) = some (s', th')) (ha : ∀ i, (s.shards i).Agrees)
    (hs' : ∀ i, ShardOk cfg hash i (s'.shards i)) : s'.buried ≤ s.buried + 1 := by
  refine buried_le_add (shardFor cfg hash key) [key] ?_
  intro j k hk
  rcases threadStep_mem_tombstones h ha hk with hold | ⟨caller', hth⟩ | ⟨i, ts, hth⟩
  · exact .inl hold
  · obtain rfl : key = k := by
      cases hth
      rfl
    exact .inr ⟨((hs' j).shardFor_of_tombstone hk).symm, List.mem_singleton_self key⟩
  · cases hth

/-- The flush jobs that `close` makes for a shard are no more than its entries and tombstones. -/
theorem CacheShard.length_dirtyJobs_le (cfg : CacheConfig T) (sh : CacheShard α V T) :
    (sh.dirtyJobs cfg).length ≤ sh.backend.size + sh.tombstones.size := by
  unfold CacheShard.dirtyJobs
  rw [List.length_append, List.length_map, List.length_map]
  have hentries : (sh.backend.entryList.filter fun e => e.dirty).length ≤ sh.backend.size := by
    rw [InMemoryBackend.size_eq_length_keys, ← InMemoryBackend.map_key_entryList, List.length_map]
    exact List.length_filter_le _ _
  exact Nat.add_le_add hentries le_rfl

end Steps

end CacheLab
