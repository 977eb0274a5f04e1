import CacheLab.Core.Ledger

/-!
# Counters only grow

No lock section sets a counter of a shard back. `MutableStats` is ordered counter by counter, and there is one lemma
for each section.
-/

set_option linter.unusedSectionVars false

namespace CacheLab

variable {α V T : Type} [DecidableEq α] [LinearOrder T] [Zero T] [Add T]

/-- Counter by counter. -/
instance : Preorder MutableStats :=
  Preorder.lift fun st => (st.hits, st.misses, st.puts, st.deletes, st.evictions, st.expirations)

theorem MutableStats.le_iff {st st' : MutableStats} :
    st ≤ st' ↔ st.hits ≤ st'.hits ∧ st.misses ≤ st'.misses ∧ st.puts ≤ st'.puts ∧ st.deletes ≤ st'.deletes ∧
      st.evictions ≤ st'.evictions ∧ st.expirations ≤ st'.expirations := Iff.rfl

namespace CacheShard

variable (sh : CacheShard α V T) (cfg : CacheConfig T) (src : Source α V) (key : Key α) (now : T)

/-- Counters that are the same. -/
theorem stats_le_of_eq {st st' : MutableStats} (h : st' = st) : st ≤ st' := h ▸ le_rfl

/-! ### Removals -/

theorem stats_le_removeEntryLocked (reason : RemoveReason) :
    sh.stats ≤ (sh.removeEntryLocked key reason).2.stats := by
  rw [removeEntryLocked_stats, MutableStats.le_iff]
  split_ifs
  · cases reason <;> simp [countRemoval]
  · simp

theorem stats_le_removeCounted : sh.stats ≤ (sh.removeCounted key).stats := by
  have hremoved := sh.stats_le_removeEntryLocked key .delete
  unfold removeCounted
  dsimp only
  split_ifs
  · rw [MutableStats.le_iff] at hremoved ⊢
    obtain ⟨hhits, hmisses, hputs, hdeletes, hevictions, hexpirations⟩ := hremoved
    exact ⟨hhits, hmisses, hputs, hdeletes.trans (Nat.le_succ _), hevictions, hexpirations⟩
  · exact hremoved

theorem stats_le_dropExpired : sh.stats ≤ (sh.dropExpired key now).stats := by
  unfold dropExpired
  split
  · exact le_rfl
  · split_ifs
    · exact sh.stats_le_removeEntryLocked key .expire
    · exact le_rfl

theorem stats_le_enforceLoop (n : ℕ) : sh.stats ≤ (enforceLoop n sh).stats := by
  induction n generalizing sh with
  | zero => exact le_rfl
  | succ n ih =>
      rw [enforceLoop]
      split_ifs
      · split
        · exact le_rfl
        · exact (sh.stats_le_removeEntryLocked _ .evict).trans (ih _)
      · exact le_rfl

theorem stats_le_removeEntriesLocked (keys : List (Key α)) :
    sh.stats ≤ (sh.removeEntriesLocked keys .expire).2.stats := by
  induction keys generalizing sh with
  | nil => exact le_rfl
  | cons k keys ih =>
      rw [removeEntriesLocked_cons]
      exact (sh.stats_le_removeEntryLocked k .expire).trans (ih _)

theorem stats_le_expireShard : sh.stats ≤ (sh.expireShard now).2.stats := sh.stats_le_removeEntriesLocked _

theorem stats_le_eraseLocked : sh.stats ≤ (eraseLocked cfg sh src key).shard.stats := by
  show sh.stats ≤ ((if cfg.writeMode = .writeBack then sh.buryLocked key else sh).removeCounted key).stats
  split_ifs
  · exact stats_le_removeCounted (sh.buryLocked key) key
  · exact sh.stats_le_removeCounted key

theorem stats_le_deleteLocked (ok : Bool) : sh.stats ≤ (sh.deleteLocked cfg src key ok).shard.stats := by
  unfold deleteLocked
  split_ifs
  · exact le_rfl
  · exact sh.stats_le_eraseLocked cfg src key

theorem stats_le_clearKeysLocked (ok : Key α → Bool) (keys : List (Key α)) (jobs : List (FlushWriteBack α V)) :
    sh.stats ≤ (clearKeysLocked cfg ok keys sh src jobs).shard.stats := by
  induction keys generalizing sh src jobs with
  | nil => exact le_rfl
  | cons k keys ih =>
      rw [clearKeysLocked]
      split_ifs
      · exact le_rfl
      · exact (sh.stats_le_eraseLocked cfg src k).trans (ih _ _ _)

theorem stats_le_clearLocked (ok : Key α → Bool) : sh.stats ≤ (sh.clearLocked cfg src ok).shard.stats :=
  sh.stats_le_clearKeysLocked cfg src ok _ []

/-! ### Bookkeeping -/

theorem stats_resolvePendingLocked : (sh.resolvePendingLocked key).stats = sh.stats :=
  maybePruneMarksLocked_stats _ key

theorem stats_clearPendingFlushesLocked : (sh.clearPendingFlushesLocked key).stats = sh.stats :=
  maybePruneMarksLocked_stats _ key

theorem stats_markCleanLocked (job : FlushWriteBack α V) : (sh.markCleanLocked job).stats = sh.stats := by
  unfold markCleanLocked
  split
  · rfl
  · split
    · rfl
    · split_ifs <;> rfl

theorem stats_finalizeLocked (job : FlushWriteBack α V) : (sh.finalizeLocked job).stats = sh.stats := by
  rw [finalizeLocked, stats_resolvePendingLocked, stats_markCleanLocked]

theorem stats_registerAll (jobs : List (FlushWriteBack α V)) : (sh.registerAll jobs).stats = sh.stats := by
  unfold registerAll
  induction jobs generalizing sh with
  | nil => rfl
  | cons job jobs ih =>
      rw [List.foldl_cons, ih]
      rfl

theorem stats_restoreEntryMetadata (n : ℤ) : (sh.restoreEntryMetadata key n).stats = sh.stats := by
  unfold restoreEntryMetadata
  cases sh.backend.getEntry key <;> rfl

/-! ### Reads and puts -/

theorem stats_le_readValueLocked (touch : Bool) : sh.stats ≤ (sh.readValueLocked key touch true now).2.stats := by
  have hmiss : ∀ st : MutableStats, st ≤ { st with misses := st.misses + 1 } := by
    intro st
    simp [MutableStats.le_iff]
  have hhit : ∀ st : MutableStats, st ≤ { st with hits := st.hits + 1 } := by
    intro st
    simp [MutableStats.le_iff]
  unfold readValueLocked
  cases sh.backend.getEntry key with
  | none => exact hmiss _
  | some e =>
      simp only [if_true]
      split_ifs
      · exact (sh.stats_le_removeEntryLocked key .expire).trans (hmiss _)
      · exact hhit _
      · exact hhit _

theorem stats_le_storeLocked (value : V) (ttl : Ttl T) :
    sh.stats ≤ (sh.storeLocked cfg key value ttl now).stats := by
  rw [MutableStats.le_iff]
  simp [storeLocked]

theorem stats_le_putLocked (value : V) (ttl : Ttl T) (ok : Bool) :
    sh.stats ≤ (sh.putLocked cfg src key value ttl now ok).shard.stats := by
  have hdrop := sh.stats_le_dropExpired key now
  have hstore := (sh.dropExpired key now).stats_le_storeLocked cfg key now value ttl
  have henforce := stats_le_enforceLoop ((sh.dropExpired key now).storeLocked cfg key value ttl now)
    ((sh.dropExpired key now).storeLocked cfg key value ttl now).policy.len
  unfold putLocked
  dsimp only
  split_ifs
  · exact hdrop
  all_goals exact (hdrop.trans hstore).trans henforce

theorem stats_le_getOrComputeLocked (fresh : ℕ) : sh.stats ≤ (sh.getOrComputeLocked key now fresh).2.stats := by
  have hread := sh.stats_le_readValueLocked key now true
  unfold getOrComputeLocked
  dsimp only
  split
  · exact hread
  · split <;> exact hread

end CacheShard

end CacheLab
