import CacheLab.Core.Writes

/-!
# What the lock sections do to the counters

The counters of a shard and its size, read as a ledger: the entries that left (evicted, expired or deleted)
plus those that are there; the reads, hits plus misses; the puts.

* Every section that removes entries counts each of them once, whatever the reason, so it leaves the ledger
  alone.
* A put adds one put, and one entry if the key was not resident; a read adds one read.
-/

set_option linter.unusedSectionVars false

namespace CacheLab.CacheShard

variable {α V T : Type} [DecidableEq α] [LinearOrder T] [Zero T] [Add T]

variable (sh : CacheShard α V T) (cfg : CacheConfig T) (src : Source α V) (key : Key α) (now : T)

/-- The entries that left or are there, the reads, and the puts. -/
def ledger (sh : CacheShard α V T) : ℕ × ℕ × ℕ :=
  (sh.stats.evictions + sh.stats.expirations + sh.stats.deletes + sh.backend.size,
    sh.stats.hits + sh.stats.misses, sh.stats.puts)

/-- Sections that leave counters and size alone leave the ledger alone. -/
theorem ledger_congr {sh sh' : CacheShard α V T} (hstats : sh'.stats = sh.stats)
    (hsize : sh'.backend.size = sh.backend.size) : sh'.ledger = sh.ledger := by
  rw [ledger, ledger, hstats, hsize]

/-! ### Removals -/

@[simp] theorem maybePruneMarksLocked_stats : (sh.maybePruneMarksLocked key).stats = sh.stats := by
  unfold maybePruneMarksLocked
  split_ifs <;> rfl

theorem removeEntryLocked_stats (reason : RemoveReason) :
    (sh.removeEntryLocked key reason).2.stats =
      if (sh.backend.getEntry key).isSome then countRemoval sh.stats reason else sh.stats := by
  rw [removeEntryLocked]
  exact maybePruneMarksLocked_stats _ key

/-- The size after a removal. -/
theorem size_deleteEntry (b : InMemoryBackend α V T) (k : Key α) :
    (b.deleteEntry k).size + (if (b.getEntry k).isSome then 1 else 0) = b.size := by
  by_cases hk : k ∈ b.keys
  · rw [if_pos (InMemoryBackend.mem_keys_iff_isSome.mp hk)]
    exact OrderedDict.size_erase_of_mem hk
  · rw [if_neg fun hsome => hk (InMemoryBackend.mem_keys_iff_isSome.mpr hsome), add_zero]
    exact congrArg OrderedDict.size (OrderedDict.erase_of_notMem hk)

/-- An eviction or an expiration counts the entry that it removes. -/
theorem ledger_removeEntryLocked {reason : RemoveReason} (h : reason ≠ .delete) :
    (sh.removeEntryLocked key reason).2.ledger = sh.ledger := by
  have hsize := size_deleteEntry sh.backend key
  rw [ledger, ledger, removeEntryLocked_stats, removeEntryLocked_backend]
  split_ifs at hsize ⊢
  · cases reason with
    | delete => exact absurd rfl h
    | _ =>
        simp only [countRemoval, Prod.mk.injEq, and_true]
        omega
  · simp only [Prod.mk.injEq, and_true]
    omega

/-- A deletion is counted by its caller. -/
@[simp] theorem ledger_removeCounted : (sh.removeCounted key).ledger = sh.ledger := by
  have hsize := size_deleteEntry sh.backend key
  have hstats := removeEntryLocked_stats sh key .delete
  have hbackend := removeEntryLocked_backend sh key .delete
  unfold removeCounted
  dsimp only
  split_ifs with hsome
  · have hfound : (sh.backend.getEntry key).isSome = true := hsome
    rw [if_pos hfound] at hsize hstats
    simp only [ledger, hstats, hbackend, countRemoval, Prod.mk.injEq, and_true]
    omega
  · have hfound : ¬ (sh.backend.getEntry key).isSome = true := hsome
    rw [if_neg hfound] at hsize hstats
    exact ledger_congr hstats (by rw [hbackend]; exact hsize)

@[simp] theorem ledger_dropExpired : (sh.dropExpired key now).ledger = sh.ledger := by
  unfold dropExpired
  split
  · rfl
  · split_ifs
    · exact ledger_removeEntryLocked sh key (by simp)
    · rfl

theorem ledger_enforceLoop (n : ℕ) : (enforceLoop n sh).ledger = sh.ledger := by
  induction n generalizing sh with
  | zero => rfl
  | succ n ih =>
      rw [enforceLoop]
      split_ifs
      · split
        · rfl
        · rw [ih, ledger_removeEntryLocked sh _ (by simp)]
      · rfl

@[simp] theorem ledger_enforceCapacityLocked : sh.enforceCapacityLocked.ledger = sh.ledger :=
  ledger_enforceLoop sh _

theorem ledger_removeEntriesLocked (keys : List (Key α)) :
    (sh.removeEntriesLocked keys .expire).2.ledger = sh.ledger := by
  induction keys generalizing sh with
  | nil => rfl
  | cons k keys ih => rw [removeEntriesLocked_cons, ih, ledger_removeEntryLocked sh k (by simp)]

@[simp] theorem ledger_expireShard : (sh.expireShard now).2.ledger = sh.ledger :=
  ledger_removeEntriesLocked sh _

@[simp] theorem ledger_dumpLocked [Sub T] : (sh.dumpLocked now).2.ledger = sh.ledger := by
  rw [dumpLocked_snd, ledger_expireShard]

@[simp] theorem ledger_inspectLocked [Sub T] : (sh.inspectLocked key now).2.ledger = sh.ledger :=
  ledger_dropExpired sh key now

@[simp] theorem ledger_eraseLocked : (eraseLocked cfg sh src key).shard.ledger = sh.ledger := by
  unfold eraseLocked
  rw [ledger_removeCounted]
  split_ifs <;> rfl

@[simp] theorem ledger_deleteLocked (ok : Bool) :
    (sh.deleteLocked cfg src key ok).shard.ledger = sh.ledger := by
  unfold deleteLocked
  split_ifs
  · rfl
  · exact ledger_eraseLocked sh cfg src key

theorem ledger_clearKeysLocked (ok : Key α → Bool) (keys : List (Key α))
    (jobs : List (FlushWriteBack α V)) :
    (clearKeysLocked cfg ok keys sh src jobs).shard.ledger = sh.ledger := by
  induction keys generalizing sh src jobs with
  | nil => rfl
  | cons k keys ih =>
      rw [clearKeysLocked]
      split_ifs
      · rfl
      · rw [ih, ledger_eraseLocked]

@[simp] theorem ledger_clearLocked (ok : Key α → Bool) :
    (sh.clearLocked cfg src ok).shard.ledger = sh.ledger :=
  ledger_clearKeysLocked sh cfg src ok _ []

/-! ### Bookkeeping -/

@[simp] theorem ledger_registerPendingLocked : (sh.registerPendingLocked key).ledger = sh.ledger := rfl

@[simp] theorem ledger_resolvePendingLocked : (sh.resolvePendingLocked key).ledger = sh.ledger :=
  ledger_congr (maybePruneMarksLocked_stats _ key) (by simp [resolvePendingLocked])

@[simp] theorem ledger_clearPendingFlushesLocked :
    (sh.clearPendingFlushesLocked key).ledger = sh.ledger :=
  ledger_congr (maybePruneMarksLocked_stats _ key) (by simp [clearPendingFlushesLocked])

@[simp] theorem ledger_markCleanLocked (job : FlushWriteBack α V) :
    (sh.markCleanLocked job).ledger = sh.ledger := by
  refine ledger_congr ?_ (sameData_markCleanLocked sh job).size_eq
  unfold markCleanLocked
  split
  · rfl
  · split
    · rfl
    · split_ifs <;> rfl

@[simp] theorem ledger_finalizeLocked (job : FlushWriteBack α V) :
    (sh.finalizeLocked job).ledger = sh.ledger := by
  rw [finalizeLocked, ledger_resolvePendingLocked, ledger_markCleanLocked]

@[simp] theorem ledger_registerAll (jobs : List (FlushWriteBack α V)) :
    (sh.registerAll jobs).ledger = sh.ledger := by
  unfold registerAll
  induction jobs generalizing sh with
  | nil => rfl
  | cons job jobs ih => rw [List.foldl_cons, ih, ledger_registerPendingLocked]

@[simp] theorem ledger_unregisterFlight : (sh.unregisterFlight key).ledger = sh.ledger := rfl

/-- Rewriting a resident entry in place does not change the size. -/
theorem size_putEntry_of_isSome {b : InMemoryBackend α V T} {e e' : CacheEntry α V T}
    (h : b.getEntry e'.key = some e) : (b.putEntry e').size = b.size :=
  OrderedDict.size_set_of_mem (OrderedDict.mem_keys_iff.mpr ⟨e, h⟩) e'

@[simp] theorem ledger_restoreEntryMetadata (n : ℤ) :
    (sh.restoreEntryMetadata key n).ledger = sh.ledger := by
  unfold restoreEntryMetadata
  cases he : sh.backend.getEntry key with
  | none => rfl
  | some e =>
      have hkey : e.key = key := sh.backend.keyed key e he
      exact ledger_congr rfl (size_putEntry_of_isSome (hkey.symm ▸ he))

/-! ### Reads and puts -/

/-- A read that is counted is a hit or a miss. -/
theorem ledger_readValueLocked (touch : Bool) :
    (sh.readValueLocked key touch true now).2.ledger = sh.ledger + (0, 1, 0) := by
  have hmiss : ∀ sh₀ : CacheShard α V T,
      { sh₀ with stats := { sh₀.stats with misses := sh₀.stats.misses + 1 } }.ledger =
        sh₀.ledger + (0, 1, 0) := fun _ => rfl
  have hhit : ∀ sh₀ : CacheShard α V T,
      { sh₀ with stats := { sh₀.stats with hits := sh₀.stats.hits + 1 } }.ledger =
        sh₀.ledger + (0, 1, 0) := by
    intro sh₀
    simp only [ledger, Prod.mk_add_mk, Prod.mk.injEq, add_zero, and_true, true_and]
    omega
  unfold readValueLocked
  cases he : sh.backend.getEntry key with
  | none => exact hmiss sh
  | some e =>
      simp only [↓reduceIte]
      split_ifs with hexpired htouch
      · exact (hmiss _).trans (congrArg (· + _) (ledger_removeEntryLocked sh key (by simp)))
      · have hkey : (e.touch now).key = key := sh.backend.keyed key e he
        refine (hhit _).trans (congrArg (· + _) (ledger_congr rfl ?_))
        exact size_putEntry_of_isSome (hkey.symm ▸ he)
      · exact hhit sh

/-- A put that returns is counted, with a new entry if the key was not resident. -/
theorem ledger_putLocked {value : V} {ttl : Ttl T} {ok : Bool}
    (h : (sh.putLocked cfg src key value ttl now ok).raised = false) :
    (sh.putLocked cfg src key value ttl now ok).shard.ledger =
      sh.ledger + (if key ∈ (sh.dropExpired key now).backend.keys then 0 else 1, 0, 1) := by
  have hstore : ((sh.dropExpired key now).storeLocked cfg key value ttl now).ledger =
      sh.ledger + (if key ∈ (sh.dropExpired key now).backend.keys then 0 else 1, 0, 1) := by
    rw [← ledger_dropExpired sh key now]
    generalize sh.dropExpired key now = sh₀
    have hsize := size_storeLocked cfg sh₀ key value ttl now
    unfold ledger
    rw [hsize]
    split_ifs <;> rfl
  rw [← hstore]
  unfold putLocked at h ⊢
  dsimp only at h ⊢
  split_ifs at h ⊢
  all_goals exact ledger_enforceCapacityLocked _

/-- A put that raises has at most dropped an expired entry. -/
theorem ledger_putLocked_of_raised {value : V} {ttl : Ttl T} {ok : Bool}
    (h : (sh.putLocked cfg src key value ttl now ok).raised = true) :
    (sh.putLocked cfg src key value ttl now ok).shard.ledger = sh.ledger := by
  unfold putLocked at h ⊢
  dsimp only at h ⊢
  split_ifs at h ⊢
  exact ledger_dropExpired sh key now

/-- The first section of a `get_or_compute` is a read. -/
theorem ledger_getOrComputeLocked (fresh : ℕ) :
    (sh.getOrComputeLocked key now fresh).2.ledger = sh.ledger + (0, 1, 0) := by
  rw [← ledger_readValueLocked sh key now true]
  unfold getOrComputeLocked
  dsimp only
  split
  · rfl
  · split <;> rfl

end CacheLab.CacheShard
