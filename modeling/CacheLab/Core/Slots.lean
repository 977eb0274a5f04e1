import CacheLab.Core.Sections

/-!
# The write-behind slot of a key

`CacheShard.slot sh k` is what the shard knows about `k` as far as flushing is concerned: its entry,
its version mark, its tombstone and its pending count. Each function that runs under the shard lock
acts on the slot of its own key as an operation of `Lib/WriteBehind.lean` and leaves the slots of all
other keys alone; the lemmas say so as `Function.update` of the slot map, so that a sequence of
functions is a sequence of updates.
-/

set_option linter.unusedSectionVars false

namespace CacheLab

variable {α V T : Type} [DecidableEq α] [LinearOrder T] [Zero T] [Add T]

open WriteBehind

/-- The part of an entry that flushing looks at. -/
def CacheEntry.held (e : CacheEntry α V T) : Held V := ⟨e.version, e.value, e.dirty⟩

namespace CacheShard

/-- What the shard knows about a key. -/
def slot (sh : CacheShard α V T) (k : Key α) : Slot V where
  entry := (sh.backend.getEntry k).map CacheEntry.held
  mark := sh.versionMarks.get? k
  tomb := sh.tombstones.get? k
  pend := sh.pendingFlushes.get? k

variable (sh : CacheShard α V T) (key k : Key α)

/-- The next version of the shard is the next version of the slot. -/
theorem nextVersion_eq : sh.nextVersion key = (sh.slot key).next := rfl

/-- Staleness for the shard is staleness for the slot. -/
theorem isStale_eq (job : FlushWriteBack α V) :
    sh.isStale job = (sh.slot job.key).stale job.operation job.version := by
  simp only [isStale, isStaleWriteBack, Slot.stale, slot]
  cases job.operation <;> rfl

/-- Two slot maps agree when they agree field by field. -/
theorem slot_congr {sh sh' : CacheShard α V T} (hb : sh'.backend = sh.backend)
    (hm : sh'.versionMarks = sh.versionMarks) (ht : sh'.tombstones = sh.tombstones)
    (hp : sh'.pendingFlushes = sh.pendingFlushes) : sh'.slot = sh.slot := by
  funext k
  simp only [slot, hb, hm, ht, hp]

/-- Replacing an entry by one that flushing cannot tell apart changes no slot. -/
theorem slot_putEntry {e e' : CacheEntry α V T} (he : sh.backend.getEntry e.key = some e)
    (hkey : e'.key = e.key) (hheld : e'.held = e.held) (p : EvictionPolicy α) :
    { sh with backend := sh.backend.putEntry e', policy := p }.slot = sh.slot := by
  funext k
  simp only [slot, InMemoryBackend.getEntry_putEntry, hkey]
  split_ifs with hk
  · simp [hk, he, hheld]
  · rfl

theorem slot_maybePruneMarksLocked :
    (sh.maybePruneMarksLocked key).slot = Function.update sh.slot key (sh.slot key).prune := by
  funext k
  by_cases hk : k = key
  · subst hk
    rw [Function.update_self]
    simp only [maybePruneMarksLocked, Slot.prune, slot, Option.isSome_map]
    split_ifs <;> simp
  · rw [Function.update_of_ne hk]
    unfold maybePruneMarksLocked
    split_ifs <;> simp [slot, hk]

theorem slot_registerPendingLocked :
    (sh.registerPendingLocked key).slot = Function.update sh.slot key (sh.slot key).register := by
  funext k
  by_cases hk : k = key
  · subst hk
    simp [registerPendingLocked, Slot.register, slot]
  · simp [registerPendingLocked, slot, hk]

theorem slot_resolvePendingLocked :
    (sh.resolvePendingLocked key).slot = Function.update sh.slot key (sh.slot key).resolve := by
  have hpend : ∀ n : ℕ,
      (if 0 < n then sh.pendingFlushes.set key n else sh.pendingFlushes.erase key).get? key =
        if 0 < n then some n else none := by
    intro n
    split_ifs <;> simp
  unfold resolvePendingLocked
  simp only
  rw [slot_maybePruneMarksLocked]
  funext k
  by_cases hk : k = key
  · subst hk
    rw [Function.update_self, Function.update_self]
    exact congrArg (fun n => Slot.prune ⟨_, _, _, n⟩) (hpend _)
  · rw [Function.update_of_ne hk, Function.update_of_ne hk]
    simp only [slot, Slot.mk.injEq, true_and]
    split_ifs <;> simp [hk]

theorem slot_clearPendingFlushesLocked :
    (sh.clearPendingFlushesLocked key).slot = Function.update sh.slot key (sh.slot key).clearPend := by
  unfold clearPendingFlushesLocked
  rw [slot_maybePruneMarksLocked]
  funext k
  by_cases hk : k = key
  · subst hk
    rw [Function.update_self, Function.update_self, Slot.clearPend]
    simp [slot]
  · rw [Function.update_of_ne hk, Function.update_of_ne hk]
    simp [slot, hk]

theorem slot_removeEntryLocked (reason : RemoveReason) :
    (sh.removeEntryLocked key reason).2.slot = Function.update sh.slot key (sh.slot key).remove := by
  unfold removeEntryLocked
  simp only
  rw [slot_maybePruneMarksLocked]
  funext k
  by_cases hk : k = key
  · subst hk
    rw [Function.update_self, Function.update_self, Slot.remove]
    simp [slot, InMemoryBackend.getEntry_deleteEntry]
  · rw [Function.update_of_ne hk, Function.update_of_ne hk]
    simp [slot, InMemoryBackend.getEntry_deleteEntry, hk]

theorem slot_storeLocked (cfg : CacheConfig T) (value : V) (ttl : Ttl T) (now : T) :
    (sh.storeLocked cfg key value ttl now).slot =
      Function.update sh.slot key ((sh.slot key).store value (decide (cfg.writeMode = .writeBack))) := by
  funext k
  by_cases hk : k = key
  · subst hk
    rw [Function.update_self]
    simp [storeLocked, bumpVersion, slot, InMemoryBackend.getEntry_putEntry, freshEntry, Slot.store,
      CacheEntry.held, nextVersion, Slot.next]
  · rw [Function.update_of_ne hk]
    simp [storeLocked, bumpVersion, slot, InMemoryBackend.getEntry_putEntry, freshEntry, hk]

theorem slot_buryLocked :
    (sh.buryLocked key).slot = Function.update sh.slot key (sh.slot key).bury := by
  unfold buryLocked
  rw [slot_registerPendingLocked]
  funext k
  by_cases hk : k = key
  · subst hk
    rw [Function.update_self, Function.update_self, Slot.bury]
    simp [slot, bumpVersion, nextVersion, Slot.next]
  · rw [Function.update_of_ne hk, Function.update_of_ne hk]
    simp [slot, bumpVersion, hk]

theorem slot_removeCounted :
    (sh.removeCounted key).slot = Function.update sh.slot key (sh.slot key).remove := by
  rw [← slot_removeEntryLocked sh key .delete]
  unfold removeCounted
  simp only
  split_ifs <;> rfl

/-- The slot map after the shared part of `delete` and `clear`. -/
theorem slot_eraseLocked (cfg : CacheConfig T) (src : Source α V) :
    (sh.eraseLocked cfg src key).shard.slot =
      Function.update sh.slot key
        (if cfg.writeMode = .writeBack then (sh.slot key).bury.remove else (sh.slot key).remove) := by
  simp only [eraseLocked, slot_removeCounted]
  split_ifs
  · rw [slot_buryLocked, Function.update_self, Function.update_idem]
  · rfl

theorem slot_markCleanLocked (job : FlushWriteBack α V) :
    (sh.markCleanLocked job).slot =
      Function.update sh.slot job.key ((sh.slot job.key).clean job.operation job.version) := by
  unfold markCleanLocked Slot.clean
  cases hop : job.operation with
  | delete => exact (Function.update_eq_self _ _).symm
  | put v =>
      cases he : sh.backend.getEntry job.key with
      | none =>
          funext k
          by_cases hk : k = job.key
          · subst hk
            simp [slot, he]
          · rw [Function.update_of_ne hk]
      | some e =>
          have hkey := sh.backend.keyed job.key e he
          funext k
          by_cases hk : k = job.key
          · subst hk
            rw [Function.update_self]
            simp only [slot, he, Option.map_some, CacheEntry.held]
            split_ifs with hv
            · simp [InMemoryBackend.getEntry_putEntry, hkey, CacheEntry.held]
            · simp [he, CacheEntry.held]
          · rw [Function.update_of_ne hk]
            simp only
            split_ifs <;> simp [slot, InMemoryBackend.getEntry_putEntry, hkey, hk]

theorem slot_finalizeLocked (job : FlushWriteBack α V) :
    (sh.finalizeLocked job).slot =
      Function.update sh.slot job.key
        ((sh.slot job.key).clean job.operation job.version).resolve := by
  rw [finalizeLocked, slot_resolvePendingLocked, slot_markCleanLocked, Function.update_self,
    Function.update_idem]

end CacheShard

end CacheLab
