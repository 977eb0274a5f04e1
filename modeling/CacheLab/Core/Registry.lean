import CacheLab.Core.Upkeep

/-!
# What the lock sections do to the single-flight registry

Only four sections touch the registry of a shard: the first section of a `get_or_compute` that leads
(`getOrComputeLocked`), the last section of a leader (`unregisterFlight`), a delete and a clear. The
other sections leave it alone; the `simp` lemmas of this module say so, one for each section.
-/

set_option linter.unusedSectionVars false

namespace CacheLab.CacheShard

variable {α V T : Type} [DecidableEq α] [LinearOrder T] [Zero T] [Add T]

variable (sh : CacheShard α V T) (cfg : CacheConfig T) (src : Source α V) (key : Key α) (now : T)

/-! ### Helpers -/

@[simp] theorem singleflight_maybePruneMarksLocked :
    (sh.maybePruneMarksLocked key).singleflight = sh.singleflight := by
  unfold maybePruneMarksLocked
  split_ifs <;> rfl

@[simp] theorem singleflight_removeEntryLocked (reason : RemoveReason) :
    (sh.removeEntryLocked key reason).2.singleflight = sh.singleflight :=
  singleflight_maybePruneMarksLocked _ key

@[simp] theorem singleflight_dropExpired : (sh.dropExpired key now).singleflight = sh.singleflight := by
  unfold dropExpired
  split
  · rfl
  · split_ifs
    · exact singleflight_removeEntryLocked sh key .expire
    · rfl

theorem singleflight_enforceLoop (n : ℕ) : (enforceLoop n sh).singleflight = sh.singleflight := by
  induction n generalizing sh with
  | zero => rfl
  | succ n ih =>
      rw [enforceLoop]
      split_ifs
      · split
        · rfl
        · rw [ih, singleflight_removeEntryLocked]
      · rfl

@[simp] theorem singleflight_enforceCapacityLocked :
    sh.enforceCapacityLocked.singleflight = sh.singleflight :=
  singleflight_enforceLoop sh _

@[simp] theorem singleflight_removeEntriesLocked (keys : List (Key α)) (reason : RemoveReason) :
    (sh.removeEntriesLocked keys reason).2.singleflight = sh.singleflight := by
  induction keys generalizing sh with
  | nil => rfl
  | cons k keys ih => rw [removeEntriesLocked_cons, ih, singleflight_removeEntryLocked]

@[simp] theorem singleflight_eraseLocked :
    (eraseLocked cfg sh src key).shard.singleflight = sh.singleflight := by
  have hcount : ∀ sh : CacheShard α V T, (sh.removeCounted key).singleflight = sh.singleflight := by
    intro sh
    unfold removeCounted
    dsimp only
    split_ifs <;> exact singleflight_removeEntryLocked sh key .delete
  rw [eraseLocked, hcount]
  split_ifs <;> rfl

/-! ### Sections that leave the registry alone -/

@[simp] theorem singleflight_readValueLocked (touch countStats : Bool) :
    (sh.readValueLocked key touch countStats now).2.singleflight = sh.singleflight := by
  unfold readValueLocked
  split
  · split_ifs <;> rfl
  · split_ifs <;> first | rfl | exact singleflight_removeEntryLocked sh key .expire

@[simp] theorem singleflight_putLocked (value : V) (ttl : Ttl T) (ok : Bool) :
    (sh.putLocked cfg src key value ttl now ok).shard.singleflight = sh.singleflight := by
  unfold putLocked
  dsimp only
  split_ifs
  · exact singleflight_dropExpired sh key now
  all_goals
    show ((sh.dropExpired key now).storeLocked cfg key value ttl
      now).enforceCapacityLocked.singleflight = sh.singleflight
    rw [singleflight_enforceCapacityLocked]
    exact singleflight_dropExpired sh key now

@[simp] theorem singleflight_expireShard :
    (sh.expireShard now).2.singleflight = sh.singleflight :=
  singleflight_removeEntriesLocked sh _ .expire

@[simp] theorem singleflight_dumpLocked [Sub T] :
    (sh.dumpLocked now).2.singleflight = sh.singleflight := by
  rw [dumpLocked_snd, singleflight_expireShard]

@[simp] theorem singleflight_inspectLocked [Sub T] :
    (sh.inspectLocked key now).2.singleflight = sh.singleflight :=
  singleflight_dropExpired sh key now

@[simp] theorem singleflight_restoreEntryMetadata (n : ℤ) :
    (sh.restoreEntryMetadata key n).singleflight = sh.singleflight := by
  unfold restoreEntryMetadata
  split <;> rfl

@[simp] theorem singleflight_resolvePendingLocked :
    (sh.resolvePendingLocked key).singleflight = sh.singleflight :=
  singleflight_maybePruneMarksLocked _ key

@[simp] theorem singleflight_clearPendingFlushesLocked :
    (sh.clearPendingFlushesLocked key).singleflight = sh.singleflight :=
  singleflight_maybePruneMarksLocked _ key

@[simp] theorem singleflight_markCleanLocked (job : FlushWriteBack α V) :
    (sh.markCleanLocked job).singleflight = sh.singleflight := by
  unfold markCleanLocked
  split
  · rfl
  · split
    · rfl
    · split_ifs <;> rfl

@[simp] theorem singleflight_finalizeLocked (job : FlushWriteBack α V) :
    (sh.finalizeLocked job).singleflight = sh.singleflight := by
  rw [finalizeLocked, singleflight_resolvePendingLocked, singleflight_markCleanLocked]

@[simp] theorem singleflight_registerAll (jobs : List (FlushWriteBack α V)) :
    (sh.registerAll jobs).singleflight = sh.singleflight := by
  unfold registerAll
  induction jobs generalizing sh with
  | nil => rfl
  | cons job jobs ih =>
      rw [List.foldl_cons, ih]
      rfl

/-! ### Sections that touch it -/

/-- A delete unregisters the flight of its key, unless its call on the source raised. -/
theorem singleflight_deleteLocked (ok : Bool) :
    (sh.deleteLocked cfg src key ok).shard.singleflight =
      if (sh.deleteLocked cfg src key ok).raised then sh.singleflight else sh.singleflight.erase key := by
  unfold deleteLocked
  split_ifs with h hr hr
  · rfl
  · exact absurd rfl hr
  · cases hr
  · exact congrArg (·.erase key) (singleflight_eraseLocked sh cfg src key)

/-- The loop of a clear unregisters all flights when it comes to its end. -/
theorem singleflight_clearKeysLocked (ok : Key α → Bool) (keys : List (Key α))
    (jobs : List (FlushWriteBack α V)) :
    (clearKeysLocked cfg ok keys sh src jobs).shard.singleflight =
      if (clearKeysLocked cfg ok keys sh src jobs).raised then sh.singleflight else .empty := by
  induction keys generalizing sh src jobs with
  | nil => rfl
  | cons k keys ih =>
      rw [clearKeysLocked]
      split_ifs with h hr hr
      · rfl
      · exact absurd rfl hr
      · rw [ih, if_pos hr, singleflight_eraseLocked]
      · rw [ih, if_neg hr]

/-- A clear unregisters all flights of the shard, unless one of its calls on the source raised. -/
theorem singleflight_clearLocked (ok : Key α → Bool) :
    (sh.clearLocked cfg src ok).shard.singleflight =
      if (sh.clearLocked cfg src ok).raised then sh.singleflight else .empty :=
  singleflight_clearKeysLocked sh cfg src ok _ []

/-- How a `get_or_compute` finds the registry and leaves it. -/
theorem getOrComputeLocked_cases (fresh : ℕ) :
    (∃ v, (sh.getOrComputeLocked key now fresh).1 = .cached v ∧
      (sh.getOrComputeLocked key now fresh).2.singleflight = sh.singleflight ∧
      (sh.readValueLocked key true true now).1 = some v) ∨
    (∃ f, (sh.getOrComputeLocked key now fresh).1 = .joins f ∧ sh.singleflight.get? key = some f ∧
      (sh.getOrComputeLocked key now fresh).2.singleflight = sh.singleflight) ∨
    ((sh.getOrComputeLocked key now fresh).1 = .leads fresh ∧ sh.singleflight.get? key = none ∧
      (sh.getOrComputeLocked key now fresh).2.singleflight = sh.singleflight.set key fresh) := by
  have hsf := singleflight_readValueLocked sh key now true true
  unfold getOrComputeLocked
  dsimp only
  cases hr : (sh.readValueLocked key true true now).1 with
  | some v => exact .inl ⟨v, rfl, hsf, rfl⟩
  | none =>
      cases hf : (sh.readValueLocked key true true now).2.singleflight.get? key with
      | some f => exact .inr (.inl ⟨f, by simp, by rw [← hsf, hf], by simp⟩)
      | none => exact .inr (.inr ⟨by simp, by rw [← hsf, hf], by simp⟩)

end CacheLab.CacheShard
