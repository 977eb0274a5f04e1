import CacheLab.Core.Counters
import CacheLab.System.Base
import CacheLab.System.ShardSteps

/-!
# The counters along a run

Every counter that `stats` reports grows with every step of the system: those of the shards
(`ShardStep.stats_le`), those of the runtime, and the number of refused jobs. `Shared.Counted` puts them together.
-/

set_option linter.unusedSectionVars false

namespace CacheLab

variable {α V T : Type} [DecidableEq α] [LinearOrder T] [Zero T] [Add T] [Sub T]

variable {cfg : AcceptedConfig T} {hash : Key α → ℕ}

/-- Counter by counter. -/
instance : Preorder RuntimeStats :=
  Preorder.lift fun r => (r.workerJobsCompleted, r.workerJobsFailed, r.writeBackRetries,
    r.staleWriteBackJobsSkipped, r.flushFailures, r.shutdownFlushFailures)

theorem RuntimeStats.le_iff {r r' : RuntimeStats} :
    r ≤ r' ↔ r.workerJobsCompleted ≤ r'.workerJobsCompleted ∧ r.workerJobsFailed ≤ r'.workerJobsFailed ∧
      r.writeBackRetries ≤ r'.writeBackRetries ∧ r.staleWriteBackJobsSkipped ≤ r'.staleWriteBackJobsSkipped ∧
      r.flushFailures ≤ r'.flushFailures ∧ r.shutdownFlushFailures ≤ r'.shutdownFlushFailures := Iff.rfl

/-- No counter was set back. -/
structure Shared.Counted (s s' : Shared α V cfg) : Prop where
  stats_le : ∀ i, (s.shards i).stats ≤ (s'.shards i).stats
  runtime_le : s.runtime ≤ s'.runtime
  dropped_le : s.queue.dropped ≤ s'.queue.dropped

theorem Shared.Counted.refl (s : Shared α V cfg) : s.Counted s := ⟨fun _ => le_rfl, le_rfl, le_rfl⟩

theorem Shared.Counted.trans {s s' s'' : Shared α V cfg} (h : s.Counted s') (h' : s'.Counted s'') : s.Counted s'' :=
  ⟨fun i => (h.stats_le i).trans (h'.stats_le i), h.runtime_le.trans h'.runtime_le, h.dropped_le.trans h'.dropped_le⟩

section Steps

variable {s s₁ s' : Shared α V cfg} {c : Choice α V} {th th' : Thread α V T}

/-- **No section sets a counter of its shard back.** -/
theorem ShardStep.stats_le {i : Fin cfg.shardCount} {sh' : CacheShard α V T} (h : ShardStep hash c s th i sh') :
    (s.shards i).stats ≤ sh'.stats := by
  cases h with
  | get key caller hth => exact CacheShard.stats_le_readValueLocked _ key _ true
  | contains key caller hth => exact CacheShard.stats_le_readValueLocked _ key _ false
  | inspect key caller hth => exact CacheShard.stats_le_dropExpired _ key _
  | put key value ttl caller hth => exact CacheShard.stats_le_putLocked _ _ _ key _ value ttl _
  | delete key caller hth => exact CacheShard.stats_le_deleteLocked _ _ _ key _
  | getOrCompute key ttl caller hth => exact CacheShard.stats_le_getOrComputeLocked _ key _ _
  | restore key n caller hth => exact CacheShard.stats_le_of_eq (CacheShard.stats_restoreEntryMetadata _ key n)
  | clear i ts hth => exact CacheShard.stats_le_clearLocked _ _ _ _
  | dump i taken limit hth =>
      rw [CacheShard.dumpLocked_snd]
      exact CacheShard.stats_le_expireShard _ _
  | expire i hth => exact CacheShard.stats_le_expireShard _ _
  | book i sh' hbook =>
      apply CacheShard.stats_le_of_eq
      cases hbook with
      | resolve key => exact CacheShard.stats_resolvePendingLocked _ key
      | clearPending key => exact CacheShard.stats_clearPendingFlushesLocked _ key
      | markClean job => exact CacheShard.stats_markCleanLocked _ job
      | finalize job => exact CacheShard.stats_finalizeLocked _ job
      | register jobs => exact CacheShard.stats_registerAll _ jobs
      | unregister key => rfl

/-- The counters of the shards in a step. -/
theorem threadStep_stats (h : threadStep hash s c th = some (s', th')) (i : Fin cfg.shardCount) :
    (s.shards i).stats ≤ (s'.shards i).stats := by
  rcases threadStep_shards h with heq | ⟨j, sh', heq, hsection⟩
  · rw [heq]
  · rw [heq]
    rcases eq_or_ne i j with rfl | hne
    · rw [Function.update_self]
      exact hsection.stats_le
    · rw [Function.update_of_ne hne]

/-- The counters that are not in a shard. -/
def Shared.Tallied (s s' : Shared α V cfg) : Prop := s.runtime ≤ s'.runtime ∧ s.queue.dropped ≤ s'.queue.dropped

theorem tallied_of_eq (hruntime : s'.runtime = s.runtime) (hdropped : s'.queue.dropped = s.queue.dropped) :
    s.Tallied s' := ⟨hruntime ▸ le_rfl, hdropped ▸ le_rfl⟩

/-- A caller counts its job. -/
theorem tallied_count (caller : Caller α V T) (completed : Bool) (hruntime : s₁.runtime = s.runtime)
    (hdropped : s₁.queue.dropped = s.queue.dropped) : s.Tallied (caller.count s₁ completed) := by
  unfold Shared.Tallied
  rw [← hruntime, ← hdropped]
  refine ⟨?_, le_of_eq (by cases caller <;> rfl)⟩
  cases caller with
  | preloader => cases completed <;> simp [Caller.count, Shared.count, RuntimeStats.le_iff]
  | _ => exact le_rfl

theorem tallied_enqueueOr {ts : List (Ticket α V)} {caller : Caller α V T} (h : enqueueOr s₁ ts caller = (s', th'))
    (hruntime : s₁.runtime = s.runtime) (hdropped : s₁.queue.dropped = s.queue.dropped) : s.Tallied s' := by
  cases ts with
  | nil =>
      cases h
      exact tallied_count caller true hruntime hdropped
  | cons t ts =>
      cases h
      exact tallied_of_eq hruntime hdropped

/-- A put whose enqueue raises. -/
theorem tallied_raised (caller : Caller α V T) (t : Ticket α V) (ts : List (Ticket α V)) :
    s.Tallied (caller.count (s.lose (t :: ts)) false) := by
  have htallied := tallied_count (s := s.lose (t :: ts)) caller false rfl rfl
  exact ⟨htallied.1, (s.dropped_lose (t :: ts)).trans htallied.2⟩

theorem tallied_onShard {i : ℕ} {f : CacheShard α V T → CacheShard α V T} (h : s.onShard i f = some s') :
    s.Tallied s' := by
  obtain ⟨hi, rfl⟩ := Shared.onShard_eq_some.mp h
  exact tallied_of_eq rfl rfl

theorem tallied_putNowait (job : Job α V T) :
    s.Tallied { s with queue := s.queue.putNowait cfg.queueSize job } := by
  unfold CacheJobQueue.putNowait
  split_ifs
  · exact ⟨le_rfl, Nat.le_succ _⟩
  · exact tallied_of_eq rfl rfl

/-- A step inside a public operation. -/
theorem clientStep_tallied (h : clientStep hash s c th = some (s', th')) : s.Tallied s' := by
  cases th with
  | entering op caller =>
      rcases entering_cases h with ⟨rfl, -⟩ | ⟨rfl, -⟩ | ⟨rfl, -⟩ | ⟨rfl, -⟩
      · exact tallied_count caller false rfl rfl
      · exact tallied_of_eq rfl rfl
      · exact tallied_of_eq rfl rfl
      · exact tallied_of_eq rfl rfl
  | running op caller =>
      cases op with
      | put key value ttl =>
          simp only [clientStep] at h
          split_ifs at h
          · cases h
            exact tallied_count caller false rfl rfl
          · exact tallied_enqueueOr (Option.some.inj h) rfl rfl
      | delete key =>
          simp only [clientStep] at h
          split_ifs at h
          · cases h
            exact tallied_of_eq rfl rfl
          · exact tallied_enqueueOr (Option.some.inj h) rfl rfl
      | getOrCompute key ttl =>
          simp only [clientStep] at h
          split at h <;> cases h <;> exact tallied_of_eq rfl rfl
      | preload key ttl =>
          cases h
          exact tallied_putNowait _
      | requestSnapshot id =>
          cases h
          exact tallied_putNowait _
      | close flush => cases h
      | _ =>
          cases h
          exact tallied_of_eq rfl rfl
  | clearing i ts =>
      simp only [clientStep] at h
      split_ifs at h
      · cases h
        exact tallied_of_eq rfl rfl
      · cases h
        exact tallied_of_eq rfl rfl
      · exact tallied_enqueueOr (Option.some.inj h) rfl rfl
  | sizing i total =>
      simp only [clientStep] at h
      split_ifs at h <;> cases h <;> exact tallied_of_eq rfl rfl
  | dumping i taken limit =>
      simp only [clientStep] at h
      split_ifs at h <;> cases h <;> exact tallied_of_eq rfl rfl
  | expiring i removed =>
      simp only [clientStep] at h
      split_ifs at h <;> cases h <;> exact tallied_of_eq rfl rfl
  | enqueuing ts caller =>
      cases ts with
      | nil =>
          cases h
          exact tallied_count caller true rfl rfl
      | cons t ts =>
          simp only [clientStep] at h
          split_ifs at h
          · cases h
            exact tallied_raised caller t ts
          · cases h
            exact ⟨le_rfl, Nat.le_succ _⟩
          · exact tallied_enqueueOr (Option.some.inj h) rfl rfl
  | releasing ts caller =>
      cases ts with
      | nil =>
          cases h
          exact tallied_count caller false rfl rfl
      | cons t ts =>
          obtain ⟨s₁, hs₁, heq⟩ := Option.map_eq_some_iff.mp h
          cases heq
          exact tallied_onShard hs₁
  | loading key ttl flight =>
      simp only [clientStep] at h
      split at h <;> cases h <;> exact tallied_of_eq rfl rfl
  | waiting flight =>
      obtain ⟨rfl, -⟩ := waiting_cases h
      exact tallied_of_eq rfl rfl
  | leading key ttl flight =>
      cases h
      exact tallied_of_eq rfl rfl
  | publishing key flight value =>
      cases h
      exact tallied_of_eq rfl rfl
  | failing key flight exn =>
      cases h
      exact tallied_of_eq rfl rfl
  | _ => cases h

/-- A counter of the runtime goes up. -/
theorem tallied_inc {f : RuntimeStats → RuntimeStats} (hruntime : s₁.runtime = s.runtime)
    (hdropped : s₁.queue.dropped = s.queue.dropped) (hf : ∀ r, r ≤ f r) : s.Tallied (s₁.count f) := by
  refine ⟨?_, hdropped ▸ le_rfl⟩
  show s.runtime ≤ f s₁.runtime
  rw [hruntime]
  exact hf s.runtime

/-- A step of a worker. -/
theorem workerStep_tallied (h : workerStep s c th = some (s', th')) : s.Tallied s' := by
  cases th with
  | idle =>
      simp only [workerStep] at h
      split at h
      · cases h
        exact tallied_of_eq rfl rfl
      · split_ifs at h
        cases h
        exact tallied_of_eq rfl rfl
  | handling job =>
      cases job with
      | stopWorker =>
          cases h
          exact tallied_of_eq rfl rfl
      | expireShard i =>
          obtain ⟨s₁, hs₁, heq⟩ := Option.map_eq_some_iff.mp h
          obtain ⟨hi, rfl⟩ := Shared.onShard_eq_some.mp hs₁
          cases heq
          exact tallied_inc rfl rfl fun r => by simp [RuntimeStats.le_iff]
      | snapshotStats id =>
          cases h
          exact tallied_inc rfl rfl fun r => by simp [RuntimeStats.le_iff]
      | preloadKey i key ttl =>
          simp only [workerStep] at h
          split at h <;> cases h
          · exact tallied_inc rfl rfl fun r => by simp [RuntimeStats.le_iff]
          · exact tallied_of_eq rfl rfl
      | flushWriteBack t =>
          simp only [workerStep] at h
          split_ifs at h <;> cases h
          · exact tallied_inc rfl rfl fun r => by simp [RuntimeStats.le_iff]
          · exact tallied_of_eq rfl rfl
  | checked t =>
      simp only [workerStep] at h
      split_ifs at h <;> cases h <;> exact tallied_of_eq rfl rfl
  | failed t =>
      simp only [workerStep] at h
      split_ifs at h <;> cases h
      · exact ⟨by simp [Shared.count, Shared.lose, RuntimeStats.le_iff], s.dropped_lose [t.retry]⟩
      · exact ⟨by simp [Shared.count, RuntimeStats.le_iff], Nat.le_succ _⟩
      · exact ⟨by simp [Shared.count, RuntimeStats.le_iff], le_rfl⟩
      · exact tallied_inc rfl rfl fun r => by simp [RuntimeStats.le_iff]
  | dropped t =>
      obtain ⟨s₁, hs₁, heq⟩ := Option.map_eq_some_iff.mp h
      obtain ⟨hi, rfl⟩ := Shared.onShard_eq_some.mp hs₁
      cases heq
      exact tallied_inc rfl rfl fun r => by simp [RuntimeStats.le_iff]
  | landed t =>
      obtain ⟨s₁, hs₁, heq⟩ := Option.map_eq_some_iff.mp h
      obtain ⟨hi, rfl⟩ := Shared.onShard_eq_some.mp hs₁
      cases heq
      exact tallied_inc rfl rfl fun r => by simp [RuntimeStats.le_iff]
  | finishing =>
      cases h
      exact tallied_of_eq rfl rfl
  | _ => cases h

/-- Offering the sentinels refuses no job that counts. -/
theorem CacheJobQueue.dropped_stop (q : CacheJobQueue α V T) (n : ℕ) (l : List Unit) :
    (l.foldl (fun q _ => q.offer n .stopWorker) q).dropped = q.dropped := by
  induction l generalizing q with
  | nil => rfl
  | cons u l ih =>
      rw [List.foldl_cons, ih]
      unfold CacheJobQueue.offer
      split_ifs <;> rfl

/-- A step of `close`. -/
theorem closeStep_tallied (h : closeStep s c th = some (s', th')) : s.Tallied s' := by
  cases th with
  | closeCollect i =>
      simp only [closeStep] at h
      split_ifs at h
      cases h
      exact tallied_of_eq rfl rfl
  | closeEnqueue i ts =>
      cases ts with
      | nil =>
          cases h
          exact tallied_of_eq rfl rfl
      | cons t ts =>
          simp only [closeStep] at h
          split_ifs at h <;> cases h
          · exact ⟨le_rfl, s.dropped_lose (t :: ts)⟩
          · exact ⟨le_rfl, Nat.le_succ _⟩
          · exact tallied_of_eq rfl rfl
  | closeRelease i ts =>
      cases ts with
      | nil =>
          cases h
          exact tallied_of_eq rfl rfl
      | cons t ts =>
          obtain ⟨s₁, hs₁, heq⟩ := Option.map_eq_some_iff.mp h
          cases heq
          exact tallied_onShard hs₁
  | closeJoin =>
      simp only [closeStep] at h
      split_ifs at h <;> cases h <;> exact tallied_of_eq rfl rfl
  | syncCollect i failed =>
      simp only [closeStep] at h
      split_ifs at h <;> cases h
      · exact tallied_of_eq rfl rfl
      · exact tallied_inc rfl rfl fun r => by simp [RuntimeStats.le_iff]
      · exact tallied_of_eq rfl rfl
  | syncNext i ts failed =>
      cases ts with
      | nil =>
          cases h
          exact tallied_of_eq rfl rfl
      | cons t ts =>
          simp only [closeStep] at h
          split_ifs at h <;> cases h
          · exact tallied_inc rfl rfl fun r => by simp [RuntimeStats.le_iff]
          · exact tallied_of_eq rfl rfl
  | syncTry i t left ts failed =>
      simp only [closeStep] at h
      split_ifs at h
      · cases h
        exact tallied_of_eq rfl rfl
      · cases left <;> cases h
        · exact tallied_of_eq rfl rfl
        · exact tallied_inc rfl rfl fun r => by simp [RuntimeStats.le_iff]
  | syncClean i t ts failed =>
      obtain ⟨s₁, hs₁, heq⟩ := Option.map_eq_some_iff.mp h
      cases heq
      exact tallied_onShard hs₁
  | syncSettle i t success ts failed =>
      obtain ⟨s₁, hs₁, heq⟩ := Option.map_eq_some_iff.mp h
      obtain ⟨hi, rfl⟩ := Shared.onShard_eq_some.mp hs₁
      cases success <;> cases heq
      · exact tallied_inc rfl rfl fun r => by simp [RuntimeStats.le_iff]
      · exact tallied_of_eq rfl rfl
  | closeStop failed =>
      simp only [closeStep] at h
      split_ifs at h <;> cases h
      · exact tallied_of_eq rfl (s.queue.dropped_stop _ _)
      · exact tallied_of_eq rfl rfl
  | closeDrain failed =>
      cases h
      exact tallied_of_eq rfl rfl
  | _ => cases h

/-- **A step of a thread** sets no counter back. -/
theorem threadStep_counted (h : threadStep hash s c th = some (s', th')) : s.Counted s' := by
  have htallied : s.Tallied s' := by
    rcases threadStep_cases h with hstep | hstep | hstep
    · exact clientStep_tallied hstep
    · exact workerStep_tallied hstep
    · exact closeStep_tallied hstep
  exact ⟨threadStep_stats h, htallied.1, htallied.2⟩

end Steps

/-- **A step of the system** sets no counter back. -/
theorem step_counted {s s' : System α V cfg} {l : Label α V T} (h : step cfg hash s l = some s') :
    s.shared.Counted s'.shared := by
  cases l with
  | tick now =>
      simp only [step] at h
      split_ifs at h
      cases h
      exact ⟨fun _ => le_rfl, le_rfl, le_rfl⟩
  | start =>
      simp only [step] at h
      split at h <;> cases h <;> exact ⟨fun _ => le_rfl, le_rfl, le_rfl⟩
  | call op =>
      cases h
      exact .refl _
  | schedule i =>
      simp only [step] at h
      split_ifs at h
      cases h
      obtain ⟨hruntime, hdropped⟩ := tallied_putNowait (s := s.shared) (.expireShard i)
      exact ⟨fun _ => le_rfl, hruntime, hdropped⟩
  | run i c =>
      simp only [step, Option.bind_eq_some_iff, Option.map_eq_some_iff] at h
      obtain ⟨th, -, ⟨sh, th'⟩, hr, rfl⟩ := h
      exact threadStep_counted hr

end CacheLab
