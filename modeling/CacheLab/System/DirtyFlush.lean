import CacheLab.System.SyncFlush

/-!
# The synchronous flush, run alone

`_flush_dirty_entries_sync` with nobody else at work: three nested loops over the shards, the jobs of a shard
and the tries of a job. `flushDirtyEntriesSync ω s` runs them on the state `s`; the schedule `ω` says which
calls on the source succeed, the first call first. The result records the calls, so that what was applied and
how often can be read off it.

The jobs of all shards have pairwise distinct keys, and a job touches nothing but what is known about its key.
So a job is still what it was when the flush began, and `Flushed` gives the state after any part of the walk
from the state before it and the recorded calls. `closeSteps_sync` says that the closing thread, left
alone, does just this.
-/

set_option linter.unusedSectionVars false

namespace CacheLab

variable {α V T : Type} [DecidableEq α] [LinearOrder T] [Zero T] [Add T] [Sub T]

open WriteBehind

variable {cfg : AcceptedConfig T} {hash : Key α → ℕ}

/-! ### The three loops -/

/-- A flush under way: the state, the calls on the source so far with their success, and the flag that
the function returns. -/
structure Flushing (α V : Type) {T : Type} [DecidableEq α] [LinearOrder T] [Zero T]
    (cfg : AcceptedConfig T) where
  shared : Shared α V cfg
  calls : List (Key α × Bool) := []
  failed : Bool := false

/-- The loop over the tries of a job, with the tries left after the next one.
Source: `core/cache.py` `Cache._flush_dirty_entries_sync` -/
def tryFlush (ω : ℕ → Bool) (i : Fin cfg.shardCount) (t : Ticket α V) :
    ℕ → Flushing α V cfg → Flushing α V cfg × Bool
  | left, x =>
      let ok := ω x.calls.length
      let calls := x.calls ++ [(t.job.key, ok)]
      if ok then
        let s := { x.shared with source := applyWriteBack x.shared.source t.job }.emit [.applied t]
        ({ x with
          shared :=
            match t.job.operation with
            | .put _ => s.setShard i ((s.shards i).markCleanLocked t.job)
            | .delete => s
          calls := calls }, true)
      else
        match left with
        | 0 => ({ x with calls := calls }, false)
        | left + 1 =>
            tryFlush ω i t left
              { x with
                shared := x.shared.count fun r => { r with writeBackRetries := r.writeBackRetries + 1 }
                calls := calls }

/-- One round of the loop over the jobs of a shard.
Source: `core/cache.py` `Cache._flush_dirty_entries_sync` -/
def flushJob (ω : ℕ → Bool) (i : Fin cfg.shardCount) (x : Flushing α V cfg) (t : Ticket α V) :
    Flushing α V cfg :=
  if (x.shared.shards i).isStale t.job then
    { x with
      shared := (x.shared.setShard i ((x.shared.shards i).clearPendingFlushesLocked t.job.key)).count fun r =>
        { r with staleWriteBackJobsSkipped := r.staleWriteBackJobsSkipped + 1 } }
  else
    let r := tryFlush ω i t t.job.retriesLeft x
    let s := r.1.shared.setShard i ((r.1.shared.shards i).clearPendingFlushesLocked t.job.key)
    if r.2 then { r.1 with shared := s }
    else
      { r.1 with
        shared := s.count fun r => { r with flushFailures := r.flushFailures + 1 }
        failed := true }

/-- One round of the loop over the shards: collect the jobs, then flush them.
Source: `core/cache.py` `Cache._flush_dirty_entries_sync` -/
def flushShard (ω : ℕ → Bool) (x : Flushing α V cfg) (i : Fin cfg.shardCount) : Flushing α V cfg :=
  (((x.shared.shards i).dirtyJobs cfg.toCacheConfig).map (closeTicket x.shared.log)).foldl (flushJob ω i) x

/-- The synchronous flush.
Source: `core/cache.py` `Cache._flush_dirty_entries_sync` -/
def flushDirtyEntriesSync (ω : ℕ → Bool) (s : Shared α V cfg) : Flushing α V cfg :=
  (List.finRange cfg.shardCount).foldl (flushShard ω) { shared := s }

/-! ### One job -/

section Job

variable {ω : ℕ → Bool} {i : Fin cfg.shardCount} {t : Ticket α V}

/-- What the tries of a job come to, with their outcomes `os`. -/
structure Tried (ω : ℕ → Bool) (i : Fin cfg.shardCount) (t : Ticket α V) (left : ℕ) (x : Flushing α V cfg)
    (os : List Bool) (r : Flushing α V cfg × Bool) : Prop where
  nonempty : os ≠ []
  length_le : os.length ≤ left + 1
  calls_eq : r.1.calls = x.calls ++ os.map (Prod.mk t.job.key)
  outcomes : ∀ j o, os[j]? = some o → o = ω (x.calls.length + j)
  success_iff : r.2 = true ↔ true ∈ os
  failed_eq : r.1.failed = x.failed
  failures_eq : r.1.shared.runtime.flushFailures = x.shared.runtime.flushFailures
  source_eq : r.1.shared.source =
    if r.2 then applyWriteBack x.shared.source t.job else x.shared.source
  shards_eq : r.1.shared.shards =
    if r.2 then Function.update x.shared.shards i ((x.shared.shards i).markCleanLocked t.job)
    else x.shared.shards

/-- A delete marks nothing clean. -/
theorem markCleanLocked_of_delete {sh : CacheShard α V T} {job : FlushWriteBack α V}
    (h : job.operation = .delete) : sh.markCleanLocked job = sh := by
  simp only [CacheShard.markCleanLocked, h]

/-- The state after a call that succeeded. -/
def Flushing.applied (i : Fin cfg.shardCount) (t : Ticket α V) (x : Flushing α V cfg) : Flushing α V cfg :=
  let s := { x.shared with source := applyWriteBack x.shared.source t.job }.emit [.applied t]
  { x with
    shared :=
      match t.job.operation with
      | .put _ => s.setShard i ((s.shards i).markCleanLocked t.job)
      | .delete => s
    calls := x.calls ++ [(t.job.key, true)] }

theorem Flushing.shards_applied (x : Flushing α V cfg) :
    (x.applied i t).shared.shards =
      Function.update x.shared.shards i ((x.shared.shards i).markCleanLocked t.job) := by
  unfold Flushing.applied
  cases hop : t.job.operation with
  | put v => rfl
  | delete =>
      rw [markCleanLocked_of_delete hop, Function.update_eq_self]
      rfl

/-- A call that succeeds ends the tries. -/
theorem tryFlush_of_ok {left : ℕ} {x : Flushing α V cfg} (h : ω x.calls.length = true) :
    tryFlush ω i t left x = (x.applied i t, true) := by
  unfold tryFlush Flushing.applied
  simp only [h, if_true]

/-- The last call fails. -/
theorem tryFlush_zero {x : Flushing α V cfg} (h : ω x.calls.length = false) :
    tryFlush ω i t 0 x = ({ x with calls := x.calls ++ [(t.job.key, false)] }, false) := by
  rw [tryFlush]
  simp only [h, Bool.false_eq_true, if_false]

/-- A call fails, and the job is tried again. -/
theorem tryFlush_succ {left : ℕ} {x : Flushing α V cfg} (h : ω x.calls.length = false) :
    tryFlush ω i t (left + 1) x =
      tryFlush ω i t left
        { x with
          shared := x.shared.count fun r => { r with writeBackRetries := r.writeBackRetries + 1 }
          calls := x.calls ++ [(t.job.key, false)] } := by
  rw [tryFlush]
  simp only [h, Bool.false_eq_true, if_false]

/-- One try that succeeds. -/
theorem tried_of_ok {left : ℕ} {x : Flushing α V cfg} (h : ω x.calls.length = true) :
    Tried ω i t left x [true] (tryFlush ω i t left x) := by
  rw [tryFlush_of_ok h]
  refine ⟨by simp, by simp, rfl, fun j o ho => ?_, by simp, rfl, ?_, ?_, x.shards_applied⟩
  · cases j with
    | zero => simpa [h] using ho.symm
    | succ j => simp at ho
  · simp only [Flushing.applied]
    cases t.job.operation <;> rfl
  · simp only [Flushing.applied, if_true]
    cases t.job.operation <;> rfl

/-- **The tries of a job** end with the first success, or when there are none left. -/
theorem exists_tried (ω : ℕ → Bool) (i : Fin cfg.shardCount) (t : Ticket α V) (left : ℕ)
    (x : Flushing α V cfg) : ∃ os, Tried ω i t left x os (tryFlush ω i t left x) := by
  induction left generalizing x with
  | zero =>
      cases h : ω x.calls.length with
      | true => exact ⟨[true], tried_of_ok h⟩
      | false =>
          refine ⟨[false], ?_⟩
          rw [tryFlush_zero h]
          refine ⟨by simp, le_rfl, rfl, fun j o ho => ?_, by simp, rfl, rfl, rfl, rfl⟩
          cases j with
          | zero => simpa [h] using ho.symm
          | succ j => simp at ho
  | succ left ih =>
      cases h : ω x.calls.length with
      | true => exact ⟨[true], tried_of_ok h⟩
      | false =>
          rw [tryFlush_succ h]
          obtain ⟨os, hos⟩ := ih
            { x with
              shared := x.shared.count fun r => { r with writeBackRetries := r.writeBackRetries + 1 }
              calls := x.calls ++ [(t.job.key, false)] }
          refine ⟨false :: os, by simp, ?_, ?_, fun j o ho => ?_, ?_, hos.failed_eq, hos.failures_eq,
            hos.source_eq, hos.shards_eq⟩
          · have hlen := hos.length_le
            simp only [List.length_cons]
            omega
          · rw [hos.calls_eq, List.map_cons, List.append_assoc]
            rfl
          · cases j with
            | zero => simpa [h] using ho.symm
            | succ j =>
                have hout := hos.outcomes j o ho
                rw [List.length_append, List.length_singleton] at hout
                rw [hout]
                congr 1
                omega
          · rw [hos.success_iff]
            simp

/-- What a job that is not stale comes to, with the outcomes `os` of its tries. -/
structure JobFlushed (ω : ℕ → Bool) (i : Fin cfg.shardCount) (t : Ticket α V) (x : Flushing α V cfg)
    (os : List Bool) (x' : Flushing α V cfg) : Prop where
  nonempty : os ≠ []
  length_le : os.length ≤ t.job.retriesLeft + 1
  calls_eq : x'.calls = x.calls ++ os.map (Prod.mk t.job.key)
  outcomes : ∀ j o, os[j]? = some o → o = ω (x.calls.length + j)
  failed_iff : x'.failed = true ↔ x.failed = true ∨ true ∉ os
  failures_eq : x'.shared.runtime.flushFailures =
    x.shared.runtime.flushFailures + if true ∈ os then 0 else 1
  source_eq : x'.shared.source =
    if true ∈ os then applyWriteBack x.shared.source t.job else x.shared.source
  shards_eq : x'.shared.shards = Function.update x.shared.shards i
    ((if true ∈ os then (x.shared.shards i).markCleanLocked t.job
      else x.shared.shards i).clearPendingFlushesLocked t.job.key)

/-- A job that is not stale is tried, and its count is cleared. -/
theorem exists_jobFlushed {x : Flushing α V cfg} (hst : (x.shared.shards i).isStale t.job = false) :
    ∃ os, JobFlushed ω i t x os (flushJob ω i x t) := by
  obtain ⟨os, hos⟩ := exists_tried ω i t t.job.retriesLeft x
  have hsource := hos.source_eq
  have hshards := hos.shards_eq
  refine ⟨os, ?_⟩
  cases hr : (tryFlush ω i t t.job.retriesLeft x).2 with
  | true =>
      have htrue : true ∈ os := hos.success_iff.mp hr
      have hflush : flushJob ω i x t = { (tryFlush ω i t t.job.retriesLeft x).1 with
          shared := (tryFlush ω i t t.job.retriesLeft x).1.shared.setShard i
            (((tryFlush ω i t t.job.retriesLeft x).1.shared.shards i).clearPendingFlushesLocked t.job.key) } := by
        simp only [flushJob, hst, Bool.false_eq_true, if_false, hr, if_true]
      rw [hr] at hsource hshards
      rw [hflush]
      refine ⟨hos.nonempty, hos.length_le, hos.calls_eq, hos.outcomes, ?_, ?_, ?_, ?_⟩
      · rw [hos.failed_eq]
        simp [htrue]
      · rw [if_pos htrue]
        exact hos.failures_eq
      · rw [if_pos htrue]
        exact hsource
      · rw [if_pos htrue]
        show Function.update _ i _ = _
        rw [hshards, if_pos rfl, Function.update_self, Function.update_idem]
  | false =>
      have hfalse : true ∉ os := fun h => by
        rw [hos.success_iff.mpr h] at hr
        cases hr
      have hflush : flushJob ω i x t = { (tryFlush ω i t t.job.retriesLeft x).1 with
          shared := ((tryFlush ω i t t.job.retriesLeft x).1.shared.setShard i
            (((tryFlush ω i t t.job.retriesLeft x).1.shared.shards i).clearPendingFlushesLocked
              t.job.key)).count fun r => { r with flushFailures := r.flushFailures + 1 }
          failed := true } := by
        simp only [flushJob, hst, Bool.false_eq_true, if_false, hr]
      rw [hr] at hsource hshards
      rw [hflush]
      refine ⟨hos.nonempty, hos.length_le, hos.calls_eq, hos.outcomes, ?_, ?_, ?_, ?_⟩
      · simp [hfalse]
      · rw [if_neg hfalse]
        exact congrArg (· + 1) hos.failures_eq
      · rw [if_neg hfalse]
        exact hsource
      · rw [if_neg hfalse]
        show Function.update _ i _ = _
        rw [hshards, if_neg Bool.false_ne_true]

end Job

/-! ### What a shard owes -/

/-- What is to be written to the source for a key: the value of a dirty entry, or a delete that left a
tombstone. -/
def CacheShard.owes (sh : CacheShard α V T) (k : Key α) : Option (WriteOp V) :=
  match sh.backend.getEntry k with
  | some e => if e.dirty then some (.put e.value) else none
  | none => (sh.tombstones.get? k).map fun _ => .delete

/-- The metadata of a shard: entries and tombstones have the version of the mark, and no key has both. -/
structure CacheShard.Marked (sh : CacheShard α V T) : Prop where
  entry : ∀ k e, sh.backend.getEntry k = some e →
    sh.versionMarks.get? k = some e.version ∧ sh.tombstones.get? k = none
  tombstone : ∀ k t, sh.tombstones.get? k = some t →
    sh.versionMarks.get? k = some t ∧ sh.backend.getEntry k = none

namespace CacheShard

variable {sh : CacheShard α V T} {job : FlushWriteBack α V}

/-- A collected job writes what is owed for its key. -/
theorem Marked.owes_of_mem (h : sh.Marked) {cfg : CacheConfig T} (hjob : job ∈ sh.dirtyJobs cfg) :
    sh.owes job.key = some job.operation ∧ job.retriesLeft = cfg.writeBackRetryCount ∧
      sh.isStale job = false ∧
      ∀ v, job.operation = .put v → ∃ e, sh.backend.getEntry job.key = some e ∧ e.version = job.version := by
  rw [dirtyJobs, List.mem_append, List.mem_map, List.mem_map] at hjob
  rcases hjob with ⟨e, he, rfl⟩ | ⟨q, hq, rfl⟩
  · obtain ⟨hmem, hd⟩ := List.mem_filter.mp he
    have hget := InMemoryBackend.mem_entryList.mp hmem
    obtain ⟨hmark, htomb⟩ := h.entry e.key e hget
    refine ⟨?_, rfl, ?_, fun v _ => ⟨e, hget, rfl⟩⟩
    · simp only [owes, hget]
      exact if_pos hd
    · simp [isStale, isStaleWriteBack, hmark, htomb]
  · have htomb : sh.tombstones.get? q.1 = some q.2 := OrderedDict.get?_eq_some_iff.mpr hq
    obtain ⟨hmark, hget⟩ := h.tombstone q.1 q.2 htomb
    refine ⟨by simp [owes, hget, htomb], rfl, by simp [isStale, isStaleWriteBack, hmark, htomb], ?_⟩
    intro v hv
    cases hv

/-- The keys of the collected jobs are those for which something is owed. -/
theorem Marked.mem_keys_iff (h : sh.Marked) (cfg : CacheConfig T) (k : Key α) :
    k ∈ (sh.dirtyJobs cfg).map FlushWriteBack.key ↔ (sh.owes k).isSome = true := by
  constructor
  · intro hk
    obtain ⟨job, hjob, rfl⟩ := List.mem_map.mp hk
    rw [(h.owes_of_mem hjob).1]
    rfl
  · intro hk
    have howes : (sh.slot k).Owes := by
      unfold owes at hk
      cases he : sh.backend.getEntry k with
      | some e =>
          rw [he] at hk
          simp only at hk
          split_ifs at hk with hd
          · exact .inl ⟨e.held, by simp [slot, he], hd⟩
          · cases hk
      | none =>
          rw [he] at hk
          exact .inr (by simpa [slot] using hk)
    obtain ⟨job, hjob, hkey⟩ := exists_dirtyJobs_of_owes cfg howes
    exact List.mem_map.mpr ⟨job, hjob, hkey⟩

/-- No two collected jobs are for the same key. -/
theorem Marked.nodup_dirtyJobs (h : sh.Marked) (cfg : CacheConfig T) :
    ((sh.dirtyJobs cfg).map FlushWriteBack.key).Nodup := by
  rw [dirtyJobs, List.map_append, List.map_map, List.map_map]
  refine List.nodup_append.mpr ⟨?_, sh.tombstones.keys_nodup, fun k hk k' hk' heq => ?_⟩
  · have hsub : ((sh.backend.entryList.filter fun e => e.dirty).map CacheEntry.key).Sublist sh.backend.keys := by
      rw [← sh.backend.map_key_entryList]
      exact List.filter_sublist.map _
    exact sh.backend.entries.keys_nodup.sublist hsub
  · subst heq
    obtain ⟨e, he, rfl⟩ := List.mem_map.mp hk
    have hget := InMemoryBackend.mem_entryList.mp (List.mem_filter.mp he).1
    obtain ⟨q, hq, hqk⟩ := List.mem_map.mp hk'
    have htomb : sh.tombstones.get? q.1 = some q.2 := OrderedDict.get?_eq_some_iff.mpr hq
    have hnone := (h.tombstone q.1 q.2 htomb).2
    rw [show q.1 = e.key from hqk, hget] at hnone
    cases hnone

/-- The entries after marking one clean. -/
theorem getEntry_markCleanLocked (sh : CacheShard α V T) (job : FlushWriteBack α V) (k : Key α)
    (h : ∀ v, job.operation = .put v → ∃ e, sh.backend.getEntry job.key = some e ∧ e.version = job.version)
    (hdelete : job.operation = .delete → sh.backend.getEntry job.key = none) :
    (sh.markCleanLocked job).backend.getEntry k =
      if k = job.key then (sh.backend.getEntry k).map fun e => { e with dirty := false }
      else sh.backend.getEntry k := by
  cases hop : job.operation with
  | delete =>
      rw [markCleanLocked_of_delete hop]
      split_ifs with hk
      · rw [hk, hdelete hop]
        rfl
      · rfl
  | put v =>
      obtain ⟨e, he, hv⟩ := h v hop
      have hkey := sh.backend.keyed job.key e he
      simp only [markCleanLocked, hop, he, if_pos hv, InMemoryBackend.getEntry_putEntry, hkey]
      split_ifs with hk
      · simp [hk, he, hkey]
      · rfl

/-- Clearing counts leaves the entries alone. -/
@[simp] theorem getEntry_clearPendingFlushesLocked (sh : CacheShard α V T) (key k : Key α) :
    (sh.clearPendingFlushesLocked key).backend.getEntry k = sh.backend.getEntry k := by
  rw [clearPendingFlushesLocked, maybePruneMarksLocked_backend]

end CacheShard

/-! ### The walk -/

/-- What the synchronous flush finds: marked shards that know only about their own keys. -/
structure Shared.Marked (hash : Key α → ℕ) (s : Shared α V cfg) : Prop where
  stray : ∀ i k, shardFor cfg hash k ≠ i → (s.shards i).slot k = emptySlot
  marked : ∀ i, (s.shards i).Marked

/-- What is owed for a key. -/
def Shared.owes (hash : Key α → ℕ) (s : Shared α V cfg) (k : Key α) : Option (WriteOp V) :=
  (s.home hash k).owes k

/-- **The state after the jobs of the keys `done`**, in terms of the state `s` before the walk and of the
recorded calls. -/
structure Flushed (hash : Key α → ℕ) (ω : ℕ → Bool) (s : Shared α V cfg) (done : List (Key α))
    (x : Flushing α V cfg) : Prop where
  outcomes : ∀ n p, x.calls[n]? = some p → p.2 = ω n
  called : ∀ p ∈ x.calls, p.1 ∈ done
  tries : ∀ k ∈ done, 0 < x.calls.countP (fun p => p.1 = k) ∧
    x.calls.countP (fun p => p.1 = k) ≤ cfg.writeBackRetryCount + 1
  failed_iff : x.failed = true ↔ ∃ k ∈ done, (k, true) ∉ x.calls
  failures_eq : x.shared.runtime.flushFailures =
    s.runtime.flushFailures + done.countP fun k => decide ((k, true) ∉ x.calls)
  applied : ∀ k op, s.owes hash k = some op → (k, true) ∈ x.calls → x.shared.source.get? k = op.outcome
  kept : ∀ k, (k, true) ∉ x.calls → x.shared.source.get? k = s.source.get? k
  entries : ∀ i k, (x.shared.shards i).backend.getEntry k =
    if (k, true) ∈ x.calls then ((s.shards i).backend.getEntry k).map fun e => { e with dirty := false }
    else (s.shards i).backend.getEntry k
  slots : ∀ i, ∀ k ∉ done, (x.shared.shards i).slot k = (s.shards i).slot k
  cleared : ∀ k ∈ done, (x.shared.home hash k).pendingFlushes.get? k = none

section Walk

variable {ω : ℕ → Bool} {s : Shared α V cfg} {x : Flushing α V cfg} {done : List (Key α)}

/-- Before the walk. -/
theorem flushed_nil (hash : Key α → ℕ) (ω : ℕ → Bool) (s : Shared α V cfg) :
    Flushed hash ω s [] { shared := s } where
  outcomes n p hp := by simp at hp
  called p hp := by cases hp
  tries k hk := by cases hk
  failed_iff := by simp
  failures_eq := rfl
  applied k op _ hk := by cases hk
  kept k _ := rfl
  entries i k := by simp
  slots i k _ := rfl
  cleared k hk := by cases hk

/-- A job that was collected from `s` and not flushed yet is still not stale. -/
theorem Flushed.not_stale (h : Flushed hash ω s done x) (hs : s.Marked hash) {i : Fin cfg.shardCount}
    {job : FlushWriteBack α V} (hjob : job ∈ (s.shards i).dirtyJobs cfg.toCacheConfig)
    (hnew : job.key ∉ done) : (x.shared.shards i).isStale job = false := by
  have hstale := ((hs.marked i).owes_of_mem hjob).2.2.1
  rwa [CacheShard.isStale_eq, h.slots i job.key hnew, ← CacheShard.isStale_eq]

/-- A collected job belongs to the shard of its key. -/
theorem Shared.Marked.shardFor_eq (hs : s.Marked hash) {i : Fin cfg.shardCount} {job : FlushWriteBack α V}
    (hjob : job ∈ (s.shards i).dirtyJobs cfg.toCacheConfig) : shardFor cfg hash job.key = i := by
  by_contra hne
  have hempty := hs.stray i job.key hne
  rcases again_of_dirtyJobs hjob with ⟨e, he, -⟩ | ⟨ht, -⟩
  · rw [hempty] at he
    cases he
  · rw [hempty] at ht
    cases ht

/-- The calls after a job of a key that was not called before. -/
theorem mem_calls_iff {calls : List (Key α × Bool)} {os : List Bool} {key k : Key α}
    (hnew : ∀ p ∈ calls, p.1 ≠ key) :
    (k, true) ∈ calls ++ os.map (Prod.mk key) ↔
      if k = key then true ∈ os else (k, true) ∈ calls := by
  rw [List.mem_append, List.mem_map]
  split_ifs with hk
  · subst hk
    constructor
    · rintro (hold | ⟨o, ho, heq⟩)
      · exact absurd rfl (hnew _ hold)
      · cases heq
        exact ho
    · exact fun htrue => .inr ⟨true, htrue, rfl⟩
  · constructor
    · rintro (hold | ⟨o, ho, heq⟩)
      · exact hold
      · cases heq
        exact absurd rfl hk
    · exact .inl

/-- The number of calls after a job of a key. -/
theorem countP_calls (calls : List (Key α × Bool)) (os : List Bool) (key k : Key α) :
    (calls ++ os.map (Prod.mk key)).countP (fun p => p.1 = k) =
      calls.countP (fun p => p.1 = k) + if k = key then os.length else 0 := by
  rw [List.countP_append, List.countP_map]
  congr 1
  split_ifs with hk
  · subst hk
    exact List.countP_eq_length.mpr fun o _ => by simp
  · exact List.countP_eq_zero.mpr fun o _ => by simpa using fun heq : key = k => hk heq.symm

/-- A job leaves the slots of the other keys alone. -/
theorem JobFlushed.slot_eq {i : Fin cfg.shardCount} {t : Ticket α V} {os : List Bool} {y : Flushing α V cfg}
    (h : JobFlushed ω i t x os y) (j : Fin cfg.shardCount) {k : Key α} (hk : k ≠ t.job.key) :
    (y.shared.shards j).slot k = (x.shared.shards j).slot k := by
  rw [h.shards_eq]
  by_cases hj : j = i
  · subst hj
    rw [Function.update_self, CacheShard.slot_clearPendingFlushesLocked, Function.update_of_ne hk]
    split_ifs
    · rw [CacheShard.slot_markCleanLocked, Function.update_of_ne hk]
    · rfl
  · rw [Function.update_of_ne hj]

/-- A job leaves the source alone at the other keys. -/
theorem JobFlushed.source_of_ne {i : Fin cfg.shardCount} {t : Ticket α V} {os : List Bool}
    {y : Flushing α V cfg} (h : JobFlushed ω i t x os y) {k : Key α} (hk : k ≠ t.job.key) :
    y.shared.source.get? k = x.shared.source.get? k := by
  rw [h.source_eq]
  split_ifs
  · exact (Source.get?_apply _ _ _ _).trans (if_neg hk)
  · rfl

/-! ### One more job -/

section OneMore

variable {i : Fin cfg.shardCount} {t : Ticket α V} {os : List Bool} {y : Flushing α V cfg}

/-- The key was not called before. -/
theorem Flushed.fresh (h : Flushed hash ω s done x) (hnew : t.job.key ∉ done) :
    ∀ p ∈ x.calls, p.1 ≠ t.job.key :=
  fun p hp heq => hnew (heq ▸ h.called p hp)

/-- Whether a key was applied. -/
theorem Flushed.mem_calls (h : Flushed hash ω s done x) (hnew : t.job.key ∉ done)
    (hf : JobFlushed ω i t x os y) (k : Key α) :
    (k, true) ∈ y.calls ↔ if k = t.job.key then true ∈ os else (k, true) ∈ x.calls := by
  rw [hf.calls_eq]
  exact mem_calls_iff (h.fresh hnew)

theorem Flushed.outcomes_job (h : Flushed hash ω s done x) (hf : JobFlushed ω i t x os y) :
    ∀ n p, y.calls[n]? = some p → p.2 = ω n := by
  intro n p hp
  rw [hf.calls_eq] at hp
  rcases Nat.lt_or_ge n x.calls.length with hlt | hge
  · rw [List.getElem?_append_left hlt] at hp
    exact h.outcomes n p hp
  · rw [List.getElem?_append_right hge, List.getElem?_map] at hp
    obtain ⟨o, ho, rfl⟩ := Option.map_eq_some_iff.mp hp
    rw [hf.outcomes _ o ho, Nat.add_sub_cancel' hge]

theorem Flushed.called_job (h : Flushed hash ω s done x) (hf : JobFlushed ω i t x os y) :
    ∀ p ∈ y.calls, p.1 ∈ done ++ [t.job.key] := by
  intro p hp
  rw [hf.calls_eq, List.mem_append] at hp
  rcases hp with hold | hlast
  · exact List.mem_append_left _ (h.called p hold)
  · obtain ⟨o, -, rfl⟩ := List.mem_map.mp hlast
    exact List.mem_append_right _ List.mem_cons_self

theorem Flushed.tries_job (h : Flushed hash ω s done x) (hnew : t.job.key ∉ done)
    (hf : JobFlushed ω i t x os y) (hretries : t.job.retriesLeft = cfg.writeBackRetryCount) :
    ∀ k ∈ done ++ [t.job.key], 0 < y.calls.countP (fun p => p.1 = k) ∧
      y.calls.countP (fun p => p.1 = k) ≤ cfg.writeBackRetryCount + 1 := by
  intro k hk
  rw [hf.calls_eq, countP_calls]
  rcases List.mem_append.mp hk with hold | hlast
  · have hne : k ≠ t.job.key := fun heq => hnew (heq ▸ hold)
    rw [if_neg hne, Nat.add_zero]
    exact h.tries k hold
  · obtain rfl := List.mem_singleton.mp hlast
    have hzero : x.calls.countP (fun p => p.1 = t.job.key) = 0 :=
      List.countP_eq_zero.mpr fun p hp => by simpa using h.fresh hnew p hp
    have hlen := hf.length_le
    rw [if_pos rfl, hzero, Nat.zero_add]
    exact ⟨List.length_pos_iff.mpr hf.nonempty, hretries ▸ hlen⟩

theorem Flushed.failed_job (h : Flushed hash ω s done x) (hnew : t.job.key ∉ done)
    (hf : JobFlushed ω i t x os y) :
    y.failed = true ↔ ∃ k ∈ done ++ [t.job.key], (k, true) ∉ y.calls := by
  have hcalls := h.mem_calls hnew hf
  rw [hf.failed_iff, h.failed_iff]
  constructor
  · rintro (⟨k, hk, hout⟩ | hfail)
    · have hne : k ≠ t.job.key := fun heq => hnew (heq ▸ hk)
      exact ⟨k, List.mem_append_left _ hk, by rwa [hcalls, if_neg hne]⟩
    · exact ⟨t.job.key, by simp, by rwa [hcalls, if_pos rfl]⟩
  · rintro ⟨k, hk, hout⟩
    rw [hcalls] at hout
    rcases List.mem_append.mp hk with hold | hlast
    · have hne : k ≠ t.job.key := fun heq => hnew (heq ▸ hold)
      rw [if_neg hne] at hout
      exact .inl ⟨k, hold, hout⟩
    · rw [if_pos (List.mem_singleton.mp hlast)] at hout
      exact .inr hout

theorem Flushed.failures_job (h : Flushed hash ω s done x) (hnew : t.job.key ∉ done)
    (hf : JobFlushed ω i t x os y) :
    y.shared.runtime.flushFailures = s.runtime.flushFailures +
      (done ++ [t.job.key]).countP fun k => decide ((k, true) ∉ y.calls) := by
  have hcalls := h.mem_calls hnew hf
  have hcount : done.countP (fun k => decide ((k, true) ∉ y.calls)) =
      done.countP fun k => decide ((k, true) ∉ x.calls) := by
    refine List.countP_congr fun k hk => ?_
    have hne : k ≠ t.job.key := fun heq => hnew (heq ▸ hk)
    simp only [hcalls, if_neg hne]
  rw [hf.failures_eq, h.failures_eq, List.countP_append, hcount, Nat.add_assoc]
  congr 2
  simp only [List.countP_singleton, hcalls, if_true]
  by_cases htrue : true ∈ os <;> simp [htrue]

theorem Flushed.applied_job (h : Flushed hash ω s done x) (hnew : t.job.key ∉ done)
    (hf : JobFlushed ω i t x os y) (howes : s.owes hash t.job.key = some t.job.operation) :
    ∀ k op, s.owes hash k = some op → (k, true) ∈ y.calls → y.shared.source.get? k = op.outcome := by
  intro k op hop hk
  rw [h.mem_calls hnew hf] at hk
  by_cases hkey : k = t.job.key
  · subst hkey
    rw [if_pos rfl] at hk
    rw [howes] at hop
    cases hop
    rw [hf.source_eq, if_pos hk]
    exact (Source.get?_apply _ _ _ _).trans (if_pos rfl)
  · rw [if_neg hkey] at hk
    rw [hf.source_of_ne hkey]
    exact h.applied k op hop hk

theorem Flushed.kept_job (h : Flushed hash ω s done x) (hnew : t.job.key ∉ done)
    (hf : JobFlushed ω i t x os y) :
    ∀ k, (k, true) ∉ y.calls → y.shared.source.get? k = s.source.get? k := by
  intro k hk
  rw [h.mem_calls hnew hf] at hk
  by_cases hkey : k = t.job.key
  · subst hkey
    rw [if_pos rfl] at hk
    rw [hf.source_eq, if_neg hk]
    exact h.kept _ fun hmem => h.fresh hnew _ hmem rfl
  · rw [if_neg hkey] at hk
    rw [hf.source_of_ne hkey]
    exact h.kept k hk

theorem Flushed.entries_job (h : Flushed hash ω s done x) (hs : s.Marked hash)
    (hjob : t.job ∈ (s.shards i).dirtyJobs cfg.toCacheConfig) (hnew : t.job.key ∉ done)
    (hf : JobFlushed ω i t x os y) (j : Fin cfg.shardCount) (k : Key α) :
    (y.shared.shards j).backend.getEntry k =
      if (k, true) ∈ y.calls then ((s.shards j).backend.getEntry k).map fun e => { e with dirty := false }
      else (s.shards j).backend.getEntry k := by
  have hcalls := h.mem_calls hnew hf k
  -- what the job finds of its key is what was there before the walk
  have hfound : ∀ j, (x.shared.shards j).backend.getEntry t.job.key =
      (s.shards j).backend.getEntry t.job.key := fun j => by
    rw [h.entries j t.job.key, if_neg fun hmem => h.fresh hnew _ hmem rfl]
  have hversion := ((hs.marked i).owes_of_mem hjob).2.2.2
  have hmark := CacheShard.getEntry_markCleanLocked (x.shared.shards i) t.job k
    (fun v hv => by rw [hfound]; exact hversion v hv) fun hdel => by
      rw [hfound]
      rcases again_of_dirtyJobs hjob with ⟨e, -, -, hput⟩ | ⟨htomb, -⟩
      · rw [hdel] at hput
        cases hput
      · exact ((hs.marked i).tombstone _ _ htomb).2
  by_cases hkey : k = t.job.key
  · subst hkey
    simp only [hcalls, if_true]
    by_cases hj : j = i
    · subst hj
      rw [hf.shards_eq, Function.update_self, CacheShard.getEntry_clearPendingFlushesLocked]
      split_ifs
      · rw [hmark, if_pos rfl, hfound]
      · exact hfound j
    · have hnone : (s.shards j).backend.getEntry t.job.key = none := by
        have hempty := hs.stray j t.job.key (by rw [hs.shardFor_eq hjob]; exact fun heq => hj heq.symm)
        simpa [CacheShard.slot] using congrArg Slot.entry hempty
      rw [hf.shards_eq, Function.update_of_ne hj, hfound, hnone]
      simp
  · simp only [hcalls, if_neg hkey]
    rw [← h.entries j k, hf.shards_eq]
    by_cases hj : j = i
    · subst hj
      rw [Function.update_self, CacheShard.getEntry_clearPendingFlushesLocked]
      split_ifs
      · rw [hmark, if_neg hkey]
      · rfl
    · rw [Function.update_of_ne hj]

theorem Flushed.cleared_job (h : Flushed hash ω s done x) (hf : JobFlushed ω i t x os y)
    (hhome : shardFor cfg hash t.job.key = i) :
    ∀ k ∈ done ++ [t.job.key], (y.shared.home hash k).pendingFlushes.get? k = none := by
  have hlast : (y.shared.home hash t.job.key).pendingFlushes.get? t.job.key = none := by
    have hslot : ((y.shared.home hash t.job.key).slot t.job.key).pend = none := by
      rw [Shared.home, hhome, hf.shards_eq, Function.update_self, CacheShard.slot_clearPendingFlushesLocked,
        Function.update_self]
      exact Slot.prune_pend _
    exact hslot
  intro k hk
  by_cases hkey : k = t.job.key
  · rw [hkey]
    exact hlast
  · have hold : k ∈ done := (List.mem_append.mp hk).resolve_right fun hmem => hkey (List.mem_singleton.mp hmem)
    have hslot := congrArg Slot.pend (hf.slot_eq (shardFor cfg hash k) hkey)
    exact hslot.trans (h.cleared k hold)

/-- **One more job.** -/
theorem Flushed.job (h : Flushed hash ω s done x) (hs : s.Marked hash)
    (hjob : t.job ∈ (s.shards i).dirtyJobs cfg.toCacheConfig) (hnew : t.job.key ∉ done) :
    Flushed hash ω s (done ++ [t.job.key]) (flushJob ω i x t) := by
  obtain ⟨howes, hretries, -, -⟩ := (hs.marked i).owes_of_mem hjob
  have hhome := hs.shardFor_eq hjob
  obtain ⟨os, hf⟩ : ∃ os, JobFlushed ω i t x os (flushJob ω i x t) :=
    exists_jobFlushed (h.not_stale hs hjob hnew)
  refine ⟨h.outcomes_job hf, h.called_job hf, h.tries_job hnew hf hretries, h.failed_job hnew hf,
    h.failures_job hnew hf, h.applied_job hnew hf ?_, h.kept_job hnew hf, h.entries_job hs hjob hnew hf,
    fun j k hk => ?_, h.cleared_job hf hhome⟩
  · rw [Shared.owes, Shared.home, hhome, howes]
  · rw [List.mem_append, not_or, List.mem_singleton] at hk
    rw [hf.slot_eq j hk.2]
    exact h.slots j k hk.1

end OneMore

/-- The jobs of a shard. -/
theorem Flushed.jobs (h : Flushed hash ω s done x) (hs : s.Marked hash) {i : Fin cfg.shardCount}
    {ts : List (Ticket α V)} (hts : ∀ t ∈ ts, t.job ∈ (s.shards i).dirtyJobs cfg.toCacheConfig)
    (hnd : (ts.map fun t => t.job.key).Nodup) (hnew : ∀ t ∈ ts, t.job.key ∉ done) :
    Flushed hash ω s (done ++ ts.map fun t => t.job.key) (ts.foldl (flushJob ω i) x) := by
  induction ts generalizing done x with
  | nil => simpa using h
  | cons t ts ih =>
      rw [List.map_cons, List.nodup_cons] at hnd
      have hfirst := h.job hs (hts t List.mem_cons_self) (hnew t List.mem_cons_self)
      rw [List.foldl_cons, List.map_cons, List.append_cons]
      refine ih hfirst (fun t' ht' => hts t' (List.mem_cons_of_mem t ht')) hnd.2 fun t' ht' hmem => ?_
      rcases List.mem_append.mp hmem with hold | hlast
      · exact hnew t' (List.mem_cons_of_mem t ht') hold
      · exact hnd.1 (List.mem_map.mpr ⟨t', ht', List.mem_singleton.mp hlast⟩)

/-- A job leaves the other shards alone. -/
theorem shards_flushJob (ω : ℕ → Bool) (i : Fin cfg.shardCount) (x : Flushing α V cfg) (t : Ticket α V)
    {j : Fin cfg.shardCount} (hj : j ≠ i) : (flushJob ω i x t).shared.shards j = x.shared.shards j := by
  cases hst : (x.shared.shards i).isStale t.job with
  | true =>
      simp only [flushJob, hst, if_true]
      exact Function.update_of_ne hj _ _
  | false =>
      obtain ⟨os, hf⟩ : ∃ os, JobFlushed ω i t x os (flushJob ω i x t) := exists_jobFlushed hst
      rw [hf.shards_eq, Function.update_of_ne hj]

/-- The flush of a shard leaves the other shards alone. -/
theorem shards_flushShard (ω : ℕ → Bool) (x : Flushing α V cfg) {i j : Fin cfg.shardCount} (hj : j ≠ i) :
    (flushShard ω x i).shared.shards j = x.shared.shards j := by
  unfold flushShard
  generalize ((x.shared.shards i).dirtyJobs cfg.toCacheConfig).map (closeTicket x.shared.log) = ts
  induction ts generalizing x with
  | nil => rfl
  | cons t ts ih => rw [List.foldl_cons, ih, shards_flushJob ω i x t hj]

/-- The keys of the jobs that a shard owes. -/
def CacheShard.owedKeys (cfg : CacheConfig T) (sh : CacheShard α V T) : List (Key α) :=
  (sh.dirtyJobs cfg).map FlushWriteBack.key

/-- The keys of the jobs that the cache owes, in the order in which they are flushed. -/
def Shared.owedKeys (s : Shared α V cfg) : List (Key α) :=
  (List.finRange cfg.shardCount).flatMap fun i => (s.shards i).owedKeys cfg.toCacheConfig

/-- One more shard. -/
theorem Flushed.shard (h : Flushed hash ω s done x) (hs : s.Marked hash) {i : Fin cfg.shardCount}
    (hi : x.shared.shards i = s.shards i)
    (hnew : ∀ k ∈ (s.shards i).owedKeys cfg.toCacheConfig, k ∉ done) :
    Flushed hash ω s (done ++ (s.shards i).owedKeys cfg.toCacheConfig) (flushShard ω x i) := by
  have hkeys : (((s.shards i).dirtyJobs cfg.toCacheConfig).map (closeTicket x.shared.log)).map
      (fun t => t.job.key) = (s.shards i).owedKeys cfg.toCacheConfig := by
    rw [List.map_map]
    rfl
  unfold flushShard
  rw [hi, ← hkeys]
  refine h.jobs hs (fun t ht => ?_) ?_ fun t ht => ?_
  · obtain ⟨job, hjob, rfl⟩ := List.mem_map.mp ht
    exact hjob
  · rw [hkeys]
    exact (hs.marked i).nodup_dirtyJobs cfg.toCacheConfig
  · refine hnew _ ?_
    rw [← hkeys]
    exact List.mem_map.mpr ⟨t, ht, rfl⟩

/-- The keys that a shard owes are its own. -/
theorem Shared.Marked.shardFor_of_owed (hs : s.Marked hash) {i : Fin cfg.shardCount} {k : Key α}
    (hk : k ∈ (s.shards i).owedKeys cfg.toCacheConfig) : shardFor cfg hash k = i := by
  obtain ⟨job, hjob, rfl⟩ := List.mem_map.mp hk
  exact hs.shardFor_eq hjob

/-- The shards that are left. -/
theorem Flushed.shards (hs : s.Marked hash) (l visited : List (Fin cfg.shardCount))
    (hnd : (visited ++ l).Nodup)
    (h : Flushed hash ω s (visited.flatMap fun i => (s.shards i).owedKeys cfg.toCacheConfig) x)
    (hleft : ∀ i ∈ l, x.shared.shards i = s.shards i) :
    Flushed hash ω s ((visited ++ l).flatMap fun i => (s.shards i).owedKeys cfg.toCacheConfig)
      (l.foldl (flushShard ω) x) := by
  induction l generalizing visited x with
  | nil => simpa using h
  | cons i l ih =>
      rw [List.append_cons] at hnd ⊢
      have hvisited : i ∉ visited := by
        have hsub := (List.nodup_append.mp hnd).1
        rw [List.nodup_append] at hsub
        exact fun hmem => hsub.2.2 i hmem i List.mem_cons_self rfl
      have hrest : i ∉ l := fun hmem =>
        (List.nodup_append.mp hnd).2.2 i (List.mem_append_right _ List.mem_cons_self) i hmem rfl
      refine ih (visited ++ [i]) hnd ?_ fun j hj => ?_
      · rw [List.flatMap_append, List.flatMap_cons, List.flatMap_nil, List.append_nil]
        refine h.shard hs (hleft i List.mem_cons_self) fun k hk hmem => hvisited ?_
        obtain ⟨j, hj, hkj⟩ := List.mem_flatMap.mp hmem
        rw [← hs.shardFor_of_owed hk, hs.shardFor_of_owed hkj]
        exact hj
      · have hne : j ≠ i := fun heq => hrest (heq ▸ hj)
        rw [shards_flushShard ω x hne]
        exact hleft j (List.mem_cons_of_mem i hj)

/-- **The walk**: all jobs are flushed. -/
theorem flushed_all (hs : s.Marked hash) (ω : ℕ → Bool) :
    Flushed hash ω s s.owedKeys (flushDirtyEntriesSync ω s) :=
  Flushed.shards hs (List.finRange cfg.shardCount) [] (List.nodup_finRange _) (flushed_nil hash ω s)
    fun _ _ => rfl

/-- The keys that the cache owes. -/
theorem Shared.Marked.mem_owedKeys_iff (hs : s.Marked hash) (k : Key α) :
    k ∈ s.owedKeys ↔ (s.owes hash k).isSome = true := by
  rw [Shared.owes, ← (hs.marked (shardFor cfg hash k)).mem_keys_iff cfg.toCacheConfig]
  rw [Shared.owedKeys, List.mem_flatMap]
  constructor
  · rintro ⟨i, -, hk⟩
    obtain rfl := hs.shardFor_of_owed hk
    exact hk
  · exact fun hk => ⟨shardFor cfg hash k, List.mem_finRange _, hk⟩

end Walk

/-! ### The closing thread, left alone -/

/-- The closing thread during the flush, with the calls on the source so far. -/
structure Closer (α V : Type) {T : Type} [DecidableEq α] [LinearOrder T] [Zero T]
    (cfg : AcceptedConfig T) where
  shared : Shared α V cfg
  calls : List (Key α × Bool)
  thread : Thread α V T

/-- The key for which the next step of a thread calls the source. -/
def Thread.syncKey : Thread α V T → Option (Key α)
  | .syncTry _ t _ _ _ => some t.job.key
  | _ => none

/-- One step of the closing thread, with nobody else at work: a call on the source has the next outcome of
the schedule. -/
def AloneStep (ω : ℕ → Bool) (a b : Closer α V cfg) : Prop :=
  closeStep a.shared { ok := fun _ => ω a.calls.length } a.thread = some (b.shared, b.thread) ∧
    b.calls = a.calls ++ a.thread.syncKey.toList.map fun k => (k, ω a.calls.length)

section Alone

open Relation

variable (ω : ℕ → Bool)

/-- A call that succeeds. -/
theorem aloneSteps_applied {ω : ℕ → Bool} (i : Fin cfg.shardCount) (t : Ticket α V) (ts : List (Ticket α V))
    (left : ℕ) (x : Flushing α V cfg) (h : ω x.calls.length = true) :
    ReflTransGen (AloneStep ω) ⟨x.shared, x.calls, .syncTry i t left ts x.failed⟩
      ⟨(x.applied i t).shared, (x.applied i t).calls, .syncSettle i t true ts x.failed⟩ := by
  have hcalls : x.calls ++ [(t.job.key, true)] =
      x.calls ++ [t.job.key].map fun k => (k, ω x.calls.length) := by
    rw [List.map_singleton, h]
  cases hop : t.job.operation with
  | delete =>
      refine ReflTransGen.single ⟨?_, hcalls⟩
      simp only [closeStep, h, if_true, hop, Flushing.applied]
  | put v =>
      refine ReflTransGen.head (b := ⟨{ x.shared with source := applyWriteBack x.shared.source t.job }.emit
        [.applied t], x.calls ++ [(t.job.key, true)], .syncClean i t ts x.failed⟩) ⟨?_, hcalls⟩
        (ReflTransGen.single ⟨?_, ?_⟩)
      · simp only [closeStep, h, if_true, hop]
      · simp only [closeStep, Shared.onShard, i.isLt, dif_pos, Fin.eta, Option.map_some, hop,
          Flushing.applied]
      · simp [Thread.syncKey, Flushing.applied]

/-- A call that fails, with tries left. -/
theorem aloneStep_again {ω : ℕ → Bool} (i : Fin cfg.shardCount) (t : Ticket α V) (ts : List (Ticket α V))
    (left : ℕ) (x : Flushing α V cfg) (h : ω x.calls.length = false) :
    AloneStep ω ⟨x.shared, x.calls, .syncTry i t (left + 1) ts x.failed⟩
      ⟨x.shared.count fun r => { r with writeBackRetries := r.writeBackRetries + 1 },
        x.calls ++ [(t.job.key, false)], .syncTry i t left ts x.failed⟩ := by
  refine ⟨?_, ?_⟩
  · simp only [closeStep, h, Bool.false_eq_true, if_false]
  · simp [Thread.syncKey, h]

/-- The tries of a job. -/
theorem aloneSteps_try (i : Fin cfg.shardCount) (t : Ticket α V) (ts : List (Ticket α V)) (left : ℕ)
    (x : Flushing α V cfg) :
    ReflTransGen (AloneStep ω) ⟨x.shared, x.calls, .syncTry i t left ts x.failed⟩
      ⟨(tryFlush ω i t left x).1.shared, (tryFlush ω i t left x).1.calls,
        .syncSettle i t (tryFlush ω i t left x).2 ts x.failed⟩ := by
  induction left generalizing x with
  | zero =>
      cases h : ω x.calls.length with
      | true =>
          rw [tryFlush_of_ok h]
          exact aloneSteps_applied i t ts 0 x h
      | false =>
          rw [tryFlush_zero h]
          refine ReflTransGen.single ⟨?_, ?_⟩
          · simp only [closeStep, h, Bool.false_eq_true, if_false]
          · simp [Thread.syncKey, h]
  | succ left ih =>
      cases h : ω x.calls.length with
      | true =>
          rw [tryFlush_of_ok h]
          exact aloneSteps_applied i t ts (left + 1) x h
      | false =>
          rw [tryFlush_succ h]
          refine ReflTransGen.head (aloneStep_again i t ts left x h) ?_
          exact ih
            { x with
              shared := x.shared.count fun r => { r with writeBackRetries := r.writeBackRetries + 1 }
              calls := x.calls ++ [(t.job.key, false)] }

/-- The flag is set with the failures. -/
theorem failed_tryFlush (i : Fin cfg.shardCount) (t : Ticket α V) (left : ℕ) (x : Flushing α V cfg) :
    (tryFlush ω i t left x).1.failed = x.failed := by
  obtain ⟨os, hos⟩ := exists_tried ω i t left x
  exact hos.failed_eq

/-- One job. -/
theorem aloneSteps_job (i : Fin cfg.shardCount) (t : Ticket α V) (ts : List (Ticket α V))
    (x : Flushing α V cfg) :
    ReflTransGen (AloneStep ω) ⟨x.shared, x.calls, .syncNext i (t :: ts) x.failed⟩
      ⟨(flushJob ω i x t).shared, (flushJob ω i x t).calls, .syncNext i ts (flushJob ω i x t).failed⟩ := by
  cases hst : (x.shared.shards i).isStale t.job with
  | true =>
      refine ReflTransGen.single ⟨?_, ?_⟩
      · simp only [closeStep, i.isLt, dif_pos, Fin.eta, hst, if_true, flushJob]
      · simp [Thread.syncKey, flushJob, hst]
  | false =>
      have hstart : AloneStep ω ⟨x.shared, x.calls, .syncNext i (t :: ts) x.failed⟩
          ⟨x.shared, x.calls, .syncTry i t t.job.retriesLeft ts x.failed⟩ := by
        refine ⟨?_, by simp [Thread.syncKey]⟩
        simp only [closeStep, i.isLt, dif_pos, Fin.eta, hst, Bool.false_eq_true, if_false]
      refine ReflTransGen.head hstart ((aloneSteps_try ω i t ts _ x).tail ⟨?_, ?_⟩)
      · have hfailed := failed_tryFlush ω i t t.job.retriesLeft x
        simp only [closeStep, Shared.onShard, i.isLt, dif_pos, Fin.eta, Option.map_some, flushJob, hst,
          Bool.false_eq_true, if_false]
        cases hr : (tryFlush ω i t t.job.retriesLeft x).2 with
        | true => simp [hfailed]
        | false => simp
      · simp only [flushJob, hst, Thread.syncKey, Bool.false_eq_true, if_false]
        split_ifs <;> simp

/-- The jobs of a shard. -/
theorem aloneSteps_jobs (i : Fin cfg.shardCount) (ts : List (Ticket α V)) (x : Flushing α V cfg) :
    ReflTransGen (AloneStep ω) ⟨x.shared, x.calls, .syncNext i ts x.failed⟩
      ⟨(ts.foldl (flushJob ω i) x).shared, (ts.foldl (flushJob ω i) x).calls,
        .syncNext i [] (ts.foldl (flushJob ω i) x).failed⟩ := by
  induction ts generalizing x with
  | nil => exact ReflTransGen.refl
  | cons t ts ih => exact (aloneSteps_job ω i t ts x).trans (ih (flushJob ω i x t))

/-- One shard. -/
theorem aloneSteps_shard (i : Fin cfg.shardCount) (x : Flushing α V cfg) :
    ReflTransGen (AloneStep ω) ⟨x.shared, x.calls, .syncCollect i x.failed⟩
      ⟨(flushShard ω x i).shared, (flushShard ω x i).calls,
        .syncCollect (i + 1) (flushShard ω x i).failed⟩ := by
  have hstart : AloneStep ω ⟨x.shared, x.calls, .syncCollect i x.failed⟩
      ⟨x.shared, x.calls, .syncNext i (((x.shared.shards i).dirtyJobs cfg.toCacheConfig).map
        (closeTicket x.shared.log)) x.failed⟩ := by
    refine ⟨?_, by simp [Thread.syncKey]⟩
    simp only [closeStep, i.isLt, dif_pos, Fin.eta]
  refine ReflTransGen.head hstart ((aloneSteps_jobs ω i _ x).tail ⟨rfl, ?_⟩)
  simp [Thread.syncKey, flushShard]

/-- The shards from the `n`-th on. -/
theorem aloneSteps_shards (l : List (Fin cfg.shardCount)) (n : ℕ)
    (hl : l.map Fin.val = List.range' n (cfg.shardCount - n)) (hn : n ≤ cfg.shardCount)
    (x : Flushing α V cfg) :
    ReflTransGen (AloneStep ω) ⟨x.shared, x.calls, .syncCollect n x.failed⟩
      ⟨(l.foldl (flushShard ω) x).shared, (l.foldl (flushShard ω) x).calls,
        .syncCollect cfg.shardCount (l.foldl (flushShard ω) x).failed⟩ := by
  induction l generalizing n x with
  | nil =>
      have hlen := congrArg List.length hl
      simp only [List.map_nil, List.length_nil, List.length_range'] at hlen
      obtain rfl : n = cfg.shardCount := by omega
      exact ReflTransGen.refl
  | cons i l ih =>
      have hlen := congrArg List.length hl
      simp only [List.map_cons, List.length_cons, List.length_range'] at hlen
      obtain ⟨m, hm⟩ : ∃ m, cfg.shardCount - n = m + 1 := ⟨_, hlen.symm⟩
      rw [hm, List.map_cons, List.range'_succ, List.cons.injEq] at hl
      obtain ⟨rfl, hl⟩ := hl
      refine (aloneSteps_shard ω i x).trans (ih (i + 1) ?_ (by omega) (flushShard ω x i))
      rw [hl]
      congr 1
      omega

/-- **The closing thread, left alone**, does what `flushDirtyEntriesSync` says and then goes on with the flag
that it returns. -/
theorem closeSteps_sync (s : Shared α V cfg) :
    ReflTransGen (AloneStep ω) ⟨s, [], .syncCollect 0 false⟩
      ⟨if (flushDirtyEntriesSync ω s).failed then
          (flushDirtyEntriesSync ω s).shared.count fun r =>
            { r with shutdownFlushFailures := r.shutdownFlushFailures + 1 }
        else (flushDirtyEntriesSync ω s).shared,
        (flushDirtyEntriesSync ω s).calls, .closeStop (flushDirtyEntriesSync ω s).failed⟩ := by
  have hrange : (List.finRange cfg.shardCount).map Fin.val = List.range' 0 (cfg.shardCount - 0) := by
    rw [List.map_coe_finRange_eq_range, List.range_eq_range', Nat.sub_zero]
  refine (aloneSteps_shards ω _ 0 hrange (Nat.zero_le _) { shared := s }).tail ⟨?_, ?_⟩
  · simp only [closeStep, lt_irrefl, dif_neg, not_false_eq_true]
    rfl
  · simp [Thread.syncKey, flushDirtyEntriesSync]

end Alone

end CacheLab
