import CacheLab.Properties.Metadata
import CacheLab.System.DirtyFlush

/-!
# The synchronous flush as a backstop

Whatever the workers left behind, `close` walks over all shards once more and writes the dirty entries and the
deletes with a tombstone itself. `sync_flush_exact` says what comes of it for every pattern of source
failures: the walk ends, the calls on the source are counted, and the state afterwards follows from which
keys were applied.

* it needs only the part of the metadata invariant that ties entries and tombstones to the marks
  (`MetadataOk.marked`);
* nothing is said about a key that was neither dirty nor tombstoned but that it is left alone.
-/

set_option linter.unusedSectionVars false

namespace CacheLab

variable {α V T : Type} [DecidableEq α] [LinearOrder T] [Zero T] [Add T] [Sub T]

open WriteBehind

variable {cfg : AcceptedConfig T} {hash : Key α → ℕ}

/-- The metadata invariant ties the entries and the tombstones to the marks. -/
theorem MetadataOk.marked {s : System α V cfg} (h : MetadataOk hash s) : s.shared.Marked hash where
  stray := h.stray
  marked i :=
    { entry := h.entry i
      tombstone := fun k t ht => ⟨(h.tombstone i k t ht).1, (h.tombstone i k t ht).2.1⟩ }

/-! ### What is owed -/

/-- The key has a dirty entry. -/
def Shared.DirtyKey (hash : Key α → ℕ) (s : Shared α V cfg) (k : Key α) : Prop :=
  ∃ e, (s.home hash k).backend.getEntry k = some e ∧ e.dirty = true

/-- The key has a tombstone. -/
def Shared.Tombstoned (hash : Key α → ℕ) (s : Shared α V cfg) (k : Key α) : Prop :=
  ((s.home hash k).tombstones.get? k).isSome = true

section Owed

variable {s : Shared α V cfg} {k : Key α}

/-- The value of a dirty entry is owed. -/
theorem Shared.owes_of_dirty {e : CacheEntry α V T} (he : (s.home hash k).backend.getEntry k = some e)
    (hd : e.dirty = true) : s.owes hash k = some (WriteOp.put e.value) := by
  simp only [Shared.owes, CacheShard.owes, he, hd, if_true]

/-- A delete with a tombstone is owed. -/
theorem Shared.Marked.owes_of_tombstoned (hs : s.Marked hash) (hk : s.Tombstoned hash k) :
    s.owes hash k = some WriteOp.delete := by
  obtain ⟨t, ht⟩ := Option.isSome_iff_exists.mp hk
  have hnone := ((hs.marked (shardFor cfg hash k)).tombstone k t ht).2
  unfold Shared.owes CacheShard.owes
  rw [show (s.home hash k).backend.getEntry k = none from hnone,
    show (s.home hash k).tombstones.get? k = some t from ht]
  rfl

/-- Nothing else is owed. -/
theorem Shared.Marked.mem_owedKeys (hs : s.Marked hash) :
    k ∈ s.owedKeys ↔ s.DirtyKey hash k ∨ s.Tombstoned hash k := by
  rw [hs.mem_owedKeys_iff]
  constructor
  · intro hsome
    unfold Shared.owes CacheShard.owes at hsome
    cases he : (s.home hash k).backend.getEntry k with
    | some e =>
        rw [he] at hsome
        by_cases hd : e.dirty = true
        · exact .inl ⟨e, he, hd⟩
        · simp [hd] at hsome
    | none =>
        rw [he] at hsome
        exact .inr (by simpa [Shared.Tombstoned] using hsome)
  · rintro (⟨e, he, hd⟩ | htomb)
    · rw [Shared.owes_of_dirty he hd]
      rfl
    · rw [hs.owes_of_tombstoned htomb]
      rfl

/-- No key is owed twice. -/
theorem Shared.Marked.nodup_owedKeys (hs : s.Marked hash) : s.owedKeys.Nodup := by
  refine List.nodup_flatMap.mpr ⟨fun i _ => (hs.marked i).nodup_dirtyJobs _, ?_⟩
  refine (List.nodup_finRange cfg.shardCount).imp fun {i j} hij k hi hj => hij ?_
  rw [← hs.shardFor_of_owed hi, hs.shardFor_of_owed hj]

end Owed

/-! ### The flush -/

/-- **What the synchronous flush does**, from the state `s` before it: `x.calls` are its calls on the source,
and a key is applied if one of its calls succeeded. -/
structure FlushedExactly (hash : Key α → ℕ) (ω : ℕ → Bool) (s : Shared α V cfg) (x : Flushing α V cfg) :
    Prop where
  /-- The calls succeed and fail as the schedule says. -/
  outcomes : ∀ n p, x.calls[n]? = some p → p.2 = ω n
  /-- Only what is dirty or tombstoned is written, once at least and not too often. -/
  called : ∀ p ∈ x.calls, s.DirtyKey hash p.1 ∨ s.Tombstoned hash p.1
  tries : ∀ k, s.DirtyKey hash k ∨ s.Tombstoned hash k →
    0 < x.calls.countP (fun p => p.1 = k) ∧ x.calls.countP (fun p => p.1 = k) ≤ cfg.writeBackRetryCount + 1
  /-- `False` is returned iff everything was applied. -/
  failed_iff : x.failed = false ↔ ∀ k, s.DirtyKey hash k ∨ s.Tombstoned hash k → (k, true) ∈ x.calls
  clean : ∀ k e, (s.home hash k).backend.getEntry k = some e → e.dirty = true → (k, true) ∈ x.calls →
    (x.shared.home hash k).backend.getEntry k = some { e with dirty := false } ∧
      x.shared.source.get? k = some e.value
  dirty : ∀ k e, (s.home hash k).backend.getEntry k = some e → e.dirty = true → (k, true) ∉ x.calls →
    (x.shared.home hash k).backend.getEntry k = some e
  deleted : ∀ k, s.Tombstoned hash k → (k, true) ∈ x.calls → x.shared.source.get? k = none
  kept : ∀ k, ¬ (s.DirtyKey hash k ∨ s.Tombstoned hash k) → x.shared.source.get? k = s.source.get? k
  cleared : ∀ p ∈ x.calls, (x.shared.home hash p.1).pendingFlushes.get? p.1 = none
  /-- Every job that was not applied is counted. -/
  failures : ∃ unapplied : List (Key α), unapplied.Nodup ∧
    (∀ k, k ∈ unapplied ↔ (s.DirtyKey hash k ∨ s.Tombstoned hash k) ∧ (k, true) ∉ x.calls) ∧
    x.shared.runtime.flushFailures = s.runtime.flushFailures + unapplied.length

/-- See `flushed_all`. -/
theorem flushedExactly {s : Shared α V cfg} (hs : s.Marked hash) (ω : ℕ → Bool) :
    FlushedExactly hash ω s (flushDirtyEntriesSync ω s) := by
  have h := flushed_all hs ω
  refine ⟨h.outcomes, fun p hp => hs.mem_owedKeys.mp (h.called p hp),
    fun k hk => h.tries k (hs.mem_owedKeys.mpr hk), ?_, fun k e he hd hk => ⟨?_, ?_⟩, fun k e he hd hk => ?_,
    fun k htomb hk => ?_, fun k hk => ?_, fun p hp => h.cleared p.1 (h.called p hp), ?_⟩
  · rw [← Bool.not_eq_true, h.failed_iff]
    constructor
    · intro hall k hk
      by_contra hout
      exact hall ⟨k, hs.mem_owedKeys.mpr hk, hout⟩
    · rintro hall ⟨k, hk, hout⟩
      exact hout (hall k (hs.mem_owedKeys.mp hk))
  · rw [Shared.home, h.entries, if_pos hk, show (s.shards (shardFor cfg hash k)).backend.getEntry k = some e from he]
    rfl
  · exact h.applied k _ (Shared.owes_of_dirty he hd) hk
  · rw [Shared.home, h.entries, if_neg hk]
    exact he
  · exact h.applied k _ (hs.owes_of_tombstoned htomb) hk
  · exact h.kept k fun hmem => hk (hs.mem_owedKeys.mp (h.called _ hmem))
  · refine ⟨s.owedKeys.filter fun k => decide ((k, true) ∉ (flushDirtyEntriesSync ω s).calls),
      hs.nodup_owedKeys.filter _, fun k => ?_, ?_⟩
    · rw [List.mem_filter, hs.mem_owedKeys, decide_eq_true_iff]
    · rw [h.failures_eq, List.countP_eq_length_filter]

open Relation in
/-- **The synchronous shutdown flush is exact for every failure pattern.** The closing thread, with nobody else
at work, comes to the end of the flush, and what it has done until then is exact. -/
theorem sync_flush_exact {s : Shared α V cfg} (hs : s.Marked hash) (ω : ℕ → Bool) :
    ReflTransGen (AloneStep ω) ⟨s, [], .syncCollect 0 false⟩
      ⟨if (flushDirtyEntriesSync ω s).failed then
          (flushDirtyEntriesSync ω s).shared.count fun r =>
            { r with shutdownFlushFailures := r.shutdownFlushFailures + 1 }
        else (flushDirtyEntriesSync ω s).shared,
        (flushDirtyEntriesSync ω s).calls, .closeStop (flushDirtyEntriesSync ω s).failed⟩ ∧
    FlushedExactly hash ω s (flushDirtyEntriesSync ω s) :=
  ⟨closeSteps_sync ω s, flushedExactly hs ω⟩

/-- A put and its delete, then a put of another key; no worker runs. -/
def deleteThenPut : List (Label ℕ ℕ ℕ) :=
  [.call (.put (some 1) 10 .unset), .run 0 {}, .run 0 {}, .run 0 {},
    .call (.delete (some 1)), .run 1 {}, .run 1 {}, .run 1 {},
    .call (.put (some 2) 20 .unset), .run 2 {}, .run 2 {}, .run 2 {}]

open Relation in
/-- The put is applied at the second try; the delete fails twice, and is given up. -/
theorem sync_flush_exact_deleteThenPut :
    ∃ s : System ℕ ℕ (oneEntry .lru .writeBack 0 0 1),
      exec _ (fun _ => 0) (initial _ 0 .empty) deleteThenPut = some s ∧
      (flushDirtyEntriesSync (fun n => n = 1) s.shared).calls =
        [(some 2, false), (some 2, true), (some 1, false), (some 1, false)] ∧
      (flushDirtyEntriesSync (fun n => n = 1) s.shared).failed = true ∧
      FlushedExactly (fun _ => 0) (fun n => n = 1) s.shared
        (flushDirtyEntriesSync (fun n => n = 1) s.shared) := by
  have heval : ((exec (oneEntry .lru .writeBack 0 0 1) (fun _ => 0) (initial _ 0 .empty) deleteThenPut).map
      fun s : System ℕ ℕ (oneEntry .lru .writeBack 0 0 1) =>
        decide ((flushDirtyEntriesSync (fun n => n = 1) s.shared).calls =
            [(some 2, false), (some 2, true), (some 1, false), (some 1, false)] ∧
          (flushDirtyEntriesSync (fun n => n = 1) s.shared).failed = true)) = some true := by
    decide +kernel
  obtain ⟨s, hs, heval⟩ := Option.map_eq_some_iff.mp heval
  obtain ⟨hcalls, hfailed⟩ := of_decide_eq_true heval
  have hrun := view_invariant (I := fun _ => True) (P := fun _ _ => True) (fun _ _ _ _ _ _ _ _ _ => trivial) hs
    (by decide +kernel) (base_initial _ _ 0 .empty) (fun k => meta_initial _ _ k 0 .empty) fun _ => trivial
  have hlost := lost_exec (Transition.along_of_forall (fun l _ s => enqueueRaises_of_unbounded rfl s l) _) hs
  have hmarked := (metadataOk_of_view hrun.1 hrun.2.1 hlost).marked
  exact ⟨s, hs, hcalls, hfailed, (sync_flush_exact hmarked _).2⟩

end CacheLab
