import CacheLab.System.Queue
import CacheLab.System.Runs

/-!
# The write-back metadata

Version marks, tombstones and pending counts exist to police flush jobs in flight. `MetadataOk` says
how they are tied to the resident entries and to the outstanding jobs, and `metadata_invariant` that
this holds at every point of every run up to the last phase of `close`, as long as no enqueue of a flush job ends
with another error than `QueueBackpressureError`. The synchronous flush of `close` takes counts back wholesale, its
final drain discards the queued jobs without releasing their counts, and so does an enqueue that raises `ValueError`.
-/

set_option linter.unusedSectionVars false

namespace CacheLab

variable {α V T : Type} [DecidableEq α] [LinearOrder T] [Zero T] [Add T] [Sub T]

open WriteBehind

variable {cfg : AcceptedConfig T} {hash : Key α → ℕ} {k : Key α}

/-- The number of outstanding flush jobs of a key: about to be enqueued, queued, or being processed. -/
def System.outstanding (k : Key α) (s : System α V cfg) : ℕ := s.underway.countP fun t => t.job.key = k

/-- **The metadata invariant** of the shards. -/
structure MetadataOk (hash : Key α → ℕ) (s : System α V cfg) : Prop where
  /-- The pending count of a key, in its own shard, is the number of its outstanding jobs. -/
  pending : ∀ k, (s.shared.home hash k).pendingFlushes.get? k =
    if s.outstanding k = 0 then none else some (s.outstanding k)
  /-- The other shards know nothing about it. -/
  stray : ∀ i k, shardFor cfg hash k ≠ i → (s.shared.shards i).slot k = emptySlot
  entry : ∀ i k e, (s.shared.shards i).backend.getEntry k = some e →
    (s.shared.shards i).versionMarks.get? k = some e.version ∧ (s.shared.shards i).tombstones.get? k = none
  tombstone : ∀ i k t, (s.shared.shards i).tombstones.get? k = some t →
    (s.shared.shards i).versionMarks.get? k = some t ∧ (s.shared.shards i).backend.getEntry k = none ∧
      0 < ((s.shared.shards i).pendingFlushes.get? k).getD 0
  mark : ∀ i k v, (s.shared.shards i).versionMarks.get? k = some v →
    ((s.shared.shards i).backend.getEntry k).isSome ∨
      0 < ((s.shared.shards i).pendingFlushes.get? k).getD 0
  /-- Without outstanding jobs there is nothing but the marks of the resident keys. -/
  quiescent : s.underway = [] → ∀ i, (s.shared.shards i).tombstones.keys = [] ∧
    (s.shared.shards i).pendingFlushes.keys = [] ∧
    ∀ k, k ∈ (s.shared.shards i).versionMarks.keys ↔ k ∈ (s.shared.shards i).backend.keys

/-! ### Counting jobs -/

/-- The jobs of a key among staged tickets. -/
theorem card_jobsOf (k : Key α) (l : List (Stage × Ticket α V)) :
    (jobsOf k l).card = (l.map Prod.snd).countP fun t => t.job.key = k := by
  induction l with
  | nil => rfl
  | cons x l ih =>
      rw [jobsOf_cons, Multiset.card_add, ih, jobsOf_singleton, List.map_cons, List.countP_cons, add_comm]
      by_cases hk : x.2.job.key = k
      · simp [hk]
      · simp [hk]

/-- The jobs in the view of a key are its outstanding jobs, if none is lost. -/
theorem System.card_jobs {s : System α V cfg} (hlost : s.shared.queue.lost = []) (k : Key α) :
    (s.jobs k).card = s.outstanding k := by
  have hsum : ∀ l : List (Thread α V T), (l.map fun th => jobsOf k th.flushes).sum.card =
      (l.flatMap fun th => th.flushes.map Prod.snd).countP fun t => t.job.key = k := by
    intro l
    induction l with
    | nil => rfl
    | cons th l ih =>
        rw [List.map_cons, List.sum_cons, Multiset.card_add, ih, card_jobsOf, List.flatMap_cons,
          List.countP_append]
  rw [System.jobs, Multiset.card_add, card_jobsOf, map_snd_staged, hsum, System.outstanding,
    ← System.tickets_eq_underway hlost, System.tickets, List.countP_append]

/-! ### The invariant -/

/-- The metadata of all cells is the metadata of the shards, if no job is lost. -/
theorem metadataOk_of_view {s : System α V cfg} (hb : Base hash s) (hm : ∀ k, (view hash k s).Meta)
    (hlost : s.shared.queue.lost = []) : MetadataOk hash s := by
  have hpend : ∀ k, (s.shared.home hash k).pendingFlushes.get? k =
      if s.outstanding k = 0 then none else some (s.outstanding k) := by
    intro k
    rw [← System.card_jobs hlost]
    exact (hm k).pend_eq
  have hcount : ∀ k, ((s.shared.home hash k).pendingFlushes.get? k).getD 0 = (s.jobs k).card :=
    fun k => (hm k).pend_getD
  -- a shard that knows something about a key is the shard of that key
  have hhome : ∀ i k, (s.shared.shards i).slot k ≠ emptySlot → shardFor cfg hash k = i :=
    fun i k hne => by_contra fun hi => hne ((hb.shards i).routed k hi)
  have hentry : ∀ i k e, (s.shared.shards i).backend.getEntry k = some e →
      (s.shared.shards i).versionMarks.get? k = some e.version ∧
        (s.shared.shards i).tombstones.get? k = none := by
    intro i k e he
    obtain rfl := (hb.shards i).shardFor_eq he
    have hslot : (view hash k s).slot.entry = some e.held := congrArg (Option.map CacheEntry.held) he
    exact (hm k).entry_mark e.held hslot
  have htomb : ∀ i k t, (s.shared.shards i).tombstones.get? k = some t →
      (s.shared.shards i).versionMarks.get? k = some t ∧ (s.shared.shards i).backend.getEntry k = none ∧
        0 < ((s.shared.shards i).pendingFlushes.get? k).getD 0 := by
    intro i k t ht
    obtain rfl := hhome i k fun hempty => by cases ht.symm.trans (congrArg Slot.tomb hempty)
    obtain ⟨hmark, hnone, hpos⟩ := (hm k).tomb_mark t ht
    exact ⟨hmark, Option.map_eq_none_iff.mp hnone, (hcount k).symm ▸ hpos⟩
  have hmark : ∀ i k v, (s.shared.shards i).versionMarks.get? k = some v →
      ((s.shared.shards i).backend.getEntry k).isSome ∨
        0 < ((s.shared.shards i).pendingFlushes.get? k).getD 0 := by
    intro i k v hv
    obtain rfl := hhome i k fun hempty => by cases hv.symm.trans (congrArg Slot.mark hempty)
    refine ((hm k).mark_used v hv).imp (fun he => ?_) fun hpos => (hcount k).symm ▸ hpos
    rwa [← Option.isSome_map (f := CacheEntry.held)]
  refine ⟨hpend, fun i k hi => (hb.shards i).routed k hi, hentry, htomb, hmark, fun hnone i => ?_⟩
  have hidle : ∀ k, (s.shared.shards i).pendingFlushes.get? k = none := by
    intro k
    by_cases hi : shardFor cfg hash k = i
    · subst hi
      rw [hpend k, if_pos (by simp [System.outstanding, hnone])]
    · exact congrArg Slot.pend ((hb.shards i).routed k hi)
  refine ⟨List.eq_nil_iff_forall_not_mem.mpr fun k hk => ?_,
    List.eq_nil_iff_forall_not_mem.mpr fun k hk => ?_, fun k => ⟨fun hk => ?_, fun hk => ?_⟩⟩
  · obtain ⟨t, ht⟩ := OrderedDict.mem_keys_iff.mp hk
    have hpos := (htomb i k t ht).2.2
    rw [hidle k] at hpos
    cases hpos
  · exact OrderedDict.get?_eq_none_iff.mp (hidle k) hk
  · obtain ⟨v, hv⟩ := OrderedDict.mem_keys_iff.mp hk
    rcases hmark i k v hv with he | hpos
    · exact InMemoryBackend.mem_keys_iff_isSome.mpr he
    · rw [hidle k] at hpos
      cases hpos
  · obtain ⟨e, he⟩ := InMemoryBackend.mem_keys_iff.mp hk
    exact OrderedDict.mem_keys_iff.mpr ⟨e.version, (hentry i k e he).1⟩

/-- **The metadata invariant holds along every run** in which `close` has neither started its
synchronous flush nor drained the queue, and no enqueue of a flush job raised `ValueError`. -/
theorem metadata_invariant {cfg : AcceptedConfig T} {hash : Key α → ℕ} {now : T} {src : Source α V}
    {ls : List (Label α V T)} {s : System α V cfg}
    (h : exec cfg hash (initial cfg now src) ls = some s)
    (hw : Transition.Along (step cfg hash) (fun s l => winds s l = false) (initial cfg now src) ls)
    (hno : Transition.Along (step cfg hash) (fun s l => enqueueRaises s l = false) (initial cfg now src) ls) :
    MetadataOk hash s := by
  have hrun := view_invariant (I := fun _ => True) (P := fun _ _ => True) (fun _ _ _ _ _ _ _ _ _ => trivial) h
    (hw.mono fun _ _ hl => ⟨hl, trivial⟩) (base_initial cfg hash now src)
    (fun k => meta_initial cfg hash k now src) fun _ => trivial
  exact metadataOk_of_view hrun.1 hrun.2.1 (lost_exec hno h)

/-- A put whose job is still queued. -/
theorem metadata_invariant_after_put :
    ∃ s : System ℕ ℕ (oneEntry .lru .writeBack 0 0 0),
      exec _ (fun _ => 0) (initial _ 0 .empty)
        [.call (.put (some 1) 10 .unset), .run 0 {}, .run 0 {}, .run 0 {}] = some s ∧
      MetadataOk (fun _ => 0) s := by
  have heval : (exec (oneEntry .lru .writeBack 0 0 0) (fun _ => 0) (initial _ 0 .empty)
      [.call (.put (some 1) 10 .unset), .run 0 {}, .run 0 {}, .run 0 {}] :
      Option (System ℕ ℕ (oneEntry .lru .writeBack 0 0 0))).isSome = true := by decide +kernel
  obtain ⟨s, hs⟩ := Option.isSome_iff_exists.mp heval
  exact ⟨s, hs, metadata_invariant hs (by decide +kernel) (by decide +kernel)⟩

/-- The step is part of the synchronous flush of `close`. -/
def synchronizes (s : System α V cfg) : Label α V T → Bool
  | .run i _ => (s.threads[i]?).any fun th => th.winding && th.flushing
  | _ => false

/-- A `close` that does not flush discards the queued jobs and leaves their counts behind: no job is
outstanding, no synchronous flush was started, and yet a flush is counted as pending. -/
theorem close_without_flush_leaves_count :
    ∃ (ls : List (Label ℕ ℕ ℕ)) (s : System ℕ ℕ (oneEntry .lru .writeBack 0 0 0)),
      exec _ (fun _ => 0) (initial _ 0 .empty) ls = some s ∧
      Transition.Along (step _ fun _ => 0) (fun s l => synchronizes s l = false)
        (initial (oneEntry .lru .writeBack 0 0 0) 0 .empty) ls ∧
      s.outstanding (some 1) = 0 ∧
      (s.shared.home (fun _ => 0) (some 1)).pendingFlushes.get? (some 1) = some 1 ∧
      ¬ MetadataOk (fun _ => 0) s := by
  have heval : ((exec (oneEntry .lru .writeBack 0 0 0) (fun _ => 0) (initial _ 0 .empty)
      [.call (.put (some 1) 10 .unset), .run 0 {}, .run 0 {}, .run 0 {}, .call (.close (some false)),
        .run 1 {}, .run 1 {}, .run 1 {}]).map fun s : System ℕ ℕ (oneEntry .lru .writeBack 0 0 0) =>
      decide (s.outstanding (some 1) = 0 ∧
        (s.shared.home (fun _ => 0) (some 1)).pendingFlushes.get? (some 1) = some 1)) = some true := by
    decide +kernel
  obtain ⟨s, hs, heval⟩ := Option.map_eq_some_iff.mp heval
  obtain ⟨hnone, hcount⟩ := of_decide_eq_true heval
  refine ⟨_, s, hs, by decide +kernel, hnone, hcount, fun hok => ?_⟩
  have hpending := hok.pending (some 1)
  rw [hnone, hcount] at hpending
  cases hpending

end CacheLab
