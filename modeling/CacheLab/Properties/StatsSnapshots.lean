import CacheLab.Lib.Tour
import CacheLab.Observability.Snapshots
import CacheLab.Properties.Conservation
import CacheLab.System.Counters

/-!
# What a statistics snapshot says

A snapshot is put together from reads at different moments, while the cache goes on. It still adds up
(`stats_snapshots_add_up`):

* each row is that of its shard at one moment of the call, so it balances (`ShardStatsSnapshot.Balanced`): the policy
  tracks what is stored, and what was evicted, expired or deleted and what is left was put; and so do the totals;
* every counter is between its value when the call began and its value when it returned;
* snapshots do not go back: a call that began after another one had returned reports no smaller counter.

`Observed` is the invariant, for the calls that began after some moment and those before. That a row is that of its
shard in a state the call has passed through is a statement about the path to a state: `RowsSeen`.
-/

set_option linter.unusedSectionVars false

namespace CacheLab

variable {α V T : Type} [DecidableEq α] [LinearOrder T] [Zero T] [Add T] [Sub T]

variable {cfg : AcceptedConfig T} {hash : Key α → ℕ}

/-! ### Rows -/

/-- The counters of a row. -/
def ShardStatsSnapshot.counters (row : ShardStatsSnapshot) : MutableStats :=
  ⟨row.hits, row.misses, row.puts, row.deletes, row.evictions, row.expirations⟩

/-- **A row balances**: store and policy have the same number of keys, and what left or is there was put. -/
structure ShardStatsSnapshot.Balanced (row : ShardStatsSnapshot) : Prop where
  tracked : row.policy.trackedKeys = row.size
  metadata : row.policy.metadataSize = if row.policy.name = .lfu then 2 * row.size else row.size
  evicted : row.policy.evictions = row.evictions
  entries : row.evictions + row.expirations + row.deletes + row.size ≤ row.puts

/-- The counters of a snapshot. -/
def CacheStatsSnapshot.counters (snap : CacheStatsSnapshot) : MutableStats × RuntimeStats × ℕ :=
  (⟨snap.hits, snap.misses, snap.puts, snap.deletes, snap.evictions, snap.expirations⟩,
    ⟨snap.workerJobsCompleted, snap.workerJobsFailed, snap.writeBackRetries, snap.staleWriteBackJobsSkipped,
      snap.flushFailures, snap.shutdownFlushFailures⟩, snap.queueDropped)

/-- What left a shard or is there was put into it. -/
def Shared.Balanced (s : Shared α V cfg) : Prop := ∀ i, (s.shards i).ledger.1 ≤ (s.shards i).ledger.2.2

section Rows

variable {s s' : System α V cfg} {l : Label α V T}

/-- What the sections of a step post balances. -/
theorem Section.posting_le (i : ℕ) (x : Section) : (x.posting i).1 ≤ (x.posting i).2.2 := by
  cases x with
  | read j => by_cases hj : j = i <;> simp [Section.posting, hj]
  | stored j fresh => by_cases hj : j = i <;> cases fresh <;> simp [Section.posting, hj]

theorem sum_posting_le (i : ℕ) (xs : List Section) :
    (xs.map (Section.posting i)).sum.1 ≤ (xs.map (Section.posting i)).sum.2.2 := by
  induction xs with
  | nil => exact le_rfl
  | cons x xs ih =>
      rw [List.map_cons, List.sum_cons]
      exact Nat.add_le_add (x.posting_le i) ih

/-- Every step keeps the shards balanced. -/
theorem balanced_step (h : s.shared.Balanced) (hs : step cfg hash s l = some s') : s'.shared.Balanced := by
  intro i
  rw [step_posts hs i]
  exact Nat.add_le_add (h i) (sum_posting_le i _)

theorem EvictionPolicy.WF.metadata_eq {p : EvictionPolicy α} (h : p.WF) :
    p.metadataSize = if p.name = .lfu then 2 * p.len else p.len := by
  cases p with
  | lfu p => exact LFUPolicy.WF.metadataSize_eq h
  | _ => rfl

/-- **The row of a shard balances.** -/
theorem balanced_statsLocked (hbase : Base hash s) (h : s.shared.Balanced) (i : Fin cfg.shardCount) :
    (s.shared.shards i).statsLocked.Balanced := by
  have hagrees := (hbase.shards i).agrees
  have hlen : (s.shared.shards i).policy.len = (s.shared.shards i).backend.size :=
    hagrees.wf.len_eq.trans hagrees.length_order
  refine ⟨hlen, ?_, rfl, h i⟩
  show (s.shared.shards i).policy.metadataSize =
    if (s.shared.shards i).policy.name = .lfu then 2 * (s.shared.shards i).backend.size
    else (s.shared.shards i).backend.size
  rw [← hlen]
  exact hagrees.wf.metadata_eq

end Rows

/-! ### The invariant -/

/-- The rows of a call. -/
def StatsCall.rows : StatsCall → List ShardStatsSnapshot
  | collecting rows => rows
  | collected rows _ => rows
  | measured rows _ _ => rows
  | returned snap => snap.shards

/-- What a call has answered. -/
def StatsCall.answer? : StatsCall → Option CacheStatsSnapshot
  | returned snap => some snap
  | _ => none

theorem StatsCall.answer?_eq_some {call : StatsCall} {snap : CacheStatsSnapshot} (h : call.answer? = some snap) :
    call = .returned snap := by
  cases call with
  | returned snap' => exact congrArg returned (Option.some.inj h)
  | _ => cases h

/-- What a call has read besides the shards is between two states. -/
def StatsCall.Between (low high : Shared α V cfg) : StatsCall → Prop
  | collecting rows => rows.length ≤ cfg.shardCount
  | collected rows runtime => rows.length = cfg.shardCount ∧ low.runtime ≤ runtime ∧ runtime ≤ high.runtime
  | measured rows runtime _ => rows.length = cfg.shardCount ∧ low.runtime ≤ runtime ∧ runtime ≤ high.runtime
  | returned snap => ∃ rows runtime depth dropped, snap = makeSnapshot rows runtime depth dropped ∧
      rows.length = cfg.shardCount ∧ low.runtime ≤ runtime ∧ runtime ≤ high.runtime ∧
      low.queue.dropped ≤ dropped ∧ dropped ≤ high.queue.dropped

/-- A row is that of the shard at its place, between two states. -/
structure ShardStatsSnapshot.Of (low high : Shared α V cfg) (k : ℕ) (row : ShardStatsSnapshot) : Prop where
  index_eq : row.index = k
  balanced : row.Balanced
  between : ∃ h : k < cfg.shardCount,
    (low.shards ⟨k, h⟩).stats ≤ row.counters ∧ row.counters ≤ (high.shards ⟨k, h⟩).stats

/-- **What a call has read is between two states.** -/
structure StatsCall.Read (low high : Shared α V cfg) (call : StatsCall) : Prop where
  rows : ∀ (k : ℕ) (row : ShardStatsSnapshot), call.rows[k]? = some row → row.Of low high k
  between : call.Between low high

section Read

variable {low high high' : Shared α V cfg} {call call' : StatsCall}

/-- Time passes. -/
theorem StatsCall.Read.later (h : call.Read low high) (hcounted : high.Counted high') : call.Read low high' where
  rows k row hk := by
    obtain ⟨hindex, hbalanced, hlt, hlow, hhigh⟩ := h.rows k row hk
    exact ⟨hindex, hbalanced, hlt, hlow, hhigh.trans (hcounted.stats_le ⟨k, hlt⟩)⟩
  between := by
    have hbetween := h.between
    cases call with
    | collecting rows => exact hbetween
    | collected rows runtime =>
        obtain ⟨hlength, hlow, hhigh⟩ := hbetween
        exact ⟨hlength, hlow, hhigh.trans hcounted.runtime_le⟩
    | measured rows runtime depth =>
        obtain ⟨hlength, hlow, hhigh⟩ := hbetween
        exact ⟨hlength, hlow, hhigh.trans hcounted.runtime_le⟩
    | returned snap =>
        obtain ⟨rows, runtime, depth, dropped, rfl, hlength, hlow, hhigh, hlow', hhigh'⟩ := hbetween
        exact ⟨rows, runtime, depth, dropped, rfl, hlength, hlow, hhigh.trans hcounted.runtime_le, hlow',
          hhigh'.trans hcounted.dropped_le⟩

/-- **The next read of a call** is that of the state in which it is made. -/
theorem StatsCall.Read.look {s : System α V cfg} (h : call.Read low s.shared) (hbase : Base hash s)
    (hbalanced : s.shared.Balanced) (hcounted : low.Counted s.shared) (hlook : call.look s.shared = some call') :
    call'.Read low s.shared := by
  have hbetween := h.between
  cases call with
  | collecting rows =>
      simp only [StatsCall.look] at hlook
      split_ifs at hlook with hlt <;> cases hlook
      · refine ⟨?_, ?_⟩
        · intro k row hk
          rcases Transition.getElem?_concat_cases hk with hold | ⟨rfl, rfl⟩
          · exact h.rows k row hold
          · exact ⟨(hbase.shards _).index_eq, balanced_statsLocked hbase hbalanced _, hlt,
              hcounted.stats_le _, le_rfl⟩
        · show (rows ++ [_]).length ≤ cfg.shardCount
          rw [List.length_append]
          exact hlt
      · exact ⟨h.rows, le_antisymm hbetween (not_lt.mp hlt), hcounted.runtime_le, le_rfl⟩
  | collected rows runtime =>
      cases hlook
      exact ⟨h.rows, hbetween⟩
  | measured rows runtime depth =>
      cases hlook
      obtain ⟨hlength, hlow, hhigh⟩ := hbetween
      exact ⟨h.rows, rows, runtime, depth, _, rfl, hlength, hlow, hhigh, hcounted.dropped_le, le_rfl⟩
  | returned snap => cases hlook

end Read

/-- **The invariant**: the calls from number `n` on began after the state `low`, those before after `first`. -/
structure Observed (hash : Key α → ℕ) (first low : Shared α V cfg) (n : ℕ) (w : Watched α V cfg) : Prop where
  base : Base hash w.cache
  balanced : w.cache.shared.Balanced
  first_le : first.Counted w.cache.shared
  low_le : low.Counted w.cache.shared
  early : ∀ (j : ℕ) (call : StatsCall), w.calls[j]? = some call → call.Read first w.cache.shared
  late : ∀ (j : ℕ) (call : StatsCall), n ≤ j → w.calls[j]? = some call → call.Read low w.cache.shared

section Step

variable {first low : Shared α V cfg} {n : ℕ} {w w' : Watched α V cfg} {l : WatchedLabel α V T}

/-- A call begins. -/
theorem read_nil (low high : Shared α V cfg) : (StatsCall.collecting []).Read low high where
  rows k row hk := by cases hk
  between := Nat.zero_le _

/-- **Every step keeps the invariant.** -/
theorem Observed.step (h : Observed hash first low n w) (hs : watchedStep cfg hash w l = some w') :
    Observed hash first low n w' := by
  cases l with
  | cache l =>
      obtain ⟨s', hs', rfl⟩ := Option.map_eq_some_iff.mp hs
      have hcounted := step_counted hs'
      exact ⟨h.base.step hs', balanced_step h.balanced hs', h.first_le.trans hcounted, h.low_le.trans hcounted,
        fun j call hj => (h.early j call hj).later hcounted, fun j call hn hj => (h.late j call hn hj).later hcounted⟩
  | stats =>
      cases hs
      refine ⟨h.base, h.balanced, h.first_le, h.low_le, ?_, ?_⟩
      · intro j call hj
        rcases Transition.getElem?_append_cases hj with hold | hnew
        · exact h.early j call hold
        · cases List.mem_singleton.mp hnew
          exact read_nil _ _
      · intro j call hn hj
        rcases Transition.getElem?_append_cases hj with hold | hnew
        · exact h.late j call hn hold
        · cases List.mem_singleton.mp hnew
          exact read_nil _ _
  | look i =>
      obtain ⟨before, hi, hmove⟩ := Option.bind_eq_some_iff.mp hs
      obtain ⟨after, hlook, rfl⟩ := Option.map_eq_some_iff.mp hmove
      refine ⟨h.base, h.balanced, h.first_le, h.low_le, ?_, ?_⟩
      · intro j call hj
        rcases Transition.getElem?_set_cases hj with ⟨rfl, rfl⟩ | ⟨-, hj⟩
        · exact (h.early _ before hi).look h.base h.balanced h.first_le hlook
        · exact h.early j call hj
      · intro j call hn hj
        rcases Transition.getElem?_set_cases hj with ⟨rfl, rfl⟩ | ⟨-, hj⟩
        · exact (h.late _ before hn hi).look h.base h.balanced h.low_le hlook
        · exact h.late j call hn hj

/-- Nothing was counted yet. -/
theorem observed_initial (cfg : AcceptedConfig T) (hash : Key α → ℕ) (now : T) (src : Source α V) :
    Observed hash (initial cfg now src).shared (initial cfg now src).shared 0 (watchedInitial cfg now src) where
  base := base_initial cfg hash now src
  balanced _ := le_rfl
  first_le := .refl _
  low_le := .refl _
  early _ _ hj := by cases hj
  late _ _ _ hj := by cases hj

/-- From now on. -/
theorem Observed.now (h : Observed hash first low n w) :
    Observed hash first w.cache.shared w.calls.length w :=
  ⟨h.base, h.balanced, h.first_le, .refl _, h.early, fun _ _ hn hj =>
    absurd (List.getElem?_eq_some_iff.mp hj).1 (not_lt.mpr hn)⟩

end Step

/-! ### Each row is that of its shard at one moment -/

/-- The next read of a call adds the row of the next shard, or none. -/
theorem StatsCall.rows_look {s : Shared α V cfg} {call call' : StatsCall} (h : call.look s = some call') :
    call'.rows = call.rows ∨ ∃ hlt : call.rows.length < cfg.shardCount,
      call'.rows = call.rows ++ [(s.shards ⟨call.rows.length, hlt⟩).statsLocked] := by
  cases call with
  | collecting rows =>
      simp only [StatsCall.look] at h
      split_ifs at h with hlt <;> cases h
      · exact Or.inr ⟨hlt, rfl⟩
      · exact Or.inl rfl
  | collected rows runtime =>
      cases h
      exact Or.inl rfl
  | measured rows runtime depth =>
      cases h
      exact Or.inl rfl
  | returned snap => cases h

/-- **The rows of the calls from number `n` on** are those of the shards in states on the path from `u`. -/
def RowsSeen (hash : Key α → ℕ) (u : Watched α V cfg) (n : ℕ) (ls : List (WatchedLabel α V T)) (w : Watched α V cfg) :
    Prop :=
  ∀ (j : ℕ) (call : StatsCall), n ≤ j → w.calls[j]? = some call →
    ∀ (k : ℕ) (row : ShardStatsSnapshot), call.rows[k]? = some row →
      ∃ (h : k < cfg.shardCount) (t : Watched α V cfg), Transition.Visited (watchedStep cfg hash) u ls t ∧
        row = (t.cache.shared.shards ⟨k, h⟩).statsLocked

section Seen

variable {u w w' : Watched α V cfg} {n : ℕ} {ls : List (WatchedLabel α V T)} {l : WatchedLabel α V T}

/-- A longer path passes through the same states. -/
theorem RowsSeen.mono (h : RowsSeen hash u n ls w) (l : WatchedLabel α V T) : RowsSeen hash u n (ls ++ [l]) w := by
  intro j call hn hj k row hk
  obtain ⟨hlt, t, ht, hrow⟩ := h j call hn hj k row hk
  exact ⟨hlt, t, ht.mono (List.prefix_append ls [l]), hrow⟩

/-- **Every step keeps it**: a read adds the row of the state in which it is made. -/
theorem RowsSeen.step (h : RowsSeen hash u n ls w) (hrun : watchedExec cfg hash u ls = some w)
    (hs : watchedStep cfg hash w l = some w') : RowsSeen hash u n (ls ++ [l]) w' := by
  have hlater := h.mono l
  cases l with
  | cache l =>
      obtain ⟨s', -, rfl⟩ := Option.map_eq_some_iff.mp hs
      exact hlater
  | stats =>
      cases hs
      intro j call hn hj
      rcases Transition.getElem?_append_cases hj with hold | hnew
      · exact hlater j call hn hold
      · cases List.mem_singleton.mp hnew
        intro k row hk
        cases hk
  | look i =>
      obtain ⟨before, hi, hmove⟩ := Option.bind_eq_some_iff.mp hs
      obtain ⟨after, hlook, rfl⟩ := Option.map_eq_some_iff.mp hmove
      intro j call hn hj
      rcases Transition.getElem?_set_cases hj with ⟨rfl, rfl⟩ | ⟨-, hj⟩
      · intro k row hk
        rcases StatsCall.rows_look hlook with hsame | ⟨hlt, hnew⟩
        · exact hlater _ before hn hi k row (hsame ▸ hk)
        · rw [hnew] at hk
          rcases Transition.getElem?_concat_cases hk with hold | ⟨rfl, rfl⟩
          · exact hlater _ before hn hi k row hold
          · exact ⟨hlt, w, ⟨ls, List.prefix_append ls _, hrun⟩, rfl⟩
      · exact hlater j call hn hj

end Seen

/-! ### Totals -/

section Totals

variable {rows rows' : List ShardStatsSnapshot}

/-- A column that is smaller row by row has a smaller total. -/
theorem sum_column_le (f : ShardStatsSnapshot → ℕ) (hlength : rows.length = rows'.length)
    (h : ∀ (k : ℕ) (row row' : ShardStatsSnapshot), rows[k]? = some row → rows'[k]? = some row' → f row ≤ f row') :
    (rows.map f).sum ≤ (rows'.map f).sum := by
  apply List.Forall₂.sum_le_sum
  rw [List.forall₂_map_left_iff, List.forall₂_map_right_iff, List.forall₂_iff_get]
  refine ⟨hlength, ?_⟩
  intro k hk hk'
  exact h k _ _ (List.getElem?_eq_getElem hk) (List.getElem?_eq_getElem hk')

/-- Rows that balance have totals that balance. -/
theorem sum_entries_le (h : ∀ row ∈ rows, row.Balanced) :
    (rows.map ShardStatsSnapshot.evictions).sum + (rows.map ShardStatsSnapshot.expirations).sum +
      (rows.map ShardStatsSnapshot.deletes).sum + (rows.map ShardStatsSnapshot.size).sum ≤
        (rows.map ShardStatsSnapshot.puts).sum := by
  induction rows with
  | nil => exact le_rfl
  | cons row rows ih =>
      have hrow := (h row List.mem_cons_self).entries
      have hrows := ih fun row' hmem => h row' (List.mem_cons_of_mem row hmem)
      simp only [List.map_cons, List.sum_cons]
      omega

/-- Snapshots of smaller parts are smaller. -/
theorem counters_makeSnapshot_le {runtime runtime' : RuntimeStats} {depth depth' dropped dropped' : ℕ}
    (hlength : rows.length = rows'.length)
    (h : ∀ (k : ℕ) (row row' : ShardStatsSnapshot), rows[k]? = some row → rows'[k]? = some row' →
      row.counters ≤ row'.counters) (hruntime : runtime ≤ runtime') (hdropped : dropped ≤ dropped') :
    (makeSnapshot rows runtime depth dropped).counters ≤ (makeSnapshot rows' runtime' depth' dropped').counters := by
  refine ⟨MutableStats.le_iff.mpr ⟨?_, ?_, ?_, ?_, ?_, ?_⟩, hruntime, hdropped⟩
  · exact sum_column_le _ hlength fun k row row' hk hk' => (MutableStats.le_iff.mp (h k row row' hk hk')).1
  · exact sum_column_le _ hlength fun k row row' hk hk' => (MutableStats.le_iff.mp (h k row row' hk hk')).2.1
  · exact sum_column_le _ hlength fun k row row' hk hk' => (MutableStats.le_iff.mp (h k row row' hk hk')).2.2.1
  · exact sum_column_le _ hlength fun k row row' hk hk' => (MutableStats.le_iff.mp (h k row row' hk hk')).2.2.2.1
  · exact sum_column_le _ hlength fun k row row' hk hk' => (MutableStats.le_iff.mp (h k row row' hk hk')).2.2.2.2.1
  · exact sum_column_le _ hlength fun k row row' hk hk' => (MutableStats.le_iff.mp (h k row row' hk hk')).2.2.2.2.2

end Totals

/-! ### The theorem -/

section Run

variable {now : T} {src : Source α V} {u w : Watched α V cfg} {before after : List (WatchedLabel α V T)} {j : ℕ}
  {snap : CacheStatsSnapshot}

/-- No call that begins after `u` has read anything at `u`. -/
theorem rowsSeen_exec (hrun : watchedExec cfg hash u after = some w) :
    RowsSeen hash u u.calls.length after w := by
  apply @Transition.path_invariant _ _ _ _ _ _ (RowsSeen hash u u.calls.length) hrun
  · intro ms v l v' hms hs hseen
    exact hseen.step hms hs
  · intro j call hn hj
    exact absurd (List.getElem?_eq_some_iff.mp hj).1 (not_lt.mpr hn)

theorem Observed.exec {first low : Shared α V cfg} {n : ℕ} (h : Observed hash first low n u)
    (hrun : watchedExec cfg hash u after = some w) : Observed hash first low n w :=
  Transition.run_invariant_of_step (fun _ _ _ hs hobserved => hobserved.step hs) hrun h

/-- **A statistics snapshot adds up.** A call of `stats` begins after `before` and has returned `snap` after `after`;
whatever else runs, and however many other calls of `stats`, its rows are those of the shards in order, each of them
is that of its shard in one state that the call has passed through, balances and lies between the shard's counters at
the two moments, the totals balance, the other counters lie between theirs, and no counter is smaller than in any
snapshot that was returned before the call. -/
theorem stats_snapshots_add_up (hbefore : watchedExec cfg hash (watchedInitial cfg now src) before = some u)
    (hafter : watchedExec cfg hash u after = some w) (hj : u.calls.length ≤ j)
    (hsnap : w.calls[j]? = some (StatsCall.returned snap)) :
    snap.shards.length = cfg.shardCount ∧
      (∀ (k : ℕ) (row : ShardStatsSnapshot), snap.shards[k]? = some row →
        row.index = k ∧ row.Balanced ∧ ∃ h : k < cfg.shardCount,
          (∃ t : Watched α V cfg, Transition.Visited (watchedStep cfg hash) u after t ∧
            row = (t.cache.shared.shards ⟨k, h⟩).statsLocked) ∧
          (u.cache.shared.shards ⟨k, h⟩).stats ≤ row.counters ∧
            row.counters ≤ (w.cache.shared.shards ⟨k, h⟩).stats) ∧
      snap.evictions + snap.expirations + snap.deletes + snap.size ≤ snap.puts ∧
      (u.cache.shared.runtime, u.cache.shared.queue.dropped) ≤ snap.counters.2 ∧
      snap.counters.2 ≤ (w.cache.shared.runtime, w.cache.shared.queue.dropped) ∧
      (∀ (i : ℕ) (snap' : CacheStatsSnapshot), u.calls[i]? = some (StatsCall.returned snap') →
        snap'.counters ≤ snap.counters) := by
  have hfirst := (observed_initial cfg hash now src).exec hbefore
  have hread := (hfirst.now.exec hafter).late j _ hj hsnap
  obtain ⟨rows, runtime, depth, dropped, rfl, hlength, hruntime, hruntime₁, hdropped, hdropped₁⟩ := hread.between
  have hrows := hread.rows
  refine ⟨hlength, ?_, ?_, ⟨hruntime, hdropped⟩, ⟨hruntime₁, hdropped₁⟩, ?_⟩
  · intro k row hk
    obtain ⟨hindex, hbalanced, hlt, hbetween⟩ := hrows k row hk
    obtain ⟨_, t, ht, hrow⟩ := rowsSeen_exec hafter j _ hj hsnap k row hk
    exact ⟨hindex, hbalanced, hlt, ⟨t, ht, hrow⟩, hbetween⟩
  · apply sum_entries_le
    intro row hmem
    obtain ⟨k, hk⟩ := List.mem_iff_getElem?.mp hmem
    exact (hrows k row hk).balanced
  · intro i snap' hi
    have hread' := hfirst.early i _ hi
    obtain ⟨rows', runtime', depth', dropped', rfl, hlength', -, hruntime', -, hdropped'⟩ := hread'.between
    refine counters_makeSnapshot_le (hlength'.trans hlength.symm) ?_ (hruntime'.trans hruntime)
      (hdropped'.trans hdropped)
    intro k row' row hk' hk
    obtain ⟨-, -, hlt, -, hhigh⟩ := hread'.rows k row' hk'
    obtain ⟨-, -, hlt', hlow, -⟩ := hrows k row hk
    exact hhigh.trans hlow

end Run

/-- A put, and a call of `stats`. -/
def putThenStats : List (WatchedLabel ℕ ℕ ℕ) :=
  [.cache (.call (.put (some 1) 5 .unset)), .cache (.run 0 {}), .cache (.run 0 {}), .stats, .look 0, .look 0, .look 0,
    .look 0]

/-- A second call, and a put that evicts the first key while it is under way. -/
def statsWhileEvicted : List (WatchedLabel ℕ ℕ ℕ) :=
  [.cache (.call (.put (some 2) 6 .unset)), .stats, .cache (.run 1 {}), .cache (.run 1 {}), .look 1,
    .cache (.call (.get (some 1))), .cache (.run 2 {}), .cache (.run 2 {}), .look 1, .look 1, .look 1]

/-- The second snapshot has the eviction, not the miss after it. -/
theorem stats_snapshots_add_up_statsWhileEvicted :
    ∃ (u w : Watched ℕ ℕ (oneEntry .lfu .cacheOnly 0 0 0)) (snap snap' : CacheStatsSnapshot),
      watchedExec _ (fun _ => 0) (watchedInitial _ 0 .empty) putThenStats = some u ∧
      watchedExec _ (fun _ => 0) u statsWhileEvicted = some w ∧
      u.calls[0]? = some (StatsCall.returned snap') ∧ w.calls[1]? = some (StatsCall.returned snap) ∧
      (snap.puts, snap.evictions, snap.size, snap.misses) = (2, 1, 1, 0) ∧ snap'.counters ≤ snap.counters ∧
      snap.evictions + snap.expirations + snap.deletes + snap.size ≤ snap.puts := by
  have heval : ((watchedExec (oneEntry .lfu .cacheOnly 0 0 0) (fun _ => 0) (watchedInitial _ 0 .empty)
      putThenStats).bind fun u : Watched ℕ ℕ (oneEntry .lfu .cacheOnly 0 0 0) =>
        (watchedExec _ (fun _ => 0) u statsWhileEvicted).bind fun w =>
          ((u.calls[0]?).bind StatsCall.answer?).bind fun snap' => ((w.calls[1]?).bind StatsCall.answer?).map fun snap =>
            decide (u.calls.length = 1 ∧ (snap.puts, snap.evictions, snap.size, snap.misses) = (2, 1, 1, 0))) =
      some true := by
    decide +kernel
  obtain ⟨u, hu, heval⟩ := Option.bind_eq_some_iff.mp heval
  obtain ⟨w, hw, heval⟩ := Option.bind_eq_some_iff.mp heval
  obtain ⟨snap', hsnap', heval⟩ := Option.bind_eq_some_iff.mp heval
  obtain ⟨snap, hsnap, heval⟩ := Option.map_eq_some_iff.mp heval
  obtain ⟨hlength, hvalues⟩ := of_decide_eq_true heval
  obtain ⟨call', hcall', hanswer'⟩ := Option.bind_eq_some_iff.mp hsnap'
  obtain ⟨call, hcall, hanswer⟩ := Option.bind_eq_some_iff.mp hsnap
  rw [StatsCall.answer?_eq_some hanswer'] at hcall'
  rw [StatsCall.answer?_eq_some hanswer] at hcall
  obtain ⟨-, -, hbalanced, -, -, hgrown⟩ := stats_snapshots_add_up hu hw hlength.le hcall
  exact ⟨u, w, snap, snap', hu, hw, hcall', hcall, hvalues, hgrown 0 snap' hcall', hbalanced⟩

end CacheLab
