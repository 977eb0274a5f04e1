import Mathlib.Data.List.GetD
import CacheLab.Properties.Capacity
import CacheLab.System.Parts

/-!
# Sharding is a disjoint union

A cache with `n` shards in cache-only mode does what `n` caches with one shard do, in every interleaving of its
calls, with or without workers that sweep.

* The shards share the capacity out evenly (`EvenShares`).
* A call for a key has the result that the cache of its shard gives (`DisjointUnion.keyed`).
* `clear`, `size`, `expire_all` and `dump` have the results of the `n` caches put together in shard order. A
  `dump` with a limit cuts the list after it was put together, so the caches are asked for all they have.
* The counters of `stats` add up (`DisjointUnion.stats`).

The results are compared in every state of a run, so a call is over in the whole cache exactly when it is over in
all caches that it concerns. The simulation is that of `System/Parts.lean`.
-/

set_option linter.unusedSectionVars false

namespace CacheLab

variable {α V T : Type} [DecidableEq α] [LinearOrder T] [Zero T] [Add T] [Sub T]

open Transition (rank)

/-! ### The shares -/

/-- The total is shared out evenly among `n` shards. -/
structure EvenShares (total n : ℕ) (shares : List ℕ) : Prop where
  length_eq : shares.length = n
  pos : ∀ c ∈ shares, 1 ≤ c
  even : ∀ c ∈ shares, ∀ d ∈ shares, c ≤ d + 1
  sum_eq : shares.sum = total

/-- **Each shard gets its share.** -/
theorem evenShares {total n : ℕ} (hn : 1 ≤ n) (h : n ≤ total) : EvenShares total n (shardCapacities total n) := by
  have hlength : (shardCapacities total n).length = n := by simp [shardCapacities]
  have hshare : ∀ c ∈ shardCapacities total n, c = total / n ∨ c = total / n + 1 := by
    intro c hc
    obtain ⟨i, hi, rfl⟩ := List.mem_iff_getElem.mp hc
    have hget := getD_shardCapacities total n ⟨i, hlength ▸ hi⟩
    rw [List.getD_eq_getElem _ _ hi] at hget
    rw [hget]
    split_ifs
    · exact .inr rfl
    · exact .inl rfl
  refine ⟨hlength, fun c hc => ?_, fun c hc d hd => ?_, ?_⟩
  · have hdiv : 0 < total / n := Nat.div_pos h hn
    have := hshare c hc
    omega
  · have := hshare c hc
    have := hshare d hd
    omega
  · have hsum := sum_shardCapacities total hn
    rw [← List.sum_ofFn] at hsum
    have hlist : List.ofFn (fun i : Fin n => (shardCapacities total n).getD i 0) = shardCapacities total n := by
      refine List.ext_getElem (by simp [hlength]) fun i h₁ h₂ => ?_
      rw [List.getElem_ofFn, List.getD_eq_getElem _ _ h₂]
    rw [hlist] at hsum
    exact hsum

/-! ### The beginning -/

variable {cfg : AcceptedConfig T} {hash : Key α → ℕ}

/-- A new shard is the new shard of the cache that has only this one. -/
theorem newShard_single (i : Fin cfg.shardCount) :
    (newShard (cfg.single i) (only cfg i) : CacheShard α V T) = (newShard cfg i).seat 0 .empty := by
  have hcapacity : (shardCapacities ((shardCapacities cfg.capacity cfg.shardCount).getD i 0) 1).getD 0 0 =
      (shardCapacities cfg.capacity cfg.shardCount).getD i 0 := by
    have hone := getD_shardCapacities ((shardCapacities cfg.capacity cfg.shardCount).getD i 0) 1 0
    rw [Nat.div_one, Nat.mod_one] at hone
    exact hone
  show CacheShard.mk .. = CacheShard.mk ..
  congr 1

/-- New caches are side by side. -/
theorem splitAt_initial (cfg : AcceptedConfig T) (hash : Key α → ℕ) (now : T) (src : Source α V) :
    SplitAt hash [] (⟨initial cfg now src, []⟩ : Owned α V cfg) fun i => initial (cfg.single i) now src where
  twin i :=
    { now_eq := rfl
      opened := .inl rfl
      lifecycle_eq := rfl
      flights_length := rfl
      flights_count := rfl
      flights := fun n hn => by cases hn
      registered := fun k n hk => by cases hk
      shard := ⟨.empty, newShard_single i, fun k => rfl⟩ }
  empty i := rfl
  jobs job hjob := by cases hjob
  owners := rfl
  counts i := rfl
  parted t o th ho hth := by cases ho

/-! ### The results -/

/-- The point at which the thread stands in the cache of shard `i`. -/
def partOf (hash : Key α → ℕ) (s : Owned α V cfg) (x : ∀ i, System α V (cfg.single i)) (t : ℕ)
    (i : Fin cfg.shardCount) : Option (Thread α V T) :=
  (x i).threads[rank (concerns hash i) s.owners t]?

/-- The counters that `stats` adds up.
Source: `core/cache.py` `Cache.stats` -/
def statsCounters : List (CacheShard α V T → ℕ) :=
  [fun sh => sh.stats.hits, fun sh => sh.stats.misses, fun sh => sh.stats.puts, fun sh => sh.stats.deletes,
    fun sh => sh.stats.evictions, fun sh => sh.stats.expirations, fun sh => sh.backend.size, fun sh => sh.capacity]

/-- A counter, added up over the shards. -/
def Shared.summed (s : Shared α V cfg) (counter : CacheShard α V T → ℕ) : ℕ := (s.shardList.map counter).sum

/-- The whole cache `s` against the caches `x` of its shards. -/
structure DisjointUnion (hash : Key α → ℕ) (s : Owned α V cfg) (x : ∀ i, System α V (cfg.single i)) : Prop where
  keyed : ∀ t op key r, s.owners[t]? = some (some op) → op.key? = some key →
    (s.system.threads[t]? = some (Thread.finished r) ↔ partOf hash s x t (shardFor cfg hash key) = some (Thread.finished r))
  clear : ∀ t r, s.owners[t]? = some (some .clear) →
    (s.system.threads[t]? = some (Thread.finished r) ↔ (∀ i, partOf hash s x t i = some (Thread.finished .done)) ∧ r = .done)
  size : ∀ t r, s.owners[t]? = some (some .size) →
    (s.system.threads[t]? = some (Thread.finished r) ↔ ∃ sizes : Fin cfg.shardCount → ℕ,
      (∀ i, partOf hash s x t i = some (Thread.finished (.number (sizes i)))) ∧
        r = .number ((List.finRange cfg.shardCount).map sizes).sum)
  expireAll : ∀ t r, s.owners[t]? = some (some .expireAll) →
    (s.system.threads[t]? = some (Thread.finished r) ↔ ∃ removed : Fin cfg.shardCount → ℕ,
      (∀ i, partOf hash s x t i = some (Thread.finished (.number (removed i)))) ∧
        r = .number ((List.finRange cfg.shardCount).map removed).sum)
  dump : ∀ t limit r, s.owners[t]? = some (some (.dump limit)) →
    (s.system.threads[t]? = some (Thread.finished r) ↔ ∃ taken : Fin cfg.shardCount → List (EntrySnapshot α V T),
      (∀ i, partOf hash s x t i = some (Thread.finished (.snapshots (taken i)))) ∧
        r = .snapshots (upTo limit ((List.finRange cfg.shardCount).flatMap taken)))
  stats : ∀ counter ∈ statsCounters, s.system.shared.summed counter =
    ((List.finRange cfg.shardCount).map fun i => (x i).shared.summed counter).sum

section Results

variable {os : List (Fin cfg.shardCount)} {s : Owned α V cfg} {x : ∀ i, System α V (cfg.single i)} {t : ℕ}
  {op : Op α V T} {r : Result α V T}

/-- The thread of a call is there, and so are its parts. -/
theorem SplitAt.exists_parted (h : SplitAt hash os s x) (ho : s.owners[t]? = some (some op)) :
    ∃ th f, s.system.threads[t]? = some th ∧ Parted hash os (some op) th f ∧
      ∀ i, concerns hash i (some op) = true → partOf hash s x t i = some (f i) := by
  have hlt := (List.getElem?_eq_some_iff.mp ho).1
  rw [h.owners] at hlt
  obtain ⟨f, hparted, hshown⟩ := h.parted t _ _ ho (List.getElem?_eq_getElem hlt)
  exact ⟨_, f, List.getElem?_eq_getElem hlt, hparted, hshown⟩

/-- **The result of a call for a key.** -/
theorem SplitAt.keyed_result (h : SplitAt hash os s x) (ho : s.owners[t]? = some (some op)) {key : Key α}
    (hop : op.key? = some key) :
    s.system.threads[t]? = some (Thread.finished r) ↔ partOf hash s x t (shardFor cfg hash key) = some (Thread.finished r) := by
  obtain ⟨th, f, hth, hparted, hshown⟩ := h.exists_parted ho
  have hnone : ∀ {w : Sweep α V T}, sweepOf op ≠ some w := by
    intro w hw
    obtain ⟨hlaw, hwhole⟩ := lawful_sweepOf hash hw
    have hkey := hlaw.whole.key
    rw [hwhole, hop] at hkey
    cases hkey
  cases hparted with
  | @keyed _ key' _ _ hop' hkeyed hf =>
      obtain rfl : key' = key := Option.some.inj (hop'.symm.trans hop)
      rw [hth, hshown _ (by rw [concerns_of_key hop]; exact decide_eq_true rfl), hf, Option.some.injEq,
        Option.some.injEq, Thread.rename_eq_finished]
  | entering hw _ => exact absurd hw hnone
  | running hw _ => exact absurd hw hnone
  | visiting hw _ _ _ _ => exact absurd hw hnone
  | ended hw _ _ => exact absurd hw hnone

/-- **The result of a call that visits all shards.** -/
theorem SplitAt.sweep_result (h : SplitAt hash os s x) (ho : s.owners[t]? = some (some op)) {w : Sweep α V T}
    (hw : sweepOf op = some w) :
    s.system.threads[t]? = some (Thread.finished r) ↔ ∃ answers : Fin cfg.shardCount → w.β,
      (∀ i, partOf hash s x t i = some (Thread.finished (w.part.out (w.add w.zero (answers i))))) ∧
        r = w.whole.out ((List.finRange cfg.shardCount).foldl (fun b i => w.add b (answers i)) w.zero) := by
  obtain ⟨th, f, hth, hparted, hshown⟩ := h.exists_parted ho
  obtain ⟨hlaw, -⟩ := lawful_sweepOf hash hw
  have hat : ∀ i, partOf hash s x t i = some (f i) := fun i => hshown i (concerns_of_sweep hw i)
  let first : Fin cfg.shardCount := ⟨0, cfg.shardCount_pos⟩
  -- as long as the call is not over, it is not over in one of the caches
  have hgoing : ∀ i, (∀ result, th ≠ .finished result) → (∀ result, f i ≠ .finished result) →
      (s.system.threads[t]? = some (Thread.finished r) ↔ ∃ answers : Fin cfg.shardCount → w.β,
        (∀ i, partOf hash s x t i = some (Thread.finished (w.part.out (w.add w.zero (answers i))))) ∧
          r = w.whole.out ((List.finRange cfg.shardCount).foldl (fun b i => w.add b (answers i)) w.zero)) := by
    intro i hnot hnot'
    constructor
    · intro hfin
      rw [hth] at hfin
      exact absurd (Option.some.inj hfin) (hnot r)
    · rintro ⟨answers, hall, -⟩
      have hi := hall i
      rw [hat] at hi
      exact absurd (Option.some.inj hi) (hnot' _)
  cases hparted with
  | keyed hop _ _ =>
      obtain ⟨hlaw', hwhole⟩ := lawful_sweepOf hash hw
      have hkey := hlaw'.whole.key
      rw [hwhole, hop] at hkey
      cases hkey
  | @entering _ w' _ hw' hf =>
      refine hgoing first (fun result hfin => ?_) fun result hfin => ?_
      · cases hfin
      · rw [hf] at hfin
        cases hfin
  | @running _ w' _ hw' hf =>
      refine hgoing first (fun result hfin => ?_) fun result hfin => ?_
      · cases hfin
      · rw [hf] at hfin
        cases hfin
  | @visiting _ w' _ hw' answers j hj hf =>
      obtain rfl : w' = w := Option.some.inj (hw'.symm.trans hw)
      refine hgoing first (hlaw.whole.going _ _) fun result hfin => ?_
      rw [hf] at hfin
      split_ifs at hfin
      · exact hlaw.part.going _ _ _ hfin
      · exact hlaw.part.going _ _ _ hfin
  | @ended _ w' _ hw' answers hf =>
      obtain rfl : w' = w := Option.some.inj (hw'.symm.trans hw)
      rw [hth, Option.some.injEq, Thread.finished.injEq, total_all]
      constructor
      · rintro rfl
        exact ⟨answers, fun i => by rw [hat, hf], rfl⟩
      · rintro ⟨answers', hall, rfl⟩
        obtain rfl : answers = answers' := by
          funext i
          have hi := hall i
          rw [hat, hf, Option.some.injEq, Thread.finished.injEq] at hi
          exact hlaw.answer _ _ hi
        rfl

/-- **Caches that are side by side** are a disjoint union. -/
theorem SplitAt.disjointUnion (h : SplitAt hash os s x) : DisjointUnion hash s x where
  keyed t op key r ho hop := h.keyed_result ho hop
  clear t r ho := by
    rw [h.sweep_result ho (w := clearSweep α V T) rfl]
    exact ⟨fun ⟨_, hall, hr⟩ => ⟨hall, hr⟩, fun ⟨hall, hr⟩ => ⟨fun _ => (), hall, hr⟩⟩
  size t r ho := by
    rw [h.sweep_result ho (w := sizeSweep α V T) rfl]
    refine exists_congr fun (sizes : Fin cfg.shardCount → ℕ) => ?_
    simp only [sizeSweep, Nat.zero_add, foldl_add]
  expireAll t r ho := by
    rw [h.sweep_result ho (w := expireSweep α V T) rfl]
    refine exists_congr fun (removed : Fin cfg.shardCount → ℕ) => ?_
    simp only [expireSweep, Nat.zero_add, foldl_add]
  dump t limit r ho := by
    rw [h.sweep_result ho (w := dumpSweep α V limit) rfl]
    refine exists_congr fun (taken : Fin cfg.shardCount → List (EntrySnapshot α V T)) => ?_
    simp only [dumpSweep, List.nil_append, foldl_append]
  stats counter hcounter := by
    have hpart : ∀ i, (x i).shared.summed counter = counter (s.system.shared.shards i) := by
      intro i
      obtain ⟨d, hd, -⟩ := (h.twin i).shard
      have hseat : ∀ sh : CacheShard α V T, counter (sh.seat 0 d) = counter sh := by
        intro sh
        simp only [statsCounters, List.mem_cons, List.not_mem_nil, or_false] at hcounter
        rcases hcounter with rfl | rfl | rfl | rfl | rfl | rfl | rfl | rfl <;> rfl
      have hlist : (x i).shared.shardList = [(x i).shared.shards (only cfg i)] := rfl
      rw [Shared.summed, hlist, List.map_singleton, List.sum_singleton, hd, hseat]
    rw [Shared.summed, Shared.shardList, List.map_map]
    exact congrArg List.sum (List.map_congr_left fun i _ => (hpart i).symm)

end Results

/-- **Sharding is a disjoint union.** The capacity is shared out evenly. And in cache-only mode, take any run of
calls for keys and of calls that visit all shards, with workers that sweep or without. Then each cache with one
shard can take its part of the run, and after it all results are those of these caches. -/
theorem sharding_is_disjoint_union (hash : Key α → ℕ) :
    (∀ total n : ℕ, 1 ≤ n → n ≤ total → EvenShares total n (shardCapacities total n)) ∧
    ∀ (cfg : AcceptedConfig T) (now : T) (src : Source α V) (ls : List (Label α V T)) (s : System α V cfg),
      cfg.writeMode = .cacheOnly → (∀ l ∈ ls, l.splits = true) →
      exec cfg hash (initial cfg now src) ls = some s →
      ∃ owners x, Transition.run (ownedStep cfg hash) ⟨initial cfg now src, []⟩ ls = some ⟨s, owners⟩ ∧
        (∀ i, exec (cfg.single i) hash (initial (cfg.single i) now src) (subRun cfg hash i (initial cfg now src) ls) =
          some (x i)) ∧
        DisjointUnion hash ⟨s, owners⟩ x := by
  refine ⟨fun total n hn h => evenShares hn h, fun cfg now src ls s hmode hls hrun => ?_⟩
  obtain ⟨owners, howned⟩ := exists_owned (s := ⟨initial cfg now src, []⟩) hrun
  have hbegin : SideBySide hash (⟨initial cfg now src, []⟩ : Owned α V cfg) fun i => initial (cfg.single i) now src :=
    ⟨[], splitAt_initial cfg hash now src⟩
  obtain ⟨x, hx, os, hsplit⟩ := hbegin.steps hmode hls howned
  exact ⟨owners, x, howned, hx, hsplit.disjointUnion⟩

/-- A cache with two shards and a worker. -/
def twoShards : AcceptedConfig ℕ :=
  ⟨{ capacity := 3, shardCount := 2, workerCount := 1, queueSize := 4, schedulerInterval := 1, queuePutTimeout := 1 }, rfl⟩

/-- A key is put into each shard, and one of them expires. The worker sweeps its shard while `size` is between the
two shards. -/
def sweptWhileCounted : List (Label ℕ ℕ ℕ) :=
  [.start, .call (.put (some 1) 10 (.seconds 1)), .run 1 {}, .run 1 {}, .call (.put (some 2) 20 .unset), .run 2 {},
    .run 2 {}, .tick 2, .schedule 1, .call .size, .run 3 {}, .run 3 {}, .run 3 {}, .run 0 {}, .run 0 {}, .run 3 {},
    .run 3 {}, .run 0 {}, .call (.dump (some 1)), .run 4 {}, .run 4 {}, .run 4 {}, .run 4 {}, .run 4 {}]

/-- Only the entry that was not swept is counted, and the two caches with one shard agree. -/
theorem sharding_is_disjoint_union_sweptWhileCounted : ∃ (s : System ℕ ℕ twoShards)
    (owners : List (Option (Op ℕ ℕ ℕ))) (x : ∀ i, System ℕ ℕ (twoShards.single i)),
    exec twoShards (fun k => k.getD 0) (initial twoShards 0 .empty) sweptWhileCounted = some s ∧
      s.threads[3]? = some (Thread.finished (.number 1)) ∧
      (∀ i, exec (twoShards.single i) (fun k => k.getD 0) (initial (twoShards.single i) 0 .empty)
        (subRun twoShards (fun k => k.getD 0) i (initial twoShards 0 .empty) sweptWhileCounted) = some (x i)) ∧
      DisjointUnion (fun k => k.getD 0) ⟨s, owners⟩ x := by
  have heval : ((exec twoShards (fun k => k.getD 0) (initial twoShards 0 .empty) sweptWhileCounted).map
      fun s : System ℕ ℕ twoShards => decide (s.threads[3]? = some (Thread.finished (.number 1)))) = some true := by
    decide +kernel
  obtain ⟨s, hs, hcounted⟩ := Option.map_eq_some_iff.mp heval
  obtain ⟨owners, x, -, hx, hunion⟩ := (sharding_is_disjoint_union fun k => k.getD 0).2 twoShards 0 .empty
    sweptWhileCounted s rfl (by decide) hs
  exact ⟨s, owners, x, hs, of_decide_eq_true hcounted, hx, hunion⟩

end CacheLab
