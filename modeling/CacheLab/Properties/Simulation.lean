import Mathlib.Algebra.BigOperators.Fin
import CacheLab.Core.Timeless
import CacheLab.System.Base
import CacheLab.Workloads.Simulation

/-!
# The counts of a simulation

* Every request is a hit, a miss or a write, whatever the pattern and the number of shards
  (`Counted`, `counted_request`).
* The looping pattern runs through a working set that fits: its keys are stored in the first round and never
  evicted (`Looped`).
* The sequential pattern never comes back to a key: every request is a miss, and an eviction from the moment the
  cache is full on (`Scanned`).

The last two hold for all policies, because neither depends on which key is the victim
(`Core/Timeless.lean`). Each of the three is an invariant of the loop over the stream (`simulateAll_invariant`).
-/

set_option linter.unusedSectionVars false

namespace CacheLab

variable {cfg : AcceptedConfig ℚ} {hash : Key String → ℕ}

open CacheShard

/-! ### Keys -/

/-- Different numbers have different keys. -/
theorem rawKey_injective {i j : ℕ} (h : rawKey i = rawKey j) : i = j := by
  have hlist := congrArg String.toList h
  rw [rawKey, rawKey, String.toList_append, String.toList_append] at hlist
  have hdigits : Nat.toDigits 10 i = Nat.toDigits 10 j := by
    have hrepr : (Nat.repr i).toList = (Nat.repr j).toList := List.append_cancel_left hlist
    rwa [Nat.toList_repr, Nat.toList_repr] at hrepr
  have hback := congrArg (fun digits => Nat.ofDigitChars 10 digits 0) hdigits
  simpa only [Nat.ofDigitChars_ten_toDigits] using hback

/-- The key of a number does not ask for a write. -/
theorem writeKey?_rawKey (i : ℕ) : writeKey? (rawKey i) = none := by
  have hfirst : "write:".toList.isPrefixOf (rawKey i).toList = false := by
    rw [rawKey, String.toList_append]
    rfl
  rw [writeKey?, hfirst]
  rfl

/-- The loop is not empty and fits the capacity. -/
theorem workingSet_spec {c : ℕ} (hc : 1 ≤ c) : 0 < workingSet c ∧ workingSet c ≤ c := by
  unfold workingSet
  omega

/-! ### The loop -/

/-- **The loop rule**: what each round preserves for the key it is sent, the loop over a stream preserves. -/
theorem simulateAll_invariant {clock : ℕ → ℚ × ℚ} (Inv : ℕ → Shared String String cfg × ℕ → Prop)
    (stream : List String) {index : ℕ} {x : Shared String String cfg × ℕ} (hinv : Inv index x)
    (hstep : ∀ m raw y, stream[m]? = some raw → Inv (index + m) y →
      ∃ z, simulateRequest hash (clock (index + m)) (index + m) raw y = some z ∧ Inv (index + m + 1) z) :
    ∃ z, simulateAll hash clock index stream x = some z ∧ Inv (index + stream.length) z := by
  induction stream generalizing index x with
  | nil => exact ⟨x, rfl, hinv⟩
  | cons raw stream ih =>
      obtain ⟨y, hround, hy⟩ := hstep 0 raw x rfl hinv
      obtain ⟨z, hrest, hz⟩ := ih hy fun m raw' y' hm hy' => by
        have hlater := hstep (m + 1) raw' y' hm
        rw [show index + (m + 1) = index + 0 + 1 + m by omega] at hlater
        exact hlater hy'
      refine ⟨z, ?_, ?_⟩
      · have hfirst : simulateRequest hash (clock index) index raw x = some y := hround
        rw [simulateAll, hfirst]
        exact hrest
      · rw [List.length_cons]
        rw [show index + (stream.length + 1) = index + 0 + 1 + stream.length by omega]
        exact hz

/-! ### One round -/

section Round

variable {s : Shared String String cfg} {times : ℚ × ℚ} {index writes : ℕ} {raw : String}

/-- A put in cache-only mode. -/
theorem putAt_eq (hmode : cfg.writeMode = .cacheOnly) (hopen : s.Open) (time : ℚ) (key value : String) :
    putAt hash time s key value = some (({ s with now := time }).putSection hash (some key) value .unset true).1 := by
  have hopen' : Shared.Open { s with now := time } := hopen
  rw [putAt, call_put hmode hopen' (some key) value rfl]

/-- A request for a write. -/
theorem simulateRequest_write (hmode : cfg.writeMode = .cacheOnly) (hopen : s.Open) {key : String}
    (hraw : writeKey? raw = some key) :
    simulateRequest hash times index raw (s, writes) =
      some ((({ s with now := times.1 }).putSection hash (some key) ("value-" ++ toString index) .unset true).1,
        writes + 1) := by
  rw [simulateRequest, hraw]
  simp only
  rw [putAt_eq hmode hopen]
  rfl

/-- The state after a read. -/
def Shared.readAt (hash : Key String → ℕ) (s : Shared String String cfg) (time : ℚ) (raw : String) :
    Shared String String cfg :=
  { s with now := time }.setShard (shardFor cfg hash (some raw))
    ((s.home hash (some raw)).readValueLocked (some raw) true true time).2

/-- A request for a key, in the two ways its read can end. -/
theorem simulateRequest_read (hmode : cfg.writeMode = .cacheOnly) (hopen : s.Open) (hraw : writeKey? raw = none) :
    simulateRequest hash times index raw (s, writes) =
      some (if ((s.home hash (some raw)).readValueLocked (some raw) true true times.1).1.isSome then
          s.readAt hash times.1 raw
        else (({ s.readAt hash times.1 raw with now := times.2 }).putSection hash (some raw) ("value-" ++ raw)
          .unset true).1, writes) := by
  have hopen' : Shared.Open { s with now := times.1 } := hopen
  rw [simulateRequest, hraw]
  simp only
  rw [call_get hopen' (some raw)]
  have hhome : Shared.home hash { s with now := times.1 } (some raw) = s.home hash (some raw) := rfl
  rw [hhome]
  cases hread : ((s.home hash (some raw)).readValueLocked (some raw) true true times.1).1 with
  | some v => rfl
  | none =>
      have hopen'' : (s.readAt hash times.1 raw).Open := hopen
      have hput : putAt hash times.2 (s.readAt hash times.1 raw) raw ("value-" ++ raw) = _ :=
        putAt_eq hmode hopen'' times.2 raw ("value-" ++ raw)
      simp only [Option.isSome_none, Bool.false_eq_true, ↓reduceIte]
      show (putAt hash times.2 (s.readAt hash times.1 raw) raw ("value-" ++ raw)).map _ = _
      rw [hput]
      rfl

end Round

/-! ### Hits, misses and writes -/

section Counts

variable {s s' : Shared String String cfg}

/-- The reads that the shards counted. -/
def Shared.reads (s : Shared String String cfg) : ℕ := s.counter MutableStats.hits + s.counter MutableStats.misses

theorem Shared.reads_eq (s : Shared String String cfg) : s.reads = ∑ i, (s.shards i).ledger.2.1 := by
  rw [Shared.reads, Shared.counter, Shared.counter, ← List.sum_map_add, Shared.shardList, List.map_map,
    Fin.sum_univ_def]
  rfl

/-- A section on one shard adds to the reads what it adds to those of the shard. -/
theorem Shared.reads_update {i : Fin cfg.shardCount} {sh' : CacheShard String String ℚ} {n : ℕ}
    (hshards : s'.shards = Function.update s.shards i sh')
    (hledger : sh'.ledger.2.1 = (s.shards i).ledger.2.1 + n) : s'.reads = s.reads + n := by
  have hothers : ∀ j ∈ Finset.univ.erase i, (s'.shards j).ledger.2.1 = (s.shards j).ledger.2.1 := by
    intro j hj
    rw [hshards, Function.update_of_ne (Finset.ne_of_mem_erase hj)]
  rw [Shared.reads_eq, Shared.reads_eq, ← Finset.add_sum_erase _ _ (Finset.mem_univ i),
    ← Finset.add_sum_erase _ _ (Finset.mem_univ i), Finset.sum_congr rfl hothers, hshards, Function.update_self,
    hledger]
  omega

/-- A put is no read. -/
theorem Shared.reads_putSection (hmode : cfg.writeMode = .cacheOnly) (s : Shared String String cfg)
    (key : Key String) (value : String) : (s.putSection hash key value .unset true).1.reads = s.reads := by
  have hraised : ((s.shards (shardFor cfg hash key)).putLocked cfg.toCacheConfig s.source key value .unset s.now
      true).raised = false := by simp [putLocked, hmode]
  refine Shared.reads_update (n := 0) (i := shardFor cfg hash key) rfl ?_
  rw [ledger_putLocked _ _ _ _ _ hraised]
  rfl

/-- A read is one. -/
theorem Shared.reads_readAt (s : Shared String String cfg) (time : ℚ) (raw : String) :
    (s.readAt hash time raw).reads = s.reads + 1 := by
  refine Shared.reads_update (n := 1) (i := shardFor cfg hash (some raw)) rfl ?_
  rw [ledger_readValueLocked]
  rfl

/-- Every request so far was a hit, a miss or a write. -/
def Counted (index : ℕ) (x : Shared String String cfg × ℕ) : Prop := x.1.Open ∧ x.1.reads + x.2 = index

/-- **Every request is counted once.** -/
theorem counted_request (hmode : cfg.writeMode = .cacheOnly) {times : ℚ × ℚ} {index : ℕ} {raw : String}
    {x : Shared String String cfg × ℕ} (h : Counted index x) :
    ∃ z, simulateRequest hash times index raw x = some z ∧ Counted (index + 1) z := by
  obtain ⟨s, writes⟩ := x
  obtain ⟨hopen, hcount⟩ := h
  cases hraw : writeKey? raw with
  | some key =>
      refine ⟨_, simulateRequest_write hmode hopen hraw, hopen, ?_⟩
      show (Shared.putSection hash _ _ _ _ _).1.reads + (writes + 1) = index + 1
      rw [Shared.reads_putSection hmode, ← hcount]
      rfl
  | none =>
      refine ⟨_, simulateRequest_read hmode hopen hraw, ?_⟩
      have hread : (s.readAt hash times.1 raw).reads + writes = index + 1 := by
        rw [Shared.reads_readAt, ← hcount]
        show s.reads + 1 + writes = s.reads + writes + 1
        omega
      split_ifs with hhit
      · exact ⟨hopen, hread⟩
      · refine ⟨hopen, ?_⟩
        show (Shared.putSection hash _ _ _ _ _).1.reads + writes = index + 1
        rw [Shared.reads_putSection hmode]
        exact hread

end Counts

/-! ### One shard -/

section OneShard

variable {s : Shared String String cfg} {times : ℚ × ℚ} {index writes : ℕ} {raw : String} {i : Fin cfg.shardCount}

/-- With one shard every key is at home in it. -/
theorem shardFor_of_one (hash : Key String → ℕ) (hone : cfg.shardCount = 1) (i : Fin cfg.shardCount)
    (key : Key String) : shardFor cfg hash key = i :=
  Fin.ext (by have := (shardFor cfg hash key).isLt; have := i.isLt; omega)

/-- A request for a key that is stored is a read. -/
theorem request_hit (hmode : cfg.writeMode = .cacheOnly) (hone : cfg.shardCount = 1) (hopen : s.Open)
    (hraw : writeKey? raw = none) (h : (s.shards i).Timeless) (hkey : some raw ∈ (s.shards i).backend.keys) :
    ∃ s', simulateRequest hash times index raw (s, writes) = some (s', writes) ∧ s'.Open ∧
      s'.shards i = ((s.shards i).readValueLocked (some raw) true true times.1).2 := by
  have hhome := shardFor_of_one hash hone i (some raw)
  refine ⟨s.readAt hash times.1 raw, ?_, hopen, ?_⟩
  · rw [simulateRequest_read hmode hopen hraw, Shared.home, hhome, if_pos (h.read_hit hkey true times.1).1]
  · rw [Shared.readAt, Shared.home, hhome]
    exact Function.update_self ..

/-- A request for a key that is not stored is a counted miss and a put. -/
theorem request_miss (hmode : cfg.writeMode = .cacheOnly) (hone : cfg.shardCount = 1) (hopen : s.Open)
    (hraw : writeKey? raw = none) (h : (s.shards i).Agrees) (hkey : some raw ∉ (s.shards i).backend.keys) :
    ∃ s', simulateRequest hash times index raw (s, writes) = some (s', writes) ∧ s'.Open ∧
      s'.shards i = (s.shards i).missed.fitted cfg.toCacheConfig (some raw) ("value-" ++ raw) .unset times.2 := by
  have hhome := shardFor_of_one hash hone i (some raw)
  have hmiss := read_miss hkey true times.1
  have hread : (s.readAt hash times.1 raw).shards i = (s.shards i).missed := by
    rw [Shared.readAt, Shared.home, hhome, hmiss]
    exact Function.update_self ..
  have hagrees : ((s.readAt hash times.1 raw).shards i).Agrees := by
    rw [hread]
    exact h.congr rfl fun _ => Iff.rfl
  refine ⟨(({ s.readAt hash times.1 raw with now := times.2 }).putSection hash (some raw) ("value-" ++ raw)
    .unset true).1, ?_, hopen, ?_⟩
  · rw [simulateRequest_read hmode hopen hraw, Shared.home, hhome, hmiss]
    rfl
  · have hshards : ((({ s.readAt hash times.1 raw with now := times.2 }).putSection hash (some raw)
        ("value-" ++ raw) .unset true).1.shards i) = (((s.readAt hash times.1 raw).shards i).putLocked
          cfg.toCacheConfig s.source (some raw) ("value-" ++ raw) .unset times.2 true).shard := by
      rw [← hhome]
      exact Function.update_self ..
    rw [hshards, hagrees.putLocked_of_cacheOnly hmode, hread]

end OneShard

/-! ### The looping pattern -/

/-- The state of the only shard after some requests of the loop over `w` keys. -/
structure Looped (w c index : ℕ) (sh : CacheShard String String ℚ) : Prop where
  timeless : sh.Timeless
  capacity_eq : sh.capacity = c
  keys : ∀ k, k ∈ sh.backend.keys ↔ ∃ j < min index w, k = some (rawKey j)
  size_eq : sh.backend.size = min index w
  misses_eq : sh.stats.misses = min index w
  hits_eq : sh.stats.hits = index - min index w
  evictions_eq : sh.stats.evictions = 0

/-- The state of the only shard after some requests of the scan. -/
structure Scanned (c index : ℕ) (sh : CacheShard String String ℚ) : Prop where
  timeless : sh.Timeless
  capacity_eq : sh.capacity = c
  keys : ∀ k ∈ sh.backend.keys, ∃ j < index, k = some (rawKey j)
  size_eq : sh.backend.size = min index c
  misses_eq : sh.stats.misses = index
  hits_eq : sh.stats.hits = 0
  evictions_eq : sh.stats.evictions = index - c

section Patterns

variable {sh : CacheShard String String ℚ} {config : CacheConfig ℚ} {w c index : ℕ} (value : String) (now : ℚ)

/-- In the first round the next key is not stored yet. -/
theorem Looped.new (h : Looped w c index sh) (hlt : index < w) : some (rawKey index) ∉ sh.backend.keys := by
  intro hmem
  obtain ⟨j, hj, heq⟩ := (h.keys _).mp hmem
  have hsame := rawKey_injective (Option.some.inj heq)
  omega

/-- The first round stores the keys. -/
theorem Looped.store (h : Looped w c index sh) (hdefault : config.defaultTtl = none) (hw : w ≤ c) (hlt : index < w) :
    Looped w c (index + 1) (sh.missed.fitted config (some (rawKey index)) value .unset now) := by
  have hdef : ∀ t, config.defaultTtl = some t → t ≤ 0 := by simp [hdefault]
  have httl : ∀ t : ℚ, (Ttl.unset : Ttl ℚ) ≠ .seconds t := by simp
  have hwith : sh.sizeWith (some (rawKey index)) = index + 1 := by
    rw [sizeWith, if_neg (h.new hlt), h.size_eq]
    omega
  have hroom : sh.sizeWith (some (rawKey index)) ≤ sh.capacity := by
    rw [hwith, h.capacity_eq]
    omega
  have hstats := h.timeless.missed.stats_fitted (rawKey index) value now hdef httl
  have hsize := h.timeless.missed.size_fitted (rawKey index) value now hdef httl
  have hmem := fun k => h.timeless.missed.mem_keys_fitted (rawKey index) value now hdef httl (k := k)
  refine ⟨h.timeless.missed.fitted (rawKey index) value now hdef httl, ?_, fun k => ?_, ?_, ?_, ?_, ?_⟩
  · rw [fitted_capacity]
    exact h.capacity_eq
  · have hkeys : k ∈ (sh.missed.fitted config (some (rawKey index)) value .unset now).backend.keys ↔
          k = some (rawKey index) ∨ k ∈ sh.backend.keys := ⟨(hmem k).1, (hmem k).2 hroom⟩
    rw [hkeys, h.keys]
    constructor
    · rintro (rfl | ⟨j, hj, rfl⟩)
      · exact ⟨index, by omega, rfl⟩
      · exact ⟨j, by omega, rfl⟩
    · rintro ⟨j, hj, rfl⟩
      rcases Nat.lt_or_ge j (min index w) with hlt' | hge
      · exact .inr ⟨j, hlt', rfl⟩
      · exact .inl (by rw [show j = index by omega])
  · rw [hsize]
    show min (sh.sizeWith (some (rawKey index))) sh.capacity = _
    rw [hwith, h.capacity_eq]
    omega
  · rw [hstats]
    show sh.stats.misses + 1 = _
    rw [h.misses_eq]
    omega
  · rw [hstats]
    show sh.stats.hits = _
    rw [h.hits_eq]
    omega
  · rw [hstats]
    show sh.stats.evictions + (sh.sizeWith (some (rawKey index)) - sh.capacity) = 0
    rw [h.evictions_eq]
    omega

/-- The later rounds hit them. -/
theorem Looped.hit (h : Looped w c index sh) {key : Key String} (hkey : key ∈ sh.backend.keys) (hge : w ≤ index) :
    Looped w c (index + 1) (sh.readValueLocked key true true now).2 := by
  obtain ⟨-, hkeys, hstats⟩ := h.timeless.read_hit hkey true now
  refine ⟨h.timeless.read key true true now, ?_, fun k => ?_, ?_, ?_, ?_, ?_⟩
  · exact (tended_readValueLocked sh key true true now).capacity_eq.trans h.capacity_eq
  · rw [hkeys, h.keys, Nat.min_eq_right hge, Nat.min_eq_right (Nat.le_succ_of_le hge)]
  · rw [InMemoryBackend.size_eq_length_keys, hkeys, ← InMemoryBackend.size_eq_length_keys, h.size_eq]
    omega
  · rw [hstats]
    show sh.stats.misses = _
    rw [h.misses_eq]
    omega
  · rw [hstats]
    show sh.stats.hits + 1 = _
    rw [h.hits_eq]
    omega
  · rw [hstats]
    exact h.evictions_eq

/-- The next key of the scan was never stored. -/
theorem Scanned.new (h : Scanned c index sh) : some (rawKey index) ∉ sh.backend.keys := by
  intro hmem
  obtain ⟨j, hj, heq⟩ := h.keys _ hmem
  have hsame := rawKey_injective (Option.some.inj heq)
  omega

/-- Every request of the scan is a miss and a put. -/
theorem Scanned.store (h : Scanned c index sh) (hdefault : config.defaultTtl = none) :
    Scanned c (index + 1) (sh.missed.fitted config (some (rawKey index)) value .unset now) := by
  have hdef : ∀ t, config.defaultTtl = some t → t ≤ 0 := by simp [hdefault]
  have httl : ∀ t : ℚ, (Ttl.unset : Ttl ℚ) ≠ .seconds t := by simp
  have hwith : sh.sizeWith (some (rawKey index)) = min index c + 1 := by
    rw [sizeWith, if_neg h.new, h.size_eq]
  have hstats := h.timeless.missed.stats_fitted (rawKey index) value now hdef httl
  have hsize := h.timeless.missed.size_fitted (rawKey index) value now hdef httl
  refine ⟨h.timeless.missed.fitted (rawKey index) value now hdef httl, ?_, fun k hk => ?_, ?_, ?_, ?_, ?_⟩
  · rw [fitted_capacity]
    exact h.capacity_eq
  · rcases (h.timeless.missed.mem_keys_fitted (rawKey index) value now hdef httl).1 hk with rfl | hold
    · exact ⟨index, Nat.lt_succ_self index, rfl⟩
    · obtain ⟨j, hj, rfl⟩ := h.keys k hold
      exact ⟨j, Nat.lt_succ_of_lt hj, rfl⟩
  · rw [hsize]
    show min (sh.sizeWith (some (rawKey index))) sh.capacity = _
    rw [hwith, h.capacity_eq]
    omega
  · rw [hstats]
    show sh.stats.misses + 1 = _
    rw [h.misses_eq]
  · rw [hstats]
    exact h.hits_eq
  · rw [hstats]
    show sh.stats.evictions + (sh.sizeWith (some (rawKey index)) - sh.capacity) = _
    rw [h.evictions_eq, hwith, h.capacity_eq]
    omega

end Patterns

/-- With one shard the counters are those of the shard. -/
theorem Shared.counter_of_one (s : Shared String String cfg) (hone : cfg.shardCount = 1) (i : Fin cfg.shardCount)
    (f : CacheShard String String ℚ → ℕ) : (s.shardList.map f).sum = f (s.shards i) := by
  have hsub : Subsingleton (Fin cfg.shardCount) := ⟨fun a b => Fin.ext (by omega)⟩
  rw [Shared.shardList, List.map_map, ← Fin.sum_univ_def, Fintype.sum_subsingleton _ i]
  rfl

/-! ### Runs -/

section Runs

variable {G : Type} (rng : Rng G) (clock : ℕ → ℚ × ℚ) (seed : G) (requests capacity : ℕ)

theorem length_drawKeys (draw : ℕ → G → String × G) (n index : ℕ) (g : G) :
    (drawKeys draw n index g).length = n := by
  induction n generalizing index g with
  | zero => rfl
  | succ n ih => rw [drawKeys, List.length_cons, ih]

/-- Every pattern makes as many requests as it is asked for. -/
theorem length_keyStream (kind : Pattern) : (keyStream rng seed requests capacity kind).length = requests := by
  cases kind with
  | uniform => exact length_drawKeys _ _ _ _
  | hotspot => exact length_drawKeys _ _ _ _
  | mixed => exact length_drawKeys _ _ _ _
  | sequential => simp [keyStream]
  | looping => simp [keyStream]

/-- A configuration with as many shards as fit is accepted. -/
theorem accepted_simulationConfig (policy : PolicyName) {shards : ℕ} (hshards : 1 ≤ shards)
    (hfits : shards ≤ capacity) :
    (simulationConfig policy capacity shards).postInit = .ok () := by
  have hcapacity : ¬ capacity < 1 := by omega
  have hpos : ¬ shards ≤ 0 := by omega
  have hle : ¬ capacity < shards := by omega
  have hinterval : ¬ (1 : ℚ) ≤ 0 := by norm_num
  have hnonneg : ¬ (1 : ℚ) < 0 := by norm_num
  simp [CacheConfig.postInit, simulationConfig, hcapacity, hpos, hle, hinterval, hnonneg]

variable {capacity}

/-- What a simulation reports that runs to its end. -/
theorem runSimulation_eq (hash : Key String → ℕ) {policy : PolicyName} {pattern : String} {kind : Pattern}
    {shards : ℕ} (haccepted : (simulationConfig policy capacity shards).postInit = .ok ())
    (hkind : Pattern.ofName pattern = .ok kind)
    {s : Shared String String ⟨simulationConfig policy capacity shards, haccepted⟩} {writes : ℕ}
    (hrun : simulateAll hash clock 0 (keyStream rng seed requests capacity kind)
      ((initial ⟨simulationConfig policy capacity shards, haccepted⟩ 0 .empty).shared, 0) = some (s, writes)) :
    runSimulation rng hash clock policy pattern capacity requests seed shards =
      .ok ⟨policy, pattern, requests, writes, s.counter MutableStats.hits, s.counter MutableStats.misses,
        s.counter MutableStats.evictions, s.counter MutableStats.expirations, s.total⟩ := by
  unfold runSimulation
  split
  · next text herror =>
      rw [haccepted] at herror
      cases herror
  · simp only [hkind]
    split
    · next hnone =>
        rw [hrun] at hnone
        cases hnone
    · next s' writes' hsome =>
        rw [hrun] at hsome
        cases hsome
        rfl

/-- A fresh cache has counted nothing. -/
theorem counted_initial (cfg : AcceptedConfig ℚ) : Counted 0 ((initial cfg 0 .empty).shared, 0) := by
  refine ⟨.inl rfl, ?_⟩
  show Shared.reads _ + 0 = 0
  rw [Shared.reads_eq, add_zero]
  exact Finset.sum_eq_zero fun _ _ => rfl

/-- The shard of a fresh cache with one shard. -/
theorem timeless_newShard (cfg : AcceptedConfig ℚ) (i : Fin cfg.shardCount) :
    (newShard cfg i : CacheShard String String ℚ).Timeless :=
  ⟨(ShardOk.newShard cfg (fun _ => 0) i).agrees, by simp [timed, newShard], by simp [newShard]⟩

/-- The only shard of a fresh cache has all of the capacity. -/
theorem capacity_newShard_of_one (hone : cfg.shardCount = 1) (i : Fin cfg.shardCount) :
    (newShard cfg i : CacheShard String String ℚ).capacity = cfg.capacity := by
  show (shardCapacities cfg.capacity cfg.shardCount).getD i 0 = cfg.capacity
  rw [getD_shardCapacities]
  simp [hone, Nat.mod_one]

variable (cfg) in
/-- The cache is open, nothing was written, and the only shard is in a state. -/
def OneShardAt (P : ℕ → CacheShard String String ℚ → Prop) (i : Fin cfg.shardCount) (index : ℕ)
    (x : Shared String String cfg × ℕ) : Prop := x.1.Open ∧ x.2 = 0 ∧ P index (x.1.shards i)

/-- One request of the loop over the working set. -/
theorem looped_request (hmode : cfg.writeMode = .cacheOnly) (hdefault : cfg.defaultTtl = none)
    (hone : cfg.shardCount = 1) {i : Fin cfg.shardCount} {w c m : ℕ} {times : ℚ × ℚ}
    {x : Shared String String cfg × ℕ} (hpos : 0 < w) (hfits : w ≤ c) (h : OneShardAt cfg (Looped w c) i m x) :
    ∃ z, simulateRequest hash times m (rawKey (m % w)) x = some z ∧ OneShardAt cfg (Looped w c) i (m + 1) z := by
  obtain ⟨s, writes⟩ := x
  obtain ⟨hopen, hwrites, h⟩ := h
  obtain rfl : writes = 0 := hwrites
  rcases Nat.lt_or_ge m w with hlt | hge
  · rw [Nat.mod_eq_of_lt hlt]
    obtain ⟨s', hround, hopen', hshard⟩ := request_miss hmode hone hopen (writeKey?_rawKey m) h.timeless.agrees
      (h.new hlt)
    refine ⟨(s', 0), hround, hopen', rfl, ?_⟩
    rw [hshard]
    exact h.store _ _ hdefault hfits hlt
  · have hkey : some (rawKey (m % w)) ∈ (s.shards i).backend.keys := by
      have hmod := Nat.mod_lt m hpos
      exact (h.keys _).mpr ⟨_, by omega, rfl⟩
    obtain ⟨s', hround, hopen', hshard⟩ := request_hit hmode hone hopen (writeKey?_rawKey _) h.timeless hkey
    refine ⟨(s', 0), hround, hopen', rfl, ?_⟩
    rw [hshard]
    exact h.hit _ hkey hge

/-- One request of the scan. -/
theorem scanned_request (hmode : cfg.writeMode = .cacheOnly) (hdefault : cfg.defaultTtl = none)
    (hone : cfg.shardCount = 1) {i : Fin cfg.shardCount} {c m : ℕ} {times : ℚ × ℚ}
    {x : Shared String String cfg × ℕ} (h : OneShardAt cfg (Scanned c) i m x) :
    ∃ z, simulateRequest hash times m (rawKey m) x = some z ∧ OneShardAt cfg (Scanned c) i (m + 1) z := by
  obtain ⟨s, writes⟩ := x
  obtain ⟨hopen, hwrites, h⟩ := h
  obtain rfl : writes = 0 := hwrites
  obtain ⟨s', hround, hopen', hshard⟩ := request_miss hmode hone hopen (writeKey?_rawKey m) h.timeless.agrees
    h.new
  refine ⟨(s', 0), hround, hopen', rfl, ?_⟩
  rw [hshard]
  exact h.store _ _ hdefault

/-- A run of a pattern that reads one key after another on one shard. -/
theorem run_of_request (hash : Key String → ℕ) {P : ℕ → CacheShard String String ℚ → Prop} {i : Fin cfg.shardCount}
    (key : ℕ → String) (hstart : P 0 (newShard cfg i))
    (hrequest : ∀ m times x, OneShardAt cfg P i m x →
      ∃ z, simulateRequest hash times m (key m) x = some z ∧ OneShardAt cfg P i (m + 1) z) :
    ∃ s, simulateAll hash clock 0 ((List.range requests).map key) ((initial cfg 0 .empty).shared, 0) = some (s, 0) ∧
      P requests (s.shards i) := by
  have hinv : OneShardAt cfg P i 0 ((initial cfg 0 .empty).shared, 0) := ⟨.inl rfl, rfl, hstart⟩
  obtain ⟨⟨s, writes⟩, hrun, -, hwrites, hend⟩ := simulateAll_invariant (OneShardAt cfg P i)
    ((List.range requests).map key) hinv fun m raw y hraw hy => by
      rw [Nat.zero_add] at hy ⊢
      obtain rfl : key m = raw := by
        rw [List.getElem?_map, Option.map_eq_some_iff] at hraw
        obtain ⟨j, hj, rfl⟩ := hraw
        obtain ⟨hlt, hj⟩ := List.getElem?_eq_some_iff.mp hj
        rw [List.getElem_range] at hj
        rw [hj]
      exact hrequest m _ y hy
  obtain rfl : writes = 0 := hwrites
  rw [Nat.zero_add, List.length_map, List.length_range] at hend
  exact ⟨s, hrun, hend⟩

end Runs

/-- **The counts of a simulation.** On one shard the looping pattern misses each key of its working set once and
evicts nothing, and the sequential pattern misses every time and evicts what does not fit; on any number of shards
every request is a hit, a miss or a write. -/
theorem simulation_counts {G : Type} (rng : Rng G) (hash : Key String → ℕ) (clock : ℕ → ℚ × ℚ) (policy : PolicyName)
    (pattern : String) (capacity requests : ℕ) (seed : G) (hcapacity : 1 ≤ capacity) :
    (Pattern.ofName pattern = .ok Pattern.looping → ∃ report,
      runSimulation rng hash clock policy pattern capacity requests seed 1 = .ok report ∧
        report.misses = min requests (max 1 (capacity - max 1 (capacity / 5))) ∧
        report.hits = requests - report.misses ∧ report.evictions = 0) ∧
    (Pattern.ofName pattern = .ok Pattern.sequential → ∃ report,
      runSimulation rng hash clock policy pattern capacity requests seed 1 = .ok report ∧
        report.hits = 0 ∧ report.misses = requests ∧ report.evictions = requests - capacity ∧
        report.size = min requests capacity) ∧
    ∀ kind shards, Pattern.ofName pattern = .ok kind → 1 ≤ shards → shards ≤ capacity → ∃ report,
      runSimulation rng hash clock policy pattern capacity requests seed shards = .ok report ∧
        report.hits + report.misses + report.writes = requests := by
  have haccepted := accepted_simulationConfig capacity policy le_rfl hcapacity
  let cfg : AcceptedConfig ℚ := ⟨simulationConfig policy capacity 1, haccepted⟩
  let only : Fin cfg.shardCount := ⟨0, Nat.one_pos⟩
  have hone : ∀ (s : Shared String String cfg) (f : CacheShard String String ℚ → ℕ),
      (s.shardList.map f).sum = f (s.shards only) := fun s f => s.counter_of_one rfl only f
  have hnew : (newShard cfg only : CacheShard String String ℚ).capacity = capacity :=
    capacity_newShard_of_one rfl only
  refine ⟨fun hkind => ?_, fun hkind => ?_, fun kind shards hkind hshards hfits => ?_⟩
  · obtain ⟨hpos, hfits⟩ := workingSet_spec hcapacity
    have hstart : Looped (workingSet capacity) capacity 0 (newShard cfg only) :=
      ⟨timeless_newShard cfg only, hnew, by simp [newShard], (Nat.zero_min _).symm, (Nat.zero_min _).symm,
        (Nat.zero_sub _).symm, rfl⟩
    obtain ⟨s, hrun, hend⟩ := run_of_request clock requests hash (fun m => rawKey (m % workingSet capacity)) hstart
      fun m times x hx => looped_request rfl rfl rfl hpos hfits hx
    refine ⟨_, runSimulation_eq rng clock seed requests hash haccepted hkind hrun, ?_, ?_, ?_⟩
    · exact (hone s fun sh => sh.stats.misses).trans hend.misses_eq
    · show (s.shardList.map fun sh => sh.stats.hits).sum = requests - (s.shardList.map fun sh => sh.stats.misses).sum
      rw [hone, hone, hend.misses_eq, hend.hits_eq]
    · exact (hone s fun sh => sh.stats.evictions).trans hend.evictions_eq
  · have hstart : Scanned capacity 0 (newShard cfg only) :=
      ⟨timeless_newShard cfg only, hnew, by simp [newShard], (Nat.zero_min _).symm, rfl, rfl, (Nat.zero_sub _).symm⟩
    obtain ⟨s, hrun, hend⟩ := run_of_request clock requests hash rawKey hstart
      fun m times x hx => scanned_request rfl rfl rfl hx
    refine ⟨_, runSimulation_eq rng clock seed requests hash haccepted hkind hrun, ?_, ?_, ?_, ?_⟩
    · exact (hone s fun sh => sh.stats.hits).trans hend.hits_eq
    · exact (hone s fun sh => sh.stats.misses).trans hend.misses_eq
    · exact (hone s fun sh => sh.stats.evictions).trans hend.evictions_eq
    · have htotal : s.total = (s.shardList.map fun sh => sh.backend.size).sum := by
        rw [Shared.total, Shared.shardList, List.map_map]
        rfl
      exact htotal.trans ((hone s fun sh => sh.backend.size).trans hend.size_eq)
  · have haccepted' := accepted_simulationConfig capacity policy hshards hfits
    obtain ⟨⟨s, writes⟩, hrun, -, hcount⟩ := simulateAll_invariant Counted
      (keyStream rng seed requests capacity kind) (counted_initial ⟨simulationConfig policy capacity shards, haccepted'⟩)
      fun m raw y _ hy => counted_request rfl hy
    refine ⟨_, runSimulation_eq rng clock seed requests hash haccepted' hkind hrun, ?_⟩
    rw [Nat.zero_add, length_keyStream] at hcount
    exact hcount

/-- A generator that counts. -/
def countingRng : Rng ℕ where
  randrange n g := (g % n, g + 1)
  hot g := (decide (g % 5 ≠ 0), g + 1)
  choice keys g := (keys.getD (g % keys.length) "", g + 1)

/-- Eight requests to a cache for five keys: twice the loop over four keys, a scan that evicts three, and reads and
writes on two shards. -/
theorem simulation_counts_five :
    (∃ report, runSimulation countingRng (fun _ => 0) (fun _ => (0, 0)) .lfu "Looping" 5 8 1 1 = .ok report ∧
      report.misses = 4 ∧ report.hits = 4 ∧ report.evictions = 0) ∧
    (∃ report, runSimulation countingRng (fun _ => 0) (fun _ => (0, 0)) .fifo "sequential-scan" 5 8 1 1 = .ok report ∧
      report.hits = 0 ∧ report.misses = 8 ∧ report.evictions = 3 ∧ report.size = 5) ∧
    ∃ report, runSimulation countingRng (fun _ => 0) (fun _ => (0, 0)) .lru "mixed" 5 8 1 2 = .ok report ∧
      report.hits + report.misses + report.writes = 8 := by
  have hcounts := fun policy pattern =>
    simulation_counts countingRng (fun _ => 0) (fun _ => (0, 0)) policy pattern 5 8 1 (by decide)
  refine ⟨?_, ?_, ?_⟩
  · obtain ⟨report, hrun, hmisses, hhits, hevictions⟩ := (hcounts .lfu "Looping").1 rfl
    have hfour : report.misses = 4 := hmisses
    exact ⟨report, hrun, hfour, by rw [hhits, hfour], hevictions⟩
  · obtain ⟨report, hrun, hhits, hmisses, hevictions, hsize⟩ := (hcounts .fifo "sequential-scan").2.1 rfl
    exact ⟨report, hrun, hhits, hmisses, hevictions, hsize⟩
  · exact (hcounts .lru "mixed").2.2 .mixed 2 rfl (by decide) (by decide)

end CacheLab
