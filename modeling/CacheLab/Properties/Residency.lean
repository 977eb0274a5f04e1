import CacheLab.Properties.Capacity

/-!
# Store and policy agree

Every removal (delete, clear, eviction, lazy and active expiration) and every insertion (fresh, update,
replacement of an expired entry, preload, store of a flight) moves the store and the policy of a shard
together, also when a failing source or a refused enqueue cuts the operation short.

`store_and_policy_agree` reads the invariant `Base` of all runs in the terms of the three policies: the
recency and insertion orders of LRU and FIFO, and both maps of LFU.
-/

set_option linter.unusedSectionVars false

namespace CacheLab

variable {α V T : Type} [DecidableEq α] [LinearOrder T] [Zero T] [Add T] [Sub T]

variable {cfg : AcceptedConfig T} {hash : Key α → ℕ}

/-! ### The buckets of LFU -/

namespace LFUPolicy

variable {p : LFUPolicy α}

/-- The keys of all buckets, one bucket after the other. -/
def bucketKeys (p : LFUPolicy α) : List (Key α) := p.freqToKeys.values.flatMap OrderedDict.keys

/-- A key of a stored bucket has the frequency of the bucket. -/
theorem WF.freq_of_mem_bucket (h : p.WF) {f : ℕ} {b : OrderedDict (Key α) Unit} {k : Key α}
    (hb : (f, b) ∈ p.freqToKeys.items) (hk : k ∈ b.keys) : p.keyToFreq.get? k = some f := by
  have hget : p.freqToKeys.get? f = some b := OrderedDict.get?_eq_some_iff.mpr hb
  rw [h.freq_iff, bucket, hget]
  exact hk

/-- The buckets hold the tracked keys. -/
theorem WF.mem_bucketKeys (h : p.WF) {k : Key α} : k ∈ p.bucketKeys ↔ k ∈ p.keyToFreq.keys := by
  unfold bucketKeys OrderedDict.values
  rw [List.mem_flatMap, OrderedDict.mem_keys_iff]
  constructor
  · rintro ⟨b, hb, hk⟩
    obtain ⟨⟨f, b⟩, hitem, rfl⟩ := List.mem_map.mp hb
    exact ⟨f, h.freq_of_mem_bucket hitem hk⟩
  · rintro ⟨f, hf⟩
    have hk := (h.freq_iff k f).mp hf
    unfold bucket at hk
    cases hget : p.freqToKeys.get? f with
    | none =>
        rw [hget] at hk
        cases hk
    | some b =>
        rw [hget] at hk
        exact ⟨b, List.mem_map.mpr ⟨(f, b), OrderedDict.get?_eq_some_iff.mp hget, rfl⟩, hk⟩

/-- No key is in two buckets, or twice in one. -/
theorem WF.nodup_bucketKeys (h : p.WF) : p.bucketKeys.Nodup := by
  unfold bucketKeys OrderedDict.values
  rw [List.nodup_flatMap, List.pairwise_map]
  refine ⟨fun b _ => b.keys_nodup, ?_⟩
  have hdistinct : p.freqToKeys.items.Pairwise fun x y => x.1 ≠ y.1 :=
    List.pairwise_map.mp p.freqToKeys.keys_nodup
  refine hdistinct.imp_of_mem fun {x y} hx hy hne => ?_
  intro k hkx hky
  have hfx := h.freq_of_mem_bucket hx hkx
  have hfy := h.freq_of_mem_bucket hy hky
  exact hne (Option.some.inj (hfx.symm.trans hfy))

end LFUPolicy

/-! ### Agreement -/

/-- The list has exactly the given keys, each once. -/
def Lists (l : List (Key α)) (keys : List (Key α)) : Prop := l.Nodup ∧ ∀ k, k ∈ l ↔ k ∈ keys

/-- The policy tracks exactly the given keys, each once, in all that it keeps. -/
def EvictionPolicy.Tracks (keys : List (Key α)) : EvictionPolicy α → Prop
  | .lru p => Lists p.order.keys keys
  | .fifo p => Lists p.order.keys keys
  | .lfu p => Lists p.keyToFreq.keys keys ∧ Lists p.bucketKeys keys

/-- **Store and policy agree** in every shard. -/
structure StoreAndPolicyAgree (hash : Key α → ℕ) (s : Shared α V cfg) : Prop where
  tracks : ∀ i, (s.shards i).policy.Tracks (s.shards i).backend.keys
  keyed : ∀ i k e, (s.shards i).backend.getEntry k = some e → e.key = k
  routed : ∀ i, ∀ k ∈ (s.shards i).backend.keys, shardFor cfg hash k = i

/-- A shard whose policy has the resident keys as its order tracks them. -/
theorem CacheShard.Agrees.tracks {sh : CacheShard α V T} (h : sh.Agrees) :
    sh.policy.Tracks sh.backend.keys := by
  have hwf := h.wf
  have hmem := h.mem_iff
  cases hp : sh.policy with
  | lru p =>
      rw [hp] at hmem
      exact ⟨p.order.keys_nodup, hmem⟩
  | fifo p =>
      rw [hp] at hmem
      exact ⟨p.order.keys_nodup, hmem⟩
  | lfu p =>
      rw [hp] at hwf hmem
      have htracked : ∀ k, k ∈ p.keyToFreq.keys ↔ k ∈ sh.backend.keys := by
        intro k
        rw [← LFUPolicy.WF.mem_evictionOrder hwf]
        exact hmem k
      refine ⟨⟨p.keyToFreq.keys_nodup, htracked⟩, LFUPolicy.WF.nodup_bucketKeys hwf, fun k => ?_⟩
      rw [LFUPolicy.WF.mem_bucketKeys hwf]
      exact htracked k

/-- **Store and policy agree between any two steps of any run**, for every policy, write mode, queue bound
and pattern of source failures. -/
theorem store_and_policy_agree {cfg : AcceptedConfig T} {hash : Key α → ℕ} {now : T} {src : Source α V}
    {ls : List (Label α V T)} {s : System α V cfg}
    (h : exec cfg hash (initial cfg now src) ls = some s) : StoreAndPolicyAgree hash s.shared := by
  have hbase := base_exec h
  refine ⟨fun i => (hbase.shards i).agrees.tracks, fun i k e => (s.shared.shards i).backend.keyed k e, ?_⟩
  intro i k hk
  obtain ⟨e, he⟩ := InMemoryBackend.mem_keys_iff.mp hk
  exact (hbase.shards i).shardFor_eq he

/-- A failing write-through put drops the expired entry of its key from store and policy. -/
theorem store_and_policy_agree_after_failure :
    ∃ s : System ℕ ℕ (oneEntry .lfu .writeThrough 0 0 0),
      exec _ (fun _ => 0) (initial _ 0 .empty)
        [.call (.put (some 1) 10 (.seconds 1)), .run 0 {}, .run 0 {}, .tick 2,
          .call (.put (some 1) 11 .unset), .run 1 {}, .run 1 { ok := fun _ => false }] = some s ∧
      s.threads[1]? = some (Thread.finished (.raised .sourceFailure)) ∧
      (s.shared.home (fun _ => 0) (some 1)).backend.keys = [] ∧
      StoreAndPolicyAgree (fun _ => 0) s.shared := by
  have heval : ((exec (oneEntry .lfu .writeThrough 0 0 0) (fun _ => 0) (initial _ 0 .empty)
      [.call (.put (some 1) 10 (.seconds 1)), .run 0 {}, .run 0 {}, .tick 2,
        .call (.put (some 1) 11 .unset), .run 1 {}, .run 1 { ok := fun _ => false }]).map
      fun s : System ℕ ℕ (oneEntry .lfu .writeThrough 0 0 0) =>
        decide (s.threads[1]? = some (Thread.finished (.raised .sourceFailure)) ∧
          (s.shared.home (fun _ => 0) (some 1)).backend.keys = [])) = some true := by decide +kernel
  obtain ⟨s, hs, heval⟩ := Option.map_eq_some_iff.mp heval
  obtain ⟨hraised, hkeys⟩ := of_decide_eq_true heval
  exact ⟨s, hs, hraised, hkeys, store_and_policy_agree hs⟩

end CacheLab
