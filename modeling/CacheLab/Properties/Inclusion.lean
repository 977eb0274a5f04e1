import Mathlib.Data.List.TakeWhile
import CacheLab.Lib.Recency
import CacheLab.Core.Timeless
import CacheLab.Workloads.Session
import CacheLab.Properties.Residency

/-!
# LRU inclusion

A larger LRU cache holds what a smaller one holds. The two caches of the statement do not take the same
branches: a request that misses and fills in one is a hit that touches in the other. The bridge is the
recency list (`Recency`): a session on an LRU shard without lifetimes moves the eviction order as the
accesses of the library do (`serve_refines`), and the library relates two such lists.

Neither half survives a change of policy. Under FIFO the order of a key does not change when it is hit, so
the list of a smaller cache is no sublist of the list of a larger one.
-/

set_option linter.unusedSectionVars false

namespace CacheLab

variable {α V T : Type} [DecidableEq α] [LinearOrder T] [Zero T] [Add T] [Sub T]

variable {cfg : AcceptedConfig T} {hash : Key α → ℕ}

/-! ### One shard -/

namespace CacheShard

variable {sh : CacheShard α V T} {c : ℕ}

/-- An LRU shard of capacity `c` that holds proper keys without deadlines. -/
structure Recent (c : ℕ) (sh : CacheShard α V T) : Prop where
  agrees : sh.Agrees
  capacity_eq : sh.capacity = c
  lru : ∃ p, sh.policy = .lru p
  timeless : ∀ k v d, sh.timed k = some (v, d) → d = none
  proper : ∀ k ∈ sh.policy.order, k.isSome = true
  fits : sh.policy.order.length ≤ c

/-- The eviction order is a recency list. -/
theorem Recent.kept (h : sh.Recent c) : Recency.Kept c sh.policy.order :=
  ⟨h.agrees.wf.nodup_order, h.fits⟩

/-- It is a shard without lifetimes. -/
theorem Recent.toTimeless (h : sh.Recent c) : sh.Timeless :=
  ⟨h.agrees, h.timeless, fun k hk => h.proper k ((h.agrees.mem_iff k).mpr hk)⟩

/-- Nothing is expired. -/
theorem Recent.isExpired_eq (h : sh.Recent c) {k : Key α} {e : CacheEntry α V T}
    (he : sh.backend.getEntry k = some e) (now : T) : e.isExpired now = false := h.toTimeless.isExpired_eq he now

/-- Lazy expiration does nothing. -/
theorem Recent.dropExpired_eq (h : sh.Recent c) (key : Key α) (now : T) : sh.dropExpired key now = sh :=
  h.toTimeless.dropExpired_eq key now

/-- A read sees the keys of the eviction order. -/
theorem Recent.isSome_read (h : sh.Recent c) (key : Key α) (touch : Bool) (now : T) :
    (sh.readValueLocked key touch true now).1.isSome = true ↔ key ∈ sh.policy.order := by
  have hmem := h.agrees.mem_iff key
  rw [InMemoryBackend.mem_keys_iff] at hmem
  unfold readValueLocked
  cases he : sh.backend.getEntry key with
  | none =>
      have hout : key ∉ sh.policy.order := fun hk => by simpa [he] using hmem.mp hk
      simp [hout]
  | some e =>
      have hin : key ∈ sh.policy.order := hmem.mpr ⟨e, he⟩
      simp [h.isExpired_eq he now, hin]

/-- The policy and the hit counter after a read. -/
theorem Recent.read_eq (h : sh.Recent c) (key : Key α) (touch : Bool) (now : T) :
    (sh.readValueLocked key touch true now).2.policy =
        (if key ∈ sh.policy.order ∧ touch = true then sh.policy.onGet key else sh.policy) ∧
      (sh.readValueLocked key touch true now).2.stats.hits =
        sh.stats.hits + if key ∈ sh.policy.order then 1 else 0 := by
  have hmem := h.agrees.mem_iff key
  rw [InMemoryBackend.mem_keys_iff] at hmem
  unfold readValueLocked
  cases he : sh.backend.getEntry key with
  | none =>
      have hout : key ∉ sh.policy.order := fun hk => by simpa [he] using hmem.mp hk
      simp [hout]
  | some e =>
      have hin : key ∈ sh.policy.order := hmem.mpr ⟨e, he⟩
      cases touch <;> simp [h.isExpired_eq he now, hin]

/-- The eviction order after a read that touches. -/
theorem Recent.order_get (h : sh.Recent c) (key : Key α) (now : T) :
    (sh.readValueLocked key true true now).2.policy.order =
      (Recency.Access.read key).next c sh.policy.order := by
  obtain ⟨p, hp⟩ := h.lru
  rw [(h.read_eq key true now).1]
  simp only [Recency.Access.next, and_true]
  split_ifs with hk
  · rw [hp] at hk ⊢
    exact EvictionPolicy.order_onGet_of_lru rfl hk
  · rfl

/-- A read keeps an LRU shard. -/
theorem Recent.read (h : sh.Recent c) (key : Key α) (touch : Bool) (now : T) :
    (sh.readValueLocked key touch true now).2.Recent c := by
  have htended := tended_readValueLocked sh key touch true now
  have hpolicy := (h.read_eq key touch now).1
  have hagrees := htended.agrees h.agrees
  refine ⟨hagrees, htended.capacity_eq.trans h.capacity_eq, ?_, ?_, ?_, ?_⟩
  · obtain ⟨p, hp⟩ := h.lru
    rw [hpolicy, hp]
    split_ifs
    · exact ⟨p.onGet key, rfl⟩
    · exact ⟨p, rfl⟩
  · intro k v d hk
    rcases htended.key k with ⟨-, htimed⟩ | ⟨_, _, -, -, -, hgone⟩
    · exact h.timeless k v d (htimed ▸ hk)
    · rw [hgone] at hk
      cases hk
  · intro k hk
    rw [hpolicy] at hk
    split_ifs at hk
    · exact h.proper k (h.agrees.wf.mem_order_onGet.mp hk)
    · exact h.proper k hk
  · calc (sh.readValueLocked key touch true now).2.policy.order.length
        = (sh.readValueLocked key touch true now).2.backend.size := hagrees.length_order
      _ ≤ sh.backend.size := htended.size_le
      _ = sh.policy.order.length := h.agrees.length_order.symm
      _ ≤ c := h.fits

/-! ### Puts and deletes on an LRU shard -/

/-- The hit counter after a sequence of removals. -/
theorem hits_removeEntriesLocked (sh : CacheShard α V T) (keys : List (Key α)) (reason : RemoveReason) :
    (sh.removeEntriesLocked keys reason).2.stats.hits = sh.stats.hits := by
  induction keys generalizing sh with
  | nil => rfl
  | cons key keys ih =>
      rw [removeEntriesLocked_cons, ih]
      unfold removeEntryLocked maybePruneMarksLocked
      cases reason <;> simp only [countRemoval] <;> split_ifs <;> rfl

section Put

variable {cfg : CacheConfig T} (key : α) (value : V) {ttl : Ttl T} (now : T)

/-- The eviction order in which a put enforces the capacity. -/
theorem Recent.order_stored (h : sh.Recent c) :
    (sh.stored cfg (some key) value ttl now).policy.order = Recency.touch (some key) sh.policy.order := by
  obtain ⟨p, hp⟩ := h.lru
  rw [stored, h.dropExpired_eq]
  show (sh.policy.onPut (some key)).order = _
  rw [hp]
  exact EvictionPolicy.order_onPut_of_lru rfl (some key)

/-- A put evicts the keys used longest ago. -/
theorem Recent.victims_stored (h : sh.Recent c) :
    (sh.stored cfg (some key) value ttl now).victims =
      (Recency.touch (some key) sh.policy.order).take
        ((Recency.touch (some key) sh.policy.order).length - c) := by
  have hagrees := h.agrees.stored cfg (some key) value ttl now
  have hcap : (sh.stored cfg (some key) value ttl now).capacity = c :=
    (tended_dropExpired sh (some key) now).capacity_eq.trans h.capacity_eq
  have hproper : ∀ k ∈ Recency.touch (some key) sh.policy.order, k.isSome = true := by
    intro k hk
    rcases List.mem_append.mp hk with hk | hk
    · exact h.proper k (List.mem_filter.mp hk).1
    · rw [List.mem_singleton.mp hk]
      rfl
  rw [victims, ← hagrees.length_order, hcap, h.order_stored, List.takeWhile_eq_self_iff.mpr hproper]

/-- The eviction order after a put. -/
theorem Recent.order_fitted (h : sh.Recent c) :
    (sh.fitted cfg (some key) value ttl now).policy.order =
      Recency.fill c (some key) sh.policy.order := by
  have hagrees := h.agrees.stored cfg (some key) value ttl now
  rw [fitted, hagrees.order_removeEntriesLocked, h.victims_stored, h.order_stored]
  exact Recency.filter_eq_trim (Recency.nodup_touch h.agrees.wf.nodup_order) fun x _ => decide_eq_true_iff

/-- A put without a lifetime keeps an LRU shard. -/
theorem Recent.fitted (h : sh.Recent c) (hdefault : ∀ t, cfg.defaultTtl = some t → t ≤ 0)
    (httl : ∀ t, ttl ≠ .seconds t) : (sh.fitted cfg (some key) value ttl now).Recent c := by
  have horder : (sh.fitted cfg (some key) value ttl now).policy.order = Recency.fill c (some key) sh.policy.order :=
    h.order_fitted key value now
  refine ⟨h.agrees.fitted cfg _ value ttl now, ?_, ?_, ?_, ?_, ?_⟩
  · rw [fitted_capacity]
    exact h.capacity_eq
  · apply removeEntriesLocked_lru
    obtain ⟨p, hp⟩ := h.lru
    refine ⟨p.onPut (some key), ?_⟩
    rw [stored, h.dropExpired_eq]
    show sh.policy.onPut (some key) = _
    rw [hp]
    rfl
  · intro k v d hk
    rw [timed_fitted, h.dropExpired_eq] at hk
    split_ifs at hk with hv hkey
    · have hex : ∀ e, sh.backend.getEntry (some key) = some e → e.expiresAt = none := fun e he =>
        h.timeless (some key) e.value e.expiresAt (by rw [timed, he]; rfl)
      rw [resolveTtl_timeless hdefault hex httl now] at hk
      exact (Prod.mk.inj (Option.some.inj hk)).2.symm
    · exact h.timeless k v d hk
  · intro k hk
    rw [horder] at hk
    rcases List.mem_append.mp (List.mem_of_mem_drop hk) with hk | hk
    · exact h.proper k (List.mem_filter.mp hk).1
    · rw [List.mem_singleton.mp hk]
      rfl
  · rw [horder]
    exact h.kept.fill.length_le

/-- A put counts no hit. -/
theorem Recent.hits_fitted (h : sh.Recent c) :
    (sh.fitted cfg (some key) value ttl now).stats.hits = sh.stats.hits := by
  rw [CacheShard.fitted, hits_removeEntriesLocked, stored, h.dropExpired_eq]
  rfl

end Put

/-- The shard after a delete in cache-only mode is the shard after one removal, but for its delete counter
and its flights. -/
theorem deleteLocked_cacheOnly {cfg : CacheConfig T} (hmode : cfg.writeMode = .cacheOnly)
    (sh : CacheShard α V T) (src : Source α V) (key : Key α) :
    (sh.deleteLocked cfg src key true).shard.policy = sh.policy.onDelete key ∧
      (sh.deleteLocked cfg src key true).shard.backend = sh.backend.deleteEntry key ∧
      (sh.deleteLocked cfg src key true).shard.capacity = sh.capacity ∧
      (sh.deleteLocked cfg src key true).shard.stats.hits = sh.stats.hits := by
  have hhits := hits_removeEntriesLocked sh [key] .delete
  rw [removeEntriesLocked_cons, removeEntriesLocked_nil] at hhits
  simp only [deleteLocked, eraseLocked, removeCounted, hmode, reduceCtorEq, if_false, false_and]
  split_ifs
  · exact ⟨removeEntryLocked_policy .., removeEntryLocked_backend .., removeEntryLocked_capacity .., hhits⟩
  · exact ⟨removeEntryLocked_policy .., removeEntryLocked_backend .., removeEntryLocked_capacity .., hhits⟩

/-- A delete keeps an LRU shard. -/
theorem Recent.deleteLocked (h : sh.Recent c) {cfg : CacheConfig T} (hmode : cfg.writeMode = .cacheOnly)
    (src : Source α V) (key : Key α) :
    (sh.deleteLocked cfg src key true).shard.Recent c ∧
      (sh.deleteLocked cfg src key true).shard.policy.order = Recency.remove key sh.policy.order := by
  obtain ⟨hpolicy, hbackend, hcap, -⟩ := deleteLocked_cacheOnly hmode sh src key
  have horder : (sh.deleteLocked cfg src key true).shard.policy.order =
      Recency.remove key sh.policy.order := by
    rw [hpolicy]
    exact h.agrees.wf.order_onDelete key
  have hsub : ∀ k ∈ Recency.remove key sh.policy.order, k ∈ sh.policy.order := fun k hk =>
    (List.mem_filter.mp hk).1
  refine ⟨⟨?_, hcap.trans h.capacity_eq, ?_, ?_, ?_, ?_⟩, horder⟩
  · refine (h.agrees.removeEntryLocked key .delete).congr ?_ ?_
    · rw [hpolicy, removeEntryLocked_policy]
    · intro k
      rw [hbackend, removeEntryLocked_backend]
  · obtain ⟨p, hp⟩ := h.lru
    rw [hpolicy, hp]
    exact ⟨p.onDelete key, rfl⟩
  · intro k v d hk
    rw [timed, hbackend, InMemoryBackend.getEntry_deleteEntry] at hk
    split_ifs at hk
    · cases hk
    · exact h.timeless k v d hk
  · intro k hk
    rw [horder] at hk
    exact h.proper k (hsub k hk)
  · rw [horder]
    exact (List.length_filter_le _ _).trans h.fits

end CacheShard

/-! ### Sessions -/

/-- A cache-only LRU cache with one shard and without a default lifetime. -/
structure PlainLru (cfg : AcceptedConfig T) : Prop where
  policy : cfg.policy = .lru
  mode : cfg.writeMode = .cacheOnly
  one : cfg.shardCount = 1
  timeless : ∀ t, cfg.defaultTtl = some t → t ≤ 0

/-- A request that sets no lifetime. -/
def Request.Timeless : Request α V T → Prop
  | put _ _ ttl => ∀ t, ttl ≠ .seconds t
  | _ => True

/-- What a request is to the recency list. -/
def Request.access : Request α V T → Recency.Access (Key α)
  | put key _ _ => .write (some key)
  | get key => .read (some key)
  | contains key => .peek (some key)
  | delete key => .remove (some key)
  | readThrough key _ => .load (some key)
  | wait _ => .pause
  | start => .pause

/-- The first shard, which is all there is in a cache with one shard. -/
def Shared.only (s : Shared α V cfg) : CacheShard α V T := s.shards ⟨0, cfg.shardCount_pos⟩

/-- The hits that the statistics report.
Source: `core/cache.py` `Cache.stats` -/
def Shared.hits (s : Shared α V cfg) : ℕ := ∑ i, (s.shards i).stats.hits

/-- The keys of a cache with one shard, next victim first. -/
def System.evictionOrder (s : System α V cfg) : List (Key α) := s.shared.only.policy.order

/-- A cache with one shard has no other one. -/
theorem PlainLru.eq_zero (h : PlainLru cfg) (i : Fin cfg.shardCount) : i = ⟨0, cfg.shardCount_pos⟩ := by
  apply Fin.ext
  have hi := i.isLt
  have hone := h.one
  show i.val = 0
  omega

/-- The hits of a cache with one shard. -/
theorem PlainLru.hits_eq (h : PlainLru cfg) (s : Shared α V cfg) : s.hits = s.only.stats.hits := by
  unfold Shared.hits
  refine Finset.sum_eq_single_of_mem _ (Finset.mem_univ _) ?_
  intro i _ hi
  exact absurd (h.eq_zero i) hi

/-- The shard after a section. -/
theorem PlainLru.only_eq (h : PlainLru cfg) {s s' : Shared α V cfg} {i : Fin cfg.shardCount}
    {sh : CacheShard α V T} (hs : s.Sectioned i sh s') : s'.only = sh := by
  unfold Shared.only
  rw [hs.shards_eq, h.eq_zero i, Function.update_self]

/-- Where every key is. -/
theorem PlainLru.home_eq (h : PlainLru cfg) (s : Shared α V cfg) (key : Key α) :
    s.home hash key = s.only := congrArg s.shards (h.eq_zero _)

/-- The states of a session. -/
structure InSession (s : System α V cfg) : Prop where
  opened : s.shared.Open
  recent : s.shared.only.Recent cfg.capacity

/-- A session starts. -/
theorem PlainLru.inSession_initial (h : PlainLru cfg) (now : T) (src : Source α V) :
    InSession (initial cfg now src : System α V cfg) := by
  refine ⟨.inl rfl, ?_⟩
  have hok : ShardOk cfg (fun _ => 0) ⟨0, cfg.shardCount_pos⟩ (newShard cfg ⟨0, cfg.shardCount_pos⟩ : CacheShard α V T) :=
    ShardOk.newShard cfg (fun _ => 0) ⟨0, cfg.shardCount_pos⟩
  refine ⟨hok.agrees, ?_, ?_, ?_, ?_, ?_⟩
  · show (shardCapacities cfg.capacity cfg.shardCount).getD 0 0 = cfg.capacity
    rw [h.one]
    simp [shardCapacities, Nat.mod_one]
  · show ∃ p, makePolicy cfg.policy = .lru p
    rw [h.policy]
    exact ⟨_, rfl⟩
  · intro k v d hk
    cases hk
  · intro k hk
    have hnil : (makePolicy cfg.policy : EvictionPolicy α).order = [] := EvictionPolicy.order_makePolicy _
    exact absurd hk (by show k ∉ (makePolicy cfg.policy).order; simp [hnil])
  · show (makePolicy cfg.policy).order.length ≤ cfg.capacity
    simp

/-- What a request does: it answers and moves the eviction order as its access does, and counts a hit when
it is one. -/
structure Serves (s : System α V cfg) (r : Request α V T) (s' : System α V cfg) (answer : Option Bool) :
    Prop where
  session : InSession s'
  order_eq : s'.evictionOrder = r.access.next cfg.capacity s.evictionOrder
  answer_eq : answer = r.access.answer s.evictionOrder
  hits_eq : s'.shared.hits = s.shared.hits + if answer = some true then 1 else 0

section Requests

variable (hash : Key α → ℕ) (hcfg : PlainLru cfg) {s : System α V cfg} (hs : InSession s)

include hcfg hs

/-- A call of `get`. -/
theorem serves_get (key : α) :
    ∃ s' r, callAlone cfg hash s (.get (some key)) = some (s', r) ∧
      Serves s (.get key) s' (some r.hit) := by
  obtain ⟨s', r, hcall, hhit, hsection⟩ := callAlone_get hash hs.opened (some key)
  rw [hcfg.home_eq] at hhit hsection
  have honly := hcfg.only_eq hsection
  have hanswer : r.hit = true ↔ some key ∈ s.evictionOrder := by
    rw [hhit]
    exact hs.recent.isSome_read (some key) true s.shared.now
  refine ⟨s', r, hcall, ⟨hsection.opened hs.opened, ?_⟩, ?_, (Recency.some_eq_answer hanswer).1, ?_⟩
  · rw [honly]
    exact hs.recent.read (some key) true s.shared.now
  · rw [System.evictionOrder, honly]
    exact hs.recent.order_get (some key) s.shared.now
  · rw [hcfg.hits_eq, hcfg.hits_eq, honly, (hs.recent.read_eq (some key) true s.shared.now).2]
    simp only [Option.some.injEq, hanswer, System.evictionOrder]

/-- A call of `contains`. -/
theorem serves_contains (key : α) :
    ∃ s' r, callAlone cfg hash s (.contains (some key)) = some (s', r) ∧
      Serves s (.contains key) s' (some r.hit) := by
  obtain ⟨s', r, hcall, hhit, hsection⟩ := callAlone_contains hash hs.opened (some key)
  rw [hcfg.home_eq] at hhit hsection
  have honly := hcfg.only_eq hsection
  have hanswer : r.hit = true ↔ some key ∈ s.evictionOrder := by
    rw [hhit]
    exact hs.recent.isSome_read (some key) false s.shared.now
  have hread := hs.recent.read_eq (some key) false s.shared.now
  refine ⟨s', r, hcall, ⟨hsection.opened hs.opened, ?_⟩, ?_, (Recency.some_eq_answer hanswer).2.1, ?_⟩
  · rw [honly]
    exact hs.recent.read (some key) false s.shared.now
  · rw [System.evictionOrder, honly, hread.1, if_neg (by simp)]
    rfl
  · rw [hcfg.hits_eq, hcfg.hits_eq, honly, hread.2]
    simp only [Option.some.injEq, hanswer, System.evictionOrder]

/-- A call of `put` without a lifetime. -/
theorem serves_put (key : α) (value : V) {ttl : Ttl T} (httl : ∀ t, ttl ≠ .seconds t) :
    ∃ s' r, callAlone cfg hash s (.put (some key) value ttl) = some (s', r) ∧
      Serves s (.put key value ttl) s' none := by
  have hvalid : validExplicitTtl ttl = true := by
    cases ttl with
    | seconds t => exact absurd rfl (httl t)
    | _ => rfl
  obtain ⟨s', r, hcall, hsection⟩ := callAlone_put hash hcfg.mode hs.opened (some key) value hvalid
  rw [hcfg.home_eq, hs.recent.agrees.putLocked_eq _ _ _ _ _ (by simp)] at hsection
  simp only [hcfg.mode, reduceCtorEq, if_false] at hsection
  have honly := hcfg.only_eq hsection
  refine ⟨s', r, hcall, ⟨hsection.opened hs.opened, ?_⟩, ?_, rfl, ?_⟩
  · rw [honly]
    exact hs.recent.fitted key value s.shared.now hcfg.timeless httl
  · rw [System.evictionOrder, honly]
    exact hs.recent.order_fitted key value s.shared.now
  · rw [hcfg.hits_eq, hcfg.hits_eq, honly, hs.recent.hits_fitted]
    rfl

/-- A call of `delete`. -/
theorem serves_delete (key : α) :
    ∃ s' r, callAlone cfg hash s (.delete (some key)) = some (s', r) ∧
      Serves s (.delete key) s' none := by
  obtain ⟨s', r, hcall, hsection⟩ := callAlone_delete hash hcfg.mode hs.opened (some key)
  rw [hcfg.home_eq] at hsection
  have honly := hcfg.only_eq hsection
  obtain ⟨hrecent, horder⟩ := hs.recent.deleteLocked hcfg.mode s.shared.source (some key)
  refine ⟨s', r, hcall, ⟨hsection.opened hs.opened, honly ▸ hrecent⟩, ?_, rfl, ?_⟩
  · rw [System.evictionOrder, honly]
    exact horder
  · rw [hcfg.hits_eq, hcfg.hits_eq, honly, (CacheShard.deleteLocked_cacheOnly hcfg.mode _ _ _).2.2.2]
    rfl

/-- A step that leaves the shards alone. -/
theorem serves_pause {s' : System α V cfg} (hopen : s'.shared.Open) (hshards : s'.shared.shards = s.shared.shards)
    {r : Request α V T} (hr : r.access = .pause) : Serves s r s' none := by
  have honly : s'.shared.only = s.shared.only := congrFun hshards _
  refine ⟨⟨hopen, honly ▸ hs.recent⟩, ?_, ?_, ?_⟩
  · rw [hr, System.evictionOrder, honly]
    rfl
  · rw [hr]
    rfl
  · rw [hcfg.hits_eq, hcfg.hits_eq, honly]
    rfl

/-- A `get`, and on a miss a `put`. -/
theorem serves_readThrough (key : α) (value : V) :
    ∃ s' answer, serve cfg hash s (.readThrough key value) = some (s', answer) ∧
      Serves s (.readThrough key value) s' answer := by
  obtain ⟨s₁, r, hget, hserves⟩ := serves_get hash hcfg hs key
  have hanswer : r.hit = true ↔ some key ∈ s.evictionOrder := by
    rw [← Recency.answer_read_iff, ← Option.some.injEq r.hit, hserves.answer_eq]
    rfl
  by_cases hk : some key ∈ s.evictionOrder
  · -- a hit: filling in a present key is touching it
    have hhit : r.hit = true := hanswer.mpr hk
    have hnext : s₁.evictionOrder = Recency.touch (some key) s.evictionOrder :=
      hserves.order_eq.trans (if_pos hk)
    refine ⟨s₁, some true, ?_, hserves.session, ?_, ?_, ?_⟩
    · simp [serve, hget, hhit]
    · rw [hnext]
      exact (Recency.fill_of_mem hs.recent.kept.nodup hs.recent.kept.length_le hk).symm
    · exact (Recency.some_eq_answer (by simp [hk])).2.2
    · rw [hserves.hits_eq, hhit]
  · have hmiss : r.hit = false := Bool.eq_false_iff.mpr fun h => hk (hanswer.mp h)
    have hsame : s₁.evictionOrder = s.evictionOrder := hserves.order_eq.trans (if_neg hk)
    have hunset : ∀ t : T, Ttl.unset ≠ .seconds t := by simp
    obtain ⟨s₂, r₂, hput, hserves₂⟩ := serves_put hash hcfg hserves.session key value hunset
    refine ⟨s₂, some false, ?_, hserves₂.session, ?_, ?_, ?_⟩
    · simp [serve, hget, hmiss, hput]
    · rw [hserves₂.order_eq, hsame]
      rfl
    · exact (Recency.some_eq_answer (by simp [hk])).2.2
    · rw [hserves₂.hits_eq, hserves.hits_eq, hmiss]
      rfl

/-- **A session refines the recency list.** -/
theorem serve_refines (r : Request α V T) (hr : r.Timeless) :
    ∃ s' answer, serve cfg hash s r = some (s', answer) ∧ Serves s r s' answer := by
  cases r with
  | put key value ttl =>
      obtain ⟨s', r, hcall, hserves⟩ := serves_put hash hcfg hs key value hr
      exact ⟨s', none, by rw [serve, hcall]; rfl, hserves⟩
  | get key =>
      obtain ⟨s', r, hcall, hserves⟩ := serves_get hash hcfg hs key
      exact ⟨s', some r.hit, by rw [serve, hcall]; rfl, hserves⟩
  | contains key =>
      obtain ⟨s', r, hcall, hserves⟩ := serves_contains hash hcfg hs key
      exact ⟨s', some r.hit, by rw [serve, hcall]; rfl, hserves⟩
  | delete key =>
      obtain ⟨s', r, hcall, hserves⟩ := serves_delete hash hcfg hs key
      exact ⟨s', none, by rw [serve, hcall]; rfl, hserves⟩
  | readThrough key value => exact serves_readThrough hash hcfg hs key value
  | wait time =>
      obtain ⟨s', hexec, hlife, hshards⟩ := exec_wait hash s time
      have hopen : s'.shared.Open := by
        unfold Shared.Open
        rw [hlife]
        exact hs.opened
      exact ⟨s', none, by rw [serve, hexec]; rfl, serves_pause hcfg hs hopen hshards rfl⟩
  | start =>
      obtain ⟨s', hexec, hopen, hshards⟩ := exec_start hash hs.opened
      exact ⟨s', none, by rw [serve, hexec]; rfl, serves_pause hcfg hs hopen hshards rfl⟩

end Requests

/-! ### Two sessions -/

/-- The smaller cache `s` lies inside the larger one `s'`, and so do their answers. -/
structure Includes (s : System α V cfg) (answers : List (Option Bool)) {cfg' : AcceptedConfig T}
    (s' : System α V cfg') (answers' : List (Option Bool)) : Prop where
  /-- Both eviction orders list the resident keys. -/
  lists : Lists s.evictionOrder s.shared.only.backend.keys ∧
    Lists s'.evictionOrder s'.shared.only.backend.keys
  sublist : s.evictionOrder.Sublist s'.evictionOrder
  answers : List.Forall₂ (fun a a' => a = some true → a' = some true) answers answers'
  hits : s.shared.hits ≤ s'.shared.hits

/-- Two sessions with the same requests, from two states of which one lies inside the other. -/
theorem includes_of_within {cfg' : AcceptedConfig T} {hash' : Key α → ℕ} (hcfg : PlainLru cfg)
    (hcfg' : PlainLru cfg') (rs : List (Request α V T)) (hrs : ∀ r ∈ rs, r.Timeless)
    {s : System α V cfg} {s' : System α V cfg'} (hs : InSession s) (hs' : InSession s')
    (hw : Recency.Within cfg.capacity cfg'.capacity s.evictionOrder s'.evictionOrder)
    (hhits : s.shared.hits ≤ s'.shared.hits) :
    ∃ t as t' as', serveAll cfg hash s rs = some (t, as) ∧ serveAll cfg' hash' s' rs = some (t', as') ∧
      Includes t as t' as' := by
  induction rs generalizing s s' with
  | nil =>
      refine ⟨s, [], s', [], rfl, rfl, ⟨?_, ?_⟩, hw.sublist, .nil, hhits⟩
      · exact ⟨hs.recent.agrees.wf.nodup_order, hs.recent.agrees.mem_iff⟩
      · exact ⟨hs'.recent.agrees.wf.nodup_order, hs'.recent.agrees.mem_iff⟩
  | cons r rs ih =>
      obtain ⟨u, a, hu, hserves⟩ := serve_refines hash hcfg hs r (hrs r List.mem_cons_self)
      obtain ⟨u', a', hu', hserves'⟩ :=
        serve_refines hash' hcfg' hs' r (hrs r List.mem_cons_self)
      have hw' : Recency.Within cfg.capacity cfg'.capacity u.evictionOrder u'.evictionOrder := by
        rw [hserves.order_eq, hserves'.order_eq]
        exact hw.next hs.recent.kept hs'.recent.kept r.access
      have hanswer : a = some true → a' = some true := by
        rw [hserves.answer_eq, hserves'.answer_eq]
        exact hw.answer
      have hhits' : u.shared.hits ≤ u'.shared.hits := by
        rw [hserves.hits_eq, hserves'.hits_eq]
        split_ifs with ha ha'
        · omega
        · exact absurd (hanswer ha) ha'
        · omega
        · omega
      obtain ⟨t, as, t', as', ht, ht', hin⟩ :=
        ih (fun r hr => hrs r (List.mem_cons_of_mem _ hr)) hserves.session hserves'.session hw' hhits'
      refine ⟨t, a :: as, t', a' :: as', ?_, ?_, hin.lists, hin.sublist, .cons hanswer hin.answers, hin.hits⟩
      · simp [serveAll, hu, ht]
      · simp [serveAll, hu', ht']

/-- **LRU inclusion.** After the same requests the keys of the smaller cache, next victim first, are a
subsequence of those of the larger cache; every read that hits in the smaller one hits in the larger one,
and the larger one reports at least as many hits. -/
theorem lru_inclusion {cfg cfg' : AcceptedConfig T} {hash hash' : Key α → ℕ} {now now' : T}
    {src src' : Source α V} (hcfg : PlainLru cfg) (hcfg' : PlainLru cfg')
    (hcap : cfg.capacity ≤ cfg'.capacity) (rs : List (Request α V T)) (hrs : ∀ r ∈ rs, r.Timeless) :
    ∃ s answers s' answers', serveAll cfg hash (initial cfg now src) rs = some (s, answers) ∧
      serveAll cfg' hash' (initial cfg' now' src') rs = some (s', answers') ∧
      Includes s answers s' answers' := by
  refine includes_of_within hcfg hcfg' rs hrs (hcfg.inSession_initial now src)
    (hcfg'.inSession_initial now' src') ?_ ?_
  · have hnil : ∀ c : AcceptedConfig T, ∀ n, ∀ x : Source α V,
        (initial c n x : System α V c).evictionOrder = [] := fun c _ _ => EvictionPolicy.order_makePolicy c.policy
    rw [hnil, hnil]
    exact Recency.Within.nil hcap
  · rw [hcfg.hits_eq, hcfg'.hits_eq]
    exact le_refl 0

/-- An LRU cache with the given capacity. -/
def lruOf (capacity : ℕ) (h : 0 < capacity) : AcceptedConfig ℕ :=
  ⟨{ capacity := capacity, schedulerInterval := 1, queuePutTimeout := 1 }, by
    have h₁ : ¬ capacity < 1 := by omega
    simp [CacheConfig.postInit, h₁]⟩

theorem plainLru_lruOf (capacity : ℕ) (h : 0 < capacity) : PlainLru (lruOf capacity h) :=
  ⟨rfl, rfl, rfl, fun _ ht => by cases ht⟩

/-- Two keys read through in turn, with room for one entry and for two. -/
theorem lru_inclusion_two_entries :
    ∃ s answers s' answers',
      serveAll (lruOf 1 (by decide)) (fun _ => 0) (initial _ 0 .empty)
        [.readThrough 1 10, .readThrough 2 20, .readThrough 1 10, .delete 2, .contains 1] =
        some (s, answers) ∧
      serveAll (lruOf 2 (by decide)) (fun _ => 0) (initial _ 0 .empty)
        [.readThrough 1 10, .readThrough 2 20, .readThrough 1 10, .delete 2, .contains 1] =
        some (s', answers') ∧
      Includes s answers s' answers' :=
  lru_inclusion (plainLru_lruOf 1 (by decide)) (plainLru_lruOf 2 (by decide)) (by decide) _ (by
    intro r hr
    fin_cases hr <;> trivial)

end CacheLab
