import CacheLab.Core.Stamps
import CacheLab.System.Stores
import CacheLab.Properties.Capacity

/-!
# Victims and stamps

Under LRU and FIFO the eviction order of every shard of every run lists the entries by their stamps
(`Core/Stamps`), so the victim of a put is an entry with the least stamp. `victims_match_stamps` collects what
follows for runs that store no key `None`:

* the orders (`Timely`, along the run by the section that a step runs);
* the reads that are not counted, and under FIFO all reads, keep the order up to the expired entries they
  remove (`OrderKept`);
* a put evicts one entry when it stores a new key into a full shard, and none otherwise (`PutEvicts`).

The key `None` is excluded because a policy answers `None` for "no victim": with it in front of the order a
put evicts nothing.
-/

set_option linter.unusedSectionVars false

namespace CacheLab

variable {α V T : Type} [DecidableEq α] [LinearOrder T] [Zero T] [Add T] [Sub T]

variable {cfg : AcceptedConfig T} {hash : Key α → ℕ}

/-! ### Reads -/

/-- The eviction order is as it was, less expired entries. -/
structure OrderKept (now : T) (sh sh' : CacheShard α V T) : Prop where
  order_eq : sh'.policy.order = sh.policy.order.filter fun k => k ∈ sh'.backend.keys
  expired : ∀ k e, sh.backend.getEntry k = some e → k ∉ sh'.backend.keys → e.isExpired now = true

section Reads

variable {sh sh' : CacheShard α V T} {now : T}

/-- A section that removed expired keys and did nothing else to order and keys. -/
theorem orderKept_of_removed (h : sh.Agrees) (removed : List (Key α))
    (hexpired : ∀ k ∈ removed, ∀ e, sh.backend.getEntry k = some e → e.isExpired now = true)
    (ho : sh'.policy.order = sh.policy.order.filter fun k => k ∉ removed)
    (hk : ∀ k, k ∈ sh'.backend.keys ↔ k ∉ removed ∧ k ∈ sh.backend.keys) : OrderKept now sh sh' where
  order_eq := by
    rw [ho]
    refine List.filter_congr fun k hmem => ?_
    simp only [hk, decide_eq_decide]
    exact ⟨fun hout => ⟨hout, (h.mem_iff k).mp hmem⟩, fun hin => hin.1⟩
  expired k e he hgone := by
    by_cases hmem : k ∈ removed
    · exact hexpired k hmem e he
    · exact absurd ((hk k).mpr ⟨hmem, InMemoryBackend.mem_keys_iff.mpr ⟨e, he⟩⟩) hgone

/-- Nothing happened to order and keys. -/
theorem orderKept_of_eq (h : sh.Agrees) (hp : sh'.policy = sh.policy)
    (hk : sh'.backend.keys = sh.backend.keys) : OrderKept now sh sh' :=
  orderKept_of_removed h [] (by simp) (by simp [hp]) (by simp [hk])

/-- A sequence of removals of expired keys. -/
theorem CacheShard.Agrees.orderKept_removeEntriesLocked (h : sh.Agrees) {removed : List (Key α)}
    (hexpired : ∀ k ∈ removed, ∀ e, sh.backend.getEntry k = some e → e.isExpired now = true) :
    OrderKept now sh (sh.removeEntriesLocked removed .expire).2 :=
  orderKept_of_removed h removed hexpired (h.order_removeEntriesLocked removed .expire)
    fun k => CacheShard.mem_keys_removeEntriesLocked sh k .expire removed

/-- A sweep. -/
theorem CacheShard.Agrees.orderKept_expireShard (h : sh.Agrees) : OrderKept now sh (sh.expireShard now).2 := by
  refine h.orderKept_removeEntriesLocked fun k hk e he => ?_
  obtain ⟨e', he', rfl⟩ := List.mem_map.mp hk
  obtain ⟨hmem, hx⟩ := List.mem_filter.mp he'
  rw [InMemoryBackend.mem_entryList.mp hmem] at he
  cases he
  exact hx

/-- The removal of one expired entry, with other things done to the shard. -/
theorem CacheShard.Agrees.orderKept_expire (h : sh.Agrees) {key : Key α} {e : CacheEntry α V T}
    (he : sh.backend.getEntry key = some e) (hx : e.isExpired now = true)
    (hp : sh'.policy = (sh.removeEntryLocked key .expire).2.policy)
    (hb : sh'.backend = (sh.removeEntryLocked key .expire).2.backend) : OrderKept now sh sh' := by
  have hkept : OrderKept now sh (sh.removeEntriesLocked [key] .expire).2 := by
    refine h.orderKept_removeEntriesLocked fun k hk e' he' => ?_
    rw [List.mem_singleton.mp hk, he] at he'
    cases he'
    exact hx
  rw [CacheShard.removeEntriesLocked_cons, CacheShard.removeEntriesLocked_nil] at hkept
  exact ⟨by rw [hp, hb]; exact hkept.order_eq, by rw [hb]; exact hkept.expired⟩

/-- Lazy expiration. -/
theorem CacheShard.Agrees.orderKept_dropExpired (h : sh.Agrees) (key : Key α) :
    OrderKept now sh (sh.dropExpired key now) := by
  unfold CacheShard.dropExpired
  split
  · exact orderKept_of_eq h rfl rfl
  · next e he =>
      split_ifs with hx
      · exact h.orderKept_expire he hx rfl rfl
      · exact orderKept_of_eq h rfl rfl

/-- A read that does not touch, or that the policy takes no notice of. -/
theorem CacheShard.Agrees.orderKept_readValueLocked (h : sh.Agrees) (key : Key α) {touch : Bool}
    (htouch : touch = false ∨ sh.policy.name = .fifo) :
    OrderKept now sh (sh.readValueLocked key touch true now).2 := by
  unfold CacheShard.readValueLocked
  cases he : sh.backend.getEntry key with
  | none => exact orderKept_of_eq h rfl rfl
  | some e =>
      simp only [if_true]
      split_ifs with hx ht
      · exact h.orderKept_expire he hx rfl rfl
      · have hkey : (e.touch now).key = key := sh.backend.keyed key e he
        have hmem : (e.touch now).key ∈ sh.backend.keys := hkey ▸ InMemoryBackend.mem_keys_iff.mpr ⟨e, he⟩
        have hfifo : sh.policy.name = .fifo := htouch.resolve_left (by simp [ht])
        refine orderKept_of_eq h (EvictionPolicy.onGet_of_fifo hfifo key) ?_
        exact OrderedDict.keys_set_of_mem hmem _
      · exact orderKept_of_eq h rfl rfl

/-- The first section of `get_or_compute`, under FIFO. -/
theorem CacheShard.Agrees.orderKept_getOrComputeLocked (h : sh.Agrees) (key : Key α) (fresh : ℕ)
    (hfifo : sh.policy.name = .fifo) : OrderKept now sh (sh.getOrComputeLocked key now fresh).2 := by
  have hread : OrderKept now sh (sh.readValueLocked key true true now).2 :=
    h.orderKept_readValueLocked key (.inr hfifo)
  unfold CacheShard.getOrComputeLocked
  simp only
  split
  · exact hread
  · split
    · exact hread
    · exact ⟨hread.order_eq, hread.expired⟩

end Reads

/-! ### Puts -/

/-- What a put of `key` that stores does to the other entries of a shard: it evicts one entry, exactly when
the key is new and the shard full, and that one has the least stamp. -/
structure PutEvicts (stamp : CacheEntry α V T → T) (key : Key α) (sh sh' : CacheShard α V T) : Prop where
  spared : ¬ (key ∉ sh.backend.keys ∧ sh.backend.size = sh.capacity) →
    sh'.stats.evictions = sh.stats.evictions ∧
      ∀ k, k ∈ sh'.backend.keys ↔ k = key ∨ k ∈ sh.backend.keys
  evicted : key ∉ sh.backend.keys → sh.backend.size = sh.capacity →
    ∃ v ∈ sh.backend.entryList, (∀ e ∈ sh.backend.entryList, stamp v ≤ stamp e) ∧ v.key ≠ key ∧
      sh'.stats.evictions = sh.stats.evictions + 1 ∧
      ∀ k, k ∈ sh'.backend.keys ↔ k = key ∨ k ∈ sh.backend.keys ∧ k ≠ v.key

namespace CacheShard

variable {name : PolicyName} {sh : CacheShard α V T} {now : T} {key : Key α}

/-- Lazy expiration is not counted as an eviction. -/
theorem dropExpired_evictions (sh : CacheShard α V T) (key : Key α) (now : T) :
    (sh.dropExpired key now).stats.evictions = sh.stats.evictions := by
  unfold dropExpired
  split
  · rfl
  · split_ifs
    · rw [removeEntryLocked_stats]
      split_ifs <;> rfl
    · rfl

/-- The keys of a shard with the key that is put, when nothing is evicted. -/
theorem mem_keys_stored_iff (cfg : CacheConfig T) (sh : CacheShard α V T) (key k : Key α) (value : V)
    (ttl : Ttl T) (now : T) :
    k ∈ (sh.stored cfg key value ttl now).backend.keys ↔ k = key ∨ k ∈ sh.backend.keys := by
  have hstored : k ∈ (sh.stored cfg key value ttl now).backend.keys ↔
      k = key ∨ k ∈ (sh.dropExpired key now).backend.keys := OrderedDict.mem_keys_set
  rw [hstored]
  refine or_congr_right' fun hne => ?_
  unfold dropExpired
  split
  · rfl
  · split_ifs
    · rw [removeEntryLocked_backend]
      simp [InMemoryBackend.keys, InMemoryBackend.deleteEntry, hne]
    · rfl

/-- The key is not resident: there is nothing to expire. -/
theorem dropExpired_of_notMem (hk : key ∉ sh.backend.keys) : sh.dropExpired key now = sh := by
  have hnone : sh.backend.getEntry key = none := OrderedDict.get?_eq_none_iff.mpr hk
  simp only [dropExpired, hnone]

/-- The key is resident: after lazy expiration there is room for it. -/
theorem room_of_mem (hk : key ∈ sh.backend.keys) (hle : sh.backend.size ≤ sh.capacity) :
    (sh.dropExpired key now).backend.size +
        (if key ∈ (sh.dropExpired key now).backend.keys then 0 else 1) ≤ sh.capacity := by
  obtain ⟨e, he⟩ := InMemoryBackend.mem_keys_iff.mp hk
  simp only [dropExpired, he]
  split_ifs with hx hmem
  · rw [removeEntryLocked_backend] at hmem
    simp [InMemoryBackend.keys, InMemoryBackend.deleteEntry] at hmem
  · rw [removeEntryLocked_backend]
    exact (OrderedDict.size_erase_of_mem hk).trans_le hle
  · exact hle

/-- The victims of a put that needs no room. -/
theorem victims_of_room (cfg : CacheConfig T) (value : V) (ttl : Ttl T)
    (hle : sh.backend.size ≤ sh.capacity) (h : ¬ (key ∉ sh.backend.keys ∧ sh.backend.size = sh.capacity)) :
    (sh.stored cfg key value ttl now).victims = [] := by
  have hcap := (tended_dropExpired sh key now).capacity_eq
  rw [victims_stored, putVictims, hcap]
  have hroom : (sh.dropExpired key now).backend.size +
      (if key ∈ (sh.dropExpired key now).backend.keys then 0 else 1) ≤ sh.capacity := by
    by_cases hk : key ∈ sh.backend.keys
    · exact room_of_mem hk hle
    · have hne : sh.backend.size ≠ sh.capacity := fun heq => h ⟨hk, heq⟩
      rw [dropExpired_of_notMem hk, if_neg hk]
      omega
  rw [Nat.sub_eq_zero_of_le hroom, List.take_zero]

/-- The victim of a put of a new key into a full shard: the first of the listed entries. -/
theorem Timely.victims_of_full (h : sh.Timely name now) (hname : name = .lru ∨ name = .fifo)
    (cfg : CacheConfig T) (value : V) (ttl : Ttl T) (hpos : 0 < sh.capacity)
    (hproper : none ∉ sh.backend.keys) (hk : key ∉ sh.backend.keys)
    (hfull : sh.backend.size = sh.capacity) :
    ∃ v rest, sh.listed = v :: rest ∧ (sh.stored cfg key value ttl now).victims = [v.key] := by
  have hkeys := h.agrees.map_key_listed
  have hlen := h.agrees.length_order
  cases hl : sh.listed with
  | nil =>
      rw [hl, List.map_nil] at hkeys
      rw [← hkeys, List.length_nil] at hlen
      omega
  | cons v rest =>
      refine ⟨v, rest, rfl, ?_⟩
      rw [hl, List.map_cons] at hkeys
      have hkorder : key ∉ sh.policy.order := fun hmem => hk ((h.agrees.mem_iff key).mp hmem)
      have hv : v.key.isSome = true := by
        refine Option.isSome_iff_ne_none.mpr fun hnone => hproper ?_
        rw [← h.agrees.mem_iff, ← hkeys, hnone]
        exact List.mem_cons_self
      rw [victims_stored, putVictims, dropExpired_of_notMem hk, if_neg hk, hfull,
        EvictionPolicy.order_onPut_of_new (h.kind.symm ▸ hname) hkorder, ← hkeys]
      have hone : sh.capacity + 1 - sh.capacity = 1 := by omega
      rw [hone, List.cons_append, List.takeWhile_cons_of_pos hv]
      rfl

/-- **A put evicts an entry with the least stamp**, and only when it has to. -/
theorem Timely.putEvicts (h : sh.Timely name now) (hname : name = .lru ∨ name = .fifo)
    {stamp : CacheEntry α V T → T} (hstamp : (sh.listed.map stamp).Pairwise (· ≤ ·))
    (cfg : CacheConfig T) (value : V) (ttl : Ttl T) (hpos : 0 < sh.capacity)
    (hproper : none ∉ sh.backend.keys) (hle : sh.backend.size ≤ sh.capacity) :
    PutEvicts stamp key sh (sh.fitted cfg key value ttl now) where
  spared hroom := by
    have hnil : (sh.stored cfg key value ttl now).victims = [] := victims_of_room cfg value ttl hle hroom
    refine ⟨?_, fun k => ?_⟩
    · rw [fitted, hnil, removeEntriesLocked_nil]
      exact dropExpired_evictions sh key now
    · rw [mem_keys_fitted, hnil, mem_keys_stored_iff]
      simp
  evicted hk hfull := by
    obtain ⟨v, rest, hl, hvictims⟩ := h.victims_of_full hname cfg value ttl hpos hproper hk hfull
    have hmem : v ∈ sh.backend.entryList := h.agrees.mem_listed.mp (by rw [hl]; exact List.mem_cons_self)
    have hvkey : v.key ∈ sh.backend.keys :=
      InMemoryBackend.mem_keys_iff.mpr ⟨v, InMemoryBackend.mem_entryList.mp hmem⟩
    have hne : v.key ≠ key := fun heq => hk (heq ▸ hvkey)
    refine ⟨v, hmem, fun e he => ?_, hne, ?_, fun k => ?_⟩
    · rw [← h.agrees.mem_listed, hl] at he
      rw [hl, List.map_cons, List.pairwise_cons] at hstamp
      rcases List.mem_cons.mp he with rfl | hrest
      · exact le_rfl
      · exact hstamp.1 _ (List.mem_map.mpr ⟨e, hrest, rfl⟩)
    · have hstored : v.key ∈ (sh.stored cfg key value ttl now).backend.keys :=
        (mem_keys_stored_iff cfg sh key v.key value ttl now).mpr (.inr hvkey)
      rw [fitted, hvictims, removeEntriesLocked_cons, removeEntriesLocked_nil, removeEntryLocked_stats,
        if_pos (InMemoryBackend.mem_keys_iff_isSome.mp hstored)]
      exact congrArg (· + 1) (dropExpired_evictions sh key now)
    · rw [mem_keys_fitted, hvictims, mem_keys_stored_iff, List.mem_singleton]
      constructor
      · rintro ⟨hkv, rfl | hkk⟩
        · exact .inl rfl
        · exact .inr ⟨hkk, hkv⟩
      · rintro (rfl | ⟨hkk, hkv⟩)
        · exact ⟨fun heq => hne heq.symm, .inl rfl⟩
        · exact ⟨hkv, .inr hkk⟩

end CacheShard

/-! ### Runs -/

/-- Order and stamps of every shard agree. -/
def System.Timely (s : System α V cfg) : Prop :=
  ∀ i, (s.shared.shards i).Timely cfg.policy s.shared.now

/-- A bookkeeping section keeps the agreement. -/
theorem Bookkeeping.timely {name : PolicyName} {now : T} {sh sh' : CacheShard α V T} (h : Bookkeeping sh sh')
    (ht : sh.Timely name now) : sh'.Timely name now := by
  cases h with
  | resolve key => exact ht.resolvePendingLocked key
  | clearPending key => exact ht.clearPendingFlushesLocked key
  | markClean job => exact ht.markCleanLocked job
  | finalize job => exact (ht.markCleanLocked job).resolvePendingLocked job.key
  | register jobs => exact ht.registerAll jobs
  | unregister key => exact ht.of_eq rfl rfl

/-- Every section keeps the agreement. -/
theorem ShardStep.timely {c : Choice α V} {s : Shared α V cfg} {th : Thread α V T} {i : Fin cfg.shardCount}
    {sh' : CacheShard α V T} (h : ShardStep hash c s th i sh') {name : PolicyName}
    (ht : (s.shards i).Timely name s.now) : sh'.Timely name s.now := by
  cases h with
  | get key caller hth => exact ht.readValueLocked key true true
  | contains key caller hth => exact ht.readValueLocked key false true
  | inspect key caller hth => exact ht.dropExpired key
  | put key value ttl caller hth => exact ht.putLocked _ _ key value ttl _
  | delete key caller hth => exact ht.deleteLocked _ _ key _
  | getOrCompute key ttl caller hth => exact ht.getOrComputeLocked key _
  | restore key n caller hth => exact ht.restoreEntryMetadata key n
  | clear i ts hth => exact ht.clearLocked _ _ _
  | dump i taken limit hth =>
      rw [CacheShard.dumpLocked_snd]
      exact ht.expireShard
  | expire i hth => exact ht.expireShard
  | book i sh' hbook => exact hbook.timely ht

/-- A step of a thread takes no time. -/
theorem Effect.now_eq {c : Choice α V} {s s' : Shared α V cfg} {th : Thread α V T}
    {after : List (WriteBehind.Stage × Ticket α V)} (h : Effect hash c s th s' after) : s'.now = s.now := by
  cases h with
  | tend i htend hnow => exact hnow
  | put key value ttl caller hth hsame => exact hsame.now_eq
  | delete key ok hth hsame => exact hsame.now_eq
  | clear i ok ts hth hsame => exact hsame.now_eq
  | check t hth i hi hst hsame => exact hsame.now_eq
  | skip t hth hrel i hi hst hsame => exact hsame.now_eq
  | apply t hth hok hsame => exact hsame.now_eq
  | fail t hth hsame => exact hsame.now_eq
  | giveUp ts hth hgive hsame => exact hsame.now_eq
  | release t ts hth hrel i hi hsame => exact hsame.now_eq
  | settle t hth hrel i hi hsame => exact hsame.now_eq
  | collect i hth hwb hsame => exact hsame.now_eq

/-- See `Effect.now_eq`. -/
theorem Base.now_eq {s : System α V cfg} (hb : Base hash s) {i : ℕ} {c : Choice α V} {th th' : Thread α V T}
    {s' : Shared α V cfg} (hi : s.threads[i]? = some th)
    (hstep : threadStep hash s.shared c th = some (s', th')) : s'.now = s.shared.now := by
  have hmem := List.mem_of_getElem? hi
  rcases threadStep_effect hstep (hb.threads th hmem).2 (hb.flushing_mode hmem) with
    ⟨-, heffect⟩ | ⟨-, hwound, -⟩
  · exact heffect.now_eq
  · exact hwound.now_eq

/-- One step keeps the agreement of order and stamps. -/
theorem System.Timely.step {s s' : System α V cfg} {l : Label α V T} (h : s.Timely) (hb : Base hash s)
    (hs : step cfg hash s l = some s') : s'.Timely := by
  intro j
  rcases step_cases hs with ⟨now, rfl, hle, rfl⟩ | ⟨new, -, hsame, -⟩ | ⟨i, c, th, th', -, hi, hstep, -⟩
  · exact (h j).mono hle
  · rw [hsame.shards_eq, hsame.now_eq]
    exact h j
  · rw [hb.now_eq hi hstep]
    rcases threadStep_shards hstep with heq | ⟨i', sh', heq, hsection⟩
    · rw [heq]
      exact h j
    · rw [heq]
      by_cases hj : j = i'
      · subst hj
        rw [Function.update_self]
        exact hsection.timely (h j)
      · rw [Function.update_of_ne hj]
        exact h j

/-- **Order and stamps agree along every run.** -/
theorem timely_exec {now : T} {src : Source α V} {ls : List (Label α V T)} {s : System α V cfg}
    (h : exec cfg hash (initial cfg now src) ls = some s) : s.Timely := by
  have hstep : ∀ (s : System α V cfg) l s', step cfg hash s l = some s' → Base hash s ∧ s.Timely →
      Base hash s' ∧ s'.Timely := fun _ _ _ hs hinv => ⟨hinv.1.step hs, hinv.2.step hinv.1 hs⟩
  refine (Transition.run_invariant_of_step hstep h ⟨base_initial cfg hash now src, fun i => ?_⟩).2
  exact CacheShard.timely_of_empty (EvictionPolicy.name_makePolicy _) (ShardOk.newShard cfg hash i).agrees
    (EvictionPolicy.order_makePolicy _)

/-- With no key `None` in sight no put overflows its shard. -/
theorem overflows_eq_false {s : System α V cfg} (hb : Base hash s) (hkeys : KeysHave (· ≠ none) s)
    (l : Label α V T) : overflows hash s l = false := by
  cases l with
  | run i c =>
      rw [← Bool.not_eq_true]
      intro hover
      cases hi : s.threads[i]? with
      | none => simp [overflows, hi] at hover
      | some th =>
          by_cases hput : ∃ key value ttl caller, th = .running (.put key value ttl) caller
          · obtain ⟨key, value, ttl, caller, rfl⟩ := hput
            obtain ⟨-, -, -, hnone⟩ := (overflows_put_iff hi).mp hover
            have hdrop := CacheShard.tended_dropExpired (s.shared.home hash key) key s.shared.now
            have hagrees := hdrop.agrees (hb.shards _).agrees
            rw [(hagrees.wf.onPut key).evictCandidate_eq] at hnone
            -- the order is not empty, and its head is a proper key
            have hmem : key ∈ (((s.shared.home hash key).dropExpired key s.shared.now).policy.onPut key).order :=
              hagrees.wf.mem_order_onPut.mpr (.inl rfl)
            cases horder : (((s.shared.home hash key).dropExpired key s.shared.now).policy.onPut key).order with
            | nil =>
                rw [horder] at hmem
                cases hmem
            | cons k rest =>
                rw [horder] at hnone
                have hk : k = none := by simpa using hnone
                subst hk
                have hhead := hagrees.wf.mem_order_onPut.mp (horder ▸ List.mem_cons_self)
                rcases hhead with hkey | hold
                · exact hkeys.stores none (.inl ⟨_, List.mem_of_getElem? hi, by rw [hkey]; rfl⟩) rfl
                · exact hkeys.keys _ none (hdrop.mem_keys ((hagrees.mem_iff none).mp hold)) rfl
          · rw [overflows_of_ne hi fun key value ttl caller hth => hput ⟨key, value, ttl, caller, hth⟩] at hover
            cases hover
  | _ => rfl

/-- A run that stores no key `None` stays within bounds. -/
theorem bounded_exec {now : T} {src : Source α V} {ls : List (Label α V T)} {s : System α V cfg}
    (hls : ∀ l ∈ ls, l.stores ≠ some none) (h : exec cfg hash (initial cfg now src) ls = some s) :
    Bounded s := by
  have hnone : ∀ l ∈ ls, ∀ k, l.stores = some k → k ≠ none := fun l hl k hk hkn => hls l hl (hkn ▸ hk)
  refine (capacity_bound_iff cfg hash now src ls).mpr ?_ ls s (List.prefix_refl ls) h
  have hstep : ∀ (s : System α V cfg) l s', (∀ k, l.stores = some k → k ≠ none) →
      step cfg hash s l = some s' → Base hash s ∧ KeysHave (· ≠ none) s →
      Base hash s' ∧ KeysHave (· ≠ none) s' :=
    fun _ _ _ hl hs hinv => ⟨hinv.1.step hs, hinv.2.step hinv.1 hl hs⟩
  have hfits : ∀ (s : System α V cfg) (l : Label α V T), (∀ k, l.stores = some k → k ≠ none) →
      Base hash s ∧ KeysHave (· ≠ none) s → overflows hash s l = false :=
    fun _ l _ hinv => overflows_eq_false hinv.1 hinv.2 l
  exact Transition.along_of_invariant hstep hfits hnone
    ⟨base_initial cfg hash now src, keysHave_initial _ now src⟩

/-! ### The main result -/

/-- A thread that is about to look at a shard without counting a use: in `contains`, `inspect` or `dump`, or
in any read when the policy is FIFO. -/
inductive Thread.Looks (cfg : AcceptedConfig T) : Thread α V T → Prop
  | contains (key : Key α) (caller : Caller α V T) : Looks cfg (.running (.contains key) caller)
  | inspect (key : Key α) (caller : Caller α V T) : Looks cfg (.running (.inspect key) caller)
  | dump (i : ℕ) (taken : List (EntrySnapshot α V T)) (limit : Option ℤ) : Looks cfg (.dumping i taken limit)
  | get (hfifo : cfg.policy = .fifo) (key : Key α) (caller : Caller α V T) :
      Looks cfg (.running (.get key) caller)
  | getOrCompute (hfifo : cfg.policy = .fifo) (key : Key α) (ttl : Ttl T) (caller : Caller α V T) :
      Looks cfg (.running (.getOrCompute key ttl) caller)

/-- Victims match stamps in the state `s` and in every step from it. -/
structure VictimsMatch (hash : Key α → ℕ) (s : System α V cfg) : Prop where
  /-- Under LRU the order lists the resident entries by their last access. -/
  lru : cfg.policy = .lru → ∀ i, (s.shared.shards i).listed.Perm (s.shared.shards i).backend.entryList ∧
    ((s.shared.shards i).listed.map CacheEntry.lastAccessedAt).Pairwise (· ≤ ·)
  /-- Under FIFO the order lists the resident entries by their creation, which is the order of the store. -/
  fifo : cfg.policy = .fifo → ∀ i, (s.shared.shards i).listed = (s.shared.shards i).backend.entryList ∧
    ((s.shared.shards i).listed.map CacheEntry.createdAt).Pairwise (· ≤ ·)
  /-- Looking keeps the order. -/
  looks : ∀ (t : ℕ) (c : Choice α V) (th : Thread α V T) (s' : System α V cfg), s.threads[t]? = some th →
    th.Looks cfg → step cfg hash s (.run t c) = some s' →
    ∀ i, OrderKept s.shared.now (s.shared.shards i) (s'.shared.shards i)
  /-- A put evicts the least stamp, and only when it has to; a put that raises evicts nothing. -/
  put : ∀ (t : ℕ) (c : Choice α V) (key : Key α) (value : V) (ttl : Ttl T) (caller : Caller α V T)
    (s' : System α V cfg), s.threads[t]? = some (Thread.running (.put key value ttl) caller) →
    step cfg hash s (.run t c) = some s' →
    if cfg.writeMode = .writeThrough ∧ c.ok key = false then
      (s'.shared.home hash key).stats.evictions = (s.shared.home hash key).stats.evictions
    else
      (cfg.policy = .lru → PutEvicts CacheEntry.lastAccessedAt key (s.shared.home hash key)
        (s'.shared.home hash key)) ∧
      (cfg.policy = .fifo → PutEvicts CacheEntry.createdAt key (s.shared.home hash key)
        (s'.shared.home hash key))

/-- A section on one shard that keeps its order keeps all orders. -/
theorem orderKept_setShard {s : Shared α V cfg} (ha : ∀ i, (s.shards i).Agrees) {i : Fin cfg.shardCount}
    {sh' : CacheShard α V T} (h : OrderKept s.now (s.shards i) sh') (j : Fin cfg.shardCount) :
    OrderKept s.now (s.shards j) ((s.setShard i sh').shards j) := by
  show OrderKept s.now (s.shards j) (Function.update s.shards i sh' j)
  by_cases hj : j = i
  · subst hj
    rw [Function.update_self]
    exact h
  · rw [Function.update_of_ne hj]
    exact orderKept_of_eq (ha j) rfl rfl

/-- Looking keeps the order. -/
theorem orderKept_of_looks {s s' : Shared α V cfg} {c : Choice α V} {th th' : Thread α V T}
    (ht : ∀ i, (s.shards i).Timely cfg.policy s.now) (hlooks : th.Looks cfg)
    (h : threadStep hash s c th = some (s', th')) (j : Fin cfg.shardCount) :
    OrderKept s.now (s.shards j) (s'.shards j) := by
  have ha : ∀ i, (s.shards i).Agrees := fun i => (ht i).agrees
  cases hlooks with
  | contains key caller =>
      obtain ⟨rfl, -⟩ := Prod.mk.inj (Option.some.inj h)
      exact orderKept_setShard ha ((ha _).orderKept_readValueLocked key (.inl rfl)) j
  | inspect key caller =>
      obtain ⟨rfl, -⟩ := Prod.mk.inj (Option.some.inj h)
      exact orderKept_setShard ha ((ha _).orderKept_dropExpired key) j
  | dump i taken limit =>
      simp only [threadStep, clientStep] at h
      split_ifs at h with hi
      · obtain ⟨rfl, -⟩ := Prod.mk.inj (Option.some.inj h)
        refine orderKept_setShard ha ?_ j
        rw [CacheShard.dumpLocked_snd]
        exact (ha _).orderKept_expireShard
      · obtain ⟨rfl, -⟩ := Prod.mk.inj (Option.some.inj h)
        exact orderKept_of_eq (ha j) rfl rfl
  | get hfifo key caller =>
      obtain ⟨rfl, -⟩ := Prod.mk.inj (Option.some.inj h)
      have hkind := (ht (shardFor cfg hash key)).kind.trans hfifo
      exact orderKept_setShard ha ((ha _).orderKept_readValueLocked key (.inr hkind)) j
  | getOrCompute hfifo key ttl caller =>
      have hkind := (ht (shardFor cfg hash key)).kind.trans hfifo
      have hkept := orderKept_setShard ha ((ha _).orderKept_getOrComputeLocked key s.flights.length hkind) j
      simp only [threadStep, clientStep] at h
      split at h <;> cases h <;> exact hkept

/-- Every shard has room for an entry. -/
theorem ShardOk.capacity_pos {i : Fin cfg.shardCount} {sh : CacheShard α V T} (h : ShardOk cfg hash i sh) :
    0 < sh.capacity := by
  rw [h.capacity_eq, getD_shardCapacities]
  have hdiv : 0 < cfg.capacity / cfg.shardCount :=
    Nat.div_pos cfg.shardCount_le_capacity cfg.shardCount_pos
  omega

/-- A put that stores, in a state of a run without the key `None`. -/
theorem putEvicts_of_step {s : System α V cfg} {sh' : CacheShard α V T} {c : Choice α V} {key : Key α}
    {value : V} {ttl : Ttl T} (hb : Base hash s) (ht : s.Timely) (hbound : Bounded s)
    (hkeys : KeysHave (· ≠ none) s) (hok : ¬ (cfg.writeMode = .writeThrough ∧ c.ok key = false))
    (hsh' : sh' = ((s.shared.home hash key).putLocked cfg.toCacheConfig s.shared.source key value ttl
      s.shared.now (c.ok key)).shard) :
    (cfg.policy = .lru → PutEvicts CacheEntry.lastAccessedAt key (s.shared.home hash key) sh') ∧
      (cfg.policy = .fifo → PutEvicts CacheEntry.createdAt key (s.shared.home hash key) sh') := by
  set i := shardFor cfg hash key with hi
  have hproper : none ∉ (s.shared.shards i).backend.keys := fun hnone => hkeys.keys i none hnone rfl
  have hpos := (hb.shards i).capacity_pos
  have hfit : ∀ stamp : CacheEntry α V T → T,
      PutEvicts stamp key (s.shared.home hash key)
        ((s.shared.home hash key).fitted cfg.toCacheConfig key value ttl s.shared.now) →
      PutEvicts stamp key (s.shared.home hash key) sh' := by
    intro stamp hevicts
    rw [hsh', (hb.shards i).agrees.putLocked_eq _ _ _ _ _ hok]
    simp only
    split_ifs
    · exact ⟨hevicts.spared, hevicts.evicted⟩
    · exact hevicts
  refine ⟨fun hlru => hfit _ ?_, fun hfifo => hfit _ ?_⟩
  · exact (ht i).putEvicts (.inl hlru) ((ht i).lru hlru) _ value ttl hpos hproper (hbound.1 i)
  · exact (ht i).putEvicts (.inr hfifo) ((ht i).fifo hfifo).2 _ value ttl hpos hproper (hbound.1 i)

/-- **Victims match stamps** in every state of every run that stores no key `None`. -/
theorem victims_match_stamps {now : T} {src : Source α V} {ls : List (Label α V T)} {s : System α V cfg}
    (h : exec cfg hash (initial cfg now src) ls = some s) (hls : ∀ l ∈ ls, l.stores ≠ some none) :
    VictimsMatch hash s := by
  have hb := base_exec h
  have ht := timely_exec h
  have hbound := bounded_exec hls h
  have hkeys : KeysHave (· ≠ none) s := keysHave_exec (fun l hl k hk hnone => hls l hl (hnone ▸ hk)) h
  refine ⟨fun hlru i => ⟨(ht i).agrees.listed_perm, (ht i).lru hlru⟩, fun hfifo i => ?_, ?_, ?_⟩
  · exact ⟨CacheShard.listed_of_order_eq ((ht i).fifo hfifo).1, ((ht i).fifo hfifo).2⟩
  · intro t c th s' hth hlooks hs i
    obtain ⟨th₀, hth₀, hstep⟩ := Option.bind_eq_some_iff.mp hs
    rw [hth] at hth₀
    cases hth₀
    obtain ⟨⟨s₁, th'⟩, hr, rfl⟩ := Option.map_eq_some_iff.mp hstep
    exact orderKept_of_looks ht hlooks hr i
  · intro t c key value ttl caller s' hth hs
    obtain ⟨th₀, hth₀, hstep⟩ := Option.bind_eq_some_iff.mp hs
    rw [hth] at hth₀
    cases hth₀
    obtain ⟨⟨s₁, th'⟩, hr, rfl⟩ := Option.map_eq_some_iff.mp hstep
    obtain ⟨hsame, -⟩ := threadStep_put hr
    have hhome : s₁.home hash key = ((s.shared.home hash key).putLocked cfg.toCacheConfig s.shared.source key
        value ttl s.shared.now (c.ok key)).shard := by
      rw [Shared.home, hsame.shards_eq]
      exact Function.update_self _ _ _
    split_ifs with hok
    · rw [hhome, CacheShard.putLocked_of_raised _ _ _ _ _ _ hok]
      exact CacheShard.dropExpired_evictions _ key _
    · exact putEvicts_of_step hb ht hbound hkeys hok hhome

/-- An entry is put at time 0 and read at time 1; then a put of another key is about to store. -/
def readThenPut : List (Label ℕ ℕ ℕ) :=
  [.call (.put (some 1) 5 .unset), .run 0 {}, .run 0 {}, .tick 1, .call (.get (some 1)), .run 1 {}, .run 1 {},
    .call (.put (some 2) 6 .unset), .run 2 {}]

theorem victims_match_stamps_readThenPut :
    ∃ s : System ℕ ℕ (oneEntry .lru .cacheOnly 0 0 0),
      exec _ (fun _ => 0) (initial _ 0 .empty) readThenPut = some s ∧
        (s.shared.home (fun _ => 0) (some 1)).listed.map CacheEntry.lastAccessedAt = [1] ∧
        VictimsMatch (fun _ => 0) s := by
  have heval : ((exec (oneEntry .lru .cacheOnly 0 0 0) (fun _ => 0) (initial _ 0 .empty)
      readThenPut).map fun s : System ℕ ℕ (oneEntry .lru .cacheOnly 0 0 0) =>
        decide ((s.shared.home (fun _ => 0) (some 1)).listed.map CacheEntry.lastAccessedAt = [1])) =
      some true := by decide +kernel
  obtain ⟨s, hs, hlisted⟩ := Option.map_eq_some_iff.mp heval
  exact ⟨s, hs, of_decide_eq_true hlisted, victims_match_stamps hs (by decide)⟩

end CacheLab
