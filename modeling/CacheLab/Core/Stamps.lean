import CacheLab.Core.Ledger

/-!
# Stamps and the eviction order

The eviction order of a shard lives in its policy, the stamps `created_at` and `last_accessed_at` in its
entries. Under LRU and FIFO the two agree (`Timely`): the order lists the entries by the stamp that the
policy stands for, and under FIFO it is the order of the store itself.

Each lock section keeps the agreement. What a section does to it is one of four things: it leaves order and
stamps alone (`Timely.of_same`), removes an entry (`Timely.removeEntryLocked`), touches one
(`Timely.touch`) or stores one (`Timely.storeLocked`). A touch and a store stamp with the time of the
section, which is no earlier than any stamp there is, and both move the key to the end of an LRU order.
-/

set_option linter.unusedSectionVars false

namespace CacheLab

variable {α V T : Type} [DecidableEq α] [LinearOrder T] [Zero T] [Add T]

/-! ### The kind of a policy -/

namespace EvictionPolicy

variable {p : EvictionPolicy α}

/-- A FIFO policy takes no notice of reads. -/
theorem onGet_of_fifo (h : p.name = .fifo) (key : Key α) : p.onGet key = p := by
  cases p with
  | fifo p => rfl
  | lru p => cases h
  | lfu p => cases h

/-- A FIFO policy takes no notice of a write to a key that it tracks. -/
theorem onPut_of_fifo (h : p.name = .fifo) {key : Key α} (hk : key ∈ p.order) : p.onPut key = p := by
  cases p with
  | fifo p => simp only [onPut, FIFOPolicy.onPut, if_pos (show key ∈ p.order.keys from hk)]
  | lru p => cases h
  | lfu p => cases h

/-- A FIFO policy appends a key that it does not track. -/
theorem order_onPut_of_fifo (h : p.name = .fifo) {key : Key α} (hk : key ∉ p.order) :
    (p.onPut key).order = p.order ++ [key] := by
  cases p with
  | fifo p =>
      simp only [onPut, order, FIFOPolicy.onPut, if_neg (show key ∉ p.order.keys from hk)]
      exact OrderedDict.keys_set_of_notMem hk ()
  | lru p => cases h
  | lfu p => cases h

/-- An LRU or FIFO policy appends a key that it does not track. -/
theorem order_onPut_of_new (h : p.name = .lru ∨ p.name = .fifo) {key : Key α} (hk : key ∉ p.order) :
    (p.onPut key).order = p.order ++ [key] := by
  rcases h with hlru | hfifo
  · rw [order_onPut_of_lru hlru]
    congr 1
    refine List.filter_eq_self.mpr fun k hk' => ?_
    have hne : k ≠ key := fun heq => hk (heq ▸ hk')
    simpa using hne
  · exact order_onPut_of_fifo hfifo hk

/-- New keys that are put one after another stand in this order, under LRU and FIFO. -/
theorem order_foldl_onPut (h : p.name = .lru ∨ p.name = .fifo) {keys : List (Key α)} (hnd : (p.order ++ keys).Nodup) :
    (keys.foldl onPut p).name = p.name ∧ (keys.foldl onPut p).order = p.order ++ keys := by
  induction keys generalizing p with
  | nil => exact ⟨rfl, (List.append_nil _).symm⟩
  | cons key keys ih =>
      have hkey : key ∉ p.order := fun hmem => (List.nodup_append.mp hnd).2.2 key hmem key List.mem_cons_self rfl
      have horder := order_onPut_of_new h hkey
      have hrest := ih (p := p.onPut key) (by rwa [name_onPut]) (by rwa [horder, ← List.append_cons])
      rw [horder, ← List.append_cons, name_onPut] at hrest
      exact hrest

end EvictionPolicy

/-- The two stamps of an entry. -/
def CacheEntry.stamps (e : CacheEntry α V T) : T × T := (e.createdAt, e.lastAccessedAt)

namespace CacheShard

variable {name : PolicyName} {sh sh' : CacheShard α V T} {now : T}

/-! ### The listed entries -/

/-- The resident entries, next victim first. -/
def listed (sh : CacheShard α V T) : List (CacheEntry α V T) :=
  sh.policy.order.filterMap sh.backend.getEntry

/-- The list of stamps depends on the order and on the stamps. -/
theorem map_listed_congr {f : CacheEntry α V T → T} (ho : sh'.policy.order = sh.policy.order)
    (hf : ∀ k, (sh'.backend.getEntry k).map f = (sh.backend.getEntry k).map f) :
    sh'.listed.map f = sh.listed.map f := by
  unfold listed
  rw [List.map_filterMap, List.map_filterMap, ho]
  exact List.filterMap_congr fun k _ => hf k

/-- The listed entries are the stored ones. -/
theorem Agrees.mem_listed (h : sh.Agrees) {e : CacheEntry α V T} :
    e ∈ sh.listed ↔ e ∈ sh.backend.entryList := by
  rw [listed, List.mem_filterMap, InMemoryBackend.mem_entryList]
  constructor
  · rintro ⟨k, -, hk⟩
    rwa [sh.backend.keyed k e hk]
  · intro he
    exact ⟨e.key, (h.mem_iff _).mpr (InMemoryBackend.mem_keys_iff.mpr ⟨e, he⟩), he⟩

/-- The keys of the listed entries are the eviction order. -/
theorem Agrees.map_key_listed (h : sh.Agrees) : sh.listed.map CacheEntry.key = sh.policy.order := by
  unfold listed
  rw [List.map_filterMap]
  have hkey : ∀ k ∈ sh.policy.order, (sh.backend.getEntry k).map CacheEntry.key = some k := by
    intro k hk
    obtain ⟨e, he⟩ := InMemoryBackend.mem_keys_iff.mp ((h.mem_iff k).mp hk)
    rw [he, Option.map_some, sh.backend.keyed k e he]
  rw [List.filterMap_congr hkey, List.filterMap_some]

/-- The listed entries are the stored ones, in some order. -/
theorem Agrees.listed_perm (h : sh.Agrees) : sh.listed.Perm sh.backend.entryList := by
  have hlisted : sh.listed.Nodup := by
    refine List.Nodup.of_map CacheEntry.key ?_
    rw [h.map_key_listed]
    exact h.wf.nodup_order
  have hstored : sh.backend.entryList.Nodup := by
    refine List.Nodup.of_map CacheEntry.key ?_
    rw [sh.backend.map_key_entryList]
    exact sh.backend.entries.keys_nodup
  exact (List.perm_ext_iff_of_nodup hlisted hstored).mpr fun e => h.mem_listed

/-- When the order is that of the store, the listed entries are the stored ones in their order. -/
theorem listed_of_order_eq (h : sh.policy.order = sh.backend.keys) : sh.listed = sh.backend.entryList := by
  have hget : ∀ e ∈ sh.backend.entryList, sh.backend.getEntry e.key = some e :=
    fun e he => InMemoryBackend.mem_entryList.mp he
  unfold listed
  rw [h, ← sh.backend.map_key_entryList, List.filterMap_map]
  exact (List.filterMap_congr hget).trans List.filterMap_some

/-- The listed entries after the key of one of them went to the end, with a new entry. -/
theorem listed_of_last {key : Key α} {e : CacheEntry α V T}
    (ho : sh'.policy.order = sh.policy.order.filter (fun k => k ≠ key) ++ [key])
    (hget : ∀ k, sh'.backend.getEntry k = if k = key then some e else sh.backend.getEntry k) :
    sh'.listed = (sh.policy.order.filter fun k => k ≠ key).filterMap sh.backend.getEntry ++ [e] := by
  unfold listed
  rw [ho, List.filterMap_append]
  congr 1
  · refine List.filterMap_congr fun k hk => ?_
    rw [hget, if_neg (by simpa using (List.mem_filter.mp hk).2)]
  · simp [hget]

/-! ### Order and stamps agree -/

/-- Order and stamps of a shard with a policy of the given name agree, and no stamp is later than `now`. -/
structure Timely (name : PolicyName) (now : T) (sh : CacheShard α V T) : Prop where
  kind : sh.policy.name = name
  agrees : sh.Agrees
  past : ∀ k e, sh.backend.getEntry k = some e → e.createdAt ≤ now ∧ e.lastAccessedAt ≤ now
  lru : name = .lru → (sh.listed.map CacheEntry.lastAccessedAt).Pairwise (· ≤ ·)
  fifo : name = .fifo →
    sh.policy.order = sh.backend.keys ∧ (sh.listed.map CacheEntry.createdAt).Pairwise (· ≤ ·)

/-- A shard that holds nothing. -/
theorem timely_of_empty (hkind : sh.policy.name = name) (hagrees : sh.Agrees)
    (ho : sh.policy.order = []) : sh.Timely name now := by
  have hnil : sh.listed = [] := by rw [listed, ho, List.filterMap_nil]
  have hkeys : sh.backend.keys = [] := by
    refine List.eq_nil_iff_forall_not_mem.mpr fun k hk => ?_
    rw [← hagrees.mem_iff, ho] at hk
    cases hk
  refine ⟨hkind, hagrees, fun k e he => ?_, fun _ => by simp [hnil],
    fun _ => ⟨by rw [ho, hkeys], by simp [hnil]⟩⟩
  have hk := InMemoryBackend.mem_keys_iff.mpr ⟨e, he⟩
  rw [hkeys] at hk
  cases hk

/-- Time goes on. -/
theorem Timely.mono (h : sh.Timely name now) {now' : T} (hle : now ≤ now') : sh.Timely name now' where
  kind := h.kind
  agrees := h.agrees
  past k e he := ⟨(h.past k e he).1.trans hle, (h.past k e he).2.trans hle⟩
  lru := h.lru
  fifo := h.fifo

/-- Order and stamps are as they were. -/
theorem Timely.of_same (h : sh.Timely name now) (hp : sh'.policy = sh.policy)
    (hk : sh'.backend.keys = sh.backend.keys)
    (hs : ∀ k, (sh'.backend.getEntry k).map CacheEntry.stamps =
      (sh.backend.getEntry k).map CacheEntry.stamps) : sh'.Timely name now := by
  have ho : sh'.policy.order = sh.policy.order := by rw [hp]
  have hsnd : ∀ k, (sh'.backend.getEntry k).map CacheEntry.lastAccessedAt =
      (sh.backend.getEntry k).map CacheEntry.lastAccessedAt := fun k => by
    have hmap := congrArg (Option.map Prod.snd) (hs k)
    rw [Option.map_map, Option.map_map] at hmap
    exact hmap
  have hfst : ∀ k, (sh'.backend.getEntry k).map CacheEntry.createdAt =
      (sh.backend.getEntry k).map CacheEntry.createdAt := fun k => by
    have hmap := congrArg (Option.map Prod.fst) (hs k)
    rw [Option.map_map, Option.map_map] at hmap
    exact hmap
  refine ⟨hp ▸ h.kind, h.agrees.congr hp fun k => by rw [hk], fun k e he => ?_, fun hlru => ?_,
    fun hfifo => ?_⟩
  · have hstamps := hs k
    rw [he, Option.map_some] at hstamps
    obtain ⟨e', he', hee⟩ := Option.map_eq_some_iff.mp hstamps.symm
    obtain ⟨hc, ha⟩ := Prod.mk.inj hee
    rw [← hc, ← ha]
    exact h.past k e' he'
  · rw [map_listed_congr ho hsnd]
    exact h.lru hlru
  · rw [map_listed_congr ho hfst, ho, hk]
    exact h.fifo hfifo

/-- Only things other than store and policy changed. -/
theorem Timely.of_eq (h : sh.Timely name now) (hb : sh'.backend = sh.backend) (hp : sh'.policy = sh.policy) :
    sh'.Timely name now :=
  h.of_same hp (by rw [hb]) fun k => by rw [hb]

/-! ### The four things a section does -/

/-- A removal. -/
theorem Timely.removeEntryLocked (h : sh.Timely name now) (key : Key α) (reason : RemoveReason) :
    (sh.removeEntryLocked key reason).2.Timely name now := by
  have hpolicy := removeEntryLocked_policy sh key reason
  have hbackend := removeEntryLocked_backend sh key reason
  have horder : (sh.removeEntryLocked key reason).2.policy.order =
      sh.policy.order.filter fun k => k ≠ key := by
    rw [hpolicy, h.agrees.wf.order_onDelete]
  have hget : ∀ k, (sh.removeEntryLocked key reason).2.backend.getEntry k =
      if k = key then none else sh.backend.getEntry k := by
    intro k
    rw [hbackend, InMemoryBackend.getEntry_deleteEntry]
  have hlisted : (sh.removeEntryLocked key reason).2.listed.Sublist sh.listed := by
    unfold listed
    rw [horder]
    have hcongr : (sh.policy.order.filter fun k => k ≠ key).filterMap
        (sh.removeEntryLocked key reason).2.backend.getEntry =
        (sh.policy.order.filter fun k => k ≠ key).filterMap sh.backend.getEntry := by
      refine List.filterMap_congr fun k hk => ?_
      rw [hget, if_neg (by simpa using (List.mem_filter.mp hk).2)]
    rw [hcongr]
    exact List.filter_sublist.filterMap _
  refine ⟨?_, h.agrees.removeEntryLocked key reason, fun k e he => ?_, fun hlru => ?_, fun hfifo => ?_⟩
  · rw [hpolicy, EvictionPolicy.name_onDelete, h.kind]
  · rw [hget] at he
    split_ifs at he
    exact h.past k e he
  · exact (h.lru hlru).sublist (hlisted.map _)
  · refine ⟨?_, (h.fifo hfifo).2.sublist (hlisted.map _)⟩
    rw [horder, (h.fifo hfifo).1, hbackend]
    exact (OrderedDict.keys_erase _ _).symm

/-- Stamps with the time of the section after all the others. -/
theorem pairwise_append_now {l : List T} (h : l.Pairwise (· ≤ ·)) (hle : ∀ t ∈ l, t ≤ now) :
    (l ++ [now]).Pairwise (· ≤ ·) := by
  refine List.pairwise_append.mpr ⟨h, List.pairwise_singleton _ _, fun t ht t' ht' => ?_⟩
  rw [List.mem_singleton.mp ht']
  exact hle t ht

/-- The stamps of the entries that are not at `key`, then the stamp of the section. -/
theorem pairwise_last (key : Key α) {f : CacheEntry α V T → T}
    (hf : ∀ k e, sh.backend.getEntry k = some e → f e ≤ now)
    (hpair : (sh.listed.map f).Pairwise (· ≤ ·)) {e : CacheEntry α V T} (he : f e = now) :
    ((((sh.policy.order.filter fun k => k ≠ key).filterMap sh.backend.getEntry) ++ [e]).map f).Pairwise
      (· ≤ ·) := by
  rw [List.map_append, List.map_singleton, he]
  refine pairwise_append_now (hpair.sublist ((List.filter_sublist.filterMap _).map f)) fun t ht => ?_
  obtain ⟨e', he', rfl⟩ := List.mem_map.mp ht
  obtain ⟨k, -, hk⟩ := List.mem_filterMap.mp he'
  exact hf k e' hk

/-- A counted read of a resident entry. -/
theorem Timely.touch (h : sh.Timely name now) {key : Key α} {e : CacheEntry α V T}
    (he : sh.backend.getEntry key = some e) :
    { sh with backend := sh.backend.putEntry (e.touch now), policy := sh.policy.onGet key }.Timely
      name now := by
  have hkey : (e.touch now).key = key := sh.backend.keyed key e he
  have hmem : key ∈ sh.backend.keys := InMemoryBackend.mem_keys_iff.mpr ⟨e, he⟩
  have hget : ∀ k, (sh.backend.putEntry (e.touch now)).getEntry k =
      if k = key then some (e.touch now) else sh.backend.getEntry k := by
    intro k
    rw [InMemoryBackend.getEntry_putEntry, hkey]
  have hkeys : (sh.backend.putEntry (e.touch now)).keys = sh.backend.keys :=
    OrderedDict.keys_set_of_mem (hkey ▸ hmem) _
  refine ⟨?_, ⟨h.agrees.wf.onGet key, fun k => ?_⟩, fun k e' he' => ?_, fun hlru => ?_, fun hfifo => ?_⟩
  · exact (EvictionPolicy.name_onGet _ key).trans h.kind
  · rw [h.agrees.wf.mem_order_onGet, h.agrees.mem_iff, hkeys]
  · rw [hget] at he'
    split_ifs at he' with hk
    · cases he'
      exact ⟨(h.past key e he).1, le_rfl⟩
    · exact h.past k e' he'
  · have ho := EvictionPolicy.order_onGet_of_lru (h.kind.trans hlru) ((h.agrees.mem_iff key).mpr hmem)
    rw [listed_of_last ho hget]
    exact pairwise_last key (fun k e he => (h.past k e he).2) (h.lru hlru) rfl
  · have hp : sh.policy.onGet key = sh.policy := EvictionPolicy.onGet_of_fifo (h.kind.trans hfifo) key
    refine ⟨by simpa only [hp, hkeys] using (h.fifo hfifo).1, ?_⟩
    have hstamps : { sh with
        backend := sh.backend.putEntry (e.touch now)
        policy := sh.policy.onGet key }.listed.map CacheEntry.createdAt =
          sh.listed.map CacheEntry.createdAt := by
      refine map_listed_congr (by simp only [hp]) fun k => ?_
      simp only [hget]
      split_ifs with hk
      · subst hk
        rw [he]
        rfl
      · rfl
    rw [hstamps]
    exact (h.fifo hfifo).2

/-- A store. -/
theorem Timely.storeLocked (h : sh.Timely name now) (cfg : CacheConfig T) (key : Key α) (value : V)
    (ttl : Ttl T) : (sh.storeLocked cfg key value ttl now).Timely name now := by
  set e := freshEntry cfg (sh.backend.getEntry key) (sh.nextVersion key) key value ttl now with he
  have hpolicy : (sh.storeLocked cfg key value ttl now).policy = sh.policy.onPut key := rfl
  have hget : ∀ k, (sh.storeLocked cfg key value ttl now).backend.getEntry k =
      if k = key then some e else sh.backend.getEntry k :=
    fun k => InMemoryBackend.getEntry_putEntry _ _ k
  refine ⟨?_, h.agrees.storeLocked cfg key value ttl now, fun k e' he' => ?_, fun hlru => ?_,
    fun hfifo => ?_⟩
  · rw [hpolicy, EvictionPolicy.name_onPut, h.kind]
  · rw [hget] at he'
    split_ifs at he' with hk
    · cases he'
      refine ⟨?_, le_rfl⟩
      cases hold : sh.backend.getEntry key with
      | none => simp [he, freshEntry, hold]
      | some old => simpa [he, freshEntry, hold] using (h.past key old hold).1
    · exact h.past k e' he'
  · have ho := EvictionPolicy.order_onPut_of_lru (h.kind.trans hlru) key
    rw [listed_of_last (hpolicy ▸ ho) hget]
    exact pairwise_last key (fun k e he => (h.past k e he).2) (h.lru hlru) rfl
  · obtain ⟨horder, hpair⟩ := h.fifo hfifo
    by_cases hk : key ∈ sh.policy.order
    · have ho : (sh.storeLocked cfg key value ttl now).policy.order = sh.policy.order := by
        rw [hpolicy, EvictionPolicy.onPut_of_fifo (h.kind.trans hfifo) hk]
      rw [horder] at hk
      refine ⟨?_, ?_⟩
      · rw [ho, horder]
        exact (OrderedDict.keys_set_of_mem hk e).symm
      · rw [map_listed_congr ho fun k => ?_]
        · exact hpair
        · -- an update keeps the time of creation
          rw [hget]
          split_ifs with hkk
          · subst hkk
            obtain ⟨old, hold⟩ := InMemoryBackend.mem_keys_iff.mp hk
            simp [he, freshEntry, hold]
          · rfl
    · have ho : (sh.storeLocked cfg key value ttl now).policy.order = sh.policy.order ++ [key] :=
        EvictionPolicy.order_onPut_of_fifo (h.kind.trans hfifo) hk
      have hfilter : (sh.policy.order.filter fun k => k ≠ key) = sh.policy.order :=
        List.filter_eq_self.mpr fun k hk' => by
          have hne : k ≠ key := fun heq => hk (heq ▸ hk')
          simpa using hne
      rw [← hfilter] at ho
      have hk' : key ∉ sh.backend.keys := by rwa [← horder]
      refine ⟨?_, ?_⟩
      · rw [ho, hfilter, horder]
        exact (OrderedDict.keys_set_of_notMem hk' e).symm
      · rw [listed_of_last ho hget]
        refine pairwise_last key (fun k e he => (h.past k e he).1) hpair ?_
        have hold : sh.backend.getEntry key = none := OrderedDict.get?_eq_none_iff.mpr hk'
        simp [he, freshEntry, hold]

/-! ### The sections -/

/-- Lazy expiration of a key. -/
theorem Timely.dropExpired (h : sh.Timely name now) (key : Key α) : (sh.dropExpired key now).Timely name now := by
  unfold CacheShard.dropExpired
  split
  · exact h
  · split_ifs
    · exact h.removeEntryLocked key .expire
    · exact h

/-- A sequence of removals. -/
theorem Timely.removeEntriesLocked (h : sh.Timely name now) (keys : List (Key α)) (reason : RemoveReason) :
    (sh.removeEntriesLocked keys reason).2.Timely name now := by
  induction keys generalizing sh with
  | nil => exact h
  | cons key keys ih =>
      rw [removeEntriesLocked_cons]
      exact ih (h.removeEntryLocked key reason)

/-- A sweep. -/
theorem Timely.expireShard (h : sh.Timely name now) : (sh.expireShard now).2.Timely name now :=
  h.removeEntriesLocked _ _

/-- A read. -/
theorem Timely.readValueLocked (h : sh.Timely name now) (key : Key α) (touch countStats : Bool) :
    (sh.readValueLocked key touch countStats now).2.Timely name now := by
  unfold CacheShard.readValueLocked
  cases he : sh.backend.getEntry key with
  | none => cases countStats <;> exact h.of_eq rfl rfl
  | some e =>
      simp only
      split_ifs
      · exact (h.removeEntryLocked key .expire).of_eq rfl rfl
      · exact h.removeEntryLocked key .expire
      · exact (h.touch he).of_eq rfl rfl
      · exact h.of_eq rfl rfl
      · exact h.touch he
      · exact h

/-- The first section of `get_or_compute`. -/
theorem Timely.getOrComputeLocked (h : sh.Timely name now) (key : Key α) (fresh : ℕ) :
    (sh.getOrComputeLocked key now fresh).2.Timely name now := by
  have hread := h.readValueLocked key true true
  unfold CacheShard.getOrComputeLocked
  simp only
  split
  · exact hread
  · split
    · exact hread
    · exact hread.of_eq rfl rfl

/-- A put, whether it returns or raises. -/
theorem Timely.putLocked (h : sh.Timely name now) (cfg : CacheConfig T) (src : Source α V) (key : Key α)
    (value : V) (ttl : Ttl T) (ok : Bool) :
    (sh.putLocked cfg src key value ttl now ok).shard.Timely name now := by
  by_cases hok : cfg.writeMode = .writeThrough ∧ ok = false
  · rw [putLocked_of_raised _ _ _ _ _ _ hok]
    exact h.dropExpired key
  · rw [h.agrees.putLocked_eq src key value ttl now hok]
    have hfitted : (sh.fitted cfg key value ttl now).Timely name now :=
      ((h.dropExpired key).storeLocked cfg key value ttl).removeEntriesLocked _ _
    simp only
    split_ifs
    · exact hfitted.of_eq rfl rfl
    · exact hfitted

/-- An erasure of one key. -/
theorem Timely.eraseLocked (h : sh.Timely name now) (cfg : CacheConfig T) (src : Source α V) (key : Key α) :
    (sh.eraseLocked cfg src key).shard.Timely name now := by
  have hcounted : ∀ {s : CacheShard α V T}, s.Timely name now → (s.removeCounted key).Timely name now := by
    intro s hs
    unfold removeCounted
    simp only
    split_ifs
    · exact (hs.removeEntryLocked key .delete).of_eq rfl rfl
    · exact hs.removeEntryLocked key .delete
  simp only [CacheShard.eraseLocked]
  split_ifs
  · exact hcounted (h.of_eq rfl rfl)
  · exact hcounted h

/-- A delete. -/
theorem Timely.deleteLocked (h : sh.Timely name now) (cfg : CacheConfig T) (src : Source α V) (key : Key α)
    (ok : Bool) : (sh.deleteLocked cfg src key ok).shard.Timely name now := by
  unfold CacheShard.deleteLocked
  split_ifs
  · exact h
  · exact (h.eraseLocked cfg src key).of_eq rfl rfl

/-- The loop of a clear that raises. -/
theorem Timely.clearKeysLocked (h : sh.Timely name now) (cfg : CacheConfig T) (ok : Key α → Bool)
    (keys : List (Key α)) (src : Source α V) (jobs : List (FlushWriteBack α V))
    (hraised : (clearKeysLocked cfg ok keys sh src jobs).raised = true) :
    (clearKeysLocked cfg ok keys sh src jobs).shard.Timely name now := by
  induction keys generalizing sh src jobs with
  | nil => cases hraised
  | cons key keys ih =>
      rw [CacheShard.clearKeysLocked] at hraised ⊢
      split_ifs at hraised ⊢
      · exact h
      · exact ih (h.eraseLocked cfg src key) _ _ hraised

/-- A clear, whether it returns or raises. -/
theorem Timely.clearLocked (h : sh.Timely name now) (cfg : CacheConfig T) (src : Source α V)
    (ok : Key α → Bool) : (sh.clearLocked cfg src ok).shard.Timely name now := by
  cases hr : (sh.clearLocked cfg src ok).raised with
  | true => exact h.clearKeysLocked cfg ok _ src [] hr
  | false =>
      obtain ⟨done, rest, -, hcleared, -⟩ := clearLocked_spec cfg sh src ok
      refine timely_of_empty ?_ (h.agrees.clearLocked cfg src ok) ?_
      · rw [hcleared.policy hr, EvictionPolicy.name_clear, h.kind]
      · rw [hcleared.policy hr, EvictionPolicy.order_clear]

/-- Replacing an entry by one with the same key and the same stamps. -/
theorem Timely.putEntry (h : sh.Timely name now) {e e' : CacheEntry α V T} {key : Key α}
    (he : sh.backend.getEntry key = some e) (hkey : e'.key = e.key) (hs : e'.stamps = e.stamps) :
    { sh with backend := sh.backend.putEntry e' }.Timely name now := by
  have hkey' : e'.key = key := hkey.trans (sh.backend.keyed key e he)
  refine h.of_same rfl ?_ fun k => ?_
  · exact OrderedDict.keys_set_of_mem (hkey' ▸ InMemoryBackend.mem_keys_iff.mpr ⟨e, he⟩) e'
  · rw [InMemoryBackend.getEntry_putEntry, hkey']
    split_ifs with hk
    · subst hk
      rw [he, Option.map_some, Option.map_some, hs]
    · rfl

/-- Restoring a hit count. -/
theorem Timely.restoreEntryMetadata (h : sh.Timely name now) (key : Key α) (n : ℤ) :
    (sh.restoreEntryMetadata key n).Timely name now := by
  unfold CacheShard.restoreEntryMetadata
  split
  · exact h
  · next e he => exact h.putEntry he rfl rfl

/-- Marking an entry clean. -/
theorem Timely.markCleanLocked (h : sh.Timely name now) (job : FlushWriteBack α V) :
    (sh.markCleanLocked job).Timely name now := by
  unfold CacheShard.markCleanLocked
  split
  · exact h
  · split
    · exact h
    · next e he =>
        split_ifs
        · exact h.putEntry he rfl rfl
        · exact h

/-- Pruning marks. -/
theorem Timely.maybePruneMarksLocked (h : sh.Timely name now) (key : Key α) :
    (sh.maybePruneMarksLocked key).Timely name now :=
  h.of_eq (maybePruneMarksLocked_backend sh key) (maybePruneMarksLocked_policy sh key)

/-- Releasing a pending flush. -/
theorem Timely.resolvePendingLocked (h : sh.Timely name now) (key : Key α) :
    (sh.resolvePendingLocked key).Timely name now := by
  unfold CacheShard.resolvePendingLocked
  simp only
  refine maybePruneMarksLocked ?_ key
  split_ifs <;> exact h.of_eq rfl rfl

/-- Clearing the pending flushes of a key. -/
theorem Timely.clearPendingFlushesLocked (h : sh.Timely name now) (key : Key α) :
    (sh.clearPendingFlushesLocked key).Timely name now := by
  have hcleared : { sh with pendingFlushes := sh.pendingFlushes.erase key }.Timely name now := h.of_eq rfl rfl
  exact hcleared.maybePruneMarksLocked key

/-- Registering pending flushes. -/
theorem Timely.registerAll (h : sh.Timely name now) (jobs : List (FlushWriteBack α V)) :
    (sh.registerAll jobs).Timely name now := by
  unfold CacheShard.registerAll
  induction jobs generalizing sh with
  | nil => exact h
  | cons job jobs ih => exact ih (h.of_eq rfl rfl)

end CacheShard

end CacheLab
