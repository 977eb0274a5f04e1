import CacheLab.Cli.Load
import CacheLab.Core.Stamps
import CacheLab.Properties.Inclusion
import CacheLab.System.Split

/-!
# Commands as processes and as one session

A sequence of `put` and `delete` commands, run as processes that pass the state file on, and as calls on one cache,
both with an LRU policy and one shard. The file keeps the entries in store order, and each process takes this order
for the order of use. A put of a stored key renews its use but not its place in the store, so the two orders drift
apart.

* `KeepsOldest` is the condition under which a command shows nothing of this: where it evicts a key, the key
  that was stored first is also the key that was used longest ago.
* `sessions_agree_iff`: both ways of running the commands store the same keys after each of them, if and only if all
  commands meet the condition, in the state of the one session before them. The first command that does not meet it
  makes the two differ.
-/

set_option linter.unusedSectionVars false

namespace CacheLab

variable {α V T : Type} [DecidableEq α] [LinearOrder T] [Zero T] [Add T] [Sub T]

variable {cfg : AcceptedConfig T} {hash : Key α → ℕ}

/-! ### The two ways to run commands -/

/-- A command of a session, for a key other than `null` and without a lifetime. -/
inductive SessionCommand (α V : Type)
  | put (key : α) (value : V) (noTtl : Bool)
  | delete (key : α)

/-- The command line. -/
def SessionCommand.basic : SessionCommand α V → BasicCommand α V T
  | put key value noTtl => .put (some (some key)) (some value) noTtl none
  | delete key => .delete (some (some key))

/-- The call. -/
def SessionCommand.op : SessionCommand α V → Op α V T
  | put key value noTtl => .put (some key) value (if noTtl then .never else .unset)
  | delete key => .delete (some key)

/-- A command with the clocks that the process of its own reads, and the time of the one session. -/
structure SessionStep (α V T : Type) where
  command : SessionCommand α V
  clock : ℕ → T
  wallNow : T
  time : T

/-- The state file that the processes pass on, and the cache of the one session. -/
structure Sessions (α V : Type) [DecidableEq α] {T : Type} [LinearOrder T] [Zero T] (cfg : AcceptedConfig T) where
  file : StateContent α V T
  cache : Shared α V cfg

/-- Before the first command: no entries in the file, none in the cache. -/
def Sessions.start (cfg : AcceptedConfig T) (now : T) : Sessions α V cfg :=
  ⟨some [], (initial cfg now .empty).shared⟩

/-- Run a command both ways. -/
def Sessions.step (hash : Key α → ℕ) (x : Sessions α V cfg) (l : SessionStep α V T) : Option (Sessions α V cfg) :=
  (runBasic cfg hash l.clock l.wallNow x.file l.command.basic).bind fun r =>
    (callAt hash l.time x.cache l.command.op).map fun y => ⟨r.2, y.1⟩

/-- The keys in a state file, in order. -/
def fileKeys (file : StateContent α V T) : List (Key α) :=
  (itemsOf (file.getD [])).filterMap StateItem.key

/-- The file and the cache store the same keys. -/
def Sessions.SameKeys (x : Sessions α V cfg) : Prop := ∀ k, k ∈ fileKeys x.file ↔ k ∈ x.cache.only.backend.keys

/-- Where the command evicts a key from the shard, the key stored first is the key used longest ago. -/
def CacheShard.KeepsOldest (sh : CacheShard α V T) : SessionCommand α V → Prop
  | .put key _ _ =>
      some key ∈ sh.backend.keys ∨ sh.backend.size < sh.capacity ∨ sh.backend.keys.head? = sh.policy.order.head?
  | .delete _ => True

instance (sh : CacheShard α V T) : ∀ command, Decidable (sh.KeepsOldest command)
  | .put _ _ _ => inferInstanceAs (Decidable (_ ∨ _ ∨ _))
  | .delete _ => inferInstanceAs (Decidable True)

/-- The condition on a command, in the state of the one session before it. -/
def KeepsOldest (x : Sessions α V cfg) (l : SessionStep α V T) : Prop := x.cache.only.KeepsOldest l.command

instance (x : Sessions α V cfg) (l : SessionStep α V T) : Decidable (KeepsOldest x l) :=
  inferInstanceAs (Decidable (x.cache.only.KeepsOldest l.command))

/-! ### One shard -/

namespace CacheShard

variable {sh : CacheShard α V T} {c : ℕ}

/-- The keys after a put, in store order. -/
theorem Recent.keys_fitted (h : sh.Recent c) (config : CacheConfig T) (key : α) (value : V) (ttl : Ttl T) (now : T) :
    (sh.fitted config (some key) value ttl now).backend.keys =
      (if some key ∈ sh.backend.keys then sh.backend.keys else sh.backend.keys ++ [some key]).filter fun k =>
        k ∉ (sh.stored config (some key) value ttl now).victims := by
  have hstored : (sh.stored config (some key) value ttl now).backend.keys =
      if some key ∈ sh.backend.keys then sh.backend.keys else sh.backend.keys ++ [some key] := by
    rw [stored, h.dropExpired_eq]
    show (sh.backend.entries.set (some key) _).keys = _
    split_ifs with hkey
    · exact OrderedDict.keys_set_of_mem hkey _
    · exact OrderedDict.keys_set_of_notMem hkey _
  rw [CacheShard.fitted, ← InMemoryBackend.map_key_entryList, entryList_removeEntriesLocked, ← hstored,
    ← InMemoryBackend.map_key_entryList, List.filter_map]
  rfl

/-- The keys after a put that evicts nothing. -/
theorem Recent.keys_fitted_of_room (h : sh.Recent c) (config : CacheConfig T) (key : α) (value : V) (ttl : Ttl T)
    (now : T) (hroom : some key ∈ sh.backend.keys ∨ sh.backend.size < c) :
    (sh.fitted config (some key) value ttl now).backend.keys =
      if some key ∈ sh.backend.keys then sh.backend.keys else sh.backend.keys ++ [some key] := by
  have hlen : (Recency.touch (some key) sh.policy.order).length ≤ c := by
    have hmem := h.agrees.mem_iff (some key)
    have horder := h.agrees.length_order
    by_cases hkey : some key ∈ sh.policy.order
    · rw [Recency.length_touch_of_mem h.agrees.wf.nodup_order hkey]
      exact h.fits
    · rw [Recency.touch_of_notMem hkey, List.length_append, List.length_singleton]
      have hlt := hroom.resolve_left fun hk => hkey (hmem.mpr hk)
      omega
  have hnone : (sh.stored config (some key) value ttl now).victims = [] := by
    rw [h.victims_stored, Nat.sub_eq_zero_of_le hlen, List.take_zero]
  rw [h.keys_fitted, hnone]
  exact List.filter_eq_self.mpr fun k _ => by simp

/-- The keys after a put into a full shard: the key used longest ago is gone. -/
theorem Recent.keys_fitted_of_full (h : sh.Recent c) (config : CacheConfig T) (key : α) (value : V) (ttl : Ttl T)
    (now : T) (hnew : some key ∉ sh.backend.keys) (hfull : sh.backend.size = c) {old : Key α} {rest : List (Key α)}
    (horder : sh.policy.order = old :: rest) :
    (sh.fitted config (some key) value ttl now).backend.keys =
    (sh.backend.keys.filter fun k => k ≠ old) ++ [some key] := by
  have hkey : some key ∉ sh.policy.order := fun hk => hnew ((h.agrees.mem_iff _).mp hk)
  have hlen : sh.policy.order.length = c := h.agrees.length_order.trans hfull
  have hvictims : (sh.stored config (some key) value ttl now).victims = [old] := by
    rw [h.victims_stored, Recency.touch_of_notMem hkey, List.length_append, hlen, List.length_singleton,
      Nat.add_sub_cancel_left, horder]
    rfl
  have hne : some key ≠ old := fun heq => hkey (by rw [horder, heq]; exact List.mem_cons_self)
  rw [h.keys_fitted, if_neg hnew, hvictims, List.filter_append]
  congr 1
  · exact List.filter_congr fun k _ => by simp
  · simp [hne]

/-- The shard after a command. -/
def act (config : CacheConfig T) (sh : CacheShard α V T) (command : SessionCommand α V) (now : T) :
    CacheShard α V T :=
  match command with
  | .put key value noTtl => sh.fitted config (some key) value (if noTtl then .never else .unset) now
  | .delete key => (sh.deleteLocked config .empty (some key) true).shard

/-- A command keeps an LRU shard without lifetimes. -/
theorem Recent.act (h : sh.Recent c) {config : CacheConfig T} (hmode : config.writeMode = .cacheOnly)
    (hdefault : ∀ t, config.defaultTtl = some t → t ≤ 0) (command : SessionCommand α V) (now : T) :
    (sh.act config command now).Recent c := by
  cases command with
  | put key value noTtl =>
      refine h.fitted key value now hdefault fun t => ?_
      cases noTtl <;> simp
  | delete key => exact (h.deleteLocked hmode .empty (some key)).1

/-- What a delete does to the shard does not depend on the source. -/
theorem shard_deleteLocked (config : CacheConfig T) (sh : CacheShard α V T) (src src' : Source α V) (key : Key α)
    (ok : Bool) : (sh.deleteLocked config src key ok).shard = (sh.deleteLocked config src' key ok).shard := by
  unfold deleteLocked eraseLocked
  split_ifs <;> rfl

/-- The keys after a delete, in store order. -/
theorem keys_deleteLocked {config : CacheConfig T} (hmode : config.writeMode = .cacheOnly) (sh : CacheShard α V T)
    (src : Source α V) (key : Key α) :
    (sh.deleteLocked config src key true).shard.backend.keys = sh.backend.keys.filter fun k => k ≠ key := by
  rw [(deleteLocked_cacheOnly hmode sh src key).2.1]
  exact OrderedDict.keys_erase _ _

end CacheShard

/-! ### One process -/

/-- Rows without deadlines, with different proper keys that fit a capacity. -/
structure PlainRows (c : ℕ) (rows : List (EntryRow α V T)) : Prop where
  timeless : ∀ r ∈ rows, r.deadline = none
  proper : ∀ r ∈ rows, r.key.isSome = true
  nodup : (rows.map EntryRow.key).Nodup
  fits : rows.length ≤ c

/-- The rows of an LRU shard without lifetimes. -/
theorem CacheShard.Recent.plainRows {sh : CacheShard α V T} {c : ℕ} (h : sh.Recent c) : PlainRows c sh.rows where
  timeless r hr := by
    obtain ⟨e, he, rfl⟩ := List.mem_map.mp hr
    exact h.toTimeless.expiresAt_eq (InMemoryBackend.mem_entryList.mp he)
  proper r hr := h.toTimeless.proper r.key (by rw [← CacheShard.map_key_rows]; exact List.mem_map_of_mem hr)
  nodup := by
    rw [CacheShard.map_key_rows]
    exact sh.backend.entries.keys_nodup
  fits := by
    rw [CacheShard.length_rows, ← h.agrees.length_order]
    exact h.fits

/-- The file with some rows. -/
def fileOf (rows : List (EntryRow α V T)) : StateContent α V T := some ((rows.map (EntryRow.item 0)).map some)

theorem fileKeys_fileOf (rows : List (EntryRow α V T)) : fileKeys (fileOf rows) = rows.map EntryRow.key := by
  rw [fileKeys, fileOf, Option.getD_some, itemsOf_map_some, List.filterMap_map]
  show rows.filterMap (some ∘ EntryRow.key) = _
  rw [List.filterMap_eq_map]

/-- What is written for a row without a deadline does not depend on the time. -/
theorem item_of_timeless {r : EntryRow α V T} (h : r.deadline = none) (time : T) : r.item time = r.item 0 := by
  simp only [EntryRow.item, h]

/-- The row as it is loaded: a hit count that is not positive is not restored. -/
def EntryRow.loaded (r : EntryRow α V T) : EntryRow α V T := { r with hitCount := max 0 r.hitCount }

/-- Loading keeps the keys. -/
theorem map_key_loaded (rows : List (EntryRow α V T)) :
    (rows.map EntryRow.loaded).map EntryRow.key = rows.map EntryRow.key := by
  rw [List.map_map]
  rfl

/-- Plain rows are plain when they are loaded. -/
theorem PlainRows.loaded {c : ℕ} {rows : List (EntryRow α V T)} (h : PlainRows c rows) :
    PlainRows c (rows.map EntryRow.loaded) where
  timeless r hr := by
    obtain ⟨r₀, hr₀, rfl⟩ := List.mem_map.mp hr
    exact h.timeless r₀ hr₀
  proper r hr := by
    obtain ⟨r₀, hr₀, rfl⟩ := List.mem_map.mp hr
    exact h.proper r₀ hr₀
  nodup := (map_key_loaded rows).symm ▸ h.nodup
  fits := by
    rw [List.length_map]
    exact h.fits

/-- What is written for a row without a deadline is loaded as that row. -/
theorem row_item_of_timeless {r : EntryRow α V T} (h : r.deadline = none) (config : CacheConfig T)
    (time wallNow : T) :
    (r.item 0).row config time wallNow = some r.loaded := by
  obtain ⟨key, value, hitCount, deadline⟩ := r
  obtain rfl : deadline = none := h
  rfl

/-- A cache with one shard that was filled with plain rows. -/
theorem Filled.recent (hcfg : PlainLru cfg) {s : Shared α V cfg} {rows : List (EntryRow α V T)}
    (h : Filled hash s rows) (hrows : PlainRows cfg.capacity rows) :
    s.only.Recent cfg.capacity ∧ s.only.rows = rows ∧ s.only.policy.order = rows.map EntryRow.key := by
  have hall : ∀ i : Fin cfg.shardCount, rowsOf hash i rows = rows := fun i =>
    List.filter_eq_self.mpr fun r _ => decide_eq_true ((hcfg.eq_zero _).trans (hcfg.eq_zero i).symm)
  have hsame : s.only.rows = rows := (h.rows_eq _).trans (hall _)
  have hkeys : s.only.backend.keys = rows.map EntryRow.key := by rw [← CacheShard.map_key_rows, hsame]
  have hpolicy : s.only.policy = (rows.map EntryRow.key).foldl EvictionPolicy.onPut (.lru ⟨.empty⟩) := by
    have heq := h.policy_eq ⟨0, cfg.shardCount_pos⟩
    rw [hall, hcfg.policy] at heq
    exact heq
  have hcap : s.only.capacity = cfg.capacity := by
    refine (h.capacity_eq _).trans ?_
    rw [getD_shardCapacities]
    simp [hcfg.one, Nat.mod_one]
  obtain ⟨hname, horder⟩ := EvictionPolicy.order_foldl_onPut (p := (.lru ⟨.empty⟩ : EvictionPolicy α)) (.inl rfl) hrows.nodup
  rw [← hpolicy] at hname horder
  obtain ⟨q, hq⟩ : ∃ q, s.only.policy = .lru q := by
    cases hp : s.only.policy with
    | lru q => exact ⟨q, rfl⟩
    | lfu q => rw [hp] at hname; cases hname
    | fifo q => rw [hp] at hname; cases hname
  have horder' : s.only.policy.order = rows.map EntryRow.key := horder
  refine ⟨⟨⟨?_, fun k => ?_⟩, hcap, ⟨q, hq⟩, fun k v d hk => ?_, fun k hk => ?_, ?_⟩, hsame, horder'⟩
  · rw [hq]
    trivial
  · rw [horder', hkeys]
  · obtain ⟨e, he, htimed⟩ := Option.map_eq_some_iff.mp hk
    have hmem : e.row ∈ rows := by
      rw [← hsame]
      exact List.mem_map_of_mem (InMemoryBackend.mem_entryList.mpr ((s.only.backend.keyed k e he).symm ▸ he))
    obtain ⟨-, rfl⟩ := Prod.mk.inj htimed
    exact hrows.timeless _ hmem
  · rw [horder'] at hk
    obtain ⟨r, hr, rfl⟩ := List.mem_map.mp hk
    exact hrows.proper r hr
  · rw [horder', List.length_map]
    exact hrows.fits

/-- Loading a file of plain rows. -/
theorem loadCacheState_fileOf (hcfg : PlainLru cfg) (hash : Key α → ℕ) (clock : ℕ → T) (wallNow : T)
    {rows : List (EntryRow α V T)} (hrows : PlainRows cfg.capacity rows) :
    ∃ s, loadCacheState cfg hash clock wallNow (fileOf rows) = some s ∧
      Filled hash s (rows.map EntryRow.loaded) := by
  have hfits : Fits cfg hash ([] ++ rows.map EntryRow.loaded) := by
    refine ⟨hrows.loaded.nodup, fun i => ?_⟩
    have hcap : (shardCapacities cfg.capacity cfg.shardCount).getD i 0 = cfg.capacity := by
      rw [getD_shardCapacities]
      simp [hcfg.one, Nat.mod_one]
    rw [hcap]
    exact (List.length_filter_le _ _).trans hrows.loaded.fits
  have hitems : ∀ (m : ℕ) (item : StateItem α V T), (rows.map (EntryRow.item 0))[m]? = some item →
      item.row cfg.toCacheConfig (clock (0 + m)) wallNow = (rows.map EntryRow.loaded)[m]? := by
    intro m item hm
    rw [List.getElem?_map, Option.map_eq_some_iff] at hm
    obtain ⟨r, hr, rfl⟩ := hm
    rw [List.getElem?_map, hr]
    exact row_item_of_timeless (hrows.timeless r (List.mem_of_getElem? hr)) _ _ _
  obtain ⟨s, hload, hfilled⟩ :=
    (filled_initial cfg hash (clock 0)).loadItems hcfg.mode hfits (by rw [List.length_map, List.length_map]) hitems
  refine ⟨s, ?_, hfilled⟩
  rw [loadCacheState, fileOf, Option.bind_some, itemsOf_map_some]
  exact hload

/-! ### One command -/

/-- The call of a command on an LRU cache with one shard. -/
theorem callAt_op (hcfg : PlainLru cfg) (hash : Key α → ℕ) {s : Shared α V cfg} (hopen : s.Open)
    (h : s.only.Recent cfg.capacity) (command : SessionCommand α V) (time : T) :
    ∃ s' r printed, callAt hash time s command.op = some (s', r) ∧ (command.basic : BasicCommand α V T).print r = some printed ∧
      s'.Open ∧ s'.only = s.only.act cfg.toCacheConfig command time := by
  have hopen' : Shared.Open { s with now := time } := hopen
  cases command with
  | put key value noTtl =>
      have httl : validExplicitTtl (if noTtl then Ttl.never else Ttl.unset : Ttl T) = true := by
        cases noTtl <;> rfl
      refine ⟨_, _, .stored, call_put hcfg.mode hopen' (some key) value httl, rfl, hopen, ?_⟩
      have hhome := hcfg.eq_zero (shardFor cfg hash (some key))
      rw [CacheShard.act, ← h.agrees.putLocked_of_cacheOnly hcfg.mode s.source (some key) value _ time true]
      show Function.update s.shards (shardFor cfg hash (some key)) _ ⟨0, cfg.shardCount_pos⟩ = _
      rw [hhome, Function.update_self]
      rfl
  | delete key =>
      have hcall : call hash {} { s with now := time } (.delete (some key)) = some
          ((({ s with now := time } : Shared α V cfg).deleteSection hash (some key) true).1,
            .flag ((s.home hash (some key)).backend.getEntry (some key)).isSome) :=
        call_of_section hopen' rfl (by simp) (threadStep_delete_cacheOnly hash {} _ hcfg.mode _ _)
      have hhome := hcfg.eq_zero (shardFor cfg hash (some key))
      refine ⟨_, _, _, hcall, rfl, hopen, ?_⟩
      rw [CacheShard.act, CacheShard.shard_deleteLocked _ _ .empty s.source]
      show Function.update s.shards (shardFor cfg hash (some key)) _ ⟨0, cfg.shardCount_pos⟩ = _
      rw [hhome, Function.update_self]
      rfl

/-- What is written for an LRU cache with one shard. -/
theorem items_only (hcfg : PlainLru cfg) {s : Shared α V cfg} (h : s.only.Recent cfg.capacity) (time : T) :
    (some ((s.shardList.flatMap (CacheShard.items time)).map some) : StateContent α V T) = fileOf s.only.rows := by
  have hone : s.shardList = [s.only] := by
    have hlen : s.shardList.length = 1 := by
      rw [Shared.shardList, List.length_map, List.length_finRange, hcfg.one]
    obtain ⟨sh, hsh⟩ := List.length_eq_one_iff.mp hlen
    have hmem : s.only ∈ s.shardList := List.mem_map_of_mem (List.mem_finRange _)
    rw [hsh, List.mem_singleton] at hmem
    rw [hsh, hmem]
  have hlive : (s.only.rows.filter fun r => !r.isExpired time) = s.only.rows :=
    List.filter_eq_self.mpr fun r hr => by rw [EntryRow.isExpired, h.plainRows.timeless r hr]; rfl
  have hitem : s.only.rows.map (EntryRow.item time) = s.only.rows.map (EntryRow.item 0) :=
    List.map_congr_left fun r hr => item_of_timeless (h.plainRows.timeless r hr) time
  rw [hone, List.flatMap_cons, List.flatMap_nil, List.append_nil, CacheShard.items, hlive, hitem, fileOf]

/-- A command as a process: it acts on a shard in which the order of use is the order of the file. -/
theorem runBasic_fileOf (hcfg : PlainLru cfg) (hash : Key α → ℕ) (clock : ℕ → T) (wallNow : T)
    {rows : List (EntryRow α V T)} (hrows : PlainRows cfg.capacity rows) (command : SessionCommand α V) :
    ∃ (printed : Printed V) (sh : CacheShard α V T),
      runBasic cfg hash clock wallNow (fileOf rows) command.basic =
        some (printed, fileOf (sh.act cfg.toCacheConfig command (clock rows.length)).rows) ∧
      sh.Recent cfg.capacity ∧ sh.backend.keys = rows.map EntryRow.key ∧
      sh.policy.order = rows.map EntryRow.key := by
  obtain ⟨s, hload, hfilled⟩ := loadCacheState_fileOf hcfg hash clock wallNow hrows
  obtain ⟨hrecent, hsame, horder⟩ := hfilled.recent hcfg hrows.loaded
  rw [map_key_loaded] at horder
  have hkeys : s.only.backend.keys = rows.map EntryRow.key := by
    rw [← CacheShard.map_key_rows, hsame, map_key_loaded]
  obtain ⟨s', r, printed, hcall, hprint, hopen', honly⟩ :=
    callAt_op hcfg hash (.inl hfilled.created) hrecent command (clock rows.length)
  obtain ⟨s'', hsave, -, -⟩ := saveCacheState_eq hash hopen' (clock (rows.length + 1))
  have hrecent' : s'.only.Recent cfg.capacity := by
    rw [honly]
    exact hrecent.act hcfg.mode hcfg.timeless command _
  rw [items_only hcfg hrecent', honly] at hsave
  refine ⟨printed, s.only, ?_, hrecent, hkeys, horder⟩
  have hlength : ((fileOf rows).elim 0 fun entries => (itemsOf entries).length) = rows.length := by
    rw [fileOf, Option.elim_some, itemsOf_map_some, List.length_map]
  have hop : (command.basic : BasicCommand α V T).op? = some command.op := by
    cases command with
    | put key value noTtl => cases noTtl <;> rfl
    | delete key => rfl
  have hsaves : (command.basic : BasicCommand α V T).saves = true := by
    cases command <;> rfl
  simp only [runBasic, hload, hlength, hop, hcall, hprint, hsaves, hsave, Option.bind_some, if_true, Option.map_some]

/-! ### Two shards with the same keys -/

namespace CacheShard

section Act

variable {sh sh' : CacheShard α V T} {c : ℕ} {config : CacheConfig T}

/-- A put of a new key into two full shards with the same keys, the first of which is used in store order: the
same keys are stored afterwards if and only if the second forgets the key that was stored first. -/
theorem Recent.act_of_full (h : sh.Recent c) (h' : sh'.Recent c) (config : CacheConfig T) (hc : 0 < c)
    (hkeys : sh.backend.keys = sh'.backend.keys) (horder : sh.policy.order = sh.backend.keys) (key : α) (value : V)
    (noTtl : Bool) (hnew : some key ∉ sh'.backend.keys) (hfull : sh'.backend.size = c) (now now' : T) :
    (sh'.backend.keys.head? = sh'.policy.order.head? →
        (sh.act config (.put key value noTtl) now).backend.keys =
          (sh'.act config (.put key value noTtl) now').backend.keys) ∧
      ((∀ k, k ∈ (sh.act config (.put key value noTtl) now).backend.keys ↔
          k ∈ (sh'.act config (.put key value noTtl) now').backend.keys) →
        sh'.backend.keys.head? = sh'.policy.order.head?) := by
  have hsize : sh.backend.size = c := by
    rw [InMemoryBackend.size_eq_length_keys, hkeys, ← InMemoryBackend.size_eq_length_keys, hfull]
  -- the oldest keys of the two
  obtain ⟨first, rest, hfirst⟩ : ∃ first rest, sh.policy.order = first :: rest :=
    List.exists_cons_of_length_pos (by rw [h.agrees.length_order, hsize]; exact hc)
  obtain ⟨old, rest', hold⟩ : ∃ old rest', sh'.policy.order = old :: rest' :=
    List.exists_cons_of_length_pos (by rw [h'.agrees.length_order, hfull]; exact hc)
  have hhead : sh'.backend.keys.head? = some first := by rw [← hkeys, ← horder, hfirst]; rfl
  have hmem : first ∈ sh'.backend.keys := List.mem_of_mem_head? hhead
  rw [CacheShard.act, CacheShard.act, h.keys_fitted_of_full config key value _ now (hkeys ▸ hnew) hsize hfirst,
    h'.keys_fitted_of_full config key value _ now' hnew hfull hold, hhead, hold, hkeys]
  refine ⟨fun heq => ?_, fun hsame => ?_⟩
  · obtain rfl : first = old := Option.some.inj heq
    rfl
  · by_contra hne
    have hdiff : first ≠ old := fun heq => hne (congrArg some heq)
    have hin : first ∈ (sh'.backend.keys.filter fun k => k ≠ old) ++ [some key] :=
      List.mem_append_left _ (List.mem_filter.mpr ⟨hmem, decide_eq_true hdiff⟩)
    rcases List.mem_append.mp ((hsame first).mpr hin) with hout | hout
    · exact of_decide_eq_true (List.mem_filter.mp hout).2 rfl
    · exact hnew (List.mem_singleton.mp hout ▸ hmem)

/-- **A command on two shards with the same keys**, the first of which is used in store order. -/
theorem Recent.act_keys (h : sh.Recent c) (h' : sh'.Recent c) (hc : 0 < c) (hmode : config.writeMode = .cacheOnly)
    (hkeys : sh.backend.keys = sh'.backend.keys) (horder : sh.policy.order = sh.backend.keys)
    (command : SessionCommand α V) (now now' : T) :
    (sh'.KeepsOldest command → (sh.act config command now).backend.keys = (sh'.act config command now').backend.keys) ∧
      ((∀ k, k ∈ (sh.act config command now).backend.keys ↔ k ∈ (sh'.act config command now').backend.keys) →
        sh'.KeepsOldest command) := by
  have hsize : sh.backend.size = sh'.backend.size := by
    rw [InMemoryBackend.size_eq_length_keys, hkeys, ← InMemoryBackend.size_eq_length_keys]
  cases command with
  | delete key =>
      refine ⟨fun _ => ?_, fun _ => trivial⟩
      rw [CacheShard.act, CacheShard.act, keys_deleteLocked hmode, keys_deleteLocked hmode, hkeys]
  | put key value noTtl =>
      by_cases hroom : some key ∈ sh'.backend.keys ∨ sh'.backend.size < c
      · refine ⟨fun _ => ?_, fun _ => ?_⟩
        · have hroom' : some key ∈ sh.backend.keys ∨ sh.backend.size < c := by rwa [hkeys, hsize]
          rw [CacheShard.act, CacheShard.act, h.keys_fitted_of_room config key value _ now hroom',
            h'.keys_fitted_of_room config key value _ now' hroom, hkeys]
        · rw [CacheShard.KeepsOldest, h'.capacity_eq]
          exact hroom.imp_right Or.inl
      · obtain ⟨hnew, hge⟩ := not_or.mp hroom
        have hfits : sh'.backend.size ≤ c := h'.agrees.length_order ▸ h'.fits
        have hfull : sh'.backend.size = c := le_antisymm hfits (not_lt.mp hge)
        obtain ⟨hkeep, hlose⟩ := h.act_of_full h' config hc hkeys horder key value noTtl hnew hfull now now'
        refine ⟨fun hold => hkeep ?_, fun hsame => .inr (.inr (hlose hsame))⟩
        rcases hold with hold | hold | hold
        · exact absurd hold hnew
        · rw [h'.capacity_eq] at hold
          exact absurd hold hge
        · exact hold

end Act

end CacheShard

/-! ### Runs -/

/-- What both ways of running the commands keep to, whether they agree or not. -/
structure Sound (x : Sessions α V cfg) (rows : List (EntryRow α V T)) : Prop where
  opened : x.cache.Open
  recent : x.cache.only.Recent cfg.capacity
  plain : PlainRows cfg.capacity rows
  file_eq : x.file = fileOf rows

/-- The file lists the keys of the cache in store order. -/
def Sessions.Aligned (x : Sessions α V cfg) : Prop :=
  ∃ rows, Sound x rows ∧ rows.map EntryRow.key = x.cache.only.backend.keys

/-- Nothing is stored at the start. -/
theorem aligned_start (hcfg : PlainLru cfg) (now : T) : (Sessions.start cfg now : Sessions α V cfg).Aligned := by
  obtain ⟨hopen, hrecent⟩ := hcfg.inSession_initial now (.empty : Source α V)
  refine ⟨[], ⟨hopen, hrecent, ⟨by simp, by simp, List.nodup_nil, Nat.zero_le _⟩, rfl⟩, rfl⟩

/-- A command acts on the cache and on a shard with the rows of the file, used in their order. -/
theorem Sound.step (hcfg : PlainLru cfg) {x : Sessions α V cfg} {rows : List (EntryRow α V T)} (h : Sound x rows)
    (hash : Key α → ℕ) (l : SessionStep α V T) :
    ∃ (x' : Sessions α V cfg) (sh : CacheShard α V T), x.step hash l = some x' ∧
      Sound x' (sh.act cfg.toCacheConfig l.command (l.clock rows.length)).rows ∧
      x'.cache.only = x.cache.only.act cfg.toCacheConfig l.command l.time ∧
      sh.Recent cfg.capacity ∧ sh.backend.keys = rows.map EntryRow.key ∧
      sh.policy.order = rows.map EntryRow.key := by
  obtain ⟨printed, sh, hrun, hrecent, hsame, horder⟩ :=
    runBasic_fileOf hcfg hash l.clock l.wallNow h.plain l.command
  obtain ⟨s', r, -, hcall, -, hopen, honly⟩ := callAt_op hcfg hash h.opened h.recent l.command l.time
  have hact := hrecent.act hcfg.mode hcfg.timeless l.command (l.clock rows.length)
  refine ⟨⟨_, s'⟩, sh, ?_, ⟨hopen, ?_, hact.plainRows, rfl⟩, honly, hrecent, hsame, horder⟩
  · rw [Sessions.step, h.file_eq, hrun, Option.bind_some, hcall]
    rfl
  · rw [honly]
    exact h.recent.act hcfg.mode hcfg.timeless l.command l.time

/-- What an aligned pair shows: the same keys. -/
theorem Sessions.Aligned.sameKeys {x : Sessions α V cfg} (h : x.Aligned) : x.SameKeys := by
  obtain ⟨rows, hsound, hkeys⟩ := h
  intro k
  rw [hsound.file_eq, fileKeys_fileOf, hkeys]

/-- One command, from an aligned pair: it stays aligned if the command meets the condition, and shows different keys
if not. -/
theorem Sessions.Aligned.step (hcfg : PlainLru cfg) {x x' : Sessions α V cfg} (h : x.Aligned) {l : SessionStep α V T}
    (hstep : x.step hash l = some x') : (KeepsOldest x l → x'.Aligned) ∧ (x'.SameKeys → KeepsOldest x l) := by
  obtain ⟨rows, hsound, hkeys⟩ := h
  obtain ⟨x₁, sh, hrun, hsound', honly, hrecent, hsame, horder⟩ := hsound.step hcfg hash l
  obtain rfl := Option.some.inj (hstep.symm.trans hrun)
  have hkeys' : sh.backend.keys = x.cache.only.backend.keys := hsame.trans hkeys
  have horder' : sh.policy.order = sh.backend.keys := horder.trans hsame.symm
  have hpos : 0 < cfg.capacity := cfg.shardCount_pos.trans_le cfg.shardCount_le_capacity
  obtain ⟨hkeep, hlose⟩ := hrecent.act_keys hsound.recent hpos hcfg.mode hkeys' horder' l.command
    (l.clock rows.length) l.time
  refine ⟨fun hP => ⟨_, hsound', ?_⟩, fun hkeysame => hlose fun k => ?_⟩
  · rw [CacheShard.map_key_rows, honly]
    exact hkeep hP
  · have hk := hkeysame k
    rw [hsound'.file_eq, fileKeys_fileOf, CacheShard.map_key_rows, honly] at hk
    exact hk

/-- Commands do not fail. -/
theorem Sound.run (hcfg : PlainLru cfg) (hash : Key α → ℕ) {x : Sessions α V cfg} {rows : List (EntryRow α V T)}
    (h : Sound x rows) (steps : List (SessionStep α V T)) :
    ∃ x', Transition.run (Sessions.step hash) x steps = some x' := by
  induction steps generalizing x rows with
  | nil => exact ⟨x, rfl⟩
  | cons l steps ih =>
      obtain ⟨x₁, sh, hstep, hsound, -⟩ := h.step hcfg hash l
      obtain ⟨x', hrun⟩ := ih hsound
      exact ⟨x', Transition.run_cons_eq_some.mpr ⟨x₁, hstep, hrun⟩⟩

/-- **Processes evict like one session, as long as the oldest key is the least recently used one.** The commands run
both ways, and the stored keys are the same after every command if and only if every command meets the condition. -/
theorem sessions_agree_iff (hcfg : PlainLru cfg) (hash : Key α → ℕ) (now : T) (steps : List (SessionStep α V T)) :
    (∃ x : Sessions α V cfg, Transition.run (Sessions.step hash) (Sessions.start cfg now) steps = some x) ∧
      ((∀ before x, before <+: steps →
          Transition.run (Sessions.step hash) (Sessions.start cfg now : Sessions α V cfg) before = some x →
          x.SameKeys) ↔
        Transition.Along (Sessions.step hash) KeepsOldest (Sessions.start cfg now : Sessions α V cfg) steps) := by
  have hstart : (Sessions.start cfg now : Sessions α V cfg).Aligned := aligned_start hcfg now
  refine ⟨?_, ?_⟩
  · obtain ⟨rows, hsound, -⟩ := hstart
    exact hsound.run hcfg hash steps
  · refine Transition.forall_observed_iff_along (fun x h => h.sameKeys) ?_ ?_ ?_ hstart steps
    · intro x l h hnone
      obtain ⟨rows, hsound, -⟩ := h
      obtain ⟨x', sh, hstep, -⟩ := hsound.step hcfg hash l
      rw [hnone] at hstep
      cases hstep
    · exact fun x l x' hstep h => (h.step hcfg hstep).1
    · exact fun x l x' hstep h => (h.step hcfg hstep).2

/-- A cache for two entries, as the command line builds it. -/
def twoEntries : AcceptedConfig ℕ := ⟨{ capacity := 2, schedulerInterval := 1, queuePutTimeout := 1 }, rfl⟩

theorem plainLru_twoEntries : PlainLru twoEntries := ⟨rfl, rfl, rfl, by simp [twoEntries]⟩

/-- A put of a key, with all clocks at zero. -/
def putStep (key : ℕ) : SessionStep ℕ ℕ ℕ := ⟨.put key 0 false, fun _ => 0, 0, 0⟩

/-- Three keys, one after another: the key stored first is always the one used longest ago. -/
theorem sessions_agree_in_order : ∃ x : Sessions ℕ ℕ twoEntries,
    Transition.run (Sessions.step fun _ => 0) (Sessions.start twoEntries 0) [putStep 1, putStep 2, putStep 3] = some x ∧
      x.SameKeys := by
  obtain ⟨⟨x, hrun⟩, hagree⟩ :=
    sessions_agree_iff plainLru_twoEntries (fun _ => 0) 0 [putStep 1, putStep 2, putStep 3]
  exact ⟨x, hrun, hagree.mpr (by decide +kernel) _ x (List.prefix_refl _) hrun⟩

/-- After `put 1`, `put 2`, `put 1`, `put 3` the processes have lost 1, which was stored first, and the session has
lost 2, which was used longest ago. -/
theorem processes_evict_otherwise : ∃ x : Sessions ℕ ℕ twoEntries,
    Transition.run (Sessions.step fun _ => 0) (Sessions.start twoEntries 0)
        [putStep 1, putStep 2, putStep 1, putStep 3] = some x ∧
      fileKeys x.file = [some 2, some 3] ∧ x.cache.only.backend.keys = [some 1, some 3] ∧ ¬ x.SameKeys := by
  have heval : ((Transition.run (Sessions.step fun _ => 0) (Sessions.start twoEntries 0)
      [putStep 1, putStep 2, putStep 1, putStep 3]).map fun x : Sessions ℕ ℕ twoEntries =>
        decide (fileKeys x.file = [some 2, some 3] ∧ x.cache.only.backend.keys = [some 1, some 3])) = some true := by
    decide +kernel
  obtain ⟨x, hrun, hx⟩ := Option.map_eq_some_iff.mp heval
  obtain ⟨hfile, hcache⟩ := of_decide_eq_true hx
  refine ⟨x, hrun, hfile, hcache, fun hsame => ?_⟩
  have htwo := (hsame (some 2)).mp (by rw [hfile]; exact List.mem_cons_self)
  rw [hcache] at htwo
  exact absurd htwo (by decide)

end CacheLab
