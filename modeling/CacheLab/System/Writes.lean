import CacheLab.System.Base

/-!
# The writing sections, key by key

What the lock sections of `put`, `delete` and `clear` do to the shared state, seen from one key: what
a read sees (`timed`), what flushing sees (`slot`), the source, the events and the flush jobs. The
later modules use these specifications and do not look into the sections again.
-/

set_option linter.unusedSectionVars false

namespace CacheLab

variable {α V T : Type} [DecidableEq α] [LinearOrder T] [Zero T] [Add T] [Sub T]

open WriteBehind

variable {cfg : AcceptedConfig T} {hash : Key α → ℕ}

/-- The shard of a key after one shard was replaced. -/
theorem Shared.home_of_update {s s' : Shared α V cfg} {i : Fin cfg.shardCount} {sh : CacheShard α V T}
    (h : s'.shards = Function.update s.shards i sh) (k : Key α) :
    s'.home hash k = if shardFor cfg hash k = i then sh else s.home hash k := by
  unfold Shared.home
  rw [h]
  split_ifs with hk
  · rw [hk, Function.update_self]
  · rw [Function.update_of_ne hk]

/-- The keys that a section took out of a shard. -/
theorem Shared.mem_gone {before after : CacheShard α V T} {k : Key α} :
    k ∈ Shared.gone before after ↔ k ∈ before.backend.keys ∧ k ∉ after.backend.keys := by
  simp [Shared.gone]

/-! ### Put -/

/-- A put that returned: `gone` are the keys that capacity enforcement took out, `ts` the jobs it
left. -/
structure PutDone (hash : Key α → ℕ) (s : Shared α V cfg) (key : Key α) (value : V) (ttl : Ttl T)
    (gone : List (Key α)) (s' : Shared α V cfg) (ts : List (Ticket α V)) : Prop where
  now_eq : s'.now = s.now
  gone_iff : ∀ k, k ∈ gone ↔
    k ∈ ((s.home hash key).stored cfg.toCacheConfig key value ttl s.now).victims
  gone_home : ∀ k ∈ gone, shardFor cfg hash k = shardFor cfg hash key
  timed : ∀ k, (s'.home hash k).timed k =
    if k ∈ gone then none
    else if k = key then
      some (value, (resolveTtl cfg.toCacheConfig
        (((s.home hash key).dropExpired key s.now).backend.getEntry key) ttl s.now).2)
    else (s.home hash k).timed k
  slot_self : (s'.home hash key).slot key =
    let x := (((s.home hash key).dropExpired key s.now).slot key).store value
      (decide (cfg.writeMode = .writeBack))
    let y := if key ∈ gone then x.remove else x
    if cfg.writeMode = .writeBack then y.register else y
  slot_of_ne : ∀ k, k ≠ key →
    (s'.home hash k).slot k = if k ∈ gone then ((s.home hash k).slot k).remove else (s.home hash k).slot k
  source_eq : s'.source = CacheShard.putSource cfg.toCacheConfig s.source key value
  log_eq : s'.log = (Event.stored key value ttl s.now :: gone.map .evicted).reverse ++ s.log
  queue_eq : s'.queue = s.queue
  tickets_eq : ts = ticketsFrom s.log.length
    (CacheShard.putJobs cfg.toCacheConfig (s.home hash key) key value s.now)

/-- The section of a put that raises drops at most an expired entry of its key. -/
theorem putSection_of_raised (hash : Key α → ℕ) (s : Shared α V cfg) (key : Key α) (value : V)
    (ttl : Ttl T) {ok : Bool} (h : cfg.writeMode = .writeThrough ∧ ok = false) :
    s.putSection hash key value ttl ok =
      (s.setShard (shardFor cfg hash key) ((s.home hash key).dropExpired key s.now), [], true) := by
  simp [Shared.putSection, CacheShard.putLocked_of_raised _ _ _ _ _ _ h, Shared.setShard, Shared.emit,
    ticketsFrom]

/-- Lazy expiration of one key leaves the slots of the other keys alone. -/
theorem slot_dropExpired_of_ne (sh : CacheShard α V T) {key k : Key α} (hk : k ≠ key) (now : T) :
    (sh.dropExpired key now).slot k = sh.slot k := by
  unfold CacheShard.dropExpired
  cases sh.backend.getEntry key with
  | none => rfl
  | some e =>
      simp only
      split_ifs
      · rw [CacheShard.slot_removeEntryLocked, Function.update_of_ne hk]
      · rfl

/-- Lazy expiration of one key leaves what reads of the other keys see alone. -/
theorem timed_dropExpired_of_ne (sh : CacheShard α V T) {key k : Key α} (hk : k ≠ key) (now : T) :
    (sh.dropExpired key now).timed k = sh.timed k := by
  unfold CacheShard.dropExpired
  cases sh.backend.getEntry key with
  | none => rfl
  | some e =>
      simp only
      split_ifs
      · rw [CacheShard.timed, CacheShard.removeEntryLocked_backend,
          InMemoryBackend.getEntry_deleteEntry, if_neg hk]
        rfl
      · rfl

namespace CacheShard

variable (cfg : CacheConfig T) (sh : CacheShard α V T) (key k : Key α) (value : V) (ttl : Ttl T) (now : T)

/-- The shard of a put that returns. -/
def committed : CacheShard α V T :=
  if cfg.writeMode = .writeBack then (sh.fitted cfg key value ttl now).registerPendingLocked key
  else sh.fitted cfg key value ttl now

/-- Registering the job changes nothing that reads see. -/
theorem sameData_committed :
    (sh.fitted cfg key value ttl now).SameData (sh.committed cfg key value ttl now) := by
  unfold committed
  split_ifs
  · exact sameData_registerPendingLocked _ key
  · exact .refl _

/-- The slot of the key that was put. -/
theorem slot_committed_self :
    (sh.committed cfg key value ttl now).slot key =
      let x := ((sh.dropExpired key now).slot key).store value (decide (cfg.writeMode = .writeBack))
      let y := if key ∈ (sh.stored cfg key value ttl now).victims then x.remove else x
      if cfg.writeMode = .writeBack then y.register else y := by
  have hslot := slot_fitted cfg sh key key value ttl now
  rw [if_pos rfl] at hslot
  unfold committed
  by_cases hwb : cfg.writeMode = .writeBack
  · simp only [if_pos hwb]
    rw [slot_registerPendingLocked, Function.update_self, hslot]
  · simp only [if_neg hwb]
    rw [hslot]

/-- The slots of the other keys of the shard. -/
theorem slot_committed_of_ne (hk : k ≠ key) :
    (sh.committed cfg key value ttl now).slot k =
      if k ∈ (sh.stored cfg key value ttl now).victims then (sh.slot k).remove else sh.slot k := by
  have hslot := slot_fitted cfg sh key k value ttl now
  rw [if_neg hk, slot_dropExpired_of_ne sh hk] at hslot
  rw [← hslot, committed]
  split_ifs
  · rw [slot_registerPendingLocked, Function.update_of_ne hk]
  · rfl

end CacheShard

/-- The victims of a put belong to the shard of its key. -/
theorem ShardOk.shardFor_victims {key : Key α} {sh : CacheShard α V T}
    (h : ShardOk cfg hash (shardFor cfg hash key) sh) {value : V} {ttl : Ttl T} {now : T} {k : Key α}
    (hk : k ∈ (sh.stored cfg.toCacheConfig key value ttl now).victims) :
    shardFor cfg hash k = shardFor cfg hash key := by
  by_contra hne
  have hkey : k ≠ key := fun e => hne (by rw [e])
  have hres := (h.agrees.stored cfg.toCacheConfig key value ttl now).mem_of_victims hk
  rw [CacheShard.mem_keys_iff_timed, CacheShard.stored, CacheShard.timed_storeLocked, if_neg hkey,
    timed_dropExpired_of_ne sh hkey, CacheShard.timed, h.getEntry_eq_none hne] at hres
  cases hres

/-- **The section of a put that returns.** -/
theorem putSection_of_returned {s : Shared α V cfg} (hs : ∀ i, ShardOk cfg hash i (s.shards i))
    (key : Key α) (value : V) (ttl : Ttl T) {ok : Bool}
    (h : ¬ (cfg.writeMode = .writeThrough ∧ ok = false)) :
    (s.putSection hash key value ttl ok).2.2 = false ∧
      ∃ gone, PutDone hash s key value ttl gone (s.putSection hash key value ttl ok).1
        (s.putSection hash key value ttl ok).2.1 := by
  have hok := hs (shardFor cfg hash key)
  have hput : s.putSection hash key value ttl ok =
      (({ s with source := CacheShard.putSource cfg.toCacheConfig s.source key value }.setShard
          (shardFor cfg hash key) ((s.home hash key).committed cfg.toCacheConfig key value ttl s.now)).emit
          (Event.stored key value ttl s.now ::
            (Shared.gone ((s.home hash key).stored cfg.toCacheConfig key value ttl s.now)
              ((s.home hash key).committed cfg.toCacheConfig key value ttl s.now)).map .evicted),
        ticketsFrom s.log.length (CacheShard.putJobs cfg.toCacheConfig (s.home hash key) key value s.now),
        false) := by
    simp only [Shared.putSection, hok.agrees.putLocked_eq _ _ _ _ _ h]
    rfl
  have hsame := CacheShard.sameData_committed cfg.toCacheConfig (s.home hash key) key value ttl s.now
  have hgone : ∀ k, k ∈ Shared.gone ((s.home hash key).stored cfg.toCacheConfig key value ttl s.now)
        ((s.home hash key).committed cfg.toCacheConfig key value ttl s.now) ↔
      k ∈ ((s.home hash key).stored cfg.toCacheConfig key value ttl s.now).victims := by
    intro k
    rw [Shared.mem_gone, hsame.keys_eq, CacheShard.mem_keys_fitted]
    have hmem := fun hv => (hok.agrees.stored cfg.toCacheConfig key value ttl s.now).mem_of_victims (k := k) hv
    tauto
  rw [hput]
  refine ⟨rfl, _, ⟨rfl, hgone, fun k hk => hok.shardFor_victims ((hgone k).mp hk), fun k => ?_, ?_,
    fun k hk => ?_, rfl, rfl, rfl, rfl⟩⟩
  · rw [Shared.home_of_update rfl]
    simp only [hgone]
    by_cases hi : shardFor cfg hash k = shardFor cfg hash key
    · rw [if_pos hi, hsame.timed_eq, CacheShard.timed_fitted]
      by_cases hk : k = key
      · simp only [if_pos hk]
      · rw [if_neg hk, if_neg hk, timed_dropExpired_of_ne _ hk, Shared.home, Shared.home, hi]
    · have hk : k ≠ key := fun e => hi (by rw [e])
      rw [if_neg hi, if_neg fun hv => hi (hok.shardFor_victims hv), if_neg hk]
  · rw [Shared.home_of_update rfl, if_pos rfl, CacheShard.slot_committed_self]
    simp only [hgone]
  · rw [Shared.home_of_update rfl]
    simp only [hgone]
    by_cases hi : shardFor cfg hash k = shardFor cfg hash key
    · rw [if_pos hi, CacheShard.slot_committed_of_ne _ _ _ _ _ _ _ hk, Shared.home, Shared.home, hi]
    · rw [if_neg hi, if_neg fun hv => hi (hok.shardFor_victims hv)]

/-! ### Delete -/

/-- A delete that returned, with the jobs it left. -/
structure DeleteDone (hash : Key α → ℕ) (s : Shared α V cfg) (key : Key α) (s' : Shared α V cfg)
    (ts : List (Ticket α V)) : Prop where
  now_eq : s'.now = s.now
  timed : ∀ k, (s'.home hash k).timed k = if k = key then none else (s.home hash k).timed k
  slot : ∀ k, (s'.home hash k).slot k =
    if k = key then CacheShard.erasedSlot cfg.toCacheConfig ((s.home hash k).slot k) else (s.home hash k).slot k
  source : ∀ k, s'.source.get? k =
    if k = key ∧ cfg.writeMode = .writeThrough then none else s.source.get? k
  log_eq : s'.log = .erased key :: s.log
  queue_eq : s'.queue = s.queue
  tickets_eq : ts = ticketsFrom s.log.length
    (if cfg.writeMode = .writeBack then [(s.home hash key).deleteJob cfg.toCacheConfig key] else [])

/-- The section of a delete that raises does nothing. -/
theorem deleteSection_of_raised (hash : Key α → ℕ) (s : Shared α V cfg) (key : Key α) {ok : Bool}
    (h : cfg.writeMode = .writeThrough ∧ ok = false) : s.deleteSection hash key ok = (s, [], true) := by
  simp [Shared.deleteSection, CacheShard.deleteLocked_of_raised _ _ _ _ h, Shared.setShard, Shared.emit,
    ticketsFrom]

/-- **The section of a delete that returns.** -/
theorem deleteSection_of_returned (hash : Key α → ℕ) (s : Shared α V cfg) (key : Key α) {ok : Bool}
    (h : ¬ (cfg.writeMode = .writeThrough ∧ ok = false)) :
    (s.deleteSection hash key ok).2.2 = false ∧
      DeleteDone hash s key (s.deleteSection hash key ok).1 (s.deleteSection hash key ok).2.1 := by
  have hraised : ((s.home hash key).deleteLocked cfg.toCacheConfig s.source key ok).raised = false := by
    rw [CacheShard.deleteLocked_of_returned _ _ _ _ h]
    rfl
  have hlog : (s.deleteSection hash key ok).1.log = .erased key :: s.log := by
    simp only [Shared.deleteSection, hraised]
    rfl
  have hshards : (s.deleteSection hash key ok).1.shards = Function.update s.shards
      (shardFor cfg hash key) ((s.home hash key).deleteLocked cfg.toCacheConfig s.source key ok).shard := rfl
  refine ⟨hraised, ⟨rfl, fun k => ?_, fun k => ?_, fun k => ?_, hlog, rfl, ?_⟩⟩
  · rw [Shared.home_of_update hshards]
    by_cases hi : shardFor cfg hash k = shardFor cfg hash key
    · rw [if_pos hi, CacheShard.timed, CacheShard.getEntry_deleteLocked _ _ _ _ _ h, Shared.home,
        Shared.home, hi]
      split_ifs <;> rfl
    · have hk : k ≠ key := fun e => hi (by rw [e])
      rw [if_neg hi, if_neg hk]
  · rw [Shared.home_of_update hshards]
    by_cases hi : shardFor cfg hash k = shardFor cfg hash key
    · rw [if_pos hi, CacheShard.slot_deleteLocked _ _ _ _ h, Shared.home, Shared.home, hi]
      by_cases hk : k = key
      · subst hk
        rw [Function.update_self, if_pos rfl]
      · rw [Function.update_of_ne hk, if_neg hk]
    · have hk : k ≠ key := fun e => hi (by rw [e])
      rw [if_neg hi, if_neg hk]
  · show ((s.home hash key).deleteLocked cfg.toCacheConfig s.source key ok).source.get? k = _
    rw [CacheShard.deleteLocked_of_returned _ _ _ _ h]
    exact CacheShard.source_eraseLocked cfg.toCacheConfig (s.home hash key) s.source key k
  · show ticketsFrom s.log.length
      ((s.home hash key).deleteLocked cfg.toCacheConfig s.source key ok).jobs = _
    rw [CacheShard.deleteLocked_of_returned _ _ _ _ h]
    rfl

/-! ### Clear -/

/-- The section of a clear on shard `i` that processed the keys `done` and left `rest`. -/
structure ClearDone (hash : Key α → ℕ) (s : Shared α V cfg) (i : Fin cfg.shardCount)
    (ok : Key α → Bool) (done rest : List (Key α)) (s' : Shared α V cfg) (ts : List (Ticket α V))
    (raised : Bool) : Prop where
  now_eq : s'.now = s.now
  keys_eq : (s.shards i).backend.keys = done ++ rest
  home : ∀ k ∈ done, shardFor cfg hash k = i
  rest_of_returned : raised = false → rest = []
  rest_of_raised : raised = true →
    cfg.writeMode = .writeThrough ∧ ∃ k rest', rest = k :: rest' ∧ ok k = false
  entries : ∀ k, (s'.home hash k).backend.getEntry k =
    if k ∈ done then none else (s.home hash k).backend.getEntry k
  slot : ∀ k, (s'.home hash k).slot k =
    if k ∈ done then CacheShard.erasedSlot cfg.toCacheConfig ((s.home hash k).slot k) else (s.home hash k).slot k
  source : ∀ k, s'.source.get? k =
    if k ∈ done ∧ cfg.writeMode = .writeThrough then none else s.source.get? k
  log_eq : s'.log = (done.map Event.erased ++ if raised then [] else [Event.cleared i]).reverse ++ s.log
  queue_eq : s'.queue = s.queue
  tickets_eq : ts = ticketsFrom s.log.length
    (if cfg.writeMode = .writeBack then done.map ((s.shards i).deleteJob cfg.toCacheConfig) else [])

/-- What a read sees after the section of a clear. -/
theorem ClearDone.timed {s s' : Shared α V cfg} {i : Fin cfg.shardCount} {ok : Key α → Bool}
    {done rest : List (Key α)} {ts : List (Ticket α V)} {raised : Bool}
    (h : ClearDone hash s i ok done rest s' ts raised) (k : Key α) :
    (s'.home hash k).timed k = if k ∈ done then none else (s.home hash k).timed k := by
  rw [CacheShard.timed, h.entries]
  split_ifs <;> rfl

/-- **The section of a clear.** -/
theorem clearSection_spec {s : Shared α V cfg} (hs : ∀ i, ShardOk cfg hash i (s.shards i))
    (i : Fin cfg.shardCount) (ok : Key α → Bool) :
    ∃ done rest, ClearDone hash s i ok done rest (s.clearSection i ok).1 (s.clearSection i ok).2.1
      (s.clearSection i ok).2.2 := by
  obtain ⟨done, rest, hsplit, hcleared, hjobs, hret, hraise⟩ :=
    CacheShard.clearLocked_spec cfg.toCacheConfig (s.shards i) s.source ok
  have hhome : ∀ k ∈ (s.shards i).backend.keys, shardFor cfg hash k = i := by
    intro k hk
    obtain ⟨e, he⟩ := InMemoryBackend.mem_keys_iff.mp hk
    exact (hs i).shardFor_eq he
  have hdone : ∀ k ∈ done, shardFor cfg hash k = i :=
    fun k hk => hhome k (hsplit ▸ List.mem_append_left _ hk)
  have hshards : (s.clearSection i ok).1.shards = Function.update s.shards i
      ((s.shards i).clearLocked cfg.toCacheConfig s.source ok).shard := rfl
  -- the processed keys are a prefix of the resident keys, and exactly they are gone
  have hgone : Shared.gone (s.shards i) ((s.shards i).clearLocked cfg.toCacheConfig s.source ok).shard =
      done := by
    have hnd : (done ++ rest).Nodup := hsplit ▸ (s.shards i).backend.entries.keys_nodup
    have hafter : ∀ k ∈ done ++ rest, k ∈
        ((s.shards i).clearLocked cfg.toCacheConfig s.source ok).shard.backend.keys ↔ k ∉ done := by
      intro k hk
      rw [InMemoryBackend.mem_keys_iff_isSome, hcleared.getEntry]
      have hres : ((s.shards i).backend.getEntry k).isSome :=
        InMemoryBackend.mem_keys_iff_isSome.mp (hsplit ▸ hk)
      split_ifs with hd <;> simp [hd, hres]
    rw [Shared.gone, hsplit, List.filter_append]
    have h1 : done.filter (fun k => k ∉
        ((s.shards i).clearLocked cfg.toCacheConfig s.source ok).shard.backend.keys) = done :=
      List.filter_eq_self.mpr fun k hk => by
        simpa [hafter k (List.mem_append_left _ hk)] using hk
    have h2 : rest.filter (fun k => k ∉
        ((s.shards i).clearLocked cfg.toCacheConfig s.source ok).shard.backend.keys) = [] :=
      List.filter_eq_nil_iff.mpr fun k hk => by
        have hd : k ∉ done := fun hd => (List.nodup_append.mp hnd).2.2 k hd k hk rfl
        simpa [hafter k (List.mem_append_right _ hk)] using hd
    rw [h1, h2, List.append_nil]
  refine ⟨done, rest, ⟨rfl, hsplit, hdone, hret, hraise, fun k => ?_, fun k => ?_, hcleared.source, ?_, rfl,
    ?_⟩⟩
  · rw [Shared.home_of_update hshards]
    by_cases hi : shardFor cfg hash k = i
    · rw [if_pos hi, hcleared.getEntry, Shared.home, hi]
    · rw [if_neg hi, if_neg fun hd => hi (hdone k hd)]
  · rw [Shared.home_of_update hshards]
    by_cases hi : shardFor cfg hash k = i
    · rw [if_pos hi, hcleared.slot, Shared.home, hi]
    · rw [if_neg hi, if_neg fun hd => hi (hdone k hd)]
  · show (_ : List (Event α V T)) = _
    simp only [Shared.clearSection, Shared.emit, Shared.setShard, hgone]
  · show ticketsFrom s.log.length ((s.shards i).clearLocked cfg.toCacheConfig s.source ok).jobs = _
    rw [hjobs]

end CacheLab
