import CacheLab.Core.Upkeep

/-!
# What the writing sections do

The sections of `put`, `delete` and `clear`, each described key by key: the slot (what flushing sees),
the timed value (what reads see), the source, the jobs, the size, and the agreement of policy and
store.
-/

set_option linter.unusedSectionVars false

namespace CacheLab

variable {α V T : Type} [DecidableEq α] [LinearOrder T] [Zero T] [Add T]

open WriteBehind

namespace CacheShard

variable {sh : CacheShard α V T}

/-! ### Put -/

/-- The shard in which a put enforces the capacity. -/
def stored (cfg : CacheConfig T) (sh : CacheShard α V T) (key : Key α) (value : V) (ttl : Ttl T)
    (now : T) : CacheShard α V T :=
  (sh.dropExpired key now).storeLocked cfg key value ttl now

/-- Storing keeps agreement. -/
theorem Agrees.storeLocked (h : sh.Agrees) (cfg : CacheConfig T) (key : Key α) (value : V)
    (ttl : Ttl T) (now : T) : (sh.storeLocked cfg key value ttl now).Agrees where
  wf := h.wf.onPut key
  mem_iff k := by
    show k ∈ (sh.policy.onPut key).order ↔ k ∈ (sh.backend.entries.set key _).keys
    rw [h.wf.mem_order_onPut, OrderedDict.mem_keys_set, h.mem_iff]
    rfl

/-- What a read sees after storing. -/
theorem timed_storeLocked (cfg : CacheConfig T) (sh : CacheShard α V T) (key k : Key α) (value : V)
    (ttl : Ttl T) (now : T) :
    (sh.storeLocked cfg key value ttl now).timed k =
      if k = key then some (value, (resolveTtl cfg (sh.backend.getEntry key) ttl now).2)
      else sh.timed k := by
  simp only [storeLocked, timed, InMemoryBackend.getEntry_putEntry, freshEntry]
  split_ifs <;> rfl

/-- The size after storing. -/
theorem size_storeLocked (cfg : CacheConfig T) (sh : CacheShard α V T) (key : Key α) (value : V)
    (ttl : Ttl T) (now : T) :
    (sh.storeLocked cfg key value ttl now).backend.size =
      sh.backend.size + if key ∈ sh.backend.keys then 0 else 1 := by
  split_ifs with h
  · exact OrderedDict.size_set_of_mem h _
  · exact OrderedDict.size_set_of_notMem h _

/-- Storing after lazy expiration keeps agreement. -/
theorem Agrees.stored (h : sh.Agrees) (cfg : CacheConfig T) (key : Key α) (value : V) (ttl : Ttl T)
    (now : T) : (sh.stored cfg key value ttl now).Agrees :=
  ((tended_dropExpired sh key now).agrees h).storeLocked cfg key value ttl now

/-- The keys that a put of `key` into the shard evicts: of the eviction order after `on_put`, the
proper keys in front of any `None`, as many as the shard would be too large by. -/
def putVictims (sh : CacheShard α V T) (key : Key α) : List (Key α) :=
  ((sh.policy.onPut key).order.takeWhile Option.isSome).take
    (sh.backend.size + (if key ∈ sh.backend.keys then 0 else 1) - sh.capacity)

/-- The victims of a put, from the shard before it. -/
theorem victims_stored (cfg : CacheConfig T) (sh : CacheShard α V T) (key : Key α) (value : V)
    (ttl : Ttl T) (now : T) :
    (sh.stored cfg key value ttl now).victims = (sh.dropExpired key now).putVictims key := by
  have hsize := size_storeLocked cfg (sh.dropExpired key now) key value ttl now
  rw [putVictims, ← hsize]
  rfl

/-- A put that raises only dropped an expired entry of its key. -/
theorem putLocked_of_raised {cfg : CacheConfig T} (sh : CacheShard α V T) (src : Source α V)
    (key : Key α) (value : V) (ttl : Ttl T) (now : T) {ok : Bool}
    (h : cfg.writeMode = .writeThrough ∧ ok = false) :
    sh.putLocked cfg src key value ttl now ok =
      { shard := sh.dropExpired key now, source := src, raised := true } := by
  simp only [putLocked, if_pos h]

/-- The source after a put that returns. -/
def putSource (cfg : CacheConfig T) (src : Source α V) (key : Key α) (value : V) : Source α V :=
  if cfg.writeMode = .writeThrough then src.apply key (.put value) else src

/-- The flush jobs of a put that returns. -/
def putJobs (cfg : CacheConfig T) (sh : CacheShard α V T) (key : Key α) (value : V) (now : T) :
    List (FlushWriteBack α V) :=
  if cfg.writeMode = .writeBack then
    [{ shardIndex := sh.index
       key := key
       operation := .put value
       version := ((sh.dropExpired key now).slot key).next
       retriesLeft := cfg.writeBackRetryCount }]
  else []

/-- The shard of a put that returns, before the job is registered. -/
def fitted (cfg : CacheConfig T) (sh : CacheShard α V T) (key : Key α) (value : V) (ttl : Ttl T)
    (now : T) : CacheShard α V T :=
  ((sh.stored cfg key value ttl now).removeEntriesLocked (sh.stored cfg key value ttl now).victims
    .evict).2

/-- **A put that returns** stores, evicts the victims and registers its job. -/
theorem Agrees.putLocked_eq (h : sh.Agrees) {cfg : CacheConfig T} (src : Source α V) (key : Key α)
    (value : V) (ttl : Ttl T) (now : T) {ok : Bool}
    (hok : ¬ (cfg.writeMode = .writeThrough ∧ ok = false)) :
    sh.putLocked cfg src key value ttl now ok =
      { shard :=
          if cfg.writeMode = .writeBack then
            (sh.fitted cfg key value ttl now).registerPendingLocked key
          else sh.fitted cfg key value ttl now
        source := putSource cfg src key value
        jobs := putJobs cfg sh key value now } := by
  have henf : ((sh.dropExpired key now).storeLocked cfg key value ttl now).enforceCapacityLocked =
      sh.fitted cfg key value ttl now :=
    (h.stored cfg key value ttl now).enforceCapacityLocked_eq
  have hindex : (sh.fitted cfg key value ttl now).index = sh.index := by
    rw [fitted, removeEntriesLocked_index]
    exact (tended_dropExpired sh key now).index_eq
  rw [putLocked]
  simp only [if_neg hok, henf, hindex, putSource, putJobs, nextVersion_eq]
  by_cases hwb : cfg.writeMode = .writeBack
  · simp only [if_pos hwb]
  · simp only [if_neg hwb]

section Fitted

variable (cfg : CacheConfig T) (sh : CacheShard α V T) (key k : Key α) (value : V) (ttl : Ttl T) (now : T)

@[simp] theorem fitted_index : (sh.fitted cfg key value ttl now).index = sh.index := by
  rw [fitted, removeEntriesLocked_index]
  exact (tended_dropExpired sh key now).index_eq

@[simp] theorem fitted_capacity : (sh.fitted cfg key value ttl now).capacity = sh.capacity := by
  rw [fitted, removeEntriesLocked_capacity]
  exact (tended_dropExpired sh key now).capacity_eq

/-- What a read sees after a put. -/
theorem timed_fitted :
    (sh.fitted cfg key value ttl now).timed k =
      if k ∈ (sh.stored cfg key value ttl now).victims then none
      else if k = key then
        some (value, (resolveTtl cfg ((sh.dropExpired key now).backend.getEntry key) ttl now).2)
      else (sh.dropExpired key now).timed k := by
  rw [timed, fitted, getEntry_removeEntriesLocked]
  split_ifs with hv hk
  · rfl
  · exact (timed_storeLocked cfg _ key k value ttl now).trans (if_pos hk)
  · exact (timed_storeLocked cfg _ key k value ttl now).trans (if_neg hk)

/-- The slots after a put, before its job is registered. -/
theorem slot_fitted :
    (sh.fitted cfg key value ttl now).slot k =
      let s := if k = key then
          ((sh.dropExpired key now).slot key).store value (decide (cfg.writeMode = .writeBack))
        else (sh.dropExpired key now).slot k
      if k ∈ (sh.stored cfg key value ttl now).victims then s.remove else s := by
  rw [fitted, slot_removeEntriesLocked, stored, slot_storeLocked]
  by_cases hk : k = key
  · subst hk
    simp
  · simp [hk]

/-- The keys that are gone after the capacity enforcement are the victims. -/
theorem mem_keys_fitted :
    k ∈ (sh.fitted cfg key value ttl now).backend.keys ↔
      k ∉ (sh.stored cfg key value ttl now).victims ∧
        k ∈ (sh.stored cfg key value ttl now).backend.keys :=
  mem_keys_removeEntriesLocked _ _ _ _

variable {sh}

/-- A put keeps agreement. -/
theorem Agrees.fitted (h : sh.Agrees) : (sh.fitted cfg key value ttl now).Agrees :=
  (h.stored cfg key value ttl now).removeEntriesLocked _ _

/-- The size after a put: what was stored less the victims. -/
theorem Agrees.size_fitted (h : sh.Agrees) :
    (sh.fitted cfg key value ttl now).backend.size + (sh.stored cfg key value ttl now).victims.length =
      (sh.stored cfg key value ttl now).backend.size :=
  size_removeEntriesLocked _ _ (h.stored cfg key value ttl now).nodup_victims
    fun _ hk => (h.stored cfg key value ttl now).mem_of_victims hk

end Fitted

/-! ### Delete -/

section Erase

variable (cfg : CacheConfig T) (sh : CacheShard α V T) (src : Source α V) (key k : Key α)

/-- The slot of an erased key. -/
def erasedSlot (cfg : CacheConfig T) (s : Slot V) : Slot V :=
  if cfg.writeMode = .writeBack then s.bury.remove else s.remove

/-- Lookup after the shared part of `delete` and `clear`. -/
theorem getEntry_eraseLocked :
    (sh.eraseLocked cfg src key).shard.backend.getEntry k =
      if k = key then none else sh.backend.getEntry k := by
  have hbury : ∀ s : CacheShard α V T, (s.removeCounted key).backend = s.backend.deleteEntry key := by
    intro s
    unfold removeCounted
    simp only
    split_ifs <;> exact removeEntryLocked_backend _ _ _
  simp only [eraseLocked, hbury]
  rw [← InMemoryBackend.getEntry_deleteEntry]
  split_ifs <;> rfl

/-- The source after an erasure. -/
theorem source_eraseLocked :
    (sh.eraseLocked cfg src key).source.get? k =
      if k = key ∧ cfg.writeMode = .writeThrough then none else src.get? k := by
  by_cases hwt : cfg.writeMode = .writeThrough
  · rw [eraseLocked]
    simp only
    rw [if_pos hwt, Source.get?_apply]
    simp [WriteOp.outcome, hwt]
  · rw [eraseLocked]
    simp only
    rw [if_neg hwt, if_neg fun h => hwt h.2]

/-- An erasure keeps the shard's index, capacity and agreement. -/
theorem eraseLocked_frame :
    (sh.eraseLocked cfg src key).shard.index = sh.index ∧
      (sh.eraseLocked cfg src key).shard.capacity = sh.capacity ∧
      (sh.Agrees → (sh.eraseLocked cfg src key).shard.Agrees) := by
  have hcounted : ∀ s : CacheShard α V T, (s.removeCounted key).index = s.index ∧
      (s.removeCounted key).capacity = s.capacity ∧ (s.Agrees → (s.removeCounted key).Agrees) := by
    intro s
    have hagrees : s.Agrees → (s.removeEntryLocked key .delete).2.Agrees :=
      fun h => h.removeEntryLocked key .delete
    unfold removeCounted
    simp only
    split_ifs
    · exact ⟨by simp, by simp, fun h => (hagrees h).congr rfl fun _ => Iff.rfl⟩
    · exact ⟨by simp, by simp, hagrees⟩
  simp only [eraseLocked]
  split_ifs
  · refine ⟨(hcounted _).1, (hcounted _).2.1, fun h => (hcounted _).2.2 ?_⟩
    exact h.congr rfl fun _ => Iff.rfl
  · exact hcounted sh

/-- A delete that raises does nothing. -/
theorem deleteLocked_of_raised {ok : Bool} (h : cfg.writeMode = .writeThrough ∧ ok = false) :
    sh.deleteLocked cfg src key ok = { shard := sh, source := src, raised := true } := by
  rw [deleteLocked, if_pos h]

/-- A delete that returns erases the key. -/
theorem deleteLocked_of_returned {ok : Bool} (h : ¬ (cfg.writeMode = .writeThrough ∧ ok = false)) :
    sh.deleteLocked cfg src key ok =
      { sh.eraseLocked cfg src key with
        shard :=
          { (sh.eraseLocked cfg src key).shard with
            singleflight := (sh.eraseLocked cfg src key).shard.singleflight.erase key } } := by
  rw [deleteLocked, if_neg h]

/-- Lookup after a delete that returns. -/
theorem getEntry_deleteLocked {ok : Bool} (h : ¬ (cfg.writeMode = .writeThrough ∧ ok = false)) :
    (sh.deleteLocked cfg src key ok).shard.backend.getEntry k =
      if k = key then none else sh.backend.getEntry k := by
  rw [deleteLocked_of_returned cfg sh src key h]
  exact getEntry_eraseLocked cfg sh src key k

/-- The slots after a delete that returns. -/
theorem slot_deleteLocked {ok : Bool} (h : ¬ (cfg.writeMode = .writeThrough ∧ ok = false)) :
    (sh.deleteLocked cfg src key ok).shard.slot =
      Function.update sh.slot key (erasedSlot cfg (sh.slot key)) := by
  rw [deleteLocked_of_returned cfg sh src key h]
  exact slot_eraseLocked sh key cfg src

end Erase

/-! ### Clear -/

/-- The shard, the source and the jobs after a clear processed the keys `done`. -/
structure Cleared (cfg : CacheConfig T) (sh : CacheShard α V T) (src : Source α V)
    (done : List (Key α)) (r : SectionResult α V T) : Prop where
  index_eq : r.shard.index = sh.index
  capacity_eq : r.shard.capacity = sh.capacity
  slot : ∀ k, r.shard.slot k = if k ∈ done then erasedSlot cfg (sh.slot k) else sh.slot k
  getEntry : ∀ k, r.shard.backend.getEntry k = if k ∈ done then none else sh.backend.getEntry k
  source : ∀ k, r.source.get? k =
    if k ∈ done ∧ cfg.writeMode = .writeThrough then none else src.get? k
  agrees : sh.Agrees → r.raised = true → r.shard.Agrees
  policy : r.raised = false → r.shard.policy = sh.policy.clear

/-- One more key in front. -/
theorem Cleared.cons {cfg : CacheConfig T} {sh : CacheShard α V T} {src : Source α V} {key : Key α}
    {done : List (Key α)} {r : SectionResult α V T} (hkey : key ∉ done)
    (h : Cleared cfg (sh.eraseLocked cfg src key).shard (sh.eraseLocked cfg src key).source done r)
    (hpolicy : r.raised = false → r.shard.policy = sh.policy.clear) :
    Cleared cfg sh src (key :: done) r where
  index_eq := h.index_eq.trans (eraseLocked_frame cfg sh src key).1
  capacity_eq := h.capacity_eq.trans (eraseLocked_frame cfg sh src key).2.1
  slot k := by
    rw [h.slot k, slot_eraseLocked]
    by_cases hk : k = key
    · subst hk
      simp [hkey, erasedSlot]
    · simp [hk]
  getEntry k := by
    rw [h.getEntry k, getEntry_eraseLocked]
    by_cases hk : k = key <;> by_cases hd : k ∈ done <;> simp [hk, hd]
  source k := by
    rw [h.source k, source_eraseLocked]
    by_cases hwt : cfg.writeMode = .writeThrough
    · by_cases hk : k = key <;> by_cases hd : k ∈ done <;> simp [hk, hd, hwt]
    · simp [hwt]
  agrees ha hr := h.agrees ((eraseLocked_frame cfg sh src key).2.2 ha) hr
  policy := hpolicy

/-- The job of a delete depends on the slot of its key only. -/
theorem deleteJob_eraseLocked (cfg : CacheConfig T) (sh : CacheShard α V T) (src : Source α V)
    {key k : Key α} (hk : k ≠ key) :
    (sh.eraseLocked cfg src key).shard.deleteJob cfg k = (sh.deleteJob cfg k : FlushWriteBack α V) := by
  rw [deleteJob, deleteJob, (eraseLocked_frame cfg sh src key).1, nextVersion_eq, slot_eraseLocked,
    Function.update_of_ne hk, nextVersion_eq]

/-- Clearing a policy forgets what it was. -/
theorem clear_policy_eraseLocked (cfg : CacheConfig T) (sh : CacheShard α V T) (src : Source α V)
    (key : Key α) : (sh.eraseLocked cfg src key).shard.policy.clear = sh.policy.clear := by
  have hclear : ∀ p : EvictionPolicy α, (p.onDelete key).clear = p.clear := by
    intro p
    cases p <;> rfl
  have hcounted : ∀ s : CacheShard α V T, (s.removeCounted key).policy = s.policy.onDelete key := by
    intro s
    unfold removeCounted
    simp only
    split_ifs <;> exact removeEntryLocked_policy _ _ _
  simp only [eraseLocked, hcounted, hclear]
  split_ifs <;> rfl

/-- **The loop of a clear** processes the keys up to the first source call that fails. -/
theorem clearKeysLocked_spec (cfg : CacheConfig T) (ok : Key α → Bool) {keys : List (Key α)}
    (hnd : keys.Nodup) (sh : CacheShard α V T) (src : Source α V) (jobs : List (FlushWriteBack α V)) :
    ∃ done rest, keys = done ++ rest ∧
      Cleared cfg sh src done (clearKeysLocked cfg ok keys sh src jobs) ∧
      (clearKeysLocked cfg ok keys sh src jobs).jobs =
        jobs ++ (if cfg.writeMode = .writeBack then done.map (sh.deleteJob cfg) else []) ∧
      ((clearKeysLocked cfg ok keys sh src jobs).raised = false → rest = []) ∧
      ((clearKeysLocked cfg ok keys sh src jobs).raised = true →
        cfg.writeMode = .writeThrough ∧ ∃ k rest', rest = k :: rest' ∧ ok k = false) := by
  induction keys generalizing sh src jobs with
  | nil =>
      refine ⟨[], [], rfl, ⟨rfl, rfl, fun k => ?_, fun k => ?_, fun k => ?_, ?_, fun _ => rfl⟩, ?_, ?_, ?_⟩
      · rw [if_neg List.not_mem_nil]
        rfl
      · rw [if_neg List.not_mem_nil]
        rfl
      · rw [if_neg fun h => List.not_mem_nil h.1]
        rfl
      · intro _ hr
        cases hr
      · simp [clearKeysLocked]
      · exact fun _ => rfl
      · intro hr
        cases hr
  | cons key keys ih =>
      obtain ⟨hkey, hnd⟩ := List.nodup_cons.mp hnd
      rw [clearKeysLocked]
      by_cases hfail : cfg.writeMode = .writeThrough ∧ ok key = false
      · rw [if_pos hfail]
        refine ⟨[], key :: keys, rfl, ⟨rfl, rfl, by simp, by simp, by simp, fun h _ => h, ?_⟩, by simp,
          ?_, fun _ => ⟨hfail.1, key, keys, rfl, hfail.2⟩⟩
        · intro hr
          cases hr
        · intro hr
          cases hr
      · rw [if_neg hfail]
        obtain ⟨done, rest, hsplit, hcleared, hjobs, hret, hraise⟩ := ih hnd
          (sh.eraseLocked cfg src key).shard (sh.eraseLocked cfg src key).source
          (jobs ++ (sh.eraseLocked cfg src key).jobs)
        have hkd : key ∉ done := fun h => hkey (by rw [hsplit]; exact List.mem_append_left _ h)
        refine ⟨key :: done, rest, by rw [hsplit]; rfl, hcleared.cons hkd ?_, ?_, hret, hraise⟩
        · intro hr
          rw [hcleared.policy hr, clear_policy_eraseLocked]
        · simp only
          rw [hjobs]
          by_cases hwb : cfg.writeMode = .writeBack
          · have hmap : done.map ((sh.eraseLocked cfg src key).shard.deleteJob cfg) =
                done.map (sh.deleteJob cfg : Key α → FlushWriteBack α V) :=
              List.map_congr_left fun k hk =>
                deleteJob_eraseLocked cfg sh src fun h => hkd (h ▸ hk)
            simp [eraseLocked, hwb] at hmap ⊢
            exact hmap
          · simp [eraseLocked, hwb]

/-- **A clear of a shard**: it processes the resident keys, in order, up to the first source call that
fails; without a failure the shard is empty. -/
theorem clearLocked_spec (cfg : CacheConfig T) (sh : CacheShard α V T) (src : Source α V)
    (ok : Key α → Bool) :
    ∃ done rest, sh.backend.keys = done ++ rest ∧ Cleared cfg sh src done (sh.clearLocked cfg src ok) ∧
      (sh.clearLocked cfg src ok).jobs =
        (if cfg.writeMode = .writeBack then done.map (sh.deleteJob cfg) else []) ∧
      ((sh.clearLocked cfg src ok).raised = false → rest = []) ∧
      ((sh.clearLocked cfg src ok).raised = true →
        cfg.writeMode = .writeThrough ∧ ∃ k rest', rest = k :: rest' ∧ ok k = false) := by
  obtain ⟨done, rest, hsplit, hcleared, hjobs, hret, hraise⟩ :=
    clearKeysLocked_spec cfg ok sh.backend.entries.keys_nodup sh src []
  exact ⟨done, rest, hsplit, hcleared, by rwa [List.nil_append] at hjobs, hret, hraise⟩

/-- A clear keeps agreement, whether it returns or raises. -/
theorem Agrees.clearLocked (h : sh.Agrees) (cfg : CacheConfig T) (src : Source α V)
    (ok : Key α → Bool) : (sh.clearLocked cfg src ok).shard.Agrees := by
  obtain ⟨done, rest, hsplit, hcleared, -, hret, -⟩ := clearLocked_spec cfg sh src ok
  cases hr : (sh.clearLocked cfg src ok).raised with
  | true => exact hcleared.agrees h hr
  | false =>
      refine ⟨hcleared.policy hr ▸ EvictionPolicy.wf_clear _, fun k => ?_⟩
      rw [hcleared.policy hr, EvictionPolicy.order_clear, InMemoryBackend.mem_keys_iff_isSome,
        hcleared.getEntry]
      rw [hret hr, List.append_nil] at hsplit
      by_cases hk : k ∈ sh.backend.keys
      · simp [← hsplit, hk]
      · have hnone : sh.backend.getEntry k = none := by
          rw [InMemoryBackend.mem_keys_iff_isSome] at hk
          simpa using hk
        simp [← hsplit, hk, hnone]

end CacheShard

end CacheLab
