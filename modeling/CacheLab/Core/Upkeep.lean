import CacheLab.Core.Eviction

/-!
# What a shard can do besides writing

Two relations between a shard before and after a lock section that is not a write:

* `Tended now`: reads, sweeps and bookkeeping of flights. For each key either nothing that a read or
  a flush can see changed, or an entry that was expired at `now` is gone;
* `SameData`: the bookkeeping of flush jobs. Nothing that a read can see changed.
-/

set_option linter.unusedSectionVars false

namespace CacheLab

variable {α V T : Type} [DecidableEq α] [LinearOrder T] [Zero T] [Add T]

open WriteBehind

/-- An expired entry has a deadline that has passed. -/
theorem CacheEntry.isExpired_iff {e : CacheEntry α V T} {now : T} :
    e.isExpired now = true ↔ ∃ d, e.expiresAt = some d ∧ d ≤ now := by
  unfold isExpired
  cases e.expiresAt <;> simp

/-- What is left at time `t` of a value with a deadline: it is there strictly below the deadline. -/
def visible (x : Option (V × Option T)) (t : T) : Option V :=
  x.bind fun p =>
    match p.2 with
    | none => some p.1
    | some d => if d ≤ t then none else some p.1

/-- A value is visible strictly below its deadline. -/
theorem visible_eq_some_iff {x : Option (V × Option T)} {t : T} {v : V} :
    visible x t = some v ↔ ∃ d, x = some (v, d) ∧ ∀ u, d = some u → t < u := by
  unfold visible
  rcases x with _ | ⟨w, _ | u⟩
  · simp
  · simp [eq_comm]
  · by_cases hu : u ≤ t
    · simp [hu]
    · simp [hu, lt_of_not_ge hu, eq_comm]

namespace CacheShard

/-! ### Reads and sweeps -/

/-- The shard after a section that is no write. -/
structure Tended (now : T) (sh sh' : CacheShard α V T) : Prop where
  index_eq : sh'.index = sh.index
  capacity_eq : sh'.capacity = sh.capacity
  agrees : sh.Agrees → sh'.Agrees
  size_le : sh'.backend.size ≤ sh.backend.size
  key : ∀ k, (sh'.slot k = sh.slot k ∧ sh'.timed k = sh.timed k) ∨
    ∃ v d, sh.timed k = some (v, some d) ∧ d ≤ now ∧ sh'.slot k = (sh.slot k).remove ∧
      sh'.timed k = none

variable {now : T} {sh sh' sh'' : CacheShard α V T}

/-- Nothing happened. -/
theorem Tended.refl (now : T) (sh : CacheShard α V T) : Tended now sh sh :=
  ⟨rfl, rfl, id, le_rfl, fun _ => .inl ⟨rfl, rfl⟩⟩

/-- One section after another. -/
theorem Tended.trans (h : Tended now sh sh') (h' : Tended now sh' sh'') : Tended now sh sh'' where
  index_eq := h'.index_eq.trans h.index_eq
  capacity_eq := h'.capacity_eq.trans h.capacity_eq
  agrees ha := h'.agrees (h.agrees ha)
  size_le := h'.size_le.trans h.size_le
  key k := by
    rcases h.key k with ⟨hs, ht⟩ | ⟨v, d, ht, hd, hs, hnone⟩
    · rcases h'.key k with ⟨hs', ht'⟩ | ⟨v, d, ht', hd, hs', hnone⟩
      · exact .inl ⟨hs'.trans hs, ht'.trans ht⟩
      · exact .inr ⟨v, d, ht ▸ ht', hd, hs ▸ hs', hnone⟩
    · rcases h'.key k with ⟨hs', ht'⟩ | ⟨v', d', ht', -⟩
      · exact .inr ⟨v, d, ht, hd, hs'.trans hs, ht'.trans hnone⟩
      · rw [hnone] at ht'
        cases ht'

/-- Changing counters and flights. -/
theorem Tended.of_eq (hi : sh'.index = sh.index) (hc : sh'.capacity = sh.capacity)
    (hb : sh'.backend = sh.backend) (hp : sh'.policy = sh.policy)
    (hm : sh'.versionMarks = sh.versionMarks) (ht : sh'.tombstones = sh.tombstones)
    (hpend : sh'.pendingFlushes = sh.pendingFlushes) : Tended now sh sh' where
  index_eq := hi
  capacity_eq := hc
  agrees ha := ha.congr hp fun k => by rw [hb]
  size_le := by rw [hb]
  key k := .inl ⟨by rw [slot_congr hb hm ht hpend], by simp only [timed, hb]⟩

/-- Removing an expired entry. -/
theorem Tended.expire {key : Key α} {e : CacheEntry α V T} (he : sh.backend.getEntry key = some e)
    (hx : e.isExpired now = true) : Tended now sh (sh.removeEntryLocked key .expire).2 where
  index_eq := by simp
  capacity_eq := by simp
  agrees ha := ha.removeEntryLocked key .expire
  size_le := by
    rw [removeEntryLocked_backend]
    exact OrderedDict.size_erase_le _ _
  key k := by
    rw [slot_removeEntryLocked]
    simp only [timed, removeEntryLocked_backend, InMemoryBackend.getEntry_deleteEntry]
    by_cases hk : k = key
    · subst hk
      obtain ⟨d, hd, hle⟩ := CacheEntry.isExpired_iff.mp hx
      exact .inr ⟨e.value, d, by simp [he, hd], hle, by simp, by simp⟩
    · exact .inl ⟨by simp [hk], by simp [hk]⟩

/-- Replacing an entry by one with the same value, deadline, version and dirty flag. -/
theorem Tended.replace {e : CacheEntry α V T} (e' : CacheEntry α V T)
    (he : sh.backend.getEntry e.key = some e) (hkey : e'.key = e.key) (hheld : e'.held = e.held)
    (hx : e'.expiresAt = e.expiresAt) {p : EvictionPolicy α} (hp : sh.policy.WF → p.WF)
    (ho : sh.policy.WF → ∀ k, k ∈ p.order ↔ k ∈ sh.policy.order) :
    Tended now sh { sh with backend := sh.backend.putEntry e', policy := p } where
  index_eq := rfl
  capacity_eq := rfl
  agrees ha := by
    refine ⟨hp ha.wf, fun k => ?_⟩
    have hmem : e'.key ∈ sh.backend.keys := hkey ▸ InMemoryBackend.mem_keys_iff.mpr ⟨e, he⟩
    show k ∈ p.order ↔ k ∈ (sh.backend.entries.set e'.key e').keys
    rw [OrderedDict.keys_set_of_mem hmem, ho ha.wf, ha.mem_iff]
    rfl
  size_le := by
    have hmem : e'.key ∈ sh.backend.keys := hkey ▸ InMemoryBackend.mem_keys_iff.mpr ⟨e, he⟩
    exact (OrderedDict.size_set_of_mem hmem e').le
  key k := by
    refine .inl ⟨by rw [slot_putEntry sh he hkey hheld], ?_⟩
    simp only [timed, InMemoryBackend.getEntry_putEntry, hkey]
    split_ifs with hk
    · have hv : e'.value = e.value := congrArg Held.value hheld
      simp [hk, he, hv, hx]
    · rfl

/-- A read reports what is visible. -/
theorem readValueLocked_fst (sh : CacheShard α V T) (key : Key α) (touch countStats : Bool) (now : T) :
    (sh.readValueLocked key touch countStats now).1 = visible (sh.timed key) now := by
  unfold readValueLocked timed visible
  cases sh.backend.getEntry key with
  | none => rfl
  | some e =>
      simp only [Option.map_some, Option.bind_some, CacheEntry.isExpired]
      cases e.expiresAt with
      | none => rfl
      | some d => by_cases hd : d ≤ now <;> simp [hd]

/-- A read. -/
theorem tended_readValueLocked (sh : CacheShard α V T) (key : Key α) (touch countStats : Bool)
    (now : T) : Tended now sh (sh.readValueLocked key touch countStats now).2 := by
  unfold readValueLocked
  cases he : sh.backend.getEntry key with
  | none => cases countStats <;> exact Tended.of_eq rfl rfl rfl rfl rfl rfl rfl
  | some e =>
      simp only
      cases hx : e.isExpired now with
      | true =>
          refine (Tended.expire he hx).trans ?_
          cases countStats <;> exact Tended.of_eq rfl rfl rfl rfl rfl rfl rfl
      | false =>
          have htouch : Tended now sh (if touch then
              { sh with backend := sh.backend.putEntry (e.touch now), policy := sh.policy.onGet key }
              else sh) := by
            cases touch with
            | false => exact Tended.refl now sh
            | true =>
                have he' : sh.backend.getEntry e.key = some e := by rwa [sh.backend.keyed key e he]
                exact Tended.replace (e.touch now) he' rfl rfl rfl (fun h => h.onGet key)
                  fun h k => h.mem_order_onGet
          refine htouch.trans ?_
          cases countStats <;> exact Tended.of_eq rfl rfl rfl rfl rfl rfl rfl

/-- Lazy expiration of one key. -/
theorem tended_dropExpired (sh : CacheShard α V T) (key : Key α) (now : T) :
    Tended now sh (sh.dropExpired key now) := by
  unfold dropExpired
  cases he : sh.backend.getEntry key with
  | none => exact Tended.refl now sh
  | some e =>
      simp only
      split_ifs with hx
      · exact Tended.expire he hx
      · exact Tended.refl now sh

/-- A sequence of removals of entries that are expired. -/
theorem tended_removeEntriesLocked {keys : List (Key α)} (hnd : keys.Nodup)
    (hx : ∀ k ∈ keys, ∃ e, sh.backend.getEntry k = some e ∧ e.isExpired now = true) :
    Tended now sh (sh.removeEntriesLocked keys .expire).2 := by
  induction keys generalizing sh with
  | nil => exact Tended.refl now sh
  | cons k keys ih =>
      obtain ⟨hk, hnd⟩ := List.nodup_cons.mp hnd
      obtain ⟨e, he, hex⟩ := hx k List.mem_cons_self
      rw [removeEntriesLocked_cons]
      refine (Tended.expire he hex).trans (ih hnd fun k' hk' => ?_)
      have hne : k' ≠ k := fun h => hk (h ▸ hk')
      rw [removeEntryLocked_backend, InMemoryBackend.getEntry_deleteEntry, if_neg hne]
      exact hx k' (List.mem_cons_of_mem k hk')

/-- The expired keys of a shard are distinct, and their entries are expired. -/
theorem expiredKeys_spec (sh : CacheShard α V T) (now : T) :
    (expiredKeys sh.backend.entryList now).Nodup ∧
      ∀ k ∈ expiredKeys sh.backend.entryList now,
        ∃ e, sh.backend.getEntry k = some e ∧ e.isExpired now = true := by
  constructor
  · refine List.Nodup.sublist (List.filter_sublist.map _) ?_
    rw [sh.backend.map_key_entryList]
    exact sh.backend.entries.keys_nodup
  · intro k hk
    obtain ⟨e, he, rfl⟩ := List.mem_map.mp hk
    obtain ⟨hmem, hx⟩ := List.mem_filter.mp he
    exact ⟨e, InMemoryBackend.mem_entryList.mp hmem, hx⟩

/-- A sweep. -/
theorem tended_expireShard (sh : CacheShard α V T) (now : T) :
    Tended now sh (sh.expireShard now).2 :=
  tended_removeEntriesLocked (expiredKeys_spec sh now).1 (expiredKeys_spec sh now).2

/-- Restoring a hit count. -/
theorem tended_restoreEntryMetadata (sh : CacheShard α V T) (key : Key α) (n : ℤ) (now : T) :
    Tended now sh (sh.restoreEntryMetadata key n) := by
  unfold restoreEntryMetadata
  cases he : sh.backend.getEntry key with
  | none => exact Tended.refl now sh
  | some e =>
      have he' : sh.backend.getEntry e.key = some e := by rwa [sh.backend.keyed key e he]
      exact Tended.replace { e with hitCount := n } he' rfl rfl rfl id fun _ _ => Iff.rfl

/-- The first section of `get_or_compute`. -/
theorem tended_getOrComputeLocked (sh : CacheShard α V T) (key : Key α) (now : T) (fresh : ℕ) :
    Tended now sh (sh.getOrComputeLocked key now fresh).2 := by
  have hread := tended_readValueLocked sh key true true now
  unfold getOrComputeLocked
  simp only
  cases (sh.readValueLocked key true true now).1 with
  | some v => exact hread
  | none =>
      simp only
      cases (sh.readValueLocked key true true now).2.singleflight.get? key with
      | some flight => exact hread
      | none => exact hread.trans (Tended.of_eq rfl rfl rfl rfl rfl rfl rfl)

/-- Unregistering a flight. -/
theorem tended_unregisterFlight (sh : CacheShard α V T) (key : Key α) (now : T) :
    Tended now sh (sh.unregisterFlight key) :=
  Tended.of_eq rfl rfl rfl rfl rfl rfl rfl

variable [Sub T]

/-- The loop of a dump: it collects the live entries and removes the others. -/
theorem foldl_dump (entries : List (CacheEntry α V T)) (acc : List (EntrySnapshot α V T))
    (sh : CacheShard α V T) (now : T) :
    entries.foldl
      (fun acc e =>
        if e.isExpired now then (acc.1, (acc.2.removeEntryLocked e.key .expire).2)
        else (acc.1 ++ [e.snapshot now], acc.2))
      (acc, sh) =
    (acc ++ (entries.filter fun e => !e.isExpired now).map fun e => e.snapshot now,
      (sh.removeEntriesLocked (expiredKeys entries now) .expire).2) := by
  unfold expiredKeys
  induction entries generalizing sh acc with
  | nil => simp
  | cons e entries ih =>
      rw [List.foldl_cons]
      cases hx : e.isExpired now with
      | true =>
          simp only [if_true, ih]
          simp [hx, removeEntriesLocked_cons]
      | false =>
          simp only [Bool.false_eq_true, if_false, ih]
          simp [hx]

/-- What a dump shows: snapshots of the entries that are not expired. -/
theorem dumpLocked_fst (sh : CacheShard α V T) (now : T) :
    (sh.dumpLocked now).1 =
      (sh.backend.entryList.filter fun e => !e.isExpired now).map fun e => e.snapshot now := by
  rw [dumpLocked, foldl_dump, List.nil_append]

/-- The shard after a dump is the shard after a sweep. -/
theorem dumpLocked_snd (sh : CacheShard α V T) (now : T) :
    (sh.dumpLocked now).2 = (sh.expireShard now).2 := by
  rw [dumpLocked, foldl_dump, expireShard]

/-- A dump. -/
theorem tended_dumpLocked (sh : CacheShard α V T) (now : T) : Tended now sh (sh.dumpLocked now).2 := by
  rw [dumpLocked_snd]
  exact tended_expireShard sh now

/-- An inspection. -/
theorem tended_inspectLocked (sh : CacheShard α V T) (key : Key α) (now : T) :
    Tended now sh (sh.inspectLocked key now).2 :=
  tended_dropExpired sh key now

/-! ### The bookkeeping of flush jobs -/

omit [Sub T]

/-- The shards agree on everything that reads and evictions look at. -/
structure SameData (sh sh' : CacheShard α V T) : Prop where
  index_eq : sh'.index = sh.index
  capacity_eq : sh'.capacity = sh.capacity
  policy_eq : sh'.policy = sh.policy
  keys_eq : sh'.backend.keys = sh.backend.keys
  timed_eq : ∀ k, sh'.timed k = sh.timed k

/-- Bookkeeping keeps agreement. -/
theorem SameData.agrees (h : SameData sh sh') (ha : sh.Agrees) : sh'.Agrees :=
  ha.congr h.policy_eq fun k => by rw [h.keys_eq]

/-- Bookkeeping keeps the size. -/
theorem SameData.size_eq (h : SameData sh sh') : sh'.backend.size = sh.backend.size := by
  rw [InMemoryBackend.size_eq_length_keys, h.keys_eq, InMemoryBackend.size_eq_length_keys]

/-- Nothing happened. -/
theorem SameData.refl (sh : CacheShard α V T) : SameData sh sh := ⟨rfl, rfl, rfl, rfl, fun _ => rfl⟩

/-- One function after another. -/
theorem SameData.trans (h : SameData sh sh') (h' : SameData sh' sh'') : SameData sh sh'' :=
  ⟨h'.index_eq.trans h.index_eq, h'.capacity_eq.trans h.capacity_eq, h'.policy_eq.trans h.policy_eq,
    h'.keys_eq.trans h.keys_eq, fun k => (h'.timed_eq k).trans (h.timed_eq k)⟩

/-- Functions that leave store and policy alone. -/
theorem SameData.of_eq (hi : sh'.index = sh.index) (hc : sh'.capacity = sh.capacity)
    (hb : sh'.backend = sh.backend) (hp : sh'.policy = sh.policy) : SameData sh sh' :=
  ⟨hi, hc, hp, by rw [hb], fun k => by simp only [timed, hb]⟩

/-- Registering a pending flush. -/
theorem sameData_registerPendingLocked (sh : CacheShard α V T) (key : Key α) :
    SameData sh (sh.registerPendingLocked key) :=
  .of_eq rfl rfl rfl rfl

/-- Releasing a pending flush. -/
theorem sameData_resolvePendingLocked (sh : CacheShard α V T) (key : Key α) :
    SameData sh (sh.resolvePendingLocked key) :=
  .of_eq (maybePruneMarksLocked_index _ _) (maybePruneMarksLocked_capacity _ _)
    (maybePruneMarksLocked_backend _ _) (maybePruneMarksLocked_policy _ _)

/-- Clearing the pending flushes of a key. -/
theorem sameData_clearPendingFlushesLocked (sh : CacheShard α V T) (key : Key α) :
    SameData sh (sh.clearPendingFlushesLocked key) :=
  .of_eq (maybePruneMarksLocked_index _ _) (maybePruneMarksLocked_capacity _ _)
    (maybePruneMarksLocked_backend _ _) (maybePruneMarksLocked_policy _ _)

/-- Marking an entry clean. -/
theorem sameData_markCleanLocked (sh : CacheShard α V T) (job : FlushWriteBack α V) :
    SameData sh (sh.markCleanLocked job) := by
  unfold markCleanLocked
  cases job.operation with
  | delete => exact .refl sh
  | put v =>
      cases he : sh.backend.getEntry job.key with
      | none => exact .refl sh
      | some e =>
          have hkey := sh.backend.keyed job.key e he
          simp only
          split_ifs
          · refine ⟨rfl, rfl, rfl, OrderedDict.keys_set_of_mem ?_ _, fun k => ?_⟩
            · exact InMemoryBackend.mem_keys_iff.mpr ⟨e, by rwa [hkey]⟩
            · simp only [timed, InMemoryBackend.getEntry_putEntry, hkey]
              split_ifs with hk
              · simp [hk, he]
              · rfl
          · exact .refl sh

/-- The section after a successful flush. -/
theorem sameData_finalizeLocked (sh : CacheShard α V T) (job : FlushWriteBack α V) :
    SameData sh (sh.finalizeLocked job) :=
  (sameData_markCleanLocked sh job).trans (sameData_resolvePendingLocked _ _)

/-- Registering a list of jobs. -/
theorem sameData_registerAll (sh : CacheShard α V T) (jobs : List (FlushWriteBack α V)) :
    SameData sh (sh.registerAll jobs) := by
  unfold registerAll
  induction jobs generalizing sh with
  | nil => exact .refl sh
  | cons job jobs ih => exact (sameData_registerPendingLocked sh job.key).trans (ih _)

end CacheShard

end CacheLab
