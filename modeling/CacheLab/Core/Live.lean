import CacheLab.Core.Writes

/-!
# What is not expired

Outside write-back mode nothing of a shard outlives its entries, and of its entries only those that are not
expired can be seen. A `View` is that part of a shard, and `Shows` relates the two: every section of a
cache-only shard reads its answer off the view and changes the shard into one that shows the changed view.
Removing expired entries changes no view (`Shows.removeEntriesLocked`).

A view also carries the keys that were put since the last clear. They bound the resident keys, expired ones
included, so a shard with room for them never evicts.
-/

set_option linter.unusedSectionVars false

namespace CacheLab

variable {α V T : Type} [DecidableEq α] [LinearOrder T] [Zero T] [Add T] [Sub T]

/-- An expired entry stays expired. -/
theorem CacheEntry.isExpired_mono {e : CacheEntry α V T} {now now' : T} (hle : now ≤ now')
    (h : e.isExpired now = true) : e.isExpired now' = true := by
  obtain ⟨d, hd, hdnow⟩ := isExpired_iff.mp h
  exact isExpired_iff.mpr ⟨d, hd, hdnow.trans hle⟩

/-- What can be seen of a shard, and the keys it was asked to hold. -/
structure View (α V T : Type) [DecidableEq α] where
  capacity : ℕ
  live : OrderedDict (Key α) (CacheEntry α V T) := .empty
  flights : OrderedDict (Key α) ℕ := .empty
  asked : List (Key α) := []

namespace View

variable (v : View α V T) (key : Key α) (now : T)

/-- Change the live entries, and drop those that are expired then. -/
def setLive (live : OrderedDict (Key α) (CacheEntry α V T)) : View α V T :=
  { v with live := live.filter fun e => !e.isExpired now }

theorem setLive_live (live : OrderedDict (Key α) (CacheEntry α V T)) :
    (v.setLive now live).live = live.filter fun e => !e.isExpired now := rfl

/-- The view after a read. -/
def read (touch : Bool) : View α V T :=
  match v.live.get? key with
  | none => v
  | some e => if touch then v.setLive now (v.live.set key (e.touch now)) else v

/-- The view after a put. -/
def store (cfg : CacheConfig T) (value : V) (ttl : Ttl T) : View α V T :=
  let existing := v.live.get? key
  let version := (existing.map CacheEntry.version).getD 0 + 1
  { v.setLive now (v.live.set key (CacheShard.freshEntry cfg existing version key value ttl now)) with
    asked := v.asked.insert key }

theorem store_live (cfg : CacheConfig T) (value : V) (ttl : Ttl T) :
    (v.store key now cfg value ttl).live =
      (v.live.set key (CacheShard.freshEntry cfg (v.live.get? key)
        (((v.live.get? key).map CacheEntry.version).getD 0 + 1) key value ttl now)).filter
          fun e => !e.isExpired now := rfl

/-- How a `get_or_compute` goes on, and the view after its first section. -/
def getOrCompute (fresh : ℕ) : CacheShard.FlightRole V × View α V T :=
  match v.live.get? key with
  | some e => (.cached e.value, v.read key now true)
  | none =>
      match v.flights.get? key with
      | some flight => (.joins flight, v)
      | none => (.leads fresh, { v with flights := v.flights.set key fresh })

end View

namespace CacheShard

/-- The entries that are not expired, in their order. -/
def live (sh : CacheShard α V T) (now : T) : OrderedDict (Key α) (CacheEntry α V T) :=
  sh.backend.entries.filter fun e => !e.isExpired now

/-- A shard without pending flushes, in which the mark of a key is the version of its entry. -/
structure Plain (sh : CacheShard α V T) : Prop where
  pending : ∀ k, sh.pendingFlushes.get? k = none
  marks : ∀ k, sh.versionMarks.get? k = (sh.backend.getEntry k).map CacheEntry.version

/-- A cache-only shard at time `now` and what can be seen of it. -/
structure Shows (now : T) (v : View α V T) (sh : CacheShard α V T) : Prop where
  plain : sh.Plain
  capacity_eq : sh.capacity = v.capacity
  live_eq : sh.live now = v.live
  flights_eq : sh.singleflight = v.flights
  asked : ∀ k ∈ sh.backend.keys, k ∈ v.asked

variable {sh sh' : CacheShard α V T} {now : T} {v : View α V T}

/-- A fresh shard shows nothing. -/
theorem shows_of_empty (hp : ∀ k, sh.pendingFlushes.get? k = none) (hm : ∀ k, sh.versionMarks.get? k = none)
    (hb : sh.backend = .new) (hf : sh.singleflight = .empty) :
    sh.Shows now { capacity := sh.capacity } := by
  refine ⟨⟨hp, fun k => ?_⟩, rfl, ?_, hf, ?_⟩
  · rw [hm k, hb]
    rfl
  · rw [live, hb]
    rfl
  · rw [hb]
    intro k hk
    cases hk

/-- A shard shows the same when store, marks, pending counts and flights are the same. -/
theorem Shows.congr (h : sh.Shows now v) (hc : sh'.capacity = sh.capacity) (hb : sh'.backend = sh.backend)
    (hm : sh'.versionMarks = sh.versionMarks) (hp : sh'.pendingFlushes = sh.pendingFlushes)
    (hf : sh'.singleflight = sh.singleflight) : sh'.Shows now v := by
  refine ⟨⟨fun k => ?_, fun k => ?_⟩, hc.trans h.capacity_eq, ?_, hf.trans h.flights_eq, ?_⟩
  · rw [hp]
    exact h.plain.pending k
  · rw [hm, hb]
    exact h.plain.marks k
  · rw [live, hb]
    exact h.live_eq
  · rw [hb]
    exact h.asked

/-- Time passes. -/
theorem Shows.tick (h : sh.Shows now v) {now' : T} (hle : now ≤ now') :
    sh.Shows now' (v.setLive now' v.live) where
  plain := h.plain
  capacity_eq := h.capacity_eq
  live_eq := by
    rw [View.setLive_live, ← h.live_eq, live, live, OrderedDict.filter_filter_of_imp]
    intro e he
    rw [Bool.not_eq_true', Bool.eq_false_iff] at he ⊢
    exact fun hx => he (e.isExpired_mono hle hx)
  flights_eq := h.flights_eq
  asked := h.asked

/-! ### Lookup -/

/-- The live entry of a key. -/
theorem Shows.get?_live (h : sh.Shows now v) (key : Key α) :
    v.live.get? key = (sh.backend.getEntry key).filter fun e => !e.isExpired now := by
  rw [← h.live_eq, live, OrderedDict.get?_filter]
  rfl

/-- A key without an entry is not live. -/
theorem Shows.get?_live_of_none (h : sh.Shows now v) {key : Key α} (he : sh.backend.getEntry key = none) :
    v.live.get? key = none := by
  rw [h.get?_live, he]
  rfl

/-- A key with an expired entry is not live. -/
theorem Shows.get?_live_of_expired (h : sh.Shows now v) {key : Key α} {e : CacheEntry α V T}
    (he : sh.backend.getEntry key = some e) (hx : e.isExpired now = true) : v.live.get? key = none := by
  rw [h.get?_live, he, Option.filter_some, if_neg (by simp [hx])]

/-- An entry that is not expired is live. -/
theorem Shows.get?_live_of_fresh (h : sh.Shows now v) {key : Key α} {e : CacheEntry α V T}
    (he : sh.backend.getEntry key = some e) (hx : e.isExpired now = false) : v.live.get? key = some e := by
  rw [h.get?_live, he, Option.filter_some, if_pos (by simp [hx])]

/-! ### Removals -/

/-- A removal keeps marks and entries together. -/
theorem Plain.removeEntryLocked (h : sh.Plain) (key : Key α) (reason : RemoveReason) :
    (sh.removeEntryLocked key reason).2.Plain := by
  have hzero : (sh.pendingFlushes.get? key).getD 0 = 0 := by rw [h.pending key]; rfl
  have hgone : ((sh.backend.deleteEntry key).getEntry key).isSome = false := by
    rw [InMemoryBackend.getEntry_deleteEntry, if_pos rfl]
    rfl
  simp only [CacheShard.removeEntryLocked, maybePruneMarksLocked, hzero, hgone, lt_irrefl, if_false,
    Bool.false_eq_true]
  refine ⟨h.pending, fun k => ?_⟩
  show (sh.versionMarks.erase key).get? k = ((sh.backend.deleteEntry key).getEntry k).map _
  rw [OrderedDict.get?_erase, InMemoryBackend.getEntry_deleteEntry, h.marks]
  split_ifs <;> rfl

/-- A removal leaves the flights alone. -/
theorem removeEntryLocked_singleflight (sh : CacheShard α V T) (key : Key α) (reason : RemoveReason) :
    (sh.removeEntryLocked key reason).2.singleflight = sh.singleflight := by
  simp only [CacheShard.removeEntryLocked, maybePruneMarksLocked]
  split_ifs <;> rfl

/-- Removing an expired entry is not seen. -/
theorem Shows.removeExpired (h : sh.Shows now v) {key : Key α} {e : CacheEntry α V T}
    (he : sh.backend.getEntry key = some e) (hx : e.isExpired now = true) :
    (sh.removeEntryLocked key .expire).2.Shows now v := by
  refine ⟨h.plain.removeEntryLocked key .expire, ?_, ?_, ?_, ?_⟩
  · rw [removeEntryLocked_capacity]
    exact h.capacity_eq
  · rw [live, removeEntryLocked_backend, ← h.live_eq, live]
    refine OrderedDict.filter_erase fun e' he' => ?_
    have heq : e' = e := Option.some.inj (he'.symm.trans he)
    rw [heq, hx]
    rfl
  · rw [removeEntryLocked_singleflight]
    exact h.flights_eq
  · intro k hk
    rw [removeEntryLocked_backend] at hk
    exact h.asked k (OrderedDict.mem_keys_erase.mp hk).1

/-- **Removing expired entries is not seen.** -/
theorem Shows.removeEntriesLocked (h : sh.Shows now v) {keys : List (Key α)} (hnd : keys.Nodup)
    (hx : ∀ k ∈ keys, ∃ e, sh.backend.getEntry k = some e ∧ e.isExpired now = true) :
    (sh.removeEntriesLocked keys .expire).2.Shows now v := by
  induction keys generalizing sh with
  | nil => exact h
  | cons k keys ih =>
      obtain ⟨hk, hnd⟩ := List.nodup_cons.mp hnd
      obtain ⟨e, he, hex⟩ := hx k List.mem_cons_self
      rw [removeEntriesLocked_cons]
      refine ih (h.removeExpired he hex) hnd fun k' hk' => ?_
      have hne : k' ≠ k := fun heq => hk (heq ▸ hk')
      rw [removeEntryLocked_backend, InMemoryBackend.getEntry_deleteEntry, if_neg hne]
      exact hx k' (List.mem_cons_of_mem k hk')

/-- A sweep is not seen. -/
theorem Shows.expireShard (h : sh.Shows now v) : (sh.expireShard now).2.Shows now v :=
  h.removeEntriesLocked (expiredKeys_spec sh now).1 (expiredKeys_spec sh now).2

/-- Lazy expiration of one key is not seen, and leaves the live entry of the key. -/
theorem Shows.dropExpired (h : sh.Shows now v) (key : Key α) :
    (sh.dropExpired key now).Shows now v ∧
      (sh.dropExpired key now).backend.getEntry key = v.live.get? key := by
  unfold CacheShard.dropExpired
  cases he : sh.backend.getEntry key with
  | none => exact ⟨h, he.trans (h.get?_live_of_none he).symm⟩
  | some e =>
      simp only
      split_ifs with hx
      · refine ⟨h.removeExpired he hx, ?_⟩
        rw [removeEntryLocked_backend, InMemoryBackend.getEntry_deleteEntry, if_pos rfl,
          h.get?_live_of_expired he hx]
      · exact ⟨h, he.trans (h.get?_live_of_fresh he (Bool.eq_false_iff.mpr hx)).symm⟩

/-! ### Reads -/

/-- An entry that is not expired is replaced by one of the same version. -/
theorem Shows.replace (h : sh.Shows now v) {key : Key α} {e e' : CacheEntry α V T}
    (he : sh.backend.getEntry key = some e) (hx : e.isExpired now = false) (hkey : e'.key = key)
    (hversion : e'.version = e.version) (policy : EvictionPolicy α) (stats : MutableStats) :
    { sh with backend := sh.backend.putEntry e', policy := policy, stats := stats }.Shows now
      (v.setLive now (v.live.set key e')) := by
  refine ⟨⟨h.plain.pending, fun k => ?_⟩, h.capacity_eq, ?_, h.flights_eq, fun k hk => ?_⟩
  · show sh.versionMarks.get? k = ((sh.backend.putEntry e').getEntry k).map _
    rw [InMemoryBackend.getEntry_putEntry, h.plain.marks, hkey]
    split_ifs with hk
    · rw [hk, he, Option.map_some, Option.map_some, hversion]
    · rfl
  · rw [View.setLive_live, ← h.live_eq, ← hkey]
    refine OrderedDict.filter_set (fun w hw => ?_) e'
    have hwe : w = e := by
      rw [hkey] at hw
      exact Option.some.inj (hw.symm.trans he)
    rw [hwe, hx]
    rfl
  · have hk' : k ∈ (sh.backend.entries.set e'.key e').keys := hk
    rw [hkey, OrderedDict.mem_keys_set] at hk'
    rcases hk' with rfl | hk'
    · exact h.asked k (InMemoryBackend.mem_keys_iff.mpr ⟨e, he⟩)
    · exact h.asked k hk'

/-- A read answers from the view. -/
theorem Shows.readValueLocked (h : sh.Shows now v) (key : Key α) (touch : Bool) :
    (sh.readValueLocked key touch true now).1 = (v.live.get? key).map CacheEntry.value ∧
      (sh.readValueLocked key touch true now).2.Shows now (v.read key now touch) := by
  unfold CacheShard.readValueLocked View.read
  cases he : sh.backend.getEntry key with
  | none =>
      rw [h.get?_live_of_none he]
      exact ⟨rfl, h.congr rfl rfl rfl rfl rfl⟩
  | some e =>
      simp only
      cases hx : e.isExpired now with
      | true =>
          rw [h.get?_live_of_expired he hx]
          exact ⟨rfl, (h.removeExpired he hx).congr rfl rfl rfl rfl rfl⟩
      | false =>
          rw [h.get?_live_of_fresh he hx]
          refine ⟨rfl, ?_⟩
          cases touch with
          | false => exact h.congr rfl rfl rfl rfl rfl
          | true =>
              have hkey : (e.touch now).key = key := sh.backend.keyed key e he
              exact h.replace he hx hkey rfl _ _

/-- An inspection answers from the view and is not seen. -/
theorem Shows.inspectLocked (h : sh.Shows now v) (key : Key α) :
    (sh.inspectLocked key now).1 = (v.live.get? key).map (fun e => e.snapshot now) ∧
      (sh.inspectLocked key now).2.Shows now v := by
  obtain ⟨hdrop, hget⟩ := h.dropExpired key
  refine ⟨?_, hdrop⟩
  rw [← hget]
  rfl

/-- A dump answers from the view and is not seen. -/
theorem Shows.dumpLocked (h : sh.Shows now v) :
    (sh.dumpLocked now).1 = v.live.values.map (fun e => e.snapshot now) ∧
      (sh.dumpLocked now).2.Shows now v := by
  constructor
  · rw [dumpLocked_fst, ← h.live_eq, live, OrderedDict.values_filter]
    rfl
  · rw [dumpLocked_snd]
    exact h.expireShard

/-- The first section of a `get_or_compute` answers from the view. -/
theorem Shows.getOrComputeLocked (h : sh.Shows now v) (key : Key α) (fresh : ℕ) :
    (sh.getOrComputeLocked key now fresh).1 = (v.getOrCompute key now fresh).1 ∧
      (sh.getOrComputeLocked key now fresh).2.Shows now (v.getOrCompute key now fresh).2 := by
  obtain ⟨hvalue, hshows⟩ := h.readValueLocked key true
  unfold CacheShard.getOrComputeLocked View.getOrCompute
  generalize sh.readValueLocked key true true now = r at hvalue hshows ⊢
  obtain ⟨found, sh₁⟩ := r
  simp only at hvalue hshows ⊢
  rw [hvalue]
  cases hget : v.live.get? key with
  | some e => exact ⟨rfl, hshows⟩
  | none =>
      have hread : v.read key now true = v := by rw [View.read, hget]
      rw [hread] at hshows
      simp only [Option.map_none, hshows.flights_eq]
      cases hflight : v.flights.get? key with
      | some flight => exact ⟨rfl, hshows⟩
      | none =>
          refine ⟨rfl, ⟨hshows.plain.pending, hshows.plain.marks⟩, hshows.capacity_eq, hshows.live_eq, ?_,
            hshows.asked⟩
          rfl

/-- The leader of a flight takes it off the register. -/
theorem Shows.unregisterFlight (h : sh.Shows now v) (key : Key α) :
    (sh.unregisterFlight key).Shows now { v with flights := v.flights.erase key } := by
  refine ⟨⟨h.plain.pending, h.plain.marks⟩, h.capacity_eq, h.live_eq, ?_, h.asked⟩
  show sh.singleflight.erase key = v.flights.erase key
  rw [h.flights_eq]

/-! ### Puts -/

/-- Storing after lazy expiration. -/
theorem Shows.stored (h : sh.Shows now v) (cfg : CacheConfig T) (key : Key α) (value : V) (ttl : Ttl T) :
    (sh.stored cfg key value ttl now).Shows now (v.store key now cfg value ttl) := by
  obtain ⟨hdrop, hget⟩ := h.dropExpired key
  have hnext : (sh.dropExpired key now).nextVersion key =
      ((v.live.get? key).map CacheEntry.version).getD 0 + 1 := by
    rw [nextVersion, hdrop.plain.marks, hget]
  unfold CacheShard.stored CacheShard.storeLocked
  simp only [hget, hnext]
  refine ⟨⟨hdrop.plain.pending, fun k => ?_⟩, hdrop.capacity_eq, ?_, hdrop.flights_eq, fun k hk => ?_⟩
  · show ((sh.dropExpired key now).versionMarks.set key _).get? k =
      (((sh.dropExpired key now).backend.putEntry _).getEntry k).map _
    rw [OrderedDict.get?_set, InMemoryBackend.getEntry_putEntry, hdrop.plain.marks, hnext]
    split_ifs with hk hk' hk'
    · rfl
    · exact absurd hk hk'
    · exact absurd hk' hk
    · rfl
  · rw [View.store_live, ← hdrop.live_eq]
    refine OrderedDict.filter_set (fun w hw => ?_) _
    have hlive : v.live.get? key = some w := hget.symm.trans hw
    rw [hdrop.get?_live, Option.filter_eq_some_iff] at hlive
    exact hlive.2
  · have hk' : k ∈ ((sh.dropExpired key now).backend.entries.set key _).keys := hk
    rw [OrderedDict.mem_keys_set] at hk'
    show k ∈ v.asked.insert key
    rw [List.mem_insert_iff]
    rcases hk' with rfl | hk'
    · exact .inl rfl
    · exact .inr (hdrop.asked k hk')

/-- A shard within its capacity evicts nothing. -/
theorem enforceCapacityLocked_of_le (h : sh.backend.size ≤ sh.capacity) : sh.enforceCapacityLocked = sh := by
  unfold enforceCapacityLocked
  cases sh.policy.len with
  | zero => rfl
  | succ n => rw [enforceLoop, if_neg (by omega)]

/-- A shard that shows no more asked keys than its capacity is within it. -/
theorem Shows.size_le (h : sh.Shows now v) (hroom : v.asked.length ≤ v.capacity) :
    sh.backend.size ≤ sh.capacity := by
  rw [h.capacity_eq, InMemoryBackend.size_eq_length_keys]
  have hsub : sh.backend.keys.Subperm v.asked := sh.backend.entries.keys_nodup.subperm h.asked
  exact hsub.length_le.trans hroom

/-- A put where there is room for all the keys the shard was asked to hold. -/
theorem Shows.putLocked (h : sh.Shows now v) {cfg : CacheConfig T} (hmode : cfg.writeMode = .cacheOnly)
    (src : Source α V) (key : Key α) (value : V) (ttl : Ttl T) (ok : Bool)
    (hroom : (v.store key now cfg value ttl).asked.length ≤ v.capacity) :
    (sh.putLocked cfg src key value ttl now ok).shard.Shows now (v.store key now cfg value ttl) ∧
      (sh.putLocked cfg src key value ttl now ok).jobs = [] ∧
      (sh.putLocked cfg src key value ttl now ok).raised = false := by
  have hstored := h.stored cfg key value ttl
  have hfits := enforceCapacityLocked_of_le (hstored.size_le hroom)
  simp only [CacheShard.putLocked, hmode, reduceCtorEq, false_and, if_false]
  refine ⟨?_, trivial, trivial⟩
  show (sh.stored cfg key value ttl now).enforceCapacityLocked.Shows now _
  rw [hfits]
  exact hstored

/-! ### Clears -/

/-- The loop of a clear in cache-only mode. -/
theorem Plain.clearKeysLocked (h : sh.Plain) {cfg : CacheConfig T} (hmode : cfg.writeMode = .cacheOnly)
    (ok : Key α → Bool) (keys : List (Key α)) (src : Source α V) (jobs : List (FlushWriteBack α V)) :
    let r := clearKeysLocked cfg ok keys sh src jobs
    r.shard.Plain ∧ r.shard.capacity = sh.capacity ∧ r.shard.singleflight = .empty ∧ r.jobs = jobs ∧
      r.raised = false ∧
      ∀ k, r.shard.backend.getEntry k = if k ∈ keys then none else sh.backend.getEntry k := by
  induction keys generalizing sh src with
  | nil => exact ⟨⟨h.pending, h.marks⟩, rfl, rfl, rfl, rfl, fun k => by simp [CacheShard.clearKeysLocked]⟩
  | cons key keys ih =>
      have hremoved := h.removeEntryLocked key .delete
      have herase : ∃ sh', (eraseLocked cfg sh src key).shard = sh' ∧ sh'.Plain ∧
          sh'.capacity = sh.capacity ∧ sh'.backend = sh.backend.deleteEntry key := by
        refine ⟨_, rfl, ?_⟩
        simp only [eraseLocked, removeCounted, hmode, reduceCtorEq, if_false]
        split_ifs
        · exact ⟨⟨hremoved.pending, hremoved.marks⟩, removeEntryLocked_capacity ..,
            removeEntryLocked_backend ..⟩
        · exact ⟨hremoved, removeEntryLocked_capacity .., removeEntryLocked_backend ..⟩
      obtain ⟨sh', hsh', hplain, hcap, hbackend⟩ := herase
      have hjobs : (eraseLocked cfg sh src key).jobs = [] := by simp [eraseLocked, hmode]
      rw [CacheShard.clearKeysLocked]
      simp only [hmode, reduceCtorEq, false_and, if_false, hsh', hjobs, List.append_nil]
      obtain ⟨h₁, h₂, h₃, h₄, h₅, h₆⟩ := ih hplain (eraseLocked cfg sh src key).source
      refine ⟨h₁, h₂.trans hcap, h₃, h₄, h₅, fun k => ?_⟩
      rw [h₆, hbackend, InMemoryBackend.getEntry_deleteEntry]
      by_cases hk : k = key <;> simp [hk]

/-- After a clear nothing is left to see. -/
theorem Shows.clearLocked (h : sh.Shows now v) {cfg : CacheConfig T} (hmode : cfg.writeMode = .cacheOnly)
    (src : Source α V) (ok : Key α → Bool) :
    (sh.clearLocked cfg src ok).shard.Shows now { capacity := v.capacity } ∧
      (sh.clearLocked cfg src ok).jobs = [] ∧ (sh.clearLocked cfg src ok).raised = false := by
  obtain ⟨hplain, hcap, hflights, hjobs, hraised, hget⟩ :=
    h.plain.clearKeysLocked hmode ok sh.backend.keys src []
  have hnone : ∀ k, (sh.clearLocked cfg src ok).shard.backend.getEntry k = none := by
    intro k
    refine (hget k).trans ?_
    split_ifs with hk
    · rfl
    · exact OrderedDict.get?_eq_none_iff.mpr hk
  have hnokeys : (sh.clearLocked cfg src ok).shard.backend.keys = [] := by
    rw [List.eq_nil_iff_forall_not_mem]
    intro k hk
    obtain ⟨e, he⟩ := InMemoryBackend.mem_keys_iff.mp hk
    rw [hnone k] at he
    cases he
  refine ⟨⟨hplain, hcap.trans h.capacity_eq, ?_, hflights, ?_⟩, hjobs, hraised⟩
  · apply OrderedDict.ext
    have hitems : (sh.clearLocked cfg src ok).shard.backend.entries.items = [] :=
      List.map_eq_nil_iff.mp hnokeys
    show List.filter _ (sh.clearLocked cfg src ok).shard.backend.entries.items = []
    rw [hitems]
    rfl
  · intro k hk
    rw [hnokeys] at hk
    cases hk

end CacheShard

end CacheLab
