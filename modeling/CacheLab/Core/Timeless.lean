import Mathlib.Data.List.TakeWhile
import CacheLab.Core.Ledger

/-!
# Shards without lifetimes

A shard whose entries have no deadline, and whose keys are proper keys (not `None`), under any policy. Nothing
expires in such a shard and the eviction loop always finds a victim, so the calls have short specifications:

* a read hits the keys that are stored, and changes no key (`Timeless.read_hit`, `Timeless.read_miss`);
* a put ends with as many entries as fit, and every entry too many is an eviction (`Timeless.size_fitted`,
  `Timeless.stats_fitted`). Which keys stay is a matter of the policy; that no other key comes is not
  (`Timeless.mem_keys_fitted`).
-/

set_option linter.unusedSectionVars false

namespace CacheLab

variable {α V T : Type} [DecidableEq α] [LinearOrder T] [Zero T] [Add T]

namespace CacheShard

variable {sh : CacheShard α V T} {cfg : CacheConfig T}

/-- A shard of proper keys without deadlines. -/
structure Timeless (sh : CacheShard α V T) : Prop where
  agrees : sh.Agrees
  timeless : ∀ k v d, sh.timed k = some (v, d) → d = none
  proper : ∀ k ∈ sh.backend.keys, k.isSome = true

/-- Nothing is expired. -/
theorem Timeless.expiresAt_eq (h : sh.Timeless) {k : Key α} {e : CacheEntry α V T}
    (he : sh.backend.getEntry k = some e) : e.expiresAt = none :=
  h.timeless k e.value e.expiresAt (by rw [timed, he]; rfl)

theorem Timeless.isExpired_eq (h : sh.Timeless) {k : Key α} {e : CacheEntry α V T}
    (he : sh.backend.getEntry k = some e) (now : T) : e.isExpired now = false := by
  rw [CacheEntry.isExpired, h.expiresAt_eq he]

/-- Lazy expiration does nothing. -/
theorem Timeless.dropExpired_eq (h : sh.Timeless) (key : Key α) (now : T) : sh.dropExpired key now = sh := by
  unfold dropExpired
  cases he : sh.backend.getEntry key with
  | none => rfl
  | some e => exact if_neg (by simp [h.isExpired_eq he now])

/-- A put of a value without a lifetime stores no deadline. -/
theorem resolveTtl_timeless (hdefault : ∀ t, cfg.defaultTtl = some t → t ≤ 0)
    {existing : Option (CacheEntry α V T)} (hex : ∀ e, existing = some e → e.expiresAt = none)
    {ttl : Ttl T} (httl : ∀ t, ttl ≠ .seconds t) (now : T) :
    (resolveTtl cfg existing ttl now).2 = none := by
  cases ttl with
  | seconds t => exact absurd rfl (httl t)
  | never => rfl
  | unset =>
      cases existing with
      | some e => exact hex e rfl
      | none =>
          simp only [resolveTtl]
          cases hd : cfg.defaultTtl with
          | none => rfl
          | some t => simp [hdefault t hd]

/-- A shard in which less is to be seen is timeless, too. -/
theorem Timeless.mono {sh' : CacheShard α V T} (h : sh.Timeless) (hagrees : sh'.Agrees)
    (hsub : ∀ k, sh'.timed k = sh.timed k ∨ sh'.timed k = none) : sh'.Timeless := by
  refine ⟨hagrees, fun k v d hk => ?_, fun k hk => ?_⟩
  · rcases hsub k with heq | hnone
    · exact h.timeless k v d (heq ▸ hk)
    · rw [hnone] at hk
      cases hk
  · rw [mem_keys_iff_timed] at hk
    rcases hsub k with heq | hnone
    · exact h.proper k (mem_keys_iff_timed.mpr (heq ▸ hk))
    · rw [hnone] at hk
      cases hk

/-! ### Reads -/

/-- The shard with one more miss counted. -/
def missed (sh : CacheShard α V T) : CacheShard α V T :=
  { sh with stats := { sh.stats with misses := sh.stats.misses + 1 } }

/-- A read of a key that is not stored. -/
theorem read_miss {key : Key α} (hkey : key ∉ sh.backend.keys) (touch : Bool) (now : T) :
    sh.readValueLocked key touch true now = (none, sh.missed) := by
  have hnone : sh.backend.getEntry key = none := OrderedDict.get?_eq_none_iff.mpr hkey
  simp only [readValueLocked, hnone, ↓reduceIte]
  rfl

theorem Timeless.missed (h : sh.Timeless) : sh.missed.Timeless :=
  ⟨h.agrees.congr rfl fun _ => Iff.rfl, h.timeless, h.proper⟩

/-- A read of a key that is stored. -/
theorem Timeless.read_hit (h : sh.Timeless) {key : Key α} (hkey : key ∈ sh.backend.keys) (touch : Bool) (now : T) :
    (sh.readValueLocked key touch true now).1.isSome = true ∧
      (sh.readValueLocked key touch true now).2.backend.keys = sh.backend.keys ∧
      (sh.readValueLocked key touch true now).2.stats = { sh.stats with hits := sh.stats.hits + 1 } := by
  obtain ⟨e, he⟩ := InMemoryBackend.mem_keys_iff.mp hkey
  have hset : (sh.backend.putEntry (e.touch now)).keys = sh.backend.keys := by
    have hmem : (e.touch now).key ∈ sh.backend.keys := (sh.backend.keyed key e he).symm ▸ hkey
    exact OrderedDict.keys_set_of_mem hmem _
  cases touch with
  | false => simp [readValueLocked, he, h.isExpired_eq he now]
  | true => simp [readValueLocked, he, h.isExpired_eq he now, hset]

/-- A read keeps a shard without lifetimes. -/
theorem Timeless.read (h : sh.Timeless) (key : Key α) (touch countStats : Bool) (now : T) :
    (sh.readValueLocked key touch countStats now).2.Timeless := by
  have htended := tended_readValueLocked sh key touch countStats now
  refine h.mono (htended.agrees h.agrees) fun k => ?_
  rcases htended.key k with ⟨-, htimed⟩ | ⟨_, _, -, -, -, hgone⟩
  · exact .inl htimed
  · exact .inr hgone

/-! ### Puts -/

/-- The shard that a put enforces the capacity on. -/
theorem Timeless.stored (h : sh.Timeless) (hdefault : ∀ t, cfg.defaultTtl = some t → t ≤ 0) (key : α) (value : V)
    {ttl : Ttl T} (httl : ∀ t, ttl ≠ .seconds t) (now : T) :
    (sh.stored cfg (some key) value ttl now).Timeless := by
  have htimed := fun k => timed_storeLocked cfg sh (some key) k value ttl now
  refine ⟨h.agrees.stored cfg _ value ttl now, fun k v d hk => ?_, fun k hk => ?_⟩
  · rw [CacheShard.stored, h.dropExpired_eq, htimed] at hk
    split_ifs at hk
    · rw [resolveTtl_timeless hdefault (fun e he => h.expiresAt_eq he) httl] at hk
      cases hk
      rfl
    · exact h.timeless k v d hk
  · rw [mem_keys_iff_timed, CacheShard.stored, h.dropExpired_eq, htimed] at hk
    split_ifs at hk with heq
    · rw [heq]
      rfl
    · exact h.proper k (mem_keys_iff_timed.mpr hk)

/-- The eviction loop takes out every entry too many. -/
theorem Timeless.length_victims (h : sh.Timeless) : sh.victims.length = sh.backend.size - sh.capacity := by
  have hproper : sh.policy.order.takeWhile Option.isSome = sh.policy.order :=
    List.takeWhile_eq_self_iff.mpr fun k hk => h.proper k ((h.agrees.mem_iff k).mp hk)
  rw [victims, hproper, List.length_take, h.agrees.length_order]
  omega

/-- The counters after the eviction of keys that are stored. -/
theorem stats_removeEntriesLocked {keys : List (Key α)} (hnd : keys.Nodup) (hsub : ∀ k ∈ keys, k ∈ sh.backend.keys) :
    (sh.removeEntriesLocked keys .evict).2.stats =
      { sh.stats with evictions := sh.stats.evictions + keys.length } := by
  induction keys generalizing sh with
  | nil => rfl
  | cons k keys ih =>
      obtain ⟨hk, hnd⟩ := List.nodup_cons.mp hnd
      have hsome := InMemoryBackend.mem_keys_iff_isSome.mp (hsub k List.mem_cons_self)
      rw [removeEntriesLocked_cons, ih hnd fun k' hk' => ?_, removeEntryLocked_stats, if_pos hsome,
        List.length_cons]
      · simp only [countRemoval, MutableStats.mk.injEq, true_and, and_true]
        omega
      · have hne : k' ≠ k := fun heq => hk (heq ▸ hk')
        rw [removeEntryLocked_backend]
        exact OrderedDict.mem_keys_erase.mpr ⟨hsub k' (List.mem_cons_of_mem k hk'), hne⟩

/-- The shard after a put in cache-only mode. -/
theorem Agrees.putLocked_of_cacheOnly (h : sh.Agrees) (hmode : cfg.writeMode = .cacheOnly) (src : Source α V)
    (key : Key α) (value : V) (ttl : Ttl T) (now : T) (ok : Bool) :
    (sh.putLocked cfg src key value ttl now ok).shard = sh.fitted cfg key value ttl now := by
  have hok : ¬ (cfg.writeMode = .writeThrough ∧ ok = false) := by simp [hmode]
  have hback : ¬ cfg.writeMode = .writeBack := by simp [hmode]
  rw [h.putLocked_eq src key value ttl now hok, if_neg hback]

section Put

variable (h : sh.Timeless) (key : α) (value : V) {ttl : Ttl T} (now : T)

/-- The number of entries with a key that is put, before the capacity is enforced. -/
def sizeWith (sh : CacheShard α V T) (key : Key α) : ℕ :=
  sh.backend.size + if key ∈ sh.backend.keys then 0 else 1

include h

/-- The entries that a put takes out. -/
theorem Timeless.length_victims_stored (hdefault : ∀ t, cfg.defaultTtl = some t → t ≤ 0)
    (httl : ∀ t, ttl ≠ .seconds t) :
    (sh.stored cfg (some key) value ttl now).victims.length = sh.sizeWith (some key) - sh.capacity := by
  have hcap : (sh.stored cfg (some key) value ttl now).capacity = sh.capacity :=
    (tended_dropExpired sh (some key) now).capacity_eq
  rw [(h.stored hdefault key value httl now).length_victims, hcap, CacheShard.stored, h.dropExpired_eq,
    size_storeLocked, sizeWith]

/-- **A put ends with as many entries as fit.** -/
theorem Timeless.size_fitted (hdefault : ∀ t, cfg.defaultTtl = some t → t ≤ 0)
    (httl : ∀ t, ttl ≠ .seconds t) :
    (sh.fitted cfg (some key) value ttl now).backend.size = min (sh.sizeWith (some key)) sh.capacity := by
  have hsize := h.agrees.size_fitted cfg (some key) value ttl now
  rw [h.length_victims_stored key value now hdefault httl, CacheShard.stored, h.dropExpired_eq,
    size_storeLocked] at hsize
  rw [sizeWith] at hsize ⊢
  omega

/-- **Every entry too many is an eviction.** -/
theorem Timeless.stats_fitted (hdefault : ∀ t, cfg.defaultTtl = some t → t ≤ 0)
    (httl : ∀ t, ttl ≠ .seconds t) :
    (sh.fitted cfg (some key) value ttl now).stats =
      { sh.stats with
        puts := sh.stats.puts + 1
        evictions := sh.stats.evictions + (sh.sizeWith (some key) - sh.capacity) } := by
  have hstored := h.agrees.stored cfg (some key) value ttl now
  rw [fitted, stats_removeEntriesLocked hstored.nodup_victims fun k hk => hstored.mem_of_victims hk,
    h.length_victims_stored key value now hdefault httl, CacheShard.stored, h.dropExpired_eq]
  rfl

/-- A put keeps a shard without lifetimes. -/
theorem Timeless.fitted (hdefault : ∀ t, cfg.defaultTtl = some t → t ≤ 0) (httl : ∀ t, ttl ≠ .seconds t) :
    (sh.fitted cfg (some key) value ttl now).Timeless := by
  refine (h.stored hdefault key value httl now).mono (h.agrees.fitted cfg _ value ttl now) fun k => ?_
  rw [timed, CacheShard.fitted, getEntry_removeEntriesLocked]
  split_ifs
  · exact .inr rfl
  · exact .inl rfl

/-- **No key comes but the one that is put**, and none goes while there is room. -/
theorem Timeless.mem_keys_fitted (hdefault : ∀ t, cfg.defaultTtl = some t → t ≤ 0)
    (httl : ∀ t, ttl ≠ .seconds t) {k : Key α} :
    (k ∈ (sh.fitted cfg (some key) value ttl now).backend.keys → k = some key ∨ k ∈ sh.backend.keys) ∧
      (sh.sizeWith (some key) ≤ sh.capacity → k = some key ∨ k ∈ sh.backend.keys →
        k ∈ (sh.fitted cfg (some key) value ttl now).backend.keys) := by
  have hkeys : k ∈ (sh.stored cfg (some key) value ttl now).backend.keys ↔ k = some key ∨ k ∈ sh.backend.keys := by
    rw [CacheShard.stored, h.dropExpired_eq]
    exact OrderedDict.mem_keys_set
  rw [CacheShard.mem_keys_fitted, hkeys]
  refine ⟨And.right, fun hroom hk => ⟨?_, hk⟩⟩
  have hnone : (sh.stored cfg (some key) value ttl now).victims = [] :=
    List.eq_nil_of_length_eq_zero (by rw [h.length_victims_stored key value now hdefault httl]; omega)
  rw [hnone]
  exact List.not_mem_nil

end Put

end CacheShard

end CacheLab
