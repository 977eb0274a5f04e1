import Mathlib.Algebra.BigOperators.Fin
import CacheLab.System.Base
import CacheLab.System.ShardSteps

/-!
# The capacity bound

A shard may hold as many entries as its capacity, and the capacities add up to the configured one.
The bound is the business of the eviction loop in `put`, which gives up when the policy offers no
candidate. The policy's answer for "the next victim is the key `None`" is the same `None` as for "there
is no victim", so a put into a full shard whose next victim is the key `None` overflows the shard.

`capacity_bound_iff` says that this is the only way: in a run all states are within bounds if and only
if no step is such a put (`overflows`).
-/

set_option linter.unusedSectionVars false

namespace CacheLab

variable {α V T : Type} [DecidableEq α] [LinearOrder T] [Zero T] [Add T] [Sub T]

variable {cfg : AcceptedConfig T} {hash : Key α → ℕ}

/-! ### The capacities of the shards -/

/-- **The capacities add up** to the configured one. -/
theorem sum_shardCapacities (total : ℕ) {n : ℕ} (hn : 0 < n) :
    ∑ i : Fin n, (shardCapacities total n).getD i 0 = total := by
  have hcount : ∑ i : Fin n, (if (i : ℕ) < total % n then 1 else 0) = total % n := by
    rw [Fin.sum_univ_eq_sum_range (fun i => if i < total % n then 1 else 0), Finset.sum_boole]
    have hfilter : (Finset.range n).filter (· < total % n) = Finset.range (total % n) := by
      ext i
      have := Nat.mod_lt total hn
      simp only [Finset.mem_filter, Finset.mem_range]
      omega
    rw [hfilter, Finset.card_range]
    rfl
  calc ∑ i : Fin n, (shardCapacities total n).getD i 0
      = ∑ i : Fin n, (total / n + if (i : ℕ) < total % n then 1 else 0) :=
        Finset.sum_congr rfl fun i _ => getD_shardCapacities total n i
    _ = n * (total / n) + total % n := by
        rw [Finset.sum_add_distrib, hcount, Finset.sum_const, Finset.card_univ, Fintype.card_fin,
          smul_eq_mul]
    _ = total := Nat.div_add_mod total n

/-! ### One put -/

namespace CacheShard

variable {sh : CacheShard α V T}

/-- **The size after a put** into a shard within its capacity: the bound is broken exactly when the
key is new, the shard is full, and the policy names `None`. -/
theorem Agrees.size_fitted_le_iff (h : sh.Agrees) (cfg : CacheConfig T) (key : Key α) (value : V)
    (ttl : Ttl T) (now : T) (hle : sh.backend.size ≤ sh.capacity) :
    (sh.fitted cfg key value ttl now).backend.size ≤ sh.capacity ↔
      ¬ (key ∉ (sh.dropExpired key now).backend.keys ∧
        sh.capacity ≤ (sh.dropExpired key now).backend.size ∧
        ((sh.dropExpired key now).policy.onPut key).evictCandidate = none) := by
  have hdrop := tended_dropExpired sh key now
  have hst := h.stored cfg key value ttl now
  have hfit := h.size_fitted cfg key value ttl now
  have hsize : (sh.stored cfg key value ttl now).backend.size = (sh.dropExpired key now).backend.size +
      if key ∈ (sh.dropExpired key now).backend.keys then 0 else 1 :=
    size_storeLocked cfg (sh.dropExpired key now) key value ttl now
  have hcap : (sh.stored cfg key value ttl now).capacity = sh.capacity := hdrop.capacity_eq
  have hshrink := hdrop.size_le
  by_cases hover : (sh.stored cfg key value ttl now).capacity <
      (sh.stored cfg key value ttl now).backend.size
  · -- one entry too many: the policy's answer decides
    split_ifs at hsize with hmem
    · omega
    · cases hc : ((sh.dropExpired key now).policy.onPut key).evictCandidate with
      | none =>
          rw [hst.victims_nil (.inr hc), List.length_nil] at hfit
          simp only [hmem, not_false_eq_true, true_and, and_true, not_le]
          omega
      | some a =>
          rw [hst.victims_cons hover hc, List.length_cons] at hfit
          simp only [reduceCtorEq, and_false, not_false_eq_true, iff_true]
          omega
  · split_ifs at hsize with hmem
    · simp only [hmem, not_true_eq_false, false_and, not_false_eq_true, iff_true]
      omega
    · refine iff_of_true (by omega) ?_
      rintro ⟨-, hfull, -⟩
      omega

end CacheShard

/-! ### Runs -/

/-- Each shard is within its capacity, and all of them together are within the configured one. -/
def Bounded (s : System α V cfg) : Prop :=
  (∀ i, (s.shared.shards i).backend.size ≤ (s.shared.shards i).capacity) ∧
    ∑ i, (s.shared.shards i).backend.size ≤ cfg.capacity

/-- The step is a put that stores a new key into a full shard whose policy, told of the key, answers
`None` for the next victim. The shard is looked at after the lazy expiration of the key. -/
def overflows (hash : Key α → ℕ) (s : System α V cfg) : Label α V T → Bool
  | .run i c =>
      match s.threads[i]? with
      | some (.running (.put key _ _) _) =>
          let sh := (s.shared.shards (shardFor cfg hash key)).dropExpired key s.shared.now
          decide (¬ (cfg.writeMode = .writeThrough ∧ c.ok key = false)) &&
            decide (key ∉ sh.backend.keys) && decide (sh.capacity ≤ sh.backend.size) &&
            decide ((sh.policy.onPut key).evictCandidate = none)
      | _ => false
  | _ => false

/-- When a put overflows. -/
theorem overflows_put_iff {s : System α V cfg} {i : ℕ} {c : Choice α V} {key : Key α} {value : V}
    {ttl : Ttl T} {caller : Caller α V T}
    (hi : s.threads[i]? = some (Thread.running (.put key value ttl) caller)) :
    overflows hash s (.run i c) = true ↔
      ¬ (cfg.writeMode = .writeThrough ∧ c.ok key = false) ∧
        key ∉ ((s.shared.shards (shardFor cfg hash key)).dropExpired key s.shared.now).backend.keys ∧
        ((s.shared.shards (shardFor cfg hash key)).dropExpired key s.shared.now).capacity ≤
          ((s.shared.shards (shardFor cfg hash key)).dropExpired key s.shared.now).backend.size ∧
        (((s.shared.shards (shardFor cfg hash key)).dropExpired key s.shared.now).policy.onPut
          key).evictCandidate = none := by
  simp only [overflows, hi, Bool.and_eq_true, decide_eq_true_eq, and_assoc]

/-- The total bound follows from the bounds of the shards. -/
theorem Base.bounded_iff {s : System α V cfg} (hb : Base hash s) :
    Bounded s ↔ ∀ i, (s.shared.shards i).backend.size ≤ (s.shared.shards i).capacity := by
  refine ⟨fun h => h.1, fun h => ⟨h, ?_⟩⟩
  calc ∑ i, (s.shared.shards i).backend.size
      ≤ ∑ i : Fin cfg.shardCount, (shardCapacities cfg.capacity cfg.shardCount).getD i 0 :=
        Finset.sum_le_sum fun i _ => (hb.shards i).capacity_eq ▸ h i
    _ = cfg.capacity := sum_shardCapacities cfg.capacity cfg.shardCount_pos

/-- A step that is no put lets no shard grow. -/
theorem size_le_of_threadStep {c : Choice α V} {s s' : Shared α V cfg} {th th' : Thread α V T}
    (h : threadStep hash s c th = some (s', th')) (ha : ∀ i, (s.shards i).Agrees)
    (hput : ∀ key value ttl caller, th ≠ .running (.put key value ttl) caller) (j : Fin cfg.shardCount) :
    (s'.shards j).backend.size ≤ (s.shards j).backend.size := by
  rw [InMemoryBackend.size_eq_length_keys, InMemoryBackend.size_eq_length_keys]
  refine (List.subperm_of_subset (s'.shards j).backend.entries.keys_nodup fun k hk => ?_).length_le
  rcases threadStep_mem_keys h ha hk with hmem | ⟨value, ttl, caller, hth⟩
  · exact hmem
  · exact absurd hth (hput k value ttl caller)

/-- A step whose thread runs no put does not overflow. -/
theorem overflows_of_ne {s : System α V cfg} {i : ℕ} {c : Choice α V} {th : Thread α V T}
    (hi : s.threads[i]? = some th)
    (hput : ∀ key value ttl caller, th ≠ .running (.put key value ttl) caller) :
    overflows hash s (.run i c) = false := by
  simp only [overflows, hi]
  split
  · next heq => exact absurd (Option.some.inj heq) (hput _ _ _ _)
  · rfl

/-- A put that does not raise keeps its shard within its capacity exactly when it does not overflow. -/
theorem put_fits_iff {s : System α V cfg} {i : ℕ} {c : Choice α V} {key : Key α} {value : V} {ttl : Ttl T}
    {caller : Caller α V T}
    (hi : s.threads[i]? = some (Thread.running (.put key value ttl) caller)) (hb : Base hash s)
    (hbound : (s.shared.home hash key).backend.size ≤ (s.shared.home hash key).capacity)
    (hok : ¬ (cfg.writeMode = .writeThrough ∧ c.ok key = false)) :
    ((s.shared.home hash key).putLocked cfg.toCacheConfig s.shared.source key value ttl s.shared.now
        (c.ok key)).shard.backend.size ≤ (s.shared.home hash key).capacity ↔
      overflows hash s (.run i c) = false := by
  have hagrees := (hb.shards (shardFor cfg hash key)).agrees
  have hsize : ((s.shared.home hash key).putLocked cfg.toCacheConfig s.shared.source key value ttl
      s.shared.now (c.ok key)).shard.backend.size =
      ((s.shared.home hash key).fitted cfg.toCacheConfig key value ttl s.shared.now).backend.size := by
    rw [hagrees.putLocked_eq _ _ _ _ _ hok]
    simp only
    split_ifs
    · exact (CacheShard.sameData_registerPendingLocked _ key).size_eq
    · rfl
  have hcap : ((s.shared.home hash key).dropExpired key s.shared.now).capacity =
      (s.shared.home hash key).capacity :=
    (CacheShard.tended_dropExpired _ key s.shared.now).capacity_eq
  rw [hsize, hagrees.size_fitted_le_iff cfg.toCacheConfig key value ttl s.shared.now hbound, ← Bool.not_eq_true,
    overflows_put_iff hi, hcap]
  simp only [hok, not_false_eq_true, true_and]

/-- **A put**: a state within bounds stays within bounds exactly when the put does not overflow. -/
theorem bounded_put_iff {s s' : System α V cfg} {i : ℕ} {c : Choice α V} {key : Key α} {value : V} {ttl : Ttl T}
    {caller : Caller α V T} {th' : Thread α V T}
    (hi : s.threads[i]? = some (Thread.running (.put key value ttl) caller))
    (hstep : threadStep hash s.shared c (.running (.put key value ttl) caller) = some (s'.shared, th'))
    (hb : Base hash s) (hb' : Base hash s')
    (hle : ∀ j, (s.shared.shards j).backend.size ≤ (s.shared.shards j).capacity) :
    (∀ j, (s'.shared.shards j).backend.size ≤ (s'.shared.shards j).capacity) ↔
      overflows hash s (.run i c) = false := by
  obtain ⟨hsame, -⟩ := threadStep_put hstep
  have hshards : s'.shared.shards = Function.update s.shared.shards (shardFor cfg hash key)
      ((s.shared.home hash key).putLocked cfg.toCacheConfig s.shared.source key value ttl s.shared.now
        (c.ok key)).shard := hsame.shards_eq
  -- only the shard of the key can grow
  have hall : (∀ j, (s'.shared.shards j).backend.size ≤ (s'.shared.shards j).capacity) ↔
      (s'.shared.home hash key).backend.size ≤ (s.shared.home hash key).capacity := by
    rw [(hb.shards (shardFor cfg hash key)).capacity_eq, ← (hb'.shards (shardFor cfg hash key)).capacity_eq]
    refine ⟨fun h => h (shardFor cfg hash key), fun h j => ?_⟩
    by_cases hj : j = shardFor cfg hash key
    · rwa [hj]
    · rw [hshards, Function.update_of_ne hj]
      exact hle j
  have hhome : s'.shared.home hash key = ((s.shared.home hash key).putLocked cfg.toCacheConfig s.shared.source key
      value ttl s.shared.now (c.ok key)).shard := by
    rw [Shared.home, hshards, Function.update_self]
  rw [hall, hhome]
  by_cases hok : cfg.writeMode = .writeThrough ∧ c.ok key = false
  · rw [CacheShard.putLocked_of_raised _ _ _ _ _ _ hok]
    refine iff_of_true (((CacheShard.tended_dropExpired _ key _).size_le).trans (hle _)) ?_
    simp [overflows, hi, hok.1, hok.2]
  · exact put_fits_iff hi hb (hle _) hok

/-- **One step**: a state within bounds stays within bounds exactly when the step does not overflow. -/
theorem bounded_step_iff {s s' : System α V cfg} {l : Label α V T} (h : step cfg hash s l = some s')
    (hb : Base hash s) (hbound : Bounded s) : Bounded s' ↔ overflows hash s l = false := by
  have hb' := hb.step h
  have hle := hbound.1
  rw [hb'.bounded_iff]
  have hsub : (∀ j, (s'.shared.shards j).backend.size ≤ (s.shared.shards j).backend.size) →
      ∀ j, (s'.shared.shards j).backend.size ≤ (s'.shared.shards j).capacity := by
    intro hsize j
    rw [(hb'.shards j).capacity_eq, ← (hb.shards j).capacity_eq]
    exact (hsize j).trans (hle j)
  rcases step_cases h with ⟨now, rfl, -, rfl⟩ | ⟨new, -, hsame, -, hl, -⟩ |
    ⟨i, c, th, th', rfl, hi, hstep, -⟩
  · exact iff_of_true (hsub fun j => le_rfl) rfl
  · refine iff_of_true (hsub fun j => by rw [hsame.shards_eq]) ?_
    cases l <;> first | rfl | exact absurd rfl (hl _ _)
  · by_cases hput : ∃ key value ttl caller, th = .running (.put key value ttl) caller
    · obtain ⟨key, value, ttl, caller, rfl⟩ := hput
      exact bounded_put_iff hi hstep hb hb' hle
    · have hne : ∀ key value ttl caller, th ≠ .running (.put key value ttl) caller :=
        fun key value ttl caller e => hput ⟨key, value, ttl, caller, e⟩
      refine iff_of_true (hsub ?_) (overflows_of_ne hi hne)
      exact size_le_of_threadStep hstep (fun j => (hb.shards j).agrees) hne

/-- **The capacity bound, exactly.** All states of a run are within bounds if and only if no step of
the run overflows. -/
theorem capacity_bound_iff (cfg : AcceptedConfig T) (hash : Key α → ℕ) (now : T) (src : Source α V)
    (ls : List (Label α V T)) :
    (∀ ms s, ms <+: ls → exec cfg hash (initial cfg now src) ms = some s → Bounded s) ↔
      Transition.Along (step cfg hash) (fun s l => overflows hash s l = false) (initial cfg now src) ls := by
  have hstep : ∀ (s : System α V cfg) l s', step cfg hash s l = some s' → Base hash s → Bounded s →
      (Bounded s' ↔ overflows hash s l = false) :=
    fun _ _ _ h hb hbound => bounded_step_iff h hb hbound
  refine Transition.forall_reached_iff_along (fun _ _ _ h hb => Base.step hb h) ?_ hstep
    (base_initial cfg hash now src) ?_ ls
  · intro s l hnone
    cases l with
    | run i c =>
        cases hi : s.threads[i]? with
        | none => simp [overflows, hi]
        | some th =>
            -- the section of a put is always enabled
            refine overflows_of_ne hi fun key value ttl caller hth => ?_
            subst hth
            simp only [step, hi, Option.bind_some, Option.map_eq_none_iff, threadStep, clientStep] at hnone
            split_ifs at hnone <;> cases hnone
    | _ => rfl
  · exact (base_initial cfg hash now src).bounded_iff.mpr fun i => Nat.zero_le _

instance (s : System α V cfg) : Decidable (Bounded s) :=
  inferInstanceAs (Decidable
    ((∀ i, (s.shared.shards i).backend.size ≤ (s.shared.shards i).capacity) ∧
      ∑ i, (s.shared.shards i).backend.size ≤ cfg.capacity))

/-- A second put into a cache of one entry overflows it if the resident key is `None`. -/
theorem none_key_overflows :
    ∃ s : System ℕ ℕ (oneEntry .lru .cacheOnly 0 0 0),
      exec _ (fun _ => 0) (initial _ 0 .empty)
        [.call (.put none 10 .unset), .run 0 {}, .run 0 {}, .call (.put (some 1) 20 .unset), .run 1 {},
          .run 1 {}] = some s ∧ ¬ Bounded s := by
  have heval : ((exec (oneEntry .lru .cacheOnly 0 0 0) (fun _ => 0) (initial _ 0 .empty)
      [.call (.put none 10 .unset), .run 0 {}, .run 0 {}, .call (.put (some 1) 20 .unset), .run 1 {},
        .run 1 {}]).map fun s : System ℕ ℕ (oneEntry .lru .cacheOnly 0 0 0) => decide (Bounded s)) =
      some false := by decide +kernel
  obtain ⟨s, hs, heval⟩ := Option.map_eq_some_iff.mp heval
  exact ⟨s, hs, of_decide_eq_false heval⟩

end CacheLab
