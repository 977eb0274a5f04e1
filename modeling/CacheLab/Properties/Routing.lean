import CacheLab.Concurrency.Hashing
import CacheLab.Properties.ReadYourWrite

/-!
# Routing of equal keys

The docstring of `_canonical` promises that keys which are equal under `==` hash alike. The numbers are
collapsed at the top of a key only: inside a tuple `repr` writes `1`, `1.0` and `True` as they are, and
`0.0` and `-0.0` too. `routed_alike_iff` is the exact condition.

`RoutedAlike` has three parts: the bytes that are hashed, the shard for every digest and every number of
shards, and that what is put under the one key is found under the other.
-/

set_option linter.unusedSectionVars false

namespace CacheLab

section PutFound

variable {α V T : Type} [DecidableEq α] [LinearOrder T] [Zero T] [Add T] [Sub T]

/-- In every reachable state: a put under the first key that runs alone, returns and is not the victim
of its own eviction is what a `get` under the second key answers before the deadline of the entry. -/
def PutFound (V : Type) (cfg : AcceptedConfig T) (hash : Key α → ℕ) (key key' : Key α) : Prop :=
  ∀ (now t : T) (src : Source α V) (ls ms : List (Label α V T)) (s s' : System α V cfg) (i : ℕ)
    (value : V) (ttl : Ttl T),
    exec cfg hash (initial cfg now src) ls = some s →
    s.threads[i]? = some (Thread.running (.put key value ttl) (.client .done)) →
    (∀ l ∈ ms, ∃ c, l = .run i c) → exec cfg hash s ms = some s' →
    s'.threads[i]? = some (Thread.finished .done) →
    (∀ d, (s.shared.home hash key).putDeadline cfg.toCacheConfig key ttl s.shared.now = some d → t < d) →
    key ∉ ((s.shared.home hash key).dropExpired key s.shared.now).putVictims key →
    ((s'.shared.home hash key').readValueLocked key' true true t).1 = some value

/-- A put is found under its own key. -/
theorem putFound_self (cfg : AcceptedConfig T) (hash : Key α → ℕ) (key : Key α) :
    PutFound V cfg hash key key := by
  intro now t src ls ms s s' i value ttl hreach hi hms hrun hdone ht hvictim
  rw [read_put_alone hreach hi hms hrun hdone ht, if_neg hvictim]

end PutFound

namespace PyValue

/-- Two keys are hashed, routed and found alike. -/
structure RoutedAlike (py : Interpreter) (a b : PyValue) : Prop where
  bytes : ∃ bytes, encoded py a = some bytes ∧ encoded py b = some bytes
  shard : ∀ (digest : ByteArray → ℕ) (shardCount : ℕ), 0 < shardCount →
    ∃ i < shardCount, shardIndex py digest shardCount a = some i ∧
      shardIndex py digest shardCount b = some i
  found : ∀ (digest : ByteArray → ℕ) (V T : Type) [LinearOrder T] [Zero T] [Add T] [Sub T]
    (cfg : AcceptedConfig T), ∃ key key', cacheKey py digest cfg.shardCount a = some key ∧
      cacheKey py digest cfg.shardCount b = some key' ∧ PutFound V cfg (routedHash py digest) key key'

variable {py : Interpreter} {a b : PyValue}

/-- Equal keys with the same bytes are routed and found alike. -/
theorem RoutedAlike.of_bytes (h : pyEq a b = true)
    (hbytes : ∃ bytes, encoded py a = some bytes ∧ encoded py b = some bytes) : RoutedAlike py a b := by
  obtain ⟨bytes, ha, hb⟩ := hbytes
  refine ⟨⟨bytes, ha, hb⟩, ?_, ?_⟩
  · intro digest n hn
    exact ⟨digest bytes % n, Nat.mod_lt _ hn, shardIndex_eq ha n, shardIndex_eq hb n⟩
  · intro digest V T _ _ _ _ cfg
    have hkey : cacheKey py digest cfg.shardCount a = cacheKey py digest cfg.shardCount b :=
      cacheKey_eq h ((shardIndex_eq ha _).trans (shardIndex_eq hb _).symm)
    obtain ⟨key, hsome⟩ : ∃ key, cacheKey py digest cfg.shardCount a = some key := by
      rw [cacheKey, shardIndex_eq ha]
      exact ⟨_, rfl⟩
    exact ⟨key, key, hsome, hkey ▸ hsome, putFound_self cfg _ key⟩

/-- **Equal keys are routed alike exactly when** they print, and are numbers or spelled alike at every
place inside their tuples. -/
theorem routed_alike_iff (py : Interpreter) {a b : PyValue} (h : pyEq a b = true) :
    RoutedAlike py a b ↔ prints py a = true ∧ (a.number?.isSome = true ∨ spelledAlike a b = true) := by
  rw [← encoded_eq_iff h]
  exact ⟨RoutedAlike.bytes, RoutedAlike.of_bytes h⟩

/-- The interpreter with its default limit; nothing beyond ASCII is printable. -/
def asciiInterpreter : Interpreter where
  printable _ := false
  maxStrDigits := 4300
  maxStrDigits_ok := .inr (by decide)

/-- The float `1.0`. -/
def floatOne : PyValue :=
  float ⟨false, 2 ^ 52, 1022, by norm_num, by decide, .inr le_rfl⟩

/-- The keys `1` and `1.0` are routed alike. -/
theorem routed_alike_one : RoutedAlike asciiInterpreter (int 1) floatOne :=
  (routed_alike_iff asciiInterpreter (by decide +kernel)).mpr ⟨by decide +kernel, .inl rfl⟩

/-- The keys `(1,)` and `(1.0,)` are equal and hashed differently. -/
theorem tuple_one_routed_apart :
    pyEq (tuple [int 1]) (tuple [floatOne]) = true ∧
      ¬ RoutedAlike asciiInterpreter (tuple [int 1]) (tuple [floatOne]) := by
  have heq : pyEq (tuple [int 1]) (tuple [floatOne]) = true := by decide +kernel
  refine ⟨heq, fun h => ?_⟩
  have halike := ((encoded_eq_iff heq).mp h.bytes).2
  revert halike
  decide

end PyValue

end CacheLab
