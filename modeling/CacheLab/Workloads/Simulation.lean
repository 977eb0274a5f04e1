import CacheLab.Workloads.Calls
import Mathlib.Data.Rat.Defs
import Mathlib.Algebra.Order.Ring.Rat

/-!
# Simulations

`run_simulation` sends a stream of keys through a fresh cache: a read for each key and a put after a miss, or a
put alone where the stream says so. The streams are those of `key_stream`, string by string.

The random patterns draw from a generator (`Rng`) of which nothing is assumed; its state stands for the seed. The
clock may read anything between two calls. Of the report the model leaves out the hit ratio, a rounded float of
hits and misses, and the lines of the single shards.
-/

set_option linter.unusedSectionVars false

namespace CacheLab

/-! ### Key streams -/

/-- A random generator with the draws that the patterns make.
Source: `random.Random`, as used in `workloads/patterns.py` `key_stream` -/
structure Rng (G : Type) where
  /-- `randrange(n)`. -/
  randrange : ℕ → G → ℕ × G
  /-- `random() < 0.82`. -/
  hot : G → Bool × G
  /-- `choice(keys)`. -/
  choice : List String → G → String × G

/-- The patterns of `key_stream`. -/
inductive Pattern
  | uniform
  | hotspot
  | sequential
  | looping
  | mixed
  deriving DecidableEq

/-- Lower case, as far as a letter can get into the name of a pattern: the Kelvin sign is a `k`. -/
def lowerLetter (c : Char) : Char := if c = Char.ofNat 0x212A then 'k' else c.toLower

/-- A name in lower case with underscores.
Source: `workloads/patterns.py` `key_stream` -/
def normalize (name : String) : String :=
  String.ofList (name.toList.map fun c => if c = '-' then '_' else lowerLetter c)

/-- The pattern of a name; the error is the text of the `ValueError`.
Source: `workloads/patterns.py` `key_stream` -/
def Pattern.ofName (name : String) : Except String Pattern :=
  if normalize name = "uniform" then .ok .uniform
  else if normalize name = "zipfian" ∨ normalize name = "hotspot" then .ok .hotspot
  else if normalize name = "sequential" ∨ normalize name = "sequential_scan" then .ok .sequential
  else if normalize name = "looping" ∨ normalize name = "looping_working_set" then .ok .looping
  else if normalize name = "mixed" ∨ normalize name = "mixed_read_write" then .ok .mixed
  else .error ("unknown workload pattern: " ++ name)

/-- The key of a number. -/
def rawKey (i : ℕ) : String := "k" ++ toString i

/-- The size of the hot set. -/
def hotSize (capacity : ℕ) : ℕ := max 1 (capacity / 5)

/-- The number of keys of the random patterns. -/
def keyUniverse (capacity : ℕ) : ℕ := max (capacity * 4) 16

/-- The number of keys of the loop. -/
def workingSet (capacity : ℕ) : ℕ := max 1 (capacity - max 1 (capacity / 5))

/-- The keys of a pattern that draws, from an index on. -/
def drawKeys {G : Type} (draw : ℕ → G → String × G) : ℕ → ℕ → G → List String
  | 0, _, _ => []
  | n + 1, index, g => (draw index g).1 :: drawKeys draw n (index + 1) (draw index g).2

/-- The stream of keys of a pattern.
Source: `workloads/patterns.py` `key_stream` -/
def keyStream {G : Type} (rng : Rng G) (seed : G) (requests capacity : ℕ) : Pattern → List String
  | .uniform =>
      drawKeys (fun _ g => ((rawKey (rng.randrange (keyUniverse capacity) g).1),
        (rng.randrange (keyUniverse capacity) g).2)) requests 0 seed
  | .hotspot =>
      let hot := (List.range (hotSize capacity)).map rawKey
      let cold := (List.range' (hotSize capacity) (keyUniverse capacity - hotSize capacity)).map rawKey
      drawKeys (fun _ g => if (rng.hot g).1 then rng.choice hot (rng.hot g).2 else rng.choice cold (rng.hot g).2)
        requests 0 seed
  | .sequential => (List.range requests).map rawKey
  | .looping => (List.range requests).map fun index => rawKey (index % workingSet capacity)
  | .mixed =>
      drawKeys (fun index g =>
        (if index % 5 = 0 then "write:" ++ rawKey (rng.randrange (keyUniverse capacity) g).1
          else rawKey (rng.randrange (keyUniverse capacity) g).1,
        (rng.randrange (keyUniverse capacity) g).2)) requests 0 seed

/-! ### The run -/

/-- The configuration of a simulation; the other fields have their defaults.
Source: `workloads/runner.py` `run_simulation`, `core/config.py` `CacheConfig` -/
def simulationConfig (policy : PolicyName) (capacity shards : ℕ) : CacheConfig ℚ where
  capacity := capacity
  policy := policy
  shardCount := shards
  schedulerInterval := 1
  queuePutTimeout := 1

variable {cfg : AcceptedConfig ℚ}

/-- The key behind `write:`, if the stream asks for a write.
Source: `workloads/runner.py` `run_simulation` -/
def writeKey? (raw : String) : Option String :=
  if "write:".toList.isPrefixOf raw.toList then
    some (String.ofList ((raw.toList.dropWhile fun c => c ≠ ':').drop 1))
  else none

/-- A put at a time; `none` is an exception. -/
def putAt (hash : Key String → ℕ) (time : ℚ) (s : Shared String String cfg) (key value : String) :
    Option (Shared String String cfg) :=
  match call hash {} { s with now := time } (.put (some key) value .unset) with
  | some (s', .done) => some s'
  | _ => none

/-- One round of the loop, with the cache and the writes so far; the clock reads `times`.
Source: `workloads/runner.py` `run_simulation` (the body of the loop) -/
def simulateRequest (hash : Key String → ℕ) (times : ℚ × ℚ) (index : ℕ) (raw : String)
    (x : Shared String String cfg × ℕ) : Option (Shared String String cfg × ℕ) :=
  match writeKey? raw with
  | some key => (putAt hash times.1 x.1 key ("value-" ++ toString index)).map fun s => (s, x.2 + 1)
  | none =>
      match call hash {} { x.1 with now := times.1 } (.get (some raw)) with
      | some (s, .value (some _)) => some (s, x.2)
      | some (s, .value none) => (putAt hash times.2 s raw ("value-" ++ raw)).map fun s' => (s', x.2)
      | _ => none

/-- The loop over a stream, from an index on.
Source: `workloads/runner.py` `run_simulation` -/
def simulateAll (hash : Key String → ℕ) (clock : ℕ → ℚ × ℚ) :
    ℕ → List String → Shared String String cfg × ℕ → Option (Shared String String cfg × ℕ)
  | _, [], x => some x
  | index, raw :: stream, x =>
      (simulateRequest hash (clock index) index raw x).bind fun y =>
        simulateAll hash clock (index + 1) stream y

/-- What a simulation reports.
Source: `workloads/runner.py` `run_simulation` -/
structure SimulationReport where
  policy : PolicyName
  pattern : String
  requests : ℕ
  writes : ℕ
  hits : ℕ
  misses : ℕ
  evictions : ℕ
  expirations : ℕ
  size : ℕ

/-- The sum of a counter over the shards.
Source: `core/cache.py` `Cache.stats` -/
def Shared.counter (s : Shared String String cfg) (f : MutableStats → ℕ) : ℕ :=
  (s.shardList.map fun sh => f sh.stats).sum

/-- Source: `workloads/runner.py` `run_simulation` -/
def runSimulation {G : Type} (rng : Rng G) (hash : Key String → ℕ) (clock : ℕ → ℚ × ℚ) (policy : PolicyName)
    (pattern : String) (capacity requests : ℕ) (seed : G) (shards : ℕ) : Except String SimulationReport :=
  match haccepted : (simulationConfig policy capacity shards).postInit with
  | .error text => .error text
  | .ok () =>
      match Pattern.ofName pattern with
      | .error text => .error text
      | .ok kind =>
          let cfg : AcceptedConfig ℚ := ⟨simulationConfig policy capacity shards, haccepted⟩
          match simulateAll hash clock 0 (keyStream rng seed requests capacity kind)
              ((initial cfg 0 .empty).shared, 0) with
          | none => .error "the cache does not answer"
          | some (s, writes) =>
              .ok
                { policy := policy
                  pattern := pattern
                  requests := requests
                  writes := writes
                  hits := s.counter MutableStats.hits
                  misses := s.counter MutableStats.misses
                  evictions := s.counter MutableStats.evictions
                  expirations := s.counter MutableStats.expirations
                  size := s.total }

end CacheLab
