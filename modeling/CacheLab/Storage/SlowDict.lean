import CacheLab.System.Base

/-!
# The source backend that fails on demand

`SlowDictBackend` is the source of the demos and of the tests: a dictionary whose next `n` writes raise after
`fail_next(n)`. In `System/Step.lean` the outcome of a call on the source is a choice of the environment; here the
backend makes that choice.

* `SlowDictBackend.call` is a write on the backend, `SlowDictBackend.callAll` a row of writes that stops at the
  first one that raises.
* `Thread.sourceCalls` are the writes of the next step of a thread, in their order.
* `Backed` is a cache with its backend: the step of a thread has the outcome that the backend gives, and the
  backend goes through the writes of the step. Its content is always that of the model's source (`Backed.Sound`).

The artificial delay is time that passes, and is left out.
-/

set_option linter.unusedSectionVars false

namespace CacheLab

variable {α V T : Type} [DecidableEq α] [LinearOrder T] [Zero T] [Add T] [Sub T]

variable {cfg : AcceptedConfig T} {hash : Key α → ℕ}

/-! ### The backend -/

/-- Source: `storage/slow_dict.py` `SlowDictBackend` -/
structure SlowDictBackend (α V : Type) [DecidableEq α] where
  data : Source α V
  failuresRemaining : ℕ

namespace SlowDictBackend

/-- Source: `storage/slow_dict.py` `SlowDictBackend.fail_next` -/
def failNext (b : SlowDictBackend α V) (count : ℕ) : SlowDictBackend α V :=
  { b with failuresRemaining := b.failuresRemaining + count }

/-- Whether a write raises, and the backend with one failure less if it does.
Source: `storage/slow_dict.py` `SlowDictBackend._maybe_delay_and_fail` -/
def maybeFail (b : SlowDictBackend α V) : Bool × SlowDictBackend α V :=
  if 0 < b.failuresRemaining then (true, { b with failuresRemaining := b.failuresRemaining - 1 }) else (false, b)

/-- A write, with whether it raised.
Source: `storage/slow_dict.py` `SlowDictBackend.put_value`, `SlowDictBackend.delete_value` -/
def call (b : SlowDictBackend α V) (key : Key α) (op : WriteOp V) : Bool × SlowDictBackend α V :=
  let r := b.maybeFail
  if r.1 then r else (false, { r.2 with data := r.2.data.apply key op })

/-- A row of writes, until one raises. -/
def callAll : List (Key α × WriteOp V) → SlowDictBackend α V → Bool × SlowDictBackend α V
  | [], b => (false, b)
  | (key, op) :: calls, b =>
      let r := b.call key op
      if r.1 then r else callAll calls r.2

/-- The outcome of the writes that follow. -/
def ok (b : SlowDictBackend α V) : Bool := decide (b.failuresRemaining = 0)

end SlowDictBackend

/-! ### The writes of a step -/

/-- The writes on the source that the next step of a thread makes as long as none raises.
Source: `core/cache.py` `Cache.put`, `Cache.delete`, `Cache.clear`, `Cache._flush_write_back_job`,
`Cache._flush_dirty_entries_sync` -/
def Thread.sourceCalls (s : Shared α V cfg) : Thread α V T → List (Key α × WriteOp V)
  | .running (.put key value _) _ => if cfg.writeMode = .writeThrough then [(key, .put value)] else []
  | .running (.delete key) _ => if cfg.writeMode = .writeThrough then [(key, .delete)] else []
  | .clearing i _ =>
      if h : i < cfg.shardCount then
        if cfg.writeMode = .writeThrough then (s.shards ⟨i, h⟩).backend.keys.map fun key => (key, .delete) else []
      else []
  | .checked t => [(t.job.key, t.job.operation)]
  | .syncTry _ t _ _ _ => [(t.job.key, t.job.operation)]
  | _ => []

/-- What a row of writes makes of the source, until one raises. -/
def Source.performAll (ok : Key α → Bool) : List (Key α × WriteOp V) → Source α V → Source α V
  | [], src => src
  | (key, op) :: calls, src => if ok key then performAll ok calls (src.apply key op) else src

section Source

variable {s s' : Shared α V cfg} {c : Choice α V} {th th' : Thread α V T}

/-- The loop of a clear over the keys of a shard. -/
theorem source_clearKeysLocked (ok : Key α → Bool) (keys : List (Key α)) (sh : CacheShard α V T) (src : Source α V)
    (jobs : List (FlushWriteBack α V)) :
    (CacheShard.clearKeysLocked cfg.toCacheConfig ok keys sh src jobs).source =
      src.performAll ok (if cfg.writeMode = .writeThrough then keys.map fun key => (key, .delete) else []) := by
  induction keys generalizing sh src jobs with
  | nil =>
      unfold CacheShard.clearKeysLocked
      split_ifs <;> rfl
  | cons key keys ih =>
      unfold CacheShard.clearKeysLocked
      by_cases hmode : cfg.writeMode = .writeThrough
      · cases hok : ok key with
        | true =>
            simp only [Bool.true_eq_false, and_false, if_false, ih, hmode, if_true, List.map_cons]
            simp [Source.performAll, hok, CacheShard.eraseLocked, hmode]
        | false => simp [hmode, hok, Source.performAll]
      · simp only [hmode, false_and, if_false, ih]
        simp [Source.performAll, CacheShard.eraseLocked, hmode]

end Source

/-! ### The writes of the backend -/

section Calls

variable (b : SlowDictBackend α V) (calls : List (Key α × WriteOp V))

/-- A backend that does not fail goes through all the writes. -/
theorem SlowDictBackend.callAll_of_ok (h : b.failuresRemaining = 0) :
    b.callAll calls = (false, ⟨b.data.performAll (fun _ => true) calls, 0⟩) := by
  induction calls generalizing b with
  | nil =>
      obtain ⟨data, failures⟩ := b
      cases h
      rfl
  | cons call calls ih =>
      obtain ⟨key, op⟩ := call
      have hcall : b.call key op = (false, ⟨b.data.apply key op, 0⟩) := by
        obtain ⟨data, failures⟩ := b
        cases h
        rfl
      unfold SlowDictBackend.callAll
      rw [hcall]
      exact ih ⟨b.data.apply key op, 0⟩ rfl

/-- A backend that fails raises at the first write. -/
theorem SlowDictBackend.callAll_of_fail (h : 0 < b.failuresRemaining) :
    b.callAll calls =
      if calls = [] then (false, b) else (true, { b with failuresRemaining := b.failuresRemaining - 1 }) := by
  cases calls with
  | nil => rfl
  | cons call calls =>
      obtain ⟨key, op⟩ := call
      simp [SlowDictBackend.callAll, SlowDictBackend.call, SlowDictBackend.maybeFail, h]

/-- The content after the writes. -/
theorem SlowDictBackend.data_callAll : (b.callAll calls).2.data = b.data.performAll (fun _ => b.ok) calls := by
  unfold SlowDictBackend.ok
  rcases Nat.eq_zero_or_pos b.failuresRemaining with hzero | hpos
  · rw [b.callAll_of_ok calls hzero, hzero]
    rfl
  · rw [b.callAll_of_fail calls hpos, decide_eq_false hpos.ne']
    cases calls with
    | nil => rfl
    | cons call calls => rfl

/-- One failure is used up when a write raises. -/
theorem SlowDictBackend.failures_callAll :
    (b.callAll calls).2.failuresRemaining + (b.callAll calls).1.toNat = b.failuresRemaining := by
  rcases Nat.eq_zero_or_pos b.failuresRemaining with hzero | hpos
  · rw [b.callAll_of_ok calls hzero, hzero]
    rfl
  · rw [b.callAll_of_fail calls hpos]
    split_ifs
    · rfl
    · exact Nat.sub_add_cancel hpos

/-- A write raises exactly when there is one and the backend fails. -/
theorem SlowDictBackend.fst_callAll : (b.callAll calls).1 = (!b.ok && !calls.isEmpty) := by
  unfold SlowDictBackend.ok
  rcases Nat.eq_zero_or_pos b.failuresRemaining with hzero | hpos
  · rw [b.callAll_of_ok calls hzero, hzero]
    rfl
  · rw [b.callAll_of_fail calls hpos, decide_eq_false hpos.ne']
    cases calls <;> rfl

end Calls

/-! ### A cache with its backend -/

/-- The writes on the source in a step. -/
def System.sourceCalls (s : System α V cfg) : Label α V T → List (Key α × WriteOp V)
  | .run i _ => ((s.threads[i]?).map (Thread.sourceCalls s.shared)).getD []
  | _ => []

/-- A step with the outcome that the backend gives. -/
def Label.over (b : SlowDictBackend α V) : Label α V T → Label α V T
  | .run i c => .run i { c with ok := fun _ => b.ok }
  | l => l

/-- A cache and its source backend. -/
structure Backed (α V : Type) {T : Type} [DecidableEq α] [LinearOrder T] [Zero T] (cfg : AcceptedConfig T) where
  cache : System α V cfg
  backend : SlowDictBackend α V

/-- A step of a cache with its backend. -/
inductive BackedLabel (α V T : Type)
  | failNext (count : ℕ)
  | cache (label : Label α V T)

/-- The failures that a step injects. -/
def BackedLabel.injected : BackedLabel α V T → ℕ
  | failNext count => count
  | cache _ => 0

/-- The failures that a run injects. -/
def injected (ls : List (BackedLabel α V T)) : ℕ := (ls.map BackedLabel.injected).sum

/-- One step of a cache with its backend. -/
def backedStep (cfg : AcceptedConfig T) (hash : Key α → ℕ) (b : Backed α V cfg) :
    BackedLabel α V T → Option (Backed α V cfg)
  | .failNext count => some { b with backend := b.backend.failNext count }
  | .cache l =>
      (step cfg hash b.cache (l.over b.backend)).map fun s' =>
        ⟨s', (b.backend.callAll (b.cache.sourceCalls l)).2⟩

/-- A run of a cache with its backend. -/
def backedExec (cfg : AcceptedConfig T) (hash : Key α → ℕ) (b : Backed α V cfg) (ls : List (BackedLabel α V T)) :
    Option (Backed α V cfg) :=
  Transition.run (backedStep cfg hash) b ls

/-- A fresh cache over a backend that does not fail.
Source: `core/cache.py` `Cache.__init__` -/
def backedInitial (cfg : AcceptedConfig T) (now : T) (src : Source α V) : Backed α V cfg :=
  ⟨initial cfg now src, ⟨src, 0⟩⟩

end CacheLab
