import CacheLab.System.Step

/-!
# Sessions

A session is one client that makes its calls one after the other, each to its end, as the request loop
of the workload runner does. A request of a session is a run of `exec` with the labels of its calls, so
nothing about the operations is stated a second time here.
-/

set_option linter.unusedSectionVars false

namespace CacheLab

variable {α V T : Type} [DecidableEq α] [LinearOrder T] [Zero T] [Add T] [Sub T]

variable {cfg : AcceptedConfig T} {hash : Key α → ℕ}

/-- A call of a new thread that is over after its checks and one section. -/
def callAlone (cfg : AcceptedConfig T) (hash : Key α → ℕ) (s : System α V cfg) (op : Op α V T) :
    Option (System α V cfg × Result α V T) :=
  (exec cfg hash s [.call op, .run s.threads.length {}, .run s.threads.length {}]).bind fun s' =>
    match s'.threads[s.threads.length]? with
    | some (.finished r) => some (s', r)
    | _ => none

/-- A request of a session. The keys are those other than `None`. -/
inductive Request (α V T : Type)
  | put (key : α) (value : V) (ttl : Ttl T)
  | get (key : α)
  | contains (key : α)
  | delete (key : α)
  /-- A `get`, and on a miss a `put` of the key. -/
  | readThrough (key : α) (value : V)
  /-- Let the clock reach a time. -/
  | wait (time : T)
  /-- Start the workers and the scheduler. -/
  | start

/-- Whether the result of a read is a hit. -/
def Result.hit : Result α V T → Bool
  | value found => found.isSome
  | flag answer => answer
  | _ => false

/-- The system after a request, and for a read whether it was a hit. The runner tests `get(key) is
None`; it stores no `None`, so that is a miss.
Source: `workloads/runner.py` `run_simulation` -/
def serve (cfg : AcceptedConfig T) (hash : Key α → ℕ) (s : System α V cfg) :
    Request α V T → Option (System α V cfg × Option Bool)
  | .put key value ttl => (callAlone cfg hash s (.put (some key) value ttl)).map fun r => (r.1, none)
  | .get key => (callAlone cfg hash s (.get (some key))).map fun r => (r.1, some r.2.hit)
  | .contains key => (callAlone cfg hash s (.contains (some key))).map fun r => (r.1, some r.2.hit)
  | .delete key => (callAlone cfg hash s (.delete (some key))).map fun r => (r.1, none)
  | .readThrough key value =>
      (callAlone cfg hash s (.get (some key))).bind fun r =>
        if r.2.hit then some (r.1, some true)
        else (callAlone cfg hash r.1 (.put (some key) value .unset)).map fun r' => (r'.1, some false)
  | .wait time => (exec cfg hash s [.tick (max s.shared.now time)]).map fun s' => (s', none)
  | .start => (exec cfg hash s [.start]).map fun s' => (s', none)

/-- The system after a list of requests, and what the reads among them answered. -/
def serveAll (cfg : AcceptedConfig T) (hash : Key α → ℕ) :
    System α V cfg → List (Request α V T) → Option (System α V cfg × List (Option Bool))
  | s, [] => some (s, [])
  | s, r :: rs =>
      (serve cfg hash s r).bind fun x =>
        (serveAll cfg hash x.1 rs).map fun y => (y.1, x.2 :: y.2)

/-! ### Calls on an open cache -/

/-- The cache accepts calls. -/
def Shared.Open (s : Shared α V cfg) : Prop := s.lifecycle = .created ∨ s.lifecycle = .started

/-- A call from its two steps. -/
theorem callAlone_eq {s : System α V cfg} {op : Op α V T} {s₁ s₂ : Shared α V cfg}
    {th₁ : Thread α V T} {r : Result α V T}
    (h₁ : threadStep hash s.shared {} (.entering op (.client .done)) = some (s₁, th₁))
    (h₂ : threadStep hash s₁ {} th₁ = some (s₂, Thread.finished r)) :
    callAlone cfg hash s op = some (⟨s₂, s.threads ++ [Thread.finished r]⟩, r) := by
  have hcall : exec cfg hash s [.call op, .run s.threads.length {}, .run s.threads.length {}] =
      some ⟨s₂, s.threads ++ [Thread.finished r]⟩ := by
    simp [exec, Transition.run, step, h₁, h₂]
  rw [callAlone, hcall]
  simp

/-- An open cache lets a call in that passes its argument checks. -/
theorem threadStep_entering {s : Shared α V cfg} (hopen : s.Open) {op : Op α V T}
    (hop : op.precheck cfg = none) (hclose : ∀ flush, op ≠ .close flush) (c : Choice α V)
    (caller : Caller α V T) :
    threadStep hash s c (.entering op caller) = some (s, Thread.running op caller) := by
  rw [threadStep, clientStep_entering hclose]
  rcases hopen with h | h <;> rw [h, hop] <;> rfl

/-- The clock can always advance. -/
theorem exec_wait (hash : Key α → ℕ) (s : System α V cfg) (time : T) :
    ∃ s', exec cfg hash s [.tick (max s.shared.now time)] = some s' ∧
      s'.shared.lifecycle = s.shared.lifecycle ∧ s'.shared.shards = s.shared.shards := by
  have htick : step cfg hash s (.tick (max s.shared.now time)) =
      some { s with shared := { s.shared with now := max s.shared.now time } } :=
    if_pos (le_max_left _ _)
  exact ⟨_, Transition.run_cons_eq_some.mpr ⟨_, htick, Transition.run_nil _⟩, rfl, rfl⟩

/-- An open cache can be started. -/
theorem exec_start (hash : Key α → ℕ) {s : System α V cfg} (hopen : s.shared.Open) :
    ∃ s', exec cfg hash s [.start] = some s' ∧ s'.shared.Open ∧ s'.shared.shards = s.shared.shards := by
  have hstart : ∃ s', step cfg hash s .start = some s' ∧ s'.shared.Open ∧
      s'.shared.shards = s.shared.shards := by
    rcases hopen with h | h
    · simp only [step, h]
      exact ⟨_, rfl, .inr rfl, rfl⟩
    · simp only [step, h]
      exact ⟨_, rfl, .inr h, rfl⟩
  obtain ⟨s', hs', hrest⟩ := hstart
  exact ⟨s', Transition.run_cons_eq_some.mpr ⟨s', hs', Transition.run_nil _⟩, hrest⟩

/-- A call ran one section, on the given shard. -/
structure Shared.Sectioned (s : Shared α V cfg) (i : Fin cfg.shardCount) (sh : CacheShard α V T)
    (s' : Shared α V cfg) : Prop where
  now_eq : s'.now = s.now
  lifecycle_eq : s'.lifecycle = s.lifecycle
  shards_eq : s'.shards = Function.update s.shards i sh

/-- The cache stays open. -/
theorem Shared.Sectioned.opened {s s' : Shared α V cfg} {i : Fin cfg.shardCount}
    {sh : CacheShard α V T} (h : s.Sectioned i sh s') (hopen : s.Open) : s'.Open := by
  unfold Shared.Open
  rw [h.lifecycle_eq]
  exact hopen

/-- A `get`. -/
theorem callAlone_get (hash : Key α → ℕ) {s : System α V cfg} (hopen : s.shared.Open) (key : Key α) :
    ∃ s' r, callAlone cfg hash s (.get key) = some (s', r) ∧
      r.hit = ((s.shared.home hash key).readValueLocked key true true s.shared.now).1.isSome ∧
      s.shared.Sectioned (shardFor cfg hash key)
        ((s.shared.home hash key).readValueLocked key true true s.shared.now).2 s'.shared :=
  ⟨_, _, callAlone_eq (threadStep_entering hopen rfl (by simp) _ _) rfl, rfl, rfl, rfl, rfl⟩

/-- A `contains`. -/
theorem callAlone_contains (hash : Key α → ℕ) {s : System α V cfg} (hopen : s.shared.Open) (key : Key α) :
    ∃ s' r, callAlone cfg hash s (.contains key) = some (s', r) ∧
      r.hit = ((s.shared.home hash key).readValueLocked key false true s.shared.now).1.isSome ∧
      s.shared.Sectioned (shardFor cfg hash key)
        ((s.shared.home hash key).readValueLocked key false true s.shared.now).2 s'.shared :=
  ⟨_, _, callAlone_eq (threadStep_entering hopen rfl (by simp) _ _) rfl, rfl, rfl, rfl, rfl⟩

/-- A `put` in cache-only mode. -/
theorem callAlone_put (hash : Key α → ℕ) {s : System α V cfg} (hmode : cfg.writeMode = .cacheOnly)
    (hopen : s.shared.Open)
    (key : Key α) (value : V) {ttl : Ttl T} (httl : validExplicitTtl ttl = true) :
    ∃ s' r, callAlone cfg hash s (.put key value ttl) = some (s', r) ∧
      s.shared.Sectioned (shardFor cfg hash key)
        ((s.shared.home hash key).putLocked cfg.toCacheConfig s.shared.source key value ttl
          s.shared.now true).shard s'.shared := by
  have hcheck : (Op.put key value ttl).precheck cfg = none := by simp [Op.precheck, httl]
  have hquiet : (s.shared.putSection hash key value ttl true).2 = ([], false) := by
    simp [Shared.putSection, CacheShard.putLocked, hmode, ticketsFrom]
  have hrun : threadStep hash s.shared {} (.running (.put key value ttl) (.client .done)) =
      some ((s.shared.putSection hash key value ttl true).1, .finished .done) := by
    simp [threadStep, clientStep, hquiet, enqueueOr, Caller.count, Caller.returned]
  exact ⟨_, _, callAlone_eq (threadStep_entering hopen hcheck (by simp) _ _) hrun, rfl, rfl, rfl⟩

/-- A `delete` in cache-only mode. -/
theorem callAlone_delete (hash : Key α → ℕ) {s : System α V cfg} (hmode : cfg.writeMode = .cacheOnly)
    (hopen : s.shared.Open) (key : Key α) :
    ∃ s' r, callAlone cfg hash s (.delete key) = some (s', r) ∧
      s.shared.Sectioned (shardFor cfg hash key)
        ((s.shared.home hash key).deleteLocked cfg.toCacheConfig s.shared.source key true).shard
        s'.shared := by
  have hquiet : (s.shared.deleteSection hash key true).2 = ([], false) := by
    simp [Shared.deleteSection, CacheShard.deleteLocked, CacheShard.eraseLocked, hmode, ticketsFrom]
  obtain ⟨r, hrun⟩ : ∃ r, threadStep hash s.shared {} (.running (.delete key) (.client .done)) =
      some ((s.shared.deleteSection hash key true).1, .finished r) := by
    simp [threadStep, clientStep, hquiet, enqueueOr, Caller.count, Caller.returned]
  exact ⟨_, r, callAlone_eq (threadStep_entering hopen rfl (by simp) _ _) hrun, rfl, rfl, rfl⟩

end CacheLab
