import CacheLab.Core.Live
import CacheLab.Workloads.Session
import CacheLab.System.Base

/-!
# Active expiration is transparent

A run with sweeps, by `expire_all` calls or by `ExpireShard` jobs of the scheduler, against the same run
without them, in cache-only mode and with room for the keys that are put.

* `withoutSweeps` is the run without its sweeps: the labels of the sweeping threads and of the scheduler are
  left out and the other threads are renumbered.
* The two runs differ in what is resident, in the marks, in the order of the policy and in the statistics.
  They agree on the view of each shard (`Core/Live.lean`), and all answers come from there: `Mirrors` is the
  relation, `Mirrors.client` the answered and `Mirrors.sweeper` the unanswered steps.
* Room is needed: an expired entry that was not swept takes the place of another one.
-/

set_option linter.unusedSectionVars false

namespace CacheLab

variable {α V T : Type} [DecidableEq α] [LinearOrder T] [Zero T] [Add T] [Sub T]

variable {cfg : AcceptedConfig T} {hash : Key α → ℕ}

/-! ### The two runs -/

/-- The operations of the runs, `expire_all` aside. -/
def Op.observed : Op α V T → Bool
  | get _ => true
  | contains _ => true
  | inspect _ => true
  | put _ _ _ => true
  | clear => true
  | dump _ => true
  | getOrCompute _ _ => true
  | _ => false

/-- The labels of the runs: any step, and calls of the operations above and of `expire_all`. -/
def Label.observed : Label α V T → Bool
  | call .expireAll => true
  | call op => op.observed
  | _ => true

/-- The keys that a shard was asked to hold since it was last cleared. -/
def askedOf (cfg : AcceptedConfig T) (hash : Key α → ℕ) (i : Fin cfg.shardCount) :
    List (Event α V T) → List (Key α)
  | [] => []
  | .stored key _ _ _ :: log =>
      if shardFor cfg hash key = i then (askedOf cfg hash i log).insert key else askedOf cfg hash i log
  | .cleared j :: log => if j = i then [] else askedOf cfg hash i log
  | _ :: log => askedOf cfg hash i log

/-- The capacity of a shard. -/
def shardCapacity (cfg : AcceptedConfig T) (i : Fin cfg.shardCount) : ℕ :=
  (shardCapacities cfg.capacity cfg.shardCount).getD i 0

/-- The step asks a shard to hold more distinct keys than its capacity. -/
def overfills (hash : Key α → ℕ) (s : System α V cfg) (l : Label α V T) : Bool :=
  match step cfg hash s l with
  | none => false
  | some s' => decide (∃ i, shardCapacity cfg i < (askedOf cfg hash i s'.shared.log).length)

/-- The thread is a worker or runs `expire_all`. -/
def Thread.sweeps : Thread α V T → Bool
  | entering .expireAll _ => true
  | running .expireAll _ => true
  | expiring _ _ => true
  | idle => true
  | handling _ => true
  | finishing => true
  | stopped => true
  | _ => false

/-- The thread in the run without sweeps: a worker has nothing to do there, and there is no `expire_all`. -/
def Thread.unswept : Thread α V T → Option (Thread α V T)
  | entering .expireAll _ => none
  | running .expireAll _ => none
  | expiring _ _ => none
  | finished (.number _) => none
  | idle => some idle
  | handling _ => some idle
  | finishing => some idle
  | stopped => some idle
  | th => some th

/-- The label that answers a step in the run without sweeps. -/
def unsweptLabel (s : System α V cfg) : Label α V T → Option (Label α V T)
  | .schedule _ => none
  | .call .expireAll => none
  | .run i c =>
      (s.threads[i]?).bind fun th =>
        if th.sweeps then none
        else some (.run ((s.threads.take i).filterMap Thread.unswept).length c)
  | l => some l

/-- The run without its sweeps. -/
def withoutSweeps (cfg : AcceptedConfig T) (hash : Key α → ℕ) (s : System α V cfg)
    (ls : List (Label α V T)) : List (Label α V T) :=
  Transition.runImage (step cfg hash) unsweptLabel s ls

/-- What a sweep does to a shard: it removes the expired entries, changes no other entry and keeps the
other keys in the order of the policy. -/
structure SweepsExactly (sh : CacheShard α V T) (now : T) : Prop where
  entries : (sh.expireShard now).2.backend.entryList = sh.backend.entryList.filter fun e => !e.isExpired now
  order : (sh.expireShard now).2.policy.order =
    sh.policy.order.filter fun k => k ∈ (sh.expireShard now).2.backend.keys

/-- A sweep of a shard whose policy tracks the resident keys. -/
theorem CacheShard.Agrees.sweepsExactly {sh : CacheShard α V T} (h : sh.Agrees) (now : T) :
    SweepsExactly sh now := by
  have hexpired : ∀ e ∈ sh.backend.entryList,
      (e.key ∈ CacheShard.expiredKeys sh.backend.entryList now ↔ e.isExpired now = true) := by
    intro e he
    constructor
    · intro hk
      obtain ⟨e', he', hx⟩ := (CacheShard.expiredKeys_spec sh now).2 e.key hk
      have heq : e' = e := Option.some.inj (he'.symm.trans (InMemoryBackend.mem_entryList.mp he))
      exact heq ▸ hx
    · intro hx
      exact List.mem_map.mpr ⟨e, List.mem_filter.mpr ⟨he, hx⟩, rfl⟩
  constructor
  · rw [CacheShard.expireShard, CacheShard.entryList_removeEntriesLocked]
    apply List.filter_congr
    intro e he
    simp [hexpired e he]
  · rw [CacheShard.expireShard, h.order_removeEntriesLocked]
    apply List.filter_congr
    intro k hk
    have hmem := CacheShard.mem_keys_removeEntriesLocked sh k .expire
      (CacheShard.expiredKeys sh.backend.entryList now)
    simp [hmem, (h.mem_iff k).mp hk]

/-! ### The relation -/

/-- A point of a thread in the runs. -/
def Thread.Observed : Thread α V T → Prop
  | entering op caller => (op.observed = true ∨ op = .expireAll) ∧
      (caller = .client .done ∨ ∃ k f v, caller = .leader k f v)
  | running op caller => (op.observed = true ∨ op = .expireAll) ∧
      (caller = .client .done ∨ ∃ k f v, caller = .leader k f v)
  | clearing _ tickets => tickets = []
  | dumping _ _ _ => True
  | expiring _ _ => True
  | leading _ _ _ => True
  | loading _ _ _ => True
  | publishing _ _ _ => True
  | failing _ _ _ => True
  | waiting _ => True
  | finished _ => True
  | idle => True
  | handling job => ∃ i, job = .expireShard i
  | finishing => True
  | stopped => True
  | _ => False

/-- The shared states of the two runs. -/
structure Mirrors (hash : Key α → ℕ) (s t : Shared α V cfg) : Prop where
  now_eq : t.now = s.now
  lifecycle_eq : t.lifecycle = s.lifecycle
  opened : s.Open
  flights_eq : t.flights = s.flights
  shards : ∀ i, ∃ v : View α V T, v.capacity = shardCapacity cfg i ∧ v.asked = askedOf cfg hash i s.log ∧
    (s.shards i).Shows s.now v ∧ (t.shards i).Shows s.now v

/-- The states of the two runs. -/
structure Unswept (hash : Key α → ℕ) (s t : System α V cfg) : Prop where
  shared : Mirrors hash s.shared t.shared
  threads_eq : t.threads = s.threads.filterMap Thread.unswept
  observed : ∀ th ∈ s.threads, th.Observed
  queue : ∀ job ∈ s.shared.queue.items, ∃ i, job = .expireShard i

variable {s s' t t' : Shared α V cfg} {c : Choice α V} {th th' : Thread α V T}

/-- The runs start alike. -/
theorem unswept_initial (cfg : AcceptedConfig T) (hash : Key α → ℕ) (now : T) (src : Source α V) :
    Unswept hash (initial cfg now src) (initial cfg now src) where
  shared :=
    { now_eq := rfl
      lifecycle_eq := rfl
      opened := .inl rfl
      flights_eq := rfl
      shards := by
        intro i
        have hshows : (newShard cfg i : CacheShard α V T).Shows now
            { capacity := (newShard cfg i : CacheShard α V T).capacity } :=
          CacheShard.shows_of_empty (fun _ => rfl) (fun _ => rfl) rfl rfl
        exact ⟨_, rfl, rfl, hshows, hshows⟩ }
  threads_eq := rfl
  observed := by
    intro th hth
    cases hth
  queue := by
    intro job hjob
    cases hjob

/-- A section on one shard in both runs. -/
theorem Mirrors.update (h : Mirrors hash s t) {i : Fin cfg.shardCount} {a b : CacheShard α V T}
    (v : View α V T) (hcap : v.capacity = shardCapacity cfg i) (hasked : v.asked = askedOf cfg hash i s'.log)
    (hother : ∀ j, j ≠ i → askedOf cfg hash j s'.log = askedOf cfg hash j s.log)
    (ha : a.Shows s.now v) (hb : b.Shows s.now v) (hs : s'.shards = Function.update s.shards i a)
    (ht : t'.shards = Function.update t.shards i b) (hnow : s'.now = s.now) (hnow' : t'.now = t.now)
    (hlife : s'.lifecycle = s.lifecycle) (hlife' : t'.lifecycle = t.lifecycle)
    (hflights : t'.flights = s'.flights) : Mirrors hash s' t' where
  now_eq := by rw [hnow, hnow', h.now_eq]
  lifecycle_eq := by rw [hlife, hlife', h.lifecycle_eq]
  opened := by
    unfold Shared.Open
    rw [hlife]
    exact h.opened
  flights_eq := hflights
  shards := by
    intro j
    rw [hs, ht, hnow]
    by_cases hj : j = i
    · subst hj
      rw [Function.update_self, Function.update_self]
      exact ⟨v, hcap, hasked, ha, hb⟩
    · rw [Function.update_of_ne hj, Function.update_of_ne hj, hother j hj]
      exact h.shards j

/-- A section that was not a put or a clear. -/
theorem Mirrors.look (h : Mirrors hash s t) {i : Fin cfg.shardCount} {a b : CacheShard α V T}
    {v v' : View α V T} (hcap : v.capacity = shardCapacity cfg i) (hasked : v.asked = askedOf cfg hash i s.log)
    (hv' : v'.capacity = v.capacity ∧ v'.asked = v.asked) (ha : a.Shows s.now v') (hb : b.Shows s.now v') :
    Mirrors hash (s.setShard i a) (t.setShard i b) :=
  h.update v' (hv'.1.trans hcap) (hv'.2.trans hasked) (fun _ _ => rfl) ha hb rfl rfl rfl rfl rfl rfl
    h.flights_eq

/-! ### The asked keys -/

/-- Evictions do not count. -/
theorem askedOf_evicted (i : Fin cfg.shardCount) (keys : List (Key α)) (log : List (Event α V T)) :
    askedOf cfg hash i ((keys.map Event.evicted).reverse ++ log) = askedOf cfg hash i log := by
  rw [← List.map_reverse]
  induction keys.reverse with
  | nil => rfl
  | cons k keys ih => exact ih

/-- Erasures do not count. -/
theorem askedOf_erased (i : Fin cfg.shardCount) (keys : List (Key α)) (log : List (Event α V T)) :
    askedOf cfg hash i ((keys.map Event.erased).reverse ++ log) = askedOf cfg hash i log := by
  rw [← List.map_reverse]
  induction keys.reverse with
  | nil => rfl
  | cons k keys ih => exact ih

/-- A put asks its shard to hold its key. -/
theorem askedOf_put (i : Fin cfg.shardCount) (key : Key α) (value : V) (ttl : Ttl T) (now : T)
    (keys : List (Key α)) (log : List (Event α V T)) :
    askedOf cfg hash i ((Event.stored key value ttl now :: keys.map Event.evicted).reverse ++ log) =
      if shardFor cfg hash key = i then (askedOf cfg hash i log).insert key else askedOf cfg hash i log := by
  rw [List.reverse_cons, List.append_assoc, askedOf_evicted]
  rfl

/-- A clear of a shard forgets what it was asked. -/
theorem askedOf_clear (i j : Fin cfg.shardCount) (keys : List (Key α)) (log : List (Event α V T)) :
    askedOf cfg hash i ((keys.map Event.erased ++ [Event.cleared j]).reverse ++ log) =
      if j = i then [] else askedOf cfg hash i log := by
  rw [List.reverse_append, List.reverse_singleton, List.append_assoc, List.singleton_append, askedOf,
    askedOf_erased]
  by_cases hj : j = i
  · rw [if_pos hj, if_pos (congrArg Fin.val hj)]
  · rw [if_neg hj, if_neg (fun h => hj (Fin.ext h))]

/-! ### Answered steps -/

/-- A thread that takes an answered step and the thread after it are shown as they are. -/
structure Shown (th th' : Thread α V T) : Prop where
  before : th.unswept = some th
  after : th'.unswept = some th'
  observed : th'.Observed

/-- There is room for the keys that the shards were asked to hold. -/
def RoomFor (hash : Key α → ℕ) (s : Shared α V cfg) : Prop :=
  ∀ i, (askedOf cfg hash i s.log).length ≤ shardCapacity cfg i

/-- A read. -/
theorem Mirrors.read (h : Mirrors hash s t) (key : Key α) (touch : Bool) :
    ((s.home hash key).readValueLocked key touch true s.now).1 =
        ((t.home hash key).readValueLocked key touch true t.now).1 ∧
      Mirrors hash
        (s.setShard (shardFor cfg hash key) ((s.home hash key).readValueLocked key touch true s.now).2)
        (t.setShard (shardFor cfg hash key) ((t.home hash key).readValueLocked key touch true t.now).2) := by
  obtain ⟨v, hcap, hasked, hs, ht⟩ := h.shards (shardFor cfg hash key)
  have hsame : (v.read key s.now touch).capacity = v.capacity ∧ (v.read key s.now touch).asked = v.asked := by
    unfold View.read
    cases v.live.get? key with
    | none => exact ⟨rfl, rfl⟩
    | some e => cases touch <;> exact ⟨rfl, rfl⟩
  rw [h.now_eq]
  refine ⟨(hs.readValueLocked key touch).1.trans (ht.readValueLocked key touch).1.symm, ?_⟩
  exact h.look hcap hasked hsame (hs.readValueLocked key touch).2 (ht.readValueLocked key touch).2

/-- An inspection. -/
theorem Mirrors.inspect (h : Mirrors hash s t) (key : Key α) :
    ((s.home hash key).inspectLocked key s.now).1 = ((t.home hash key).inspectLocked key t.now).1 ∧
      Mirrors hash (s.setShard (shardFor cfg hash key) ((s.home hash key).inspectLocked key s.now).2)
        (t.setShard (shardFor cfg hash key) ((t.home hash key).inspectLocked key t.now).2) := by
  obtain ⟨v, hcap, hasked, hs, ht⟩ := h.shards (shardFor cfg hash key)
  rw [h.now_eq]
  refine ⟨(hs.inspectLocked key).1.trans (ht.inspectLocked key).1.symm, ?_⟩
  exact h.look hcap hasked ⟨rfl, rfl⟩ (hs.inspectLocked key).2 (ht.inspectLocked key).2

/-- The section of a dump. -/
theorem Mirrors.dump (h : Mirrors hash s t) (i : Fin cfg.shardCount) :
    ((s.shards i).dumpLocked s.now).1 = ((t.shards i).dumpLocked t.now).1 ∧
      Mirrors hash (s.setShard i ((s.shards i).dumpLocked s.now).2)
        (t.setShard i ((t.shards i).dumpLocked t.now).2) := by
  obtain ⟨v, hcap, hasked, hs, ht⟩ := h.shards i
  rw [h.now_eq]
  refine ⟨hs.dumpLocked.1.trans ht.dumpLocked.1.symm, ?_⟩
  exact h.look hcap hasked ⟨rfl, rfl⟩ hs.dumpLocked.2 ht.dumpLocked.2

/-- The end of a flight. -/
theorem Mirrors.land (h : Mirrors hash s t) (key : Key α) (flight : ℕ) (outcome : Flight V → Flight V) :
    Mirrors hash
      ((s.setShard (shardFor cfg hash key) ((s.home hash key).unregisterFlight key)).land flight outcome)
      ((t.setShard (shardFor cfg hash key) ((t.home hash key).unregisterFlight key)).land flight outcome) := by
  obtain ⟨v, hcap, hasked, hs, ht⟩ := h.shards (shardFor cfg hash key)
  refine h.update { v with flights := v.flights.erase key } hcap hasked (fun _ _ => rfl)
    (hs.unregisterFlight key) (ht.unregisterFlight key) rfl rfl rfl rfl rfl rfl ?_
  show t.flights.modify flight _ = s.flights.modify flight _
  rw [h.flights_eq]

/-- A put with room. -/
theorem Mirrors.put (h : Mirrors hash s t) (hmode : cfg.writeMode = .cacheOnly) (key : Key α) (value : V)
    (ttl : Ttl T) (ok : Bool) (hroom : RoomFor hash (s.putSection hash key value ttl ok).1) :
    (s.putSection hash key value ttl ok).2 = ([], false) ∧
      (t.putSection hash key value ttl ok).2 = ([], false) ∧
      Mirrors hash (s.putSection hash key value ttl ok).1 (t.putSection hash key value ttl ok).1 := by
  obtain ⟨v, hcap, hasked, hs, ht⟩ := h.shards (shardFor cfg hash key)
  have hquiet : ∀ u : Shared α V cfg, (u.putSection hash key value ttl ok).2 = ([], false) := by
    intro u
    simp [Shared.putSection, CacheShard.putLocked, hmode, ticketsFrom]
  have hraised : ((s.home hash key).putLocked cfg.toCacheConfig s.source key value ttl s.now ok).raised =
      false := congrArg Prod.snd (hquiet s)
  obtain ⟨keys, hlog⟩ : ∃ keys : List (Key α), (s.putSection hash key value ttl ok).1.log =
      (Event.stored key value ttl s.now :: keys.map Event.evicted).reverse ++ s.log := by
    simp only [Shared.putSection, hraised, Bool.false_eq_true, if_false]
    exact ⟨_, rfl⟩
  have hstore : (v.store key s.now cfg.toCacheConfig value ttl).asked =
      askedOf cfg hash (shardFor cfg hash key) (s.putSection hash key value ttl ok).1.log := by
    rw [hlog, askedOf_put, if_pos rfl, ← hasked]
    rfl
  have hfits : (v.store key s.now cfg.toCacheConfig value ttl).asked.length ≤ v.capacity := by
    rw [hstore, hcap]
    exact hroom (shardFor cfg hash key)
  refine ⟨hquiet s, hquiet t, ?_⟩
  refine h.update (v.store key s.now cfg.toCacheConfig value ttl) hcap hstore ?_
    (hs.putLocked hmode s.source key value ttl ok hfits).1
    (ht.putLocked hmode t.source key value ttl ok hfits).1 rfl ?_ rfl rfl rfl rfl h.flights_eq
  · intro j hj
    rw [hlog, askedOf_put, if_neg (Ne.symm hj)]
  · rw [← h.now_eq]
    rfl

/-- The section of a clear. -/
theorem Mirrors.clear (h : Mirrors hash s t) (hmode : cfg.writeMode = .cacheOnly) (i : Fin cfg.shardCount)
    (ok : Key α → Bool) :
    (s.clearSection i ok).2 = ([], false) ∧ (t.clearSection i ok).2 = ([], false) ∧
      Mirrors hash (s.clearSection i ok).1 (t.clearSection i ok).1 := by
  obtain ⟨v, hcap, hasked, hs, ht⟩ := h.shards i
  obtain ⟨hs₁, hs₂, hs₃⟩ := hs.clearLocked hmode s.source ok
  obtain ⟨ht₁, ht₂, ht₃⟩ := ht.clearLocked hmode t.source ok
  obtain ⟨keys, hlog⟩ : ∃ keys : List (Key α), (s.clearSection i ok).1.log =
      (keys.map Event.erased ++ [Event.cleared i]).reverse ++ s.log := by
    simp only [Shared.clearSection, hs₃, Bool.false_eq_true, if_false]
    exact ⟨_, rfl⟩
  refine ⟨?_, ?_, ?_⟩
  · simp only [Shared.clearSection, hs₂, hs₃]
    rfl
  · simp only [Shared.clearSection, ht₂, ht₃]
    rfl
  · refine h.update { capacity := v.capacity } hcap ?_ ?_ hs₁ ht₁ rfl rfl rfl rfl rfl rfl h.flights_eq
    · rw [hlog, askedOf_clear, if_pos rfl]
    · intro j hj
      rw [hlog, askedOf_clear, if_neg (Ne.symm hj)]

/-- The first section of a `get_or_compute`. -/
theorem Mirrors.compute (h : Mirrors hash s t) (key : Key α) :
    ((s.home hash key).getOrComputeLocked key s.now s.flights.length).1 =
        ((t.home hash key).getOrComputeLocked key t.now t.flights.length).1 ∧
      ∀ flights flights', flights' = flights → Mirrors hash
        { s.setShard (shardFor cfg hash key)
            ((s.home hash key).getOrComputeLocked key s.now s.flights.length).2 with flights := flights }
        { t.setShard (shardFor cfg hash key)
            ((t.home hash key).getOrComputeLocked key t.now t.flights.length).2 with flights := flights' } := by
  obtain ⟨v, hcap, hasked, hs, ht⟩ := h.shards (shardFor cfg hash key)
  rw [h.now_eq, h.flights_eq]
  obtain ⟨hrole, hshows⟩ := hs.getOrComputeLocked key s.flights.length
  obtain ⟨hrole', hshows'⟩ := ht.getOrComputeLocked key s.flights.length
  have hsame : (v.getOrCompute key s.now s.flights.length).2.capacity = v.capacity ∧
      (v.getOrCompute key s.now s.flights.length).2.asked = v.asked := by
    unfold View.getOrCompute
    cases hget : v.live.get? key with
    | some e =>
        simp only [View.read, hget]
        exact ⟨rfl, rfl⟩
    | none => cases v.flights.get? key <;> exact ⟨rfl, rfl⟩
  refine ⟨hrole.trans hrole'.symm, fun flights flights' hflights => ?_⟩
  exact h.update _ (hsame.1.trans hcap) (hsame.2.trans hasked) (fun _ _ => rfl) hshows hshows' rfl rfl rfl
    rfl rfl rfl hflights

/-- An observed operation is not `expire_all`. -/
theorem Op.observed_of_not_sweeps {op : Op α V T} {caller : Caller α V T}
    (hop : op.observed = true ∨ op = .expireAll) (h : (Thread.entering op caller).sweeps = false) :
    op.observed = true := by
  rcases hop with hop | rfl
  · exact hop
  · cases h

/-- The points of an observed operation are shown. -/
theorem Op.unswept_of_observed {op : Op α V T} (hop : op.observed = true) (caller : Caller α V T) :
    (Thread.entering op caller).unswept = some (Thread.entering op caller) ∧
      (Thread.running op caller).unswept = some (Thread.running op caller) := by
  cases op with
  | expireAll => cases hop
  | _ => exact ⟨rfl, rfl⟩

/-- An open cache lets an observed operation in, or refuses its arguments. -/
theorem threadStep_entering_observed {u : Shared α V cfg} (hopen : u.Open) {op : Op α V T}
    (hop : op.observed = true) {caller : Caller α V T}
    (hcaller : caller = .client .done ∨ ∃ k f v, caller = .leader k f v) :
    threadStep hash u c (.entering op caller) =
      match op.precheck cfg with
      | some exn => some (u, caller.raised exn)
      | none => some (u, .running op caller) := by
  cases hcheck : op.precheck cfg with
  | none =>
      refine threadStep_entering hopen hcheck ?_ c caller
      rintro flush rfl
      cases hop
  | some exn =>
      have hcount : caller.count u false = u := by
        rcases hcaller with rfl | ⟨k, f, v, rfl⟩ <;> rfl
      have henter : clientStep hash u c (.entering op caller) = some (u, caller.raised exn) := by
        cases op with
        | close flush => cases hop
        | _ => rcases hopen with h | h <;> simp only [clientStep, h, hcheck, hcount]
      rw [threadStep, henter]
      rfl

/-- Where a caller goes on is shown. -/
theorem shown_caller {caller : Caller α V T}
    (hcaller : caller = .client .done ∨ ∃ k f v, caller = .leader k f v) (exn : Exn) :
    ((caller.raised exn).unswept = some (caller.raised exn) ∧ (caller.raised exn).Observed) ∧
      caller.returned.unswept = some caller.returned ∧ caller.returned.Observed := by
  rcases hcaller with rfl | ⟨k, f, v, rfl⟩
  · exact ⟨⟨rfl, trivial⟩, rfl, trivial⟩
  · refine ⟨?_, rfl, trivial⟩
    cases exn <;> exact ⟨rfl, trivial⟩

/-- A thread enters an operation. -/
theorem Mirrors.entering (h : Mirrors hash s t) {op : Op α V T} {caller : Caller α V T}
    (hop : op.observed = true) (hcaller : caller = .client .done ∨ ∃ k f v, caller = .leader k f v)
    (hstep : threadStep hash s c (.entering op caller) = some (s', th')) :
    ∃ t', threadStep hash t c (.entering op caller) = some (t', th') ∧ Mirrors hash s' t' ∧
      Shown (.entering op caller) th' ∧ s'.queue = s.queue := by
  have hopen : t.Open := by
    unfold Shared.Open
    rw [h.lifecycle_eq]
    exact h.opened
  rw [threadStep_entering_observed h.opened hop hcaller] at hstep
  rw [threadStep_entering_observed hopen hop hcaller]
  cases hcheck : op.precheck cfg with
  | some exn =>
      rw [hcheck] at hstep
      obtain ⟨rfl, rfl⟩ := Prod.mk.inj (Option.some.inj hstep)
      obtain ⟨hafter, hobs⟩ := (shown_caller hcaller exn).1
      exact ⟨t, rfl, h, ⟨(Op.unswept_of_observed hop caller).1, hafter, hobs⟩, rfl⟩
  | none =>
      rw [hcheck] at hstep
      obtain ⟨rfl, rfl⟩ := Prod.mk.inj (Option.some.inj hstep)
      obtain ⟨hbefore, hafter⟩ := Op.unswept_of_observed hop caller
      exact ⟨t, rfl, h, ⟨hbefore, hafter, .inl hop, hcaller⟩, rfl⟩

/-- A thread runs the first section of an operation. -/
theorem Mirrors.running (h : Mirrors hash s t) (hmode : cfg.writeMode = .cacheOnly) {op : Op α V T}
    {caller : Caller α V T} (hop : op.observed = true)
    (hcaller : caller = .client .done ∨ ∃ k f v, caller = .leader k f v) (hroom : RoomFor hash s')
    (hstep : threadStep hash s c (.running op caller) = some (s', th')) :
    ∃ t', threadStep hash t c (.running op caller) = some (t', th') ∧ Mirrors hash s' t' ∧
      Shown (.running op caller) th' ∧ s'.queue = s.queue := by
  have hbefore := (Op.unswept_of_observed hop caller).2
  cases op with
  | get key =>
      obtain ⟨hvalue, hmirrors⟩ := h.read key true
      obtain ⟨rfl, rfl⟩ := Prod.mk.inj (Option.some.inj hstep)
      refine ⟨_, ?_, hmirrors, ⟨hbefore, rfl, trivial⟩, rfl⟩
      rw [hvalue]
      rfl
  | contains key =>
      obtain ⟨hvalue, hmirrors⟩ := h.read key false
      obtain ⟨rfl, rfl⟩ := Prod.mk.inj (Option.some.inj hstep)
      refine ⟨_, ?_, hmirrors, ⟨hbefore, rfl, trivial⟩, rfl⟩
      rw [hvalue]
      rfl
  | inspect key =>
      obtain ⟨hvalue, hmirrors⟩ := h.inspect key
      obtain ⟨rfl, rfl⟩ := Prod.mk.inj (Option.some.inj hstep)
      refine ⟨_, ?_, hmirrors, ⟨hbefore, rfl, trivial⟩, rfl⟩
      rw [hvalue]
      rfl
  | put key value ttl =>
      have hrun : ∀ u : Shared α V cfg, (u.putSection hash key value ttl (c.ok key)).2 = ([], false) →
          threadStep hash u c (.running (.put key value ttl) caller) =
            some ((u.putSection hash key value ttl (c.ok key)).1, caller.returned) := by
        intro u hu
        rcases hcaller with rfl | ⟨k, f, v, rfl⟩ <;>
          simp [threadStep, clientStep, hu, enqueueOr, Caller.count]
      have hquiet : (s.putSection hash key value ttl (c.ok key)).2 = ([], false) := by
        simp [Shared.putSection, CacheShard.putLocked, hmode, ticketsFrom]
      rw [hrun s hquiet] at hstep
      obtain ⟨rfl, rfl⟩ := Prod.mk.inj (Option.some.inj hstep)
      obtain ⟨-, hquiet', hmirrors⟩ := h.put hmode key value ttl (c.ok key) hroom
      obtain ⟨hafter, hobs⟩ := (shown_caller hcaller .validation).2
      exact ⟨_, hrun t hquiet', hmirrors, ⟨hbefore, hafter, hobs⟩, rfl⟩
  | clear =>
      obtain ⟨rfl, rfl⟩ := Prod.mk.inj (Option.some.inj hstep)
      exact ⟨t, rfl, h, ⟨hbefore, rfl, rfl⟩, rfl⟩
  | dump limit =>
      obtain ⟨rfl, rfl⟩ := Prod.mk.inj (Option.some.inj hstep)
      exact ⟨t, rfl, h, ⟨hbefore, rfl, trivial⟩, rfl⟩
  | getOrCompute key ttl =>
      obtain ⟨hrole, hmirrors⟩ := h.compute key
      simp only [threadStep, clientStep] at hstep ⊢
      rw [← hrole]
      cases hcase : ((s.home hash key).getOrComputeLocked key s.now s.flights.length).1 with
      | cached value =>
          rw [hcase] at hstep
          obtain ⟨rfl, rfl⟩ := Prod.mk.inj (Option.some.inj hstep)
          exact ⟨_, rfl, hmirrors s.flights t.flights h.flights_eq, ⟨hbefore, rfl, trivial⟩, rfl⟩
      | joins flight =>
          rw [hcase] at hstep
          obtain ⟨rfl, rfl⟩ := Prod.mk.inj (Option.some.inj hstep)
          exact ⟨_, rfl, hmirrors s.flights t.flights h.flights_eq, ⟨hbefore, rfl, trivial⟩, rfl⟩
      | leads flight =>
          rw [hcase] at hstep
          obtain ⟨rfl, rfl⟩ := Prod.mk.inj (Option.some.inj hstep)
          refine ⟨_, rfl, hmirrors _ _ ?_, ⟨hbefore, rfl, trivial⟩, rfl⟩
          rw [h.flights_eq]
  | _ => cases hop

/-- **A step of a thread that does not sweep** is answered by the same step. -/
theorem Mirrors.client (h : Mirrors hash s t) (hmode : cfg.writeMode = .cacheOnly) (hobs : th.Observed)
    (hsweeps : th.sweeps = false) (hroom : RoomFor hash s')
    (hstep : threadStep hash s c th = some (s', th')) :
    ∃ t', threadStep hash t c th = some (t', th') ∧ Mirrors hash s' t' ∧ Shown th th' ∧
      s'.queue = s.queue := by
  cases th with
  | entering op caller =>
      exact h.entering (Op.observed_of_not_sweeps hobs.1 hsweeps) hobs.2 hstep
  | running op caller =>
      have hop : op.observed = true := by
        rcases hobs.1 with hop | rfl
        · exact hop
        · cases hsweeps
      exact h.running hmode hop hobs.2 hroom hstep
  | clearing i tickets =>
      obtain rfl : tickets = [] := hobs
      by_cases hi : i < cfg.shardCount
      · obtain ⟨hquiet, hquiet', hmirrors⟩ := h.clear hmode ⟨i, hi⟩ c.ok
        simp only [threadStep, clientStep, dif_pos hi, hquiet, Bool.false_eq_true, if_false,
          Option.orElse_eq_or, Option.some_or] at hstep
        obtain ⟨rfl, rfl⟩ := Prod.mk.inj (Option.some.inj hstep)
        refine ⟨_, ?_, hmirrors, ⟨rfl, rfl, rfl⟩, rfl⟩
        simp only [threadStep, clientStep, dif_pos hi, hquiet', Bool.false_eq_true, if_false,
          Option.orElse_eq_or, Option.some_or]
      · simp only [threadStep, clientStep, dif_neg hi, enqueueOr, Caller.count, Caller.returned,
          Option.orElse_eq_or, Option.some_or] at hstep ⊢
        obtain ⟨rfl, rfl⟩ := Prod.mk.inj (Option.some.inj hstep)
        exact ⟨t, rfl, h, ⟨rfl, rfl, trivial⟩, rfl⟩
  | dumping i taken limit =>
      by_cases hi : i < cfg.shardCount
      · obtain ⟨hvalue, hmirrors⟩ := h.dump ⟨i, hi⟩
        simp only [threadStep, clientStep, dif_pos hi, Option.orElse_eq_or, Option.some_or] at hstep
        obtain ⟨rfl, rfl⟩ := Prod.mk.inj (Option.some.inj hstep)
        refine ⟨_, ?_, hmirrors, ⟨rfl, rfl, trivial⟩, rfl⟩
        simp only [threadStep, clientStep, dif_pos hi, Option.orElse_eq_or, Option.some_or, hvalue]
      · simp only [threadStep, clientStep, dif_neg hi, Option.orElse_eq_or, Option.some_or] at hstep ⊢
        obtain ⟨rfl, rfl⟩ := Prod.mk.inj (Option.some.inj hstep)
        exact ⟨t, rfl, h, ⟨rfl, rfl, trivial⟩, rfl⟩
  | leading key ttl flight =>
      obtain ⟨rfl, rfl⟩ := Prod.mk.inj (Option.some.inj hstep)
      exact ⟨t, rfl, h, ⟨rfl, rfl, trivial⟩, rfl⟩
  | loading key ttl flight =>
      simp only [threadStep, clientStep] at hstep ⊢
      cases hloaded : c.loaded with
      | none =>
          rw [hloaded] at hstep
          obtain ⟨rfl, rfl⟩ := Prod.mk.inj (Option.some.inj hstep)
          exact ⟨t, rfl, h, ⟨rfl, rfl, trivial⟩, rfl⟩
      | some value =>
          rw [hloaded] at hstep
          obtain ⟨rfl, rfl⟩ := Prod.mk.inj (Option.some.inj hstep)
          exact ⟨t, rfl, h, ⟨rfl, rfl, .inl rfl, .inr ⟨key, flight, value, rfl⟩⟩, rfl⟩
  | publishing key flight value =>
      obtain ⟨rfl, rfl⟩ := Prod.mk.inj (Option.some.inj hstep)
      exact ⟨_, rfl, h.land key flight _, ⟨rfl, rfl, trivial⟩, rfl⟩
  | failing key flight exn =>
      obtain ⟨rfl, rfl⟩ := Prod.mk.inj (Option.some.inj hstep)
      exact ⟨_, rfl, h.land key flight _, ⟨rfl, rfl, trivial⟩, rfl⟩
  | waiting flight =>
      have hwait : ∀ u : Shared α V cfg, threadStep hash u c (.waiting flight) =
          (u.flights[flight]?).bind fun f => if f.event then some (u, .finished f.outcome) else none := by
        intro u
        simp only [threadStep, clientStep, workerStep, closeStep]
        cases u.flights[flight]? with
        | none => rfl
        | some f => cases hf : f.event <;> simp [hf]
      rw [hwait, Option.bind_eq_some_iff] at hstep
      obtain ⟨f, hf, hstep⟩ := hstep
      split_ifs at hstep with hevent
      obtain ⟨rfl, rfl⟩ := Prod.mk.inj (Option.some.inj hstep)
      refine ⟨t, ?_, h, ⟨rfl, ?_, trivial⟩, rfl⟩
      · rw [hwait, h.flights_eq, hf, Option.bind_some, if_pos hevent]
      · unfold Flight.outcome
        cases f.exception <;> rfl
  | finished result => cases hstep
  | expiring i removed => cases hsweeps
  | idle => cases hsweeps
  | handling job => cases hsweeps
  | finishing => cases hsweeps
  | stopped => cases hsweeps
  | _ => exact hobs.elim

/-! ### Unanswered steps -/

/-- A sweep of one shard. -/
theorem Mirrors.sweep (h : Mirrors hash s t) (i : Fin cfg.shardCount) :
    Mirrors hash (s.setShard i ((s.shards i).expireShard s.now).2) t where
  now_eq := h.now_eq
  lifecycle_eq := h.lifecycle_eq
  opened := h.opened
  flights_eq := h.flights_eq
  shards := by
    intro j
    obtain ⟨v, hcap, hasked, hs, ht⟩ := h.shards j
    refine ⟨v, hcap, hasked, ?_, ht⟩
    show (Function.update s.shards i _ j).Shows s.now v
    by_cases hj : j = i
    · subst hj
      rw [Function.update_self]
      exact hs.expireShard
    · rwa [Function.update_of_ne hj]

/-- Nothing but the queue and the counters changes. -/
theorem Mirrors.congr (h : Mirrors hash s t) (hnow : s'.now = s.now) (hlife : s'.lifecycle = s.lifecycle)
    (hflights : s'.flights = s.flights) (hshards : s'.shards = s.shards) (hlog : s'.log = s.log) :
    Mirrors hash s' t where
  now_eq := hnow ▸ h.now_eq
  lifecycle_eq := hlife ▸ h.lifecycle_eq
  opened := by
    unfold Shared.Open
    rw [hlife]
    exact h.opened
  flights_eq := hflights ▸ h.flights_eq
  shards := by
    rw [hshards, hlog, hnow]
    exact h.shards

/-- **A step of a thread that sweeps** needs no answer. -/
theorem Mirrors.sweeper (h : Mirrors hash s t) (hobs : th.Observed) (hsweeps : th.sweeps = true)
    (hqueue : ∀ job ∈ s.queue.items, ∃ i, job = .expireShard i)
    (hstep : threadStep hash s c th = some (s', th')) :
    Mirrors hash s' t ∧ th'.unswept = th.unswept ∧ th'.Observed ∧
      ∀ job ∈ s'.queue.items, ∃ i, job = .expireShard i := by
  cases th with
  | entering op caller =>
      cases op with
      | expireAll =>
          rw [threadStep_entering h.opened rfl (by simp) c caller] at hstep
          obtain ⟨rfl, rfl⟩ := Prod.mk.inj (Option.some.inj hstep)
          exact ⟨h, rfl, hobs, hqueue⟩
      | _ => cases hsweeps
  | running op caller =>
      cases op with
      | expireAll =>
          obtain ⟨rfl, rfl⟩ := Prod.mk.inj (Option.some.inj hstep)
          exact ⟨h, rfl, trivial, hqueue⟩
      | _ => cases hsweeps
  | expiring i removed =>
      by_cases hi : i < cfg.shardCount
      · simp only [threadStep, clientStep, dif_pos hi, Option.orElse_eq_or, Option.some_or] at hstep
        obtain ⟨rfl, rfl⟩ := Prod.mk.inj (Option.some.inj hstep)
        exact ⟨h.sweep ⟨i, hi⟩, rfl, trivial, hqueue⟩
      · simp only [threadStep, clientStep, dif_neg hi, Option.orElse_eq_or, Option.some_or] at hstep
        obtain ⟨rfl, rfl⟩ := Prod.mk.inj (Option.some.inj hstep)
        exact ⟨h, rfl, trivial, hqueue⟩
  | idle =>
      simp only [threadStep, clientStep, workerStep, closeStep] at hstep
      cases hitems : s.queue.items with
      | nil =>
          rw [hitems] at hstep
          cases hstop : s.stopEvent with
          | false => simp [hstop] at hstep
          | true =>
              simp only [hstop, if_true] at hstep
              obtain ⟨rfl, rfl⟩ := Prod.mk.inj (Option.some.inj hstep)
              exact ⟨h, rfl, trivial, hqueue⟩
      | cons job rest =>
          rw [hitems] at hstep
          obtain ⟨rfl, rfl⟩ := Prod.mk.inj (Option.some.inj hstep)
          rw [hitems] at hqueue
          exact ⟨h.congr rfl rfl rfl rfl rfl, rfl, hqueue job List.mem_cons_self,
            fun job' hjob' => hqueue job' (List.mem_cons_of_mem job hjob')⟩
  | handling job =>
      obtain ⟨i, rfl⟩ := hobs
      by_cases hi : i < cfg.shardCount
      · simp only [threadStep, clientStep, workerStep, Shared.onShard, dif_pos hi, Option.map_some] at hstep
        obtain ⟨rfl, rfl⟩ := Prod.mk.inj (Option.some.inj hstep)
        exact ⟨(h.sweep ⟨i, hi⟩).congr rfl rfl rfl rfl rfl, rfl, trivial, hqueue⟩
      · simp [threadStep, clientStep, workerStep, closeStep, Shared.onShard, hi] at hstep
  | finishing =>
      obtain ⟨rfl, rfl⟩ := Prod.mk.inj (Option.some.inj hstep)
      exact ⟨h.congr rfl rfl rfl rfl rfl, rfl, trivial, hqueue⟩
  | stopped => cases hstep
  | _ => cases hsweeps

/-! ### Runs -/

/-- A step that does not overfill leaves room. -/
theorem roomFor_of_overfills {s s' : System α V cfg} {l : Label α V T} (h : overfills hash s l = false)
    (hstep : step cfg hash s l = some s') : RoomFor hash s'.shared := by
  unfold overfills at h
  rw [hstep] at h
  intro i
  exact not_lt.mp fun hlt => of_decide_eq_false h ⟨i, hlt⟩

/-- Time passes in both runs. -/
theorem Mirrors.tick (h : Mirrors hash s t) {now : T} (hle : s.now ≤ now) :
    Mirrors hash { s with now := now } { t with now := now } where
  now_eq := rfl
  lifecycle_eq := h.lifecycle_eq
  opened := h.opened
  flights_eq := h.flights_eq
  shards := by
    intro i
    obtain ⟨v, hcap, hasked, hs, ht⟩ := h.shards i
    exact ⟨v.setLive now v.live, hcap, hasked, hs.tick hle, ht.tick hle⟩

/-- The thread of an observed call is shown, and `expire_all` is not. -/
theorem unsweptLabel_call {s : System α V cfg} {op : Op α V T} {l : Label α V T}
    (h : unsweptLabel s (.call op) = some l) (hop : (Label.call op : Label α V T).observed = true) :
    l = .call op ∧ op.observed = true := by
  cases op with
  | expireAll => cases h
  | _ => exact ⟨(Option.some.inj h).symm, hop⟩

/-- A step with an answer. -/
theorem Unswept.answer (hmode : cfg.writeMode = .cacheOnly) {s s' t : System α V cfg} {l l' : Label α V T}
    (h : Unswept hash s t) (hlabel : l.observed = true) (hroom : overfills hash s l = false)
    (himage : unsweptLabel s l = some l') (hstep : step cfg hash s l = some s') :
    ∃ t', step cfg hash t l' = some t' ∧ Unswept hash s' t' := by
  have hroom' := roomFor_of_overfills hroom hstep
  cases l with
  | tick now =>
      obtain rfl : Label.tick now = l' := Option.some.inj himage
      simp only [step] at hstep
      split_ifs at hstep with hle
      obtain rfl := Option.some.inj hstep
      have hle' : t.shared.now ≤ now := h.shared.now_eq ▸ hle
      exact ⟨_, if_pos hle', ⟨h.shared.tick hle, h.threads_eq, h.observed, h.queue⟩⟩
  | start =>
      obtain rfl : Label.start = l' := Option.some.inj himage
      have hlife := h.shared.lifecycle_eq
      rcases h.shared.opened with hopen | hopen
      · simp only [step, hopen] at hstep
        obtain rfl := Option.some.inj hstep
        rw [hopen] at hlife
        simp only [step, hlife]
        refine ⟨_, rfl, ⟨h.shared.now_eq, rfl, .inr rfl, h.shared.flights_eq, h.shared.shards⟩, ?_, ?_, h.queue⟩
        · show t.threads ++ _ = _
          have hidle : (Thread.idle : Thread α V T).unswept = some Thread.idle := rfl
          rw [h.threads_eq, List.filterMap_append, List.filterMap_replicate_of_some hidle]
        · intro th hth
          rcases List.mem_append.mp hth with hth | hth
          · exact h.observed th hth
          · rw [(List.mem_replicate.mp hth).2]
            trivial
      · simp only [step, hopen] at hstep
        obtain rfl := Option.some.inj hstep
        rw [hopen] at hlife
        simp only [step, hlife]
        exact ⟨_, rfl, h⟩
  | call op =>
      obtain ⟨rfl, hop⟩ := unsweptLabel_call himage hlabel
      obtain rfl := Option.some.inj hstep
      refine ⟨_, rfl, h.shared, ?_, ?_, h.queue⟩
      · show t.threads ++ _ = _
        rw [h.threads_eq, List.filterMap_append, List.filterMap_cons,
          (Op.unswept_of_observed hop (.client .done)).1]
        rfl
      · intro th hth
        rcases List.mem_append.mp hth with hth | hth
        · exact h.observed th hth
        · rw [List.mem_singleton.mp hth]
          exact ⟨.inl hop, .inl rfl⟩
  | schedule i => cases himage
  | run i c =>
      obtain ⟨th, hth, hrun⟩ := Option.bind_eq_some_iff.mp hstep
      obtain ⟨r, hr, rfl⟩ := Option.map_eq_some_iff.mp hrun
      simp only [unsweptLabel, hth, Option.bind_some] at himage
      split_ifs at himage with hsweeps
      obtain rfl := Option.some.inj himage
      have hmem := List.mem_of_getElem? hth
      obtain ⟨t', ht', hmirrors, hshown, hqueue⟩ := h.shared.client hmode (h.observed th hmem)
        (Bool.eq_false_iff.mpr hsweeps) hroom' hr
      have hthere := Transition.getElem?_filterMap hth hshown.before
      rw [← h.threads_eq] at hthere
      refine ⟨⟨t', t.threads.set ((s.threads.take i).filterMap Thread.unswept).length r.2⟩, ?_, hmirrors, ?_,
        ?_, ?_⟩
      · simp only [step, hthere, Option.bind_some, ht', Option.map_some]
      · show t.threads.set _ r.2 = (s.threads.set i r.2).filterMap _
        rw [Transition.filterMap_set hth hshown.before hshown.after, h.threads_eq]
      · intro th' hth'
        rcases List.mem_or_eq_of_mem_set hth' with hth' | rfl
        · exact h.observed th' hth'
        · exact hshown.observed
      · show ∀ job ∈ r.1.queue.items, _
        rw [hqueue]
        exact h.queue

/-- A step without an answer. -/
theorem Unswept.silent {s s' t : System α V cfg} {l : Label α V T} (h : Unswept hash s t)
    (hlabel : l.observed = true) (himage : unsweptLabel s l = none) (hstep : step cfg hash s l = some s') :
    Unswept hash s' t := by
  cases l with
  | tick now => cases himage
  | start => cases himage
  | call op =>
      obtain rfl := Option.some.inj hstep
      have hop : op = .expireAll := by
        cases op with
        | expireAll => rfl
        | _ => cases himage
      subst hop
      refine ⟨h.shared, ?_, ?_, h.queue⟩
      · show t.threads = (s.threads ++ _).filterMap _
        rw [h.threads_eq, List.filterMap_append]
        exact (List.append_nil _).symm
      · intro th hth
        rcases List.mem_append.mp hth with hth | hth
        · exact h.observed th hth
        · rw [List.mem_singleton.mp hth]
          exact ⟨.inr rfl, .inl rfl⟩
  | schedule i =>
      simp only [step] at hstep
      split_ifs at hstep with hi
      obtain rfl := Option.some.inj hstep
      refine ⟨h.shared.congr rfl rfl rfl rfl rfl, h.threads_eq, h.observed, ?_⟩
      intro job hjob
      simp only [CacheJobQueue.putNowait] at hjob
      split_ifs at hjob
      · exact h.queue job hjob
      · rcases List.mem_append.mp hjob with hjob | hjob
        · exact h.queue job hjob
        · exact ⟨i, List.mem_singleton.mp hjob⟩
  | run i c =>
      obtain ⟨th, hth, hrun⟩ := Option.bind_eq_some_iff.mp hstep
      obtain ⟨r, hr, rfl⟩ := Option.map_eq_some_iff.mp hrun
      have hsweeps : th.sweeps = true := by
        simp only [unsweptLabel, hth, Option.bind_some] at himage
        split_ifs at himage with hsweeps
        exact hsweeps
      have hmem := List.mem_of_getElem? hth
      obtain ⟨hmirrors, hsame, hobs, hqueue⟩ :=
        h.shared.sweeper (h.observed th hmem) hsweeps h.queue hr
      refine ⟨hmirrors, ?_, ?_, hqueue⟩
      · rw [h.threads_eq]
        exact (Transition.filterMap_set_of_eq hth hsame).symm
      · intro th' hth'
        rcases List.mem_or_eq_of_mem_set hth' with hth' | rfl
        · exact h.observed th' hth'
        · exact hobs

/-- **Active expiration is transparent.** In cache-only mode, take any run of the operations and any number
of sweeps in it, in which no shard is asked to hold more distinct keys than its capacity. Then the run
without its sweeps is a run as well and every call has the same result in it; and a sweep removes exactly
the expired entries and changes neither the others nor their order in the policy. -/
theorem active_expiration_is_transparent {cfg : AcceptedConfig T} {hash : Key α → ℕ} {now : T}
    {src : Source α V} {ls : List (Label α V T)} {s : System α V cfg} (hmode : cfg.writeMode = .cacheOnly)
    (hls : ∀ l ∈ ls, l.observed = true)
    (hroom : Transition.Along (step cfg hash) (fun s l => overfills hash s l = false) (initial cfg now src) ls)
    (h : exec cfg hash (initial cfg now src) ls = some s) :
    (∃ t, exec cfg hash (initial cfg now src) (withoutSweeps cfg hash (initial cfg now src) ls) = some t ∧
      t.threads = s.threads.filterMap Thread.unswept) ∧
    ∀ i, SweepsExactly (s.shared.shards i) s.shared.now := by
  have halong : Transition.Along (step cfg hash) (fun s l => l.observed = true ∧ overfills hash s l = false)
      (initial cfg now src) ls :=
    (Transition.along_of_forall (fun l hl _ => hls l hl) _).and hroom
  obtain ⟨t, ht, hunswept⟩ := Transition.run_runImage
    (fun s t l l' s' hP hR himage hstep => hR.answer hmode hP.1 hP.2 himage hstep)
    (fun s t l s' hP hR himage hstep => hR.silent hP.1 himage hstep)
    halong (unswept_initial cfg hash now src) h
  exact ⟨⟨t, ht, hunswept.threads_eq⟩, fun i => ((base_exec h).shards i).agrees.sweepsExactly _⟩

/-- A key expires, is swept and put again. -/
def sweptRun : List (Label ℕ ℕ ℕ) :=
  [.call (.put (some 1) 10 (.seconds 1)), .run 0 {}, .run 0 {}, .tick 2,
    .call .expireAll, .run 1 {}, .run 1 {}, .run 1 {}, .run 1 {},
    .call (.put (some 1) 11 .unset), .run 2 {}, .run 2 {}, .call (.inspect (some 1)), .run 3 {}, .run 3 {}]

/-- Without the sweep the second put drops the expired entry, and the inspection shows the same. -/
theorem active_expiration_is_transparent_on_reput :
    ∃ s t : System ℕ ℕ (oneEntry .lru .cacheOnly 0 0 0),
      exec _ (fun _ => 0) (initial _ 0 .empty) sweptRun = some s ∧
      s.threads[1]? = some (Thread.finished (.number 1)) ∧
      exec _ (fun _ => 0) (initial _ 0 .empty)
        (withoutSweeps (oneEntry .lru .cacheOnly 0 0 0) (fun _ => 0) (initial _ 0 .empty) sweptRun) = some t ∧
      t.threads = s.threads.filterMap Thread.unswept ∧
      ∀ i, SweepsExactly (s.shared.shards i) s.shared.now := by
  have heval : ((exec (oneEntry .lru .cacheOnly 0 0 0) (fun _ => 0) (initial _ 0 .empty) sweptRun).map
      fun s : System ℕ ℕ (oneEntry .lru .cacheOnly 0 0 0) =>
        decide (s.threads[1]? = some (Thread.finished (.number 1)))) = some true := by decide +kernel
  obtain ⟨s, hs, heval⟩ := Option.map_eq_some_iff.mp heval
  have hroom : Transition.Along (step (oneEntry .lru .cacheOnly 0 0 0) fun _ => 0)
      (fun s l => overfills (fun _ => 0) s l = false) (initial (oneEntry .lru .cacheOnly 0 0 0) 0 .empty)
      sweptRun := by decide +kernel
  obtain ⟨⟨t, ht, hthreads⟩, hsweeps⟩ := active_expiration_is_transparent rfl (by decide) hroom hs
  exact ⟨s, t, hs, of_decide_eq_true heval, ht, hthreads, hsweeps⟩

end CacheLab
