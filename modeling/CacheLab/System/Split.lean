import CacheLab.Core.Seats
import CacheLab.Workloads.Session

/-!
# One shard on its own

In cache-only mode the shards have nothing to do with each other: a lock section touches one shard, and what the
calls share beside the shards is the clock and the numbering of the flights. This file compares a cache with a
cache that has one of its shards only, with the capacity that this shard has (`AcceptedConfig.single`).

`Twin os i s x` says that the cache `x` with one shard is in the state of shard `i` of the cache `s`. The flights
of the two are numbered differently: `os` lists the shards of the flights of `s`, and the flight `n` of `s` is
number `rank (· = i) os n` in `x`. `Twin.keyed_step` says that a step of a call for a key of the shard is the
same step in both, and `Twin.aside` that such a step leaves the other shards alone.
-/

set_option linter.unusedSectionVars false

namespace CacheLab

variable {α V T : Type} [DecidableEq α] [LinearOrder T] [Zero T] [Add T] [Sub T]

open Transition (rank rank_append rank_length rank_lt rank_injective)

/-! ### The configuration of one shard -/

/-- The capacity of a shard is positive. -/
theorem one_le_getD_shardCapacities {total n : ℕ} (hn : 0 < n) (h : n ≤ total) (i : Fin n) :
    1 ≤ (shardCapacities total n).getD i 0 := by
  have hdiv : 0 < total / n := Nat.div_pos h hn
  rw [getD_shardCapacities]
  omega

/-- The configuration of a cache that has only the shard `i`. -/
def AcceptedConfig.single (cfg : AcceptedConfig T) (i : Fin cfg.shardCount) : AcceptedConfig T where
  toCacheConfig :=
    { cfg.toCacheConfig with
      capacity := (shardCapacities cfg.capacity cfg.shardCount).getD i 0
      shardCount := 1 }
  accepted := by
    have hok := cfg.accepted
    have hpos := one_le_getD_shardCapacities cfg.shardCount_pos cfg.shardCount_le_capacity i
    unfold CacheConfig.postInit at hok ⊢
    dsimp only
    rw [if_neg (by omega), if_neg (by omega), if_neg (by omega)]
    split_ifs at hok ⊢
    rfl

variable {cfg : AcceptedConfig T} {hash : Key α → ℕ} {i : Fin cfg.shardCount}

/-- The number of the only shard. -/
def only (cfg : AcceptedConfig T) (i : Fin cfg.shardCount) : Fin (cfg.single i).shardCount := ⟨0, Nat.one_pos⟩

/-- Every key is routed to the only shard. -/
theorem shardFor_single (i : Fin cfg.shardCount) (hash : Key α → ℕ) (key : Key α) :
    shardFor (cfg.single i) hash key = only cfg i :=
  Fin.ext (Nat.mod_one _)

/-- The argument checks do not depend on the sizes. -/
theorem precheck_single (op : Op α V T) : op.precheck (cfg.single i) = op.precheck cfg := by
  cases op <;> rfl

/-! ### Calls for a key -/

/-- The key of a call that has one. -/
def Op.key? : Op α V T → Option (Key α)
  | .get key => some key
  | .contains key => some key
  | .inspect key => some key
  | .put key _ _ => some key
  | .delete key => some key
  | .getOrCompute key _ => some key
  | _ => none

/-- Renumber the flight of a caller. -/
def Caller.rename (f : ℕ → ℕ) : Caller α V T → Caller α V T
  | .leader key flight value => .leader key (f flight) value
  | caller => caller

/-- Renumber the flight of a thread. -/
def Thread.rename (f : ℕ → ℕ) : Thread α V T → Thread α V T
  | .entering op caller => .entering op (caller.rename f)
  | .running op caller => .running op (caller.rename f)
  | .leading key ttl flight => .leading key ttl (f flight)
  | .loading key ttl flight => .loading key ttl (f flight)
  | .publishing key flight value => .publishing key (f flight) value
  | .failing key flight exn => .failing key (f flight) exn
  | .waiting flight => .waiting (f flight)
  | th => th

/-- The points of a call for a key in cache-only mode, with the flights that satisfy `own`. -/
inductive KeyedAt (own : ℕ → Prop) (key : Key α) : Thread α V T → Prop
  | entering (op : Op α V T) (h : op.key? = some key) : KeyedAt own key (.entering op (.client .done))
  | running (op : Op α V T) (h : op.key? = some key) : KeyedAt own key (.running op (.client .done))
  | storing (value : V) (ttl : Ttl T) (flight : ℕ) (h : own flight) :
      KeyedAt own key (.entering (.put key value ttl) (.leader key flight value))
  | stores (value : V) (ttl : Ttl T) (flight : ℕ) (h : own flight) :
      KeyedAt own key (.running (.put key value ttl) (.leader key flight value))
  | leading (ttl : Ttl T) (flight : ℕ) (h : own flight) : KeyedAt own key (.leading key ttl flight)
  | loading (ttl : Ttl T) (flight : ℕ) (h : own flight) : KeyedAt own key (.loading key ttl flight)
  | publishing (flight : ℕ) (value : V) (h : own flight) : KeyedAt own key (.publishing key flight value)
  | failing (flight : ℕ) (exn : Exn) (h : own flight) : KeyedAt own key (.failing key flight exn)
  | waiting (flight : ℕ) (h : own flight) : KeyedAt own key (.waiting flight)
  | finished (result : Result α V T) : KeyedAt own key (.finished result)

/-- More flights of its own do no harm. -/
theorem KeyedAt.mono {own own' : ℕ → Prop} {key : Key α} {th : Thread α V T} (h : KeyedAt own key th)
    (hmono : ∀ n, own n → own' n) : KeyedAt own' key th := by
  cases h with
  | entering op hop => exact .entering op hop
  | running op hop => exact .running op hop
  | storing value ttl flight hf => exact .storing value ttl flight (hmono _ hf)
  | stores value ttl flight hf => exact .stores value ttl flight (hmono _ hf)
  | leading ttl flight hf => exact .leading ttl flight (hmono _ hf)
  | loading ttl flight hf => exact .loading ttl flight (hmono _ hf)
  | publishing flight value hf => exact .publishing flight value (hmono _ hf)
  | failing flight exn hf => exact .failing flight exn (hmono _ hf)
  | waiting flight hf => exact .waiting flight (hmono _ hf)
  | finished result => exact .finished result

/-- Renumbering looks at the flights of its own only. -/
theorem KeyedAt.rename_congr {own : ℕ → Prop} {key : Key α} {th : Thread α V T} (h : KeyedAt own key th)
    {f g : ℕ → ℕ} (hfg : ∀ n, own n → f n = g n) : th.rename f = th.rename g := by
  cases h with
  | entering op hop => rfl
  | running op hop => rfl
  | finished result => rfl
  | storing value ttl flight hf => simp only [Thread.rename, Caller.rename, hfg flight hf]
  | stores value ttl flight hf => simp only [Thread.rename, Caller.rename, hfg flight hf]
  | leading ttl flight hf => simp only [Thread.rename, hfg flight hf]
  | loading ttl flight hf => simp only [Thread.rename, hfg flight hf]
  | publishing flight value hf => simp only [Thread.rename, hfg flight hf]
  | failing flight exn hf => simp only [Thread.rename, hfg flight hf]
  | waiting flight hf => simp only [Thread.rename, hfg flight hf]

/-- A renumbered call is a call for the same key. -/
theorem KeyedAt.renamed {own : ℕ → Prop} {key : Key α} {th : Thread α V T} (h : KeyedAt own key th) (f : ℕ → ℕ) :
    KeyedAt (fun _ => True) key (th.rename f) := by
  cases h with
  | entering op hop => exact .entering op hop
  | running op hop => exact .running op hop
  | finished result => exact .finished result
  | storing value ttl flight hf => exact .storing value ttl (f flight) trivial
  | stores value ttl flight hf => exact .stores value ttl (f flight) trivial
  | leading ttl flight hf => exact .leading ttl (f flight) trivial
  | loading ttl flight hf => exact .loading ttl (f flight) trivial
  | publishing flight value hf => exact .publishing (f flight) value trivial
  | failing flight exn hf => exact .failing (f flight) exn trivial
  | waiting flight hf => exact .waiting (f flight) trivial

/-- A call is over in one numbering if and only if it is over in another. -/
theorem Thread.rename_eq_finished {f : ℕ → ℕ} {th : Thread α V T} {r : Result α V T} :
    th.rename f = .finished r ↔ th = .finished r := by
  cases th <;> simp [Thread.rename]

/-! ### The steps of calls for a key -/

section Rules

variable (hash) (c : Choice α V) {y : Shared α V cfg}

/-- The first point of a call. -/
theorem threadStep_entering_client (hopen : y.Open) {op : Op α V T} (hclose : ∀ flush, op ≠ .close flush) :
    threadStep hash y c (.entering op (.client .done)) = match op.precheck cfg with
      | some exn => some (y, .finished (.raised exn))
      | none => some (y, .running op (.client .done)) := by
  have hclient : clientStep hash y c (.entering op (.client .done)) = match op.precheck cfg with
      | some exn => some (y, .finished (.raised exn))
      | none => some (y, .running op (.client .done)) := by
    cases op with
    | close flush => exact absurd rfl (hclose flush)
    | _ => rcases hopen with h | h <;> simp only [clientStep, h] <;> rfl
  rw [threadStep, hclient]
  cases op.precheck cfg <;> rfl

/-- The leader of a flight begins to store what it loaded. -/
theorem threadStep_entering_leader (hopen : y.Open) (key : Key α) (value : V) (ttl : Ttl T) (flight : ℕ) :
    threadStep hash y c (.entering (.put key value ttl) (.leader key flight value)) =
      if validExplicitTtl ttl then some (y, .running (.put key value ttl) (.leader key flight value))
      else some (y, .failing key flight .validation) := by
  have hclient : clientStep hash y c (.entering (.put key value ttl) (.leader key flight value)) =
      match (Op.put key value ttl).precheck cfg with
      | some exn => some (y, .failing key flight .validation)
      | none => some (y, .running (.put key value ttl) (.leader key flight value)) := by
    rcases hopen with h | h <;> simp only [clientStep, h, Op.precheck] <;> split_ifs <;> rfl
  simp only [threadStep, hclient, Op.precheck]
  split_ifs <;> rfl

variable (y)

/-- In cache-only mode a put leaves no jobs, and does not raise. -/
theorem threadStep_put_cacheOnly (hmode : cfg.writeMode = .cacheOnly) (key : Key α) (value : V) (ttl : Ttl T)
    (caller : Caller α V T) :
    threadStep hash y c (.running (.put key value ttl) caller) =
      some (caller.count (y.putSection hash key value ttl (c.ok key)).1 true, caller.returned) := by
  have hquiet : (y.putSection hash key value ttl (c.ok key)).2 = ([], false) := by
    simp [Shared.putSection, CacheShard.putLocked, hmode, ticketsFrom]
  simp [threadStep, clientStep, hquiet, enqueueOr]

/-- In cache-only mode a delete leaves no jobs, and does not raise. -/
theorem threadStep_delete_cacheOnly (hmode : cfg.writeMode = .cacheOnly) (key : Key α) (caller : Caller α V T) :
    threadStep hash y c (.running (.delete key) caller) =
      some ((y.deleteSection hash key (c.ok key)).1,
        .finished (.flag ((y.home hash key).backend.getEntry key).isSome)) := by
  have hquiet : (y.deleteSection hash key (c.ok key)).2 = ([], false) := by
    simp [Shared.deleteSection, CacheShard.deleteLocked, CacheShard.eraseLocked, hmode, ticketsFrom]
  simp [threadStep, clientStep, hquiet, enqueueOr, Caller.count, Caller.returned]

/-- The loader returns or raises. -/
theorem threadStep_loading (key : Key α) (ttl : Ttl T) (flight : ℕ) :
    threadStep hash y c (.loading key ttl flight) = match c.loaded with
      | none => some (y, .failing key flight (.loaderFailure c.exception))
      | some v => some (y, .entering (.put key v ttl) (.leader key flight v)) := by
  simp only [threadStep, clientStep]
  cases c.loaded <;> rfl

/-- A caller waits until the event of the flight is set. -/
theorem threadStep_waiting (flight : ℕ) :
    threadStep hash y c (.waiting flight : Thread α V T) = match y.flights[flight]? with
      | none => none
      | some f => if f.event then some (y, .finished f.outcome) else none := by
  simp only [threadStep, clientStep]
  cases y.flights[flight]? with
  | none => rfl
  | some f => cases hev : f.event <;> simp [hev, workerStep, closeStep]

end Rules

/-- The first section of `get_or_compute`, after its read. -/
theorem threadStep_getOrCompute (hash : Key α → ℕ) (c : Choice α V) {cfg' : AcceptedConfig T} (y : Shared α V cfg')
    {key : Key α} {ttl : Ttl T} {caller : Caller α V T} {m : Fin cfg'.shardCount} (hm : shardFor cfg' hash key = m)
    {r : Option V × CacheShard α V T} (hr : (y.shards m).readValueLocked key true true y.now = r) :
    threadStep hash y c (.running (.getOrCompute key ttl) caller) =
      match r.1 with
      | some v => some (y.setShard m r.2, .finished (.value (some v)))
      | none =>
          match r.2.singleflight.get? key with
          | some flight => some (y.setShard m r.2, .waiting flight)
          | none =>
              some ({ y.setShard m { r.2 with singleflight := r.2.singleflight.set key y.flights.length } with
                flights := y.flights ++ [{}] }, .leading key ttl y.flights.length) := by
  subst hm hr
  simp only [threadStep, clientStep, CacheShard.getOrComputeLocked]
  cases hv : ((y.home hash key).readValueLocked key true true y.now).1 with
  | some v => rfl
  | none =>
      cases hf : ((y.home hash key).readValueLocked key true true y.now).2.singleflight.get? key <;> rfl

/-- **A call for a key** leaves the queue alone. -/
theorem KeyedAt.queue_eq {own : ℕ → Prop} {key : Key α} {c : Choice α V} {s s' : Shared α V cfg}
    {th th' : Thread α V T} (h : KeyedAt own key th) (hmode : cfg.writeMode = .cacheOnly) (hopen : s.Open)
    (hstep : threadStep hash s c th = some (s', th')) : s'.queue = s.queue := by
  cases h with
  | entering op hop =>
      have hclose : ∀ flush, op ≠ .close flush := by
        rintro flush rfl
        cases hop
      rw [threadStep_entering_client hash c hopen hclose] at hstep
      cases hpre : op.precheck cfg with
      | some exn =>
          rw [hpre] at hstep
          cases hstep
          rfl
      | none =>
          rw [hpre] at hstep
          cases hstep
          rfl
  | running op hop =>
      cases op with
      | get k =>
          cases hstep
          rfl
      | contains k =>
          cases hstep
          rfl
      | inspect k =>
          cases hstep
          rfl
      | put k value ttl =>
          rw [threadStep_put_cacheOnly hash c s hmode] at hstep
          cases hstep
          rfl
      | delete k =>
          rw [threadStep_delete_cacheOnly hash c s hmode] at hstep
          cases hstep
          rfl
      | getOrCompute k ttl =>
          rw [threadStep_getOrCompute hash c s rfl rfl] at hstep
          split at hstep
          · cases hstep
            rfl
          · split at hstep
            · cases hstep
              rfl
            · cases hstep
              rfl
      | _ => cases hop
  | storing value ttl flight hf =>
      rw [threadStep_entering_leader hash c hopen] at hstep
      split_ifs at hstep
      · cases hstep
        rfl
      · cases hstep
        rfl
  | stores value ttl flight hf =>
      rw [threadStep_put_cacheOnly hash c s hmode] at hstep
      cases hstep
      rfl
  | leading ttl flight hf =>
      cases hstep
      rfl
  | loading ttl flight hf =>
      rw [threadStep_loading] at hstep
      cases hl : c.loaded with
      | none =>
          rw [hl] at hstep
          cases hstep
          rfl
      | some v =>
          rw [hl] at hstep
          cases hstep
          rfl
  | publishing flight value hf =>
      cases hstep
      rfl
  | failing flight exn hf =>
      cases hstep
      rfl
  | waiting flight hf =>
      rw [threadStep_waiting] at hstep
      split at hstep
      · cases hstep
      · split_ifs at hstep
        cases hstep
        rfl
  | finished result => cases hstep

/-! ### Two caches in the same state -/

/-- The cache `x` with one shard is in the state of the shard `i` of `s`, whose flights belong to the shards
`os`. -/
structure Twin (os : List (Fin cfg.shardCount)) (i : Fin cfg.shardCount) (s : Shared α V cfg)
    (x : Shared α V (cfg.single i)) : Prop where
  now_eq : x.now = s.now
  opened : s.Open
  lifecycle_eq : x.lifecycle = s.lifecycle
  flights_length : os.length = s.flights.length
  flights_count : x.flights.length = os.countP (· = i)
  flights : ∀ n, os[n]? = some i → x.flights[rank (· = i) os n]? = s.flights[n]?
  registered : ∀ k n, (s.shards i).singleflight.get? k = some n → os[n]? = some i
  shard : ∃ d, x.shards (only cfg i) = (s.shards i).seat 0 d ∧
    ∀ k, d.get? k = ((s.shards i).singleflight.get? k).map (rank (· = i) os)

section Twin

variable {os os' : List (Fin cfg.shardCount)} {s s' : Shared α V cfg} {x x' : Shared α V (cfg.single i)}

/-- Both are open. -/
theorem Twin.opened_part (h : Twin os i s x) : x.Open := by
  unfold Shared.Open
  rw [h.lifecycle_eq]
  exact h.opened

/-- The clock and the lifecycle change in both. -/
theorem Twin.congr (h : Twin os i s x) (hnow : x'.now = s'.now) (hopen : s'.Open)
    (hlife : x'.lifecycle = s'.lifecycle) (hflights : s'.flights = s.flights) (hshards : s'.shards = s.shards)
    (hflights' : x'.flights = x.flights) (hshards' : x'.shards = x.shards) : Twin os i s' x' where
  now_eq := hnow
  opened := hopen
  lifecycle_eq := hlife
  flights_length := by rw [hflights, h.flights_length]
  flights_count := by rw [hflights', h.flights_count]
  flights n hn := by rw [hflights, hflights', h.flights n hn]
  registered k n hk := by
    rw [hshards] at hk
    exact h.registered k n hk
  shard := by
    rw [hshards, hshards']
    exact h.shard

/-- **A section on the shard** keeps the two in the same state. -/
theorem Twin.sectioned (h : Twin os i s x) {sh' : CacheShard α V T} {d' : OrderedDict (Key α) ℕ}
    (hnow : s'.now = s.now) (hlife : s'.lifecycle = s.lifecycle) (hflights : s'.flights = s.flights)
    (hshards : s'.shards = Function.update s.shards i sh') (hnow' : x'.now = x.now)
    (hlife' : x'.lifecycle = x.lifecycle) (hflights' : x'.flights = x.flights)
    (hshards' : x'.shards = Function.update x.shards (only cfg i) (sh'.seat 0 d'))
    (howned : ∀ k n, sh'.singleflight.get? k = some n → os[n]? = some i)
    (hreg : ∀ k, d'.get? k = (sh'.singleflight.get? k).map (rank (· = i) os)) : Twin os i s' x' where
  now_eq := by rw [hnow', hnow, h.now_eq]
  opened := by unfold Shared.Open; rw [hlife]; exact h.opened
  lifecycle_eq := by rw [hlife', hlife, h.lifecycle_eq]
  flights_length := by rw [hflights, h.flights_length]
  flights_count := by rw [hflights', h.flights_count]
  flights n hn := by rw [hflights, hflights', h.flights n hn]
  registered k n hk := by
    rw [hshards, Function.update_self] at hk
    exact howned k n hk
  shard := by
    refine ⟨d', ?_, fun k => ?_⟩
    · rw [hshards', hshards, Function.update_self, Function.update_self]
    · rw [hshards, Function.update_self]
      exact hreg k

/-- **A section that does not look at number and registry** answers the same in both, and keeps them in the same
state. -/
theorem Twin.commutes {β : Type} (h : Twin os i s x) (f : CacheShard α V T → β × CacheShard α V T)
    (hf : ∀ sh a d, f (sh.seat a d) = ((f sh).1, (f sh).2.seat a d)) :
    (f (x.shards (only cfg i))).1 = (f (s.shards i)).1 ∧
      Twin os i (s.setShard i (f (s.shards i)).2) (x.setShard (only cfg i) (f (x.shards (only cfg i))).2) := by
  obtain ⟨d, hd, hreg⟩ := h.shard
  have hkeep : (f (s.shards i)).2.singleflight = (s.shards i).singleflight :=
    congrArg (fun r : β × CacheShard α V T => r.2.singleflight)
      (hf (s.shards i) (s.shards i).index (s.shards i).singleflight)
  rw [hd, hf]
  refine ⟨rfl, h.sectioned rfl rfl rfl rfl rfl rfl rfl rfl (fun k n hk => ?_) fun k => ?_⟩
  · rw [hkeep] at hk
    exact h.registered k n hk
  · rw [hkeep]
    exact hreg k

/-- **A new flight** for the shard. -/
theorem Twin.lead (h : Twin os i s x) {sh' : CacheShard α V T} {d' : OrderedDict (Key α) ℕ} {key : Key α}
    (hshards : s'.shards = Function.update s.shards i
      { sh' with singleflight := (s.shards i).singleflight.set key s.flights.length })
    (hnow : s'.now = s.now) (hlife : s'.lifecycle = s.lifecycle)
    (hflights : s'.flights = s.flights ++ [({} : Flight V)])
    (hd' : ∀ k, d'.get? k = ((s.shards i).singleflight.get? k).map (rank (· = i) os))
    (hshards' : x'.shards = Function.update x.shards (only cfg i)
      (sh'.seat 0 (d'.set key x.flights.length)))
    (hnow' : x'.now = x.now) (hlife' : x'.lifecycle = x.lifecycle)
    (hflights' : x'.flights = x.flights ++ [({} : Flight V)]) : Twin (os ++ [i]) i s' x' := by
  have hfresh : x.flights.length = rank (· = i) (os ++ [i]) s.flights.length := by
    rw [← h.flights_length, rank_append le_rfl, rank_length, h.flights_count]
  have hold : ∀ n : ℕ, os[n]? = some i → rank (· = i) (os ++ [i]) n = rank (· = i) os n ∧
      (os ++ [i])[n]? = some i ∧ n < os.length := by
    intro n hn
    have hlt := (List.getElem?_eq_some_iff.mp hn).1
    refine ⟨rank_append hlt.le, ?_, hlt⟩
    rw [List.getElem?_append_left hlt, hn]
  refine ⟨by rw [hnow', hnow, h.now_eq], by unfold Shared.Open; rw [hlife]; exact h.opened,
    by rw [hlife', hlife, h.lifecycle_eq], ?_, ?_, fun n hn => ?_,
    fun k n hk => ?_, d'.set key x.flights.length, ?_, fun k => ?_⟩
  · rw [hflights, List.length_append, List.length_append, h.flights_length]
    rfl
  · rw [hflights', List.length_append, h.flights_count, List.countP_append]
    simp
  · rw [hflights, hflights']
    rcases Nat.lt_or_ge n os.length with hlt | hge
    · have hn' : os[n]? = some i := by rwa [List.getElem?_append_left hlt] at hn
      rw [(hold n hn').1, List.getElem?_append_left, List.getElem?_append_left, h.flights n hn']
      · rw [← h.flights_length]
        exact hlt
      · rw [h.flights_count]
        exact rank_lt hn' (by simp)
    · have hn' : n = os.length := by
        have hlt := (List.getElem?_eq_some_iff.mp hn).1
        rw [List.length_append, List.length_singleton] at hlt
        omega
      subst hn'
      rw [h.flights_length, ← hfresh, List.getElem?_append_right le_rfl, List.getElem?_append_right le_rfl,
        Nat.sub_self, Nat.sub_self]
  · rw [hshards, Function.update_self] at hk
    rw [OrderedDict.get?_set] at hk
    split_ifs at hk with hkey
    · rw [← Option.some.inj hk, ← h.flights_length, List.getElem?_append_right le_rfl, Nat.sub_self]
      rfl
    · exact (hold n (h.registered k n hk)).2.1
  · rw [hshards', hshards, Function.update_self, Function.update_self]
    rfl
  · rw [hshards, Function.update_self, OrderedDict.get?_set, OrderedDict.get?_set]
    split_ifs with hkey
    · rw [hfresh]
      rfl
    · rw [hd']
      cases hk : (s.shards i).singleflight.get? k with
      | none => rfl
      | some n => rw [Option.map_some, Option.map_some, (hold n (h.registered k n hk)).1]

/-- **The end of a flight** of the shard. -/
theorem Twin.land (h : Twin os i s x) (key : Key α) {flight : ℕ} (hown : os[flight]? = some i)
    (outcome : Flight V → Flight V) :
    Twin os i ((s.setShard i ((s.shards i).unregisterFlight key)).land flight outcome)
      ((x.setShard (only cfg i) ((x.shards (only cfg i)).unregisterFlight key)).land (rank (· = i) os flight)
        outcome) := by
  obtain ⟨d, hd, hreg⟩ := h.shard
  refine ⟨h.now_eq, h.opened, h.lifecycle_eq, ?_, ?_, fun n hn => ?_, fun k n hk => ?_, d.erase key, ?_,
    fun k => ?_⟩
  · show os.length = (s.flights.modify flight _).length
    rw [List.length_modify, h.flights_length]
  · show (x.flights.modify (rank (· = i) os flight) _).length = _
    rw [List.length_modify, h.flights_count]
  · show (x.flights.modify (rank (· = i) os flight) _)[rank (· = i) os n]? = (s.flights.modify flight _)[n]?
    rw [List.getElem?_modify, List.getElem?_modify, h.flights n hn]
    by_cases hn' : flight = n
    · subst hn'
      simp only [if_true]
    · have hne : rank (· = i) os flight ≠ rank (· = i) os n := fun heq =>
        hn' (rank_injective hown (by simp) hn (by simp) heq)
      simp only [hn', hne, if_false]
  · have hk' : ((s.shards i).unregisterFlight key).singleflight.get? k = some n := by
      rwa [show ((s.setShard i ((s.shards i).unregisterFlight key)).land flight outcome).shards i =
        (s.shards i).unregisterFlight key from Function.update_self ..] at hk
    rw [CacheShard.unregisterFlight, OrderedDict.get?_erase] at hk'
    split_ifs at hk'
    exact h.registered k n hk'
  · show Function.update x.shards (only cfg i) _ (only cfg i) = CacheShard.seat (Function.update s.shards i _ i) 0 _
    rw [Function.update_self, Function.update_self, hd]
    rfl
  · show _ = Option.map _ ((Function.update s.shards i _ i).singleflight.get? k)
    rw [Function.update_self, CacheShard.unregisterFlight, OrderedDict.get?_erase, OrderedDict.get?_erase]
    split_ifs
    · rfl
    · exact hreg k

/-- What a step that has to do with shard `i` leaves alone. -/
structure Elsewhere (i : Fin cfg.shardCount) (os os' : List (Fin cfg.shardCount)) (s s' : Shared α V cfg) :
    Prop where
  now_eq : s'.now = s.now
  lifecycle_eq : s'.lifecycle = s.lifecycle
  shards : ∀ j, j ≠ i → s'.shards j = s.shards j
  grows : os' = os ∨ os' = os ++ [i]
  length_eq : os.length = s.flights.length → os'.length = s'.flights.length
  flights : ∀ n : ℕ, n < os.length → os[n]? ≠ some i → s'.flights[n]? = s.flights[n]?

/-- Nothing happened. -/
theorem Elsewhere.refl (i : Fin cfg.shardCount) (os : List (Fin cfg.shardCount)) (s : Shared α V cfg) :
    Elsewhere i os os s s :=
  ⟨rfl, rfl, fun _ _ => rfl, .inl rfl, id, fun _ _ _ => rfl⟩

/-- A section on the shard. -/
theorem Elsewhere.sectioned (os : List (Fin cfg.shardCount)) {sh' : CacheShard α V T} (hnow : s'.now = s.now)
    (hlife : s'.lifecycle = s.lifecycle) (hflights : s'.flights = s.flights)
    (hshards : s'.shards = Function.update s.shards i sh') : Elsewhere i os os s s' :=
  ⟨hnow, hlife, fun j hj => by rw [hshards, Function.update_of_ne hj], .inl rfl, fun h => by rw [h, hflights],
    fun n _ _ => by rw [hflights]⟩

/-- **The other shards** do not notice. -/
theorem Twin.aside {j : Fin cfg.shardCount} {x : Shared α V (cfg.single j)} (h : Twin os j s x) (hij : j ≠ i)
    (ha : Elsewhere i os os' s s') : Twin os' j s' x := by
  have hlook : ∀ n : ℕ, os'[n]? = some j → os[n]? = some j ∧ n < os.length := by
    intro n hn
    rcases ha.grows with rfl | rfl
    · exact ⟨hn, (List.getElem?_eq_some_iff.mp hn).1⟩
    · rcases Nat.lt_or_ge n os.length with hlt | hge
      · rw [List.getElem?_append_left hlt] at hn
        exact ⟨hn, hlt⟩
      · rw [List.getElem?_append_right hge] at hn
        exact absurd (List.mem_singleton.mp (List.mem_of_getElem? hn)) hij
  have hback : ∀ n : ℕ, os[n]? = some j → os'[n]? = some j ∧ rank (· = j) os' n = rank (· = j) os n := by
    intro n hn
    have hlt := (List.getElem?_eq_some_iff.mp hn).1
    rcases ha.grows with rfl | rfl
    · exact ⟨hn, rfl⟩
    · exact ⟨by rw [List.getElem?_append_left hlt, hn], rank_append hlt.le⟩
  obtain ⟨d, hd, hreg⟩ := h.shard
  refine ⟨by rw [ha.now_eq, h.now_eq], by unfold Shared.Open; rw [ha.lifecycle_eq]; exact h.opened,
    by rw [ha.lifecycle_eq, h.lifecycle_eq], ha.length_eq h.flights_length, ?_,
    fun n hn => ?_, fun k n hk => ?_, d, by rw [ha.shards j hij, hd], fun k => ?_⟩
  · rw [h.flights_count]
    rcases ha.grows with rfl | rfl
    · rfl
    · rw [List.countP_append]
      simp [Ne.symm hij]
  · obtain ⟨hn', hlt⟩ := hlook n hn
    rw [(hback n hn').2, h.flights n hn', ha.flights n hlt]
    rw [hn']
    exact fun heq => hij (Option.some.inj heq)
  · rw [ha.shards j hij] at hk
    exact (hback n (h.registered k n hk)).1
  · rw [ha.shards j hij, hreg]
    cases hk : (s.shards j).singleflight.get? k with
    | none => rfl
    | some n => rw [Option.map_some, Option.map_some, (hback n (h.registered k n hk)).2]

/-! ### A call for a key in both caches -/

/-- A step of a call for a key of shard `i`, and the step of the cache with this shard only that answers it. -/
structure Answered (hash : Key α → ℕ) (c : Choice α V) (key : Key α) (os os' : List (Fin cfg.shardCount))
    (s s' : Shared α V cfg) (x x' : Shared α V (cfg.single i)) (th th' : Thread α V T) : Prop where
  step : threadStep hash x c (th.rename (rank (· = i) os)) = some (x', th'.rename (rank (· = i) os'))
  twin : Twin os' i s' x'
  keyed : KeyedAt (fun n => os'[n]? = some i) key th'
  aside : Elsewhere i os os' s s'

variable {c : Choice α V} {key : Key α} {th th' : Thread α V T}

/-- A step that looks at no shard. -/
theorem Twin.still (h : Twin os i s x) (hkeyed : KeyedAt (fun n => os[n]? = some i) key th')
    (hx : threadStep hash x c (th.rename (rank (· = i) os)) = some (x, th'.rename (rank (· = i) os))) :
    ∃ os' x', Answered hash c key os os' s s x x' th th' :=
  ⟨os, x, hx, h, hkeyed, .refl i os s⟩

/-- A section that gives the result of the call. -/
theorem Twin.result {β : Type} (h : Twin os i s x) (f : CacheShard α V T → β × CacheShard α V T)
    (hf : ∀ sh a d, f (sh.seat a d) = ((f sh).1, (f sh).2.seat a d)) (out : β → Result α V T)
    (hx : threadStep hash x c (th.rename (rank (· = i) os)) =
      some (x.setShard (only cfg i) (f (x.shards (only cfg i))).2, .finished (out (f (x.shards (only cfg i))).1))) :
    ∃ os' x', Answered hash c key os os' s (s.setShard i (f (s.shards i)).2) x x' th
      (.finished (out (f (s.shards i)).1)) := by
  obtain ⟨hsame, htwin⟩ := h.commutes f hf
  rw [hsame] at hx
  exact ⟨os, _, hx, htwin, .finished _, .sectioned os rfl rfl rfl rfl⟩

/-- The first point of a call. -/
theorem Twin.entering (h : Twin os i s x) {op : Op α V T} (hop : op.key? = some key)
    (hstep : threadStep hash s c (.entering op (.client .done)) = some (s', th')) :
    ∃ os' x', Answered hash c key os os' s s' x x' (.entering op (.client .done)) th' := by
  have hclose : ∀ flush, op ≠ .close flush := by
    rintro flush rfl
    cases hop
  rw [threadStep_entering_client hash c h.opened hclose] at hstep
  have hx := threadStep_entering_client hash c h.opened_part hclose
  rw [precheck_single] at hx
  cases hpre : op.precheck cfg with
  | some exn =>
      rw [hpre] at hstep hx
      cases hstep
      exact h.still (.finished _) hx
  | none =>
      rw [hpre] at hstep hx
      cases hstep
      exact h.still (.running op hop) hx

/-- The section of a put. -/
theorem Twin.putSection (h : Twin os i s x) (hmode : cfg.writeMode = .cacheOnly)
    (hkey : shardFor cfg hash key = i) (value : V) (ttl : Ttl T) (ok : Bool) :
    Twin os i (s.putSection hash key value ttl ok).1 (x.putSection hash key value ttl ok).1 ∧
      Elsewhere i os os s (s.putSection hash key value ttl ok).1 := by
  obtain ⟨d, hd, hreg⟩ := h.shard
  have hseat : ∀ (sh : CacheShard α V T) (a : ℕ) (d : OrderedDict (Key α) ℕ) (src src' : Source α V),
      ((sh.seat a d).putLocked (cfg.single i).toCacheConfig src' key value ttl s.now ok).shard =
        (sh.putLocked cfg.toCacheConfig src key value ttl s.now ok).shard.seat a d := fun sh a d src src' =>
    CacheShard.putLocked_seat sh a d key s.now hmode src src' value ttl ok ok
  have hkeep : ((s.shards i).putLocked cfg.toCacheConfig s.source key value ttl s.now ok).shard.singleflight =
      (s.shards i).singleflight := by
    have hself := CacheShard.putLocked_seat (s.shards i) (s.shards i).index (s.shards i).singleflight key s.now
      hmode s.source s.source value ttl ok ok
    have hregistry := congrArg CacheShard.singleflight hself
    exact hregistry
  have hshards : (s.putSection hash key value ttl ok).1.shards = Function.update s.shards i
      ((s.shards i).putLocked cfg.toCacheConfig s.source key value ttl s.now ok).shard := by
    rw [← hkey]
    rfl
  have hshards' : (x.putSection hash key value ttl ok).1.shards = Function.update x.shards (only cfg i)
      (((s.shards i).putLocked cfg.toCacheConfig s.source key value ttl s.now ok).shard.seat 0 d) := by
    rw [← hseat _ _ _ s.source x.source, ← hd, ← h.now_eq, ← shardFor_single i hash key]
    rfl
  refine ⟨h.sectioned rfl rfl rfl hshards rfl rfl rfl hshards' (fun k n hk => ?_) fun k => ?_,
    .sectioned os rfl rfl rfl hshards⟩
  · rw [hkeep] at hk
    exact h.registered k n hk
  · rw [hkeep]
    exact hreg k

/-- The section of a delete. -/
theorem Twin.deleteSection (h : Twin os i s x) (hmode : cfg.writeMode = .cacheOnly)
    (hkey : shardFor cfg hash key = i) (ok : Bool) :
    Twin os i (s.deleteSection hash key ok).1 (x.deleteSection hash key ok).1 ∧
      Elsewhere i os os s (s.deleteSection hash key ok).1 := by
  obtain ⟨d, hd, hreg⟩ := h.shard
  have hseat : ∀ (sh : CacheShard α V T) (a : ℕ) (d : OrderedDict (Key α) ℕ) (src src' : Source α V),
      ((sh.seat a d).deleteLocked (cfg.single i).toCacheConfig src' key ok).shard =
        (sh.deleteLocked cfg.toCacheConfig src key ok).shard.seat a (d.erase key) := fun sh a d src src' =>
    CacheShard.deleteLocked_seat sh a d key hmode src src' ok ok
  have herase : ((s.shards i).deleteLocked cfg.toCacheConfig s.source key ok).shard.singleflight =
      (s.shards i).singleflight.erase key := by
    have hself := CacheShard.deleteLocked_seat (s.shards i) (s.shards i).index (s.shards i).singleflight key
      hmode s.source s.source ok ok
    have hregistry := congrArg CacheShard.singleflight hself
    exact hregistry
  have hshards : (s.deleteSection hash key ok).1.shards = Function.update s.shards i
      ((s.shards i).deleteLocked cfg.toCacheConfig s.source key ok).shard := by
    rw [← hkey]
    rfl
  have hshards' : (x.deleteSection hash key ok).1.shards = Function.update x.shards (only cfg i)
      (((s.shards i).deleteLocked cfg.toCacheConfig s.source key ok).shard.seat 0 (d.erase key)) := by
    rw [← hseat _ _ _ s.source x.source, ← hd, ← shardFor_single i hash key]
    rfl
  refine ⟨h.sectioned rfl rfl rfl hshards rfl rfl rfl hshards' (fun k n hk => ?_) fun k => ?_,
    .sectioned os rfl rfl rfl hshards⟩
  · rw [herase, OrderedDict.get?_erase] at hk
    split_ifs at hk
    exact h.registered k n hk
  · rw [herase, OrderedDict.get?_erase, OrderedDict.get?_erase]
    split_ifs
    · rfl
    · exact hreg k

/-- The first section of `get_or_compute`: the value is there, a flight is joined, or one is started. -/
theorem Twin.getOrCompute (h : Twin os i s x) (hkey : shardFor cfg hash key = i) {ttl : Ttl T}
    (hstep : threadStep hash s c (.running (.getOrCompute key ttl) (.client .done)) = some (s', th')) :
    ∃ os' x', Answered hash c key os os' s s' x x' (.running (.getOrCompute key ttl) (.client .done)) th' := by
  obtain ⟨d, hd, hreg⟩ := h.shard
  have hread : ∀ sh a d, CacheShard.readValueLocked (CacheShard.seat sh a d) key true true s.now =
      ((CacheShard.readValueLocked (V := V) sh key true true s.now).1,
        (CacheShard.readValueLocked sh key true true s.now).2.seat a d) :=
    fun sh a d => CacheShard.readValueLocked_seat sh a d key s.now true true
  obtain ⟨-, htwin⟩ := h.commutes (fun sh => sh.readValueLocked key true true s.now) hread
  have hkeep : ((s.shards i).readValueLocked key true true s.now).2.singleflight = (s.shards i).singleflight := by
    have hself := congrArg (fun r : Option V × CacheShard α V T => r.2.singleflight)
      (hread (s.shards i) (s.shards i).index (s.shards i).singleflight)
    exact hself
  have hrx : (x.shards (only cfg i)).readValueLocked key true true x.now =
      (((s.shards i).readValueLocked key true true s.now).1,
        ((s.shards i).readValueLocked key true true s.now).2.seat 0 d) := by
    rw [h.now_eq, hd, hread]
  have hx : threadStep hash x c (.running (.getOrCompute key ttl) (.client .done)) = _ :=
    threadStep_getOrCompute hash c x (shardFor_single i hash key) hrx
  rw [threadStep_getOrCompute hash c s hkey rfl] at hstep
  simp only at hstep hx
  rw [show (x.shards (only cfg i)).readValueLocked key true true s.now = _ from h.now_eq ▸ hrx] at htwin
  cases hv : ((s.shards i).readValueLocked key true true s.now).1 with
  | some v =>
      rw [hv] at hstep hx
      cases hstep
      exact ⟨os, _, hx, htwin, .finished _, .sectioned os rfl rfl rfl rfl⟩
  | none =>
      rw [hv] at hstep hx
      simp only [CacheShard.seat_singleflight] at hstep hx
      rw [hkeep] at hstep
      rw [hreg] at hx
      cases hf : (s.shards i).singleflight.get? key with
      | some flight =>
          rw [hf] at hstep hx
          cases hstep
          exact ⟨os, _, hx, htwin, .waiting flight (h.registered key flight hf), .sectioned os rfl rfl rfl rfl⟩
      | none =>
          rw [hf] at hstep hx
          cases hstep
          have hfresh : x.flights.length = rank (· = i) (os ++ [i]) s.flights.length := by
            rw [← h.flights_length, rank_append le_rfl, rank_length, h.flights_count]
          have hown : (os ++ [i])[s.flights.length]? = some i := by
            rw [← h.flights_length, List.getElem?_append_right le_rfl, Nat.sub_self]
            rfl
          refine ⟨os ++ [i], { x.setShard (only cfg i)
            (((s.shards i).readValueLocked key true true s.now).2.seat 0 (d.set key x.flights.length)) with
              flights := x.flights ++ [{}] }, ?_, ?_, .leading ttl _ hown, ?_⟩
          · show _ = some (_, Thread.leading key ttl (rank (· = i) (os ++ [i]) s.flights.length))
            rw [← hfresh]
            exact hx
          · exact h.lead rfl rfl rfl rfl hreg rfl rfl rfl rfl
          · refine ⟨rfl, rfl, fun j hj => Function.update_of_ne hj _ _, .inr rfl, fun hlen => ?_, fun n hn _ => ?_⟩
            · show (os ++ [i]).length = (s.flights ++ [_]).length
              rw [List.length_append, List.length_append, hlen]
              rfl
            · exact List.getElem?_append_left (h.flights_length ▸ hn)

/-- A put, of a client or of the leader of a flight. -/
theorem Twin.put (h : Twin os i s x) (hmode : cfg.writeMode = .cacheOnly) (hkey : shardFor cfg hash key = i)
    {value : V} {ttl : Ttl T} {caller : Caller α V T}
    (hcaller : caller = .client .done ∨ ∃ flight, caller = .leader key flight value ∧ os[flight]? = some i)
    (hstep : threadStep hash s c (.running (.put key value ttl) caller) = some (s', th')) :
    ∃ os' x', Answered hash c key os os' s s' x x' (.running (.put key value ttl) caller) th' := by
  have hmode' : (cfg.single i).writeMode = .cacheOnly := hmode
  have hx := threadStep_put_cacheOnly hash c x hmode' key value ttl (caller.rename (rank (· = i) os))
  obtain ⟨htwin, haside⟩ := h.putSection hmode hkey value ttl (c.ok key)
  rw [threadStep_put_cacheOnly hash c s hmode] at hstep
  obtain ⟨rfl, rfl⟩ := Prod.mk.inj (Option.some.inj hstep)
  rcases hcaller with rfl | ⟨flight, rfl, hf⟩
  · exact ⟨os, _, hx, htwin, .finished _, haside⟩
  · exact ⟨os, _, hx, htwin, .publishing flight value hf, haside⟩

/-- A delete. -/
theorem Twin.delete (h : Twin os i s x) (hmode : cfg.writeMode = .cacheOnly) (hkey : shardFor cfg hash key = i)
    {caller : Caller α V T}
    (hstep : threadStep hash s c (.running (.delete key) caller) = some (s', th')) :
    ∃ os' x', Answered hash c key os os' s s' x x' (.running (.delete key) caller) th' := by
  have hmode' : (cfg.single i).writeMode = .cacheOnly := hmode
  have hx := threadStep_delete_cacheOnly hash c x hmode' key (caller.rename (rank (· = i) os))
  obtain ⟨htwin, haside⟩ := h.deleteSection hmode hkey (c.ok key)
  rw [threadStep_delete_cacheOnly hash c s hmode] at hstep
  obtain ⟨rfl, rfl⟩ := Prod.mk.inj (Option.some.inj hstep)
  obtain ⟨d, hd, -⟩ := h.shard
  have hfound : (x.home hash key).backend = (s.home hash key).backend := by
    rw [Shared.home, shardFor_single, hd, Shared.home, hkey]
    rfl
  rw [hfound] at hx
  exact ⟨os, _, hx, htwin, .finished _, haside⟩

/-- The end of a flight leaves the other shards and their flights alone. -/
theorem aside_land (s : Shared α V cfg) {flight : ℕ} (hf : os[flight]? = some i) (sh' : CacheShard α V T)
    (outcome : Flight V → Flight V) : Elsewhere i os os s ((s.setShard i sh').land flight outcome) := by
  refine ⟨rfl, rfl, fun j hj => Function.update_of_ne hj _ _, .inl rfl, fun hlen => ?_, fun n _ hn => ?_⟩
  · show os.length = (s.flights.modify flight _).length
    rw [List.length_modify, hlen]
  · show (s.flights.modify flight _)[n]? = s.flights[n]?
    have hne : flight ≠ n := fun heq => hn (heq ▸ hf)
    rw [List.getElem?_modify]
    simp only [hne, if_false]
    exact Option.map_id'

/-- The section of a call for a key. -/
theorem Twin.running (h : Twin os i s x) (hmode : cfg.writeMode = .cacheOnly) (hkey : shardFor cfg hash key = i)
    {op : Op α V T} (hop : op.key? = some key)
    (hstep : threadStep hash s c (.running op (.client .done)) = some (s', th')) :
    ∃ os' x', Answered hash c key os os' s s' x x' (.running op (.client .done)) th' := by
  cases op with
  | get k =>
      obtain rfl : k = key := Option.some.inj hop
      cases hstep
      rw [hkey]
      refine h.result (fun sh => sh.readValueLocked k true true s.now)
        (fun sh a d => CacheShard.readValueLocked_seat sh a d k s.now true true) .value ?_
      rw [← h.now_eq, ← shardFor_single i hash k]
      rfl
  | contains k =>
      obtain rfl : k = key := Option.some.inj hop
      cases hstep
      rw [hkey]
      refine h.result (fun sh => sh.readValueLocked k false true s.now)
        (fun sh a d => CacheShard.readValueLocked_seat sh a d k s.now false true) (fun v => .flag v.isSome) ?_
      rw [← h.now_eq, ← shardFor_single i hash k]
      rfl
  | inspect k =>
      obtain rfl : k = key := Option.some.inj hop
      cases hstep
      rw [hkey]
      refine h.result (fun sh => sh.inspectLocked k s.now)
        (fun sh a d => CacheShard.inspectLocked_seat sh a d k s.now) .snapshot ?_
      rw [← h.now_eq, ← shardFor_single i hash k]
      rfl
  | put k value ttl =>
      obtain rfl : k = key := Option.some.inj hop
      exact h.put hmode hkey (.inl rfl) hstep
  | delete k =>
      obtain rfl : k = key := Option.some.inj hop
      exact h.delete hmode hkey hstep
  | getOrCompute k ttl =>
      obtain rfl : k = key := Option.some.inj hop
      exact h.getOrCompute hkey hstep
  | _ => cases hop

/-- **A step of a call for a key** of the shard is the same step in the cache with this shard only. -/
theorem Twin.keyed_step (h : Twin os i s x) (hmode : cfg.writeMode = .cacheOnly) (hkey : shardFor cfg hash key = i)
    (hth : KeyedAt (fun n => os[n]? = some i) key th) (hstep : threadStep hash s c th = some (s', th')) :
    ∃ os' x', Answered hash c key os os' s s' x x' th th' := by
  cases hth with
  | entering op hop => exact h.entering hop hstep
  | running op hop => exact h.running hmode hkey hop hstep
  | storing value ttl flight hf =>
      rw [threadStep_entering_leader hash c h.opened] at hstep
      have hx := threadStep_entering_leader hash c h.opened_part key value ttl (rank (· = i) os flight)
      split_ifs at hstep hx <;> cases hstep
      · exact h.still (.stores value ttl flight hf) hx
      · exact h.still (.failing flight _ hf) hx
  | stores value ttl flight hf => exact h.put hmode hkey (.inr ⟨flight, rfl, hf⟩) hstep
  | leading ttl flight hf =>
      cases hstep
      exact h.still (.loading ttl flight hf) rfl
  | loading ttl flight hf =>
      rw [threadStep_loading] at hstep
      have hx := threadStep_loading hash c x key ttl (rank (· = i) os flight)
      cases hl : c.loaded with
      | none =>
          rw [hl] at hstep hx
          cases hstep
          exact h.still (.failing flight _ hf) hx
      | some v =>
          rw [hl] at hstep hx
          cases hstep
          exact h.still (.storing v ttl flight hf) hx
  | publishing flight value hf =>
      cases hstep
      rw [hkey]
      refine ⟨os, _, ?_, h.land key hf _, .finished _, ?_⟩
      · rw [← shardFor_single i hash key]
        rfl
      · exact aside_land s hf _ _
  | failing flight exn hf =>
      cases hstep
      rw [hkey]
      refine ⟨os, _, ?_, h.land key hf _, .finished _, ?_⟩
      · rw [← shardFor_single i hash key]
        rfl
      · exact aside_land s hf _ _
  | waiting flight hf =>
      rw [threadStep_waiting, ← h.flights flight hf] at hstep
      have hx := threadStep_waiting hash c x (rank (· = i) os flight)
      cases hfl : x.flights[rank (· = i) os flight]? with
      | none =>
          rw [hfl] at hstep
          cases hstep
      | some f =>
          rw [hfl] at hstep hx
          simp only at hstep hx
          split_ifs at hstep hx
          cases hstep
          exact h.still (.finished _) hx
  | finished result => cases hstep

end Twin

end CacheLab
