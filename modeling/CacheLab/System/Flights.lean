import CacheLab.System.Trace
import CacheLab.Core.Registry

/-!
# Single flights

A `get_or_compute` that misses leads a flight or joins the one that is registered under its key. This
module says once what a step does to the registry, to the flights and to their leaders (`Flown`), and
derives the invariant of the flights (`FlightsOk`):

* each flight has at most one leader, and a flight with a leader has not been completed;
* every registered flight has a leader, and it is registered in the shard of its key;
* a flight without a leader has been completed, so nobody waits for a flight that nobody leads.
-/

set_option linter.unusedSectionVars false

namespace CacheLab

variable {α V T : Type} [DecidableEq α] [LinearOrder T] [Zero T] [Add T] [Sub T]

variable {cfg : AcceptedConfig T} {hash : Key α → ℕ}

/-! ### Leaders -/

/-- A flight that was just registered. -/
abbrev Flight.new : Flight V := {}

/-- A flight whose leader published a result. -/
def Flight.ofResult (v : V) : Flight V := { event := true, result := some v }

/-- A flight whose leader published an exception. -/
def Flight.ofException (exn : Exn) : Flight V := { event := true, exception := some exn }

/-- The flight that a put belongs to. -/
def Caller.flight : Caller α V T → Option (Key α × ℕ)
  | leader key flight _ => some (key, flight)
  | _ => none

/-- Who waits for the put that the thread is in. -/
def Thread.caller : Thread α V T → Option (Caller α V T)
  | .entering _ caller => some caller
  | .running _ caller => some caller
  | .enqueuing _ caller => some caller
  | .releasing _ caller => some caller
  | _ => none

/-- The flight that the thread leads, with its key. -/
def Thread.flight : Thread α V T → Option (Key α × ℕ)
  | .leading key _ flight => some (key, flight)
  | .loading key _ flight => some (key, flight)
  | .publishing key flight _ => some (key, flight)
  | .failing key flight _ => some (key, flight)
  | th => th.caller.bind Caller.flight

/-- The flight that the thread waits for. -/
def Thread.awaits : Thread α V T → Option ℕ
  | .waiting flight => some flight
  | _ => none

/-- The leader of a flight calls nothing but the put of what it loaded. -/
def Thread.Shaped : Thread α V T → Prop
  | .entering op caller => ∀ k f v, caller = .leader k f v → ∃ ttl, op = .put k v ttl
  | .running op caller => ∀ k f v, caller = .leader k f v → ∃ ttl, op = .put k v ttl
  | _ => True

/-- A step changes the registry of at most one shard, by `g`. -/
def Refiles (s s' : Shared α V cfg) (j : Fin cfg.shardCount)
    (g : OrderedDict (Key α) ℕ → OrderedDict (Key α) ℕ) : Prop :=
  ∀ i, (s'.shards i).singleflight =
    if i = j then g (s.shards i).singleflight else (s.shards i).singleflight

/-- No registry and no flight changes. -/
structure Grounded (s s' : Shared α V cfg) : Prop where
  registry : ∀ i, (s'.shards i).singleflight = (s.shards i).singleflight
  flights : s'.flights = s.flights

/-- What a step of a thread does to registry, flights and leaders. -/
inductive Flown (hash : Key α → ℕ) (s : Shared α V cfg) :
    Thread α V T → Shared α V cfg → Thread α V T → Prop
  /-- A step outside the flights. -/
  | aside {th th' : Thread α V T} {s' : Shared α V cfg} (hth : th.flight = none)
      (hth' : th'.flight = none) (hw : th.awaits = none) (hw' : th'.awaits = none)
      (herase : ∀ k, th.erases cfg hash k = true → th'.isRaised = true) (hs : Grounded s s') :
      Flown hash s th s' th'
  /-- A delete goes through. -/
  | deletes (k : Key α) {caller : Caller α V T} {th' : Thread α V T} {s' : Shared α V cfg}
      (hth : caller.flight = none) (hth' : th'.flight = none) (hw' : th'.awaits = none)
      (hok : th'.isRaised = false) (hreg : Refiles s s' (shardFor cfg hash k) (·.erase k))
      (hfl : s'.flights = s.flights) : Flown hash s (.running (.delete k) caller) s' th'
  /-- A clear goes through on one shard. -/
  | clears (i : Fin cfg.shardCount) {ts : List (Ticket α V)} {th' : Thread α V T}
      {s' : Shared α V cfg} (hth' : th'.flight = none) (hw' : th'.awaits = none)
      (hok : th'.isRaised = false) (hreg : Refiles s s' i fun _ => .empty)
      (hfl : s'.flights = s.flights) : Flown hash s (.clearing i ts) s' th'
  /-- A `get_or_compute` registers a flight. -/
  | leads (k : Key α) (ttl : Ttl T) {caller : Caller α V T} {s' : Shared α V cfg}
      (hth : caller.flight = none)
      (hnone : (s.home hash k).singleflight.get? k = none)
      (hreg : Refiles s s' (shardFor cfg hash k) (·.set k s.flights.length))
      (hfl : s'.flights = s.flights ++ [Flight.new]) :
      Flown hash s (.running (.getOrCompute k ttl) caller) s' (.leading k ttl s.flights.length)
  /-- A `get_or_compute` joins the registered flight. -/
  | joins (k : Key α) (ttl : Ttl T) (f : ℕ) {caller : Caller α V T} {s' : Shared α V cfg}
      (hth : caller.flight = none) (hsome : (s.home hash k).singleflight.get? k = some f)
      (hs : Grounded s s') : Flown hash s (.running (.getOrCompute k ttl) caller) s' (.waiting f)
  /-- The leader calls its loader. -/
  | starts (k : Key α) (ttl : Ttl T) (f : ℕ) : Flown hash s (.leading k ttl f) s (.loading k ttl f)
  /-- The loader returns. -/
  | loads (k : Key α) (ttl : Ttl T) (f : ℕ) (v : V) :
      Flown hash s (.loading k ttl f) s (.entering (.put k v ttl) (.leader k f v))
  /-- The loader raises. -/
  | loadRaises (k : Key α) (ttl : Ttl T) (f n : ℕ) :
      Flown hash s (.loading k ttl f) s (.failing k f (.loaderFailure n))
  /-- The put of a leader goes on. -/
  | putting (k : Key α) (f : ℕ) (v : V) {th th' : Thread α V T} {s' : Shared α V cfg}
      (hth : th.caller = some (Caller.leader k f v)) (hth' : th'.caller = some (Caller.leader k f v))
      (hsh : th'.Shaped) (hs : Grounded s s') : Flown hash s th s' th'
  /-- The put of a leader returns, or raises backpressure. -/
  | putReturns (k : Key α) (f : ℕ) (v : V) {th : Thread α V T} {s' : Shared α V cfg}
      (hth : th.caller = some (Caller.leader k f v)) (hs : Grounded s s') :
      Flown hash s th s' (.publishing k f v)
  /-- The put of a leader raises something else. -/
  | putRaises (k : Key α) (f : ℕ) (v : V) (exn : Exn) {th : Thread α V T} {s' : Shared α V cfg}
      (hth : th.caller = some (Caller.leader k f v)) (hexn : exn ≠ .queueBackpressure)
      (hs : Grounded s s') : Flown hash s th s' (.failing k f exn)
  /-- The leader publishes its result. -/
  | publishes (k : Key α) (f : ℕ) (v : V) {s' : Shared α V cfg}
      (hreg : Refiles s s' (shardFor cfg hash k) (·.erase k))
      (hfl : s'.flights = s.flights.modify f fun x => { x with result := some v, event := true }) :
      Flown hash s (.publishing k f v) s' (.finished (.value (some v)))
  /-- The leader publishes its exception. -/
  | fails (k : Key α) (f : ℕ) (exn : Exn) {s' : Shared α V cfg}
      (hreg : Refiles s s' (shardFor cfg hash k) (·.erase k))
      (hfl : s'.flights = s.flights.modify f fun x => { x with exception := some exn, event := true }) :
      Flown hash s (.failing k f exn) s' (.finished (.raised exn))
  /-- A waiter goes on. -/
  | wakes (f : ℕ) (x : Flight V) (hx : s.flights[f]? = some x) (he : x.event = true) :
      Flown hash s (.waiting f) s (.finished x.outcome)

/-! ### The inversion -/

section Inversion

variable {s s' : Shared α V cfg} {c : Choice α V} {th th' : Thread α V T} {caller : Caller α V T}

/-- Nothing happened. -/
theorem Grounded.refl (s : Shared α V cfg) : Grounded s s := ⟨fun _ => rfl, rfl⟩

/-- A section that leaves the registry of its shard alone. -/
theorem Grounded.setShard (s : Shared α V cfg) {i : Fin cfg.shardCount} {sh : CacheShard α V T}
    (h : sh.singleflight = (s.shards i).singleflight) : Grounded s (s.setShard i sh) := by
  refine ⟨fun j => ?_, rfl⟩
  by_cases hj : j = i
  · subst hj
    simpa only [Shared.setShard, Function.update_self] using h
  · simp only [Shared.setShard, Function.update_of_ne hj]

/-- See `Grounded.setShard`. -/
theorem Grounded.onShard {i : ℕ} {f : CacheShard α V T → CacheShard α V T}
    (hf : ∀ sh, (f sh).singleflight = sh.singleflight) (h : s.onShard i f = some s') :
    Grounded s s' := by
  obtain ⟨hi, rfl⟩ := Shared.onShard_eq_some.mp h
  exact .setShard s (hf _)

/-- Counting changes no flight. -/
theorem Grounded.count (h : Grounded s s') (f : RuntimeStats → RuntimeStats) :
    Grounded s (s'.count f) := ⟨h.registry, h.flights⟩

/-- See `Grounded.count`. -/
theorem Grounded.callerCount (h : Grounded s s') (caller : Caller α V T) (b : Bool) :
    Grounded s (caller.count s' b) := by
  cases caller <;> exact ⟨h.registry, h.flights⟩

/-- A section that changes the registry of its shard. -/
theorem refiles_update {i : Fin cfg.shardCount} {sh : CacheShard α V T}
    {g : OrderedDict (Key α) ℕ → OrderedDict (Key α) ℕ}
    (hs : s'.shards = Function.update s.shards i sh) (h : sh.singleflight = g (s.shards i).singleflight) :
    Refiles s s' i g := by
  intro j
  rw [hs]
  split_ifs with hj
  · rw [hj, Function.update_self, h]
  · rw [Function.update_of_ne hj]

/-- A caller that is no leader has no flight. -/
theorem Caller.flight_eq_none (h : ∀ k f v, caller ≠ .leader k f v) : caller.flight = none := by
  cases caller with
  | client result => rfl
  | preloader => rfl
  | leader k f v => exact absurd rfl (h k f v)

/-- A put raises. -/
theorem Flown.of_raised (hc : th.caller = some caller) (hf : th.flight = caller.flight)
    (hw : th.awaits = none) (he : ∀ k, th.erases cfg hash k = false) (hs : Grounded s s') (exn : Exn) :
    Flown hash s th s' (caller.raised exn) := by
  have hno : ∀ k, th.erases cfg hash k = true → (caller.raised exn).isRaised = true := by
    intro k hk
    rw [he k] at hk
    cases hk
  cases caller with
  | client result => exact .aside hf rfl hw rfl hno hs
  | preloader => exact .aside hf rfl hw rfl hno hs
  | leader k f v =>
      by_cases hexn : exn = .queueBackpressure
      · subst hexn
        exact .putReturns k f v hc hs
      · have hraised : (Caller.leader k f v : Caller α V T).raised exn = .failing k f exn := by
          cases exn <;> first | rfl | exact absurd rfl hexn
        rw [hraised]
        exact .putRaises k f v exn hc hexn hs

/-- A put enqueues its jobs, or returns. -/
theorem Flown.of_enqueueOr {s₁ : Shared α V cfg} {ts : List (Ticket α V)}
    (hc : th.caller = some caller) (hf : th.flight = caller.flight) (hw : th.awaits = none)
    (he : ∀ k, th.erases cfg hash k = false) (hs : Grounded s s₁)
    (h : enqueueOr s₁ ts caller = (s', th')) : Flown hash s th s' th' := by
  have hno : ∀ {th' : Thread α V T} k, th.erases cfg hash k = true → th'.isRaised = true := by
    intro th' k hk
    rw [he k] at hk
    cases hk
  cases ts with
  | nil =>
      cases h
      cases caller with
      | client result => exact .aside hf rfl hw rfl hno hs
      | preloader => exact .aside hf rfl hw rfl hno (hs.callerCount .preloader true)
      | leader k f v => exact .putReturns k f v hc hs
  | cons t ts =>
      cases h
      cases caller with
      | client result => exact .aside hf rfl hw rfl hno hs
      | preloader => exact .aside hf rfl hw rfl hno hs
      | leader k f v => exact .putting k f v hc rfl trivial hs

/-- A client call that enqueues its jobs, or returns. -/
theorem enqueueOr_client {s₁ : Shared α V cfg} {ts : List (Ticket α V)} {result : Result α V T}
    (hr : ∀ exn, result ≠ .raised exn) (h : enqueueOr s₁ ts (.client result) = (s', th')) :
    s' = s₁ ∧ th'.flight = none ∧ th'.awaits = none ∧ th'.isRaised = false := by
  cases ts with
  | nil =>
      cases h
      refine ⟨rfl, rfl, rfl, ?_⟩
      cases result <;> first | rfl | exact absurd rfl (hr _)
  | cons t ts =>
      cases h
      exact ⟨rfl, rfl, rfl, rfl⟩

/-- What a public operation does to the flights. -/
theorem clientStep_flown (h : clientStep hash s c th = some (s', th')) (hsh : th.Shaped) :
    Flown hash s th s' th' := by
  have hno : ∀ {th' : Thread α V T} (k : Key α), false = true → th'.isRaised = true :=
    fun _ h => by cases h
  cases th with
  | entering op caller =>
      have hother : (∀ k v ttl, op ≠ .put k v ttl) → caller.flight = none := fun hop =>
        Caller.flight_eq_none fun k f v e => (hsh k f v e).elim fun ttl he => hop k v ttl he
      rcases entering_cases h with ⟨rfl, ⟨exn, rfl⟩, -⟩ | ⟨rfl, rfl, -⟩ | ⟨rfl, rfl, flush, rfl⟩ |
        ⟨rfl, -, -, flush, rfl, hth'⟩
      · exact .of_raised rfl rfl rfl (fun _ => rfl) ((Grounded.refl s).callerCount caller false) exn
      · cases caller with
        | leader k f v => exact .putting k f v rfl rfl hsh (.refl s')
        | client result => exact .aside rfl rfl rfl rfl hno (.refl s')
        | preloader => exact .aside rfl rfl rfl rfl hno (.refl s')
      · exact .aside (hother (by simp)) rfl rfl rfl hno (.refl s')
      · refine .aside (hother (by simp)) ?_ rfl ?_ hno ⟨fun _ => rfl, rfl⟩ <;>
          rw [hth'] <;> split_ifs <;> rfl
  | running op caller =>
      have hother : (∀ k v ttl, op ≠ .put k v ttl) → caller.flight = none := fun hop =>
        Caller.flight_eq_none fun k f v e => (hsh k f v e).elim fun ttl he => hop k v ttl he
      cases op with
      | get key =>
          cases h
          exact .aside (hother (by simp)) rfl rfl rfl hno (.setShard s (by simp))
      | contains key =>
          cases h
          exact .aside (hother (by simp)) rfl rfl rfl hno (.setShard s (by simp))
      | inspect key =>
          cases h
          exact .aside (hother (by simp)) rfl rfl rfl hno (.setShard s (by simp))
      | put key value ttl =>
          have hsec : Grounded s (s.putSection hash key value ttl (c.ok key)).1 := by
            have := Grounded.setShard s (i := shardFor cfg hash key)
              (CacheShard.singleflight_putLocked (s.shards (shardFor cfg hash key)) cfg.toCacheConfig
                s.source key s.now value ttl (c.ok key))
            exact ⟨this.registry, rfl⟩
          simp only [clientStep] at h
          split_ifs at h
          · cases h
            exact .of_raised rfl rfl rfl (fun _ => rfl) (hsec.callerCount caller false) .sourceFailure
          · exact .of_enqueueOr rfl rfl rfl (fun _ => rfl) hsec (Option.some.inj h)
      | delete key =>
          have hcaller := hother (by simp)
          have hreg := CacheShard.singleflight_deleteLocked (s.shards (shardFor cfg hash key))
            cfg.toCacheConfig s.source key (c.ok key)
          simp only [clientStep] at h
          split_ifs at h with hr
          · cases h
            have := Grounded.setShard s (hreg.trans (if_pos hr))
            exact .aside hcaller rfl rfl rfl (fun _ _ => rfl) ⟨this.registry, rfl⟩
          · obtain ⟨rfl, hf, hw, hok⟩ := enqueueOr_client (by simp) (Option.some.inj h)
            exact .deletes key hcaller hf hw hok (refiles_update rfl (hreg.trans (if_neg hr))) rfl
      | clear => cases h; exact .aside (hother (by simp)) rfl rfl rfl hno (.refl s)
      | size => cases h; exact .aside (hother (by simp)) rfl rfl rfl hno (.refl s)
      | dump limit => cases h; exact .aside (hother (by simp)) rfl rfl rfl hno (.refl s)
      | expireAll => cases h; exact .aside (hother (by simp)) rfl rfl rfl hno (.refl s)
      | getOrCompute key ttl =>
          have hcaller := hother (by simp)
          simp only [clientStep] at h
          rcases CacheShard.getOrComputeLocked_cases (s.shards (shardFor cfg hash key)) key s.now
              s.flights.length with ⟨v, hrole, hreg, -⟩ | ⟨f, hrole, hsome, hreg⟩ | ⟨hrole, hnone, hreg⟩
          · rw [hrole] at h
            cases h
            exact .aside hcaller rfl rfl rfl hno (.setShard s hreg)
          · rw [hrole] at h
            cases h
            exact .joins key ttl f hcaller hsome (.setShard s hreg)
          · rw [hrole] at h
            cases h
            exact .leads key ttl hcaller hnone (refiles_update rfl hreg) rfl
      | preload key ttl =>
          cases h
          exact .aside (hother (by simp)) rfl rfl rfl hno ⟨fun _ => rfl, rfl⟩
      | requestSnapshot id =>
          cases h
          exact .aside (hother (by simp)) rfl rfl rfl hno ⟨fun _ => rfl, rfl⟩
      | restoreEntryMetadata key n =>
          cases h
          exact .aside (hother (by simp)) rfl rfl rfl hno (.setShard s (by simp))
      | close flush => cases h
  | clearing i ts =>
      simp only [clientStep] at h
      have hreg : ∀ hi : i < cfg.shardCount, _ := fun hi =>
        CacheShard.singleflight_clearLocked (s.shards ⟨i, hi⟩) cfg.toCacheConfig s.source c.ok
      split_ifs at h with hi hr
      · cases h
        have := Grounded.setShard s ((hreg hi).trans (if_pos hr))
        exact .aside rfl rfl rfl rfl (fun _ _ => rfl) ⟨this.registry, rfl⟩
      · cases h
        exact .clears ⟨i, hi⟩ rfl rfl rfl (refiles_update rfl ((hreg hi).trans (if_neg hr))) rfl
      · obtain ⟨rfl, hf, hw, -⟩ := enqueueOr_client (by simp) (Option.some.inj h)
        refine .aside rfl hf rfl hw (fun k hk => ?_) (.refl s')
        exact absurd (of_decide_eq_true hk ▸ (shardFor cfg hash k).isLt) hi
  | sizing i total =>
      simp only [clientStep] at h
      split_ifs at h <;> cases h <;> exact .aside rfl rfl rfl rfl hno (.refl s)
  | dumping i taken limit =>
      simp only [clientStep] at h
      split_ifs at h <;> cases h
      · exact .aside rfl rfl rfl rfl hno (.setShard s (by simp))
      · exact .aside rfl rfl rfl rfl hno (.refl s)
  | expiring i removed =>
      simp only [clientStep] at h
      split_ifs at h <;> cases h
      · exact .aside rfl rfl rfl rfl hno (.setShard s (by simp))
      · exact .aside rfl rfl rfl rfl hno (.refl s)
  | enqueuing ts caller =>
      cases ts with
      | nil =>
          have hret : enqueueOr s [] caller = (s', th') := Option.some.inj h
          exact .of_enqueueOr rfl rfl rfl (fun _ => rfl) (.refl s) hret
      | cons t ts =>
          simp only [clientStep] at h
          split_ifs at h
          · cases h
            have hlost : Grounded s (s.lose (t :: ts)) := ⟨fun _ => rfl, rfl⟩
            exact .of_raised rfl rfl rfl (fun _ => rfl) (hlost.callerCount caller false) .valueError
          · cases h
            cases caller with
            | leader k f v => exact .putting k f v rfl rfl trivial ⟨fun _ => rfl, rfl⟩
            | client result => exact .aside rfl rfl rfl rfl hno ⟨fun _ => rfl, rfl⟩
            | preloader => exact .aside rfl rfl rfl rfl hno ⟨fun _ => rfl, rfl⟩
          · have hpush : Grounded s { s with queue := s.queue.push (.flushWriteBack t) } :=
              ⟨fun _ => rfl, rfl⟩
            exact .of_enqueueOr rfl rfl rfl (fun _ => rfl) hpush (Option.some.inj h)
  | releasing ts caller =>
      cases ts with
      | nil =>
          cases h
          exact .of_raised rfl rfl rfl (fun _ => rfl) ((Grounded.refl s).callerCount caller false) _
      | cons t ts =>
          obtain ⟨s₁, hs₁, heq⟩ := Option.map_eq_some_iff.mp h
          cases heq
          have hs := Grounded.onShard (fun sh => by simp) hs₁
          cases caller with
          | leader k f v => exact .putting k f v rfl rfl trivial hs
          | client result => exact .aside rfl rfl rfl rfl hno hs
          | preloader => exact .aside rfl rfl rfl rfl hno hs
  | leading k ttl f => cases h; exact .starts k ttl f
  | loading k ttl f =>
      simp only [clientStep] at h
      split at h <;> cases h
      · exact .loadRaises k ttl f _
      · exact .loads k ttl f _
  | publishing k f v => cases h; exact .publishes k f v (refiles_update rfl rfl) rfl
  | failing k f exn => cases h; exact .fails k f exn (refiles_update rfl rfl) rfl
  | waiting f =>
      obtain ⟨rfl, result, rfl, x, hx, he, rfl⟩ := waiting_cases h
      exact .wakes f x hx he
  | _ => cases h

/-- A step outside the flights: the thread leads none, waits for none and erases no key. -/
theorem Flown.outside (hflight : th.flight = none) (hawaits : th.awaits = none)
    (herases : ∀ k, th.erases cfg hash k = false) (hflight' : th'.flight = none) (hawaits' : th'.awaits = none)
    (hs : Grounded s s') : Flown hash s th s' th' := by
  refine .aside hflight hflight' hawaits hawaits' (fun k hk => ?_) hs
  rw [herases k] at hk
  cases hk

/-- Workers stay outside the flights. -/
theorem workerStep_flown (h : workerStep s c th = some (s', th')) : Flown hash s th s' th' := by
  have hon : ∀ {i : ℕ} {f : CacheShard α V T → CacheShard α V T} {g : RuntimeStats → RuntimeStats}
      {next : Thread α V T}, (∀ sh, (f sh).singleflight = sh.singleflight) →
      ((s.onShard i f).map fun s' => (s'.count g, next)) = some (s', th') →
      Grounded s s' ∧ th' = next := by
    intro i f g next hf h
    obtain ⟨s₁, hs₁, heq⟩ := Option.map_eq_some_iff.mp h
    cases heq
    exact ⟨(Grounded.onShard hf hs₁).count g, rfl⟩
  cases th with
  | idle =>
      simp only [workerStep] at h
      split at h
      · cases h
        exact .outside rfl rfl (fun _ => rfl) rfl rfl ⟨fun _ => rfl, rfl⟩
      · split_ifs at h
        cases h
        exact .outside rfl rfl (fun _ => rfl) rfl rfl (.refl s)
  | handling job =>
      cases job with
      | stopWorker =>
          cases h
          exact .outside rfl rfl (fun _ => rfl) rfl rfl ⟨fun _ => rfl, rfl⟩
      | expireShard i =>
          obtain ⟨hs, rfl⟩ := hon (fun sh => by simp) h
          exact .outside rfl rfl (fun _ => rfl) rfl rfl hs
      | snapshotStats id =>
          cases h
          exact .outside rfl rfl (fun _ => rfl) rfl rfl ⟨fun _ => rfl, rfl⟩
      | preloadKey i key ttl =>
          simp only [workerStep] at h
          split at h <;> cases h <;>
            exact .outside rfl rfl (fun _ => rfl) rfl rfl ⟨fun _ => rfl, rfl⟩
      | flushWriteBack t =>
          simp only [workerStep] at h
          split_ifs at h <;> cases h
          · exact .outside rfl rfl (fun _ => rfl) rfl rfl
              ((Grounded.setShard s (by simp)).count _)
          · exact .outside rfl rfl (fun _ => rfl) rfl rfl (.refl s)
  | checked t =>
      simp only [workerStep] at h
      split_ifs at h <;> cases h <;> exact .outside rfl rfl (fun _ => rfl) rfl rfl ⟨fun _ => rfl, rfl⟩
  | failed t =>
      simp only [workerStep] at h
      split_ifs at h <;> cases h <;> exact .outside rfl rfl (fun _ => rfl) rfl rfl ⟨fun _ => rfl, rfl⟩
  | dropped t =>
      obtain ⟨hs, rfl⟩ := hon (fun sh => by simp) h
      exact .outside rfl rfl (fun _ => rfl) rfl rfl hs
  | landed t =>
      obtain ⟨hs, rfl⟩ := hon (fun sh => by simp) h
      exact .outside rfl rfl (fun _ => rfl) rfl rfl hs
  | finishing =>
      cases h
      exact .outside rfl rfl (fun _ => rfl) rfl rfl ⟨fun _ => rfl, rfl⟩
  | _ => cases h

/-- `close` stays outside the flights. -/
theorem closeStep_flown (h : closeStep s c th = some (s', th')) : Flown hash s th s' th' := by
  have hnext : ∀ i, (closeNext cfg i : Thread α V T).flight = none ∧
      (closeNext cfg i : Thread α V T).awaits = none := by
    intro i
    unfold closeNext
    split_ifs <;> exact ⟨rfl, rfl⟩
  have hsame : Grounded s s := .refl s
  cases th with
  | closeCollect i =>
      simp only [closeStep] at h
      split_ifs at h
      cases h
      exact .outside rfl rfl (fun _ => rfl) rfl rfl (.setShard s (by simp))
  | closeEnqueue i ts =>
      cases ts with
      | nil =>
          cases h
          exact .outside rfl rfl (fun _ => rfl) (hnext i).1 (hnext i).2 hsame
      | cons t ts =>
          simp only [closeStep] at h
          split_ifs at h <;> cases h <;>
            exact .outside rfl rfl (fun _ => rfl) rfl rfl ⟨fun _ => rfl, rfl⟩
  | closeRelease i ts =>
      cases ts with
      | nil =>
          cases h
          exact .outside rfl rfl (fun _ => rfl) (hnext i).1 (hnext i).2 hsame
      | cons t ts =>
          obtain ⟨s₁, hs₁, heq⟩ := Option.map_eq_some_iff.mp h
          cases heq
          exact .outside rfl rfl (fun _ => rfl) rfl rfl (Grounded.onShard (fun sh => by simp) hs₁)
  | closeJoin =>
      simp only [closeStep] at h
      split_ifs at h <;> cases h <;> exact .outside rfl rfl (fun _ => rfl) rfl rfl hsame
  | syncCollect i failed =>
      simp only [closeStep] at h
      split_ifs at h <;> cases h <;> exact .outside rfl rfl (fun _ => rfl) rfl rfl ⟨fun _ => rfl, rfl⟩
  | syncNext i ts failed =>
      cases ts with
      | nil =>
          cases h
          exact .outside rfl rfl (fun _ => rfl) rfl rfl hsame
      | cons t ts =>
          simp only [closeStep] at h
          split_ifs at h <;> cases h
          · exact .outside rfl rfl (fun _ => rfl) rfl rfl ((Grounded.setShard s (by simp)).count _)
          · exact .outside rfl rfl (fun _ => rfl) rfl rfl hsame
  | syncTry i t left ts failed =>
      simp only [closeStep] at h
      split_ifs at h
      · cases h
        refine .outside rfl rfl (fun _ => rfl) ?_ ?_ ⟨fun _ => rfl, rfl⟩ <;> cases t.job.operation <;> rfl
      · cases left <;> cases h <;> exact .outside rfl rfl (fun _ => rfl) rfl rfl ⟨fun _ => rfl, rfl⟩
  | syncClean i t ts failed =>
      obtain ⟨s₁, hs₁, heq⟩ := Option.map_eq_some_iff.mp h
      cases heq
      exact .outside rfl rfl (fun _ => rfl) rfl rfl (Grounded.onShard (fun sh => by simp) hs₁)
  | syncSettle i t success ts failed =>
      obtain ⟨s₁, hs₁, heq⟩ := Option.map_eq_some_iff.mp h
      cases heq
      have hs := Grounded.onShard (fun sh => by simp) hs₁
      refine .outside rfl rfl (fun _ => rfl) rfl rfl ?_
      split_ifs
      · exact hs
      · exact hs.count _
  | closeStop failed =>
      simp only [closeStep] at h
      split_ifs at h <;> cases h <;> exact .outside rfl rfl (fun _ => rfl) rfl rfl ⟨fun _ => rfl, rfl⟩
  | closeDrain failed =>
      cases h
      exact .outside rfl rfl (fun _ => rfl) rfl rfl ⟨fun _ => rfl, rfl⟩
  | _ => cases h

/-- **What a step of a thread does to the flights.** -/
theorem threadStep_flown (h : threadStep hash s c th = some (s', th')) (hsh : th.Shaped) :
    Flown hash s th s' th' := by
  rcases threadStep_cases h with h | h | h
  · exact clientStep_flown h hsh
  · exact workerStep_flown h
  · exact closeStep_flown h

end Inversion

/-! ### The invariant -/

/-- The flight that the thread at a position leads. -/
def System.leads (s : System α V cfg) (j : ℕ) : Option (Key α × ℕ) := s.threads[j]?.bind Thread.flight

/-- The invariant of the flights. -/
structure FlightsOk (hash : Key α → ℕ) (s : System α V cfg) : Prop where
  shaped : ∀ th ∈ s.threads, th.Shaped
  /-- A flight with a leader has not been completed. -/
  fresh : ∀ j k f, s.leads j = some (k, f) → s.shared.flights[f]? = some Flight.new
  /-- A flight has one leader. -/
  unique : ∀ i j k k' f, s.leads i = some (k, f) → s.leads j = some (k', f) → i = j
  /-- A registered flight has a leader, and is registered in the shard of its key. -/
  registered : ∀ i k f, (s.shared.shards i).singleflight.get? k = some f →
    shardFor cfg hash k = i ∧ ∃ j, s.leads j = some (k, f)
  /-- A flight that has not been completed has a leader. -/
  led : ∀ f : ℕ, s.shared.flights[f]? = some Flight.new → ∃ j k, s.leads j = some (k, f)
  /-- A flight has no outcome and no event, or one outcome and its event set. -/
  written : ∀ (f : ℕ) (x : Flight V), s.shared.flights[f]? = some x →
    x = .new ∨ (∃ v, x = .ofResult v) ∨ ∃ exn, x = .ofException exn
  /-- Whoever waits, waits for a flight that there is. -/
  awaited : ∀ th ∈ s.threads, ∀ f, th.awaits = some f → f < s.shared.flights.length

section Invariant

variable {s s' : System α V cfg} {i : ℕ} {th th' : Thread α V T}

/-- A thread without a flight calls what it likes. -/
theorem Thread.shaped_of_flight (h : th.flight = none) : th.Shaped := by
  cases th with
  | entering op caller =>
      rintro k f v rfl
      cases h
  | running op caller =>
      rintro k f v rfl
      cases h
  | _ => trivial

/-- The leaders after a thread moved. -/
theorem System.leads_set (hi : s.threads[i]? = some th) (hset : s'.threads = s.threads.set i th') :
    s'.leads = Function.update s.leads i th'.flight := by
  funext j
  obtain ⟨hlt, -⟩ := List.getElem?_eq_some_iff.mp hi
  by_cases hj : j = i
  · subst hj
    rw [System.leads, hset, List.getElem?_set_self hlt, Function.update_self]
    rfl
  · rw [System.leads, hset, List.getElem?_set_ne (Ne.symm hj), Function.update_of_ne hj]
    rfl

/-- The leaders after threads came in. -/
theorem System.leads_append {new : List (Thread α V T)} (hnew : ∀ th ∈ new, th.flight = none)
    (hth : s'.threads = s.threads ++ new) : s'.leads = s.leads := by
  funext j
  rw [System.leads, System.leads, hth]
  by_cases hj : j < s.threads.length
  · rw [List.getElem?_append_left hj]
  · rw [List.getElem?_append_right (not_lt.mp hj), List.getElem?_eq_none (not_lt.mp hj),
      Option.bind_none]
    cases hget : new[j - s.threads.length]? with
    | none => rfl
    | some th => exact hnew th (List.mem_of_getElem? hget)

/-- A step that moves no leader and completes no flight. -/
theorem FlightsOk.keep (h : FlightsOk hash s) (hshaped : ∀ th ∈ s'.threads, th.Shaped)
    (hleads : s'.leads = s.leads) (hfl : s'.shared.flights = s.shared.flights)
    (hreg : ∀ i k f, (s'.shared.shards i).singleflight.get? k = some f →
      (s.shared.shards i).singleflight.get? k = some f)
    (haw : ∀ th ∈ s'.threads, ∀ f, th.awaits = some f → f < s.shared.flights.length) :
    FlightsOk hash s' where
  shaped := hshaped
  fresh := by
    rw [hleads, hfl]
    exact h.fresh
  unique := by
    rw [hleads]
    exact h.unique
  registered i k f hf := by
    rw [hleads]
    exact h.registered i k f (hreg i k f hf)
  led := by
    rw [hleads, hfl]
    exact h.led
  written := by
    rw [hfl]
    exact h.written
  awaited := by
    rw [hfl]
    exact haw

/-- A registered flight is one of the flights. -/
theorem FlightsOk.lt_of_registered (h : FlightsOk hash s) {i : Fin cfg.shardCount} {k : Key α} {f : ℕ}
    (hf : (s.shared.shards i).singleflight.get? k = some f) : f < s.shared.flights.length := by
  obtain ⟨-, j, hj⟩ := h.registered i k f hf
  exact (List.getElem?_eq_some_iff.mp (h.fresh j k f hj)).1

/-- What a thread leads. -/
theorem System.leads_of_getElem? (hi : s.threads[i]? = some th) : s.leads i = th.flight := by
  rw [System.leads, hi]
  rfl

/-- A leader comes in: nobody led the new flight, and none was registered under its key. -/
theorem FlightsOk.lead (h : FlightsOk hash s) {k : Key α} {ttl : Ttl T} (hi : s.threads[i]? = some th)
    (hset : s'.threads = s.threads.set i (.leading k ttl s.shared.flights.length))
    (hth : th.flight = none)
    (hreg : Refiles s.shared s'.shared (shardFor cfg hash k) (·.set k s.shared.flights.length))
    (hfl : s'.shared.flights = s.shared.flights ++ [Flight.new]) : FlightsOk hash s' := by
  have hleads := System.leads_set hi hset
  have hnew : s'.leads i = some (k, s.shared.flights.length) := by
    rw [hleads, Function.update_self]
    rfl
  have hold : ∀ j, j ≠ i → s'.leads j = s.leads j := fun j hj => by
    rw [hleads, Function.update_of_ne hj]
  have hlt : ∀ j k f, s.leads j = some (k, f) → f < s.shared.flights.length := fun j k f hj =>
    (List.getElem?_eq_some_iff.mp (h.fresh j k f hj)).1
  have hne : ∀ {j k f}, s.leads j = some (k, f) → j ≠ i := by
    rintro j k f hj rfl
    rw [System.leads_of_getElem? hi, hth] at hj
    cases hj
  constructor
  · rw [hset]
    exact forall_mem_set h.shaped trivial
  · intro j k' f hj
    rw [hfl]
    by_cases hji : j = i
    · subst hji
      obtain ⟨rfl, rfl⟩ := Prod.mk.inj (Option.some.inj (hnew.symm.trans hj))
      exact List.getElem?_concat_length
    · rw [hold j hji] at hj
      rw [List.getElem?_append_left (hlt j k' f hj)]
      exact h.fresh j k' f hj
  · intro a b k₁ k₂ f ha hb
    by_cases hai : a = i <;> by_cases hbi : b = i
    · rw [hai, hbi]
    · subst hai
      obtain ⟨-, rfl⟩ := Prod.mk.inj (Option.some.inj (hnew.symm.trans ha))
      rw [hold b hbi] at hb
      exact absurd (hlt b k₂ _ hb) (lt_irrefl _)
    · subst hbi
      obtain ⟨-, rfl⟩ := Prod.mk.inj (Option.some.inj (hnew.symm.trans hb))
      rw [hold a hai] at ha
      exact absurd (hlt a k₁ _ ha) (lt_irrefl _)
    · rw [hold a hai] at ha
      rw [hold b hbi] at hb
      exact h.unique a b k₁ k₂ f ha hb
  · intro j k' f hf
    rw [hreg j] at hf
    split_ifs at hf with hj
    · rw [OrderedDict.get?_set] at hf
      split_ifs at hf with hk
      · cases hf
        rw [hk]
        exact ⟨hj.symm, i, hnew⟩
      · obtain ⟨hroute, a, ha⟩ := h.registered j k' f hf
        exact ⟨hroute, a, (hold a (hne ha)).trans ha⟩
    · obtain ⟨hroute, a, ha⟩ := h.registered j k' f hf
      exact ⟨hroute, a, (hold a (hne ha)).trans ha⟩
  · intro f hf
    rw [hfl] at hf
    by_cases hlen : f < s.shared.flights.length
    · rw [List.getElem?_append_left hlen] at hf
      obtain ⟨j, k', hj⟩ := h.led f hf
      exact ⟨j, k', (hold j (hne hj)).trans hj⟩
    · have hle := (List.getElem?_eq_some_iff.mp hf).1
      rw [List.length_append, List.length_singleton] at hle
      obtain rfl : f = s.shared.flights.length := by omega
      exact ⟨i, k, hnew⟩
  · intro f x hx
    rw [hfl] at hx
    by_cases hlen : f < s.shared.flights.length
    · rw [List.getElem?_append_left hlen] at hx
      exact h.written f x hx
    · have hle := (List.getElem?_eq_some_iff.mp hx).1
      rw [List.length_append, List.length_singleton] at hle
      obtain rfl : f = s.shared.flights.length := by omega
      rw [List.getElem?_concat_length] at hx
      exact .inl (Option.some.inj hx).symm
  · intro x hx f hf
    rw [hfl, List.length_append, List.length_singleton]
    rw [hset] at hx
    rcases List.mem_or_eq_of_mem_set hx with hx | rfl
    · exact Nat.lt_succ_of_lt (h.awaited x hx f hf)
    · cases hf

/-- A leader completes its flight and takes whatever is registered under its key off the registry. -/
theorem FlightsOk.complete (h : FlightsOk hash s) {k : Key α} {f : ℕ} {y : Flight V → Flight V}
    (hi : s.threads[i]? = some th) (hset : s'.threads = s.threads.set i th')
    (hth : th.flight = some (k, f)) (hth' : th'.flight = none) (hw' : th'.awaits = none)
    (hy : (∃ v, y .new = .ofResult v) ∨ ∃ exn, y .new = .ofException exn)
    (hreg : Refiles s.shared s'.shared (shardFor cfg hash k) (·.erase k))
    (hfl : s'.shared.flights = s.shared.flights.modify f y) : FlightsOk hash s' := by
  have hleads := System.leads_set hi hset
  have hgone : s'.leads i = none := by rw [hleads, Function.update_self, hth']
  have hold : ∀ j, j ≠ i → s'.leads j = s.leads j := fun j hj => by
    rw [hleads, Function.update_of_ne hj]
  have hmine : s.leads i = some (k, f) := (System.leads_of_getElem? hi).trans hth
  have hback : ∀ {j x}, s'.leads j = some x → j ≠ i ∧ s.leads j = some x := by
    intro j x hj
    have hji : j ≠ i := by
      rintro rfl
      rw [hgone] at hj
      cases hj
    exact ⟨hji, (hold j hji).symm.trans hj⟩
  have hother : ∀ f', f' ≠ f → s'.shared.flights[f']? = s.shared.flights[f']? := by
    intro f' hne
    rw [hfl, List.getElem?_modify_ne _ _ (Ne.symm hne)]
  have hthis : s'.shared.flights[f]? = some (y .new) := by
    rw [hfl, List.getElem?_modify_eq, h.fresh i k f hmine]
    rfl
  constructor
  · rw [hset]
    exact forall_mem_set h.shaped (Thread.shaped_of_flight hth')
  · intro j k' f' hj
    obtain ⟨hji, hj⟩ := hback hj
    have hne : f' ≠ f := fun e => hji (h.unique j i k' k f (e ▸ hj) hmine)
    rw [hother f' hne]
    exact h.fresh j k' f' hj
  · intro a b k₁ k₂ f' ha hb
    exact h.unique a b k₁ k₂ f' (hback ha).2 (hback hb).2
  · intro j k' f' hf
    have hold' : (s.shared.shards j).singleflight.get? k' = some f' ∧
        (j = shardFor cfg hash k → k' ≠ k) := by
      rw [hreg j] at hf
      split_ifs at hf with hj
      · rw [OrderedDict.get?_erase] at hf
        split_ifs at hf with hk
        exact ⟨hf, fun _ => hk⟩
      · exact ⟨hf, fun e => absurd e hj⟩
    obtain ⟨hroute, a, ha⟩ := h.registered j k' f' hold'.1
    have hai : a ≠ i := by
      rintro rfl
      obtain ⟨rfl, -⟩ := Prod.mk.inj (Option.some.inj (hmine.symm.trans ha))
      exact hold'.2 hroute.symm rfl
    exact ⟨hroute, a, (hold a hai).trans ha⟩
  · intro f' hf'
    have hne : f' ≠ f := by
      rintro rfl
      rw [hthis, Option.some.injEq] at hf'
      rcases hy with ⟨v, hv⟩ | ⟨exn, hv⟩ <;> rw [hv] at hf' <;> cases hf'
    rw [hother f' hne] at hf'
    obtain ⟨j, k', hj⟩ := h.led f' hf'
    have hji : j ≠ i := by
      rintro rfl
      exact hne (Prod.mk.inj (Option.some.inj (hj.symm.trans hmine))).2
    exact ⟨j, k', (hold j hji).trans hj⟩
  · intro f' x hx
    by_cases hne : f' = f
    · subst hne
      rw [hthis, Option.some.injEq] at hx
      exact .inr (hx ▸ hy)
    · rw [hother f' hne] at hx
      exact h.written f' x hx
  · intro x hx f' hf'
    rw [hfl, List.length_modify]
    rw [hset] at hx
    rcases List.mem_or_eq_of_mem_set hx with hx | rfl
    · exact h.awaited x hx f' hf'
    · rw [hw'] at hf'
      cases hf'

end Invariant

/-- The three kinds of steps as far as the invariant sees them: leaders stay as they are, a leader
comes in, a leader completes its flight. -/
theorem Flown.kind {s s' : Shared α V cfg} {th th' : Thread α V T} (h : Flown hash s th s' th') :
    (th'.flight = th.flight ∧ s'.flights = s.flights ∧
      (∀ i k f, (s'.shards i).singleflight.get? k = some f → (s.shards i).singleflight.get? k = some f) ∧
      ∀ f, th'.awaits = some f → ∃ i k, (s.shards i).singleflight.get? k = some f) ∨
    (∃ k ttl, th.flight = none ∧ th' = .leading k ttl s.flights.length ∧
      Refiles s s' (shardFor cfg hash k) (·.set k s.flights.length) ∧ s'.flights = s.flights ++ [Flight.new]) ∨
    ∃ k f, ∃ y : Flight V → Flight V, th.flight = some (k, f) ∧ th'.flight = none ∧ th'.awaits = none ∧
      ((∃ v, y .new = .ofResult v) ∨ ∃ exn, y .new = .ofException exn) ∧
      Refiles s s' (shardFor cfg hash k) (·.erase k) ∧ s'.flights = s.flights.modify f y := by
  have hground : ∀ {s' : Shared α V cfg}, Grounded s s' → ∀ i k f,
      (s'.shards i).singleflight.get? k = some f → (s.shards i).singleflight.get? k = some f :=
    fun hs i k f hf => hs.registry i ▸ hf
  have hcaller : ∀ {th : Thread α V T} {k f v}, th.caller = some (Caller.leader k f v) →
      th.flight = some (k, f) ∧ th.awaits = none := by
    intro th k f v hc
    cases th <;> cases hc <;> exact ⟨rfl, rfl⟩
  cases h with
  | aside hth hth' hw hw' herase hs =>
      exact .inl ⟨hth'.trans hth.symm, hs.flights, hground hs, fun f hf => by rw [hw'] at hf; cases hf⟩
  | deletes k hth hth' hw' hok hreg hfl =>
      refine .inl ⟨hth'.trans hth.symm, hfl, fun i k' f hf => ?_, fun f hf => by rw [hw'] at hf; cases hf⟩
      rw [hreg i] at hf
      split_ifs at hf with hi
      · rw [OrderedDict.get?_erase] at hf
        split_ifs at hf
        exact hf
      · exact hf
  | clears i hth' hw' hok hreg hfl =>
      refine .inl ⟨hth', hfl, fun j k' f hf => ?_, fun f hf => by rw [hw'] at hf; cases hf⟩
      rw [hreg j] at hf
      split_ifs at hf with hj
      · rw [OrderedDict.get?_empty] at hf
        cases hf
      · exact hf
  | leads k ttl hth hnone hreg hfl => exact .inr (.inl ⟨k, ttl, hth, rfl, hreg, hfl⟩)
  | joins k ttl f hth hsome hs =>
      refine .inl ⟨hth.symm, hs.flights, hground hs, fun f' hf' => ?_⟩
      cases hf'
      exact ⟨_, k, hsome⟩
  | starts k ttl f => exact .inl ⟨rfl, rfl, fun _ _ _ hf => hf, fun _ hf => by cases hf⟩
  | loads k ttl f v => exact .inl ⟨rfl, rfl, fun _ _ _ hf => hf, fun _ hf => by cases hf⟩
  | loadRaises k ttl f => exact .inl ⟨rfl, rfl, fun _ _ _ hf => hf, fun _ hf => by cases hf⟩
  | putting k f v hth hth' hsh hs =>
      refine .inl ⟨(hcaller hth').1.trans (hcaller hth).1.symm, hs.flights, hground hs, fun f' hf' => ?_⟩
      rw [(hcaller hth').2] at hf'
      cases hf'
  | putReturns k f v hth hs =>
      exact .inl ⟨(hcaller hth).1.symm, hs.flights, hground hs, fun _ hf => by cases hf⟩
  | putRaises k f v exn hth hexn hs =>
      exact .inl ⟨(hcaller hth).1.symm, hs.flights, hground hs, fun _ hf => by cases hf⟩
  | publishes k f v hreg hfl => exact .inr (.inr ⟨k, f, _, rfl, rfl, rfl, .inl ⟨v, rfl⟩, hreg, hfl⟩)
  | fails k f exn hreg hfl => exact .inr (.inr ⟨k, f, _, rfl, rfl, rfl, .inr ⟨exn, rfl⟩, hreg, hfl⟩)
  | wakes f x hx he => exact .inl ⟨rfl, rfl, fun _ _ _ hf => hf, fun _ hf => by cases hf⟩

/-- A leader goes on as a leader. -/
theorem Flown.shaped {s s' : Shared α V cfg} {th th' : Thread α V T} (h : Flown hash s th s' th') :
    th'.Shaped := by
  cases h with
  | aside hth hth' hw hw' herase hs => exact Thread.shaped_of_flight hth'
  | deletes k hth hth' hw' hok hreg hfl => exact Thread.shaped_of_flight hth'
  | clears i hth' hw' hok hreg hfl => exact Thread.shaped_of_flight hth'
  | loads k ttl f v =>
      rintro k' f' v' hc
      cases hc
      exact ⟨ttl, rfl⟩
  | putting k f v hth hth' hsh hs => exact hsh
  | _ => trivial

/-- A fresh cache has no flights. -/
theorem flightsOk_initial (cfg : AcceptedConfig T) (hash : Key α → ℕ) (now : T) (src : Source α V) :
    FlightsOk hash (initial cfg now src : System α V cfg) where
  shaped := by simp [initial]
  fresh j k f h := by simp [System.leads, initial] at h
  unique i j k k' f h := by simp [System.leads, initial] at h
  registered i k f h := by simp [initial, newShard] at h
  led f h := by simp [initial] at h
  written f x h := by simp [initial] at h
  awaited := by simp [initial]

/-- **Every step keeps the invariant of the flights.** -/
theorem FlightsOk.step {s s' : System α V cfg} {l : Label α V T} (hok : FlightsOk hash s)
    (h : step cfg hash s l = some s') : FlightsOk hash s' := by
  have hcome : ∀ new : List (Thread α V T), (∀ th ∈ new, th.flight = none ∧ th.awaits = none) →
      s'.threads = s.threads ++ new → s'.shared.shards = s.shared.shards →
      s'.shared.flights = s.shared.flights → FlightsOk hash s' := by
    intro new hnew hth hsh hfl
    refine hok.keep (fun th hmem => ?_) (System.leads_append (fun th hmem => (hnew th hmem).1) hth) hfl
      (fun i k f hf => by rwa [hsh] at hf) fun th hmem f hf => ?_
    · rw [hth, List.mem_append] at hmem
      exact hmem.elim (hok.shaped th) fun hmem => Thread.shaped_of_flight (hnew th hmem).1
    · rw [hth, List.mem_append] at hmem
      rcases hmem with hmem | hmem
      · exact hok.awaited th hmem f hf
      · rw [(hnew th hmem).2] at hf
        cases hf
  rcases step_moves h with ⟨-, hsh, hfl, n, hth⟩ | ⟨op, -, -, hsh, hth⟩ | ⟨i, c, th, th', -, -, hi, hstep, hset⟩
  · refine hcome _ (fun th hmem => ?_) hth hsh hfl
    rw [List.eq_of_mem_replicate hmem]
    exact ⟨rfl, rfl⟩
  · refine hcome _ (fun th hmem => ?_) hth (by rw [hsh]) (by rw [hsh])
    rw [List.mem_singleton.mp hmem]
    exact ⟨rfl, rfl⟩
  · have hflown := threadStep_flown hstep (hok.shaped th (List.mem_of_getElem? hi))
    have hshaped : ∀ th ∈ s'.threads, th.Shaped := by
      rw [hset]
      exact forall_mem_set hok.shaped hflown.shaped
    rcases hflown.kind with ⟨hlead, hfl, hreg, haw⟩ | ⟨k, ttl, hth, rfl, hreg, hfl⟩ |
      ⟨k, f, y, hth, hth', hw', hy, hreg, hfl⟩
    · refine hok.keep hshaped ?_ hfl hreg fun x hx f hf => ?_
      · rw [System.leads_set hi hset, hlead, ← System.leads_of_getElem? hi, Function.update_eq_self]
      · rw [hset] at hx
        rcases List.mem_or_eq_of_mem_set hx with hx | rfl
        · exact hok.awaited x hx f hf
        · obtain ⟨j, k, hreg⟩ := haw f hf
          exact hok.lt_of_registered hreg
    · exact hok.lead hi hset hth hreg hfl
    · exact hok.complete hi hset hth hth' hw' hy hreg hfl

end CacheLab
