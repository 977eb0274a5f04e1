import CacheLab.Concurrency.LockOrder
import CacheLab.Properties.Progress
import CacheLab.Properties.QueueOrder
import CacheLab.System.Flights
import CacheLab.System.Graves

/-!
# Who is there while the cache closes

What a wait during the shutdown relies on, in every run:

* while the lifecycle says `closing`, some `close` is on its way, and no more than one;
* there are workers only where the pool was started or the stop event is set, and once `close` gets to drain the
  queue, or the cache is closed, the stop event is set if there are workers;
* every point names a shard that exists, and so does every job in the queue or in the hands of a worker.

`Attended` says so, `Attended.step` is the step lemma. The steps of calls and workers do not look at the phase of the
cache but for the lifecycle check and for a worker without a job (`clientStep_inPhase`, `workerStep_inPhase`), so
what holds of them in an open cache holds of them in any.
-/

set_option linter.unusedSectionVars false

namespace CacheLab

variable {α V T : Type} [DecidableEq α] [LinearOrder T] [Zero T] [Add T] [Sub T]

variable {cfg : AcceptedConfig T} {hash : Key α → ℕ}

/-! ### Points whose shards exist -/

/-- A job names a shard that exists. -/
def Job.InRange (cfg : AcceptedConfig T) : Job α V T → Prop
  | .expireShard i => i < cfg.shardCount
  | _ => True

/-- A point names a shard that exists, and a `close` that passed its check is in `close`. -/
def Thread.InRange (cfg : AcceptedConfig T) : Thread α V T → Prop
  | .running op _ => ∀ flush, op ≠ .close flush
  | .handling job => job.InRange cfg
  | .closeCollect i => i < cfg.shardCount
  | .closeEnqueue i _ => i < cfg.shardCount
  | .closeRelease i _ => i < cfg.shardCount
  | .syncNext i _ _ => i < cfg.shardCount
  | .syncTry i _ _ _ _ => i < cfg.shardCount
  | .syncClean i _ _ _ => i < cfg.shardCount
  | .syncSettle i _ _ _ _ => i < cfg.shardCount
  | _ => True

/-- The same state in another phase. -/
def Shared.inPhase (s : Shared α V cfg) (life : LifecycleState) (stop : Bool) : Shared α V cfg :=
  { s with lifecycle := life, stopEvent := stop }

section Steps

variable {s u s' : Shared α V cfg} {c : Choice α V} {th th' : Thread α V T}

/-- A caller that got an answer. -/
theorem Caller.inRange_returned (caller : Caller α V T) :
    (caller.returned : Thread α V T).InRange cfg ∧ (caller.returned : Thread α V T).deletes = 0 := by
  cases caller <;> exact ⟨trivial, rfl⟩

/-- See `Caller.inRange_returned`. -/
theorem Caller.inRange_raised (caller : Caller α V T) (exn : Exn) :
    (caller.raised exn : Thread α V T).InRange cfg ∧ (caller.raised exn : Thread α V T).deletes = 0 := by
  cases caller with
  | client result => exact ⟨trivial, rfl⟩
  | preloader => exact ⟨trivial, rfl⟩
  | leader key flight value => cases exn <;> exact ⟨trivial, rfl⟩

/-- Counting does not look at the phase. -/
theorem Caller.count_inPhase (caller : Caller α V T) (s : Shared α V cfg) (completed : Bool) (life : LifecycleState)
    (stop : Bool) : caller.count (s.inPhase life stop) completed = (caller.count s completed).inPhase life stop := by
  cases caller <;> rfl

/-- Starting to enqueue does not look at the phase. -/
theorem enqueueOr_inPhase {ts : List (Ticket α V)} {caller : Caller α V T} (h : enqueueOr u ts caller = (s', th'))
    (life : LifecycleState) (stop : Bool) :
    enqueueOr (u.inPhase life stop) ts caller = (s'.inPhase life stop, th') ∧ th'.InRange cfg ∧ th'.deletes = 0 := by
  cases ts with
  | nil =>
      cases h
      exact ⟨by rw [enqueueOr, caller.count_inPhase], caller.inRange_returned⟩
  | cons t ts =>
      cases h
      exact ⟨rfl, trivial, rfl⟩

/-- A section on one shard does not look at the phase. -/
theorem onShard_inPhase {i : ℕ} {f : CacheShard α V T → CacheShard α V T} (h : s.onShard i f = some u)
    (life : LifecycleState) (stop : Bool) : (s.inPhase life stop).onShard i f = some (u.inPhase life stop) := by
  obtain ⟨hi, rfl⟩ := Shared.onShard_eq_some.mp h
  exact Shared.onShard_eq_some.mpr ⟨hi, rfl⟩

/-- **The phase of the cache does not matter to a call** that is past its lifecycle check. -/
theorem clientStep_inPhase (h : clientStep hash s c th = some (s', th'))
    (hpast : ∀ op caller, th ≠ .entering op caller) (life : LifecycleState) (stop : Bool) :
    clientStep hash (s.inPhase life stop) c th = some (s'.inPhase life stop, th') ∧ th'.InRange cfg ∧
      th'.deletes = 0 := by
  cases th with
  | entering op caller => exact absurd rfl (hpast op caller)
  | running op caller =>
      cases op with
      | put key value ttl =>
          have hsection : (s.inPhase life stop).putSection hash key value ttl (c.ok key) =
              ((s.putSection hash key value ttl (c.ok key)).1.inPhase life stop,
                (s.putSection hash key value ttl (c.ok key)).2) := rfl
          simp only [clientStep] at h ⊢
          rw [hsection]
          split_ifs at h ⊢
          · cases h
            exact ⟨by rw [caller.count_inPhase], caller.inRange_raised _⟩
          · obtain ⟨henqueue, hrange⟩ := enqueueOr_inPhase (Option.some.inj h) life stop
            exact ⟨congrArg some henqueue, hrange⟩
      | delete key =>
          have hsection : (s.inPhase life stop).deleteSection hash key (c.ok key) =
              ((s.deleteSection hash key (c.ok key)).1.inPhase life stop,
                (s.deleteSection hash key (c.ok key)).2) := rfl
          simp only [clientStep] at h ⊢
          rw [hsection]
          split_ifs at h ⊢
          · cases h
            exact ⟨rfl, trivial, rfl⟩
          · obtain ⟨henqueue, hrange⟩ := enqueueOr_inPhase (Option.some.inj h) life stop
            exact ⟨congrArg some henqueue, hrange⟩
      | getOrCompute key ttl =>
          have hsame : ((s.inPhase life stop).shards (shardFor cfg hash key)).getOrComputeLocked key
              (s.inPhase life stop).now (s.inPhase life stop).flights.length =
              (s.shards (shardFor cfg hash key)).getOrComputeLocked key s.now s.flights.length := rfl
          simp only [clientStep] at h ⊢
          rw [hsame]
          split at h <;> cases h <;> exact ⟨rfl, trivial, rfl⟩
      | close flush => cases h
      | _ =>
          cases h
          exact ⟨rfl, trivial, rfl⟩
  | clearing i ts =>
      simp only [clientStep] at h ⊢
      by_cases hi : i < cfg.shardCount
      · have hsection : (s.inPhase life stop).clearSection ⟨i, hi⟩ c.ok =
            ((s.clearSection ⟨i, hi⟩ c.ok).1.inPhase life stop, (s.clearSection ⟨i, hi⟩ c.ok).2) := rfl
        simp only [dif_pos hi] at h ⊢
        rw [hsection]
        split_ifs at h ⊢ <;> cases h <;> exact ⟨rfl, trivial, rfl⟩
      · simp only [dif_neg hi] at h ⊢
        obtain ⟨henqueue, hrange⟩ := enqueueOr_inPhase (Option.some.inj h) life stop
        exact ⟨congrArg some henqueue, hrange⟩
  | sizing i total =>
      simp only [clientStep] at h ⊢
      split_ifs at h ⊢ <;> cases h <;> exact ⟨rfl, trivial, rfl⟩
  | dumping i taken limit =>
      simp only [clientStep] at h ⊢
      split_ifs at h ⊢ <;> cases h <;> exact ⟨rfl, trivial, rfl⟩
  | expiring i removed =>
      simp only [clientStep] at h ⊢
      split_ifs at h ⊢ <;> cases h <;> exact ⟨rfl, trivial, rfl⟩
  | enqueuing ts caller =>
      cases ts with
      | nil =>
          cases h
          exact ⟨by rw [clientStep, caller.count_inPhase], caller.inRange_returned⟩
      | cons t ts =>
          have hrej : (s.inPhase life stop).rejects c t = s.rejects c t := rfl
          have hfull : (s.inPhase life stop).queue.full cfg.queueSize = s.queue.full cfg.queueSize := rfl
          have hlose : (s.inPhase life stop).lose (t :: ts) = (s.lose (t :: ts)).inPhase life stop := rfl
          simp only [clientStep] at h ⊢
          rw [hrej, hfull, hlose]
          split_ifs at h ⊢
          · cases h
            exact ⟨by rw [caller.count_inPhase], caller.inRange_raised _⟩
          · cases h
            exact ⟨rfl, trivial, rfl⟩
          · obtain ⟨henqueue, hrange⟩ := enqueueOr_inPhase (Option.some.inj h) life stop
            exact ⟨congrArg some henqueue, hrange⟩
  | releasing ts caller =>
      cases ts with
      | nil =>
          cases h
          exact ⟨by rw [clientStep, caller.count_inPhase], caller.inRange_raised _⟩
      | cons t ts =>
          obtain ⟨s₁, hs₁, heq⟩ := Option.map_eq_some_iff.mp h
          cases heq
          exact ⟨by rw [clientStep, onShard_inPhase hs₁]; rfl, trivial, rfl⟩
  | leading key ttl flight =>
      cases h
      exact ⟨rfl, trivial, rfl⟩
  | loading key ttl flight =>
      simp only [clientStep] at h ⊢
      split at h <;> cases h <;> exact ⟨rfl, trivial, rfl⟩
  | publishing key flight value =>
      cases h
      exact ⟨rfl, trivial, rfl⟩
  | failing key flight exn =>
      cases h
      exact ⟨rfl, trivial, rfl⟩
  | waiting flight =>
      obtain ⟨rfl, -, rfl, f, hf, hevent, rfl⟩ := waiting_cases h
      refine ⟨?_, trivial, rfl⟩
      have hget : (s'.inPhase life stop).flights[flight]? = some f := hf
      simp only [clientStep, hget, hevent, if_true]
  | _ => cases h

/-- **Nor to a worker** that has a job. -/
theorem workerStep_inPhase (h : workerStep s c th = some (s', th')) (hidle : th ≠ .idle) (life : LifecycleState)
    (stop : Bool) :
    workerStep (s.inPhase life stop) c th = some (s'.inPhase life stop, th') ∧ th'.InRange cfg ∧
      th'.deletes = 0 := by
  cases th with
  | idle => exact absurd rfl hidle
  | handling job =>
      cases job with
      | expireShard i =>
          obtain ⟨s₁, hs₁, heq⟩ := Option.map_eq_some_iff.mp h
          cases heq
          have hnow : (s.inPhase life stop).now = s.now := rfl
          refine ⟨?_, trivial, rfl⟩
          rw [workerStep, hnow, onShard_inPhase hs₁]
          rfl
      | snapshotStats id =>
          cases h
          exact ⟨rfl, trivial, rfl⟩
      | preloadKey i key ttl =>
          simp only [workerStep] at h ⊢
          split at h <;> cases h <;> exact ⟨rfl, trivial, rfl⟩
      | flushWriteBack t =>
          by_cases hi : t.job.shardIndex < cfg.shardCount
          · have hsame : (s.inPhase life stop).shards ⟨t.job.shardIndex, hi⟩ = s.shards ⟨t.job.shardIndex, hi⟩ := rfl
            simp only [workerStep, dif_pos hi] at h ⊢
            rw [hsame]
            split_ifs at h ⊢ <;> cases h <;> exact ⟨rfl, trivial, rfl⟩
          · simp only [workerStep, dif_neg hi] at h
            cases h
      | stopWorker =>
          cases h
          exact ⟨rfl, trivial, rfl⟩
  | checked t =>
      simp only [workerStep] at h ⊢
      split_ifs at h ⊢ <;> cases h <;> exact ⟨rfl, trivial, rfl⟩
  | failed t =>
      have hrej : (s.inPhase life stop).rejects c t.retry = s.rejects c t.retry := rfl
      have hfull : (s.inPhase life stop).queue.full cfg.queueSize = s.queue.full cfg.queueSize := rfl
      simp only [workerStep] at h ⊢
      rw [hrej, hfull]
      split_ifs at h ⊢ <;> cases h <;> exact ⟨rfl, trivial, rfl⟩
  | dropped t =>
      obtain ⟨s₁, hs₁, heq⟩ := Option.map_eq_some_iff.mp h
      cases heq
      exact ⟨by rw [workerStep, onShard_inPhase hs₁]; rfl, trivial, rfl⟩
  | landed t =>
      obtain ⟨s₁, hs₁, heq⟩ := Option.map_eq_some_iff.mp h
      cases heq
      exact ⟨by rw [workerStep, onShard_inPhase hs₁]; rfl, trivial, rfl⟩
  | finishing =>
      cases h
      exact ⟨rfl, trivial, rfl⟩
  | _ => cases h

/-- The point after the last job of a shard. -/
theorem inRange_closeNext (i : ℕ) : (closeNext cfg i : Thread α V T).InRange cfg := by
  unfold closeNext
  split_ifs with hi
  · exact hi
  · trivial

/-- **What a step of `close` does to the stop event**: only the step that stops the pool sets it. -/
theorem closeStep_stop (h : closeStep s c th = some (s', th')) (hrange : th.InRange cfg) :
    th'.InRange cfg ∧ (s'.stopEvent = s.stopEvent ∨ s'.stopEvent = true) ∧
      ((∃ failed, th' = .closeDrain failed) → s'.stopEvent = true ∨ s.poolStarted = false) := by
  cases th with
  | closeCollect i =>
      simp only [closeStep] at h
      split_ifs at h
      cases h
      exact ⟨hrange, .inl rfl, by simp⟩
  | closeEnqueue i ts =>
      cases ts with
      | nil =>
          cases h
          refine ⟨inRange_closeNext i, .inl rfl, ?_⟩
          unfold closeNext
          split_ifs <;> simp
      | cons t ts =>
          simp only [closeStep] at h
          split_ifs at h <;> cases h
          · exact ⟨trivial, .inl rfl, by simp⟩
          · exact ⟨hrange, .inl rfl, by simp⟩
          · exact ⟨hrange, .inl rfl, by simp⟩
  | closeRelease i ts =>
      cases ts with
      | nil =>
          cases h
          refine ⟨inRange_closeNext i, .inl rfl, ?_⟩
          unfold closeNext
          split_ifs <;> simp
      | cons t ts =>
          obtain ⟨s₁, hs₁, heq⟩ := Option.map_eq_some_iff.mp h
          obtain ⟨hi, rfl⟩ := Shared.onShard_eq_some.mp hs₁
          cases heq
          exact ⟨hrange, .inl rfl, by simp⟩
  | closeJoin =>
      simp only [closeStep] at h
      split_ifs at h <;> cases h <;> exact ⟨trivial, .inl rfl, by simp⟩
  | syncCollect i failed =>
      simp only [closeStep] at h
      split_ifs at h with hi <;> cases h
      · exact ⟨hi, .inl rfl, by simp⟩
      · exact ⟨trivial, .inl rfl, by simp⟩
      · exact ⟨trivial, .inl rfl, by simp⟩
  | syncNext i ts failed =>
      cases ts with
      | nil =>
          cases h
          exact ⟨trivial, .inl rfl, by simp⟩
      | cons t ts =>
          simp only [closeStep] at h
          split_ifs at h <;> cases h <;> exact ⟨hrange, .inl rfl, by simp⟩
  | syncTry i t left ts failed =>
      simp only [closeStep] at h
      split_ifs at h
      · cases h
        cases t.job.operation <;> exact ⟨hrange, .inl rfl, by simp⟩
      · cases left <;> cases h <;> exact ⟨hrange, .inl rfl, by simp⟩
  | syncClean i t ts failed =>
      obtain ⟨s₁, hs₁, heq⟩ := Option.map_eq_some_iff.mp h
      obtain ⟨hi, rfl⟩ := Shared.onShard_eq_some.mp hs₁
      cases heq
      exact ⟨hrange, .inl rfl, by simp⟩
  | syncSettle i t success ts failed =>
      obtain ⟨s₁, hs₁, heq⟩ := Option.map_eq_some_iff.mp h
      obtain ⟨hi, rfl⟩ := Shared.onShard_eq_some.mp hs₁
      cases success <;> cases heq <;> exact ⟨hrange, .inl rfl, by simp⟩
  | closeStop failed =>
      simp only [closeStep] at h
      split_ifs at h with hstarted <;> cases h
      · exact ⟨trivial, .inr rfl, fun _ => .inl rfl⟩
      · exact ⟨trivial, .inl rfl, fun _ => .inr (by simpa using hstarted)⟩
  | closeDrain failed =>
      cases h
      exact ⟨trivial, .inl rfl, by simp⟩
  | _ => cases h

/-- Past the lifecycle check, a call is no `close`. -/
theorem role_of_clientStep (h : clientStep hash s c th = some (s', th'))
    (hpast : ∀ op caller, th ≠ .entering op caller) : th.role ≠ .closer := by
  intro hrole
  rcases Thread.shutting_of_role hrole with hshut | ⟨flush, caller, rfl⟩
  · cases th <;> first | (cases hshut; done) | cases h
  · exact hpast _ _ rfl

/-- A step of a call leaves the stop event alone. -/
theorem clientStep_stop (h : clientStep hash s c th = some (s', th')) :
    th'.InRange cfg ∧ s'.stopEvent = s.stopEvent := by
  by_cases hpast : ∃ op caller, th = .entering op caller
  · obtain ⟨op, caller, rfl⟩ := hpast
    rcases entering_cases h with
      ⟨rfl, ⟨exn, rfl⟩, -⟩ | ⟨rfl, rfl, -, -, -, hop⟩ | ⟨rfl, rfl, -⟩ | ⟨rfl, -, -, flush, -, rfl⟩
    · refine ⟨(caller.inRange_raised exn).1, ?_⟩
      cases caller <;> rfl
    · exact ⟨hop, rfl⟩
    · exact ⟨trivial, rfl⟩
    · refine ⟨?_, rfl⟩
      split_ifs
      · exact cfg.shardCount_pos
      · trivial
  · obtain ⟨hsame, hrange, -⟩ :=
      clientStep_inPhase h (fun op caller hth => hpast ⟨op, caller, hth⟩) s.lifecycle s.stopEvent
    have heq : s'.inPhase s.lifecycle s.stopEvent = s' := (Prod.mk.inj (Option.some.inj (hsame.symm.trans h))).1
    exact ⟨hrange, (congrArg Shared.stopEvent heq).symm⟩

/-- Nor does a worker touch it. -/
theorem workerStep_stop (h : workerStep s c th = some (s', th')) (hjobs : ∀ job ∈ s.queue.items, job.InRange cfg) :
    th'.InRange cfg ∧ s'.stopEvent = s.stopEvent := by
  by_cases hidle : th = .idle
  · subst hidle
    simp only [workerStep] at h
    split at h
    · next job rest hitems =>
        cases h
        refine ⟨hjobs job ?_, rfl⟩
        rw [hitems]
        exact List.mem_cons_self
    · split_ifs at h
      cases h
      exact ⟨trivial, rfl⟩
  · obtain ⟨hsame, hrange, -⟩ := workerStep_inPhase h hidle s.lifecycle s.stopEvent
    have heq : s'.inPhase s.lifecycle s.stopEvent = s' := (Prod.mk.inj (Option.some.inj (hsame.symm.trans h))).1
    exact ⟨hrange, (congrArg Shared.stopEvent heq).symm⟩

/-- **What a step of a thread does to the stop event.** -/
theorem threadStep_stop (h : threadStep hash s c th = some (s', th')) (hcontrol : Control s th s' th')
    (hrange : th.InRange cfg) (hjobs : ∀ job ∈ s.queue.items, job.InRange cfg) :
    th'.InRange cfg ∧ (s'.stopEvent = s.stopEvent ∨ s'.stopEvent = true) ∧
      ((∃ failed, th' = .closeDrain failed) → s'.stopEvent = true ∨ s.poolStarted = false) := by
  have hdrain : th.role ≠ .closer → ¬ ∃ failed, th' = .closeDrain failed := by
    rintro hrole ⟨failed, rfl⟩
    have hshut := shutting_eq_false_of_control hcontrol hrole
    cases hshut
  rcases threadStep_cases h with hstep | hstep | hstep
  · obtain ⟨hrange', heq⟩ := clientStep_stop hstep
    refine ⟨hrange', .inl heq, ?_⟩
    by_cases hpast : ∃ op caller, th = .entering op caller
    · obtain ⟨op, caller, rfl⟩ := hpast
      rintro ⟨failed, rfl⟩
      rcases entering_cases hstep with ⟨-, ⟨exn, hth⟩, -⟩ | ⟨-, hth, -⟩ | ⟨-, hth, -⟩ | ⟨-, -, -, flush, -, hth⟩
      · cases caller with
        | leader key flight value => cases exn <;> cases hth
        | client result => cases hth
        | preloader => cases hth
      · cases hth
      · cases hth
      · split_ifs at hth
    · have hrole := role_of_clientStep hstep fun op caller hth => hpast ⟨op, caller, hth⟩
      intro hth
      exact absurd hth (hdrain hrole)
  · obtain ⟨hrange', heq⟩ := workerStep_stop hstep hjobs
    refine ⟨hrange', .inl heq, ?_⟩
    intro hth
    refine absurd hth (hdrain ?_)
    rw [role_of_workerStep hstep]
    decide
  · exact closeStep_stop hstep hrange

/-! ### The jobs -/

/-- A flush job names its shard only. -/
theorem inRange_flushOffer (t : Ticket α V) :
    ∀ offer ∈ (flushOffer cfg t : List (Job α V T × Bool)), offer.1.InRange cfg := by
  intro offer hoffer
  unfold flushOffer at hoffer
  split_ifs at hoffer
  · cases hoffer
  · obtain rfl := List.mem_singleton.mp hoffer
    trivial

/-- No thread offers a sweep. -/
theorem Thread.inRange_offers (s : Shared α V cfg) (th : Thread α V T) :
    ∀ offer ∈ th.offers hash s, offer.1.InRange cfg := by
  intro offer hoffer
  cases th with
  | running op caller =>
      cases op with
      | preload key ttl =>
          obtain rfl := List.mem_singleton.mp hoffer
          trivial
      | requestSnapshot id =>
          obtain rfl := List.mem_singleton.mp hoffer
          trivial
      | _ => cases hoffer
  | enqueuing ts caller =>
      cases ts with
      | nil => cases hoffer
      | cons t ts => exact inRange_flushOffer t offer hoffer
  | failed t =>
      have hretry : offer ∈ if 0 < t.job.retriesLeft then flushOffer cfg t.retry else [] := hoffer
      split_ifs at hretry
      · exact inRange_flushOffer t.retry offer hretry
      · cases hretry
  | closeEnqueue i ts =>
      cases ts with
      | nil => cases hoffer
      | cons t ts => exact inRange_flushOffer t offer hoffer
  | closeStop failed =>
      have hstop : offer ∈ if s.poolStarted then List.replicate cfg.workerCount (.stopWorker, false) else [] := hoffer
      split_ifs at hstop
      · rw [List.eq_of_mem_replicate hstop]
        trivial
      · cases hstop
  | _ => cases hoffer

/-- What leaves the queue is not accepted then. -/
theorem Thread.accepted_leaving (s : Shared α V cfg) (th : Thread α V T) :
    (th.leaving s).filterMap QueueNote.accepted? = [] := by
  cases th with
  | idle =>
      unfold Thread.leaving
      cases s.queue.items.head? <;> rfl
  | closeDrain failed => exact (filterMap_discarded s.queue.items).1
  | _ => rfl

/-- What was accepted was offered. -/
theorem mem_offers_of_accepted {maxsize length : ℕ} {offers : List (Job α V T × Bool)} {job : Job α V T}
    (h : job ∈ (noteOffers maxsize length offers).filterMap QueueNote.accepted?) :
    ∃ counted, (job, counted) ∈ offers := by
  induction offers generalizing length with
  | nil => cases h
  | cons offer offers ih =>
      obtain ⟨job', counted⟩ := offer
      unfold noteOffers at h
      split_ifs at h
      · obtain ⟨counted', hmem⟩ := ih h
        exact ⟨counted', List.mem_cons_of_mem _ hmem⟩
      · rcases List.mem_cons.mp h with rfl | hrest
        · exact ⟨counted, List.mem_cons_self⟩
        · obtain ⟨counted', hmem⟩ := ih hrest
          exact ⟨counted', List.mem_cons_of_mem _ hmem⟩

/-- **The queued jobs keep naming shards that exist.** -/
theorem threadStep_jobs (h : threadStep hash s c th = some (s', th'))
    (hjobs : ∀ job ∈ s.queue.items, job.InRange cfg) :
    ∀ job ∈ s'.queue.items, job.InRange cfg := by
  intro job hjob
  have hitems := (threadStep_queues h).items
  have hmem := List.mem_append_right
    ((th.leaving s ++ noteOffers cfg.queueSize s.queue.items.length (th.offers hash s)).filterMap QueueNote.left?) hjob
  rw [← hitems, List.filterMap_append] at hmem
  rcases List.mem_append.mp hmem with hold | hnew
  · exact hjobs job hold
  · rw [th.accepted_leaving s, List.nil_append] at hnew
    obtain ⟨counted, hoffer⟩ := mem_offers_of_accepted hnew
    exact th.inRange_offers s _ hoffer

end Steps

/-! ### Runs -/

/-- **What the waits of a shutdown rely on.** -/
structure Attended (hash : Key α → ℕ) (s : System α V cfg) : Prop where
  base : Base hash s
  flights : FlightsOk hash s
  solo : Solo s
  jobs : ∀ job ∈ s.shared.queue.items, job.InRange cfg
  points : ∀ th ∈ s.threads, th.InRange cfg
  /-- Whoever waits for the end of a `close` waits for a thread in it. -/
  closing : s.shared.lifecycle = .closing → ∃ th ∈ s.threads, th.shutting = true
  fresh : s.shared.lifecycle = .created → s.shared.poolStarted = false
  staff : ∀ th ∈ s.threads, th.role = .worker → s.shared.poolStarted = true ∨ s.shared.stopEvent = true
  /-- Once `close` is about to drain the queue, the workers are told to stop. -/
  told : (s.shared.lifecycle = .closed ∨ ∃ failed, .closeDrain failed ∈ s.threads) →
    ∀ th ∈ s.threads, th.role = .worker → s.shared.stopEvent = true

/-- The new point of a thread that moved. -/
theorem mem_set_self {β : Type} {l : List β} {i : ℕ} {b : β} (hi : l[i]? = some b) (b' : β) : b' ∈ l.set i b' := by
  obtain ⟨hlt, -⟩ := List.getElem?_eq_some_iff.mp hi
  exact List.mem_of_getElem? (List.getElem?_set_self hlt)

/-- Whoever did not move is still there. -/
theorem eq_or_mem_set {β : Type} {l : List β} {i : ℕ} {b x : β} (hi : l[i]? = some b) (hx : x ∈ l) (b' : β) :
    b = x ∨ x ∈ l.set i b' := by
  obtain ⟨j, hj⟩ := List.mem_iff_getElem?.mp hx
  by_cases hij : i = j
  · subst hij
    exact .inl (Option.some.inj (hi.symm.trans hj))
  · refine .inr (List.mem_of_getElem? (i := j) ?_)
    rw [List.getElem?_set_ne hij]
    exact hj

/-- A fresh cache. -/
theorem attended_initial (cfg : AcceptedConfig T) (hash : Key α → ℕ) (now : T) (src : Source α V) :
    Attended hash (initial cfg now src) where
  base := base_initial cfg hash now src
  flights := flightsOk_initial cfg hash now src
  solo i th hi := by cases hi
  jobs job hjob := by cases hjob
  points th hth := by cases hth
  closing h := by cases h
  fresh _ := rfl
  staff th hth := by cases hth
  told _ th hth := by cases hth

section Run

variable {s s' : System α V cfg} {l : Label α V T}

section Moved

variable {i : ℕ} {c : Choice α V} {th th' : Thread α V T}

/-- No step makes a worker. -/
theorem exists_worker_of_moved (hi : s.threads[i]? = some th) (hset : s'.threads = s.threads.set i th')
    (hcontrol : Control s.shared th s'.shared th') {x : Thread α V T} (hx : x ∈ s'.threads)
    (hworker : x.role = .worker) : ∃ y ∈ s.threads, y.role = .worker := by
  rw [hset] at hx
  rcases List.mem_or_eq_of_mem_set hx with hx | rfl
  · exact ⟨x, hx, hworker⟩
  · rcases hcontrol.role with hrole | ⟨-, result, rfl⟩
    · exact ⟨th, List.mem_of_getElem? hi, hrole ▸ hworker⟩
    · cases hworker

/-- While the lifecycle says `closing`, some thread is in `close`. -/
theorem Attended.moved_closing (h : Attended hash s) (hi : s.threads[i]? = some th)
    (hr : threadStep hash s.shared c th = some (s'.shared, th')) (hset : s'.threads = s.threads.set i th')
    (hclosing : s'.shared.lifecycle = .closing) : ∃ x ∈ s'.threads, x.shutting = true := by
  by_cases hbefore : s.shared.lifecycle = .closing
  · obtain ⟨x, hx, hshut⟩ := h.closing hbefore
    rcases eq_or_mem_set hi hx th' with rfl | hstays
    · -- the thread in `close` is the one that moves
      have hclose := closeStep_of_shutting hshut hr
      rcases (closeStep_shutting hclose).2 with hshut' | ⟨failed, rfl⟩ | ⟨m, t, ts, -, -, hleft, -⟩
      · exact ⟨th', hset ▸ mem_set_self hi th', hshut'⟩
      · have hclosed := congrArg (fun r => r.1.lifecycle) (Option.some.inj hclose)
        rw [← hclosed] at hclosing
        cases hclosing
      · rw [hleft] at hclosing
        exact absurd hclosing (LifecycleState.released_ne_closing _)
    · exact ⟨x, hset ▸ hstays, hshut⟩
  · rcases threadStep_phase hr with hsame | ⟨flush, caller, rfl, -⟩ | ⟨failed, rfl, hclosed⟩ |
      ⟨m, t, ts, -, -, hleft, -⟩
    · exact absurd ((congrArg Prod.fst hsame).symm.trans hclosing) hbefore
    · rcases entering_cases (clientStep_of_threadStep hr rfl rfl) with
        ⟨-, -, hop⟩ | ⟨-, -, -, -, -, hop⟩ | ⟨hsame, -⟩ | ⟨-, -, -, flush', -, rfl⟩
      · exact absurd rfl (hop flush)
      · exact absurd rfl (hop flush)
      · exact absurd ((congrArg Shared.lifecycle hsame).symm.trans hclosing) hbefore
      · refine ⟨_, hset ▸ mem_set_self hi _, ?_⟩
        split_ifs <;> rfl
    · rw [hclosed] at hclosing
      cases hclosing
    · rw [hleft] at hclosing
      exact absurd hclosing (LifecycleState.released_ne_closing _)

/-- Workers come with a started pool, or they are told to stop. -/
theorem Attended.moved_staff (h : Attended hash s) (hmem : th ∈ s.threads)
    (hr : threadStep hash s.shared c th = some (s'.shared, th'))
    (hkept : s.shared.stopEvent = true → s'.shared.stopEvent = true)
    (hworker : ∃ y ∈ s.threads, y.role = .worker) :
    s'.shared.poolStarted = true ∨ s'.shared.stopEvent = true := by
  obtain ⟨y, hy, hyworker⟩ := hworker
  rcases h.staff y hy hyworker with hpool | hstopped
  · rcases threadStep_phase hr with hsame | ⟨flush, caller, -, hsame⟩ | ⟨failed, rfl, -⟩ | ⟨m, t, ts, -, -, hleft, -⟩
    · exact .inl ((congrArg Prod.snd hsame).trans hpool)
    · exact .inl ((congrArg Prod.snd hsame).trans hpool)
    · exact .inr (hkept (h.told (.inr ⟨failed, hmem⟩) y hy hyworker))
    · rw [hleft]
      exact .inl hpool
  · exact .inr (hkept hstopped)

/-- Where the queue is about to be drained, or the cache is closed, the workers are told to stop. -/
theorem Attended.moved_told (h : Attended hash s) (hmem : th ∈ s.threads)
    (hr : threadStep hash s.shared c th = some (s'.shared, th')) (hset : s'.threads = s.threads.set i th')
    (hkept : s.shared.stopEvent = true → s'.shared.stopEvent = true)
    (hdrains : (∃ failed, th' = .closeDrain failed) → s'.shared.stopEvent = true ∨ s.shared.poolStarted = false)
    (hlate : s'.shared.lifecycle = .closed ∨ ∃ failed, .closeDrain failed ∈ s'.threads)
    (hworker : ∃ y ∈ s.threads, y.role = .worker) : s'.shared.stopEvent = true := by
  obtain ⟨y, hy, hyworker⟩ := hworker
  rcases hlate with hclosed | ⟨failed, hdrain⟩
  · by_cases hbefore : s.shared.lifecycle = .closed
    · exact hkept (h.told (.inl hbefore) y hy hyworker)
    · rcases threadStep_phase hr with
        hsame | ⟨flush, caller, -, hsame⟩ | ⟨failed, rfl, -⟩ | ⟨m, t, ts, -, -, hleft, -⟩
      · exact absurd ((congrArg Prod.fst hsame).symm.trans hclosed) hbefore
      · cases (congrArg Prod.fst hsame).symm.trans hclosed
      · exact hkept (h.told (.inr ⟨failed, hmem⟩) y hy hyworker)
      · rw [hleft] at hclosed
        exact absurd (LifecycleState.released_eq_iff (by decide) (by decide) |>.mp hclosed) hbefore
  · rw [hset] at hdrain
    rcases List.mem_or_eq_of_mem_set hdrain with hdrain | hth
    · exact hkept (h.told (.inr ⟨failed, hdrain⟩) y hy hyworker)
    · -- the thread just got there; without a started pool there are no workers to be told
      rcases hdrains ⟨failed, hth.symm⟩ with hstopped | hpool
      · exact hstopped
      · rcases h.staff y hy hyworker with hpool' | hstopped
        · rw [hpool] at hpool'
          cases hpool'
        · exact hkept hstopped

/-- **A thread moves.** -/
theorem Attended.moved (h : Attended hash s) (hi : s.threads[i]? = some th)
    (hr : threadStep hash s.shared c th = some (s'.shared, th')) (hset : s'.threads = s.threads.set i th')
    (hbase : Base hash s') (hflights : FlightsOk hash s') : Attended hash s' := by
  have hmem := List.mem_of_getElem? hi
  have hcontrol := threadStep_control hr (h.base.threads th hmem).1 (h.base.threads th hmem).2
    fun i => (h.base.shards i).index_eq
  obtain ⟨hrange, hstop, hdrains⟩ := threadStep_stop hr hcontrol (h.points th hmem) h.jobs
  have hkept : s.shared.stopEvent = true → s'.shared.stopEvent = true := by
    intro hstopped
    rcases hstop with heq | htrue
    · exact heq.trans hstopped
    · exact htrue
  refine ⟨hbase, hflights, h.solo.moved hi hr hcontrol hset, threadStep_jobs hr h.jobs, ?_,
    h.moved_closing hi hr hset, ?_, ?_, ?_⟩
  · rw [hset]
    exact forall_mem_set h.points hrange
  · intro hcreated
    rcases threadStep_phase hr with
      hsame | ⟨flush, caller, -, hsame⟩ | ⟨failed, -, hclosed⟩ | ⟨m, t, ts, -, -, hleft, -⟩
    · exact (congrArg Prod.snd hsame).trans (h.fresh ((congrArg Prod.fst hsame).symm.trans hcreated))
    · cases (congrArg Prod.fst hsame).symm.trans hcreated
    · cases hclosed.symm.trans hcreated
    · rw [hleft] at hcreated ⊢
      exact h.fresh (LifecycleState.released_eq_iff (by decide) (by decide) |>.mp hcreated)
  · intro x hx hworker
    exact h.moved_staff hmem hr hkept (exists_worker_of_moved hi hset hcontrol hx hworker)
  · intro hlate x hx hworker
    exact h.moved_told hmem hr hset hkept hdrains hlate (exists_worker_of_moved hi hset hcontrol hx hworker)

end Moved

/-- **Every step keeps it.** -/
theorem Attended.step (h : Attended hash s) (hs : CacheLab.step cfg hash s l = some s') : Attended hash s' := by
  have hbase := h.base.step hs
  have hflights := h.flights.step hs
  cases l with
  | tick now =>
      simp only [CacheLab.step] at hs
      split_ifs at hs
      cases hs
      exact ⟨hbase, hflights, h.solo, h.jobs, h.points, h.closing, h.fresh, h.staff, h.told⟩
  | start =>
      have hsolo := h.solo.env (fun i c hl => by cases hl) hs
      simp only [CacheLab.step] at hs
      split at hs
      · next hcreated =>
          cases hs
          have hstopped : ∀ th ∈ s.threads, th.role = .worker → s.shared.stopEvent = true := by
            intro th hth hworker
            rcases h.staff th hth hworker with hpool | hstopped
            · rw [h.fresh hcreated] at hpool
              cases hpool
            · exact hstopped
          have hidle : ∀ th ∈ List.replicate cfg.workerCount (Thread.idle : Thread α V T),
              th = .idle ∧ 0 < cfg.workerCount := by
            intro th hth
            exact ⟨List.eq_of_mem_replicate hth, Nat.pos_of_ne_zero (List.mem_replicate.mp hth).1⟩
          refine ⟨hbase, hflights, hsolo, h.jobs, ?_, ?_, ?_, ?_, ?_⟩
          · intro th hth
            rcases List.mem_append.mp hth with hth | hth
            · exact h.points th hth
            · obtain ⟨rfl, -⟩ := hidle th hth
              trivial
          · intro hclosing
            cases hclosing
          · intro hcreated'
            cases hcreated'
          · intro th hth hworker
            rcases List.mem_append.mp hth with hth | hth
            · exact .inr (hstopped th hth hworker)
            · obtain ⟨rfl, hpos⟩ := hidle th hth
              exact .inl (decide_eq_true hpos)
          · rintro (hclosed | ⟨failed, hdrain⟩) th hth hworker
            · cases hclosed
            · -- no thread is in `close` before the cache was started
              obtain ⟨j, hj⟩ := List.mem_iff_getElem?.mp hdrain
              have hclosing := (hsolo j _ hj rfl).1
              cases hclosing
      · cases hs
        exact h
      · cases hs
  | call op =>
      have hsolo := h.solo.env (fun i c hl => by cases hl) hs
      cases hs
      have hnew : ∀ th ∈ s.threads ++ [Thread.entering op (.client .done)], th.role = .worker → th ∈ s.threads := by
        intro th hth hworker
        rcases List.mem_append.mp hth with hth | hth
        · exact hth
        · rw [List.mem_singleton.mp hth] at hworker
          cases op <;> cases hworker
      refine ⟨hbase, hflights, hsolo, h.jobs, ?_, ?_, h.fresh, ?_, ?_⟩
      · intro th hth
        rcases List.mem_append.mp hth with hth | hth
        · exact h.points th hth
        · rw [List.mem_singleton.mp hth]
          trivial
      · intro hclosing
        obtain ⟨th, hth, hshut⟩ := h.closing hclosing
        exact ⟨th, List.mem_append_left _ hth, hshut⟩
      · intro th hth hworker
        exact h.staff th (hnew th hth hworker) hworker
      · intro hlate th hth hworker
        refine h.told ?_ th (hnew th hth hworker) hworker
        rcases hlate with hclosed | ⟨failed, hdrain⟩
        · exact .inl hclosed
        · rcases List.mem_append.mp hdrain with hdrain | hdrain
          · exact .inr ⟨failed, hdrain⟩
          · cases List.mem_singleton.mp hdrain
  | schedule i =>
      have hsolo := h.solo.env (fun i c hl => by cases hl) hs
      simp only [CacheLab.step] at hs
      split_ifs at hs with hi
      cases hs
      refine ⟨hbase, hflights, hsolo, ?_, h.points, h.closing, h.fresh, h.staff, h.told⟩
      intro job hjob
      have hpush : job ∈ s.shared.queue.items ∨ job = .expireShard i := by
        unfold CacheJobQueue.putNowait at hjob
        split_ifs at hjob
        · exact .inl hjob
        · rcases List.mem_append.mp hjob with hold | hnew
          · exact .inl hold
          · exact .inr (List.mem_singleton.mp hnew)
      rcases hpush with hold | rfl
      · exact h.jobs job hold
      · exact hi.1
  | run i c =>
      simp only [CacheLab.step, Option.bind_eq_some_iff, Option.map_eq_some_iff] at hs
      obtain ⟨th, hi, ⟨sh, th'⟩, hr, rfl⟩ := hs
      exact h.moved hi hr rfl hbase hflights

end Run

end CacheLab
