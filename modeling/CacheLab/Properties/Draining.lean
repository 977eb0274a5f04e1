import CacheLab.System.Closing
import CacheLab.System.FlushBooks

/-!
# Draining the queue

The cache is started, `close` was not called, and from some moment on nobody but the workers moves: no calls,
no ticks of the scheduler. Then the queue drains.

* Every step of a worker lowers the `load` of the system, so there are finitely many of them. A flush job
  weighs more than its retry, and a preload more than the flush job of its put.
* While there is work, some worker can move (`exists_worker_step`): none is stopped, none waits.
* The books of the whole run are right (`Booked`): an accepted job is tried at most as often as the retry
  count allows, and no unfinished task means that every accepted job has had its one outcome, or was lost.

A job is lost when enqueuing its retry raises `ValueError`: the queue is full, and there is no text for the
exception that says so. `draining_loses_retry` is such a run; `draining` says that there is no other way.
-/

set_option linter.unusedSectionVars false

namespace CacheLab

variable {α V T : Type} [DecidableEq α] [LinearOrder T] [Zero T] [Add T] [Sub T]

open WriteBehind

variable {cfg : AcceptedConfig T} {hash : Key α → ℕ}

/-! ### Jobs that can run -/

/-- A job that a worker can handle and go on. -/
def Job.Runs (cfg : AcceptedConfig T) : Job α V T → Prop
  | .expireShard i => i < cfg.shardCount
  | .stopWorker => False
  | _ => True

/-- A worker that can go on. -/
def Thread.Runs (cfg : AcceptedConfig T) : Thread α V T → Prop
  | .handling job => job.Runs cfg
  | .stopped => False
  | _ => True

/-- Before `close` is called, nothing stops a worker. -/
structure Shared.Runs (s : Shared α V cfg) : Prop where
  stop : s.stopEvent = false
  jobs : ∀ job ∈ s.queue.items, job.Runs cfg

section Runs

variable {s s' : Shared α V cfg} {c : Choice α V} {th th' : Thread α V T}

/-- Another job that can run. -/
theorem Shared.Runs.push (h : s.Runs) {job : Job α V T} (hjob : job.Runs cfg) :
    ∀ j ∈ (s.queue.push job).items, j.Runs cfg := by
  intro j hj
  rcases List.mem_append.mp hj with hold | hnew
  · exact h.jobs j hold
  · rw [List.mem_singleton.mp hnew]
    exact hjob

/-- See `Shared.Runs.push`. -/
theorem Shared.Runs.putNowait (h : s.Runs) {job : Job α V T} (hjob : job.Runs cfg) :
    ∀ j ∈ (s.queue.putNowait cfg.queueSize job).items, j.Runs cfg := by
  unfold CacheJobQueue.putNowait
  split_ifs
  · exact h.jobs
  · exact h.push hjob

/-- Lost jobs were not in the queue. -/
theorem Shared.Runs.lose (h : s.Runs) (ts : List (Ticket α V)) : (s.lose ts).Runs :=
  ⟨h.stop, fun job hjob => h.jobs job (s.items_lose ts ▸ hjob)⟩

/-- Counting changes nothing here. -/
theorem Shared.Runs.callerCount (h : s.Runs) (caller : Caller α V T) (completed : Bool) :
    (caller.count s completed).Runs := by
  cases caller <;> exact ⟨h.stop, h.jobs⟩

/-- A caller that is told that its put is over can go on. -/
theorem Caller.runs_raised (caller : Caller α V T) (exn : Exn) :
    (caller.raised exn : Thread α V T).Runs cfg := by
  cases caller with
  | client result => trivial
  | preloader => trivial
  | leader key flight value => cases exn <;> trivial

/-- See `Caller.runs_raised`. -/
theorem Caller.runs_returned (caller : Caller α V T) : (caller.returned : Thread α V T).Runs cfg := by
  cases caller <;> trivial

/-- A thread that starts to enqueue can go on. -/
theorem enqueueOr_runs (h : s.Runs) (ts : List (Ticket α V)) (caller : Caller α V T) :
    (enqueueOr s ts caller).1.Runs ∧ (enqueueOr s ts caller).2.Runs cfg := by
  cases ts with
  | nil => exact ⟨h.callerCount caller true, caller.runs_returned⟩
  | cons t ts => exact ⟨h, trivial⟩

/-- A step inside a public operation stops no worker. -/
theorem clientStep_runs (hs : s.Runs) (hrole : th.role ≠ .closer)
    (h : clientStep hash s c th = some (s', th')) : s'.Runs ∧ th'.Runs cfg := by
  cases th with
  | entering op caller =>
      rcases entering_cases h with ⟨rfl, ⟨exn, rfl⟩, -⟩ | ⟨rfl, rfl, -⟩ | ⟨rfl, rfl, -⟩ | ⟨-, -, -, flush, rfl, -⟩
      · exact ⟨hs.callerCount caller false, caller.runs_raised exn⟩
      · exact ⟨hs, trivial⟩
      · exact ⟨hs, trivial⟩
      · exact absurd rfl hrole
  | running op caller =>
      cases op with
      | put key value ttl =>
          have hsection : (s.putSection hash key value ttl (c.ok key)).1.Runs := ⟨hs.stop, hs.jobs⟩
          simp only [clientStep] at h
          split_ifs at h
          · cases h
            exact ⟨hsection.callerCount caller false, caller.runs_raised _⟩
          · have hrun := enqueueOr_runs hsection (s.putSection hash key value ttl (c.ok key)).2.1 caller
            rwa [Option.some.inj h] at hrun
      | delete key =>
          simp only [clientStep] at h
          split_ifs at h
          · cases h
            exact ⟨⟨hs.stop, hs.jobs⟩, trivial⟩
          · have hsection : (s.deleteSection hash key (c.ok key)).1.Runs := ⟨hs.stop, hs.jobs⟩
            have hrun := enqueueOr_runs hsection (s.deleteSection hash key (c.ok key)).2.1
              (.client (.flag ((s.shards (shardFor cfg hash key)).backend.getEntry key).isSome) : Caller α V T)
            rwa [Option.some.inj h] at hrun
      | preload key ttl =>
          cases h
          exact ⟨⟨hs.stop, hs.putNowait trivial⟩, trivial⟩
      | requestSnapshot id =>
          cases h
          exact ⟨⟨hs.stop, hs.putNowait trivial⟩, trivial⟩
      | getOrCompute key ttl =>
          simp only [clientStep] at h
          split at h <;> cases h <;> exact ⟨⟨hs.stop, hs.jobs⟩, trivial⟩
      | _ => cases h <;> exact ⟨⟨hs.stop, hs.jobs⟩, trivial⟩
  | clearing i ts =>
      simp only [clientStep] at h
      split_ifs at h
      · cases h
        exact ⟨⟨hs.stop, hs.jobs⟩, trivial⟩
      · cases h
        exact ⟨⟨hs.stop, hs.jobs⟩, trivial⟩
      · have hrun := enqueueOr_runs hs ts (.client .done : Caller α V T)
        rwa [Option.some.inj h] at hrun
  | sizing i total =>
      simp only [clientStep] at h
      split_ifs at h <;> cases h <;> exact ⟨hs, trivial⟩
  | dumping i taken limit =>
      simp only [clientStep] at h
      split_ifs at h <;> cases h <;> exact ⟨⟨hs.stop, hs.jobs⟩, trivial⟩
  | expiring i removed =>
      simp only [clientStep] at h
      split_ifs at h <;> cases h <;> exact ⟨⟨hs.stop, hs.jobs⟩, trivial⟩
  | enqueuing ts caller =>
      cases ts with
      | nil =>
          cases h
          exact ⟨hs.callerCount caller true, caller.runs_returned⟩
      | cons t ts =>
          simp only [clientStep] at h
          split_ifs at h
          · cases h
            exact ⟨(hs.lose (t :: ts)).callerCount caller false, caller.runs_raised _⟩
          · cases h
            exact ⟨⟨hs.stop, hs.jobs⟩, trivial⟩
          · have hqueue : ({ s with queue := s.queue.push (.flushWriteBack t) } : Shared α V cfg).Runs :=
              ⟨hs.stop, hs.push trivial⟩
            have hrun := enqueueOr_runs hqueue ts caller
            rwa [Option.some.inj h] at hrun
  | releasing ts caller =>
      cases ts with
      | nil =>
          cases h
          exact ⟨hs.callerCount caller false, caller.runs_raised _⟩
      | cons t ts =>
          obtain ⟨s₁, hs₁, heq⟩ := Option.map_eq_some_iff.mp h
          obtain ⟨hlt, rfl⟩ := Shared.onShard_eq_some.mp hs₁
          cases heq
          exact ⟨⟨hs.stop, hs.jobs⟩, trivial⟩
  | leading key ttl flight =>
      cases h
      exact ⟨hs, trivial⟩
  | loading key ttl flight =>
      simp only [clientStep] at h
      split at h <;> cases h <;> exact ⟨hs, trivial⟩
  | publishing key flight value =>
      cases h
      exact ⟨⟨hs.stop, hs.jobs⟩, trivial⟩
  | failing key flight exn =>
      cases h
      exact ⟨⟨hs.stop, hs.jobs⟩, trivial⟩
  | waiting flight =>
      simp only [clientStep] at h
      split at h
      · cases h
      · split_ifs at h
        cases h
        exact ⟨hs, trivial⟩
  | _ => cases h

/-- A step of a worker stops no worker. -/
theorem workerStep_runs (hs : s.Runs) (hth : th.Runs cfg) (h : workerStep s c th = some (s', th')) :
    s'.Runs ∧ th'.Runs cfg := by
  cases th with
  | idle =>
      simp only [workerStep] at h
      split at h
      · next job rest hq =>
          cases h
          have hjobs := hs.jobs
          rw [hq] at hjobs
          exact ⟨⟨hs.stop, fun j hj => hjobs j (List.mem_cons_of_mem job hj)⟩, hjobs job List.mem_cons_self⟩
      · rw [hs.stop] at h
        cases h
  | handling job =>
      cases job with
      | stopWorker => exact hth.elim
      | expireShard i =>
          obtain ⟨s₁, hs₁, heq⟩ := Option.map_eq_some_iff.mp h
          obtain ⟨hlt, rfl⟩ := Shared.onShard_eq_some.mp hs₁
          cases heq
          exact ⟨⟨hs.stop, hs.jobs⟩, trivial⟩
      | snapshotStats id =>
          cases h
          exact ⟨⟨hs.stop, hs.jobs⟩, trivial⟩
      | preloadKey i key ttl =>
          simp only [workerStep] at h
          split at h <;> cases h <;> exact ⟨⟨hs.stop, hs.jobs⟩, trivial⟩
      | flushWriteBack t =>
          simp only [workerStep] at h
          split_ifs at h <;> cases h <;> exact ⟨⟨hs.stop, hs.jobs⟩, trivial⟩
  | checked t =>
      simp only [workerStep] at h
      split_ifs at h <;> cases h <;> exact ⟨⟨hs.stop, hs.jobs⟩, trivial⟩
  | failed t =>
      simp only [workerStep] at h
      split_ifs at h <;> cases h
      · have hlose := hs.lose [t.retry]
        exact ⟨⟨hlose.stop, hlose.jobs⟩, trivial⟩
      · exact ⟨⟨hs.stop, hs.jobs⟩, trivial⟩
      · exact ⟨⟨hs.stop, hs.push trivial⟩, trivial⟩
      · exact ⟨⟨hs.stop, hs.jobs⟩, trivial⟩
  | dropped t =>
      obtain ⟨s₁, hs₁, heq⟩ := Option.map_eq_some_iff.mp h
      obtain ⟨hlt, rfl⟩ := Shared.onShard_eq_some.mp hs₁
      cases heq
      exact ⟨⟨hs.stop, hs.jobs⟩, trivial⟩
  | landed t =>
      obtain ⟨s₁, hs₁, heq⟩ := Option.map_eq_some_iff.mp h
      obtain ⟨hlt, rfl⟩ := Shared.onShard_eq_some.mp hs₁
      cases heq
      exact ⟨⟨hs.stop, hs.jobs⟩, trivial⟩
  | finishing =>
      cases h
      exact ⟨⟨hs.stop, hs.jobs⟩, trivial⟩
  | _ => cases h

end Runs

/-- **The cache is open**: `close` was not called, and the workers, once started, go on. -/
structure Opened (hash : Key α → ℕ) (s : System α V cfg) : Prop where
  base : Base hash s
  roles : ∀ th ∈ s.threads, th.role ≠ .closer
  life : s.shared.lifecycle = .created ∨ s.shared.lifecycle = .started
  runs : s.shared.Runs
  going : ∀ th ∈ s.threads, th.Runs cfg
  staff : s.shared.lifecycle = .started → 0 < cfg.workerCount → ∃ th ∈ s.threads, th.role = .worker

/-- A fresh cache is open. -/
theorem opened_initial (cfg : AcceptedConfig T) (hash : Key α → ℕ) (now : T) (src : Source α V) :
    Opened hash (initial cfg now src) where
  base := base_initial cfg hash now src
  roles th hth := by cases hth
  life := .inl rfl
  runs := ⟨rfl, fun job hjob => by cases hjob⟩
  going th hth := by cases hth
  staff h := by cases h

/-- A thread moves. -/
theorem Opened.set {s : System α V cfg} (h : Opened hash s) {i : ℕ} {c : Choice α V} {th th' : Thread α V T}
    {sh : Shared α V cfg} (hi : s.threads[i]? = some th) (hr : threadStep hash s.shared c th = some (sh, th')) :
    sh.Runs ∧ th'.Runs cfg ∧ th'.role = th.role ∧ sh.lifecycle = s.shared.lifecycle := by
  have hmem := List.mem_of_getElem? hi
  have hrole := h.roles th hmem
  have hcontrol := threadStep_control hr (h.base.threads th hmem).1 (h.base.threads th hmem).2
    fun i => (h.base.shards i).index_eq
  have hruns : sh.Runs ∧ th'.Runs cfg := by
    rcases threadStep_cases hr with hstep | hstep | hstep
    · exact clientStep_runs h.runs hrole hstep
    · exact workerStep_runs h.runs (h.going th hmem) hstep
    · exact absurd (role_of_closeStep hstep) hrole
  refine ⟨hruns.1, hruns.2, hcontrol.role.resolve_right fun hcloser => hrole hcloser.1, ?_⟩
  rcases threadStep_phase hr with hphase | ⟨flush, caller, rfl, -⟩ | ⟨failed, rfl, -⟩ | ⟨m, t, ts, rfl, -⟩
  · exact congrArg Prod.fst hphase
  · exact absurd rfl hrole
  · exact absurd rfl hrole
  · exact absurd rfl hrole

/-- **An open cache stays open** until `close` is called. -/
theorem Opened.step {s s' : System α V cfg} {l : Label α V T} (h : Opened hash s) (hl : l.closes = false)
    (hs : step cfg hash s l = some s') : Opened hash s' := by
  obtain ⟨hbase, hroles⟩ := open_step s l s' hl hs ⟨h.base, h.roles⟩
  cases l with
  | tick now =>
      simp only [CacheLab.step] at hs
      split_ifs at hs
      cases hs
      exact ⟨hbase, hroles, h.life, ⟨h.runs.stop, h.runs.jobs⟩, h.going, h.staff⟩
  | start =>
      simp only [CacheLab.step] at hs
      split at hs <;> cases hs
      · refine ⟨hbase, hroles, .inr rfl, ⟨h.runs.stop, h.runs.jobs⟩, fun th hth => ?_, fun _ hpos => ?_⟩
        · rcases List.mem_append.mp hth with hold | hnew
          · exact h.going th hold
          · rw [List.eq_of_mem_replicate hnew]
            trivial
        · refine ⟨.idle, List.mem_append_right _ (List.mem_replicate.mpr ⟨by omega, rfl⟩), rfl⟩
      · exact h
  | call op =>
      cases hs
      refine ⟨hbase, hroles, h.life, h.runs, fun th hth => ?_, fun hstarted hpos => ?_⟩
      · rcases List.mem_append.mp hth with hold | hnew
        · exact h.going th hold
        · rw [List.mem_singleton.mp hnew]
          trivial
      · obtain ⟨th, hth, hrole⟩ := h.staff hstarted hpos
        exact ⟨th, List.mem_append_left _ hth, hrole⟩
  | schedule i =>
      simp only [CacheLab.step] at hs
      split_ifs at hs with hi
      cases hs
      exact ⟨hbase, hroles, h.life, ⟨h.runs.stop, h.runs.putNowait hi.1⟩, h.going, h.staff⟩
  | run i c =>
      simp only [CacheLab.step, Option.bind_eq_some_iff, Option.map_eq_some_iff] at hs
      obtain ⟨th, hi, ⟨sh, th'⟩, hr, rfl⟩ := hs
      obtain ⟨hruns, hgoing, hrole, hlife⟩ := h.set hi hr
      refine ⟨hbase, hroles, hlife ▸ h.life, hruns, forall_mem_set h.going hgoing, fun hstarted hpos => ?_⟩
      obtain ⟨x, hx, hworker⟩ := h.staff (hlife ▸ hstarted) hpos
      obtain ⟨n, hn⟩ := List.mem_iff_getElem?.mp hx
      by_cases hni : n = i
      · subst hni
        obtain rfl := Option.some.inj (hi.symm.trans hn)
        refine ⟨th', List.mem_of_getElem? (i := n) ?_, hrole.trans hworker⟩
        rw [List.getElem?_set_self', hi]
        rfl
      · refine ⟨x, List.mem_of_getElem? (i := n) ?_, hworker⟩
        rw [List.getElem?_set_ne fun heq => hni heq.symm]
        exact hn

/-! ### The load -/

/-- What is left to do for a flush job: up to six steps for each try. -/
def Ticket.load (t : Ticket α V) : ℕ := 6 * (t.job.retriesLeft + 1)

/-- What is left to do for a put of a worker, with its flush job. -/
def putLoad (cfg : AcceptedConfig T) : ℕ := 6 * (cfg.writeBackRetryCount + 1) + 5

/-- What is left to do for a job in the queue. -/
def Job.load (cfg : AcceptedConfig T) : Job α V T → ℕ
  | .expireShard _ => 3
  | .flushWriteBack t => t.load
  | .preloadKey _ _ _ => putLoad cfg + 3
  | .snapshotStats _ => 3
  | .stopWorker => 2

/-- What is left to do for a worker before it is idle again. -/
def Thread.load (cfg : AcceptedConfig T) : Thread α V T → ℕ
  | .entering _ .preloader => putLoad cfg + 1
  | .running _ .preloader => putLoad cfg
  | .enqueuing ts .preloader => 3 + (ts.map fun t => t.load + 1).sum
  | .releasing ts .preloader => 2 + ts.length
  | .handling job => job.load cfg - 1
  | .checked t => t.load - 2
  | .failed t => t.load - 3
  | .landed _ => 2
  | .dropped _ => 2
  | .finishing => 1
  | _ => 0

/-- What is left to do in the queue. -/
def CacheJobQueue.load (cfg : AcceptedConfig T) (q : CacheJobQueue α V T) : ℕ :=
  (q.items.map (Job.load cfg)).sum

/-- What is left to do for the workers. -/
def System.load (s : System α V cfg) : ℕ :=
  s.shared.queue.load cfg + (s.threads.map (Thread.load cfg)).sum

section Load

variable {s s' : Shared α V cfg} {c : Choice α V} {th th' : Thread α V T}

theorem CacheJobQueue.load_push (q : CacheJobQueue α V T) (job : Job α V T) :
    (q.push job).load cfg = q.load cfg + job.load cfg := by
  simp [CacheJobQueue.load, CacheJobQueue.push]

/-- Lost jobs were not in the queue. -/
theorem Shared.load_lose (s : Shared α V cfg) (ts : List (Ticket α V)) :
    (s.lose ts).queue.load cfg = s.queue.load cfg := by
  rw [CacheJobQueue.load, s.items_lose]
  rfl

/-- A flush job takes some steps at least. -/
theorem Ticket.six_le_load (t : Ticket α V) : 6 ≤ t.load := by
  unfold Ticket.load
  omega

/-- The flush jobs of a put are one at most. -/
theorem sum_load_putJobs (cfg : AcceptedConfig T) (sh : CacheShard α V T) (key : Key α) (value : V)
    (now : T) (base : ℕ) :
    ((ticketsFrom base (CacheShard.putJobs cfg.toCacheConfig sh key value now)).map fun t =>
      t.load + 1).sum ≤ 6 * (cfg.writeBackRetryCount + 1) + 1 := by
  unfold CacheShard.putJobs
  split_ifs
  · simp [ticketsFrom, Ticket.load]
  · exact Nat.zero_le _

/-- A put of a worker. -/
theorem load_put (hs : ∀ i, ShardOk cfg hash i (s.shards i)) {key : Key α} {value : V} {ttl : Ttl T}
    (h : clientStep hash s c (.running (.put key value ttl) .preloader) = some (s', th')) :
    s'.queue.load cfg + th'.load cfg < s.queue.load cfg + putLoad cfg := by
  simp only [clientStep] at h
  by_cases hraise : cfg.writeMode = .writeThrough ∧ c.ok key = false
  · rw [putSection_of_raised hash s key value ttl hraise] at h
    cases h
    show s.queue.load cfg + 1 < _
    unfold putLoad
    omega
  · obtain ⟨hret, gone, hdone⟩ := putSection_of_returned hs key value ttl hraise
    simp only [hret, Bool.false_eq_true, if_false] at h
    have hjobs := sum_load_putJobs cfg (s.home hash key) key value s.now s.log.length
    rw [← hdone.tickets_eq] at hjobs
    cases hts : (s.putSection hash key value ttl (c.ok key)).2.1 with
    | nil =>
        rw [hts] at h
        cases h
        show s.queue.load cfg + 1 < _
        unfold putLoad
        omega
    | cons t ts =>
        rw [hts] at h hjobs
        cases h
        show s.queue.load cfg + (3 + _) < _
        unfold putLoad
        omega

/-- An enqueue of a worker. -/
theorem load_enqueuing {ts : List (Ticket α V)}
    (h : clientStep hash s c (.enqueuing ts .preloader) = some (s', th')) :
    s'.queue.load cfg + th'.load cfg <
      s.queue.load cfg + (Thread.enqueuing ts .preloader : Thread α V T).load cfg := by
  cases ts with
  | nil =>
      cases h
      show s.queue.load cfg + 1 < s.queue.load cfg + (3 + 0)
      omega
  | cons t ts =>
      have hload : (Thread.enqueuing (t :: ts) .preloader : Thread α V T).load cfg =
          3 + (t.load + 1 + (ts.map fun t => t.load + 1).sum) := by
        simp [Thread.load]
      simp only [clientStep] at h
      split_ifs at h
      · cases h
        rw [hload]
        show (s.lose (t :: ts)).queue.load cfg + 1 < _
        rw [s.load_lose]
        omega
      · cases h
        have hlength : ts.length ≤ (ts.map fun t => t.load + 1).sum := by simp
        rw [hload]
        show s.queue.load cfg + (2 + (ts.length + 1)) < _
        omega
      · rw [hload]
        have hpush : (s.queue.push (.flushWriteBack t)).load cfg = s.queue.load cfg + t.load :=
          CacheJobQueue.load_push _ _
        cases ts with
        | nil =>
            cases h
            show (s.queue.push (.flushWriteBack t)).load cfg + 1 < _
            rw [hpush]
            omega
        | cons u ts =>
            cases h
            show (s.queue.push (.flushWriteBack t)).load cfg + (3 + _) < _
            rw [hpush]
            omega

/-- A release of a worker. -/
theorem load_releasing {ts : List (Ticket α V)}
    (h : clientStep hash s c (.releasing ts .preloader) = some (s', th')) :
    s'.queue.load cfg + th'.load cfg <
      s.queue.load cfg + (Thread.releasing ts .preloader : Thread α V T).load cfg := by
  cases ts with
  | nil =>
      cases h
      show s.queue.load cfg + 1 < s.queue.load cfg + (2 + 0)
      omega
  | cons t ts =>
      obtain ⟨s₁, hs₁, heq⟩ := Option.map_eq_some_iff.mp h
      obtain ⟨hlt, rfl⟩ := Shared.onShard_eq_some.mp hs₁
      cases heq
      show s.queue.load cfg + (2 + ts.length) < s.queue.load cfg + (2 + (ts.length + 1))
      omega

/-- A worker without a put. -/
theorem load_workerStep (h : workerStep s c th = some (s', th')) (hth : th.Runs cfg) (hstop : s.stopEvent = false) :
    s'.queue.load cfg + th'.load cfg < s.queue.load cfg + th.load cfg := by
  cases th with
  | idle =>
      simp only [workerStep] at h
      split at h
      · next job rest hq =>
          cases h
          have hload : s.queue.load cfg = job.load cfg + (rest.map (Job.load cfg)).sum := by
            rw [CacheJobQueue.load, hq, List.map_cons, List.sum_cons]
          have hpos : 0 < job.load cfg := by
            cases job with
            | flushWriteBack t =>
                have hsix := t.six_le_load
                exact lt_of_lt_of_le (by omega) hsix
            | _ => exact Nat.succ_pos _
          rw [hload]
          show (rest.map (Job.load cfg)).sum + (job.load cfg - 1) < _ + 0
          omega
      · rw [hstop] at h
        cases h
  | handling job =>
      cases job with
      | stopWorker => exact hth.elim
      | expireShard i =>
          obtain ⟨s₁, hs₁, heq⟩ := Option.map_eq_some_iff.mp h
          obtain ⟨hlt, rfl⟩ := Shared.onShard_eq_some.mp hs₁
          cases heq
          show s.queue.load cfg + 1 < s.queue.load cfg + (3 - 1)
          omega
      | snapshotStats id =>
          cases h
          show s.queue.load cfg + 1 < s.queue.load cfg + (3 - 1)
          omega
      | preloadKey i key ttl =>
          simp only [workerStep] at h
          split at h <;> cases h
          · show s.queue.load cfg + 1 < s.queue.load cfg + (putLoad cfg + 3 - 1)
            omega
          · show s.queue.load cfg + (putLoad cfg + 1) < s.queue.load cfg + (putLoad cfg + 3 - 1)
            omega
      | flushWriteBack t =>
          have hsix := t.six_le_load
          simp only [workerStep] at h
          split_ifs at h <;> cases h
          · show s.queue.load cfg + 1 < s.queue.load cfg + (t.load - 1)
            omega
          · show s.queue.load cfg + (t.load - 2) < s.queue.load cfg + (t.load - 1)
            omega
  | checked t =>
      have hsix := t.six_le_load
      simp only [workerStep] at h
      split_ifs at h <;> cases h
      · show s.queue.load cfg + 2 < s.queue.load cfg + (t.load - 2)
        omega
      · show s.queue.load cfg + (t.load - 3) < s.queue.load cfg + (t.load - 2)
        omega
  | failed t =>
      have hsix := t.six_le_load
      simp only [workerStep] at h
      split_ifs at h with hleft <;> cases h
      · show (s.lose [t.retry]).queue.load cfg + 1 < s.queue.load cfg + (t.load - 3)
        rw [s.load_lose]
        omega
      · show s.queue.load cfg + 2 < s.queue.load cfg + (t.load - 3)
        omega
      · have hretry : t.retry.load + 6 = t.load := by
          simp only [Ticket.load, Ticket.retry]
          omega
        have hpush : (s.queue.push (.flushWriteBack t.retry)).load cfg = s.queue.load cfg + t.retry.load :=
          CacheJobQueue.load_push _ _
        show (s.queue.push (.flushWriteBack t.retry)).load cfg + 1 < s.queue.load cfg + (t.load - 3)
        rw [hpush]
        omega
      · show s.queue.load cfg + 2 < s.queue.load cfg + (t.load - 3)
        omega
  | dropped t =>
      obtain ⟨s₁, hs₁, heq⟩ := Option.map_eq_some_iff.mp h
      obtain ⟨hlt, rfl⟩ := Shared.onShard_eq_some.mp hs₁
      cases heq
      exact Nat.lt_succ_self _
  | landed t =>
      obtain ⟨s₁, hs₁, heq⟩ := Option.map_eq_some_iff.mp h
      obtain ⟨hlt, rfl⟩ := Shared.onShard_eq_some.mp hs₁
      cases heq
      exact Nat.lt_succ_self _
  | finishing =>
      cases h
      exact Nat.lt_succ_self _
  | _ => cases h

/-- A caller that is a worker. -/
theorem Caller.eq_preloader {caller : Caller α V T} (h : caller.role = .worker) : caller = .preloader := by
  cases caller with
  | preloader => rfl
  | _ => cases h

/-- **Every step of a worker lowers the load.** -/
theorem load_threadStep (hs : ∀ i, ShardOk cfg hash i (s.shards i)) (hrun : s.Runs) (hth : th.Runs cfg)
    (hfit : th.Fit) (hrole : th.role = .worker) (h : threadStep hash s c th = some (s', th')) :
    s'.queue.load cfg + th'.load cfg < s.queue.load cfg + th.load cfg := by
  rcases threadStep_cases h with hstep | hstep | hstep
  · cases th with
    | entering op caller =>
        obtain rfl : caller = .preloader := by
          cases op <;> first | exact Caller.eq_preloader hrole | cases hrole
        rcases entering_cases hstep with ⟨rfl, ⟨exn, rfl⟩, -⟩ | ⟨rfl, rfl, -⟩ | ⟨-, -, flush, rfl⟩ |
          ⟨-, -, -, flush, rfl, -⟩
        · show s.queue.load cfg + 1 < s.queue.load cfg + (putLoad cfg + 1)
          unfold putLoad
          omega
        · exact Nat.lt_succ_self _
        · cases hrole
        · cases hrole
    | running op caller =>
        obtain rfl := Caller.eq_preloader hrole
        obtain ⟨key, value, ttl, rfl⟩ := hfit.resolve_left fun hclient => by cases hclient
        exact load_put hs hstep
    | enqueuing ts caller =>
        obtain rfl := Caller.eq_preloader hrole
        exact load_enqueuing hstep
    | releasing ts caller =>
        obtain rfl := Caller.eq_preloader hrole
        exact load_releasing hstep
    | _ => first | (cases hrole; done) | cases hstep
  · exact load_workerStep hstep hth hrun.stop
  · rw [role_of_closeStep hstep] at hrole
    cases hrole

end Load

/-! ### Progress -/

/-- A step in which time passes or a worker moves. -/
def works (s : System α V cfg) : Label α V T → Bool
  | .tick _ => true
  | .run i _ => (s.threads[i]?).any fun th => decide (th.role = .worker)
  | _ => false

/-- A worker moves. -/
def Label.moves : Label α V T → Bool
  | .run _ _ => true
  | _ => false

/-- The queue is empty and settled, and no worker is busy. -/
structure Drained (s : System α V cfg) : Prop where
  items : s.shared.queue.items = []
  unfinished : s.shared.queue.unfinishedTasks = 0
  idle : ∀ th ∈ s.threads, th.busy = 0

section Progress

variable {s s' : System α V cfg} {l : Label α V T}

/-- Steps of workers call no `close`. -/
theorem closes_of_works (h : works s l = true) : l.closes = false := by
  cases l <;> first | rfl | cases h

/-- **The rank**: steps of workers keep the cache open, and lower the load. -/
theorem Opened.load_step (h : Opened hash s) (hl : works s l = true)
    (hs : CacheLab.step cfg hash s l = some s') :
    Opened hash s' ∧ (if l.moves then 1 else 0) + s'.load ≤ s.load := by
  refine ⟨h.step (closes_of_works hl) hs, ?_⟩
  cases l with
  | tick now =>
      simp only [CacheLab.step] at hs
      split_ifs at hs
      cases hs
      simp [Label.moves, System.load]
  | run i c =>
      simp only [CacheLab.step, Option.bind_eq_some_iff, Option.map_eq_some_iff] at hs
      obtain ⟨th, hi, ⟨sh, th'⟩, hr, rfl⟩ := hs
      have hmem := List.mem_of_getElem? hi
      have hrole : th.role = .worker := by simpa [works, hi] using hl
      have hload := load_threadStep h.base.shards h.runs (h.going th hmem) (h.base.threads th hmem).1 hrole hr
      obtain ⟨rest, hsum, hsum'⟩ := Transition.sum_map_set (Thread.load cfg) hi
      simp only [Label.moves, if_true, System.load, hsum, hsum' th']
      omega
  | _ => cases hl

/-- A section on a shard that exists. -/
theorem Shared.isSome_onShard (s : Shared α V cfg) {i : ℕ} (hi : i < cfg.shardCount)
    (f : CacheShard α V T → CacheShard α V T) : (s.onShard i f).isSome = true := by
  simp [Shared.onShard, hi]

/-- A busy worker can move, whatever the source and the loaders do. -/
theorem Opened.isSome_threadStep (h : Opened hash s) {th : Thread α V T} (hmem : th ∈ s.threads)
    (hbusy : th.busy ≠ 0) (c : Choice α V) : (threadStep hash s.shared c th).isSome = true := by
  have hshard : ∀ t, t ∈ th.flushes.map Prod.snd → t.job.shardIndex < cfg.shardCount := by
    intro t ht
    rw [h.base.tickets t (System.mem_tickets.mpr (.inr ⟨th, hmem, ht⟩))]
    exact (shardFor cfg hash t.job.key).isLt
  have hworker : (workerStep s.shared c th).isSome = true → (threadStep hash s.shared c th).isSome = true := by
    intro hsome
    unfold threadStep
    cases clientStep hash s.shared c th <;> simp [hsome]
  have hclient : (clientStep hash s.shared c th).isSome = true →
      (threadStep hash s.shared c th).isSome = true := by
    intro hsome
    unfold threadStep
    simp [hsome]
  have hgoing := h.going th hmem
  have hfit := (h.base.threads th hmem).1
  have hrole := Thread.role_of_busy hbusy
  cases th with
  | entering op caller =>
      refine hclient ?_
      cases op with
      | close flush => cases hrole
      | _ =>
          simp only [clientStep]
          rcases h.life with hlife | hlife <;> rw [hlife] <;> simp only <;> split <;> rfl
  | running op caller =>
      refine hclient ?_
      obtain rfl := Caller.eq_preloader hrole
      obtain ⟨key, value, ttl, rfl⟩ := hfit.resolve_left fun hclient => by cases hclient
      simp only [clientStep]
      split_ifs <;> rfl
  | enqueuing ts caller =>
      refine hclient ?_
      cases ts with
      | nil => rfl
      | cons t ts =>
          simp only [clientStep]
          split_ifs <;> rfl
  | releasing ts caller =>
      refine hclient ?_
      cases ts with
      | nil => rfl
      | cons t ts =>
          rw [clientStep, Option.isSome_map]
          exact s.shared.isSome_onShard (hshard t (by simp [Thread.flushes, staged])) _
  | handling job =>
      refine hworker ?_
      cases job with
      | stopWorker => exact hgoing.elim
      | expireShard i =>
          rw [workerStep, Option.isSome_map]
          exact s.shared.isSome_onShard hgoing _
      | snapshotStats id => rfl
      | preloadKey i key ttl =>
          simp only [workerStep]
          split <;> rfl
      | flushWriteBack t =>
          have hlt := hshard t (by simp [Thread.flushes])
          simp only [workerStep, dif_pos hlt]
          split_ifs <;> rfl
  | checked t =>
      refine hworker ?_
      simp only [workerStep]
      split_ifs <;> rfl
  | failed t =>
      refine hworker ?_
      simp only [workerStep]
      split_ifs <;> rfl
  | dropped t =>
      refine hworker ?_
      rw [workerStep, Option.isSome_map]
      exact s.shared.isSome_onShard (hshard t (by simp [Thread.flushes])) _
  | landed t =>
      refine hworker ?_
      rw [workerStep, Option.isSome_map]
      exact s.shared.isSome_onShard (hshard t (by simp [Thread.flushes])) _
  | finishing => exact hworker rfl
  | _ => exact absurd rfl hbusy

/-- An idle worker takes a job. -/
theorem isSome_threadStep_idle {s : Shared α V cfg} (hitems : s.queue.items ≠ []) (c : Choice α V) :
    (threadStep hash s c .idle).isSome = true := by
  obtain ⟨job, rest, hq⟩ := List.exists_cons_of_ne_nil hitems
  simp [threadStep, clientStep, workerStep, hq]

/-- **Progress**: while there is work, some worker can move, whatever the source and the loaders do. -/
theorem Opened.exists_worker_step (h : Opened hash s) (hstarted : s.shared.lifecycle = .started)
    (hpos : 0 < cfg.workerCount) :
    Drained s ∨ ∃ i, ∀ c, works s (.run i c : Label α V T) = true ∧
      (CacheLab.step cfg hash s (.run i c)).isSome = true := by
  have hmove : ∀ th ∈ s.threads, th.role = .worker → (∀ c, (threadStep hash s.shared c th).isSome = true) →
      ∃ i, ∀ c, works s (.run i c : Label α V T) = true ∧
        (CacheLab.step cfg hash s (.run i c)).isSome = true := by
    intro th hth hrole hsome
    obtain ⟨i, hi⟩ := List.mem_iff_getElem?.mp hth
    refine ⟨i, fun c => ⟨by simp [works, hi, hrole], ?_⟩⟩
    simp [CacheLab.step, hi, hsome c]
  by_cases hbusy : ∃ th ∈ s.threads, th.busy ≠ 0
  · obtain ⟨th, hth, hne⟩ := hbusy
    exact .inr (hmove th hth (Thread.role_of_busy hne) (h.isSome_threadStep hth hne))
  · have hidle : ∀ th ∈ s.threads, th.busy = 0 := by
      intro th hth
      by_contra hne
      exact hbusy ⟨th, hth, hne⟩
    have htally := h.base.tally
    have hzero : (s.threads.map Thread.busy).sum = 0 :=
      List.sum_eq_zero fun n hn => by
        obtain ⟨th, hth, rfl⟩ := List.mem_map.mp hn
        exact hidle th hth
    by_cases hitems : s.shared.queue.items = []
    · refine .inl ⟨hitems, ?_, hidle⟩
      rw [htally, hzero, hitems]
      rfl
    · obtain ⟨th, hth, hrole⟩ := h.staff hstarted hpos
      have hgoing := h.going th hth
      have heq : th = .idle := by
        have hnot := hidle th hth
        cases th with
        | idle => rfl
        | stopped => exact hgoing.elim
        | _ => first | (cases hrole; done) | simp [Thread.busy, hrole] at hnot
      subst heq
      exact .inr (hmove .idle hth rfl (isSome_threadStep_idle hitems))

end Progress

/-! ### The theorem -/

/-- **The jobs are settled**: what the notes `tr` of a run say of the flush job of each write, and what the
counters and the queue of the state `s` say of all of them. -/
structure JobsSettled (tr : List (FlushNote α V)) (s : System α V cfg) : Prop where
  once : ∀ o, tr.countP (FlushNote.accepts o) ≤ 1
  tries : ∀ o, tr.countP (FlushNote.tries o) ≤ cfg.writeBackRetryCount + 1
  /-- No job has an outcome that was not accepted, and none has two. -/
  settled_le : ∀ o, tr.countP (FlushNote.settles o) ≤ tr.countP (FlushNote.accepts o)
  /-- Without unfinished tasks every accepted job has its outcome. -/
  settled : s.shared.queue.unfinishedTasks = 0 →
    ∀ o, tr.countP (FlushNote.settles o) = tr.countP (FlushNote.accepts o)
  failures : s.shared.runtime.flushFailures = tr.countP FlushNote.isFailed
  skips : s.shared.runtime.staleWriteBackJobsSkipped = tr.countP FlushNote.isSkipped
  applied : s.shared.log.countP Event.isApplied = tr.countP FlushNote.isApplied

/-- A thread with a job in hand is busy. -/
theorem inHand_of_busy {th : Thread α V T} (h : th.busy = 0) : th.inHand = [] := by
  cases th with
  | handling job => cases h
  | checked t => cases h
  | failed t => cases h
  | _ => rfl

/-- Without unfinished tasks no accepted job waits for its outcome. -/
theorem System.live_eq_zero {s : System α V cfg} (hb : Base hash s) (hzero : s.shared.queue.unfinishedTasks = 0)
    (o : ℕ) : s.live o = 0 := by
  have htally := hb.tally
  rw [hzero] at htally
  have hitems : s.shared.queue.items = [] := List.length_eq_zero_iff.mp (by omega)
  have hbusy : ∀ th ∈ s.threads, th.busy = 0 := fun th hth =>
    List.sum_eq_zero_iff.mp (by omega) _ (List.mem_map_of_mem hth)
  have hqueue : s.shared.queue.queued = [] := by rw [CacheJobQueue.queued, hitems, List.flatMap_nil]
  have hhands : (s.threads.map fun th => tally o th.inHand).sum = 0 :=
    List.sum_eq_zero fun n hn => by
      obtain ⟨th, hth, rfl⟩ := List.mem_map.mp hn
      rw [inHand_of_busy (hbusy th hth)]
      rfl
  rw [System.live, hqueue, hhands, tally_nil]

/-- A trace that loses the job of no write has no note of a lost job. -/
theorem isLost_eq_false_iff {tr : List (FlushNote α V)} :
    (∀ n ∈ tr, n.isLost = false) ↔ ∀ o, tr.countP (FlushNote.loses o) = 0 := by
  simp only [List.countP_eq_zero]
  constructor
  · intro h o n hn hloses
    cases n with
    | lost t => cases h _ hn
    | _ => cases hloses
  · intro h n hn
    cases n with
    | lost t => exact absurd (decide_eq_true rfl) (h t.origin _ hn)
    | _ => rfl

/-- **The books say it**, but for the jobs that are lost. -/
theorem Booked.jobsSettled_iff {tr : List (FlushNote α V)} {s : System α V cfg} (h : Booked tr s)
    (hb : Base hash s) : JobsSettled tr s ↔
      (s.shared.queue.unfinishedTasks = 0 → ∀ n ∈ tr, n.isLost = false) := by
  rw [isLost_eq_false_iff]
  constructor
  · intro hsettled hzero o
    have hlive := h.live o
    rw [System.live_eq_zero hb hzero, hsettled.settled hzero o] at hlive
    omega
  · intro hlost
    refine ⟨fun o => le_trans (Nat.le_add_right _ _) (h.once o), fun o => le_trans (Nat.le_add_right _ _) (h.tries o),
      fun o => ?_, fun hzero o => ?_, h.failures, h.skips, h.applied⟩
    · rw [h.live o, Nat.add_assoc]
      exact Nat.le_add_right _ _
    · rw [h.live o, System.live_eq_zero hb hzero, hlost hzero o, Nat.add_zero]

section Run

variable {now : T} {src : Source α V} {s : System α V cfg} {ls ms : List (Label α V T)}

/-- The books of a run without `close`. -/
theorem booked_exec (h : exec cfg hash (initial cfg now src) ls = some s) (hls : ∀ l ∈ ls, l.closes = false) :
    Opened hash s ∧ Booked (flushTrace cfg hash (initial cfg now src) ls) s := by
  have hstep : ∀ (tr : List (FlushNote α V)) (s : System α V cfg) l s', l.closes = false →
      step cfg hash s l = some s' → Opened hash s ∧ Booked tr s →
      Opened hash s' ∧ Booked (tr ++ flushNotes s l s') s' :=
    fun tr s l s' hl hs hinv => ⟨hinv.1.step hl hs, hinv.2.step hinv.1.base hinv.1.roles hs⟩
  have hrun := Transition.observe_invariant (P := fun _ l => l.closes = false) hstep h
    (Transition.along_of_forall (fun l hl _ => hls l hl) _)
    ⟨opened_initial cfg hash now src, booked_initial cfg now src⟩
  rwa [List.nil_append] at hrun

/-- Steps of workers keep the cache started. -/
theorem Opened.started_step {s s' : System α V cfg} {l : Label α V T} (h : Opened hash s)
    (hl : works s l = true) (hs : CacheLab.step cfg hash s l = some s') :
    s'.shared.lifecycle = s.shared.lifecycle := by
  cases l with
  | tick now =>
      simp only [CacheLab.step] at hs
      split_ifs at hs
      cases hs
      rfl
  | run i c =>
      simp only [CacheLab.step, Option.bind_eq_some_iff, Option.map_eq_some_iff] at hs
      obtain ⟨th, hi, ⟨sh, th'⟩, hr, rfl⟩ := hs
      exact (h.set hi hr).2.2.2
  | _ => cases hl

/-- **Draining terminates, and every accepted flush job has exactly one outcome.** The cache is started and
`close` was not called; from `s` on only the workers move, while the clock may go on. Whatever the source does, and
whatever the loaders return or raise, the workers take at most `s.load` steps and can move until the queue is drained;
so every long enough run drains the queue, and there is one that does. The jobs of the whole run are settled, unless
there are no unfinished tasks and enqueuing a retry raised on the way. -/
theorem draining (h : exec cfg hash (initial cfg now src) ls = some s) (hls : ∀ l ∈ ls, l.closes = false)
    (hstarted : s.shared.lifecycle = .started) :
    (∀ ms s', exec cfg hash s ms = some s' →
      Transition.Along (step cfg hash) (fun s l => works s l = true) s ms →
      ms.countP Label.moves + s'.load ≤ s.load ∧
      (0 < cfg.workerCount → Drained s' ∨ ∃ i, ∀ c, works s' (.run i c : Label α V T) = true ∧
        (step cfg hash s' (.run i c)).isSome = true) ∧
      (JobsSettled (flushTrace cfg hash (initial cfg now src) ls ++ flushTrace cfg hash s ms) s' ↔
        (s'.shared.queue.unfinishedTasks = 0 →
          Transition.Along (step cfg hash) (fun s l => retryRaises s l = false) (initial cfg now src) ls ∧
          Transition.Along (step cfg hash) (fun s l => retryRaises s l = false) s ms))) ∧
    (0 < cfg.workerCount → ∃ ms s', exec cfg hash s ms = some s' ∧
      Transition.Along (step cfg hash) (fun s l => works s l = true) s ms ∧ Drained s') := by
  obtain ⟨hopen, hbooked⟩ := booked_exec h hls
  have hrank : ∀ (s : System α V cfg) (l : Label α V T) s', works s l = true → step cfg hash s l = some s' →
      Opened hash s ∧ s.shared.lifecycle = .started →
      (Opened hash s' ∧ s'.shared.lifecycle = .started) ∧ (if l.moves then 1 else 0) + s'.load ≤ s.load := by
    rintro s l s' hl hs ⟨hopened, hlife⟩
    obtain ⟨hopened', hload⟩ := hopened.load_step hl hs
    exact ⟨⟨hopened', (hopened.started_step hl hs).trans hlife⟩, hload⟩
  have hbooks : ∀ (tr : List (FlushNote α V)) (s : System α V cfg) (l : Label α V T) s', works s l = true →
      step cfg hash s l = some s' → (Opened hash s ∧ s.shared.lifecycle = .started) ∧ Booked tr s →
      (Opened hash s' ∧ s'.shared.lifecycle = .started) ∧ Booked (tr ++ flushNotes s l s') s' :=
    fun tr s l s' hl hs hinv => ⟨(hrank s l s' hl hs hinv.1).1, hinv.2.step hinv.1.1.base hinv.1.1.roles hs⟩
  refine ⟨fun ms s' hms halong => ?_, fun hpos => ?_⟩
  · obtain ⟨⟨hopen', hstarted'⟩, hbooked'⟩ :=
      Transition.observe_invariant hbooks hms halong ⟨⟨hopen, hstarted⟩, hbooked⟩
    refine ⟨Transition.countP_add_rank_le hrank hms halong ⟨hopen, hstarted⟩,
      hopen'.exists_worker_step hstarted', (hbooked'.jobsSettled_iff hopen'.base).trans (imp_congr_right fun _ => ?_)⟩
    rw [List.forall_mem_append]
    exact and_congr (Transition.forall_observe_iff (fun s l s' _ => isLost_flushNotes_iff s l s') h)
      (Transition.forall_observe_iff (fun s l s' _ => isLost_flushNotes_iff s l s') hms)
  · refine Transition.exists_run_done hrank (fun s hinv => ?_) ⟨hopen, hstarted⟩
    rcases hinv.1.exists_worker_step hinv.2 hpos with hdone | ⟨i, hi⟩
    · exact .inl hdone
    · obtain ⟨hworks, hsome⟩ := hi {}
      obtain ⟨s', hs'⟩ := Option.isSome_iff_exists.mp hsome
      exact .inr ⟨.run i {}, s', rfl, hworks, hs'⟩

end Run

/-- A worker, and a put whose job is in the queue. -/
def startThenPut : List (Label ℕ ℕ ℕ) :=
  [.start, .call (.put (some 1) 10 .unset), .run 1 {}, .run 1 {}, .run 1 {}]

/-- One job with one retry, and so at most twelve steps. -/
theorem draining_startThenPut :
    ∃ s : System ℕ ℕ (oneEntry .lru .writeBack 1 0 1),
      exec _ (fun _ => 0) (initial _ 0 .empty) startThenPut = some s ∧ s.load = 12 ∧
      ∃ ms s', exec _ (fun _ => 0) s ms = some s' ∧ ms.countP Label.moves ≤ 12 ∧ Drained s' ∧
        JobsSettled (flushTrace (oneEntry .lru .writeBack 1 0 1) (fun _ => 0) (initial _ 0 .empty) startThenPut ++
          flushTrace _ (fun _ => 0) s ms) s' := by
  have heval : ((exec (oneEntry .lru .writeBack 1 0 1) (fun _ => 0) (initial _ 0 .empty) startThenPut).map
      fun s : System ℕ ℕ (oneEntry .lru .writeBack 1 0 1) =>
        decide (s.load = 12 ∧ s.shared.lifecycle = .started)) = some true := by
    decide +kernel
  obtain ⟨s, hs, heval⟩ := Option.map_eq_some_iff.mp heval
  obtain ⟨hload, hstarted⟩ := of_decide_eq_true heval
  obtain ⟨hall, hsome⟩ := draining hs (by decide) hstarted
  obtain ⟨ms, s', hms, halong, hdone⟩ := hsome (by decide)
  obtain ⟨hbound, -, hsettled⟩ := hall ms s' hms halong
  refine ⟨s, hs, hload, ms, s', hms, by omega, hdone, hsettled.mpr fun _ => ?_⟩
  exact ⟨Transition.along_of_forall (fun l _ s => retryRaises_of_unbounded rfl s l) _,
    Transition.along_of_forall (fun l _ s => retryRaises_of_unbounded rfl s l) _⟩

/-- Integers of more than 4300 digits have no `repr`. -/
def printsInt (v : ℕ) : Bool := decide (v < 10 ^ 4300)

/-- A worker holds the checked flush job of a long integer, and the job of another put has filled the queue. -/
def putLongInt : List (Label ℕ ℕ ℕ) :=
  [.start, .call (.put (some 1) (10 ^ 5000) .unset), .run 1 {}, .run 1 {}, .run 1 {}, .run 0 {}, .run 0 {},
    .call (.put (some 2) 20 .unset), .run 2 {}, .run 2 {}, .run 2 {}]

/-- The source fails, the queue refuses the retry, and the worker goes on with the other job. -/
def loseLongInt : List (Label ℕ ℕ ℕ) :=
  [.run 0 { ok := fun _ => false }, .run 0 { prints := printsInt }, .run 0 {}, .run 0 {}, .run 0 {}, .run 0 {},
    .run 0 {}, .run 0 {}]

/-- A retry that a full queue refuses is lost when the value of the job has no `repr`: there are no unfinished tasks,
and the job was accepted and has no outcome. -/
theorem draining_loses_retry :
    ∃ s s' : System ℕ ℕ (oneEntry .lru .writeBack 1 1 1),
      exec _ (fun _ => 0) (initial _ 0 .empty) putLongInt = some s ∧ (∀ l ∈ putLongInt, l.closes = false) ∧
      s.shared.lifecycle = .started ∧ exec _ (fun _ => 0) s loseLongInt = some s' ∧
      Transition.Along (step _ fun _ => 0) (fun s l => works s l = true) s loseLongInt ∧
      s'.shared.queue.unfinishedTasks = 0 ∧ s'.shared.runtime.flushFailures = 0 ∧
      ∃ o, (flushTrace (oneEntry .lru .writeBack 1 1 1) (fun _ => 0) (initial _ 0 .empty) putLongInt ++
          flushTrace _ (fun _ => 0) s loseLongInt).countP (FlushNote.accepts o) = 1 ∧
        (flushTrace (oneEntry .lru .writeBack 1 1 1) (fun _ => 0) (initial _ 0 .empty) putLongInt ++
          flushTrace _ (fun _ => 0) s loseLongInt).countP (FlushNote.settles o) = 0 := by
  have heval : ((exec (oneEntry .lru .writeBack 1 1 1) (fun _ => 0) (initial _ 0 .empty) putLongInt).bind
      fun s : System ℕ ℕ (oneEntry .lru .writeBack 1 1 1) => (exec _ (fun _ => 0) s loseLongInt).map fun s' =>
        decide (s.shared.lifecycle = .started ∧
          Transition.Along (step _ fun _ => 0) (fun s l => works s l = true) s loseLongInt ∧
          s'.shared.queue.unfinishedTasks = 0 ∧ s'.shared.runtime.flushFailures = 0 ∧
          (flushTrace (oneEntry .lru .writeBack 1 1 1) (fun _ => 0) (initial _ 0 .empty) putLongInt ++
            flushTrace _ (fun _ => 0) s loseLongInt).countP (FlushNote.accepts 0) = 1 ∧
          (flushTrace (oneEntry .lru .writeBack 1 1 1) (fun _ => 0) (initial _ 0 .empty) putLongInt ++
            flushTrace _ (fun _ => 0) s loseLongInt).countP (FlushNote.settles 0) = 0)) = some true := by
    decide +kernel
  obtain ⟨s, hs, heval⟩ := Option.bind_eq_some_iff.mp heval
  obtain ⟨s', hs', heval⟩ := Option.map_eq_some_iff.mp heval
  obtain ⟨hstarted, halong, hzero, hfailures, haccepts, hsettles⟩ := of_decide_eq_true heval
  exact ⟨s, s', hs, by decide, hstarted, hs', halong, hzero, hfailures, 0, haccepts, hsettles⟩

end CacheLab
