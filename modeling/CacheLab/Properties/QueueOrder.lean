import CacheLab.Lib.Trace
import CacheLab.System.Queue

/-!
# The job queue keeps its order and loses nothing

Jobs are offered to the queue by clients, by workers that retry, by the scheduler and by `close`. A job that is
offered is accepted, or refused because the queue is full; an accepted job leaves the queue when a worker takes it,
or when `close` discards what is left. A run notes these four (`QueueNote`), read off the points of the threads:
`Thread.offers` are the jobs that a thread offers in its next step.

`queue_is_fifo`: the jobs leave the queue in the order in which they were accepted, each of them once, and what was
accepted and did not leave is queued; the queue has at most `queue_size` jobs; `dropped` counts the refusals but for
those of the stop messages; and `unfinished_tasks` counts the queued jobs and those in the hands of workers.
-/

set_option linter.unusedSectionVars false

namespace CacheLab

variable {α V T : Type} [DecidableEq α] [LinearOrder T] [Zero T] [Add T] [Sub T]

variable {cfg : AcceptedConfig T} {hash : Key α → ℕ}

/-! ### What happens to jobs -/

/-- A note of what happens to a job. -/
inductive QueueNote (α V T : Type)
  | accepted (job : Job α V T)
  /-- Refused because the queue is full, and whether this counts as dropped. -/
  | refused (job : Job α V T) (counted : Bool)
  | taken (job : Job α V T)
  | discarded (job : Job α V T)
  deriving DecidableEq

namespace QueueNote

/-- The job that was accepted. -/
def accepted? : QueueNote α V T → Option (Job α V T)
  | accepted job => some job
  | _ => none

/-- The job that left. -/
def left? : QueueNote α V T → Option (Job α V T)
  | taken job => some job
  | discarded job => some job
  | _ => none

/-- Whether a job was dropped. -/
def isDropped : QueueNote α V T → Bool
  | refused _ counted => counted
  | _ => false

end QueueNote

/-- A flush job that is offered. A queue that rejects the timeout raises before it looks at the job. -/
def flushOffer (cfg : AcceptedConfig T) (t : Ticket α V) : List (Job α V T × Bool) :=
  if cfg.rejectsPuts then [] else [(.flushWriteBack t, true)]

/-- The jobs that the next step of a thread offers, and whether a refusal counts as dropped.
Source: `core/cache.py` `Cache._enqueue_job`, `Cache._enqueue_flush_jobs`, `Cache._flush_write_back_job`,
`Cache._enqueue_dirty_write_back_jobs`; `workers/worker_pool.py` `WorkerPool.stop` -/
def Thread.offers (hash : Key α → ℕ) (s : Shared α V cfg) : Thread α V T → List (Job α V T × Bool)
  | .running (.preload key ttl) _ => [(.preloadKey (shardFor cfg hash key) key ttl, true)]
  | .running (.requestSnapshot id) _ => [(.snapshotStats id, true)]
  | .enqueuing (t :: _) _ => flushOffer cfg t
  | .failed t => if 0 < t.job.retriesLeft then flushOffer cfg t.retry else []
  | .closeEnqueue _ (t :: _) => flushOffer cfg t
  | .closeStop _ => if s.poolStarted then List.replicate cfg.workerCount (.stopWorker, false) else []
  | _ => []

/-- What happens to jobs that are offered one after the other, with the queue of which only the length matters. -/
def noteOffers (maxsize : ℕ) : ℕ → List (Job α V T × Bool) → List (QueueNote α V T)
  | _, [] => []
  | length, (job, counted) :: offers =>
      if 0 < maxsize ∧ maxsize ≤ length then .refused job counted :: noteOffers maxsize length offers
      else .accepted job :: noteOffers maxsize (length + 1) offers

/-- The jobs that leave the queue in the next step of a thread. -/
def Thread.leaving (s : Shared α V cfg) : Thread α V T → List (QueueNote α V T)
  | .idle => (s.queue.items.head?.map QueueNote.taken).toList
  | .closeDrain _ => s.queue.items.map .discarded
  | _ => []

/-- What happens to jobs in a step. -/
def queueNotes (hash : Key α → ℕ) (s : System α V cfg) (l : Label α V T) (_ : System α V cfg) :
    List (QueueNote α V T) :=
  match l with
  | .schedule i => noteOffers cfg.queueSize s.shared.queue.items.length [(.expireShard i, true)]
  | .run i _ =>
      match s.threads[i]? with
      | some th =>
          th.leaving s.shared ++ noteOffers cfg.queueSize s.shared.queue.items.length (th.offers hash s.shared)
      | none => []
  | _ => []

/-- What happened to jobs in a run, oldest first. -/
def queueTrace (cfg : AcceptedConfig T) (hash : Key α → ℕ) (s : System α V cfg) (ls : List (Label α V T)) :
    List (QueueNote α V T) :=
  Transition.observe (step cfg hash) (queueNotes hash) s ls

/-! ### One step -/

/-- The queue after some notes. -/
structure CacheJobQueue.After (maxsize : ℕ) (q : CacheJobQueue α V T) (notes : List (QueueNote α V T))
    (q' : CacheJobQueue α V T) : Prop where
  items : q.items ++ notes.filterMap QueueNote.accepted? = notes.filterMap QueueNote.left? ++ q'.items
  dropped : q'.dropped = q.dropped + notes.countP QueueNote.isDropped
  room : 0 < maxsize → q.items.length ≤ maxsize → q'.items.length ≤ maxsize

namespace CacheJobQueue

variable {maxsize : ℕ} {q q' q'' : CacheJobQueue α V T} {notes notes' : List (QueueNote α V T)}

theorem After.refl (maxsize : ℕ) (q : CacheJobQueue α V T) : q.After maxsize [] q :=
  ⟨List.append_nil _, rfl, fun _ h => h⟩

/-- Nothing happens to the jobs. -/
theorem after_of_eq (hitems : q'.items = q.items) (hdropped : q'.dropped = q.dropped) : q.After maxsize [] q' :=
  ⟨(List.append_nil _).trans hitems.symm, hdropped, fun _ h => hitems ▸ h⟩

/-- A job is offered. -/
theorem after_putNowait (maxsize : ℕ) (q : CacheJobQueue α V T) (job : Job α V T) :
    q.After maxsize (noteOffers maxsize q.items.length [(job, true)]) (q.putNowait maxsize job) := by
  unfold noteOffers putNowait full
  by_cases hfull : 0 < maxsize ∧ maxsize ≤ q.items.length
  · rw [if_pos hfull, if_pos (by simpa using hfull)]
    exact ⟨List.append_nil _, rfl, fun _ h => h⟩
  · rw [if_neg hfull, if_neg (by simpa using hfull)]
    refine ⟨rfl, rfl, ?_⟩
    intro hpos _
    have hroom : q.items.length < maxsize := not_le.mp fun hle => hfull ⟨hpos, hle⟩
    show (q.items ++ [job]).length ≤ maxsize
    rw [List.length_append]
    exact hroom

/-- Stop messages are offered. -/
theorem after_stop (maxsize : ℕ) (q : CacheJobQueue α V T) (n : ℕ) :
    q.After maxsize (noteOffers maxsize q.items.length (List.replicate n (.stopWorker, false)))
      ((List.replicate n ()).foldl (fun q _ => q.offer maxsize .stopWorker) q) := by
  induction n generalizing q with
  | zero => exact .refl maxsize q
  | succ n ih =>
      have hrest := ih (q.offer maxsize .stopWorker)
      rw [List.replicate_succ, List.replicate_succ, List.foldl_cons]
      unfold noteOffers
      by_cases hfull : 0 < maxsize ∧ maxsize ≤ q.items.length
      · have hsame : q.offer maxsize .stopWorker = q := if_pos (by simpa [full] using hfull)
        rw [if_pos hfull, hsame]
        rw [hsame] at hrest
        exact ⟨hrest.items, hrest.dropped, hrest.room⟩
      · have hpush : q.offer maxsize .stopWorker = q.push .stopWorker := if_neg (by simpa [full] using hfull)
        rw [if_neg hfull, hpush]
        rw [hpush] at hrest
        have hlength : (q.push (.stopWorker : Job α V T)).items.length = q.items.length + 1 := List.length_append
        rw [hlength] at hrest
        refine ⟨?_, hrest.dropped, ?_⟩
        · have hitems := hrest.items
          rw [show (q.push (.stopWorker : Job α V T)).items = q.items ++ [Job.stopWorker] from rfl,
            List.append_assoc] at hitems
          exact hitems
        · intro hpos _
          apply hrest.room hpos
          rw [hlength]
          exact not_le.mp fun hle => hfull ⟨hpos, hle⟩

end CacheJobQueue

section Steps

variable {s u s' : Shared α V cfg} {c : Choice α V} {th th' : Thread α V T}

/-- **What a step of a thread does to the queue** is what its notes say. -/
def Shared.Queues (hash : Key α → ℕ) (s : Shared α V cfg) (th : Thread α V T) (s' : Shared α V cfg) : Prop :=
  s.queue.After cfg.queueSize
    (th.leaving s ++ noteOffers cfg.queueSize s.queue.items.length (th.offers hash s)) s'.queue

/-- Nothing is offered and nothing leaves. -/
theorem queues_of_eq (hleaving : th.leaving s = []) (hoffers : th.offers hash s = [])
    (hitems : s'.queue.items = s.queue.items) (hdropped : s'.queue.dropped = s.queue.dropped) :
    s.Queues hash th s' := by
  unfold Shared.Queues
  rw [hleaving, hoffers]
  exact CacheJobQueue.after_of_eq hitems hdropped

/-- One job is offered. -/
theorem queues_of_putNowait {job : Job α V T} (hleaving : th.leaving s = [])
    (hoffers : th.offers hash s = [(job, true)]) (hqueue : s'.queue = s.queue.putNowait cfg.queueSize job) :
    s.Queues hash th s' := by
  unfold Shared.Queues
  rw [hleaving, hoffers, hqueue]
  exact CacheJobQueue.after_putNowait cfg.queueSize s.queue job

/-- Enqueuing a flush job does not raise: it is offered. -/
theorem queues_of_offer {t : Ticket α V} (hrej : ¬ s.rejects c t = true) (hleaving : th.leaving s = [])
    (hoffers : th.offers hash s = flushOffer cfg t)
    (hqueue : s'.queue = s.queue.putNowait cfg.queueSize (.flushWriteBack t)) : s.Queues hash th s' := by
  rw [Shared.rejects, Bool.or_eq_true, not_or] at hrej
  exact queues_of_putNowait hleaving (hoffers.trans (if_neg hrej.1)) hqueue

/-- Enqueuing a flush job raises: a full queue has refused it first. -/
theorem queues_of_lost {t : Ticket α V} {ts : List (Ticket α V)} (hrej : s.rejects c t = true)
    (hleaving : th.leaving s = []) (hoffers : th.offers hash s = flushOffer cfg t)
    (hqueue : s'.queue = (s.lose ts).queue) : s.Queues hash th s' := by
  unfold Shared.lose at hqueue
  by_cases hputs : cfg.rejectsPuts
  · rw [if_pos hputs] at hqueue
    exact queues_of_eq hleaving (hoffers.trans (if_pos hputs)) (by rw [hqueue]; rfl) (by rw [hqueue]; rfl)
  · have hfull : s.queue.full cfg.queueSize = true := by
      rw [Shared.rejects, Bool.or_eq_true, Bool.and_eq_true] at hrej
      exact (hrej.resolve_left hputs).1
    have hrefused : s.queue.putNowait cfg.queueSize (.flushWriteBack t) = s.queue.drop := if_pos hfull
    have hnoted := CacheJobQueue.after_putNowait cfg.queueSize s.queue (.flushWriteBack t)
    rw [hrefused] at hnoted
    rw [if_neg hputs] at hqueue
    unfold Shared.Queues
    rw [hleaving, hoffers, flushOffer, if_neg hputs, hqueue]
    exact ⟨hnoted.items, hnoted.dropped, hnoted.room⟩

/-- The jobs of a section are going to be offered. -/
theorem queues_enqueueOr {ts : List (Ticket α V)} {caller : Caller α V T} (h : enqueueOr u ts caller = (s', th'))
    (hu : u.queue = s.queue) (hleaving : th.leaving s = []) (hoffers : th.offers hash s = []) :
    s.Queues hash th s' := by
  have hqueue := (queue_enqueueOr h).1.trans hu
  exact queues_of_eq hleaving hoffers (congrArg CacheJobQueue.items hqueue)
    (congrArg CacheJobQueue.dropped hqueue)

/-- A section that leaves the queue alone. -/
theorem queues_of_queue_eq (hqueue : s'.queue = s.queue) (hleaving : th.leaving s = [])
    (hoffers : th.offers hash s = []) : s.Queues hash th s' :=
  queues_of_eq hleaving hoffers (congrArg CacheJobQueue.items hqueue) (congrArg CacheJobQueue.dropped hqueue)

/-- A section in one shard, and then a step that leaves the queue alone. -/
theorem queues_onShard {i : ℕ} {f : CacheShard α V T → CacheShard α V T} (hs₁ : s.onShard i f = some u)
    (hqueue : s'.queue = u.queue) (hleaving : th.leaving s = []) (hoffers : th.offers hash s = []) :
    s.Queues hash th s' :=
  queues_of_queue_eq (hqueue.trans (queue_onShard hs₁)) hleaving hoffers

/-- A step inside a public operation. -/
theorem clientStep_queues (h : clientStep hash s c th = some (s', th')) : s.Queues hash th s' := by
  cases th with
  | entering op caller =>
      rcases entering_cases h with ⟨rfl, -⟩ | ⟨rfl, -⟩ | ⟨rfl, -⟩ | ⟨rfl, -⟩
      · exact queues_of_queue_eq (caller.queue_of_count s false) rfl rfl
      · exact queues_of_eq rfl rfl rfl rfl
      · exact queues_of_eq rfl rfl rfl rfl
      · exact queues_of_eq rfl rfl rfl rfl
  | running op caller =>
      cases op with
      | put key value ttl =>
          simp only [clientStep] at h
          split_ifs at h
          · cases h
            exact queues_of_queue_eq (caller.queue_of_count _ false) rfl rfl
          · exact queues_enqueueOr (Option.some.inj h) rfl rfl rfl
      | delete key =>
          simp only [clientStep] at h
          split_ifs at h
          · cases h
            exact queues_of_eq rfl rfl rfl rfl
          · exact queues_enqueueOr (Option.some.inj h) rfl rfl rfl
      | getOrCompute key ttl =>
          simp only [clientStep] at h
          split at h <;> cases h <;> exact queues_of_eq rfl rfl rfl rfl
      | preload key ttl =>
          cases h
          exact queues_of_putNowait rfl rfl rfl
      | requestSnapshot id =>
          cases h
          exact queues_of_putNowait rfl rfl rfl
      | close flush => cases h
      | _ =>
          cases h
          exact queues_of_eq rfl rfl rfl rfl
  | clearing i ts =>
      simp only [clientStep] at h
      split_ifs at h
      · cases h
        exact queues_of_eq rfl rfl rfl rfl
      · cases h
        exact queues_of_eq rfl rfl rfl rfl
      · exact queues_enqueueOr (Option.some.inj h) rfl rfl rfl
  | sizing i total =>
      simp only [clientStep] at h
      split_ifs at h <;> cases h <;> exact queues_of_eq rfl rfl rfl rfl
  | dumping i taken limit =>
      simp only [clientStep] at h
      split_ifs at h <;> cases h <;> exact queues_of_eq rfl rfl rfl rfl
  | expiring i removed =>
      simp only [clientStep] at h
      split_ifs at h <;> cases h <;> exact queues_of_eq rfl rfl rfl rfl
  | enqueuing ts caller =>
      cases ts with
      | nil =>
          cases h
          exact queues_of_queue_eq (caller.queue_of_count s true) rfl rfl
      | cons t ts =>
          simp only [clientStep] at h
          split_ifs at h with hrej hfull
          · cases h
            exact queues_of_lost hrej rfl rfl (caller.queue_of_count _ false)
          · cases h
            exact queues_of_offer hrej rfl rfl (if_pos hfull).symm
          · exact queues_of_offer hrej rfl rfl ((queue_enqueueOr (Option.some.inj h)).1.trans (if_neg hfull).symm)
  | releasing ts caller =>
      cases ts with
      | nil =>
          cases h
          exact queues_of_queue_eq (caller.queue_of_count s false) rfl rfl
      | cons t ts =>
          obtain ⟨s₁, hs₁, heq⟩ := Option.map_eq_some_iff.mp h
          cases heq
          exact queues_onShard hs₁ rfl rfl rfl
  | loading key ttl flight =>
      simp only [clientStep] at h
      split at h <;> cases h <;> exact queues_of_eq rfl rfl rfl rfl
  | waiting flight =>
      obtain ⟨rfl, -⟩ := waiting_cases h
      exact queues_of_eq rfl rfl rfl rfl
  | leading key ttl flight =>
      cases h
      exact queues_of_eq rfl rfl rfl rfl
  | publishing key flight value =>
      cases h
      exact queues_of_eq rfl rfl rfl rfl
  | failing key flight exn =>
      cases h
      exact queues_of_eq rfl rfl rfl rfl
  | _ => cases h

/-- A step of a worker. -/
theorem workerStep_queues (h : workerStep s c th = some (s', th')) : s.Queues hash th s' := by
  cases th with
  | idle =>
      simp only [workerStep] at h
      split at h
      · next job rest hitems =>
          cases h
          have hleaving : (Thread.idle : Thread α V T).leaving s = [QueueNote.taken job] := by simp [Thread.leaving, hitems]
          unfold Shared.Queues
          rw [hleaving]
          refine ⟨?_, rfl, ?_⟩
          · show s.queue.items ++ [] = [job] ++ rest
            rw [hitems, List.append_nil]
            rfl
          · intro _ hroom
            rw [hitems] at hroom
            exact (Nat.le_succ _).trans hroom
      · next hitems =>
          split_ifs at h
          cases h
          exact queues_of_eq (by simp [Thread.leaving, hitems]) rfl rfl rfl
  | handling job =>
      cases job with
      | expireShard i =>
          obtain ⟨s₁, hs₁, heq⟩ := Option.map_eq_some_iff.mp h
          cases heq
          exact queues_onShard hs₁ rfl rfl rfl
      | flushWriteBack t =>
          simp only [workerStep] at h
          split_ifs at h <;> cases h <;> exact queues_of_eq rfl rfl rfl rfl
      | preloadKey i key ttl =>
          simp only [workerStep] at h
          split at h <;> cases h <;> exact queues_of_eq rfl rfl rfl rfl
      | snapshotStats id =>
          cases h
          exact queues_of_eq rfl rfl rfl rfl
      | stopWorker =>
          cases h
          exact queues_of_eq rfl rfl rfl rfl
  | checked t =>
      simp only [workerStep] at h
      split_ifs at h <;> cases h <;> exact queues_of_eq rfl rfl rfl rfl
  | failed t =>
      simp only [workerStep] at h
      split_ifs at h with hleft hrej hfull <;> cases h
      · exact queues_of_lost hrej rfl (if_pos hleft) rfl
      · exact queues_of_offer hrej rfl (if_pos hleft) (if_pos hfull).symm
      · exact queues_of_offer hrej rfl (if_pos hleft) (if_neg hfull).symm
      · exact queues_of_eq rfl (if_neg hleft) rfl rfl
  | dropped t =>
      obtain ⟨s₁, hs₁, heq⟩ := Option.map_eq_some_iff.mp h
      cases heq
      exact queues_onShard hs₁ rfl rfl rfl
  | landed t =>
      obtain ⟨s₁, hs₁, heq⟩ := Option.map_eq_some_iff.mp h
      cases heq
      exact queues_onShard hs₁ rfl rfl rfl
  | finishing =>
      cases h
      exact queues_of_eq rfl rfl rfl rfl
  | _ => cases h

/-- What is discarded had been accepted. -/
theorem filterMap_discarded (jobs : List (Job α V T)) :
    (jobs.map QueueNote.discarded).filterMap QueueNote.accepted? = [] ∧
      (jobs.map QueueNote.discarded).filterMap QueueNote.left? = jobs ∧
      (jobs.map QueueNote.discarded).countP QueueNote.isDropped = 0 := by
  induction jobs with
  | nil => exact ⟨rfl, rfl, rfl⟩
  | cons job jobs ih =>
      obtain ⟨haccepted, hleft, hdropped⟩ := ih
      refine ⟨haccepted, ?_, ?_⟩
      · show job :: (jobs.map QueueNote.discarded).filterMap QueueNote.left? = job :: jobs
        rw [hleft]
      · rw [List.map_cons, List.countP_cons_of_neg (by simp [QueueNote.isDropped]), hdropped]

/-- A step of `close`. -/
theorem closeStep_queues (h : closeStep s c th = some (s', th')) : s.Queues hash th s' := by
  cases th with
  | closeCollect i =>
      simp only [closeStep] at h
      split_ifs at h
      cases h
      exact queues_of_eq rfl rfl rfl rfl
  | closeEnqueue i ts =>
      cases ts with
      | nil =>
          cases h
          exact queues_of_eq rfl rfl rfl rfl
      | cons t ts =>
          simp only [closeStep] at h
          split_ifs at h with hrej hfull <;> cases h
          · exact queues_of_lost hrej rfl rfl rfl
          · exact queues_of_offer hrej rfl rfl (if_pos hfull).symm
          · exact queues_of_offer hrej rfl rfl (if_neg hfull).symm
  | closeRelease i ts =>
      cases ts with
      | nil =>
          cases h
          exact queues_of_eq rfl rfl rfl rfl
      | cons t ts =>
          obtain ⟨s₁, hs₁, heq⟩ := Option.map_eq_some_iff.mp h
          cases heq
          exact queues_onShard hs₁ rfl rfl rfl
  | closeJoin =>
      simp only [closeStep] at h
      split_ifs at h <;> cases h <;> exact queues_of_eq rfl rfl rfl rfl
  | syncCollect i failed =>
      simp only [closeStep] at h
      split_ifs at h <;> cases h <;> exact queues_of_eq rfl rfl rfl rfl
  | syncNext i ts failed =>
      cases ts with
      | nil =>
          cases h
          exact queues_of_eq rfl rfl rfl rfl
      | cons t ts =>
          simp only [closeStep] at h
          split_ifs at h <;> cases h <;> exact queues_of_eq rfl rfl rfl rfl
  | syncTry i t left ts failed =>
      simp only [closeStep] at h
      split_ifs at h
      · cases h
        exact queues_of_eq rfl rfl rfl rfl
      · cases left <;> cases h <;> exact queues_of_eq rfl rfl rfl rfl
  | syncClean i t ts failed =>
      obtain ⟨s₁, hs₁, heq⟩ := Option.map_eq_some_iff.mp h
      cases heq
      exact queues_onShard hs₁ rfl rfl rfl
  | syncSettle i t success ts failed =>
      obtain ⟨s₁, hs₁, heq⟩ := Option.map_eq_some_iff.mp h
      cases success <;> cases heq <;> exact queues_onShard hs₁ rfl rfl rfl
  | closeStop failed =>
      simp only [closeStep] at h
      split_ifs at h with hstarted <;> cases h
      · have hoffers : (Thread.closeStop failed : Thread α V T).offers hash s =
            List.replicate cfg.workerCount (.stopWorker, false) := if_pos hstarted
        unfold Shared.Queues
        rw [hoffers]
        exact CacheJobQueue.after_stop cfg.queueSize s.queue cfg.workerCount
      · exact queues_of_eq rfl (if_neg hstarted) rfl rfl
  | closeDrain failed =>
      cases h
      obtain ⟨haccepted, hleft, hdropped⟩ := filterMap_discarded s.queue.items
      have hnotes : (Thread.closeDrain failed : Thread α V T).leaving s ++
          noteOffers cfg.queueSize s.queue.items.length ((Thread.closeDrain failed).offers hash s) =
          s.queue.items.map QueueNote.discarded := List.append_nil _
      unfold Shared.Queues
      rw [hnotes]
      refine ⟨?_, ?_, fun _ _ => Nat.zero_le _⟩
      · rw [haccepted, hleft]
        rfl
      · rw [hdropped]
        rfl
  | _ => cases h

/-- **A step of a thread.** -/
theorem threadStep_queues (h : threadStep hash s c th = some (s', th')) : s.Queues hash th s' := by
  rcases threadStep_cases h with hstep | hstep | hstep
  · exact clientStep_queues hstep
  · exact workerStep_queues hstep
  · exact closeStep_queues hstep

end Steps

/-! ### Runs -/

section Run

variable {s s' : System α V cfg} {l : Label α V T} {ls : List (Label α V T)} {now : T} {src : Source α V}

/-- **A step of the system** does to the queue what is noted. -/
theorem step_queues (h : step cfg hash s l = some s') :
    s.shared.queue.After cfg.queueSize (queueNotes hash s l s') s'.shared.queue := by
  cases l with
  | tick now =>
      simp only [step] at h
      split_ifs at h
      cases h
      exact .refl _ _
  | start =>
      simp only [step] at h
      split at h <;> cases h <;> exact .refl _ _
  | call op =>
      cases h
      exact .refl _ _
  | schedule i =>
      simp only [step] at h
      split_ifs at h
      cases h
      exact CacheJobQueue.after_putNowait cfg.queueSize s.shared.queue (.expireShard i)
  | run i c =>
      simp only [step, Option.bind_eq_some_iff, Option.map_eq_some_iff] at h
      obtain ⟨th, hi, ⟨sh, th'⟩, hr, rfl⟩ := h
      simp only [queueNotes, hi]
      exact threadStep_queues hr

/-- **The job queue is first in, first out, and loses nothing.** In every run, with any number of clients and
workers: the jobs that left the queue, to a worker or discarded by `close`, are the first accepted ones, in the order
of acceptance, and the others are queued in that order; the queue keeps to `queue_size`; `dropped` counts the refused
jobs that were not stop messages; and `unfinished_tasks` counts the queued jobs and those in the hands of workers. -/
theorem queue_is_fifo (h : exec cfg hash (initial cfg now src) ls = some s) :
    (queueTrace cfg hash (initial cfg now src) ls).filterMap QueueNote.accepted? =
        (queueTrace cfg hash (initial cfg now src) ls).filterMap QueueNote.left? ++ s.shared.queue.items ∧
      (0 < cfg.queueSize → s.shared.queue.items.length ≤ cfg.queueSize) ∧
      s.shared.queue.dropped = (queueTrace cfg hash (initial cfg now src) ls).countP QueueNote.isDropped ∧
      s.shared.queue.unfinishedTasks = s.shared.queue.items.length + (s.threads.map Thread.busy).sum := by
  have hstep : ∀ (tr : List (QueueNote α V T)) (s : System α V cfg) (l : Label α V T) (s' : System α V cfg),
      step cfg hash s l = some s' → CacheJobQueue.After cfg.queueSize {} tr s.shared.queue →
      CacheJobQueue.After cfg.queueSize {} (tr ++ queueNotes hash s l s') s'.shared.queue := by
    intro tr s l s' hs htr
    have hnow := step_queues hs
    refine ⟨?_, ?_, fun hpos hroom => hnow.room hpos (htr.room hpos hroom)⟩
    · rw [List.filterMap_append, List.filterMap_append, ← List.append_assoc, htr.items, List.append_assoc,
        hnow.items, List.append_assoc]
    · rw [hnow.dropped, htr.dropped, List.countP_append, Nat.add_assoc]
  have hqueue := Transition.observe_invariant_of_step hstep h (.refl _ _)
  have hitems := hqueue.items
  rw [List.nil_append] at hitems
  refine ⟨hitems, fun hpos => hqueue.room hpos (Nat.zero_le _), ?_, (base_exec h).tally⟩
  exact hqueue.dropped.trans (Nat.zero_add _)

end Run

/-- Three puts against a queue of one job: the second job is refused, the third is queued when the first is taken. -/
def threePuts : List (Label ℕ ℕ ℕ) :=
  [Label.start, .call (.put (some 1) 5 .unset), .call (.put (some 1) 6 .unset)] ++ List.replicate 3 (Label.run 1 {}) ++
    List.replicate 5 (Label.run 2 {}) ++ [Label.run 0 {}, .call (.put (some 1) 7 .unset)] ++ List.replicate 3 (Label.run 3 {})

/-- One job is in the hands of the worker, one is queued, one was dropped. -/
theorem queue_is_fifo_threePuts :
    ∃ s : System ℕ ℕ (oneEntry .lru .writeBack 1 1 0),
      exec _ (fun _ => 0) (initial _ 0 .empty) threePuts = some s ∧
      (queueTrace (oneEntry .lru .writeBack 1 1 0) (fun _ => 0) (initial _ 0 .empty) threePuts).filterMap
          QueueNote.accepted? =
        (queueTrace (oneEntry .lru .writeBack 1 1 0) (fun _ => 0) (initial _ 0 .empty) threePuts).filterMap
          QueueNote.left? ++ s.shared.queue.items ∧
      (s.shared.queue.items.length, s.shared.queue.dropped, s.shared.queue.unfinishedTasks) = (1, 1, 2) := by
  have heval : (exec (oneEntry .lru .writeBack 1 1 0) (fun _ => 0) (initial _ 0 .empty) threePuts).map
      (fun s => (s.shared.queue.items.length, s.shared.queue.dropped, s.shared.queue.unfinishedTasks)) =
      some (1, 1, 2) := by
    decide +kernel
  obtain ⟨s, hs, hvalues⟩ := Option.map_eq_some_iff.mp heval
  obtain ⟨hitems, -, -, -⟩ := queue_is_fifo hs
  exact ⟨s, hs, hitems, hvalues⟩

end CacheLab
