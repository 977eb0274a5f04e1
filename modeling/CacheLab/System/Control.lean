import CacheLab.System.Effect

/-!
# The control flow of the threads

What a step does to the point at which its thread stands, as far as later modules need it:

* a thread keeps its `Role`: client, worker or closer (a closer that is done counts as a client);
* a thread whose `close` does not flush never starts to (`Thread.flushing`);
* the jobs that the closer holds belong to the shard it is at (`Thread.Placed`);
* the queue's count of unfinished tasks is the number of queued jobs plus the number of workers that
  are busy with one (`Thread.busy`).
-/

set_option linter.unusedSectionVars false

namespace CacheLab

variable {α V T : Type} [DecidableEq α] [LinearOrder T] [Zero T] [Add T] [Sub T]

open WriteBehind

variable {cfg : AcceptedConfig T} {hash : Key α → ℕ}

/-- What a thread is for. -/
inductive Role
  | client
  | worker
  | closer
  deriving DecidableEq

/-- The role behind a put. -/
def Caller.role : Caller α V T → Role
  | preloader => .worker
  | _ => .client

/-- The role of a thread. -/
def Thread.role : Thread α V T → Role
  | .entering (.close _) _ => .closer
  | .entering _ caller => caller.role
  | .running _ caller => caller.role
  | .enqueuing _ caller => caller.role
  | .releasing _ caller => caller.role
  | .idle => .worker
  | .handling _ => .worker
  | .checked _ => .worker
  | .landed _ => .worker
  | .failed _ => .worker
  | .dropped _ => .worker
  | .finishing => .worker
  | .stopped => .worker
  | .closeCollect _ => .closer
  | .closeEnqueue _ _ => .closer
  | .closeRelease _ _ => .closer
  | .closeJoin => .closer
  | .syncCollect _ _ => .closer
  | .syncNext _ _ _ => .closer
  | .syncTry _ _ _ _ _ => .closer
  | .syncClean _ _ _ _ => .closer
  | .syncSettle _ _ _ _ _ => .closer
  | .closeStop _ => .closer
  | .closeDrain _ => .closer
  | _ => .client

/-- The call is over. -/
def Thread.isFinished : Thread α V T → Bool
  | .finished _ => true
  | _ => false

/-- Only a put has a caller that is no client. -/
def Thread.Fit : Thread α V T → Prop
  | .entering op caller => caller.role = .client ∨ ∃ key value ttl, op = .put key value ttl
  | .running op caller => caller.role = .client ∨ ∃ key value ttl, op = .put key value ttl
  | _ => True

/-- A worker between taking a job and `task_done`. -/
def Thread.busy (th : Thread α V T) : ℕ :=
  match th with
  | .idle => 0
  | .stopped => 0
  | th => if th.role = .worker then 1 else 0

/-- A busy thread is a worker. -/
theorem Thread.role_of_busy {th : Thread α V T} (h : th.busy ≠ 0) : th.role = .worker := by
  by_contra hrole
  refine h ?_
  cases th <;> first | rfl | exact if_neg hrole

/-- What a step does to the point of its thread. -/
structure Control (s : Shared α V cfg) (th : Thread α V T) (s' : Shared α V cfg)
    (th' : Thread α V T) : Prop where
  role : th'.role = th.role ∨ th.role = .closer ∧ ∃ result, th' = .finished result
  fit : th'.Fit
  placed : th'.Placed
  flushing : cfg.writeMode ≠ .writeBack → th.flushing = false → th'.flushing = false
  unfinished : s.queue.items.length + th.busy ≤ s.queue.unfinishedTasks →
    s'.queue.unfinishedTasks + s.queue.items.length + th.busy =
      s.queue.unfinishedTasks + s'.queue.items.length + th'.busy

section Steps

variable {s s' : Shared α V cfg} {c : Choice α V} {th th' : Thread α V T}

/-- A step that leaves the queue alone, between points outside `close`. -/
theorem Control.of_queue (hr : th'.role = th.role) (hf : th'.Fit) (hp : th'.Placed)
    (hfl : th'.flushing = false) (hb : th'.busy = th.busy) (hq : s'.queue = s.queue) :
    Control s th s' th' :=
  ⟨.inl hr, hf, hp, fun _ _ => hfl, fun _ => by rw [hq, hb]⟩

/-- A caller that got an answer keeps its role and leaves the queue alone. -/
theorem Caller.returned_spec (caller : Caller α V T) (s : Shared α V cfg) (completed : Bool) :
    (caller.returned : Thread α V T).role = caller.role ∧ (caller.returned : Thread α V T).Fit ∧
      (caller.returned : Thread α V T).Placed ∧ (caller.returned : Thread α V T).flushing = false ∧
      (caller.returned : Thread α V T).busy = (if caller.role = .worker then 1 else 0) ∧
      (caller.count s completed).queue = s.queue := by
  cases caller <;> exact ⟨rfl, trivial, trivial, rfl, rfl, rfl⟩

/-- See `Caller.returned_spec`. -/
theorem Caller.raised_spec (caller : Caller α V T) (exn : Exn) (s : Shared α V cfg) (completed : Bool) :
    (caller.raised exn : Thread α V T).role = caller.role ∧ (caller.raised exn : Thread α V T).Fit ∧
      (caller.raised exn : Thread α V T).Placed ∧ (caller.raised exn : Thread α V T).flushing = false ∧
      (caller.raised exn : Thread α V T).busy = (if caller.role = .worker then 1 else 0) ∧
      (caller.count s completed).queue = s.queue := by
  cases caller with
  | client result => exact ⟨rfl, trivial, trivial, rfl, rfl, rfl⟩
  | preloader => exact ⟨rfl, trivial, trivial, rfl, rfl, rfl⟩
  | leader key flight value => cases exn <;> exact ⟨rfl, trivial, trivial, rfl, rfl, rfl⟩

/-- Starting to enqueue keeps the role and leaves the queue alone. -/
theorem enqueueOr_control {ts : List (Ticket α V)} {caller : Caller α V T}
    (h : enqueueOr s ts caller = (s', th')) :
    th'.role = caller.role ∧ th'.Fit ∧ th'.Placed ∧ th'.flushing = false ∧
      th'.busy = (if caller.role = .worker then 1 else 0) ∧ s'.queue = s.queue := by
  cases ts with
  | nil =>
      cases h
      exact caller.returned_spec s true
  | cons t ts =>
      cases h
      exact ⟨rfl, trivial, trivial, rfl, rfl, rfl⟩

theorem CacheJobQueue.putNowait_counts (q : CacheJobQueue α V T) (n : ℕ) (job : Job α V T) :
    (q.putNowait n job).unfinishedTasks + q.items.length =
      q.unfinishedTasks + (q.putNowait n job).items.length := by
  unfold CacheJobQueue.putNowait CacheJobQueue.drop CacheJobQueue.push
  split_ifs
  · rfl
  · simp only [List.length_append, List.length_singleton]
    omega

theorem CacheJobQueue.stop_counts (q : CacheJobQueue α V T) (n : ℕ) (l : List Unit) :
    (l.foldl (fun q _ => q.offer n .stopWorker) q).unfinishedTasks + q.items.length =
      q.unfinishedTasks + (l.foldl (fun q _ => q.offer n .stopWorker) q).items.length := by
  induction l generalizing q with
  | nil => rfl
  | cons u l ih =>
      have hoffer : (q.offer n .stopWorker).unfinishedTasks + q.items.length =
          q.unfinishedTasks + (q.offer n .stopWorker).items.length := by
        unfold CacheJobQueue.offer CacheJobQueue.push
        split_ifs
        · rfl
        · simp only [List.length_append, List.length_singleton]
          omega
      have := ih (q.offer n .stopWorker)
      rw [List.foldl_cons]
      omega

/-- The role of a call that is no `close` is the role of its caller. -/
theorem Thread.role_entering {op : Op α V T} (hop : ∀ flush, op ≠ .close flush) (caller : Caller α V T) :
    (Thread.entering op caller).role = caller.role := by
  cases op <;> first | rfl | exact absurd rfl (hop _)

/-- See `Thread.role_entering`. -/
theorem Thread.busy_entering {op : Op α V T} (hop : ∀ flush, op ≠ .close flush)
    (caller : Caller α V T) :
    (Thread.entering op caller).busy = if caller.role = .worker then 1 else 0 := by
  show (if (Thread.entering op caller).role = .worker then 1 else 0) = _
  rw [Thread.role_entering hop]

/-- Only puts are run for a caller that is no client. -/
theorem Thread.Fit.role_eq {op : Op α V T} {caller : Caller α V T} (h : (Thread.running op caller).Fit)
    (hop : ∀ key value ttl, op ≠ .put key value ttl) : caller.role = .client :=
  h.resolve_right fun ⟨key, value, ttl, e⟩ => hop key value ttl e

/-- A client is not busy. -/
theorem Thread.busy_of_client {th : Thread α V T} (h : th.role = .client) : th.busy = 0 := by
  cases th <;> simp_all [Thread.busy]

/-- A client that leaves the queue alone and is not at a point of `close`. -/
theorem Control.client (hr : th.role = .client) (hr' : th'.role = .client) (hf : th'.Fit)
    (hp : th'.Placed) (hfl : th'.flushing = false) (hq : s'.queue = s.queue) : Control s th s' th' :=
  .of_queue (hr'.trans hr.symm) hf hp hfl
    ((Thread.busy_of_client hr').trans (Thread.busy_of_client hr).symm) hq

/-- The control flow of a public operation. -/
theorem clientStep_control (h : clientStep hash s c th = some (s', th')) (hfit : th.Fit) :
    Control s th s' th' := by
  cases th with
  | entering op caller =>
      rcases entering_cases h with ⟨rfl, ⟨exn, rfl⟩, hop⟩ | ⟨rfl, rfl, -, -, -, hop⟩ | ⟨rfl, rfl, flush, rfl⟩ |
        ⟨rfl, -, -, flush, rfl, rfl⟩
      · obtain ⟨h1, h2, h3, h4, h5, h6⟩ := caller.raised_spec exn s false (T := T)
        exact .of_queue (h1.trans (Thread.role_entering hop caller).symm) h2 h3 h4
          (h5.trans (Thread.busy_entering hop caller).symm) h6
      · exact .of_queue (Thread.role_entering hop caller).symm hfit trivial rfl
          (Thread.busy_entering hop caller).symm rfl
      · exact ⟨.inr ⟨rfl, _, rfl⟩, trivial, trivial, fun _ _ => rfl, fun _ => rfl⟩
      · split_ifs with hfl
        · exact ⟨.inl rfl, trivial, trivial, fun hmode _ => absurd hfl.2 hmode, fun _ => rfl⟩
        · exact ⟨.inl rfl, trivial, trivial, fun _ _ => rfl, fun _ => rfl⟩
  | running op caller =>
      cases op with
      | put key value ttl =>
          simp only [clientStep] at h
          split_ifs at h with hr
          · cases h
            obtain ⟨h1, h2, h3, h4, h5, h6⟩ := caller.raised_spec .sourceFailure
              (s.putSection hash key value ttl (c.ok key)).1 false (T := T)
            exact .of_queue h1 h2 h3 h4 h5 h6
          · obtain ⟨h1, h2, h3, h4, h5, h6⟩ := enqueueOr_control (Option.some.inj h)
            exact .of_queue h1 h2 h3 h4 h5 h6
      | get key =>
          have hr := hfit.role_eq (by simp)
          cases h
          exact .client hr rfl trivial trivial rfl rfl
      | contains key =>
          have hr := hfit.role_eq (by simp)
          cases h
          exact .client hr rfl trivial trivial rfl rfl
      | inspect key =>
          have hr := hfit.role_eq (by simp)
          cases h
          exact .client hr rfl trivial trivial rfl rfl
      | delete key =>
          have hr := hfit.role_eq (by simp)
          simp only [clientStep] at h
          split_ifs at h
          · cases h
            exact .client hr rfl trivial trivial rfl rfl
          · obtain ⟨h1, h2, h3, h4, h5, h6⟩ := enqueueOr_control (Option.some.inj h)
            exact .client hr h1 h2 h3 h4 h6
      | clear =>
          have hr := hfit.role_eq (by simp)
          cases h
          exact .client hr rfl trivial trivial rfl rfl
      | size =>
          have hr := hfit.role_eq (by simp)
          cases h
          exact .client hr rfl trivial trivial rfl rfl
      | dump limit =>
          have hr := hfit.role_eq (by simp)
          cases h
          exact .client hr rfl trivial trivial rfl rfl
      | expireAll =>
          have hr := hfit.role_eq (by simp)
          cases h
          exact .client hr rfl trivial trivial rfl rfl
      | getOrCompute key ttl =>
          have hr := hfit.role_eq (by simp)
          simp only [clientStep] at h
          split at h <;> cases h <;> exact .client hr rfl trivial trivial rfl rfl
      | preload key ttl =>
          have hr : (Thread.running (.preload key ttl) caller).role = .client := hfit.role_eq (by simp)
          cases h
          refine ⟨.inl hr.symm, trivial, trivial, fun _ _ => rfl, fun _ => ?_⟩
          rw [Thread.busy_of_client hr]
          exact s.queue.putNowait_counts cfg.queueSize (.preloadKey (shardFor cfg hash key) key ttl)
      | requestSnapshot id =>
          have hr : (Thread.running (.requestSnapshot id) caller : Thread α V T).role = .client :=
            hfit.role_eq (by simp)
          cases h
          refine ⟨.inl hr.symm, trivial, trivial, fun _ _ => rfl, fun _ => ?_⟩
          rw [Thread.busy_of_client hr]
          exact s.queue.putNowait_counts cfg.queueSize (.snapshotStats id)
      | restoreEntryMetadata key n =>
          have hr := hfit.role_eq (by simp)
          cases h
          exact .client hr rfl trivial trivial rfl rfl
      | close flush => cases h
  | clearing i ts =>
      simp only [clientStep] at h
      split_ifs at h
      · cases h
        exact .client rfl rfl trivial trivial rfl rfl
      · cases h
        exact .client rfl rfl trivial trivial rfl rfl
      · obtain ⟨h1, h2, h3, h4, h5, h6⟩ := enqueueOr_control (Option.some.inj h)
        exact .client rfl h1 h2 h3 h4 h6
  | sizing i total =>
      simp only [clientStep] at h
      split_ifs at h <;> cases h <;> exact .client rfl rfl trivial trivial rfl rfl
  | dumping i taken limit =>
      simp only [clientStep] at h
      split_ifs at h <;> cases h <;> exact .client rfl rfl trivial trivial rfl rfl
  | expiring i removed =>
      simp only [clientStep] at h
      split_ifs at h <;> cases h <;> exact .client rfl rfl trivial trivial rfl rfl
  | enqueuing ts caller =>
      cases ts with
      | nil =>
          cases h
          obtain ⟨h1, h2, h3, h4, h5, h6⟩ := caller.returned_spec s true (T := T)
          exact .of_queue h1 h2 h3 h4 h5 h6
      | cons t ts =>
          simp only [clientStep] at h
          split_ifs at h
          · cases h
            obtain ⟨h1, h2, h3, h4, h5, h6⟩ := caller.raised_spec .valueError (s.lose (t :: ts)) false (T := T)
            refine ⟨.inl h1, h2, h3, fun _ _ => h4, fun _ => ?_⟩
            rw [h5, h6, Shared.items_lose, Shared.unfinishedTasks_lose]
            rfl
          · cases h
            exact ⟨.inl rfl, trivial, trivial, fun _ _ => rfl, fun _ => rfl⟩
          · obtain ⟨h1, h2, h3, h4, h5, h6⟩ := enqueueOr_control (Option.some.inj h)
            refine ⟨.inl h1, h2, h3, fun _ _ => h4, fun _ => ?_⟩
            have hb : (Thread.enqueuing (t :: ts) caller : Thread α V T).busy =
              if caller.role = .worker then 1 else 0 := rfl
            rw [h5, h6, hb]
            simp only [CacheJobQueue.push, List.length_append, List.length_singleton]
            omega
  | releasing ts caller =>
      cases ts with
      | nil =>
          cases h
          obtain ⟨h1, h2, h3, h4, h5, h6⟩ := caller.raised_spec .queueBackpressure s false (T := T)
          exact .of_queue h1 h2 h3 h4 h5 h6
      | cons t ts =>
          obtain ⟨s₁, hs₁, heq⟩ := Option.map_eq_some_iff.mp h
          obtain ⟨hlt, rfl⟩ := Shared.onShard_eq_some.mp hs₁
          cases heq
          exact .of_queue rfl trivial trivial rfl rfl rfl
  | leading key ttl flight =>
      cases h
      exact .client rfl rfl trivial trivial rfl rfl
  | loading key ttl flight =>
      simp only [clientStep] at h
      split at h <;> cases h
      · exact .client rfl rfl trivial trivial rfl rfl
      · exact .client rfl rfl (.inl rfl) trivial rfl rfl
  | publishing key flight value =>
      cases h
      exact .client rfl rfl trivial trivial rfl rfl
  | failing key flight exn =>
      cases h
      exact .client rfl rfl trivial trivial rfl rfl
  | waiting flight =>
      obtain ⟨rfl, result, rfl, -⟩ := waiting_cases h
      exact .client rfl rfl trivial trivial rfl rfl
  | _ => cases h

/-- The control flow of a worker. -/
theorem workerStep_control (h : workerStep s c th = some (s', th')) : Control s th s' th' := by
  cases th with
  | idle =>
      simp only [workerStep] at h
      split at h
      · next job rest hq =>
          cases h
          refine ⟨.inl rfl, trivial, trivial, fun _ _ => rfl, fun _ => ?_⟩
          simp only [hq, List.length_cons, Thread.busy, Thread.role, if_true]
          omega
      · split_ifs at h
        cases h
        exact .of_queue rfl trivial trivial rfl rfl rfl
  | handling job =>
      cases job with
      | stopWorker =>
          cases h
          refine ⟨.inl rfl, trivial, trivial, fun _ _ => rfl, fun hle => ?_⟩
          simp only [Thread.busy, Thread.role, if_true, CacheJobQueue.taskDone] at hle ⊢
          omega
      | expireShard i =>
          obtain ⟨s₁, hs₁, heq⟩ := Option.map_eq_some_iff.mp h
          obtain ⟨hlt, rfl⟩ := Shared.onShard_eq_some.mp hs₁
          cases heq
          exact .of_queue rfl trivial trivial rfl rfl rfl
      | snapshotStats id =>
          cases h
          exact .of_queue rfl trivial trivial rfl rfl rfl
      | preloadKey i key ttl =>
          simp only [workerStep] at h
          split at h <;> cases h
          · exact .of_queue rfl trivial trivial rfl rfl rfl
          · exact .of_queue rfl (.inr ⟨_, _, _, rfl⟩) trivial rfl rfl rfl
      | flushWriteBack t =>
          simp only [workerStep] at h
          split_ifs at h <;> cases h <;> exact .of_queue rfl trivial trivial rfl rfl rfl
  | checked t =>
      simp only [workerStep] at h
      split_ifs at h <;> cases h <;> exact .of_queue rfl trivial trivial rfl rfl rfl
  | failed t =>
      simp only [workerStep] at h
      split_ifs at h <;> cases h
      · refine ⟨.inl rfl, trivial, trivial, fun _ _ => rfl, fun _ => ?_⟩
        show (s.lose [t.retry]).queue.unfinishedTasks + _ + _ = _ + (s.lose [t.retry]).queue.items.length + _
        rw [Shared.items_lose, Shared.unfinishedTasks_lose]
        rfl
      · exact ⟨.inl rfl, trivial, trivial, fun _ _ => rfl, fun _ => rfl⟩
      · refine ⟨.inl rfl, trivial, trivial, fun _ _ => rfl, fun _ => ?_⟩
        simp only [Shared.count, CacheJobQueue.push, List.length_append, List.length_singleton,
          Thread.busy, Thread.role, if_true]
        omega
      · exact .of_queue rfl trivial trivial rfl rfl rfl
  | dropped t =>
      obtain ⟨s₁, hs₁, heq⟩ := Option.map_eq_some_iff.mp h
      obtain ⟨hlt, rfl⟩ := Shared.onShard_eq_some.mp hs₁
      cases heq
      exact .of_queue rfl trivial trivial rfl rfl rfl
  | landed t =>
      obtain ⟨s₁, hs₁, heq⟩ := Option.map_eq_some_iff.mp h
      obtain ⟨hlt, rfl⟩ := Shared.onShard_eq_some.mp hs₁
      cases heq
      exact .of_queue rfl trivial trivial rfl rfl rfl
  | finishing =>
      cases h
      refine ⟨.inl rfl, trivial, trivial, fun _ _ => rfl, fun hle => ?_⟩
      simp only [Thread.busy, Thread.role, if_true, CacheJobQueue.taskDone] at hle ⊢
      omega
  | _ => cases h

/-- The control flow of `close`. -/
theorem closeStep_control (h : closeStep s c th = some (s', th')) (hp : th.Placed)
    (hidx : ∀ i, (s.shards i).index = i) : Control s th s' th' := by
  have hnext : ∀ i, (closeNext cfg i : Thread α V T).role = .closer ∧
      (closeNext cfg i : Thread α V T).Fit ∧ (closeNext cfg i : Thread α V T).Placed ∧
      (closeNext cfg i : Thread α V T).busy = 0 := by
    intro i
    unfold closeNext
    split_ifs <;> exact ⟨rfl, trivial, trivial, rfl⟩
  cases th with
  | closeCollect i =>
      simp only [closeStep] at h
      split_ifs at h with hlt
      cases h
      refine ⟨.inl rfl, trivial, ?_, fun _ hfl => (by cases hfl), fun _ => rfl⟩
      intro t ht
      obtain ⟨job, hjob, rfl⟩ := List.mem_map.mp ht
      show job.shardIndex = i
      rw [CacheShard.dirtyJobs, List.mem_append, List.mem_map, List.mem_map] at hjob
      rcases hjob with ⟨e, -, rfl⟩ | ⟨p, -, rfl⟩ <;> exact hidx ⟨i, hlt⟩
  | closeEnqueue i ts =>
      cases ts with
      | nil =>
          cases h
          obtain ⟨h1, h2, h3, h4⟩ := hnext i
          exact ⟨.inl h1, h2, h3, fun _ hfl => (by cases hfl), fun _ => by rw [h4]; rfl⟩
      | cons t ts =>
          simp only [closeStep] at h
          split_ifs at h <;> cases h
          · refine ⟨.inr ⟨rfl, _, rfl⟩, trivial, trivial, fun _ hfl => (by cases hfl), fun _ => ?_⟩
            show (s.lose (t :: ts)).queue.unfinishedTasks + _ + _ = _ + (s.lose (t :: ts)).queue.items.length + _
            rw [Shared.items_lose, Shared.unfinishedTasks_lose]
            rfl
          · exact ⟨.inl rfl, trivial, hp, fun _ hfl => (by cases hfl), fun _ => rfl⟩
          · refine ⟨.inl rfl, trivial, fun t' ht' => hp t' (List.mem_cons_of_mem t ht'),
              fun _ hfl => (by cases hfl), fun _ => ?_⟩
            simp only [CacheJobQueue.push, List.length_append, List.length_singleton, Thread.busy,
              Thread.role, reduceCtorEq, if_false]
            omega
  | closeRelease i ts =>
      cases ts with
      | nil =>
          cases h
          obtain ⟨h1, h2, h3, h4⟩ := hnext i
          exact ⟨.inl h1, h2, h3, fun _ hfl => (by cases hfl), fun _ => by rw [h4]; rfl⟩
      | cons t ts =>
          obtain ⟨s₁, hs₁, heq⟩ := Option.map_eq_some_iff.mp h
          obtain ⟨hlt, rfl⟩ := Shared.onShard_eq_some.mp hs₁
          cases heq
          exact ⟨.inl rfl, trivial, fun t' ht' => hp t' (List.mem_cons_of_mem t ht'),
            fun _ hfl => (by cases hfl), fun _ => rfl⟩
  | closeJoin =>
      simp only [closeStep] at h
      split_ifs at h <;> cases h <;>
        exact ⟨.inl rfl, trivial, trivial, fun _ hfl => (by cases hfl), fun _ => rfl⟩
  | syncCollect i failed =>
      simp only [closeStep] at h
      split_ifs at h <;> cases h <;>
        exact ⟨.inl rfl, trivial, trivial, fun _ hfl => (by cases hfl), fun _ => rfl⟩
  | syncNext i ts failed =>
      cases ts with
      | nil =>
          cases h
          exact ⟨.inl rfl, trivial, trivial, fun _ hfl => (by cases hfl), fun _ => rfl⟩
      | cons t ts =>
          simp only [closeStep] at h
          split_ifs at h <;> cases h <;>
            exact ⟨.inl rfl, trivial, trivial, fun _ hfl => (by cases hfl), fun _ => rfl⟩
  | syncTry i t left ts failed =>
      simp only [closeStep] at h
      split_ifs at h
      · cases h
        cases t.job.operation <;>
          exact ⟨.inl rfl, trivial, trivial, fun _ hfl => (by cases hfl), fun _ => rfl⟩
      · cases left <;> cases h <;>
          exact ⟨.inl rfl, trivial, trivial, fun _ hfl => (by cases hfl), fun _ => rfl⟩
  | syncClean i t ts failed =>
      obtain ⟨s₁, hs₁, heq⟩ := Option.map_eq_some_iff.mp h
      obtain ⟨hlt, rfl⟩ := Shared.onShard_eq_some.mp hs₁
      cases heq
      exact ⟨.inl rfl, trivial, trivial, fun _ hfl => (by cases hfl), fun _ => rfl⟩
  | syncSettle i t success ts failed =>
      obtain ⟨s₁, hs₁, heq⟩ := Option.map_eq_some_iff.mp h
      obtain ⟨hlt, rfl⟩ := Shared.onShard_eq_some.mp hs₁
      cases heq
      refine ⟨.inl rfl, trivial, trivial, fun _ hfl => (by cases hfl), fun _ => ?_⟩
      split_ifs <;> rfl
  | closeStop failed =>
      simp only [closeStep] at h
      split_ifs at h <;> cases h
      · exact ⟨.inl rfl, trivial, trivial, fun _ _ => rfl, fun _ => s.queue.stop_counts _ _⟩
      · exact ⟨.inl rfl, trivial, trivial, fun _ _ => rfl, fun _ => rfl⟩
  | closeDrain failed =>
      cases h
      refine ⟨.inr ⟨rfl, _, rfl⟩, trivial, trivial, fun _ _ => rfl, fun hle => ?_⟩
      simp only [CacheJobQueue.drain, Thread.busy, Thread.role, List.length_nil, reduceCtorEq,
        if_false] at hle ⊢
      omega
  | _ => cases h

/-- **The control flow of a step of a thread.** -/
theorem threadStep_control (h : threadStep hash s c th = some (s', th')) (hfit : th.Fit)
    (hp : th.Placed) (hidx : ∀ i, (s.shards i).index = i) : Control s th s' th' := by
  rcases threadStep_cases h with h | h | h
  · exact clientStep_control h hfit
  · exact workerStep_control h
  · exact closeStep_control h hp hidx

end Steps

/-! ### The phase of the cache -/

/-- Where the cache is in its life: its lifecycle state, and whether a worker pool is running. -/
def Shared.phase (s : Shared α V cfg) : LifecycleState × Bool := (s.lifecycle, s.poolStarted)

/-- Counting leaves the phase alone. -/
theorem Caller.phase_count (caller : Caller α V T) (s : Shared α V cfg) (b : Bool) :
    (caller.count s b).phase = s.phase := by
  cases caller <;> rfl

/-- A section on a shard leaves the phase alone. -/
theorem phase_onShard {s s' : Shared α V cfg} {i : ℕ} {f : CacheShard α V T → CacheShard α V T}
    (h : s.onShard i f = some s') : s'.phase = s.phase := by
  obtain ⟨-, rfl⟩ := Shared.onShard_eq_some.mp h
  rfl

/-- Public operations leave the phase alone once they are past their first check. -/
theorem clientStep_phase {s s' : Shared α V cfg} {c : Choice α V} {th th' : Thread α V T}
    (h : clientStep hash s c th = some (s', th')) (hth : ∀ op caller, th ≠ .entering op caller) :
    s'.phase = s.phase := by
  have henq : ∀ {s₁ : Shared α V cfg} {ts : List (Ticket α V)} {caller : Caller α V T},
      enqueueOr s₁ ts caller = (s', th') → s₁.phase = s.phase → s'.phase = s.phase := by
    intro s₁ ts caller he hs₁
    cases ts with
    | nil =>
        cases he
        exact (caller.phase_count s₁ true).trans hs₁
    | cons t ts =>
        cases he
        exact hs₁
  cases th with
  | entering op caller => exact absurd rfl (hth op caller)
  | running op caller =>
      cases op with
      | put key value ttl =>
          simp only [clientStep] at h
          split_ifs at h
          · cases h
            exact caller.phase_count _ false
          · exact henq (Option.some.inj h) rfl
      | delete key =>
          simp only [clientStep] at h
          split_ifs at h
          · cases h
            rfl
          · exact henq (Option.some.inj h) rfl
      | getOrCompute key ttl =>
          simp only [clientStep] at h
          split at h <;> cases h <;> rfl
      | _ => cases h <;> rfl
  | clearing i ts =>
      simp only [clientStep] at h
      split_ifs at h
      · cases h
        rfl
      · cases h
        rfl
      · exact henq (Option.some.inj h) rfl
  | enqueuing ts caller =>
      cases ts with
      | nil =>
          cases h
          exact caller.phase_count s true
      | cons t ts =>
          simp only [clientStep] at h
          split_ifs at h
          · cases h
            exact caller.phase_count _ false
          · cases h
            rfl
          · exact henq (Option.some.inj h) rfl
  | releasing ts caller =>
      cases ts with
      | nil =>
          cases h
          exact caller.phase_count s false
      | cons t ts =>
          obtain ⟨s₁, hs₁, heq⟩ := Option.map_eq_some_iff.mp h
          cases heq
          exact phase_onShard hs₁
  | sizing i total =>
      simp only [clientStep] at h
      split_ifs at h <;> cases h <;> rfl
  | dumping i taken limit =>
      simp only [clientStep] at h
      split_ifs at h <;> cases h <;> rfl
  | expiring i removed =>
      simp only [clientStep] at h
      split_ifs at h <;> cases h <;> rfl
  | loading key ttl flight =>
      simp only [clientStep] at h
      split at h <;> cases h <;> rfl
  | waiting flight =>
      obtain ⟨rfl, -⟩ := waiting_cases h
      rfl
  | _ => cases h <;> rfl

/-- Workers leave the phase alone. -/
theorem workerStep_phase {s s' : Shared α V cfg} {c : Choice α V} {th th' : Thread α V T}
    (h : workerStep s c th = some (s', th')) : s'.phase = s.phase := by
  cases th with
  | idle =>
      simp only [workerStep] at h
      split at h
      · cases h
        rfl
      · split_ifs at h
        cases h
        rfl
  | handling job =>
      cases job with
      | expireShard i =>
          obtain ⟨s₁, hs₁, heq⟩ := Option.map_eq_some_iff.mp h
          cases heq
          exact (phase_onShard hs₁ :)
      | preloadKey i key ttl =>
          simp only [workerStep] at h
          split at h <;> cases h <;> rfl
      | flushWriteBack t =>
          simp only [workerStep] at h
          split_ifs at h <;> cases h <;> rfl
      | _ => cases h; rfl
  | checked t =>
      simp only [workerStep] at h
      split_ifs at h <;> cases h <;> rfl
  | failed t =>
      simp only [workerStep] at h
      split_ifs at h <;> cases h <;> rfl
  | dropped t =>
      obtain ⟨s₁, hs₁, heq⟩ := Option.map_eq_some_iff.mp h
      cases heq
      exact (phase_onShard hs₁ :)
  | landed t =>
      obtain ⟨s₁, hs₁, heq⟩ := Option.map_eq_some_iff.mp h
      cases heq
      exact (phase_onShard hs₁ :)
  | _ => cases h <;> rfl

/-- `close` leaves when enqueuing one of its jobs raises, and gives the lifecycle lock back. -/
def Leaves (c : Choice α V) (s : Shared α V cfg) (th : Thread α V T) (s' : Shared α V cfg)
    (th' : Thread α V T) : Prop :=
  ∃ i t ts, th = .closeEnqueue i (t :: ts) ∧ s.rejects c t = true ∧
    s' = { s.lose (t :: ts) with lifecycle := s.lifecycle.released } ∧ th' = .finished (.raised .valueError)

/-- `close` gives the lock back in the state `abandoned`, or where it did not hold it. -/
theorem LifecycleState.released_cases (l : LifecycleState) :
    l = .closing ∧ l.released = .abandoned ∨ l ≠ .closing ∧ l.released = l := by
  cases l <;> simp [LifecycleState.released]

/-- No `close` holds the lock then. -/
theorem LifecycleState.released_ne_closing (l : LifecycleState) : l.released ≠ .closing := by
  cases l <;> simp [LifecycleState.released]

/-- The other states stay. -/
theorem LifecycleState.released_eq_iff {l m : LifecycleState} (hclosing : m ≠ .closing)
    (habandoned : m ≠ .abandoned) :
    l.released = m ↔ l = m := by
  cases l <;> simp [LifecycleState.released, hclosing.symm, habandoned.symm]

/-- `close` leaves the phase alone where it does not enqueue. -/
theorem closeStep_phase_of_no_enqueue {s s' : Shared α V cfg} {c : Choice α V} {th th' : Thread α V T}
    (h : closeStep s c th = some (s', th')) (hth : ∀ failed, th ≠ .closeDrain failed)
    (henq : ∀ i ts, th ≠ .closeEnqueue i ts) : s'.phase = s.phase := by
  cases th with
  | closeCollect i =>
      simp only [closeStep] at h
      split_ifs at h
      cases h
      rfl
  | closeEnqueue i ts => exact absurd rfl (henq i ts)
  | closeRelease i ts =>
      cases ts with
      | nil => cases h; rfl
      | cons t ts =>
          obtain ⟨s₁, hs₁, heq⟩ := Option.map_eq_some_iff.mp h
          cases heq
          exact phase_onShard hs₁
  | closeJoin =>
      simp only [closeStep] at h
      split_ifs at h <;> cases h <;> rfl
  | syncCollect i failed =>
      simp only [closeStep] at h
      split_ifs at h <;> cases h <;> rfl
  | syncNext i ts failed =>
      cases ts with
      | nil => cases h; rfl
      | cons t ts =>
          simp only [closeStep] at h
          split_ifs at h <;> cases h <;> rfl
  | syncTry i t left ts failed =>
      simp only [closeStep] at h
      split_ifs at h
      · cases h
        rfl
      · cases left <;> cases h <;> rfl
  | syncClean i t ts failed =>
      obtain ⟨s₁, hs₁, heq⟩ := Option.map_eq_some_iff.mp h
      cases heq
      exact phase_onShard hs₁
  | syncSettle i t success ts failed =>
      obtain ⟨s₁, hs₁, heq⟩ := Option.map_eq_some_iff.mp h
      cases heq
      split_ifs <;> exact (phase_onShard hs₁ :)
  | closeStop failed =>
      simp only [closeStep] at h
      split_ifs at h <;> cases h <;> rfl
  | closeDrain failed => exact absurd rfl (hth failed)
  | _ => cases h

/-- `close` leaves the phase alone between taking the lifecycle lock and its last step. -/
theorem closeStep_phase {s s' : Shared α V cfg} {c : Choice α V} {th th' : Thread α V T}
    (h : closeStep s c th = some (s', th')) (hth : ∀ failed, th ≠ .closeDrain failed) :
    s'.phase = s.phase ∨ Leaves c s th s' th' := by
  cases th with
  | closeEnqueue i ts =>
      cases ts with
      | nil => cases h; exact .inl rfl
      | cons t ts =>
          simp only [closeStep] at h
          split_ifs at h with hrej <;> cases h
          · exact .inr ⟨i, t, ts, rfl, hrej, rfl, rfl⟩
          · exact .inl rfl
          · exact .inl rfl
  | closeDrain failed => exact absurd rfl (hth failed)
  | _ => exact .inl (closeStep_phase_of_no_enqueue h hth (by simp))

/-- **What a step does to the phase**: nothing, except that a `close` takes the lifecycle lock and
leaves the cache closed, or gives the lock back with an error. -/
theorem threadStep_phase {s s' : Shared α V cfg} {c : Choice α V} {th th' : Thread α V T}
    (h : threadStep hash s c th = some (s', th')) :
    s'.phase = s.phase ∨
      (∃ flush caller, th = .entering (.close flush) caller ∧ s'.phase = (.closing, s.poolStarted)) ∨
      (∃ failed, th = .closeDrain failed ∧ s'.lifecycle = .closed) ∨ Leaves c s th s' th' := by
  rcases threadStep_cases h with h | h | h
  · by_cases hth : ∃ op caller, th = .entering op caller
    · obtain ⟨op, caller, rfl⟩ := hth
      rcases entering_cases h with ⟨rfl, -⟩ | ⟨rfl, -⟩ | ⟨rfl, -⟩ | ⟨rfl, -, -, flush, rfl, -⟩
      · exact .inl (caller.phase_count s false)
      · exact .inl rfl
      · exact .inl rfl
      · exact .inr (.inl ⟨flush, caller, rfl, rfl⟩)
    · exact .inl (clientStep_phase h fun op caller e => hth ⟨op, caller, e⟩)
  · exact .inl (workerStep_phase h)
  · by_cases hth : ∃ failed, th = .closeDrain failed
    · obtain ⟨failed, rfl⟩ := hth
      cases h
      exact .inr (.inr (.inl ⟨failed, rfl, rfl⟩))
    · exact (closeStep_phase h fun failed e => hth ⟨failed, e⟩).imp_right fun hleave => .inr (.inr hleave)

/-- A closed cache stays closed. -/
theorem lifecycle_eq_closed {s s' : Shared α V cfg} {c : Choice α V} {th th' : Thread α V T}
    (h : threadStep hash s c th = some (s', th')) (hclosed : s.lifecycle = .closed) : s'.lifecycle = .closed := by
  rcases threadStep_phase h with hphase | ⟨flush, caller, rfl, -⟩ | ⟨failure, -, hphase⟩ | ⟨_, t, ts, -, -, hshared, -⟩
  · rw [← hclosed]
    exact congrArg Prod.fst hphase
  · simp only [threadStep, clientStep, hclosed, Option.orElse_some, Option.some.injEq, Prod.mk.injEq] at h
    rw [← h.1, hclosed]
  · exact hphase
  · rw [hshared]
    show s.lifecycle.released = .closed
    rw [hclosed]
    rfl

end CacheLab
