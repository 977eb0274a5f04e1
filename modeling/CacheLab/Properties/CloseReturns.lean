import CacheLab.Concurrency.Closers
import CacheLab.System.Graves

/-!
# Every call returns, `close` included

`close` may be called at any time and any number of times, while calls are in progress, and workers with them. From
some moment on nobody calls anything, a loader neither, and the scheduler is silent. Then all calls return, and if
`close` was called the cache ends up closed and no worker is left behind, or a `close` was left by the `ValueError` of
one of its enqueues.

* `close` can make flush jobs of what others are still writing. It collects the dirty entries and tombstones of each
  shard twice, so what a collecting section may find has to be paid for beforehand: `debts` bounds the entries and
  tombstones that there are and that are still to come, no step raises it, and `toil` charges each section that is
  still to come (`collects`) with all of them.
* A thread can move, or it waits for a flight, or for the end of a `close`; and a `close` can move, if its wait for
  the workers may time out (`Attended.moves`). Without the timeout it may not: a worker inside the put of a
  `PreloadKey` waits for the lifecycle lock, which `close` holds.

The weights of the calls and of the workers are those of `Properties/Progress.lean`.
-/

set_option linter.unusedSectionVars false

namespace CacheLab

variable {α V T : Type} [DecidableEq α] [LinearOrder T] [Zero T] [Add T] [Sub T]

variable {cfg : AcceptedConfig T} {hash : Key α → ℕ}

/-! ### The toil -/

/-- What is left to do when the pool is about to be stopped, with the stop messages. -/
def stopEffort (cfg : AcceptedConfig T) : ℕ := 2 * cfg.workerCount + 2

/-- How many sections that collect flush jobs a `close` is still going to run. -/
def Thread.collects (cfg : AcceptedConfig T) : Thread α V T → ℕ
  | .entering (.close _) _ => cfg.shardCount + cfg.shardCount
  | .closeCollect i => cfg.shardCount - i + cfg.shardCount
  | .closeEnqueue i _ => cfg.shardCount - (i + 1) + cfg.shardCount
  | .closeRelease i _ => cfg.shardCount - (i + 1) + cfg.shardCount
  | .closeJoin => cfg.shardCount
  | .syncCollect i _ => cfg.shardCount - i
  | .syncNext i _ _ => cfg.shardCount - (i + 1)
  | .syncTry i _ _ _ _ => cfg.shardCount - (i + 1)
  | .syncClean i _ _ _ => cfg.shardCount - (i + 1)
  | .syncSettle i _ _ _ _ => cfg.shardCount - (i + 1)
  | _ => 0

/-- What is left to do for a `close`, apart from what it is still going to collect. -/
def Thread.closeEffort (cfg : AcceptedConfig T) : Thread α V T → ℕ
  | .entering (.close _) _ => stopEffort cfg + 3
  | .closeCollect _ => stopEffort cfg + 2
  | .closeEnqueue _ ts => stopEffort cfg + 3 + (ts.map fun t => t.load + 1).sum
  | .closeRelease _ ts => stopEffort cfg + 3 + ts.length
  | .closeJoin => stopEffort cfg + 2
  | .syncCollect _ _ => stopEffort cfg + 1
  | .syncNext _ ts _ => stopEffort cfg + 2 + (ts.map fun t => t.load + 1).sum
  | .syncTry _ _ left ts _ => stopEffort cfg + 2 + (ts.map fun t => t.load + 1).sum + (left + 3)
  | .syncClean _ _ ts _ => stopEffort cfg + 2 + (ts.map fun t => t.load + 1).sum + 2
  | .syncSettle _ _ _ ts _ => stopEffort cfg + 2 + (ts.map fun t => t.load + 1).sum + 1
  | .closeStop _ => stopEffort cfg
  | .closeDrain _ => 1
  | _ => 0

/-- What is left to do for a thread, apart from what it is still going to collect. -/
def Thread.toil (cfg : AcceptedConfig T) (th : Thread α V T) : ℕ :=
  if th.role = .closer then th.closeEffort cfg else th.effort cfg

/-- A worker that did not leave its loop. -/
def Thread.alive : Thread α V T → ℕ
  | .stopped => 0
  | th => if th.role = .worker then 1 else 0

theorem Thread.alive_of_ne_stopped {th : Thread α V T} (h : th ≠ .stopped) :
    th.alive = if th.role = .worker then 1 else 0 := by
  cases th <;> first | rfl | exact absurd rfl h

theorem Thread.alive_le_one (th : Thread α V T) : th.alive ≤ 1 := by
  by_cases hstopped : th = .stopped
  · subst hstopped
    exact Nat.zero_le _
  · rw [th.alive_of_ne_stopped hstopped]
    split_ifs <;> simp

theorem Thread.alive_of_role {th : Thread α V T} (h : th.role ≠ .worker) : th.alive = 0 := by
  rw [th.alive_of_ne_stopped fun hstopped => h (by rw [hstopped]; rfl), if_neg h]

/-- The entries and tombstones that there are and that are still to come: what `close` may find. -/
def System.debts (s : System α V cfg) : ℕ :=
  s.shared.residents + s.shared.buried + s.shared.queue.puts + (s.threads.map Thread.puts).sum +
    (s.threads.map Thread.deletes).sum

/-- What is left to do, before all calls have returned and the workers are idle or gone. -/
def System.toil (s : System α V cfg) : ℕ :=
  s.shared.queue.load cfg + (s.threads.map (Thread.toil cfg)).sum + s.keysWeight +
    (s.threads.map Thread.alive).sum + (s.threads.map (Thread.collects cfg)).sum * (keyWeight cfg * s.debts + 2)

section Steps

variable {s s' : Shared α V cfg} {c : Choice α V} {th th' : Thread α V T}

/-! ### Calls and workers, in any phase -/

/-- Only `close` collects. -/
theorem Thread.collects_of_role {th : Thread α V T} (h : th.role ≠ .closer) : th.collects cfg = 0 := by
  cases th with
  | entering op caller =>
      cases op with
      | close flush => exact absurd rfl h
      | _ => rfl
  | _ => first | rfl | exact absurd rfl h

/-- A step in another phase, of a thread that does not look at it. -/
theorem threadStep_inPhase (h : threadStep hash s c th = some (s', th')) (hrole : th.role ≠ .closer)
    (hpast : ∀ op caller, th ≠ .entering op caller) (hidle : th ≠ .idle) (life : LifecycleState) (stop : Bool) :
    threadStep hash (s.inPhase life stop) c th = some (s'.inPhase life stop, th') := by
  rcases threadStep_cases h with hstep | hstep | hstep
  · unfold threadStep
    rw [(clientStep_inPhase hstep hpast life stop).1]
    rfl
  · have hnone : clientStep hash (s.inPhase life stop) c th = none := by
      cases th <;> first | rfl | cases hstep
    unfold threadStep
    rw [hnone, (workerStep_inPhase hstep hidle life stop).1]
    rfl
  · exact absurd (role_of_closeStep hstep) hrole

/-- An idle worker takes a step of a worker. -/
theorem workerStep_of_idle (h : threadStep hash s c .idle = some (s', th')) :
    workerStep s c .idle = some (s', th') := by
  rcases threadStep_cases h with hstep | hstep | hstep
  · cases hstep
  · exact hstep
  · cases hstep

/-- **A step makes no puts, and a key comes from a put**, whatever the phase. -/
theorem puts_step_inPhase (h : threadStep hash s c th = some (s', th')) (hs : ∀ i, ShardOk cfg hash i (s.shards i))
    (hs' : ∀ i, ShardOk cfg hash i (s'.shards i)) (hrole : th.role ≠ .closer) :
    s'.residents + s'.queue.puts + th'.puts ≤ s.residents + s.queue.puts + th.puts := by
  by_cases hpast : ∃ op caller, th = .entering op caller
  · obtain ⟨op, caller, rfl⟩ := hpast
    have hkeys := residents_le_of_threadStep h hs fun key value ttl caller' hth => by cases hth
    rcases entering_cases (clientStep_of_threadStep h rfl rfl) with
      ⟨rfl, ⟨exn, rfl⟩, -⟩ | ⟨rfl, rfl, -⟩ | ⟨-, -, flush, rfl⟩ | ⟨-, -, -, flush, rfl, -⟩
    · rw [caller.puts_raised exn, caller.queue_of_count]
      omega
    · exact le_rfl
    · exact absurd rfl hrole
    · exact absurd rfl hrole
  · by_cases hidle : th = .idle
    · subst hidle
      have hkeys := residents_le_of_threadStep h hs fun key value ttl caller' hth => by cases hth
      have hstep := workerStep_of_idle h
      simp only [workerStep] at hstep
      split at hstep
      · next job rest hitems =>
          cases hstep
          have hputs : s.queue.puts = job.puts + (rest.map Job.puts).sum := by
            rw [CacheJobQueue.puts, hitems, List.map_cons, List.sum_cons]
          rw [hputs]
          show s.residents + (rest.map Job.puts).sum + job.puts ≤ s.residents + (job.puts + _) + 0
          omega
      · split_ifs at hstep
        cases hstep
        exact le_rfl
    · have hmoved := threadStep_inPhase h hrole (fun op caller hth => hpast ⟨op, caller, hth⟩) hidle .started false
      have hputs := puts_step hmoved hs hs' fun hclosed => by cases hclosed
      exact hputs

/-- **Every step of a worker lowers its load**, or it leaves its loop. -/
theorem load_step_inPhase (h : threadStep hash s c th = some (s', th')) (hs : ∀ i, ShardOk cfg hash i (s.shards i))
    (hfit : th.Fit) (hrange : th.InRange cfg) (hrole : th.role = .worker) :
    s'.queue.load cfg + th'.load cfg + th'.alive < s.queue.load cfg + th.load cfg + th.alive := by
  have halive : th ≠ .stopped → th.alive = 1 := by
    intro hne
    rw [Thread.alive_of_ne_stopped hne, if_pos hrole]
  have halive' := th'.alive_le_one
  rcases threadStep_cases h with hstep | hstep | hstep
  · have hcall : s'.queue.load cfg + th'.load cfg < s.queue.load cfg + th.load cfg := by
      cases th with
      | entering op caller =>
          obtain rfl : caller = .preloader := by
            cases op <;> first | exact Caller.eq_preloader hrole | cases hrole
          rcases entering_cases hstep with ⟨rfl, ⟨exn, rfl⟩, -⟩ | ⟨rfl, rfl, -⟩ | ⟨-, -, flush, rfl⟩ |
            ⟨-, -, -, flush, rfl, -⟩
          · show s.queue.load cfg + 1 < s.queue.load cfg + (putLoad cfg + 1)
            unfold putLoad
            omega
          · exact Nat.lt_succ_self _
          · cases hrole
          · cases hrole
      | running op caller =>
          obtain rfl := Caller.eq_preloader hrole
          obtain ⟨key, value, ttl, rfl⟩ := hfit.resolve_left fun hclient => by cases hclient
          exact load_put hs hstep
      | enqueuing ts caller =>
          obtain rfl := Caller.eq_preloader hrole
          exact load_enqueuing hstep
      | releasing ts caller =>
          obtain rfl := Caller.eq_preloader hrole
          exact load_releasing hstep
      | _ => first | (cases hrole; done) | cases hstep
    have hone : th.alive = 1 := halive fun hstopped => by
      subst hstopped
      cases hstep
    omega
  · have hone : th.alive = 1 := halive fun hstopped => by
      subst hstopped
      cases hstep
    by_cases hidle : th = .idle
    · subst hidle
      simp only [workerStep] at hstep
      split at hstep
      · next job rest hitems =>
          cases hstep
          have hload : s.queue.load cfg = job.load cfg + (rest.map (Job.load cfg)).sum := by
            rw [CacheJobQueue.load, hitems, List.map_cons, List.sum_cons]
          have hpos : 0 < job.load cfg := by
            cases job with
            | flushWriteBack t =>
                have hsix := t.six_le_load
                exact lt_of_lt_of_le (by omega) hsix
            | _ => exact Nat.succ_pos _
          rw [hload]
          show (rest.map (Job.load cfg)).sum + (job.load cfg - 1) + 1 < _ + 0 + 1
          omega
      · split_ifs at hstep
        cases hstep
        show s.queue.load cfg + 0 + 0 < s.queue.load cfg + 0 + 1
        omega
    · by_cases hstop : th = .handling .stopWorker
      · subst hstop
        cases hstep
        show s.queue.load cfg + 0 + 0 < s.queue.load cfg + 1 + 1
        omega
      · have hruns : th.Runs cfg := by
          cases th with
          | handling job =>
              cases job with
              | expireShard i => exact hrange
              | stopWorker => exact absurd rfl hstop
              | _ => trivial
          | stopped => cases hstep
          | _ => trivial
        have hload := load_workerStep (workerStep_inPhase hstep hidle .started false).1 hruns rfl
        have hsame : s'.queue.load cfg + th'.load cfg < s.queue.load cfg + th.load cfg := hload
        omega
  · rw [role_of_closeStep hstep] at hrole
    cases hrole

/-- **Every step of a call or of a worker lowers the effort**, whatever the phase. -/
theorem effort_step_inPhase (h : threadStep hash s c th = some (s', th')) (hs : ∀ i, ShardOk cfg hash i (s.shards i))
    (hs' : ∀ i, ShardOk cfg hash i (s'.shards i)) (hfit : th.Fit) (hrange : th.InRange cfg)
    (hrole : th.role ≠ .closer)
    (hrole' : th'.role = th.role) :
    s'.queue.load cfg + th'.effort cfg + keyWeight cfg * (s'.residents + s'.queue.puts + th'.puts) + th'.alive <
      s.queue.load cfg + th.effort cfg + keyWeight cfg * (s.residents + s.queue.puts + th.puts) + th.alive := by
  have hputs := Nat.mul_le_mul_left (keyWeight cfg) (puts_step_inPhase h hs hs' hrole)
  by_cases hworker : th.role = .worker
  · unfold Thread.effort
    rw [hrole', if_pos hworker, if_pos hworker]
    have hload := load_step_inPhase h hs hfit hrange hworker
    omega
  · rw [Thread.alive_of_role hworker, Thread.alive_of_role (hrole' ▸ hworker)]
    unfold Thread.effort
    rw [hrole', if_neg hworker, if_neg hworker]
    have hstep : clientStep hash s c th = some (s', th') := by
      rcases threadStep_cases h with h | h | h
      · exact h
      · exact absurd (role_of_workerStep h) hworker
      · exact absurd (role_of_closeStep h) hrole
    by_cases hclear : ∃ i ts, th = .clearing i ts ∧ i < cfg.shardCount
    · obtain ⟨i, ts, rfl, hi⟩ := hclear
      obtain ⟨-, hzero', hqueue, heffort⟩ := callEffort_clearing hs hs' hi hstep
      have hzero : (Thread.clearing i ts : Thread α V T).puts = 0 := rfl
      rw [hqueue] at heffort
      rw [hqueue, hzero, hzero']
      simp only [Nat.add_zero, Nat.mul_add]
      omega
    · have hno : ∀ i ts, th = .clearing i ts → cfg.shardCount ≤ i := by
        intro i ts hth
        by_contra hi
        exact hclear ⟨i, ts, hth, not_le.mp hi⟩
      obtain ⟨-, heffort⟩ := callEffort_step hs hrole hno hstep
      omega

/-! ### The steps of `close` -/

/-- The stop messages in the queue. -/
theorem load_stop (cfg : AcceptedConfig T) (q : CacheJobQueue α V T) (n : ℕ) :
    ((List.replicate n ()).foldl (fun q _ => q.offer cfg.queueSize .stopWorker) q).load cfg ≤ q.load cfg + 2 * n := by
  induction n generalizing q with
  | zero => exact le_rfl
  | succ n ih =>
      have hoffer : (q.offer cfg.queueSize .stopWorker).load cfg ≤ q.load cfg + 2 := by
        unfold CacheJobQueue.offer
        split_ifs
        · exact Nat.le_add_right _ _
        · rw [CacheJobQueue.load_push]
          exact le_rfl
      have hrest := ih (q.offer cfg.queueSize .stopWorker)
      rw [List.replicate_succ, List.foldl_cons]
      omega

/-- The flush jobs that `close` collects weigh as much as that many keys. -/
theorem sum_load_dirtyJobs (cfg : AcceptedConfig T) (sh : CacheShard α V T) (log : List (Event α V T)) :
    (((sh.dirtyJobs cfg.toCacheConfig).map (closeTicket log)).map fun t => t.load + 1).sum =
      keyWeight cfg * (sh.dirtyJobs cfg.toCacheConfig).length := by
  have hall : ∀ n ∈ ((sh.dirtyJobs cfg.toCacheConfig).map (closeTicket log)).map (fun t => t.load + 1),
      n = keyWeight cfg := by
    intro n hn
    obtain ⟨t, ht, rfl⟩ := List.mem_map.mp hn
    obtain ⟨job, hjob, rfl⟩ := List.mem_map.mp ht
    have hretries : job.retriesLeft = cfg.writeBackRetryCount := by
      rcases List.mem_append.mp hjob with hput | hdelete
      · obtain ⟨e, -, rfl⟩ := List.mem_map.mp hput
        rfl
      · obtain ⟨p, -, rfl⟩ := List.mem_map.mp hdelete
        rfl
    show 6 * (job.retriesLeft + 1) + 1 = keyWeight cfg
    rw [hretries]
    rfl
  rw [List.eq_replicate_of_mem hall, List.sum_replicate, smul_eq_mul, mul_comm]
  simp

/-- A collecting section finds no more than the entries and tombstones that there are. -/
theorem length_dirtyJobs_le_debts (s : Shared α V cfg) (i : Fin cfg.shardCount) :
    ((s.shards i).dirtyJobs cfg.toCacheConfig).length ≤ s.residents + s.buried := by
  have hentries : (s.shards i).backend.size ≤ s.residents :=
    Finset.single_le_sum (f := fun j => (s.shards j).backend.size) (fun _ _ => Nat.zero_le _) (Finset.mem_univ i)
  have htombs : (s.shards i).tombstones.size ≤ s.buried :=
    Finset.single_le_sum (f := fun j => (s.shards j).tombstones.size) (fun _ _ => Nat.zero_le _) (Finset.mem_univ i)
  exact ((s.shards i).length_dirtyJobs_le cfg.toCacheConfig).trans (Nat.add_le_add hentries htombs)

/-- What a step of `close` does: it lowers what is left to do, or it is a collecting section. -/
structure CloseStep (s : Shared α V cfg) (th : Thread α V T) (s' : Shared α V cfg) (th' : Thread α V T) : Prop where
  puts : s'.queue.puts + th'.puts ≤ s.queue.puts
  deletes : th'.deletes = 0
  lowers : (th'.collects cfg ≤ th.collects cfg ∧
      s'.queue.load cfg + th'.closeEffort cfg < s.queue.load cfg + th.closeEffort cfg) ∨
    (th'.collects cfg + 1 ≤ th.collects cfg ∧ s'.queue.load cfg + th'.closeEffort cfg <
      s.queue.load cfg + th.closeEffort cfg + (keyWeight cfg * (s.residents + s.buried) + 2))

/-- A step that leaves the queue alone. -/
theorem CloseStep.of_queue_eq (hqueue : s'.queue.items = s.queue.items) (hputs : th'.puts = 0)
    (hdeletes : th'.deletes = 0)
    (hcollects : th'.collects cfg ≤ th.collects cfg) (heffort : th'.closeEffort cfg < th.closeEffort cfg) :
    CloseStep s th s' th' := by
  have hload : s'.queue.load cfg = s.queue.load cfg := by rw [CacheJobQueue.load, hqueue, CacheJobQueue.load]
  have hsame : s'.queue.puts = s.queue.puts := by rw [CacheJobQueue.puts, hqueue, CacheJobQueue.puts]
  refine ⟨?_, hdeletes, .inl ⟨hcollects, ?_⟩⟩
  · rw [hsame, hputs, Nat.add_zero]
  · rw [hload]
    exact Nat.add_lt_add_left heffort _

/-- The point after the last job of a shard. -/
theorem closeStep_closeNext (hqueue : s'.queue.items = s.queue.items) {i : ℕ}
    (hcollects : th.collects cfg = cfg.shardCount - (i + 1) + cfg.shardCount)
    (heffort : stopEffort cfg + 2 < th.closeEffort cfg) : CloseStep s th s' (closeNext cfg i) := by
  unfold closeNext
  split_ifs
  · exact .of_queue_eq hqueue rfl rfl hcollects.ge heffort
  · refine .of_queue_eq hqueue rfl rfl ?_ heffort
    rw [hcollects]
    exact Nat.le_add_left _ _

/-- **A step of `close`.** -/
theorem closeStep_toil (h : closeStep s c th = some (s', th')) : CloseStep s th s' th' := by
  cases th with
  | closeCollect i =>
      simp only [closeStep] at h
      split_ifs at h with hi
      cases h
      have hjobs := sum_load_dirtyJobs cfg (s.shards ⟨i, hi⟩) s.log
      have hle := Nat.mul_le_mul_left (keyWeight cfg) (length_dirtyJobs_le_debts s ⟨i, hi⟩)
      refine ⟨le_rfl, rfl, .inr ⟨?_, ?_⟩⟩
      · show cfg.shardCount - (i + 1) + cfg.shardCount + 1 ≤ cfg.shardCount - i + cfg.shardCount
        omega
      · show s.queue.load cfg + (stopEffort cfg + 3 + _) < s.queue.load cfg + (stopEffort cfg + 2) + _
        rw [hjobs]
        omega
  | closeEnqueue i ts =>
      cases ts with
      | nil =>
          cases h
          exact closeStep_closeNext rfl rfl (Nat.lt_succ_self _)
      | cons t ts =>
          have hsix := t.six_le_load
          have heffort : (Thread.closeEnqueue i (t :: ts) : Thread α V T).closeEffort cfg =
              stopEffort cfg + 3 + (t.load + 1 + (ts.map fun t => t.load + 1).sum) := by
            simp [Thread.closeEffort]
          simp only [closeStep] at h
          split_ifs at h <;> cases h
          · refine .of_queue_eq (s.items_lose (t :: ts)) rfl rfl (Nat.zero_le _) ?_
            rw [heffort]
            show 0 < _
            omega
          · refine .of_queue_eq rfl rfl rfl le_rfl ?_
            rw [heffort]
            have hlength : ts.length ≤ (ts.map fun t => t.load + 1).sum := by simp
            show stopEffort cfg + 3 + (ts.length + 1) < _
            omega
          · refine ⟨?_, rfl, .inl ⟨le_rfl, ?_⟩⟩
            · simp [CacheJobQueue.puts, CacheJobQueue.push, Job.puts, Thread.puts]
            · have hpush : (s.queue.push (.flushWriteBack t)).load cfg = s.queue.load cfg + t.load :=
                CacheJobQueue.load_push _ _
              show (s.queue.push (.flushWriteBack t)).load cfg + (stopEffort cfg + 3 + _) < _
              rw [hpush, heffort]
              omega
  | closeRelease i ts =>
      cases ts with
      | nil =>
          cases h
          exact closeStep_closeNext rfl rfl (Nat.lt_succ_self _)
      | cons t ts =>
          obtain ⟨s₁, hs₁, heq⟩ := Option.map_eq_some_iff.mp h
          cases heq
          exact .of_queue_eq (congrArg CacheJobQueue.items (queue_onShard hs₁)) rfl rfl le_rfl (Nat.lt_succ_self _)
  | closeJoin =>
      simp only [closeStep] at h
      split_ifs at h <;> cases h <;> exact .of_queue_eq rfl rfl rfl le_rfl (Nat.lt_succ_self _)
  | syncCollect i failed =>
      simp only [closeStep] at h
      split_ifs at h with hi <;> cases h
      · have hjobs := sum_load_dirtyJobs cfg (s.shards ⟨i, hi⟩) s.log
        have hle := Nat.mul_le_mul_left (keyWeight cfg) (length_dirtyJobs_le_debts s ⟨i, hi⟩)
        refine ⟨le_rfl, rfl, .inr ⟨?_, ?_⟩⟩
        · show cfg.shardCount - (i + 1) + 1 ≤ cfg.shardCount - i
          omega
        · show s.queue.load cfg + (stopEffort cfg + 2 + _) < s.queue.load cfg + (stopEffort cfg + 1) + _
          rw [hjobs]
          omega
      · exact .of_queue_eq rfl rfl rfl (Nat.zero_le _) (Nat.lt_succ_self _)
      · exact .of_queue_eq rfl rfl rfl (Nat.zero_le _) (Nat.lt_succ_self _)
  | syncNext i ts failed =>
      cases ts with
      | nil =>
          cases h
          exact .of_queue_eq rfl rfl rfl le_rfl (Nat.lt_succ_self _)
      | cons t ts =>
          have heffort : (Thread.syncNext i (t :: ts) failed : Thread α V T).closeEffort cfg =
              stopEffort cfg + 2 + (t.load + 1 + (ts.map fun t => t.load + 1).sum) := by
            simp [Thread.closeEffort]
          simp only [closeStep] at h
          split_ifs at h <;> cases h
          · refine .of_queue_eq rfl rfl rfl le_rfl ?_
            rw [heffort]
            show stopEffort cfg + 2 + _ < _
            omega
          · refine .of_queue_eq rfl rfl rfl le_rfl ?_
            rw [heffort]
            show stopEffort cfg + 2 + _ + (t.job.retriesLeft + 3) < _
            unfold Ticket.load
            omega
  | syncTry i t left ts failed =>
      simp only [closeStep] at h
      split_ifs at h
      · cases h
        cases t.job.operation <;> refine .of_queue_eq rfl rfl rfl le_rfl ?_ <;> simp [Thread.closeEffort]
      · cases left <;> cases h
        · exact .of_queue_eq rfl rfl rfl le_rfl (by simp [Thread.closeEffort])
        · exact .of_queue_eq rfl rfl rfl le_rfl (by simp [Thread.closeEffort])
  | syncClean i t ts failed =>
      obtain ⟨s₁, hs₁, heq⟩ := Option.map_eq_some_iff.mp h
      cases heq
      exact .of_queue_eq (congrArg CacheJobQueue.items (queue_onShard hs₁)) rfl rfl le_rfl (Nat.lt_succ_self _)
  | syncSettle i t success ts failed =>
      obtain ⟨s₁, hs₁, heq⟩ := Option.map_eq_some_iff.mp h
      have hqueue := congrArg CacheJobQueue.items (queue_onShard hs₁)
      cases success <;> cases heq <;> exact .of_queue_eq hqueue rfl rfl le_rfl (Nat.lt_succ_self _)
  | closeStop failed =>
      simp only [closeStep] at h
      split_ifs at h <;> cases h
      · obtain ⟨new, hnew, hputs⟩ :=
          CacheJobQueue.items_offers cfg.queueSize (List.replicate cfg.workerCount ()) s.queue
        have hload := load_stop cfg s.queue cfg.workerCount
        refine ⟨?_, rfl, .inl ⟨le_rfl, ?_⟩⟩
        · show (CacheJobQueue.puts _) + 0 ≤ _
          rw [CacheJobQueue.puts, hnew, List.map_append, List.sum_append, hputs]
          exact le_rfl
        · refine lt_of_le_of_lt (Nat.add_le_add_right hload 1) ?_
          show s.queue.load cfg + 2 * cfg.workerCount + 1 < s.queue.load cfg + (2 * cfg.workerCount + 2)
          omega
      · exact .of_queue_eq rfl rfl rfl le_rfl (by simp [Thread.closeEffort, stopEffort])
  | closeDrain failed =>
      cases h
      refine ⟨Nat.zero_le _, rfl, .inl ⟨le_rfl, ?_⟩⟩
      show 0 + 0 < s.queue.load cfg + 1
      omega
  | _ => cases h

/-- A step of a thread in `close`, its first step included. -/
theorem closer_step (h : threadStep hash s c th = some (s', th')) (hrole : th.role = .closer) :
    CloseStep s th s' th' := by
  rcases Thread.shutting_of_role hrole with hshut | ⟨flush, caller, rfl⟩
  · exact closeStep_toil (closeStep_of_shutting hshut h)
  · rcases entering_cases (clientStep_of_threadStep h rfl rfl) with
      ⟨-, -, hop⟩ | ⟨-, -, -, -, -, hop⟩ | ⟨rfl, rfl, -⟩ | ⟨rfl, -, -, flush', -, rfl⟩
    · exact absurd rfl (hop flush)
    · exact absurd rfl (hop flush)
    · exact .of_queue_eq rfl rfl rfl (Nat.zero_le _) (Nat.succ_pos _)
    · split_ifs
      · exact .of_queue_eq rfl rfl rfl le_rfl (Nat.lt_succ_self _)
      · refine .of_queue_eq rfl rfl rfl (Nat.zero_le _) ?_
        show stopEffort cfg < stopEffort cfg + 3
        omega

/-! ### The debts -/

/-- **No further delete follows** from a step of a call or of a worker. -/
theorem deletes_step (h : threadStep hash s c th = some (s', th')) (hrole : th.role ≠ .closer) :
    th'.deletes ≤ th.deletes ∧ ((∀ op caller, th ≠ .entering op caller) → th'.deletes = 0) := by
  by_cases hpast : ∃ op caller, th = .entering op caller
  · obtain ⟨op, caller, rfl⟩ := hpast
    refine ⟨?_, fun hne => absurd rfl (hne op caller)⟩
    rcases entering_cases (clientStep_of_threadStep h rfl rfl) with
      ⟨-, ⟨exn, rfl⟩, -⟩ | ⟨-, rfl, -⟩ | ⟨-, -, flush, rfl⟩ | ⟨-, -, -, flush, rfl, -⟩
    · have hraised : (caller.raised exn : Thread α V T).InRange cfg ∧ (caller.raised exn : Thread α V T).deletes = 0 :=
        caller.inRange_raised exn
      rw [hraised.2]
      exact Nat.zero_le _
    · exact le_rfl
    · exact absurd rfl hrole
    · exact absurd rfl hrole
  · have hzero : th'.deletes = 0 := by
      have hout : ∀ op caller, th ≠ .entering op caller := fun op caller hth => hpast ⟨op, caller, hth⟩
      rcases threadStep_cases h with hstep | hstep | hstep
      · exact (clientStep_inPhase hstep hout .started false).2.2
      · by_cases hidle : th = .idle
        · subst hidle
          simp only [workerStep] at hstep
          split at hstep
          · cases hstep
            rfl
          · split_ifs at hstep
            cases hstep
            rfl
        · exact (workerStep_inPhase hstep hidle .started false).2.2
      · exact absurd (role_of_closeStep hstep) hrole
    exact ⟨hzero ▸ Nat.zero_le _, fun _ => hzero⟩

/-- A section of `clear` makes tombstones of entries. -/
theorem debts_clearing (hs : ∀ i, ShardOk cfg hash i (s.shards i)) (hs' : ∀ i, ShardOk cfg hash i (s'.shards i))
    {i : ℕ} {ts : List (Ticket α V)} (h : clientStep hash s c (.clearing i ts) = some (s', th')) :
    s'.residents + s'.buried ≤ s.residents + s.buried := by
  simp only [clientStep] at h
  by_cases hi : i < cfg.shardCount
  · obtain ⟨done, rest, hdone⟩ := clearSection_spec hs ⟨i, hi⟩ c.ok
    have hshared : s' = (s.clearSection ⟨i, hi⟩ c.ok).1 := by
      rw [dif_pos hi] at h
      split_ifs at h <;> cases h <;> rfl
    rw [← hshared] at hdone
    have hkeys := hdone.residents_le hs'
    have htombs : s'.buried ≤ s.buried + done.length := by
      apply buried_le_add ⟨i, hi⟩
      intro j k hk
      have hj := (hs' j).shardFor_of_tombstone hk
      by_cases hmem : k ∈ done
      · exact .inr ⟨hj.symm.trans (hdone.home k hmem), hmem⟩
      · refine .inl ?_
        obtain ⟨t, ht⟩ := CacheShard.mem_tombstones_iff.mp hk
        have hslot := hdone.slot k
        rw [if_neg hmem, Shared.home, Shared.home, hj] at hslot
        rw [hslot] at ht
        exact CacheShard.mem_tombstones_iff.mpr ⟨t, ht⟩
    omega
  · rw [dif_neg hi] at h
    have hshards := shards_enqueueOr (Option.some.inj h)
    unfold Shared.residents Shared.buried
    rw [hshards]

/-- **No step raises the debts.** -/
theorem debts_step (h : threadStep hash s c th = some (s', th')) (hs : ∀ i, ShardOk cfg hash i (s.shards i))
    (hs' : ∀ i, ShardOk cfg hash i (s'.shards i)) :
    s'.residents + s'.buried + s'.queue.puts + th'.puts + th'.deletes ≤
      s.residents + s.buried + s.queue.puts + th.puts + th.deletes := by
  have hagrees : ∀ i, (s.shards i).Agrees := fun i => (hs i).agrees
  by_cases hrole : th.role = .closer
  · have hput : ∀ key value ttl caller, th ≠ .running (.put key value ttl) caller := by
      rintro key value ttl caller rfl
      cases caller <;> cases hrole
    have hdelete : ∀ key caller, th ≠ .running (.delete key) caller := by
      rintro key caller rfl
      cases caller <;> cases hrole
    have hclear : ∀ i ts, th ≠ .clearing i ts := by
      rintro i ts rfl
      cases hrole
    have hkeys := residents_le_of_threadStep h hs hput
    have htombs := buried_le_of_threadStep h hagrees hdelete hclear
    have hstep := closer_step h hrole
    have hputs := hstep.puts
    rw [hstep.deletes]
    omega
  · have hputs := puts_step_inPhase h hs hs' hrole
    obtain ⟨hdeletes, hzero⟩ := deletes_step h hrole
    by_cases hdelete : ∃ key caller, th = .running (.delete key) caller
    · obtain ⟨key, caller, rfl⟩ := hdelete
      have htombs := buried_delete_le h hagrees hs'
      have hone : (Thread.running (.delete key) caller : Thread α V T).deletes = 1 := rfl
      have hnone : th'.deletes = 0 := by
        apply hzero
        intro op caller' hth
        cases hth
      rw [hone, hnone]
      omega
    · by_cases hclear : ∃ i ts, th = .clearing i ts
      · obtain ⟨i, ts, rfl⟩ := hclear
        have hstep := clientStep_of_threadStep h rfl rfl
        have hboth := debts_clearing hs hs' hstep
        obtain ⟨hqueue, hnone⟩ : s'.queue = s.queue ∧ th'.puts = 0 := by
          by_cases hi : i < cfg.shardCount
          · obtain ⟨-, hnone, hqueue, -⟩ := callEffort_clearing hs hs' hi hstep
            exact ⟨hqueue, hnone⟩
          · simp only [clientStep, dif_neg hi] at hstep
            exact queue_enqueueOr (Option.some.inj hstep)
        have hdeleted : th'.deletes = 0 := by
          apply hzero
          intro op caller hth
          cases hth
        rw [hqueue, hnone, hdeleted]
        omega
      · have htombs := buried_le_of_threadStep h hagrees (fun key caller hth => hdelete ⟨key, caller, hth⟩)
          fun i ts hth => hclear ⟨i, ts, hth⟩
        omega

end Steps

/-! ### The rank -/

section Rank

variable {s s' : System α V cfg} {l : Label α V T}

/-- What is left to do for a thread in `close`, or done with it. -/
theorem Thread.toil_of_control {s s' : Shared α V cfg} {th th' : Thread α V T} (h : Control s th s' th')
    (hrole : th.role = .closer) : th'.toil cfg = th'.closeEffort cfg := by
  unfold Thread.toil
  rcases h.role with hsame | ⟨-, result, rfl⟩
  · rw [if_pos (hsame.trans hrole)]
  · rfl

/-- **What a step does to what is left for its thread**: it lowers that, or it is a section that collects. -/
theorem toil_threadStep {s s' : Shared α V cfg} {c : Choice α V} {th th' : Thread α V T}
    (h : threadStep hash s c th = some (s', th')) (hs : ∀ i, ShardOk cfg hash i (s.shards i))
    (hs' : ∀ i, ShardOk cfg hash i (s'.shards i)) (hcontrol : Control s th s' th') (hfit : th.Fit)
    (hrange : th.InRange cfg) :
    (th'.collects cfg ≤ th.collects cfg ∧
      s'.queue.load cfg + th'.toil cfg + keyWeight cfg * (s'.residents + s'.queue.puts + th'.puts) + th'.alive <
        s.queue.load cfg + th.toil cfg + keyWeight cfg * (s.residents + s.queue.puts + th.puts) + th.alive) ∨
    (th'.collects cfg + 1 ≤ th.collects cfg ∧
      s'.queue.load cfg + th'.toil cfg + keyWeight cfg * (s'.residents + s'.queue.puts + th'.puts) + th'.alive <
        s.queue.load cfg + th.toil cfg + keyWeight cfg * (s.residents + s.queue.puts + th.puts) + th.alive +
          (keyWeight cfg * (s.residents + s.buried) + 2)) := by
  by_cases hrole : th.role = .closer
  · have hstep := closer_step h hrole
    have htoil : th.toil cfg = th.closeEffort cfg := if_pos hrole
    have hkeys : s'.residents ≤ s.residents := by
      refine residents_le_of_threadStep h hs ?_
      rintro key value ttl caller rfl
      cases caller <;> cases hrole
    have hnone : th.alive = 0 := Thread.alive_of_role (by rw [hrole]; decide)
    have hnone' : th'.alive = 0 := by
      apply Thread.alive_of_role
      rcases hcontrol.role with hsame | ⟨-, result, rfl⟩
      · rw [hsame, hrole]
        decide
      · intro hworker
        cases hworker
    have hputs : keyWeight cfg * (s'.residents + s'.queue.puts + th'.puts) ≤
        keyWeight cfg * (s.residents + s.queue.puts + th.puts) := by
      have hle := hstep.puts
      apply Nat.mul_le_mul_left
      omega
    rw [Thread.toil_of_control hcontrol hrole, htoil, hnone, hnone']
    rcases hstep.lowers with ⟨hcollects, hlower⟩ | ⟨hcollects, hlower⟩
    · exact .inl ⟨hcollects, by omega⟩
    · exact .inr ⟨hcollects, by omega⟩
  · have hrole' := hcontrol.role.resolve_right fun hcloser => hrole hcloser.1
    have heffort := effort_step_inPhase h hs hs' hfit hrange hrole hrole'
    have htoil : th.toil cfg = th.effort cfg := if_neg hrole
    have htoil' : th'.toil cfg = th'.effort cfg := if_neg (hrole' ▸ hrole)
    rw [Thread.collects_of_role hrole, Thread.collects_of_role (hrole' ▸ hrole), htoil, htoil']
    exact .inl ⟨le_rfl, heffort⟩

/-- **The rank**: threads that move lower the toil, in `close` or not. -/
theorem Attended.toil_step (h : Attended hash s) (hl : l.continues = true)
    (hs : CacheLab.step cfg hash s l = some s') :
    Attended hash s' ∧ (if l.moves then 1 else 0) + s'.toil ≤ s.toil := by
  have hafter := h.step hs
  refine ⟨hafter, ?_⟩
  cases l with
  | tick now =>
      simp only [CacheLab.step] at hs
      split_ifs at hs
      cases hs
      simp [Label.moves, System.toil, System.keysWeight, System.debts, Shared.residents, Shared.buried]
  | run i c =>
      simp only [CacheLab.step, Option.bind_eq_some_iff, Option.map_eq_some_iff] at hs
      obtain ⟨th, hi, ⟨sh, th'⟩, hr, rfl⟩ := hs
      have hmem := List.mem_of_getElem? hi
      have hcontrol := threadStep_control hr (h.base.threads th hmem).1 (h.base.threads th hmem).2
        fun i => (h.base.shards i).index_eq
      have hdebts := debts_step hr h.base.shards hafter.base.shards
      obtain ⟨toil, htoil, htoil'⟩ := Transition.sum_map_set (Thread.toil cfg) hi
      obtain ⟨puts, hputs, hputs'⟩ := Transition.sum_map_set (Thread.puts) hi
      obtain ⟨deletes, hdeletes, hdeletes'⟩ := Transition.sum_map_set (Thread.deletes) hi
      obtain ⟨alive, halive, halive'⟩ := Transition.sum_map_set (Thread.alive) hi
      obtain ⟨collects, hcollects, hcollects'⟩ := Transition.sum_map_set (Thread.collects cfg) hi
      simp only [Label.moves, if_true, System.toil, System.keysWeight, System.debts, htoil, htoil' th', hputs,
        hputs' th', hdeletes, hdeletes' th', halive, halive' th', hcollects, hcollects' th']
      have hdue : keyWeight cfg *
            (sh.residents + sh.buried + sh.queue.puts + (th'.puts + puts) + (th'.deletes + deletes)) + 2 ≤
          keyWeight cfg * (s.shared.residents + s.shared.buried + s.shared.queue.puts + (th.puts + puts) +
            (th.deletes + deletes)) + 2 := by
        apply Nat.add_le_add_right
        apply Nat.mul_le_mul_left
        omega
      have hkeys : ∀ r p : ℕ, keyWeight cfg * (r + (p + puts)) = keyWeight cfg * (r + p) + keyWeight cfg * puts := by
        intro r p
        ring
      rw [hkeys, hkeys]
      rcases toil_threadStep hr h.base.shards hafter.base.shards hcontrol (h.base.threads th hmem).1
          (h.points th hmem) with
        ⟨hless, hlower⟩ | ⟨hless, hlower⟩
      · have hprod := Nat.mul_le_mul (Nat.add_le_add_right hless collects) hdue
        omega
      · -- the section is paid for with one of the sections that were still to come
        have hpaid : keyWeight cfg * (s.shared.residents + s.shared.buried) + 2 ≤
            keyWeight cfg * (s.shared.residents + s.shared.buried + s.shared.queue.puts + (th.puts + puts) +
              (th.deletes + deletes)) + 2 := by
          apply Nat.add_le_add_right
          apply Nat.mul_le_mul_left
          omega
        have hprod := Nat.mul_le_mul_left (th'.collects cfg + collects) hdue
        have hmore := Nat.mul_le_mul_right (keyWeight cfg * (s.shared.residents + s.shared.buried +
          s.shared.queue.puts + (th.puts + puts) + (th.deletes + deletes)) + 2) (Nat.add_le_add_right hless collects)
        rw [Nat.add_right_comm, Nat.succ_mul] at hmore
        omega
  | _ => cases hl

end Rank

/-! ### Progress -/

/-- Some thread can move, whatever the source and the loaders do, if the wait of `close` for the workers times out. -/
def System.MovesInTime (hash : Key α → ℕ) (s : System α V cfg) : Prop :=
  ∃ i, ∀ c : Choice α V, c.timeout = true → (CacheLab.step cfg hash s (.run i c)).isSome = true

/-- **All calls returned**, and the workers wait for jobs or left their loops; those of a closed cache left. -/
structure AllOver (s : System α V cfg) : Prop where
  calls : ∀ th ∈ s.threads, th.role ≠ .worker → ∃ r, th = .finished r
  workers : ∀ th ∈ s.threads, th.role = .worker → th = .idle ∧ s.shared.queue.items = [] ∨ th = .stopped
  left : s.shared.lifecycle = .closed → ∀ th ∈ s.threads, th.role = .worker → th = .stopped

/-- A thread at a point that names an existing shard did not get behind the checks of `close`. -/
theorem Thread.InRange.callable {th : Thread α V T} (h : th.InRange cfg) : th.Callable := by
  cases th <;> first | exact h | trivial

/-- A `close` can move, unless it waits for the workers; and that wait may time out. -/
theorem isSome_closeStep {s : Shared α V cfg} {c : Choice α V} {th : Thread α V T} (hshut : th.shutting = true)
    (hrange : th.InRange cfg) (htime : c.timeout = true) : (closeStep s c th).isSome = true := by
  cases th with
  | closeCollect i =>
      have hlt : i < cfg.shardCount := hrange
      simp only [closeStep, dif_pos hlt]
      rfl
  | closeEnqueue i ts =>
      cases ts with
      | nil => rfl
      | cons t ts =>
          simp only [closeStep]
          split_ifs <;> rfl
  | closeRelease i ts =>
      cases ts with
      | nil => rfl
      | cons t ts =>
          rw [closeStep, Option.isSome_map]
          exact s.isSome_onShard hrange _
  | closeJoin =>
      simp only [closeStep, htime, if_true]
      split_ifs <;> rfl
  | syncCollect i failed =>
      simp only [closeStep]
      split_ifs <;> rfl
  | syncNext i ts failed =>
      cases ts with
      | nil => rfl
      | cons t ts =>
          have hlt : i < cfg.shardCount := hrange
          simp only [closeStep, dif_pos hlt]
          split_ifs <;> rfl
  | syncTry i t left ts failed =>
      simp only [closeStep]
      split_ifs
      · rfl
      · cases left <;> rfl
  | syncClean i t ts failed =>
      rw [closeStep, Option.isSome_map]
      exact s.isSome_onShard hrange _
  | syncSettle i t success ts failed =>
      rw [closeStep, Option.isSome_map]
      exact s.isSome_onShard hrange _
  | closeStop failed =>
      simp only [closeStep]
      split_ifs <;> rfl
  | closeDrain failed => rfl
  | _ => cases hshut

/-- A worker that handles a job can move. -/
theorem isSome_workerStep {s : Shared α V cfg} {th : Thread α V T} (hbusy : th.busy ≠ 0) (hin : th.inCall = false)
    (hrange : th.InRange cfg) (hshards : ∀ t ∈ th.flushes.map Prod.snd, t.job.shardIndex < cfg.shardCount)
    (c : Choice α V) : (workerStep s c th).isSome = true := by
  cases th with
  | handling job =>
      cases job with
      | stopWorker => rfl
      | expireShard i =>
          rw [workerStep, Option.isSome_map]
          exact s.isSome_onShard hrange _
      | snapshotStats id => rfl
      | preloadKey i key ttl =>
          simp only [workerStep]
          split <;> rfl
      | flushWriteBack t =>
          have hlt := hshards t (by simp [Thread.flushes])
          simp only [workerStep, dif_pos hlt]
          split_ifs <;> rfl
  | checked t =>
      simp only [workerStep]
      split_ifs <;> rfl
  | failed t =>
      simp only [workerStep]
      split_ifs <;> rfl
  | dropped t =>
      rw [workerStep, Option.isSome_map]
      exact s.isSome_onShard (hshards t (by simp [Thread.flushes])) _
  | landed t =>
      rw [workerStep, Option.isSome_map]
      exact s.isSome_onShard (hshards t (by simp [Thread.flushes])) _
  | finishing => rfl
  | _ => first | exact absurd rfl hbusy | cases hin

/-- A thread moves if one of its three kinds of steps is possible. -/
theorem isSome_threadStep {s : Shared α V cfg} {c : Choice α V} {th : Thread α V T}
    (h : (clientStep hash s c th).isSome = true ∨ (workerStep s c th).isSome = true ∨
      (closeStep s c th).isSome = true) :
    (threadStep hash s c th).isSome = true := by
  unfold threadStep
  cases hclient : clientStep hash s c th with
  | some r => rfl
  | none =>
      cases hworker : workerStep s c th with
      | some r => rfl
      | none =>
          rw [hclient, hworker] at h
          rcases h with h | h | h
          · cases h
          · cases h
          · exact h

section Moves

variable {s : System α V cfg}

/-- A thread that can move. -/
theorem System.MovesInTime.of_thread {th : Thread α V T} (hmem : th ∈ s.threads)
    (hsome : ∀ c : Choice α V, c.timeout = true → (threadStep hash s.shared c th).isSome = true) :
    s.MovesInTime hash := by
  obtain ⟨i, hi⟩ := List.mem_iff_getElem?.mp hmem
  refine ⟨i, ?_⟩
  intro c htime
  simp [CacheLab.step, hi, hsome c htime]

/-- A thread in a call can move while no `close` is on its way. -/
theorem Attended.moves_of_inCall (h : Attended hash s) (hlife : s.shared.lifecycle ≠ .closing) {th : Thread α V T}
    (hmem : th ∈ s.threads) (hin : th.inCall = true) : s.MovesInTime hash := by
  refine .of_thread hmem ?_
  intro c _
  exact isSome_threadStep
    (.inl (isSome_clientStep hin (h.points th hmem).callable hlife (h.base.shardIndex_lt hmem) c))

/-- Whoever waits for a flight: it landed, or its leader moves. -/
theorem Attended.moves_of_waiting (h : Attended hash s) (hlife : s.shared.lifecycle ≠ .closing) {f : ℕ}
    (hmem : .waiting f ∈ s.threads) : s.MovesInTime hash := by
  rcases h.flights.landed_or_led hmem with hlanded | ⟨th, hleader, hin⟩
  · refine .of_thread hmem ?_
    intro c _
    exact isSome_threadStep (.inl (hlanded c))
  · exact h.moves_of_inCall hlife hleader hin

/-- A thread that handles a job can move while no `close` is on its way. -/
theorem Attended.moves_of_busy (h : Attended hash s) (hlife : s.shared.lifecycle ≠ .closing) {th : Thread α V T}
    (hmem : th ∈ s.threads) (hbusy : th.busy ≠ 0) : s.MovesInTime hash := by
  by_cases hin : th.inCall = true
  · exact h.moves_of_inCall hlife hmem hin
  · refine .of_thread hmem ?_
    intro c _
    exact isSome_threadStep (.inr (.inl (isSome_workerStep hbusy (by simpa using hin) (h.points th hmem)
      (h.base.shardIndex_lt hmem) c)))

/-- A worker that finds a job, or that it is to stop, can move. -/
theorem System.MovesInTime.of_idle (hmem : .idle ∈ s.threads)
    (hwork : s.shared.queue.items ≠ [] ∨ s.shared.stopEvent = true) : s.MovesInTime hash := by
  refine .of_thread hmem ?_
  intro c _
  refine isSome_threadStep (.inr (.inl ?_))
  simp only [workerStep]
  split
  · rfl
  · next hitems =>
      rw [if_pos (hwork.resolve_left fun hne => hne hitems)]
      rfl

/-- A worker without a job waits for one, or left its loop. -/
theorem Thread.idle_or_stopped {th : Thread α V T} (hworker : th.role = .worker) (hbusy : th.busy = 0) :
    th = .idle ∨ th = .stopped := by
  cases th with
  | idle => exact .inl rfl
  | stopped => exact .inr rfl
  | _ =>
      unfold Thread.busy at hbusy
      simp [hworker] at hbusy

/-- A call that is not over moves while no `close` is past its check. -/
theorem Attended.moves_of_call (h : Attended hash s) (hshut : ∀ th ∈ s.threads, th.shutting = false)
    {th : Thread α V T} (hmem : th ∈ s.threads) (hrole : th.role ≠ .worker) (hover : ∀ r, th ≠ .finished r) :
    s.MovesInTime hash := by
  have hlife : s.shared.lifecycle ≠ .closing := by
    intro hclosing
    obtain ⟨x, hx, hin⟩ := h.closing hclosing
    rw [hshut x hx] at hin
    cases hin
  cases hr : th.role with
  | worker => exact absurd hr hrole
  | closer =>
      rcases Thread.shutting_of_role hr with hin | ⟨flush, caller, rfl⟩
      · rw [hshut th hmem] at hin
        cases hin
      · exact h.moves_of_inCall hlife hmem rfl
  | client =>
      cases hwait : th.awaits with
      | none => exact h.moves_of_inCall hlife hmem (Thread.inCall_of_client hr hwait hover)
      | some f =>
          obtain rfl : th = .waiting f := by
            cases th with
            | waiting g =>
                cases hwait
                rfl
            | _ => cases hwait
          exact h.moves_of_waiting hlife hmem

/-- **Progress**: until all is over, some thread can move. -/
theorem Attended.moves (h : Attended hash s) : AllOver s ∨ s.MovesInTime hash := by
  by_cases hmoves : s.MovesInTime hash
  · exact .inr hmoves
  · have hshut : ∀ th ∈ s.threads, th.shutting = false := by
      intro th hmem
      by_contra hin
      apply hmoves
      refine .of_thread hmem ?_
      intro c htime
      exact isSome_threadStep (.inr (.inr (isSome_closeStep (by simpa using hin) (h.points th hmem) htime)))
    have hlife : s.shared.lifecycle ≠ .closing := by
      intro hclosing
      obtain ⟨th, hmem, hin⟩ := h.closing hclosing
      rw [hshut th hmem] at hin
      cases hin
    have hrest : ∀ th ∈ s.threads, th.role = .worker → th = .idle ∨ th = .stopped := by
      intro th hmem hworker
      apply Thread.idle_or_stopped hworker
      by_contra hbusy
      exact hmoves (h.moves_of_busy hlife hmem hbusy)
    refine .inl ⟨?_, ?_, ?_⟩
    · intro th hmem hrole
      by_contra hover
      exact hmoves (h.moves_of_call hshut hmem hrole fun r hth => hover ⟨r, hth⟩)
    · intro th hmem hworker
      rcases hrest th hmem hworker with rfl | rfl
      · refine .inl ⟨rfl, ?_⟩
        by_contra hitems
        exact hmoves (.of_idle hmem (.inl hitems))
      · exact .inr rfl
    · intro hclosed th hmem hworker
      rcases hrest th hmem hworker with rfl | rfl
      · exact absurd (.of_idle hmem (.inr (h.told (.inl hclosed) _ hmem hworker))) hmoves
      · rfl

end Moves

/-! ### Runs -/

section Run

variable {now : T} {src : Source α V} {s s' : System α V cfg} {l : Label α V T} {ls : List (Label α V T)}

/-- In every run the waits of a shutdown are attended. -/
theorem attended_exec (h : exec cfg hash (initial cfg now src) ls = some s) : Attended hash s :=
  Transition.run_invariant_of_step (fun _ _ _ hs hattended => hattended.step hs) h (attended_initial cfg hash now src)

/-- `close` was called: the cache is closed, or a `close` was left by an error, or a call of `close` is not over. -/
def System.Summoned (s : System α V cfg) : Prop :=
  s.shared.lifecycle = .closed ∨ s.shared.lifecycle = .abandoned ∨ ∃ th ∈ s.threads, th.role = .closer

/-- A `close` that is over leaves a closed cache behind, or one that is abandoned. -/
theorem lifecycle_of_closer {s s' : Shared α V cfg} {c : Choice α V} {th th' : Thread α V T}
    (h : threadStep hash s c th = some (s', th')) (hrole : th.role = .closer)
    (hlife : th.shutting = true → s.lifecycle = .closing) :
    th'.role = .closer ∨ s'.lifecycle = .closed ∨ s'.lifecycle = .abandoned := by
  rcases Thread.shutting_of_role hrole with hshut | ⟨flush, caller, rfl⟩
  · have hclose := closeStep_of_shutting hshut h
    rcases (closeStep_shutting hclose).2 with hshut' | ⟨failed, rfl⟩ | ⟨i, t, ts, -, -, rfl, -⟩
    · exact .inl (Thread.role_of_shutting hshut')
    · cases hclose
      exact .inr (.inl rfl)
    · refine .inr (.inr ?_)
      show s.lifecycle.released = .abandoned
      rw [hlife hshut]
      rfl
  · have hclient := clientStep_of_threadStep h rfl rfl
    simp only [clientStep] at hclient
    cases hlife : s.lifecycle with
    | closed =>
        rw [hlife] at hclient
        cases hclient
        exact .inr (.inl hlife)
    | closing =>
        rw [hlife] at hclient
        cases hclient
    | _ =>
        rw [hlife] at hclient
        cases hclient
        left
        split_ifs <;> rfl

/-- An abandoned cache stays so until the next `close`. -/
theorem step_abandoned (h : CacheLab.step cfg hash s l = some s') (hlife : s.shared.lifecycle = .abandoned) :
    s'.Summoned := by
  have hsame : s'.shared.lifecycle = s.shared.lifecycle → s'.Summoned := fun heq => .inr (.inl (heq.trans hlife))
  cases l with
  | tick now =>
      simp only [CacheLab.step] at h
      split_ifs at h
      cases h
      exact hsame rfl
  | start =>
      simp only [CacheLab.step, hlife] at h
      cases h
  | call op =>
      cases h
      exact hsame rfl
  | schedule i =>
      simp only [CacheLab.step] at h
      split_ifs at h
      cases h
      exact hsame rfl
  | run i c =>
      simp only [CacheLab.step, Option.bind_eq_some_iff, Option.map_eq_some_iff] at h
      obtain ⟨th, hi, ⟨sh, th'⟩, hr, rfl⟩ := h
      rcases threadStep_phase hr with
        hphase | ⟨flush, caller, rfl, -⟩ | ⟨failed, -, hclosed⟩ | ⟨m, t, ts, -, -, rfl, -⟩
      · exact hsame (congrArg Prod.fst hphase)
      · have hfirst := clientStep_of_threadStep hr rfl rfl
        simp only [clientStep, hlife] at hfirst
        obtain ⟨-, rfl⟩ := Prod.mk.inj (Option.some.inj hfirst)
        refine .inr (.inr ⟨_, mem_set_self hi _, ?_⟩)
        split_ifs <;> rfl
      · exact .inl hclosed
      · refine hsame ?_
        show s.shared.lifecycle.released = s.shared.lifecycle
        rw [hlife]
        rfl

/-- A cache that is called to close stays so. -/
theorem System.Summoned.step (h : s.Summoned) (hsolo : Solo s) (hs : CacheLab.step cfg hash s l = some s') :
    s'.Summoned := by
  rcases h with hclosed | habandoned | ⟨th, hmem, hrole⟩
  · exact .inl (step_closed hs hclosed)
  · exact step_abandoned hs habandoned
  · rcases step_cases hs with ⟨now, -, -, rfl⟩ | ⟨new, -, -, hthreads, -⟩ | ⟨i, c, x, x', -, hi, hr, hset⟩
    · exact .inr (.inr ⟨th, hmem, hrole⟩)
    · exact .inr (.inr ⟨th, hthreads ▸ List.mem_append_left new hmem, hrole⟩)
    · rcases eq_or_mem_set hi hmem x' with rfl | hstays
      · rcases lifecycle_of_closer hr hrole fun hshut => (hsolo i x hi hshut).1 with hrole' | hover
        · exact .inr (.inr ⟨x', hset ▸ mem_set_self hi x', hrole'⟩)
        · exact hover.imp_right .inl
      · exact .inr (.inr ⟨th, hset ▸ hstays, hrole⟩)

/-- After a call of `close`. -/
theorem summoned_exec (h : exec cfg hash (initial cfg now src) ls = some s) (hcalled : ∃ l ∈ ls, l.closes = true) :
    s.Summoned := by
  obtain ⟨l, hl, hcloses⟩ := hcalled
  obtain ⟨before, after, rfl⟩ := List.append_of_mem hl
  obtain ⟨u, hu, hrest⟩ := Transition.run_append_eq_some.mp h
  obtain ⟨v, hv, hafter⟩ := Transition.run_cons_eq_some.mp hrest
  have hstep : ∀ (s : System α V cfg) l s', step cfg hash s l = some s' → Attended hash s ∧ s.Summoned →
      Attended hash s' ∧ s'.Summoned :=
    fun _ _ _ hs hinv => ⟨hinv.1.step hs, hinv.2.step hinv.1.solo hs⟩
  refine (Transition.run_invariant_of_step hstep hafter ⟨(attended_exec hu).step hv, ?_⟩).2
  cases l with
  | call op =>
      cases op with
      | close flush =>
          cases hv
          exact .inr (.inr ⟨_, List.mem_append_right _ (List.mem_singleton_self _), rfl⟩)
      | _ => cases hcloses
  | _ => cases hcloses

/-- When all is over, a cache that was called to close is closed, or abandoned. -/
theorem AllOver.closed (h : AllOver s) (hsummoned : s.Summoned) :
    s.shared.lifecycle = .closed ∨ s.shared.lifecycle = .abandoned := by
  rcases hsummoned with hclosed | habandoned | ⟨th, hmem, hrole⟩
  · exact .inl hclosed
  · exact .inr habandoned
  · obtain ⟨r, rfl⟩ := h.calls th hmem (by simp [hrole])
    cases hrole

/-- **Every call returns, `close` included.** `close` may have been called, once or more often. From `s` on nobody
calls anything and the scheduler is silent, while threads move in any order and the clock goes on. Whatever the source
does, and whatever the loaders return or raise, the threads take at most `s.toil` steps, and until all is over some
thread can move, if the wait of `close` for the workers times out; so every long enough run gets there, and there is one
that does. Wherever all is over and `close` was called, the cache is closed and no worker is left; or it is abandoned,
and enqueuing a job of a `close` raised `ValueError` on the way. -/
theorem every_call_returns_with_close (h : exec cfg hash (initial cfg now src) ls = some s) :
    (∀ ms s', exec cfg hash s ms = some s' → (∀ l ∈ ms, l.continues = true) →
      ms.countP Label.moves + s'.toil ≤ s.toil ∧ (AllOver s' ∨ s'.MovesInTime hash)) ∧
    (∃ ms s', exec cfg hash s ms = some s' ∧
      Transition.Along (step cfg hash) (fun _ l => l.continues = true) s ms ∧ AllOver s') ∧
    ∀ ms s', exec cfg hash s ms = some s' → AllOver s' → (∃ l ∈ ls, l.closes = true) →
      s'.shared.lifecycle = .closed ∧ (∀ th ∈ s'.threads, th.role = .worker → th = .stopped) ∨
        s'.shared.lifecycle = .abandoned ∧
          ¬ Transition.Along (step cfg hash) (fun s l => breaksOff s l = false) (initial cfg now src) (ls ++ ms) := by
  have hattended := attended_exec h
  have hrank : ∀ (s : System α V cfg) (l : Label α V T) s', l.continues = true → step cfg hash s l = some s' →
      Attended hash s → Attended hash s' ∧ (if l.moves then 1 else 0) + s'.toil ≤ s.toil :=
    fun s l s' hl hs hattended => hattended.toil_step hl hs
  refine ⟨?_, ?_, ?_⟩
  · intro ms s' hms hcontinues
    have halong : Transition.Along (step cfg hash) (fun _ l => l.continues = true) s ms :=
      Transition.along_of_forall (fun l hl _ => hcontinues l hl) s
    have hattended' : Attended hash s' := attended_exec (Transition.run_append_eq_some.mpr ⟨s, h, hms⟩)
    exact ⟨Transition.countP_add_rank_le hrank hms halong hattended, hattended'.moves⟩
  · refine Transition.exists_run_done hrank ?_ hattended
    intro s hattended
    rcases hattended.moves with hdone | ⟨i, hi⟩
    · exact .inl hdone
    · obtain ⟨s', hs'⟩ := Option.isSome_iff_exists.mp (hi { timeout := true } rfl)
      exact .inr ⟨.run i { timeout := true }, s', rfl, rfl, hs'⟩
  · intro ms s' hms hover hcalled
    have hrun : exec cfg hash (initial cfg now src) (ls ++ ms) = some s' :=
      Transition.run_append_eq_some.mpr ⟨s, h, hms⟩
    have hsummoned := summoned_exec hrun (hcalled.imp fun l hl => ⟨List.mem_append_left _ hl.1, hl.2⟩)
    rcases hover.closed hsummoned with hclosed | habandoned
    · exact .inl ⟨hclosed, hover.left hclosed⟩
    · exact .inr ⟨habandoned, fun hno => ne_abandoned_exec hno hrun habandoned⟩

end Run

/-- A worker, a put that is past its check, and two calls of `close`. -/
def putUnderClose : List (Label ℕ ℕ ℕ) :=
  [.start, .call (.put (some 1) 5 .unset), .run 1 {}, .call (.close (some true)), .run 2 {}, .call (.close none)]

/-- The put is past its check and still writes; then all calls return, and the worker is gone. -/
theorem every_call_returns_putUnderClose :
    ∃ s : System ℕ ℕ (oneEntry .lru .writeBack 1 0 1),
      exec _ (fun _ => 0) (initial _ 0 .empty) putUnderClose = some s ∧
      s.threads = [Thread.idle, .running (.put (some 1) 5 .unset) (.client .done), .closeCollect 0,
        .entering (.close none) (.client .done)] ∧
      s.toil = 104 ∧ ∃ ms s', exec _ (fun _ => 0) s ms = some s' ∧ AllOver s' ∧ s'.shared.lifecycle = .closed ∧
        ∀ th ∈ s'.threads, th.role = .worker → th = .stopped := by
  have heval : ((exec (oneEntry .lru .writeBack 1 0 1) (fun _ => 0) (initial _ 0 .empty) putUnderClose).map
      fun s : System ℕ ℕ (oneEntry .lru .writeBack 1 0 1) =>
        decide (s.threads = [Thread.idle, .running (.put (some 1) 5 .unset) (.client .done), .closeCollect 0,
          .entering (.close none) (.client .done)] ∧ s.toil = 104)) = some true := by
    decide +kernel
  obtain ⟨s, hs, heval⟩ := Option.map_eq_some_iff.mp heval
  obtain ⟨hthreads, htoil⟩ := of_decide_eq_true heval
  obtain ⟨-, ⟨ms, s', hms, -, hover⟩, hends⟩ := every_call_returns_with_close hs
  rcases hends ms s' hms hover ⟨.call (.close none), by simp [putUnderClose], rfl⟩ with ⟨hlife, hgone⟩ | ⟨-, hraised⟩
  · exact ⟨s, hs, hthreads, htoil, ms, s', hms, hover, hlife, hgone⟩
  · -- the queue is unbounded
    exact absurd (Transition.along_of_forall (fun l _ s => breaksOff_of_unbounded rfl s l) _) hraised

end CacheLab
