import CacheLab.Properties.Draining
import CacheLab.Properties.FanOut
import CacheLab.System.Flights
import CacheLab.System.Queue

/-!
# Every call returns

The cache is open: `close` was not called. From some moment on nobody calls anything and the scheduler is silent;
clients, leaders of flights and workers move in any order, the clock goes on, and source and loaders do what they
want, but that a loader does not call the cache. Then all calls return and the workers run out of work.

* Every step lowers the `effort` of the system. A call weighs the steps that it takes itself and the work that it
  can cause: a put brings a flush job, a `clear` turns each resident key into one, a preload brings a put. So a
  resident key and a put that is still to come have a weight of their own (`keyWeight`).
* A thread that is not over can move, or it waits for a flight; and a flight that has not landed has a leader,
  which can move (`Open.exists_step`).

The weights of the workers and their steps are those of `Properties/Draining.lean`.
-/

set_option linter.unusedSectionVars false

namespace CacheLab

variable {α V T : Type} [DecidableEq α] [LinearOrder T] [Zero T] [Add T] [Sub T]

variable {cfg : AcceptedConfig T} {hash : Key α → ℕ}

/-! ### The effort -/

/-- What a resident key can bring, when a `clear` makes a flush job of it. -/
def keyWeight (cfg : AcceptedConfig T) : ℕ := 6 * (cfg.writeBackRetryCount + 1) + 1

/-- What is left to do for a call that passed its checks. -/
def Op.effort (cfg : AcceptedConfig T) : Op α V T → ℕ
  | put _ _ _ => putLoad cfg
  | delete _ => putLoad cfg
  | clear => cfg.shardCount + 5
  | size => cfg.shardCount + 2
  | dump _ => cfg.shardCount + 2
  | expireAll => cfg.shardCount + 2
  | getOrCompute _ _ => putLoad cfg + 4
  | preload _ _ => putLoad cfg + 4
  | requestSnapshot _ => 4
  | _ => 1

/-- What is left to do for the thread of a call. -/
def Thread.callEffort (cfg : AcceptedConfig T) : Thread α V T → ℕ
  | .entering op _ => op.effort cfg + 1
  | .running op _ => op.effort cfg
  | .clearing i ts => cfg.shardCount - i + 4 + (ts.map fun t => t.load + 1).sum
  | .sizing i _ => cfg.shardCount - i + 1
  | .dumping i _ _ => cfg.shardCount - i + 1
  | .expiring i _ => cfg.shardCount - i + 1
  | .enqueuing ts _ => 3 + (ts.map fun t => t.load + 1).sum
  | .releasing ts _ => 2 + ts.length
  | .leading _ _ _ => putLoad cfg + 3
  | .loading _ _ _ => putLoad cfg + 2
  | .publishing _ _ _ => 1
  | .failing _ _ _ => 1
  | .waiting _ => 1
  | _ => 0

/-- What is left to do for a thread. -/
def Thread.effort (cfg : AcceptedConfig T) (th : Thread α V T) : ℕ :=
  if th.role = .worker then th.load cfg else th.callEffort cfg

/-- The weight of the keys that are resident or will be put. -/
def System.keysWeight (s : System α V cfg) : ℕ :=
  keyWeight cfg * (s.shared.residents + s.shared.queue.puts + (s.threads.map Thread.puts).sum)

/-- What is left to do. -/
def System.effort (s : System α V cfg) : ℕ :=
  s.shared.queue.load cfg + (s.threads.map (Thread.effort cfg)).sum + s.keysWeight

/-- A thread that passed the checks of `close` is in `close`. -/
def Thread.Callable : Thread α V T → Prop
  | .running op _ => ∀ flush, op ≠ .close flush
  | _ => True

section Steps

variable {s s' : Shared α V cfg} {c : Choice α V} {th th' : Thread α V T}

/-! ### Resident keys and puts -/

/-- **A step makes no puts, and a key comes from a put.** -/
theorem puts_step (h : threadStep hash s c th = some (s', th')) (hs : ∀ i, ShardOk cfg hash i (s.shards i))
    (hs' : ∀ i, ShardOk cfg hash i (s'.shards i)) (hopen : s'.lifecycle ≠ .closed) :
    s'.residents + s'.queue.puts + th'.puts ≤ s.residents + s.queue.puts + th.puts := by
  have hqueue : s'.queue.puts + th'.puts ≤ s.queue.puts + th.puts := by
    rcases threadStep_queue h with ⟨new, hitems, hputs⟩ | ⟨job, rfl, rfl, hitems⟩ | hclosed
    · unfold CacheJobQueue.puts
      rw [hitems, List.map_append, List.sum_append]
      omega
    · unfold CacheJobQueue.puts
      rw [hitems, List.map_cons, List.sum_cons]
      show _ + job.puts ≤ job.puts + _ + 0
      omega
    · exact absurd hclosed hopen
  by_cases hput : ∃ key value ttl caller, th = .running (.put key value ttl) caller
  · obtain ⟨key, value, ttl, caller, rfl⟩ := hput
    have hkeys := residents_put_le h hs hs'
    obtain ⟨hq, hnone⟩ := queue_put h
    rw [hq, hnone]
    show s'.residents + s.queue.puts + 0 ≤ s.residents + s.queue.puts + 1
    omega
  · have hkeys : s'.residents ≤ s.residents := by
      refine residents_le_of_threadStep h hs ?_
      intro key value ttl caller hth
      exact hput ⟨key, value, ttl, caller, hth⟩
    omega

/-! ### The steps of the calls -/

/-- A caller that is told that its put raised. -/
theorem Caller.callEffort_raised (cfg : AcceptedConfig T) (caller : Caller α V T) (exn : Exn) :
    (caller.raised exn : Thread α V T).Callable ∧ (caller.raised exn : Thread α V T).callEffort cfg ≤ 1 := by
  cases caller with
  | client result => exact ⟨trivial, Nat.zero_le _⟩
  | preloader => exact ⟨trivial, Nat.zero_le _⟩
  | leader key flight value => cases exn <;> exact ⟨trivial, le_rfl⟩

/-- A caller that is told that its put returned. -/
theorem Caller.callEffort_returned (cfg : AcceptedConfig T) (caller : Caller α V T) :
    (caller.returned : Thread α V T).Callable ∧ (caller.returned : Thread α V T).callEffort cfg ≤ 1 := by
  cases caller with
  | client result => exact ⟨trivial, Nat.zero_le _⟩
  | preloader => exact ⟨trivial, Nat.zero_le _⟩
  | leader key flight value => exact ⟨trivial, le_rfl⟩

/-- Starting to enqueue. -/
theorem callEffort_enqueueOr {u : Shared α V cfg} {ts : List (Ticket α V)} {caller : Caller α V T}
    (h : enqueueOr u ts caller = (s', th')) : th'.Callable ∧ s'.queue = u.queue ∧
      th'.callEffort cfg ≤ 3 + (ts.map fun t => t.load + 1).sum := by
  cases ts with
  | nil =>
      cases h
      obtain ⟨hcall, hle⟩ := caller.callEffort_returned cfg
      exact ⟨hcall, caller.queue_of_count u true, hle.trans (by simp)⟩
  | cons t ts =>
      cases h
      exact ⟨trivial, rfl, le_rfl⟩

/-- The flush job of a delete. -/
theorem load_deleteJob (cfg : AcceptedConfig T) (sh : CacheShard α V T) (key : Key α) (o : ℕ) :
    (⟨sh.deleteJob cfg.toCacheConfig key, o⟩ : Ticket α V).load + 1 = keyWeight cfg := rfl

/-- **The first section of a call lowers its effort.** -/
theorem callEffort_running {op : Op α V T} {caller : Caller α V T} (hs : ∀ i, ShardOk cfg hash i (s.shards i))
    (h : clientStep hash s c (.running op caller) = some (s', th')) :
    th'.Callable ∧ s'.queue.load cfg + th'.callEffort cfg < s.queue.load cfg + op.effort cfg := by
  cases op with
  | put key value ttl =>
      by_cases hraise : cfg.writeMode = .writeThrough ∧ c.ok key = false
      · simp only [clientStep] at h
        rw [putSection_of_raised hash s key value ttl hraise] at h
        cases h
        obtain ⟨hcall, hle⟩ := caller.callEffort_raised cfg .sourceFailure
        rw [caller.queue_of_count]
        refine ⟨hcall, ?_⟩
        show s.queue.load cfg + _ < s.queue.load cfg + putLoad cfg
        unfold putLoad
        omega
      · obtain ⟨hret, gone, hdone⟩ := putSection_of_returned hs key value ttl hraise
        simp only [clientStep, hret, Bool.false_eq_true, if_false] at h
        have hjobs := sum_load_putJobs cfg (s.home hash key) key value s.now s.log.length
        rw [← hdone.tickets_eq] at hjobs
        obtain ⟨hcall, hqueue, hle⟩ := callEffort_enqueueOr (Option.some.inj h)
        rw [hqueue, hdone.queue_eq]
        refine ⟨hcall, ?_⟩
        show s.queue.load cfg + _ < s.queue.load cfg + putLoad cfg
        unfold putLoad
        omega
  | delete key =>
      by_cases hraise : cfg.writeMode = .writeThrough ∧ c.ok key = false
      · simp only [clientStep] at h
        rw [deleteSection_of_raised hash s key hraise] at h
        cases h
        refine ⟨trivial, ?_⟩
        show s.queue.load cfg + 0 < s.queue.load cfg + putLoad cfg
        unfold putLoad
        omega
      · obtain ⟨hret, hdone⟩ := deleteSection_of_returned hash s key hraise
        simp only [clientStep, hret, Bool.false_eq_true, if_false] at h
        have hjobs : ((s.deleteSection hash key (c.ok key)).2.1.map fun t => t.load + 1).sum ≤ keyWeight cfg := by
          rw [hdone.tickets_eq]
          split_ifs
          · simp [ticketsFrom, load_deleteJob]
          · exact Nat.zero_le _
        obtain ⟨hcall, hqueue, hle⟩ := callEffort_enqueueOr (Option.some.inj h)
        rw [hqueue, hdone.queue_eq]
        refine ⟨hcall, ?_⟩
        show s.queue.load cfg + _ < s.queue.load cfg + putLoad cfg
        unfold keyWeight at hjobs
        unfold putLoad
        omega
  | preload key ttl =>
      cases h
      refine ⟨trivial, ?_⟩
      show (s.queue.putNowait cfg.queueSize _).load cfg + 0 < s.queue.load cfg + (putLoad cfg + 4)
      unfold CacheJobQueue.putNowait
      split_ifs
      · show s.queue.load cfg + 0 < _
        omega
      · rw [CacheJobQueue.load_push]
        show s.queue.load cfg + (putLoad cfg + 3) + 0 < _
        omega
  | requestSnapshot id =>
      cases h
      refine ⟨trivial, ?_⟩
      show (s.queue.putNowait cfg.queueSize _).load cfg + 0 < s.queue.load cfg + 4
      unfold CacheJobQueue.putNowait
      split_ifs
      · show s.queue.load cfg + 0 < _
        omega
      · rw [CacheJobQueue.load_push]
        show s.queue.load cfg + 3 + 0 < _
        omega
  | getOrCompute key ttl =>
      simp only [clientStep] at h
      split at h <;> cases h
      · refine ⟨trivial, ?_⟩
        show s.queue.load cfg + 0 < s.queue.load cfg + (putLoad cfg + 4)
        omega
      · refine ⟨trivial, ?_⟩
        show s.queue.load cfg + 1 < s.queue.load cfg + (putLoad cfg + 4)
        omega
      · refine ⟨trivial, ?_⟩
        show s.queue.load cfg + (putLoad cfg + 3) < s.queue.load cfg + (putLoad cfg + 4)
        omega
  | close flush => cases h
  | clear =>
      cases h
      refine ⟨trivial, ?_⟩
      show s.queue.load cfg + (cfg.shardCount - 0 + 4 + 0) < s.queue.load cfg + (cfg.shardCount + 5)
      omega
  | size =>
      cases h
      exact ⟨trivial, Nat.lt_succ_self _⟩
  | dump limit =>
      cases h
      exact ⟨trivial, Nat.lt_succ_self _⟩
  | expireAll =>
      cases h
      exact ⟨trivial, Nat.lt_succ_self _⟩
  | _ =>
      cases h
      exact ⟨trivial, Nat.lt_succ_self _⟩

/-- **A step of a call lowers its effort**; the sections of `clear` come below. -/
theorem callEffort_step (hs : ∀ i, ShardOk cfg hash i (s.shards i)) (hrole : th.role ≠ .closer)
    (hclear : ∀ i ts, th = .clearing i ts → cfg.shardCount ≤ i) (h : clientStep hash s c th = some (s', th')) :
    th'.Callable ∧ s'.queue.load cfg + th'.callEffort cfg < s.queue.load cfg + th.callEffort cfg := by
  cases th with
  | entering op caller =>
      have hpos : 0 < op.effort cfg := by
        cases op <;> simp [Op.effort, putLoad]
      rcases entering_cases h with ⟨rfl, ⟨exn, rfl⟩, -⟩ | ⟨rfl, rfl, -, -, -, hop⟩ | ⟨rfl, rfl, -⟩ |
        ⟨-, -, -, flush, rfl, -⟩
      · obtain ⟨hcall, hle⟩ := caller.callEffort_raised cfg exn
        rw [caller.queue_of_count]
        refine ⟨hcall, ?_⟩
        show _ < _ + (op.effort cfg + 1)
        omega
      · exact ⟨hop, Nat.lt_succ_self _⟩
      · refine ⟨trivial, ?_⟩
        show s'.queue.load cfg + 0 < _ + (op.effort cfg + 1)
        omega
      · exact absurd rfl hrole
  | running op caller => exact callEffort_running hs h
  | clearing i ts =>
      have hi := hclear i ts rfl
      simp only [clientStep, dif_neg (not_lt.mpr hi)] at h
      obtain ⟨hcall, hqueue, hle⟩ := callEffort_enqueueOr (Option.some.inj h)
      rw [hqueue]
      refine ⟨hcall, ?_⟩
      show _ < s.queue.load cfg + (cfg.shardCount - i + 4 + (ts.map fun t => t.load + 1).sum)
      omega
  | sizing i total =>
      simp only [clientStep] at h
      split_ifs at h with hi <;> cases h
      · refine ⟨trivial, ?_⟩
        show s.queue.load cfg + (cfg.shardCount - (i + 1) + 1) < s.queue.load cfg + (cfg.shardCount - i + 1)
        omega
      · exact ⟨trivial, Nat.lt_add_of_pos_right (Nat.succ_pos _)⟩
  | dumping i taken limit =>
      simp only [clientStep] at h
      split_ifs at h with hi <;> cases h
      · refine ⟨trivial, ?_⟩
        show s.queue.load cfg + (cfg.shardCount - (i + 1) + 1) < s.queue.load cfg + (cfg.shardCount - i + 1)
        omega
      · exact ⟨trivial, Nat.lt_add_of_pos_right (Nat.succ_pos _)⟩
  | expiring i removed =>
      simp only [clientStep] at h
      split_ifs at h with hi <;> cases h
      · refine ⟨trivial, ?_⟩
        show s.queue.load cfg + (cfg.shardCount - (i + 1) + 1) < s.queue.load cfg + (cfg.shardCount - i + 1)
        omega
      · exact ⟨trivial, Nat.lt_add_of_pos_right (Nat.succ_pos _)⟩
  | enqueuing ts caller =>
      cases ts with
      | nil =>
          cases h
          obtain ⟨hcall, hle⟩ := caller.callEffort_returned cfg
          rw [caller.queue_of_count]
          refine ⟨hcall, ?_⟩
          show s.queue.load cfg + _ < s.queue.load cfg + (3 + 0)
          omega
      | cons t ts =>
          have heffort : (Thread.enqueuing (t :: ts) caller : Thread α V T).callEffort cfg =
              3 + (t.load + 1 + (ts.map fun t => t.load + 1).sum) := by
            simp [Thread.callEffort]
          rw [heffort]
          simp only [clientStep] at h
          split_ifs at h
          · cases h
            obtain ⟨hcall, hle⟩ := caller.callEffort_raised cfg .valueError
            rw [caller.queue_of_count, s.load_lose]
            refine ⟨hcall, ?_⟩
            omega
          · cases h
            have hlength : ts.length ≤ (ts.map fun t => t.load + 1).sum := by simp
            have hsix := t.six_le_load
            refine ⟨trivial, ?_⟩
            show s.queue.load cfg + (2 + (ts.length + 1)) < _
            omega
          · obtain ⟨hcall, hqueue, hle⟩ := callEffort_enqueueOr (Option.some.inj h)
            have hpush : (s.queue.push (.flushWriteBack t)).load cfg = s.queue.load cfg + t.load :=
              CacheJobQueue.load_push _ _
            rw [hqueue]
            refine ⟨hcall, ?_⟩
            show (s.queue.push (.flushWriteBack t)).load cfg + _ < _
            rw [hpush]
            omega
  | releasing ts caller =>
      cases ts with
      | nil =>
          cases h
          obtain ⟨hcall, hle⟩ := caller.callEffort_raised cfg .queueBackpressure
          rw [caller.queue_of_count]
          refine ⟨hcall, ?_⟩
          show s.queue.load cfg + _ < s.queue.load cfg + (2 + 0)
          omega
      | cons t ts =>
          obtain ⟨s₁, hs₁, heq⟩ := Option.map_eq_some_iff.mp h
          cases heq
          rw [queue_onShard hs₁]
          exact ⟨trivial, Nat.lt_succ_self _⟩
  | leading key ttl flight =>
      cases h
      exact ⟨trivial, Nat.lt_succ_self _⟩
  | loading key ttl flight =>
      simp only [clientStep] at h
      split at h <;> cases h
      · refine ⟨trivial, ?_⟩
        show s.queue.load cfg + 1 < s.queue.load cfg + (putLoad cfg + 2)
        omega
      · exact ⟨trivial, Nat.lt_succ_self _⟩
  | publishing key flight value =>
      cases h
      exact ⟨trivial, Nat.lt_succ_self _⟩
  | failing key flight exn =>
      cases h
      exact ⟨trivial, Nat.lt_succ_self _⟩
  | waiting flight =>
      simp only [clientStep] at h
      split at h
      · cases h
      · split_ifs at h
        cases h
        exact ⟨trivial, Nat.lt_succ_self _⟩
  | _ => cases h

/-- A `clear` removes the keys that it processes. -/
theorem ClearDone.residents_le {i : Fin cfg.shardCount} {ok : Key α → Bool} {done rest : List (Key α)}
    {ts : List (Ticket α V)} {raised : Bool} (h : ClearDone hash s i ok done rest s' ts raised)
    (hs' : ∀ i, ShardOk cfg hash i (s'.shards i)) : s'.residents + done.length ≤ s.residents := by
  have hmem : ∀ j, ∀ k ∈ (s'.shards j).backend.keys, k ∈ (s.shards j).backend.keys ∧ k ∉ done := by
    intro j k hk
    obtain ⟨e, he⟩ := InMemoryBackend.mem_keys_iff.mp hk
    obtain rfl : shardFor cfg hash k = j := (hs' j).shardFor_eq he
    have hentry := h.entries k
    rw [show (s'.home hash k).backend.getEntry k = some e from he] at hentry
    split_ifs at hentry with hd
    exact ⟨InMemoryBackend.mem_keys_iff.mpr ⟨e, hentry.symm⟩, hd⟩
  have hone : ∀ j, (s'.shards j).backend.size + (if j = i then done.length else 0) ≤ (s.shards j).backend.size := by
    intro j
    rw [InMemoryBackend.size_eq_length_keys, InMemoryBackend.size_eq_length_keys]
    have hnodup := (s'.shards j).backend.entries.keys_nodup
    split_ifs with hj
    · subst hj
      have hrest : (s'.shards j).backend.keys ⊆ rest := by
        intro k hk
        obtain ⟨hold, hd⟩ := hmem j k hk
        rw [h.keys_eq, List.mem_append] at hold
        exact hold.resolve_left hd
      have hle := (List.subperm_of_subset hnodup hrest).length_le
      rw [h.keys_eq, List.length_append]
      exact (Nat.add_le_add_right hle _).trans (Nat.add_comm _ _).le
    · exact (List.subperm_of_subset hnodup fun k hk => (hmem j k hk).1).length_le
  calc s'.residents + done.length
      = ∑ j, ((s'.shards j).backend.size + if j = i then done.length else 0) := by
        rw [Finset.sum_add_distrib, Finset.sum_ite_eq' Finset.univ, if_pos (Finset.mem_univ _)]
        rfl
    _ ≤ s.residents := Finset.sum_le_sum fun j _ => hone j

/-- The flush jobs of a `clear` weigh as much as the keys that it removes. -/
theorem clear_weights (hs : ∀ i, ShardOk cfg hash i (s.shards i)) (i : Fin cfg.shardCount) (ok : Key α → Bool)
    (hs' : ∀ j, ShardOk cfg hash j ((s.clearSection i ok).1.shards j)) :
    ((s.clearSection i ok).2.1.map fun t => t.load + 1).sum + keyWeight cfg * (s.clearSection i ok).1.residents ≤
      keyWeight cfg * s.residents := by
  obtain ⟨done, rest, hdone⟩ := clearSection_spec hs i ok
  have hjobs : ((s.clearSection i ok).2.1.map fun t => t.load + 1).sum ≤ keyWeight cfg * done.length := by
    rw [hdone.tickets_eq]
    split_ifs
    · have hall : ∀ n ∈ (ticketsFrom s.log.length (done.map ((s.shards i).deleteJob cfg.toCacheConfig))).map
          (fun t => t.load + 1), n = keyWeight cfg := by
        intro n hn
        obtain ⟨t, ht, rfl⟩ := List.mem_map.mp hn
        obtain ⟨key, -, hjob⟩ := List.mem_map.mp (mem_ticketsFrom ht)
        unfold Ticket.load
        rw [← hjob]
        rfl
      rw [List.eq_replicate_of_mem hall, List.sum_replicate, smul_eq_mul, mul_comm]
      simp [ticketsFrom]
    · exact Nat.zero_le _
  have hkeys := hdone.residents_le hs'
  calc ((s.clearSection i ok).2.1.map fun t => t.load + 1).sum + keyWeight cfg * (s.clearSection i ok).1.residents
      ≤ keyWeight cfg * done.length + keyWeight cfg * (s.clearSection i ok).1.residents := Nat.add_le_add_right hjobs _
    _ = keyWeight cfg * ((s.clearSection i ok).1.residents + done.length) := by ring
    _ ≤ keyWeight cfg * s.residents := Nat.mul_le_mul_left _ hkeys

/-- A section of `clear` lowers the effort of the call and of the keys together. -/
theorem callEffort_clearing (hs : ∀ i, ShardOk cfg hash i (s.shards i))
    (hs' : ∀ i, ShardOk cfg hash i (s'.shards i)) {i : ℕ} {ts : List (Ticket α V)} (hi : i < cfg.shardCount)
    (h : clientStep hash s c (.clearing i ts) = some (s', th')) :
    th'.Callable ∧ th'.puts = 0 ∧ s'.queue = s.queue ∧
      s'.queue.load cfg + th'.callEffort cfg + keyWeight cfg * s'.residents <
        s.queue.load cfg + (Thread.clearing i ts : Thread α V T).callEffort cfg + keyWeight cfg * s.residents := by
  obtain ⟨done, rest, hdone⟩ := clearSection_spec hs ⟨i, hi⟩ c.ok
  simp only [clientStep, dif_pos hi] at h
  split_ifs at h <;> cases h <;> have hweights := clear_weights hs ⟨i, hi⟩ c.ok hs'
  · refine ⟨trivial, rfl, hdone.queue_eq, ?_⟩
    rw [hdone.queue_eq]
    show s.queue.load cfg + 0 + _ < s.queue.load cfg + (cfg.shardCount - i + 4 + _) + _
    omega
  · refine ⟨trivial, rfl, hdone.queue_eq, ?_⟩
    rw [hdone.queue_eq]
    show s.queue.load cfg + (cfg.shardCount - (i + 1) + 4 + ((ts ++ _).map fun t => t.load + 1).sum) + _ <
      s.queue.load cfg + (cfg.shardCount - i + 4 + (ts.map fun t => t.load + 1).sum) + _
    rw [List.map_append, List.sum_append]
    omega

/-- The loop of a worker. -/
theorem role_of_workerStep (h : workerStep s c th = some (s', th')) : th.role = .worker := by
  cases th <;> first | rfl | cases h

/-- **Every step lowers the effort** of its thread, of the queue and of the keys together. -/
theorem effort_threadStep (h : threadStep hash s c th = some (s', th')) (hs : ∀ i, ShardOk cfg hash i (s.shards i))
    (hs' : ∀ i, ShardOk cfg hash i (s'.shards i)) (hrun : s.Runs) (hth : th.Runs cfg) (hfit : th.Fit)
    (hopen : s'.lifecycle ≠ .closed) (hrole : th.role ≠ .closer) (hrole' : th'.role = th.role) :
    s'.queue.load cfg + th'.effort cfg + keyWeight cfg * (s'.residents + s'.queue.puts + th'.puts) <
        s.queue.load cfg + th.effort cfg + keyWeight cfg * (s.residents + s.queue.puts + th.puts) := by
  have hputs := Nat.mul_le_mul_left (keyWeight cfg) (puts_step h hs hs' hopen)
  unfold Thread.effort
  rw [hrole']
  by_cases hworker : th.role = .worker
  · rw [if_pos hworker, if_pos hworker]
    have hload := load_threadStep hs hrun hth hfit hworker h
    omega
  · have hclient : th.role = .client := by
      cases hr : th.role with
      | client => rfl
      | worker => exact absurd hr hworker
      | closer => exact absurd hr hrole
    have hstep : clientStep hash s c th = some (s', th') := by
      rcases threadStep_cases h with h | h | h
      · exact h
      · exact absurd (role_of_workerStep h) hworker
      · exact absurd (role_of_closeStep h) hrole
    rw [if_neg hworker, if_neg hworker]
    by_cases hclear : ∃ i ts, th = .clearing i ts ∧ i < cfg.shardCount
    · obtain ⟨i, ts, rfl, hi⟩ := hclear
      obtain ⟨-, hnone, hqueue, heffort⟩ := callEffort_clearing hs hs' hi hstep
      rw [hqueue, hnone] at *
      have hzero : (Thread.clearing i ts : Thread α V T).puts = 0 := rfl
      rw [hzero, Nat.add_zero, Nat.add_zero, Nat.mul_add, Nat.mul_add]
      omega
    · have hno : ∀ i ts, th = .clearing i ts → cfg.shardCount ≤ i := by
        intro i ts hth
        by_contra hi
        exact hclear ⟨i, ts, hth, not_le.mp hi⟩
      obtain ⟨-, heffort⟩ := callEffort_step hs hrole hno hstep
      omega

end Steps

/-! ### Calls that are in progress -/

section Steps

variable {s s' : Shared α V cfg} {c : Choice α V} {th th' : Thread α V T}

/-- A worker does not get behind the checks of `close`. -/
theorem callable_workerStep (h : workerStep s c th = some (s', th')) : th'.Callable := by
  cases th with
  | idle =>
      simp only [workerStep] at h
      split at h
      · cases h
        trivial
      · split_ifs at h
        cases h
        trivial
  | handling job =>
      cases job with
      | stopWorker => cases h; trivial
      | expireShard i =>
          obtain ⟨s₁, -, heq⟩ := Option.map_eq_some_iff.mp h
          cases heq
          trivial
      | snapshotStats id => cases h; trivial
      | preloadKey i key ttl =>
          simp only [workerStep] at h
          split at h <;> cases h <;> trivial
      | flushWriteBack t =>
          simp only [workerStep] at h
          split_ifs at h <;> cases h <;> trivial
  | checked t =>
      simp only [workerStep] at h
      split_ifs at h <;> cases h <;> trivial
  | failed t =>
      simp only [workerStep] at h
      split_ifs at h <;> cases h <;> trivial
  | dropped t =>
      obtain ⟨s₁, -, heq⟩ := Option.map_eq_some_iff.mp h
      cases heq
      trivial
  | landed t =>
      obtain ⟨s₁, -, heq⟩ := Option.map_eq_some_iff.mp h
      cases heq
      trivial
  | finishing => cases h; trivial
  | _ => cases h

/-- No step of a call or of a worker gets behind the checks of `close`. -/
theorem callable_threadStep (h : threadStep hash s c th = some (s', th')) (hs : ∀ i, ShardOk cfg hash i (s.shards i))
    (hs' : ∀ i, ShardOk cfg hash i (s'.shards i)) (hrole : th.role ≠ .closer) : th'.Callable := by
  rcases threadStep_cases h with hstep | hstep | hstep
  · by_cases hclear : ∃ i ts, th = .clearing i ts ∧ i < cfg.shardCount
    · obtain ⟨i, ts, rfl, hi⟩ := hclear
      exact (callEffort_clearing hs hs' hi hstep).1
    · refine (callEffort_step hs hrole ?_ hstep).1
      intro i ts hth
      by_contra hi
      exact hclear ⟨i, ts, hth, not_le.mp hi⟩
  · exact callable_workerStep hstep
  · exact absurd (role_of_closeStep hstep) hrole

end Steps

/-- **The cache is open, and every thread is a call or a worker.** -/
structure Serving (hash : Key α → ℕ) (s : System α V cfg) : Prop where
  opened : Opened hash s
  flights : FlightsOk hash s
  callable : ∀ th ∈ s.threads, th.Callable

/-- A fresh cache serves. -/
theorem serving_initial (cfg : AcceptedConfig T) (hash : Key α → ℕ) (now : T) (src : Source α V) :
    Serving hash (initial cfg now src) where
  opened := opened_initial cfg hash now src
  flights := flightsOk_initial cfg hash now src
  callable th hth := by cases hth

section Serving

variable {s s' : System α V cfg} {l : Label α V T}

/-- **A cache that serves goes on serving** until `close` is called. -/
theorem Serving.step (h : Serving hash s) (hl : l.closes = false) (hs : CacheLab.step cfg hash s l = some s') :
    Serving hash s' := by
  have hopened := h.opened.step hl hs
  refine ⟨hopened, h.flights.step hs, ?_⟩
  intro th hth
  rcases step_moves hs with ⟨-, -, -, n, hthreads⟩ | ⟨op, -, -, -, hthreads⟩ |
    ⟨i, c, old, th', -, -, hi, hstep, hthreads⟩
  · rw [hthreads] at hth
    rcases List.mem_append.mp hth with hold | hnew
    · exact h.callable th hold
    · rw [List.eq_of_mem_replicate hnew]
      trivial
  · rw [hthreads] at hth
    rcases List.mem_append.mp hth with hold | hnew
    · exact h.callable th hold
    · rw [List.mem_singleton.mp hnew]
      trivial
  · rw [hthreads] at hth
    rcases List.mem_or_eq_of_mem_set hth with hold | rfl
    · exact h.callable th hold
    · exact callable_threadStep hstep h.opened.base.shards hopened.base.shards
        (h.opened.roles old (List.mem_of_getElem? hi))

/-- A step in which time passes or a thread moves: nobody calls anything, and the scheduler is silent. -/
def Label.continues : Label α V T → Bool
  | .tick _ => true
  | .run _ _ => true
  | _ => false

/-- Such a step calls no `close`. -/
theorem Label.closes_of_continues (h : l.continues = true) : l.closes = false := by
  cases l <;> first | rfl | cases h

/-- **The rank**: threads that move lower the effort. -/
theorem Serving.effort_step (h : Serving hash s) (hl : l.continues = true)
    (hs : CacheLab.step cfg hash s l = some s') :
    Serving hash s' ∧ (if l.moves then 1 else 0) + s'.effort ≤ s.effort := by
  have hserving := h.step (Label.closes_of_continues hl) hs
  refine ⟨hserving, ?_⟩
  cases l with
  | tick now =>
      simp only [CacheLab.step] at hs
      split_ifs at hs
      cases hs
      simp [Label.moves, System.effort, System.keysWeight, Shared.residents]
  | run i c =>
      simp only [CacheLab.step, Option.bind_eq_some_iff, Option.map_eq_some_iff] at hs
      obtain ⟨th, hi, ⟨sh, th'⟩, hr, rfl⟩ := hs
      have hmem := List.mem_of_getElem? hi
      obtain ⟨-, -, hrole, hlife⟩ := h.opened.set hi hr
      have hopen : sh.lifecycle ≠ .closed := by
        intro hclosed
        rw [hlife] at hclosed
        rcases h.opened.life with hcreated | hstarted
        · rw [hcreated] at hclosed
          cases hclosed
        · rw [hstarted] at hclosed
          cases hclosed
      have heffort := effort_threadStep hr h.opened.base.shards hserving.opened.base.shards h.opened.runs
        (h.opened.going th hmem) (h.opened.base.threads th hmem).1 hopen (h.opened.roles th hmem) hrole
      obtain ⟨rest, hsum, hsum'⟩ := Transition.sum_map_set (Thread.effort cfg) hi
      obtain ⟨puts, hputs, hputs'⟩ := Transition.sum_map_set (Thread.puts) hi
      simp only [Label.moves, if_true, System.effort, System.keysWeight, hsum, hsum' th', hputs, hputs' th']
      rw [← Nat.add_assoc _ _ puts, ← Nat.add_assoc _ _ puts, Nat.mul_add _ _ puts, Nat.mul_add _ _ puts]
      omega
  | _ => cases hl

/-! ### Progress -/

/-- The points of a call that waits for nothing, or for the end of a `close` only. -/
def Thread.inCall : Thread α V T → Bool
  | .entering _ _ => true
  | .running _ _ => true
  | .clearing _ _ => true
  | .sizing _ _ => true
  | .dumping _ _ _ => true
  | .expiring _ _ => true
  | .enqueuing _ _ => true
  | .releasing _ _ => true
  | .leading _ _ _ => true
  | .loading _ _ _ => true
  | .publishing _ _ _ => true
  | .failing _ _ _ => true
  | _ => false

/-- A call that is not over and does not wait for a flight. -/
theorem Thread.inCall_of_client {th : Thread α V T} (hrole : th.role = .client) (hwait : th.awaits = none)
    (hover : ∀ r, th ≠ .finished r) : th.inCall = true := by
  cases th with
  | waiting flight => cases hwait
  | finished r => exact absurd rfl (hover r)
  | _ => first | rfl | cases hrole

/-- **Such a call can move**, whatever the source and the loaders do, while no `close` is on its way. -/
theorem isSome_clientStep {s : Shared α V cfg} {th : Thread α V T} (hin : th.inCall = true) (hcall : th.Callable)
    (hlife : s.lifecycle ≠ .closing) (hshards : ∀ t ∈ th.flushes.map Prod.snd, t.job.shardIndex < cfg.shardCount)
    (c : Choice α V) : (clientStep hash s c th).isSome = true := by
  cases th with
  | entering op caller =>
      have hlook : s.lifecycle = .created ∨ s.lifecycle = .started ∨ s.lifecycle = .closed ∨
          s.lifecycle = .abandoned := by
        cases hl : s.lifecycle with
        | closing => exact absurd hl hlife
        | _ => simp
      cases op with
      | close flush =>
          simp only [clientStep]
          rcases hlook with hl | hl | hl | hl <;> rw [hl] <;> rfl
      | _ =>
          simp only [clientStep]
          rcases hlook with hl | hl | hl | hl <;> rw [hl] <;> first | rfl | (simp only; split <;> rfl)
  | running op caller =>
      cases op with
      | close flush => exact absurd rfl (hcall flush)
      | put key value ttl =>
          simp only [clientStep]
          split_ifs <;> rfl
      | delete key =>
          simp only [clientStep]
          split_ifs <;> rfl
      | getOrCompute key ttl =>
          simp only [clientStep]
          split <;> rfl
      | _ => rfl
  | clearing i ts =>
      simp only [clientStep]
      split_ifs <;> rfl
  | sizing i total =>
      simp only [clientStep]
      split_ifs <;> rfl
  | dumping i taken limit =>
      simp only [clientStep]
      split_ifs <;> rfl
  | expiring i removed =>
      simp only [clientStep]
      split_ifs <;> rfl
  | enqueuing ts caller =>
      cases ts with
      | nil => rfl
      | cons t ts =>
          simp only [clientStep]
          split_ifs <;> rfl
  | releasing ts caller =>
      cases ts with
      | nil => rfl
      | cons t ts =>
          rw [clientStep, Option.isSome_map]
          exact s.isSome_onShard (hshards t (by simp [Thread.flushes, staged])) _
  | leading key ttl flight => rfl
  | loading key ttl flight =>
      simp only [clientStep]
      split <;> rfl
  | publishing key flight value => rfl
  | failing key flight exn => rfl
  | _ => cases hin

/-- The jobs of a thread belong to shards that exist. -/
theorem Base.shardIndex_lt {th : Thread α V T} (h : Base hash s) (hmem : th ∈ s.threads) :
    ∀ t ∈ th.flushes.map Prod.snd, t.job.shardIndex < cfg.shardCount := by
  intro t ht
  rw [h.tickets t (System.mem_tickets.mpr (.inr ⟨th, hmem, ht⟩))]
  exact (shardFor cfg hash t.job.key).isLt

/-- See `isSome_clientStep`. -/
theorem Serving.isSome_clientStep (h : Serving hash s) {th : Thread α V T} (hmem : th ∈ s.threads)
    (hin : th.inCall = true) (c : Choice α V) : (clientStep hash s.shared c th).isSome = true := by
  refine CacheLab.isSome_clientStep hin (h.callable th hmem) ?_ (h.opened.base.shardIndex_lt hmem) c
  intro hclosing
  rcases h.opened.life with hlife | hlife <;> cases hlife.symm.trans hclosing

/-- Some thread can move, whatever the source and the loaders do. -/
def System.Moves (hash : Key α → ℕ) (s : System α V cfg) : Prop :=
  ∃ i, ∀ c, (CacheLab.step cfg hash s (.run i c)).isSome = true

/-- A thread that can move. -/
theorem System.Moves.of_thread {th : Thread α V T} (hmem : th ∈ s.threads)
    (hsome : ∀ c, (threadStep hash s.shared c th).isSome = true) : s.Moves hash := by
  obtain ⟨i, hi⟩ := List.mem_iff_getElem?.mp hmem
  refine ⟨i, ?_⟩
  intro c
  simp [CacheLab.step, hi, hsome c]

/-- A call that can move. -/
theorem System.Moves.of_client {th : Thread α V T} (hmem : th ∈ s.threads)
    (hsome : ∀ c, (clientStep hash s.shared c th).isSome = true) : s.Moves hash := by
  refine .of_thread hmem ?_
  intro c
  unfold threadStep
  simp [hsome c]

/-- The leader of a flight is in a call that is not over. -/
theorem Thread.inCall_of_flight {th : Thread α V T} {k : Key α} {f : ℕ} (h : th.flight = some (k, f)) :
    th.inCall = true := by
  cases th <;> first | rfl | cases h

/-- **Nobody waits for nothing**: the flight landed and the waiter can move, or its leader is in a call. -/
theorem FlightsOk.landed_or_led (h : FlightsOk hash s) {f : ℕ} (hmem : .waiting f ∈ s.threads) :
    (∀ c, (clientStep hash s.shared c (.waiting f)).isSome = true) ∨ ∃ th ∈ s.threads, th.inCall = true := by
  have hlt := h.awaited _ hmem f rfl
  have hget : s.shared.flights[f]? = some s.shared.flights[f] := List.getElem?_eq_getElem hlt
  have hlanded : s.shared.flights[f].event = true →
      ∀ c, (clientStep hash s.shared c (.waiting f)).isSome = true := by
    intro hevent c
    simp only [clientStep, hget, hevent, if_true]
    rfl
  rcases h.written f _ hget with hnew | ⟨v, hresult⟩ | ⟨exn, hexn⟩
  · rw [hnew] at hget
    obtain ⟨j, k, hlead⟩ := h.led f hget
    obtain ⟨th, hj, hflight⟩ := Option.bind_eq_some_iff.mp hlead
    exact .inr ⟨th, List.mem_of_getElem? hj, Thread.inCall_of_flight hflight⟩
  · refine .inl (hlanded ?_)
    rw [hresult]
    rfl
  · refine .inl (hlanded ?_)
    rw [hexn]
    rfl

/-- **Whoever waits for a flight does not keep the cache from moving.** -/
theorem Serving.moves_of_waiting (h : Serving hash s) {f : ℕ} (hmem : .waiting f ∈ s.threads) : s.Moves hash := by
  rcases h.flights.landed_or_led hmem with hlanded | ⟨th, hleader, hin⟩
  · exact .of_client hmem hlanded
  · exact .of_client hleader (h.isSome_clientStep hleader hin)

/-- **All calls returned**, no worker is busy, and where there are workers the queue is drained. -/
structure AllReturned (s : System α V cfg) : Prop where
  calls : ∀ th ∈ s.threads, th.role = .client → ∃ r, th = .finished r
  idle : ∀ th ∈ s.threads, th.busy = 0
  drained : s.shared.lifecycle = .started → 0 < cfg.workerCount → Drained s

/-- **Progress**: until all calls returned, some thread can move, whatever the source and the loaders do. -/
theorem Serving.moves (h : Serving hash s) : AllReturned s ∨ s.Moves hash := by
  by_cases hcalls : ∀ th ∈ s.threads, th.role = .client → ∃ r, th = .finished r
  · by_cases hbusy : ∃ th ∈ s.threads, th.busy ≠ 0
    · obtain ⟨th, hmem, hne⟩ := hbusy
      exact .inr (.of_thread hmem (h.opened.isSome_threadStep hmem hne))
    · have hidle : ∀ th ∈ s.threads, th.busy = 0 := by
        intro th hmem
        by_contra hne
        exact hbusy ⟨th, hmem, hne⟩
      by_cases hstaff : s.shared.lifecycle = .started ∧ 0 < cfg.workerCount
      · rcases h.opened.exists_worker_step hstaff.1 hstaff.2 with hdrained | ⟨i, hi⟩
        · exact .inl ⟨hcalls, hidle, fun _ _ => hdrained⟩
        · exact .inr ⟨i, fun c => (hi c).2⟩
      · exact .inl ⟨hcalls, hidle, fun hstarted hpos => absurd ⟨hstarted, hpos⟩ hstaff⟩
  · push Not at hcalls
    obtain ⟨th, hmem, hrole, hover⟩ := hcalls
    cases hwait : th.awaits with
    | none =>
        have hin := Thread.inCall_of_client hrole hwait hover
        exact .inr (.of_client hmem (h.isSome_clientStep hmem hin))
    | some f =>
        obtain rfl : th = .waiting f := by
          cases th with
          | waiting g =>
              cases hwait
              rfl
          | _ => cases hwait
        exact .inr (h.moves_of_waiting hmem)

end Serving

/-! ### The theorem -/

section Run

variable {now : T} {src : Source α V} {s : System α V cfg} {ls : List (Label α V T)}

/-- A cache that was not closed serves. -/
theorem serving_exec (h : exec cfg hash (initial cfg now src) ls = some s) (hls : ∀ l ∈ ls, l.closes = false) :
    Serving hash s := by
  have hstep : ∀ (s : System α V cfg) l s', l.closes = false → step cfg hash s l = some s' → Serving hash s →
      Serving hash s' := fun _ _ _ hl hs hserving => hserving.step hl hs
  exact Transition.run_invariant hstep h (Transition.along_of_forall (fun l hl _ => hls l hl) _)
    (serving_initial cfg hash now src)

/-- **Every call returns.** `close` was not called; from `s` on nobody calls anything and the scheduler is silent,
while clients, leaders of flights and workers move in any order and the clock goes on. Whatever the source does, and
whatever the loaders return or raise, the threads take at most `s.effort` steps, and until all calls returned and the
workers have nothing to do some thread can move; so every long enough run gets there, and there is one that does. -/
theorem every_call_returns (h : exec cfg hash (initial cfg now src) ls = some s)
    (hls : ∀ l ∈ ls, l.closes = false) :
    (∀ ms s', exec cfg hash s ms = some s' → (∀ l ∈ ms, l.continues = true) →
      ms.countP Label.moves + s'.effort ≤ s.effort ∧ (AllReturned s' ∨ s'.Moves hash)) ∧
    ∃ ms s', exec cfg hash s ms = some s' ∧
      Transition.Along (step cfg hash) (fun _ l => l.continues = true) s ms ∧ AllReturned s' := by
  have hserving := serving_exec h hls
  have hrank : ∀ (s : System α V cfg) (l : Label α V T) s', l.continues = true → step cfg hash s l = some s' →
      Serving hash s → Serving hash s' ∧ (if l.moves then 1 else 0) + s'.effort ≤ s.effort :=
    fun s l s' hl hs hserving => hserving.effort_step hl hs
  refine ⟨?_, ?_⟩
  · intro ms s' hms hcontinues
    have halong : Transition.Along (step cfg hash) (fun _ l => l.continues = true) s ms :=
      Transition.along_of_forall (fun l hl _ => hcontinues l hl) s
    have hserving' : Serving hash s' :=
      Transition.run_invariant (fun s l s' hl hs hinv => (hrank s l s' hl hs hinv).1) hms halong hserving
    exact ⟨Transition.countP_add_rank_le hrank hms halong hserving, hserving'.moves⟩
  · refine Transition.exists_run_done hrank ?_ hserving
    intro s hserving
    rcases hserving.moves with hdone | ⟨i, hi⟩
    · exact .inl hdone
    · obtain ⟨s', hs'⟩ := Option.isSome_iff_exists.mp (hi {})
      exact .inr ⟨.run i {}, s', rfl, rfl, hs'⟩

end Run

/-- A worker, a leader inside its loader, a caller that waits for the flight, and a `clear`. -/
def leaderWaiterClear : List (Label ℕ ℕ ℕ) :=
  [.start, .call (.getOrCompute (some 1) .unset), .run 1 {}, .run 1 {}, .run 1 {},
    .call (.getOrCompute (some 1) .unset), .run 2 {}, .run 2 {}, .call .clear]

/-- Three calls are in progress, one of them waits; they all return. -/
theorem every_call_returns_leaderWaiterClear :
    ∃ s : System ℕ ℕ (oneEntry .lru .writeBack 1 0 1),
      exec _ (fun _ => 0) (initial _ 0 .empty) leaderWaiterClear = some s ∧
      s.threads = [Thread.idle, .loading (some 1) .unset 0, .waiting 0, .entering .clear (.client .done)] ∧
      s.effort = 40 ∧ ∃ ms s', exec _ (fun _ => 0) s ms = some s' ∧ AllReturned s' := by
  have heval : ((exec (oneEntry .lru .writeBack 1 0 1) (fun _ => 0) (initial _ 0 .empty) leaderWaiterClear).map
      fun s : System ℕ ℕ (oneEntry .lru .writeBack 1 0 1) =>
        decide (s.threads = [Thread.idle, .loading (some 1) .unset 0, .waiting 0, .entering .clear (.client .done)] ∧
          s.effort = 40)) = some true := by
    decide +kernel
  obtain ⟨s, hs, heval⟩ := Option.map_eq_some_iff.mp heval
  obtain ⟨hthreads, heffort⟩ := of_decide_eq_true heval
  obtain ⟨-, ms, s', hms, -, hdone⟩ := every_call_returns hs (by decide)
  exact ⟨s, hs, hthreads, heffort, ms, s', hms, hdone⟩

end CacheLab
