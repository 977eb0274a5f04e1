import CacheLab.Concurrency.LoaderCalls

/-!
# Waiting during shutdown

`close` holds the lifecycle lock while it waits for the workers: in `join_until` for the end of their jobs,
in the join of the pool for the end of their loops. The handler of a `PreloadKey` calls `put`, which takes
the lifecycle lock, and its loader may call the cache, too. A worker that gets there while `close` is on its way
waits for `close`, and `close` for the worker, until the timeout of the join. And a loader that calls
`get_or_compute` may wait for a flight whose leader waits for it, if only for its own.

* `WaitsFor` is the relation between threads (and observers): who wants a lock, a job done, a worker gone,
  a flight landed or the call of its loader done that the other one holds.
* `sparesPreloads` says of a step that it does not bring `close` and the lifecycle checks of a `PreloadKey`
  together: `close` does not get the lifecycle lock while a worker, or a call for the sake of its job, still has such
  a check before it; and while `close` holds the lock, no loader of a `PreloadKey` calls the cache, and none
  returns a value.
* `joinsFlight` says of a step that a call that a loader made joins a flight.
* `no_wait_cycle`: in every run of steps that spare the preloads, and in which no call of a loader joins a flight, the
  relation is acyclic in every state. The locks alone never make a cycle (`Ranked`).
-/

set_option linter.unusedSectionVars false

namespace CacheLab

open WaitFor

variable {α V T : Type} [DecidableEq α] [LinearOrder T] [Zero T] [Add T] [Sub T]

variable {cfg : AcceptedConfig T} {hash : Key α → ℕ}

/-! ### Who waits for whom -/

/-- What a thread can wait for: a lock, the end of a worker's job, the end of a worker, the landing of a
flight, or the end of a call. -/
inductive Resource
  | lock (l : Lock)
  | job (worker : ℕ)
  | exit (worker : ℕ)
  | flight (f : ℕ)
  | call (i : ℕ)

/-- A thread, or an observer. -/
abbrev Party : Type := ℕ ⊕ ℕ

namespace LockSystem

/-- A thread stands at a point and has no lock action left in front of its step. -/
def At (s : LockSystem α V cfg) (i : ℕ) (th : Thread α V T) : Prop :=
  s.sys.threads[i]? = some th ∧ ∃ t, s.locks[i]? = some t ∧ t.todo = []

end LockSystem

namespace LoaderSystem

/-- What a party has that others may wait for. A worker has its job from taking it to `task_done`, and its
exit until it left its loop; a leader has its flight; and a call that a loader made has itself. -/
def Holds (s : LoaderSystem α V cfg) : Party → Resource → Prop
  | .inl i, .lock l => ∃ t, s.locks[i]? = some t ∧ l ∈ t.held
  | .inl i, .job j => i = j ∧ ∃ th, s.sys.threads[i]? = some th ∧ th.busy = 1
  | .inl i, .exit j => i = j ∧ ∃ th, s.sys.threads[i]? = some th ∧ th.role = .worker ∧ th ≠ .stopped
  | .inl i, .flight f => ∃ th key, s.sys.threads[i]? = some th ∧ th.flight = some (key, f)
  | .inl i, .call j => i = j ∧ ∃ x ∈ s.calls, x.call = i
  | .inr k, .lock l => ∃ t, s.observers[k]? = some t ∧ l ∈ t.held
  | .inr _, _ => False

/-- What a party waits for: a lock it is about to take; all jobs in `join_until`; all workers in the join
of the pool; a flight that has not landed; a call of its loader that is not over.
Source: `workers/queue.py` `CacheJobQueue.join_until`, `workers/worker_pool.py` `WorkerPool.stop`,
`core/cache.py` `Cache.get_or_compute` -/
def Wants (s : LoaderSystem α V cfg) : Party → Resource → Prop
  | .inl i, .lock l => ∃ t, s.locks[i]? = some t ∧ t.todo.head? = some (Action.acquire l)
  | .inl i, .job _ =>
      s.At i .closeJoin ∧ s.sys.shared.poolStarted = true ∧ 0 < s.sys.shared.queue.unfinishedTasks
  | .inl i, .exit _ => (∃ failure, s.At i (.closeDrain failure)) ∧ s.sys.shared.poolStarted = true
  | .inl i, .flight f =>
      s.At i (.waiting f) ∧ ∃ flight, s.sys.shared.flights[f]? = some flight ∧ flight.event = false
  | .inl i, .call j => s.isOver j = false ∧ ∃ x ∈ s.calls, x.host = i ∧ x.call = j
  | .inr k, .lock l => ∃ t, s.observers[k]? = some t ∧ t.todo.head? = some (Action.acquire l)
  | .inr _, _ => False

/-- The wait-for relation. -/
def WaitsFor (s : LoaderSystem α V cfg) : Party → Party → Prop := Waits s.Holds s.Wants

end LoaderSystem

/-! ### The condition -/

/-- The thread will look at the lifecycle, or may. -/
def LockSystem.pending (t : LockThread Lock) : Bool :=
  decide (.acquire .lifecycle ∈ t.todo ∨ .visit .lifecycle ∈ t.todo)

/-- A `close` that has something to close holds the lifecycle lock. -/
def LockSystem.shuttingDown (s : LockSystem α V cfg) : Bool :=
  decide (s.sys.shared.lifecycle ≠ .closed) &&
    (s.sys.threads.zip s.locks).any fun p =>
      decide (p.1.role = .closer) && decide (.lifecycle ∈ p.2.held)

namespace LoaderSystem

/-- A worker still has a lifecycle check before it, or a call for the sake of its job has. Of the workers' own points
only the put of a `PreloadKey` has one. -/
def preloading (s : LoaderSystem α V cfg) : Bool :=
  (List.range s.locks.length).any fun i => s.onJob i && s.locks[i]?.any LockSystem.pending

/-- The step does not bring `close` and a lifecycle check for the sake of a `PreloadKey` together: it does not give the
lifecycle lock to a `close` while such a check is ahead; and while `close` holds the lock, it is neither a call that a
`PreloadKey`'s loader makes, nor a loader's return with a value for the sake of a `PreloadKey`. -/
def sparesPreloads (s : LoaderSystem α V cfg) : LoaderLabel α V T → Bool
  | .nested i _ => !s.onJob i || !s.shuttingDown
  | .lock (.move i c _) =>
      match s.sys.threads[i]?, s.locks[i]?.map LockThread.todo with
      | some (.entering (.close _) _), some (.acquire .lifecycle :: _) =>
          decide (s.sys.shared.lifecycle = .closed) || !s.preloading
      | some th, some [] => !th.loads || c.loaded.isNone || !s.onJob i || !s.shuttingDown
      | _, _ => true
  | _ => true

/-- A call that a loader made joins a flight. -/
def joinsFlight (hash : Key α → ℕ) (s : LoaderSystem α V cfg) : LoaderLabel α V T → Bool
  | .lock (.move i _ _) =>
      match s.sys.threads[i]?, s.locks[i]?.map LockThread.todo with
      | some (.running (.getOrCompute key _) _), some [] =>
          (s.calls.any fun x => x.call == i) &&
            match ((s.sys.shared.shards (shardFor cfg hash key)).getOrComputeLocked key s.sys.shared.now
              s.sys.shared.flights.length).1 with
            | .joins _ => true
            | _ => false
      | _, _ => false
  | _ => false

end LoaderSystem

/-! ### The order, with what is waited for without a lock -/

namespace LoaderSystem

/-- The place of a resource. A call for the sake of a job stands above the jobs, if jobs count, and every call above
those of the loaders around it. -/
def level (s : LoaderSystem α V cfg) (jobs : Bool) : Resource → ℕ ×ₗ ℕ
  | .lock l => toLex (2 * l.level, 0)
  | .job _ => toLex (4, 0)
  | .exit _ => toLex (4, 0)
  | .flight _ => toLex (0, 0)
  | .call j => toLex (if jobs && s.onJob j then 5 else 1, j)

end LoaderSystem

/-- The first place decides. -/
theorem toLex_lt_of_fst {a b m n : ℕ} (h : a < b) : toLex (a, m) < toLex (b, n) :=
  Prod.Lex.toLex_lt_toLex.mpr (.inl h)

/-- At a point without lock actions left the thread holds what the point says. -/
theorem Ranked.mem_holdsAt {s : LockSystem α V cfg} (h : Ranked hash s) {i : ℕ} {th : Thread α V T}
    {t : LockThread Lock} (hat : s.At i th) (ht : s.locks[i]? = some t) {l : Lock} (hl : l ∈ t.held) :
    l ∈ th.holdsAt cfg hash := by
  obtain ⟨hth, t', ht', htodo⟩ := hat
  obtain rfl : t' = t := Option.some.inj (ht'.symm.trans ht)
  exact (h.threads i th t' hth ht).held_eq htodo ▸ hl

/-- A thread at its loader holds no lock. -/
theorem Ranked.held_of_atLoader {s : LockSystem α V cfg} (h : Ranked hash s) {i : ℕ} (hat : s.atLoader i = true)
    {t : LockThread Lock} (ht : s.locks[i]? = some t) (l : Lock) : l ∉ t.held := by
  rw [LockSystem.atLoader, Bool.and_eq_true, Option.any_eq_true, Option.any_eq_true] at hat
  obtain ⟨⟨th, hth, hloads⟩, t', ht', htodo⟩ := hat
  intro hl
  have hmem := h.mem_holdsAt ⟨hth, t', ht', of_decide_eq_true htodo⟩ ht hl
  cases th with
  | loading key ttl flight => simp [Thread.holdsAt, Thread.guard, Thread.base, Thread.shutting] at hmem
  | handling job =>
      cases job with
      | preloadKey i key ttl => simp [Thread.holdsAt, Thread.guard, Thread.base, Thread.shutting] at hmem
      | _ => cases hloads
  | _ => cases hloads

/-- A call for the sake of a job, or a busy worker. -/
theorem LoaderSystem.onJob_of_worker {s : LoaderSystem α V cfg} {i : ℕ} {th : Thread α V T}
    (hth : s.sys.threads[i]? = some th) (hrole : th.role = .worker) : s.onJob i = true := by
  simp [LoaderSystem.onJob, hth, hrole]

/-- What a thread of `close` that waits for the workers has. -/
theorem LoaderSystem.level_lt_of_close {s : LoaderSystem α V cfg} (h : Ranked hash s.toLockSystem) {jobs : Bool}
    {i : ℕ} {th : Thread α V T} (hat : s.At i th) (hshut : th.shutting = true) (hguard : th.guard cfg hash = none)
    (hjob : (jobs && s.onJob i) = false) {r : Resource} (hholds : s.Holds (.inl i) r) :
    s.level jobs r < toLex (4, 0) := by
  have hsame : ∀ x, s.sys.threads[i]? = some x → x = th :=
    fun x hx => Option.some.inj (hx.symm.trans hat.1)
  cases r with
  | lock l =>
      obtain ⟨t, ht, hl⟩ := hholds
      have hmem := h.mem_holdsAt hat ht hl
      rw [Thread.holdsAt, hguard] at hmem
      rw [th.mem_base hmem]
      exact toLex_lt_of_fst (by decide)
  | job j =>
      obtain ⟨-, x, hx, hbusy⟩ := hholds
      have hrole := Thread.role_of_busy (show x.busy ≠ 0 by omega)
      rw [hsame x hx, Thread.role_of_shutting hshut] at hrole
      cases hrole
  | exit j =>
      obtain ⟨-, x, hx, hrole, -⟩ := hholds
      rw [hsame x hx, Thread.role_of_shutting hshut] at hrole
      cases hrole
  | flight f => exact toLex_lt_of_fst (by decide)
  | call j =>
      obtain ⟨rfl, -⟩ := hholds
      refine toLex_lt_of_fst ?_
      rw [hjob]
      decide

/-- A party wants only what stands above all that it has, with four exceptions: it may want the lifecycle lock with a
job to do, or in a call for the sake of a job; it may wait for the workers in such a call; and it may want a flight in a
call of a loader. If jobs do not count, nobody is to have one. -/
theorem LoaderSystem.level_lt {s : LoaderSystem α V cfg} (h : Ranked hash s.toLockSystem) (hnested : s.Nested)
    (jobs : Bool) {p : Party} {r r' : Resource} (hwants : s.Wants p r) (hholds : s.Holds p r')
    (hlifecycle : r = .lock .lifecycle → ∀ j, r' ≠ .job j ∧ r' ≠ .exit j ∧
      (r' = .call j → (jobs && s.onJob j) = false))
    (hclose : ∀ i th, p = .inl i → s.sys.threads[i]? = some th → th.shutting = true → (jobs && s.onJob i) = false)
    (hflight : ∀ f, r = .flight f → ∀ j, r' ≠ .call j)
    (hjobs : ∀ j, r' = .job j ∨ r' = .exit j → jobs = true) : s.level jobs r' < s.level jobs r := by
  cases p with
  | inl i =>
      cases r with
      | lock l =>
          obtain ⟨t, ht, hhead⟩ := hwants
          cases r' with
          | lock l' =>
              obtain ⟨t', ht', hl'⟩ := hholds
              obtain rfl : t = t' := Option.some.inj (ht.symm.trans ht')
              have hi : i < s.sys.threads.length := h.length_eq ▸ (List.getElem?_eq_some_iff.mp ht).1
              have hlt := (h.threads i _ t (List.getElem?_eq_getElem hi) ht).lt_of_wants hhead l' hl'
              exact toLex_lt_of_fst (by omega)
          | job j =>
              cases l with
              | lifecycle => exact absurd rfl (hlifecycle rfl j).1
              | _ => exact toLex_lt_of_fst (by simp [Lock.level])
          | exit j =>
              cases l with
              | lifecycle => exact absurd rfl (hlifecycle rfl j).2.1
              | _ => exact toLex_lt_of_fst (by simp [Lock.level])
          | flight f =>
              refine toLex_lt_of_fst ?_
              cases l <;> simp [Lock.level]
          | call j =>
              refine toLex_lt_of_fst ?_
              cases l with
              | lifecycle =>
                  rw [(hlifecycle rfl j).2.2 rfl]
                  decide
              | _ => split_ifs <;> simp [Lock.level]
      | job j =>
          exact LoaderSystem.level_lt_of_close h hwants.1 rfl rfl (hclose i _ rfl hwants.1.1 rfl) hholds
      | exit j =>
          obtain ⟨⟨failure, hdrain⟩, -⟩ := hwants
          exact LoaderSystem.level_lt_of_close h hdrain rfl rfl (hclose i _ rfl hdrain.1 rfl) hholds
      | flight f =>
          have hsame : ∀ x, s.sys.threads[i]? = some x → x = .waiting f :=
            fun x hx => Option.some.inj (hx.symm.trans hwants.1.1)
          cases r' with
          | lock l =>
              obtain ⟨t, ht, hl⟩ := hholds
              have hmem := h.mem_holdsAt hwants.1 ht hl
              simp [Thread.holdsAt, Thread.guard, Thread.base, Thread.shutting] at hmem
          | job j =>
              obtain ⟨-, x, hx, hbusy⟩ := hholds
              rw [hsame x hx] at hbusy
              cases hbusy
          | exit j =>
              obtain ⟨-, x, hx, hrole, -⟩ := hholds
              rw [hsame x hx] at hrole
              cases hrole
          | flight f' =>
              obtain ⟨x, key, hx, hf⟩ := hholds
              rw [hsame x hx] at hf
              cases hf
          | call j => exact absurd rfl (hflight f rfl j)
      | call j =>
          -- the host of the call stands at its loader
          obtain ⟨hunder, x, hx, rfl, rfl⟩ := hwants
          have hat := hnested.host x hx hunder
          cases r' with
          | lock l =>
              obtain ⟨t, ht, hl⟩ := hholds
              exact absurd hl (h.held_of_atLoader hat ht l)
          | job j =>
              obtain ⟨-, y, hy, hbusy⟩ := hholds
              have hjob := hnested.job x hx (LoaderSystem.onJob_of_worker hy (Thread.role_of_busy (by omega)))
              refine toLex_lt_of_fst ?_
              simp [hjobs j (.inl rfl), hjob]
          | exit j =>
              obtain ⟨-, y, hy, hrole, -⟩ := hholds
              have hjob := hnested.job x hx (LoaderSystem.onJob_of_worker hy hrole)
              refine toLex_lt_of_fst ?_
              simp [hjobs j (.inr rfl), hjob]
          | flight f =>
              refine toLex_lt_of_fst ?_
              split_ifs <;> decide
          | call j =>
              obtain ⟨rfl, -⟩ := hholds
              have hyounger := (hnested.order x hx).1
              by_cases hjob : (jobs && s.onJob x.host) = true
              · obtain ⟨hcount, hhost⟩ := Bool.and_eq_true_iff.mp hjob
                refine Prod.Lex.toLex_lt_toLex.mpr (.inr ⟨?_, hyounger⟩)
                simp [hcount, hhost, hnested.job x hx hhost]
              · by_cases hjob' : (jobs && s.onJob x.call) = true
                · refine toLex_lt_of_fst ?_
                  rw [if_neg hjob, if_pos hjob']
                  decide
                · refine Prod.Lex.toLex_lt_toLex.mpr (.inr ⟨?_, hyounger⟩)
                  rw [if_neg hjob, if_neg hjob']
  | inr k =>
      cases r with
      | lock l =>
          obtain ⟨t, ht, hhead⟩ := hwants
          cases r' with
          | lock l' =>
              obtain ⟨t', ht', hl'⟩ := hholds
              obtain rfl : t = t' := Option.some.inj (ht.symm.trans ht')
              have hlt := (h.observers t (List.mem_of_getElem? ht)).lt_of_wants hhead l' hl'
              exact toLex_lt_of_fst (by omega)
          | _ => exact hholds.elim
      | _ => exact hwants.elim

/-! ### Close does not meet the checks of a `PreloadKey` -/

/-- What a thread has to do with the lifecycle after an action it had to do before. -/
theorem pending_of_next {free : Lock → Bool} {skip : Bool} {t t' : LockThread Lock}
    (hnext : t.next free skip = some t') (h : LockSystem.pending t' = true) :
    LockSystem.pending t = true := by
  obtain ⟨held, todo⟩ := t
  simp only [LockSystem.pending, decide_eq_true_iff] at h ⊢
  cases todo with
  | nil => cases hnext
  | cons a as =>
      cases a with
      | acquire l =>
          simp only [LockThread.next] at hnext
          split_ifs at hnext
          cases hnext
          exact h.imp (List.mem_cons_of_mem _) (List.mem_cons_of_mem _)
      | release l =>
          cases hnext
          exact h.imp (List.mem_cons_of_mem _) (List.mem_cons_of_mem _)
      | visit l =>
          cases hnext
          cases skip with
          | true => exact h.imp (List.mem_cons_of_mem _) (List.mem_cons_of_mem _)
          | false =>
              rcases h with h | h
              · rcases List.mem_cons.mp h with h | h
                · cases h
                  exact .inr List.mem_cons_self
                · exact .inl (by simpa using h)
              · exact .inr (List.mem_cons_of_mem _ (by simpa using h))

/-- A thread gets the lifecycle lock only by taking it. -/
theorem head?_of_acquired {free : Lock → Bool} {skip : Bool} {t t' : LockThread Lock} {l : Lock}
    (hnext : t.next free skip = some t') (hnew : l ∈ t'.held) (hold : l ∉ t.held) :
    ∃ as, t.todo = .acquire l :: as ∧ free l = true := by
  obtain ⟨held, todo⟩ := t
  cases todo with
  | nil => cases hnext
  | cons a as =>
      cases a with
      | acquire m =>
          simp only [LockThread.next] at hnext
          split_ifs at hnext with hfree
          cases hnext
          rcases List.mem_cons.mp hnew with rfl | hmem
          · exact ⟨as, rfl, hfree⟩
          · exact absurd hmem hold
      | release m =>
          cases hnext
          exact absurd (List.mem_of_mem_tail hnew) hold
      | visit m =>
          cases hnext
          exact absurd hnew hold

/-- The action is no look at the lifecycle. -/
def Aside (a : Action Lock) : Prop := a ≠ .acquire .lifecycle ∧ a ≠ .visit .lifecycle

theorem pending_eq_false_iff {t : LockThread Lock} :
    LockSystem.pending t = false ↔ ∀ a ∈ t.todo, Aside a := by
  simp only [LockSystem.pending, decide_eq_false_iff_not, not_or]
  constructor
  · rintro ⟨hacquire, hvisit⟩ a ha
    exact ⟨fun h => hacquire (h ▸ ha), fun h => hvisit (h ▸ ha)⟩
  · intro h
    exact ⟨fun hmem => (h _ hmem).1 rfl, fun hmem => (h _ hmem).2 rfl⟩

theorem aside_incRuntime : ∀ a ∈ incRuntime, Aside a := by
  simp [incRuntime, Aside]

theorem aside_eachShard (n : ℕ) : ∀ a ∈ eachShard n, Aside a := by
  intro a ha
  simp only [eachShard, List.mem_flatMap, List.mem_map] at ha
  obtain ⟨l, ⟨i, -, rfl⟩, ha⟩ := ha
  rcases List.mem_cons.mp ha with rfl | ha
  · exact ⟨by simp, by simp⟩
  · obtain rfl := List.mem_singleton.mp ha
    exact ⟨by simp, by simp⟩

theorem aside_release (ls : List Lock) : ∀ a ∈ ls.map Action.release, Aside a := by
  intro a ha
  obtain ⟨l, -, rfl⟩ := List.mem_map.mp ha
  exact ⟨by simp, by simp⟩

theorem aside_append {as bs : List (Action Lock)} (has : ∀ a ∈ as, Aside a) (hbs : ∀ a ∈ bs, Aside a) :
    ∀ a ∈ as ++ bs, Aside a :=
  fun a ha => (List.mem_append.mp ha).elim (has a) (hbs a)

theorem aside_counted (th : Thread α V T) : ∀ a ∈ counted th, Aside a := by
  cases th with
  | finishing => exact aside_incRuntime
  | _ => exact fun a ha => by cases ha

/-- In front of a step, away from the entrance of a call. -/
theorem aside_before {th : Thread α V T} (h : ∀ op caller, th ≠ .entering op caller) :
    ∀ a ∈ th.before cfg hash, Aside a := by
  refine aside_append ?_ fun a ha => ?_
  · cases th with
    | handling job =>
        cases job with
        | snapshotStats id =>
            exact aside_append (aside_append (aside_eachShard _) aside_incRuntime) aside_incRuntime
        | _ => exact fun a ha => by cases ha
    | syncSettle i t success ts failure =>
        cases success with
        | false => exact aside_incRuntime
        | true => exact fun a ha => by cases ha
    | _ => exact fun a ha => by cases ha
  · have hguard : th.guard cfg hash = none ∨ _ := th.guard_cases
    rcases hguard with hg | ⟨i, hg⟩ | ⟨-, op, caller, rfl⟩
    · simp [hg] at ha
    · obtain rfl : a = .acquire (.shard i) := by simpa [hg] using ha
      exact ⟨by simp, by simp⟩
    · exact absurd rfl (h op caller)

/-- Behind a step, away from the entrance of a call. -/
theorem aside_after {lifecycle : LifecycleState} {th : Thread α V T} (th' : Thread α V T)
    (h : ∀ op caller, th ≠ .entering op caller) :
    ∀ a ∈ th.after cfg hash lifecycle th', Aside a := by
  have hunlock : ∀ a ∈ (th.guard cfg hash).toList.map Action.release, Aside a := aside_release _
  have hnil : ∀ a ∈ ([] : List (Action Lock)), Aside a := fun a ha => by cases ha
  have hplain : ∀ a ∈ (th.guard cfg hash).toList.map Action.release ++ counted th', Aside a :=
    aside_append hunlock (aside_counted th')
  cases th with
  | entering op caller => exact absurd rfl (h op caller)
  | handling job =>
      cases job with
      | flushWriteBack t =>
          cases th' with
          | finishing => exact aside_append (aside_append aside_incRuntime hunlock) aside_incRuntime
          | _ => exact hunlock
      | _ => exact hplain
  | failed t =>
      simp only [Thread.after]
      split_ifs
      · exact aside_append aside_incRuntime aside_incRuntime
      · exact aside_incRuntime
  | syncCollect i failure =>
      simp only [Thread.after]
      split_ifs
      · exact hunlock
      · exact aside_incRuntime
      · exact hnil
  | syncNext i ts failure =>
      cases th' with
      | syncNext i' ts' failure' => exact aside_append aside_incRuntime hunlock
      | _ => exact hunlock
  | syncTry i t left ts failure =>
      cases th' with
      | syncTry i' t' left' ts' failure' => exact aside_incRuntime
      | _ => exact hnil
  | closeEnqueue i ts =>
      simp only [Thread.after]
      split_ifs
      · exact hnil
      · exact List.forall_mem_cons.mpr ⟨⟨by simp, by simp⟩, hnil⟩
  | closeDrain failure =>
      refine List.forall_mem_cons.mpr ⟨⟨by simp, by simp⟩, ?_⟩
      split_ifs
      · exact aside_eachShard _
      · exact hnil
  | _ => exact hplain

/-- The thread is at the entrance of a call, or waits for a flight. -/
def Thread.outset : Thread α V T → Bool
  | .entering _ _ => true
  | .waiting _ => true
  | _ => false

/-- A thread comes to the entrance of a call only from a loader that returned a value, and to wait for a flight only
by joining it. -/
theorem threadStep_outset {s s' : Shared α V cfg} {c : Choice α V} {th th' : Thread α V T}
    (h : threadStep hash s c th = some (s', th')) (hout : th'.outset = true) :
    (th.loads = true ∧ c.loaded.isSome = true ∧ ∃ op caller, th' = .entering op caller) ∨
      ∃ key ttl caller f, th = .running (.getOrCompute key ttl) caller ∧ th' = .waiting f ∧
        ((s.shards (shardFor cfg hash key)).getOrComputeLocked key s.now s.flights.length).1 = .joins f := by
  have hraised : ∀ (caller : Caller α V T) (exn : Exn), (caller.raised exn : Thread α V T).outset = false := by
    intro caller exn
    cases caller <;> cases exn <;> rfl
  have henqueue : ∀ {s₁ : Shared α V cfg} {ts : List (Ticket α V)} {caller : Caller α V T},
      enqueueOr s₁ ts caller ≠ (s', th') := by
    intro s₁ ts caller heq
    obtain ⟨-, rfl⟩ := Prod.mk.inj heq
    cases ts with
    | nil => cases caller <;> cases hout
    | cons t ts => cases hout
  rcases threadStep_cases h with h | h | h
  · cases th with
    | entering op caller =>
        exfalso
        rcases entering_cases h with ⟨-, ⟨exn, rfl⟩, -⟩ | ⟨-, rfl, -⟩ | ⟨-, rfl, -⟩ | ⟨-, -, -, flush, -, rfl⟩
        · rw [hraised] at hout
          cases hout
        · cases hout
        · cases hout
        · split_ifs at hout <;> cases hout
    | running op caller =>
        cases op with
        | put key value ttl =>
            exfalso
            simp only [clientStep] at h
            split_ifs at h
            · obtain ⟨-, rfl⟩ := Prod.mk.inj (Option.some.inj h)
              rw [hraised] at hout
              cases hout
            · exact henqueue (Option.some.inj h)
        | delete key =>
            exfalso
            simp only [clientStep] at h
            split_ifs at h
            · cases h
              cases hout
            · exact henqueue (Option.some.inj h)
        | getOrCompute key ttl =>
            simp only [clientStep] at h
            split at h
            · cases h
              cases hout
            · next f hjoins =>
                cases h
                exact .inr ⟨key, ttl, caller, f, rfl, rfl, hjoins⟩
            · cases h
              cases hout
        | _ =>
            cases h <;> cases hout
    | clearing i ts =>
        exfalso
        simp only [clientStep] at h
        split_ifs at h
        · cases h
          cases hout
        · cases h
          cases hout
        · exact henqueue (Option.some.inj h)
    | enqueuing ts caller =>
        exfalso
        cases ts with
        | nil =>
            have heq : enqueueOr s [] caller = (s', th') := Option.some.inj h
            exact henqueue heq
        | cons t ts =>
            simp only [clientStep] at h
            split_ifs at h
            · obtain ⟨-, rfl⟩ := Prod.mk.inj (Option.some.inj h)
              rw [hraised] at hout
              cases hout
            · cases h
              cases hout
            · exact henqueue (Option.some.inj h)
    | releasing ts caller =>
        exfalso
        cases ts with
        | nil =>
            obtain ⟨-, rfl⟩ := Prod.mk.inj (Option.some.inj h)
            rw [hraised] at hout
            cases hout
        | cons t ts =>
            obtain ⟨s₁, -, heq⟩ := Option.map_eq_some_iff.mp h
            cases heq
            cases hout
    | loading key ttl flight =>
        simp only [clientStep] at h
        split at h
        · cases h
          cases hout
        · next v hv =>
            cases h
            exact .inl ⟨rfl, by rw [hv]; rfl, _, _, rfl⟩
    | waiting flight =>
        exfalso
        obtain ⟨-, result, rfl, -⟩ := waiting_cases h
        cases hout
    | sizing i total =>
        simp only [clientStep] at h
        split_ifs at h <;> cases h <;> cases hout
    | dumping i taken limit =>
        simp only [clientStep] at h
        split_ifs at h <;> cases h <;> cases hout
    | expiring i removed =>
        simp only [clientStep] at h
        split_ifs at h <;> cases h <;> cases hout
    | _ => cases h <;> cases hout
  · cases th with
    | handling job =>
        cases job with
        | preloadKey i key ttl =>
            simp only [workerStep] at h
            split at h
            · cases h
              cases hout
            · next v hv =>
                cases h
                exact .inl ⟨rfl, by rw [hv]; rfl, _, _, rfl⟩
        | expireShard i =>
            obtain ⟨s₁, -, heq⟩ := Option.map_eq_some_iff.mp h
            cases heq
            cases hout
        | flushWriteBack t =>
            simp only [workerStep] at h
            split_ifs at h <;> cases h <;> cases hout
        | _ =>
            cases h
            cases hout
    | idle =>
        simp only [workerStep] at h
        split at h
        · cases h
          cases hout
        · split_ifs at h
          cases h
          cases hout
    | checked t =>
        simp only [workerStep] at h
        split_ifs at h <;> cases h <;> cases hout
    | failed t =>
        simp only [workerStep] at h
        split_ifs at h <;> cases h <;> cases hout
    | dropped t =>
        obtain ⟨s₁, -, heq⟩ := Option.map_eq_some_iff.mp h
        cases heq
        cases hout
    | landed t =>
        obtain ⟨s₁, -, heq⟩ := Option.map_eq_some_iff.mp h
        cases heq
        cases hout
    | _ => cases h <;> cases hout
  · exfalso
    obtain ⟨-, hshut | ⟨failure, rfl⟩ | ⟨_, t, ts, -, -, -, rfl⟩⟩ := closeStep_shutting h
    · cases th' <;> first | (cases hshut; done) | cases hout
    · cases h
      split_ifs at hout <;> cases hout
    · cases hout

namespace LockSystem

/-- A thread and its locks with a given property. -/
theorem any_zip_iff {β γ : Type} {as : List β} {bs : List γ} {f : β × γ → Bool} :
    (as.zip bs).any f = true ↔ ∃ (i : ℕ) (a : β) (b : γ), as[i]? = some a ∧ bs[i]? = some b ∧
      f (a, b) = true := by
  rw [List.any_eq_true]
  constructor
  · rintro ⟨p, hp, hf⟩
    obtain ⟨i, hi⟩ := List.mem_iff_getElem?.mp hp
    obtain ⟨ha, hb⟩ := List.getElem?_zip_eq_some.mp hi
    exact ⟨i, p.1, p.2, ha, hb, hf⟩
  · rintro ⟨i, a, b, ha, hb, hf⟩
    exact ⟨(a, b), List.mem_of_getElem? (List.getElem?_zip_eq_some.mpr ⟨ha, hb⟩), hf⟩

theorem shuttingDown_iff {s : LockSystem α V cfg} :
    s.shuttingDown = true ↔ s.sys.shared.lifecycle ≠ .closed ∧
      ∃ (i : ℕ) (th : Thread α V T) (t : LockThread Lock), s.sys.threads[i]? = some th ∧
        s.locks[i]? = some t ∧ th.role = .closer ∧ .lifecycle ∈ t.held := by
  simp only [shuttingDown, Bool.and_eq_true, decide_eq_true_iff, any_zip_iff]

end LockSystem

theorem LoaderSystem.preloading_eq_false_iff {s : LoaderSystem α V cfg} :
    s.preloading = false ↔ ∀ (i : ℕ) (t : LockThread Lock), s.locks[i]? = some t → s.onJob i = true →
      LockSystem.pending t = false := by
  rw [LoaderSystem.preloading, List.any_eq_false]
  constructor
  · intro h i t ht hjob
    have hi := List.mem_range.mpr (List.getElem?_eq_some_iff.mp ht).1
    simpa [hjob, ht] using h i hi
  · intro h i hi hboth
    obtain ⟨hjob, hpending⟩ := Bool.and_eq_true_iff.mp hboth
    obtain ⟨t, ht, hpending⟩ := (Option.any_eq_true _ _).mp hpending
    rw [h i t ht hjob] at hpending
    cases hpending

/-- While `close` is on its way, no worker is on its way to a lifecycle check, and no call for the sake of its job is.
`close` itself has no such check before it, and it is not called for the sake of a job. -/
structure Calm (s : LoaderSystem α V cfg) : Prop where
  closer : ∀ (i : ℕ) (th : Thread α V T) (t : LockThread Lock), s.sys.threads[i]? = some th →
    s.locks[i]? = some t → th.shutting = true → LockSystem.pending t = false
  apart : ∀ (i : ℕ) (th : Thread α V T) (t : LockThread Lock), s.sys.threads[i]? = some th →
    s.locks[i]? = some t → th.role = .closer → .lifecycle ∈ t.held → s.sys.shared.lifecycle ≠ .closed →
      s.onJob i = false
  worker : s.shuttingDown = true → ∀ (i : ℕ) (th : Thread α V T) (t : LockThread Lock),
    s.sys.threads[i]? = some th → s.locks[i]? = some t → s.onJob i = true →
      LockSystem.pending t = false ∧ ∀ op caller, th ≠ .entering op caller

/-- No threads. -/
theorem calm_initial (now : T) (src : Source α V) : Calm (LoaderSystem.initial cfg now src) where
  closer i th t hi := by cases hi
  apart i th t hi := by cases hi
  worker _ i th t hi := by cases hi

/-- What comes in from outside does not open a closed cache. -/
theorem lifecycle_eq_closed_env {s s' : System α V cfg} {l : Label α V T} (hl : ∀ i c, l ≠ .run i c)
    (h : step cfg hash s l = some s') (hclosed : s.shared.lifecycle = .closed) :
    s'.shared.lifecycle = .closed := by
  cases l with
  | tick now =>
      simp only [step] at h
      split_ifs at h
      cases h
      exact hclosed
  | start =>
      simp only [step, hclosed] at h
      cases h
  | call op =>
      cases h
      exact hclosed
  | schedule i =>
      simp only [step, hclosed] at h
      simp at h
  | run i c => exact absurd rfl (hl i c)

section Calm

variable {s s' : LoaderSystem α V cfg}

/-- What an observer does keeps it. -/
theorem Calm.look (h : Calm s) (hsys : s'.sys = s.sys) (hlocks : s'.locks = s.locks)
    (hjob : ∀ j, s'.onJob j = s.onJob j) : Calm s' := by
  have hshut : s'.shuttingDown = s.shuttingDown := by
    rw [LockSystem.shuttingDown, LockSystem.shuttingDown, hsys, hlocks]
  constructor
  · rw [hsys, hlocks]
    exact h.closer
  · rw [hsys, hlocks]
    simpa only [hjob] using h.apart
  · rw [hshut, hsys, hlocks]
    simpa only [hjob] using h.worker

/-- A step of the environment keeps it, and a call of a loader, unless it is made for the sake of a job while `close` is
on its way. -/
theorem Calm.env {l : Label α V T} (h : Calm s) (hrank : Ranked hash s.toLockSystem)
    (hadmits : s.admits l = true) (hstep : step cfg hash s.sys l = some s'.sys)
    (hlocks : s'.locks = s.locks ++ (s'.sys.threads.drop s.sys.threads.length).map (lockThread cfg hash))
    (hjob : ∀ j, j < s.sys.threads.length → s'.onJob j = s.onJob j)
    (hnew : s.shuttingDown = true → ∀ j th, s'.sys.threads[j]? = some th → s.sys.threads.length ≤ j →
      s'.onJob j = true → th.role = .worker) : Calm s' := by
  have hl : ∀ i c, l ≠ .run i c := by
    rintro i c rfl
    cases hadmits
  obtain ⟨new, hfresh, hth, hlocks⟩ := lockStep_env hadmits hstep hlocks
  have hcases : ∀ (i : ℕ) (th : Thread α V T) (t : LockThread Lock), s'.sys.threads[i]? = some th →
      s'.locks[i]? = some t → (s.sys.threads[i]? = some th ∧ s.locks[i]? = some t) ∨
        (th.Fresh ∧ t = lockThread cfg hash th ∧ s.sys.threads.length ≤ i) := by
    intro i th t hi ht
    by_cases hlt : i < s.sys.threads.length
    · rw [hth, List.getElem?_append_left hlt] at hi
      rw [hlocks, List.getElem?_append_left (hrank.length_eq.symm ▸ hlt)] at ht
      exact .inl ⟨hi, ht⟩
    · have hmem := hi
      rw [hth] at hmem
      rw [hlocks] at ht
      rcases getElem?_env hrank.length_eq hmem ht with ⟨hold, -⟩ | ⟨hmem, rfl⟩
      · exact absurd (List.getElem?_eq_some_iff.mp hold).1 hlt
      · exact .inr ⟨hfresh th hmem, rfl, not_lt.mp hlt⟩
  have hlength : ∀ {i th}, s.sys.threads[i]? = some th → i < s.sys.threads.length :=
    fun hi => (List.getElem?_eq_some_iff.mp hi).1
  have hopened : s'.sys.shared.lifecycle ≠ .closed → s.sys.shared.lifecycle ≠ .closed :=
    fun hopen hclosed => hopen (lifecycle_eq_closed_env hl hstep hclosed)
  constructor
  · intro i th t hi ht hshut
    rcases hcases i th t hi ht with ⟨hi, ht⟩ | ⟨hnewborn, -⟩
    · exact h.closer i th t hi ht hshut
    · cases hnewborn <;> cases hshut
  · intro i th t hi ht hrole hheld hopen
    rcases hcases i th t hi ht with ⟨hi, ht⟩ | ⟨-, rfl, -⟩
    · rw [hjob i (hlength hi)]
      exact h.apart i th t hi ht hrole hheld (hopened hopen)
    · cases hheld
  · intro hshut i th t hi ht honjob
    have hold : s.shuttingDown = true := by
      obtain ⟨hopen, j, x, u, hj, hu, hclose, hmem⟩ := LockSystem.shuttingDown_iff.mp hshut
      refine LockSystem.shuttingDown_iff.mpr ⟨hopened hopen, j, x, u, ?_⟩
      rcases hcases j x u hj hu with ⟨hj, hu⟩ | ⟨-, rfl, -⟩
      · exact ⟨hj, hu, hclose, hmem⟩
      · cases hmem
    rcases hcases i th t hi ht with ⟨hi, ht⟩ | ⟨hnewborn, rfl, hle⟩
    · rw [hjob i (hlength hi)] at honjob
      exact h.worker hold i th t hi ht honjob
    · have hrole := hnew hold i th hi hle honjob
      cases hnewborn with
      | idle => exact ⟨rfl, fun _ _ heq => by cases heq⟩
      | entering op => cases op <;> cases hrole

/-- A lock action of a thread keeps it, if it does not bring `close` and a preload together. -/
theorem Calm.next {i : ℕ} {c : Choice α V} {skip : Bool} {t t' : LockThread Lock} (h : Calm s)
    (hrank : Ranked hash s.toLockSystem) (hspares : s.sparesPreloads (.lock (.move i c skip)) = true)
    (ht : s.locks[i]? = some t) (hnext : t.next s.free skip = some t') (hsys : s'.sys = s.sys)
    (hlocks : s'.locks = s.locks.set i t') (hjob : ∀ j, s'.onJob j = s.onJob j) : Calm s' := by
  -- the lock actions of every thread were there before
  have hold : ∀ (j : ℕ) (u : LockThread Lock), s'.locks[j]? = some u → ∃ u₀, s.locks[j]? = some u₀ ∧
      (LockSystem.pending u = true → LockSystem.pending u₀ = true) := by
    intro j u hu
    rw [hlocks] at hu
    rcases Transition.getElem?_set_cases hu with ⟨rfl, rfl⟩ | ⟨-, hu⟩
    · exact ⟨t, ht, pending_of_next hnext⟩
    · exact ⟨u, hu, id⟩
  have hpending : ∀ {u u₀ : LockThread Lock}, (LockSystem.pending u = true → LockSystem.pending u₀ = true) →
      LockSystem.pending u₀ = false → LockSystem.pending u = false := by
    intro u u₀ himp hfalse
    by_contra hu
    rw [himp (by simpa using hu)] at hfalse
    cases hfalse
  -- a `close` gets the lifecycle lock, which is free, only if no check for the sake of a job is ahead
  have hgets : ∀ th, s.sys.threads[i]? = some th → th.role = .closer → Lock.lifecycle ∈ t'.held →
      Lock.lifecycle ∉ t.held → s.sys.shared.lifecycle ≠ .closed →
      s.free .lifecycle = true ∧ .acquire .lifecycle ∈ t.todo ∧ s.preloading = false := by
    intro th hi hrole hheld hnot hopen
    obtain ⟨as, htodo, hfree⟩ := head?_of_acquired hnext hheld hnot
    refine ⟨hfree, htodo ▸ List.mem_cons_self, ?_⟩
    rcases Thread.shutting_of_role hrole with hshutting | ⟨flush, caller, rfl⟩
    · have hfalse := pending_eq_false_iff.mp (h.closer i th t hi ht hshutting) (.acquire .lifecycle)
        (htodo ▸ List.mem_cons_self)
      exact absurd rfl hfalse.1
    · simpa [LoaderSystem.sparesPreloads, hi, ht, htodo, hopen] using hspares
  constructor
  · intro j th u hj hu hshut
    rw [hsys] at hj
    obtain ⟨u₀, hu₀, himp⟩ := hold j u hu
    exact hpending himp (h.closer j th u₀ hj hu₀ hshut)
  · intro j th u hj hu hrole hheld hopen
    rw [hsys] at hj hopen
    rw [hjob]
    rw [hlocks] at hu
    rcases Transition.getElem?_set_cases hu with ⟨rfl, rfl⟩ | ⟨-, hu⟩
    · by_cases hheld₀ : Lock.lifecycle ∈ t.held
      · exact h.apart j th t hj ht hrole hheld₀ hopen
      · obtain ⟨-, hmem, hnone⟩ := hgets th hj hrole hheld hheld₀ hopen
        by_contra honjob
        have hfalse := LoaderSystem.preloading_eq_false_iff.mp hnone j t ht (by simpa using honjob)
        exact absurd rfl (pending_eq_false_iff.mp hfalse _ hmem).1
    · exact h.apart j th u hj hu hrole hheld hopen
  · intro hshut j th u hj hu honjob
    rw [hsys] at hj
    rw [hjob] at honjob
    obtain ⟨u₀, hu₀, himp⟩ := hold j u hu
    by_cases hshut₀ : s.shuttingDown = true
    · obtain ⟨hfalse, hne⟩ := h.worker hshut₀ j th u₀ hj hu₀ honjob
      exact ⟨hpending himp hfalse, hne⟩
    · -- this action gave the lifecycle lock to a closing thread
      obtain ⟨hopen, k, x, v, hk, hv, hclose, hmem⟩ := LockSystem.shuttingDown_iff.mp hshut
      rw [hsys] at hopen hk
      rw [hlocks] at hv
      have hnot : ∀ v₀, s.locks[k]? = some v₀ → Lock.lifecycle ∉ v₀.held := fun v₀ hv₀ hmem₀ =>
        hshut₀ (LockSystem.shuttingDown_iff.mpr ⟨hopen, k, x, v₀, hk, hv₀, hclose, hmem₀⟩)
      rcases Transition.getElem?_set_cases hv with ⟨rfl, rfl⟩ | ⟨-, hv⟩
      · obtain ⟨hfree, -, hnone⟩ := hgets x hk hclose hmem (hnot t ht) hopen
        have hfalse := LoaderSystem.preloading_eq_false_iff.mp hnone j u₀ hu₀ honjob
        refine ⟨hpending himp hfalse, ?_⟩
        -- a thread at the entrance of a call has the lifecycle lock, which is free, or is to take it
        rintro op caller' rfl
        rcases (hrank.threads j _ u₀ hj hu₀).mem_or_acquire
            (List.mem_cons_self : Lock.lifecycle ∈ _) with
          hheld | hacquire
        · have hall := List.all_eq_true.mp hfree u₀ (List.mem_append_left _ (List.mem_of_getElem? hu₀))
          exact absurd hheld (of_decide_eq_true hall)
        · exact absurd rfl (pending_eq_false_iff.mp hfalse _ hacquire).1
      · exact absurd hmem (hnot v hv)

/-- What the condition says of a step at a point. -/
theorem LoaderSystem.loaded_of_spares {i : ℕ} {c : Choice α V} {skip : Bool} {t : LockThread Lock}
    {th : Thread α V T} (hspares : s.sparesPreloads (.lock (.move i c skip)) = true) (ht : s.locks[i]? = some t)
    (htodo : t.todo = []) (hth : s.sys.threads[i]? = some th) (hloads : th.loads = true)
    (hjob : s.onJob i = true) (hshut : s.shuttingDown = true) : c.loaded = none := by
  simp only [LoaderSystem.sparesPreloads, hth, ht, htodo, Option.map_some] at hspares
  simpa [hloads, hjob, hshut] using hspares

/-- A step of a thread keeps it, if it does not bring `close` and a preload together. -/
theorem Calm.acted {i : ℕ} {c : Choice α V} {skip : Bool} {t : LockThread Lock} {th th' : Thread α V T}
    (h : Calm s) (hspares : s.sparesPreloads (.lock (.move i c skip)) = true) (ht : s.locks[i]? = some t)
    (htodo : t.todo = []) (hth : s.sys.threads[i]? = some th)
    (hstep : threadStep hash s.sys.shared c th = some (s'.sys.shared, th'))
    (hcontrol : Control s.sys.shared th s'.sys.shared th')
    (hthreads : s'.sys.threads = s.sys.threads.set i th')
    (hlocks : s'.locks = s.locks.set i
      ⟨t.held, th.after cfg hash s.sys.shared.lifecycle th' ++ th'.before cfg hash⟩)
    (hjob : ∀ j, j < s.sys.threads.length → s'.onJob j = s.onJob j) : Calm s' := by
  have hcases : ∀ (j : ℕ) (x : Thread α V T) (u : LockThread Lock), s'.sys.threads[j]? = some x →
      s'.locks[j]? = some u →
      (j = i ∧ x = th' ∧
        u = ⟨t.held, th.after cfg hash s.sys.shared.lifecycle th' ++ th'.before cfg hash⟩) ∨
      (s.sys.threads[j]? = some x ∧ s.locks[j]? = some u) := by
    intro j x u hj hu
    rw [hthreads] at hj
    rw [hlocks] at hu
    rcases Transition.getElem?_set_cases hj with ⟨rfl, rfl⟩ | ⟨hji, hj⟩
    · rcases Transition.getElem?_set_cases hu with ⟨-, rfl⟩ | ⟨hji, -⟩
      · exact .inl ⟨rfl, rfl, rfl⟩
      · exact absurd rfl hji
    · rcases Transition.getElem?_set_cases hu with ⟨rfl, -⟩ | ⟨-, hu⟩
      · exact absurd rfl hji
      · exact .inr ⟨hj, hu⟩
  have hjob₀ : ∀ {j : ℕ} {x : Thread α V T}, s'.sys.threads[j]? = some x → s'.onJob j = s.onJob j := by
    intro j x hj
    refine hjob j ?_
    have hlt := (List.getElem?_eq_some_iff.mp hj).1
    rwa [hthreads, List.length_set] at hlt
  have hentrance : ∀ {x : Thread α V T}, x.shutting = true → ∀ op caller, x ≠ .entering op caller := by
    rintro x hx op caller rfl
    cases hx
  have haround : (∀ op caller, th ≠ .entering op caller) → (∀ op caller, th' ≠ .entering op caller) →
      LockSystem.pending
        ⟨t.held, th.after cfg hash s.sys.shared.lifecycle th' ++ th'.before cfg hash⟩ = false :=
    fun hne hne' => pending_eq_false_iff.mpr (aside_append (aside_after th' hne) (aside_before hne'))
  have hopened : s'.sys.shared.lifecycle ≠ .closed → s.sys.shared.lifecycle ≠ .closed :=
    fun hopen hclosed => hopen (lifecycle_eq_closed hstep hclosed)
  have hrole₀ : th'.role = .closer → th.role = .closer := by
    intro hrole
    rcases hcontrol.role with hsame | ⟨hclose, -⟩
    · exact hsame ▸ hrole
    · exact hclose
  constructor
  · intro j x u hj hu hshut
    rcases hcases j x u hj hu with ⟨rfl, rfl, rfl⟩ | ⟨hj, hu⟩
    · rcases Thread.shutting_of_role (hrole₀ (Thread.role_of_shutting hshut)) with hshut₀ | ⟨flush, caller, rfl⟩
      · exact haround (hentrance hshut₀) (hentrance hshut)
      · refine pending_eq_false_iff.mpr ?_
        simp only [Thread.after, hshut, if_true, List.nil_append]
        exact aside_before (hentrance hshut)
    · exact h.closer j x u hj hu hshut
  · intro j x u hj hu hrole hheld hopen
    rw [hjob₀ hj]
    rcases hcases j x u hj hu with ⟨rfl, rfl, rfl⟩ | ⟨hj, hu⟩
    · exact h.apart j th t hth ht (hrole₀ hrole) hheld (hopened hopen)
    · exact h.apart j x u hj hu hrole hheld (hopened hopen)
  · intro hshut j x u hj hu honjob
    rw [hjob₀ hj] at honjob
    have hold : s.shuttingDown = true := by
      obtain ⟨hopen, k, y, v, hk, hv, hclose, hmem⟩ := LockSystem.shuttingDown_iff.mp hshut
      rcases hcases k y v hk hv with ⟨rfl, rfl, rfl⟩ | ⟨hk, hv⟩
      · exact LockSystem.shuttingDown_iff.mpr ⟨hopened hopen, k, th, t, hth, ht, hrole₀ hclose, hmem⟩
      · exact LockSystem.shuttingDown_iff.mpr ⟨hopened hopen, k, y, v, hk, hv, hclose, hmem⟩
    rcases hcases j x u hj hu with ⟨rfl, rfl, rfl⟩ | ⟨hj, hu⟩
    · obtain ⟨-, hne⟩ := h.worker hold j th t hth ht honjob
      have hne' : ∀ op caller, x ≠ .entering op caller := by
        rintro op caller rfl
        rcases threadStep_outset hstep rfl with ⟨hloads, hloaded, -⟩ | ⟨key, ttl, caller', f, -, heq, -⟩
        · rw [LoaderSystem.loaded_of_spares hspares ht htodo hth hloads honjob hold] at hloaded
          cases hloaded
        · cases heq
      exact ⟨haround hne hne', hne'⟩
    · exact h.worker hold j x u hj hu honjob

end Calm

/-! ### No cycle -/

/-- What holds in every state of a run of steps that keep `close` and the preloads apart and in which no call of a
loader joins a flight. -/
structure Orderly (hash : Key α → ℕ) (s : LoaderSystem α V cfg) : Prop where
  base : Base hash s.sys
  ranked : Ranked hash s.toLockSystem
  solo : Solo s.sys
  nested : s.Nested
  calm : Calm s
  landed : ∀ x ∈ s.calls, ∀ f, s.sys.threads[x.call]? ≠ some (Thread.waiting f)

/-- A step of the system with locks, or of a loader that calls the cache, preserves the rest. -/
theorem Orderly.calm_step {s s' : LoaderSystem α V cfg} {l : LoaderLabel α V T} (h : Orderly hash s)
    (hcontrol : ∀ c (i : ℕ) (th th' : Thread α V T) sh', s.sys.threads[i]? = some th →
      threadStep hash s.sys.shared c th = some (sh', th') → Control s.sys.shared th sh' th')
    (hspares : s.sparesPreloads l = true) (hs : loaderStep cfg hash s l = some s') : Calm s' := by
  have hold := LoaderSystem.onJob_of_loaderStep h.ranked hcontrol hs
  rcases loaderStep_cases hs with ⟨l, rfl, -, hlock, hcalls⟩ | ⟨i, op, rfl, hat, -, hlock, hcalls⟩
  · have hsame : s'.sys = s.sys → ∀ j, s'.onJob j = s.onJob j := by
      intro hsys j
      rw [LoaderSystem.onJob, LoaderSystem.onJob, hsys, hcalls]
    rcases lockStep_cases hlock with ⟨l', -, hadmits, hstep, hlocks, -⟩ | ⟨observer, -, hsys, hlocks, -⟩ |
      ⟨k, t, t', -, -, -, hsys, hlocks, -⟩ |
      ⟨i, c, skip, t, th, th', rfl, ht, htodo, hth, hstep, hthreads, hlocks, -⟩ |
      ⟨i, c, skip, t, t', rfl, ht, -, hnext, hsys, hlocks, -⟩
    · refine h.calm.env h.ranked hadmits hstep hlocks hold ?_
      intro _ j th hj hle hjob
      rw [LoaderSystem.onJob, hj, Option.any_some, Bool.or_eq_true, hcalls, List.any_eq_true] at hjob
      rcases hjob with hrole | ⟨x, hx, heq⟩
      · exact of_decide_eq_true hrole
      · have hcall := (h.nested.order x hx).2
        rw [Bool.and_eq_true, beq_iff_eq] at heq
        omega
    · exact h.calm.look hsys hlocks (hsame hsys)
    · exact h.calm.look hsys hlocks (hsame hsys)
    · exact h.calm.acted hspares ht htodo hth hstep (hcontrol c i th th' _ hth hstep) hthreads hlocks hold
    · exact h.calm.next h.ranked hspares ht hnext hsys hlocks (hsame hsys)
  · rcases lockStep_cases hlock with ⟨l', heq, hadmits, hstep, hlocks, -⟩ | ⟨observer, heq, -⟩ |
      ⟨k, t, t', heq, -⟩ | ⟨j, c, skip, t, th, th', heq, -⟩ | ⟨j, c, skip, t, t', heq, -⟩
    · refine h.calm.env h.ranked hadmits hstep hlocks hold ?_
      intro hshut j th hj hle hjob
      have hnone : s.onJob i = false := by
        simpa [LoaderSystem.sparesPreloads, hshut] using hspares
      rw [LoaderSystem.onJob, hj, Option.any_some, Bool.or_eq_true, hcalls, List.any_eq_true] at hjob
      rcases hjob with hrole | ⟨x, hx, heq⟩
      · exact of_decide_eq_true hrole
      · rw [Bool.and_eq_true, beq_iff_eq] at heq
        rcases List.mem_append.mp hx with hx | hx
        · have hcall := (h.nested.order x hx).2
          omega
        · obtain rfl := List.mem_singleton.mp hx
          rw [hnone] at heq
          cases heq.2
    · cases heq
    · cases heq
    · cases heq
    · cases heq

/-- A step that keeps `close` and the preloads apart, and in which no call of a loader joins a flight, preserves it. -/
theorem Orderly.step {s s' : LoaderSystem α V cfg} {l : LoaderLabel α V T} (h : Orderly hash s)
    (hspares : s.sparesPreloads l = true) (hjoins : s.joinsFlight hash l = false)
    (hs : loaderStep cfg hash s l = some s') : Orderly hash s' := by
  have hcontrol : ∀ c (i : ℕ) (th th' : Thread α V T) sh', s.sys.threads[i]? = some th →
      threadStep hash s.sys.shared c th = some (sh', th') → Control s.sys.shared th sh' th' := by
    intro c i th th' sh' hth hstep
    obtain ⟨hfit, hplaced⟩ := h.base.threads th (List.mem_of_getElem? hth)
    exact threadStep_control hstep hfit hplaced fun i => (h.base.shards i).index_eq
  have hlock := lockStep_of_loaderStep hs
  have hrank := h.ranked.step hcontrol hlock
  have hnested := h.nested.step h.ranked hcontrol hs
  have hcalm := h.calm_step hcontrol hspares hs
  -- the calls that were there
  have hlanded : ∀ x ∈ s.calls, ∀ f, s'.sys.threads[x.call]? ≠ some (Thread.waiting f) := by
    intro x hx f hwaiting
    have hlength := (h.nested.order x hx).2
    by_cases hmover : l.plain.mover = some x.call
    · rcases lockStep_cases hlock with ⟨l', heq, -⟩ | ⟨observer, heq, -⟩ | ⟨k, t, t', heq, -⟩ |
        ⟨i, c, skip, t, th, th', heq, ht, htodo, hth, hstep, hthreads, -⟩ |
        ⟨i, c, skip, t, t', heq, -, -, -, hsys, -⟩
      · rw [heq] at hmover
        cases hmover
      · rw [heq] at hmover
        cases hmover
      · rw [heq] at hmover
        cases hmover
      · rw [heq] at hmover
        obtain rfl : i = x.call := Option.some.inj hmover
        rw [hthreads, List.getElem?_set_self hlength] at hwaiting
        obtain rfl := Option.some.inj hwaiting
        rcases threadStep_outset hstep rfl with ⟨-, -, op, caller, heq'⟩ | ⟨key, ttl, caller, f', rfl, -, hjoin⟩
        · cases heq'
        · cases l with
          | nested i op => cases heq
          | lock l =>
              obtain rfl : l = .move x.call c skip := heq
              have hmem : (s.calls.any fun y => y.call == x.call) = true :=
                List.any_eq_true.mpr ⟨x, hx, beq_self_eq_true _⟩
              simp [LoaderSystem.joinsFlight, hth, ht, htodo, hmem, hjoin] at hjoins
      · rw [hsys] at hwaiting
        exact h.landed x hx f hwaiting
    · rw [(lockStep_still h.ranked hlock hlength hmover).1] at hwaiting
      exact h.landed x hx f hwaiting
  have hrest : Base hash s'.sys ∧ Solo s'.sys := by
    rcases lockStep_cases hlock with ⟨l', -, hadmits, hstep, -, -⟩ | ⟨observer, -, hsys, -⟩ |
      ⟨k, t, t', -, -, -, hsys, -⟩ | ⟨i, c, skip, t, th, th', -, -, -, hth, hstep, hthreads, -⟩ |
      ⟨i, c, skip, t, t', -, -, -, -, hsys, -⟩
    · have hl : ∀ i c, l' ≠ .run i c := by
        rintro i c rfl
        cases hadmits
      exact ⟨h.base.step hstep, h.solo.env hl hstep⟩
    · exact hsys ▸ ⟨h.base, h.solo⟩
    · exact hsys ▸ ⟨h.base, h.solo⟩
    · have hmove : CacheLab.step cfg hash s.sys (.run i c) = some s'.sys := by
        simp only [CacheLab.step, hth, Option.bind_some, hstep, Option.map_some, ← hthreads]
      exact ⟨h.base.step hmove, h.solo.moved hth hstep (hcontrol c i th th' _ hth hstep) hthreads⟩
    · exact hsys ▸ ⟨h.base, h.solo⟩
  refine ⟨hrest.1, hrank, hrest.2, hnested, hcalm, ?_⟩
  rcases loaderStep_cases hs with ⟨l', -, -, -, hcalls⟩ | ⟨i, op, -, -, -, hcall, hcalls⟩
  · rw [hcalls]
    exact hlanded
  · rw [hcalls]
    intro x hx f
    rcases List.mem_append.mp hx with hx | hx
    · exact hlanded x hx f
    · obtain rfl := List.mem_singleton.mp hx
      simp only [lockStep, LockSystem.admits, if_true, CacheLab.step, Option.map_some] at hcall
      rw [← Option.some.inj hcall]
      simp

/-- In an orderly state nobody waits for itself. -/
theorem Orderly.acyclic {s : LoaderSystem α V cfg} (h : Orderly hash s) : Acyclic s.WaitsFor := by
  have hflight : ∀ {p : Party} {r r' : Resource}, s.Wants p r → s.Holds p r' → ∀ f, r = .flight f →
      ∀ j, r' ≠ .call j := by
    rintro p r r' hwants hholds f rfl j rfl
    cases p with
    | inl i =>
        obtain ⟨rfl, x, hx, rfl⟩ := hholds
        exact h.landed x hx f hwants.1.1
    | inr k => exact hwants.elim
  by_cases hwait : ∃ p j, s.Wants p (.job j) ∨ s.Wants p (.exit j)
  · -- somebody waits for a worker: it is `close`, and nobody wants the lifecycle lock for the sake of a job
    have hclosing : ∀ (i : ℕ) (th : Thread α V T), s.At i th → th.shutting = true →
        s.shuttingDown = true ∧ s.onJob i = false := by
      rintro i th ⟨hth, t, ht, htodo⟩ hshut
      have hclosing := (h.solo i th hth hshut).1
      have hopen : s.sys.shared.lifecycle ≠ .closed := by
        rw [hclosing]
        simp
      have hheld : Lock.lifecycle ∈ t.held := by
        rw [(h.ranked.threads i th t hth ht).held_eq htodo]
        refine List.mem_append_right _ ?_
        rw [Thread.base, if_pos hshut]
        exact List.mem_singleton_self _
      have hrole := Thread.role_of_shutting hshut
      exact ⟨LockSystem.shuttingDown_iff.mpr ⟨hopen, i, th, t, hth, ht, hrole, hheld⟩,
        h.calm.apart i th t hth ht hrole hheld hopen⟩
    obtain ⟨i₀, th₀, hat₀, hshut₀⟩ : ∃ i th, s.At i th ∧ th.shutting = true := by
      obtain ⟨p, j, hwants | hwants⟩ := hwait
      · cases p with
        | inl i => exact ⟨i, _, hwants.1, rfl⟩
        | inr k => exact hwants.elim
      · cases p with
        | inl i =>
            obtain ⟨⟨failure, hdrain⟩, -⟩ := hwants
            exact ⟨i, _, hdrain, rfl⟩
        | inr k => exact hwants.elim
    have hshut := (hclosing i₀ th₀ hat₀ hshut₀).1
    have hworker : ∀ i, s.onJob i = true → ¬ s.Wants (.inl i) (.lock .lifecycle) := by
      rintro i hjob ⟨t, ht, hhead⟩
      have hi : i < s.sys.threads.length := h.ranked.length_eq ▸ (List.getElem?_eq_some_iff.mp ht).1
      have hfalse := pending_eq_false_iff.mp
        (h.calm.worker hshut i _ t (List.getElem?_eq_getElem hi) ht hjob).1
      exact absurd rfl (hfalse _ (List.mem_of_mem_head? (by rw [hhead]; rfl))).1
    refine acyclic_of_ordered (s.level true) fun p r r' hwants hholds => ?_
    refine LoaderSystem.level_lt h.ranked h.nested true hwants hholds ?_ ?_ (hflight hwants hholds) fun _ _ => rfl
    · rintro rfl j
      cases p with
      | inl i =>
          refine ⟨?_, ?_, ?_⟩
          · rintro rfl
            obtain ⟨-, th, hth, hbusy⟩ := hholds
            exact hworker i (LoaderSystem.onJob_of_worker hth (Thread.role_of_busy (by omega))) hwants
          · rintro rfl
            obtain ⟨-, th, hth, hrole, -⟩ := hholds
            exact hworker i (LoaderSystem.onJob_of_worker hth hrole) hwants
          · rintro rfl
            obtain ⟨rfl, -⟩ := hholds
            by_contra hjob
            exact hworker i (by simpa using hjob) hwants
      | inr k =>
          refine ⟨?_, ?_, ?_⟩
          · rintro rfl
            exact hholds.elim
          · rintro rfl
            exact hholds.elim
          · rintro rfl
            exact hholds.elim
    · -- the `close` that waits is not called for the sake of a job
      rintro i th rfl hth hshutting
      have honly := (h.solo i₀ th₀ hat₀.1 hshut₀).2 i th hth hshutting
      rw [honly, (hclosing i₀ th₀ hat₀ hshut₀).2]
      rfl
  · -- nobody waits for a worker: what the workers have to do makes no edge
    have hlocks : Acyclic (Waits (fun p r => s.Holds p r ∧ ∀ j, r ≠ .job j ∧ r ≠ .exit j) s.Wants) := by
      refine acyclic_of_ordered (s.level false) fun p r r' hwants hholds => ?_
      refine LoaderSystem.level_lt h.ranked h.nested false hwants hholds.1 ?_ (fun _ _ _ _ _ => rfl)
        (hflight hwants hholds.1) ?_
      · exact fun _ j => ⟨(hholds.2 j).1, (hholds.2 j).2, fun _ => rfl⟩
      · rintro j (hr | hr)
        · exact absurd hr (hholds.2 j).1
        · exact absurd hr (hholds.2 j).2
    refine hlocks.mono ?_
    rintro p q ⟨r, hwants, hholds⟩
    refine ⟨r, hwants, hholds, fun j => ⟨?_, ?_⟩⟩
    · rintro rfl
      exact hwait ⟨p, j, .inl hwants⟩
    · rintro rfl
      exact hwait ⟨p, j, .inr hwants⟩

/-- **No wait cycle**: in every run in which `close` and the lifecycle checks of a `PreloadKey` do not meet and no call
of a loader joins a flight, nobody waits for itself through others. -/
theorem no_wait_cycle {now : T} {src : Source α V} {ls : List (LoaderLabel α V T)} {s : LoaderSystem α V cfg}
    (hrun : loaderExec cfg hash (LoaderSystem.initial cfg now src) ls = some s)
    (hapart : Transition.Along (loaderStep cfg hash)
      (fun s l => s.sparesPreloads l = true ∧ s.joinsFlight hash l = false)
      (LoaderSystem.initial cfg now src) ls) : Acyclic s.WaitsFor := by
  have hsolo : Solo (LoaderSystem.initial (α := α) (V := V) cfg now src).sys := by
    intro i th hi
    cases hi
  have hinitial : Orderly hash (LoaderSystem.initial cfg now src) :=
    ⟨base_initial cfg hash now src, ranked_initial now src, hsolo, LoaderSystem.nested_initial now src,
      calm_initial now src, fun x hx => by cases hx⟩
  exact (Transition.run_invariant (fun s l s' hP hs h => h.step hP.1 hP.2 hs) hrun hapart hinitial).acyclic

/-- `close` in `join_until` waits for a worker with a job to do. -/
theorem LoaderSystem.waitsFor_worker {s : LoaderSystem α V cfg} {i j : ℕ} {th : Thread α V T}
    (hi : s.sys.threads[i]? = some Thread.closeJoin) (htodo : s.locks[i]?.map LockThread.todo = some [])
    (hpool : s.sys.shared.poolStarted = true) (hunfinished : 0 < s.sys.shared.queue.unfinishedTasks)
    (hj : s.sys.threads[j]? = some th) (hbusy : th.busy = 1) : s.WaitsFor (.inl i) (.inl j) := by
  obtain ⟨t, ht, htodo⟩ := Option.map_eq_some_iff.mp htodo
  exact ⟨.job j, ⟨⟨hi, t, ht, htodo⟩, hpool, hunfinished⟩, rfl, th, hj, hbusy⟩

/-- Who is about to take the lifecycle lock waits for a thread that holds it. -/
theorem LoaderSystem.waitsFor_holder {s : LoaderSystem α V cfg} {i j : ℕ} {as : List (Action Lock)} {l : Lock}
    (hi : s.locks[i]?.map LockThread.todo = some (Action.acquire l :: as))
    (hj : s.locks[j]?.map LockThread.held = some [l]) : s.WaitsFor (.inl i) (.inl j) := by
  obtain ⟨t, ht, htodo⟩ := Option.map_eq_some_iff.mp hi
  obtain ⟨t', ht', hheld⟩ := Option.map_eq_some_iff.mp hj
  exact ⟨.lock l, ⟨t, ht, by rw [htodo]; rfl⟩, t', ht', by rw [hheld]; exact List.mem_singleton_self _⟩

/-- The labels of a run: a worker takes a `PreloadKey`, and `close` comes to `join_until` while its loader
is still at work. -/
def closeDuringPreload : List (LoaderLabel ℕ ℕ ℕ) :=
  ([.env .start, .env (.call (.preload (some 1) .unset)), .move 1 {} false, .move 1 {} false,
    .move 1 {} false, .move 1 {} true, .move 1 {} false, .move 0 {} false, .env (.call (.close none)),
    .move 2 {} false, .move 2 {} false, .move 2 {} false, .move 2 {} false, .move 2 {} false,
    .move 2 {} false] : List (LockLabel ℕ ℕ ℕ)).map .lock

theorem no_wait_cycle_join :
    ∃ s : LoaderSystem ℕ ℕ (oneEntry .lru .writeBack 1 0 0),
      loaderExec _ (fun _ => 0) (LoaderSystem.initial _ 0 .empty) closeDuringPreload = some s ∧
        s.WaitsFor (.inl 2) (.inl 0) ∧ Acyclic s.WaitsFor := by
  have heval : ((loaderExec (oneEntry .lru .writeBack 1 0 0) (fun _ => 0)
      (LoaderSystem.initial _ 0 .empty) closeDuringPreload).map
        fun s : LoaderSystem ℕ ℕ (oneEntry .lru .writeBack 1 0 0) =>
          decide (s.sys.threads[2]? = some Thread.closeJoin ∧ s.locks[2]?.map LockThread.todo = some [] ∧
            s.sys.shared.poolStarted = true ∧ 0 < s.sys.shared.queue.unfinishedTasks ∧
            s.sys.threads[0]? = some (Thread.handling (.preloadKey 0 (some 1) .unset)))) = some true := by
    decide +kernel
  obtain ⟨s, hs, hfacts⟩ := Option.map_eq_some_iff.mp heval
  obtain ⟨hclose, htodo, hpool, hunfinished, hworker⟩ := of_decide_eq_true hfacts
  have hapart : Transition.Along (loaderStep (oneEntry .lru .writeBack 1 0 0) (fun _ => 0))
      (fun s l => s.sparesPreloads l = true ∧ s.joinsFlight (fun _ => 0) l = false)
      (LoaderSystem.initial _ 0 .empty) closeDuringPreload := by
    decide +kernel
  exact ⟨s, hs, LoaderSystem.waitsFor_worker hclose htodo hpool hunfinished hworker rfl,
    no_wait_cycle hs hapart⟩

/-- The loader of the run returns: the worker goes on to `put` and waits for the lifecycle lock. -/
theorem close_preload_cycle :
    ∃ s : LoaderSystem ℕ ℕ (oneEntry .lru .writeBack 1 0 0),
      loaderExec _ (fun _ => 0) (LoaderSystem.initial _ 0 .empty)
          (closeDuringPreload ++ [LoaderLabel.lock (.move 0 { loaded := some 7 } false)]) = some s ∧
        ¬ Acyclic s.WaitsFor := by
  have heval : ((loaderExec (oneEntry .lru .writeBack 1 0 0) (fun _ => 0)
      (LoaderSystem.initial _ 0 .empty) (closeDuringPreload ++ [LoaderLabel.lock (.move 0 { loaded := some 7 } false)])).map
        fun s : LoaderSystem ℕ ℕ (oneEntry .lru .writeBack 1 0 0) =>
          decide (s.sys.threads[2]? = some Thread.closeJoin ∧ s.locks[2]?.map LockThread.todo = some [] ∧
            s.sys.shared.poolStarted = true ∧ 0 < s.sys.shared.queue.unfinishedTasks ∧
            s.sys.threads[0]? = some (Thread.entering (.put (some 1) 7 .unset) .preloader) ∧
            s.locks[0]?.map LockThread.todo = some [Action.acquire Lock.lifecycle] ∧
            s.locks[2]?.map LockThread.held = some [Lock.lifecycle])) = some true := by
    decide +kernel
  obtain ⟨s, hs, hfacts⟩ := Option.map_eq_some_iff.mp heval
  obtain ⟨hclose, htodo, hpool, hunfinished, hworker, hwants, hholds⟩ := of_decide_eq_true hfacts
  exact ⟨s, hs, not_acyclic_of_mutual
    (LoaderSystem.waitsFor_worker hclose htodo hpool hunfinished hworker rfl)
    (LoaderSystem.waitsFor_holder hwants hholds)⟩

/-- The loader of the run calls `get` instead: the call waits for the lifecycle lock, the worker for the call, and
`close` for the worker. -/
theorem close_loader_call_cycle :
    ∃ s : LoaderSystem ℕ ℕ (oneEntry .lru .writeBack 1 0 0),
      loaderExec _ (fun _ => 0) (LoaderSystem.initial _ 0 .empty)
          (closeDuringPreload ++ [LoaderLabel.nested 0 (.get (some 2))]) = some s ∧ ¬ Acyclic s.WaitsFor := by
  have heval : ((loaderExec (oneEntry .lru .writeBack 1 0 0) (fun _ => 0)
      (LoaderSystem.initial _ 0 .empty) (closeDuringPreload ++ [LoaderLabel.nested 0 (.get (some 2))])).map
        fun s : LoaderSystem ℕ ℕ (oneEntry .lru .writeBack 1 0 0) =>
          decide (s.sys.threads[2]? = some Thread.closeJoin ∧ s.locks[2]?.map LockThread.todo = some [] ∧
            s.sys.shared.poolStarted = true ∧ 0 < s.sys.shared.queue.unfinishedTasks ∧
            s.sys.threads[0]? = some (Thread.handling (.preloadKey 0 (some 1) .unset)) ∧
            s.locks[3]?.map LockThread.todo = some [Action.acquire Lock.lifecycle] ∧
            s.locks[2]?.map LockThread.held = some [Lock.lifecycle] ∧ s.isOver 3 = false ∧
            s.calls = [⟨0, 3, true⟩])) = some true := by
    decide +kernel
  obtain ⟨s, hs, hfacts⟩ := Option.map_eq_some_iff.mp heval
  obtain ⟨hclose, htodo, hpool, hunfinished, hworker, hwants, hholds, hunder, hcalls⟩ := of_decide_eq_true hfacts
  have hcall : (⟨0, 3, true⟩ : LoaderCall) ∈ s.calls := by
    rw [hcalls]
    exact List.mem_singleton_self _
  have hhost : s.WaitsFor (.inl 0) (.inl 3) := ⟨.call 3, ⟨hunder, _, hcall, rfl, rfl⟩, rfl, _, hcall, rfl⟩
  refine ⟨s, hs, fun hacyclic => hacyclic (.inl 2) ?_⟩
  exact ((Relation.TransGen.single (LoaderSystem.waitsFor_worker hclose htodo hpool hunfinished hworker rfl)).tail
    hhost).tail (LoaderSystem.waitsFor_holder hwants hholds)

end CacheLab
