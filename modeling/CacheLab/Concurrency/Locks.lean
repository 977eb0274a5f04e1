import CacheLab.System.Flights
import CacheLab.Lib.WaitFor

/-!
# The locks of a running cache

In the transition system of `System.Step` a lock section is one atomic step. Here the same steps are taken
with the lifecycle lock, the shard locks and the runtime lock in the open: a thread acquires what its next
step needs, takes the step, and releases, and other threads move in between.

* `before` lists what a thread does with locks in front of the step at its point, `after` what it does
  behind it, as the source does: the section of a shard inside its lock, `_inc_runtime` inside the runtime
  lock, the second lifecycle check of `_maybe_warn_cache_not_started` (a visit: a flag decides), `close`
  inside the lifecycle lock from its first step to its last.
* An observer is a call that takes locks and is no thread of `System`: `stats`, `last_snapshot`,
  `scheduler_tick`, and `start` on a cache that is not new.
* What is waited for without a lock comes in `Properties.WaitCycle`, and the calls that loaders make in
  `Concurrency.LoaderCalls`.

The lifecycle lock and the shard locks are reentrant in the source; no thread takes one that it holds.
`lockExec_refines` says that the runs are runs of the system.
-/

set_option linter.unusedSectionVars false

namespace CacheLab

open WaitFor

variable {α V T : Type} [DecidableEq α] [LinearOrder T] [Zero T] [Add T] [Sub T]

variable {cfg : AcceptedConfig T} {hash : Key α → ℕ}

/-- The locks.
Source: `core/cache.py` `Cache.__init__`, `concurrency/shards.py` `CacheShard.lock` -/
inductive Lock
  | lifecycle
  | shard (i : ℕ)
  | runtime
  deriving DecidableEq

/-- `_inc_runtime`, and every other use of the runtime lock.
Source: `core/cache.py` `Cache._inc_runtime` -/
def incRuntime : List (Action Lock) := [.acquire .runtime, .release .runtime]

/-- The shards, one after the other. -/
def eachShard (n : ℕ) : List (Action Lock) :=
  ((List.range n).map Lock.shard).flatMap fun l => [.acquire l, .release l]

/-- The lock of the shard of a key. -/
def lockFor (cfg : AcceptedConfig T) (hash : Key α → ℕ) (key : Key α) : Lock :=
  .shard (shardFor cfg hash key)

/-- The key whose shard an operation locks in its first section. -/
def Op.locks : Op α V T → Option (Key α)
  | get key => some key
  | contains key => some key
  | inspect key => some key
  | put key _ _ => some key
  | delete key => some key
  | getOrCompute key _ => some key
  | restoreEntryMetadata key _ => some key
  | _ => none

/-- The lock that is held while the step at a point is taken, besides the lifecycle lock of `close`.
Source: `core/cache.py`, the `with` statements of `Cache` -/
def Thread.guard (cfg : AcceptedConfig T) (hash : Key α → ℕ) : Thread α V T → Option Lock
  | .entering _ _ => some .lifecycle
  | .running op _ => op.locks.map (lockFor cfg hash)
  | .clearing i _ => if i < cfg.shardCount then some (.shard i) else none
  | .sizing i _ => if i < cfg.shardCount then some (.shard i) else none
  | .dumping i _ _ => if i < cfg.shardCount then some (.shard i) else none
  | .expiring i _ => if i < cfg.shardCount then some (.shard i) else none
  | .releasing (t :: _) _ => some (.shard t.job.shardIndex)
  | .publishing key _ _ => some (lockFor cfg hash key)
  | .failing key _ _ => some (lockFor cfg hash key)
  | .handling (.expireShard i) => some (.shard i)
  | .handling (.flushWriteBack t) => some (.shard t.job.shardIndex)
  | .dropped t => some (.shard t.job.shardIndex)
  | .landed t => some (.shard t.job.shardIndex)
  | .closeCollect i => some (.shard i)
  | .closeRelease i (_ :: _) => some (.shard i)
  | .syncCollect i _ => if i < cfg.shardCount then some (.shard i) else none
  | .syncNext i (_ :: _) _ => some (.shard i)
  | .syncClean i _ _ _ => some (.shard i)
  | .syncSettle i _ _ _ _ => some (.shard i)
  | _ => none

/-- The points of `close` between its first step and its last. -/
def Thread.shutting : Thread α V T → Bool
  | .closeCollect _ => true
  | .closeEnqueue _ _ => true
  | .closeRelease _ _ => true
  | .closeJoin => true
  | .syncCollect _ _ => true
  | .syncNext _ _ _ => true
  | .syncTry _ _ _ _ _ => true
  | .syncClean _ _ _ _ => true
  | .syncSettle _ _ _ _ _ => true
  | .closeStop _ => true
  | .closeDrain _ => true
  | _ => false

/-- Lock actions in front of the guard: a snapshot reads every shard and the counters and is stored before
its job is counted, and a failed flush of `close` is counted before its marks are released.
Source: `core/cache.py` `Cache.stats`, `Cache._handle_job`, `Cache._flush_dirty_entries_sync` -/
def Thread.preamble (cfg : AcceptedConfig T) : Thread α V T → List (Action Lock)
  | .handling (.snapshotStats _) => eachShard cfg.shardCount ++ incRuntime ++ incRuntime
  | .syncSettle _ _ false _ _ => incRuntime
  | _ => []

/-- What a thread does with locks in front of the step at its point. -/
def Thread.before (cfg : AcceptedConfig T) (hash : Key α → ℕ) (th : Thread α V T) : List (Action Lock) :=
  th.preamble cfg ++ (th.guard cfg hash).toList.map .acquire

/-- Counting behind the handler of a worker that is done. -/
def counted : Thread α V T → List (Action Lock)
  | .finishing => incRuntime
  | _ => []

/-- The second lifecycle check: of `put` once the first one passed, of `preload` once its arguments passed
as well.
Source: `core/cache.py` `Cache._maybe_warn_cache_not_started` -/
def Op.warns (passed : Bool) (th' : Thread α V T) : Op α V T → List (Action Lock)
  | put _ _ _ => if passed then [.visit .lifecycle] else []
  | preload _ _ =>
      match th' with
      | .running _ _ => [.visit .lifecycle]
      | _ => []
  | _ => []

/-- What a thread does with locks behind the step at its point. A stale flush job is counted inside the
shard lock.
Source: `core/cache.py`, the `with` statements of `Cache` -/
def Thread.after (cfg : AcceptedConfig T) (hash : Key α → ℕ) (lifecycle : LifecycleState)
    (th th' : Thread α V T) : List (Action Lock) :=
  let unlock := (th.guard cfg hash).toList.map Action.release
  match th with
  | .entering (.close _) _ => if th'.shutting then [] else unlock
  | .entering op _ =>
      unlock ++ op.warns (decide (lifecycle = .created ∨ lifecycle = .started)) th' ++ counted th'
  | .handling (.flushWriteBack _) =>
      match th' with
      | .finishing => incRuntime ++ unlock ++ incRuntime
      | _ => unlock
  | .failed t => if 0 < t.job.retriesLeft then incRuntime ++ incRuntime else incRuntime
  | .syncCollect i failure =>
      if i < cfg.shardCount then unlock else if failure then incRuntime else []
  | .syncNext _ _ _ =>
      match th' with
      | .syncNext _ _ _ => incRuntime ++ unlock
      | _ => unlock
  | .syncTry _ _ _ _ _ =>
      match th' with
      | .syncTry _ _ _ _ _ => incRuntime
      | _ => []
  | .closeEnqueue _ _ => if th'.shutting then [] else [.release .lifecycle]
  | .closeDrain failure => .release .lifecycle :: if failure then eachShard cfg.shardCount else []
  | _ => unlock ++ counted th'

/-! ### The transition system with locks -/

/-- Calls that take locks and are no threads of the system. -/
inductive Observer
  | stats
  | lastSnapshot
  | schedulerTick
  | start

/-- Source: `core/cache.py` `Cache.stats`, `Cache.last_snapshot`, `Cache.scheduler_tick`, `Cache.start` -/
def Observer.script (cfg : AcceptedConfig T) : Observer → List (Action Lock)
  | stats => eachShard cfg.shardCount ++ incRuntime
  | lastSnapshot => incRuntime
  | schedulerTick => [.acquire .lifecycle, .release .lifecycle]
  | start => [.acquire .lifecycle, .release .lifecycle]

/-- A system, what each of its threads holds and has to do with locks, and the observers. -/
structure LockSystem (α V : Type) {T : Type} [DecidableEq α] [LinearOrder T] [Zero T]
    (cfg : AcceptedConfig T) where
  sys : System α V cfg
  locks : List (LockThread Lock)
  observers : List (LockThread Lock)

/-- A step: something that happens to the system, an observer that comes or moves, or the next lock action
or step of a thread. -/
inductive LockLabel (α V T : Type)
  | env (label : Label α V T)
  | observe (observer : Observer)
  | look (observer : ℕ)
  | move (thread : ℕ) (choice : Choice α V) (skip : Bool)

namespace LockSystem

/-- Nobody holds the lock. -/
def free (s : LockSystem α V cfg) (l : Lock) : Bool :=
  (s.locks ++ s.observers).all fun t => decide (l ∉ t.held)

/-- A fresh cache. -/
def initial (cfg : AcceptedConfig T) (now : T) (src : Source α V) : LockSystem α V cfg :=
  ⟨CacheLab.initial cfg now src, [], []⟩

end LockSystem

/-- A thread at a point, with the lock actions in front of its step to do. -/
def lockThread (cfg : AcceptedConfig T) (hash : Key α → ℕ) (th : Thread α V T) : LockThread Lock :=
  ⟨[], th.before cfg hash⟩

/-- Whether the environment can do this: `start` takes the lifecycle lock, and threads move with
`LockLabel.move`. -/
def LockSystem.admits (s : LockSystem α V cfg) : Label α V T → Bool
  | .start => s.free .lifecycle
  | .run _ _ => false
  | _ => true

/-- One step of the system with locks. A thread without lock actions to do takes its step. -/
def lockStep (cfg : AcceptedConfig T) (hash : Key α → ℕ) (s : LockSystem α V cfg) :
    LockLabel α V T → Option (LockSystem α V cfg)
  | .env l =>
      if s.admits l then
        (step cfg hash s.sys l).map fun sys' =>
          { s with
            sys := sys'
            locks := s.locks ++ (sys'.threads.drop s.sys.threads.length).map (lockThread cfg hash) }
      else none
  | .observe observer => some { s with observers := s.observers ++ [⟨[], observer.script cfg⟩] }
  | .look k =>
      s.observers[k]?.bind fun t =>
        (t.next s.free true).map fun t' => { s with observers := s.observers.set k t' }
  | .move i c skip =>
      s.locks[i]?.bind fun t =>
        match t.todo with
        | [] =>
            s.sys.threads[i]?.bind fun th =>
              (threadStep hash s.sys.shared c th).map fun r =>
                { s with
                  sys := { shared := r.1, threads := s.sys.threads.set i r.2 }
                  locks := s.locks.set i
                    ⟨t.held, th.after cfg hash s.sys.shared.lifecycle r.2 ++ r.2.before cfg hash⟩ }
        | _ :: _ => (t.next s.free skip).map fun t' => { s with locks := s.locks.set i t' }

/-- A run of the system with locks. -/
def lockExec (cfg : AcceptedConfig T) (hash : Key α → ℕ) (s : LockSystem α V cfg)
    (ls : List (LockLabel α V T)) : Option (LockSystem α V cfg) :=
  Transition.run (lockStep cfg hash) s ls

/-! ### Refinement -/

/-- The step of the system behind a step with locks, if it is one. -/
def LockSystem.label (s : LockSystem α V cfg) : LockLabel α V T → Option (Label α V T)
  | .env l => some l
  | .move i c _ => if s.locks[i]?.any (fun t => t.todo = []) then some (.run i c) else none
  | _ => none

/-- What a step with locks can be. -/
theorem lockStep_cases {s s' : LockSystem α V cfg} {l : LockLabel α V T}
    (h : lockStep cfg hash s l = some s') :
    (∃ l', l = .env l' ∧ s.admits l' = true ∧ step cfg hash s.sys l' = some s'.sys ∧
        s'.locks = s.locks ++ (s'.sys.threads.drop s.sys.threads.length).map (lockThread cfg hash) ∧
        s'.observers = s.observers) ∨
      (∃ observer, l = .observe observer ∧ s'.sys = s.sys ∧ s'.locks = s.locks ∧
        s'.observers = s.observers ++ [⟨[], observer.script cfg⟩]) ∨
      (∃ k t t', l = .look k ∧ s.observers[k]? = some t ∧ t.next s.free true = some t' ∧
        s'.sys = s.sys ∧ s'.locks = s.locks ∧ s'.observers = s.observers.set k t') ∨
      (∃ i c skip t th th', l = .move i c skip ∧ s.locks[i]? = some t ∧ t.todo = [] ∧
        s.sys.threads[i]? = some th ∧ threadStep hash s.sys.shared c th = some (s'.sys.shared, th') ∧
        s'.sys.threads = s.sys.threads.set i th' ∧
        s'.locks = s.locks.set i
          ⟨t.held, th.after cfg hash s.sys.shared.lifecycle th' ++ th'.before cfg hash⟩ ∧
        s'.observers = s.observers) ∨
      ∃ i c skip t t', l = .move i c skip ∧ s.locks[i]? = some t ∧ t.todo ≠ [] ∧
        t.next s.free skip = some t' ∧ s'.sys = s.sys ∧ s'.locks = s.locks.set i t' ∧
        s'.observers = s.observers := by
  cases l with
  | env l' =>
      simp only [lockStep] at h
      split_ifs at h with hadmits
      obtain ⟨sys', hsys, rfl⟩ := Option.map_eq_some_iff.mp h
      exact .inl ⟨l', rfl, hadmits, hsys, rfl, rfl⟩
  | observe observer =>
      cases h
      exact .inr (.inl ⟨observer, rfl, rfl, rfl, rfl⟩)
  | look k =>
      obtain ⟨t, ht, h⟩ := Option.bind_eq_some_iff.mp h
      obtain ⟨t', ht', rfl⟩ := Option.map_eq_some_iff.mp h
      exact .inr (.inr (.inl ⟨k, t, t', rfl, ht, ht', rfl, rfl, rfl⟩))
  | move i c skip =>
      obtain ⟨t, ht, h⟩ := Option.bind_eq_some_iff.mp h
      split at h
      case h_1 htodo =>
        obtain ⟨th, hth, h⟩ := Option.bind_eq_some_iff.mp h
        obtain ⟨⟨shared', th'⟩, hstep, rfl⟩ := Option.map_eq_some_iff.mp h
        exact .inr (.inr (.inr (.inl ⟨i, c, skip, t, th, th', rfl, ht, htodo, hth, hstep, rfl, rfl, rfl⟩)))
      case h_2 a as htodo =>
        obtain ⟨t', ht', rfl⟩ := Option.map_eq_some_iff.mp h
        refine .inr (.inr (.inr (.inr ⟨i, c, skip, t, t', rfl, ht, ?_, ht', rfl, rfl, rfl⟩)))
        rw [htodo]
        exact List.cons_ne_nil _ _

/-- **Runs with locks are runs of the system.** -/
theorem lockExec_refines {s s' : LockSystem α V cfg} {ls : List (LockLabel α V T)}
    (h : lockExec cfg hash s ls = some s') :
    exec cfg hash s.sys (Transition.runImage (lockStep cfg hash) LockSystem.label s ls) = some s'.sys := by
  have hanswer : ∀ (s : LockSystem α V cfg) t l l' s', True → t = s.sys → s.label l = some l' →
      lockStep cfg hash s l = some s' → ∃ t', step cfg hash t l' = some t' ∧ t' = s'.sys := by
    rintro s t l l' s' - rfl hlabel hs
    rcases lockStep_cases hs with ⟨l₀, rfl, -, hstep, -⟩ | ⟨observer, rfl, -⟩ | ⟨k, t, t', rfl, -⟩ |
      ⟨i, c, skip, t, th, th', rfl, ht, htodo, hth, hstep, hthreads, -⟩ |
      ⟨i, c, skip, t, t', rfl, ht, htodo, -⟩
    · obtain rfl : l₀ = l' := Option.some.inj hlabel
      exact ⟨_, hstep, rfl⟩
    · cases hlabel
    · cases hlabel
    · obtain rfl : Label.run i c = l' := by simpa [LockSystem.label, ht, htodo] using hlabel
      refine ⟨s'.sys, ?_, rfl⟩
      simp only [step, hth, Option.bind_some, hstep, Option.map_some, ← hthreads]
    · simp [LockSystem.label, ht, htodo] at hlabel
  have hsilent : ∀ (s : LockSystem α V cfg) t l s', True → t = s.sys → s.label l = none →
      lockStep cfg hash s l = some s' → t = s'.sys := by
    rintro s t l s' - rfl hlabel hs
    rcases lockStep_cases hs with ⟨l₀, rfl, -⟩ | ⟨observer, rfl, hsys, -⟩ |
      ⟨k, t, t', rfl, -, -, hsys, -⟩ | ⟨i, c, skip, t, th, th', rfl, ht, htodo, -⟩ |
      ⟨i, c, skip, t, t', rfl, -, -, -, hsys, -⟩
    · cases hlabel
    · exact hsys.symm
    · exact hsys.symm
    · simp [LockSystem.label, ht, htodo] at hlabel
    · exact hsys.symm
  obtain ⟨v, hv, rfl⟩ := Transition.run_runImage hanswer hsilent
    (Transition.along_of_forall (fun _ _ _ => trivial) s) rfl h
  exact hv

end CacheLab
