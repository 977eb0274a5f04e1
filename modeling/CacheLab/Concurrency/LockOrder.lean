import CacheLab.Concurrency.Locks

/-!
# The order of the locks

The lifecycle lock comes before the shard locks and these before the runtime lock: every thread and every
observer takes locks in this order, one shard at a time (`Ranked`). Nothing is said here about what is
waited for without a lock.
-/

set_option linter.unusedSectionVars false

namespace CacheLab

open WaitFor

variable {α V T : Type} [DecidableEq α] [LinearOrder T] [Zero T] [Add T] [Sub T]

variable {cfg : AcceptedConfig T} {hash : Key α → ℕ}

/-- The place of a lock in the order. Two is the place of what a worker is waited for. -/
def Lock.level : Lock → ℕ
  | lifecycle => 1
  | shard _ => 3
  | runtime => 4

/-- What `close` holds from its first step to its last. -/
def Thread.base (th : Thread α V T) : List Lock := if th.shutting then [.lifecycle] else []

/-- The locks that a thread holds when it takes the step at its point. -/
def Thread.holdsAt (cfg : AcceptedConfig T) (hash : Key α → ℕ) (th : Thread α V T) : List Lock :=
  (th.guard cfg hash).toList ++ th.base

/-! ### The control flow of `close` -/

/-- A point of `close` behind its first step belongs to a closing thread. -/
theorem Thread.role_of_shutting {th : Thread α V T} (h : th.shutting = true) : th.role = .closer := by
  cases th <;> first | rfl | cases h

/-- A closing thread is about to take the lifecycle lock or behind its first step. -/
theorem Thread.shutting_of_role {th : Thread α V T} (h : th.role = .closer) :
    th.shutting = true ∨ ∃ flush caller, th = .entering (.close flush) caller := by
  cases th with
  | entering op caller =>
      cases op with
      | close flush => exact .inr ⟨flush, caller, rfl⟩
      | _ => cases caller <;> cases h
  | running op caller => cases caller <;> cases h
  | enqueuing ts caller => cases caller <;> cases h
  | releasing ts caller => cases caller <;> cases h
  | _ => first | exact .inl rfl | cases h

section Steps

variable {s s' : Shared α V cfg} {c : Choice α V} {th th' : Thread α V T}

/-- A thread behind the first step of `close` goes on with it. -/
theorem closeStep_of_shutting (hshut : th.shutting = true)
    (h : threadStep hash s c th = some (s', th')) : closeStep s c th = some (s', th') := by
  rcases threadStep_cases h with h | h | h
  · cases th <;> first | (cases hshut; done) | cases h
  · cases th <;> first | (cases hshut; done) | cases h
  · exact h

/-- A step of `close` stays in `close`, but for the last one and for one that raises. -/
theorem closeStep_shutting (h : closeStep s c th = some (s', th')) :
    th.shutting = true ∧
      (th'.shutting = true ∨ (∃ failure, th = .closeDrain failure) ∨ Leaves c s th s' th') := by
  have hnext : ∀ i, (closeNext cfg i : Thread α V T).shutting = true := by
    intro i
    unfold closeNext
    split_ifs <;> rfl
  cases th with
  | closeCollect i =>
      simp only [closeStep] at h
      split_ifs at h
      cases h
      exact ⟨rfl, .inl rfl⟩
  | closeEnqueue i ts =>
      cases ts with
      | nil =>
          cases h
          exact ⟨rfl, .inl (hnext i)⟩
      | cons t ts =>
          simp only [closeStep] at h
          split_ifs at h with hrej <;> cases h
          · exact ⟨rfl, .inr (.inr ⟨i, t, ts, rfl, hrej, rfl, rfl⟩)⟩
          · exact ⟨rfl, .inl rfl⟩
          · exact ⟨rfl, .inl rfl⟩
  | closeRelease i ts =>
      cases ts with
      | nil =>
          cases h
          exact ⟨rfl, .inl (hnext i)⟩
      | cons t ts =>
          obtain ⟨s₁, -, heq⟩ := Option.map_eq_some_iff.mp h
          cases heq
          exact ⟨rfl, .inl rfl⟩
  | closeJoin =>
      simp only [closeStep] at h
      split_ifs at h <;> cases h <;> exact ⟨rfl, .inl rfl⟩
  | syncCollect i failure =>
      simp only [closeStep] at h
      split_ifs at h <;> cases h <;> exact ⟨rfl, .inl rfl⟩
  | syncNext i ts failure =>
      cases ts with
      | nil =>
          cases h
          exact ⟨rfl, .inl rfl⟩
      | cons t ts =>
          simp only [closeStep] at h
          split_ifs at h <;> cases h <;> exact ⟨rfl, .inl rfl⟩
  | syncTry i t left ts failure =>
      simp only [closeStep] at h
      split_ifs at h
      · cases h
        cases t.job.operation <;> exact ⟨rfl, .inl rfl⟩
      · cases left <;> cases h <;> exact ⟨rfl, .inl rfl⟩
  | syncClean i t ts failure =>
      obtain ⟨s₁, -, heq⟩ := Option.map_eq_some_iff.mp h
      cases heq
      exact ⟨rfl, .inl rfl⟩
  | syncSettle i t success ts failure =>
      obtain ⟨s₁, -, heq⟩ := Option.map_eq_some_iff.mp h
      cases heq
      exact ⟨rfl, .inl rfl⟩
  | closeStop failure =>
      simp only [closeStep] at h
      split_ifs at h <;> cases h <;> exact ⟨rfl, .inl rfl⟩
  | closeDrain failure => exact ⟨rfl, .inr (.inl ⟨failure, rfl⟩)⟩
  | _ => cases h

/-- A step of a thread outside `close` stays outside. -/
theorem shutting_eq_false_of_control (h : Control s th s' th') (hrole : th.role ≠ .closer) :
    th'.shutting = false := by
  rcases h.role with hr | ⟨hr, -⟩
  · by_contra hshut
    rw [Bool.not_eq_false] at hshut
    exact hrole (hr ▸ Thread.role_of_shutting hshut)
  · exact absurd hr hrole

/-! ### The lists of lock actions -/

/-- The runtime lock comes last. -/
theorem follows_incRuntime {held : List Lock} (h : .runtime ∉ held) :
    Follows Lock.level held held incRuntime := by
  refine Follows.pair fun l hl => ?_
  cases l with
  | runtime => exact absurd hl h
  | _ => simp [Lock.level]

/-- The shards one after the other, with nothing but the lifecycle lock held. -/
theorem follows_eachShard {held : List Lock} (h : ∀ l ∈ held, l = .lifecycle) (n : ℕ) :
    Follows Lock.level held held (eachShard n) := by
  refine Follows.pairs fun l hl l' hl' => ?_
  obtain ⟨i, -, rfl⟩ := List.mem_map.mp hl
  rw [h l' hl']
  simp [Lock.level]

/-- Counting, with nothing held. -/
theorem follows_counted (th : Thread α V T) : Follows Lock.level [] [] (counted th) := by
  cases th with
  | finishing => exact follows_incRuntime (by simp)
  | _ => rfl

theorem Thread.mem_base {th : Thread α V T} {l : Lock} (h : l ∈ th.base) : l = .lifecycle := by
  unfold Thread.base at h
  split_ifs at h
  · exact List.mem_singleton.mp h
  · cases h

/-- A step is guarded by nothing, by a shard lock or, at the entrance of a call, by the lifecycle lock. -/
theorem Thread.guard_cases (th : Thread α V T) :
    th.guard cfg hash = none ∨ (∃ i, th.guard cfg hash = some (Lock.shard i)) ∨
      (th.guard cfg hash = some Lock.lifecycle ∧ ∃ op caller, th = .entering op caller) := by
  have hif : ∀ i, (if i < cfg.shardCount then some (Lock.shard i) else none) = none ∨
      ∃ j, (if i < cfg.shardCount then some (Lock.shard i) else none) = some (Lock.shard j) := by
    intro i
    split_ifs
    · exact .inr ⟨i, rfl⟩
    · exact .inl rfl
  cases th with
  | entering op caller => exact .inr (.inr ⟨rfl, op, caller, rfl⟩)
  | running op caller => cases op <;> first | exact .inl rfl | exact .inr (.inl ⟨_, rfl⟩)
  | clearing i ts => exact (hif i).imp id .inl
  | sizing i n => exact (hif i).imp id .inl
  | dumping i taken limit => exact (hif i).imp id .inl
  | expiring i n => exact (hif i).imp id .inl
  | syncCollect i failure => exact (hif i).imp id .inl
  | releasing ts caller => cases ts <;> first | exact .inl rfl | exact .inr (.inl ⟨_, rfl⟩)
  | handling job => cases job <;> first | exact .inl rfl | exact .inr (.inl ⟨_, rfl⟩)
  | closeRelease i ts => cases ts <;> first | exact .inl rfl | exact .inr (.inl ⟨_, rfl⟩)
  | syncNext i ts failure => cases ts <;> first | exact .inl rfl | exact .inr (.inl ⟨_, rfl⟩)
  | _ => first | exact .inl rfl | exact .inr (.inl ⟨_, rfl⟩)

theorem Thread.runtime_notMem_holdsAt (th : Thread α V T) : .runtime ∉ th.holdsAt cfg hash := by
  intro h
  rcases List.mem_append.mp h with h | h
  · have hguard : th.guard cfg hash = none ∨ _ := th.guard_cases
    rcases hguard with hg | ⟨i, hg⟩ | ⟨hg, -⟩ <;> simp [hg] at h
  · cases th.mem_base h

/-- **In front of a step** a thread takes locks in order, up to those that the step needs. -/
theorem Thread.follows_before (th : Thread α V T) :
    Follows Lock.level (th.holdsAt cfg hash) th.base (th.before cfg hash) := by
  have hpreamble : Follows Lock.level th.base th.base (th.preamble cfg) := by
    have hruntime : Lock.runtime ∉ th.base := fun h => by cases th.mem_base h
    cases th with
    | handling job =>
        cases job with
        | snapshotStats id =>
            exact ((follows_eachShard (fun l => Thread.mem_base) _).append
              (follows_incRuntime hruntime)).append (follows_incRuntime hruntime)
        | _ => rfl
    | syncSettle i t success ts failure =>
        cases success with
        | false => exact follows_incRuntime hruntime
        | true => rfl
    | _ => rfl
  refine hpreamble.append ?_
  have hguard : th.guard cfg hash = none ∨ _ := th.guard_cases
  rcases hguard with hg | ⟨i, hg⟩ | ⟨hg, op, caller, rfl⟩
  · simp [Thread.holdsAt, hg, Follows]
  · rw [Thread.holdsAt, hg]
    refine ⟨fun l hl => ?_, rfl⟩
    rw [th.mem_base hl]
    simp [Lock.level]
  · exact ⟨nofun, rfl⟩

/-- Behind a step the guard is given back. -/
theorem Thread.follows_unlock (th : Thread α V T) :
    Follows Lock.level th.base (th.holdsAt cfg hash) ((th.guard cfg hash).toList.map .release) := by
  cases hguard : th.guard cfg hash with
  | none => simp [Thread.holdsAt, hguard, Follows]
  | some l => simp [Thread.holdsAt, hguard, Follows]

/-- Behind a step outside `close` of a thread that keeps nothing. -/
theorem follows_after_of_base (hbase : th.base = []) (hbase' : th'.base = []) {as : List (Action Lock)}
    (has : Follows Lock.level [] [] as) :
    Follows Lock.level th'.base (th.holdsAt cfg hash)
      ((th.guard cfg hash).toList.map .release ++ as) := by
  have hunlock : Follows Lock.level th.base (th.holdsAt cfg hash) _ := th.follows_unlock
  rw [hbase] at hunlock
  rw [hbase']
  exact hunlock.append has

/-- Behind a step inside `close`. -/
theorem follows_after_of_shutting (hshut : th.shutting = true) (hshut' : th'.shutting = true) :
    Follows Lock.level th'.base (th.holdsAt cfg hash) ((th.guard cfg hash).toList.map .release) := by
  have hbase : th'.base = th.base := by
    rw [Thread.base, Thread.base, hshut, hshut']
  rw [hbase]
  exact th.follows_unlock

/-- Behind a step of `close`. -/
theorem follows_after_closeStep (h : closeStep s c th = some (s', th')) (lifecycle : LifecycleState) :
    Follows Lock.level th'.base (th.holdsAt cfg hash) (th.after cfg hash lifecycle th') := by
  obtain ⟨hshut, hcases⟩ := closeStep_shutting h
  rcases hcases with hshut' | ⟨failure, rfl⟩ | ⟨i, t, ts, rfl, -, -, rfl⟩
  · have hunlock : Follows Lock.level th'.base (th.holdsAt cfg hash)
        ((th.guard cfg hash).toList.map .release) := follows_after_of_shutting hshut hshut'
    have hcount : Follows Lock.level th'.base (th.holdsAt cfg hash)
        ((th.guard cfg hash).toList.map .release ++ counted th') := by
      have hnone : counted th' = [] := by
        cases th' <;> first | rfl | cases hshut'
      rw [hnone, List.append_nil]
      exact hunlock
    have hinner : Follows Lock.level (th.holdsAt cfg hash) (th.holdsAt cfg hash) incRuntime :=
      follows_incRuntime (Thread.runtime_notMem_holdsAt _)
    -- a step without a guard keeps exactly the lifecycle lock
    have hkeep : th.guard cfg hash = none → th.holdsAt cfg hash = th'.base := by
      intro hguard
      rw [Thread.holdsAt, hguard, Thread.base, Thread.base, hshut, hshut']
      rfl
    cases th with
    | syncCollect i failure =>
        simp only [Thread.after]
        split_ifs with hi hfailure
        · exact hunlock
        · rw [← hkeep (by simp [Thread.guard, hi])]
          exact hinner
        · exact hkeep (by simp [Thread.guard, hi])
    | syncNext i ts failure =>
        cases th' with
        | syncNext i' ts' failure' => exact hinner.append hunlock
        | _ => exact hunlock
    | syncTry i t left ts failure =>
        cases th' with
        | syncTry i' t' left' ts' failure' => exact hinner
        | _ => exact hkeep rfl
    | closeEnqueue i ts =>
        rw [Thread.after, if_pos hshut']
        exact hkeep rfl
    | closeDrain failure =>
        cases h
        cases hshut'
    | _ => first | exact hcount | cases hshut
  · cases h
    have hrest : Follows Lock.level [] [] (if failure then eachShard cfg.shardCount else []) := by
      split_ifs
      · exact follows_eachShard (by simp) _
      · rfl
    exact ⟨[], rfl, hrest⟩
  · exact ⟨[], rfl, rfl⟩

/-- **Behind a step** a thread gives back what it took, and what it takes in between it takes in order. -/
theorem Thread.follows_after (h : threadStep hash s c th = some (s', th')) (hcontrol : Control s th s' th')
    (lifecycle : LifecycleState) :
    Follows Lock.level th'.base (th.holdsAt cfg hash) (th.after cfg hash lifecycle th') := by
  by_cases hrole : th.role = .closer
  · rcases Thread.shutting_of_role hrole with hshut | ⟨flush, caller, rfl⟩
    · exact follows_after_closeStep (closeStep_of_shutting hshut h) lifecycle
    · simp only [Thread.after]
      split_ifs with hshut
      · rw [Thread.base, if_pos hshut]
        rfl
      · rw [Thread.base, if_neg hshut]
        exact ⟨[], rfl, rfl⟩
  · have hbase' : th'.base = [] := by
      rw [Thread.base, shutting_eq_false_of_control hcontrol hrole, if_neg (by simp)]
    have hbase : th.base = [] := by
      rw [Thread.base, if_neg fun hshut => hrole (Thread.role_of_shutting hshut)]
    have hcount : Follows Lock.level th'.base (th.holdsAt cfg hash)
        ((th.guard cfg hash).toList.map .release ++ counted th') :=
      follows_after_of_base hbase hbase' (follows_counted th')
    have hruntime : Follows Lock.level [] [] incRuntime := follows_incRuntime (by simp)
    cases th with
    | entering op caller =>
        have hwarns : ∀ passed, Follows Lock.level [] [] (op.warns passed th') := by
          intro passed
          cases op with
          | put key value ttl => cases passed <;> simp [Op.warns, Follows]
          | preload key ttl => cases th' <;> simp [Op.warns, Follows]
          | _ => rfl
        have hcall : Follows Lock.level th'.base ((Thread.entering op caller).holdsAt cfg hash)
            (((Thread.entering op caller).guard cfg hash).toList.map .release ++
              op.warns (decide (lifecycle = .created ∨ lifecycle = .started)) th' ++ counted th') := by
          rw [List.append_assoc]
          exact follows_after_of_base hbase hbase' ((hwarns _).append (follows_counted th'))
        cases op with
        | close flush => exact absurd rfl hrole
        | _ => exact hcall
    | handling job =>
        cases job with
        | flushWriteBack t =>
            have hplain : Follows Lock.level th'.base
                ((Thread.handling (.flushWriteBack t)).holdsAt cfg hash)
                (((Thread.handling (.flushWriteBack t)).guard cfg hash).toList.map .release ++ []) :=
              follows_after_of_base hbase hbase' rfl
            rw [List.append_nil] at hplain
            cases th' with
            | finishing =>
                have hinner : Follows Lock.level ((Thread.handling (.flushWriteBack t)).holdsAt cfg hash)
                    ((Thread.handling (.flushWriteBack t)).holdsAt cfg hash) incRuntime :=
                  follows_incRuntime (Thread.runtime_notMem_holdsAt _)
                simp only [Thread.after]
                rw [List.append_assoc]
                exact hinner.append (follows_after_of_base hbase hbase' hruntime)
            | _ => exact hplain
        | _ => exact hcount
    | failed t =>
        have hheld : (Thread.failed t).holdsAt cfg hash = [] := rfl
        simp only [Thread.after]
        rw [hheld, hbase']
        split_ifs
        · exact hruntime.append hruntime
        · exact hruntime
    | _ => first | exact hcount | exact absurd rfl hrole

end Steps

/-! ### One `close` at a time -/

/-- At most one thread is behind the first step of `close`, and the lifecycle says so. -/
def Solo (s : System α V cfg) : Prop :=
  ∀ (i : ℕ) (th : Thread α V T), s.threads[i]? = some th → th.shutting = true →
    s.shared.lifecycle = .closing ∧
      ∀ (j : ℕ) (th' : Thread α V T), s.threads[j]? = some th' → th'.shutting = true → j = i

/-- A step of a thread keeps it. -/
theorem Solo.moved {s s' : System α V cfg} {i : ℕ} {c : Choice α V} {th th' : Thread α V T}
    (h : Solo s) (hi : s.threads[i]? = some th)
    (hstep : threadStep hash s.shared c th = some (s'.shared, th'))
    (hcontrol : Control s.shared th s'.shared th') (hset : s'.threads = s.threads.set i th') : Solo s' := by
  have hphase := threadStep_phase hstep
  -- the moving thread is in `close` after its step: it was before, or it has just entered
  have hself : th'.shutting = true → s'.shared.lifecycle = .closing ∧
      ∀ (j : ℕ) (x : Thread α V T), s.threads[j]? = some x → x.shutting = true → j = i := by
    intro hshut'
    by_cases hrole : th.role = .closer
    · rcases Thread.shutting_of_role hrole with hshut | ⟨flush, caller, rfl⟩
      · refine ⟨?_, (h i th hi hshut).2⟩
        rcases hphase with hphase | ⟨flush, caller, rfl, -⟩ | ⟨failure, rfl, -⟩ | ⟨_, t, ts, -, -, -, rfl⟩
        · rw [← (h i th hi hshut).1]
          exact congrArg Prod.fst hphase
        · cases hshut
        · obtain ⟨-, rfl⟩ := Prod.mk.inj (Option.some.inj (closeStep_of_shutting hshut hstep))
          cases hshut'
        · cases hshut'
      · rcases threadStep_cases hstep with hs | hs | hs
        · rcases entering_cases hs with ⟨-, -, hop⟩ | ⟨-, -, -, -, -, hop⟩ | ⟨-, rfl, -⟩ | ⟨hs', hopen, -⟩
          · exact absurd rfl (hop flush)
          · exact absurd rfl (hop flush)
          · cases hshut'
          · refine ⟨by rw [hs'], fun j x hj hx => absurd (h j x hj hx).1 hopen⟩
        · cases hs
        · cases hs
    · rw [shutting_eq_false_of_control hcontrol hrole] at hshut'
      cases hshut'
  intro j x hj hx
  rw [hset] at hj ⊢
  rcases Transition.getElem?_set_cases hj with ⟨rfl, rfl⟩ | ⟨hji, hold⟩
  · refine ⟨(hself hx).1, fun k y hk hy => ?_⟩
    rcases Transition.getElem?_set_cases hk with ⟨rfl, -⟩ | ⟨-, hk⟩
    · rfl
    · exact (hself hx).2 k y hk hy
  · obtain ⟨hclosing, honly⟩ := h j x hold hx
    refine ⟨?_, fun k y hk hy => ?_⟩
    · rcases hphase with hphase | ⟨flush, caller, -, hphase⟩ | ⟨failure, rfl, -⟩ | ⟨_, t, ts, rfl, -⟩
      · rw [← hclosing]
        exact congrArg Prod.fst hphase
      · exact congrArg Prod.fst hphase
      · exact absurd (honly i _ hi rfl).symm hji
      · exact absurd (honly i _ hi rfl).symm hji
    · rcases Transition.getElem?_set_cases hk with ⟨rfl, rfl⟩ | ⟨-, hk⟩
      · exact absurd ((hself hy).2 j x hold hx) hji
      · exact honly k y hk hy

/-- What comes in from outside keeps it. -/
theorem Solo.env {s s' : System α V cfg} {l : Label α V T} (h : Solo s) (hl : ∀ i c, l ≠ .run i c)
    (hs : CacheLab.step cfg hash s l = some s') : Solo s' := by
  have hold : ∀ (i : ℕ) (th : Thread α V T), s'.threads[i]? = some th → th.shutting = true →
      s.threads[i]? = some th := by
    intro i th hi hshut
    rcases step_cases hs with ⟨now, -, -, rfl⟩ | ⟨new, hnew, -, hth, -⟩ | ⟨i, c, th, th', rfl, -⟩
    · exact hi
    · rw [hth] at hi
      rcases Transition.getElem?_append_cases hi with hi | hmem
      · exact hi
      · cases hnew th hmem <;> cases hshut
    · exact absurd rfl (hl _ _)
  have hlifecycle : s.shared.lifecycle = .closing → s'.shared.lifecycle = .closing := by
    intro hclosing
    cases l with
    | tick now =>
        simp only [CacheLab.step] at hs
        split_ifs at hs
        cases hs
        exact hclosing
    | start =>
        simp only [CacheLab.step, hclosing] at hs
        cases hs
    | call op =>
        cases hs
        exact hclosing
    | schedule i =>
        simp only [CacheLab.step] at hs
        split_ifs at hs
        cases hs
        exact hclosing
    | run i c => exact absurd rfl (hl i c)
  intro i th hi hshut
  obtain ⟨hclosing, honly⟩ := h i th (hold i th hi hshut) hshut
  exact ⟨hlifecycle hclosing, fun j x hj hx => honly j x (hold j x hj hx) hx⟩

/-! ### Every thread keeps to the order -/

/-- Every thread and every observer takes locks in order, a thread up to those that the step at its point
needs. -/
structure Ranked (hash : Key α → ℕ) (s : LockSystem α V cfg) : Prop where
  length_eq : s.locks.length = s.sys.threads.length
  threads : ∀ (i : ℕ) (th : Thread α V T) (t : LockThread Lock), s.sys.threads[i]? = some th →
    s.locks[i]? = some t → t.Follows Lock.level (th.holdsAt cfg hash)
  observers : ∀ t ∈ s.observers, t.Follows Lock.level []

/-- No threads, no observers. -/
theorem ranked_initial (now : T) (src : Source α V) :
    Ranked hash (LockSystem.initial cfg now src) where
  length_eq := rfl
  threads i th t hi := by cases hi
  observers t ht := by cases ht

/-- The lock actions of an observer. -/
theorem Observer.follows_script (observer : Observer) :
    Follows Lock.level [] [] (observer.script cfg) := by
  cases observer with
  | stats => exact (follows_eachShard (by simp) _).append (follows_incRuntime (by simp))
  | lastSnapshot => exact follows_incRuntime (by simp)
  | schedulerTick => exact Follows.pair (by simp)
  | start => exact Follows.pair (by simp)

/-- A thread that comes in new has no lock to hold before its first list. -/
theorem Thread.Fresh.follows {th : Thread α V T} (h : th.Fresh) :
    (lockThread cfg hash th).Follows Lock.level (th.holdsAt cfg hash) := by
  have hbase : th.base = [] := by
    cases h <;> rfl
  have hbefore : Follows Lock.level (th.holdsAt cfg hash) th.base (th.before cfg hash) :=
    th.follows_before
  rw [hbase] at hbefore
  exact hbefore

/-- Looking up a thread and its locks after a step of the environment. -/
theorem getElem?_env {s : LockSystem α V cfg} {new : List (Thread α V T)} (hlen : s.locks.length =
    s.sys.threads.length) {i : ℕ} {th : Thread α V T} {t : LockThread Lock}
    (hth : (s.sys.threads ++ new)[i]? = some th)
    (ht : (s.locks ++ new.map (lockThread cfg hash))[i]? = some t) :
    (s.sys.threads[i]? = some th ∧ s.locks[i]? = some t) ∨ (th ∈ new ∧ t = lockThread cfg hash th) := by
  by_cases hi : i < s.sys.threads.length
  · rw [List.getElem?_append_left hi] at hth
    rw [List.getElem?_append_left (hlen ▸ hi)] at ht
    exact .inl ⟨hth, ht⟩
  · rw [List.getElem?_append_right (not_lt.mp hi)] at hth
    rw [List.getElem?_append_right (hlen ▸ not_lt.mp hi), List.getElem?_map, hlen, hth] at ht
    exact .inr ⟨List.mem_of_getElem? hth, (Option.some.inj ht).symm⟩

/-- What a step of the environment does to the threads. -/
theorem lockStep_env {s s' : LockSystem α V cfg} {l : Label α V T} (hadmits : s.admits l = true)
    (hstep : step cfg hash s.sys l = some s'.sys)
    (hlocks : s'.locks = s.locks ++ (s'.sys.threads.drop s.sys.threads.length).map (lockThread cfg hash)) :
    ∃ new : List (Thread α V T), (∀ th ∈ new, th.Fresh) ∧ s'.sys.threads = s.sys.threads ++ new ∧
      s'.locks = s.locks ++ new.map (lockThread cfg hash) := by
  rcases step_cases hstep with ⟨now, -, -, hs⟩ | ⟨new, hnew, -, hth, -⟩ | ⟨i, c, th, th', rfl, -⟩
  · have hth : s'.sys.threads = s.sys.threads := by rw [hs]
    rw [hth, List.drop_length] at hlocks
    exact ⟨[], by simp, by simp [hth], hlocks⟩
  · rw [hth, List.drop_left] at hlocks
    exact ⟨new, hnew, hth, hlocks⟩
  · cases hadmits

/-- **Every step keeps to the order.** -/
theorem Ranked.step {s s' : LockSystem α V cfg} {l : LockLabel α V T} (h : Ranked hash s)
    (hcontrol : ∀ c (i : ℕ) (th th' : Thread α V T) sh', s.sys.threads[i]? = some th →
      threadStep hash s.sys.shared c th = some (sh', th') → Control s.sys.shared th sh' th')
    (hs : lockStep cfg hash s l = some s') : Ranked hash s' := by
  rcases lockStep_cases hs with ⟨l', -, hadmits, hstep, hlocks, hobs⟩ | ⟨observer, -, hsys, hlocks, hobs⟩ |
    ⟨k, t, t', -, hk, hnext, hsys, hlocks, hobs⟩ |
    ⟨i, c, skip, t, th, th', -, ht, htodo, hth, hstep, hthreads, hlocks, hobs⟩ |
    ⟨i, c, skip, t, t', -, ht, -, hnext, hsys, hlocks, hobs⟩
  · obtain ⟨new, hnew, hth, hlocks⟩ := lockStep_env hadmits hstep hlocks
    refine ⟨by simp [hth, hlocks, h.length_eq], fun i th t hi ht => ?_, hobs ▸ h.observers⟩
    rw [hth] at hi
    rw [hlocks] at ht
    rcases getElem?_env h.length_eq hi ht with ⟨hi, ht⟩ | ⟨hmem, rfl⟩
    · exact h.threads i th t hi ht
    · exact (hnew th hmem).follows
  · refine ⟨by rw [hsys, hlocks]; exact h.length_eq, ?_, fun t ht => ?_⟩
    · rw [hsys, hlocks]
      exact h.threads
    · rw [hobs] at ht
      rcases List.mem_append.mp ht with ht | ht
      · exact h.observers t ht
      · obtain rfl := List.mem_singleton.mp ht
        exact observer.follows_script
  · refine ⟨by rw [hsys, hlocks]; exact h.length_eq, ?_, fun u hu => ?_⟩
    · rw [hsys, hlocks]
      exact h.threads
    · rw [hobs] at hu
      rcases List.mem_or_eq_of_mem_set hu with hu | rfl
      · exact h.observers u hu
      · exact (h.observers t (List.mem_of_getElem? hk)).next hnext
  · refine ⟨by simp [hthreads, hlocks, h.length_eq], fun j x u hj hu => ?_, hobs ▸ h.observers⟩
    rw [hthreads] at hj
    rw [hlocks] at hu
    rcases Transition.getElem?_set_cases hj with ⟨rfl, rfl⟩ | ⟨hji, hj⟩
    · rcases Transition.getElem?_set_cases hu with ⟨-, rfl⟩ | ⟨hji, -⟩
      · have hheld : t.held = th.holdsAt cfg hash := (h.threads j th t hth ht).held_eq htodo
        rw [LockThread.Follows, hheld]
        exact (Thread.follows_after hstep (hcontrol c j th x _ hth hstep) _).append x.follows_before
      · exact absurd rfl hji
    · rcases Transition.getElem?_set_cases hu with ⟨rfl, -⟩ | ⟨-, hu⟩
      · exact absurd rfl hji
      · exact h.threads j x u hj hu
  · refine ⟨by simp [hsys, hlocks, h.length_eq], fun j x u hj hu => ?_, hobs ▸ h.observers⟩
    rw [hsys] at hj
    rw [hlocks] at hu
    rcases Transition.getElem?_set_cases hu with ⟨rfl, rfl⟩ | ⟨-, hu⟩
    · exact (h.threads j x t hj ht).next hnext
    · exact h.threads j x u hj hu

end CacheLab
