import CacheLab.System.SyncFlush
import CacheLab.System.Runs

/-!
# A call of `close` without concurrent clients

From the call on, the run has two parts. In the first one (`Opening`) the closing thread queues what is
dirty and waits for the workers, which go on as before; everything is still a run of the write-behind
protocol. In the second one (`Ending`) the closing thread flushes what is left, and the other threads
can do no more than expire entries: either there are no workers, or the queue was empty and all of them
were idle when the second part began (`Opening.quiesced`). A closing thread whose enqueue raised leaves in
the first part.

`close_synchronizes` is the rule that puts the two parts together: what has to be shown of a use of
`close` is an invariant of the first part that is enough to start the second.
-/

set_option linter.unusedSectionVars false

namespace CacheLab

variable {α V T : Type} [DecidableEq α] [LinearOrder T] [Zero T] [Add T] [Sub T]

open WriteBehind

variable {cfg : AcceptedConfig T} {hash : Key α → ℕ} {j : ℕ}

/-! ### Who can do what -/

/-- The label is a call of an operation or of `start`. -/
def Label.enters : Label α V T → Bool
  | .call _ => true
  | .start => true
  | _ => false

/-- The thread is in a `close(flush=True)`, at most waiting for the workers. -/
def Thread.opening : Thread α V T → Bool
  | .entering (.close flush) _ => decide (flush = some true)
  | .closeCollect _ => true
  | .closeEnqueue _ _ => true
  | .closeRelease _ _ => true
  | .closeJoin => true
  | _ => false

/-- A worker that handles the job writes nothing. -/
def Job.harmless : Job α V T → Bool
  | .flushWriteBack _ => false
  | .preloadKey _ _ _ => false
  | _ => true

/-- The thread is over, or it is a worker that writes nothing. -/
def Thread.harmless : Thread α V T → Bool
  | .finished _ => true
  | .idle => true
  | .handling job => job.harmless
  | .finishing => true
  | .stopped => true
  | _ => false

/-- All threads but one are over. -/
def Alone (j : ℕ) (s : System α V cfg) : Prop :=
  ∀ i th, i ≠ j → s.threads[i]? = some th → th.isFinished = true

/-- All threads but one, and the queue, are harmless. -/
structure Harmless (j : ℕ) (s : System α V cfg) : Prop where
  threads : ∀ i th, i ≠ j → s.threads[i]? = some th → th.harmless = true
  queue : ∀ job ∈ s.shared.queue.items, job.harmless = true

section Threads

variable {s s' : Shared α V cfg} {c : Choice α V} {th th' : Thread α V T}

/-- A thread that is over does not move. -/
theorem threadStep_of_isFinished (h : th.isFinished = true) : threadStep hash s c th = none := by
  cases th <;> first | (cases h; done) | rfl

/-- A worker that is not busy is harmless. -/
theorem Thread.harmless_of_busy_eq_zero (hr : th.role = .worker) (hb : th.busy = 0) :
    th.harmless = true := by
  cases th <;> first | rfl | simp [Thread.busy, hr] at hb

/-- A harmless thread holds no flush job. -/
theorem Thread.flushes_of_harmless (h : th.harmless = true) : th.flushes = [] := by
  cases th with
  | handling job => cases job <;> first | rfl | cases h
  | _ => first | rfl | cases h

/-- **What a harmless thread does**: at most it drops expired entries of one shard. -/
theorem threadStep_of_harmless (h : threadStep hash s c th = some (s', th')) (hth : th.harmless = true)
    (hq : ∀ job ∈ s.queue.items, job.harmless = true) :
    th'.harmless = true ∧ (∀ job ∈ s'.queue.items, job.harmless = true) ∧
      s'.source = s.source ∧ s'.log = s.log ∧
      ∃ i sh', (s.shards i).Tended s.now sh' ∧ s'.shards = Function.update s.shards i sh' := by
  have hsame : ∀ {s₁ : Shared α V cfg}, s₁.shards = s.shards →
      ∃ i sh', (s.shards i).Tended s.now sh' ∧ s₁.shards = Function.update s.shards i sh' :=
    fun heq => ⟨⟨0, cfg.shardCount_pos⟩, _, .refl _ _, by rw [heq, Function.update_eq_self]⟩
  have hworker : workerStep s c th = some (s', th') := by
    rcases threadStep_cases h with h | h | h
    · cases th <;> first | (cases hth; done) | cases h
    · exact h
    · cases th <;> first | (cases hth; done) | cases h
  cases th with
  | idle =>
      simp only [workerStep] at hworker
      split at hworker
      · next job rest hitems =>
          cases hworker
          rw [hitems] at hq
          exact ⟨hq job List.mem_cons_self, fun x hx => hq x (List.mem_cons_of_mem job hx), rfl, rfl,
            hsame rfl⟩
      · split_ifs at hworker
        cases hworker
        exact ⟨rfl, hq, rfl, rfl, hsame rfl⟩
  | handling job =>
      cases job with
      | expireShard i =>
          obtain ⟨s₁, hs₁, heq⟩ := Option.map_eq_some_iff.mp hworker
          obtain ⟨hi, rfl⟩ := Shared.onShard_eq_some.mp hs₁
          cases heq
          exact ⟨rfl, hq, rfl, rfl, ⟨i, hi⟩, _, CacheShard.tended_expireShard _ _, rfl⟩
      | snapshotStats id =>
          cases hworker
          exact ⟨rfl, hq, rfl, rfl, hsame rfl⟩
      | stopWorker =>
          cases hworker
          exact ⟨rfl, hq, rfl, rfl, hsame rfl⟩
      | _ => cases hth
  | finishing =>
      cases hworker
      exact ⟨rfl, hq, rfl, rfl, hsame rfl⟩
  | _ => first | (cases hth; done) | cases hworker

/-- Once the flush is over, `close` adds nothing to the queue but stop messages. -/
theorem closeStep_items (h : closeStep s c th = some (s', th')) (he : th.ending = true)
    (hq : ∀ job ∈ s.queue.items, job.harmless = true) : ∀ job ∈ s'.queue.items, job.harmless = true := by
  have hstop : ∀ (l : List Unit) (q : CacheJobQueue α V T), (∀ job ∈ q.items, job.harmless = true) →
      ∀ job ∈ (l.foldl (fun q _ => q.offer cfg.queueSize .stopWorker) q).items, job.harmless = true := by
    intro l
    induction l with
    | nil => exact fun q hq => hq
    | cons u l ih =>
        refine fun q hq => ih _ fun job hj => ?_
        simp only [CacheJobQueue.offer] at hj
        split_ifs at hj
        · exact hq job hj
        · rcases List.mem_append.mp hj with hj | hj
          · exact hq job hj
          · rw [List.mem_singleton.mp hj]
            rfl
  cases th with
  | syncCollect i failed =>
      simp only [closeStep] at h
      split_ifs at h <;> cases h <;> exact hq
  | syncNext i ts failed =>
      cases ts with
      | nil =>
          cases h
          exact hq
      | cons t ts =>
          simp only [closeStep] at h
          split_ifs at h <;> cases h <;> exact hq
  | syncTry i t left ts failed =>
      simp only [closeStep] at h
      split_ifs at h
      · cases h
        exact hq
      · cases left <;> cases h <;> exact hq
  | syncClean i t ts failed =>
      obtain ⟨s₁, hs₁, heq⟩ := Option.map_eq_some_iff.mp h
      obtain ⟨hi, rfl⟩ := Shared.onShard_eq_some.mp hs₁
      cases heq
      exact hq
  | syncSettle i t success ts failed =>
      obtain ⟨s₁, hs₁, heq⟩ := Option.map_eq_some_iff.mp h
      obtain ⟨hi, rfl⟩ := Shared.onShard_eq_some.mp hs₁
      cases heq
      cases success <;> exact hq
  | closeStop failed =>
      simp only [closeStep] at h
      split_ifs at h <;> cases h
      · exact hstop _ _ hq
      · exact hq
  | closeDrain failed =>
      cases h
      exact fun job hj => by cases hj
  | finished result => cases h
  | _ => cases he

/-- A thread that is ending `close` takes steps of `close`. -/
theorem closeStep_of_ending (h : threadStep hash s c th = some (s', th')) (he : th.ending = true) :
    closeStep s c th = some (s', th') := by
  rcases threadStep_cases h with h | h | h
  · cases th <;> first | (cases he; done) | cases h
  · cases th <;> first | (cases he; done) | cases h
  · exact h

/-- The walk goes on to the end. -/
theorem closeStep_ending (h : closeStep s c th = some (s', th')) (he : th.ending = true) :
    th'.ending = true := by
  cases th with
  | syncCollect i failed =>
      simp only [closeStep] at h
      split_ifs at h <;> cases h <;> rfl
  | syncNext i ts failed =>
      cases ts with
      | nil =>
          cases h
          rfl
      | cons t ts =>
          simp only [closeStep] at h
          split_ifs at h <;> cases h <;> rfl
  | syncTry i t left ts failed =>
      simp only [closeStep] at h
      split_ifs at h
      · cases h
        cases t.job.operation <;> rfl
      · cases left <;> cases h <;> rfl
  | syncClean i t ts failed =>
      obtain ⟨s₁, -, heq⟩ := Option.map_eq_some_iff.mp h
      cases heq
      rfl
  | syncSettle i t success ts failed =>
      obtain ⟨s₁, -, heq⟩ := Option.map_eq_some_iff.mp h
      cases heq
      rfl
  | closeStop failed =>
      simp only [closeStep] at h
      split_ifs at h <;> cases h <;> rfl
  | closeDrain failed =>
      cases h
      rfl
  | finished result => cases h
  | _ => cases he

end Threads

/-! ### The first part -/

/-- The first part of a `close(flush=True)` by the thread `j`: the closing thread has not got past its
wait for the workers, the other threads are workers or over, and there are workers only if a pool is
running. -/
structure Opening (hash : Key α → ℕ) (j : ℕ) (s : System α V cfg) : Prop where
  base : Base hash s
  closer : ∃ th, s.threads[j]? = some th ∧ th.opening = true ∧
    ((∃ flush caller, th = .entering (.close flush) caller) →
      s.shared.lifecycle = .created ∨ s.shared.lifecycle = .started)
  others : ∀ i th, i ≠ j → s.threads[i]? = some th → th.role = .worker ∨ th.isFinished = true
  pool : s.shared.poolStarted = true → 0 < cfg.workerCount
  alone : s.shared.poolStarted = false → Alone j s

/-- A thread in the first part of `close` holds the closing role and does not wind down. -/
theorem Thread.role_of_opening {th : Thread α V T} (h : th.opening = true) :
    th.role = .closer ∧ th.winding = false := by
  cases th with
  | entering op caller => cases op <;> first | exact ⟨rfl, rfl⟩ | cases h
  | _ => first | exact ⟨rfl, rfl⟩ | cases h

/-- In the first part no step winds down. -/
theorem Opening.winds_eq_false {s : System α V cfg} (h : Opening hash j s) (l : Label α V T) :
    winds s l = false := by
  cases l with
  | run i c =>
      cases hi : s.threads[i]? with
      | none => simp [winds, hi]
      | some th =>
          have hth : th.winding = false := by
            by_cases hij : i = j
            · subst hij
              obtain ⟨x, hx, hopen, -⟩ := h.closer
              obtain rfl : x = th := by simpa [hi] using hx.symm
              exact (Thread.role_of_opening hopen).2
            · by_contra hw
              rw [Bool.not_eq_false] at hw
              have hrole := Thread.role_of_winding hw
              rcases h.others i th hij hi with hrole' | hfin
              · rw [hrole'] at hrole
                cases hrole
              · cases th <;> first | (cases hfin; done) | cases hrole
          simp [winds, hi, hth]
  | _ => rfl

/-- A step of the closing thread in the first part: it stays there, or it is done waiting, or it leaves. -/
theorem closeStep_of_opening {s s' : Shared α V cfg} {c : Choice α V} {th th' : Thread α V T}
    (h : closeStep s c th = some (s', th')) (hopen : th.opening = true) :
    (th'.opening = true ∧ ∀ flush caller, th' ≠ .entering (.close flush) caller) ∨
      Leaves c s th s' th' ∨
      th = .closeJoin ∧ s' = s ∧ ∃ failed, th' = .syncCollect 0 failed ∧
        (failed = false → s.poolStarted = true ∧ 0 < cfg.workerCount → s.queue.unfinishedTasks = 0) := by
  have hnext : ∀ i, (closeNext cfg i : Thread α V T).opening = true ∧
      ∀ flush caller, (closeNext cfg i : Thread α V T) ≠ .entering (.close flush) caller := by
    intro i
    unfold closeNext
    split_ifs <;> exact ⟨rfl, fun _ _ h => by cases h⟩
  cases th with
  | closeCollect i =>
      simp only [closeStep] at h
      split_ifs at h
      cases h
      exact .inl ⟨rfl, fun _ _ h => by cases h⟩
  | closeEnqueue i ts =>
      cases ts with
      | nil =>
          cases h
          exact .inl (hnext i)
      | cons t ts =>
          simp only [closeStep] at h
          split_ifs at h with hrej <;> cases h
          · exact .inr (.inl ⟨i, t, ts, rfl, hrej, rfl, rfl⟩)
          · exact .inl ⟨rfl, fun _ _ h => by cases h⟩
          · exact .inl ⟨rfl, fun _ _ h => by cases h⟩
  | closeRelease i ts =>
      cases ts with
      | nil =>
          cases h
          exact .inl (hnext i)
      | cons t ts =>
          obtain ⟨s₁, -, heq⟩ := Option.map_eq_some_iff.mp h
          cases heq
          exact .inl ⟨rfl, fun _ _ h => by cases h⟩
  | closeJoin =>
      simp only [closeStep] at h
      split_ifs at h with hpool hdone <;> cases h
      · exact .inr (.inr ⟨rfl, rfl, false, rfl, fun _ _ => hdone⟩)
      · exact .inr (.inr ⟨rfl, rfl, true, rfl, fun h => by cases h⟩)
      · exact .inr (.inr ⟨rfl, rfl, false, rfl, fun _ h => absurd h hpool⟩)
  | _ => first | cases hopen | cases h

/-- What a step of the closing thread in the first part leaves alone. -/
theorem closeStep_keeps {s s' : Shared α V cfg} {c : Choice α V} {th th' : Thread α V T}
    (h : closeStep s c th = some (s', th')) (hopen : th.opening = true) :
    s'.log = s.log ∧ ∀ i k, (s'.shards i).timed k = (s.shards i).timed k := by
  have hset : ∀ {i : Fin cfg.shardCount} {sh' : CacheShard α V T}, (s.shards i).SameData sh' →
      ∀ m k, ((s.setShard i sh').shards m).timed k = (s.shards m).timed k := by
    intro i sh' hd m k
    show (Function.update s.shards i sh' m).timed k = (s.shards m).timed k
    by_cases hm : m = i
    · subst hm
      rw [Function.update_self, hd.timed_eq]
    · rw [Function.update_of_ne hm]
  cases th with
  | closeCollect i =>
      simp only [closeStep] at h
      split_ifs at h
      cases h
      exact ⟨rfl, hset (CacheShard.sameData_registerAll _ _)⟩
  | closeEnqueue i ts =>
      cases ts with
      | nil =>
          cases h
          exact ⟨rfl, fun _ _ => rfl⟩
      | cons t ts =>
          simp only [closeStep] at h
          split_ifs at h <;> cases h <;> exact ⟨rfl, fun _ _ => rfl⟩
  | closeRelease i ts =>
      cases ts with
      | nil =>
          cases h
          exact ⟨rfl, fun _ _ => rfl⟩
      | cons t ts =>
          obtain ⟨s₁, hs₁, heq⟩ := Option.map_eq_some_iff.mp h
          obtain ⟨hi, rfl⟩ := Shared.onShard_eq_some.mp hs₁
          cases heq
          exact ⟨rfl, hset (CacheShard.sameData_resolvePendingLocked _ _)⟩
  | closeJoin =>
      simp only [closeStep] at h
      split_ifs at h <;> cases h <;> exact ⟨rfl, fun _ _ => rfl⟩
  | _ => first | cases hopen | cases h

/-- **Who moves in the first part**: the closing thread, which takes the lifecycle lock or goes on with
its first part, or a worker. -/
theorem Opening.mover {s : System α V cfg} (h : Opening hash j s) (hwb : cfg.writeMode = .writeBack)
    {i : ℕ} {c : Choice α V} {th th' : Thread α V T} {sh : Shared α V cfg} (hi : s.threads[i]? = some th)
    (hr : threadStep hash s.shared c th = some (sh, th')) :
    i = j ∧ (sh = { s.shared with lifecycle := .closing } ∧ th' = .closeCollect 0 ∨
        th.opening = true ∧ closeStep s.shared c th = some (sh, th') ∧
          sh.poolStarted = s.shared.poolStarted) ∨
      i ≠ j ∧ th.role = .worker ∧ th'.role = .worker ∧ sh.phase = s.shared.phase := by
  by_cases hij : i = j
  · subst hij
    refine .inl ⟨rfl, ?_⟩
    obtain ⟨x, hx, hopen, hfirst⟩ := h.closer
    obtain rfl : x = th := by simpa [hi] using hx.symm
    by_cases henter : ∃ flush caller, x = .entering (.close flush) caller
    · left
      obtain ⟨flush, caller, rfl⟩ := henter
      have hflush : flush = some true := of_decide_eq_true hopen
      subst hflush
      rcases hfirst ⟨_, _, rfl⟩ with hlife | hlife <;>
        simp only [threadStep, clientStep, hlife, hwb, Option.getD_some, and_self, if_true,
          Option.orElse, Option.some.injEq, Prod.mk.injEq] at hr <;>
        exact ⟨hr.1.symm, hr.2.symm⟩
    · right
      have hclose : closeStep s.shared c x = some (sh, th') := by
        rcases threadStep_cases hr with h' | h' | h'
        · cases x with
          | entering op caller => cases op <;> first | cases hopen | exact absurd ⟨_, _, rfl⟩ henter
          | _ => first | (cases hopen; done) | cases h'
        · cases x <;> first | (cases hopen; done) | cases h'
        · exact h'
      refine ⟨hopen, hclose, ?_⟩
      rcases threadStep_phase hr with hp | ⟨flush, caller, e, -⟩ | ⟨failed, rfl, -⟩ | ⟨m, t, ts, -, -, rfl, -⟩
      · exact congrArg Prod.snd hp
      · exact absurd ⟨flush, caller, e⟩ henter
      · cases hopen
      · rfl
  · have hmem := List.mem_of_getElem? hi
    have hworker : th.role = .worker := by
      refine (h.others i th hij hi).resolve_right fun hfin => ?_
      rw [threadStep_of_isFinished hfin] at hr
      cases hr
    have hcontrol := threadStep_control hr (h.base.threads th hmem).1 (h.base.threads th hmem).2
      fun i => (h.base.shards i).index_eq
    refine .inr ⟨hij, hworker, ?_, ?_⟩
    · rcases hcontrol.role with hrole | ⟨hrole, -⟩
      · rw [hrole, hworker]
      · rw [hworker] at hrole
        cases hrole
    · rcases threadStep_phase hr with hp | ⟨flush, caller, rfl, -⟩ | ⟨failed, rfl, -⟩ | ⟨m, t, ts, rfl, -⟩
      · exact hp
      · cases hworker
      · cases hworker
      · cases hworker

/-- Without a pool, the first part writes nothing and drops no entry. -/
theorem Opening.keeps {s s' : System α V cfg} {l : Label α V T} (h : Opening hash j s)
    (hwb : cfg.writeMode = .writeBack) (hl : l.enters = false) (hs : step cfg hash s l = some s') :
    s'.shared.poolStarted = s.shared.poolStarted ∧ (s.shared.poolStarted = false →
      s'.shared.log = s.shared.log ∧
        ∀ i k, (s'.shared.shards i).timed k = (s.shared.shards i).timed k) := by
  cases l with
  | tick now =>
      simp only [CacheLab.step] at hs
      split_ifs at hs
      cases hs
      exact ⟨rfl, fun _ => ⟨rfl, fun _ _ => rfl⟩⟩
  | start => cases hl
  | call op => cases hl
  | schedule i =>
      simp only [CacheLab.step] at hs
      split_ifs at hs
      cases hs
      exact ⟨rfl, fun _ => ⟨rfl, fun _ _ => rfl⟩⟩
  | run i c =>
      simp only [CacheLab.step, Option.bind_eq_some_iff, Option.map_eq_some_iff] at hs
      obtain ⟨th, hi, ⟨sh, th'⟩, hr, rfl⟩ := hs
      rcases h.mover hwb hi hr with ⟨rfl, ⟨rfl, -⟩ | ⟨hopen, hclose, hpool⟩⟩ | ⟨hij, -, -, hphase⟩
      · exact ⟨rfl, fun _ => ⟨rfl, fun _ _ => rfl⟩⟩
      · exact ⟨hpool, fun _ => closeStep_keeps hclose hopen⟩
      · refine ⟨congrArg Prod.snd hphase, fun hno => ?_⟩
        rw [threadStep_of_isFinished (h.alone hno i th hij hi)] at hr
        cases hr

/-- The first part goes on when the closing thread moved within it. -/
theorem Opening.set {s : System α V cfg} (h : Opening hash j s) {sh : Shared α V cfg} {th' : Thread α V T}
    (hbase : Base hash (⟨sh, s.threads.set j th'⟩ : System α V cfg))
    (hpool : sh.poolStarted = s.shared.poolStarted) (hopen : th'.opening = true)
    (hnot : ∀ flush caller, th' ≠ .entering (.close flush) caller) :
    Opening hash j (⟨sh, s.threads.set j th'⟩ : System α V cfg) := by
  obtain ⟨x, hx, -, -⟩ := h.closer
  have hother : ∀ m y, m ≠ j → (s.threads.set j th')[m]? = some y → s.threads[m]? = some y :=
    fun m y hm hy => ((Transition.getElem?_set_cases hy).resolve_left fun e => hm e.1).2
  refine ⟨hbase, ⟨th', ?_, hopen, fun ⟨flush, caller, e⟩ => absurd e (hnot flush caller)⟩,
    fun m y hm hy => h.others m y hm (hother m y hm hy), fun hyes => h.pool (hpool.symm.trans hyes),
    fun hno m y hm hy => h.alone (hpool.symm.trans hno) m y hm (hother m y hm hy)⟩
  rw [List.getElem?_set_self', hx]
  rfl

/-- The closing thread `j` leaves in the step. -/
def Left (j : ℕ) (s : System α V cfg) (l : Label α V T) (s' : System α V cfg) : Prop :=
  ∃ c th th', l = .run j c ∧ s.threads[j]? = some th ∧ Leaves c s.shared th s'.shared th' ∧ s'.threads[j]? = some th'

/-- **The first part step by step**: it goes on, or the closing thread is done waiting, or it left. -/
theorem Opening.step {s s' : System α V cfg} {l : Label α V T} (h : Opening hash j s)
    (hwb : cfg.writeMode = .writeBack) (hl : l.enters = false) (hs : step cfg hash s l = some s') :
    Opening hash j s' ∨ Left j s l s' ∨
      s.threads[j]? = some Thread.closeJoin ∧ s'.shared = s.shared ∧
        ∃ failed, s'.threads = s.threads.set j (.syncCollect 0 failed) ∧
          (failed = false → s.shared.poolStarted = true ∧ 0 < cfg.workerCount →
            s.shared.queue.unfinishedTasks = 0) := by
  have hbase := h.base.step hs
  cases l with
  | tick now =>
      simp only [CacheLab.step] at hs
      split_ifs at hs
      cases hs
      exact .inl ⟨hbase, h.closer, h.others, h.pool, h.alone⟩
  | start => cases hl
  | call op => cases hl
  | schedule i =>
      simp only [CacheLab.step] at hs
      split_ifs at hs
      cases hs
      exact .inl ⟨hbase, h.closer, h.others, h.pool, h.alone⟩
  | run i c =>
      simp only [CacheLab.step, Option.bind_eq_some_iff, Option.map_eq_some_iff] at hs
      obtain ⟨th, hi, ⟨sh, th'⟩, hr, rfl⟩ := hs
      rcases h.mover hwb hi hr with ⟨rfl, ⟨rfl, rfl⟩ | ⟨hopen, hclose, hpool⟩⟩ | ⟨hij, -, hrole, hphase⟩
      · exact .inl (h.set hbase rfl rfl fun _ _ h => by cases h)
      · rcases closeStep_of_opening hclose hopen with
          ⟨hopen', hnot⟩ | hleaves | ⟨rfl, rfl, failed, rfl, hwait⟩
        · exact .inl (h.set hbase hpool hopen' hnot)
        · refine .inr (.inl ⟨c, th, th', rfl, hi, hleaves, ?_⟩)
          rw [List.getElem?_set_self', hi]
          rfl
        · exact .inr (.inr ⟨hi, rfl, failed, rfl, hwait⟩)
      · obtain ⟨x, hx, hopen, hfirst⟩ := h.closer
        have hpool : s.shared.poolStarted = sh.poolStarted := (congrArg Prod.snd hphase).symm
        refine .inl ⟨hbase, ⟨x, ?_, hopen, fun hf => ?_⟩, fun m y hm hy => ?_,
          fun hyes => h.pool (hpool.trans hyes), fun hno => ?_⟩
        · rw [List.getElem?_set_ne hij]
          exact hx
        · rw [show sh.lifecycle = s.shared.lifecycle from congrArg Prod.fst hphase]
          exact hfirst hf
        · rcases Transition.getElem?_set_cases hy with ⟨-, rfl⟩ | ⟨-, hy'⟩
          · exact .inl hrole
          · exact h.others m y hm hy'
        · rw [threadStep_of_isFinished (h.alone (hpool.trans hno) i th hij hi)] at hr
          cases hr

/-- **What the wait achieves**: with no unfinished task the queue is empty and every worker is idle, so
no flush job is outstanding, the lost ones apart, and the other threads are harmless. -/
theorem Opening.quiesced {s : System α V cfg} (h : Opening hash j s) (hj : s.threads[j]? = some Thread.closeJoin)
    (hzero : s.shared.queue.unfinishedTasks = 0) :
    (∀ t ∈ s.tickets, t ∈ s.shared.queue.lost) ∧ Harmless j s := by
  have htally := h.base.tally
  rw [hzero] at htally
  have hitems : s.shared.queue.items = [] := List.length_eq_zero_iff.mp (by omega)
  have hbusy : ∀ th ∈ s.threads, th.busy = 0 := fun th hth =>
    List.sum_eq_zero_iff.mp (by omega) _ (List.mem_map_of_mem (f := Thread.busy) hth)
  have hharmless : ∀ i th, i ≠ j → s.threads[i]? = some th → th.harmless = true := by
    intro i th hij hi
    rcases h.others i th hij hi with hrole | hfin
    · exact Thread.harmless_of_busy_eq_zero hrole (hbusy th (List.mem_of_getElem? hi))
    · cases th <;> first | rfl | cases hfin
  refine ⟨fun t ht => ?_, hharmless, by simp [hitems]⟩
  rcases System.mem_tickets.mp ht with hq | ⟨th, hth, hheld⟩
  · simpa [CacheJobQueue.tickets, CacheJobQueue.queued, hitems] using hq
  · obtain ⟨i, hi⟩ := List.mem_iff_getElem?.mp hth
    by_cases hij : i = j
    · subst hij
      obtain rfl : th = .closeJoin := by simpa [hj] using hi.symm
      cases hheld
    · rw [Thread.flushes_of_harmless (hharmless i th hij hi)] at hheld
      cases hheld

/-! ### The second part -/

/-- The second part of `close`: the closing thread does its walk, and the other threads are over, or
harmless where entries with a deadline may be dropped. -/
structure Ending (hash : Key α → ℕ) (j : ℕ) (s : System α V cfg) : Prop where
  base : Base hash s
  walk : ∃ th solo, s.threads[j]? = some th ∧ th.ending = true ∧ SyncOk hash solo s.shared th ∧
    (solo ∧ Alone j s ∨ ¬ solo ∧ Harmless j s)

/-- **The second part step by step.** -/
theorem Ending.step {s s' : System α V cfg} {l : Label α V T} (h : Ending hash j s)
    (hl : l.enters = false) (hs : step cfg hash s l = some s') : Ending hash j s' := by
  have hbase := h.base.step hs
  obtain ⟨x, solo, hx, hend, hok, hquiet⟩ := h.walk
  cases l with
  | tick now =>
      simp only [CacheLab.step] at hs
      split_ifs at hs
      cases hs
      exact ⟨hbase, x, solo, hx, hend, hok.congr rfl rfl rfl,
        hquiet.imp_right fun hq => ⟨hq.1, hq.2.threads, hq.2.queue⟩⟩
  | start => cases hl
  | call op => cases hl
  | schedule i =>
      simp only [CacheLab.step] at hs
      split_ifs at hs
      cases hs
      refine ⟨hbase, x, solo, hx, hend, hok.congr rfl rfl rfl,
        hquiet.imp_right fun hq => ⟨hq.1, hq.2.threads, fun job hjob => ?_⟩⟩
      simp only [CacheJobQueue.putNowait] at hjob
      split_ifs at hjob
      · exact hq.2.queue job hjob
      · rcases List.mem_append.mp hjob with hjob | hjob
        · exact hq.2.queue job hjob
        · rw [List.mem_singleton.mp hjob]
          rfl
  | run i c =>
      simp only [CacheLab.step, Option.bind_eq_some_iff, Option.map_eq_some_iff] at hs
      obtain ⟨th, hi, ⟨sh, th'⟩, hr, rfl⟩ := hs
      by_cases hij : i = j
      · subst hij
        obtain rfl : x = th := by simpa [hi] using hx.symm
        have hother : ∀ m y, m ≠ i → (s.threads.set i th')[m]? = some y → s.threads[m]? = some y :=
          fun m y hm hy => ((Transition.getElem?_set_cases hy).resolve_left fun e => hm e.1).2
        have hclose := closeStep_of_ending hr hend
        obtain ⟨hok', hend'⟩ := hok.step hend h.base.shards hclose
        refine ⟨hbase, th', solo, ?_, hend', hok', ?_⟩
        · rw [List.getElem?_set_self', hi]
          rfl
        · rcases hquiet with ⟨hsolo, halone⟩ | ⟨hsolo, hharm⟩
          · exact .inl ⟨hsolo, fun m y hm hy => halone m y hm (hother m y hm hy)⟩
          · exact .inr ⟨hsolo, fun m y hm hy => hharm.threads m y hm (hother m y hm hy),
              closeStep_items hclose hend hharm.queue⟩
      · rcases hquiet with ⟨hsolo, halone⟩ | ⟨hsolo, hharm⟩
        · rw [threadStep_of_isFinished (halone i th hij hi)] at hr
          cases hr
        · obtain ⟨hth', hq', hsource, hlog, m, sh', htend, hshards⟩ :=
            threadStep_of_harmless hr (hharm.threads i th hij hi) hharm.queue
          refine ⟨hbase, x, solo, ?_, hend, hok.tended hsolo htend hshards hsource hlog,
            .inr ⟨hsolo, fun m y hm hy => ?_, hq'⟩⟩
          · rw [List.getElem?_set_ne hij]
            exact hx
          · rcases Transition.getElem?_set_cases hy with ⟨-, rfl⟩ | ⟨-, hy'⟩
            · exact hth'
            · exact hharm.threads m y hm hy'

/-- The thread is in a `close` that is going to raise, or that raised. -/
def Thread.willRaise : Thread α V T → Bool
  | .syncCollect _ raises => raises
  | .syncNext _ _ raises => raises
  | .syncTry _ _ _ _ raises => raises
  | .syncClean _ _ _ raises => raises
  | .syncSettle _ _ _ _ raises => raises
  | .closeStop raises => raises
  | .closeDrain raises => raises
  | .finished (.raised _) => true
  | _ => false

/-- A `close` that is going to raise stays so. -/
theorem closeStep_of_willRaise {s s' : Shared α V cfg} {c : Choice α V} {th th' : Thread α V T}
    (h : threadStep hash s c th = some (s', th')) (hf : th.willRaise = true) : th'.willRaise = true := by
  have hend : th.ending = true := by
    cases th <;> first | rfl | cases hf
  have hclose := closeStep_of_ending h hend
  cases th with
  | syncCollect i failed =>
      obtain rfl : failed = true := hf
      simp only [closeStep] at hclose
      split_ifs at hclose <;> cases hclose <;> rfl
  | syncNext i ts failed =>
      obtain rfl : failed = true := hf
      cases ts with
      | nil =>
          cases hclose
          rfl
      | cons t ts =>
          simp only [closeStep] at hclose
          split_ifs at hclose <;> cases hclose <;> rfl
  | syncTry i t left ts failed =>
      obtain rfl : failed = true := hf
      simp only [closeStep] at hclose
      split_ifs at hclose
      · cases hclose
        cases t.job.operation <;> rfl
      · cases left <;> cases hclose <;> rfl
  | syncClean i t ts failed =>
      obtain rfl : failed = true := hf
      obtain ⟨s₁, -, heq⟩ := Option.map_eq_some_iff.mp hclose
      cases heq
      rfl
  | syncSettle i t success ts failed =>
      obtain rfl : failed = true := hf
      obtain ⟨s₁, -, heq⟩ := Option.map_eq_some_iff.mp hclose
      cases heq
      rfl
  | closeStop failed =>
      obtain rfl : failed = true := hf
      simp only [closeStep] at hclose
      split_ifs at hclose <;> cases hclose <;> rfl
  | closeDrain failed =>
      obtain rfl : failed = true := hf
      cases hclose
      rfl
  | finished result => cases hclose
  | _ => cases hf

/-- The thread `j` is in a `close` that is going to raise, or that raised. -/
def Raising (j : ℕ) (s : System α V cfg) : Prop := ∃ th, s.threads[j]? = some th ∧ th.willRaise = true

/-- See `closeStep_of_willRaise`. -/
theorem Raising.step {s s' : System α V cfg} {l : Label α V T} (h : Raising j s)
    (hs : step cfg hash s l = some s') : Raising j s' := by
  obtain ⟨x, hx, hf⟩ := h
  rcases step_cases hs with ⟨now, -, -, rfl⟩ | ⟨new, -, -, hth, -⟩ | ⟨i, c, th, th', -, hi, hr, hth⟩
  · exact ⟨x, hx, hf⟩
  · refine ⟨x, ?_, hf⟩
    rw [hth, List.getElem?_append_left (List.getElem?_eq_some_iff.mp hx).1]
    exact hx
  · by_cases hij : i = j
    · subst hij
      obtain rfl : x = th := by simpa [hi] using hx.symm
      refine ⟨th', ?_, closeStep_of_willRaise hr hf⟩
      rw [hth, List.getElem?_set_self', hi]
      rfl
    · refine ⟨x, ?_, hf⟩
      rw [hth, List.getElem?_set_ne hij]
      exact hx

/-! ### The rule -/

/-- **The rule for `close(flush=True)`**: if an invariant `J` of the first part is enough to start the
walk, with the closing thread on its own or with no flush job outstanding but the lost ones, then the source
holds the last write of every key once `close` returned normally. -/
theorem close_synchronizes {J : System α V cfg → Prop} {P : System α V cfg → Label α V T → Prop}
    (hwb : cfg.writeMode = .writeBack)
    (hJ : ∀ s l s', P s l → Opening hash j s → step cfg hash s l = some s' → J s → J s')
    (hready : ∀ s (solo : Prop), J s → (solo → Alone j s ∧ s.shared.poolStarted = false) →
      (¬ solo → ∀ t ∈ s.tickets, t ∈ s.shared.queue.lost) → Remains hash solo s.shared 0 [])
    {s s' : System α V cfg} {ls : List (Label α V T)} (hrun : exec cfg hash s ls = some s')
    (halong : Transition.Along (step cfg hash) P s ls) (hls : ∀ l ∈ ls, l.enters = false)
    (hopen : Opening hash j s) (hj : J s) (hdone : s'.threads[j]? = some (Thread.finished .done)) (k : Key α) :
    Synced s'.shared k := by
  have hstep : ∀ s l s', P s l ∧ l.enters = false → step cfg hash s l = some s' →
      Opening hash j s ∧ J s ∨ Ending hash j s ∨ Raising j s →
      Opening hash j s' ∧ J s' ∨ Ending hash j s' ∨ Raising j s' := by
    rintro s l s' ⟨hp, hl⟩ hs (⟨hopen, hj⟩ | hend | hfail)
    · rcases hopen.step hwb hl hs with
        hopen' | ⟨c, th, th', -, -, ⟨i, t, ts, -, -, -, rfl⟩, hleft⟩ | ⟨hjoin, hshared, failed, hthreads, hwait⟩
      · exact .inl ⟨hopen', hJ s l s' hp hopen hs hj⟩
      · exact .inr (.inr ⟨_, hleft, rfl⟩)
      · have hself : s'.threads[j]? = some (Thread.syncCollect 0 failed) := by
          rw [hthreads, List.getElem?_set_self', hjoin]
          rfl
        have hother : ∀ m y, m ≠ j → s'.threads[m]? = some y → s.threads[m]? = some y := by
          intro m y hm hy
          rw [hthreads] at hy
          exact ((Transition.getElem?_set_cases hy).resolve_left fun e => hm e.1).2
        cases failed with
        | true => exact .inr (.inr ⟨_, hself, rfl⟩)
        | false =>
            refine .inr (.inl ⟨hopen.base.step hs, _, s.shared.poolStarted = false, hself, rfl, ?_, ?_⟩)
            · rw [hshared]
              refine hready s _ hj (fun hpool => ⟨hopen.alone hpool, hpool⟩) fun hpool => ?_
              rw [Bool.not_eq_false] at hpool
              exact (hopen.quiesced hjoin (hwait rfl ⟨hpool, hopen.pool hpool⟩)).1
            · cases hpool : s.shared.poolStarted with
              | false => exact .inl ⟨rfl, fun m y hm hy => hopen.alone hpool m y hm (hother m y hm hy)⟩
              | true =>
                  have hharm := (hopen.quiesced hjoin (hwait rfl ⟨hpool, hopen.pool hpool⟩)).2
                  refine .inr ⟨by simp, fun m y hm hy => hharm.threads m y hm (hother m y hm hy), ?_⟩
                  rw [hshared]
                  exact hharm.queue
    · exact .inr (.inl (hend.step hl hs))
    · exact .inr (.inr (hfail.step hs))
  have halong' : Transition.Along (step cfg hash) (fun s l => P s l ∧ l.enters = false) s ls :=
    halong.and (Transition.along_of_forall (fun l hl _ => hls l hl) _)
  have hthread : ∀ {th : Thread α V T}, s'.threads[j]? = some th → th = .finished .done := by
    intro th hth
    simpa [hdone] using hth.symm
  rcases Transition.run_invariant hstep hrun halong' (.inl ⟨hopen, hj⟩) with
    ⟨hopen', -⟩ | hend | ⟨th, hth, hfail⟩
  · obtain ⟨th, hth, hopening, -⟩ := hopen'.closer
    rw [hthread hth] at hopening
    cases hopening
  · obtain ⟨th, solo, hth, -, hok, -⟩ := hend.walk
    rw [hthread hth] at hok
    exact hok k
  · rw [hthread hth] at hfail
    cases hfail

/-! ### The call -/

section Call

variable {now : T} {src : Source α V} {s : System α V cfg} {ls : List (Label α V T)}

/-- Before `close` is called, the cache is fresh, or started with a pool if there are to be workers. -/
theorem phase_open (h : exec cfg hash (initial cfg now src) ls = some s)
    (hls : ∀ l ∈ ls, l.closes = false) :
    s.shared.phase = (.created, false) ∨ s.shared.phase = (.started, decide (0 < cfg.workerCount)) := by
  have hstep : ∀ (s : System α V cfg) l s', l.closes = false → step cfg hash s l = some s' →
      (Base hash s ∧ ∀ th ∈ s.threads, th.role ≠ .closer) ∧ (s.shared.phase = (.created, false) ∨
        s.shared.phase = (.started, decide (0 < cfg.workerCount))) →
      (Base hash s' ∧ ∀ th ∈ s'.threads, th.role ≠ .closer) ∧ (s'.shared.phase = (.created, false) ∨
        s'.shared.phase = (.started, decide (0 < cfg.workerCount))) := by
    rintro s l s' hl hs ⟨hopen, hphase⟩
    refine ⟨open_step s l s' hl hs hopen, ?_⟩
    cases l with
    | tick now =>
        simp only [step] at hs
        split_ifs at hs
        cases hs
        exact hphase
    | start =>
        simp only [step] at hs
        split at hs <;> cases hs
        · exact .inr rfl
        · exact hphase
    | call op =>
        cases hs
        exact hphase
    | schedule i =>
        simp only [step] at hs
        split_ifs at hs
        cases hs
        exact hphase
    | run i c =>
        simp only [step, Option.bind_eq_some_iff, Option.map_eq_some_iff] at hs
        obtain ⟨th, hi, r, hr, rfl⟩ := hs
        have hrole := hopen.2 th (List.mem_of_getElem? hi)
        rcases threadStep_phase hr with hp | ⟨flush, caller, rfl, -⟩ | ⟨failed, rfl, -⟩ | ⟨m, t, ts, rfl, -⟩
        · rw [hp]
          exact hphase
        · exact absurd rfl hrole
        · exact absurd rfl hrole
        · exact absurd rfl hrole
  have hfinal := Transition.run_invariant hstep h (Transition.along_of_forall (fun l hl _ => hls l hl) _)
    ⟨⟨base_initial cfg hash now src, fun th hth => by cases hth⟩, .inl rfl⟩
  exact hfinal.2

/-- **The first part begins** when `close(flush=True)` is called and no other call is in progress. -/
theorem opening_of_call (h : exec cfg hash (initial cfg now src) ls = some s)
    (hls : ∀ l ∈ ls, l.closes = false)
    (hrest : ∀ th ∈ s.threads, th.role = .worker ∨ th.isFinished = true) {s' : System α V cfg}
    (hs : step cfg hash s (.call (.close (some true))) = some s') : Opening hash s.threads.length s' := by
  have hbase := (base_exec h).step hs
  have hphase := phase_open h hls
  have hstaff := staffed_exec h
  cases hs
  have hother : ∀ i th, i ≠ s.threads.length →
      (s.threads ++ [(.entering (.close (some true)) (.client .done) : Thread α V T)])[i]? = some th →
      th ∈ s.threads := by
    intro i th hi hth
    rcases Nat.lt_or_ge i s.threads.length with hlt | hge
    · rw [List.getElem?_append_left hlt] at hth
      exact List.mem_of_getElem? hth
    · rw [List.getElem?_eq_none (by simp only [List.length_append, List.length_singleton]; omega)] at hth
      cases hth
  refine ⟨hbase, ⟨_, List.getElem?_concat_length, rfl, fun _ => ?_⟩,
    fun i th hi hth => hrest th (hother i th hi hth), fun hpool => ?_, fun hpool i th hi hth => ?_⟩
  · rcases hphase with hp | hp
    · exact .inl (congrArg Prod.fst hp)
    · exact .inr (congrArg Prod.fst hp)
  · rcases hphase with hp | hp
    · cases hpool.symm.trans (congrArg Prod.snd hp)
    · exact of_decide_eq_true ((congrArg Prod.snd hp).symm.trans hpool)
  · -- without a pool there are no workers
    refine (hrest th (hother i th hi hth)).resolve_left fun hrole => ?_
    have hzero : s.workers = 0 := by
      rcases hphase with hp | hp
      · exact hstaff.created (congrArg Prod.fst hp)
      · have hnot := of_decide_eq_false ((congrArg Prod.snd hp).symm.trans hpool)
        have hle := hstaff.le
        omega
    have hpos : 0 < s.workers :=
      List.countP_pos_iff.mpr ⟨th, hother i th hi hth, decide_eq_true hrole⟩
    omega

end Call

end CacheLab
