import CacheLab.System.Base
import CacheLab.System.ShardSteps

/-!
# The keys that a run stores

Every key that a put stores was named by a caller: as the key of a `put`, a `get_or_compute` or a `preload`.
Until then it is kept by a thread or by a queued job (`Thread.stores`, `Job.stores`), and no step invents one
(`threadStep_stores`). So a property of the keys that callers name holds of every key that is ever stored.
-/

set_option linter.unusedSectionVars false

namespace CacheLab

variable {α V T : Type} [DecidableEq α] [LinearOrder T] [Zero T] [Add T] [Sub T]

variable {cfg : AcceptedConfig T} {hash : Key α → ℕ}

/-- The key that an operation will store something under. -/
def Op.stores : Op α V T → Option (Key α)
  | .put key _ _ => some key
  | .getOrCompute key _ => some key
  | .preload key _ => some key
  | _ => none

/-- See `Op.stores`. -/
def Job.stores : Job α V T → Option (Key α)
  | .preloadKey _ key _ => some key
  | _ => none

/-- See `Op.stores`. -/
def Thread.stores : Thread α V T → Option (Key α)
  | .entering op _ => op.stores
  | .running op _ => op.stores
  | .leading key _ _ => some key
  | .loading key _ _ => some key
  | .handling job => job.stores
  | _ => none

/-- A queued job stores something under the key. -/
def CacheJobQueue.Stores (q : CacheJobQueue α V T) (k : Key α) : Prop :=
  ∃ job ∈ q.items, job.stores = some k

section Stores

variable {s s' : Shared α V cfg} {c : Choice α V} {th th' : Thread α V T} {k : Key α}

/-- After an answer nothing is left to store. -/
theorem Caller.stores_returned (caller : Caller α V T) : (caller.returned : Thread α V T).stores = none := by
  cases caller <;> rfl

/-- See `Caller.stores_returned`. -/
theorem Caller.stores_raised (caller : Caller α V T) (exn : Exn) :
    (caller.raised exn : Thread α V T).stores = none := by
  cases caller <;> cases exn <;> rfl

theorem Caller.queue_count (caller : Caller α V T) (s : Shared α V cfg) (completed : Bool) :
    (caller.count s completed).queue = s.queue := by
  cases caller <;> rfl

/-- Starting to enqueue leaves nothing to store, and the queue alone. -/
theorem enqueueOr_stores {s₀ : Shared α V cfg} {ts : List (Ticket α V)} {caller : Caller α V T}
    (h : enqueueOr s₀ ts caller = (s', th')) : th'.stores = none ∧ s'.queue = s₀.queue := by
  cases ts with
  | nil =>
      obtain ⟨rfl, rfl⟩ := Prod.mk.inj h
      exact ⟨caller.stores_returned, caller.queue_count s₀ true⟩
  | cons t ts =>
      obtain ⟨rfl, rfl⟩ := Prod.mk.inj h
      exact ⟨rfl, rfl⟩

/-- A job that goes to the end of the queue. -/
theorem CacheJobQueue.stores_push {q : CacheJobQueue α V T} {job : Job α V T}
    (h : (q.push job).Stores k) : q.Stores k ∨ job.stores = some k := by
  obtain ⟨job', hmem, hk⟩ := h
  rcases List.mem_append.mp hmem with hq | hlast
  · exact .inl ⟨job', hq, hk⟩
  · rw [List.mem_singleton.mp hlast] at hk
    exact .inr hk

/-- See `CacheJobQueue.stores_push`. -/
theorem CacheJobQueue.stores_putNowait {q : CacheJobQueue α V T} {n : ℕ} {job : Job α V T}
    (h : (q.putNowait n job).Stores k) : q.Stores k ∨ job.stores = some k := by
  unfold CacheJobQueue.putNowait at h
  split_ifs at h
  · exact .inl h
  · exact stores_push h

/-- Stop messages store nothing. -/
theorem CacheJobQueue.stores_stop {q : CacheJobQueue α V T} {n : ℕ} {l : List Unit}
    (h : (l.foldl (fun q _ => q.offer n .stopWorker) q).Stores k) : q.Stores k := by
  induction l generalizing q with
  | nil => exact h
  | cons u l ih =>
      have hoffer : (q.offer n .stopWorker).Stores k := ih h
      rw [CacheJobQueue.offer] at hoffer
      split_ifs at hoffer
      · exact hoffer
      · exact (stores_push hoffer).resolve_right (by simp [Job.stores])

/-- What is going to be stored after a step was going to be stored before it. -/
structure StoresFrom (s : Shared α V cfg) (th : Thread α V T) (s' : Shared α V cfg) (th' : Thread α V T) :
    Prop where
  thread : ∀ k, th'.stores = some k → th.stores = some k ∨ s.queue.Stores k
  queue : ∀ k, s'.queue.Stores k → th.stores = some k ∨ s.queue.Stores k

/-- A step of a thread that is done with storing, which brings no job. -/
theorem StoresFrom.of_none (hth : th'.stores = none) (hq : s'.queue.items = s.queue.items) :
    StoresFrom s th s' th' where
  thread k hk := by
    rw [hth] at hk
    cases hk
  queue k hk := by
    obtain ⟨job, hjob, hk⟩ := hk
    exact .inr ⟨job, hq ▸ hjob, hk⟩

/-- A step of a thread that stores later what it was going to store. -/
theorem StoresFrom.of_eq (hth : th'.stores = th.stores) (hq : s'.queue.items = s.queue.items) :
    StoresFrom s th s' th' where
  thread k hk := .inl (hth ▸ hk)
  queue k hk := by
    obtain ⟨job, hjob, hk⟩ := hk
    exact .inr ⟨job, hq ▸ hjob, hk⟩

/-- A step of a thread that is done with storing, which may bring a job. -/
theorem StoresFrom.of_push {job : Job α V T} (hth : th'.stores = none)
    (hq : ∀ k, s'.queue.Stores k → s.queue.Stores k ∨ job.stores = some k)
    (hjob : job.stores = none ∨ job.stores = th.stores) : StoresFrom s th s' th' where
  thread k hk := by
    rw [hth] at hk
    cases hk
  queue k hk := by
    rcases hq k hk with h | h
    · exact .inr h
    · rcases hjob with hnone | heq
      · rw [hnone] at h
        cases h
      · exact .inl (heq ▸ h)

/-- A section on a shard brings no job. -/
theorem StoresFrom.of_onShard {i : ℕ} {f : CacheShard α V T → CacheShard α V T} {s₁ : Shared α V cfg}
    (h : s.onShard i f = some s₁) (hq : s'.queue = s₁.queue) (hth : th'.stores = none) :
    StoresFrom s th s' th' := by
  obtain ⟨hi, hs₁⟩ := Shared.onShard_eq_some.mp h
  rw [hs₁] at hq
  exact .of_none hth (congrArg CacheJobQueue.items hq)

/-- A step inside a public operation. -/
theorem clientStep_stores (h : clientStep hash s c th = some (s', th')) : StoresFrom s th s' th' := by
  cases th with
  | entering op caller =>
      rcases entering_cases h with ⟨rfl, ⟨exn, rfl⟩, -⟩ | ⟨rfl, rfl, -⟩ | ⟨rfl, rfl, -⟩ |
        ⟨rfl, -, -, flush, rfl, rfl⟩
      · exact .of_none (caller.stores_raised exn) (by rw [caller.queue_count])
      · exact .of_eq rfl rfl
      · exact .of_none rfl rfl
      · refine .of_none ?_ rfl
        split_ifs <;> rfl
  | running op caller =>
      cases op with
      | put key value ttl =>
          simp only [clientStep] at h
          split_ifs at h
          · cases h
            exact .of_none (caller.stores_raised _) (by rw [caller.queue_count]; rfl)
          · obtain ⟨hth, hq⟩ := enqueueOr_stores (Option.some.inj h)
            exact .of_none hth (by rw [hq]; rfl)
      | delete key =>
          simp only [clientStep] at h
          split_ifs at h
          · cases h
            exact .of_none rfl rfl
          · obtain ⟨hth, hq⟩ := enqueueOr_stores (Option.some.inj h)
            exact .of_none hth (by rw [hq]; rfl)
      | getOrCompute key ttl =>
          simp only [clientStep] at h
          split at h
          · cases h
            exact .of_none rfl rfl
          · cases h
            exact .of_none rfl rfl
          · cases h
            exact .of_eq rfl rfl
      | preload key ttl =>
          cases h
          exact .of_push rfl (fun k => CacheJobQueue.stores_putNowait) (.inr rfl)
      | requestSnapshot id =>
          cases h
          exact .of_push rfl (fun k => CacheJobQueue.stores_putNowait) (.inl rfl)
      | close flush => cases h
      | _ =>
          cases h
          exact .of_none rfl rfl
  | clearing i ts =>
      simp only [clientStep] at h
      split_ifs at h
      · cases h
        exact .of_none rfl rfl
      · cases h
        exact .of_none rfl rfl
      · obtain ⟨hth, hq⟩ := enqueueOr_stores (Option.some.inj h)
        exact .of_none hth (by rw [hq])
  | sizing i total =>
      simp only [clientStep] at h
      split_ifs at h <;> cases h <;> exact .of_none rfl rfl
  | dumping i taken limit =>
      simp only [clientStep] at h
      split_ifs at h <;> cases h <;> exact .of_none rfl rfl
  | expiring i removed =>
      simp only [clientStep] at h
      split_ifs at h <;> cases h <;> exact .of_none rfl rfl
  | enqueuing ts caller =>
      cases ts with
      | nil =>
          cases h
          exact .of_none caller.stores_returned (by rw [caller.queue_count])
      | cons t ts =>
          simp only [clientStep] at h
          split_ifs at h
          · cases h
            refine .of_none (caller.stores_raised _) ?_
            rw [caller.queue_count, Shared.items_lose]
          · cases h
            exact .of_none rfl rfl
          · obtain ⟨hth, hq⟩ := enqueueOr_stores (Option.some.inj h)
            refine .of_push hth (fun k hk => ?_) (.inl (rfl : (Job.flushWriteBack t).stores = none))
            rw [hq] at hk
            exact CacheJobQueue.stores_push hk
  | releasing ts caller =>
      cases ts with
      | nil =>
          cases h
          exact .of_none (caller.stores_raised _) (by rw [caller.queue_count])
      | cons t ts =>
          obtain ⟨s₁, hs₁, heq⟩ := Option.map_eq_some_iff.mp h
          cases heq
          exact .of_onShard hs₁ rfl rfl
  | leading key ttl flight =>
      cases h
      exact .of_eq rfl rfl
  | loading key ttl flight =>
      simp only [clientStep] at h
      split at h
      · cases h
        exact .of_none rfl rfl
      · cases h
        exact .of_eq rfl rfl
  | publishing key flight value =>
      cases h
      exact .of_none rfl rfl
  | failing key flight exn =>
      cases h
      exact .of_none rfl rfl
  | waiting flight =>
      simp only [clientStep] at h
      split at h
      · cases h
      · split_ifs at h
        cases h
        exact .of_none rfl rfl
  | _ => cases h

/-- A step of a worker. -/
theorem workerStep_stores (h : workerStep s c th = some (s', th')) : StoresFrom s th s' th' := by
  cases th with
  | idle =>
      simp only [workerStep] at h
      split at h
      · next job rest hitems =>
          cases h
          refine ⟨fun k hk => .inr ⟨job, by rw [hitems]; exact List.mem_cons_self, hk⟩, fun k hk => .inr ?_⟩
          obtain ⟨job', hjob', hk⟩ := hk
          exact ⟨job', by rw [hitems]; exact List.mem_cons_of_mem job hjob', hk⟩
      · split_ifs at h
        cases h
        exact .of_none rfl rfl
  | handling job =>
      cases job with
      | expireShard i =>
          obtain ⟨s₁, hs₁, heq⟩ := Option.map_eq_some_iff.mp h
          cases heq
          exact .of_onShard hs₁ rfl rfl
      | flushWriteBack t =>
          simp only [workerStep] at h
          split_ifs at h <;> cases h <;> exact .of_none rfl rfl
      | preloadKey i key ttl =>
          simp only [workerStep] at h
          split at h
          · cases h
            exact .of_none rfl rfl
          · cases h
            exact .of_eq rfl rfl
      | _ =>
          cases h
          exact .of_none rfl rfl
  | checked t =>
      simp only [workerStep] at h
      split_ifs at h <;> cases h <;> exact .of_none rfl rfl
  | failed t =>
      simp only [workerStep] at h
      split_ifs at h
      · cases h
        exact .of_none rfl (s.items_lose [t.retry])
      · cases h
        exact .of_none rfl rfl
      · cases h
        exact .of_push rfl (fun k => CacheJobQueue.stores_push)
          (.inl (rfl : (Job.flushWriteBack t.retry).stores = none))
      · cases h
        exact .of_none rfl rfl
  | dropped t =>
      obtain ⟨s₁, hs₁, heq⟩ := Option.map_eq_some_iff.mp h
      cases heq
      exact .of_onShard hs₁ rfl rfl
  | landed t =>
      obtain ⟨s₁, hs₁, heq⟩ := Option.map_eq_some_iff.mp h
      cases heq
      exact .of_onShard hs₁ rfl rfl
  | finishing =>
      cases h
      exact .of_none rfl rfl
  | _ => cases h

/-- A step of `close`. -/
theorem closeStep_stores (h : closeStep s c th = some (s', th')) : StoresFrom s th s' th' := by
  cases th with
  | closeCollect i =>
      simp only [closeStep] at h
      split_ifs at h
      cases h
      exact .of_none rfl rfl
  | closeEnqueue i ts =>
      cases ts with
      | nil =>
          cases h
          refine .of_none ?_ rfl
          unfold closeNext
          split_ifs <;> rfl
      | cons t ts =>
          simp only [closeStep] at h
          split_ifs at h
          · cases h
            exact .of_none rfl (s.items_lose (t :: ts))
          · cases h
            exact .of_none rfl rfl
          · cases h
            exact .of_push rfl (fun k => CacheJobQueue.stores_push)
              (.inl (rfl : (Job.flushWriteBack t).stores = none))
  | closeRelease i ts =>
      cases ts with
      | nil =>
          cases h
          refine .of_none ?_ rfl
          unfold closeNext
          split_ifs <;> rfl
      | cons t ts =>
          obtain ⟨s₁, hs₁, heq⟩ := Option.map_eq_some_iff.mp h
          cases heq
          exact .of_onShard hs₁ rfl rfl
  | closeJoin =>
      simp only [closeStep] at h
      split_ifs at h <;> cases h <;> exact .of_none rfl rfl
  | syncCollect i failed =>
      simp only [closeStep] at h
      split_ifs at h <;> cases h <;> exact .of_none rfl rfl
  | syncNext i ts failed =>
      cases ts with
      | nil =>
          cases h
          exact .of_none rfl rfl
      | cons t ts =>
          simp only [closeStep] at h
          split_ifs at h <;> cases h <;> exact .of_none rfl rfl
  | syncTry i t left ts failed =>
      simp only [closeStep] at h
      split_ifs at h
      · cases h
        refine .of_none ?_ rfl
        split <;> rfl
      · cases left <;> cases h <;> exact .of_none rfl rfl
  | syncClean i t ts failed =>
      obtain ⟨s₁, hs₁, heq⟩ := Option.map_eq_some_iff.mp h
      cases heq
      exact .of_onShard hs₁ rfl rfl
  | syncSettle i t success ts failed =>
      obtain ⟨s₁, hs₁, heq⟩ := Option.map_eq_some_iff.mp h
      cases success <;> cases heq <;> exact .of_onShard hs₁ rfl rfl
  | closeStop failed =>
      simp only [closeStep] at h
      split_ifs at h
      · cases h
        exact .of_push rfl (fun k hk => .inl (CacheJobQueue.stores_stop hk))
          (.inl (rfl : Job.stopWorker.stores = none))
      · cases h
        exact .of_none rfl rfl
  | closeDrain failed =>
      cases h
      refine ⟨fun k hk => (by cases hk), fun k hk => ?_⟩
      obtain ⟨job, hjob, -⟩ := hk
      cases hjob
  | _ => cases h

/-- **A step stores nothing of its own accord.** -/
theorem threadStep_stores (h : threadStep hash s c th = some (s', th')) : StoresFrom s th s' th' := by
  rcases threadStep_cases h with h | h | h
  · exact clientStep_stores h
  · exact workerStep_stores h
  · exact closeStep_stores h

end Stores

/-! ### Runs -/

/-- The key that a label brings. -/
def Label.stores : Label α V T → Option (Key α)
  | .call op => op.stores
  | _ => none

/-- A thread or a queued job is going to store something under the key. -/
def System.Stores (s : System α V cfg) (k : Key α) : Prop :=
  (∃ th ∈ s.threads, th.stores = some k) ∨ s.shared.queue.Stores k

/-- One step. -/
theorem step_stores {s s' : System α V cfg} {l : Label α V T} {k : Key α}
    (h : step cfg hash s l = some s') (hk : s'.Stores k) : s.Stores k ∨ l.stores = some k := by
  cases l with
  | tick now =>
      simp only [step] at h
      split_ifs at h
      cases h
      exact .inl hk
  | start =>
      simp only [step] at h
      split at h
      · cases h
        refine .inl ?_
        rcases hk with ⟨th, hth, hk⟩ | hk
        · rcases List.mem_append.mp hth with hold | hnew
          · exact .inl ⟨th, hold, hk⟩
          · rw [List.eq_of_mem_replicate hnew] at hk
            cases hk
        · exact .inr hk
      · cases h
        exact .inl hk
      · cases h
  | call op =>
      cases h
      rcases hk with ⟨th, hth, hk⟩ | hk
      · rcases List.mem_append.mp hth with hold | hnew
        · exact .inl (.inl ⟨th, hold, hk⟩)
        · rw [List.mem_singleton.mp hnew] at hk
          exact .inr hk
      · exact .inl (.inr hk)
  | schedule i =>
      simp only [step] at h
      split_ifs at h
      cases h
      rcases hk with hk | hk
      · exact .inl (.inl hk)
      · exact .inl (.inr ((CacheJobQueue.stores_putNowait hk).resolve_right (by simp [Job.stores])))
  | run i c =>
      obtain ⟨th, hi, hstep⟩ := Option.bind_eq_some_iff.mp h
      obtain ⟨⟨s₁, th'⟩, hr, rfl⟩ := Option.map_eq_some_iff.mp hstep
      have hfrom := threadStep_stores hr
      have hself : th.stores = some k ∨ s.shared.queue.Stores k → s.Stores k := by
        rintro (hth | hq)
        · exact .inl ⟨th, List.mem_of_getElem? hi, hth⟩
        · exact .inr hq
      refine .inl ?_
      rcases hk with ⟨th'', hth'', hk⟩ | hk
      · rcases List.mem_or_eq_of_mem_set hth'' with hold | rfl
        · exact .inl ⟨th'', hold, hk⟩
        · exact hself (hfrom.thread k hk)
      · exact hself (hfrom.queue k hk)

/-- The keys that are stored, or are going to be, have a property. -/
structure KeysHave (P : Key α → Prop) (s : System α V cfg) : Prop where
  stores : ∀ k, s.Stores k → P k
  keys : ∀ i, ∀ k ∈ (s.shared.shards i).backend.keys, P k

/-- One step. -/
theorem KeysHave.step {P : Key α → Prop} {s s' : System α V cfg} {l : Label α V T} (h : KeysHave P s)
    (hb : Base hash s) (hl : ∀ k, l.stores = some k → P k) (hs : step cfg hash s l = some s') :
    KeysHave P s' where
  stores k hk := by
    rcases step_stores hs hk with hold | hnew
    · exact h.stores k hold
    · exact hl k hnew
  keys j k hk := by
    rcases step_cases hs with ⟨now, rfl, -, rfl⟩ | ⟨new, -, hsame, -⟩ | ⟨i, c, th, th', -, hi, hstep, -⟩
    · exact h.keys j k hk
    · rw [hsame.shards_eq] at hk
      exact h.keys j k hk
    · rcases threadStep_mem_keys hstep (fun i => (hb.shards i).agrees) hk with
        hold | ⟨value, ttl, caller, rfl⟩
      · exact h.keys j k hold
      · exact h.stores k (.inl ⟨_, List.mem_of_getElem? hi, rfl⟩)

/-- A fresh cache stores nothing. -/
theorem keysHave_initial (P : Key α → Prop) (now : T) (src : Source α V) :
    KeysHave P (initial cfg now src : System α V cfg) where
  stores k hk := by
    rcases hk with ⟨th, hth, -⟩ | ⟨job, hjob, -⟩
    · cases hth
    · cases hjob
  keys i k hk := by cases hk

/-- **The keys of a run have what the keys that callers name have.** -/
theorem keysHave_exec {P : Key α → Prop} {now : T} {src : Source α V} {ls : List (Label α V T)}
    {s : System α V cfg} (hls : ∀ l ∈ ls, ∀ k, l.stores = some k → P k)
    (h : exec cfg hash (initial cfg now src) ls = some s) : KeysHave P s := by
  have hstep : ∀ (s : System α V cfg) l s', (∀ k, l.stores = some k → P k) → step cfg hash s l = some s' →
      Base hash s ∧ KeysHave P s → Base hash s' ∧ KeysHave P s' :=
    fun _ _ _ hl hs hinv => ⟨hinv.1.step hs, hinv.2.step hinv.1 hl hs⟩
  exact (Transition.run_invariant hstep h (Transition.along_of_forall (fun l hl _ => hls l hl) _)
    ⟨base_initial cfg hash now src, keysHave_initial P now src⟩).2

end CacheLab
