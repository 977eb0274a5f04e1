import CacheLab.Properties.Backstop
import CacheLab.Properties.Shutdown
import CacheLab.System.Verdict

/-!
# `ShutdownFlushError` and loss

`close(flush=True)` raises when its wait for the workers timed out, or when its synchronous flush gave up a job.
Is something lost exactly then: a dirty entry, or a value in the source for a key that had a tombstone when
`close` was called? No, in five ways (`misjudges`):

* the wait times out, and the synchronous flush repairs what it left open;
* a tombstone goes with the last pending count of its key before the synchronous flush comes to it
  (`forgets`), so nobody retries the delete;
* the synchronous flush gives up a delete of a key that the source does not hold;
* a worker that was loading a key puts it after all, and the source gets the new value of a deleted key;
* enqueuing one of the jobs of `close` raises `ValueError`, and `close` ends with that.

Where no step of `close` is one of these and equal keys are routed alike, the exception is exact
(`shutdown_error_iff_loss`), whatever the queue holds, however many workers there are and whichever source calls fail.
-/

set_option linter.unusedSectionVars false

namespace CacheLab

variable {α V T : Type} [DecidableEq α] [LinearOrder T] [Zero T] [Add T] [Sub T]

open WriteBehind

variable {cfg : AcceptedConfig T} {hash : Key α → ℕ} {j : ℕ}

/-! ### The steps that mislead -/

/-- The thread waits in `join_until` for tasks that are not done: it can only time out. -/
def Thread.timesOut (s : Shared α V cfg) : Thread α V T → Bool
  | .closeJoin => s.poolStarted && decide (0 < cfg.workerCount) && decide (s.queue.unfinishedTasks ≠ 0)
  | _ => false

/-- The thread is about to store an entry for a key with a tombstone in the state `s₀`. -/
def Thread.revives (hash : Key α → ℕ) (s₀ : Shared α V cfg) : Thread α V T → Bool
  | .running (.put key _ _) _ => ((s₀.home hash key).tombstones.get? key).isSome
  | _ => false

/-- A step of a `close` that was called in the state `s₀` after which the exception and the loss can disagree. -/
def misjudges (hash : Key α → ℕ) (s₀ : Shared α V cfg) (s : System α V cfg) : Label α V T → Bool
  | .run i c => (s.threads[i]?).any fun th =>
      th.timesOut s.shared || th.forgets hash s.shared || th.blamesVainly s.shared || th.revives hash s₀ ||
        th.breaksOff s.shared c
  | _ => false

/-- What a step that does not mislead is not. -/
theorem of_misjudges {s₀ : Shared α V cfg} {s : System α V cfg} {i : ℕ} {c : Choice α V} {th : Thread α V T}
    (h : misjudges hash s₀ s (.run i c) = false) (hi : s.threads[i]? = some th) :
    th.timesOut s.shared = false ∧ th.forgets hash s.shared = false ∧ th.blamesVainly s.shared = false ∧
      th.revives hash s₀ = false ∧ th.breaksOff s.shared c = false := by
  simpa [misjudges, hi, Bool.or_eq_false_iff, and_assoc] using h

/-- A step that does not mislead drops no tombstone that the source has not seen. -/
theorem forgets_of_misjudges {s₀ : Shared α V cfg} {s : System α V cfg} {l : Label α V T}
    (h : misjudges hash s₀ s l = false) : forgets hash s l = false := by
  cases l with
  | run i c =>
      cases hi : s.threads[i]? with
      | none => simp [forgets, hi]
      | some th => simpa [forgets, hi] using (of_misjudges h hi).2.1
  | _ => rfl

/-! ### The writes of the workers -/

section Workers

variable {s s' : Shared α V cfg} {c : Choice α V} {th th' : Thread α V T}

/-- A worker writes nothing but what it loaded. -/
theorem lastWrite_of_worker (h : threadStep hash s c th = some (s', th')) (hrole : th.role = .worker)
    (hfit : th.Fit) :
    (∃ key value ttl caller, th = .running (.put key value ttl) caller) ∨
      ∀ k, lastWrite k s'.log = lastWrite k s.log := by
  have hsame : ∀ {s₁ : Shared α V cfg}, s.Same s₁ → ∀ k, lastWrite k s₁.log = lastWrite k s.log :=
    fun heq k => congrArg (lastWrite k) heq.log_eq
  rcases threadStep_cases h with h | h | h
  · cases th with
    | entering op caller =>
        rcases entering_cases h with ⟨rfl, -⟩ | ⟨rfl, -⟩ | ⟨rfl, -⟩ | ⟨-, -, -, flush, rfl, -⟩
        · exact .inr (hsame ((Shared.Same.refl s).callerCount caller false))
        · exact .inr fun _ => rfl
        · exact .inr fun _ => rfl
        · cases hrole
    | running op caller =>
        rcases hfit with hclient | ⟨key, value, ttl, rfl⟩
        · cases hclient.symm.trans hrole
        · exact .inl ⟨key, value, ttl, caller, rfl⟩
    | enqueuing ts caller =>
        right
        cases ts with
        | nil =>
            cases h
            exact hsame ((Shared.Same.refl s).callerCount caller true)
        | cons t ts =>
            simp only [clientStep] at h
            split_ifs at h
            · cases h
              intro k
              exact congrArg (lastWrite k) ((Shared.Same.refl (s.lose (t :: ts))).callerCount caller false).log_eq
            · cases h
              exact fun _ => rfl
            · have hspec := (enqueueOr_spec (Option.some.inj h)).1
              exact fun k => congrArg (lastWrite k) hspec.log_eq
    | releasing ts caller =>
        right
        cases ts with
        | nil =>
            cases h
            exact hsame ((Shared.Same.refl s).callerCount caller false)
        | cons t ts =>
            obtain ⟨s₁, hs₁, heq⟩ := Option.map_eq_some_iff.mp h
            obtain ⟨hi, rfl⟩ := Shared.onShard_eq_some.mp hs₁
            cases heq
            exact fun _ => rfl
    | _ => first | (cases hrole; done) | cases h
  · right
    cases th with
    | checked t =>
        simp only [workerStep] at h
        split_ifs at h <;> cases h
        · intro k
          show lastWrite k ([Event.applied t] ++ s.log) = lastWrite k s.log
          exact lastWrite_append (by simp [Event.writeOf])
        · exact fun _ => rfl
    | idle =>
        simp only [workerStep] at h
        split at h
        · cases h
          exact fun _ => rfl
        · split_ifs at h
          cases h
          exact fun _ => rfl
    | handling job =>
        cases job with
        | flushWriteBack t =>
            simp only [workerStep] at h
            split_ifs at h <;> cases h <;> exact fun _ => rfl
        | preloadKey i key ttl =>
            simp only [workerStep] at h
            split at h <;> cases h <;> exact fun _ => rfl
        | expireShard i =>
            obtain ⟨s₁, hs₁, heq⟩ := Option.map_eq_some_iff.mp h
            obtain ⟨hi, rfl⟩ := Shared.onShard_eq_some.mp hs₁
            cases heq
            exact fun _ => rfl
        | snapshotStats id =>
            cases h
            exact fun _ => rfl
        | stopWorker =>
            cases h
            exact fun _ => rfl
    | failed t =>
        simp only [workerStep] at h
        split_ifs at h <;> cases h <;> exact fun _ => rfl
    | dropped t =>
        obtain ⟨s₁, hs₁, heq⟩ := Option.map_eq_some_iff.mp h
        obtain ⟨hi, rfl⟩ := Shared.onShard_eq_some.mp hs₁
        cases heq
        exact fun _ => rfl
    | landed t =>
        obtain ⟨s₁, hs₁, heq⟩ := Option.map_eq_some_iff.mp h
        obtain ⟨hi, rfl⟩ := Shared.onShard_eq_some.mp hs₁
        cases heq
        exact fun _ => rfl
    | finishing =>
        cases h
        exact fun _ => rfl
    | _ => cases h
  · cases th <;> first | (cases hrole; done) | cases h

end Workers

/-! ### The first part of `close` -/

/-- What the first part of a `close` that was called in the state `s₀` keeps of the deletes: the keys with a
tombstone then were not written since, those with a tombstone now are among them, and a delete that the source
has not seen still has its tombstone. -/
structure Mourned (hash : Key α → ℕ) (s₀ : Shared α V cfg) (s : System α V cfg) : Prop where
  cells : ∀ k, (view hash k s).Meta ∧ (view hash k s).Ident
  kept : ∀ k, s₀.Tombstoned hash k → (view hash k s).Kept ∧ ∃ o, lastWrite k s.shared.log = some (o, WriteOp.delete)
  buried : ∀ k, s.shared.Tombstoned hash k → s₀.Tombstoned hash k

/-- When `close` is called. -/
theorem mourned_refl {s : System α V cfg} (h : ∀ k, (view hash k s).Meta ∧ (view hash k s).Ident) :
    Mourned hash s.shared s where
  cells := h
  kept k hk := by
    obtain ⟨o, ho⟩ := (h k).2.tomb_last hk
    refine ⟨⟨fun o' v hl => ?_, fun _ _ => .inl hk⟩, o, ho⟩
    rw [ho] at hl
    cases hl
  buried _ hk := hk

/-- A call on its own changes no cell. -/
theorem view_of_call {s s' : System α V cfg} {op : Op α V T} (hs : step cfg hash s (.call op) = some s')
    (k : Key α) : view hash k s' = view hash k s := by
  cases hs
  have hjobs : System.jobs k (⟨s.shared, s.threads ++ [Thread.entering op (.client .done)]⟩ : System α V cfg) =
      s.jobs k := by
    simp [System.jobs, Thread.flushes, jobsOf_nil]
  exact congrArg (s.shared.cell hash k) hjobs

/-- The call of `close` itself. -/
theorem Mourned.call {s₀ : Shared α V cfg} {s s' : System α V cfg} (h : Mourned hash s₀ s) {op : Op α V T}
    (hs : step cfg hash s (.call op) = some s') : Mourned hash s₀ s' := by
  have hview := view_of_call hs
  cases hs
  refine ⟨fun k => ?_, fun k hk => ?_, h.buried⟩
  · rw [hview]
    exact h.cells k
  · rw [hview]
    exact h.kept k hk

/-- **What is written in the first part**: nothing, or a value that a worker loaded. -/
theorem lastWrite_of_opening {s s' : System α V cfg} {l : Label α V T} (h : Opening hash j s)
    (hwb : cfg.writeMode = .writeBack) (hl : l.enters = false) (hs : step cfg hash s l = some s') (k : Key α) :
    lastWrite k s'.shared.log = lastWrite k s.shared.log ∨
      (∃ o v, lastWrite k s'.shared.log = some (o, WriteOp.put v)) ∧
        ∃ i c value ttl caller, l = .run i c ∧ s.threads[i]? = some (Thread.running (.put k value ttl) caller) := by
  cases l with
  | tick now =>
      simp only [step] at hs
      split_ifs at hs
      cases hs
      exact .inl rfl
  | start => cases hl
  | call op => cases hl
  | schedule i =>
      simp only [step] at hs
      split_ifs at hs
      cases hs
      exact .inl rfl
  | run i c =>
      simp only [step, Option.bind_eq_some_iff, Option.map_eq_some_iff] at hs
      obtain ⟨th, hi, ⟨sh, th'⟩, hr, rfl⟩ := hs
      rcases h.mover hwb hi hr with ⟨rfl, ⟨rfl, -⟩ | ⟨hopen, hclose, -⟩⟩ | ⟨-, hrole, -⟩
      · exact .inl rfl
      · exact .inl (congrArg (lastWrite k) (closeStep_keeps hclose hopen).1)
      · rcases lastWrite_of_worker hr hrole (h.base.threads th (List.mem_of_getElem? hi)).1 with
          ⟨key, value, ttl, caller, rfl⟩ | hsame
        · have hok : ¬ (cfg.writeMode = .writeThrough ∧ c.ok key = false) := by simp [hwb]
          obtain ⟨-, gone, hdone⟩ := putSection_of_returned h.base.shards key value ttl hok
          have hlast : lastWrite k sh.log =
              if k = key then some (s.shared.log.length, .put value) else lastWrite k s.shared.log := by
            rw [(threadStep_put hr).1.log_eq, hdone.log_eq, lastWrite_put]
          by_cases hk : k = key
          · subst hk
            rw [if_pos rfl] at hlast
            exact .inr ⟨⟨_, _, hlast⟩, i, c, value, ttl, caller, rfl, hi⟩
          · rw [if_neg hk] at hlast
            exact .inl hlast
        · exact .inl (hsame k)

/-- **The first part step by step**, when no tombstone is forgotten and no deleted key is stored again. -/
theorem Mourned.step {s₀ : Shared α V cfg} {s s' : System α V cfg} {l : Label α V T}
    (h : Mourned hash s₀ s) (hopen : Opening hash j s) (hwb : cfg.writeMode = .writeBack)
    (httl : ∀ t, cfg.defaultTtl = some t → t ≤ 0) (hl : l.enters = false)
    (hlasts : Lasting hash s) (hlasts' : Lasting hash s') (hmis : misjudges hash s₀ s l = false)
    (hs : step cfg hash s l = some s') : Mourned hash s₀ s' := by
  have hsteps : ∀ k, Cell.Steps (permit hash k s l s') (view hash k s) (view hash k s') := fun k =>
    view_steps hs hopen.base (hopen.winds_eq_false l) (h.cells k).1
  have hpermit := hlasts.permit hlasts' httl hs
  have hforget : ∀ k, ¬ (permit hash k s l s').forget := fun k => by simp [permit, forgets_of_misjudges hmis]
  have hdirect : ∀ k, ¬ (permit hash k s l s').direct := fun k => by simp [permit, hwb]
  refine ⟨fun k => ?_, fun k hk => ?_, fun k hk => ?_⟩
  · obtain ⟨hm, hi⟩ := h.cells k
    exact ⟨hm.steps (hsteps k), hi.steps hm (hpermit k).1 (hsteps k)⟩
  · obtain ⟨hm, hi⟩ := h.cells k
    obtain ⟨hkept, o, ho⟩ := h.kept k hk
    refine ⟨hkept.steps hi hm (hpermit k).1 (hdirect k) (hforget k) (hpermit k).2 (hsteps k), o, ?_⟩
    rcases lastWrite_of_opening hopen hwb hl hs k with heq | ⟨-, i, c, value, ttl, caller, rfl, hi'⟩
    · rw [heq, ho]
    · -- the key has a tombstone in `s₀`, so it is not stored again
      have hrev := (of_misjudges hmis hi').2.2.2.1
      rw [Thread.revives, show ((s₀.home hash k).tombstones.get? k).isSome = true from hk] at hrev
      cases hrev
  · obtain ⟨hm, hi⟩ := h.cells k
    rcases (Cell.tomb_of_steps (hsteps k)).2 hk with hold | ⟨o, hle, hlast⟩
    · exact h.buried k hold
    · -- there is no new delete
      exfalso
      have hdel : lastWrite k s'.shared.log = some (o, WriteOp.delete) := hlast
      rcases lastWrite_of_opening hopen hwb hl hs k with heq | ⟨⟨o', v, hput⟩, -⟩
      · have hold : (view hash k s).last = some (o, WriteOp.delete) := heq.symm.trans hdel
        exact absurd hle (Nat.not_le.mpr (hi.last_lt o .delete hold))
      · rw [hput] at hdel
        cases hdel

/-- What the synchronous flush starts with. -/
theorem Mourned.verdict {s₀ : Shared α V cfg} {s : System α V cfg} (h : Mourned hash s₀ s) :
    Verdict hash (fun k => s₀.Tombstoned hash k) s.shared 0 [] false where
  tied k := ⟨(h.cells k).1.entry_mark, fun t ht =>
    ⟨((h.cells k).1.tomb_mark t ht).1, ((h.cells k).1.tomb_mark t ht).2.1⟩⟩
  erased k hk := by
    obtain ⟨-, o, ho⟩ := h.kept k hk
    by_contra hne
    obtain ⟨e, he⟩ := Option.ne_none_iff_exists'.mp hne
    obtain ⟨o', hl⟩ := (h.cells k).2.entry_last e he
    cases ho.symm.trans hl
  buried := h.buried
  nodup := List.nodup_nil
  home t ht := by cases ht
  asks t ht := by cases ht
  due k hlost := by
    right
    left
    refine ⟨Nat.zero_le _, ?_⟩
    rcases hlost with hdirty | ⟨hk, hsome⟩
    · exact .inl hdirty
    · obtain ⟨hkept, o, ho⟩ := h.kept k hk
      rcases hkept.deleted o ho with htomb | hset
      · exact .inr htomb
      · have hnone : s.shared.source.get? k = none := hset.source_eq
        rw [hnone] at hsome
        cases hsome
  blamed hf := by cases hf

/-! ### The second part -/

/-- The second part of `close`, with what the flag and the losses have to do with each other: the other threads
are over, or harmless. -/
structure Judging (hash : Key α → ℕ) (gone : Key α → Prop) (j : ℕ) (s : System α V cfg) : Prop where
  base : Base hash s
  walk : ∃ th, s.threads[j]? = some th ∧ th.ending = true ∧ VerdictAt hash gone s.shared th
  quiet : Alone j s ∨ Harmless j s

/-- A section of another thread that is no write, where no entry has a deadline. -/
theorem VerdictAt.tended {gone : Key α → Prop} {s s' : Shared α V cfg} {th : Thread α V T}
    (h : VerdictAt hash gone s th) {m : Fin cfg.shardCount} {sh' : CacheShard α V T}
    (ht : (s.shards m).Tended s.now sh') (hshards : s'.shards = Function.update s.shards m sh')
    (hsource : s'.source = s.source) (htimeless : ∀ k v d, (s.home hash k).timed k ≠ some (v, some d)) :
    VerdictAt hash gone s' th := by
  refine h.congr (fun k => ?_) fun k => by rw [hsource]
  rw [Shared.slotOf, Shared.home_of_update hshards]
  split_ifs with hm
  · rw [Shared.slotOf, Shared.home, hm]
    rcases ht.key k with ⟨hslot, -⟩ | ⟨v, d, hold, -⟩
    · exact hslot
    · exact absurd (by rwa [Shared.home, hm]) (htimeless k v d)
  · rfl

/-- **The second part step by step.** -/
theorem Judging.step {gone : Key α → Prop} {s₀ : Shared α V cfg} {s s' : System α V cfg} {l : Label α V T}
    (h : Judging hash gone j s) (hl : l.enters = false) (hmis : misjudges hash s₀ s l = false)
    (htimeless : ∀ k v d, (s.shared.home hash k).timed k ≠ some (v, some d))
    (hs : step cfg hash s l = some s') : Judging hash gone j s' := by
  have hbase := h.base.step hs
  obtain ⟨x, hx, hend, hok⟩ := h.walk
  cases l with
  | tick now =>
      simp only [CacheLab.step] at hs
      split_ifs at hs
      cases hs
      exact ⟨hbase, ⟨x, hx, hend, hok.congr (fun _ => rfl) fun _ => rfl⟩,
        h.quiet.imp_right fun hq => ⟨hq.threads, hq.queue⟩⟩
  | start => cases hl
  | call op => cases hl
  | schedule i =>
      simp only [CacheLab.step] at hs
      split_ifs at hs
      cases hs
      refine ⟨hbase, ⟨x, hx, hend, hok.congr (fun _ => rfl) fun _ => rfl⟩,
        h.quiet.imp_right fun hq => ⟨hq.threads, fun job hjob => ?_⟩⟩
      simp only [CacheJobQueue.putNowait] at hjob
      split_ifs at hjob
      · exact hq.queue job hjob
      · rcases List.mem_append.mp hjob with hjob | hjob
        · exact hq.queue job hjob
        · rw [List.mem_singleton.mp hjob]
          rfl
  | run i c =>
      simp only [CacheLab.step, Option.bind_eq_some_iff, Option.map_eq_some_iff] at hs
      obtain ⟨th, hi, ⟨sh, th'⟩, hr, rfl⟩ := hs
      by_cases hij : i = j
      · subst hij
        obtain rfl : x = th := by simpa [hi] using hx.symm
        have hother : ∀ m y, m ≠ i → (s.threads.set i th')[m]? = some y → s.threads[m]? = some y :=
          fun m y hm hy => ((Transition.getElem?_set_cases hy).resolve_left fun e => hm e.1).2
        have hclose := closeStep_of_ending hr hend
        refine ⟨hbase, ⟨th', ?_, closeStep_ending hclose hend,
          hok.closeStep hend h.base.shards (of_misjudges hmis hi).2.2.1 hclose⟩, ?_⟩
        · rw [List.getElem?_set_self', hi]
          rfl
        · rcases h.quiet with halone | hharm
          · exact .inl fun m y hm hy => halone m y hm (hother m y hm hy)
          · exact .inr ⟨fun m y hm hy => hharm.threads m y hm (hother m y hm hy),
              closeStep_items hclose hend hharm.queue⟩
      · rcases h.quiet with halone | hharm
        · rw [threadStep_of_isFinished (halone i th hij hi)] at hr
          cases hr
        · obtain ⟨hth', hq', hsource, -, m, sh', htend, hshards⟩ :=
            threadStep_of_harmless hr (hharm.threads i th hij hi) hharm.queue
          refine ⟨hbase, ⟨x, ?_, hend, hok.tended htend hshards hsource htimeless⟩,
            .inr ⟨fun m y hm hy => ?_, hq'⟩⟩
          · rw [List.getElem?_set_ne hij]
            exact hx
          · rcases Transition.getElem?_set_cases hy with ⟨-, rfl⟩ | ⟨-, hy'⟩
            · exact hth'
            · exact hharm.threads m y hm hy'

/-- The closing thread leaves its wait in a step of its own, and the flag says whether it timed out. -/
theorem closeJoin_left {s s' : System α V cfg} {l : Label α V T} {failed : Bool} {s₀ : Shared α V cfg}
    (hs : step cfg hash s l = some s') (hj : s.threads[j]? = some Thread.closeJoin)
    (hset : s'.threads = s.threads.set j (.syncCollect 0 failed)) (hmis : misjudges hash s₀ s l = false) :
    failed = false := by
  have hself : s'.threads[j]? = some (Thread.syncCollect 0 failed) := by
    rw [hset, List.getElem?_set_self', hj]
    rfl
  rcases step_cases hs with ⟨now, -, -, rfl⟩ | ⟨new, -, -, hth, -⟩ | ⟨i, c, th, th', rfl, hi, hr, hth⟩
  · cases hj.symm.trans hself
  · rw [hth, List.getElem?_append_left (List.getElem?_eq_some_iff.mp hj).1, hj] at hself
    cases hself
  · by_cases hij : i = j
    · subst hij
      obtain rfl : th = .closeJoin := by simpa [hj] using hi.symm
      rw [hth, List.getElem?_set_self', hj] at hself
      obtain rfl : th' = .syncCollect 0 failed := Option.some.inj hself
      have hout := (of_misjudges hmis hj).1
      simp only [Thread.timesOut, Bool.and_eq_false_iff, decide_eq_false_iff_not, not_not] at hout
      rcases threadStep_cases hr with hr | hr | hr
      · cases hr
      · cases hr
      · simp only [closeStep] at hr
        split_ifs at hr with hpool hzero htime
        · cases (Prod.mk.inj (Option.some.inj hr)).2
          rfl
        · rcases hout with (hpool' | hcount) | hzero'
          · rw [hpool.1] at hpool'
            cases hpool'
          · exact absurd hpool.2 hcount
          · exact absurd hzero' hzero
        · cases (Prod.mk.inj (Option.some.inj hr)).2
          rfl
    · rw [hth, List.getElem?_set_ne hij, hj] at hself
      cases hself

/-! ### The exception -/

/-- Something is lost in the state `s` that a `close` called in the state `s₀` came to, where the source holds `held`
for the keys: a resident entry is dirty, or the source holds a value for a key that had a tombstone in `s₀`. -/
def Shared.Lossy (hash : Key α → ℕ) (s₀ s : Shared α V cfg) (held : Key α → Option V) : Prop :=
  (∃ k, s.DirtyKey hash k) ∨ ∃ k, s₀.Tombstoned hash k ∧ (held k).isSome = true

/-- What is lost depends on what the source holds for the keys that had a tombstone. -/
theorem Shared.lossy_congr {s₀ s : Shared α V cfg} {held held' : Key α → Option V}
    (h : ∀ k, s₀.Tombstoned hash k → held k = held' k) : s₀.Lossy hash s held ↔ s₀.Lossy hash s held' := by
  unfold Shared.Lossy
  refine or_congr_right (exists_congr fun k => and_congr_right fun hk => ?_)
  rw [h k hk]

/-- What the judging comes to when the closing thread is over. -/
theorem Judging.raised_iff {s₀ : Shared α V cfg} {s : System α V cfg} {result : Result α V T}
    (h : Judging hash (fun k => s₀.Tombstoned hash k) j s) (hj : s.threads[j]? = some (Thread.finished result)) :
    result = .raised .shutdownFlush ↔ s₀.Lossy hash s.shared s.shared.source.get? := by
  obtain ⟨th, hth, -, hok⟩ := h.walk
  obtain rfl : th = .finished result := by simpa [hj] using hth.symm
  have hdirty : ∀ k, (∃ e, (s.shared.slotOf hash k).entry = some e ∧ e.dirty = true) ↔
      s.shared.DirtyKey hash k := by
    intro k
    constructor
    · rintro ⟨e, he, hd⟩
      obtain ⟨x, hx, rfl⟩ := Option.map_eq_some_iff.mp he
      exact ⟨x, hx, hd⟩
    · rintro ⟨x, hx, hd⟩
      exact ⟨x.held, by simp [CacheShard.slot, hx], hd⟩
  rw [show result = .raised .shutdownFlush ↔ _ from hok]
  simp only [Shared.Lossy, Shared.Lost, hdirty, exists_or]

/-- **`ShutdownFlushError` is raised exactly on loss**, in a `close(flush=True)` none of whose steps
misjudges, if equal keys are routed alike: it raises if and only if in the end an entry is dirty, or the dictionary
of the source holds a value for a key that had a tombstone when `close` was called. -/
theorem shutdown_error_iff_loss {now : T} {src : Source α V} {κ : Type} [DecidableEq κ]
    (py : KeyClasses cfg hash κ) {dict : OrderedDict κ V}
    (hdict : ∀ k, src.get? k = dict.get? (py.ident k)) {ls₁ ls₂ : List (Label α V T)}
    {s s' : System α V cfg} {result : Result α V T} (hwb : cfg.writeMode = .writeBack)
    (httl : ∀ t, cfg.defaultTtl = some t → t ≤ 0)
    (h₁ : exec cfg hash (initial cfg now src) ls₁ = some s) (hopen : ∀ l ∈ ls₁, l.closes = false)
    (hrest : ∀ th ∈ s.threads, th.role = .worker ∨ th.isFinished = true)
    (h₂ : exec cfg hash s (.call (.close (some true)) :: ls₂) = some s')
    (halone : ∀ l ∈ ls₂, l.enters = false)
    (hdone : s'.threads[s.threads.length]? = some (Thread.finished result))
    (hlasting : ∀ e ∈ s'.shared.log, e.lasting = true)
    (hjust : Transition.Along (step cfg hash) (fun u l => misjudges hash s.shared u l = false) s
      (.call (.close (some true)) :: ls₂)) (hrouted : py.Routed s'.shared.log) :
    result = .raised .shutdownFlush ↔
      s.shared.Lossy hash s'.shared fun k => (py.sourceDict dict s'.shared.log).get? (py.ident k) := by
  have hlast := along_lasting (Transition.run_append_eq_some.mpr ⟨s, h₁, h₂⟩) hlasting
  have hcells : ∀ k, (view hash k s).Meta ∧ (view hash k s).Ident := open_view_invariant h₁ hopen hlast.left
    (fun s l s' k hl hs hm hi hsteps => hi.steps hm (hl.1.permit (hl.2 s' hs) httl hs k).1 hsteps)
    fun k => ident_initial cfg hash k now src
  obtain ⟨u, hcall, hrun⟩ := Transition.run_cons_eq_some.mp h₂
  obtain ⟨-, hlast₂⟩ := hlast.right h₁
  have hopening := opening_of_call h₁ hopen hrest hcall
  have hmourned : Mourned hash s.shared u := (mourned_refl hcells).call hcall
  -- a key with a tombstone was deleted, so the dictionary has what the source has
  have hheld : ∀ k, s.shared.Tombstoned hash k →
      (py.sourceDict dict s'.shared.log).get? (py.ident k) = s'.shared.source.get? k := by
    intro k hk
    obtain ⟨-, o, ho⟩ := (mourned_refl hcells).kept k hk
    refine sourceDict_exec hwb hdict (Transition.run_append_eq_some.mpr ⟨s, h₁, h₂⟩) hrouted ?_
    exact occurs_exec hwb h₂ (base_exec h₁) (occurs_of_lastWrite ho)
  rw [Shared.lossy_congr hheld]
  have hstep : ∀ (v : System α V cfg) l v', ((misjudges hash s.shared v l = false ∧ l.enters = false) ∧
        Lasting hash v ∧ ∀ v', step cfg hash v l = some v' → Lasting hash v') →
      step cfg hash v l = some v' →
      Opening hash s.threads.length v ∧ Mourned hash s.shared v ∨
        Judging hash (fun k => s.shared.Tombstoned hash k) s.threads.length v →
      Opening hash s.threads.length v' ∧ Mourned hash s.shared v' ∨
        Judging hash (fun k => s.shared.Tombstoned hash k) s.threads.length v' := by
    rintro v l v' ⟨⟨hmis, hl⟩, hlv, hlv'⟩ hs (⟨hopenv, hm⟩ | hjudge)
    · rcases hopenv.step hwb hl hs with
        hopen' | ⟨c, th, th', rfl, hth, ⟨i, t, ts, rfl, hrej, -⟩, -⟩ | ⟨hjoin, hshared, failed, hthreads, hwait⟩
      · exact .inl ⟨hopen', hm.step hopenv hwb httl hl hlv (hlv' v' hs) hmis hs⟩
      · have hnot : v.shared.rejects c t = false := (of_misjudges hmis hth).2.2.2.2
        rw [hnot] at hrej
        cases hrej
      · obtain rfl := closeJoin_left hs hjoin hthreads hmis
        have hother : ∀ m y, m ≠ s.threads.length → v'.threads[m]? = some y → v.threads[m]? = some y := by
          intro m y hne hy
          rw [hthreads] at hy
          exact ((Transition.getElem?_set_cases hy).resolve_left fun e => hne e.1).2
        refine .inr ⟨hopenv.base.step hs, ⟨.syncCollect 0 false, ?_, rfl, ?_⟩, ?_⟩
        · rw [hthreads, List.getElem?_set_self', hjoin]
          rfl
        · rw [hshared]
          exact hm.verdict
        · cases hpool : v.shared.poolStarted with
          | false => exact .inl fun m y hne hy => hopenv.alone hpool m y hne (hother m y hne hy)
          | true =>
              have hharm := (hopenv.quiesced hjoin (hwait rfl ⟨hpool, hopenv.pool hpool⟩)).2
              refine .inr ⟨fun m y hne hy => hharm.threads m y hne (hother m y hne hy), ?_⟩
              rw [hshared]
              exact hharm.queue
    · exact .inr (hjudge.step hl hmis (fun k v d => timeless_of_lasting httl (hlv.tracks k) hlv.events v d) hs)
  have halong := ((hjust.2 u hcall).and (Transition.along_of_forall (fun l hl _ => halone l hl) _)).and
    (hlast₂ u hcall)
  rcases Transition.run_invariant hstep hrun halong (.inl ⟨hopening, hmourned⟩) with ⟨hopen', -⟩ | hjudge
  · obtain ⟨th, hth, hth', -⟩ := hopen'.closer
    obtain rfl : th = .finished result := by simpa [hdone] using hth.symm
    cases hth'
  · exact hjudge.raised_iff hdone

/-- A put whose flush is queued. -/
def onePut : List (Label ℕ ℕ ℕ) :=
  [.start, .call (.put (some 1) 10 .unset), .run 1 {}, .run 1 {}, .run 1 {}]

/-- The source is down. -/
def sourceDown : Choice ℕ ℕ := { ok := fun _ => false }

/-- The worker and then `close` give the put up. -/
def closeGivesUp : List (Label ℕ ℕ ℕ) :=
  List.replicate 4 (Label.run 2 {}) ++ List.replicate 12 (Label.run 0 sourceDown) ++ List.replicate 9 (Label.run 2 sourceDown)

/-- A put that nobody could flush: `close` raises, and the entry is dirty. -/
theorem shutdown_error_iff_loss_sourceDown :
    ∃ s s' : System ℕ ℕ (oneEntry .lru .writeBack 1 0 0),
      exec _ (fun _ => 0) (initial _ 0 .empty) onePut = some s ∧
      exec _ (fun _ => 0) s (.call (.close (some true)) :: closeGivesUp) = some s' ∧
      s'.threads[2]? = some (Thread.finished (.raised .shutdownFlush)) ∧
      s.shared.Lossy (fun _ => 0) s'.shared
        ((KeyClasses.distinct (oneEntry .lru .writeBack 1 0 0) fun _ => 0).sourceDict .empty s'.shared.log).get? := by
  have heval : ((exec (oneEntry .lru .writeBack 1 0 0) (fun _ => 0) (initial _ 0 .empty) onePut).bind
      fun s : System ℕ ℕ (oneEntry .lru .writeBack 1 0 0) =>
      (exec _ (fun _ => 0) s (.call (.close (some true)) :: closeGivesUp)).map fun s' =>
        decide ((∀ th ∈ s.threads, th.role = .worker ∨ th.isFinished = true) ∧ s.threads.length = 2 ∧
          s'.threads[2]? = some (Thread.finished (.raised .shutdownFlush)) ∧
          (∀ e ∈ s'.shared.log, e.lasting = true) ∧
          Transition.Along (step _ fun _ => 0) (fun u l => misjudges (fun _ => 0) s.shared u l = false) s
            (.call (.close (some true)) :: closeGivesUp))) = some true := by
    decide +kernel
  obtain ⟨s, hs, heval⟩ := Option.bind_eq_some_iff.mp heval
  obtain ⟨s', hs', heval⟩ := Option.map_eq_some_iff.mp heval
  obtain ⟨hrest, hlen, hdone, hlasting, hjust⟩ := of_decide_eq_true heval
  refine ⟨s, s', hs, hs', hdone, ?_⟩
  exact (shutdown_error_iff_loss (.distinct _ _) (fun _ => rfl) rfl (fun t ht => by cases ht) hs (by decide) hrest hs'
    (by decide) (hlen.symm ▸ hdone) hlasting hjust (KeyClasses.routed_distinct _)).mp rfl

/-- `close` does not wait for the worker any longer, and flushes the put itself. -/
def closeRepairs : List (Label ℕ ℕ ℕ) :=
  List.replicate 4 (Label.run 2 {}) ++ Label.run 2 { timeout := true } :: List.replicate 9 (Label.run 2 {})

/-- A put that is flushed, and a delete that is still queued. -/
def putThenDelete : List (Label ℕ ℕ ℕ) :=
  onePut ++ List.replicate 5 (Label.run 0 {}) ++
    [Label.call (.delete (some 1)), .run 2 {}, .run 2 {}, .run 2 {}]

/-- The worker gives up the queued delete and the one of `close`, and the tombstone goes with the second one. -/
def closeForgets : List (Label ℕ ℕ ℕ) :=
  List.replicate 4 (Label.run 3 {}) ++ List.replicate 12 (Label.run 0 sourceDown) ++ List.replicate 6 (Label.run 3 {})

/-- The exception and the loss disagree, with one worker, no eviction and no lifetimes: `close` raises although
nothing is lost, after its wait timed out; and it does not raise although the source kept a deleted key. -/
theorem shutdown_error_ne_loss :
    (∃ s s' : System ℕ ℕ (oneEntry .lru .writeBack 1 0 0),
      exec _ (fun _ => 0) (initial _ 0 .empty) onePut = some s ∧
      (∀ th ∈ s.threads, th.role = .worker ∨ th.isFinished = true) ∧
      exec _ (fun _ => 0) s (.call (.close (some true)) :: closeRepairs) = some s' ∧
      (∀ l ∈ closeRepairs, l.enters = false) ∧ (∀ e ∈ s'.shared.log, e.lasting = true) ∧
      s'.threads[s.threads.length]? = some (Thread.finished (.raised .shutdownFlush)) ∧
      ¬ s.shared.Lossy (fun _ => 0) s'.shared
        ((KeyClasses.distinct (oneEntry .lru .writeBack 1 0 0) fun _ => 0).sourceDict .empty s'.shared.log).get?) ∧
    ∃ s s' : System ℕ ℕ (oneEntry .lru .writeBack 1 0 0),
      exec _ (fun _ => 0) (initial _ 0 .empty) putThenDelete = some s ∧
      (∀ th ∈ s.threads, th.role = .worker ∨ th.isFinished = true) ∧
      exec _ (fun _ => 0) s (.call (.close (some true)) :: closeForgets) = some s' ∧
      (∀ l ∈ closeForgets, l.enters = false) ∧ (∀ e ∈ s'.shared.log, e.lasting = true) ∧
      s'.threads[s.threads.length]? = some (Thread.finished .done) ∧
      s.shared.Lossy (fun _ => 0) s'.shared
        ((KeyClasses.distinct (oneEntry .lru .writeBack 1 0 0) fun _ => 0).sourceDict .empty s'.shared.log).get? := by
  constructor
  · have heval : ((exec (oneEntry .lru .writeBack 1 0 0) (fun _ => 0) (initial _ 0 .empty) onePut).bind
        fun s : System ℕ ℕ (oneEntry .lru .writeBack 1 0 0) =>
        (exec _ (fun _ => 0) s (.call (.close (some true)) :: closeRepairs)).map fun s' =>
          decide ((∀ th ∈ s.threads, th.role = .worker ∨ th.isFinished = true) ∧
            (∀ e ∈ s'.shared.log, e.lasting = true) ∧
            s'.threads[s.threads.length]? = some (Thread.finished (.raised .shutdownFlush)) ∧
            (∀ e ∈ (s'.shared.home (fun _ => 0) (some 1)).backend.entryList, e.dirty = false) ∧
            (s.shared.home (fun _ => 0) (some 1)).tombstones.keys = [])) = some true := by
      decide +kernel
    obtain ⟨s, hs, heval⟩ := Option.bind_eq_some_iff.mp heval
    obtain ⟨s', hs', heval⟩ := Option.map_eq_some_iff.mp heval
    obtain ⟨hrest, hlasting, hdone, hclean, htombs⟩ := of_decide_eq_true heval
    refine ⟨s, s', hs, hrest, hs', by decide, hlasting, hdone, ?_⟩
    rintro (⟨k, e, he, hd⟩ | ⟨k, hk, -⟩)
    · have hkey := (s'.shared.home (fun _ => 0) k).backend.keyed k e he
      have hfalse := hclean e (InMemoryBackend.mem_entryList.mpr (hkey.symm ▸ he))
      rw [hfalse] at hd
      cases hd
    · obtain ⟨t, ht⟩ := Option.isSome_iff_exists.mp hk
      have hmem := List.mem_map_of_mem (f := Prod.fst) (OrderedDict.get?_eq_some_iff.mp ht)
      have hnil : (s.shared.home (fun _ => 0) k).tombstones.keys = [] := htombs
      rw [OrderedDict.keys] at hnil
      rw [hnil] at hmem
      cases hmem
  · have heval : ((exec (oneEntry .lru .writeBack 1 0 0) (fun _ => 0) (initial _ 0 .empty) putThenDelete).bind
        fun s : System ℕ ℕ (oneEntry .lru .writeBack 1 0 0) =>
        (exec _ (fun _ => 0) s (.call (.close (some true)) :: closeForgets)).map fun s' =>
          decide ((∀ th ∈ s.threads, th.role = .worker ∨ th.isFinished = true) ∧
            (∀ e ∈ s'.shared.log, e.lasting = true) ∧
            s'.threads[s.threads.length]? = some (Thread.finished .done) ∧
            ((s.shared.home (fun _ => 0) (some 1)).tombstones.get? (some 1)).isSome = true ∧
            (((KeyClasses.distinct (oneEntry .lru .writeBack 1 0 0) fun _ => 0).sourceDict .empty s'.shared.log).get?
              (some 1)).isSome = true)) = some true := by
      decide +kernel
    obtain ⟨s, hs, heval⟩ := Option.bind_eq_some_iff.mp heval
    obtain ⟨s', hs', heval⟩ := Option.map_eq_some_iff.mp heval
    obtain ⟨hrest, hlasting, hdone, htomb, hsource⟩ := of_decide_eq_true heval
    exact ⟨s, s', hs, hrest, hs', by decide, hlasting, hdone, .inr ⟨some 1, htomb, hsource⟩⟩

end CacheLab
