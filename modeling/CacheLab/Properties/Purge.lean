import CacheLab.Properties.FanOut
import CacheLab.Properties.TimedReads
import CacheLab.Properties.Victims
import CacheLab.System.Queue

/-!
# What active expiration leaves

An entry is expired from its deadline on, and nothing but a visit removes it. Two visits are asked for from outside:
the call `expire_all`, and the `ExpireShard` jobs that the scheduler queues. Both keep their word under every
interleaving, policy and write mode, and with any number of workers:

* after an `expire_all` has answered, no entry is left whose deadline had passed when it was called;
* after a queue that accepted an `ExpireShard` job was drained, no such entry is left in the shard.

The reason is the same: an entry that comes in has a deadline in the future (`deadline_gt`), so what was swept once
stays swept (`KeyStep.swept`).
-/

set_option linter.unusedSectionVars false

namespace CacheLab

variable {α V T : Type} [DecidableEq α] [AddCommMonoid T] [LinearOrder T] [IsOrderedCancelAddMonoid T] [Sub T]

variable {cfg : AcceptedConfig T} {hash : Key α → ℕ} {k : Key α} {d : T}

/-! ### Swept keys -/

/-- The deadline that a put sets is in the future. -/
theorem deadline_gt {config : CacheConfig T} {before : Option (V × Option T)} {ttl : Ttl T} {now u : T}
    (h : deadline config before ttl now = some u) : now < u := by
  have hlater : ∀ t : T, 0 < t → now < now + t := fun t ht => lt_add_of_pos_right now ht
  cases ttl with
  | never => cases h
  | seconds t =>
      simp only [deadline] at h
      split_ifs at h with ht
      cases h
      exact hlater t ht
  | unset =>
      simp only [deadline] at h
      cases hun : unexpired before now with
      | some p =>
          rw [hun] at h
          obtain ⟨-, hfresh⟩ := Option.filter_eq_some_iff.mp hun
          simpa [h] using hfresh
      | none =>
          rw [hun] at h
          obtain ⟨t, ht, rfl⟩ := Option.map_eq_some_iff.mp h
          obtain ⟨-, hpos⟩ := Option.filter_eq_some_iff.mp ht
          exact hlater t (of_decide_eq_true hpos)

/-- The entry of the key, if there is one, has no deadline up to `d`. -/
def Shared.Swept (hash : Key α → ℕ) (d : T) (s : Shared α V cfg) (k : Key α) : Prop :=
  ∀ v u, (s.home hash k).timed k = some (v, some u) → d < u

/-- **A swept key stays swept.** -/
theorem KeyStep.swept {s s' : Shared α V cfg} {new : List (Event α V T)} (h : KeyStep hash s s' k new)
    (hd : d ≤ s.now) (hs : s.Swept hash d k) : s'.Swept hash d k := by
  intro v u hu
  cases h with
  | kept htimed => exact hs v u (htimed ▸ hu)
  | lost hnone =>
      rw [hnone] at hu
      cases hu
  | put value ttl hstored htimed =>
      rw [htimed, Option.some.injEq, Prod.mk.injEq, resolveTtl_snd] at hu
      exact hd.trans_lt (deadline_gt hu.2)

/-- The clock does not go back. -/
theorem now_le_of_step {s s' : System α V cfg} {l : Label α V T} (h : step cfg hash s l = some s')
    (hb : Base hash s) : s.shared.now ≤ s'.shared.now := by
  rcases step_cases h with ⟨now, -, hle, rfl⟩ | ⟨new, -, hsame, -⟩ | ⟨i, c, th, th', -, hi, hth, -⟩
  · exact hle
  · exact hsame.now_eq.ge
  · exact (hb.now_eq hi hth).ge

/-- What a sweep of a shard leaves. -/
theorem CacheShard.not_isExpired_of_expireShard {sh : CacheShard α V T} {now : T} {e : CacheEntry α V T}
    (h : (sh.expireShard now).2.backend.getEntry k = some e) : e.isExpired now = false := by
  rw [CacheShard.expireShard, CacheShard.getEntry_removeEntriesLocked] at h
  split_ifs at h with hk
  by_contra hx
  refine hk (List.mem_map.mpr ⟨e, List.mem_filter.mpr ⟨?_, by simpa using hx⟩, sh.backend.keyed k e h⟩)
  rw [InMemoryBackend.mem_entryList, sh.backend.keyed k e h]
  exact h

/-- After a sweep of its shard a key is swept. -/
theorem swept_expireShard {s s' : Shared α V cfg} {i : Fin cfg.shardCount} (hd : d ≤ s.now)
    (hshards : s'.shards = Function.update s.shards i ((s.shards i).expireShard s.now).2)
    (hk : shardFor cfg hash k = i) : s'.Swept hash d k := by
  intro v u hu
  rw [Shared.home_of_update hshards, if_pos hk] at hu
  obtain ⟨e, he, hval⟩ := Option.map_eq_some_iff.mp hu
  have hfresh := CacheShard.not_isExpired_of_expireShard he
  obtain ⟨-, hdeadline⟩ := Prod.mk.inj hval
  unfold CacheEntry.isExpired at hfresh
  rw [hdeadline] at hfresh
  exact hd.trans_lt (not_le.mp (of_decide_eq_false hfresh))

/-- What the properties speak of: the deadlines of the entries. -/
theorem Shared.Swept.lt {s : Shared α V cfg} (h : s.Swept hash d k) {e : CacheEntry α V T} {u : T}
    (he : (s.home hash k).backend.getEntry k = some e) (hu : e.expiresAt = some u) : d < u := by
  refine h e.value u ?_
  rw [CacheShard.timed, he, ← hu]
  rfl

/-- The invariant of both uses: the clock has reached `d`. -/
def Reached (hash : Key α → ℕ) (d : T) (s : System α V cfg) : Prop := Base hash s ∧ d ≤ s.shared.now

/-- It stays so. -/
theorem Reached.step {s s' : System α V cfg} {l : Label α V T} (h : Reached hash d s)
    (hstep : CacheLab.step cfg hash s l = some s') : Reached hash d s' :=
  ⟨h.1.step hstep, h.2.trans (now_le_of_step hstep h.1)⟩

/-- A step keeps what is swept. -/
theorem Reached.swept {s s' : System α V cfg} {l : Label α V T} (h : Reached hash d s)
    (hstep : CacheLab.step cfg hash s l = some s') (hs : s.shared.Swept hash d k) : s'.shared.Swept hash d k := by
  obtain ⟨new, -, hkey⟩ := step_key hstep h.1 k
  exact hkey.swept h.2 hs

/-! ### `expire_all` -/

/-- **`expire_all` purges**: when the call has answered, and ever after, no entry is left whose deadline had passed
when it was called. -/
theorem expire_all_purges {cfg : AcceptedConfig T} {hash : Key α → ℕ} {now : T} {src : Source α V}
    {before during : List (Label α V T)} {s₀ s : System α V cfg} {n : ℕ}
    (hbefore : exec cfg hash (initial cfg now src) before = some s₀)
    (hduring : exec cfg hash s₀ (.call .expireAll :: during) = some s)
    (hdone : s.threads[s₀.threads.length]? = some (Thread.finished (.number n))) (i : Fin cfg.shardCount) (k : Key α)
    (e : CacheEntry α V T) (u : T) (he : (s.shared.shards i).backend.getEntry k = some e)
    (hu : e.expiresAt = some u) : s₀.shared.now < u := by
  obtain ⟨s₁, hcall, hrun, -⟩ := exec_call hduring
  have hreached : Reached hash s₀.shared.now s₁ := Reached.step ⟨base_exec hbefore, le_rfl⟩ hcall
  have hgoing : ∀ j b, (expireSweep α V T).whole.point j b ≠ .finished (.number n) := by
    intro j b h
    cases h
  have hswept : s.shared.Swept hash s₀.shared.now k := by
    refine rounds_cover reads_expire (Shared.Swept hash s₀.shared.now) (Reached hash s₀.shared.now) hgoing (by simp)
      (fun u l u' hstep h => h.step hstep) (fun u l u' k hstep h => h.swept hstep) ?_ hreached hcall hrun hdone k
    intro u u' i k h h' hs' hk
    refine swept_expireShard h.2 ?_ hk
    rw [hs']
    rfl
  have hhome : shardFor cfg hash k = i := ((base_exec (Transition.run_append_eq_some.mpr
    ⟨s₀, hbefore, hduring⟩)).shards i).shardFor_eq he
  rw [← hhome] at he
  exact hswept.lt he hu

/-! ### The jobs of the scheduler -/

/-- All keys of the shard are swept. -/
def System.SweptShard (hash : Key α → ℕ) (d : T) (i : Fin cfg.shardCount) (s : System α V cfg) : Prop :=
  ∀ k, shardFor cfg hash k = i → s.shared.Swept hash d k

/-- They stay so. -/
theorem Reached.sweptShard {s s' : System α V cfg} {l : Label α V T} {i : Fin cfg.shardCount}
    (h : Reached hash d s) (hstep : CacheLab.step cfg hash s l = some s') (hs : s.SweptShard hash d i) :
    s'.SweptShard hash d i :=
  fun k hk => h.swept hstep (hs k hk)

/-- A worker that handles the job sweeps the shard. -/
theorem Reached.handle {s : System α V cfg} {s' : Shared α V cfg} {i : Fin cfg.shardCount} {c : Choice α V}
    {th' : Thread α V T} (h : Reached hash d s)
    (hstep : threadStep hash s.shared c (.handling (.expireShard i)) = some (s', th')) (k : Key α)
    (hk : shardFor cfg hash k = i) : s'.Swept hash d k := by
  refine swept_expireShard h.2 ?_ hk
  have hworker : workerStep s.shared c (.handling (.expireShard i)) = some (s', th') := by
    rcases threadStep_cases hstep with h | h | h
    · cases h
    · exact h
    · cases h
  obtain ⟨s₁, hs₁, heq⟩ := Option.map_eq_some_iff.mp hworker
  obtain ⟨hi, rfl⟩ := Shared.onShard_eq_some.mp hs₁
  exact (congrArg Shared.shards (Prod.mk.inj heq).1).symm

/-- **An accepted `ExpireShard` job purges its shard**: when the queue was drained after it took the job, and ever
after until the cache is closed, no entry of the shard is left whose deadline had passed when the job was queued. -/
theorem scheduled_sweep_purges {cfg : AcceptedConfig T} {hash : Key α → ℕ} {now : T} {src : Source α V}
    {before after later : List (Label α V T)} {s₀ s₁ s : System α V cfg} {i : Fin cfg.shardCount}
    (hbefore : exec cfg hash (initial cfg now src) before = some s₀)
    (haccepted : s₀.shared.queue.full cfg.queueSize = false)
    (hafter : exec cfg hash s₀ (.schedule i :: after) = some s₁)
    (hdrained : s₁.shared.queue.unfinishedTasks = 0) (hopen : s₁.shared.lifecycle ≠ .closed)
    (hlater : exec cfg hash s₁ later = some s) (k : Key α) (e : CacheEntry α V T) (u : T)
    (he : (s.shared.shards i).backend.getEntry k = some e) (hu : e.expiresAt = some u) : s₀.shared.now < u := by
  obtain ⟨t, hschedule, hrest⟩ := Transition.run_cons_eq_some.mp hafter
  have hreached : Reached hash s₀.shared.now t := Reached.step ⟨base_exec hbefore, le_rfl⟩ hschedule
  have hpending : t.Pending (.expireShard i) := by
    simp only [step] at hschedule
    split_ifs at hschedule
    cases hschedule
    refine .inl ?_
    show _ ∈ (s₀.shared.queue.putNowait cfg.queueSize _).items
    rw [CacheJobQueue.putNowait, haccepted]
    exact List.mem_append_right _ (List.mem_singleton_self _)
  obtain ⟨hreached₁, hwhere⟩ := pending_or_handled (Reached hash s₀.shared.now)
    (System.SweptShard hash s₀.shared.now i) hrest hreached hpending Reached.step
    (fun u l u' h => h.sweptShard) (fun u u' c th' h => h.handle)
  have hswept₁ : s₁.SweptShard hash s₀.shared.now i := by
    rcases hwhere with h | h | h
    · exact absurd h (hreached₁.1.not_pending hdrained _)
    · exact h
    · exact absurd h hopen
  -- from there on nothing has to be done
  have hstep : ∀ (u : System α V cfg) l u', step cfg hash u l = some u' →
      Reached hash s₀.shared.now u ∧ u.SweptShard hash s₀.shared.now i →
      Reached hash s₀.shared.now u' ∧ u'.SweptShard hash s₀.shared.now i :=
    fun u l u' hu h => ⟨h.1.step hu, h.1.sweptShard hu h.2⟩
  obtain ⟨hreached₂, hswept₂⟩ := Transition.run_invariant_of_step hstep hlater ⟨hreached₁, hswept₁⟩
  have hhome : shardFor cfg hash k = i := (hreached₂.1.shards i).shardFor_eq he
  have hkey := hswept₂ k hhome
  rw [← hhome] at he
  exact hkey.lt he hu

/-- Two shards and a worker. -/
def twoShardsOneWorker : AcceptedConfig ℕ :=
  ⟨{ capacity := 4, shardCount := 2, workerCount := 1, schedulerInterval := 1, queuePutTimeout := 1 }, rfl⟩

/-- A key with a lifetime of 2 in each shard, and the clock at 3. -/
def twoPastDue : List (Label ℕ ℕ ℕ) :=
  [.start, .call (.put (some 2) 20 (.seconds 2)), .run 1 {}, .run 1 {}, .call (.put (some 1) 10 (.seconds 2)),
    .run 2 {}, .run 2 {}, .tick 3]

/-- While `expire_all` is between the shards, a key with a lifetime is put into the first one. -/
def putWhileExpired : List (Label ℕ ℕ ℕ) :=
  [.run 3 {}, .run 3 {}, .run 3 {}, .call (.put (some 4) 40 (.seconds 1)), .run 4 {}, .run 4 {}, .run 3 {}, .run 3 {}]

/-- The new key is left, and its deadline is in the future. -/
theorem expire_all_purges_putWhileExpired :
    ∃ s₀ s : System ℕ ℕ twoShardsOneWorker,
      exec twoShardsOneWorker (fun k => k.getD 0) (initial twoShardsOneWorker 0 .empty) twoPastDue = some s₀ ∧
      exec twoShardsOneWorker (fun k => k.getD 0) s₀ (.call .expireAll :: putWhileExpired) = some s ∧
      s.shared.residents = 1 ∧ ∀ i k e u, (s.shared.shards i).backend.getEntry k = some e → e.expiresAt = some u →
        s₀.shared.now < u := by
  have hlen : (exec twoShardsOneWorker (fun k => k.getD 0) (initial twoShardsOneWorker 0 .empty) twoPastDue).map
      (fun s : System ℕ ℕ twoShardsOneWorker => s.threads.length) = some 3 := by decide +kernel
  have heval : (exec twoShardsOneWorker (fun k => k.getD 0) (initial twoShardsOneWorker 0 .empty)
      (twoPastDue ++ .call .expireAll :: putWhileExpired)).map (fun s : System ℕ ℕ twoShardsOneWorker =>
        decide (s.threads[3]? = some (Thread.finished (.number 2)) ∧ s.shared.residents = 1)) = some true := by decide +kernel
  obtain ⟨s₀, s, hs₀, hs, hone, hdone⟩ := exec_parts hlen heval
  obtain ⟨hdone, hsize⟩ := of_decide_eq_true hdone
  exact ⟨s₀, s, hs₀, hs, hsize, expire_all_purges hs₀ hs (by rw [hone]; exact hdone)⟩

/-- The worker sweeps the first shard, and a key with a lifetime is put while it does. -/
def sweptByWorker : List (Label ℕ ℕ ℕ) :=
  [.run 0 {}, .run 0 {}, .call (.put (some 4) 40 (.seconds 1)), .run 3 {}, .run 3 {}, .run 0 {}]

/-- In the first shard the new key is left; nobody has looked at the second one. -/
theorem scheduled_sweep_purges_sweptByWorker :
    ∃ s₀ s : System ℕ ℕ twoShardsOneWorker,
      exec twoShardsOneWorker (fun k => k.getD 0) (initial twoShardsOneWorker 0 .empty) twoPastDue = some s₀ ∧
      exec twoShardsOneWorker (fun k => k.getD 0) s₀
        (.schedule (⟨0, by decide⟩ : Fin twoShardsOneWorker.shardCount) :: sweptByWorker) = some s ∧
      s.shared.residents = 2 ∧ ∀ k e u, (s.shared.shards ⟨0, by decide⟩).backend.getEntry k = some e →
        e.expiresAt = some u → s₀.shared.now < u := by
  have hlen : (exec twoShardsOneWorker (fun k => k.getD 0) (initial twoShardsOneWorker 0 .empty) twoPastDue).map
      (fun s : System ℕ ℕ twoShardsOneWorker => s.threads.length) = some 3 := by decide +kernel
  have heval : (exec twoShardsOneWorker (fun k => k.getD 0) (initial twoShardsOneWorker 0 .empty)
      (twoPastDue ++ .schedule (⟨0, by decide⟩ : Fin twoShardsOneWorker.shardCount) :: sweptByWorker)).map
        (fun s : System ℕ ℕ twoShardsOneWorker => decide (s.shared.queue.unfinishedTasks = 0 ∧
          s.shared.lifecycle ≠ .closed ∧ s.shared.residents = 2)) = some true := by decide +kernel
  obtain ⟨s₀, s, hs₀, hs, -, hdone⟩ := exec_parts hlen heval
  obtain ⟨hdrained, hopen, hsize⟩ := of_decide_eq_true hdone
  have hroom : s₀.shared.queue.full twoShardsOneWorker.queueSize = false := rfl
  have hstay : exec twoShardsOneWorker (fun k => k.getD 0) s [] = some s := rfl
  exact ⟨s₀, s, hs₀, hs, hsize, scheduled_sweep_purges hs₀ hroom hs hdrained hopen hstay⟩

end CacheLab
