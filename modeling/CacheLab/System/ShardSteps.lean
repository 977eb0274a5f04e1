import CacheLab.System.Effect

/-!
# Which section a step runs

A step of a thread replaces at most one shard, by the shard after one lock section. `ShardStep` lists the
sections with the points of the threads that run them, and `threadStep_shards` is the inversion: a property of
shards that every section keeps is kept by every step.
-/

set_option linter.unusedSectionVars false

namespace CacheLab

variable {α V T : Type} [DecidableEq α] [LinearOrder T] [Zero T] [Add T] [Sub T]

variable {cfg : AcceptedConfig T} {hash : Key α → ℕ}

/-- A section of the flush protocol or of single flight, which leaves what is stored alone. -/
inductive Bookkeeping (sh : CacheShard α V T) : CacheShard α V T → Prop
  | resolve (key : Key α) : Bookkeeping sh (sh.resolvePendingLocked key)
  | clearPending (key : Key α) : Bookkeeping sh (sh.clearPendingFlushesLocked key)
  | markClean (job : FlushWriteBack α V) : Bookkeeping sh (sh.markCleanLocked job)
  | finalize (job : FlushWriteBack α V) : Bookkeeping sh (sh.finalizeLocked job)
  | register (jobs : List (FlushWriteBack α V)) : Bookkeeping sh (sh.registerAll jobs)
  | unregister (key : Key α) : Bookkeeping sh (sh.unregisterFlight key)

/-- The shard after the section that a thread runs in its next step. -/
inductive ShardStep (hash : Key α → ℕ) (c : Choice α V) (s : Shared α V cfg) (th : Thread α V T) :
    Fin cfg.shardCount → CacheShard α V T → Prop
  | get (key : Key α) (caller : Caller α V T) (hth : th = .running (.get key) caller) :
      ShardStep hash c s th (shardFor cfg hash key)
        ((s.home hash key).readValueLocked key true true s.now).2
  | contains (key : Key α) (caller : Caller α V T) (hth : th = .running (.contains key) caller) :
      ShardStep hash c s th (shardFor cfg hash key)
        ((s.home hash key).readValueLocked key false true s.now).2
  | inspect (key : Key α) (caller : Caller α V T) (hth : th = .running (.inspect key) caller) :
      ShardStep hash c s th (shardFor cfg hash key) ((s.home hash key).inspectLocked key s.now).2
  | put (key : Key α) (value : V) (ttl : Ttl T) (caller : Caller α V T)
      (hth : th = .running (.put key value ttl) caller) :
      ShardStep hash c s th (shardFor cfg hash key)
        ((s.home hash key).putLocked cfg.toCacheConfig s.source key value ttl s.now (c.ok key)).shard
  | delete (key : Key α) (caller : Caller α V T) (hth : th = .running (.delete key) caller) :
      ShardStep hash c s th (shardFor cfg hash key)
        ((s.home hash key).deleteLocked cfg.toCacheConfig s.source key (c.ok key)).shard
  | getOrCompute (key : Key α) (ttl : Ttl T) (caller : Caller α V T)
      (hth : th = .running (.getOrCompute key ttl) caller) :
      ShardStep hash c s th (shardFor cfg hash key)
        ((s.home hash key).getOrComputeLocked key s.now s.flights.length).2
  | restore (key : Key α) (n : ℤ) (caller : Caller α V T)
      (hth : th = .running (.restoreEntryMetadata key n) caller) :
      ShardStep hash c s th (shardFor cfg hash key) ((s.home hash key).restoreEntryMetadata key n)
  | clear (i : Fin cfg.shardCount) (ts : List (Ticket α V)) (hth : th = .clearing i ts) :
      ShardStep hash c s th i ((s.shards i).clearLocked cfg.toCacheConfig s.source c.ok).shard
  | dump (i : Fin cfg.shardCount) (taken : List (EntrySnapshot α V T)) (limit : Option ℤ)
      (hth : th = .dumping i taken limit) :
      ShardStep hash c s th i ((s.shards i).dumpLocked s.now).2
  | expire (i : Fin cfg.shardCount)
      (hth : (∃ removed, th = .expiring i removed) ∨ th = .handling (.expireShard i)) :
      ShardStep hash c s th i ((s.shards i).expireShard s.now).2
  | book (i : Fin cfg.shardCount) (sh' : CacheShard α V T) (hbook : Bookkeeping (s.shards i) sh') :
      ShardStep hash c s th i sh'

/-- The shards after a step of a thread. -/
def Shared.Stepped (hash : Key α → ℕ) (c : Choice α V) (s : Shared α V cfg) (th : Thread α V T)
    (s' : Shared α V cfg) : Prop :=
  s'.shards = s.shards ∨
    ∃ i sh', s'.shards = Function.update s.shards i sh' ∧ ShardStep hash c s th i sh'

section Steps

variable {s s' : Shared α V cfg} {c : Choice α V} {th th' : Thread α V T}

theorem Caller.shards_count (caller : Caller α V T) (s : Shared α V cfg) (completed : Bool) :
    (caller.count s completed).shards = s.shards := by
  cases caller <;> rfl

theorem shards_enqueueOr {s₀ : Shared α V cfg} {ts : List (Ticket α V)} {caller : Caller α V T}
    (h : enqueueOr s₀ ts caller = (s', th')) : s'.shards = s₀.shards := by
  cases ts with
  | nil =>
      obtain ⟨rfl, -⟩ := Prod.mk.inj h
      exact caller.shards_count s₀ true
  | cons t ts =>
      obtain ⟨rfl, -⟩ := Prod.mk.inj h
      rfl

/-- A bookkeeping section on a shard given by its index. -/
theorem stepped_of_onShard {i : ℕ} {f : CacheShard α V T → CacheShard α V T}
    (h : s.onShard i f = some s') (hbook : ∀ sh, Bookkeeping sh (f sh)) : s.Stepped hash c th s' := by
  obtain ⟨hi, rfl⟩ := Shared.onShard_eq_some.mp h
  exact .inr ⟨⟨i, hi⟩, _, rfl, .book _ _ (hbook _)⟩

/-- A step inside a public operation. -/
theorem clientStep_shards (h : clientStep hash s c th = some (s', th')) : s.Stepped hash c th s' := by
  cases th with
  | entering op caller =>
      rcases entering_cases h with ⟨rfl, -⟩ | ⟨rfl, -⟩ | ⟨rfl, -⟩ | ⟨rfl, -⟩
      · exact .inl (caller.shards_count s false)
      · exact .inl rfl
      · exact .inl rfl
      · exact .inl rfl
  | running op caller =>
      cases op with
      | get key =>
          cases h
          exact .inr ⟨_, _, rfl, .get key caller rfl⟩
      | contains key =>
          cases h
          exact .inr ⟨_, _, rfl, .contains key caller rfl⟩
      | inspect key =>
          cases h
          exact .inr ⟨_, _, rfl, .inspect key caller rfl⟩
      | put key value ttl =>
          simp only [clientStep] at h
          split_ifs at h
          · cases h
            exact .inr ⟨_, _, caller.shards_count _ false, .put key value ttl caller rfl⟩
          · exact .inr ⟨_, _, shards_enqueueOr (Option.some.inj h), .put key value ttl caller rfl⟩
      | delete key =>
          simp only [clientStep] at h
          split_ifs at h
          · cases h
            exact .inr ⟨_, _, rfl, .delete key caller rfl⟩
          · exact .inr ⟨_, _, shards_enqueueOr (Option.some.inj h), .delete key caller rfl⟩
      | getOrCompute key ttl =>
          simp only [clientStep] at h
          split at h <;> cases h <;> exact .inr ⟨_, _, rfl, .getOrCompute key ttl caller rfl⟩
      | restoreEntryMetadata key n =>
          cases h
          exact .inr ⟨_, _, rfl, .restore key n caller rfl⟩
      | close flush => cases h
      | _ =>
          cases h
          exact .inl rfl
  | clearing i ts =>
      simp only [clientStep] at h
      split_ifs at h with hi
      · cases h
        exact .inr ⟨⟨i, hi⟩, _, rfl, .clear ⟨i, hi⟩ ts rfl⟩
      · cases h
        exact .inr ⟨⟨i, hi⟩, _, rfl, .clear ⟨i, hi⟩ ts rfl⟩
      · exact .inl (shards_enqueueOr (Option.some.inj h))
  | sizing i total =>
      simp only [clientStep] at h
      split_ifs at h <;> cases h <;> exact .inl rfl
  | dumping i taken limit =>
      simp only [clientStep] at h
      split_ifs at h with hi
      · cases h
        exact .inr ⟨⟨i, hi⟩, _, rfl, .dump ⟨i, hi⟩ taken limit rfl⟩
      · cases h
        exact .inl rfl
  | expiring i removed =>
      simp only [clientStep] at h
      split_ifs at h with hi
      · cases h
        exact .inr ⟨⟨i, hi⟩, _, rfl, .expire ⟨i, hi⟩ (.inl ⟨removed, rfl⟩)⟩
      · cases h
        exact .inl rfl
  | enqueuing ts caller =>
      cases ts with
      | nil =>
          cases h
          exact .inl (caller.shards_count s true)
      | cons t ts =>
          simp only [clientStep] at h
          split_ifs at h
          · cases h
            exact .inl (caller.shards_count _ false)
          · cases h
            exact .inl rfl
          · have hshards := shards_enqueueOr (Option.some.inj h)
            exact .inl hshards
  | releasing ts caller =>
      cases ts with
      | nil =>
          cases h
          exact .inl (caller.shards_count s false)
      | cons t ts =>
          obtain ⟨s₁, hs₁, heq⟩ := Option.map_eq_some_iff.mp h
          cases heq
          exact stepped_of_onShard hs₁ fun sh => .resolve _
  | leading key ttl flight =>
      cases h
      exact .inl rfl
  | loading key ttl flight =>
      simp only [clientStep] at h
      split at h <;> cases h <;> exact .inl rfl
  | publishing key flight value =>
      cases h
      exact .inr ⟨_, _, rfl, .book _ _ (.unregister key)⟩
  | failing key flight exn =>
      cases h
      exact .inr ⟨_, _, rfl, .book _ _ (.unregister key)⟩
  | waiting flight =>
      simp only [clientStep] at h
      split at h
      · cases h
      · split_ifs at h
        cases h
        exact .inl rfl
  | _ => cases h

/-- A step of a worker. -/
theorem workerStep_shards (h : workerStep s c th = some (s', th')) : s.Stepped hash c th s' := by
  cases th with
  | idle =>
      simp only [workerStep] at h
      split at h
      · cases h
        exact .inl rfl
      · split_ifs at h
        cases h
        exact .inl rfl
  | handling job =>
      cases job with
      | expireShard i =>
          obtain ⟨s₁, hs₁, heq⟩ := Option.map_eq_some_iff.mp h
          cases heq
          obtain ⟨hi, rfl⟩ := Shared.onShard_eq_some.mp hs₁
          exact .inr ⟨⟨i, hi⟩, _, rfl, .expire ⟨i, hi⟩ (.inr rfl)⟩
      | flushWriteBack t =>
          simp only [workerStep] at h
          split_ifs at h
          · cases h
            exact .inr ⟨_, _, rfl, .book _ _ (.resolve _)⟩
          · cases h
            exact .inl rfl
      | preloadKey i key ttl =>
          simp only [workerStep] at h
          split at h <;> cases h <;> exact .inl rfl
      | _ =>
          cases h
          exact .inl rfl
  | checked t =>
      simp only [workerStep] at h
      split_ifs at h <;> cases h <;> exact .inl rfl
  | failed t =>
      simp only [workerStep] at h
      split_ifs at h <;> cases h <;> exact .inl rfl
  | dropped t =>
      obtain ⟨s₁, hs₁, heq⟩ := Option.map_eq_some_iff.mp h
      cases heq
      have hstepped : s.Stepped hash c (.dropped t) s₁ := stepped_of_onShard hs₁ fun sh => .resolve _
      exact hstepped
  | landed t =>
      obtain ⟨s₁, hs₁, heq⟩ := Option.map_eq_some_iff.mp h
      cases heq
      have hstepped : s.Stepped hash c (.landed t) s₁ := stepped_of_onShard hs₁ fun sh => .finalize _
      exact hstepped
  | finishing =>
      cases h
      exact .inl rfl
  | _ => cases h

/-- A step of `close`. -/
theorem closeStep_shards (h : closeStep s c th = some (s', th')) : s.Stepped hash c th s' := by
  cases th with
  | closeCollect i =>
      simp only [closeStep] at h
      split_ifs at h
      cases h
      exact .inr ⟨_, _, rfl, .book _ _ (.register _)⟩
  | closeEnqueue i ts =>
      cases ts with
      | nil =>
          cases h
          exact .inl rfl
      | cons t ts =>
          simp only [closeStep] at h
          split_ifs at h <;> cases h <;> exact .inl rfl
  | closeRelease i ts =>
      cases ts with
      | nil =>
          cases h
          exact .inl rfl
      | cons t ts =>
          obtain ⟨s₁, hs₁, heq⟩ := Option.map_eq_some_iff.mp h
          cases heq
          exact stepped_of_onShard hs₁ fun sh => .resolve _
  | closeJoin =>
      simp only [closeStep] at h
      split_ifs at h <;> cases h <;> exact .inl rfl
  | syncCollect i failed =>
      simp only [closeStep] at h
      split_ifs at h <;> cases h <;> exact .inl rfl
  | syncNext i ts failed =>
      cases ts with
      | nil =>
          cases h
          exact .inl rfl
      | cons t ts =>
          simp only [closeStep] at h
          split_ifs at h
          · cases h
            exact .inr ⟨_, _, rfl, .book _ _ (.clearPending _)⟩
          · cases h
            exact .inl rfl
  | syncTry i t left ts failed =>
      simp only [closeStep] at h
      split_ifs at h
      · cases h
        exact .inl rfl
      · cases left <;> cases h <;> exact .inl rfl
  | syncClean i t ts failed =>
      obtain ⟨s₁, hs₁, heq⟩ := Option.map_eq_some_iff.mp h
      cases heq
      exact stepped_of_onShard hs₁ fun sh => .markClean _
  | syncSettle i t success ts failed =>
      obtain ⟨s₁, hs₁, heq⟩ := Option.map_eq_some_iff.mp h
      have hstepped : s.Stepped hash c (.syncSettle i t success ts failed) s₁ :=
        stepped_of_onShard hs₁ fun sh => .clearPending _
      cases success <;> cases heq <;> exact hstepped
  | closeStop failed =>
      simp only [closeStep] at h
      split_ifs at h <;> cases h <;> exact .inl rfl
  | closeDrain failed =>
      cases h
      exact .inl rfl
  | _ => cases h

/-- **A step of a thread** runs at most one section, on one shard. -/
theorem threadStep_shards (h : threadStep hash s c th = some (s', th')) : s.Stepped hash c th s' := by
  rcases threadStep_cases h with h | h | h
  · exact clientStep_shards h
  · exact workerStep_shards h
  · exact closeStep_shards h

/-! ### The keys of a shard -/

/-- A section that is no write brings no key. -/
theorem CacheShard.Tended.mem_keys {now : T} {sh sh' : CacheShard α V T} (h : sh.Tended now sh') {k : Key α}
    (hk : k ∈ sh'.backend.keys) : k ∈ sh.backend.keys := by
  rw [CacheShard.mem_keys_iff_timed] at hk ⊢
  rcases h.key k with ⟨-, htimed⟩ | ⟨v, d, -, -, -, hnone⟩
  · rwa [← htimed]
  · rw [hnone] at hk
    cases hk

/-- A bookkeeping section leaves the keys alone. -/
theorem Bookkeeping.mem_keys_iff {sh sh' : CacheShard α V T} (h : Bookkeeping sh sh') (k : Key α) :
    k ∈ sh'.backend.keys ↔ k ∈ sh.backend.keys := by
  have hdata : ∀ {sh' : CacheShard α V T}, sh.SameData sh' →
      (k ∈ sh'.backend.keys ↔ k ∈ sh.backend.keys) := fun hd => by rw [hd.keys_eq]
  cases h with
  | resolve key => exact hdata (CacheShard.sameData_resolvePendingLocked sh key)
  | clearPending key => exact hdata (CacheShard.sameData_clearPendingFlushesLocked sh key)
  | markClean job => exact hdata (CacheShard.sameData_markCleanLocked sh job)
  | finalize job => exact hdata (CacheShard.sameData_finalizeLocked sh job)
  | register jobs => exact hdata (CacheShard.sameData_registerAll sh jobs)
  | unregister key => exact Iff.rfl

/-- **Only a put brings a key** into a shard, the key that is put. -/
theorem ShardStep.mem_keys {i : Fin cfg.shardCount} {sh' : CacheShard α V T}
    (h : ShardStep hash c s th i sh') (ha : (s.shards i).Agrees) {k : Key α} (hk : k ∈ sh'.backend.keys) :
    k ∈ (s.shards i).backend.keys ∨ ∃ value ttl caller, th = .running (.put k value ttl) caller := by
  cases h with
  | get key caller hth => exact .inl ((CacheShard.tended_readValueLocked _ key _ _ _).mem_keys hk)
  | contains key caller hth => exact .inl ((CacheShard.tended_readValueLocked _ key _ _ _).mem_keys hk)
  | inspect key caller hth => exact .inl ((CacheShard.tended_inspectLocked _ key _).mem_keys hk)
  | put key value ttl caller hth =>
      have hdrop := CacheShard.tended_dropExpired (s.home hash key) key s.now
      by_cases hok : cfg.writeMode = .writeThrough ∧ c.ok key = false
      · rw [CacheShard.putLocked_of_raised _ _ _ _ _ _ hok] at hk
        exact .inl (hdrop.mem_keys hk)
      · rw [ha.putLocked_eq _ _ _ _ _ hok] at hk
        have hk' : k ∈ ((s.home hash key).fitted cfg.toCacheConfig key value ttl s.now).backend.keys := by
          simp only at hk
          split_ifs at hk <;> exact hk
        have hstored := ((CacheShard.mem_keys_fitted _ _ _ _ _ _ _).mp hk').2
        rcases OrderedDict.mem_keys_set.mp hstored with rfl | hk''
        · exact .inr ⟨value, ttl, caller, hth⟩
        · exact .inl (hdrop.mem_keys hk'')
  | delete key caller hth =>
      refine .inl ?_
      by_cases hok : cfg.writeMode = .writeThrough ∧ c.ok key = false
      · rwa [CacheShard.deleteLocked_of_raised _ _ _ _ hok] at hk
      · rw [InMemoryBackend.mem_keys_iff_isSome, CacheShard.getEntry_deleteLocked _ _ _ _ _ hok] at hk
        split_ifs at hk
        · cases hk
        · exact InMemoryBackend.mem_keys_iff_isSome.mpr hk
  | getOrCompute key ttl caller hth =>
      exact .inl ((CacheShard.tended_getOrComputeLocked _ key _ _).mem_keys hk)
  | restore key n caller hth =>
      exact .inl ((CacheShard.tended_restoreEntryMetadata _ key n s.now).mem_keys hk)
  | clear i ts hth =>
      refine .inl ?_
      obtain ⟨done, rest, -, hcleared, -⟩ :=
        CacheShard.clearLocked_spec cfg.toCacheConfig (s.shards i) s.source c.ok
      rw [InMemoryBackend.mem_keys_iff_isSome, hcleared.getEntry] at hk
      split_ifs at hk
      · cases hk
      · exact InMemoryBackend.mem_keys_iff_isSome.mpr hk
  | dump i taken limit hth => exact .inl ((CacheShard.tended_dumpLocked _ _).mem_keys hk)
  | expire i hth => exact .inl ((CacheShard.tended_expireShard _ _).mem_keys hk)
  | book i sh' hbook => exact .inl ((hbook.mem_keys_iff k).mp hk)

/-- See `ShardStep.mem_keys`. -/
theorem threadStep_mem_keys (h : threadStep hash s c th = some (s', th'))
    (ha : ∀ i, (s.shards i).Agrees) {j : Fin cfg.shardCount} {k : Key α}
    (hk : k ∈ (s'.shards j).backend.keys) :
    k ∈ (s.shards j).backend.keys ∨ ∃ value ttl caller, th = .running (.put k value ttl) caller := by
  rcases threadStep_shards h with heq | ⟨i, sh', heq, hsection⟩
  · rw [heq] at hk
    exact .inl hk
  · rw [heq] at hk
    by_cases hj : j = i
    · subst hj
      rw [Function.update_self] at hk
      exact hsection.mem_keys (ha j) hk
    · rw [Function.update_of_ne hj] at hk
      exact .inl hk

end Steps

end CacheLab
