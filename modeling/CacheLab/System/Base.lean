import CacheLab.System.Control

/-!
# What holds in every reachable state

* each shard keeps its index and its capacity, its policy agrees with its store, and it knows only
  keys that are routed to it (`ShardOk`);
* every outstanding flush job names the shard of its key;
* outside write-back mode there are no flush jobs, and `close` does not flush;
* the count of unfinished tasks is the number of queued jobs and of busy workers.

`step_cases` is the inversion of one step of the system, `Base` the invariant, `base_exec` says that
it holds along every run.
-/

set_option linter.unusedSectionVars false

namespace CacheLab

variable {α V T : Type} [DecidableEq α] [LinearOrder T] [Zero T] [Add T] [Sub T]

open WriteBehind

variable {cfg : AcceptedConfig T} {hash : Key α → ℕ}

/-! ### One shard -/

/-- The slot of a key the shard knows nothing about. -/
abbrev emptySlot : Slot V := ⟨none, none, none, none⟩

/-- What holds for the shard at index `i`. -/
structure ShardOk (cfg : AcceptedConfig T) (hash : Key α → ℕ) (i : Fin cfg.shardCount)
    (sh : CacheShard α V T) : Prop where
  index_eq : sh.index = i
  capacity_eq : sh.capacity = (shardCapacities cfg.capacity cfg.shardCount).getD i 0
  agrees : sh.Agrees
  routed : ∀ k, shardFor cfg hash k ≠ i → sh.slot k = emptySlot

namespace ShardOk

variable {i : Fin cfg.shardCount} {sh sh' : CacheShard α V T}

/-- A fresh shard. -/
theorem newShard (cfg : AcceptedConfig T) (hash : Key α → ℕ) (i : Fin cfg.shardCount) :
    ShardOk cfg hash i (newShard cfg i : CacheShard α V T) where
  index_eq := rfl
  capacity_eq := rfl
  agrees := ⟨EvictionPolicy.wf_makePolicy _, fun k => by simp [CacheLab.newShard]⟩
  routed k _ := rfl

/-- Keys without a slot are not resident. -/
theorem getEntry_eq_none (h : ShardOk cfg hash i sh) {k : Key α} (hk : shardFor cfg hash k ≠ i) :
    sh.backend.getEntry k = none := by
  simpa [CacheShard.slot] using congrArg Slot.entry (h.routed k hk)

/-- A resident key is routed to the shard. -/
theorem shardFor_eq (h : ShardOk cfg hash i sh) {k : Key α} {e : CacheEntry α V T}
    (he : sh.backend.getEntry k = some e) : shardFor cfg hash k = i := by
  by_contra hk
  rw [h.getEntry_eq_none hk] at he
  cases he

/-- A section that is no write. -/
theorem tended {now : T} (h : ShardOk cfg hash i sh) (ht : sh.Tended now sh') :
    ShardOk cfg hash i sh' where
  index_eq := ht.index_eq.trans h.index_eq
  capacity_eq := ht.capacity_eq.trans h.capacity_eq
  agrees := ht.agrees h.agrees
  routed k hk := by
    rcases ht.key k with ⟨hs, -⟩ | ⟨v, d, -, -, hs, -⟩
    · rw [hs, h.routed k hk]
    · rw [hs, h.routed k hk]
      rfl

/-- Bookkeeping that leaves empty slots empty. -/
theorem sameData (h : ShardOk cfg hash i sh) (hd : sh.SameData sh')
    (he : ∀ k, shardFor cfg hash k ≠ i → sh.slot k = emptySlot → sh'.slot k = emptySlot) :
    ShardOk cfg hash i sh' where
  index_eq := hd.index_eq.trans h.index_eq
  capacity_eq := hd.capacity_eq.trans h.capacity_eq
  agrees := hd.agrees h.agrees
  routed k hk := he k hk (h.routed k hk)

/-- A key that is routed to the shard is none of the others. -/
theorem ne_of_shardFor {key k : Key α} (hkey : shardFor cfg hash key = i)
    (hk : shardFor cfg hash k ≠ i) : k ≠ key :=
  fun h => hk (h ▸ hkey)

/-- The section of a put. -/
theorem putLocked (h : ShardOk cfg hash i sh) {key : Key α} (hkey : shardFor cfg hash key = i)
    (src : Source α V) (value : V) (ttl : Ttl T) (now : T) (ok : Bool) :
    ShardOk cfg hash i (sh.putLocked cfg.toCacheConfig src key value ttl now ok).shard := by
  have hdrop := h.tended (CacheShard.tended_dropExpired sh key now)
  by_cases hok : cfg.writeMode = .writeThrough ∧ ok = false
  · rwa [CacheShard.putLocked_of_raised sh src key value ttl now hok]
  · have hfit : ShardOk cfg hash i (sh.fitted cfg.toCacheConfig key value ttl now) := by
      refine ⟨by simp [h.index_eq], by simp [h.capacity_eq], h.agrees.fitted _ _ _ _ _, fun k hk => ?_⟩
      rw [CacheShard.slot_fitted, if_neg (ne_of_shardFor hkey hk), hdrop.routed k hk]
      simp only
      split_ifs <;> rfl
    rw [h.agrees.putLocked_eq src key value ttl now hok]
    simp only
    split_ifs
    · refine hfit.sameData (CacheShard.sameData_registerPendingLocked _ key) fun k hk he => ?_
      rw [CacheShard.slot_registerPendingLocked, Function.update_of_ne (ne_of_shardFor hkey hk), he]
    · exact hfit

/-- The section of a delete. -/
theorem deleteLocked (h : ShardOk cfg hash i sh) {key : Key α} (hkey : shardFor cfg hash key = i)
    (src : Source α V) (ok : Bool) :
    ShardOk cfg hash i (sh.deleteLocked cfg.toCacheConfig src key ok).shard := by
  unfold CacheShard.deleteLocked
  split_ifs
  · exact h
  · obtain ⟨hidx, hcap, hagr⟩ := CacheShard.eraseLocked_frame cfg.toCacheConfig sh src key
    refine ⟨hidx.trans h.index_eq, hcap.trans h.capacity_eq, (hagr h.agrees).congr rfl fun _ => Iff.rfl,
      fun k hk => ?_⟩
    show (CacheShard.eraseLocked cfg.toCacheConfig sh src key).shard.slot k = emptySlot
    rw [CacheShard.slot_eraseLocked, Function.update_of_ne (ne_of_shardFor hkey hk), h.routed k hk]

/-- The section of a clear. -/
theorem clearLocked (h : ShardOk cfg hash i sh) (src : Source α V) (ok : Key α → Bool) :
    ShardOk cfg hash i (sh.clearLocked cfg.toCacheConfig src ok).shard := by
  obtain ⟨done, rest, hsplit, hcleared, -⟩ := CacheShard.clearLocked_spec cfg.toCacheConfig sh src ok
  refine ⟨hcleared.index_eq.trans h.index_eq, hcleared.capacity_eq.trans h.capacity_eq,
    h.agrees.clearLocked _ src ok, fun k hk => ?_⟩
  have hnot : k ∉ done := by
    intro hmem
    have hres : k ∈ sh.backend.keys := hsplit ▸ List.mem_append_left _ hmem
    obtain ⟨e, he⟩ := InMemoryBackend.mem_keys_iff.mp hres
    exact hk (h.shardFor_eq he)
  rw [hcleared.slot, if_neg hnot, h.routed k hk]

/-- Releasing, settling and registering act on the slot of their own key. -/
theorem update_slot (h : ShardOk cfg hash i sh) (hd : sh.SameData sh') {key : Key α} {x : Slot V}
    (hkey : shardFor cfg hash key = i) (hs : sh'.slot = Function.update sh.slot key x) :
    ShardOk cfg hash i sh' :=
  h.sameData hd fun k hk he => by rw [hs, Function.update_of_ne (ne_of_shardFor hkey hk), he]

/-- The jobs that `close` collects belong to keys of the shard. -/
theorem shardFor_dirtyJobs (h : ShardOk cfg hash i sh) {job : FlushWriteBack α V}
    (hj : job ∈ sh.dirtyJobs cfg.toCacheConfig) :
    shardFor cfg hash job.key = i ∧ job.shardIndex = i := by
  rw [CacheShard.dirtyJobs, List.mem_append, List.mem_map, List.mem_map] at hj
  rcases hj with ⟨e, he, rfl⟩ | ⟨p, hp, rfl⟩
  · exact ⟨h.shardFor_eq (InMemoryBackend.mem_entryList.mp (List.mem_filter.mp he).1), h.index_eq⟩
  · refine ⟨?_, h.index_eq⟩
    by_contra hk
    have hnone : sh.tombstones.get? p.1 = none := congrArg Slot.tomb (h.routed p.1 hk)
    have hsome : sh.tombstones.get? p.1 = some p.2 := OrderedDict.get?_eq_some_iff.mpr hp
    rw [hnone] at hsome
    cases hsome

/-- The collection of `close`. -/
theorem registerAll (h : ShardOk cfg hash i sh) {jobs : List (FlushWriteBack α V)}
    (hjobs : ∀ job ∈ jobs, shardFor cfg hash job.key = i) : ShardOk cfg hash i (sh.registerAll jobs) := by
  unfold CacheShard.registerAll
  induction jobs generalizing sh with
  | nil => exact h
  | cons job jobs ih =>
      refine ih (h.update_slot (CacheShard.sameData_registerPendingLocked sh job.key)
        (hjobs job List.mem_cons_self) (CacheShard.slot_registerPendingLocked sh job.key)) ?_
      exact fun job' hj' => hjobs job' (List.mem_cons_of_mem job hj')

end ShardOk

/-! ### One step of the system -/

/-- The flush jobs whose pending counts stand: in the queue, in the hands of a thread, or lost. -/
def System.tickets (s : System α V cfg) : List (Ticket α V) :=
  s.shared.queue.tickets ++ s.threads.flatMap fun th => th.flushes.map Prod.snd

/-- All outstanding flush jobs: in the queue, or in the hands of a thread. -/
def System.underway (s : System α V cfg) : List (Ticket α V) :=
  s.shared.queue.queued ++ s.threads.flatMap fun th => th.flushes.map Prod.snd

/-- Where no job is lost, the outstanding ones are all. -/
theorem System.tickets_eq_underway {s : System α V cfg} (h : s.shared.queue.lost = []) : s.tickets = s.underway := by
  rw [System.tickets, System.underway, CacheJobQueue.tickets, h, List.nil_append]

/-- A thread that a step can add: a worker or a client call. -/
inductive Thread.Fresh : Thread α V T → Prop
  | idle : Fresh .idle
  | entering (op : Op α V T) : Fresh (.entering op (.client .done))

/-- **The inversion of a step of the system**: time passes, threads come in, or a thread moves. -/
theorem step_cases {s s' : System α V cfg} {l : Label α V T} (h : step cfg hash s l = some s') :
    (∃ now, l = .tick now ∧ s.shared.now ≤ now ∧ s' = { s with shared := { s.shared with now := now } }) ∨
      (∃ new : List (Thread α V T), (∀ th ∈ new, th.Fresh) ∧ s.shared.Same s'.shared ∧
        s'.threads = s.threads ++ new ∧ (∀ i c, l ≠ .run i c) ∧
        s'.shared.queue.unfinishedTasks + s.shared.queue.items.length =
          s.shared.queue.unfinishedTasks + s'.shared.queue.items.length) ∨
      ∃ i c th th', l = .run i c ∧ s.threads[i]? = some th ∧
        threadStep hash s.shared c th = some (s'.shared, th') ∧ s'.threads = s.threads.set i th' := by
  cases l with
  | tick now =>
      simp only [step] at h
      split_ifs at h with hle
      exact .inl ⟨now, rfl, hle, (Option.some.inj h).symm⟩
  | start =>
      right; left
      simp only [step] at h
      split at h <;> cases h
      · refine ⟨List.replicate cfg.workerCount .idle, fun th hth => ?_, ⟨rfl, rfl, rfl, rfl, rfl⟩, rfl,
          fun i c h => (by cases h), rfl⟩
        rw [List.eq_of_mem_replicate hth]
        exact .idle
      · exact ⟨[], by simp, .refl _, by simp, fun i c h => (by cases h), rfl⟩
  | call op =>
      right; left
      cases h
      refine ⟨[.entering op (.client .done)], fun th hth => ?_, .refl _, rfl, fun i c h => (by cases h), rfl⟩
      rw [List.mem_singleton.mp hth]
      exact .entering op
  | schedule i =>
      right; left
      simp only [step] at h
      split_ifs at h
      cases h
      exact ⟨[], by simp, ⟨rfl, rfl, rfl, rfl, CacheJobQueue.tickets_putNowait _ _ rfl⟩, by simp,
        fun i c h => (by cases h), CacheJobQueue.putNowait_counts _ _ _⟩
  | run i c =>
      right; right
      simp only [step, Option.bind_eq_some_iff, Option.map_eq_some_iff] at h
      obtain ⟨th, hth, r, hr, rfl⟩ := h
      exact ⟨i, c, th, r.2, rfl, hth, hr, rfl⟩

/-! ### The invariant -/

/-- What holds in every reachable state. -/
structure Base (hash : Key α → ℕ) (s : System α V cfg) : Prop where
  shards : ∀ i, ShardOk cfg hash i (s.shared.shards i)
  tickets : ∀ t ∈ s.tickets, t.job.shardIndex = shardFor cfg hash t.job.key
  threads : ∀ th ∈ s.threads, th.Fit ∧ th.Placed
  direct : cfg.writeMode ≠ .writeBack → s.tickets = [] ∧ ∀ th ∈ s.threads, th.flushing = false
  tally : s.shared.queue.unfinishedTasks =
    s.shared.queue.items.length + (s.threads.map Thread.busy).sum

/-- The invariant holds at the start. -/
theorem base_initial (cfg : AcceptedConfig T) (hash : Key α → ℕ) (now : T) (src : Source α V) :
    Base hash (initial cfg now src) where
  shards i := ShardOk.newShard cfg hash i
  tickets t ht := by cases ht
  threads th hth := by cases hth
  direct _ := ⟨rfl, fun th hth => by cases hth⟩
  tally := rfl

/-- A job whose count stands is queued or lost, or held by a thread. -/
theorem System.mem_tickets {s : System α V cfg} {t : Ticket α V} :
    t ∈ s.tickets ↔
      t ∈ s.shared.queue.tickets ∨ ∃ th ∈ s.threads, t ∈ th.flushes.map Prod.snd := by
  simp only [System.tickets, List.mem_append, List.mem_flatMap]

section Preservation

variable {s s' : Shared α V cfg} {c : Choice α V} {th : Thread α V T}
  {after : List (Stage × Ticket α V)}

/-- An effect keeps the shards in order, given that the jobs the thread holds name their shards. -/
theorem Effect.shardOk (h : Effect hash c s th s' after) (hs : ∀ i, ShardOk cfg hash i (s.shards i))
    (ht : ∀ x ∈ th.flushes, x.2.job.shardIndex = shardFor cfg hash x.2.job.key) (j : Fin cfg.shardCount) :
    ShardOk cfg hash j (s'.shards j) := by
  have hupdate : ∀ (i : Fin cfg.shardCount) (sh' : CacheShard α V T), ShardOk cfg hash i sh' →
      s'.shards = Function.update s.shards i sh' → ShardOk cfg hash j (s'.shards j) := by
    intro i sh' hok heq
    rw [heq]
    by_cases hj : j = i
    · subst hj
      rwa [Function.update_self]
    · rw [Function.update_of_ne hj]
      exact hs j
  have hplace : ∀ {t : Ticket α V} {st : Stage} {ts : List (Stage × Ticket α V)}
      {i : Fin cfg.shardCount}, th.flushes = (st, t) :: ts → t.job.shardIndex = i →
      shardFor cfg hash t.job.key = i := by
    intro t st ts i hth hi
    exact Fin.ext ((ht _ (hth ▸ List.mem_cons_self)).symm.trans hi)
  cases h with
  | tend i htend hnow hshards hsource hlog hshift => exact hupdate i _ ((hs i).tended htend) hshards
  | put key value ttl caller hth hsame =>
      exact hupdate _ _ ((hs _).putLocked rfl s.source value ttl s.now _) hsame.shards_eq
  | delete key ok hth hsame => exact hupdate _ _ ((hs _).deleteLocked rfl s.source ok) hsame.shards_eq
  | clear i ok ts hth hsame => exact hupdate i _ ((hs i).clearLocked s.source ok) hsame.shards_eq
  | check t hth i hi hst hsame =>
      rw [hsame.shards_eq]
      exact hs j
  | skip t hth hrel i hi hst hsame =>
      exact hupdate i _ ((hs i).update_slot (CacheShard.sameData_resolvePendingLocked _ _)
        (hplace hth hi) (CacheShard.slot_resolvePendingLocked _ _)) hsame.shards_eq
  | apply t hth hok hsame =>
      rw [hsame.shards_eq]
      exact hs j
  | fail t hth hsame =>
      rw [hsame.shards_eq]
      exact hs j
  | giveUp ts hth hgive hsame =>
      rw [hsame.shards_eq]
      exact hs j
  | release t ts hth hrel i hi hsame =>
      exact hupdate i _ ((hs i).update_slot (CacheShard.sameData_resolvePendingLocked _ _)
        (hplace hth hi) (CacheShard.slot_resolvePendingLocked _ _)) hsame.shards_eq
  | settle t hth hrel i hi hsame =>
      exact hupdate i _ ((hs i).update_slot (CacheShard.sameData_finalizeLocked _ _)
        (hplace hth hi) (CacheShard.slot_finalizeLocked _ _)) hsame.shards_eq
  | collect i hth hwb hsame =>
      exact hupdate i _ ((hs i).registerAll fun job hj => ((hs i).shardFor_dirtyJobs hj).1)
        hsame.shards_eq

/-- A winding step keeps the shards in order. -/
theorem Wound.shardOk {flushing : Bool} (h : Wound s s' flushing)
    (hs : ∀ i, ShardOk cfg hash i (s.shards i)) (j : Fin cfg.shardCount) :
    ShardOk cfg hash j (s'.shards j) := by
  obtain ⟨i, sh', heq, hd, he⟩ := h.shards
  rw [heq]
  by_cases hj : j = i
  · subst hj
    rw [Function.update_self]
    exact (hs j).sameData hd fun k _ hk => he k hk
  · rw [Function.update_of_ne hj]
    exact hs j

/-- The jobs of a section name the shard and the key of the section. -/
theorem mem_ticketsFrom {base : ℕ} {jobs : List (FlushWriteBack α V)} {t : Ticket α V}
    (h : t ∈ ticketsFrom base jobs) : t.job ∈ jobs := by
  rw [ticketsFrom, List.mem_mapIdx] at h
  obtain ⟨i, hi, rfl⟩ := h
  exact List.getElem_mem hi

/-- The jobs of a put. -/
theorem putSection_tickets (hs : ∀ i, ShardOk cfg hash i (s.shards i)) {key : Key α} {value : V}
    {ttl : Ttl T} {ok : Bool} {t : Ticket α V} (h : t ∈ (s.putSection hash key value ttl ok).2.1) :
    t.job.shardIndex = shardFor cfg hash t.job.key ∧ cfg.writeMode = .writeBack := by
  have hjob := mem_ticketsFrom h
  by_cases hok : cfg.writeMode = .writeThrough ∧ ok = false
  · rw [CacheShard.putLocked_of_raised _ _ _ _ _ _ hok] at hjob
    cases hjob
  · rw [(hs _).agrees.putLocked_eq _ _ _ _ _ hok] at hjob
    simp only [CacheShard.putJobs] at hjob
    split_ifs at hjob with hwb
    · rw [List.mem_singleton.mp hjob]
      exact ⟨(hs _).index_eq, hwb⟩
    · cases hjob

/-- The jobs of a delete. -/
theorem deleteSection_tickets (hs : ∀ i, ShardOk cfg hash i (s.shards i)) {key : Key α} {ok : Bool}
    {t : Ticket α V} (h : t ∈ (s.deleteSection hash key ok).2.1) :
    t.job.shardIndex = shardFor cfg hash t.job.key ∧ cfg.writeMode = .writeBack := by
  have hjob := mem_ticketsFrom h
  simp only [CacheShard.deleteLocked] at hjob
  split_ifs at hjob
  · cases hjob
  · simp only [CacheShard.eraseLocked] at hjob
    split_ifs at hjob with hwb
    · rw [List.mem_singleton.mp hjob]
      exact ⟨(hs _).index_eq, hwb⟩
    · cases hjob

/-- The jobs of a clear. -/
theorem clearSection_tickets (hs : ∀ i, ShardOk cfg hash i (s.shards i)) {i : Fin cfg.shardCount}
    {ok : Key α → Bool} {t : Ticket α V} (h : t ∈ (s.clearSection i ok).2.1) :
    t.job.shardIndex = shardFor cfg hash t.job.key ∧ cfg.writeMode = .writeBack := by
  have hjob := mem_ticketsFrom h
  obtain ⟨done, rest, hsplit, -, hjobs, -⟩ :=
    CacheShard.clearLocked_spec cfg.toCacheConfig (s.shards i) s.source ok
  rw [hjobs] at hjob
  split_ifs at hjob with hwb
  · obtain ⟨k, hk, hjob⟩ := List.mem_map.mp hjob
    have hres : k ∈ (s.shards i).backend.keys := hsplit ▸ List.mem_append_left _ hk
    obtain ⟨e, he⟩ := InMemoryBackend.mem_keys_iff.mp hres
    rw [← hjob]
    refine ⟨?_, hwb⟩
    show (s.shards i).index = (shardFor cfg hash k : ℕ)
    rw [(hs i).index_eq, (hs i).shardFor_eq he]
  · cases hjob

/-- The jobs after an effect name the shards of their keys, if the jobs before it do. -/
theorem Effect.tickets (h : Effect hash c s th s' after) (hs : ∀ i, ShardOk cfg hash i (s.shards i))
    (ht : ∀ t, t ∈ s.queue.tickets ∨ t ∈ th.flushes.map Prod.snd →
      t.job.shardIndex = shardFor cfg hash t.job.key) {t : Ticket α V}
    (hmem : t ∈ s'.queue.tickets ∨ t ∈ after.map Prod.snd) :
    t.job.shardIndex = shardFor cfg hash t.job.key := by
  cases h with
  | tend i htend hnow hshards hsource hlog hshift =>
      obtain ⟨t', ht', rfl | rfl⟩ := hshift.stems t hmem
      · exact ht t ht'
      · exact ht t' ht'
  | put key value ttl caller hth hsame =>
      rw [hsame.tickets_eq, map_snd_staged] at hmem
      exact hmem.elim (fun hq => ht t (.inl hq)) fun hnew => (putSection_tickets hs hnew).1
  | delete key ok hth hsame =>
      rw [hsame.tickets_eq, map_snd_staged] at hmem
      exact hmem.elim (fun hq => ht t (.inl hq)) fun hnew => (deleteSection_tickets hs hnew).1
  | clear i ok ts hth hsame =>
      rw [hsame.tickets_eq] at hmem
      split_ifs at hmem
      · exact hmem.elim (fun hq => ht t (.inl hq)) fun hnew => by cases hnew
      · rw [map_snd_staged, List.mem_append] at hmem
        rcases hmem with hq | hold | hnew
        · exact ht t (.inl hq)
        · exact ht t (.inr (by rwa [hth, map_snd_staged]))
        · exact (clearSection_tickets hs hnew).1
  | check t' hth i hi hst hsame =>
      rw [hsame.tickets_eq] at hmem
      exact ht t (hth ▸ hmem)
  | skip t' hth hrel i hi hst hsame =>
      rw [hsame.tickets_eq] at hmem
      exact hmem.elim (fun hq => ht t (.inl hq)) fun hnew => by cases hnew
  | apply t' hth hok hsame =>
      rw [hsame.tickets_eq] at hmem
      exact ht t (hth ▸ hmem)
  | fail t' hth hsame =>
      rw [hsame.tickets_eq] at hmem
      exact ht t (hth ▸ hmem)
  | giveUp ts hth hgive hsame =>
      rw [hsame.tickets_eq, map_snd_staged] at hmem
      exact ht t (by rwa [hth, map_snd_staged])
  | release t' ts hth hrel i hi hsame =>
      rw [hsame.tickets_eq, map_snd_staged] at hmem
      refine ht t (hmem.imp_right fun hold => ?_)
      rw [hth, map_snd_staged]
      exact List.mem_cons_of_mem t' hold
  | settle t' hth hrel i hi hsame =>
      rw [hsame.tickets_eq] at hmem
      exact hmem.elim (fun hq => ht t (.inl hq)) fun hnew => by cases hnew
  | collect i hth hwb hsame =>
      rw [hsame.tickets_eq, map_snd_staged] at hmem
      rcases hmem with hq | hnew
      · exact ht t (.inl hq)
      · obtain ⟨job, hjob, rfl⟩ := List.mem_map.mp hnew
        obtain ⟨hkey, hidx⟩ := (hs i).shardFor_dirtyJobs hjob
        show job.shardIndex = (shardFor cfg hash job.key : ℕ)
        rw [hkey, hidx]

/-- Outside write-back mode an effect makes no jobs. -/
theorem Effect.direct (h : Effect hash c s th s' after) (hs : ∀ i, ShardOk cfg hash i (s.shards i))
    (hmode : cfg.writeMode ≠ .writeBack) (hq : s.queue.tickets = []) (hb : th.flushes = []) :
    s'.queue.tickets = [] ∧ after = [] := by
  have hnone : ∀ ts : List (Ticket α V), (∀ t ∈ ts, cfg.writeMode = .writeBack) → ts = [] := by
    intro ts hts
    cases ts with
    | nil => rfl
    | cons t ts => exact absurd (hts t List.mem_cons_self) hmode
  cases h with
  | tend i htend hnow hshards hsource hlog hshift =>
      rw [hq, hb] at hshift
      have hno : ∀ t, ¬ (t ∈ s'.queue.tickets ∨ t ∈ after.map Prod.snd) := by
        intro t hmem
        obtain ⟨t', ht', -⟩ := hshift.stems t hmem
        simp at ht'
      refine ⟨List.eq_nil_iff_forall_not_mem.mpr fun t ht => hno t (.inl ht), ?_⟩
      exact List.map_eq_nil_iff.mp (List.eq_nil_iff_forall_not_mem.mpr fun t ht => hno t (.inr ht))
  | put key value ttl caller hth hsame =>
      rw [hnone _ fun t ht => (putSection_tickets hs ht).2]
      exact ⟨hsame.tickets_eq.trans hq, rfl⟩
  | delete key ok hth hsame =>
      rw [hnone _ fun t ht => (deleteSection_tickets hs ht).2]
      exact ⟨hsame.tickets_eq.trans hq, rfl⟩
  | clear i ok ts hth hsame =>
      have hts : ts = [] := List.map_eq_nil_iff.mp (hth.symm.trans hb)
      rw [hnone _ fun t ht => (clearSection_tickets hs ht).2, hts]
      exact ⟨hsame.tickets_eq.trans hq, by split_ifs <;> rfl⟩
  | giveUp ts hth hgive hsame =>
      rw [List.map_eq_nil_iff.mp (hth.symm.trans hb)]
      exact ⟨hsame.tickets_eq.trans hq, rfl⟩
  | collect i hth hwb hsame => exact absurd hwb hmode
  | check t hth i hi hst hsame => cases hth.symm.trans hb
  | skip t hth hrel i hi hst hsame => cases hth.symm.trans hb
  | apply t hth hok hsame => cases hth ▸ hb
  | fail t hth hsame => cases hth ▸ hb
  | release t ts hth hrel i hi hsame => cases hth.symm.trans hb
  | settle t hth hrel i hi hsame => cases hth.symm.trans hb

end Preservation

/-- A thread that comes in holds no jobs, is not busy and is at no point of `close` after its start. -/
theorem Thread.Fresh.spec {th : Thread α V T} (h : th.Fresh) :
    th.flushes = [] ∧ th.Fit ∧ th.Placed ∧ th.flushing = false ∧ th.busy = 0 := by
  cases h with
  | idle => exact ⟨rfl, trivial, trivial, rfl, rfl⟩
  | entering op =>
      refine ⟨rfl, .inl rfl, trivial, rfl, ?_⟩
      cases op <;> rfl

/-- The outstanding jobs after threads came in. -/
theorem System.tickets_of_same {s s' : System α V cfg} {new : List (Thread α V T)}
    (hs : s.shared.Same s'.shared) (hnew : ∀ th ∈ new, th.Fresh)
    (hth : s'.threads = s.threads ++ new) : s'.tickets = s.tickets := by
  have hflat : (new.flatMap fun th => th.flushes.map Prod.snd) = [] :=
    List.flatMap_eq_nil_iff.mpr fun th h => by rw [(hnew th h).spec.1, List.map_nil]
  rw [System.tickets, System.tickets, hs.tickets_eq, hth, List.flatMap_append, hflat, List.append_nil]

/-- What a thread holds is outstanding. -/
theorem System.mem_tickets_of_held {s : System α V cfg} {i : ℕ} {th : Thread α V T}
    (hth : s.threads[i]? = some th) {t : Ticket α V}
    (ht : t ∈ s.shared.queue.tickets ∨ t ∈ th.flushes.map Prod.snd) : t ∈ s.tickets :=
  System.mem_tickets.mpr (ht.imp_right fun h => ⟨th, List.mem_of_getElem? hth, h⟩)

/-- The outstanding jobs after a thread moved. -/
theorem System.mem_tickets_set {s s' : System α V cfg} {i : ℕ} {th' : Thread α V T}
    (hset : s'.threads = s.threads.set i th') {t : Ticket α V} (ht : t ∈ s'.tickets) :
    (t ∈ s'.shared.queue.tickets ∨ t ∈ th'.flushes.map Prod.snd) ∨ t ∈ s.tickets := by
  rcases System.mem_tickets.mp ht with hq | ⟨x, hx, hxt⟩
  · exact .inl (.inl hq)
  · rw [hset] at hx
    rcases List.mem_or_eq_of_mem_set hx with hx | rfl
    · exact .inr (System.mem_tickets.mpr (.inr ⟨x, hx, hxt⟩))
    · exact .inl (.inr hxt)

/-- A member of a list with one slot replaced. -/
theorem forall_mem_set {β : Type} {P : β → Prop} {l : List β} {i : ℕ} {b : β} (h : ∀ x ∈ l, P x)
    (hb : P b) : ∀ x ∈ l.set i b, P x := by
  intro x hx
  rcases List.mem_or_eq_of_mem_set hx with hx | rfl
  · exact h x hx
  · exact hb

/-- `close` flushes in write-back mode only. -/
theorem Base.flushing_mode {s : System α V cfg} (hb : Base hash s) {th : Thread α V T}
    (hmem : th ∈ s.threads) (hf : th.flushing = true) : cfg.writeMode = .writeBack := by
  by_contra hmode
  rw [(hb.direct hmode).2 th hmem] at hf
  cases hf

/-- **Every step keeps the invariant.** -/
theorem Base.step {s s' : System α V cfg} {l : Label α V T} (hb : Base hash s)
    (h : step cfg hash s l = some s') : Base hash s' := by
  rcases step_cases h with ⟨now, -, -, rfl⟩ | ⟨new, hnew, hsame, hth, -, hcount⟩ |
    ⟨i, c, th, th', -, hi, hstep, hset⟩
  · exact ⟨hb.shards, hb.tickets, hb.threads, hb.direct, hb.tally⟩
  · have htick := System.tickets_of_same hsame hnew hth
    refine ⟨?_, ?_, ?_, ?_, ?_⟩
    · rw [hsame.shards_eq]
      exact hb.shards
    · rw [htick]
      exact hb.tickets
    · intro th hmem
      rw [hth, List.mem_append] at hmem
      rcases hmem with hmem | hmem
      · exact hb.threads th hmem
      · exact ⟨(hnew th hmem).spec.2.1, (hnew th hmem).spec.2.2.1⟩
    · intro hmode
      rw [htick, hth]
      refine ⟨(hb.direct hmode).1, fun th hmem => ?_⟩
      rcases List.mem_append.mp hmem with hmem | hmem
      · exact (hb.direct hmode).2 th hmem
      · exact (hnew th hmem).spec.2.2.2.1
    · have hbusy : (new.map Thread.busy).sum = 0 :=
        List.sum_eq_zero fun n hn => by
          obtain ⟨th, hmem, rfl⟩ := List.mem_map.mp hn
          exact (hnew th hmem).spec.2.2.2.2
      have htally := hb.tally
      rw [hth, List.map_append, List.sum_append, hbusy]
      omega
  · have hmem := List.mem_of_getElem? hi
    obtain ⟨hfit, hplaced⟩ := hb.threads th hmem
    have hcontrol := threadStep_control hstep hfit hplaced fun i => (hb.shards i).index_eq
    have heff := threadStep_effect hstep hplaced (hb.flushing_mode hmem)
    have hheld : ∀ t, t ∈ s.shared.queue.tickets ∨ t ∈ th.flushes.map Prod.snd →
        t.job.shardIndex = shardFor cfg hash t.job.key :=
      fun t ht => hb.tickets t (System.mem_tickets_of_held hi ht)
    refine ⟨?_, ?_, ?_, ?_, ?_⟩
    · rcases heff with ⟨-, heff⟩ | ⟨-, hwound, -⟩
      · exact heff.shardOk hb.shards fun x hx => hheld x.2 (.inr (List.mem_map_of_mem hx))
      · exact hwound.shardOk hb.shards
    · intro t ht
      rcases System.mem_tickets_set hset ht with ht | ht
      · rcases heff with ⟨-, heff⟩ | ⟨-, hwound, -, hnil⟩
        · exact heff.tickets hb.shards hheld ht
        · rw [hnil] at ht
          exact ht.elim (fun hq => hheld t (.inl (hwound.tickets t hq))) fun h => by cases h
      · exact hb.tickets t ht
    · rw [hset]
      exact forall_mem_set hb.threads ⟨hcontrol.fit, hcontrol.placed⟩
    · intro hmode
      obtain ⟨hnone, hnofl⟩ := hb.direct hmode
      have hno : ∀ t, ¬ (t ∈ s.shared.queue.tickets ∨ t ∈ th.flushes.map Prod.snd) := by
        intro t ht
        have hmem := System.mem_tickets_of_held hi ht
        rw [hnone] at hmem
        cases hmem
      have hq : s.shared.queue.tickets = [] :=
        List.eq_nil_iff_forall_not_mem.mpr fun t ht => hno t (.inl ht)
      have hheld : th.flushes = [] :=
        List.map_eq_nil_iff.mp (List.eq_nil_iff_forall_not_mem.mpr fun t ht => hno t (.inr ht))
      have hafter : s'.shared.queue.tickets = [] ∧ th'.flushes = [] := by
        rcases heff with ⟨-, heff⟩ | ⟨-, hwound, -, hnil⟩
        · exact heff.direct hb.shards hmode hq hheld
        · refine ⟨List.eq_nil_iff_forall_not_mem.mpr fun t ht => ?_, hnil⟩
          have := hwound.tickets t ht
          rw [hq] at this
          cases this
      refine ⟨List.eq_nil_iff_forall_not_mem.mpr fun t ht => ?_, ?_⟩
      · rcases System.mem_tickets_set hset ht with ht | ht
        · simp [hafter.1, hafter.2] at ht
        · simp [hnone] at ht
      · rw [hset]
        exact forall_mem_set hnofl (hcontrol.flushing hmode (hnofl th hmem))
    · obtain ⟨rest, hsum, hsum'⟩ := Transition.sum_map_set Thread.busy hi
      have htally := hb.tally
      rw [hsum] at htally
      have hcount := hcontrol.unfinished (by omega)
      rw [hset, hsum']
      omega

/-- **The invariant holds along every run.** -/
theorem base_exec {s : System α V cfg} {now : T} {src : Source α V} {ls : List (Label α V T)}
    (h : exec cfg hash (initial cfg now src) ls = some s) : Base hash s := by
  have hstep : ∀ (s : System α V cfg) l s', step cfg hash s l = some s' → Base hash s → Base hash s' :=
    fun _ _ _ hs hb => hb.step hs
  exact Transition.run_invariant_of_step hstep h (base_initial cfg hash now src)

end CacheLab
