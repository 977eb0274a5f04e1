import CacheLab.Properties.FlushSafety
import CacheLab.System.Quiet
import CacheLab.System.Closing

/-!
# Closed means closed

A put, a delete and a clear check the lifecycle under one lock and write under another one. Between the
two `close` can run, from the first step to the last.

* `closed_means_closed`: where no put, delete or clear is past its check when `close` sets `CLOSING`, none
  of them changes entries, marks, tombstones or pending counts any more, and a `close(flush=True)` that
  returns normally leaves no dirty entry and no tombstone;
* `put_after_close` is a run in which a put passes its check, `close` runs to its end, and the put stores
  a dirty entry that nobody will flush, and returns.
-/

set_option linter.unusedSectionVars false

namespace CacheLab

variable {α V T : Type} [DecidableEq α] [LinearOrder T] [Zero T] [Add T] [Sub T]

open WriteBehind

variable {cfg : AcceptedConfig T} {hash : Key α → ℕ}

/-! ### The property -/

/-- Entries, version marks, tombstones and pending counts are the same. -/
structure CacheShard.SameContent (sh sh' : CacheShard α V T) : Prop where
  backend_eq : sh'.backend = sh.backend
  versionMarks_eq : sh'.versionMarks = sh.versionMarks
  tombstones_eq : sh'.tombstones = sh.tombstones
  pendingFlushes_eq : sh'.pendingFlushes = sh.pendingFlushes

/-- The thread is in a put, a delete or a clear. -/
def Thread.inWrite : Thread α V T → Bool
  | .entering (.put _ _ _) _ => true
  | .entering (.delete _) _ => true
  | .entering .clear _ => true
  | th => th.writing

/-- If the cache is shut and the step is one of a put, a delete or a clear, it changes nothing. -/
def WritesNothing (cfg : AcceptedConfig T) (hash : Key α → ℕ) (s : System α V cfg) (l : Label α V T) :
    Prop :=
  s.shared.shut → ∀ i c th, l = .run i c → s.threads[i]? = some th → th.inWrite = true →
    ∀ s', step cfg hash s l = some s' → ∀ m, (s.shared.shards m).SameContent (s'.shared.shards m)

/-- There is no dirty entry and no tombstone. -/
def Shared.Drained (s : Shared α V cfg) : Prop :=
  ∀ m, (∀ e ∈ (s.shards m).backend.entryList, e.dirty = false) ∧ (s.shards m).tombstones.keys = []

/-- **Closed means closed**, for a run in which `close(flush)` is called after `ls₁`: no put, delete or
clear changes anything once the cache is shut, and when `close` has flushed and returned, nothing is left
to flush. -/
structure ClosedMeansClosed (cfg : AcceptedConfig T) (hash : Key α → ℕ) (s₀ : System α V cfg)
    (ls₁ : List (Label α V T)) (flush : Option Bool) (ls₂ : List (Label α V T)) : Prop where
  writesNothing : Transition.Along (step cfg hash) (WritesNothing cfg hash) s₀
    (ls₁ ++ .call (.close flush) :: ls₂)
  drained : ∀ s₁ s, exec cfg hash s₀ ls₁ = some s₁ →
    exec cfg hash s₁ (.call (.close flush) :: ls₂) = some s → cfg.writeMode = .writeBack →
    flush.getD cfg.shutdownFlush = true → s.threads[s₁.threads.length]? = some (Thread.finished .done) →
    s.shared.Drained

/-! ### The condition -/

/-- The thread is in a put, a delete or a clear, past its lifecycle check, and a lock section is left: that
of a write, or, where the queue is bounded, that of a pending count to be taken back. -/
def Thread.unsettled (cfg : AcceptedConfig T) : Thread α V T → Bool
  | .running (.put _ _ _) _ => true
  | .running (.delete _) _ => true
  | .running .clear _ => true
  | .clearing i ts => decide (i < cfg.shardCount) || (decide (cfg.queueSize ≠ 0) && !ts.isEmpty)
  | .enqueuing ts _ => decide (cfg.queueSize ≠ 0) && !ts.isEmpty
  | .releasing ts _ => !ts.isEmpty
  | _ => false

/-- In this step `close` sets `CLOSING` while a put, a delete or a clear is past its check. -/
def closesOver (s : System α V cfg) : Label α V T → Bool
  | .run i _ =>
      match s.threads[i]?, s.shared.lifecycle with
      | some (.entering (.close _) _), .created => s.threads.any (Thread.unsettled cfg)
      | some (.entering (.close _) _), .started => s.threads.any (Thread.unsettled cfg)
      | _, _ => false
  | _ => false

section Settled

variable {s s' : Shared α V cfg} {c : Choice α V} {th th' : Thread α V T}

/-- Whoever is unsettled is writing. -/
theorem Thread.writing_of_unsettled (h : th.unsettled cfg = true) : th.writing = true := by
  cases th with
  | running op caller => cases op <;> first | rfl | cases h
  | _ => first | rfl | cases h

/-- A thread that does not write is settled. -/
theorem Thread.unsettled_of_writing (h : th.writing = false) : th.unsettled cfg = false := by
  by_contra hu
  rw [Bool.not_eq_false] at hu
  rw [Thread.writing_of_unsettled hu] at h
  cases h

/-- A call of a settled thread that starts enqueuing stays settled. -/
theorem enqueueOr_settled {ts : List (Ticket α V)} {caller : Caller α V T} (hq : cfg.queueSize = 0 ∨ ts = [])
    (h : enqueueOr s ts caller = (s', th')) : s'.shards = s.shards ∧ th'.unsettled cfg = false := by
  cases ts with
  | nil =>
      cases h
      exact ⟨by cases caller <;> rfl, Thread.unsettled_of_writing caller.writing_returned⟩
  | cons t ts =>
      cases h
      have hsize := hq.resolve_right (List.cons_ne_nil t ts)
      exact ⟨rfl, by simp [Thread.unsettled, hsize]⟩

/-- A settled thread that is still writing moves tickets only. -/
theorem threadStep_of_writing (h : threadStep hash s c th = some (s', th')) (hw : th.writing = true)
    (hth : th.unsettled cfg = false) : s'.shards = s.shards ∧ th'.unsettled cfg = false := by
  have hclient : clientStep hash s c th = some (s', th') := by
    refine clientStep_of_threadStep h ?_ ?_ <;> cases th <;> first | rfl | cases hw
  cases th with
  | running op caller => cases op <;> first | (cases hth; done) | cases hw
  | clearing i ts =>
      simp only [Thread.unsettled, Bool.or_eq_false_iff, Bool.and_eq_false_iff, decide_eq_false_iff_not, not_not,
        Bool.not_eq_false', List.isEmpty_iff] at hth
      simp only [clientStep, hth.1, dif_neg, not_false_eq_true] at hclient
      exact enqueueOr_settled hth.2 (Option.some.inj hclient)
  | enqueuing ts caller =>
      cases ts with
      | nil =>
          have henqueue : enqueueOr s [] caller = (s', th') := Option.some.inj hclient
          exact enqueueOr_settled (.inr rfl) henqueue
      | cons t ts =>
          have hsize : cfg.queueSize = 0 := by simpa [Thread.unsettled] using hth
          simp only [clientStep] at hclient
          split_ifs at hclient with hrej hfull
          · rw [s.rejects_of_unbounded hsize] at hrej
            cases hrej
          · simp [CacheJobQueue.full, hsize] at hfull
          · obtain ⟨hshards, hth'⟩ := enqueueOr_settled (.inl hsize) (Option.some.inj hclient)
            exact ⟨hshards, hth'⟩
  | releasing ts caller =>
      cases ts with
      | nil =>
          cases hclient
          refine ⟨by cases caller <;> rfl, ?_⟩
          cases caller <;> rfl
      | cons t ts => cases hth
  | _ => cases hw

/-- **A settled thread in a shut cache**: it stays settled, it is no write, and if it is in a put, a delete
or a clear it changes no shard. -/
theorem threadStep_of_settled (h : threadStep hash s c th = some (s', th')) (hshut : s.shut)
    (hth : th.unsettled cfg = false) :
    th'.unsettled cfg = false ∧ (∀ i k, ((s.shards i).slot k).Eases ((s'.shards i).slot k)) ∧
      (th.inWrite = true → s'.shards = s.shards) := by
  cases hw : th.writing with
  | true =>
      obtain ⟨hshards, hth'⟩ := threadStep_of_writing h hw hth
      exact ⟨hth', fun i k => by rw [hshards]; exact .refl _, fun _ => hshards⟩
  | false =>
      have hquiet := threadStep_quiet h hw
      refine ⟨?_, hquiet.eases, fun hin => ?_⟩
      · by_contra hu
        exact (hquiet.writing (Thread.writing_of_unsettled (by simpa using hu))).1 hshut
      · cases th with
        | entering op caller =>
            have hclient := clientStep_of_threadStep h rfl rfl
            rcases entering_cases hclient with ⟨rfl, -⟩ | ⟨rfl, -⟩ | ⟨rfl, -⟩ | ⟨rfl, -⟩
            · cases caller <;> rfl
            · rfl
            · rfl
            · rfl
        | running op caller => cases op <;> first | (cases hin; done) | cases hw
        | _ => first | (cases hin; done) | cases hw

end Settled

/-! ### No write after the check -/

/-- Once the cache is shut, every thread is settled; and a `close` that got past its check has shut it. -/
structure Settled (hash : Key α → ℕ) (s : System α V cfg) : Prop where
  base : Base hash s
  settled : s.shared.shut → ∀ th ∈ s.threads, th.unsettled cfg = false
  closing : ∀ th ∈ s.threads, th.role = .closer →
    (∃ flush caller, th = .entering (.close flush) caller) ∨ s.shared.shut

section Run

variable {s s' : System α V cfg} {l : Label α V T} {i j : ℕ} {c : Choice α V} {th th' : Thread α V T}

/-- A step that is none of a thread leaves the shards alone and does not shut the cache. -/
theorem step_outside (h : step cfg hash s l = some s') :
    (∃ new : List (Thread α V T), (∀ th ∈ new, th.unsettled cfg = false) ∧
      (∀ th ∈ new, th.role = .closer →
        l.closes = true ∧ ∃ flush caller, th = .entering (.close flush) caller) ∧
      s'.threads = s.threads ++ new ∧ s'.shared.shards = s.shared.shards ∧
      (s'.shared.shut ↔ s.shared.shut) ∧ ∀ i c, l ≠ .run i c) ∨
    ∃ i c th th', l = .run i c ∧ s.threads[i]? = some th ∧
      threadStep hash s.shared c th = some (s'.shared, th') ∧ s'.threads = s.threads.set i th' := by
  cases l with
  | tick now =>
      simp only [step] at h
      split_ifs at h
      cases h
      exact .inl ⟨[], by simp, by simp, by simp, rfl, .rfl, fun i c e => by cases e⟩
  | start =>
      simp only [step] at h
      split at h
      · next hlife =>
          cases h
          refine .inl ⟨List.replicate cfg.workerCount .idle, fun th hth => ?_, fun th hth hrole => ?_, rfl,
            rfl, ?_, fun i c e => by cases e⟩
          · rw [List.eq_of_mem_replicate hth]
            rfl
          · rw [List.eq_of_mem_replicate hth] at hrole
            cases hrole
          · simp [Shared.shut, hlife]
      · cases h
        exact .inl ⟨[], by simp, by simp, by simp, rfl, .rfl, fun i c e => by cases e⟩
      · cases h
  | call op =>
      cases h
      refine .inl ⟨[.entering op (.client .done)], fun th hth => ?_, fun th hth hrole => ?_, rfl, rfl, .rfl,
        fun i c e => by cases e⟩
      · rw [List.mem_singleton.mp hth]
        rfl
      · rw [List.mem_singleton.mp hth] at hrole ⊢
        cases op <;> first | (cases hrole; done) | exact ⟨rfl, _, _, rfl⟩
  | schedule i =>
      simp only [step] at h
      split_ifs at h
      cases h
      exact .inl ⟨[], by simp, by simp, by simp, rfl, .rfl, fun i c e => by cases e⟩
  | run i c =>
      obtain ⟨th, hth, h⟩ := Option.bind_eq_some_iff.mp h
      obtain ⟨⟨sh, th'⟩, hstep, rfl⟩ := Option.map_eq_some_iff.mp h
      exact .inr ⟨i, c, th, th', rfl, hth, hstep, rfl⟩

/-- Who shuts the cache: a `close` that takes the lifecycle lock. -/
theorem threadStep_shut {s s' : Shared α V cfg} (h : threadStep hash s c th = some (s', th')) :
    (s'.shut ↔ s.shut) ∨ s'.shut ∧ th.role = .closer := by
  rcases threadStep_phase h with hp | ⟨flush, caller, rfl, hp⟩ | ⟨failed, rfl, hl⟩ | ⟨i, t, ts, -, -, rfl, -⟩
  · have hlife : s'.lifecycle = s.lifecycle := congrArg Prod.fst hp
    exact .inl (by rw [Shared.shut, Shared.shut, hlife])
  · exact .inr ⟨.inl (congrArg Prod.fst hp), rfl⟩
  · exact .inr ⟨.inr (.inl hl), rfl⟩
  · left
    show (s.lifecycle.released = _ ∨ s.lifecycle.released = _ ∨ s.lifecycle.released = _) ↔ s.shut
    rcases s.lifecycle.released_cases with ⟨hl, hreleased⟩ | ⟨-, hreleased⟩
    · rw [hreleased]
      exact iff_of_true (.inr (.inr rfl)) (.inl hl)
    · rw [hreleased]
      rfl

/-- A `close` that takes its first step shuts the cache, or found it closed. -/
theorem threadStep_close {s s' : Shared α V cfg} {flush : Option Bool} {caller : Caller α V T}
    (h : threadStep hash s c (.entering (.close flush) caller) = some (s', th')) :
    s'.shut ∧ th'.writing = false ∧ (¬ s.shut → s' = { s with lifecycle := .closing } ∧
      th' = if flush.getD cfg.shutdownFlush ∧ cfg.writeMode = .writeBack then .closeCollect 0
        else .closeStop false) := by
  have hclient := clientStep_of_threadStep h rfl rfl
  have hwriting : th'.writing = false := by
    by_contra hw
    obtain ⟨-, op, caller', heq, rfl⟩ := (clientStep_quiet hclient rfl).writing (by simpa using hw)
    cases heq
    exact hw rfl
  simp only [clientStep] at hclient
  split at hclient
  · cases hclient
  · next hlife =>
      cases hclient
      exact ⟨.inr (.inl hlife), hwriting, fun hopen => absurd (.inr (.inl hlife)) hopen⟩
  · cases hclient
    exact ⟨.inl rfl, hwriting, fun _ => ⟨rfl, rfl⟩⟩

/-- **Settled, one step**: if `close` does not set `CLOSING` over a thread that is past its check. -/
theorem Settled.step (h : Settled hash s) (hover : closesOver s l = false)
    (hs : step cfg hash s l = some s') : Settled hash s' := by
  have hbase := h.base.step hs
  rcases step_outside hs with ⟨new, hnew, hcloser, hth, -, hiff, -⟩ | ⟨i, c, th, th', rfl, hi, hr, hset⟩
  · refine ⟨hbase, fun hshut x hx => ?_, fun x hx hrole => ?_⟩
    · rw [hth] at hx
      exact (List.mem_append.mp hx).elim (h.settled (hiff.mp hshut) x) (hnew x)
    · rw [hth] at hx
      rcases List.mem_append.mp hx with hx | hx
      · exact (h.closing x hx hrole).imp_right hiff.mpr
      · exact .inl (hcloser x hx hrole).2
  · have hmem := List.mem_of_getElem? hi
    have hmono : s.shared.shut → s'.shared.shut := by
      intro hshut
      rcases threadStep_shut hr with hiff | ⟨hshut', -⟩
      · exact hiff.mpr hshut
      · exact hshut'
    refine ⟨hbase, fun hshut => ?_, ?_⟩
    · by_cases hbefore : s.shared.shut
      · have hall := h.settled hbefore
        rw [hset]
        exact forall_mem_set hall (threadStep_of_settled hr hbefore (hall th hmem)).1
      · -- the step is the one that sets `CLOSING`
        have hrole : th.role = .closer := by
          rcases threadStep_shut hr with hiff | ⟨-, hrole⟩
          · exact absurd (hiff.mp hshut) hbefore
          · exact hrole
        obtain ⟨flush, caller, rfl⟩ := (h.closing th hmem hrole).resolve_right hbefore
        have hany : s.threads.any (Thread.unsettled cfg) = false := by
          cases hl : s.shared.lifecycle with
          | created => simpa [closesOver, hi, hl] using hover
          | started => simpa [closesOver, hi, hl] using hover
          | closing => exact absurd (.inl hl) hbefore
          | closed => exact absurd (.inr (.inl hl)) hbefore
          | abandoned => exact absurd (.inr (.inr hl)) hbefore
        rw [hset]
        refine forall_mem_set (fun y hy => ?_) ?_
        · by_contra hu
          rw [List.any_eq_false] at hany
          exact hany y hy (by simpa using hu)
        · by_contra hu
          have hw := Thread.writing_of_unsettled (by simpa using hu)
          rw [(threadStep_close hr).2.1] at hw
          cases hw
    · rw [hset]
      refine forall_mem_set (fun y hy hrole => (h.closing y hy hrole).imp_right hmono) fun hrole => .inr ?_
      have hcontrol := threadStep_control hr (h.base.threads th hmem).1 (h.base.threads th hmem).2
        fun i => (h.base.shards i).index_eq
      rcases hcontrol.role with hsame | ⟨-, result, rfl⟩
      · rcases h.closing th hmem (hsame.symm.trans hrole) with ⟨flush, caller, rfl⟩ | hshut
        · exact (threadStep_close hr).1
        · exact hmono hshut
      · cases hrole

/-- **No put, delete or clear writes once the cache is shut.** -/
theorem Settled.writesNothing (h : Settled hash s) : WritesNothing cfg hash s l := by
  rintro hshut i c th rfl hi hin s' hs m
  obtain ⟨th₀, hth₀, hs⟩ := Option.bind_eq_some_iff.mp hs
  obtain ⟨⟨sh, th'⟩, hr, rfl⟩ := Option.map_eq_some_iff.mp hs
  obtain rfl : th₀ = th := by simpa [hi] using hth₀.symm
  have hshards := (threadStep_of_settled hr hshut (h.settled hshut th₀ (List.mem_of_getElem? hi))).2.2 hin
  show (s.shared.shards m).SameContent (sh.shards m)
  rw [hshards]
  exact ⟨rfl, rfl, rfl, rfl⟩

end Run

/-! ### The walk leaves nothing behind -/

/-- The flushes of a key among the tickets. -/
def flushesOf (k : Key α) (ts : List (Ticket α V)) : List (WriteOp V × ℕ) :=
  (ts.filter fun t => decide (t.job.key = k)).map fun t => (t.job.operation, t.job.version)

/-- The tickets in hand, of the shard before `n`, cover what the shards below `n` owe. -/
structure Owed (hash : Key α → ℕ) (s : Shared α V cfg) (n : ℕ) (ts : List (Ticket α V)) : Prop where
  home : ∀ t ∈ ts, (shardFor cfg hash t.job.key : ℕ) + 1 = n
  owed : ∀ k, (shardFor cfg hash k : ℕ) < n → ((s.home hash k).slot k).OwedBy (flushesOf k ts)

/-- What holds at the points of the synchronous flush, as long as no flush failed. -/
def Walked (hash : Key α → ℕ) (s : Shared α V cfg) : Thread α V T → Prop
  | .syncCollect i false => Owed hash s i []
  | .syncNext i ts false => Owed hash s (i + 1) ts
  | .syncTry i t _ ts false => Owed hash s (i + 1) (t :: ts)
  | .syncClean i t ts false => Owed hash s (i + 1) (t :: ts) ∧ t.job.operation ≠ .delete
  | .syncSettle i t true ts false =>
      Owed hash s (i + 1) (t :: ts) ∧ (t.job.operation ≠ .delete → Owed hash s (i + 1) ts)
  | .closeStop false => Owed hash s cfg.shardCount []
  | .closeDrain false => Owed hash s cfg.shardCount []
  | .finished .done => Owed hash s cfg.shardCount []
  | _ => True

section Walk

variable {s s' : Shared α V cfg} {c : Choice α V} {th th' : Thread α V T} {i n : ℕ} {t : Ticket α V}
  {ts : List (Ticket α V)} {k : Key α}

/-- The flushes of the key of the first ticket. -/
theorem flushesOf_cons_self (t : Ticket α V) (ts : List (Ticket α V)) :
    flushesOf t.job.key (t :: ts) = (t.job.operation, t.job.version) :: flushesOf t.job.key ts := by
  simp [flushesOf]

/-- The flushes of another key. -/
theorem flushesOf_cons_of_ne (ts : List (Ticket α V)) (hk : t.job.key ≠ k) :
    flushesOf k (t :: ts) = flushesOf k ts := by
  simp [flushesOf, hk]

/-- What is no write leaves the tickets enough. -/
theorem Owed.ease (h : Owed hash s n ts)
    (he : ∀ i k, ((s.shards i).slot k).Eases ((s'.shards i).slot k)) : Owed hash s' n ts :=
  ⟨h.home, fun k hk => (h.owed k hk).ease (he _ k)⟩

/-- See `Owed.ease`. -/
theorem Walked.ease (h : Walked hash s th)
    (he : ∀ i k, ((s.shards i).slot k).Eases ((s'.shards i).slot k)) : Walked hash s' th := by
  unfold Walked at h ⊢
  split <;> simp only at h
  · exact h.ease he
  · exact h.ease he
  · exact h.ease he
  · exact ⟨h.1.ease he, h.2⟩
  · exact ⟨h.1.ease he, fun hop => (h.2 hop).ease he⟩
  · exact h.ease he
  · exact h.ease he
  · exact h.ease he
  · trivial

/-- The collected jobs cover what the shard owes. -/
theorem owedBy_dirtyJobs {sh : CacheShard α V T} (cfg : CacheConfig T) (log : List (Event α V T)) :
    (sh.slot k).OwedBy (flushesOf k ((sh.dirtyJobs cfg).map (closeTicket log))) := by
  have hmem : ∀ job ∈ sh.dirtyJobs cfg, job.key = k →
      (job.operation, job.version) ∈ flushesOf k ((sh.dirtyJobs cfg).map (closeTicket log)) := by
    intro job hjob hkey
    refine List.mem_map.mpr ⟨closeTicket log job, List.mem_filter.mpr ⟨List.mem_map_of_mem hjob, ?_⟩, rfl⟩
    exact decide_eq_true hkey
  refine ⟨fun e he hd => ?_, fun d hd => ?_⟩
  · obtain ⟨x, hx, rfl⟩ := Option.map_eq_some_iff.mp he
    have hkey := sh.backend.keyed k x hx
    have hin : x ∈ sh.backend.entryList.filter fun e => e.dirty :=
      List.mem_filter.mpr ⟨InMemoryBackend.mem_entryList.mpr (hkey.symm ▸ hx), hd⟩
    exact ⟨x.value, hmem _ (List.mem_append_left _ (List.mem_map_of_mem hin)) hkey⟩
  · exact hmem _ (List.mem_append_right _ (List.mem_map_of_mem (OrderedDict.get?_eq_some_iff.mp hd))) rfl

/-- Collecting a shard. -/
theorem Owed.collect (h : Owed hash s n []) (hn : n < cfg.shardCount)
    (hok : ShardOk cfg hash ⟨n, hn⟩ (s.shards ⟨n, hn⟩)) :
    Owed hash s (n + 1)
      (((s.shards ⟨n, hn⟩).dirtyJobs cfg.toCacheConfig).map (closeTicket s.log)) := by
  refine ⟨fun t ht => ?_, fun k hk => ?_⟩
  · obtain ⟨job, hj, rfl⟩ := List.mem_map.mp ht
    exact congrArg (fun i : Fin cfg.shardCount => (i : ℕ) + 1) (hok.shardFor_dirtyJobs hj).1
  · rcases Nat.lt_or_ge (shardFor cfg hash k) n with hlt | hge
    · exact (h.owed k hlt).mono (by simp [flushesOf])
    · have hshard : shardFor cfg hash k = ⟨n, hn⟩ := Fin.ext (by simpa using by omega)
      rw [Shared.home, hshard]
      exact owedBy_dirtyJobs cfg.toCacheConfig s.log

/-- One shard changes, in the slot of the first ticket; the other tickets are enough. -/
theorem Owed.advance (h : Owed hash s (i + 1) (t :: ts)) (hi : i < cfg.shardCount)
    {sh' : CacheShard α V T} {x : Slot V} (hs : s'.shards = Function.update s.shards ⟨i, hi⟩ sh')
    (hx : sh'.slot = Function.update (s.shards ⟨i, hi⟩).slot t.job.key x)
    (hnext : ((s.shards ⟨i, hi⟩).slot t.job.key).OwedBy
        ((t.job.operation, t.job.version) :: flushesOf t.job.key ts) →
      x.OwedBy (flushesOf t.job.key ts)) : Owed hash s' (i + 1) ts := by
  have hshard : shardFor cfg hash t.job.key = ⟨i, hi⟩ := Fin.ext (Nat.succ.inj (h.home t List.mem_cons_self))
  refine ⟨fun t' ht' => h.home t' (List.mem_cons_of_mem t ht'), fun k hk => ?_⟩
  have hbefore := h.owed k hk
  rw [Shared.home_of_update hs]
  by_cases hkey : t.job.key = k
  · subst hkey
    rw [if_pos hshard, hx, Function.update_self]
    rw [flushesOf_cons_self, Shared.home, hshard] at hbefore
    exact hnext hbefore
  · rw [flushesOf_cons_of_ne ts hkey] at hbefore
    split_ifs with hki
    · rw [hx, Function.update_of_ne (Ne.symm hkey)]
      rwa [Shared.home, hki] at hbefore
    · exact hbefore

/-- **The walk, one step**: the tickets in hand stay enough. -/
theorem Walked.step (h : Walked hash s th) (he : th.ending = true)
    (hok : ∀ i, ShardOk cfg hash i (s.shards i)) (hfits : ∀ k, ((s.home hash k).slot k).Fits)
    (hstep : closeStep s c th = some (s', th')) : Walked hash s' th' := by
  have heases := (closeStep_quiet hstep).eases
  have hfit : ∀ {i : ℕ} (hi : i < cfg.shardCount) {t : Ticket α V} {ts : List (Ticket α V)},
      Owed hash s (i + 1) (t :: ts) → ((s.shards ⟨i, hi⟩).slot t.job.key).Fits := by
    intro i hi t ts howed
    have hshard : shardFor cfg hash t.job.key = ⟨i, hi⟩ :=
      Fin.ext (Nat.succ.inj (howed.home t List.mem_cons_self))
    have := hfits t.job.key
    rwa [Shared.home, hshard] at this
  cases th with
  | syncCollect i failed =>
      simp only [closeStep] at hstep
      split_ifs at hstep with hi hf <;> cases hstep
      · cases failed with
        | true => trivial
        | false => exact Owed.collect h hi (hok ⟨i, hi⟩)
      · rw [hf]
        trivial
      · rw [Bool.not_eq_true] at hf
        subst hf
        exact ⟨by simp, fun k _ => Owed.owed h k (lt_of_lt_of_le (shardFor cfg hash k).isLt (not_lt.mp hi))⟩
  | syncNext i ts failed =>
      cases ts with
      | nil =>
          cases hstep
          cases failed <;> exact h
      | cons t ts =>
          simp only [closeStep] at hstep
          split_ifs at hstep with hi hst <;> cases hstep
          · cases failed with
            | true => trivial
            | false =>
                have hstale := hst
                rw [CacheShard.isStale_eq] at hstale
                exact Owed.advance h hi rfl (CacheShard.slot_clearPendingFlushesLocked _ t.job.key)
                  fun howed => (howed.skip (hfit hi h) hstale).ease (.clearPend _)
          · cases failed <;> exact h
  | syncTry i t left ts failed =>
      simp only [closeStep] at hstep
      split_ifs at hstep with hc
      · cases hstep
        cases failed with
        | true => cases t.job.operation <;> trivial
        | false =>
            have howed := Owed.ease h heases
            cases hop : t.job.operation with
            | put v => exact ⟨howed, by simp [hop]⟩
            | delete => exact ⟨howed, fun hne => absurd hop hne⟩
      · cases left with
        | zero =>
            cases hstep
            trivial
        | succ left =>
            cases hstep
            cases failed <;> first | trivial | exact Owed.ease h heases
  | syncClean i t ts failed =>
      obtain ⟨s₁, hs₁, heq⟩ := Option.map_eq_some_iff.mp hstep
      obtain ⟨hi, rfl⟩ := Shared.onShard_eq_some.mp hs₁
      cases heq
      cases failed with
      | true => trivial
      | false =>
          obtain ⟨howed, hput⟩ := h
          have hslot := CacheShard.slot_markCleanLocked (s.shards ⟨i, hi⟩) t.job
          refine ⟨howed.ease heases, fun _ => howed.advance hi rfl hslot fun hb => ?_⟩
          cases hop : t.job.operation with
          | put v =>
              rw [hop] at hb
              exact hb.clean
          | delete => exact absurd hop hput
  | syncSettle i t success ts failed =>
      obtain ⟨s₁, hs₁, heq⟩ := Option.map_eq_some_iff.mp hstep
      obtain ⟨hi, rfl⟩ := Shared.onShard_eq_some.mp hs₁
      cases heq
      cases success with
      | false => cases failed <;> trivial
      | true =>
          cases failed with
          | true => trivial
          | false =>
              obtain ⟨howed, hrest⟩ := h
              have hslot := CacheShard.slot_clearPendingFlushesLocked (s.shards ⟨i, hi⟩) t.job.key
              cases hop : t.job.operation with
              | put v =>
                  exact (hrest (by simp [hop])).ease heases
              | delete =>
                  refine howed.advance hi rfl hslot fun hb => ?_
                  rw [hop] at hb
                  exact hb.settle (hfit hi howed)
  | closeStop failed =>
      simp only [closeStep] at hstep
      split_ifs at hstep <;> cases hstep <;> cases failed <;>
        first | trivial | exact Owed.ease h heases
  | closeDrain failed =>
      cases hstep
      cases failed <;> first | trivial | exact Owed.ease h heases
  | finished result => cases hstep
  | _ => cases he

end Walk

/-! ### From the call of `close` on -/

/-- Where the closing thread stands, and what is known there. -/
inductive CloserAt (hash : Key α → ℕ) (flush : Option Bool) (s : System α V cfg) : Thread α V T → Prop
  /-- It is about to take the lifecycle lock. -/
  | entering (caller : Caller α V T) (hopen : ¬ s.shared.shut) (hmeta : ∀ k, (view hash k s).Meta) :
      CloserAt hash flush s (.entering (.close flush) caller)
  /-- It has not got past its wait for the workers. -/
  | opening {th : Thread α V T} (hth : th.opening = true)
      (hne : ∀ flush caller, th ≠ .entering (.close flush) caller) (hshut : s.shared.shut)
      (hmeta : ∀ k, (view hash k s).Meta) : CloserAt hash flush s th
  /-- It walks over the shards, or is done. -/
  | walking {th : Thread α V T} (hth : th.ending = true) (hshut : s.shared.shut)
      (hfits : ∀ k, ((s.shared.home hash k).slot k).Fits) (hwalk : Walked hash s.shared th) :
      CloserAt hash flush s th

/-- The thread `j` is the only one in a `close`. -/
structure Shutting (hash : Key α → ℕ) (flush : Option Bool) (j : ℕ) (s : System α V cfg) : Prop where
  settled : Settled hash s
  others : ∀ m x, m ≠ j → s.threads[m]? = some x → x.role ≠ .closer
  closer : ∃ th, s.threads[j]? = some th ∧ CloserAt hash flush s th

section Shutting

variable {s s' : System α V cfg} {l : Label α V T} {flush : Option Bool} {i j : ℕ} {c : Choice α V}
  {th th' : Thread α V T}

/-- A step that does not belong to the walk keeps the metadata. -/
theorem meta_step (hs : step cfg hash s l = some s') (hb : Base hash s) (hw : winds s l = false)
    (hm : ∀ k, (view hash k s).Meta) (k : Key α) : (view hash k s').Meta :=
  (hm k).steps (view_steps hs hb hw (hm k))

/-- Another thread moves, or none. -/
theorem CloserAt.frame (h : CloserAt hash flush s th) (hb : Base hash s)
    (hs : step cfg hash s l = some s') (hw : winds s l = false)
    (hshut : s'.shared.shut ↔ s.shared.shut)
    (he : s.shared.shut → ∀ i k, ((s.shared.shards i).slot k).Eases ((s'.shared.shards i).slot k)) :
    CloserAt hash flush s' th := by
  cases h with
  | entering caller hopen hmeta =>
      exact .entering caller (fun h => hopen (hshut.mp h)) (meta_step hs hb hw hmeta)
  | opening hth hne hbefore hmeta => exact .opening hth hne (hshut.mpr hbefore) (meta_step hs hb hw hmeta)
  | walking hth hbefore hfits hwalk =>
      have heases := he hbefore
      exact .walking hth (hshut.mpr hbefore) (fun k => (heases _ k).fits (hfits k)) (hwalk.ease heases)

/-- The closing thread moves. -/
theorem CloserAt.move (h : CloserAt hash flush s th) (hb : Base hash s)
    (hwb : cfg.writeMode = .writeBack) (hflush : flush.getD cfg.shutdownFlush = true)
    (hj : s.threads[j]? = some th) (hs : step cfg hash s (.run j c) = some s')
    (hr : threadStep hash s.shared c th = some (s'.shared, th')) : CloserAt hash flush s' th' := by
  have hmono : s.shared.shut → s'.shared.shut := by
    intro hshut
    rcases threadStep_shut hr with hiff | ⟨hshut', -⟩
    · exact hiff.mpr hshut
    · exact hshut'
  cases h with
  | entering caller hopen hmeta =>
      obtain ⟨hshut, -, hfirst⟩ := threadStep_close hr
      obtain ⟨-, rfl⟩ := hfirst hopen
      have hw : winds s (.run j c : Label α V T) = false := by simp [winds, hj, Thread.winding]
      rw [if_pos ⟨hflush, hwb⟩]
      exact .opening rfl (fun _ _ e => by cases e) hshut (meta_step hs hb hw hmeta)
  | opening hth hne hshut hmeta =>
      have hw : winds s (.run j c : Label α V T) = false := by
        simp [winds, hj, (Thread.role_of_opening hth).2]
      have hclose : closeStep s.shared c th = some (s'.shared, th') := by
        rcases threadStep_cases hr with h | h | h
        · cases th with
          | entering op caller => cases op <;> first | cases hth | exact absurd rfl (hne _ _)
          | _ => first | (cases hth; done) | cases h
        · cases th <;> first | (cases hth; done) | cases h
        · exact h
      rcases closeStep_of_opening hclose hth with ⟨hth', hne'⟩ | ⟨m, t, ts, -, -, -, rfl⟩ | ⟨-, hsame, failed, rfl, -⟩
      · exact .opening hth' hne' (hmono hshut) (meta_step hs hb hw hmeta)
      · exact .walking rfl (hmono hshut) (fun k => Slot.fits_of_meta (meta_step hs hb hw hmeta k)) trivial
      · refine .walking rfl (hmono hshut) (fun k => ?_) ?_
        · rw [hsame]
          exact Slot.fits_of_meta (hmeta k)
        · cases failed with
          | true => trivial
          | false => exact ⟨by simp, fun k hk => absurd hk (Nat.not_lt_zero _)⟩
  | walking hth hshut hfits hwalk =>
      have hclose := closeStep_of_ending hr hth
      exact .walking (closeStep_ending hclose hth) (hmono hshut)
        (fun k => ((closeStep_quiet hclose).eases _ k).fits (hfits k))
        (hwalk.step hth hb.shards hfits hclose)

/-- **The shutdown, one step.** -/
theorem Shutting.step (h : Shutting hash flush j s) (hwb : cfg.writeMode = .writeBack)
    (hflush : flush.getD cfg.shutdownFlush = true) (hl : l.closes = false)
    (hover : closesOver s l = false) (hs : step cfg hash s l = some s') : Shutting hash flush j s' := by
  have hb := h.settled.base
  have hsettled := h.settled.step hover hs
  obtain ⟨th, hj, hat⟩ := h.closer
  rcases step_outside hs with ⟨new, -, hcloser, hth, hshards, hiff, hnot⟩ |
    ⟨i, c, x, x', rfl, hi, hr, hset⟩
  · have hw : winds s l = false := by
      cases l with
      | run i c => exact absurd rfl (hnot i c)
      | _ => rfl
    refine ⟨hsettled, fun m y hm hy hrole => ?_, th, ?_, hat.frame hb hs hw hiff fun _ i k => ?_⟩
    · rw [hth] at hy
      rcases Transition.getElem?_append_cases hy with hy | hy
      · exact h.others m y hm hy hrole
      · rw [(hcloser y hy hrole).1] at hl
        cases hl
    · rw [hth, List.getElem?_append_left (List.getElem?_eq_some_iff.mp hj).1]
      exact hj
    · rw [hshards]
      exact .refl _
  · have hmem := List.mem_of_getElem? hi
    by_cases hij : i = j
    · subst hij
      obtain rfl : x = th := by simpa [hi] using hj
      refine ⟨hsettled, fun m y hm hy => ?_, x', ?_, hat.move hb hwb hflush hi hs hr⟩
      · rw [hset, List.getElem?_set_ne (Ne.symm hm)] at hy
        exact h.others m y hm hy
      · rw [hset, List.getElem?_set_self (List.getElem?_eq_some_iff.mp hi).1]
    · have hrole := h.others i x hij hi
      have hw : winds s (.run i c : Label α V T) = false := by
        by_contra hw
        exact hrole (Thread.role_of_winding (by simpa [winds, hi] using hw))
      have hiff : s'.shared.shut ↔ s.shared.shut := by
        rcases threadStep_shut hr with hiff | ⟨-, hcloser⟩
        · exact hiff
        · exact absurd hcloser hrole
      refine ⟨hsettled, fun m y hm hy => ?_, th, ?_, hat.frame hb hs hw hiff fun hshut => ?_⟩
      · rw [hset] at hy
        rcases Transition.getElem?_set_cases hy with ⟨rfl, rfl⟩ | ⟨-, hy⟩
        · have hcontrol := threadStep_control hr (hb.threads x hmem).1 (hb.threads x hmem).2
            fun i => (hb.shards i).index_eq
          rcases hcontrol.role with hsame | ⟨hcloser, -⟩
          · rwa [hsame]
          · exact absurd hcloser hrole
        · exact h.others m y hm hy
      · rw [hset, List.getElem?_set_ne hij]
        exact hj
      · exact (threadStep_of_settled hr hshut (h.settled.settled hshut x hmem)).2.1

/-- When the walk is done, nothing is left to flush. -/
theorem Shutting.drained (h : Shutting hash flush j s) (hj : s.threads[j]? = some (Thread.finished .done)) :
    s.shared.Drained := by
  obtain ⟨th, hth, hat⟩ := h.closer
  obtain rfl : th = .finished .done := by simpa [hj] using hth.symm
  have hwalk : Owed hash s.shared cfg.shardCount [] := by
    cases hat with
    | opening hth => cases hth
    | walking hth hshut hfits hwalk => exact hwalk
  have hnone : ∀ k, (∀ e, ((s.shared.home hash k).slot k).entry = some e → e.dirty = false) ∧
      ((s.shared.home hash k).slot k).tomb = none := fun k =>
    Slot.owedBy_nil.mp (hwalk.owed k (shardFor cfg hash k).isLt)
  have hbase := h.settled.base
  refine fun m => ⟨fun e he => ?_, List.eq_nil_iff_forall_not_mem.mpr fun k hk => ?_⟩
  · have hget := InMemoryBackend.mem_entryList.mp he
    have hm := (hbase.shards m).shardFor_eq hget
    refine (hnone e.key).1 e.held ?_
    rw [Shared.home, hm]
    exact congrArg (Option.map CacheEntry.held) hget
  · obtain ⟨t, ht⟩ := OrderedDict.mem_keys_iff.mp hk
    by_cases hm : shardFor cfg hash k = m
    · subst hm
      cases (hnone k).2.symm.trans ht
    · have hempty : (s.shared.shards m).tombstones.get? k = none :=
        congrArg Slot.tomb ((hbase.shards m).routed k hm)
      rw [hempty] at ht
      cases ht

end Shutting

/-- **Closed means closed.** In every run with one call of `close` in which no put, delete or clear is past
its lifecycle check, with a lock section left, when `close` sets `CLOSING`: none of them changes entries,
marks, tombstones or pending counts of a cache that is shut, and a `close` that flushed and returned
normally leaves no dirty entry and no tombstone. -/
theorem closed_means_closed {cfg : AcceptedConfig T} {hash : Key α → ℕ} {now : T} {src : Source α V}
    {ls₁ ls₂ : List (Label α V T)} {flush : Option Bool} (hone : ∀ l ∈ ls₁ ++ ls₂, l.closes = false)
    (hover : Transition.Along (step cfg hash) (fun s l => closesOver s l = false) (initial cfg now src)
      (ls₁ ++ .call (.close flush) :: ls₂)) :
    ClosedMeansClosed cfg hash (initial cfg now src) ls₁ flush ls₂ := by
  have hinit : Settled hash (initial cfg now src : System α V cfg) :=
    ⟨base_initial cfg hash now src, by simp [initial], by simp [initial]⟩
  have hstep : ∀ (s : System α V cfg) l s', closesOver s l = false → step cfg hash s l = some s' →
      Settled hash s → Settled hash s' := fun _ _ _ ho hs hset => hset.step ho hs
  refine ⟨Transition.along_of_run_invariant hstep (fun s l _ hset => hset.writesNothing) hover hinit, ?_⟩
  intro s₁ s h₁ h₂ hwb hflush hdone
  have hopen : ∀ l ∈ ls₁, l.closes = false := fun l hl => hone l (List.mem_append_left ls₂ hl)
  have hmeta := open_view_invariant (I := fun _ => True) h₁ hopen hover.left
    (fun _ _ _ _ _ _ _ _ _ => trivial) fun _ => trivial
  have hclosers : Base hash s₁ ∧ ∀ th ∈ s₁.threads, th.role ≠ .closer :=
    Transition.run_invariant open_step h₁ (Transition.along_of_forall (fun l hl _ => hopen l hl) _)
      ⟨base_initial cfg hash now src, by simp [initial]⟩
  have hsettled : Settled hash s₁ := Transition.run_invariant hstep h₁ hover.left hinit
  obtain ⟨u, hcall, h₂⟩ := Transition.run_cons_eq_some.mp h₂
  obtain ⟨hfirst, hrest⟩ := hover.right h₁
  have hstart : Shutting hash flush s₁.threads.length u := by
    have hsettled' := hsettled.step hfirst hcall
    have hm := meta_step hcall hclosers.1 rfl fun k => (hmeta k).1
    cases hcall
    refine ⟨hsettled', fun m y hm hy => ?_, .entering (.close flush) (.client .done), by simp,
      .entering _ (fun hshut => ?_) hm⟩
    · by_cases hlt : m < s₁.threads.length
      · rw [List.getElem?_append_left hlt] at hy
        exact hclosers.2 y (List.mem_of_getElem? hy)
      · have hlt' := (List.getElem?_eq_some_iff.mp hy).1
        simp only [List.length_append, List.length_singleton] at hlt'
        omega
    · have hphase := phase_open h₁ hopen
      rcases hphase with hphase | hphase <;> rcases hshut with hshut | hshut | hshut <;>
        cases hshut.symm.trans (congrArg Prod.fst hphase)
  have hshutting : ∀ (s : System α V cfg) l s', closesOver s l = false ∧ l.closes = false →
      step cfg hash s l = some s' → Shutting hash flush s₁.threads.length s →
      Shutting hash flush s₁.threads.length s' := fun _ _ _ hp hs hsh => hsh.step hwb hflush hp.2 hp.1 hs
  have halone : Transition.Along (step cfg hash) (fun _ l => l.closes = false) u ls₂ :=
    Transition.along_of_forall (fun l hl _ => hone l (List.mem_append_right ls₁ hl)) u
  exact (Transition.run_invariant hshutting h₂ ((hrest u hcall).and halone) hstart).drained hdone

/-- `close` runs while a put comes in, whose check then finds the cache closed. -/
theorem closed_means_closed_late_call :
    ∃ s₁ s : System ℕ ℕ (oneEntry .lru .writeBack 0 0 0),
      exec _ (fun _ => 0) (initial _ 0 .empty)
        [.call (.put (some 1) 10 .unset), .run 0 {}, .run 0 {}, .run 0 {}] = some s₁ ∧
      exec _ (fun _ => 0) s₁ (.call (.close (some true)) :: (.run 1 {} :: .call (.put (some 2) 20 .unset) ::
        List.replicate 13 (Label.run 1 {}) ++ [Label.run 2 {}])) = some s ∧
      s.threads[1]? = some (Thread.finished .done) ∧ s.threads[2]? = some (Thread.finished (.raised .closedCache)) ∧
      s.shared.Drained := by
  have heval : ((exec (oneEntry .lru .writeBack 0 0 0) (fun _ => 0) (initial _ 0 .empty)
      [.call (.put (some 1) 10 .unset), .run 0 {}, .run 0 {}, .run 0 {}]).bind
      fun s₁ : System ℕ ℕ (oneEntry .lru .writeBack 0 0 0) =>
      (exec _ (fun _ => 0) s₁ (.call (.close (some true)) :: (.run 1 {} :: .call (.put (some 2) 20 .unset) ::
        List.replicate 13 (Label.run 1 {}) ++ [Label.run 2 {}]))).map fun s =>
        decide (s₁.threads.length = 1 ∧ s.threads[1]? = some (Thread.finished .done) ∧
          s.threads[2]? = some (Thread.finished (.raised .closedCache)))) = some true := by decide +kernel
  obtain ⟨s₁, h₁, heval⟩ := Option.bind_eq_some_iff.mp heval
  obtain ⟨s, h₂, heval⟩ := Option.map_eq_some_iff.mp heval
  obtain ⟨hlen, hclose, hput⟩ := of_decide_eq_true heval
  exact ⟨s₁, s, h₁, h₂, hclose, hput, (closed_means_closed (by decide) (by decide +kernel)).drained s₁ s h₁ h₂
    rfl rfl (hlen.symm ▸ hclose)⟩

/-- **A put after `close`**: it passed its check before `close` set `CLOSING`; when `close` has flushed and
returned, it stores a dirty entry and returns. -/
theorem put_after_close :
    ∃ (ls₁ ls₂ : List (Label ℕ ℕ ℕ)) (s₁ s : System ℕ ℕ (oneEntry .lru .writeBack 0 0 0)),
      (∀ l ∈ ls₁ ++ ls₂, l.closes = false) ∧
      exec _ (fun _ => 0) (initial _ 0 .empty) ls₁ = some s₁ ∧
      exec _ (fun _ => 0) s₁ (.call (.close (some true)) :: ls₂) = some s ∧
      s.threads[0]? = some (Thread.finished .done) ∧ s.threads[1]? = some (Thread.finished .done) ∧
      ¬ ClosedMeansClosed (oneEntry .lru .writeBack 0 0 0) (fun _ => 0) (initial _ 0 .empty) ls₁ (some true)
        ls₂ := by
  have heval : ((exec (oneEntry .lru .writeBack 0 0 0) (fun _ => 0) (initial _ 0 .empty)
      [.call (.put (some 1) 10 .unset), .run 0 {}]).bind
      fun s₁ : System ℕ ℕ (oneEntry .lru .writeBack 0 0 0) =>
      (exec _ (fun _ => 0) s₁ (.call (.close (some true)) ::
        (List.replicate 9 (Label.run 1 {}) ++ [Label.run 0 {}, Label.run 0 {}]))).map fun s =>
        decide (s₁.threads.length = 1 ∧ s.threads[0]? = some (Thread.finished .done) ∧
          s.threads[1]? = some (Thread.finished .done) ∧
          (s.shared.home (fun _ => 0) (some 1)).backend.entryList.any (fun e => e.dirty) = true)) = some true := by
    decide +kernel
  obtain ⟨s₁, h₁, heval⟩ := Option.bind_eq_some_iff.mp heval
  obtain ⟨s, h₂, heval⟩ := Option.map_eq_some_iff.mp heval
  obtain ⟨hlen, hput, hclose, hdirty⟩ := of_decide_eq_true heval
  refine ⟨_, _, s₁, s, by decide, h₁, h₂, hput, hclose, fun hclosed => ?_⟩
  obtain ⟨e, he, hd⟩ := List.any_eq_true.mp hdirty
  have hclean := (hclosed.drained s₁ s h₁ h₂ rfl rfl (hlen.symm ▸ hclose) _).1 e he
  rw [hclean] at hd
  cases hd

end CacheLab
