import CacheLab.Core.Alike
import CacheLab.Workloads.Calls

/-!
# Calls on a cache whose workers do not run

Nobody takes a job from the queue, so in write-back mode every write leaves a job in it, and a write whose job the
queue does not take raises. `Acts` says what a call does in either case: with room for its jobs it
answers, and without room it is refused. In the other modes no call makes a job, and there is always room.
-/

set_option linter.unusedSectionVars false

namespace CacheLab

variable {α V T : Type} [DecidableEq α] [LinearOrder T] [Zero T] [Add T] [Sub T]

variable {cfg : AcceptedConfig T} {hash : Key α → ℕ}

/-- The queue can come to hold `n` flush jobs: it has no bound, or there are none, or it takes jobs with the timeout and
is large enough. -/
def CacheConfig.Room (c : CacheConfig T) (n : ℕ) : Prop :=
  c.queueSize = 0 ∨ n = 0 ∨ 0 ≤ c.queuePutTimeout ∧ n ≤ c.queueSize

instance (c : CacheConfig T) (n : ℕ) : Decidable (c.Room n) := inferInstanceAs (Decidable (_ ∨ _))

/-- There is room for no job. -/
theorem CacheConfig.room_zero (c : CacheConfig T) : c.Room 0 := .inr (.inl rfl)

/-- Room for more is room for less. -/
theorem CacheConfig.Room.mono {c : CacheConfig T} {n m : ℕ} (h : c.Room n) (hle : m ≤ n) : c.Room m := by
  unfold CacheConfig.Room at h ⊢
  rcases h with h | h | ⟨h, hn⟩
  · exact .inl h
  · exact .inr (.inl (by omega))
  · exact .inr (.inr ⟨h, hle.trans hn⟩)

/-- A queue takes a job if it can hold one more. -/
theorem takes_iff (cfg : AcceptedConfig T) (q : CacheJobQueue α V T) :
    cfg.rejectsPuts = false ∧ q.full cfg.queueSize = false ↔ cfg.Room (q.items.length + 1) := by
  rw [CacheJobQueue.full, CacheConfig.rejectsPuts, CacheConfig.Room, Bool.and_eq_false_iff, Bool.and_eq_false_iff,
    decide_eq_false_iff_not, decide_eq_false_iff_not, decide_eq_false_iff_not, decide_eq_false_iff_not, not_not, not_lt]
  constructor
  · rintro ⟨hputs, hfull⟩
    rcases hputs with hputs | hputs
    · exact .inl hputs
    · rcases hfull with hfull | hfull
      · exact .inl (by omega)
      · exact .inr (.inr ⟨hputs, by omega⟩)
  · rintro (hsize | hnone | ⟨hputs, hfull⟩)
    · exact ⟨.inl hsize, .inl (by omega)⟩
    · omega
    · exact ⟨.inr hputs, .inr (by omega)⟩

/-! ### Enqueuing -/

section Enqueue

variable {c : Choice α V} {s : Shared α V cfg} {r : Result α V T}

/-- A thread that comes to its end and is not there yet takes a step. -/
theorem exists_threadStep_of_settle {n : ℕ} {th : Thread α V T} {x : Shared α V cfg × Result α V T}
    (hth : ∀ r', th ≠ .finished r') (h : settle hash c n s th = some x) :
    ∃ m s' th', n = m + 1 ∧ threadStep hash s c th = some (s', th') ∧ settle hash c m s' th' = some x := by
  cases n with
  | zero =>
      cases th with
      | finished r' => exact absurd rfl (hth r')
      | _ => cases h
  | succ n =>
      have hbind : ((threadStep hash s c th).bind fun p => settle hash c n p.1 p.2) = some x := by
        cases th with
        | finished r' => exact absurd rfl (hth r')
        | _ => exact h
      obtain ⟨⟨s', th'⟩, hstep, hrest⟩ := Option.bind_eq_some_iff.mp hbind
      exact ⟨n, s', th', rfl, hstep, hrest⟩

/-- Flush jobs that the queue takes. -/
theorem settle_enqueueOr (hash : Key α → ℕ) (tickets : List (Ticket α V)) (n : ℕ)
    (hroom : cfg.Room (s.queue.items.length + tickets.length)) :
    ∃ s', settle hash c (n + tickets.length) (enqueueOr s tickets (.client r)).1 (enqueueOr s tickets (.client r)).2 =
        some (s', r) ∧
      s'.lifecycle = s.lifecycle ∧ s'.shards = s.shards ∧
        s'.queue.items.length = s.queue.items.length + tickets.length := by
  induction tickets generalizing s with
  | nil => exact ⟨s, settle_finished _ _ _, rfl, rfl, rfl⟩
  | cons t ts ih =>
      obtain ⟨hputs, hfull⟩ := (takes_iff cfg s.queue).mpr (hroom.mono (by rw [List.length_cons]; omega))
      have hlength : (s.queue.push (.flushWriteBack t)).items.length + ts.length =
          s.queue.items.length + (t :: ts).length := by
        rw [CacheJobQueue.push, List.length_append, List.length_singleton, List.length_cons]
        omega
      have hpush : threadStep hash s c (.enqueuing (t :: ts) (.client r)) =
          some (enqueueOr { s with queue := s.queue.push (.flushWriteBack t) } ts (.client r)) := by
        simp [threadStep, clientStep, Shared.rejects, hputs, hfull]
      obtain ⟨s', hrun, hlife, hshards, hqueue⟩ :=
        ih (s := { s with queue := s.queue.push (.flushWriteBack t) }) (by rw [hlength]; exact hroom)
      refine ⟨s', ?_, hlife, hshards, hqueue.trans hlength⟩
      exact (settle_step hpush).trans hrun

/-- A thread that gives its jobs up ends with backpressure. -/
theorem raised_of_releasing {tickets : List (Ticket α V)} {n : ℕ} {x : Shared α V cfg × Result α V T}
    (h : settle hash c n s (.releasing tickets (.client r)) = some x) : x.2 = .raised .queueBackpressure := by
  induction tickets generalizing s n with
  | nil =>
      obtain ⟨m, s', th', -, hstep, hrest⟩ := exists_threadStep_of_settle (by simp) h
      have hstep' : some (s, Thread.finished (.raised .queueBackpressure)) = some (s', th') := hstep
      obtain ⟨rfl, rfl⟩ := Prod.mk.inj (Option.some.inj hstep')
      rw [settle_finished] at hrest
      rw [← Option.some.inj hrest]
  | cons t ts ih =>
      obtain ⟨m, s', th', -, hstep, hrest⟩ := exists_threadStep_of_settle (by simp) h
      have hclient : ((s.onShard t.job.shardIndex fun sh => sh.resolvePendingLocked t.job.key).map fun s' =>
          (s', Thread.releasing ts (Caller.client r))) = some (s', th') := by
        cases hshard : s.onShard t.job.shardIndex fun sh => sh.resolvePendingLocked t.job.key with
        | none => simp [threadStep, clientStep, workerStep, closeStep, hshard] at hstep
        | some s₁ =>
            simp only [threadStep, clientStep, hshard, Option.map_some, Option.orElse_some] at hstep
            exact hstep
      obtain ⟨s₁, -, heq⟩ := Option.map_eq_some_iff.mp hclient
      obtain ⟨rfl, rfl⟩ := Prod.mk.inj heq
      exact ih hrest

/-- Flush jobs for which there is not enough room: the enqueue ends with backpressure, or with what `queue.Queue.put`
or `repr` raises. -/
theorem raised_of_enqueueOr {tickets : List (Ticket α V)} {n : ℕ} {x : Shared α V cfg × Result α V T}
    (hbound : cfg.Room s.queue.items.length)
    (hroom : ¬ cfg.Room (s.queue.items.length + tickets.length))
    (h : settle hash c n (enqueueOr s tickets (.client r)).1 (enqueueOr s tickets (.client r)).2 = some x) :
    ∃ exn, x.2 = .raised exn := by
  induction tickets generalizing s n with
  | nil => exact absurd hbound hroom
  | cons t ts ih =>
      have h' : settle hash c n s (.enqueuing (t :: ts) (.client r)) = some x := h
      obtain ⟨m, s', th', -, hstep, hrest⟩ := exists_threadStep_of_settle (by simp) h'
      by_cases hrej : s.rejects c t
      · have hraise : threadStep hash s c (.enqueuing (t :: ts) (.client r)) =
            some (s.lose (t :: ts), .finished (.raised .valueError)) := by
          simp [threadStep, clientStep, hrej, Caller.count, Caller.raised]
        rw [hraise] at hstep
        obtain ⟨rfl, rfl⟩ := Prod.mk.inj (Option.some.inj hstep)
        rw [settle_finished] at hrest
        exact ⟨.valueError, by rw [← Option.some.inj hrest]⟩
      by_cases hfull : s.queue.full cfg.queueSize
      · have hdrop : threadStep hash s c (.enqueuing (t :: ts) (.client r)) =
            some ({ s with queue := s.queue.drop }, Thread.releasing (t :: ts) (.client r)) := by
          simp [threadStep, clientStep, hrej, hfull]
        rw [hdrop] at hstep
        obtain ⟨rfl, rfl⟩ := Prod.mk.inj (Option.some.inj hstep)
        exact ⟨.queueBackpressure, raised_of_releasing hrest⟩
      · have hpush : threadStep hash s c (.enqueuing (t :: ts) (.client r)) =
            some (enqueueOr { s with queue := s.queue.push (.flushWriteBack t) } ts (.client r)) := by
          simp [threadStep, clientStep, hrej, hfull]
        have hputs : cfg.rejectsPuts = false := by
          rw [Shared.rejects, Bool.or_eq_true, not_or, Bool.not_eq_true] at hrej
          exact hrej.1
        have hlength : (s.queue.push (.flushWriteBack t)).items.length = s.queue.items.length + 1 := by
          rw [CacheJobQueue.push, List.length_append, List.length_singleton]
        rw [hpush] at hstep
        have hpair : enqueueOr { s with queue := s.queue.push (.flushWriteBack t) } ts (.client r) = (s', th') :=
          Option.some.inj hstep
        refine ih (s := { s with queue := s.queue.push (.flushWriteBack t) }) (n := m) ?_ ?_ (by rw [hpair]; exact hrest)
        · show cfg.Room (s.queue.push _).items.length
          rw [hlength]
          exact (takes_iff cfg s.queue).mp ⟨hputs, Bool.not_eq_true _ ▸ hfull⟩
        · show ¬ cfg.Room ((s.queue.push _).items.length + ts.length)
          rw [hlength, Nat.add_assoc, Nat.add_comm 1]
          exact hroom

end Enqueue

/-! ### Calls -/

/-- What a call does that makes `n` flush jobs: with room for them it gives the result and leaves the shards,
without room it is refused. -/
structure Acts (hash : Key α → ℕ) (s : Shared α V cfg) (op : Op α V T) (r : Result α V T) (n : ℕ)
    (shards : Fin cfg.shardCount → CacheShard α V T) : Prop where
  answers : cfg.Room (s.queue.items.length + n) → ∃ s', call hash {} s op = some (s', r) ∧
    s'.lifecycle = s.lifecycle ∧ s'.shards = shards ∧ s'.queue.items.length = s.queue.items.length + n
  refuses : ¬ cfg.Room (s.queue.items.length + n) → ∀ x, call hash {} s op = some x →
    ∃ exn, x.2 = .raised exn

section Acts

variable {s : Shared α V cfg} {op : Op α V T} {r : Result α V T} {shards : Fin cfg.shardCount → CacheShard α V T}

/-- A call that answers and leaves the queue alone. -/
theorem acts_of_call (hbound : cfg.Room s.queue.items.length) {s' : Shared α V cfg}
    (h : call hash {} s op = some (s', r)) (hlife : s'.lifecycle = s.lifecycle) (hqueue : s'.queue = s.queue) :
    Acts hash s op r 0 s'.shards where
  answers _ := ⟨s', h, hlife, rfl, by rw [hqueue]; rfl⟩
  refuses hroom := absurd hbound hroom

/-- A call whose section makes flush jobs. -/
theorem acts_of_section (hopen : s.Open) (hbound : cfg.Room s.queue.items.length)
    (hop : op.precheck cfg = none) (hclose : ∀ flush, op ≠ .close flush) {s₁ : Shared α V cfg}
    {tickets : List (Ticket α V)} (hlength : tickets.length ≤ 1)
    (hstep : threadStep hash s {} (.running op (.client .done)) = some (enqueueOr s₁ tickets (.client r)))
    (hlife : s₁.lifecycle = s.lifecycle) (hqueue : s₁.queue = s.queue) :
    Acts hash s op r tickets.length s₁.shards := by
  have hcall : call hash {} s op = settle hash {} (cfg.shardCount + 2 * s.total + 6)
      (enqueueOr s₁ tickets (.client r)).1 (enqueueOr s₁ tickets (.client r)).2 := by
    have hpair : threadStep hash s {} (.running op (.client .done)) =
        some ((enqueueOr s₁ tickets (.client r)).1, (enqueueOr s₁ tickets (.client r)).2) := hstep
    rw [call, Shared.callFuel, settle_step (threadStep_entering hopen hop hclose {} _), settle_step hpair]
  obtain ⟨n, hn⟩ : ∃ n, cfg.shardCount + 2 * s.total + 6 = n + tickets.length :=
    ⟨cfg.shardCount + 2 * s.total + 6 - tickets.length, by omega⟩
  refine ⟨fun hroom => ?_, fun hroom x hx => ?_⟩
  · obtain ⟨s', hrun, hlife', hshards, hqueue'⟩ :=
      settle_enqueueOr hash (c := {}) (s := s₁) (r := r) tickets n (by rw [hqueue]; exact hroom)
    refine ⟨s', ?_, hlife'.trans hlife, hshards, by rw [hqueue', hqueue]⟩
    rw [hcall, hn]
    exact hrun
  · rw [hcall] at hx
    exact raised_of_enqueueOr (by rw [hqueue]; exact hbound) (by rw [hqueue]; exact hroom) hx

/-- A `get`. -/
theorem acts_get (hash : Key α → ℕ) (hopen : s.Open) (hbound : cfg.Room s.queue.items.length) (key : Key α) :
    Acts hash s (.get key) (.value ((s.home hash key).readValueLocked key true true s.now).1) 0
      (Function.update s.shards (shardFor cfg hash key) ((s.home hash key).readValueLocked key true true s.now).2) :=
  acts_of_call hbound (call_get hopen key) rfl rfl

/-- A `contains`. -/
theorem acts_contains (hash : Key α → ℕ) (hopen : s.Open) (hbound : cfg.Room s.queue.items.length) (key : Key α) :
    Acts hash s (.contains key) (.flag ((s.home hash key).readValueLocked key false true s.now).1.isSome) 0
      (Function.update s.shards (shardFor cfg hash key) ((s.home hash key).readValueLocked key false true s.now).2) :=
  acts_of_call hbound (call_contains hopen key) rfl rfl

/-- A `restore_entry_metadata`. -/
theorem acts_restoreEntryMetadata (hash : Key α → ℕ) (hopen : s.Open)
    (hbound : cfg.Room s.queue.items.length) (key : Key α)
    (n : ℤ) :
    Acts hash s (.restoreEntryMetadata key n) .done 0
      (Function.update s.shards (shardFor cfg hash key) ((s.home hash key).restoreEntryMetadata key n)) :=
  acts_of_call hbound (call_restoreEntryMetadata hopen key n) rfl rfl

/-- A `put`. -/
theorem acts_put (hash : Key α → ℕ) (hopen : s.Open) (hbound : cfg.Room s.queue.items.length)
    (key : Key α) (value : V)
    {ttl : Ttl T} (httl : validExplicitTtl ttl = true) :
    Acts hash s (.put key value ttl) .done (if cfg.writeMode = .writeBack then 1 else 0)
      (Function.update s.shards (shardFor cfg hash key)
        ((s.home hash key).putLocked cfg.toCacheConfig s.source key value ttl s.now true).shard) := by
  have hraised : (s.putSection hash key value ttl true).2.2 = false := by
    simp [Shared.putSection, CacheShard.putLocked, apply_ite SectionResult.raised]
  have hlength : (s.putSection hash key value ttl true).2.1.length = if cfg.writeMode = .writeBack then 1 else 0 := by
    by_cases hmode : cfg.writeMode = .writeBack <;>
      simp [Shared.putSection, CacheShard.putLocked, ticketsFrom, hmode]
  have hstep : threadStep hash s {} (.running (.put key value ttl) (.client .done)) =
      some (enqueueOr (s.putSection hash key value ttl true).1 (s.putSection hash key value ttl true).2.1
        (.client .done)) := by
    simp [threadStep, clientStep, hraised]
  rw [← hlength]
  refine acts_of_section hopen hbound (by simp [Op.precheck, httl]) (by simp) ?_ hstep rfl rfl
  rw [hlength]
  split_ifs <;> omega

/-- A `delete`. -/
theorem acts_delete (hash : Key α → ℕ) (hopen : s.Open) (hbound : cfg.Room s.queue.items.length) (key : Key α) :
    Acts hash s (.delete key) (.flag ((s.home hash key).backend.getEntry key).isSome)
      (if cfg.writeMode = .writeBack then 1 else 0)
      (Function.update s.shards (shardFor cfg hash key)
        ((s.home hash key).deleteLocked cfg.toCacheConfig s.source key true).shard) := by
  have hraised : (s.deleteSection hash key true).2.2 = false := by
    simp [Shared.deleteSection, CacheShard.deleteLocked, CacheShard.eraseLocked]
  have hlength : (s.deleteSection hash key true).2.1.length = if cfg.writeMode = .writeBack then 1 else 0 := by
    by_cases hmode : cfg.writeMode = .writeBack <;>
      simp [Shared.deleteSection, CacheShard.deleteLocked, CacheShard.eraseLocked, ticketsFrom, hmode]
  have hstep : threadStep hash s {} (.running (.delete key) (.client .done)) =
      some (enqueueOr (s.deleteSection hash key true).1 (s.deleteSection hash key true).2.1
        (.client (.flag ((s.home hash key).backend.getEntry key).isSome))) := by
    simp [threadStep, clientStep, hraised]
  rw [← hlength]
  refine acts_of_section hopen hbound rfl (by simp) ?_ hstep rfl rfl
  rw [hlength]
  split_ifs <;> omega

/-- The sections of a clear, from a shard on. -/
theorem settle_clearing (hash : Key α → ℕ) (m n : ℕ) {i : ℕ} (hi : i + m = cfg.shardCount) (s : Shared α V cfg)
    (tickets : List (Ticket α V)) :
    ∃ s' tickets', settle hash {} (m + n) s (.clearing i tickets) =
        settle hash {} n s' (.clearing cfg.shardCount tickets') ∧
      s'.lifecycle = s.lifecycle ∧ s'.queue = s.queue ∧
      (∀ j : Fin cfg.shardCount, i ≤ j.1 →
        ∃ src, s'.shards j = ((s.shards j).clearLocked cfg.toCacheConfig src fun _ => true).shard) ∧
      (∀ j : Fin cfg.shardCount, j.1 < i → s'.shards j = s.shards j) ∧
      tickets'.length = tickets.length + if cfg.writeMode = .writeBack then
        (((List.finRange cfg.shardCount).drop i).map fun j => (s.shards j).backend.size).sum else 0 := by
  induction m generalizing i s tickets with
  | zero =>
      obtain rfl : i = cfg.shardCount := by simpa using hi
      refine ⟨s, tickets, by rw [Nat.zero_add], rfl, rfl, fun j hj => absurd j.2 (not_lt.mpr hj), fun _ _ => rfl, ?_⟩
      rw [List.drop_of_length_le (by simp)]
      simp
  | succ m ih =>
      have hlt : i < cfg.shardCount := by omega
      obtain ⟨hreturned, -, -, -, hjobs⟩ :=
        CacheShard.clearLocked_of_ok cfg.toCacheConfig (s.shards ⟨i, hlt⟩) s.source
      have hstep : threadStep hash s {} (.clearing i tickets) =
          some ((s.clearSection ⟨i, hlt⟩ fun _ => true).1,
            .clearing (i + 1) (tickets ++ (s.clearSection ⟨i, hlt⟩ fun _ => true).2.1)) := by
        have hraised : (s.clearSection ⟨i, hlt⟩ fun _ => true).2.2 = false := hreturned
        simp [threadStep, clientStep, hlt, hraised]
      have hshards : (s.clearSection ⟨i, hlt⟩ fun _ => true).1.shards = Function.update s.shards ⟨i, hlt⟩
          ((s.shards ⟨i, hlt⟩).clearLocked cfg.toCacheConfig s.source fun _ => true).shard := rfl
      obtain ⟨s', tickets', hrun, hlife, hqueue, hdone, hkept, hlength⟩ := ih (i := i + 1) (by omega)
        (s.clearSection ⟨i, hlt⟩ fun _ => true).1 (tickets ++ (s.clearSection ⟨i, hlt⟩ fun _ => true).2.1)
      have hne : ∀ j : Fin cfg.shardCount, j.1 ≠ i →
          (s.clearSection ⟨i, hlt⟩ fun _ => true).1.shards j = s.shards j := by
        intro j hj
        rw [hshards, Function.update_of_ne fun heq => hj (congrArg Fin.val heq)]
      refine ⟨s', tickets', ?_, hlife, hqueue, fun j hj => ?_, fun j hj => ?_, ?_⟩
      · rw [show m + 1 + n = (m + n) + 1 by omega, settle_step hstep, hrun]
      · by_cases hji : j.1 = i
        · obtain rfl : j = ⟨i, hlt⟩ := Fin.ext hji
          refine ⟨s.source, ?_⟩
          rw [hkept _ (Nat.lt_succ_self i), hshards, Function.update_self]
        · obtain ⟨src, hsrc⟩ := hdone j (by omega)
          exact ⟨src, by rw [hsrc, hne j hji]⟩
      · rw [hkept j (by omega), hne j (by omega)]
      · have htickets : (s.clearSection ⟨i, hlt⟩ fun _ => true).2.1.length =
            if cfg.writeMode = .writeBack then (s.shards ⟨i, hlt⟩).backend.size else 0 := by
          rw [← hjobs]
          simp [Shared.clearSection, ticketsFrom]
        have hrest : ((List.finRange cfg.shardCount).drop (i + 1)).map (fun j =>
            ((s.clearSection ⟨i, hlt⟩ fun _ => true).1.shards j).backend.size) =
            ((List.finRange cfg.shardCount).drop (i + 1)).map fun j => (s.shards j).backend.size := by
          refine List.map_congr_left fun j hj => ?_
          obtain ⟨k, hk, rfl⟩ := List.mem_iff_getElem.mp hj
          rw [hne]
          simp
          omega
        rw [hlength, List.length_append, htickets, hrest, drop_finRange hlt, List.map_cons, List.sum_cons]
        split_ifs <;> omega

/-- A `clear`: one job for each entry. -/
theorem acts_clear (hash : Key α → ℕ) (hopen : s.Open) (hbound : cfg.Room s.queue.items.length) :
    ∃ shards, Acts hash s .clear .done (if cfg.writeMode = .writeBack then s.total else 0) shards ∧
      ∀ j, ∃ src, shards j = ((s.shards j).clearLocked cfg.toCacheConfig src fun _ => true).shard := by
  have hfuel : s.callFuel = cfg.shardCount + (2 * s.total + 6) + 1 + 1 := by
    rw [Shared.callFuel]
    omega
  obtain ⟨s₁, tickets, hrun, hlife, hqueue, hdone, -, hlength⟩ :=
    settle_clearing hash cfg.shardCount (2 * s.total + 6) (Nat.zero_add _) s []
  have hstep : threadStep hash s₁ {} (.clearing cfg.shardCount tickets) =
      some ((enqueueOr s₁ tickets (.client .done)).1, (enqueueOr s₁ tickets (.client .done)).2) := by
    simp [threadStep, clientStep]
  have hcount : tickets.length = if cfg.writeMode = .writeBack then s.total else 0 := by
    rw [hlength, List.length_nil, Nat.zero_add, List.drop_zero, Shared.total]
  have hcall : call hash {} s .clear = settle hash {} (2 * s.total + 5)
      (enqueueOr s₁ tickets (.client .done)).1 (enqueueOr s₁ tickets (.client .done)).2 := by
    have hstart : threadStep hash s {} (.running .clear (.client .done)) = some (s, Thread.clearing 0 []) := rfl
    rw [call, hfuel, settle_step (threadStep_entering hopen rfl (by simp) {} _), settle_step hstart, hrun,
      settle_step hstep]
  obtain ⟨n, hn⟩ : ∃ n, 2 * s.total + 5 = n + tickets.length := by
    refine ⟨2 * s.total + 5 - tickets.length, ?_⟩
    rw [hcount]
    split_ifs <;> omega
  refine ⟨s₁.shards, ?_, fun j => hdone j (Nat.zero_le _)⟩
  rw [← hcount]
  refine ⟨fun hroom => ?_, fun hroom x hx => ?_⟩
  · obtain ⟨s', hend, hlife', hshards, hqueue'⟩ := settle_enqueueOr hash (c := {}) (s := s₁)
      (r := Result.done) tickets n (by rw [hqueue]; exact hroom)
    exact ⟨s', by rw [hcall, hn]; exact hend, hlife'.trans hlife, hshards, by rw [hqueue', hqueue]⟩
  · rw [hcall] at hx
    exact raised_of_enqueueOr (by rw [hqueue]; exact hbound) (by rw [hqueue]; exact hroom) hx

end Acts

end CacheLab
