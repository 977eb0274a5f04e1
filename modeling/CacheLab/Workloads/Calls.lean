import CacheLab.Workloads.Session

/-!
# Calls made alone

A call that nobody else interferes with: its thread takes step after step until it is finished. `call` is
the state and the result it ends with. `call_exec` says that this is a run of the system in which only the
thread of the call moves.

The lemmas below give what each operation answers on an open cache and what it leaves. The sweeping
operations (`size`, `dump`, `expire_all`, `clear`) go through the shards in order; what they answer is the
fan-out of one section over all shards.
-/

set_option linter.unusedSectionVars false

namespace CacheLab

variable {α V T : Type} [DecidableEq α] [LinearOrder T] [Zero T] [Add T] [Sub T]

variable {cfg : AcceptedConfig T} {hash : Key α → ℕ}

/-- Let a thread take at most `n` steps until it is finished. -/
def settle (hash : Key α → ℕ) (c : Choice α V) :
    ℕ → Shared α V cfg → Thread α V T → Option (Shared α V cfg × Result α V T)
  | 0, s, th =>
      match th with
      | .finished r => some (s, r)
      | _ => none
  | n + 1, s, th =>
      match th with
      | .finished r => some (s, r)
      | th => (threadStep hash s c th).bind fun p => settle hash c n p.1 p.2

/-- The number of entries of a cache. -/
def Shared.total (s : Shared α V cfg) : ℕ :=
  ((List.finRange cfg.shardCount).map fun i => (s.shards i).backend.size).sum

/-- Steps enough for every call but `close`: one for each shard, and two for each flush job. -/
def Shared.callFuel (s : Shared α V cfg) : ℕ := cfg.shardCount + 2 * s.total + 8

/-- A call made alone: the state and the result it ends with. -/
def call (hash : Key α → ℕ) (c : Choice α V) (s : Shared α V cfg) (op : Op α V T) :
    Option (Shared α V cfg × Result α V T) :=
  settle hash c s.callFuel s (.entering op (.client .done))

section Settle

variable {c : Choice α V} {n m : ℕ} {s s' : Shared α V cfg} {th th' : Thread α V T} {r : Result α V T}

@[simp] theorem settle_finished (n : ℕ) (s : Shared α V cfg) (r : Result α V T) :
    settle hash c n s (.finished r) = some (s, r) := by
  cases n <;> rfl

/-- A step. -/
theorem settle_step (h : threadStep hash s c th = some (s', th')) :
    settle hash c (n + 1) s th = settle hash c n s' th' := by
  cases th with
  | finished r => cases h
  | _ => simp only [settle, h, Option.bind_some]

/-- More steps do no harm. -/
theorem settle_mono {x : Shared α V cfg × Result α V T} (h : settle hash c n s th = some x) (hnm : n ≤ m) :
    settle hash c m s th = some x := by
  induction n generalizing m s th with
  | zero =>
      cases th with
      | finished r => exact (settle_finished m s r).trans h
      | _ => cases h
  | succ n ih =>
      obtain ⟨m, rfl⟩ := Nat.exists_eq_add_of_lt hnm
      cases hth : threadStep hash s c th with
      | none =>
          cases th with
          | finished r => exact (settle_finished _ s r).trans h
          | _ => simp [settle, hth] at h
      | some p =>
          rw [settle_step hth] at h
          rw [settle_step hth]
          exact ih h (by omega)

/-- A thread that settles is a run of the system in which only this thread moves. -/
theorem settle_exec {threads : List (Thread α V T)} {i : ℕ} (hi : threads[i]? = some th)
    (h : settle hash c n s th = some (s', r)) :
    ∃ m, m ≤ n ∧ exec cfg hash ⟨s, threads⟩ (List.replicate m (.run i c)) =
      some ⟨s', threads.set i (.finished r)⟩ := by
  obtain ⟨hlt, hget⟩ := List.getElem?_eq_some_iff.mp hi
  have hdone : ∀ {r' : Result α V T}, th = .finished r' → threads.set i (.finished r') = threads := by
    rintro r' rfl
    rw [← hget, List.set_getElem_self]
  induction n generalizing s th threads with
  | zero =>
      cases th with
      | finished r' =>
          cases h
          exact ⟨0, le_rfl, by rw [hdone rfl]; rfl⟩
      | _ => cases h
  | succ n ih =>
      cases hth : threadStep hash s c th with
      | none =>
          cases th with
          | finished r' =>
              cases h
              exact ⟨0, Nat.zero_le _, by rw [hdone rfl]; rfl⟩
          | _ => simp [settle, hth] at h
      | some p =>
          obtain ⟨s₁, th₁⟩ := p
          rw [settle_step hth] at h
          have hi₁ : (threads.set i th₁)[i]? = some th₁ := by simp [hlt]
          obtain ⟨hlt₁, hget₁⟩ := List.getElem?_eq_some_iff.mp hi₁
          obtain ⟨m, hm, hrun⟩ := ih hi₁ h hlt₁ hget₁ fun {r'} hr' => by
            rw [hr', List.set_set]
          refine ⟨m + 1, by omega, ?_⟩
          rw [List.replicate_succ, exec, Transition.run]
          simp only [step, hi, Option.bind_some, hth, Option.map_some]
          rw [List.set_set] at hrun
          exact hrun

end Settle

/-- **A call made alone is a run of the system.** -/
theorem call_exec {c : Choice α V} {s : System α V cfg} {s' : Shared α V cfg} {op : Op α V T}
    {r : Result α V T} (h : call hash c s.shared op = some (s', r)) :
    ∃ m, exec cfg hash s (.call op :: List.replicate m (.run s.threads.length c)) =
      some ⟨s', s.threads ++ [Thread.finished r]⟩ := by
  have hi : (s.threads ++ [Thread.entering op (.client .done)])[s.threads.length]? =
      some (Thread.entering op (.client .done)) := by simp
  obtain ⟨m, -, hrun⟩ := settle_exec hi h
  refine ⟨m, ?_⟩
  rw [exec, Transition.run]
  simp only [step, Option.bind_some]
  rw [List.set_append_right _ _ le_rfl, Nat.sub_self, List.set_cons_zero] at hrun
  exact hrun

/-- What a call made alone answers. -/
def Answers (hash : Key α → ℕ) (c : Choice α V) (s : Shared α V cfg) (op : Op α V T)
    (r : Result α V T) : Prop :=
  ∃ s', call hash c s op = some (s', r)

/-- A call has one answer. -/
theorem answers_iff {c : Choice α V} {s s' : Shared α V cfg} {op : Op α V T} {r r' : Result α V T}
    (h : call hash c s op = some (s', r)) : Answers hash c s op r' ↔ r' = r := by
  constructor
  · rintro ⟨s'', h'⟩
    rw [h] at h'
    cases h'
    rfl
  · rintro rfl
    exact ⟨s', h⟩

/-- A cache that is not open answers nothing but that it is closed. -/
theorem eq_raised_of_not_open {c : Choice α V} {s : Shared α V cfg} {op : Op α V T} {r : Result α V T}
    (hopen : ¬ s.Open) (hclose : ∀ flush, op ≠ .close flush) (h : Answers hash c s op r) :
    r = .raised .closedCache := by
  obtain ⟨s', h⟩ := h
  have hlife : s.lifecycle = .closing ∨ s.lifecycle = .closed ∨ s.lifecycle = .abandoned := by
    unfold Shared.Open at hopen
    cases hl : s.lifecycle <;> simp_all
  rcases hlife with hl | hl
  · have henter : threadStep hash s c (.entering op (.client .done)) = none := by
      rw [threadStep, clientStep_entering hclose, hl]
      rfl
    have hstuck : call hash c s op = none := by
      show (threadStep hash s c (.entering op (.client .done))).bind _ = none
      rw [henter]
      rfl
    rw [hstuck] at h
    cases h
  · have henter : threadStep hash s c (.entering op (.client .done)) =
        some (s, Thread.finished (.raised .closedCache)) := by
      rw [threadStep, clientStep_entering hclose]
      rcases hl with hl | hl <;> rw [hl] <;> rfl
    rw [call, Shared.callFuel, settle_step henter, settle_finished] at h
    cases h
    rfl

/-! ### Calls with one section -/

section OneSection

variable {c : Choice α V} {s s' : Shared α V cfg} {op : Op α V T} {r : Result α V T}

/-- A call that is over after its first section. -/
theorem call_of_section (hopen : s.Open) (hop : op.precheck cfg = none) (hclose : ∀ flush, op ≠ .close flush)
    (h : threadStep hash s c (.running op (.client .done)) = some (s', Thread.finished r)) :
    call hash c s op = some (s', r) := by
  rw [call, Shared.callFuel, settle_step (threadStep_entering hopen hop hclose c _), settle_step h,
    settle_finished]

/-- A call with an argument that does not pass its check. -/
theorem call_of_precheck (hopen : s.Open) {exn : Exn} (hop : op.precheck cfg = some exn)
    (hclose : ∀ flush, op ≠ .close flush) : call hash c s op = some (s, Result.raised exn) := by
  have henter : threadStep hash s c (.entering op (.client .done)) = some (s, Thread.finished (.raised exn)) := by
    have hclient : clientStep hash s c (.entering op (.client .done)) =
        some (s, Thread.finished (.raised exn)) := by
      cases op with
      | close flush => exact absurd rfl (hclose flush)
      | _ => rcases hopen with h | h <;> simp only [clientStep, h, hop] <;> rfl
    rw [threadStep, hclient]
    rfl
  rw [call, Shared.callFuel, settle_step henter, settle_finished]

theorem call_get (hopen : s.Open) (key : Key α) :
    call hash c s (.get key) =
      some (s.setShard (shardFor cfg hash key) ((s.home hash key).readValueLocked key true true s.now).2,
        .value ((s.home hash key).readValueLocked key true true s.now).1) :=
  call_of_section hopen rfl (by simp) rfl

theorem call_contains (hopen : s.Open) (key : Key α) :
    call hash c s (.contains key) =
      some (s.setShard (shardFor cfg hash key) ((s.home hash key).readValueLocked key false true s.now).2,
        .flag ((s.home hash key).readValueLocked key false true s.now).1.isSome) :=
  call_of_section hopen rfl (by simp) rfl

theorem call_inspect (hopen : s.Open) (key : Key α) :
    call hash c s (.inspect key) =
      some (s.setShard (shardFor cfg hash key) ((s.home hash key).inspectLocked key s.now).2,
        .snapshot ((s.home hash key).inspectLocked key s.now).1) :=
  call_of_section hopen rfl (by simp) rfl

theorem call_restoreEntryMetadata (hopen : s.Open) (key : Key α) (n : ℤ) :
    call hash c s (.restoreEntryMetadata key n) =
      some (s.setShard (shardFor cfg hash key) ((s.home hash key).restoreEntryMetadata key n), .done) :=
  call_of_section hopen rfl (by simp) rfl

end OneSection

/-! ### Sweeps over the shards -/

/-- Two states that differ in their shards and their log only. -/
structure Shared.Beside (s s' : Shared α V cfg) : Prop where
  now_eq : s'.now = s.now
  lifecycle_eq : s'.lifecycle = s.lifecycle
  poolStarted_eq : s'.poolStarted = s.poolStarted
  stopEvent_eq : s'.stopEvent = s.stopEvent
  queue_eq : s'.queue = s.queue
  source_eq : s'.source = s.source
  runtime_eq : s'.runtime = s.runtime
  flights_eq : s'.flights = s.flights

theorem Shared.Beside.refl (s : Shared α V cfg) : s.Beside s := ⟨rfl, rfl, rfl, rfl, rfl, rfl, rfl, rfl⟩

theorem Shared.Beside.trans {s s' s'' : Shared α V cfg} (h : s.Beside s') (h' : s'.Beside s'') :
    s.Beside s'' :=
  ⟨h'.now_eq.trans h.now_eq, h'.lifecycle_eq.trans h.lifecycle_eq,
    h'.poolStarted_eq.trans h.poolStarted_eq, h'.stopEvent_eq.trans h.stopEvent_eq,
    h'.queue_eq.trans h.queue_eq, h'.source_eq.trans h.source_eq, h'.runtime_eq.trans h.runtime_eq,
    h'.flights_eq.trans h.flights_eq⟩

/-- The cache stays open. -/
theorem Shared.Beside.opened {s s' : Shared α V cfg} (h : s.Beside s') (hopen : s.Open) : s'.Open := by
  unfold Shared.Open
  rw [h.lifecycle_eq]
  exact hopen

/-- The shards, in order. -/
def Shared.shardList (s : Shared α V cfg) : List (CacheShard α V T) :=
  (List.finRange cfg.shardCount).map s.shards

/-- The indices from a shard on. -/
theorem drop_finRange {n i : ℕ} (hi : i < n) :
    (List.finRange n).drop i = ⟨i, hi⟩ :: (List.finRange n).drop (i + 1) := by
  rw [List.drop_eq_getElem_cons (by simpa using hi)]
  simp

/-- **The sweep rule.** A thread that visits shard after shard, with the same section `f` on each and `g`
to collect what it answers, comes to its end with the fan-out over the shards it had left. -/
theorem settle_sweep {β : Type} {c : Choice α V} {s₀ : Shared α V cfg} (point : ℕ → β → Thread α V T)
    (f : CacheShard α V T → CacheShard α V T) (g : β → CacheShard α V T → β) (out : β → Result α V T)
    (hsection : ∀ (s : Shared α V cfg) (i : Fin cfg.shardCount) (b : β), s₀.Beside s → ∃ s',
      threadStep hash s c (point i b) = some (s', point (i + 1) (g b (s.shards i))) ∧
        s.Beside s' ∧ s'.shards = Function.update s.shards i (f (s.shards i)))
    (hend : ∀ (s : Shared α V cfg) (b : β), s₀.Beside s →
      threadStep hash s c (point cfg.shardCount b) = some (s, Thread.finished (out b)))
    (m : ℕ) {i : ℕ} (hi : i + m = cfg.shardCount) (s : Shared α V cfg) (hs : s₀.Beside s) (b : β) :
    ∃ s', settle hash c (m + 1) s (point i b) =
        some (s', out ((((List.finRange cfg.shardCount).drop i).map s.shards).foldl g b)) ∧
      s.Beside s' ∧ ∀ j, s'.shards j = if i ≤ j.1 then f (s.shards j) else s.shards j := by
  induction m generalizing i s b with
  | zero =>
      obtain rfl : i = cfg.shardCount := by simpa using hi
      refine ⟨s, ?_, .refl s, fun j => (if_neg (not_le.mpr j.2)).symm⟩
      rw [settle_step (hend s b hs), settle_finished, List.drop_of_length_le (by simp)]
      rfl
  | succ m ih =>
      have hlt : i < cfg.shardCount := by omega
      obtain ⟨s₁, hstep, hbeside, hshards⟩ := hsection s ⟨i, hlt⟩ b hs
      obtain ⟨s', hrest, hbeside', hshards'⟩ :=
        ih (i := i + 1) (by omega) s₁ (hs.trans hbeside) (g b (s.shards ⟨i, hlt⟩))
      -- the shards that are left are still as they were
      have hleft : ((List.finRange cfg.shardCount).drop (i + 1)).map s₁.shards =
          ((List.finRange cfg.shardCount).drop (i + 1)).map s.shards := by
        refine List.map_congr_left fun j hj => ?_
        rw [hshards, Function.update_of_ne]
        rintro rfl
        obtain ⟨k, hk, hjk⟩ := List.mem_iff_getElem.mp hj
        have := congrArg Fin.val hjk
        simp at this
        omega
      refine ⟨s', ?_, hbeside.trans hbeside', fun j => ?_⟩
      · rw [settle_step hstep, hrest, drop_finRange hlt, List.map_cons, List.foldl_cons, hleft]
      · rw [hshards', hshards]
        by_cases hj : j = ⟨i, hlt⟩
        · subst hj
          simp
        · have hne : j.1 ≠ i := fun h => hj (Fin.ext h)
          rw [Function.update_of_ne hj]
          by_cases hle : i ≤ j.1
          · rw [if_pos (by omega), if_pos hle]
          · rw [if_neg (by omega), if_neg hle]

/-- A call that is a sweep. -/
theorem call_of_sweep {β : Type} {c : Choice α V} {s : Shared α V cfg} (hopen : s.Open) (op : Op α V T)
    (hop : op.precheck cfg = none) (hclose : ∀ flush, op ≠ .close flush)
    (point : ℕ → β → Thread α V T) (b : β) (f : CacheShard α V T → CacheShard α V T)
    (g : β → CacheShard α V T → β) (out : β → Result α V T)
    (hstart : threadStep hash s c (.running op (.client .done)) = some (s, point 0 b))
    (hsection : ∀ (s' : Shared α V cfg) (i : Fin cfg.shardCount) (b : β), s.Beside s' → ∃ s'',
      threadStep hash s' c (point i b) = some (s'', point (i + 1) (g b (s'.shards i))) ∧
        s'.Beside s'' ∧ s''.shards = Function.update s'.shards i (f (s'.shards i)))
    (hend : ∀ (s' : Shared α V cfg) (b : β), s.Beside s' →
      threadStep hash s' c (point cfg.shardCount b) = some (s', Thread.finished (out b))) :
    ∃ s', call hash c s op = some (s', out (s.shardList.foldl g b)) ∧ s.Beside s' ∧
      ∀ j, s'.shards j = f (s.shards j) := by
  obtain ⟨s', hrun, hbeside, hshards⟩ :=
    settle_sweep point f g out hsection hend cfg.shardCount (Nat.zero_add _) s (.refl s) b
  refine ⟨s', ?_, hbeside, fun j => (hshards j).trans (if_pos (Nat.zero_le _))⟩
  have hfuel : s.callFuel = (cfg.shardCount + 1 + (2 * s.total + 5)) + 1 + 1 := by
    rw [Shared.callFuel]
    omega
  rw [call, hfuel, settle_step (threadStep_entering hopen hop hclose c _), settle_step hstart]
  exact settle_mono hrun (Nat.le_add_right _ _)

/-- Adding up along a list. -/
theorem foldl_add {β : Type} (f : β → ℕ) (l : List β) (n : ℕ) :
    l.foldl (fun total b => total + f b) n = n + (l.map f).sum := by
  induction l generalizing n with
  | nil => rfl
  | cons b l ih => rw [List.foldl_cons, ih, List.map_cons, List.sum_cons, Nat.add_assoc]

/-- Collecting along a list. -/
theorem foldl_append {β γ : Type} (f : β → List γ) (l : List β) (taken : List γ) :
    l.foldl (fun taken b => taken ++ f b) taken = taken ++ l.flatMap f := by
  induction l generalizing taken with
  | nil => exact (List.append_nil taken).symm
  | cons b l ih => rw [List.foldl_cons, ih, List.flatMap_cons, List.append_assoc]

section Sweeps

variable {s : Shared α V cfg}

/-- A section on one shard is beside. -/
theorem Shared.Beside.setShard (s : Shared α V cfg) (i : Fin cfg.shardCount) (sh : CacheShard α V T) :
    s.Beside (s.setShard i sh) := ⟨rfl, rfl, rfl, rfl, rfl, rfl, rfl, rfl⟩

variable (hash) (c : Choice α V)

/-- `size` adds up what the shards store. -/
theorem call_size (hopen : s.Open) :
    ∃ s', call hash c s .size = some (s', Result.number (s.shardList.map fun sh => sh.backend.size).sum) ∧
      s.Beside s' ∧ ∀ j, s'.shards j = s.shards j := by
  obtain ⟨s', hcall, hrest⟩ := call_of_sweep hopen .size rfl (by simp) Thread.sizing 0 (fun sh => sh)
    (fun total sh => total + sh.backend.size) Result.number rfl
    (fun s' i b _ => ⟨s', by simp [threadStep, clientStep], .refl s',
      (Function.update_eq_self i s'.shards).symm⟩)
    (fun s' b _ => by simp [threadStep, clientStep])
  refine ⟨s', ?_, hrest⟩
  rw [hcall, foldl_add, Nat.zero_add]

/-- `dump` lists what the shards show, and cuts the list. -/
theorem call_dump (hopen : s.Open) (limit : Option ℤ) :
    ∃ s', call hash c s (.dump limit) =
        some (s', Result.snapshots (upTo limit (s.shardList.flatMap fun sh => (sh.dumpLocked s.now).1))) ∧
      s.Beside s' ∧ ∀ j, s'.shards j = ((s.shards j).dumpLocked s.now).2 := by
  obtain ⟨s', hcall, hrest⟩ := call_of_sweep hopen (.dump limit) rfl (by simp)
    (fun i taken => Thread.dumping i taken limit) [] (fun sh => (sh.dumpLocked s.now).2)
    (fun taken sh => taken ++ (sh.dumpLocked s.now).1) (fun taken => .snapshots (upTo limit taken)) rfl
    (fun s' i b hs' => ⟨s'.setShard i ((s'.shards i).dumpLocked s.now).2,
      by simp [threadStep, clientStep, hs'.now_eq], .setShard s' i _, rfl⟩)
    (fun s' b _ => by simp [threadStep, clientStep])
  refine ⟨s', ?_, hrest⟩
  rw [hcall, foldl_append, List.nil_append]

end Sweeps

/-! ### Writing calls -/

section Writes

variable {c : Choice α V} {s : Shared α V cfg}

/-- A `put` in cache-only mode. -/
theorem call_put (hmode : cfg.writeMode = .cacheOnly) (hopen : s.Open) (key : Key α) (value : V)
    {ttl : Ttl T} (httl : validExplicitTtl ttl = true) :
    call hash c s (.put key value ttl) =
      some ((s.putSection hash key value ttl (c.ok key)).1, .done) := by
  have hquiet : (s.putSection hash key value ttl (c.ok key)).2 = ([], false) := by
    simp [Shared.putSection, CacheShard.putLocked, hmode, ticketsFrom]
  refine call_of_section hopen (by simp [Op.precheck, httl]) (by simp) ?_
  simp [threadStep, clientStep, hquiet, enqueueOr, Caller.count, Caller.returned]

/-- A `put` with a lifetime that is not positive. -/
theorem call_put_of_invalid (hopen : s.Open) (key : Key α) (value : V) {ttl : Ttl T}
    (httl : validExplicitTtl ttl = false) :
    call hash c s (.put key value ttl) = some (s, Result.raised .validation) :=
  call_of_precheck hopen (by simp [Op.precheck, httl]) (by simp)

/-- A flush job that the queue takes. -/
theorem settle_enqueuing (hputs : cfg.rejectsPuts = false) (hfull : s.queue.full cfg.queueSize = false) (n : ℕ)
    (t : Ticket α V) (r : Result α V T) :
    settle hash c (n + 1) s (.enqueuing [t] (.client r)) =
      some ({ s with queue := s.queue.push (.flushWriteBack t) }, r) := by
  have hpush : threadStep hash s c (.enqueuing [t] (.client r)) =
      some ({ s with queue := s.queue.push (.flushWriteBack t) }, .finished r) := by
    simp [threadStep, clientStep, Shared.rejects, hputs, hfull, enqueueOr, Caller.count, Caller.returned]
  rw [settle_step hpush, settle_finished]

/-- A `delete` that is not refused answers whether the key was stored. -/
theorem call_delete (hopen : s.Open) (key : Key α)
    (hsource : cfg.writeMode = .writeThrough → c.ok key = true)
    (hqueue : cfg.writeMode = .writeBack → cfg.rejectsPuts = false ∧ s.queue.full cfg.queueSize = false) :
    ∃ s', call hash c s (.delete key) =
        some (s', Result.flag ((s.home hash key).backend.getEntry key).isSome) ∧
      s'.shards = (s.deleteSection hash key (c.ok key)).1.shards := by
  have hraised : ¬ (cfg.writeMode = .writeThrough ∧ c.ok key = false) := by
    rintro ⟨hmode, hfail⟩
    rw [hsource hmode] at hfail
    cases hfail
  have hreturns : (s.deleteSection hash key (c.ok key)).2.2 = false := by
    simp [Shared.deleteSection, CacheShard.deleteLocked, hraised, CacheShard.eraseLocked]
  by_cases hmode : cfg.writeMode = .writeBack
  · obtain ⟨t, ht⟩ : ∃ t, (s.deleteSection hash key (c.ok key)).2.1 = [t] := by
      simp [Shared.deleteSection, CacheShard.deleteLocked, CacheShard.eraseLocked, hmode, ticketsFrom]
    have hrun : threadStep hash s c (.running (.delete key) (.client .done)) =
        some ((s.deleteSection hash key (c.ok key)).1,
          .enqueuing [t] (.client (.flag ((s.home hash key).backend.getEntry key).isSome))) := by
      simp [threadStep, clientStep, hreturns, ht, enqueueOr]
    refine ⟨{ (s.deleteSection hash key (c.ok key)).1 with
      queue := s.queue.push (.flushWriteBack t) }, ?_, rfl⟩
    rw [call, Shared.callFuel, settle_step (threadStep_entering hopen rfl (by simp) c _), settle_step hrun]
    have hroom : (s.deleteSection hash key (c.ok key)).1.queue.full cfg.queueSize = false := (hqueue hmode).2
    exact settle_enqueuing (hqueue hmode).1 hroom _ t _
  · have hnone : (s.deleteSection hash key (c.ok key)).2.1 = [] := by
      simp [Shared.deleteSection, CacheShard.deleteLocked, hraised, CacheShard.eraseLocked, hmode,
        ticketsFrom]
    refine ⟨(s.deleteSection hash key (c.ok key)).1, call_of_section hopen rfl (by simp) ?_, rfl⟩
    simp [threadStep, clientStep, hreturns, hnone, enqueueOr, Caller.count, Caller.returned]

end Writes

end CacheLab
