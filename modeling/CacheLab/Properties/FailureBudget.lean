import CacheLab.System.Failures

/-!
# Failing writes are paid for

`SlowDictBackend.fail_next(n)` makes the next `n` writes on the source raise, whichever write comes next. The cache
runs over such a backend, with failures injected at any moment.

* Every injected failure that was used up shows in the statistics, and nothing else does, but for the retries that
  a full queue refused (`injected_failures_are_accounted_for`).
* A flush job is given up only when all its tries failed, so `write_back_retry_count + 1` failures are needed to
  lose one. Up to `write_back_retry_count` failures lose nothing, and `close` does not raise
  (`few_failures_lose_nothing`).
-/

set_option linter.unusedSectionVars false

namespace CacheLab

variable {α V T : Type} [DecidableEq α] [LinearOrder T] [Zero T] [Add T] [Sub T]

variable {cfg : AcceptedConfig T} {hash : Key α → ℕ}

/-! ### The books of a run -/

/-- The failed writes that the threads have not entered yet. -/
def System.owed (s : System α V cfg) : ℕ := (s.threads.map Thread.owed).sum

/-- The tries that the outstanding jobs have used. -/
def System.used (s : System α V cfg) : ℕ :=
  s.shared.queue.used cfg + (s.threads.map (Thread.used cfg)).sum

/-- The retries that a full queue refuses in a step. -/
def System.refused (s : System α V cfg) : Label α V T → ℕ
  | .run i _ => ((s.threads[i]?).map (Thread.refused s.shared)).getD 0
  | _ => 0

/-- The retries that a full queue refuses in a step of a cache with its backend. -/
def Backed.refused (b : Backed α V cfg) : BackedLabel α V T → ℕ
  | .cache l => b.cache.refused l
  | .failNext _ => 0

/-- The retries that a full queue refuses in a run. -/
def refusedRetries (hash : Key α → ℕ) (b : Backed α V cfg) (ls : List (BackedLabel α V T)) : ℕ :=
  Transition.tally (backedStep cfg hash) Backed.refused b ls

/-- **The books are right** after `n` failures were injected and `r` retries were refused. -/
structure Budgeted (hash : Key α → ℕ) (n r : ℕ) (b : Backed α V cfg) : Prop where
  base : Base hash b.cache
  /-- The backend holds what the source of the model holds. -/
  data : b.backend.data = b.cache.shared.source
  left : b.backend.failuresRemaining ≤ n
  entered : b.cache.shared.runtime.writeBackRetries + b.cache.shared.runtime.flushFailures + b.cache.owed +
    b.backend.failuresRemaining ≤ n + r
  covered : cfg.writeMode ≠ .writeThrough → n ≤ b.cache.shared.runtime.writeBackRetries +
    b.cache.shared.runtime.flushFailures + b.cache.owed + b.backend.failuresRemaining
  paid : b.cache.used + (cfg.writeBackRetryCount + 1) * b.cache.shared.runtime.flushFailures +
    b.backend.failuresRemaining ≤ n + cfg.writeBackRetryCount * r
  refused_eq : cfg.queueSize = 0 → r = 0

/-- The books are right at the start. -/
theorem budgeted_initial (cfg : AcceptedConfig T) (hash : Key α → ℕ) (now : T) (src : Source α V) :
    Budgeted hash 0 0 (backedInitial cfg now src) where
  base := base_initial cfg hash now src
  data := rfl
  left := le_rfl
  entered := le_rfl
  covered _ := le_rfl
  paid := by simp [backedInitial, initial, System.used, CacheJobQueue.used, CacheJobQueue.tickets, CacheJobQueue.queued]
  refused_eq _ := rfl

section Step

variable {s s' : System α V cfg} {l : Label α V T} {n r : ℕ} {b b' : Backed α V cfg}

/-- A failed write of a flush job is a write that raised; in the other modes than write-through there are no others. -/
theorem Thread.flushFails_le (s : Shared α V cfg) {c : Choice α V} {ok : Bool} (hok : ∀ k, c.ok k = ok)
    (th : Thread α V T) :
    th.flushFails c ≤ (!ok && !(th.sourceCalls s).isEmpty).toNat ∧
      (cfg.writeMode ≠ .writeThrough → (!ok && !(th.sourceCalls s).isEmpty).toNat ≤ th.flushFails c) := by
  have hnone : ∀ calls : List (Key α × WriteOp V), (cfg.writeMode ≠ .writeThrough → calls = []) →
      0 ≤ (!ok && !calls.isEmpty).toNat ∧
        (cfg.writeMode ≠ .writeThrough → (!ok && !calls.isEmpty).toNat ≤ 0) := by
    intro calls hcalls
    refine ⟨Nat.zero_le _, ?_⟩
    intro hmode
    rw [hcalls hmode]
    cases ok <;> exact le_rfl
  have hflush : ∀ t : Ticket α V, (if c.ok t.job.key then 0 else 1) = (!ok && true).toNat := by
    intro t
    rw [hok]
    cases ok <;> rfl
  cases th with
  | running op caller =>
      cases op with
      | put key value ttl => exact hnone _ fun hmode => if_neg hmode
      | delete key => exact hnone _ fun hmode => if_neg hmode
      | _ => exact hnone _ fun _ => rfl
  | clearing i ts =>
      refine hnone _ ?_
      intro hmode
      simp [Thread.sourceCalls, hmode]
  | checked t => exact ⟨(hflush t).le, fun _ => (hflush t).ge⟩
  | syncTry i t left rest failed => exact ⟨(hflush t).le, fun _ => (hflush t).ge⟩
  | _ => exact hnone _ fun _ => rfl

/-- A step in which no thread moves. -/
theorem Budgeted.still (h : Budgeted hash n r b) (hbase : Base hash s')
    (hsource : s'.shared.source = b.cache.shared.source) (hruntime : s'.shared.runtime = b.cache.shared.runtime)
    (hused : s'.shared.queue.used cfg = b.cache.shared.queue.used cfg)
    {new : List (Thread α V T)} (hthreads : s'.threads = b.cache.threads ++ new) (hnew : ∀ th ∈ new, th.Fresh) :
    Budgeted hash n r ⟨s', b.backend⟩ := by
  have howed : s'.owed = b.cache.owed := by
    unfold System.owed
    rw [hthreads, List.map_append, List.sum_append, Nat.add_eq_left]
    apply List.sum_eq_zero
    intro m hm
    obtain ⟨th, hth, rfl⟩ := List.mem_map.mp hm
    cases hnew th hth <;> rfl
  have hused' : s'.used = b.cache.used := by
    unfold System.used
    rw [hused, hthreads, List.map_append, List.sum_append, Nat.add_right_inj, Nat.add_eq_left]
    apply List.sum_eq_zero
    intro m hm
    obtain ⟨th, hth, rfl⟩ := List.mem_map.mp hm
    cases hnew th hth <;> rfl
  refine ⟨hbase, h.data.trans hsource.symm, h.left, ?_, ?_, ?_, h.refused_eq⟩
  · rw [hruntime, howed]
    exact h.entered
  · rw [hruntime, howed]
    exact h.covered
  · rw [hruntime, hused']
    exact h.paid

/-- A step in which a thread moves. -/
theorem Budgeted.move (h : Budgeted hash n r b) {i : ℕ} {c : Choice α V} {th th' : Thread α V T}
    (hok : ∀ k, c.ok k = b.backend.ok) (hi : b.cache.threads[i]? = some th) (hbase : Base hash s')
    (hdraws : Draws b.cache.shared c th s'.shared th') (hset : s'.threads = b.cache.threads.set i th') :
    Budgeted hash n (r + th.refused b.cache.shared)
      ⟨s', (b.backend.callAll (th.sourceCalls b.cache.shared)).2⟩ := by
  obtain ⟨owed, howed, howed'⟩ := Transition.sum_map_set Thread.owed hi
  obtain ⟨used, hused, hused'⟩ := Transition.sum_map_set (Thread.used cfg) hi
  obtain ⟨hfails, hfails'⟩ := Thread.flushFails_le b.cache.shared hok th
  have hraised := b.backend.failures_callAll (th.sourceCalls b.cache.shared)
  rw [b.backend.fst_callAll] at hraised
  refine ⟨hbase, ?_, ?_, ?_, ?_, ?_, ?_⟩
  · have hcok : c.ok = fun _ => b.backend.ok := funext hok
    rw [b.backend.data_callAll, h.data, hdraws.source, hcok]
  · exact (Nat.le_add_right _ _).trans (hraised.le.trans h.left)
  · have hold := h.entered
    have hstep := hdraws.entered
    simp only [System.owed, howed] at hold
    simp only [System.owed, hset, howed']
    omega
  · intro hmode
    have hold := h.covered hmode
    have hstep := hdraws.covered
    have hexact := hfails' hmode
    simp only [System.owed, howed] at hold
    simp only [System.owed, hset, howed']
    omega
  · have hold := h.paid
    have hstep := hdraws.paid
    simp only [System.used, hused] at hold
    simp only [System.used, hset, hused']
    rw [Nat.mul_add]
    omega
  · intro hsize
    rw [h.refused_eq hsize, th.refused_eq_zero _ hsize]

/-- **Every step keeps the books right.** -/
theorem Budgeted.step {l : BackedLabel α V T} (h : Budgeted hash n r b) (hs : backedStep cfg hash b l = some b') :
    Budgeted hash (n + l.injected) (r + b.refused l) b' := by
  cases l with
  | failNext count =>
      cases hs
      refine ⟨h.base, h.data, Nat.add_le_add_right h.left count, ?_, ?_, ?_, h.refused_eq⟩
      · have hold := h.entered
        show b.cache.shared.runtime.writeBackRetries + b.cache.shared.runtime.flushFailures + b.cache.owed +
          (b.backend.failuresRemaining + count) ≤ n + count + r
        omega
      · intro hmode
        have hold := h.covered hmode
        show n + count ≤ b.cache.shared.runtime.writeBackRetries + b.cache.shared.runtime.flushFailures +
          b.cache.owed + (b.backend.failuresRemaining + count)
        omega
      · have hold := h.paid
        show b.cache.used + (cfg.writeBackRetryCount + 1) * b.cache.shared.runtime.flushFailures +
          (b.backend.failuresRemaining + count) ≤ n + count + cfg.writeBackRetryCount * r
        omega
  | cache l =>
      obtain ⟨s', hs', rfl⟩ := Option.map_eq_some_iff.mp hs
      have hbase := h.base.step hs'
      have hnone : b.cache.threads = b.cache.threads ++ [] := (List.append_nil _).symm
      have hfresh : ∀ th ∈ ([] : List (Thread α V T)), th.Fresh := List.forall_mem_nil _
      show Budgeted hash n (r + b.cache.refused l) _
      cases l with
      | tick now =>
          simp only [Label.over, CacheLab.step] at hs'
          split_ifs at hs'
          cases hs'
          exact h.still hbase rfl rfl rfl hnone hfresh
      | start =>
          simp only [Label.over, CacheLab.step] at hs'
          split at hs' <;> cases hs'
          · refine h.still hbase rfl rfl rfl rfl ?_
            intro th hth
            rw [List.eq_of_mem_replicate hth]
            exact .idle
          · exact h
      | call op =>
          cases hs'
          refine h.still hbase rfl rfl rfl rfl ?_
          intro th hth
          rw [List.mem_singleton.mp hth]
          exact .entering op
      | schedule i =>
          simp only [Label.over, CacheLab.step] at hs'
          split_ifs at hs'
          cases hs'
          obtain ⟨hcalm, hused⟩ := calm_putNowait b.cache.shared (rfl : (Job.expireShard i : Job α V T).tickets = [])
          exact h.still hbase hcalm.source_eq rfl hused hnone hfresh
      | run i c =>
          simp only [Label.over, CacheLab.step, Option.bind_eq_some_iff, Option.map_eq_some_iff] at hs'
          obtain ⟨th, hi, ⟨sh, th'⟩, hr, rfl⟩ := hs'
          have hcalls : b.cache.sourceCalls (.run i c) = th.sourceCalls b.cache.shared := by
            simp [System.sourceCalls, hi]
          have hrefused : b.cache.refused (.run i c) = th.refused b.cache.shared := by
            simp [System.refused, hi]
          rw [hcalls, hrefused]
          exact h.move (fun _ => rfl) hi hbase (threadStep_draws h.base.shards hr) rfl

end Step

/-! ### A `close` that finds nothing lost -/

/-- A thread inside `close` that has given up no job and has not timed out, or a `close` that returned normally. -/
def Thread.Clear : Thread α V T → Prop
  | .entering (.close _) _ => True
  | .closeCollect _ => True
  | .closeEnqueue _ _ => True
  | .closeRelease _ _ => True
  | .closeJoin => True
  | .syncCollect _ gaveUp => gaveUp = false
  | .syncNext _ _ gaveUp => gaveUp = false
  | .syncTry _ _ _ _ gaveUp => gaveUp = false
  | .syncClean _ _ _ gaveUp => gaveUp = false
  | .syncSettle _ _ _ _ gaveUp => gaveUp = false
  | .closeStop gaveUp => gaveUp = false
  | .closeDrain gaveUp => gaveUp = false
  | .finished result => result = .done
  | _ => False

/-- The step is no wait of the thread `i` that gives up. -/
def BackedLabel.patient (i : ℕ) : BackedLabel α V T → Bool
  | .cache (.run j c) => j != i || !c.timeout
  | _ => true

section Close

variable {s s' : Shared α V cfg} {c : Choice α V} {th th' : Thread α V T}

theorem closeNext_clear (i : ℕ) : (closeNext cfg i : Thread α V T).Clear := by
  unfold closeNext
  split_ifs <;> trivial

/-- A `close` under way finds something lost only when a job is given up. -/
theorem Thread.Clear.step (hsize : cfg.queueSize = 0) (h : th.Clear) (hc : c.timeout = false)
    (hs : threadStep hash s c th = some (s', th')) :
    th'.Clear ∨ s.runtime.flushFailures < s'.runtime.flushFailures := by
  rcases threadStep_cases hs with hstep | hstep | hstep
  · cases th with
    | entering op caller =>
        cases op with
        | close flush =>
            simp only [clientStep] at hstep
            split at hstep
            · cases hstep
            · cases hstep
              exact .inl rfl
            · split_ifs at hstep <;> cases hstep
              · exact .inl trivial
              · exact .inl rfl
        | _ => exact absurd h id
    | _ => first | exact absurd h id | cases hstep
  · cases th with
    | _ => first | exact absurd h id | cases hstep
  · cases th with
    | closeCollect i =>
        simp only [closeStep] at hstep
        split_ifs at hstep
        cases hstep
        exact .inl trivial
    | closeEnqueue i ts =>
        cases ts with
        | nil =>
            cases hstep
            exact .inl (closeNext_clear i)
        | cons t ts =>
            simp only [closeStep, s.rejects_of_unbounded hsize, Bool.false_eq_true, if_false] at hstep
            split_ifs at hstep <;> cases hstep <;> exact .inl trivial
    | closeRelease i ts =>
        cases ts with
        | nil =>
            cases hstep
            exact .inl (closeNext_clear i)
        | cons t ts =>
            obtain ⟨s₁, -, heq⟩ := Option.map_eq_some_iff.mp hstep
            cases heq
            exact .inl trivial
    | closeJoin =>
        simp only [closeStep, hc, Bool.false_eq_true, if_false] at hstep
        split_ifs at hstep <;> cases hstep <;> exact .inl rfl
    | syncCollect i failed =>
        obtain rfl : failed = false := h
        simp only [closeStep] at hstep
        split_ifs at hstep <;> cases hstep <;> exact .inl rfl
    | syncNext i ts failed =>
        obtain rfl : failed = false := h
        cases ts with
        | nil =>
            cases hstep
            exact .inl rfl
        | cons t ts =>
            simp only [closeStep] at hstep
            split_ifs at hstep <;> cases hstep <;> exact .inl rfl
    | syncTry i t left ts failed =>
        obtain rfl : failed = false := h
        simp only [closeStep] at hstep
        split_ifs at hstep
        · cases hop : t.job.operation with
          | put v =>
              rw [hop] at hstep
              cases hstep
              exact .inl rfl
          | delete =>
              rw [hop] at hstep
              cases hstep
              exact .inl rfl
        · cases left with
          | zero =>
              cases hstep
              exact .inl rfl
          | succ left =>
              cases hstep
              exact .inl rfl
    | syncClean i t ts failed =>
        obtain rfl : failed = false := h
        obtain ⟨s₁, -, heq⟩ := Option.map_eq_some_iff.mp hstep
        cases heq
        exact .inl rfl
    | syncSettle i t success ts failed =>
        obtain rfl : failed = false := h
        obtain ⟨s₁, hs₁, heq⟩ := Option.map_eq_some_iff.mp hstep
        obtain ⟨hlt, rfl⟩ := Shared.onShard_eq_some.mp hs₁
        cases success with
        | true =>
            cases heq
            exact .inl rfl
        | false =>
            cases heq
            exact .inr (Nat.lt_succ_self _)
    | closeStop failed =>
        obtain rfl : failed = false := h
        simp only [closeStep] at hstep
        split_ifs at hstep <;> cases hstep <;> exact .inl rfl
    | closeDrain failed =>
        obtain rfl : failed = false := h
        cases hstep
        exact .inl rfl
    | _ => first | exact absurd h id | cases hstep

end Close

/-! ### The theorems -/

section Run

variable {now : T} {src : Source α V} {n r : ℕ} {b b' : Backed α V cfg} {ls ls' : List (BackedLabel α V T)}

@[simp] theorem injected_append : injected (ls ++ ls') = injected ls + injected ls' := by
  simp [injected]

@[simp] theorem injected_cons (l : BackedLabel α V T) : injected (l :: ls) = l.injected + injected ls := by
  simp [injected]

/-- The books are right along a run. -/
theorem Budgeted.exec (h : Budgeted hash n r b) (hrun : backedExec cfg hash b ls = some b') :
    Budgeted hash (n + injected ls) (r + refusedRetries hash b ls) b' := by
  induction ls generalizing n r b with
  | nil =>
      cases hrun
      exact h
  | cons l ls ih =>
      obtain ⟨b₁, hl, hrun⟩ := Transition.run_cons_eq_some.mp hrun
      rw [injected_cons, refusedRetries, Transition.tally_cons hl, ← Nat.add_assoc, ← Nat.add_assoc]
      exact ih (h.step hl) hrun

/-- Few failures: no job was given up. -/
theorem Budgeted.flushFailures_eq (h : Budgeted hash n r b) (hsize : cfg.queueSize = 0)
    (hn : n ≤ cfg.writeBackRetryCount) : b.cache.shared.runtime.flushFailures = 0 := by
  have hpaid := h.paid
  rw [h.refused_eq hsize, Nat.mul_zero] at hpaid
  by_contra hne
  have hone : cfg.writeBackRetryCount + 1 ≤
      (cfg.writeBackRetryCount + 1) * b.cache.shared.runtime.flushFailures :=
    Nat.le_mul_of_pos_right _ (Nat.pos_of_ne_zero hne)
  omega

/-- **Injected failures are accounted for.** In any run over a backend that fails on demand, the backend holds what
the source of the model holds, and: retries, lost flush jobs and the failed writes that are still to be entered are
at most the failures used up so far, except that a retry refused by a full queue counts twice; in the modes without
writes through the cache they are exactly that or more; and each lost job has used up `write_back_retry_count + 1`
failures, if its retry was not refused. -/
theorem injected_failures_are_accounted_for (h : backedExec cfg hash (backedInitial cfg now src) ls = some b) :
    b.backend.data = b.cache.shared.source ∧ b.backend.failuresRemaining ≤ injected ls ∧
      b.cache.shared.runtime.writeBackRetries + b.cache.shared.runtime.flushFailures + b.cache.owed ≤
        (injected ls - b.backend.failuresRemaining) + refusedRetries hash (backedInitial cfg now src) ls ∧
      (cfg.writeMode ≠ .writeThrough → injected ls - b.backend.failuresRemaining ≤
        b.cache.shared.runtime.writeBackRetries + b.cache.shared.runtime.flushFailures + b.cache.owed) ∧
      (cfg.writeBackRetryCount + 1) * b.cache.shared.runtime.flushFailures ≤
        (injected ls - b.backend.failuresRemaining) +
          cfg.writeBackRetryCount * refusedRetries hash (backedInitial cfg now src) ls := by
  have hbooks := (budgeted_initial cfg hash now src).exec h
  rw [Nat.zero_add, Nat.zero_add] at hbooks
  have hleft := hbooks.left
  refine ⟨hbooks.data, hleft, ?_, ?_, ?_⟩
  · have := hbooks.entered
    omega
  · intro hmode
    have := hbooks.covered hmode
    omega
  · have := hbooks.paid
    omega

/-- With no retries: a put, whose flush fails, and a failure that is left. -/
def failedFlush : List (BackedLabel ℕ ℕ ℕ) :=
  [BackedLabel.cache .start, .failNext 2, .cache (.call (.put (some 1) 2 .unset))] ++
    List.replicate 3 (BackedLabel.cache (.run 1 {})) ++ List.replicate 5 (BackedLabel.cache (.run 0 {}))

/-- One of the two failures was used up, and a flush job was lost for it. -/
theorem injected_failures_are_accounted_for_failedFlush :
    ∃ b : Backed ℕ ℕ (oneEntry .lru .writeBack 1 0 0),
      backedExec _ (fun _ => 0) (backedInitial _ 0 .empty) failedFlush = some b ∧ injected failedFlush = 2 ∧
      b.backend.failuresRemaining = 1 ∧ b.cache.shared.runtime.flushFailures = 1 ∧ b.cache.owed = 0 ∧
      (0 + 1) * b.cache.shared.runtime.flushFailures ≤ (2 - b.backend.failuresRemaining) + 0 := by
  have heval : ((backedExec (oneEntry .lru .writeBack 1 0 0) (fun _ => 0) (backedInitial _ 0 .empty)
      failedFlush).map fun b : Backed ℕ ℕ (oneEntry .lru .writeBack 1 0 0) =>
        decide (b.backend.failuresRemaining = 1 ∧ b.cache.shared.runtime.flushFailures = 1 ∧
          b.cache.owed = 0)) = some true := by
    decide +kernel
  obtain ⟨b, hb, heval⟩ := Option.map_eq_some_iff.mp heval
  obtain ⟨hleft, hlost, howed⟩ := of_decide_eq_true heval
  obtain ⟨-, -, -, -, hpaid⟩ := injected_failures_are_accounted_for hb
  refine ⟨b, hb, rfl, hleft, hlost, howed, ?_⟩
  exact hpaid.trans (Nat.add_le_add_left (Nat.zero_mul _).le _)

/-- A `close` under way stays clear as long as the failures are few. -/
theorem Thread.Clear.exec (hsize : cfg.queueSize = 0) (h : Budgeted hash n r b)
    (hn : n + injected ls ≤ cfg.writeBackRetryCount) {i : ℕ} (hls : ∀ l ∈ ls, l.patient i = true)
    (hrun : backedExec cfg hash b ls = some b') {th : Thread α V T}
    (hi : b.cache.threads[i]? = some th) (hclear : th.Clear) :
    ∃ th', b'.cache.threads[i]? = some th' ∧ th'.Clear := by
  induction ls generalizing n r b th with
  | nil =>
      cases hrun
      exact ⟨th, hi, hclear⟩
  | cons l ls ih =>
      obtain ⟨b₁, hl, hrun⟩ := Transition.run_cons_eq_some.mp hrun
      rw [injected_cons, ← Nat.add_assoc] at hn
      have hnow := h.step hl
      have hrest := fun l' hl' => hls l' (List.mem_cons_of_mem l hl')
      suffices hkept : ∃ th', b₁.cache.threads[i]? = some th' ∧ th'.Clear by
        obtain ⟨th', hi', hclear'⟩ := hkept
        exact ih hnow hn hrest hrun hi' hclear'
      cases l with
      | failNext count =>
          cases hl
          exact ⟨th, hi, hclear⟩
      | cache l =>
          obtain ⟨s', hs', rfl⟩ := Option.map_eq_some_iff.mp hl
          cases l with
          | tick now =>
              simp only [Label.over, CacheLab.step] at hs'
              split_ifs at hs'
              cases hs'
              exact ⟨th, hi, hclear⟩
          | start =>
              simp only [Label.over, CacheLab.step] at hs'
              split at hs' <;> cases hs'
              · exact ⟨th, by rw [List.getElem?_append_left (List.getElem?_eq_some_iff.mp hi).1, hi], hclear⟩
              · exact ⟨th, hi, hclear⟩
          | call op =>
              cases hs'
              exact ⟨th, by rw [List.getElem?_append_left (List.getElem?_eq_some_iff.mp hi).1, hi], hclear⟩
          | schedule j =>
              simp only [Label.over, CacheLab.step] at hs'
              split_ifs at hs'
              cases hs'
              exact ⟨th, hi, hclear⟩
          | run j c =>
              simp only [Label.over, CacheLab.step, Option.bind_eq_some_iff, Option.map_eq_some_iff] at hs'
              obtain ⟨moved, hj, ⟨sh, th'⟩, hr, rfl⟩ := hs'
              rcases eq_or_ne j i with rfl | hne
              · obtain rfl : moved = th := Option.some.inj (hj.symm.trans hi)
                have hc : (j != j || !c.timeout) = true := hls _ List.mem_cons_self
                refine ⟨th', List.getElem?_set_self (List.getElem?_eq_some_iff.mp hi).1, ?_⟩
                have hstep := hclear.step hsize (c := { c with ok := fun _ => b.backend.ok }) (by simpa using hc) hr
                rcases hstep with hkept | hgrew
                · exact hkept
                · have hfew : sh.runtime.flushFailures = 0 :=
                    hnow.flushFailures_eq hsize (le_trans (Nat.le_add_right _ _) hn)
                  omega
              · exact ⟨th, by simpa [List.getElem?_set_ne hne] using hi, hclear⟩

/-- **Few failures lose nothing.** The queue is unbounded and the run injects at most `write_back_retry_count`
failures, wherever it injects them. Then no flush job is given up, and whichever `close` of the run is over, and
whose wait for the workers did not time out, returned normally. -/
theorem few_failures_lose_nothing (hsize : cfg.queueSize = 0) {before after : List (BackedLabel α V T)}
    {flush : Option Bool} (hbefore : backedExec cfg hash (backedInitial cfg now src) before = some b)
    (hafter : backedExec cfg hash b (.cache (.call (.close flush)) :: after) = some b')
    (hfew : injected (before ++ after) ≤ cfg.writeBackRetryCount)
    (hpatient : ∀ l ∈ after, l.patient b.cache.threads.length = true) :
    b'.cache.shared.runtime.flushFailures = 0 ∧
      ∀ result, b'.cache.threads[b.cache.threads.length]? = some (Thread.finished result) → result = .done := by
  have hbooks := (budgeted_initial cfg hash now src).exec hbefore
  obtain ⟨b₁, hcall, hrun⟩ := Transition.run_cons_eq_some.mp hafter
  have hnow := hbooks.step hcall
  rw [injected_append] at hfew
  have hn : 0 + injected before + 0 + injected after ≤ cfg.writeBackRetryCount := by omega
  refine ⟨(hnow.exec hrun).flushFailures_eq hsize hn, ?_⟩
  intro result hresult
  cases hcall
  obtain ⟨th, hth, hclear⟩ := Thread.Clear.exec hsize hnow hn hpatient hrun
    (List.getElem?_concat_length) (show (Thread.entering (.close flush) _).Clear from trivial)
  cases hth.symm.trans hresult
  exact hclear

end Run

/-- A put in write-back mode over a backend whose next write fails. -/
def putOverFailure : List (BackedLabel ℕ ℕ ℕ) :=
  [BackedLabel.cache .start, .failNext 1, .cache (.call (.put (some 1) 2 .unset))] ++ List.replicate 3 (BackedLabel.cache (.run 1 {}))

/-- `close` queues another flush, waits until the worker retried, and returns. -/
def closeAfterRetry : List (BackedLabel ℕ ℕ ℕ) :=
  List.replicate 4 (BackedLabel.cache (.run 2 {})) ++ List.replicate 15 (BackedLabel.cache (.run 0 {})) ++
    List.replicate 6 (BackedLabel.cache (.run 2 {}))

/-- One failure against one retry: the value is in the source, and `close` is over. -/
theorem few_failures_lose_nothing_putOverFailure :
    ∃ b b' : Backed ℕ ℕ (oneEntry .lru .writeBack 1 0 1),
      backedExec _ (fun _ => 0) (backedInitial _ 0 .empty) putOverFailure = some b ∧
      backedExec _ (fun _ => 0) b (.cache (.call (.close (some true))) :: closeAfterRetry) = some b' ∧
      b'.cache.shared.runtime.writeBackRetries = 1 ∧ b'.backend.data.get? (some 1) = some 2 ∧
      b'.cache.threads[2]? = some (Thread.finished .done) ∧ b'.cache.shared.runtime.flushFailures = 0 ∧
      ∀ result, b'.cache.threads[b.cache.threads.length]? = some (Thread.finished result) → result = .done := by
  have heval : ((backedExec (oneEntry .lru .writeBack 1 0 1) (fun _ => 0) (backedInitial _ 0 .empty)
      putOverFailure).bind fun b : Backed ℕ ℕ (oneEntry .lru .writeBack 1 0 1) =>
        (backedExec _ (fun _ => 0) b (.cache (.call (.close (some true))) :: closeAfterRetry)).map fun b' =>
          decide (b'.cache.shared.runtime.writeBackRetries = 1 ∧
            b'.backend.data.get? (some 1) = some 2 ∧ b'.cache.threads[2]? = some (Thread.finished .done) ∧
            b.cache.threads.length = 2)) = some true := by
    decide +kernel
  obtain ⟨b, hb, heval⟩ := Option.bind_eq_some_iff.mp heval
  obtain ⟨b', hb', heval⟩ := Option.map_eq_some_iff.mp heval
  obtain ⟨hretries, hsource, hover, hlength⟩ := of_decide_eq_true heval
  refine ⟨b, b', hb, hb', hretries, hsource, hover, few_failures_lose_nothing rfl hb hb' (by decide) ?_⟩
  rw [hlength]
  decide

end CacheLab
