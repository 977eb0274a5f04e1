import CacheLab.Lib.Trace
import CacheLab.System.Base
import CacheLab.System.Writes

/-!
# The books on the flush jobs

A write in write-back mode leaves a flush job; the queue accepts it or not; a worker tries it on the source,
again and again after failures, until it is applied, found stale, or given up. The notes `Thread.notes` record
these events, and `Books` says how a step enters them:

* a job that is accepted goes into the queue, and leaves the queue and the hands of the workers with the
  note of its outcome, or that it was lost (`live`);
* a job is known by the position of its write, and a new job has a new position (`fresh`);
* a try uses up one of the tries left to a job (`fresh`, the second part).
-/

set_option linter.unusedSectionVars false

namespace CacheLab

variable {α V T : Type} [DecidableEq α] [LinearOrder T] [Zero T] [Add T] [Sub T]

open WriteBehind

variable {cfg : AcceptedConfig T} {hash : Key α → ℕ}

/-! ### Notes -/

/-- An event in the life of a flush job. -/
inductive FlushNote (α V : Type)
  /-- The queue accepted the job of a write. -/
  | accepted (ticket : Ticket α V)
  /-- A worker called the source. -/
  | tried (ticket : Ticket α V)
  | applied (ticket : Ticket α V)
  /-- A worker found the job stale. -/
  | skipped (ticket : Ticket α V)
  /-- A worker gave the job up. -/
  | failed (ticket : Ticket α V)
  /-- Enqueuing the retry of the job raised. -/
  | lost (ticket : Ticket α V)
  deriving DecidableEq

namespace FlushNote

/-- The note is about the job of the write at position `o`, and says that it was accepted. -/
def accepts (o : ℕ) : FlushNote α V → Bool
  | accepted t => decide (t.origin = o)
  | _ => false

/-- The note is about a try of the job of the write at position `o`. -/
def tries (o : ℕ) : FlushNote α V → Bool
  | tried t => decide (t.origin = o)
  | _ => false

/-- The note is about the outcome of the job of the write at position `o`. -/
def settles (o : ℕ) : FlushNote α V → Bool
  | applied t => decide (t.origin = o)
  | skipped t => decide (t.origin = o)
  | failed t => decide (t.origin = o)
  | _ => false

/-- The note says that the job of the write at position `o` was lost. -/
def loses (o : ℕ) : FlushNote α V → Bool
  | lost t => decide (t.origin = o)
  | _ => false

/-- The job was applied. -/
def isApplied : FlushNote α V → Bool
  | applied _ => true
  | _ => false

/-- The job was skipped. -/
def isSkipped : FlushNote α V → Bool
  | skipped _ => true
  | _ => false

/-- The job was given up. -/
def isFailed : FlushNote α V → Bool
  | failed _ => true
  | _ => false

/-- The job was lost. -/
def isLost : FlushNote α V → Bool
  | lost _ => true
  | _ => false

end FlushNote

/-- Enqueuing the retry of a failed job raises `ValueError` in the next step of the thread. -/
def Thread.retryRaises (s : Shared α V cfg) (c : Choice α V) : Thread α V T → Bool
  | .failed t => decide (0 < t.job.retriesLeft) && s.rejects c t.retry
  | _ => false

/-- Enqueuing the retry of a failed job raises `ValueError` in the step. -/
def retryRaises (s : System α V cfg) : Label α V T → Bool
  | .run i c => s.threads[i]?.any fun th => th.retryRaises s.shared c
  | _ => false

/-- With an unbounded queue no retry is refused. -/
theorem retryRaises_of_unbounded (hsize : cfg.queueSize = 0) (s : System α V cfg) (l : Label α V T) :
    retryRaises s l = false := by
  cases l with
  | run i c =>
      refine (Option.any_eq_false _ _).mpr fun th hi => ?_
      unfold Thread.retryRaises
      split <;> simp [Shared.rejects_of_unbounded hsize]
  | _ => rfl

/-- The notes of the next step of a thread. -/
def Thread.notes (s : Shared α V cfg) (c : Choice α V) : Thread α V T → List (FlushNote α V)
  | .enqueuing (t :: _) _ => if s.rejects c t ∨ s.queue.full cfg.queueSize then [] else [.accepted t]
  | .handling (.flushWriteBack t) =>
      if h : t.job.shardIndex < cfg.shardCount then
        if (s.shards ⟨t.job.shardIndex, h⟩).isStale t.job then [.skipped t] else []
      else []
  | .checked t => if c.ok t.job.key then [.tried t, .applied t] else [.tried t]
  | .failed t =>
      if 0 < t.job.retriesLeft then
        if s.rejects c t.retry then [.lost t] else if s.queue.full cfg.queueSize then [.failed t] else []
      else [.failed t]
  | _ => []

/-- The notes of a step. -/
def flushNotes (s : System α V cfg) (l : Label α V T) (_ : System α V cfg) : List (FlushNote α V) :=
  match l with
  | .run i c => ((s.threads[i]?).map (Thread.notes s.shared c)).getD []
  | _ => []

/-- A job is noted as lost just when enqueuing its retry raises. -/
theorem isLost_notes_iff (s : Shared α V cfg) (c : Choice α V) (th : Thread α V T) :
    (∀ n ∈ th.notes s c, n.isLost = false) ↔ th.retryRaises s c = false := by
  unfold Thread.notes Thread.retryRaises
  split
  · split_ifs <;> simp [FlushNote.isLost]
  · split_ifs <;> simp [FlushNote.isLost]
  · split_ifs <;> simp [FlushNote.isLost]
  · split_ifs <;> simp [FlushNote.isLost, *]
  · split <;> simp_all

/-- See `isLost_notes_iff`. -/
theorem isLost_flushNotes_iff (s : System α V cfg) (l : Label α V T) (s' : System α V cfg) :
    (∀ n ∈ flushNotes s l s', n.isLost = false) ↔ retryRaises s l = false := by
  cases l with
  | run i c =>
      cases hi : s.threads[i]? with
      | none => simp [flushNotes, retryRaises, hi]
      | some th => simpa [flushNotes, retryRaises, hi] using isLost_notes_iff s.shared c th
  | _ => exact iff_of_true (fun n hn => by cases hn) rfl

/-- The notes of a run. -/
def flushTrace (cfg : AcceptedConfig T) (hash : Key α → ℕ) (s : System α V cfg) (ls : List (Label α V T)) :
    List (FlushNote α V) :=
  Transition.observe (step cfg hash) flushNotes s ls

/-! ### Jobs in the hands of threads -/

/-- The number of jobs of the write at position `o`. -/
def tally (o : ℕ) (ts : List (Ticket α V)) : ℕ := ts.countP fun t => decide (t.origin = o)

/-- The tries left to the jobs of the write at position `o`. -/
def budget (o : ℕ) (ts : List (Ticket α V)) : ℕ :=
  (ts.map fun t => if t.origin = o then t.job.retriesLeft + 1 else 0).sum

/-- The jobs of a thread that no queue accepted yet. -/
def Thread.offered : Thread α V T → List (Ticket α V)
  | .clearing _ ts => ts
  | .enqueuing ts _ => ts
  | _ => []

/-- The accepted job of a thread that has no outcome yet. -/
def Thread.inHand : Thread α V T → List (Ticket α V)
  | .handling (.flushWriteBack t) => [t]
  | .checked t => [t]
  | .failed t => [t]
  | _ => []

/-- The tries left to the jobs of a thread; a failed job has used one of them. -/
def Thread.budget (o : ℕ) : Thread α V T → ℕ
  | .failed t => if t.origin = o then t.job.retriesLeft else 0
  | th => CacheLab.budget o (th.offered ++ th.inHand)

section Counting

variable {o : ℕ} {ts us : List (Ticket α V)}

@[simp] theorem tally_nil : tally o ([] : List (Ticket α V)) = 0 := rfl

@[simp] theorem tally_cons (t : Ticket α V) :
    tally o (t :: ts) = tally o ts + if t.origin = o then 1 else 0 := by
  simp [tally, List.countP_cons]

@[simp] theorem tally_append : tally o (ts ++ us) = tally o ts + tally o us := by simp [tally]

@[simp] theorem budget_nil : budget o ([] : List (Ticket α V)) = 0 := rfl

@[simp] theorem budget_cons (t : Ticket α V) :
    budget o (t :: ts) = (if t.origin = o then t.job.retriesLeft + 1 else 0) + budget o ts := by
  simp [budget]

@[simp] theorem budget_append : budget o (ts ++ us) = budget o ts + budget o us := by simp [budget]

/-- The budget of jobs that all have the same number of retries left. -/
theorem budget_eq {n : ℕ} (h : ∀ t ∈ ts, t.job.retriesLeft = n) : budget o ts = tally o ts * (n + 1) := by
  induction ts with
  | nil => simp
  | cons t ts ih =>
      rw [budget_cons, tally_cons, ih fun t' ht' => h t' (List.mem_cons_of_mem t ht'),
        h t List.mem_cons_self]
      split_ifs
      · rw [Nat.add_mul, Nat.one_mul, Nat.add_comm]
      · simp

/-- The positions of the jobs of a section. -/
theorem map_origin_ticketsFrom (base : ℕ) (jobs : List (FlushWriteBack α V)) :
    (ticketsFrom base jobs).map Ticket.origin = List.range' base jobs.length := by
  refine List.ext_getElem (by simp [ticketsFrom]) fun n h₁ h₂ => ?_
  simp [ticketsFrom]

/-- A section makes at most one job for each position, counted from the one it began at. -/
theorem tally_ticketsFrom (o base : ℕ) (jobs : List (FlushWriteBack α V)) :
    tally o (ticketsFrom base jobs) ≤ 1 ∧
      (0 < tally o (ticketsFrom base jobs) → base ≤ o ∧ o < base + jobs.length) := by
  have hcount : tally o (ticketsFrom base jobs) = (List.range' base jobs.length).count o := by
    rw [← map_origin_ticketsFrom, List.count, List.countP_map, tally]
    refine List.countP_congr fun t _ => ?_
    simp
  have hnodup : (List.range' base jobs.length).Nodup := List.nodup_range'
  rw [hcount]
  refine ⟨List.nodup_iff_count_le_one.mp hnodup o, fun hpos => ?_⟩
  simpa using List.mem_range'_1.mp (List.count_pos_iff.mp hpos)

end Counting

/-! ### A step -/

/-- The events of the log that say that a job was applied. -/
def Event.isApplied : Event α V T → Bool
  | applied _ => true
  | _ => false

/-- **What a step does to the flush jobs**, with its notes `ns`. -/
structure Books (s : Shared α V cfg) (th : Thread α V T) (ns : List (FlushNote α V)) (s' : Shared α V cfg)
    (th' : Thread α V T) : Prop where
  grows : s.log.length ≤ s'.log.length
  live : ∀ o, tally o s'.queue.queued + tally o th'.inHand +
      (ns.countP (FlushNote.settles o) + ns.countP (FlushNote.loses o)) =
    tally o s.queue.queued + tally o th.inHand + ns.countP (FlushNote.accepts o)
  fresh : ∀ o, ∃ new ≤ 1, (0 < new → s.log.length ≤ o ∧ o < s'.log.length) ∧
    ns.countP (FlushNote.accepts o) + tally o th'.offered ≤ tally o th.offered + new ∧
    ns.countP (FlushNote.tries o) + budget o s'.queue.queued + th'.budget o ≤
      budget o s.queue.queued + th.budget o + new * (cfg.writeBackRetryCount + 1)
  failures : s'.runtime.flushFailures = s.runtime.flushFailures + ns.countP FlushNote.isFailed
  skips : s'.runtime.staleWriteBackJobsSkipped =
    s.runtime.staleWriteBackJobsSkipped + ns.countP FlushNote.isSkipped
  applied : s'.log.countP Event.isApplied = s.log.countP Event.isApplied + ns.countP FlushNote.isApplied

section Steps

variable {s s' : Shared α V cfg} {c : Choice α V} {th th' : Thread α V T}

/-- The parts of the shared state that the books are about are the same. -/
structure Unbooked (s s' : Shared α V cfg) : Prop where
  queued_eq : s'.queue.queued = s.queue.queued
  log_eq : s'.log = s.log
  failures_eq : s'.runtime.flushFailures = s.runtime.flushFailures
  skips_eq : s'.runtime.staleWriteBackJobsSkipped = s.runtime.staleWriteBackJobsSkipped

theorem Unbooked.refl (s : Shared α V cfg) : Unbooked s s := ⟨rfl, rfl, rfl, rfl⟩

/-- A caller that is told that its put is over. -/
theorem Caller.unbooked_count (caller : Caller α V T) (s : Shared α V cfg) (completed : Bool) :
    Unbooked s (caller.count s completed) := by
  cases caller with
  | client result => exact .refl s
  | preloader => cases completed <;> exact ⟨rfl, rfl, rfl, rfl⟩
  | leader key flight value => exact .refl s

/-- A step without a note, which leaves the jobs where they are. -/
theorem Books.of_unbooked (h : Unbooked s s') (hhand : th'.inHand = th.inHand)
    (hoffer : th'.offered = th.offered) (hbudget : ∀ o, th'.budget o = th.budget o) : Books s th [] s' th' where
  grows := by rw [h.log_eq]
  live o := by simp [h.queued_eq, hhand]
  fresh o := ⟨0, Nat.zero_le 1, fun hpos => absurd hpos (lt_irrefl 0), by simp [hoffer],
    by simp [h.queued_eq, hbudget]⟩
  failures := h.failures_eq
  skips := h.skips_eq
  applied := by rw [h.log_eq]; rfl

/-- The jobs of a thread that enqueues. -/
theorem enqueueOr_books (s : Shared α V cfg) (ts : List (Ticket α V)) (caller : Caller α V T) :
    Unbooked s (enqueueOr s ts caller).1 ∧ (enqueueOr s ts caller).2.inHand = [] ∧
      (enqueueOr s ts caller).2.offered = ts ∧
      ∀ o, (enqueueOr s ts caller).2.budget o = budget o ts := by
  cases ts with
  | nil =>
      refine ⟨caller.unbooked_count s true, ?_, ?_, fun o => ?_⟩
      · cases caller <;> rfl
      · cases caller <;> rfl
      · cases caller <;> rfl
  | cons t ts => exact ⟨.refl s, rfl, rfl, fun o => by simp [Thread.budget, Thread.offered, enqueueOr, Thread.inHand]⟩

/-- A caller that is told that its put is over holds no job. -/
theorem Caller.books_raised (caller : Caller α V T) (exn : Exn) :
    (caller.raised exn : Thread α V T).inHand = [] ∧ (caller.raised exn : Thread α V T).offered = [] ∧
      ∀ o, (caller.raised exn : Thread α V T).budget o = 0 := by
  cases caller with
  | client result => exact ⟨rfl, rfl, fun _ => rfl⟩
  | preloader => exact ⟨rfl, rfl, fun _ => rfl⟩
  | leader key flight value => cases exn <;> exact ⟨rfl, rfl, fun _ => rfl⟩

/-- The section of a write, which makes the jobs `jobs`. -/
theorem Books.of_write (jobs : List (FlushWriteBack α V)) (events : List (Event α V T))
    (hq : s'.queue = s.queue) (hrun : s'.runtime = s.runtime) (hlog : s'.log = events ++ s.log)
    (hevents : ∀ e ∈ events, e.isApplied = false) (hlength : jobs.length ≤ events.length)
    (hjobs : ∀ job ∈ jobs, job.retriesLeft = cfg.writeBackRetryCount) (hhand : th.inHand = [])
    (hhand' : th'.inHand = [])
    (hoffer : ∀ o, tally o th'.offered ≤ tally o th.offered + tally o (ticketsFrom s.log.length jobs))
    (hbudget : ∀ o, th'.budget o ≤ th.budget o + budget o (ticketsFrom s.log.length jobs)) :
    Books s th [] s' th' where
  grows := by simp [hlog]
  live o := by simp [hq, hhand, hhand']
  fresh o := by
    obtain ⟨hone, hnew⟩ := tally_ticketsFrom o s.log.length jobs
    refine ⟨tally o (ticketsFrom s.log.length jobs), hone, fun hpos => ?_, by simpa using hoffer o, ?_⟩
    · obtain ⟨hle, hlt⟩ := hnew hpos
      rw [hlog, List.length_append]
      omega
    · have hfull : budget o (ticketsFrom s.log.length jobs) =
          tally o (ticketsFrom s.log.length jobs) * (cfg.writeBackRetryCount + 1) :=
        budget_eq fun t ht => hjobs t.job (mem_ticketsFrom ht)
      have hthread := hbudget o
      rw [hq]
      simp only [List.countP_nil]
      omega
  failures := by rw [hrun]; rfl
  skips := by rw [hrun]; rfl
  applied := by
    have hnone : events.countP Event.isApplied = 0 :=
      List.countP_eq_zero.mpr fun e he => by simp [hevents e he]
    rw [hlog, List.countP_append, hnone]
    simp

/-- The same books after steps that are not entered. -/
theorem Books.trans_unbooked {s₁ : Shared α V cfg} {ns : List (FlushNote α V)} (h : Books s th ns s₁ th')
    (hs : Unbooked s₁ s') : Books s th ns s' th' where
  grows := by rw [hs.log_eq]; exact h.grows
  live o := by rw [hs.queued_eq]; exact h.live o
  fresh o := by rw [hs.queued_eq, hs.log_eq]; exact h.fresh o
  failures := hs.failures_eq.trans h.failures
  skips := hs.skips_eq.trans h.skips
  applied := by rw [hs.log_eq]; exact h.applied

/-- The books of a put. -/
theorem books_put (hs : ∀ i, ShardOk cfg hash i (s.shards i)) {key : Key α} {value : V} {ttl : Ttl T}
    {caller : Caller α V T}
    (h : clientStep hash s c (.running (.put key value ttl) caller) = some (s', th')) :
    Books s (.running (.put key value ttl) caller) [] s' th' := by
  simp only [clientStep] at h
  by_cases hraise : cfg.writeMode = .writeThrough ∧ c.ok key = false
  · rw [putSection_of_raised hash s key value ttl hraise] at h
    cases h
    obtain ⟨hhand, hoffer, hbudget⟩ := caller.books_raised .sourceFailure
    have hsame : Unbooked s (s.setShard (shardFor cfg hash key) ((s.home hash key).dropExpired key s.now)) :=
      ⟨rfl, rfl, rfl, rfl⟩
    exact (Books.of_unbooked hsame hhand hoffer hbudget).trans_unbooked (caller.unbooked_count _ false)
  · obtain ⟨hret, gone, hdone⟩ := putSection_of_returned hs key value ttl hraise
    simp only [hret] at h
    obtain ⟨hsame, hhand, hoffer, hbudget⟩ := enqueueOr_books (s.putSection hash key value ttl (c.ok key)).1
      (s.putSection hash key value ttl (c.ok key)).2.1 caller
    rw [Option.some.inj h] at hsame hhand hoffer hbudget
    refine (Books.of_write (CacheShard.putJobs cfg.toCacheConfig (s.home hash key) key value s.now) _
      hdone.queue_eq rfl hdone.log_eq (fun e he => ?_) ?_ (fun job hjob => ?_) rfl hhand (fun o => ?_)
      fun o => ?_).trans_unbooked hsame
    · rw [List.mem_reverse, List.mem_cons, List.mem_map] at he
      rcases he with rfl | ⟨k, -, rfl⟩ <;> rfl
    · unfold CacheShard.putJobs
      split_ifs <;> simp
    · unfold CacheShard.putJobs at hjob
      split_ifs at hjob
      · rw [List.mem_singleton.mp hjob]
      · cases hjob
    · rw [hoffer, hdone.tickets_eq]
      exact Nat.le_add_left _ _
    · rw [hbudget, hdone.tickets_eq]
      exact Nat.le_add_left _ _

/-- The books of a delete. -/
theorem books_delete {key : Key α} {caller : Caller α V T}
    (h : clientStep hash s c (.running (.delete key) caller) = some (s', th')) :
    Books s (.running (.delete key) caller) [] s' th' := by
  simp only [clientStep] at h
  by_cases hraise : cfg.writeMode = .writeThrough ∧ c.ok key = false
  · rw [deleteSection_of_raised hash s key hraise] at h
    cases h
    exact .of_unbooked (.refl s) rfl rfl fun _ => rfl
  · obtain ⟨hret, hdone⟩ := deleteSection_of_returned hash s key hraise
    simp only [hret] at h
    obtain ⟨hsame, hhand, hoffer, hbudget⟩ := enqueueOr_books (s.deleteSection hash key (c.ok key)).1
      (s.deleteSection hash key (c.ok key)).2.1
      (.client (.flag ((s.home hash key).backend.getEntry key).isSome) : Caller α V T)
    rw [Option.some.inj h] at hsame hhand hoffer hbudget
    refine (Books.of_write (if cfg.writeMode = .writeBack
        then [(s.home hash key).deleteJob cfg.toCacheConfig key] else []) [.erased key]
      hdone.queue_eq rfl hdone.log_eq (fun e he => ?_) ?_ (fun job hjob => ?_) rfl hhand
      (fun o => ?_) fun o => ?_).trans_unbooked hsame
    · rw [List.mem_singleton.mp he]
      rfl
    · split_ifs <;> simp
    · split_ifs at hjob
      · rw [List.mem_singleton.mp hjob]
        rfl
      · cases hjob
    · rw [hoffer, hdone.tickets_eq]
      exact Nat.le_add_left _ _
    · rw [hbudget, hdone.tickets_eq]
      exact Nat.le_add_left _ _

/-- The events of a clear. -/
theorem isApplied_of_clear {done : List (Key α)} {raised : Bool} {i : ℕ} {e : Event α V T}
    (he : e ∈ (done.map Event.erased ++ if raised then [] else [Event.cleared i]).reverse) :
    e.isApplied = false := by
  rw [List.mem_reverse, List.mem_append, List.mem_map] at he
  rcases he with ⟨k, -, rfl⟩ | he
  · rfl
  · split_ifs at he
    · cases he
    · rw [List.mem_singleton.mp he]
      rfl

/-- The books of the section of a clear. -/
theorem books_clearing (hs : ∀ i, ShardOk cfg hash i (s.shards i)) {i : ℕ} {ts : List (Ticket α V)}
    (h : clientStep hash s c (.clearing i ts) = some (s', th')) : Books s (.clearing i ts) [] s' th' := by
  simp only [clientStep] at h
  split_ifs at h with hi hraise
  · cases h
    obtain ⟨done, rest, hdone⟩ := clearSection_spec hs ⟨i, hi⟩ c.ok
    exact Books.of_write [] _ hdone.queue_eq rfl hdone.log_eq (fun e he => isApplied_of_clear he)
      (Nat.zero_le _) (by simp) rfl rfl (fun o => Nat.zero_le _) fun o => Nat.zero_le _
  · cases h
    obtain ⟨done, rest, hdone⟩ := clearSection_spec hs ⟨i, hi⟩ c.ok
    refine Books.of_write (if cfg.writeMode = .writeBack
        then done.map ((s.shards ⟨i, hi⟩).deleteJob cfg.toCacheConfig) else []) _
      hdone.queue_eq rfl hdone.log_eq (fun e he => isApplied_of_clear he) ?_ (fun job hjob => ?_) rfl rfl
      (fun o => ?_) fun o => ?_
    · split_ifs <;> simp
    · split_ifs at hjob
      · obtain ⟨k, -, rfl⟩ := List.mem_map.mp hjob
        rfl
      · cases hjob
    · rw [← hdone.tickets_eq]
      exact tally_append.le
    · rw [← hdone.tickets_eq]
      simp [Thread.budget, Thread.offered, Thread.inHand]
  · obtain ⟨hsame, hhand, hoffer, hbudget⟩ := enqueueOr_books s ts (.client .done : Caller α V T)
    rw [Option.some.inj h] at hsame hhand hoffer hbudget
    refine .of_unbooked hsame hhand hoffer fun o => ?_
    rw [hbudget]
    simp [Thread.budget, Thread.offered, Thread.inHand]

/-- The jobs that a put loses had not been accepted. -/
theorem books_lost {caller : Caller α V T} (ts : List (Ticket α V)) (hhand : th'.inHand = [])
    (hoffer : th'.offered = [])
    (hbudget : ∀ o, th'.budget o = 0) : Books s (.enqueuing ts caller) [] (s.lose ts) th' where
  grows := le_rfl
  live o := by
    rw [s.queued_lose, hhand]
    rfl
  fresh o := by
    refine ⟨0, Nat.zero_le 1, fun hpos => absurd hpos (lt_irrefl 0), ?_, ?_⟩
    · rw [hoffer]
      exact Nat.zero_le _
    · rw [s.queued_lose, hbudget]
      simp
  failures := rfl
  skips := rfl
  applied := rfl

/-- The books of an enqueue. -/
theorem books_enqueuing {ts : List (Ticket α V)} {caller : Caller α V T}
    (h : clientStep hash s c (.enqueuing ts caller) = some (s', th')) :
    Books s (.enqueuing ts caller) (Thread.notes s c (.enqueuing ts caller)) s' th' := by
  cases ts with
  | nil =>
      cases h
      have hend : (caller.returned : Thread α V T).inHand = [] ∧ (caller.returned : Thread α V T).offered = [] ∧
          ∀ o, (caller.returned : Thread α V T).budget o = 0 := by
        cases caller <;> exact ⟨rfl, rfl, fun _ => rfl⟩
      exact .of_unbooked (caller.unbooked_count s true) hend.1 hend.2.1 hend.2.2
  | cons t ts =>
      simp only [clientStep] at h
      split_ifs at h with hrej hfull
      · cases h
        rw [Thread.notes, if_pos (.inl hrej)]
        obtain ⟨hhand, hoffer, hbudget⟩ := caller.books_raised .valueError
        refine (books_lost (t :: ts) hhand hoffer hbudget).trans_unbooked (caller.unbooked_count _ false)
      · cases h
        rw [Thread.notes, if_pos (.inr hfull)]
        refine ⟨le_rfl, fun o => rfl, fun o => ⟨0, Nat.zero_le 1, fun hpos => absurd hpos (lt_irrefl 0), ?_, ?_⟩,
          rfl, rfl, rfl⟩
        · exact Nat.zero_le _
        · simp [Thread.budget, Thread.offered, Thread.inHand, CacheJobQueue.drop, CacheJobQueue.queued]
      · obtain ⟨hsame, hhand, hoffer, hbudget⟩ := enqueueOr_books
          { s with queue := s.queue.push (.flushWriteBack t) } ts caller
        rw [Option.some.inj h] at hsame hhand hoffer hbudget
        have hqueued : s'.queue.queued = s.queue.queued ++ [t] :=
          hsame.queued_eq.trans (CacheJobQueue.queued_push _ _)
        rw [Thread.notes, if_neg (not_or.mpr ⟨hrej, hfull⟩)]
        refine ⟨hsame.log_eq ▸ le_rfl, fun o => ?_, fun o => ⟨0, Nat.zero_le 1, fun hpos => absurd hpos (lt_irrefl 0),
          ?_, ?_⟩, hsame.failures_eq, hsame.skips_eq, by rw [hsame.log_eq]; rfl⟩
        · rw [hqueued, show th'.inHand = [] from hhand]
          simp [FlushNote.settles, FlushNote.loses, FlushNote.accepts, Thread.inHand, List.countP_cons]
        · rw [show th'.offered = ts from hoffer]
          simp [FlushNote.accepts, Thread.offered, List.countP_cons, Nat.add_comm]
        · rw [show th'.budget o = budget o ts from hbudget o, hqueued]
          simp [FlushNote.tries, Thread.budget, Thread.offered, Thread.inHand]
          omega

/-- The books of a release. -/
theorem books_releasing {ts : List (Ticket α V)} {caller : Caller α V T}
    (h : clientStep hash s c (.releasing ts caller) = some (s', th')) :
    Books s (.releasing ts caller) [] s' th' := by
  cases ts with
  | nil =>
      cases h
      obtain ⟨hhand, hoffer, hbudget⟩ := caller.books_raised .queueBackpressure
      exact .of_unbooked (caller.unbooked_count s false) hhand hoffer hbudget
  | cons t ts =>
      obtain ⟨s₁, hs₁, heq⟩ := Option.map_eq_some_iff.mp h
      obtain ⟨hlt, rfl⟩ := Shared.onShard_eq_some.mp hs₁
      cases heq
      exact .of_unbooked ⟨rfl, rfl, rfl, rfl⟩ rfl rfl fun _ => rfl

/-- A job that is no flush job. -/
theorem unbooked_putNowait (s : Shared α V cfg) {job : Job α V T} (hjob : job.tickets = []) :
    Unbooked s { s with queue := s.queue.putNowait cfg.queueSize job } :=
  ⟨CacheJobQueue.queued_putNowait _ _ hjob, rfl, rfl, rfl⟩

/-- The books of a step inside a public operation. -/
theorem clientStep_books (hs : ∀ i, ShardOk cfg hash i (s.shards i))
    (h : clientStep hash s c th = some (s', th')) : Books s th (th.notes s c) s' th' := by
  cases th with
  | entering op caller =>
      rcases entering_cases h with ⟨rfl, ⟨exn, rfl⟩, -⟩ | ⟨rfl, rfl, -⟩ | ⟨rfl, rfl, -⟩ |
        ⟨rfl, -, -, flush, -, rfl⟩
      · obtain ⟨hhand, hoffer, hbudget⟩ := caller.books_raised exn
        exact .of_unbooked (caller.unbooked_count _ false) hhand hoffer hbudget
      · exact .of_unbooked (.refl _) rfl rfl fun _ => rfl
      · exact .of_unbooked (.refl _) rfl rfl fun _ => rfl
      · split_ifs <;> exact .of_unbooked ⟨rfl, rfl, rfl, rfl⟩ rfl rfl fun _ => rfl
  | running op caller =>
      cases op with
      | put key value ttl => exact books_put hs h
      | delete key => exact books_delete h
      | preload key ttl =>
          cases h
          exact .of_unbooked (unbooked_putNowait s rfl) rfl rfl fun _ => rfl
      | requestSnapshot id =>
          cases h
          exact .of_unbooked (unbooked_putNowait s rfl) rfl rfl fun _ => rfl
      | getOrCompute key ttl =>
          simp only [clientStep] at h
          split at h <;> cases h <;> exact .of_unbooked ⟨rfl, rfl, rfl, rfl⟩ rfl rfl fun _ => rfl
      | _ =>
          cases h <;> exact .of_unbooked ⟨rfl, rfl, rfl, rfl⟩ rfl rfl fun _ => rfl
  | clearing i ts => exact books_clearing hs h
  | sizing i total =>
      simp only [clientStep] at h
      split_ifs at h <;> cases h <;> exact .of_unbooked (.refl s) rfl rfl fun _ => rfl
  | dumping i taken limit =>
      simp only [clientStep] at h
      split_ifs at h <;> cases h <;> exact .of_unbooked ⟨rfl, rfl, rfl, rfl⟩ rfl rfl fun _ => rfl
  | expiring i removed =>
      simp only [clientStep] at h
      split_ifs at h <;> cases h <;> exact .of_unbooked ⟨rfl, rfl, rfl, rfl⟩ rfl rfl fun _ => rfl
  | enqueuing ts caller => exact books_enqueuing h
  | releasing ts caller => exact books_releasing h
  | leading key ttl flight =>
      cases h
      exact .of_unbooked (.refl s) rfl rfl fun _ => rfl
  | loading key ttl flight =>
      simp only [clientStep] at h
      split at h <;> cases h <;> exact .of_unbooked (.refl s) rfl rfl fun _ => rfl
  | publishing key flight value =>
      cases h
      exact .of_unbooked ⟨rfl, rfl, rfl, rfl⟩ rfl rfl fun _ => rfl
  | failing key flight exn =>
      cases h
      exact .of_unbooked ⟨rfl, rfl, rfl, rfl⟩ rfl rfl fun _ => rfl
  | waiting flight =>
      simp only [clientStep] at h
      split at h
      · cases h
      · split_ifs at h
        cases h
        exact .of_unbooked (.refl s) rfl rfl fun _ => rfl
  | _ => cases h

/-- A job in hand ends without a call on the source. -/
theorem Books.of_outcome {t : Ticket α V} {n : FlushNote α V} (hn : n = .skipped t ∨ n = .failed t ∨ n = .lost t)
    (hqueued : s'.queue.queued = s.queue.queued) (hlog : s'.log = s.log)
    (hfailures : s'.runtime.flushFailures = s.runtime.flushFailures + [n].countP FlushNote.isFailed)
    (hskips : s'.runtime.staleWriteBackJobsSkipped =
      s.runtime.staleWriteBackJobsSkipped + [n].countP FlushNote.isSkipped)
    (hhand : th.inHand = [t]) (hhand' : th'.inHand = []) (hoffer' : th'.offered = [])
    (hbudget : ∀ o, th'.budget o = 0) : Books s th [n] s' th' where
  grows := by rw [hlog]
  live o := by
    rw [hqueued, hhand, hhand']
    rcases hn with rfl | rfl | rfl <;> simp [FlushNote.settles, FlushNote.loses, FlushNote.accepts, List.countP_cons]
  fresh o := by
    refine ⟨0, Nat.zero_le 1, fun hpos => absurd hpos (lt_irrefl 0), ?_, ?_⟩
    · rw [hoffer']
      rcases hn with rfl | rfl | rfl <;> simp [FlushNote.accepts]
    · rw [hqueued, hbudget]
      rcases hn with rfl | rfl | rfl <;> simp [FlushNote.tries]
  failures := hfailures
  skips := hskips
  applied := by
    rw [hlog]
    rcases hn with rfl | rfl | rfl <;> rfl

/-- The books of a step of a worker. -/
theorem workerStep_books (h : workerStep s c th = some (s', th')) : Books s th (th.notes s c) s' th' := by
  cases th with
  | idle =>
      simp only [workerStep] at h
      split at h
      · next job rest hq =>
          cases h
          have hqueued : s.queue.queued = job.tickets ++ rest.flatMap Job.tickets := by
            rw [CacheJobQueue.queued, hq, List.flatMap_cons]
          refine ⟨le_rfl, fun o => ?_, fun o => ⟨0, Nat.zero_le 1, fun hpos => absurd hpos (lt_irrefl 0), ?_, ?_⟩,
            rfl, rfl, rfl⟩
          · rw [hqueued]
            cases job <;> simp [CacheJobQueue.queued, Job.tickets, Thread.inHand, Thread.notes]
          · cases job <;> simp [Thread.offered, Thread.notes]
          · rw [hqueued]
            cases job <;> simp [CacheJobQueue.queued, Job.tickets, Thread.inHand, Thread.notes, Thread.budget,
              Thread.offered, Nat.add_comm]
      · split_ifs at h
        cases h
        exact .of_unbooked (.refl s) rfl rfl fun _ => rfl
  | handling job =>
      cases job with
      | stopWorker =>
          cases h
          exact .of_unbooked ⟨rfl, rfl, rfl, rfl⟩ rfl rfl fun _ => rfl
      | expireShard i =>
          obtain ⟨s₁, hs₁, heq⟩ := Option.map_eq_some_iff.mp h
          obtain ⟨hlt, rfl⟩ := Shared.onShard_eq_some.mp hs₁
          cases heq
          exact .of_unbooked ⟨rfl, rfl, rfl, rfl⟩ rfl rfl fun _ => rfl
      | snapshotStats id =>
          cases h
          exact .of_unbooked ⟨rfl, rfl, rfl, rfl⟩ rfl rfl fun _ => rfl
      | preloadKey i key ttl =>
          simp only [workerStep] at h
          split at h <;> cases h <;> exact .of_unbooked ⟨rfl, rfl, rfl, rfl⟩ rfl rfl fun _ => rfl
      | flushWriteBack t =>
          simp only [workerStep] at h
          split_ifs at h with hlt hst
          · cases h
            rw [Thread.notes, dif_pos hlt, if_pos hst]
            exact .of_outcome (.inl rfl) rfl rfl rfl rfl rfl rfl rfl fun _ => rfl
          · cases h
            rw [Thread.notes, dif_pos hlt, if_neg hst]
            exact .of_unbooked (.refl s) rfl rfl fun _ => rfl
  | checked t =>
      simp only [workerStep] at h
      split_ifs at h with hok
      · cases h
        rw [Thread.notes, if_pos hok]
        refine ⟨by simp [Shared.emit], fun o => ?_, fun o => ⟨0, Nat.zero_le 1, fun hpos => absurd hpos (lt_irrefl 0),
          ?_, ?_⟩, rfl, rfl, ?_⟩
        · simp [Shared.emit, Thread.inHand, FlushNote.settles, FlushNote.loses, FlushNote.accepts, List.countP_cons]
        · simp [Thread.offered, FlushNote.accepts]
        · simp [Shared.emit, Thread.budget, Thread.offered, Thread.inHand, FlushNote.tries, List.countP_cons]
          split_ifs <;> omega
        · simp [Shared.emit, Event.isApplied, FlushNote.isApplied, List.countP_cons]
      · cases h
        rw [Thread.notes, if_neg hok]
        refine ⟨le_rfl, fun o => ?_, fun o => ⟨0, Nat.zero_le 1, fun hpos => absurd hpos (lt_irrefl 0), ?_, ?_⟩,
          rfl, rfl, rfl⟩
        · simp [Thread.inHand, FlushNote.settles, FlushNote.loses, FlushNote.accepts]
        · simp [Thread.offered, FlushNote.accepts]
        · simp [Thread.budget, Thread.offered, Thread.inHand, FlushNote.tries, List.countP_cons]
          split_ifs <;> omega
  | failed t =>
      simp only [workerStep] at h
      split_ifs at h with hleft hrej hfull
      · cases h
        rw [Thread.notes, if_pos hleft, if_pos hrej]
        exact .of_outcome (.inr (.inr rfl)) (s.queued_lose [t.retry]) rfl rfl rfl rfl rfl rfl fun _ => rfl
      · cases h
        rw [Thread.notes, if_pos hleft, if_neg hrej, if_pos hfull]
        exact .of_outcome (.inr (.inl rfl)) rfl rfl rfl rfl rfl rfl rfl fun _ => rfl
      · cases h
        rw [Thread.notes, if_pos hleft, if_neg hrej, if_neg hfull]
        have hqueued : (s.queue.push (.flushWriteBack t.retry)).queued = s.queue.queued ++ [t.retry] :=
          CacheJobQueue.queued_push _ _
        refine ⟨le_rfl, fun o => ?_, fun o => ⟨0, Nat.zero_le 1, fun hpos => absurd hpos (lt_irrefl 0), ?_, ?_⟩,
          rfl, rfl, rfl⟩
        · show tally o (s.queue.push (.flushWriteBack t.retry)).queued + _ + _ = _
          rw [hqueued]
          simp [Thread.inHand, Ticket.retry]
        · simp [Thread.offered]
        · show _ + budget o (s.queue.push (.flushWriteBack t.retry)).queued + _ ≤ _
          rw [hqueued]
          simp [Thread.budget, Thread.offered, Thread.inHand, Ticket.retry]
          split_ifs <;> omega
      · cases h
        rw [Thread.notes, if_neg hleft]
        exact .of_outcome (.inr (.inl rfl)) rfl rfl rfl rfl rfl rfl rfl fun _ => rfl
  | dropped t =>
      obtain ⟨s₁, hs₁, heq⟩ := Option.map_eq_some_iff.mp h
      obtain ⟨hlt, rfl⟩ := Shared.onShard_eq_some.mp hs₁
      cases heq
      exact .of_unbooked ⟨rfl, rfl, rfl, rfl⟩ rfl rfl fun _ => rfl
  | landed t =>
      obtain ⟨s₁, hs₁, heq⟩ := Option.map_eq_some_iff.mp h
      obtain ⟨hlt, rfl⟩ := Shared.onShard_eq_some.mp hs₁
      cases heq
      exact .of_unbooked ⟨rfl, rfl, rfl, rfl⟩ rfl rfl fun _ => rfl
  | finishing =>
      cases h
      exact .of_unbooked ⟨rfl, rfl, rfl, rfl⟩ rfl rfl fun _ => rfl
  | _ => cases h

/-- Only `close` takes the steps of `close`. -/
theorem role_of_closeStep (h : closeStep s c th = some (s', th')) : th.role = .closer := by
  cases th with
  | closeEnqueue i ts => rfl
  | closeRelease i ts => rfl
  | syncNext i ts failed => rfl
  | _ => first | rfl | cases h

/-- **The books of a step** of a thread that is not in `close`. -/
theorem threadStep_books (hs : ∀ i, ShardOk cfg hash i (s.shards i)) (hrole : th.role ≠ .closer)
    (h : threadStep hash s c th = some (s', th')) : Books s th (th.notes s c) s' th' := by
  rcases threadStep_cases h with hstep | hstep | hstep
  · exact clientStep_books hs hstep
  · exact workerStep_books hstep
  · exact absurd (role_of_closeStep hstep) hrole

end Steps

/-! ### A run -/

/-- The jobs that the threads offer to the queue. -/
def System.offered (o : ℕ) (s : System α V cfg) : ℕ := (s.threads.map fun th => tally o th.offered).sum

/-- The accepted jobs without an outcome. -/
def System.live (o : ℕ) (s : System α V cfg) : ℕ :=
  tally o s.shared.queue.queued + (s.threads.map fun th => tally o th.inHand).sum

/-- The tries that are left. -/
def System.budget (o : ℕ) (s : System α V cfg) : ℕ :=
  CacheLab.budget o s.shared.queue.queued + (s.threads.map (Thread.budget o)).sum

/-- **The books of a run** with the notes `tr` are right in the state `s`. -/
structure Booked (tr : List (FlushNote α V)) (s : System α V cfg) : Prop where
  live : ∀ o, tr.countP (FlushNote.accepts o) =
    tr.countP (FlushNote.settles o) + tr.countP (FlushNote.loses o) + s.live o
  once : ∀ o, tr.countP (FlushNote.accepts o) + s.offered o ≤ 1
  tries : ∀ o, tr.countP (FlushNote.tries o) + s.budget o ≤ cfg.writeBackRetryCount + 1
  /-- Nothing is known of writes to come. -/
  future : ∀ o, s.shared.log.length ≤ o →
    tr.countP (FlushNote.accepts o) + s.offered o = 0 ∧ tr.countP (FlushNote.tries o) + s.budget o = 0
  failures : s.shared.runtime.flushFailures = tr.countP FlushNote.isFailed
  skips : s.shared.runtime.staleWriteBackJobsSkipped = tr.countP FlushNote.isSkipped
  applied : s.shared.log.countP Event.isApplied = tr.countP FlushNote.isApplied

/-- The books are empty at the start. -/
theorem booked_initial (cfg : AcceptedConfig T) (now : T) (src : Source α V) :
    Booked [] (initial cfg now src) where
  live _ := rfl
  once _ := Nat.zero_le 1
  tries _ := Nat.zero_le _
  future _ _ := ⟨rfl, rfl⟩
  failures := rfl
  skips := rfl
  applied := rfl

section Run

variable {s s' : System α V cfg} {l : Label α V T} {tr : List (FlushNote α V)}

/-- A thread moves. -/
theorem Booked.set (h : Booked tr s) {i : ℕ} {th th' : Thread α V T} {sh : Shared α V cfg}
    {ns : List (FlushNote α V)} (hi : s.threads[i]? = some th) (hb : Books s.shared th ns sh th') :
    Booked (tr ++ ns) (⟨sh, s.threads.set i th'⟩ : System α V cfg) := by
  have hsums : ∀ o, (⟨sh, s.threads.set i th'⟩ : System α V cfg).live o + tally o s.shared.queue.queued +
        tally o th.inHand = s.live o + tally o sh.queue.queued + tally o th'.inHand ∧
      (⟨sh, s.threads.set i th'⟩ : System α V cfg).offered o + tally o th.offered =
        s.offered o + tally o th'.offered ∧
      (⟨sh, s.threads.set i th'⟩ : System α V cfg).budget o + budget o s.shared.queue.queued + th.budget o =
        s.budget o + budget o sh.queue.queued + th'.budget o := by
    intro o
    obtain ⟨hand, hhand, hhand'⟩ := Transition.sum_map_set (fun th : Thread α V T => tally o th.inHand) hi
    obtain ⟨off, hoff, hoff'⟩ := Transition.sum_map_set (fun th : Thread α V T => tally o th.offered) hi
    obtain ⟨bud, hbud, hbud'⟩ := Transition.sum_map_set (Thread.budget o) hi
    simp only [System.live, System.offered, System.budget, hhand, hhand' th', hoff, hoff' th', hbud, hbud' th']
    omega
  refine ⟨fun o => ?_, fun o => ?_, fun o => ?_, fun o ho => ?_, ?_, ?_, ?_⟩
  · have hlive := h.live o
    have hstep := hb.live o
    obtain ⟨hsum, -, -⟩ := hsums o
    rw [List.countP_append, List.countP_append, List.countP_append]
    omega
  · obtain ⟨new, hone, hnew, hoffer, -⟩ := hb.fresh o
    obtain ⟨-, hsum, -⟩ := hsums o
    have honce := h.once o
    rw [List.countP_append]
    by_cases hpos : 0 < new
    · have hzero := (h.future o (hnew hpos).1).1
      omega
    · omega
  · obtain ⟨new, hone, hnew, -, hbudget⟩ := hb.fresh o
    obtain ⟨-, -, hsum⟩ := hsums o
    have htries := h.tries o
    rw [List.countP_append]
    by_cases hpos : 0 < new
    · have hzero := (h.future o (hnew hpos).1).2
      obtain rfl : new = 1 := by omega
      omega
    · obtain rfl : new = 0 := by omega
      omega
  · have hgrows := hb.grows
    have hlog : s.shared.log.length ≤ o := le_trans hgrows ho
    obtain ⟨new, hone, hnew, hoffer, hbudget⟩ := hb.fresh o
    obtain ⟨-, hsum, hsum'⟩ := hsums o
    obtain ⟨hzero, hzero'⟩ := h.future o hlog
    have hnone : new = 0 := by
      by_contra hne
      exact absurd (hnew (Nat.pos_of_ne_zero hne)).2 (not_lt.mpr ho)
    subst hnone
    rw [List.countP_append, List.countP_append]
    omega
  · rw [List.countP_append, ← h.failures]
    exact hb.failures
  · rw [List.countP_append, ← h.skips]
    exact hb.skips
  · rw [List.countP_append, ← h.applied]
    exact hb.applied

/-- A step that is no step of a thread. -/
theorem Booked.of_unbooked (h : Booked tr s) (hs : Unbooked s.shared s'.shared)
    {new : List (Thread α V T)} (hth : s'.threads = s.threads ++ new) (hnew : ∀ th ∈ new, th.Fresh) :
    Booked tr s' := by
  have hempty : ∀ th ∈ new, th.inHand = [] ∧ th.offered = [] ∧ ∀ o, th.budget o = 0 := by
    intro th hth
    cases hnew th hth with
    | idle => exact ⟨rfl, rfl, fun _ => rfl⟩
    | entering op => exact ⟨rfl, rfl, fun _ => rfl⟩
  have hhand : ∀ o, (new.map fun th => tally o th.inHand).sum = 0 := fun o =>
    List.sum_eq_zero fun n hn => by
      obtain ⟨th, hth, rfl⟩ := List.mem_map.mp hn
      rw [(hempty th hth).1, tally_nil]
  have hoffer : ∀ o, (new.map fun th => tally o th.offered).sum = 0 := fun o =>
    List.sum_eq_zero fun n hn => by
      obtain ⟨th, hth, rfl⟩ := List.mem_map.mp hn
      rw [(hempty th hth).2.1, tally_nil]
  have hbudget : ∀ o, (new.map (Thread.budget o)).sum = 0 := fun o =>
    List.sum_eq_zero fun n hn => by
      obtain ⟨th, hth, rfl⟩ := List.mem_map.mp hn
      exact (hempty th hth).2.2 o
  have hlive' : ∀ o, s'.live o = s.live o := fun o => by
    simp only [System.live, hth, hs.queued_eq, List.map_append, List.sum_append, hhand, Nat.add_zero]
  have hoffer' : ∀ o, s'.offered o = s.offered o := fun o => by
    simp only [System.offered, hth, List.map_append, List.sum_append, hoffer, Nat.add_zero]
  have hbudget' : ∀ o, s'.budget o = s.budget o := fun o => by
    simp only [System.budget, hth, hs.queued_eq, List.map_append, List.sum_append, hbudget, Nat.add_zero]
  refine ⟨fun o => ?_, fun o => ?_, fun o => ?_, fun o ho => ?_, hs.failures_eq.trans h.failures,
    hs.skips_eq.trans h.skips, by rw [← h.applied, ← hs.log_eq]⟩
  · rw [hlive']
    exact h.live o
  · rw [hoffer']
    exact h.once o
  · rw [hbudget']
    exact h.tries o
  · rw [hoffer', hbudget']
    exact h.future o (hs.log_eq ▸ ho)

/-- **One step.** -/
theorem Booked.step (h : Booked tr s) (hbase : Base hash s) (hrole : ∀ th ∈ s.threads, th.role ≠ .closer)
    (hs : step cfg hash s l = some s') : Booked (tr ++ flushNotes s l s') s' := by
  cases l with
  | tick now =>
      simp only [CacheLab.step] at hs
      split_ifs at hs
      cases hs
      simp only [flushNotes, List.append_nil]
      exact h.of_unbooked ⟨rfl, rfl, rfl, rfl⟩ (List.append_nil _).symm (by simp)
  | start =>
      simp only [CacheLab.step] at hs
      simp only [flushNotes, List.append_nil]
      split at hs <;> cases hs
      · refine h.of_unbooked ⟨rfl, rfl, rfl, rfl⟩ rfl fun th hth => ?_
        rw [List.eq_of_mem_replicate hth]
        exact .idle
      · exact h
  | call op =>
      cases hs
      simp only [flushNotes, List.append_nil]
      refine h.of_unbooked (.refl _) rfl fun th hth => ?_
      rw [List.mem_singleton.mp hth]
      exact .entering op
  | schedule i =>
      simp only [CacheLab.step] at hs
      split_ifs at hs
      cases hs
      simp only [flushNotes, List.append_nil]
      exact h.of_unbooked (unbooked_putNowait s.shared rfl) (List.append_nil _).symm (by simp)
  | run i c =>
      simp only [CacheLab.step, Option.bind_eq_some_iff, Option.map_eq_some_iff] at hs
      obtain ⟨th, hi, ⟨sh, th'⟩, hr, rfl⟩ := hs
      have hbooks := threadStep_books hbase.shards (hrole th (List.mem_of_getElem? hi)) hr
      have hnotes : flushNotes s (.run i c) ⟨sh, s.threads.set i th'⟩ = th.notes s.shared c := by
        simp [flushNotes, hi]
      rw [hnotes]
      exact h.set hi hbooks

end Run

end CacheLab
