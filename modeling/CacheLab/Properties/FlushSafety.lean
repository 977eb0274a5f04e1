import CacheLab.System.Queue
import CacheLab.System.Runs
import CacheLab.System.SourceDict

/-!
# What reaches the source before `close`

Three properties of runs in write-back mode, each with the condition on the steps under which it holds
and a run that shows that the condition is needed:

* `versions_identify_writes`: outstanding flush jobs of different writes have different versions, and
  the staleness test singles out the newest write;
* `applied_in_write_order`: the source sees the writes of a key in the order in which they were made;
* `converges_when_idle`: with one worker, once no flush job is outstanding the dictionary of the source holds
  the last write of every key and no entry is dirty.

The condition that all three share is that no step `losesMark`: a put that evicts its own key prunes the
version mark, which nothing protects because the flush of the put is registered only afterwards. The last one
also needs that equal keys are routed alike (`KeyClasses.Routed`).
-/

set_option linter.unusedSectionVars false

namespace CacheLab

variable {α V T : Type} [DecidableEq α] [LinearOrder T] [Zero T] [Add T] [Sub T]

open WriteBehind

variable {cfg : AcceptedConfig T} {hash : Key α → ℕ} {k : Key α}

/-! ### Outstanding jobs and cells -/

/-- The job of a ticket, as the cell of its key sees it. -/
abbrev Ticket.flush (t : Ticket α V) : Flush V := ⟨t.job.version, t.job.operation, t.origin⟩

/-- A staged ticket is one of the jobs of its key. -/
theorem mem_jobsOf {l : List (Stage × Ticket α V)} {x : Stage × Ticket α V} (hx : x ∈ l) :
    (x.1, x.2.flush) ∈ jobsOf x.2.job.key l :=
  Multiset.mem_coe.mpr (List.mem_filterMap.mpr ⟨x, hx, if_pos rfl⟩)

/-- An outstanding ticket is one of the jobs in the view of its key. -/
theorem System.mem_flushes {s : System α V cfg} {t : Ticket α V} (ht : t ∈ s.tickets) :
    t.flush ∈ (view hash t.job.key s).flushes := by
  have hmem : ∃ st, (st, t.flush) ∈ s.jobs t.job.key := by
    rcases System.mem_tickets.mp ht with hq | ⟨th, hth, hheld⟩
    · refine ⟨.waiting, Multiset.mem_add.mpr (.inl ?_)⟩
      exact mem_jobsOf (List.mem_map_of_mem (f := Prod.mk Stage.waiting) hq)
    · obtain ⟨x, hx, rfl⟩ := List.mem_map.mp hheld
      refine ⟨x.1, Multiset.mem_add.mpr (.inr ?_)⟩
      exact Transition.mem_sum_map_iff.mpr ⟨th, hth, mem_jobsOf hx⟩
  obtain ⟨st, hjob⟩ := hmem
  exact Cell.mem_flushes (c := view hash t.job.key s) hjob

/-! ### Runs before `close` -/

section Runs

variable {now : T} {src : Source α V} {ls : List (Label α V T)} {s : System α V cfg}

/-- In a fresh cache nothing was written, so no version stands for two writes. -/
theorem ident_initial (cfg : AcceptedConfig T) (hash : Key α → ℕ) (k : Key α) (now : T)
    (src : Source α V) : (view hash k (initial cfg now src)).Ident := by
  rw [view_initial]
  exact ⟨by simp, by simp [Cell.flushes], by simp [Cell.flushes], by simp, by simp, by simp⟩

/-- The run rule for cells, for a run from a fresh cache without a call of `close`. -/
theorem open_view_invariant {I : Cell V → Prop} {P : System α V cfg → Label α V T → Prop}
    (h : exec cfg hash (initial cfg now src) ls = some s) (hls : ∀ l ∈ ls, l.closes = false)
    (halong : Transition.Along (step cfg hash) P (initial cfg now src) ls)
    (hI : ∀ s l s' k, P s l → step cfg hash s l = some s' → (view hash k s).Meta → I (view hash k s) →
      Cell.Steps (permit hash k s l s') (view hash k s) (view hash k s') → I (view hash k s'))
    (hinit : ∀ k, I (view hash k (initial cfg now src))) (k : Key α) :
    (view hash k s).Meta ∧ I (view hash k s) := by
  have hbase := base_initial cfg hash now src
  have hopen := along_open hls hbase fun th hth => by cases hth
  have hfinal := view_invariant hI h (hopen.and halong) hbase (fun k => meta_initial cfg hash k now src)
    hinit
  exact ⟨hfinal.2.1 k, hfinal.2.2 k⟩

/-- **What it means that versions identify writes**, for the outstanding jobs (`s.underway`) and those lost to an
error of their enqueue: `s.tickets` are both. -/
structure VersionsIdentify (hash : Key α → ℕ) (s : System α V cfg) : Prop where
  /-- A job stems from a write, which is the last write of its key or an older one. -/
  stems : ∀ t ∈ s.tickets, ∃ o op, lastWrite t.job.key s.shared.log = some (o, op) ∧ t.origin ≤ o
  /-- Jobs that stem from different writes of a key have different versions. -/
  distinct : ∀ t ∈ s.tickets, ∀ t' ∈ s.tickets, t.job.key = t'.job.key → t.origin ≠ t'.origin →
    t.job.version ≠ t'.job.version
  /-- A job of the last write has the version of the mark and is not stale. -/
  newest : ∀ t ∈ s.tickets, ∀ o op, lastWrite t.job.key s.shared.log = some (o, op) → t.origin = o →
    (s.shared.home hash t.job.key).versionMarks.get? t.job.key = some t.job.version ∧
      (s.shared.home hash t.job.key).isStale t.job = false
  /-- A job of an older write is stale. -/
  older : ∀ t ∈ s.tickets, ∀ o op, lastWrite t.job.key s.shared.log = some (o, op) → t.origin ≠ o →
    (s.shared.home hash t.job.key).isStale t.job = true

/-- Versions identify writes where they do in every cell. -/
theorem versionsIdentify_of_ident (h : ∀ k, (view hash k s).Meta ∧ (view hash k s).Ident) :
    VersionsIdentify hash s where
  stems t ht := by
    obtain ⟨m, o, op, -, hl, hfits⟩ := (h t.job.key).2.marked _ (System.mem_flushes ht)
    exact ⟨o, op, hl, hfits.origin_le⟩
  distinct t ht t' ht' hk ho hv := by
    have hmem : t'.flush ∈ (view hash t.job.key s).flushes := by
      rw [hk]
      exact System.mem_flushes ht'
    exact ho (((h t.job.key).2.distinct _ (System.mem_flushes ht) _ hmem).mp hv)
  newest t ht o op hl ho := by
    obtain ⟨hm, hi⟩ := h t.job.key
    obtain ⟨m, hmark, hfits⟩ := hi.fits (System.mem_flushes ht) hl
    obtain rfl : t.job.version = m := hfits.same.mpr ho
    refine ⟨hmark, ?_⟩
    rw [CacheShard.isStale_eq]
    exact (hi.stale_eq hm (System.mem_flushes ht) hl).trans (by simp [ho])
  older t ht o op hl ho := by
    obtain ⟨hm, hi⟩ := h t.job.key
    rw [CacheShard.isStale_eq]
    exact (hi.stale_eq hm (System.mem_flushes ht) hl).trans (by simp [ho])

/-- **Versions identify writes** in every run before `close` in which no put evicts its own key while no
flush of it is pending. -/
theorem versions_identify_writes {cfg : AcceptedConfig T} {hash : Key α → ℕ} {now : T} {src : Source α V}
    {ls : List (Label α V T)} {s : System α V cfg}
    (h : exec cfg hash (initial cfg now src) ls = some s) (hls : ∀ l ∈ ls, l.closes = false)
    (hmark : Transition.Along (step cfg hash) (fun s l => losesMark hash s l = false)
      (initial cfg now src) ls) :
    VersionsIdentify hash s := by
  refine versionsIdentify_of_ident (open_view_invariant h hls hmark ?_ fun k => ident_initial cfg hash k now src)
  intro s l s' k hp _ hm hi hsteps
  exact hi.steps hm (by simp [permit, hp]) hsteps

/-- Two puts of one key whose jobs are both queued. -/
theorem versions_identify_two_puts :
    ∃ s : System ℕ ℕ (oneEntry .lru .writeBack 0 0 0),
      exec _ (fun _ => 0) (initial _ 0 .empty)
        [.call (.put (some 1) 10 .unset), .run 0 {}, .run 0 {}, .run 0 {},
          .call (.put (some 1) 20 .unset), .run 1 {}, .run 1 {}, .run 1 {}] = some s ∧
      s.tickets.length = 2 ∧ VersionsIdentify (fun _ => 0) s := by
  have heval : ((exec (oneEntry .lru .writeBack 0 0 0) (fun _ => 0) (initial _ 0 .empty)
      [.call (.put (some 1) 10 .unset), .run 0 {}, .run 0 {}, .run 0 {},
        .call (.put (some 1) 20 .unset), .run 1 {}, .run 1 {}, .run 1 {}]).map
      fun s : System ℕ ℕ (oneEntry .lru .writeBack 0 0 0) => decide (s.tickets.length = 2)) =
      some true := by decide +kernel
  obtain ⟨s, hs, heval⟩ := Option.map_eq_some_iff.mp heval
  exact ⟨s, hs, of_decide_eq_true heval, versions_identify_writes hs (by decide) (by decide +kernel)⟩

/-- Under LFU a put can evict its own key. Its flush job is outstanding and stems from the last write,
but there is no version mark any more. -/
theorem lfu_put_loses_its_mark :
    ∃ (ls : List (Label ℕ ℕ ℕ)) (s : System ℕ ℕ (oneEntry .lfu .writeBack 0 0 0)),
      exec _ (fun _ => 0) (initial _ 0 .empty) ls = some s ∧ (∀ l ∈ ls, l.closes = false) ∧
      ¬ VersionsIdentify (fun _ => 0) s := by
  have heval : ((exec (oneEntry .lfu .writeBack 0 0 0) (fun _ => 0) (initial _ 0 .empty)
      [.call (.put (some 1) 10 .unset), .run 0 {}, .run 0 {}, .run 0 {}, .call (.get (some 1)), .run 1 {},
        .run 1 {}, .call (.put (some 2) 20 .unset), .run 2 {}, .run 2 {}, .run 2 {}]).map
      fun s : System ℕ ℕ (oneEntry .lfu .writeBack 0 0 0) =>
        decide (∃ t ∈ s.tickets, lastWrite t.job.key s.shared.log = some (t.origin, t.job.operation) ∧
          (s.shared.home (fun _ => 0) t.job.key).versionMarks.get? t.job.key = none)) = some true := by
    decide +kernel
  obtain ⟨s, hs, heval⟩ := Option.map_eq_some_iff.mp heval
  obtain ⟨t, ht, hlast, hnone⟩ := of_decide_eq_true heval
  refine ⟨_, s, hs, by decide, fun hok => ?_⟩
  have hmark := (hok.newest t ht t.origin t.job.operation hlast rfl).1
  rw [hnone] at hmark
  cases hmark

/-! ### The order of the applications -/

/-- The flush job that an event says was applied to the source. -/
def Event.application : Event α V T → Option (Ticket α V)
  | applied t => some t
  | _ => none

/-- **The writes of each key reached the source in the order in which they were made**: of two
applications, newest first, the later one is of the same write or of a later one. -/
def InWriteOrder (log : List (Event α V T)) : Prop :=
  (log.filterMap Event.application).Pairwise fun late early =>
    early.job.key = late.job.key → early.origin ≤ late.origin

instance (log : List (Event α V T)) : Decidable (InWriteOrder log) :=
  inferInstanceAs (Decidable (List.Pairwise _ _))

/-- The applied writes of a key are the origins of its applications. -/
theorem appliedOf_eq (k : Key α) (log : List (Event α V T)) :
    appliedOf k log = (log.filterMap Event.application).filterMap fun t =>
      if t.job.key = k then some t.origin else none := by
  rw [appliedOf, List.filterMap_filterMap]
  congr 1
  funext e
  cases e <;> rfl

/-- A log is in write order where the applied writes of each key are sorted. -/
theorem inWriteOrder_of_sorted {log : List (Event α V T)}
    (h : ∀ k, (appliedOf k log).Pairwise fun a b => b ≤ a) : InWriteOrder log := by
  refine List.pairwise_iff_forall_sublist.mpr fun {t t'} hsub hk => ?_
  have hboth : [t.origin, t'.origin].Sublist (appliedOf t.job.key log) := by
    rw [appliedOf_eq]
    simpa [hk] using hsub.filterMap fun x => if x.job.key = t.job.key then some x.origin else none
  exact List.pairwise_iff_forall_sublist.mp (h t.job.key) hboth

/-- **Writes reach the source in write order** in every run before `close` in which no put evicts its
own key while no flush of it is pending and no worker applies a job while another worker, past its
staleness test, still holds the job of an older write of that key. -/
theorem applied_in_write_order {cfg : AcceptedConfig T} {hash : Key α → ℕ} {now : T} {src : Source α V}
    {ls : List (Label α V T)} {s : System α V cfg}
    (h : exec cfg hash (initial cfg now src) ls = some s) (hls : ∀ l ∈ ls, l.closes = false)
    (hsteps : Transition.Along (step cfg hash)
      (fun s l => losesMark hash s l = false ∧ overtakes s l = false) (initial cfg now src) ls) :
    InWriteOrder s.shared.log := by
  have hinit : ∀ k, (view hash k (initial cfg now src)).Ident ∧ (view hash k (initial cfg now src)).Ordered :=
    fun k => ⟨ident_initial cfg hash k now src, by rw [view_initial]; exact ⟨by simp, by simp, by simp⟩⟩
  have hrun := open_view_invariant (I := fun c => c.Ident ∧ c.Ordered) h hls hsteps ?_ hinit
  · exact inWriteOrder_of_sorted fun k => (hrun k).2.2.sorted
  · rintro s l s' k ⟨hmark, hover⟩ - hm ⟨hi, ho⟩ hsteps
    have hmark' : ¬ (permit hash k s l s').loseMark := by simp [permit, hmark]
    exact ⟨hi.steps hm hmark' hsteps, ho.steps hi hm hmark' (by simp [permit, hover]) hsteps⟩

/-- Two puts of one key, flushed one after the other by a worker. -/
theorem applied_in_write_order_two_puts :
    ∃ s : System ℕ ℕ (oneEntry .lru .writeBack 1 0 0),
      exec _ (fun _ => 0) (initial _ 0 .empty)
        [.start, .call (.put (some 1) 10 .unset), .run 1 {}, .run 1 {}, .run 1 {}, .run 0 {}, .run 0 {},
          .run 0 {}, .run 0 {}, .run 0 {}, .call (.put (some 1) 20 .unset), .run 2 {}, .run 2 {}, .run 2 {},
          .run 0 {}, .run 0 {}, .run 0 {}] = some s ∧
      (appliedOf (some 1) s.shared.log).length = 2 ∧ InWriteOrder s.shared.log := by
  have heval : ((exec (oneEntry .lru .writeBack 1 0 0) (fun _ => 0) (initial _ 0 .empty)
      [.start, .call (.put (some 1) 10 .unset), .run 1 {}, .run 1 {}, .run 1 {}, .run 0 {}, .run 0 {},
        .run 0 {}, .run 0 {}, .run 0 {}, .call (.put (some 1) 20 .unset), .run 2 {}, .run 2 {}, .run 2 {},
        .run 0 {}, .run 0 {}, .run 0 {}]).map fun s : System ℕ ℕ (oneEntry .lru .writeBack 1 0 0) =>
      decide ((appliedOf (some 1) s.shared.log).length = 2)) = some true := by decide +kernel
  obtain ⟨s, hs, heval⟩ := Option.map_eq_some_iff.mp heval
  exact ⟨s, hs, of_decide_eq_true heval, applied_in_write_order hs (by decide) (by decide +kernel)⟩

/-- With two workers an old put can be applied last: one worker is past the staleness test of the first
put when the other one takes and applies the second. -/
theorem second_worker_overtakes :
    ∃ (ls : List (Label ℕ ℕ ℕ)) (s : System ℕ ℕ (oneEntry .lru .writeBack 2 0 0)),
      exec _ (fun _ => 0) (initial _ 0 .empty) ls = some s ∧ (∀ l ∈ ls, l.closes = false) ∧
      ¬ InWriteOrder s.shared.log := by
  have heval : ((exec (oneEntry .lru .writeBack 2 0 0) (fun _ => 0) (initial _ 0 .empty)
      [.start, .call (.put (some 1) 10 .unset), .run 2 {}, .run 2 {}, .run 2 {}, .run 0 {}, .run 0 {},
        .call (.put (some 1) 20 .unset), .run 3 {}, .run 3 {}, .run 3 {}, .run 1 {}, .run 1 {}, .run 1 {},
        .run 0 {}]).map fun s : System ℕ ℕ (oneEntry .lru .writeBack 2 0 0) =>
      decide (¬ InWriteOrder s.shared.log)) = some true := by decide +kernel
  obtain ⟨s, hs, heval⟩ := Option.map_eq_some_iff.mp heval
  exact ⟨_, s, hs, by decide, of_decide_eq_true heval⟩

/-! ### Convergence with one worker -/

/-- The step gives up a flush job whose source call failed with no retries left. -/
def exhausts (s : System α V cfg) : Label α V T → Bool
  | .run i _ =>
      match s.threads[i]? with
      | some (.failed t) => decide (t.job.retriesLeft = 0)
      | _ => false
  | _ => false

/-- With an unbounded queue, jobs are given up only when their retries are exhausted. -/
theorem givesUp_eq_exhausts (hq : cfg.queueSize = 0) (s : System α V cfg) (l : Label α V T) :
    givesUp s l = exhausts s l := by
  cases l with
  | run i c =>
      have hfull : s.shared.queue.full cfg.queueSize = false := by simp [CacheJobQueue.full, hq]
      cases hi : s.threads[i]? with
      | none => simp [givesUp, exhausts, hi]
      | some th =>
          simp only [givesUp, exhausts, hi, Option.any_some]
          cases th with
          | enqueuing ts caller => cases ts <;> simp [Thread.givesUp, hfull]
          | closeEnqueue i ts => cases ts <;> simp [Thread.givesUp, hfull]
          | failed t => simp [Thread.givesUp, hfull]
          | _ => rfl
  | _ => rfl

/-- The dictionary of the source holds the outcome of the last write of every key, and no entry is dirty. -/
structure Converged {κ : Type} [DecidableEq κ] (py : KeyClasses cfg hash κ) (dict : OrderedDict κ V)
    (s : System α V cfg) : Prop where
  source : ∀ k o op, lastWrite k s.shared.log = some (o, op) →
    (py.sourceDict dict s.shared.log).get? (py.ident k) = op.outcome
  clean : ∀ i k e, (s.shared.shards i).backend.getEntry k = some e → e.dirty = false

/-- With one worker no job is overtaken along a run. -/
theorem along_overtakes_eq_false (hash : Key α → ℕ) (hone : cfg.workerCount ≤ 1) (now : T)
    (src : Source α V) (ls : List (Label α V T)) :
    Transition.Along (step cfg hash) (fun s l => overtakes s l = false) (initial cfg now src) ls := by
  have hstaff : Staffed (initial cfg now src : System α V cfg) := ⟨Nat.zero_le _, fun _ => rfl⟩
  refine Transition.along_of_invariant (R := fun _ => True)
    (fun s l s' _ hs hinv => ⟨hinv.1.step hs, hinv.2.step hs hinv.1⟩)
    (fun s l _ (hinv : Base hash s ∧ Staffed s) => overtakes_eq_false hinv.2 hone l) (fun _ _ => trivial)
    ⟨base_initial cfg hash now src, hstaff⟩

/-- **Write-back with one worker converges**: in every run before `close`, with an unbounded queue and
any pattern of source failures in which no job exhausts its retries, and in which no put evicts its own
key while no flush of it is pending, a state without outstanding flush jobs is converged, if equal keys are
routed alike. -/
theorem converges_when_idle {cfg : AcceptedConfig T} {hash : Key α → ℕ} {now : T} {src : Source α V}
    {κ : Type} [DecidableEq κ] (py : KeyClasses cfg hash κ) {dict : OrderedDict κ V}
    (hdict : ∀ k, src.get? k = dict.get? (py.ident k))
    {ls : List (Label α V T)} {s : System α V cfg} (hwb : cfg.writeMode = .writeBack)
    (hone : cfg.workerCount ≤ 1) (hq : cfg.queueSize = 0)
    (h : exec cfg hash (initial cfg now src) ls = some s) (hls : ∀ l ∈ ls, l.closes = false)
    (hretries : Transition.Along (step cfg hash) (fun s l => exhausts s l = false) (initial cfg now src) ls)
    (hmark : Transition.Along (step cfg hash) (fun s l => losesMark hash s l = false)
      (initial cfg now src) ls)
    (hrouted : py.Routed s.shared.log) (hidle : s.underway = []) : Converged py dict s := by
  have hover := along_overtakes_eq_false hash hone now src ls
  have hinit : ∀ k, (view hash k (initial cfg now src)).Ident ∧ (view hash k (initial cfg now src)).Flushed :=
    fun k => ⟨ident_initial cfg hash k now src, by rw [view_initial]; exact ⟨by simp, by simp, by simp⟩⟩
  have hrun := open_view_invariant (I := fun c => c.Ident ∧ c.Flushed) h hls
    ((hretries.and hmark).and hover) ?_ hinit
  · have hlost := lost_exec (Transition.along_of_forall (fun l _ s => enqueueRaises_of_unbounded hq s l) _) h
    have hnone : ∀ k, (view hash k s).jobs = 0 :=
      System.jobs_eq_zero ((System.tickets_eq_underway hlost).trans hidle)
    refine ⟨fun k o op hl => ?_, fun i k e he => ?_⟩
    · rw [sourceDict_exec hwb hdict h hrouted (occurs_of_lastWrite hl)]
      exact (hrun k).2.2.source_eq (hnone k) hl
    · obtain rfl := ((base_exec h).shards i).shardFor_eq he
      have hentry : (view hash k s).slot.entry = some e.held := congrArg (Option.map CacheEntry.held) he
      exact (hrun k).2.2.clean (hnone k) hentry
  · rintro s l s' k ⟨⟨hex, hmark⟩, hover⟩ - hm ⟨hi, hf⟩ hsteps
    have hmark' : ¬ (permit hash k s l s').loseMark := by simp [permit, hmark]
    refine ⟨hi.steps hm hmark' hsteps, hf.steps hi hm hmark' (by simp [permit, hover]) (by simp [permit, hwb])
      ?_ hsteps⟩
    simp [permit, givesUp_eq_exhausts hq, hex]

/-- A put whose flush job fails once and is applied at the second try. -/
theorem converges_after_retry :
    ∃ s : System ℕ ℕ (oneEntry .lru .writeBack 1 0 1),
      exec _ (fun _ => 0) (initial _ 0 .empty)
        [.start, .call (.put (some 1) 10 .unset), .run 1 {}, .run 1 {}, .run 1 {}, .run 0 {}, .run 0 {},
          .run 0 { ok := fun _ => false }, .run 0 {}, .run 0 {}, .run 0 {}, .run 0 {}, .run 0 {},
          .run 0 {}] = some s ∧
      s.shared.source.get? (some 1) = some 10 ∧ Converged (.distinct _ fun _ => 0) .empty s := by
  have heval : ((exec (oneEntry .lru .writeBack 1 0 1) (fun _ => 0) (initial _ 0 .empty)
      [.start, .call (.put (some 1) 10 .unset), .run 1 {}, .run 1 {}, .run 1 {}, .run 0 {}, .run 0 {},
        .run 0 { ok := fun _ => false }, .run 0 {}, .run 0 {}, .run 0 {}, .run 0 {}, .run 0 {},
        .run 0 {}]).map fun s : System ℕ ℕ (oneEntry .lru .writeBack 1 0 1) =>
      decide (s.underway = [] ∧ s.shared.source.get? (some 1) = some 10)) = some true := by decide +kernel
  obtain ⟨s, hs, heval⟩ := Option.map_eq_some_iff.mp heval
  obtain ⟨hidle, hsource⟩ := of_decide_eq_true heval
  exact ⟨s, hs, hsource, converges_when_idle (.distinct _ fun _ => 0) (fun _ => rfl) rfl le_rfl rfl hs (by decide)
    (by decide +kernel) (by decide +kernel) (KeyClasses.routed_distinct _) hidle⟩

/-- Under FIFO the key `None` overfills a shard, since its turn to be evicted reads as "no candidate".
After its delete a put of a resident key evicts that very key, its flush job is skipped as stale, and
the source keeps the old value while nothing is outstanding. -/
theorem fifo_put_is_lost :
    ∃ (ls : List (Label ℕ ℕ ℕ)) (s : System ℕ ℕ (oneEntry .fifo .writeBack 1 0 0)),
      exec _ (fun _ => 0) (initial _ 0 .empty) ls = some s ∧ (∀ l ∈ ls, l.closes = false) ∧
      Transition.Along (step _ fun _ => 0) (fun s l => exhausts s l = false)
        (initial (oneEntry .fifo .writeBack 1 0 0) 0 .empty) ls ∧
      s.underway = [] ∧ ¬ Converged (.distinct _ fun _ => 0) .empty s := by
  have heval : ((exec (oneEntry .fifo .writeBack 1 0 0) (fun _ => 0) (initial _ 0 .empty)
      ([Label.start, .call (.put none 1 .unset), .run 1 {}, .run 1 {}, .run 1 {},
        .call (.put (some 1) 2 .unset), .run 2 {}, .run 2 {}, .run 2 {},
        .call (.put (some 2) 3 .unset), .run 3 {}, .run 3 {}, .run 3 {},
        .call (.delete none), .run 4 {}, .run 4 {}, .run 4 {}] ++ List.replicate 18 (Label.run 0 {}) ++
        [Label.call (.put (some 1) 9 .unset), .run 5 {}, .run 5 {}, .run 5 {}, .run 0 {}, .run 0 {},
          .run 0 {}])).map fun s : System ℕ ℕ (oneEntry .fifo .writeBack 1 0 0) =>
      decide (s.underway = [] ∧ (lastWrite (some 1) s.shared.log).map Prod.snd = some (WriteOp.put 9) ∧
        ((KeyClasses.distinct (oneEntry .fifo .writeBack 1 0 0) fun _ => 0).sourceDict .empty
          s.shared.log).get? (some 1) = some 2)) = some true := by
    decide +kernel
  obtain ⟨s, hs, heval⟩ := Option.map_eq_some_iff.mp heval
  obtain ⟨hidle, hlast, hsource⟩ := of_decide_eq_true heval
  refine ⟨_, s, hs, by decide, by decide +kernel, hidle, fun hok => ?_⟩
  obtain ⟨⟨o, op⟩, hl, rfl⟩ := Option.map_eq_some_iff.mp hlast
  have hkept := hsource.symm.trans (hok.source (some 1) o (.put 9) hl)
  cases hkept

end Runs

end CacheLab
