import CacheLab.Properties.FlushSafety
import CacheLab.Properties.TimedReads
import CacheLab.System.Closing
import CacheLab.System.Queue

/-!
# What `close(flush=True)` persists

After a run in write-back mode, `close(flush=True)` is called while no other call is in progress, and it
returns normally. Does the dictionary of the source then hold the last write of every key? Where equal keys are
routed to different shards it does not (`close_mixes_up_equal_keys`); else:

* `close_persists`: with a reliable source and an unbounded queue it does, provided that no put evicts
  its own key while no flush of it is pending, no worker overtakes another one, and, where no worker
  pool is running, the last puts are still in memory: `close` discards what is only in the queue;
* `close_recovers`: with at most one worker, when nothing is evicted or expires, any queue bound and any
  pattern of source failures, it does provided that no step `forgets` a tombstone. A put whose flush was
  given up stays behind as a dirty entry, but a delete only as a tombstone, which goes with the last
  pending count.
-/

set_option linter.unusedSectionVars false

namespace CacheLab

variable {α V T : Type} [DecidableEq α] [LinearOrder T] [Zero T] [Add T] [Sub T]

open WriteBehind

variable {cfg : AcceptedConfig T} {hash : Key α → ℕ} {k : Key α}

section Rule

variable {now : T} {src : Source α V} {ls₁ ls₂ : List (Label α V T)} {s s' : System α V cfg}

/-- What the walk needs to start, from the cells. -/
theorem remains_of_cells {solo : Prop} (hcells : ∀ k, (view hash k s).Meta ∧ (view hash k s).Ident)
    (hleft : ∀ k, Synced s.shared k ∨ ((s.shared.home hash k).slot k).Owes)
    (hsteady : ¬ solo → ∀ k v d, (s.shared.home hash k).timed k = some (v, some d) → Synced s.shared k) :
    Remains hash solo s.shared 0 [] where
  follows k _ := (hcells k).2.follows (hcells k).1
  home t ht := by cases ht
  last t ht := by cases ht
  left k := (hleft k).imp_right fun howes => .inl ⟨Nat.zero_le _, howes⟩
  steady := hsteady

/-- A key that was never written is synced; otherwise the last write decides. -/
theorem synced_or {Q : Prop} (h : ∀ o op, lastWrite k s.shared.log = some (o, op) →
    s.shared.source.get? k = op.outcome ∨ Q) : Synced s.shared k ∨ Q := by
  cases hl : lastWrite k s.shared.log with
  | none => exact .inl fun o op h' => by rw [hl] at h'; cases h'
  | some x =>
      rcases h x.1 x.2 hl with hsource | hq
      · left
        intro o op h'
        rw [hl, Option.some.injEq] at h'
        rw [hsource, h']
      · exact .inr hq

/-- **The rule for a run that ends with `close(flush=True)`**: `I` is an invariant of the cells and `W`
one of the shared state during the first part of `close`, and the two are enough to start the walk. -/
theorem close_rule {I : Cell V → Prop} {W : Shared α V cfg → Prop}
    {P : System α V cfg → Label α V T → Prop} (hwb : cfg.writeMode = .writeBack)
    (hI : ∀ s l s' k, P s l → step cfg hash s l = some s' → (view hash k s).Meta → I (view hash k s) →
      Cell.Steps (permit hash k s l s') (view hash k s) (view hash k s') → I (view hash k s'))
    (hinit : ∀ k, I (view hash k (initial cfg now src)))
    (hW : ∀ j s l s', P s l → l.enters = false → Opening hash j s → step cfg hash s l = some s' →
      W s.shared → W s'.shared)
    (hready : ∀ (s : System α V cfg) (solo : Prop), (∀ k, (view hash k s).Meta ∧ I (view hash k s)) →
      W s.shared → (solo → s.shared.poolStarted = false) → (¬ solo → ∀ t ∈ s.tickets, t ∈ s.shared.queue.lost) →
      Remains hash solo s.shared 0 [])
    (h₁ : exec cfg hash (initial cfg now src) ls₁ = some s) (hopen : ∀ l ∈ ls₁, l.closes = false)
    (hrest : ∀ th ∈ s.threads, th.role = .worker ∨ th.isFinished = true)
    (h₂ : exec cfg hash s (.call (.close (some true)) :: ls₂) = some s')
    (halone : ∀ l ∈ ls₂, l.enters = false)
    (hdone : s'.threads[s.threads.length]? = some (Thread.finished .done))
    (halong : Transition.Along (step cfg hash) P (initial cfg now src)
      (ls₁ ++ .call (.close (some true)) :: ls₂))
    (hWs : W s.shared) (k : Key α) : Synced s'.shared k := by
  have hcells := open_view_invariant h₁ hopen halong.left hI hinit
  obtain ⟨u, hcall, hrun⟩ := Transition.run_cons_eq_some.mp h₂
  obtain ⟨hp, hrest₂⟩ := halong.right h₁
  have hstep : ∀ {s : System α V cfg} {l : Label α V T} {s' : System α V cfg}, P s l → Base hash s →
      winds s l = false → step cfg hash s l = some s' →
      (∀ k, (view hash k s).Meta ∧ I (view hash k s)) →
      ∀ k, (view hash k s').Meta ∧ I (view hash k s') := by
    intro s l s' hp hb hw hs hc k
    have hsteps := view_steps hs hb hw (hc k).1
    exact ⟨(hc k).1.steps hsteps, hI s l s' k hp hs (hc k).1 (hc k).2 hsteps⟩
  have hWu : W u.shared := by
    cases hcall
    exact hWs
  refine close_synchronizes (j := s.threads.length) (P := fun s l => P s l ∧ l.enters = false)
    (J := fun s => (∀ k, (view hash k s).Meta ∧ I (view hash k s)) ∧ W s.shared) hwb ?_ ?_ hrun
    ((hrest₂ u hcall).and (Transition.along_of_forall (fun l hl _ => halone l hl) _)) halone
    (opening_of_call h₁ hopen hrest hcall)
    ⟨hstep hp (base_exec h₁) rfl hcall hcells, hWu⟩ hdone k
  · rintro s l s' ⟨hp, hl⟩ hopening hs ⟨hc, hw⟩
    exact ⟨hstep hp hopening.base (hopening.winds_eq_false l) hs hc, hW _ s l s' hp hl hopening hs hw⟩
  · rintro s solo ⟨hc, hw⟩ hsolo hnone
    exact hready s solo hc hw (fun h => (hsolo h).2) hnone

end Rule

/-! ### A reliable source -/

/-- No call on the source fails in the step. -/
def Label.Reliable : Label α V T → Prop
  | .run _ c => ∀ k, c.ok k = true
  | _ => True

section Reliable

variable {s s' : Shared α V cfg} {c : Choice α V} {th : Thread α V T} {t : Ticket α V}

/-- A caller that got an exception is not a worker whose flush failed. -/
theorem Caller.raised_ne_failed (caller : Caller α V T) (exn : Exn) : caller.raised exn ≠ .failed t := by
  cases caller with
  | leader key flight value => cases exn <;> exact fun h => by cases h
  | _ => exact fun h => by cases h

/-- Starting to enqueue is not a failed flush. -/
theorem enqueueOr_ne_failed {ts : List (Ticket α V)} {caller : Caller α V T} :
    enqueueOr s ts caller ≠ (s', Thread.failed t) := by
  intro h
  cases ts with
  | nil => cases caller <;> cases h
  | cons t ts => cases h

/-- A put of a worker is not a failed flush. -/
theorem clientStep_ne_failed (hrole : th.role = .worker) (hfit : th.Fit) :
    clientStep hash s c th ≠ some (s', Thread.failed t) := by
  intro h
  cases th with
  | entering op caller =>
      rcases entering_cases h with ⟨-, ⟨exn, h⟩, -⟩ | ⟨-, h, -⟩ | ⟨-, h, -⟩ | ⟨-, -, -, flush, rfl, -⟩
      · exact caller.raised_ne_failed exn h.symm
      · cases h
      · cases h
      · cases hrole
  | running op caller =>
      rcases hfit with hclient | ⟨key, value, ttl, rfl⟩
      · cases hclient.symm.trans hrole
      · simp only [clientStep] at h
        split_ifs at h
        · exact caller.raised_ne_failed _ (Prod.mk.inj (Option.some.inj h)).2
        · exact enqueueOr_ne_failed (Option.some.inj h)
  | enqueuing ts caller =>
      cases ts with
      | nil => cases caller <;> cases h
      | cons t ts =>
          simp only [clientStep] at h
          split_ifs at h
          · exact caller.raised_ne_failed _ (Prod.mk.inj (Option.some.inj h)).2
          · cases h
          · exact enqueueOr_ne_failed (Option.some.inj h)
  | releasing ts caller =>
      cases ts with
      | nil => exact caller.raised_ne_failed _ (Prod.mk.inj (Option.some.inj h)).2
      | cons t ts =>
          obtain ⟨s₁, -, heq⟩ := Option.map_eq_some_iff.mp h
          cases heq
  | _ => first | (cases hrole; done) | cases h

/-- A flush fails because a call on the source did. -/
theorem threadStep_failed (h : threadStep hash s c th = some (s', Thread.failed t)) (hfit : th.Fit)
    (hp : th.Placed) (hidx : ∀ i, (s.shards i).index = i) : c.ok t.job.key = false := by
  have hrole : th.role = .worker := by
    rcases (threadStep_control h hfit hp hidx).role with hrole | ⟨-, result, heq⟩
    · exact hrole.symm
    · cases heq
  rcases threadStep_cases h with h | h | h
  · exact absurd h (clientStep_ne_failed hrole hfit)
  · cases th with
    | checked t' =>
        simp only [workerStep] at h
        split_ifs at h with hok
        · cases h
        · cases h
          simpa using hok
    | idle =>
        simp only [workerStep] at h
        split at h
        · cases h
        · split_ifs at h
          cases h
    | handling job =>
        cases job with
        | flushWriteBack t' =>
            simp only [workerStep] at h
            split_ifs at h <;> cases h
        | preloadKey i key ttl =>
            simp only [workerStep] at h
            split at h <;> cases h
        | expireShard i =>
            obtain ⟨s₁, -, heq⟩ := Option.map_eq_some_iff.mp h
            cases heq
        | _ => cases h
    | failed t' =>
        simp only [workerStep] at h
        split_ifs at h <;> cases h
    | dropped t' =>
        obtain ⟨s₁, -, heq⟩ := Option.map_eq_some_iff.mp h
        cases heq
    | landed t' =>
        obtain ⟨s₁, -, heq⟩ := Option.map_eq_some_iff.mp h
        cases heq
    | _ => cases h
  · cases th <;> first | (cases hrole; done) | cases h

end Reliable

/-- A run with a reliable source and an unbounded queue gives up no flush job. -/
theorem along_givesUp_eq_false (hash : Key α → ℕ) (hq : cfg.queueSize = 0) (now : T) (src : Source α V)
    {ls : List (Label α V T)} (hls : ∀ l ∈ ls, l.Reliable) :
    Transition.Along (step cfg hash) (fun s l => givesUp s l = false) (initial cfg now src) ls := by
  have hstep : ∀ (s : System α V cfg) l s', l.Reliable → step cfg hash s l = some s' →
      (Base hash s ∧ ∀ t, .failed t ∉ s.threads) → Base hash s' ∧ ∀ t, .failed t ∉ s'.threads := by
    rintro s l s' hl hs ⟨hb, hno⟩
    refine ⟨hb.step hs, fun t ht => ?_⟩
    rcases step_cases hs with ⟨now, -, -, rfl⟩ | ⟨new, hnew, -, hth, -⟩ | ⟨i, c, th, th', rfl, hi, hr, hth⟩
    · exact hno t ht
    · rw [hth] at ht
      rcases List.mem_append.mp ht with ht | ht
      · exact hno t ht
      · cases hnew _ ht
    · rw [hth] at ht
      rcases List.mem_or_eq_of_mem_set ht with ht | rfl
      · exact hno t ht
      · have hmem := hb.threads th (List.mem_of_getElem? hi)
        have hfail := threadStep_failed hr hmem.1 hmem.2 fun i => (hb.shards i).index_eq
        rw [hl] at hfail
        cases hfail
  refine Transition.along_of_invariant hstep (fun s l _ hinv => ?_) hls
    ⟨base_initial cfg hash now src, fun t ht => by cases ht⟩
  rw [givesUp_eq_exhausts hq]
  cases l with
  | run i c =>
      simp only [exhausts]
      split
      · next t hi => exact absurd (List.mem_of_getElem? hi) (hinv.2 t)
      · rfl
  | _ => rfl

/-! ### Durability -/

/-- What is synced in the source is so in its dictionary. -/
theorem inDict_of_synced {now : T} {src : Source α V} {κ : Type} [DecidableEq κ] {py : KeyClasses cfg hash κ}
    {dict : OrderedDict κ V} {ls : List (Label α V T)} {s : System α V cfg} (hwb : cfg.writeMode = .writeBack)
    (hdict : ∀ k, src.get? k = dict.get? (py.ident k)) (h : exec cfg hash (initial cfg now src) ls = some s)
    (hrouted : py.Routed s.shared.log) (hsynced : ∀ k, Synced s.shared k) (k : Key α) (o : ℕ) (op : WriteOp V)
    (hl : lastWrite k s.shared.log = some (o, op)) :
    (py.sourceDict dict s.shared.log).get? (py.ident k) = op.outcome :=
  (sourceDict_exec hwb hdict h hrouted (occurs_of_lastWrite hl)).trans (hsynced k o op hl)

/-- **`close(flush=True)` persists the last writes** of a run with a reliable source and an unbounded
queue, if no put evicted its own key while no flush of it was pending, no worker overtook another one,
where no worker pool is running when `close` is called, every key whose last write is a put is
resident then, and equal keys are routed alike. -/
theorem close_persists {cfg : AcceptedConfig T} {hash : Key α → ℕ} {now : T} {src : Source α V}
    {κ : Type} [DecidableEq κ] (py : KeyClasses cfg hash κ) {dict : OrderedDict κ V}
    (hdict : ∀ k, src.get? k = dict.get? (py.ident k)) {ls₁ ls₂ : List (Label α V T)}
    {s s' : System α V cfg} (hwb : cfg.writeMode = .writeBack)
    (hq : cfg.queueSize = 0) (h₁ : exec cfg hash (initial cfg now src) ls₁ = some s)
    (hopen : ∀ l ∈ ls₁, l.closes = false)
    (hrest : ∀ th ∈ s.threads, th.role = .worker ∨ th.isFinished = true)
    (h₂ : exec cfg hash s (.call (.close (some true)) :: ls₂) = some s')
    (halone : ∀ l ∈ ls₂, l.enters = false)
    (hdone : s'.threads[s.threads.length]? = some (Thread.finished .done))
    (hreliable : ∀ l ∈ ls₁ ++ .call (.close (some true)) :: ls₂, l.Reliable)
    (hsteps : Transition.Along (step cfg hash)
      (fun s l => losesMark hash s l = false ∧ overtakes s l = false) (initial cfg now src)
      (ls₁ ++ .call (.close (some true)) :: ls₂))
    (hresident : s.shared.poolStarted = false → ∀ k o v, lastWrite k s.shared.log = some (o, WriteOp.put v) →
      ((s.shared.home hash k).backend.getEntry k).isSome)
    (hrouted : py.Routed s'.shared.log) :
    ∀ k o op, lastWrite k s'.shared.log = some (o, op) →
      (py.sourceDict dict s'.shared.log).get? (py.ident k) = op.outcome := by
  apply inDict_of_synced hwb hdict (Transition.run_append_eq_some.mpr ⟨s, h₁, h₂⟩) hrouted
  have hgive := along_givesUp_eq_false hash hq now src hreliable
  refine close_rule (I := fun c => c.Ident ∧ c.Sound ∧ c.Flushed)
    (W := fun sh => sh.queue.lost = [] ∧ (sh.poolStarted = false → ∀ k o v, lastWrite k sh.log = some (o, WriteOp.put v) →
      ((sh.home hash k).timed k).isSome))
    hwb ?_ (fun k => ⟨ident_initial cfg hash k now src, ?_, ?_⟩) ?_ ?_ h₁ hopen hrest h₂ halone hdone
    (hsteps.and hgive) ⟨?_, ?_⟩
  · rintro s l s' k ⟨⟨hmark, hover⟩, hgive⟩ - hm ⟨hi, hs, hf⟩ hsteps
    have hmark' : ¬ (permit hash k s l s').loseMark := by simp [permit, hmark]
    have hover' : ¬ (permit hash k s l s').overtake := by simp [permit, hover]
    have hdirect : ¬ (permit hash k s l s').direct := by simp [permit, hwb]
    exact ⟨hi.steps hm hmark' hsteps, hs.steps hi hm hmark' hover' hdirect hsteps,
      hf.steps hi hm hmark' hover' hdirect (by simp [permit, hgive]) hsteps⟩
  · rw [view_initial]
    exact ⟨by simp, by simp⟩
  · rw [view_initial]
    exact ⟨by simp, by simp, by simp⟩
  · -- without a pool the first part of `close` changes neither the writes nor what is resident
    rintro j s l s' - hl hopening hs ⟨hlost, hw⟩
    refine ⟨(step_lost (enqueueRaises_of_unbounded hq s l) hs).trans hlost, fun hpool k o v hlast => ?_⟩
    obtain ⟨hsame, hkeeps⟩ := hopening.keeps hwb hl hs
    have hpool' := hsame.symm.trans hpool
    obtain ⟨hlog, htimed⟩ := hkeeps hpool'
    rw [Shared.home, htimed]
    exact hw hpool' k o v (hlog ▸ hlast)
  · rintro s solo hcells ⟨hlost, hw⟩ hsolo hnone
    have hidle : ¬ solo → ∀ k, Synced s.shared k := by
      intro hns k o op hl
      have htickets : s.tickets = [] :=
        List.eq_nil_iff_forall_not_mem.mpr fun t ht => by simpa [hlost] using hnone hns t ht
      exact (hcells k).2.2.2.source_eq (System.jobs_eq_zero htickets k) hl
    refine remains_of_cells (fun k => ⟨(hcells k).1, (hcells k).2.1⟩) (fun k => ?_)
      fun hns k _ _ _ => hidle hns k
    by_cases hs : solo
    · obtain ⟨hm, hi, hsound, hflushed⟩ := hcells k
      have hkept : (view hash k s).Kept := hflushed.kept hi fun o v hl => by
        have hres := hw (hsolo hs) k o v hl
        rwa [CacheShard.timed, Option.isSome_map, ← Option.isSome_map (f := CacheEntry.held)] at hres
      exact synced_or fun o op hl => hkept.settled_or_owes hsound hl
    · exact .inl (hidle hs k)
  · exact lost_exec (Transition.along_of_forall (fun l _ s => enqueueRaises_of_unbounded hq s l) _) h₁
  · intro hpool k o v hl
    rw [CacheShard.timed, Option.isSome_map]
    exact hresident hpool k o v hl

/-- A put that a worker flushed before `close` was called. -/
theorem close_persists_one_put :
    ∃ s s' : System ℕ ℕ (oneEntry .lru .writeBack 1 0 0),
      exec _ (fun _ => 0) (initial _ 0 .empty)
        [.start, .call (.put (some 1) 10 .unset), .run 1 {}, .run 1 {}, .run 1 {}, .run 0 {}, .run 0 {},
          .run 0 {}, .run 0 {}, .run 0 {}] = some s ∧
      exec _ (fun _ => 0) s (.call (.close (some true)) :: List.replicate 9 (.run 2 {})) = some s' ∧
      s'.threads[2]? = some (Thread.finished .done) ∧
      ((KeyClasses.distinct (oneEntry .lru .writeBack 1 0 0) fun _ => 0).sourceDict .empty s'.shared.log).get?
        (some 1) = some 10 := by
  have heval : ((exec (oneEntry .lru .writeBack 1 0 0) (fun _ => 0) (initial _ 0 .empty)
      [.start, .call (.put (some 1) 10 .unset), .run 1 {}, .run 1 {}, .run 1 {}, .run 0 {}, .run 0 {},
        .run 0 {}, .run 0 {}, .run 0 {}]).bind fun s : System ℕ ℕ (oneEntry .lru .writeBack 1 0 0) =>
      (exec _ (fun _ => 0) s (.call (.close (some true)) :: List.replicate 9 (.run 2 {}))).map fun s' =>
        decide ((∀ th ∈ s.threads, th.role = .worker ∨ th.isFinished = true) ∧ s.threads.length = 2 ∧
          s.shared.poolStarted = true ∧ s'.threads[2]? = some (Thread.finished .done) ∧
          (lastWrite (some 1) s'.shared.log).map Prod.snd = some (WriteOp.put 10))) = some true := by
    decide +kernel
  obtain ⟨s, hs, heval⟩ := Option.bind_eq_some_iff.mp heval
  obtain ⟨s', hs', heval⟩ := Option.map_eq_some_iff.mp heval
  obtain ⟨hrest, hlen, hpool, hdone, hlast⟩ := of_decide_eq_true heval
  obtain ⟨⟨o, op⟩, hl, rfl⟩ := Option.map_eq_some_iff.mp hlast
  refine ⟨s, s', hs, hs', hdone, close_persists (.distinct _ _) (fun _ => rfl) rfl rfl hs (by decide) hrest hs'
    (by decide) (hlen.symm ▸ hdone) ?_ (by decide +kernel) (fun h => ?_) (KeyClasses.routed_distinct _)
    (some 1) o _ hl⟩
  · simp [Label.Reliable, List.replicate]
  · rw [hpool] at h
    cases h

/-- Without a running pool, a put that was evicted before `close` is only in the queue, and `close`
discards the queue. -/
theorem close_drops_evicted_put :
    ∃ (ls₁ ls₂ : List (Label ℕ ℕ ℕ)) (s s' : System ℕ ℕ (oneEntry .lru .writeBack 0 0 0)),
      exec _ (fun _ => 0) (initial _ 0 .empty) ls₁ = some s ∧ (∀ l ∈ ls₁, l.closes = false) ∧
      (∀ th ∈ s.threads, th = .finished .done) ∧
      exec _ (fun _ => 0) s (.call (.close (some true)) :: ls₂) = some s' ∧
      (∀ l ∈ ls₂, l.enters = false) ∧ s'.threads[s.threads.length]? = some (Thread.finished .done) ∧
      (∀ l ∈ ls₁ ++ .call (.close (some true)) :: ls₂, l.Reliable) ∧
      ∃ o op, lastWrite (some 1) s'.shared.log = some (o, op) ∧
        ((KeyClasses.distinct (oneEntry .lru .writeBack 0 0 0) fun _ => 0).sourceDict .empty s'.shared.log).get?
          (some 1) ≠ op.outcome := by
  have heval : ((exec (oneEntry .lru .writeBack 0 0 0) (fun _ => 0) (initial _ 0 .empty)
      [.call (.put (some 1) 10 .unset), .run 0 {}, .run 0 {}, .run 0 {},
        .call (.put (some 2) 20 .unset), .run 1 {}, .run 1 {}, .run 1 {}]).bind
      fun s : System ℕ ℕ (oneEntry .lru .writeBack 0 0 0) =>
      (exec _ (fun _ => 0) s (.call (.close (some true)) :: List.replicate 14 (.run 2 {}))).map fun s' =>
        decide ((∀ th ∈ s.threads, th = .finished .done) ∧
          s'.threads[s.threads.length]? = some (Thread.finished .done) ∧
          (lastWrite (some 1) s'.shared.log).map Prod.snd = some (WriteOp.put 10) ∧
          ((KeyClasses.distinct (oneEntry .lru .writeBack 0 0 0) fun _ => 0).sourceDict .empty s'.shared.log).get?
            (some 1) = none)) = some true := by
    decide +kernel
  obtain ⟨s, hs, heval⟩ := Option.bind_eq_some_iff.mp heval
  obtain ⟨s', hs', heval⟩ := Option.map_eq_some_iff.mp heval
  obtain ⟨hrest, hdone, hlast, hsource⟩ := of_decide_eq_true heval
  obtain ⟨⟨o, op⟩, hl, rfl⟩ := Option.map_eq_some_iff.mp hlast
  refine ⟨_, _, s, s', hs, by decide, hrest, hs', by decide, hdone, ?_, o, .put 10, hl, ?_⟩
  · simp [Label.Reliable, List.replicate]
  · intro h
    cases hsource.symm.trans h

/-- A cache with two shards. -/
def splitShards : AcceptedConfig ℕ :=
  ⟨{ capacity := 2, shardCount := 2, writeMode := .writeBack, schedulerInterval := 1, queuePutTimeout := 1 }, rfl⟩

/-- Two keys that are equal in Python and are routed to different shards, as `(1,)` and `(1.0,)` can be. -/
def intAndFloat : KeyClasses splitShards (fun k => if k = some true then 1 else 0) (Option Unit) where
  ident := Option.map fun _ => ()
  faithful := by decide

/-- Where equal keys are routed to different shards, one of them shadows the other one in the source: the put of the
float is the older one, but `close` flushes it last. -/
theorem close_mixes_up_equal_keys :
    ∃ (ls₁ ls₂ : List (Label Bool ℕ ℕ)) (s s' : System Bool ℕ splitShards),
      exec _ (fun k => if k = some true then 1 else 0) (initial _ 0 .empty) ls₁ = some s ∧
      exec _ (fun k => if k = some true then 1 else 0) s (.call (.close (some true)) :: ls₂) = some s' ∧
      s'.threads[s.threads.length]? = some (Thread.finished .done) ∧
      (lastWrite (some false) s'.shared.log).map Prod.snd = some (WriteOp.put 10) ∧
      (intAndFloat.sourceDict .empty s'.shared.log).get? (intAndFloat.ident (some false)) = some 20 := by
  have heval : ((exec splitShards (fun k => if k = some true then 1 else 0) (initial _ 0 .empty)
      [.call (.put (some true) 20 .unset), .run 0 {}, .run 0 {}, .run 0 {},
        .call (.put (some false) 10 .unset), .run 1 {}, .run 1 {}, .run 1 {}]).bind
      fun s : System Bool ℕ splitShards =>
      (exec _ (fun k => if k = some true then 1 else 0) s
        (.call (.close (some true)) :: List.replicate 23 (.run 2 {}))).map fun s' =>
        decide (s'.threads[s.threads.length]? = some (Thread.finished .done) ∧
          (lastWrite (some false) s'.shared.log).map Prod.snd = some (WriteOp.put 10) ∧
          (intAndFloat.sourceDict .empty s'.shared.log).get? (intAndFloat.ident (some false)) = some 20)) =
      some true := by
    decide +kernel
  obtain ⟨s, hs, heval⟩ := Option.bind_eq_some_iff.mp heval
  obtain ⟨s', hs', heval⟩ := Option.map_eq_some_iff.mp heval
  exact ⟨_, _, s, s', hs, hs', of_decide_eq_true heval⟩

/-! ### Recovery -/

/-- The event neither evicts an entry nor stores one with a lifetime of its own. -/
def Event.lasting : Event α V T → Bool
  | .stored _ _ (.seconds _) _ => false
  | .evicted _ => false
  | _ => true

/-- Without lifetimes no deadline is set. -/
theorem history_of_lasting {log : List (Event α V T)} (httl : ∀ t, cfg.defaultTtl = some t → t ≤ 0)
    (h : ∀ e ∈ log, e.lasting = true) {v : V} {d : Option T} (hd : history cfg hash k log = some (v, d)) :
    d = none := by
  induction log generalizing v d with
  | nil => cases hd
  | cons e log ih =>
      have hlog : ∀ e' ∈ log, e'.lasting = true := fun e' he' => h e' (List.mem_cons_of_mem e he')
      rw [history] at hd
      split_ifs at hd
      · cases e with
        | stored key value ttl now =>
            obtain ⟨-, rfl⟩ := Prod.mk.inj (Option.some.inj hd)
            cases ttl with
            | seconds t => cases h _ List.mem_cons_self
            | never => rfl
            | unset =>
                simp only [deadline]
                split
                · next p hp => exact ih hlog (v := p.1) (Option.filter_eq_some_iff.mp hp).1
                · have hnone : cfg.defaultTtl.filter (fun t => decide (0 < t)) = none := by
                    cases hdef : cfg.defaultTtl with
                    | none => rfl
                    | some t => simp [Option.filter, httl t hdef]
                  rw [hnone]
                  rfl
        | _ => cases hd
      · exact ih hlog hd

/-- An effect adds events to the log. -/
theorem Effect.log {c : Choice α V} {s s' : Shared α V cfg} {th : Thread α V T}
    {after : List (Stage × Ticket α V)} (h : Effect hash c s th s' after) :
    ∃ new, s'.log = new ++ s.log := by
  cases h with
  | tend i ht hnow hshards hsource hlog hshift => exact ⟨[], hlog⟩
  | put key value ttl caller hth hs => exact ⟨_, hs.log_eq⟩
  | delete key ok hth hs => exact ⟨_, hs.log_eq⟩
  | clear i ok ts hth hs => exact ⟨_, hs.log_eq⟩
  | apply t hth hok hs => exact ⟨_, hs.log_eq⟩
  | check t hth i hi hst hs => exact ⟨[], hs.log_eq⟩
  | skip t hth hrel i hi hst hs => exact ⟨[], hs.log_eq⟩
  | fail t hth hs => exact ⟨[], hs.log_eq⟩
  | giveUp ts hth hgive hs => exact ⟨[], hs.log_eq⟩
  | release t ts hth hrel i hi hs => exact ⟨[], hs.log_eq⟩
  | settle t hth hrel i hi hs => exact ⟨[], hs.log_eq⟩
  | collect i hth hwb hs => exact ⟨[], hs.log_eq⟩

/-- The log only grows. -/
theorem step_log {s s' : System α V cfg} {l : Label α V T} (h : step cfg hash s l = some s')
    (hb : Base hash s) : ∃ new, s'.shared.log = new ++ s.shared.log := by
  rcases step_cases h with ⟨now, -, -, rfl⟩ | ⟨new, -, hsame, -⟩ | ⟨i, c, th, th', -, hi, hr, -⟩
  · exact ⟨[], rfl⟩
  · exact ⟨[], hsame.log_eq⟩
  · have hmem := List.mem_of_getElem? hi
    rcases threadStep_effect hr (hb.threads th hmem).2 (hb.flushing_mode hmem) with
      ⟨-, heff⟩ | ⟨-, hwound, -⟩
    · exact heff.log
    · rcases hwound.source with ⟨-, hlog⟩ | ⟨-, t, -, hlog⟩
      · exact ⟨[], hlog⟩
      · exact ⟨[.applied t], hlog⟩

/-- A put that evicts its own key leaves an event that says so. -/
theorem evicted_of_losesMark {s s' : System α V cfg} {l : Label α V T} (h : step cfg hash s l = some s')
    (hb : Base hash s) (hl : losesMark hash s l = true) : ∃ key, .evicted key ∈ s'.shared.log := by
  cases l with
  | run i c =>
      simp only [step, Option.bind_eq_some_iff, Option.map_eq_some_iff] at h
      obtain ⟨th, hi, r, hr, rfl⟩ := h
      simp only [losesMark, hi] at hl
      split at hl
      · next key value ttl caller heq =>
          cases heq
          simp only [Bool.and_eq_true, decide_eq_true_eq] at hl
          obtain ⟨⟨hwb, hv⟩, -⟩ := hl
          have hok : ¬ (cfg.writeMode = .writeThrough ∧ c.ok key = false) := by simp [hwb]
          obtain ⟨-, gone, hdone⟩ := putSection_of_returned hb.shards key value ttl hok
          refine ⟨key, ?_⟩
          have hmem : key ∈ gone := by
            rw [hdone.gone_iff, CacheShard.victims_stored]
            exact hv
          rw [(threadStep_put hr).1.log_eq, hdone.log_eq, List.mem_append, List.mem_reverse]
          exact .inl (List.mem_cons_of_mem _ (List.mem_map_of_mem hmem))
      · cases hl
  | _ => cases hl

/-- Nothing was evicted or given a lifetime so far, and the shards hold what the log says. -/
structure Lasting (hash : Key α → ℕ) (s : System α V cfg) : Prop where
  base : Base hash s
  events : ∀ e ∈ s.shared.log, e.lasting = true
  tracks : ∀ k, Tracks ((s.shared.home hash k).timed k) (history cfg hash k s.shared.log) s.shared.now

/-- If nothing was evicted or given a lifetime in the end, then at no point of the run. -/
theorem along_lasting {now : T} {src : Source α V} {ls : List (Label α V T)} {s : System α V cfg}
    (hrun : exec cfg hash (initial cfg now src) ls = some s) (h : ∀ e ∈ s.shared.log, e.lasting = true) :
    Transition.Along (step cfg hash) (fun s l => Lasting hash s ∧ ∀ s', step cfg hash s l = some s' → Lasting hash s')
      (initial cfg now src) ls := by
  have hbase := base_initial cfg hash now src
  have hlast := (Transition.along_of_final (Q := fun s : System α V cfg => ∀ e ∈ s.shared.log, e.lasting = true)
    (fun s l s' hs hb => Base.step hb hs)
    (fun s l s' hs hb hQ e he => by
      obtain ⟨new, hnew⟩ := step_log hs hb
      exact hQ e (hnew ▸ List.mem_append_right _ he))
    hrun hbase h).2
  have htracks : Transition.Along (step cfg hash)
      (fun s _ => Base hash s ∧ ∀ k, Tracks ((s.shared.home hash k).timed k)
        (history cfg hash k s.shared.log) s.shared.now)
      (initial cfg now src) ls :=
    Transition.along_of_invariant (R := fun _ => True)
      (fun s l s' _ hs hinv => ⟨hinv.1.step hs, fun k => tracks_step hs hinv.1 k (hinv.2 k)⟩)
      (fun s l _ hinv => hinv) (fun _ _ => trivial) ⟨hbase, fun k => .inl rfl⟩
  refine (hlast.and htracks).mono ?_
  rintro s l ⟨⟨hl, hl'⟩, hb, ht⟩
  exact ⟨⟨hb, hl, ht⟩, fun s' hs => ⟨hb.step hs, hl' s' hs, fun k => tracks_step hs hb k (ht k)⟩⟩

/-- Where nothing was given a lifetime, no entry has a deadline. -/
theorem timeless_of_lasting {sh : Shared α V cfg} (httl : ∀ t, cfg.defaultTtl = some t → t ≤ 0)
    (ht : Tracks ((sh.home hash k).timed k) (history cfg hash k sh.log) sh.now)
    (hl : ∀ e ∈ sh.log, e.lasting = true) (v : V) (d : T) : (sh.home hash k).timed k ≠ some (v, some d) := by
  intro hd
  rcases ht with heq | ⟨hnone, -⟩
  · cases history_of_lasting httl hl (heq ▸ hd)
  · rw [hnone] at hd
    cases hd

/-- A step between two such states loses no mark and drops no entry. -/
theorem Lasting.permit {s s' : System α V cfg} {l : Label α V T} (h : Lasting hash s) (h' : Lasting hash s')
    (httl : ∀ t, cfg.defaultTtl = some t → t ≤ 0) (hs : step cfg hash s l = some s') (k : Key α) :
    ¬ (permit hash k s l s').loseMark ∧ ¬ (permit hash k s l s').drop := by
  have hno : ∀ key, .evicted key ∉ s'.shared.log := fun key hmem => by cases h'.events _ hmem
  constructor
  · intro hl
    obtain ⟨key, hmem⟩ := evicted_of_losesMark hs h.base hl
    exact hno key hmem
  · rintro (⟨v, d, hd⟩ | hmem)
    · exact timeless_of_lasting httl (h.tracks k) h.events v d hd
    · exact hno k hmem

/-- **`close(flush=True)` recovers what could not be flushed**, with at most one worker, any queue bound
and any pattern of source failures, when nothing was evicted and nothing has a deadline, if no step
dropped a tombstone that the source had not seen and equal keys are routed alike. -/
theorem close_recovers {cfg : AcceptedConfig T} {hash : Key α → ℕ} {now : T} {src : Source α V}
    {κ : Type} [DecidableEq κ] (py : KeyClasses cfg hash κ) {dict : OrderedDict κ V}
    (hdict : ∀ k, src.get? k = dict.get? (py.ident k)) {ls₁ ls₂ : List (Label α V T)}
    {s s' : System α V cfg} (hwb : cfg.writeMode = .writeBack)
    (hone : cfg.workerCount ≤ 1) (httl : ∀ t, cfg.defaultTtl = some t → t ≤ 0)
    (h₁ : exec cfg hash (initial cfg now src) ls₁ = some s) (hopen : ∀ l ∈ ls₁, l.closes = false)
    (hrest : ∀ th ∈ s.threads, th.role = .worker ∨ th.isFinished = true)
    (h₂ : exec cfg hash s (.call (.close (some true)) :: ls₂) = some s')
    (halone : ∀ l ∈ ls₂, l.enters = false)
    (hdone : s'.threads[s.threads.length]? = some (Thread.finished .done))
    (hlasting : ∀ e ∈ s'.shared.log, e.lasting = true)
    (hforget : Transition.Along (step cfg hash) (fun s l => forgets hash s l = false)
      (initial cfg now src) (ls₁ ++ .call (.close (some true)) :: ls₂))
    (hrouted : py.Routed s'.shared.log) :
    ∀ k o op, lastWrite k s'.shared.log = some (o, op) →
      (py.sourceDict dict s'.shared.log).get? (py.ident k) = op.outcome := by
  apply inDict_of_synced hwb hdict (Transition.run_append_eq_some.mpr ⟨s, h₁, h₂⟩) hrouted
  have hover := along_overtakes_eq_false hash hone now src (ls₁ ++ .call (.close (some true)) :: ls₂)
  have hlast := along_lasting (Transition.run_append_eq_some.mpr ⟨s, h₁, h₂⟩) hlasting
  refine close_rule (I := fun c => c.Ident ∧ c.Sound ∧ c.Kept)
    (W := fun sh => (∀ k, Tracks ((sh.home hash k).timed k) (history cfg hash k sh.log) sh.now) ∧
      ∀ e ∈ sh.log, e.lasting = true)
    hwb ?_ (fun k => ⟨ident_initial cfg hash k now src, ?_, ?_⟩) ?_ ?_ h₁ hopen hrest h₂ halone hdone
    ((hforget.and hover).and hlast) ⟨fun k => tracks_exec h₁ k, (hlast.right h₁).1.1.events⟩
  · rintro s l s' k ⟨⟨hforget, hover⟩, hl, hl'⟩ hs hm ⟨hi, hsound, hkept⟩ hsteps
    obtain ⟨hmark, hdrop⟩ := hl.permit (hl' s' hs) httl hs k
    have hdirect : ¬ (permit hash k s l s').direct := by simp [permit, hwb]
    exact ⟨hi.steps hm hmark hsteps,
      hsound.steps hi hm hmark (by simp [permit, hover]) hdirect hsteps,
      hkept.steps hi hm hmark hdirect (by simp [permit, hforget]) hdrop hsteps⟩
  · rw [view_initial]
    exact ⟨by simp, by simp⟩
  · rw [view_initial]
    exact ⟨by simp, by simp⟩
  · rintro j s l s' ⟨-, -, hl'⟩ - - hs -
    exact ⟨(hl' s' hs).tracks, (hl' s' hs).events⟩
  · rintro s solo hcells ⟨ht, hl⟩ - -
    refine remains_of_cells (fun k => ⟨(hcells k).1, (hcells k).2.1⟩)
      (fun k => synced_or fun o op hlast => (hcells k).2.2.2.settled_or_owes (hcells k).2.2.1 hlast)
      fun _ k v d hd => absurd hd (timeless_of_lasting httl (ht k) hl v d)

/-- A put whose flush job failed with no retries left is recovered. -/
theorem close_recovers_failed_put :
    ∃ s s' : System ℕ ℕ (oneEntry .lru .writeBack 1 0 0),
      exec _ (fun _ => 0) (initial _ 0 .empty)
        [.start, .call (.put (some 1) 10 .unset), .run 1 {}, .run 1 {}, .run 1 {}, .run 0 {}, .run 0 {},
          .run 0 { ok := fun _ => false }, .run 0 {}, .run 0 {}, .run 0 {}] = some s ∧
      s.shared.source.get? (some 1) = none ∧
      exec _ (fun _ => 0) s (.call (.close (some true)) :: (List.replicate 4 (Label.run 2 {}) ++
        List.replicate 5 (Label.run 0 {}) ++ List.replicate 6 (Label.run 2 {}))) = some s' ∧
      s'.threads[2]? = some (Thread.finished .done) ∧
      ((KeyClasses.distinct (oneEntry .lru .writeBack 1 0 0) fun _ => 0).sourceDict .empty s'.shared.log).get?
        (some 1) = some 10 := by
  have heval : ((exec (oneEntry .lru .writeBack 1 0 0) (fun _ => 0) (initial _ 0 .empty)
      [.start, .call (.put (some 1) 10 .unset), .run 1 {}, .run 1 {}, .run 1 {}, .run 0 {}, .run 0 {},
        .run 0 { ok := fun _ => false }, .run 0 {}, .run 0 {}, .run 0 {}]).bind
      fun s : System ℕ ℕ (oneEntry .lru .writeBack 1 0 0) =>
      (exec _ (fun _ => 0) s (.call (.close (some true)) :: (List.replicate 4 (Label.run 2 {}) ++
        List.replicate 5 (Label.run 0 {}) ++ List.replicate 6 (Label.run 2 {})))).map fun s' =>
        decide ((∀ th ∈ s.threads, th.role = .worker ∨ th.isFinished = true) ∧ s.threads.length = 2 ∧
          s.shared.source.get? (some 1) = none ∧ s'.threads[2]? = some (Thread.finished .done) ∧
          (∀ e ∈ s'.shared.log, e.lasting = true) ∧
          (lastWrite (some 1) s'.shared.log).map Prod.snd = some (WriteOp.put 10))) = some true := by
    decide +kernel
  obtain ⟨s, hs, heval⟩ := Option.bind_eq_some_iff.mp heval
  obtain ⟨s', hs', heval⟩ := Option.map_eq_some_iff.mp heval
  obtain ⟨hrest, hlen, hbefore, hdone, hlasting, hlast⟩ := of_decide_eq_true heval
  obtain ⟨⟨o, op⟩, hl, rfl⟩ := Option.map_eq_some_iff.mp hlast
  exact ⟨s, s', hs, hbefore, hs', hdone, close_recovers (.distinct _ _) (fun _ => rfl) rfl le_rfl
    (fun t ht => by cases ht) hs (by decide) hrest hs' (by decide) (hlen.symm ▸ hdone) hlasting (by decide +kernel)
    (KeyClasses.routed_distinct _) (some 1) o _ hl⟩

/-- A delete whose flush job failed with no retries left is forgotten: its tombstone went with its
pending count, `close` has nothing to flush, and the source keeps the deleted value. -/
theorem close_forgets_failed_delete :
    ∃ (ls₁ ls₂ : List (Label ℕ ℕ ℕ)) (s s' : System ℕ ℕ (oneEntry .lru .writeBack 1 0 0)),
      exec _ (fun _ => 0) (initial _ 0 .empty) ls₁ = some s ∧ (∀ l ∈ ls₁, l.closes = false) ∧
      (∀ th ∈ s.threads, th.role = .worker ∨ th.isFinished = true) ∧
      exec _ (fun _ => 0) s (.call (.close (some true)) :: ls₂) = some s' ∧
      (∀ l ∈ ls₂, l.enters = false) ∧ s'.threads[s.threads.length]? = some (Thread.finished .done) ∧
      (∀ e ∈ s'.shared.log, e.lasting = true) ∧
      ∃ o op, lastWrite (some 1) s'.shared.log = some (o, op) ∧
        ((KeyClasses.distinct (oneEntry .lru .writeBack 1 0 0) fun _ => 0).sourceDict .empty s'.shared.log).get?
          (some 1) ≠ op.outcome := by
  have heval : ((exec (oneEntry .lru .writeBack 1 0 0) (fun _ => 0) (initial _ 0 .empty)
      [.start, .call (.put (some 1) 10 .unset), .run 1 {}, .run 1 {}, .run 1 {}, .run 0 {}, .run 0 {},
        .run 0 {}, .run 0 {}, .run 0 {}, .call (.delete (some 1)), .run 2 {}, .run 2 {}, .run 2 {},
        .run 0 {}, .run 0 {}, .run 0 { ok := fun _ => false }, .run 0 {}, .run 0 {}, .run 0 {}]).bind
      fun s : System ℕ ℕ (oneEntry .lru .writeBack 1 0 0) =>
      (exec _ (fun _ => 0) s (.call (.close (some true)) :: List.replicate 9 (.run 3 {}))).map fun s' =>
        decide ((∀ th ∈ s.threads, th.role = .worker ∨ th.isFinished = true) ∧
          s'.threads[s.threads.length]? = some (Thread.finished .done) ∧
          (∀ e ∈ s'.shared.log, e.lasting = true) ∧
          (lastWrite (some 1) s'.shared.log).map Prod.snd = some WriteOp.delete ∧
          ((KeyClasses.distinct (oneEntry .lru .writeBack 1 0 0) fun _ => 0).sourceDict .empty s'.shared.log).get?
            (some 1) = some 10)) = some true := by
    decide +kernel
  obtain ⟨s, hs, heval⟩ := Option.bind_eq_some_iff.mp heval
  obtain ⟨s', hs', heval⟩ := Option.map_eq_some_iff.mp heval
  obtain ⟨hrest, hdone, hlasting, hlast, hsource⟩ := of_decide_eq_true heval
  obtain ⟨⟨o, op⟩, hl, rfl⟩ := Option.map_eq_some_iff.mp hlast
  refine ⟨_, _, s, s', hs, by decide, hrest, hs', by decide, hdone, hlasting, o, .delete, hl, ?_⟩
  intro h
  cases hsource.symm.trans h

end CacheLab
