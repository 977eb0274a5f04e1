import CacheLab.System.Moves

/-!
# The cache refines write-behind, key by key

A step of the cache outside the synchronous flush of `close` is, for every key, a sequence of moves of
its cell (`view_steps`), so the invariants of `Lib/WriteBehindSafety.lean` hold of every key along
every run (`view_invariant`).

The moves that can do harm are allowed by a `Permit`; the predicates `losesMark`, `overtakes`,
`givesUp` and `forgets` say from the state before a step whether the step makes such a move.
-/

set_option linter.unusedSectionVars false

namespace CacheLab

variable {α V T : Type} [DecidableEq α] [LinearOrder T] [Zero T] [Add T] [Sub T]

open WriteBehind

variable {cfg : AcceptedConfig T} {hash : Key α → ℕ} {k : Key α}

/-! ### The moves that can do harm -/

/-- The step is a put in write-back mode that evicts its own key while no flush of it is pending, so
that the version mark is pruned before the flush of the put is registered. -/
def losesMark (hash : Key α → ℕ) (s : System α V cfg) : Label α V T → Bool
  | .run i _ =>
      match s.threads[i]? with
      | some (.running (.put key _ _) _) =>
          let sh := s.shared.home hash key
          decide (cfg.writeMode = .writeBack) &&
            decide (key ∈ (sh.dropExpired key s.shared.now).putVictims key) &&
            decide ((sh.pendingFlushes.get? key).getD 0 = 0)
      | _ => false
  | _ => false

/-- The thread is a worker whose job, for a write of `key` before position `origin`, passed the
staleness test and is about to be applied. -/
def Thread.lags (key : Key α) (origin : ℕ) : Thread α V T → Bool
  | .checked t => decide (t.job.key = key) && decide (t.origin < origin)
  | _ => false

/-- The step applies a flush job to the source while another worker is about to apply the job of an
older write of the same key. -/
def overtakes (s : System α V cfg) : Label α V T → Bool
  | .run i c =>
      match s.threads[i]? with
      | some (.checked t) => c.ok t.job.key && s.threads.any (Thread.lags t.job.key t.origin)
      | _ => false
  | _ => false

/-- The step gives up flush jobs: the queue refuses them, or their retries are exhausted. -/
def givesUp (s : System α V cfg) : Label α V T → Bool
  | .run i _ => (s.threads[i]?).any (Thread.givesUp s.shared)
  | _ => false

/-- The thread is a worker that took a job. -/
def Thread.handles : Thread α V T → Bool
  | .handling _ => true
  | _ => false

/-- The thread releases the last pending count of a tombstoned key that the source still holds a value
for. A worker that took a job releases it at once only if the job is stale. -/
def Thread.forgets (hash : Key α → ℕ) (s : Shared α V cfg) (th : Thread α V T) : Bool :=
  th.releases.any fun t =>
    let sh := s.home hash t.job.key
    (!th.handles || sh.isStale t.job) && (sh.tombstones.get? t.job.key).isSome &&
      decide ((sh.pendingFlushes.get? t.job.key).getD 0 = 1) &&
      (s.source.get? t.job.key).isSome

/-- The step drops a tombstone that the source has not seen. -/
def forgets (hash : Key α → ℕ) (s : System α V cfg) : Label α V T → Bool
  | .run i _ => (s.threads[i]?).any (Thread.forgets hash s.shared)
  | _ => false

/-- The step is part of the synchronous flush of `close`, or drains the queue. -/
def winds (s : System α V cfg) : Label α V T → Bool
  | .run i _ => (s.threads[i]?).any Thread.winding
  | _ => false

/-- What a step may do to the cell of `k`. -/
def permit (hash : Key α → ℕ) (k : Key α) (s : System α V cfg) (l : Label α V T) (s' : System α V cfg) :
    Permit where
  loseMark := losesMark hash s l = true
  overtake := overtakes s l = true
  giveUp := givesUp s l = true
  forget := forgets hash s l = true
  drop := (∃ v d, (s.shared.home hash k).timed k = some (v, some d)) ∨ .evicted k ∈ s'.shared.log
  direct := cfg.writeMode ≠ .writeBack

/-! ### One step of the system -/

/-- A job between test and application is held by a worker at that point. -/
theorem Thread.lags_of_mem {th : Thread α V T} {g : Flush V} (h : (Stage.checked, g) ∈ jobsOf k th.flushes)
    {n : ℕ} (hn : g.origin < n) : th.lags k n = true := by
  obtain ⟨⟨st, t⟩, hx, hxg⟩ := List.mem_filterMap.mp (Multiset.mem_coe.mp h)
  simp only [jobOf] at hxg
  split_ifs at hxg with hk
  cases hxg
  have hno : ∀ {st' : Stage} {ts : List (Ticket α V)}, st' ≠ .checked →
      (Stage.checked, t) ∉ staged st' ts := by
    intro st' ts hne hmem
    obtain ⟨t', -, heq⟩ := List.mem_map.mp hmem
    exact hne (Prod.mk.inj heq).1
  cases th with
  | checked t' =>
      rw [Thread.flushes, List.mem_singleton] at hx
      cases hx
      simp [Thread.lags, hk, hn]
  | clearing i ts => exact absurd hx (hno (by simp))
  | enqueuing ts caller => exact absurd hx (hno (by simp))
  | releasing ts caller => exact absurd hx (hno (by simp))
  | closeEnqueue i ts => exact absurd hx (hno (by simp))
  | closeRelease i ts => exact absurd hx (hno (by simp))
  | handling job => cases job <;> simp [Thread.flushes] at hx
  | _ => simp [Thread.flushes] at hx

/-- A worker that took a flush job holds that job. -/
theorem Thread.flushes_of_handles {th : Thread α V T} (h : th.handles = true) {t : Ticket α V}
    (hrel : th.releases = some t) : th.flushes = [(.waiting, t)] := by
  cases th with
  | handling job =>
      cases job with
      | flushWriteBack t' =>
          cases hrel
          rfl
      | _ => cases hrel
  | _ => cases h

/-- The jobs of a key, with those of one thread set apart. -/
theorem System.jobs_split {s : System α V cfg} {i : ℕ} {th : Thread α V T}
    (hi : s.threads[i]? = some th) (k : Key α) :
    ∃ R, s.jobs k = jobsOf k (staged .waiting s.shared.queue.tickets) + (jobsOf k th.flushes + R) ∧
      (∀ x ∈ R, ∃ th' ∈ s.threads, x ∈ jobsOf k th'.flushes) ∧
      ∀ (s' : System α V cfg) (th' : Thread α V T), s'.threads = s.threads.set i th' →
        s'.jobs k = jobsOf k (staged .waiting s'.shared.queue.tickets) + (jobsOf k th'.flushes + R) := by
  obtain ⟨R, hsum, hset⟩ := Transition.sum_map_set (fun th => jobsOf k th.flushes) hi
  refine ⟨R, by rw [System.jobs, hsum], fun x hx => ?_, fun s' th' hs' => ?_⟩
  · rw [← Transition.mem_sum_map_iff, hsum]
    exact Multiset.mem_add.mpr (.inr hx)
  · rw [System.jobs, hs', hset]

/-- The jobs of a key are among the outstanding tickets. -/
theorem System.jobs_eq_zero {s : System α V cfg} (h : s.tickets = []) (k : Key α) : s.jobs k = 0 := by
  obtain ⟨hq, hth⟩ := List.append_eq_nil_iff.mp h
  have hsum : (s.threads.map fun th => jobsOf k th.flushes).sum = 0 :=
    List.sum_eq_zero fun x hx => by
      obtain ⟨th, hmem, rfl⟩ := List.mem_map.mp hx
      rw [List.map_eq_nil_iff.mp (List.flatMap_eq_nil_iff.mp hth th hmem), jobsOf_nil]
  rw [System.jobs, hsum, hq]
  rfl

/-- **The cache refines write-behind**: a step outside the synchronous flush of `close` is, for every
key, a sequence of moves that its permit allows. -/
theorem view_steps {s s' : System α V cfg} {l : Label α V T} (h : step cfg hash s l = some s')
    (hb : Base hash s) (hw : winds s l = false) (hm : (view hash k s).Meta) :
    Cell.Steps (permit hash k s l s') (view hash k s) (view hash k s') := by
  rcases step_cases h with ⟨now, -, -, rfl⟩ | ⟨new, hnew, hsame, hth, -⟩ |
    ⟨i, c, th, th', rfl, hi, hstep, hset⟩
  · exact .refl
  · have hjobs : s'.jobs k = s.jobs k := by
      have hzero : (new.map fun th => jobsOf k th.flushes).sum = 0 :=
        List.sum_eq_zero fun x hx => by
          obtain ⟨th, hmem, rfl⟩ := List.mem_map.mp hx
          rw [(hnew th hmem).spec.1, jobsOf_nil]
      rw [System.jobs, System.jobs, hsame.tickets_eq, hth, List.map_append, List.sum_append, hzero, add_zero]
    rw [view, view, hjobs, Shared.cell_of_same hsame]
  · have hmem := List.mem_of_getElem? hi
    have hplace : ∀ x ∈ th.flushes, x.2.job.shardIndex = shardFor cfg hash x.2.job.key :=
      fun x hx => hb.tickets x.2 (System.mem_tickets_of_held hi (.inr (List.mem_map_of_mem hx)))
    obtain ⟨R, hjobs, hR, hjobs'⟩ := System.jobs_split hi k
    rcases threadStep_effect hstep (hb.threads th hmem).2 (hb.flushing_mode hmem) with
      ⟨-, heff⟩ | ⟨hwind, -⟩
    · rw [view, view, hjobs' s' th' hset, hjobs]
      refine heff.steps hb.shards hplace ⟨?_, ?_, ?_, ?_, ?_, ?_, ?_⟩
      · rintro value ttl caller rfl hwb hv hzero
        simp only [permit, losesMark, hi]
        simp only [CacheShard.slot] at hzero
        simp [hwb, hv, hzero]
      · rintro t rfl hok rfl g hg hlt
        obtain ⟨th₁, hmem₁, hg₁⟩ := hR _ hg
        simp only [permit, overtakes, hi, hok, Bool.true_and, List.any_eq_true]
        exact ⟨th₁, hmem₁, Thread.lags_of_mem hg₁ hlt⟩
      · intro hg
        simp [permit, givesUp, hi, hg]
      · rintro t hrel rfl hst ⟨htomb, hcard, hsource⟩
        rw [← hjobs] at hcard
        have hpend : ((s.shared.home hash t.job.key).pendingFlushes.get? t.job.key).getD 0 = 1 :=
          hm.pend_getD.trans hcard
        have hheld : (s.shared.source.get? t.job.key).isSome := Option.isSome_iff_ne_none.mpr hsource
        have htomb' : ((s.shared.home hash t.job.key).tombstones.get? t.job.key).isSome := htomb
        have hstale : (!th.handles || (s.shared.home hash t.job.key).isStale t.job) = true := by
          rw [Bool.or_eq_true, Bool.not_eq_true']
          exact (Bool.eq_false_or_eq_true th.handles).symm.imp_right fun hh =>
            hst (Thread.flushes_of_handles hh hrel)
        simp [permit, forgets, hi, Thread.forgets, hrel, hstale, htomb', hpend, hheld]
      · exact fun v d hv => .inl ⟨v, d, hv⟩
      · exact .inr
      · intro hwb
        have hnone := (hb.direct hwb).1
        have hzero := System.jobs_eq_zero hnone k
        rw [hjobs, add_eq_zero, add_eq_zero] at hzero
        obtain ⟨hq, -⟩ := List.append_eq_nil_iff.mp hnone
        have hheld : th.flushes = [] := List.map_eq_nil_iff.mp <| List.eq_nil_iff_forall_not_mem.mpr
          fun t ht => by
            have := System.mem_tickets_of_held hi (.inr ht)
            rw [hnone] at this
            cases this
        exact ⟨hwb, hq, hheld, hzero.2.2⟩
    · simp [winds, hi, hwind] at hw

/-! ### Runs -/

/-- The view of a fresh cache. -/
theorem view_initial (cfg : AcceptedConfig T) (hash : Key α → ℕ) (k : Key α) (now : T)
    (src : Source α V) :
    view hash k (initial cfg now src) = ⟨emptySlot, 0, src.get? k, none, [], 0⟩ := rfl

/-- The metadata of a fresh cache. -/
theorem meta_initial (cfg : AcceptedConfig T) (hash : Key α → ℕ) (k : Key α) (now : T)
    (src : Source α V) : (view hash k (initial cfg now src)).Meta :=
  ⟨rfl, fun e he => (by cases he), fun t ht => (by cases ht), fun m hm => (by cases hm)⟩

/-- **The run rule for cells**: what the moves of every step keep holds of every key, along a run
without the synchronous flush of `close` whose steps satisfy `P`. -/
theorem view_invariant {I : Cell V → Prop} {P : System α V cfg → Label α V T → Prop}
    (hI : ∀ s l s' k, P s l → step cfg hash s l = some s' → (view hash k s).Meta → I (view hash k s) →
      Cell.Steps (permit hash k s l s') (view hash k s) (view hash k s') → I (view hash k s'))
    {s s' : System α V cfg} {ls : List (Label α V T)} (hrun : exec cfg hash s ls = some s')
    (halong : Transition.Along (step cfg hash) (fun s l => winds s l = false ∧ P s l) s ls)
    (hb : Base hash s) (hm : ∀ k, (view hash k s).Meta) (hi : ∀ k, I (view hash k s)) :
    Base hash s' ∧ (∀ k, (view hash k s').Meta) ∧ ∀ k, I (view hash k s') := by
  have hstep : ∀ (s : System α V cfg) l s', winds s l = false ∧ P s l → step cfg hash s l = some s' →
      (Base hash s ∧ (∀ k, (view hash k s).Meta) ∧ ∀ k, I (view hash k s)) →
      Base hash s' ∧ (∀ k, (view hash k s').Meta) ∧ ∀ k, I (view hash k s') := by
    rintro s l s' ⟨hw, hp⟩ hs ⟨hb, hm, hi⟩
    exact ⟨hb.step hs, fun k => (hm k).steps (view_steps hs hb hw (hm k)),
      fun k => hI s l s' k hp hs (hm k) (hi k) (view_steps hs hb hw (hm k))⟩
  have hfinal := Transition.run_invariant hstep hrun halong ⟨hb, hm, hi⟩
  exact hfinal

end CacheLab
