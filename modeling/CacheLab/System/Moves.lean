import CacheLab.System.Writes
import CacheLab.Lib.WriteBehindSafety

/-!
# The cache from the point of view of one key

`view hash k s` is what the cache is about for one key: its slot in its shard, its outstanding flush
jobs wherever they are, its value in the source, its last write and the writes that reached the
source. What a thread does in one step outside the synchronous flush of `close` is, for each key, a
sequence of moves of the abstract cell of `Lib/WriteBehind.lean` (`Effect.steps`).
-/

set_option linter.unusedSectionVars false

namespace CacheLab

variable {α V T : Type} [DecidableEq α] [LinearOrder T] [Zero T] [Add T] [Sub T]

open WriteBehind

variable {cfg : AcceptedConfig T} {hash : Key α → ℕ} {k : Key α}

/-! ### The view of one key -/

/-- The write of `k` that an event says was applied to the source. -/
def Event.appliedOf (k : Key α) : Event α V T → Option ℕ
  | applied t => if t.job.key = k then some t.origin else none
  | _ => none

/-- The writes of `k` that reached the source, newest application first. -/
def appliedOf (k : Key α) (log : List (Event α V T)) : List ℕ := log.filterMap (Event.appliedOf k)

/-- The cell of a key, given its outstanding jobs. -/
def Shared.cell (hash : Key α → ℕ) (k : Key α) (s : Shared α V cfg) (jobs : Multiset (Stage × Flush V)) :
    Cell V where
  slot := (s.home hash k).slot k
  jobs := jobs
  source := s.source.get? k
  last := lastWrite k s.log
  applied := appliedOf k s.log
  clock := s.log.length

/-- The outstanding jobs of a key: queued, or held by a thread. -/
def System.jobs (k : Key α) (s : System α V cfg) : Multiset (Stage × Flush V) :=
  jobsOf k (staged .waiting s.shared.queue.tickets) + (s.threads.map fun th => jobsOf k th.flushes).sum

/-- **The cache from the point of view of one key.** -/
def view (hash : Key α → ℕ) (k : Key α) (s : System α V cfg) : Cell V := s.shared.cell hash k (s.jobs k)

/-- The cell does not see lifecycle, counters, flights and queue. -/
theorem Shared.cell_of_same {s s' : Shared α V cfg} (h : s.Same s') (J : Multiset (Stage × Flush V)) :
    s'.cell hash k J = s.cell hash k J := by
  simp only [Shared.cell, Shared.home, h.shards_eq, h.source_eq, h.log_eq]

/-! ### The log -/

/-- Events that are no writes of the key leave its last write alone. -/
theorem lastWrite_append {new log : List (Event α V T)} (h : ∀ e ∈ new, e.writeOf k = none) :
    lastWrite k (new ++ log) = lastWrite k log := by
  induction new with
  | nil => rfl
  | cons e new ih =>
      rw [List.cons_append, lastWrite, h e List.mem_cons_self]
      exact ih fun e' he' => h e' (List.mem_cons_of_mem e he')

/-- Events that apply no write of the key leave its applied writes alone. -/
theorem appliedOf_append {new log : List (Event α V T)} (h : ∀ e ∈ new, e.appliedOf k = none) :
    appliedOf k (new ++ log) = appliedOf k log := by
  rw [appliedOf, List.filterMap_append, List.filterMap_eq_nil_iff.mpr h, List.nil_append]
  rfl

/-- The last write after the events of a put. -/
theorem lastWrite_put {key : Key α} {value : V} {ttl : Ttl T} {now : T} {gone : List (Key α)}
    {log : List (Event α V T)} :
    lastWrite k ((Event.stored key value ttl now :: gone.map .evicted).reverse ++ log) =
      if k = key then some (log.length, .put value) else lastWrite k log := by
  rw [List.reverse_cons, List.append_assoc, lastWrite_append, List.singleton_append, lastWrite]
  · by_cases hk : k = key
    · simp [Event.writeOf, hk]
    · simp [Event.writeOf, hk, Ne.symm hk]
  · intro e he
    obtain ⟨g, -, rfl⟩ := List.mem_map.mp (List.mem_reverse.mp he)
    rfl

/-- A put applies nothing. -/
theorem appliedOf_put {key : Key α} {value : V} {ttl : Ttl T} {now : T} {gone : List (Key α)}
    {log : List (Event α V T)} :
    appliedOf k ((Event.stored key value ttl now :: gone.map .evicted).reverse ++ log) = appliedOf k log := by
  refine appliedOf_append fun e he => ?_
  rcases List.mem_cons.mp (List.mem_reverse.mp he) with rfl | he
  · rfl
  · obtain ⟨g, -, rfl⟩ := List.mem_map.mp he
    rfl

/-- The events of a clear. -/
abbrev clearEvents (i : ℕ) (done : List (Key α)) (raised : Bool) : List (Event α V T) :=
  (done.map Event.erased ++ if raised then [] else [Event.cleared i]).reverse

/-- A clear applies nothing. -/
theorem appliedOf_clear {i : ℕ} {done : List (Key α)} {raised : Bool} {log : List (Event α V T)} :
    appliedOf k (clearEvents i done raised ++ log) = appliedOf k log := by
  refine appliedOf_append fun e he => ?_
  rcases List.mem_append.mp (List.mem_reverse.mp he) with he | he
  · obtain ⟨g, -, rfl⟩ := List.mem_map.mp he
    rfl
  · split_ifs at he
    · cases he
    · rw [List.mem_singleton.mp he]
      rfl

/-- A clear does not write the keys it did not process. -/
theorem lastWrite_clear_of_notMem {i : ℕ} {done : List (Key α)} {raised : Bool}
    {log : List (Event α V T)} (hk : k ∉ done) :
    lastWrite k (clearEvents i done raised ++ log) = lastWrite k log := by
  refine lastWrite_append fun e he => ?_
  rcases List.mem_append.mp (List.mem_reverse.mp he) with he | he
  · obtain ⟨g, hg, rfl⟩ := List.mem_map.mp he
    have hne : g ≠ k := fun e => hk (e ▸ hg)
    simp [Event.writeOf, hne]
  · split_ifs at he
    · cases he
    · rw [List.mem_singleton.mp he]
      rfl

/-- A clear deletes each key it processed once, at the position of the key among them. -/
theorem lastWrite_clear_of_mem {i : ℕ} {pre post : List (Key α)} {raised : Bool}
    {log : List (Event α V T)} (hk : k ∉ post) :
    lastWrite k (clearEvents i (pre ++ k :: post) raised ++ log) =
      some (log.length + pre.length, WriteOp.delete) := by
  have hsplit : clearEvents i (pre ++ k :: post) raised =
      clearEvents i post raised ++ (.erased k :: clearEvents i pre true : List (Event α V T)) := by
    simp [clearEvents]
  rw [hsplit, List.append_assoc, lastWrite_clear_of_notMem hk, List.cons_append, lastWrite]
  simp [Event.writeOf, clearEvents, add_comm]

/-! ### The jobs of a section -/

/-- The jobs of a key among jobs of other keys. -/
theorem jobsOf_eq_zero {l : List (Stage × Ticket α V)} (h : ∀ x ∈ l, x.2.job.key ≠ k) :
    jobsOf k l = 0 := by
  rw [jobsOf, List.filterMap_eq_nil_iff.mpr fun x hx => by simp [jobOf, h x hx]]
  rfl

/-- One ticket. -/
theorem jobsOf_singleton (st : Stage) (t : Ticket α V) :
    jobsOf k [(st, t)] =
      if t.job.key = k then {(st, ⟨t.job.version, t.job.operation, t.origin⟩)} else 0 := by
  unfold jobsOf jobOf
  by_cases hk : t.job.key = k
  · simp [hk]
  · simp [hk]

/-- One ticket of the key in front. -/
theorem jobsOf_cons_self (st : Stage) (t : Ticket α V) (l : List (Stage × Ticket α V)) :
    jobsOf t.job.key ((st, t) :: l) =
      (st, ⟨t.job.version, t.job.operation, t.origin⟩) ::ₘ jobsOf t.job.key l := by
  rw [jobsOf_cons, jobsOf_singleton, if_pos rfl, Multiset.singleton_add]

/-- One ticket of another key in front. -/
theorem jobsOf_cons_of_ne {t : Ticket α V} (h : t.job.key ≠ k) (st : Stage)
    (l : List (Stage × Ticket α V)) : jobsOf k ((st, t) :: l) = jobsOf k l := by
  rw [jobsOf_cons, jobsOf_singleton, if_neg h, zero_add]

/-- The keys of the tickets of a section. -/
theorem key_of_mem_staged_ticketsFrom {st : Stage} {base : ℕ} {jobs : List (FlushWriteBack α V)}
    {x : Stage × Ticket α V} (h : x ∈ staged st (ticketsFrom base jobs)) : x.2.job ∈ jobs := by
  obtain ⟨t, ht, rfl⟩ := List.mem_map.mp h
  exact mem_ticketsFrom ht

/-- The jobs that a clear leaves for a key it processed. -/
theorem jobsOf_clear_of_mem {base : ℕ} {mk : Key α → FlushWriteBack α V} (hmk : ∀ k, (mk k).key = k)
    {pre post : List (Key α)} (hpre : k ∉ pre) (hpost : k ∉ post) :
    jobsOf k (staged .waiting (ticketsFrom base ((pre ++ k :: post).map mk))) =
      {(.waiting, ⟨(mk k).version, (mk k).operation, base + pre.length⟩)} := by
  have hne : ∀ {l : List (Key α)} {b : ℕ}, k ∉ l →
      jobsOf k (staged .waiting (ticketsFrom b (l.map mk))) = 0 := by
    intro l b hl
    refine jobsOf_eq_zero fun x hx => ?_
    obtain ⟨k', hk', hjob⟩ := List.mem_map.mp (key_of_mem_staged_ticketsFrom hx)
    rw [← hjob, hmk]
    exact fun e => hl (e ▸ hk')
  have hsplit : ticketsFrom base ((pre ++ k :: post).map mk) =
      ticketsFrom base (pre.map mk) ++
        ⟨mk k, base + pre.length⟩ :: ticketsFrom (base + pre.length + 1) (post.map mk) := by
    simp only [ticketsFrom, List.map_append, List.map_cons, List.mapIdx_append, List.mapIdx_cons,
      List.length_map, zero_add]
    congr 3
    funext i job
    congr 1
    omega
  rw [hsplit, staged_append, staged_cons, jobsOf_append, hne hpre, zero_add, jobsOf_cons, hne hpost,
    add_zero, jobsOf_singleton, if_pos (hmk k)]

/-! ### One step of a thread, from one key -/

/-- What a permit has to allow so that a step of the thread, whose own jobs come on top of the jobs `R`
of the other threads, is a sequence of moves. -/
structure Licence (hash : Key α → ℕ) (k : Key α) (c : Choice α V) (s s' : Shared α V cfg)
    (th : Thread α V T) (R : Multiset (Stage × Flush V)) (p : Permit) : Prop where
  loseMark : ∀ value ttl caller, th = .running (.put k value ttl) caller →
    cfg.writeMode = .writeBack → k ∈ ((s.home hash k).dropExpired k s.now).putVictims k →
    ((s.home hash k).slot k).pend.getD 0 = 0 → p.loseMark
  overtake : ∀ t, th = .checked t → c.ok t.job.key = true → t.job.key = k →
    ∀ g, (Stage.checked, g) ∈ R → g.origin < t.origin → p.overtake
  giveUp : th.givesUp s = true → p.giveUp
  forget : ∀ t, th.releases = some t → t.job.key = k →
    (th.flushes = [(.waiting, t)] → (s.home hash k).isStale t.job = true) →
    (s.cell hash k (jobsOf k (staged .waiting s.queue.tickets) + (jobsOf k th.flushes + R))).Forgets →
    p.forget
  expire : ∀ v d, (s.home hash k).timed k = some (v, some d) → p.drop
  evict : .evicted k ∈ s'.log → p.drop
  direct : cfg.writeMode ≠ .writeBack → p.direct ∧ s.queue.tickets = [] ∧ th.flushes = [] ∧ R = 0

section Moves

variable {c : Choice α V} {s s' : Shared α V cfg} {th : Thread α V T}
  {after : List (Stage × Ticket α V)} {R J : Multiset (Stage × Flush V)} {p : Permit}

/-- A section that is no write: nothing, or an expired entry is dropped. -/
theorem steps_tended {i : Fin cfg.shardCount} {sh' : CacheShard α V T} {now : T}
    (ht : (s.shards i).Tended now sh') (hshards : s'.shards = Function.update s.shards i sh')
    (hsource : s'.source = s.source) (hlog : s'.log = s.log)
    (hexp : ∀ v d, (s.home hash k).timed k = some (v, some d) → p.drop) :
    Cell.Steps p (s.cell hash k J) (s'.cell hash k J) := by
  by_cases hi : shardFor cfg hash k = i
  · rcases ht.key k with ⟨hslot, -⟩ | ⟨v, d, htimed, -, hslot, -⟩
    · have heq : s'.cell hash k J = s.cell hash k J := by
        simp only [Shared.cell, hsource, hlog, Shared.home_of_update hshards, if_pos hi, hslot]
        rw [Shared.home, hi]
      rw [heq]
    · have heq : s'.cell hash k J =
          { s.cell hash k J with slot := (s.cell hash k J).slot.remove } := by
        simp only [Shared.cell, hsource, hlog, Shared.home_of_update hshards, if_pos hi, hslot]
        rw [Shared.home, hi]
      rw [heq]
      exact .single (.drop _ fun _ => hexp v d (by rwa [Shared.home, hi]))
  · have heq : s'.cell hash k J = s.cell hash k J := by
      simp only [Shared.cell, hsource, hlog, Shared.home_of_update hshards, if_neg hi]
    rw [heq]

/-- The slot of a key after its lazy expiration: nothing, or an expired entry is dropped. -/
theorem steps_dropExpired (s : Shared α V cfg) (k : Key α) (J : Multiset (Stage × Flush V))
    (hexp : ∀ v d, (s.home hash k).timed k = some (v, some d) → p.drop) :
    Cell.Steps p (s.cell hash k J)
      { s.cell hash k J with slot := ((s.home hash k).dropExpired k s.now).slot k } := by
  have hsteps : Cell.Steps p (s.cell hash k J)
      ((s.setShard (shardFor cfg hash k) ((s.home hash k).dropExpired k s.now)).cell hash k J) :=
    steps_tended (CacheShard.tended_dropExpired (s.home hash k) k s.now) rfl rfl rfl hexp
  have heq : (s.setShard (shardFor cfg hash k) ((s.home hash k).dropExpired k s.now)).cell hash k J =
      { s.cell hash k J with slot := ((s.home hash k).dropExpired k s.now).slot k } := by
    unfold Shared.cell
    rw [Shared.home_of_update rfl, if_pos rfl]
    rfl
  rwa [heq] at hsteps

/-- Bookkeeping of a job of another key. -/
theorem cell_of_update_ne {i : Fin cfg.shardCount} {sh' : CacheShard α V T} {key : Key α}
    {x : Slot V} (hslot : sh'.slot = Function.update (s.shards i).slot key x) (hne : key ≠ k)
    (hs : (s.setShard i sh').Same s') (J : Multiset (Stage × Flush V)) :
    s'.cell hash k J = s.cell hash k J := by
  rw [Shared.cell_of_same hs]
  unfold Shared.cell
  rw [Shared.home_of_update rfl]
  split_ifs with hi
  · rw [hslot, Function.update_of_ne hne.symm, Shared.home, hi]
    rfl
  · rfl

/-- Bookkeeping of a job of the key. -/
theorem cell_of_update_self {i : Fin cfg.shardCount} {sh' : CacheShard α V T} {x : Slot V}
    (hslot : sh'.slot = Function.update (s.shards i).slot k x) (hi : shardFor cfg hash k = i)
    (hs : (s.setShard i sh').Same s') (J : Multiset (Stage × Flush V)) :
    s'.cell hash k J = { s.cell hash k J with slot := x } := by
  rw [Shared.cell_of_same hs]
  unfold Shared.cell
  rw [Shared.home_of_update rfl, if_pos hi, hslot, Function.update_self]
  rfl

/-- The clock after a put. -/
theorem PutDone.clock_le {key : Key α} {value : V} {ttl : Ttl T} {gone : List (Key α)}
    {ts : List (Ticket α V)} (hd : PutDone hash s key value ttl gone s' ts) :
    s.log.length + 1 ≤ s'.log.length := by
  rw [hd.log_eq, List.length_append, List.length_reverse, List.length_cons]
  omega

/-- A put, from its own key. -/
theorem PutDone.steps_self {value : V} {ttl : Ttl T} {gone : List (Key α)} {ts : List (Ticket α V)}
    (hd : PutDone hash s k value ttl gone s' ts)
    (hexp : ∀ v d, (s.home hash k).timed k = some (v, some d) → p.drop) (hevict : k ∈ gone → p.drop)
    (hlose : cfg.writeMode = .writeBack → k ∈ gone → ((s.home hash k).slot k).pend.getD 0 = 0 →
      p.loseMark)
    (hdirect : cfg.writeMode ≠ .writeBack → p.direct ∧ J = 0) :
    Cell.Steps p (s.cell hash k J) (s'.cell hash k (jobsOf k (staged .waiting ts) + J)) := by
  refine (steps_dropExpired s k J hexp).trans ?_
  have hpend : (((s.home hash k).dropExpired k s.now).slot k).pend = ((s.home hash k).slot k).pend := by
    rcases (CacheShard.tended_dropExpired (s.home hash k) k s.now).key k with ⟨hslot, -⟩ |
      ⟨-, -, -, -, hslot, -⟩
    · rw [hslot]
    · rw [hslot, Slot.remove_pend]
  have hlast : lastWrite k s'.log = some (s.log.length, WriteOp.put value) := by
    rw [hd.log_eq, lastWrite_put, if_pos rfl]
  have happlied : appliedOf k s'.log = appliedOf k s.log := by rw [hd.log_eq, appliedOf_put]
  have hslot := hd.slot_self
  have hadvance : ∀ {c₁ c₂ : Cell V}, c₂ = { c₁ with clock := s'.log.length } →
      c₁.clock = s.log.length + 1 → Cell.Step p c₁ c₂ := by
    rintro c₁ c₂ rfl hc
    exact .advance c₁ _ (hc.trans_le hd.clock_le)
  by_cases hwb : cfg.writeMode = .writeBack
  · have hjobs : jobsOf k (staged .waiting ts) = {(.waiting,
        ⟨(((s.home hash k).dropExpired k s.now).slot k).next, .put value, s.log.length⟩)} := by
      rw [hd.tickets_eq, CacheShard.putJobs, if_pos hwb]
      exact (jobsOf_singleton _ _).trans (if_pos rfl)
    refine .tail (.single (.store _ value (decide (k ∈ gone)) ?_ ?_)) ?_
    · intro hg hzero
      rw [hpend] at hzero
      exact hlose hwb (of_decide_eq_true hg) hzero
    · exact fun hg => hevict (of_decide_eq_true hg)
    · refine hadvance ?_ rfl
      ext1
      · rw [Shared.cell, hslot]
        simp [hwb]
      · rw [Shared.cell, hjobs, Multiset.singleton_add]
        rfl
      · simp [Shared.cell, hd.source_eq, CacheShard.putSource, hwb]
      · exact hlast
      · exact happlied
      · rfl
  · obtain ⟨hp, rfl⟩ := hdirect hwb
    have hjobs : jobsOf k (staged .waiting ts) = 0 := by
      rw [hd.tickets_eq, CacheShard.putJobs, if_neg hwb]
      rfl
    refine .tail (.single (.storeNow _ value (decide (k ∈ gone)) (s'.source.get? k) hp rfl ?_)) ?_
    · exact fun hg => hevict (of_decide_eq_true hg)
    · refine hadvance ?_ rfl
      ext1
      · rw [Shared.cell, hslot]
        simp [hwb]
      · rw [Shared.cell, hjobs, zero_add]
        rfl
      · rfl
      · exact hlast
      · exact happlied
      · rfl

/-- A put, from another key. -/
theorem PutDone.steps_of_ne {key : Key α} {value : V} {ttl : Ttl T} {gone : List (Key α)}
    {ts : List (Ticket α V)} (hd : PutDone hash s key value ttl gone s' ts) (hk : k ≠ key)
    (hevict : k ∈ gone → p.drop) :
    Cell.Steps p (s.cell hash k J) (s'.cell hash k (jobsOf k (staged .waiting ts) + J)) := by
  have hjobs : jobsOf k (staged .waiting ts) = 0 := by
    refine jobsOf_eq_zero fun x hx => ?_
    rw [hd.tickets_eq] at hx
    have hmem := key_of_mem_staged_ticketsFrom hx
    rw [CacheShard.putJobs] at hmem
    split_ifs at hmem
    · rw [List.mem_singleton.mp hmem]
      exact hk.symm
    · cases hmem
  have hsource : s'.source.get? k = s.source.get? k := by
    rw [hd.source_eq, CacheShard.putSource]
    split_ifs
    · rw [Source.get?_apply, if_neg hk]
    · rfl
  have hcell : s'.cell hash k J =
      { s.cell hash k J with
        slot := if k ∈ gone then ((s.home hash k).slot k).remove else (s.home hash k).slot k
        clock := s'.log.length } := by
    ext1
    · exact hd.slot_of_ne k hk
    · rfl
    · exact hsource
    · simp only [Shared.cell, hd.log_eq, lastWrite_put, if_neg hk]
    · simp only [Shared.cell, hd.log_eq, appliedOf_put]
    · rfl
  rw [hjobs, zero_add, hcell]
  have hclock : s.log.length ≤ s'.log.length := Nat.le_of_succ_le hd.clock_le
  split_ifs with hg
  · exact .trans (.single (.drop _ fun _ => hevict hg)) (.single (.advance _ s'.log.length hclock))
  · exact .single (.advance _ s'.log.length hclock)

/-- A key is erased at position `n`, by a delete or a clear. -/
theorem steps_erase {n : ℕ} {jobs : Multiset (Stage × Flush V)} (hn : s.log.length ≤ n)
    (hlen : n + 1 ≤ s'.log.length)
    (hslot : (s'.home hash k).slot k = CacheShard.erasedSlot cfg.toCacheConfig ((s.home hash k).slot k))
    (hsource : s'.source.get? k = if cfg.writeMode = .writeThrough then none else s.source.get? k)
    (hlast : lastWrite k s'.log = some (n, WriteOp.delete)) (happlied : appliedOf k s'.log = appliedOf k s.log)
    (hjobs : jobs =
      if cfg.writeMode = .writeBack then {(.waiting, ⟨((s.home hash k).slot k).next, .delete, n⟩)} else 0)
    (hdirect : cfg.writeMode ≠ .writeBack → p.direct ∧ J = 0) :
    Cell.Steps p (s.cell hash k J) (s'.cell hash k (jobs + J)) := by
  have hadvance : ∀ {c₁ c₂ : Cell V}, c₂ = { c₁ with clock := s'.log.length } → c₁.clock = n + 1 →
      Cell.Step p c₁ c₂ := by
    rintro c₁ c₂ rfl hc
    exact .advance c₁ _ (hc.trans_le hlen)
  refine .trans (.single (.advance _ n hn)) ?_
  by_cases hwb : cfg.writeMode = .writeBack
  · refine .tail (.single (.bury _)) (hadvance ?_ rfl)
    ext1
    · rw [Shared.cell, hslot, CacheShard.erasedSlot, if_pos hwb]
      rfl
    · rw [Shared.cell, hjobs, if_pos hwb, Multiset.singleton_add]
      rfl
    · simp [Shared.cell, hsource, hwb]
    · exact hlast
    · exact happlied
    · rfl
  · obtain ⟨hp, rfl⟩ := hdirect hwb
    refine .tail (.single (.eraseNow _ (s'.source.get? k) hp rfl)) (hadvance ?_ rfl)
    ext1
    · rw [Shared.cell, hslot, CacheShard.erasedSlot, if_neg hwb]
      rfl
    · rw [Shared.cell, hjobs, if_neg hwb, zero_add]
      rfl
    · rfl
    · exact hlast
    · exact happlied
    · rfl

/-- A write of other keys. -/
theorem steps_other (hslot : (s'.home hash k).slot k = (s.home hash k).slot k)
    (hsource : s'.source.get? k = s.source.get? k) (hlast : lastWrite k s'.log = lastWrite k s.log)
    (happlied : appliedOf k s'.log = appliedOf k s.log) (hlen : s.log.length ≤ s'.log.length) :
    Cell.Steps p (s.cell hash k J) (s'.cell hash k J) := by
  have hcell : s'.cell hash k J = { s.cell hash k J with clock := s'.log.length } := by
    simp only [Shared.cell, hslot, hsource, hlast, happlied]
  rw [hcell]
  exact .single (.advance _ _ hlen)

/-- A delete. -/
theorem DeleteDone.steps {key : Key α} {ts : List (Ticket α V)} (hd : DeleteDone hash s key s' ts)
    (hdirect : cfg.writeMode ≠ .writeBack → p.direct ∧ J = 0) :
    Cell.Steps p (s.cell hash k J) (s'.cell hash k (jobsOf k (staged .waiting ts) + J)) := by
  have hlen : s'.log.length = s.log.length + 1 := by rw [hd.log_eq, List.length_cons]
  by_cases hk : k = key
  · subst hk
    refine steps_erase le_rfl hlen.ge ?_ ?_ ?_ ?_ ?_ hdirect
    · rw [hd.slot, if_pos rfl]
    · rw [hd.source]
      simp only [true_and]
    · rw [hd.log_eq, lastWrite]
      simp [Event.writeOf]
    · rw [hd.log_eq, ← List.singleton_append]
      exact appliedOf_append (by simp [Event.appliedOf])
    · rw [hd.tickets_eq]
      split_ifs
      · exact (jobsOf_singleton _ _).trans (if_pos rfl)
      · rfl
  · have hjobs : jobsOf k (staged .waiting ts) = 0 := by
      refine jobsOf_eq_zero fun x hx => ?_
      rw [hd.tickets_eq] at hx
      have hmem := key_of_mem_staged_ticketsFrom hx
      split_ifs at hmem
      · rw [List.mem_singleton.mp hmem]
        exact Ne.symm hk
      · cases hmem
    rw [hjobs, zero_add]
    refine steps_other ?_ ?_ ?_ ?_ (hlen ▸ Nat.le_succ _)
    · rw [hd.slot, if_neg hk]
    · rw [hd.source, if_neg fun h => hk h.1]
    · rw [hd.log_eq, ← List.singleton_append]
      exact lastWrite_append (by simp [Event.writeOf, Ne.symm hk])
    · rw [hd.log_eq, ← List.singleton_append]
      exact appliedOf_append (by simp [Event.appliedOf])

/-- A clear of one shard. -/
theorem ClearDone.steps {i : Fin cfg.shardCount} {ok : Key α → Bool} {done rest : List (Key α)}
    {ts : List (Ticket α V)} {raised : Bool} (hd : ClearDone hash s i ok done rest s' ts raised)
    (hdirect : cfg.writeMode ≠ .writeBack → p.direct ∧ J = 0) :
    Cell.Steps p (s.cell hash k J) (s'.cell hash k (jobsOf k (staged .waiting ts) + J)) := by
  have hkeys : (done ++ rest).Nodup := hd.keys_eq ▸ (s.shards i).backend.entries.keys_nodup
  have hnd : done.Nodup := (List.nodup_append.mp hkeys).1
  have hlen : s.log.length + done.length ≤ s'.log.length := by
    rw [hd.log_eq, List.length_append, List.length_reverse, List.length_append, List.length_map]
    omega
  have happlied : appliedOf k s'.log = appliedOf k s.log := by rw [hd.log_eq, appliedOf_clear]
  by_cases hk : k ∈ done
  · obtain ⟨pre, post, rfl⟩ := List.append_of_mem hk
    obtain ⟨-, hpost, hdisj⟩ := List.nodup_append.mp hnd
    have hpre : k ∉ pre := fun h => hdisj k h k List.mem_cons_self rfl
    rw [List.length_append, List.length_cons] at hlen
    refine steps_erase (n := s.log.length + pre.length) (Nat.le_add_right _ _) (by omega) ?_ ?_ ?_ happlied
      ?_ hdirect
    · rw [hd.slot, if_pos hk]
    · rw [hd.source]
      simp only [hk, true_and]
    · rw [hd.log_eq, lastWrite_clear_of_mem (List.nodup_cons.mp hpost).1]
    · rw [hd.tickets_eq]
      split_ifs
      · rw [jobsOf_clear_of_mem (fun _ => rfl) hpre (List.nodup_cons.mp hpost).1]
        simp only [CacheShard.deleteJob, CacheShard.nextVersion_eq, Shared.home, hd.home k hk]
      · rfl
  · have hjobs : jobsOf k (staged .waiting ts) = 0 := by
      refine jobsOf_eq_zero fun x hx => ?_
      rw [hd.tickets_eq] at hx
      have hmem := key_of_mem_staged_ticketsFrom hx
      split_ifs at hmem
      · obtain ⟨k', hk', hjob⟩ := List.mem_map.mp hmem
        rw [← hjob]
        exact fun e => hk (e ▸ hk')
      · cases hmem
    rw [hjobs, zero_add]
    refine steps_other ?_ ?_ ?_ happlied (by omega)
    · rw [hd.slot, if_neg hk]
    · rw [hd.source, if_neg fun h => hk h.1]
    · rw [hd.log_eq, lastWrite_clear_of_notMem hk]

/-- Jobs are given up one after another. -/
theorem steps_giveUp (c : Cell V) (ts : List (Ticket α V)) (hp : p.giveUp)
    {R : Multiset (Stage × Flush V)} (hc : c.jobs = jobsOf k (staged .waiting ts) + R) :
    Cell.Steps p c { c with jobs := jobsOf k (staged .doomed ts) + R } := by
  induction ts generalizing c R with
  | nil =>
      have heq : { c with jobs := jobsOf k (staged .doomed []) + R } = c := by
        rw [staged_nil, ← staged_nil .waiting, ← hc]
      rw [heq]
  | cons t ts ih =>
      rw [staged_cons, jobsOf_cons] at hc
      rw [staged_cons, jobsOf_cons]
      by_cases hk : t.job.key = k
      · rw [jobsOf_singleton, if_pos hk, add_assoc, Multiset.singleton_add] at hc
        rw [jobsOf_singleton, if_pos hk, add_assoc, Multiset.singleton_add]
        refine .trans (.single (.giveUp c _ _ hc hp)) ?_
        have := ih { c with jobs := (Stage.doomed, (⟨t.job.version, t.job.operation, t.origin⟩ : Flush V)) ::ₘ
          (jobsOf k (staged .waiting ts) + R) }
          (R := (Stage.doomed, (⟨t.job.version, t.job.operation, t.origin⟩ : Flush V)) ::ₘ R)
          (Multiset.add_cons _ _ _).symm
        rwa [Multiset.add_cons] at this
      · rw [jobsOf_singleton, if_neg hk, zero_add] at hc
        rw [jobsOf_singleton, if_neg hk, zero_add]
        exact ih c hc

/-- A collected job persists the entry or the tombstone of its key. -/
theorem again_of_dirtyJobs {sh : CacheShard α V T} {cfg : CacheConfig T} {job : FlushWriteBack α V}
    (h : job ∈ sh.dirtyJobs cfg) :
    (∃ e, (sh.slot job.key).entry = some e ∧ e.version = job.version ∧ job.operation = .put e.value) ∨
      ((sh.slot job.key).tomb = some job.version ∧ job.operation = .delete) := by
  rw [CacheShard.dirtyJobs, List.mem_append, List.mem_map, List.mem_map] at h
  rcases h with ⟨e, he, rfl⟩ | ⟨q, hq, rfl⟩
  · have hget := InMemoryBackend.mem_entryList.mp (List.mem_filter.mp he).1
    exact .inl ⟨e.held, by simp [CacheShard.slot, hget], rfl, rfl⟩
  · exact .inr ⟨OrderedDict.get?_eq_some_iff.mpr hq, rfl⟩

/-- Collected jobs are registered one after another. -/
theorem steps_registerAll {log : List (Event α V T)} (jobs : List (FlushWriteBack α V))
    (sh : CacheShard α V T) (c : Cell V) (hslot : c.slot = sh.slot k) (hlast : c.last = lastWrite k log)
    (hagain : ∀ job ∈ jobs, job.key = k →
      (∃ e, (sh.slot k).entry = some e ∧ e.version = job.version ∧ job.operation = .put e.value) ∨
        ((sh.slot k).tomb = some job.version ∧ job.operation = .delete)) :
    Cell.Steps p c
      { c with
        slot := (sh.registerAll jobs).slot k
        jobs := jobsOf k (staged .waiting (jobs.map (closeTicket log))) + c.jobs } := by
  induction jobs generalizing sh c with
  | nil =>
      have heq : { c with
          slot := (sh.registerAll []).slot k
          jobs := jobsOf k (staged .waiting (([] : List (FlushWriteBack α V)).map (closeTicket log))) +
            c.jobs } = c := by
        ext1
        · exact hslot.symm
        · exact zero_add _
        · rfl
        · rfl
        · rfl
        · rfl
      rw [heq]
  | cons job jobs ih =>
      have hreg := CacheShard.slot_registerPendingLocked sh job.key
      by_cases hk : job.key = k
      · have hstep : Cell.Step p c
            { c with
              slot := c.slot.register
              jobs := (.waiting, ⟨job.version, job.operation, (closeTicket log job).origin⟩) ::ₘ c.jobs } := by
          refine .again c ⟨job.version, job.operation, (closeTicket log job).origin⟩ ?_ ?_
          · rw [hslot]
            exact hagain job List.mem_cons_self hk
          · intro o op ho
            rw [hlast, ← hk] at ho
            simp [closeTicket, ho]
        rw [hk] at hreg
        have hrest := ih (sh.registerPendingLocked job.key)
          { c with
            slot := c.slot.register
            jobs := (.waiting, ⟨job.version, job.operation, (closeTicket log job).origin⟩) ::ₘ c.jobs }
          (by rw [hk, hreg, Function.update_self, hslot]) hlast (by
            intro job' hj' hk'
            rw [hk, hreg, Function.update_self]
            exact hagain job' (List.mem_cons_of_mem job hj') hk')
        have hjobs : jobsOf k (staged .waiting ((job :: jobs).map (closeTicket log))) + c.jobs =
            jobsOf k (staged .waiting (jobs.map (closeTicket log))) +
              (.waiting, ⟨job.version, job.operation, (closeTicket log job).origin⟩) ::ₘ c.jobs := by
          rw [List.map_cons, staged_cons, jobsOf_cons, jobsOf_singleton,
            if_pos (show (closeTicket log job).job.key = k from hk), Multiset.singleton_add,
            Multiset.cons_add, Multiset.add_cons]
          rfl
        rw [hjobs]
        exact .trans (.single hstep) hrest
      · have hrest := ih (sh.registerPendingLocked job.key) c
          (by rw [hreg, Function.update_of_ne (Ne.symm hk), hslot]) hlast (by
            intro job' hj' hk'
            rw [hreg, Function.update_of_ne (Ne.symm hk)]
            exact hagain job' (List.mem_cons_of_mem job hj') hk')
        rw [List.map_cons, staged_cons, jobsOf_cons_of_ne (show (closeTicket log job).job.key ≠ k from hk)]
        exact hrest

/-- Bookkeeping for the first job that a thread holds: a move of the key of the job, nothing for the
other keys. -/
theorem steps_job {i : Fin cfg.shardCount} {sh' : CacheShard α V T} {x : Slot V} {st : Stage}
    {t : Ticket α V} {l : List (Stage × Ticket α V)} {Q : Multiset (Stage × Flush V)}
    (hth : th.flushes = (st, t) :: l) (hi : shardFor cfg hash t.job.key = i)
    (hslot : sh'.slot = Function.update (s.shards i).slot t.job.key x)
    (hs : (s.setShard i sh').Same s')
    (hstep : t.job.key = k → ∀ J, Q + (jobsOf k th.flushes + R) =
        (st, ⟨t.job.version, t.job.operation, t.origin⟩) ::ₘ J →
      Cell.Step p (s.cell hash k (Q + (jobsOf k th.flushes + R))) { s.cell hash k J with slot := x }) :
    Cell.Steps p (s.cell hash k (Q + (jobsOf k th.flushes + R)))
      (s'.cell hash k (Q + (jobsOf k l + R))) := by
  by_cases hk : t.job.key = k
  · have hjobs : Q + (jobsOf k th.flushes + R) =
        (st, ⟨t.job.version, t.job.operation, t.origin⟩) ::ₘ (Q + (jobsOf k l + R)) := by
      rw [hth, ← hk, jobsOf_cons_self, Multiset.cons_add, Multiset.add_cons]
    have hmove := hstep hk _ hjobs
    rw [hk] at hslot hi
    rw [cell_of_update_self hslot hi hs]
    exact .single hmove
  · rw [cell_of_update_ne hslot hk hs, hth, jobsOf_cons_of_ne hk]

/-- A job is applied to the source. -/
theorem steps_apply {t : Ticket α V} {Q : Multiset (Stage × Flush V)}
    (heq : ({ s with source := applyWriteBack s.source t.job }.emit [.applied t]).Same s')
    (hover : t.job.key = k → ∀ g, (Stage.checked, g) ∈ Q + R → g.origin < t.origin → p.overtake) :
    Cell.Steps p (s.cell hash k (Q + (jobsOf k [(.checked, t)] + R)))
      (s'.cell hash k (Q + (jobsOf k [(.landed, t)] + R))) := by
  have hlog : s'.log = [Event.applied t] ++ s.log := heq.log_eq
  have hsource : s'.source.get? k = if k = t.job.key then t.job.operation.outcome else s.source.get? k := by
    rw [heq.source_eq]
    exact Source.get?_apply _ _ _ _
  have hslot : (s'.home hash k).slot k = (s.home hash k).slot k := by
    rw [Shared.home, heq.shards_eq]
    rfl
  have hlast : lastWrite k s'.log = lastWrite k s.log := by
    rw [hlog]
    exact lastWrite_append (by simp [Event.writeOf])
  have hlen : s.log.length ≤ s'.log.length := by simp [hlog]
  by_cases hk : t.job.key = k
  · rw [jobsOf_singleton, jobsOf_singleton, if_pos hk, if_pos hk, Multiset.singleton_add,
      Multiset.singleton_add, Multiset.add_cons, Multiset.add_cons]
    refine .trans (.single (.apply _ _ _ rfl (hover hk))) ?_
    have hcell : s'.cell hash k ((.landed, ⟨t.job.version, t.job.operation, t.origin⟩) ::ₘ (Q + R)) =
        { s.cell hash k ((.landed, ⟨t.job.version, t.job.operation, t.origin⟩) ::ₘ (Q + R)) with
          source := t.job.operation.outcome
          applied := t.origin :: appliedOf k s.log
          clock := s'.log.length } := by
      ext1
      · exact hslot
      · rfl
      · exact hsource.trans (if_pos hk.symm)
      · exact hlast
      · simp [Shared.cell, hlog, appliedOf, Event.appliedOf, hk]
      · rfl
    rw [hcell]
    exact .single (.advance _ s'.log.length hlen)
  · rw [jobsOf_cons_of_ne hk, jobsOf_cons_of_ne hk]
    refine steps_other hslot (hsource.trans (if_neg (Ne.symm hk))) hlast ?_ hlen
    rw [hlog]
    exact appliedOf_append (by simp [Event.appliedOf, hk])

/-- Queued jobs are waiting. -/
theorem stage_of_mem_staged {st : Stage} {ts : List (Ticket α V)} {x : Stage × Flush V}
    (h : x ∈ jobsOf k (staged st ts)) : x.1 = st := by
  obtain ⟨y, hy, hxy⟩ := List.mem_filterMap.mp (Multiset.mem_coe.mp h)
  obtain ⟨t, -, rfl⟩ := List.mem_map.mp hy
  simp only [jobOf] at hxy
  split_ifs at hxy
  rw [← Option.some.inj hxy]

/-- **What a step of a thread does to one key** is a sequence of moves. -/
theorem Effect.steps (h : Effect hash c s th s' after) (hs : ∀ i, ShardOk cfg hash i (s.shards i))
    (hplace : ∀ x ∈ th.flushes, x.2.job.shardIndex = shardFor cfg hash x.2.job.key)
    (hl : Licence hash k c s s' th R p) :
    Cell.Steps p
      (s.cell hash k (jobsOf k (staged .waiting s.queue.tickets) + (jobsOf k th.flushes + R)))
      (s'.cell hash k (jobsOf k (staged .waiting s'.queue.tickets) + (jobsOf k after + R))) := by
  set Q := jobsOf k (staged .waiting s.queue.tickets) with hQ
  have hdirect : cfg.writeMode ≠ .writeBack → p.direct ∧ Q + (jobsOf k th.flushes + R) = 0 := by
    intro hwb
    obtain ⟨hp, hq, hnone, hR⟩ := hl.direct hwb
    exact ⟨hp, by rw [hQ, hq, hnone, hR]; rfl⟩
  have hhome : ∀ {t : Ticket α V} {st : Stage} {l : List (Stage × Ticket α V)}
      {i : Fin cfg.shardCount}, th.flushes = (st, t) :: l → t.job.shardIndex = i →
      shardFor cfg hash t.job.key = i := by
    intro t st l i hth hi
    exact Fin.ext ((hplace _ (hth ▸ List.mem_cons_self)).symm.trans hi)
  cases h with
  | tend i ht hnow hshards hsource hlog hshift =>
      have hjobs : jobsOf k (staged .waiting s'.queue.tickets) + (jobsOf k after + R) =
          jobsOf k (staged .waiting s.queue.tickets) + (jobsOf k th.flushes + R) := by
        rw [← add_assoc, hshift.jobs_eq, add_assoc]
      rw [hjobs]
      exact steps_tended ht hshards hsource hlog hl.expire
  | put key value ttl caller hth heq =>
      have hq : s'.queue.tickets = s.queue.tickets := heq.tickets_eq
      rw [hq, ← hQ, hth, show (Thread.running (.put key value ttl) caller).flushes = [] from rfl, jobsOf_nil,
        zero_add, Shared.cell_of_same heq, add_left_comm]
      have hnone : th.flushes = [] := by rw [hth]; rfl
      rw [hnone, jobsOf_nil, zero_add] at hdirect
      by_cases hok : cfg.writeMode = .writeThrough ∧ c.ok key = false
      · rw [putSection_of_raised hash s key value ttl hok, staged_nil, jobsOf_nil, zero_add]
        exact steps_tended (CacheShard.tended_dropExpired _ key s.now) rfl rfl rfl hl.expire
      · obtain ⟨-, gone, hdone⟩ := putSection_of_returned hs key value ttl hok
        have hevict : k ∈ gone → p.drop := by
          intro hg
          refine hl.evict ?_
          rw [heq.log_eq, hdone.log_eq]
          simp [hg]
        by_cases hk : k = key
        · subst hk
          refine hdone.steps_self hl.expire hevict (fun hwb hg => ?_) hdirect
          rw [hdone.gone_iff, CacheShard.victims_stored] at hg
          exact hl.loseMark value ttl caller hth hwb hg
        · exact hdone.steps_of_ne hk hevict
  | delete key ok hth heq =>
      have hq : s'.queue.tickets = s.queue.tickets := heq.tickets_eq
      rw [hth, jobsOf_nil, zero_add] at hdirect ⊢
      rw [hq, ← hQ, Shared.cell_of_same heq, add_left_comm]
      by_cases hok : cfg.writeMode = .writeThrough ∧ ok = false
      · rw [deleteSection_of_raised hash s key hok, staged_nil, jobsOf_nil, zero_add]
      · exact (deleteSection_of_returned hash s key hok).2.steps hdirect
  | clear i ok ts hth heq =>
      have hq : s'.queue.tickets = s.queue.tickets := heq.tickets_eq
      obtain ⟨done, rest, hdone⟩ := clearSection_spec hs i ok
      rw [hq, ← hQ, Shared.cell_of_same heq]
      have hafter : jobsOf k (if (s.clearSection i ok).2.2 then []
            else staged .waiting (ts ++ (s.clearSection i ok).2.1)) =
          jobsOf k (staged .waiting (s.clearSection i ok).2.1) + jobsOf k th.flushes := by
        split_ifs with hr
        · -- a clear that raises does so in write-through mode, where there are no jobs
          have hmode := (hdone.rest_of_raised hr).1
          have hwb : cfg.writeMode ≠ .writeBack := by simp [hmode]
          rw [(hl.direct hwb).2.2.1, hdone.tickets_eq, if_neg hwb]
          rfl
        · rw [staged_append, jobsOf_append, hth, add_comm]
      rw [hafter, add_assoc, add_left_comm Q (jobsOf k (staged .waiting (s.clearSection i ok).2.1))]
      exact hdone.steps hdirect
  | check t hth i hi hst heq =>
      rw [heq.tickets_eq, ← hQ, Shared.cell_of_same heq, hth]
      by_cases hk : t.job.key = k
      · subst hk
        rw [jobsOf_cons_self, jobsOf_cons_self, Multiset.cons_add, Multiset.cons_add, Multiset.add_cons,
          Multiset.add_cons]
        refine .single (.check _ _ _ rfl ?_)
        rw [← hhome hth hi, CacheShard.isStale_eq] at hst
        exact hst
      · rw [jobsOf_cons_of_ne hk, jobsOf_cons_of_ne hk]
  | skip t hth hrel i hi hst heq =>
      have hq : s'.queue.tickets = s.queue.tickets := heq.tickets_eq
      have hi' := hhome hth hi
      rw [hq, ← hQ]
      refine steps_job hth hi' (CacheShard.slot_resolvePendingLocked _ _) heq fun hk J hJ => ?_
      rw [← hi', hk] at hst ⊢
      have hforget := hl.forget t hrel hk fun _ => hst
      rw [CacheShard.isStale_eq, hk] at hst
      exact .skip _ _ J hJ hst hforget
  | apply t hth hok heq =>
      have hq : s'.queue.tickets = s.queue.tickets := heq.tickets_eq
      rw [hq, ← hQ, show th.flushes = [(.checked, t)] by rw [hth]; rfl]
      refine steps_apply heq fun hk g hg hlt => ?_
      rcases Multiset.mem_add.mp hg with hg | hg
      · cases stage_of_mem_staged hg
      · exact hl.overtake t hth hok hk g hg hlt
  | fail t hth heq =>
      rw [heq.tickets_eq, ← hQ, Shared.cell_of_same heq, show th.flushes = [(.checked, t)] by rw [hth]; rfl]
      by_cases hk : t.job.key = k
      · rw [jobsOf_singleton, jobsOf_singleton, if_pos hk, if_pos hk, Multiset.singleton_add,
          Multiset.singleton_add, Multiset.add_cons, Multiset.add_cons]
        exact .single (.retry _ _ _ rfl)
      · rw [jobsOf_cons_of_ne hk, jobsOf_cons_of_ne hk]
  | giveUp ts hth hgive heq =>
      rw [heq.tickets_eq, ← hQ, Shared.cell_of_same heq, hth, add_left_comm, add_left_comm Q]
      exact steps_giveUp _ ts (hl.giveUp hgive) rfl
  | release t ts hth hrel i hi heq =>
      have hq : s'.queue.tickets = s.queue.tickets := heq.tickets_eq
      have hi' := hhome hth hi
      rw [hq, ← hQ]
      refine steps_job hth hi' (CacheShard.slot_resolvePendingLocked _ _) heq fun hk J hJ => ?_
      rw [← hi', hk]
      refine .release _ _ J hJ (hl.forget t hrel hk fun hwait => ?_)
      rw [hth] at hwait
      cases hwait
  | settle t hth hrel i hi heq =>
      have hq : s'.queue.tickets = s.queue.tickets := heq.tickets_eq
      have hi' := hhome hth hi
      rw [hq, ← hQ]
      refine steps_job hth hi' (CacheShard.slot_finalizeLocked _ _) heq fun hk J hJ => ?_
      rw [← hi', hk]
      refine .settle _ ⟨_, _, _⟩ J hJ (hl.forget t hrel hk fun hwait => ?_)
      rw [hth] at hwait
      cases hwait
  | collect i hth hwb heq =>
      have hq : s'.queue.tickets = s.queue.tickets := heq.tickets_eq
      rw [hq, ← hQ, hth, jobsOf_nil, zero_add, Shared.cell_of_same heq, add_left_comm]
      by_cases hi : shardFor cfg hash k = i
      · subst hi
        have hcell : ∀ J, (s.setShard (shardFor cfg hash k) ((s.home hash k).registerAll
              ((s.home hash k).dirtyJobs cfg.toCacheConfig))).cell hash k J =
            { s.cell hash k J with
              slot := ((s.home hash k).registerAll ((s.home hash k).dirtyJobs cfg.toCacheConfig)).slot k } := by
          intro J
          unfold Shared.cell
          rw [Shared.home_of_update rfl, if_pos rfl]
          rfl
        rw [hcell]
        refine steps_registerAll _ (s.home hash k) (s.cell hash k (Q + R)) rfl rfl fun job hjob hk => ?_
        have hagain := again_of_dirtyJobs hjob
        rwa [hk] at hagain
      · have hjobs : jobsOf k (staged .waiting
            (((s.shards i).dirtyJobs cfg.toCacheConfig).map (closeTicket s.log))) = 0 := by
          refine jobsOf_eq_zero fun x hx => ?_
          obtain ⟨t, ht, rfl⟩ := List.mem_map.mp hx
          obtain ⟨job, hjob, rfl⟩ := List.mem_map.mp ht
          intro hk
          rw [← hk] at hi
          exact hi ((hs i).shardFor_dirtyJobs hjob).1
        have hcell : ∀ (sh' : CacheShard α V T) J, (s.setShard i sh').cell hash k J = s.cell hash k J := by
          intro sh' J
          unfold Shared.cell
          rw [Shared.home_of_update rfl, if_neg hi]
          rfl
        rw [hjobs, zero_add, hcell]

end Moves

end CacheLab
