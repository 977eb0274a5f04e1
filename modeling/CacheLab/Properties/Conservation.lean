import CacheLab.Core.Ledger
import CacheLab.System.ShardSteps
import CacheLab.System.Trace

/-!
# Conservation of the counters

Every entry that was ever stored in a shard is there, or it left and was counted once: as evicted, as
expired or as deleted. What was stored and read is taken from the run itself: a run notes the read sections
and the put sections that stored an entry (`Section`), with no counter of the cache looked at.

The removals need no invariant, because a removal counts only what it removed (`Core/Ledger`). The induction
over the run carries the ledger of each shard (`ledger_exec`).
-/

set_option linter.unusedSectionVars false

namespace CacheLab

variable {α V T : Type} [DecidableEq α] [LinearOrder T] [Zero T] [Add T] [Sub T]

variable {cfg : AcceptedConfig T} {hash : Key α → ℕ}

/-! ### The sections of a run -/

/-- A lock section that the ledger of a shard speaks of. -/
inductive Section
  /-- A read of `get`, `contains` or `get_or_compute`. -/
  | read (shard : ℕ)
  /-- A put that stored an entry; `fresh` says that the key was not resident, once an expired entry of it
  was dropped. -/
  | stored (shard : ℕ) (fresh : Bool)
  deriving DecidableEq

/-- The section of a thread's next step. -/
def Shared.sections (hash : Key α → ℕ) (s : Shared α V cfg) (c : Choice α V) :
    Thread α V T → List Section
  | .running (.get key) _ => [.read (shardFor cfg hash key)]
  | .running (.contains key) _ => [.read (shardFor cfg hash key)]
  | .running (.getOrCompute key _) _ => [.read (shardFor cfg hash key)]
  | .running (.put key value ttl) _ =>
      if (s.putSection hash key value ttl (c.ok key)).2.2 then []
      else [.stored (shardFor cfg hash key)
        (decide (key ∉ ((s.home hash key).dropExpired key s.now).backend.keys))]
  | _ => []

/-- The section of a step. -/
def sectionsOf (hash : Key α → ℕ) (s : System α V cfg) (l : Label α V T) (_ : System α V cfg) :
    List Section :=
  match l with
  | .run i c =>
      match s.threads[i]? with
      | some th => s.shared.sections hash c th
      | none => []
  | _ => []

/-- The sections of a run, oldest first. -/
def sectionTrace (cfg : AcceptedConfig T) (hash : Key α → ℕ) (s : System α V cfg)
    (ls : List (Label α V T)) : List Section :=
  Transition.observe (step cfg hash) (sectionsOf hash) s ls

/-- What a section adds to the ledger of a shard. -/
def Section.posting (i : ℕ) : Section → ℕ × ℕ × ℕ
  | read j => if j = i then (0, 1, 0) else 0
  | stored j fresh => if j = i then (if fresh then 1 else 0, 0, 1) else 0

/-- What a list of sections adds to the ledger of a shard, in numbers of sections. -/
theorem sum_posting (i : ℕ) (l : List Section) :
    (l.map (Section.posting i)).sum =
      (l.count (.stored i true), l.count (.read i), l.count (.stored i true) + l.count (.stored i false)) := by
  induction l with
  | nil => rfl
  | cons x l ih =>
      rw [List.map_cons, List.sum_cons, ih]
      cases x with
      | read j => by_cases hj : j = i <;> simp [Section.posting, hj, add_comm]
      | stored j fresh =>
          by_cases hj : j = i
          · cases fresh <;> simp [Section.posting, hj, add_comm, add_left_comm, add_assoc]
          · simp [Section.posting, hj]

/-! ### One step -/

/-- The ledgers after a step are those before, with the sections of the step added. -/
def Posts (s s' : Shared α V cfg) (l : List Section) : Prop :=
  ∀ i, (s'.shards i).ledger = (s.shards i).ledger + (l.map (Section.posting i)).sum

section Steps

variable {s s' : Shared α V cfg} {c : Choice α V} {th th' : Thread α V T}

theorem posts_of_shards_eq (h : s'.shards = s.shards) : Posts s s' [] := by
  intro i
  rw [h]
  rfl

/-- A section on one shard. -/
theorem posts_of_update {i : Fin cfg.shardCount} {sh' : CacheShard α V T} {l : List Section}
    (h : s'.shards = Function.update s.shards i sh')
    (hledger : sh'.ledger = (s.shards i).ledger + (l.map (Section.posting i)).sum)
    (hother : ∀ j : Fin cfg.shardCount, j ≠ i → (l.map (Section.posting j)).sum = 0) : Posts s s' l := by
  intro j
  rw [h]
  by_cases hj : j = i
  · subst hj
    rw [Function.update_self, hledger]
  · rw [Function.update_of_ne hj, hother j hj, add_zero]

/-- A section on one shard that leaves its ledger alone. -/
theorem posts_of_ledger_eq {i : Fin cfg.shardCount} {sh' : CacheShard α V T}
    (h : s'.shards = Function.update s.shards i sh') (hledger : sh'.ledger = (s.shards i).ledger) :
    Posts s s' [] :=
  posts_of_update h hledger fun _ _ => rfl

/-- A section with one entry in the ledger of its shard. -/
theorem posts_of_section {i : Fin cfg.shardCount} {sh' : CacheShard α V T} {x : Section}
    (h : s'.shards = Function.update s.shards i sh')
    (hledger : sh'.ledger = (s.shards i).ledger + x.posting i)
    (hother : ∀ j : Fin cfg.shardCount, j ≠ i → x.posting j = 0) : Posts s s' [x] :=
  posts_of_update h (by simpa using hledger) fun j hj => by simpa using hother j hj

/-- A read. -/
theorem posts_of_read {i : Fin cfg.shardCount} {sh' : CacheShard α V T}
    (h : s'.shards = Function.update s.shards i sh')
    (hledger : sh'.ledger = (s.shards i).ledger + (0, 1, 0)) : Posts s s' [.read i] := by
  refine posts_of_section h (by simpa [Section.posting] using hledger) fun j hj => ?_
  exact if_neg fun heq => hj (Fin.ext heq.symm)

/-- What a section without an entry in the ledger leaves of it. -/
theorem ShardStep.ledger_eq {i : Fin cfg.shardCount} {sh' : CacheShard α V T}
    (h : ShardStep hash c s th i sh') (hnil : s.sections hash c th = []) :
    sh'.ledger = (s.shards i).ledger := by
  cases h with
  | get key caller hth => subst hth; cases hnil
  | contains key caller hth => subst hth; cases hnil
  | inspect key caller hth => exact CacheShard.ledger_inspectLocked _ key _
  | put key value ttl caller hth =>
      subst hth
      simp only [Shared.sections] at hnil
      split_ifs at hnil with hraised
      exact CacheShard.ledger_putLocked_of_raised _ _ _ key _ hraised
  | delete key caller hth => exact CacheShard.ledger_deleteLocked _ _ _ key _
  | getOrCompute key ttl caller hth => subst hth; cases hnil
  | restore key n caller hth => exact CacheShard.ledger_restoreEntryMetadata _ key n
  | clear i ts hth => exact CacheShard.ledger_clearLocked _ _ _ _
  | dump i taken limit hth => exact CacheShard.ledger_dumpLocked _ _
  | expire i hth => exact CacheShard.ledger_expireShard _ _
  | book i sh' hbook =>
      cases hbook with
      | resolve key => exact CacheShard.ledger_resolvePendingLocked _ key
      | clearPending key => exact CacheShard.ledger_clearPendingFlushesLocked _ key
      | markClean job => exact CacheShard.ledger_markCleanLocked _ job
      | finalize job => exact CacheShard.ledger_finalizeLocked _ job
      | register jobs => exact CacheShard.ledger_registerAll _ jobs
      | unregister key => exact CacheShard.ledger_unregisterFlight _ key

/-- The section of a put that stores. -/
theorem posts_put {key : Key α} {value : V} {ttl : Ttl T} {caller : Caller α V T}
    (h : threadStep hash s c (.running (.put key value ttl) caller) = some (s', th'))
    (hraised : (s.putSection hash key value ttl (c.ok key)).2.2 = false) :
    Posts s s' (s.sections hash c (.running (.put key value ttl) caller)) := by
  simp only [threadStep, clientStep, hraised, Bool.false_eq_true, if_false] at h
  have hshards := shards_enqueueOr (Option.some.inj h)
  have hledger := CacheShard.ledger_putLocked (s.home hash key) cfg.toCacheConfig s.source key s.now hraised
  simp only [Shared.sections, hraised, Bool.false_eq_true, if_false]
  refine posts_of_section hshards ?_ fun j hj => if_neg fun heq => hj (Fin.ext heq.symm)
  refine hledger.trans ?_
  simp only [Section.posting, if_true, decide_not, Bool.not_eq_true', decide_eq_false_iff_not, ite_not]

/-- **A step of a thread** posts its sections to the ledgers. -/
theorem threadStep_posts (h : threadStep hash s c th = some (s', th')) :
    Posts s s' (s.sections hash c th) := by
  by_cases hnil : s.sections hash c th = []
  · rw [hnil]
    rcases threadStep_shards h with heq | ⟨i, sh', heq, hsection⟩
    · exact posts_of_shards_eq heq
    · exact posts_of_ledger_eq heq (hsection.ledger_eq hnil)
  · cases th with
    | running op caller =>
        cases op with
        | get key =>
            cases h
            exact posts_of_read rfl (CacheShard.ledger_readValueLocked _ key _ true)
        | contains key =>
            cases h
            exact posts_of_read rfl (CacheShard.ledger_readValueLocked _ key _ false)
        | put key value ttl =>
            simp only [Shared.sections] at hnil
            split_ifs at hnil with hraised
            · exact absurd rfl hnil
            · exact posts_put h (Bool.not_eq_true _ ▸ hraised)
        | getOrCompute key ttl =>
            simp only [threadStep, clientStep] at h
            have hledger := CacheShard.ledger_getOrComputeLocked (s.home hash key) key s.now s.flights.length
            split at h <;> cases h <;> exact posts_of_read rfl hledger
        | _ => exact absurd rfl hnil
    | _ => exact absurd rfl hnil

end Steps

/-! ### Runs -/

/-- A step of the system posts its sections to the ledgers. -/
theorem step_posts {s s' : System α V cfg} {l : Label α V T} (h : step cfg hash s l = some s') :
    Posts s.shared s'.shared (sectionsOf hash s l s') := by
  rcases step_cases h with ⟨now, rfl, -, rfl⟩ | ⟨new, -, hsame, -, hl, -⟩ |
    ⟨i, c, th, th', rfl, hth, hstep, -⟩
  · exact posts_of_shards_eq rfl
  · have hnil : sectionsOf hash s l s' = [] := by
      cases l with
      | run i c => exact absurd rfl (hl i c)
      | _ => rfl
    rw [hnil]
    exact posts_of_shards_eq hsame.shards_eq
  · simp only [sectionsOf, hth]
    exact threadStep_posts hstep

/-- **The ledgers of a run** are what its sections posted. -/
theorem ledger_exec {now : T} {src : Source α V} {ls : List (Label α V T)} {s : System α V cfg}
    (h : exec cfg hash (initial cfg now src) ls = some s) (i : Fin cfg.shardCount) :
    (s.shared.shards i).ledger =
      ((sectionTrace cfg hash (initial cfg now src) ls).map (Section.posting i)).sum := by
  have hstep : ∀ (tr : List Section) (s : System α V cfg) (l : Label α V T) (s' : System α V cfg),
      step cfg hash s l = some s' →
      (s.shared.shards i).ledger = (tr.map (Section.posting i)).sum →
      (s'.shared.shards i).ledger = ((tr ++ sectionsOf hash s l s').map (Section.posting i)).sum := by
    intro tr s l s' hs hinv
    rw [step_posts hs i, hinv, List.map_append, List.sum_append]
  exact Transition.observe_invariant_of_step hstep h rfl

/-- **Conservation of the counters**: in every state of every run and for every shard, the evictions,
expirations and deletions and the entries that are there add up to the put sections that stored a key which
was not resident; hits and misses to the read sections; and puts to the put sections that stored. -/
theorem stats_conserved {now : T} {src : Source α V} {ls : List (Label α V T)} {s : System α V cfg}
    (h : exec cfg hash (initial cfg now src) ls = some s) (i : Fin cfg.shardCount) :
    (s.shared.shards i).stats.evictions + (s.shared.shards i).stats.expirations +
          (s.shared.shards i).stats.deletes + (s.shared.shards i).backend.size =
        (sectionTrace cfg hash (initial cfg now src) ls).count (.stored i true) ∧
      (s.shared.shards i).stats.hits + (s.shared.shards i).stats.misses =
        (sectionTrace cfg hash (initial cfg now src) ls).count (.read i) ∧
      (s.shared.shards i).stats.puts =
        (sectionTrace cfg hash (initial cfg now src) ls).count (.stored i true) +
          (sectionTrace cfg hash (initial cfg now src) ls).count (.stored i false) := by
  have hledger := ledger_exec h i
  rw [sum_posting, CacheShard.ledger, Prod.mk.injEq, Prod.mk.injEq] at hledger
  exact hledger

/-- Two puts and a read: the second put evicts the first entry, and the read misses it. -/
def evictThenMiss : List (Label ℕ ℕ ℕ) :=
  [.call (.put (some 1) 5 .unset), .run 0 {}, .run 0 {}, .call (.put (some 2) 6 .unset), .run 1 {}, .run 1 {},
    .call (.get (some 1)), .run 2 {}, .run 2 {}]

theorem stats_conserved_evictThenMiss :
    ∃ (s : System ℕ ℕ (oneEntry .lru .cacheOnly 0 0 0)) (sh : CacheShard ℕ ℕ ℕ),
      exec _ (fun _ => 0) (initial _ 0 .empty) evictThenMiss = some s ∧
        s.shared.home (fun _ => 0) (some 1) = sh ∧
        sh.stats.evictions + sh.stats.expirations + sh.stats.deletes + sh.backend.size = 2 ∧
        sh.stats.hits + sh.stats.misses = 1 := by
  have hrun : (exec (oneEntry .lru .cacheOnly 0 0 0) (fun _ => 0) (initial _ 0 .empty)
      evictThenMiss : Option (System ℕ ℕ _)).isSome = true := by
    decide +kernel
  obtain ⟨s, hs⟩ := Option.isSome_iff_exists.mp hrun
  have hcounts : (sectionTrace (oneEntry .lru .cacheOnly 0 0 0) (fun _ => 0)
        (initial _ 0 .empty : System ℕ ℕ _) evictThenMiss).count (.stored 0 true) = 2 ∧
      (sectionTrace (oneEntry .lru .cacheOnly 0 0 0) (fun _ => 0)
        (initial _ 0 .empty : System ℕ ℕ _) evictThenMiss).count (.read 0) = 1 := by
    decide +kernel
  obtain ⟨hentries, hreads, -⟩ := stats_conserved hs (shardFor _ (fun _ => 0) (some 1))
  exact ⟨s, _, hs, rfl, hentries.trans hcounts.1, hreads.trans hcounts.2⟩

end CacheLab
