import CacheLab.Properties.SingleFlight
import CacheLab.System.Writes

/-!
# Invalidation and older loads

`delete` and `clear` take the running flight of a key off the registry so that later callers load
afresh. The leader of that flight does not notice: it puts what it loaded, and reads find the old
value again.

* `invalidation_beats_older_load`: where no leader stores after a delete of its key, or a clear, went
  through since its loader was called, reads after an invalidation see no older load;
* `stale_load_survives_delete` is a run in which a get after a delete returns what was loaded before.

A value comes from the loader that the last put of its key belongs to. To know which puts stored, the
trace of this module notes with each move whether it wrote to the log (`Deed`).
-/

set_option linter.unusedSectionVars false

namespace CacheLab

variable {α V T : Type} [DecidableEq α] [LinearOrder T] [Zero T] [Add T] [Sub T]

open Transition

variable {cfg : AcceptedConfig T} {hash : Key α → ℕ}

/-- A move, and whether it wrote to the log. -/
structure Deed (α V T : Type) where
  move : Move α V T
  wrote : Bool
  deriving DecidableEq

/-- What is noted of one step. -/
def deeds (s : System α V cfg) (l : Label α V T) (s' : System α V cfg) : List (Deed α V T) :=
  (moves s l s').map fun m => ⟨m, decide (s.shared.log.length < s'.shared.log.length)⟩

/-- The deeds of a run, the oldest first. -/
def deedTrace (cfg : AcceptedConfig T) (hash : Key α → ℕ) (s : System α V cfg)
    (ls : List (Label α V T)) : List (Deed α V T) :=
  observe (step cfg hash) deeds s ls

/-! ### Which deeds matter -/

/-- The operation reads `k`. -/
def Op.reads (k : Key α) : Op α V T → Bool
  | get key => decide (key = k)
  | getOrCompute key _ => decide (key = k)
  | _ => false

namespace Deed

/-- The leader of flight `f` for `k` calls its loader. -/
def starts (k : Key α) (f : ℕ) (d : Deed α V T) : Bool := d.move.starts k f

/-- A delete of `k`, or a clear on its shard, goes through. -/
def invalidates (cfg : AcceptedConfig T) (hash : Key α → ℕ) (k : Key α) (d : Deed α V T) : Bool :=
  d.move.invalidates cfg hash k

/-- A put stores an entry of `k`. -/
def stores (k : Key α) (d : Deed α V T) : Bool :=
  match d.move with
  | .moved _ (.running (.put key _ _) _) _ => decide (key = k) && d.wrote
  | _ => false

/-- The key and the flight of a leader whose put stores an entry. -/
def leaderStore (d : Deed α V T) : Option (Key α × ℕ) :=
  match d.move with
  | .moved _ (.running (.put key _ _) (.leader _ flight _)) _ => if d.wrote then some (key, flight) else none
  | _ => none

/-- The put of the leader of flight `f` stores an entry of `k`. -/
def storedBy (k : Key α) (f : ℕ) (d : Deed α V T) : Bool := decide (d.leaderStore = some (k, f))

/-- A put that is not that of a leader stores an entry of `k`. -/
def putsExplicitly (k : Key α) (d : Deed α V T) : Bool :=
  match d.move with
  | .moved _ (.running (.put _ _ _) (.leader _ _ _)) _ => false
  | _ => d.stores k

/-- The call of the thread is over. -/
def ends (d : Deed α V T) : Bool :=
  match d.move with
  | .moved _ _ (.finished _) => true
  | _ => false

/-- Who calls a loader leads its flight. -/
theorem flight_of_starts {k : Key α} {f i : ℕ} {th th' : Thread α V T} {wrote : Bool}
    (h : (⟨.moved i th th', wrote⟩ : Deed α V T).starts k f = true) : th.flight = some (k, f) := by
  cases th with
  | leading key ttl flight =>
      obtain ⟨rfl, rfl⟩ : key = k ∧ flight = f := by simpa [starts, Move.starts] using h
      rfl
  | _ => cases h

/-- What a leader stores is stored. -/
theorem stores_of_storedBy {k : Key α} {f : ℕ} {d : Deed α V T} (h : d.storedBy k f = true) :
    d.stores k = true := by
  have hstore := of_decide_eq_true h
  unfold leaderStore at hstore
  split at hstore
  · next heq =>
      split_ifs at hstore with hwrote
      cases hstore
      simp [stores, heq, hwrote]
  · cases hstore

/-- A put invalidates nothing. -/
theorem not_invalidates_of_stores {k k' : Key α} {d : Deed α V T} (h : d.stores k = true) :
    d.invalidates cfg hash k' = false := by
  unfold stores at h
  split at h
  · next heq => rw [invalidates, heq]; rfl
  · cases h

end Deed

/-- **The deed returns a value of `k` that the loader of flight `f` produced**, given what went before
it. -/
inductive ReadsFrom (before : List (Deed α V T)) (k : Key α) (f : ℕ) : Deed α V T → Prop
  /-- A read finds an entry, and the last put of its key was that of the leader of `f`. -/
  | cached {i : ℕ} {op : Op α V T} {caller : Caller α V T} {v : V} {wrote : Bool}
      (hop : op.reads k = true) {x y : List (Deed α V T)} {w : Deed α V T}
      (hbefore : before = x ++ w :: y) (hw : w.storedBy k f = true)
      (hlast : ∀ z ∈ y, z.stores k = false) :
      ReadsFrom before k f ⟨.moved i (.running op caller) (.finished (.value (some v))), wrote⟩
  /-- A waiter gets the result of `f`. -/
  | joined {i : ℕ} {v : V} {wrote : Bool} :
      ReadsFrom before k f ⟨.moved i (.waiting f) (.finished (.value (some v))), wrote⟩
  /-- The leader of `f` gets its own result. -/
  | led {i : ℕ} {v : V} {wrote : Bool} :
      ReadsFrom before k f ⟨.moved i (.publishing k f v) (.finished (.value (some v))), wrote⟩

/-- **Invalidation beats an older load**: a read of `k` that was called after a delete of `k` or a clear
returned, with no explicit put of `k` since the invalidation, returns nothing that a loader produced
which was called before it. -/
def InvalidationBeats (cfg : AcceptedConfig T) (hash : Key α → ℕ) (tr : List (Deed α V T)) : Prop :=
  Noted (fun (before : List (Deed α V T)) (d : Deed α V T) =>
    ∀ (k : Key α) (a : List (Deed α V T)) (inv : Deed α V T) (b : List (Deed α V T)) i op wrote c,
    before = a ++ inv :: (b ++ (⟨.called i op, wrote⟩ : Deed α V T) :: c) → inv.invalidates cfg hash k = true →
    (∃ x ∈ inv :: b, x.move.thread = inv.move.thread ∧ x.ends = true) → op.reads k = true →
    d.move.thread = i → (∀ x ∈ b ++ c, x.putsExplicitly k = false) →
    ∀ f, ReadsFrom before k f d → ∀ x ∈ a, x.starts k f = false) tr

/-- The deed is no late store: if it is the store of a leader, the key was not invalidated since the
loader was called. -/
def Deed.Timely (cfg : AcceptedConfig T) (hash : Key α → ℕ) (before : List (Deed α V T))
    (d : Deed α V T) : Prop :=
  ∀ k f, d.storedBy k f = true → ¬ InOrder [Deed.starts k f, Deed.invalidates cfg hash k] before

/-- **No late store**: no leader stores after its key was invalidated since its loader was called. -/
def NoLateStore (cfg : AcceptedConfig T) (hash : Key α → ℕ) (tr : List (Deed α V T)) : Prop :=
  Noted (Deed.Timely cfg hash) tr

instance decidableTimely (before : List (Deed α V T)) (d : Deed α V T) :
    Decidable (d.Timely cfg hash before) :=
  decidable_of_iff (∀ p ∈ d.leaderStore,
      ¬ InOrder [Deed.starts p.1 p.2, Deed.invalidates cfg hash p.1] before)
    ⟨fun h k f hst => h (k, f) (of_decide_eq_true hst), fun h p hp => h p.1 p.2 (decide_eq_true hp)⟩

instance decidableNoLateStore (tr : List (Deed α V T)) : Decidable (NoLateStore cfg hash tr) :=
  inferInstanceAs (Decidable (Noted _ tr))

/-! ### What a step does to an entry -/

section Entries

variable {s s' : Shared α V cfg} {c : Choice α V} {th th' : Thread α V T} {k : Key α} {v : V}

/-- An entry that is there after an effect was there before, or the effect is the put that stored it. -/
theorem Effect.entry_cases {after : List (WriteBehind.Stage × Ticket α V)} {d : Option T}
    (h : Effect hash c s th s' after) (hs : ∀ i, ShardOk cfg hash i (s.shards i))
    (ht : (s'.home hash k).timed k = some (v, d)) :
    (∃ d', (s.home hash k).timed k = some (v, d')) ∨
      (∃ ttl caller, th = .running (.put k v ttl) caller) ∧ s.log.length < s'.log.length := by
  have htended : ∀ {i : Fin cfg.shardCount} {sh' : CacheShard α V T},
      (s.shards i).Tended s.now sh' → s'.shards = Function.update s.shards i sh' →
      ∃ d', (s.home hash k).timed k = some (v, d') := by
    intro i sh' htend hsh
    rw [Shared.home_of_update hsh] at ht
    split_ifs at ht with hi
    · rcases htend.key k with ⟨-, heq⟩ | ⟨-, -, -, -, -, hnone⟩
      · rw [heq] at ht
        exact ⟨d, by rw [Shared.home, hi]; exact ht⟩
      · rw [hnone] at ht
        cases ht
    · exact ⟨d, ht⟩
  have hdata : ∀ {i : Fin cfg.shardCount} {sh' : CacheShard α V T},
      (s.shards i).SameData sh' → s'.shards = Function.update s.shards i sh' →
      ∃ d', (s.home hash k).timed k = some (v, d') := by
    intro i sh' hsame hsh
    rw [Shared.home_of_update hsh] at ht
    split_ifs at ht with hi
    · rw [hsame.timed_eq] at ht
      exact ⟨d, by rw [Shared.home, hi]; exact ht⟩
    · exact ⟨d, ht⟩
  have hsame : s'.shards = s.shards → ∃ d', (s.home hash k).timed k = some (v, d') := by
    intro hsh
    exact ⟨d, by rw [Shared.home, ← hsh]; exact ht⟩
  cases h with
  | tend i htend hnow hshards hsource hlog hshift => exact .inl (htended htend hshards)
  | put key value ttl caller hth heq =>
      by_cases hok : cfg.writeMode = .writeThrough ∧ c.ok key = false
      · rw [putSection_of_raised hash s key value ttl hok] at heq
        exact .inl (htended (CacheShard.tended_dropExpired _ key s.now) heq.shards_eq)
      · obtain ⟨-, gone, hdone⟩ := putSection_of_returned hs key value ttl hok
        have hput := hdone.timed k
        rw [Shared.home, ← heq.shards_eq] at hput
        rw [Shared.home, hput] at ht
        split_ifs at ht with hgone hk
        · subst hk
          obtain ⟨rfl, -⟩ := Prod.mk.inj (Option.some.inj ht)
          refine .inr ⟨⟨ttl, caller, hth⟩, ?_⟩
          rw [heq.log_eq, hdone.log_eq]
          simp only [List.length_append, List.length_cons, List.length_map, List.length_reverse]
          omega
        · exact .inl ⟨d, ht⟩
  | delete key ok hth heq =>
      by_cases hok : cfg.writeMode = .writeThrough ∧ ok = false
      · rw [deleteSection_of_raised hash s key hok] at heq
        exact .inl (hsame heq.shards_eq)
      · have hdel := (deleteSection_of_returned hash s key hok).2.timed k
        rw [Shared.home, ← heq.shards_eq] at hdel
        rw [Shared.home, hdel] at ht
        split_ifs at ht
        exact .inl ⟨d, ht⟩
  | clear i ok ts hth heq =>
      obtain ⟨done, rest, hdone⟩ := clearSection_spec hs i ok
      have hclear := hdone.timed k
      rw [Shared.home, ← heq.shards_eq] at hclear
      rw [Shared.home, hclear] at ht
      split_ifs at ht
      exact .inl ⟨d, ht⟩
  | check t hth i hi hst heq => exact .inl (hsame heq.shards_eq)
  | skip t hth hrel i hi hst heq =>
      exact .inl (hdata (CacheShard.sameData_resolvePendingLocked _ _) heq.shards_eq)
  | apply t hth hok heq => exact .inl (hsame heq.shards_eq)
  | fail t hth heq => exact .inl (hsame heq.shards_eq)
  | giveUp ts hth hgive heq => exact .inl (hsame heq.shards_eq)
  | release t ts hth hrel i hi heq =>
      exact .inl (hdata (CacheShard.sameData_resolvePendingLocked _ _) heq.shards_eq)
  | settle t hth hrel i hi heq =>
      exact .inl (hdata (CacheShard.sameData_finalizeLocked _ _) heq.shards_eq)
  | collect i hth hwb heq => exact .inl (hdata (CacheShard.sameData_registerAll _ _) heq.shards_eq)

/-- See `Effect.entry_cases`. -/
theorem threadStep_entry {d : Option T} (h : threadStep hash s c th = some (s', th'))
    (hs : ∀ i, ShardOk cfg hash i (s.shards i)) (hp : th.Placed)
    (hwb : th.flushing = true → cfg.writeMode = .writeBack)
    (ht : (s'.home hash k).timed k = some (v, d)) :
    (∃ d', (s.home hash k).timed k = some (v, d')) ∨
      (∃ ttl caller, th = .running (.put k v ttl) caller) ∧ s.log.length < s'.log.length := by
  rcases threadStep_effect h hp hwb with ⟨-, heff⟩ | ⟨-, hwound, -⟩
  · exact heff.entry_cases hs ht
  · obtain ⟨i, sh', hsh, hsame, -⟩ := hwound.shards
    rw [Shared.home_of_update hsh] at ht
    split_ifs at ht with hi
    · rw [hsame.timed_eq] at ht
      exact .inl ⟨d, by rw [Shared.home, hi]; exact ht⟩
    · exact .inl ⟨d, ht⟩

/-- No entry of `k` is left after an invalidation. -/
theorem threadStep_invalidates (h : threadStep hash s c th = some (s', th'))
    (hs : ∀ i, ShardOk cfg hash i (s.shards i)) (hk : th.erases cfg hash k = true)
    (hok : th'.isRaised = false) : (s'.home hash k).timed k = none := by
  have hclient : clientStep hash s c th = some (s', th') := by
    refine clientStep_of_threadStep h ?_ ?_ <;> cases th <;> first | rfl | cases hk
  cases th with
  | running op caller =>
      cases op with
      | delete key =>
          obtain rfl : key = k := of_decide_eq_true hk
          simp only [clientStep] at hclient
          by_cases hraise : cfg.writeMode = .writeThrough ∧ c.ok key = false
          · rw [deleteSection_of_raised hash s key hraise, if_pos rfl] at hclient
            cases hclient
            cases hok
          · obtain ⟨hret, hdone⟩ := deleteSection_of_returned hash s key hraise
            rw [hret, if_neg (by simp)] at hclient
            obtain ⟨hs', -⟩ := enqueueOr_client (by simp) (Option.some.inj hclient)
            rw [hs', hdone.timed, if_pos rfl]
      | _ => cases hk
  | clearing i ts =>
      have hi : i = shardFor cfg hash k := of_decide_eq_true hk
      subst hi
      simp only [clientStep, (shardFor cfg hash k).isLt, dif_pos] at hclient
      obtain ⟨done, rest, hdone⟩ := clearSection_spec hs (shardFor cfg hash k) c.ok
      split_ifs at hclient with hr
      · cases hclient
        cases hok
      · cases hclient
        have hrest := hdone.rest_of_returned (by simpa using hr)
        have hall := hdone.keys_eq
        rw [hrest, List.append_nil] at hall
        rw [hdone.timed]
        split_ifs with hmem
        · rfl
        · rw [← hall, CacheShard.mem_keys_iff_timed] at hmem
          simpa [Shared.home] using hmem
  | _ => cases hk

/-- A read that gives back a value found an entry. -/
theorem threadStep_reads {op : Op α V T} {caller : Caller α V T} (hop : op.reads k = true)
    (h : threadStep hash s c (.running op caller) = some (s', Thread.finished (.value (some v)))) :
    ∃ d, (s.home hash k).timed k = some (v, d) := by
  have hfound : ((s.home hash k).readValueLocked k true true s.now).1 = some v →
      ∃ d, (s.home hash k).timed k = some (v, d) := by
    intro hread
    rw [CacheShard.readValueLocked_fst] at hread
    obtain ⟨d, ht, -⟩ := visible_eq_some_iff.mp hread
    exact ⟨d, ht⟩
  cases op with
  | get key =>
      obtain rfl : key = k := of_decide_eq_true hop
      simp only [threadStep, clientStep, Option.orElse_some, Option.some.injEq, Prod.mk.injEq,
        Thread.finished.injEq, Result.value.injEq] at h
      exact hfound h.2
  | getOrCompute key ttl =>
      obtain rfl : key = k := of_decide_eq_true hop
      rcases CacheShard.getOrComputeLocked_cases (s.home hash key) key s.now s.flights.length with
        ⟨w, hw, -, hread⟩ | ⟨f, hf, -⟩ | ⟨hf, -⟩
      · simp only [threadStep, clientStep, hw, Option.orElse_some, Option.some.injEq, Prod.mk.injEq,
          Thread.finished.injEq, Result.value.injEq] at h
        exact hfound (hread.trans (congrArg some h.2))
      · simp only [threadStep, clientStep, hf, Option.orElse_some] at h
        cases h
      · simp only [threadStep, clientStep, hf, Option.orElse_some] at h
        cases h
  | _ => cases hop

end Entries

/-! ### Where entries and flights come from -/

/-- What a thread may hold on to, given what went before its call: the flight that it leads was started
after the call, and the flight that it waits for was not invalidated since its start. -/
structure Thread.Since (cfg : AcceptedConfig T) (hash : Key α → ℕ) (before : List (Deed α V T))
    (th : Thread α V T) : Prop where
  led : ∀ k f, th.flight = some (k, f) → ∀ d ∈ before, d.starts k f = false
  joined : ∀ f, th.awaits = some f → ∀ k,
    ¬ InOrder [Deed.starts k f, Deed.invalidates cfg hash k] before

/-- What carries the property through a run. -/
structure Provenance (hash : Key α → ℕ) (tr : List (Deed α V T)) (s : System α V cfg) : Prop where
  base : Base hash s
  flights : FlightsOk hash s
  /-- An entry was stored, and since then neither stored again nor invalidated. -/
  entries : ∀ k v d, (s.shared.home hash k).timed k = some (v, d) → ∃ x w y, tr = x ++ w :: y ∧
    w.stores k = true ∧ ∀ z ∈ y, z.stores k = false ∧ z.invalidates cfg hash k = false
  /-- A registered flight was not invalidated since its loader was called. -/
  current : ∀ k f, s.shared.registered hash k = some f →
    ¬ InOrder [Deed.starts k f, Deed.invalidates cfg hash k] tr
  /-- A flight that was started is an old one, and it has the key of its leader. -/
  started : ∀ d ∈ tr, ∀ k f, d.starts k f = true →
    f < s.shared.flights.length ∧ ∀ j k', s.leads j = some (k', f) → k' = k
  since : ∀ x y i op wrote th, tr = x ++ (⟨.called i op, wrote⟩ : Deed α V T) :: y → s.threads[i]? = some th →
    th.Since cfg hash x
  beats : NoLateStore cfg hash tr → InvalidationBeats cfg hash tr

section Step

variable {tr : List (Deed α V T)} {s s' : System α V cfg} {th th' : Thread α V T} {i : ℕ}

/-- What a step that registers no flight leaves was there before; otherwise the flight is a new one. -/
theorem Flown.registered_back {s s' : Shared α V cfg} (h : Flown hash s th s' th') {k : Key α} {f : ℕ}
    (hf : s'.registered hash k = some f) : s.registered hash k = some f ∨ f = s.flights.length := by
  rcases h.kind with ⟨-, -, hreg, -⟩ | ⟨k', ttl, -, -, hreg, -⟩ | ⟨k', f', y, -, -, -, -, hreg, -⟩
  · exact .inl (hreg _ k f hf)
  · rw [Shared.registered, Shared.home, hreg] at hf
    split_ifs at hf
    · rw [OrderedDict.get?_set] at hf
      split_ifs at hf
      · exact .inr (Option.some.inj hf).symm
      · exact .inl hf
    · exact .inl hf
  · rw [Shared.registered, Shared.home, hreg] at hf
    split_ifs at hf
    · rw [OrderedDict.get?_erase] at hf
      split_ifs at hf
      exact .inl hf
    · exact .inl hf

/-- An invalidation takes the flight of its key off the registry. -/
theorem Flown.registered_of_invalidates {s s' : Shared α V cfg} (h : Flown hash s th s' th')
    (hsh : th.Shaped) {k : Key α} (hk : th.erases cfg hash k = true) (hok : th'.isRaised = false) :
    s'.registered hash k = none := by
  have hleader : ∀ {k' f v}, th.caller ≠ some (Caller.leader k' f v) := by
    intro k' f v hc
    cases th with
    | running op caller =>
        obtain ⟨ttl, rfl⟩ := hsh k' f v (Option.some.inj hc)
        cases hk
    | clearing i ts => cases hc
    | _ => cases hk
  cases h with
  | aside hth hth' hw hw' herase hs =>
      rw [herase k hk] at hok
      cases hok
  | deletes k' hth hth' hw' hok hreg hfl =>
      obtain rfl : k' = k := of_decide_eq_true hk
      rw [Shared.registered, Shared.home, hreg, if_pos rfl, OrderedDict.get?_erase_self]
  | clears j hth' hw' hok hreg hfl =>
      have hj : shardFor cfg hash k = j := (Fin.ext (of_decide_eq_true hk)).symm
      rw [Shared.registered, Shared.home, hreg, if_pos hj, OrderedDict.get?_empty]
  | putting k' f v hth hth' hsh hs => exact absurd hth hleader
  | putReturns k' f v hth hs => exact absurd hth hleader
  | putRaises k' f v exn hth hexn hs => exact absurd hth hleader
  | _ => cases hk

/-- Flights and their leaders, seen from after a step: a leader was one before, or its flight is new. -/
theorem Flown.leads_back (h : Flown hash s.shared th s'.shared th') (hi : s.threads[i]? = some th)
    (hset : s'.threads = s.threads.set i th') :
    s.shared.flights.length ≤ s'.shared.flights.length ∧
      ∀ j k f, s'.leads j = some (k, f) → s.leads j = some (k, f) ∨ f = s.shared.flights.length := by
  have hleads := System.leads_set hi hset
  have hback : (∀ k f, th'.flight = some (k, f) →
      th.flight = some (k, f) ∨ f = s.shared.flights.length) → ∀ j k f, s'.leads j = some (k, f) →
      s.leads j = some (k, f) ∨ f = s.shared.flights.length := by
    intro hth' j k f hj
    rw [hleads] at hj
    by_cases hji : j = i
    · subst hji
      rw [Function.update_self] at hj
      rw [System.leads_of_getElem? hi]
      exact hth' k f hj
    · rw [Function.update_of_ne hji] at hj
      exact .inl hj
  rcases h.kind with ⟨hlead, hfl, -⟩ | ⟨k', ttl, -, rfl, -, hfl⟩ | ⟨k', f', y, -, hnone, -, -, -, hfl⟩
  · exact ⟨by rw [hfl], hback fun k f hf => .inl (hlead ▸ hf)⟩
  · refine ⟨by simp [hfl], hback fun k f hf => .inr ?_⟩
    cases hf
    rfl
  · refine ⟨by simp [hfl], hback fun k f hf => ?_⟩
    rw [hnone] at hf
    cases hf

/-- A thread keeps what it holds on to, or finds it in the registry. -/
theorem Provenance.since_moved (h : Provenance hash tr s) (hflown : Flown hash s.shared th s'.shared th')
    {x y : List (Deed α V T)} (hsplit : tr = x ++ y) (hsince : th.Since cfg hash x) :
    th'.Since cfg hash x := by
  have hmem : ∀ d ∈ x, d ∈ tr := fun d hd => hsplit ▸ List.mem_append_left y hd
  rcases hflown.kind with ⟨hlead, -, -, haw⟩ | ⟨k', ttl, -, rfl, -, -⟩ | ⟨k', f', y, -, hnone, haw, -⟩
  · refine ⟨fun k f hf => hsince.led k f (hlead ▸ hf), fun f hf k hin => ?_⟩
    obtain ⟨j, k', hreg⟩ := haw f hf
    obtain ⟨rfl, i', hlead'⟩ := h.flights.registered j k' f hreg
    obtain ⟨d, hd, hstart⟩ := hin.exists_head
    obtain rfl := (h.started d (hmem d hd) k f hstart).2 i' k' hlead'
    exact h.current k' f hreg (hsplit ▸ hin.append_right y)
  · refine ⟨fun k f hf d hd => ?_, fun f hf => by cases hf⟩
    cases hf
    by_contra hstart
    have hlt := (h.started d (hmem d hd) _ _ (by simpa using hstart)).1
    exact lt_irrefl _ hlt
  · refine ⟨fun k f hf => ?_, fun f hf => ?_⟩
    · rw [hnone] at hf
      cases hf
    · rw [haw] at hf
      cases hf

/-- **A read after an invalidation**: what it gives back was not loaded before. -/
theorem Provenance.not_stale (h : Provenance hash tr s) {c : Choice α V} {wrote : Bool}
    (hstep : threadStep hash s.shared c th = some (s'.shared, th')) (hi : s.threads[i]? = some th)
    (hlate : NoLateStore cfg hash tr) {a b c : List (Deed α V T)} {inv : Deed α V T} {k : Key α}
    {op : Op α V T} {called : Bool} (htr : tr = a ++ inv :: (b ++ (⟨.called i op, called⟩ : Deed α V T) :: c))
    (hinv : inv.invalidates cfg hash k = true) {f : ℕ}
    (hreads : ReadsFrom tr k f ⟨.moved i th th', wrote⟩) : ∀ x ∈ a, x.starts k f = false := by
  intro x hx
  by_contra hstart
  rw [Bool.not_eq_false] at hstart
  have hin : ∀ ys, InOrder [Deed.starts k f, Deed.invalidates cfg hash k] (a ++ inv :: ys) :=
    fun ys => inOrder_pair hx hstart hinv
  have hcall : tr = (a ++ inv :: b) ++ (⟨.called i op, called⟩ : Deed α V T) :: c := by
    rw [htr, List.append_assoc, List.cons_append]
  have hsince := h.since _ _ i op called th hcall hi
  cases hreads with
  | joined => exact hsince.joined f rfl k (hin b)
  | led =>
      have hnot := hsince.led k f rfl x (List.mem_append_left _ hx)
      rw [hstart] at hnot
      cases hnot
  | @cached _ op' caller v _ hop x' y w hbefore hw hlast =>
      have hstores := Deed.stores_of_storedBy hw
      obtain ⟨d, ht⟩ := threadStep_reads hop hstep
      obtain ⟨x₁, w₁, y₁, htr₁, hw₁, hlast₁⟩ := h.entries k v d ht
      have hquiet : ∀ z ∈ y, z.invalidates cfg hash k = false := by
        rcases split_cases (hbefore.symm.trans htr₁) with ⟨-, -, rfl⟩ | ⟨m, -, rfl⟩ | ⟨m, -, rfl⟩
        · exact fun z hz => (hlast₁ z hz).2
        · have hno := hlast w₁ (by simp)
          rw [hw₁] at hno
          cases hno
        · have hno := (hlast₁ w (by simp)).1
          rw [hstores] at hno
          cases hno
      rcases split_cases (htr.symm.trans hbefore) with ⟨-, rfl, -⟩ | ⟨m, rfl, -⟩ | ⟨m, -, rfl⟩
      · rw [Deed.not_invalidates_of_stores hstores] at hinv
        cases hinv
      · exact hlate _ w y hbefore k f hw (hin m)
      · have hno := hquiet inv (by simp)
        rw [hinv] at hno
        cases hno

/-- The entries after a step: each was stored by the last write of its key. -/
theorem Provenance.entries_moved (h : Provenance hash tr s) {c : Choice α V}
    (hstep : threadStep hash s.shared c th = some (s'.shared, th')) (hi : s.threads[i]? = some th)
    {d : Deed α V T} (hd : d = ⟨.moved i th th', decide (s.shared.log.length < s'.shared.log.length)⟩)
    {k : Key α} {v : V} {e : Option T} (ht : (s'.shared.home hash k).timed k = some (v, e)) :
    ∃ x w y, tr ++ [d] = x ++ w :: y ∧ w.stores k = true ∧
      ∀ z ∈ y, z.stores k = false ∧ z.invalidates cfg hash k = false := by
  have hmem := List.mem_of_getElem? hi
  by_cases hstores : d.stores k = true
  · exact ⟨tr, d, [], rfl, hstores, by simp⟩
  have hinv : d.invalidates cfg hash k = false := by
    by_contra hinv
    rw [hd, Bool.not_eq_false] at hinv
    obtain ⟨hk, hok⟩ : th.erases cfg hash k = true ∧ th'.isRaised = false := by
      simpa [Deed.invalidates, Move.invalidates] using hinv
    rw [threadStep_invalidates hstep h.base.shards hk hok] at ht
    cases ht
  have hflush : th.flushing = true → cfg.writeMode = .writeBack := by
    intro hfl
    by_contra hmode
    rw [(h.base.direct hmode).2 th hmem] at hfl
    cases hfl
  rcases threadStep_entry hstep h.base.shards (h.base.threads th hmem).2 hflush ht with
    ⟨e', ht'⟩ | ⟨⟨ttl, caller, rfl⟩, hlog⟩
  · obtain ⟨x, w, y, rfl, hw, hlast⟩ := h.entries k v e' ht'
    refine ⟨x, w, y ++ [d], by simp, hw, fun z hz => ?_⟩
    rcases List.mem_append.mp hz with hz | hz
    · exact hlast z hz
    · rw [List.mem_singleton.mp hz]
      exact ⟨by simpa using hstores, hinv⟩
  · exact absurd (by simp [hd, Deed.stores, hlog]) hstores

/-- A thread outside the flights holds on to nothing. -/
theorem Thread.since_of_none {before : List (Deed α V T)} (hf : th.flight = none)
    (hw : th.awaits = none) : th.Since cfg hash before := by
  refine ⟨fun k f h => ?_, fun f h => ?_⟩
  · rw [hf] at h
    cases h
  · rw [hw] at h
    cases h

/-- Threads come in. -/
theorem Provenance.come (h : Provenance hash tr s) (hb : Base hash s') (hf : FlightsOk hash s')
    {new : List (Thread α V T)} (hth : s'.threads = s.threads ++ new)
    (hnew : ∀ th ∈ new, th.flight = none ∧ th.awaits = none)
    (hsh : s'.shared.shards = s.shared.shards) (hfl : s'.shared.flights = s.shared.flights) :
    Provenance hash tr s' where
  base := hb
  flights := hf
  entries k v d ht := h.entries k v d (by rwa [Shared.home, hsh] at ht)
  current k f hreg := h.current k f (by rwa [Shared.registered, Shared.home, hsh] at hreg)
  started d hd k f hstart := by
    rw [hfl, System.leads_append (fun th hmem => (hnew th hmem).1) hth]
    exact h.started d hd k f hstart
  since x y i op wrote th hsplit hi := by
    rw [hth] at hi
    rcases Transition.getElem?_append_cases hi with hi | hmem
    · exact h.since x y i op wrote th hsplit hi
    · exact Thread.since_of_none (hnew th hmem).1 (hnew th hmem).2
  beats := h.beats

/-- A call comes in. -/
theorem Provenance.note_call (h : Provenance hash tr s) {op : Op α V T}
    (hi : s.threads[i]? = some (Thread.entering op (.client .done))) (wrote : Bool) :
    Provenance hash (tr ++ [(⟨.called i op, wrote⟩ : Deed α V T)]) s where
  base := h.base
  flights := h.flights
  entries k v d ht := by
    obtain ⟨x, w, y, rfl, hw, hlast⟩ := h.entries k v d ht
    refine ⟨x, w, y ++ [(⟨.called i op, wrote⟩ : Deed α V T)], by simp, hw, fun z hz => ?_⟩
    rcases List.mem_append.mp hz with hz | hz
    · exact hlast z hz
    · rw [List.mem_singleton.mp hz]
      exact ⟨rfl, rfl⟩
  current k f hreg hin := by
    rcases inOrder_pair_concat.mp hin with hin | ⟨-, hinv⟩
    · exact h.current k f hreg hin
    · cases hinv
  started d hd k f hstart := by
    rcases List.mem_append.mp hd with hd | hd
    · exact h.started d hd k f hstart
    · rw [List.mem_singleton.mp hd] at hstart
      cases hstart
  since x y j op' wrote' th hsplit hj := by
    rcases concat_eq_append_cons.mp hsplit with ⟨-, hd, -⟩ | ⟨rest, -, hsplit⟩
    · cases hd
      rw [hi, Option.some.injEq] at hj
      subst hj
      exact Thread.since_of_none rfl rfl
    · exact h.since x rest j op' wrote' th hsplit hj
  beats hlate := by
    refine noted_concat.mpr ⟨h.beats hlate.left, ?_⟩
    intro k a inv b j op' wrote' c _ _ _ _ _ _ f hreads
    cases hreads

/-- A thread moves. -/
theorem Provenance.move (h : Provenance hash tr s) (hb : Base hash s') (hf : FlightsOk hash s')
    {c : Choice α V} (hi : s.threads[i]? = some th)
    (hstep : threadStep hash s.shared c th = some (s'.shared, th'))
    (hset : s'.threads = s.threads.set i th') :
    Provenance hash
      (tr ++ [(⟨.moved i th th', decide (s.shared.log.length < s'.shared.log.length)⟩ : Deed α V T)]) s' := by
  have hshaped := h.flights.shaped th (List.mem_of_getElem? hi)
  have hflown := threadStep_flown hstep hshaped
  obtain ⟨hlen, hleads⟩ := hflown.leads_back hi hset
  refine ⟨hb, hf, fun k v e ht => h.entries_moved hstep hi rfl ht, fun k f hreg hin => ?_,
    fun d hd k f hstart => ?_, fun x y j op wrote x' hsplit hj => ?_, fun hlate => ?_⟩
  · have hstarted : ∃ d ∈ tr, d.starts k f = true := by
      rcases inOrder_pair_concat.mp hin with hin | ⟨hex, -⟩
      · exact hin.exists_head
      · exact hex
    obtain ⟨d, hd, hstart⟩ := hstarted
    rcases hflown.registered_back hreg with hreg' | rfl
    · rcases inOrder_pair_concat.mp hin with hin | ⟨-, hinv⟩
      · exact h.current k f hreg' hin
      · obtain ⟨hk, hok⟩ : th.erases cfg hash k = true ∧ th'.isRaised = false := by
          simpa [Deed.invalidates, Move.invalidates] using hinv
        rw [hflown.registered_of_invalidates hshaped hk hok] at hreg
        cases hreg
    · exact lt_irrefl _ (h.started d hd k _ hstart).1
  · have hold : f < s.shared.flights.length ∧ ∀ j k', s.leads j = some (k', f) → k' = k := by
      rcases List.mem_append.mp hd with hd | hd
      · exact h.started d hd k f hstart
      · -- the leader of the flight calls its loader: the flight has no other leader
        rw [List.mem_singleton.mp hd] at hstart
        have hlead : s.leads i = some (k, f) := by
          rw [System.leads_of_getElem? hi]
          exact Deed.flight_of_starts hstart
        refine ⟨(List.getElem?_eq_some_iff.mp (h.flights.fresh i k f hlead)).1, fun j k' hj => ?_⟩
        obtain rfl := h.flights.unique i j k k' f hlead hj
        rw [hlead] at hj
        cases hj
        rfl
    refine ⟨lt_of_lt_of_le hold.1 hlen, fun j k' hj => ?_⟩
    rcases hleads j k' f hj with hj | rfl
    · exact hold.2 j k' hj
    · exact absurd hold.1 (lt_irrefl _)
  · rcases concat_eq_append_cons.mp hsplit with ⟨-, hd, -⟩ | ⟨rest, -, hrest⟩
    · cases hd
    · rw [hset] at hj
      rcases Transition.getElem?_set_cases hj with ⟨rfl, rfl⟩ | ⟨-, hj⟩
      · exact h.since_moved hflown hrest (h.since x rest _ op wrote th hrest hi)
      · exact h.since x rest j op wrote x' hrest hj
  · refine noted_concat.mpr ⟨h.beats hlate.left, ?_⟩
    intro k a inv b j op wrote c htr hinv _ _ hj _ f hreads
    obtain rfl : i = j := hj
    exact h.not_stale hstep hi hlate.left htr hinv hreads

/-- **Provenance, one step.** -/
theorem Provenance.step {l : Label α V T} (h : Provenance hash tr s)
    (hs : step cfg hash s l = some s') : Provenance hash (tr ++ deeds s l s') s' := by
  have hb := h.base.step hs
  have hf := h.flights.step hs
  rcases step_moves hs with ⟨hm, hsh, hfl, n, hth⟩ | ⟨op, -, hm, hsh, hth⟩ |
    ⟨i, c, th, th', -, hm, hi, hstep, hset⟩
  · rw [deeds, hm, List.map_nil, List.append_nil]
    refine h.come hb hf hth (fun th hmem => ?_) hsh hfl
    rw [List.eq_of_mem_replicate hmem]
    exact ⟨rfl, rfl⟩
  · rw [deeds, hm, List.map_singleton]
    have hcome : Provenance hash tr s' := by
      refine h.come hb hf hth (fun th hmem => ?_) (by rw [hsh]) (by rw [hsh])
      rw [List.mem_singleton.mp hmem]
      exact ⟨rfl, rfl⟩
    exact hcome.note_call (by rw [hth]; simp) _
  · rw [deeds, hm, List.map_singleton]
    exact h.move hb hf hi hstep hset

end Step

/-- **Invalidation beats an older load.** In every run in which no leader stores what it loaded after its
key was invalidated, a read that is called after a delete of its key or a clear returned gives back
nothing that was loaded before, unless the key was put explicitly since. -/
theorem invalidation_beats_older_load {cfg : AcceptedConfig T} {hash : Key α → ℕ} {now : T}
    {src : Source α V} {ls : List (Label α V T)} {s : System α V cfg}
    (h : exec cfg hash (initial cfg now src) ls = some s)
    (hlate : NoLateStore cfg hash (deedTrace cfg hash (initial cfg now src) ls)) :
    InvalidationBeats cfg hash (deedTrace cfg hash (initial cfg now src) ls) := by
  have hstep : ∀ tr (s : System α V cfg) l s', CacheLab.step cfg hash s l = some s' →
      Provenance hash tr s → Provenance hash (tr ++ deeds s l s') s' := fun _ _ _ _ hs hp => hp.step hs
  have hinit : Provenance hash [] (initial cfg now src : System α V cfg) :=
    { base := base_initial cfg hash now src
      flights := flightsOk_initial cfg hash now src
      entries := fun k v d ht => by cases ht
      current := fun k f _ hin => hin.elim
      started := fun d hd => by cases hd
      since := fun x y i op wrote th hsplit => by cases x <;> cases hsplit
      beats := fun _ => noted_nil }
  exact (observe_invariant_of_step hstep h hinit).beats hlate

/-- Key `1` is loaded and stored, deleted, and loaded again; then it is read. -/
def reloadAfterDelete : List (Label ℕ ℕ ℕ) :=
  [.call (.getOrCompute (some 1) .unset), .run 0 {}, .run 0 {}, .run 0 {}, .run 0 { loaded := some 7 },
    .run 0 {}, .run 0 {}, .run 0 {},
    .call (.delete (some 1)), .run 1 {}, .run 1 {},
    .call (.getOrCompute (some 1) .unset), .run 2 {}, .run 2 {}, .run 2 {}, .run 2 { loaded := some 8 },
    .run 2 {}, .run 2 {}, .run 2 {},
    .call (.get (some 1)), .run 3 {}, .run 3 {}]

/-- A run with two loads and a delete between them: the read finds the second load. -/
theorem invalidation_beats_older_load_on_reload :
    ∃ s : System ℕ ℕ (oneEntry .lru .cacheOnly 0 0 0),
      exec _ (fun _ => 0) (initial _ 0 .empty) reloadAfterDelete = some s ∧
      s.threads[3]? = some (Thread.finished (.value (some 8))) ∧
      InvalidationBeats (oneEntry .lru .cacheOnly 0 0 0) (fun _ => 0)
        (deedTrace (oneEntry .lru .cacheOnly 0 0 0) (fun _ => 0) (initial _ 0 .empty)
          reloadAfterDelete) := by
  have heval : ((exec (oneEntry .lru .cacheOnly 0 0 0) (fun _ => 0) (initial _ 0 .empty)
      reloadAfterDelete).map fun s : System ℕ ℕ (oneEntry .lru .cacheOnly 0 0 0) =>
        decide (s.threads[3]? = some (Thread.finished (.value (some 8))))) = some true := by decide +kernel
  have hlate : NoLateStore (oneEntry .lru .cacheOnly 0 0 0) (fun _ => 0)
      (deedTrace (V := ℕ) (oneEntry .lru .cacheOnly 0 0 0) (fun _ => 0) (initial _ 0 .empty)
        reloadAfterDelete) := by decide +kernel
  obtain ⟨s, hs, heval⟩ := Option.map_eq_some_iff.mp heval
  exact ⟨s, hs, of_decide_eq_true heval, invalidation_beats_older_load hs hlate⟩

/-- The loader of key `1` returns, the key is deleted, and then the leader puts what it loaded. -/
def lateStore : List (Label ℕ ℕ ℕ) :=
  [.call (.getOrCompute (some 1) .unset), .run 0 {}, .run 0 {}, .run 0 {}, .run 0 { loaded := some 7 },
    .call (.delete (some 1)), .run 1 {}, .run 1 {},
    .run 0 {}, .run 0 {},
    .call (.get (some 1)), .run 2 {}, .run 2 {}]

/-- What happens in `lateStore` up to the delete. -/
def beforeDelete : List (Deed ℕ ℕ ℕ) :=
  [⟨.called 0 (.getOrCompute (some 1) .unset), false⟩,
    ⟨.moved 0 (.entering (.getOrCompute (some 1) .unset) (.client .done))
      (.running (.getOrCompute (some 1) .unset) (.client .done)), false⟩,
    ⟨.moved 0 (.running (.getOrCompute (some 1) .unset) (.client .done)) (.leading (some 1) .unset 0), false⟩,
    ⟨.moved 0 (.leading (some 1) .unset 0) (.loading (some 1) .unset 0), false⟩,
    ⟨.moved 0 (.loading (some 1) .unset 0)
      (.entering (.put (some 1) 7 .unset) (.leader (some 1) 0 7)), false⟩,
    ⟨.called 1 (.delete (some 1)), false⟩,
    ⟨.moved 1 (.entering (.delete (some 1)) (.client .done))
      (.running (.delete (some 1)) (.client .done)), false⟩]

/-- The section of the delete. -/
def theDelete : Deed ℕ ℕ ℕ :=
  ⟨.moved 1 (.running (.delete (some 1)) (.client .done)) (.finished (.flag false)), true⟩

/-- The lifecycle check of the leader's put. -/
def theCheck : Deed ℕ ℕ ℕ :=
  ⟨.moved 0 (.entering (.put (some 1) 7 .unset) (.leader (some 1) 0 7))
    (.running (.put (some 1) 7 .unset) (.leader (some 1) 0 7)), false⟩

/-- The section of the leader's put. -/
def theStore : Deed ℕ ℕ ℕ :=
  ⟨.moved 0 (.running (.put (some 1) 7 .unset) (.leader (some 1) 0 7)) (.publishing (some 1) 0 7), true⟩

/-- The lifecycle check of the get. -/
def theGetCheck : Deed ℕ ℕ ℕ :=
  ⟨.moved 2 (.entering (.get (some 1)) (.client .done)) (.running (.get (some 1)) (.client .done)), false⟩

/-- The section of the get. -/
def theGet : Deed ℕ ℕ ℕ :=
  ⟨.moved 2 (.running (.get (some 1)) (.client .done)) (.finished (.value (some 7))), false⟩

/-- **An older load survives a delete**: the delete has returned, nobody put the key, and a later get
gives back what was loaded before the delete. -/
theorem stale_load_survives_delete :
    ∃ s : System ℕ ℕ (oneEntry .lru .cacheOnly 0 0 0),
      exec _ (fun _ => 0) (initial _ 0 .empty) lateStore = some s ∧
      s.threads[1]? = some (Thread.finished (.flag false)) ∧
      s.threads[2]? = some (Thread.finished (.value (some 7))) ∧
      ¬ InvalidationBeats (oneEntry .lru .cacheOnly 0 0 0) (fun _ => 0)
        (deedTrace (oneEntry .lru .cacheOnly 0 0 0) (fun _ => 0) (initial _ 0 .empty) lateStore) := by
  have heval : ((exec (oneEntry .lru .cacheOnly 0 0 0) (fun _ => 0) (initial _ 0 .empty)
      lateStore).map fun s : System ℕ ℕ (oneEntry .lru .cacheOnly 0 0 0) =>
        decide (s.threads[1]? = some (Thread.finished (.flag false)) ∧
          s.threads[2]? = some (Thread.finished (.value (some 7))))) = some true := by decide +kernel
  obtain ⟨s, hs, heval⟩ := Option.map_eq_some_iff.mp heval
  obtain ⟨hdelete, hget⟩ := of_decide_eq_true heval
  refine ⟨s, hs, hdelete, hget, fun hbeats => ?_⟩
  have htr : deedTrace (oneEntry .lru .cacheOnly 0 0 0) (fun _ => 0) (initial _ 0 .empty) lateStore =
      beforeDelete ++ theDelete :: ([theCheck, theStore] ++
        (⟨.called 2 (.get (some 1)), false⟩ : Deed ℕ ℕ ℕ) :: [theGetCheck]) ++ theGet :: [] := by decide +kernel
  have hreads : ReadsFrom (beforeDelete ++ theDelete :: ([theCheck, theStore] ++
      (⟨.called 2 (.get (some 1)), false⟩ : Deed ℕ ℕ ℕ) :: [theGetCheck])) (some 1) 0 theGet :=
    .cached (x := beforeDelete ++ [theDelete, theCheck]) (w := theStore) rfl rfl rfl (by decide)
  have hstart := hbeats _ theGet [] htr (some 1) beforeDelete theDelete _ 2 (.get (some 1)) false _ rfl
    rfl ⟨theDelete, List.mem_cons_self, rfl, rfl⟩ rfl rfl (by decide) 0 hreads
  exact absurd hstart (by decide)

end CacheLab
