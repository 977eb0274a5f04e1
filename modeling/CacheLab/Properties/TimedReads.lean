import CacheLab.System.Writes

/-!
# Reads see a timed map

What a read reports is determined by the history of the cache: the latest put of the key, unless the
key was deleted, cleared or evicted since, and unless the deadline of that put has been reached. The
deadline is a function of the history too (`deadline`, `history`), because an update without a
lifetime keeps the deadline of the entry it replaces.

Expired entries leave the store at different moments, depending on who comes across them first. The
invariant `Tracks` allows for that: the store agrees with the history, or the history holds a value
that has expired and the store holds nothing.
-/

set_option linter.unusedSectionVars false

namespace CacheLab

variable {α V T : Type} [DecidableEq α] [LinearOrder T] [Zero T] [Add T] [Sub T]

open WriteBehind

/-! ### The history of a key -/

/-- A value with a deadline that has not been reached at time `t`. -/
def unexpired (x : Option (V × Option T)) (t : T) : Option (V × Option T) :=
  x.filter fun p => p.2.all fun d => t < d

/-- The deadline that a put at `now` gives to its entry, when `before` is what is known of the key. -/
def deadline (cfg : CacheConfig T) (before : Option (V × Option T)) (ttl : Ttl T) (now : T) : Option T :=
  match ttl with
  | .seconds t => if 0 < t then some (now + t) else none
  | .never => none
  | .unset =>
      match unexpired before now with
      | some p => p.2
      | none => (cfg.defaultTtl.filter fun t => 0 < t).map fun t => now + t

/-- The event puts, deletes, clears or evicts `k`. -/
def Event.touches (cfg : AcceptedConfig T) (hash : Key α → ℕ) (k : Key α) : Event α V T → Bool
  | stored key _ _ _ => decide (key = k)
  | erased key => decide (key = k)
  | cleared i => decide (i = (shardFor cfg hash k : ℕ))
  | evicted key => decide (key = k)
  | applied _ => false

/-- What is known of a key after an event that touches it. -/
def Event.leaves (cfg : CacheConfig T) (before : Option (V × Option T)) :
    Event α V T → Option (V × Option T)
  | stored _ value ttl now => some (value, deadline cfg before ttl now)
  | _ => none

/-- What a log, newest event first, says about `k`: the value of the latest put and its deadline. -/
def history (cfg : AcceptedConfig T) (hash : Key α → ℕ) (k : Key α) :
    List (Event α V T) → Option (V × Option T)
  | [] => none
  | e :: log =>
      if e.touches cfg hash k then e.leaves cfg.toCacheConfig (history cfg hash k log)
      else history cfg hash k log

/-- By the history alone, `k` is present at time `t` with the value `v`: some put stored `v`, nothing
later touched `k`, and `t` is strictly below the deadline of that put. -/
def PresentWith (cfg : AcceptedConfig T) (hash : Key α → ℕ) (log : List (Event α V T)) (k : Key α)
    (v : V) (t : T) : Prop :=
  ∃ later earlier ttl now, log = later ++ .stored k v ttl now :: earlier ∧
    (∀ e ∈ later, e.touches cfg hash k = false) ∧
    ∀ d, deadline cfg.toCacheConfig (history cfg hash k earlier) ttl now = some d → t < d

variable {cfg : AcceptedConfig T} {hash : Key α → ℕ} {k : Key α}

/-- The history goes back to the latest put when nothing later touched the key. -/
theorem history_eq_some_iff {log : List (Event α V T)} {v : V} {d : Option T} :
    history cfg hash k log = some (v, d) ↔
      ∃ later earlier ttl now, log = later ++ .stored k v ttl now :: earlier ∧
        (∀ e ∈ later, e.touches cfg hash k = false) ∧
        deadline cfg.toCacheConfig (history cfg hash k earlier) ttl now = d := by
  induction log with
  | nil => simp [history]
  | cons e log ih =>
      rw [history]
      split_ifs with ht
      · constructor
        · intro h
          cases e with
          | stored key value ttl now =>
              have hkey : key = k := by simpa [Event.touches] using ht
              subst hkey
              cases h
              exact ⟨[], log, ttl, now, rfl, by simp, rfl⟩
          | _ => cases h
        · rintro ⟨later, earlier, ttl, now, hlog, hlater, hd⟩
          cases later with
          | nil =>
              cases hlog
              rw [← hd]
              rfl
          | cons e' later =>
              cases hlog
              rw [hlater e List.mem_cons_self] at ht
              cases ht
      · rw [ih]
        constructor
        · rintro ⟨later, earlier, ttl, now, hlog, hlater, hd⟩
          refine ⟨e :: later, earlier, ttl, now, by rw [hlog]; rfl, fun e' he' => ?_, hd⟩
          rcases List.mem_cons.mp he' with rfl | he'
          · simpa using ht
          · exact hlater e' he'
        · rintro ⟨later, earlier, ttl, now, hlog, hlater, hd⟩
          cases later with
          | nil =>
              cases hlog
              exact absurd (by simp [Event.touches]) ht
          | cons e' later =>
              cases hlog
              exact ⟨later, earlier, ttl, now, rfl, fun x hx => hlater x (List.mem_cons_of_mem e hx), hd⟩

/-- What is visible of the history is what is present. -/
theorem visible_history_iff {log : List (Event α V T)} {t : T} {v : V} :
    visible (history cfg hash k log) t = some v ↔ PresentWith cfg hash log k v t := by
  rw [visible_eq_some_iff]
  constructor
  · rintro ⟨d, hd, hlt⟩
    obtain ⟨later, earlier, ttl, now, hlog, hlater, rfl⟩ := history_eq_some_iff.mp hd
    exact ⟨later, earlier, ttl, now, hlog, hlater, hlt⟩
  · rintro ⟨later, earlier, ttl, now, hlog, hlater, hlt⟩
    exact ⟨_, history_eq_some_iff.mpr ⟨later, earlier, ttl, now, hlog, hlater, rfl⟩, hlt⟩

/-! ### Agreement of store and history -/

/-- The store `x` follows the history `y`: they agree, or what the history holds has expired and the
store holds nothing. -/
def Tracks (x y : Option (V × Option T)) (now : T) : Prop :=
  x = y ∨ x = none ∧ ∃ v d, y = some (v, some d) ∧ d ≤ now

namespace Tracks

variable {x y : Option (V × Option T)} {now now' : T}

/-- Nothing unexpired is lost. -/
theorem unexpired_eq (h : Tracks x y now) : unexpired x now = unexpired y now := by
  rcases h with rfl | ⟨rfl, v, d, rfl, hd⟩
  · rfl
  · simp [unexpired, Option.filter, hd]

/-- Reads cannot tell the store from the history. -/
theorem visible_eq (h : Tracks x y now) : visible x now = visible y now := by
  rcases h with rfl | ⟨rfl, v, d, rfl, hd⟩
  · rfl
  · simp [visible, hd]

/-- Time may pass. -/
theorem mono (h : Tracks x y now) (hle : now ≤ now') : Tracks x y now' := by
  rcases h with h | ⟨hx, v, d, hy, hd⟩
  · exact .inl h
  · exact .inr ⟨hx, v, d, hy, hd.trans hle⟩

/-- A section that is no write keeps track. -/
theorem tended {sh sh' : CacheShard α V T} (h : Tracks (sh.timed k) y now)
    (ht : sh.Tended now sh') : Tracks (sh'.timed k) y now := by
  rcases ht.key k with ⟨-, heq⟩ | ⟨v, d, hold, hd, -, hnone⟩
  · rwa [heq]
  · rcases h with h | ⟨hx, -⟩
    · exact .inr ⟨hnone, v, d, h ▸ hold, hd⟩
    · rw [hx] at hold
      cases hold

end Tracks

/-! ### What the sections do to the history -/

/-- What is unexpired of an entry. -/
theorem unexpired_entry (e : CacheEntry α V T) (now : T) :
    unexpired (some (e.value, e.expiresAt)) now =
      if e.isExpired now then none else some (e.value, e.expiresAt) := by
  unfold unexpired CacheEntry.isExpired
  cases e.expiresAt with
  | none => simp [Option.filter]
  | some d => by_cases hd : d ≤ now <;> simp [Option.filter, hd]

/-- What a read sees of a key after its lazy expiration. -/
theorem timed_dropExpired_self (sh : CacheShard α V T) (key : Key α) (now : T) :
    (sh.dropExpired key now).timed key = unexpired (sh.timed key) now := by
  unfold CacheShard.dropExpired
  cases he : sh.backend.getEntry key with
  | none => simp [CacheShard.timed, he, unexpired]
  | some e =>
      have hun : unexpired (sh.timed key) now =
          if e.isExpired now then none else some (e.value, e.expiresAt) := by
        rw [CacheShard.timed, he]
        exact unexpired_entry e now
      rw [hun]
      simp only
      split_ifs
      · rw [CacheShard.timed, CacheShard.removeEntryLocked_backend,
          InMemoryBackend.getEntry_deleteEntry, if_pos rfl]
        rfl
      · rw [CacheShard.timed, he]
        rfl

/-- The deadline of a stored entry is the one that the history gives. -/
theorem resolveTtl_snd (cfg : CacheConfig T) (sh : CacheShard α V T) (key : Key α) (ttl : Ttl T)
    (now : T) :
    (resolveTtl cfg ((sh.dropExpired key now).backend.getEntry key) ttl now).2 =
      deadline cfg (sh.timed key) ttl now := by
  have hdrop := timed_dropExpired_self sh key now
  have hvalue : ∀ t : T, ((if t ≤ 0 then (none, none) else (some t, some (now + t)) :
      Option T × Option T)).2 = if 0 < t then some (now + t) else none := by
    intro t
    by_cases ht : t ≤ 0
    · simp [ht]
    · simp [ht, lt_of_not_ge ht]
  cases ttl with
  | never => rfl
  | seconds t => exact hvalue t
  | unset =>
      simp only [resolveTtl, deadline]
      rw [← hdrop, CacheShard.timed]
      cases (sh.dropExpired key now).backend.getEntry key with
      | some e => rfl
      | none =>
          cases cfg.defaultTtl with
          | none => rfl
          | some t =>
              simp only [Option.map_none, hvalue, Option.filter]
              by_cases ht : 0 < t <;> simp [ht]

/-- The deadline depends on what is unexpired. -/
theorem Tracks.deadline_eq {x y : Option (V × Option T)} {now : T} (h : Tracks x y now)
    (cfg : CacheConfig T) (ttl : Ttl T) : deadline cfg x ttl now = deadline cfg y ttl now := by
  unfold deadline
  rw [h.unexpired_eq]

/-- The history after the events of a put. -/
theorem history_put {key : Key α} {value : V} {ttl : Ttl T} {now : T} {gone : List (Key α)}
    {log : List (Event α V T)} :
    history cfg hash k ((Event.stored key value ttl now :: gone.map .evicted).reverse ++ log) =
      if k ∈ gone then none
      else if k = key then
        some (value, deadline cfg.toCacheConfig (history cfg hash k log) ttl now)
      else history cfg hash k log := by
  have hstored : history cfg hash k (.stored key value ttl now :: log) =
      if k = key then some (value, deadline cfg.toCacheConfig (history cfg hash k log) ttl now)
      else history cfg hash k log := by
    rw [history]
    by_cases hk : k = key
    · subst hk
      simp [Event.touches, Event.leaves]
    · simp [Event.touches, hk, Ne.symm hk]
  induction gone using List.reverseRecOn with
  | nil => simpa using hstored
  | append_singleton gone g ih =>
      rw [List.map_append, List.map_singleton, ← List.cons_append, List.reverse_append,
        List.reverse_singleton, List.singleton_append, List.cons_append, history, ih]
      by_cases hg : g = k
      · simp [Event.touches, Event.leaves, hg]
      · simp [Event.touches, hg, Ne.symm hg]

/-- The history after the events of a clear that processed `done`. -/
theorem history_erased {gone : List (Key α)} {log : List (Event α V T)} :
    history cfg hash k ((gone.map .erased).reverse ++ log) =
      if k ∈ gone then none else history cfg hash k log := by
  induction gone using List.reverseRecOn with
  | nil => simp
  | append_singleton gone g ih =>
      rw [List.map_append, List.map_singleton, List.reverse_append, List.reverse_singleton,
        List.singleton_append, List.cons_append, history, ih]
      by_cases hg : g = k
      · simp [Event.touches, Event.leaves, hg]
      · simp [Event.touches, hg, Ne.symm hg]

/-- The history after the events of a clear of shard `i`. -/
theorem history_clear {i : Fin cfg.shardCount} {done : List (Key α)} {raised : Bool}
    {log : List (Event α V T)} :
    history cfg hash k
        ((done.map Event.erased ++ if raised then [] else [Event.cleared (i : ℕ)]).reverse ++ log) =
      if ¬ raised = true ∧ shardFor cfg hash k = i then none
      else if k ∈ done then none else history cfg hash k log := by
  rw [List.reverse_append, List.append_assoc]
  cases raised with
  | true => simpa using history_erased
  | false =>
      simp only [Bool.false_eq_true, if_false, List.reverse_singleton, List.singleton_append]
      rw [history, history_erased]
      by_cases hi : shardFor cfg hash k = i
      · simp [Event.touches, Event.leaves, hi]
      · have hi' : (i : ℕ) ≠ (shardFor cfg hash k : ℕ) := fun e => hi (Fin.ext e.symm)
        simp [Event.touches, hi, hi']

/-- **An effect keeps track of every key.** -/
theorem Effect.tracks {c : Choice α V} {s s' : Shared α V cfg} {th : Thread α V T}
    {after : List (Stage × Ticket α V)} (h : Effect hash c s th s' after)
    (hs : ∀ i, ShardOk cfg hash i (s.shards i)) (k : Key α)
    (ht : Tracks ((s.home hash k).timed k) (history cfg hash k s.log) s.now) :
    Tracks ((s'.home hash k).timed k) (history cfg hash k s'.log) s'.now := by
  -- bookkeeping in one shard, or a job applied to the source
  have hkeep : ∀ {i : Fin cfg.shardCount} {sh' : CacheShard α V T},
      (s.shards i).SameData sh' → s'.now = s.now → s'.log = s.log →
      s'.shards = Function.update s.shards i sh' →
      Tracks ((s'.home hash k).timed k) (history cfg hash k s'.log) s'.now := by
    intro i sh' hd hnow hlog hshards
    rw [hnow, hlog, Shared.home_of_update hshards]
    split_ifs with hi
    · rw [hd.timed_eq]
      rwa [Shared.home, hi] at ht
    · exact ht
  have hsame : ∀ {s₁ : Shared α V cfg}, s₁.Same s' →
      Tracks ((s₁.home hash k).timed k) (history cfg hash k s₁.log) s₁.now →
      Tracks ((s'.home hash k).timed k) (history cfg hash k s'.log) s'.now := by
    intro s₁ heq h₁
    rwa [Shared.home, heq.shards_eq, heq.log_eq, heq.now_eq]
  cases h with
  | tend i htend hnow hshards hsource hlog hshift =>
      rw [hnow, hlog, Shared.home_of_update hshards]
      split_ifs with hi
      · rw [Shared.home, hi] at ht
        exact ht.tended htend
      · exact ht
  | put key value ttl caller hth heq =>
      refine hsame heq ?_
      by_cases hok : cfg.writeMode = .writeThrough ∧ c.ok key = false
      · rw [putSection_of_raised hash s key value ttl hok, Shared.home_of_update rfl]
        split_ifs with hi
        · rw [Shared.home, hi] at ht
          exact ht.tended (CacheShard.tended_dropExpired _ key s.now)
        · exact ht
      · obtain ⟨-, gone, hdone⟩ := putSection_of_returned hs key value ttl hok
        rw [hdone.now_eq, hdone.timed, hdone.log_eq, history_put, resolveTtl_snd]
        split_ifs with hg hk
        · exact .inl rfl
        · subst hk
          exact .inl (by rw [ht.deadline_eq])
        · exact ht
  | delete key ok hth heq =>
      refine hsame heq ?_
      by_cases hok : cfg.writeMode = .writeThrough ∧ ok = false
      · rwa [deleteSection_of_raised hash s key hok]
      · obtain ⟨-, hdone⟩ := deleteSection_of_returned hash s key hok
        rw [hdone.now_eq, hdone.timed, hdone.log_eq, history]
        by_cases hk : k = key
        · subst hk
          simp [Event.touches, Event.leaves, Tracks]
        · simpa [Event.touches, hk, Ne.symm hk] using ht
  | clear i ok ts hth heq =>
      refine hsame heq ?_
      obtain ⟨done, rest, hdone⟩ := clearSection_spec hs i ok
      rw [hdone.now_eq, hdone.log_eq, history_clear, hdone.timed]
      have hcleared : ¬ (s.clearSection i ok).2.2 = true → shardFor cfg hash k = i → k ∉ done →
          (s.home hash k).timed k = none := by
        intro hret hi hk
        rw [Shared.home, hi, ← Option.not_isSome_iff_eq_none, ← CacheShard.mem_keys_iff_timed,
          hdone.keys_eq, hdone.rest_of_returned (by simpa using hret), List.append_nil]
        exact hk
      split_ifs with hk hc hc
      · exact .inl rfl
      · exact .inl rfl
      · exact .inl (hcleared hc.1 hc.2 hk)
      · exact ht
  | check t hth i hi hst heq => exact hsame heq ht
  | skip t hth hrel i hi hst heq =>
      exact hkeep (CacheShard.sameData_resolvePendingLocked _ _) heq.now_eq heq.log_eq heq.shards_eq
  | apply t hth hok heq =>
      refine hsame heq ?_
      show Tracks ((s.home hash k).timed k) (history cfg hash k (.applied t :: s.log)) s.now
      rwa [history, if_neg (by simp [Event.touches])]
  | fail t hth heq => exact hsame heq ht
  | giveUp ts hth hgive heq => exact hsame heq ht
  | release t ts hth hrel i hi heq =>
      exact hkeep (CacheShard.sameData_resolvePendingLocked _ _) heq.now_eq heq.log_eq heq.shards_eq
  | settle t hth hrel i hi heq =>
      exact hkeep (CacheShard.sameData_finalizeLocked _ _) heq.now_eq heq.log_eq heq.shards_eq
  | collect i hth hwb heq =>
      exact hkeep (CacheShard.sameData_registerAll _ _) heq.now_eq heq.log_eq heq.shards_eq

/-- A winding step keeps track of every key. -/
theorem Wound.tracks {s s' : Shared α V cfg} {flushing : Bool} (h : Wound s s' flushing) (k : Key α)
    (ht : Tracks ((s.home hash k).timed k) (history cfg hash k s.log) s.now) :
    Tracks ((s'.home hash k).timed k) (history cfg hash k s'.log) s'.now := by
  have hlog : history cfg hash k s'.log = history cfg hash k s.log := by
    rcases h.source with ⟨-, hlog⟩ | ⟨-, t, -, hlog⟩
    · rw [hlog]
    · rw [hlog, history, if_neg (by simp [Event.touches])]
  obtain ⟨i, sh', hshards, hd, -⟩ := h.shards
  rw [hlog, h.now_eq, Shared.home_of_update hshards]
  split_ifs with hi
  · rw [hd.timed_eq]
    rwa [Shared.home, hi] at ht
  · exact ht

/-- A step of the system keeps track of every key. -/
theorem tracks_step {s s' : System α V cfg} {l : Label α V T} (h : step cfg hash s l = some s')
    (hb : Base hash s) (k : Key α)
    (ht : Tracks ((s.shared.home hash k).timed k) (history cfg hash k s.shared.log) s.shared.now) :
    Tracks ((s'.shared.home hash k).timed k) (history cfg hash k s'.shared.log) s'.shared.now := by
  rcases step_cases h with ⟨now, -, hle, rfl⟩ | ⟨new, -, hsame, -⟩ | ⟨i, c, th, th', -, hi, hth, -⟩
  · exact ht.mono hle
  · rwa [Shared.home, hsame.shards_eq, hsame.log_eq, hsame.now_eq]
  · have hmem := List.mem_of_getElem? hi
    rcases threadStep_effect hth (hb.threads th hmem).2 (hb.flushing_mode hmem) with
      ⟨-, heff⟩ | ⟨-, hwound, -⟩
    · exact heff.tracks hb.shards k ht
    · exact hwound.tracks k ht

/-- **The store follows the history along every run.** -/
theorem tracks_exec {s : System α V cfg} {now : T} {src : Source α V} {ls : List (Label α V T)}
    (h : exec cfg hash (initial cfg now src) ls = some s) (k : Key α) :
    Tracks ((s.shared.home hash k).timed k) (history cfg hash k s.shared.log) s.shared.now := by
  have hstep : ∀ (s : System α V cfg) l s', step cfg hash s l = some s' →
      Base hash s ∧ Tracks ((s.shared.home hash k).timed k) (history cfg hash k s.shared.log) s.shared.now →
      Base hash s' ∧
        Tracks ((s'.shared.home hash k).timed k) (history cfg hash k s'.shared.log) s'.shared.now :=
    fun s l s' hst ⟨hb, ht⟩ => ⟨hb.step hst, tracks_step hst hb k ht⟩
  exact (Transition.run_invariant_of_step hstep h ⟨base_initial cfg hash now src, .inl rfl⟩).2

/-! ### The reads -/

/-- Every read of `k` reports the values `v` with `P v`, and nothing when there is none. -/
structure ReadsReport (hash : Key α → ℕ) (s : Shared α V cfg) (k : Key α) (P : V → Prop) : Prop where
  get : ∀ c caller, ∃ s' found,
    threadStep hash s c (.running (.get k) caller) = some (s', Thread.finished (.value found)) ∧
      ∀ v, found = some v ↔ P v
  contains : ∀ c caller, ∃ s' answer,
    threadStep hash s c (.running (.contains k) caller) = some (s', Thread.finished (.flag answer)) ∧
      (answer = true ↔ ∃ v, P v)
  inspect : ∀ c caller, ∃ s' found,
    threadStep hash s c (.running (.inspect k) caller) = some (s', Thread.finished (.snapshot found)) ∧
      ∀ v, (∃ e, found = some e ∧ e.key = k ∧ e.value = v) ↔ P v
  /-- The section of a dump on shard `i` adds a snapshot of `k` if that is its shard. -/
  dump : ∀ c (i : Fin cfg.shardCount) taken limit, ∃ s' new,
    threadStep hash s c (.dumping i taken limit) = some (s', Thread.dumping (i + 1) (taken ++ new) limit) ∧
      ∀ v, (∃ e ∈ new, e.key = k ∧ e.value = v) ↔ i = shardFor cfg hash k ∧ P v
  /-- The cached branch of `get_or_compute` is taken when there is something to report. -/
  getOrCompute : ∀ c caller ttl, ∃ s' th',
    threadStep hash s c (.running (.getOrCompute k ttl) caller) = some (s', th') ∧
      ∀ v, th' = .finished (.value (some v)) ↔ P v

/-- What is visible of an entry is its value while it is not expired. -/
theorem visible_timed_iff {sh : CacheShard α V T} {now : T} {v : V} :
    visible (sh.timed k) now = some v ↔
      ∃ e, sh.backend.getEntry k = some e ∧ e.isExpired now = false ∧ e.value = v := by
  rw [← CacheShard.readValueLocked_fst sh k false false, CacheShard.readValueLocked]
  cases sh.backend.getEntry k with
  | none => simp
  | some e => cases hx : e.isExpired now <;> simp [hx]

/-- What an inspection shows is visible. -/
theorem inspectLocked_fst_iff (sh : CacheShard α V T) (k : Key α) (now : T) (v : V) :
    (∃ e, (sh.inspectLocked k now).1 = some e ∧ e.key = k ∧ e.value = v) ↔
      visible (sh.timed k) now = some v := by
  rw [visible_timed_iff]
  unfold CacheShard.inspectLocked CacheShard.dropExpired
  cases he : sh.backend.getEntry k with
  | none => simp [he]
  | some e =>
      have hkey := sh.backend.keyed k e he
      cases hx : e.isExpired now with
      | true => simp [hx, InMemoryBackend.getEntry_deleteEntry]
      | false => simp [hx, he, CacheEntry.snapshot, hkey]

/-- What a dump shows is visible. -/
theorem dumpLocked_fst_iff (sh : CacheShard α V T) (k : Key α) (now : T) (v : V) :
    (∃ e ∈ (sh.dumpLocked now).1, e.key = k ∧ e.value = v) ↔ visible (sh.timed k) now = some v := by
  rw [visible_timed_iff, CacheShard.dumpLocked_fst]
  constructor
  · rintro ⟨_, hmem, hkey, hval⟩
    obtain ⟨e, he, rfl⟩ := List.mem_map.mp hmem
    obtain ⟨he, hx⟩ := List.mem_filter.mp he
    have hget := InMemoryBackend.mem_entryList.mp he
    rw [show e.key = k from hkey] at hget
    exact ⟨e, hget, by simpa using hx, hval⟩
  · rintro ⟨e, he, hx, hval⟩
    have hkey := sh.backend.keyed k e he
    refine ⟨e.snapshot now, List.mem_map.mpr ⟨e, List.mem_filter.mpr ⟨?_, by simp [hx]⟩, rfl⟩, hkey, hval⟩
    rw [InMemoryBackend.mem_entryList, hkey, he]

/-- Reads report what is visible. -/
theorem reads_report_visible {s : Shared α V cfg} (hs : ∀ i, ShardOk cfg hash i (s.shards i))
    (k : Key α) : ReadsReport hash s k fun v => visible ((s.home hash k).timed k) s.now = some v where
  get c caller := ⟨_, _, rfl, fun v => by rw [CacheShard.readValueLocked_fst]⟩
  contains c caller :=
    ⟨_, _, rfl, by rw [CacheShard.readValueLocked_fst, Option.isSome_iff_exists]⟩
  inspect c caller := ⟨_, _, rfl, inspectLocked_fst_iff _ k s.now⟩
  dump c i taken limit := by
    refine ⟨s.setShard i ((s.shards i).dumpLocked s.now).2, ((s.shards i).dumpLocked s.now).1, ?_,
      fun v => ?_⟩
    · simp [threadStep, clientStep]
    · rw [dumpLocked_fst_iff]
      by_cases hi : i = shardFor cfg hash k
      · subst hi
        exact ⟨fun h => ⟨rfl, h⟩, fun h => h.2⟩
      · rw [visible_timed_iff, (hs i).getEntry_eq_none fun e => hi e.symm]
        simp [hi]
  getOrCompute c caller ttl := by
    have hread := CacheShard.readValueLocked_fst (s.home hash k) k true true s.now
    simp only [threadStep, clientStep, CacheShard.getOrComputeLocked]
    cases hv : visible ((s.home hash k).timed k) s.now with
    | some v =>
        rw [hv] at hread
        refine ⟨_, .finished (.value (some v)), by simp only [hread]; rfl, fun w => by simp⟩
    | none =>
        rw [hv] at hread
        cases hf : ((s.home hash k).readValueLocked k true true s.now).2.singleflight.get? k with
        | some flight => exact ⟨_, .waiting flight, by simp only [hread]; rfl, fun w => by simp⟩
        | none => exact ⟨_, .leading k ttl _, by simp only [hread]; rfl, fun w => by simp⟩

/-- **Reads see a timed map**: at every point of every run, every read of `k` reports `k` with the
value `v` exactly when the history says so, that is when a put stored `v`, no put, delete, clear or
eviction of `k` came later, and the clock is strictly below the deadline of that put. -/
theorem reads_follow_history {cfg : AcceptedConfig T} {hash : Key α → ℕ} {now : T} {src : Source α V}
    {ls : List (Label α V T)} {s : System α V cfg}
    (h : exec cfg hash (initial cfg now src) ls = some s) (k : Key α) :
    ReadsReport hash s.shared k fun v => PresentWith cfg hash s.shared.log k v s.shared.now := by
  have hreads := reads_report_visible (base_exec h).shards k
  simpa only [(tracks_exec h k).visible_eq, visible_history_iff] using hreads

/-- One tick before its deadline an entry is still there. -/
theorem reads_follow_history_before_deadline :
    ∃ s : System ℕ ℕ (oneEntry .lru .cacheOnly 0 0 0),
      exec _ (fun _ => 0) (initial _ 0 .empty)
        [.call (.put (some 1) 10 (.seconds 5)), .run 0 {}, .run 0 {}, .tick 4] = some s ∧
      ReadsReport (fun _ => 0) s.shared (some 1) fun v =>
        PresentWith (oneEntry .lru .cacheOnly 0 0 0) (fun _ => 0) s.shared.log (some 1) v s.shared.now := by
  have heval : (exec (oneEntry .lru .cacheOnly 0 0 0) (fun _ => 0) (initial _ 0 .empty)
      [.call (.put (some 1) 10 (.seconds 5)), .run 0 {}, .run 0 {}, .tick 4] :
      Option (System ℕ ℕ (oneEntry .lru .cacheOnly 0 0 0))).isSome = true := by decide +kernel
  obtain ⟨s, hs⟩ := Option.isSome_iff_exists.mp heval
  exact ⟨s, hs, reads_follow_history hs (some 1)⟩

end CacheLab
