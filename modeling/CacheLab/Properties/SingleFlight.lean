import CacheLab.System.Flights

/-!
# Single-flight exclusion and agreement

Two loaders of one key can run at the same time when a delete or a clear took the flight of the first
one off the registry before the second one was registered. The registry is keyed by the key and not
by the flight, so more can go wrong: a leader that completes its flight takes off whatever is
registered under its key, and a leader whose flight was taken off before it called its loader calls
it all the same.

* `loaders_exclude`: where neither happens, a delete or a clear ran between the starts of any two
  loaders that run at the same time; `late_leader_unregisters_flight` is a run in which it did not;
* `single_flight_agrees`: in every run each waiter gets what the leader of its flight gets, the event
  of a flight is set once and after its outcome is written, and every registered flight has a leader.
-/

set_option linter.unusedSectionVars false

namespace CacheLab

variable {α V T : Type} [DecidableEq α] [LinearOrder T] [Zero T] [Add T] [Sub T]

open Transition

variable {cfg : AcceptedConfig T} {hash : Key α → ℕ}

/-! ### Exclusion -/

/-- The flight that is registered under a key. -/
def Shared.registered (hash : Key α → ℕ) (s : Shared α V cfg) (k : Key α) : Option ℕ :=
  (s.home hash k).singleflight.get? k

/-- The flight that the thread is about to complete, with its key. -/
def Thread.completing : Thread α V T → Option (Key α × ℕ)
  | .publishing key flight _ => some (key, flight)
  | .failing key flight _ => some (key, flight)
  | _ => none

/-- **Exclusion**: between the starts of two loaders of one key that run at the same time, a delete of
the key or a clear went through. -/
def LoadersExclude (cfg : AcceptedConfig T) (hash : Key α → ℕ) (tr : List (Move α V T))
    (s : System α V cfg) : Prop :=
  ∀ (i j : ℕ) k ttl ttl' f f', i ≠ j → s.threads[i]? = some (Thread.loading k ttl f) →
    s.threads[j]? = some (Thread.loading k ttl' f') →
    InOrder [Move.starts k f, Move.invalidates cfg hash k, Move.starts k f'] tr ∨
      InOrder [Move.starts k f', Move.invalidates cfg hash k, Move.starts k f] tr

/-- The thread acts as a leader while another flight is registered under its key: it calls its loader
though its own flight was taken off the registry, or it completes its flight and takes off another. -/
def Thread.strays (hash : Key α → ℕ) (s : Shared α V cfg) : Thread α V T → Bool
  | .leading k _ f => decide (s.registered hash k ≠ some f)
  | .publishing k f _ => (s.registered hash k).any (· ≠ f)
  | .failing k f _ => (s.registered hash k).any (· ≠ f)
  | _ => false

/-- See `Thread.strays`. -/
def strays (hash : Key α → ℕ) (s : System α V cfg) : Label α V T → Bool
  | .run i _ => (s.threads[i]?).any (Thread.strays hash s.shared)
  | _ => false

/-- What a step does to the registered flights: a flight stays, or its key is invalidated, or a leader
of the key completes its own flight. -/
theorem Flown.registered {s s' : Shared α V cfg} {th th' : Thread α V T} (h : Flown hash s th s' th')
    (i : ℕ) {k : Key α} {f : ℕ} (hf : s.registered hash k = some f) :
    s'.registered hash k = some f ∨ (Move.moved i th th').invalidates cfg hash k = true ∨
      ∃ g, th.completing = some (k, g) := by
  have hground : ∀ {s' : Shared α V cfg}, Grounded s s' → s'.registered hash k = some f := by
    intro s' hs
    rw [Shared.registered, Shared.home, hs.registry]
    exact hf
  have herase : ∀ {s' : Shared α V cfg} {k'}, Refiles s s' (shardFor cfg hash k') (·.erase k') →
      s'.registered hash k = some f ∨ k' = k := by
    intro s' k' hreg
    by_cases hk : k' = k
    · exact .inr hk
    · refine .inl ?_
      rw [Shared.registered, Shared.home, hreg]
      split_ifs
      · rw [OrderedDict.get?_erase_of_ne _ (Ne.symm hk)]
        exact hf
      · exact hf
  cases h with
  | aside hth hth' hw hw' herase hs => exact .inl (hground hs)
  | deletes k' hth hth' hw' hok hreg hfl =>
      rcases herase hreg with h | rfl
      · exact .inl h
      · exact .inr (.inl (by simp [Move.invalidates, Thread.erases, hok]))
  | clears j hth' hw' hok hreg hfl =>
      by_cases hj : j = shardFor cfg hash k
      · exact .inr (.inl (by simp [Move.invalidates, Thread.erases, hok, hj]))
      · refine .inl ?_
        rw [Shared.registered, Shared.home, hreg, if_neg (Ne.symm hj)]
        exact hf
  | leads k' ttl hth hnone hreg hfl =>
      have hk : k ≠ k' := by
        rintro rfl
        rw [Shared.registered, hnone] at hf
        cases hf
      refine .inl ?_
      rw [Shared.registered, Shared.home, hreg]
      split_ifs
      · rw [OrderedDict.get?_set_of_ne _ _ hk]
        exact hf
      · exact hf
  | joins k' ttl f' hth hsome hs => exact .inl (hground hs)
  | starts k' ttl f' => exact .inl hf
  | loads k' ttl f' v => exact .inl hf
  | loadRaises k' ttl f' => exact .inl hf
  | putting k' f' v hth hth' hsh hs => exact .inl (hground hs)
  | putReturns k' f' v hth hs => exact .inl (hground hs)
  | putRaises k' f' v exn hth hexn hs => exact .inl (hground hs)
  | publishes k' f' v hreg hfl =>
      rcases herase hreg with h | rfl
      · exact .inl h
      · exact .inr (.inr ⟨f', rfl⟩)
  | fails k' f' exn hreg hfl =>
      rcases herase hreg with h | rfl
      · exact .inl h
      · exact .inr (.inr ⟨f', rfl⟩)
  | wakes f' x hx he => exact .inl hf

/-- A loader starts in no other way than by its leader's call. -/
theorem Flown.eq_of_loading {s s' : Shared α V cfg} {th : Thread α V T} {k : Key α} {ttl : Ttl T} {f : ℕ}
    (h : Flown hash s th s' (.loading k ttl f)) : th = .leading k ttl f ∧ s' = s := by
  cases h with
  | aside hth hth' hw hw' herase hs => cases hth'
  | deletes k' hth hth' hw' hok hreg hfl => cases hth'
  | clears j hth' hw' hok hreg hfl => cases hth'
  | starts k' ttl' f' => exact ⟨rfl, rfl⟩
  | putting k' f' v hth hth' hsh hs => cases hth'

/-- What is known of the loaders that run: each was started, and since then its flight is registered or
its key was invalidated. -/
structure Exclusion (hash : Key α → ℕ) (tr : List (Move α V T)) (s : System α V cfg) : Prop where
  flights : FlightsOk hash s
  started : ∀ (i : ℕ) k ttl f, s.threads[i]? = some (Thread.loading k ttl f) → InOrder [Move.starts k f] tr
  current : ∀ (i : ℕ) k ttl f, s.threads[i]? = some (Thread.loading k ttl f) →
    s.shared.registered hash k = some f ∨
      InOrder [Move.starts k f, Move.invalidates cfg hash k] tr
  exclude : LoadersExclude cfg hash tr s

/-- No loader came in. -/
theorem Exclusion.keep {tr : List (Move α V T)} {s s' : System α V cfg} (h : Exclusion hash tr s)
    (hok : FlightsOk hash s') (new : List (Move α V T))
    (hth : ∀ (i : ℕ) k ttl f, s'.threads[i]? = some (Thread.loading k ttl f) →
      s.threads[i]? = some (Thread.loading k ttl f))
    (hreg : ∀ (i : ℕ) k ttl f, s'.threads[i]? = some (Thread.loading k ttl f) →
      s.shared.registered hash k = some f →
      s'.shared.registered hash k = some f ∨
        InOrder [Move.starts k f, Move.invalidates cfg hash k] (tr ++ new)) :
    Exclusion hash (tr ++ new) s' where
  flights := hok
  started i k ttl f hi := (h.started i k ttl f (hth i k ttl f hi)).append_right new
  current i k ttl f hi := by
    rcases h.current i k ttl f (hth i k ttl f hi) with hr | hr
    · exact hreg i k ttl f hi hr
    · exact .inr (hr.append_right new)
  exclude i j k ttl ttl' f f' hij hi hj :=
    (h.exclude i j k ttl ttl' f f' hij (hth i k ttl f hi) (hth j k ttl' f' hj)).imp
      (·.append_right new) (·.append_right new)

/-- A loader starts while its flight is registered. -/
theorem Exclusion.start {tr : List (Move α V T)} {s s' : System α V cfg} (h : Exclusion hash tr s)
    (hok : FlightsOk hash s') {i : ℕ} {k : Key α} {ttl : Ttl T} {f : ℕ}
    (hi : s.threads[i]? = some (Thread.leading k ttl f))
    (hset : s'.threads = s.threads.set i (.loading k ttl f)) (hs : s'.shared = s.shared)
    (hown : s.shared.registered hash k = some f) :
    Exclusion hash (tr ++ [Move.moved i (.leading k ttl f) (.loading k ttl f)]) s' := by
  have hlt := (List.getElem?_eq_some_iff.mp hi).1
  have hstart : (Move.moved i (.leading k ttl f) (.loading k ttl f) : Move α V T).starts k f = true := by
    simp [Move.starts]
  have hcases : ∀ {j : ℕ} {k' ttl' f'}, s'.threads[j]? = some (Thread.loading k' ttl' f') →
      (j = i ∧ k' = k ∧ f' = f) ∨ j ≠ i ∧ s.threads[j]? = some (Thread.loading k' ttl' f') := by
    intro j k' ttl' f' hj
    rw [hset] at hj
    rcases Transition.getElem?_set_cases hj with ⟨rfl, hload⟩ | ⟨hji, hj⟩
    · cases hload
      exact .inl ⟨rfl, rfl, rfl⟩
    · exact .inr ⟨hji, hj⟩
  -- a loader that runs already is not the registered one, so its key was invalidated since its start
  have hbefore : ∀ {j : ℕ} {ttl' f'}, j ≠ i → s.threads[j]? = some (Thread.loading k ttl' f') →
      InOrder [Move.starts k f', Move.invalidates cfg hash k] tr := by
    intro j ttl' f' hji hj
    rcases h.current j k ttl' f' hj with hr | hr
    · have hff : f' = f := Option.some.inj (hr.symm.trans hown)
      have hlead : s.leads j = some (k, f) := by
        rw [System.leads_of_getElem? hj, ← hff]
        rfl
      exact absurd (h.flights.unique j i k k f hlead (System.leads_of_getElem? hi)) hji
    · exact hr
  refine ⟨hok, fun j k' ttl' f' hj => ?_, fun j k' ttl' f' hj => ?_, ?_⟩
  · rcases hcases hj with ⟨rfl, rfl, rfl⟩ | ⟨-, hj⟩
    · exact inOrder_singleton.mpr ⟨_, List.mem_append_right _ (List.mem_singleton_self _), hstart⟩
    · exact (h.started j k' ttl' f' hj).append_right _
  · rw [hs]
    rcases hcases hj with ⟨rfl, rfl, rfl⟩ | ⟨-, hj⟩
    · exact .inl hown
    · exact (h.current j k' ttl' f' hj).imp_right (·.append_right _)
  · intro a b k' ttl₁ ttl₂ f₁ f₂ hab ha hb
    rcases hcases ha with ⟨rfl, rfl, rfl⟩ | ⟨hai, ha⟩ <;> rcases hcases hb with ⟨rfl, hk, rfl⟩ | ⟨hbi, hb⟩
    · exact absurd rfl hab
    · exact .inr ((hbefore hbi hb).concat hstart)
    · subst hk
      exact .inl ((hbefore hai ha).concat hstart)
    · exact (h.exclude a b k' ttl₁ ttl₂ f₁ f₂ hab ha hb).imp (·.append_right _) (·.append_right _)

/-- **Exclusion, one step**: a step in which no leader strays keeps it. -/
theorem Exclusion.step {tr : List (Move α V T)} {s s' : System α V cfg} {l : Label α V T}
    (h : Exclusion hash tr s) (hown : strays hash s l = false) (hs : step cfg hash s l = some s') :
    Exclusion hash (tr ++ moves s l s') s' := by
  have hok := h.flights.step hs
  have hcome : ∀ new : List (Thread α V T), (∀ th ∈ new, th.flight = none) →
      s'.threads = s.threads ++ new → ∀ (i : ℕ) k ttl f, s'.threads[i]? = some (Thread.loading k ttl f) →
      s.threads[i]? = some (Thread.loading k ttl f) := by
    intro new hnew hth i k ttl f hi
    rw [hth] at hi
    rcases Transition.getElem?_append_cases hi with hi | hmem
    · exact hi
    · cases hnew _ hmem
  rcases step_moves hs with ⟨hm, hsh, hfl, n, hth⟩ | ⟨op, rfl, hm, hsh, hth⟩ |
    ⟨i, c, th, th', rfl, hm, hi, hstep, hset⟩
  · refine h.keep hok _ (hcome _ (fun th hmem => ?_) hth) fun _ _ _ _ _ hr => .inl ?_
    · rw [List.eq_of_mem_replicate hmem]
      rfl
    · rwa [Shared.registered, Shared.home, hsh]
  · refine h.keep hok _ (hcome _ (fun th hmem => ?_) hth) fun _ _ _ _ _ hr => .inl (hsh ▸ hr)
    rw [List.mem_singleton.mp hmem]
    rfl
  · have hflown := threadStep_flown hstep (h.flights.shaped th (List.mem_of_getElem? hi))
    have hthis : th.strays hash s.shared = false := by simpa [strays, hi] using hown
    rw [hm]
    by_cases hload : ∃ k ttl f, th' = .loading k ttl f
    · obtain ⟨k, ttl, f, rfl⟩ := hload
      obtain ⟨rfl, hsame⟩ := hflown.eq_of_loading
      exact h.start hok hi hset hsame (by simpa [Thread.strays] using hthis)
    · have hlt := (List.getElem?_eq_some_iff.mp hi).1
      have hback : ∀ (j : ℕ) k ttl f, s'.threads[j]? = some (Thread.loading k ttl f) →
          j ≠ i ∧ s.threads[j]? = some (Thread.loading k ttl f) := by
        intro j k ttl f hj
        rw [hset] at hj
        rcases Transition.getElem?_set_cases hj with ⟨rfl, hx⟩ | ⟨hji, hj⟩
        · exact absurd ⟨k, ttl, f, hx.symm⟩ hload
        · exact ⟨hji, hj⟩
      refine h.keep hok _ (fun j k ttl f hj => (hback j k ttl f hj).2) fun j k ttl f hj hr => ?_
      obtain ⟨hji, hj⟩ := hback j k ttl f hj
      rcases hflown.registered i hr with hr' | hinv | ⟨g, hg⟩
      · exact .inl hr'
      · exact .inr ((h.started j k ttl f hj).concat hinv)
      · -- a leader of the key completes its flight while that of the loader is registered: they are one
        have hgf : g = f := by
          cases th <;> cases hg <;> exact (by simpa [Thread.strays, hr] using hthis : f = g).symm
        have hlead : s.leads i = some (k, f) := by
          rw [System.leads_of_getElem? hi, ← hgf]
          cases th <;> cases hg <;> rfl
        exact absurd (h.flights.unique j i k k f (System.leads_of_getElem? hj) hlead) hji

/-- **Loaders of one key exclude each other.** In every run in which no leader acts while another flight
is registered under its key, a delete of the key or a clear went through between the starts of any two loaders of the
key that run at the same time. -/
theorem loaders_exclude {cfg : AcceptedConfig T} {hash : Key α → ℕ} {now : T} {src : Source α V}
    {ls : List (Label α V T)} {s : System α V cfg}
    (h : exec cfg hash (initial cfg now src) ls = some s)
    (hown : Along (step cfg hash) (fun s l => strays hash s l = false) (initial cfg now src) ls) :
    LoadersExclude cfg hash (trace cfg hash (initial cfg now src) ls) s := by
  have hstep : ∀ tr (s : System α V cfg) l s', strays hash s l = false → CacheLab.step cfg hash s l = some s' →
      Exclusion hash tr s → Exclusion hash (tr ++ moves s l s') s' := fun _ _ _ _ ho hs hi => hi.step ho hs
  have hinit : Exclusion hash [] (initial cfg now src : System α V cfg) :=
    ⟨flightsOk_initial cfg hash now src, fun i k ttl f hi => by simp [initial] at hi,
      fun i k ttl f hi => by simp [initial] at hi,
      fun i j k ttl ttl' f f' _ hi => by simp [initial] at hi⟩
  exact (observe_invariant hstep h hown hinit).exclude

/-- A caller leads a flight and calls its loader, a delete takes the flight off the registry, and a
second caller leads the next flight. -/
def deleteDuringLoad : List (Label ℕ ℕ ℕ) :=
  [.call (.getOrCompute (some 1) .unset), .run 0 {}, .run 0 {}, .run 0 {},
    .call (.delete (some 1)), .run 1 {}, .run 1 {},
    .call (.getOrCompute (some 1) .unset), .run 2 {}, .run 2 {}, .run 2 {}]

/-- Two loaders run at the same time, with a delete between their starts. -/
theorem loaders_exclude_after_delete :
    ∃ s : System ℕ ℕ (oneEntry .lru .cacheOnly 0 0 0),
      exec _ (fun _ => 0) (initial _ 0 .empty) deleteDuringLoad = some s ∧
      s.threads[0]? = some (Thread.loading (some 1) .unset 0) ∧
      s.threads[2]? = some (Thread.loading (some 1) .unset 1) ∧
      LoadersExclude (oneEntry .lru .cacheOnly 0 0 0) (fun _ => 0)
        (trace (oneEntry .lru .cacheOnly 0 0 0) (fun _ => 0) (initial _ 0 .empty) deleteDuringLoad) s := by
  have heval : ((exec (oneEntry .lru .cacheOnly 0 0 0) (fun _ => 0) (initial _ 0 .empty)
      deleteDuringLoad).map fun s : System ℕ ℕ (oneEntry .lru .cacheOnly 0 0 0) =>
        decide (s.threads[0]? = some (Thread.loading (some 1) .unset 0) ∧
          s.threads[2]? = some (Thread.loading (some 1) .unset 1))) = some true := by decide +kernel
  obtain ⟨s, hs, heval⟩ := Option.map_eq_some_iff.mp heval
  obtain ⟨h0, h2⟩ := of_decide_eq_true heval
  exact ⟨s, hs, h0, h2, loaders_exclude hs (by decide +kernel)⟩

/-- The loader of the first caller raises, and a third caller comes in. -/
def lateFailure : List (Label ℕ ℕ ℕ) :=
  deleteDuringLoad ++
    [Label.run 0 {}, .run 0 {}, .call (.getOrCompute (some 1) .unset), .run 3 {}, .run 3 {}, .run 3 {}]

/-- A leader whose flight a delete took off the registry fails and takes the next flight off, so a third
caller starts a loader beside that of the second, with no delete in between. -/
theorem late_leader_unregisters_flight :
    ∃ (ls : List (Label ℕ ℕ ℕ)) (s : System ℕ ℕ (oneEntry .lru .cacheOnly 0 0 0)),
      exec _ (fun _ => 0) (initial _ 0 .empty) ls = some s ∧
      ¬ LoadersExclude (oneEntry .lru .cacheOnly 0 0 0) (fun _ => 0)
        (trace (oneEntry .lru .cacheOnly 0 0 0) (fun _ => 0) (initial _ 0 .empty) ls) s := by
  have heval : ((exec (oneEntry .lru .cacheOnly 0 0 0) (fun _ => 0) (initial _ 0 .empty)
      lateFailure).map fun s : System ℕ ℕ (oneEntry .lru .cacheOnly 0 0 0) =>
        decide (s.threads[2]? = some (Thread.loading (some 1) .unset 1) ∧
          s.threads[3]? = some (Thread.loading (some 1) .unset 2))) = some true := by decide +kernel
  obtain ⟨s, hs, heval⟩ := Option.map_eq_some_iff.mp heval
  obtain ⟨h2, h3⟩ := of_decide_eq_true heval
  refine ⟨lateFailure, s, hs, fun h => ?_⟩
  have hnone : ∀ f ∈ [1, 2], ∀ f' ∈ [1, 2], ¬ InOrder [Move.starts (some 1) f,
      Move.invalidates (oneEntry .lru .cacheOnly 0 0 0) (fun _ => 0) (some 1), Move.starts (some 1) f']
      (trace (oneEntry .lru .cacheOnly 0 0 0) (fun _ => 0) (initial _ 0 .empty) lateFailure :
        List (Move ℕ ℕ ℕ)) := by decide +kernel
  rcases h 2 3 (some 1) .unset .unset 1 2 (by decide) h2 h3 with h | h
  · exact hnone 1 (by decide) 2 (by decide) h
  · exact hnone 2 (by decide) 1 (by decide) h

/-! ### Agreement -/

/-- The leader of flight `f` completes it: it publishes its outcome and sets the event. -/
def Move.completes (f : ℕ) : Move α V T → Bool
  | .moved _ before _ => before.completing.any (·.2 = f)
  | _ => false

/-- The move of a leader whose loader returned `v`. -/
abbrev Move.loaded (i : ℕ) (k : Key α) (ttl : Ttl T) (f : ℕ) (v : V) : Move α V T :=
  .moved i (.loading k ttl f) (.entering (.put k v ttl) (.leader k f v))

/-- **The outcome of the leader of flight `f`**, as the trace shows it: the loaded value if the put of it
returned or raised nothing but backpressure, else the exception of the loader or of the put. -/
inductive LeaderGot (tr : List (Move α V T)) (f : ℕ) : Result α V T → Prop
  | loaded {i : ℕ} {k : Key α} {ttl : Ttl T} {v : V} {th : Thread α V T}
      (hth : th.caller = some (Caller.leader k f v))
      (h : [.loaded i k ttl f v, .moved i th (.publishing k f v),
        .moved i (.publishing k f v) (.finished (.value (some v)))].Sublist tr) :
      LeaderGot tr f (.value (some v))
  | loaderRaised {i n : ℕ} {k : Key α} {ttl : Ttl T}
      (h : [.moved i (.loading k ttl f) (.failing k f (.loaderFailure n)),
        .moved i (.failing k f (.loaderFailure n)) (.finished (.raised (.loaderFailure n)))].Sublist tr) :
      LeaderGot tr f (.raised (.loaderFailure n))
  | putRaised {i : ℕ} {k : Key α} {ttl : Ttl T} {v : V} {th : Thread α V T} {exn : Exn}
      (hth : th.caller = some (Caller.leader k f v)) (hexn : exn ≠ .queueBackpressure)
      (h : [.loaded i k ttl f v, .moved i th (.failing k f exn),
        .moved i (.failing k f exn) (.finished (.raised exn))].Sublist tr) :
      LeaderGot tr f (.raised exn)

/-- **Agreement**, for a trace and the state it led to. -/
structure FlightsAgree (tr : List (Move α V T)) (s : System α V cfg) : Prop where
  /-- A waiter returns what the leader of its flight got before. -/
  waiters : Noted (fun before m => ∀ j f result, m = .moved j (.waiting f) (.finished result) →
    LeaderGot before f result) tr
  /-- A flight is completed at most once. -/
  once : ∀ f, (tr.filter (Move.completes f)).length ≤ 1
  /-- Its event is set only with its outcome written, and that is what its leader got. -/
  written : ∀ (f : ℕ) (x : Flight V), s.shared.flights[f]? = some x → x.event = true →
    (x.result.isSome ∨ x.exception.isSome) ∧ LeaderGot tr f x.outcome
  /-- Every registered flight has a leader that has not completed it. -/
  registered : ∀ i k f, (s.shared.shards i).singleflight.get? k = some f →
    s.shared.flights[f]? = some Flight.new ∧ ∃ th ∈ s.threads, th.flight = some (k, f)
  /-- Whoever waits for a flight waits for one that is completed or has a leader. -/
  awaited : ∀ th ∈ s.threads, ∀ f, th.awaits = some f → ∃ x, s.shared.flights[f]? = some x ∧
    (x.event = true ∨ ∃ th' ∈ s.threads, ∃ k, th'.flight = some (k, f))

/-- What the trace shows of the past of a leader. -/
def Thread.Past (tr : List (Move α V T)) (i : ℕ) : Thread α V T → Prop
  | .publishing k f v => ∃ ttl th, th.caller = some (Caller.leader k f v) ∧
      [.loaded i k ttl f v, .moved i th (.publishing k f v)].Sublist tr
  | .failing k f exn =>
      ((∃ n, exn = .loaderFailure n) ∧ ∃ ttl, [.moved i (.loading k ttl f) (.failing k f exn)].Sublist tr) ∨
      exn ≠ .queueBackpressure ∧ ∃ ttl v th, th.caller = some (Caller.leader k f v) ∧
        [.loaded i k ttl f v, .moved i th (.failing k f exn)].Sublist tr
  | th => ∀ k f v, th.caller = some (Caller.leader k f v) → ∃ ttl, [.loaded i k ttl f v].Sublist tr

section Past

variable {tr : List (Move α V T)} {s s' : Shared α V cfg} {th th' : Thread α V T} {i : ℕ}

/-- Later moves change nothing about the past. -/
theorem Thread.Past.append (h : th.Past tr i) (new : List (Move α V T)) : th.Past (tr ++ new) i := by
  have hsub : ∀ {l : List (Move α V T)}, l.Sublist tr → l.Sublist (tr ++ new) := fun hl =>
    hl.trans (List.sublist_append_left tr new)
  cases th with
  | publishing k f v =>
      obtain ⟨ttl, th, hc, hl⟩ := h
      exact ⟨ttl, th, hc, hsub hl⟩
  | failing k f exn =>
      rcases h with ⟨he, ttl, hl⟩ | ⟨he, ttl, v, th, hc, hl⟩
      · exact .inl ⟨he, ttl, hsub hl⟩
      · exact .inr ⟨he, ttl, v, th, hc, hsub hl⟩
  | _ => exact fun k f v hc => (h k f v hc).imp fun ttl hl => hsub hl

/-- See `Thread.Past.append`. -/
theorem LeaderGot.append {f : ℕ} {result : Result α V T} (h : LeaderGot tr f result)
    (new : List (Move α V T)) : LeaderGot (tr ++ new) f result := by
  have hsub : ∀ {l : List (Move α V T)}, l.Sublist tr → l.Sublist (tr ++ new) := fun hl =>
    hl.trans (List.sublist_append_left tr new)
  cases h with
  | loaded hth h => exact .loaded hth (hsub h)
  | loaderRaised h => exact .loaderRaised (hsub h)
  | putRaised hth hexn h => exact .putRaised hth hexn (hsub h)

/-- A thread outside a put of a leader has no past to speak of. -/
theorem Thread.past_of_caller (h : ∀ k f v, th.caller ≠ some (Caller.leader k f v))
    (hp : ∀ k f v, th ≠ .publishing k f v) (hf : ∀ k f exn, th ≠ .failing k f exn) : th.Past tr i := by
  cases th with
  | publishing k f v => exact absurd rfl (hp k f v)
  | failing k f exn => exact absurd rfl (hf k f exn)
  | _ => exact fun k f v hc => absurd hc (h k f v)

/-- A thread without a flight has no past to speak of. -/
theorem Thread.past_of_flight (h : th.flight = none) : th.Past tr i := by
  refine past_of_caller (fun k f v hc => ?_) (fun k f v e => ?_) fun k f exn e => ?_
  · cases th <;> cases hc <;> cases h
  · rw [e] at h
    cases h
  · rw [e] at h
    cases h

/-- A thread that is in the put of a leader knows what was loaded. -/
theorem Thread.Past.loaded {k : Key α} {f : ℕ} {v : V} (h : th.Past tr i)
    (hc : th.caller = some (Caller.leader k f v)) : ∃ ttl, [.loaded i k ttl f v].Sublist tr := by
  cases th <;> cases hc <;> exact h k f v rfl

/-- A step of a leader adds to its past. -/
theorem Flown.past (h : Flown hash s th s' th') (hpast : th.Past tr i) :
    th'.Past (tr ++ [Move.moved i th th']) i := by
  have hlast : ∀ {l : List (Move α V T)} {m : Move α V T}, l.Sublist tr →
      (l ++ [m]).Sublist (tr ++ [m]) := fun hl => hl.append (.refl _)
  cases h with
  | aside hth hth' hw hw' herase hs => exact Thread.past_of_flight hth'
  | deletes k hth hth' hw' hok hreg hfl => exact Thread.past_of_flight hth'
  | clears j hth' hw' hok hreg hfl => exact Thread.past_of_flight hth'
  | leads k ttl hth hnone hreg hfl => exact fun k f v hc => by cases hc
  | joins k ttl f hth hsome hs => exact fun k f v hc => by cases hc
  | starts k ttl f => exact fun k f v hc => by cases hc
  | loads k ttl f v =>
      rintro k' f' v' hc
      cases hc
      exact ⟨ttl, hlast (List.nil_sublist tr)⟩
  | loadRaises k ttl f n => exact .inl ⟨⟨n, rfl⟩, ttl, hlast (List.nil_sublist tr)⟩
  | putting k f v hth hth' hsh hs =>
      obtain ⟨ttl, hl⟩ := hpast.loaded hth
      have hl' := hl.trans (List.sublist_append_left tr [.moved i th th'])
      cases th' <;> cases hth'
      all_goals
        rintro k' f' v' hc
        cases hc
        exact ⟨ttl, hl'⟩
  | putReturns k f v hth hs =>
      obtain ⟨ttl, hl⟩ := hpast.loaded hth
      exact ⟨ttl, th, hth, hlast hl⟩
  | putRaises k f v exn hth hexn hs =>
      obtain ⟨ttl, hl⟩ := hpast.loaded hth
      exact .inr ⟨hexn, ttl, v, th, hth, hlast hl⟩
  | publishes k f v hreg hfl => exact fun k f v hc => by cases hc
  | fails k f exn hreg hfl => exact fun k f v hc => by cases hc
  | wakes f x hx he => exact fun k f v hc => by cases hc

/-- A leader that completes its flight got what its past says. -/
theorem Thread.Past.publish {k : Key α} {f : ℕ} {v : V}
    (h : (Thread.publishing k f v : Thread α V T).Past tr i) :
    LeaderGot (tr ++ [Move.moved i (.publishing k f v) (.finished (.value (some v)))]) f
      (.value (some v)) := by
  obtain ⟨ttl, th, hc, hl⟩ := h
  exact .loaded hc (hl.append (.refl [_]))

/-- See `Thread.Past.publish`. -/
theorem Thread.Past.fail {k : Key α} {f : ℕ} {exn : Exn}
    (h : (Thread.failing k f exn : Thread α V T).Past tr i) :
    LeaderGot (tr ++ [Move.moved i (.failing k f exn) (.finished (.raised exn))]) f (.raised exn) := by
  rcases h with ⟨⟨n, rfl⟩, ttl, hl⟩ | ⟨hexn, ttl, v, th, hc, hl⟩
  · exact .loaderRaised (hl.append (.refl [_]))
  · exact .putRaised hc hexn (hl.append (.refl [_]))

end Past

/-- What carries agreement through a run. -/
structure Agreement (hash : Key α → ℕ) (tr : List (Move α V T)) (s : System α V cfg) : Prop where
  flights : FlightsOk hash s
  past : ∀ (i : ℕ) th, s.threads[i]? = some th → th.Past tr i
  got : ∀ (f : ℕ) (x : Flight V), s.shared.flights[f]? = some x → x.event = true →
    LeaderGot tr f x.outcome
  count : ∀ f : ℕ, (tr.filter (Move.completes f)).length =
    if (s.shared.flights[f]?).any (·.event) then 1 else 0
  waiters : Noted (fun before m => ∀ j f result, m = .moved j (.waiting f) (.finished result) →
    LeaderGot before f result) tr

section Step

variable {tr : List (Move α V T)} {s s' : System α V cfg} {th th' : Thread α V T} {i : ℕ}

/-- The past of the threads after a thread moved. -/
theorem past_set (h : ∀ (j : ℕ) x, s.threads[j]? = some x → x.Past tr j) (hi : s.threads[i]? = some th)
    (hset : s'.threads = s.threads.set i th') {m : Move α V T} (hth' : th'.Past (tr ++ [m]) i) :
    ∀ (j : ℕ) x, s'.threads[j]? = some x → x.Past (tr ++ [m]) j := by
  intro j x hj
  rw [hset] at hj
  rcases Transition.getElem?_set_cases hj with ⟨rfl, rfl⟩ | ⟨-, hj⟩
  · exact hth'
  · exact (h j x hj).append _

/-- A move that completes no flight and wakes nobody. -/
theorem Agreement.keep (h : Agreement hash tr s) (hok : FlightsOk hash s') {m : Move α V T}
    (hpast : ∀ (j : ℕ) x, s'.threads[j]? = some x → x.Past (tr ++ [m]) j)
    (hfl : ∀ (f : ℕ) (x : Flight V), s'.shared.flights[f]? = some x → x.event = true →
      s.shared.flights[f]? = some x)
    (hany : ∀ f : ℕ, (s'.shared.flights[f]?).any (·.event) = (s.shared.flights[f]?).any (·.event))
    (hm : ∀ f, m.completes f = false)
    (hw : ∀ j f result, m = .moved j (.waiting f) (.finished result) → LeaderGot tr f result) :
    Agreement hash (tr ++ [m]) s' where
  flights := hok
  past := hpast
  got f x hx he := (h.got f x (hfl f x hx he) he).append _
  count f := by
    rw [List.filter_append, List.filter_cons_of_neg (by simp [hm f]), List.filter_nil, List.append_nil,
      hany f]
    exact h.count f
  waiters := noted_concat.mpr ⟨h.waiters, hw⟩

/-- A leader completes its flight. -/
theorem Agreement.complete (h : Agreement hash tr s) (hok : FlightsOk hash s') {k : Key α} {f : ℕ}
    {y : Flight V → Flight V} (hi : s.threads[i]? = some th) (hset : s'.threads = s.threads.set i th')
    (hth : th.completing = some (k, f)) (hth' : th'.flight = none)
    (hy : (y .new).event = true) (hfl : s'.shared.flights = s.shared.flights.modify f y)
    (hgot : LeaderGot (tr ++ [Move.moved i th th']) f (y .new).outcome) :
    Agreement hash (tr ++ [Move.moved i th th']) s' := by
  have hlead : s.leads i = some (k, f) := by
    rw [System.leads_of_getElem? hi]
    cases th <;> cases hth <;> rfl
  have hfresh := h.flights.fresh i k f hlead
  have hthis : s'.shared.flights[f]? = some (y .new) := by
    rw [hfl, List.getElem?_modify_eq, hfresh]
    rfl
  have hother : ∀ f', f' ≠ f → s'.shared.flights[f']? = s.shared.flights[f']? := fun f' hne => by
    rw [hfl, List.getElem?_modify_ne _ _ (Ne.symm hne)]
  refine ⟨hok, past_set h.past hi hset (Thread.past_of_flight hth'), fun f' x hx he => ?_, fun f' => ?_,
    noted_concat.mpr ⟨h.waiters, fun j f' result hm => ?_⟩⟩
  · by_cases hff : f' = f
    · subst hff
      rw [hthis, Option.some.injEq] at hx
      exact hx ▸ hgot
    · rw [hother f' hff] at hx
      exact (h.got f' x hx he).append _
  · rw [List.filter_append, List.length_append, h.count f']
    by_cases hff : f' = f
    · subst hff
      simp [hthis, hfresh, hy, Move.completes, hth]
    · have hne : ¬ f = f' := fun e => hff e.symm
      simp [hother f' hff, Move.completes, hth, hne]
  · cases hm
    cases hth

/-- **Agreement, one step.** -/
theorem Agreement.step {l : Label α V T} (h : Agreement hash tr s) (hs : step cfg hash s l = some s') :
    Agreement hash (tr ++ moves s l s') s' := by
  have hok := h.flights.step hs
  rcases step_moves hs with ⟨hm, hsh, hfl, n, hth⟩ | ⟨op, -, hm, hsh, hth⟩ |
    ⟨i, c, th, th', -, hm, hi, hstep, hset⟩
  · rw [hm, List.append_nil]
    refine ⟨hok, fun j x hj => ?_, fun f x hx => h.got f x (hfl ▸ hx), fun f => hfl ▸ h.count f, h.waiters⟩
    rw [hth] at hj
    rcases Transition.getElem?_append_cases hj with hj | hmem
    · exact h.past j x hj
    · rw [List.eq_of_mem_replicate hmem]
      exact Thread.past_of_flight rfl
  · rw [hm]
    refine h.keep hok (fun j x hj => ?_) (fun f x hx _ => hsh ▸ hx) (fun f => by rw [hsh]) (fun _ => rfl)
      fun j f result e => by cases e
    rw [hth] at hj
    rcases Transition.getElem?_append_cases hj with hj | hmem
    · exact (h.past j x hj).append _
    · rw [List.mem_singleton.mp hmem]
      exact Thread.past_of_flight rfl
  · rw [hm]
    have hflown := threadStep_flown hstep (h.flights.shaped th (List.mem_of_getElem? hi))
    have hpast := past_set h.past hi hset (hflown.past (h.past i th hi))
    have hnot : th.completing = none → ∀ f, (Move.moved i th th').completes f = false := by
      intro hc f
      simp [Move.completes, hc]
    have hnone : ∀ {th : Thread α V T}, th.flight = none → th.completing = none := by
      intro th h
      cases th <;> first | rfl | cases h
    have hcaller : ∀ {th : Thread α V T} {caller}, th.caller = some caller →
        th.completing = none ∧ th.awaits = none := by
      intro th caller h
      cases th <;> first | exact ⟨rfl, rfl⟩ | cases h
    obtain ⟨sh', hsh'⟩ : ∃ sh', s'.shared = sh' := ⟨_, rfl⟩
    have hquiet : sh'.flights = s.shared.flights → th.completing = none → th.awaits = none →
        Agreement hash (tr ++ [Move.moved i th th']) s' := by
      intro hfl hc hw
      rw [← hsh'] at hfl
      refine h.keep hok hpast (fun f x hx _ => hfl ▸ hx) (fun f => by rw [hfl]) (hnot hc) ?_
      rintro j f result e
      cases e
      cases hw
    rw [hsh'] at hflown
    cases hflown with
    | aside hth hth' hw hw' herase hs => exact hquiet hs.flights (hnone hth) hw
    | deletes k hth hth' hw' hok hreg hfl => exact hquiet hfl rfl rfl
    | clears j hth' hw' hok hreg hfl => exact hquiet hfl rfl rfl
    | leads k ttl hth hreg' hreg hfl =>
        have hnew : ∀ f : ℕ, s'.shared.flights[f]? = s.shared.flights[f]? ∨
            s'.shared.flights[f]? = some Flight.new ∧ s.shared.flights[f]? = none := by
          intro f
          rw [hsh', hfl, List.getElem?_append]
          split_ifs with hlt
          · exact .inl rfl
          · rw [List.getElem?_eq_none (not_lt.mp hlt)]
            rcases Nat.eq_zero_or_pos (f - s.shared.flights.length) with h0 | hpos
            · rw [h0]
              exact .inr ⟨rfl, rfl⟩
            · rw [List.getElem?_eq_none (by rw [List.length_singleton]; exact hpos)]
              exact .inl rfl
        refine h.keep hok hpast (fun f x hx he => ?_) (fun f => ?_) (hnot rfl) fun j f result e => by cases e
        · rcases hnew f with heq | ⟨heq, -⟩
          · exact heq ▸ hx
          · rw [heq] at hx
            cases hx
            cases he
        · rcases hnew f with heq | ⟨heq, heq'⟩
          · rw [heq]
          · rw [heq, heq']
            rfl
    | joins k ttl f hth hsome hs => exact hquiet hs.flights rfl rfl
    | starts k ttl f => exact hquiet rfl rfl rfl
    | loads k ttl f v => exact hquiet rfl rfl rfl
    | loadRaises k ttl f => exact hquiet rfl rfl rfl
    | putting k f v hth hth' hsh hs => exact hquiet hs.flights (hcaller hth).1 (hcaller hth).2
    | putReturns k f v hth hs => exact hquiet hs.flights (hcaller hth).1 (hcaller hth).2
    | putRaises k f v exn hth hexn hs => exact hquiet hs.flights (hcaller hth).1 (hcaller hth).2
    | publishes k f v hreg hfl =>
        rw [← hsh'] at hfl
        exact h.complete hok hi hset rfl rfl rfl hfl (h.past i _ hi).publish
    | fails k f exn hreg hfl =>
        rw [← hsh'] at hfl
        exact h.complete hok hi hset rfl rfl rfl hfl (h.past i _ hi).fail
    | wakes f x hx he =>
        refine h.keep hok hpast (fun f x hx _ => hsh' ▸ hx) (fun f => by rw [hsh']) (hnot rfl)
          fun j f' result e => ?_
        cases e
        exact h.got f x hx he

end Step

/-- **Single flights agree.** In every run each waiter returns what the leader of its flight got, a
flight is completed once and with its outcome written, and every flight that is registered or waited
for is completed or has a leader that will complete it. -/
theorem single_flight_agrees {cfg : AcceptedConfig T} {hash : Key α → ℕ} {now : T} {src : Source α V}
    {ls : List (Label α V T)} {s : System α V cfg}
    (h : exec cfg hash (initial cfg now src) ls = some s) :
    FlightsAgree (trace cfg hash (initial cfg now src) ls) s := by
  have hstep : ∀ tr (s : System α V cfg) l s', CacheLab.step cfg hash s l = some s' →
      Agreement hash tr s → Agreement hash (tr ++ moves s l s') s' := fun _ _ _ _ hs hi => hi.step hs
  have hinit : Agreement hash [] (initial cfg now src : System α V cfg) :=
    ⟨flightsOk_initial cfg hash now src, fun i th hi => by simp [initial] at hi,
      fun f x hx => by simp [initial] at hx, fun f => by simp [initial], noted_nil⟩
  have hagree := observe_invariant_of_step hstep h hinit
  have hok := hagree.flights
  have hmem : ∀ {j k f}, s.leads j = some (k, f) → ∃ th ∈ s.threads, th.flight = some (k, f) := by
    intro j k f hj
    obtain ⟨th, hth, hfl⟩ := Option.bind_eq_some_iff.mp hj
    exact ⟨th, List.mem_of_getElem? hth, hfl⟩
  refine ⟨hagree.waiters, fun f => ?_, fun f x hx he => ⟨?_, hagree.got f x hx he⟩, fun i k f hf => ?_,
    fun th hth f hf => ?_⟩
  · refine le_of_eq_of_le (hagree.count f) ?_
    split_ifs <;> omega
  · rcases hok.written f x hx with rfl | ⟨v, rfl⟩ | ⟨exn, rfl⟩
    · cases he
    · exact .inl rfl
    · exact .inr rfl
  · obtain ⟨-, j, hj⟩ := hok.registered i k f hf
    exact ⟨hok.fresh j k f hj, hmem hj⟩
  · have hlt := hok.awaited th hth f hf
    have hx := List.getElem?_eq_getElem hlt
    refine ⟨_, hx, ?_⟩
    rcases hok.written f _ hx with hnew | ⟨v, hv⟩ | ⟨exn, hv⟩
    · obtain ⟨j, k, hj⟩ := hok.led f (hx.trans (congrArg some hnew))
      obtain ⟨th', hth', hfl⟩ := hmem hj
      exact .inr ⟨th', hth', k, hfl⟩
    · exact .inl (by rw [hv]; rfl)
    · exact .inl (by rw [hv]; rfl)

/-- A put fills the queue, a caller leads a flight, another one joins it, and the put of the leader
raises backpressure. -/
def loadUnderBackpressure : List (Label ℕ ℕ ℕ) :=
  [.call (.put (some 2) 5 .unset), .run 0 {}, .run 0 {}, .run 0 {},
    .call (.getOrCompute (some 1) .unset), .run 1 {}, .run 1 {}, .run 1 {},
    .call (.getOrCompute (some 1) .unset), .run 2 {}, .run 2 {},
    .run 1 { loaded := some 7 }, .run 1 {}, .run 1 {}, .run 1 {}, .run 1 {}, .run 1 {}, .run 1 {}, .run 2 {}]

/-- The waiter gets the loaded value though the flush of it was refused. -/
theorem single_flight_agrees_under_backpressure :
    ∃ s : System ℕ ℕ (oneEntry .lru .writeBack 0 1 0),
      exec _ (fun _ => 0) (initial _ 0 .empty) loadUnderBackpressure = some s ∧
      s.threads[2]? = some (Thread.finished (.value (some 7))) ∧
      FlightsAgree (trace (oneEntry .lru .writeBack 0 1 0) (fun _ => 0) (initial _ 0 .empty)
        loadUnderBackpressure) s := by
  have heval : ((exec (oneEntry .lru .writeBack 0 1 0) (fun _ => 0) (initial _ 0 .empty)
      loadUnderBackpressure).map fun s : System ℕ ℕ (oneEntry .lru .writeBack 0 1 0) =>
        decide (s.threads[2]? = some (Thread.finished (.value (some 7))))) = some true := by decide +kernel
  obtain ⟨s, hs, heval⟩ := Option.map_eq_some_iff.mp heval
  exact ⟨s, hs, of_decide_eq_true heval, single_flight_agrees hs⟩

end CacheLab
