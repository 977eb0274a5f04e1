import CacheLab.System.Tours
import CacheLab.System.Keys
import CacheLab.Properties.Capacity

/-!
# What the fan-out calls are good for

`dump`, `size` and `clear` go over the shards without a lock on the whole cache, while other calls, workers and the
clock go on. Three properties that hold for every interleaving, policy and write mode:

* `dump` is weakly consistent: it shows no key twice, every snapshot was true at some moment of the call, and a key
  that could be read all the time is not missed;
* `size` lies between the sums of the bounds that the shards keep during the call;
* after a `clear` every resident key was stored by a put that came in between or later.

None of the three is a statement about one moment: a `dump` may show two entries that were never there together.
-/

set_option linter.unusedSectionVars false

namespace CacheLab

variable {α V T : Type} [DecidableEq α] [LinearOrder T] [Zero T] [Add T] [Sub T]

open Transition (Tour Visited)

variable {cfg : AcceptedConfig T} {hash : Key α → ℕ}

/-! ### Calls and their ends -/

/-- The end of a sweeping call: it was refused, or the answer is what it collected on a tour. -/
theorem Rounds.At.of_finished {w : Sweep α V T} {r : Rounds α V T w.β} {s : System α V cfg}
    {ls : List (Label α V T)} {result : Result α V T} (hgoing : ∀ j b, r.point j b ≠ .finished result)
    (h : r.At hash w s ls (.finished result)) :
    (∃ exn, result = .raised exn) ∨
      ∃ bs, Tour (CacheLab.step cfg hash) w.found s ls bs ∧ bs.length = cfg.shardCount ∧
        result = r.out (w.collected bs) := by
  generalize hth : (.finished result : Thread α V T) = th at h
  cases h with
  | entering => cases hth
  | running => cases hth
  | visiting bs htour hle => exact absurd hth.symm (hgoing _ _)
  | answered bs htour hlen => exact .inr ⟨bs, htour, hlen, by cases hth; rfl⟩
  | refused exn => exact .inl ⟨exn, by cases hth; rfl⟩

/-- A run that begins with a call. -/
theorem exec_call {s₀ s : System α V cfg} {op : Op α V T} {during : List (Label α V T)}
    (h : exec cfg hash s₀ (.call op :: during) = some s) :
    ∃ s₁, step cfg hash s₀ (.call op) = some s₁ ∧ exec cfg hash s₁ during = some s ∧
      ∀ t, Visited (step cfg hash) s₁ during t → Visited (step cfg hash) s₀ (.call op :: during) t := by
  obtain ⟨s₁, hcall, hrest⟩ := Transition.run_cons_eq_some.mp h
  refine ⟨s₁, hcall, hrest, ?_⟩
  rintro t ⟨ms, hms, hrun⟩
  exact ⟨.call op :: ms, List.cons_prefix_cons.mpr ⟨rfl, hms⟩, Transition.run_cons_eq_some.mpr ⟨s₁, hcall, hrun⟩⟩

/-- Evaluating a run in two parts. -/
theorem exec_parts {P : System α V cfg → Bool} {s : System α V cfg} {before rest : List (Label α V T)} {n : ℕ}
    (hlen : (exec cfg hash s before).map (fun u => u.threads.length) = some n)
    (heval : (exec cfg hash s (before ++ rest)).map P = some true) :
    ∃ s₀ t, exec cfg hash s before = some s₀ ∧ exec cfg hash s₀ rest = some t ∧ s₀.threads.length = n ∧
      P t = true := by
  obtain ⟨t, ht, hP⟩ := Option.map_eq_some_iff.mp heval
  obtain ⟨s₀, hs₀, hrest⟩ := Transition.run_append_eq_some.mp ht
  have hbefore : exec cfg hash s before = some s₀ := hs₀
  rw [hbefore, Option.map_some, Option.some.injEq] at hlen
  exact ⟨s₀, t, hbefore, hrest, hlen, hP⟩

/-- The invariant in all states of a run. -/
theorem base_visited {s t : System α V cfg} {ls : List (Label α V T)} (hb : Base hash s)
    (h : Visited (step cfg hash) s ls t) : Base hash t :=
  Transition.forall_visited (fun _ _ _ hstep hb => hb.step hstep) hb h

/-! ### `dump` -/

/-- A read of the key would find the entry now. -/
def System.Alive (hash : Key α → ℕ) (t : System α V cfg) (k : Key α) (e : CacheEntry α V T) : Prop :=
  (t.shared.home hash k).backend.getEntry k = some e ∧ e.isExpired t.shared.now = false

/-- What a `dump` takes from the shard at index `j`. -/
def System.shown (t : System α V cfg) : ℕ → List (EntrySnapshot α V T) := (dumpSweep α V none : Sweep α V T).found t

/-- What a `dump` has put together from the lists it took. -/
def collectedDumps (bs : List (List (EntrySnapshot α V T))) : List (EntrySnapshot α V T) :=
  (dumpSweep α V none : Sweep α V T).collected bs

/-- They are put one after another. -/
theorem collectedDumps_eq (bs : List (List (EntrySnapshot α V T))) : collectedDumps bs = bs.flatten := by
  have hflat : bs.foldl (fun ys x => ys ++ id x) [] = [] ++ (bs.map id).flatten := List.foldl_append_eq_append
  rw [List.map_id, List.nil_append] at hflat
  exact hflat

section Dump

variable {t : System α V cfg}

/-- What a `dump` takes from a shard. -/
theorem shown_of_lt {j : ℕ} (hj : j < cfg.shardCount) :
    t.shown j = ((t.shared.shards ⟨j, hj⟩).backend.entryList.filter fun e => !e.isExpired t.shared.now).map
      fun e => e.snapshot t.shared.now := by
  unfold System.shown Sweep.found
  rw [dif_pos hj]
  exact CacheShard.dumpLocked_fst _ _

/-- There is nothing beyond the shards. -/
theorem shown_of_not_lt {j : ℕ} (hj : ¬ j < cfg.shardCount) : t.shown j = [] := by
  unfold System.shown Sweep.found
  rw [dif_neg hj]
  rfl

/-- A snapshot from a shard is one of an entry that is alive there. -/
theorem mem_shown (hb : Base hash t) {j : ℕ} {x : EntrySnapshot α V T} (hx : x ∈ t.shown j) :
    (shardFor cfg hash x.key : ℕ) = j ∧ ∃ e, t.Alive hash x.key e ∧ x = e.snapshot t.shared.now := by
  by_cases hj : j < cfg.shardCount
  · rw [shown_of_lt hj] at hx
    obtain ⟨e, he, rfl⟩ := List.mem_map.mp hx
    obtain ⟨he, hfresh⟩ := List.mem_filter.mp he
    have hget := InMemoryBackend.mem_entryList.mp he
    have hhome : shardFor cfg hash e.key = ⟨j, hj⟩ := (hb.shards ⟨j, hj⟩).shardFor_eq hget
    have hkey : (e.snapshot t.shared.now).key = e.key := rfl
    rw [hkey]
    refine ⟨by rw [hhome], e, ⟨?_, by simpa using hfresh⟩, rfl⟩
    rw [Shared.home, hhome]
    exact hget
  · rw [shown_of_not_lt hj] at hx
    cases hx

/-- An entry that is alive is shown by the section on its shard. -/
theorem System.Alive.shown {k : Key α} {e : CacheEntry α V T} (h : t.Alive hash k e) :
    k ∈ (t.shown (shardFor cfg hash k)).map EntrySnapshot.key := by
  have hkey := (t.shared.home hash k).backend.keyed k e h.1
  rw [shown_of_lt (shardFor cfg hash k).isLt, List.map_map]
  refine List.mem_map.mpr ⟨e, List.mem_filter.mpr ⟨?_, by simp [h.2]⟩, hkey⟩
  rw [InMemoryBackend.mem_entryList, hkey]
  exact h.1

/-- The section on a shard shows no key twice. -/
theorem nodup_shown (j : ℕ) : ((t.shown j).map EntrySnapshot.key).Nodup := by
  by_cases hj : j < cfg.shardCount
  · rw [shown_of_lt hj, List.map_map]
    have hkeys : (((t.shared.shards ⟨j, hj⟩).backend.entryList.filter fun e => !e.isExpired t.shared.now).map
        CacheEntry.key).Nodup := by
      refine List.Nodup.sublist (List.Sublist.map _ List.filter_sublist) ?_
      rw [InMemoryBackend.map_key_entryList]
      exact (t.shared.shards ⟨j, hj⟩).backend.entries.keys_nodup
    exact hkeys
  · rw [shown_of_not_lt hj]
    exact List.nodup_nil

end Dump

/-- What can be said of a list of snapshots that was put together during a run. -/
structure WeaklyConsistent (hash : Key α → ℕ) (s₀ : System α V cfg) (ls : List (Label α V T))
    (all : List (EntrySnapshot α V T)) : Prop where
  /-- No key is shown twice. -/
  once : (all.map EntrySnapshot.key).Nodup
  /-- The keys come in the order of their shards. -/
  sorted : (all.map fun x => (shardFor cfg hash x.key : ℕ)).Pairwise (· ≤ ·)
  /-- Every snapshot is one of an entry that could be read at some moment of the run. -/
  sound : ∀ x ∈ all, ∃ t e, Visited (step cfg hash) s₀ ls t ∧ t.Alive hash x.key e ∧ x = e.snapshot t.shared.now
  /-- A key that could be read at all moments of the run is shown. -/
  complete : ∀ k, (∀ t, Visited (step cfg hash) s₀ ls t → ∃ e, t.Alive hash k e) → k ∈ all.map EntrySnapshot.key

/-- A tour with the section of a `dump` is weakly consistent. -/
theorem weaklyConsistent_of_tour {s : System α V cfg} {ls : List (Label α V T)}
    {bs : List (List (EntrySnapshot α V T))} (hb : Base hash s)
    (h : Tour (step cfg hash) System.shown s ls bs) (hlen : bs.length = cfg.shardCount) :
    WeaklyConsistent hash s ls bs.flatten := by
  have hplace : ∀ (j : ℕ) b, bs[j]? = some b → ∀ x ∈ b, (shardFor cfg hash x.key : ℕ) = j := by
    intro j b hj x hx
    obtain ⟨t, ht, rfl⟩ := h.seen hj
    exact (mem_shown (base_visited hb ht) hx).1
  have hplace' : ∀ (j : ℕ) (hj : j < bs.length), ∀ x ∈ bs[j], (shardFor cfg hash x.key : ℕ) = j := by
    intro j hj x hx
    exact hplace j _ (List.getElem?_eq_getElem hj) x hx
  refine ⟨?_, ?_, ?_, ?_⟩
  · rw [List.map_flatten, List.nodup_flatten]
    constructor
    · intro ks hks
      obtain ⟨b, hmem, rfl⟩ := List.mem_map.mp hks
      obtain ⟨j, hj⟩ := List.getElem?_of_mem hmem
      obtain ⟨t, -, rfl⟩ := h.seen hj
      exact nodup_shown j
    · rw [List.pairwise_map, List.pairwise_iff_getElem]
      intro i j hi hj hij k hk hk'
      obtain ⟨x, hx, rfl⟩ := List.mem_map.mp hk
      obtain ⟨y, hy, hxy⟩ := List.mem_map.mp hk'
      have hxi := hplace' i hi x hx
      have hyj := hplace' j hj y hy
      rw [hxy] at hyj
      omega
  · rw [List.map_flatten, List.pairwise_flatten]
    constructor
    · intro js hjs
      obtain ⟨b, hmem, rfl⟩ := List.mem_map.mp hjs
      obtain ⟨j, hj⟩ := List.getElem?_of_mem hmem
      rw [List.pairwise_map]
      refine List.pairwise_of_forall_mem_list ?_
      intro x hx y hy
      rw [hplace j b hj x hx, hplace j b hj y hy]
    · rw [List.pairwise_map, List.pairwise_iff_getElem]
      intro i j hi hj hij n hn n' hn'
      obtain ⟨x, hx, rfl⟩ := List.mem_map.mp hn
      obtain ⟨y, hy, rfl⟩ := List.mem_map.mp hn'
      rw [hplace' i hi x hx, hplace' j hj y hy]
      exact hij.le
  · intro x hx
    obtain ⟨b, hmem, hx⟩ := List.mem_flatten.mp hx
    obtain ⟨j, hj⟩ := List.getElem?_of_mem hmem
    obtain ⟨t, ht, rfl⟩ := h.seen hj
    obtain ⟨-, e, halive, hsnap⟩ := mem_shown (base_visited hb ht) hx
    exact ⟨t, e, ht, halive, hsnap⟩
  · intro k hk
    have hlt : (shardFor cfg hash k : ℕ) < bs.length := by
      rw [hlen]
      exact (shardFor cfg hash k).isLt
    obtain ⟨t, ht, hb'⟩ := h.seen (List.getElem?_eq_getElem hlt)
    obtain ⟨e, halive⟩ := hk t ht
    have hmem := halive.shown
    rw [← hb', List.mem_map] at hmem
    obtain ⟨x, hx, hkey⟩ := hmem
    exact List.mem_map.mpr ⟨x, List.mem_flatten.mpr ⟨_, List.getElem_mem hlt, hx⟩, hkey⟩

/-- More moments: weak consistency of a later part of a run is weak consistency of the run. -/
theorem WeaklyConsistent.of_visited {s₀ s₁ : System α V cfg} {ls ms : List (Label α V T)}
    {all : List (EntrySnapshot α V T)} (h : WeaklyConsistent hash s₁ ms all)
    (hvisited : ∀ t, Visited (step cfg hash) s₁ ms t → Visited (step cfg hash) s₀ ls t) :
    WeaklyConsistent hash s₀ ls all where
  once := h.once
  sorted := h.sorted
  sound := by
    intro x hx
    obtain ⟨t, e, ht, halive, hsnap⟩ := h.sound x hx
    exact ⟨t, e, hvisited t ht, halive, hsnap⟩
  complete := by
    intro k hk
    exact h.complete k fun t ht => hk t (hvisited t ht)

/-- **A `dump` is weakly consistent**, whatever else happens while it goes over the shards; a limit cuts a weakly
consistent list. -/
theorem dump_is_weakly_consistent {cfg : AcceptedConfig T} {hash : Key α → ℕ} {now : T} {src : Source α V}
    {before during : List (Label α V T)} {s₀ s : System α V cfg} {limit : Option ℤ}
    {answer : List (EntrySnapshot α V T)} (hbefore : exec cfg hash (initial cfg now src) before = some s₀)
    (hduring : exec cfg hash s₀ (.call (.dump limit) :: during) = some s)
    (hdone : s.threads[s₀.threads.length]? = some (Thread.finished (.snapshots answer))) :
    ∃ all, WeaklyConsistent hash s₀ (.call (.dump limit) :: during) all ∧ answer = upTo limit all := by
  obtain ⟨s₁, hcall, hrun, hvisited⟩ := exec_call hduring
  have hreads : (dumpSweep α V limit : Sweep α V T).whole.Reads hash (dumpSweep α V limit) := reads_dump limit
  obtain ⟨th, hth, hat⟩ := rounds_at hreads hcall hrun
  obtain rfl : th = .finished (.snapshots answer) := Option.some.inj (hth.symm.trans hdone)
  have hgoing : ∀ j b, (dumpSweep α V limit : Sweep α V T).whole.point j b ≠ .finished (.snapshots answer) := by
    intro j b h
    cases h
  rcases hat.of_finished hgoing with ⟨exn, hexn⟩ | ⟨bs, htour, hlen, hout⟩
  · cases hexn
  · have hb := (base_exec hbefore).step hcall
    have hanswer : answer = upTo limit (collectedDumps bs) := Result.snapshots.inj hout
    exact ⟨_, (weaklyConsistent_of_tour hb htour hlen).of_visited hvisited,
      hanswer.trans (congrArg (upTo limit) (collectedDumps_eq bs))⟩

/-- Two shards, without workers. -/
def twoShardsAlone : AcceptedConfig ℕ :=
    ⟨{ capacity := 4, shardCount := 2, schedulerInterval := 1, queuePutTimeout := 1 }, rfl⟩

/-- A key is put into the first shard. -/
def oneKeyThere : List (Label ℕ ℕ ℕ) := [.call (.put (some 2) 20 .unset), .run 0 {}, .run 0 {}]

/-- While a `dump` is between the shards, the key it has seen is deleted and another one is put into the second
shard. -/
def movedWhileDumped : List (Label ℕ ℕ ℕ) :=
  [.run 1 {}, .run 1 {}, .run 1 {}, .call (.delete (some 2)), .run 2 {}, .run 2 {},
    .call (.put (some 1) 10 .unset), .run 3 {}, .run 3 {}, .run 1 {}, .run 1 {}]

/-- The `dump` shows both keys, which were never there together. -/
theorem dump_is_weakly_consistent_movedWhileDumped :
    ∃ s₀ s : System ℕ ℕ twoShardsAlone, ∃ answer : List (EntrySnapshot ℕ ℕ ℕ),
      exec twoShardsAlone (fun k => k.getD 0) (initial twoShardsAlone 0 .empty) oneKeyThere = some s₀ ∧
      exec twoShardsAlone (fun k => k.getD 0) s₀ (.call (.dump none) :: movedWhileDumped) = some s ∧
      answer.map EntrySnapshot.key = [some 2, some 1] ∧
      ∃ all, WeaklyConsistent (fun k => k.getD 0) s₀ (.call (.dump none) :: movedWhileDumped) all ∧
        answer = upTo none all := by
  have hlen : (exec twoShardsAlone (fun k => k.getD 0) (initial twoShardsAlone 0 .empty) oneKeyThere).map
      (fun s : System ℕ ℕ twoShardsAlone => s.threads.length) = some 1 := by decide +kernel
  have heval : (exec twoShardsAlone (fun k => k.getD 0) (initial twoShardsAlone 0 .empty)
      (oneKeyThere ++ .call (.dump none) :: movedWhileDumped)).map (fun s : System ℕ ℕ twoShardsAlone =>
        decide (s.threads[1]? = some (Thread.finished (.snapshots
          [⟨some 2, 20, 0, 0, 0, none, none, none, 1, false⟩, ⟨some 1, 10, 0, 0, 0, none, none, none, 1, false⟩]))))
      = some true := by decide +kernel
  obtain ⟨s₀, s, hs₀, hs, hone, hdone⟩ := exec_parts hlen heval
  exact ⟨s₀, s, _, hs₀, hs, rfl,
    dump_is_weakly_consistent hs₀ hs (by rw [hone]; exact of_decide_eq_true hdone)⟩

/-! ### `size` -/

/-- The number of entries of the shard at index `j`. -/
def System.sizeAt (t : System α V cfg) (j : ℕ) : ℕ :=
  if h : j < cfg.shardCount then (t.shared.shards ⟨j, h⟩).backend.size else 0

/-- The number of entries of all shards. -/
def Shared.residents (s : Shared α V cfg) : ℕ := ∑ i, (s.shards i).backend.size

/-- The total is the sum over a tour that takes place in no time. -/
theorem residents_eq (t : System α V cfg) :
    t.shared.residents = ((List.range cfg.shardCount).map t.sizeAt).sum := by
  unfold Shared.residents
  rw [Finset.sum_fin_eq_sum_range]
  rfl

/-- A finished `size` is the sum over a tour of the sizes. -/
theorem size_is_tour {s₀ s : System α V cfg} {during : List (Label α V T)} {n : ℕ}
    (hduring : exec cfg hash s₀ (.call .size :: during) = some s)
    (hdone : s.threads[s₀.threads.length]? = some (Thread.finished (.number n))) :
    ∃ s₁ bs, step cfg hash s₀ (.call .size) = some s₁ ∧ exec cfg hash s₁ during = some s ∧
      (∀ t, Visited (step cfg hash) s₁ during t → Visited (step cfg hash) s₀ (.call .size :: during) t) ∧
      Tour (step cfg hash) System.sizeAt s₁ during bs ∧ bs.length = cfg.shardCount ∧ n = bs.sum := by
  obtain ⟨s₁, hcall, hrun, hvisited⟩ := exec_call hduring
  have hreads : (sizeSweep α V T).whole.Reads hash (sizeSweep α V T) := reads_size
  obtain ⟨th, hth, hat⟩ := rounds_at hreads hcall hrun
  obtain rfl : th = .finished (.number n) := Option.some.inj (hth.symm.trans hdone)
  have hgoing : ∀ j b, (sizeSweep α V T).whole.point j b ≠ .finished (.number n) := by
    intro j b h
    cases h
  rcases hat.of_finished hgoing with ⟨exn, hexn⟩ | ⟨bs, htour, hlen, hout⟩
  · cases hexn
  · have hsum : ∀ sizes : List ℕ, (sizeSweep α V T).collected sizes = sizes.sum :=
      fun sizes => List.sum_eq_foldl_nat.symm
    exact ⟨s₁, bs, hcall, hrun, hvisited, htour, hlen, (Result.number.inj hout).trans (hsum bs)⟩

section Residents

variable {s s' : Shared α V cfg} {c : Choice α V} {th th' : Thread α V T}

/-- A step that is no put adds no entry. -/
theorem residents_le_of_threadStep (h : threadStep hash s c th = some (s', th'))
    (hs : ∀ i, ShardOk cfg hash i (s.shards i))
    (hput : ∀ key value ttl caller, th ≠ .running (.put key value ttl) caller) :
    s'.residents ≤ s.residents :=
  Finset.sum_le_sum fun j _ => size_le_of_threadStep h (fun i => (hs i).agrees) hput j

/-- **A put adds at most one entry**, to the shard of its key. -/
theorem residents_put_le {key : Key α} {value : V} {ttl : Ttl T} {caller : Caller α V T}
    (h : threadStep hash s c (.running (.put key value ttl) caller) = some (s', th'))
    (hs : ∀ i, ShardOk cfg hash i (s.shards i)) (hs' : ∀ i, ShardOk cfg hash i (s'.shards i)) :
    s'.residents ≤ s.residents + 1 := by
  have hone : ∀ j, (s'.shards j).backend.size ≤
      (s.shards j).backend.size + if j = shardFor cfg hash key then 1 else 0 := by
    intro j
    rw [InMemoryBackend.size_eq_length_keys, InMemoryBackend.size_eq_length_keys]
    have hkey : ∀ k ∈ (s'.shards j).backend.keys, k ∈ (s.shards j).backend.keys ∨ k = key := by
      intro k hk
      rcases threadStep_mem_keys h (fun i => (hs i).agrees) hk with hmem | ⟨_, _, _, heq⟩
      · exact .inl hmem
      · cases heq
        exact .inr rfl
    have hnodup := (s'.shards j).backend.entries.keys_nodup
    split_ifs with hj
    · have hsub : (s'.shards j).backend.keys ⊆ key :: (s.shards j).backend.keys := by
        intro k hk
        rw [List.mem_cons]
        exact (hkey k hk).symm
      exact (List.subperm_of_subset hnodup hsub).length_le
    · refine (List.subperm_of_subset hnodup fun k hk => ?_).length_le
      rcases hkey k hk with hmem | rfl
      · exact hmem
      · obtain ⟨e, he⟩ := InMemoryBackend.mem_keys_iff.mp hk
        exact absurd ((hs' j).shardFor_eq he).symm hj
  calc s'.residents
      ≤ ∑ j, ((s.shards j).backend.size + if j = shardFor cfg hash key then 1 else 0) :=
        Finset.sum_le_sum fun j _ => hone j
    _ = s.residents + 1 := by
        rw [Finset.sum_add_distrib, Finset.sum_ite_eq' Finset.univ, if_pos (Finset.mem_univ _)]
        rfl

end Residents

/-- A step of the system adds at most one entry. -/
theorem residents_step_le {s s' : System α V cfg} {l : Label α V T} (h : step cfg hash s l = some s')
    (hb : Base hash s) : s'.shared.residents ≤ s.shared.residents + 1 := by
  rcases step_cases h with ⟨now, -, -, rfl⟩ | ⟨new, -, hsame, -⟩ | ⟨i, c, th, th', -, -, hth, -⟩
  · exact Nat.le_succ _
  · unfold Shared.residents
    rw [hsame.shards_eq]
    exact Nat.le_succ _
  · by_cases hput : ∃ key value ttl caller, th = .running (.put key value ttl) caller
    · obtain ⟨key, value, ttl, caller, rfl⟩ := hput
      exact residents_put_le hth hb.shards (hb.step h).shards
    · refine Nat.le_succ_of_le (residents_le_of_threadStep hth hb.shards ?_)
      intro key value ttl caller hth'
      exact hput ⟨key, value, ttl, caller, hth'⟩

/-- The step leaves a shard with fewer entries. -/
def shrinks (hash : Key α → ℕ) (s : System α V cfg) (l : Label α V T) : Bool :=
  match step cfg hash s l with
  | none => false
  | some s' => decide (∃ i, (s'.shared.shards i).backend.size < (s.shared.shards i).backend.size)

/-- A step that takes no entry away. -/
theorem size_le_of_shrinks {s s' : System α V cfg} {l : Label α V T} (h : shrinks hash s l = false)
    (hstep : step cfg hash s l = some s') (i : Fin cfg.shardCount) :
    (s.shared.shards i).backend.size ≤ (s'.shared.shards i).backend.size := by
  unfold shrinks at h
  rw [hstep] at h
  exact not_lt.mp fun hlt => of_decide_eq_false h ⟨i, hlt⟩

/-- **`size` is exact while the cache grows**: when no shard loses entries during the call, the answer is the number
of entries that the cache had at some moment of the call. -/
theorem size_of_growing_cache {cfg : AcceptedConfig T} {hash : Key α → ℕ} {now : T} {src : Source α V}
    {before during : List (Label α V T)} {s₀ s : System α V cfg} {n : ℕ}
    (hbefore : exec cfg hash (initial cfg now src) before = some s₀)
    (hduring : exec cfg hash s₀ (.call .size :: during) = some s)
    (hdone : s.threads[s₀.threads.length]? = some (Thread.finished (.number n)))
    (hgrows : Transition.Along (step cfg hash) (fun u l => shrinks hash u l = false) s₀ (.call .size :: during)) :
    ∃ t, Visited (step cfg hash) s₀ (.call .size :: during) t ∧ t.shared.residents = n := by
  obtain ⟨s₁, bs, hcall, hrun, hvisited, htour, hlen, rfl⟩ := size_is_tour hduring hdone
  have hgrows₁ := hgrows.2 s₁ hcall
  have hat : ∀ (j : ℕ), Transition.Along (step cfg hash)
      (fun u l => ∀ u', step cfg hash u l = some u' → u.sizeAt j ≤ u'.sizeAt j) s₁ during := by
    intro j
    refine hgrows₁.mono fun u l hP u' hstep => ?_
    unfold System.sizeAt
    split_ifs with hj
    · exact size_le_of_shrinks hP hstep ⟨j, hj⟩
    · exact le_rfl
  have hlow : s₁.shared.residents ≤ bs.sum := by
    rw [residents_eq, ← hlen]
    exact Transition.le_sum_of_getElem? fun j b hj => (htour.between (hat j) hrun hj).1
  have hhigh : bs.sum ≤ s.shared.residents := by
    rw [residents_eq, ← hlen]
    exact Transition.sum_le_of_getElem? fun j b hj => (htour.between (hat j) hrun hj).2
  have hslow : Transition.Along (step cfg hash)
      (fun u l => ∀ u', step cfg hash u l = some u' → u'.shared.residents ≤ u.shared.residents + 1) s₁ during := by
    refine Transition.along_of_invariant (R := fun _ => True) (fun u l u' _ hstep (hb : Base hash u) => hb.step hstep)
      ?_ (fun l _ => trivial) ((base_exec hbefore).step hcall)
    intro u l _ hb u' hstep
    exact residents_step_le hstep hb
  obtain ⟨t, ht, hsize⟩ := Transition.exists_visited_eq hslow hrun hlow hhigh
  exact ⟨t, hvisited t ht, hsize⟩

/-- Two keys are put while `size` goes over the shards. -/
def grownWhileCounted : List (Label ℕ ℕ ℕ) :=
  [.call (.put (some 4) 40 .unset), .call (.put (some 1) 10 .unset), .run 1 {}, .run 1 {}, .run 1 {},
    .run 2 {}, .run 2 {}, .run 3 {}, .run 3 {}, .run 1 {}, .run 1 {}]

/-- One of them comes too late for its shard, and the answer is the size between the two puts. -/
theorem size_of_growing_cache_grownWhileCounted :
    ∃ s₀ s : System ℕ ℕ twoShardsAlone,
      exec twoShardsAlone (fun k => k.getD 0) (initial twoShardsAlone 0 .empty) oneKeyThere = some s₀ ∧
      exec twoShardsAlone (fun k => k.getD 0) s₀ (.call .size :: grownWhileCounted) = some s ∧ s.shared.residents = 3 ∧
      ∃ t, Visited (step twoShardsAlone fun k => k.getD 0) s₀ (.call .size :: grownWhileCounted) t ∧
        t.shared.residents = 2 := by
  have hlen : (exec twoShardsAlone (fun k => k.getD 0) (initial twoShardsAlone 0 .empty) oneKeyThere).map
      (fun s : System ℕ ℕ twoShardsAlone => s.threads.length) = some 1 := by decide +kernel
  have heval : (exec twoShardsAlone (fun k => k.getD 0) (initial twoShardsAlone 0 .empty)
      (oneKeyThere ++ .call .size :: grownWhileCounted)).map (fun s : System ℕ ℕ twoShardsAlone =>
        decide (s.threads[1]? = some (Thread.finished (.number 2)) ∧ s.shared.residents = 3)) = some true := by decide +kernel
  obtain ⟨s₀, s, hs₀, hs, hone, hdone⟩ := exec_parts hlen heval
  obtain ⟨hdone, hsize⟩ := of_decide_eq_true hdone
  have hall : Transition.Along (step twoShardsAlone fun k => k.getD 0)
      (fun s l => shrinks (fun k => k.getD 0) s l = false) (initial twoShardsAlone 0 .empty)
      (oneKeyThere ++ .call .size :: grownWhileCounted) := by decide +kernel
  exact ⟨s₀, s, hs₀, hs, hsize, size_of_growing_cache hs₀ hs (by rw [hone]; exact hdone) (hall.right hs₀)⟩

/-! ### `clear` -/

/-- The keys of the shards before `j` were stored since the log was `log`. -/
def Shared.Renewed (hash : Key α → ℕ) (log : List (Event α V T)) (s : Shared α V cfg) (j : ℕ) : Prop :=
  ∀ k, (shardFor cfg hash k : ℕ) < j → s.StoredSince hash log k

/-- The points of the thread of a `clear` that came in when the log was `log`. -/
inductive Clearing (hash : Key α → ℕ) (log : List (Event α V T)) (s : Shared α V cfg) : Thread α V T → Prop
  | entering : Clearing hash log s (.entering .clear (.client .done))
  | running : Clearing hash log s (.running .clear (.client .done))
  | clearing (i : ℕ) (ts : List (Ticket α V)) (h : s.Renewed hash log i) : Clearing hash log s (.clearing i ts)
  | enqueuing (ts : List (Ticket α V)) (h : s.Renewed hash log cfg.shardCount) :
      Clearing hash log s (.enqueuing ts (.client .done))
  | releasing (ts : List (Ticket α V)) (h : s.Renewed hash log cfg.shardCount) :
      Clearing hash log s (.releasing ts (.client .done))
  | done (h : s.Renewed hash log cfg.shardCount) : Clearing hash log s (.finished .done)
  | refused (h : s.Renewed hash log cfg.shardCount) : Clearing hash log s (.finished (.raised .queueBackpressure))
  | failed (exn : Exn) (h : exn ≠ .queueBackpressure) : Clearing hash log s (.finished (.raised exn))

section Clear

variable {log : List (Event α V T)} {s s' : Shared α V cfg} {th th' : Thread α V T} {c : Choice α V}

/-- What was renewed stays renewed. -/
theorem Shared.Renewed.keep {j : ℕ} (h : s.Renewed hash log j) (hgrown : ∃ old, s.log = old ++ log)
    (hkey : ∀ k, ∃ new, s'.log = new ++ s.log ∧ KeyStep hash s s' k new) : s'.Renewed hash log j := by
  intro k hk
  obtain ⟨new, hlog, hstep⟩ := hkey k
  exact hstep.storedSince hlog hgrown (h k hk)

/-- The section of a `clear` that returned renews its shard. -/
theorem renewed_clearSection (hs : ∀ i, ShardOk cfg hash i (s.shards i)) (i : Fin cfg.shardCount) (ok : Key α → Bool)
    (hreturned : (s.clearSection i ok).2.2 = false) (h : (s.clearSection i ok).1.Renewed hash log i) :
    (s.clearSection i ok).1.Renewed hash log (i + 1) := by
  intro k hk
  rcases Nat.lt_or_eq_of_le (Nat.le_of_lt_succ hk) with hlt | heq
  · exact h k hlt
  · obtain ⟨done, rest, hdone⟩ := clearSection_spec hs i ok
    apply Shared.storedSince_of_none
    rw [hdone.timed]
    split_ifs with hmem
    · rfl
    · rw [← Option.not_isSome_iff_eq_none, Shared.home, Fin.ext heq, ← CacheShard.mem_keys_iff_timed, hdone.keys_eq,
        hdone.rest_of_returned hreturned, List.append_nil]
      exact hmem

/-- The thread of a `clear` after steps of others. -/
theorem Clearing.keep (h : Clearing hash log s th) (hgrown : ∃ old, s.log = old ++ log)
    (hkey : ∀ k, ∃ new, s'.log = new ++ s.log ∧ KeyStep hash s s' k new) : Clearing hash log s' th := by
  cases h with
  | entering => exact .entering
  | running => exact .running
  | clearing i ts h => exact .clearing i ts (h.keep hgrown hkey)
  | enqueuing ts h => exact .enqueuing ts (h.keep hgrown hkey)
  | releasing ts h => exact .releasing ts (h.keep hgrown hkey)
  | done h => exact .done (h.keep hgrown hkey)
  | refused h => exact .refused (h.keep hgrown hkey)
  | failed exn h => exact .failed exn h

/-- A step of the thread of a `clear`. -/
theorem Clearing.step (h : Clearing hash log s th) (hs : ∀ i, ShardOk cfg hash i (s.shards i))
    (hgrown : ∃ old, s.log = old ++ log) (hstep : threadStep hash s c th = some (s', th'))
    (hkey : ∀ k, ∃ new, s'.log = new ++ s.log ∧ KeyStep hash s s' k new) : Clearing hash log s' th' := by
  have hjobs : ∀ {u : Shared α V cfg} {ts : List (Ticket α V)}, u.Renewed hash log cfg.shardCount →
      enqueueOr u ts (.client .done) = (s', th') → Clearing hash log s' th' := by
    intro u ts hrenewed heq
    cases ts with
    | nil =>
        cases heq
        exact .done hrenewed
    | cons t ts =>
        cases heq
        exact .enqueuing (t :: ts) hrenewed
  have hclient : clientStep hash s c th = some (s', th') := by
    rcases threadStep_cases hstep with h' | h' | h'
    · exact h'
    · cases h <;> cases h'
    · cases h <;> cases h'
  cases h with
  | entering =>
      have hc := hclient
      rw [clientStep_entering (by simp)] at hc
      split at hc
      · cases hc
      · cases hc
        exact .failed .closedCache (by simp)
      · cases hc
        exact .failed .closedCache (by simp)
      · cases hc
        exact .running
  | running =>
      cases hclient
      exact .clearing 0 [] fun k hk => absurd hk (Nat.not_lt_zero _)
  | clearing i ts h =>
      have hc := hclient
      simp only [clientStep] at hc
      split_ifs at hc with hi hraised
      · cases hc
        exact .failed .sourceFailure (by simp)
      · cases hc
        have hkept := h.keep hgrown hkey
        exact .clearing (i + 1) _ (renewed_clearSection hs ⟨i, hi⟩ c.ok (by simpa using hraised) hkept)
      · refine hjobs (fun k hk => h k ?_) (Option.some.inj hc)
        exact hk.trans_le (not_lt.mp hi)
  | enqueuing ts h =>
      cases ts with
      | nil =>
          cases hclient
          exact .done h
      | cons t ts =>
          have hc := hclient
          simp only [clientStep] at hc
          split_ifs at hc
          · cases hc
            exact .failed .valueError (by simp)
          · cases hc
            exact .releasing (t :: ts) h
          · have hpushed : ({ s with queue := s.queue.push (.flushWriteBack t) } : Shared α V cfg).Renewed hash log
                cfg.shardCount := h
            exact hjobs hpushed (Option.some.inj hc)
  | releasing ts h =>
      cases ts with
      | nil =>
          cases hclient
          exact .refused h
      | cons t ts =>
          have hkept := h.keep hgrown hkey
          obtain ⟨s₁, hs₁, heq⟩ := Option.map_eq_some_iff.mp (hclient)
          cases heq
          exact .releasing ts hkept
  | done h => cases hstep
  | refused h => cases hstep
  | failed exn h => cases hstep

end Clear

/-- **After a `clear` nothing older is left**: when the call ended, with or without backpressure, every resident key
was stored by a put whose section came after the call began. -/
theorem nothing_older_after_clear {cfg : AcceptedConfig T} {hash : Key α → ℕ} {now : T} {src : Source α V}
    {before during : List (Label α V T)} {s₀ s : System α V cfg} {result : Result α V T}
    (hbefore : exec cfg hash (initial cfg now src) before = some s₀)
    (hduring : exec cfg hash s₀ (.call .clear :: during) = some s)
    (hdone : s.threads[s₀.threads.length]? = some (Thread.finished result))
    (hresult : result = .done ∨ result = .raised .queueBackpressure) :
    ∃ new, s.shared.log = new ++ s₀.shared.log ∧ ∀ i, ∀ k ∈ (s.shared.shards i).backend.keys,
      ∃ value ttl time, .stored k value ttl time ∈ new := by
  obtain ⟨s₁, hcall, hrun, -⟩ := exec_call hduring
  have hb := base_exec hbefore
  -- the thread of the call, along the run
  have hpath := @Transition.run_invariant_of_step _ _ (step cfg hash)
    (fun u => Base hash u ∧ (∃ old, u.shared.log = old ++ s₀.shared.log) ∧
      ∃ th, u.threads[s₀.threads.length]? = some th ∧ Clearing hash s₀.shared.log u.shared th)
    (by
      rintro u l u' hstep ⟨hb, ⟨old, hold⟩, th, hth, hclearing⟩
      have hkey := step_key hstep hb
      obtain ⟨new, hnew, -⟩ := hkey none
      refine ⟨hb.step hstep, ⟨new ++ old, by rw [hnew, hold, List.append_assoc]⟩, ?_⟩
      rcases step_thread hstep hth with hkeep | ⟨c, th', hthread, hth'⟩
      · exact ⟨th, hkeep, hclearing.keep ⟨old, hold⟩ hkey⟩
      · exact ⟨th', hth', hclearing.step hb.shards ⟨old, hold⟩ hthread hkey⟩)
    s₁ s during hrun
    (by
      refine ⟨hb.step hcall, ?_, .entering .clear (.client .done), ?_, .entering⟩
      · obtain ⟨new, hnew, -⟩ := step_key hcall hb none
        exact ⟨new, hnew⟩
      · obtain rfl := Option.some.inj hcall
        simp)
  obtain ⟨hb', ⟨new, hnew⟩, th, hth, hclearing⟩ := hpath
  obtain rfl : th = .finished result := Option.some.inj (hth.symm.trans hdone)
  have hrenewed : s.shared.Renewed hash s₀.shared.log cfg.shardCount := by
    rcases hresult with rfl | rfl
    · cases hclearing with
      | done h => exact h
    · cases hclearing with
      | refused h => exact h
      | failed exn h => exact absurd rfl h
  refine ⟨new, hnew, fun i k hk => ?_⟩
  obtain ⟨e, he⟩ := InMemoryBackend.mem_keys_iff.mp hk
  have hhome : shardFor cfg hash k = i := (hb'.shards i).shardFor_eq he
  have hsome : ((s.shared.home hash k).timed k).isSome := by
    rw [Shared.home, hhome, ← CacheShard.mem_keys_iff_timed]
    exact hk
  obtain ⟨new', hnew', value, ttl, time, hmem⟩ := hrenewed k (shardFor cfg hash k).isLt hsome
  obtain rfl : new' = new := List.append_cancel_right (hnew'.symm.trans hnew)
  exact ⟨value, ttl, time, hmem⟩

/-- A key is put into the first shard again while `clear` is at the second one. -/
def putWhileCleared : List (Label ℕ ℕ ℕ) :=
  [.run 1 {}, .run 1 {}, .run 1 {}, .call (.put (some 4) 40 .unset), .run 2 {}, .run 2 {}, .run 1 {}, .run 1 {}]

/-- It is the only key that is left. -/
theorem nothing_older_after_clear_putWhileCleared :
    ∃ s₀ s : System ℕ ℕ twoShardsAlone,
      exec twoShardsAlone (fun k => k.getD 0) (initial twoShardsAlone 0 .empty) oneKeyThere = some s₀ ∧
      exec twoShardsAlone (fun k => k.getD 0) s₀ (.call .clear :: putWhileCleared) = some s ∧
      (s.shared.shards ⟨0, by decide⟩).backend.keys = [some 4] ∧
      ∃ new, s.shared.log = new ++ s₀.shared.log ∧ ∀ i, ∀ k ∈ (s.shared.shards i).backend.keys,
        ∃ value ttl time, .stored k value ttl time ∈ new := by
  have hlen : (exec twoShardsAlone (fun k => k.getD 0) (initial twoShardsAlone 0 .empty) oneKeyThere).map
      (fun s : System ℕ ℕ twoShardsAlone => s.threads.length) = some 1 := by decide +kernel
  have heval : (exec twoShardsAlone (fun k => k.getD 0) (initial twoShardsAlone 0 .empty)
      (oneKeyThere ++ .call .clear :: putWhileCleared)).map (fun s : System ℕ ℕ twoShardsAlone =>
        decide (s.threads[1]? = some (Thread.finished .done) ∧ (s.shared.shards ⟨0, by decide⟩).backend.keys = [some 4])) =
      some true := by decide +kernel
  obtain ⟨s₀, s, hs₀, hs, hone, hdone⟩ := exec_parts hlen heval
  obtain ⟨hdone, hkeys⟩ := of_decide_eq_true hdone
  exact ⟨s₀, s, hs₀, hs, hkeys, nothing_older_after_clear hs₀ hs (by rw [hone]; exact hdone) (.inl rfl)⟩

end CacheLab
