import CacheLab.System.Rounds

/-!
# A cache and its shards side by side

A run of a cache with `n` shards in cache-only mode, next to the runs of `n` caches with one shard each.

* `Owned` notes with a system which call each thread is of; a worker is of none. `concerns hash i` are the threads
  that shard `i` has to do with: the calls for its keys, the calls that visit all shards, and the workers.
* `route hash i` are the labels with which the cache of shard `i` answers a step, `subRun` those of a run: the
  ticks, the calls that concern it, the steps of these calls that have to do with it, and each sweep of the shard
  by a worker at the moment when the worker does it.
* `SplitAt` says that the caches are in step: each is in the state of its shard (`Twin`), and each thread is at
  the same point (`Parted`). A sweeping call is at the shard `j` in the whole cache when it is over in the caches
  before `j` and not begun in the others; what it collected is the total of their answers.
-/

set_option linter.unusedSectionVars false

namespace CacheLab

variable {α V T : Type} [DecidableEq α] [LinearOrder T] [Zero T] [Add T] [Sub T]

open Transition (rank rank_append rank_length rank_lt rank_injective)

variable {cfg : AcceptedConfig T} {hash : Key α → ℕ}

/-! ### The runs and whose threads they have -/

/-- The calls for a key, and the calls that visit all shards. -/
def Op.splits : Op α V T → Bool
  | .get _ | .contains _ | .inspect _ | .put _ _ _ | .delete _ | .getOrCompute _ _ => true
  | .clear | .size | .dump _ | .expireAll => true
  | _ => false

/-- The labels of the runs: any step, and calls of the operations above. -/
def Label.splits : Label α V T → Bool
  | .call op => op.splits
  | _ => true

/-- A system, and for each thread the call it is of; a worker is of none. -/
structure Owned (α V : Type) {T : Type} [DecidableEq α] [LinearOrder T] [Zero T] (cfg : AcceptedConfig T) where
  system : System α V cfg
  owners : List (Option (Op α V T))

/-- Whose threads a label adds. -/
def newcomers (s : System α V cfg) : Label α V T → List (Option (Op α V T))
  | .call op => [some op]
  | .start => if s.shared.lifecycle = .created then List.replicate cfg.workerCount none else []
  | _ => []

/-- A step, with the owners of the threads noted. -/
def ownedStep (cfg : AcceptedConfig T) (hash : Key α → ℕ) (s : Owned α V cfg) (l : Label α V T) :
    Option (Owned α V cfg) :=
  (step cfg hash s.system l).map fun t => ⟨t, s.owners ++ newcomers s.system l⟩

/-- The notes are no part of the system. -/
theorem exists_owned {s : Owned α V cfg} {t : System α V cfg} {ls : List (Label α V T)}
    (h : exec cfg hash s.system ls = some t) :
    ∃ owners, Transition.run (ownedStep cfg hash) s ls = some ⟨t, owners⟩ := by
  induction ls generalizing s with
  | nil =>
      obtain rfl := Option.some.inj h
      exact ⟨s.owners, rfl⟩
  | cons l ls ih =>
      obtain ⟨s', hs', hrest⟩ := Transition.run_cons_eq_some.mp h
      obtain ⟨owners, hrun⟩ := ih (s := ⟨s', s.owners ++ newcomers s.system l⟩) hrest
      refine ⟨owners, Transition.run_cons_eq_some.mpr ⟨_, ?_, hrun⟩⟩
      rw [ownedStep, hs', Option.map_some]

/-- The shard has to do with the threads of this owner. -/
def concerns (hash : Key α → ℕ) (i : Fin cfg.shardCount) (owner : Option (Op α V T)) : Bool :=
  match owner.bind Op.key? with
  | some key => decide (shardFor cfg hash key = i)
  | none => true

/-- A worker concerns all shards. -/
@[simp] theorem concerns_none (i : Fin cfg.shardCount) : concerns hash i (none : Option (Op α V T)) = true := rfl

/-- A call for a key concerns the shard of the key. -/
theorem concerns_of_key {op : Op α V T} {key : Key α} (h : op.key? = some key) (i : Fin cfg.shardCount) :
    concerns hash i (some op) = decide (shardFor cfg hash key = i) := by
  simp [concerns, h]

/-- A call that visits all shards concerns all. -/
theorem concerns_of_sweep {op : Op α V T} {w : Sweep α V T} (h : sweepOf op = some w) (i : Fin cfg.shardCount) :
    concerns hash i (some op) = true := by
  cases op with
  | clear => rfl
  | size => rfl
  | dump limit => rfl
  | expireAll => rfl
  | _ => cases h

/-! ### The runs of the caches with one shard -/

/-- The call that a cache with one shard gets: a `dump` is not cut there. -/
def Op.onPart : Op α V T → Op α V T
  | .dump _ => .dump none
  | op => op

/-- The labels with which the cache of shard `i` answers a step. -/
def route (hash : Key α → ℕ) (i : Fin cfg.shardCount) (s : Owned α V cfg) : Label α V T → List (Label α V T)
  | .tick now => [.tick now]
  | .start => [.start]
  | .call op => if concerns hash i (some op) then [.call op.onPart] else []
  | .schedule _ => []
  | .run t c =>
      match s.owners[t]?, s.system.threads[t]? with
      | some (some op), some th =>
          if concerns hash i (some op) && th.visits i then [.run (rank (concerns hash i) s.owners t) c] else []
      | some none, some (.handling (.expireShard j)) =>
          if j = i then
            .schedule 0 :: List.replicate 3 (.run (rank (concerns hash i) s.owners t) c)
          else []
      | _, _ => []

/-- The part of a run that the cache of shard `i` takes. -/
def subRun (cfg : AcceptedConfig T) (hash : Key α → ℕ) (i : Fin cfg.shardCount) (s : System α V cfg)
    (ls : List (Label α V T)) : List (Label α V T) :=
  Transition.runImages (ownedStep cfg hash) (route hash i) ⟨s, []⟩ ls

/-! ### Threads side by side -/

/-- The points of a worker that has nothing to do but sweeps. -/
def Thread.sweeper : Thread α V T → Bool
  | .idle => true
  | .handling (.expireShard _) => true
  | .finishing => true
  | .stopped => true
  | _ => false

/-- A thread of the whole cache and the threads that take its part in the caches with one shard. -/
inductive Parted (hash : Key α → ℕ) (os : List (Fin cfg.shardCount)) :
    Option (Op α V T) → Thread α V T → (Fin cfg.shardCount → Thread α V T) → Prop
  | keyed {op : Op α V T} {key : Key α} {th : Thread α V T} {f : Fin cfg.shardCount → Thread α V T}
      (hop : op.key? = some key) (hth : KeyedAt (fun n => os[n]? = some (shardFor cfg hash key)) key th)
      (hf : f (shardFor cfg hash key) = th.rename (rank (· = shardFor cfg hash key) os)) :
      Parted hash os (some op) th f
  | worker {th : Thread α V T} {f : Fin cfg.shardCount → Thread α V T} (hth : th.sweeper = true)
      (hf : ∀ i, f i = .idle) : Parted hash os none th f
  | entering {op : Op α V T} {w : Sweep α V T} {f : Fin cfg.shardCount → Thread α V T} (hw : sweepOf op = some w)
      (hf : ∀ i, f i = .entering w.part.op (.client .done)) :
      Parted hash os (some op) (.entering w.whole.op (.client .done)) f
  | running {op : Op α V T} {w : Sweep α V T} {f : Fin cfg.shardCount → Thread α V T} (hw : sweepOf op = some w)
      (hf : ∀ i, f i = .running w.part.op (.client .done)) :
      Parted hash os (some op) (.running w.whole.op (.client .done)) f
  | visiting {op : Op α V T} {w : Sweep α V T} {f : Fin cfg.shardCount → Thread α V T} (hw : sweepOf op = some w)
      (answers : Fin cfg.shardCount → w.β) (j : ℕ) (hj : j ≤ cfg.shardCount)
      (hf : ∀ i, f i = if i.1 < j then w.part.point 1 (w.add w.zero (answers i)) else w.part.point 0 w.zero) :
      Parted hash os (some op) (w.whole.point j (w.total answers j)) f
  | ended {op : Op α V T} {w : Sweep α V T} {f : Fin cfg.shardCount → Thread α V T} (hw : sweepOf op = some w)
      (answers : Fin cfg.shardCount → w.β)
      (hf : ∀ i, f i = .finished (w.part.out (w.add w.zero (answers i)))) :
      Parted hash os (some op) (.finished (w.whole.out (w.total answers cfg.shardCount))) f

/-- The flights go on to have their shards, and new ones come at the end. -/
def Grows (os os' : List (Fin cfg.shardCount)) : Prop := os' = os ∨ ∃ i, os' = os ++ [i]

/-- The flights of a shard keep their places. -/
theorem Grows.owned {os os' : List (Fin cfg.shardCount)} (h : Grows os os') {i : Fin cfg.shardCount} {n : ℕ}
    (hn : os[n]? = some i) : os'[n]? = some i ∧ rank (· = i) os' n = rank (· = i) os n := by
  have hlt := (List.getElem?_eq_some_iff.mp hn).1
  rcases h with rfl | ⟨j, rfl⟩
  · exact ⟨hn, rfl⟩
  · refine ⟨?_, rank_append hlt.le⟩
    rw [List.getElem?_append_left hlt, hn]

/-- A thread that does not move stays where it is when flights begin. -/
theorem Parted.mono {os os' : List (Fin cfg.shardCount)} {o : Option (Op α V T)} {th : Thread α V T}
    {f : Fin cfg.shardCount → Thread α V T} (h : Parted hash os o th f) (hgrow : Grows os os') :
    Parted hash os' o th f := by
  cases h with
  | keyed hop hth hf =>
      refine .keyed hop (hth.mono fun n hn => (hgrow.owned hn).1) ?_
      rw [hf]
      exact hth.rename_congr fun n hn => (hgrow.owned hn).2.symm
  | worker hth hf => exact .worker hth hf
  | entering hw hf => exact .entering hw hf
  | running hw hf => exact .running hw hf
  | visiting hw answers j hj hf => exact .visiting hw answers j hj hf
  | ended hw answers hf => exact .ended hw answers hf

/-- All steps of a call for a key have to do with its shard. -/
theorem KeyedAt.visits {own : ℕ → Prop} {key : Key α} {th : Thread α V T} (h : KeyedAt own key th) {n : ℕ}
    (i : Fin n) : th.visits i = true := by
  cases h <;> rfl

/-! ### Systems side by side -/

/-- The caches with one shard are in step with the whole cache. -/
structure SplitAt (hash : Key α → ℕ) (os : List (Fin cfg.shardCount)) (s : Owned α V cfg)
    (x : ∀ i, System α V (cfg.single i)) : Prop where
  twin : ∀ i, Twin os i s.system.shared (x i).shared
  empty : ∀ i, (x i).shared.queue.items = []
  jobs : ∀ job ∈ s.system.shared.queue.items, ∃ j, job = .expireShard j
  owners : s.owners.length = s.system.threads.length
  counts : ∀ i, (x i).threads.length = s.owners.countP (concerns hash i)
  parted : ∀ t o th, s.owners[t]? = some o → s.system.threads[t]? = some th →
    ∃ f, Parted hash os o th f ∧
      ∀ i, concerns hash i o = true → (x i).threads[rank (concerns hash i) s.owners t]? = some (f i)

section SplitAt

variable {os os' : List (Fin cfg.shardCount)} {s : Owned α V cfg} {x : ∀ i, System α V (cfg.single i)}
  {s' : Shared α V cfg} {y : ∀ i, Shared α V (cfg.single i)} {t : ℕ} {o : Option (Op α V T)}
  {th th' : Thread α V T} {f f' : Fin cfg.shardCount → Thread α V T}

/-- **One thread moves**, in the whole cache and in those that it concerns. -/
theorem SplitAt.move (h : SplitAt hash os s x) (ho : s.owners[t]? = some o)
    (hf : ∀ i, concerns hash i o = true → (x i).threads[rank (concerns hash i) s.owners t]? = some (f i))
    (hgrow : Grows os os') (htwin : ∀ i, Twin os' i s' (y i)) (hempty : ∀ i, (y i).queue.items = [])
    (hjobs : ∀ job ∈ s'.queue.items, ∃ j, job = .expireShard j) (hparted : Parted hash os' o th' f') :
    SplitAt hash os' ⟨⟨s', s.system.threads.set t th'⟩, s.owners⟩ fun i =>
      ⟨y i, if concerns hash i o then (x i).threads.set (rank (concerns hash i) s.owners t) (f' i)
        else (x i).threads⟩ where
  twin := htwin
  empty := hempty
  jobs := hjobs
  owners := by rw [h.owners, List.length_set]
  counts i := by
    show (if concerns hash i o then _ else _ : List (Thread α V T)).length = _
    split_ifs
    · rw [List.length_set, h.counts]
    · exact h.counts i
  parted u o' th₁ ho' hth₁ := by
    by_cases hut : u = t
    · subst hut
      obtain rfl : o' = o := Option.some.inj (ho'.symm.trans ho)
      have hth' : th₁ = th' := by
        rcases Transition.getElem?_set_cases hth₁ with ⟨-, hth'⟩ | ⟨hne, -⟩
        · exact hth'
        · exact absurd rfl hne
      refine ⟨f', hth' ▸ hparted, fun i hi => ?_⟩
      have hlt := (List.getElem?_eq_some_iff.mp (hf i hi)).1
      show (if concerns hash i o' then _ else _ : List (Thread α V T))[_]? = _
      rw [if_pos hi, List.getElem?_set_self hlt]
    · rcases Transition.getElem?_set_cases hth₁ with ⟨heq, -⟩ | ⟨-, hold⟩
      · exact absurd heq hut
      · obtain ⟨g, hg, hshown⟩ := h.parted u o' th₁ ho' hold
        refine ⟨g, hg.mono hgrow, fun i hi => ?_⟩
        show (if concerns hash i o then _ else _ : List (Thread α V T))[_]? = _
        split_ifs with hio
        · have hne : rank (concerns hash i) s.owners t ≠ rank (concerns hash i) s.owners u := fun heq =>
            hut (rank_injective ho' hi ho hio heq.symm)
          rw [List.getElem?_set_ne hne]
          exact hshown i hi
        · exact hshown i hi

/-- **A thread comes**, to the whole cache and to those that it concerns. -/
theorem SplitAt.join (h : SplitAt hash os s x) (hparted : Parted hash os o th f) :
    SplitAt hash os ⟨⟨s.system.shared, s.system.threads ++ [th]⟩, s.owners ++ [o]⟩ fun i =>
      ⟨(x i).shared, (x i).threads ++ if concerns hash i o then [f i] else []⟩ where
  twin := h.twin
  empty := h.empty
  jobs := h.jobs
  owners := by rw [List.length_append, List.length_append, h.owners]; rfl
  counts i := by
    show ((x i).threads ++ if concerns hash i o then [f i] else []).length = (s.owners ++ [o]).countP _
    rw [List.length_append, h.counts, List.countP_append, List.countP_singleton]
    split_ifs <;> rfl
  parted u o' th₁ ho' hth₁ := by
    rcases Nat.lt_or_ge u s.owners.length with hlt | hge
    · rw [List.getElem?_append_left hlt] at ho'
      have hold : s.system.threads[u]? = some th₁ := by
        rwa [List.getElem?_append_left (h.owners ▸ hlt)] at hth₁
      obtain ⟨g, hg, hshown⟩ := h.parted u o' th₁ ho' hold
      refine ⟨g, hg, fun i hi => ?_⟩
      have hplace := (List.getElem?_eq_some_iff.mp (hshown i hi)).1
      rw [rank_append hlt.le, List.getElem?_append_left hplace]
      exact hshown i hi
    · have hlast : u = s.owners.length := by
        have hlt := (List.getElem?_eq_some_iff.mp ho').1
        rw [List.length_append, List.length_singleton] at hlt
        omega
      subst hlast
      rw [List.getElem?_append_right le_rfl, Nat.sub_self] at ho'
      rw [h.owners, List.getElem?_append_right le_rfl, Nat.sub_self] at hth₁
      obtain rfl : o = o' := Option.some.inj ho'
      obtain rfl : th = th₁ := Option.some.inj hth₁
      refine ⟨f, hparted, fun i hi => ?_⟩
      rw [rank_append le_rfl, rank_length, ← h.counts, if_pos hi, List.getElem?_append_right le_rfl, Nat.sub_self]
      rfl

/-- One of the caches takes a step on its shard, and the others do not notice. -/
theorem SplitAt.twins_update (h : SplitAt hash os s x) {j : Fin cfg.shardCount} {z : Shared α V (cfg.single j)}
    (htwin : Twin os' j s' z) (haside : Elsewhere j os os' s.system.shared s') (i : Fin cfg.shardCount) :
    Twin os' i s' (Function.update (fun i => (x i).shared) j z i) := by
  by_cases hij : i = j
  · subst hij
    rw [Function.update_self]
    exact htwin
  · rw [Function.update_of_ne hij]
    exact (h.twin i).aside hij haside

/-- The queues stay empty. -/
theorem SplitAt.empties_update (h : SplitAt hash os s x) {j : Fin cfg.shardCount} {z : Shared α V (cfg.single j)}
    (hempty : z.queue.items = []) (i : Fin cfg.shardCount) :
    (Function.update (fun i => (x i).shared) j z i).queue.items = [] := by
  by_cases hij : i = j
  · subst hij
    rw [Function.update_self]
    exact hempty
  · rw [Function.update_of_ne hij]
    exact h.empty i

/-! ### The steps of calls -/

/-- A step of a call in the whole cache, and the steps of the caches with one shard that have to do with it. -/
structure Moved (hash : Key α → ℕ) (os os' : List (Fin cfg.shardCount)) (c : Choice α V) (s s' : Shared α V cfg)
    (x y : ∀ i, Shared α V (cfg.single i)) (o : Option (Op α V T)) (th th' : Thread α V T)
    (f f' : Fin cfg.shardCount → Thread α V T) : Prop where
  grows : Grows os os'
  queue_eq : s'.queue = s.queue
  empty : ∀ i, (y i).queue.items = []
  twin : ∀ i, Twin os' i s' (y i)
  parted : Parted hash os' o th' f'
  moves : ∀ i, concerns hash i o = true → th.visits i = true →
    threadStep hash (x i) c (f i) = some (y i, f' i)
  rests : ∀ i, (concerns hash i o && th.visits i) = false → y i = x i ∧ (concerns hash i o = true → f' i = f i)

variable {c : Choice α V}

/-- A step that all caches take without changing their states. -/
theorem SplitAt.still (h : SplitAt hash os s x) {op : Op α V T} {w : Sweep α V T} (hw : sweepOf op = some w)
    (hvisits : ∀ i : Fin cfg.shardCount, th.visits i = true) (hparted : Parted hash os (some op) th' f')
    (hmoves : ∀ i, threadStep hash (x i).shared c (f i) = some ((x i).shared, f' i)) :
    Moved hash os os c s.system.shared s.system.shared (fun i => (x i).shared) (fun i => (x i).shared) (some op) th th'
      f f' where
  grows := .inl rfl
  queue_eq := rfl
  empty := h.empty
  twin := h.twin
  parted := hparted
  moves i _ _ := hmoves i
  rests i hi := by
    rw [concerns_of_sweep hw, hvisits] at hi
    cases hi

/-- **A sweeping call** visits a shard. -/
theorem SplitAt.visiting (h : SplitAt hash os s x) (hmode : cfg.writeMode = .cacheOnly) {op : Op α V T}
    {w : Sweep α V T} (hw : sweepOf op = some w) (answers : Fin cfg.shardCount → w.β) (j : Fin cfg.shardCount)
    (hf : ∀ i, f i = if i.1 < j.1 then w.part.point 1 (w.add w.zero (answers i)) else w.part.point 0 w.zero)
    (hstep : threadStep hash s.system.shared c (w.whole.point j (w.total answers j)) = some (s', th')) :
    ∃ y f', Moved hash os os c s.system.shared s' (fun i => (x i).shared) y (some op)
      (w.whole.point j (w.total answers j)) th' f f' := by
  obtain ⟨hlaw, -⟩ := lawful_sweepOf hash hw
  obtain ⟨s₁, hs₁, hbeside, hshards⟩ := hlaw.whole.step s.system.shared c j (w.total answers j) hmode
  obtain ⟨rfl, rfl⟩ := Prod.mk.inj (Option.some.inj (hs₁.symm.trans hstep))
  have hmode' : (cfg.single j).writeMode = .cacheOnly := hmode
  obtain ⟨x₁, hx₁, hbeside', hshards'⟩ := hlaw.part.step (x j).shared c (only cfg j) w.zero hmode'
  obtain ⟨htwin, hanswer⟩ := (h.twin j).visit hlaw hbeside.now_eq hbeside.lifecycle_eq hbeside.flights_eq hshards
    hbeside'.now_eq hbeside'.lifecycle_eq hbeside'.flights_eq hshards'
  have haside : Elsewhere j os os s.system.shared s₁ :=
    .sectioned os hbeside.now_eq hbeside.lifecycle_eq hbeside.flights_eq hshards
  have hempty : x₁.queue.items = [] := by
    rw [hbeside'.queue_eq]
    exact h.empty j
  rw [hanswer] at hx₁
  let answers' := Function.update answers j (w.visit s.system.shared.now (s.system.shared.shards j)).1
  have hupdated : answers' j = (w.visit s.system.shared.now (s.system.shared.shards j)).1 := Function.update_self ..
  refine ⟨Function.update (fun i => (x i).shared) j x₁, fun i =>
    if i.1 < j.1 + 1 then w.part.point 1 (w.add w.zero (answers' i)) else w.part.point 0 w.zero, ?_⟩
  refine ⟨.inl rfl, hbeside.queue_eq, h.empties_update hempty, h.twins_update htwin haside, ?_, fun i _ hi => ?_,
    fun i hi => ?_⟩
  · rw [← total_update]
    exact .visiting hw answers' (j + 1) j.2 fun i => rfl
  · rw [hlaw.whole.visits_shard] at hi
    obtain rfl := of_decide_eq_true hi
    rw [Function.update_self, hf, if_neg (lt_irrefl _), if_pos (Nat.lt_succ_self _), hupdated]
    exact hx₁
  · rw [concerns_of_sweep hw, hlaw.whole.visits_shard, Bool.true_and] at hi
    have hij : i ≠ j := of_decide_eq_false hi
    have hne : i.1 ≠ j.1 := fun heq => hij (Fin.ext heq)
    have hkept : answers' i = answers i := Function.update_of_ne hij _ _
    refine ⟨Function.update_of_ne hij _ _, fun _ => ?_⟩
    rw [hf, hkept]
    by_cases hlt : i.1 < j.1
    · rw [if_pos hlt, if_pos (by omega)]
    · rw [if_neg hlt, if_neg (by omega)]

/-- **A step of a call** is answered by the caches that it has to do with. -/
theorem SplitAt.client (h : SplitAt hash os s x) (hmode : cfg.writeMode = .cacheOnly) {op : Op α V T}
    (hparted : Parted hash os (some op) th f)
    (hstep : threadStep hash s.system.shared c th = some (s', th')) :
    ∃ os' y f', Moved hash os os' c s.system.shared s' (fun i => (x i).shared) y (some op) th th' f f' := by
  cases hparted with
  | @keyed _ key _ _ hop hth hf =>
      obtain ⟨os', x', hans⟩ := (h.twin (shardFor cfg hash key)).keyed_step hmode rfl hth hstep
      have hopen := (h.twin (shardFor cfg hash key)).opened
      have hmode' : (cfg.single (shardFor cfg hash key)).writeMode = .cacheOnly := hmode
      have hquiet := (hth.renamed _).queue_eq hmode' (h.twin _).opened_part hans.step
      refine ⟨os', Function.update (fun i => (x i).shared) (shardFor cfg hash key) x',
        fun _ => th'.rename (rank (· = shardFor cfg hash key) os'), ?_⟩
      have hempty : x'.queue.items = [] := by
        rw [hquiet]
        exact h.empty _
      refine ⟨hans.aside.grows.imp id fun hos => ⟨_, hos⟩, hth.queue_eq hmode hopen hstep, h.empties_update hempty,
        h.twins_update hans.twin hans.aside, .keyed hop hans.keyed rfl, fun i hi _ => ?_, fun i hi => ?_⟩
      · rw [concerns_of_key hop] at hi
        obtain rfl := of_decide_eq_true hi
        rw [Function.update_self, hf]
        exact hans.step
      · rw [hth.visits, Bool.and_true] at hi
        refine ⟨Function.update_of_ne (fun hik => ?_) _ _, fun hc => ?_⟩
        · rw [concerns_of_key hop, hik, decide_eq_false_iff_not] at hi
          exact hi rfl
        · rw [hi] at hc
          cases hc
  | @entering _ w _ hw hf =>
      obtain ⟨hlaw, -⟩ := lawful_sweepOf hash hw
      rw [hlaw.whole.enter _ c (h.twin ⟨0, cfg.shardCount_pos⟩).opened] at hstep
      cases hstep
      refine ⟨os, _, fun _ => .running w.part.op (.client .done), h.still hw (fun i => rfl)
        (.running hw fun i => rfl) fun i => ?_⟩
      rw [hf]
      exact hlaw.part.enter _ c (h.twin i).opened_part
  | @running _ w _ hw hf =>
      obtain ⟨hlaw, -⟩ := lawful_sweepOf hash hw
      rw [hlaw.whole.start] at hstep
      cases hstep
      have hempty : ∀ i : Fin cfg.shardCount, w.part.point 0 w.zero =
          if i.1 < 0 then w.part.point 1 (w.add w.zero w.zero) else w.part.point 0 w.zero :=
        fun i => (if_neg (Nat.not_lt_zero _)).symm
      refine ⟨os, _, fun _ => w.part.point 0 w.zero, h.still hw (fun i => rfl)
        (.visiting hw (fun _ => w.zero) 0 (Nat.zero_le _) hempty) fun i => ?_⟩
      rw [hf]
      exact hlaw.part.start _ c
  | @visiting _ w _ hw answers j hj hf =>
      rcases Nat.lt_or_ge j cfg.shardCount with hlt | hge
      · obtain ⟨y, f', hmoved⟩ := h.visiting hmode hw answers ⟨j, hlt⟩ hf hstep
        exact ⟨os, y, f', hmoved⟩
      · obtain rfl : j = cfg.shardCount := le_antisymm hj hge
        obtain ⟨hlaw, -⟩ := lawful_sweepOf hash hw
        rw [hlaw.whole.stop _ c _ hmode] at hstep
        cases hstep
        refine ⟨os, _, fun i => .finished (w.part.out (w.add w.zero (answers i))), h.still hw (fun i => ?_)
          (.ended hw answers fun i => rfl) fun i => ?_⟩
        · rw [hlaw.whole.visits]
          exact decide_eq_true (.inr le_rfl)
        · have hmode' : (cfg.single i).writeMode = .cacheOnly := hmode
          rw [hf, if_pos i.2]
          exact hlaw.part.stop (x i).shared c _ hmode'
  | ended hw answers hf => cases hstep

/-! ### The steps of workers -/

/-- A sweep by a worker, from the scheduler's job to the end of the job. -/
theorem exec_sweepJob (hash : Key α → ℕ) {cfg' : AcceptedConfig T} {z : System α V cfg'} {r : ℕ} (c : Choice α V)
    (m : Fin cfg'.shardCount) (hopen : z.shared.Open) (hempty : z.shared.queue.items = [])
    (hidle : z.threads[r]? = some Thread.idle) :
    ∃ z', exec cfg' hash z (.schedule m :: List.replicate 3 (.run r c)) = some ⟨z', z.threads⟩ ∧
      z'.queue.items = [] ∧ z'.now = z.shared.now ∧ z'.lifecycle = z.shared.lifecycle ∧
      z'.flights = z.shared.flights ∧
      z'.shards = Function.update z.shared.shards m ((z.shared.shards m).expireShard z.shared.now).2 := by
  obtain ⟨hr, hget⟩ := List.getElem?_eq_some_iff.mp hidle
  have hclosed : z.shared.lifecycle ≠ .closed := by
    rcases hopen with h | h <;> rw [h] <;> simp
  have hfull : z.shared.queue.full cfg'.queueSize = false := by
    simp only [CacheJobQueue.full, hempty, List.length_nil, Nat.le_zero_eq, Bool.and_eq_false_iff,
      decide_eq_false_iff_not]
    omega
  -- the job is queued, taken, done and ticked off
  let z₁ : Shared α V cfg' := { z.shared with queue := z.shared.queue.push (.expireShard m) }
  let z₂ : Shared α V cfg' := { z₁ with queue := { z₁.queue with items := [] } }
  let z₃ : Shared α V cfg' := (z₂.setShard m ((z₂.shards m).expireShard z₂.now).2).count fun r =>
    { r with workerJobsCompleted := r.workerJobsCompleted + 1 }
  let z₄ : Shared α V cfg' := { z₃ with queue := z₃.queue.taskDone }
  have hqueued : step cfg' hash z (.schedule m) = some ⟨z₁, z.threads⟩ := by
    simp only [step, CacheJobQueue.putNowait, hfull]
    exact if_pos ⟨m.2, hclosed⟩
  have htaken : threadStep hash z₁ c .idle = some (z₂, Thread.handling (.expireShard m)) := by
    have hitems : z₁.queue.items = [Job.expireShard m] := by
      show z.shared.queue.items ++ [_] = _
      rw [hempty]
      rfl
    simp only [threadStep, clientStep, workerStep, hitems]
    rfl
  have hdone : threadStep hash z₂ c (.handling (.expireShard m)) = some (z₃, Thread.finishing) := by
    simp [threadStep, clientStep, workerStep, Shared.onShard, z₃]
  have hticked : threadStep hash z₃ c .finishing = some (z₄, Thread.idle) := rfl
  have hrun : ∀ {a b : Shared α V cfg'} {th th' : Thread α V T}, threadStep hash a c th = some (b, th') →
      step cfg' hash ⟨a, z.threads.set r th⟩ (.run r c) = some ⟨b, z.threads.set r th'⟩ := by
    intro a b th th' h
    simp only [step, List.getElem?_set_self hr, Option.bind_some, h, Option.map_some, List.set_set]
  have hself : z.threads.set r .idle = z.threads := by
    rw [← hget, List.set_getElem_self]
  refine ⟨z₄, ?_, rfl, rfl, rfl, rfl, rfl⟩
  have htaken' := hrun htaken
  have hticked' := hrun hticked
  rw [hself] at htaken' hticked'
  exact Transition.run_cons_eq_some.mpr ⟨_, hqueued, Transition.run_cons_eq_some.mpr ⟨_, htaken',
    Transition.run_cons_eq_some.mpr ⟨_, hrun hdone, Transition.run_cons_eq_some.mpr ⟨_, hticked', rfl⟩⟩⟩⟩

/-- A step of a worker that no cache with one shard takes part in. -/
theorem SplitAt.idles (h : SplitAt hash os s x) (ho : s.owners[t]? = some none)
    (hf : ∀ i, (x i).threads[rank (concerns hash i) s.owners t]? = some Thread.idle)
    (hnow : s'.now = s.system.shared.now)
    (hlife : s'.lifecycle = s.system.shared.lifecycle) (hflights : s'.flights = s.system.shared.flights)
    (hshards : s'.shards = s.system.shared.shards) (hjobs : ∀ job ∈ s'.queue.items, ∃ j, job = .expireShard j)
    (hth' : th'.sweeper = true) : SplitAt hash os ⟨⟨s', s.system.threads.set t th'⟩, s.owners⟩ x := by
  have hparted : Parted hash os none th' fun _ => .idle := .worker hth' fun i => rfl
  have htwins : ∀ i, Twin os i s' (x i).shared := by
    intro i
    refine (h.twin i).congr ?_ ?_ ?_ hflights hshards rfl rfl
    · rw [hnow, (h.twin i).now_eq]
    · unfold Shared.Open
      rw [hlife]
      exact (h.twin i).opened
    · rw [hlife, (h.twin i).lifecycle_eq]
  have hmove := h.move ho (fun i _ => hf i) (.inl rfl) htwins h.empty hjobs hparted
  have hsame : (fun i => ⟨(x i).shared, if concerns hash i (none : Option (Op α V T)) = true then
      (x i).threads.set (rank (concerns hash i) s.owners t) .idle else (x i).threads⟩ :
        ∀ i, System α V (cfg.single i)) = x := by
    funext i
    obtain ⟨hlt, hget⟩ := List.getElem?_eq_some_iff.mp (hf i)
    rw [if_pos (concerns_none i), ← hget, List.set_getElem_self]
  rwa [hsame] at hmove

/-- **A worker sweeps a shard**, and so does the worker of the cache with this shard. -/
theorem SplitAt.sweep (h : SplitAt hash os s x) (ho : s.owners[t]? = some none)
    (hf : ∀ i, (x i).threads[rank (concerns hash i) s.owners t]? = some Thread.idle) (c : Choice α V)
    (j : Fin cfg.shardCount) (hnow : s'.now = s.system.shared.now) (hlife : s'.lifecycle = s.system.shared.lifecycle)
    (hflights : s'.flights = s.system.shared.flights) (hqueue : s'.queue = s.system.shared.queue)
    (hshards : s'.shards = Function.update s.system.shared.shards j
      ((s.system.shared.shards j).expireShard s.system.shared.now).2) :
    ∃ x', (∀ i, exec (cfg.single i) hash (x i) (if j = i then
        .schedule 0 :: List.replicate 3 (.run (rank (concerns hash i) s.owners t) c) else []) = some (x' i)) ∧
      SplitAt hash os ⟨⟨s', s.system.threads.set t .finishing⟩, s.owners⟩ x' := by
  obtain ⟨z, hrun, hempty, hznow, hzlife, hzflights, hzshards⟩ :=
    exec_sweepJob hash c (only cfg j) (h.twin j).opened_part (h.empty j) (hf j)
  have htwin : Twin os j s' z :=
    ((h.twin j).visit (lawful_expire hash) hnow hlife hflights hshards hznow hzlife hzflights hzshards).1
  have haside : Elsewhere j os os s.system.shared s' := .sectioned os hnow hlife hflights hshards
  have hparted : Parted hash os none (.finishing : Thread α V T) fun _ => .idle := .worker rfl fun i => rfl
  have hjobs : ∀ job ∈ s'.queue.items, ∃ j, job = .expireShard j := by
    rw [hqueue]
    exact h.jobs
  refine ⟨_, fun i => ?_, h.move ho (fun i _ => hf i) (.inl rfl) (h.twins_update htwin haside)
    (h.empties_update hempty) hjobs hparted⟩
  obtain ⟨hlt, hget⟩ := List.getElem?_eq_some_iff.mp (hf i)
  rw [if_pos (concerns_none i), ← hget, List.set_getElem_self]
  by_cases hij : j = i
  · subst hij
    rw [if_pos rfl, Function.update_self]
    exact hrun
  · rw [if_neg hij, Function.update_of_ne (Ne.symm hij)]
    rfl

/-- **A step of a worker** is answered. -/
theorem SplitAt.worker (h : SplitAt hash os s x) (ho : s.owners[t]? = some none)
    (hth : s.system.threads[t]? = some th) (hstep : threadStep hash s.system.shared c th = some (s', th')) :
    ∃ x', (∀ i, exec (cfg.single i) hash (x i) (route hash i s (.run t c)) = some (x' i)) ∧
      SplitAt hash os ⟨⟨s', s.system.threads.set t th'⟩, s.owners⟩ x' := by
  obtain ⟨f, hparted, hshown⟩ := h.parted t none th ho hth
  have hf : ∀ i, (x i).threads[rank (concerns hash i) s.owners t]? = some Thread.idle := by
    intro i
    cases hparted with
    | worker _ hidle => rw [hshown i (concerns_none i), hidle]
  have hsweeper : th.sweeper = true := by
    cases hparted with
    | worker hsweeper _ => exact hsweeper
  cases th with
  | idle =>
      have hroute : ∀ i, route hash i s (.run t c) = [] := fun i => by simp only [route, ho, hth]
      refine ⟨x, fun i => by rw [hroute]; rfl, ?_⟩
      cases hitems : s.system.shared.queue.items with
      | nil =>
          simp only [threadStep, clientStep, workerStep, hitems, closeStep] at hstep
          split_ifs at hstep
          · cases hstep
            exact h.idles ho hf rfl rfl rfl rfl h.jobs rfl
          · cases hstep
      | cons job rest =>
          have hjobs := h.jobs
          rw [hitems] at hjobs
          obtain ⟨j, rfl⟩ := hjobs job List.mem_cons_self
          simp only [threadStep, clientStep, workerStep, hitems] at hstep
          cases hstep
          exact h.idles ho hf rfl rfl rfl rfl (fun job hjob => hjobs job (List.mem_cons_of_mem _ hjob)) rfl
  | handling job =>
      cases job with
      | expireShard j =>
          have hroute : ∀ i, route hash i s (.run t c) = if j = i.1 then
              .schedule 0 :: List.replicate 3 (.run (rank (concerns hash i) s.owners t) c) else [] :=
            fun i => by simp only [route, ho, hth]
          by_cases hj : j < cfg.shardCount
          · simp only [threadStep, clientStep, workerStep, Shared.onShard, hj] at hstep
            cases hstep
            have hsame : ∀ i : Fin cfg.shardCount, j = i.1 ↔ ⟨j, hj⟩ = i :=
              fun i => ⟨fun h => Fin.ext h, fun h => congrArg Fin.val h⟩
            simp only [hroute, hsame]
            exact h.sweep ho hf c ⟨j, hj⟩ rfl rfl rfl rfl rfl
          · simp [threadStep, clientStep, workerStep, closeStep, Shared.onShard, hj] at hstep
      | _ => cases hsweeper
  | finishing =>
      have hroute : ∀ i, route hash i s (.run t c) = [] := fun i => by simp only [route, ho, hth]
      refine ⟨x, fun i => by rw [hroute]; rfl, ?_⟩
      cases hstep
      exact h.idles ho hf rfl rfl rfl rfl h.jobs rfl
  | stopped => cases hstep
  | _ => cases hsweeper

/-! ### Any step -/

/-- What nobody looks at but the scheduler and the clock changes. -/
theorem SplitAt.congr (h : SplitAt hash os s x) (htwin : ∀ i, Twin os i s' (y i))
    (hempty : ∀ i, (y i).queue.items = []) (hjobs : ∀ job ∈ s'.queue.items, ∃ j, job = .expireShard j) :
    SplitAt hash os ⟨⟨s', s.system.threads⟩, s.owners⟩ fun i => ⟨y i, (x i).threads⟩ :=
  ⟨htwin, hempty, hjobs, h.owners, h.counts, h.parted⟩

/-- Workers come, to all caches. -/
theorem SplitAt.joins (h : SplitAt hash os s x) (n : ℕ) :
    SplitAt hash os ⟨⟨s.system.shared, s.system.threads ++ List.replicate n Thread.idle⟩, s.owners ++ List.replicate n none⟩
      fun i => ⟨(x i).shared, (x i).threads ++ List.replicate n Thread.idle⟩ := by
  induction n with
  | zero => simpa using h
  | succ n ih =>
      have hworker : Parted hash os none (.idle : Thread α V T) fun _ => .idle := .worker rfl fun i => rfl
      have hjoin := ih.join hworker
      simp only [concerns_none, if_true, List.append_assoc] at hjoin
      simpa only [List.replicate_succ'] using hjoin

/-- The clock advances in all caches. -/
theorem SplitAt.tick (h : SplitAt hash os s x) {now : T} (hnow : s.system.shared.now ≤ now) :
    ∃ x', (∀ i, exec (cfg.single i) hash (x i) [.tick now] = some (x' i)) ∧
      SplitAt hash os ⟨⟨{ s.system.shared with now := now }, s.system.threads⟩, s.owners⟩ x' := by
  have htwin : ∀ i, Twin os i { s.system.shared with now := now } { (x i).shared with now := now } := fun i =>
    (h.twin i).congr rfl (h.twin i).opened (h.twin i).lifecycle_eq rfl rfl rfl rfl
  refine ⟨_, fun i => ?_, h.congr htwin h.empty h.jobs⟩
  have hnow' : (x i).shared.now ≤ now := (h.twin i).now_eq ▸ hnow
  exact Transition.run_cons_eq_some.mpr ⟨_, if_pos hnow', rfl⟩

/-- All caches are started. -/
theorem SplitAt.start (h : SplitAt hash os s x) (hnew : s.system.shared.lifecycle = .created) :
    ∃ x', (∀ i, exec (cfg.single i) hash (x i) [.start] = some (x' i)) ∧
      SplitAt hash os
        ⟨⟨{ s.system.shared with lifecycle := .started, poolStarted := decide (0 < cfg.workerCount) },
          s.system.threads ++ List.replicate cfg.workerCount Thread.idle⟩, s.owners ++ List.replicate cfg.workerCount none⟩
        x' := by
  have htwin : ∀ i, Twin os i
      { s.system.shared with lifecycle := .started, poolStarted := decide (0 < cfg.workerCount) }
      { (x i).shared with lifecycle := .started, poolStarted := decide (0 < cfg.workerCount) } := fun i =>
    (h.twin i).congr (h.twin i).now_eq (.inr rfl) rfl rfl rfl rfl rfl
  have hsplit := (h.congr htwin h.empty h.jobs).joins cfg.workerCount
  refine ⟨_, fun i => ?_, hsplit⟩
  have hnew' : (x i).shared.lifecycle = .created := (h.twin i).lifecycle_eq.trans hnew
  refine Transition.run_cons_eq_some.mpr ⟨_, ?_, rfl⟩
  simp only [CacheLab.step, hnew']
  rfl

/-- A call that came to the whole cache comes to those that it concerns. -/
theorem SplitAt.call (h : SplitAt hash os s x) {op : Op α V T} (hop : op.splits = true) :
    ∃ x', (∀ i, exec (cfg.single i) hash (x i) (if concerns hash i (some op) then [.call op.onPart] else []) =
        some (x' i)) ∧
      SplitAt hash os ⟨⟨s.system.shared, s.system.threads ++ [Thread.entering op (.client .done)]⟩, s.owners ++ [some op]⟩
        x' := by
  have hparted : Parted hash os (some op) (.entering op (.client .done)) fun _ =>
      .entering op.onPart (.client .done) := by
    cases op with
    | get key => exact .keyed rfl (.entering _ rfl) rfl
    | contains key => exact .keyed rfl (.entering _ rfl) rfl
    | inspect key => exact .keyed rfl (.entering _ rfl) rfl
    | put key value ttl => exact .keyed rfl (.entering _ rfl) rfl
    | delete key => exact .keyed rfl (.entering _ rfl) rfl
    | getOrCompute key ttl => exact .keyed rfl (.entering _ rfl) rfl
    | clear => exact .entering (w := clearSweep α V T) rfl fun i => rfl
    | size => exact .entering (w := sizeSweep α V T) rfl fun i => rfl
    | dump limit => exact .entering (w := dumpSweep α V limit) rfl fun i => rfl
    | expireAll => exact .entering (w := expireSweep α V T) rfl fun i => rfl
    | _ => cases hop
  refine ⟨_, fun i => ?_, h.join hparted⟩
  split_ifs
  · rfl
  · rw [List.append_nil]
    rfl

/-- The scheduler queues a sweep. -/
theorem SplitAt.schedule (h : SplitAt hash os s x) (j n : ℕ) :
    SplitAt hash os ⟨⟨{ s.system.shared with queue := s.system.shared.queue.putNowait n (.expireShard j) },
      s.system.threads⟩, s.owners⟩ x := by
  have htwin : ∀ i, Twin os i { s.system.shared with queue := s.system.shared.queue.putNowait n (.expireShard j) }
      (x i).shared := fun i =>
    (h.twin i).congr (h.twin i).now_eq (h.twin i).opened (h.twin i).lifecycle_eq rfl rfl rfl rfl
  refine h.congr htwin h.empty fun job hjob => ?_
  simp only [CacheJobQueue.putNowait] at hjob
  split_ifs at hjob
  · exact h.jobs job hjob
  · rcases List.mem_append.mp hjob with hold | hnew
    · exact h.jobs job hold
    · exact ⟨j, List.mem_singleton.mp hnew⟩

/-- A call takes a step. -/
theorem SplitAt.calls (h : SplitAt hash os s x) (hmode : cfg.writeMode = .cacheOnly) {op : Op α V T}
    (ho : s.owners[t]? = some (some op)) (hth : s.system.threads[t]? = some th)
    (hstep : threadStep hash s.system.shared c th = some (s', th')) :
    ∃ os' x', (∀ i, exec (cfg.single i) hash (x i) (route hash i s (.run t c)) = some (x' i)) ∧
      SplitAt hash os' ⟨⟨s', s.system.threads.set t th'⟩, s.owners⟩ x' := by
  obtain ⟨f, hparted, hf⟩ := h.parted t _ th ho hth
  obtain ⟨os', y, f', hmoved⟩ := h.client hmode hparted hstep
  have hjobs : ∀ job ∈ s'.queue.items, ∃ j, job = .expireShard j := by
    rw [hmoved.queue_eq]
    exact h.jobs
  refine ⟨os', _, fun i => ?_, h.move ho hf hmoved.grows hmoved.twin hmoved.empty hjobs hmoved.parted⟩
  have hroute : route hash i s (.run t c) = if concerns hash i (some op) && th.visits i then
      [.run (rank (concerns hash i) s.owners t) c] else [] := by simp only [route, ho, hth]
  rw [hroute]
  cases hboth : concerns hash i (some op) && th.visits i with
  | true =>
      obtain ⟨hconcerns, hvisits⟩ := Bool.and_eq_true_iff.mp hboth
      refine Transition.run_cons_eq_some.mpr ⟨_, ?_, rfl⟩
      simp only [CacheLab.step, hf i hconcerns, Option.bind_some, hmoved.moves i hconcerns hvisits,
        Option.map_some, hconcerns, if_true]
  | false =>
      obtain ⟨hsame, hthread⟩ := hmoved.rests i hboth
      rw [hsame]
      cases hconcerns : concerns hash i (some op) with
      | true =>
          obtain ⟨hlt, hget⟩ := List.getElem?_eq_some_iff.mp (hf i hconcerns)
          rw [hthread hconcerns, ← hget, if_pos rfl, List.set_getElem_self]
          rfl
      | false => rfl

/-- **A step is answered.** -/
theorem SplitAt.step (h : SplitAt hash os s x) (hmode : cfg.writeMode = .cacheOnly) {l : Label α V T}
    (hl : l.splits = true) {u : Owned α V cfg} (hstep : ownedStep cfg hash s l = some u) :
    ∃ os' x', (∀ i, exec (cfg.single i) hash (x i) (route hash i s l) = some (x' i)) ∧ SplitAt hash os' u x' := by
  obtain ⟨s₁, hs₁, rfl⟩ := Option.map_eq_some_iff.mp hstep
  have hkeep : ∀ owners : List (Option (Op α V T)), owners ++ [] = owners := List.append_nil
  cases l with
  | tick now =>
      simp only [CacheLab.step] at hs₁
      split_ifs at hs₁ with hnow
      cases hs₁
      simp only [newcomers, hkeep]
      exact ⟨os, h.tick hnow⟩
  | start =>
      rcases (h.twin ⟨0, cfg.shardCount_pos⟩).opened with hnew | hstarted
      · simp only [CacheLab.step, hnew] at hs₁
        cases hs₁
        simp only [newcomers, hnew, if_true]
        exact ⟨os, h.start hnew⟩
      · simp only [CacheLab.step, hstarted] at hs₁
        cases hs₁
        have hnobody : newcomers s.system .start = [] := if_neg (by rw [hstarted]; simp)
        rw [hnobody, hkeep]
        refine ⟨os, x, fun i => Transition.run_cons_eq_some.mpr ⟨_, ?_, rfl⟩, h⟩
        have hstarted' : (x i).shared.lifecycle = .started := (h.twin i).lifecycle_eq.trans hstarted
        simp only [CacheLab.step, hstarted']
  | call op =>
      cases hs₁
      exact ⟨os, h.call hl⟩
  | schedule j =>
      simp only [CacheLab.step] at hs₁
      split_ifs at hs₁
      cases hs₁
      simp only [newcomers, hkeep]
      exact ⟨os, x, fun i => rfl, h.schedule j cfg.queueSize⟩
  | run t c =>
      obtain ⟨th, hth, hmap⟩ := Option.bind_eq_some_iff.mp hs₁
      obtain ⟨⟨s', th'⟩, hrun, rfl⟩ := Option.map_eq_some_iff.mp hmap
      obtain ⟨o, ho⟩ : ∃ o, s.owners[t]? = some o := by
        have hlt := (List.getElem?_eq_some_iff.mp hth).1
        exact ⟨_, List.getElem?_eq_getElem (h.owners ▸ hlt)⟩
      simp only [newcomers, hkeep]
      cases o with
      | none => exact ⟨os, h.worker ho hth hrun⟩
      | some op => exact h.calls hmode ho hth hrun

end SplitAt

/-! ### Runs -/

/-- The caches are side by side, whatever flights there were. -/
def SideBySide (hash : Key α → ℕ) (s : Owned α V cfg) (x : ∀ i, System α V (cfg.single i)) : Prop :=
  ∃ os, SplitAt hash os s x

/-- **A run is answered.** -/
theorem SideBySide.steps {s u : Owned α V cfg} {x : ∀ i, System α V (cfg.single i)} (h : SideBySide hash s x)
    (hmode : cfg.writeMode = .cacheOnly) {ls : List (Label α V T)} (hls : ∀ l ∈ ls, l.splits = true)
    (hrun : Transition.run (ownedStep cfg hash) s ls = some u) :
    ∃ y, (∀ i, exec (cfg.single i) hash (x i)
        (Transition.runImages (ownedStep cfg hash) (route hash i) s ls) = some (y i)) ∧ SideBySide hash u y := by
  have hanswer : ∀ (s : Owned α V cfg) (x : ∀ i, System α V (cfg.single i)) (l : Label α V T) (s' : Owned α V cfg),
      l.splits = true → SideBySide hash s x → ownedStep cfg hash s l = some s' →
      ∃ x', (∀ i, Transition.run (step (cfg.single i) hash) (x i) (route hash i s l) = some (x' i)) ∧
        SideBySide hash s' x' := by
    rintro s x l s' hl ⟨os, hsplit⟩ hstep
    obtain ⟨os', x', hx', hsplit'⟩ := hsplit.step hmode hl hstep
    exact ⟨x', hx', os', hsplit'⟩
  exact Transition.run_runImages hanswer (Transition.along_of_forall (fun l hl _ => hls l hl) s) h hrun

end CacheLab
