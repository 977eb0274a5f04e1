import CacheLab.System.Moves

/-!
# The synchronous flush of `close`

The last part of `close` walks over the shards, collects the dirty entries and tombstones of each, and
calls the source for every collected job. `Remains` says what the walk has still to do: every key is
`Synced` with the source, or its shard is still to come and its slot owes a flush, or one of the jobs
in hand is for it and is not stale. `SyncOk` attaches this to the points of the closing thread, and
`SyncOk.step` and `SyncOk.frame` say that it survives the steps of the closing thread and what the
others may do meanwhile.

A flush that fails makes `close` raise at the end, so nothing is claimed from then on.
-/

set_option linter.unusedSectionVars false

namespace CacheLab

variable {α V T : Type} [DecidableEq α] [LinearOrder T] [Zero T] [Add T] [Sub T]

open WriteBehind

variable {cfg : AcceptedConfig T} {hash : Key α → ℕ} {k : Key α}

/-- The source holds what the last write of the key left. -/
def Synced (s : Shared α V cfg) (k : Key α) : Prop :=
  ∀ o op, lastWrite k s.log = some (o, op) → s.source.get? k = op.outcome

/-- What the synchronous flush has still to do, when the shards below `n` are collected and the jobs
`ts`, of the shard before `n`, are in hand. Unless the closing thread is on its own, only entries
of synced keys may have a deadline: another thread could drop them. -/
structure Remains (hash : Key α → ℕ) (solo : Prop) (s : Shared α V cfg) (n : ℕ)
    (ts : List (Ticket α V)) : Prop where
  follows : ∀ k, n ≤ shardFor cfg hash k → ((s.home hash k).slot k).Follows (lastWrite k s.log)
  home : ∀ t ∈ ts, (shardFor cfg hash t.job.key : ℕ) + 1 = n
  last : ∀ t ∈ ts, ∃ o, lastWrite t.job.key s.log = some (o, t.job.operation)
  left : ∀ k, Synced s k ∨ (n ≤ shardFor cfg hash k ∧ ((s.home hash k).slot k).Owes) ∨
    (∃ t ∈ ts, t.job.key = k) ∧ ∀ t ∈ ts, t.job.key = k → (s.home hash k).isStale t.job = false
  steady : ¬ solo → ∀ k v d, (s.home hash k).timed k = some (v, some d) → Synced s k

section Frame

variable {solo : Prop} {s s' : Shared α V cfg} {n : ℕ} {ts ts' : List (Ticket α V)}

/-- Being synced depends on the source and the writes of the key. -/
theorem Synced.congr (h : Synced s k) (hlog : lastWrite k s'.log = lastWrite k s.log)
    (hsource : s'.source.get? k = s.source.get? k) : Synced s' k :=
  fun o op hl => hsource.trans (h o op (hlog ▸ hl))

/-- **The frame rule of the walk**: a step that writes nothing and leaves each key synced, or its slot,
source and jobs in hand as they are, leaves the same to be done. -/
theorem Remains.frame (h : Remains hash solo s n ts)
    (hlog : ∀ k, lastWrite k s'.log = lastWrite k s.log) (hts : ∀ t ∈ ts', t ∈ ts)
    (hslot : ∀ k, n ≤ shardFor cfg hash k → (s'.home hash k).slot k = (s.home hash k).slot k ∨
      (s'.home hash k).slot k = ((s.home hash k).slot k).remove)
    (htimed : ∀ k v d, (s'.home hash k).timed k = some (v, some d) →
      (s.home hash k).timed k = some (v, some d))
    (hkey : ∀ k, Synced s' k ∨ (s'.home hash k).slot k = (s.home hash k).slot k ∧
      s'.source.get? k = s.source.get? k ∧ ∀ t ∈ ts, t.job.key = k → t ∈ ts') :
    Remains hash solo s' n ts' where
  follows k hk := by
    rw [hlog]
    rcases hslot k hk with heq | heq
    · rw [heq]
      exact h.follows k hk
    · rw [heq]
      exact (h.follows k hk).remove
  home t ht := h.home t (hts t ht)
  last t ht := by
    rw [hlog]
    exact h.last t (hts t ht)
  left k := by
    rcases hkey k with hsync | ⟨heq, hsource, hin⟩
    · exact .inl hsync
    · rcases h.left k with hsync | ⟨hk, howes⟩ | ⟨⟨t, ht, htk⟩, hfresh⟩
      · exact .inl (hsync.congr (hlog k) hsource)
      · exact .inr (.inl ⟨hk, heq ▸ howes⟩)
      · refine .inr (.inr ⟨⟨t, hin t ht htk, htk⟩, fun t' ht' htk' => ?_⟩)
        rw [CacheShard.isStale_eq, htk', heq, ← htk', ← CacheShard.isStale_eq, htk']
        exact hfresh t' (hts t' ht') htk'
  steady hsolo k v d hd := by
    rcases hkey k with hsync | ⟨-, hsource, -⟩
    · exact hsync
    · exact (h.steady hsolo k v d (htimed k v d hd)).congr (hlog k) hsource

/-- When nothing is in hand and no shard is left, all keys are synced. -/
theorem Remains.synced (h : Remains hash solo s n []) (hn : cfg.shardCount ≤ n) (k : Key α) :
    Synced s k := by
  rcases h.left k with hsync | ⟨hk, -⟩ | ⟨⟨t, ht, -⟩, -⟩
  · exact hsync
  · exact absurd (hn.trans hk) (Nat.not_le.mpr (shardFor cfg hash k).isLt)
  · cases ht

/-- A slot that owes a flush has a job among the collected ones. -/
theorem exists_dirtyJobs_of_owes {sh : CacheShard α V T} (cfg : CacheConfig T)
    (h : (sh.slot k).Owes) : ∃ job ∈ sh.dirtyJobs cfg, job.key = k := by
  rcases h with ⟨e, he, hd⟩ | ht
  · obtain ⟨x, hx, rfl⟩ := Option.map_eq_some_iff.mp he
    have hkey := sh.backend.keyed k x hx
    have hmem : x ∈ sh.backend.entryList.filter fun e => e.dirty :=
      List.mem_filter.mpr ⟨InMemoryBackend.mem_entryList.mpr (hkey.symm ▸ hx), hd⟩
    exact ⟨_, List.mem_append_left _ (List.mem_map_of_mem hmem), hkey⟩
  · obtain ⟨t, ht⟩ := Option.isSome_iff_exists.mp ht
    exact ⟨_, List.mem_append_right _ (List.mem_map_of_mem (OrderedDict.get?_eq_some_iff.mp ht)), rfl⟩

/-- Collecting a shard: its slots that owe a flush have a job in hand. -/
theorem Remains.collect (h : Remains hash solo s n []) (hn : n < cfg.shardCount)
    (hok : ShardOk cfg hash ⟨n, hn⟩ (s.shards ⟨n, hn⟩)) :
    Remains hash solo s (n + 1)
      (((s.shards ⟨n, hn⟩).dirtyJobs cfg.toCacheConfig).map (closeTicket s.log)) := by
  -- a collected job is for a key of this shard, whose slot follows the last write
  have hjob : ∀ job ∈ (s.shards ⟨n, hn⟩).dirtyJobs cfg.toCacheConfig,
      shardFor cfg hash job.key = ⟨n, hn⟩ ∧ (s.home hash job.key).isStale job = false ∧
        ∃ o, lastWrite job.key s.log = some (o, job.operation) := by
    intro job hj
    have hshard := (hok.shardFor_dirtyJobs hj).1
    refine ⟨hshard, ?_⟩
    have hfollows := h.follows job.key (by rw [hshard])
    rw [Shared.home, hshard] at hfollows
    rw [Shared.home, hshard, CacheShard.isStale_eq]
    exact hfollows.flush (again_of_dirtyJobs hj)
  refine ⟨fun k hk => h.follows k (by omega), fun t ht => ?_, fun t ht => ?_, fun k => ?_, h.steady⟩
  · obtain ⟨job, hj, rfl⟩ := List.mem_map.mp ht
    exact congrArg (fun i : Fin cfg.shardCount => (i : ℕ) + 1) (hjob job hj).1
  · obtain ⟨job, hj, rfl⟩ := List.mem_map.mp ht
    exact (hjob job hj).2.2
  · rcases h.left k with hsync | ⟨hk, howes⟩ | ⟨⟨t, ht, -⟩, -⟩
    · exact .inl hsync
    · rcases Nat.lt_or_ge n (shardFor cfg hash k) with hlt | hge
      · exact .inr (.inl ⟨hlt, howes⟩)
      · have hshard : shardFor cfg hash k = ⟨n, hn⟩ := Fin.ext (le_antisymm hge hk)
        rw [Shared.home, hshard] at howes
        obtain ⟨job, hj, hkey⟩ := exists_dirtyJobs_of_owes cfg.toCacheConfig howes
        refine .inr (.inr ⟨⟨_, List.mem_map_of_mem hj, hkey⟩, fun t ht htk => ?_⟩)
        obtain ⟨job', hj', rfl⟩ := List.mem_map.mp ht
        have hfresh := (hjob job' hj').2.1
        rwa [show job'.key = k from htk] at hfresh
    · cases ht

/-- A change in the slot of a synced key of a collected shard. -/
theorem Remains.update_slot (h : Remains hash solo s n ts) {i : Fin cfg.shardCount}
    {sh' : CacheShard α V T} {key : Key α} {x : Slot V} (hi : shardFor cfg hash key = i) (hn : (i : ℕ) < n)
    (hsync : Synced s key) (hdata : (s.shards i).SameData sh')
    (hx : sh'.slot = Function.update (s.shards i).slot key x) (hs : (s.setShard i sh').Same s') :
    Remains hash solo s' n ts ∧ ∀ k, Synced s k → Synced s' k := by
  have hlog : ∀ k, lastWrite k s'.log = lastWrite k s.log := fun k => congrArg (lastWrite k) hs.log_eq
  have hsource : ∀ k, s'.source.get? k = s.source.get? k := fun k => congrArg (OrderedDict.get? · k) hs.source_eq
  have hsynced : ∀ k, Synced s k → Synced s' k := fun k hk => hk.congr (hlog k) (hsource k)
  have hslot : ∀ k, k ≠ key → (s'.home hash k).slot k = (s.home hash k).slot k := by
    intro k hk
    rw [Shared.home_of_update hs.shards_eq]
    split_ifs with hki
    · rw [hx, Function.update_of_ne hk, Shared.home, hki]
    · rfl
  refine ⟨h.frame hlog (fun t ht => ht) (fun k hk => .inl (hslot k ?_)) (fun k v d hd => ?_)
    fun k => ?_, hsynced⟩
  · rintro rfl
    rw [hi] at hk
    omega
  · rw [Shared.home_of_update hs.shards_eq] at hd
    split_ifs at hd with hki
    · rw [Shared.home, hki, ← hdata.timed_eq]
      exact hd
    · exact hd
  · by_cases hk : k = key
    · exact .inl (hk ▸ hsynced key hsync)
    · exact .inr ⟨hslot k hk, hsource k, fun t ht _ => ht⟩

end Frame

/-! ### The closing thread -/

/-- The thread is in the synchronous flush, or in what comes after it. -/
def Thread.ending : Thread α V T → Bool
  | .syncCollect _ _ => true
  | .syncNext _ _ _ => true
  | .syncTry _ _ _ _ _ => true
  | .syncClean _ _ _ _ => true
  | .syncSettle _ _ _ _ _ => true
  | .closeStop _ => true
  | .closeDrain _ => true
  | .finished _ => true
  | _ => false

/-- What holds at the points of the closing thread, as long as no flush failed. -/
def SyncOk (hash : Key α → ℕ) (solo : Prop) (s : Shared α V cfg) : Thread α V T → Prop
  | .syncCollect i false => Remains hash solo s i []
  | .syncNext i ts false => Remains hash solo s (i + 1) ts
  | .syncTry i t _ ts false => Remains hash solo s (i + 1) (t :: ts)
  | .syncClean i t ts false =>
      Remains hash solo s (i + 1) ts ∧ (shardFor cfg hash t.job.key : ℕ) = i ∧ Synced s t.job.key
  | .syncSettle i t true ts false =>
      Remains hash solo s (i + 1) ts ∧ (shardFor cfg hash t.job.key : ℕ) = i ∧ Synced s t.job.key
  | .closeStop false => ∀ k, Synced s k
  | .closeDrain false => ∀ k, Synced s k
  | .finished .done => ∀ k, Synced s k
  | _ => True

section Steps

variable {solo : Prop} {s s' : Shared α V cfg} {c : Choice α V} {th th' : Thread α V T} {i : ℕ}
  {t : Ticket α V} {ts : List (Ticket α V)}

/-- A stale job in hand is skipped: its key is synced. -/
theorem Remains.skip (h : Remains hash solo s (i + 1) (t :: ts)) (hi : i < cfg.shardCount)
    (hst : (s.shards ⟨i, hi⟩).isStale t.job = true) {f : RuntimeStats → RuntimeStats} :
    Remains hash solo
      ((s.setShard ⟨i, hi⟩ ((s.shards ⟨i, hi⟩).clearPendingFlushesLocked t.job.key)).count f) (i + 1) ts := by
  have hshard : shardFor cfg hash t.job.key = ⟨i, hi⟩ :=
    Fin.ext (Nat.succ.inj (h.home t List.mem_cons_self))
  have hsync : Synced s t.job.key := by
    rcases h.left t.job.key with hsync | ⟨hk, -⟩ | ⟨-, hfresh⟩
    · exact hsync
    · rw [hshard] at hk
      exact absurd hk (Nat.not_succ_le_self i)
    · have hnot := hfresh t List.mem_cons_self rfl
      rw [Shared.home, hshard, hst] at hnot
      cases hnot
  have hrest : Remains hash solo s (i + 1) ts := by
    refine h.frame (fun _ => rfl) (fun t' ht' => List.mem_cons_of_mem t ht') (fun k _ => .inl rfl)
      (fun k v d hd => hd) fun k => ?_
    by_cases hk : k = t.job.key
    · exact .inl (hk ▸ hsync)
    · refine .inr ⟨rfl, rfl, fun t' ht' htk => ?_⟩
      exact (List.mem_cons.mp ht').resolve_left fun e => hk (by rw [← htk, e])
  exact (hrest.update_slot hshard (Nat.lt_succ_self i) hsync
    (CacheShard.sameData_clearPendingFlushesLocked _ _) (CacheShard.slot_clearPendingFlushesLocked _ _)
    ((Shared.Same.refl _).count f)).1

/-- A job in hand is applied: its key is synced. -/
theorem Remains.apply (h : Remains hash solo s (i + 1) (t :: ts)) :
    Remains hash solo ({ s with source := applyWriteBack s.source t.job }.emit [.applied t]) (i + 1) ts ∧
      Synced ({ s with source := applyWriteBack s.source t.job }.emit [.applied t]) t.job.key := by
  have hlog : ∀ k, lastWrite k ({ s with source := applyWriteBack s.source t.job }.emit [.applied t]).log =
      lastWrite k s.log := by
    intro k
    show lastWrite k ([Event.applied t] ++ s.log) = lastWrite k s.log
    exact lastWrite_append (by simp [Event.writeOf])
  have hsync : Synced ({ s with source := applyWriteBack s.source t.job }.emit [.applied t]) t.job.key := by
    intro o op hl
    obtain ⟨o', hl'⟩ := h.last t List.mem_cons_self
    rw [hlog, hl'] at hl
    obtain ⟨-, rfl⟩ := Prod.mk.inj (Option.some.inj hl)
    exact (Source.get?_apply _ _ _ _).trans (if_pos rfl)
  refine ⟨h.frame hlog (fun t' ht' => List.mem_cons_of_mem t ht') (fun k _ => .inl rfl)
    (fun k v d hd => hd) fun k => ?_, hsync⟩
  by_cases hk : k = t.job.key
  · exact .inl (hk ▸ hsync)
  · refine .inr ⟨rfl, (Source.get?_apply _ _ _ _).trans (if_neg hk), fun t' ht' htk => ?_⟩
    exact (List.mem_cons.mp ht').resolve_left fun e => hk (by rw [← htk, e])

/-- **The walk does its job**: a step of the closing thread keeps `SyncOk`. -/
theorem SyncOk.step (h : SyncOk hash solo s th) (he : th.ending = true)
    (hok : ∀ i, ShardOk cfg hash i (s.shards i)) (hstep : closeStep s c th = some (s', th')) :
    SyncOk hash solo s' th' ∧ th'.ending = true := by
  cases th with
  | syncCollect i failed =>
      simp only [closeStep] at hstep
      split_ifs at hstep with hi hf <;> cases hstep <;> refine ⟨?_, rfl⟩
      · cases failed with
        | true => trivial
        | false => exact Remains.collect h hi (hok ⟨i, hi⟩)
      · rw [hf]
        trivial
      · rw [Bool.not_eq_true] at hf
        subst hf
        exact Remains.synced h (Nat.le_of_not_lt hi)
  | syncNext i ts failed =>
      cases ts with
      | nil =>
          cases hstep
          exact ⟨by cases failed <;> exact h, rfl⟩
      | cons t ts =>
          simp only [closeStep] at hstep
          split_ifs at hstep with hi hst <;> cases hstep <;> refine ⟨?_, rfl⟩
          · cases failed with
            | true => trivial
            | false => exact Remains.skip h hi hst
          · cases failed <;> exact h
  | syncTry i t left ts failed =>
      simp only [closeStep] at hstep
      split_ifs at hstep with hc
      · cases hstep
        cases failed with
        | true => cases t.job.operation <;> exact ⟨trivial, rfl⟩
        | false =>
            obtain ⟨hrest, hsync⟩ := Remains.apply h
            have hshard : (shardFor cfg hash t.job.key : ℕ) = i :=
              Nat.succ.inj (Remains.home h t List.mem_cons_self)
            cases t.job.operation <;> exact ⟨⟨hrest, hshard, hsync⟩, rfl⟩
      · cases left with
        | zero =>
            cases hstep
            exact ⟨trivial, rfl⟩
        | succ left =>
            cases hstep
            refine ⟨?_, rfl⟩
            cases failed with
            | true => trivial
            | false =>
                exact Remains.frame h (fun _ => rfl) (fun t ht => ht) (fun k _ => .inl rfl)
                  (fun k v d hd => hd) fun k => .inr ⟨rfl, rfl, fun t ht _ => ht⟩
  | syncClean i t ts failed =>
      obtain ⟨s₁, hs₁, heq⟩ := Option.map_eq_some_iff.mp hstep
      obtain ⟨hi, rfl⟩ := Shared.onShard_eq_some.mp hs₁
      cases heq
      refine ⟨?_, rfl⟩
      cases failed with
      | true => trivial
      | false =>
          obtain ⟨hrest, hshard, hsync⟩ := h
          obtain ⟨hrest', hkeep⟩ := hrest.update_slot (i := ⟨i, hi⟩) (Fin.ext hshard) (Nat.lt_succ_self i)
            hsync (CacheShard.sameData_markCleanLocked _ t.job) (CacheShard.slot_markCleanLocked _ t.job)
            (.refl _)
          exact ⟨hrest', hshard, hkeep _ hsync⟩
  | syncSettle i t success ts failed =>
      obtain ⟨s₁, hs₁, heq⟩ := Option.map_eq_some_iff.mp hstep
      obtain ⟨hi, rfl⟩ := Shared.onShard_eq_some.mp hs₁
      cases heq
      refine ⟨?_, rfl⟩
      cases success with
      | false => cases failed <;> trivial
      | true =>
          cases failed with
          | true => trivial
          | false =>
              obtain ⟨hrest, hshard, hsync⟩ := h
              exact (hrest.update_slot (i := ⟨i, hi⟩) (Fin.ext hshard) (Nat.lt_succ_self i) hsync
                (CacheShard.sameData_clearPendingFlushesLocked _ _)
                (CacheShard.slot_clearPendingFlushesLocked _ _) (.refl _)).1
  | closeStop failed =>
      simp only [closeStep] at hstep
      split_ifs at hstep <;> cases hstep <;> exact ⟨by cases failed <;> exact h, rfl⟩
  | closeDrain failed =>
      cases hstep
      exact ⟨by cases failed <;> exact h, rfl⟩
  | finished result => cases hstep
  | _ => cases he

/-- **What the others may do meanwhile**: nothing, or drop entries that have a deadline when the
closing thread is not on its own. -/
theorem SyncOk.frame (h : SyncOk hash solo s th) (hsource : s'.source = s.source) (hlog : s'.log = s.log)
    (hkey : ∀ k, ((s'.home hash k).slot k = (s.home hash k).slot k ∧
      (s'.home hash k).timed k = (s.home hash k).timed k) ∨
      ¬ solo ∧ ∃ v d, (s.home hash k).timed k = some (v, some d) ∧
        (s'.home hash k).slot k = ((s.home hash k).slot k).remove ∧ (s'.home hash k).timed k = none) :
    SyncOk hash solo s' th := by
  have hlast : ∀ k, lastWrite k s'.log = lastWrite k s.log := fun k => congrArg (lastWrite k) hlog
  have hget : ∀ k, s'.source.get? k = s.source.get? k := fun k => congrArg (OrderedDict.get? · k) hsource
  have hsynced : ∀ k, Synced s k → Synced s' k := fun k hk => hk.congr (hlast k) (hget k)
  have hremains : ∀ {n : ℕ} {ts : List (Ticket α V)}, Remains hash solo s n ts → Remains hash solo s' n ts := by
    intro n ts hr
    refine hr.frame hlast (fun t ht => ht) (fun k _ => ?_) (fun k v d hd => ?_) fun k => ?_
    · exact (hkey k).imp And.left fun ⟨_, _, _, _, hslot, _⟩ => hslot
    · rcases hkey k with ⟨-, htimed⟩ | ⟨-, _, _, -, -, htimed⟩
      · exact htimed ▸ hd
      · rw [htimed] at hd
        cases hd
    · rcases hkey k with ⟨hslot, -⟩ | ⟨hsolo, v, d, hold, -, -⟩
      · exact .inr ⟨hslot, hget k, fun t ht _ => ht⟩
      · exact .inl (hsynced k (hr.steady hsolo k v d hold))
  unfold SyncOk at h ⊢
  split <;> simp only at h
  · exact hremains h
  · exact hremains h
  · exact hremains h
  · exact ⟨hremains h.1, h.2.1, hsynced _ h.2.2⟩
  · exact ⟨hremains h.1, h.2.1, hsynced _ h.2.2⟩
  · exact fun k => hsynced k (h k)
  · exact fun k => hsynced k (h k)
  · exact fun k => hsynced k (h k)
  · trivial

/-- `SyncOk` looks at shards, source and log only. -/
theorem SyncOk.congr (h : SyncOk hash solo s th) (hshards : s'.shards = s.shards)
    (hsource : s'.source = s.source) (hlog : s'.log = s.log) : SyncOk hash solo s' th :=
  h.frame hsource hlog fun k => .inl (by simp only [Shared.home, hshards, and_self])

/-- A section of another thread that is no write. -/
theorem SyncOk.tended (h : SyncOk hash solo s th) (hsolo : ¬ solo) {j : Fin cfg.shardCount}
    {sh' : CacheShard α V T} (ht : (s.shards j).Tended s.now sh')
    (hshards : s'.shards = Function.update s.shards j sh') (hsource : s'.source = s.source)
    (hlog : s'.log = s.log) : SyncOk hash solo s' th := by
  refine h.frame hsource hlog fun k => ?_
  rw [Shared.home_of_update hshards]
  split_ifs with hj
  · rw [Shared.home, hj]
    rcases ht.key k with hsame | ⟨v, d, hold, -, hslot, htimed⟩
    · exact .inl hsame
    · exact .inr ⟨hsolo, v, d, hold, hslot, htimed⟩
  · exact .inl ⟨rfl, rfl⟩

end Steps

end CacheLab
