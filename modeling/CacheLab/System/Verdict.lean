import CacheLab.System.DirtyFlush

/-!
# The verdict of the synchronous flush

`_flush_dirty_entries_sync` returns whether one of its jobs was given up, and `close` raises when that is so.
Against this stands what is lost: a dirty entry, or a value that the source still holds for a key that was to
be deleted. The keys that were to be deleted are a parameter `gone` here.

`Verdict` says how the two are tied together while the walk is under way: what is lost is still `Due`, or the
flag is set; and if the flag is set, something is lost that is not due any more. `Verdict.closeStep` carries this
through a step of the closing thread, with one exception: a delete is given up although the source does not hold
the key (`Thread.blamesVainly`). At the end nothing is due, so the flag says whether something is lost
(`Verdict.failed_iff`).
-/

set_option linter.unusedSectionVars false

namespace CacheLab

variable {α V T : Type} [DecidableEq α] [LinearOrder T] [Zero T] [Add T] [Sub T]

open WriteBehind

/-! ### One slot -/

namespace WriteBehind.Slot

variable {V : Type} {s : Slot V} {op : WriteOp V} {version : ℕ}

/-- An entry and a tombstone have the version of the mark, and there are not both. -/
structure Tied (s : Slot V) : Prop where
  entry : ∀ e, s.entry = some e → s.mark = some e.version ∧ s.tomb = none
  tomb : ∀ t, s.tomb = some t → s.mark = some t ∧ s.entry = none

/-- A flush of what the slot owes. -/
def Asks (s : Slot V) (op : WriteOp V) (version : ℕ) : Prop :=
  (∃ e, s.entry = some e ∧ e.dirty = true ∧ e.version = version ∧ op = .put e.value) ∨
    s.tomb = some version ∧ op = .delete

/-- A slot that asks for a flush owes something. -/
theorem Asks.owes (h : s.Asks op version) : s.Owes := by
  rcases h with ⟨e, he, hd, -⟩ | ⟨ht, -⟩
  · exact .inl ⟨e, he, hd⟩
  · exact .inr (by rw [ht]; rfl)

/-- What the slot asks for is not stale. -/
theorem Tied.not_stale (h : s.Tied) (ha : s.Asks op version) : s.stale op version = false := by
  rcases ha with ⟨e, he, -, rfl, rfl⟩ | ⟨ht, rfl⟩
  · obtain ⟨hm, ht⟩ := h.entry e he
    simp [stale, hm, ht]
  · simp [stale, (h.tomb version ht).1, ht]

@[simp] theorem clearPend_entry : s.clearPend.entry = s.entry := prune_entry _

/-- A tombstone that is there after the counts were cleared was there before. -/
theorem tomb_of_clearPend {t : ℕ} (h : s.clearPend.tomb = some t) : s.tomb = some t := by
  rw [clearPend, prune_tomb] at h
  split_ifs at h
  exact h

/-- Clearing the counts keeps the ties. -/
theorem Tied.clearPend (h : s.Tied) : s.clearPend.Tied where
  entry e he := by
    rw [clearPend_entry] at he
    obtain ⟨hm, ht⟩ := h.entry e he
    rw [Slot.clearPend, prune_mark, prune_tomb]
    simp [he, hm, ht]
  tomb t ht := by
    obtain ⟨hm, hnone⟩ := h.tomb t (tomb_of_clearPend ht)
    rw [Slot.clearPend, prune_tomb] at ht
    simp [hnone] at ht

/-- Marking the entry clean keeps the ties. -/
theorem Tied.clean (h : s.Tied) (op : WriteOp V) (version : ℕ) : (s.clean op version).Tied where
  entry e he := by
    obtain ⟨e', he', hv, -⟩ := clean_entry s op version he
    rw [clean_mark, clean_tomb, hv]
    exact h.entry e' he'
  tomb t ht := by
    rw [clean_tomb] at ht
    obtain ⟨hm, hnone⟩ := h.tomb t ht
    refine ⟨by rwa [clean_mark], ?_⟩
    have hsome := clean_entry_isSome s op version
    rw [hnone] at hsome
    exact Option.not_isSome_iff_eq_none.mp (by simp [hsome])

end WriteBehind.Slot

variable {cfg : AcceptedConfig T} {hash : Key α → ℕ} {gone : Key α → Prop}

/-! ### What is lost and what is due -/

/-- The slot of a key in its shard. -/
abbrev Shared.slotOf (hash : Key α → ℕ) (s : Shared α V cfg) (k : Key α) : Slot V :=
  (s.home hash k).slot k

/-- The source does not know about a write: the entry is dirty, or the source holds a value for a key that
was to be deleted. -/
def Shared.Lost (hash : Key α → ℕ) (gone : Key α → Prop) (s : Shared α V cfg) (k : Key α) : Prop :=
  (∃ e, (s.slotOf hash k).entry = some e ∧ e.dirty = true) ∨ gone k ∧ (s.source.get? k).isSome = true

/-- The flush has still to do with the key: its shard is to come and owes something, or a job is in hand. -/
def Shared.Due (hash : Key α → ℕ) (s : Shared α V cfg) (n : ℕ) (ts : List (Ticket α V)) (k : Key α) : Prop :=
  (n ≤ shardFor cfg hash k ∧ (s.slotOf hash k).Owes) ∨ ∃ t ∈ ts, t.job.key = k

/-- **The walk under way**: the shards below `n` are collected, the jobs `ts`, of the shard before `n`, are in
hand, and `failed` is the flag so far. -/
structure Verdict (hash : Key α → ℕ) (gone : Key α → Prop) (s : Shared α V cfg) (n : ℕ)
    (ts : List (Ticket α V)) (failed : Bool) : Prop where
  tied : ∀ k, (s.slotOf hash k).Tied
  erased : ∀ k, gone k → (s.slotOf hash k).entry = none
  buried : ∀ k, (s.slotOf hash k).tomb.isSome = true → gone k
  nodup : (ts.map fun t => t.job.key).Nodup
  home : ∀ t ∈ ts, (shardFor cfg hash t.job.key : ℕ) + 1 = n
  asks : ∀ t ∈ ts, (s.slotOf hash t.job.key).Asks t.job.operation t.job.version
  due : ∀ k, s.Lost hash gone k → failed = true ∨ s.Due hash n ts k
  blamed : failed = true → ∃ k, s.Lost hash gone k ∧ ¬ s.Due hash n ts k

section Frame

variable {s s' : Shared α V cfg} {n : ℕ} {ts ts' : List (Ticket α V)} {failed failed' : Bool} {key : Key α}

/-- What is lost depends on the slot and the source. -/
theorem Shared.Lost.congr {k : Key α} (h : s.Lost hash gone k) (hslot : s'.slotOf hash k = s.slotOf hash k)
    (hsource : s'.source.get? k = s.source.get? k) : s'.Lost hash gone k := by
  unfold Shared.Lost
  rw [hslot, hsource]
  exact h

/-- What is due depends on the slot and the jobs in hand. -/
theorem Shared.Due.congr {k : Key α} (h : s.Due hash n ts k) (hslot : s'.slotOf hash k = s.slotOf hash k)
    (hts : ∀ t ∈ ts, t.job.key = k → t ∈ ts') : s'.Due hash n ts' k := by
  rcases h with ⟨hn, howes⟩ | ⟨t, ht, htk⟩
  · exact .inl ⟨hn, hslot ▸ howes⟩
  · exact .inr ⟨t, hts t ht htk, htk⟩

/-- **The frame rule of the walk**: what concerns the other keys stays, and the one key is taken care of. -/
theorem Verdict.update (h : Verdict hash gone s n ts failed) (hn : (shardFor cfg hash key : ℕ) < n)
    (hts : ts'.Sublist ts) (hslot : ∀ k, k ≠ key → s'.slotOf hash k = s.slotOf hash k)
    (hsource : ∀ k, k ≠ key → s'.source.get? k = s.source.get? k)
    (hin : ∀ t ∈ ts, t.job.key ≠ key → t ∈ ts') (htied : (s'.slotOf hash key).Tied)
    (herased : gone key → (s'.slotOf hash key).entry = none)
    (hburied : (s'.slotOf hash key).tomb.isSome = true → gone key)
    (hasks : ∀ t ∈ ts', t.job.key = key → (s'.slotOf hash key).Asks t.job.operation t.job.version)
    (hdue : s'.Lost hash gone key → failed' = true ∨ ∃ t ∈ ts', t.job.key = key)
    (hmono : failed = true → failed' = true)
    (hnew : failed' = true → failed = true ∧ (s.Lost hash gone key → ∃ t ∈ ts, t.job.key = key) ∨
      s'.Lost hash gone key ∧ ∀ t ∈ ts', t.job.key ≠ key) :
    Verdict hash gone s' n ts' failed' where
  tied k := by
    by_cases hk : k = key
    · exact hk ▸ htied
    · rw [hslot k hk]
      exact h.tied k
  erased k hg := by
    by_cases hk : k = key
    · subst hk
      exact herased hg
    · rw [hslot k hk]
      exact h.erased k hg
  buried k ht := by
    by_cases hk : k = key
    · subst hk
      exact hburied ht
    · rw [hslot k hk] at ht
      exact h.buried k ht
  nodup := h.nodup.sublist (hts.map _)
  home t ht := h.home t (hts.subset ht)
  asks t ht := by
    by_cases hk : t.job.key = key
    · rw [hk]
      exact hasks t ht hk
    · rw [hslot _ hk]
      exact h.asks t (hts.subset ht)
  due k hlost := by
    by_cases hk : k = key
    · subst hk
      exact (hdue hlost).imp_right .inr
    · have hold : s.Lost hash gone k := hlost.congr (hslot k hk).symm (hsource k hk).symm
      refine (h.due k hold).imp hmono fun hd => hd.congr (hslot k hk) fun t ht htk => ?_
      exact hin t ht (htk ▸ hk)
  blamed hf := by
    rcases hnew hf with ⟨hold, hkey⟩ | ⟨hlost, hnot⟩
    · obtain ⟨k, hlost, hnot⟩ := h.blamed hold
      have hk : k ≠ key := by
        rintro rfl
        exact hnot (.inr (hkey hlost))
      refine ⟨k, hlost.congr (hslot k hk) (hsource k hk), fun hd => hnot ?_⟩
      exact hd.congr (hslot k hk).symm fun t ht _ => hts.subset ht
    · refine ⟨key, hlost, ?_⟩
      rintro (⟨hle, -⟩ | ⟨t, ht, htk⟩)
      · omega
      · exact hnot t ht htk

/-- The verdict depends on slots and source only. -/
theorem Verdict.congr (h : Verdict hash gone s n ts failed)
    (hslot : ∀ k, s'.slotOf hash k = s.slotOf hash k)
    (hsource : ∀ k, s'.source.get? k = s.source.get? k) : Verdict hash gone s' n ts failed where
  tied k := by
    rw [hslot k]
    exact h.tied k
  erased k hg := by
    rw [hslot k]
    exact h.erased k hg
  buried k ht := h.buried k (hslot k ▸ ht)
  nodup := h.nodup
  home := h.home
  asks t ht := by
    rw [hslot]
    exact h.asks t ht
  due k hlost := (h.due k (hlost.congr (hslot k).symm (hsource k).symm)).imp_right
    fun hd => hd.congr (hslot k) fun t ht _ => ht
  blamed hf := by
    obtain ⟨k, hlost, hnot⟩ := h.blamed hf
    exact ⟨k, hlost.congr (hslot k) (hsource k), fun hd => hnot (hd.congr (hslot k).symm fun t ht _ => ht)⟩

/-- When no shard is left and no job is in hand, the flag says whether something is lost. -/
theorem Verdict.failed_iff (h : Verdict hash gone s n [] failed) (hn : cfg.shardCount ≤ n) :
    failed = true ↔ ∃ k, s.Lost hash gone k := by
  constructor
  · intro hf
    obtain ⟨k, hlost, -⟩ := h.blamed hf
    exact ⟨k, hlost⟩
  · rintro ⟨k, hlost⟩
    rcases h.due k hlost with hf | ⟨hk, -⟩ | ⟨t, ht, -⟩
    · exact hf
    · exact absurd (hn.trans hk) (Nat.not_le.mpr (shardFor cfg hash k).isLt)
    · cases ht

end Frame

/-! ### The steps of the walk -/

section Steps

variable {s s' : Shared α V cfg} {c : Choice α V} {th th' : Thread α V T} {i n : ℕ} {t : Ticket α V}
  {ts : List (Ticket α V)} {failed : Bool}

/-- A collected job is one that the slot of its key asks for. -/
theorem asks_of_dirtyJobs {sh : CacheShard α V T} {job : FlushWriteBack α V}
    (h : job ∈ sh.dirtyJobs cfg.toCacheConfig) : (sh.slot job.key).Asks job.operation job.version := by
  rw [CacheShard.dirtyJobs, List.mem_append, List.mem_map, List.mem_map] at h
  rcases h with ⟨e, he, rfl⟩ | ⟨q, hq, rfl⟩
  · obtain ⟨hmem, hd⟩ := List.mem_filter.mp he
    have hget := InMemoryBackend.mem_entryList.mp hmem
    exact .inl ⟨e.held, by simp [CacheShard.slot, hget], hd, rfl, rfl⟩
  · exact .inr ⟨OrderedDict.get?_eq_some_iff.mpr hq, rfl⟩

/-- The walk finds marked shards. -/
theorem Verdict.marked (h : Verdict hash gone s n ts failed) (i : Fin cfg.shardCount)
    (hok : ShardOk cfg hash i (s.shards i)) : (s.shards i).Marked where
  entry k e he := by
    have hslot : ((s.shards i).slot k).entry = some e.held := by simp [CacheShard.slot, he]
    have hshard : shardFor cfg hash k = i := by
      by_contra hne
      rw [hok.routed k hne] at hslot
      cases hslot
    have htied := h.tied k
    rw [Shared.slotOf, Shared.home, hshard] at htied
    exact htied.entry e.held hslot
  tombstone k t ht := by
    have hslot : ((s.shards i).slot k).tomb = some t := ht
    have hshard : shardFor cfg hash k = i := by
      by_contra hne
      rw [hok.routed k hne] at hslot
      cases hslot
    have htied := h.tied k
    rw [Shared.slotOf, Shared.home, hshard] at htied
    obtain ⟨hm, hnone⟩ := htied.tomb t hslot
    exact ⟨hm, by simpa [CacheShard.slot] using hnone⟩

/-- **Collecting a shard**: what it owes is in hand. -/
theorem Verdict.collect (h : Verdict hash gone s n [] failed) (hn : n < cfg.shardCount)
    (hok : ShardOk cfg hash ⟨n, hn⟩ (s.shards ⟨n, hn⟩)) :
    Verdict hash gone s (n + 1)
      (((s.shards ⟨n, hn⟩).dirtyJobs cfg.toCacheConfig).map (closeTicket s.log)) failed := by
  have hhome : ∀ job ∈ (s.shards ⟨n, hn⟩).dirtyJobs cfg.toCacheConfig,
      shardFor cfg hash job.key = ⟨n, hn⟩ := fun job hj => (hok.shardFor_dirtyJobs hj).1
  have hasks : ∀ job ∈ (s.shards ⟨n, hn⟩).dirtyJobs cfg.toCacheConfig,
      (s.slotOf hash job.key).Asks job.operation job.version := by
    intro job hj
    rw [Shared.slotOf, Shared.home, hhome job hj]
    exact asks_of_dirtyJobs hj
  refine ⟨h.tied, h.erased, h.buried, ?_, fun t ht => ?_, fun t ht => ?_, fun k hlost => ?_, fun hf => ?_⟩
  · rw [List.map_map]
    exact (h.marked ⟨n, hn⟩ hok).nodup_dirtyJobs cfg.toCacheConfig
  · obtain ⟨job, hj, rfl⟩ := List.mem_map.mp ht
    exact congrArg (fun i : Fin cfg.shardCount => (i : ℕ) + 1) (hhome job hj)
  · obtain ⟨job, hj, rfl⟩ := List.mem_map.mp ht
    exact hasks job hj
  · rcases h.due k hlost with hf | ⟨hk, howes⟩ | ⟨t, ht, -⟩
    · exact .inl hf
    · right
      rcases Nat.lt_or_ge n (shardFor cfg hash k) with hlt | hge
      · exact .inl ⟨hlt, howes⟩
      · have hshard : shardFor cfg hash k = ⟨n, hn⟩ := Fin.ext (le_antisymm hge hk)
        rw [Shared.slotOf, Shared.home, hshard] at howes
        obtain ⟨job, hj, hkey⟩ := exists_dirtyJobs_of_owes cfg.toCacheConfig howes
        exact .inr ⟨_, List.mem_map_of_mem hj, hkey⟩
    · cases ht
  · obtain ⟨k, hlost, hnot⟩ := h.blamed hf
    refine ⟨k, hlost, ?_⟩
    rintro (⟨hk, howes⟩ | ⟨t, ht, rfl⟩)
    · exact hnot (.inl ⟨Nat.le_of_succ_le hk, howes⟩)
    · obtain ⟨job, hj, rfl⟩ := List.mem_map.mp ht
      exact hnot (.inl ⟨by simp [closeTicket, hhome job hj], (hasks job hj).owes⟩)

/-- A change in one shard is a change in the slot of one key. -/
theorem slotOf_of_update (s s' : Shared α V cfg) {j : Fin cfg.shardCount} {sh' : CacheShard α V T}
    {key : Key α} {x : Slot V}
    (hj : shardFor cfg hash key = j) (hx : sh'.slot = Function.update (s.shards j).slot key x)
    (hs : s'.shards = Function.update s.shards j sh') :
    s'.slotOf hash key = x ∧ ∀ k, k ≠ key → s'.slotOf hash k = s.slotOf hash k := by
  refine ⟨?_, fun k hk => ?_⟩
  · rw [Shared.slotOf, Shared.home_of_update hs, if_pos hj, hx, Function.update_self]
  · rw [Shared.slotOf, Shared.home_of_update hs]
    split_ifs with hki
    · rw [hx, Function.update_of_ne hk, Shared.slotOf, Shared.home, hki]
    · rfl

/-- The job in hand is for a key of the shard before `n`, and no other job is. -/
theorem Verdict.head (h : Verdict hash gone s n (t :: ts) failed) :
    (shardFor cfg hash t.job.key : ℕ) < n ∧ (∀ t' ∈ ts, t'.job.key ≠ t.job.key) ∧
      ∀ t' ∈ t :: ts, t'.job.key ≠ t.job.key → t' ∈ ts := by
  refine ⟨?_, fun t' ht' heq => ?_, fun t' ht' hne => ?_⟩
  · have := h.home t List.mem_cons_self
    omega
  · have hnodup := h.nodup
    rw [List.map_cons, List.nodup_cons] at hnodup
    exact hnodup.1 (heq ▸ List.mem_map_of_mem (f := fun t : Ticket α V => t.job.key) ht')
  · exact (List.mem_cons.mp ht').resolve_left fun heq => hne (by rw [heq])

/-- **A put in hand is applied**; its entry is still to be marked clean. -/
theorem Verdict.applyPut (h : Verdict hash gone s n (t :: ts) failed)
    (hslot : ∀ k, s'.slotOf hash k = s.slotOf hash k)
    (hsource : s'.source = applyWriteBack s.source t.job) : Verdict hash gone s' n (t :: ts) failed := by
  obtain ⟨hn, -, -⟩ := h.head
  refine h.update hn (.refl _) (fun k _ => hslot k) (fun k hk => ?_) (fun t' ht' _ => ht') ?_ ?_ ?_ ?_
    (fun _ => .inr ⟨t, List.mem_cons_self, rfl⟩) id fun hf => .inl ⟨hf, fun _ => ⟨t, List.mem_cons_self, rfl⟩⟩
  · rw [hsource]
    exact (Source.get?_apply _ _ _ _).trans (if_neg hk)
  · rw [hslot]
    exact h.tied _
  · rw [hslot]
    exact h.erased _
  · rw [hslot]
    exact h.buried _
  · intro t' ht' heq
    have hasks := h.asks t' ht'
    rwa [heq, ← hslot] at hasks

/-- **A delete in hand is applied**: nothing is lost for its key any more. -/
theorem Verdict.applyDelete (h : Verdict hash gone s n (t :: ts) failed) (hop : t.job.operation = .delete)
    (hslot : ∀ k, s'.slotOf hash k = s.slotOf hash k)
    (hsource : s'.source = applyWriteBack s.source t.job) :
    Verdict hash gone s' n ts failed ∧ ¬ s'.Lost hash gone t.job.key := by
  obtain ⟨hn, hother, hin⟩ := h.head
  have hnot : ¬ s'.Lost hash gone t.job.key := by
    rintro (⟨e, he, -⟩ | ⟨-, hsome⟩)
    · rw [hslot] at he
      rcases h.asks t List.mem_cons_self with ⟨e', -, -, -, hput⟩ | ⟨htomb, -⟩
      · cases hop.symm.trans hput
      · rw [((h.tied _).tomb _ htomb).2] at he
        cases he
    · have hnone : s'.source.get? t.job.key = none := by
        rw [hsource]
        refine (Source.get?_apply _ _ _ _).trans ?_
        rw [if_pos rfl, hop]
        rfl
      rw [hnone] at hsome
      cases hsome
  refine ⟨h.update hn (List.sublist_cons_self t ts) (fun k _ => hslot k) (fun k hk => ?_) hin ?_ ?_ ?_
    (fun t' ht' heq => absurd heq (hother t' ht')) (fun hlost => absurd hlost hnot) id
    fun hf => .inl ⟨hf, fun _ => ⟨t, List.mem_cons_self, rfl⟩⟩, hnot⟩
  · rw [hsource]
    exact (Source.get?_apply _ _ _ _).trans (if_neg hk)
  · rw [hslot]
    exact h.tied _
  · rw [hslot]
    exact h.erased _
  · rw [hslot]
    exact h.buried _

/-- **The entry of an applied put is marked clean**: nothing is lost for its key any more. -/
theorem Verdict.clean (h : Verdict hash gone s n (t :: ts) failed) {v : V} (hop : t.job.operation = .put v)
    (hself : s'.slotOf hash t.job.key =
      (s.slotOf hash t.job.key).clean t.job.operation t.job.version)
    (hslot : ∀ k, k ≠ t.job.key → s'.slotOf hash k = s.slotOf hash k) (hsource : s'.source = s.source) :
    Verdict hash gone s' n ts failed ∧ ¬ s'.Lost hash gone t.job.key := by
  obtain ⟨hn, hother, hin⟩ := h.head
  obtain ⟨e, he, -, hv, -⟩ : ∃ e, (s.slotOf hash t.job.key).entry = some e ∧ e.dirty = true ∧
      e.version = t.job.version ∧ t.job.operation = .put e.value := by
    rcases h.asks t List.mem_cons_self with hput | ⟨-, hdelete⟩
    · exact hput
    · cases hop.symm.trans hdelete
  have hkept : ¬ gone t.job.key := fun hg => by
    rw [h.erased _ hg] at he
    cases he
  have hnot : ¬ s'.Lost hash gone t.job.key := by
    rintro (⟨e', he', hd⟩ | ⟨hg, -⟩)
    · rw [hself] at he'
      obtain ⟨e₀, he₀, hv', -, hcase⟩ := Slot.clean_entry _ _ _ he'
      obtain rfl : e₀ = e := Option.some.inj (he₀.symm.trans he)
      rcases hcase with ⟨-, hdelete | hne⟩ | ⟨hclean, -⟩
      · cases hop.symm.trans hdelete
      · exact hne (hv'.trans hv)
      · cases hd.symm.trans hclean
    · exact hkept hg
  refine ⟨h.update hn (List.sublist_cons_self t ts) hslot (fun k _ => by rw [hsource]) hin ?_
    (fun hg => absurd hg hkept) ?_ (fun t' ht' heq => absurd heq (hother t' ht'))
    (fun hlost => absurd hlost hnot) id fun hf => .inl ⟨hf, fun _ => ⟨t, List.mem_cons_self, rfl⟩⟩, hnot⟩
  · rw [hself]
    exact (h.tied _).clean _ _
  · rw [hself, Slot.clean_tomb]
    exact h.buried _

/-- **The counts of an applied job are cleared.** -/
theorem Verdict.settle (h : Verdict hash gone s n ts failed) {key : Key α}
    (hn : (shardFor cfg hash key : ℕ) < n) (hother : ∀ t ∈ ts, t.job.key ≠ key)
    (hnot : ¬ s.Lost hash gone key) (hself : s'.slotOf hash key = (s.slotOf hash key).clearPend)
    (hslot : ∀ k, k ≠ key → s'.slotOf hash k = s.slotOf hash k) (hsource : s'.source = s.source) :
    Verdict hash gone s' n ts failed := by
  have hnot' : ¬ s'.Lost hash gone key := by
    unfold Shared.Lost at hnot ⊢
    rwa [hself, Slot.clearPend_entry, hsource]
  refine h.update hn (.refl _) hslot (fun k _ => by rw [hsource]) (fun t ht _ => ht) ?_ ?_ ?_
    (fun t ht heq => absurd heq (hother t ht)) (fun hlost => absurd hlost hnot') id
    fun hf => .inl ⟨hf, fun hlost => absurd hlost hnot⟩
  · rw [hself]
    exact (h.tied _).clearPend
  · rw [hself, Slot.clearPend_entry]
    exact h.erased _
  · intro hsome
    obtain ⟨x, hx⟩ := Option.isSome_iff_exists.mp hsome
    rw [hself] at hx
    exact h.buried _ (by rw [Slot.tomb_of_clearPend hx]; rfl)

/-- **A job is given up**: its key is lost, unless it is a delete of a key that the source does not hold. -/
theorem Verdict.giveUp (h : Verdict hash gone s n (t :: ts) failed)
    (hvain : t.job.operation = .delete → (s.source.get? t.job.key).isSome = true)
    (hself : s'.slotOf hash t.job.key = (s.slotOf hash t.job.key).clearPend)
    (hslot : ∀ k, k ≠ t.job.key → s'.slotOf hash k = s.slotOf hash k) (hsource : s'.source = s.source) :
    Verdict hash gone s' n ts true := by
  obtain ⟨hn, hother, hin⟩ := h.head
  have hlost : s'.Lost hash gone t.job.key := by
    rcases h.asks t List.mem_cons_self with ⟨e, he, hd, -⟩ | ⟨htomb, hop⟩
    · exact .inl ⟨e, by rw [hself, Slot.clearPend_entry, he], hd⟩
    · exact .inr ⟨h.buried _ (by rw [htomb]; rfl), by rw [hsource]; exact hvain hop⟩
  refine h.update hn (List.sublist_cons_self t ts) hslot (fun k _ => by rw [hsource]) hin ?_ ?_ ?_
    (fun t' ht' heq => absurd heq (hother t' ht')) (fun _ => .inl rfl) (fun _ => rfl)
    fun _ => .inr ⟨hlost, hother⟩
  · rw [hself]
    exact (h.tied _).clearPend
  · rw [hself, Slot.clearPend_entry]
    exact h.erased _
  · intro hsome
    obtain ⟨x, hx⟩ := Option.isSome_iff_exists.mp hsome
    rw [hself] at hx
    exact h.buried _ (by rw [Slot.tomb_of_clearPend hx]; rfl)

/-! ### The points of the closing thread -/

/-- What holds at the points of the closing thread, from the synchronous flush on. -/
def VerdictAt (hash : Key α → ℕ) (gone : Key α → Prop) (s : Shared α V cfg) : Thread α V T → Prop
  | .syncCollect i failed => Verdict hash gone s i [] failed
  | .syncNext i ts failed => Verdict hash gone s (i + 1) ts failed
  | .syncTry i t _ ts failed => Verdict hash gone s (i + 1) (t :: ts) failed
  | .syncClean i t ts failed =>
      Verdict hash gone s (i + 1) (t :: ts) failed ∧ ∃ v, t.job.operation = .put v
  | .syncSettle i t true ts failed =>
      Verdict hash gone s (i + 1) ts failed ∧ (shardFor cfg hash t.job.key : ℕ) = i ∧
        (∀ t' ∈ ts, t'.job.key ≠ t.job.key) ∧ ¬ s.Lost hash gone t.job.key
  | .syncSettle i t false ts failed => Verdict hash gone s (i + 1) (t :: ts) failed
  | .closeStop failed => failed = true ↔ ∃ k, s.Lost hash gone k
  | .closeDrain failed => failed = true ↔ ∃ k, s.Lost hash gone k
  | .finished result => result = .raised .shutdownFlush ↔ ∃ k, s.Lost hash gone k
  | _ => True

/-- What holds at the points depends on slots and source only. -/
theorem VerdictAt.congr (h : VerdictAt hash gone s th) (hslot : ∀ k, s'.slotOf hash k = s.slotOf hash k)
    (hsource : ∀ k, s'.source.get? k = s.source.get? k) : VerdictAt hash gone s' th := by
  have hlost : ∀ k, s'.Lost hash gone k ↔ s.Lost hash gone k := fun k =>
    ⟨fun hl => hl.congr (hslot k).symm (hsource k).symm, fun hl => hl.congr (hslot k) (hsource k)⟩
  unfold VerdictAt at h ⊢
  split <;> simp only at h
  · exact h.congr hslot hsource
  · exact h.congr hslot hsource
  · exact h.congr hslot hsource
  · exact ⟨h.1.congr hslot hsource, h.2⟩
  · exact ⟨h.1.congr hslot hsource, h.2.1, h.2.2.1, fun hl => h.2.2.2 ((hlost _).mp hl)⟩
  · exact h.congr hslot hsource
  · simp only [hlost]
    exact h
  · simp only [hlost]
    exact h
  · simp only [hlost]
    exact h
  · trivial

/-- The thread gives up a delete of a key that the source does not hold. -/
def Thread.blamesVainly (s : Shared α V cfg) : Thread α V T → Bool
  | .syncSettle _ t false _ _ =>
      decide (t.job.operation.outcome.isNone) && (s.source.get? t.job.key).isNone
  | _ => false

/-- **The walk keeps its verdict**: a step of the closing thread that does not give up a delete of a key that
the source does not hold. -/
theorem VerdictAt.closeStep (h : VerdictAt hash gone s th) (he : th.ending = true)
    (hok : ∀ i, ShardOk cfg hash i (s.shards i)) (hvain : th.blamesVainly s = false)
    (hstep : closeStep s c th = some (s', th')) : VerdictAt hash gone s' th' := by
  cases th with
  | syncCollect i failed =>
      simp only [CacheLab.closeStep] at hstep
      split_ifs at hstep with hi hf <;> cases hstep
      · exact Verdict.collect h hi (hok ⟨i, hi⟩)
      · exact Verdict.failed_iff (Verdict.congr h (fun _ => rfl) fun _ => rfl) (Nat.le_of_not_lt hi)
      · exact Verdict.failed_iff h (Nat.le_of_not_lt hi)
  | syncNext i ts failed =>
      cases ts with
      | nil =>
          cases hstep
          exact h
      | cons t ts =>
          simp only [CacheLab.closeStep] at hstep
          split_ifs at hstep with hi hst <;> cases hstep
          · -- what the slot asks for is not stale
            have hnot := (Verdict.tied h t.job.key).not_stale (Verdict.asks h t List.mem_cons_self)
            have hshard : shardFor cfg hash t.job.key = ⟨i, hi⟩ :=
              Fin.ext (Nat.succ.inj (Verdict.home h t List.mem_cons_self))
            rw [CacheShard.isStale_eq] at hst
            rw [Shared.slotOf, Shared.home, hshard, hst] at hnot
            cases hnot
          · exact h
  | syncTry i t left ts failed =>
      simp only [CacheLab.closeStep] at hstep
      split_ifs at hstep with hc
      · cases hstep
        cases hop : t.job.operation with
        | put v => exact ⟨Verdict.applyPut h (fun _ => rfl) rfl, v, hop⟩
        | delete =>
            have happ : Verdict hash gone ({ s with source := applyWriteBack s.source t.job }.emit [.applied t])
                (i + 1) ts failed ∧ ¬ _ := Verdict.applyDelete h hop (fun _ => rfl) rfl
            obtain ⟨hrest, hnot⟩ := happ
            exact ⟨hrest, Nat.succ.inj (Verdict.home h t List.mem_cons_self), (Verdict.head h).2.1, hnot⟩
      · cases left <;> cases hstep
        · exact h
        · exact Verdict.congr h (fun _ => rfl) fun _ => rfl
  | syncClean i t ts failed =>
      obtain ⟨s₁, hs₁, heq⟩ := Option.map_eq_some_iff.mp hstep
      obtain ⟨hi, rfl⟩ := Shared.onShard_eq_some.mp hs₁
      cases heq
      obtain ⟨hwalk, v, hop⟩ := h
      have hshard : (shardFor cfg hash t.job.key : ℕ) = i :=
        Nat.succ.inj (hwalk.home t List.mem_cons_self)
      have hfin : shardFor cfg hash t.job.key = ⟨i, hi⟩ := Fin.ext hshard
      obtain ⟨hself, hother⟩ := slotOf_of_update s
        (s.setShard ⟨i, hi⟩ ((s.shards ⟨i, hi⟩).markCleanLocked t.job)) hfin
        (CacheShard.slot_markCleanLocked _ t.job) rfl
      have hself' : (s.setShard ⟨i, hi⟩ ((s.shards ⟨i, hi⟩).markCleanLocked t.job)).slotOf hash t.job.key =
          (s.slotOf hash t.job.key).clean t.job.operation t.job.version := by
        rw [hself, Shared.slotOf, Shared.home, hfin]
      obtain ⟨hrest, hnot⟩ := hwalk.clean hop hself' hother rfl
      exact ⟨hrest, hshard, hwalk.head.2.1, hnot⟩
  | syncSettle i t success ts failed =>
      obtain ⟨s₁, hs₁, heq⟩ := Option.map_eq_some_iff.mp hstep
      obtain ⟨hi, rfl⟩ := Shared.onShard_eq_some.mp hs₁
      cases heq
      have hslots : ∀ hfin : shardFor cfg hash t.job.key = ⟨i, hi⟩,
          (s.setShard ⟨i, hi⟩ ((s.shards ⟨i, hi⟩).clearPendingFlushesLocked t.job.key)).slotOf hash t.job.key =
              (s.slotOf hash t.job.key).clearPend ∧
            ∀ k, k ≠ t.job.key →
              (s.setShard ⟨i, hi⟩ ((s.shards ⟨i, hi⟩).clearPendingFlushesLocked t.job.key)).slotOf hash k =
                s.slotOf hash k := by
        intro hfin
        obtain ⟨hself, hother⟩ := slotOf_of_update s
          (s.setShard ⟨i, hi⟩ ((s.shards ⟨i, hi⟩).clearPendingFlushesLocked t.job.key)) hfin
          (CacheShard.slot_clearPendingFlushesLocked _ _) rfl
        refine ⟨?_, hother⟩
        rw [hself, Shared.slotOf, Shared.home, hfin]
      cases success with
      | true =>
          obtain ⟨hwalk, hshard, hother, hnot⟩ := h
          obtain ⟨hself, hrest⟩ := hslots (Fin.ext hshard)
          rw [Bool.not_true, Bool.or_false]
          exact hwalk.settle (by omega) hother hnot hself hrest rfl
      | false =>
          have hshard : (shardFor cfg hash t.job.key : ℕ) = i :=
            Nat.succ.inj (Verdict.home h t List.mem_cons_self)
          obtain ⟨hself, hrest⟩ := hslots (Fin.ext hshard)
          rw [Bool.not_false, Bool.or_true]
          refine Verdict.giveUp h (fun hop => ?_) hself hrest rfl
          rw [Thread.blamesVainly, hop] at hvain
          simpa [WriteOp.outcome, Option.isSome_iff_ne_none] using hvain
  | closeStop failed =>
      simp only [CacheLab.closeStep] at hstep
      split_ifs at hstep <;> cases hstep <;> exact h
  | closeDrain failed =>
      cases hstep
      show (if failed = true then _ else _) = _ ↔ _
      cases failed with
      | true => exact ⟨fun _ => h.mp rfl, fun _ => rfl⟩
      | false => exact ⟨fun heq => (by cases heq), fun hl => (by cases h.mpr hl)⟩
  | finished result => cases hstep
  | _ => cases he

end Steps

end CacheLab
