import CacheLab.Core.Eviction
import CacheLab.Lib.Transition

/-!
# The eviction loop from any state

The condition of the eviction loop looks at the store, its victim comes from the policy. This file is about the
loop where the two need not agree: the store holds any entries, the policy is in any state that calls of its
methods lead to (`EvictionPolicy.Reachable`).

* **The rounds.** `evictRound` is one round of the loop, with the victim as its label; a run of rounds is what the
  loop did so far.
* **The measure.** A victim is a tracked key, so each round takes one key out of the policy
  (`EvictionPolicy.WF.len_onDelete`). For LFU this rests on the invariant of its buckets.
* **The end.** `enforceCapacity_terminates`: the rounds come to an end after at most `len(policy)` of them, the
  bounded loop of the model (`enforceLoop`) does exactly these rounds, and no round begins at a shard that fits.

A victim that is not stored is removed from the policy only, so the loop can end with a shard that is too large
and a policy that is empty.
-/

set_option linter.unusedSectionVars false

namespace CacheLab

variable {α V T : Type} [DecidableEq α] [LinearOrder T] [Zero T] [Add T]

open Transition

/-! ### States of a policy -/

namespace EvictionPolicy

/-- The states that calls of a policy's methods lead to. -/
inductive Reachable : EvictionPolicy α → Prop
  | new (name : PolicyName) : Reachable (makePolicy name)
  | onGet {p : EvictionPolicy α} (h : Reachable p) (key : Key α) : Reachable (p.onGet key)
  | onPut {p : EvictionPolicy α} (h : Reachable p) (key : Key α) : Reachable (p.onPut key)
  | onDelete {p : EvictionPolicy α} (h : Reachable p) (key : Key α) : Reachable (p.onDelete key)
  | clear {p : EvictionPolicy α} (h : Reachable p) : Reachable p.clear

/-- Calls lead to well-formed policies only. -/
theorem Reachable.wf {p : EvictionPolicy α} (h : p.Reachable) : p.WF := by
  induction h with
  | new name => exact wf_makePolicy name
  | onGet h key ih => exact ih.onGet key
  | onPut h key ih => exact ih.onPut key
  | onDelete h key ih => exact ih.onDelete key
  | clear h ih => exact wf_clear _

/-- The victim is tracked. -/
theorem WF.mem_of_evictCandidate {p : EvictionPolicy α} (h : p.WF) {a : α} (ha : p.evictCandidate = some a) :
    some a ∈ p.order := by
  rw [h.evictCandidate_eq] at ha
  cases ho : p.order with
  | nil =>
      rw [ho] at ha
      cases ha
  | cons key rest =>
      rw [ho] at ha
      have hkey : key = some a := ha
      exact hkey ▸ List.mem_cons_self

/-- **The measure of the loop**: the deletion of a tracked key takes one key out of the policy. -/
theorem WF.len_onDelete {p : EvictionPolicy α} (h : p.WF) {key : Key α} (hkey : key ∈ p.order) :
    (p.onDelete key).len + 1 = p.len := by
  have herase : (p.order.filter fun k => k ≠ key) = p.order.erase key := by
    rw [h.nodup_order.erase_eq_filter]
    refine List.filter_congr fun k _ => ?_
    by_cases hk : k = key <;> simp [hk]
  rw [(h.onDelete key).len_eq, h.len_eq, h.order_onDelete, herase, List.length_erase_of_mem hkey]
  exact Nat.sub_add_cancel (List.length_pos_of_mem hkey)

end EvictionPolicy

/-! ### Rounds -/

namespace CacheShard

variable {sh sh' : CacheShard α V T} {a b : α}

/-- One round of the loop, with the victim `a`.
Source: `core/cache.py` `Cache._enforce_capacity_locked` (the body of the loop) -/
def evictRound (sh : CacheShard α V T) (a : α) : Option (CacheShard α V T) :=
  if sh.capacity < sh.backend.size ∧ sh.policy.evictCandidate = some a then
    some (sh.removeEntryLocked (some a) .evict).2
  else none

/-- What a round does, and when. -/
theorem evictRound_eq_some : sh.evictRound a = some sh' ↔
    (sh.capacity < sh.backend.size ∧ sh.policy.evictCandidate = some a) ∧
      (sh.removeEntryLocked (some a) .evict).2 = sh' := by
  unfold evictRound
  split_ifs with hguard
  · simp [hguard]
  · simp [hguard]

/-- A shard has one victim at a time. -/
theorem evictRound_unique {sh'' : CacheShard α V T} (h : sh.evictRound a = some sh')
    (h' : sh.evictRound b = some sh'') : a = b := by
  obtain ⟨⟨-, ha⟩, -⟩ := evictRound_eq_some.mp h
  obtain ⟨⟨-, hb⟩, -⟩ := evictRound_eq_some.mp h'
  exact Option.some.inj (ha.symm.trans hb)

/-- The loop is over: the shard fits, or the policy offers no victim. -/
theorem evictRound_eq_none :
    (∀ a, sh.evictRound a = none) ↔ sh.backend.size ≤ sh.capacity ∨ sh.policy.evictCandidate = none := by
  unfold evictRound
  constructor
  · intro h
    by_cases hsize : sh.backend.size ≤ sh.capacity
    · exact .inl hsize
    · refine .inr (Option.eq_none_iff_forall_ne_some.mpr fun a ha => ?_)
      have hround := h a
      rw [if_pos ⟨not_le.mp hsize, ha⟩] at hround
      cases hround
  · rintro (hsize | hnone) a
    · exact if_neg fun hguard => (not_lt.mpr hsize) hguard.1
    · exact if_neg fun hguard => by
        have := hguard.2
        rw [hnone] at this
        cases this

/-- A round takes one key out of the policy and at most one entry out of the store. -/
theorem evictRound_spec (hwf : sh.policy.WF) (h : sh.evictRound a = some sh') :
    sh'.policy.WF ∧ sh'.policy.len + 1 = sh.policy.len ∧ sh'.capacity = sh.capacity ∧
      sh.backend.size ≤ sh'.backend.size + 1 := by
  obtain ⟨⟨-, ha⟩, rfl⟩ := evictRound_eq_some.mp h
  rw [removeEntryLocked_policy, removeEntryLocked_capacity, removeEntryLocked_backend]
  refine ⟨hwf.onDelete _, hwf.len_onDelete (hwf.mem_of_evictCandidate ha), rfl, ?_⟩
  by_cases hmem : some a ∈ sh.backend.keys
  · exact (OrderedDict.size_erase_of_mem hmem).ge
  · have hsame : (sh.backend.deleteEntry (some a)).size = sh.backend.size := by
      unfold InMemoryBackend.size InMemoryBackend.deleteEntry
      rw [OrderedDict.size_eq_length_keys, OrderedDict.size_eq_length_keys, OrderedDict.keys_erase]
      congr 1
      exact List.filter_eq_self.mpr fun k hk => decide_eq_true fun heq => hmem (heq ▸ hk)
    omega

/-- The bounded loop does the rounds there are: it ends at a shard without a next round, after as many rounds as
the policy can offer victims. -/
theorem enforceLoop_rounds (n : ℕ) (hwf : sh.policy.WF) (hn : sh.policy.len ≤ n) :
    ∃ removed : List α, run evictRound sh removed = some (enforceLoop n sh) ∧
      removed.length ≤ sh.policy.len ∧ ∀ a, (enforceLoop n sh).evictRound a = none := by
  induction n generalizing sh with
  | zero =>
      refine ⟨[], rfl, Nat.zero_le _, evictRound_eq_none.mpr (.inr ?_)⟩
      -- a policy without keys has no victim
      refine Option.eq_none_iff_forall_ne_some.mpr fun a ha => ?_
      have hpos := List.length_pos_of_mem (hwf.mem_of_evictCandidate ha)
      rw [← hwf.len_eq] at hpos
      omega
  | succ n ih =>
      rw [enforceLoop]
      split_ifs with hover
      · cases hc : sh.policy.evictCandidate with
        | none => exact ⟨[], rfl, Nat.zero_le _, evictRound_eq_none.mpr (.inr hc)⟩
        | some a =>
            have hround : sh.evictRound a = some (sh.removeEntryLocked (some a) .evict).2 :=
              evictRound_eq_some.mpr ⟨⟨hover, hc⟩, rfl⟩
            obtain ⟨hwf', hlen, -, -⟩ := evictRound_spec hwf hround
            obtain ⟨removed, hrun, hle, hend⟩ := ih hwf' (by omega)
            refine ⟨a :: removed, run_cons_eq_some.mpr ⟨_, hround, hrun⟩, ?_, hend⟩
            rw [List.length_cons]
            omega
      · exact ⟨[], rfl, Nat.zero_le _, evictRound_eq_none.mpr (.inl (not_lt.mp hover))⟩

/-- No run of rounds takes the store below its capacity. -/
theorem size_of_rounds {removed : List α} (hrun : run evictRound sh removed = some sh') (hwf : sh.policy.WF) :
    min sh.capacity sh.backend.size ≤ sh'.backend.size ∧ sh'.capacity = sh.capacity := by
  have hstep : ∀ (t : CacheShard α V T) (a : α) (t' : CacheShard α V T), t.evictRound a = some t' →
      (min sh.capacity sh.backend.size ≤ t.backend.size ∧ t.policy.WF ∧ t.capacity = sh.capacity) →
      min sh.capacity sh.backend.size ≤ t'.backend.size ∧ t'.policy.WF ∧ t'.capacity = sh.capacity := by
    rintro t a t' ht ⟨-, htwf, hcap⟩
    obtain ⟨hwf', -, hcap', hsize⟩ := evictRound_spec htwf ht
    have hover := (evictRound_eq_some.mp ht).1.1
    have hle : min sh.capacity sh.backend.size ≤ sh.capacity := min_le_left _ _
    exact ⟨by omega, hwf', hcap'.trans hcap⟩
  obtain ⟨hsize, -, hcap⟩ := run_invariant_of_step hstep hrun ⟨min_le_right _ _, hwf, rfl⟩
  exact ⟨hsize, hcap⟩

end CacheShard

open CacheShard

/-- **The eviction loop terminates from any state.** The loop does the rounds `removed` and is over: it removed at
most `len(policy)` keys, each at a shard that was too large, and ends at a shard that fits or at a policy that
offers no victim. Every other run of rounds is a part of this one. -/
theorem enforceCapacity_terminates (sh : CacheShard α V T) (h : sh.policy.Reachable) :
    ∃ removed : List α,
      run evictRound sh removed = some sh.enforceCapacityLocked ∧
      removed.length ≤ sh.policy.len ∧
      (sh.enforceCapacityLocked.backend.size ≤ sh.enforceCapacityLocked.capacity ∨
        sh.enforceCapacityLocked.policy.evictCandidate = none) ∧
      (∀ before a rest, removed = before ++ a :: rest → ∃ sh',
        run evictRound sh before = some sh' ∧ sh'.capacity < sh'.backend.size) ∧
      min sh.capacity sh.backend.size ≤ sh.enforceCapacityLocked.backend.size ∧
      ∀ other sh', run evictRound sh other = some sh' → other <+: removed := by
  have hwf := h.wf
  obtain ⟨removed, hrun, hle, hend⟩ := enforceLoop_rounds sh.policy.len hwf le_rfl
  refine ⟨removed, hrun, hle, evictRound_eq_none.mp hend, ?_, (size_of_rounds hrun hwf).1, ?_⟩
  · rintro before a rest rfl
    obtain ⟨sh', hbefore, hrest⟩ := run_append_eq_some.mp hrun
    obtain ⟨sh'', hround, -⟩ := run_cons_eq_some.mp hrest
    exact ⟨sh', hbefore, (evictRound_eq_some.mp hround).1.1⟩
  · intro other sh' hother
    have hone : ∀ (t : CacheShard α V T) (a b : α) t' t'',
        evictRound t a = some t' → evictRound t b = some t'' → a = b :=
      fun t a b t' t'' ha hb => evictRound_unique ha hb
    exact prefix_of_stuck hone hrun hend hother

/-- A shard for one entry that stores the keys 5 and 6, with an LRU policy that was told of the keys 1 and 2. -/
def strayShard : CacheShard ℕ ℕ ℕ where
  index := 0
  capacity := 1
  backend := (InMemoryBackend.new.putEntry ⟨some 5, 0, 0, 0, 0, none, none, 1, false⟩).putEntry
    ⟨some 6, 0, 0, 0, 0, none, none, 1, false⟩
  policy := ((makePolicy .lru).onPut (some 1)).onPut (some 2)

/-- The loop gives the two stray victims up and ends at a shard that is too large, with no victim left. -/
theorem enforceCapacity_terminates_stray : ∃ removed : List ℕ,
    run evictRound strayShard removed = some strayShard.enforceCapacityLocked ∧ removed.length ≤ 2 ∧
      strayShard.enforceCapacityLocked.policy.evictCandidate = none := by
  obtain ⟨removed, hrun, hlen, hend, -⟩ := enforceCapacity_terminates strayShard
    (((EvictionPolicy.Reachable.new .lru).onPut (some 1)).onPut (some 2))
  exact ⟨removed, hrun, hlen, hend.resolve_left (by decide)⟩

end CacheLab
