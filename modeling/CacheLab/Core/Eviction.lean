import CacheLab.Core.Slots

/-!
# Removal and eviction

A shard is *in agreement* when its policy tracks exactly the resident keys. Under agreement the
eviction loop is not a loop any more: it removes a list of keys that is fixed before it starts, the
longest run of proper keys at the front of the eviction order, as far as the shard is too large
(`victims`, `enforceCapacityLocked_eq`). A key `None` in the order ends the run, because the loop
reads it as "no candidate".
-/

set_option linter.unusedSectionVars false

namespace CacheLab

variable {α V T : Type} [DecidableEq α] [LinearOrder T] [Zero T] [Add T]

open WriteBehind

namespace CacheShard

variable (sh : CacheShard α V T) (key k : Key α)

/-- What a read of a key can see: the value and the deadline. -/
def timed : Option (V × Option T) := (sh.backend.getEntry k).map fun e => (e.value, e.expiresAt)

/-- A key is resident exactly when a read can see something. -/
theorem mem_keys_iff_timed {sh : CacheShard α V T} {k : Key α} :
    k ∈ sh.backend.keys ↔ (sh.timed k).isSome := by
  rw [InMemoryBackend.mem_keys_iff_isSome, timed, Option.isSome_map]

/-! ### One removal -/

/-- Pruning touches marks and tombstones only. -/
@[simp] theorem maybePruneMarksLocked_backend : (sh.maybePruneMarksLocked key).backend = sh.backend := by
  unfold maybePruneMarksLocked
  split_ifs <;> rfl

@[simp] theorem maybePruneMarksLocked_policy : (sh.maybePruneMarksLocked key).policy = sh.policy := by
  unfold maybePruneMarksLocked
  split_ifs <;> rfl

@[simp] theorem maybePruneMarksLocked_index : (sh.maybePruneMarksLocked key).index = sh.index := by
  unfold maybePruneMarksLocked
  split_ifs <;> rfl

@[simp] theorem maybePruneMarksLocked_capacity :
    (sh.maybePruneMarksLocked key).capacity = sh.capacity := by
  unfold maybePruneMarksLocked
  split_ifs <;> rfl

variable (reason : RemoveReason)

@[simp] theorem removeEntryLocked_backend :
    (sh.removeEntryLocked key reason).2.backend = sh.backend.deleteEntry key :=
  maybePruneMarksLocked_backend _ _

@[simp] theorem removeEntryLocked_policy :
    (sh.removeEntryLocked key reason).2.policy = sh.policy.onDelete key :=
  maybePruneMarksLocked_policy _ _

@[simp] theorem removeEntryLocked_index : (sh.removeEntryLocked key reason).2.index = sh.index :=
  maybePruneMarksLocked_index _ _

@[simp] theorem removeEntryLocked_capacity :
    (sh.removeEntryLocked key reason).2.capacity = sh.capacity :=
  maybePruneMarksLocked_capacity _ _

/-! ### Agreement -/

/-- The policy tracks exactly the resident keys. -/
structure Agrees (sh : CacheShard α V T) : Prop where
  wf : sh.policy.WF
  mem_iff : ∀ k, k ∈ sh.policy.order ↔ k ∈ sh.backend.keys

/-- Agreement depends on the policy and the set of resident keys. -/
theorem Agrees.congr {sh sh' : CacheShard α V T} (h : sh.Agrees) (hp : sh'.policy = sh.policy)
    (hk : ∀ k, k ∈ sh'.backend.keys ↔ k ∈ sh.backend.keys) : sh'.Agrees :=
  ⟨hp ▸ h.wf, fun k => by rw [hp, hk, h.mem_iff]⟩

/-- A removal keeps agreement. -/
theorem Agrees.removeEntryLocked {sh : CacheShard α V T} (h : sh.Agrees) (key : Key α)
    (reason : RemoveReason) : (sh.removeEntryLocked key reason).2.Agrees where
  wf := by
    rw [removeEntryLocked_policy]
    exact h.wf.onDelete key
  mem_iff k := by
    rw [removeEntryLocked_policy, removeEntryLocked_backend, h.wf.mem_order_onDelete, h.mem_iff]
    simp [InMemoryBackend.keys, InMemoryBackend.deleteEntry, and_comm]

/-- Under agreement the policy tracks as many keys as the shard holds. -/
theorem Agrees.length_order {sh : CacheShard α V T} (h : sh.Agrees) :
    sh.policy.order.length = sh.backend.size := by
  rw [InMemoryBackend.size_eq_length_keys]
  exact ((List.perm_ext_iff_of_nodup h.wf.nodup_order sh.backend.entries.keys_nodup).mpr
    h.mem_iff).length_eq

/-! ### A sequence of removals -/

/-- A sequence of removals as a fold on the shard. -/
theorem removeEntriesLocked_snd (keys : List (Key α)) :
    (sh.removeEntriesLocked keys reason).2 =
      keys.foldl (fun s k => (s.removeEntryLocked k reason).2) sh := by
  unfold removeEntriesLocked
  generalize 0 = n
  induction keys generalizing sh n with
  | nil => rfl
  | cons k keys ih => exact ih _ _

@[simp] theorem removeEntriesLocked_nil : (sh.removeEntriesLocked [] reason).2 = sh := rfl

/-- A sequence of removals, first key first. -/
theorem removeEntriesLocked_cons (keys : List (Key α)) :
    (sh.removeEntriesLocked (key :: keys) reason).2 =
      ((sh.removeEntryLocked key reason).2.removeEntriesLocked keys reason).2 := by
  rw [removeEntriesLocked_snd, removeEntriesLocked_snd, List.foldl_cons]

/-- Lookup after a sequence of removals. -/
theorem getEntry_removeEntriesLocked (keys : List (Key α)) :
    (sh.removeEntriesLocked keys reason).2.backend.getEntry k =
      if k ∈ keys then none else sh.backend.getEntry k := by
  induction keys generalizing sh with
  | nil => simp
  | cons k' keys ih =>
      rw [removeEntriesLocked_cons, ih, removeEntryLocked_backend,
        InMemoryBackend.getEntry_deleteEntry]
      by_cases h1 : k ∈ keys <;> by_cases h2 : k = k' <;> simp [h1, h2]

/-- The resident keys after a sequence of removals. -/
theorem mem_keys_removeEntriesLocked (keys : List (Key α)) :
    k ∈ (sh.removeEntriesLocked keys reason).2.backend.keys ↔ k ∉ keys ∧ k ∈ sh.backend.keys := by
  rw [InMemoryBackend.mem_keys_iff_isSome, getEntry_removeEntriesLocked,
    InMemoryBackend.mem_keys_iff_isSome]
  split_ifs with h <;> simp [h]

/-- Agreement after a sequence of removals. -/
theorem Agrees.removeEntriesLocked {sh : CacheShard α V T} (h : sh.Agrees) (keys : List (Key α))
    (reason : RemoveReason) : (sh.removeEntriesLocked keys reason).2.Agrees := by
  induction keys generalizing sh with
  | nil => exact h
  | cons k keys ih =>
      rw [removeEntriesLocked_cons]
      exact ih (h.removeEntryLocked k reason)

@[simp] theorem removeEntriesLocked_index (keys : List (Key α)) :
    (sh.removeEntriesLocked keys reason).2.index = sh.index := by
  induction keys generalizing sh with
  | nil => rfl
  | cons k keys ih => rw [removeEntriesLocked_cons, ih, removeEntryLocked_index]

@[simp] theorem removeEntriesLocked_capacity (keys : List (Key α)) :
    (sh.removeEntriesLocked keys reason).2.capacity = sh.capacity := by
  induction keys generalizing sh with
  | nil => rfl
  | cons k keys ih => rw [removeEntriesLocked_cons, ih, removeEntryLocked_capacity]

/-- The slots after a sequence of removals. -/
theorem slot_removeEntriesLocked (keys : List (Key α)) :
    (sh.removeEntriesLocked keys reason).2.slot k =
      if k ∈ keys then (sh.slot k).remove else sh.slot k := by
  induction keys generalizing sh with
  | nil => simp
  | cons k' keys ih =>
      rw [removeEntriesLocked_cons, ih, slot_removeEntryLocked]
      by_cases h2 : k = k'
      · subst h2
        simp [Slot.remove_remove]
      · simp [h2]

/-- The eviction order after a sequence of removals. -/
theorem Agrees.order_removeEntriesLocked {sh : CacheShard α V T} (h : sh.Agrees) (keys : List (Key α))
    (reason : RemoveReason) :
    (sh.removeEntriesLocked keys reason).2.policy.order = sh.policy.order.filter fun k => k ∉ keys := by
  induction keys generalizing sh with
  | nil => simp
  | cons key keys ih =>
      rw [removeEntriesLocked_cons, ih (h.removeEntryLocked key reason), removeEntryLocked_policy,
        h.wf.order_onDelete, List.filter_filter]
      apply List.filter_congr
      intro k _
      simp [Bool.and_comm]

/-- The entries after a sequence of removals, in their order. -/
theorem entryList_removeEntriesLocked (keys : List (Key α)) :
    (sh.removeEntriesLocked keys reason).2.backend.entryList =
      sh.backend.entryList.filter fun e => e.key ∉ keys := by
  induction keys generalizing sh with
  | nil => simp
  | cons key keys ih =>
      rw [removeEntriesLocked_cons, ih, removeEntryLocked_backend, InMemoryBackend.entryList_deleteEntry,
        List.filter_filter]
      apply List.filter_congr
      intro e _
      simp [Bool.and_comm]

/-- The policy is of the same kind after a sequence of removals. -/
theorem removeEntriesLocked_lru (keys : List (Key α)) (h : ∃ p, sh.policy = .lru p) :
    ∃ p, (sh.removeEntriesLocked keys reason).2.policy = .lru p := by
  induction keys generalizing sh with
  | nil => exact h
  | cons key keys ih =>
      rw [removeEntriesLocked_cons]
      obtain ⟨p, hp⟩ := h
      apply ih
      rw [removeEntryLocked_policy, hp]
      exact ⟨p.onDelete key, rfl⟩

/-- The size after removing distinct resident keys. -/
theorem size_removeEntriesLocked {keys : List (Key α)} (hnd : keys.Nodup)
    (hsub : ∀ k ∈ keys, k ∈ sh.backend.keys) :
    (sh.removeEntriesLocked keys reason).2.backend.size + keys.length = sh.backend.size := by
  induction keys generalizing sh with
  | nil => rfl
  | cons k keys ih =>
      obtain ⟨hk, hnd⟩ := List.nodup_cons.mp hnd
      have hmem := hsub k List.mem_cons_self
      have hsize : (sh.removeEntryLocked k reason).2.backend.size + 1 = sh.backend.size := by
        rw [removeEntryLocked_backend]
        exact OrderedDict.size_erase_of_mem hmem
      have hrest := ih (sh.removeEntryLocked k reason).2 hnd (by
        intro k' hk'
        have hne : k' ≠ k := fun h => hk (h ▸ hk')
        rw [removeEntryLocked_backend]
        exact OrderedDict.mem_keys_erase.mpr (by
          have := hsub k' (List.mem_cons_of_mem k hk')
          exact (by simpa [InMemoryBackend.keys, hne] using this)))
      rw [removeEntriesLocked_cons, List.length_cons]
      omega

/-! ### The eviction loop -/

/-- The keys that capacity enforcement removes. -/
def victims (sh : CacheShard α V T) : List (Key α) :=
  (sh.policy.order.takeWhile Option.isSome).take (sh.backend.size - sh.capacity)

/-- The victims are distinct. -/
theorem Agrees.nodup_victims {sh : CacheShard α V T} (h : sh.Agrees) : sh.victims.Nodup :=
  h.wf.nodup_order.sublist ((List.take_sublist _ _).trans (List.takeWhile_sublist _))

/-- The victims are resident. -/
theorem Agrees.mem_of_victims {sh : CacheShard α V T} (h : sh.Agrees) {k : Key α}
    (hk : k ∈ sh.victims) : k ∈ sh.backend.keys :=
  (h.mem_iff k).mp ((List.takeWhile_sublist _).subset ((List.take_sublist _ _).subset hk))

/-- The victims after the first one went: the rest of the victims. -/
theorem Agrees.victims_cons {sh : CacheShard α V T} (h : sh.Agrees) {a : α}
    (hover : sh.capacity < sh.backend.size) (hc : sh.policy.evictCandidate = some a) :
    sh.victims = some a :: (sh.removeEntryLocked (some a) .evict).2.victims := by
  rw [h.wf.evictCandidate_eq] at hc
  obtain ⟨rest, horder⟩ : ∃ rest, sh.policy.order = some a :: rest := by
    cases ho : sh.policy.order with
    | nil => simp [ho] at hc
    | cons x rest =>
        rw [ho] at hc
        exact ⟨rest, by rw [show x = some a by simpa using hc]⟩
  have hnd := h.wf.nodup_order
  rw [horder, List.nodup_cons] at hnd
  have hrest : (sh.removeEntryLocked (some a) .evict).2.policy.order = rest := by
    rw [removeEntryLocked_policy, h.wf.order_onDelete, horder]
    simp only [ne_eq, not_true_eq_false, decide_false, Bool.false_eq_true, not_false_eq_true,
      List.filter_cons_of_neg]
    exact List.filter_eq_self.mpr fun k hk => by
      have : k ≠ some a := fun e => hnd.1 (e ▸ hk)
      simpa using this
  have hmem : some a ∈ sh.backend.keys := (h.mem_iff _).mp (by simp [horder])
  have hsize : (sh.removeEntryLocked (some a) .evict).2.backend.size + 1 = sh.backend.size := by
    rw [removeEntryLocked_backend]
    exact OrderedDict.size_erase_of_mem hmem
  obtain ⟨n, hn⟩ : ∃ n, sh.backend.size - sh.capacity = n + 1 := ⟨_, (Nat.succ_pred (by omega)).symm⟩
  have hn' : (sh.removeEntryLocked (some a) .evict).2.backend.size -
      (sh.removeEntryLocked (some a) .evict).2.capacity = n := by
    rw [removeEntryLocked_capacity]
    omega
  rw [victims, victims, hn, hn', hrest, horder]
  simp

/-- The loop stops with no victims left. -/
theorem Agrees.victims_nil {sh : CacheShard α V T} (h : sh.Agrees)
    (hstop : sh.backend.size ≤ sh.capacity ∨ sh.policy.evictCandidate = none) : sh.victims = [] := by
  unfold victims
  rcases hstop with hsize | hnone
  · rw [Nat.sub_eq_zero_of_le hsize, List.take_zero]
  · rw [h.wf.evictCandidate_eq] at hnone
    cases ho : sh.policy.order with
    | nil => simp
    | cons x rest =>
        rw [ho] at hnone
        have hx : x = none := by simpa using hnone
        simp [hx]

/-- The loop with enough rounds removes the victims. -/
theorem Agrees.enforceLoop_eq {sh : CacheShard α V T} (h : sh.Agrees) {n : ℕ}
    (hn : sh.policy.order.length ≤ n) : enforceLoop n sh = (sh.removeEntriesLocked sh.victims .evict).2 := by
  induction n generalizing sh with
  | zero =>
      have hnil : sh.policy.order = [] := List.eq_nil_of_length_eq_zero (by omega)
      simp [enforceLoop, victims, hnil]
  | succ n ih =>
      rw [enforceLoop]
      split_ifs with hover
      · cases hc : sh.policy.evictCandidate with
        | none => rw [h.victims_nil (.inr hc), removeEntriesLocked_nil]
        | some a =>
            have h' := h.removeEntryLocked (some a) .evict
            have hmem : some a ∈ sh.backend.keys := h.mem_of_victims (by
              rw [h.victims_cons hover hc]
              exact List.mem_cons_self)
            have hlen : (sh.removeEntryLocked (some a) .evict).2.policy.order.length ≤ n := by
              rw [h'.length_order, removeEntryLocked_backend]
              have := OrderedDict.size_erase_of_mem hmem
              have hsize := h.length_order
              simp only [InMemoryBackend.size, InMemoryBackend.deleteEntry] at *
              omega
            rw [h.victims_cons hover hc, removeEntriesLocked_cons]
            exact ih h' hlen
      · rw [h.victims_nil (.inl (by omega)), removeEntriesLocked_nil]

/-- **Capacity enforcement removes the victims.** -/
theorem Agrees.enforceCapacityLocked_eq {sh : CacheShard α V T} (h : sh.Agrees) :
    sh.enforceCapacityLocked = (sh.removeEntriesLocked sh.victims .evict).2 :=
  h.enforceLoop_eq h.wf.len_eq.ge

end CacheShard

end CacheLab
