import Mathlib.Data.List.MinMax
import CacheLab.Core.Config
import CacheLab.Lib.OrderedDict

/-!
# The LFU policy

`LFUPolicy` keeps two mirrored maps (key to frequency, frequency to an ordered bucket of keys) and
the least frequency present. The three fields are maintained by separate rules, so what ties them
together is an invariant (`LFUPolicy.WF`) that every method preserves.

The *eviction order* lists the tracked keys bucket by bucket, least frequency first and oldest first
inside a bucket. It is what the policy is for: `evictCandidate` is its head
(`evictCandidate_eq_head?`), and deleting a key filters it out (`evictionOrder_onDelete`).
-/

set_option linter.unusedSectionVars false

namespace CacheLab

/-- O(1) LFU with recency tie-breaking inside frequency buckets.
Source: `policies/lfu.py` `LFUPolicy` -/
structure LFUPolicy (α : Type) where
  keyToFreq : OrderedDict (Key α) ℕ
  freqToKeys : OrderedDict ℕ (OrderedDict (Key α) Unit)
  minFreq : ℕ

namespace LFUPolicy

variable {α : Type} [DecidableEq α]

/-- The policy that tracks no key.
Source: `policies/lfu.py` `LFUPolicy.__init__` -/
def new : LFUPolicy α := ⟨.empty, .empty, 0⟩

/-- The bucket of a frequency; a `defaultdict` access, so a missing bucket reads as empty. -/
def bucket (p : LFUPolicy α) (f : ℕ) : OrderedDict (Key α) Unit :=
  (p.freqToKeys.get? f).getD .empty

/-- The buckets after `key` left the bucket of `freq`: an emptied bucket is deleted. -/
def dropFromBucket (p : LFUPolicy α) (freq : ℕ) (key : Key α) :
    OrderedDict ℕ (OrderedDict (Key α) Unit) :=
  if ((p.bucket freq).erase key).size = 0 then p.freqToKeys.erase freq
  else p.freqToKeys.set freq ((p.bucket freq).erase key)

/-- Move a tracked key to the next frequency.
Source: `policies/lfu.py` `LFUPolicy._bump` -/
def bump (p : LFUPolicy α) (key : Key α) : LFUPolicy α :=
  match p.keyToFreq.get? key with
  | none => p
  | some oldFreq =>
      let emptied := ((p.bucket oldFreq).erase key).size = 0
      let buckets := p.dropFromBucket oldFreq key
      let newFreq := oldFreq + 1
      { keyToFreq := p.keyToFreq.set key newFreq
        freqToKeys := buckets.set newFreq (((buckets.get? newFreq).getD .empty).set key ())
        minFreq := if emptied ∧ p.minFreq = oldFreq then oldFreq + 1 else p.minFreq }

/-- Source: `policies/lfu.py` `LFUPolicy.on_get` -/
def onGet (p : LFUPolicy α) (key : Key α) : LFUPolicy α :=
  if key ∈ p.keyToFreq.keys then p.bump key else p

/-- Source: `policies/lfu.py` `LFUPolicy.on_put` -/
def onPut (p : LFUPolicy α) (key : Key α) : LFUPolicy α :=
  if key ∈ p.keyToFreq.keys then p.bump key
  else
    { keyToFreq := p.keyToFreq.set key 1
      freqToKeys := p.freqToKeys.set 1 ((p.bucket 1).set key ())
      minFreq := 1 }

/-- Source: `policies/lfu.py` `LFUPolicy.on_delete` -/
def onDelete (p : LFUPolicy α) (key : Key α) : LFUPolicy α :=
  match p.keyToFreq.get? key with
  | none => p
  | some freq =>
      let emptied := ((p.bucket freq).erase key).size = 0
      let buckets := p.dropFromBucket freq key
      { keyToFreq := p.keyToFreq.erase key
        freqToKeys := buckets
        minFreq := if emptied ∧ p.minFreq = freq then buckets.keys.min?.getD 0 else p.minFreq }

/-- The next victim, `none` when there is none.
Source: `policies/lfu.py` `LFUPolicy.evict_candidate` -/
def evictCandidate (p : LFUPolicy α) : Key α :=
  if p.minFreq = 0 then none
  else
    match p.freqToKeys.get? p.minFreq with
    | none => none
    | some bucket => bucket.keys.head?.join

/-- Source: `policies/lfu.py` `LFUPolicy.clear` -/
def clear (_ : LFUPolicy α) : LFUPolicy α := new

/-- Source: `policies/lfu.py` `LFUPolicy.metadata_size` -/
def metadataSize (p : LFUPolicy α) : ℕ :=
  p.keyToFreq.size + (p.freqToKeys.values.map OrderedDict.size).sum

/-- Source: `policies/lfu.py` `LFUPolicy.__len__` -/
def len (p : LFUPolicy α) : ℕ := p.keyToFreq.size

/-! ### The invariant -/

/-- **The LFU invariant**: the two maps mirror each other, no bucket is empty, frequencies are
positive and `minFreq` is the least frequency present (`0` when there is none). -/
structure WF (p : LFUPolicy α) : Prop where
  freq_iff : ∀ k f, p.keyToFreq.get? k = some f ↔ k ∈ (p.bucket f).keys
  bucket_ne_nil : ∀ f b, p.freqToKeys.get? f = some b → b.keys ≠ []
  freq_pos : ∀ k f, p.keyToFreq.get? k = some f → 0 < f
  min_zero : p.keyToFreq.keys = [] → p.minFreq = 0
  min_attained : p.keyToFreq.keys ≠ [] → ∃ k, p.keyToFreq.get? k = some p.minFreq
  min_le : ∀ k f, p.keyToFreq.get? k = some f → p.minFreq ≤ f

/-- The empty policy satisfies the invariant. -/
theorem wf_new : (new : LFUPolicy α).WF where
  freq_iff := by simp [new, bucket]
  bucket_ne_nil := by simp [new]
  freq_pos := by simp [new]
  min_zero := fun _ => rfl
  min_attained := fun h => absurd rfl h
  min_le := by simp [new]

/-- The keys of each bucket after `key` left the bucket of `freq`. -/
theorem keys_dropFromBucket (p : LFUPolicy α) (freq : ℕ) (key : Key α) (f : ℕ) :
    (((p.dropFromBucket freq key).get? f).getD .empty).keys =
      if f = freq then (p.bucket freq).keys.filter (fun k => k ≠ key) else (p.bucket f).keys := by
  unfold dropFromBucket
  by_cases hf : f = freq
  · subst hf
    rw [if_pos rfl]
    split_ifs with hsize
    · rw [OrderedDict.size_eq_zero_iff, OrderedDict.keys_erase] at hsize
      rw [hsize, OrderedDict.get?_erase_self]
      rfl
    · simp [OrderedDict.keys_erase]
  · rw [if_neg hf]
    split_ifs <;> simp [hf, bucket]

/-- No bucket is empty after a key left one. -/
theorem bucket_ne_nil_dropFromBucket {p : LFUPolicy α} (h : p.WF) (freq : ℕ) (key : Key α) (f : ℕ)
    (b : OrderedDict (Key α) Unit) (hb : (p.dropFromBucket freq key).get? f = some b) :
    b.keys ≠ [] := by
  unfold dropFromBucket at hb
  split_ifs at hb with hsize
  · rw [OrderedDict.get?_erase] at hb
    split_ifs at hb with hf
    exact h.bucket_ne_nil f b hb
  · rw [OrderedDict.get?_set] at hb
    split_ifs at hb with hf
    · rw [OrderedDict.size_eq_zero_iff] at hsize
      rw [← Option.some.inj hb]
      exact hsize
    · exact h.bucket_ne_nil f b hb

/-- A frequency has a bucket exactly when some key has that frequency. -/
theorem WF.mem_freqs_iff {p : LFUPolicy α} (h : p.WF) (f : ℕ) :
    f ∈ p.freqToKeys.keys ↔ ∃ k, p.keyToFreq.get? k = some f := by
  rw [OrderedDict.mem_keys_iff]
  constructor
  · rintro ⟨b, hb⟩
    obtain ⟨k, hk⟩ := List.exists_mem_of_ne_nil _ (h.bucket_ne_nil f b hb)
    exact ⟨k, (h.freq_iff k f).mpr (by simpa [bucket, hb] using hk)⟩
  · rintro ⟨k, hk⟩
    have hmem := (h.freq_iff k f).mp hk
    cases hb : p.freqToKeys.get? f with
    | none => simp [bucket, hb] at hmem
    | some b => exact ⟨b, rfl⟩

/-- Two frequencies of one key are the same. -/
theorem WF.freq_unique {p : LFUPolicy α} (h : p.WF) {k : Key α} {f g : ℕ}
    (hf : k ∈ (p.bucket f).keys) (hg : k ∈ (p.bucket g).keys) : f = g := by
  have h₁ := (h.freq_iff k f).mpr hf
  have h₂ := (h.freq_iff k g).mpr hg
  exact Option.some.inj (h₁.symm.trans h₂)

/-- The keys of the buckets after a bump. -/
theorem keys_bucket_bump {p : LFUPolicy α} (h : p.WF) {key : Key α} {oldFreq : ℕ}
    (hk : p.keyToFreq.get? key = some oldFreq) (f : ℕ) :
    ((p.bump key).bucket f).keys =
      if f = oldFreq then (p.bucket oldFreq).keys.filter (fun k => k ≠ key)
      else if f = oldFreq + 1 then (p.bucket (oldFreq + 1)).keys ++ [key]
      else (p.bucket f).keys := by
  have hnot : key ∉ (p.bucket (oldFreq + 1)).keys := fun hmem => by
    have := h.freq_unique hmem ((h.freq_iff key oldFreq).mp hk)
    omega
  have hdrop := keys_dropFromBucket p oldFreq key
  simp only [bump, hk, bucket] at hdrop ⊢
  rw [OrderedDict.get?_set]
  by_cases hf : f = oldFreq + 1
  · subst hf
    have hne : oldFreq + 1 ≠ oldFreq := by omega
    rw [if_pos rfl, if_neg hne, if_pos rfl, Option.getD_some]
    have hbucket := hdrop (oldFreq + 1)
    rw [if_neg hne] at hbucket
    rw [OrderedDict.keys_set_of_notMem (by rw [hbucket]; exact hnot), hbucket]
  · rw [if_neg hf, if_neg hf]
    exact hdrop f

/-- The frequencies after a bump. -/
theorem get?_keyToFreq_bump {p : LFUPolicy α} {key : Key α} {oldFreq : ℕ}
    (hk : p.keyToFreq.get? key = some oldFreq) (k : Key α) :
    (p.bump key).keyToFreq.get? k =
      if k = key then some (oldFreq + 1) else p.keyToFreq.get? k := by
  simp only [bump, hk, OrderedDict.get?_set]

/-- The minimum after a bump. -/
theorem minFreq_bump {p : LFUPolicy α} {key : Key α} {oldFreq : ℕ}
    (hk : p.keyToFreq.get? key = some oldFreq) :
    (p.bump key).minFreq =
      if (p.bucket oldFreq).keys.filter (fun k => k ≠ key) = [] ∧ p.minFreq = oldFreq then oldFreq + 1
      else p.minFreq := by
  simp only [bump, hk, OrderedDict.size_eq_zero_iff, OrderedDict.keys_erase]

/-- A bump preserves the invariant. -/
theorem WF.bump {p : LFUPolicy α} (h : p.WF) {key : Key α} {oldFreq : ℕ}
    (hk : p.keyToFreq.get? key = some oldFreq) : (p.bump key).WF := by
  have hfreq := get?_keyToFreq_bump hk
  have hbucket := keys_bucket_bump h hk
  have hmin := minFreq_bump hk
  have hold : ∀ k, k ∈ (p.bucket oldFreq).keys.filter (fun k => k ≠ key) ↔
      p.keyToFreq.get? k = some oldFreq ∧ k ≠ key := fun k => by
    rw [List.mem_filter, decide_eq_true_iff, h.freq_iff]
  refine ⟨fun k f => ?_, fun f b hb => ?_, fun k f hkf => ?_, fun hnil => ?_, fun _ => ?_,
    fun k f hkf => ?_⟩
  · rw [hfreq, hbucket]
    by_cases hkey : k = key
    · subst hkey
      rw [if_pos rfl, Option.some.injEq]
      split_ifs with h₁ h₂
      · simp [h₁]
      · simp [h₂]
      · rw [← h.freq_iff, hk, Option.some.injEq]
        omega
    · rw [if_neg hkey]
      split_ifs with h₁ h₂
      · rw [hold, h₁]
        simp [hkey]
      · rw [List.mem_append, List.mem_singleton, or_iff_left hkey, ← h.freq_iff, h₂]
      · exact h.freq_iff k f
  · simp only [LFUPolicy.bump, hk, OrderedDict.get?_set] at hb
    split_ifs at hb with hf
    · rw [← Option.some.inj hb]
      exact List.ne_nil_of_mem (a := key) (by simp)
    · exact bucket_ne_nil_dropFromBucket h oldFreq key f b hb
  · rw [hfreq] at hkf
    split_ifs at hkf with hkey
    · exact (Option.some.inj hkf) ▸ Nat.succ_pos _
    · exact h.freq_pos k f hkf
  · have : key ∈ (p.bump key).keyToFreq.keys :=
      OrderedDict.mem_keys_iff.mpr ⟨oldFreq + 1, by rw [hfreq, if_pos rfl]⟩
    rw [hnil] at this
    exact absurd this List.not_mem_nil
  · rw [hmin]
    split_ifs with hcond
    · exact ⟨key, by rw [hfreq, if_pos rfl]⟩
    · obtain ⟨k, hkmin⟩ := h.min_attained (List.ne_nil_of_mem (OrderedDict.mem_keys_iff.mpr ⟨_, hk⟩))
      by_cases hkey : k = key
      · subst hkey
        -- the bumped key was of least frequency, so its bucket keeps another key
        have heq : p.minFreq = oldFreq := Option.some.inj (hkmin.symm.trans hk)
        have hne : (p.bucket oldFreq).keys.filter (fun k' => k' ≠ k) ≠ [] :=
          fun hnil => hcond ⟨hnil, heq⟩
        obtain ⟨k', hk'⟩ := List.exists_mem_of_ne_nil _ hne
        obtain ⟨hk'f, hk'ne⟩ := (hold k').mp hk'
        exact ⟨k', by rw [hfreq, if_neg hk'ne, heq]; exact hk'f⟩
      · exact ⟨k, by rw [hfreq, if_neg hkey]; exact hkmin⟩
  · rw [hfreq] at hkf
    rw [hmin]
    have hle := h.min_le key oldFreq hk
    split_ifs at hkf with hkey
    · have := Option.some.inj hkf
      split_ifs <;> omega
    · have hle' := h.min_le k f hkf
      split_ifs with hcond
      · -- every other key of the old least frequency is gone
        have hne : f ≠ oldFreq := by
          rintro rfl
          have : k ∈ (p.bucket f).keys.filter (fun k' => k' ≠ key) := (hold k).mpr ⟨hkf, hkey⟩
          rw [hcond.1] at this
          exact absurd this List.not_mem_nil
        omega
      · exact hle'

/-- The keys of the buckets after a first insertion. -/
theorem keys_bucket_onPut_of_notMem {p : LFUPolicy α} (h : p.WF) {key : Key α}
    (hk : key ∉ p.keyToFreq.keys) (f : ℕ) :
    ((p.onPut key).bucket f).keys =
      if f = 1 then (p.bucket 1).keys ++ [key] else (p.bucket f).keys := by
  have hnot : key ∉ (p.bucket 1).keys := fun hmem =>
    hk (OrderedDict.mem_keys_iff.mpr ⟨1, (h.freq_iff key 1).mpr hmem⟩)
  simp only [onPut, if_neg hk]
  conv_lhs => rw [bucket]
  rw [OrderedDict.get?_set]
  split_ifs with hf
  · rw [Option.getD_some, OrderedDict.keys_set_of_notMem hnot]
  · rfl

/-- A first insertion preserves the invariant. -/
theorem WF.onPut_of_notMem {p : LFUPolicy α} (h : p.WF) {key : Key α}
    (hk : key ∉ p.keyToFreq.keys) : (p.onPut key).WF := by
  have hbucket := keys_bucket_onPut_of_notMem h hk
  have hfreq : ∀ k, (p.onPut key).keyToFreq.get? k =
      if k = key then some 1 else p.keyToFreq.get? k := fun k => by
    simp only [onPut, if_neg hk, OrderedDict.get?_set]
  have hmin : (p.onPut key).minFreq = 1 := by simp only [onPut, if_neg hk]
  have hnone : p.keyToFreq.get? key = none := OrderedDict.get?_eq_none_iff.mpr hk
  refine ⟨fun k f => ?_, fun f b hb => ?_, fun k f hkf => ?_, fun hnil => ?_, fun _ => ?_,
    fun k f hkf => ?_⟩
  · rw [hfreq, hbucket]
    by_cases hkey : k = key
    · subst hkey
      rw [if_pos rfl, Option.some.injEq]
      split_ifs with h₁
      · simp [h₁]
      · rw [← h.freq_iff, hnone]
        simp [eq_comm, h₁]
    · rw [if_neg hkey]
      split_ifs with h₁
      · rw [List.mem_append, List.mem_singleton, or_iff_left hkey, ← h.freq_iff, h₁]
      · exact h.freq_iff k f
  · simp only [onPut, if_neg hk, OrderedDict.get?_set] at hb
    split_ifs at hb with hf
    · rw [← Option.some.inj hb]
      exact List.ne_nil_of_mem (a := key) (by simp)
    · exact h.bucket_ne_nil f b hb
  · rw [hfreq] at hkf
    split_ifs at hkf with hkey
    · exact (Option.some.inj hkf) ▸ Nat.one_pos
    · exact h.freq_pos k f hkf
  · have : key ∈ (p.onPut key).keyToFreq.keys :=
      OrderedDict.mem_keys_iff.mpr ⟨1, by rw [hfreq, if_pos rfl]⟩
    rw [hnil] at this
    exact absurd this List.not_mem_nil
  · exact ⟨key, by rw [hfreq, if_pos rfl, hmin]⟩
  · rw [hmin]
    rw [hfreq] at hkf
    split_ifs at hkf with hkey
    · exact (Option.some.inj hkf).le
    · exact h.freq_pos k f hkf

/-- `on_put` preserves the invariant. -/
theorem WF.onPut {p : LFUPolicy α} (h : p.WF) (key : Key α) : (p.onPut key).WF := by
  by_cases hk : key ∈ p.keyToFreq.keys
  · obtain ⟨f, hf⟩ := OrderedDict.mem_keys_iff.mp hk
    rw [LFUPolicy.onPut, if_pos hk]
    exact h.bump hf
  · exact h.onPut_of_notMem hk

/-- `on_get` preserves the invariant. -/
theorem WF.onGet {p : LFUPolicy α} (h : p.WF) (key : Key α) : (p.onGet key).WF := by
  rw [LFUPolicy.onGet]
  split_ifs with hk
  · obtain ⟨f, hf⟩ := OrderedDict.mem_keys_iff.mp hk
    exact h.bump hf
  · exact h

/-- The keys of the buckets after a deletion. -/
theorem keys_bucket_onDelete {p : LFUPolicy α} (h : p.WF) (key : Key α) (f : ℕ) :
    ((p.onDelete key).bucket f).keys = (p.bucket f).keys.filter (fun k => k ≠ key) := by
  unfold onDelete
  cases hk : p.keyToFreq.get? key with
  | none =>
      symm
      rw [List.filter_eq_self]
      intro k hkf
      rw [decide_eq_true_iff]
      rintro rfl
      rw [(h.freq_iff k f).mpr hkf] at hk
      cases hk
  | some freq =>
      have hdrop := keys_dropFromBucket p freq key f
      simp only [bucket] at hdrop ⊢
      rw [hdrop]
      split_ifs with hf
      · rw [hf]
      · symm
        rw [List.filter_eq_self]
        intro k hkf
        rw [decide_eq_true_iff]
        rintro rfl
        exact hf (h.freq_unique hkf ((h.freq_iff k freq).mp hk))

/-- The frequencies after a deletion. -/
theorem get?_keyToFreq_onDelete (p : LFUPolicy α) (key k : Key α) :
    (p.onDelete key).keyToFreq.get? k = if k = key then none else p.keyToFreq.get? k := by
  unfold onDelete
  cases hk : p.keyToFreq.get? key with
  | none =>
      by_cases hkey : k = key
      · rw [if_pos hkey, hkey]
        exact hk
      · rw [if_neg hkey]
  | some freq => exact OrderedDict.get?_erase _ _ _

section OnDelete

variable {p : LFUPolicy α} {key : Key α} {freq : ℕ}

/-- What is tracked after a deletion was tracked before it. -/
theorem tracked_of_onDelete {k : Key α} {f : ℕ} (hkf : (p.onDelete key).keyToFreq.get? k = some f) :
    p.keyToFreq.get? k = some f ∧ k ≠ key := by
  rw [get?_keyToFreq_onDelete] at hkf
  split_ifs at hkf with hkey
  exact ⟨hkf, hkey⟩

/-- The two maps still mirror each other. -/
theorem WF.freq_iff_onDelete (h : p.WF) (key k : Key α) (f : ℕ) :
    (p.onDelete key).keyToFreq.get? k = some f ↔ k ∈ ((p.onDelete key).bucket f).keys := by
  rw [get?_keyToFreq_onDelete, keys_bucket_onDelete h, List.mem_filter, decide_eq_true_iff, ← h.freq_iff]
  by_cases hkey : k = key
  · simp [hkey]
  · simp [hkey]

/-- No bucket is empty after a deletion. -/
theorem WF.bucket_ne_nil_onDelete (h : p.WF) (hk : p.keyToFreq.get? key = some freq) (f : ℕ)
    (b : OrderedDict (Key α) Unit) (hb : (p.onDelete key).freqToKeys.get? f = some b) : b.keys ≠ [] := by
  simp only [LFUPolicy.onDelete, hk] at hb
  exact bucket_ne_nil_dropFromBucket h freq key f b hb

/-- A frequency has a bucket exactly when a remaining key has it. -/
theorem WF.mem_freqs_onDelete (h : p.WF) (hk : p.keyToFreq.get? key = some freq) (f : ℕ) :
    f ∈ (p.onDelete key).freqToKeys.keys ↔ ∃ k, (p.onDelete key).keyToFreq.get? k = some f := by
  rw [OrderedDict.mem_keys_iff]
  constructor
  · rintro ⟨b, hb⟩
    obtain ⟨k, hkb⟩ := List.exists_mem_of_ne_nil _ (h.bucket_ne_nil_onDelete hk f b hb)
    refine ⟨k, (h.freq_iff_onDelete key k f).mpr ?_⟩
    simpa [bucket, hb] using hkb
  · rintro ⟨k, hkf⟩
    have hkb := (h.freq_iff_onDelete key k f).mp hkf
    cases hb : (p.onDelete key).freqToKeys.get? f with
    | none => simp [bucket, hb] at hkb
    | some b => exact ⟨b, rfl⟩

/-- The least frequency is looked up again when its bucket went empty. -/
theorem minFreq_onDelete (hk : p.keyToFreq.get? key = some freq) : (p.onDelete key).minFreq =
    if (p.bucket freq).keys.filter (fun k => k ≠ key) = [] ∧ p.minFreq = freq
    then (p.onDelete key).freqToKeys.keys.min?.getD 0 else p.minFreq := by
  simp only [LFUPolicy.onDelete, hk, OrderedDict.size_eq_zero_iff, OrderedDict.keys_erase]

/-- The deletion of the last key. -/
theorem WF.minFreq_onDelete_of_nil (h : p.WF) (hk : p.keyToFreq.get? key = some freq)
    (hnil : (p.onDelete key).keyToFreq.keys = []) : (p.onDelete key).minFreq = 0 := by
  have hnone : ∀ k f, (p.onDelete key).keyToFreq.get? k ≠ some f := by
    intro k f hkf
    have hmem := OrderedDict.mem_keys_iff.mpr ⟨f, hkf⟩
    rw [hnil] at hmem
    exact absurd hmem List.not_mem_nil
  have hno : (p.onDelete key).freqToKeys.keys = [] := by
    rw [List.eq_nil_iff_forall_not_mem]
    intro f hf
    obtain ⟨k, hkf⟩ := (h.mem_freqs_onDelete hk f).mp hf
    exact hnone k f hkf
  rw [minFreq_onDelete hk]
  split_ifs with hcond
  · simp [hno]
  · -- the least frequency of `p` is attained by `key` only, so its bucket empties
    exfalso
    have hall : ∀ k f, p.keyToFreq.get? k = some f → k = key := by
      intro k f hkf
      by_contra hkey
      exact hnone k f ((get?_keyToFreq_onDelete p key k).trans (by rw [if_neg hkey, hkf]))
    obtain ⟨k, hkmin⟩ := h.min_attained (List.ne_nil_of_mem (OrderedDict.mem_keys_iff.mpr ⟨_, hk⟩))
    rw [hall k _ hkmin, hk] at hkmin
    refine hcond ⟨?_, (Option.some.inj hkmin).symm⟩
    rw [List.filter_eq_nil_iff]
    intro k' hk'
    simp [hall k' freq ((h.freq_iff k' freq).mpr hk')]

/-- Some key that remains has the least frequency. -/
theorem WF.minFreq_onDelete_attained (h : p.WF) (hk : p.keyToFreq.get? key = some freq)
    (hne : (p.onDelete key).keyToFreq.keys ≠ []) :
    ∃ k, (p.onDelete key).keyToFreq.get? k = some (p.onDelete key).minFreq := by
  rw [minFreq_onDelete hk]
  split_ifs with hcond
  · obtain ⟨k, hkmem⟩ := List.exists_mem_of_ne_nil _ hne
    obtain ⟨f, hkf⟩ := OrderedDict.mem_keys_iff.mp hkmem
    cases hmin : (p.onDelete key).freqToKeys.keys.min? with
    | none =>
        rw [List.min?_eq_none_iff] at hmin
        have hf := (h.mem_freqs_onDelete hk f).mpr ⟨k, hkf⟩
        rw [hmin] at hf
        exact absurd hf List.not_mem_nil
    | some m => exact (h.mem_freqs_onDelete hk m).mp (List.min?_mem hmin)
  · obtain ⟨k, hkmin⟩ := h.min_attained (List.ne_nil_of_mem (OrderedDict.mem_keys_iff.mpr ⟨_, hk⟩))
    by_cases hkey : k = key
    · -- another key of the bucket takes over
      subst hkey
      have heq : p.minFreq = freq := Option.some.inj (hkmin.symm.trans hk)
      have hbucket : (p.bucket freq).keys.filter (fun k' => k' ≠ k) ≠ [] := fun hnil => hcond ⟨hnil, heq⟩
      obtain ⟨k', hk'⟩ := List.exists_mem_of_ne_nil _ hbucket
      refine ⟨k', (h.freq_iff_onDelete k k' _).mpr ?_⟩
      rw [keys_bucket_onDelete h, heq]
      exact hk'
    · refine ⟨k, ?_⟩
      rw [get?_keyToFreq_onDelete, if_neg hkey]
      exact hkmin

/-- No key that remains has a lower frequency. -/
theorem WF.minFreq_onDelete_le (h : p.WF) (hk : p.keyToFreq.get? key = some freq) {k : Key α} {f : ℕ}
    (hkf : (p.onDelete key).keyToFreq.get? k = some f) : (p.onDelete key).minFreq ≤ f := by
  rw [minFreq_onDelete hk]
  split_ifs with hcond
  · have hf := (h.mem_freqs_onDelete hk f).mpr ⟨k, hkf⟩
    cases hmin : (p.onDelete key).freqToKeys.keys.min? with
    | none => exact Nat.zero_le _
    | some m => exact (List.min?_eq_some_iff.mp hmin).2 f hf
  · exact h.min_le k f (tracked_of_onDelete hkf).1

end OnDelete

/-- `on_delete` preserves the invariant. -/
theorem WF.onDelete {p : LFUPolicy α} (h : p.WF) (key : Key α) : (p.onDelete key).WF := by
  cases hk : p.keyToFreq.get? key with
  | none =>
      have hsame : p.onDelete key = p := by simp only [LFUPolicy.onDelete, hk]
      rwa [hsame]
  | some freq =>
      exact
        { freq_iff := h.freq_iff_onDelete key
          bucket_ne_nil := h.bucket_ne_nil_onDelete hk
          freq_pos := fun k f hkf => h.freq_pos k f (tracked_of_onDelete hkf).1
          min_zero := h.minFreq_onDelete_of_nil hk
          min_attained := h.minFreq_onDelete_attained hk
          min_le := fun k f hkf => h.minFreq_onDelete_le hk hkf }

/-! ### The eviction order -/

/-- The tracked keys of frequency below `n`, least frequency first, oldest first in a bucket. -/
def orderBelow (p : LFUPolicy α) (n : ℕ) : List (Key α) :=
  (List.range n).flatMap fun f => (p.bucket f).keys

/-- The tracked keys in the order in which they would be evicted. -/
def evictionOrder (p : LFUPolicy α) : List (Key α) :=
  p.orderBelow (p.freqToKeys.keys.foldr max 0 + 1)

/-- A bound above all frequencies gives the whole order. -/
theorem orderBelow_eq_evictionOrder (p : LFUPolicy α) {n : ℕ}
    (hn : ∀ f ∈ p.freqToKeys.keys, f < n) : p.orderBelow n = p.evictionOrder := by
  have hbound : ∀ f ∈ p.freqToKeys.keys, f < p.freqToKeys.keys.foldr max 0 + 1 := fun f hf =>
    Nat.lt_succ_of_le (List.le_max_of_le hf le_rfl)
  -- both orders read the same non-empty buckets; cut the larger range at the smaller bound
  have hcut : ∀ a b, (∀ f ∈ p.freqToKeys.keys, f < a) → a ≤ b → p.orderBelow b = p.orderBelow a := by
    intro a b ha hab
    obtain ⟨c, rfl⟩ := Nat.exists_eq_add_of_le hab
    unfold orderBelow
    rw [List.range_add, List.flatMap_append, List.append_right_eq_self, List.flatMap_eq_nil_iff]
    intro f hf
    obtain ⟨g, -, rfl⟩ := List.mem_map.mp hf
    have hnot : a + g ∉ p.freqToKeys.keys := fun hmem => by
      have := ha _ hmem
      omega
    simp [bucket, OrderedDict.get?_eq_none_iff.mpr hnot]
  unfold evictionOrder
  rcases le_total n (p.freqToKeys.keys.foldr max 0 + 1) with hle | hle
  · exact (hcut _ _ hn hle).symm
  · exact hcut _ _ hbound hle

/-- The eviction order lists exactly the tracked keys. -/
theorem WF.mem_evictionOrder {p : LFUPolicy α} (h : p.WF) {k : Key α} :
    k ∈ p.evictionOrder ↔ k ∈ p.keyToFreq.keys := by
  unfold evictionOrder orderBelow
  rw [List.mem_flatMap, OrderedDict.mem_keys_iff]
  constructor
  · rintro ⟨f, -, hf⟩
    exact ⟨f, (h.freq_iff k f).mpr hf⟩
  · rintro ⟨f, hf⟩
    refine ⟨f, List.mem_range.mpr (Nat.lt_succ_of_le ?_), (h.freq_iff k f).mp hf⟩
    exact List.le_max_of_le ((h.mem_freqs_iff f).mpr ⟨k, hf⟩) le_rfl

/-- The eviction order lists no key twice. -/
theorem WF.nodup_evictionOrder {p : LFUPolicy α} (h : p.WF) : p.evictionOrder.Nodup := by
  unfold evictionOrder orderBelow
  rw [List.nodup_flatMap]
  refine ⟨fun f _ => (p.bucket f).keys_nodup, ?_⟩
  refine (List.nodup_range (n := _)).imp fun {f g} hfg => ?_
  intro k hf hg
  exact hfg (h.freq_unique hf hg)

/-- Deleting a key filters it out of the eviction order. -/
theorem WF.evictionOrder_onDelete {p : LFUPolicy α} (h : p.WF) (key : Key α) :
    (p.onDelete key).evictionOrder = p.evictionOrder.filter fun k => k ≠ key := by
  have hsub : ∀ f ∈ (p.onDelete key).freqToKeys.keys,
      f < p.freqToKeys.keys.foldr max 0 + 1 := fun f hf => by
    obtain ⟨k, hk⟩ := ((h.onDelete key).mem_freqs_iff f).mp hf
    have hkf : p.keyToFreq.get? k = some f := by
      rw [get?_keyToFreq_onDelete] at hk
      split_ifs at hk
      exact hk
    exact Nat.lt_succ_of_le (List.le_max_of_le ((h.mem_freqs_iff f).mpr ⟨k, hkf⟩) le_rfl)
  rw [← orderBelow_eq_evictionOrder _ hsub]
  unfold evictionOrder orderBelow
  rw [List.filter_flatMap]
  exact List.flatMap_congr fun f _ => keys_bucket_onDelete h key f

/-- **The victim is the head of the eviction order** (with `None` for an empty order). -/
theorem WF.evictCandidate_eq_head? {p : LFUPolicy α} (h : p.WF) :
    p.evictCandidate = p.evictionOrder.head?.join := by
  unfold evictCandidate
  split_ifs with hzero
  · -- no key is tracked: its frequency would be positive and at least the minimum
    have hnil : p.evictionOrder = [] := by
      rw [List.eq_nil_iff_forall_not_mem]
      intro k hk
      have hne : p.keyToFreq.keys ≠ [] := List.ne_nil_of_mem (h.mem_evictionOrder.mp hk)
      obtain ⟨k', hk'⟩ := h.min_attained hne
      have := h.freq_pos k' _ hk'
      omega
    rw [hnil]
    rfl
  · have hne : p.keyToFreq.keys ≠ [] := fun hnil => hzero (h.min_zero hnil)
    obtain ⟨k, hk⟩ := h.min_attained hne
    have hmem : p.minFreq ∈ p.freqToKeys.keys := (h.mem_freqs_iff _).mpr ⟨k, hk⟩
    obtain ⟨b, hb⟩ := OrderedDict.mem_keys_iff.mp hmem
    have hle : p.minFreq ≤ p.freqToKeys.keys.foldr max 0 := List.le_max_of_le hmem le_rfl
    obtain ⟨c, hc⟩ := Nat.exists_eq_add_of_le hle
    -- the buckets below the minimum are empty, so the order starts with the bucket of the minimum
    have hlow : (List.range p.minFreq).flatMap (fun f => (p.bucket f).keys) = [] := by
      rw [List.flatMap_eq_nil_iff]
      intro f hf
      rw [List.eq_nil_iff_forall_not_mem]
      intro k' hk'
      have := h.min_le k' f ((h.freq_iff k' f).mpr hk')
      have := List.mem_range.mp hf
      omega
    have horder : ∃ rest, p.evictionOrder = b.keys ++ rest := by
      refine ⟨(List.map (fun x => p.minFreq + x) ((List.range c).map Nat.succ)).flatMap
        fun f => (p.bucket f).keys, ?_⟩
      unfold evictionOrder orderBelow
      rw [hc, Nat.add_assoc, List.range_add, List.flatMap_append, hlow, List.nil_append,
        List.range_succ_eq_map, List.map_cons, List.flatMap_cons]
      simp [bucket, hb]
    obtain ⟨rest, hrest⟩ := horder
    rw [hrest, hb]
    obtain ⟨k₀, l₀, hl₀⟩ := List.exists_cons_of_ne_nil (h.bucket_ne_nil _ _ hb)
    simp [hl₀]

/-- The buckets together hold the tracked keys. -/
theorem WF.perm_buckets {p : LFUPolicy α} (h : p.WF) :
    (p.freqToKeys.items.flatMap fun b => b.2.keys).Perm p.keyToFreq.keys := by
  have hbucket : ∀ b ∈ p.freqToKeys.items, p.bucket b.1 = b.2 := fun b hb => by
    rw [bucket, OrderedDict.get?_eq_some_iff.mpr hb]
    rfl
  have hnodup : (p.freqToKeys.items.flatMap fun b => b.2.keys).Nodup := by
    rw [List.nodup_flatMap]
    refine ⟨fun b _ => b.2.keys_nodup, ?_⟩
    have hdistinct : p.freqToKeys.items.Pairwise fun b b' => b.1 ≠ b'.1 :=
      List.pairwise_map.mp p.freqToKeys.nodup
    refine hdistinct.imp_of_mem fun {b b'} hb hb' hne => ?_
    intro k (hk : k ∈ b.2.keys) (hk' : k ∈ b'.2.keys)
    rw [← hbucket b hb] at hk
    rw [← hbucket b' hb'] at hk'
    exact hne (h.freq_unique hk hk')
  refine (List.perm_ext_iff_of_nodup hnodup p.keyToFreq.keys_nodup).mpr fun k => ?_
  rw [List.mem_flatMap, OrderedDict.mem_keys_iff]
  constructor
  · rintro ⟨b, hb, hk⟩
    exact ⟨b.1, (h.freq_iff k b.1).mpr (by rwa [hbucket b hb])⟩
  · rintro ⟨f, hf⟩
    obtain ⟨b, hb⟩ := OrderedDict.mem_keys_iff.mp ((h.mem_freqs_iff f).mpr ⟨k, hf⟩)
    refine ⟨(f, b), OrderedDict.get?_eq_some_iff.mp hb, ?_⟩
    rw [← hbucket (f, b) (OrderedDict.get?_eq_some_iff.mp hb)]
    exact (h.freq_iff k f).mp hf

/-- Every tracked key is stored twice. -/
theorem WF.metadataSize_eq {p : LFUPolicy α} (h : p.WF) : p.metadataSize = 2 * p.len := by
  have hbuckets : (p.freqToKeys.values.map OrderedDict.size).sum = p.len := by
    calc (p.freqToKeys.values.map OrderedDict.size).sum
        = (p.freqToKeys.items.flatMap fun b => b.2.keys).length := by
          rw [List.length_flatMap, OrderedDict.values, List.map_map]
          refine congrArg List.sum (List.map_congr_left fun b _ => ?_)
          exact b.2.size_eq_length_keys
      _ = p.keyToFreq.keys.length := h.perm_buckets.length_eq
      _ = p.len := p.keyToFreq.size_eq_length_keys.symm
  rw [metadataSize, hbuckets, len]
  omega

end LFUPolicy

end CacheLab
