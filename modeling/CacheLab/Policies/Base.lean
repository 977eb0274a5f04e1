import CacheLab.Policies.Lfu

/-!
# Eviction policies

`LRUPolicy` and `FIFOPolicy` keep one ordered set of keys each; `EvictionPolicy` is the policy a
shard holds, one of the three.

The rest of the development sees a policy only through its **eviction order**, the list of tracked
keys from the next victim on:

* the victim is the head of the order (`evictCandidate_eq`);
* `on_delete` filters the key out of it (`order_onDelete`), `clear` empties it;
* `on_put` and `on_get` change its members only by the key that is put (`mem_order_onPut`,
  `mem_order_onGet`).

For LFU these hold under the policy's own invariant, collected in `EvictionPolicy.WF`.
-/

set_option linter.unusedSectionVars false

namespace CacheLab

variable {α : Type} [DecidableEq α]

/-- Source: `policies/lru.py` `LRUPolicy` -/
structure LRUPolicy (α : Type) where
  order : OrderedDict (Key α) Unit

namespace LRUPolicy

/-- Source: `policies/lru.py` `LRUPolicy.on_get` -/
def onGet (p : LRUPolicy α) (key : Key α) : LRUPolicy α :=
  if key ∈ p.order.keys then ⟨p.order.moveToEnd key⟩ else p

/-- Source: `policies/lru.py` `LRUPolicy.on_put` -/
def onPut (p : LRUPolicy α) (key : Key α) : LRUPolicy α :=
  ⟨(p.order.set key ()).moveToEnd key⟩

/-- Source: `policies/lru.py` `LRUPolicy.on_delete` -/
def onDelete (p : LRUPolicy α) (key : Key α) : LRUPolicy α := ⟨p.order.erase key⟩

/-- Source: `policies/lru.py` `LRUPolicy.evict_candidate` -/
def evictCandidate (p : LRUPolicy α) : Key α := p.order.keys.head?.join

end LRUPolicy

/-- Source: `policies/fifo.py` `FIFOPolicy` -/
structure FIFOPolicy (α : Type) where
  order : OrderedDict (Key α) Unit

namespace FIFOPolicy

/-- Source: `policies/fifo.py` `FIFOPolicy.on_put` -/
def onPut (p : FIFOPolicy α) (key : Key α) : FIFOPolicy α :=
  if key ∈ p.order.keys then p else ⟨p.order.set key ()⟩

/-- Source: `policies/fifo.py` `FIFOPolicy.on_delete` -/
def onDelete (p : FIFOPolicy α) (key : Key α) : FIFOPolicy α := ⟨p.order.erase key⟩

/-- Source: `policies/fifo.py` `FIFOPolicy.evict_candidate` -/
def evictCandidate (p : FIFOPolicy α) : Key α := p.order.keys.head?.join

end FIFOPolicy

/-- The policy object of a shard.
Source: `policies/base.py` `EvictionPolicy` -/
inductive EvictionPolicy (α : Type)
  | lru (p : LRUPolicy α)
  | lfu (p : LFUPolicy α)
  | fifo (p : FIFOPolicy α)

/-- A fresh policy of the given name.
Source: `policies/base.py` `make_policy` -/
def makePolicy : PolicyName → EvictionPolicy α
  | .lru => .lru ⟨.empty⟩
  | .lfu => .lfu .new
  | .fifo => .fifo ⟨.empty⟩

namespace EvictionPolicy

/-- A read; FIFO ignores it. -/
def onGet : EvictionPolicy α → Key α → EvictionPolicy α
  | lru p, key => lru (p.onGet key)
  | lfu p, key => lfu (p.onGet key)
  | fifo p, _ => fifo p

/-- A write. -/
def onPut : EvictionPolicy α → Key α → EvictionPolicy α
  | lru p, key => lru (p.onPut key)
  | lfu p, key => lfu (p.onPut key)
  | fifo p, key => fifo (p.onPut key)

/-- A removal. -/
def onDelete : EvictionPolicy α → Key α → EvictionPolicy α
  | lru p, key => lru (p.onDelete key)
  | lfu p, key => lfu (p.onDelete key)
  | fifo p, key => fifo (p.onDelete key)

/-- The next victim; `none` is Python's `None`, be it "no victim" or the key `None`. -/
def evictCandidate : EvictionPolicy α → Key α
  | lru p => p.evictCandidate
  | lfu p => p.evictCandidate
  | fifo p => p.evictCandidate

/-- Forget all keys. -/
def clear : EvictionPolicy α → EvictionPolicy α
  | lru _ => lru ⟨.empty⟩
  | lfu p => lfu p.clear
  | fifo _ => fifo ⟨.empty⟩

/-- The number of tracked keys. -/
def len : EvictionPolicy α → ℕ
  | lru p => p.order.size
  | lfu p => p.len
  | fifo p => p.order.size

/-- Source: `metadata_size` of the three policies -/
def metadataSize : EvictionPolicy α → ℕ
  | lru p => p.order.size
  | lfu p => p.metadataSize
  | fifo p => p.order.size

/-! ### The eviction order -/

/-- The tracked keys, next victim first. -/
def order : EvictionPolicy α → List (Key α)
  | lru p => p.order.keys
  | lfu p => p.evictionOrder
  | fifo p => p.order.keys

/-- The invariant of a policy; only LFU has one. -/
def WF : EvictionPolicy α → Prop
  | lru _ => True
  | lfu p => p.WF
  | fifo _ => True

/-- A fresh policy is well formed. -/
theorem wf_makePolicy (name : PolicyName) : (makePolicy name : EvictionPolicy α).WF := by
  cases name with
  | lru => trivial
  | lfu => exact LFUPolicy.wf_new
  | fifo => trivial

/-- A fresh policy tracks nothing. -/
@[simp] theorem order_makePolicy (name : PolicyName) :
    (makePolicy name : EvictionPolicy α).order = [] := by
  cases name <;> rfl

/-- `on_get` keeps a policy well formed. -/
theorem WF.onGet {p : EvictionPolicy α} (h : p.WF) (key : Key α) : (p.onGet key).WF := by
  cases p with
  | lru p => trivial
  | lfu p => exact LFUPolicy.WF.onGet h key
  | fifo p => trivial

/-- `on_put` keeps a policy well formed. -/
theorem WF.onPut {p : EvictionPolicy α} (h : p.WF) (key : Key α) : (p.onPut key).WF := by
  cases p with
  | lru p => trivial
  | lfu p => exact LFUPolicy.WF.onPut h key
  | fifo p => trivial

/-- `on_delete` keeps a policy well formed. -/
theorem WF.onDelete {p : EvictionPolicy α} (h : p.WF) (key : Key α) : (p.onDelete key).WF := by
  cases p with
  | lru p => trivial
  | lfu p => exact LFUPolicy.WF.onDelete h key
  | fifo p => trivial

/-- A cleared policy is well formed. -/
theorem wf_clear (p : EvictionPolicy α) : p.clear.WF := by
  cases p with
  | lru p => trivial
  | lfu p => exact LFUPolicy.wf_new
  | fifo p => trivial

/-- A cleared policy tracks nothing. -/
@[simp] theorem order_clear (p : EvictionPolicy α) : p.clear.order = [] := by
  cases p <;> rfl

/-- No key is tracked twice. -/
theorem WF.nodup_order {p : EvictionPolicy α} (h : p.WF) : p.order.Nodup := by
  cases p with
  | lru p => exact p.order.keys_nodup
  | lfu p => exact LFUPolicy.WF.nodup_evictionOrder h
  | fifo p => exact p.order.keys_nodup

/-- The victim is the head of the eviction order. -/
theorem WF.evictCandidate_eq {p : EvictionPolicy α} (h : p.WF) :
    p.evictCandidate = p.order.head?.join := by
  cases p with
  | lru p => rfl
  | lfu p => exact LFUPolicy.WF.evictCandidate_eq_head? h
  | fifo p => rfl

/-- The number of tracked keys is the length of the eviction order. -/
theorem WF.len_eq {p : EvictionPolicy α} (h : p.WF) : p.len = p.order.length := by
  cases p with
  | lru p => exact p.order.size_eq_length_keys
  | lfu p =>
      have hperm : p.evictionOrder.Perm p.keyToFreq.keys :=
        (List.perm_ext_iff_of_nodup (LFUPolicy.WF.nodup_evictionOrder h) p.keyToFreq.keys_nodup).mpr
          fun k => LFUPolicy.WF.mem_evictionOrder h
      exact p.keyToFreq.size_eq_length_keys.trans hperm.length_eq.symm
  | fifo p => exact p.order.size_eq_length_keys

/-- `on_delete` filters the key out of the eviction order. -/
theorem WF.order_onDelete {p : EvictionPolicy α} (h : p.WF) (key : Key α) :
    (p.onDelete key).order = p.order.filter fun k => k ≠ key := by
  cases p with
  | lru p => exact p.order.keys_erase key
  | lfu p => exact LFUPolicy.WF.evictionOrder_onDelete h key
  | fifo p => exact p.order.keys_erase key

/-- The tracked keys after `on_delete`. -/
theorem WF.mem_order_onDelete {p : EvictionPolicy α} (h : p.WF) {key k : Key α} :
    k ∈ (p.onDelete key).order ↔ k ∈ p.order ∧ k ≠ key := by
  rw [h.order_onDelete, List.mem_filter, decide_eq_true_iff]

/-- The tracked keys after an LFU bump are the tracked keys. -/
theorem mem_keys_bump (p : LFUPolicy α) (key k : Key α) :
    k ∈ (p.bump key).keyToFreq.keys ↔ k ∈ p.keyToFreq.keys := by
  cases hk : p.keyToFreq.get? key with
  | none => simp only [LFUPolicy.bump, hk]
  | some f =>
      have hmem : key ∈ p.keyToFreq.keys := OrderedDict.mem_keys_iff.mpr ⟨f, hk⟩
      simp only [LFUPolicy.bump, hk]
      rw [OrderedDict.keys_set_of_mem hmem]

/-- The tracked keys after `on_put`. -/
theorem WF.mem_order_onPut {p : EvictionPolicy α} (h : p.WF) {key k : Key α} :
    k ∈ (p.onPut key).order ↔ k = key ∨ k ∈ p.order := by
  cases p with
  | lru p => simp [EvictionPolicy.onPut, order, LRUPolicy.onPut]
  | lfu p =>
      simp only [EvictionPolicy.onPut, order]
      rw [LFUPolicy.WF.mem_evictionOrder (LFUPolicy.WF.onPut h key),
        LFUPolicy.WF.mem_evictionOrder h, LFUPolicy.onPut]
      split_ifs with hk
      · rw [mem_keys_bump]
        constructor
        · exact Or.inr
        · rintro (rfl | h') <;> assumption
      · exact OrderedDict.mem_keys_set
  | fifo p =>
      simp only [EvictionPolicy.onPut, order, FIFOPolicy.onPut]
      split_ifs with hk
      · constructor
        · exact Or.inr
        · rintro (rfl | h') <;> assumption
      · exact OrderedDict.mem_keys_set

/-- The tracked keys after `on_get` are the tracked keys. -/
theorem WF.mem_order_onGet {p : EvictionPolicy α} (h : p.WF) {key k : Key α} :
    k ∈ (p.onGet key).order ↔ k ∈ p.order := by
  cases p with
  | lru p =>
      simp only [EvictionPolicy.onGet, order, LRUPolicy.onGet]
      split_ifs <;> simp
  | lfu p =>
      simp only [EvictionPolicy.onGet, order]
      rw [LFUPolicy.WF.mem_evictionOrder (LFUPolicy.WF.onGet h key),
        LFUPolicy.WF.mem_evictionOrder h, LFUPolicy.onGet]
      split_ifs with hk
      · exact mem_keys_bump p key k
      · exact Iff.rfl
  | fifo p => exact Iff.rfl

/-! ### The kind of a policy -/

section Kind

/-- The name under which a policy was made. -/
def name : EvictionPolicy α → PolicyName
  | lru _ => .lru
  | lfu _ => .lfu
  | fifo _ => .fifo

@[simp] theorem name_makePolicy (n : PolicyName) : (makePolicy n : EvictionPolicy α).name = n := by
  cases n <;> rfl

variable (p : EvictionPolicy α) (key : Key α)

@[simp] theorem name_onGet : (p.onGet key).name = p.name := by cases p <;> rfl

@[simp] theorem name_onPut : (p.onPut key).name = p.name := by cases p <;> rfl

@[simp] theorem name_onDelete : (p.onDelete key).name = p.name := by cases p <;> rfl

@[simp] theorem name_clear : p.clear.name = p.name := by cases p <;> rfl

variable {p}

/-- An LRU policy moves a key that is used to the end. -/
theorem order_onGet_of_lru (h : p.name = .lru) {key : Key α} (hk : key ∈ p.order) :
    (p.onGet key).order = p.order.filter (fun k => k ≠ key) ++ [key] := by
  cases p with
  | lru p =>
      simp only [onGet, order, LRUPolicy.onGet] at hk ⊢
      rw [if_pos hk]
      exact OrderedDict.keys_moveToEnd_of_mem hk
  | lfu p => cases h
  | fifo p => cases h

/-- See `order_onGet_of_lru`. -/
theorem order_onPut_of_lru (h : p.name = .lru) (key : Key α) :
    (p.onPut key).order = p.order.filter (fun k => k ≠ key) ++ [key] := by
  cases p with
  | lru p =>
      simp only [onPut, order, LRUPolicy.onPut]
      rw [OrderedDict.keys_moveToEnd_of_mem (OrderedDict.mem_keys_set.mpr (.inl rfl))]
      congr 1
      by_cases hk : key ∈ p.order.keys
      · rw [OrderedDict.keys_set_of_mem hk]
      · rw [OrderedDict.keys_set_of_notMem hk, List.filter_append]
        simp
  | lfu p => cases h
  | fifo p => cases h

end Kind

end EvictionPolicy

end CacheLab
