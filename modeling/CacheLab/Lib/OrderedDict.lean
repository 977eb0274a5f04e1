import Mathlib.Data.List.Nodup
import Mathlib.Data.List.Basic
import Mathlib.Data.List.Perm.Basic

/-!
# Insertion-ordered dictionaries

A dictionary whose items are listed in the order in which their keys were first inserted: the
semantics of a Python `dict` and of `collections.OrderedDict`.

* `set` overwrites the value of a present key **in place** and appends an absent key at the end;
* `erase` (`pop(key, None)`) removes a key and keeps the order of the others;
* `moveToEnd` re-appends a present key.

That no key occurs twice is a field of the structure (`nodup`), so a dictionary with a repeated key
cannot be built and no later lemma carries the hypothesis. The lemmas below describe every operation
through the two observations that the rest of a development uses: the lookup `get?` and the key
list `keys`.
-/

set_option linter.unusedSectionVars false

namespace CacheLab

/-- A finite map that remembers the order in which its keys were inserted. -/
structure OrderedDict (κ β : Type) where
  /-- The items, oldest key first. -/
  items : List (κ × β)
  /-- No key occurs twice. -/
  nodup : (items.map Prod.fst).Nodup

namespace OrderedDict

variable {κ β : Type}

/-- The keys, oldest first. -/
def keys (d : OrderedDict κ β) : List κ := d.items.map Prod.fst

/-- The values, in the order of their keys. -/
def values (d : OrderedDict κ β) : List β := d.items.map Prod.snd

/-- The number of keys. -/
def size (d : OrderedDict κ β) : ℕ := d.items.length

/-- The empty dictionary. -/
def empty : OrderedDict κ β := ⟨[], List.nodup_nil⟩

/-- The keys are pairwise distinct. -/
theorem keys_nodup (d : OrderedDict κ β) : d.keys.Nodup := d.nodup

/-- The size is the number of keys. -/
theorem size_eq_length_keys (d : OrderedDict κ β) : d.size = d.keys.length := by
  simp [size, keys]

/-- A dictionary of size zero has no keys. -/
theorem size_eq_zero_iff (d : OrderedDict κ β) : d.size = 0 ↔ d.keys = [] := by
  rw [size_eq_length_keys, List.length_eq_zero_iff]

/-- Two dictionaries with the same items are equal. -/
@[ext] theorem ext {d₁ d₂ : OrderedDict κ β} (h : d₁.items = d₂.items) : d₁ = d₂ := by
  cases d₁; cases d₂; cases h; rfl

@[simp] theorem keys_empty : (empty : OrderedDict κ β).keys = [] := rfl

@[simp] theorem size_empty : (empty : OrderedDict κ β).size = 0 := rfl

instance instDecidableEq [DecidableEq κ] [DecidableEq β] : DecidableEq (OrderedDict κ β) :=
  fun d₁ d₂ => decidable_of_iff (d₁.items = d₂.items) ⟨ext, fun h => h ▸ rfl⟩

variable [DecidableEq κ]

/-- The value stored under `k`, if any. -/
def get? (d : OrderedDict κ β) (k : κ) : Option β := d.items.lookup k

/-- Drop the item of `k`; nothing happens when `k` is absent. -/
def erase (d : OrderedDict κ β) (k : κ) : OrderedDict κ β where
  items := d.items.filter fun p => p.1 ≠ k
  nodup := d.nodup.sublist (List.filter_sublist.map Prod.fst)

/-- Overwriting the value of one key does not change the list of keys. -/
theorem map_fst_overwrite (l : List (κ × β)) (k : κ) (v : β) :
    (l.map fun p => if p.1 = k then (k, v) else p).map Prod.fst = l.map Prod.fst := by
  rw [List.map_map]
  refine List.map_congr_left fun p _ => ?_
  by_cases h : p.1 = k <;> simp [h]

/-- Store `v` under `k`: in place when `k` is present, at the end when it is not. -/
def set (d : OrderedDict κ β) (k : κ) (v : β) : OrderedDict κ β :=
  if h : k ∈ d.keys then
    ⟨d.items.map fun p => if p.1 = k then (k, v) else p, by
      rw [map_fst_overwrite]
      exact d.nodup⟩
  else
    ⟨d.items ++ [(k, v)], by
      rw [List.map_append]
      exact List.nodup_append.mpr ⟨d.nodup, List.nodup_singleton _, by
        intro a ha b hb hab
        simp only [List.map_cons, List.map_nil, List.mem_singleton] at hb
        exact h (hb ▸ hab ▸ ha)⟩⟩

/-- Re-append the item of `k` at the end; nothing happens when `k` is absent. -/
def moveToEnd (d : OrderedDict κ β) (k : κ) : OrderedDict κ β :=
  match d.get? k with
  | none => d
  | some v => (d.erase k).set k v

/-! ### Lookup -/

/-- A lookup finds exactly the stored item. -/
theorem get?_eq_some_iff {d : OrderedDict κ β} {k : κ} {v : β} :
    d.get? k = some v ↔ (k, v) ∈ d.items := by
  obtain ⟨l, hl⟩ := d
  simp only [get?]
  induction l with
  | nil => simp
  | cons p l ih =>
      obtain ⟨k', v'⟩ := p
      rw [List.map_cons, List.nodup_cons] at hl
      rw [List.lookup_cons]
      by_cases h : k = k'
      · subst h
        simp only [beq_self_eq_true, Option.some.injEq, List.mem_cons, Prod.mk.injEq,
          true_and]
        constructor
        · rintro rfl
          exact Or.inl rfl
        · rintro (rfl | hmem)
          · rfl
          · exact absurd (List.mem_map.mpr ⟨_, hmem, rfl⟩) hl.1
      · have hb : (k == k') = false := by simpa using h
        simp only [hb, List.mem_cons, Prod.mk.injEq, h, false_and, false_or]
        exact ih hl.2

/-- A key is listed exactly when a lookup finds it. -/
theorem mem_keys_iff {d : OrderedDict κ β} {k : κ} : k ∈ d.keys ↔ ∃ v, d.get? k = some v := by
  simp only [keys, List.mem_map, Prod.exists, exists_and_right, exists_eq_right, get?_eq_some_iff]

/-- A lookup fails exactly on the keys that are not listed. -/
theorem get?_eq_none_iff {d : OrderedDict κ β} {k : κ} : d.get? k = none ↔ k ∉ d.keys := by
  rw [mem_keys_iff, Option.eq_none_iff_forall_ne_some, not_exists]

/-- A key is listed exactly when its lookup is not `none`. -/
theorem mem_keys_iff_isSome {d : OrderedDict κ β} {k : κ} : k ∈ d.keys ↔ (d.get? k).isSome := by
  rw [mem_keys_iff, Option.isSome_iff_exists]

@[simp] theorem get?_empty (k : κ) : (empty : OrderedDict κ β).get? k = none := rfl

/-- Lookup after `erase`. -/
theorem get?_erase (d : OrderedDict κ β) (k k' : κ) :
    (d.erase k).get? k' = if k' = k then none else d.get? k' := by
  by_cases h : k' = k
  · rw [if_pos h, Option.eq_none_iff_forall_ne_some]
    intro v hv
    simp [get?_eq_some_iff, erase, h] at hv
  · rw [if_neg h]
    ext v
    simp [get?_eq_some_iff, erase, h]

@[simp] theorem get?_erase_self (d : OrderedDict κ β) (k : κ) : (d.erase k).get? k = none := by
  rw [get?_erase, if_pos rfl]

@[simp] theorem get?_erase_of_ne (d : OrderedDict κ β) {k k' : κ} (h : k' ≠ k) :
    (d.erase k).get? k' = d.get? k' := by
  rw [get?_erase, if_neg h]

/-- Lookup after `set`. -/
theorem get?_set (d : OrderedDict κ β) (k k' : κ) (v : β) :
    (d.set k v).get? k' = if k' = k then some v else d.get? k' := by
  ext w
  rw [get?_eq_some_iff, set]
  by_cases hmem : k ∈ d.keys
  · rw [dif_pos hmem]
    by_cases h : k' = k
    · subst h
      simp only [keys, List.mem_map, if_true, Option.some.injEq] at hmem ⊢
      obtain ⟨p, hp, hpk⟩ := hmem
      constructor
      · rintro ⟨q, -, hq⟩
        split_ifs at hq with hqk
        · exact congrArg Prod.snd hq
        · exact absurd (congrArg Prod.fst hq) hqk
      · rintro rfl
        exact ⟨p, hp, by rw [if_pos hpk]⟩
    · rw [if_neg h, get?_eq_some_iff]
      simp only [List.mem_map]
      constructor
      · rintro ⟨q, hq, hqe⟩
        split_ifs at hqe with hqk
        · exact absurd (congrArg Prod.fst hqe).symm h
        · rwa [← hqe]
      · intro hmem'
        exact ⟨(k', w), hmem', by rw [if_neg h]⟩
  · rw [dif_neg hmem]
    by_cases h : k' = k
    · subst h
      have hno : (k', w) ∉ d.items := fun hw => hmem (List.mem_map.mpr ⟨_, hw, rfl⟩)
      simp [hno, eq_comm]
    · simp [h, get?_eq_some_iff]

@[simp] theorem get?_set_self (d : OrderedDict κ β) (k : κ) (v : β) :
    (d.set k v).get? k = some v := by
  rw [get?_set, if_pos rfl]

@[simp] theorem get?_set_of_ne (d : OrderedDict κ β) {k k' : κ} (v : β) (h : k' ≠ k) :
    (d.set k v).get? k' = d.get? k' := by
  rw [get?_set, if_neg h]

/-! ### Keys and size -/

/-- The keys after `erase`. -/
theorem keys_erase (d : OrderedDict κ β) (k : κ) :
    (d.erase k).keys = d.keys.filter fun k' => k' ≠ k := by
  simp [keys, erase, List.filter_map, Function.comp_def]

/-- The items after `set` on a present key. -/
theorem items_set_of_mem {d : OrderedDict κ β} {k : κ} (h : k ∈ d.keys) (v : β) :
    (d.set k v).items = d.items.map fun p => if p.1 = k then (k, v) else p := by
  rw [set, dif_pos h]

/-- The items after `set` on an absent key. -/
theorem items_set_of_notMem {d : OrderedDict κ β} {k : κ} (h : k ∉ d.keys) (v : β) :
    (d.set k v).items = d.items ++ [(k, v)] := by
  rw [set, dif_neg h]

/-- The keys after `set` on a present key. -/
theorem keys_set_of_mem {d : OrderedDict κ β} {k : κ} (h : k ∈ d.keys) (v : β) :
    (d.set k v).keys = d.keys := by
  rw [set, dif_pos h]
  exact map_fst_overwrite _ _ _

/-- The keys after `set` on an absent key. -/
theorem keys_set_of_notMem {d : OrderedDict κ β} {k : κ} (h : k ∉ d.keys) (v : β) :
    (d.set k v).keys = d.keys ++ [k] := by
  rw [set, dif_neg h]
  simp [keys]

/-- Membership in the keys after `erase`. -/
@[simp] theorem mem_keys_erase {d : OrderedDict κ β} {k k' : κ} :
    k' ∈ (d.erase k).keys ↔ k' ∈ d.keys ∧ k' ≠ k := by
  rw [keys_erase, List.mem_filter, decide_eq_true_iff]

/-- Membership in the keys after `set`. -/
@[simp] theorem mem_keys_set {d : OrderedDict κ β} {k k' : κ} {v : β} :
    k' ∈ (d.set k v).keys ↔ k' = k ∨ k' ∈ d.keys := by
  by_cases h : k ∈ d.keys
  · rw [keys_set_of_mem h]
    constructor
    · exact Or.inr
    · rintro (rfl | h') <;> assumption
  · rw [keys_set_of_notMem h, List.mem_append, List.mem_singleton, or_comm]

/-- The keys after `moveToEnd` on a present key. -/
theorem keys_moveToEnd_of_mem {d : OrderedDict κ β} {k : κ} (h : k ∈ d.keys) :
    (d.moveToEnd k).keys = (d.keys.filter fun k' => k' ≠ k) ++ [k] := by
  obtain ⟨v, hv⟩ := mem_keys_iff.mp h
  simp only [moveToEnd, hv]
  rw [keys_set_of_notMem (by simp), keys_erase]

/-- `moveToEnd` does nothing on an absent key. -/
theorem moveToEnd_of_notMem {d : OrderedDict κ β} {k : κ} (h : k ∉ d.keys) : d.moveToEnd k = d := by
  simp only [moveToEnd, get?_eq_none_iff.mpr h]

/-- `moveToEnd` keeps the set of keys. -/
@[simp] theorem mem_keys_moveToEnd {d : OrderedDict κ β} {k k' : κ} :
    k' ∈ (d.moveToEnd k).keys ↔ k' ∈ d.keys := by
  by_cases h : k ∈ d.keys
  · rw [keys_moveToEnd_of_mem h]
    simp only [List.mem_append, List.mem_filter, decide_eq_true_iff, List.mem_singleton]
    constructor
    · rintro (⟨h', -⟩ | rfl) <;> assumption
    · intro h'
      by_cases hk : k' = k
      · exact Or.inr hk
      · exact Or.inl ⟨h', hk⟩
  · rw [moveToEnd_of_notMem h]

/-- The size after `set` on a present key. -/
theorem size_set_of_mem {d : OrderedDict κ β} {k : κ} (h : k ∈ d.keys) (v : β) :
    (d.set k v).size = d.size := by
  rw [size_eq_length_keys, size_eq_length_keys, keys_set_of_mem h]

/-- The size after `set` on an absent key. -/
theorem size_set_of_notMem {d : OrderedDict κ β} {k : κ} (h : k ∉ d.keys) (v : β) :
    (d.set k v).size = d.size + 1 := by
  rw [size_eq_length_keys, size_eq_length_keys, keys_set_of_notMem h, List.length_append]
  rfl

/-- `erase` does nothing on an absent key. -/
theorem erase_of_notMem {d : OrderedDict κ β} {k : κ} (h : k ∉ d.keys) : d.erase k = d := by
  apply ext
  simp only [erase, List.filter_eq_self, decide_eq_true_iff]
  intro p hp hpk
  exact h (List.mem_map.mpr ⟨p, hp, hpk⟩)

/-- The size after `erase` of a present key. -/
theorem size_erase_of_mem {d : OrderedDict κ β} {k : κ} (h : k ∈ d.keys) :
    (d.erase k).size + 1 = d.size := by
  have hfilter : (d.keys.filter fun k' => k' ≠ k) = d.keys.erase k := by
    rw [d.keys_nodup.erase_eq_filter k]
    refine List.filter_congr fun k' _ => ?_
    simp [bne, beq_eq_decide]
  rw [size_eq_length_keys, size_eq_length_keys, keys_erase, hfilter, List.length_erase_of_mem h]
  have := List.length_pos_of_mem h
  omega

/-- The size never grows under `erase`. -/
theorem size_erase_le (d : OrderedDict κ β) (k : κ) : (d.erase k).size ≤ d.size := by
  rw [size_eq_length_keys, size_eq_length_keys, keys_erase]
  exact List.length_filter_le _ _

/-! ### Filtering by value -/

/-- Keep the items whose value passes a test. -/
def filter (p : β → Bool) (d : OrderedDict κ β) : OrderedDict κ β where
  items := d.items.filter fun x => p x.2
  nodup := d.nodup.sublist (List.filter_sublist.map Prod.fst)

/-- Lookup after `filter`. -/
theorem get?_filter (p : β → Bool) (d : OrderedDict κ β) (k : κ) :
    (d.filter p).get? k = (d.get? k).filter p := by
  ext v
  rw [get?_eq_some_iff, Option.filter_eq_some_iff, get?_eq_some_iff]
  exact List.mem_filter

/-- The values after `filter`. -/
theorem values_filter (p : β → Bool) (d : OrderedDict κ β) : (d.filter p).values = d.values.filter p := by
  unfold values filter
  rw [List.filter_map]
  rfl

@[simp] theorem filter_empty (p : β → Bool) : (empty : OrderedDict κ β).filter p = empty := rfl

/-- A second, stronger test makes the first one superfluous. -/
theorem filter_filter_of_imp {p q : β → Bool} (h : ∀ v, q v = true → p v = true) (d : OrderedDict κ β) :
    (d.filter p).filter q = d.filter q := by
  apply ext
  show ((d.items.filter fun x => p x.2).filter fun x => q x.2) = d.items.filter fun x => q x.2
  rw [List.filter_filter]
  apply List.filter_congr
  intro x _
  cases hq : q x.2 with
  | false => rfl
  | true => rw [h x.2 hq, Bool.and_self]

/-- Erasing an item that fails the test is not seen. -/
theorem filter_erase {p : β → Bool} {d : OrderedDict κ β} {k : κ}
    (h : ∀ v, d.get? k = some v → p v = false) : (d.erase k).filter p = d.filter p := by
  apply ext
  show ((d.items.filter fun x => x.1 ≠ k).filter fun x => p x.2) = d.items.filter fun x => p x.2
  rw [List.filter_filter]
  apply List.filter_congr
  intro x hx
  by_cases hk : x.1 = k
  · have hp : p x.2 = false := h x.2 (get?_eq_some_iff.mpr (hk ▸ hx))
    rw [hp, Bool.false_and]
  · rw [decide_eq_true hk, Bool.and_true]

/-- Storing over an item that passes the test, or where there is none, can be done after filtering. -/
theorem filter_set {p : β → Bool} {d : OrderedDict κ β} {k : κ}
    (h : ∀ v, d.get? k = some v → p v = true) (v : β) :
    (d.set k v).filter p = ((d.filter p).set k v).filter p := by
  apply ext
  by_cases hk : k ∈ d.keys
  · have hkept : k ∈ (d.filter p).keys := by
      obtain ⟨w, hw⟩ := mem_keys_iff.mp hk
      rw [mem_keys_iff, get?_filter, hw]
      exact ⟨w, by rw [Option.filter_some, if_pos (h w hw)]⟩
    rw [set, dif_pos hk, set, dif_pos hkept]
    show ((d.items.map _).filter _) = (((d.items.filter _).map _).filter _)
    rw [List.filter_map, List.filter_map, List.filter_filter]
    congr 1
    apply List.filter_congr
    intro x hx
    by_cases hxk : x.1 = k
    · have hp : p x.2 = true := h x.2 (get?_eq_some_iff.mpr (hxk ▸ hx))
      simp [hxk, hp]
    · simp [hxk]
  · have hgone : k ∉ (d.filter p).keys := by
      rw [← get?_eq_none_iff, get?_filter, get?_eq_none_iff.mpr hk]
      rfl
    rw [set, dif_neg hk, set, dif_neg hgone]
    show ((d.items ++ [(k, v)]).filter _) = (((d.items.filter _) ++ [(k, v)]).filter _)
    rw [List.filter_append, List.filter_append, List.filter_filter]
    simp

end OrderedDict

end CacheLab
