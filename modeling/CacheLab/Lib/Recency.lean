import Mathlib.Data.List.Basic
import Mathlib.Tactic

/-!
# Recency lists

A recency list names the residents of a bounded store, the one used longest ago first. Using an item
moves it to the end, and a store of capacity `c` keeps the last `c` items.

* `Within c d l m` says that a list `l` kept with capacity `c` lies inside a list `m` kept with the
  larger capacity `d`: it is a sublist, and `m` is longer by at most the difference of the capacities.
* The sublist alone is no invariant. When both stores take in a new item, the larger one may only drop
  an item if the smaller one is full, and that is what the second part says.
* `Access` is the alphabet of a store with least-recently-used replacement, `next` and `answer` its
  behaviour. `Within.next` and `Within.answer` are the two halves of the inclusion property.
-/

set_option linter.unusedSectionVars false

namespace CacheLab.Recency

variable {κ : Type} [DecidableEq κ]

/-- The list without an item. -/
def remove (k : κ) (l : List κ) : List κ := l.filter fun x => x ≠ k

/-- An item is used. -/
def touch (k : κ) (l : List κ) : List κ := remove k l ++ [k]

/-- Keep the last `c` items. -/
def trim (c : ℕ) (l : List κ) : List κ := l.drop (l.length - c)

/-- A store of capacity `c` takes an item in. -/
def fill (c : ℕ) (k : κ) (l : List κ) : List κ := trim c (touch k l)

variable {k : κ} {l m : List κ} {c d : ℕ}

/-! ### Lengths -/

theorem length_remove_of_mem (hnd : l.Nodup) (hk : k ∈ l) : (remove k l).length + 1 = l.length := by
  have herase : remove k l = l.erase k := by
    rw [hnd.erase_eq_filter k]
    unfold remove
    apply List.filter_congr
    intro x _
    by_cases hx : x = k <;> simp [hx]
  rw [herase]
  exact List.length_erase_add_one hk

theorem remove_of_notMem (hk : k ∉ l) : remove k l = l := by
  unfold remove
  rw [List.filter_eq_self]
  intro x hx
  have hne : x ≠ k := fun h => hk (h ▸ hx)
  exact decide_eq_true hne

theorem length_touch_of_mem (hnd : l.Nodup) (hk : k ∈ l) : (touch k l).length = l.length := by
  rw [touch, List.length_append, List.length_singleton]
  exact length_remove_of_mem hnd hk

theorem touch_of_notMem (hk : k ∉ l) : touch k l = l ++ [k] := by
  rw [touch, remove_of_notMem hk]

theorem trim_of_le (h : l.length ≤ c) : trim c l = l := by
  rw [trim, Nat.sub_eq_zero_of_le h, List.drop_zero]

theorem length_trim (c : ℕ) (l : List κ) : (trim c l).length = min l.length c := by
  rw [trim, List.length_drop]
  omega

/-- A full list loses its first item to a new one. -/
theorem trim_append_singleton (h : l.length = c) : trim c (l ++ [k]) = (l ++ [k]).tail := by
  have hover : (l ++ [k]).length - c = 1 := by
    rw [List.length_append, List.length_singleton]
    omega
  rw [trim, hover, List.drop_one]

/-- Removing the items in front of the last `c` ones leaves these. -/
theorem filter_eq_trim {p : κ → Bool} (hnd : l.Nodup)
    (hp : ∀ x ∈ l, p x = true ↔ x ∉ l.take (l.length - c)) : l.filter p = trim c l := by
  rw [← List.take_append_drop (l.length - c) l] at hnd
  have hdisjoint := (List.nodup_append.mp hnd).2.2
  have hfront : (l.take (l.length - c)).filter p = [] := by
    rw [List.filter_eq_nil_iff]
    intro x hx hpx
    exact (hp x (List.mem_of_mem_take hx)).mp hpx hx
  have hback : (l.drop (l.length - c)).filter p = l.drop (l.length - c) := by
    rw [List.filter_eq_self]
    intro x hx
    exact (hp x (List.mem_of_mem_drop hx)).mpr fun hx' => hdisjoint x hx' x hx rfl
  calc l.filter p
      = (l.take (l.length - c)).filter p ++ (l.drop (l.length - c)).filter p := by
        rw [← List.filter_append, List.take_append_drop]
    _ = trim c l := by rw [hfront, hback, List.nil_append, trim]

/-- Taking in a present item only uses it. -/
theorem fill_of_mem (hnd : l.Nodup) (hfits : l.length ≤ c) (hk : k ∈ l) : fill c k l = touch k l := by
  rw [fill, trim_of_le]
  rwa [length_touch_of_mem hnd hk]

/-! ### Inclusion -/

/-- A list kept with capacity `c` lies inside one kept with capacity `d`. -/
structure Within (c d : ℕ) (l m : List κ) : Prop where
  sublist : l.Sublist m
  room : m.length + c ≤ l.length + d

theorem Within.nil (h : c ≤ d) : Within c d ([] : List κ) [] := ⟨List.Sublist.refl [], by simpa using h⟩

theorem remove_sublist_remove (h : l.Sublist m) : (remove k l).Sublist (remove k m) := h.filter _

theorem touch_sublist_touch (h : l.Sublist m) : (touch k l).Sublist (touch k m) :=
  (remove_sublist_remove h).append (List.Sublist.refl [k])

/-- Removing an item from both keeps the inclusion. -/
theorem Within.remove (h : Within c d l m) (hm : m.Nodup) : Within c d (remove k l) (remove k m) := by
  have hl : l.Nodup := hm.sublist h.sublist
  refine ⟨remove_sublist_remove h.sublist, ?_⟩
  have hroom := h.room
  by_cases hkl : k ∈ l
  · have h₁ := length_remove_of_mem hl hkl
    have h₂ := length_remove_of_mem hm (h.sublist.subset hkl)
    omega
  · rw [remove_of_notMem hkl]
    have h₂ : (Recency.remove k m).length ≤ m.length := List.length_filter_le _ _
    omega

/-- Using a common item keeps the inclusion. -/
theorem Within.touch (h : Within c d l m) (hm : m.Nodup) (hk : k ∈ l) :
    Within c d (touch k l) (touch k m) := by
  have hl : l.Nodup := hm.sublist h.sublist
  refine ⟨touch_sublist_touch h.sublist, ?_⟩
  rw [length_touch_of_mem hl hk, length_touch_of_mem hm (h.sublist.subset hk)]
  exact h.room

/-- A new item for both: the larger store drops one only if the smaller store is full. -/
theorem Within.fill_both (h : Within c d l m) (hl : l.length ≤ c) (hm : m.length ≤ d) (hkl : k ∉ l)
    (hkm : k ∉ m) : Within c d (fill c k l) (fill d k m) := by
  have hroom := h.room
  have hgrown : (l ++ [k]).Sublist (m ++ [k]) := h.sublist.append (List.Sublist.refl [k])
  unfold fill
  rw [touch_of_notMem hkl, touch_of_notMem hkm]
  constructor
  · by_cases hfull : m.length + 1 ≤ d
    · rw [trim_of_le (l := m ++ [k]) (by simpa using hfull)]
      exact (List.drop_sublist _ _).trans hgrown
    · rw [trim_append_singleton (by omega), trim_append_singleton (by omega)]
      exact hgrown.tail
  · simp only [length_trim, List.length_append, List.length_singleton]
    omega

/-- A new item for the smaller store that the larger one uses. -/
theorem Within.fill_touch (h : Within c d l m) (hl : l.length ≤ c) (hm : m.length ≤ d) (hnd : m.Nodup)
    (hkl : k ∉ l) (hkm : k ∈ m) : Within c d (Recency.fill c k l) (Recency.touch k m) := by
  have hroom := h.room
  refine ⟨(List.drop_sublist _ _).trans (touch_sublist_touch h.sublist), ?_⟩
  rw [length_touch_of_mem hnd hkm, Recency.fill, length_trim, touch_of_notMem hkl, List.length_append,
    List.length_singleton]
  omega

/-- **Taking in any item keeps the inclusion.** -/
theorem Within.fill (h : Within c d l m) (hl : l.length ≤ c) (hm : m.length ≤ d) (hnd : m.Nodup) :
    Within c d (fill c k l) (fill d k m) := by
  have hndl : l.Nodup := hnd.sublist h.sublist
  by_cases hkl : k ∈ l
  · have hkm : k ∈ m := h.sublist.subset hkl
    rw [fill_of_mem hndl hl hkl, fill_of_mem hnd hm hkm]
    exact h.touch hnd hkl
  · by_cases hkm : k ∈ m
    · rw [fill_of_mem hnd hm hkm]
      exact h.fill_touch hl hm hnd hkl hkm
    · exact h.fill_both hl hm hkl hkm

/-! ### Accesses -/

/-- What is done to a store. -/
inductive Access (κ : Type)
  /-- Put an item in. -/
  | write (k : κ)
  /-- Use an item if it is there. -/
  | read (k : κ)
  /-- Ask for an item without using it. -/
  | peek (k : κ)
  /-- Use an item, and put it in if it is not there. -/
  | load (k : κ)
  /-- Take an item out. -/
  | remove (k : κ)
  /-- Nothing that concerns the store. -/
  | pause

/-- The recency list of a store of capacity `c` after an access. -/
def Access.next (c : ℕ) : Access κ → List κ → List κ
  | write k, l => Recency.fill c k l
  | read k, l => if k ∈ l then Recency.touch k l else l
  | peek _, l => l
  | load k, l => Recency.fill c k l
  | remove k, l => Recency.remove k l
  | pause, l => l

/-- Whether an access that asks for an item finds it. -/
def Access.answer : Access κ → List κ → Option Bool
  | read k, l => some (decide (k ∈ l))
  | peek k, l => some (decide (k ∈ l))
  | load k, l => some (decide (k ∈ l))
  | _, _ => none

theorem some_eq_answer {b : Bool} (h : b = true ↔ k ∈ l) :
    some b = (Access.read k).answer l ∧ some b = (Access.peek k).answer l ∧
      some b = (Access.load k).answer l := by
  have hb : some b = some (decide (k ∈ l)) :=
    congrArg some (Bool.eq_iff_iff.mpr (h.trans decide_eq_true_iff.symm))
  exact ⟨hb, hb, hb⟩

theorem answer_read_iff : (Access.read k).answer l = some true ↔ k ∈ l := by
  simp only [Access.answer, Option.some.injEq, decide_eq_true_eq]

/-- What the recency list of a store of capacity `c` is. -/
structure Kept (c : ℕ) (l : List κ) : Prop where
  nodup : l.Nodup
  length_le : l.length ≤ c

theorem nodup_touch (h : l.Nodup) : (touch k l).Nodup := by
  refine List.nodup_append.mpr ⟨h.filter _, List.nodup_singleton k, ?_⟩
  intro x hx y hy
  have hne : x ≠ k := of_decide_eq_true (List.mem_filter.mp hx).2
  rwa [List.mem_singleton.mp hy]

theorem Kept.fill (h : Kept c l) : Kept c (Recency.fill c k l) where
  nodup := (nodup_touch h.nodup).sublist (List.drop_sublist _ _)
  length_le := by
    rw [Recency.fill, length_trim]
    exact min_le_right _ _

/-- An access keeps the list within its capacity. -/
theorem Kept.next (h : Kept c l) (a : Access κ) : Kept c (a.next c l) := by
  cases a with
  | write k => exact h.fill
  | read k =>
      simp only [Access.next]
      split_ifs with hk
      · refine ⟨nodup_touch h.nodup, ?_⟩
        rw [length_touch_of_mem h.nodup hk]
        exact h.length_le
      · exact h
  | peek k => exact h
  | load k => exact h.fill
  | remove k => exact ⟨h.nodup.filter _, (List.length_filter_le _ _).trans h.length_le⟩
  | pause => exact h

/-- A read of an item keeps the inclusion, also where only the larger store has the item. -/
theorem Within.read (h : Within c d l m) (hm : m.Nodup) :
    Within c d ((Access.read k).next c l) ((Access.read k).next d m) := by
  simp only [Access.next]
  by_cases hkl : k ∈ l
  · rw [if_pos hkl, if_pos (h.sublist.subset hkl)]
    exact h.touch hm hkl
  · rw [if_neg hkl]
    split_ifs with hkm
    · refine ⟨?_, ?_⟩
      · have hsub := remove_sublist_remove (k := k) h.sublist
        rw [remove_of_notMem hkl] at hsub
        exact hsub.trans (List.sublist_append_left _ _)
      · rw [length_touch_of_mem hm hkm]
        exact h.room
    · exact h

/-- **An access keeps the inclusion.** -/
theorem Within.next (h : Within c d l m) (hl : Kept c l) (hm : Kept d m) (a : Access κ) :
    Within c d (a.next c l) (a.next d m) := by
  cases a with
  | write k => exact h.fill hl.length_le hm.length_le hm.nodup
  | read k => exact h.read hm.nodup
  | peek k => exact h
  | load k => exact h.fill hl.length_le hm.length_le hm.nodup
  | remove k => exact h.remove hm.nodup
  | pause => exact h

/-- **What the smaller store finds, the larger one finds.** -/
theorem Within.answer (h : Within c d l m) {a : Access κ} (ha : a.answer l = some true) :
    a.answer m = some true := by
  have hsub : ∀ k, k ∈ l → k ∈ m := fun k hk => h.sublist.subset hk
  cases a with
  | write k => cases ha
  | read k => exact congrArg some (decide_eq_true (hsub k (of_decide_eq_true (Option.some.inj ha))))
  | peek k => exact congrArg some (decide_eq_true (hsub k (of_decide_eq_true (Option.some.inj ha))))
  | load k => exact congrArg some (decide_eq_true (hsub k (of_decide_eq_true (Option.some.inj ha))))
  | remove k => cases ha
  | pause => cases ha

end CacheLab.Recency
