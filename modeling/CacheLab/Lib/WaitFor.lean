import Mathlib.Logic.Relation
import Mathlib.Order.Basic
import Mathlib.Tactic

/-!
# Wait-for relations and lock order

A party waits for another one when it wants something that the other one holds. If everybody wants only
what stands above all that it holds, in some order of the things, then nobody waits for itself through
any chain of others (`acyclic_of_ordered`).

Locks are such things. What a thread still has to do with locks is a list of actions; `Follows` says of
such a list that it takes locks in ascending order, gives them back in the opposite order, and ends with
the given locks held. It is a property of the list alone, so a thread that follows its list never wants a
lock that is not above those it holds, whatever the other threads do.
-/

namespace CacheLab.WaitFor

section Order

variable {ι ρ γ : Type} [Preorder γ] {holds wants : ι → ρ → Prop} {R S : ι → ι → Prop}

/-- One party waits for another: it wants something that the other one holds. -/
def Waits (holds wants : ι → ρ → Prop) (i j : ι) : Prop := ∃ r, wants i r ∧ holds j r

/-- Nobody is related to itself through a chain. -/
def Acyclic (R : ι → ι → Prop) : Prop := ∀ i, ¬ Relation.TransGen R i i

/-- Fewer edges make no cycle. -/
theorem Acyclic.mono (hS : Acyclic S) (h : ∀ i j, R i j → S i j) : Acyclic R :=
  fun i hi => hS i (Relation.TransGen.mono h i i hi)

/-- Two parties that wait for each other are a cycle. -/
theorem not_acyclic_of_mutual {i j : ι} (hij : R i j) (hji : R j i) : ¬ Acyclic R :=
  fun h => h i (.tail (.single hij) hji)

/-- What is wanted at the start of a chain lies no higher than something held at its end. -/
theorem exists_le_of_transGen {level : ρ → γ}
    (h : ∀ i r r', wants i r → holds i r' → level r' < level r) {i j : ι}
    (hij : Relation.TransGen (Waits holds wants) i j) :
    ∃ r r', wants i r ∧ holds j r' ∧ level r ≤ level r' := by
  induction hij with
  | single hij =>
      obtain ⟨r, hw, hh⟩ := hij
      exact ⟨r, r, hw, hh, le_rfl⟩
  | tail _ hjk ih =>
      obtain ⟨r, r', hw, hh, hle⟩ := ih
      obtain ⟨r'', hw', hh'⟩ := hjk
      exact ⟨r, r'', hw, hh', hle.trans (h _ _ _ hw' hh).le⟩

/-- **Who wants only what stands above all that it holds is in no cycle.** -/
theorem acyclic_of_ordered (level : ρ → γ)
    (h : ∀ i r r', wants i r → holds i r' → level r' < level r) : Acyclic (Waits holds wants) := by
  intro i hi
  obtain ⟨r, r', hw, hh, hle⟩ := exists_le_of_transGen h hi
  exact absurd (h i r r' hw hh) (not_lt_of_ge hle)

end Order

/-! ### Lists of lock actions -/

/-- What a thread does with a lock. -/
inductive Action (Λ : Type)
  | acquire (l : Λ)
  | release (l : Λ)
  /-- Take a lock and give it back at once, or do nothing. -/
  | visit (l : Λ)
  deriving DecidableEq

variable {Λ : Type} {level : Λ → ℕ} {l : Λ} {held mid fin : List Λ} {as bs : List (Action Λ)}

/-- The actions take locks in ascending order from the held ones, give them back in the opposite order,
and end with `fin`. -/
def Follows (level : Λ → ℕ) (fin : List Λ) : List Λ → List (Action Λ) → Prop
  | held, [] => held = fin
  | held, .acquire l :: as => (∀ l' ∈ held, level l' < level l) ∧ Follows level fin (l :: held) as
  | held, .release l :: as => ∃ held', held = l :: held' ∧ Follows level fin held' as
  | held, .visit l :: as => (∀ l' ∈ held, level l' < level l) ∧ Follows level fin held as

/-- One list after another. -/
theorem Follows.append (has : Follows level mid held as) (hbs : Follows level fin mid bs) :
    Follows level fin held (as ++ bs) := by
  induction as generalizing held with
  | nil =>
      obtain rfl : held = mid := has
      exact hbs
  | cons a as ih =>
      cases a with
      | acquire l => exact ⟨has.1, ih has.2⟩
      | release l =>
          obtain ⟨held', rfl, has⟩ := has
          exact ⟨held', rfl, ih has⟩
      | visit l => exact ⟨has.1, ih has.2⟩

/-- A lock that is taken and given back. -/
theorem Follows.pair (h : ∀ l' ∈ held, level l' < level l) :
    Follows level held held [.acquire l, .release l] :=
  ⟨h, held, rfl, rfl⟩

/-- Locks that are taken and given back one after the other. -/
theorem Follows.pairs {ls : List Λ} (h : ∀ l ∈ ls, ∀ l' ∈ held, level l' < level l) :
    Follows level held held (ls.flatMap fun l => [.acquire l, .release l]) := by
  induction ls with
  | nil => rfl
  | cons l ls ih =>
      rw [List.forall_mem_cons] at h
      exact (Follows.pair h.1).append (ih h.2)

/-- A lock that is held at the end is held already or taken on the way. -/
theorem Follows.mem_or_acquire (h : Follows level fin held as) (hl : l ∈ fin) :
    l ∈ held ∨ .acquire l ∈ as := by
  induction as generalizing held with
  | nil =>
      obtain rfl : held = fin := h
      exact .inl hl
  | cons a as ih =>
      cases a with
      | acquire m =>
          rcases ih h.2 with hmem | hmem
          · rcases List.mem_cons.mp hmem with rfl | hmem
            · exact .inr List.mem_cons_self
            · exact .inl hmem
          · exact .inr (List.mem_cons_of_mem _ hmem)
      | release m =>
          obtain ⟨held', rfl, h⟩ := h
          rcases ih h with hmem | hmem
          · exact .inl (List.mem_cons_of_mem _ hmem)
          · exact .inr (List.mem_cons_of_mem _ hmem)
      | visit m =>
          rcases ih h.2 with hmem | hmem
          · exact .inl hmem
          · exact .inr (List.mem_cons_of_mem _ hmem)

/-- A thread that holds locks and has a list of actions to do. -/
structure LockThread (Λ : Type) where
  held : List Λ
  todo : List (Action Λ)

/-- The next action. A lock is taken only when it is free; `skip` decides about a visit. -/
def LockThread.next (free : Λ → Bool) (skip : Bool) (t : LockThread Λ) : Option (LockThread Λ) :=
  match t.todo with
  | [] => none
  | .acquire l :: as => if free l then some ⟨l :: t.held, as⟩ else none
  | .release _ :: as => some ⟨t.held.tail, as⟩
  | .visit l :: as => some ⟨t.held, if skip then as else .acquire l :: .release l :: as⟩

/-- The thread follows its list. -/
def LockThread.Follows (level : Λ → ℕ) (fin : List Λ) (t : LockThread Λ) : Prop :=
  WaitFor.Follows level fin t.held t.todo

variable {free : Λ → Bool} {skip : Bool} {t t' : LockThread Λ}

/-- The next action leaves a thread on its list. -/
theorem LockThread.Follows.next (h : t.Follows level fin) (hnext : t.next free skip = some t') :
    t'.Follows level fin := by
  obtain ⟨held, todo⟩ := t
  cases todo with
  | nil => cases hnext
  | cons a as =>
      cases a with
      | acquire l =>
          simp only [LockThread.next] at hnext
          split_ifs at hnext
          cases hnext
          exact h.2
      | release l =>
          cases hnext
          obtain ⟨held', rfl, has⟩ := h
          exact has
      | visit l =>
          cases hnext
          cases skip with
          | true => exact h.2
          | false => exact (Follows.pair h.1).append h.2

/-- A thread on its list wants only locks above those it holds. -/
theorem LockThread.Follows.lt_of_wants (h : t.Follows level fin)
    (hwants : t.todo.head? = some (Action.acquire l)) : ∀ l' ∈ t.held, level l' < level l := by
  obtain ⟨held, todo⟩ := t
  cases todo with
  | nil => cases hwants
  | cons a as =>
      obtain rfl : a = .acquire l := by simpa using hwants
      exact h.1

/-- A thread at the end of its list holds what the list says. -/
theorem LockThread.Follows.held_eq (h : t.Follows level fin) (htodo : t.todo = []) : t.held = fin := by
  obtain ⟨held, todo⟩ := t
  obtain rfl : todo = [] := htodo
  exact h

end CacheLab.WaitFor
