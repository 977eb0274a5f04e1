import Mathlib.Algebra.Order.BigOperators.Group.List
import Mathlib.Algebra.Order.Ring.Nat
import CacheLab.Lib.Transition

/-!
# Tours of a changing state

A reader that has to look at several parts of a state, one at a time, sees each part at a moment of its own; other
steps of the system get in between. `Tour step read s ls bs` says that `bs` is what such a reader has collected along
the run of `ls` from `s`: the `j`th answer is `read t j` in some state `t` of the run, and these states come in the
order of the parts.

What a tour says about the parts holds without any law about the steps:

* each answer was right at its moment (`Tour.seen`), so bounds that hold along the run hold for the answers;
* what grows along the run is reported between its first and its last value (`Tour.between`). A number that rises by
  at most one at a time took each value in between (`exists_visited_eq`).

`path_invariant` is the run rule for statements about the labels that led to a state, which is what a tour is.
-/

namespace CacheLab.Transition

variable {σ ℓ β : Type} {step : σ → ℓ → Option σ} {s t : σ} {ls ms : List ℓ}

/-! ### The states of a run -/

/-- The run along `ls` from `s` passes through `t`. -/
def Visited (step : σ → ℓ → Option σ) (s : σ) (ls : List ℓ) (t : σ) : Prop :=
  ∃ ms, ms <+: ls ∧ run step s ms = some t

/-- A longer run passes through the same states. -/
theorem Visited.mono (h : Visited step s ms t) (hms : ms <+: ls) : Visited step s ls t := by
  obtain ⟨ks, hks, hrun⟩ := h
  exact ⟨ks, hks.trans hms, hrun⟩

/-- **The run rule for paths**: what every step keeps, with its label added to the path, holds at the end of every
run. -/
theorem path_invariant {Inv : List ℓ → σ → Prop} (hrun : run step s ls = some t)
    (hstep : ∀ ms u l u', run step s ms = some u → step u l = some u' → Inv ms u → Inv (ms ++ [l]) u')
    (hinv : Inv [] s) : Inv ls t := by
  induction ls using List.reverseRecOn generalizing t with
  | nil =>
      rw [run_nil, Option.some.injEq] at hrun
      exact hrun ▸ hinv
  | append_singleton ls l ih =>
      obtain ⟨u, hu, hlast⟩ := run_append_eq_some.mp hrun
      obtain ⟨u', hu', hnil⟩ := run_cons_eq_some.mp hlast
      rw [run_nil, Option.some.injEq] at hnil
      exact hstep ls u l t hu (hnil ▸ hu') (ih hu)

/-- What every step keeps holds in all states of a run. -/
theorem forall_visited {Inv : σ → Prop} (hstep : ∀ u l u', step u l = some u' → Inv u → Inv u') (hinv : Inv s)
    (h : Visited step s ls t) : Inv t := by
  obtain ⟨ms, -, hrun⟩ := h
  exact run_invariant_of_step hstep hrun hinv

/-! ### Values that change along a run -/

/-- What grows with every step has grown at the end. -/
theorem le_of_along [Preorder β] {f : σ → β}
    (hgrows : Along step (fun u l => ∀ u', step u l = some u' → f u ≤ f u') s ls)
    (hrun : run step s ls = some t) : f s ≤ f t := by
  have hstep : ∀ u l u', (∀ u', step u l = some u' → f u ≤ f u') → step u l = some u' → f s ≤ f u → f s ≤ f u' := by
    intro u l u' hP hstep hle
    exact hle.trans (hP u' hstep)
  exact run_invariant hstep hrun hgrows le_rfl

/-- **A number that rises by at most one at a time** takes all values in between. -/
theorem exists_visited_eq {f : σ → ℕ} {n : ℕ}
    (hslow : Along step (fun u l => ∀ u', step u l = some u' → f u' ≤ f u + 1) s ls)
    (hrun : run step s ls = some t) (hlow : f s ≤ n) (hhigh : n ≤ f t) : ∃ u, Visited step s ls u ∧ f u = n := by
  induction ls generalizing s with
  | nil =>
      rw [run_nil, Option.some.injEq] at hrun
      subst hrun
      exact ⟨s, ⟨[], List.prefix_refl [], rfl⟩, le_antisymm hlow hhigh⟩
  | cons l ls ih =>
      rcases Nat.lt_or_eq_of_le hlow with hlt | heq
      · obtain ⟨u, hu, hrest⟩ := run_cons_eq_some.mp hrun
        have hnext := hslow.1 u hu
        obtain ⟨v, ⟨ms, hms, hv⟩, hfv⟩ := ih (hslow.2 u hu) hrest (by omega)
        exact ⟨v, ⟨l :: ms, List.cons_prefix_cons.mpr ⟨rfl, hms⟩, run_cons_eq_some.mpr ⟨u, hu, hv⟩⟩, hfv⟩
      · exact ⟨s, ⟨[], List.nil_prefix, rfl⟩, heq⟩

/-! ### Tours -/

/-- What a reader collects that looks at the parts of a state in order, each at some later moment of the run. -/
inductive Tour (step : σ → ℓ → Option σ) (read : σ → ℕ → β) (s : σ) : List ℓ → List β → Prop
  /-- Nothing was looked at. -/
  | start (ls : List ℓ) : Tour step read s ls []
  /-- The next part is looked at after `ms`. -/
  | visit {ms ls : List ℓ} {bs : List β} {t : σ} (h : Tour step read s ms bs) (hms : ms <+: ls)
      (hrun : run step s ms = some t) : Tour step read s ls (bs ++ [read t bs.length])

namespace Tour

variable {read : σ → ℕ → β} {bs : List β}

/-- Time passes. -/
theorem mono (h : Tour step read s ms bs) (hms : ms <+: ls) : Tour step read s ls bs := by
  cases h with
  | start => exact .start ls
  | visit h hks hrun => exact .visit h (hks.trans hms) hrun

/-- The part that comes next is looked at now. -/
theorem look (h : Tour step read s ls bs) (hrun : run step s ls = some t) :
    Tour step read s ls (bs ++ [read t bs.length]) :=
  .visit h (List.prefix_refl ls) hrun

/-- **Each answer was right at its moment.** -/
theorem seen (h : Tour step read s ls bs) {j : ℕ} {b : β} (hj : bs[j]? = some b) :
    ∃ t, Visited step s ls t ∧ b = read t j := by
  induction h with
  | start => cases hj
  | visit h hms hrun ih =>
      rename_i ms ls bs t
      rcases Nat.lt_trichotomy j bs.length with hlt | rfl | hgt
      · rw [List.getElem?_append_left hlt] at hj
        obtain ⟨u, hu, hb⟩ := ih hj
        exact ⟨u, hu.mono hms, hb⟩
      · rw [List.getElem?_concat_length, Option.some.injEq] at hj
        exact ⟨t, ⟨ms, hms, hrun⟩, hj.symm⟩
      · rw [List.getElem?_eq_none (by simpa using Nat.succ_le_of_lt hgt)] at hj
        cases hj

/-- **What grows along the run** is reported between its first and its last value. -/
theorem between [Preorder β] (h : Tour step read s ls bs) {j : ℕ}
    (hgrows : Along step (fun u l => ∀ u', step u l = some u' → read u j ≤ read u' j) s ls)
    (hrun : run step s ls = some t) {b : β} (hj : bs[j]? = some b) : read s j ≤ b ∧ b ≤ read t j := by
  obtain ⟨u, ⟨ms, ⟨rest, rfl⟩, hms⟩, rfl⟩ := h.seen hj
  obtain ⟨v, hv, hrest⟩ := run_append_eq_some.mp hrun
  obtain rfl : u = v := Option.some.inj (hms.symm.trans hv)
  exact ⟨le_of_along hgrows.left hms, le_of_along (hgrows.right hms) hrest⟩

end Tour

/-- Bounds on the answers bound their sum. -/
theorem sum_le_of_getElem? {f : ℕ → ℕ} {bs : List ℕ} (h : ∀ j b, bs[j]? = some b → b ≤ f j) :
    bs.sum ≤ ((List.range bs.length).map f).sum := by
  apply List.Forall₂.sum_le_sum
  rw [List.forall₂_iff_get]
  refine ⟨by simp, fun j hj _ => ?_⟩
  simpa using h j bs[j] (List.getElem?_eq_getElem hj)

/-- See `sum_le_of_getElem?`. -/
theorem le_sum_of_getElem? {f : ℕ → ℕ} {bs : List ℕ} (h : ∀ j b, bs[j]? = some b → f j ≤ b) :
    ((List.range bs.length).map f).sum ≤ bs.sum := by
  apply List.Forall₂.sum_le_sum
  rw [List.forall₂_iff_get]
  refine ⟨by simp, fun j _ hj => ?_⟩
  simpa using h j bs[j] (List.getElem?_eq_getElem hj)

end CacheLab.Transition
