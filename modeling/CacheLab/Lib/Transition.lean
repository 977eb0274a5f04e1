import Mathlib.Algebra.BigOperators.Group.List.Basic
import Mathlib.Algebra.BigOperators.Group.List.Lemmas
import Mathlib.Algebra.Order.Group.Multiset

/-!
# Runs of a partial step function

An executable transition system is a partial step function `step : σ → ℓ → Option σ` on states `σ`
and labels `ℓ`; `none` says that the label is not enabled. A label carries every choice that the
environment makes (which thread moves, whether a call to the outside fails), so a run is a list of
labels and a statement about *every interleaving* is a statement about every list.

* `run step s ls` executes `ls` from `s`;
* `Along step P s ls` says that each step of that run meets the condition `P`, evaluated in the
  state *before* the step;
* `run_invariant` is the one induction over runs: what a step that meets `P` preserves, a run whose
  steps all meet `P` preserves. `forall_reached_iff_along` is its exact form: where a step preserves
  `Inv` if and only if it meets `P`, all states of a run satisfy `Inv` if and only if all its steps
  meet `P`. In `forall_observed_iff_along` the invariant may say more than what is looked at.
* `countP_add_rank_le` bounds the length of runs by a rank, and `exists_run_done` runs to the end.
* `prefix_of_stuck` says that a run without choices that got stuck is the longest one.
* `runImage step image s ls` is the run along `ls` as another system sees it: `image` says which label
  of the other system answers a step, if any. `run_runImage` lifts a simulation of single steps, in
  which a step may go unanswered, to runs. In `run_runImages` it is a family of systems that answers, each
  of them with any number of labels.

The last section is about systems whose state holds a list of slots (threads, processes) of which
one step changes one: a sum over the slots splits into the moving slot and a rest that does not
change (`sum_map_set`), a slot is the one that moved, or new, or as before (`getElem?_set_cases`,
`getElem?_append_cases`, `getElem?_concat_cases`), and a view that hides some slots changes at one place or not at all
(`filterMap_set`, `filterMap_set_of_eq`). `rank p l i` is the place of a slot among those that satisfy `p`.
-/

namespace CacheLab.Transition

variable {σ ℓ : Type}

/-- Execute a list of labels. -/
def run (step : σ → ℓ → Option σ) : σ → List ℓ → Option σ
  | s, [] => some s
  | s, l :: ls => (step s l).bind fun s' => run step s' ls

/-- Each step of the run along `ls` meets `P` in the state in which it is taken. -/
def Along (step : σ → ℓ → Option σ) (P : σ → ℓ → Prop) : σ → List ℓ → Prop
  | _, [] => True
  | s, l :: ls => P s l ∧ ∀ s', step s l = some s' → Along step P s' ls

instance decidableAlong (step : σ → ℓ → Option σ) (P : σ → ℓ → Prop) [∀ s l, Decidable (P s l)] :
    ∀ s ls, Decidable (Along step P s ls)
  | _, [] => isTrue trivial
  | s, l :: ls =>
      match h : step s l with
      | none => decidable_of_iff (P s l) ⟨fun hp => ⟨hp, by simp [h]⟩, fun hp => hp.1⟩
      | some s' =>
          haveI := decidableAlong step P s' ls
          decidable_of_iff (P s l ∧ Along step P s' ls)
            ⟨fun hp => ⟨hp.1, by simpa [h] using hp.2⟩, fun hp => ⟨hp.1, hp.2 s' h⟩⟩

variable {step : σ → ℓ → Option σ} {P Q : σ → ℓ → Prop} {Inv : σ → Prop}

@[simp] theorem run_nil (s : σ) : run step s [] = some s := rfl

/-- A run of one more label at the front. -/
theorem run_cons_eq_some {s t : σ} {l : ℓ} {ls : List ℓ} :
    run step s (l :: ls) = some t ↔ ∃ s', step s l = some s' ∧ run step s' ls = some t := by
  simp only [run, Option.bind_eq_some_iff]

/-- A run of a concatenation is a run after a run. -/
theorem run_append_eq_some {s t : σ} {ls ms : List ℓ} :
    run step s (ls ++ ms) = some t ↔ ∃ u, run step s ls = some u ∧ run step u ms = some t := by
  induction ls generalizing s with
  | nil => simp
  | cons l ls ih =>
      rw [List.cons_append, run_cons_eq_some]
      constructor
      · rintro ⟨s', hs', h⟩
        obtain ⟨u, hu, hut⟩ := ih.mp h
        exact ⟨u, run_cons_eq_some.mpr ⟨s', hs', hu⟩, hut⟩
      · rintro ⟨u, hu, hut⟩
        obtain ⟨s', hs', h⟩ := run_cons_eq_some.mp hu
        exact ⟨s', hs', ih.mpr ⟨u, h, hut⟩⟩

/-- A weaker condition holds along the same run. -/
theorem Along.mono (hPQ : ∀ s l, P s l → Q s l) {s : σ} {ls : List ℓ} (h : Along step P s ls) :
    Along step Q s ls := by
  induction ls generalizing s with
  | nil => trivial
  | cons l ls ih => exact ⟨hPQ s l h.1, fun s' hs' => ih (h.2 s' hs')⟩

/-- Two conditions hold along a run together. -/
theorem Along.and {s : σ} {ls : List ℓ} (hP : Along step P s ls) (hQ : Along step Q s ls) :
    Along step (fun s l => P s l ∧ Q s l) s ls := by
  induction ls generalizing s with
  | nil => trivial
  | cons l ls ih => exact ⟨⟨hP.1, hQ.1⟩, fun s' hs' => ih (hP.2 s' hs') (hQ.2 s' hs')⟩

/-- What follows from an invariant and a condition on the labels holds along a run. -/
theorem along_of_invariant {R : ℓ → Prop} (hstep : ∀ s l s', R l → step s l = some s' → Inv s → Inv s')
    (hP : ∀ s l, R l → Inv s → P s l) {s : σ} {ls : List ℓ} (hls : ∀ l ∈ ls, R l) (hinv : Inv s) :
    Along step P s ls := by
  induction ls generalizing s with
  | nil => trivial
  | cons l ls ih =>
      have hl := hls l List.mem_cons_self
      refine ⟨hP s l hl hinv, fun s' hs' => ih (fun l' hl' => hls l' (List.mem_cons_of_mem l hl')) ?_⟩
      exact hstep s l s' hl hs' hinv

/-- A condition that all labels meet in all states holds along every run. -/
theorem along_of_forall {ls : List ℓ} (h : ∀ l ∈ ls, ∀ s, P s l) (s : σ) : Along step P s ls := by
  induction ls generalizing s with
  | nil => trivial
  | cons l ls ih =>
      exact ⟨h l List.mem_cons_self s, fun s' _ => ih (fun l' hl' => h l' (List.mem_cons_of_mem l hl')) s'⟩

/-- A condition along a run holds along its first part. -/
theorem Along.left {s : σ} {ls ms : List ℓ} (h : Along step P s (ls ++ ms)) : Along step P s ls := by
  induction ls generalizing s with
  | nil => trivial
  | cons l ls ih => exact ⟨h.1, fun s' hs' => ih (h.2 s' hs')⟩

/-- A condition along a run holds along its second part. -/
theorem Along.right {s t : σ} {ls ms : List ℓ} (h : Along step P s (ls ++ ms))
    (hrun : run step s ls = some t) : Along step P t ms := by
  induction ls generalizing s with
  | nil =>
      rw [run_nil, Option.some.injEq] at hrun
      exact hrun ▸ h
  | cons l ls ih =>
      obtain ⟨s', hs', hrun'⟩ := run_cons_eq_some.mp hrun
      exact ih (h.2 s' hs') hrun'

/-- What no step can repair holds of every state of a run if it holds of the last one. -/
theorem along_of_final {Q : σ → Prop} (hstep : ∀ s l s', step s l = some s' → Inv s → Inv s')
    (hback : ∀ s l s', step s l = some s' → Inv s → Q s' → Q s) {s t : σ} {ls : List ℓ}
    (hrun : run step s ls = some t) (hinv : Inv s) (hQ : Q t) :
    Q s ∧ Along step (fun s l => Q s ∧ ∀ s', step s l = some s' → Q s') s ls := by
  induction ls generalizing s with
  | nil =>
      rw [run_nil, Option.some.injEq] at hrun
      exact ⟨hrun ▸ hQ, trivial⟩
  | cons l ls ih =>
      obtain ⟨s', hs', hrun'⟩ := run_cons_eq_some.mp hrun
      obtain ⟨hs'Q, hrest⟩ := ih hrun' (hstep s l s' hs' hinv)
      have hQs := hback s l s' hs' hinv hs'Q
      have honly : ∀ u, step s l = some u → u = s' := fun u hu => Option.some.inj (hu.symm.trans hs')
      exact ⟨hQs, ⟨hQs, fun u hu => honly u hu ▸ hs'Q⟩, fun u hu => honly u hu ▸ hrest⟩

/-- In a system that has at most one step in each state, a run that got stuck is the longest one. -/
theorem prefix_of_stuck (hone : ∀ s l m s' s'', step s l = some s' → step s m = some s'' → l = m)
    {s t u : σ} {ls ms : List ℓ} (hrun : run step s ls = some t) (hstuck : ∀ l, step t l = none)
    (hother : run step s ms = some u) : ms <+: ls := by
  induction ls generalizing s ms with
  | nil =>
      obtain rfl := Option.some.inj hrun
      cases ms with
      | nil => exact List.prefix_refl []
      | cons m ms =>
          obtain ⟨s', hs', -⟩ := run_cons_eq_some.mp hother
          rw [hstuck m] at hs'
          cases hs'
  | cons l ls ih =>
      cases ms with
      | nil => exact List.nil_prefix
      | cons m ms =>
          obtain ⟨s', hs', hrest⟩ := run_cons_eq_some.mp hrun
          obtain ⟨s'', hs'', hrest'⟩ := run_cons_eq_some.mp hother
          obtain rfl := hone s l m s' s'' hs' hs''
          obtain rfl := Option.some.inj (hs'.symm.trans hs'')
          exact List.cons_prefix_cons.mpr ⟨rfl, ih hrest hrest'⟩

/-- **The run rule.** If every step that meets `P` preserves `Inv`, a run whose steps all meet `P`
preserves it. -/
theorem run_invariant (hstep : ∀ s l s', P s l → step s l = some s' → Inv s → Inv s')
    {s t : σ} {ls : List ℓ} (hrun : run step s ls = some t) (halong : Along step P s ls)
    (hinv : Inv s) : Inv t := by
  induction ls generalizing s with
  | nil =>
      rw [run_nil, Option.some.injEq] at hrun
      exact hrun ▸ hinv
  | cons l ls ih =>
      obtain ⟨s', hs', hrun'⟩ := run_cons_eq_some.mp hrun
      exact ih hrun' (halong.2 s' hs') (hstep s l s' halong.1 hs' hinv)

/-- What follows from an invariant that the steps which meet `P` preserve holds along a run whose steps
all meet `P`. -/
theorem along_of_run_invariant (hstep : ∀ s l s', P s l → step s l = some s' → Inv s → Inv s')
    (hQ : ∀ s l, P s l → Inv s → Q s l) {s : σ} {ls : List ℓ} (halong : Along step P s ls) (hinv : Inv s) :
    Along step Q s ls := by
  induction ls generalizing s with
  | nil => trivial
  | cons l ls ih =>
      refine ⟨hQ s l halong.1 hinv, fun s' hs' => ?_⟩
      exact ih (halong.2 s' hs') (hstep s l s' halong.1 hs' hinv)

/-- **The rank rule**: where no step raises the rank and the counted steps lower it, a run takes at most as
many counted steps as the rank goes down. -/
theorem countP_add_rank_le {counted : ℓ → Bool} {rank : σ → ℕ}
    (hstep : ∀ s l s', P s l → step s l = some s' → Inv s →
      Inv s' ∧ (if counted l then 1 else 0) + rank s' ≤ rank s)
    {s t : σ} {ls : List ℓ} (hrun : run step s ls = some t) (halong : Along step P s ls) (hinv : Inv s) :
    ls.countP counted + rank t ≤ rank s := by
  induction ls generalizing s with
  | nil =>
      cases hrun
      simp
  | cons l ls ih =>
      obtain ⟨s', hs, hrest⟩ := run_cons_eq_some.mp hrun
      obtain ⟨hinv', hrank⟩ := hstep s l s' halong.1 hs hinv
      have htail := ih hrest (halong.2 s' hs) hinv'
      rw [List.countP_cons]
      omega

/-- A run to the end: where every state is done or has a counted step, some run gets to a state that is
done. -/
theorem exists_run_done {counted : ℓ → Bool} {rank : σ → ℕ} {Done : σ → Prop}
    (hstep : ∀ s l s', P s l → step s l = some s' → Inv s →
      Inv s' ∧ (if counted l then 1 else 0) + rank s' ≤ rank s)
    (hnext : ∀ s, Inv s → Done s ∨ ∃ l s', counted l = true ∧ P s l ∧ step s l = some s') {s : σ}
    (hinv : Inv s) : ∃ ls t, run step s ls = some t ∧ Along step P s ls ∧ Done t := by
  induction hn : rank s using Nat.strong_induction_on generalizing s with
  | _ n ih =>
      rcases hnext s hinv with hdone | ⟨l, s', hcounted, hP, hs⟩
      · exact ⟨[], s, rfl, trivial, hdone⟩
      · obtain ⟨hinv', hrank⟩ := hstep s l s' hP hs hinv
        rw [if_pos hcounted] at hrank
        obtain ⟨ls, t, hrun, halong, hdone⟩ := ih (rank s') (by omega) hinv' rfl
        refine ⟨l :: ls, t, run_cons_eq_some.mpr ⟨s', hs, hrun⟩, ⟨hP, fun s'' hs'' => ?_⟩, hdone⟩
        obtain rfl := Option.some.inj (hs.symm.trans hs'')
        exact halong

/-- The run rule for an invariant that every step preserves. -/
theorem run_invariant_of_step (hstep : ∀ s l s', step s l = some s' → Inv s → Inv s')
    {s t : σ} {ls : List ℓ} (hrun : run step s ls = some t) (hinv : Inv s) : Inv t := by
  induction ls generalizing s with
  | nil =>
      rw [run_nil, Option.some.injEq] at hrun
      exact hrun ▸ hinv
  | cons l ls ih =>
      obtain ⟨s', hs', hrun'⟩ := run_cons_eq_some.mp hrun
      exact ih hrun' (hstep s l s' hs' hinv)

/-- **The exact run rule, for what can be observed.** The steps that meet `P` preserve `Inv`, the others make the
observation `J` fail at once. -/
theorem forall_observed_iff_along {J : σ → Prop} (hobs : ∀ s, Inv s → J s)
    (hnone : ∀ s l, Inv s → step s l = none → P s l)
    (hkeep : ∀ s l s', step s l = some s' → Inv s → P s l → Inv s')
    (hlose : ∀ s l s', step s l = some s' → Inv s → J s' → P s l) {s : σ} (hinv : Inv s) (ls : List ℓ) :
    (∀ ms t, ms <+: ls → run step s ms = some t → J t) ↔ Along step P s ls := by
  induction ls generalizing s with
  | nil =>
      refine ⟨fun _ => trivial, fun _ ms t hms hrun => ?_⟩
      rw [List.prefix_nil.mp hms, run_nil, Option.some.injEq] at hrun
      exact hrun ▸ hobs s hinv
  | cons l ls ih =>
      constructor
      · intro hall
        cases hs : step s l with
        | none => exact ⟨hnone s l hinv hs, fun s' hs' => by rw [hs] at hs'; cases hs'⟩
        | some s' =>
            have hrun : run step s [l] = some s' := run_cons_eq_some.mpr ⟨s', hs, rfl⟩
            have hP := hlose s l s' hs hinv (hall [l] s' (List.prefix_append [l] ls) hrun)
            refine ⟨hP, fun s'' hs'' => ?_⟩
            obtain rfl : s' = s'' := by rw [hs] at hs''; exact Option.some.inj hs''
            refine (ih (hkeep s l s' hs hinv hP)).mp fun ms t hms hmst => ?_
            exact hall (l :: ms) t (List.cons_prefix_cons.mpr ⟨rfl, hms⟩)
              (run_cons_eq_some.mpr ⟨s', hs, hmst⟩)
      · intro halong ms t hms hrun
        cases ms with
        | nil =>
            rw [run_nil, Option.some.injEq] at hrun
            exact hrun ▸ hobs s hinv
        | cons m ms =>
            obtain ⟨rfl, hms'⟩ := List.cons_prefix_cons.mp hms
            obtain ⟨s', hs, hmst⟩ := run_cons_eq_some.mp hrun
            exact (ih (hkeep s m s' hs hinv halong.1)).mpr (halong.2 s' hs) ms t hms' hmst

/-- **The exact run rule.** `G` is what every step preserves. -/
theorem forall_reached_iff_along {G : σ → Prop} (hG : ∀ s l s', step s l = some s' → G s → G s')
    (hnone : ∀ s l, step s l = none → P s l)
    (hstep : ∀ s l s', step s l = some s' → G s → Inv s → (Inv s' ↔ P s l)) {s : σ} (hg : G s)
    (hinv : Inv s) (ls : List ℓ) :
    (∀ ms t, ms <+: ls → run step s ms = some t → Inv t) ↔ Along step P s ls := by
  have hkeep : ∀ s l s', step s l = some s' → G s ∧ Inv s → P s l → G s' ∧ Inv s' :=
    fun s l s' hs h hP => ⟨hG s l s' hs h.1, (hstep s l s' hs h.1 h.2).mpr hP⟩
  exact forall_observed_iff_along (fun _ h => h.2) (fun s l _ => hnone s l) hkeep
    (fun s l s' hs h => (hstep s l s' hs h.1 h.2).mp) ⟨hg, hinv⟩ ls

/-! ### Tallies -/

/-- What the steps of a run amount to. -/
def tally (step : σ → ℓ → Option σ) (amount : σ → ℓ → ℕ) : σ → List ℓ → ℕ
  | _, [] => 0
  | s, l :: ls =>
      match step s l with
      | none => 0
      | some s' => amount s l + tally step amount s' ls

theorem tally_cons {amount : σ → ℓ → ℕ} {s t : σ} {l : ℓ} {ls : List ℓ} (h : step s l = some t) :
    tally step amount s (l :: ls) = amount s l + tally step amount t ls := by
  simp only [tally, h]

/-! ### Simulation -/

section Simulation

variable {σ' ℓ' : Type} {step' : σ' → ℓ' → Option σ'} {image : σ → ℓ → Option ℓ'} {R : σ → σ' → Prop}

/-- The labels with which another system answers a run. -/
def runImage (step : σ → ℓ → Option σ) (image : σ → ℓ → Option ℓ') : σ → List ℓ → List ℓ'
  | _, [] => []
  | s, l :: ls =>
      match step s l with
      | none => []
      | some s' => (image s l).toList ++ runImage step image s' ls

/-- **Simulation.** If every step is answered, or goes unanswered and keeps the relation, then every run
is answered. -/
theorem run_runImage
    (hanswer : ∀ s t l l' s', P s l → R s t → image s l = some l' → step s l = some s' →
      ∃ t', step' t l' = some t' ∧ R s' t')
    (hsilent : ∀ s t l s', P s l → R s t → image s l = none → step s l = some s' → R s' t)
    {s u : σ} {t : σ'} {ls : List ℓ} (halong : Along step P s ls) (hR : R s t)
    (hrun : run step s ls = some u) :
    ∃ v, run step' t (runImage step image s ls) = some v ∧ R u v := by
  induction ls generalizing s t with
  | nil =>
      rw [run_nil, Option.some.injEq] at hrun
      exact ⟨t, rfl, hrun ▸ hR⟩
  | cons l ls ih =>
      obtain ⟨s', hs', hrest⟩ := run_cons_eq_some.mp hrun
      simp only [runImage, hs']
      cases himage : image s l with
      | none =>
          obtain ⟨v, hv, hR'⟩ := ih (halong.2 s' hs') (hsilent s t l s' halong.1 hR himage hs') hrest
          exact ⟨v, hv, hR'⟩
      | some l' =>
          obtain ⟨t', ht', hRt'⟩ := hanswer s t l l' s' halong.1 hR himage hs'
          obtain ⟨v, hv, hR'⟩ := ih (halong.2 s' hs') hRt' hrest
          exact ⟨v, run_cons_eq_some.mpr ⟨t', ht', hv⟩, hR'⟩

/-- The labels with which another system answers a run, where it may answer a step with several labels. -/
def runImages (step : σ → ℓ → Option σ) (images : σ → ℓ → List ℓ') : σ → List ℓ → List ℓ'
  | _, [] => []
  | s, l :: ls =>
      match step s l with
      | none => []
      | some s' => images s l ++ runImages step images s' ls

/-- **Simulation by several systems.** If a family of systems answers every step, each on its own, then it
answers every run. -/
theorem run_runImages {ι : Type} {τ : ι → Type} {parts : ∀ i, τ i → ℓ' → Option (τ i)}
    {images : ι → σ → ℓ → List ℓ'} {Rel : σ → (∀ i, τ i) → Prop}
    (hanswer : ∀ s x l s', P s l → Rel s x → step s l = some s' →
      ∃ x', (∀ i, run (parts i) (x i) (images i s l) = some (x' i)) ∧ Rel s' x')
    {s u : σ} {x : ∀ i, τ i} {ls : List ℓ} (halong : Along step P s ls) (hrel : Rel s x)
    (hrun : run step s ls = some u) :
    ∃ y, (∀ i, run (parts i) (x i) (runImages step (images i) s ls) = some (y i)) ∧ Rel u y := by
  induction ls generalizing s x with
  | nil =>
      rw [run_nil, Option.some.injEq] at hrun
      exact ⟨x, fun i => rfl, hrun ▸ hrel⟩
  | cons l ls ih =>
      obtain ⟨s', hs', hrest⟩ := run_cons_eq_some.mp hrun
      obtain ⟨x', hx', hrel'⟩ := hanswer s x l s' halong.1 hrel hs'
      obtain ⟨y, hy, hrely⟩ := ih (halong.2 s' hs') hrel' hrest
      refine ⟨y, fun i => ?_, hrely⟩
      simp only [runImages, hs']
      exact run_append_eq_some.mpr ⟨x' i, hx' i, hy i⟩

end Simulation

/-! ### Views of slots -/

section Views

variable {τ τ' : Type} {f : τ → Option τ'} {l : List τ} {i : ℕ} {a b : τ}

/-- Looking up a slot after one of them changed. -/
theorem getElem?_set_cases {j : ℕ} {x : τ} (h : (l.set i b)[j]? = some x) :
    j = i ∧ x = b ∨ j ≠ i ∧ l[j]? = some x := by
  by_cases hj : j = i
  · subst hj
    rw [List.getElem?_set_self'] at h
    obtain ⟨-, -, rfl⟩ := Option.map_eq_some_iff.mp h
    exact .inl ⟨rfl, rfl⟩
  · rw [List.getElem?_set_ne (Ne.symm hj)] at h
    exact .inr ⟨hj, h⟩

/-- Looking up a slot after new ones came. -/
theorem getElem?_append_cases {new : List τ} {j : ℕ} {x : τ} (h : (l ++ new)[j]? = some x) :
    l[j]? = some x ∨ x ∈ new := by
  by_cases hj : j < l.length
  · rw [List.getElem?_append_left hj] at h
    exact .inl h
  · rw [List.getElem?_append_right (not_lt.mp hj)] at h
    exact .inr (List.mem_of_getElem? h)

/-- A slot after one more was added is one of those before, or the last. -/
theorem getElem?_concat_cases {j : ℕ} {x : τ} (h : (l ++ [a])[j]? = some x) :
    l[j]? = some x ∨ j = l.length ∧ x = a := by
  rcases lt_or_ge j l.length with hlt | hge
  · rw [List.getElem?_append_left hlt] at h
    exact .inl h
  · rw [List.getElem?_append_right hge] at h
    obtain ⟨hlast, hx⟩ := List.getElem?_eq_some_iff.mp h
    rw [List.length_singleton] at hlast
    rw [List.getElem_singleton] at hx
    exact .inr ⟨by omega, hx.symm⟩

/-- Where a shown slot stands in the view. -/
theorem getElem?_filterMap {a' : τ'} (hi : l[i]? = some a) (ha : f a = some a') :
    (l.filterMap f)[((l.take i).filterMap f).length]? = some a' := by
  induction l generalizing i with
  | nil => cases hi
  | cons x l ih =>
      cases i with
      | zero =>
          rw [List.getElem?_cons_zero, Option.some.injEq] at hi
          subst hi
          simp [ha]
      | succ i =>
          rw [List.getElem?_cons_succ] at hi
          have hrest := ih hi
          cases hx : f x <;> simpa [hx] using hrest

/-- A shown slot changes, and with it its place in the view. -/
theorem filterMap_set {a' b' : τ'} (hi : l[i]? = some a) (ha : f a = some a') (hb : f b = some b') :
    (l.set i b).filterMap f = (l.filterMap f).set ((l.take i).filterMap f).length b' := by
  induction l generalizing i with
  | nil => cases hi
  | cons x l ih =>
      cases i with
      | zero =>
          rw [List.getElem?_cons_zero, Option.some.injEq] at hi
          subst hi
          simp [ha, hb]
      | succ i =>
          rw [List.getElem?_cons_succ] at hi
          have hrest := ih hi
          cases hx : f x <;> simpa [hx] using hrest

/-- A slot changes in a way that the view does not show. -/
theorem filterMap_set_of_eq (hi : l[i]? = some a) (hab : f b = f a) :
    (l.set i b).filterMap f = l.filterMap f := by
  induction l generalizing i with
  | nil => cases hi
  | cons x l ih =>
      cases i with
      | zero =>
          rw [List.getElem?_cons_zero, Option.some.injEq] at hi
          subst hi
          rw [List.set_cons_zero, List.filterMap_cons, List.filterMap_cons, hab]
      | succ i =>
          rw [List.getElem?_cons_succ] at hi
          rw [List.set_cons_succ, List.filterMap_cons, List.filterMap_cons, ih hi]

/-- How many slots before a place satisfy a predicate: the place in the list of those that do. -/
def rank (p : τ → Bool) (l : List τ) (i : ℕ) : ℕ := (l.take i).countP p

variable {p : τ → Bool}

/-- New slots come after the old ones. -/
theorem rank_append {m : List τ} (h : i ≤ l.length) : rank p (l ++ m) i = rank p l i := by
  rw [rank, rank, List.take_append_of_le_length h]

/-- The rank at the end is the number of slots that satisfy the predicate. -/
theorem rank_length (p : τ → Bool) (l : List τ) : rank p l l.length = l.countP p := by
  rw [rank, List.take_length]

/-- Passing a slot that satisfies the predicate. -/
theorem rank_succ (h : l[i]? = some a) (ha : p a = true) : rank p l (i + 1) = rank p l i + 1 := by
  rw [rank, rank, List.take_add_one, h]
  simp [List.countP_append, ha]

/-- The rank grows. -/
theorem rank_mono {j : ℕ} (h : i ≤ j) : rank p l i ≤ rank p l j :=
  (List.take_sublist_take_left h).countP_le

/-- The rank of a slot that satisfies the predicate is a place in the list of those that do. -/
theorem rank_lt (h : l[i]? = some a) (ha : p a = true) : rank p l i < l.countP p := by
  have hlt := (List.getElem?_eq_some_iff.mp h).1
  have hle : rank p l (i + 1) ≤ rank p l l.length := rank_mono hlt
  rw [rank_succ h ha, rank_length] at hle
  exact hle

/-- Two slots that satisfy the predicate have different ranks. -/
theorem rank_injective {j : ℕ} (h : l[i]? = some a) (ha : p a = true) (h' : l[j]? = some b) (hb : p b = true)
    (heq : rank p l i = rank p l j) : i = j := by
  rcases Nat.lt_trichotomy i j with hlt | rfl | hlt
  · have hle : rank p l (i + 1) ≤ rank p l j := rank_mono hlt
    rw [rank_succ h ha] at hle
    omega
  · rfl
  · have hle : rank p l (j + 1) ≤ rank p l i := rank_mono hlt
    rw [rank_succ h' hb] at hle
    omega

end Views

/-! ### Sums over slots -/

variable {τ M : Type} [AddCommMonoid M]

/-- A sum over slots splits into one slot and a rest, and replacing the slot changes only its own
summand. -/
theorem sum_map_set (f : τ → M) {l : List τ} {i : ℕ} {a : τ} (h : l[i]? = some a) :
    ∃ rest : M, (l.map f).sum = f a + rest ∧ ∀ b, ((l.set i b).map f).sum = f b + rest := by
  induction l generalizing i with
  | nil => simp at h
  | cons x l ih =>
      cases i with
      | zero =>
          rw [List.getElem?_cons_zero, Option.some.injEq] at h
          subst h
          exact ⟨(l.map f).sum, by simp, fun b => by simp⟩
      | succ i =>
          rw [List.getElem?_cons_succ] at h
          obtain ⟨rest, hsum, hset⟩ := ih h
          refine ⟨f x + rest, ?_, fun b => ?_⟩
          · rw [List.map_cons, List.sum_cons, hsum, add_left_comm]
          · rw [List.set_cons_succ, List.map_cons, List.sum_cons, hset, add_left_comm]

/-- A member of a sum of multisets is a member of a summand. -/
theorem mem_sum_map_iff {γ : Type} {f : τ → Multiset γ} {l : List τ} {x : γ} :
    x ∈ (l.map f).sum ↔ ∃ a ∈ l, x ∈ f a := by
  induction l with
  | nil => simp
  | cons a l ih => simp [ih]

end CacheLab.Transition
