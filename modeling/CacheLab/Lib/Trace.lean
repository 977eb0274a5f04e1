import CacheLab.Lib.Transition

/-!
# Traces of a run

What an observer notes of a run, step by step, is its trace. A statement about the past of a run
("between these two steps there was a third one") is a statement about the trace.

* `observe step note s ls` is the trace of the run of `ls` from `s`, oldest note first;
* `observe_invariant` is the run rule for invariants that relate a state to the trace that led to it;
* `InOrder ps tr` says that the trace has notes that meet the predicates `ps`, in this order. It is
  decidable, and it only grows with the trace;
* `Noted Q tr` says that each note of the trace meets `Q` with the notes before it.
-/

namespace CacheLab.Transition

variable {σ ℓ ω : Type}

/-- The notes of a run, oldest first. -/
def observe (step : σ → ℓ → Option σ) (note : σ → ℓ → σ → List ω) : σ → List ℓ → List ω
  | _, [] => []
  | s, l :: ls =>
      match step s l with
      | none => []
      | some s' => note s l s' ++ observe step note s' ls

section Observe

variable {step : σ → ℓ → Option σ} {note : σ → ℓ → σ → List ω} {P : σ → ℓ → Prop}
  {Inv : List ω → σ → Prop}

/-- The notes of a run with one more step at the front. -/
theorem observe_cons {s s' : σ} {l : ℓ} (h : step s l = some s') (ls : List ℓ) :
    observe step note s (l :: ls) = note s l s' ++ observe step note s' ls := by
  simp only [observe, h]

/-- **The run rule for traces.** If every step that meets `P` keeps `Inv` while its notes are added to
the trace, a run whose steps all meet `P` keeps it. -/
theorem observe_invariant
    (hstep : ∀ tr s l s', P s l → step s l = some s' → Inv tr s → Inv (tr ++ note s l s') s')
    {tr : List ω} {s t : σ} {ls : List ℓ} (hrun : run step s ls = some t) (halong : Along step P s ls)
    (hinv : Inv tr s) : Inv (tr ++ observe step note s ls) t := by
  induction ls generalizing s tr with
  | nil =>
      rw [run_nil, Option.some.injEq] at hrun
      rw [observe, List.append_nil]
      exact hrun ▸ hinv
  | cons l ls ih =>
      obtain ⟨s', hs', hrun'⟩ := run_cons_eq_some.mp hrun
      rw [observe_cons hs', ← List.append_assoc]
      exact ih hrun' (halong.2 s' hs') (hstep tr s l s' halong.1 hs' hinv)

/-- **The notes of a run and the steps along it**: if the notes of a step all meet `p` just when the step meets `P`,
the notes of a run do just when its steps do. -/
theorem forall_observe_iff {p : ω → Prop}
    (hnote : ∀ s l s', step s l = some s' → ((∀ x ∈ note s l s', p x) ↔ P s l)) {s t : σ} {ls : List ℓ}
    (hrun : run step s ls = some t) : (∀ x ∈ observe step note s ls, p x) ↔ Along step P s ls := by
  induction ls generalizing s with
  | nil => exact iff_of_true (fun x hx => by cases hx) trivial
  | cons l ls ih =>
      obtain ⟨s', hs', hrun'⟩ := run_cons_eq_some.mp hrun
      rw [observe_cons hs']
      constructor
      · intro h
        refine ⟨(hnote s l s' hs').mp fun x hx => h x (List.mem_append_left _ hx), fun u hu => ?_⟩
        obtain rfl := Option.some.inj (hs'.symm.trans hu)
        exact (ih hrun').mp fun x hx => h x (List.mem_append_right _ hx)
      · rintro ⟨hl, hrest⟩ x hx
        rcases List.mem_append.mp hx with hx | hx
        · exact (hnote s l s' hs').mpr hl x hx
        · exact (ih hrun').mpr (hrest s' hs') x hx

/-- The run rule for an invariant that every step keeps. -/
theorem observe_invariant_of_step
    (hstep : ∀ tr s l s', step s l = some s' → Inv tr s → Inv (tr ++ note s l s') s') {s t : σ}
    {ls : List ℓ} (hrun : run step s ls = some t) (hinv : Inv [] s) :
    Inv (observe step note s ls) t :=
  observe_invariant (P := fun _ _ => True) (fun tr s l s' _ hs hi => hstep tr s l s' hs hi) hrun
    (along_of_forall (fun _ _ _ => trivial) s) hinv

end Observe

/-! ### Notes in order -/

/-- The trace has notes that meet the predicates, in this order. -/
def InOrder : List (ω → Bool) → List ω → Prop
  | [], _ => True
  | _ :: _, [] => False
  | p :: ps, x :: xs => p x = true ∧ InOrder ps xs ∨ InOrder (p :: ps) xs

instance decidableInOrder : ∀ (ps : List (ω → Bool)) (tr : List ω), Decidable (InOrder ps tr)
  | [], tr => decidable_of_iff True (by rw [InOrder])
  | _ :: _, [] => isFalse id
  | p :: ps, x :: xs =>
      haveI := decidableInOrder ps xs
      haveI := decidableInOrder (p :: ps) xs
      inferInstanceAs (Decidable (p x = true ∧ InOrder ps xs ∨ InOrder (p :: ps) xs))

variable {p q : ω → Bool} {ps qs : List (ω → Bool)} {xs ys : List ω}

/-- One predicate: some note meets it. -/
theorem inOrder_singleton : InOrder [p] xs ↔ ∃ x ∈ xs, p x := by
  induction xs with
  | nil => simp [InOrder]
  | cons x xs ih => simp [InOrder, ih]

/-- Some note meets the first predicate. -/
theorem InOrder.exists_head (h : InOrder (p :: ps) xs) : ∃ x ∈ xs, p x := by
  induction xs with
  | nil => exact h.elim
  | cons x xs ih =>
      rcases h with ⟨hx, -⟩ | h
      · exact ⟨x, List.mem_cons_self, hx⟩
      · obtain ⟨y, hy, hpy⟩ := ih h
        exact ⟨y, List.mem_cons_of_mem x hy, hpy⟩

/-- Earlier notes change nothing. -/
theorem InOrder.append_left (h : InOrder ps xs) : InOrder ps (ys ++ xs) := by
  cases ps with
  | nil =>
      unfold InOrder
      trivial
  | cons p ps =>
      induction ys with
      | nil => exact h
      | cons y ys ih => exact .inr ih

/-- Notes in order, and after them more notes in order. -/
theorem InOrder.append (h : InOrder ps xs) (h' : InOrder qs ys) : InOrder (ps ++ qs) (xs ++ ys) := by
  induction xs generalizing ps with
  | nil =>
      cases ps with
      | nil => exact h'
      | cons p ps => exact h.elim
  | cons x xs ih =>
      cases ps with
      | nil => exact h'.append_left
      | cons p ps =>
          rcases h with ⟨hx, h⟩ | h
          · exact .inl ⟨hx, ih h⟩
          · exact .inr (ih h)

/-- A note and, at some later place, another one. -/
theorem inOrder_pair {x y : ω} (hx : x ∈ xs) (hp : p x) (hq : q y) : InOrder [p, q] (xs ++ y :: ys) := by
  have hfirst : InOrder [p] xs := inOrder_singleton.mpr ⟨x, hx, hp⟩
  have hsecond : InOrder [q] (y :: ys) := inOrder_singleton.mpr ⟨y, List.mem_cons_self, hq⟩
  exact hfirst.append hsecond

/-- Later notes change nothing. -/
theorem InOrder.append_right (h : InOrder ps xs) (ys : List ω) : InOrder ps (xs ++ ys) := by
  have := h.append (InOrder.eq_1 ys ▸ trivial : InOrder [] ys)
  rwa [List.append_nil] at this

/-- One more note at the end. -/
theorem InOrder.concat (h : InOrder ps xs) {y : ω} (hy : p y) : InOrder (ps ++ [p]) (xs ++ [y]) :=
  h.append (inOrder_singleton.mpr ⟨y, List.mem_singleton_self y, hy⟩)

/-- Two notes in order, the second of which is not the last of the trace, are in order before it. -/
theorem inOrder_pair_concat {y : ω} :
    InOrder [p, q] (xs ++ [y]) ↔ InOrder [p, q] xs ∨ (∃ x ∈ xs, p x) ∧ q y := by
  induction xs with
  | nil => simp [InOrder]
  | cons x xs ih =>
      have hone : InOrder [q] (xs ++ [y]) ↔ InOrder [q] xs ∨ q y := by
        simp only [inOrder_singleton, List.mem_append, List.mem_singleton, or_and_right, exists_or,
          exists_eq_left]
      show p x ∧ InOrder [q] (xs ++ [y]) ∨ InOrder [p, q] (xs ++ [y]) ↔
        (p x ∧ InOrder [q] xs ∨ InOrder [p, q] xs) ∨ (∃ z ∈ x :: xs, p z) ∧ q y
      rw [hone, ih, List.exists_mem_cons_iff]
      constructor
      · rintro (⟨hx, hq | hy⟩ | hin | ⟨hz, hy⟩)
        · exact .inl (.inl ⟨hx, hq⟩)
        · exact .inr ⟨.inl hx, hy⟩
        · exact .inl (.inr hin)
        · exact .inr ⟨.inr hz, hy⟩
      · rintro ((⟨hx, hq⟩ | hin) | ⟨hx | hz, hy⟩)
        · exact .inl ⟨hx, .inl hq⟩
        · exact .inr (.inl hin)
        · exact .inl ⟨hx, .inr hy⟩
        · exact .inr (.inr ⟨hz, hy⟩)

/-! ### Notes and what went before them -/

/-- Each note of the trace meets `Q` with the notes before it. -/
def Noted (Q : List ω → ω → Prop) (tr : List ω) : Prop := ∀ before x after, tr = before ++ x :: after → Q before x

variable {Q R : List ω → ω → Prop}

/-- The notes of a trace by their places. -/
theorem noted_iff_getElem :
    Noted Q xs ↔ ∀ (n : ℕ) (h : n < xs.length), Q (xs.take n) xs[n] := by
  constructor
  · intro hnoted n hn
    refine hnoted _ _ (xs.drop (n + 1)) ?_
    rw [← List.drop_eq_getElem_cons hn, List.take_append_drop]
  · rintro hall before x after rfl
    have := hall before.length (by simp)
    rwa [List.take_left, List.getElem_append_right (le_refl _), List.getElem_cons,
      dif_pos (Nat.sub_self _)] at this

instance decidableNoted [∀ before x, Decidable (Q before x)] (tr : List ω) : Decidable (Noted Q tr) :=
  decidable_of_iff _ noted_iff_getElem.symm

/-- The empty trace. -/
theorem noted_nil : Noted Q [] := by
  intro before x after h
  cases before <;> cases h

/-- A trace with one more note is split at that note or before it. -/
theorem concat_eq_append_cons {y x : ω} {before after : List ω} :
    xs ++ [y] = before ++ x :: after ↔
      (before = xs ∧ x = y ∧ after = []) ∨ ∃ rest, after = rest ++ [y] ∧ xs = before ++ x :: rest := by
  constructor
  · intro h
    rcases List.eq_nil_or_concat' after with rfl | ⟨rest, z, rfl⟩
    · obtain ⟨h1, h2⟩ := List.append_inj' h rfl
      exact .inl ⟨h1.symm, (List.cons.inj h2).1.symm, rfl⟩
    · rw [← List.cons_append, ← List.append_assoc] at h
      obtain ⟨h1, h2⟩ := List.append_inj' h rfl
      exact .inr ⟨rest, by rw [(List.cons.inj h2).1], h1⟩
  · rintro (⟨rfl, rfl, rfl⟩ | ⟨rest, rfl, rfl⟩)
    · rfl
    · simp

/-- Two notes of a trace: they are one, or one of them comes first. -/
theorem split_cases {x y : ω} {a b c d : List ω} (h : a ++ x :: b = c ++ y :: d) :
    (a = c ∧ x = y ∧ b = d) ∨ (∃ m, c = a ++ x :: m ∧ b = m ++ y :: d) ∨
      ∃ m, a = c ++ y :: m ∧ d = m ++ x :: b := by
  rcases List.append_eq_append_iff.mp h with ⟨m, hc, hm⟩ | ⟨m, ha, hm⟩
  · cases m with
    | nil => exact .inl ⟨by simpa using hc.symm, List.cons.inj hm⟩
    | cons z m =>
        obtain ⟨rfl, hb⟩ := List.cons.inj hm
        exact .inr (.inl ⟨m, hc, hb⟩)
  · cases m with
    | nil => exact .inl ⟨by simpa using ha, (List.cons.inj hm).1.symm, (List.cons.inj hm).2.symm⟩
    | cons z m =>
        obtain ⟨rfl, hd⟩ := List.cons.inj hm
        exact .inr (.inr ⟨m, ha, hd⟩)

/-- One more note. -/
theorem noted_concat {y : ω} : Noted Q (xs ++ [y]) ↔ Noted Q xs ∧ Q xs y := by
  constructor
  · intro h
    refine ⟨fun before x after hx => h before x (after ++ [y]) ?_, h xs y [] rfl⟩
    rw [hx, List.append_assoc, List.cons_append]
  · rintro ⟨h, hy⟩ before x after hsplit
    rcases concat_eq_append_cons.mp hsplit with ⟨rfl, rfl, -⟩ | ⟨rest, -, hxs⟩
    · exact hy
    · exact h before x rest hxs

/-- What holds along a trace holds along its first part. -/
theorem Noted.left (h : Noted Q (xs ++ ys)) : Noted Q xs := by
  intro before x after hx
  refine h before x (after ++ ys) ?_
  rw [hx, List.append_assoc, List.cons_append]

end CacheLab.Transition
