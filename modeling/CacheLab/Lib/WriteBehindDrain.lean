import CacheLab.Lib.WriteBehindSafety

/-!
# Write-behind for one key: the final walk

When no write comes in any more, somebody walks over the slots and flushes what each of them owes. This
file is about one slot during such a walk:

* `Slot.Eases` is everything that can happen to the slot but a write. It never adds a dirty entry or a
  tombstone;
* `Slot.Fits` is the part of the metadata invariant that survives when pending counts are taken back
  wholesale: the entry, or else the tombstone, has the version of the mark;
* `Slot.OwedBy js` says that the flushes `js` in hand cover what the slot owes. The walk takes the
  flushes one by one, and each rule below says why the rest still covers it.
-/

namespace CacheLab.WriteBehind.Slot

variable {V : Type} {s s' : Slot V} {op : WriteOp V} {version : ℕ}

/-- Everything but a write. -/
inductive Eases : Slot V → Slot V → Prop
  | refl (s : Slot V) : Eases s s
  | remove (s : Slot V) : Eases s s.remove
  | resolve (s : Slot V) : Eases s s.resolve
  | register (s : Slot V) : Eases s s.register
  | clean (s : Slot V) (op : WriteOp V) (version : ℕ) : Eases s (s.clean op version)
  | clearPend (s : Slot V) : Eases s s.clearPend
  | trans {s s' s'' : Slot V} (h : Eases s s') (h' : Eases s' s'') : Eases s s''

/-- Entry and tombstone exclude each other and have the version of the mark. -/
structure Fits (s : Slot V) : Prop where
  entry : ∀ e, s.entry = some e → s.mark = some e.version ∧ s.tomb = none
  tomb : ∀ t, s.tomb = some t → s.mark = some t

/-- The metadata invariant says that the slot fits. -/
theorem fits_of_meta {c : Cell V} (h : c.Meta) : c.slot.Fits :=
  ⟨h.entry_mark, fun t ht => (h.tomb_mark t ht).1⟩

/-- Pruning keeps entry, mark and tombstone, or leaves neither entry nor tombstone. -/
theorem prune_cases (s : Slot V) : s.prune = s ∨ s.prune.entry = none ∧ s.prune.tomb = none := by
  unfold prune
  split_ifs with hp he
  · exact .inl rfl
  · exact .inl rfl
  · exact .inr ⟨by simpa using he, rfl⟩

/-- Pruning keeps the fit. -/
theorem Fits.prune (h : s.Fits) : s.prune.Fits := by
  rcases prune_cases s with heq | ⟨he, ht⟩
  · rwa [heq]
  · refine ⟨fun e h' => ?_, fun t h' => ?_⟩
    · rw [he] at h'
      cases h'
    · rw [ht] at h'
      cases h'

/-- What is no write keeps the fit. -/
theorem Eases.fits (h : Eases s s') (hf : s.Fits) : s'.Fits := by
  induction h with
  | refl s => exact hf
  | remove s =>
      have hnone : Fits (⟨none, s.mark, s.tomb, s.pend⟩ : Slot V) := ⟨by simp, hf.tomb⟩
      exact hnone.prune
  | resolve s => exact Fits.prune ⟨hf.entry, hf.tomb⟩
  | register s => exact ⟨hf.entry, hf.tomb⟩
  | clean s op version =>
      refine ⟨fun e he => ?_, fun t ht => ?_⟩
      · obtain ⟨e', he', hv, -⟩ := clean_entry s op version he
        rw [clean_mark, clean_tomb, hv]
        exact hf.entry e' he'
      · rw [clean_tomb] at ht
        rw [clean_mark]
        exact hf.tomb t ht
  | clearPend s => exact Fits.prune ⟨hf.entry, hf.tomb⟩
  | trans h h' ih ih' => exact ih' (ih hf)

/-- What is no write leaves dirty what was dirty, and as it was. -/
theorem Eases.entry (h : Eases s s') {e : Held V} (he : s'.entry = some e) (hd : e.dirty = true) :
    s.entry = some e := by
  induction h with
  | refl s => exact he
  | remove s => simp at he
  | resolve s => simpa using he
  | register s => exact he
  | clean s op version =>
      obtain ⟨e', he', hv, hval, ⟨hdirty, -⟩ | ⟨hclean, -⟩⟩ := clean_entry s op version he
      · have heq : e = e' := by
          cases e
          cases e'
          simp_all
        rw [heq]
        exact he'
      · rw [hclean] at hd
        cases hd
  | clearPend s => simpa [Slot.clearPend] using he
  | trans h h' ih ih' => exact ih (ih' he)

/-- A tombstone after pruning was there before. -/
theorem tomb_of_prune {t : ℕ} (h : s.prune.tomb = some t) : s.tomb = some t := by
  rw [prune_tomb] at h
  split_ifs at h
  exact h

/-- What is no write puts up no tombstone. -/
theorem Eases.tomb (h : Eases s s') {t : ℕ} (ht : s'.tomb = some t) : s.tomb = some t := by
  induction h with
  | refl s => exact ht
  | remove s =>
      unfold Slot.remove at ht
      have hbefore := tomb_of_prune ht
      exact hbefore
  | resolve s =>
      unfold Slot.resolve at ht
      have hbefore := tomb_of_prune ht
      exact hbefore
  | register s => exact ht
  | clean s op version => rwa [clean_tomb] at ht
  | clearPend s =>
      unfold Slot.clearPend at ht
      have hbefore := tomb_of_prune ht
      exact hbefore
  | trans h h' ih ih' => exact ih (ih' ht)

/-! ### The flushes in hand -/

/-- The flushes `js` cover what the slot owes. -/
structure OwedBy (js : List (WriteOp V × ℕ)) (s : Slot V) : Prop where
  entry : ∀ e, s.entry = some e → e.dirty = true → ∃ v, (.put v, e.version) ∈ js
  tomb : ∀ t, s.tomb = some t → (.delete, t) ∈ js

variable {js js' : List (WriteOp V × ℕ)}

/-- What is no write adds nothing that is owed. -/
theorem OwedBy.ease (h : s.OwedBy js) (he : Eases s s') : s'.OwedBy js :=
  ⟨fun e hs hd => h.entry e (he.entry hs hd) hd, fun t ht => h.tomb t (he.tomb ht)⟩

/-- More flushes cover as much. -/
theorem OwedBy.mono (h : s.OwedBy js) (hjs : ∀ j ∈ js, j ∈ js') : s.OwedBy js' := by
  refine ⟨fun e he hd => ?_, fun t ht => hjs _ (h.tomb t ht)⟩
  obtain ⟨v, hv⟩ := h.entry e he hd
  exact ⟨v, hjs _ hv⟩

/-- Nothing is owed exactly when there is no dirty entry and no tombstone. -/
theorem owedBy_nil : s.OwedBy [] ↔ (∀ e, s.entry = some e → e.dirty = false) ∧ s.tomb = none := by
  constructor
  · intro h
    refine ⟨fun e he => ?_, ?_⟩
    · by_contra hd
      obtain ⟨v, hv⟩ := h.entry e he (by simpa using hd)
      cases hv
    · rw [Option.eq_none_iff_forall_ne_some]
      intro t ht
      cases h.tomb t ht
  · rintro ⟨he, ht⟩
    refine ⟨fun e hs hd => ?_, fun t hs => ?_⟩
    · rw [he e hs] at hd
      cases hd
    · rw [ht] at hs
      cases hs

/-- A stale flush covers nothing. -/
theorem OwedBy.skip (h : s.OwedBy ((op, version) :: js)) (hf : s.Fits)
    (hst : s.stale op version = true) : s.OwedBy js := by
  refine ⟨fun e he hd => ?_, fun t ht => ?_⟩
  · obtain ⟨v, hv⟩ := h.entry e he hd
    rcases List.mem_cons.mp hv with heq | hv
    · obtain ⟨rfl, rfl⟩ := Prod.mk.inj heq
      simp [stale, hf.entry e he] at hst
    · exact ⟨v, hv⟩
  · rcases List.mem_cons.mp (h.tomb t ht) with heq | ht'
    · obtain ⟨rfl, rfl⟩ := Prod.mk.inj heq
      simp [stale, hf.tomb t ht, ht] at hst
    · exact ht'

/-- A put that was flushed covers nothing once the entry is marked clean. -/
theorem OwedBy.clean {v : V} (h : s.OwedBy ((.put v, version) :: js)) :
    (s.clean (.put v) version).OwedBy js := by
  refine ⟨fun e he hd => ?_, fun t ht => ?_⟩
  · have hs := Eases.entry (.clean s (.put v) version) he hd
    obtain ⟨w, hw⟩ := h.entry e hs hd
    rcases List.mem_cons.mp hw with heq | hw
    · obtain ⟨e', he', -, -, ⟨-, hne⟩ | ⟨hclean, -⟩⟩ := clean_entry s (.put v) version he
      · exact absurd (Prod.mk.inj heq).2 (hne.resolve_left (by simp))
      · rw [hclean] at hd
        cases hd
    · exact ⟨w, hw⟩
  · rw [clean_tomb] at ht
    exact (List.mem_cons.mp (h.tomb t ht)).resolve_left (by simp)

/-- When the pending count is cleared, the tombstone goes with it. -/
theorem Fits.clearPend_tomb (h : s.Fits) : s.clearPend.tomb = none := by
  unfold clearPend
  rw [prune_tomb]
  split_ifs with hc
  · obtain ⟨e, he⟩ := Option.isSome_iff_exists.mp (hc.resolve_left (by simp))
    exact (h.entry e he).2
  · rfl

/-- A delete that was flushed covers nothing once the pending count is cleared. -/
theorem OwedBy.settle (h : s.OwedBy ((.delete, version) :: js)) (hf : s.Fits) :
    s.clearPend.OwedBy js := by
  refine ⟨fun e he hd => ?_, fun t ht => ?_⟩
  · obtain ⟨v, hv⟩ := h.entry e (Eases.entry (.clearPend s) he hd) hd
    exact ⟨v, (List.mem_cons.mp hv).resolve_left (by simp)⟩
  · rw [hf.clearPend_tomb] at ht
    cases ht

end CacheLab.WriteBehind.Slot
