import CacheLab.Lib.WriteBehind

/-!
# Write-behind for one key: the invariants

Each invariant is a structure on cells, each is preserved by the moves that its row of the table in
`Lib/WriteBehind.lean` allows, and each later one uses the earlier ones.
-/

namespace CacheLab.WriteBehind.Cell

variable {V : Type} {p : Permit} {c c' : Cell V}

/-! ### The metadata -/

/-- **The metadata invariant**: the pending count is the number of outstanding jobs, the entry has the
version of the mark and excludes a tombstone, a tombstone has the version of the mark and a job, and
a mark is referred to by an entry or a job. -/
structure Meta (c : Cell V) : Prop where
  pend_eq : c.slot.pend = if c.jobs.card = 0 then none else some c.jobs.card
  entry_mark : ∀ e, c.slot.entry = some e → c.slot.mark = some e.version ∧ c.slot.tomb = none
  tomb_mark : ∀ t, c.slot.tomb = some t →
    c.slot.mark = some t ∧ c.slot.entry = none ∧ 0 < c.jobs.card
  mark_used : ∀ m, c.slot.mark = some m → c.slot.entry.isSome ∨ 0 < c.jobs.card

/-- The pending count as a number. -/
theorem Meta.pend_getD (h : c.Meta) : c.slot.pend.getD 0 = c.jobs.card := by
  rw [h.pend_eq]
  split_ifs with hc
  · exact hc.symm
  · rfl

/-- Removing the entry keeps the metadata. -/
theorem Meta.remove (h : c.Meta) : Meta { c with slot := c.slot.remove } where
  pend_eq := by simpa using h.pend_eq
  entry_mark e he := by simp at he
  tomb_mark t ht := by
    simp only [Slot.remove_tomb, Slot.remove_mark, h.pend_getD] at ht ⊢
    split_ifs at ht ⊢ with hc
    exact ⟨(h.tomb_mark t ht).1, by simp, hc⟩
  mark_used m hm := by
    simp only [Slot.remove_mark, h.pend_getD] at hm
    split_ifs at hm with hc
    exact .inr hc

/-- Releasing one count keeps the metadata. -/
theorem Meta.resolve (h : c.Meta) {j : Stage × Flush V} {r : Multiset (Stage × Flush V)}
    (hj : c.jobs = j ::ₘ r) : Meta { c with slot := c.slot.resolve, jobs := r } where
  pend_eq := by
    have hr : c.slot.pend.getD 0 - 1 = r.card := by simp [h.pend_getD, hj]
    show c.slot.resolve.pend = if r.card = 0 then none else some r.card
    rw [Slot.resolve_pend, hr]
    split_ifs with h1 h2 h2 <;> first | rfl | omega
  entry_mark e he := by
    rw [Slot.resolve_entry] at he
    simp only [Slot.resolve_mark, Slot.resolve_tomb, he, Option.isSome_some, or_true, if_true]
    exact h.entry_mark e he
  tomb_mark t ht := by
    have hr : c.slot.pend.getD 0 - 1 = r.card := by simp [h.pend_getD, hj]
    simp only [Slot.resolve_tomb, Slot.resolve_mark, Slot.resolve_entry, hr] at ht ⊢
    split_ifs at ht ⊢ with hc
    obtain ⟨hm, he, -⟩ := h.tomb_mark t ht
    exact ⟨hm, he, by simpa [he] using hc⟩
  mark_used m hm := by
    have hr : c.slot.pend.getD 0 - 1 = r.card := by simp [h.pend_getD, hj]
    simp only [Slot.resolve_mark, Slot.resolve_entry, hr] at hm ⊢
    split_ifs at hm with hc
    exact hc.symm

/-- The metadata does not see the stages of the jobs, the source or the writes. -/
theorem Meta.congr (h : c.Meta) (hs : c'.slot = c.slot) (hj : c'.jobs.card = c.jobs.card) : c'.Meta where
  pend_eq := by rw [hs, hj, h.pend_eq]
  entry_mark e he := by
    rw [hs] at he ⊢
    exact h.entry_mark e he
  tomb_mark t ht := by
    rw [hs] at ht ⊢
    rw [hj]
    exact h.tomb_mark t ht
  mark_used m hm := by
    rw [hs] at hm ⊢
    rw [hj]
    exact h.mark_used m hm

/-- Marking an entry clean keeps the metadata. -/
theorem Meta.clean (h : c.Meta) (op : WriteOp V) (version : ℕ) :
    Meta { c with slot := c.slot.clean op version } where
  pend_eq := by simpa using h.pend_eq
  entry_mark e he := by
    obtain ⟨e', he', hv, -⟩ := c.slot.clean_entry op version he
    simpa [hv] using h.entry_mark e' he'
  tomb_mark t ht := by
    rw [Slot.clean_tomb] at ht
    obtain ⟨hm, he, hc⟩ := h.tomb_mark t ht
    refine ⟨by simpa using hm, ?_, hc⟩
    rw [← Option.isNone_iff_eq_none, ← Option.not_isSome, Slot.clean_entry_isSome, he]
    rfl
  mark_used m hm := by simpa using h.mark_used m (by simpa using hm)

/-- **The metadata is kept by every move.** -/
theorem Meta.step (h : c.Meta) (hs : Step p c c') : c'.Meta := by
  cases hs with
  | advance n hn => exact h.congr rfl rfl
  | drop hd => exact h.remove
  | store v evicted hl hd =>
      cases evicted with
      | false =>
          exact ⟨by simp [h.pend_getD], by simp +contextual [Slot.store], by simp, by simp⟩
      | true =>
          exact ⟨by simp [h.pend_getD], by simp, by simp, by simp⟩
  | bury =>
      simp only [Slot.bury_remove]
      exact ⟨by simp [h.pend_getD], by simp, by simp +contextual, by simp⟩
  | storeNow v evicted src hp hj hd =>
      have hpend : c.slot.pend = none := by simpa [hj] using h.pend_eq
      cases evicted with
      | false => exact ⟨by simp [hj, hpend], by simp +contextual [Slot.store], by simp, by simp⟩
      | true =>
          exact ⟨by simp [hj, hpend], by simp, by simp, by simp [Slot.remove_mark, hpend]⟩
  | eraseNow src hp hj => exact h.remove.congr rfl rfl
  | check f r hj hst => exact h.congr rfl (by simp [hj])
  | skip f r hj hst hf => exact h.resolve hj
  | apply f r hj ho => exact h.congr rfl (by simp [hj])
  | retry f r hj => exact h.congr rfl (by simp [hj])
  | giveUp f r hj hp => exact h.congr rfl (by simp [hj])
  | release f r hj hf => exact h.resolve hj
  | settle f r hj hf => exact (h.clean f.op f.version).resolve hj
  | again f hf ho =>
      refine ⟨by simp [h.pend_getD], by simpa using h.entry_mark, ?_, by simp⟩
      intro t ht
      obtain ⟨hm, he, -⟩ := h.tomb_mark t ht
      exact ⟨hm, he, by simp⟩

/-! ### Versions identify writes -/

/-- The outstanding jobs, whatever their stage. -/
def flushes (c : Cell V) : Multiset (Flush V) := c.jobs.map Prod.snd

/-- A job as it has to be when the mark is `m` and the last write is `o`, `op`: not newer than
either, and equal to one exactly when it is equal to the other. -/
structure Fits (m o : ℕ) (op : WriteOp V) (f : Flush V) : Prop where
  origin_le : f.origin ≤ o
  version_le : f.version ≤ m
  same : f.version = m ↔ f.origin = o
  op_eq : f.origin = o → f.op = op

/-- **The identity invariant**: a mark outlives every outstanding job of its key, versions of
outstanding jobs agree with the order of their writes, and entry and tombstone are what the last
write left. -/
structure Ident (c : Cell V) : Prop where
  last_lt : ∀ o op, c.last = some (o, op) → o < c.clock
  marked : ∀ f ∈ c.flushes, ∃ m o op, c.slot.mark = some m ∧ c.last = some (o, op) ∧ Fits m o op f
  distinct : ∀ f ∈ c.flushes, ∀ g ∈ c.flushes, f.version = g.version ↔ f.origin = g.origin
  entry_last : ∀ e, c.slot.entry = some e → ∃ o, c.last = some (o, WriteOp.put e.value)
  tomb_last : c.slot.tomb.isSome → ∃ o, c.last = some (o, WriteOp.delete)
  buried : c.slot.mark.isSome → ∀ o, c.last = some (o, WriteOp.delete) → c.slot.tomb.isSome

/-- What an outstanding job has to do with a known last write. -/
theorem Ident.fits (h : c.Ident) {f : Flush V} (hf : f ∈ c.flushes) {o : ℕ} {op : WriteOp V}
    (hl : c.last = some (o, op)) : ∃ m, c.slot.mark = some m ∧ Fits m o op f := by
  obtain ⟨m, o', op', hm, hl', hfits⟩ := h.marked f hf
  obtain ⟨rfl, rfl⟩ : o' = o ∧ op' = op := by simpa [hl] using hl'.symm
  exact ⟨m, hm, hfits⟩

/-- **Staleness is exact**: an outstanding job is stale if and only if its write is not the last. -/
theorem Ident.stale_eq (h : c.Ident) (hm : c.Meta) {f : Flush V} (hf : f ∈ c.flushes) {o : ℕ}
    {op : WriteOp V} (hlast : c.last = some (o, op)) :
    c.slot.stale f.op f.version = decide (f.origin ≠ o) := by
  obtain ⟨m, hmark, hfits⟩ := h.fits hf hlast
  by_cases ho : f.origin = o
  · have hop := hfits.op_eq ho
    have hv := hfits.same.mpr ho
    cases op with
    | put v =>
        have htomb : c.slot.tomb = none := by
          by_contra hne
          obtain ⟨o'', ho''⟩ := h.tomb_last (Option.isSome_iff_ne_none.mpr hne)
          simp [hlast] at ho''
        simp [Slot.stale, hop, hmark, hv, htomb, ho]
    | delete =>
        obtain ⟨t, ht⟩ := Option.isSome_iff_exists.mp (h.buried (by simp [hmark]) o hlast)
        have htm : t = m := by simpa [hmark] using (hm.tomb_mark t ht).1.symm
        simp [Slot.stale, hop, hmark, hv, ht, htm, ho]
  · have hv : f.version ≠ m := fun hv => ho (hfits.same.mp hv)
    have hne : m ≠ f.version := fun e => hv e.symm
    cases hop : f.op <;> simp [Slot.stale, hmark, hne, ho]

/-- Identity depends on the flushes alone, not on their stages or the source. -/
theorem Ident.congr (h : c.Ident) (hs : c'.slot = c.slot) (hj : c'.flushes = c.flushes)
    (hl : c'.last = c.last) (hc : c.clock ≤ c'.clock) : c'.Ident where
  last_lt o op ho := lt_of_lt_of_le (h.last_lt o op (hl ▸ ho)) hc
  marked := by rw [hs, hj, hl]; exact h.marked
  distinct := by rw [hj]; exact h.distinct
  entry_last := by rw [hs, hl]; exact h.entry_last
  tomb_last := by rw [hs, hl]; exact h.tomb_last
  buried := by rw [hs, hl]; exact h.buried

/-- Identity survives a change of the slot that keeps the mark while jobs are outstanding, drops mark
and tombstone together and invents no entry. -/
theorem Ident.of_slot (h : c.Ident) (hl : c'.last = c.last) (hc : c'.clock = c.clock)
    (hj : c'.flushes ≤ c.flushes) (hmark : c'.flushes ≠ 0 → c'.slot.mark = c.slot.mark)
    (hentry : ∀ e, c'.slot.entry = some e → ∃ e', c.slot.entry = some e' ∧ e.value = e'.value)
    (hboth : (c'.slot.mark = c.slot.mark ∧ c'.slot.tomb = c.slot.tomb) ∨
      (c'.slot.mark = none ∧ c'.slot.tomb = none)) : c'.Ident where
  last_lt o op ho := by
    rw [hc]
    exact h.last_lt o op (hl ▸ ho)
  marked f hf := by
    rw [hl, hmark (by rintro h0; simp [h0] at hf)]
    exact h.marked f (Multiset.mem_of_le hj hf)
  distinct f hf g hg := h.distinct f (Multiset.mem_of_le hj hf) g (Multiset.mem_of_le hj hg)
  entry_last e he := by
    obtain ⟨e', he', hv⟩ := hentry e he
    rw [hl, hv]
    exact h.entry_last e' he'
  tomb_last ht := by
    rw [hl]
    rcases hboth with ⟨-, h2⟩ | ⟨-, h2⟩
    · exact h.tomb_last (h2 ▸ ht)
    · simp [h2] at ht
  buried hm o ho := by
    rcases hboth with ⟨h1, h2⟩ | ⟨h1, -⟩
    · rw [h2]
      exact h.buried (h1 ▸ hm) o (hl ▸ ho)
    · simp [h1] at hm

/-- Outstanding jobs are older than the next write, by position and by version. -/
theorem Ident.lt_next (h : c.Ident) {f : Flush V} (hf : f ∈ c.flushes) :
    f.origin < c.clock ∧ f.version < c.slot.next := by
  obtain ⟨m, o, op, hm, ho, hfits⟩ := h.marked f hf
  refine ⟨lt_of_le_of_lt hfits.origin_le (h.last_lt o op ho), ?_⟩
  rw [Slot.next, hm]
  exact Nat.lt_succ_of_le hfits.version_le

/-- A new write with the next version and a position above all others. -/
theorem Ident.write (h : c.Ident) {op : WriteOp V} (hl : c'.last = some (c.clock, op))
    (hc : c.clock < c'.clock) (hmark : c'.slot.mark = some c.slot.next)
    (hj : c'.flushes = ⟨c.slot.next, op, c.clock⟩ ::ₘ c.flushes)
    (hentry : ∀ e, c'.slot.entry = some e → op = .put e.value)
    (htomb : c'.slot.tomb.isSome ↔ op = .delete) : c'.Ident where
  last_lt o op' ho := by
    obtain ⟨rfl, -⟩ : c.clock = o ∧ op = op' := by simpa [hl] using ho
    exact hc
  marked f hf := by
    refine ⟨c.slot.next, c.clock, op, hmark, hl, ?_⟩
    rw [hj, Multiset.mem_cons] at hf
    rcases hf with rfl | hf
    · exact ⟨le_rfl, le_rfl, by simp, fun _ => rfl⟩
    · obtain ⟨hlt, hvlt⟩ := h.lt_next hf
      exact ⟨hlt.le, hvlt.le, by omega, by omega⟩
  distinct f hf g hg := by
    rw [hj, Multiset.mem_cons] at hf hg
    rcases hf with rfl | hf <;> rcases hg with rfl | hg
    · simp
    · have := h.lt_next hg
      show c.slot.next = g.version ↔ c.clock = g.origin
      omega
    · have := h.lt_next hf
      show f.version = c.slot.next ↔ f.origin = c.clock
      omega
    · exact h.distinct f hf g hg
  entry_last e he := ⟨c.clock, by rw [hl, hentry e he]⟩
  tomb_last ht := ⟨c.clock, by rw [hl, htomb.mp ht]⟩
  buried _ o ho := by
    have hop : op = .delete := by
      rw [hl] at ho
      simpa using (Prod.mk.inj (Option.some.inj ho)).2
    exact htomb.mpr hop

/-- The flushes after a job changed its stage. -/
theorem flushes_of_cons {st : Stage} {f : Flush V} {r : Multiset (Stage × Flush V)}
    (hj : c.jobs = (st, f) ::ₘ r) : c.flushes = f ::ₘ r.map Prod.snd := by
  simp [flushes, hj]

/-- Releasing a count keeps the identity: the mark goes only with the last job. -/
theorem Ident.resolve (h : c.Ident) (hm : c.Meta) {j : Stage × Flush V}
    {r : Multiset (Stage × Flush V)} (hj : c.jobs = j ::ₘ r) :
    Ident { c with slot := c.slot.resolve, jobs := r } := by
  have hr : c.slot.pend.getD 0 - 1 = r.card := by simp [hm.pend_getD, hj]
  refine h.of_slot rfl rfl ?_ ?_ ?_ ?_
  · simp [flushes, hj, Multiset.le_cons_self]
  · intro hne
    have hpos : 0 < r.card := by
      rw [Multiset.card_pos]
      rintro rfl
      exact hne rfl
    simp [Slot.resolve_mark, hr, hpos]
  · intro e he
    exact ⟨e, by simpa using he, rfl⟩
  · by_cases hk : 0 < c.slot.pend.getD 0 - 1 ∨ c.slot.entry.isSome
    · exact .inl ⟨by simp only [Slot.resolve_mark, if_pos hk], by simp only [Slot.resolve_tomb, if_pos hk]⟩
    · exact .inr ⟨by simp only [Slot.resolve_mark, if_neg hk], by simp only [Slot.resolve_tomb, if_neg hk]⟩

/-- Marking an entry clean keeps the identity. -/
theorem Ident.clean (h : c.Ident) (op : WriteOp V) (version : ℕ) :
    Ident { c with slot := c.slot.clean op version } := by
  refine h.of_slot rfl rfl le_rfl (fun _ => by simp) ?_ (.inl ⟨by simp, by simp⟩)
  intro e he
  obtain ⟨e', he', -, hv, -⟩ := c.slot.clean_entry op version he
  exact ⟨e', he', hv⟩

/-- Removing the entry keeps the identity: outstanding jobs keep the mark. -/
theorem Ident.remove (h : c.Ident) (hm : c.Meta) : Ident { c with slot := c.slot.remove } := by
  refine h.of_slot rfl rfl le_rfl ?_ (by simp) ?_
  · intro hne
    have hpos : 0 < c.jobs.card := by
      rw [Multiset.card_pos]
      rintro h0
      exact hne (by simp [flushes, h0])
    simp [Slot.remove_mark, hm.pend_getD, hpos]
  · by_cases hk : 0 < c.slot.pend.getD 0
    · exact .inl ⟨by simp only [Slot.remove_mark, if_pos hk], by simp only [Slot.remove_tomb, if_pos hk]⟩
    · exact .inr ⟨by simp only [Slot.remove_mark, if_neg hk], by simp only [Slot.remove_tomb, if_neg hk]⟩

/-- One more job for what the last write left keeps the identity. -/
theorem Ident.again (h : c.Ident) (hm : c.Meta) {f : Flush V}
    (hf : (∃ e, c.slot.entry = some e ∧ e.version = f.version ∧ f.op = .put e.value) ∨
      (c.slot.tomb = some f.version ∧ f.op = .delete))
    (ho : ∀ o op, c.last = some (o, op) → f.origin = o) :
    Ident { c with slot := c.slot.register, jobs := (.waiting, f) ::ₘ c.jobs } := by
  obtain ⟨hmark, o, hlast⟩ : c.slot.mark = some f.version ∧ ∃ o, c.last = some (o, f.op) := by
    rcases hf with ⟨e, he, hv, hop⟩ | ⟨ht, hop⟩
    · rw [← hv, hop]
      exact ⟨(hm.entry_mark e he).1, h.entry_last e he⟩
    · rw [hop]
      exact ⟨(hm.tomb_mark _ ht).1, h.tomb_last (by simp [ht])⟩
  have horigin : f.origin = o := ho o f.op hlast
  -- the new job carries the mark, so it compares with the others as the mark does
  have hsame : ∀ g ∈ c.flushes, f.version = g.version ↔ f.origin = g.origin := by
    intro g hg
    obtain ⟨m, hm', hfits⟩ := h.fits hg hlast
    obtain rfl : f.version = m := by simpa [hmark] using hm'
    rw [horigin, eq_comm, hfits.same, eq_comm]
  refine ⟨h.last_lt, ?_, ?_, h.entry_last, h.tomb_last, h.buried⟩
  · intro g hg
    simp only [flushes, Multiset.map_cons, Multiset.mem_cons] at hg
    rcases hg with rfl | hg
    · exact ⟨g.version, o, g.op, hmark, hlast, horigin.le, le_rfl, by simp [horigin], fun _ => rfl⟩
    · exact h.marked g hg
  · intro g hg g' hg'
    simp only [flushes, Multiset.map_cons, Multiset.mem_cons] at hg hg'
    rcases hg with rfl | hg <;> rcases hg' with rfl | hg'
    · simp
    · exact hsame g' hg'
    · rw [eq_comm, hsame g hg, eq_comm]
    · exact h.distinct g hg g' hg'

/-- **Versions identify writes** as long as no put evicts its own key while nothing is pending. -/
theorem Ident.step (h : c.Ident) (hm : c.Meta) (hp : ¬ p.loseMark) (hs : Step p c c') : c'.Ident := by
  cases hs with
  | advance n hn => exact h.congr rfl rfl rfl hn
  | drop hd => exact h.remove hm
  | store v evicted hl hd =>
      refine h.write rfl (Nat.lt_succ_self _) ?_ (by simp [flushes]) ?_ ?_
      · cases evicted with
        | false => rfl
        | true =>
            have hpos : 0 < c.slot.pend.getD 0 := Nat.pos_of_ne_zero fun h0 => hp (hl rfl h0)
            simp [Slot.remove_mark, hpos]
      · cases evicted <;> simp +contextual [eq_comm]
      · cases evicted <;> simp
  | bury =>
      refine h.write rfl (Nat.lt_succ_self _) ?_ (by simp [flushes]) ?_ ?_ <;> simp [Slot.bury_remove]
  | storeNow v evicted src hpd hj hd =>
      cases evicted with
      | false =>
          exact ⟨by simp, by simp [flushes, hj], by simp [flushes, hj], by simp +contextual [eq_comm],
            by simp, by simp⟩
      | true => exact ⟨by simp, by simp [flushes, hj], by simp [flushes, hj], by simp, by simp, by simp⟩
  | eraseNow src hpd hj =>
      have hpend : c.slot.pend = none := by simpa [hj] using hm.pend_eq
      exact ⟨by simp, by simp [flushes, hj], by simp [flushes, hj], by simp,
        by simp [Slot.remove_tomb, hpend], by simp [Slot.remove_mark, hpend]⟩
  | check f r hj hst => exact h.congr rfl (by simp [flushes, hj]) rfl le_rfl
  | skip f r hj hst hf => exact h.resolve hm hj
  | apply f r hj ho => exact h.congr rfl (by simp [flushes, hj]) rfl le_rfl
  | retry f r hj => exact h.congr rfl (by simp [flushes, hj]) rfl le_rfl
  | giveUp f r hj hp => exact h.congr rfl (by simp [flushes, hj]) rfl le_rfl
  | release f r hj hf => exact h.resolve hm hj
  | settle f r hj hf => exact (h.clean f.op f.version).resolve (hm.clean f.op f.version) hj
  | again f hf ho => exact h.again hm hf ho

/-- A job that passes the staleness test stems from the last write. -/
theorem Ident.origin_of_fresh (h : c.Ident) (hm : c.Meta) {f : Flush V} (hf : f ∈ c.flushes)
    (hs : c.slot.stale f.op f.version = false) {o : ℕ} {op : WriteOp V} (hl : c.last = some (o, op)) :
    f.origin = o := by
  rw [h.stale_eq hm hf hl] at hs
  simpa using hs

/-- The outstanding jobs contain the flush of each job. -/
theorem mem_flushes {j : Stage × Flush V} (h : j ∈ c.jobs) : j.2 ∈ c.flushes :=
  Multiset.mem_map_of_mem _ h

/-- Origins of outstanding jobs are at most the position of the last write. -/
theorem Ident.origin_le (h : c.Ident) {f : Flush V} (hf : f ∈ c.flushes) {o : ℕ} {op : WriteOp V}
    (hl : c.last = some (o, op)) : f.origin ≤ o ∧ (f.origin = o → f.op = op) := by
  obtain ⟨m, -, hfits⟩ := h.fits hf hl
  exact ⟨hfits.origin_le, hfits.op_eq⟩

/-! ### The order of the applications -/

/-- **The order invariant**: jobs were applied in the order of their writes, and no job between test
and application is older than an applied one. -/
structure Ordered (c : Cell V) : Prop where
  sorted : c.applied.Pairwise fun a b => b ≤ a
  le_last : ∀ a ∈ c.applied, ∃ o op, c.last = some (o, op) ∧ a ≤ o
  le_checked : ∀ a ∈ c.applied, ∀ f, (Stage.checked, f) ∈ c.jobs → a ≤ f.origin

/-- The order survives a move that applies nothing and checks nothing old. -/
theorem Ordered.of_same (h : c.Ordered) (ha : c'.applied = c.applied)
    (hl : ∀ o op, c.last = some (o, op) → ∃ o' op', c'.last = some (o', op') ∧ o ≤ o')
    (hj : ∀ f, (Stage.checked, f) ∈ c'.jobs →
      (Stage.checked, f) ∈ c.jobs ∨ ∀ o op, c.last = some (o, op) → f.origin = o) : c'.Ordered where
  sorted := ha ▸ h.sorted
  le_last a hmem := by
    obtain ⟨o, op, ho, hle⟩ := h.le_last a (ha ▸ hmem)
    obtain ⟨o', op', ho', hle'⟩ := hl o op ho
    exact ⟨o', op', ho', hle.trans hle'⟩
  le_checked a hmem f hf := by
    rcases hj f hf with hold | hnew
    · exact h.le_checked a (ha ▸ hmem) f hold
    · obtain ⟨o, op, ho, hle⟩ := h.le_last a (ha ▸ hmem)
      rw [hnew o op ho]
      exact hle

/-- **Jobs are applied in the order of their writes** as long as no job overtakes an older one that is
between test and application. -/
theorem Ordered.step (h : c.Ordered) (hi : c.Ident) (hm : c.Meta) (hp : ¬ p.overtake)
    (hs : Step p c c') : c'.Ordered := by
  have hwrite : ∀ o op, c.last = some (o, op) → o ≤ c.clock := fun o op ho => (hi.last_lt o op ho).le
  cases hs with
  | advance n hn => exact h.of_same rfl (fun o op ho => ⟨o, op, ho, le_rfl⟩) fun f hf => .inl hf
  | drop hd => exact h.of_same rfl (fun o op ho => ⟨o, op, ho, le_rfl⟩) fun f hf => .inl hf
  | store v evicted hl hd =>
      exact h.of_same rfl (fun o op ho => ⟨_, _, rfl, hwrite o op ho⟩) fun f hf => .inl (by simpa using hf)
  | bury =>
      exact h.of_same rfl (fun o op ho => ⟨_, _, rfl, hwrite o op ho⟩) fun f hf => .inl (by simpa using hf)
  | storeNow v evicted src hpd hj hd =>
      exact h.of_same rfl (fun o op ho => ⟨_, _, rfl, hwrite o op ho⟩) fun f hf => .inl hf
  | eraseNow src hpd hj =>
      exact h.of_same rfl (fun o op ho => ⟨_, _, rfl, hwrite o op ho⟩) fun f hf => .inl hf
  | check f r hj hst =>
      refine h.of_same rfl (fun o op ho => ⟨o, op, ho, le_rfl⟩) fun g hg => ?_
      simp only [Multiset.mem_cons, Prod.mk.injEq, true_and] at hg
      rcases hg with rfl | hg
      · exact .inr fun o op ho => hi.origin_of_fresh hm (by simp [flushes, hj]) hst ho
      · exact .inl (by simp [hj, hg])
  | skip f r hj hst hf =>
      exact h.of_same rfl (fun o op ho => ⟨o, op, ho, le_rfl⟩) fun g hg => .inl (by simp_all)
  | apply f r hj ho =>
      have hf : (Stage.checked, f) ∈ c.jobs := by simp [hj]
      obtain ⟨m, o, op, -, hl, hfits⟩ := hi.marked f (mem_flushes hf)
      refine ⟨?_, ?_, ?_⟩
      · exact List.pairwise_cons.mpr ⟨fun a ha => h.le_checked a ha f hf, h.sorted⟩
      · intro a ha
        rcases List.mem_cons.mp ha with rfl | ha
        · exact ⟨o, op, hl, hfits.origin_le⟩
        · exact h.le_last a ha
      · intro a ha g hg
        have hg' : (Stage.checked, g) ∈ r := by simpa using hg
        rcases List.mem_cons.mp ha with rfl | ha
        · exact Nat.le_of_not_lt fun hlt => hp (ho g hg' hlt)
        · exact h.le_checked a ha g (by simp [hj, hg'])
  | retry f r hj =>
      exact h.of_same rfl (fun o op ho => ⟨o, op, ho, le_rfl⟩) fun g hg => .inl (by simp_all)
  | giveUp f r hj hp =>
      exact h.of_same rfl (fun o op ho => ⟨o, op, ho, le_rfl⟩) fun g hg => .inl (by simp_all)
  | release f r hj hf =>
      exact h.of_same rfl (fun o op ho => ⟨o, op, ho, le_rfl⟩) fun g hg => .inl (by simp_all)
  | settle f r hj hf =>
      exact h.of_same rfl (fun o op ho => ⟨o, op, ho, le_rfl⟩) fun g hg => .inl (by simp_all)
  | again f hf ho =>
      exact h.of_same rfl (fun o op ho => ⟨o, op, ho, le_rfl⟩) fun g hg => .inl (by simpa using hg)

/-! ### What clean means -/

/-- The source holds the outcome of the write at `o`, and no job that could change that is between
test and application. -/
structure Settled (c : Cell V) (o : ℕ) (op : WriteOp V) : Prop where
  source_eq : c.source = op.outcome
  checked_eq : ∀ f, (Stage.checked, f) ∈ c.jobs → f.origin = o

/-- A settled source stays settled while nothing else is checked. -/
theorem Settled.of_same {o : ℕ} {op : WriteOp V} (h : c.Settled o op) (hs : c'.source = c.source)
    (hj : ∀ f, (Stage.checked, f) ∈ c'.jobs → (Stage.checked, f) ∈ c.jobs) : c'.Settled o op :=
  ⟨hs.trans h.source_eq, fun f hf => h.checked_eq f (hj f hf)⟩

/-- **The soundness invariant**: where the entry is clean, or a job of the last write has landed, the
source holds the last write. -/
structure Sound (c : Cell V) : Prop where
  clean_settled : ∀ e, c.slot.entry = some e → e.dirty = false →
    ∀ o op, c.last = some (o, op) → c.Settled o op
  landed_settled : ∀ f, (Stage.landed, f) ∈ c.jobs →
    ∀ o op, c.last = some (o, op) → f.origin = o → c.Settled o op

/-- What a move does to a settled source: it stays settled, unless the move is a new write. -/
theorem Settled.step {o : ℕ} {op : WriteOp V} (h : c.Settled o op) (hl : c.last = some (o, op))
    (hi : c.Ident) (hm : c.Meta) (hd : ¬ p.direct) (hs : Step p c c') (hl' : c'.last = some (o, op)) :
    c'.Settled o op := by
  have hnew : ∀ op', some (c.clock, op') ≠ some (o, op) := by
    rintro op' heq
    have hlt := hi.last_lt o op hl
    simp only [Option.some.injEq, Prod.mk.injEq] at heq
    omega
  cases hs with
  | advance n hn => exact h.of_same rfl fun f hf => hf
  | drop hd => exact h.of_same rfl fun f hf => hf
  | store v evicted hlm hdr => exact absurd hl' (hnew _)
  | bury => exact absurd hl' (hnew _)
  | storeNow v evicted src hpd hj hdr => exact absurd hpd hd
  | eraseNow src hpd hj => exact absurd hpd hd
  | check f r hj hst =>
      have hf := hi.origin_of_fresh hm (by simp [flushes, hj]) hst hl
      refine ⟨h.source_eq, fun g hg => ?_⟩
      simp only [Multiset.mem_cons, Prod.mk.injEq, true_and] at hg
      rcases hg with rfl | hg
      · exact hf
      · exact h.checked_eq g (by simp [hj, hg])
  | skip f r hj hst hf => exact h.of_same rfl fun g hg => by simp_all
  | apply f r hj ho =>
      have hf : (Stage.checked, f) ∈ c.jobs := by simp [hj]
      have hop := (hi.origin_le (mem_flushes hf) hl).2 (h.checked_eq f hf)
      exact ⟨by rw [hop], fun g hg => h.checked_eq g (by simp_all)⟩
  | retry f r hj => exact h.of_same rfl fun g hg => by simp_all
  | giveUp f r hj hp => exact h.of_same rfl fun g hg => by simp_all
  | release f r hj hf => exact h.of_same rfl fun g hg => by simp_all
  | settle f r hj hf => exact h.of_same rfl fun g hg => by simp_all
  | again f hf ho => exact h.of_same rfl fun g hg => by simpa using hg

/-- Applying a job of the last write settles the source when no job overtakes. -/
theorem settled_apply (hi : c.Ident) (hp : ¬ p.overtake) {f : Flush V}
    {r : Multiset (Stage × Flush V)} (hj : c.jobs = (.checked, f) ::ₘ r)
    (ho : ∀ g, (Stage.checked, g) ∈ r → g.origin < f.origin → p.overtake) {o : ℕ} {op : WriteOp V}
    (hl : c.last = some (o, op)) (hf : f.origin = o) (applied : List ℕ) :
    Settled { c with jobs := (.landed, f) ::ₘ r, source := f.op.outcome, applied := applied } o op where
  source_eq := by
    have hmem : f ∈ c.flushes := by simp [flushes, hj]
    rw [(hi.origin_le hmem hl).2 hf]
  checked_eq g hg := by
    have hg' : (Stage.checked, g) ∈ r := by simpa using hg
    have hmem : g ∈ c.flushes := by
      rw [flushes_of_cons hj]
      exact Multiset.mem_cons_of_mem (Multiset.mem_map_of_mem Prod.snd hg')
    have hle := (hi.origin_le hmem hl).1
    have hge : f.origin ≤ g.origin := Nat.le_of_not_lt fun hlt => hp (ho g hg' hlt)
    omega

/-- An application of an older job happens only where the source is not settled. -/
theorem Settled.origin_of_checked {o : ℕ} {op : WriteOp V} (h : c.Settled o op) {f : Flush V}
    {r : Multiset (Stage × Flush V)} (hj : c.jobs = (.checked, f) ::ₘ r) : f.origin = o :=
  h.checked_eq f (by simp [hj])

/-- **Soundness is kept** as long as no job overtakes an older checked one. -/
theorem Sound.step (h : c.Sound) (hi : c.Ident) (hm : c.Meta) (hd : ¬ p.direct) (hp : ¬ p.overtake)
    (hs : Step p c c') : c'.Sound := by
  have hkeep := fun o op (hset : c.Settled o op) (hl : c.last = some (o, op)) =>
    hset.step hl hi hm hd hs
  cases hs with
  | advance n hn =>
      exact ⟨fun e he hc o op hl => hkeep o op (h.clean_settled e he hc o op hl) hl hl,
        fun f hf o op hl ho => hkeep o op (h.landed_settled f hf o op hl ho) hl hl⟩
  | drop hdr =>
      exact ⟨by simp, fun f hf o op hl ho => hkeep o op (h.landed_settled f hf o op hl ho) hl hl⟩
  | store v evicted hlm hdr =>
      refine ⟨by cases evicted <;> simp +contextual, fun f hf o op hl ho => ?_⟩
      have hmem : (Stage.landed, f) ∈ c.jobs := by simpa using hf
      have hlt := (hi.lt_next (mem_flushes hmem)).1
      simp only [Option.some.injEq, Prod.mk.injEq] at hl
      exact absurd hlt (by simp only; omega)
  | bury =>
      refine ⟨by simp, fun f hf o op hl ho => ?_⟩
      have hmem : (Stage.landed, f) ∈ c.jobs := by simpa using hf
      have hlt := (hi.lt_next (mem_flushes hmem)).1
      simp only [Option.some.injEq, Prod.mk.injEq] at hl
      exact absurd hlt (by simp only; omega)
  | storeNow v evicted src hpd hj hdr => exact absurd hpd hd
  | eraseNow src hpd hj => exact absurd hpd hd
  | check f r hj hst =>
      exact ⟨fun e he hc o op hl => hkeep o op (h.clean_settled e he hc o op hl) hl hl,
        fun g hg o op hl ho => hkeep o op (h.landed_settled g (by simp_all) o op hl ho) hl hl⟩
  | skip f r hj hst hf =>
      refine ⟨fun e he hc o op hl => ?_, fun g hg o op hl ho => ?_⟩
      · exact hkeep o op (h.clean_settled e (by simpa using he) hc o op hl) hl hl
      · exact hkeep o op (h.landed_settled g (by simp_all) o op hl ho) hl hl
  | apply f r hj ho =>
      -- either the job is one of the last write, or nothing was settled before
      refine ⟨fun e he hc o op hl => ?_, fun g hg o op hl hgo => ?_⟩
      · exact hkeep o op (h.clean_settled e he hc o op hl) hl hl
      · by_cases hfo : f.origin = o
        · exact settled_apply hi hp hj ho hl hfo _
        · have hg' : (Stage.landed, g) ∈ c.jobs := by
            simp only [Multiset.mem_cons, Prod.mk.injEq, true_and] at hg
            rcases hg with rfl | hg
            · exact absurd hgo hfo
            · simp [hj, hg]
          exact absurd ((h.landed_settled g hg' o op hl hgo).origin_of_checked hj) hfo
  | retry f r hj =>
      exact ⟨fun e he hc o op hl => hkeep o op (h.clean_settled e he hc o op hl) hl hl,
        fun g hg o op hl ho => hkeep o op (h.landed_settled g (by simp_all) o op hl ho) hl hl⟩
  | giveUp f r hj hp =>
      exact ⟨fun e he hc o op hl => hkeep o op (h.clean_settled e he hc o op hl) hl hl,
        fun g hg o op hl ho => hkeep o op (h.landed_settled g (by simp_all) o op hl ho) hl hl⟩
  | release f r hj hf =>
      refine ⟨fun e he hc o op hl => ?_, fun g hg o op hl ho => ?_⟩
      · exact hkeep o op (h.clean_settled e (by simpa using he) hc o op hl) hl hl
      · exact hkeep o op (h.landed_settled g (by simp_all) o op hl ho) hl hl
  | settle f r hj hf =>
      refine ⟨fun e he hc o op hl => ?_, fun g hg o op hl ho => ?_⟩
      · have he' : (c.slot.clean f.op f.version).entry = some e := by simpa using he
        obtain ⟨e', hentry, hver, -, hdirty⟩ := c.slot.clean_entry f.op f.version he'
        rcases hdirty with ⟨hsame, -⟩ | ⟨-, hv⟩
        · exact hkeep o op (h.clean_settled e' hentry (hsame ▸ hc) o op hl) hl hl
        · -- the entry was cleaned just now: it has the version of the landed job
          obtain ⟨m, hmark, hfits⟩ := hi.fits (flushes_of_cons hj ▸ Multiset.mem_cons_self f _) hl
          have hme : m = e'.version := by simpa [hmark] using (hm.entry_mark e' hentry).1
          have hfo : f.origin = o := hfits.same.mp (by rw [hme, ← hver, hv])
          exact hkeep o op (h.landed_settled f (by simp [hj]) o op hl hfo) hl hl
      · exact hkeep o op (h.landed_settled g (by simp_all) o op hl ho) hl hl
  | again f hf ho =>
      exact ⟨fun e he hc o op hl => hkeep o op (h.clean_settled e he hc o op hl) hl hl,
        fun g hg o op hl hgo => hkeep o op (h.landed_settled g (by simpa using hg) o op hl hgo) hl hl⟩

/-! ### Nothing is lost while no job is given up -/

/-- **The flush invariant**: the last write is settled or has a job that is still to be applied, and a
dirty entry has a job. -/
structure Flushed (c : Cell V) : Prop where
  due : ∀ o op, c.last = some (o, op) →
    (∃ f, ((Stage.waiting, f) ∈ c.jobs ∨ (Stage.checked, f) ∈ c.jobs) ∧ f.origin = o) ∨ c.Settled o op
  dirty_job : ∀ e, c.slot.entry = some e → e.dirty = true → ∃ j ∈ c.jobs, j.2.version = e.version
  none_doomed : ∀ f, (Stage.doomed, f) ∉ c.jobs

/-- Without outstanding jobs the source holds the last write. -/
theorem Flushed.source_eq (h : c.Flushed) (hj : c.jobs = 0) {o : ℕ} {op : WriteOp V}
    (hl : c.last = some (o, op)) : c.source = op.outcome := by
  rcases h.due o op hl with ⟨f, hf, -⟩ | hset
  · simp [hj] at hf
  · exact hset.source_eq

/-- Without outstanding jobs the entry is clean. -/
theorem Flushed.clean (h : c.Flushed) (hj : c.jobs = 0) {e : Held V} (he : c.slot.entry = some e) :
    e.dirty = false := by
  by_contra hd
  obtain ⟨j, hmem, -⟩ := h.dirty_job e he (by simpa using hd)
  simp [hj] at hmem

/-- The job of a dirty entry stems from the last write. -/
theorem Ident.origin_of_entry (h : c.Ident) (hm : c.Meta) {f : Flush V} (hf : f ∈ c.flushes)
    {e : Held V} (he : c.slot.entry = some e) (hv : f.version = e.version) {o : ℕ} {op : WriteOp V}
    (hl : c.last = some (o, op)) : f.origin = o := by
  obtain ⟨m, hmark, hfits⟩ := h.fits hf hl
  refine hfits.same.mp ?_
  rw [hv]
  simpa [hmark] using (hm.entry_mark e he).1.symm

/-- **Nothing is lost** as long as no job is given up and none overtakes. -/
theorem Flushed.step (h : c.Flushed) (hi : c.Ident) (hm : c.Meta) (hd : ¬ p.direct)
    (hp : ¬ p.overtake) (hg : ¬ p.giveUp) (hs : Step p c c') : c'.Flushed := by
  have hkeep := fun o op (hset : c.Settled o op) (hl : c.last = some (o, op)) =>
    hset.step hl hi hm hd hs
  cases hs with
  | advance n hn =>
      refine ⟨fun o op hl => ?_, h.dirty_job, h.none_doomed⟩
      exact (h.due o op hl).imp_right fun hset => hkeep o op hset hl hl
  | drop hdr =>
      refine ⟨fun o op hl => ?_, by simp, h.none_doomed⟩
      exact (h.due o op hl).imp_right fun hset => hkeep o op hset hl hl
  | store v evicted hlm hdr =>
      refine ⟨fun o op hl => .inl ⟨_, .inl (Multiset.mem_cons_self _ _), ?_⟩, ?_, ?_⟩
      · simp only [Option.some.injEq, Prod.mk.injEq] at hl
        exact hl.1
      · intro e he _
        refine ⟨_, Multiset.mem_cons_self _ _, ?_⟩
        cases evicted
        · simp only [Bool.false_eq_true, if_false, Slot.register_entry, Slot.store_entry,
            Option.some.injEq] at he
          rw [← he]
        · simp at he
      · intro f hf
        exact h.none_doomed f (by simpa using hf)
  | bury =>
      refine ⟨fun o op hl => .inl ⟨_, .inl (Multiset.mem_cons_self _ _), ?_⟩, by simp, ?_⟩
      · simp only [Option.some.injEq, Prod.mk.injEq] at hl
        exact hl.1
      · intro f hf
        exact h.none_doomed f (by simpa using hf)
  | storeNow v evicted src hpd hj hdr => exact absurd hpd hd
  | eraseNow src hpd hj => exact absurd hpd hd
  | check f r hj hst =>
      refine ⟨fun o op hl => ?_, fun e he hde => ?_, fun g hg => h.none_doomed g (by simp_all)⟩
      · rcases h.due o op hl with ⟨g, hg, hgo⟩ | hset
        · refine .inl ⟨g, ?_, hgo⟩
          simp only [hj, Multiset.mem_cons, Prod.mk.injEq, true_and] at hg ⊢
          tauto
        · exact .inr (hkeep o op hset hl hl)
      · obtain ⟨j, hjm, hv⟩ := h.dirty_job e he hde
        rw [hj, Multiset.mem_cons] at hjm
        rcases hjm with rfl | hjm
        · exact ⟨_, Multiset.mem_cons_self _ _, hv⟩
        · exact ⟨j, Multiset.mem_cons_of_mem hjm, hv⟩
  | skip f r hj hst hf =>
      -- the skipped job is stale, so it is neither the job of the last write nor of the entry
      have hmem : f ∈ c.flushes := flushes_of_cons hj ▸ Multiset.mem_cons_self f _
      have hne : ∀ o op, c.last = some (o, op) → f.origin ≠ o := by
        intro o op hl
        rw [hi.stale_eq hm hmem hl] at hst
        simpa using hst
      refine ⟨fun o op hl => ?_, fun e he hde => ?_, fun g hg => h.none_doomed g (by simp_all)⟩
      · rcases h.due o op hl with ⟨g, hg, hgo⟩ | hset
        · refine .inl ⟨g, ?_, hgo⟩
          have hgf : g ≠ f := fun e => hne o op hl (e ▸ hgo)
          simpa [hj, hgf] using hg
        · exact .inr (hkeep o op hset hl hl)
      · rw [Slot.resolve_entry] at he
        obtain ⟨j, hjm, hv⟩ := h.dirty_job e he hde
        obtain ⟨o, hl⟩ := hi.entry_last e he
        have hjo := hi.origin_of_entry hm (mem_flushes hjm) he hv hl
        rw [hj, Multiset.mem_cons] at hjm
        rcases hjm with rfl | hjm
        · exact absurd hjo (hne o _ hl)
        · exact ⟨j, hjm, hv⟩
  | apply f r hj ho =>
      refine ⟨fun o op hl => ?_, fun e he hde => ?_, fun g hg => h.none_doomed g (by simp_all)⟩
      · by_cases hfo : f.origin = o
        · exact .inr (settled_apply hi hp hj ho hl hfo _)
        · rcases h.due o op hl with ⟨g, hg, hgo⟩ | hset
          · refine .inl ⟨g, ?_, hgo⟩
            have hgf : g ≠ f := fun e => hfo (e ▸ hgo)
            simpa [hj, hgf] using hg
          · exact absurd (hset.origin_of_checked hj) hfo
      · obtain ⟨j, hjm, hv⟩ := h.dirty_job e he hde
        rw [hj, Multiset.mem_cons] at hjm
        rcases hjm with rfl | hjm
        · exact ⟨_, Multiset.mem_cons_self _ _, hv⟩
        · exact ⟨j, Multiset.mem_cons_of_mem hjm, hv⟩
  | retry f r hj =>
      refine ⟨fun o op hl => ?_, fun e he hde => ?_, fun g hg => h.none_doomed g (by simp_all)⟩
      · rcases h.due o op hl with ⟨g, hg, hgo⟩ | hset
        · refine .inl ⟨g, ?_, hgo⟩
          simp only [hj, Multiset.mem_cons, Prod.mk.injEq, true_and] at hg ⊢
          tauto
        · exact .inr (hkeep o op hset hl hl)
      · obtain ⟨j, hjm, hv⟩ := h.dirty_job e he hde
        rw [hj, Multiset.mem_cons] at hjm
        rcases hjm with rfl | hjm
        · exact ⟨_, Multiset.mem_cons_self _ _, hv⟩
        · exact ⟨j, Multiset.mem_cons_of_mem hjm, hv⟩
  | giveUp f r hj hgp => exact absurd hgp hg
  | release f r hj hf => exact absurd (by simp [hj]) (h.none_doomed f)
  | settle f r hj hf =>
      refine ⟨fun o op hl => ?_, fun e he hde => ?_, fun g hg => h.none_doomed g (by simp_all)⟩
      · rcases h.due o op hl with ⟨g, hg, hgo⟩ | hset
        · exact .inl ⟨g, by simpa [hj] using hg, hgo⟩
        · exact .inr (hkeep o op hset hl hl)
      · have he' : (c.slot.clean f.op f.version).entry = some e := by simpa using he
        obtain ⟨e', hentry, hver, -, hdirty⟩ := c.slot.clean_entry f.op f.version he'
        rcases hdirty with ⟨hsame, hwhy⟩ | ⟨hclean, -⟩
        · obtain ⟨j, hjm, hv⟩ := h.dirty_job e' hentry (hsame ▸ hde)
          rw [hj, Multiset.mem_cons] at hjm
          rcases hjm with rfl | hjm
          · -- a landed put of this version would have cleaned the entry, and it is a put
            obtain ⟨o, hl⟩ := hi.entry_last e' hentry
            have hmem : f ∈ c.flushes := flushes_of_cons hj ▸ Multiset.mem_cons_self f _
            have hop := (hi.origin_le hmem hl).2 (hi.origin_of_entry hm hmem hentry hv hl)
            rcases hwhy with hdel | hne
            · rw [hop] at hdel
              cases hdel
            · exact absurd (hver.trans hv.symm) hne
          · exact ⟨j, hjm, hv.trans hver.symm⟩
        · rw [hclean] at hde
          cases hde
  | again f hf ho =>
      refine ⟨fun o op hl => ?_, fun e he hde => ?_, fun g hg => h.none_doomed g (by simpa using hg)⟩
      · rcases h.due o op hl with ⟨g, hg, hgo⟩ | hset
        · exact .inl ⟨g, by simp only [Multiset.mem_cons]; tauto, hgo⟩
        · exact .inr (hkeep o op hset hl hl)
      · obtain ⟨j, hjm, hv⟩ := h.dirty_job e he hde
        exact ⟨j, Multiset.mem_cons_of_mem hjm, hv⟩

/-! ### What could not be flushed is kept -/

/-- **The retention invariant**: a last put is still in memory, and a last delete has its tombstone or
is settled. -/
structure Kept (c : Cell V) : Prop where
  put_resident : ∀ o v, c.last = some (o, WriteOp.put v) → c.slot.entry.isSome
  deleted : ∀ o, c.last = some (o, WriteOp.delete) → c.slot.tomb.isSome ∨ c.Settled o .delete

/-- Releasing a count that forgets nothing keeps the tombstone or finds a settled source. -/
theorem tomb_or_settled_resolve (hm : c.Meta) {j : Stage × Flush V} {r : Multiset (Stage × Flush V)}
    (hj : c.jobs = j ::ₘ r) (hf : ¬ c.Forgets) (ht : c.slot.tomb.isSome) (o : ℕ) :
    c.slot.resolve.tomb.isSome ∨ Settled { c with slot := c.slot.resolve, jobs := r } o .delete := by
  have hr : c.slot.pend.getD 0 - 1 = r.card := by simp [hm.pend_getD, hj]
  by_cases hpos : 0 < r.card
  · left
    simpa [Slot.resolve_tomb, hr, hpos] using ht
  · right
    have hzero : r = 0 := Multiset.card_eq_zero.mp (by omega)
    have hsrc : c.source = none := by
      by_contra hne
      exact hf ⟨ht, by simp [hj, hzero], hne⟩
    exact ⟨hsrc, by simp [hzero]⟩

/-- **What could not be flushed is kept** as long as nothing is evicted or expires and no tombstone is
released before the source has seen it. -/
theorem Kept.step (h : c.Kept) (hi : c.Ident) (hm : c.Meta) (hd : ¬ p.direct) (hf : ¬ p.forget)
    (hdr : ¬ p.drop) (hs : Step p c c') : c'.Kept := by
  have hkeep := fun o op (hset : c.Settled o op) (hl : c.last = some (o, op)) =>
    hset.step hl hi hm hd hs
  cases hs with
  | advance n hn =>
      exact ⟨h.put_resident, fun o hl => (h.deleted o hl).imp_right fun hset => hkeep o _ hset hl hl⟩
  | drop hdrop =>
      have hnone : c.slot.entry = none := by
        by_contra hne
        exact hdr (hdrop (Option.isSome_iff_ne_none.mpr hne))
      refine ⟨fun o v hl => ?_, fun o hl => ?_⟩
      · simpa [hnone] using h.put_resident o v hl
      · rcases h.deleted o hl with ht | hset
        · obtain ⟨t, ht'⟩ := Option.isSome_iff_exists.mp ht
          have hpos := (hm.tomb_mark t ht').2.2
          left
          simpa [Slot.remove_tomb, hm.pend_getD, hpos] using ht
        · exact .inr (hkeep o _ hset hl hl)
  | store v evicted hlm hdrop =>
      cases evicted with
      | true => exact absurd (hdrop rfl) hdr
      | false => exact ⟨by simp, by simp⟩
  | bury => exact ⟨by simp, fun o hl => .inl (by simp [Slot.bury_remove])⟩
  | storeNow v evicted src hpd hj hdrop => exact absurd hpd hd
  | eraseNow src hpd hj => exact absurd hpd hd
  | check f r hj hst =>
      exact ⟨h.put_resident, fun o hl => (h.deleted o hl).imp_right fun hset => hkeep o _ hset hl hl⟩
  | skip f r hj hst hfg =>
      refine ⟨by simpa using h.put_resident, fun o hl => ?_⟩
      rcases h.deleted o hl with ht | hset
      · exact tomb_or_settled_resolve hm hj (fun hF => hf (hfg hF)) ht o
      · exact .inr (hkeep o _ hset hl hl)
  | apply f r hj ho =>
      exact ⟨h.put_resident, fun o hl => (h.deleted o hl).imp_right fun hset => hkeep o _ hset hl hl⟩
  | retry f r hj =>
      exact ⟨h.put_resident, fun o hl => (h.deleted o hl).imp_right fun hset => hkeep o _ hset hl hl⟩
  | giveUp f r hj hgp =>
      exact ⟨h.put_resident, fun o hl => (h.deleted o hl).imp_right fun hset => hkeep o _ hset hl hl⟩
  | release f r hj hfg =>
      refine ⟨by simpa using h.put_resident, fun o hl => ?_⟩
      rcases h.deleted o hl with ht | hset
      · exact tomb_or_settled_resolve hm hj (fun hF => hf (hfg hF)) ht o
      · exact .inr (hkeep o _ hset hl hl)
  | settle f r hj hfg =>
      refine ⟨by simpa using h.put_resident, fun o hl => ?_⟩
      rcases h.deleted o hl with ht | hset
      · refine tomb_or_settled_resolve (hm.clean f.op f.version) hj ?_ (by simpa using ht) o
        intro hF
        exact hf (hfg (by simpa [Forgets] using hF))
      · exact .inr (hkeep o _ hset hl hl)
  | again f hfg ho =>
      exact ⟨h.put_resident, fun o hl => (h.deleted o hl).imp_right fun hset => hkeep o _ hset hl hl⟩

/-! ### What a final flush finds -/

/-- The slot follows the last write. -/
theorem Ident.follows (h : c.Ident) (hm : c.Meta) : c.slot.Follows c.last where
  entry e he := ⟨(hm.entry_mark e he).1, (hm.entry_mark e he).2, h.entry_last e he⟩
  tomb t ht := ⟨(hm.tomb_mark t ht).1, h.tomb_last (by simp [ht])⟩

/-- What could not be flushed is still there to be flushed. -/
theorem Kept.settled_or_owes (h : c.Kept) (hs : c.Sound) {o : ℕ} {op : WriteOp V}
    (hl : c.last = some (o, op)) : c.source = op.outcome ∨ c.slot.Owes := by
  cases op with
  | put v =>
      obtain ⟨e, he⟩ := Option.isSome_iff_exists.mp (h.put_resident o v hl)
      cases hd : e.dirty with
      | true => exact .inr (.inl ⟨e, he, hd⟩)
      | false => exact .inl (hs.clean_settled e he hd o _ hl).source_eq
  | delete =>
      rcases h.deleted o hl with ht | hset
      · exact .inr (.inr ht)
      · exact .inl hset.source_eq

/-- Where no job was given up, a last put that is in memory is kept, and so is a last delete. -/
theorem Flushed.kept (h : c.Flushed) (hi : c.Ident)
    (hput : ∀ o v, c.last = some (o, WriteOp.put v) → c.slot.entry.isSome) : c.Kept where
  put_resident := hput
  deleted o hl := by
    refine (h.due o _ hl).imp_left ?_
    rintro ⟨f, hf, -⟩
    obtain ⟨m, hm, -⟩ := hi.fits (hf.elim mem_flushes mem_flushes) hl
    exact hi.buried (by simp [hm]) o hl

/-! ### Sequences of moves -/

/-- The metadata is kept by every sequence of moves. -/
theorem Meta.steps (h : c.Meta) (hs : Steps p c c') : c'.Meta := by
  induction hs with
  | refl => exact h
  | tail _ hlast ih => exact ih.step hlast

/-- Versions identify writes after a sequence of moves. -/
theorem Ident.steps (h : c.Ident) (hm : c.Meta) (hl : ¬ p.loseMark) (hs : Steps p c c') : c'.Ident := by
  induction hs with
  | refl => exact h
  | tail hfirst hlast ih => exact ih.step (hm.steps hfirst) hl hlast

/-- Jobs are applied in order along a sequence of moves. -/
theorem Ordered.steps (h : c.Ordered) (hi : c.Ident) (hm : c.Meta) (hl : ¬ p.loseMark)
    (ho : ¬ p.overtake) (hs : Steps p c c') : c'.Ordered := by
  induction hs with
  | refl => exact h
  | tail hfirst hlast ih => exact ih.step (hi.steps hm hl hfirst) (hm.steps hfirst) ho hlast

/-- Soundness is kept by a sequence of moves. -/
theorem Sound.steps (h : c.Sound) (hi : c.Ident) (hm : c.Meta) (hl : ¬ p.loseMark)
    (ho : ¬ p.overtake) (hd : ¬ p.direct) (hs : Steps p c c') : c'.Sound := by
  induction hs with
  | refl => exact h
  | tail hfirst hlast ih => exact ih.step (hi.steps hm hl hfirst) (hm.steps hfirst) hd ho hlast

/-- Nothing is lost along a sequence of moves. -/
theorem Flushed.steps (h : c.Flushed) (hi : c.Ident) (hm : c.Meta) (hl : ¬ p.loseMark)
    (ho : ¬ p.overtake) (hd : ¬ p.direct) (hg : ¬ p.giveUp) (hs : Steps p c c') : c'.Flushed := by
  induction hs with
  | refl => exact h
  | tail hfirst hlast ih => exact ih.step (hi.steps hm hl hfirst) (hm.steps hfirst) hd ho hg hlast

/-- What could not be flushed is kept along a sequence of moves. -/
theorem Kept.steps (h : c.Kept) (hi : c.Ident) (hm : c.Meta) (hl : ¬ p.loseMark) (hd : ¬ p.direct)
    (hf : ¬ p.forget) (hdr : ¬ p.drop) (hs : Steps p c c') : c'.Kept := by
  induction hs with
  | refl => exact h
  | tail hfirst hlast ih => exact ih.step (hi.steps hm hl hfirst) (hm.steps hfirst) hd hf hdr hlast

/-- **Where tombstones come from**: one that is there after some moves was there before them, or the last
write is a delete among them. -/
theorem tomb_of_steps (hs : Steps p c c') :
    c.clock ≤ c'.clock ∧ (c'.slot.tomb.isSome → c.slot.tomb.isSome ∨
      ∃ o, c.clock ≤ o ∧ c'.last = some (o, WriteOp.delete)) := by
  induction hs with
  | refl => exact ⟨le_rfl, .inl⟩
  | tail _ hlast ih =>
      obtain ⟨hclock, htomb⟩ := ih
      cases hlast with
      | advance n hn => exact ⟨hclock.trans hn, htomb⟩
      | drop _ =>
          refine ⟨hclock, fun h => htomb ?_⟩
          rw [Slot.remove_tomb] at h
          split_ifs at h
          · exact h
          · cases h
      | store v evicted _ _ =>
          refine ⟨by simpa using hclock.trans (Nat.le_succ _), fun h => ?_⟩
          cases evicted <;> simp at h
      | bury => exact ⟨by simpa using hclock.trans (Nat.le_succ _), fun _ => .inr ⟨_, hclock, rfl⟩⟩
      | storeNow v evicted src _ _ _ =>
          refine ⟨by simpa using hclock.trans (Nat.le_succ _), fun h => ?_⟩
          cases evicted <;> simp at h
      | eraseNow src _ _ => exact ⟨by simpa using hclock.trans (Nat.le_succ _), fun _ => .inr ⟨_, hclock, rfl⟩⟩
      | check f r _ _ => exact ⟨hclock, htomb⟩
      | skip f r _ _ _ =>
          refine ⟨hclock, fun h => htomb ?_⟩
          rw [Slot.resolve_tomb] at h
          split_ifs at h
          · exact h
          · cases h
      | apply f r _ _ => exact ⟨hclock, htomb⟩
      | retry f r _ => exact ⟨hclock, htomb⟩
      | giveUp f r _ _ => exact ⟨hclock, htomb⟩
      | release f r _ _ =>
          refine ⟨hclock, fun h => htomb ?_⟩
          rw [Slot.resolve_tomb] at h
          split_ifs at h
          · exact h
          · cases h
      | settle f r _ _ =>
          refine ⟨hclock, fun h => htomb ?_⟩
          rw [Slot.resolve_tomb, Slot.clean_tomb] at h
          split_ifs at h
          · exact h
          · cases h
      | again f _ _ => exact ⟨hclock, htomb⟩

end CacheLab.WriteBehind.Cell
