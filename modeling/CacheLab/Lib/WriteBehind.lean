import Mathlib.Data.Multiset.AddSub
import Mathlib.Logic.Relation
import Mathlib.Tactic

/-!
# Write-behind for one key

A *write-behind* store answers writes from memory and persists them later: each write leaves a flush
job that some worker applies to the source. This file is the protocol for **one key**, with no store,
no queue and no threads:

* a `Slot` is the memory side: the held entry, the *version mark* of the last write, the *tombstone*
  of a delete that is not persisted yet, and the *pending count* of outstanding flush jobs. Mark and
  tombstone are pruned when nothing refers to them (`Slot.prune`);
* a `Cell` adds the multiset of outstanding jobs, each with its `Stage`, the value in the source, the
  last write and the jobs applied so far;
* `Cell.Step` is everything that can happen to the key. The moves that can do harm ask for a
  permission (`Permit`): giving a job up, dropping an entry, evicting what is being stored while no
  job is pending, applying a job while an older one is between test and application, forgetting a
  tombstone the source has not seen, writing past the jobs.

The invariants below say what holds under which permissions:

| invariant | says | forbidden |
|---|---|---|
| `Cell.Meta` | the pending count is the number of jobs; entry, mark and tombstone fit | nothing |
| `Cell.Ident` | versions identify writes; the newest write is the one that is not stale | `loseMark` |
| `Cell.Ordered` | jobs are applied in the order of their writes | + `overtake` |
| `Cell.Sound` | a clean entry and a landed newest job mean a settled source | + `direct` |
| `Cell.Flushed` | without outstanding jobs the source holds the last write | + `giveUp` |
| `Cell.Kept` | what the source lacks is dirty or has a tombstone | + `forget`, `drop` |
-/

namespace CacheLab

/-- What a write does to its key. -/
inductive WriteOp (V : Type)
  | put (v : V)
  | delete
  deriving DecidableEq

/-- What the source holds for a key after the operation. -/
def WriteOp.outcome {V : Type} : WriteOp V → Option V
  | put v => some v
  | delete => none

namespace WriteBehind

variable {V : Type}

/-- A held entry, as far as flushing is concerned. -/
structure Held (V : Type) where
  version : ℕ
  value : V
  dirty : Bool

/-- The memory side of one key. -/
@[ext] structure Slot (V : Type) where
  entry : Option (Held V)
  mark : Option ℕ
  tomb : Option ℕ
  pend : Option ℕ

/-- A flush job: the version and the effect of its write, and the position of that write in the
order of all writes. -/
structure Flush (V : Type) where
  version : ℕ
  op : WriteOp V
  origin : ℕ

namespace Slot

/-- The version of the next write. -/
def next (s : Slot V) : ℕ := s.mark.getD 0 + 1

/-- Drop mark and tombstone when no job and no entry refers to them. -/
def prune (s : Slot V) : Slot V :=
  if 0 < s.pend.getD 0 then s else if s.entry.isSome then s else { s with mark := none, tomb := none }

/-- Drop the entry. -/
def remove (s : Slot V) : Slot V := { s with entry := none }.prune

/-- Store a value with a new version; a tombstone is lifted. -/
def store (s : Slot V) (v : V) (dirty : Bool) : Slot V :=
  { s with entry := some ⟨s.next, v, dirty⟩, mark := some s.next, tomb := none }

/-- Count one more job. -/
def register (s : Slot V) : Slot V := { s with pend := some (s.pend.getD 0 + 1) }

/-- Take a new version and put up a tombstone with a job to persist it. -/
def bury (s : Slot V) : Slot V := { s with mark := some s.next, tomb := some s.next }.register

/-- Count one job less. -/
def resolve (s : Slot V) : Slot V :=
  { s with pend := if 0 < s.pend.getD 0 - 1 then some (s.pend.getD 0 - 1) else none }.prune

/-- Count no job any more. -/
def clearPend (s : Slot V) : Slot V := { s with pend := none }.prune

/-- Mark the entry clean if it has the version that was flushed. -/
def clean (s : Slot V) (op : WriteOp V) (version : ℕ) : Slot V :=
  match op with
  | .delete => s
  | .put _ =>
      { s with
        entry := s.entry.map fun e => if e.version = version then { e with dirty := false } else e }

/-- A job is stale once a newer write or a tombstone superseded it. -/
def stale (s : Slot V) (op : WriteOp V) (version : ℕ) : Bool :=
  match op with
  | .put _ => decide (s.mark.getD 0 ≠ version) || s.tomb.any fun t => decide (version ≤ t)
  | .delete => decide (s.mark.getD 0 ≠ version) || decide (s.tomb ≠ some version)

/-! ### Fields after an operation -/

variable (s : Slot V) (v : V) (dirty : Bool) (op : WriteOp V) (version : ℕ)

@[simp] theorem prune_entry : s.prune.entry = s.entry := by
  unfold prune
  split_ifs <;> rfl

@[simp] theorem prune_pend : s.prune.pend = s.pend := by
  unfold prune
  split_ifs <;> rfl

/-- Mark and tombstone survive a prune exactly when a job or an entry refers to them. -/
theorem prune_mark :
    s.prune.mark = if 0 < s.pend.getD 0 ∨ s.entry.isSome then s.mark else none := by
  unfold prune
  split_ifs <;> simp_all

/-- See `prune_mark`. -/
theorem prune_tomb :
    s.prune.tomb = if 0 < s.pend.getD 0 ∨ s.entry.isSome then s.tomb else none := by
  unfold prune
  split_ifs <;> simp_all

@[simp] theorem remove_entry : s.remove.entry = none := prune_entry _

@[simp] theorem remove_pend : s.remove.pend = s.pend := prune_pend _

/-- Without an entry, the pending count alone keeps the mark. -/
theorem remove_mark : s.remove.mark = if 0 < s.pend.getD 0 then s.mark else none := by
  simp [remove, prune_mark]

/-- See `remove_mark`. -/
theorem remove_tomb : s.remove.tomb = if 0 < s.pend.getD 0 then s.tomb else none := by
  simp [remove, prune_tomb]

/-- Removing twice is removing once. -/
theorem remove_remove : s.remove.remove = s.remove := by
  ext1
  · simp
  · rw [remove_mark, remove_pend, remove_mark]
    split_ifs <;> rfl
  · rw [remove_tomb, remove_pend, remove_tomb]
    split_ifs <;> rfl
  · simp

@[simp] theorem store_entry : (s.store v dirty).entry = some ⟨s.next, v, dirty⟩ := rfl

@[simp] theorem store_mark : (s.store v dirty).mark = some s.next := rfl

@[simp] theorem store_tomb : (s.store v dirty).tomb = none := rfl

@[simp] theorem store_pend : (s.store v dirty).pend = s.pend := rfl

/-- A stored entry that is evicted leaves no tombstone. -/
@[simp] theorem store_remove_tomb : (s.store v dirty).remove.tomb = none := by
  rw [remove_tomb, store_tomb, ite_self]

@[simp] theorem register_entry : s.register.entry = s.entry := rfl

@[simp] theorem register_mark : s.register.mark = s.mark := rfl

@[simp] theorem register_tomb : s.register.tomb = s.tomb := rfl

@[simp] theorem register_pend : s.register.pend = some (s.pend.getD 0 + 1) := rfl

/-- A delete that leaves a job: the entry is gone, mark and tombstone are the new version. The job is
counted before the entry is removed, so nothing is pruned. -/
theorem bury_remove : s.bury.remove = ⟨none, some s.next, some s.next, some (s.pend.getD 0 + 1)⟩ := by
  ext1 <;> simp [bury, register, remove, prune]

@[simp] theorem resolve_entry : s.resolve.entry = s.entry := prune_entry _

/-- The count after one job less. -/
theorem resolve_pend :
    s.resolve.pend = if 0 < s.pend.getD 0 - 1 then some (s.pend.getD 0 - 1) else none :=
  prune_pend _

/-- The mark goes with the last count unless the entry is there. -/
theorem resolve_mark :
    s.resolve.mark = if 0 < s.pend.getD 0 - 1 ∨ s.entry.isSome then s.mark else none := by
  unfold resolve
  rw [prune_mark]
  split_ifs <;> simp_all

/-- See `resolve_mark`. -/
theorem resolve_tomb :
    s.resolve.tomb = if 0 < s.pend.getD 0 - 1 ∨ s.entry.isSome then s.tomb else none := by
  unfold resolve
  rw [prune_tomb]
  split_ifs <;> simp_all

@[simp] theorem clean_mark : (s.clean op version).mark = s.mark := by cases op <;> rfl

@[simp] theorem clean_tomb : (s.clean op version).tomb = s.tomb := by cases op <;> rfl

@[simp] theorem clean_pend : (s.clean op version).pend = s.pend := by cases op <;> rfl

@[simp] theorem clean_entry_isSome : (s.clean op version).entry.isSome = s.entry.isSome := by
  cases op <;> simp [clean]

/-- An entry after cleaning is an entry before it with the same version and value, which became clean
exactly when a put of its version was flushed. -/
theorem clean_entry {e : Held V} (h : (s.clean op version).entry = some e) :
    ∃ e', s.entry = some e' ∧ e.version = e'.version ∧ e.value = e'.value ∧
      (e.dirty = e'.dirty ∧ (op = .delete ∨ e.version ≠ version) ∨
        e.dirty = false ∧ e.version = version) := by
  cases op with
  | delete => exact ⟨e, h, rfl, rfl, .inl ⟨rfl, .inl rfl⟩⟩
  | put v =>
      simp only [clean, Option.map_eq_some_iff] at h
      obtain ⟨e', he', rfl⟩ := h
      refine ⟨e', he', ?_⟩
      split_ifs with hv
      · exact ⟨rfl, rfl, .inr ⟨rfl, hv⟩⟩
      · exact ⟨rfl, rfl, .inl ⟨rfl, .inr hv⟩⟩

/-! ### What a final flush finds -/

/-- Entry and tombstone are what the last write left, and have the version of the mark. -/
structure Follows (s : Slot V) (last : Option (ℕ × WriteOp V)) : Prop where
  entry : ∀ e, s.entry = some e →
    s.mark = some e.version ∧ s.tomb = none ∧ ∃ o, last = some (o, WriteOp.put e.value)
  tomb : ∀ t, s.tomb = some t → s.mark = some t ∧ ∃ o, last = some (o, WriteOp.delete)

/-- The slot has something to flush: a dirty entry or a tombstone. -/
def Owes (s : Slot V) : Prop := (∃ e, s.entry = some e ∧ e.dirty = true) ∨ s.tomb.isSome

variable {s op version} {last : Option (ℕ × WriteOp V)}

/-- Dropping the entry leaves what the last write left, or nothing. -/
theorem Follows.remove (h : s.Follows last) : s.remove.Follows last where
  entry e he := by simp at he
  tomb t ht := by
    rw [remove_tomb] at ht
    rw [remove_mark]
    split_ifs at ht ⊢ with hc
    exact h.tomb t ht

/-- A flush of the entry or of the tombstone is a flush of the last write and is not stale. -/
theorem Follows.flush (h : s.Follows last)
    (hf : (∃ e, s.entry = some e ∧ e.version = version ∧ op = .put e.value) ∨
      (s.tomb = some version ∧ op = .delete)) :
    s.stale op version = false ∧ ∃ o, last = some (o, op) := by
  rcases hf with ⟨e, he, rfl, rfl⟩ | ⟨ht, rfl⟩
  · obtain ⟨hm, ht, hl⟩ := h.entry e he
    exact ⟨by simp [stale, hm, ht], hl⟩
  · obtain ⟨hm, hl⟩ := h.tomb version ht
    exact ⟨by simp [stale, hm, ht], hl⟩

end Slot

/-- Where an outstanding job stands. -/
inductive Stage
  /-- Not tested yet, or failed and to be tried again. -/
  | waiting
  /-- Passed the staleness test; the source call is still to come. -/
  | checked
  /-- Applied to the source; its count is still to be released. -/
  | landed
  /-- Given up; its count is still to be released. -/
  | doomed
  deriving DecidableEq

/-- The write-behind state of one key. -/
@[ext] structure Cell (V : Type) where
  slot : Slot V
  jobs : Multiset (Stage × Flush V)
  source : Option V
  /-- The position and the effect of the last write. -/
  last : Option (ℕ × WriteOp V)
  /-- The positions of the writes that were applied to the source, newest application first. -/
  applied : List ℕ
  /-- A bound on the positions used so far. -/
  clock : ℕ

/-- The moves that can do harm. -/
structure Permit where
  /-- A put evicts its own key while no job of it is pending. -/
  loseMark : Prop
  /-- A job is applied while an older one is between test and application. -/
  overtake : Prop
  /-- A job is given up. -/
  giveUp : Prop
  /-- The last count of a key with a tombstone is released while the source still holds a value. -/
  forget : Prop
  /-- An entry is evicted or expires. -/
  drop : Prop
  /-- Writes leave no jobs. -/
  direct : Prop

namespace Cell

/-- Releasing a count forgets a tombstone that the source has not seen. -/
def Forgets (c : Cell V) : Prop := c.slot.tomb.isSome ∧ c.jobs.card = 1 ∧ c.source ≠ none

/-- Everything that can happen to the key. -/
inductive Step (p : Permit) : Cell V → Cell V → Prop
  /-- Other keys are written. -/
  | advance (c : Cell V) (n : ℕ) (hn : c.clock ≤ n) : Step p c { c with clock := n }
  /-- The entry is evicted or expires. -/
  | drop (c : Cell V) (h : c.slot.entry.isSome → p.drop) : Step p c { c with slot := c.slot.remove }
  /-- A put that leaves a flush job; capacity enforcement may evict what it stores. -/
  | store (c : Cell V) (v : V) (evicted : Bool)
      (hl : evicted = true → c.slot.pend.getD 0 = 0 → p.loseMark) (hd : evicted = true → p.drop) :
      Step p c
        { c with
          slot := (if evicted then (c.slot.store v true).remove else c.slot.store v true).register
          jobs := (.waiting, ⟨c.slot.next, .put v, c.clock⟩) ::ₘ c.jobs
          last := some (c.clock, WriteOp.put v)
          clock := c.clock + 1 }
  /-- A delete that leaves a flush job. -/
  | bury (c : Cell V) :
      Step p c
        { c with
          slot := c.slot.bury.remove
          jobs := (.waiting, ⟨c.slot.next, .delete, c.clock⟩) ::ₘ c.jobs
          last := some (c.clock, WriteOp.delete)
          clock := c.clock + 1 }
  /-- A put of a mode without flush jobs. -/
  | storeNow (c : Cell V) (v : V) (evicted : Bool) (src : Option V) (hp : p.direct)
      (hj : c.jobs = 0) (hd : evicted = true → p.drop) :
      Step p c
        { c with
          slot := if evicted then (c.slot.store v false).remove else c.slot.store v false
          source := src
          last := some (c.clock, WriteOp.put v)
          clock := c.clock + 1 }
  /-- A delete of a mode without flush jobs. -/
  | eraseNow (c : Cell V) (src : Option V) (hp : p.direct) (hj : c.jobs = 0) :
      Step p c
        { c with
          slot := c.slot.remove
          source := src
          last := some (c.clock, WriteOp.delete)
          clock := c.clock + 1 }
  /-- A job passes the staleness test. -/
  | check (c : Cell V) (f : Flush V) (r : Multiset (Stage × Flush V))
      (hj : c.jobs = (.waiting, f) ::ₘ r) (hs : c.slot.stale f.op f.version = false) :
      Step p c { c with jobs := (.checked, f) ::ₘ r }
  /-- A stale job is skipped. -/
  | skip (c : Cell V) (f : Flush V) (r : Multiset (Stage × Flush V))
      (hj : c.jobs = (.waiting, f) ::ₘ r) (hs : c.slot.stale f.op f.version = true)
      (hf : c.Forgets → p.forget) : Step p c { c with slot := c.slot.resolve, jobs := r }
  /-- A job is applied to the source. -/
  | apply (c : Cell V) (f : Flush V) (r : Multiset (Stage × Flush V))
      (hj : c.jobs = (.checked, f) ::ₘ r)
      (ho : ∀ g, (Stage.checked, g) ∈ r → g.origin < f.origin → p.overtake) :
      Step p c
        { c with
          jobs := (.landed, f) ::ₘ r
          source := f.op.outcome
          applied := f.origin :: c.applied }
  /-- A source call fails; the job is to be tried again. -/
  | retry (c : Cell V) (f : Flush V) (r : Multiset (Stage × Flush V))
      (hj : c.jobs = (.checked, f) ::ₘ r) : Step p c { c with jobs := (.waiting, f) ::ₘ r }
  /-- A job is given up. -/
  | giveUp (c : Cell V) (f : Flush V) (r : Multiset (Stage × Flush V))
      (hj : c.jobs = (.waiting, f) ::ₘ r) (hp : p.giveUp) :
      Step p c { c with jobs := (.doomed, f) ::ₘ r }
  /-- The count of a job that was given up is released. -/
  | release (c : Cell V) (f : Flush V) (r : Multiset (Stage × Flush V))
      (hj : c.jobs = (.doomed, f) ::ₘ r) (hf : c.Forgets → p.forget) :
      Step p c { c with slot := c.slot.resolve, jobs := r }
  /-- The count of an applied job is released and its entry marked clean. -/
  | settle (c : Cell V) (f : Flush V) (r : Multiset (Stage × Flush V))
      (hj : c.jobs = (.landed, f) ::ₘ r) (hf : c.Forgets → p.forget) :
      Step p c { c with slot := (c.slot.clean f.op f.version).resolve, jobs := r }
  /-- One more job for the dirty entry or the tombstone. -/
  | again (c : Cell V) (f : Flush V)
      (hf : (∃ e, c.slot.entry = some e ∧ e.version = f.version ∧ f.op = .put e.value) ∨
        (c.slot.tomb = some f.version ∧ f.op = .delete))
      (ho : ∀ o op, c.last = some (o, op) → f.origin = o) :
      Step p c { c with slot := c.slot.register, jobs := (.waiting, f) ::ₘ c.jobs }

/-- A sequence of moves. -/
abbrev Steps (p : Permit) : Cell V → Cell V → Prop := Relation.ReflTransGen (Step p)

end Cell

end WriteBehind

end CacheLab
