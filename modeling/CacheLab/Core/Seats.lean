import CacheLab.Core.Sections

/-!
# What a section does not look at

No section looks at the number of its shard, except to write it into a flush job, and only `delete`, `clear` and
`get_or_compute` look at the single-flight registry. `sh.seat a d` is the shard `sh` with the number `a` and the
registry `d` instead of its own, and the lemmas say that the sections commute with it. So a shard does not know
how many shards there are beside it.
-/

set_option linter.unusedSectionVars false

namespace CacheLab

variable {α V T : Type} [DecidableEq α] [LinearOrder T] [Zero T] [Add T]

namespace CacheShard

/-- The shard with another number and another registry of flights. -/
def seat (sh : CacheShard α V T) (a : ℕ) (d : OrderedDict (Key α) ℕ) : CacheShard α V T :=
  { sh with index := a, singleflight := d }

section Fields

variable (sh : CacheShard α V T) (a b : ℕ) (d d' : OrderedDict (Key α) ℕ)

@[simp] theorem seat_capacity : (sh.seat a d).capacity = sh.capacity := rfl

@[simp] theorem seat_backend : (sh.seat a d).backend = sh.backend := rfl

@[simp] theorem seat_policy : (sh.seat a d).policy = sh.policy := rfl

@[simp] theorem seat_stats : (sh.seat a d).stats = sh.stats := rfl

@[simp] theorem seat_singleflight : (sh.seat a d).singleflight = d := rfl

@[simp] theorem seat_versionMarks : (sh.seat a d).versionMarks = sh.versionMarks := rfl

@[simp] theorem seat_tombstones : (sh.seat a d).tombstones = sh.tombstones := rfl

@[simp] theorem seat_pendingFlushes : (sh.seat a d).pendingFlushes = sh.pendingFlushes := rfl

/-- The last seat counts. -/
@[simp] theorem seat_seat : (sh.seat a d).seat b d' = sh.seat b d' := rfl

end Fields

section Sections

variable (sh : CacheShard α V T) (a : ℕ) (d : OrderedDict (Key α) ℕ) (key : Key α) (now : T)

@[simp] theorem maybePruneMarksLocked_seat :
    (sh.seat a d).maybePruneMarksLocked key = (sh.maybePruneMarksLocked key).seat a d := by
  unfold maybePruneMarksLocked seat
  dsimp only
  split_ifs <;> rfl

@[simp] theorem removeEntryLocked_seat (reason : RemoveReason) :
    (sh.seat a d).removeEntryLocked key reason =
      ((sh.removeEntryLocked key reason).1, (sh.removeEntryLocked key reason).2.seat a d) :=
  congrArg (Prod.mk _) (maybePruneMarksLocked_seat
    { sh with
      backend := sh.backend.deleteEntry key
      policy := sh.policy.onDelete key
      stats := if (sh.backend.getEntry key).isSome then countRemoval sh.stats reason else sh.stats } a d key)

/-- One round of the loop. -/
theorem enforceLoop_round {sh : CacheShard α V T} (h : sh.capacity < sh.backend.size) (n : ℕ) :
    enforceLoop (n + 1) sh = match sh.policy.evictCandidate with
      | none => sh
      | some x => enforceLoop n (sh.removeEntryLocked (some x) .evict).2 := if_pos h

theorem enforceLoop_seat (n : ℕ) : enforceLoop n (sh.seat a d) = (enforceLoop n sh).seat a d := by
  induction n generalizing sh with
  | zero => rfl
  | succ n ih =>
      by_cases hc : sh.capacity < sh.backend.size
      · have hc' : (sh.seat a d).capacity < (sh.seat a d).backend.size := hc
        rw [enforceLoop_round hc, enforceLoop_round hc', seat_policy]
        cases sh.policy.evictCandidate with
        | none => rfl
        | some x =>
            simp only [removeEntryLocked_seat]
            exact ih _
      · have hstop : ∀ sh' : CacheShard α V T, ¬ sh'.capacity < sh'.backend.size →
            enforceLoop (n + 1) sh' = sh' := fun sh' h => if_neg h
        rw [hstop _ hc, hstop (sh.seat a d) hc]

@[simp] theorem enforceCapacityLocked_seat :
    (sh.seat a d).enforceCapacityLocked = sh.enforceCapacityLocked.seat a d :=
  enforceLoop_seat sh a d sh.policy.len

@[simp] theorem dropExpired_seat : (sh.seat a d).dropExpired key now = (sh.dropExpired key now).seat a d := by
  unfold dropExpired
  rw [seat_backend]
  cases sh.backend.getEntry key with
  | none => rfl
  | some e =>
      simp only [removeEntryLocked_seat]
      split_ifs <;> rfl

@[simp] theorem readValueLocked_seat (touch countStats : Bool) :
    (sh.seat a d).readValueLocked key touch countStats now =
      ((sh.readValueLocked key touch countStats now).1,
        (sh.readValueLocked key touch countStats now).2.seat a d) := by
  unfold readValueLocked
  rw [seat_backend]
  cases sh.backend.getEntry key with
  | none => cases countStats <;> rfl
  | some e =>
      simp only [removeEntryLocked_seat]
      split_ifs <;> rfl

@[simp] theorem removeEntriesLocked_seat (keys : List (Key α)) (reason : RemoveReason) :
    (sh.seat a d).removeEntriesLocked keys reason =
      ((sh.removeEntriesLocked keys reason).1, (sh.removeEntriesLocked keys reason).2.seat a d) := by
  have hfold : ∀ (keys : List (Key α)) (n : ℕ) (sh : CacheShard α V T),
      keys.foldl (fun acc key =>
          (if (acc.2.removeEntryLocked key reason).1 then acc.1 + 1 else acc.1,
            (acc.2.removeEntryLocked key reason).2)) (n, sh.seat a d) =
        ((keys.foldl (fun acc key =>
          (if (acc.2.removeEntryLocked key reason).1 then acc.1 + 1 else acc.1,
            (acc.2.removeEntryLocked key reason).2)) (n, sh)).1,
          (keys.foldl (fun acc key =>
          (if (acc.2.removeEntryLocked key reason).1 then acc.1 + 1 else acc.1,
            (acc.2.removeEntryLocked key reason).2)) (n, sh)).2.seat a d) := by
    intro keys
    induction keys with
    | nil => exact fun n sh => rfl
    | cons key keys ih =>
        intro n sh
        simp only [List.foldl_cons, removeEntryLocked_seat]
        exact ih _ _
  exact hfold keys 0 sh

@[simp] theorem expireShard_seat :
    (sh.seat a d).expireShard now = ((sh.expireShard now).1, (sh.expireShard now).2.seat a d) :=
  removeEntriesLocked_seat sh a d _ .expire

@[simp] theorem inspectLocked_seat [Sub T] :
    (sh.seat a d).inspectLocked key now = ((sh.inspectLocked key now).1, (sh.inspectLocked key now).2.seat a d) := by
  unfold inspectLocked
  simp only [dropExpired_seat, seat_backend]

@[simp] theorem dumpLocked_seat [Sub T] :
    (sh.seat a d).dumpLocked now = ((sh.dumpLocked now).1, (sh.dumpLocked now).2.seat a d) := by
  have hfold : ∀ (entries : List (CacheEntry α V T)) (taken : List (EntrySnapshot α V T))
      (sh : CacheShard α V T),
      entries.foldl (fun acc e =>
          if e.isExpired now then (acc.1, (acc.2.removeEntryLocked e.key .expire).2)
          else (acc.1 ++ [e.snapshot now], acc.2)) (taken, sh.seat a d) =
        ((entries.foldl (fun acc e =>
          if e.isExpired now then (acc.1, (acc.2.removeEntryLocked e.key .expire).2)
          else (acc.1 ++ [e.snapshot now], acc.2)) (taken, sh)).1,
          (entries.foldl (fun acc e =>
          if e.isExpired now then (acc.1, (acc.2.removeEntryLocked e.key .expire).2)
          else (acc.1 ++ [e.snapshot now], acc.2)) (taken, sh)).2.seat a d) := by
    intro entries
    induction entries with
    | nil => exact fun taken sh => rfl
    | cons e entries ih =>
        intro taken sh
        simp only [List.foldl_cons, removeEntryLocked_seat]
        split_ifs
        · exact ih _ _
        · exact ih _ _
  exact hfold sh.backend.entryList [] sh

@[simp] theorem storeLocked_seat (cfg : CacheConfig T) (value : V) (ttl : Ttl T) :
    (sh.seat a d).storeLocked cfg key value ttl now = (sh.storeLocked cfg key value ttl now).seat a d := rfl

/-- A put in cache-only mode. -/
theorem putLocked_seat {cfg : CacheConfig T} (hmode : cfg.writeMode = .cacheOnly) (src src' : Source α V)
    (value : V) (ttl : Ttl T) (ok ok' : Bool) :
    ((sh.seat a d).putLocked cfg src' key value ttl now ok').shard =
      (sh.putLocked cfg src key value ttl now ok).shard.seat a d := by
  simp [putLocked, hmode]

@[simp] theorem removeCounted_seat : (sh.seat a d).removeCounted key = (sh.removeCounted key).seat a d := by
  unfold removeCounted
  simp only [removeEntryLocked_seat]
  split_ifs <;> rfl

/-- What is left of the shared part of `delete` and `clear` in cache-only mode. -/
theorem eraseLocked_of_cacheOnly {cfg : CacheConfig T} (hmode : cfg.writeMode = .cacheOnly) (src : Source α V) :
    sh.eraseLocked cfg src key = { shard := sh.removeCounted key, source := src } := by
  simp [eraseLocked, hmode]

/-- A delete in cache-only mode. -/
theorem deleteLocked_seat {cfg : CacheConfig T} (hmode : cfg.writeMode = .cacheOnly) (src src' : Source α V)
    (ok ok' : Bool) :
    ((sh.seat a d).deleteLocked cfg src' key ok').shard =
      (sh.deleteLocked cfg src key ok).shard.seat a (d.erase key) := by
  have hthrough : ∀ ok : Bool, ¬ (cfg.writeMode = .writeThrough ∧ ok = false) := by simp [hmode]
  unfold deleteLocked
  rw [if_neg (hthrough _), if_neg (hthrough _)]
  simp only [eraseLocked_of_cacheOnly _ _ hmode, removeCounted_seat]
  rfl

/-- The shard after a clear in cache-only mode.
Source: `core/cache.py` `Cache.clear` -/
def emptied (sh : CacheShard α V T) : CacheShard α V T :=
  let sh := sh.backend.keys.foldl removeCounted sh
  { sh with policy := sh.policy.clear, singleflight := .empty }

/-- A clear in cache-only mode: no source call, no jobs. -/
theorem clearLocked_of_cacheOnly {cfg : CacheConfig T} (hmode : cfg.writeMode = .cacheOnly) (src : Source α V)
    (ok : Key α → Bool) : sh.clearLocked cfg src ok = { shard := sh.emptied, source := src } := by
  have hkeys : ∀ (keys : List (Key α)) (sh : CacheShard α V T),
      clearKeysLocked cfg ok keys sh src [] =
        { shard := { keys.foldl removeCounted sh with
            policy := (keys.foldl removeCounted sh).policy.clear
            singleflight := .empty }
          source := src } := by
    intro keys
    induction keys with
    | nil => exact fun sh => rfl
    | cons key keys ih =>
        intro sh
        have hthrough : ¬ (cfg.writeMode = .writeThrough ∧ ok key = false) := by simp [hmode]
        rw [clearKeysLocked, if_neg hthrough]
        simp only [eraseLocked_of_cacheOnly _ _ hmode, List.append_nil]
        exact ih _
  exact hkeys _ _

@[simp] theorem emptied_seat : (sh.seat a d).emptied = sh.emptied.seat a .empty := by
  have hfold : ∀ (keys : List (Key α)) (sh : CacheShard α V T),
      keys.foldl removeCounted (sh.seat a d) = (keys.foldl removeCounted sh).seat a d := by
    intro keys
    induction keys with
    | nil => exact fun sh => rfl
    | cons key keys ih =>
        intro sh
        rw [List.foldl_cons, List.foldl_cons, removeCounted_seat, ih]
  unfold emptied
  simp only [seat_backend, hfold]
  rfl

end Sections

end CacheShard

end CacheLab
