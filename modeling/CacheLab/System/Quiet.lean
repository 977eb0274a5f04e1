import CacheLab.System.Base
import CacheLab.Lib.WriteBehindDrain

/-!
# Threads that write nothing

A put, a delete or a clear checks the lifecycle first and writes later, in lock sections of its own
(`Thread.writing`). Everybody else leaves the entries, marks, tombstones and pending counts alone except
for what is no write (`Slot.Eases`): expired entries are dropped, flushed entries are marked clean, and
pending counts go up and down. `threadStep_quiet` says so, and that nobody starts to write but by passing
the lifecycle check.
-/

set_option linter.unusedSectionVars false

namespace CacheLab

variable {α V T : Type} [DecidableEq α] [LinearOrder T] [Zero T] [Add T] [Sub T]

open WriteBehind

variable {cfg : AcceptedConfig T} {hash : Key α → ℕ}

/-- The thread is in a put, a delete or a clear, past its lifecycle check. -/
def Thread.writing : Thread α V T → Bool
  | .running (.put _ _ _) _ => true
  | .running (.delete _) _ => true
  | .running .clear _ => true
  | .clearing _ _ => true
  | .enqueuing _ _ => true
  | .releasing _ _ => true
  | _ => false

/-- The lifecycle check lets nobody pass any more. -/
def Shared.shut (s : Shared α V cfg) : Prop :=
  s.lifecycle = .closing ∨ s.lifecycle = .closed ∨ s.lifecycle = .abandoned

/-- What a thread that does not write does: no write, and it starts to write at most by passing the
lifecycle check. -/
structure Quiet (s : Shared α V cfg) (th : Thread α V T) (s' : Shared α V cfg) (th' : Thread α V T) :
    Prop where
  eases : ∀ i k, ((s.shards i).slot k).Eases ((s'.shards i).slot k)
  writing : th'.writing = true → ¬ s.shut ∧ ∃ op caller, th = .entering op caller ∧ th' = .running op caller

section Steps

variable {s s' : Shared α V cfg} {c : Choice α V} {th th' : Thread α V T}

/-- The shards stay as they are. -/
theorem Quiet.of_shards_eq (hs : s'.shards = s.shards) (hth' : th'.writing = false) :
    Quiet s th s' th' := by
  refine ⟨fun i k => ?_, fun h => ?_⟩
  · rw [hs]
    exact .refl _
  · rw [hth'] at h
    cases h

/-- One shard changes. -/
theorem Quiet.of_update {i : Fin cfg.shardCount} {sh' : CacheShard α V T}
    (hs : s'.shards = Function.update s.shards i sh')
    (h : ∀ k, ((s.shards i).slot k).Eases (sh'.slot k)) (hth' : th'.writing = false) :
    Quiet s th s' th' := by
  refine ⟨fun j k => ?_, fun hw => ?_⟩
  · rw [hs]
    by_cases hj : j = i
    · subst hj
      rw [Function.update_self]
      exact h k
    · rw [Function.update_of_ne hj]
      exact .refl _
  · rw [hth'] at hw
    cases hw

/-- A section that is no write drops expired entries at most. -/
theorem CacheShard.Tended.eases {sh sh' : CacheShard α V T} {now : T} (h : Tended now sh sh')
    (k : Key α) : (sh.slot k).Eases (sh'.slot k) := by
  rcases h.key k with ⟨hslot, -⟩ | ⟨-, -, -, -, hslot, -⟩
  · rw [hslot]
    exact .refl _
  · rw [hslot]
    exact .remove _

/-- A change in the slot of one key. -/
theorem CacheShard.eases_of_update {sh sh' : CacheShard α V T} {key : Key α} {x : Slot V}
    (hx : sh'.slot = Function.update sh.slot key x) (h : (sh.slot key).Eases x) (k : Key α) :
    (sh.slot k).Eases (sh'.slot k) := by
  rw [hx]
  by_cases hk : k = key
  · subst hk
    rw [Function.update_self]
    exact h
  · rw [Function.update_of_ne hk]
    exact .refl _

/-- Counting a list of jobs is no write. -/
theorem CacheShard.eases_registerAll (sh : CacheShard α V T) (jobs : List (FlushWriteBack α V))
    (k : Key α) : (sh.slot k).Eases ((sh.registerAll jobs).slot k) := by
  unfold CacheShard.registerAll
  induction jobs generalizing sh with
  | nil => exact .refl _
  | cons job jobs ih =>
      rw [List.foldl_cons]
      exact (eases_of_update (slot_registerPendingLocked sh job.key) (.register _) k).trans (ih _)

/-- A caller that got an answer does not write. -/
theorem Caller.writing_returned (caller : Caller α V T) :
    (caller.returned : Thread α V T).writing = false := by
  cases caller <;> rfl

/-- See `Caller.writing_returned`. -/
theorem Caller.writing_raised (caller : Caller α V T) (exn : Exn) :
    (caller.raised exn : Thread α V T).writing = false := by
  cases caller with
  | client result => rfl
  | preloader => rfl
  | leader key flight value => cases exn <;> rfl

/-- A public operation that does not write. -/
theorem clientStep_quiet (h : clientStep hash s c th = some (s', th')) (hw : th.writing = false) :
    Quiet s th s' th' := by
  cases th with
  | entering op caller =>
      rcases entering_cases h with ⟨rfl, ⟨exn, rfl⟩, -⟩ | ⟨rfl, rfl, hclosing, hclosed, habandoned, -⟩ |
        ⟨rfl, rfl, -⟩ | ⟨rfl, -, -, flush, -, hth'⟩
      · refine .of_shards_eq ?_ (caller.writing_raised exn)
        cases caller <;> rfl
      · refine ⟨fun i k => .refl _, fun _ => ⟨fun hshut => ?_, op, caller, rfl, rfl⟩⟩
        exact hshut.elim hclosing fun hshut => hshut.elim hclosed habandoned
      · exact .of_shards_eq rfl rfl
      · refine .of_shards_eq rfl ?_
        rw [hth']
        split_ifs <;> rfl
  | running op caller =>
      cases op with
      | get key =>
          cases h
          exact .of_update rfl (CacheShard.tended_readValueLocked _ key true true s.now).eases rfl
      | contains key =>
          cases h
          exact .of_update rfl (CacheShard.tended_readValueLocked _ key false true s.now).eases rfl
      | inspect key =>
          cases h
          exact .of_update rfl (CacheShard.tended_inspectLocked _ key s.now).eases rfl
      | getOrCompute key ttl =>
          have ht := CacheShard.tended_getOrComputeLocked (s.shards (shardFor cfg hash key)) key s.now
            s.flights.length
          simp only [clientStep] at h
          split at h <;> cases h <;> exact .of_update rfl ht.eases rfl
      | restoreEntryMetadata key n =>
          cases h
          exact .of_update rfl (CacheShard.tended_restoreEntryMetadata _ key n s.now).eases rfl
      | put key value ttl => cases hw
      | delete key => cases hw
      | clear => cases hw
      | close flush => cases h
      | _ =>
          cases h
          exact .of_shards_eq rfl rfl
  | sizing i total =>
      simp only [clientStep] at h
      split_ifs at h <;> cases h <;> exact .of_shards_eq rfl rfl
  | dumping i taken limit =>
      simp only [clientStep] at h
      split_ifs at h with hi
      · cases h
        exact .of_update rfl (CacheShard.tended_dumpLocked _ s.now).eases rfl
      · cases h
        exact .of_shards_eq rfl rfl
  | expiring i removed =>
      simp only [clientStep] at h
      split_ifs at h with hi
      · cases h
        exact .of_update rfl (CacheShard.tended_expireShard _ s.now).eases rfl
      · cases h
        exact .of_shards_eq rfl rfl
  | leading key ttl flight =>
      cases h
      exact .of_shards_eq rfl rfl
  | loading key ttl flight =>
      simp only [clientStep] at h
      split at h <;> cases h <;> exact .of_shards_eq rfl rfl
  | publishing key flight value =>
      cases h
      exact .of_update rfl (CacheShard.tended_unregisterFlight _ key s.now).eases rfl
  | failing key flight exn =>
      cases h
      exact .of_update rfl (CacheShard.tended_unregisterFlight _ key s.now).eases rfl
  | waiting flight =>
      obtain ⟨rfl, result, rfl, -⟩ := waiting_cases h
      exact .of_shards_eq rfl rfl
  | clearing i ts => cases hw
  | enqueuing ts caller => cases hw
  | releasing ts caller => cases hw
  | _ => cases h

/-- A worker does not write. -/
theorem workerStep_quiet (h : workerStep s c th = some (s', th')) : Quiet s th s' th' := by
  have hrelease : ∀ (sh : CacheShard α V T) (key k : Key α),
      (sh.slot k).Eases ((sh.resolvePendingLocked key).slot k) := fun sh key =>
    CacheShard.eases_of_update (CacheShard.slot_resolvePendingLocked sh key) (.resolve _)
  cases th with
  | idle =>
      simp only [workerStep] at h
      split at h
      · cases h
        exact .of_shards_eq rfl rfl
      · split_ifs at h
        cases h
        exact .of_shards_eq rfl rfl
  | handling job =>
      cases job with
      | stopWorker =>
          cases h
          exact .of_shards_eq rfl rfl
      | expireShard i =>
          obtain ⟨s₁, hs₁, heq⟩ := Option.map_eq_some_iff.mp h
          obtain ⟨hlt, rfl⟩ := Shared.onShard_eq_some.mp hs₁
          cases heq
          exact .of_update rfl (CacheShard.tended_expireShard _ s.now).eases rfl
      | snapshotStats id =>
          cases h
          exact .of_shards_eq rfl rfl
      | preloadKey i key ttl =>
          simp only [workerStep] at h
          split at h <;> cases h <;> exact .of_shards_eq rfl rfl
      | flushWriteBack t =>
          simp only [workerStep] at h
          split_ifs at h with hlt hst
          · cases h
            exact .of_update rfl (hrelease _ t.job.key) rfl
          · cases h
            exact .of_shards_eq rfl rfl
  | checked t =>
      simp only [workerStep] at h
      split_ifs at h <;> cases h <;> exact .of_shards_eq rfl rfl
  | failed t =>
      simp only [workerStep] at h
      split_ifs at h <;> cases h <;> exact .of_shards_eq rfl rfl
  | dropped t =>
      obtain ⟨s₁, hs₁, heq⟩ := Option.map_eq_some_iff.mp h
      obtain ⟨hlt, rfl⟩ := Shared.onShard_eq_some.mp hs₁
      cases heq
      exact .of_update rfl (hrelease _ t.job.key) rfl
  | landed t =>
      obtain ⟨s₁, hs₁, heq⟩ := Option.map_eq_some_iff.mp h
      obtain ⟨hlt, rfl⟩ := Shared.onShard_eq_some.mp hs₁
      cases heq
      exact .of_update rfl (CacheShard.eases_of_update (CacheShard.slot_finalizeLocked _ t.job)
        ((Slot.Eases.clean _ _ _).trans (.resolve _))) rfl
  | finishing =>
      cases h
      exact .of_shards_eq rfl rfl
  | _ => cases h

/-- `close` does not write. -/
theorem closeStep_quiet (h : closeStep s c th = some (s', th')) : Quiet s th s' th' := by
  have hnext : ∀ i, (closeNext cfg i : Thread α V T).writing = false := by
    intro i
    unfold closeNext
    split_ifs <;> rfl
  have hclear : ∀ (sh : CacheShard α V T) (key k : Key α),
      (sh.slot k).Eases ((sh.clearPendingFlushesLocked key).slot k) := fun sh key =>
    CacheShard.eases_of_update (CacheShard.slot_clearPendingFlushesLocked sh key) (.clearPend _)
  cases th with
  | closeCollect i =>
      simp only [closeStep] at h
      split_ifs at h
      cases h
      exact .of_update rfl (CacheShard.eases_registerAll _ _) rfl
  | closeEnqueue i ts =>
      cases ts with
      | nil =>
          cases h
          exact .of_shards_eq rfl (hnext i)
      | cons t ts =>
          simp only [closeStep] at h
          split_ifs at h <;> cases h <;> exact .of_shards_eq rfl rfl
  | closeRelease i ts =>
      cases ts with
      | nil =>
          cases h
          exact .of_shards_eq rfl (hnext i)
      | cons t ts =>
          obtain ⟨s₁, hs₁, heq⟩ := Option.map_eq_some_iff.mp h
          obtain ⟨hlt, rfl⟩ := Shared.onShard_eq_some.mp hs₁
          cases heq
          exact .of_update rfl (CacheShard.eases_of_update
            (CacheShard.slot_resolvePendingLocked _ t.job.key) (.resolve _)) rfl
  | closeJoin =>
      simp only [closeStep] at h
      split_ifs at h <;> cases h <;> exact .of_shards_eq rfl rfl
  | syncCollect i failed =>
      simp only [closeStep] at h
      split_ifs at h <;> cases h <;> exact .of_shards_eq rfl rfl
  | syncNext i ts failed =>
      cases ts with
      | nil =>
          cases h
          exact .of_shards_eq rfl rfl
      | cons t ts =>
          simp only [closeStep] at h
          split_ifs at h with hlt hst <;> cases h
          · exact .of_update rfl (hclear _ t.job.key) rfl
          · exact .of_shards_eq rfl rfl
  | syncTry i t left ts failed =>
      simp only [closeStep] at h
      split_ifs at h
      · cases h
        refine .of_shards_eq rfl ?_
        cases t.job.operation <;> rfl
      · cases left with
        | zero =>
            cases h
            exact .of_shards_eq rfl rfl
        | succ left =>
            cases h
            exact .of_shards_eq rfl rfl
  | syncClean i t ts failed =>
      obtain ⟨s₁, hs₁, heq⟩ := Option.map_eq_some_iff.mp h
      obtain ⟨hlt, rfl⟩ := Shared.onShard_eq_some.mp hs₁
      cases heq
      exact .of_update rfl (CacheShard.eases_of_update (CacheShard.slot_markCleanLocked _ t.job)
        (.clean _ _ _)) rfl
  | syncSettle i t success ts failed =>
      obtain ⟨s₁, hs₁, heq⟩ := Option.map_eq_some_iff.mp h
      obtain ⟨hlt, rfl⟩ := Shared.onShard_eq_some.mp hs₁
      cases heq
      refine .of_update (i := ⟨i, hlt⟩) ?_ (hclear _ t.job.key) rfl
      split_ifs <;> rfl
  | closeStop failed =>
      simp only [closeStep] at h
      split_ifs at h <;> cases h <;> exact .of_shards_eq rfl rfl
  | closeDrain failed =>
      cases h
      exact .of_shards_eq rfl rfl
  | _ => cases h

/-- **What a thread that does not write does.** -/
theorem threadStep_quiet (h : threadStep hash s c th = some (s', th')) (hw : th.writing = false) :
    Quiet s th s' th' := by
  rcases threadStep_cases h with h | h | h
  · exact clientStep_quiet h hw
  · exact workerStep_quiet h
  · exact closeStep_quiet h

end Steps

end CacheLab
