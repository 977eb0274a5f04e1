import CacheLab.Lib.Tour
import CacheLab.System.Rounds
import CacheLab.System.Closing

/-!
# Calls that visit all shards, with other calls in between

`size`, `dump` and `expire_all` take the lock of one shard at a time. Nothing keeps the shards that were visited as
they were, so none of the three answers for a state of the cache. What they answer for is a tour
(`Lib/Tour.lean`): one look at each shard, in the order of the shards, each at some moment of the call.

`Rounds.At` says where the thread of such a call stands and that what it collected is a tour of the run since the
call; `Rounds.At.step` is its step lemma and `rounds_at` its run lemma. Nothing here depends on the write mode.
-/

set_option linter.unusedSectionVars false

namespace CacheLab

variable {α V T : Type} [DecidableEq α] [LinearOrder T] [Zero T] [Add T] [Sub T]

open Transition (Tour Visited)

variable {cfg : AcceptedConfig T} {hash : Key α → ℕ}

/-! ### What a visit finds -/

/-- What the section of a sweeping call finds in the shard at index `j`. -/
def Sweep.found (w : Sweep α V T) (t : System α V cfg) (j : ℕ) : w.β :=
  if h : j < cfg.shardCount then (w.visit t.shared.now (t.shared.shards ⟨j, h⟩)).1 else w.zero

/-- What a sweeping call has collected from the answers of the shards that it visited. -/
def Sweep.collected (w : Sweep α V T) (bs : List w.β) : w.β := bs.foldl w.add w.zero

/-- The steps of a sweeping call whose section cannot fail. -/
structure Rounds.Reads (hash : Key α → ℕ) (w : Sweep α V T) (r : Rounds α V T w.β) : Prop where
  start : ∀ {cfg : AcceptedConfig T} (s : Shared α V cfg) (c : Choice α V) (caller : Caller α V T),
    threadStep hash s c (.running r.op caller) = some (s, r.point 0 w.zero)
  visit : ∀ {cfg : AcceptedConfig T} (s : Shared α V cfg) (c : Choice α V) (i : Fin cfg.shardCount) (b : w.β),
    threadStep hash s c (r.point i b) =
      some (s.setShard i (w.visit s.now (s.shards i)).2, r.point (i + 1) (w.add b (w.visit s.now (s.shards i)).1))
  stop : ∀ {cfg : AcceptedConfig T} (s : Shared α V cfg) (c : Choice α V) (b : w.β),
    threadStep hash s c (r.point cfg.shardCount b) = some (s, Thread.finished (r.out b))
  open_op : ∀ flush, r.op ≠ .close flush

/-- `size` reads. -/
theorem reads_size : (sizeSweep α V T).whole.Reads hash (sizeSweep α V T) where
  start s c caller := rfl
  visit s c i b := by
    have hkeep : s.setShard i (s.shards i) = s := by
      unfold Shared.setShard
      rw [Function.update_eq_self]
    simp [threadStep, clientStep, sizeSweep, hkeep]
  stop s c b := by simp [threadStep, clientStep, sizeSweep]
  open_op flush h := by cases h

/-- `expire_all` reads. -/
theorem reads_expire : (expireSweep α V T).whole.Reads hash (expireSweep α V T) where
  start s c caller := rfl
  visit s c i b := by simp [threadStep, clientStep, expireSweep]
  stop s c b := by simp [threadStep, clientStep, expireSweep]
  open_op flush h := by cases h

/-- `dump` reads. -/
theorem reads_dump (limit : Option ℤ) :
    (dumpSweep α V limit : Sweep α V T).whole.Reads hash (dumpSweep α V limit) where
  start s c caller := rfl
  visit s c i b := by simp [threadStep, clientStep, dumpSweep]
  stop s c b := by simp [threadStep, clientStep, dumpSweep]
  open_op flush h := by cases h

/-! ### Where the thread stands -/

/-- The points of the thread of a sweeping call that came in at `s`, after the run of `ls` from there. -/
inductive Rounds.At (hash : Key α → ℕ) (w : Sweep α V T) (r : Rounds α V T w.β) (s : System α V cfg)
    (ls : List (Label α V T)) : Thread α V T → Prop
  | entering : At hash w r s ls (.entering r.op (.client .done))
  | running : At hash w r s ls (.running r.op (.client .done))
  | visiting (bs : List w.β) (htour : Tour (step cfg hash) w.found s ls bs) (hle : bs.length ≤ cfg.shardCount) :
      At hash w r s ls (r.point bs.length (w.collected bs))
  | answered (bs : List w.β) (htour : Tour (step cfg hash) w.found s ls bs) (hlen : bs.length = cfg.shardCount) :
      At hash w r s ls (.finished (r.out (w.collected bs)))
  | refused (exn : Exn) : At hash w r s ls (.finished (.raised exn))

section At

variable {w : Sweep α V T} {r : Rounds α V T w.β} {s t t' : System α V cfg} {ls ms : List (Label α V T)}
  {th th' : Thread α V T}

/-- Time passes. -/
theorem Rounds.At.mono (h : r.At hash w s ms th) (hms : ms <+: ls) : r.At hash w s ls th := by
  cases h with
  | entering => exact .entering
  | running => exact .running
  | visiting bs htour hle => exact .visiting bs (htour.mono hms) hle
  | answered bs htour hlen => exact .answered bs (htour.mono hms) hlen
  | refused exn => exact .refused exn

/-- One answer more. -/
theorem Sweep.collected_append (w : Sweep α V T) (bs : List w.β) (b : w.β) :
    w.collected (bs ++ [b]) = w.add (w.collected bs) b := by
  unfold Sweep.collected
  rw [List.foldl_append]
  rfl

/-- A step of the thread: it looks at the next shard as it is now. -/
theorem Rounds.At.step (hreads : r.Reads hash w) (h : r.At hash w s ls th)
    (hrun : Transition.run (step cfg hash) s ls = some t) {c : Choice α V} {shared' : Shared α V cfg}
    (hstep : threadStep hash t.shared c th = some (shared', th')) : r.At hash w s ls th' := by
  cases h with
  | entering =>
      have hclient : clientStep hash t.shared c (.entering r.op (.client .done)) = some (shared', th') := by
        rcases threadStep_cases hstep with h | h | h
        · exact h
        · cases h
        · cases h
      rcases entering_cases hclient with ⟨-, ⟨exn, rfl⟩, -⟩ | ⟨-, rfl, -⟩ | ⟨-, -, flush, hop⟩ | ⟨-, -, -, flush, hop, -⟩
      · exact .refused exn
      · exact .running
      · exact absurd hop (hreads.open_op flush)
      · exact absurd hop (hreads.open_op flush)
  | running =>
      rw [hreads.start, Option.some.injEq, Prod.mk.injEq] at hstep
      obtain ⟨-, rfl⟩ := hstep
      exact .visiting [] (.start ls) (Nat.zero_le _)
  | visiting bs htour hle =>
      rcases Nat.lt_or_eq_of_le hle with hlt | heq
      · have hvisit := hreads.visit t.shared c ⟨bs.length, hlt⟩ (w.collected bs)
        rw [hvisit, Option.some.injEq, Prod.mk.injEq] at hstep
        obtain ⟨-, rfl⟩ := hstep
        have hfound : w.found t bs.length = (w.visit t.shared.now (t.shared.shards ⟨bs.length, hlt⟩)).1 := dif_pos hlt
        rw [← hfound, ← Sweep.collected_append]
        have hlen : (bs ++ [w.found t bs.length]).length = bs.length + 1 := by simp
        have hnext : r.At hash w s ls (r.point (bs ++ [w.found t bs.length]).length
            (w.collected (bs ++ [w.found t bs.length]))) :=
          .visiting _ (htour.look hrun) (hlen ▸ hlt)
        rwa [hlen] at hnext
      · rw [heq, hreads.stop, Option.some.injEq, Prod.mk.injEq] at hstep
        obtain ⟨-, rfl⟩ := hstep
        exact .answered bs htour heq
  | answered bs htour hlen =>
      rw [threadStep_of_isFinished rfl] at hstep
      cases hstep
  | refused exn =>
      rw [threadStep_of_isFinished rfl] at hstep
      cases hstep

/-- A thread that came in stays in its place, and moves by its own steps only. -/
theorem step_thread {i : ℕ} {l : Label α V T} (hstep : CacheLab.step cfg hash t l = some t')
    (hth : t.threads[i]? = some th) :
    t'.threads[i]? = some th ∨
      ∃ c th', threadStep hash t.shared c th = some (t'.shared, th') ∧ t'.threads[i]? = some th' := by
  rcases step_cases hstep with ⟨now, -, -, rfl⟩ | ⟨new, -, -, hthreads, -, -⟩ | ⟨j, c, x, x', -, hj, hx, hthreads⟩
  · exact .inl hth
  · obtain ⟨hi, -⟩ := List.getElem?_eq_some_iff.mp hth
    refine .inl ?_
    rw [hthreads, List.getElem?_append_left hi, hth]
  · obtain ⟨hi, -⟩ := List.getElem?_eq_some_iff.mp hth
    by_cases hij : i = j
    · subst hij
      obtain rfl : th = x := Option.some.inj (hth.symm.trans hj)
      refine .inr ⟨c, x', hx, ?_⟩
      rw [hthreads, List.getElem?_set_self hi]
    · refine .inl ?_
      rw [hthreads, List.getElem?_set_ne (Ne.symm hij), hth]

/-- **A sweeping call is a tour**: after every run since the call, its thread stands at one of the points. -/
theorem rounds_at (hreads : r.Reads hash w) {s₀ : System α V cfg}
    (hcall : CacheLab.step cfg hash s₀ (.call r.op) = some s) (hrun : exec cfg hash s ls = some t) :
    ∃ th, t.threads[s₀.threads.length]? = some th ∧ r.At hash w s ls th := by
  refine @Transition.path_invariant _ _ _ s t ls
    (fun ms u => ∃ th, u.threads[s₀.threads.length]? = some th ∧ r.At hash w s ms th) hrun ?_ ?_
  · rintro ms u l u' hms hstep ⟨th, hth, hat⟩
    rcases step_thread hstep hth with hkeep | ⟨c, th', hthread, hth'⟩
    · exact ⟨th, hkeep, hat.mono (List.prefix_append ms [l])⟩
    · exact ⟨th', hth', (hat.step hreads hms hthread).mono (List.prefix_append ms [l])⟩
  · obtain rfl := Option.some.inj hcall
    exact ⟨_, by simp, .entering⟩

end At

/-! ### What the sections leave behind -/

/-- The points of a sweeping call, when `Q` holds of the keys of all shards that it visited. -/
inductive Rounds.Covers (hash : Key α → ℕ) (w : Sweep α V T) (r : Rounds α V T w.β)
    (Q : Shared α V cfg → Key α → Prop) (s : Shared α V cfg) : Thread α V T → Prop
  | entering : Covers hash w r Q s (.entering r.op (.client .done))
  | running : Covers hash w r Q s (.running r.op (.client .done))
  | visiting (j : ℕ) (b : w.β) (hle : j ≤ cfg.shardCount) (h : ∀ k, (shardFor cfg hash k : ℕ) < j → Q s k) :
      Covers hash w r Q s (r.point j b)
  | answered (b : w.β) (h : ∀ k, Q s k) : Covers hash w r Q s (.finished (r.out b))
  | refused (exn : Exn) : Covers hash w r Q s (.finished (.raised exn))

section Covers

variable {w : Sweep α V T} {r : Rounds α V T w.β} {Q : Shared α V cfg → Key α → Prop} {s s' : Shared α V cfg}
  {th th' : Thread α V T}

/-- Steps of others. -/
theorem Rounds.Covers.keep (h : r.Covers hash w Q s th) (hkeep : ∀ k, Q s k → Q s' k) : r.Covers hash w Q s' th := by
  cases h with
  | entering => exact .entering
  | running => exact .running
  | visiting j b hle h => exact .visiting j b hle fun k hk => hkeep k (h k hk)
  | answered b h => exact .answered b fun k => hkeep k (h k)
  | refused exn => exact .refused exn

/-- A step of the thread: the section brings about `Q` for the keys of its shard. -/
theorem Rounds.Covers.step (hreads : r.Reads hash w) (h : r.Covers hash w Q s th) (hkeep : ∀ k, Q s k → Q s' k)
    (hvisit : ∀ i, s' = s.setShard i (w.visit s.now (s.shards i)).2 → ∀ k, shardFor cfg hash k = i → Q s' k)
    {c : Choice α V} (hstep : threadStep hash s c th = some (s', th')) : r.Covers hash w Q s' th' := by
  cases h with
  | entering =>
      have hclient : clientStep hash s c (.entering r.op (.client .done)) = some (s', th') := by
        rcases threadStep_cases hstep with h | h | h
        · exact h
        · cases h
        · cases h
      rcases entering_cases hclient with ⟨-, ⟨exn, rfl⟩, -⟩ | ⟨-, rfl, -⟩ | ⟨-, -, flush, hop⟩ | ⟨-, -, -, flush, hop, -⟩
      · exact .refused exn
      · exact .running
      · exact absurd hop (hreads.open_op flush)
      · exact absurd hop (hreads.open_op flush)
  | running =>
      rw [hreads.start, Option.some.injEq, Prod.mk.injEq] at hstep
      obtain ⟨-, rfl⟩ := hstep
      exact .visiting 0 _ (Nat.zero_le _) fun k hk => absurd hk (Nat.not_lt_zero _)
  | visiting j b hle h =>
      rcases Nat.lt_or_eq_of_le hle with hlt | rfl
      · have hpoint := hreads.visit s c ⟨j, hlt⟩ b
        rw [hpoint, Option.some.injEq, Prod.mk.injEq] at hstep
        obtain ⟨hs', rfl⟩ := hstep
        refine .visiting (j + 1) _ hlt fun k hk => ?_
        rcases Nat.lt_or_eq_of_le (Nat.le_of_lt_succ hk) with hbefore | hhere
        · exact hkeep k (h k hbefore)
        · exact hvisit ⟨j, hlt⟩ hs'.symm k (Fin.ext hhere)
      · rw [hreads.stop, Option.some.injEq, Prod.mk.injEq] at hstep
        obtain ⟨-, rfl⟩ := hstep
        exact .answered b fun k => hkeep k (h k (shardFor cfg hash k).isLt)
  | answered b h =>
      rw [threadStep_of_isFinished rfl] at hstep
      cases hstep
  | refused exn =>
      rw [threadStep_of_isFinished rfl] at hstep
      cases hstep

/-- **What the sections of a sweeping call bring about, and every step keeps**, holds of all keys when the call has
answered. -/
theorem rounds_cover (hreads : r.Reads hash w) (Q : Shared α V cfg → Key α → Prop)
    (Inv : System α V cfg → Prop) {s₀ s t : System α V cfg}
    {ls : List (Label α V T)} {result : Result α V T} (hgoing : ∀ j b, r.point j b ≠ .finished result)
    (hraised : ∀ exn, result ≠ .raised exn)
    (hinv : ∀ u l u', CacheLab.step cfg hash u l = some u' → Inv u → Inv u')
    (hkeep : ∀ u l u' k, CacheLab.step cfg hash u l = some u' → Inv u → Q u.shared k → Q u'.shared k)
    (hvisit : ∀ u u' i k, Inv u → Inv u' → u'.shared = u.shared.setShard i (w.visit u.shared.now (u.shared.shards i)).2 →
      shardFor cfg hash k = i → Q u'.shared k)
    (hs : Inv s) (hcall : CacheLab.step cfg hash s₀ (.call r.op) = some s) (hrun : exec cfg hash s ls = some t)
    (hdone : t.threads[s₀.threads.length]? = some (Thread.finished result)) (k : Key α) : Q t.shared k := by
  have hstep : ∀ u l u', CacheLab.step cfg hash u l = some u' →
      (Inv u ∧ ∃ th, u.threads[s₀.threads.length]? = some th ∧ r.Covers hash w Q u.shared th) →
      Inv u' ∧ ∃ th, u'.threads[s₀.threads.length]? = some th ∧ r.Covers hash w Q u'.shared th := by
    rintro u l u' hu ⟨hinvu, th, hth, hcovers⟩
    refine ⟨hinv u l u' hu hinvu, ?_⟩
    have hkept := fun k => hkeep u l u' k hu hinvu
    rcases step_thread hu hth with hstays | ⟨c, th', hthread, hth'⟩
    · exact ⟨th, hstays, hcovers.keep hkept⟩
    · refine ⟨th', hth', hcovers.step hreads hkept (fun i hs' k hk => ?_) hthread⟩
      exact hvisit u u' i k hinvu (hinv u l u' hu hinvu) hs' hk
  have hstart : Inv s ∧ ∃ th, s.threads[s₀.threads.length]? = some th ∧ r.Covers hash w Q s.shared th := by
    refine ⟨hs, .entering r.op (.client .done), ?_, .entering⟩
    obtain rfl := Option.some.inj hcall
    simp
  obtain ⟨-, th, hth, hcovers⟩ := Transition.run_invariant_of_step hstep hrun hstart
  obtain rfl : th = .finished result := Option.some.inj (hth.symm.trans hdone)
  generalize hend : (.finished result : Thread α V T) = th at hcovers
  cases hcovers with
  | entering => cases hend
  | running => cases hend
  | visiting j b hle h => exact absurd hend.symm (hgoing j b)
  | answered b h => exact h k
  | refused exn => exact absurd (Thread.finished.inj hend) (hraised exn)

end Covers

end CacheLab
