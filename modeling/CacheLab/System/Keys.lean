import CacheLab.System.Writes

/-!
# One key along a run

Whatever a step of the system is, for one key it is one of three things: a read sees what it saw before, the key is
gone, or a put section stored the key. `KeyStep` says this together with the events of the step, `step_key` is the
step lemma. Properties of keys that came in during a call follow from it without a look at the operations.
-/

set_option linter.unusedSectionVars false

namespace CacheLab

variable {α V T : Type} [DecidableEq α] [LinearOrder T] [Zero T] [Add T] [Sub T]

variable {cfg : AcceptedConfig T} {hash : Key α → ℕ} {k : Key α}

/-- What a step can do to a key, with the events that it notes. -/
inductive KeyStep (hash : Key α → ℕ) (s s' : Shared α V cfg) (k : Key α) (new : List (Event α V T)) : Prop
  | kept (htimed : (s'.home hash k).timed k = (s.home hash k).timed k)
  | lost (hnone : (s'.home hash k).timed k = none)
  | put (value : V) (ttl : Ttl T) (hstored : .stored k value ttl s.now ∈ new)
      (htimed : (s'.home hash k).timed k = some (value, (resolveTtl cfg.toCacheConfig
        (((s.home hash k).dropExpired k s.now).backend.getEntry k) ttl s.now).2))

section Effects

variable {s s' s₁ : Shared α V cfg} {c : Choice α V} {th : Thread α V T}

/-- What agrees on shards and log does the same to a key. -/
theorem KeyStep.same {new : List (Event α V T)} (h : KeyStep hash s s₁ k new) (heq : s₁.Same s') :
    KeyStep hash s s' k new := by
  have hhome : s'.home hash k = s₁.home hash k := by rw [Shared.home, heq.shards_eq]
  cases h with
  | kept htimed => exact .kept (by rw [hhome, htimed])
  | lost hnone => exact .lost (by rw [hhome, hnone])
  | put value ttl hstored htimed => exact .put value ttl hstored (by rw [hhome, htimed])

/-- Bookkeeping in one shard. -/
theorem KeyStep.of_sameData {i : Fin cfg.shardCount} {sh' : CacheShard α V T} {new : List (Event α V T)}
    (hd : (s.shards i).SameData sh') (hshards : s'.shards = Function.update s.shards i sh') :
    KeyStep hash s s' k new := by
  apply KeyStep.kept
  rw [Shared.home_of_update hshards]
  split_ifs with hi
  · rw [hd.timed_eq, Shared.home, hi]
  · rfl

/-- A section that is no write. -/
theorem KeyStep.of_tended {i : Fin cfg.shardCount} {sh' : CacheShard α V T} {new : List (Event α V T)}
    (ht : (s.shards i).Tended s.now sh') (hshards : s'.shards = Function.update s.shards i sh') :
    KeyStep hash s s' k new := by
  have hhome : s'.home hash k = _ := Shared.home_of_update hshards k
  by_cases hi : shardFor cfg hash k = i
  · rw [if_pos hi] at hhome
    rcases ht.key k with ⟨-, htimed⟩ | ⟨v, d, -, -, -, hnone⟩
    · exact .kept (by rw [hhome, htimed, Shared.home, hi])
    · exact .lost (by rw [hhome, hnone])
  · rw [if_neg hi] at hhome
    exact .kept (by rw [hhome])

/-- **What an effect does to a key**, and the events that it adds to the log. -/
theorem Effect.key {after : List (WriteBehind.Stage × Ticket α V)} (h : Effect hash c s th s' after)
    (hs : ∀ i, ShardOk cfg hash i (s.shards i)) (k : Key α) :
    ∃ new, s'.log = new ++ s.log ∧ KeyStep hash s s' k new := by
  have hkept : s'.shards = s.shards → KeyStep hash s s' k [] := by
    intro heq
    exact .kept (by rw [Shared.home, heq])
  cases h with
  | tend i htend hnow hshards hsource hlog hshift => exact ⟨[], hlog, .of_tended htend hshards⟩
  | put key value ttl caller hth heq =>
      by_cases hok : cfg.writeMode = .writeThrough ∧ c.ok key = false
      · rw [putSection_of_raised hash s key value ttl hok] at heq
        exact ⟨[], heq.log_eq, .of_tended (CacheShard.tended_dropExpired _ key s.now) heq.shards_eq⟩
      · obtain ⟨-, gone, hdone⟩ := putSection_of_returned hs key value ttl hok
        refine ⟨_, heq.log_eq.trans hdone.log_eq, KeyStep.same ?_ heq⟩
        have htimed := hdone.timed k
        split_ifs at htimed with hg hk
        · exact .lost htimed
        · subst hk
          exact .put value ttl (by simp) htimed
        · exact .kept htimed
  | delete key ok hth heq =>
      by_cases hok : cfg.writeMode = .writeThrough ∧ ok = false
      · rw [deleteSection_of_raised hash s key hok] at heq
        exact ⟨[], heq.log_eq, hkept heq.shards_eq⟩
      · obtain ⟨-, hdone⟩ := deleteSection_of_returned hash s key hok
        refine ⟨[.erased key], heq.log_eq.trans hdone.log_eq, KeyStep.same ?_ heq⟩
        have htimed := hdone.timed k
        split_ifs at htimed with hk
        · exact .lost htimed
        · exact .kept htimed
  | clear i ok ts hth heq =>
      obtain ⟨done, rest, hdone⟩ := clearSection_spec hs i ok
      refine ⟨_, heq.log_eq.trans hdone.log_eq, KeyStep.same ?_ heq⟩
      have htimed := hdone.timed k
      split_ifs at htimed with hk
      · exact .lost htimed
      · exact .kept htimed
  | check t hth i hi hst heq => exact ⟨[], heq.log_eq, hkept heq.shards_eq⟩
  | skip t hth hrel i hi hst heq =>
      exact ⟨[], heq.log_eq, .of_sameData (CacheShard.sameData_resolvePendingLocked _ _) heq.shards_eq⟩
  | apply t hth hok heq => exact ⟨[.applied t], heq.log_eq, .kept (by rw [Shared.home, heq.shards_eq]; rfl)⟩
  | fail t hth heq => exact ⟨[], heq.log_eq, hkept heq.shards_eq⟩
  | giveUp ts hth hgive heq => exact ⟨[], heq.log_eq, hkept heq.shards_eq⟩
  | release t ts hth hrel i hi heq =>
      exact ⟨[], heq.log_eq, .of_sameData (CacheShard.sameData_resolvePendingLocked _ _) heq.shards_eq⟩
  | settle t hth hrel i hi heq =>
      exact ⟨[], heq.log_eq, .of_sameData (CacheShard.sameData_finalizeLocked _ _) heq.shards_eq⟩
  | collect i hth hwb heq =>
      exact ⟨[], heq.log_eq, .of_sameData (CacheShard.sameData_registerAll _ _) heq.shards_eq⟩

/-- What a winding step does to a key. -/
theorem Wound.key {flushing : Bool} (h : Wound s s' flushing) (k : Key α) :
    ∃ new, s'.log = new ++ s.log ∧ KeyStep hash s s' k new := by
  obtain ⟨i, sh', hshards, hd, -⟩ := h.shards
  have hkey : ∀ {new : List (Event α V T)}, KeyStep hash s s' k new := .of_sameData hd hshards
  rcases h.source with ⟨-, hlog⟩ | ⟨-, t, -, hlog⟩
  · exact ⟨[], hlog, hkey⟩
  · exact ⟨[.applied t], hlog, hkey⟩

end Effects

/-- What a step of a thread does to a key. -/
theorem threadStep_key {s : System α V cfg} {s' : Shared α V cfg} {i : ℕ} {c : Choice α V} {th th' : Thread α V T}
    (h : threadStep hash s.shared c th = some (s', th')) (hi : s.threads[i]? = some th) (hb : Base hash s)
    (k : Key α) : ∃ new, s'.log = new ++ s.shared.log ∧ KeyStep hash s.shared s' k new := by
  have hmem := List.mem_of_getElem? hi
  rcases threadStep_effect h (hb.threads th hmem).2 (hb.flushing_mode hmem) with ⟨-, heff⟩ | ⟨-, hwound, -⟩
  · exact heff.key hb.shards k
  · exact hwound.key k

/-- **What a step of the system does to a key.** -/
theorem step_key {s s' : System α V cfg} {l : Label α V T} (h : step cfg hash s l = some s') (hb : Base hash s)
    (k : Key α) : ∃ new, s'.shared.log = new ++ s.shared.log ∧ KeyStep hash s.shared s'.shared k new := by
  rcases step_cases h with ⟨now, -, -, rfl⟩ | ⟨new, -, hsame, -⟩ | ⟨i, c, th, th', -, hi, hth, -⟩
  · exact ⟨[], rfl, .kept rfl⟩
  · exact ⟨[], hsame.log_eq, .kept (by rw [Shared.home, hsame.shards_eq])⟩
  · exact threadStep_key hth hi hb k

/-! ### Keys that came in since some moment -/

/-- The resident key was stored by a put since the log was `log`. -/
def Shared.StoredSince (hash : Key α → ℕ) (log : List (Event α V T)) (s : Shared α V cfg) (k : Key α) : Prop :=
  ((s.home hash k).timed k).isSome → ∃ new, s.log = new ++ log ∧ ∃ value ttl now, .stored k value ttl now ∈ new

/-- A key that is gone. -/
theorem Shared.storedSince_of_none {log : List (Event α V T)} {s : Shared α V cfg}
    (h : (s.home hash k).timed k = none) : s.StoredSince hash log k := by
  intro hsome
  rw [h] at hsome
  cases hsome

/-- **A key that was stored since then, or is gone, stays so.** -/
theorem KeyStep.storedSince {s s' : Shared α V cfg} {log new : List (Event α V T)} (h : KeyStep hash s s' k new)
    (hlog : s'.log = new ++ s.log) (hgrown : ∃ old, s.log = old ++ log) (hs : s.StoredSince hash log k) :
    s'.StoredSince hash log k := by
  intro hsome
  cases h with
  | kept htimed =>
      rw [htimed] at hsome
      obtain ⟨old, hold, value, ttl, now, hmem⟩ := hs hsome
      refine ⟨new ++ old, by rw [hlog, hold, List.append_assoc], value, ttl, now, ?_⟩
      exact List.mem_append_right new hmem
  | lost hnone =>
      rw [hnone] at hsome
      cases hsome
  | put value ttl hstored htimed =>
      obtain ⟨old, hold⟩ := hgrown
      refine ⟨new ++ old, by rw [hlog, hold, List.append_assoc], value, ttl, s.now, ?_⟩
      exact List.mem_append_left old hstored

end CacheLab
