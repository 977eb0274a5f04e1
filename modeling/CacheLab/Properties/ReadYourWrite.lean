import CacheLab.System.Base

/-!
# Reading what was put

Capacity enforcement runs inside `put` after the new key is in the policy, so the key that is being
put competes with the others for the next victim. `read_your_write_iff` says when it loses: it is read
back after the put returned exactly when it is not among the keys that the policy, told of the put,
would give up first (`putVictims`).

Under LRU the key just put is the last victim and never loses (`Agrees.notMem_putVictims_lru`). Under
LFU a new key has frequency 1 and loses against entries that were read; under FIFO an old key keeps its
place in the order and loses once the shard has overflowed.
-/

set_option linter.unusedSectionVars false

namespace CacheLab

variable {α V T : Type} [DecidableEq α] [LinearOrder T] [Zero T] [Add T] [Sub T]

variable {cfg : AcceptedConfig T} {hash : Key α → ℕ}

namespace CacheShard

variable {sh : CacheShard α V T}

/-- **Under LRU a put never evicts its own key**, if the shard may hold anything at all. -/
theorem Agrees.notMem_putVictims_lru (h : sh.Agrees) {p : LRUPolicy α} (hp : sh.policy = .lru p)
    (hcap : 0 < sh.capacity) (key : Key α) : key ∉ sh.putVictims key := by
  have horder : (sh.policy.onPut key).order = (p.order.keys.filter fun k => k ≠ key) ++ [key] := by
    rw [hp]
    exact EvictionPolicy.order_onPut_of_lru rfl key
  have hnd := (h.wf.onPut key).nodup_order
  have hlen : (sh.policy.onPut key).order.length =
      sh.backend.size + if key ∈ sh.backend.keys then 0 else 1 := by
    have hst : (sh.policy.onPut key).order.Perm
        (if key ∈ sh.backend.keys then sh.backend.keys else key :: sh.backend.keys) := by
      refine (List.perm_ext_iff_of_nodup hnd ?_).mpr fun k => ?_
      · split_ifs with hk
        · exact sh.backend.entries.keys_nodup
        · exact List.nodup_cons.mpr ⟨hk, sh.backend.entries.keys_nodup⟩
      · rw [h.wf.mem_order_onPut, h.mem_iff]
        split_ifs with hk
        · exact ⟨fun h => h.elim (fun e => e ▸ hk) id, .inr⟩
        · rw [List.mem_cons]
    rw [hst.length_eq, InMemoryBackend.size_eq_length_keys]
    split_ifs <;> simp
  rw [horder] at hnd hlen
  intro hmem
  rw [putVictims, horder] at hmem
  -- the key is the last of the order, and fewer than all are taken
  have htake : key ∈ ((p.order.keys.filter fun k => k ≠ key) ++ [key]).take
      (sh.backend.size + (if key ∈ sh.backend.keys then 0 else 1) - sh.capacity) :=
    ((List.takeWhile_prefix _).take _).subset hmem
  have hshort : sh.backend.size + (if key ∈ sh.backend.keys then 0 else 1) - sh.capacity ≤
      (p.order.keys.filter fun k => k ≠ key).length := by
    rw [List.length_append, List.length_singleton] at hlen
    omega
  rw [List.take_append_of_le_length hshort] at htake
  have := List.mem_of_mem_take htake
  simp at this

/-- The deadline of the entry that a put stores. -/
def putDeadline (cfg : CacheConfig T) (sh : CacheShard α V T) (key : Key α) (ttl : Ttl T) (now : T) :
    Option T :=
  (resolveTtl cfg ((sh.dropExpired key now).backend.getEntry key) ttl now).2

/-- A put of a shard that returned, read back below its deadline. -/
theorem Agrees.read_putLocked (h : sh.Agrees) {cfg : CacheConfig T} (src : Source α V)
    (key : Key α) (value : V) (ttl : Ttl T) {now t : T} {ok : Bool}
    (hok : ¬ (cfg.writeMode = .writeThrough ∧ ok = false))
    (ht : ∀ d, putDeadline cfg sh key ttl now = some d → t < d) (touch countStats : Bool) :
    ((sh.putLocked cfg src key value ttl now ok).shard.readValueLocked key touch countStats t).1 =
      if key ∈ (sh.dropExpired key now).putVictims key then none else some value := by
  have htimed : (sh.putLocked cfg src key value ttl now ok).shard.timed key =
      (sh.fitted cfg key value ttl now).timed key := by
    rw [h.putLocked_eq src key value ttl now hok]
    simp only
    split_ifs
    · exact (sameData_registerPendingLocked _ key).timed_eq key
    · rfl
  rw [readValueLocked_fst, htimed, timed_fitted, victims_stored, if_pos (rfl : key = key)]
  split_ifs with hv
  · rfl
  · cases hd : putDeadline cfg sh key ttl now with
    | none => simp only [putDeadline] at hd; simp [visible, hd]
    | some d =>
        have hlt := ht d hd
        simp only [putDeadline] at hd
        simp [visible, hd, hlt]

end CacheShard

/-! ### A put that runs alone -/

/-- The moving thread after its step. -/
theorem getElem?_set_self {s s' : System α V cfg} {i : ℕ} {th th' : Thread α V T}
    (hi : s.threads[i]? = some th) (hset : s'.threads = s.threads.set i th') :
    s'.threads[i]? = some th' := by
  rw [hset, List.getElem?_set_self]
  exact (List.getElem?_eq_some_iff.mp hi).1

/-- The put is on its way to raise. -/
def Failing (i : ℕ) (s : System α V cfg) : Prop :=
  (∃ ts, s.threads[i]? = some (Thread.releasing ts (.client .done))) ∨
    ∃ exn, s.threads[i]? = some (Thread.finished (.raised exn))

/-- The put is enqueuing its job or done, with the shards as `s₁` has them. -/
def Returning (s₁ : Shared α V cfg) (i : ℕ) (s : System α V cfg) : Prop :=
  s.shared.shards = s₁.shards ∧
    (s.threads[i]? = some (Thread.finished .done) ∨ ∃ ts, s.threads[i]? = some (Thread.enqueuing ts (.client .done)))

/-- A step of one thread, from that thread's point of view. -/
theorem step_run_cases {s s' : System α V cfg} {i : ℕ} {c : Choice α V} {th : Thread α V T}
    (hi : s.threads[i]? = some th) (hs : step cfg hash s (.run i c) = some s') :
    ∃ th', threadStep hash s.shared c th = some (s'.shared, th') ∧ s'.threads = s.threads.set i th' ∧
      s'.threads[i]? = some th' := by
  rcases step_cases hs with ⟨now, hl, -⟩ | ⟨new, -, -, -, hl, -⟩ | ⟨j, c', th₀, th', hl, hj, hstep, hset⟩
  · cases hl
  · exact absurd rfl (hl i c)
  · cases hl
    obtain rfl : th₀ = th := Option.some.inj (hj.symm.trans hi)
    exact ⟨th', hstep, hset, getElem?_set_self hj hset⟩

/-- A put that is on its way to raise does not return. -/
theorem Failing.step {i : ℕ} {s s' : System α V cfg} {c : Choice α V} (h : Failing i s)
    (hs : step cfg hash s (.run i c) = some s') : Failing i s' := by
  rcases h with ⟨ts, hth⟩ | ⟨exn, hth⟩
  · obtain ⟨th', hstep, -, hself⟩ := step_run_cases hth hs
    cases ts with
    | nil =>
        obtain rfl := (Prod.mk.inj (Option.some.inj hstep)).2
        exact .inr ⟨_, hself⟩
    | cons t ts =>
        obtain ⟨s₂, -, heq⟩ := Option.map_eq_some_iff.mp (clientStep_of_threadStep hstep rfl rfl)
        obtain rfl := (Prod.mk.inj heq).2
        exact .inl ⟨_, hself⟩
  · obtain ⟨th', hstep, -⟩ := step_run_cases hth hs
    cases hstep

/-- The rest of a put touches no shard unless it raises. -/
theorem Returning.step {s₁ : Shared α V cfg} {i : ℕ} {s s' : System α V cfg} {c : Choice α V}
    (h : Returning s₁ i s) (hs : CacheLab.step cfg hash s (.run i c) = some s') :
    Returning s₁ i s' ∨ Failing i s' := by
  obtain ⟨hsh, hth | ⟨ts, hth⟩⟩ := h
  · obtain ⟨th', hstep, -⟩ := step_run_cases hth hs
    cases hstep
  · obtain ⟨th', hstep, -, hself⟩ := step_run_cases hth hs
    obtain ⟨shared', threads'⟩ := s'
    cases ts with
    | nil =>
        cases hstep
        exact .inl ⟨hsh, .inl hself⟩
    | cons t ts =>
        simp only [threadStep, clientStep] at hstep
        split_ifs at hstep
        · cases hstep
          exact .inr (.inr ⟨_, hself⟩)
        · cases hstep
          exact .inr (.inl ⟨_, hself⟩)
        · cases ts with
          | nil =>
              cases hstep
              exact .inl ⟨hsh, .inl hself⟩
          | cons t' ts =>
              cases hstep
              exact .inl ⟨hsh, .inr ⟨_, hself⟩⟩

/-- A put that is on its way to raise has not returned. -/
theorem Failing.not_done {i : ℕ} {s : System α V cfg} (h : Failing i s) :
    s.threads[i]? ≠ some (Thread.finished .done) := by
  rcases h with ⟨ts, hth⟩ | ⟨exn, hth⟩ <;> simp [hth]

/-- The rest of a put that runs alone. -/
theorem Returning.exec {s₁ : Shared α V cfg} {i : ℕ} {s s' : System α V cfg}
    {ms : List (Label α V T)} (h : Returning s₁ i s ∨ Failing i s) (hms : ∀ l ∈ ms, ∃ c, l = .run i c)
    (hrun : exec cfg hash s ms = some s') (hdone : s'.threads[i]? = some (Thread.finished .done)) :
    Returning s₁ i s' := by
  have hstep : ∀ (s : System α V cfg) l s', (∃ c, l = Label.run i c) →
      CacheLab.step cfg hash s l = some s' → (Returning s₁ i s ∨ Failing i s) →
      (Returning s₁ i s' ∨ Failing i s') := by
    rintro s l s' ⟨c, rfl⟩ hs (h | h)
    · exact h.step hs
    · exact .inr (h.step hs)
  have hend := Transition.run_invariant hstep hrun
    (Transition.along_of_forall (fun l hl _ => hms l hl) s) h
  exact hend.resolve_right fun hfail => hfail.not_done hdone

/-- **A client put that runs alone and returns** leaves the shards as its section left them. -/
theorem put_alone {s s' : System α V cfg} {i : ℕ} {key : Key α} {value : V} {ttl : Ttl T}
    {ms : List (Label α V T)} (hi : s.threads[i]? = some (Thread.running (.put key value ttl) (.client .done)))
    (hms : ∀ l ∈ ms, ∃ c, l = .run i c) (hrun : exec cfg hash s ms = some s')
    (hdone : s'.threads[i]? = some (Thread.finished .done)) :
    ∃ ok, s'.shared.shards = (s.shared.putSection hash key value ttl ok).1.shards ∧
      (s.shared.putSection hash key value ttl ok).2.2 = false := by
  cases ms with
  | nil =>
      obtain rfl : s = s' := Option.some.inj hrun
      rw [hi] at hdone
      cases hdone
  | cons l ms =>
      obtain ⟨c, rfl⟩ := hms l List.mem_cons_self
      obtain ⟨s₂, hs₂, hrest⟩ := Transition.run_cons_eq_some.mp hrun
      obtain ⟨th', hstep, -, hself⟩ := step_run_cases hi hs₂
      have hms' : ∀ l ∈ ms, ∃ c, l = Label.run i c := fun l hl => hms l (List.mem_cons_of_mem _ hl)
      refine ⟨c.ok key, ?_⟩
      have h := clientStep_of_threadStep hstep rfl rfl
      simp only [clientStep] at h
      split_ifs at h with hr
      · -- the put raised, so it cannot return
        obtain rfl := (Prod.mk.inj (Option.some.inj h)).2
        have hfail : Failing i s' :=
          Transition.run_invariant (P := fun _ l => ∃ c, l = .run i c) (fun s l s' hl hs hf => by
              obtain ⟨c, rfl⟩ := hl
              exact Failing.step hf hs) hrest
            (Transition.along_of_forall (fun l hl _ => hms' l hl) s₂) (.inr ⟨_, hself⟩)
        exact absurd hdone hfail.not_done
      · have hret : Returning (s.shared.putSection hash key value ttl (c.ok key)).1 i s₂ := by
          cases hts : (s.shared.putSection hash key value ttl (c.ok key)).2.1 with
          | nil =>
              rw [hts] at h
              obtain ⟨h1, rfl⟩ := Prod.mk.inj (Option.some.inj h)
              exact ⟨by rw [← h1]; rfl, .inl hself⟩
          | cons t ts =>
              rw [hts] at h
              obtain ⟨h1, rfl⟩ := Prod.mk.inj (Option.some.inj h)
              exact ⟨by rw [← h1], .inr ⟨_, hself⟩⟩
        exact ⟨(Returning.exec (.inl hret) hms' hrest hdone).1, by simpa using hr⟩

/-- A read of a key whose put ran alone and returned, below the deadline of the new entry. -/
theorem read_put_alone {now t : T} {src : Source α V} {ls ms : List (Label α V T)}
    {s s' : System α V cfg} {i : ℕ} {key : Key α} {value : V} {ttl : Ttl T}
    (hreach : exec cfg hash (initial cfg now src) ls = some s)
    (hi : s.threads[i]? = some (Thread.running (.put key value ttl) (.client .done)))
    (hms : ∀ l ∈ ms, ∃ c, l = .run i c) (hrun : exec cfg hash s ms = some s')
    (hdone : s'.threads[i]? = some (Thread.finished .done))
    (ht : ∀ d, (s.shared.home hash key).putDeadline cfg.toCacheConfig key ttl s.shared.now = some d →
      t < d) (touch countStats : Bool) :
    ((s'.shared.home hash key).readValueLocked key touch countStats t).1 =
      if key ∈ ((s.shared.home hash key).dropExpired key s.shared.now).putVictims key then none
      else some value := by
  obtain ⟨ok, hshards, hret⟩ := put_alone hi hms hrun hdone
  have hagrees := ((base_exec hreach).shards (shardFor cfg hash key)).agrees
  have hok : ¬ (cfg.writeMode = .writeThrough ∧ ok = false) := by
    intro hfail
    simp only [Shared.putSection, CacheShard.putLocked_of_raised _ _ _ _ _ _ hfail] at hret
    cases hret
  have hshard : s'.shared.home hash key =
      ((s.shared.home hash key).putLocked cfg.toCacheConfig s.shared.source key value ttl
        s.shared.now ok).shard := by
    rw [Shared.home, hshards]
    exact Function.update_self _ _ _
  rw [hshard, hagrees.read_putLocked _ _ _ _ hok ht]

/-- **Read-your-write, exactly.** From any reachable state, after a put of a proper key that ran alone
and returned, and at any time below the deadline of the new entry, `contains` answers yes and `get` the
value that was put if and only if the key is none of the put's victims. -/
theorem read_your_write_iff {now t : T} {src : Source α V} {ls ms : List (Label α V T)}
    {s s' : System α V cfg} {i : ℕ} {a : α} {value : V} {ttl : Ttl T}
    (hreach : exec cfg hash (initial cfg now src) ls = some s)
    (hi : s.threads[i]? = some (Thread.running (.put (some a) value ttl) (.client .done)))
    (hms : ∀ l ∈ ms, ∃ c, l = .run i c) (hrun : exec cfg hash s ms = some s')
    (hdone : s'.threads[i]? = some (Thread.finished .done))
    (ht : ∀ d, (s.shared.home hash (some a)).putDeadline cfg.toCacheConfig (some a) ttl
      s.shared.now = some d → t < d) :
    (((s'.shared.home hash (some a)).readValueLocked (some a) false true t).1.isSome ∧
      ((s'.shared.home hash (some a)).readValueLocked (some a) true true t).1 =
        some value) ↔
      some a ∉ ((s.shared.home hash (some a)).dropExpired (some a)
        s.shared.now).putVictims (some a) := by
  rw [read_put_alone hreach hi hms hrun hdone ht, read_put_alone hreach hi hms hrun hdone ht]
  split_ifs with hv <;> simp [hv]

/-- The first put into an LRU cache is read back. -/
theorem read_your_write_first_put :
    ∃ s s' : System ℕ ℕ (oneEntry .lru .cacheOnly 0 0 0),
      exec _ (fun _ => 0) (initial _ 0 .empty) [.call (.put (some 1) 10 .unset), .run 0 {}] = some s ∧
      exec _ (fun _ => 0) s [.run 0 {}] = some s' ∧
      ((s'.shared.home (fun _ => 0) (some 1)).readValueLocked (some 1) true true 5).1 = some 10 := by
  have heval : ((exec (oneEntry .lru .cacheOnly 0 0 0) (fun _ => 0) (initial _ 0 .empty)
      [.call (.put (some 1) 10 .unset), .run 0 {}]).bind
      fun s : System ℕ ℕ (oneEntry .lru .cacheOnly 0 0 0) =>
        (exec _ (fun _ => 0) s [.run 0 {}]).map fun s' =>
          decide (s.threads[0]? = some (Thread.running (.put (some 1) 10 .unset) (.client .done)) ∧
            s'.threads[0]? = some (Thread.finished .done) ∧
            (s.shared.home (fun _ => 0) (some 1)).putDeadline
              (oneEntry .lru .cacheOnly 0 0 0).toCacheConfig (some 1) .unset s.shared.now = none ∧
            some 1 ∉ ((s.shared.home (fun _ => 0) (some 1)).dropExpired (some 1)
              s.shared.now).putVictims (some 1))) =
      some true := by decide +kernel
  obtain ⟨s, hs, heval⟩ := Option.bind_eq_some_iff.mp heval
  obtain ⟨s', hs', heval⟩ := Option.map_eq_some_iff.mp heval
  obtain ⟨hi, hdone, hdeadline, hvictims⟩ := of_decide_eq_true heval
  refine ⟨s, s', hs, hs', ((read_your_write_iff hs hi (by simp) hs' hdone ?_).mpr hvictims).2⟩
  intro d hd
  exact absurd (hdeadline.symm.trans hd) (by simp)

/-- Under LFU a put returns and its key is gone: the resident key was read, so the new one has the
lower frequency. -/
theorem lfu_put_evicts_own_key :
    ∃ s : System ℕ ℕ (oneEntry .lfu .cacheOnly 0 0 0),
      exec _ (fun _ => 0) (initial _ 0 .empty)
        [.call (.put (some 1) 10 .unset), .run 0 {}, .run 0 {}, .call (.get (some 1)), .run 1 {},
          .run 1 {}, .call (.put (some 2) 20 .unset), .run 2 {}, .run 2 {}] = some s ∧
      s.threads[2]? = some (Thread.finished .done) ∧
      ((s.shared.home (fun _ => 0) (some 2)).readValueLocked (some 2) false true s.shared.now).1 =
        none := by
  have heval : ((exec (oneEntry .lfu .cacheOnly 0 0 0) (fun _ => 0) (initial _ 0 .empty)
      [.call (.put (some 1) 10 .unset), .run 0 {}, .run 0 {}, .call (.get (some 1)), .run 1 {},
        .run 1 {}, .call (.put (some 2) 20 .unset), .run 2 {}, .run 2 {}]).map
      fun s : System ℕ ℕ (oneEntry .lfu .cacheOnly 0 0 0) =>
        decide (s.threads[2]? = some (Thread.finished .done) ∧
          ((s.shared.home (fun _ => 0) (some 2)).readValueLocked (some 2) false true s.shared.now).1 =
            none)) = some true := by decide +kernel
  obtain ⟨s, hs, heval⟩ := Option.map_eq_some_iff.mp heval
  exact ⟨s, hs, of_decide_eq_true heval⟩

end CacheLab
